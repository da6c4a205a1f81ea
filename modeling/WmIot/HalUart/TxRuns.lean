import WmIot.HalUart.Tx

/-!
# Every accepted buffer is sent once

What the handler does is put bytes from the offset, report the end, and start what the callback
passes. A task that is interrupted finds its buffer further on, or sent, or another in its place.
-/

namespace WmIot.HalUart
open Transition
set_option autoImplicit false

/-- What holds wherever no task is between the size and the offset. -/
structure Core (s : World) : Prop where
  noOverflow : s.overflow = false
  level : s.level ≤ fifoNum
  bytes : s.put ++ (if 0 < s.txSize then s.txData.drop s.txOffset else []) = s.accepted.flatten
  events : s.done ++ (if 0 < s.txSize then [s.txSize] else []) = s.accepted.map List.length
  data : 0 < s.txSize → s.txOffset ≤ s.txSize ∧ s.txData.length = s.txSize

section Handler
variable {s : World}

/-- Bytes that there are and have room. -/
theorem putData_eq (data : List UInt8) (n : Nat) : ∀ {s : World}, s.txOffset + n ≤ data.length →
    s.level + n ≤ fifoNum → putData data n s = { s with
      txOffset := s.txOffset + n
      level := s.level + n
      put := s.put ++ (data.drop s.txOffset).take n } := by
  induction n with
  | zero =>
    intro s _ _
    simp only [putData, Nat.add_zero, List.take_zero, List.append_nil]
  | succ n ih =>
    intro s hlen hroom
    have hlt : s.txOffset < data.length := by omega
    have hput : putchar s (data.getD s.txOffset 0) = { s with
        txOffset := s.txOffset + 1
        level := s.level + 1
        put := s.put ++ [data.getD s.txOffset 0] } := by
      have hfree : decide (fifoNum ≤ s.level) = false := decide_eq_false (by omega)
      unfold putchar
      rw [if_pos (by omega), hfree, Bool.or_false]
    have hdrop : (data.drop s.txOffset).take (n + 1) =
        data.getD s.txOffset 0 :: (data.drop (s.txOffset + 1)).take n := by
      rw [List.drop_eq_getElem_cons hlt, List.take_succ_cons, List.getD_eq_getElem?_getD, List.getElem?_eq_getElem hlt,
        Option.getD_some]
    rw [putData, hput, ih (by dsimp only; omega) (by dsimp only; omega), hdrop]
    simp only [List.append_assoc, List.singleton_append, World.mk.injEq, true_and, and_true]
    omega

/-- Bytes of the buffer being sent. -/
theorem Core.putData (h : Core s) (hactive : 0 < s.txSize) {n : Nat} (hneed : n ≤ s.txSize - s.txOffset)
    (hroom : n ≤ fifoNum - s.level) :
    Core { s with
      txOffset := s.txOffset + n
      level := s.level + n
      put := s.put ++ (s.txData.drop s.txOffset).take n } := by
  obtain ⟨hoffset, hlen⟩ := h.data hactive
  have hlevel := h.level
  refine ⟨h.noOverflow, ?_, ?_, h.events, fun _ => ⟨?_, hlen⟩⟩
  · dsimp only
    omega
  · have hbytes := h.bytes
    rw [if_pos hactive] at hbytes ⊢
    rw [List.append_assoc, ← List.drop_drop, List.take_append_drop]
    exact hbytes
  · dsimp only
    omega

/-- A call from the callback is refused, or starts its buffer. -/
theorem Core.txIt (h : Core s) (d : List UInt8) (sent : Nat) :
    Core (txIt s d sent) ∧ (txIt s d sent).pc = s.pc ∧
      (txIt s d sent = s ∨ s.accepted.length < (txIt s d sent).accepted.length) := by
  unfold HalUart.txIt
  split
  next => exact ⟨h, rfl, Or.inl rfl⟩
  next hstart =>
    have hne : d ≠ [] := fun hd => hstart (Or.inl hd)
    have hidle : ¬ 0 < s.txSize := fun hsize => hstart (Or.inr hsize)
    have hpos : 0 < d.length := List.length_pos_of_ne_nil hne
    have hlevel := h.level
    obtain ⟨s₀, hs₀⟩ : ∃ s₀, s₀ = drain sent { s with
      txData := d
      txSize := d.length
      txOffset := 0
      accepted := s.accepted ++ [d] } := ⟨_, rfl⟩
    have hcore : Core s₀ := by
      subst hs₀
      refine ⟨h.noOverflow, ?_, ?_, ?_, fun _ => ⟨Nat.zero_le _, rfl⟩⟩
      · exact Nat.le_trans (Nat.sub_le _ _) hlevel
      · have hbytes := h.bytes
        rw [if_neg hidle, List.append_nil] at hbytes
        unfold drain
        dsimp only
        rw [if_pos hpos, hbytes, List.drop_zero, List.flatten_append, List.flatten_singleton]
      · have hevents := h.events
        rw [if_neg hidle, List.append_nil] at hevents
        unfold drain
        dsimp only
        rw [if_pos hpos, hevents, List.map_append]
        rfl
    have hfields : s₀.txData = d ∧ s₀.txSize = d.length ∧ s₀.txOffset = 0 ∧ s₀.pc = s.pc ∧
        s₀.accepted = s.accepted ++ [d] := by
      subst hs₀
      exact ⟨rfl, rfl, rfl, rfl, rfl⟩
    obtain ⟨hdata, hsize, hzero, hpc, haccepted⟩ := hfields
    have hcount : s.accepted.length < s₀.accepted.length := by
      rw [haccepted, List.length_append, List.length_singleton]
      exact Nat.lt_succ_self _
    have hfits := hcore.level
    obtain ⟨n, hn⟩ : ∃ n, n = min (fifoNum - s₀.level) d.length := ⟨_, rfl⟩
    dsimp only
    rw [← hs₀, ← hn, putData_eq d n (by omega) (by omega)]
    refine ⟨?_, hpc, Or.inr hcount⟩
    rw [← hdata]
    exact hcore.putData (by omega) (by omega) (by omega)

theorem Core.foldl_txIt (next : List (List UInt8 × Nat)) : ∀ {s : World}, Core s →
    Core (next.foldl (fun s d => HalUart.txIt s d.1 d.2) s) ∧
      (next.foldl (fun s d => HalUart.txIt s d.1 d.2) s).pc = s.pc ∧
      (next.foldl (fun s d => HalUart.txIt s d.1 d.2) s = s ∨
        s.accepted.length < (next.foldl (fun s d => HalUart.txIt s d.1 d.2) s).accepted.length) := by
  induction next with
  | nil => exact fun h => ⟨h, rfl, Or.inl rfl⟩
  | cons d next ih =>
    intro s h
    obtain ⟨hcore, hpc, hstep⟩ := h.txIt d.1 d.2
    obtain ⟨hcore', hpc', hrest⟩ := ih hcore
    rw [List.foldl_cons]
    refine ⟨hcore', hpc'.trans hpc, ?_⟩
    rcases hstep with hsame | hmore
    · rw [hsame] at hrest ⊢
      exact hrest
    · rcases hrest with hsame | hmore'
      · rw [hsame]
        exact Or.inr hmore
      · exact Or.inr (Nat.lt_trans hmore hmore')

/-- The buffer of `s` is further on in `s'`, or sent. -/
structure Further (s s' : World) : Prop where
  offset : s.txOffset ≤ s'.txOffset
  level : s'.level = s.level + (s'.txOffset - s.txOffset)
  data : s'.txData = s.txData
  size : s'.txSize = s.txSize ∨ s'.txSize = 0 ∧ s'.txOffset = s.txSize

theorem Further.refl (s : World) : Further s s :=
  ⟨Nat.le_refl _, by omega, rfl, Or.inl rfl⟩

/-- The handler, once something was transmitted: the buffer is further on, or another was accepted. -/
theorem Core.irqTx (h : Core s) (hstarted : ¬ (s.txSize = 0 ∧ s.txOffset = 0)) (next : List (List UInt8 × Nat)) :
    Core (irqTx s next) ∧ (irqTx s next).pc = s.pc ∧
      (s.accepted.length < (irqTx s next).accepted.length ∨
        (irqTx s next).accepted = s.accepted ∧ Further s (irqTx s next)) := by
  unfold HalUart.irqTx
  split
  next hle =>
    have hactive : 0 < s.txSize := by omega
    obtain ⟨hoffset, hlen⟩ := h.data hactive
    have hlevel := h.level
    obtain ⟨n, hn⟩ : ∃ n, n = min (fifoNum - s.level) (s.txSize - s.txOffset) := ⟨_, rfl⟩
    dsimp only
    rw [← hn, putData_eq s.txData n (by omega) (by omega)]
    have hcore := h.putData hactive (n := n) (by omega) (by omega)
    obtain ⟨s₁, hs₁⟩ : ∃ s₁, s₁ = { s with
      txOffset := s.txOffset + n
      level := s.level + n
      put := s.put ++ (s.txData.drop s.txOffset).take n } := ⟨_, rfl⟩
    rw [← hs₁] at hcore ⊢
    have hsize : s₁.txSize = s.txSize := by rw [hs₁]
    have haccepted : s₁.accepted = s.accepted := by rw [hs₁]
    have hpc : s₁.pc = s.pc := by rw [hs₁]
    have hoff : s₁.txOffset = s.txOffset + n := by rw [hs₁]
    have hlev : s₁.level = s.level + n := by rw [hs₁]
    have hdat : s₁.txData = s.txData := by rw [hs₁]
    split
    next hend =>
      -- the event, with which the buffer is over
      have hover : Core { s₁ with done := s₁.done ++ [s₁.txSize], txSize := 0 } := by
        have hpos : 0 < s₁.txSize := by omega
        obtain ⟨_, hlen₁⟩ := hcore.data hpos
        have hbytes := hcore.bytes
        have hevents := hcore.events
        rw [if_pos hpos, List.drop_of_length_le (by omega), List.append_nil] at hbytes
        rw [if_pos hpos] at hevents
        refine ⟨hcore.noOverflow, hcore.level, ?_, ?_, fun hzero => absurd hzero (Nat.lt_irrefl 0)⟩
        · rw [if_neg (Nat.lt_irrefl 0), List.append_nil]
          exact hbytes
        · rw [if_neg (Nat.lt_irrefl 0), List.append_nil]
          exact hevents
      obtain ⟨hcore', hpc', hstep⟩ := hover.foldl_txIt next
      refine ⟨hcore', hpc'.trans hpc, ?_⟩
      rcases hstep with hsame | hmore
      · rw [hsame]
        refine Or.inr ⟨haccepted, ?_, ?_, hdat, Or.inr ⟨rfl, ?_⟩⟩
        · dsimp only
          omega
        · dsimp only
          omega
        · dsimp only
          omega
      · have hmore : s₁.accepted.length < _ := hmore
        have hsame := congrArg List.length haccepted
        exact Or.inl (by omega)
    next =>
      exact ⟨hcore, hpc, Or.inr ⟨haccepted, by omega, by omega, hdat, Or.inl hsize⟩⟩
  next => exact ⟨h, rfl, Or.inr ⟨rfl, .refl s⟩⟩

/-- Behind the last byte the handler does nothing. -/
theorem irqTx_behind (h : s.txSize < s.txOffset) (next : List (List UInt8 × Nat)) : irqTx s next = s := by
  unfold HalUart.irqTx
  exact if_neg (Nat.not_le.mpr h)

/-- With a full FIFO and bytes left neither. -/
theorem irqTx_full (h : s.txOffset < s.txSize) (hfull : fifoNum ≤ s.level) (next : List (List UInt8 × Nat)) :
    irqTx s next = s := by
  unfold HalUart.irqTx
  rw [if_pos (Nat.le_of_lt h), Nat.sub_eq_zero_of_le hfull, Nat.zero_min]
  exact if_neg (Nat.ne_of_gt h)

end Handler

/-! ## The task -/

/-- What a task knows of the buffer it had accepted as the `k`-th: while no other was accepted, it is
being sent, or sent. -/
structure Own (s : World) (data : List UInt8) (k : Nat) : Prop where
  nonempty : data ≠ []
  accepted : k ≤ s.accepted.length
  mine : s.accepted.length = k →
    s.txSize = 0 ∧ s.txOffset = data.length ∨ s.txSize = data.length ∧ s.txData = data

/-- As many bytes as are left up to `free` fit into the FIFO. -/
def Room (s : World) (data : List UInt8) (k free : Nat) : Prop :=
  free ≤ data.length ∧ (s.accepted.length = k → s.level + (free - s.txOffset) ≤ fifoNum)

/-- The size of the context is that of a buffer not accepted yet. -/
def Uncounted (s : World) : Prop := Core { s with txSize := 0 }

structure Held (s : World) : Prop where
  core : match s.pc with
    | .setOffset _ => Uncounted s
    | _ => Core s
  pc : match s.pc with
    | .idle => True
    | .check data => data ≠ []
    | .setData data => data ≠ [] ∧ s.txSize = 0
    | .setSize data => data ≠ [] ∧ s.txSize = 0 ∧ s.txData = data
    | .setOffset data => data ≠ [] ∧ s.txSize = data.length ∧ s.txData = data
    | .readFifo data k => Own s data k
    | .disableIrq data k free => Own s data k ∧ Room s data k free
    | .write data k free => Own s data k ∧ Room s data k free

section Task
variable {s s' : World}

/-- A step that leaves the buffer further on, or has another accepted, is fine with the task. -/
theorem Own.further {data : List UInt8} {k : Nat} (h : Own s data k)
    (hstep : s.accepted.length < s'.accepted.length ∨
      s'.accepted = s.accepted ∧ (s' = s ∨ 0 < s.txSize ∧ Further s s')) :
    Own s' data k := by
  rcases hstep with hmore | ⟨hsame, rfl | ⟨hactive, hfurther⟩⟩
  · refine ⟨h.nonempty, Nat.le_trans h.accepted (Nat.le_of_lt hmore), fun hk => ?_⟩
    have hle := h.accepted
    omega
  · exact h
  · refine ⟨h.nonempty, hsame ▸ h.accepted, fun hk => ?_⟩
    rw [hsame] at hk
    rcases h.mine hk with ⟨hzero, -⟩ | ⟨hsize, hdata⟩
    · omega
    · rcases hfurther.size with hsize' | ⟨hzero, hoffset⟩
      · exact Or.inr ⟨hsize'.trans hsize, hfurther.data.trans hdata⟩
      · exact Or.inl ⟨hzero, hoffset.trans hsize⟩

theorem Room.further {data : List UInt8} {k free : Nat} (h : Room s data k free)
    (hk : k ≤ s.accepted.length) (hlevel : s'.level ≤ fifoNum)
    (hstep : s.accepted.length < s'.accepted.length ∨
      s'.accepted = s.accepted ∧ (s' = s ∨ 0 < s.txSize ∧ Further s s')) :
    Room s' data k free := by
  rcases hstep with hmore | ⟨hsame, rfl | ⟨-, hfurther⟩⟩
  · exact ⟨h.1, fun heq => by omega⟩
  · exact h
  · refine ⟨h.1, fun heq => ?_⟩
    rw [hsame] at heq
    have hroom := h.2 heq
    have hoffset := hfurther.offset
    have hlev := hfurther.level
    omega

/-- The handler, where the task may be interrupted. -/
theorem Core.irqTx_own (h : Core s) (hstarted : ¬ (s.txSize = 0 ∧ s.txOffset = 0))
    (next : List (List UInt8 × Nat)) :
    s.accepted.length < (HalUart.irqTx s next).accepted.length ∨
      (HalUart.irqTx s next).accepted = s.accepted ∧
        (HalUart.irqTx s next = s ∨ 0 < s.txSize ∧ Further s (HalUart.irqTx s next)) := by
  obtain ⟨-, -, hstep⟩ := h.irqTx hstarted next
  rcases hstep with hmore | ⟨hsame, hfurther⟩
  · exact Or.inl hmore
  · refine Or.inr ⟨hsame, ?_⟩
    rcases Nat.eq_zero_or_pos s.txSize with hzero | hactive
    · exact Or.inl (irqTx_behind (by omega) next)
    · exact Or.inr ⟨hactive, hfurther⟩

theorem Held.init (h : Init s) : Held s := by
  obtain ⟨hsize, hoffset, hlevel, hoverflow, hpc, hput, haccepted, hdone⟩ := h
  have hidle : ¬ 0 < s.txSize := by omega
  refine ⟨?_, ?_⟩
  · rw [hpc]
    refine ⟨hoverflow, hlevel ▸ Nat.zero_le _, ?_, ?_, fun hpos => absurd hpos hidle⟩
    · rw [if_neg hidle, hput, haccepted]
      rfl
    · rw [if_neg hidle, hdone, haccepted]
      rfl
  · rw [hpc]
    trivial

/-- A step of the hardware. -/
theorem Held.drain (h : Held s) (n : Nat) : Held (HalUart.drain n s) := by
  have hcore := h.core
  have hpc := h.pc
  have hless : ∀ {t : World}, Core t → Core (HalUart.drain n t) := fun ht =>
    ⟨ht.noOverflow, Nat.le_trans (Nat.sub_le _ _) ht.level, ht.bytes, ht.events, ht.data⟩
  have hroom : ∀ data k free, Room s data k free → Room (HalUart.drain n s) data k free := by
    intro data k free hr
    refine ⟨hr.1, fun hk => ?_⟩
    have hfits := hr.2 hk
    unfold HalUart.drain
    dsimp only
    omega
  have hown : ∀ data k, Own s data k → Own (HalUart.drain n s) data k :=
    fun data k ho => ⟨ho.nonempty, ho.accepted, ho.mine⟩
  have hsame : (HalUart.drain n s).pc = s.pc := rfl
  refine ⟨?_, ?_⟩
  · rw [hsame]
    cases hp : s.pc with
    | setOffset data =>
      rw [hp] at hcore
      exact hless hcore
    | idle | check | setData | setSize | readFifo | disableIrq | write =>
      rw [hp] at hcore
      exact hless hcore
  · rw [hsame]
    cases hp : s.pc with
    | idle | check | setData | setSize | setOffset =>
      rw [hp] at hpc
      exact hpc
    | readFifo data k =>
      rw [hp] at hpc
      exact hown data k hpc
    | disableIrq data k free | write data k free =>
      rw [hp] at hpc
      exact ⟨hown data k hpc.1, hroom data k free hpc.2⟩

theorem Held.call (h : Held s) (hidle : s.pc = .idle) (data : List UInt8) :
    Held { s with pc := if data = [] then .idle else .check data } := by
  have hcore := h.core
  rw [hidle] at hcore
  have hcore' : Core s := hcore
  split
  next => exact ⟨⟨hcore'.noOverflow, hcore'.level, hcore'.bytes, hcore'.events, hcore'.data⟩, trivial⟩
  next hne =>
    exact ⟨⟨hcore'.noOverflow, hcore'.level, hcore'.bytes, hcore'.events, hcore'.data⟩, hne⟩

theorem Held.irq (h : Held s) (next : List (List UInt8 × Nat)) (hok : orderly s (.irq next))
    (hmask : s.pc.masked = false) : Held (HalUart.irqTx s next) := by
  obtain ⟨hstarted, hplace⟩ := hok
  have hcore := h.core
  have hpc := h.pc
  cases hp : s.pc with
  | setOffset data =>
    -- the only interrupts here are those that do nothing
    rw [hp] at hplace
    rcases hplace with hbehind | ⟨hmore, hfull⟩
    · rw [irqTx_behind hbehind]
      exact h
    · rw [irqTx_full hmore hfull]
      exact h
  | setData data =>
    rw [hp] at hpc
    have hzero : s.txSize = 0 := hpc.2
    rw [irqTx_behind (by omega)]
    exact h
  | setSize data =>
    rw [hp] at hpc
    have hzero : s.txSize = 0 := hpc.2.1
    rw [irqTx_behind (by omega)]
    exact h
  | write data k free =>
    rw [hp] at hmask
    cases hmask
  | idle | check data =>
    rw [hp] at hcore hpc
    have hcore : Core s := hcore
    obtain ⟨hcore', hpc', -⟩ := hcore.irqTx hstarted next
    refine ⟨?_, ?_⟩
    · rw [hpc', hp]
      exact hcore'
    · rw [hpc', hp]
      exact hpc
  | readFifo data k =>
    rw [hp] at hcore hpc
    have hcore : Core s := hcore
    have hown : Own s data k := hpc
    obtain ⟨hcore', hpc', -⟩ := hcore.irqTx hstarted next
    refine ⟨?_, ?_⟩
    · rw [hpc', hp]
      exact hcore'
    · rw [hpc', hp]
      exact hown.further (hcore.irqTx_own hstarted next)
  | disableIrq data k free =>
    rw [hp] at hcore hpc
    have hcore : Core s := hcore
    obtain ⟨hown, hroom⟩ : Own s data k ∧ Room s data k free := hpc
    obtain ⟨hcore', hpc', -⟩ := hcore.irqTx hstarted next
    have hstep := hcore.irqTx_own hstarted next
    refine ⟨?_, ?_⟩
    · rw [hpc', hp]
      exact hcore'
    · rw [hpc', hp]
      exact ⟨hown.further hstep, hroom.further hown.accepted hcore'.level hstep⟩

/-- The task has its buffer accepted. -/
theorem Held.accept {data : List UInt8} (h : Held s) (hp : s.pc = .setOffset data) :
    Held { s with
      txOffset := 0
      accepted := s.accepted ++ [data]
      pc := .readFifo data (s.accepted.length + 1) } := by
  have hcore := h.core
  have hpc := h.pc
  rw [hp] at hcore hpc
  obtain ⟨hne, hsize, hdata⟩ : data ≠ [] ∧ s.txSize = data.length ∧ s.txData = data := hpc
  have hcore : Uncounted s := hcore
  have hpos : 0 < s.txSize := hsize ▸ List.length_pos_of_ne_nil hne
  have hlen : (s.accepted ++ [data]).length = s.accepted.length + 1 := by
    rw [List.length_append, List.length_singleton]
  refine ⟨?_, ?_⟩
  · refine ⟨hcore.noOverflow, hcore.level, ?_, ?_, fun _ => ⟨Nat.zero_le _, hdata ▸ hsize.symm⟩⟩
    · have hbytes := hcore.bytes
      rw [if_neg (Nat.lt_irrefl 0), List.append_nil] at hbytes
      dsimp only at hbytes ⊢
      rw [if_pos hpos, hbytes, List.drop_zero, hdata, List.flatten_append, List.flatten_singleton]
    · have hevents := hcore.events
      rw [if_neg (Nat.lt_irrefl 0), List.append_nil] at hevents
      dsimp only at hevents ⊢
      rw [if_pos hpos, hevents, hsize, List.map_append]
      rfl
  · exact ⟨hne, hlen ▸ Nat.le_refl _, fun _ => Or.inr ⟨hsize, hdata⟩⟩

/-- A byte of the task's own buffer. -/
theorem Held.write {data : List UInt8} {k free : Nat} (h : Held s) (hp : s.pc = .write data k free)
    (hk : s.accepted.length = k) (hlt : s.txOffset < free) :
    Held (putchar s (data.getD s.txOffset 0)) := by
  have hcore := h.core
  have hpc := h.pc
  rw [hp] at hcore hpc
  have hcore : Core s := hcore
  obtain ⟨hown, hfree, hroom⟩ : Own s data k ∧ Room s data k free := hpc
  have hfits := hroom hk
  rcases hown.mine hk with ⟨hzero, hoffset⟩ | ⟨hsize, hdata⟩
  · omega
  · subst hdata
    have hactive : 0 < s.txSize := by omega
    have hone := putData_eq s.txData 1 (s := s) (by omega) (by omega)
    have hput : putData s.txData 1 s = putchar s (s.txData.getD s.txOffset 0) := rfl
    have hcore' := hcore.putData hactive (n := 1) (by omega) (by omega)
    rw [← hone, hput] at hcore'
    have hpc' : (putchar s (s.txData.getD s.txOffset 0)).pc = .write s.txData k free := hp
    refine ⟨?_, ?_⟩
    · rw [hpc']
      exact hcore'
    · rw [hpc']
      refine ⟨⟨hown.nonempty, hown.accepted, fun _ => Or.inr ⟨hsize, rfl⟩⟩, hfree, fun _ => ?_⟩
      rw [hput] at hone
      rw [hone]
      dsimp only
      omega

theorem Held.go (h : Held s) (hok : orderly s .go) (hstep : HalUart.go s = some s') : Held s' := by
  have hcore := h.core
  have hpc := h.pc
  have hplain : Core s → ∀ pc, Core { s with pc := pc } := fun ht pc =>
    ⟨ht.noOverflow, ht.level, ht.bytes, ht.events, ht.data⟩
  unfold HalUart.go at hstep
  cases hp : s.pc with
  | idle =>
    rw [hp] at hstep
    cases hstep
  | check data =>
    rw [hp] at hstep hcore hpc
    cases hstep
    by_cases hbusy : 0 < s.txSize
    · rw [if_pos hbusy]
      exact ⟨hplain hcore .idle, trivial⟩
    · rw [if_neg hbusy]
      exact ⟨hplain hcore (.setData data), hpc, Nat.eq_zero_of_not_pos hbusy⟩
  | setData data =>
    rw [hp] at hstep hcore hpc
    have hcore : Core s := hcore
    obtain ⟨hne, hzero⟩ : data ≠ [] ∧ s.txSize = 0 := hpc
    cases hstep
    have hidle : ¬ 0 < s.txSize := by omega
    refine ⟨⟨hcore.noOverflow, hcore.level, ?_, hcore.events, fun hpos => absurd hpos hidle⟩,
      hne, hzero, rfl⟩
    have hbytes := hcore.bytes
    rw [if_neg hidle] at hbytes ⊢
    exact hbytes
  | setSize data =>
    rw [hp] at hstep hcore hpc
    have hcore : Core s := hcore
    obtain ⟨hne, hzero, hdata⟩ : data ≠ [] ∧ s.txSize = 0 ∧ s.txData = data := hpc
    cases hstep
    have hidle : ¬ 0 < s.txSize := by omega
    refine ⟨⟨hcore.noOverflow, hcore.level, ?_, ?_, fun hpos => absurd hpos (Nat.lt_irrefl 0)⟩,
      hne, rfl, hdata⟩
    · have hbytes := hcore.bytes
      rw [if_neg hidle] at hbytes
      exact hbytes
    · have hevents := hcore.events
      rw [if_neg hidle] at hevents
      exact hevents
  | setOffset data =>
    rw [hp] at hstep
    cases hstep
    exact h.accept hp
  | readFifo data k =>
    rw [hp] at hstep hcore hpc
    have hcore : Core s := hcore
    have hown : Own s data k := hpc
    cases hstep
    refine ⟨hplain hcore _, ⟨hown.nonempty, hown.accepted, hown.mine⟩, Nat.min_le_right _ _, fun _ => ?_⟩
    have hlevel := hcore.level
    dsimp only
    omega
  | disableIrq data k free =>
    rw [hp] at hstep hcore hpc
    have hcore : Core s := hcore
    obtain ⟨hown, hroom⟩ : Own s data k ∧ Room s data k free := hpc
    cases hstep
    exact ⟨hplain hcore _, ⟨hown.nonempty, hown.accepted, hown.mine⟩, hroom⟩
  | write data k free =>
    unfold orderly at hok
    rw [hp] at hstep hok
    by_cases hlt : s.txOffset < free
    · dsimp only at hstep
      rw [if_pos hlt] at hstep
      cases hstep
      exact h.write hp (hok hlt) hlt
    · dsimp only at hstep
      rw [if_neg hlt] at hstep
      cases hstep
      rw [hp] at hcore
      exact ⟨hplain hcore .idle, trivial⟩

theorem Held.step (h : Held s) {e : Event} (hok : orderly s e) (hstep : HalUart.step s e = some s') :
    Held s' := by
  unfold HalUart.step at hstep
  cases e with
  | call data =>
    dsimp only at hstep
    split at hstep
    next hidle =>
      cases hstep
      exact h.call hidle data
    next => cases hstep
  | go => exact h.go hok hstep
  | irq next =>
    dsimp only at hstep
    cases hmask : s.pc.masked with
    | true =>
      rw [hmask, if_pos rfl] at hstep
      cases hstep
    | false =>
      rw [hmask, if_neg Bool.false_ne_true] at hstep
      cases hstep
      exact h.irq next hok hmask
  | sent n =>
    dsimp only at hstep
    split at hstep
    next =>
      cases hstep
      exact h.drain n
    next => cases hstep

theorem Held.sound (h : Held s) : Sound s := by
  have hcore := h.core
  cases hp : s.pc with
  | setOffset data =>
    rw [hp] at hcore
    have hcore : Uncounted s := hcore
    have hactive : s.active = false := by
      unfold World.active
      rw [hp]
    have hbytes := hcore.bytes
    have hevents := hcore.events
    rw [if_neg (Nat.lt_irrefl 0)] at hbytes hevents
    refine ⟨hcore.noOverflow, ?_, ?_⟩
    · unfold World.rest
      rw [hactive, if_neg Bool.false_ne_true]
      exact hbytes
    · rw [hactive, if_neg Bool.false_ne_true]
      exact hevents
  | idle | check | setData | setSize | readFifo | disableIrq | write =>
    rw [hp] at hcore
    have hcore : Core s := hcore
    have hactive : s.active = decide (0 < s.txSize) := by
      unfold World.active
      rw [hp]
    refine ⟨hcore.noOverflow, ?_, ?_⟩
    · unfold World.rest
      rw [hactive]
      simp only [decide_eq_true_eq]
      exact hcore.bytes
    · rw [hactive]
      simp only [decide_eq_true_eq]
      exact hcore.events

end Task

section Example

def resetWorld : World := ⟨[], 0, 0, 0, false, .idle, [], [], []⟩

theorem resetWorld_init : Init resetWorld := ⟨rfl, rfl, rfl, rfl, rfl, rfl, rfl, rfl⟩

/-- A call of a task up to its end, and the interrupt that finds its byte gone. -/
def oneByte : List Event := .call [7] :: List.replicate 8 .go ++ [.irq []]

/-- An interrupt before the task sets the offset of its second buffer. -/
def staleOffset : List Event := oneByte ++ .call [8, 9] :: List.replicate 3 .go ++ [.irq []]

/-- The callback sends a buffer while the task is about to write its own. -/
def staleData : List Event :=
  oneByte ++ .call [8, 8] :: List.replicate 5 .go ++ [.irq [([9], 0)], .go, .go]

/-- What is seen of the transmission. -/
def seen (s : World) : List UInt8 × List (List UInt8) × List Nat × Bool × Nat :=
  (s.put, s.accepted, s.done, s.active, s.txSize)

/-- Sizes that are reported, but not those of the buffers. -/
theorem not_sound_of_seen {s : World} {put : List UInt8} {accepted : List (List UInt8)}
    {done : List Nat} {active : Bool} {size : Nat} (h : seen s = (put, accepted, done, active, size))
    (hne : put ≠ accepted.flatten ∨ done ≠ accepted.map List.length) (hactive : active = false) :
    ¬ Sound s := by
  unfold seen at h
  simp only [Prod.mk.injEq] at h
  obtain ⟨hput, haccepted, hdone, hnow, -⟩ := h
  have hidle : s.active = false := hnow.trans hactive
  intro hs
  have hbytes := hs.bytes
  have hevents := hs.events
  unfold World.rest at hbytes
  rw [hidle, if_neg Bool.false_ne_true, List.append_nil] at hbytes hevents
  rcases hne with hne | hne
  · exact hne (by rw [← hput, ← haccepted, hbytes])
  · exact hne (by rw [← hdone, ← haccepted, hevents])

theorem reached_seen (es : List Event) (x : List UInt8 × List (List UInt8) × List Nat × Bool × Nat)
    (h : (exec step resetWorld es).map seen = some x) : ∃ s, Reached Init step anyStep s ∧ seen s = x := by
  obtain ⟨s, hs, heq⟩ := Option.map_eq_some_iff.mp h
  exact ⟨s, .of_exec (.start resetWorld_init) (along_anyStep _ _) hs, heq⟩

end Example

end WmIot.HalUart
