import WmIot.HalUart.Rx

/-!
# Every byte is reported once

The descriptors from the one that is filled next are the buffers that wait, in order, and `ctx->w` is
behind them. The handler puts bytes into the first of them, and lets go of it when it is full.
-/

namespace WmIot.HalUart.Rx
open Transition Ring
set_option autoImplicit false

/-! ## Ranges -/

@[simp] theorem range_length (mem : Nat → UInt8) (addr n : Nat) : (range mem addr n).length = n := by
  induction n with
  | zero => rfl
  | succ n ih =>
    unfold range
    rw [List.length_append, ih, List.length_singleton]

/-- A byte at or behind the end does not matter. -/
theorem range_update {mem : Nat → UInt8} {addr p : Nat} (b : UInt8) {n : Nat} (h : addr + n ≤ p) :
    range (Function.update mem p b) addr n = range mem addr n := by
  induction n with
  | zero => rfl
  | succ n ih =>
    unfold range
    rw [ih (by omega), Function.update_of_ne (by omega)]

/-- The next byte of a range. -/
theorem range_next (mem : Nat → UInt8) (addr n : Nat) (b : UInt8) :
    range (Function.update mem (addr + n) b) addr (n + 1) = range mem addr n ++ [b] := by
  rw [range, range_update b (Nat.le_refl _), Function.update_self]

/-- The inner loop takes bytes until one of the two ends is reached. -/
theorem fill_spec (addr len : Nat) (fifo : List UInt8) : ∀ {s : World}, s.timeoutOffset ≤ len →
    s.readOffset ≤ s.timeoutOffset → ∃ n mem, fill addr len fifo s = (fifo.drop n, { s with
      mem := mem
      timeoutOffset := s.timeoutOffset + n
      taken := s.taken ++ fifo.take n }) ∧
      n ≤ fifo.length ∧ s.timeoutOffset + n ≤ len ∧ (s.timeoutOffset + n < len → n = fifo.length) ∧
      range mem (addr + s.readOffset) (s.timeoutOffset + n - s.readOffset) =
        range s.mem (addr + s.readOffset) (s.timeoutOffset - s.readOffset) ++ fifo.take n := by
  induction fifo with
  | nil =>
    intro s hlen _
    refine ⟨0, s.mem, ?_, Nat.le_refl _, hlen, fun _ => rfl, ?_⟩
    · simp only [fill, List.drop_nil, List.take_nil, List.append_nil, Nat.add_zero]
    · simp only [List.take_nil, List.append_nil, Nat.add_zero]
  | cons b fifo ih =>
    intro s hlen hoffset
    unfold fill
    split
    next hlt =>
      obtain ⟨n, mem, hfill, hn, hle, hall, hrange⟩ := ih (s := { s with
        mem := Function.update s.mem (addr + s.timeoutOffset) b
        timeoutOffset := s.timeoutOffset + 1
        taken := s.taken ++ [b] }) hlt (Nat.le_succ_of_le hoffset)
      dsimp only at hfill hle hall hrange
      refine ⟨n + 1, mem, ?_, Nat.succ_le_succ hn, by omega, fun hmore => ?_, ?_⟩
      · rw [hfill]
        simp only [List.drop_succ_cons, List.take_succ_cons, List.append_assoc, List.singleton_append,
          Prod.mk.injEq, World.mk.injEq, true_and, and_true]
        omega
      · rw [hall (by omega), List.length_cons]
      · have hnext := range_next s.mem (addr + s.readOffset) (s.timeoutOffset - s.readOffset) b
        have hplace : addr + s.readOffset + (s.timeoutOffset - s.readOffset) = addr + s.timeoutOffset := by
          omega
        have hcount : s.timeoutOffset - s.readOffset + 1 = s.timeoutOffset + 1 - s.readOffset := by
          omega
        have hsum : s.timeoutOffset + (n + 1) - s.readOffset = s.timeoutOffset + 1 + n - s.readOffset := by
          omega
        rw [hplace, hcount] at hnext
        rw [hsum, hrange, hnext, List.take_succ_cons, List.append_assoc, List.singleton_append]
    next hfull =>
      refine ⟨0, s.mem, ?_, Nat.zero_le _, hlen, fun hlt => absurd hlt hfull, ?_⟩
      · simp only [List.drop_zero, List.take_zero, List.append_nil, Nat.add_zero]
      · simp only [List.take_zero, List.append_nil, Nat.add_zero]

/-! ## The ring -/

def Buffer.Proper (b : Buffer) : Prop := b.addr ≠ 0 ∧ 0 < b.size ∧ b.size < 65536

/-- What a call knows of its place. -/
def Stage (s : World) (a : Place) (n : Nat) : Pc → Prop
  | .idle => True
  | .init b | .initChain b | .readTail b => b.Proper
  | .test b m => b.Proper ∧ s.w = some m
  | .setLen b m => b.Proper ∧ s.w = some m ∧ n < recvBufNum
  | .setAddr b m => b.Proper ∧ s.w = some m ∧ n < recvBufNum ∧ (s.desc m).len = b.size
  | .setVld b m => b.Proper ∧ s.w = some m ∧ n < recvBufNum ∧ s.desc m = ⟨false, b.size, b.addr⟩
  | .setW b m => b.Proper ∧ s.w = some m ∧ place a n = m + 1

/-- The descriptors hold the buffers `q`, from `a` on. -/
structure Slots (desc : Place → Desc) (a : Place) (q : List Buffer) : Prop where
  fits : q.length ≤ recvBufNum
  valid : ∀ i b, q[i]? = some b → desc (place a i) = ⟨true, b.size, b.addr⟩
  proper : ∀ b ∈ q, b.Proper
  free : ∀ i, q.length ≤ i → i < recvBufNum → (desc (place a i)).vld = false

/-- The buffers `q` wait in the ring, from `a` on. -/
structure Chain (s : World) (a : Place) (q : List Buffer) : Prop where
  slots : Slots s.desc a q
  clean : ∀ i, q.length ≤ i → i < recvBufNum →
    (s.desc (place a i)).destAddr = 0 ∨ ∃ t b, s.pc t = .setVld b (place a i)
  front : s.front = some a
  once : ∀ t u, (s.pc t).inside = true → (s.pc u).inside = true → t = u
  tail : (∀ t b m, s.pc t ≠ .setW b m) → s.w = some (place a q.length)
  stage : ∀ t, Stage s a q.length (s.pc t)

/-- The account of the bytes, with `q` waiting. -/
structure Account (s : World) (q : List Buffer) : Prop where
  reported : s.ready.flatMap Ready.bytes = s.last
  kept : s.taken = s.last ++
    (q.take 1).flatMap fun b => range s.mem (b.addr + s.readOffset) (s.timeoutOffset - s.readOffset)
  inside : ∀ e ∈ s.ready, e.bytes.length = e.len ∧
    ∃ b ∈ s.appended, b.addr ≤ e.addr ∧ e.addr + e.len ≤ b.addr + b.size
  order : s.released ++ q = s.appended
  filled : s.taken.length = (s.released.map Buffer.size).sum + s.timeoutOffset
  offsets : s.readOffset ≤ s.timeoutOffset ∧ (q = [] → s.timeoutOffset = 0) ∧
    ∀ b ∈ q.head?, s.timeoutOffset < b.size

/-- No call found the ring yet. -/
structure Unstarted (s : World) : Prop where
  r : s.r = none
  w : s.w = none
  irq : s.irq = none
  history : s.appended = [] ∧ s.released = [] ∧ s.taken = [] ∧ s.last = [] ∧ s.ready = []
  offsets : s.readOffset = 0 ∧ s.timeoutOffset = 0
  calls : ∀ t, s.pc t = .idle ∨ ∃ b : Buffer, b.Proper ∧ (s.pc t = .init b ∨ s.pc t = .initChain b)

def Held (s : World) : Prop := Unstarted s ∨ ∃ a q, Chain s a q ∧ Account s q

section Ring
variable {s s' : World} {a : Place} {q : List Buffer}

/-- Descriptors that are filled in are found in order. -/
theorem waitingFrom_eq {desc : Place → Desc} (n : Nat) : ∀ {a : Place} {q : List Buffer},
    q.length ≤ n → (∀ i b, q[i]? = some b → desc (place a i) = ⟨true, b.size, b.addr⟩ ∧ b.addr ≠ 0) →
    (q.length < n → (desc (place a q.length)).vld = false) → waitingFrom desc n a = q := by
  induction n with
  | zero =>
    intro a q hfits _ _
    rw [List.eq_nil_of_length_eq_zero (Nat.le_zero.mp hfits)]
    rfl
  | succ n ih =>
    intro a q hfits hvalid hfree
    cases q with
    | nil =>
      have hvld := hfree (Nat.succ_pos n)
      rw [List.length_nil, place_zero] at hvld
      unfold waitingFrom
      rw [hvld, if_neg (fun h => Bool.false_ne_true h.1)]
    | cons b q =>
      obtain ⟨hdesc, hne⟩ := hvalid 0 b rfl
      rw [place_zero] at hdesc
      unfold waitingFrom
      rw [hdesc, if_pos ⟨rfl, hne⟩]
      have hrest : waitingFrom desc n (a + 1) = q := by
        refine ih (Nat.le_of_succ_le_succ hfits) (fun i b' hi => ?_) (fun hlt => ?_)
        · rw [place_next]
          exact hvalid (i + 1) b' hi
        · rw [place_next]
          exact hfree (Nat.succ_lt_succ hlt)
      rw [hrest]

theorem Slots.waiting {desc : Place → Desc} (h : Slots desc a q) :
    waitingFrom desc recvBufNum a = q :=
  waitingFrom_eq recvBufNum h.fits
    (fun i b hi => ⟨h.valid i b hi, (h.proper b (List.mem_of_getElem? hi)).1⟩)
    (fun hlt => h.free q.length (Nat.le_refl _) hlt)

/-- Places that are different steps away are different. -/
theorem place_ne {i j : Nat} (hi : i < recvBufNum) (hj : j < recvBufNum) (hne : i ≠ j) :
    place a i ≠ place a j :=
  fun heq => hne (place_inj hi hj heq)

/-- A free descriptor is written. -/
theorem Slots.write {desc : Place → Desc} (h : Slots desc a q) (hlt : q.length < recvBufNum) {d : Desc}
    (hvld : d.vld = false) : Slots (Function.update desc (place a q.length) d) a q := by
  refine ⟨h.fits, fun i b hi => ?_, h.proper, fun i hge hi => ?_⟩
  · have hi' : i < q.length := (List.getElem?_eq_some_iff.mp hi).1
    rw [Function.update_of_ne (place_ne (Nat.lt_trans hi' hlt) hlt (Nat.ne_of_lt hi'))]
    exact h.valid i b hi
  · by_cases hend : i = q.length
    · rw [hend, Function.update_self]
      exact hvld
    · rw [Function.update_of_ne (place_ne hi hlt hend)]
      exact h.free i hge hi

/-- A free descriptor becomes that of a buffer. -/
theorem Slots.push {desc : Place → Desc} (h : Slots desc a q) (hlt : q.length < recvBufNum) {b : Buffer}
    (hb : b.Proper) :
    Slots (Function.update desc (place a q.length) ⟨true, b.size, b.addr⟩) a (q ++ [b]) := by
  have hlen : (q ++ [b]).length = q.length + 1 := by
    rw [List.length_append, List.length_singleton]
  refine ⟨hlen ▸ hlt, fun i b' hi => ?_, fun b' hb' => ?_, fun i hge hi => ?_⟩
  · by_cases hend : i = q.length
    · subst hend
      rw [List.getElem?_append_right (Nat.le_refl _), Nat.sub_self] at hi
      cases hi
      exact Function.update_self _ _ _
    · have hi' : i < (q ++ [b]).length := (List.getElem?_eq_some_iff.mp hi).1
      rw [List.getElem?_append_left (by omega)] at hi
      rw [Function.update_of_ne (place_ne (by omega) hlt hend)]
      exact h.valid i b' hi
  · rcases List.mem_append.mp hb' with hb' | hb'
    · exact h.proper b' hb'
    · rw [List.mem_singleton.mp hb']
      exact hb
  · rw [hlen] at hge
    rw [Function.update_of_ne (place_ne hi hlt (by omega))]
    exact h.free i (Nat.le_of_succ_le hge) hi

/-- The first buffer leaves. -/
theorem Slots.pop {desc : Place → Desc} {b : Buffer} (h : Slots desc a (b :: q)) {d : Desc}
    (hvld : d.vld = false) : Slots (Function.update desc a d) (a + 1) q := by
  have hfits : q.length + 1 ≤ recvBufNum := h.fits
  have hother : ∀ i, i + 1 < recvBufNum → place a (i + 1) ≠ a := fun i hi => by
    have hne := place_ne (a := a) hi (Nat.zero_lt_of_lt hi) (Nat.succ_ne_zero i)
    rwa [place_zero] at hne
  refine ⟨Nat.le_of_succ_le hfits, fun i b' hi => ?_, fun b' hb' => h.proper b' (List.mem_cons_of_mem b hb'),
    fun i hge hi => ?_⟩
  · have hi' : i < q.length := (List.getElem?_eq_some_iff.mp hi).1
    rw [place_next, Function.update_of_ne (hother i (by omega))]
    exact h.valid (i + 1) b' hi
  · rw [place_next]
    by_cases hend : i + 1 = recvBufNum
    · rw [hend, place_around, Function.update_self]
      exact hvld
    · rw [Function.update_of_ne (hother i (by omega))]
      exact h.free (i + 1) (Nat.succ_le_succ hge) (by omega)

/-- A full ring has no free place. -/
theorem Slots.lt_of_free {desc : Place → Desc} (h : Slots desc a q)
    (hfree : (desc (place a q.length)).destAddr = 0) : q.length < recvBufNum := by
  refine Nat.lt_of_le_of_ne h.fits fun hfull => ?_
  cases q with
  | nil => exact absurd hfull (by decide)
  | cons b q =>
    have hdesc := h.valid 0 b rfl
    rw [place_zero] at hdesc
    rw [hfull, place_around, hdesc] at hfree
    exact (h.proper b List.mem_cons_self).1 hfree

theorem Chain.waiting (h : Chain s a q) : s.waiting = q := by
  unfold World.waiting
  rw [h.front]
  exact h.slots.waiting

theorem Account.sound (h : Account s q) (hwaiting : s.waiting = q) : Sound s := by
  subst hwaiting
  exact ⟨h.reported, h.kept, h.inside, h.order, h.filled, h.offsets⟩

theorem Held.sound (h : Held s) : Sound s := by
  rcases h with h | ⟨a, q, hchain, haccount⟩
  · obtain ⟨happended, hreleased, htaken, hlast, hready⟩ := h.history
    obtain ⟨hread, htimeout⟩ := h.offsets
    have hwaiting : s.waiting = [] := by
      unfold World.waiting World.front
      rw [h.irq, h.r]
    refine Account.sound ⟨?_, ?_, ?_, ?_, ?_, ?_⟩ hwaiting
    · rw [hready, hlast]
      rfl
    · rw [htaken, hlast]
      rfl
    · rw [hready]
      exact fun e he => absurd he List.not_mem_nil
    · rw [hreleased, happended]
      rfl
    · rw [htaken, hreleased, htimeout]
      rfl
    · rw [hread, htimeout]
      exact ⟨Nat.le_refl _, fun _ => rfl, fun b hb => by cases hb⟩
  · exact haccount.sound hchain.waiting

/-- Another task's call is where it was. -/
theorem Stage.outside {a' : Place} {n n' : Nat} {pc : Pc} (h : Stage s a n pc)
    (hout : pc.inside = false) : Stage s' a' n' pc := by
  cases pc with
  | idle => trivial
  | init b | initChain b | readTail b => exact h
  | test | setLen | setAddr | setVld | setW => cases hout

/-- In a call the others are outside. -/
theorem Chain.outside (h : Chain s a q) {t : Nat} (hin : (s.pc t).inside = true) {u : Nat} (hu : u ≠ t) :
    (s.pc u).inside = false := by
  cases hpc : (s.pc u).inside with
  | false => rfl
  | true => exact absurd (h.once u t hpc hin) hu

theorem Chain.tail_eq (h : Chain s a q) {t : Nat} (hin : (s.pc t).inside = true)
    (hne : ∀ b m, s.pc t ≠ .setW b m) : s.w = some (place a q.length) := by
  refine h.tail fun u b m hu => ?_
  by_cases hut : u = t
  · exact hne b m (hut ▸ hu)
  · have hout := h.outside hin hut
    rw [hu] at hout
    cases hout

theorem Chain.tail_quiet (h : Chain s a q) (hout : ∀ u, (s.pc u).inside = false) :
    s.w = some (place a q.length) := by
  refine h.tail fun u b m hu => ?_
  have hpc := hout u
  rw [hu] at hpc
  cases hpc

@[simp] theorem goto_pc (s : World) (t : Nat) (pc : Pc) : (s.goto t pc).pc = Function.update s.pc t pc := rfl

/-- A call goes on while the others are outside, or stays outside. -/
theorem once_goto (h : ∀ t u, (s.pc t).inside = true → (s.pc u).inside = true → t = u) (t : Nat) (pc : Pc)
    (hin : pc.inside = true → ∀ u, u ≠ t → (s.pc u).inside = false) :
    ∀ u v, (Function.update s.pc t pc u).inside = true → (Function.update s.pc t pc v).inside = true →
      u = v := by
  have hother : ∀ u, u ≠ t → (Function.update s.pc t pc u).inside = true →
      (s.pc u).inside = true := fun u hu hpc => by
    rwa [Function.update_of_ne hu] at hpc
  intro u v hu hv
  by_cases hut : u = t
  · by_cases hvt : v = t
    · rw [hut, hvt]
    · rw [hut, Function.update_self] at hu
      have hout := hin hu v hvt
      rw [hother v hvt hv] at hout
      cases hout
  · by_cases hvt : v = t
    · rw [hvt, Function.update_self] at hv
      have hout := hin hv u hut
      rw [hother u hut hu] at hout
      cases hout
    · exact h u v (hother u hut hu) (hother v hvt hv)

/-- A call goes on without a change of the ring. -/
theorem Chain.goto (h : Chain s a q) (t : Nat) {pc : Pc}
    (hold : ∀ b m, s.pc t ≠ .setVld b m ∧ s.pc t ≠ .setW b m)
    (hin : pc.inside = true → ∀ u, u ≠ t → (s.pc u).inside = false)
    (hstage : Stage s a q.length pc) : Chain (s.goto t pc) a q := by
  refine ⟨h.slots, fun i hge hi => ?_, h.front, once_goto h.once t pc hin, fun hnone => ?_, fun u => ?_⟩
  · rcases h.clean i hge hi with hzero | ⟨u, b, hu⟩
    · exact Or.inl hzero
    · have hut : u ≠ t := fun heq => (hold b _).1 (heq ▸ hu)
      exact Or.inr ⟨u, b, by rw [goto_pc, Function.update_of_ne hut, hu]⟩
  · refine h.tail fun u b m hu => ?_
    by_cases hut : u = t
    · exact (hold b m).2 (hut ▸ hu)
    · exact hnone u b m (by rw [goto_pc, Function.update_of_ne hut, hu])
  · rw [goto_pc]
    by_cases hut : u = t
    · rw [hut, Function.update_self]
      have hsame : ∀ p, Stage s a q.length p → Stage (s.goto t pc) a q.length p := fun p hp => by
        cases p <;> exact hp
      exact hsame pc hstage
    · rw [Function.update_of_ne hut]
      have hu := h.stage u
      cases hp : s.pc u <;> rw [hp] at hu <;> exact hu

/-- A call writes into the descriptor behind the waiting buffers. -/
theorem Chain.write (h : Chain s a q) {t : Nat} {pc : Pc} {d : Desc} (hlt : q.length < recvBufNum)
    (hin : (s.pc t).inside = true) (hne : ∀ b m, s.pc t ≠ .setW b m) (hvld : d.vld = false)
    (hclean : d.destAddr = 0 ∨ ∃ b, pc = .setVld b (place a q.length))
    (hstage : Stage { s with desc := Function.update s.desc (place a q.length) d } a q.length pc) :
    Chain (World.goto { s with desc := Function.update s.desc (place a q.length) d } t pc) a q := by
  have htail := h.tail_eq hin hne
  have hother : ∀ u, u ≠ t → (s.pc u).inside = false := fun u hu => h.outside hin hu
  refine ⟨h.slots.write hlt hvld, fun i hge hi => ?_, h.front, once_goto h.once t pc fun _ => hother,
    fun _ => htail, fun u => ?_⟩
  · rw [goto_pc]
    dsimp only [World.goto]
    by_cases hend : i = q.length
    · rw [hend, Function.update_self]
      rcases hclean with hzero | ⟨b, hb⟩
      · exact Or.inl hzero
      · exact Or.inr ⟨t, b, by rw [Function.update_self, hb]⟩
    · rw [Function.update_of_ne (place_ne hi hlt hend)]
      refine Or.inl ((h.clean i hge hi).resolve_right ?_)
      rintro ⟨u, b, hu⟩
      have hstage' := h.stage u
      rw [hu] at hstage'
      have heq : place a i = place a q.length := Option.some.inj (hstage'.2.1.symm.trans htail)
      exact place_ne hi hlt hend heq
  · rw [goto_pc]
    by_cases hut : u = t
    · rw [hut, Function.update_self]
      cases pc <;> exact hstage
    · rw [Function.update_of_ne hut]
      exact (h.stage u).outside (hother u hut)

/-- A call makes its descriptor valid. -/
theorem Chain.accept (h : Chain s a q) {t : Nat} {b : Buffer} {m : Place} (ht : s.pc t = .setVld b m) :
    Chain ((setVld b m s).goto t (.setW b m)) a (q ++ [b]) := by
  have hin : (s.pc t).inside = true := by rw [ht]; rfl
  have hne : ∀ b m, s.pc t ≠ .setW b m := fun b m hw => by rw [ht] at hw; cases hw
  have htail := h.tail_eq hin hne
  have hother : ∀ u, u ≠ t → (s.pc u).inside = false := fun u hu => h.outside hin hu
  have hstage := h.stage t
  rw [ht] at hstage
  obtain ⟨hb, hw, hlt, hdesc⟩ : b.Proper ∧ s.w = some m ∧ q.length < recvBufNum ∧
    s.desc m = ⟨false, b.size, b.addr⟩ := hstage
  have hm : m = place a q.length := Option.some.inj (hw.symm.trans htail)
  have hslots : Slots (setVld b m s).desc a (q ++ [b]) := by
    unfold setVld
    dsimp only
    rw [hdesc, hm]
    exact h.slots.push hlt hb
  have hlen : (q ++ [b]).length = q.length + 1 := by
    rw [List.length_append, List.length_singleton]
  refine ⟨hslots, fun i hge hi => ?_, h.front, once_goto h.once t _ fun _ => hother, fun hnone => ?_,
    fun u => ?_⟩
  · rw [hlen] at hge
    have hi' : place a i ≠ m := hm ▸ place_ne hi hlt (by omega)
    have hdest : ((setVld b m s).desc (place a i)).destAddr = (s.desc (place a i)).destAddr := by
      unfold setVld
      dsimp only
      rw [Function.update_of_ne hi']
    refine Or.inl (hdest.trans ((h.clean i (Nat.le_of_succ_le hge) hi).resolve_right ?_))
    rintro ⟨u, b', hu⟩
    have hstage' := h.stage u
    rw [hu] at hstage'
    exact hi' (Option.some.inj (hstage'.2.1.symm.trans hw))
  · exact absurd (by rw [goto_pc, Function.update_self]) (hnone t b m)
  · rw [goto_pc]
    by_cases hut : u = t
    · rw [hut, Function.update_self, hlen]
      refine ⟨hb, hw, ?_⟩
      rw [place_succ, hm]
    · rw [Function.update_of_ne hut]
      exact (h.stage u).outside (hother u hut)

/-- A call moves `ctx->w` on. -/
theorem Chain.advance (h : Chain s a q) {t : Nat} {b : Buffer} {m : Place} (ht : s.pc t = .setW b m) :
    Chain ((setW m s).goto t .idle) a q := by
  have hin : (s.pc t).inside = true := by rw [ht]; rfl
  have hother : ∀ u, u ≠ t → (s.pc u).inside = false := fun u hu => h.outside hin hu
  have hstage := h.stage t
  rw [ht] at hstage
  refine ⟨h.slots, fun i hge hi => ?_, h.front,
    once_goto h.once t _ fun hidle => absurd hidle Bool.false_ne_true, fun _ => ?_, fun u => ?_⟩
  · rcases h.clean i hge hi with hzero | ⟨u, b', hu⟩
    · exact Or.inl hzero
    · have hut : u ≠ t := fun heq => by
        rw [heq, ht] at hu
        cases hu
      have hout := hother u hut
      rw [hu] at hout
      cases hout
  · exact congrArg some hstage.2.2.symm
  · rw [goto_pc]
    by_cases hut : u = t
    · rw [hut, Function.update_self]
      trivial
    · rw [Function.update_of_ne hut]
      exact (h.stage u).outside (hother u hut)

/-- What the account of the bytes is about, but for the buffers. -/
def World.bytes (s : World) :=
  (s.ready, s.last, s.taken, s.mem, s.readOffset, s.timeoutOffset, s.released)

theorem Account.congr (h : Account s q) (hbytes : s'.bytes = s.bytes) (happended : s'.appended = s.appended) :
    Account s' q := by
  simp only [World.bytes, Prod.mk.injEq] at hbytes
  obtain ⟨hready, hlast, htaken, hmem, hread, htimeout, hreleased⟩ := hbytes
  refine ⟨?_, ?_, ?_, ?_, ?_, ?_⟩
  · rw [hready, hlast]
    exact h.reported
  · rw [htaken, hlast, hmem, hread, htimeout]
    exact h.kept
  · rw [hready, happended]
    exact h.inside
  · rw [hreleased, happended]
    exact h.order
  · rw [htaken, hreleased, htimeout]
    exact h.filled
  · rw [hread, htimeout]
    exact h.offsets

/-- Another buffer waits. -/
theorem Account.push (h : Account s q) {b : Buffer} (hb : b.Proper) (hbytes : s'.bytes = s.bytes)
    (happended : s'.appended = s.appended ++ [b]) : Account s' (q ++ [b]) := by
  simp only [World.bytes, Prod.mk.injEq] at hbytes
  obtain ⟨hready, hlast, htaken, hmem, hread, htimeout, hreleased⟩ := hbytes
  obtain ⟨hle, hempty, hlt⟩ := h.offsets
  have hkept := h.kept
  refine ⟨?_, ?_, fun e he => ?_, ?_, ?_, ?_⟩
  · rw [hready, hlast]
    exact h.reported
  · rw [htaken, hlast, hmem, hread, htimeout]
    cases q with
    | nil =>
      have hzero := hempty rfl
      have hnone : s.timeoutOffset - s.readOffset = 0 := by omega
      rw [hnone, hkept]
      simp only [List.take_nil, List.flatMap_nil, List.append_nil, List.nil_append, List.take_succ_cons,
        List.flatMap_cons, range]
    | cons b' q => exact hkept
  · rw [hready] at he
    obtain ⟨hlen, b', hb', hrange⟩ := h.inside e he
    exact ⟨hlen, b', happended ▸ List.mem_append_left [b] hb', hrange⟩
  · rw [hreleased, happended, ← List.append_assoc, h.order]
  · rw [htaken, hreleased, htimeout]
    exact h.filled
  · rw [hread, htimeout]
    refine ⟨hle, fun hnil => ?_, fun b' hb' => ?_⟩
    · exact absurd hnil (List.append_ne_nil_of_right_ne_nil q (List.cons_ne_nil b []))
    · cases q with
      | nil =>
        cases hb'
        rw [hempty rfl]
        exact hb.2.1
      | cons b'' q => exact hlt b' hb'

/-- `wm_hal_uart_rx_it` from the callback, with no call of a task inside. -/
theorem rxIt_held (hchain : Chain s a q) (haccount : Account s q) (hout : ∀ u, (s.pc u).inside = false)
    {b : Buffer} (hsize : b.size < 65536) :
    ∃ q', Chain (rxIt s b) a q' ∧ Account (rxIt s b) q' ∧ (rxIt s b).pc = s.pc := by
  have htail := hchain.tail_quiet hout
  unfold rxIt
  split
  next => exact ⟨q, hchain, haccount, rfl⟩
  next hparam =>
    have hb : b.Proper := ⟨fun hzero => hparam (Or.inl hzero),
      Nat.pos_of_ne_zero fun hzero => hparam (Or.inr hzero), hsize⟩
    have hring : s.w ≠ none := by
      rw [htail]
      exact Option.some_ne_none _
    dsimp only
    rw [if_neg hring, htail]
    dsimp only
    split
    next => exact ⟨q, hchain, haccount, rfl⟩
    next hfree =>
      have hfree : (s.desc (place a q.length)).destAddr = 0 := not_ne_iff.mp hfree
      have hlt := hchain.slots.lt_of_free hfree
      have hdesc : (setW (place a q.length) (setVld b (place a q.length) (setAddr b (place a q.length)
          (setLen b (place a q.length) s)))).desc =
            Function.update s.desc (place a q.length) ⟨true, b.size, b.addr⟩ := by
        unfold setW setVld setAddr setLen
        dsimp only
        rw [Function.update_self, Function.update_self, Function.update_idem, Function.update_idem,
          Nat.mod_eq_of_lt hb.2.2]
      have hlen : (q ++ [b]).length = q.length + 1 := by
        rw [List.length_append, List.length_singleton]
      refine ⟨q ++ [b], ⟨?_, fun i hge hi => ?_, hchain.front, hchain.once, fun _ => ?_, fun u => ?_⟩,
        haccount.push hb rfl rfl, rfl⟩
      · rw [hdesc]
        exact hchain.slots.push hlt hb
      · rw [hlen] at hge
        rw [hdesc, Function.update_of_ne (place_ne hi hlt (by omega))]
        exact hchain.clean i (Nat.le_of_succ_le hge) hi
      · rw [hlen, place_succ]
        rfl
      · exact (hchain.stage u).outside (hout u)

theorem foldl_rxIt_held (calls : List Buffer) : ∀ {s : World} {q : List Buffer}, Chain s a q →
    Account s q → (∀ b ∈ calls, b.size < 65536) → (calls = [] ∨ ∀ u, (s.pc u).inside = false) →
    ∃ q', Chain (calls.foldl rxIt s) a q' ∧ Account (calls.foldl rxIt s) q' := by
  induction calls with
  | nil => exact fun hchain haccount _ _ => ⟨_, hchain, haccount⟩
  | cons b calls ih =>
    intro s q hchain haccount hsize hquiet
    have hout : ∀ u, (s.pc u).inside = false := hquiet.resolve_left (List.cons_ne_nil _ _)
    obtain ⟨q', hchain', haccount', hpc⟩ := rxIt_held hchain haccount hout (hsize b List.mem_cons_self)
    refine ih hchain' haccount' (fun b' hb' => hsize b' (List.mem_cons_of_mem b hb')) (Or.inr ?_)
    rw [hpc]
    exact hout

end Ring

/-! ## The handler -/

/-- The account while `b` is being filled, perhaps to its end. -/
structure Filling (s : World) (b : Buffer) (q : List Buffer) : Prop where
  reported : s.ready.flatMap Ready.bytes = s.last
  kept : s.taken = s.last ++ range s.mem (b.addr + s.readOffset) (s.timeoutOffset - s.readOffset)
  inside : ∀ e ∈ s.ready, e.bytes.length = e.len ∧
    ∃ b ∈ s.appended, b.addr ≤ e.addr ∧ e.addr + e.len ≤ b.addr + b.size
  order : s.released ++ b :: q = s.appended
  filled : s.taken.length = (s.released.map Buffer.size).sum + s.timeoutOffset
  offsets : s.readOffset ≤ s.timeoutOffset ∧ s.timeoutOffset ≤ b.size

section Handler
variable {s s' : World} {a : Place} {b : Buffer} {q : List Buffer}

theorem Account.filling (h : Account s (b :: q)) : Filling s b q := by
  obtain ⟨hle, -, hlt⟩ := h.offsets
  refine ⟨h.reported, ?_, h.inside, h.order, h.filled, hle, Nat.le_of_lt (hlt b rfl)⟩
  have hkept := h.kept
  rw [List.take_succ_cons, List.take_zero, List.flatMap_singleton] at hkept
  exact hkept

theorem Filling.account (h : Filling s b q) (hlt : s.timeoutOffset < b.size) : Account s (b :: q) := by
  refine ⟨h.reported, ?_, h.inside, h.order, h.filled, h.offsets.1,
    fun hnil => absurd hnil (List.cons_ne_nil b q), fun c hc => ?_⟩
  · rw [List.take_succ_cons, List.take_zero, List.flatMap_singleton]
    exact h.kept
  · cases hc
    exact hlt

/-- The inner loop. -/
theorem Filling.fill (h : Filling s b q) (fifo : List UInt8) :
    ∃ n mem, HalUart.Rx.fill b.addr b.size fifo s = (fifo.drop n, { s with
      mem := mem
      timeoutOffset := s.timeoutOffset + n
      taken := s.taken ++ fifo.take n }) ∧
      Filling { s with
        mem := mem
        timeoutOffset := s.timeoutOffset + n
        taken := s.taken ++ fifo.take n } b q := by
  obtain ⟨hle, hsize⟩ := h.offsets
  obtain ⟨n, mem, hfill, hn, hend, -, hrange⟩ := fill_spec b.addr b.size fifo hsize hle
  refine ⟨n, mem, hfill, h.reported, ?_, h.inside, h.order, ?_, Nat.le_add_right_of_le hle, hend⟩
  · dsimp only
    rw [hrange, ← List.append_assoc, ← h.kept]
  · dsimp only
    rw [List.length_append, List.length_take_of_le hn, h.filled, Nat.add_assoc]

/-- The range of an event is in the buffer. -/
theorem Filling.event_inside (h : Filling s b q) : ∀ e ∈ s.ready ++ [event b.addr s],
    e.bytes.length = e.len ∧ ∃ b ∈ s.appended, b.addr ≤ e.addr ∧ e.addr + e.len ≤ b.addr + b.size := by
  intro e he
  rcases List.mem_append.mp he with he | he
  · exact h.inside e he
  · rw [List.mem_singleton.mp he]
    obtain ⟨hle, hsize⟩ := h.offsets
    have hb : b ∈ s.appended := by
      rw [← h.order]
      exact List.mem_append_right _ List.mem_cons_self
    refine ⟨range_length _ _ _, b, hb, Nat.le_add_right _ _, ?_⟩
    unfold event
    dsimp only
    omega

theorem Filling.event_reported (h : Filling s b q) :
    (s.ready ++ [event b.addr s]).flatMap Ready.bytes = s.taken := by
  rw [List.flatMap_append, List.flatMap_singleton, h.reported, h.kept]
  rfl

/-- The event of a timeout. -/
theorem Filling.timeout (h : Filling s b q) (hlt : s.timeoutOffset < b.size) :
    Account { s with
      readOffset := s.timeoutOffset
      ready := s.ready ++ [event b.addr s]
      last := s.taken } (b :: q) := by
  have hnone : range s.mem (b.addr + s.timeoutOffset) (s.timeoutOffset - s.timeoutOffset) = [] := by
    rw [Nat.sub_self]
    rfl
  refine Filling.account ⟨h.event_reported, ?_, h.event_inside, h.order, h.filled, Nat.le_refl _,
    h.offsets.2⟩ hlt
  dsimp only
  rw [hnone, List.append_nil]

/-- The event of a buffer that is full. -/
theorem Filling.release (h : Filling s b q) (hfull : s.timeoutOffset = b.size)
    (hproper : ∀ c ∈ q, c.Proper) :
    Account { s with
      timeoutOffset := 0
      readOffset := 0
      released := s.released ++ [b]
      ready := s.ready ++ [event b.addr s]
      last := s.taken } q := by
  refine ⟨h.event_reported, ?_, h.event_inside, ?_, ?_, Nat.le_refl _, fun _ => rfl, fun c hc => ?_⟩
  · dsimp only
    cases q <;> exact (List.append_nil _).symm
  · dsimp only
    rw [List.append_assoc, List.singleton_append, h.order]
  · dsimp only
    rw [h.filled, hfull, List.map_append, List.sum_append, List.map_singleton, List.sum_singleton,
      Nat.add_zero]
  · exact (hproper c (List.mem_of_mem_head? hc)).2.1

theorem Stage.congr {n : Nat} {pc : Pc} (h : Stage s a n pc) (hw : s'.w = s.w)
    (hdesc : s'.desc = s.desc) : Stage s' a n pc := by
  cases pc with
  | idle => trivial
  | init | initChain | readTail => exact h
  | test | setLen | setW =>
    unfold Stage at h ⊢
    rw [hw]
    exact h
  | setAddr | setVld =>
    unfold Stage at h ⊢
    rw [hw, hdesc]
    exact h

/-- The ring is about no more than this. -/
theorem Chain.congr (h : Chain s a q) (hdesc : s'.desc = s.desc) (hw : s'.w = s.w) (hpc : s'.pc = s.pc)
    (hfront : s'.front = s.front) : Chain s' a q := by
  refine ⟨hdesc ▸ h.slots, hdesc ▸ hpc ▸ h.clean, hfront ▸ h.front, hpc ▸ h.once, hw ▸ hpc ▸ h.tail,
    fun t => ?_⟩
  rw [hpc]
  exact (h.stage t).congr hw hdesc

/-- The handler lets go of the first descriptor. -/
theorem Chain.release (h : Chain s a (b :: q)) {d : Desc} (hvld : d.vld = false) (hdest : d.destAddr = 0)
    (hdesc : s'.desc = Function.update s.desc a d) (hw : s'.w = s.w) (hpc : s'.pc = s.pc)
    (hfront : s'.front = some (a + 1)) : Chain s' (a + 1) q := by
  have hfits : q.length + 1 ≤ recvBufNum := h.slots.fits
  have hother : ∀ i, i + 1 < recvBufNum → place a (i + 1) ≠ a := fun i hi => by
    have hne := place_ne (a := a) hi (Nat.zero_lt_of_lt hi) (Nat.succ_ne_zero i)
    rwa [place_zero] at hne
  refine ⟨?_, fun i hge hi => ?_, hfront, hpc ▸ h.once, fun hnone => ?_, fun t => ?_⟩
  · rw [hdesc]
    exact h.slots.pop hvld
  · rw [place_next, hpc, hdesc]
    by_cases hend : i + 1 = recvBufNum
    · rw [hend, place_around, Function.update_self]
      exact Or.inl hdest
    · rw [Function.update_of_ne (hother i (by omega))]
      exact h.clean (i + 1) (Nat.succ_le_succ hge) (by omega)
  · rw [hw, place_next]
    exact h.tail (hpc ▸ hnone)
  · -- a descriptor that a call writes is not the one that is released
    have hkeep : ∀ {m : Place}, s.pc t ≠ .idle → (∀ b m, s.pc t ≠ .setW b m) →
        (s.pc t).inside = true → q.length + 1 < recvBufNum → s.w = some m → s'.desc m = s.desc m := by
      intro m _ hne hin hlt hm
      have htail := h.tail_eq hin hne
      have heq : m = place a (q.length + 1) := Option.some.inj (hm.symm.trans htail)
      rw [hdesc, heq, Function.update_of_ne (hother q.length hlt)]
    have ht := h.stage t
    rw [hpc]
    cases hp : s.pc t with
    | idle => trivial
    | init | initChain | readTail =>
      rw [hp] at ht
      exact ht
    | test b' m =>
      rw [hp] at ht
      exact ⟨ht.1, hw.trans ht.2⟩
    | setLen b' m =>
      rw [hp] at ht
      obtain ⟨hb, hm, hlt⟩ := ht
      exact ⟨hb, hw.trans hm, Nat.lt_of_succ_lt hlt⟩
    | setAddr b' m =>
      rw [hp] at ht hkeep
      obtain ⟨hb, hm, hlt, hlen⟩ := ht
      have hsame := hkeep nofun nofun rfl hlt hm
      exact ⟨hb, hw.trans hm, Nat.lt_of_succ_lt hlt, by rw [hsame, hlen]⟩
    | setVld b' m =>
      rw [hp] at ht hkeep
      obtain ⟨hb, hm, hlt, hwritten⟩ := ht
      have hsame := hkeep nofun nofun rfl hlt hm
      exact ⟨hb, hw.trans hm, Nat.lt_of_succ_lt hlt, hsame.trans hwritten⟩
    | setW b' m =>
      rw [hp] at ht
      obtain ⟨hb, hm, hplace⟩ := ht
      refine ⟨hb, hw.trans hm, ?_⟩
      rw [place_next]
      exact hplace

/-- One step of the handler. -/
theorem receive_held (hchain : Chain s a q) (haccount : Account s q) {h : Receive} (hirq : s.irq = some h)
    {calls : List Buffer} (hsize : ∀ b ∈ calls, b.size < 65536)
    (hquiet : calls = [] ∨ ∀ u, (s.pc u).inside = false) :
    ∃ a' q', Chain (receive s h calls) a' q' ∧ Account (receive s h calls) q' := by
  have hread : h.read = a := by
    have hfront := hchain.front
    unfold World.front at hfront
    rw [hirq] at hfront
    exact Option.some.inj hfront
  subst hread
  unfold receive
  dsimp only
  split
  next hvalid =>
    obtain ⟨hvld, -, -⟩ := hvalid
    cases q with
    | nil =>
      have hfree := hchain.slots.free 0 (Nat.zero_le _) (by decide)
      rw [place_zero, hvld] at hfree
      cases hfree
    | cons b q =>
      have hdesc := hchain.slots.valid 0 b rfl
      rw [place_zero] at hdesc
      rw [hdesc]
      dsimp only
      obtain ⟨n, mem, hfill, hfilling⟩ := haccount.filling.fill h.fifo
      rw [hfill]
      obtain ⟨s₁, hs₁⟩ : ∃ s₁, s₁ = { s with
        mem := mem
        timeoutOffset := s.timeoutOffset + n
        taken := s.taken ++ h.fifo.take n } := ⟨_, rfl⟩
      rw [← hs₁] at hfilling ⊢
      have hchain₁ : Chain s₁ h.read (b :: q) := by
        subst hs₁
        exact hchain.congr rfl rfl rfl rfl
      have hirq₁ : s₁.irq = some h := by
        subst hs₁
        exact hirq
      have hpc₁ : s₁.pc = s.pc := by rw [hs₁]
      rw [← hpc₁] at hquiet
      dsimp only
      split
      next hfull =>
        have haccount' := hfilling.release hfull fun c hc =>
          hchain.slots.proper c (List.mem_cons_of_mem b hc)
        have hdesc₁ := hchain₁.slots.valid 0 b rfl
        rw [place_zero] at hdesc₁
        obtain ⟨s₂, hs₂⟩ : ∃ s₂, s₂ = { release h (h.fifo.drop n) s₁ with
          ready := (release h (h.fifo.drop n) s₁).ready ++ [event b.addr s₁]
          last := (release h (h.fifo.drop n) s₁).taken } := ⟨_, rfl⟩
        have hchain₂ : Chain s₂ (h.read + 1) q := by
          subst hs₂
          refine hchain₁.release (d := { s₁.desc h.read with vld := false, destAddr := 0 }) rfl rfl ?_ rfl rfl ?_
          · rfl
          · rfl
        have haccount₂ : Account s₂ q := by
          refine haccount'.congr ?_ ?_
          · rw [hs₂]
            unfold World.bytes release
            dsimp only
            rw [hdesc₁]
          · rw [hs₂]
            rfl
        have hpc₂ : s₂.pc = s₁.pc := by
          rw [hs₂]
          rfl
        unfold notify
        rw [← hs₂]
        obtain ⟨q', hq'⟩ := foldl_rxIt_held calls hchain₂ haccount₂ hsize (hpc₂.symm ▸ hquiet)
        exact ⟨_, q', hq'⟩
      next hmore =>
        have hlt : s₁.timeoutOffset < b.size := Nat.lt_of_le_of_ne hfilling.offsets.2 hmore
        split
        next =>
          have haccount' := hfilling.timeout hlt
          obtain ⟨s₂, hs₂⟩ : ∃ s₂, s₂ = { s₁ with
            readOffset := s₁.timeoutOffset
            irq := some { h with fifo := h.fifo.drop n }
            ready := s₁.ready ++ [event b.addr s₁]
            last := s₁.taken } := ⟨_, rfl⟩
          have hchain₂ : Chain s₂ h.read (b :: q) := by
            refine hchain₁.congr (by rw [hs₂]) (by rw [hs₂]) (by rw [hs₂]) ?_
            rw [hs₂]
            unfold World.front
            rw [hirq₁]
          have haccount₂ : Account s₂ (b :: q) := haccount'.congr (by rw [hs₂]; rfl) (by rw [hs₂])
          have hpc₂ : s₂.pc = s₁.pc := by rw [hs₂]
          unfold notify
          rw [← hs₂]
          obtain ⟨q', hq'⟩ := foldl_rxIt_held calls hchain₂ haccount₂ hsize (hpc₂.symm ▸ hquiet)
          exact ⟨_, q', hq'⟩
        next =>
          refine ⟨_, b :: q, hchain₁.congr rfl rfl rfl ?_, (hfilling.account hlt).congr rfl rfl⟩
          unfold World.front
          rw [hirq₁]
  next hinvalid =>
    -- the loop is over
    have hend : ∀ {t : World} {q' : List Buffer}, Chain t h.read q' → Account t q' →
        Chain { t with r := some h.read, irq := none } h.read q' ∧
          Account { t with r := some h.read, irq := none } q' := by
      intro t q' ht ha
      refine ⟨ht.congr rfl rfl rfl ?_, ha.congr rfl rfl⟩
      rw [ht.front]
      rfl
    split
    next hlate =>
      obtain ⟨-, -, hleft⟩ := hlate
      cases q with
      | nil =>
        have hzero := haccount.offsets.2.1 rfl
        omega
      | cons b q =>
        have hdesc := hchain.slots.valid 0 b rfl
        rw [place_zero] at hdesc
        rw [hdesc]
        have haccount' := haccount.filling.timeout (haccount.offsets.2.2 b rfl)
        obtain ⟨s₂, hs₂⟩ : ∃ s₂, s₂ = { s with
          readOffset := s.timeoutOffset
          ready := s.ready ++ [event b.addr s]
          last := s.taken } := ⟨_, rfl⟩
        have hchain₂ : Chain s₂ h.read (b :: q) := by
          subst hs₂
          exact hchain.congr rfl rfl rfl rfl
        have hpc₂ : s₂.pc = s.pc := by rw [hs₂]
        unfold notify
        dsimp only
        rw [← hs₂] at haccount' ⊢
        obtain ⟨q', hchain', haccount''⟩ :=
          foldl_rxIt_held calls hchain₂ haccount' hsize (hpc₂.symm ▸ hquiet)
        exact ⟨_, q', hend hchain' haccount''⟩
    next => exact ⟨_, q, hend hchain haccount⟩

end Handler

/-! ## Runs -/

section Run
variable {s s' : World} {a : Place} {q : List Buffer}

theorem Held.init (h : Init s) : Held s := by
  obtain ⟨hr, hw, hread, htimeout, hirq, hpc, happended, hreleased, htaken, hlast, hready⟩ := h
  exact Or.inl ⟨hr, hw, hirq, ⟨happended, hreleased, htaken, hlast, hready⟩, ⟨hread, htimeout⟩,
    fun t => Or.inl (hpc t)⟩

/-- A call that has not found a ring. -/
theorem Unstarted.goto (h : Unstarted s) (t : Nat) {pc : Pc}
    (hpc : pc = .idle ∨ ∃ b : Buffer, b.Proper ∧ (pc = .init b ∨ pc = .initChain b)) :
    Unstarted (s.goto t pc) := by
  refine ⟨h.r, h.w, h.irq, h.history, h.offsets, fun u => ?_⟩
  rw [goto_pc]
  by_cases hut : u = t
  · rw [hut, Function.update_self]
    exact hpc
  · rw [Function.update_of_ne hut]
    exact h.calls u

/-- The first call makes the ring. -/
theorem Unstarted.initChain (h : Unstarted s) (t : Nat) {b : Buffer} (hb : b.Proper) :
    Held ((Rx.initChain s).goto t (.readTail b)) := by
  obtain ⟨happended, hreleased, htaken, hlast, hready⟩ := h.history
  obtain ⟨hread, htimeout⟩ := h.offsets
  have hout : ∀ u, (s.pc u).inside = false := fun u => by
    rcases h.calls u with hu | ⟨b', -, hu | hu⟩ <;> rw [hu] <;> rfl
  have hchain : Chain (Rx.initChain s) 0 [] := by
    refine ⟨⟨Nat.zero_le _, fun i b hi => ?_, fun b hb => absurd hb List.not_mem_nil, fun _ _ _ => rfl⟩,
      fun _ _ _ => Or.inl rfl, ?_, fun t u ht => ?_, fun _ => congrArg some (place_zero 0).symm, fun u => ?_⟩
    · cases hi
    · unfold World.front Rx.initChain
      rw [h.irq]
    · have hpc : (s.pc t).inside = true := ht
      rw [hout t] at hpc
      cases hpc
    · rcases h.calls u with hu | ⟨b', hb', hu | hu⟩
      · have hpc : (Rx.initChain s).pc u = .idle := hu
        rw [hpc]
        trivial
      · have hpc : (Rx.initChain s).pc u = .init b' := hu
        rw [hpc]
        exact hb'
      · have hpc : (Rx.initChain s).pc u = .initChain b' := hu
        rw [hpc]
        exact hb'
  have haccount : Account (Rx.initChain s) [] := by
    unfold Rx.initChain
    refine ⟨?_, ?_, fun e he => ?_, ?_, ?_, ?_⟩
    · rw [hready, hlast]
      rfl
    · rw [htaken, hlast]
      rfl
    · rw [hready] at he
      cases he
    · rw [hreleased, happended]
      rfl
    · rw [htaken, hreleased, htimeout]
      rfl
    · rw [hread, htimeout]
      exact ⟨Nat.le_refl _, fun _ => rfl, fun b hb => by cases hb⟩
  refine Or.inr ⟨0, [], hchain.goto t (fun b' m => ?_) (fun hin => by cases hin) hb,
    haccount.congr rfl rfl⟩
  have hpc : ((Rx.initChain s).pc t).inside = false := hout t
  constructor
  · intro hu
    rw [hu] at hpc
    cases hpc
  · intro hu
    rw [hu] at hpc
    cases hpc

theorem Unstarted.go (h : Unstarted s) {t : Nat} (hstep : Rx.go s t = some s') : Held s' := by
  unfold Rx.go at hstep
  rcases h.calls t with ht | ⟨b, hb, ht | ht⟩
  · rw [ht] at hstep
    cases hstep
  · rw [ht] at hstep
    dsimp only at hstep
    rw [if_pos h.w] at hstep
    cases hstep
    exact Or.inl (h.goto t (Or.inr ⟨b, hb, Or.inr rfl⟩))
  · rw [ht] at hstep
    cases hstep
    exact h.initChain t hb

/-- A step of a call, once there is a ring. -/
theorem Chain.go (h : Chain s a q) (haccount : Account s q) {t : Nat} (hok : orderly s (.go t))
    (hstep : Rx.go s t = some s') : Held s' := by
  have hgoto : ∀ {pc : Pc}, Chain (s.goto t pc) a q → Held (s.goto t pc) := fun hc =>
    Or.inr ⟨a, q, hc, haccount.congr rfl rfl⟩
  have hstage := h.stage t
  have htail : (s.pc t).inside = true → (∀ b m, s.pc t ≠ .setW b m) → s.w = some (place a q.length) :=
    fun hin hne => h.tail_eq hin hne
  have hring : s.w ≠ none := by
    intro hnone
    by_cases hany : ∃ u b m, s.pc u = .setW b m
    · obtain ⟨u, b, m, hu⟩ := hany
      have hstage' := h.stage u
      rw [hu] at hstage'
      obtain ⟨-, hm, -⟩ := hstage'
      rw [hnone] at hm
      cases hm
    · have hsome := h.tail fun u b m hu => hany ⟨u, b, m, hu⟩
      rw [hnone] at hsome
      cases hsome
  unfold Rx.go at hstep
  unfold orderly at hok
  dsimp only at hok
  cases hp : s.pc t with
  | idle =>
    rw [hp] at hstep
    cases hstep
  | init b =>
    rw [hp] at hstep hstage
    dsimp only at hstep
    rw [if_neg hring] at hstep
    cases hstep
    exact hgoto (h.goto t (by rw [hp]; exact fun _ _ => ⟨nofun, nofun⟩) nofun hstage)
  | initChain b =>
    rw [hp] at hok
    exact absurd hok hring
  | readTail b =>
    rw [hp] at hstep hstage hok
    have htail := h.tail_quiet hok
    dsimp only at hstep
    rw [htail] at hstep
    cases hstep
    exact hgoto (h.goto t (by rw [hp]; exact fun _ _ => ⟨nofun, nofun⟩) (fun _ u _ => hok u)
      ⟨hstage, htail⟩)
  | test b m =>
    have hin : (s.pc t).inside = true := by rw [hp]; rfl
    have hout : ∀ u, u ≠ t → (s.pc u).inside = false := fun u hu => h.outside hin hu
    have hm := htail hin (by rw [hp]; exact nofun)
    rw [hp] at hstep hstage
    obtain ⟨hb, hw⟩ : b.Proper ∧ s.w = some m := hstage
    dsimp only at hstep
    split at hstep
    next =>
      cases hstep
      exact hgoto (h.goto t (by rw [hp]; exact fun _ _ => ⟨nofun, nofun⟩) nofun trivial)
    next hfree =>
      cases hstep
      have heq : m = place a q.length := Option.some.inj (hw.symm.trans hm)
      have hlt := h.slots.lt_of_free (heq ▸ not_ne_iff.mp hfree)
      exact hgoto (h.goto t (by rw [hp]; exact fun _ _ => ⟨nofun, nofun⟩) (fun _ => hout) ⟨hb, hw, hlt⟩)
  | setLen b m =>
    have hin : (s.pc t).inside = true := by rw [hp]; rfl
    have hne : ∀ b m, s.pc t ≠ .setW b m := by rw [hp]; exact nofun
    have hm := htail hin hne
    rw [hp] at hstep hstage
    obtain ⟨hb, hw, hlt⟩ : b.Proper ∧ s.w = some m ∧ q.length < recvBufNum := hstage
    have heq : m = place a q.length := Option.some.inj (hw.symm.trans hm)
    cases hstep
    have hfree := h.slots.free q.length (Nat.le_refl _) hlt
    have hclean : (s.desc (place a q.length)).destAddr = 0 := by
      refine (h.clean q.length (Nat.le_refl _) hlt).resolve_right ?_
      rintro ⟨u, b', hu⟩
      have hut : u = t := h.once u t (by rw [hu]; rfl) hin
      rw [hut, hp] at hu
      cases hu
    rw [heq] at hw ⊢
    refine Or.inr ⟨a, q, h.write hlt hin hne hfree (Or.inl hclean) ⟨hb, hw, hlt, ?_⟩,
      haccount.congr rfl rfl⟩
    dsimp only
    rw [Function.update_self]
    exact Nat.mod_eq_of_lt hb.2.2
  | setAddr b m =>
    have hin : (s.pc t).inside = true := by rw [hp]; rfl
    have hne : ∀ b m, s.pc t ≠ .setW b m := by rw [hp]; exact nofun
    have hm := htail hin hne
    rw [hp] at hstep hstage
    obtain ⟨hb, hw, hlt, hlen⟩ : b.Proper ∧ s.w = some m ∧ q.length < recvBufNum ∧
      (s.desc m).len = b.size := hstage
    have heq : m = place a q.length := Option.some.inj (hw.symm.trans hm)
    cases hstep
    have hfree := h.slots.free q.length (Nat.le_refl _) hlt
    rw [heq] at hw hlen ⊢
    refine Or.inr ⟨a, q, h.write hlt hin hne hfree (Or.inr ⟨b, rfl⟩) ⟨hb, hw, hlt, ?_⟩,
      haccount.congr rfl rfl⟩
    dsimp only
    rw [Function.update_self, hlen, hfree]
  | setVld b m =>
    rw [hp] at hstep hstage
    cases hstep
    exact Or.inr ⟨a, q ++ [b], h.accept hp, haccount.push hstage.1 rfl rfl⟩
  | setW b m =>
    rw [hp] at hstep
    cases hstep
    exact Or.inr ⟨a, q, h.advance hp, haccount.congr rfl rfl⟩

theorem Held.step (h : Held s) {e : Event} (hok : orderly s e) (hstep : Rx.step s e = some s') :
    Held s' := by
  unfold Rx.step at hstep
  cases e with
  | call t b =>
    dsimp only at hstep
    split at hstep
    next hidle =>
      obtain ⟨-, hidle⟩ := hidle
      cases hstep
      have hsize : b.size < 65536 := hok
      have hproper : ¬ (b.addr = 0 ∨ b.size = 0) → b.Proper := fun hparam =>
        ⟨fun hzero => hparam (Or.inl hzero),
          Nat.pos_of_ne_zero fun hzero => hparam (Or.inr hzero), hsize⟩
      rcases h with h | ⟨a, q, hchain, haccount⟩
      · refine Or.inl (h.goto t ?_)
        split
        next => exact Or.inl rfl
        next hparam => exact Or.inr ⟨b, hproper hparam, Or.inl rfl⟩
      · refine Or.inr ⟨a, q, hchain.goto t (by rw [hidle]; exact fun _ _ => ⟨nofun, nofun⟩) ?_ ?_,
          haccount.congr rfl rfl⟩
        · split
          next => exact nofun
          next => exact nofun
        · split
          next => trivial
          next hparam => exact hproper hparam
    next => cases hstep
  | go t =>
    dsimp only at hstep
    split at hstep
    next =>
      rcases h with h | ⟨a, q, hchain, haccount⟩
      · exact h.go hstep
      · exact hchain.go haccount hok hstep
    next => cases hstep
  | irq fifo timeout =>
    dsimp only at hstep
    split at hstep
    next hnone =>
      rcases h with h | ⟨a, q, hchain, haccount⟩
      · rw [h.r] at hstep
        cases hstep
      · have hirq : s.irq = none := Option.isNone_iff_eq_none.mp hnone
        have hfront := hchain.front
        unfold World.front at hfront
        rw [hirq] at hfront
        have hr : s.r = some a := hfront
        rw [hr] at hstep
        cases hstep
        refine Or.inr ⟨a, q, hchain.congr rfl rfl rfl ?_, haccount.congr rfl rfl⟩
        rw [hchain.front]
        rfl
    next => cases hstep
  | receive calls =>
    obtain ⟨r, hr, rfl⟩ := Option.map_eq_some_iff.mp hstep
    rcases h with h | ⟨a, q, hchain, haccount⟩
    · rw [h.irq] at hr
      cases hr
    · obtain ⟨hsize, hquiet⟩ := hok
      exact Or.inr (receive_held hchain haccount hr hsize hquiet)

end Run

section Example

def resetWorld : World :=
  ⟨none, none, fun _ => ⟨false, 0, 0⟩, 0, 0, fun _ => 0, none, fun _ => .idle, [], [], [], [], []⟩

theorem resetWorld_init : Init resetWorld :=
  ⟨rfl, rfl, rfl, rfl, rfl, fun _ => rfl, rfl, rfl, rfl, rfl, rfl⟩

/-- The first call of task 0. -/
def firstCall (b : Buffer) : List Event := .call 0 b :: List.replicate 8 (.go 0)

/-- A timeout in the middle of a buffer, and its end. -/
def twoBytes : List Event :=
  firstCall ⟨100, 2⟩ ++ [.irq [5] true, .receive [], .receive [], .irq [6] false, .receive [], .receive []]

/-- A size with 17 bits. -/
def longBuffer : List Event :=
  firstCall ⟨100, 65537⟩ ++ [.irq [5] false, .receive [], .receive []]

/-- The callback appends a buffer while the task is about to set the address of its own. -/
def overlap : List Event :=
  firstCall ⟨100, 1⟩ ++ .call 0 ⟨200, 1⟩ :: List.replicate 4 (.go 0) ++
    [.irq [1] false, .receive [⟨300, 4⟩], .receive []] ++ List.replicate 3 (.go 0) ++
    [.irq [2, 3, 4, 5] false, .receive []]

end Example

end WmIot.HalUart.Rx
