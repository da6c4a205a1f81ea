import WmIot.Uart.RxQueue

/-!
# Runs of reports and reads

What holds at each access of the task, and that both the task and the callback keep it. A report
that completes a node must not fall between the load and the store with which the reader clears
`timeout_flag` in the status word of that node, nor into `uart_start_receive`.
-/

namespace WmIot.Uart.Rx
open Ring Transition
set_option autoImplicit false

/-- A node completed here would be lost: the task is about to store the status word it loaded while
the node was under reception, or has yet to see that the first node has been given to the HAL. -/
def Racing : Pc → Prop
  | .testAppend | .clearStatus .opening | .loadReceiving .opening | .storeReceiving .opening _
  | .callApi .opening => True
  | .storeClear _ status | .releaseStore _ status => status.receiving = true
  | _ => False

/-- The report reaches the end of its node. -/
def Completes (size : Nat) (s : State) (data : List UInt8) : Prop :=
  s.halOffset + data.length = size

/-- No report of the run completes a node in a race. -/
def offRace (size : Nat) (s : State) : Event → Prop
  | .rxReady data _ => Completes size s data → ¬ Racing s.pc
  | _ => True

instance : DecidablePred Racing := fun pc => by
  cases pc with
  | clearStatus k => cases k <;> unfold Racing <;> infer_instance
  | loadReceiving k => cases k <;> unfold Racing <;> infer_instance
  | storeReceiving k status => cases k <;> unfold Racing <;> infer_instance
  | callApi k => cases k <;> unfold Racing <;> infer_instance
  | _ => unfold Racing; infer_instance

instance (size : Nat) (s : State) (e : Event) : Decidable (offRace size s e) := by
  cases e <;> unfold offRace <;> unfold Completes <;> infer_instance

/-- All nodes are in service. -/
def Serving (size : Nat) (s : State) (j : Nat) : Prop := Queue size s j rxBufNum s.readOffset

/-- The append node is on its way to the HAL, `n` others are in service. -/
structure Giving (size : Nat) (s : State) (k : After) (j n : Nat) : Prop where
  queue : Queue size s j n s.readOffset
  lt : n < rxBufNum
  opening : k = .opening → j = 0 ∧
    ∀ i, n < i → i < rxBufNum → (s.node (place s.r i)).status.receiving = false
  last : k ≠ .opening → n + 1 = rxBufNum

/-- The reader has seen that its node holds data. -/
def Holding (s : State) : Prop := (s.node s.r).status.dataHolding = true

/-- The reader has the status word of its node, as it is but for `timeout_flag`. -/
def Loaded (s : State) (status : Status) : Prop :=
  status.dataHolding = true ∧ status.receiving = (s.node s.r).status.receiving

/-- What holds at each access. -/
def Inv (size : Nat) (s : State) : Prop :=
  match s.pc with
  | .testAppend => ∃ n, Queue size s 0 n s.readOffset ∧
      ∀ i, n ≤ i → i < rxBufNum → (s.node (place s.r i)).status.receiving = false
  | .idle | .waiting _ | .testHolding _ | .receiveHolding => ∃ j, Serving size s j
  | .testReceiving _ | .loadEnd _ | .loadFlagOnly _ | .receiveReceiving | .receiveEnd =>
    ∃ j, Serving size s j ∧ Holding s
  | .loadClear _ => ∃ j, Serving size s j ∧ Holding s ∧ 0 < s.readOffset
  | .loadFlag _ n | .copy _ n | .releaseHolding n => ∃ j, Serving size s j ∧ Holding s ∧ 0 < n ∧
      s.readOffset + n ≤ avail size s j
  | .storeClear _ status => ∃ j, Serving size s j ∧ Loaded s status ∧ Holding s ∧ 0 < s.readOffset
  | .copyDone _ => ∃ j, Serving size s (j + 1)
  | .loadFlagDone _ => ∃ j, Queue size s (j + 1) rxBufNum size ∧ s.readOffset = 0
  | .clearStatus k | .loadReceiving k | .storeReceiving k _ => ∃ j n, Giving size s k j n
  | .callApi k => ∃ j n, Giving size s k j n ∧ (s.node s.append).status.receiving = true
  | .loadUndo _ | .storeUndo _ _ => False
  | .holding offset n => ∃ j, Serving size s j ∧ Holding s ∧ 0 < n ∧ offset = s.readOffset ∧
      s.readOffset + n ≤ avail size s j
  | .releaseLoad n => ∃ j, Serving size s j ∧ Holding s ∧ 0 < n ∧ s.readOffset + n ≤ avail size s j
  | .releaseStore n status => ∃ j, Serving size s j ∧ Loaded s status ∧ Holding s ∧ 0 < n ∧
      s.readOffset + n ≤ avail size s j

section Reader
variable {size j n off : Nat} {s s' : State}

theorem Queue.first_receiving (q : Queue size s 0 n off) (hn : 0 < n) :
    (s.node s.r).status.receiving = true := by
  have h := q.receiving 0 (Nat.le_refl 0) hn
  rwa [place_zero] at h

theorem Queue.first_complete (q : Queue size s (j + 1) n off) :
    (s.node s.r).status.receiving = false ∧ (s.node s.r).status.dataHolding = true := by
  have h := q.complete 0 (Nat.succ_pos j)
  rwa [place_zero] at h

/-- `end_offset` is about the node under reception; a node completed since is longer than that. -/
theorem Queue.endOffset_le (q : Queue size s j n off) : s.endOffset ≤ avail size s j := by
  have hoffset := q.offset
  rw [q.endOffset, avail]
  by_cases hj : j = 0
  · rw [if_pos hj]
  · rw [if_neg hj]
    omega

/-- Data in the first node means that it is marked so. -/
theorem Queue.marked (q : Queue size s j n off) (h : 0 < avail size s j) : Holding s := by
  cases j with
  | zero =>
    rw [avail, if_pos rfl] at h
    have hheld := (q.begun h).2
    rwa [place_zero] at hheld
  | succ j => exact q.first_complete.2

theorem inv_idle (q : Serving size s j) : Inv size { s with pc := .idle } := ⟨j, q.goto _⟩

theorem inv_afterRead (q : Serving size s j) (c : Call) : Inv size { s with pc := afterRead c } := by
  rw [afterRead]
  by_cases hflag : c.rxFifoTimeout = true
  · rw [if_pos hflag]
    exact ⟨j, q.goto _⟩
  · rw [if_neg hflag]
    by_cases hmore : c.count < c.size
    · rw [if_pos hmore]
      exact ⟨j, q.goto _⟩
    · rw [if_neg hmore]
      exact ⟨j, q.goto _⟩

theorem inv_enterLoop (q : Serving size s j) (c : Call) : Inv size { s with pc := enterLoop c } := by
  rw [enterLoop]
  by_cases hmore : c.count < c.size
  · rw [if_pos hmore]
    exact ⟨j, q.goto _⟩
  · rw [if_neg hmore]
    exact inv_afterRead q c

theorem inv_clearStatus {k : After} (h : Giving size s k j n) :
    Inv size { s with node := setStatus s.node s.append .zero, pc := .loadReceiving k } := by
  refine ⟨j, n, h.queue.storeAppend h.lt _ _, h.lt, fun hk => ?_, h.last⟩
  obtain ⟨hj, hrest⟩ := h.opening hk
  refine ⟨hj, fun i hni hi => ?_⟩
  dsimp only
  rw [setStatus_of_ne]
  · exact hrest i hni hi
  · intro heq
    rw [h.queue.append] at heq
    have := place_inj hi h.lt heq
    omega

theorem inv_storeReceiving {k : After} (h : Giving size s k j n) (status : Status) :
    Inv size { s with
      node := setStatus s.node s.append { status with receiving := true }
      pc := .callApi k } := by
  refine ⟨j, n, ⟨h.queue.storeAppend h.lt _ _, h.lt, fun hk => ?_, h.last⟩, ?_⟩
  · obtain ⟨hj, hrest⟩ := h.opening hk
    refine ⟨hj, fun i hni hi => ?_⟩
    dsimp only
    rw [setStatus_of_ne]
    · exact hrest i hni hi
    · intro heq
      rw [h.queue.append] at heq
      have := place_inj hi h.lt heq
      omega
  · dsimp only
    rw [setStatus_self]

/-- The HAL takes the node, and the code goes on where it gave it. -/
theorem inv_callApi {k : After} (h : Giving size s k j n)
    (hreceiving : (s.node s.append).status.receiving = true) (hpc : s.pc = .callApi k)
    (hs : readerStep size s = some s') : Inv size s' := by
  obtain ⟨s₁, hcall, q, hread, hnode, hr⟩ := h.queue.give h.lt hreceiving (k.resume true)
  rw [readerStep, hpc] at hs
  dsimp only at hs
  rw [hcall, Option.some.injEq] at hs
  subst hs
  rw [← hread] at q
  cases k with
  | opening =>
    obtain ⟨hj, hrest⟩ := h.opening rfl
    subst hj
    refine ⟨n + 1, q, fun i hni hi => ?_⟩
    dsimp only
    rw [hnode, hr]
    exact hrest i (by omega) hi
  | reading c =>
    rw [h.last (by simp)] at q
    exact inv_enterLoop (s := { s₁ with append := s.append + 1 }) (j := j) (q.goto s₁.pc) c
  | released =>
    rw [h.last (by simp)] at q
    exact ⟨j, q⟩

/-- Part of the node under reception, or what is left of a complete one, is copied out. -/
theorem Queue.copyOut (q : Serving size s j) {m : Nat} (h : s.readOffset + m ≤ avail size s j)
    (pc : Pc) :
    Serving size { s with
      returned := s.returned ++ ((s.node s.r).buf.drop s.readOffset).take m
      readOffset := s.readOffset + m
      pc := pc } j :=
  Queue.take q h pc (s.readOffset + m) s.node rfl

/-- The reader gives back `n` bytes, and the node with them if they are its last. -/
theorem inv_releaseStore {m : Nat} {status : Status} (q : Serving size s j)
    (hreceiving : status.receiving = (s.node s.r).status.receiving)
    (hhold : status.dataHolding = true) (hfits : s.readOffset + m ≤ avail size s j) :
    Inv size { s with
      node := setStatus s.node s.r { status with timeoutFlag := false }
      returned := s.returned ++ ((s.node s.r).buf.drop s.readOffset).take m
      readOffset := if (s.readOffset + m = size : Bool) then 0 else s.readOffset + m
      r := if (s.readOffset + m = size : Bool) then s.r + 1 else s.r
      pc := if (s.readOffset + m = size : Bool) then .clearStatus .released else .idle } := by
  have hstore := Queue.storeStatus q
    (show ({ status with timeoutFlag := false } : Status).receiving = _ from hreceiving) hhold s.pc
  have htake := fun pc readOffset => Queue.take hstore hfits pc readOffset _ rfl
  simp only [setStatus_buf] at htake
  by_cases hdone : s.readOffset + m = size
  · simp only [hdone, decide_true, if_true]
    cases j with
    | zero =>
      have hoffset := q.offset
      rw [avail, if_pos rfl] at hfits
      omega
    | succ j =>
      rw [hdone] at htake
      have hadvance := Queue.advance (htake (.clearStatus .released) 0) (.clearStatus .released) 0
      refine ⟨j, rxBufNum - 1, hadvance, by decide, ?_, fun _ => rfl⟩
      intro hk
      cases hk
  · simp only [hdone, decide_false, Bool.false_eq_true, if_false]
    exact ⟨j, htake .idle (s.readOffset + m)⟩

/-- One access of the task. -/
theorem Inv.readerStep (h : Inv size s) (hs : readerStep size s = some s') : Inv size s' := by
  unfold Inv at h
  cases hpc : s.pc with
  | idle =>
    rw [Rx.readerStep, hpc] at hs
    cases hs
  | waiting rest =>
    rw [Rx.readerStep, hpc] at hs
    cases hs
  | holding offset n =>
    rw [Rx.readerStep, hpc] at hs
    cases hs
  | testAppend =>
    rw [hpc] at h
    rw [Rx.readerStep, hpc] at hs
    cases hs
    obtain ⟨n, q, hrest⟩ := h
    have hnum := q.num
    by_cases hn : n < rxBufNum
    · have hfree := hrest n (Nat.le_refl n) hn
      rw [← q.append] at hfree
      rw [if_neg (by rw [hfree]; simp)]
      exact ⟨0, n, q.goto _, hn, fun _ => ⟨rfl, fun i hni hi => hrest i (by omega) hi⟩,
        fun hk => absurd rfl hk⟩
    · have hall : n = rxBufNum := by omega
      subst hall
      have hfirst : (s.node s.append).status.receiving = true := by
        rw [q.append, place_around]
        exact q.first_receiving (by decide)
      rw [if_pos hfirst]
      exact ⟨0, q.goto _⟩
  | testHolding c =>
    rw [hpc] at h
    rw [Rx.readerStep, hpc] at hs
    cases hs
    obtain ⟨j, q⟩ := h
    by_cases hheld : (s.node s.r).status.dataHolding = true
    · rw [if_pos hheld]
      exact ⟨j, q.goto _, hheld⟩
    · rw [if_neg hheld]
      exact inv_afterRead q c
  | testReceiving c =>
    rw [hpc] at h
    rw [Rx.readerStep, hpc] at hs
    cases hs
    obtain ⟨j, q, hheld⟩ := h
    by_cases hreceiving : (s.node s.r).status.receiving = true
    · rw [if_pos hreceiving]
      exact ⟨j, q.goto _, hheld⟩
    · rw [if_neg hreceiving]
      cases j with
      | zero => exact absurd (Queue.first_receiving q (by decide)) hreceiving
      | succ j => exact ⟨j, q.goto _⟩
  | loadEnd c =>
    rw [hpc] at h
    rw [Rx.readerStep, hpc] at hs
    cases hs
    obtain ⟨j, q, hheld⟩ := h
    by_cases hsize : 0 < s.endOffset - s.readOffset
    · rw [if_pos hsize]
      have hend := Queue.endOffset_le q
      exact ⟨j, q.goto _, hheld, by omega, by
        show s.readOffset + (s.endOffset - s.readOffset).toNat ≤ avail size s j
        omega⟩
    · rw [if_neg hsize]
      exact ⟨j, q.goto _, hheld⟩
  | loadFlag c n =>
    rw [hpc] at h
    rw [Rx.readerStep, hpc] at hs
    cases hs
    obtain ⟨j, q, hheld, hpos, hfits⟩ := h
    exact ⟨j, q.goto _, hheld, hpos, hfits⟩
  | copy c n =>
    rw [hpc] at h
    rw [Rx.readerStep, hpc] at hs
    cases hs
    obtain ⟨j, q, hheld, hpos, hfits⟩ := h
    have hcopy := Queue.copyOut q (show s.readOffset + min (c.size - c.count) n ≤ avail size s j by omega)
    by_cases hall : min (c.size - c.count) n = n
    · rw [if_pos hall]
      refine ⟨j, hcopy _, hheld, ?_⟩
      dsimp only
      omega
    · rw [if_neg hall]
      exact inv_afterRead (hcopy s.pc) _
  | loadClear c =>
    rw [hpc] at h
    rw [Rx.readerStep, hpc] at hs
    cases hs
    obtain ⟨j, q, hheld, hread⟩ := h
    exact ⟨j, q.goto _, ⟨hheld, rfl⟩, hheld, hread⟩
  | storeClear c status =>
    rw [hpc] at h
    rw [Rx.readerStep, hpc] at hs
    cases hs
    obtain ⟨j, q, ⟨hhold, hreceiving⟩, -, -⟩ := h
    have hstore : Serving size
        { s with node := setStatus s.node s.r { status with timeoutFlag := false }, pc := s.pc } j :=
      Queue.storeStatus q (show ({ status with timeoutFlag := false } : Status).receiving = _ from hreceiving)
        hhold s.pc
    exact inv_afterRead hstore c
  | loadFlagOnly c =>
    rw [hpc] at h
    rw [Rx.readerStep, hpc] at hs
    cases hs
    obtain ⟨j, q, -⟩ := h
    exact inv_afterRead q _
  | copyDone c =>
    rw [hpc] at h
    rw [Rx.readerStep, hpc] at hs
    cases hs
    obtain ⟨j, q⟩ := h
    have hwithin := q.within
    rw [avail, if_neg (Nat.succ_ne_zero j)] at hwithin
    have havail : avail size s (j + 1) = size := if_neg (Nat.succ_ne_zero j)
    by_cases hall : size - s.readOffset ≤ c.size - c.count
    · rw [if_pos hall, if_pos hall, Nat.min_eq_right hall]
      have htake := Queue.take q
        (show s.readOffset + (size - s.readOffset) ≤ avail size s (j + 1) by omega)
        (.loadFlagDone { c with count := c.count + (size - s.readOffset) }) 0 s.node rfl
      rw [show s.readOffset + (size - s.readOffset) = size by omega] at htake
      exact ⟨j, htake, rfl⟩
    · rw [if_neg hall, if_neg hall, Nat.min_eq_left (by omega)]
      exact inv_enterLoop (Queue.copyOut q (by omega) s.pc) _
  | loadFlagDone c =>
    rw [hpc] at h
    rw [Rx.readerStep, hpc] at hs
    cases hs
    obtain ⟨j, q, hzero⟩ := h
    have hadvance := q.advance
      (.clearStatus (.reading { c with rxFifoTimeout := (s.node s.r).status.timeoutFlag })) s.readOffset
    refine ⟨j, rxBufNum - 1, ?_, by decide, (by intro hk; cases hk), fun _ => rfl⟩
    dsimp only
    rw [hzero] at hadvance ⊢
    exact hadvance
  | clearStatus k =>
    rw [hpc] at h
    rw [Rx.readerStep, hpc] at hs
    cases hs
    obtain ⟨j, n, hgiving⟩ := h
    exact inv_clearStatus hgiving
  | loadReceiving k =>
    rw [hpc] at h
    rw [Rx.readerStep, hpc] at hs
    cases hs
    obtain ⟨j, n, hgiving⟩ := h
    exact ⟨j, n, hgiving.queue.goto _, hgiving.lt, hgiving.opening, hgiving.last⟩
  | storeReceiving k status =>
    rw [hpc] at h
    rw [Rx.readerStep, hpc] at hs
    cases hs
    obtain ⟨j, n, hgiving⟩ := h
    exact inv_storeReceiving hgiving status
  | callApi k =>
    rw [hpc] at h
    obtain ⟨j, n, hgiving, hreceiving⟩ := h
    exact inv_callApi hgiving hreceiving hpc hs
  | loadUndo k =>
    rw [hpc] at h
    exact h.elim
  | storeUndo k status =>
    rw [hpc] at h
    exact h.elim
  | receiveHolding =>
    rw [hpc] at h
    rw [Rx.readerStep, hpc] at hs
    cases hs
    obtain ⟨j, q⟩ := h
    by_cases hheld : (s.node s.r).status.dataHolding = true
    · rw [if_pos hheld]
      exact ⟨j, q.goto _, hheld⟩
    · rw [if_neg hheld]
      exact ⟨j, q.goto _⟩
  | receiveReceiving =>
    rw [hpc] at h
    rw [Rx.readerStep, hpc] at hs
    cases hs
    obtain ⟨j, q, hheld⟩ := h
    by_cases hreceiving : (s.node s.r).status.receiving = true
    · rw [if_pos hreceiving]
      exact ⟨j, q.goto _, hheld⟩
    · rw [if_neg hreceiving]
      by_cases hleft : s.readOffset < size
      · rw [if_pos hleft]
        cases j with
        | zero => exact absurd (Queue.first_receiving q (by decide)) hreceiving
        | succ j =>
          have havail : avail size s (j + 1) = size := if_neg (Nat.succ_ne_zero j)
          exact ⟨j + 1, q.goto _, hheld, by omega, rfl, by
            show s.readOffset + (size - s.readOffset) ≤ avail size s (j + 1)
            omega⟩
      · rw [if_neg hleft]
        exact ⟨j, q.goto _⟩
  | receiveEnd =>
    rw [hpc] at h
    rw [Rx.readerStep, hpc] at hs
    cases hs
    obtain ⟨j, q, hheld⟩ := h
    by_cases hsize : 0 < s.endOffset - s.readOffset
    · rw [if_pos hsize]
      have hend := Queue.endOffset_le q
      exact ⟨j, q.goto _, hheld, by omega, rfl, by
        show s.readOffset + (s.endOffset - s.readOffset).toNat ≤ avail size s j
        omega⟩
    · rw [if_neg hsize]
      exact ⟨j, q.goto _⟩
  | releaseHolding n =>
    rw [hpc] at h
    rw [Rx.readerStep, hpc] at hs
    cases hs
    obtain ⟨j, q, hheld, hpos, hfits⟩ := h
    rw [if_pos (show (s.node s.r).status.dataHolding = true from hheld)]
    exact ⟨j, q.goto _, hheld, hpos, hfits⟩
  | releaseLoad n =>
    rw [hpc] at h
    rw [Rx.readerStep, hpc] at hs
    cases hs
    obtain ⟨j, q, hheld, hpos, hfits⟩ := h
    exact ⟨j, q.goto _, ⟨hheld, rfl⟩, hheld, hpos, hfits⟩
  | releaseStore n status =>
    rw [hpc] at h
    rw [Rx.readerStep, hpc] at hs
    cases hs
    obtain ⟨j, q, ⟨hhold, hreceiving⟩, -, -, hfits⟩ := h
    exact inv_releaseStore q hreceiving hhold hfits

end Reader

section Callback
variable {size j n off : Nat} {s s' : State} {data : List UInt8} {timeoutFlag : Bool}

/-- What a report leaves alone, and what it only adds to. -/
structure Kept (size : Nat) (s s' : State) (data : List UInt8) (j j' n : Nat) : Prop where
  pc : s'.pc = s.pc
  readOffset : s'.readOffset = s.readOffset
  r : s'.r = s.r
  append : s'.append = s.append
  le : j ≤ j'
  avail : avail size s j ≤ avail size s' j'
  holding : Holding s → Holding s'
  outside : ∀ k, n ≤ k → k < rxBufNum → s'.node (place s.r k) = s.node (place s.r k)
  same : ¬ Completes size s data → j' = j
  receiving : ¬ Completes size s data ∨ (s.node s.r).status.receiving = false →
    (s'.node s.r).status.receiving = (s.node s.r).status.receiving

theorem Queue.callback (q : Queue size s j n off) (hpos : 0 < size)
    (hs : rxReady size s data timeoutFlag = some s') :
    ∃ j', Queue size s' j' n off ∧ Kept size s s' data j j' n := by
  obtain ⟨hj, hfits, hs'⟩ := q.rxReady_eq hs
  have hoffset := q.offset
  have hwrite : (s.node s.w).status.receiving = true := by
    rw [q.w]
    exact q.receiving j (Nat.le_refl j) hj
  by_cases hfull : s.halOffset + data.length = size
  · simp only [hfull, decide_true] at hs'
    subst hs'
    refine ⟨j + 1, q.reportEnd hpos hj hfull timeoutFlag, rfl, rfl, rfl, rfl, Nat.le_succ j, ?_,
      fun h => reported_holding data timeoutFlag true h, fun k hnk hk => ?_,
      fun h => absurd hfull h, fun h => ?_⟩
    · rw [Rx.avail, Rx.avail, if_neg (Nat.succ_ne_zero j)]
      split <;> omega
    · exact reported_other data timeoutFlag true (q.apart hk hj (by omega))
    · have hfree := h.resolve_left (fun hn => hn hfull)
      have hne : s.r ≠ s.w := fun heq => by
        rw [heq, hwrite] at hfree
        cases hfree
      rw [reported_other data timeoutFlag true hne]
  · simp only [hfull, decide_false] at hs'
    subst hs'
    refine ⟨j, q.report hj (by omega) timeoutFlag, rfl, rfl, rfl, rfl, Nat.le_refl j, ?_,
      fun h => reported_holding data timeoutFlag false h, fun k hnk hk => ?_, fun _ => rfl, fun _ => ?_⟩
    · rw [Rx.avail, Rx.avail]
      show (if j = 0 then s.halOffset else size) ≤ if j = 0 then s.halOffset + data.length else size
      split <;> omega
    · exact reported_other data timeoutFlag false (q.apart hk hj (by omega))
    · by_cases heq : s.r = s.w
      · rw [heq, reported_self, hwrite]
        rfl
      · rw [reported_other data timeoutFlag false heq]

theorem Kept.serving {j' : Nat} (h : Kept size s s' data j j' rxBufNum)
    (q : Queue size s' j' rxBufNum s.readOffset) : Serving size s' j' := by
  rw [Serving, h.readOffset]
  exact q

theorem Kept.loaded {j' : Nat} {status : Status} (h : Kept size s s' data j j' n)
    (hloaded : Loaded s status)
    (hoff : Completes size s data → ¬ status.receiving = true) : Loaded s' status := by
  obtain ⟨hhold, hreceiving⟩ := hloaded
  refine ⟨hhold, ?_⟩
  rw [h.r, h.receiving, hreceiving]
  by_cases hcompletes : Completes size s data
  · rw [← hreceiving]
    exact Or.inr (Bool.eq_false_of_not_eq_true (hoff hcompletes))
  · exact Or.inl hcompletes

/-- The node on its way to the HAL is out of reach for the callback. -/
theorem Giving.callback {k : After} (h : Giving size s k j n) (hpos : 0 < size)
    (hs : rxReady size s data timeoutFlag = some s')
    (hoff : k = .opening → ¬ Completes size s data) :
    s'.pc = s.pc ∧ s'.append = s.append ∧ s'.node s.append = s.node s.append ∧
      ∃ j', Giving size s' k j' n := by
  obtain ⟨j', q, hkept⟩ := h.queue.callback hpos hs
  refine ⟨hkept.pc, hkept.append, ?_, j', ?_, h.lt, fun hk => ?_, h.last⟩
  · rw [h.queue.append]
    exact hkept.outside n (Nat.le_refl n) h.lt
  · rw [hkept.readOffset]
    exact q
  · obtain ⟨hj, hrest⟩ := h.opening hk
    refine ⟨(hkept.same (hoff hk)).trans hj, fun i hni hi => ?_⟩
    rw [hkept.r, hkept.outside i (by omega) hi]
    exact hrest i hni hi

/-- A report outside a race. -/
theorem Inv.rxReady (hpos : 0 < size) (h : Inv size s)
    (hoff : Completes size s data → ¬ Racing s.pc)
    (hs : rxReady size s data timeoutFlag = some s') : Inv size s' := by
  unfold Inv at h ⊢
  cases hpc : s.pc with
  | testAppend =>
    rw [hpc] at h hoff
    obtain ⟨n, q, hrest⟩ := h
    obtain ⟨j', q', hkept⟩ := q.callback hpos hs
    have hj : j' = 0 := hkept.same fun hc => hoff hc trivial
    subst hj
    rw [hkept.pc, hpc]
    refine ⟨n, ?_, fun i hni hi => ?_⟩
    · rw [hkept.readOffset]
      exact q'
    · rw [hkept.r, hkept.outside i hni hi]
      exact hrest i hni hi
  | idle =>
    rw [hpc] at h
    obtain ⟨j, q⟩ := h
    obtain ⟨j', q', hkept⟩ := Queue.callback q hpos hs
    rw [hkept.pc, hpc]
    exact ⟨j', hkept.serving q'⟩
  | waiting rest =>
    rw [hpc] at h
    obtain ⟨j, q⟩ := h
    obtain ⟨j', q', hkept⟩ := Queue.callback q hpos hs
    rw [hkept.pc, hpc]
    exact ⟨j', hkept.serving q'⟩
  | testHolding c =>
    rw [hpc] at h
    obtain ⟨j, q⟩ := h
    obtain ⟨j', q', hkept⟩ := Queue.callback q hpos hs
    rw [hkept.pc, hpc]
    exact ⟨j', hkept.serving q'⟩
  | receiveHolding =>
    rw [hpc] at h
    obtain ⟨j, q⟩ := h
    obtain ⟨j', q', hkept⟩ := Queue.callback q hpos hs
    rw [hkept.pc, hpc]
    exact ⟨j', hkept.serving q'⟩
  | testReceiving c =>
    rw [hpc] at h
    obtain ⟨j, q, hheld⟩ := h
    obtain ⟨j', q', hkept⟩ := Queue.callback q hpos hs
    rw [hkept.pc, hpc]
    exact ⟨j', hkept.serving q', hkept.holding hheld⟩
  | loadEnd c =>
    rw [hpc] at h
    obtain ⟨j, q, hheld⟩ := h
    obtain ⟨j', q', hkept⟩ := Queue.callback q hpos hs
    rw [hkept.pc, hpc]
    exact ⟨j', hkept.serving q', hkept.holding hheld⟩
  | loadFlagOnly c =>
    rw [hpc] at h
    obtain ⟨j, q, hheld⟩ := h
    obtain ⟨j', q', hkept⟩ := Queue.callback q hpos hs
    rw [hkept.pc, hpc]
    exact ⟨j', hkept.serving q', hkept.holding hheld⟩
  | loadClear c =>
    rw [hpc] at h
    obtain ⟨j, q, hheld, hread⟩ := h
    obtain ⟨j', q', hkept⟩ := Queue.callback q hpos hs
    rw [hkept.pc, hpc]
    exact ⟨j', hkept.serving q', hkept.holding hheld, by rw [hkept.readOffset]; exact hread⟩
  | receiveReceiving =>
    rw [hpc] at h
    obtain ⟨j, q, hheld⟩ := h
    obtain ⟨j', q', hkept⟩ := Queue.callback q hpos hs
    rw [hkept.pc, hpc]
    exact ⟨j', hkept.serving q', hkept.holding hheld⟩
  | receiveEnd =>
    rw [hpc] at h
    obtain ⟨j, q, hheld⟩ := h
    obtain ⟨j', q', hkept⟩ := Queue.callback q hpos hs
    rw [hkept.pc, hpc]
    exact ⟨j', hkept.serving q', hkept.holding hheld⟩
  | loadFlag c n =>
    rw [hpc] at h
    obtain ⟨j, q, hheld, hn, hfits⟩ := h
    obtain ⟨j', q', hkept⟩ := Queue.callback q hpos hs
    rw [hkept.pc, hpc]
    exact ⟨j', hkept.serving q', hkept.holding hheld, hn, by
      rw [hkept.readOffset]
      exact Nat.le_trans hfits hkept.avail⟩
  | copy c n =>
    rw [hpc] at h
    obtain ⟨j, q, hheld, hn, hfits⟩ := h
    obtain ⟨j', q', hkept⟩ := Queue.callback q hpos hs
    rw [hkept.pc, hpc]
    exact ⟨j', hkept.serving q', hkept.holding hheld, hn, by
      rw [hkept.readOffset]
      exact Nat.le_trans hfits hkept.avail⟩
  | releaseHolding n =>
    rw [hpc] at h
    obtain ⟨j, q, hheld, hn, hfits⟩ := h
    obtain ⟨j', q', hkept⟩ := Queue.callback q hpos hs
    rw [hkept.pc, hpc]
    exact ⟨j', hkept.serving q', hkept.holding hheld, hn, by
      rw [hkept.readOffset]
      exact Nat.le_trans hfits hkept.avail⟩
  | releaseLoad n =>
    rw [hpc] at h
    obtain ⟨j, q, hheld, hn, hfits⟩ := h
    obtain ⟨j', q', hkept⟩ := Queue.callback q hpos hs
    rw [hkept.pc, hpc]
    exact ⟨j', hkept.serving q', hkept.holding hheld, hn, by
      rw [hkept.readOffset]
      exact Nat.le_trans hfits hkept.avail⟩
  | holding offset n =>
    rw [hpc] at h
    obtain ⟨j, q, hheld, hn, hoffset, hfits⟩ := h
    obtain ⟨j', q', hkept⟩ := Queue.callback q hpos hs
    rw [hkept.pc, hpc]
    exact ⟨j', hkept.serving q', hkept.holding hheld, hn, hoffset.trans hkept.readOffset.symm, by
      rw [hkept.readOffset]
      exact Nat.le_trans hfits hkept.avail⟩
  | storeClear c status =>
    rw [hpc] at h hoff
    obtain ⟨j, q, hloaded, hheld, hread⟩ := h
    obtain ⟨j', q', hkept⟩ := Queue.callback q hpos hs
    rw [hkept.pc, hpc]
    exact ⟨j', hkept.serving q', hkept.loaded hloaded hoff, hkept.holding hheld, by
      rw [hkept.readOffset]
      exact hread⟩
  | releaseStore n status =>
    rw [hpc] at h hoff
    obtain ⟨j, q, hloaded, hheld, hn, hfits⟩ := h
    obtain ⟨j', q', hkept⟩ := Queue.callback q hpos hs
    rw [hkept.pc, hpc]
    exact ⟨j', hkept.serving q', hkept.loaded hloaded hoff, hkept.holding hheld, hn, by
      rw [hkept.readOffset]
      exact Nat.le_trans hfits hkept.avail⟩
  | copyDone c =>
    rw [hpc] at h
    obtain ⟨j, q⟩ := h
    obtain ⟨j', q', hkept⟩ := Queue.callback q hpos hs
    rw [hkept.pc, hpc]
    have hle := hkept.le
    refine ⟨j' - 1, ?_⟩
    rw [show j' - 1 + 1 = j' by omega]
    exact hkept.serving q'
  | loadFlagDone c =>
    rw [hpc] at h
    obtain ⟨j, q, hzero⟩ := h
    obtain ⟨j', q', hkept⟩ := q.callback hpos hs
    rw [hkept.pc, hpc]
    have hle := hkept.le
    refine ⟨j' - 1, ?_, hkept.readOffset.trans hzero⟩
    rw [show j' - 1 + 1 = j' by omega]
    exact q'
  | clearStatus k =>
    rw [hpc] at h hoff
    obtain ⟨j, n, hgiving⟩ := h
    obtain ⟨hpc', -, -, j', hgiving'⟩ := hgiving.callback hpos hs fun hk hc => by
      subst hk
      exact hoff hc trivial
    rw [hpc', hpc]
    exact ⟨j', n, hgiving'⟩
  | loadReceiving k =>
    rw [hpc] at h hoff
    obtain ⟨j, n, hgiving⟩ := h
    obtain ⟨hpc', -, -, j', hgiving'⟩ := hgiving.callback hpos hs fun hk hc => by
      subst hk
      exact hoff hc trivial
    rw [hpc', hpc]
    exact ⟨j', n, hgiving'⟩
  | storeReceiving k status =>
    rw [hpc] at h hoff
    obtain ⟨j, n, hgiving⟩ := h
    obtain ⟨hpc', -, -, j', hgiving'⟩ := hgiving.callback hpos hs fun hk hc => by
      subst hk
      exact hoff hc trivial
    rw [hpc', hpc]
    exact ⟨j', n, hgiving'⟩
  | callApi k =>
    rw [hpc] at h hoff
    obtain ⟨j, n, hgiving, hreceiving⟩ := h
    obtain ⟨hpc', happend, hnode, j', hgiving'⟩ := hgiving.callback hpos hs fun hk hc => by
      subst hk
      exact hoff hc trivial
    rw [hpc', hpc]
    refine ⟨j', n, hgiving', ?_⟩
    rw [happend, hnode]
    exact hreceiving
  | loadUndo k =>
    rw [hpc] at h
    exact h.elim
  | storeUndo k status =>
    rw [hpc] at h
    exact h.elim

end Callback

/-- What a receive buffer is for: the reader gets what was reported, in order, what it did not get
yet is still there, and it never reads past the data. -/
structure Sound (size : Nat) (s : State) : Prop where
  order : s.returned <+: s.accepted
  kept : s.pc.isBetween = true → s.accepted = s.returned ++ unread s
  bound : s.readOffset ≤ dataSize size s

section Runs
variable {size j n off : Nat} {s s' : State}

theorem Init.inv (h : Init size s) (hpos : 0 < size) : Inv size s := by
  have hcontent : content s 0 s.r = [] := by rw [content, h.halOffset, List.take_zero]
  have hidle : ∀ i, (s.node i).status.receiving = false := fun i => by
    rw [(h.node i).1]
    rfl
  unfold Inv
  rw [h.pc]
  refine ⟨0, ⟨fun i => (h.node i).2, Nat.le_refl 0, by decide, ?_, ?_, ?_,
    fun k hk => absurd hk (Nat.not_lt_zero k), fun k _ hk => absurd hk (Nat.not_lt_zero k),
    fun hlt => ?_, ?_, ?_, ?_, ?_⟩, fun i _ _ => hidle _⟩
  · rw [h.w, h.r, place_zero]
  · rw [h.append, h.r, place_zero]
  · rw [h.hal]
    rfl
  · rw [h.halOffset] at hlt
    exact absurd hlt (Nat.lt_irrefl 0)
  · rw [h.halOffset]
    exact hpos
  · rw [h.endOffset, h.halOffset]
    rfl
  · rw [h.readOffset]
    exact Nat.zero_le _
  · rw [h.accepted, h.returned, hcontent, h.readOffset]
    rfl

theorem Inv.step (hpos : 0 < size) (h : Inv size s) {e : Event} (hoff : offRace size s e)
    (hs : step size s e = some s') : Inv size s' := by
  cases e with
  | read n =>
    unfold Inv at h
    cases hpc : s.pc <;> simp only [Rx.step, hpc] at hs h <;> try cases hs
    by_cases hn : 0 < n
    · rw [if_pos hn] at hs
      cases hs
      obtain ⟨j, q⟩ := h
      exact ⟨j, q.goto _⟩
    · rw [if_neg hn] at hs
      cases hs
  | receive =>
    unfold Inv at h
    cases hpc : s.pc <;> simp only [Rx.step, hpc] at hs h <;> try cases hs
    obtain ⟨j, q⟩ := h
    exact ⟨j, q.goto _⟩
  | release n =>
    unfold Inv at h
    cases hpc : s.pc <;> simp only [Rx.step, hpc] at hs h <;> try cases hs
    rename_i offset len
    by_cases hn : 0 < n ∧ n ≤ len
    · rw [if_pos hn] at hs
      cases hs
      obtain ⟨j, q, hheld, -, -, hfits⟩ := h
      exact ⟨j, q.goto _, hheld, hn.1, Nat.le_trans (Nat.add_le_add_left hn.2 _) hfits⟩
    · rw [if_neg hn] at hs
      cases hs
  | keep =>
    unfold Inv at h
    cases hpc : s.pc <;> simp only [Rx.step, hpc] at hs h <;> try cases hs
    obtain ⟨j, q, -⟩ := h
    exact ⟨j, q.goto _⟩
  | reader => exact h.readerStep hs
  | acquired =>
    unfold Inv at h
    cases hpc : s.pc <;> simp only [Rx.step, hpc] at hs h <;> try cases hs
    obtain ⟨j, q⟩ := h
    exact ⟨j, q.goto _⟩
  | timedOut =>
    unfold Inv at h
    cases hpc : s.pc <;> simp only [Rx.step, hpc] at hs h <;> try cases hs
    obtain ⟨j, q⟩ := h
    exact ⟨j, q.goto _⟩
  | rxReady data timeoutFlag => exact h.rxReady hpos hoff hs

/-- At each access there is a queue, and `read_offset` is the reader's place in it, or 0 again. -/
theorem Inv.queue (h : Inv size s) :
    ∃ j n off, Queue size s j n off ∧ (s.readOffset = off ∨ s.readOffset = 0) := by
  unfold Inv at h
  cases hpc : s.pc <;> rw [hpc] at h
  case testAppend => exact ⟨0, _, _, h.choose_spec.1, Or.inl rfl⟩
  case loadFlagDone c => exact ⟨_, _, _, h.choose_spec.1, Or.inr h.choose_spec.2⟩
  case clearStatus k => exact ⟨_, _, _, h.choose_spec.choose_spec.queue, Or.inl rfl⟩
  case loadReceiving k => exact ⟨_, _, _, h.choose_spec.choose_spec.queue, Or.inl rfl⟩
  case storeReceiving k status => exact ⟨_, _, _, h.choose_spec.choose_spec.queue, Or.inl rfl⟩
  case callApi k => exact ⟨_, _, _, h.choose_spec.choose_spec.1.queue, Or.inl rfl⟩
  case loadUndo k => exact h.elim
  case storeUndo k status => exact h.elim
  case idle => exact ⟨_, _, _, h.choose_spec, Or.inl rfl⟩
  case waiting rest => exact ⟨_, _, _, h.choose_spec, Or.inl rfl⟩
  case testHolding c => exact ⟨_, _, _, h.choose_spec, Or.inl rfl⟩
  case receiveHolding => exact ⟨_, _, _, h.choose_spec, Or.inl rfl⟩
  case copyDone c => exact ⟨_, _, _, h.choose_spec, Or.inl rfl⟩
  all_goals exact ⟨_, _, _, h.choose_spec.1, Or.inl rfl⟩

theorem Queue.bound (q : Queue size s j n off) : (off : Int) ≤ dataSize size s := by
  have hwithin := q.within
  have hend := q.endOffset
  rw [avail] at hwithin
  rw [dataSize]
  cases j with
  | succ j =>
    rw [if_neg (Nat.succ_ne_zero j)] at hwithin
    obtain ⟨hreceiving, hheld⟩ := q.first_complete
    rw [hreceiving, hheld]
    simp only [Bool.false_eq_true, if_false, if_true]
    omega
  | zero =>
    rw [if_pos rfl] at hwithin
    by_cases hn : 0 < n
    · rw [if_pos (q.first_receiving hn)]
      omega
    · have hzero : s.halOffset = 0 := by
        by_contra hne
        exact hn (q.begun (by omega)).1
      split
      · omega
      · split <;> omega

theorem holdings_eq (j : Nat) : ∀ (i : Fin rxBufNum) (k : Nat), j ≤ k →
    (∀ m < j, (s.node (place i m)).status.receiving = false ∧
      (s.node (place i m)).status.dataHolding = true) →
    (j < k → (s.node (place i j)).status.receiving = true) → (j = k → s.halOffset = 0) →
    s.endOffset = s.halOffset → holdings s k i = content s j i := by
  induction j with
  | zero =>
    intro i k _ _ hreceiving hzero hend
    cases k with
    | zero =>
      rw [content, hzero rfl, List.take_zero]
      rfl
    | succ k =>
      have hfirst := hreceiving (Nat.succ_pos k)
      rw [place_zero] at hfirst
      rw [holdings, if_pos hfirst, content, hend, Int.toNat_natCast]
  | succ j ih =>
    intro i k hjk hcomplete hreceiving hzero hend
    obtain ⟨k, rfl⟩ : ∃ k', k = k' + 1 := ⟨k - 1, by omega⟩
    obtain ⟨hfree, hheld⟩ := hcomplete 0 (Nat.succ_pos j)
    rw [place_zero] at hfree hheld
    rw [holdings, hfree, hheld, content]
    simp only [Bool.false_eq_true, if_false, if_true]
    congr 1
    refine ih (i + 1) k (by omega) (fun m hm => ?_) (fun h => ?_) (fun h => hzero (by omega)) hend
    · rw [place_next]
      exact hcomplete (m + 1) (by omega)
    · rw [place_next]
      exact hreceiving (by omega)

theorem Serving.kept (q : Serving size s j) : s.accepted = s.returned ++ unread s := by
  have hzero : j = rxBufNum → s.halOffset = 0 := fun hj => by
    by_contra hne
    have := (q.begun (by omega)).1
    omega
  rw [unread, holdings_eq j s.r rxBufNum q.le q.complete
    (fun hj => q.receiving j (Nat.le_refl j) hj) hzero q.endOffset]
  exact q.flow

theorem Inv.sound (h : Inv size s) : Sound size s := by
  obtain ⟨j, n, off, q, hoff⟩ := h.queue
  refine ⟨⟨_, q.flow.symm⟩, fun hbetween => ?_, ?_⟩
  · unfold Inv at h
    cases hpc : s.pc <;> rw [hpc] at h hbetween <;> try cases hbetween
    · obtain ⟨j, q⟩ := h
      exact q.kept
    · obtain ⟨j, q⟩ := h
      exact q.kept
    · obtain ⟨j, q, -⟩ := h
      exact q.kept
  · have hbound := q.bound
    rcases hoff with hoff | hoff <;> omega

theorem rx_inv (hpos : 0 < size) (h : Reached (Init size) (step size) (offRace size) s) :
    Inv size s :=
  h.invariant (fun _ hinit => hinit.inv hpos) fun _ _ _ hinv hoff hs => hinv.step hpos hoff hs

end Runs

theorem RxBufSize.blockSize_pos (b : RxBufSize) : 0 < b.blockSize := by
  have := b.min
  simp only [RxBufSize.blockSize, rxBufNum, rxMinBufSize] at *
  omega

/-- In every run in which no report completes a node in a race, the reader gets what was reported. -/
theorem uart_read_sound (b : RxBufSize) {s : State}
    (h : Reached (Init b.blockSize) (step b.blockSize) (offRace b.blockSize) s) :
    Sound b.blockSize s :=
  (rx_inv b.blockSize_pos h).sound

/-- A report that completes the node between the load and the store of its status word takes the
node back into reception: the reader is past the end of the data. -/
theorem clobbered (b : RxBufSize) {s s' s'' : State} {data : List UInt8} {timeoutFlag : Bool}
    {status : Status} (h : Reached (Init b.blockSize) (step b.blockSize) (offRace b.blockSize) s)
    (hpc : (∃ c, s.pc = .storeClear c status) ∨ ∃ n, s.pc = .releaseStore n status)
    (hstatus : status.receiving = true) (hcompletes : Completes b.blockSize s data)
    (hreport : rxReady b.blockSize s data timeoutFlag = some s')
    (hstore : readerStep b.blockSize s' = some s'') : ¬ Sound b.blockSize s'' := by
  have hinv := rx_inv b.blockSize_pos h
  unfold Inv at hinv
  have hreceiving : ({ status with timeoutFlag := false } : Status).receiving = true := hstatus
  intro hsound
  have hbound := hsound.bound
  rcases hpc with ⟨c, hpc⟩ | ⟨n, hpc⟩
  · rw [hpc] at hinv
    obtain ⟨j, q, -, -, hread⟩ := hinv
    obtain ⟨-, -, hs'⟩ := Queue.rxReady_eq q hreport
    simp only [show s.halOffset + data.length = b.blockSize from hcompletes, decide_true] at hs'
    subst hs'
    rw [readerStep, show (reported s data timeoutFlag true).pc = _ from hpc] at hstore
    cases hstore
    rw [dataSize, if_pos (by dsimp only; rw [setStatus_self]; exact hreceiving)] at hbound
    dsimp only at hbound
    have hzero : (reported s data timeoutFlag true).endOffset = 0 := rfl
    have hsame : (reported s data timeoutFlag true).readOffset = s.readOffset := rfl
    omega
  · rw [hpc] at hinv
    obtain ⟨j, q, hloaded, -, hn, hfits⟩ := hinv
    obtain ⟨-, -, hs'⟩ := Queue.rxReady_eq q hreport
    simp only [show s.halOffset + data.length = b.blockSize from hcompletes, decide_true] at hs'
    subst hs'
    -- the node was under reception, so what is given back ends before its end
    have hlt : s.readOffset + n < b.blockSize := by
      have hoffset := q.offset
      cases j with
      | zero =>
        rw [avail, if_pos rfl] at hfits
        omega
      | succ j =>
        have hfree := (Queue.first_complete q).1
        rw [← hloaded.2, hstatus] at hfree
        cases hfree
    have hmore : ¬ (reported s data timeoutFlag true).readOffset + n = b.blockSize := by
      show ¬ s.readOffset + n = b.blockSize
      omega
    rw [readerStep, show (reported s data timeoutFlag true).pc = _ from hpc] at hstore
    simp only [hmore, decide_false, Bool.false_eq_true, if_false] at hstore
    cases hstore
    rw [dataSize, if_pos (by dsimp only; rw [setStatus_self]; exact hreceiving)] at hbound
    dsimp only at hbound
    have hzero : (reported s data timeoutFlag true).endOffset = 0 := rfl
    omega

section Example

/-- The smallest receive buffer, before `uart_start_receive`. -/
def smallRx : RxBufSize := ⟨128, by decide, by decide⟩

def freshRx : State where
  node := fun _ => ⟨.zero, List.replicate 32 0⟩
  r := 0
  w := 0
  append := 0
  endOffset := 0
  readOffset := 0
  hal := []
  halOffset := 0
  pc := .testAppend
  accepted := []
  returned := []

theorem freshRx_init : Init smallRx.blockSize freshRx := by
  refine ⟨fun _ => ⟨rfl, ?_⟩, rfl, rfl, rfl, rfl, rfl, rfl, rfl, rfl, rfl, rfl⟩
  rw [freshRx, List.length_replicate]
  rfl

/-- The device is opened, ten bytes come and a read takes them, up to the load of the status word. -/
def tenBytes : List Event :=
  List.replicate 21 .reader ++
    [.rxReady (List.replicate 10 1) true, .read 100, .reader, .reader, .reader, .reader, .reader,
      .reader]

/-- The node is completed after the read, and the next read takes the rest. -/
theorem uart_read_sound_tenBytes :
    ∃ s, exec (step smallRx.blockSize) freshRx (tenBytes ++ [.reader,
        .rxReady (List.replicate 22 2) true, .read 100, .reader, .reader, .reader, .reader]) = some s ∧
      s.returned = List.replicate 10 1 ++ List.replicate 22 2 ∧ Sound smallRx.blockSize s := by
  generalize hes : tenBytes ++ [.reader, .rxReady (List.replicate 22 2) true, .read 100, .reader,
    .reader, .reader, .reader] = es
  have hsome : (exec (step smallRx.blockSize) freshRx es).isSome := by
    rw [← hes]
    decide +kernel
  obtain ⟨s, hs⟩ := Option.isSome_iff_exists.mp hsome
  have hreturned : (exec (step smallRx.blockSize) freshRx es).map State.returned =
      some (List.replicate 10 1 ++ List.replicate 22 2) := by
    rw [← hes]
    decide +kernel
  have halong : Along (step smallRx.blockSize) (offRace smallRx.blockSize) freshRx es := by
    rw [← hes]
    decide +kernel
  refine ⟨s, hs, ?_, uart_read_sound smallRx ((Reached.start freshRx_init).of_exec halong hs)⟩
  simpa [hs] using hreturned

/-- The node is completed while the read clears its timeout flag: it is under reception for ever, and
its last bytes are neither returned nor held. -/
theorem completed_node_lost :
    ∃ s, Reached (Init smallRx.blockSize) (step smallRx.blockSize) anyStep s ∧
      s.pc = .idle ∧ s.returned = List.replicate 10 1 ∧
      s.accepted = List.replicate 10 1 ++ List.replicate 22 2 ∧ unread s = [] ∧
      ¬ Sound smallRx.blockSize s := by
  generalize hes : tenBytes ++ [.rxReady (List.replicate 22 2) true, .reader] = es
  have hsome : (exec (step smallRx.blockSize) freshRx es).isSome := by
    rw [← hes]
    decide +kernel
  obtain ⟨s, hs⟩ := Option.isSome_iff_exists.mp hsome
  have hfinal : (exec (step smallRx.blockSize) freshRx es).map
      (fun s => (s.pc, s.returned, s.accepted, unread s)) =
      some (.idle, List.replicate 10 1, List.replicate 10 1 ++ List.replicate 22 2, []) := by
    rw [← hes]
    decide +kernel
  rw [hs, Option.map_some, Option.some.injEq, Prod.mk.injEq, Prod.mk.injEq, Prod.mk.injEq] at hfinal
  obtain ⟨hpc, hreturned, haccepted, hunread⟩ := hfinal
  refine ⟨s, (Reached.start freshRx_init).of_exec (along_anyStep _ _) hs, hpc, hreturned, haccepted,
    hunread, fun hsound => ?_⟩
  have hkept := hsound.kept (by rw [hpc]; rfl)
  rw [hreturned, haccepted, hunread] at hkept
  exact absurd hkept (by decide)

end Example

end WmIot.Uart.Rx
