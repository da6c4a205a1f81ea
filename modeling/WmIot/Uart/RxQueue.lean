import WmIot.Lib.Ring
import WmIot.Uart.Rx

/-!
# What the ring of receive nodes holds

From the node the reader is at on there are `j` complete nodes, then the nodes the HAL has, the
first of them filled up to `halOffset`. `n` nodes are in service: all but the one that is being
given back.
-/

namespace WmIot.Uart.Rx
open Ring
set_option autoImplicit false

/-- The bytes of `j` complete nodes from `i` on and of the node under reception behind them. -/
def content (s : State) : Nat → Fin rxBufNum → List UInt8
  | 0, i => (s.node i).buf.take s.halOffset
  | j + 1, i => (s.node i).buf ++ content s j (i + 1)

section Content
variable {size : Nat} {s s' : State}

theorem content_congr (hbuf : ∀ i, (s'.node i).buf = (s.node i).buf)
    (hoffset : s'.halOffset = s.halOffset) (j : Nat) :
    ∀ i, content s' j i = content s j i := by
  induction j with
  | zero =>
    intro i
    rw [content, content, hbuf, hoffset]
  | succ j ih =>
    intro i
    rw [content, content, hbuf, ih]

theorem content_eq (hnode : s'.node = s.node) (hoffset : s'.halOffset = s.halOffset) (j : Nat)
    (i : Fin rxBufNum) : content s' j i = content s j i :=
  content_congr (fun i' => by rw [hnode]) hoffset j i

/-- How much of the first node counts. -/
def avail (size : Nat) (s : State) (j : Nat) : Nat := if j = 0 then s.halOffset else size

theorem content_first (hlen : ∀ i, (s.node i).buf.length = size) {j off n : Nat}
    (h : off + n ≤ avail size s j) (i : Fin rxBufNum) :
    ((content s j i).drop off).take n = ((s.node i).buf.drop off).take n := by
  cases j with
  | zero =>
    simp only [avail, if_pos] at h
    rw [content, List.drop_take, List.take_take, Nat.min_eq_left (by omega)]
  | succ j =>
    simp only [avail, Nat.succ_ne_zero, if_false] at h
    have hi := hlen i
    rw [content, List.drop_append_of_le_length (by omega), List.take_append_of_le_length]
    rw [List.length_drop]
    omega

theorem content_drop (hlen : ∀ i, (s.node i).buf.length = size) (j : Nat) (i : Fin rxBufNum) :
    (content s (j + 1) i).drop size = content s j (i + 1) := by
  rw [content, List.drop_left' (hlen i)]

/-- A report that does not reach the end of the node. -/
theorem content_report {data : List UInt8} (hlen : ∀ i, (s.node i).buf.length = size)
    (hfits : s.halOffset + data.length ≤ size) (hoffset : s'.halOffset = s.halOffset + data.length)
    (j : Nat) : ∀ {i : Fin rxBufNum}, j < rxBufNum →
    (∀ k < j, (s'.node (place i k)).buf = (s.node (place i k)).buf) →
    (s'.node (place i j)).buf = memcpy (s.node (place i j)).buf s.halOffset data →
    content s' j i = content s j i ++ data := by
  induction j with
  | zero =>
    intro i _ _ hbuf
    rw [place_zero] at hbuf
    have hi := hlen i
    rw [content, content, hbuf, hoffset, memcpy_take_end (by omega)]
  | succ j ih =>
    intro i hj hsame hbuf
    have h0 := hsame 0 (by omega)
    rw [place_zero] at h0
    rw [show content s (j + 1) i = (s.node i).buf ++ content s j (i + 1) from rfl, content, h0,
      List.append_assoc]
    congr 1
    refine ih (by omega) (fun k hk => ?_) ?_
    · rw [place_next]
      exact hsame (k + 1) (by omega)
    · rw [place_next]
      exact hbuf

/-- A report that reaches the end of the node. -/
theorem content_complete {data : List UInt8} (hlen : ∀ i, (s.node i).buf.length = size)
    (hfull : s.halOffset + data.length = size) (hoffset : s'.halOffset = 0)
    (j : Nat) : ∀ {i : Fin rxBufNum}, j < rxBufNum →
    (∀ k < j, (s'.node (place i k)).buf = (s.node (place i k)).buf) →
    (s'.node (place i j)).buf = memcpy (s.node (place i j)).buf s.halOffset data →
    content s' (j + 1) i = content s j i ++ data := by
  induction j with
  | zero =>
    intro i _ _ hbuf
    rw [place_zero] at hbuf
    have hi := hlen i
    have hall : (memcpy (s.node i).buf s.halOffset data).take (s.halOffset + data.length) =
        (s.node i).buf.take s.halOffset ++ data := memcpy_take_end (by omega)
    rw [List.take_of_length_le (by rw [memcpy_length (by omega)]; omega)] at hall
    rw [content, content, content, hoffset, List.take_zero, List.append_nil, hbuf, hall]
  | succ j ih =>
    intro i hj hsame hbuf
    have h0 := hsame 0 (by omega)
    rw [place_zero] at h0
    rw [show content s (j + 1) i = (s.node i).buf ++ content s j (i + 1) from rfl, content, h0,
      List.append_assoc]
    congr 1
    refine ih (by omega) (fun k hk => ?_) ?_
    · rw [place_next]
      exact hsame (k + 1) (by omega)
    · rw [place_next]
      exact hbuf

end Content

/-- The ring with `j` complete nodes and `n` nodes in service, the reader at `off` in the first. -/
structure Queue (size : Nat) (s : State) (j n off : Nat) : Prop where
  length : ∀ i, (s.node i).buf.length = size
  le : j ≤ n
  num : n ≤ rxBufNum
  w : s.w = place s.r j
  append : s.append = place s.r n
  hal : s.hal = (List.range (n - j)).map fun i => place s.r (j + i)
  complete : ∀ k < j, (s.node (place s.r k)).status.receiving = false ∧
    (s.node (place s.r k)).status.dataHolding = true
  receiving : ∀ k, j ≤ k → k < n → (s.node (place s.r k)).status.receiving = true
  begun : 0 < s.halOffset → j < n ∧ (s.node (place s.r j)).status.dataHolding = true
  offset : s.halOffset < size
  endOffset : s.endOffset = s.halOffset
  within : off ≤ avail size s j
  flow : s.accepted = s.returned ++ (content s j s.r).drop off

section Queue
variable {size j n off : Nat} {s s' : State}

/-- The queue sees of the nodes in service their bytes, `receiving` and that data stays held. -/
theorem Queue.congr (q : Queue size s j n off) (hbuf : ∀ i, (s'.node i).buf = (s.node i).buf)
    (hreceiving : ∀ k < n, (s'.node (place s.r k)).status.receiving =
      (s.node (place s.r k)).status.receiving)
    (hholding : ∀ k < n, (s.node (place s.r k)).status.dataHolding = true →
      (s'.node (place s.r k)).status.dataHolding = true)
    (hr : s'.r = s.r) (hw : s'.w = s.w) (happend : s'.append = s.append) (hhal : s'.hal = s.hal)
    (hoffset : s'.halOffset = s.halOffset) (hend : s'.endOffset = s.endOffset)
    (hacc : s'.accepted = s.accepted) (hret : s'.returned = s.returned) :
    Queue size s' j n off := by
  have hle := q.le
  constructor
  · intro i
    rw [hbuf]
    exact q.length i
  · exact q.le
  · exact q.num
  · rw [hw, hr]
    exact q.w
  · rw [happend, hr]
    exact q.append
  · rw [hhal, hr]
    exact q.hal
  · intro k hk
    rw [hr, hreceiving k (by omega)]
    exact ⟨(q.complete k hk).1, hholding k (by omega) (q.complete k hk).2⟩
  · intro k hjk hkn
    rw [hr, hreceiving k hkn]
    exact q.receiving k hjk hkn
  · intro hpos
    rw [hoffset] at hpos
    obtain ⟨hj, hheld⟩ := q.begun hpos
    rw [hr]
    exact ⟨hj, hholding j hj hheld⟩
  · rw [hoffset]
    exact q.offset
  · rw [hend, hoffset]
    exact q.endOffset
  · rw [show avail size s' j = avail size s j by rw [avail, avail, hoffset]]
    exact q.within
  · rw [hacc, hret, hr, content_congr hbuf hoffset]
    exact q.flow

/-- Changes of the program counter alone. -/
theorem Queue.goto (q : Queue size s j n off) (pc : Pc) : Queue size { s with pc := pc } j n off :=
  q.congr (fun _ => rfl) (fun _ _ => rfl) (fun _ _ h => h) rfl rfl rfl rfl rfl rfl rfl rfl

theorem setStatus_self (node : Fin rxBufNum → Node) (i : Fin rxBufNum) (st : Status) :
    setStatus node i st i = { node i with status := st } := by simp [setStatus]

theorem setStatus_of_ne (node : Fin rxBufNum → Node) {i i' : Fin rxBufNum} (h : i' ≠ i)
    (st : Status) : setStatus node i st i' = node i' := by simp [setStatus, h]

theorem setStatus_buf (node : Fin rxBufNum → Node) (i i' : Fin rxBufNum) (st : Status) :
    (setStatus node i st i').buf = (node i').buf := by
  by_cases h : i' = i
  · rw [h, setStatus_self]
  · rw [setStatus_of_ne node h]

/-- A status word stored with the `receiving` it has. -/
theorem Queue.storeStatus (q : Queue size s j n off) {i : Fin rxBufNum} {st : Status}
    (hreceiving : st.receiving = (s.node i).status.receiving) (hholding : st.dataHolding = true)
    (pc : Pc) : Queue size { s with node := setStatus s.node i st, pc := pc } j n off := by
  refine q.congr (fun i' => setStatus_buf ..) (fun k _ => ?_) (fun k _ h => ?_)
    rfl rfl rfl rfl rfl rfl rfl rfl
  · dsimp only
    by_cases hk : place s.r k = i
    · rw [hk, setStatus_self]
      exact hreceiving
    · rw [setStatus_of_ne _ hk]
  · dsimp only
    by_cases hk : place s.r k = i
    · rw [hk, setStatus_self]
      exact hholding
    · rw [setStatus_of_ne _ hk]
      exact h

/-- The status of the append node while it is not in service. -/
theorem Queue.storeAppend (q : Queue size s j n off) (hn : n < rxBufNum) (st : Status) (pc : Pc) :
    Queue size { s with node := setStatus s.node s.append st, pc := pc } j n off := by
  have hne : ∀ k < n, place s.r k ≠ s.append := fun k hk heq => by
    rw [q.append] at heq
    have := place_inj (by omega) hn heq
    omega
  refine q.congr (fun i' => setStatus_buf ..) (fun k hk => ?_) (fun k hk h => ?_)
    rfl rfl rfl rfl rfl rfl rfl rfl
  · dsimp only
    rw [setStatus_of_ne _ (hne k hk)]
  · dsimp only
    rw [setStatus_of_ne _ (hne k hk)]
    exact h

/-- Bytes of the first node are taken. -/
theorem Queue.take (q : Queue size s j n off) {m : Nat} (h : off + m ≤ avail size s j) (pc : Pc)
    (readOffset : Nat) (node : Fin rxBufNum → Node) (hnode : node = s.node) :
    Queue size { s with
      node := node
      returned := s.returned ++ ((s.node s.r).buf.drop off).take m
      readOffset := readOffset
      pc := pc } j n (off + m) := by
  subst hnode
  refine ⟨q.length, q.le, q.num, q.w, q.append, q.hal, q.complete, q.receiving, q.begun,
    q.offset, q.endOffset, h, ?_⟩
  have hfirst := content_first q.length h s.r
  rw [show content { s with
      returned := s.returned ++ ((s.node s.r).buf.drop off).take m
      readOffset := readOffset
      pc := pc } j s.r = content s j s.r by
    apply content_eq <;> rfl]
  rw [q.flow, ← hfirst, List.append_assoc, ← List.drop_drop, List.take_append_drop]

/-- The first node is used up: the reader goes on with the next one. -/
theorem Queue.advance (q : Queue size s (j + 1) rxBufNum size) (pc : Pc) (readOffset : Nat) :
    Queue size { s with r := s.r + 1, readOffset := readOffset, pc := pc } j (rxBufNum - 1) 0 := by
  have hle := q.le
  have hcontent : content { s with r := s.r + 1, readOffset := readOffset, pc := pc } j (s.r + 1) =
      content s j (s.r + 1) := by
    apply content_eq <;> rfl
  refine ⟨q.length, by omega, by omega, ?_, ?_, ?_, fun k hk => ?_, fun k hjk hk => ?_, fun hpos => ?_,
    q.offset, q.endOffset, Nat.zero_le _, ?_⟩
  · rw [place_next]
    exact q.w
  · rw [place_next]
    exact q.append
  · dsimp only
    rw [q.hal, show rxBufNum - 1 - j = rxBufNum - (j + 1) by omega]
    refine List.map_congr_left fun k _ => ?_
    rw [place_next]
    congr 1
    omega
  · rw [place_next]
    exact q.complete (k + 1) (by omega)
  · rw [place_next]
    exact q.receiving (k + 1) (by omega) (by omega)
  · obtain ⟨hj, hheld⟩ := q.begun hpos
    refine ⟨by omega, ?_⟩
    rw [place_next]
    exact hheld
  · dsimp only
    rw [hcontent, List.drop_zero, ← content_drop q.length]
    exact q.flow

/-- The append node is given to the HAL, which has a place for it. -/
theorem Queue.give (q : Queue size s j n off) (hn : n < rxBufNum)
    (hreceiving : (s.node s.append).status.receiving = true) (pc : Pc) :
    ∃ s', rxApi s s.append = some s' ∧
      Queue size { s' with append := s.append + 1, pc := pc } j (n + 1) off ∧
      s'.readOffset = s.readOffset ∧ s'.node = s.node ∧ s'.r = s.r := by
  have hle := q.le
  have hlen : s.hal.length < rxBufNum := by
    rw [q.hal, List.length_map, List.length_range]
    omega
  refine ⟨{ s with hal := s.hal ++ [s.append] }, by rw [rxApi, if_pos hlen], ?_, rfl, rfl, rfl⟩
  refine ⟨q.length, by omega, by omega, q.w, ?_, ?_, q.complete, fun k hjk hk => ?_, fun hpos => ?_,
    q.offset, q.endOffset, q.within, ?_⟩
  · dsimp only
    rw [q.append, place_succ]
  · dsimp only
    rw [q.hal, show n + 1 - j = n - j + 1 by omega, List.range_succ, List.map_append,
      List.map_singleton, q.append, show j + (n - j) = n by omega]
  · rcases Nat.lt_or_ge k n with hkn | hkn
    · exact q.receiving k hjk hkn
    · rw [show k = n by omega, ← q.append]
      exact hreceiving
  · exact ⟨by have := (q.begun hpos).1; omega, (q.begun hpos).2⟩
  · have hcontent : content { s with hal := s.hal ++ [s.append], append := s.append + 1, pc := pc }
        j s.r = content s j s.r := by
      apply content_eq <;> rfl
    dsimp only
    rw [hcontent]
    exact q.flow

/-- The state after an accepted report of `data`. -/
def reported (s : State) (data : List UInt8) (timeoutFlag done : Bool) : State :=
  { s with
    node := Function.update s.node s.w
      ⟨⟨true, !done, timeoutFlag⟩, memcpy (s.node s.w).buf s.halOffset data⟩
    w := if done then s.w + 1 else s.w
    endOffset := if done then 0 else s.halOffset + data.length
    hal := if done then s.hal.tail else s.hal
    halOffset := if done then 0 else s.halOffset + data.length
    accepted := s.accepted ++ data }

/-- The HAL fills the node the callback expects, so every report is accepted. -/
theorem Queue.rxReady_eq (q : Queue size s j n off) {data : List UInt8} {timeoutFlag : Bool}
    (hs : rxReady size s data timeoutFlag = some s') :
    j < n ∧ s.halOffset + data.length ≤ size ∧
      s' = reported s data timeoutFlag (s.halOffset + data.length = size) := by
  rcases hhal : s.hal with _ | ⟨i, rest⟩
  · rw [rxReady, hhal] at hs
    cases hs
  · have hj : j < n := by
      have hlen := congrArg List.length hhal
      rw [q.hal, List.length_map, List.length_range, List.length_cons] at hlen
      omega
    have hi : i = s.w := by
      have hhead := congrArg List.head? hhal
      rw [q.hal, show n - j = n - j - 1 + 1 by omega, List.range_succ_eq_map, List.map_cons,
        List.head?_cons, List.head?_cons, Option.some.injEq] at hhead
      rw [← hhead, q.w]
      rfl
    have hreceiving : (s.node s.w).status.receiving = true := by
      rw [q.w]
      exact q.receiving j (Nat.le_refl j) hj
    rw [rxReady, hhal] at hs
    dsimp only at hs
    by_cases hlong : size < s.halOffset + data.length
    · rw [if_pos hlong] at hs
      cases hs
    · rw [if_neg hlong, Option.some.injEq] at hs
      refine ⟨hj, by omega, ?_⟩
      subst hs
      subst hi
      have hself : (Function.update s.node s.w
          { s.node s.w with buf := memcpy (s.node s.w).buf s.halOffset data } s.w) =
          { s.node s.w with buf := memcpy (s.node s.w).buf s.halOffset data } :=
        Function.update_self ..
      have hupdated : (Function.update s.node s.w
          { s.node s.w with buf := memcpy (s.node s.w).buf s.halOffset data } s.w).status.receiving =
          true := by
        rw [hself]
        exact hreceiving
      rw [rxReadyCallback, if_pos hupdated]
      -- the report is about the node the callback writes to: the pointers differ by the offset
      by_cases hfull : s.halOffset + data.length = size
      · have hend : (s.halOffset : Int) + data.length = size := by omega
        simp [reported, hend, hfull, hhal, setStatus]
      · have hend : ¬ (s.halOffset : Int) + data.length = size := by omega
        simp [reported, hend, hfull, hhal, setStatus, hreceiving]

theorem reported_other (data : List UInt8) (timeoutFlag done : Bool) {i : Fin rxBufNum}
    (h : i ≠ s.w) : (reported s data timeoutFlag done).node i = s.node i :=
  Function.update_of_ne h ..

theorem reported_self (data : List UInt8) (timeoutFlag done : Bool) :
    (reported s data timeoutFlag done).node s.w =
      ⟨⟨true, !done, timeoutFlag⟩, memcpy (s.node s.w).buf s.halOffset data⟩ :=
  Function.update_self ..

/-- A report only adds to what a node holds. -/
theorem reported_holding (data : List UInt8) (timeoutFlag done : Bool) {i : Fin rxBufNum}
    (h : (s.node i).status.dataHolding = true) :
    ((reported s data timeoutFlag done).node i).status.dataHolding = true := by
  by_cases hi : i = s.w
  · rw [hi, reported_self]
  · rw [reported_other data timeoutFlag done hi]
    exact h

theorem Queue.reported_length (q : Queue size s j n off) {data : List UInt8}
    (hfits : s.halOffset + data.length ≤ size) (timeoutFlag done : Bool) (i : Fin rxBufNum) :
    ((reported s data timeoutFlag done).node i).buf.length = size := by
  by_cases hi : i = s.w
  · rw [hi, reported_self]
    dsimp only
    have hlen := q.length s.w
    rw [memcpy_length (by omega)]
    exact hlen
  · rw [reported_other data timeoutFlag done hi]
    exact q.length i

theorem Queue.apart (q : Queue size s j n off) {k : Nat} (hk : k < rxBufNum) (hj : j < n)
    (hne : k ≠ j) : place s.r k ≠ s.w := by
  intro heq
  rw [q.w] at heq
  have := q.num
  exact hne (place_inj hk (by omega) heq)

theorem Queue.drop_append (q : Queue size s j n off) (data : List UInt8) :
    (content s j s.r ++ data).drop off = (content s j s.r).drop off ++ data := by
  refine List.drop_append_of_le_length ?_
  have hwithin := q.within
  have hlen := q.length s.r
  cases j with
  | zero =>
    have hoffset := q.offset
    simp only [avail, if_pos] at hwithin
    rw [content, List.length_take]
    omega
  | succ j =>
    simp only [avail, Nat.succ_ne_zero, if_false] at hwithin
    rw [content, List.length_append]
    omega

/-- The node is not full yet. -/
theorem Queue.report (q : Queue size s j n off) {data : List UInt8} (hj : j < n)
    (hfits : s.halOffset + data.length < size) (timeoutFlag : Bool) :
    Queue size (reported s data timeoutFlag false) j n off := by
  have hnum := q.num
  have hcontent : content (reported s data timeoutFlag false) j s.r = content s j s.r ++ data := by
    refine content_report q.length (by omega) rfl j (by omega) (fun k hk => ?_) ?_
    · rw [reported_other data timeoutFlag false (q.apart (by omega) hj (by omega))]
    · rw [← q.w, reported_self]
  refine ⟨q.reported_length (by omega) timeoutFlag false, q.le, q.num, q.w, q.append, q.hal,
    fun k hk => ?_, fun k hjk hk => ?_, fun _ => ⟨hj, ?_⟩, hfits, rfl, ?_, ?_⟩
  · rw [show (reported s data timeoutFlag false).r = s.r from rfl,
      reported_other data timeoutFlag false (q.apart (by omega) hj (by omega))]
    exact q.complete k hk
  · by_cases heq : k = j
    · rw [heq, show (reported s data timeoutFlag false).r = s.r from rfl, ← q.w, reported_self]
      rfl
    · rw [show (reported s data timeoutFlag false).r = s.r from rfl,
        reported_other data timeoutFlag false (q.apart (by omega) hj heq)]
      exact q.receiving k hjk hk
  · rw [show (reported s data timeoutFlag false).r = s.r from rfl, ← q.w, reported_self]
  · have hwithin := q.within
    have hoff : (reported s data timeoutFlag false).halOffset = s.halOffset + data.length := rfl
    rw [avail] at hwithin ⊢
    rw [hoff]
    by_cases hzero : j = 0
    · rw [if_pos hzero] at hwithin ⊢
      omega
    · rw [if_neg hzero] at hwithin ⊢
      exact hwithin
  · rw [show (reported s data timeoutFlag false).r = s.r from rfl, hcontent, q.drop_append]
    show s.accepted ++ data = _
    rw [q.flow, List.append_assoc]
    rfl

/-- The node is full: the HAL goes on with the next one it has. -/
theorem Queue.reportEnd (q : Queue size s j n off) (hpos : 0 < size) {data : List UInt8} (hj : j < n)
    (hfull : s.halOffset + data.length = size) (timeoutFlag : Bool) :
    Queue size (reported s data timeoutFlag true) (j + 1) n off := by
  have hnum := q.num
  have hcontent : content (reported s data timeoutFlag true) (j + 1) s.r =
      content s j s.r ++ data := by
    refine content_complete q.length hfull rfl j (by omega) (fun k hk => ?_) ?_
    · rw [reported_other data timeoutFlag true (q.apart (by omega) hj (by omega))]
    · rw [← q.w, reported_self]
  refine ⟨q.reported_length (by omega) timeoutFlag true, by omega, q.num, ?_, q.append, ?_,
    fun k hk => ?_, fun k hjk hk => ?_, fun h => absurd h (Nat.lt_irrefl 0), hpos, rfl, ?_, ?_⟩
  · rw [place_succ]
    show s.w + 1 = _
    rw [q.w]
    rfl
  · show s.hal.tail = _
    rw [q.hal, show n - j = n - (j + 1) + 1 by omega, List.range_succ_eq_map, List.map_cons,
      List.tail_cons, List.map_map]
    refine List.map_congr_left fun k _ => ?_
    simp only [Function.comp_apply]
    rw [show (reported s data timeoutFlag true).r = s.r from rfl]
    congr 1
    omega
  · by_cases heq : k = j
    · rw [heq, show (reported s data timeoutFlag true).r = s.r from rfl, ← q.w, reported_self]
      exact ⟨rfl, rfl⟩
    · rw [show (reported s data timeoutFlag true).r = s.r from rfl,
        reported_other data timeoutFlag true (q.apart (by omega) hj heq)]
      exact q.complete k (by omega)
  · rw [show (reported s data timeoutFlag true).r = s.r from rfl,
      reported_other data timeoutFlag true (q.apart (by omega) hj (by omega))]
    exact q.receiving k (by omega) hk
  · have hwithin := q.within
    have hoffset := q.offset
    rw [avail] at hwithin ⊢
    rw [if_neg (by omega)]
    by_cases hzero : j = 0
    · rw [if_pos hzero] at hwithin
      omega
    · rw [if_neg hzero] at hwithin
      exact hwithin
  · rw [show (reported s data timeoutFlag true).r = s.r from rfl, hcontent, q.drop_append]
    show s.accepted ++ data = _
    rw [q.flow, List.append_assoc]
    rfl

end Queue

end WmIot.Uart.Rx
