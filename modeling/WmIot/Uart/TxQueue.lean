import WmIot.Lib.Ring
import WmIot.Uart.Tx

/-!
# What the ring of transmit nodes holds

From the append node on the ring holds full nodes, then at most one node that is partly filled,
then nothing. The node under transfer is the one before the append node.
-/

namespace WmIot.Uart
open Ring
set_option autoImplicit false

section Filling
variable {size : Nat}

/-- Full entries, then at most one that is partly filled, then empty ones. -/
def Filled (size : Nat) : List Nat → Prop
  | [] => True
  | h :: hs => (h = size ∧ Filled size hs) ∨ (h < size ∧ ∀ x ∈ hs, x = 0)

/-- The number of leading full entries. -/
def fulls (size : Nat) : List Nat → Nat
  | [] => 0
  | h :: hs => if h = size then fulls size hs + 1 else 0

theorem fulls_le (l : List Nat) : fulls size l ≤ l.length := by
  induction l with
  | nil => simp [fulls]
  | cons h hs ih =>
    simp only [fulls, List.length_cons]
    split <;> omega

theorem filled_zeros {l : List Nat} (hpos : 0 < size) (h : ∀ x ∈ l, x = 0) : Filled size l := by
  cases l with
  | nil => trivial
  | cons x xs =>
    have hx := h x (List.mem_cons_self ..)
    exact Or.inr ⟨by omega, fun y hy => h y (List.mem_cons_of_mem _ hy)⟩

theorem fulls_zeros {l : List Nat} (hpos : 0 < size) (h : ∀ x ∈ l, x = 0) : fulls size l = 0 := by
  cases l with
  | nil => rfl
  | cons x xs =>
    have hx := h x (List.mem_cons_self ..)
    simp only [fulls]
    rw [if_neg (by omega)]

theorem Filled.append_zero {l : List Nat} (hpos : 0 < size) (h : Filled size l) :
    Filled size (l ++ [0]) := by
  induction l with
  | nil => exact Or.inr ⟨hpos, by simp⟩
  | cons x xs ih =>
    rcases h with ⟨hx, hxs⟩ | ⟨hx, hxs⟩
    · exact Or.inl ⟨hx, ih hxs⟩
    · refine Or.inr ⟨hx, fun y hy => ?_⟩
      rcases List.mem_append.mp hy with hy | hy
      · exact hxs y hy
      · simpa using hy

theorem fulls_append_zero {l : List Nat} (hpos : 0 < size) : fulls size (l ++ [0]) = fulls size l := by
  induction l with
  | nil =>
    simp only [List.nil_append, fulls]
    rw [if_neg (by omega)]
  | cons x xs ih =>
    simp only [List.cons_append, fulls, ih]

/-- The first entry leaves and an empty one joins at the end. -/
theorem Filled.rotate {x : Nat} {xs : List Nat} (hpos : 0 < size) (h : Filled size (x :: xs)) :
    Filled size (xs ++ [0]) ∧ fulls size (xs ++ [0]) = fulls size (x :: xs) - 1 := by
  rcases h with ⟨hx, hxs⟩ | ⟨hx, hxs⟩
  · refine ⟨hxs.append_zero hpos, ?_⟩
    rw [fulls_append_zero hpos]
    simp only [fulls, if_pos hx]
    omega
  · have hz : ∀ y ∈ xs ++ [0], y = 0 := fun y hy => by
      rcases List.mem_append.mp hy with hy | hy
      · exact hxs y hy
      · simpa using hy
    refine ⟨filled_zeros hpos hz, ?_⟩
    rw [fulls_zeros hpos hz]
    simp only [fulls]
    rw [if_neg (by omega)]

theorem all_full {l : List Nat} (h : fulls size l = l.length) : ∀ x ∈ l, x = size := by
  induction l with
  | nil => simp
  | cons x xs ih =>
    by_cases hx : x = size
    · simp only [fulls, if_pos hx, List.length_cons] at h
      intro y hy
      rcases List.mem_cons.mp hy with hy | hy
      · rw [hy, hx]
      · exact ih (by omega) y hy
    · simp only [fulls, if_neg hx, List.length_cons] at h
      omega

/-- Data goes into the entry after the full ones. -/
theorem Filled.grow {l : List Nat} (hpos : 0 < size) (h : Filled size l) {v : Nat} (hv : v ≤ size)
    (hlt : fulls size l < l.length) :
    Filled size (l.set (fulls size l) v) ∧
      fulls size (l.set (fulls size l) v) = if v = size then fulls size l + 1 else fulls size l := by
  induction l with
  | nil => simp [fulls] at hlt
  | cons x xs ih =>
    rcases h with ⟨hx, hxs⟩ | ⟨hx, hxs⟩
    · simp only [fulls, if_pos hx, List.length_cons] at hlt ⊢
      obtain ⟨hf, hn⟩ := ih hxs (by omega)
      rw [List.set_cons_succ]
      refine ⟨Or.inl ⟨hx, hf⟩, ?_⟩
      simp only [fulls, if_pos hx, hn]
      split <;> rfl
    · simp only [fulls]
      rw [if_neg (show x ≠ size by omega), List.set_cons_zero]
      by_cases hfull : v = size
      · refine ⟨Or.inl ⟨hfull, filled_zeros hpos hxs⟩, ?_⟩
        rw [if_pos hfull]
        simp only [fulls, if_pos hfull, fulls_zeros hpos hxs]
      · refine ⟨Or.inr ⟨by omega, hxs⟩, ?_⟩
        rw [if_neg hfull]
        simp only [fulls, if_neg hfull]

/-- An entry that is not full comes after the full ones, and after it all are empty. -/
theorem Filled.first {x : Nat} {xs : List Nat} (h : Filled size (x :: xs)) (hx : x < size) :
    fulls size (x :: xs) = 0 ∧ ∀ y ∈ xs, y = 0 := by
  rcases h with ⟨hf, _⟩ | ⟨_, hxs⟩
  · omega
  · exact ⟨by simp only [fulls]; rw [if_neg (by omega)], hxs⟩

end Filling

/-- The bytes of a node that wait for a transfer. -/
def held (n : Node) : Nat := if n.status.sending then 0 else n.status.dateSize

def unsent (n : Node) : List UInt8 := n.buf.take (held n)

section Nodes
variable {node : Fin txBufNum → Node} {a : Fin txBufNum}

/-- The nodes in the order of the ring, from `a` on. -/
def ring (node : Fin txBufNum → Node) (a : Fin txBufNum) : List Node :=
  (List.range txBufNum).map fun k => node (place a k)

def helds (node : Fin txBufNum → Node) (a : Fin txBufNum) : List Nat := (ring node a).map held

/-- The bytes that wait in the nodes, in the order in which the nodes come up. -/
def pending (node : Fin txBufNum → Node) (a : Fin txBufNum) : List UInt8 :=
  (ring node a).flatMap unsent

theorem ring_cons (node : Fin txBufNum → Node) (a : Fin txBufNum) :
    ring node a = node a :: (List.range 3).map fun k => node (place (a + 1) k) := by
  simp only [ring, place_next, List.range_succ_eq_map (n := 3), List.map_cons, place_zero,
    List.map_map]
  rfl

theorem ring_next (node : Fin txBufNum → Node) (a : Fin txBufNum) :
    ring node (a + 1) = ((List.range 3).map fun k => node (place (a + 1) k)) ++ [node a] := by
  have hlast : place (a + 1) 3 = a := by
    rw [place_next]
    exact place_around a
  simp only [ring, List.range_succ (n := 3), List.map_append, List.map_cons, List.map_nil, hlast]

/-- What a node holds is all that counts for the ring. -/
theorem helds_congr {node' : Fin txBufNum → Node} (h : ∀ i, held (node' i) = held (node i)) :
    helds node' a = helds node a := by
  simp only [helds, ring, List.map_map]
  exact List.map_congr_left fun k _ => h _

theorem pending_congr {node' : Fin txBufNum → Node} (h : ∀ i, unsent (node' i) = unsent (node i)) :
    pending node' a = pending node a := by
  simp only [pending, ring, List.flatMap_map]
  congr 1
  exact funext fun k => h _

theorem helds_cons (node : Fin txBufNum → Node) (a : Fin txBufNum) :
    helds node a = held (node a) :: (List.range 3).map fun k => held (node (place (a + 1) k)) := by
  rw [helds, ring_cons, List.map_cons, List.map_map]
  rfl

theorem helds_next (node : Fin txBufNum → Node) (a : Fin txBufNum) :
    helds node (a + 1) =
      ((List.range 3).map fun k => held (node (place (a + 1) k))) ++ [held (node a)] := by
  rw [helds, ring_next, List.map_append, List.map_map]
  rfl

theorem helds_length (node : Fin txBufNum → Node) (a : Fin txBufNum) :
    (helds node a).length = txBufNum := by simp [helds, ring]

theorem ring_update {k : Nat} (hk : k < txBufNum) (n : Node) :
    ring (Function.update node (place a k) n) a = (ring node a).set k n := by
  apply List.ext_getElem
  · simp [ring]
  · intro j hj _
    have hj : j < txBufNum := by simpa [ring] using hj
    rw [List.getElem_set]
    simp only [ring, List.getElem_map, List.getElem_range]
    by_cases heq : k = j
    · rw [if_pos heq, heq, Function.update_self]
    · rw [if_neg heq, Function.update_of_ne]
      exact fun hp => heq (place_inj hk hj hp.symm)

/-- Data in the node after the full ones is last in the order of the ring. -/
theorem pending_grow {size : Nat} {l : List Node} (hf : Filled size (l.map held)) {n n' : Node}
    {bytes : List UInt8} (hn : l[fulls size (l.map held)]? = some n)
    (hn' : unsent n' = unsent n ++ bytes) :
    (l.set (fulls size (l.map held)) n').flatMap unsent = l.flatMap unsent ++ bytes := by
  induction l with
  | nil => simp at hn
  | cons x xs ih =>
    rw [List.map_cons] at hf hn ⊢
    rcases hf with ⟨hx, hxs⟩ | ⟨hx, hxs⟩
    · simp only [fulls, if_pos hx, List.getElem?_cons_succ] at hn ⊢
      rw [List.set_cons_succ, List.flatMap_cons, List.flatMap_cons, ih hxs hn, List.append_assoc]
    · simp only [fulls] at hn ⊢
      rw [if_neg (show held x ≠ size by omega)] at hn ⊢
      rw [List.getElem?_cons_zero, Option.some.injEq] at hn
      have hnil : xs.flatMap unsent = [] := by
        rw [List.flatMap_eq_nil_iff]
        intro y hy
        have hz := hxs (held y) (List.mem_map_of_mem hy)
        rw [unsent, hz, List.take_zero]
      rw [List.set_cons_zero, List.flatMap_cons, List.flatMap_cons, hnil, hn', hn]
      simp

end Nodes

/-- Where the writer may put data: after the full nodes, or at the append node while all that is
there is full nodes and free ones. -/
def Placed (size : Nat) (l : List Nat) (a cur : Fin txBufNum) : Prop :=
  cur = place a (fulls size l) ∨ (cur = a ∧ ∀ x ∈ l, x = size ∨ x = 0)

/-- The ring, the transfer and the bytes accepted so far, with the writer at node `cur`. -/
structure Queue (size : Nat) (s : State) (cur : Fin txBufNum) (acc : List UInt8) : Prop where
  length : ∀ i, (s.node i).buf.length = size
  room : ∀ i, (s.node i).status.dateSize ≤ size
  filled : Filled size (helds s.node s.append)
  placed : Placed size (helds s.node s.append) s.append cur
  flow : acc = s.handed ++ pending s.node s.append
  idle : s.hal = none → s.r = s.append ∧ ∀ i, (s.node i).status.sending = false
  busy : ∀ t, s.hal = some t → s.r + 1 = s.append ∧ t.node = s.r ∧
    (∀ i, (s.node i).status.sending = true ↔ i = s.r) ∧
    ∃ before, s.handed = before ++ (s.node s.r).buf.take t.size

section Queue
variable {size : Nat} {s s' : State} {cur : Fin txBufNum} {acc : List UInt8}

/-- The writer's own part of the state does not matter to the queue. -/
theorem Queue.congr (q : Queue size s cur acc) (hnode : s'.node = s.node) (hr : s'.r = s.r)
    (happend : s'.append = s.append) (hhal : s'.hal = s.hal) (hhanded : s'.handed = s.handed) :
    Queue size s' cur acc := by
  constructor
  · rw [hnode]; exact q.length
  · rw [hnode]; exact q.room
  · rw [hnode, happend]; exact q.filled
  · rw [hnode, happend]; exact q.placed
  · rw [hnode, happend, hhanded]; exact q.flow
  · rw [hnode, happend, hhal, hr]; exact q.idle
  · rw [hnode, happend, hhal, hr, hhanded]; exact q.busy

theorem setStatus_self (node : Fin txBufNum → Node) (i : Fin txBufNum) (st : Status) :
    setStatus node i st i = { node i with status := st } := by simp [setStatus]

theorem setStatus_of_ne (node : Fin txBufNum → Node) {i j : Fin txBufNum} (h : j ≠ i)
    (st : Status) : setStatus node i st j = node j := by simp [setStatus, h]

theorem setStatus_buf (node : Fin txBufNum → Node) (i j : Fin txBufNum) (st : Status) :
    (setStatus node i st j).buf = (node j).buf := by
  by_cases h : j = i
  · rw [h, setStatus_self]
  · rw [setStatus_of_ne node h]

theorem setBuf_self (node : Fin txBufNum → Node) (i : Fin txBufNum) (buf : List UInt8) :
    setBuf node i buf i = { node i with buf := buf } := by simp [setBuf]

theorem setBuf_of_ne (node : Fin txBufNum → Node) {i j : Fin txBufNum} (h : j ≠ i)
    (buf : List UInt8) : setBuf node i buf j = node j := by simp [setBuf, h]

theorem setBuf_status (node : Fin txBufNum → Node) (i j : Fin txBufNum) (buf : List UInt8) :
    (setBuf node i buf j).status = (node j).status := by
  by_cases h : j = i
  · rw [h, setBuf_self]
  · rw [setBuf_of_ne node h]

/-- While a transfer is on, its node is the one marked. -/
theorem Queue.finishSent_eq (q : Queue size s cur acc) {t : Transfer} (ht : s.hal = some t) :
    finishSent { s with hal := none } =
      { s with hal := none, node := setStatus s.node s.r ⟨false, 0⟩, r := s.append } := by
  obtain ⟨hnext, _, hsend, _⟩ := q.busy t ht
  have hmark : (s.node s.r).status.sending = true := (hsend s.r).mpr rfl
  simp only [finishSent, hmark, if_true]
  rw [hnext]

/-- The transfer is done and its node is free; nothing else changes. -/
theorem Queue.finish (q : Queue size s cur acc) {t : Transfer} (ht : s.hal = some t) :
    Queue size (finishSent { s with hal := none }) cur acc := by
  obtain ⟨hnext, _, hsend, _⟩ := q.busy t ht
  have hmark : (s.node s.r).status.sending = true := (hsend s.r).mpr rfl
  rw [q.finishSent_eq ht]
  have hheld : ∀ i, held (setStatus s.node s.r ⟨false, 0⟩ i) = held (s.node i) := fun i => by
    by_cases h : i = s.r
    · rw [h, setStatus_self]
      simp [held, hmark]
    · rw [setStatus_of_ne _ h]
  have hunsent : ∀ i, unsent (setStatus s.node s.r ⟨false, 0⟩ i) = unsent (s.node i) := fun i => by
    rw [unsent, unsent, hheld, setStatus_buf]
  constructor
  · intro i
    rw [setStatus_buf]
    exact q.length i
  · intro i
    dsimp only
    by_cases h : i = s.r
    · rw [h, setStatus_self]
      exact Nat.zero_le _
    · rw [setStatus_of_ne _ h]
      exact q.room i
  · rw [helds_congr hheld]
    exact q.filled
  · rw [helds_congr hheld]
    exact q.placed
  · rw [pending_congr hunsent]
    exact q.flow
  · refine fun _ => ⟨rfl, fun i => ?_⟩
    dsimp only
    by_cases h : i = s.r
    · rw [h, setStatus_self]
    · rw [setStatus_of_ne _ h, ← Bool.not_eq_true, hsend]
      exact h
  · exact fun t h => by cases h

/-- The state in which the append node has gone to the HAL. -/
def started (s : State) : State :=
  { s with
    node := setStatus s.node s.append { (s.node s.append).status with sending := true }
    hal := some ⟨s.append, (s.node s.append).status.dateSize⟩
    handed := s.handed ++ (s.node s.append).buf.take (s.node s.append).status.dateSize
    w := if s.w = s.append then s.w + 1 else s.w
    append := s.append + 1 }

theorem appendNext_started (hidle : s.hal = none) (hw : s.writting = false)
    (hdata : 0 < (s.node s.append).status.dateSize) : appendNext s s.append = started s := by
  have hcond : 0 < (s.node s.append).status.dateSize ∧ ¬ s.writting = true := by simp [hdata, hw]
  have hapi : ¬ (s.hal.isSome = true ∨ (s.node s.append).status.dateSize = 0) := by
    rw [hidle]
    simp
    omega
  simp only [appendNext, if_pos hcond, txApi, if_neg hapi]
  rfl

theorem appendNext_refused {i : Fin txBufNum}
    (h : s.writting = true ∨ (s.node i).status.dateSize = 0) : appendNext s i = s := by
  rw [appendNext, if_neg]
  rintro ⟨hdata, hw⟩
  rcases h with h | h
  · exact hw h
  · omega

/-- The writer's node after the append node has moved on. -/
theorem Queue.placed_started (q : Queue size s s.w acc) (hpos : 0 < size) :
    Placed size (((List.range 3).map fun k => held (s.node (place (s.append + 1) k))) ++ [0])
      (s.append + 1) (started s).w := by
  have hfilled := q.filled
  have hplaced := q.placed
  rw [helds_cons] at hfilled hplaced
  obtain ⟨-, hfulls⟩ := hfilled.rotate hpos
  have hstay : ∀ x ∈ ((List.range 3).map fun k => held (s.node (place (s.append + 1) k))) ++ [0],
      (∀ y ∈ held (s.node s.append) ::
        (List.range 3).map fun k => held (s.node (place (s.append + 1) k)), y = size ∨ y = 0) →
      x = size ∨ x = 0 := by
    intro x hx hall
    rcases List.mem_append.mp hx with hx | hx
    · exact hall x (List.mem_cons_of_mem _ hx)
    · exact Or.inr (by simpa using hx)
  rcases hplaced with hw | ⟨hw, hall⟩
  · by_cases heq : s.w = s.append
    · have hwnew : (started s).w = s.append + 1 := by simp [started, heq]
      generalize hl : held (s.node s.append) ::
        (List.range 3).map (fun k => held (s.node (place (s.append + 1) k))) = l at *
      have hlen : l.length = txBufNum := by rw [← hl]; simp
      have hle : fulls size l ≤ l.length := fulls_le l
      rw [hlen] at hle
      rcases Nat.lt_or_ge (fulls size l) txBufNum with hlt | hge
      · have hzero : fulls size l = 0 :=
          place_inj hlt (show 0 < txBufNum by decide) (hw.symm.trans (heq.trans (place_zero _).symm))
        refine Or.inl ?_
        rw [hwnew, hfulls, hzero, place_zero]
      · -- every node is full: the writer is at the append node from behind
        have hall := all_full (show fulls size l = l.length by omega)
        exact Or.inr ⟨hwnew, fun x hx => hstay x hx fun y hy => Or.inl (hall y hy)⟩
    · have hwold : (started s).w = s.w := by simp [started, heq]
      refine Or.inl ?_
      rw [hwold, hfulls, place_next, hw]
      congr 1
      have hne : fulls size (held (s.node s.append) ::
          (List.range 3).map fun k => held (s.node (place (s.append + 1) k))) ≠ 0 := by
        intro hzero
        rw [hzero, place_zero] at hw
        exact heq hw
      omega
  · have hwnew : (started s).w = s.append + 1 := by simp [started, hw]
    exact Or.inr ⟨hwnew, fun x hx => hstay x hx hall⟩

theorem Queue.start (q : Queue size s s.w acc) (hpos : 0 < size) (hidle : s.hal = none)
    (_ : 0 < (s.node s.append).status.dateSize) :
    Queue size (started s) (started s).w acc := by
  obtain ⟨hr, hfree⟩ := q.idle hidle
  have hheld : held (s.node s.append) = (s.node s.append).status.dateSize := by
    simp [held, hfree s.append]
  -- the marked node holds nothing to send any more; the others are as they were
  have hzero : held ((started s).node s.append) = 0 := by
    simp [started, setStatus_self, held]
  have hsame : ∀ k < 3, (started s).node (place (s.append + 1) k) = s.node (place (s.append + 1) k) := by
    intro k hk
    refine setStatus_of_ne _ (fun heq => ?_) _
    rw [place_next] at heq
    have hinj := place_inj (show k + 1 < txBufNum by simp only [txBufNum]; omega)
      (show 0 < txBufNum by decide) (heq.trans (place_zero _).symm)
    omega
  have hrest : ((List.range 3).map fun k => (started s).node (place (s.append + 1) k)) =
      (List.range 3).map fun k => s.node (place (s.append + 1) k) :=
    List.map_congr_left fun k hk => hsame k (List.mem_range.mp hk)
  have hhelds : helds (started s).node (s.append + 1) =
      ((List.range 3).map fun k => held (s.node (place (s.append + 1) k))) ++ [0] := by
    rw [helds, ring_next, hrest, List.map_append, List.map_map, List.map_singleton, hzero]
    rfl
  have hold := helds_cons s.node s.append
  have hfilled := q.filled
  rw [hold] at hfilled
  obtain ⟨hrot, hfulls⟩ := hfilled.rotate hpos
  constructor
  · intro i
    rw [started, setStatus_buf]
    exact q.length i
  · intro i
    by_cases h : i = s.append
    · have hself : (started s).node i = { s.node i with status := { (s.node i).status with sending := true } } := by
        rw [h]
        exact setStatus_self ..
      rw [hself]
      exact q.room i
    · rw [show (started s).node i = s.node i from setStatus_of_ne _ h _]
      exact q.room i
  · rw [show (started s).append = s.append + 1 from rfl, hhelds]
    exact hrot
  · rw [show (started s).append = s.append + 1 from rfl, hhelds]
    exact q.placed_started hpos
  · rw [show (started s).append = s.append + 1 from rfl, q.flow]
    rw [pending, ring_cons, pending, ring_next, hrest]
    rw [List.flatMap_cons, List.flatMap_append, List.flatMap_singleton]
    rw [show unsent ((started s).node s.append) = [] by rw [unsent, hzero, List.take_zero]]
    rw [show unsent (s.node s.append) = _ by rw [unsent, hheld]]
    simp [started]
  · exact fun h => by cases h
  · rintro t ht
    cases ht
    refine ⟨by rw [show (started s).r = s.r from rfl, hr]; rfl, hr.symm, fun i => ?_, s.handed, ?_⟩
    · by_cases h : i = s.append
      · subst h
        simp [started, setStatus_self, hr]
      · rw [show (started s).node i = s.node i from setStatus_of_ne _ h _, hfree i]
        rw [show (started s).r = s.append from hr]
        simpa using h
    · rw [show (started s).r = s.append from hr, started, setStatus_buf]

/-- Where the writer finds room, it is at the node after the full ones. -/
theorem Queue.writable (q : Queue size s cur acc) (hfree : (s.node cur).status.sending = false)
    (hroom : (s.node cur).status.dateSize < size) :
    fulls size (helds s.node s.append) < txBufNum ∧
      cur = place s.append (fulls size (helds s.node s.append)) := by
  have hheld : held (s.node cur) = (s.node cur).status.dateSize := by simp [held, hfree]
  have hfilled := q.filled
  have hle : fulls size (helds s.node s.append) ≤ _ := fulls_le (helds s.node s.append)
  rw [helds_length] at hle
  rcases q.placed with hcur | ⟨hcur, hall⟩
  · refine ⟨Nat.lt_of_le_of_ne hle fun hfull => ?_, hcur⟩
    rw [hfull, place_around] at hcur
    have hsize := all_full (hfull.trans (helds_length s.node s.append).symm) (held (s.node cur))
      (by rw [helds_cons, hcur]; exact List.mem_cons_self ..)
    omega
  · subst hcur
    rw [helds_cons] at hfilled hall
    rcases hall _ (List.mem_cons_self ..) with hx | hx
    · omega
    · obtain ⟨hzero, -⟩ := hfilled.first (by omega)
      rw [helds_cons, hzero, place_zero]
      exact ⟨by decide, rfl⟩

theorem ring_getElem? {node : Fin txBufNum → Node} {a : Fin txBufNum} {k : Nat} (hk : k < txBufNum) :
    (ring node a)[k]? = some (node (place a k)) := by
  simp [ring, hk]

/-- Bytes copied behind the data of a node that is not sent do not show until `date_size` does. -/
theorem Queue.copy (q : Queue size s cur acc) {i : Fin txBufNum} {bytes : List UInt8}
    (hfree : (s.node i).status.sending = false)
    (hroom : (s.node i).status.dateSize + bytes.length ≤ size) :
    Queue size
      { s with
        node := setBuf s.node i (memcpy (s.node i).buf (s.node i).status.dateSize bytes) }
      cur acc := by
  have hlen := q.length i
  generalize hnew : setBuf s.node i (memcpy (s.node i).buf (s.node i).status.dateSize bytes) = node'
  have hstatus : ∀ j, (node' j).status = (s.node j).status := fun j => by
    rw [← hnew, setBuf_status]
  have hheld : ∀ j, held (node' j) = held (s.node j) := fun j => by rw [held, held, hstatus]
  have hunsent : ∀ j, unsent (node' j) = unsent (s.node j) := fun j => by
    by_cases h : j = i
    · subst h
      have hj : held (s.node j) = (s.node j).status.dateSize := by simp [held, hfree]
      rw [unsent, unsent, hheld, hj, ← hnew, setBuf_self]
      exact memcpy_take (by omega)
    · rw [← hnew, setBuf_of_ne _ h]
  constructor
  · intro j
    dsimp only
    by_cases h : j = i
    · subst h
      rw [← hnew, setBuf_self]
      dsimp only
      rw [memcpy_length (by omega)]
      exact hlen
    · rw [← hnew, setBuf_of_ne _ h]
      exact q.length j
  · intro j
    rw [hstatus]
    exact q.room j
  · rw [helds_congr hheld]
    exact q.filled
  · rw [helds_congr hheld]
    exact q.placed
  · rw [pending_congr hunsent]
    exact q.flow
  · intro h
    refine ⟨(q.idle h).1, fun j => ?_⟩
    rw [hstatus]
    exact (q.idle h).2 j
  · intro t ht
    obtain ⟨hnext, hnode, hsend, before, hbefore⟩ := q.busy t ht
    refine ⟨hnext, hnode, fun j => ?_, before, ?_⟩
    · rw [hstatus]
      exact hsend j
    · have hne : s.r ≠ i := by
        rintro rfl
        rw [(hsend s.r).mpr rfl] at hfree
        cases hfree
      dsimp only
      rw [← hnew, setBuf_of_ne _ hne]
      exact hbefore

/-- The new `date_size` is stored: the bytes behind the data are accepted, last in the queue. -/
theorem Queue.store (q : Queue size s cur acc) (hpos : 0 < size) {bytes : List UInt8}
    (hfree : (s.node cur).status.sending = false) (hdata : 0 < bytes.length)
    (hroom : (s.node cur).status.dateSize + bytes.length ≤ size)
    (hbuf : ((s.node cur).buf.drop (s.node cur).status.dateSize).take bytes.length = bytes) :
    Queue size
      { s with
        node := setStatus s.node cur ⟨false, (s.node cur).status.dateSize + bytes.length⟩ }
      (if (s.node cur).status.dateSize + bytes.length = size then cur + 1 else cur)
      (acc ++ bytes) := by
  obtain ⟨hlt, hcur⟩ := q.writable hfree (by omega)
  have hlen := q.length cur
  generalize hd : (s.node cur).status.dateSize = d at *
  have hheld : held (s.node cur) = d := by simp [held, hfree, hd]
  generalize hn' : ({ s.node cur with status := ⟨false, d + bytes.length⟩ } : Node) = n'
  have hset : setStatus s.node cur ⟨false, d + bytes.length⟩ = Function.update s.node cur n' := by
    rw [← hn']
    rfl
  have hnew : held n' = d + bytes.length := by
    rw [← hn']
    simp [held]
  have hunsent : unsent n' = unsent (s.node cur) ++ bytes := by
    rw [unsent, unsent, hnew, hheld, List.take_add]
    rw [← hn']
    dsimp only
    rw [hbuf]
  have hring : ring (Function.update s.node cur n') s.append =
      (ring s.node s.append).set (fulls size (helds s.node s.append)) n' := by
    conv_lhs => rw [hcur]
    exact ring_update hlt n'
  have hhelds : helds (Function.update s.node cur n') s.append =
      (helds s.node s.append).set (fulls size (helds s.node s.append)) (d + bytes.length) := by
    rw [helds, hring, List.map_set, hnew]
    rfl
  obtain ⟨hgrow, hfulls⟩ := q.filled.grow hpos hroom (by rw [helds_length]; exact hlt)
  rw [hset]
  constructor
  · intro i
    dsimp only
    by_cases h : i = cur
    · rw [h, Function.update_self, ← hn']
      exact hlen
    · rw [Function.update_of_ne h]
      exact q.length i
  · intro i
    dsimp only
    by_cases h : i = cur
    · rw [h, Function.update_self, ← hn']
      exact hroom
    · rw [Function.update_of_ne h]
      exact q.room i
  · rw [hhelds]
    exact hgrow
  · refine Or.inl ?_
    dsimp only
    rw [hhelds, hfulls]
    split
    · rw [place_succ, ← hcur]
    · exact hcur
  · rw [pending, hring, q.flow, pending, List.append_assoc]
    congr 1
    refine (pending_grow q.filled ?_ hunsent).symm
    rw [hcur]
    exact ring_getElem? hlt
  · intro h
    refine ⟨(q.idle h).1, fun i => ?_⟩
    dsimp only
    by_cases h' : i = cur
    · rw [h', Function.update_self, ← hn']
    · rw [Function.update_of_ne h']
      exact (q.idle h).2 i
  · intro t ht
    obtain ⟨hnext, hnode, hsend, before, hbefore⟩ := q.busy t ht
    have hne : s.r ≠ cur := by
      intro heq
      rw [← heq, (hsend s.r).mpr rfl] at hfree
      cases hfree
    refine ⟨hnext, hnode, fun i => ?_, before, ?_⟩
    · dsimp only
      by_cases h : i = cur
      · rw [h, Function.update_self, ← hn']
        simpa using hne.symm
      · rw [Function.update_of_ne h]
        exact hsend i
    · dsimp only
      rw [Function.update_of_ne hne]
      exact hbefore

end Queue

end WmIot.Uart
