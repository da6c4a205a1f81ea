import WmIot.Nvs.SectorSpec
import WmIot.Nvs.SectorManager

/-!
# Lookups

`wm_nvs_sector_find_item` finds the first item, from the start index on, that is in use, fits
the query and, for a lookup by key, has the hash of the key. Without a key it walks the
sector itself; with one it goes through the hash table, which a packed sector makes the same.
-/

namespace WmIot.Nvs
open NorFlash
set_option autoImplicit false

/-- The items a lookup accepts. -/
def Query.sees (P : Port) (q : Query) (it : Item) : Bool :=
  it.state == itemUsing && q.matches it &&
    match q.key with
    | none => true
    | some key => itemCrcHash P it == itemCrcHash P (q.probe P key)

/-- The items a walk over sector `s` meets; a sector without a valid header has none. -/
def Store.items (st : Store) (s : Nat) : List Entry :=
  let sec := st.secArr s
  if sec.state = sectorCrash ∨ sec.state = sectorInvalid ∨ sec.state = sectorUninit then []
  else scan st.flash sec.address (min sec.nextFreeSlice entryCount) entryCount 0

def found : Option Nat × Item → Option Entry
  | (some i, it) => some (i, it)
  | (none, _) => none

theorem sectorFindItem_eq (P : Port) (st : Store) (s : Nat) (q : Query) (start : Nat) :
    sectorFindItem P st s q start = found (sectorFind P st s q start Item.zero) := rfl

/-- What a lookup finds does not depend on what its in-out argument held before. -/
theorem found_sectorFind (P : Port) (st : Store) (s : Nat) (q : Query) (start : Nat) (out : Item) :
    found (sectorFind P st s q start out) = sectorFindItem P st s q start := by
  rw [sectorFindItem_eq]
  unfold sectorFind
  simp only
  split
  · rfl
  · split
    · rfl
    · unfold findLoop
      cases q.key with
      | none => split <;> rfl
      | some key => split <;> rfl

theorem sees_using {P : Port} {q : Query} {it : Item} (h : q.sees P it = true) : it.state = itemUsing := by
  simp only [Query.sees, Bool.and_eq_true, beq_iff_eq] at h
  exact h.1.1

theorem sees_matches {P : Port} {q : Query} {it : Item} (h : q.sees P it = true) : q.matches it = true := by
  simp only [Query.sees, Bool.and_eq_true] at h
  exact h.1.2

theorem find?_congr_mem {α : Type*} {p r : α → Bool} {L : List α} (h : ∀ x ∈ L, p x = r x) :
    L.find? p = L.find? r := by
  induction L with
  | nil => rfl
  | cons x L ih =>
    have hx := h x List.mem_cons_self
    have hL := ih fun y hy => h y (List.mem_cons_of_mem x hy)
    simp only [List.find?_cons, hx, hL]

/-! ## The walk without a key -/

section Keyless
variable {P : Port} {f : Flash} {sec : Sector} {q : Query} {end_ : Nat}

theorem findLoop_walk (hq : q.key = none) (n start : Nat) (out : Item) :
    found (findLoop P f sec q end_ n start out) =
      (scan f sec.address end_ n start).find? fun x => q.sees P x.2 := by
  induction n generalizing start out with
  | zero => rfl
  | succ n ih =>
    unfold findLoop scan
    split
    · simp only [hq]
      generalize readItem f (sliceAddr sec.address start) = it
      by_cases hd : it.state = itemDroped
      · have hno : q.sees P it = false := by
          rw [Query.sees, hd]
          rfl
        simp only [hd, if_true, or_true, List.find?_cons, hno]
        exact ih _ _
      · by_cases hu : it.state = itemUsing
        · have hsees : q.sees P it = q.matches it := by simp [Query.sees, hu, hq]
          rw [if_neg hd, if_pos hu, if_pos (Or.inl hu), List.find?_cons, hsees]
          cases q.matches it with
          | true => rfl
          | false =>
            rw [if_neg (by decide)]
            exact ih _ _
        · simp only [hd, hu, or_self, if_false]
          rfl
    · rfl

/-- The walk from a slice where an item of the chain starts yields the rest of the chain. -/
theorem scan_from {addr i : Nat} {A B : List Entry} (hA : Chain f addr 0 A i) (hB : Chain f addr i B end_)
    (hk : ∀ x ∈ B, x.Known) (hend : end_ ≤ 127) :
    scan f addr end_ entryCount i = (A ++ B).filter fun x => i ≤ x.1 := by
  have hscan : scan f addr end_ entryCount i = B :=
    hB.scan_eq hk (by simp only [entryCount]; omega)
  have hnone : A.filter (fun x => i ≤ x.1) = [] := by
    apply List.filter_eq_nil_iff.mpr
    intro x hx
    have hb := hA.mem_bounds hx
    have hs := x.2.span_pos
    simp only [decide_eq_true_eq]
    omega
  have hall : B.filter (fun x => i ≤ x.1) = B := by
    apply List.filter_eq_self.mpr
    intro x hx
    have hb := hB.mem_bounds hx
    simpa using hb.1
  rw [hscan, List.filter_append, hnone, hall, List.nil_append]

end Keyless

/-! ## The lookup by key -/

section Keyed
variable {P : Port} {f : Flash} {sec : Sector} {L : List Entry} {q : Query} {key : List Byte}

theorem hashFind_hashNodes (L : List Entry) (start : Nat) (it : Item) :
    hashFind P (hashNodes P L) start it =
      (L.find? fun x => x.Live && (start ≤ x.1 && itemCrcHash P x.2 == itemCrcHash P it)).map Prod.fst := by
  induction L with
  | nil => rfl
  | cons x L ih =>
    by_cases hl : x.Live
    · rw [hashNodes_cons_live P hl]
      simp only [hashFind, List.find?_cons, hl, decide_true, Bool.true_and] at ih ⊢
      by_cases hp : start ≤ x.1 ∧ itemCrcHash P x.2 = itemCrcHash P it
      · simp [hp]
      · have hb : (decide (start ≤ x.1) && itemCrcHash P x.2 == itemCrcHash P it) = false := by
          simpa using hp
        simp only [hp, decide_false, hb]
        exact ih
    · rw [hashNodes_cons_dead P hl]
      simp only [List.find?_cons, hl, decide_false, Bool.false_and]
      exact ih

/-- Moving the start past an entry leaves fewer entries to search. -/
theorem filter_length_lt {x : Entry} (hx : x ∈ L) {i j : Nat} (hi : i ≤ x.1) (hj : x.1 < j) :
    (L.filter fun y => j ≤ y.1).length < (L.filter fun y => i ≤ y.1).length := by
  have hsub : (L.filter fun y => i ≤ y.1).filter (fun y => j ≤ y.1) = L.filter fun y => j ≤ y.1 := by
    rw [List.filter_filter]
    apply List.filter_congr
    intro y _
    by_cases hy : j ≤ y.1
    · simp [hy, show i ≤ y.1 by omega]
    · simp [hy]
  rw [← hsub]
  apply List.length_filter_lt_length_iff_exists.mpr
  exact ⟨x, List.mem_filter.mpr ⟨hx, by simpa using hi⟩, by simpa using hj⟩

/-- The search for items that lie one behind the other and are the ones of the hash table. -/
theorem findLoop_hashed {end_ : Nat} (hhash : sec.hash = hashNodes P L)
    (hread : ∀ x ∈ L, readItem f (sliceAddr sec.address x.1) = x.2)
    (hpair : L.Pairwise fun x y => x.1 + x.2.span ≤ y.1) (hend : ∀ x ∈ L, x.1 < end_)
    (hq : q.key = some key) (n start : Nat) (out : Item)
    (hn : (L.filter fun x => start ≤ x.1).length ≤ n) :
    found (findLoop P f sec q end_ n start out) = L.find? fun x => start ≤ x.1 && q.sees P x.2 := by
  induction n generalizing start out with
  | zero =>
    have hnil := List.length_eq_zero_iff.mp (Nat.le_zero.mp hn)
    rw [List.find?_eq_none.mpr]
    · rfl
    · intro x hx hp
      have hno := List.filter_eq_nil_iff.mp hnil x hx
      simp only [Bool.and_eq_true] at hp
      exact hno hp.1
  | succ n ih =>
    unfold findLoop
    split
    · simp only [hq, hhash, hashFind_hashNodes]
      cases hfind : L.find? fun x => x.Live &&
          (start ≤ x.1 && itemCrcHash P x.2 == itemCrcHash P (q.probe P key)) with
      | none =>
        simp only [Option.map_none]
        rw [List.find?_eq_none.mpr]
        · rfl
        · intro x hx hp
          have hno := List.find?_eq_none.mp hfind x hx
          simp only [Query.sees, hq, Bool.and_eq_true, beq_iff_eq, decide_eq_true_eq] at hp hno
          exact hno ⟨hp.2.1.1, hp.1, hp.2.2⟩
      | some x =>
        obtain ⟨hx, A, B, hL, hbefore⟩ := List.find?_eq_some_iff_append.mp hfind
        have hmem : x ∈ L := List.mem_of_find?_eq_some hfind
        simp only [Bool.and_eq_true, beq_iff_eq, decide_eq_true_eq] at hx
        obtain ⟨hlive, hstart, hhash⟩ := hx
        have hread' := hread x hmem
        have hstate : x.2.state = itemUsing := hlive
        have hspan := x.2.span_pos
        have hnd : ¬ itemUsing = itemDroped := using_ne_droped
        simp only [Option.map_some, hread', hstate, if_neg hnd, if_true]
        have hpairL := hpair
        rw [hL] at hpairL
        -- what comes before `x` is not seen, so the search may go on behind it
        have hsees : ∀ y ∈ A, (start ≤ y.1 && q.sees P y.2) = false := by
          intro y hy
          have hno := hbefore y hy
          by_contra hp
          simp only [Query.sees, hq, Bool.not_eq_false, Bool.and_eq_true, beq_iff_eq,
            decide_eq_true_eq] at hp
          have hyl : y.Live := hp.2.1.1
          simp [hyl, hp.1, hp.2.2] at hno
        cases hm : q.matches x.2 with
        | true =>
          rw [if_pos rfl]
          apply Eq.symm
          apply List.find?_eq_some_iff_append.mpr
          refine ⟨?_, A, B, hL, ?_⟩
          · simp [Query.sees, hq, hstate, hm, hhash, hstart]
          · intro y hy
            simp [hsees y hy]
        | false =>
          rw [if_neg (by decide)]
          have hlt := filter_length_lt hmem hstart (show x.1 < x.1 + x.2.span by omega)
          have hlen : (L.filter fun y => x.1 + x.2.span ≤ y.1).length ≤ n := by omega
          rw [ih _ _ hlen]
          apply find?_congr_mem
          intro y hy
          rw [hL] at hy
          rcases List.mem_append.mp hy with hyA | hyB
          · have hle := (List.pairwise_append.mp hpairL).2.2 y hyA x List.mem_cons_self
            have hys := y.2.span_pos
            rw [hsees y hyA]
            simp only [Bool.and_eq_false_iff, decide_eq_false_iff_not]
            left
            omega
          · rcases List.mem_cons.mp hyB with rfl | hyB
            · have hno : q.sees P y.2 = false := by simp [Query.sees, hm]
              rw [hno, Bool.and_false, Bool.and_false]
            · have hle := (List.pairwise_cons.mp (List.pairwise_append.mp hpairL).2.1).1 y hyB
              rw [decide_eq_true hle, decide_eq_true (show start ≤ y.1 by omega)]
    · rename_i hstop
      rw [List.find?_eq_none.mpr]
      · rfl
      · intro x hx hp
        have hlt := hend x hx
        simp only [Bool.and_eq_true, decide_eq_true_eq] at hp
        omega

theorem findLoop_keyed (h : Packed P f sec L) (hq : q.key = some key) (n start : Nat) (out : Item)
    (hn : (L.filter fun x => start ≤ x.1).length ≤ n) :
    found (findLoop P f sec q sec.nextFreeSlice n start out) =
      L.find? fun x => start ≤ x.1 && q.sees P x.2 := by
  refine findLoop_hashed h.hash (fun x hx => h.chain.mem_read hx) h.chain.pairwise (fun x hx => ?_) hq n start out hn
  have hb := h.chain.mem_bounds hx
  have hs := x.2.span_pos
  omega

end Keyed

end WmIot.Nvs
