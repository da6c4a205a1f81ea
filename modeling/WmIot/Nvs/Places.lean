import WmIot.Nvs.Eraser

/-!
# Where the live items lie

The items in use of the active sectors with their places and their data, in the order in which lookups meet them. On a
tidy store a lookup is a search in this list, and erasing takes one place out of it.
-/

namespace WmIot.Nvs
open NorFlash
set_option autoImplicit false

structure Place where
  sector : Nat
  index : Nat
  item : Item
  data : List Byte
deriving DecidableEq

namespace Store

def place (st : Store) (s : Nat) (x : Entry) : Place := ⟨s, x.1, x.2, entryData st.flash (st.secArr s).address x⟩

def placesOf (st : Store) (s : Nat) : List Place := ((st.items s).filter fun x => x.Live).map (st.place s)

/-- The items in use of the active sectors. -/
def places (st : Store) : List Place := st.active.flatMap st.placesOf

end Store

section Members
variable {P : Port} {st : Store} {s : Nat} {p p' : Place}

theorem mem_placesOf (h : p ∈ st.placesOf s) :
    p.sector = s ∧ (p.index, p.item) ∈ st.items s ∧ p.item.state = itemUsing := by
  obtain ⟨x, hx, rfl⟩ := List.mem_map.mp h
  obtain ⟨hx, hlive⟩ := List.mem_filter.mp hx
  exact ⟨rfl, hx, of_decide_eq_true hlive⟩

theorem mem_places (h : p ∈ st.places) :
    p.sector ∈ st.active ∧ (p.index, p.item) ∈ st.items p.sector ∧ p.item.state = itemUsing := by
  obtain ⟨s, hs, hp⟩ := List.mem_flatMap.mp h
  obtain ⟨rfl, hrest⟩ := mem_placesOf hp
  exact ⟨hs, hrest⟩

theorem mem_placesOf_of_mem (h : p ∈ st.places) : p ∈ st.placesOf p.sector := by
  obtain ⟨s, _, hp⟩ := List.mem_flatMap.mp h
  obtain ⟨rfl, _⟩ := mem_placesOf hp
  exact hp

theorem place_eq (h : p ∈ st.places) : p = st.place p.sector (p.index, p.item) := by
  obtain ⟨s, _, hp⟩ := List.mem_flatMap.mp h
  obtain ⟨x, _, rfl⟩ := List.mem_map.mp hp
  rfl

theorem Tidy.placesOf_pairwise (ht : Tidy P st) (hs : s ∈ st.active) :
    (st.placesOf s).Pairwise fun p p' => p.index + p.item.span ≤ p'.index := by
  obtain ⟨L, hL⟩ := ht.active s hs
  rw [Store.placesOf, hL.items_eq, List.pairwise_map]
  exact hL.packed.chain.pairwise.filter _

theorem Tidy.placesOf_nodup (ht : Tidy P st) (hs : s ∈ st.active) : (st.placesOf s).Nodup := by
  apply (ht.placesOf_pairwise hs).imp
  rintro p _ hle rfl
  have hspan := p.item.span_pos
  omega

theorem Tidy.places_nodup (ht : Tidy P st) : st.places.Nodup := by
  apply List.nodup_flatMap.mpr
  refine ⟨fun s hs => ht.placesOf_nodup hs, ?_⟩
  apply ht.nodup.of_append_left.imp
  intro s s' hne p hp hp'
  exact hne ((mem_placesOf hp).1.symm.trans (mem_placesOf hp').1)

/-- The places of a sector are those of the list that lie in it. -/
theorem Tidy.placesOf_eq (ht : Tidy P st) (hs : s ∈ st.active) :
    st.places.filter (fun p => p.sector = s) = st.placesOf s := by
  obtain ⟨A, B, hactive⟩ := List.append_of_mem hs
  have hnodup := ht.nodup.of_append_left
  rw [hactive] at hnodup
  have hnot : ∀ t, t ≠ s → (st.placesOf t).filter (fun p => p.sector = s) = [] := by
    intro t hne
    apply List.filter_eq_nil_iff.mpr
    intro p hp heq
    exact hne ((mem_placesOf hp).1.symm.trans (of_decide_eq_true heq))
  have hnone : ∀ L : List Nat, s ∉ L → (L.flatMap st.placesOf).filter (fun p => p.sector = s) = [] := by
    intro L hL
    rw [List.filter_flatMap]
    apply List.flatMap_eq_nil_iff.mpr
    intro t htL
    exact hnot t fun heq => hL (heq ▸ htL)
  have hself : (st.placesOf s).filter (fun p => p.sector = s) = st.placesOf s :=
    List.filter_eq_self.mpr fun p hp => decide_eq_true (mem_placesOf hp).1
  obtain ⟨_, hB, hA⟩ := List.nodup_append.mp hnodup
  have hsA : s ∉ A := fun h => hA s h s List.mem_cons_self rfl
  rw [Store.places, hactive, List.flatMap_append, List.flatMap_cons, List.filter_append, List.filter_append, hself,
    hnone A hsA, hnone B (List.nodup_cons.mp hB).1, List.nil_append, List.append_nil]

end Members

/-! ## Lookups -/

section Lookup
variable {P : Port} {st : Store} {s k : Nat} {q : Query}

theorem sees_live {x : Entry} (h : q.sees P x.2 = true) : x.Live := sees_using h

/-- A lookup in one sector. -/
theorem Tidy.sectorFind_places (ht : Tidy P st) (hs : s ∈ st.active)
    (hk : q.key ≠ none ∨ Boundary (st.items s) k) :
    sectorFindItem P st s q k =
      ((st.placesOf s).find? fun p => k ≤ p.index && q.sees P p.item).map fun p => (p.index, p.item) := by
  obtain ⟨L, hL⟩ := ht.active s hs
  rw [hL.items_eq] at hk
  rw [hL.find hk, Store.placesOf, hL.items_eq, List.find?_map, Option.map_map, List.find?_filter]
  have hsame : (L.find? fun x => k ≤ x.1 && q.sees P x.2) =
      L.find? fun x => decide (decide x.Live = true ∧
        ((fun p : Place => decide (k ≤ p.index) && q.sees P p.item) ∘ st.place s) x = true) := by
    apply find?_congr_mem
    intro x _
    rw [Bool.eq_iff_iff, Bool.and_eq_true, decide_eq_true_iff, decide_eq_true_iff]
    constructor
    · rintro ⟨hle, hsees⟩
      exact ⟨decide_eq_true (sees_live hsees), Bool.and_eq_true_iff.mpr ⟨decide_eq_true hle, hsees⟩⟩
    · rintro ⟨_, h⟩
      obtain ⟨hle, hsees⟩ := Bool.and_eq_true_iff.mp h
      exact ⟨of_decide_eq_true hle, hsees⟩
  rw [← hsame]
  cases L.find? fun x => k ≤ x.1 && q.sees P x.2 with
  | none => rfl
  | some x => rfl

/-- A lookup by key in all active sectors. -/
theorem Tidy.find_places (ht : Tidy P st) (hk : q.key ≠ none) :
    smFindItem P st q 0 =
      (st.places.find? fun p => q.sees P p.item).map fun p => (p.sector, p.index, p.item) := by
  have hfrom : ∀ L : List Nat, (∀ s ∈ L, s ∈ st.active) → smFindFrom P st q 0 L =
      ((L.flatMap st.placesOf).find? fun p => q.sees P p.item).map fun p => (p.sector, p.index, p.item) := by
    intro L
    induction L with
    | nil => exact fun _ => rfl
    | cons s L ih =>
      intro hL
      have hfind := ht.sectorFind_places (hL s List.mem_cons_self) (k := 0) (.inl hk)
      simp only [Nat.zero_le, decide_true, Bool.true_and] at hfind
      rw [smFindFrom, hfind, ih fun t ht => hL t (List.mem_cons_of_mem s ht), List.flatMap_cons, List.find?_append]
      cases hp : (st.placesOf s).find? fun p => q.sees P p.item with
      | none => rfl
      | some p =>
        obtain ⟨rfl, _⟩ := mem_placesOf (List.mem_of_find?_eq_some hp)
        rfl
  exact hfrom st.active fun _ h => h

end Lookup

/-! ## Erasing -/

section Erase
variable {P : Port} {st st' : Store} {s : Nat} {p : Place}

theorem SameAt.placesOf {L : List Entry} (h : SameAt st st' s) (hu : InUse P st s L) :
    st'.placesOf s = st.placesOf s := by
  rw [Store.placesOf, Store.placesOf, h.items hu, hu.items_eq]
  apply List.map_congr_left
  intro x hx
  rw [Store.place, Store.place, h.value hu (List.mem_of_mem_filter hx)]

/-- Erasing an item takes its place out. -/
theorem Tidy.erase_places (ht : Tidy P st) (hp : p ∈ st.places) (it : Item) :
    (sectorEraseItem st p.sector p.index it true).places = st.places.filter (· ≠ p) := by
  obtain ⟨s, hs, hp⟩ := List.mem_flatMap.mp hp
  obtain ⟨x, hx, rfl⟩ := List.mem_map.mp hp
  have hxs : x ∈ st.items s := List.mem_of_mem_filter hx
  show (sectorEraseItem st s x.1 it true).places = _
  obtain ⟨_, hl, hitems, _⟩ := ht.erase hs hxs it
  rw [Store.places, Store.places, hl.active, List.filter_flatMap]
  apply List.flatMap_congr
  intro t htActive
  obtain ⟨L, hL⟩ := ht.active t htActive
  by_cases hne : t = s
  · subst hne
    rw [hL.items_eq] at hxs
    rw [Store.placesOf, Store.placesOf, hitems, filter_live_markDroped, hL.items_eq, List.filter_map]
    have hfilter : (L.filter fun y => y.1 ≠ x.1).filter (fun y => y.Live) =
        (L.filter fun y => y.Live).filter ((fun p => decide (p ≠ st.place t x)) ∘ st.place t) := by
      rw [List.filter_filter, List.filter_filter]
      apply List.filter_congr
      intro y hy
      have hsame : y.1 = x.1 ↔ st.place t y = st.place t x := by
        constructor
        · intro hidx
          have hitem : y.2 = x.2 := by
            rw [← hL.packed.chain.mem_read hy, ← hL.packed.chain.mem_read hxs, hidx]
          rw [Prod.ext hidx hitem]
        · exact fun heq => congrArg Place.index heq
      rw [Bool.and_comm, Function.comp_apply, decide_eq_decide.mpr (not_congr hsame)]
    rw [← hfilter]
    apply List.map_congr_left
    intro y hy
    have hyL : y ∈ L := List.mem_of_mem_filter (List.mem_of_mem_filter hy)
    rw [Store.place, Store.place, sectorEraseItem_flash, sectorEraseItem_secArr,
      entryData_markState hL.packed.chain hxs hyL]
  · have hsame := ht.sameAt hl (List.mem_append_left _ hs) (List.mem_append_left _ htActive) hne
    rw [hsame.placesOf hL, List.filter_eq_self.mpr]
    intro p hp
    apply decide_eq_true
    rintro rfl
    exact hne (mem_placesOf hp).1.symm

end Erase

end WmIot.Nvs
