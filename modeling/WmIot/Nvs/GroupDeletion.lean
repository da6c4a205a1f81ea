import WmIot.Lib.Picking
import WmIot.Nvs.Places
import WmIot.Nvs.Runs

/-!
# Deleting a group

`wm_nvs_storage_del_group` scans the sectors for the items of the group other than segments. A segment goes with the
blob whose lookups find it; one that no blob of the group leads to stays.
-/

namespace WmIot.Nvs
open NorFlash Picking
set_option autoImplicit false

/-- The query of the scan. -/
def groupQuery (g : Byte) : Query := ⟨g, NvsType.anyWithoutSeg.code, none, segIdAny, segStartAny⟩

/-- The scan deletes the item. -/
def Place.owned (P : Port) (g : Byte) (p : Place) : Bool := (groupQuery g).sees P p.item

/-- The lookup of the `k`-th segment of a blob sees the item. -/
def Place.leadsTo (P : Port) (d : Place) (k : Nat) (p : Place) : Bool := (segQuery d.item k).sees P p.item

/-- How many segments are looked up for an item. -/
def Place.count (d : Place) : Nat := if d.item.type = NvsType.blob.code then d.item.segCount else 0

/-- Exactly the live items of the group are gone. -/
def DeletesExactly (P : Port) (st : Store) (g : Byte) : Prop :=
  (storageDelGroup P st g).2.places = st.places.filter fun p => p.item.groupId.setWidth 8 ≠ g

/-- A lookup for a blob of the group finds the segment, and the lookups of the numbers below find something. -/
def Claimed (P : Port) (st : Store) (g : Byte) (x : Place) : Prop :=
  ∃ d ∈ st.places, d.item.type = NvsType.blob.code ∧ d.item.groupId.setWidth 8 = g ∧ ∃ k < d.item.segCount,
    smFindItem P st (segQuery d.item k) 0 = some (x.sector, x.index, x.item) ∧
      ∀ j < k, (smFindItem P st (segQuery d.item j) 0).isSome

/-- No item is seen by the lookups for two blobs of the group, or of two numbers for one. -/
def Apart (P : Port) (st : Store) (g : Byte) : Prop :=
  ∀ x ∈ st.places, ∀ d ∈ st.places, ∀ d' ∈ st.places, d.owned P g = true → d'.owned P g = true →
    ∀ k < d.count, ∀ k' < d'.count, d.leadsTo P k x = true → d'.leadsTo P k' x = true → d = d' ∧ k = k'

/-! ## What the lookups see -/

section Sees
variable {P : Port} {g : Byte} {it seg : Item} {k : Nat} {d p : Place}

theorem segQuery_sees (h : (segQuery it k).sees P seg = true) :
    seg.type = NvsType.blobSeg.code ∧
      ((it.groupId.setWidth 8 : Byte) = groupIdAny ∨ it.groupId = seg.groupId) := by
  have hm := sees_matches h
  simp only [Query.matches, segQuery, Bool.and_eq_true, Bool.or_eq_true, beq_iff_eq] at hm
  obtain ⟨⟨⟨⟨hgroup, htype⟩, _⟩, _⟩, _⟩ := hm
  constructor
  · rcases htype with (h | h) | ⟨h, _⟩
    · exact absurd h (by decide)
    · exact h.symm
    · exact absurd h (by decide)
  · refine hgroup.imp_right fun h => ?_
    have hlow := congrArg (BitVec.setWidth 6) h
    rwa [BitVec.setWidth_setWidth_of_le _ (by decide), BitVec.setWidth_setWidth_of_le _ (by decide),
      BitVec.setWidth_eq, BitVec.setWidth_eq] at hlow

theorem groupQuery_sees (hg : g ≠ groupIdAny) : (groupQuery g).sees P it = true ↔
    it.state = itemUsing ∧ (it.groupId.setWidth 8 : Byte) = g ∧ it.type ≠ NvsType.blobSeg.code := by
  have hany : ¬ NvsType.anyWithoutSeg.code = NvsType.any.code := by decide
  simp only [Query.sees, Query.matches, groupQuery, Bool.and_eq_true, Bool.or_eq_true, beq_iff_eq, bne_iff_ne, hg, hany,
    false_or, true_or, and_true, true_and]
  constructor
  · rintro ⟨hstate, hgroup, htype⟩
    refine ⟨hstate, hgroup.symm, ?_⟩
    rcases htype with h | h
    · rw [← h]
      decide
    · exact h
  · rintro ⟨hstate, hgroup, htype⟩
    exact ⟨hstate, hgroup.symm, .inr htype⟩

theorem owned_not_seg (h : p.owned P g = true) : p.item.type ≠ NvsType.blobSeg.code := by
  have hm := sees_matches h
  simp only [Query.matches, groupQuery, Bool.and_eq_true, Bool.or_eq_true, beq_iff_eq, bne_iff_ne] at hm
  obtain ⟨⟨⟨⟨_, htype⟩, _⟩, _⟩, _⟩ := hm
  rcases htype with (h | h) | ⟨_, h⟩
  · exact absurd h (by decide)
  · rw [← h]
    decide
  · exact h

/-- The lookups for a blob of the group see segments of the group. -/
theorem leadsTo_group (hg : g ≠ groupIdAny) (hd : d.owned P g = true) (h : d.leadsTo P k p = true) :
    (p.item.groupId.setWidth 8 : Byte) = g := by
  obtain ⟨_, hgroup, _⟩ := (groupQuery_sees hg).mp hd
  rcases (segQuery_sees h).2 with hany | hsame
  · exact absurd (hgroup.symm.trans hany) hg
  · rw [← hsame]
    exact hgroup

/-- The lookups of segments do not see what the scan deletes. -/
theorem owned_not_seen (h : p.owned P g = true) (d : Place) (k : Nat) : d.leadsTo P k p = false := by
  apply Bool.eq_false_of_not_eq_true
  intro hsees
  exact owned_not_seg h (segQuery_sees hsees).1

end Sees

/-! ## The deletion as a sweep -/

section Sweep
variable {P : Port} {st : Store} {g : Byte} {s n start : Nat} {p : Place}

theorem Tidy.eraseSegs_places (it : Item) : ∀ {n i : Nat} {err : Err} {st : Store}, Tidy P st →
    (eraseSegsLoop P it n i err st).2.places =
      takeOut n (fun k p => (segQuery it (i + k)).sees P p.item) st.places := by
  intro n
  induction n with
  | zero => exact fun _ => rfl
  | succ n ih =>
    intro i err st ht
    have hkey : (segQuery it i).key ≠ none := nofun
    rw [eraseSegsLoop, takeOut, ht.find_places hkey, Nat.add_zero]
    cases hfind : st.places.find? fun p => (segQuery it i).sees P p.item with
    | none => rfl
    | some p =>
      have hp := List.mem_of_find?_eq_some hfind
      obtain ⟨hs, hx, _⟩ := mem_places hp
      have hshift : (fun k (p : Place) => (segQuery it (i + (k + 1))).sees P p.item) =
          fun k p => (segQuery it (i + 1 + k)).sees P p.item := by
        funext k p
        rw [Nat.add_right_comm, Nat.add_assoc]
      dsimp only [Option.map_some]
      rw [ih (ht.erase_thins hs hx p.item).tidy, ht.erase_places hp, hshift]

theorem Tidy.eraseFound_places (ht : Tidy P st) (hp : p ∈ st.places) :
    (Nvs.eraseFound P st p.sector p.index p.item).2.places =
      takeOut p.count (p.leadsTo P) (st.places.filter (· ≠ p)) := by
  obtain ⟨hs, hx, _⟩ := mem_places hp
  unfold Nvs.eraseFound Place.count
  split
  · rw [storageEraseBlob, Tidy.eraseSegs_places _ (ht.erase_thins hs hx p.item).tidy, ht.erase_places hp]
    congr 1
    funext k x
    rw [Nat.zero_add]
    rfl
  · exact ht.erase_places hp p.item

/-- What the scan of a sector deletes from an index on. -/
def ownedFrom (P : Port) (g : Byte) (s start : Nat) (l : List Place) : List Place :=
  l.filter fun p => p.sector = s ∧ start ≤ p.index ∧ p.owned P g

theorem ownedFrom_takeOut (l : List Place) (d : Place) (n : Nat) :
    ownedFrom P g s start (takeOut n (d.leadsTo P) l) = ownedFrom P g s start l := by
  apply filter_takeOut
  intro k _ x _ hx
  exact owned_not_seen (of_decide_eq_true hx).2.2 d k

theorem Tidy.ownedFrom_eq (ht : Tidy P st) (hs : s ∈ st.active) :
    ownedFrom P g s start st.places = (st.placesOf s).filter fun p => start ≤ p.index ∧ p.owned P g := by
  rw [← ht.placesOf_eq hs, List.filter_filter, ownedFrom]
  apply List.filter_congr
  intro p _
  rw [← Bool.decide_and, decide_eq_decide]
  tauto

theorem Tidy.ownedFrom_length (ht : Tidy P st) (hs : s ∈ st.active) :
    (ownedFrom P g s start st.places).length ≤ entryCount + 1 := by
  obtain ⟨L, hL⟩ := ht.active s hs
  have hlen := hL.packed.chain.length_le
  have hfits := hL.packed.fits
  have hplaces : (st.placesOf s).length ≤ L.length := by
    rw [Store.placesOf, hL.items_eq, List.length_map]
    exact List.length_filter_le _ _
  rw [ht.ownedFrom_eq hs]
  refine Nat.le_trans (List.length_filter_le _ _) (Nat.le_trans hplaces ?_)
  simp only [entryCount] at hfits ⊢
  omega

/-- The scan goes on behind the first item that it deletes. -/
theorem Tidy.ownedFrom_cons (ht : Tidy P st) (hs : s ∈ st.active)
    (hfind : ((st.placesOf s).find? fun p => start ≤ p.index && (groupQuery g).sees P p.item) = some p) :
    ownedFrom P g s start st.places =
      p :: ownedFrom P g s (p.index + p.item.span) (st.places.filter (· ≠ p)) := by
  obtain ⟨hp, A, B, hplaces, hbefore⟩ := List.find?_eq_some_iff_append.mp hfind
  obtain ⟨hstart, howned⟩ := Bool.and_eq_true_iff.mp hp
  have hstart : start ≤ p.index := of_decide_eq_true hstart
  have hspan := p.item.span_pos
  have hpair := ht.placesOf_pairwise hs
  rw [hplaces] at hpair
  obtain ⟨_, hpB, hA⟩ := List.pairwise_append.mp hpair
  have hB := (List.pairwise_cons.mp hpB).1
  have hnoneA : A.filter (fun p => start ≤ p.index ∧ p.owned P g) = [] := by
    apply List.filter_eq_nil_iff.mpr
    intro y hy hyp
    obtain ⟨hle, hy'⟩ := of_decide_eq_true hyp
    have hno := hbefore y hy
    have hle' : decide (start ≤ y.index) = true := decide_eq_true hle
    rw [hle', Bool.true_and] at hno
    change (!(y.owned P g)) = true at hno
    rw [hy'] at hno
    cases hno
  have hrest : ownedFrom P g s (p.index + p.item.span) (st.places.filter (· ≠ p)) =
      B.filter fun p => start ≤ p.index ∧ p.owned P g := by
    have hsame : ownedFrom P g s (p.index + p.item.span) (st.places.filter (· ≠ p)) =
        (st.placesOf s).filter fun y => y ≠ p ∧ p.index + p.item.span ≤ y.index ∧ y.owned P g := by
      rw [← ht.placesOf_eq hs, List.filter_filter, ownedFrom, List.filter_filter]
      apply List.filter_congr
      intro y _
      rw [← Bool.decide_and, ← Bool.decide_and, decide_eq_decide]
      tauto
    have hnoA : A.filter (fun y => y ≠ p ∧ p.index + p.item.span ≤ y.index ∧ y.owned P g) = [] := by
      apply List.filter_eq_nil_iff.mpr
      intro y hy hyp
      have hle := (of_decide_eq_true hyp).2.1
      have hlt := hA y hy p List.mem_cons_self
      have hspany := y.item.span_pos
      omega
    rw [hsame, hplaces, List.filter_append, hnoA, List.nil_append,
      List.filter_cons_of_neg fun h => (of_decide_eq_true h).1 rfl]
    apply List.filter_congr
    intro y hy
    have hle := hB y hy
    rw [decide_eq_decide]
    constructor
    · exact fun h => ⟨by omega, h.2.2⟩
    · refine fun h => ⟨?_, hle, h.2⟩
      rintro rfl
      omega
  rw [hrest, ht.ownedFrom_eq hs, hplaces, List.filter_append, hnoneA, List.nil_append,
    List.filter_cons, if_pos (decide_eq_true ⟨hstart, howned⟩)]

theorem Tidy.delGroupLoop_places : ∀ {n start : Nat} {st : Store}, Tidy P st → s ∈ st.active →
    Boundary (st.items s) start → (ownedFrom P g s start st.places).length ≤ n →
      (Nvs.delGroupLoop P g s n start st).places =
        sweep (Place.leadsTo P) Place.count (ownedFrom P g s start st.places) st.places := by
  intro n
  induction n with
  | zero =>
    intro start st _ _ _ hlen
    rw [List.length_eq_zero_iff.mp (Nat.le_zero.mp hlen)]
    rfl
  | succ n ih =>
    intro start st ht hs hstart hlen
    have hfind := ht.sectorFind_places (q := groupQuery g) hs (.inr hstart)
    rw [Nvs.delGroupLoop, show (⟨g, NvsType.anyWithoutSeg.code, none, segIdAny, segStartAny⟩ : Query) = groupQuery g
      from rfl, hfind]
    cases hp : (st.placesOf s).find? fun p => start ≤ p.index && (groupQuery g).sees P p.item with
    | none =>
      have hnil : ownedFrom P g s start st.places = [] := by
        rw [ht.ownedFrom_eq hs]
        apply List.filter_eq_nil_iff.mpr
        intro y hy hyp
        obtain ⟨hle, howned⟩ := of_decide_eq_true hyp
        apply List.find?_eq_none.mp hp y hy
        exact Bool.and_eq_true_iff.mpr ⟨decide_eq_true hle, howned⟩
      rw [hnil]
      rfl
    | some p =>
      obtain ⟨hsector, hx, _⟩ := mem_placesOf (List.mem_of_find?_eq_some hp)
      have hmem : p ∈ st.places := List.mem_flatMap.mpr ⟨s, hs, List.mem_of_find?_eq_some hp⟩
      have hthin := ht.eraseFound hs hx
      have hplaces := ht.eraseFound_places hmem
      rw [hsector] at hplaces
      have hcons := ht.ownedFrom_cons hs hp
      rw [hcons, List.length_cons] at hlen
      dsimp only [Option.map_some]
      rw [ih hthin.tidy (by rwa [hthin.active]) (hthin.boundary s hs _ (.inr ⟨_, hx, rfl⟩)), hplaces,
        ownedFrom_takeOut, hcons, sweep]
      rw [hplaces, ownedFrom_takeOut]
      exact Nat.le_of_succ_le_succ hlen

/-- The deletion of a group is a sweep by the items of the group other than segments. -/
theorem Tidy.delGroup_places (ht : Tidy P st) (g : Byte) :
    (storageDelGroup P st g).2.places =
      sweep (Place.leadsTo P) Place.count (st.places.filter fun p => p.owned P g) st.places := by
  have hfold : ∀ (L : List Nat) (st : Store), Tidy P st → L.Nodup → (∀ s ∈ L, s ∈ st.active) →
      (L.foldl (fun st s => Nvs.delGroupLoop P g s (entryCount + 1) 0 st) st).places =
        sweep (Place.leadsTo P) Place.count (L.flatMap fun s => ownedFrom P g s 0 st.places) st.places := by
    intro L
    induction L with
    | nil => exact fun _ _ _ _ => rfl
    | cons s L ih =>
      intro st ht hnodup hL
      obtain ⟨hsL, hnodup⟩ := List.nodup_cons.mp hnodup
      have hs := hL s List.mem_cons_self
      have hthin := ht.delGroupLoop g hs (entryCount + 1) 0 (.inl rfl)
      have hloop := ht.delGroupLoop_places (g := g) hs (.inl rfl) (ht.ownedFrom_length hs)
      -- the sectors that follow are left alone
      have hothers : ∀ t ∈ L, ownedFrom P g t 0 (sweep (Place.leadsTo P) Place.count
          (ownedFrom P g s 0 st.places) st.places) = ownedFrom P g t 0 st.places := by
        intro t ht
        apply filter_sweep
        intro x _ hx
        obtain ⟨hsector, _, howned⟩ := of_decide_eq_true hx
        refine ⟨fun hxs => ?_, fun d _ k _ => owned_not_seen howned d k⟩
        have hsector' := (of_decide_eq_true (List.mem_filter.mp hxs).2).1
        exact hsL (hsector' ▸ hsector ▸ ht)
      rw [List.foldl_cons, ih _ hthin.tidy hnodup fun t ht => hthin.active ▸ hL t (List.mem_cons_of_mem s ht), hloop,
        List.flatMap_congr hothers, List.flatMap_cons, sweep_append]
  rw [storageDelGroup, hfold st.active st ht ht.nodup.of_append_left fun _ h => h]
  congr 1
  rw [Store.places, List.filter_flatMap]
  apply List.flatMap_congr
  intro s hs
  rw [← Store.places, ht.ownedFrom_eq hs]
  apply List.filter_congr
  intro p _
  simp

end Sweep

/-! ## What is left -/

section Left
variable {P : Port} {st : Store} {g : Byte} {x : Place}

/-- Items of other groups stay as they are, and of the group only segments stay. -/
theorem Tidy.delGroup_frame (ht : Tidy P st) (hg : g ≠ groupIdAny) :
    ((storageDelGroup P st g).2.places.filter fun p => p.item.groupId.setWidth 8 ≠ g) =
        st.places.filter (fun p => p.item.groupId.setWidth 8 ≠ g) ∧
      ∀ p ∈ (storageDelGroup P st g).2.places, (p.item.groupId.setWidth 8 : Byte) = g →
        p.item.type = NvsType.blobSeg.code := by
  rw [ht.delGroup_places g]
  constructor
  · apply filter_sweep
    intro x _ hx
    have hother : (x.item.groupId.setWidth 8 : Byte) ≠ g := of_decide_eq_true hx
    constructor
    · intro hmem
      exact hother ((groupQuery_sees hg).mp (List.mem_filter.mp hmem).2).2.1
    · intro d hd k _
      exact Bool.eq_false_of_not_eq_true fun hsees => hother (leadsTo_group hg (List.mem_filter.mp hd).2 hsees)
  · intro p hp hgroup
    obtain ⟨hmem, hnot⟩ := mem_sweep hp
    by_contra hseg
    apply hnot
    exact List.mem_filter.mpr ⟨hmem, (groupQuery_sees hg).mpr ⟨(mem_places hmem).2.2, hgroup, hseg⟩⟩

theorem Tidy.smFind_iff (ht : Tidy P st) {q : Query} (hk : q.key ≠ none) (hx : x ∈ st.places) :
    smFindItem P st q 0 = some (x.sector, x.index, x.item) ↔
      (st.places.find? fun p => q.sees P p.item) = some x := by
  rw [ht.find_places hk]
  constructor
  · intro h
    obtain ⟨p, hp, hsame⟩ := Option.map_eq_some_iff.mp h
    rw [hp, place_eq (List.mem_of_find?_eq_some hp), place_eq hx]
    obtain ⟨hsector, hrest⟩ := Prod.mk.inj hsame
    obtain ⟨hindex, hitem⟩ := Prod.mk.inj hrest
    rw [hsector, hindex, hitem]
  · intro h
    rw [h]
    rfl

theorem Tidy.claimed_iff (ht : Tidy P st) (hg : g ≠ groupIdAny) (hx : x ∈ st.places) :
    (∃ d ∈ st.places.filter fun p => p.owned P g, Taken (d.leadsTo P) d.count st.places x) ↔ Claimed P st g x := by
  have hkey : ∀ it k, (segQuery it k).key ≠ none := fun _ _ => nofun
  constructor
  · rintro ⟨d, hd, k, hk, hfound, hbefore⟩
    obtain ⟨hd, howned⟩ := List.mem_filter.mp hd
    obtain ⟨_, hgroup, _⟩ := (groupQuery_sees hg).mp howned
    unfold Place.count at hk
    split at hk
    next hblob =>
      refine ⟨d, hd, hblob, hgroup, k, hk, (ht.smFind_iff (hkey _ _) hx).mpr hfound, fun j hj => ?_⟩
      rw [ht.find_places (hkey _ _), Option.isSome_map]
      exact hbefore j hj
    next => exact absurd hk (Nat.not_lt_zero k)
  · rintro ⟨d, hd, hblob, hgroup, k, hk, hfound, hbefore⟩
    have hseg : d.item.type ≠ NvsType.blobSeg.code := by
      rw [hblob]
      decide
    have howned : d.owned P g = true := (groupQuery_sees hg).mpr ⟨(mem_places hd).2.2, hgroup, hseg⟩
    refine ⟨d, List.mem_filter.mpr ⟨hd, howned⟩, k, ?_, (ht.smFind_iff (hkey _ _) hx).mp hfound, fun j hj => ?_⟩
    · rwa [Place.count, if_pos hblob]
    · have hsome := hbefore j hj
      rwa [ht.find_places (hkey _ _), Option.isSome_map] at hsome

/-- Where the lookups stay apart, the deletion is exact if and only if every segment of the group is claimed. -/
theorem Tidy.delGroup_exact (ht : Tidy P st) (hg : g ≠ groupIdAny) (hapart : Apart P st g) :
    DeletesExactly P st g ↔ ∀ x ∈ st.places, x.item.type = NvsType.blobSeg.code →
      (x.item.groupId.setWidth 8 : Byte) = g → Claimed P st g x := by
  have howned : ∀ d, d ∈ (st.places.filter fun p => p.owned P g) ↔ d ∈ st.places ∧ d.owned P g = true :=
    fun d => List.mem_filter
  have hplaces := ht.delGroup_places g
  rw [sweep_eq (ht.places_nodup.filter _) (fun d _ k _ d' hd' => owned_not_seen ((howned d').mp hd').2 d k)
    (fun x hx d hd d' hd' k hk k' hk' => hapart x hx d ((howned d).mp hd).1 d' ((howned d').mp hd').1
      ((howned d).mp hd).2 ((howned d').mp hd').2 k hk k' hk')] at hplaces
  rw [DeletesExactly, hplaces]
  constructor
  · intro hexact x hx hseg hgroup
    apply (ht.claimed_iff hg hx).mp
    by_contra hnone
    have hleft : x ∈ st.places.filter fun p => (p.item.groupId.setWidth 8 : Byte) ≠ g := by
      rw [← hexact]
      exact List.mem_filter.mpr ⟨hx, decide_eq_true ⟨fun h => owned_not_seg ((howned x).mp h).2 hseg, hnone⟩⟩
    exact of_decide_eq_true (List.mem_filter.mp hleft).2 hgroup
  · intro hclaimed
    apply List.filter_congr
    intro x hx
    rw [decide_eq_decide]
    constructor
    · rintro ⟨hnot, hnone⟩ hgroup
      by_cases hseg : x.item.type = NvsType.blobSeg.code
      · exact hnone ((ht.claimed_iff hg hx).mpr (hclaimed x hx hseg hgroup))
      · exact hnot ((howned x).mpr ⟨hx, (groupQuery_sees hg).mpr ⟨(mem_places hx).2.2, hgroup, hseg⟩⟩)
    · intro hother
      refine ⟨fun h => hother ((groupQuery_sees hg).mp ((howned x).mp h).2).2.1, ?_⟩
      rintro ⟨d, hd, htaken⟩
      obtain ⟨_, k, _, hsees⟩ := htaken.seen
      exact hother (leadsTo_group hg ((howned d).mp hd).2 hsees)

end Left

/-- In a state that operations reach from a mounted image, none of them stale, and where the lookups stay apart, the
deletion of a group is exact if and only if every segment of the group is claimed. -/
theorem delGroup_exact_iff (P : Port) {flash : Flash} {n : Nat} {mem : List Bool} {st st' : Store} {g : Byte}
    (hn : 2 ≤ n) (hi : ImageTidy P flash n)
    (hroom : ∀ st, smLoadSectors P (Store.unmounted flash n) = (.ok, st) → CanMount st)
    (hinit : storageInit P flash n mem = (.ok, st)) (hrun : StorageRun P st st') (hg : g ≠ groupIdAny)
    (hapart : Apart P st' g) :
    DeletesExactly P st' g ↔ ∀ x ∈ st'.places, x.item.type = NvsType.blobSeg.code →
      (x.item.groupId.setWidth 8 : Byte) = g → Claimed P st' g x :=
  ((storageInit_tidy hn hi hroom hinit).run hrun).tidy.delGroup_exact hg hapart

/-- One blob of three bytes. -/
def smallBlob : Store := (StorageOp.write 1 .blob [0x62] [1, 2, 3]).run testPort 3 testStore

theorem smallBlob_apart : Apart testPort smallBlob 1 := by
  unfold Apart
  decide +kernel

theorem delGroup_exact_iff_smallBlob :
    DeletesExactly testPort smallBlob 1 ↔ ∀ x ∈ smallBlob.places, x.item.type = NvsType.blobSeg.code →
      (x.item.groupId.setWidth 8 : Byte) = 1 → Claimed testPort smallBlob 1 x :=
  delGroup_exact_iff testPort (Nat.le_refl 2) blankImage_tidy blankImage_canMount testStore_mounted
    (.step .refl (.write 1 .blob [0x62] [1, 2, 3]) 3 (by decide +kernel)) (by decide) smallBlob_apart

/-- A blob for which there is space but for its descriptor. -/
def failedBlob : Store := (StorageOp.write 1 .blob [0x62] (List.replicate 4032 0x55)).run testPort 3 testStore

/-- The segment of the failed write outlives the deletion of its group. -/
theorem delGroup_failedBlob : StorageRun testPort testStore failedBlob ∧ ¬ DeletesExactly testPort failedBlob 1 := by
  refine ⟨.step .refl _ 3 (by decide +kernel), fun hexact => ?_⟩
  have hleft : ((storageDelGroup testPort failedBlob 1).2.places.any fun p =>
      decide ((p.item.groupId.setWidth 8 : Byte) = 1)) = true := by decide +kernel
  obtain ⟨p, hp, hgroup⟩ := List.any_eq_true.mp hleft
  rw [hexact] at hp
  exact of_decide_eq_true (List.mem_filter.mp hp).2 (of_decide_eq_true hgroup)

end WmIot.Nvs
