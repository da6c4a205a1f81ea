import WmIot.Nvs.Balance

/-!
# Space for a blob

`gains` is what collecting each active sector would gain. The size check accepts a size only if
full segments in the idle sectors but one and in the sectors with a large gain take it, up to
one sector with a small gain (`Enough`). A collection keeps the gains up to their order.
-/

namespace WmIot.Nvs
open NorFlash
set_option autoImplicit false

/-! ## Room -/

/-- The bytes that a sector with `gain` bytes to gain takes as one full segment. -/
def segRoom (gain : Int) : Int := if 544 ≤ gain then gain - 32 else 0

def segRooms (G : List Int) : Int := (G.map segRoom).sum

/-- `spare` sectors and those with the gains `G` take `left` bytes in full segments, or all but what
fits into one sector too small for a full one. -/
def Enough (spare : Int) (G : List Int) (left : Int) : Prop :=
  left ≤ spare * 4032 + segRooms G ∨
    ∃ g ∈ G, g < 544 ∧ left ≤ spare * 4032 + segRooms G + (g - 32)

section Room
variable {spare : Int} {G H : List Int} {left : Int}

theorem segRoom_nonneg (gain : Int) : 0 ≤ segRoom gain := by
  unfold segRoom
  split <;> omega

@[simp] theorem segRooms_nil : segRooms [] = 0 := rfl

@[simp] theorem segRooms_cons (g : Int) (G : List Int) : segRooms (g :: G) = segRoom g + segRooms G := rfl

@[simp] theorem segRooms_append (G H : List Int) : segRooms (G ++ H) = segRooms G + segRooms H := by
  simp [segRooms]

theorem segRooms_nonneg (G : List Int) : 0 ≤ segRooms G := by
  induction G with
  | nil => exact Int.le_refl 0
  | cons g G ih =>
    have hg := segRoom_nonneg g
    rw [segRooms_cons]
    omega

theorem segRooms_perm (h : G.Perm H) : segRooms G = segRooms H := (h.map _).sum_eq

theorem segRooms_eq_zero (h : ∀ g ∈ G, g < 544) : segRooms G = 0 := by
  induction G with
  | nil => rfl
  | cons g G ih =>
    have hg : segRoom g = 0 := if_neg (Int.not_le.mpr (h g List.mem_cons_self))
    rw [segRooms_cons, hg, ih fun g' hg' => h g' (List.mem_cons_of_mem g hg')]
    rfl

theorem Enough.perm (h : Enough spare G left) (hp : G.Perm H) : Enough spare H left := by
  unfold Enough at h ⊢
  rw [← segRooms_perm hp]
  rcases h with hle | ⟨g, hg, hsmall, hle⟩
  · exact Or.inl hle
  · exact Or.inr ⟨g, hp.mem_iff.mp hg, hsmall, hle⟩

/-- With no spare sector left, the best of the others takes the rest or a full segment. -/
theorem Enough.best (h : Enough 0 G left) (hleft : 0 < left) {best : Int} (hbest : ∀ g ∈ G, g ≤ best) :
    left + 32 ≤ best ∨ 544 ≤ best := by
  by_cases hbig : 544 ≤ best
  · exact Or.inr hbig
  · have hzero : segRooms G = 0 := segRooms_eq_zero fun g hg => by
      have hle := hbest g hg
      omega
    rcases h with hle | ⟨g, hg, _, hle⟩
    · omega
    · have hle' := hbest g hg
      left
      omega

/-- An idle sector put to use has the room it had before. -/
theorem Enough.activate (h : Enough (spare + 1) G left) : Enough spare (G ++ [4064]) left := by
  have hroom : segRooms (G ++ [4064]) = segRooms G + 4032 := by
    rw [segRooms_append]
    rfl
  unfold Enough at h ⊢
  rw [hroom]
  rcases h with hle | ⟨g, hg, hsmall, hle⟩
  · left
    omega
  · right
    exact ⟨g, List.mem_append_left _ hg, hsmall, by omega⟩

/-- A full segment takes as much room as it writes bytes. -/
theorem Enough.segment {g : Int} (h : Enough spare (g :: G) left) (hbig : 544 ≤ g) :
    Enough spare (0 :: G) (left - (g - 32)) := by
  have hg : segRoom g = g - 32 := if_pos hbig
  have hzero : segRoom 0 = 0 := rfl
  unfold Enough at h ⊢
  rw [segRooms_cons, hg] at h
  rw [segRooms_cons, hzero]
  rcases h with hle | ⟨g', hg', hsmall, hle⟩
  · left
    omega
  · right
    rcases List.mem_cons.mp hg' with rfl | hg'
    · omega
    · exact ⟨g', List.mem_cons_of_mem 0 hg', hsmall, by omega⟩

end Room

/-! ## The check -/

def Store.gains (st : Store) : List Int := st.active.map fun s => (st.secArr s).gcSize

theorem checkBlobLoop_enough {st : Store} {L : List Nat} {left : Int} {segCount : Nat}
    (h : checkBlobLoop st L left segCount = .ok) : Enough 0 (L.map fun s => (st.secArr s).gcSize) left := by
  induction L generalizing left segCount with
  | nil => simp [checkBlobLoop] at h
  | cons s L ih =>
    have hL := segRooms_nonneg (L.map fun s => (st.secArr s).gcSize)
    have hs := segRoom_nonneg (st.secArr s).gcSize
    -- a sector that comes later in the list
    have hlater : ∀ {left' : Int}, Enough 0 (L.map fun s => (st.secArr s).gcSize) left' →
        left ≤ left' + segRoom (st.secArr s).gcSize →
        Enough 0 ((s :: L).map fun s => (st.secArr s).gcSize) left := by
      intro left' hrest hle
      unfold Enough at hrest ⊢
      rw [List.map_cons, segRooms_cons]
      rcases hrest with hrest | ⟨g, hg, hsmall, hrest⟩
      · left
        omega
      · right
        exact ⟨g, List.mem_cons_of_mem _ hg, hsmall, by omega⟩
    unfold checkBlobLoop at h
    simp only [sliceSize, blobMinSegSize] at h
    by_cases hleft : left > 0
    · split at h
      · exact absurd h (by decide)
      split at h
      next hfit =>
        unfold Enough
        rw [List.map_cons, segRooms_cons]
        by_cases hbig : 544 ≤ (st.secArr s).gcSize
        · left
          rw [segRoom, if_pos hbig]
          omega
        · right
          exact ⟨(st.secArr s).gcSize, List.mem_cons_self, by omega, by omega⟩
      next =>
        split at h
        next hbig =>
          have hroom : segRoom (st.secArr s).gcSize = (st.secArr s).gcSize - 32 := if_pos (by omega)
          exact hlater (ih h) (by omega)
        next => exact hlater (ih h) (by omega)
    · left
      rw [List.map_cons, segRooms_cons]
      omega

/-- What the check accepts there is enough room for. -/
theorem enough_of_check {st : Store} {size : Nat} (h : smCheckWriteBlobSize st size = .ok) :
    Enough ((st.idle.length : Int) - 1) st.gains size := by
  unfold smCheckWriteBlobSize at h
  split at h
  · exact absurd h (by decide)
  split at h
  · exact absurd h (by decide)
  simp only [singleItemMaxDataSize, entryCount, sliceSize] at h
  have hnonneg := segRooms_nonneg st.gains
  split at h
  · left
    omega
  · rcases checkBlobLoop_enough h with hle | ⟨g, hg, hsmall, hle⟩
    · left
      rw [Store.gains]
      omega
    · right
      refine ⟨g, hg, hsmall, ?_⟩
      rw [Store.gains]
      omega

/-! ## What the steps of the writer do to the gains -/

section Steps
variable {P : Port} {st st' : Store} {s n d : Nat}

theorem mem_gains {g : Int} : g ∈ st.gains ↔ ∃ s ∈ st.active, (st.secArr s).gcSize = g := List.mem_map

/-- The gain of an active sector is a number of slices. -/
theorem Balanced.gcSize_eq (h : Balanced P st) (hs : s ∈ st.active) :
    ∃ f : Nat, f ≤ 127 ∧ (st.secArr s).gcSize = (f : Int) * 32 := by
  obtain ⟨L, hL⟩ := h.active s hs
  have hsum := spans_liveItems_add_dropedSpans hL.packed.known
  have hused := hL.used_eq
  have hnext := hL.packed.used
  have hfits := hL.packed.fits
  refine ⟨127 - ((liveItems L).map Item.span).sum, by omega, ?_⟩
  rw [hL.gcSize_eq (hL.accounted_iff.mp (h.accounted s hs))]
  omega

theorem InUse.gcSize_of_nil (h : InUse P st s []) (hd : (st.secArr s).dropedSlice = 0) :
    (st.secArr s).gcSize = 4064 := by
  simp only [Sector.gcSize, h.used_eq, hd, spans_nil, entryCount, sliceSize]
  rfl

theorem Compacted.gcSize (h : Compacted P st st' n d) (hb : Balanced P st) :
    (st'.secArr n).gcSize = (st.secArr d).gcSize := by
  rw [Sector.gcSize_eq_freeSize h.droped, h.freeSize hb]

/-- A collection only moves a gain from one sector to another. -/
theorem Compacted.gains_perm (h : Compacted P st st' n d) (hb : Balanced P st) : st'.gains.Perm st.gains := by
  have hn : n ∈ st.idle := List.mem_of_head? h.target
  have hsame : (st.active.erase d).map (fun s => (st'.secArr s).gcSize) =
      (st.active.erase d).map fun s => (st.secArr s).gcSize := by
    apply List.map_congr_left
    intro t ht
    have hta := List.mem_of_mem_erase ht
    have htn : t ≠ n := by
      rintro rfl
      exact (List.nodup_append.mp hb.nodup).2.2 t hta t hn rfl
    have htd : t ≠ d := by
      rintro rfl
      exact (List.nodup_append.mp hb.nodup).1.not_mem_erase ht
    rw [(h.others t (List.mem_append_left _ hta) htn htd).secArr]
  have hperm := (List.perm_cons_erase h.picked).map fun s => (st.secArr s).gcSize
  rw [List.map_cons] at hperm
  rw [Store.gains, h.active, List.map_append, hsame, List.map_singleton, h.gcSize hb]
  exact List.perm_append_comm.trans hperm.symm

theorem Provided.gains {need : Nat} (h : Provided P need st st' .ok) (hb : Balanced P st) :
    (st'.gains = st.gains ++ [4064] ∧ st.idle.length = st'.idle.length + 1) ∨
      (st'.gains.Perm st.gains ∧ st.idle.length = 1 ∧ st'.idle.length = 1) := by
  cases h with
  | refused hne => exact absurd rfl hne
  | activated n hidle _ hactive hempty hdroped hsame =>
    left
    constructor
    · rw [Store.gains, hactive, List.map_append, List.map_singleton, hempty.gcSize_of_nil hdroped]
      congr 1
      apply List.map_congr_left
      intro t ht
      rw [(hsame t ht).secArr]
    · rw [hidle, List.length_cons]
  | collected n d hidle _ _ h =>
    right
    refine ⟨h.gains_perm hb, by rw [hidle]; rfl, ?_⟩
    rw [h.idle, hidle]
    rfl

/-- After a request the current sector takes the rest or a full segment. -/
theorem Provided.enough {need : Nat} {left : Int} (h : Provided P need st st' .ok) (hb : Balanced P st)
    (hleft : 0 < left) (he : Enough ((st.idle.length : Int) - 1) st.gains left) :
    Enough ((st'.idle.length : Int) - 1) st'.gains left ∧
      ∃ n, st'.currentSector = some n ∧ (st'.secArr n).dropedSlice = 0 ∧
        (left + 32 ≤ (st'.secArr n).freeSize ∨ 544 ≤ (st'.secArr n).freeSize) := by
  constructor
  · rcases h.gains hb with ⟨hgains, hlen⟩ | ⟨hperm, hone, hone'⟩
    · rw [hgains]
      apply Enough.activate
      rw [hlen] at he
      have hspare : (st'.idle.length : Int) - 1 + 1 = ((st'.idle.length + 1 : Nat) : Int) - 1 := by omega
      rwa [hspare]
    · rw [hone] at he
      rw [hone']
      exact he.perm hperm.symm
  · obtain ⟨n, hcur, _, hdroped⟩ := h.current
    refine ⟨n, hcur, hdroped, ?_⟩
    rw [← Sector.gcSize_eq_freeSize hdroped]
    cases h with
    | refused hne => exact absurd rfl hne
    | activated m _ _ hactive hempty hdroped' =>
      have hm : st'.currentSector = some m := by
        rw [Store.currentSector, hactive]
        simp
      rw [hm] at hcur
      obtain rfl := Option.some.inj hcur
      right
      rw [hempty.gcSize_of_nil hdroped']
      omega
    | collected m d hidle _ hbest h =>
      rw [h.current] at hcur
      obtain rfl := Option.some.inj hcur
      rw [h.gcSize hb]
      rw [hidle] at he
      apply he.best hleft
      intro g hg
      obtain ⟨e, hea, rfl⟩ := mem_gains.mp hg
      exact hbest e hea

/-- An item takes its slices from the free space of its sector and from nothing else. -/
theorem Balanced.written {g : Byte} {t : NvsType} {key data : List Byte} {segId : Byte} (h : Balanced P st)
    (hs : s ∈ st.active) (hrun : sectorWriteItem P st s g t key data segId = (.ok, st')) :
    Local s st st' ∧ (st'.secArr s).dropedSlice = (st.secArr s).dropedSlice ∧
      (st'.secArr s).usedSlice = (st.secArr s).usedSlice + entryCntOf data.length := by
  obtain ⟨L, hL⟩ := h.active s hs
  obtain ⟨hl, hw, ⟨M, hM, _⟩, _, hdrop⟩ := hL.write (h.inSize (List.mem_append_left _ hs)) hrun
  refine ⟨hl, ?_, ?_⟩
  · rcases hdrop with hdrop | ⟨hfresh, hdrop⟩
    · exact hdrop
    · rw [hdrop, hL.accounted_iff.mp (h.accounted s hs), hL.nil_of_fresh hfresh]
      rfl
  · cases hw with
    | failed herr => exact absurd rfl herr
    | done hlen hitems =>
      obtain ⟨i, hi⟩ := hitems
      have hused := (hM.of_items hi).used_eq
      rw [hused, hL.used_eq, hL.items_eq, spans_append, spans_cons, spans_nil, newItem_span P g t key segId hlen]
      rfl

theorem gains_perm_erase (hs : s ∈ st.active) :
    st.gains.Perm ((st.secArr s).gcSize :: (st.active.erase s).map fun t => (st.secArr t).gcSize) := by
  have hperm := (List.perm_cons_erase hs).map fun t => (st.secArr t).gcSize
  rwa [List.map_cons] at hperm

theorem Local.gains (h : Local s st st') (hs : s ∈ st.active) (hnodup : st.active.Nodup) :
    st'.gains.Perm ((st'.secArr s).gcSize :: (st.active.erase s).map fun t => (st.secArr t).gcSize) := by
  have hs' : s ∈ st'.active := by rwa [h.active]
  have hrest : (st.active.erase s).map (fun t => (st'.secArr t).gcSize) =
      (st.active.erase s).map fun t => (st.secArr t).gcSize := by
    apply List.map_congr_left
    intro t ht
    have hne : t ≠ s := by
      rintro rfl
      exact hnodup.not_mem_erase ht
    rw [h.others t hne]
  have hperm := gains_perm_erase hs'
  rwa [h.active, hrest] at hperm

end Steps

end WmIot.Nvs
