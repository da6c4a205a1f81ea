import WmIot.Nvs.SectorCopy
import WmIot.Nvs.Lookup

/-!
# Tidy stores

The invariant of a mounted store: the active sectors are packed, the idle ones are erased or
wait to be. `records` is what the store holds, in the order in which lookups meet it.
-/

namespace WmIot.Nvs
open NorFlash
set_option autoImplicit false

/-- Sector `s` holds the entries `L`; one without a header is still erased. -/
structure InUse (P : Port) (st : Store) (s : Nat) (L : List Entry) : Prop where
  packed : Packed P st.flash (st.secArr s) L
  crash : (st.secArr s).state ≠ sectorCrash
  invalid : (st.secArr s).state ≠ sectorInvalid
  fresh : (st.secArr s).state = sectorUninit →
    BlankOn st.flash (st.secArr s).address ((st.secArr s).address + 4096)

/-- An idle sector has to be erased before it is used, or holds nothing. -/
def Spare (P : Port) (st : Store) (s : Nat) : Prop :=
  ((st.secArr s).state = sectorCrash ∨ (st.secArr s).state = sectorInvalid) ∨
    (InUse P st s [] ∧ (st.secArr s).dropedSlice = 0)

structure Arranged (P : Port) (st : Store) : Prop where
  nodup : (st.active ++ st.idle).Nodup
  inRange : ∀ s ∈ st.active ++ st.idle, s < st.secNum
  address : ∀ s ∈ st.active ++ st.idle, (st.secArr s).address = s * 4096
  active : ∀ s ∈ st.active, ∃ L, InUse P st s L
  idle : ∀ s ∈ st.idle, Spare P st s

/-- Between operations there always is a current sector. -/
structure Tidy (P : Port) (st : Store) : Prop extends Arranged P st where
  nonempty : st.active ≠ []

namespace Store

def sectorRecords (st : Store) (s : Nat) : List Record :=
  recordsOf st.flash (st.secArr s).address (st.items s)

/-- What the active sectors hold. -/
def records (st : Store) : List Record := st.active.flatMap st.sectorRecords

end Store

/-! ## Sectors an operation leaves alone -/

/-- Sector `t` is the same in both stores. -/
structure SameAt (st st' : Store) (t : Nat) : Prop where
  secArr : st'.secArr t = st.secArr t
  flash : AgreeOn st.flash st'.flash (st.secArr t).address ((st.secArr t).address + 4096)

namespace SameAt
variable {P : Port} {st st₁ st₂ st' : Store} {t : Nat} {L : List Entry}

theorem refl (st : Store) (t : Nat) : SameAt st st t := ⟨rfl, AgreeOn.refl _ _ _⟩

theorem trans (h : SameAt st st₁ t) (h' : SameAt st₁ st₂ t) : SameAt st st₂ t where
  secArr := h'.secArr.trans h.secArr
  flash := by
    apply h.flash.trans
    rw [← h.secArr]
    exact h'.flash

theorem inUse (h : SameAt st st' t) (hu : InUse P st t L) : InUse P st' t L where
  packed := by
    rw [h.secArr]
    exact hu.packed.congr h.flash
  crash := by
    rw [h.secArr]
    exact hu.crash
  invalid := by
    rw [h.secArr]
    exact hu.invalid
  fresh := by
    rw [h.secArr]
    exact fun hs => h.flash.symm.blankOn (hu.fresh hs)

theorem spare (h : SameAt st st' t) (hs : Spare P st t) : Spare P st' t := by
  unfold Spare
  rw [h.secArr]
  rcases hs with hs | ⟨hu, hd⟩
  · exact Or.inl hs
  · exact Or.inr ⟨h.inUse hu, hd⟩

end SameAt

section InUse
variable {P : Port} {st st' : Store} {s t : Nat} {L : List Entry}

theorem Packed.nil_of_blank {f : Flash} {sec : Sector} (h : Packed P f sec L)
    (hb : BlankOn f sec.address (sec.address + 4096)) : L = [] := by
  cases L with
  | nil => rfl
  | cons x L =>
    have hx : x ∈ x :: L := List.mem_cons_self
    have hread := h.chain.mem_read hx
    have hbound := h.chain.mem_bounds hx
    have hspan := x.2.span_pos
    have hfits := h.fits
    have hstate : x.2.state = itemUnused := by
      rw [← hread]
      apply readItem_unused
      apply hb.mono
      · simp only [sliceAddr]
        omega
      · simp only [sliceAddr, sliceSize]
        omega
    rcases h.known x hx with hk | hk
    · rw [hk] at hstate
      exact absurd hstate (by decide)
    · rw [hk] at hstate
      exact absurd hstate (by decide)

theorem InUse.nil_of_fresh (h : InUse P st s L) (hs : (st.secArr s).state = sectorUninit) : L = [] :=
  h.packed.nil_of_blank (h.fresh hs)

theorem InUse.items_eq (h : InUse P st s L) : st.items s = L := by
  unfold Store.items
  simp only
  split
  · rename_i hs
    exact (h.nil_of_fresh ((hs.resolve_left h.crash).resolve_left h.invalid)).symm
  · exact h.packed.scan_eq

theorem InUse.of_items {M : List Entry} (h : InUse P st s L) (hM : st.items s = M) : InUse P st s M := by
  rw [← hM, h.items_eq]
  exact h

theorem SameAt.items (h : SameAt st st' t) (hu : InUse P st t L) : st'.items t = st.items t := by
  rw [hu.items_eq, (h.inUse hu).items_eq]

theorem SameAt.value (h : SameAt st st' t) (hu : InUse P st t L) {x : Entry} (hx : x ∈ L) :
    entryData st'.flash (st'.secArr t).address x = entryData st.flash (st.secArr t).address x := by
  rw [h.secArr]
  apply entryData_congr hu.packed.chain hx
  apply h.flash.mono
  · simp only [sliceAddr]
    omega
  · rw [← sliceAddr_last]
    exact sliceAddr_mono _ hu.packed.fits

theorem SameAt.sectorRecords (h : SameAt st st' t) (hu : InUse P st t L) :
    st'.sectorRecords t = st.sectorRecords t := by
  unfold Store.sectorRecords
  rw [h.items hu, hu.items_eq]
  apply List.map_congr_left
  intro x hx
  rw [h.value hu (List.mem_of_mem_filter hx)]

end InUse

namespace Arranged
variable {P : Port} {st st' : Store} {s t : Nat}

theorem disjoint (h : Arranged P st) (hs : s ∈ st.active ++ st.idle) (ht : t ∈ st.active ++ st.idle)
    (hne : t ≠ s) : (st.secArr t).address + 4096 ≤ (st.secArr s).address ∨
      (st.secArr s).address + 4096 ≤ (st.secArr t).address := by
  rw [h.address s hs, h.address t ht]
  omega

theorem inSize (h : Arranged P st) (hs : s ∈ st.active ++ st.idle) :
    (st.secArr s).address + 4096 ≤ st.size := by
  have hr := h.inRange s hs
  rw [h.address s hs]
  simp only [Store.size, sectionSize]
  omega

/-- A change confined to one sector leaves the others as they are. -/
theorem sameAt (h : Arranged P st) (hl : Local s st st') (hs : s ∈ st.active ++ st.idle)
    (ht : t ∈ st.active ++ st.idle) (hne : t ≠ s) : SameAt st st' t :=
  ⟨hl.others t hne, (hl.agreeOn (h.disjoint hs ht hne)).symm⟩

end Arranged

namespace Tidy
variable {P : Port} {st st' : Store} {s t : Nat}

/-- A change confined to an active sector keeps the store tidy if that sector stays in use. -/
theorem of_local (h : Tidy P st) (hl : Local s st st') (hs : s ∈ st.active)
    (hu : ∃ L, InUse P st' s L) : Tidy P st' := by
  have hmem : s ∈ st.active ++ st.idle := List.mem_append_left _ hs
  refine ⟨⟨?_, ?_, ?_, ?_, ?_⟩, ?_⟩
  · rw [hl.active, hl.idle]
    exact h.nodup
  · rw [hl.active, hl.idle, hl.secNum]
    exact h.inRange
  · rw [hl.active, hl.idle]
    intro t ht
    by_cases hne : t = s
    · rw [hne, hl.address]
      exact h.address s hmem
    · rw [hl.others t hne]
      exact h.address t ht
  · rw [hl.active]
    intro t ht
    by_cases hne : t = s
    · rw [hne]
      exact hu
    · obtain ⟨L, hL⟩ := h.active t ht
      exact ⟨L, (h.sameAt hl hmem (List.mem_append_left _ ht) hne).inUse hL⟩
  · rw [hl.idle]
    intro t ht
    have hne : t ≠ s := by
      rintro rfl
      exact (List.nodup_append.mp h.nodup).2.2 t hs t ht rfl
    exact (h.sameAt hl hmem (List.mem_append_right _ ht) hne).spare (h.idle t ht)
  · rw [hl.active]
    exact h.nonempty

end Tidy

/-! ## Writing an item -/

theorem InUse.ready {P : Port} {st : Store} {s : Nat} {L : List Entry} (h : InUse P st s L) :
    InUse P (readySector P st s) s L ∧ ((readySector P st s).secArr s).state ≠ sectorUninit := by
  have hp := readySector_packed h.packed h.nil_of_fresh
  have hstate : ((readySector P st s).secArr s).state = (st.secArr s).state ∨
      ((readySector P st s).secArr s).state = sectorUsing := by
    unfold readySector
    split
    · exact Or.inr sectorInit_state
    · exact Or.inl rfl
  have hready : ((readySector P st s).secArr s).state ≠ sectorUninit := by
    unfold readySector
    split
    · rw [sectorInit_state]
      decide
    · assumption
  refine ⟨⟨hp, ?_, ?_, fun hs => absurd hs hready⟩, hready⟩
  · rcases hstate with hs | hs
    · rw [hs]
      exact h.crash
    · rw [hs]
      decide
  · rcases hstate with hs | hs
    · rw [hs]
      exact h.invalid
    · rw [hs]
      decide

theorem InUse.appendItem {P : Port} {st : Store} {s : Nat} {L : List Entry} (h : InUse P st s L)
    (hready : (st.secArr s).state ≠ sectorUninit) {it : Item} (hstate : it.state = itemUsing)
    (hfit : (st.secArr s).nextFreeSlice + it.span ≤ 127) {tail value : List Byte}
    (hst : Stored it tail value) :
    InUse P (appendItem P st s it tail) s (L ++ [((st.secArr s).nextFreeSlice, it)]) ∧
      (appendItem P st s it tail).sectorRecords s = st.sectorRecords s ++ [(it, value)] ∧
      ∀ x ∈ L, entryData (appendItem P st s it tail).flash
        ((appendItem P st s it tail).secArr s).address x =
        entryData st.flash (st.secArr s).address x := by
  have hu : InUse P (Nvs.appendItem P st s it tail) s (L ++ [((st.secArr s).nextFreeSlice, it)]) := by
    constructor
    · rw [appendItem_flash, appendItem_secArr]
      exact h.packed.push hstate hfit hst.length_le
    · rw [appendItem_secArr]
      exact h.crash
    · rw [appendItem_secArr]
      exact h.invalid
    · rw [appendItem_secArr]
      exact fun hs => absurd hs hready
  refine ⟨hu, ?_, ?_⟩
  · unfold Store.sectorRecords
    rw [hu.items_eq, h.items_eq, appendItem_flash, appendItem_secArr]
    exact recordsOf_push h.packed hstate hfit hst
  · intro x hx
    rw [appendItem_flash, appendItem_secArr]
    exact h.packed.push_value hx

/-- The two ways `wm_nvs_sector_write_item` ends on a sector in use. -/
inductive Written (P : Port) (st st' : Store) (s : Nat) (g : Byte) (t : NvsType)
    (key data : List Byte) (segId : Byte) : Err → Prop where
  | failed {err : Err} (herr : err ≠ .ok) (hitems : st'.items s = st.items s)
      (hrec : st'.sectorRecords s = st.sectorRecords s) : Written P st st' s g t key data segId err
  | done (hlen : data.length ≤ 4032)
      (hitems : ∃ i, st'.items s = st.items s ++ [(i, newItem P g t key data segId)])
      (hrec : st'.sectorRecords s = st.sectorRecords s ++ [(newItem P g t key data segId, data)]) :
      Written P st st' s g t key data segId .ok

theorem readySector_droped (P : Port) (st : Store) (s : Nat) :
    ((readySector P st s).secArr s).dropedSlice = (st.secArr s).dropedSlice ∨
      ((st.secArr s).state = sectorUninit ∧ ((readySector P st s).secArr s).dropedSlice = 0) := by
  unfold readySector
  split
  · rename_i h
    exact Or.inr ⟨h, by simp [sectorInit]⟩
  · exact Or.inl rfl

theorem InUse.write {P : Port} {st st' : Store} {s : Nat} {L : List Entry} {g : Byte} {t : NvsType}
    {key data : List Byte} {segId : Byte} {err : Err} (hu : InUse P st s L)
    (hsize : (st.secArr s).address + 4096 ≤ st.size)
    (h : sectorWriteItem P st s g t key data segId = (err, st')) :
    Local s st st' ∧ Written P st st' s g t key data segId err ∧
      (∃ M, InUse P st' s (L ++ M) ∧ ∀ x ∈ M, x.Live) ∧
      (∀ x ∈ st.items s,
        entryData st'.flash (st'.secArr s).address x = entryData st.flash (st.secArr s).address x) ∧
      ((st'.secArr s).dropedSlice = (st.secArr s).dropedSlice ∨
        ((st.secArr s).state = sectorUninit ∧ (st'.secArr s).dropedSlice = 0)) := by
  obtain ⟨hr, hready⟩ := hu.ready
  have hlr := readySector_local P st s
  have hrec : (readySector P st s).sectorRecords s = st.sectorRecords s := by
    unfold readySector
    split
    · rename_i hfresh
      obtain rfl := hu.nil_of_fresh hfresh
      have hr' := hr.items_eq
      unfold readySector at hr'
      rw [if_pos hfresh] at hr'
      rw [Store.sectorRecords, Store.sectorRecords, hr', hu.items_eq]
      rfl
    · rfl
  have hvalr : ∀ x ∈ L, entryData (readySector P st s).flash ((readySector P st s).secArr s).address x =
      entryData st.flash (st.secArr s).address x := by
    intro x hx
    unfold readySector
    split
    · rename_i hfresh
      rw [hu.nil_of_fresh hfresh] at hx
      simp at hx
    · rfl
  rw [hu.items_eq]
  rcases sectorWriteItem_cases hsize h with ⟨herr, rfl | rfl⟩ | ⟨rfl, hlen, hfit, rfl⟩
  · exact ⟨Local.refl s _, .failed herr rfl rfl, ⟨[], by rwa [List.append_nil], by simp⟩,
      fun _ _ => rfl, Or.inl rfl⟩
  · exact ⟨hlr, .failed herr (by rw [hr.items_eq, hu.items_eq]) hrec,
      ⟨[], by rwa [List.append_nil], by simp⟩, hvalr, readySector_droped P st s⟩
  · have hspan := newItem_span P g t key segId hlen
    rw [← hspan] at hfit
    have hst := newItem_stored P g t key segId hlen
    have hstate : (newItem P g t key data segId).state = itemUsing := itemInit_state ..
    obtain ⟨ha, hval, hold⟩ := hr.appendItem hready hstate hfit hst
    have hla := hlr.trans (appendItem_local (P := P) hfit hst.length_le)
    refine ⟨hla, .done hlen ⟨((readySector P st s).secArr s).nextFreeSlice, ?_⟩ ?_, ⟨_, ha, ?_⟩, ?_, ?_⟩
    · rw [ha.items_eq, hu.items_eq]
    · rw [hval, hrec]
    · intro x hx
      obtain rfl := List.mem_singleton.mp hx
      exact hstate
    · exact fun x hx => (hold x hx).trans (hvalr x hx)
    · rw [appendItem_secArr]
      exact readySector_droped P st s

theorem Tidy.write {P : Port} {st st' : Store} {s : Nat} {g : Byte} {t : NvsType}
    {key data : List Byte} {segId : Byte} {err : Err} (ht : Tidy P st) (hs : s ∈ st.active)
    (h : sectorWriteItem P st s g t key data segId = (err, st')) :
    Tidy P st' ∧ Local s st st' ∧ Written P st st' s g t key data segId err ∧
      ∀ x ∈ st.items s,
        entryData st'.flash (st'.secArr s).address x = entryData st.flash (st.secArr s).address x := by
  obtain ⟨L, hu⟩ := ht.active s hs
  obtain ⟨hl, hw, ⟨M, hM, _⟩, hval, _⟩ := hu.write (ht.inSize (List.mem_append_left _ hs)) h
  exact ⟨ht.of_local hl hs ⟨_, hM⟩, hl, hw, hval⟩

/-! ## Erasing an item -/

theorem InUse.erase {P : Port} {st : Store} {s : Nat} {L : List Entry} {x : Entry} (hu : InUse P st s L)
    (hx : x ∈ L) (it : Item) :
    Local s st (sectorEraseItem st s x.1 it true) ∧
      InUse P (sectorEraseItem st s x.1 it true) s (markDroped x.1 L) ∧
      (sectorEraseItem st s x.1 it true).sectorRecords s =
        recordsOf st.flash (st.secArr s).address (L.filter fun y => y.1 ≠ x.1) := by
  have hb := hu.packed.chain.mem_bounds hx
  have hf := hu.packed.fits
  have hspan := x.2.span_pos
  have hl : Local s st (sectorEraseItem st s x.1 it true) := sectorEraseItem_local (by omega)
  have hu' : InUse P (sectorEraseItem st s x.1 it true) s (markDroped x.1 L) := by
    constructor
    · exact sectorEraseItem_packed it hu.packed hx
    · rw [sectorEraseItem_secArr]
      exact hu.crash
    · rw [sectorEraseItem_secArr]
      exact hu.invalid
    · rw [sectorEraseItem_secArr]
      intro hfresh
      obtain rfl := hu.nil_of_fresh hfresh
      simp at hx
  refine ⟨hl, hu', ?_⟩
  unfold Store.sectorRecords
  rw [hu'.items_eq, sectorEraseItem_flash, sectorEraseItem_secArr]
  exact recordsOf_markDroped hu.packed.chain hx

theorem Tidy.erase {P : Port} {st : Store} {s : Nat} {x : Entry} (ht : Tidy P st) (hs : s ∈ st.active)
    (hx : x ∈ st.items s) (it : Item) :
    Tidy P (sectorEraseItem st s x.1 it true) ∧ Local s st (sectorEraseItem st s x.1 it true) ∧
      (sectorEraseItem st s x.1 it true).items s = markDroped x.1 (st.items s) ∧
      (sectorEraseItem st s x.1 it true).sectorRecords s =
        recordsOf st.flash (st.secArr s).address ((st.items s).filter fun y => y.1 ≠ x.1) := by
  obtain ⟨L, hu⟩ := ht.active s hs
  rw [hu.items_eq] at hx ⊢
  obtain ⟨hl, hu', hrec⟩ := hu.erase hx it
  exact ⟨ht.of_local hl hs ⟨_, hu'⟩, hl, hu'.items_eq, hrec⟩

end WmIot.Nvs
