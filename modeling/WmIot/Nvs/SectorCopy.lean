import WmIot.Nvs.SectorSpec

/-!
# Copying a sector

`wm_nvs_sector_copy` fills an empty sector with the live items of another one: the items keep
their order and their values and lie one behind the other from the first slice on.
-/

namespace WmIot.Nvs
open NorFlash
set_option autoImplicit false

/-- Items one behind the other from slice `i` on. -/
def placed : Nat → List Item → List Entry
  | _, [] => []
  | i, it :: its => (i, it) :: placed (i + it.span) its

def liveItems (L : List Entry) : List Item := (L.filter fun x => x.Live).map Prod.snd

theorem liveItems_cons_live {x : Entry} (h : x.Live) (L : List Entry) :
    liveItems (x :: L) = x.2 :: liveItems L := by
  simp [liveItems, h]

theorem liveItems_cons_dead {x : Entry} (h : ¬ x.Live) (L : List Entry) :
    liveItems (x :: L) = liveItems L := by
  simp [liveItems, h]

theorem recordsOf_cons_live {x : Entry} (h : x.Live) (f : Flash) (addr : Nat) (L : List Entry) :
    recordsOf f addr (x :: L) = (x.2, entryData f addr x) :: recordsOf f addr L := by
  simp [recordsOf, h]

theorem recordsOf_cons_dead {x : Entry} (h : ¬ x.Live) (f : Flash) (addr : Nat) (L : List Entry) :
    recordsOf f addr (x :: L) = recordsOf f addr L := by
  simp [recordsOf, h]

theorem setSec_eq_self (st : Store) (s : Nat) : st.setSec s (st.secArr s) = st := by
  simp [Store.setSec]

theorem push_nextFreeSlice {P : Port} {sec : Sector} {it : Item} (h : sec.nextFreeSlice + it.span ≤ 127) :
    (sec.push P it).nextFreeSlice = sec.nextFreeSlice + it.span := add8_eq h

/-- The state of the copy with the entries `B` of `src` from `srcIndex` on still to come. -/
structure Copying (P : Port) (dst src srcIndex : Nat) (B M : List Entry) (st : Store) : Prop where
  chain : Chain st.flash (st.secArr src).address srcIndex B (st.secArr src).nextFreeSlice
  fits : (st.secArr src).nextFreeSlice ≤ 127
  known : ∀ x ∈ B, x.Known
  tail : BlankOn st.flash (sliceAddr (st.secArr src).address (st.secArr src).nextFreeSlice)
    ((st.secArr src).address + 4096)
  packed : Packed P st.flash (st.secArr dst) M
  behind : (st.secArr dst).nextFreeSlice ≤ srcIndex
  ne : dst ≠ src
  disjoint : (st.secArr dst).address + 4096 ≤ (st.secArr src).address ∨
    (st.secArr src).address + 4096 ≤ (st.secArr dst).address
  sizeDst : (st.secArr dst).address + 4096 ≤ st.size
  sizeSrc : (st.secArr src).address + 4096 ≤ st.size

/-- What the copy leads to. -/
structure Copied (P : Port) (dst src : Nat) (B M : List Entry) (st st' : Store) : Prop where
  loc : Local dst st st'
  packed : Packed P st'.flash (st'.secArr dst)
    (M ++ placed (st.secArr dst).nextFreeSlice (liveItems B))
  records : recordsOf st'.flash (st.secArr dst).address
      (M ++ placed (st.secArr dst).nextFreeSlice (liveItems B)) =
    recordsOf st.flash (st.secArr dst).address M ++ recordsOf st.flash (st.secArr src).address B
  state : (st'.secArr dst).state = (st.secArr dst).state
  droped : (st'.secArr dst).dropedSlice = (st.secArr dst).dropedSlice

section Steps
variable {P : Port} {dst src srcIndex : Nat} {B M : List Entry} {st : Store} {x : Entry}

/-- The bytes behind the header of an entry. -/
def entryTail (f : Flash) (addr : Nat) (x : Entry) : List Byte :=
  if x.2.span > 1 then readBytes f (sliceAddr addr (x.1 + 1)) x.2.length.toNat else []

theorem span_gt_one {it : Item} : it.span > 1 ↔ 8 < it.length.toNat := by
  unfold Item.span
  split
  · rename_i h
    simp only [sliceSize]
    omega
  · rename_i h
    omega

theorem entryTail_stored (f : Flash) (addr : Nat) (x : Entry) :
    Stored x.2 (entryTail f addr x) (entryData f addr x) := by
  unfold entryTail entryData
  by_cases h : 8 < x.2.length.toNat
  · rw [if_pos (span_gt_one.mpr h), if_neg (by omega)]
    exact Stored.long _ h (by simp)
  · rw [if_neg fun hs => h (span_gt_one.mp hs), if_pos (by omega)]
    exact Stored.short (by omega)

/-- The store after `x` is copied. -/
def copyItem (P : Port) (dst src : Nat) (x : Entry) (st : Store) : Store :=
  appendItem P st dst x.2 (entryTail st.flash (st.secArr src).address x)

theorem Copying.bounds (h : Copying P dst src srcIndex (x :: B) M st) :
    x.1 = srcIndex ∧ srcIndex + x.2.span ≤ 127 ∧
      (st.secArr dst).nextFreeSlice + x.2.span ≤ 127 := by
  have hb := h.chain.mem_bounds (x := x) List.mem_cons_self
  have hx := h.chain.1
  have hf := h.fits
  have hbe := h.behind
  omega

theorem Copying.copyItem_local (h : Copying P dst src srcIndex (x :: B) M st) :
    Local dst st (copyItem P dst src x st) :=
  appendItem_local h.bounds.2.2 (entryTail_stored _ _ x).length_le

/-- Nothing of the source sector changes when an item is copied out of it. -/
theorem Copying.source_agrees (h : Copying P dst src srcIndex B M st) {st' : Store}
    (hl : Local dst st st') :
    AgreeOn st.flash st'.flash (st.secArr src).address ((st.secArr src).address + 4096) := by
  have hd := h.disjoint
  exact (hl.agreeOn (by omega)).symm

theorem Copying.header_local (h : Copying P dst src srcIndex (x :: B) M st) : Local dst st
    (st.ptWriteRaw (sliceAddr (st.secArr dst).address (st.secArr dst).nextFreeSlice) x.2.bytes) := by
  have hb := h.bounds
  have hs := x.2.span_pos
  have hbytes : x.2.bytes.length = 32 := x.2.bytes_length
  apply Local.ptWriteRaw
  · simp only [sliceAddr]
    omega
  · simp only [sliceAddr, sliceSize]
    omega

/-- With nothing left to copy the destination holds what it should. -/
theorem Copying.done (h : Copying P dst src srcIndex [] M st) : Copied P dst src [] M st st where
  loc := Local.refl dst st
  packed := by simpa [placed, liveItems] using h.packed
  records := by simp [placed, liveItems, recordsOf]
  state := rfl
  droped := rfl

theorem Copying.skip (h : Copying P dst src srcIndex (x :: B) M st) :
    Copying P dst src (srcIndex + x.2.span) B M st where
  chain := h.chain.2.2
  fits := h.fits
  known := fun y hy => h.known y (List.mem_cons_of_mem x hy)
  tail := h.tail
  packed := h.packed
  behind := by
    have hb := h.behind
    omega
  ne := h.ne
  disjoint := h.disjoint
  sizeDst := h.sizeDst
  sizeSrc := h.sizeSrc

theorem Copying.step (h : Copying P dst src srcIndex (x :: B) M st) (hlive : x.Live) :
    Copying P dst src (srcIndex + x.2.span) B (M ++ [((st.secArr dst).nextFreeSlice, x.2)])
      (copyItem P dst src x st) := by
  have hbounds := h.bounds
  have hl := h.copyItem_local
  have hsrc : (copyItem P dst src x st).secArr src = st.secArr src := hl.others src h.ne.symm
  have hdst : (copyItem P dst src x st).secArr dst = (st.secArr dst).push P x.2 :=
    appendItem_secArr P st dst x.2 _
  have hagree := h.source_agrees hl
  have hin : ∀ i ≤ 127, sliceAddr (st.secArr src).address i ≤ (st.secArr src).address + 4096 := by
    intro i hi
    rw [← sliceAddr_last]
    exact sliceAddr_mono _ hi
  have hlow : ∀ i, (st.secArr src).address ≤ sliceAddr (st.secArr src).address i := by
    intro i
    simp only [sliceAddr]
    omega
  constructor
  · rw [hsrc]
    exact h.chain.2.2.congr (hagree.mono (hlow _) (hin _ h.fits))
  · rw [hsrc]
    exact h.fits
  · exact fun y hy => h.known y (List.mem_cons_of_mem x hy)
  · rw [hsrc]
    exact (hagree.mono (hlow _) (Nat.le_refl _)).symm.blankOn h.tail
  · rw [hdst, copyItem, appendItem_flash]
    exact h.packed.push hlive hbounds.2.2 (entryTail_stored _ _ x).length_le
  · rw [hdst, push_nextFreeSlice hbounds.2.2]
    have hb := h.behind
    omega
  · exact h.ne
  · rw [hsrc, hl.address]
    exact h.disjoint
  · rw [hl.address, hl.size]
    exact h.sizeDst
  · rw [hsrc, hl.size]
    exact h.sizeSrc

/-- One turn of the copy loop at an item in use. -/
theorem Copying.turn (h : Copying P dst src srcIndex (x :: B) M st) (hlive : x.Live) (n : Nat) :
    sectorCopyLoop P dst src (n + 1) srcIndex (st.secArr dst).nextFreeSlice st =
      sectorCopyLoop P dst src n (srcIndex + x.2.span)
        ((copyItem P dst src x st).secArr dst).nextFreeSlice (copyItem P dst src x st) := by
  have hbounds := h.bounds
  have hspan := x.2.span_pos
  have hstate : x.2.state = itemUsing := hlive
  have hread : readItem st.flash (sliceAddr (st.secArr src).address srcIndex) = x.2 := h.chain.2.1
  have hnext : ((copyItem P dst src x st).secArr dst).nextFreeSlice =
      (st.secArr dst).nextFreeSlice + x.2.span := by
    rw [copyItem, appendItem_secArr, push_nextFreeSlice hbounds.2.2]
  rw [hnext]
  conv_lhs => unfold sectorCopyLoop
  rw [if_pos (show srcIndex < entryCount by simp only [entryCount]; omega)]
  simp only [hread, hstate, if_neg using_ne_droped, if_true]
  by_cases hlong : x.2.span > 1
  · have hlen := length_le_span (span_gt_one.mp hlong)
    have hread : (st.ptWriteRaw (sliceAddr (st.secArr dst).address (st.secArr dst).nextFreeSlice)
        x.2.bytes).ptRead (sliceAddr (st.secArr src).address (srcIndex + 1)) x.2.length.toNat =
        some (readBytes st.flash (sliceAddr (st.secArr src).address (srcIndex + 1)) x.2.length.toNat) := by
      have hin : sliceAddr (st.secArr src).address (srcIndex + 1) + x.2.length.toNat ≤ st.size := by
        have hs := h.sizeSrc
        simp only [sliceAddr, sliceSize]
        omega
      rw [Store.ptRead, ptWriteRaw_size, if_pos hin]
      congr 1
      have hl := h.header_local
      apply (h.source_agrees hl).symm.readBytes
      · simp only [sliceAddr]
        omega
      · simp only [sliceAddr, sliceSize]
        omega
    have hwrite : ∀ data : List Byte, data.length = x.2.length.toNat →
        (st.ptWriteRaw (sliceAddr (st.secArr dst).address (st.secArr dst).nextFreeSlice)
          x.2.bytes).ptWrite (sliceAddr (st.secArr dst).address ((st.secArr dst).nextFreeSlice + 1))
          data = (.ok, (st.ptWriteRaw (sliceAddr (st.secArr dst).address (st.secArr dst).nextFreeSlice)
          x.2.bytes).ptWriteRaw (sliceAddr (st.secArr dst).address ((st.secArr dst).nextFreeSlice + 1))
          data) := by
      intro data hdata
      apply ptWrite_of_le
      have hs := h.sizeDst
      simp only [sliceAddr, sliceSize, ptWriteRaw_size]
      omega
    have hne : readBytes st.flash (sliceAddr (st.secArr src).address (srcIndex + 1))
        x.2.length.toNat ≠ [] := by
      intro hnil
      have hz := congrArg List.length hnil
      have hl := span_gt_one.mp hlong
      simp only [readBytes_length, List.length_nil] at hz
      omega
    simp only [if_pos hlong, ptWriteRaw_secArr, hread, hwrite _ (readBytes_length _ _ _)]
    rw [copyItem, entryTail, if_pos hlong, hbounds.1, appendItem, if_neg hne]
    rfl
  · rw [if_neg hlong, copyItem, entryTail, if_neg hlong, appendItem, if_pos rfl]
    rfl

theorem Copying.copied_cons (h : Copying P dst src srcIndex (x :: B) M st) (hlive : x.Live) {st' : Store}
    (hc : Copied P dst src B (M ++ [((st.secArr dst).nextFreeSlice, x.2)]) (copyItem P dst src x st) st') :
    Copied P dst src (x :: B) M st st' := by
  have hbounds := h.bounds
  have hl := h.copyItem_local
  have hnext : ((copyItem P dst src x st).secArr dst).nextFreeSlice =
      (st.secArr dst).nextFreeSlice + x.2.span := by
    rw [copyItem, appendItem_secArr, push_nextFreeSlice hbounds.2.2]
  have hsrc : (copyItem P dst src x st).secArr src = st.secArr src := hl.others src h.ne.symm
  have hlist : M ++ [((st.secArr dst).nextFreeSlice, x.2)] ++
      placed ((copyItem P dst src x st).secArr dst).nextFreeSlice (liveItems B) =
      M ++ placed (st.secArr dst).nextFreeSlice (liveItems (x :: B)) := by
    rw [hnext, liveItems_cons_live hlive, placed, List.append_assoc]
    rfl
  constructor
  · exact hl.trans hc.loc
  · rw [← hlist]
    exact hc.packed
  · have hrec := hc.records
    rw [hlist, hl.address, hsrc] at hrec
    have hfirst : recordsOf (copyItem P dst src x st).flash (st.secArr dst).address
        (M ++ [((st.secArr dst).nextFreeSlice, x.2)]) =
        recordsOf st.flash (st.secArr dst).address M ++
          [(x.2, entryData st.flash (st.secArr src).address x)] := by
      rw [copyItem, appendItem_flash]
      exact recordsOf_push h.packed hlive hbounds.2.2 (entryTail_stored _ _ x)
    have hrest : recordsOf (copyItem P dst src x st).flash (st.secArr src).address B =
        recordsOf st.flash (st.secArr src).address B := by
      apply recordsOf_congr
      intro y hy
      apply entryData_congr h.chain.2.2 hy
      apply (h.source_agrees hl).mono
      · simp only [sliceAddr]
        omega
      · rw [← sliceAddr_last]
        exact sliceAddr_mono _ h.fits
    rw [hrec, hfirst, hrest, recordsOf_cons_live hlive, List.append_assoc, List.singleton_append]
  · rw [hc.state, copyItem, appendItem_secArr]
    rfl
  · rw [hc.droped, copyItem, appendItem_secArr]
    rfl

end Steps

theorem readItem_unused {f : Flash} {addr : Nat} (h : BlankOn f addr (addr + 1)) :
    (readItem f addr).state = itemUnused := h addr (Nat.le_refl _) (Nat.lt_succ_self _)

/-- The copy loop carries every item in use over. -/
theorem sectorCopyLoop_spec {P : Port} {dst src : Nat} (n : Nat) {srcIndex : Nat} {B M : List Entry}
    {st : Store} (h : Copying P dst src srcIndex B M st) (hn : 127 ≤ srcIndex + n) :
    ∃ st', sectorCopyLoop P dst src n srcIndex (st.secArr dst).nextFreeSlice st = (.ok, st') ∧
      Copied P dst src B M st st' := by
  induction n generalizing srcIndex B M st with
  | zero =>
    have hnil : B = [] := by
      cases B with
      | nil => rfl
      | cons x B =>
        have hb := h.bounds
        have hs := x.2.span_pos
        omega
    subst hnil
    exact ⟨st, rfl, h.done⟩
  | succ n ih =>
    cases B with
    | nil =>
      refine ⟨st, ?_, h.done⟩
      unfold sectorCopyLoop
      split
      · rename_i hlt
        have hend : srcIndex = (st.secArr src).nextFreeSlice := h.chain
        have hunused : (readItem st.flash (sliceAddr (st.secArr src).address srcIndex)).state =
            itemUnused := by
          apply readItem_unused
          apply h.tail.mono (Nat.le_of_eq (by rw [hend]))
          have hm := sliceAddr_mono (st.secArr src).address (show srcIndex + 1 ≤ 127 from hlt)
          rw [sliceAddr_last, sliceAddr_add] at hm
          omega
        have hself : { st.secArr dst with nextFreeSlice := (st.secArr dst).usedSlice } =
            st.secArr dst := by rw [h.packed.used]
        simp only [hunused, if_neg (show ¬ itemUnused = itemDroped by decide),
          if_neg (show ¬ itemUnused = itemUsing by decide), hself, setSec_eq_self]
      · rfl
    | cons x B =>
      have hspan := x.2.span_pos
      by_cases hlive : x.Live
      · obtain ⟨st', hrun, hc⟩ := ih (h.step hlive) (by omega)
        exact ⟨st', (h.turn hlive n).trans hrun, h.copied_cons hlive hc⟩
      · obtain ⟨st', hrun, hc⟩ := ih h.skip (by omega)
        refine ⟨st', ?_, ?_⟩
        · rw [← hrun]
          have hb := h.bounds
          have hread : readItem st.flash (sliceAddr (st.secArr src).address srcIndex) = x.2 := h.chain.2.1
          have hstate : x.2.state = itemDroped := (h.known x List.mem_cons_self).resolve_left hlive
          conv_lhs => unfold sectorCopyLoop
          rw [if_pos (show srcIndex < entryCount by simp only [entryCount]; omega)]
          simp only [hread, hstate, if_true]
        · exact ⟨hc.loc, by rw [liveItems_cons_dead hlive]; exact hc.packed,
            by rw [liveItems_cons_dead hlive, recordsOf_cons_dead hlive]; exact hc.records, hc.state, hc.droped⟩

/-- `wm_nvs_sector_copy` of a packed sector into an empty one. -/
theorem sectorCopy_spec {P : Port} {dst src : Nat} {L : List Entry} {st : Store}
    (hsrc : Packed P st.flash (st.secArr src) L) (hdst : Packed P st.flash (st.secArr dst) [])
    (hne : dst ≠ src)
    (hdisj : (st.secArr dst).address + 4096 ≤ (st.secArr src).address ∨
      (st.secArr src).address + 4096 ≤ (st.secArr dst).address)
    (hsd : (st.secArr dst).address + 4096 ≤ st.size) (hss : (st.secArr src).address + 4096 ≤ st.size) :
    ∃ st', sectorCopy P st dst src = (.ok, st') ∧ Local dst st st' ∧
      Packed P st'.flash (st'.secArr dst) (placed 0 (liveItems L)) ∧
      recordsOf st'.flash (st.secArr dst).address (placed 0 (liveItems L)) =
        recordsOf st.flash (st.secArr src).address L ∧
      (st'.secArr dst).state = (st.secArr dst).state ∧
      (st'.secArr dst).dropedSlice = (st.secArr dst).dropedSlice := by
  have hzero : (st.secArr dst).nextFreeSlice = 0 := hdst.chain.symm
  have hcopy : Copying P dst src 0 L [] st :=
    ⟨hsrc.chain, hsrc.fits, hsrc.known, hsrc.tail, hdst, by omega, hne, hdisj, hsd, hss⟩
  obtain ⟨st', hrun, hc⟩ := sectorCopyLoop_spec entryCount hcopy (by simp)
  rw [hzero] at hrun
  refine ⟨st', hrun, hc.loc, ?_, ?_, hc.state, hc.droped⟩
  · simpa only [hzero, List.nil_append] using hc.packed
  · simpa only [hzero, List.nil_append, recordsOf, List.filter_nil, List.map_nil] using hc.records

end WmIot.Nvs
