import WmIot.Lib.Crc32
import WmIot.Nvs.SectorLoad

/-!
# Sector accounting over runs

From sound images on, writing to a sector, erasing one of its live items and copying keep the
counters and the hash table those of the content.
-/

namespace WmIot.Nvs
open NorFlash
set_option autoImplicit false

/-! ## Operations on loaded sectors -/

/-- The sector operations that change the accounting. -/
inductive SectorOp where
  | write (s : Nat) (groupId : Byte) (type : NvsType) (key data : List Byte) (segId : Byte)
  | erase (s index : Nat) (it : Item)
  | copy (dst src : Nat)

def SectorOp.run (P : Port) (st : Store) : SectorOp → Store
  | .write s groupId type key data segId => (sectorWriteItem P st s groupId type key data segId).2
  | .erase s index it => sectorEraseItem st s index it true
  | .copy dst src => (sectorCopy P st dst src).2

/-- Erasing takes a live item, copying fills a sector that has a header and no items. -/
def SectorOp.Allowed (S : Nat → Prop) (st : Store) : SectorOp → Prop
  | .write s _ _ _ _ _ => S s
  | .erase s index it => S s ∧ (index, it) ∈ st.items s ∧ it.state = itemUsing
  | .copy dst src => S dst ∧ S src ∧ dst ≠ src ∧ (st.secArr dst).nextFreeSlice = 0 ∧
      (st.secArr dst).state ≠ sectorUninit

/-- The stores a run of allowed operations on the sectors `S` leads to. -/
inductive SectorRun (P : Port) (S : Nat → Prop) : Store → Store → Prop where
  | refl (st : Store) : SectorRun P S st st
  | step {st st' : Store} (h : SectorRun P S st st') (op : SectorOp) (hop : op.Allowed S st') :
      SectorRun P S st (op.run P st')

/-- The sectors of an image that are sound or entirely erased. -/
def SoundSector (P : Port) (flash : Flash) (n s : Nat) : Prop :=
  s < n ∧ (ImageSound P flash (s * sectionSize) ∨
    BlankOn flash (s * sectionSize) (s * sectionSize + 4096))

/-- The sectors `S` are in use with the right counters. -/
structure Counted (P : Port) (n : Nat) (S : Nat → Prop) (st : Store) : Prop where
  secNum : st.secNum = n
  bound : ∀ s, S s → s < n
  sector : ∀ s, S s → ∃ L, InUse P st s L ∧ (st.secArr s).dropedSlice = dropedSpans L ∧
    (st.secArr s).address = s * sectionSize

section Runs
variable {P : Port} {n s : Nat} {S : Nat → Prop} {st st' : Store}

theorem Counted.inSize (h : Counted P n S st) (hs : S s) : (st.secArr s).address + 4096 ≤ st.size := by
  obtain ⟨L, _, _, ha⟩ := h.sector s hs
  have hb := h.bound s hs
  rw [ha, Store.size, h.secNum]
  simp only [sectionSize]
  omega

theorem Counted.of_local (h : Counted P n S st) (hl : Local s st st') (hs : S s)
    (hu : ∃ L, InUse P st' s L ∧ (st'.secArr s).dropedSlice = dropedSpans L) : Counted P n S st' where
  secNum := hl.secNum.trans h.secNum
  bound := h.bound
  sector := by
    obtain ⟨M, _, _, ha⟩ := h.sector s hs
    intro t ht
    by_cases hne : t = s
    · subst hne
      obtain ⟨L, hL, hd⟩ := hu
      exact ⟨L, hL, hd, by rw [hl.address, ha]⟩
    · obtain ⟨L, hL, hd, hat⟩ := h.sector t ht
      have hsame : SameAt st st' t := by
        refine ⟨hl.others t hne, (hl.agreeOn ?_).symm⟩
        rw [ha, hat]
        simp only [sectionSize]
        omega
      exact ⟨L, hsame.inUse hL, by rw [hsame.secArr, hd], by rw [hsame.secArr, hat]⟩

theorem dropedSpans_append_live {L M : List Entry} (h : ∀ x ∈ M, x.Live) :
    dropedSpans (L ++ M) = dropedSpans L := by
  have hnil : M.filter (fun x => x.Droped) = [] := by
    apply List.filter_eq_nil_iff.mpr
    intro x hx hd
    have hs : x.2.state = itemUsing := h x hx
    have hd' : x.2.state = itemDroped := of_decide_eq_true hd
    rw [hd'] at hs
    exact absurd hs (by decide)
  simp [dropedSpans, List.filter_append, hnil]

theorem dropedSpans_markDroped {L : List Entry} {x : Entry} (hx : x ∈ L) (hlive : x.Live)
    (hp : L.Pairwise fun x y => x.1 < y.1) :
    dropedSpans (markDroped x.1 L) = dropedSpans L + x.2.span := by
  induction L with
  | nil => simp at hx
  | cons y L ih =>
    obtain ⟨hy, hL⟩ := List.pairwise_cons.mp hp
    simp only [dropedSpans] at ih ⊢
    rcases List.mem_cons.mp hx with rfl | hx
    · have hne : ∀ z ∈ L, z.1 ≠ x.1 := by
        intro z hz
        have hlt := hy z hz
        omega
      have hnd : ¬ x.Droped := by
        intro hd
        have hs : x.2.state = itemUsing := hlive
        rw [show x.2.state = itemDroped from hd] at hs
        exact absurd hs (by decide)
      have hd : Entry.Droped (x.1, x.2.droped) := state_droped x.2
      rw [markDroped_cons_eq rfl, markDroped_of_ne hne, List.filter_cons_of_pos (by simpa using hd),
        List.filter_cons_of_neg (by simpa using hnd)]
      simp only [spans_cons, span_droped]
      omega
    · have hne : y.1 ≠ x.1 := by
        have hlt := hy x hx
        omega
      rw [markDroped_cons_ne hne, List.filter_cons, List.filter_cons]
      split
      · simp only [spans_cons, ih hx hL]
        omega
      · exact ih hx hL

theorem placed_live {i : Nat} {L : List Entry} : ∀ x ∈ placed i (liveItems L), x.Live := by
  have h : ∀ (its : List Item) (i : Nat), (∀ it ∈ its, it.state = itemUsing) →
      ∀ x ∈ placed i its, x.Live := by
    intro its
    induction its with
    | nil => simp [placed]
    | cons it its ih =>
      intro i hits x hx
      rcases List.mem_cons.mp hx with rfl | hx
      · exact hits it List.mem_cons_self
      · exact ih _ (fun j hj => hits j (List.mem_cons_of_mem it hj)) x hx
  apply h
  intro it hit
  obtain ⟨x, hx, rfl⟩ := List.mem_map.mp hit
  exact of_decide_eq_true (List.mem_filter.mp hx).2

/-- One allowed operation keeps the counters right. -/
theorem Counted.step (h : Counted P n S st) (op : SectorOp) (hop : op.Allowed S st) :
    Counted P n S (op.run P st) := by
  cases op with
  | write s g t key data segId =>
    obtain ⟨L, hL, hd, _⟩ := h.sector s hop
    cases hrun : sectorWriteItem P st s g t key data segId with
    | mk err st' =>
      obtain ⟨hl, _, ⟨M, hM, hlive⟩, _, hdrop⟩ := hL.write (h.inSize hop) hrun
      rw [SectorOp.run, hrun]
      refine h.of_local hl hop ⟨L ++ M, hM, ?_⟩
      rw [dropedSpans_append_live hlive]
      rcases hdrop with hdrop | ⟨hfresh, hdrop⟩
      · rw [hdrop, hd]
      · rw [hdrop, hL.nil_of_fresh hfresh]
        rfl
  | erase s index it =>
    obtain ⟨hs, hmem, hlive⟩ := hop
    obtain ⟨L, hL, hd, _⟩ := h.sector s hs
    rw [hL.items_eq] at hmem
    obtain ⟨hl, hu, _⟩ := hL.erase hmem it
    refine h.of_local hl hs ⟨_, hu, ?_⟩
    have hspans : 0 + spans (markDroped index L) =
        ((sectorEraseItem st s index it true).secArr s).nextFreeSlice := hu.packed.chain.spans_eq
    have hfits : ((sectorEraseItem st s index it true).secArr s).nextFreeSlice ≤ 127 := hu.packed.fits
    have hmark : dropedSpans (markDroped index L) = dropedSpans L + it.span :=
      dropedSpans_markDroped hmem hlive hL.packed.pairwise
    have hsum : dropedSpans (markDroped index L) ≤ spans (markDroped index L) := spans_filter_le _ _
    simp only [SectorOp.run]
    rw [sectorEraseItem_secArr, hmark]
    exact (add8_eq (by omega)).trans (by rw [hd])
  | copy dst src =>
    obtain ⟨hdst, hsrc, hne, hzero, hready⟩ := hop
    obtain ⟨L, hL, _, haL⟩ := h.sector src hsrc
    obtain ⟨M, hM, hd, haM⟩ := h.sector dst hdst
    have hnil : M = [] := by
      have hlen := hM.packed.chain.length_le
      rw [hzero] at hlen
      exact List.length_eq_zero_iff.mp (by omega)
    subst hnil
    have hdisj : (st.secArr dst).address + 4096 ≤ (st.secArr src).address ∨
        (st.secArr src).address + 4096 ≤ (st.secArr dst).address := by
      rw [haL, haM]
      simp only [sectionSize]
      omega
    obtain ⟨st', hrun, hl, hp, _, hstate, hdrop⟩ := sectorCopy_spec hL.packed hM.packed hne hdisj
      (h.inSize hdst) (h.inSize hsrc)
    rw [SectorOp.run, hrun]
    refine h.of_local hl hdst ⟨placed 0 (liveItems L), ⟨hp, ?_, ?_, ?_⟩, ?_⟩
    · rw [hstate]
      exact hM.crash
    · rw [hstate]
      exact hM.invalid
    · rw [hstate]
      exact fun hs => absurd hs hready
    · rw [hdrop, hd]
      exact (dropedSpans_append_live (L := []) placed_live).symm

theorem Counted.run (h : Counted P n S st) (hrun : SectorRun P S st st') : Counted P n S st' := by
  induction hrun with
  | refl => exact h
  | step _ op hop ih => exact ih.step op hop

theorem Counted.accounted (h : Counted P n S st) (hs : S s) : Accounted P st.flash (st.secArr s) := by
  obtain ⟨L, hL, hd, _⟩ := h.sector s hs
  exact hL.packed.accounted hd

theorem loadAll_counted (P : Port) {flash : Flash} (hS : ∀ s, S s → SoundSector P flash n s) :
    Counted P n S (loadAll P flash n) := by
  have hl := loadAll_loading P flash n
  refine ⟨hl.secNum, fun s hs => (hS s hs).1, ?_⟩
  intro s hs
  obtain ⟨hlt, himage⟩ := hS s hs
  have hs := hl.loaded s hlt
  rcases himage with hi | hb
  · obtain ⟨L, hL, hd⟩ := hs.sound hi
    exact ⟨L, hL, hd, hs.address⟩
  · obtain ⟨hu, hd, _⟩ := hs.blank hb
    exact ⟨[], hu, hd, hs.address⟩

end Runs

/-- The accounting of sectors: right after a load exactly when the image is clean, and right over
every run on sectors whose images are sound. The scan ends and reads its sector only. -/
theorem sector_accounting (P : Port) (flash : Flash) (n : Nat) :
    (∀ s, HeaderAccepted P flash (s * sectionSize) →
      (Accounted P (sectorLoad P (Store.unmounted flash n) s).flash
          ((sectorLoad P (Store.unmounted flash n) s).secArr s) ↔
        ScanClean P flash (s * sectionSize))) ∧
    (∀ S : Nat → Prop, (∀ s, S s → SoundSector P flash n s) →
      ∀ st, SectorRun P S (loadAll P flash n) st → ∀ s, S s → Accounted P st.flash (st.secArr s)) ∧
    (∀ st s k, updateSliceLoop P s (entryCount + 1 + k) 0 st = sectorUpdateSliceAndHash P st s) ∧
    (∀ (st : Store) (s : Nat) (g : Flash),
      AgreeOn st.flash g (st.secArr s).address ((st.secArr s).address + 4096) →
      (sectorUpdateSliceAndHash P { st with flash := g } s).secArr s =
        (sectorUpdateSliceAndHash P st s).secArr s) := by
  refine ⟨fun s h => sectorLoad_accounted_iff h, ?_, ?_, fun st s g h => scan_inside P st s g h⟩
  · intro S hS st hrun s hs
    exact ((loadAll_counted P hS).run hrun).accounted hs
  · intro st s k
    induction k with
    | zero => rfl
    | succ k ih =>
      rw [← ih]
      exact updateSliceLoop_ends P s (entryCount + 1 + k) 0 st (by simp only [entryCount]; omega)

/-- The port the runs on fixed images use. -/
def testPort : Port := ⟨Crc32.update, 1⟩

/-- A sector that holds nothing but its header. -/
def headerImage : Flash := program (fun _ => blank) 0 (headerBytes testPort 0)

theorem headerImage_sound : ImageSound testPort headerImage 0 := by
  have hwalk : walk headerImage 0 entryCount 0 = [] := by decide +kernel
  have hend : walkEnd headerImage 0 entryCount 0 = 0 := by decide +kernel
  refine ⟨⟨by decide +kernel, by simp [hwalk], by simp [hwalk], ?_⟩, by simp [hwalk]⟩
  rw [hend]
  intro a hlo hhi
  have hlen : (headerBytes testPort 0).length = 32 := by decide +kernel
  simp only [sliceAddr, sliceSize] at hlo
  exact program_apply_out (by omega)

theorem sector_accounting_header :
    HeaderAccepted testPort headerImage (0 * sectionSize) ∧
      Accounted testPort (sectorLoad testPort (Store.unmounted headerImage 1) 0).flash
        ((sectorLoad testPort (Store.unmounted headerImage 1) 0).secArr 0) ∧
      let st := (SectorOp.write 0 1 .uint8 [0x6b] [1] segIdAny).run testPort (loadAll testPort headerImage 1)
      Accounted testPort st.flash (st.secArr 0) := by
  have hacc : HeaderAccepted testPort headerImage (0 * sectionSize) := by
    rw [Nat.zero_mul]
    exact headerImage_sound.accepted
  obtain ⟨hload, hrun, _⟩ := sector_accounting testPort headerImage 1
  refine ⟨hacc, (hload 0 hacc).mpr ?_, ?_⟩
  · rw [Nat.zero_mul]
    exact headerImage_sound.clean
  · apply hrun (fun s => s = 0) _ _ (.step (.refl _) (.write 0 1 .uint8 [0x6b] [1] segIdAny) rfl) 0 rfl
    rintro s rfl
    refine ⟨by decide, Or.inl ?_⟩
    rw [Nat.zero_mul]
    exact headerImage_sound

/-- A sector with one item in use whose checksum is wrong. -/
def tornImage : Flash :=
  program headerImage 32
    { itemInit testPort itemUsing 1 .uint8 [0x6b] (some [1]) 1 segIdAny with crcItem := 0 }.bytes

/-- A header checksum that fails counts the span as dropped twice. -/
theorem torn_header_counts_twice : HeaderAccepted testPort tornImage 0 ∧
    ¬ Accounted testPort (sectorLoad testPort (Store.unmounted tornImage 1) 0).flash
      ((sectorLoad testPort (Store.unmounted tornImage 1) 0).secArr 0) := by
  have hcount : ((sectorLoad testPort (Store.unmounted tornImage 1) 0).secArr 0).dropedSlice = 2 ∧
      ((sectorLoad testPort (Store.unmounted tornImage 1) 0).secArr 0).usedSlice = 1 := by
    decide +kernel
  refine ⟨by decide +kernel, fun h => ?_⟩
  have hle := h.bounds.1
  omega

end WmIot.Nvs
