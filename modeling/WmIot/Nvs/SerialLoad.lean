import WmIot.Nvs.SectorRuns
import WmIot.Nvs.SerialOrder

/-!
# Serial numbers over runs

`sm_load_sectors` on any image sorts the sectors by the numbers in their headers. From there on
activations, collections, the recovery steps and the writes between them keep the order, as long as
the counter of the manager does not wrap and no copy runs over the end of its sector.
-/

namespace WmIot.Nvs
open NorFlash Transition
set_option autoImplicit false

/-! ## What a load makes of a header -/

section Header
variable {P : Port} {flash : Flash} {st : Store} {s t : Nat}

/-- A header in a state that the source has no name for is taken, but not scanned. -/
theorem sectorLoad_unscanned (hr : ¬ HeaderRefused P st.flash (s * sectionSize))
    (ha : ¬ HeaderAccepted P st.flash (s * sectionSize)) : sectorLoad P st s = st.setSec s (loadStart st s) := by
  unfold HeaderRefused at hr
  simp only [not_or, not_not] at hr
  obtain ⟨hu, hmagic, hcrc, hver, _, _⟩ := hr
  have hstate : ¬ ((readHeader st.flash (s * sectionSize)).state = sectorFull ∨
      (readHeader st.flash (s * sectionSize)).state = sectorUsing ∨
      (readHeader st.flash (s * sectionSize)).state = sectorDeletting) :=
    fun hs => ha ⟨hs, hmagic, hcrc, hver⟩
  have hok : ¬ ((readHeader st.flash (s * sectionSize)).magic ≠ sectorMagic ∨
      (readHeader st.flash (s * sectionSize)).crc32 ≠
        sectorCrc32 P (readHeader st.flash (s * sectionSize)).serialNumber
          (readHeader st.flash (s * sectionSize)).version
          (readHeader st.flash (s * sectionSize)).reserve2) := by
    rintro (hm | hm)
    · exact hm hmagic
    · exact hm hcrc
  unfold sectorLoad
  simp only
  rw [if_neg hu, if_neg hok, if_neg (not_not_intro hver)]
  simp only [setSec_self]
  rw [if_neg hstate]
  rfl

/-- Without a scan there are no lookups. -/
theorem sectorLoad_hash_of_refused (hr : HeaderRefused P st.flash (s * sectionSize)) :
    ((sectorLoad P st s).secArr s).hash = [] := by
  have hcrash : ¬ (sectorCrash = sectorFull ∨ sectorCrash = sectorUsing ∨ sectorCrash = sectorDeletting) := by
    decide
  have hdead : ∀ {b : Byte}, b = sectorUninit ∨ b = sectorCrash ∨ b = sectorInvalid →
      ¬ (b = sectorFull ∨ b = sectorUsing ∨ b = sectorDeletting) := by
    rintro b (rfl | rfl | rfl) <;> decide
  unfold HeaderRefused at hr
  unfold sectorLoad sectorCheckEmpty
  simp only
  split
  · rename_i hu
    split
    · simp only [setSec_self]
      rw [if_neg (hdead (Or.inl hu)), setSec_self]
    · simp only [setSec_self]
      rw [if_neg hcrash, setSec_self]
  · rename_i hu
    split
    · simp only [setSec_self]
      rw [if_neg hcrash, setSec_self]
    · rename_i hmagic
      split
      · simp only [setSec_self]
        rw [if_neg hcrash, setSec_self]
      · rename_i hver
        simp only [setSec_self]
        rw [if_neg, setSec_self]
        apply hdead
        rcases hr with hr | hr | hr | hr | hr | hr
        · exact Or.inl hr
        · exact absurd (Or.inl hr) hmagic
        · exact absurd (Or.inr hr) hmagic
        · exact absurd hr hver
        · exact Or.inr (Or.inl hr)
        · exact Or.inr (Or.inr hr)

theorem dropTorn_header (addr : Nat) (L : List Entry) (f : Flash) :
    AgreeOn (L.foldl (dropTorn P addr) f) f addr (addr + 32) := by
  induction L generalizing f with
  | nil => exact AgreeOn.refl _ _ _
  | cons x L ih =>
    rw [List.foldl_cons]
    apply (ih _).trans
    unfold dropTorn
    split
    · apply AgreeOn.program
      simp only [sliceAddr, sliceSize]
      omega
    · exact AgreeOn.refl _ _ _

theorem count_inside (L : List Entry) (sec : Sector) (hL : ∀ x ∈ L, x.1 < 127) (h : sec.HashInside) :
    (L.foldl (Sector.count P) sec).HashInside ∧
      (L.foldl (Sector.count P) sec).serialNumber = sec.serialNumber := by
  induction L generalizing sec with
  | nil => exact ⟨h, rfl⟩
  | cons x L ih =>
    rw [List.foldl_cons]
    have hx : (sec.count P x).HashInside ∧ (sec.count P x).serialNumber = sec.serialNumber := by
      unfold Sector.count
      split
      · split
        · exact ⟨hashAppend_inside (hL x List.mem_cons_self) h, rfl⟩
        · exact ⟨h, rfl⟩
      split <;> exact ⟨h, rfl⟩
    obtain ⟨hin, hnum⟩ := ih (sec.count P x) (fun y hy => hL y (List.mem_cons_of_mem x hy)) hx.1
    exact ⟨hin, hnum.trans hx.2⟩

/-- A sector after its load from `flash`. -/
structure LoadedHeader (P : Port) (flash : Flash) (st : Store) (t : Nat) : Prop where
  header : AgreeOn st.flash flash (t * sectionSize) (t * sectionSize + 32)
  address : (st.secArr t).address = t * sectionSize
  hash : (st.secArr t).HashInside
  refused : HeaderRefused P flash (t * sectionSize) → (st.secArr t).Dead
  taken : ¬ HeaderRefused P flash (t * sectionSize) → ¬ (st.secArr t).Dead ∧
    (st.secArr t).serialNumber = headerSerial flash (t * sectionSize)
  fresh : (st.secArr t).state = sectorUninit → BlankOn st.flash (t * sectionSize) (t * sectionSize + 32)

theorem HeaderAccepted.not_refused {addr : Nat} (h : HeaderAccepted P flash addr) :
    ¬ HeaderRefused P flash addr := fun hr => hr.not_accepted h

theorem not_dead_of_taken (h : ¬ HeaderRefused P flash (t * sectionSize)) {sec : Sector}
    (hs : sec.state = (readHeader flash (t * sectionSize)).state) : ¬ sec.Dead := by
  unfold HeaderRefused at h
  simp only [not_or] at h
  unfold Sector.Dead
  rw [hs]
  rintro (hd | hd | hd)
  · exact h.1 hd
  · exact h.2.2.2.2.1 hd
  · exact h.2.2.2.2.2 hd

theorem sectorLoad_header (hsec : st.secArr t = {}) : LoadedHeader P st.flash (sectorLoad P st t) t := by
  have haddr := sectorLoad_address P st t
  by_cases ha : HeaderAccepted P st.flash (t * sectionSize)
  · obtain ⟨hload, hflash⟩ := sectorLoad_sector ha
    have hother := count_other (P := P) (walk st.flash (t * sectionSize) (entryCount + 1) 0) (loadStart st t)
    obtain ⟨hin, hnum⟩ := count_inside (P := P) (walk st.flash (t * sectionSize) (entryCount + 1) 0)
      (loadStart st t) (fun x hx => (walk_mem hx).2.1) (fun _ hn => absurd hn List.not_mem_nil)
    have hstate : ((sectorLoad P st t).secArr t).state = (readHeader st.flash (t * sectionSize)).state := by
      rw [hload]
      exact hother.1
    have hdead : ¬ ((sectorLoad P st t).secArr t).Dead := not_dead_of_taken ha.not_refused hstate
    refine ⟨?_, haddr, ?_, fun hr => absurd ha hr.not_accepted, fun _ => ⟨hdead, ?_⟩,
      fun hu => absurd (Or.inl hu) hdead⟩
    · rw [hflash]
      exact dropTorn_header _ _ _
    · rw [hload]
      exact hin
    · rw [hload]
      exact hnum
  · obtain ⟨sec, heq, _, hdead, hfresh⟩ := sectorLoad_refused ha
    have hself : (sectorLoad P st t).secArr t = sec := by rw [heq, setSec_self]
    have hflash : (sectorLoad P st t).flash = st.flash := by rw [heq, setSec_flash]
    have hhash : ((sectorLoad P st t).secArr t).hash = [] := by
      by_cases hr : HeaderRefused P st.flash (t * sectionSize)
      · exact sectorLoad_hash_of_refused hr
      · rw [sectorLoad_unscanned hr ha, setSec_self]
        rfl
    refine ⟨?_, haddr, ?_, ?_, ?_, ?_⟩
    · rw [hflash]
      exact AgreeOn.refl _ _ _
    · intro x hx
      rw [hhash] at hx
      exact absurd hx List.not_mem_nil
    · rw [hself]
      exact hdead
    · intro hr
      rw [sectorLoad_unscanned hr ha, setSec_self]
      exact ⟨not_dead_of_taken hr rfl, rfl⟩
    · rw [hself, hflash]
      exact fun hu => (hfresh hu).mono (Nat.le_refl _) (by omega)

theorem readHeader_agree {f g : Flash} {addr : Nat} (h : AgreeOn f g addr (addr + 32)) :
    readHeader f addr = readHeader g addr := by
  rw [SameHeader.readHeader (.of_agree h), h (addr + 2) (by omega) (by omega)]
  rfl

theorem LoadedAt.loadedHeader (h : LoadedAt P flash st t) : LoadedHeader P flash st t := by
  obtain ⟨st₀, hsec, hf, hsame⟩ := h
  have hl := sectorLoad_header (P := P) hsec
  have hflash := hsame.flash
  rw [hl.address] at hflash
  have hfirst := hflash.mono (Nat.le_refl _) (show t * sectionSize + 32 ≤ t * sectionSize + 4096 by omega)
  have hstart := hf.mono (Nat.le_refl _) (show t * sectionSize + 32 ≤ t * sectionSize + 4096 by omega)
  have hread := readHeader_agree hstart
  have hrefused : HeaderRefused P flash (t * sectionSize) ↔ HeaderRefused P st₀.flash (t * sectionSize) := by
    unfold HeaderRefused
    rw [hread]
  refine ⟨(hfirst.symm.trans hl.header).trans hstart.symm, ?_, ?_, ?_, ?_, ?_⟩
  · rw [hsame.secArr]
    exact hl.address
  · rw [hsame.secArr]
    exact hl.hash
  · rw [hsame.secArr]
    exact fun hr => hl.refused (hrefused.mp hr)
  · intro hr
    obtain ⟨hdead, hnum⟩ := hl.taken fun hr' => hr (hrefused.mpr hr')
    rw [hsame.secArr]
    refine ⟨hdead, hnum.trans ?_⟩
    unfold headerSerial
    rw [hread]
  · rw [hsame.secArr]
    exact fun hu => hfirst.symm.blankOn (hl.fresh hu)

end Header

/-! ## Sorting -/

section Sorting
variable {P : Port} {flash : Flash} {n k : Nat} {st : Store} {s t : Nat}

/-- The insertion loop keeps a sorted list sorted. -/
theorem insertBySerial_sorted {secArr : Nat → Sector} {L : List Nat}
    (h : L.Pairwise fun a b => (secArr a).serialNumber ≤ (secArr b).serialNumber) :
    (insertBySerial secArr s L).Pairwise fun a b => (secArr a).serialNumber ≤ (secArr b).serialNumber := by
  induction L with
  | nil => exact List.pairwise_singleton _ _
  | cons e L ih =>
    obtain ⟨he, hL⟩ := List.pairwise_cons.mp h
    unfold insertBySerial
    split
    · rename_i hgt
      refine List.pairwise_cons.mpr ⟨fun b hb => ?_, h⟩
      rcases List.mem_cons.mp hb with rfl | hb
      · exact Nat.le_of_lt hgt
      · exact Nat.le_trans (Nat.le_of_lt hgt) (he b hb)
    · rename_i hle
      refine List.pairwise_cons.mpr ⟨fun b hb => ?_, ih hL⟩
      rcases List.mem_cons.mp ((insertBySerial_perm secArr s L).mem_iff.mp hb) with rfl | hb
      · exact Nat.le_of_not_lt hle
      · exact he b hb

/-- The active list is sorted at every turn of the load. -/
theorem loading_sorted (P : Port) (flash : Flash) (n k : Nat) :
    let st := (List.range k).foldl (smLoadSector P) (Store.unmounted flash n)
    st.active.Pairwise fun a b => (st.secArr a).serialNumber ≤ (st.secArr b).serialNumber := by
  induction k with
  | zero => exact List.Pairwise.nil
  | succ k ih =>
    have hm := mounting_fold P flash n k
    rw [List.range_succ, List.foldl_append]
    simp only [List.foldl_cons, List.foldl_nil]
    generalize (List.range k).foldl (smLoadSector P) (Store.unmounted flash n) = st at *
    have hl := sectorLoad_loads P st k
    have hkeep : st.active.Pairwise fun a b => ((sectorLoad P st k).secArr a).serialNumber ≤
        ((sectorLoad P st k).secArr b).serialNumber := by
      apply ih.imp_of_mem
      have hne : ∀ t ∈ st.active, t ≠ k := by
        intro t ht htk
        have hlt := List.mem_range.mp (hm.perm.mem_iff.mp (List.mem_append_left _ ht))
        omega
      intro a b ha hb hab
      rwa [hl.others a (hne a ha), hl.others b (hne b hb)]
    unfold smLoadSector
    simp only
    split
    · simpa only [hl.active] using hkeep
    · rw [hl.active]
      exact insertBySerial_sorted hkeep

/-- The sectors whose headers are taken, sorted by their numbers. -/
structure Sorted (P : Port) (flash : Flash) (n : Nat) (L : List Nat) : Prop where
  mem : ∀ t, t ∈ L ↔ t < n ∧ ¬ HeaderRefused P flash (t * sectionSize)
  nodup : L.Nodup
  sorted : L.Pairwise fun a b => headerSerial flash (a * sectionSize) ≤ headerSerial flash (b * sectionSize)

theorem loaded_sorted (P : Port) (flash : Flash) (n : Nat) :
    Sorted P flash n ((List.range n).foldl (smLoadSector P) (Store.unmounted flash n)).active := by
  have hm := mounting_fold P flash n n
  have hs := loading_sorted P flash n n
  generalize (List.range n).foldl (smLoadSector P) (Store.unmounted flash n) = st at *
  have hmem : ∀ t, t ∈ st.active ↔ t < n ∧ ¬ HeaderRefused P flash (t * sectionSize) := by
    intro t
    constructor
    · intro ht
      have hlt := List.mem_range.mp (hm.perm.mem_iff.mp (List.mem_append_left _ ht))
      exact ⟨hlt, fun hr => hm.alive t ht ((hm.loaded t hlt).loadedHeader.refused hr)⟩
    · rintro ⟨hlt, hr⟩
      rcases List.mem_append.mp (hm.perm.mem_iff.mpr (List.mem_range.mpr hlt)) with ht | ht
      · exact ht
      · exact absurd (hm.dead t ht) ((hm.loaded t hlt).loadedHeader.taken hr).1
  refine ⟨hmem, (List.nodup_append.mp (hm.perm.nodup_iff.mpr List.nodup_range)).1, ?_⟩
  apply hs.imp_of_mem
  intro a b ha hb hab
  have hnum : ∀ t ∈ st.active, (st.secArr t).serialNumber = headerSerial flash (t * sectionSize) := by
    intro t ht
    obtain ⟨hlt, hr⟩ := (hmem t).mp ht
    exact ((hm.loaded t hlt).loadedHeader.taken hr).2
  rwa [hnum a ha, hnum b hb] at hab

/-- The list after `sm_load_sectors`; where no header is taken, a sector is activated. -/
theorem smLoadSectors_active (P : Port) (flash : Flash) (n : Nat) :
    Sorted P flash n (smLoadSectors P (Store.unmounted flash n)).2.active ∨
      (∀ t < n, HeaderRefused P flash (t * sectionSize)) ∧
        ∃ s, (smLoadSectors P (Store.unmounted flash n)).2.active = [s] := by
  have hs := loaded_sorted P flash n
  unfold smLoadSectors
  rw [show (Store.unmounted flash n).secNum = n from rfl]
  generalize (List.range n).foldl (smLoadSector P) (Store.unmounted flash n) = st at *
  simp only
  split
  · rename_i hnone
    have hnil : st.active = [] := List.getLast?_eq_none_iff.mp hnone
    generalize hrun : smActiveSector { st with serialNumber := 1 } = r
    obtain ⟨err, st'⟩ := r
    rcases smActiveSector_lists hrun with ⟨_, rfl⟩ | ⟨s, _, _, hact⟩
    · exact Or.inl hs
    · right
      refine ⟨fun t ht => ?_, s, hact.trans (by rw [hnil]; rfl)⟩
      by_contra hr
      have hmem := (hs.mem t).mpr ⟨ht, hr⟩
      rw [hnil] at hmem
      exact absurd hmem List.not_mem_nil
  · exact Or.inl hs

/-- No two accepted headers have the same serial number. -/
def DistinctSerials (P : Port) (flash : Flash) (n : Nat) : Prop :=
  ∀ s < n, ∀ t < n, ¬ HeaderRefused P flash (s * sectionSize) → ¬ HeaderRefused P flash (t * sectionSize) →
    headerSerial flash (s * sectionSize) = headerSerial flash (t * sectionSize) → s = t

/-- `sm_load_sectors` on an image whose largest number can still be counted up. -/
theorem smLoadSectors_ordered (hdist : DistinctSerials P flash n)
    (htop : ∀ t < n, ¬ HeaderRefused P flash (t * sectionSize) →
      headerSerial flash (t * sectionSize) + 1 < 2 ^ 32)
    (hrun : smLoadSectors P (Store.unmounted flash n) = (.ok, st)) : Ordered P st := by
  have hm := mounting_fold P flash n n
  have hs := loaded_sorted P flash n
  unfold smLoadSectors at hrun
  rw [show (Store.unmounted flash n).secNum = n from rfl] at hrun
  generalize (List.range n).foldl (smLoadSector P) (Store.unmounted flash n) = st₀ at *
  have hlt : ∀ t ∈ st₀.active, t < n := fun t ht => ((hs.mem t).mp ht).1
  have hh : ∀ t < n, LoadedHeader P flash st₀ t := fun t ht => (hm.loaded t ht).loadedHeader
  have hnum : ∀ t ∈ st₀.active, (st₀.secArr t).serialNumber = headerSerial flash (t * sectionSize) :=
    fun t ht => ((hh t (hlt t ht)).taken ((hs.mem t).mp ht).2).2
  have hintact : ∀ t ∈ st₀.active, HeaderIntact P st₀.flash (t * sectionSize) := by
    intro t ht
    rw [(SameHeader.of_agree (hh t (hlt t ht)).header).intact]
    exact intact_of_not_refused ((hs.mem t).mp ht).2
  have hstrict : st₀.active.Pairwise fun a b => (st₀.secArr a).serialNumber < (st₀.secArr b).serialNumber := by
    apply (hs.sorted.and hs.nodup).imp_of_mem
    intro a b ha hb ⟨hab, hne⟩
    rw [hnum a ha, hnum b hb]
    apply Nat.lt_of_le_of_ne hab
    intro heq
    exact hne (hdist a (hlt a ha) b (hlt b hb) ((hs.mem a).mp ha).2 ((hs.mem b).mp hb).2 heq)
  -- with the counter above all of them the lists are in order
  have hord : ∀ c, (∀ t ∈ st₀.active, (st₀.secArr t).serialNumber < c) → c < 2 ^ 32 →
      Ordered P { st₀ with serialNumber := c } := by
    intro c habove hc
    have hshown : ∀ t ∈ st₀.active, Store.shownSerial P { st₀ with serialNumber := c } t =
        (st₀.secArr t).serialNumber := by
      intro t ht
      rw [hnum t ht, ← (SameHeader.of_agree (hh t (hlt t ht)).header).serial]
      exact if_pos (hintact t ht)
    refine ⟨?_, ?_, ?_, ?_, fun t ht => Or.inr (hintact t ht), hstrict, habove, hc, ?_, ?_,
      fun t ht => Or.inl (hm.dead t ht)⟩
    · rw [hm.secNum]
      exact hm.perm
    · rw [hm.secNum]
      exact fun t ht => (hh t ht).address
    · intro t
      rcases Nat.lt_or_ge t n with ht | ht
      · exact (hh t ht).hash
      · intro x hx
        rw [show (Store.secArr { st₀ with serialNumber := c } t) = {} from (hm.pending t ht).1] at hx
        exact absurd hx List.not_mem_nil
    · rw [hm.secNum]
      exact fun t ht => (hh t ht).fresh
    · apply hstrict.imp_of_mem
      intro a b ha hb hab
      rwa [hshown a ha, hshown b hb]
    · intro t ht
      rw [hshown t ht]
      exact habove t ht
  simp only at hrun
  split at hrun
  · rename_i hnone
    have hnil : st₀.active = [] := List.getLast?_eq_none_iff.mp hnone
    have hone : Ordered P { st₀ with serialNumber := 1 } := by
      apply hord 1 _ (by decide)
      rw [hnil]
      exact fun t ht => absurd ht List.not_mem_nil
    obtain ⟨_, _, _, ha⟩ := hone.activate (show 1 + 1 < 2 ^ 32 by decide) hrun
    exact ha.ordered
  · rename_i last hcur
    obtain rfl := (Prod.mk.inj hrun).2
    have hlast := mem_of_current hcur
    have hsmall : (st₀.secArr last).serialNumber + 1 < 2 ^ 32 := by
      rw [hnum last hlast]
      exact htop last (hlt last hlast) ((hs.mem last).mp hlast).2
    rw [Nat.mod_eq_of_lt hsmall]
    apply hord _ _ hsmall
    intro t ht
    obtain ⟨L, hL⟩ := List.getLast?_eq_some_iff.mp hcur
    have hp := hstrict
    rw [hL] at hp ht
    rcases List.mem_append.mp ht with ht | ht
    · exact Nat.lt_succ_of_lt ((List.pairwise_append.mp hp).2.2 t ht last (List.mem_singleton_self last))
    · rw [List.mem_singleton.mp ht]
      exact Nat.lt_succ_self _

end Sorting

/-! ## A reload -/

/-- The active list after a power cycle. -/
def Store.reloaded (P : Port) (st : Store) : List Nat :=
  (smLoadSectors P (Store.unmounted st.flash st.secNum)).2.active

/-- The order of the active sectors, in RAM and on flash. -/
structure InOrder (P : Port) (st : Store) : Prop where
  increasing : st.active.Pairwise fun s t => (st.secArr s).serialNumber < (st.secArr t).serialNumber
  above : ∀ t ∈ st.active, (st.secArr t).serialNumber < st.serialNumber
  split : (st.active ++ st.idle).Perm (List.range st.secNum)
  headers : ∀ t ∈ st.active, HeaderWhole P st.flash t
  kept : ∀ t ∈ st.active, ¬ HeaderRefused P st.flash (t * sectionSize) → t ∈ st.reloaded P
  reload : (st.reloaded P).filter (· ∈ st.active) = st.active.filter (· ∈ st.reloaded P)

section Reload
variable {P : Port} {st : Store}

theorem Sorted.reloaded (h : Ordered P st) {L : List Nat} (hs : Sorted P st.flash st.secNum L) :
    L.filter (· ∈ st.active) = st.active.filter (· ∈ L) := by
  have hnodup := (List.nodup_append.mp h.nodup).1
  have hserial : ∀ t ∈ L, st.shownSerial P t = headerSerial st.flash (t * sectionSize) :=
    fun t ht => if_pos (intact_of_not_refused ((hs.mem t).mp ht).2)
  have hperm : (L.filter (· ∈ st.active)).Perm (st.active.filter (· ∈ L)) := by
    apply (List.perm_ext_iff_of_nodup (hs.nodup.filter _) (hnodup.filter _)).mpr
    intro t
    simp only [List.mem_filter, decide_eq_true_eq]
    exact and_comm
  have hleft : (L.filter (· ∈ st.active)).Pairwise fun a b => st.shownSerial P a ≤ st.shownSerial P b := by
    apply (hs.sorted.filter _).imp_of_mem
    intro a b ha hb hab
    rwa [hserial a (List.mem_of_mem_filter ha), hserial b (List.mem_of_mem_filter hb)]
  have hright := (h.shown.filter (· ∈ L)).imp fun hlt => Nat.le_of_lt hlt
  apply hperm.eq_of_pairwise _ hleft hright
  -- two active sectors never show the same number
  intro a b ha hb hab hba
  by_contra hne
  have hmem : a ∈ st.active := by simpa using (List.mem_filter.mp ha).2
  have hb' : b ∈ st.active := List.mem_of_mem_filter hb
  have hp : st.active.Pairwise fun s t => st.shownSerial P s ≠ st.shownSerial P t :=
    h.shown.imp fun hlt => Nat.ne_of_lt hlt
  have : Std.Symm fun s t => st.shownSerial P s ≠ st.shownSerial P t := ⟨fun _ _ hst => hst.symm⟩
  exact hp.forall hmem hb' hne (Nat.le_antisymm hab hba)

theorem Ordered.inOrder (h : Ordered P st) : InOrder P st := by
  have hnodup := (List.nodup_append.mp h.nodup).1
  refine ⟨h.increasing, h.above, h.perm, h.whole, ?_, ?_⟩
  · intro t ht hr
    unfold Store.reloaded
    rcases smLoadSectors_active P st.flash st.secNum with hs | ⟨hall, _⟩
    · exact (hs.mem t).mpr ⟨h.lt_active ht, hr⟩
    · exact absurd (hall t (h.lt_active ht)) hr
  · unfold Store.reloaded
    rcases smLoadSectors_active P st.flash st.secNum with hs | ⟨_, s, hs⟩
    · exact hs.reloaded h
    · rw [hs]
      have hperm : ([s].filter (· ∈ st.active)).Perm (st.active.filter (· ∈ [s])) := by
        apply (List.perm_ext_iff_of_nodup ((List.nodup_singleton s).filter _) (hnodup.filter _)).mpr
        intro t
        simp only [List.mem_filter, decide_eq_true_eq]
        exact and_comm
      by_cases hmem : s ∈ st.active
      · rw [List.filter_cons_of_pos (by simpa using hmem), List.filter_nil] at hperm ⊢
        exact hperm.singleton_eq
      · rw [List.filter_cons_of_neg (by simpa using hmem), List.filter_nil] at hperm ⊢
        exact hperm.nil_eq

end Reload

/-! ## Runs -/

/-- The steps of the sector manager, and the writes and deletions between them. -/
inductive ManagerStep where
  | activate
  | collect (need : Int)
  | checkWrite
  | checkGc
  | keepIdle
  | write (groupId : Byte) (type : NvsType) (key data : List Byte) (segId : Byte)
  | eraseItem (s index : Nat) (it : Item) (eraseHash : Bool)

/-- A sector cannot be taken from an empty list. -/
def settled (r : Err × Store) : Option Store := if r.1 = .fault then none else some r.2

def managerStep (P : Port) (st : Store) : ManagerStep → Option Store
  | .activate => settled (smActiveSector st)
  | .collect need => settled (smGarbageCollection P st need)
  | .checkWrite => some (smCheckImcompleteWrite P st)
  | .checkGc => settled (smCheckImcompleteGc P st)
  | .keepIdle => some (smKeepIdle st)
  | .write groupId type key data segId =>
    st.currentSector.map fun s => (sectorWriteItem P st s groupId type key data segId).2
  | .eraseItem s index it eraseHash =>
    if s ∈ st.active ∧ index < entryCount then some (sectorEraseItem st s index it eraseHash) else none

/-- An activation does not wrap the counter, a copy stays inside its sector. -/
def CountsUp (st : Store) : ManagerStep → Prop
  | .activate => st.serialNumber + 1 < 2 ^ 32
  | .collect need => need ≤ (dirtiestSector st).2 →
    st.serialNumber + 1 < 2 ^ 32 ∧ ∀ d ∈ (dirtiestSector st).1, CopyInto st st.idle d
  | .checkGc => ∀ d ∈ interrupted st, st.serialNumber + 1 < 2 ^ 32 ∧ CopyInto st (recoveryIdle st) d
  | _ => True

/-- A store that `sm_load_sectors` has sorted, from an image with different numbers that meet `ok`. -/
def JustLoaded (P : Port) (ok : Nat → Prop) (st : Store) : Prop :=
  ∃ flash n, DistinctSerials P flash n ∧
    (∀ t < n, ¬ HeaderRefused P flash (t * sectionSize) → ok (headerSerial flash (t * sectionSize))) ∧
    smLoadSectors P (Store.unmounted flash n) = (.ok, st)

section Runs
variable {P : Port} {st st' : Store} {e : ManagerStep}

theorem settled_eq {r : Err × Store} (h : settled r = some st') : r.2 = st' := by
  unfold settled at h
  split at h
  · exact absurd h (by simp)
  · exact Option.some.inj h

theorem Ordered.step (h : Ordered P st) (hok : CountsUp st e) (hs : managerStep P st e = some st') :
    Ordered P st' := by
  cases e with
  | activate =>
    cases hrun : smActiveSector st with
    | mk err st₁ =>
      obtain rfl : st₁ = st' := by
        rw [← settled_eq hs, hrun]
      rcases smActiveSector_lists hrun with ⟨_, rfl⟩ | ⟨_, rfl, _⟩
      · exact h
      · obtain ⟨_, _, _, ha⟩ := h.activate hok hrun
        exact ha.ordered
  | collect need =>
    rw [← settled_eq hs]
    exact h.collect hok
  | checkWrite =>
    obtain rfl := Option.some.inj hs
    exact h.checkWrite
  | checkGc =>
    rw [← settled_eq hs]
    exact h.checkGc hok
  | keepIdle =>
    obtain rfl := Option.some.inj hs
    exact h.keepIdle
  | write groupId type key data segId =>
    obtain ⟨s, hcur, rfl⟩ := Option.map_eq_some_iff.mp hs
    have hmem := mem_of_current hcur
    have hlt := h.lt_active hmem
    exact h.keeps (sectorWriteItem_keeps (h.address s hlt) hlt (h.not_idle hmem) (h.fresh s hlt)
      ((h.above s hmem).trans h.bound) groupId type key data segId)
  | eraseItem s index it eraseHash =>
    simp only [managerStep] at hs
    split at hs
    · rename_i hin
      obtain rfl := Option.some.inj hs
      exact h.keeps (sectorEraseItem_keeps (h.address s (h.lt_active hin.1)) hin.2 it eraseHash)
    · exact absurd hs (by simp)

/-- The active sectors stay in order through every run whose steps count up. -/
theorem active_in_order
    (h : Reached (JustLoaded P fun number => number + 1 < 2 ^ 32) (managerStep P) CountsUp st) :
    InOrder P st := by
  apply Ordered.inOrder
  apply h.invariant
  · rintro st ⟨flash, n, hdist, htop, hrun⟩
    exact smLoadSectors_ordered hdist htop hrun
  · exact fun _ _ _ => Ordered.step

end Runs

/-- A partition of one sector, whose header is put back on the idle list and taken again. -/
theorem active_in_order_again :
    let st := (smLoadSectors testPort (Store.unmounted headerImage 1)).2
    ((smKeepIdle st).idle = [0] ∧ headerSerial headerImage 0 = 0) ∧
      InOrder testPort (smActiveSector (smKeepIdle st)).2 := by
  intro st
  have hacc : ¬ HeaderRefused testPort headerImage 0 := headerImage_sound.accepted.not_refused
  have hserial : headerSerial headerImage 0 = 0 := by decide +kernel
  have hload : smLoadSectors testPort (Store.unmounted headerImage 1) = (.ok, st) := by
    have hok : (smLoadSectors testPort (Store.unmounted headerImage 1)).1 = .ok := by decide +kernel
    rw [← hok]
  have hidle : (smKeepIdle st).idle = [0] := by decide +kernel
  have hcount : (smKeepIdle st).serialNumber + 1 < 2 ^ 32 := by decide +kernel
  clear_value st
  refine ⟨⟨hidle, hserial⟩, active_in_order (P := testPort) ?_⟩
  apply Reached.next (s := smKeepIdle st) (e := .activate) _ hcount
  · unfold managerStep settled smActiveSector
    rw [hidle]
    rfl
  · apply Reached.next (s := st) (e := .keepIdle) _ trivial rfl
    apply Reached.start
    refine ⟨headerImage, 1, ?_, ?_, hload⟩
    · intro s hs t ht _ _ _
      omega
    · intro t ht _
      obtain rfl : t = 0 := by omega
      rw [Nat.zero_mul, hserial]
      decide

/-- One sector with the largest serial number. -/
def topImage : Flash := program (fun _ => blank) 0 (headerBytes testPort 0xFFFFFFFF)

/-- After the largest number the counter starts again at zero, below the sector that is active. -/
theorem not_active_in_order :
    ¬ ∀ (P : Port) (st : Store), Reached (JustLoaded P fun _ => True) (managerStep P) anyStep st → InOrder P st := by
  intro h
  have hok : (smLoadSectors testPort (Store.unmounted topImage 1)).1 = .ok := by decide +kernel
  have hact : (smLoadSectors testPort (Store.unmounted topImage 1)).2.active = [0] := by decide +kernel
  have hcount : (smLoadSectors testPort (Store.unmounted topImage 1)).2.serialNumber = 0 := by decide +kernel
  have hin := h testPort (smLoadSectors testPort (Store.unmounted topImage 1)).2
    (.start ⟨topImage, 1, fun s hs t ht _ _ _ => by omega, fun _ _ _ => trivial, by rw [← hok]⟩)
  have habove := hin.above 0 (by rw [hact]; exact List.mem_singleton_self 0)
  rw [hcount] at habove
  exact absurd habove (Nat.not_lt_zero _)

end WmIot.Nvs
