import WmIot.Lib.Transition
import WmIot.Nvs.Headers
import WmIot.Nvs.Lists

/-!
# The order of the active sectors

The active list is sorted by serial number, in RAM and in the headers on flash. Activation appends
with the counter of the manager, so the order lasts as long as the counter does not wrap; a sector
whose header is already written can go back to the idle list and come back with a new number in
RAM only, which is again the largest.
-/

namespace WmIot.Nvs
open NorFlash Transition
set_option autoImplicit false

/-- An idle sector has nothing on it, or it is the next one to be activated and was the last one
in the active list. -/
def Asleep (P : Port) (st : Store) (t : Nat) : Prop :=
  (st.secArr t).Dead ∨ (st.idle.head? = some t ∧ HeaderWhole P st.flash t ∧
    (∀ s ∈ st.active, st.shownSerial P s < st.shownSerial P t) ∧ st.shownSerial P t < st.serialNumber)

/-- The invariant of the two lists. -/
structure Ordered (P : Port) (st : Store) : Prop where
  perm : (st.active ++ st.idle).Perm (List.range st.secNum)
  address : ∀ t < st.secNum, (st.secArr t).address = t * sectionSize
  hash : ∀ t, (st.secArr t).HashInside
  fresh : ∀ t < st.secNum, (st.secArr t).state = sectorUninit →
    BlankOn st.flash (t * sectionSize) (t * sectionSize + 32)
  whole : ∀ t ∈ st.active, HeaderWhole P st.flash t
  increasing : st.active.Pairwise fun s t => (st.secArr s).serialNumber < (st.secArr t).serialNumber
  above : ∀ t ∈ st.active, (st.secArr t).serialNumber < st.serialNumber
  bound : st.serialNumber < 2 ^ 32
  shown : st.active.Pairwise fun s t => st.shownSerial P s < st.shownSerial P t
  shownAbove : ∀ t ∈ st.active, st.shownSerial P t < st.serialNumber
  asleep : ∀ t ∈ st.idle, Asleep P st t

section Lists
variable {P : Port} {st st' : Store} {s : Nat}

theorem Ordered.nodup (h : Ordered P st) : (st.active ++ st.idle).Nodup :=
  h.perm.nodup_iff.mpr List.nodup_range

theorem Ordered.lt_active (h : Ordered P st) (hs : s ∈ st.active) : s < st.secNum :=
  List.mem_range.mp (h.perm.mem_iff.mp (List.mem_append_left _ hs))

theorem Ordered.lt_idle (h : Ordered P st) (hs : s ∈ st.idle) : s < st.secNum :=
  List.mem_range.mp (h.perm.mem_iff.mp (List.mem_append_right _ hs))

theorem Ordered.not_idle (h : Ordered P st) (hs : s ∈ st.active) : s ∉ st.idle :=
  fun hi => (List.nodup_append.mp h.nodup).2.2 s hs s hi rfl

/-- A step that keeps the serial numbers keeps the order. -/
theorem Ordered.keeps (h : Ordered P st) (hk : Keeps P st st') : Ordered P st' := by
  have hshown : ∀ t ∈ st.active, st'.shownSerial P t = st.shownSerial P t :=
    fun t ht => hk.shown t (h.lt_active ht)
  refine ⟨?_, ?_, fun t => hk.hash t (h.hash t), ?_, ?_, ?_, ?_, ?_, ?_, ?_, ?_⟩
  · rw [hk.active, hk.idle, hk.secNum]
    exact h.perm
  · intro t ht
    rw [hk.secNum] at ht
    exact (hk.address t).trans (h.address t ht)
  · intro t ht hu
    rw [hk.secNum] at ht
    obtain ⟨hu₀, hf⟩ := hk.fresh t ht hu
    exact hf.blankOn (h.fresh t ht hu₀)
  · intro t ht
    rw [hk.active] at ht
    exact hk.whole t (h.lt_active ht) (h.whole t ht)
  · rw [hk.active]
    simpa only [hk.serial] using h.increasing
  · intro t ht
    rw [hk.active] at ht
    rw [hk.serial, hk.counter]
    exact h.above t ht
  · rw [hk.counter]
    exact h.bound
  · rw [hk.active]
    apply h.shown.imp_of_mem
    intro s t hs ht hlt
    rwa [hshown s hs, hshown t ht]
  · intro t ht
    rw [hk.active] at ht
    rw [hshown t ht, hk.counter]
    exact h.shownAbove t ht
  · intro t ht
    rw [hk.idle] at ht
    have htlt := h.lt_idle ht
    rcases h.asleep t ht with hd | ⟨hhead, hw, hall, hlt⟩
    · left
      unfold Sector.Dead at hd ⊢
      rwa [hk.asleep t ht]
    · right
      rw [hk.idle, hk.active, hk.counter, hk.shown t htlt]
      refine ⟨hhead, hk.whole t htlt hw, fun s hs => ?_, hlt⟩
      rw [hshown s hs]
      exact hall s hs

end Lists

/-! ## Moving sectors between the lists -/

section Moves
variable {P : Port} {st st₁ : Store} {s d n : Nat} {rest : List Nat}

/-- Erasing a sector that is not in the active list, or leaves it. -/
theorem Ordered.erase (h : Ordered P st) (hd : d < st.secNum) {A I : List Nat}
    (hperm : (A ++ I).Perm (st.active ++ st.idle)) (hsub : A.Sublist st.active) (hout : d ∉ A)
    (hidle : ∀ t ∈ I, t = d ∨ t ∈ st.idle ∧ (st.idle.head? = some t → I.head? = some t)) :
    Ordered P { sectorErase st d with active := A, idle := I } := by
  have hl := sectorErase_local st d
  have haddr := h.address d hd
  have hsec := sectorErase_secArr st d
  have hblank := sectorErase_blank st d
  rw [haddr] at hblank
  have hoff : ∀ t, t ≠ d → AgreeOn (sectorErase st d).flash st.flash (t * sectionSize)
      (t * sectionSize + 32) := by
    intro t ht
    apply hl.agreeOn
    rw [haddr]
    simp only [sectionSize]
    omega
  have hserial : ∀ t, ((sectorErase st d).secArr t).serialNumber = (st.secArr t).serialNumber := by
    intro t
    by_cases ht : t = d
    · rw [ht, hsec]
    · rw [hl.others t ht]
  generalize sectorErase st d = st₁ at *
  have hne : ∀ t ∈ A, t ≠ d := fun t ht hd => hout (hd ▸ ht)
  have hshown : ∀ t, t ≠ d →
      Store.shownSerial P { st₁ with active := A, idle := I } t = st.shownSerial P t :=
    fun t ht => shownSerial_congr (.of_agree (hoff t ht)) (hserial t)
  refine ⟨?_, ?_, ?_, ?_, ?_, ?_, ?_, ?_, ?_, ?_, ?_⟩
  · exact (hperm.trans h.perm).trans (.of_eq (by rw [hl.secNum]))
  · intro t ht
    rcases eq_or_ne t d with rfl | htd
    · exact hl.address.trans haddr
    · exact (congrArg Sector.address (hl.others t htd)).trans (h.address t (by rwa [← hl.secNum]))
  · intro t
    rcases eq_or_ne t d with rfl | htd
    · intro x hx
      rw [hsec] at hx
      exact absurd hx List.not_mem_nil
    · have ho := h.hash t
      rwa [← hl.others t htd] at ho
  · intro t ht hu
    rcases eq_or_ne t d with rfl | htd
    · exact hblank.mono (Nat.le_refl _) (by omega)
    · have hu' : (st.secArr t).state = sectorUninit := by
        rw [← hl.others t htd]
        exact hu
      exact (hoff t htd).blankOn (h.fresh t (by rwa [← hl.secNum]) hu')
  · intro t ht
    exact (h.whole t (hsub.subset ht)).congr (.of_agree (hoff t (hne t ht)))
  · simpa only [hserial] using h.increasing.sublist hsub
  · intro t ht
    have ha := h.above t (hsub.subset ht)
    rw [← hl.serial] at ha
    simpa only [hserial] using ha
  · exact hl.serial.trans_lt h.bound
  · apply (h.shown.sublist hsub).imp_of_mem
    intro a b ha hb hlt
    rwa [hshown a (hne a ha), hshown b (hne b hb)]
  · intro t ht
    rw [hshown t (hne t ht)]
    exact (h.shownAbove t (hsub.subset ht)).trans_eq hl.serial.symm
  · intro t ht
    rcases eq_or_ne t d with rfl | htd
    · left
      have hu : (st₁.secArr t).state = sectorUninit := by rw [hsec]
      exact Or.inl hu
    · rcases hidle t ht with h' | ⟨hti, hhead⟩
      · exact absurd h' htd
      rcases h.asleep t hti with hdead | ⟨hfirst, hw, hall, hlt⟩
      · left
        unfold Sector.Dead at hdead ⊢
        rwa [← hl.others t htd] at hdead
      · right
        refine ⟨hhead hfirst, hw.congr (.of_agree (hoff t htd)), fun a ha => ?_, ?_⟩
        · rw [hshown a (hne a ha), hshown t htd]
          exact hall a (hsub.subset ha)
        · rw [hshown t htd]
          exact hlt.trans_eq hl.serial.symm

/-- An active sector is erased and goes to the end of the idle list. -/
theorem Ordered.retire (h : Ordered P st) (hd : d ∈ st.active) :
    Ordered P { sectorErase st d with active := st.active.erase d, idle := st.idle ++ [d] } := by
  have hnodup := (List.nodup_append.mp h.nodup).1
  apply h.erase (h.lt_active hd) _ List.erase_sublist hnodup.not_mem_erase
  · intro t ht
    rcases List.mem_append.mp ht with ht | ht
    · refine Or.inr ⟨ht, fun hhead => ?_⟩
      rw [List.head?_append, hhead, Option.some_or]
    · exact Or.inl (List.mem_singleton.mp ht)
  · rw [← List.append_assoc]
    apply List.perm_append_comm.trans
    exact (List.perm_cons_erase hd).symm.append_right st.idle

/-- `sm_keep_idle` takes the last active sector, header and all. -/
theorem Ordered.keepIdle (h : Ordered P st) : Ordered P (smKeepIdle st) := by
  unfold smKeepIdle
  split
  · rename_i s hidle hcur
    obtain ⟨L, hL⟩ := List.getLast?_eq_some_iff.mp hcur
    have hnodup := (List.nodup_append.mp h.nodup).1
    rw [hL] at hnodup
    have hs : s ∉ L := fun hs => (List.nodup_append.mp hnodup).2.2 s hs s (List.mem_singleton_self s) rfl
    have herase : st.active.erase s = L := by
      rw [hL, List.erase_append_right _ hs, List.erase_cons_head, List.append_nil]
    have hsub : L.Sublist st.active := hL ▸ List.sublist_append_left L [s]
    have hmem : s ∈ st.active := mem_of_current hcur
    rw [herase]
    refine ⟨?_, h.address, h.hash, h.fresh, fun t ht => h.whole t (hsub.subset ht),
      h.increasing.sublist hsub, fun t ht => h.above t (hsub.subset ht), h.bound, h.shown.sublist hsub,
      fun t ht => h.shownAbove t (hsub.subset ht), ?_⟩
    · have hp := h.perm
      rwa [hidle, List.append_nil, hL] at hp
    · intro t ht
      obtain rfl := List.mem_singleton.mp ht
      refine Or.inr ⟨rfl, h.whole t hmem, fun a ha => ?_, h.shownAbove t hmem⟩
      have hp := h.shown
      rw [hL] at hp
      exact (List.pairwise_append.mp hp).2.2 a ha t (List.mem_singleton_self t)
  · exact h

/-- What activation makes of the lists. The other sectors stay as they are. -/
structure Activated (P : Port) (st : Store) (s : Nat) (rest : List Nat) (st₁ : Store) : Prop where
  ordered : Ordered P st₁
  active : st₁.active = st.active ++ [s]
  idle : st₁.idle = rest
  secNum : st₁.secNum = st.secNum
  flash : ∀ t, t ≠ s → AgreeOn st₁.flash st.flash (t * sectionSize) (t * sectionSize + 4096)

/-- The first idle sector gets the next number and goes to the end of the active list. -/
theorem Ordered.number (h : Ordered P st) (hidle : st.idle = s :: rest) (hwrap : st.serialNumber + 1 < 2 ^ 32)
    (hstate : (st.secArr s).state ≠ sectorCrash ∧ (st.secArr s).state ≠ sectorInvalid) :
    Ordered P { st.setSec s { st.secArr s with serialNumber := st.serialNumber } with
      serialNumber := (st.serialNumber + 1) % 2 ^ 32, idle := rest, active := st.active ++ [s] } := by
  have hsi : s ∈ st.idle := by
    rw [hidle]
    exact List.mem_cons_self
  have hlt := h.lt_idle hsi
  have hne : ∀ t ∈ st.active, t ≠ s := fun t ht hts => h.not_idle ht (hts ▸ hsi)
  have hcount : (st.serialNumber + 1) % 2 ^ 32 = st.serialNumber + 1 := Nat.mod_eq_of_lt hwrap
  rw [hcount]
  have hself : (st.setSec s { st.secArr s with serialNumber := st.serialNumber }).secArr s =
      { st.secArr s with serialNumber := st.serialNumber } := setSec_self ..
  have hother : ∀ t, t ≠ s →
      (st.setSec s { st.secArr s with serialNumber := st.serialNumber }).secArr t = st.secArr t :=
    fun t ht => setSec_other _ _ _ ht
  have hflash : (st.setSec s { st.secArr s with serialNumber := st.serialNumber }).flash = st.flash := rfl
  have hnum : (st.setSec s { st.secArr s with serialNumber := st.serialNumber }).secNum = st.secNum := rfl
  generalize st.setSec s { st.secArr s with serialNumber := st.serialNumber } = st₁ at *
  have hshown : ∀ t, t ≠ s → Store.shownSerial P { st₁ with
      serialNumber := st.serialNumber + 1, idle := rest, active := st.active ++ [s] } t =
        st.shownSerial P t := by
    intro t ht
    refine shownSerial_congr (fun _ _ _ _ => congrFun hflash _) ?_
    exact congrArg Sector.serialNumber (hother t ht)
  have hwhole : HeaderWhole P st.flash s := by
    rcases h.asleep s hsi with hd | ⟨_, hw, _⟩
    · rcases hd with hu | hd | hd
      · exact Or.inl (.of_agree (h.fresh s hlt hu))
      · exact absurd hd hstate.1
      · exact absurd hd hstate.2
    · exact hw
  have hlast : (∀ t ∈ st.active, st.shownSerial P t < Store.shownSerial P { st₁ with
      serialNumber := st.serialNumber + 1, idle := rest, active := st.active ++ [s] } s) ∧
      Store.shownSerial P { st₁ with
        serialNumber := st.serialNumber + 1, idle := rest, active := st.active ++ [s] } s <
          st.serialNumber + 1 := by
    by_cases hintact : HeaderIntact P st.flash (s * sectionSize)
    · -- the header is that of a sector put back: its number is the largest shown
      have hsame : Store.shownSerial P { st₁ with
          serialNumber := st.serialNumber + 1, idle := rest, active := st.active ++ [s] } s =
            st.shownSerial P s := by
        unfold Store.shownSerial
        simp only [hflash, if_pos hintact]
      rw [hsame]
      rcases h.asleep s hsi with hd | ⟨_, _, hall, hbelow⟩
      · rcases hd with hu | hd | hd
        · exact absurd hintact (HeaderUnwritten.not_intact (.of_agree (h.fresh s hlt hu)))
        · exact absurd hd hstate.1
        · exact absurd hd hstate.2
      · exact ⟨hall, Nat.lt_succ_of_lt hbelow⟩
    · have hram : Store.shownSerial P { st₁ with
          serialNumber := st.serialNumber + 1, idle := rest, active := st.active ++ [s] } s =
            st.serialNumber := by
        unfold Store.shownSerial
        simp only [hflash, if_neg hintact, hself]
      rw [hram]
      exact ⟨h.shownAbove, Nat.lt_succ_self _⟩
  refine ⟨?_, ?_, ?_, ?_, ?_, ?_, ?_, hwrap, ?_, ?_, ?_⟩
  · have hp := h.perm
    rw [hidle] at hp
    simpa only [hnum, List.append_assoc, List.singleton_append] using hp
  · intro t ht
    rw [← h.address t (by rwa [← hnum])]
    rcases eq_or_ne t s with rfl | hts
    · change (st₁.secArr t).address = _
      rw [hself]
    · exact congrArg Sector.address (hother t hts)
  · intro t
    change (st₁.secArr t).HashInside
    rcases eq_or_ne t s with rfl | hts
    · rw [hself]
      exact h.hash t
    · have hh := h.hash t
      rwa [← hother t hts] at hh
  · intro t ht hu
    have hu' : (st.secArr t).state = sectorUninit := by
      rcases eq_or_ne t s with rfl | hts
      · rw [show (st₁.secArr t).state = (st.secArr t).state by rw [hself]] at hu
        exact hu
      · rwa [hother t hts] at hu
    rw [hflash]
    exact h.fresh t (by rwa [← hnum]) hu'
  · intro t ht
    rw [hflash]
    rcases List.mem_append.mp ht with ht | ht
    · exact h.whole t ht
    · rw [List.mem_singleton.mp ht]
      exact hwhole
  · apply List.pairwise_append.mpr
    refine ⟨h.increasing.imp_of_mem ?_, List.pairwise_singleton _ _, ?_⟩
    · intro a b ha hb hab
      rwa [hother a (hne a ha), hother b (hne b hb)]
    · intro a ha b hb
      rw [List.mem_singleton.mp hb, hother a (hne a ha), hself]
      exact h.above a ha
  · intro t ht
    rcases List.mem_append.mp ht with ht | ht
    · rw [hother t (hne t ht)]
      exact Nat.lt_succ_of_lt (h.above t ht)
    · rw [List.mem_singleton.mp ht, hself]
      exact Nat.lt_succ_self _
  · apply List.pairwise_append.mpr
    refine ⟨h.shown.imp_of_mem ?_, List.pairwise_singleton _ _, ?_⟩
    · intro a b ha hb hab
      rwa [hshown a (hne a ha), hshown b (hne b hb)]
    · intro a ha b hb
      rw [List.mem_singleton.mp hb, hshown a (hne a ha)]
      exact hlast.1 a ha
  · intro t ht
    rcases List.mem_append.mp ht with ht | ht
    · rw [hshown t (hne t ht)]
      exact Nat.lt_succ_of_lt (h.shownAbove t ht)
    · rw [List.mem_singleton.mp ht]
      exact hlast.2
  · intro t ht
    have hti : t ∈ st.idle := by
      rw [hidle]
      exact List.mem_cons_of_mem s ht
    have hts : t ≠ s := by
      rintro rfl
      have hnodup := (List.nodup_append.mp h.nodup).2.1
      rw [hidle] at hnodup
      exact (List.nodup_cons.mp hnodup).1 ht
    left
    rcases h.asleep t hti with hd | ⟨hhead, _⟩
    · have hdead : (st₁.secArr t).Dead := by
        rw [hother t hts]
        exact hd
      exact hdead
    · rw [hidle] at hhead
      exact absurd (Option.some.inj hhead).symm hts

/-- `sm_active_sector`. -/
theorem Ordered.activate (h : Ordered P st) (hwrap : st.serialNumber + 1 < 2 ^ 32)
    (hrun : smActiveSector st = (.ok, st₁)) : ∃ s rest, st.idle = s :: rest ∧ Activated P st s rest st₁ := by
  unfold smActiveSector at hrun
  split at hrun
  · exact absurd (Prod.mk.inj hrun).1 (by decide)
  rename_i s rest hidle
  obtain rfl := (Prod.mk.inj hrun).2
  have hsi : s ∈ st.idle := by
    rw [hidle]
    exact List.mem_cons_self
  have hs := h.lt_idle hsi
  refine ⟨s, rest, hidle, ?_⟩
  by_cases hbad : (st.secArr s).state = sectorCrash ∨ (st.secArr s).state = sectorInvalid
  · simp only [if_pos hbad]
    have hl := sectorErase_local st s
    have herased : Ordered P (sectorErase st s) := by
      apply h.erase hs (.refl _) (.refl _) fun ha => h.not_idle ha hsi
      exact fun t ht => Or.inr ⟨ht, id⟩
    have hu : ((sectorErase st s).secArr s).state = sectorUninit := by rw [sectorErase_secArr]
    refine ⟨?_, congrArg (· ++ [s]) hl.active, rfl, hl.secNum, fun t ht => ?_⟩
    · apply herased.number (hl.idle.trans hidle) (by rwa [hl.serial])
      rw [hu]
      exact ⟨by decide, by decide⟩
    · apply hl.agreeOn
      rw [h.address s hs]
      simp only [sectionSize]
      omega
  · simp only [if_neg hbad]
    exact ⟨h.number hidle hwrap (not_or.mp hbad), rfl, rfl, rfl, fun t _ => AgreeOn.refl _ _ _⟩

/-- Activation followed by the header of an erased sector. -/
theorem Ordered.newSector (h : Ordered P st) (hwrap : st.serialNumber + 1 < 2 ^ 32)
    (hrun : smNewSector P st = (.ok, st₁, n)) : ∃ rest, st.idle = n :: rest ∧ Activated P st n rest st₁ := by
  unfold smNewSector at hrun
  cases hact : smActiveSector st with
  | mk err st₀ =>
    rw [hact] at hrun
    cases err <;> first | exact absurd (Prod.mk.inj hrun).1 (by decide) | skip
    obtain ⟨s, rest, hidle, ha⟩ := h.activate hwrap hact
    have hcur : st₀.currentSector = some s := by
      rw [Store.currentSector, ha.active, List.getLast?_append, List.getLast?_singleton, Option.some_or]
    simp only [hcur] at hrun
    obtain ⟨rfl, rfl⟩ := Prod.mk.inj (Prod.mk.inj hrun).2
    refine ⟨rest, hidle, ?_⟩
    have hsa : s ∈ st₀.active := mem_of_current hcur
    have hs := ha.ordered.lt_active hsa
    have haddr := ha.ordered.address s hs
    split
    · rename_i hu
      have hk : Keeps P st₀ (sectorInit P st₀ s) :=
        sectorInit_keeps haddr (ha.ordered.not_idle hsa) (ha.ordered.fresh s hs hu)
          ((ha.ordered.above s hsa).trans ha.ordered.bound)
      refine ⟨ha.ordered.keeps hk, hk.active.trans ha.active, hk.idle.trans ha.idle,
        hk.secNum.trans ha.secNum, fun t ht => ?_⟩
      apply AgreeOn.trans _ (ha.flash t ht)
      apply (sectorInit_local P st₀ s).agreeOn
      rw [haddr]
      simp only [sectionSize]
      omega
    · exact ha

end Moves

/-! ## Collections and recovery -/

/-- The items of `src` fit into the first sector of `idle` when they are copied there. -/
def CopyInto (st : Store) (idle : List Nat) (src : Nat) : Prop :=
  ∀ n ∈ idle.head?, CopyInside st.size (n * sectionSize) (src * sectionSize)
    (scan st.flash (src * sectionSize) entryCount entryCount 0) 0

section Collection
variable {P : Port} {st st₁ : Store} {s d n : Nat}

theorem slices_start (addr : Nat) : addr ≤ sliceAddr addr 0 := by
  simp only [sliceAddr]
  omega

theorem Ordered.finish (h : Ordered P st) (hn : n ∈ st.active) (hd : d ∈ st.active) (hne : n ≠ d)
    (hin : CopyInside st.size (n * sectionSize) (d * sectionSize)
      (scan st.flash (d * sectionSize) entryCount entryCount 0) 0) :
    Ordered P (smFinishCollection P st n d).2 := by
  have hp : CopyPlaces st n d := ⟨hne, ⟨h.address n (h.lt_active hn), h.not_idle hn⟩,
    h.address d (h.lt_active hd), h.not_idle hd⟩
  have hk := sectorCopyLoop_keeps (P := P) entryCount hp (Nat.le_refl 0) hin
  unfold smFinishCollection sectorCopy
  split
  · rename_i st₁ hrun
    rw [hrun] at hk
    exact (h.keeps hk).retire (by rwa [hk.active])
  · rename_i hrun
    rw [hrun] at hk
    exact h.keeps hk

theorem Activated.member {rest : List Nat} (ha : Activated P st n rest st₁) : n ∈ st₁.active := by
  rw [ha.active]
  exact List.mem_append_right _ (List.mem_singleton_self n)

/-- `sm_garbage_collection`. -/
theorem Ordered.collect (h : Ordered P st) {need : Int} (hin : need ≤ (dirtiestSector st).2 →
      st.serialNumber + 1 < 2 ^ 32 ∧ ∀ d ∈ (dirtiestSector st).1, CopyInto st st.idle d) :
    Ordered P (smGarbageCollection P st need).2 := by
  unfold smGarbageCollection
  rcases dirtiestSector_cases st with ⟨d, g, hdirty, hd⟩ | hnone
  · simp only [hdirty] at hin ⊢
    split
    · rename_i hgain
      obtain ⟨hwrap, hcopy⟩ := hin hgain
      cases hnew : smNewSector P st with
      | mk err r =>
        obtain ⟨st₁, n⟩ := r
        rcases smNewSector_lists hnew with ⟨he, rfl⟩ | ⟨rfl, _, _⟩
        · cases err <;> first | exact absurd rfl he | exact h
        obtain ⟨rest, hidle, ha⟩ := h.newSector hwrap hnew
        have hsub : d ∈ st₁.active := by
          rw [ha.active]
          exact List.mem_append_left _ hd
        have hne : d ≠ n := by
          rintro rfl
          apply h.not_idle hd
          rw [hidle]
          exact List.mem_cons_self
        have haddr := ha.ordered.address d (ha.ordered.lt_active hsub)
        have hk : Keeps P st₁ (sectorSetState st₁ d sectorDeletting) :=
          sectorSetState_keeps haddr (ha.ordered.not_idle hsub) (by decide)
        apply (ha.ordered.keeps hk).finish (by rw [hk.active]; exact ha.member) (by rwa [hk.active]) hne.symm
        -- neither activation nor the change of state touches the items of the dirtiest sector
        have hscan : scan (sectorSetState st₁ d sectorDeletting).flash (d * sectionSize) entryCount entryCount 0 =
            scan st.flash (d * sectionSize) entryCount entryCount 0 := by
          apply scan_congr
          apply AgreeOn.trans _ ((ha.flash d hne).mono (slices_start _) (Nat.le_refl _))
          rw [sectorSetState_flash, haddr]
          apply AgreeOn.program
          simp only [sliceAddr, sliceSize, List.length_singleton]
          omega
        have hsize : (sectorSetState st₁ d sectorDeletting).size = st.size := by
          rw [Store.size, hk.secNum, ha.secNum, Store.size]
        rw [hscan, hsize]
        apply hcopy d rfl
        rw [hidle]
        rfl
    · exact h
  · simp only [hnone]
    split <;> exact h

/-- The idle list that `sm_check_imcomplete_gc` activates from. -/
def recoveryIdle (st : Store) : List Nat :=
  match st.currentSector with
  | none => st.idle
  | some last => if (st.secArr last).state = sectorUsing then st.idle ++ [last] else st.idle

/-- The sector whose collection was interrupted. -/
def interrupted (st : Store) : Option Nat :=
  st.active.find? fun s => (st.secArr s).state = sectorDeletting

/-- The second half of the recovery, once the unfinished target is erased. -/
theorem Ordered.recollect (h : Ordered P st) (hwrap : st.serialNumber + 1 < 2 ^ 32) (hd : d ∈ st.active)
    (hin : CopyInto st st.idle d) : Ordered P (match smNewSector P st with
      | (.ok, st, newSec) => smFinishCollection P st newSec d
      | (err, st, _) => (err, st)).2 := by
  cases hnew : smNewSector P st with
  | mk err r =>
    obtain ⟨st₁, n⟩ := r
    rcases smNewSector_lists hnew with ⟨he, rfl⟩ | ⟨rfl, _, _⟩
    · cases err <;> first | exact absurd rfl he | exact h
    obtain ⟨rest, hidle, ha⟩ := h.newSector hwrap hnew
    have hne : d ≠ n := by
      rintro rfl
      apply h.not_idle hd
      rw [hidle]
      exact List.mem_cons_self
    apply ha.ordered.finish ha.member _ hne.symm
    · rw [scan_congr _ _ ((ha.flash d hne).mono (slices_start _) (Nat.le_refl _)),
        show st₁.size = st.size by rw [Store.size, ha.secNum, Store.size]]
      apply hin
      rw [hidle]
      rfl
    · rw [ha.active]
      exact List.mem_append_left _ hd

/-- `sm_check_imcomplete_gc`. -/
theorem Ordered.checkGc (h : Ordered P st) (hin : ∀ d ∈ interrupted st,
      st.serialNumber + 1 < 2 ^ 32 ∧ CopyInto st (recoveryIdle st) d) :
    Ordered P (smCheckImcompleteGc P st).2 := by
  unfold smCheckImcompleteGc
  unfold interrupted recoveryIdle at hin
  cases hfind : st.active.find? fun s => (st.secArr s).state = sectorDeletting with
  | none => exact h
  | some d =>
    have hd := List.mem_of_find?_eq_some hfind
    have hdel : (st.secArr d).state = sectorDeletting := by simpa using List.find?_some hfind
    obtain ⟨hwrap, hin⟩ := hin d hfind
    cases hcur : st.currentSector with
    | none => exact h
    | some last =>
      simp only [hcur] at hin ⊢
      by_cases hu : (st.secArr last).state = sectorUsing
      · rw [if_pos hu] at hin
        simp only [if_pos hu]
        have hlast := mem_of_current hcur
        have hne : d ≠ last := by
          rintro rfl
          rw [hdel] at hu
          exact absurd hu (by decide)
        have hl := sectorErase_local st last
        apply (h.retire hlast).recollect
        · rwa [← hl.serial] at hwrap
        · exact (List.mem_erase_of_ne hne).mpr hd
        · intro n hn
          have hoff : AgreeOn (sectorErase st last).flash st.flash (d * sectionSize) (d * sectionSize + 4096) := by
            apply hl.agreeOn
            rw [h.address last (h.lt_active hlast)]
            simp only [sectionSize]
            omega
          have hcopy := hin n hn
          rw [← scan_congr _ _ (hoff.mono (slices_start _) (Nat.le_refl _)), ← hl.size] at hcopy
          exact hcopy
      · rw [if_neg hu] at hin
        simp only [if_neg hu]
        exact h.recollect hwrap hd hin

/-! The check of the last write drops at most one item. -/

theorem findLoop_inside {f : Flash} {sec : Sector} (hs : sec.HashInside) (q : Query) {end_ : Nat}
    (he : end_ ≤ 127) (m : Nat) : ∀ {start : Nat} {out : Item} {i : Nat},
      (findLoop P f sec q end_ m start out).1 = some i → i < 127 := by
  induction m with
  | zero => exact fun h => absurd h (by simp [findLoop])
  | succ m ih =>
    intro start out i h
    unfold findLoop at h
    split at h
    · rename_i hlt
      have hturn : ∀ k, k < 127 → (if (readItem f (sliceAddr sec.address k)).state = itemDroped then
          findLoop P f sec q end_ m (k + (readItem f (sliceAddr sec.address k)).span)
            (readItem f (sliceAddr sec.address k))
        else if (readItem f (sliceAddr sec.address k)).state = itemUsing then
          if q.matches (readItem f (sliceAddr sec.address k)) then
            (some k, readItem f (sliceAddr sec.address k))
          else findLoop P f sec q end_ m (k + (readItem f (sliceAddr sec.address k)).span)
            (readItem f (sliceAddr sec.address k))
        else (none, readItem f (sliceAddr sec.address k))).1 = some i → i < 127 := by
        intro k hk hrun
        split at hrun
        · exact ih hrun
        split at hrun
        · split at hrun
          · exact Option.some.inj hrun ▸ hk
          · exact ih hrun
        · exact absurd hrun (by simp)
      cases hq : q.key with
      | none =>
        simp only [hq] at h
        exact hturn start (by omega) h
      | some key =>
        simp only [hq] at h
        cases hfind : hashFind P sec.hash start (q.probe P key) with
        | none =>
          rw [hfind] at h
          exact absurd h (by simp)
        | some k =>
          rw [hfind] at h
          obtain ⟨node, hnode, rfl⟩ := Option.map_eq_some_iff.mp hfind
          exact hturn _ (hs node (List.mem_of_find?_eq_some hnode)) h
    · exact absurd h (by simp)

theorem sectorFind_inside (hs : (st.secArr s).HashInside) {q : Query} {start i : Nat} {out it : Item}
    (h : sectorFind P st s q start out = (some i, it)) : i < 127 := by
  unfold sectorFind at h
  simp only at h
  split at h
  · exact absurd (Prod.mk.inj h).1 (by simp)
  split at h
  · exact absurd (Prod.mk.inj h).1 (by simp)
  · exact findLoop_inside hs q (Nat.min_le_right _ _) _ (congrArg Prod.fst h)

theorem lastItemLoop_inside (hs : (st.secArr s).HashInside) (m : Nat) :
    ∀ {next : Nat} {last : Option Nat} {it : Item}, (∀ i ∈ last, i < 127) →
      ∀ i ∈ (lastItemLoop P st s m next last it).1, i < 127 := by
  induction m with
  | zero => exact fun hlast => hlast
  | succ m ih =>
    intro next last it hlast
    unfold lastItemLoop
    split
    · exact hlast
    · rename_i k it' hfind
      apply ih
      intro i hi
      obtain rfl := Option.some.inj hi
      exact sectorFind_inside hs hfind

theorem dropOldCopy_keeps (h : Ordered P st) (last lastIndex : Nat) (q : Query) {L : List Nat}
    (hL : ∀ e ∈ L, e < st.secNum) : Keeps P st (dropOldCopy P st last lastIndex q L) := by
  induction L with
  | nil => exact .refl P st
  | cons e L ih =>
    have hrest := ih fun x hx => hL x (List.mem_cons_of_mem e hx)
    unfold dropOldCopy
    split
    · rename_i i old hfind
      split
      · apply sectorEraseItem_keeps (h.address e (hL e List.mem_cons_self))
        unfold sectorFindItem at hfind
        split at hfind
        · rename_i hrun
          obtain ⟨rfl, rfl⟩ := Prod.mk.inj (Option.some.inj hfind)
          exact sectorFind_inside (h.hash e) hrun
        · exact absurd hfind (by simp)
      · exact hrest
    · exact hrest

/-- `sm_check_imcomplete_write`. -/
theorem Ordered.checkWrite (h : Ordered P st) : Ordered P (smCheckImcompleteWrite P st) := by
  apply h.keeps
  unfold smCheckImcompleteWrite
  split
  · exact .refl P st
  rename_i last hcur
  have hlt := h.lt_active (mem_of_current hcur)
  split
  · exact .refl P st
  rename_i lastIndex it hloop
  have hindex : lastIndex < 127 := by
    have hinside : ∀ i ∈ (lastItemLoop P st last (entryCount + 1) 0 none Item.zero).1, i < 127 :=
      lastItemLoop_inside (h.hash last) (entryCount + 1) (by simp)
    rw [hloop] at hinside
    exact hinside lastIndex rfl
  have hcheck : Keeps P st (smCheckItemData P st last lastIndex it).2 := by
    unfold smCheckItemData
    split
    · split
      · exact .refl P st
      · split
        · exact sectorEraseItem_keeps (h.address last hlt) hindex it true
        · exact .refl P st
    · exact .refl P st
  split
  · rename_i st₁ hrun
    rw [hrun] at hcheck
    apply hcheck.trans
    apply dropOldCopy_keeps (h.keeps hcheck)
    exact fun e he => (h.keeps hcheck).lt_active he
  · rename_i hrun
    rw [hrun] at hcheck
    exact hcheck

end Collection

end WmIot.Nvs
