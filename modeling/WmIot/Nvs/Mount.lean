import WmIot.Nvs.Eraser
import WmIot.Nvs.SectorLoad

/-!
# Mounting

`wm_nvs_storage_init` on an image whose sectors are refused or fit: loading sorts the sectors
into the two lists, the two recovery steps and the blob check keep the store tidy.
-/

namespace WmIot.Nvs
open NorFlash
set_option autoImplicit false

/-- Every sector is left alone by a load or holds items that fit. -/
def ImageTidy (P : Port) (flash : Flash) (n : Nat) : Prop :=
  ∀ s < n, ImageFits P flash (s * sectionSize) ∨ HeaderRefused P flash (s * sectionSize)

theorem insertBySerial_perm (secArr : Nat → Sector) (s : Nat) (L : List Nat) :
    (insertBySerial secArr s L).Perm (s :: L) := by
  induction L with
  | nil => exact .refl _
  | cons e L ih =>
    unfold insertBySerial
    split
    · exact .refl _
    · exact (ih.cons e).trans (List.Perm.swap s e L)

/-! ## Loading the sectors -/

/-- The first `k` sectors of `flash` are loaded and on one of the lists. -/
structure Mounting (P : Port) (flash : Flash) (n k : Nat) (st : Store) : Prop
    extends Loading P flash n k st where
  perm : (st.active ++ st.idle).Perm (List.range k)
  alive : ∀ t ∈ st.active, ¬ (st.secArr t).Dead
  dead : ∀ t ∈ st.idle, (st.secArr t).Dead
  groups : st.groupList = []

section Load
variable {P : Port} {flash : Flash} {n k : Nat} {st : Store}

/-- The lists are no part of what is loaded. -/
theorem Loading.of_lists {st' : Store} (h : Loading P flash n k st) (hnum : st'.secNum = st.secNum)
    (hf : st'.flash = st.flash) (hsec : st'.secArr = st.secArr) : Loading P flash n k st' where
  secNum := hnum.trans h.secNum
  pending := by
    rw [hf, hsec]
    exact h.pending
  loaded := by
    intro t ht
    obtain ⟨st₀, h₀, hf₀, hsame⟩ := h.loaded t ht
    exact ⟨st₀, h₀, hf₀, by rw [hsec, hsame.secArr], by rw [hf]; exact hsame.flash⟩

theorem Mounting.start (P : Port) (flash : Flash) (n : Nat) :
    Mounting P flash n 0 (Store.unmounted flash n) where
  toLoading := .start P flash n
  perm := .refl _
  alive := by simp [Store.unmounted]
  dead := by simp [Store.unmounted]
  groups := rfl

theorem Mounting.step (h : Mounting P flash n k st) : Mounting P flash n (k + 1) (smLoadSector P st k) := by
  have hl := sectorLoad_loads P st k
  have hload := h.toLoading.step
  have hout : ∀ t ∈ st.active ++ st.idle, t ≠ k := by
    intro t ht hk
    have hlt := List.mem_range.mp (h.perm.mem_iff.mp ht)
    omega
  have halive : ∀ t ∈ st.active, ¬ ((sectorLoad P st k).secArr t).Dead := by
    intro t ht
    rw [hl.others t (hout t (List.mem_append_left _ ht))]
    exact h.alive t ht
  have hdead : ∀ t ∈ st.idle, ((sectorLoad P st k).secArr t).Dead := by
    intro t ht
    rw [hl.others t (hout t (List.mem_append_right _ ht))]
    exact h.dead t ht
  unfold smLoadSector
  simp only
  split
  · rename_i hs
    refine ⟨hload.of_lists rfl rfl rfl, ?_, ?_, ?_, ?_⟩
    · simp only [hl.active, hl.idle]
      rw [List.range_succ, ← List.append_assoc]
      exact h.perm.append_right [k]
    · simpa only [hl.active] using halive
    · intro t ht
      simp only [hl.idle, List.mem_append, List.mem_singleton] at ht
      rcases ht with ht | rfl
      · exact hdead t ht
      · exact hs
    · exact hl.groups.trans h.groups
  · rename_i hs
    refine ⟨hload.of_lists rfl rfl rfl, ?_, ?_, ?_, ?_⟩
    · simp only [hl.active, hl.idle]
      rw [List.range_succ]
      apply ((insertBySerial_perm _ k st.active).append_right st.idle).trans
      apply (h.perm.cons k).trans
      exact (List.perm_append_singleton k _).symm
    · intro t ht
      simp only [hl.active] at ht
      rcases List.mem_cons.mp ((insertBySerial_perm _ k st.active).mem_iff.mp ht) with rfl | ht
      · exact hs
      · exact halive t ht
    · simpa only [hl.idle] using hdead
    · exact hl.groups.trans h.groups

theorem mounting_fold (P : Port) (flash : Flash) (n k : Nat) :
    Mounting P flash n k ((List.range k).foldl (smLoadSector P) (Store.unmounted flash n)) := by
  induction k with
  | zero => exact .start P flash n
  | succ k ih =>
    rw [List.range_succ, List.foldl_append]
    exact ih.step

theorem Mounting.arranged (h : Mounting P flash n n st) (hi : ImageTidy P flash n) : Arranged P st := by
  have hlt : ∀ t ∈ st.active ++ st.idle, t < n := fun t ht => List.mem_range.mp (h.perm.mem_iff.mp ht)
  refine ⟨h.perm.nodup_iff.mpr List.nodup_range, ?_, ?_, ?_, ?_⟩
  · intro t ht
    rw [h.secNum]
    exact hlt t ht
  · exact fun t ht => (h.loaded t (hlt t ht)).address
  · intro t ht
    have hl := h.loaded t (hlt t (List.mem_append_left _ ht))
    rcases hi t (hlt t (List.mem_append_left _ ht)) with hf | hr
    · obtain ⟨L, hL, _⟩ := hl.fits hf
      exact ⟨L, hL⟩
    · exact absurd (hl.refused hr).1 (h.alive t ht)
  · intro t ht
    have hl := h.loaded t (hlt t (List.mem_append_right _ ht))
    have hd := h.dead t ht
    rcases hi t (hlt t (List.mem_append_right _ ht)) with hf | hr
    · obtain ⟨L, hL, hs⟩ := hl.fits hf
      exfalso
      rcases hd with hd | hd | hd
      · exact hf.accepted.state_ne (Or.inl rfl) (hs.symm.trans hd)
      · exact hL.crash hd
      · exact hL.invalid hd
    · rcases hd with hd | hd
      · exact Or.inr ((hl.refused hr).2 hd)
      · exact Or.inl hd

end Load

/-! ## The check of the last write -/

section Recovery
variable {P : Port} {st st' : Store} {s : Nat}

/-- The last index the first loop finds is that of an item of the sector. -/
theorem InUse.lastItemLoop {L : List Entry} (h : InUse P st s L) (n : Nat) {next : Nat}
    {last : Option Nat} {it it' : Item} {i : Nat} (hnext : Boundary L next)
    (hlast : ∀ j, last = some j → ∃ x ∈ L, x.1 = j)
    (hrun : Nvs.lastItemLoop P st s n next last it = (some i, it')) : ∃ x ∈ L, x.1 = i := by
  induction n generalizing next last it with
  | zero => exact hlast i (Prod.mk.inj hrun).1
  | succ n ih =>
    unfold Nvs.lastItemLoop at hrun
    split at hrun
    · exact hlast i (Prod.mk.inj hrun).1
    · rename_i j jt hfind
      have hf : sectorFindItem P st s queryAny next = some (j, jt) := by
        rw [← found_sectorFind P st s queryAny next it, hfind]
        rfl
      obtain ⟨hm, _, _⟩ := h.find_some (Or.inr hnext) hf
      exact ih (Or.inr ⟨(j, jt), hm, rfl⟩) (fun j' hj => ⟨(j, jt), hm, Option.some.inj hj⟩) hrun

theorem lastItemLoop_nil (h : InUse P st s []) (n : Nat) (it : Item) :
    (Nvs.lastItemLoop P st s n 0 none it).1 = none := by
  cases n with
  | zero => rfl
  | succ n =>
    have hnone : sectorFindItem P st s queryAny 0 = none := h.find (Or.inr (Or.inl rfl))
    rw [← found_sectorFind P st s queryAny 0 it] at hnone
    unfold Nvs.lastItemLoop
    generalize sectorFind P st s queryAny 0 it = r at hnone
    obtain ⟨i, it'⟩ := r
    cases i with
    | none => rfl
    | some i => exact absurd hnone (by simp [found])

theorem Tidy.checkItemData (ht : Tidy P st) (hs : s ∈ st.active) {index : Nat}
    (hx : ∃ x ∈ st.items s, x.1 = index) (it : Item) :
    Thins P st (smCheckItemData P st s index it).2 ∧
      ((smCheckItemData P st s index it).1 = .ok → (smCheckItemData P st s index it).2 = st) := by
  obtain ⟨x, hm, rfl⟩ := hx
  unfold smCheckItemData
  split
  · split
    · exact ⟨.refl ht, fun _ => rfl⟩
    · split
      · exact ⟨ht.erase_thins hs hm it, fun h : Err.fail = Err.ok => absurd h (by decide)⟩
      · exact ⟨.refl ht, fun _ => rfl⟩
  · exact ⟨.refl ht, fun _ => rfl⟩

theorem Tidy.dropOldCopy (ht : Tidy P st) (last lastIndex : Nat) {q : Query} (hq : q.key ≠ none)
    {L : List Nat} (hL : ∀ t ∈ L, t ∈ st.active) : Thins P st (Nvs.dropOldCopy P st last lastIndex q L) := by
  induction L with
  | nil => exact .refl ht
  | cons e L ih =>
    have hrest := ih fun t htL => hL t (List.mem_cons_of_mem e htL)
    have he := hL e List.mem_cons_self
    unfold Nvs.dropOldCopy
    split
    · rename_i i old hfind
      split
      · obtain ⟨M, hM⟩ := ht.active e he
        obtain ⟨hm, _, _⟩ := hM.find_some (Or.inl hq) hfind
        rw [← hM.items_eq] at hm
        exact ht.erase_thins he hm old
      · exact hrest
    · exact hrest

theorem Tidy.checkImcompleteWrite (ht : Tidy P st) : Thins P st (smCheckImcompleteWrite P st) := by
  unfold smCheckImcompleteWrite
  split
  · exact .refl ht
  · rename_i last hcur
    have hs := mem_of_current hcur
    obtain ⟨L, hL⟩ := ht.active last hs
    split
    · exact .refl ht
    · rename_i lastIndex it hloop
      have hx : ∃ x ∈ st.items last, x.1 = lastIndex := by
        rw [hL.items_eq]
        exact hL.lastItemLoop _ (Or.inl rfl) (by simp) hloop
      obtain ⟨hthin, hsame⟩ := ht.checkItemData hs hx it
      split
      · rename_i st₁ hdata
        rw [hdata] at hsame
        obtain rfl : st₁ = st := hsame rfl
        exact ht.dropOldCopy last lastIndex (by simp) fun t h => h
      · rename_i st₁ hdata
        rw [hdata] at hthin
        exact hthin

/-- Behind an empty last sector there is no write to check. -/
theorem checkImcompleteWrite_empty (hcur : st.currentSector = some s) (h : InUse P st s []) :
    smCheckImcompleteWrite P st = st := by
  unfold smCheckImcompleteWrite
  simp only [hcur]
  have hnone := lastItemLoop_nil h (entryCount + 1) Item.zero
  generalize Nvs.lastItemLoop P st s (entryCount + 1) 0 none Item.zero = r at hnone
  obtain ⟨i, it⟩ := r
  obtain rfl : i = none := hnone
  rfl

/-! ## The check of an interrupted collection -/

/-- There is room to finish an interrupted collection. -/
def CanFinish (st : Store) : Prop :=
  st.idle ≠ [] ∨ ∃ last, st.currentSector = some last ∧ (st.secArr last).state = sectorUsing

/-- Filling a fresh sector from `it` and retiring it. -/
theorem Tidy.recollect (ht : Tidy P st) (hs : s ∈ st.active) (hidle : st.idle ≠ []) :
    ∃ st₁ n st₂, smNewSector P st = (.ok, st₁, n) ∧ smFinishCollection P st₁ n s = (.ok, st₂) ∧
      Tidy P st₂ ∧ st₂.idle ≠ [] ∧ st₂.groupList = st.groupList := by
  obtain ⟨n, rest, hrest⟩ := List.exists_cons_of_ne_nil hidle
  obtain ⟨st₁, hnew, ht₁, hact, hid, _, hgr, hu, hready, hsame, _⟩ := ht.newSector hrest
  have hne : n ≠ s := by
    rintro rfl
    apply (List.nodup_append.mp ht.nodup).2.2 n hs n _ rfl
    rw [hrest]
    exact List.mem_cons_self
  have hn₁ : n ∈ st₁.active := by
    rw [hact]
    simp
  have hs₁ : s ∈ st₁.active := by
    rw [hact]
    exact List.mem_append_left _ hs
  obtain ⟨st₂, hfin, ht₂, _, hid₂, _, hgr₂, _⟩ := ht₁.finish hn₁ hs₁ hne hu hready
  refine ⟨st₁, n, st₂, hnew, hfin, ht₂, ?_, hgr₂.trans hgr⟩
  rw [hid₂]
  simp

theorem Tidy.checkImcompleteGc (ht : Tidy P st) (hroom : CanFinish st) :
    Tidy P (smCheckImcompleteGc P st).2 ∧
      (smCheckImcompleteGc P st).2.groupList = st.groupList ∧
      ((smCheckImcompleteGc P st).2.idle ≠ [] ∨ ((smCheckImcompleteGc P st).2 = st ∧
        ∀ t ∈ st.active, (st.secArr t).state ≠ sectorDeletting)) := by
  unfold smCheckImcompleteGc
  split
  · rename_i hnone
    refine ⟨ht, rfl, Or.inr ⟨rfl, fun t hta hs => ?_⟩⟩
    exact List.find?_eq_none.mp hnone t hta (by simpa using hs)
  · rename_i d hsome
    have hd : d ∈ st.active := List.mem_of_find?_eq_some hsome
    have hdel : (st.secArr d).state = sectorDeletting := by simpa using List.find?_some hsome
    obtain ⟨last, hcur⟩ := ht.current
    simp only [hcur]
    have hlast := mem_of_current hcur
    by_cases hu : (st.secArr last).state = sectorUsing
    · -- the unfinished copy is given up first
      have hne : d ≠ last := by
        rintro rfl
        rw [hu] at hdel
        exact absurd hdel (by decide)
      have hde : d ∈ st.active.erase last := (List.mem_erase_of_ne hne).mpr hd
      obtain ⟨ht₀, _⟩ := ht.retire hlast (List.ne_nil_of_mem hde)
      have hact : (retireSector st last).active = st.active.erase last := by
        simp only [retireSector, (sectorErase_local st last).active]
      obtain ⟨st₁, n, st₂, hnew, hfin, ht₂, hid₂, hgr₂⟩ := ht₀.recollect (s := d)
        (by rwa [hact]) (by simp [retireSector])
      simp only [if_pos hu]
      unfold retireSector at hnew
      simp only [hnew, hfin]
      exact ⟨ht₂, hgr₂.trans (sectorErase_local st last).groups, Or.inl hid₂⟩
    · rcases hroom with hidle | ⟨l, hl, hs⟩
      · obtain ⟨st₁, n, st₂, hnew, hfin, ht₂, hid₂, hgr₂⟩ := ht.recollect hd hidle
        simp only [if_neg hu, hnew, hfin]
        exact ⟨ht₂, hgr₂, Or.inl hid₂⟩
      · rw [hcur] at hl
        obtain rfl := Option.some.inj hl
        exact absurd hs hu

end Recovery

/-! ## The two lists after a mount -/

/-- After the sectors are loaded there is an idle one, or the last one is empty or the target
of an interrupted collection. -/
def CanMount (st : Store) : Prop :=
  st.idle ≠ [] ∨ ∃ last, st.currentSector = some last ∧ (st.secArr last).state = sectorUsing ∧
    (st.items last = [] ∨ ∃ t ∈ st.active, (st.secArr t).state = sectorDeletting)

section Lists
variable {P : Port} {flash : Flash} {n : Nat} {st st' : Store} {s : Nat}

theorem Arranged.of_serial (h : Arranged P st) (sn : Nat) : Arranged P { st with serialNumber := sn } where
  nodup := h.nodup
  inRange := h.inRange
  address := h.address
  active := by
    intro t ht
    obtain ⟨L, hL⟩ := h.active t ht
    exact ⟨L, hL.of_lists rfl rfl⟩
  idle := by
    intro t ht
    rcases h.idle t ht with hs | ⟨hu, hd⟩
    · exact Or.inl hs
    · exact Or.inr ⟨hu.of_lists rfl rfl, hd⟩

theorem Mounting.current_empty (h : Mounting P flash n n st) (hi : ImageTidy P flash n)
    (hs : s ∈ st.active) (hempty : st.items s = []) : InUse P st s [] ∧ (st.secArr s).dropedSlice = 0 := by
  have hlt : s < n := List.mem_range.mp (h.perm.mem_iff.mp (List.mem_append_left _ hs))
  have hl := h.loaded s hlt
  obtain ⟨L, hL⟩ := (h.arranged hi).active s hs
  have hu := hL.of_items hempty
  rcases hi s hlt with hf | hr
  · exact ⟨hu, hl.empty hf hu⟩
  · exact absurd (hl.refused hr).1 (h.alive s hs)

/-- What `sm_load_sectors` leads to. -/
theorem smLoadSectors_tidy (hn : 2 ≤ n) (hi : ImageTidy P flash n)
    (h : smLoadSectors P (Store.unmounted flash n) = (.ok, st)) :
    Tidy P st ∧ st.groupList = [] ∧ (st.active ++ st.idle).Perm (List.range n) ∧
      (st.idle = [] → ∀ s ∈ st.active, st.items s = [] →
        InUse P st s [] ∧ (st.secArr s).dropedSlice = 0) := by
  have hm := mounting_fold P flash n n
  have harr := hm.arranged hi
  unfold smLoadSectors at h
  simp only [show (Store.unmounted flash n).secNum = n from rfl] at h
  generalize (List.range n).foldl (smLoadSector P) (Store.unmounted flash n) = st₀ at h hm harr
  split at h
  · rename_i hnone
    have hact : st₀.active = [] := List.getLast?_eq_none_iff.mp hnone
    have hlen := hm.perm.length_eq
    rw [hact, List.nil_append, List.length_range] at hlen
    cases hidle : st₀.idle with
    | nil =>
      rw [hidle, List.length_nil] at hlen
      omega
    | cons d rest =>
      obtain ⟨st₁, hrun, ht, hact₁, hid₁, _, hgr, _⟩ :=
        (harr.of_serial 1).activate hidle
      rw [hrun] at h
      obtain rfl := (Prod.mk.inj h).2
      have hrest : st₁.idle ≠ [] := by
        rw [hid₁]
        rintro rfl
        rw [hidle, List.length_singleton] at hlen
        omega
      refine ⟨ht, hgr.trans hm.groups, ?_, fun hnil => absurd hnil hrest⟩
      have hperm := hm.perm
      rw [hact, hidle] at hperm
      rw [hact₁, hid₁]
      simpa [hact] using hperm
  · rename_i last hcur
    obtain rfl := (Prod.mk.inj h).2
    refine ⟨⟨harr.of_serial _, ?_⟩, hm.groups, hm.perm, ?_⟩
    · exact List.ne_nil_of_mem (mem_of_current hcur)
    · intro _ s hs hempty
      obtain ⟨hu, hd⟩ := hm.current_empty hi hs hempty
      exact ⟨hu.of_lists rfl rfl, hd⟩

theorem smKeepIdle_of_idle (h : st.idle ≠ []) : smKeepIdle st = st := by
  unfold smKeepIdle
  split
  · rename_i hidle _
    exact absurd hidle h
  · rfl

/-- The last sector, empty, becomes the idle one. -/
theorem Tidy.keepIdle (ht : Tidy P st) (hlen : 2 ≤ st.active.length) (hidle : st.idle = [])
    (hcur : st.currentSector = some s) (hu : InUse P st s []) (hd : (st.secArr s).dropedSlice = 0) :
    Tidy P (smKeepIdle st) := by
  have hs := mem_of_current hcur
  have heq : smKeepIdle st = { st with active := st.active.erase s, idle := [s] } := by
    unfold smKeepIdle
    rw [hidle, hcur]
  rw [heq]
  apply ht.rearrange
  · rw [hidle, List.append_nil]
    apply List.perm_append_comm.trans
    exact (List.perm_cons_erase hs).symm
  · rfl
  · exact fun _ _ => rfl
  · intro (hnil : st.active.erase s = [])
    have hle := List.length_erase_of_mem hs
    rw [hnil, List.length_nil] at hle
    omega
  · intro t htm
    obtain ⟨L, hL⟩ := ht.active t (List.mem_of_mem_erase htm)
    exact ⟨L, hL.of_lists rfl rfl⟩
  · intro t htm
    obtain rfl := List.mem_singleton.mp htm
    exact Or.inr ⟨hu.of_lists rfl rfl, hd⟩

theorem smLoad_tidy (hn : 2 ≤ n) (hi : ImageTidy P flash n)
    (hroom : ∀ st, smLoadSectors P (Store.unmounted flash n) = (.ok, st) → CanMount st)
    (h : smLoad P (Store.unmounted flash n) = (.ok, st)) : Tidy P st ∧ st.groupList = [] := by
  unfold smLoad at h
  split at h
  · rename_i st₀ hload
    obtain ⟨ht, hgr, hperm, hempty⟩ := smLoadSectors_tidy hn hi hload
    have hcan := hroom st₀ hload
    have hthin := ht.checkImcompleteWrite
    have hfin : CanFinish (smCheckImcompleteWrite P st₀) := by
      rcases hcan with hidle | ⟨last, hcur, hs, _⟩
      · left
        rwa [hthin.idle]
      · right
        refine ⟨last, ?_, ?_⟩
        · rw [Store.currentSector, hthin.active]
          exact hcur
        · rw [hthin.state, hs]
    obtain ⟨ht₂, hgr₂, hend⟩ := hthin.tidy.checkImcompleteGc hfin
    obtain rfl := (Prod.mk.inj h).2
    rcases hend with hidle | ⟨hsame, hdel⟩
    · rw [smKeepIdle_of_idle hidle]
      exact ⟨ht₂, hgr₂.trans (hthin.groups.trans hgr)⟩
    · by_cases hidle : st₀.idle = []
      · rcases hcan with hne | ⟨last, hcur, _, hlast⟩
        · exact absurd hidle hne
        · have hnil : st₀.items last = [] := by
            rcases hlast with hnil | ⟨t, htm, hst⟩
            · exact hnil
            · apply absurd _ (hdel t (by rwa [hthin.active]))
              rw [hthin.state, hst]
          obtain ⟨hu, hd⟩ := hempty hidle last (mem_of_current hcur) hnil
          rw [hsame, checkImcompleteWrite_empty hcur hu]
          have hlen : 2 ≤ st₀.active.length := by
            have hl := hperm.length_eq
            rw [hidle, List.append_nil, List.length_range] at hl
            omega
          refine ⟨ht.keepIdle hlen hidle hcur hu hd, ?_⟩
          unfold smKeepIdle
          rw [hidle, hcur]
          exact hgr
      · rw [hsame, smKeepIdle_of_idle (by rwa [hthin.idle])]
        exact ⟨hthin.tidy, hthin.groups.trans hgr⟩
  · rename_i err st₀ hne _
    obtain ⟨rfl, rfl⟩ := Prod.mk.inj h
    exact absurd rfl hne

end Lists

/-! ## Groups and blobs -/

section Init
variable {P : Port} {st : Store} {s : Nat}

theorem Tidy.of_groups (ht : Tidy P st) (L : List Group) : Tidy P { st with groupList := L } where
  nodup := ht.nodup
  inRange := ht.inRange
  address := ht.address
  nonempty := ht.nonempty
  active := by
    intro t hta
    obtain ⟨M, hM⟩ := ht.active t hta
    exact ⟨M, hM.of_lists rfl rfl⟩
  idle := by
    intro t hti
    rcases ht.idle t hti with hs | ⟨hu, hd⟩
    · exact Or.inl hs
    · exact Or.inr ⟨hu.of_lists rfl rfl, hd⟩

/-- Loading the groups changes the group list only. -/
theorem loadGroupsLoop_groups (P : Port) (s n index : Nat) (mem : List Bool) (st : Store) :
    ∃ L, (loadGroupsLoop P s n index mem st).2 = { st with groupList := L } := by
  induction n generalizing index mem st with
  | zero => exact ⟨_, rfl⟩
  | succ n ih =>
    conv =>
      enter [1, L, 1, 1]
      whnf
    split
    · exact ⟨_, rfl⟩
    · rename_i i it _
      obtain ⟨L, hL⟩ := ih (i + it.span) mem.tail
        (storageAddGroup st it.data[0] it.name.toList maxKeyLen (mem.headD true)).2
      rw [hL]
      unfold storageAddGroup
      split
      · exact ⟨L, rfl⟩
      · exact ⟨L, rfl⟩

theorem loadGroupsFrom_groups (P : Port) (L : List Nat) (mem : List Bool) (st : Store) :
    ∃ G, loadGroupsFrom P L mem st = { st with groupList := G } := by
  induction L generalizing mem st with
  | nil => exact ⟨_, rfl⟩
  | cons s L ih =>
    unfold loadGroupsFrom
    obtain ⟨G, hG⟩ := loadGroupsLoop_groups P s (entryCount + 1) 0 mem st
    generalize loadGroupsLoop P s (entryCount + 1) 0 mem st = r at hG
    obtain ⟨mem', st'⟩ := r
    obtain rfl : st' = _ := hG
    obtain ⟨G', hG'⟩ := ih mem' { st with groupList := G }
    exact ⟨G', hG'⟩

theorem Tidy.eraseMismatched (ht : Tidy P st) (info : List BlobInfo) (itemIndex : Nat) :
    Thins P st (Nvs.eraseMismatched P info itemIndex st) := by
  induction info generalizing st itemIndex with
  | nil => exact .refl ht
  | cons d info ih =>
    unfold Nvs.eraseMismatched
    split
    · exact ih ht itemIndex
    · simp only
      split
      · rename_i s i it hfind
        obtain ⟨hs, hm, _⟩ := ht.find_keyed (by simp) hfind
        have he := ht.erase_thins hs hm it
        exact he.trans (ih he.tidy i)
      · exact ih ht itemIndex

theorem Tidy.blobCheckMatch (ht : Tidy P st) (info : List BlobInfo) :
    Thins P st (storageBlobCheckMatch P st info).1 := by
  unfold storageBlobCheckMatch
  split
  · exact .refl ht
  · exact ht.eraseMismatched _ _

theorem Tidy.dropOrphansLoop (ht : Tidy P st) (hs : s ∈ st.active) (info : List BlobInfo) (n start : Nat)
    (hstart : Boundary (st.items s) start) : Thins P st (Nvs.dropOrphansLoop P s info n start st) := by
  induction n generalizing start st with
  | zero => exact .refl ht
  | succ n ih =>
    unfold Nvs.dropOrphansLoop
    split
    · exact .refl ht
    · rename_i i it hfind
      obtain ⟨L, hL⟩ := ht.active s hs
      obtain ⟨hm, _, _⟩ := hL.find_some (Or.inr (by rwa [← hL.items_eq])) hfind
      rw [← hL.items_eq] at hm
      have hbound : Boundary (st.items s) (i + it.span) := Or.inr ⟨(i, it), hm, rfl⟩
      split
      · exact ih ht hs _ hbound
      · have he := ht.erase_thins hs hm it
        exact he.trans (ih he.tidy (by rwa [he.active]) _ (he.boundary s hs _ hbound))

theorem Tidy.blobCheck (ht : Tidy P st) : Thins P st (storageBlobCheck P st) := by
  unfold storageBlobCheck
  simp only
  have hmatch := ht.blobCheckMatch (storageBlobInitInfo P st)
  apply hmatch.trans
  exact hmatch.tidy.foldl_thins _ (fun s hs => hs) fun st s ht hs =>
    ht.dropOrphansLoop hs _ _ 0 (Or.inl rfl)

/-- A mount leaves a tidy store. -/
theorem storageInit_tidy {flash : Flash} {n : Nat} (hn : 2 ≤ n) (hi : ImageTidy P flash n)
    (hroom : ∀ st, smLoadSectors P (Store.unmounted flash n) = (.ok, st) → CanMount st)
    {mem : List Bool} (h : storageInit P flash n mem = (.ok, st)) : Tidy P st := by
  unfold storageInit at h
  split at h
  · rename_i st₀ hload
    obtain rfl := (Prod.mk.inj h).2
    obtain ⟨ht, _⟩ := smLoad_tidy hn hi hroom hload
    obtain ⟨G, hG⟩ := loadGroupsFrom_groups P st₀.active mem st₀
    unfold storageLoadGroups
    rw [hG]
    exact (ht.of_groups G).blobCheck.tidy
  · rename_i err st₀ hne _
    obtain ⟨rfl, rfl⟩ := Prod.mk.inj h
    exact absurd rfl hne

end Init

end WmIot.Nvs
