import WmIot.Nvs.Writer

/-!
# The two sector lists

What the storage operations do to the active and the idle list on any store: a request for a
sector moves sectors between them, everything else leaves them as they are.
-/

namespace WmIot.Nvs
open NorFlash
set_option autoImplicit false

/-- Both lists are the same in the two stores. -/
def SameLists (st st' : Store) : Prop := st'.active = st.active ∧ st'.idle = st.idle

/-- Sectors move between the lists; the active one does not become empty. -/
structure Shuffles (st st' : Store) : Prop where
  perm : (st'.active ++ st'.idle).Perm (st.active ++ st.idle)
  nonempty : st.active ≠ [] → st'.active ≠ []

section Basic
variable {st st₁ st₂ st' : Store}

theorem SameLists.refl (st : Store) : SameLists st st := ⟨rfl, rfl⟩

theorem SameLists.trans (h : SameLists st st₁) (h' : SameLists st₁ st₂) : SameLists st st₂ :=
  ⟨h'.1.trans h.1, h'.2.trans h.2⟩

theorem SameLists.shuffles (h : SameLists st st') : Shuffles st st' where
  perm := by rw [h.1, h.2]
  nonempty := by
    rw [h.1]
    exact id

/-- Going on after a step that succeeded. -/
theorem SameLists.goOn {r : Err × Store} {f : Store → Err × Store} (hr : SameLists st r.2)
    (hf : ∀ st₁, SameLists st₁ (f st₁).2) :
    SameLists st (match r with | (.ok, st) => f st | (err, st) => (err, st)).2 := by
  obtain ⟨e, st₁⟩ := r
  cases e <;> first | exact SameLists.trans hr (hf st₁) | exact hr

/-- Changing the store after a step that failed. -/
theorem SameLists.onFailure {r : Err × Store} {g : Store → Store} (hr : SameLists st r.2)
    (hg : ∀ st₁, SameLists st₁ (g st₁)) :
    SameLists st (match r with | (.ok, st) => (Err.ok, st) | (err, st) => (err, g st)).2 := by
  obtain ⟨e, st₁⟩ := r
  cases e <;> first | exact hr | exact SameLists.trans hr (hg st₁)

theorem Shuffles.refl (st : Store) : Shuffles st st := (SameLists.refl st).shuffles

theorem Shuffles.trans (h : Shuffles st st₁) (h' : Shuffles st₁ st₂) : Shuffles st st₂ where
  perm := h'.perm.trans h.perm
  nonempty := fun hne => h'.nonempty (h.nonempty hne)

end Basic

/-! ## Sector operations -/

section Sector
variable (P : Port) (st : Store) (s : Nat)

theorem sectorErase_lists : SameLists st (sectorErase st s) := ⟨rfl, rfl⟩

theorem sectorInit_lists : SameLists st (sectorInit P st s) := ⟨rfl, rfl⟩

theorem sectorSetState_lists (state : Byte) : SameLists st (sectorSetState st s state) := ⟨rfl, rfl⟩

theorem ptWrite_lists (addr : Nat) (bytes : List Byte) : SameLists st (st.ptWrite addr bytes).2 := by
  unfold Store.ptWrite
  split <;> exact .refl _

theorem sectorEraseItem_lists (index : Nat) (it : Item) (eraseHash : Bool) :
    SameLists st (sectorEraseItem st s index it eraseHash) := by
  unfold sectorEraseItem
  simp only
  split <;> exact ⟨rfl, rfl⟩

theorem readySector_lists : SameLists st (readySector P st s) := by
  unfold readySector
  split
  · exact sectorInit_lists P st s
  · exact .refl st

theorem sectorWriteItemData_lists (it : Item) (extra : Option (List Byte)) (cnt : Nat) :
    SameLists st (sectorWriteItemData st s it extra cnt) := by
  unfold sectorWriteItemData
  cases extra with
  | none => exact ⟨rfl, rfl⟩
  | some data => exact (ptWrite_lists (st.ptWriteRaw _ _) _ data)

theorem sectorWriteItem_lists (g : Byte) (t : NvsType) (key data : List Byte) (segId : Byte) :
    SameLists st (sectorWriteItem P st s g t key data segId).2 := by
  unfold sectorWriteItem
  split
  · exact .refl st
  split
  · exact .refl st
  have hr := readySector_lists P st s
  simp only
  split
  · exact hr
  split
  · exact hr
  · have hw := sectorWriteItemData_lists (readySector P st s) s
      (itemInit P itemUsing g t key (some data) data.length segId)
      (if data.length > 8 then some data else none) (entryCntOf data.length)
    exact hr.trans hw

theorem sectorCopyLoop_lists (dst src n srcIndex dstIndex : Nat) :
    SameLists st (sectorCopyLoop P dst src n srcIndex dstIndex st).2 := by
  induction n generalizing srcIndex dstIndex st with
  | zero => exact .refl st
  | succ n ih =>
    unfold sectorCopyLoop
    split
    · simp only
      split
      · exact ih _ _ _
      split
      · refine SameLists.goOn ?_ fun st₁ => ?_
        · split
          · split
            · exact ⟨rfl, rfl⟩
            · refine SameLists.onFailure ?_ fun st₁ => ?_
              · exact ptWrite_lists (st.ptWriteRaw _ _) _ _
              · exact ⟨rfl, rfl⟩
          · exact ⟨rfl, rfl⟩
        · exact ih (st₁.setSec dst _) _ _
      · exact ⟨rfl, rfl⟩
    · exact .refl st

end Sector

/-! ## Requesting a sector -/

section Request
variable {P : Port} {st st' : Store} {err : Err} {n d : Nat}

theorem smActiveSector_lists (h : smActiveSector st = (err, st')) :
    (err ≠ .ok ∧ st' = st) ∨ ∃ s, err = .ok ∧ st.idle = s :: st'.idle ∧ st'.active = st.active ++ [s] := by
  unfold smActiveSector at h
  split at h
  · obtain ⟨rfl, rfl⟩ := Prod.mk.inj h
    exact Or.inl ⟨by decide, rfl⟩
  · rename_i s rest hidle
    obtain ⟨rfl, rfl⟩ := Prod.mk.inj h
    refine Or.inr ⟨s, rfl, hidle, ?_⟩
    simp only [setSec_active]
    split <;> rfl

theorem shuffles_active {s : Nat} (hidle : st.idle = s :: st'.idle) (hact : st'.active = st.active ++ [s]) :
    Shuffles st st' where
  perm := by rw [hact, hidle, List.append_assoc, List.singleton_append]
  nonempty := by
    intro _
    rw [hact]
    simp

theorem smActiveSector_shuffles (h : smActiveSector st = (err, st')) : Shuffles st st' := by
  rcases smActiveSector_lists h with ⟨_, rfl⟩ | ⟨s, _, hidle, hact⟩
  · exact .refl _
  · exact shuffles_active hidle hact

theorem smNewSector_lists (h : smNewSector P st = (err, st', n)) :
    (err ≠ .ok ∧ st' = st) ∨ (err = .ok ∧ st.idle = n :: st'.idle ∧ st'.active = st.active ++ [n]) := by
  unfold smNewSector at h
  cases hact : smActiveSector st with
  | mk e st₁ =>
    rcases smActiveSector_lists hact with ⟨he, rfl⟩ | ⟨s, rfl, hidle, hactive⟩
    · rw [hact] at h
      left
      cases e <;> first | exact absurd rfl he | (obtain ⟨rfl, h'⟩ := Prod.mk.inj h; exact ⟨he, (Prod.mk.inj h').1.symm⟩)
    · have hcur : st₁.currentSector = some s := by
        rw [Store.currentSector, hactive]
        simp
      simp only [hact, hcur] at h
      obtain ⟨rfl, h'⟩ := Prod.mk.inj h
      obtain ⟨rfl, rfl⟩ := Prod.mk.inj h'
      refine Or.inr ⟨rfl, ?_⟩
      split
      · exact ⟨hidle, hactive⟩
      · exact ⟨hidle, hactive⟩

theorem smFinishCollection_shuffles (hd : d ∈ st.active) (hne : st.active.erase d ≠ []) :
    Shuffles st (smFinishCollection P st n d).2 := by
  have hcopy := sectorCopyLoop_lists P st n d entryCount 0 0
  unfold smFinishCollection sectorCopy
  split
  · rename_i st₁ hrun
    rw [hrun] at hcopy
    obtain ⟨hact, hidle⟩ : SameLists st st₁ := hcopy
    constructor
    · simp only [(sectorErase_lists st₁ d).1, (sectorErase_lists st₁ d).2, hact, hidle]
      rw [← List.append_assoc]
      apply List.perm_append_comm.trans
      exact (List.perm_cons_erase hd).symm.append_right st.idle
    · intro _
      simpa only [(sectorErase_lists st₁ d).1, hact] using hne
  · rename_i hrun
    rw [hrun] at hcopy
    exact hcopy.shuffles

theorem smGarbageCollection_shuffles (need : Int) : Shuffles st (smGarbageCollection P st need).2 := by
  unfold smGarbageCollection
  rcases dirtiestSector_cases st with ⟨d, g, hdirty, hd⟩ | hnone
  · simp only [hdirty]
    split
    · cases hnew : smNewSector P st with
      | mk e r =>
        obtain ⟨st₁, n⟩ := r
        rcases smNewSector_lists hnew with ⟨he, rfl⟩ | ⟨rfl, hidle, hact⟩
        · cases e <;> first | exact absurd rfl he | exact .refl _
        · have hset := sectorSetState_lists st₁ d sectorDeletting
          apply (shuffles_active hidle hact).trans
          apply hset.shuffles.trans
          apply smFinishCollection_shuffles
          · rw [hset.1, hact]
            exact List.mem_append_left _ hd
          · rw [hset.1, hact, List.erase_append_left _ hd]
            simp
    · exact .refl st
  · simp only [hnone]
    split <;> exact .refl st

theorem smRequestSector_shuffles (P : Port) (st : Store) (need : Nat) : Shuffles st (smRequestSector P st need).2 := by
  unfold smRequestSector
  split
  · exact .refl st
  split
  · exact smGarbageCollection_shuffles need
  · exact smActiveSector_shuffles rfl

end Request

/-! ## Storage operations -/

section Storage
variable (P : Port) (st : Store)

theorem eraseSegsLoop_lists (it : Item) (n i : Nat) (err : Err) :
    SameLists st (eraseSegsLoop P it n i err st).2 := by
  induction n generalizing i err st with
  | zero => exact .refl st
  | succ n ih =>
    unfold eraseSegsLoop
    split
    · exact .refl st
    · exact (sectorEraseItem_lists st _ _ _ _).trans (ih _ _ _)

theorem eraseFound_lists (s index : Nat) (it : Item) : SameLists st (eraseFound P st s index it).2 := by
  unfold eraseFound
  split
  · exact (sectorEraseItem_lists st _ _ _ _).trans (eraseSegsLoop_lists P _ it _ _ _)
  · exact sectorEraseItem_lists st _ _ _ _

theorem storageDelItem_lists (g : Byte) (t : NvsType) (key : List Byte) :
    SameLists st (storageDelItem P st g t key).2 := by
  unfold storageDelItem
  split
  · exact .refl st
  · exact eraseFound_lists P st _ _ _

theorem storageWriteBlob_shuffles (fuel : Nat) (w : BlobWrite) :
    Shuffles st (storageWriteBlob P fuel st w).2 := by
  cases hcur : st.currentSector with
  | none =>
    unfold storageWriteBlob
    rw [hcur]
    exact .refl st
  | some s =>
    have hne : st.active ≠ [] := List.ne_nil_of_mem (mem_of_current hcur)
    have hcurrent : ∀ {st₁}, Shuffles st st₁ → ∃ s', st₁.currentSector = some s' := fun h =>
      ⟨_, List.getLast?_eq_some_getLast (h.nonempty hne)⟩
    have hrule : WriterRule P w (fun _ _ _ st₁ => Shuffles st st₁) (fun r => Shuffles st r.2) := by
      refine ⟨id, id, ?_, ?_, ?_⟩
      · intro s n offset st₁ len err st₂ h _ _ _ hrun
        have hw := (sectorWriteItem_lists P st₁ s w.groupId .blobSeg w.key
          ((w.data.drop offset).take len) (w.segId n)).shuffles
        rw [show sectorWriteItem P st₁ s w.groupId .blobSeg w.key ((w.data.drop offset).take len)
          (w.segId n) = (err, st₂) from hrun] at hw
        exact ⟨fun _ => h.trans hw, fun _ => h.trans hw⟩
      · intro s n offset st₁ err st₂ h hrun
        have hr := smRequestSector_shuffles P st₁ sliceSize
        rw [hrun] at hr
        have h₂ := h.trans hr
        obtain ⟨s', hs'⟩ := hcurrent h₂
        exact ⟨fun _ => h₂, fun _ => ⟨s', hs', h₂⟩⟩
      · intro s n st₁ err st₂ h hrun
        have hw := (sectorWriteItem_lists P st₁ s w.groupId .blob w.key
          (descData w.data.length n w.segStart) segIdAny).shuffles
        rw [show sectorWriteItem P st₁ s w.groupId .blob w.key
          (descData w.data.length n w.segStart) segIdAny = (err, st₂) from hrun] at hw
        exact h.trans hw
    apply hrule.write hcur (.refl st)
    intro e st₁ hreq
    have hr := smRequestSector_shuffles P st sliceSize
    rw [hreq] at hr
    obtain ⟨s', hs'⟩ := hcurrent hr
    exact ⟨s', hs', hr⟩

theorem writePlain_shuffles (g : Byte) (t : NvsType) (key data : List Byte) :
    Shuffles st (writePlain P st g t key data).store := by
  unfold writePlain
  split
  · exact .refl st
  · rename_i cur _
    have hw := sectorWriteItem_lists P st cur g t key data segIdAny
    split
    · rename_i st₁ hrun
      rw [hrun] at hw
      have hr := smRequestSector_shuffles P st₁ (nonBlobWriteReqSize t data.length)
      split
      · rename_i st₂ hreq
        rw [hreq] at hr
        have h₂ := hw.shuffles.trans hr
        split
        · exact h₂
        · rename_i cur' _
          rw [Appended.store_ofResult]
          exact h₂.trans (sectorWriteItem_lists P st₂ cur' g t key data segIdAny).shuffles
      · rename_i hreq
        rw [hreq] at hr
        exact hw.shuffles.trans hr
    · rw [Appended.store_ofResult]
      exact hw.shuffles

theorem storageWriteItem_shuffles (fuel : Nat) (g : Byte) (t : NvsType) (key data : List Byte) :
    Shuffles st (storageWriteItem P fuel st g t key data).2 := by
  have hnew : Shuffles st (writeNew P fuel st (findOld P st g key) g t key data).store := by
    unfold writeNew
    split
    · exact .refl st
    split
    · split
      · rw [Appended.store_ofOutcome]
        exact storageWriteBlob_shuffles P st fuel _
      · exact .refl st
    · exact writePlain_shuffles P st g t key data
  unfold storageWriteItem
  simp only
  generalize writeNew P fuel st (findOld P st g key) g t key data = a at hnew
  cases a with
  | running st₁ => exact hnew
  | done err st₁ => exact hnew
  | eraseOld st₁ =>
    cases findOld P st g key with
    | none => exact hnew
    | some old => exact hnew.trans (eraseFound_lists P st₁ _ _ _).shuffles

end Storage

end WmIot.Nvs
