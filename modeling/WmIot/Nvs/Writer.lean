import WmIot.Nvs.Storage
import WmIot.Nvs.Collect

/-!
# The writer

What a write does before it erases the old copy: it appends items to the last active sector
and requests sectors. `WriterRule` is the invariant rule for the loop that writes a blob.
-/

namespace WmIot.Nvs
open NorFlash
set_option autoImplicit false

/-! ## An invariant rule for the blob writer -/

/-- `I s n offset st` holds before each turn of the loop, in front of sector `s`, with `n`
segments and `offset` bytes written; `Q` holds where the loop ends or is left running. -/
structure WriterRule (P : Port) (w : BlobWrite) (I : Nat → Nat → Nat → Store → Prop)
    (Q : Outcome → Prop) : Prop where
  running : ∀ {s n offset st}, I s n offset st → Q (none, st)
  stop : ∀ {s n offset st}, I s n offset st → Q (some .noSpace, st)
  seg : ∀ {s n offset st len err st'}, I s n offset st → n < segNumMax → 0 < len →
    offset + len ≤ w.data.length → w.writeSeg P st s n offset len = (err, st') →
      (err = .ok → I s (n + 1) (offset + len) st') ∧ (err ≠ .ok → Q (some err, st'))
  request : ∀ {s n offset st err st'}, I s n offset st → smRequestSector P st sliceSize = (err, st') →
    (err ≠ .ok → Q (some .noSpace, st')) ∧
      (err = .ok → ∃ s', st'.currentSector = some s' ∧ I s' n offset st')
  desc : ∀ {s n st err st'}, I s n w.data.length st →
    storageWriteBlobDesc P st s w.groupId w.key w.data.length n w.segStart = (err, st') →
      Q (some err, st')

section Rule
variable {P : Port} {w : BlobWrite} {I : Nat → Nat → Nat → Store → Prop} {Q : Outcome → Prop}

/-- Requesting the next sector and going on there. -/
theorem WriterRule.next (hr : WriterRule P w I Q) (startSec : Nat) {fuel s n offset : Nat} {st : Store}
    (hgo : ∀ {s st}, I s n offset st → Q (writeBlobLoop P w startSec fuel s n offset st))
    (hI : I s n offset st) :
    Q (match smRequestSector P st sliceSize with
      | (.ok, st) =>
        match st.currentSector with
        | none => (some .fail, st)
        | some s => if s = startSec then (some .noSpace, st)
          else writeBlobLoop P w startSec fuel s n offset st
      | (_, st) => (some .noSpace, st)) := by
  cases hreq : smRequestSector P st sliceSize with
  | mk e st₁ =>
    obtain ⟨hbad, hgood⟩ := hr.request hI hreq
    by_cases he : e = .ok
    · obtain ⟨s', hcur, hI'⟩ := hgood he
      simp only [he, hcur]
      split
      · exact hr.stop hI'
      · exact hgo hI'
    · have hQ := hbad he
      cases e <;> first | exact absurd rfl he | exact hQ

theorem WriterRule.run (hr : WriterRule P w I Q) (startSec : Nat) {fuel s n offset : Nat}
    {st : Store} (hI : I s n offset st) (hoff : offset ≤ w.data.length) :
    Q (writeBlobLoop P w startSec fuel s n offset st) := by
  induction fuel generalizing s n offset st with
  | zero => exact hr.running hI
  | succ fuel ih =>
    unfold writeBlobLoop
    simp only
    split
    · exact hr.stop hI
    rename_i hcap
    split
    · rename_i hleft
      have hn : n < segNumMax := by omega
      split
      · cases hseg : w.writeSeg P st s n offset (w.data.length - offset) with
        | mk e st₁ =>
          obtain ⟨hgood, hbad⟩ := hr.seg hI hn hleft (by omega) hseg
          by_cases he : e = .ok
          · have hI' := hgood he
            have hend : offset + (w.data.length - offset) = w.data.length := by omega
            rw [hend] at hI'
            simp only [he]
            split
            · exact hr.desc hI' rfl
            · exact hr.next startSec (fun hI => ih hI (Nat.le_refl _)) hI'
          · have hQ := hbad he
            cases e <;> first | exact absurd rfl he | exact hQ
      · split
        · rename_i hfit hfree
          simp only [sliceSize, blobMinSegSize] at hfit hfree
          have hlen : 0 < ((st.secArr s).freeSize - sliceSize).toNat ∧
              offset + ((st.secArr s).freeSize - sliceSize).toNat ≤ w.data.length := by
            simp only [sliceSize]
            omega
          cases hseg : w.writeSeg P st s n offset ((st.secArr s).freeSize - sliceSize).toNat with
          | mk e st₁ =>
            obtain ⟨hgood, hbad⟩ := hr.seg hI hn hlen.1 hlen.2 hseg
            by_cases he : e = .ok
            · simp only [he]
              exact hr.next startSec (fun hI => ih hI hlen.2) (hgood he)
            · have hQ := hbad he
              cases e <;> first | exact absurd rfl he | exact hQ
        · exact hr.next startSec (fun hI => ih hI hoff) hI
    · rename_i hleft
      have hend : offset = w.data.length := by omega
      split
      · rw [hend] at hI
        exact hr.desc hI rfl
      · exact hr.next startSec (fun hI => ih hI hoff) hI

/-- The writer with its request in front of the loop. -/
theorem WriterRule.write (hr : WriterRule P w I Q) {fuel s : Nat} {st : Store}
    (hcur : st.currentSector = some s) (hI : I s 0 0 st)
    (hfirst : ∀ {e st₁}, smRequestSector P st sliceSize = (e, st₁) →
      ∃ s', st₁.currentSector = some s' ∧ I s' 0 0 st₁) :
    Q (storageWriteBlob P fuel st w) := by
  unfold storageWriteBlob
  simp only [hcur]
  generalize hst₀ : (if ((st.secArr s).dropedSlice > 0 ∧
    ((w.data.length : Nat) : Int) + sliceSize > (st.secArr s).freeSize) ∨
    w.data.length > (segNumMax - 1) * singleItemMaxDataSize then (smRequestSector P st sliceSize).2
    else st) = st₀
  have hst : ∃ s', st₀.currentSector = some s' ∧ I s' 0 0 st₀ := by
    rw [← hst₀]
    split
    · exact hfirst (e := (smRequestSector P st sliceSize).1) rfl
    · exact ⟨s, hcur, hI⟩
  obtain ⟨s', hcur', hI'⟩ := hst
  simp only [hcur']
  exact hr.run s' hI' (Nat.zero_le _)

end Rule

/-! ## What the writer keeps -/

section Keeps
variable {P : Port} {st st₀ st' : Store} {s : Nat} {g : Byte} {t : NvsType} {key data : List Byte}
  {segId : Byte} {err : Err}

theorem mem_of_current (h : st.currentSector = some s) : s ∈ st.active := List.mem_of_getLast? h

theorem Tidy.current (h : Tidy P st) : ∃ s, st.currentSector = some s :=
  ⟨_, List.getLast?_eq_some_getLast h.nonempty⟩

theorem Tidy.write_grows (ht : Tidy P st) (hs : s ∈ st.active)
    (h : sectorWriteItem P st s g t key data segId = (err, st')) : Grows st st' := by
  obtain ⟨_, hl, hw, hval⟩ := ht.write hs h
  apply ht.grows_local hl hs _ hval
  cases hw with
  | failed _ hitems => exact ⟨[], by rw [hitems, List.append_nil]⟩
  | done _ hitems =>
    obtain ⟨i, hi⟩ := hitems
    exact ⟨_, hi⟩

theorem Requested.current (h : Requested P st st' err) (hcur : st.currentSector = some s) :
    ∃ s', st'.currentSector = some s' := by
  cases h with
  | refused _ hst => exact ⟨s, by rw [hst, hcur]⟩
  | activated n _ hactive => exact ⟨n, by rw [Store.currentSector, hactive]; simp⟩
  | collected n d _ h => exact ⟨n, by rw [Store.currentSector, h.active]; simp⟩

/-- The store somewhere inside a write that began in `st₀`. -/
structure Writing (P : Port) (st₀ : Store) (s : Nat) (st : Store) : Prop where
  tidy : Tidy P st
  grows : Grows st₀ st
  current : st.currentSector = some s

theorem Writing.write (h : Writing P st₀ s st)
    (hrun : sectorWriteItem P st s g t key data segId = (err, st')) : Writing P st₀ s st' := by
  have hs := mem_of_current h.current
  obtain ⟨ht, hl, _, _⟩ := h.tidy.write hs hrun
  refine ⟨ht, h.grows.trans (h.tidy.write_grows hs hrun), ?_⟩
  rw [Store.currentSector, hl.active]
  exact h.current

theorem Writing.request (h : Writing P st₀ s st) {need : Nat} (hneed : 0 < need)
    (hrun : smRequestSector P st need = (err, st')) : ∃ s', Writing P st₀ s' st' := by
  have hr := h.tidy.request hneed hrun
  obtain ⟨s', hs'⟩ := hr.current h.current
  exact ⟨s', hr.tidy h.tidy, h.grows.trans (hr.grows h.tidy), hs'⟩

theorem writing_rule (P : Port) (w : BlobWrite) (st₀ : Store) :
    WriterRule P w (fun s _ _ st => Writing P st₀ s st) (fun r => Tidy P r.2 ∧ Grows st₀ r.2) where
  running := fun h => ⟨h.tidy, h.grows⟩
  stop := fun h => ⟨h.tidy, h.grows⟩
  seg := by
    intro s n offset st len err st' h _ _ _ hrun
    have h' := h.write hrun
    exact ⟨fun _ => h', fun _ => ⟨h'.tidy, h'.grows⟩⟩
  request := by
    intro s n offset st err st' h hrun
    obtain ⟨s', h'⟩ := h.request (by decide) hrun
    exact ⟨fun _ => ⟨h'.tidy, h'.grows⟩, fun _ => ⟨s', h'.current, h'⟩⟩
  desc := by
    intro s n st err st' h hrun
    have h' := h.write hrun
    exact ⟨h'.tidy, h'.grows⟩

/-- The store a write leaves behind before the old copy is erased. -/
def Appended.store : Appended → Store
  | .done _ st => st
  | .eraseOld st => st
  | .running st => st

theorem Appended.store_ofResult (r : Err × Store) : (Appended.ofResult r).store = r.2 := by
  obtain ⟨e, st⟩ := r
  cases e <;> rfl

theorem Appended.store_ofOutcome (r : Outcome) : (Appended.ofOutcome r).store = r.2 := by
  obtain ⟨e, st⟩ := r
  cases e with
  | none => rfl
  | some err => exact store_ofResult (err, st)

/-- The runs of the branch for everything but blobs, on a store with a current sector. -/
inductive PlainRun (P : Port) (st : Store) (g : Byte) (t : NvsType) (key data : List Byte) :
    Appended → Prop where
  | first {cur : Nat} {err : Err} {st₁ : Store} (hcur : st.currentSector = some cur)
      (hwrite : sectorWriteItem P st cur g t key data segIdAny = (err, st₁)) (hne : err ≠ .sectorFull) :
      PlainRun P st g t key data (.ofResult (err, st₁))
  | refused {cur : Nat} {err : Err} {st₁ st₂ : Store} (hcur : st.currentSector = some cur)
      (hwrite : sectorWriteItem P st cur g t key data segIdAny = (.sectorFull, st₁))
      (hreq : smRequestSector P st₁ (nonBlobWriteReqSize t data.length) = (err, st₂)) (hne : err ≠ .ok) :
      PlainRun P st g t key data (.done err st₂)
  | second {cur cur' : Nat} {r : Err × Store} {st₁ st₂ : Store} (hcur : st.currentSector = some cur)
      (hwrite : sectorWriteItem P st cur g t key data segIdAny = (.sectorFull, st₁))
      (hreq : smRequestSector P st₁ (nonBlobWriteReqSize t data.length) = (.ok, st₂))
      (hcur' : st₂.currentSector = some cur')
      (hwrite' : sectorWriteItem P st₂ cur' g t key data segIdAny = r) :
      PlainRun P st g t key data (.ofResult r)

theorem nonBlobWriteReqSize_pos (t : NvsType) (n : Nat) : 0 < nonBlobWriteReqSize t n := by
  unfold nonBlobWriteReqSize
  simp only [sliceSize]
  split
  · split <;> omega
  · omega

theorem Tidy.plainRun (ht : Tidy P st) (g : Byte) (t : NvsType) (key data : List Byte) :
    PlainRun P st g t key data (writePlain P st g t key data) := by
  obtain ⟨cur, hcur⟩ := ht.current
  have hw : Writing P st cur st := ⟨ht, Grows.refl st, hcur⟩
  unfold writePlain
  simp only [hcur]
  cases hwrite : sectorWriteItem P st cur g t key data segIdAny with
  | mk err st₁ =>
    by_cases hfull : err = .sectorFull
    · subst hfull
      simp only
      cases hreq : smRequestSector P st₁ (nonBlobWriteReqSize t data.length) with
      | mk e st₂ =>
        by_cases he : e = .ok
        · subst he
          obtain ⟨cur', hw'⟩ := (hw.write hwrite).request (nonBlobWriteReqSize_pos t _) hreq
          simp only [hw'.current]
          exact .second hcur hwrite hreq hw'.current rfl
        · have hrun := PlainRun.refused hcur hwrite hreq he
          cases e <;> first | exact absurd rfl he | exact hrun
    · have hrun := PlainRun.first hcur hwrite hfull
      cases err <;> first | exact absurd rfl hfull | exact hrun

theorem Tidy.writePlain_grows (ht : Tidy P st) (g : Byte) (t : NvsType) (key data : List Byte) :
    Tidy P (writePlain P st g t key data).store ∧ Grows st (writePlain P st g t key data).store := by
  have hw : ∀ {cur}, st.currentSector = some cur → Writing P st cur st :=
    fun hcur => ⟨ht, Grows.refl st, hcur⟩
  have hrun := ht.plainRun g t key data
  generalize writePlain P st g t key data = a at hrun ⊢
  cases hrun with
  | first hcur hwrite _ =>
    have h := (hw hcur).write hwrite
    rw [Appended.store_ofResult]
    exact ⟨h.tidy, h.grows⟩
  | refused hcur hwrite hreq _ =>
    obtain ⟨_, h⟩ := ((hw hcur).write hwrite).request (nonBlobWriteReqSize_pos t _) hreq
    exact ⟨h.tidy, h.grows⟩
  | second hcur hwrite hreq hcur' hwrite' =>
    obtain ⟨s', h⟩ := ((hw hcur).write hwrite).request (nonBlobWriteReqSize_pos t _) hreq
    rw [h.current] at hcur'
    obtain rfl := Option.some.inj hcur'
    have h' := h.write hwrite'
    rw [Appended.store_ofResult]
    exact ⟨h'.tidy, h'.grows⟩

theorem Tidy.writeBlob_grows (ht : Tidy P st) (fuel : Nat) (w : BlobWrite) :
    Tidy P (storageWriteBlob P fuel st w).2 ∧ Grows st (storageWriteBlob P fuel st w).2 := by
  obtain ⟨s, hcur⟩ := ht.current
  have hw : Writing P st s st := ⟨ht, Grows.refl st, hcur⟩
  apply (writing_rule P w st).write hcur hw
  intro e st₁ hreq
  obtain ⟨s', h'⟩ := hw.request (by decide) hreq
  exact ⟨s', h'.current, h'⟩

/-- Up to the erasing of the old copy a write only appends and requests sectors. -/
theorem Tidy.writeNew_grows (ht : Tidy P st) (fuel : Nat) (old : Option (Nat × Nat × Item)) (g : Byte)
    (t : NvsType) (key data : List Byte) :
    Tidy P (writeNew P fuel st old g t key data).store ∧
      Grows st (writeNew P fuel st old g t key data).store := by
  unfold writeNew
  split
  · exact ⟨ht, Grows.refl st⟩
  split
  · split
    · rw [Appended.store_ofOutcome]
      exact ht.writeBlob_grows fuel _
    · exact ⟨ht, Grows.refl st⟩
  · exact ht.writePlain_grows g t key data

end Keeps

end WmIot.Nvs
