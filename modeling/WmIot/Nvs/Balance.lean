import WmIot.Nvs.Compaction

/-!
# Balanced stores over runs

Writing, erasing what a lookup has found and requesting a sector keep the counters of every
active sector those of its content. `EraseRule` is the invariant rule for the deletions.
-/

namespace WmIot.Nvs
open NorFlash
set_option autoImplicit false

/-! ## One sector -/

section Sector
variable {P : Port} {st st' : Store} {s : Nat}

theorem Balanced.of_local (h : Balanced P st) (hl : Local s st st') (hs : s ∈ st.active)
    (hu : ∃ L, InUse P st' s L ∧ (st'.secArr s).dropedSlice = dropedSpans L) : Balanced P st' := by
  obtain ⟨L, hL, hd⟩ := hu
  refine ⟨h.toTidy.of_local hl hs ⟨L, hL⟩, fun t ht => ?_⟩
  rw [hl.active] at ht
  by_cases hne : t = s
  · rw [hne]
    exact hL.packed.accounted hd
  · obtain ⟨M, hM⟩ := h.active t ht
    have hsame := h.sameAt hl (List.mem_append_left _ hs) (List.mem_append_left _ ht) hne
    rw [(hsame.inUse hM).accounted_iff, hsame.secArr]
    exact hM.accounted_iff.mp (h.accounted t ht)

theorem Balanced.write {g : Byte} {t : NvsType} {key data : List Byte} {segId : Byte} {err : Err}
    (h : Balanced P st) (hs : s ∈ st.active) (hrun : sectorWriteItem P st s g t key data segId = (err, st')) :
    Balanced P st' := by
  obtain ⟨L, hL⟩ := h.active s hs
  obtain ⟨hl, _, ⟨M, hM, hlive⟩, _, hdrop⟩ := hL.write (h.inSize (List.mem_append_left _ hs)) hrun
  refine h.of_local hl hs ⟨L ++ M, hM, ?_⟩
  rw [dropedSpans_append_live hlive]
  rcases hdrop with hdrop | ⟨hfresh, hdrop⟩
  · rw [hdrop, hL.accounted_iff.mp (h.accounted s hs)]
  · rw [hdrop, hL.nil_of_fresh hfresh]
    rfl

theorem Balanced.erase {x : Entry} (h : Balanced P st) (hs : s ∈ st.active) (hx : x ∈ st.items s)
    (hlive : x.Live) : Balanced P (sectorEraseItem st s x.1 x.2 true) := by
  obtain ⟨L, hL⟩ := h.active s hs
  rw [hL.items_eq] at hx
  obtain ⟨hl, hu, _⟩ := hL.erase hx x.2
  refine h.of_local hl hs ⟨_, hu, ?_⟩
  have hspans : 0 + spans (markDroped x.1 L) =
      ((sectorEraseItem st s x.1 x.2 true).secArr s).nextFreeSlice := hu.packed.chain.spans_eq
  have hfits : ((sectorEraseItem st s x.1 x.2 true).secArr s).nextFreeSlice ≤ 127 := hu.packed.fits
  have hmark : dropedSpans (markDroped x.1 L) = dropedSpans L + x.2.span :=
    dropedSpans_markDroped hx hlive hL.packed.pairwise
  have hsum : dropedSpans (markDroped x.1 L) ≤ spans (markDroped x.1 L) := spans_filter_le _ _
  have hd := hL.accounted_iff.mp (h.accounted s hs)
  rw [sectorEraseItem_secArr, hmark]
  exact (add8_eq (by omega)).trans (by rw [hd])

end Sector

/-! ## Requesting a sector -/

section Request
variable {P : Port} {st st' : Store} {n d : Nat}

/-- A collection leaves a balanced store if only the sector collected was not. -/
theorem Compacted.balanced_of (h : Compacted P st st' n d) (ht : Tidy P st) (ht' : Tidy P st')
    (hacc : ∀ t ∈ st.active, t ≠ d → Accounted P st.flash (st.secArr t)) : Balanced P st' := by
  refine ⟨ht', fun t htm => ?_⟩
  obtain ⟨L, hL⟩ := ht'.active t htm
  by_cases hn : t = n
  · subst hn
    rw [hL.accounted_iff, h.droped, ← hL.items_eq, h.items]
    exact (dropedSpans_append_live (L := []) placed_live).symm
  · have hta : t ∈ st.active.erase d := by
      rw [h.active] at htm
      exact (List.mem_append.mp htm).resolve_right fun htn => hn (List.mem_singleton.mp htn)
    have htd : t ≠ d := by
      rintro rfl
      exact (List.nodup_append.mp ht.nodup).1.not_mem_erase hta
    have htm' := List.mem_of_mem_erase hta
    obtain ⟨M, hM⟩ := ht.active t htm'
    have hsame := h.others t (List.mem_append_left _ htm') hn htd
    rw [(hsame.inUse hM).accounted_iff, hsame.secArr]
    exact hM.accounted_iff.mp (hacc t htm' htd)

theorem Compacted.balanced (h : Compacted P st st' n d) (hb : Balanced P st) (ht : Tidy P st') : Balanced P st' :=
  h.balanced_of hb.toTidy ht fun t htm _ => hb.accounted t htm

/-- What a request for `need` bytes does to a balanced store. -/
inductive Provided (P : Port) (need : Nat) (st st' : Store) : Err → Prop where
  | refused {err : Err} (herr : err ≠ .ok) (hst : st' = st)
      (hfull : st.idle = [] ∨ (st.idle.length = 1 ∧ ∀ e ∈ st.active, (st.secArr e).gcSize < need)) :
      Provided P need st st' err
  | activated (n : Nat) (hidle : st.idle = n :: st'.idle) (hmore : st'.idle ≠ [])
      (hactive : st'.active = st.active ++ [n]) (hempty : InUse P st' n [])
      (hdroped : (st'.secArr n).dropedSlice = 0) (hsame : ∀ t ∈ st.active, SameAt st st' t) :
      Provided P need st st' .ok
  | collected (n d : Nat) (hidle : st.idle = [n]) (hgain : need ≤ (st.secArr d).gcSize)
      (hbest : ∀ e ∈ st.active, (st.secArr e).gcSize ≤ (st.secArr d).gcSize) (h : Compacted P st st' n d) :
      Provided P need st st' .ok

theorem Provided.current {need : Nat} (h : Provided P need st st' .ok) :
    ∃ n, st'.currentSector = some n ∧ st.idle.head? = some n ∧ (st'.secArr n).dropedSlice = 0 := by
  cases h with
  | refused hne => exact absurd rfl hne
  | activated n hidle _ hactive _ hdroped =>
    refine ⟨n, ?_, by rw [hidle]; rfl, hdroped⟩
    rw [Store.currentSector, hactive]
    simp
  | collected n d _ _ _ h => exact ⟨n, h.current, h.target, h.droped⟩

theorem Balanced.collect (h : Balanced P st) {need : Nat} (hneed : 0 < need) (hidle : st.idle = [n]) {err : Err}
    (hrun : smGarbageCollection P st need = (err, st')) : Balanced P st' ∧ Provided P need st st' err := by
  rcases dirtiestSector_spec st with ⟨d, hd, hpick, _, hbest⟩ | ⟨hnone, hall⟩
  · by_cases hgain : (st.secArr d).gcSize ≥ need
    · obtain ⟨st₁, st₂, hnew, hfin, ht, hc⟩ := h.compact hidle hd
      simp only [smGarbageCollection, hpick, if_pos hgain, hnew, hfin] at hrun
      obtain ⟨rfl, rfl⟩ := Prod.mk.inj hrun
      exact ⟨hc.balanced h ht, .collected n d hidle hgain hbest hc⟩
    · simp only [smGarbageCollection, hpick, if_neg hgain] at hrun
      obtain ⟨rfl, rfl⟩ := Prod.mk.inj hrun
      refine ⟨h, .refused (by decide) rfl (Or.inr ⟨by rw [hidle]; rfl, fun e he => ?_⟩)⟩
      exact Int.lt_of_le_of_lt (hbest e he) (Int.not_le.mp hgain)
  · simp only [smGarbageCollection, hnone] at hrun
    rw [if_neg (by omega)] at hrun
    obtain ⟨rfl, rfl⟩ := Prod.mk.inj hrun
    refine ⟨h, .refused (by decide) rfl (Or.inr ⟨by rw [hidle]; rfl, fun e he => ?_⟩)⟩
    have hle := hall e he
    omega

theorem Balanced.activate (h : Balanced P st) {rest : List Nat} (hidle : st.idle = n :: rest) (hrest : rest ≠ [])
    (need : Nat) {err : Err} (hrun : smActiveSector st = (err, st')) :
    Balanced P st' ∧ Provided P need st st' err := by
  have hni : n ∈ st.idle := by
    rw [hidle]
    exact List.mem_cons_self
  obtain ⟨st₁, hact, ht, hactive, hid, _, _, hu, hsame, _⟩ := h.toTidy.activate hidle
  rw [hact] at hrun
  obtain ⟨rfl, rfl⟩ := Prod.mk.inj hrun
  have hzero := smActiveSector_droped (h.idle n hni) hidle hact
  have hsame' : ∀ t ∈ st.active, SameAt st st₁ t := by
    intro t hta
    apply hsame t (List.mem_append_left _ hta)
    rintro rfl
    exact (List.nodup_append.mp h.nodup).2.2 t hta t hni rfl
  refine ⟨⟨ht, fun t htm => ?_⟩,
    .activated n (by rw [hid, hidle]) (by rwa [hid]) hactive hu hzero hsame'⟩
  rw [hactive] at htm
  rcases List.mem_append.mp htm with hta | htn
  · obtain ⟨L, hL⟩ := h.active t hta
    rw [((hsame' t hta).inUse hL).accounted_iff, (hsame' t hta).secArr]
    exact hL.accounted_iff.mp (h.accounted t hta)
  · rw [List.mem_singleton.mp htn]
    exact hu.packed.accounted hzero

theorem Balanced.request (h : Balanced P st) {need : Nat} (hneed : 0 < need) {err : Err}
    (hrun : smRequestSector P st need = (err, st')) : Balanced P st' ∧ Provided P need st st' err := by
  unfold smRequestSector at hrun
  cases hidle : st.idle with
  | nil =>
    rw [hidle] at hrun
    obtain ⟨rfl, rfl⟩ := Prod.mk.inj hrun
    exact ⟨h, .refused (by decide) rfl (Or.inl hidle)⟩
  | cons n rest =>
    rw [hidle, if_neg (by simp)] at hrun
    cases rest with
    | nil =>
      rw [if_pos (List.length_singleton)] at hrun
      exact h.collect hneed hidle hrun
    | cons m rest =>
      rw [if_neg (by simp)] at hrun
      exact h.activate hidle (List.cons_ne_nil m rest) need hrun

end Request

/-! ## The write -/

section Write
variable {P : Port} {st st' : Store} {s : Nat} {g : Byte} {t : NvsType} {key data : List Byte}

theorem Balanced.current_request (h : Balanced P st) {need : Nat} (hneed : 0 < need)
    (hcur : st.currentSector = some s) {err : Err} (hrun : smRequestSector P st need = (err, st')) :
    ∃ s', st'.currentSector = some s' ∧ Balanced P st' := by
  obtain ⟨hb, hp⟩ := h.request hneed hrun
  by_cases herr : err = .ok
  · rw [herr] at hp
    obtain ⟨n, hn, _⟩ := hp.current
    exact ⟨n, hn, hb⟩
  · cases hp with
    | refused _ hst => exact ⟨s, by rw [hst, hcur], hb⟩
    | activated => exact absurd rfl herr
    | collected => exact absurd rfl herr

theorem balanced_rule (P : Port) (w : BlobWrite) :
    WriterRule P w (fun s _ _ st => Balanced P st ∧ st.currentSector = some s) (fun r => Balanced P r.2) where
  running := fun h => h.1
  stop := fun h => h.1
  seg := by
    intro s n offset st len err st' ⟨h, hcur⟩ _ _ _ hrun
    have hs := mem_of_current hcur
    have hb := h.write hs hrun
    refine ⟨fun _ => ⟨hb, ?_⟩, fun _ => hb⟩
    rw [Store.currentSector, (h.toTidy.write hs hrun).2.1.active]
    exact hcur
  request := by
    intro s n offset st err st' ⟨h, hcur⟩ hrun
    obtain ⟨s', hcur', hb⟩ := h.current_request (by decide) hcur hrun
    exact ⟨fun _ => hb, fun _ => ⟨s', hcur', hb, hcur'⟩⟩
  desc := by
    intro s n st err st' ⟨h, hcur⟩ hrun
    exact h.write (mem_of_current hcur) hrun

theorem Balanced.writeBlob (h : Balanced P st) (fuel : Nat) (w : BlobWrite) :
    Balanced P (storageWriteBlob P fuel st w).2 := by
  obtain ⟨s, hcur⟩ := h.toTidy.current
  apply (balanced_rule P w).write hcur ⟨h, hcur⟩
  intro e st₁ hreq
  obtain ⟨s', hcur', hb⟩ := h.current_request (by decide) hcur hreq
  exact ⟨s', hcur', hb, hcur'⟩

theorem Balanced.writePlain (h : Balanced P st) (g : Byte) (t : NvsType) (key data : List Byte) :
    Balanced P (Nvs.writePlain P st g t key data).store := by
  have hrun := h.toTidy.plainRun g t key data
  generalize Nvs.writePlain P st g t key data = a at hrun ⊢
  cases hrun with
  | first hcur hwrite _ =>
    rw [Appended.store_ofResult]
    exact h.write (mem_of_current hcur) hwrite
  | refused hcur hwrite hreq _ =>
    exact ((h.write (mem_of_current hcur) hwrite).request (nonBlobWriteReqSize_pos t _) hreq).1
  | second hcur hwrite hreq hcur' hwrite' =>
    rw [Appended.store_ofResult]
    have hb := ((h.write (mem_of_current hcur) hwrite).request (nonBlobWriteReqSize_pos t _) hreq).1
    exact hb.write (mem_of_current hcur') hwrite'

theorem Balanced.writeNew (h : Balanced P st) (fuel : Nat) (old : Option (Nat × Nat × Item)) (g : Byte)
    (t : NvsType) (key data : List Byte) : Balanced P (Nvs.writeNew P fuel st old g t key data).store := by
  unfold Nvs.writeNew
  split
  · exact h
  split
  · split
    · rw [Appended.store_ofOutcome]
      exact h.writeBlob fuel _
    · exact h
  · exact h.writePlain g t key data

end Write

/-! ## Deletions -/

/-- `I` is kept by erasing an item in use of an active sector that `E` allows to be erased. -/
structure EraseRule (P : Port) (E : Item → Prop) (I : Store → Prop) : Prop where
  tidy : ∀ {st}, I st → Tidy P st
  erase : ∀ {st s x}, I st → s ∈ st.active → x ∈ st.items s → x.Live → E x.2 →
    I (sectorEraseItem st s x.1 x.2 true)

section Rule
variable {P : Port} {E : Item → Prop} {I : Store → Prop} {st : Store} {s i : Nat} {it : Item}

theorem EraseRule.eraseSegs (hr : EraseRule P E I) (it : Item)
    (hseg : ∀ i seg, (segQuery it i).sees P seg = true → E seg) (n i : Nat) (err : Err) (h : I st) :
    I (eraseSegsLoop P it n i err st).2 := by
  induction n generalizing i err st with
  | zero => exact h
  | succ n ih =>
    unfold eraseSegsLoop
    split
    · exact h
    · rename_i s index seg hfind
      obtain ⟨hs, hm, hsees⟩ := (hr.tidy h).find_keyed (by simp [segQuery]) hfind
      have he := hr.erase h hs hm (sees_using hsees) (hseg i seg hsees)
      exact ih _ _ he

theorem EraseRule.eraseFound (hr : EraseRule P E I) (hs : s ∈ st.active) (hx : (i, it) ∈ st.items s)
    (hlive : it.state = itemUsing) (hit : E it)
    (hseg : it.type = NvsType.blob.code → ∀ i seg, (segQuery it i).sees P seg = true → E seg) (h : I st) :
    I (Nvs.eraseFound P st s i it).2 := by
  have he := hr.erase h hs hx hlive hit
  unfold Nvs.eraseFound
  split
  · rename_i hblob
    exact hr.eraseSegs it (hseg hblob) _ _ _ he
  · exact he

theorem EraseRule.delGroupLoop {g : Byte} (hr : EraseRule P E I) (hs : s ∈ st.active)
    (hE : ∀ it, Query.sees P ⟨g, NvsType.anyWithoutSeg.code, none, segIdAny, segStartAny⟩ it = true →
      E it ∧ ∀ i seg, (segQuery it i).sees P seg = true → E seg)
    (n start : Nat) (hstart : Boundary (st.items s) start) (h : I st) :
    I (Nvs.delGroupLoop P g s n start st) := by
  induction n generalizing start st with
  | zero => exact h
  | succ n ih =>
    unfold Nvs.delGroupLoop
    split
    · exact h
    · rename_i i it hfind
      have ht := hr.tidy h
      obtain ⟨L, hL⟩ := ht.active s hs
      obtain ⟨hm, _, hsees⟩ := hL.find_some (Or.inr (by rwa [← hL.items_eq])) hfind
      rw [← hL.items_eq] at hm
      have hthin := ht.eraseFound hs hm
      have he := hr.eraseFound hs hm (sees_using hsees) (hE it hsees).1 (fun _ => (hE it hsees).2) h
      apply ih (by rwa [hthin.active]) _ _ he
      exact hthin.boundary s hs _ (Or.inr ⟨(i, it), hm, rfl⟩)

theorem EraseRule.delGroup {g : Byte} (hr : EraseRule P E I)
    (hE : ∀ it, Query.sees P ⟨g, NvsType.anyWithoutSeg.code, none, segIdAny, segStartAny⟩ it = true →
      E it ∧ ∀ i seg, (segQuery it i).sees P seg = true → E seg) (h : I st) : I (storageDelGroup P st g).2 := by
  have hfold : ∀ (L : List Nat) (st : Store), (∀ s ∈ L, s ∈ st.active) → I st →
      I (L.foldl (fun st s => Nvs.delGroupLoop P g s (entryCount + 1) 0 st) st) := by
    intro L
    induction L with
    | nil => exact fun _ _ h => h
    | cons s L ih =>
      intro st hL h
      have hs := hL s List.mem_cons_self
      have hthin := (hr.tidy h).delGroupLoop g hs (entryCount + 1) 0 (Or.inl rfl)
      apply ih
      · intro t ht
        rw [hthin.active]
        exact hL t (List.mem_cons_of_mem s ht)
      · exact hr.delGroupLoop hs hE _ 0 (Or.inl rfl) h
  exact hfold st.active st (fun _ hs => hs) h

theorem EraseRule.delItem (hr : EraseRule P (fun _ => True) I) (g : Byte) (t : NvsType) (key : List Byte) (h : I st) :
    I (storageDelItem P st g t key).2 := by
  unfold storageDelItem
  split
  · exact h
  · rename_i s i it hfind
    obtain ⟨hs, hm, hsees⟩ := (hr.tidy h).find_keyed (by simp [keyQuery]) hfind
    exact hr.eraseFound hs hm (sees_using hsees) trivial (fun _ _ _ _ => trivial) h

theorem EraseRule.readItem (hr : EraseRule P (fun _ => True) I) (g : Byte) (t : NvsType) (key : List Byte) (size : Nat)
    (h : I st) : I (storageReadItem P st g t key size).2 := by
  unfold storageReadItem
  split
  · exact h
  · rename_i s i it hfind
    obtain ⟨hs, hm, hsees⟩ := (hr.tidy h).find_keyed (by simp [keyQuery]) hfind
    have he := hr.erase h hs hm (sees_using hsees) trivial
    by_cases hblob : t = .blob
    · simp only [if_pos hblob]
      split
      · exact h
      · split
        · exact h
        · simp only
          split
          · exact he
          · exact h
    · simp only [if_neg hblob]
      split
      · exact h
      · split
        · exact h
        · exact h

end Rule

theorem balanced_eraseRule (P : Port) (E : Item → Prop) : EraseRule P E (Balanced P) where
  tidy := fun h => h.toTidy
  erase := fun h hs hx hlive _ => h.erase hs hx hlive

/-! ## Runs -/

section Runs
variable {P : Port} {st st' : Store} {fuel : Nat}

theorem Balanced.writeItem {g : Byte} {t : NvsType} {key data : List Byte} (h : Balanced P st)
    (hstale : storageWriteStale P fuel st g t key data = false) :
    Balanced P (storageWriteItem P fuel st g t key data).2 := by
  have hb := h.writeNew fuel (findOld P st g key) g t key data
  unfold storageWriteItem
  dsimp only
  cases hnew : Nvs.writeNew P fuel st (findOld P st g key) g t key data with
  | running st₁ =>
    rw [hnew] at hb
    exact hb
  | done err st₁ =>
    rw [hnew] at hb
    exact hb
  | eraseOld st₁ =>
    rw [hnew] at hb
    cases hold : findOld P st g key with
    | none => exact hb
    | some old =>
      obtain ⟨s, i, it⟩ := old
      rw [hold] at hnew
      obtain ⟨_, _, hs, hm⟩ := h.toTidy.old_kept hold hnew hstale
      obtain ⟨_, _, hsees⟩ := h.toTidy.find_keyed (by simp [keyQuery]) hold
      exact (balanced_eraseRule P fun _ => True).eraseFound hs hm (sees_using hsees) trivial
        (fun _ _ _ _ => trivial) hb

theorem Balanced.of_groups (h : Balanced P st) (L : List Group) : Balanced P { st with groupList := L } :=
  ⟨h.toTidy.of_groups L, h.accounted⟩

theorem Balanced.openGroup (h : Balanced P st) {group : List Byte} {createNew mem : Bool}
    (hstale : (StorageOp.openGroup group createNew mem).stale P fuel st = false) :
    Balanced P (storageOpenGroup P st group createNew mem).2.2 := by
  unfold storageOpenGroup
  unfold StorageOp.stale at hstale
  split
  · exact h
  · rename_i err id hne hfind
    split
    · exact h
    · have hw : storageWriteStale P 0 st groupItselfId .uint8 group [id] = false := by
        simpa only [hfind] using hstale
      have hb := h.writeItem hw
      split
      · rename_i st₁ hwrite
        rw [hwrite] at hb
        cases mem with
        | true => exact hb.of_groups _
        | false => exact hb
      · rename_i hwrite
        rw [hwrite] at hb
        exact hb
      · rename_i hwrite
        rw [hwrite] at hb
        exact hb

/-- One operation that is not stale. -/
theorem Balanced.step (h : Balanced P st) (op : StorageOp) (hstale : op.stale P fuel st = false) :
    Balanced P (op.run P fuel st) := by
  have hrule := balanced_eraseRule P fun _ => True
  cases op with
  | write g t key data => exact h.writeItem hstale
  | del g t key => exact hrule.delItem g t key h
  | delGroup g => exact hrule.delGroup (fun _ _ => ⟨trivial, fun _ _ _ => trivial⟩) h
  | openGroup group createNew mem => exact h.openGroup hstale
  | read g t key size => exact hrule.readItem g t key size h

theorem Balanced.run (h : Balanced P st) (hrun : StorageRun P st st') : Balanced P st' := by
  induction hrun with
  | refl => exact h
  | step _ op fuel hstale ih => exact ih.step op hstale

end Runs

end WmIot.Nvs
