import WmIot.Nvs.BlobEnds

/-!
# Where the blob writer does not end

In every run of balanced stores a write ends. When a reload has left wrong counters, the size
check accepts a blob for which no sector has the room, and the writer collects the same items
back and forth without ever meeting its start sector again.
-/

namespace WmIot.Nvs
open NorFlash
set_option autoImplicit false

/-! ## Runs -/

/-- The states reached from a mount, of any image, that left the counters of every active sector those
of its content, by operations none of which is stale. -/
inductive BalancedRun (P : Port) : Store → Prop where
  | mount {flash : Flash} {n : Nat} {mem : List Bool} {st : Store}
      (hinit : storageInit P flash n mem = (.ok, st)) (h : Balanced P st) : BalancedRun P st
  | step {st : Store} (h : BalancedRun P st) (op : StorageOp) (fuel : Nat)
      (hstale : op.stale P fuel st = false) : BalancedRun P (op.run P fuel st)

theorem BalancedRun.balanced {P : Port} {st : Store} (h : BalancedRun P st) : Balanced P st := by
  induction h with
  | mount _ h => exact h
  | step _ op fuel hstale ih => exact ih.step op hstale

theorem BalancedRun.run {P : Port} {st st' : Store} (h : BalancedRun P st) (hrun : StorageRun P st st') :
    BalancedRun P st' := by
  induction hrun with
  | refl => exact h
  | step _ op fuel hstale ih => exact ih.step op fuel hstale

/-- None of the operations of the list is stale when its turn comes. -/
def noneStale (P : Port) (fuel : Nat) : List StorageOp → Store → Bool
  | [], _ => true
  | op :: ops, st => !op.stale P fuel st && noneStale P fuel ops (op.run P fuel st)

theorem runOps_run {P : Port} {fuel : Nat} {ops : List StorageOp} {st st' : Store} (hrun : StorageRun P st st')
    (h : noneStale P fuel ops st' = true) : StorageRun P st (runOps P fuel ops st') := by
  induction ops generalizing st' with
  | nil => exact hrun
  | cons op ops ih =>
    simp only [noneStale, Bool.and_eq_true, Bool.not_eq_true'] at h
    exact ih (hrun.step op fuel h.1) h.2

/-- Every write ends when the writer does on the sizes that the check accepts. -/
theorem writeItem_ended {P : Port} {st : Store} {fuel : Nat} {g : Byte} {t : NvsType} {key data : List Byte}
    (hblob : ∀ w : BlobWrite, smCheckWriteBlobSize st w.data.length = .ok → (storageWriteBlob P fuel st w).Ended) :
    (storageWriteItem P fuel st g t key data).Ended := by
  have hplain : ∀ st₁, writePlain P st g t key data ≠ .running st₁ := by
    intro st₁
    have hresult : ∀ r : Err × Store, Appended.ofResult r ≠ .running st₁ := by
      rintro ⟨e, st₂⟩
      cases e <;> simp [Appended.ofResult]
    unfold writePlain
    split
    · simp
    · split
      · split
        · split
          · simp
          · exact hresult _
        · simp
      · exact hresult _
  have hnew : ∀ st₁, writeNew P fuel st (findOld P st g key) g t key data ≠ .running st₁ := by
    intro st₁
    unfold writeNew
    split
    · simp
    split
    · split
      next hcheck =>
        have hend := hblob ⟨g, key, data, newSegStart (findOld P st g key)⟩ hcheck
        unfold Outcome.Ended at hend
        generalize storageWriteBlob P fuel st ⟨g, key, data, newSegStart (findOld P st g key)⟩ = r at hend ⊢
        obtain ⟨e, st₂⟩ := r
        cases e with
        | none => exact absurd rfl hend
        | some e => cases e <;> simp [Appended.ofOutcome, Appended.ofResult]
      next => simp
    · exact hplain st₁
  unfold storageWriteItem
  dsimp only
  cases happ : writeNew P fuel st (findOld P st g key) g t key data with
  | running st₁ => exact absurd happ (hnew st₁)
  | done err st₁ => simp [Outcome.Ended]
  | eraseOld st₁ =>
    cases findOld P st g key with
    | none => simp [Outcome.Ended]
    | some old => exact returned_ended _

/-- In every state of a balanced run the writer ends on every size that the check accepts, and so every
write ends; 132 turns are enough. -/
theorem blob_write_ends (P : Port) {st : Store} (hrun : BalancedRun P st) {fuel : Nat} (hfuel : 132 ≤ fuel) :
    (∀ w : BlobWrite, smCheckWriteBlobSize st w.data.length = .ok → (storageWriteBlob P fuel st w).Ended) ∧
      ∀ g t key data, (storageWriteItem P fuel st g t key data).Ended := by
  have hblob : ∀ w : BlobWrite, smCheckWriteBlobSize st w.data.length = .ok →
      (storageWriteBlob P fuel st w).Ended := fun w hcheck => hrun.balanced.writeBlob_ended hcheck hfuel
  exact ⟨hblob, fun _ _ _ _ => writeItem_ended hblob⟩

theorem testStore_balanced : Balanced testPort testStore where
  toTidy := testStore_tidy
  accounted := by
    have hacc : testStore.active = [0] ∧
        ((testStore.secArr 0).dropedSlice ≤ (testStore.secArr 0).usedSlice ∧
          (testStore.secArr 0).usedSlice ≤ 127) ∧
        (testStore.secArr 0).usedSlice = (testStore.secArr 0).nextFreeSlice ∧
        (testStore.secArr 0).dropedSlice = dropedSpans (itemsBelow testStore.flash (testStore.secArr 0)) ∧
        (testStore.secArr 0).hash = hashNodes testPort (itemsBelow testStore.flash (testStore.secArr 0)) := by
      decide +kernel
    intro s hs
    rw [hacc.1] at hs
    rw [List.mem_singleton.mp hs]
    exact accounted_iff.mpr hacc.2

theorem blob_write_ends_rewritten : smCheckWriteBlobSize rewrittenStore 40 = .ok ∧
    (storageWriteBlob testPort 132 rewrittenStore ⟨1, [0x62], List.replicate 40 0x11, 0⟩).Ended ∧
      (storageWriteItem testPort 132 rewrittenStore 1 .blob [0x62] (List.replicate 40 0x11)).Ended := by
  have hfacts : noneStale testPort 0 [.write 1 .uint8 [0x6b] [1], .write 1 .uint8 [0x6b] [2]] testStore = true ∧
      smCheckWriteBlobSize rewrittenStore 40 = .ok := by decide +kernel
  obtain ⟨hfresh, hcheck⟩ := hfacts
  have hmount : BalancedRun testPort testStore := .mount testStore_mounted testStore_balanced
  have hrun : BalancedRun testPort rewrittenStore := hmount.run (runOps_run .refl hfresh)
  obtain ⟨hblob, hitem⟩ := blob_write_ends testPort hrun (Nat.le_refl 132)
  refine ⟨hcheck, hblob _ ?_, hitem _ _ _ _⟩
  rwa [List.length_replicate]

/-! ## Going round -/

/-- No sector takes the blob or a full segment; `d` has the most to gain, the writer is in `s` and has
started in another sector than `d`. -/
structure Stuck (P : Port) (w : BlobWrite) (startSec d s : Nat) (st : Store) : Prop where
  balanced : Balanced P st
  current : st.currentSector = some s
  idle : st.idle.length = 1
  started : startSec ∈ st.active ∧ startSec ≠ d
  picked : d ∈ st.active
  best : ∀ e ∈ st.active, e ≠ d → (st.secArr e).gcSize < (st.secArr d).gcSize
  gain : 32 ≤ (st.secArr d).gcSize
  noSegment : (st.secArr d).gcSize < 544
  noRest : (st.secArr d).gcSize < (w.data.length : Nat) + 32
  skipped : (st.secArr s).freeSize ≤ (st.secArr d).gcSize

section Stuck
variable {P : Port} {w : BlobWrite} {startSec d s : Nat} {st : Store}

theorem request_collects {st₁ st' : Store} {m : Nat} {g : Int} (hidle : st.idle = [m])
    (hpick : dirtiestSector st = (some d, g)) (hgain : 32 ≤ g) (hnew : smNewSector P st = (.ok, st₁, m))
    (hfin : smFinishCollection P (sectorSetState st₁ d sectorDeletting) m d = (.ok, st')) :
    smRequestSector P st sliceSize = (.ok, st') := by
  have hreq : smRequestSector P st sliceSize = smGarbageCollection P st sliceSize := by
    rw [smRequestSector, hidle]
    rfl
  rw [hreq]
  simp only [smGarbageCollection, hpick, sliceSize]
  rw [if_pos (by omega)]
  simp only [hnew, hfin]

/-- A turn collects the sector with the most to gain and goes on in the one that holds its items now. -/
theorem Stuck.turn (h : Stuck P w startSec d s st) (fuel : Nat) :
    ∃ m st', Stuck P w startSec m m st' ∧
      writeBlobLoop P w startSec (fuel + 1) s 0 0 st = writeBlobLoop P w startSec fuel m 0 0 st' := by
  obtain ⟨m, hidle⟩ := List.length_eq_one_iff.mp h.idle
  have hgain := h.gain
  have hseg := h.noSegment
  have hrest := h.noRest
  have hskip := h.skipped
  have hnodup := (List.nodup_append.mp h.balanced.nodup).1
  have hma : m ∉ st.active := by
    intro hm
    exact (List.nodup_append.mp h.balanced.nodup).2.2 m hm m (by rw [hidle]; exact List.mem_singleton_self m) rfl
  have hnext : writeBlobLoop P w startSec (fuel + 1) s 0 0 st = nextSector P w startSec fuel 0 0 st :=
    writeBlobLoop_skip (by omega) (by decide) (by omega) (by omega)
  have hpick : dirtiestSector st = (some d, (st.secArr d).gcSize) := by
    rcases dirtiestSector_spec st with ⟨d', hd', hpick, _, hbest⟩ | ⟨_, hall⟩
    · by_cases hdd : d' = d
      · rw [hpick, hdd]
      · have hlt := h.best d' hd' hdd
        have hle := hbest d h.picked
        omega
    · have hle := hall d h.picked
      omega
  obtain ⟨st₁, st', hnew, hfin, ht, hc⟩ := h.balanced.compact hidle h.picked
  have hreq := request_collects hidle hpick hgain hnew hfin
  have hstart : startSec ≠ m := fun hm => hma (hm ▸ h.started.1)
  have hgc : (st'.secArr m).gcSize = (st.secArr d).gcSize := hc.gcSize h.balanced
  have hothers : ∀ e ∈ st.active, e ≠ d → (st'.secArr e).gcSize = (st.secArr e).gcSize := by
    intro e he hne
    have hem : e ≠ m := fun hm => hma (hm ▸ he)
    rw [(hc.others e (List.mem_append_left _ he) hem hne).secArr]
  refine ⟨m, st', ⟨hc.balanced h.balanced ht, hc.current, ?_, ⟨?_, hstart⟩, ?_, ?_, ?_, ?_, ?_, ?_⟩, ?_⟩
  · rw [hc.idle, hidle]
    rfl
  · rw [hc.active]
    exact List.mem_append_left _ ((List.mem_erase_of_ne h.started.2).mpr h.started.1)
  · rw [hc.active]
    simp
  · intro e he hne
    rw [hc.active] at he
    have hee := (List.mem_append.mp he).resolve_right fun hm => hne (List.mem_singleton.mp hm)
    have hed : e ≠ d := by
      rintro rfl
      exact hnodup.not_mem_erase hee
    rw [hothers e (List.mem_of_mem_erase hee) hed, hgc]
    exact h.best e (List.mem_of_mem_erase hee) hed
  · rw [hgc]
    exact h.gain
  · rw [hgc]
    exact h.noSegment
  · rw [hgc]
    exact h.noRest
  · exact Int.le_of_eq (Sector.gcSize_eq_freeSize hc.droped).symm
  · rw [hnext, nextSector, hreq]
    simp only [hc.current]
    rw [if_neg hstart.symm]

/-- However many turns it is given, the writer is still running. -/
theorem Stuck.running (h : Stuck P w startSec d s st) (fuel : Nat) :
    (writeBlobLoop P w startSec fuel s 0 0 st).1 = none := by
  induction fuel generalizing d s st with
  | zero => rfl
  | succ fuel ih =>
    obtain ⟨m, st', h', hturn⟩ := h.turn fuel
    rw [hturn]
    exact ih h'

theorem Stuck.write_running {st₀ : Store} {s₀ : Nat} (h : Stuck P w s d s st) (hcur : st₀.currentSector = some s₀)
    (hdroped : (st₀.secArr s₀).dropedSlice > 0)
    (hfree : (w.data.length : Int) + sliceSize > (st₀.secArr s₀).freeSize)
    (hreq : smRequestSector P st₀ sliceSize = (.ok, st)) (fuel : Nat) : (storageWriteBlob P fuel st₀ w).1 = none := by
  unfold storageWriteBlob
  simp only [hcur]
  rw [if_pos (Or.inl ⟨hdroped, hfree⟩), hreq]
  simp only [h.current]
  exact h.running fuel

end Stuck

/-! ## A reload with wrong counters -/

/-- Three erased sectors, mounted. -/
def threeSectors (P : Port) : Store := (storageInit P blankImage 3 []).2

/-- Four bytes that take the CRC to zero, and zeros. -/
def padding (n : Nat) : List Byte := [0xff, 0xff, 0xff, 0xff] ++ List.replicate n 0

/-- Two sectors almost filled; the last item of the second one is dropped again. -/
def unevenOps : List StorageOp :=
  [.write 1 .binary [0x66] (padding 3772), .write 1 .binary [0x67] (padding 3796), .write 1 .uint8 [0x6b] [1],
    .write 1 .binary [0x6d] (padding 36), .del 1 .binary [0x6d]]

def unevenImage (P : Port) : Flash := (runOps P 0 unevenOps (threeSectors P)).flash

def reloaded (P : Port) (flash : Flash) : Store := (storageInit P flash 3 []).2

/-- What a reload makes of it: the item of key `k` is dropped with the length of the last one. -/
def unevenStore : Store := reloaded testPort (unevenImage testPort)

def unevenWrite : BlobWrite := ⟨1, [0x7a], List.replicate 256 0x11, 0⟩

/-- The port with a CRC that is quick to evaluate here. -/
theorem testPort_skip : testPort = ⟨Crc32.updateSkip, 1⟩ := by rw [testPort, Crc32.updateSkip_eq]

/-- The third sector is still erased. -/
theorem unevenImage_eq : unevenImage testPort = erase (unevenImage testPort) 8192 4096 := by
  have hfacts : (storageInit testPort blankImage 3 []).1 = .ok ∧
      (smLoadSectors testPort (Store.unmounted blankImage 3)).2.idle = [1, 2] ∧
      noneStale testPort 0 unevenOps (threeSectors testPort) = true ∧
      (runOps testPort 0 unevenOps (threeSectors testPort)).idle = [2] ∧
      ((runOps testPort 0 unevenOps (threeSectors testPort)).secArr 2).state = sectorUninit := by
    rw [testPort_skip]
    decide +kernel
  obtain ⟨hinit, hload, hfresh, hidle, hstate⟩ := hfacts
  have ht : Tidy testPort (threeSectors testPort) := by
    refine storageInit_tidy (by decide) (fun _ _ => Or.inr (Or.inl rfl)) (fun st h => ?_) (eq_ok_of_fst hinit)
    rw [h] at hload
    left
    rw [hload]
    simp
  have ht' := (ht.run (runOps_run .refl hfresh)).tidy
  have hblank := (ht'.idle_clean (by rw [hidle]; decide) hstate).1
  funext a
  unfold erase
  split
  next ha => exact hblank a ha.1 ha.2
  next => rfl

/-- What the reload finds and what it leaves. -/
theorem uneven_facts :
    ((storageInit testPort (unevenImage testPort) 3 []).1 = .ok ∧
      (smLoadSectors testPort (Store.unmounted (unevenImage testPort) 3)).2.idle = [2]) ∧
    ((HeaderAccepted testPort (unevenImage testPort) (0 * sectionSize) ∧
        (∀ x ∈ walk (unevenImage testPort) (0 * sectionSize) entryCount 0, x.Known ∧ x.1 + x.2.span ≤ 127) ∧
        walkEnd (unevenImage testPort) (0 * sectionSize) entryCount 0 = 119 ∧
        (readBytes (unevenImage testPort) 3840 256).all (· == blank) = true) ∧
      (HeaderAccepted testPort (unevenImage testPort) (1 * sectionSize) ∧
        (∀ x ∈ walk (unevenImage testPort) (1 * sectionSize) entryCount 0, x.Known ∧ x.1 + x.2.span ≤ 127) ∧
        walkEnd (unevenImage testPort) (1 * sectionSize) entryCount 0 = 124 ∧
        (readBytes (unevenImage testPort) 8096 96).all (· == blank) = true) ∧
      HeaderRefused testPort (unevenImage testPort) (2 * sectionSize)) ∧
    ((unevenStore.active = [0, 1] ∧ unevenStore.idle = [2]) ∧
      ((unevenStore.secArr 0).gcSize = 256 ∧ dirtiestSector unevenStore = (some 1, 288)) ∧
      ((liveItems (unevenStore.items 1)).map Item.span).sum = 120 ∧
      ((unevenStore.secArr 0).dropedSlice ≤ (unevenStore.secArr 0).usedSlice ∧
        (unevenStore.secArr 0).usedSlice ≤ 127) ∧
      (unevenStore.secArr 0).usedSlice = (unevenStore.secArr 0).nextFreeSlice ∧
      (unevenStore.secArr 0).dropedSlice =
        dropedSpans (itemsBelow unevenStore.flash (unevenStore.secArr 0)) ∧
      (unevenStore.secArr 0).hash = hashNodes testPort (itemsBelow unevenStore.flash (unevenStore.secArr 0))) ∧
    smCheckWriteBlobSize unevenStore unevenWrite.data.length = .ok ∧
      (unevenStore.secArr 1).dropedSlice > 0 ∧
      (unevenWrite.data.length : Int) + sliceSize > (unevenStore.secArr 1).freeSize := by
  rw [unevenStore, unevenImage_eq, testPort_skip]
  decide +kernel

theorem unevenStore_mounted : storageInit testPort (unevenImage testPort) 3 [] = (.ok, unevenStore) := by
  rw [unevenStore, reloaded]
  exact eq_ok_of_fst uneven_facts.1.1

theorem unevenStore_tidy : Tidy testPort unevenStore := by
  obtain ⟨⟨_, hload⟩, ⟨hsec₀, hsec₁, href⟩, _⟩ := uneven_facts
  have hblank : ∀ lo len, (readBytes (unevenImage testPort) lo len).all (· == blank) = true →
      BlankOn (unevenImage testPort) lo (lo + len) := by
    intro lo len hall a hlo hhi
    have hm : unevenImage testPort a ∈ readBytes (unevenImage testPort) lo len := by
      apply List.mem_map.mpr
      exact ⟨a - lo, List.mem_range.mpr (by omega), by rw [Nat.add_sub_cancel' hlo]⟩
    simpa using List.all_eq_true.mp hall _ hm
  refine storageInit_tidy (by decide) (fun s hs => ?_) (fun st h => ?_) unevenStore_mounted
  · match s, hs with
    | 0, _ =>
      obtain ⟨hacc, hwalk, hend, htail⟩ := hsec₀
      refine Or.inl ⟨hacc, fun x hx => (hwalk x hx).1, fun x hx => (hwalk x hx).2, ?_⟩
      rw [hend]
      exact hblank 3840 256 htail
    | 1, _ =>
      obtain ⟨hacc, hwalk, hend, htail⟩ := hsec₁
      refine Or.inl ⟨hacc, fun x hx => (hwalk x hx).1, fun x hx => (hwalk x hx).2, ?_⟩
      rw [hend]
      exact hblank 8096 96 htail
    | 2, _ => exact Or.inr href
  · rw [h] at hload
    left
    rw [hload]
    simp

/-- The first request collects the sector with the wrong counters; the writer starts in the sector that holds
its items now, and the other one has more to gain. -/
theorem unevenStore_stuck : ∃ st, smRequestSector testPort unevenStore sliceSize = (.ok, st) ∧
    Stuck testPort unevenWrite 2 0 2 st := by
  obtain ⟨_, _, ⟨⟨hactive, hidle⟩, ⟨hgain, hpick⟩, hlive, hacc⟩, _⟩ := uneven_facts
  obtain ⟨st₁, st, hnew, hfin, ht, hc⟩ := unevenStore_tidy.compact hidle (d := 1) (by rw [hactive]; decide)
  have hb : Balanced testPort st := by
    apply hc.balanced_of unevenStore_tidy ht
    intro t htm htd
    rw [hactive] at htm
    obtain rfl : t = 0 := by
      simp only [List.mem_cons, List.not_mem_nil, or_false] at htm
      exact htm.resolve_right htd
    exact accounted_iff.mpr hacc
  have hactive' : st.active = [0, 2] := by
    rw [hc.active, hactive]
    rfl
  have hgain₀ : (st.secArr 0).gcSize = 256 := by
    rw [(hc.others 0 (by rw [hactive]; decide) (by decide) (by decide)).secArr, hgain]
  have hgain₂ : (st.secArr 2).gcSize = 224 := by
    have hused := hc.used
    rw [spans_placed, hlive] at hused
    rw [Sector.gcSize, hused, hc.droped]
    rfl
  have hlen : unevenWrite.data.length = 256 := List.length_replicate
  refine ⟨st, ?_, hb, hc.current, ?_, ⟨?_, by decide⟩, ?_, ?_, ?_, ?_, ?_, ?_⟩
  · exact request_collects hidle hpick (by decide) hnew hfin
  · rw [hc.idle, hidle]
    rfl
  · rw [hactive']
    decide
  · rw [hactive']
    decide
  · intro e he hne
    rw [hactive'] at he
    obtain rfl : e = 2 := by
      simp only [List.mem_cons, List.not_mem_nil, or_false] at he
      exact he.resolve_left hne
    rw [hgain₀, hgain₂]
    decide
  · rw [hgain₀]
    decide
  · rw [hgain₀]
    decide
  · rw [hgain₀, hlen]
    decide
  · rw [← Sector.gcSize_eq_freeSize hc.droped, hgain₀, hgain₂]
    decide

/-- The check accepts the blob, and the writer is running after any number of turns. -/
theorem blob_write_runs_on :
    storageInit testPort blankImage 3 [] = (.ok, threeSectors testPort) ∧
      storageInit testPort (unevenImage testPort) 3 [] = (.ok, unevenStore) ∧
      smCheckWriteBlobSize unevenStore unevenWrite.data.length = .ok ∧
      ∀ fuel, (storageWriteBlob testPort fuel unevenStore unevenWrite).1 = none := by
  have hinit : (storageInit testPort blankImage 3 []).1 = .ok := by decide +kernel
  obtain ⟨_, _, ⟨⟨hactive, _⟩, _⟩, hcheck, hdroped, hfree⟩ := uneven_facts
  have hcur : unevenStore.currentSector = some 1 := by
    rw [Store.currentSector, hactive]
    rfl
  obtain ⟨st, hreq, hstuck⟩ := unevenStore_stuck
  refine ⟨?_, unevenStore_mounted, hcheck, fun fuel => hstuck.write_running hcur hdroped hfree hreq fuel⟩
  rw [threeSectors]
  exact eq_ok_of_fst hinit

end WmIot.Nvs
