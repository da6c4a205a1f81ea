import WmIot.Nvs.Mount
import WmIot.Nvs.SectorRuns

/-!
# Runs of storage operations

A run applies the storage operations one after the other. A write is stale when its own
collection erases the sector of the old copy before the old copy is dropped; without stale
writes every state of a run is tidy and every flash operation goes where it should.
-/

namespace WmIot.Nvs
open NorFlash
set_option autoImplicit false

inductive StorageOp where
  | write (groupId : Byte) (type : NvsType) (key data : List Byte)
  | del (groupId : Byte) (type : NvsType) (key : List Byte)
  | delGroup (groupId : Byte)
  | openGroup (group : List Byte) (createNew mem : Bool)
  | read (groupId : Byte) (type : NvsType) (key : List Byte) (size : Nat)

/-- The store after an operation; a blob write still running after `fuel` turns is left there. -/
def StorageOp.run (P : Port) (fuel : Nat) (st : Store) : StorageOp → Store
  | .write groupId type key data => (storageWriteItem P fuel st groupId type key data).2
  | .del groupId type key => (storageDelItem P st groupId type key).2
  | .delGroup groupId => (storageDelGroup P st groupId).2
  | .openGroup group createNew mem => (storageOpenGroup P st group createNew mem).2.2
  | .read groupId type key size => (storageReadItem P st groupId type key size).2

/-- A write reaches the erasing of the old copy after having erased its sector. -/
def storageWriteStale (P : Port) (fuel : Nat) (st : Store) (groupId : Byte) (type : NvsType)
    (key data : List Byte) : Bool :=
  match findOld P st groupId key with
  | none => false
  | some old =>
    match writeNew P fuel st (some old) groupId type key data with
    | .eraseOld st' =>
      (st'.log.drop st.log.length).any fun ev => ev.op = .erase (old.1 * 4096) 4096
    | _ => false

def StorageOp.stale (P : Port) (fuel : Nat) (st : Store) : StorageOp → Bool
  | .write groupId type key data => storageWriteStale P fuel st groupId type key data
  | .openGroup group _ _ =>
    match storageFindGroup st group with
    | (.ok, _) => false
    | (_, id) => storageWriteStale P 0 st groupItselfId .uint8 group [id]
  | _ => false

/-- The states reached from `st` by operations none of which is stale. -/
inductive StorageRun (P : Port) (st : Store) : Store → Prop where
  | refl : StorageRun P st st
  | step {st' : Store} (h : StorageRun P st st') (op : StorageOp) (fuel : Nat)
      (hstale : op.stale P fuel st' = false) : StorageRun P st (op.run P fuel st')

section Steps
variable {P : Port} {st st' : Store} {s : Nat} {g : Byte} {t : NvsType} {key data : List Byte}
  {fuel : Nat}

/-- The old copy is still where it was found when the write is not stale. -/
theorem Tidy.old_kept (ht : Tidy P st) {i : Nat} {it : Item} (hold : findOld P st g key = some (s, i, it))
    (hnew : writeNew P fuel st (some (s, i, it)) g t key data = .eraseOld st')
    (hstale : storageWriteStale P fuel st g t key data = false) :
    Tidy P st' ∧ Grows st st' ∧ s ∈ st'.active ∧ (i, it) ∈ st'.items s := by
  obtain ⟨ht', hg⟩ := ht.writeNew_grows fuel (some (s, i, it)) g t key data
  rw [hnew] at ht' hg
  simp only [Appended.store] at ht' hg
  obtain ⟨hs, hm, _⟩ := ht.find_keyed (by simp [keyQuery]) hold
  obtain ⟨evs, htr, _, hext⟩ := hg.trace
  have hno : ¬ Erases evs s := by
    rintro ⟨ev, hev, hop⟩
    unfold storageWriteStale at hstale
    simp only [hold, hnew] at hstale
    have hlog : st'.log.drop st.log.length = evs := by
      rw [show st'.log = st.log ++ evs from htr.log, List.drop_left]
    rw [hlog] at hstale
    have hall := List.any_eq_false.mp hstale ev hev
    exact hall (by simpa using hop)
  have hx := hext s hs hno
  obtain ⟨M, hM⟩ := hx.items
  refine ⟨ht', hg, hx.active, ?_⟩
  rw [hM]
  exact List.mem_append_left M hm

theorem Tidy.writeItem (ht : Tidy P st) (hstale : storageWriteStale P fuel st g t key data = false) :
    Orderly P st (storageWriteItem P fuel st g t key data).2 := by
  unfold storageWriteItem
  simp only
  obtain ⟨ht', hg⟩ := ht.writeNew_grows fuel (findOld P st g key) g t key data
  cases hnew : writeNew P fuel st (findOld P st g key) g t key data with
  | running st₁ =>
    rw [hnew] at ht' hg
    exact .of_grows ht' hg
  | done err st₁ =>
    rw [hnew] at ht' hg
    exact .of_grows ht' hg
  | eraseOld st₁ =>
    rw [hnew] at ht' hg
    cases hold : findOld P st g key with
    | none => exact .of_grows ht' hg
    | some old =>
      obtain ⟨s, i, it⟩ := old
      rw [hold] at hnew
      obtain ⟨ht₁, hg₁, hs, hm⟩ := ht.old_kept hold hnew hstale
      exact (Orderly.of_grows ht₁ hg₁).trans (ht₁.eraseFound hs hm).toOrderly

theorem Orderly.of_groups (h : Orderly P st st') (L : List Group) :
    Orderly P st { st' with groupList := L } := by
  obtain ⟨evs, htr, hw⟩ := h.trace
  exact ⟨h.tidy.of_groups L, h.secNum, evs, ⟨htr.log, htr.flash⟩, hw⟩

theorem Tidy.openGroup (ht : Tidy P st) {group : List Byte} {createNew mem : Bool}
    (hstale : (StorageOp.openGroup group createNew mem).stale P fuel st = false) :
    Orderly P st (storageOpenGroup P st group createNew mem).2.2 := by
  unfold storageOpenGroup
  unfold StorageOp.stale at hstale
  split
  · exact .refl ht
  · rename_i err id hne hfind
    split
    · exact .refl ht
    · have hw : storageWriteStale P 0 st groupItselfId .uint8 group [id] = false := by
        simpa only [hfind] using hstale
      have ho := ht.writeItem hw
      split
      · rename_i st₁ hwrite
        rw [hwrite] at ho
        cases mem with
        | true => exact ho.of_groups _
        | false => exact ho
      · rename_i hwrite
        rw [hwrite] at ho
        exact ho
      · rename_i hwrite
        rw [hwrite] at ho
        exact ho

/-- One operation that is not stale. -/
theorem Tidy.step (ht : Tidy P st) (op : StorageOp) (hstale : op.stale P fuel st = false) :
    Orderly P st (op.run P fuel st) := by
  cases op with
  | write g t key data => exact ht.writeItem hstale
  | del g t key => exact (ht.delItem g t key).toOrderly
  | delGroup g => exact (ht.delGroup g).toOrderly
  | openGroup group createNew mem => exact ht.openGroup hstale
  | read g t key size => exact (ht.readItem g t key size).toOrderly

theorem Tidy.run (ht : Tidy P st) (h : StorageRun P st st') : Orderly P st st' := by
  induction h with
  | refl => exact .refl ht
  | step _ op fuel hstale ih => exact ih.trans (ih.tidy.step op hstale)

/-- An idle sector without a header is erased. -/
theorem Tidy.idle_clean (ht : Tidy P st) (hs : s ∈ st.idle) (hstate : (st.secArr s).state = sectorUninit) :
    BlankOn st.flash (s * 4096) (s * 4096 + 4096) ∧ (st.secArr s).nextFreeSlice = 0 ∧
      (st.secArr s).usedSlice = 0 ∧ (st.secArr s).dropedSlice = 0 ∧ (st.secArr s).hash = [] := by
  rcases ht.idle s hs with (hc | hc) | ⟨hu, hd⟩
  · rw [hstate] at hc
    exact absurd hc (by decide)
  · rw [hstate] at hc
    exact absurd hc (by decide)
  · have haddr := ht.address s (List.mem_append_right _ hs)
    have hb := hu.fresh hstate
    rw [haddr] at hb
    have hz : (st.secArr s).nextFreeSlice = 0 := hu.packed.chain.symm
    exact ⟨hb, hz, hu.packed.used.trans hz, hd, hu.packed.hash⟩

end Steps

/-- From a mounted image on, operations that are not stale program active sectors only, apart from
the state byte written before a sector is erased, and keep the idle sectors clean. -/
theorem idle_sectors_stay_clean (P : Port) {flash : Flash} {n : Nat} {mem : List Bool} {st st' : Store}
    (hn : 2 ≤ n) (hi : ImageTidy P flash n)
    (hroom : ∀ st, smLoadSectors P (Store.unmounted flash n) = (.ok, st) → CanMount st)
    (hinit : storageInit P flash n mem = (.ok, st)) (hrun : StorageRun P st st') :
    (∃ evs, st'.log = st.log ++ evs ∧ WellPlaced evs) ∧
      ∀ s ∈ st'.idle, (st'.secArr s).state = sectorUninit →
        BlankOn st'.flash (s * 4096) (s * 4096 + 4096) ∧ (st'.secArr s).nextFreeSlice = 0 ∧
          (st'.secArr s).usedSlice = 0 ∧ (st'.secArr s).dropedSlice = 0 ∧ (st'.secArr s).hash = [] := by
  have ho := (storageInit_tidy hn hi hroom hinit).run hrun
  obtain ⟨evs, htr, hw⟩ := ho.trace
  exact ⟨⟨evs, htr.log, hw⟩, fun s hs hstate => ho.tidy.idle_clean hs hstate⟩

/-- Two erased sectors. -/
def blankImage : Flash := fun _ => blank

/-- A partition of two erased sectors, mounted. -/
def testStore : Store := (storageInit testPort blankImage 2 []).2

theorem eq_ok_of_fst {r : Err × Store} (h : r.1 = .ok) : r = (.ok, r.2) := by
  rw [← h]

theorem testStore_mounted : storageInit testPort blankImage 2 [] = (.ok, testStore) :=
  eq_ok_of_fst (by decide +kernel)

theorem blankImage_tidy : ImageTidy testPort blankImage 2 := fun _ _ => Or.inr (Or.inl rfl)

theorem blankImage_canMount (st : Store)
    (h : smLoadSectors testPort (Store.unmounted blankImage 2) = (.ok, st)) : CanMount st := by
  have hidle : (smLoadSectors testPort (Store.unmounted blankImage 2)).2.idle = [1] := by
    decide +kernel
  rw [h] at hidle
  left
  rw [hidle]
  simp

theorem testStore_tidy : Tidy testPort testStore :=
  storageInit_tidy (Nat.le_refl 2) blankImage_tidy blankImage_canMount testStore_mounted

theorem idle_sectors_stay_clean_write :
    let op := StorageOp.write 1 .uint8 [0x6b] [1]
    (∃ evs, (op.run testPort 0 testStore).log = testStore.log ++ evs ∧ WellPlaced evs) ∧
      ∀ s ∈ (op.run testPort 0 testStore).idle, ((op.run testPort 0 testStore).secArr s).state = sectorUninit →
        BlankOn (op.run testPort 0 testStore).flash (s * 4096) (s * 4096 + 4096) ∧
          ((op.run testPort 0 testStore).secArr s).nextFreeSlice = 0 ∧
          ((op.run testPort 0 testStore).secArr s).usedSlice = 0 ∧
          ((op.run testPort 0 testStore).secArr s).dropedSlice = 0 ∧
          ((op.run testPort 0 testStore).secArr s).hash = [] :=
  idle_sectors_stay_clean testPort (Nat.le_refl 2) blankImage_tidy blankImage_canMount testStore_mounted
    (.step .refl (.write 1 .uint8 [0x6b] [1]) 0 (by decide +kernel))

def runOps (P : Port) (fuel : Nat) (ops : List StorageOp) (st : Store) : Store :=
  ops.foldl (fun st op => op.run P fuel st) st

/-- The first sector filled, with the item of key `k` in its last slice. -/
def fillOps : List StorageOp :=
  [.write 1 .binary [0x66] (List.replicate 3968 0x55), .write 1 .uint8 [0x6b] [1],
    .write 1 .uint8 [0x6b] [2], .del 1 .binary [0x66]]

/-- What a write leaves whose collection takes the sector of the old copy. -/
def staleStore : Store :=
  (StorageOp.write 1 .uint8 [0x6b] [3]).run testPort 0 (runOps testPort 0 fillOps testStore)

/-- Its last program went to an idle, erased sector. -/
theorem stale_write_dirties_idle : 0 ∈ staleStore.idle ∧ (staleStore.secArr 0).state = sectorUninit ∧
    ¬ BlankOn staleStore.flash (0 * 4096) (0 * 4096 + 4096) := by
  have h : staleStore.idle = [0] ∧ (staleStore.secArr 0).state = sectorUninit ∧
      staleStore.flash 4064 = itemDroped := by decide +kernel
  obtain ⟨hidle, hstate, hflash⟩ := h
  rw [hidle]
  refine ⟨List.mem_singleton_self 0, hstate, ?_⟩
  intro hb
  have hblank := hb 4064 (by omega) (by omega)
  rw [hflash] at hblank
  exact absurd hblank (by decide)

end WmIot.Nvs
