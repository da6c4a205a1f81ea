import WmIot.Nvs.Api

/-!
# Read-only access

A sequence of calls made with read-only handles leaves every storage as it was, and with it the
replies to every later call made through another handle, as long as each group opened is known
and each blob read has its segments. An open of an unknown group writes it in either mode.
-/

namespace WmIot.Nvs
open NorFlash
set_option autoImplicit false

variable {P : Port} {fuel : Nat} {sys sys' : Ptm}

/-! ## Blobs with their segments -/

/-- The segments a lookup finds for the descriptor, from the `i`-th on, make up `left` bytes. -/
def segmentsAddUp (P : Port) (st : Store) (it : Item) : Nat → Nat → Nat → Bool
  | 0, _, left => left == 0
  | n + 1, i, left =>
    match smFindItem P st (segQuery it i) 0 with
    | none => false
    | some (_, _, seg) =>
      decide (seg.length.toNat ≤ left) && segmentsAddUp P st it n (i + 1) (left - seg.length.toNat)

/-- A read with this buffer meets no blob descriptor without its segments. -/
def readIntact (P : Port) (st : Store) (groupId : Byte) (type : NvsType) (key : List Byte)
    (size : Nat) : Bool :=
  match type, smFindItem P st (keyQuery groupId type key) 0 with
  | .blob, some (_, _, it) => decide (size < it.allSize) || segmentsAddUp P st it it.segCount 0 it.allSize
  | _, _ => true

theorem sectorReadItemData_length {st : Store} {s index size : Nat} {it : Item} {bytes : List Byte}
    (h : sectorReadItemData st s index it size = some bytes) : bytes.length = size := by
  unfold sectorReadItemData at h
  split at h
  case isTrue hsize =>
    obtain rfl := Option.some.inj h
    simp only [List.length_take, Vector.length_toList]
    omega
  case isFalse =>
    unfold Store.ptRead at h
    split at h
    · obtain rfl := Option.some.inj h
      simp
    · cases h

/-- A blob whose segments add up is read, or the flash read fails: in neither case is it erased. -/
theorem readBlobLoop_err {st : Store} {it : Item} {size : Nat} (n : Nat) :
    ∀ (i : Nat) (acc : List Byte), acc.length ≤ size → segmentsAddUp P st it n i (size - acc.length) = true →
      (readBlobLoop P st it size n i acc).1 = .ok ∨ (readBlobLoop P st it size n i acc).1 = .invalidParam := by
  induction n with
  | zero =>
    intro i acc hacc hsum
    have hleft : size - acc.length = 0 := by simpa [segmentsAddUp] using hsum
    have hsize : acc.length = size := by omega
    exact Or.inl (by rw [readBlobLoop, if_pos hsize])
  | succ n ih =>
    intro i acc hacc hsum
    rw [segmentsAddUp] at hsum
    rw [readBlobLoop]
    cases hfind : smFindItem P st (segQuery it i) 0 with
    | none => simp [hfind] at hsum
    | some found =>
      obtain ⟨s, index, seg⟩ := found
      simp only [hfind, Bool.and_eq_true, decide_eq_true_eq] at hsum
      obtain ⟨hlen, hsum⟩ := hsum
      have hroom : ¬ seg.length.toNat + acc.length > size := by omega
      simp only [if_neg hroom]
      cases hread : sectorReadItemData st s index seg seg.length.toNat with
      | none => exact Or.inr rfl
      | some bytes =>
        have hbytes := sectorReadItemData_length hread
        refine ih (i + 1) (acc ++ bytes) (by simp only [List.length_append]; omega) ?_
        rw [List.length_append, hbytes, ← Nat.sub_sub]
        exact hsum

theorem storageReadItem_intact {st : Store} {g : Byte} {t : NvsType} {key : List Byte} {size : Nat}
    (h : readIntact P st g t key size = true) : (storageReadItem P st g t key size).2 = st := by
  unfold storageReadItem
  cases hfind : smFindItem P st (keyQuery g t key) 0 with
  | none => rfl
  | some found =>
    obtain ⟨s, index, it⟩ := found
    dsimp only
    by_cases ht : t = .blob
    · subst ht
      simp only [readIntact, hfind, Bool.or_eq_true, decide_eq_true_eq] at h
      simp only [if_true]
      by_cases hsize : size < it.allSize
      · rw [if_pos hsize]
      · rw [if_neg hsize]
        have hsum := h.resolve_left hsize
        have herr := readBlobLoop_err it.segCount 0 [] (Nat.zero_le it.allSize) hsum
        rw [← storageReadBlob] at herr
        generalize hr : storageReadBlob P st it it.allSize = r at herr
        obtain ⟨err, bytes⟩ := r
        rcases herr with herr | herr <;> obtain rfl := herr <;> simp
    · simp only [if_neg ht]
      by_cases hsize : size < it.length.toNat
      · rw [if_pos hsize]
      · rw [if_neg hsize]
        cases sectorReadItemData st s index it it.length.toNat <;> rfl

/-! ## Storages and handles -/

namespace Ptm

theorem replaceStore_found {name : List Byte} {L : List Partition} {p : Partition}
    (h : L.find? (fun p => p.name == name) = some p) : replaceStore name p.store L = L := by
  induction L with
  | nil => cases h
  | cons q L ih =>
    rw [replaceStore]
    cases hq : q.name == name with
    | true =>
      rw [List.find?_cons, hq] at h
      obtain rfl := Option.some.inj h
      rfl
    | false =>
      rw [List.find?_cons, hq] at h
      simp [ih h]

theorem setStore_found {name : List Byte} {p : Partition} (h : sys.findStorage name = some p) :
    sys.setStore name p.store = sys := by
  unfold setStore
  rw [replaceStore_found h]

theorem resolve_found {addr : Nat} {h : Handle} {p : Partition} (hr : sys.resolve addr = some (h, p)) :
    sys.findHandle addr = some h ∧ sys.findStorage h.storage = some p := by
  unfold resolve at hr
  cases hh : sys.findHandle addr with
  | none => simp [hh] at hr
  | some e =>
    simp only [hh] at hr
    split at hr
    · obtain ⟨q, hq, heq⟩ := Option.map_eq_some_iff.mp hr
      cases heq
      exact ⟨rfl, hq⟩
    · cases hr

@[simp] theorem findHandle_setStore (name : List Byte) (st : Store) (addr : Nat) :
    (sys.setStore name st).findHandle addr = sys.findHandle addr := rfl

end Ptm

/-! ## Read-only calls -/

/-- The handle a call is made through. -/
def Call.handle : Call → Option Nat
  | .close handle => handle
  | .get handle _ _ _ => handle
  | .set handle _ _ _ => handle
  | .delKey handle _ => handle
  | .delGroup handle => handle
  | .getInfo handle _ => handle
  | .entryFindByHandle handle _ => handle
  | _ => none

/-- Opens a handle read-only, goes through a read-only handle, or needs none. -/
def Call.readOnly (sys : Ptm) (c : Call) : Bool :=
  match c with
  | .open _ _ mode _ _ => mode == .readOnly
  | c => (c.handle.bind sys.findHandle).all fun h => h.mode == .readOnly

/-- The group an open names is known, or it finds no handle or no group id left. -/
def openHarmless (sys : Ptm) (p : Partition) (group : List Byte) : Bool :=
  decide (group.length > maxKeyLen) || decide (sys.handles.length ≥ maxHandleNum) ||
    (storageFindGroup p.store group).1 == .ok || (storageFindGroup p.store group).2 == groupIdAny

/-- A read-only call that opens no new group and meets no blob without its segments. -/
def Call.harmless (P : Port) (sys : Ptm) : Call → Bool
  | .open partition group _ _ _ =>
    (sys.findStorage (partition.getD defPartition)).all fun p => group.all (openHarmless sys p)
  | .get handle type key size =>
    (handle.bind sys.resolve).all fun r => key.all fun k => readIntact P r.2.store r.1.groupId type k size
  | .entryData c size =>
    c.all fun c => (sys.findStorage c.storage).all fun p =>
      readIntact P p.store (c.it.info.groupId.setWidth 8) (.ofCode c.it.info.type) c.it.info.key size
  | _ => true

/-- What a read-only call leaves: the storages, and the handles opened for writing. -/
structure Untouched (sys sys' : Ptm) : Prop where
  storages : sys'.storages = sys.storages
  handles : ∀ (a : Nat) (h : Handle), sys.findHandle a = some h → h.mode ≠ .readOnly →
    sys'.findHandle a = some h

theorem Untouched.refl (sys : Ptm) : Untouched sys sys := ⟨rfl, fun _ _ h _ => h⟩

theorem Untouched.trans {sys₁ sys₂ sys₃ : Ptm} (h : Untouched sys₁ sys₂) (h' : Untouched sys₂ sys₃) :
    Untouched sys₁ sys₃ :=
  ⟨h'.storages.trans h.storages, fun a e he hm => h'.handles a e (h.handles a e he hm) hm⟩

theorem storageOpenGroup_known {st : Store} {group : List Byte} (createNew mem : Bool)
    (h : (storageFindGroup st group).1 = .ok ∨ (storageFindGroup st group).2 = groupIdAny) :
    (storageOpenGroup P st group createNew mem).2.2 = st := by
  unfold storageOpenGroup
  generalize storageFindGroup st group = r at h
  obtain ⟨err, id⟩ := r
  rcases h with h | h
  · obtain rfl : err = .ok := h
    rfl
  · obtain rfl : id = groupIdAny := h
    cases err <;> simp

theorem findHandle_append (h : Handle) (a : Nat) :
    Ptm.findHandle { sys with handles := sys.handles ++ [h] } a =
      (sys.findHandle a).or (if h.addr = a then some h else none) := by
  simp only [Ptm.findHandle, List.find?_append, List.find?_singleton, beq_iff_eq]

theorem findHandle_filter (a b : Nat) :
    Ptm.findHandle { sys with handles := sys.handles.filter fun e => e.addr ≠ a } b =
      if b = a then none else sys.findHandle b := by
  unfold Ptm.findHandle
  induction sys.handles with
  | nil => simp
  | cons e L ih =>
    by_cases hea : e.addr = a <;> by_cases heb : e.addr = b <;> simp_all

theorem nvsOpen_untouched {partition group : Option (List Byte)} {mode : OpenMode} {groupMem : Bool}
    {handleMem : Option Nat}
    (h : (Call.open partition group mode groupMem handleMem).harmless P sys = true) :
    Untouched sys (nvsOpen P sys partition group mode groupMem handleMem).2.2 := by
  unfold nvsOpen
  cases group with
  | none => exact .refl sys
  | some group =>
    simp only [Call.harmless, Option.all_some] at h
    dsimp only
    by_cases hmode : mode = .other
    · rw [if_pos hmode]; exact .refl sys
    by_cases hlen : group.length > maxKeyLen
    · rw [if_neg hmode, if_pos hlen]; exact .refl sys
    rw [if_neg hmode, if_neg hlen, ptmOpenHandle]
    by_cases hmounted : sys.storages.isEmpty = true
    · rw [if_pos hmounted]; exact .refl sys
    by_cases hroom : sys.handles.length ≥ maxHandleNum
    · rw [if_neg hmounted, if_pos hroom]; exact .refl sys
    rw [if_neg hmounted, if_neg hroom]
    cases hp : sys.findStorage (partition.getD defPartition) with
    | none => exact .refl sys
    | some p =>
      have hknown : (storageFindGroup p.store group).1 = .ok ∨
          (storageFindGroup p.store group).2 = groupIdAny := by
        simpa only [hp, Option.all_some, openHarmless, hlen, hroom, decide_false, Bool.false_or, Bool.or_eq_true,
          beq_iff_eq] using h
      have hsame := storageOpenGroup_known (P := P) true groupMem hknown
      dsimp only
      by_cases hreadonly : mode = .readWrite ∧ p.readonly = true
      · rw [if_pos hreadonly]; exact .refl sys
      rw [if_neg hreadonly]
      generalize storageOpenGroup P p.store group true groupMem = r at hsame
      obtain ⟨err, id, st⟩ := r
      obtain rfl : st = p.store := hsame
      cases err with
      | ok =>
        dsimp only
        rw [Ptm.setStore_found hp]
        cases handleMem with
        | none => exact .refl sys
        | some addr =>
          refine ⟨rfl, fun a e he _ => ?_⟩
          rw [findHandle_append, he]
          rfl
      | _ =>
        dsimp only
        rw [Ptm.setStore_found hp]
        exact .refl sys

theorem Call.step_untouched (c : Call) (hro : c.readOnly sys = true) (h : c.harmless P sys = true) :
    Untouched sys (c.run P fuel sys).2 := by
  cases c with
  | «open» partition group mode groupMem handleMem => exact nvsOpen_untouched h
  | close handle =>
    cases handle with
    | none => exact .refl sys
    | some addr =>
      simp only [Call.run, nvsClose]
      cases he : sys.findHandle addr with
      | none => exact .refl sys
      | some e =>
        have hmode : e.mode = .readOnly := by simpa [Call.readOnly, Call.handle, he] using hro
        dsimp only
        split
        · refine ⟨rfl, fun a h ha hm => ?_⟩
          rw [findHandle_filter, if_neg, ha]
          rintro rfl
          rw [he] at ha
          obtain rfl := Option.some.inj ha
          exact hm hmode
        · exact .refl sys
  | get handle type key size =>
    cases handle with
    | none => exact .refl sys
    | some addr =>
      cases key with
      | none => exact .refl sys
      | some key =>
        simp only [Call.run, getItem]
        split
        · cases hr : sys.resolve addr with
          | none => exact .refl sys
          | some r =>
            obtain ⟨e, p⟩ := r
            have hint : readIntact P p.store e.groupId type key size = true := by
              simpa [Call.harmless, hr] using h
            dsimp only
            rw [storageReadItem_intact hint, Ptm.setStore_found (Ptm.resolve_found hr).2]
            exact .refl sys
        · exact .refl sys
  | set handle type key data =>
    unfold Call.run setItem
    dsimp only
    split
    · rename_i addr key data
      split
      · cases hr : sys.resolve addr with
        | none => exact .refl sys
        | some r =>
          obtain ⟨e, p⟩ := r
          have hmode : e.mode = .readOnly := by
            simpa [Call.readOnly, Call.handle, (Ptm.resolve_found hr).1] using hro
          dsimp only
          rw [if_pos hmode]
          exact .refl sys
      · exact .refl sys
    · exact .refl sys
  | delKey handle key =>
    unfold Call.run nvsDelKey
    dsimp only
    split
    · rename_i addr key
      cases hr : sys.resolve addr with
      | none => exact .refl sys
      | some r =>
        obtain ⟨e, p⟩ := r
        have hmode : e.mode = .readOnly := by
          simpa [Call.readOnly, Call.handle, (Ptm.resolve_found hr).1] using hro
        dsimp only
        rw [if_pos hmode]
        exact .refl sys
    · exact .refl sys
  | delGroup handle =>
    unfold Call.run nvsDelGroup
    dsimp only
    split
    · rename_i addr
      cases hr : sys.resolve addr with
      | none => exact .refl sys
      | some r =>
        obtain ⟨e, p⟩ := r
        have hmode : e.mode = .readOnly := by
          simpa [Call.readOnly, Call.handle, (Ptm.resolve_found hr).1] using hro
        dsimp only
        rw [if_pos hmode]
        exact .refl sys
    · exact .refl sys
  | getInfo handle key => exact .refl sys
  | entryFind partition group type => exact .refl sys
  | entryFindByHandle handle type => exact .refl sys
  | entryNext c => exact .refl sys
  | entryInfo c => exact .refl sys
  | entryData c size =>
    cases c with
    | none => exact .refl sys
    | some c =>
      simp only [Call.run, nvsEntryData]
      split
      · cases hp : sys.findStorage c.storage with
        | none => exact .refl sys
        | some p =>
          have hint := h
          simp only [Call.harmless, Option.all_some, hp] at hint
          dsimp only
          rw [storageReadItem_intact hint, Ptm.setStore_found hp]
          exact .refl sys
      · exact .refl sys

/-! ## What another handle sees -/

/-- The same storages, and the same handles at the addresses in `H`. -/
structure SameView (H : Nat → Prop) (sys sys' : Ptm) : Prop where
  storages : sys'.storages = sys.storages
  handles : ∀ a, H a → sys'.findHandle a = sys.findHandle a

def Call.opens : Call → Nat
  | .open .. => 1
  | _ => 0

section View
variable {H : Nat → Prop}

theorem SameView.findStorage (hv : SameView H sys sys') (name : List Byte) :
    sys'.findStorage name = sys.findStorage name := by
  unfold Ptm.findStorage
  rw [hv.storages]

theorem SameView.resolve (hv : SameView H sys sys') {a : Nat} (ha : H a) :
    sys'.resolve a = sys.resolve a := by
  unfold Ptm.resolve
  rw [hv.handles a ha]
  simp only [hv.findStorage]

theorem SameView.setStore (hv : SameView H sys sys') (name : List Byte) (st : Store) :
    SameView H (sys.setStore name st) (sys'.setStore name st) := by
  refine ⟨?_, hv.handles⟩
  unfold Ptm.setStore
  rw [hv.storages]

theorem SameView.append (hv : SameView H sys sys') (h : Handle) :
    SameView H { sys with handles := sys.handles ++ [h] } { sys' with handles := sys'.handles ++ [h] } := by
  refine ⟨hv.storages, fun a ha => ?_⟩
  rw [findHandle_append, findHandle_append, hv.handles a ha]

theorem SameView.close (hv : SameView H sys sys') (a : Nat) :
    SameView H { sys with handles := sys.handles.filter fun e => e.addr ≠ a }
      { sys' with handles := sys'.handles.filter fun e => e.addr ≠ a } := by
  refine ⟨hv.storages, fun b hb => ?_⟩
  rw [findHandle_filter, findHandle_filter, hv.handles b hb]

theorem SameView.next (hv : SameView H sys sys') (c : Cursor) :
    c.next P fuel sys' = c.next P fuel sys := by
  unfold Cursor.next
  rw [hv.findStorage]

theorem SameView.open (hv : SameView H sys sys') (hroom : sys.handles.length < maxHandleNum)
    (hroom' : sys'.handles.length < maxHandleNum) (partition group : Option (List Byte)) (mode : OpenMode)
    (groupMem : Bool) (handleMem : Option Nat) :
    (nvsOpen P sys' partition group mode groupMem handleMem).1 =
        (nvsOpen P sys partition group mode groupMem handleMem).1 ∧
      (nvsOpen P sys' partition group mode groupMem handleMem).2.1 =
        (nvsOpen P sys partition group mode groupMem handleMem).2.1 ∧
      SameView H (nvsOpen P sys partition group mode groupMem handleMem).2.2
        (nvsOpen P sys' partition group mode groupMem handleMem).2.2 := by
  unfold nvsOpen ptmOpenHandle
  cases group with
  | none => exact ⟨rfl, rfl, hv⟩
  | some group =>
    dsimp only
    by_cases hmode : mode = .other
    · simp only [if_pos hmode]
      exact ⟨trivial, trivial, hv⟩
    by_cases hlen : group.length > maxKeyLen
    · simp only [if_neg hmode, if_pos hlen]
      exact ⟨trivial, trivial, hv⟩
    by_cases hmounted : sys.storages.isEmpty = true
    · simp only [if_neg hmode, if_neg hlen, hv.storages, if_pos hmounted]
      exact ⟨trivial, trivial, hv⟩
    simp only [if_neg hmode, if_neg hlen, hv.storages, if_neg hmounted, if_neg (Nat.not_le.mpr hroom),
      if_neg (Nat.not_le.mpr hroom'), hv.findStorage]
    cases sys.findStorage (partition.getD defPartition) with
    | none => exact ⟨rfl, rfl, hv⟩
    | some p =>
      dsimp only
      by_cases hreadonly : mode = .readWrite ∧ p.readonly = true
      · simp only [if_pos hreadonly]
        exact ⟨trivial, trivial, hv⟩
      simp only [if_neg hreadonly]
      obtain ⟨err, id, st⟩ := storageOpenGroup P p.store group true groupMem
      have hset := hv.setStore (partition.getD defPartition) st
      cases err with
      | ok =>
        cases handleMem with
        | none => exact ⟨rfl, rfl, hset⟩
        | some addr => exact ⟨rfl, rfl, hset.append _⟩
      | _ => exact ⟨rfl, rfl, hset⟩

theorem Call.run_sameView (P : Port) (fuel : Nat) (hv : SameView H sys sys') (c : Call) (hH : ∀ a, c.handle = some a → H a)
    (hroom : sys.handles.length + c.opens ≤ maxHandleNum)
    (hroom' : sys'.handles.length + c.opens ≤ maxHandleNum) :
    (c.run P fuel sys').1 = (c.run P fuel sys).1 ∧ SameView H (c.run P fuel sys).2 (c.run P fuel sys').2 := by
  cases c with
  | «open» partition group mode groupMem handleMem =>
    obtain ⟨herr, hhandle, hview⟩ := hv.open (P := P) hroom hroom' partition group mode groupMem handleMem
    simp only [Call.run]
    exact ⟨by rw [herr, hhandle], hview⟩
  | close handle =>
    cases handle with
    | none => exact ⟨rfl, hv⟩
    | some a =>
      simp only [Call.run, nvsClose, hv.handles a (hH a rfl)]
      cases sys.findHandle a with
      | none => exact ⟨rfl, hv⟩
      | some e =>
        dsimp only
        split
        · exact ⟨rfl, hv.close a⟩
        · exact ⟨rfl, hv⟩
  | get handle type key size =>
    unfold Call.run getItem
    dsimp only
    split
    · rename_i a key
      split
      · rw [hv.resolve (hH a rfl)]
        cases sys.resolve a with
        | none => exact ⟨rfl, hv⟩
        | some r => exact ⟨rfl, hv.setStore _ _⟩
      · exact ⟨rfl, hv⟩
    · exact ⟨rfl, hv⟩
  | set handle type key data =>
    unfold Call.run setItem
    dsimp only
    split
    · rename_i a key data
      split
      · rw [hv.resolve (hH a rfl)]
        cases sys.resolve a with
        | none => exact ⟨rfl, hv⟩
        | some r =>
          dsimp only
          split
          · exact ⟨rfl, hv⟩
          · exact ⟨rfl, hv.setStore _ _⟩
      · exact ⟨rfl, hv⟩
    · exact ⟨rfl, hv⟩
  | delKey handle key =>
    unfold Call.run nvsDelKey
    dsimp only
    split
    · rename_i a key
      rw [hv.resolve (hH a rfl)]
      cases sys.resolve a with
      | none => exact ⟨rfl, hv⟩
      | some r =>
        dsimp only
        split
        · exact ⟨rfl, hv⟩
        · exact ⟨rfl, hv.setStore _ _⟩
    · exact ⟨rfl, hv⟩
  | delGroup handle =>
    unfold Call.run nvsDelGroup
    dsimp only
    split
    · rename_i a
      rw [hv.resolve (hH a rfl)]
      cases sys.resolve a with
      | none => exact ⟨rfl, hv⟩
      | some r =>
        dsimp only
        split
        · exact ⟨rfl, hv⟩
        · exact ⟨rfl, hv.setStore _ _⟩
    · exact ⟨rfl, hv⟩
  | getInfo handle key =>
    unfold Call.run nvsGetInfo
    dsimp only
    split
    · rename_i a key
      rw [hv.resolve (hH a rfl)]
      exact ⟨rfl, hv⟩
    · exact ⟨rfl, hv⟩
  | entryFind partition group type =>
    unfold Call.run nvsEntryFind
    simp only [hv.findStorage, hv.next]
    exact ⟨trivial, hv⟩
  | entryFindByHandle handle type =>
    unfold Call.run nvsEntryFindByHandle
    dsimp only
    split
    · rename_i a
      simp only [hv.resolve (hH a rfl), hv.next]
      exact ⟨trivial, hv⟩
    · exact ⟨rfl, hv⟩
  | entryNext c =>
    cases c with
    | none => exact ⟨rfl, hv⟩
    | some c =>
      simp only [Call.run, nvsEntryNext, hv.next]
      exact ⟨trivial, hv⟩
  | entryInfo c => exact ⟨rfl, hv⟩
  | entryData c size =>
    cases c with
    | none => exact ⟨rfl, hv⟩
    | some c =>
      simp only [Call.run, nvsEntryData, hv.findStorage]
      split
      · cases sys.findStorage c.storage with
        | none => exact ⟨rfl, hv⟩
        | some p => exact ⟨rfl, hv.setStore _ _⟩
      · exact ⟨rfl, hv⟩

end View

/-! ## Runs -/

/-- The replies to the calls made one after the other, and the state behind them. -/
def runCalls (P : Port) (fuel : Nat) : Ptm → List Call → List Reply × Ptm
  | sys, [] => ([], sys)
  | sys, c :: calls =>
    let r := c.run P fuel sys
    let rest := runCalls P fuel r.2 calls
    (r.1 :: rest.1, rest.2)

/-- Each call is made read-only and is harmless in the state it is made in. -/
def readOnlyRun (P : Port) (fuel : Nat) : Ptm → List Call → Bool
  | _, [] => true
  | sys, c :: calls => c.readOnly sys && c.harmless P sys && readOnlyRun P fuel (c.run P fuel sys).2 calls

/-- Every open of the calls finds a free handle. -/
def Ptm.RoomFor (sys : Ptm) (calls : List Call) : Prop :=
  sys.handles.length + (calls.map Call.opens).sum ≤ maxHandleNum

theorem Untouched.run (calls : List Call) (h : readOnlyRun P fuel sys calls = true) :
    Untouched sys (runCalls P fuel sys calls).2 := by
  induction calls generalizing sys with
  | nil => exact .refl sys
  | cons c calls ih =>
    simp only [readOnlyRun, Bool.and_eq_true] at h
    obtain ⟨⟨hro, hharmless⟩, hrest⟩ := h
    exact (c.step_untouched hro hharmless).trans (ih hrest)

/-- A call adds a handle for its open at most. -/
theorem Call.run_handles (P : Port) (fuel : Nat) (sys : Ptm) (c : Call) :
    (c.run P fuel sys).2.handles.length ≤ sys.handles.length + c.opens := by
  cases c with
  | «open» partition group mode groupMem handleMem =>
    have hset : ∀ (name : List Byte) (st : Store),
        (sys.setStore name st).handles.length ≤ sys.handles.length + 1 := fun _ _ => Nat.le_succ _
    unfold Call.run nvsOpen ptmOpenHandle
    dsimp only [Call.opens]
    repeat' split
    all_goals first
      | exact Nat.le_succ _
      | exact hset _ _
      | rw [List.length_append]; exact Nat.le_refl _
  | close handle =>
    unfold Call.run nvsClose
    dsimp only [Call.opens]
    repeat' split
    all_goals first
      | exact Nat.le_refl _
      | exact List.length_filter_le _ _
  | get =>
    unfold Call.run getItem
    dsimp only
    repeat' split
    all_goals exact Nat.le_refl _
  | set =>
    unfold Call.run setItem
    dsimp only
    repeat' split
    all_goals exact Nat.le_refl _
  | delKey =>
    unfold Call.run nvsDelKey
    dsimp only
    repeat' split
    all_goals exact Nat.le_refl _
  | delGroup =>
    unfold Call.run nvsDelGroup
    dsimp only
    repeat' split
    all_goals exact Nat.le_refl _
  | getInfo => exact Nat.le_refl _
  | entryFind => exact Nat.le_refl _
  | entryFindByHandle => exact Nat.le_refl _
  | entryNext => exact Nat.le_refl _
  | entryInfo => exact Nat.le_refl _
  | entryData =>
    unfold Call.run nvsEntryData
    dsimp only
    repeat' split
    all_goals exact Nat.le_refl _

theorem SameView.run {H : Nat → Prop} (calls : List Call) (hv : SameView H sys sys')
    (hH : ∀ c ∈ calls, ∀ a, c.handle = some a → H a) (hroom : sys.RoomFor calls)
    (hroom' : sys'.RoomFor calls) :
    (runCalls P fuel sys' calls).1 = (runCalls P fuel sys calls).1 := by
  induction calls generalizing sys sys' with
  | nil => rfl
  | cons c calls ih =>
    unfold Ptm.RoomFor at hroom hroom'
    simp only [List.map_cons, List.sum_cons] at hroom hroom'
    obtain ⟨hreply, hview⟩ := c.run_sameView P fuel hv (hH c List.mem_cons_self)
      (by omega) (by omega)
    have hlen := c.run_handles P fuel sys
    have hlen' := c.run_handles P fuel sys'
    simp only [runCalls]
    rw [hreply, ih hview (fun d hd => hH d (List.mem_cons_of_mem c hd))]
    · unfold Ptm.RoomFor
      omega
    · unfold Ptm.RoomFor
      omega

/-- Read-only calls leave the storages and the handles opened for writing as they were, and no
later call through a handle they neither opened nor closed gets another reply. -/
theorem read_only_calls_leave_no_trace (P : Port) (fuel : Nat) (sys : Ptm) (calls rest : List Call)
    (hcalls : readOnlyRun P fuel sys calls = true)
    (hrest : ∀ c ∈ rest, ∀ a, c.handle = some a →
      (runCalls P fuel sys calls).2.findHandle a = sys.findHandle a)
    (hroom : sys.RoomFor rest) (hroom' : (runCalls P fuel sys calls).2.RoomFor rest) :
    Untouched sys (runCalls P fuel sys calls).2 ∧
      (runCalls P fuel (runCalls P fuel sys calls).2 rest).1 = (runCalls P fuel sys rest).1 := by
  have huntouched := Untouched.run calls hcalls
  exact ⟨huntouched, SameView.run rest ⟨huntouched.storages, fun _ h => h⟩ hrest hroom hroom'⟩

/-- The blank partition under its default name, without handles. -/
def mountedPtm : Ptm := ⟨[⟨defPartition, false, testStore⟩], []⟩

/-- A group with a blob and an item, and one handle opened for writing. -/
def sharedPtm : Ptm :=
  (runCalls testPort 4 mountedPtm
    [.open none (some [0x67]) .readWrite true (some 1),
      .set (some 1) .blob (some [0x6b]) (some [1, 2, 3]),
      .set (some 1) .uint8 (some [0x63]) (some [7])]).2

/-- A reader of the group, at another address. -/
def readerCalls : List Call :=
  [.open none (some [0x67]) .readOnly true (some 2), .get (some 2) .blob (some [0x6b]) 64,
    .getInfo (some 2) (some [0x63]), .entryFindByHandle (some 2) .any, .close (some 2)]

/-- The writer reads and overwrites its blob. -/
def writerCalls : List Call :=
  [.get (some 1) .blob (some [0x6b]) 64, .set (some 1) .blob (some [0x6b]) (some [4, 5])]

theorem read_only_calls_leave_no_trace_reader :
    Untouched sharedPtm (runCalls testPort 4 sharedPtm readerCalls).2 ∧
      (runCalls testPort 4 (runCalls testPort 4 sharedPtm readerCalls).2 writerCalls).1 =
        (runCalls testPort 4 sharedPtm writerCalls).1 := by
  have hrun : readOnlyRun testPort 4 sharedPtm readerCalls = true ∧
      (runCalls testPort 4 sharedPtm readerCalls).2.findHandle 1 = sharedPtm.findHandle 1 ∧
      sharedPtm.handles.length = 1 ∧ (runCalls testPort 4 sharedPtm readerCalls).2.handles.length = 1 := by
    decide +kernel
  obtain ⟨hreader, hsame, hone, hone'⟩ := hrun
  apply read_only_calls_leave_no_trace testPort 4 sharedPtm readerCalls writerCalls hreader
  · intro c hc a ha
    have hwriter : c.handle = some 1 := by
      simp only [writerCalls, List.mem_cons, List.not_mem_nil, or_false] at hc
      rcases hc with rfl | rfl <;> rfl
    obtain rfl : 1 = a := Option.some.inj (hwriter.symm.trans ha)
    exact hsame
  · unfold Ptm.RoomFor
    rw [hone]
    decide
  · unfold Ptm.RoomFor
    rw [hone']
    decide

/-- The read-only open of an unknown group. -/
def openUnknown : Call := .open none (some [0x67]) .readOnly true (some 2)

theorem read_only_open_writes_group :
    openUnknown.readOnly mountedPtm = true ∧
      (mountedPtm.storages.map fun p => p.store.groupList.length) = [0] ∧
      ((openUnknown.run testPort 0 mountedPtm).2.storages.map fun p => p.store.groupList.length) = [1] ∧
      (mountedPtm.storages.map fun p => (storageFindKey testPort p.store 0 [0x67]).isSome) = [false] ∧
      ((openUnknown.run testPort 0 mountedPtm).2.storages.map
        fun p => (storageFindKey testPort p.store 0 [0x67]).isSome) = [true] := by
  decide +kernel

end WmIot.Nvs
