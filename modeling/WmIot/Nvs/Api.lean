import WmIot.Nvs.Iterator

/-!
# The NVS interface

`wm_nvs.c`, `wm_nvs_partition_manager.c` and `wm_nvs_handler.c`: mounted partitions, open handles
and the calls made through them. Handles are named by their address; pointers for results are
valid, the mutex is free, and the outcomes of the two allocations of an open are arguments: that
of the handle is the address it gets.
-/

namespace WmIot.Nvs
open NorFlash
set_option autoImplicit false

/-- `wm_nvs_open_mode_t`; `other` is a value outside the enumeration. -/
inductive OpenMode where
  | readOnly | readWrite | other
  deriving DecidableEq

/-- A mounted partition with its storage. `wm_nvs_pt_init` clears `readonly`. -/
structure Partition where
  name : List Byte
  readonly : Bool
  store : Store

/-- `wm_nvs_handle_info_t`; its storage is named by the partition. -/
structure Handle where
  addr : Nat
  storage : List Byte
  groupId : Byte
  mode : OpenMode
  valid : Bool
  deriving DecidableEq

/-- The partition manager: the lists of storages and of open handles. -/
structure Ptm where
  storages : List Partition
  handles : List Handle

@[simp] abbrev maxHandleNum : Nat := 64

/-- `WM_NVS_DEF_PARTITION`, "nvs". -/
def defPartition : List Byte := [0x6e, 0x76, 0x73]

namespace Ptm

/-- `wm_nvs_ptm_find_storage`. -/
def findStorage (sys : Ptm) (name : List Byte) : Option Partition :=
  sys.storages.find? fun p => p.name == name

def replaceStore (name : List Byte) (st : Store) : List Partition → List Partition
  | [] => []
  | p :: ps => if p.name == name then { p with store := st } :: ps else p :: replaceStore name st ps

/-- What a call leaves in the storage found under the name. -/
def setStore (sys : Ptm) (name : List Byte) (st : Store) : Ptm :=
  { sys with storages := replaceStore name st sys.storages }

def findHandle (sys : Ptm) (addr : Nat) : Option Handle := sys.handles.find? fun h => h.addr == addr

/-- `wm_nvs_ptm_is_handle_valid`, with the handle and its storage. -/
def resolve (sys : Ptm) (addr : Nat) : Option (Handle × Partition) :=
  match sys.findHandle addr with
  | none => none
  | some h => if h.valid then (sys.findStorage h.storage).map fun p => (h, p) else none

end Ptm

/-- An iterator with the storage it walks over. -/
structure Cursor where
  storage : List Byte
  it : Iterator
  deriving DecidableEq

/-- What a call hands back. An error code `none` says that the call is still running. -/
inductive Reply where
  | code (err : Option Err)
  | opened (err : Err) (handle : Option Nat)
  | read (r : ReadResult)
  | info (err : Err) (type : BitVec 4) (size : Nat)
  | entry (err : Option Err) (cursor : Option Cursor)
  | entryInfo (err : Err) (info : EntryInfo)
  deriving DecidableEq

/-! ## Handles -/

def ptmOpenHandle (P : Port) (sys : Ptm) (name group : List Byte) (mode : OpenMode)
    (groupMem : Bool) (handleMem : Option Nat) : Err × Option Nat × Ptm :=
  if sys.storages.isEmpty then (.notInit, none, sys)
  else if sys.handles.length ≥ maxHandleNum then (.fail, none, sys)
  else
    match sys.findStorage name with
    | none => (.notFound, none, sys)
    | some p =>
      if mode = .readWrite ∧ p.readonly then (.readOnly, none, sys)
      else
        match storageOpenGroup P p.store group true groupMem with
        | (.ok, groupId, st) =>
          let sys := sys.setStore name st
          match handleMem with
          | some addr => (.ok, some addr, { sys with handles := sys.handles ++ [⟨addr, name, groupId, mode, true⟩] })
          | none => (.noMem, none, sys)
        | (err, _, st) => (err, none, sys.setStore name st)

def nvsOpen (P : Port) (sys : Ptm) (partition group : Option (List Byte)) (mode : OpenMode)
    (groupMem : Bool) (handleMem : Option Nat) : Err × Option Nat × Ptm :=
  match group with
  | none => (.invalidParam, none, sys)
  | some group =>
    if mode = .other then (.invalidParam, none, sys)
    else if group.length > maxKeyLen then (.invalidParam, none, sys)
    else ptmOpenHandle P sys (partition.getD defPartition) group mode groupMem handleMem

def nvsClose (sys : Ptm) (handle : Option Nat) : Err × Ptm :=
  match handle with
  | none => (.invalidParam, sys)
  | some addr =>
    match sys.findHandle addr with
    | some h =>
      if h.valid then (.ok, { sys with handles := sys.handles.filter fun e => e.addr ≠ addr })
      else (.invalidHandle, sys)
    | none => (.invalidHandle, sys)

/-! ## Items -/

/-- `get_item`; the functions `wm_nvs_get_*` call it with their own type and size. -/
def getItem (P : Port) (sys : Ptm) (handle : Option Nat) (type : NvsType) (key : Option (List Byte))
    (size : Nat) : ReadResult × Ptm :=
  match handle, key with
  | some addr, some key =>
    if size > 0 ∧ type.IsValue then
      match sys.resolve addr with
      | some (h, p) =>
        let r := storageReadItem P p.store h.groupId type key size
        (r.1, sys.setStore h.storage r.2)
      | none => (⟨.invalidHandle, size, []⟩, sys)
    else (⟨.invalidParam, size, []⟩, sys)
  | _, _ => (⟨.invalidParam, size, []⟩, sys)

/-- `set_item`; the functions `wm_nvs_set_*` call it with their own type and value. -/
def setItem (P : Port) (fuel : Nat) (sys : Ptm) (handle : Option Nat) (type : NvsType)
    (key data : Option (List Byte)) : Option Err × Ptm :=
  match handle, key, data with
  | some addr, some key, some data =>
    if type.IsValue ∧ key.length > 0 ∧ key.length ≤ maxKeyLen then
      match sys.resolve addr with
      | some (h, p) =>
        if h.mode = .readOnly then (some .readOnly, sys)
        else
          let r := storageWriteItem P fuel p.store h.groupId type key data
          (r.1, sys.setStore h.storage r.2)
      | none => (some .invalidHandle, sys)
    else (some .invalidParam, sys)
  | _, _, _ => (some .invalidParam, sys)

def nvsDelKey (P : Port) (sys : Ptm) (handle : Option Nat) (key : Option (List Byte)) : Err × Ptm :=
  match handle, key with
  | some addr, some key =>
    match sys.resolve addr with
    | some (h, p) =>
      if h.mode = .readOnly then (.readOnly, sys)
      else
        let r := storageDelItem P p.store h.groupId .anyWithoutSeg key
        (r.1, sys.setStore h.storage r.2)
    | none => (.invalidHandle, sys)
  | _, _ => (.invalidParam, sys)

def nvsDelGroup (P : Port) (sys : Ptm) (handle : Option Nat) : Err × Ptm :=
  match handle with
  | some addr =>
    match sys.resolve addr with
    | some (h, p) =>
      if h.mode = .readOnly then (.readOnly, sys)
      else
        let r := storageDelGroup P p.store h.groupId
        (r.1, sys.setStore h.storage r.2)
    | none => (.invalidHandle, sys)
  | none => (.invalidParam, sys)

/-- `wm_nvs_get_info`, which uses the handle without checking that it is open. -/
def nvsGetInfo (P : Port) (sys : Ptm) (handle : Option Nat) (key : Option (List Byte)) :
    Err × BitVec 4 × Nat :=
  match handle, key with
  | some addr, some key =>
    match sys.resolve addr with
    | some (h, p) =>
      match storageFindKey P p.store h.groupId key with
      | some it =>
        (.ok, it.type, if it.type = NvsType.blob.code then it.allSize else it.length.toNat)
      | none => (.notFound, 0, 0)
    | none => (.fault, 0, 0)
  | _, _ => (.invalidParam, 0, 0)

/-! ## Iteration -/

def Cursor.next (P : Port) (fuel : Nat) (sys : Ptm) (c : Cursor) : Option Err × Option Cursor :=
  match sys.findStorage c.storage with
  | none => (some .fault, none)
  | some p =>
    match (iteratorNext P fuel p.store c.it).2 with
    | .found it _ _ _ => (some .ok, some { c with it := it })
    | .notFound => (some .notFound, none)
    | .stray => (some .fault, none)
    | .running => (none, some c)

/-- The type both functions that begin an iteration hand on. -/
def lookUpType (type : NvsType) : NvsType := if type = .any then .anyWithoutSeg else type

def nvsEntryFind (P : Port) (fuel : Nat) (sys : Ptm) (partition group : Option (List Byte))
    (type : NvsType) : Option Err × Option Cursor :=
  match partition, group with
  | some partition, some group =>
    if type = .any ∨ type.IsValue then
      match sys.findStorage partition with
      | none => (some .notInit, none)
      | some p =>
        match p.store.groupList.find? fun g => g.name == group with
        | none => (some .notFound, none)
        | some g => Cursor.next P fuel sys ⟨partition, { groupId := g.id, type := lookUpType type }⟩
    else (some .invalidParam, none)
  | _, _ => (some .invalidParam, none)

def nvsEntryFindByHandle (P : Port) (fuel : Nat) (sys : Ptm) (handle : Option Nat) (type : NvsType) :
    Option Err × Option Cursor :=
  match handle with
  | some addr =>
    if type = .any ∨ type.IsValue then
      match sys.resolve addr with
      | some (h, _) => Cursor.next P fuel sys ⟨h.storage, { groupId := h.groupId, type := lookUpType type }⟩
      | none => (some .invalidHandle, none)
    else (some .invalidParam, none)
  | none => (some .invalidParam, none)

def nvsEntryNext (P : Port) (fuel : Nat) (sys : Ptm) (c : Option Cursor) : Option Err × Option Cursor :=
  match c with
  | some c => c.next P fuel sys
  | none => (some .invalidParam, none)

def nvsEntryInfo (c : Option Cursor) : Err × EntryInfo :=
  match c with
  | some c => (.ok, c.it.info)
  | none => (.invalidParam, {})

def nvsEntryData (P : Port) (sys : Ptm) (c : Option Cursor) (size : Nat) : ReadResult × Ptm :=
  match c with
  | some c =>
    if size > 0 then
      match sys.findStorage c.storage with
      | some p =>
        let r := storageReadItem P p.store (c.it.info.groupId.setWidth 8) (.ofCode c.it.info.type)
          c.it.info.key size
        (r.1, sys.setStore c.storage r.2)
      | none => (⟨.fault, size, []⟩, sys)
    else (⟨.invalidParam, size, []⟩, sys)
  | none => (⟨.invalidParam, size, []⟩, sys)

/-! ## Calls -/

inductive Call where
  | open (partition group : Option (List Byte)) (mode : OpenMode) (groupMem : Bool)
    (handleMem : Option Nat)
  | close (handle : Option Nat)
  | get (handle : Option Nat) (type : NvsType) (key : Option (List Byte)) (size : Nat)
  | set (handle : Option Nat) (type : NvsType) (key data : Option (List Byte))
  | delKey (handle : Option Nat) (key : Option (List Byte))
  | delGroup (handle : Option Nat)
  | getInfo (handle : Option Nat) (key : Option (List Byte))
  | entryFind (partition group : Option (List Byte)) (type : NvsType)
  | entryFindByHandle (handle : Option Nat) (type : NvsType)
  | entryNext (c : Option Cursor)
  | entryInfo (c : Option Cursor)
  | entryData (c : Option Cursor) (size : Nat)

def Call.run (P : Port) (fuel : Nat) (sys : Ptm) : Call → Reply × Ptm
  | .open partition group mode groupMem handleMem =>
    let r := nvsOpen P sys partition group mode groupMem handleMem
    (.opened r.1 r.2.1, r.2.2)
  | .close handle =>
    let r := nvsClose sys handle
    (.code (some r.1), r.2)
  | .get handle type key size =>
    let r := getItem P sys handle type key size
    (.read r.1, r.2)
  | .set handle type key data =>
    let r := setItem P fuel sys handle type key data
    (.code r.1, r.2)
  | .delKey handle key =>
    let r := nvsDelKey P sys handle key
    (.code (some r.1), r.2)
  | .delGroup handle =>
    let r := nvsDelGroup P sys handle
    (.code (some r.1), r.2)
  | .getInfo handle key =>
    let r := nvsGetInfo P sys handle key
    (.info r.1 r.2.1 r.2.2, sys)
  | .entryFind partition group type =>
    let r := nvsEntryFind P fuel sys partition group type
    (.entry r.1 r.2, sys)
  | .entryFindByHandle handle type =>
    let r := nvsEntryFindByHandle P fuel sys handle type
    (.entry r.1 r.2, sys)
  | .entryNext c =>
    let r := nvsEntryNext P fuel sys c
    (.entry r.1 r.2, sys)
  | .entryInfo c =>
    let r := nvsEntryInfo c
    (.entryInfo r.1 r.2, sys)
  | .entryData c size =>
    let r := nvsEntryData P sys c size
    (.read r.1, r.2)

end WmIot.Nvs
