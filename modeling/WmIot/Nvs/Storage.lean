import WmIot.Nvs.SectorManager

/-!
# NVS storage

`wm_nvs_storage.c`: groups, plain items, blobs, and the blob check at mount. The writer of
a blob loops until it is done; `fuel` bounds its turns and `none` in place of an error code
says that it is still running in the store given. Allocations succeed, except that of a group
node, whose outcome is an argument.
-/

namespace WmIot.Nvs
open NorFlash
set_option autoImplicit false

/-! ## Groups -/

def cstr (s : List Byte) (n : Nat) : List Byte := s.take (strnlen s n)

/-- The smallest free id from `i` on; `WM_NVS_GROUP_ID_MAX` if there is none. -/
def freeGroupId (groups : List Group) : Nat → Nat → Nat
  | 0, i => i
  | n + 1, i =>
    if i < groupIdMax then
      if groups.any fun g => g.id.toNat == i then freeGroupId groups n (i + 1) else i
    else i

/-- `storage_find_group`: the id of a known group, or the free id for a new one. -/
def storageFindGroup (st : Store) (group : List Byte) : Err × Byte :=
  match st.groupList.find? fun g => g.name == group with
  | some g => (.ok, g.id)
  | none => (.fail, BitVec.ofNat 8 (freeGroupId st.groupList groupIdMax 1))

/-- `storage_add_group`; `mem` is the outcome of the allocation. -/
def storageAddGroup (st : Store) (groupId : Byte) (groupName : List Byte) (maxSize : Nat)
    (mem : Bool) : Err × Store :=
  if mem then
    (.ok, { st with groupList := st.groupList ++ [⟨cstr groupName maxSize, groupId⟩] })
  else (.noMem, st)

def queryGroupItem : Query := ⟨groupItselfId, NvsType.uint8.code, none, segIdAny, segStartAny⟩

/-- The inner loop of `storage_load_groups`; its allocations are answered by `mem` in turn. -/
def loadGroupsLoop (P : Port) (s : Nat) : Nat → Nat → List Bool → Store → List Bool × Store
  | 0, _, mem, st => (mem, st)
  | n + 1, index, mem, st =>
    match sectorFindItem P st s queryGroupItem index with
    | none => (mem, st)
    | some (i, it) =>
      loadGroupsLoop P s n (i + it.span) mem.tail
        (storageAddGroup st it.data[0] it.name.toList maxKeyLen (mem.headD true)).2

def loadGroupsFrom (P : Port) : List Nat → List Bool → Store → Store
  | [], _, st => st
  | s :: ss, mem, st =>
    let (mem, st) := loadGroupsLoop P s (entryCount + 1) 0 mem st
    loadGroupsFrom P ss mem st

def storageLoadGroups (P : Port) (st : Store) (mem : List Bool) : Store :=
  loadGroupsFrom P st.active mem st

/-! ## Blob check -/

/-- `wm_nvs_blob_into_t`: a descriptor and what the segments found so far add up to. The sum
of the lengths cannot wrap, a partition holds fewer than 2^32 bytes. -/
structure BlobInfo where
  name : List Byte
  groupId : BitVec 6
  segCount : Nat
  segStart : Byte
  descDataSize : Nat
  countSegCnt : Nat
  countDataSize : Nat

/-- All items a lookup without key yields from `index` on, each one found after the last. -/
def findAllLoop (P : Port) (st : Store) (s : Nat) (q : Query) : Nat → Nat → List (Nat × Item)
  | 0, _ => []
  | n + 1, index =>
    match sectorFindItem P st s q index with
    | none => []
    | some (i, it) => (i, it) :: findAllLoop P st s q n (i + it.span)

def findAll (P : Port) (st : Store) (s : Nat) (q : Query) : List (Nat × Item) :=
  findAllLoop P st s q (entryCount + 1) 0

def queryBlob : Query := ⟨groupIdAny, NvsType.blob.code, none, segIdAny, segStartAny⟩
def queryBlobSeg : Query := ⟨groupIdAny, NvsType.blobSeg.code, none, segIdAny, segStartAny⟩

def BlobInfo.ofItem (it : Item) : BlobInfo where
  name := it.name.toList
  groupId := it.groupId
  segCount := it.segCount
  segStart := it.segStart
  descDataSize := it.allSize
  countSegCnt := 0
  countDataSize := 0

def storageBlobInitInfo (P : Port) (st : Store) : List BlobInfo :=
  st.active.flatMap fun s => (findAll P st s queryBlob).map fun e => BlobInfo.ofItem e.2

/-- The upper end of the segment numbering that starts at `segStart`. -/
def segEnd (segStart : Byte) : Byte := if segStart = segStartVer1 then segStartAny else segStartVer1

def BlobInfo.inHalf (d : BlobInfo) (segId : Byte) : Bool :=
  decide (d.segStart.toNat ≤ segId.toNat) && decide (segId.toNat < (segEnd d.segStart).toNat)

/-- The test of `storage_blob_check_match`. -/
def BlobInfo.owns (d : BlobInfo) (it : Item) : Bool :=
  strncmpEq it.name.toList d.name maxKeyLen && it.groupId == d.groupId && d.inHalf it.segId

/-- The test of `storage_blob_check_drop`, which compares as many characters as the descriptor has. -/
def BlobInfo.keeps (d : BlobInfo) (it : Item) : Bool :=
  strncmpEq it.name.toList d.name (strnlen d.name maxKeyLen) && it.groupId == d.groupId &&
    d.inHalf it.segId

/-- Counts a segment for the first descriptor it belongs to. -/
def countSeg (it : Item) : List BlobInfo → List BlobInfo
  | [] => []
  | d :: ds =>
    if d.owns it then
      { d with countSegCnt := add8 d.countSegCnt 1, countDataSize := d.countDataSize + it.length.toNat } :: ds
    else d :: countSeg it ds

/-- The index `item_index` is left at by the loop over one sector. -/
def lastIndexOf (found : List (Nat × Item)) : Nat :=
  match found.getLast? with
  | none => 0
  | some (i, it) => i + it.span

def BlobInfo.complete (d : BlobInfo) : Bool :=
  d.countSegCnt == d.segCount && d.countDataSize == d.descDataSize

/-- The loop that erases mismatched descriptors. `itemIndex` is never reset: it starts where
the count of the last sector ended. -/
def eraseMismatched (P : Port) : List BlobInfo → Nat → Store → Store
  | [], _, st => st
  | d :: ds, itemIndex, st =>
    if d.complete then eraseMismatched P ds itemIndex st
    else
      let q : Query := ⟨d.groupId.setWidth 8, NvsType.blob.code, some d.name, segIdAny, segStartAny⟩
      match smFindItem P st q itemIndex with
      | some (s, i, it) => eraseMismatched P ds i (sectorEraseItem st s i it true)
      | none => eraseMismatched P ds itemIndex st

/-- `storage_blob_check_match`: the store and the descriptors that stay in the list. -/
def storageBlobCheckMatch (P : Port) (st : Store) (info : List BlobInfo) : Store × List BlobInfo :=
  if info.length = 0 then (st, info)
  else
    let segs := st.active.map fun s => findAll P st s queryBlobSeg
    let counted := (segs.flatten).foldl (fun info e => countSeg e.2 info) info
    let itemIndex := lastIndexOf (segs.getLast?.getD [])
    (eraseMismatched P counted itemIndex st, counted.filter BlobInfo.complete)

/-- The inner loop of `storage_blob_check_drop` over one sector. -/
def dropOrphansLoop (P : Port) (s : Nat) (info : List BlobInfo) : Nat → Nat → Store → Store
  | 0, _, st => st
  | n + 1, index, st =>
    match sectorFindItem P st s queryBlobSeg index with
    | none => st
    | some (i, it) =>
      dropOrphansLoop P s info n (i + it.span)
        (if info.any fun d => d.keeps it then st else sectorEraseItem st s i it true)

def storageBlobCheckDrop (P : Port) (st : Store) (info : List BlobInfo) : Store :=
  st.active.foldl (fun st s => dropOrphansLoop P s info (entryCount + 1) 0 st) st

def storageBlobCheck (P : Port) (st : Store) : Store :=
  let (st, info) := storageBlobCheckMatch P st (storageBlobInitInfo P st)
  storageBlobCheckDrop P st info

/-! ## Mounting -/

/-- A partition before `wm_nvs_storage_init` has run: everything in RAM is zero. -/
def Store.unmounted (flash : Flash) (secNum : Nat) : Store where
  flash := flash
  secNum := secNum
  secArr := fun _ => {}
  active := []
  idle := []
  serialNumber := 0
  groupList := []
  log := []

def storageInit (P : Port) (flash : Flash) (secNum : Nat) (mem : List Bool) : Err × Store :=
  match smLoad P (Store.unmounted flash secNum) with
  | (.ok, st) => (.ok, storageBlobCheck P (storageLoadGroups P st mem))
  | (err, st) => (err, st)

/-! ## Reading -/

/-- The `i`-th lookup of the segments of a descriptor. -/
def segQuery (it : Item) (i : Nat) : Query :=
  ⟨it.groupId.setWidth 8, NvsType.blobSeg.code, some it.name.toList,
    it.segStart + BitVec.ofNat 8 i, it.segStart⟩

/-- The loop of `storage_read_blob` at segment `i`, with the bytes read so far. -/
def readBlobLoop (P : Port) (st : Store) (it : Item) (size : Nat) :
    Nat → Nat → List Byte → Err × List Byte
  | 0, _, acc =>
    if acc.length = size then (.ok, acc)
    else if acc.length > 0 then (.invalidLength, acc) else (.notFound, acc)
  | n + 1, i, acc =>
    match smFindItem P st (segQuery it i) 0 with
    | none => (.notFound, acc)
    | some (s, index, seg) =>
      if seg.length.toNat + acc.length > size then (.invalidLength, acc)
      else
        match sectorReadItemData st s index seg seg.length.toNat with
        | none => (.invalidParam, acc)
        | some bytes => readBlobLoop P st it size n (i + 1) (acc ++ bytes)

def storageReadBlob (P : Port) (st : Store) (it : Item) (size : Nat) : Err × List Byte :=
  readBlobLoop P st it size it.segCount 0 []

/-- What a read hands back: the code, `*size` and, when it is OK, the bytes. -/
structure ReadResult where
  err : Err
  size : Nat
  data : List Byte
  deriving DecidableEq

def keyQuery (groupId : Byte) (type : NvsType) (key : List Byte) : Query :=
  ⟨groupId, type.code, some key, segIdAny, segStartAny⟩

/-- `wm_nvs_storage_read_item` with a buffer of `size` bytes. -/
def storageReadItem (P : Port) (st : Store) (groupId : Byte) (type : NvsType) (key : List Byte)
    (size : Nat) : ReadResult × Store :=
  match smFindItem P st (keyQuery groupId type key) 0 with
  | none => (⟨.notFound, size, []⟩, st)
  | some (s, index, it) =>
    let dataSize := if type = .blob then it.allSize else it.length.toNat
    if size < dataSize then (⟨.valueTooLong, dataSize, []⟩, st)
    else if type = .blob then
      match storageReadBlob P st it dataSize with
      | (.ok, bytes) => (⟨.ok, dataSize, bytes⟩, st)
      | (err, _) =>
        (⟨err, dataSize, []⟩,
          if err = .notFound ∨ err = .invalidLength then sectorEraseItem st s index it true else st)
    else
      match sectorReadItemData st s index it dataSize with
      | some bytes => (⟨.ok, dataSize, bytes⟩, st)
      | none => (⟨.invalidParam, dataSize, []⟩, st)

def storageFindKey (P : Port) (st : Store) (groupId : Byte) (key : List Byte) : Option Item :=
  (smFindItem P st (keyQuery groupId .anyWithoutSeg key) 0).map fun r => r.2.2

/-! ## Deleting -/

/-- The loop of `storage_erase_blob`: stops at the first segment it does not find. -/
def eraseSegsLoop (P : Port) (it : Item) : Nat → Nat → Err → Store → Err × Store
  | 0, _, err, st => (err, st)
  | n + 1, i, _, st =>
    match smFindItem P st (segQuery it i) 0 with
    | none => (.notFound, st)
    | some (s, index, seg) => eraseSegsLoop P it n (i + 1) .ok (sectorEraseItem st s index seg true)

def storageEraseBlob (P : Port) (st : Store) (s index : Nat) (it : Item) : Err × Store :=
  eraseSegsLoop P it it.segCount 0 .ok (sectorEraseItem st s index it true)

/-- Erases the item found, with its segments when it is a blob descriptor. -/
def eraseFound (P : Port) (st : Store) (s index : Nat) (it : Item) : Err × Store :=
  if it.type = NvsType.blob.code then storageEraseBlob P st s index it
  else (.ok, sectorEraseItem st s index it true)

def storageDelItem (P : Port) (st : Store) (groupId : Byte) (type : NvsType) (key : List Byte) :
    Err × Store :=
  match smFindItem P st (keyQuery groupId type key) 0 with
  | none => (.notFound, st)
  | some (s, index, it) => eraseFound P st s index it

/-- The inner loop of `wm_nvs_storage_del_group` over one sector. -/
def delGroupLoop (P : Port) (groupId : Byte) (s : Nat) : Nat → Nat → Store → Store
  | 0, _, st => st
  | n + 1, start, st =>
    match sectorFindItem P st s ⟨groupId, NvsType.anyWithoutSeg.code, none, segIdAny, segStartAny⟩ start with
    | none => st
    | some (i, it) => delGroupLoop P groupId s n (i + it.span) (eraseFound P st s i it).2

def storageDelGroup (P : Port) (st : Store) (groupId : Byte) : Err × Store :=
  (.ok, st.active.foldl (fun st s => delGroupLoop P groupId s (entryCount + 1) 0 st) st)

/-! ## Writing -/

def nonBlobWriteReqSize (type : NvsType) (size : Nat) : Nat :=
  if type = .string ∨ type = .binary then (if size ≤ 8 then sliceSize else sliceSize + size)
  else sliceSize

def storageCmpFindItem (st : Store) (s index : Nat) (it : Item) (data : List Byte) : Bool :=
  if data.length ≠ it.length.toNat then false
  else if data.length ≤ 8 then it.data.toList.take data.length == data
  else st.ptRead (sliceAddr (st.secArr s).address (index + 1)) data.length == some data

/-- The loop of `storage_cmp_blob` at segment `i` and `offset`. -/
def cmpBlobLoop (P : Port) (st : Store) (it : Item) (data : List Byte) : Nat → Nat → Nat → Bool
  | 0, _, offset => offset == data.length
  | n + 1, i, offset =>
    match smFindItem P st (segQuery it i) 0 with
    | none => false
    | some (s, index, seg) =>
      if seg.length.toNat + offset > data.length then false
      else
        match sectorReadItemData st s index seg seg.length.toNat with
        | none => false
        | some bytes =>
          if bytes == (data.drop offset).take seg.length.toNat then
            cmpBlobLoop P st it data n (i + 1) (offset + seg.length.toNat)
          else false

def storageCmpBlob (P : Port) (st : Store) (it : Item) (data : List Byte) : Bool :=
  it.allSize == data.length && cmpBlobLoop P st it data it.segCount 0 0

/-- The data field of a blob descriptor. -/
def descData (size segCount : Nat) (segStart : Byte) : List Byte :=
  le32 (BitVec.ofNat 32 size) ++ [BitVec.ofNat 8 segCount, segStart, 0xff#8, 0xff#8]

def storageWriteBlobDesc (P : Port) (st : Store) (s : Nat) (groupId : Byte) (key : List Byte)
    (size segCount : Nat) (segStart : Byte) : Err × Store :=
  sectorWriteItem P st s groupId .blob key (descData size segCount segStart) segIdAny

/-- The arguments and the start sector of a blob write. -/
structure BlobWrite where
  groupId : Byte
  key : List Byte
  data : List Byte
  segStart : Byte

/-- The segment number `seg_id` after `n` segments. -/
def BlobWrite.segId (w : BlobWrite) (n : Nat) : Byte := w.segStart + BitVec.ofNat 8 n

def BlobWrite.writeSeg (P : Port) (w : BlobWrite) (st : Store) (s n offset len : Nat) : Err × Store :=
  sectorWriteItem P st s w.groupId .blobSeg w.key ((w.data.drop offset).take len) (w.segId n)

/-- The code a call returned, `none` while it is running, and the store. -/
abbrev Outcome := Option Err × Store

def Outcome.returned (r : Err × Store) : Outcome := (some r.1, r.2)

/-- The `while (1)` of `storage_write_blob`: `n` segments with `offset` bytes are written. -/
def writeBlobLoop (P : Port) (w : BlobWrite) (startSec : Nat) : Nat → Nat → Nat → Nat → Store → Outcome
  | 0, _, _, _, st => (none, st)
  | fuel + 1, s, n, offset, st =>
    let leftSize := w.data.length - offset
    let freeSize := (st.secArr s).freeSize
    let next (n offset : Nat) (st : Store) : Outcome :=
      match smRequestSector P st sliceSize with
      | (.ok, st) =>
        match st.currentSector with
        | none => (some .fail, st)
        | some s =>
          if s = startSec then (some .noSpace, st) else writeBlobLoop P w startSec fuel s n offset st
      | (_, st) => (some .noSpace, st)
    if n ≥ segNumMax ∧ leftSize > 0 then (some .noSpace, st)
    else if leftSize > 0 then
      if (leftSize : Int) + sliceSize ≤ freeSize then
        match w.writeSeg P st s n offset leftSize with
        | (.ok, st) =>
          if (st.secArr s).nextFreeSlice + 1 ≤ entryCount then
            .returned (storageWriteBlobDesc P st s w.groupId w.key w.data.length (n + 1) w.segStart)
          else next (n + 1) w.data.length st
        | (err, st) => (some err, st)
      else if freeSize ≥ (blobMinSegSize + sliceSize : Nat) then
        let len := (freeSize - sliceSize).toNat
        match w.writeSeg P st s n offset len with
        | (.ok, st) => next (n + 1) (offset + len) st
        | (err, st) => (some err, st)
      else next n offset st
    else if freeSize ≥ sliceSize then
      .returned (storageWriteBlobDesc P st s w.groupId w.key w.data.length n w.segStart)
    else next n offset st

def storageWriteBlob (P : Port) (fuel : Nat) (st : Store) (w : BlobWrite) : Outcome :=
  match st.currentSector with
  | none => (some .fail, st)
  | some s =>
    let size := w.data.length
    let st :=
      if ((st.secArr s).dropedSlice > 0 ∧ (size : Int) + sliceSize > (st.secArr s).freeSize) ∨
          size > (segNumMax - 1) * singleItemMaxDataSize then
        (smRequestSector P st sliceSize).2
      else st
    match st.currentSector with
    | none => (some .fault, st)
    | some s => writeBlobLoop P w s fuel s 0 0 st

/-- How the first part of a write ends: it returns, goes on to erase the old copy, or is
still running. -/
inductive Appended where
  | done (err : Err) (st : Store)
  | eraseOld (st : Store)
  | running (st : Store)

def Appended.ofResult : Err × Store → Appended
  | (.ok, st) => .eraseOld st
  | (err, st) => .done err st

def Appended.ofOutcome : Outcome → Appended
  | (none, st) => .running st
  | (some err, st) => .ofResult (err, st)

/-- The branch of `wm_nvs_storage_write_item` for everything but blobs. -/
def writePlain (P : Port) (st : Store) (groupId : Byte) (type : NvsType) (key data : List Byte) :
    Appended :=
  match st.currentSector with
  | none => .done .ok st
  | some cur =>
    match sectorWriteItem P st cur groupId type key data segIdAny with
    | (.sectorFull, st) =>
      match smRequestSector P st (nonBlobWriteReqSize type data.length) with
      | (.ok, st) =>
        match st.currentSector with
        | none => .done .ok st
        | some cur => .ofResult (sectorWriteItem P st cur groupId type key data segIdAny)
      | (err, st) => .done err st
    | r => .ofResult r

/-- `seg_start` of a blob write: the numbering the old blob does not use. -/
def newSegStart (old : Option (Nat × Nat × Item)) : Byte :=
  match old with
  | some (_, _, it) =>
    if it.type = NvsType.blob.code ∧ it.segStart = segStartVer0 then segStartVer1 else segStartVer0
  | none => segStartVer0

/-- Whether the old copy already holds the value. -/
def sameValue (P : Port) (st : Store) (old : Option (Nat × Nat × Item)) (type : NvsType)
    (data : List Byte) : Bool :=
  match old with
  | none => false
  | some (s, index, it) =>
    if it.type = type.code then
      if type = .blob then storageCmpBlob P st it data else storageCmpFindItem st s index it data
    else false

/-- `wm_nvs_storage_write_item` up to where it erases the old copy. -/
def writeNew (P : Port) (fuel : Nat) (st : Store) (old : Option (Nat × Nat × Item)) (groupId : Byte)
    (type : NvsType) (key data : List Byte) : Appended :=
  if sameValue P st old type data then .done .ok st
  else if type = .blob then
    match smCheckWriteBlobSize st data.length with
    | .ok => .ofOutcome (storageWriteBlob P fuel st ⟨groupId, key, data, newSegStart old⟩)
    | err => .done err st
  else writePlain P st groupId type key data

def findOld (P : Port) (st : Store) (groupId : Byte) (key : List Byte) : Option (Nat × Nat × Item) :=
  smFindItem P st (keyQuery groupId .anyWithoutSeg key) 0

def storageWriteItem (P : Port) (fuel : Nat) (st : Store) (groupId : Byte) (type : NvsType)
    (key data : List Byte) : Outcome :=
  let old := findOld P st groupId key
  match writeNew P fuel st old groupId type key data with
  | .running st => (none, st)
  | .done err st => (some err, st)
  | .eraseOld st =>
    match old with
    | none => (some .ok, st)
    | some (s, index, it) => .returned (eraseFound P st s index it)

/-! ## Opening a group -/

/-- `wm_nvs_storage_open_group`; its argument `create_new` is not looked at. The item of a group
is no blob, so that no turn of the blob writer is taken. -/
def storageOpenGroup (P : Port) (st : Store) (group : List Byte) (_createNew : Bool) (mem : Bool) :
    Err × Byte × Store :=
  match storageFindGroup st group with
  | (.ok, id) => (.ok, id, st)
  | (_, id) =>
    if id = groupIdAny then (.noSpace, id, st)
    else
      match storageWriteItem P 0 st groupItselfId .uint8 group [id] with
      | (some .ok, st) =>
        let (err, st) := storageAddGroup st id group (strnlen group maxKeyLen) mem
        (err, id, st)
      | (some err, st) => (err, id, st)
      | (none, st) => (.fault, id, st)

end WmIot.Nvs
