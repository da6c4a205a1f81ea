import WmIot.Nvs.Item

/-!
# NVS sectors

`wm_nvs_sector.c` and `wm_nvs_hash.c` over the state of a mounted partition. Sectors are
named by their index in `sec_arr`; the partition descriptor is the flash content and the
number of sectors. Flash primitives and allocations succeed. The range check of
`wm_nvs_pt_read` and `wm_nvs_pt_write` is kept, since a data area can overrun its sector;
item headers and sector headers always lie inside the partition.
-/

namespace WmIot.Nvs
open NorFlash
set_option autoImplicit false

abbrev sectorMagic : BitVec 16 := 0x4D57#16

abbrev sectorUninit : Byte := 0xff#8
abbrev sectorUsing : Byte := 0xfe#8
abbrev sectorFull : Byte := 0xfc#8
abbrev sectorDeletting : Byte := 0xf8#8
abbrev sectorCrash : Byte := 0xf0#8
abbrev sectorInvalid : Byte := 0x00#8

/-- `wm_nvs_hash_node_t`. Slices are 0..126, so the signed view of `id` is `id` itself. -/
structure HashNode where
  hash : BitVec 24
  id : Nat
  deriving DecidableEq

/-- `wm_nvs_sector_t`. The slice counters are `uint8_t`, the serial number `uint32_t`. -/
structure Sector where
  state : Byte := 0
  nextFreeSlice : Nat := 0
  usedSlice : Nat := 0
  dropedSlice : Nat := 0
  address : Nat := 0
  serialNumber : Nat := 0
  hash : List HashNode := []

/-- `wm_nvs_group_t`; the name is the C string without its terminating zero. -/
structure Group where
  name : List Byte
  id : Byte
  deriving DecidableEq

/-- A flash operation together with the active list at the time it is issued. -/
structure Event where
  op : Op
  active : List Nat

/-- `wm_nvs_storage_t` with its sector manager, the flash below it and the operations issued. -/
structure Store where
  flash : Flash
  secNum : Nat
  secArr : Nat → Sector
  active : List Nat
  idle : List Nat
  serialNumber : Nat
  groupList : List Group
  log : List Event

def add8 (a b : Nat) : Nat := (a + b) % 256

namespace Store

def setSec (st : Store) (s : Nat) (sec : Sector) : Store :=
  { st with secArr := Function.update st.secArr s sec }

def size (st : Store) : Nat := st.secNum * sectionSize

/-- `wm_nvs_pt_write_raw` and `wm_nvs_pt_write_item` inside a sector. -/
def ptWriteRaw (st : Store) (addr : Nat) (bytes : List Byte) : Store :=
  { st with
    flash := program st.flash addr bytes
    log := st.log ++ [⟨.program addr bytes, st.active⟩] }

def ptErase (st : Store) (addr : Nat) : Store :=
  { st with
    flash := erase st.flash addr sectionSize
    log := st.log ++ [⟨.erase addr sectionSize, st.active⟩] }

def ptWrite (st : Store) (addr : Nat) (bytes : List Byte) : Err × Store :=
  if addr + bytes.length ≤ st.size then (.ok, st.ptWriteRaw addr bytes) else (.invalidParam, st)

/-- `wm_nvs_pt_read`; `none` is `WM_NVS_ERR_INVALID_PARAM`. -/
def ptRead (st : Store) (addr len : Nat) : Option (List Byte) :=
  if addr + len ≤ st.size then some (readBytes st.flash addr len) else none

end Store

/-- Address of a slice; index 0 is the first one after the sector header. -/
def sliceAddr (address index : Nat) : Nat := address + (index + 1) * sliceSize

/-! ## Hash table -/

def hashAppend (P : Port) (h : List HashNode) (it : Item) (index : Nat) : List HashNode :=
  if h.length ≥ entryCount then h else h ++ [⟨itemCrcHash P it, index⟩]

/-- Removes the first node of that index and moves the following ones to the front. -/
def hashErase (h : List HashNode) (index : Nat) : List HashNode := h.eraseP fun n => n.id = index

def hashFind (P : Port) (h : List HashNode) (start : Nat) (it : Item) : Option Nat :=
  (h.find? fun n => start ≤ n.id ∧ n.hash = itemCrcHash P it).map HashNode.id

/-! ## Sector header -/

/-- `wm_nvs_sector_header_t`. -/
structure SectorHeader where
  magic : BitVec 16
  state : Byte
  crc32 : BitVec 32
  serialNumber : BitVec 32
  version : Byte
  reserve2 : List Byte

/-- `sector_crc32`: 24 bytes from the serial number on. -/
def sectorCrc32 (P : Port) (serialNumber : BitVec 32) (version : Byte) (reserve2 : List Byte) :
    BitVec 32 := P.crc32 0xFFFFFFFF#32 (le32 serialNumber ++ version :: reserve2)

def readHeader (f : Flash) (addr : Nat) : SectorHeader where
  magic := f (addr + 1) ++ f addr
  state := f (addr + 2)
  crc32 := ofLe32 (f (addr + 4)) (f (addr + 5)) (f (addr + 6)) (f (addr + 7))
  serialNumber := ofLe32 (f (addr + 8)) (f (addr + 9)) (f (addr + 10)) (f (addr + 11))
  version := f (addr + 12)
  reserve2 := readBytes f (addr + 13) 19

/-- The header `wm_nvs_sector_init` writes. -/
def headerBytes (P : Port) (serialNumber : BitVec 32) : List Byte :=
  [sectorMagic.extractLsb' 0 8, sectorMagic.extractLsb' 8 8, sectorUsing, 0xff#8] ++
    (le32 (sectorCrc32 P serialNumber P.verNum (List.replicate 19 0xff#8)) ++
      (le32 serialNumber ++ P.verNum :: List.replicate 19 0xff#8))

/-! ## Operations -/

def sectorSetState (st : Store) (s : Nat) (state : Byte) : Store :=
  (st.setSec s { st.secArr s with state := state }).ptWriteRaw ((st.secArr s).address + 2) [state]

def sectorErase (st : Store) (s : Nat) : Store :=
  let st := sectorSetState st s sectorCrash
  let st := st.ptErase (st.secArr s).address
  st.setSec s { st.secArr s with
    state := sectorUninit, nextFreeSlice := 0, usedSlice := 0, dropedSlice := 0, hash := [] }

def sectorInit (P : Port) (st : Store) (s : Nat) : Store :=
  let st := st.setSec s { st.secArr s with
    state := sectorUsing, nextFreeSlice := 0, usedSlice := 0, dropedSlice := 0 }
  st.ptWriteRaw (st.secArr s).address (headerBytes P (BitVec.ofNat 32 (st.secArr s).serialNumber))

/-- `wm_nvs_sector_erase_item`. The span added is that of the item passed in. -/
def sectorEraseItem (st : Store) (s index : Nat) (it : Item) (eraseHash : Bool) : Store :=
  let sec := st.secArr s
  let st := st.setSec s { sec with dropedSlice := add8 sec.dropedSlice it.span }
  let st := st.ptWriteRaw (sliceAddr sec.address index) [itemDroped]
  if eraseHash then st.setSec s { st.secArr s with hash := hashErase sec.hash index } else st

/-- The loop of `sector_update_slice_and_hash` from slice `i` on. -/
def updateSliceLoop (P : Port) (s : Nat) : Nat → Nat → Store → Store
  | 0, _, st => st.setSec s { st.secArr s with nextFreeSlice := entryCount }
  | n + 1, i, st =>
    if i < entryCount then
      let sec := st.secArr s
      let it := readItem st.flash (sliceAddr sec.address i)
      if it.state = itemUnused then st.setSec s { sec with nextFreeSlice := i }
      else if it.state = itemUsing then
        if it.crcItem = itemCrcHead P it then
          updateSliceLoop P s n (i + it.span) (st.setSec s { sec with
            hash := hashAppend P sec.hash it i, usedSlice := add8 sec.usedSlice it.span })
        else
          let st := st.setSec s { sec with
            usedSlice := add8 sec.usedSlice it.span, dropedSlice := add8 sec.dropedSlice it.span }
          updateSliceLoop P s n (i + it.span) (sectorEraseItem st s i it false)
      else if it.state = itemDroped then
        updateSliceLoop P s n (i + it.span) (st.setSec s { sec with
          dropedSlice := add8 sec.dropedSlice it.span, usedSlice := add8 sec.usedSlice it.span })
      else updateSliceLoop P s n (i + it.span) st
    else st.setSec s { st.secArr s with nextFreeSlice := entryCount }

def sectorUpdateSliceAndHash (P : Port) (st : Store) (s : Nat) : Store :=
  updateSliceLoop P s (entryCount + 1) 0 st

/-- `sector_check_empty`: an UNINIT header in front of anything but erased bytes is a crash. -/
def sectorCheckEmpty (st : Store) (s : Nat) : Store :=
  let sec := st.secArr s
  if (readBytes st.flash sec.address sectionSize).all (· == blank) then st
  else st.setSec s { sec with state := sectorCrash }

def sectorLoad (P : Port) (st : Store) (s : Nat) : Store :=
  let addr := s * sectionSize
  let header := readHeader st.flash addr
  let sec := { st.secArr s with
    address := addr, usedSlice := 0, dropedSlice := 0, hash := [], state := header.state }
  let st :=
    if header.state = sectorUninit then sectorCheckEmpty (st.setSec s sec) s
    else if header.magic ≠ sectorMagic ∨
        header.crc32 ≠ sectorCrc32 P header.serialNumber header.version header.reserve2 then
      st.setSec s { sec with state := sectorCrash }
    else if header.version ≠ P.verNum then st.setSec s { sec with state := sectorCrash }
    else st.setSec s { sec with serialNumber := header.serialNumber.toNat }
  let state := (st.secArr s).state
  if state = sectorFull ∨ state = sectorUsing ∨ state = sectorDeletting then
    sectorUpdateSliceAndHash P st s
  else st

/-- `wm_nvs_sector_write_item_data`; the results of the flash writes are not looked at. -/
def sectorWriteItemData (st : Store) (s : Nat) (it : Item) (extraData : Option (List Byte))
    (entryCnt : Nat) : Store :=
  let sec := st.secArr s
  let offset := sec.address + sliceSize + sec.nextFreeSlice * sliceSize
  let st := st.ptWriteRaw offset it.bytes
  let st := match extraData with
    | none => st
    | some data => (st.ptWrite (offset + sliceSize) data).2
  st.setSec s { sec with
    nextFreeSlice := add8 sec.nextFreeSlice entryCnt, usedSlice := add8 sec.usedSlice entryCnt }

def sectorReadItemData (st : Store) (s index : Nat) (it : Item) (size : Nat) :
    Option (List Byte) :=
  if size ≤ 8 then some (it.data.toList.take size)
  else st.ptRead (sliceAddr (st.secArr s).address (index + 1)) size

/-- The slices an item with `size` bytes of data takes. -/
def entryCntOf (size : Nat) : Nat :=
  if size > 8 then 1 + (size + (sliceSize - 1)) / sliceSize else 1

/-- The first write to an UNINIT sector writes the sector header. -/
def readySector (P : Port) (st : Store) (s : Nat) : Store :=
  if (st.secArr s).state = sectorUninit then sectorInit P st s else st

def sectorWriteItem (P : Port) (st : Store) (s : Nat) (groupId : Byte) (type : NvsType)
    (key data : List Byte) (segId : Byte) : Err × Store :=
  if (st.secArr s).state = sectorInvalid then (.fail, st)
  else if (st.secArr s).state = sectorFull then (.sectorFull, st)
  else
    let st := readySector P st s
    let size := data.length
    if size > singleItemMaxDataSize then (.valueTooLong, st)
    else if (st.secArr s).nextFreeSlice + entryCntOf size > entryCount then (.sectorFull, st)
    else
      let it := itemInit P itemUsing groupId type key (some data) size segId
      let index := (st.secArr s).nextFreeSlice
      let st := sectorWriteItemData st s it (if size > 8 then some data else none) (entryCntOf size)
      let sec := st.secArr s
      (.ok, st.setSec s { sec with hash := hashAppend P sec.hash it index })

/-- The arguments of a lookup; `type` is a type code because recovery passes one read from flash. -/
structure Query where
  groupId : Byte
  type : BitVec 4
  key : Option (List Byte)
  segIndex : Byte
  segStart : Byte

def Query.matches (q : Query) (it : Item) : Bool :=
  (q.groupId == groupIdAny || q.groupId == it.groupId.setWidth 8) &&
  ((q.type == NvsType.any.code || q.type == it.type) ||
    (q.type == NvsType.anyWithoutSeg.code && it.type != NvsType.blobSeg.code)) &&
  (q.segIndex == segIdAny || q.segIndex == it.segId) &&
  (q.segStart == segStartAny ||
    (decide (q.segStart.toNat ≤ it.segId.toNat) && decide (it.segId.toNat - q.segStart.toNat < 0x80))) &&
  match q.key with
  | none => true
  | some key => strncmpEq it.name.toList key (strnlen key maxKeyLen)

/-- The item a keyed lookup initialises to compute the hash. -/
def Query.probe (P : Port) (q : Query) (key : List Byte) : Item :=
  { itemInit P itemUsing q.groupId .any key none 0 q.segIndex with type := q.type }

/-- The loop of `wm_nvs_sector_find_item`: the index found and what is left in `*item`. -/
def findLoop (P : Port) (f : Flash) (sec : Sector) (q : Query) (end_ : Nat) :
    Nat → Nat → Item → Option Nat × Item
  | 0, _, out => (none, out)
  | n + 1, start, out =>
    if start < end_ then
      let probed := match q.key with
        | none => (some start, out)
        | some key => (hashFind P sec.hash start (q.probe P key), q.probe P key)
      match probed with
      | (none, out) => (none, out)
      | (some start, _) =>
        let it := readItem f (sliceAddr sec.address start)
        if it.state = itemDroped then findLoop P f sec q end_ n (start + it.span) it
        else if it.state = itemUsing then
          if q.matches it then (some start, it)
          else findLoop P f sec q end_ n (start + it.span) it
        else (none, it)
    else (none, out)

/-- `wm_nvs_sector_find_item` with its in-out argument `item`. -/
def sectorFind (P : Port) (st : Store) (s : Nat) (q : Query) (start : Nat) (out : Item) :
    Option Nat × Item :=
  let sec := st.secArr s
  if sec.state = sectorCrash ∨ sec.state = sectorInvalid ∨ sec.state = sectorUninit then (none, out)
  else if start ≥ entryCount then (none, out)
  else findLoop P st.flash sec q (min sec.nextFreeSlice entryCount) entryCount start out

/-- An all-zero item, for callers that pass an uninitialised one. -/
def Item.zero : Item :=
  { state := 0, name := Vector.replicate 15 0, groupId := 0, recv1 := 0, segId := 0, type := 0,
    length := 0, crcItem := 0, data := Vector.replicate 8 0 }

/-- `wm_nvs_sector_find_item` for callers that use `item` only when one was found. -/
def sectorFindItem (P : Port) (st : Store) (s : Nat) (q : Query) (start : Nat) : Option (Nat × Item) :=
  match sectorFind P st s q start Item.zero with
  | (some i, it) => some (i, it)
  | (none, _) => none

/-- The loop of `wm_nvs_sector_copy` from `srcIndex` to `dstIndex` on. -/
def sectorCopyLoop (P : Port) (dst src : Nat) : Nat → Nat → Nat → Store → Err × Store
  | 0, _, _, st => (.ok, st)
  | n + 1, srcIndex, dstIndex, st =>
    if srcIndex < entryCount then
      let it := readItem st.flash (sliceAddr (st.secArr src).address srcIndex)
      if it.state = itemDroped then sectorCopyLoop P dst src n (srcIndex + it.span) dstIndex st
      else if it.state = itemUsing then
        let st := st.ptWriteRaw (sliceAddr (st.secArr dst).address dstIndex) it.bytes
        let copied : Err × Store :=
          if it.span > 1 then
            match st.ptRead (sliceAddr (st.secArr src).address (srcIndex + 1)) it.length.toNat with
            | none => (.invalidParam, st.setSec src { st.secArr src with state := sectorInvalid })
            | some data =>
              match st.ptWrite (sliceAddr (st.secArr dst).address (dstIndex + 1)) data with
              | (.ok, st) => (.ok, st)
              | (err, st) => (err, st.setSec dst { st.secArr dst with state := sectorInvalid })
          else (.ok, st)
        match copied with
        | (.ok, st) =>
          let sec := st.secArr dst
          sectorCopyLoop P dst src n (srcIndex + it.span) (dstIndex + it.span) (st.setSec dst { sec with
            hash := hashAppend P sec.hash it dstIndex, usedSlice := add8 sec.usedSlice it.span,
            nextFreeSlice := add8 sec.nextFreeSlice it.span })
        | (err, st) => (err, st)
      else (.ok, st.setSec dst { st.secArr dst with nextFreeSlice := (st.secArr dst).usedSlice })
    else (.ok, st)

def sectorCopy (P : Port) (st : Store) (dst src : Nat) : Err × Store :=
  sectorCopyLoop P dst src entryCount 0 0 st

end WmIot.Nvs
