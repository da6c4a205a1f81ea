import WmIot.Nvs.Sector

/-!
# NVS sector manager

`wm_nvs_sector_manager.c`: the active and idle lists, loading with its two recovery steps,
garbage collection and the lookups over all active sectors.
-/

namespace WmIot.Nvs
open NorFlash
set_option autoImplicit false

/-- `wm_nvs_sm_get_gc_size`, an `int`. -/
def Sector.gcSize (sec : Sector) : Int :=
  ((entryCount : Int) - sec.usedSlice + sec.dropedSlice) * sliceSize

/-- `wm_nvs_sm_get_free_size`, an `int`. -/
def Sector.freeSize (sec : Sector) : Int := ((entryCount : Int) - sec.usedSlice) * sliceSize

/-- `wm_nvs_sm_get_current_sector`. -/
def Store.currentSector (st : Store) : Option Nat := st.active.getLast?

def smActiveSector (st : Store) : Err × Store :=
  match st.idle with
  | [] => (.fault, st)
  | s :: rest =>
    let st := if (st.secArr s).state = sectorCrash ∨ (st.secArr s).state = sectorInvalid then
      sectorErase st s else st
    let st := st.setSec s { st.secArr s with serialNumber := st.serialNumber }
    (.ok, { st with
      serialNumber := (st.serialNumber + 1) % 2 ^ 32, idle := rest, active := st.active ++ [s] })

/-- Inserts a sector before the first one with a larger serial number. -/
def insertBySerial (secArr : Nat → Sector) (s : Nat) : List Nat → List Nat
  | [] => [s]
  | e :: es =>
    if (secArr e).serialNumber > (secArr s).serialNumber then s :: e :: es
    else e :: insertBySerial secArr s es

/-- One turn of the loop of `sm_load_sectors`. -/
def smLoadSector (P : Port) (st : Store) (s : Nat) : Store :=
  let st := sectorLoad P st s
  let state := (st.secArr s).state
  if state = sectorUninit ∨ state = sectorCrash ∨ state = sectorInvalid then
    { st with idle := st.idle ++ [s] }
  else { st with active := insertBySerial st.secArr s st.active }

def smLoadSectors (P : Port) (st : Store) : Err × Store :=
  let st := (List.range st.secNum).foldl (smLoadSector P) st
  match st.currentSector with
  | none => smActiveSector { st with serialNumber := 1 }
  | some last => (.ok, { st with serialNumber := ((st.secArr last).serialNumber + 1) % 2 ^ 32 })

/-- `sm_check_item_data`: a data area whose CRC fails drops the item. -/
def smCheckItemData (P : Port) (st : Store) (s index : Nat) (it : Item) : Err × Store :=
  if (it.type = NvsType.string.code ∨ it.type = NvsType.binary.code ∨ it.type = NvsType.blobSeg.code) ∧
      it.length.toNat > 8 then
    match st.ptRead (sliceAddr (st.secArr s).address (index + 1)) it.length.toNat with
    | none => (.invalidParam, st)
    | some data =>
      if P.crc32 0xFFFFFFFF#32 data ≠ it.crcData then (.fail, sectorEraseItem st s index it true)
      else (.ok, st)
  else (.ok, st)

def queryAny : Query := ⟨groupIdAny, NvsType.any.code, none, segIdAny, segStartAny⟩

/-- The first loop of `sm_check_imcomplete_write`: the last index found, and `item` as the
failing lookup that ends the loop leaves it. -/
def lastItemLoop (P : Port) (st : Store) (s : Nat) :
    Nat → Nat → Option Nat → Item → Option Nat × Item
  | 0, _, last, it => (last, it)
  | n + 1, next, last, it =>
    match sectorFind P st s queryAny next it with
    | (none, it) => (last, it)
    | (some i, it) => lastItemLoop P st s n (i + it.span) (some i) it

/-- The second loop of `sm_check_imcomplete_write`: drops the first other copy of the item. -/
def dropOldCopy (P : Port) (st : Store) (last lastIndex : Nat) (q : Query) : List Nat → Store
  | [] => st
  | e :: es =>
    match sectorFindItem P st e q 0 with
    | some (i, old) =>
      if e ≠ last ∨ i ≠ lastIndex then sectorEraseItem st e i old true
      else dropOldCopy P st last lastIndex q es
    | none => dropOldCopy P st last lastIndex q es

def smCheckImcompleteWrite (P : Port) (st : Store) : Store :=
  match st.currentSector with
  | none => st
  | some last =>
    match lastItemLoop P st last (entryCount + 1) 0 none Item.zero with
    | (none, _) => st
    | (some lastIndex, it) =>
      match smCheckItemData P st last lastIndex it with
      | (.ok, st) =>
        let segId := if it.type = NvsType.blobSeg.code then it.segId else segIdAny
        let q : Query := ⟨it.groupId.setWidth 8, it.type, some it.name.toList, segId, segStartAny⟩
        dropOldCopy P st last lastIndex q st.active
      | (_, st) => st

/-- The steps garbage collection and its recovery share: fill the new last sector from `it`,
erase `it` and move it to the idle list. -/
def smFinishCollection (P : Port) (st : Store) (newSec it : Nat) : Err × Store :=
  match sectorCopy P st newSec it with
  | (.ok, st) =>
    let st := sectorErase st it
    (.ok, { st with active := st.active.erase it, idle := st.idle ++ [it] })
  | (err, st) => (err, st)

/-- Activate the next idle sector and write its header if it has none yet. -/
def smNewSector (P : Port) (st : Store) : Err × Store × Nat :=
  match smActiveSector st with
  | (.ok, st) =>
    match st.currentSector with
    | none => (.fault, st, 0)
    | some s => (.ok, if (st.secArr s).state = sectorUninit then sectorInit P st s else st, s)
  | (err, st) => (err, st, 0)

def smCheckImcompleteGc (P : Port) (st : Store) : Err × Store :=
  match st.active.find? fun s => (st.secArr s).state = sectorDeletting with
  | none => (.ok, st)
  | some it =>
    match st.currentSector with
    | none => (.fault, st)
    | some last =>
      let st := if (st.secArr last).state = sectorUsing then
          let st := sectorErase st last
          { st with active := st.active.erase last, idle := st.idle ++ [last] }
        else st
      match smNewSector P st with
      | (.ok, st, newSec) => smFinishCollection P st newSec it
      | (err, st, _) => (err, st)

/-- The sector with the most to gain and its gain. -/
def dirtiestSector (st : Store) : Option Nat × Int :=
  st.active.foldl (fun best e =>
    if (st.secArr e).gcSize > best.2 then (some e, (st.secArr e).gcSize) else best) (none, 0)

def smGarbageCollection (P : Port) (st : Store) (needSize : Int) : Err × Store :=
  match dirtiestSector st with
  | (dirtiest?, mostDirtySize) =>
    if mostDirtySize ≥ needSize then
      match dirtiest? with
      | none => (.fault, st)
      | some dirtiest =>
        match smNewSector P st with
        | (.ok, st, newSec) =>
          smFinishCollection P (sectorSetState st dirtiest sectorDeletting) newSec dirtiest
        | (err, st, _) => (err, st)
    else (.noSpace, st)

/-- The roll back at the end of `wm_nvs_sm_load`: a collection always needs an idle sector. -/
def smKeepIdle (st : Store) : Store :=
  match st.idle, st.currentSector with
  | [], some s => { st with active := st.active.erase s, idle := [s] }
  | _, _ => st

def smLoad (P : Port) (st : Store) : Err × Store :=
  match smLoadSectors P st with
  | (.ok, st) =>
    let st := smCheckImcompleteWrite P st
    let st := (smCheckImcompleteGc P st).2
    (.ok, smKeepIdle st)
  | (err, st) => (err, st)

def smRequestSector (P : Port) (st : Store) (needSize : Nat) : Err × Store :=
  if st.idle.length = 0 then (.noMem, st)
  else if st.idle.length = 1 then smGarbageCollection P st needSize
  else smActiveSector st

/-- `wm_nvs_sm_find_item` over the active list; every sector is searched from `start`. -/
def smFindFrom (P : Port) (st : Store) (q : Query) (start : Nat) : List Nat → Option (Nat × Nat × Item)
  | [] => none
  | e :: es =>
    match sectorFindItem P st e q start with
    | some (i, it) => some (e, i, it)
    | none => smFindFrom P st q start es

def smFindItem (P : Port) (st : Store) (q : Query) (start : Nat) : Option (Nat × Nat × Item) :=
  smFindFrom P st q start st.active

/-- The loop of `wm_nvs_sm_check_write_blob_size` over the active sectors. -/
def checkBlobLoop (st : Store) : List Nat → Int → Nat → Err
  | [], _, _ => .noSpace
  | e :: es, leftSize, segCount =>
    let freeSize := (st.secArr e).gcSize
    if leftSize > 0 ∧ segCount ≥ segNumMax then .noSpace
    else if leftSize > 0 then
      if leftSize + sliceSize ≤ freeSize then
        if (st.secArr e).nextFreeSlice + 1 ≤ entryCount then .ok
        else checkBlobLoop st es 0 (segCount + 1)
      else if freeSize ≥ (blobMinSegSize + sliceSize : Nat) then
        checkBlobLoop st es (leftSize - (freeSize - sliceSize)) (segCount + 1)
      else checkBlobLoop st es leftSize segCount
    else if freeSize ≥ sliceSize then .ok
    else checkBlobLoop st es leftSize segCount

/-- `wm_nvs_sm_check_write_blob_size`; a buffer in memory is shorter than 2^31 bytes. -/
def smCheckWriteBlobSize (st : Store) (size : Nat) : Err :=
  if (size : Int) > ((st.secNum : Int) - 1) * singleItemMaxDataSize then .noSpace
  else if size > segNumMax * singleItemMaxDataSize then .invalidLength
  else
    let leftSize : Int := size - ((st.idle.length : Int) - 1) * singleItemMaxDataSize
    if leftSize ≤ -(sliceSize : Int) then .ok else checkBlobLoop st st.active leftSize 0

end WmIot.Nvs
