import WmIot.Flash.Internal

/-!
# Factory parameters

`wm_ft_param.c`. A `wm_ft_param_ver_t` is its 220 bytes, in memory or in flash, with the offsets
of the packed little-endian layout. The partition table gives the place of the first copy; the
second one follows in the next sector. The checksum unit is a parameter. Allocations may fail.
-/

namespace WmIot.FtParam
open NorFlash
set_option autoImplicit false

/-- A block in memory, by offset. -/
abbrev Image := Nat → Byte

/-- `sizeof(wm_ft_param_t)`, `sizeof(wm_ft_param_ext_t)` and `sizeof(wm_ft_param_ver_t)`. -/
def paramSize : Nat := 132
def extSize : Nat := 52
def verSize : Nat := 220
def extReversedLen : Nat := 32

/-- `offsetof` of the fields that the code reads by name. -/
def magicNoAt : Nat := 0
def checksumAt : Nat := 4
def versionNoAt : Nat := 14
def extParamLenAt : Nat := 22
def extChecksumAt : Nat := 132
def ext1At : Nat := 136

def signatureWord : Nat := 0xA0FFFF9F

/-- `memcpy` into a block. -/
def patch (p : Image) (off : Nat) (data : List Byte) : Image := fun a =>
  if off ≤ a ∧ a < off + data.length then data.getD (a - off) 0 else p a

/-- `memset(.., 0xFF, len)`. -/
def fill (p : Image) (off len : Nat) : Image := fun a => if off ≤ a ∧ a < off + len then 0xFF#8 else p a

def blankImage : Image := fun _ => 0xFF#8

def get16 (p : Image) (off : Nat) : Nat := (p off).toNat + 2 ^ 8 * (p (off + 1)).toNat

def get32 (p : Image) (off : Nat) : Nat := get16 p off + 2 ^ 16 * get16 p (off + 2)

def le16 (v : Nat) : List Byte := [BitVec.ofNat 8 v, BitVec.ofNat 8 (v / 2 ^ 8)]

def le32 (v : Nat) : List Byte := le16 v ++ le16 (v / 2 ^ 16)

/-- The flash, where the partition `ft` lies in it, and the checksum unit. -/
structure Port where
  size : Nat
  addr0 : Nat
  aligned : Flash.sectorSize ∣ addr0
  crc : List Byte → BitVec 32

def Port.addr1 (P : Port) : Nat := P.addr0 + 0x1000

/-- `wm_drv_crc32_reverse`. -/
def Port.crc32 (P : Port) (p : Image) (off len : Nat) : Nat := (P.crc (readBytes p off len)).toNat

def ftExtValid (p : Image) : Bool :=
  decide (0 < get16 p versionNoAt ∧ get16 p versionNoAt < 0xFFFF ∧ extSize ≤ get16 p extParamLenAt ∧
    get16 p extParamLenAt ≤ extSize + extReversedLen)

/-- What `ft_param_init` returns: `WM_ERR_FAILED`, 1 or 2. -/
inductive Version where
  | failed
  | current
  | legacy
  deriving DecidableEq

/-- `ft_param_init`, with the block it leaves in `pft`. -/
def ftParamInit (P : Port) (mem : Bool) (f : Flash) (addr : Nat) (pft : Image) : Version × Image :=
  let pft := match Flash.read P.size mem f addr verSize with
    | some bytes => patch pft 0 bytes
    | none => pft
  if get32 pft magicNoAt = signatureWord then
    if get32 pft checksumAt ≠ P.crc32 pft 8 (paramSize - 8) then (.failed, pft)
    else if ftExtValid pft then
      if get32 pft extChecksumAt = P.crc32 pft ext1At (get16 pft extParamLenAt) then (.current, pft)
      else (.failed, pft)
    else (.legacy, patch (patch pft versionNoAt (le16 0xFFFF)) extParamLenAt (le16 0xFFFF))
  else (.failed, pft)

/-- The flash and `g_ft_param_ver`. -/
structure State where
  flash : Flash
  ram : Image

/-- `wm_ft_param_reset_internal_data`, when its buffer is granted. -/
def resetInternalData (P : Port) (st : State) : State :=
  let first := ftParamInit P true st.flash P.addr0 blankImage
  let found := if first.1 = .failed then ftParamInit P true st.flash P.addr1 blankImage else first
  match found.1 with
  | .current => { st with ram := patch st.ram 0 (readBytes found.2 0 verSize) }
  | .legacy => { st with ram := patch st.ram 0 (readBytes found.2 0 paramSize) }
  | .failed => st

/-- `wm_ft_param_init`, with the partition in the table. -/
def wmFtParamInit (P : Port) (st : State) : State :=
  if get32 st.ram magicNoAt = signatureWord then st
  else resetInternalData P { st with ram := fill st.ram 0 verSize }

/-- The parameter types. -/
inductive FtCmd where
  | wifiMac
  | btMac
  | txDc
  | rxDc
  | txIqGain
  | rxIqGain
  | txIqPhase
  | rxIqPhase
  | txGain
  | txAdcCal
  | freqErr
  | rfCalFlag
  | all
  deriving DecidableEq

/-- `offsetof` the parameter. -/
def FtCmd.at : FtCmd → Nat
  | .wifiMac => 8
  | .btMac => 16
  | .txDc => 24
  | .rxDc => 28
  | .txIqGain => 32
  | .rxIqGain => 36
  | .txIqPhase => 40
  | .rxIqPhase => 44
  | .txGain => 48
  | .freqErr => ext1At
  | .rfCalFlag => ext1At + 4
  | .txAdcCal => ext1At + 8
  | .all => 0

/-- The length with which the interface calls get and set. -/
def FtCmd.len : FtCmd → Nat
  | .wifiMac => 6
  | .btMac => 6
  | .txGain => 84
  | .txAdcCal => 36
  | .all => 0
  | _ => 4

/-- `wm_ft_param_get`: the bytes it stores, if it succeeds. -/
def readParam (P : Port) (st : State) (opnum : FtCmd) (rdlen : Nat) : Option (List Byte) :=
  match opnum with
  | .freqErr =>
    if ftExtValid st.ram then some (readBytes st.ram opnum.at 4)
    else Flash.read P.size true st.flash (P.addr0 + paramSize) 4
  | .rfCalFlag =>
    if ftExtValid st.ram then some (readBytes st.ram opnum.at 4)
    else Flash.read P.size true st.flash (P.addr0 + paramSize + 4) 4
  | .txAdcCal => if ftExtValid st.ram then some (readBytes st.ram opnum.at rdlen) else none
  | .wifiMac => some (readBytes st.ram opnum.at rdlen)
  | .btMac => some (readBytes st.ram opnum.at rdlen)
  | .txGain => some (readBytes st.ram opnum.at (if rdlen < 84 then rdlen else 84))
  | .all => none
  | opnum => some (readBytes st.ram opnum.at 4)

/-- `wm_ft_param_get`, whose option `CONFIG_WM_FT_PARAM_ENABLE_DATA_RESET_WHEN_GET` loads the block
again first. -/
def wmFtParamGet (P : Port) (resetWhenGet : Bool) (st : State) (opnum : FtCmd) (rdlen : Nat) :
    Option (List Byte) :=
  readParam P (if resetWhenGet then resetInternalData P st else st) opnum rdlen

/-- The allocations of one `wm_ft_param_set`, here and in the flash driver: its own buffer, those of
the reads and writes that bring the second copy up to date, and those of the writes of the new
block with the reads that check them. -/
structure Allocations where
  buffer : Bool
  read0 : Bool
  read1 : Bool
  sync : Bool
  readSync : Bool
  write1 : Bool
  readBack1 : Bool
  write0 : Bool
  readBack0 : Bool

/-- The copy is not the block in memory. -/
def differs (copy : Version × Image) (ram : Image) : Bool :=
  decide (copy.1 = .failed) || decide (readBytes copy.2 0 verSize ≠ readBytes ram 0 verSize)

/-- The first part of `wm_ft_param_set`: behind a good first copy the second one is made equal to
the block in memory. The result is whether the call goes on, and the flash operations. -/
def syncSecond (P : Port) (mem : Allocations) (st : State) : Bool × List Op :=
  if (ftParamInit P mem.read0 st.flash P.addr0 blankImage).1 = .failed then (true, [])
  else if differs (ftParamInit P mem.read1 st.flash P.addr1 blankImage) st.ram then
    let ops := Flash.wrWithErasePrivate P.size mem.sync st.flash P.addr1 (readBytes st.ram 0 verSize)
    (!differs (ftParamInit P mem.readSync (replay st.flash ops) P.addr1 blankImage) st.ram, ops)
  else (true, [])

/-- A block of the old layout gets an empty extension. -/
def upgrade (ram : Image) : Image :=
  if ftExtValid ram then ram
  else fill (patch (patch ram versionNoAt (le16 1)) extParamLenAt (le16 extSize)) ext1At extSize

/-- The assignment to the parameter. -/
def storeParam (ram : Image) (opnum : FtCmd) (data : List Byte) : Option Image :=
  match opnum with
  | .txAdcCal => some (patch ram opnum.at data)
  | .wifiMac => some (patch ram opnum.at data)
  | .btMac => some (patch ram opnum.at data)
  | .txGain => some (patch ram opnum.at (data.take 84))
  | .all => none
  | opnum => some (patch ram opnum.at (data.take 4))

/-- The checksums and the signature of the block to write. -/
def sealed (P : Port) (ram : Image) : Image :=
  let ram := patch ram extChecksumAt (le32 (P.crc32 ram ext1At (get16 ram extParamLenAt)))
  let ram := patch ram magicNoAt (le32 signatureWord)
  patch ram checksumAt (le32 (P.crc32 ram 8 (paramSize - 8)))

/-- `!ret || memcmp(..)` after the block was read back; `ft_param_init` never returns 0. -/
def mismatch (copy : Version × Image) (ram : Image) : Bool :=
  decide (readBytes copy.2 0 verSize ≠ readBytes ram 0 verSize)

/-- The last part of `wm_ft_param_set`: the second copy, then the first one. -/
def writeCopies (P : Port) (mem : Allocations) (f : Flash) (ram : Image) : Bool × List Op :=
  let block := readBytes ram 0 verSize
  let ops1 := Flash.wrWithErasePrivate P.size mem.write1 f P.addr1 block
  let f1 := replay f ops1
  if mismatch (ftParamInit P mem.readBack1 f1 P.addr1 blankImage) ram then (false, ops1)
  else
    let ops0 := Flash.wrWithErasePrivate P.size mem.write0 f1 P.addr0 block
    (!mismatch (ftParamInit P mem.readBack0 (replay f1 ops0) P.addr0 blankImage) ram, ops1 ++ ops0)

/-- What a call leaves: whether it succeeded, the block in memory, the flash operations. -/
structure Outcome where
  success : Bool
  ram : Image
  ops : List Op

def wmFtParamSet (P : Port) (mem : Allocations) (st : State) (opnum : FtCmd) (data : List Byte) : Outcome :=
  if data.length = 0 ∨ mem.buffer = false then ⟨false, st.ram, []⟩
  else
    let sync := syncSecond P mem st
    if sync.1 then
      match storeParam (upgrade st.ram) opnum data with
      | none => ⟨false, upgrade st.ram, sync.2⟩
      | some ram =>
        let ram := sealed P ram
        let written := writeCopies P mem (replay st.flash sync.2) ram
        ⟨written.1, ram, sync.2 ++ written.2⟩
    else ⟨false, st.ram, sync.2⟩

end WmIot.FtParam
