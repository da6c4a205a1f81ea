import WmIot.Lib.Crc32
import WmIot.Lib.LittleEndian

/-!
# The OTA receiver

`wm_ota_ops.c`, with its arithmetic on 32 bits. The CRC unit of the GPSEC block, with reversed input
and output, is the CRC of the library. What the flash driver answers is part of a call's input.
-/

namespace WmIot.Ota
open LittleEndian
set_option autoImplicit false

abbrev Byte := BitVec 8

inductive Err where
  | success
  | failed
  | invalidParam
  | notAllowed
  | noMem
  | headerInvalid
  | fwOverflow
  | crcError
  | timeout
  | noGotIp
  | connectionFailed
  | eos
deriving DecidableEq, Repr

def add32 (a b : Nat) : Nat := (a + b) % 2 ^ 32

def sub32 (a b : Nat) : Nat := (a + 2 ^ 32 - b) % 2 ^ 32

def flashBaseAddr : Nat := 0x8000000
def sectorSize : Nat := 0x1000
def magicNo : Nat := 0xA0FFFF9F
def appRunAddressOffset : Nat := 0x400
/-- `OTA_FW_HEADER_SIZE_IN_BIN`, the size of `wm_ota_header_t` too -/
def headerSize : Nat := 0x40

/-- `wm_ota_header_t` as it is in memory. -/
abbrev Header := List Byte

namespace Header
variable (h : Header)

def magicNo : Nat := wordAt 4 h 0
def imgAttr : Nat := wordAt 4 h 4
def imgAddr : Nat := wordAt 4 h 8
def imgLen : Nat := wordAt 4 h 12
def imgHeaderAddr : Nat := wordAt 4 h 16
def upgradeImgAddr : Nat := wordAt 4 h 20
def orgChecksum : Nat := wordAt 4 h 24
def hdChecksum : Nat := wordAt 4 h 60

def imgType : Nat := imgAttr h % 2 ^ 4
def gzipEnable : Nat := imgAttr h / 2 ^ 16 % 2
def compressType : Nat := imgAttr h / 2 ^ 20 % 2 ^ 2

end Header

/-- `wm_ota_ops_ctx_t` -/
structure Ctx where
  appAddr : Nat
  appOtaAddr : Nat
  appOtaSize : Nat
  needErase : Bool
  wroteAddr : Nat
  otaHeader : Header
  /-- the running value -/
  crcCtx : BitVec 32

/-- Whether the erase and the write of a call succeed. -/
structure FlashIo where
  erase : Bool
  write : Bool
deriving DecidableEq, Repr

/-- The start of a partition in the address space. -/
def inFlash (addr : Nat) : Nat := add32 flashBaseAddr addr

/-- The checks of `wm_ota_ops_check_header`. -/
def headerError (c : Ctx) (h : Header) : Err :=
  if h.magicNo ≠ magicNo then .headerInvalid
  else if h.imgType = 0 ∨ h.imgType = 0x0E then .headerInvalid
  else if h.gzipEnable ≠ 0 then .headerInvalid
  else if 2 ≤ h.compressType then .headerInvalid
  else if h.imgAddr ≠ add32 (inFlash c.appOtaAddr) appRunAddressOffset ∧
      h.imgAddr ≠ add32 (inFlash c.appAddr) appRunAddressOffset then .headerInvalid
  else if sub32 c.appOtaSize headerSize < h.imgLen then .fwOverflow
  else if h.imgHeaderAddr ≠ inFlash c.appOtaAddr ∧ h.imgHeaderAddr ≠ inFlash c.appAddr then
    .headerInvalid
  else if h.upgradeImgAddr ≠ 0 ∧ h.upgradeImgAddr ≠ inFlash c.appOtaAddr then .headerInvalid
  -- a version equal to the running one is only logged
  else if h.hdChecksum ≠ (Crc32.update 0xFFFFFFFF#32 (h.take 60)).toNat then .crcError
  else .success

def checkHeader (c : Ctx) (data : List Byte) : Ctx × Err :=
  if data.length < headerSize then (c, .invalidParam)
  else ({ c with otaHeader := data.take headerSize }, headerError c (data.take headerSize))

def otaSizeUnknown : Nat := 0xFFFFFFFF
def otaWithSequentialWrites : Nat := 0xFFFFFFFE

/-- `wm_ota_ops_begin`; `tail` is whether the last sector can be erased. -/
def opsBegin (tail : Bool) (io : FlashIo) (c : Ctx) (imageSize : Nat) : Ctx × Err :=
  if c.appOtaAddr = 0 then (c, .invalidParam)
  else
    let c := { c with wroteAddr := c.appOtaAddr }
    if tail = false then (c, .failed)
    else if imageSize = otaWithSequentialWrites then ({ c with needErase := true }, .success)
    else if imageSize ≠ 0 ∧ imageSize ≠ otaSizeUnknown ∧ c.appOtaSize < imageSize then (c, .fwOverflow)
    else if io.erase then ({ c with needErase := false }, .success)
    else ({ c with needErase := true }, .failed)

/-- A write in place erases the sectors it comes into. -/
def erases (c : Ctx) (size : Nat) : Bool :=
  c.needErase && (c.wroteAddr % sectorSize == 0 ||
    c.wroteAddr / sectorSize != add32 c.wroteAddr size / sectorSize)

/-- The header of the first write, and the CRC of the image. -/
def checkData (c : Ctx) (data : List Byte) : Ctx × Err :=
  if c.appOtaAddr = c.wroteAddr then
    let (c, ret) := checkHeader c data
    if ret = .success then
      ({ c with crcCtx := Crc32.update 0xFFFFFFFF#32 (data.drop headerSize) }, .success)
    else (c, ret)
  else ({ c with crcCtx := Crc32.update c.crcCtx data }, .success)

/-- `wm_ota_ops_write` -/
def opsWrite (io : FlashIo) (c : Ctx) (data : List Byte) : Ctx × Err :=
  let size := data.length
  if size = 0 ∨ c.appOtaAddr = 0 then (c, .invalidParam)
  else if c.wroteAddr < c.appOtaAddr ∨
      sub32 (add32 c.appOtaAddr c.appOtaSize) c.wroteAddr < size then (c, .notAllowed)
  else if erases c size ∧ io.erase = false then (c, .failed)
  else
    let (c, ret) := checkData c data
    if ret = .success then
      if io.write then ({ c with wroteAddr := add32 c.wroteAddr size }, .success) else (c, .failed)
    else (c, ret)

/-- `wm_ota_ops_end` -/
def opsEnd (c : Ctx) : Err :=
  if c.wroteAddr ≤ c.appOtaAddr then .invalidParam
  else if c.otaHeader.orgChecksum ≠ c.crcCtx.toNat then .crcError
  else .success

/-- The size `ota_start` reads up to. -/
def imgTotalSize (c : Ctx) : Nat := add32 c.otaHeader.imgLen headerSize

end WmIot.Ota
