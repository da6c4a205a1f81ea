import WmIot.Ota.Ops

/-!
# The image tool

`bin2img.py`: a header of packed fields, with its CRC, before the padded image. The numbers of the
options are any integers, of which the packing refuses those that do not fit. The compressors of
Python are parameters.
-/

namespace WmIot.Ota
open LittleEndian
set_option autoImplicit false

/-- The options, with their defaults. -/
structure Args where
  imageType : Int := 0
  compressType : Int := 0
  runAddress : Int := 0x80D0400
  imageHeader : Int := 0x80D0000
  updateAddress : Int := 0x8010000
  updNo : Int := 0
  versionString : List Char := "G03.00.00".toList
  bootloaderConfigFlags : Int := 0
  nextImageHeader : Int := 0
deriving DecidableEq

/-- `struct.pack` of one unsigned number of `n` bytes -/
def structPack (n : Nat) (v : Int) : Option (List Byte) :=
  if 0 ≤ v ∧ v < 256 ^ n then some (pack n v.toNat) else none

/-- `newversion` -/
def newVersion (version : List Char) : List Char :=
  if version.length < 16 then version ++ List.replicate (16 - version.length) '\x00'
  else version.take 15 ++ ['\x00']

/-- `str.encode('utf-8')` -/
def encode (s : List Char) : List Byte := (s.flatMap String.utf8EncodeChar).map UInt8.toBitVec

/-- `binascii.crc32`, which inverts the result. -/
def safetyCrc32 (data : List Byte) : BitVec 32 := Crc32.update 0xFFFFFFFF#32 data ^^^ 0xFFFFFFFF#32

/-- `bin_data`, padded to words -/
def padData (data : List Byte) : List Byte :=
  data ++ List.replicate (if data.length % 4 ≠ 0 then 4 - data.length % 4 else 0) 0xFF#8

/-- `bin_data` before the padding, of the type of compression -/
def compress (gz xz : List Byte → List Byte) (a : Args) (input : List Byte) : List Byte :=
  if a.compressType = 1 then gz input else if a.compressType = 2 ^ 4 then xz input else input

/-- `image_header` -/
def packHeader (a : Args) (binLen : Nat) (binCrc : BitVec 32) : Option (List Byte) := do
  let imgType ← structPack 2 a.imageType
  let compressType ← structPack 2 a.compressType
  let runImgAddr ← structPack 4 a.runAddress
  let runImgLen ← structPack 4 binLen
  let imgHeaderAddr ← structPack 4 a.imageHeader
  let updImgAddr ← structPack 4 a.updateAddress
  let updNo ← structPack 4 a.updNo
  let bootloaderFlags ← structPack 4 a.bootloaderConfigFlags
  let nextBoot ← structPack 4 a.nextImageHeader
  return pack 4 magicNo ++ imgType ++ compressType ++ runImgAddr ++ runImgLen ++ imgHeaderAddr ++
    updImgAddr ++ pack 4 binCrc.toNat ++ updNo ++ encode (newVersion a.versionString) ++
    bootloaderFlags ++ pack 4 0 ++ nextBoot

/-- The file `main` writes. -/
def bin2img (gz xz : List Byte → List Byte) (a : Args) (input : List Byte) : Option (List Byte) := do
  let binData := padData (compress gz xz a input)
  let imageHeader ← packHeader a binData.length (safetyCrc32 binData ^^^ 0xFFFFFFFF#32)
  let headerCrc := safetyCrc32 imageHeader ^^^ 0xFFFFFFFF#32
  return imageHeader ++ pack 4 headerCrc.toNat ++ binData

section Spec
variable {a : Args} {n : Nat}

theorem structPack_some {v : Int} {bytes : List Byte} (h : structPack n v = some bytes) :
    ∃ k : Nat, v = k ∧ k < 256 ^ n ∧ bytes = pack n k := by
  unfold structPack at h
  split at h
  next hv =>
    refine ⟨v.toNat, (Int.toNat_of_nonneg hv.1).symm, ?_, (Option.some.inj h).symm⟩
    have hlt := hv.2
    rw [← Int.toNat_of_nonneg hv.1] at hlt
    exact_mod_cast hlt
  next => cases h

/-- The two inversions leave the running value of the library. -/
theorem safetyCrc32_xor (data : List Byte) :
    safetyCrc32 data ^^^ 0xFFFFFFFF#32 = Crc32.update 0xFFFFFFFF#32 data := by
  rw [safetyCrc32, BitVec.xor_assoc, BitVec.xor_self, BitVec.xor_zero]

theorem newVersion_length (version : List Char) : (newVersion version).length = 16 := by
  unfold newVersion
  split
  next h =>
    rw [List.length_append, List.length_replicate]
    omega
  next h =>
    rw [List.length_append, List.length_take]
    simp only [List.length_singleton]
    omega

theorem encode_length (s : List Char) : (encode s).length = (s.map Char.utf8Size).sum := by
  simp only [encode, List.length_map, List.length_flatMap, String.length_utf8EncodeChar]

/-- As many bytes as characters, where all are ASCII, and more otherwise. -/
theorem encode_length_ge (s : List Char) : s.length ≤ (encode s).length := by
  rw [encode_length]
  induction s with
  | nil => exact Nat.le_refl 0
  | cons c s ih =>
    have hpos := c.utf8Size_pos
    simp only [List.length_cons, List.map_cons, List.sum_cons]
    omega

theorem encode_length_eq_iff (s : List Char) :
    (encode s).length = s.length ↔ ∀ c ∈ s, c.val ≤ 127 := by
  induction s with
  | nil => exact ⟨fun _ _ h => absurd h List.not_mem_nil, fun _ => rfl⟩
  | cons c s ih =>
    have hge := encode_length_ge s
    have hpos := c.utf8Size_pos
    rw [encode_length] at hge ih ⊢
    rw [List.forall_mem_cons, ← ih, ← Char.utf8Size_eq_one_iff]
    simp only [List.length_cons, List.map_cons, List.sum_cons]
    omega

/-- The version that goes into the header is ASCII exactly where the characters kept of it are. -/
theorem newVersion_ascii (version : List Char) :
    (∀ c ∈ newVersion version, c.val ≤ 127) ↔ ∀ c ∈ version.take 15, c.val ≤ 127 := by
  have hzero : ('\x00' : Char).val ≤ 127 := by decide
  unfold newVersion
  split
  next h =>
    rw [List.take_of_length_le (by omega)]
    constructor
    · exact fun hall c hc => hall c (List.mem_append_left _ hc)
    · intro hall c hc
      rcases List.mem_append.mp hc with hc | hc
      · exact hall c hc
      · rw [List.eq_of_mem_replicate hc]
        exact hzero
  next =>
    constructor
    · exact fun hall c hc => hall c (List.mem_append_left _ hc)
    · intro hall c hc
      rcases List.mem_append.mp hc with hc | hc
      · exact hall c hc
      · rw [List.mem_singleton.mp hc]
        exact hzero

end Spec

end WmIot.Ota
