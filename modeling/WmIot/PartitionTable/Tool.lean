import WmIot.Ota.Bin2img

/-!
# The partition table tool

`partition.py`: the validation of a definition file and the table that `main` writes. A file is a list of
lines; `none` is an exception. `str.strip` and `int` follow the Python documentation, with the decimal
digits of Unicode.
-/

namespace WmIot.PartitionTable
open LittleEndian Ota
set_option autoImplicit false

/-! ## Strings -/

/-- `str.isspace` of one character -/
def isSpace (c : Char) : Bool :=
  (0x09 ≤ c.toNat && c.toNat ≤ 0x0D) || (0x1C ≤ c.toNat && c.toNat ≤ 0x20) ||
    [0x85, 0xA0, 0x1680, 0x2028, 0x2029, 0x202F, 0x205F, 0x3000].contains c.toNat ||
    (0x2000 ≤ c.toNat && c.toNat ≤ 0x200A)

/-- `str.strip` -/
def strip (s : List Char) : List Char := (s.dropWhile isSpace).rdropWhile isSpace

/-- `str.split` at commas -/
def split : List Char → List (List Char)
  | [] => [[]]
  | c :: s => if c = ',' then [] :: split s else (c :: (split s).headD []) :: (split s).tail

/-- The zeros of the decimal digits outside of ASCII. -/
def decimalZeros : List Nat :=
  [0x0660, 0x06F0, 0x07C0, 0x0966, 0x09E6, 0x0A66, 0x0AE6, 0x0B66, 0x0BE6, 0x0C66, 0x0CE6, 0x0D66, 0x0DE6, 0x0E50,
    0x0ED0, 0x0F20, 0x1040, 0x1090, 0x17E0, 0x1810, 0x1946, 0x19D0, 0x1A80, 0x1A90, 0x1B50, 0x1BB0, 0x1C40, 0x1C50,
    0xA620, 0xA8D0, 0xA900, 0xA9D0, 0xA9F0, 0xAA50, 0xABF0, 0xFF10, 0x104A0, 0x10D30, 0x11066, 0x110F0, 0x11136,
    0x111D0, 0x112F0, 0x11450, 0x114D0, 0x11650, 0x116C0, 0x11730, 0x118E0, 0x11950, 0x11C50, 0x11D50, 0x11DA0,
    0x11F50, 0x16A60, 0x16AC0, 0x16B50, 0x1D7CE, 0x1D7D8, 0x1D7E2, 0x1D7EC, 0x1D7F6, 0x1E140, 0x1E2F0, 0x1E4D0,
    0x1E950, 0x1FBF0]

/-- A decimal digit as an ASCII digit. -/
def asciiDigit (c : Char) : Char :=
  match decimalZeros.find? fun z => z ≤ c.toNat && c.toNat < z + 10 with
  | some z => Char.ofNat (0x30 + (c.toNat - z))
  | none => c

def hexDigit (c : Char) : Option Nat :=
  if '0' ≤ c ∧ c ≤ '9' then some (c.toNat - 0x30)
  else if 'a' ≤ c ∧ c ≤ 'f' then some (c.toNat - 0x61 + 10)
  else if 'A' ≤ c ∧ c ≤ 'F' then some (c.toNat - 0x41 + 10)
  else none

/-- Digits with single underscores between them; `gap` where no underscore may stand. -/
def hexDigits : List Char → Nat → Bool → Option Nat
  | [], v, gap => if gap then none else some v
  | c :: s, v, gap =>
    if c = '_' then if gap then none else hexDigits s v true
    else (hexDigit c).bind fun d => hexDigits s (16 * v + d) false

/-- The prefix `0x`, after which one underscore is allowed. -/
def dropPrefix : List Char → List Char
  | '0' :: 'x' :: '_' :: s => s
  | '0' :: 'X' :: '_' :: s => s
  | '0' :: 'x' :: s => s
  | '0' :: 'X' :: s => s
  | s => s

/-- `int(s, 16)` -/
def int16 (s : List Char) : Option Int :=
  match (strip s).map asciiDigit with
  | '-' :: s => (hexDigits (dropPrefix s) 0 true).map fun v => -(v : Int)
  | '+' :: s => (hexDigits (dropPrefix s) 0 true).map fun v => (v : Int)
  | s => (hexDigits (dropPrefix s) 0 true).map fun v => (v : Int)

/-! ## Validation -/

structure Partition where
  name : List Char
  offset : Int
  size : Int
  flag : Int
deriving DecidableEq, Repr

/-- `expected_partitions` -/
def expectedPartitions : List Partition :=
  [⟨"ft".toList, 0x0, 0x2000, 0x0⟩, ⟨"bootloader".toList, 0x2000, 0xC000, 0x0⟩,
    ⟨"partition_table".toList, 0xE000, 0x1000, 0x0⟩]

/-- `required_partitions` -/
def requiredPartitions : List (List Char) :=
  ["ft".toList, "bootloader".toList, "partition_table".toList, "app".toList]

/-- A line that is no comment. -/
def parsePartition (parts : List (List Char)) : Option Partition := do
  let name ← parts[0]?
  let offset ← int16 (← parts[1]?)
  let size ← int16 (← parts[2]?)
  let flag ← int16 (← parts[3]?)
  return ⟨name, offset, size, flag⟩

/-- The partitions that `validate_partition_table` reads from the lines. -/
def readPartitions (lines : List (List Char)) : Option (List Partition) :=
  ((lines.map fun line => split (strip line)).filter fun parts => (parts.headD []).head? ≠ some '#').mapM
    parsePartition

/-- `check_partition_consistency` -/
def checkPartitionConsistency (p expected : Partition) : Bool :=
  p.offset = expected.offset && p.size = expected.size && p.flag = expected.flag

/-- The consistency with the expected partition of the name, if there is one. -/
def consistent (p : Partition) : Bool :=
  match expectedPartitions.find? fun e => e.name = p.name with
  | some e => checkPartitionConsistency p e
  | none => true

/-- `is_4k_aligned` -/
def is4kAligned (p : Partition) : Bool := p.offset % 4096 = 0 && 0 < p.size && p.size % 4096 = 0

/-- The comparison of neighbours in `check_for_overlap`. -/
def noOverlap : List Partition → Bool
  | p :: q :: ps => !(q.offset < p.offset + p.size - 1) && noOverlap (q :: ps)
  | _ => true

/-- `check_for_overlap` -/
def checkForOverlap (ps : List Partition) : Bool :=
  noOverlap (ps.insertionSort fun p q => p.offset ≤ q.offset)

/-- `validate_partition_table` of an existing file -/
def validatePartitionTable (lines : List (List Char)) : Option Bool :=
  (readPartitions lines).map fun ps =>
    ps.all consistent && requiredPartitions.all (fun name => (ps.map (·.name)).contains name) &&
      ps.all is4kAligned && checkForOverlap ps && ps.all fun p => p.name.length < 16

/-! ## The table -/

/-- The magic number of the table. -/
def magicNumber : Nat := 0xA1F2F39F

/-- One entry of the table; its name is filled up or cut to 16 characters. -/
def packEntry (i : List Char) : Option (List Byte) := do
  let entry := split i
  let name := newVersion (strip (← entry[0]?))
  let offset ← int16 (strip (← entry[1]?))
  let size ← int16 (strip (← entry[2]?))
  let flag ← int16 (strip (← entry[3]?))
  return encode name ++ (← structPack 4 offset) ++ (← structPack 4 size) ++ (← structPack 4 flag)

/-- The file that `main` writes, of which a short one is filled up to 1 KiB. -/
def main (md5 : List Byte → List Byte) (lines : List (List Char)) : Option (List Byte) := do
  let valid ← validatePartitionTable lines
  if valid then
    let lines := (lines.map strip).filter fun i => i.head? ≠ some '#'
    let count ← structPack 2 lines.length
    let entries ← lines.mapM packEntry
    let table := pack 4 magicNumber ++ pack 2 0 ++ count ++ pack 4 0 ++ entries.flatten
    let table := table ++ md5 table
    return table ++ List.replicate (1024 - table.length) 0xFF#8
  else none

/-! ## What the file holds -/

theorem dropWhile_rdropWhile {q : Char → Bool} {t : List Char} (h : t.dropWhile q = t) :
    (t.rdropWhile q).dropWhile q = t.rdropWhile q := by
  obtain ⟨u, hu⟩ := List.rdropWhile_prefix q (l := t)
  cases hr : t.rdropWhile q with
  | nil => rfl
  | cons c r =>
    rw [hr, List.cons_append] at hu
    have hc : ¬ q c := by
      intro hc
      rw [← hu, List.dropWhile_cons_of_pos hc] at h
      have hlen := (List.dropWhile_suffix q (l := r ++ u)).length_le
      rw [h] at hlen
      exact absurd hlen (Nat.not_succ_le_self _)
    exact List.dropWhile_cons_of_neg hc

theorem strip_strip (s : List Char) : strip (strip s) = strip s := by
  have hleft : (strip s).dropWhile isSpace = strip s :=
    dropWhile_rdropWhile (List.dropWhile_idempotent _ _)
  rw [strip, hleft, strip, List.rdropWhile_idempotent]

theorem int16_strip (s : List Char) : int16 (strip s) = int16 s := by
  rw [int16, int16, strip_strip]

/-- The first part ends before the first comma, so both comment tests are one. -/
theorem split_head (s : List Char) : ((split s).headD []).head? = some '#' ↔ s.head? = some '#' := by
  cases s with
  | nil => exact Iff.rfl
  | cons c s =>
    rw [split]
    split
    next h =>
      rw [h]
      exact ⟨nofun, fun h => absurd (Option.some.inj h) (by decide)⟩
    next => exact Iff.rfl

/-- `packEntry` for a partition. -/
def packItem (p : Partition) : Option (List Byte) := do
  return encode (newVersion (strip p.name)) ++ (← structPack 4 p.offset) ++ (← structPack 4 p.size) ++
    (← structPack 4 p.flag)

theorem packEntry_eq {i : List Char} {p : Partition} (h : parsePartition (split i) = some p) :
    packEntry i = packItem p := by
  simp only [parsePartition, Option.bind_eq_bind, Option.bind_eq_some_iff, Option.pure_def, Option.some.injEq] at h
  obtain ⟨name, hname, _, hoffset, offset, hoffset', _, hsize, size, hsize', _, hflag, flag, hflag', rfl⟩ := h
  simp only [packEntry, packItem, hname, hoffset, hsize, hflag, int16_strip, hoffset', hsize', hflag',
    Option.bind_eq_bind, Option.bind_some]

/-- What the two passes over the lines make of them. -/
theorem mapM_packEntry {is : List (List Char)} : ∀ {ps : List Partition},
    (is.map split).mapM parsePartition = some ps → is.mapM packEntry = ps.mapM packItem ∧ is.length = ps.length := by
  induction is with
  | nil =>
    intro ps h
    cases h
    exact ⟨rfl, rfl⟩
  | cons i is ih =>
    intro ps h
    simp only [List.map_cons, List.mapM_cons, Option.bind_eq_bind, Option.bind_eq_some_iff, Option.pure_def,
      Option.some.injEq] at h
    obtain ⟨p, hp, ps', hps, rfl⟩ := h
    obtain ⟨hrest, hlen⟩ := ih hps
    refine ⟨?_, congrArg (· + 1) hlen⟩
    rw [List.mapM_cons, List.mapM_cons, packEntry_eq hp, hrest]

/-- The lines that `main` packs are those that the validation has read. -/
theorem readPartitions_eq (lines : List (List Char)) : readPartitions lines =
    (((lines.map strip).filter fun i => i.head? ≠ some '#').map split).mapM parsePartition := by
  have hmap : (lines.map fun line => split (strip line)) = (lines.map strip).map split := by
    rw [List.map_map]
    rfl
  rw [readPartitions, hmap, List.filter_map]
  congr 2
  apply List.filter_congr
  intro i _
  simp only [Function.comp_apply, ne_eq, decide_not, split_head]

/-- The numbers of a partition fit into 32 bits. -/
structure Fits (p : Partition) : Prop where
  offset : 0 ≤ p.offset ∧ p.offset < 2 ^ 32
  size : 0 ≤ p.size ∧ p.size < 2 ^ 32
  flag : 0 ≤ p.flag ∧ p.flag < 2 ^ 32

/-- The name of an entry of the table. -/
def packName (p : Partition) : List Byte := encode (newVersion (strip p.name))

/-- One entry of the table. -/
def itemBytes (p : Partition) : List Byte :=
  packName p ++ (pack 4 p.offset.toNat ++ (pack 4 p.size.toNat ++ pack 4 p.flag.toNat))

/-- The table up to its checksum. -/
def tableBytes (ps : List Partition) : List Byte :=
  pack 4 magicNumber ++ (pack 2 0 ++ (pack 2 ps.length ++ (pack 4 0 ++ (ps.map itemBytes).flatten)))

/-- The file of a table. -/
def image (md5 : List Byte → List Byte) (ps : List Partition) : List Byte :=
  (tableBytes ps ++ md5 (tableBytes ps)) ++
    List.replicate (1024 - (tableBytes ps ++ md5 (tableBytes ps)).length) 0xFF#8

theorem structPack_of_fits {v : Int} (h : 0 ≤ v ∧ v < 2 ^ 32) : structPack 4 v = some (pack 4 v.toNat) := by
  have hbound : (256 : Int) ^ 4 = 2 ^ 32 := by norm_num
  rw [structPack, hbound, if_pos h]

theorem fits_of_structPack {v : Int} {bytes : List Byte} (h : structPack 4 v = some bytes) : 0 ≤ v ∧ v < 2 ^ 32 := by
  have hbound : (256 : Int) ^ 4 = 2 ^ 32 := by norm_num
  rw [structPack, hbound] at h
  split at h
  next hv => exact hv
  next => nomatch h

theorem packItem_of_fits {p : Partition} (h : Fits p) : packItem p = some (itemBytes p) := by
  simp only [packItem, structPack_of_fits h.offset, structPack_of_fits h.size, structPack_of_fits h.flag,
    Option.bind_eq_bind, Option.bind_some, Option.pure_def, List.append_assoc]
  rfl

theorem fits_of_packItem {p : Partition} {bytes : List Byte} (h : packItem p = some bytes) : Fits p := by
  simp only [packItem, Option.bind_eq_bind, Option.bind_eq_some_iff] at h
  obtain ⟨_, hoffset, _, hsize, _, hflag, _⟩ := h
  exact ⟨fits_of_structPack hoffset, fits_of_structPack hsize, fits_of_structPack hflag⟩

theorem mapM_packItem_of_fits {ps : List Partition} (h : ∀ p ∈ ps, Fits p) :
    ps.mapM packItem = some (ps.map itemBytes) := by
  induction ps with
  | nil => rfl
  | cons p ps ih =>
    rw [List.mapM_cons, packItem_of_fits (h p List.mem_cons_self),
      ih fun q hq => h q (List.mem_cons_of_mem p hq)]
    rfl

theorem fits_of_mapM_packItem {ps : List Partition} : ∀ {items : List (List Byte)},
    ps.mapM packItem = some items → ∀ p ∈ ps, Fits p := by
  induction ps with
  | nil => exact fun _ _ h => absurd h List.not_mem_nil
  | cons q ps ih =>
    intro items h p hp
    simp only [List.mapM_cons, Option.bind_eq_bind, Option.bind_eq_some_iff] at h
    obtain ⟨_, hitem, _, hrest, _⟩ := h
    rcases List.mem_cons.mp hp with rfl | hp
    · exact fits_of_packItem hitem
    · exact ih hrest p hp

section Main
variable {md5 : List Byte → List Byte} {lines : List (List Char)} {ps : List Partition}

/-- Where all numbers fit, the file is the image of the partitions. -/
theorem main_of_fits (hread : readPartitions lines = some ps) (hvalid : validatePartitionTable lines = some true)
    (hfits : ∀ p ∈ ps, Fits p) (hcount : ps.length < 2 ^ 16) : main md5 lines = some (image md5 ps) := by
  rw [readPartitions_eq] at hread
  obtain ⟨hpack, hlen⟩ := mapM_packEntry hread
  have hstruct : structPack 2 (ps.length : Int) = some (pack 2 ps.length) := by
    have hbound : (256 : Int) ^ 2 = 2 ^ 16 := by norm_num
    rw [structPack, hbound, if_pos ⟨by omega, by omega⟩]
    rfl
  simp only [main, hvalid, hpack, hlen, hstruct, mapM_packItem_of_fits hfits, Option.bind_eq_bind,
    Option.bind_some, Option.pure_def, if_true, List.append_assoc]
  simp only [image, tableBytes, List.append_assoc]

/-- A file is written only where all numbers fit. -/
theorem fits_of_main (hread : readPartitions lines = some ps) {bin : List Byte}
    (h : main md5 lines = some bin) : (∀ p ∈ ps, Fits p) ∧ ps.length < 2 ^ 16 := by
  rw [readPartitions_eq] at hread
  obtain ⟨hpack, hlen⟩ := mapM_packEntry hread
  simp only [main, Option.bind_eq_bind, Option.bind_eq_some_iff] at h
  obtain ⟨valid, _, h⟩ := h
  split at h
  next =>
    simp only [Option.bind_eq_some_iff, hpack, hlen] at h
    obtain ⟨_, hcount, _, hitems, _⟩ := h
    refine ⟨fits_of_mapM_packItem hitems, ?_⟩
    have hbound : (256 : Int) ^ 2 = 2 ^ 16 := by norm_num
    rw [structPack, hbound] at hcount
    split at hcount
    next hlt => omega
    next => nomatch hcount
  next => nomatch h

end Main

end WmIot.PartitionTable
