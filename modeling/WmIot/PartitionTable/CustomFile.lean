import WmIot.PartitionTable.Tool
import WmIot.Lib.SparseFile

/-!
# The custom file tool

`customfile2img.py` up to the binary that `main` packs. `none` is an exit with an error or an exception.
-/

namespace WmIot.PartitionTable.CustomFile
open LittleEndian Ota SparseFile
set_option autoImplicit false

abbrev Str := List Char

/-- Decimal digits with single underscores between them; `gap` where no underscore may stand. -/
def decDigits : Str → Nat → Bool → Option Nat
  | [], v, gap => if gap then none else some v
  | c :: s, v, gap =>
    if c = '_' then if gap then none else decDigits s v true
    else if '0' ≤ c ∧ c ≤ '9' then decDigits s (10 * v + (c.toNat - 0x30)) false
    else none

/-- `int(s)` -/
def int10 (s : Str) : Option Int :=
  match (strip s).map asciiDigit with
  | '-' :: s => (decDigits s 0 true).map fun v => -(v : Int)
  | '+' :: s => (decDigits s 0 true).map fun v => (v : Int)
  | s => (decDigits s 0 true).map fun v => (v : Int)

/-- What the tool finds: the lines of the table, the sizes of the files that are there, and what is in a file when
the entry of a number opens it, which may be the output. -/
structure Files where
  table : Option (List Str)
  size : Str → Option Nat
  opened : Nat → Str → Option (List Byte)

/-- An entry of `custom_file_list_table` -/
structure FileInfo where
  filePath : Str
  offset : Int
  length : Int
  deriving DecidableEq, Repr

/-- The offset and the size of the partition. -/
def findPartition (partitionName : Str) : List Str → Option (Int × Int)
  | [] => none
  | line :: lines =>
    if (strip line).head? = some '#' then findPartition partitionName lines
    else
      let entry := split (strip line)
      if strip (entry.headD []) = partitionName then do
        let offset ← int16 (strip (← entry[1]?))
        let size ← int16 (strip (← entry[2]?))
        return (offset, size)
      else findPartition partitionName lines

/-- The loop that fills `custom_file_list_table` -/
def customFiles (size : Str → Option Nat) : List Str → Option (List FileInfo)
  | filePath :: fileOffset :: fileLength :: argv => do
    let offset ← int10 fileOffset
    let length ← int10 fileLength
    let fileSize ← size filePath
    if fileSize < length then none
    else
      let rest ← customFiles size argv
      return ⟨filePath, offset, length⟩ :: rest
  | _ => some []

/-- `chunk`, of an open file -/
def readChunk (fileInfo : FileInfo) (f : List Byte) : Option (List Byte) :=
  if 0 ≤ fileInfo.length then some (f.take fileInfo.length.toNat)
  else if fileInfo.length = -1 then some f
  else none

/-- The loop that writes the output file, from the entry of number `k` on. -/
def pack (opened : Nat → Str → Option (List Byte)) (partitionSize : Int) :
    Nat → List Byte → List FileInfo → Option (List Byte)
  | _, bin, [] => some bin
  | k, bin, fileInfo :: table => do
    let f ← opened k fileInfo.filePath
    let chunk ← readChunk fileInfo f
    if fileInfo.offset < 0 then none
    else
      let bin := writeAt 0#8 bin ⟨fileInfo.offset.toNat, chunk⟩
      if fileInfo.offset + fileInfo.length > partitionSize then none
      else pack opened partitionSize (k + 1) bin table

/-- What is known when the packing ends. -/
structure Packed where
  partitionSize : Int
  table : List FileInfo
  bin : List Byte
  deriving DecidableEq

/-- `main`, with the list of the arguments. -/
def main (files : Files) (argv : List Str) : Option Packed := do
  if argv.length < 7 ∨ (argv.length - 4) / 3 = 0 ∨ (argv.length - 4) % 3 ≠ 0 then none
  else
    let lines ← files.table
    let (_, partitionSize) ← findPartition (argv.getD 2 []) lines
    let table ← customFiles files.size (argv.drop 4)
    let bin ← pack files.opened partitionSize 0 [] table
    return ⟨partitionSize, table, bin⟩

/-- How many bytes of its file an entry is about. -/
def FileInfo.count (fileInfo : FileInfo) (f : List Byte) : Nat :=
  if fileInfo.length = -1 then f.length else fileInfo.length.toNat

/-- The entry and what its file holds. -/
def Packed.Opens (p : Packed) (files : Files) (k : Nat) (fileInfo : FileInfo) (f : List Byte) : Prop :=
  p.table[k]? = some fileInfo ∧ files.opened k fileInfo.filePath = some f

structure Packed.Exact (p : Packed) (files : Files) : Prop where
  contains : ∀ k fileInfo f, p.Opens files k fileInfo f → 0 ≤ fileInfo.offset ∧
    ∀ i < fileInfo.count f, ∃ b, f[i]? = some b ∧ p.bin[fileInfo.offset.toNat + i]? = some b
  apart : ∀ j k fileInfo f fileInfo' f', j ≠ k → p.Opens files j fileInfo f → p.Opens files k fileInfo' f' →
    ∀ i < fileInfo.count f, ∀ i' < fileInfo'.count f', fileInfo.offset + i ≠ fileInfo'.offset + i'
  fits : p.bin.length ≤ p.partitionSize

/-- The condition: no ranges meet, whole files end in the partition, and files have the bytes asked for. -/
structure Packed.Fine (p : Packed) (files : Files) : Prop where
  size : 0 ≤ p.partitionSize
  there : ∀ k fileInfo f, p.Opens files k fileInfo f → fileInfo.length ≤ f.length
  whole : ∀ k fileInfo f, p.Opens files k fileInfo f → fileInfo.length = -1 → f ≠ [] →
    fileInfo.offset + f.length ≤ p.partitionSize
  apart : ∀ j k fileInfo f fileInfo' f', j < k → p.Opens files j fileInfo f → p.Opens files k fileInfo' f' →
    fileInfo.count f = 0 ∨ fileInfo'.count f' = 0 ∨ fileInfo.offset + fileInfo.count f ≤ fileInfo'.offset ∨
      fileInfo'.offset + fileInfo'.count f' ≤ fileInfo.offset

/-! ### What is written -/

def FileInfo.chunk (fileInfo : FileInfo) (f : List Byte) : List Byte :=
  if 0 ≤ fileInfo.length then f.take fileInfo.length.toNat else f

def FileInfo.write (fileInfo : FileInfo) (f : List Byte) : Write Byte := ⟨fileInfo.offset.toNat, fileInfo.chunk f⟩

/-- An entry that passes the checks of its turn. -/
def FileInfo.Passes (fileInfo : FileInfo) (partitionSize : Int) : Prop :=
  0 ≤ fileInfo.offset ∧ -1 ≤ fileInfo.length ∧ fileInfo.offset + fileInfo.length ≤ partitionSize

/-- The writes of the entries. -/
def writesOf (opened : Nat → Str → Option (List Byte)) : Nat → List FileInfo → List (Write Byte)
  | _, [] => []
  | k, fileInfo :: table => fileInfo.write ((opened k fileInfo.filePath).getD []) :: writesOf opened (k + 1) table

section
variable {opened : Nat → Str → Option (List Byte)} {partitionSize : Int} {k : Nat} {bin bin' : List Byte}
  {fileInfo : FileInfo} {f : List Byte} {table : List FileInfo} {files : Files} {argv : List Str} {p : Packed}

theorem getElem?_writesOf (i : Nat) : (writesOf opened k table)[i]? =
    table[i]?.map fun fileInfo => fileInfo.write ((opened (k + i) fileInfo.filePath).getD []) := by
  induction table generalizing k i with
  | nil => rfl
  | cons fileInfo table ih =>
    cases i with
    | zero => rfl
    | succ i =>
      rw [writesOf, List.getElem?_cons_succ, List.getElem?_cons_succ, ih, Nat.add_right_comm, Nat.add_assoc]

/-- One turn of the loop. -/
theorem pack_cons (h : pack opened partitionSize k bin (fileInfo :: table) = some bin') :
    ∃ f, opened k fileInfo.filePath = some f ∧ fileInfo.Passes partitionSize ∧
      pack opened partitionSize (k + 1) (writeAt 0#8 bin (fileInfo.write f)) table = some bin' := by
  rw [pack] at h
  obtain ⟨f, hf, h⟩ := Option.bind_eq_some_iff.mp h
  obtain ⟨chunk, hchunk, h⟩ := Option.bind_eq_some_iff.mp h
  have hlength : -1 ≤ fileInfo.length ∧ chunk = fileInfo.chunk f := by
    unfold readChunk at hchunk
    unfold FileInfo.chunk
    split at hchunk
    next hpos => exact ⟨by omega, by rw [if_pos hpos, Option.some.inj hchunk]⟩
    next hpos =>
      split at hchunk
      next hneg => exact ⟨by omega, by rw [if_neg hpos, Option.some.inj hchunk]⟩
      next => cases hchunk
  obtain ⟨hlength, rfl⟩ := hlength
  split at h
  · cases h
  · split at h
    · cases h
    · exact ⟨f, hf, ⟨by omega, hlength, by omega⟩, h⟩

/-- The whole loop: every entry passes, and the output is made of their writes. -/
theorem pack_eq (h : pack opened partitionSize k bin table = some bin') :
    bin' = (writesOf opened k table).foldl (writeAt 0#8) bin ∧ ∀ i fileInfo, table[i]? = some fileInfo →
      fileInfo.Passes partitionSize ∧ ∃ f, opened (k + i) fileInfo.filePath = some f := by
  induction table generalizing k bin with
  | nil => exact ⟨(Option.some.inj h).symm, fun i _ hi => absurd hi (by simp)⟩
  | cons fileInfo table ih =>
    obtain ⟨f, hf, hpasses, hrest⟩ := pack_cons h
    obtain ⟨rfl, hall⟩ := ih hrest
    refine ⟨?_, fun i info hi => ?_⟩
    · rw [writesOf, List.foldl_cons, hf]
      rfl
    · cases i with
      | zero =>
        obtain rfl := Option.some.inj hi
        exact ⟨hpasses, f, hf⟩
      | succ i =>
        have hturn := hall i info hi
        rw [Nat.add_right_comm, Nat.add_assoc] at hturn
        exact hturn

theorem main_eq (h : main files argv = some p) :
    p.bin = (writesOf files.opened 0 p.table).foldl (writeAt 0#8) [] ∧ ∀ i fileInfo, p.table[i]? = some fileInfo →
      fileInfo.Passes p.partitionSize ∧ ∃ f, p.Opens files i fileInfo f := by
  unfold main at h
  split at h
  · cases h
  · obtain ⟨lines, -, h⟩ := Option.bind_eq_some_iff.mp h
    obtain ⟨⟨offset, partitionSize⟩, -, h⟩ := Option.bind_eq_some_iff.mp h
    obtain ⟨table, -, h⟩ := Option.bind_eq_some_iff.mp h
    obtain ⟨bin, hbin, h⟩ := Option.bind_eq_some_iff.mp h
    obtain rfl := Option.some.inj h
    obtain ⟨heq, hall⟩ := pack_eq hbin
    refine ⟨heq, fun i fileInfo hi => ?_⟩
    obtain ⟨hpasses, f, hf⟩ := hall i fileInfo hi
    rw [Nat.zero_add] at hf
    exact ⟨hpasses, f, hi, hf⟩

/-- A chunk of an entry that passes has as many bytes as the entry is about, if the file has them. -/
theorem chunk_of_passes (hpasses : fileInfo.Passes partitionSize) :
    fileInfo.chunk f = f.take (fileInfo.count f) ∧
      ((fileInfo.chunk f).length = fileInfo.count f ↔ fileInfo.length ≤ f.length) := by
  obtain ⟨-, hlength, -⟩ := hpasses
  unfold FileInfo.chunk FileInfo.count
  rcases Int.lt_or_le fileInfo.length 0 with hneg | hpos
  · rw [if_neg (by omega), if_pos (by omega), List.take_length]
    exact ⟨rfl, by omega⟩
  · rw [if_pos hpos, if_neg (by omega), List.length_take]
    exact ⟨rfl, by omega⟩

theorem holds_write_iff (hchunk : fileInfo.chunk f = f.take (fileInfo.count f)) (hcount : (fileInfo.chunk f).length = fileInfo.count f) :
    Holds bin (fileInfo.write f) ↔
      ∀ i < fileInfo.count f, ∃ b, f[i]? = some b ∧ bin[fileInfo.offset.toNat + i]? = some b := by
  unfold Holds FileInfo.write
  rw [hcount]
  refine forall₂_congr fun i hi => ?_
  have hlen : i < f.length := by
    rw [hchunk, List.length_take] at hcount
    omega
  rw [hchunk, List.getElem?_take_of_lt hi, List.getElem?_eq_getElem hlen]
  exact ⟨fun h => ⟨_, rfl, h⟩, fun ⟨b, hb, h⟩ => h.trans hb.symm⟩

/-- The ranges of entries, whose files have their bytes, keep apart as the writes do. -/
theorem apart_write_iff {fileInfo' : FileInfo} {f' : List Byte} (hoffset : 0 ≤ fileInfo.offset)
    (hoffset' : 0 ≤ fileInfo'.offset) (hcount : (fileInfo.chunk f).length = fileInfo.count f)
    (hcount' : (fileInfo'.chunk f').length = fileInfo'.count f') :
    Apart (fileInfo.write f) (fileInfo'.write f') ↔
      fileInfo.count f = 0 ∨ fileInfo'.count f' = 0 ∨ fileInfo.offset + fileInfo.count f ≤ fileInfo'.offset ∨
        fileInfo'.offset + fileInfo'.count f' ≤ fileInfo.offset := by
  simp only [apart_iff, FileInfo.write, hcount, hcount']
  omega

/-! ### Exactness -/

/-- The writes are those of the entries and their files. -/
theorem writesOf_of_main (h : main files argv = some p) {i : Nat} {w : Write Byte} :
    (writesOf files.opened 0 p.table)[i]? = some w ↔ ∃ fileInfo f, p.Opens files i fileInfo f ∧ fileInfo.write f = w := by
  rw [getElem?_writesOf, Option.map_eq_some_iff, Nat.zero_add]
  constructor
  · rintro ⟨fileInfo, hi, rfl⟩
    obtain ⟨-, f, hopens⟩ := (main_eq h).2 i fileInfo hi
    exact ⟨fileInfo, f, hopens, by rw [hopens.2]; rfl⟩
  · rintro ⟨fileInfo, f, ⟨hi, hf⟩, rfl⟩
    exact ⟨fileInfo, hi, by rw [hf]; rfl⟩

/-- The output ends in the partition if its writes do. -/
theorem fits_iff (h : main files argv = some p) (hsize : 0 ≤ p.partitionSize) :
    p.bin.length ≤ p.partitionSize ↔ ∀ k fileInfo f, p.Opens files k fileInfo f →
      (fileInfo.chunk f).length ≠ 0 → fileInfo.offset + (fileInfo.chunk f).length ≤ p.partitionSize := by
  have hle : p.bin.length ≤ p.partitionSize ↔ p.bin.length ≤ p.partitionSize.toNat := by omega
  rw [hle, (main_eq h).1, length_writes_le_iff]
  constructor
  · rintro ⟨-, hall⟩ k fileInfo f hopens hne
    have hw := hall _ (List.mem_of_getElem? ((writesOf_of_main h).mpr ⟨fileInfo, f, hopens, rfl⟩)) hne
    have hoffset := ((main_eq h).2 k fileInfo hopens.1).1.1
    simp only [FileInfo.write] at hw
    omega
  · intro hall
    refine ⟨Nat.zero_le _, fun w hw hne => ?_⟩
    obtain ⟨i, hi⟩ := List.mem_iff_getElem?.mp hw
    obtain ⟨fileInfo, f, hopens, rfl⟩ := (writesOf_of_main h).mp hi
    have hw := hall i fileInfo f hopens hne
    have hoffset := ((main_eq h).2 i fileInfo hopens.1).1.1
    simp only [FileInfo.write]
    omega

theorem Packed.Exact.fine (h : main files argv = some p) (hexact : p.Exact files) : p.Fine files := by
  have hsize : 0 ≤ p.partitionSize := Int.le_trans (Int.natCast_nonneg _) hexact.fits
  refine ⟨hsize, fun k fileInfo f hopens => ?_, fun k fileInfo f hopens hlength hne => ?_,
    fun j k fileInfo f fileInfo' f' hjk hj hk => ?_⟩
  · by_contra hshort
    have hcount : f.length < fileInfo.count f := by
      rw [FileInfo.count, if_neg (by omega)]
      omega
    obtain ⟨b, hb, -⟩ := (hexact.contains k fileInfo f hopens).2 f.length hcount
    exact absurd (List.getElem?_eq_some_iff.mp hb).1 (Nat.lt_irrefl _)
  · have hchunk : fileInfo.chunk f = f := by
      rw [FileInfo.chunk, if_neg (by omega)]
    have hend := (fits_iff h hsize).mp hexact.fits k fileInfo f hopens
    rw [hchunk] at hend
    exact hend fun hzero => hne (List.length_eq_zero_iff.mp hzero)
  · by_contra hmeet
    have hoffset := (hexact.contains j fileInfo f hj).1
    have hoffset' := (hexact.contains k fileInfo' f' hk).1
    have hapart := hexact.apart j k fileInfo f fileInfo' f' (Nat.ne_of_lt hjk) hj hk
    -- the later one of the two starts is in both ranges
    rcases Int.le_total fileInfo.offset fileInfo'.offset with hle | hle
    · exact hapart (fileInfo'.offset - fileInfo.offset).toNat (by omega) 0 (by omega) (by omega)
    · exact hapart 0 (by omega) (fileInfo.offset - fileInfo'.offset).toNat (by omega) (by omega)

theorem Packed.Fine.pairwise (h : main files argv = some p) (hfine : p.Fine files) :
    (writesOf files.opened 0 p.table).Pairwise Apart := by
  rw [List.pairwise_iff_getElem]
  intro i j hi hj hij
  obtain ⟨fileInfo, f, hopens, hw⟩ := (writesOf_of_main h).mp (List.getElem?_eq_getElem hi)
  obtain ⟨fileInfo', f', hopens', hw'⟩ := (writesOf_of_main h).mp (List.getElem?_eq_getElem hj)
  have hpasses := ((main_eq h).2 i fileInfo hopens.1).1
  have hpasses' := ((main_eq h).2 j fileInfo' hopens'.1).1
  rw [← hw, ← hw', apart_write_iff hpasses.1 hpasses'.1
    ((chunk_of_passes hpasses).2.mpr (hfine.there i fileInfo f hopens))
    ((chunk_of_passes hpasses').2.mpr (hfine.there j fileInfo' f' hopens'))]
  exact hfine.apart i j fileInfo f fileInfo' f' hij hopens hopens'

theorem Packed.Fine.exact (h : main files argv = some p) (hfine : p.Fine files) : p.Exact files := by
  refine ⟨fun k fileInfo f hopens => ?_, fun j k fileInfo f fileInfo' f' hjk hj hk i hi i' hi' => ?_, ?_⟩
  · have hpasses := ((main_eq h).2 k fileInfo hopens.1).1
    obtain ⟨hchunk, hcount⟩ := chunk_of_passes (f := f) hpasses
    refine ⟨hpasses.1, ?_⟩
    rw [← holds_write_iff hchunk (hcount.mpr (hfine.there k fileInfo f hopens)), (main_eq h).1]
    exact holds_writes (hfine.pairwise h) _
      (List.mem_of_getElem? ((writesOf_of_main h).mpr ⟨fileInfo, f, hopens, rfl⟩))
  · rcases Nat.lt_or_gt_of_ne hjk with hlt | hlt
    · have := hfine.apart j k fileInfo f fileInfo' f' hlt hj hk
      omega
    · have := hfine.apart k j fileInfo' f' fileInfo f hlt hk hj
      omega
  · rw [fits_iff h hfine.size]
    intro k fileInfo f hopens hne
    obtain ⟨hoffset, hlength, hend⟩ := ((main_eq h).2 k fileInfo hopens.1).1
    have hthere := hfine.there k fileInfo f hopens
    rcases Int.lt_or_le fileInfo.length 0 with hneg | hpos
    · rw [FileInfo.chunk, if_neg (by omega)] at hne ⊢
      exact hfine.whole k fileInfo f hopens (by omega) fun hnil => hne (List.length_eq_zero_iff.mpr hnil)
    · rw [FileInfo.chunk, if_pos hpos, List.length_take]
      omega

theorem packed_exact_iff (h : main files argv = some p) : p.Exact files ↔ p.Fine files :=
  ⟨fun hexact => hexact.fine h, fun hfine => hfine.exact h⟩

end

/-- A partition of four bytes, and files of three bytes: the first byte of one and the whole of another. -/
def testFiles : Files where
  table := some ["data,0x1000,0x4,0x0".toList]
  size := fun _ => some 3
  opened := fun _ _ => some [1, 2, 3]

def testArgs (offset : String) : List Str :=
  ["customfile2img.py", "table.csv", "data", "out", "a.bin", "0", "1", "b.bin", offset, "-1"].map String.toList

def testPacked (offset : Int) (bin : List Byte) : Packed :=
  ⟨4, [⟨"a.bin".toList, 0, 1⟩, ⟨"b.bin".toList, offset, -1⟩], bin⟩

theorem packed_exact_iff_whole :
    (testPacked 1 [1, 1, 2, 3]).Exact testFiles ↔ (testPacked 1 [1, 1, 2, 3]).Fine testFiles := by
  have hmain : main testFiles (testArgs "1") = some (testPacked 1 [1, 1, 2, 3]) := by decide +kernel
  exact packed_exact_iff hmain

/-- At the offset 2 the output has five bytes, and the packing ends without an error. -/
theorem not_packed_exact : main testFiles (testArgs "2") = some (testPacked 2 [1, 0, 1, 2, 3]) ∧
    ¬ (testPacked 2 [1, 0, 1, 2, 3]).Exact testFiles := by
  refine ⟨by decide +kernel, fun h => absurd h.fits ?_⟩
  decide

end WmIot.PartitionTable.CustomFile
