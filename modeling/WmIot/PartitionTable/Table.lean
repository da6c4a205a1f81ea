import WmIot.Flash.Internal
import WmIot.Lib.LittleEndian

/-!
# The partition table

`wm_partition_table.c` on a flash of the given size, read through its driver; `mem` says whether a buffer can
be allocated. The state is the number of entries of a verified table.
-/

namespace WmIot.PartitionTable
open NorFlash LittleEndian
set_option autoImplicit false

inductive Err where
  | failed
  | noMem
  | notInited
  | notFound
deriving DecidableEq, Repr

/-- `CONFIG_WM_PARTITION_TABLE_OFFSET` -/
def tableOffset : Nat := 0xE000

/-- `WM_PARTITION_TABLE_MAGIC_NUMBER` -/
def tableMagicNumber : Nat := 0xA1F2F39F

/-- The size of `wm_partition_header_t`. -/
def headerSize : Nat := 12

/-- The size of `wm_partition_item_t`. -/
def itemSize : Nat := 28

/-- The size of the checksum. -/
def md5Size : Nat := 16

/-- `wm_partition_item_t` -/
structure Item where
  name : List Byte
  offset : Nat
  size : Nat
  flag : Nat
deriving DecidableEq, Repr

/-- The entry at an offset of a buffer. -/
def itemAt (buf : List Byte) (off : Nat) : Item where
  name := (buf.drop off).take 16
  offset := wordAt 4 buf (off + 16)
  size := wordAt 4 buf (off + 20)
  flag := wordAt 4 buf (off + 24)

/-- The string at the start of a buffer, up to its NUL. -/
def cString (buf : List Byte) : List Byte := buf.takeWhile (· ≠ 0#8)

/-- The checks of `wm_partition_table_init` on the table in its buffer. -/
def checkTable (size : Nat) (md5 : List Byte → List Byte) (buf : List Byte) (count : Nat) : Except Err Nat :=
  let len := headerSize + count * itemSize
  if (buf.drop len).take md5Size ≠ md5 (buf.take len) then .error .failed
  else if (List.range count).any fun i =>
      size < ((itemAt buf (headerSize + i * itemSize)).offset + (itemAt buf (headerSize + i * itemSize)).size) % 2 ^ 32
    then .error .failed
  else .ok count

/-- `wm_partition_table_init` -/
def init (size : Nat) (mem : Bool) (md5 : List Byte → List Byte) (f : Flash) : Except Err Nat :=
  match Flash.read size mem f tableOffset headerSize with
  | none => .error .failed
  | some header =>
    if wordAt 4 header 0 ≠ tableMagicNumber then .error .failed
    else
      let count := wordAt 2 header 6
      if Flash.sectorSize < headerSize + count * itemSize + md5Size then .error .failed
      else if !mem then .error .noMem
      else
        match Flash.read size mem f (tableOffset + headerSize) (count * itemSize + md5Size) with
        | none => .error .failed
        | some body => checkTable size md5 (header ++ body) count

/-- `wm_partition_table_find`; its 8-bit counter reaches all entries of a verified table. -/
def find (size : Nat) (mem : Bool) (f : Flash) (verified : Option Nat) (name : List Byte) : Except Err Item :=
  match verified with
  | none => .error .notInited
  | some count =>
    if !mem then .error .noMem
    else
      match Flash.read size mem f (tableOffset + headerSize) (count * itemSize) with
      | none => .error .failed
      | some buf =>
        match (List.range count).find? fun i => cString (buf.drop (i * itemSize)) = name with
        | none => .error .notFound
        | some i => .ok (itemAt buf (i * itemSize))

/-! ## Reading a file that is in the flash -/

theorem readBytes_take {f : Flash} {addr : Nat} {bin : List Byte} (h : readBytes f addr bin.length = bin) {k : Nat}
    (hk : k ≤ bin.length) : readBytes f addr k = bin.take k := by
  rw [← h, readBytes, readBytes, ← List.map_take, List.take_range, Nat.min_eq_left hk]

theorem readBytes_drop {f : Flash} {addr n : Nat} {bin : List Byte} (h : readBytes f addr bin.length = bin) {k : Nat}
    (hk : n + k ≤ bin.length) : readBytes f (addr + n) k = (bin.drop n).take k := by
  apply List.ext_getElem
  · simp only [readBytes_length, List.length_take, List.length_drop]
    omega
  · intro i h₁ h₂
    have hi : i < k := by simpa using h₁
    have hni : n + i < bin.length := by omega
    have hbin : f (addr + (n + i)) = bin[n + i] := by
      have hget := congrArg (·[n + i]?) h
      simp only [readBytes, List.getElem?_map] at hget
      rw [List.getElem?_range (by omega), List.getElem?_eq_getElem (by omega)] at hget
      exact Option.some.inj hget
    simp only [readBytes, List.getElem_map, List.getElem_range, List.getElem_take, List.getElem_drop]
    rw [Nat.add_assoc]
    exact hbin

/-- Entries after each other are found at their places. -/
theorem drop_flatten {α : Type} {n : Nat} (blocks : List (List α)) (hall : ∀ b ∈ blocks, b.length = n)
    (rest : List α) : ∀ i (hi : i < blocks.length), ∃ tail, (blocks.flatten ++ rest).drop (i * n) = blocks[i] ++ tail := by
  induction blocks with
  | nil => exact fun i hi => absurd hi (Nat.not_lt_zero i)
  | cons b blocks ih =>
    intro i hi
    rw [List.flatten_cons, List.append_assoc]
    cases i with
    | zero =>
      rw [Nat.zero_mul]
      exact ⟨_, rfl⟩
    | succ i =>
      have hdrop : (b ++ (blocks.flatten ++ rest)).drop ((i + 1) * n) = (blocks.flatten ++ rest).drop (i * n) := by
        rw [Nat.succ_mul, Nat.add_comm, ← List.drop_drop, List.drop_left' (hall b List.mem_cons_self)]
      rw [hdrop]
      exact ih (fun c hc => hall c (List.mem_cons_of_mem b hc)) i (Nat.lt_of_succ_lt_succ hi)

end WmIot.PartitionTable
