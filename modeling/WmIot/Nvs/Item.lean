import WmIot.Lib.NorFlash

/-!
# NVS items

The 32-byte item header of `wm_nvs_item.h`, its initialisation, span and checksums.
`Port` holds what the component takes from the platform: the CRC engine behind
`wm_nvs_port_crc32` and the configured `CONFIG_NVS_VER_NUM`.
-/

namespace WmIot.Nvs
open NorFlash
set_option autoImplicit false

/-- Error codes `WM_NVS_ERR_*`. `fault` is not one of them: it stands for a NULL dereference. -/
inductive Err where
  | ok | fail | invalidParam | notInit | areadyInit | noMem | notFound | readOnly | noSpace
  | invalidHandle | sectorFull | invalidLength | valueTooLong | callInIsr | fault
  deriving DecidableEq

/-- `wm_nvs_type_t`, with the two internal types of `wm_nvs_item.h` and the value of the type
field that names no type. -/
inductive NvsType where
  | any | string | int8 | uint8 | int16 | uint16 | int32 | uint32 | int64 | uint64 | double
  | binary | blob | blobSeg | anyWithoutSeg | reserved
  deriving DecidableEq

def NvsType.code : NvsType → BitVec 4
  | .any => 0 | .string => 1 | .int8 => 2 | .uint8 => 3 | .int16 => 4 | .uint16 => 5
  | .int32 => 6 | .uint32 => 7 | .int64 => 8 | .uint64 => 9 | .double => 10
  | .binary => 11 | .blob => 12 | .blobSeg => 13 | .anyWithoutSeg => 14 | .reserved => 15

def NvsType.ofCode (c : BitVec 4) : NvsType :=
  match c.toNat with
  | 0 => .any | 1 => .string | 2 => .int8 | 3 => .uint8 | 4 => .int16 | 5 => .uint16
  | 6 => .int32 | 7 => .uint32 | 8 => .int64 | 9 => .uint64 | 10 => .double
  | 11 => .binary | 12 => .blob | 13 => .blobSeg | 14 => .anyWithoutSeg | _ => .reserved

/-- `type > WM_NVS_TYPE_ANY && type < WM_NVS_TYPE_MAX`, the check of `set_item` and `get_item`. -/
def NvsType.IsValue (t : NvsType) : Prop :=
  t ≠ .any ∧ t ≠ .blobSeg ∧ t ≠ .anyWithoutSeg ∧ t ≠ .reserved

instance (t : NvsType) : Decidable t.IsValue := inferInstanceAs (Decidable (_ ∧ _))

theorem NvsType.ofCode_code (t : NvsType) : ofCode t.code = t := by
  cases t <;> rfl

theorem NvsType.code_injective {s t : NvsType} (h : s.code = t.code) : s = t := by
  rw [← ofCode_code s, h, ofCode_code t]

@[simp] abbrev sliceSize : Nat := 32
@[simp] abbrev sectionSize : Nat := 0x1000
@[simp] abbrev entryCount : Nat := 127
@[simp] abbrev singleItemMaxDataSize : Nat := (entryCount - 1) * sliceSize
@[simp] abbrev maxKeyLen : Nat := 15
@[simp] abbrev groupIdMax : Nat := 0x3f
abbrev groupIdAny : Byte := 0x3f#8
abbrev groupItselfId : Byte := 0#8
abbrev segIdAny : Byte := 0xff#8
@[simp] abbrev segNumMax : Nat := 127
abbrev segStartVer0 : Byte := 0#8
abbrev segStartVer1 : Byte := 0x80#8
abbrev segStartAny : Byte := 0xff#8
@[simp] abbrev blobMinSegSize : Nat := 512

abbrev itemUnused : Byte := 0xff#8
abbrev itemUsing : Byte := 0xfe#8
abbrev itemDroped : Byte := 0xfc#8

structure Port where
  crc32 : BitVec 32 → List Byte → BitVec 32
  verNum : Byte

structure Item where
  state : Byte
  name : Vector Byte maxKeyLen
  groupId : BitVec 6
  recv1 : BitVec 2
  segId : Byte
  type : BitVec 4
  length : BitVec 12
  crcItem : BitVec 32
  data : Vector Byte 8
  deriving DecidableEq

/-- A 32-bit word as the little-endian core stores it. -/
def le32 (x : BitVec 32) : List Byte :=
  [x.extractLsb' 0 8, x.extractLsb' 8 8, x.extractLsb' 16 8, x.extractLsb' 24 8]

def ofLe32 (b₀ b₁ b₂ b₃ : Byte) : BitVec 32 := b₃ ++ b₂ ++ b₁ ++ b₀

def Item.groupByte (it : Item) : Byte := it.recv1 ++ it.groupId

/-- The item as it lies in memory and on flash. -/
def Item.bytes (it : Item) : List Byte :=
  it.state :: (it.name.toList ++
    ([it.groupByte, it.segId, it.length.extractLsb' 0 4 ++ it.type, it.length.extractLsb' 4 8] ++
      (le32 it.crcItem ++ it.data.toList)))

def Item.ofBytes (b : Nat → Byte) : Item where
  state := b 0
  name := Vector.ofFn fun i => b (1 + i)
  groupId := (b 16).extractLsb' 0 6
  recv1 := (b 16).extractLsb' 6 2
  segId := b 17
  type := (b 18).extractLsb' 0 4
  length := b 19 ++ (b 18).extractLsb' 4 4
  crcItem := ofLe32 (b 20) (b 21) (b 22) (b 23)
  data := Vector.ofFn fun i => b (24 + i)

namespace Item

def allSize (it : Item) : Nat := (ofLe32 it.data[0] it.data[1] it.data[2] it.data[3]).toNat
def segCount (it : Item) : Nat := it.data[4].toNat
def segStart (it : Item) : Byte := it.data[5]
def crcData (it : Item) : BitVec 32 := ofLe32 it.data[0] it.data[1] it.data[2] it.data[3]

/-- `wm_nvs_item_get_span`. -/
def span (it : Item) : Nat :=
  if it.length.toNat > 8 then 1 + (it.length.toNat + (sliceSize - 1)) / sliceSize else 1

end Item

/-- `strnlen`: a list ends where the C string has its terminating zero. -/
def strnlen : List Byte → Nat → Nat
  | _, 0 => 0
  | [], _ => 0
  | c :: cs, n + 1 => if c = 0 then 0 else strnlen cs n + 1

/-- `strncmp a b n = 0`. -/
def strncmpEq : List Byte → List Byte → Nat → Bool
  | _, _, 0 => true
  | [], [], _ => true
  | [], b :: _, _ => b == 0
  | a :: _, [], _ => a == 0
  | a :: as, b :: bs, n + 1 => a == b && (a == 0 || strncmpEq as bs n)

/-- `wm_nvs_item_crc_hash`, cut to the 24 bits a hash node keeps. -/
def itemCrcHash (P : Port) (it : Item) : BitVec 24 :=
  (P.crc32 0xFFFFFFFF#32 (it.name.toList ++ [it.groupByte, it.segId])).setWidth 24

/-- `wm_nvs_item_crc_head`: everything but the state and the checksum itself. -/
def itemCrcHead (P : Port) (it : Item) : BitVec 32 :=
  P.crc32 (P.crc32 0xFFFFFFFF#32 ((it.bytes.drop 1).take 19)) it.data.toList

/-- The name field a key is stored in. -/
def nameField (key : List Byte) : Vector Byte maxKeyLen := Vector.ofFn fun i =>
  if i < strnlen key maxKeyLen then key.getD i 0
  else if (i : Nat) = strnlen key maxKeyLen then 0 else 0xff#8

def dataField (bytes : List Byte) : Vector Byte 8 := Vector.ofFn fun i => bytes.getD i 0xff#8

/-- `wm_nvs_item_init`. With `data = none` (a lookup) the data and checksum stay all ones. -/
def itemInit (P : Port) (state groupId : Byte) (type : NvsType) (key : List Byte)
    (data : Option (List Byte)) (size : Nat) (segId : Byte) : Item :=
  let it : Item :=
    { state := state, name := nameField key, groupId := groupId.setWidth 6, recv1 := 0,
      segId := segId, type := type.code, length := BitVec.ofNat 12 size,
      crcItem := 0xFFFFFFFF#32, data := dataField [] }
  match data with
  | none => it
  | some bytes =>
    let it := { it with
      data := dataField (if size > 8 then le32 (P.crc32 0xFFFFFFFF#32 bytes) else bytes.take size) }
    { it with crcItem := itemCrcHead P it }

/-- `wm_nvs_pt_read_item` of an item header inside the partition. -/
def readItem (f : Flash) (addr : Nat) : Item := Item.ofBytes fun k => f (addr + k)

namespace Item

@[simp] theorem bytes_length (it : Item) : it.bytes.length = sliceSize := by
  simp [bytes, le32]

theorem span_pos (it : Item) : 0 < it.span := by
  unfold span
  split
  · exact Nat.add_pos_left Nat.one_pos _
  · exact Nat.one_pos

theorem span_le (it : Item) : it.span ≤ 129 := by
  have h : it.length.toNat < 4096 := it.length.isLt
  unfold span
  simp only [sliceSize]
  split <;> omega

theorem span_eq_one {it : Item} (h : it.length.toNat ≤ 8) : it.span = 1 := by
  simp [span, Nat.not_lt.mpr h]

end Item

theorem append_low {m n : Nat} (x : BitVec m) (y : BitVec n) : (x ++ y).extractLsb' 0 n = y := by
  apply BitVec.eq_of_getLsbD_eq
  intro i hi
  simp only [BitVec.getLsbD_extractLsb', BitVec.getLsbD_append, hi, decide_true, Bool.true_and,
    Nat.zero_add, if_true]

theorem append_high {m n : Nat} (x : BitVec m) (y : BitVec n) : (x ++ y).extractLsb' n m = x := by
  apply BitVec.eq_of_getLsbD_eq
  intro i hi
  have hn : ¬ n + i < n := by omega
  simp only [BitVec.getLsbD_extractLsb', BitVec.getLsbD_append, hi, hn, decide_true, Bool.true_and,
    if_false, Nat.add_sub_cancel_left]

theorem length_split (l : BitVec 12) : l.extractLsb' 4 8 ++ l.extractLsb' 0 4 = l := by
  apply BitVec.eq_of_getLsbD_eq
  intro i hi
  simp only [BitVec.getLsbD_append, BitVec.getLsbD_extractLsb']
  grind

theorem ofLe32_le32 (x : BitVec 32) :
    ofLe32 (x.extractLsb' 0 8) (x.extractLsb' 8 8) (x.extractLsb' 16 8) (x.extractLsb' 24 8) = x := by
  apply BitVec.eq_of_getLsbD_eq
  intro i hi
  simp only [ofLe32, BitVec.getLsbD_append, BitVec.getLsbD_extractLsb']
  grind

/-- Decoding the bytes of an item gives the item back. -/
theorem ofBytes_bytes (it : Item) (b : Nat → Byte) (h : ∀ k < sliceSize, b k = it.bytes.getD k blank) :
    Item.ofBytes b = it := by
  have hname : ∀ i (hi : i < maxKeyLen), b (1 + i) = it.name[i] := by
    intro i hi
    rw [h _ (by simp only [sliceSize, maxKeyLen] at *; omega)]
    simp only [Item.bytes, Nat.add_comm 1 i, List.getD_cons_succ]
    simp [List.getD, List.getElem?_append, hi]
  have hdata : ∀ i (hi : i < 8), b (24 + i) = it.data[i] := by
    intro i hi
    rw [h _ (by simp only [sliceSize]; omega), show 24 + i = (15 + 4 + 4 + i) + 1 by omega]
    have hlen : it.name.toList.length = 15 := by simp
    simp only [Item.bytes, List.getD_cons_succ, le32]
    rw [List.getD, List.getElem?_append_right (by omega), List.getElem?_append_right (by simp; omega),
      List.getElem?_append_right (by simp; omega), hlen]
    simp [hi, show 15 + 4 + 4 + i - 15 - 4 - 4 = i by omega]
  have hmid : ∀ i < 8, b (16 + i) =
      ([it.groupByte, it.segId, it.length.extractLsb' 0 4 ++ it.type, it.length.extractLsb' 4 8] ++
        le32 it.crcItem).getD i blank := by
    intro i hi
    rw [h _ (by simp only [sliceSize]; omega), show 16 + i = (15 + i) + 1 by omega]
    have hlen : it.name.toList.length = 15 := by simp
    simp only [Item.bytes, List.getD_cons_succ]
    rw [List.getD, List.getElem?_append_right (by omega), ← List.append_assoc,
      List.getElem?_append_left (by simp [le32]; omega), hlen, Nat.add_sub_cancel_left]
    rfl
  have h0 : b 0 = it.state := by rw [h 0 (by decide)]; rfl
  have h16 : b 16 = it.groupByte := hmid 0 (by decide)
  have h17 : b 17 = it.segId := hmid 1 (by decide)
  have h18 : b 18 = it.length.extractLsb' 0 4 ++ it.type := hmid 2 (by decide)
  have h19 : b 19 = it.length.extractLsb' 4 8 := hmid 3 (by decide)
  have h20 : b 20 = it.crcItem.extractLsb' 0 8 := hmid 4 (by decide)
  have h21 : b 21 = it.crcItem.extractLsb' 8 8 := hmid 5 (by decide)
  have h22 : b 22 = it.crcItem.extractLsb' 16 8 := hmid 6 (by decide)
  have h23 : b 23 = it.crcItem.extractLsb' 24 8 := hmid 7 (by decide)
  unfold Item.ofBytes
  rw [h0, h16, h17, h18, h19, h20, h21, h22, h23, ofLe32_le32, append_low, append_high,
    length_split, Item.groupByte, append_low, append_high]
  cases it with
  | mk state name groupId recv1 segId type length crcItem data =>
    simp only [Item.mk.injEq, true_and]
    refine ⟨?_, ?_⟩
    · ext i hi
      simp [hname i hi]
    · ext i hi
      simp [hdata i hi]

/-- An item programmed on blank cells is read back. -/
theorem readItem_program {f : Flash} {addr : Nat} (it : Item)
    (h : BlankOn f addr (addr + sliceSize)) : readItem (program f addr it.bytes) addr = it := by
  apply ofBytes_bytes
  intro k hk
  exact program_on_blank (by simpa using h) (by simpa using hk)

theorem readItem_congr {f g : Flash} {addr : Nat} (h : AgreeOn f g addr (addr + sliceSize)) :
    readItem f addr = readItem g addr := by
  have hb : ∀ k < 32, f (addr + k) = g (addr + k) := by
    intro k hk
    exact h _ (by omega) (by simp only [sliceSize]; omega)
  have hname : ∀ i : Fin maxKeyLen, f (addr + (1 + i)) = g (addr + (1 + i)) := by
    intro i
    have hi : (i : Nat) < 15 := i.isLt
    exact hb _ (by omega)
  have hdata : ∀ i : Fin 8, f (addr + (24 + i)) = g (addr + (24 + i)) := by
    intro i
    exact hb _ (by omega)
  unfold readItem Item.ofBytes
  simp only [hname, hdata, hb 0 (by decide), hb 16 (by decide), hb 17 (by decide), hb 18 (by decide),
    hb 19 (by decide), hb 20 (by decide), hb 21 (by decide), hb 22 (by decide), hb 23 (by decide)]

end WmIot.Nvs
