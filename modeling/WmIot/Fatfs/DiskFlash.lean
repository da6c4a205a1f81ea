import WmIot.Lib.NorFlash

/-!
# The FAT disk in the internal flash

`wm_diskio_flash.c`: the sectors of a partition of the internal flash. The flash driver reads a range and
writes one with erase, and refuses a range that leaves the chip; it is taken to be exact. The disk computes its
addresses in 32 bits.
-/

namespace WmIot.Fatfs
open NorFlash
set_option autoImplicit false

/-- An item of the partition table: where the partition is. -/
structure Partition where
  offset : BitVec 32
  size : BitVec 32

/-- `DRESULT`, the results in use -/
inductive Result where
  | ok
  | error
  | notrdy
  deriving DecidableEq, Repr

/-- `wm_diskio_internal_flash_check_partition`: the address and the size, where `found` is what
`wm_partition_table_find` gives -/
def checkPartition (found : Option Partition) (sector count : BitVec 32) : Option (BitVec 32 × BitVec 32) := do
  let partition ← found
  let addr := partition.offset + sector * 512#32
  let size := count * 512#32
  if addr + size > partition.offset + partition.size then none else some (addr, size)

/-- `wm_drv_flash_read` on a chip of `chip` bytes -/
def drvFlashRead (chip : Nat) (mem : Flash) (addr size : Nat) : Option (List Byte) :=
  if addr + size ≤ chip then some (readBytes mem addr size) else none

def overwrite (mem : Flash) (addr : Nat) (data : List Byte) : Flash := fun a =>
  if addr ≤ a ∧ a < addr + data.length then data.getD (a - addr) blank else mem a

/-- `wm_drv_flash_write_with_erase` on a chip of `chip` bytes -/
def drvFlashWriteWithErase (chip : Nat) (mem : Flash) (addr : Nat) (data : List Byte) : Option Flash :=
  if addr + data.length ≤ chip then some (overwrite mem addr data) else none

/-- `wm_diskio_flash_read` of the internal flash -/
def diskioFlashRead (ready : Bool) (found : Option Partition) (chip : Nat) (mem : Flash)
    (sector count : BitVec 32) : Except Result (List Byte) :=
  if ready = false then .error .notrdy
  else
    match checkPartition found sector count with
    | none => .error .error
    | some (addr, size) =>
      match drvFlashRead chip mem addr.toNat size.toNat with
      | none => .error .error
      | some buff => .ok buff

/-- `wm_diskio_flash_write` of the internal flash -/
def diskioFlashWrite (ready : Bool) (found : Option Partition) (chip : Nat) (mem : Flash) (buff : List Byte)
    (sector count : BitVec 32) : Except Result Flash :=
  if ready = false then .error .notrdy
  else
    match checkPartition found sector count with
    | none => .error .error
    | some (addr, size) =>
      match drvFlashWriteWithErase chip mem addr.toNat (buff.take size.toNat) with
      | none => .error .error
      | some mem => .ok mem

/-! ### The disk -/

/-- A partition that is a region of a chip. -/
structure Disk where
  chip : Nat
  partition : Partition
  chip_lt : chip < 2 ^ 32
  region : partition.offset.toNat + partition.size.toNat ≤ chip

/-- A call of the file system: a read, or a write of as many bytes as its sectors have. -/
structure Request where
  sector : BitVec 32
  count : BitVec 32
  data : Option (List Byte)
  full : ∀ bytes ∈ data, bytes.length = count.toNat * 512

/-- What a request gives: the flash after it and what was read. -/
def Disk.exec (d : Disk) (mem : Flash) (r : Request) : Except Result (Flash × List Byte) :=
  match r.data with
  | none => (diskioFlashRead true (some d.partition) d.chip mem r.sector r.count).map (mem, ·)
  | some bytes => (diskioFlashWrite true (some d.partition) d.chip mem bytes r.sector r.count).map (·, [])

/-- The flash after some requests. -/
def Disk.run (d : Disk) (mem : Flash) : List Request → Flash
  | [] => mem
  | r :: rs =>
    match d.exec mem r with
    | .ok (mem, _) => d.run mem rs
    | .error _ => d.run mem rs

/-! ### What a disk is -/

/-- An array of sectors. -/
abbrev Sectors := Nat → List Byte

def Sectors.read (disk : Sectors) (sector count : Nat) : List Byte :=
  (List.range count).flatMap fun k => disk (sector + k)

def Sectors.write (disk : Sectors) (sector count : Nat) (bytes : List Byte) : Sectors := fun s =>
  if sector ≤ s ∧ s < sector + count then (bytes.drop ((s - sector) * 512)).take 512 else disk s

namespace Disk

def offset (d : Disk) : Nat := d.partition.offset.toNat

def size (d : Disk) : Nat := d.partition.size.toNat

/-- The sectors of the request are in the partition. -/
def InRange (d : Disk) (r : Request) : Prop := (r.sector.toNat + r.count.toNat) * 512 ≤ d.size

instance (d : Disk) (r : Request) : Decidable (d.InRange r) := inferInstanceAs (Decidable (_ ≤ _))

/-- The array after some requests, of which those in range are done. -/
def latest (d : Disk) (disk : Sectors) : List Request → Sectors
  | [] => disk
  | r :: rs =>
    match r.data with
    | some bytes =>
      if d.InRange r then d.latest (disk.write r.sector.toNat r.count.toNat bytes) rs else d.latest disk rs
    | none => d.latest disk rs

/-- The sectors in the flash. -/
def view (d : Disk) (mem : Flash) : Sectors := fun s => readBytes mem (d.offset + s * 512) 512

/-- In a run of requests those in range are accepted and no others, a write changes its sectors only, and a
read gives what was written last. -/
structure Exact (d : Disk) (mem : Flash) (rs : List Request) : Prop where
  accepts : ∀ done r rest, rs = done ++ r :: rest → ((d.exec (d.run mem done) r).isOk ↔ d.InRange r)
  frame : ∀ done r rest mem' out, rs = done ++ r :: rest → d.exec (d.run mem done) r = .ok (mem', out) →
    ∀ a, ¬ (r.data.isSome ∧ d.offset + r.sector.toNat * 512 ≤ a ∧
      a < d.offset + (r.sector.toNat + r.count.toNat) * 512) → mem' a = d.run mem done a
  reads : ∀ done r rest mem' out, rs = done ++ r :: rest → d.exec (d.run mem done) r = .ok (mem', out) →
    r.data = none → out = (d.latest (d.view mem) done).read r.sector.toNat r.count.toNat

/-- The sectors are not in the partition, but the range that is left of them in 32 bits ends in it. -/
def Aliased (d : Disk) (r : Request) : Prop :=
  d.size < (r.sector.toNat + r.count.toNat) * 512 ∧
    (d.offset + r.sector.toNat * 512) % 2 ^ 32 + r.count.toNat * 512 % 2 ^ 32 ≤ d.offset + d.size

instance (d : Disk) (r : Request) : Decidable (d.Aliased r) := inferInstanceAs (Decidable (_ ∧ _))

section
variable {d : Disk} {r : Request} {mem : Flash}

theorem addr_toNat (d : Disk) (r : Request) :
    (d.partition.offset + r.sector * 512#32).toNat = (d.offset + r.sector.toNat * 512) % 2 ^ 32 := by
  simp only [offset, BitVec.toNat_add, BitVec.toNat_mul, BitVec.toNat_ofNat, Nat.reducePow, Nat.reduceMod]
  omega

theorem size_toNat (r : Request) : (r.count * 512#32).toNat = r.count.toNat * 512 % 2 ^ 32 := by
  simp only [BitVec.toNat_mul, BitVec.toNat_ofNat, Nat.reducePow, Nat.reduceMod]

/-- The check lets a request through when the sum in 32 bits is not behind the partition. -/
theorem checkPartition_eq (d : Disk) (r : Request) :
    checkPartition (some d.partition) r.sector r.count =
      if d.offset + d.size <
          ((d.offset + r.sector.toNat * 512) % 2 ^ 32 + r.count.toNat * 512 % 2 ^ 32) % 2 ^ 32 then none
      else some (d.partition.offset + r.sector * 512#32, r.count * 512#32) := by
  have hend : (d.partition.offset + d.partition.size).toNat = d.offset + d.size := by
    rw [BitVec.toNat_add]
    exact Nat.mod_eq_of_lt (Nat.lt_of_le_of_lt d.region d.chip_lt)
  have hgt : (d.partition.offset + r.sector * 512#32 + r.count * 512#32 > d.partition.offset + d.partition.size) ↔
      d.offset + d.size <
        ((d.offset + r.sector.toNat * 512) % 2 ^ 32 + r.count.toNat * 512 % 2 ^ 32) % 2 ^ 32 := by
    rw [gt_iff_lt, BitVec.lt_def, hend, BitVec.toNat_add, addr_toNat, size_toNat]
  rw [checkPartition]
  dsimp only [Option.bind_eq_bind, Option.bind_some]
  exact if_congr hgt rfl rfl

/-- The address and the size in 32 bits. -/
def range (d : Disk) (r : Request) : Nat × Nat :=
  ((d.offset + r.sector.toNat * 512) % 2 ^ 32, r.count.toNat * 512 % 2 ^ 32)

/-- What a request does when its range in 32 bits ends in the partition. -/
theorem exec_of_le (h : (d.range r).1 + (d.range r).2 ≤ d.offset + d.size) :
    d.exec mem r = .ok (match r.data with
      | none => (mem, readBytes mem (d.range r).1 (d.range r).2)
      | some bytes => (overwrite mem (d.range r).1 (bytes.take (d.range r).2), [])) := by
  have hregion : d.offset + d.size ≤ d.chip := d.region
  have hlt := d.chip_lt
  have hcheck := checkPartition_eq d r
  rw [range] at h ⊢
  dsimp only at h ⊢
  rw [if_neg (by omega)] at hcheck
  rw [exec]
  cases hdata : r.data with
  | none =>
    dsimp only
    rw [diskioFlashRead, if_neg nofun, hcheck]
    dsimp only
    rw [addr_toNat, size_toNat, drvFlashRead, if_pos (h.trans hregion)]
    rfl
  | some bytes =>
    have hlen : (bytes.take (r.count.toNat * 512 % 2 ^ 32)).length ≤ r.count.toNat * 512 % 2 ^ 32 :=
      List.length_take_le _ _
    dsimp only
    rw [diskioFlashWrite, if_neg nofun, hcheck]
    dsimp only
    rw [addr_toNat, size_toNat, drvFlashWriteWithErase, if_pos (by omega)]
    rfl

theorem exec_of_gt (h : d.offset + d.size < (d.range r).1 + (d.range r).2) : d.exec mem r = .error .error := by
  have hregion : d.offset + d.size ≤ d.chip := d.region
  have hlt := d.chip_lt
  have hcheck := checkPartition_eq d r
  rw [range] at h
  dsimp only at h
  -- a sum that wraps around passes the check, but not the driver
  by_cases hwrap : d.offset + d.size <
      ((d.offset + r.sector.toNat * 512) % 2 ^ 32 + r.count.toNat * 512 % 2 ^ 32) % 2 ^ 32
  · rw [if_pos hwrap] at hcheck
    rw [exec]
    cases r.data with
    | none =>
      dsimp only
      rw [diskioFlashRead, if_neg nofun, hcheck]
      rfl
    | some bytes =>
      dsimp only
      rw [diskioFlashWrite, if_neg nofun, hcheck]
      rfl
  · rw [if_neg hwrap] at hcheck
    rw [exec]
    cases hdata : r.data with
    | none =>
      dsimp only
      rw [diskioFlashRead, if_neg nofun, hcheck]
      dsimp only
      rw [addr_toNat, size_toNat, drvFlashRead, if_neg (by omega)]
      rfl
    | some bytes =>
      have hfull := r.full bytes hdata
      have hmod : r.count.toNat * 512 % 2 ^ 32 ≤ r.count.toNat * 512 := Nat.mod_le _ _
      dsimp only
      rw [diskioFlashWrite, if_neg nofun, hcheck]
      dsimp only
      rw [addr_toNat, size_toNat, drvFlashWriteWithErase, List.length_take, hfull, Nat.min_eq_left hmod,
        if_neg (by omega)]
      rfl

theorem exec_isOk_iff : (d.exec mem r).isOk ↔ (d.range r).1 + (d.range r).2 ≤ d.offset + d.size := by
  by_cases h : (d.range r).1 + (d.range r).2 ≤ d.offset + d.size
  · rw [exec_of_le h]
    exact iff_of_true rfl h
  · rw [exec_of_gt (Nat.not_le.mp h)]
    exact iff_of_false Bool.false_ne_true h

/-- Sectors in the partition are where they are in all bits. -/
theorem range_of_inRange (h : d.InRange r) :
    d.range r = (d.offset + r.sector.toNat * 512, r.count.toNat * 512) := by
  have hregion : d.offset + d.size ≤ d.chip := d.region
  have hlt := d.chip_lt
  rw [InRange] at h
  rw [range, Nat.mod_eq_of_lt (by omega), Nat.mod_eq_of_lt (by omega)]

theorem accepted_iff : (d.exec mem r).isOk ↔ d.InRange r ∨ d.Aliased r := by
  rw [exec_isOk_iff]
  constructor
  · intro h
    by_cases hin : d.InRange r
    · exact Or.inl hin
    · exact Or.inr ⟨Nat.not_le.mp hin, h⟩
  · rintro (hin | ⟨-, h⟩)
    · rw [range_of_inRange hin]
      rw [InRange] at hin
      dsimp only
      omega
    · exact h

/-- A request in range, on the sectors it names. -/
theorem exec_of_inRange (h : d.InRange r) :
    d.exec mem r = .ok (match r.data with
      | none => (mem, readBytes mem (d.offset + r.sector.toNat * 512) (r.count.toNat * 512))
      | some bytes => (overwrite mem (d.offset + r.sector.toNat * 512) bytes, [])) := by
  have hle := exec_isOk_iff.mp (accepted_iff.mpr (Or.inl h) : (d.exec mem r).isOk)
  rw [exec_of_le hle, range_of_inRange h]
  cases hdata : r.data with
  | none => rfl
  | some bytes =>
    dsimp only
    rw [List.take_of_length_le (Nat.le_of_eq (r.full bytes hdata))]

/-! ### The array in the flash -/

theorem readBytes_sectors (mem : Flash) (base n : Nat) :
    readBytes mem base (n * 512) = (List.range n).flatMap fun k => readBytes mem (base + k * 512) 512 := by
  induction n with
  | zero => rfl
  | succ n ih =>
    rw [Nat.add_mul, Nat.one_mul, readBytes_add, ih, List.range_succ, List.flatMap_append]
    simp only [List.flatMap_cons, List.flatMap_nil, List.append_nil]

theorem view_read (d : Disk) (mem : Flash) (sector count : Nat) :
    readBytes mem (d.offset + sector * 512) (count * 512) = (d.view mem).read sector count := by
  rw [readBytes_sectors, Sectors.read]
  simp only [view, Nat.add_mul, Nat.add_assoc]

theorem overwrite_out {a addr : Nat} {bytes : List Byte} (h : ¬ (addr ≤ a ∧ a < addr + bytes.length)) :
    overwrite mem addr bytes a = mem a := if_neg h

theorem readBytes_overwrite {addr pos n : Nat} {bytes : List Byte} (h : pos + n ≤ bytes.length) :
    readBytes (overwrite mem addr bytes) (addr + pos) n = (bytes.drop pos).take n := by
  apply List.ext_getElem
  · rw [readBytes_length, List.length_take, List.length_drop]
    omega
  · intro k hk hk'
    rw [readBytes_length] at hk
    simp only [readBytes, List.getElem_map, List.getElem_range, List.getElem_take, List.getElem_drop]
    rw [overwrite, if_pos (by omega), show addr + pos + k - addr = pos + k by omega]
    exact List.getD_eq_getElem _ _ (by omega)

theorem view_write {sector count : Nat} {bytes : List Byte} (hlen : bytes.length = count * 512) :
    d.view (overwrite mem (d.offset + sector * 512) bytes) = (d.view mem).write sector count bytes := by
  funext s
  rw [Sectors.write, view]
  split
  next h =>
    have hpos : d.offset + s * 512 = d.offset + sector * 512 + (s - sector) * 512 := by omega
    rw [hpos, readBytes_overwrite (by omega)]
  next h =>
    have hagree : AgreeOn (overwrite mem (d.offset + sector * 512) bytes) mem (d.offset + s * 512)
        (d.offset + s * 512 + 512) := fun a hlo hhi => overwrite_out (by omega)
    exact hagree.readBytes (Nat.le_refl _) (Nat.le_refl _)

/-- The flash after some requests holds the array after them, when they are accepted where they should be. -/
theorem view_run (rs : List Request) (mem : Flash) (h : ∀ r ∈ rs, ¬ d.Aliased r) :
    d.view (d.run mem rs) = d.latest (d.view mem) rs := by
  induction rs generalizing mem with
  | nil => rfl
  | cons r rs ih =>
    have hrest : ∀ r ∈ rs, ¬ d.Aliased r := fun r hr => h r (List.mem_cons_of_mem _ hr)
    rw [run, latest]
    by_cases hin : d.InRange r
    · rw [exec_of_inRange hin]
      cases hdata : r.data with
      | none => exact ih mem hrest
      | some bytes =>
        dsimp only
        rw [if_pos hin, ← view_write (r.full bytes hdata)]
        exact ih _ hrest
    · have hno : ¬ (d.exec mem r).isOk := by
        rw [accepted_iff, not_or]
        exact ⟨hin, h r List.mem_cons_self⟩
      cases hexec : d.exec mem r with
      | ok out => exact absurd (by rw [hexec]; rfl) hno
      | error e =>
        cases r.data with
        | none => exact ih mem hrest
        | some bytes =>
          dsimp only
          rw [if_neg hin]
          exact ih mem hrest

end

/-- 64 sectors, a megabyte into the flash. -/
def test : Disk := ⟨0x200000, ⟨0x100000#32, 0x8000#32⟩, by decide, by decide⟩

end Disk

end WmIot.Fatfs
