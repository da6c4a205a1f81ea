import WmIot.Flash.ReadWrite

/-!
# The bounds of the internal flash

Each operation of the driver compares its range with the chip and with the factory parameters once more. The
sums and the products are those of 32-bit arithmetic.
-/

namespace WmIot.Flash
open NorFlash
set_option autoImplicit false

/-- `wm_drv_internal_flash_erase_sector` -/
def internalFlashEraseSector (size sectorIdx sectorCount : Nat) : Err × List Op :=
  if sectorCount = 0 then (.invalidParam, [])
  else if size < (sectorIdx + sectorCount) % 2 ^ 32 * sectorSize % 2 ^ 32 then (.invalidParam, [])
  else if sectorIdx * sectorSize % 2 ^ 32 < ftRegion then (.invalidParam, [])
  else (.success, eraseSectors (sectorIdx * sectorSize % 2 ^ 32) sectorCount)

inductive Request where
  | write (offset : Nat) (src : List Byte)
  | writeWithErase (offset : Nat) (src : List Byte)
  | read (offset len : Nat)
  | eraseRegion (offset len : Nat)
  | eraseSector (sectorIdx sectorCount : Nat)

namespace Request

/-- What an operation returns, and the commands that change the chip; `tmp` is the buffer, if it can be
allocated. -/
def perform (size : Nat) (tmp : Option (List Byte)) (f : Flash) : Request → Err × List Op
  | .write offset src => internalFlashWrite size tmp f offset src
  | .writeWithErase offset src => internalFlashWriteWithErase size tmp f offset src
  | .read offset len => ((internalFlashRead size tmp.isSome f offset len).1, [])
  | .eraseRegion offset len => Flash.eraseRegion size tmp.isSome f offset len
  | .eraseSector sectorIdx sectorCount => internalFlashEraseSector size sectorIdx sectorCount

/-- The range of a request, as a start and a length that are not bounded. -/
def range : Request → Nat × Nat
  | .write offset src => (offset, src.length)
  | .writeWithErase offset src => (offset, src.length)
  | .read offset len => (offset, len)
  | .eraseRegion offset len => (offset, len)
  | .eraseSector sectorIdx sectorCount => (sectorIdx * sectorSize, sectorCount * sectorSize)

/-- The arguments are 32-bit values. -/
def Fits : Request → Prop
  | .write offset src => offset < 2 ^ 32 ∧ src.length < 2 ^ 32
  | .writeWithErase offset src => offset < 2 ^ 32 ∧ src.length < 2 ^ 32
  | .read offset len => offset < 2 ^ 32 ∧ len < 2 ^ 32
  | .eraseRegion offset len => offset < 2 ^ 32 ∧ len < 2 ^ 32
  | .eraseSector sectorIdx sectorCount => sectorIdx < 2 ^ 32 ∧ sectorCount < 2 ^ 32

def Modifies : Request → Prop
  | .read _ _ => False
  | _ => True

def Covers (r : Request) (a : Nat) : Prop := r.range.1 ≤ a ∧ a < r.range.1 + r.range.2

/-- The range is not empty, lies in the chip and, if the operation changes it, off the factory parameters. -/
structure Allowed (size : Nat) (r : Request) : Prop where
  covers : ∃ a, r.Covers a
  inside : ∀ a, r.Covers a → a < size
  keeps : r.Modifies → ∀ a, r.Covers a → ftRegion ≤ a

/-- The comparisons of a write or of an erase of a region go wrong: the range starts right behind the factory
parameters, or its end wraps round to an address of the chip. -/
def RangeSlips (size offset len : Nat) : Prop :=
  offset = ftRegion ∧ len ≠ 0 ∧ offset + len ≤ size ∨
    ftRegion < offset ∧ 2 ^ 32 ≤ offset + len ∧ (offset + len) % 2 ^ 32 ≤ size

def Slips (size : Nat) : Request → Prop
  | .write offset src => RangeSlips size offset src.length
  | .writeWithErase offset src => RangeSlips size offset src.length
  | .read offset len => 2 ^ 32 ≤ offset + len ∧ (offset + len) % 2 ^ 32 ≤ size
  | .eraseRegion offset len => RangeSlips size offset len
  | .eraseSector sectorIdx sectorCount =>
    sectorCount ≠ 0 ∧ 2 ^ 32 ≤ (sectorIdx + sectorCount) * sectorSize ∧
      (sectorIdx + sectorCount) * sectorSize % 2 ^ 32 ≤ size ∧ ftRegion ≤ sectorIdx * sectorSize % 2 ^ 32

/-! ## What is allowed, in terms of the ends of the range -/

theorem allowed_iff {size : Nat} {r : Request} :
    r.Allowed size ↔
      r.range.2 ≠ 0 ∧ r.range.1 + r.range.2 ≤ size ∧ (r.Modifies → ftRegion ≤ r.range.1) := by
  constructor
  · intro ⟨⟨a, hlo, hhi⟩, hinside, hkeeps⟩
    refine ⟨by omega, ?_, fun hmod => hkeeps hmod _ ⟨Nat.le_refl _, by omega⟩⟩
    have hlast := hinside (r.range.1 + r.range.2 - 1) ⟨by omega, by omega⟩
    omega
  · intro ⟨hlen, hsize, hft⟩
    exact ⟨⟨r.range.1, Nat.le_refl _, by omega⟩, fun a ha => by have := ha.2; omega,
      fun hmod a ha => Nat.le_trans (hft hmod) ha.1⟩

/-- A write or an erase of a region is refused by its three comparisons. -/
def RangeRefused (size offset len : Nat) : Prop :=
  len = 0 ∨ size < (offset + len) % 2 ^ 32 ∨ offset ≤ ftRegion

section
variable {size offset len : Nat} {f : Flash} {src : List Byte} {tmp : Option (List Byte)}

/-- Three checks in a row refuse a call exactly if one of them does. -/
theorem checks_refuse_iff {p q r : Prop} [Decidable p] [Decidable q] [Decidable r] {x : Err × List Op}
    (hx : x ≠ (.invalidParam, [])) :
    (if p then (.invalidParam, []) else if q then (.invalidParam, []) else if r then (.invalidParam, []) else x) =
      (Err.invalidParam, ([] : List Op)) ↔ p ∨ q ∨ r := by
  by_cases hp : p
  · rw [if_pos hp]
    exact ⟨fun _ => .inl hp, fun _ => rfl⟩
  · rw [if_neg hp, or_iff_right hp]
    by_cases hq : q
    · rw [if_pos hq]
      exact ⟨fun _ => .inl hq, fun _ => rfl⟩
    · rw [if_neg hq, or_iff_right hq]
      by_cases hr : r
      · rw [if_pos hr]
        exact ⟨fun _ => hr, fun _ => rfl⟩
      · rw [if_neg hr]
        exact ⟨fun h => absurd h hx, fun h => absurd h hr⟩

theorem write_refused_iff :
    internalFlashWrite size tmp f offset src = (.invalidParam, []) ↔ RangeRefused size offset src.length := by
  apply checks_refuse_iff
  cases tmp <;> exact fun h => Err.noConfusion (Prod.mk.inj h).1

theorem writeWithErase_refused_iff :
    internalFlashWriteWithErase size tmp f offset src = (.invalidParam, []) ↔
      RangeRefused size offset src.length := by
  apply checks_refuse_iff
  cases tmp <;> exact fun h => Err.noConfusion (Prod.mk.inj h).1

theorem eraseRegion_refused_iff {mem : Bool} :
    Flash.eraseRegion size mem f offset len = (.invalidParam, []) ↔ RangeRefused size offset len := by
  apply checks_refuse_iff
  cases mem <;> exact fun h => Err.noConfusion (Prod.mk.inj h).1

theorem read_refused_iff {mem : Bool} :
    (internalFlashRead size mem f offset len).1 = .invalidParam ↔ len = 0 ∨ size < (offset + len) % 2 ^ 32 := by
  unfold internalFlashRead
  by_cases hlen : len = 0
  · rw [if_pos hlen]
    exact ⟨fun _ => .inl hlen, fun _ => rfl⟩
  · rw [if_neg hlen, or_iff_right hlen]
    by_cases hsize : size < (offset + len) % 2 ^ 32
    · rw [if_pos hsize]
      exact ⟨fun _ => hsize, fun _ => rfl⟩
    · rw [if_neg hsize]
      refine ⟨fun h => ?_, fun h => absurd h hsize⟩
      cases mem <;> cases h

theorem eraseSector_refused_iff {idx count : Nat} :
    internalFlashEraseSector size idx count = (.invalidParam, []) ↔
      count = 0 ∨ size < (idx + count) % 2 ^ 32 * sectorSize % 2 ^ 32 ∨ idx * sectorSize % 2 ^ 32 < ftRegion := by
  unfold internalFlashEraseSector
  split
  next h => simp only [h, true_or]
  next h =>
    split
    next h₁ => simp only [h₁, true_or, or_true]
    next h₁ =>
      split
      next h₂ => simp only [h₂, or_true]
      next h₂ => simp only [Prod.mk.injEq, reduceCtorEq, false_and, h, h₁, h₂, or_self]

/-- The three comparisons agree with the range, except where they slip. -/
theorem rangeRefused_iff (hsize : size < 2 ^ 32) (hoffset : offset < 2 ^ 32) (hlen : len < 2 ^ 32) :
    (RangeRefused size offset len ↔ ¬ (len ≠ 0 ∧ offset + len ≤ size ∧ ftRegion ≤ offset)) ↔
      ¬ RangeSlips size offset len := by
  unfold RangeRefused RangeSlips
  by_cases hwrap : offset + len < 2 ^ 32
  · rw [Nat.mod_eq_of_lt hwrap]
    omega
  · have hmod : (offset + len) % 2 ^ 32 = offset + len - 2 ^ 32 := by omega
    rw [hmod]
    omega

end

/-- A request is refused exactly if its range is not allowed, unless its comparisons slip. -/
theorem refused_iff {size : Nat} (hsize : size < 2 ^ 32) {r : Request} (hr : r.Fits) (tmp : Option (List Byte))
    (f : Flash) :
    (r.perform size tmp f = (.invalidParam, []) ↔ ¬ r.Allowed size) ↔ ¬ r.Slips size := by
  rw [allowed_iff]
  cases r with
  | write offset src =>
    rw [perform, write_refused_iff]
    simp only [range, Modifies, true_implies]
    exact rangeRefused_iff hsize hr.1 hr.2
  | writeWithErase offset src =>
    rw [perform, writeWithErase_refused_iff]
    simp only [range, Modifies, true_implies]
    exact rangeRefused_iff hsize hr.1 hr.2
  | eraseRegion offset len =>
    rw [perform, eraseRegion_refused_iff]
    simp only [range, Modifies, true_implies]
    exact rangeRefused_iff hsize hr.1 hr.2
  | read offset len =>
    obtain ⟨hoffset, hlen⟩ := hr
    simp only [perform, Prod.mk.injEq, and_true, read_refused_iff, range, Modifies, false_implies, Slips]
    by_cases hwrap : offset + len < 2 ^ 32
    · rw [Nat.mod_eq_of_lt hwrap]
      omega
    · have hmod : (offset + len) % 2 ^ 32 = offset + len - 2 ^ 32 := by omega
      rw [hmod]
      omega
  | eraseSector idx count =>
    obtain ⟨hidx, hcount⟩ := hr
    have hsum : (idx + count) % 2 ^ 32 * sectorSize % 2 ^ 32 = (idx + count) * sectorSize % 2 ^ 32 :=
      Nat.mod_mul_mod _ _ _
    have hadd : (idx + count) * sectorSize = idx * sectorSize + count * sectorSize := Nat.add_mul _ _ _
    have hzero : count * sectorSize = 0 ↔ count = 0 := by
      rw [sectorSize_eq]
      omega
    rw [perform, eraseSector_refused_iff, hsum]
    simp only [range, Modifies, true_implies, Slips, hadd, ne_eq, hzero]
    generalize idx * sectorSize = lo
    generalize count * sectorSize = num
    by_cases hwrap : lo + num < 2 ^ 32
    · rw [Nat.mod_eq_of_lt hwrap, Nat.mod_eq_of_lt (Nat.lt_of_le_of_lt (Nat.le_add_right lo num) hwrap)]
      omega
    · omega

theorem refused_iff_lastSector :
    ((Request.eraseSector 511 1).perform (2 ^ 21) none (fun _ => 0) = (.invalidParam, []) ↔
      ¬ (Request.eraseSector 511 1).Allowed (2 ^ 21)) ↔ ¬ (Request.eraseSector 511 1).Slips (2 ^ 21) :=
  refused_iff (by decide) (show (Request.eraseSector 511 1).Fits from ⟨by decide, by decide⟩) none _

/-- A write right behind the factory parameters is refused, although an erase of that sector is not. -/
theorem refused_behind_ftRegion :
    (Request.eraseRegion 0x2000 0x1000).Allowed (2 ^ 21) ∧
    (Request.eraseRegion 0x2000 0x1000).perform (2 ^ 21) (some []) (fun _ => 0) = (.invalidParam, []) ∧
    (Request.eraseSector 2 1).perform (2 ^ 21) (some []) (fun _ => 0) ≠ (.invalidParam, []) := by
  refine ⟨⟨⟨0x2000, by decide, by decide⟩, fun a ha => ?_, fun _ a ha => ha.1⟩, rfl, ?_⟩
  · have := ha.2
    simp only [range] at this
    omega
  · rw [perform, ne_eq, eraseSector_refused_iff]
    decide

end Request

end WmIot.Flash
