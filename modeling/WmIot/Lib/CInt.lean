import Mathlib

/-!
# Arithmetic of a 32-bit `int`

The value of an expression, as long as nothing overflows and nothing is divided by zero; the bit vectors then compute
the same value.
-/

namespace WmIot.CInt
set_option autoImplicit false

/-- The value of an `int` expression, if it does not overflow. -/
def int (v : Int) : Option Int := if -2147483648 ≤ v ∧ v ≤ 2147483647 then some v else none

/-- The quotient of two `int`s, if there is one. -/
def divide (a b : Int) : Option Int := if b = 0 then none else int (a.tdiv b)

section
variable {v w a b : Int} {x y : BitVec 32}

theorem int_eq_some : int v = some w ↔ w = v ∧ -2147483648 ≤ v ∧ v ≤ 2147483647 := by
  unfold int
  split
  next h => exact ⟨fun hv => ⟨(Option.some.inj hv).symm, h⟩, fun hv => congrArg some hv.1.symm⟩
  next h => exact ⟨nofun, fun hv => absurd hv.2 h⟩

theorem int_of_range (hlo : -2147483648 ≤ v) (hhi : v ≤ 2147483647) : int v = some v :=
  int_eq_some.mpr ⟨rfl, hlo, hhi⟩

theorem divide_eq_some : divide a b = some w ↔ b ≠ 0 ∧ int (a.tdiv b) = some w := by
  unfold divide
  split
  next h => exact ⟨nofun, fun hw => absurd h hw.1⟩
  next h => exact ⟨fun hw => ⟨h, hw⟩, fun hw => hw.2⟩

theorem bmod_of_int (h : int v = some w) : v.bmod (2 ^ 32) = w := by
  obtain ⟨rfl, hlo, hhi⟩ := int_eq_some.mp h
  exact Int.bmod_eq_of_le (by omega) (by omega)

theorem toInt_add (h : int (x.toInt + y.toInt) = some w) : (x + y).toInt = w := by
  rw [BitVec.toInt_add]
  exact bmod_of_int h

theorem toInt_sub (h : int (x.toInt - y.toInt) = some w) : (x - y).toInt = w := by
  rw [BitVec.toInt_sub]
  exact bmod_of_int h

theorem toInt_mul (h : int (x.toInt * y.toInt) = some w) : (x * y).toInt = w := by
  rw [BitVec.toInt_mul]
  exact bmod_of_int h

theorem toInt_sdiv (h : divide x.toInt y.toInt = some w) : (x.sdiv y).toInt = w := by
  rw [BitVec.toInt_sdiv]
  exact bmod_of_int (divide_eq_some.mp h).2

end

end WmIot.CInt
