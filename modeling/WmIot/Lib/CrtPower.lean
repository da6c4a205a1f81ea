import Mathlib

/-!
# Powers modulo a product of two primes

Exponents count modulo the prime less one, an exponent that is one there gives the number back, and a
number is put together from its remainders modulo the two primes.
-/

namespace WmIot.CrtPower
set_option autoImplicit false

section
variable {p q : Nat}

/-- Positive exponents that agree modulo `p - 1` give the same powers modulo `p`. -/
theorem pow_modEq (hp : p.Prime) {a b : Nat} (ha : 0 < a) (hb : 0 < b) (h : a ≡ b [MOD p - 1]) (x : Int) :
    x ^ a ≡ x ^ b [ZMOD p] := by
  wlog hle : a ≤ b generalizing a b
  · exact (this hb ha h.symm (Nat.le_of_not_le hle)).symm
  by_cases hdvd : (p : Int) ∣ x
  · have hzero : ∀ {k : Nat}, 0 < k → x ^ k ≡ 0 [ZMOD p] := fun hk =>
      Int.modEq_zero_iff_dvd.mpr (dvd_pow hdvd hk.ne')
    exact (hzero ha).trans (hzero hb).symm
  · have hcop : IsCoprime x (p : Int) :=
      ((Nat.prime_iff_prime_int.mp hp).irreducible.coprime_iff_not_dvd.mpr hdvd).symm
    have hone : x ^ (p - 1) ≡ 1 [ZMOD p] := Int.ModEq.pow_card_sub_one_eq_one hp hcop
    obtain ⟨k, hk⟩ := (Nat.modEq_iff_dvd' hle).mp h
    have hb : b = a + (p - 1) * k := by omega
    calc
      x ^ a = x ^ a * 1 ^ k := by rw [one_pow, mul_one]
      _ ≡ x ^ a * (x ^ (p - 1)) ^ k [ZMOD p] := (hone.symm.pow k).mul_left _
      _ = x ^ b := by rw [hb, pow_add, pow_mul]

/-- Two distinct primes. -/
structure Pair (p q : Nat) : Prop where
  left : p.Prime
  right : q.Prime
  ne : p ≠ q

theorem Pair.modEq_iff (h : Pair p q) {a b : Int} :
    a ≡ b [ZMOD p * q] ↔ a ≡ b [ZMOD p] ∧ a ≡ b [ZMOD q] :=
  (Int.modEq_and_modEq_iff_modEq_mul (by simpa using (Nat.coprime_primes h.left h.right).mpr h.ne)).symm

theorem Pair.pow_modEq (h : Pair p q) {a b : Nat} (ha : 0 < a) (hb : 0 < b) (hp : a ≡ b [MOD p - 1])
    (hq : a ≡ b [MOD q - 1]) (x : Int) : x ^ a ≡ x ^ b [ZMOD p * q] :=
  h.modEq_iff.mpr ⟨CrtPower.pow_modEq h.left ha hb hp x, CrtPower.pow_modEq h.right ha hb hq x⟩

/-- An exponent that is one modulo `p - 1` and `q - 1` changes nothing. -/
theorem Pair.pow_cancel (h : Pair p q) {k : Nat} (hk : 0 < k) (hp : k ≡ 1 [MOD p - 1]) (hq : k ≡ 1 [MOD q - 1])
    (x : Int) : x ^ k ≡ x [ZMOD p * q] := by
  have hpow := h.pow_modEq hk Nat.one_pos hp hq x
  rwa [pow_one] at hpow

/-- The number put together from the remainders `u` and `v`, where `w` is the inverse of `q` modulo `p`. -/
theorem combine {w : Int} (hw : w * q ≡ 1 [ZMOD p]) (u v : Int) :
    v + (u - v) * w % p * q ≡ u [ZMOD p] ∧ v + (u - v) * w % p * q ≡ v [ZMOD q] := by
  constructor
  · calc
      v + (u - v) * w % p * q ≡ v + (u - v) * w * q [ZMOD p] :=
        ((Int.mod_modEq _ _).mul_right _).add_left v
      _ = v + (u - v) * (w * q) := by ring
      _ ≡ v + (u - v) * 1 [ZMOD p] := (hw.mul_left _).add_left v
      _ = u := by ring
  · calc
      v + (u - v) * w % p * q ≡ v + (u - v) * w % p * 0 [ZMOD q] :=
        ((Int.modEq_zero_iff_dvd.mpr dvd_rfl).mul_left _).add_left v
      _ = v := by ring

end

end WmIot.CrtPower
