import Mathlib

/-!
# Montgomery multiplication

With a constant `c` for which `c * m` is one less than a multiple of the word base `b`, a number is
divided by `b` modulo `m` without a division: some multiple of `m` makes its last word zero. Done `k`
times to the product of two numbers of `k` words, this gives their Montgomery product.
-/

namespace WmIot.Montgomery
set_option autoImplicit false

/-- Adds the multiple of `m` that makes the last word zero, and takes that word off. -/
def reduceWord (b c m t : Nat) : Nat := (t + t % b * c % b * m) / b

def reduce (b c m : Nat) : Nat → Nat → Nat
  | 0, t => t
  | k + 1, t => reduce b c m k (reduceWord b c m t)

/-- The Montgomery product. -/
def mul (b c m k x y : Nat) : Nat :=
  let t := reduce b c m k (x * y)
  if t < m then t else t - m

section
variable {b c m : Nat}

theorem reduceWord_mul (hb : 0 < b) (hc : c * m % b = b - 1) (t : Nat) :
    reduceWord b c m t * b = t + t % b * c % b * m := by
  have hpred : c * m ≡ b - 1 [MOD b] := by
    rw [Nat.ModEq, hc, Nat.mod_eq_of_lt (by omega)]
  have hword : t % b * c % b * m ≡ t * (b - 1) [MOD b] := by
    calc
      t % b * c % b * m ≡ t % b * c * m [MOD b] := (Nat.mod_modEq _ b).mul_right m
      _ ≡ t * (c * m) [MOD b] := by
        rw [Nat.mul_assoc]
        exact (Nat.mod_modEq t b).mul_right _
      _ ≡ t * (b - 1) [MOD b] := hpred.mul_left t
  have hzero : t + t % b * c % b * m ≡ 0 [MOD b] := by
    have hsum : t + t * (b - 1) = b * t := by
      rw [Nat.mul_sub_one, Nat.add_sub_cancel' (Nat.le_mul_of_pos_right t hb), Nat.mul_comm]
    exact (hword.add_left t).trans (by rw [hsum]; exact (Nat.modEq_zero_iff_dvd.mpr (Nat.dvd_mul_right b t)))
  exact Nat.div_mul_cancel (Nat.modEq_zero_iff_dvd.mp hzero)

theorem reduce_mul (hb : 0 < b) (hc : c * m % b = b - 1) (k t : Nat) :
    ∃ q < b ^ k, reduce b c m k t * b ^ k = t + q * m := by
  induction k generalizing t with
  | zero => exact ⟨0, Nat.one_pos, by simp [reduce]⟩
  | succ k ih =>
    obtain ⟨q, hq, hrest⟩ := ih (reduceWord b c m t)
    have hword := reduceWord_mul hb hc t
    have hlt : t % b * c % b < b := Nat.mod_lt _ hb
    refine ⟨t % b * c % b + q * b, ?_, ?_⟩
    · calc
        t % b * c % b + q * b < (q + 1) * b := by rw [Nat.succ_mul]; omega
        _ ≤ b ^ k * b := Nat.mul_le_mul_right b hq
    · calc
        reduce b c m (k + 1) t * b ^ (k + 1) = reduce b c m k (reduceWord b c m t) * b ^ k * b := by
          rw [reduce, pow_succ, Nat.mul_assoc]
        _ = reduceWord b c m t * b + q * m * b := by rw [hrest, Nat.add_mul]
        _ = t + (t % b * c % b + q * b) * m := by rw [hword]; ring

/-- The Montgomery product of `x` and `y` is `x * y / b ^ k` modulo `m`. -/
theorem mul_spec (hb : 0 < b) (hc : c * m % b = b - 1) {k x y : Nat} (hx : x < m) (hy : y < b ^ k) :
    mul b c m k x y < m ∧ mul b c m k x y * b ^ k ≡ x * y [MOD m] := by
  obtain ⟨q, hq, hred⟩ := reduce_mul hb hc k (x * y)
  have hpos : 0 < b ^ k := Nat.pow_pos hb
  have hlt : reduce b c m k (x * y) < 2 * m := by
    have hprod : x * y < m * b ^ k := Nat.mul_lt_mul'' hx hy
    have hmult : q * m ≤ b ^ k * m := Nat.mul_le_mul_right m hq.le
    refine Nat.lt_of_mul_lt_mul_right (a := b ^ k) ?_
    calc
      reduce b c m k (x * y) * b ^ k = x * y + q * m := hred
      _ < m * b ^ k + b ^ k * m := Nat.add_lt_add_of_lt_of_le hprod hmult
      _ = 2 * m * b ^ k := by ring
  have hmod : reduce b c m k (x * y) * b ^ k ≡ x * y [MOD m] := by
    rw [hred]
    exact Nat.add_mul_modulus_modEq_iff.mpr rfl
  unfold mul
  dsimp only
  split
  · exact ⟨‹_›, hmod⟩
  · refine ⟨by omega, Nat.ModEq.trans ?_ hmod⟩
    have hsub : reduce b c m k (x * y) = reduce b c m k (x * y) - m + m := by omega
    conv_rhs => rw [hsub, Nat.add_mul]
    exact (Nat.add_modulus_mul_modEq_iff.mpr rfl).symm

end

/-! ## Montgomery form -/

/-- `x` stands for `v` modulo `m`, multiplied by `r`. -/
structure Rep (m r x v : Nat) : Prop where
  lt : x < m
  modEq : x ≡ v * r [MOD m]

theorem rep_one {m r : Nat} (hm : 0 < m) : Rep m r (r % m) 1 :=
  ⟨Nat.mod_lt r hm, by rw [Nat.one_mul]; exact Nat.mod_modEq r m⟩

section
variable {m r x y p v w : Nat}

theorem Rep.mul (hx : Rep m r x v) (hy : Rep m r y w) (hcop : Nat.Coprime m r) (hp : p < m)
    (hmul : p * r ≡ x * y [MOD m]) : Rep m r p (v * w) := by
  refine ⟨hp, Nat.ModEq.cancel_right_of_coprime hcop ?_⟩
  calc
    p * r ≡ x * y [MOD m] := hmul
    _ ≡ v * r * (w * r) [MOD m] := hx.modEq.mul hy.modEq
    _ = v * w * r * r := by ring

/-- A product with one leaves the form. -/
theorem Rep.out (hx : Rep m r x v) (hcop : Nat.Coprime m r) (hp : p < m) (hmul : p * r ≡ x * 1 [MOD m]) :
    p = v % m := by
  have hv : p ≡ v [MOD m] := by
    refine Nat.ModEq.cancel_right_of_coprime hcop (hmul.trans ?_)
    rw [Nat.mul_one]
    exact hx.modEq
  rw [← hv, Nat.mod_eq_of_lt hp]

end

/-! ## The constant -/

/-- An inverse modulo a power of two is one modulo the next power, or becomes one with the next bit. -/
theorem lift_inverse {a y j : Nat} (ha : a % 2 = 1) (h : a * y % 2 ^ j = 1) :
    a * (if (a * y).testBit j then y + 2 ^ j else y) % 2 ^ (j + 1) = 1 := by
  have hnext : a * y % 2 ^ (j + 1) = 1 + 2 ^ j * (a * y / 2 ^ j % 2) := by rw [Nat.mod_pow_succ, h]
  have hone : 1 % 2 ^ (j + 1) = 1 := Nat.mod_eq_of_lt (Nat.one_lt_two_pow (Nat.succ_ne_zero j))
  rw [Nat.testBit_eq_decide_div_mod_eq]
  by_cases hbit : a * y / 2 ^ j % 2 = 1
  case neg =>
    have hzero : a * y / 2 ^ j % 2 = 0 := by omega
    rw [hzero, Nat.mul_zero] at hnext
    simpa [hzero] using hnext
  rw [hbit, Nat.mul_one] at hnext
  simp only [hbit, decide_true, if_true]
  have hodd : a * 2 ^ j = 2 ^ j + 2 ^ (j + 1) * (a / 2) := by
    have hdiv : a = 2 * (a / 2) + 1 := by omega
    calc
      a * 2 ^ j = (2 * (a / 2) + 1) * 2 ^ j := by rw [← hdiv]
      _ = 2 ^ j + 2 ^ (j + 1) * (a / 2) := by ring
  -- The bit of the product and that of the odd factor cancel.
  calc
    a * (y + 2 ^ j) % 2 ^ (j + 1) = (a * y % 2 ^ (j + 1) + a * 2 ^ j) % 2 ^ (j + 1) := by
      rw [Nat.mul_add, Nat.mod_add_mod]
    _ = (1 + 2 ^ (j + 1) * (1 + a / 2)) % 2 ^ (j + 1) := by
      rw [hnext, hodd]
      congr 1
      ring
    _ = 1 := by rw [Nat.add_mul_mod_self_left, hone]

end WmIot.Montgomery
