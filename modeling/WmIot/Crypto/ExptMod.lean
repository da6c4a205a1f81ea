import WmIot.Lib.Montgomery

/-!
# Modular exponentiation on the RSA engine

The engine multiplies the contents of its buffers the Montgomery way and puts the result into X or D in
turn, so the accumulator of the square-and-multiply loop moves between the two. The engine itself is a
parameter. Numbers of the bignum library are integers.
-/

namespace WmIot.Rsa
set_option autoImplicit false

/-- The error codes of the bignum library and of its users. -/
inductive MpiError where
  | badInputData
  | negativeValue
  | divisionByZero
  | notAcceptable
  | bufferTooSmall
deriving DecidableEq, Repr

/-- `mbedtls_mpi_bitlen` -/
def bitlen (a : Int) : Nat := a.natAbs.size

/-- `mbedtls_mpi_mod_mpi` -/
def modMpi (a n : Int) : Except MpiError Int :=
  if n < 0 then .error .negativeValue
  else if n = 0 then .error .divisionByZero
  else .ok (a % n)

/-! ## The engine -/

/-- `wm_rsa_reg_t`: the buffers as numbers, and the parameters of a multiplication. -/
structure Regs where
  xbuf : Nat
  ybuf : Nat
  mbuf : Nat
  dbuf : Nat
  mc : Nat
  n : Nat

/-- The first `n` words of a buffer. -/
def low (n v : Nat) : Nat := v % 2 ^ (32 * n)

/-- A buffer after `memcpy` of `n` words. -/
def setLow (n old v : Nat) : Nat := old / 2 ^ (32 * n) * 2 ^ (32 * n) + low n v

/-- `wm_ll_rsa_modmul_mode_t`: the factors. The result of `DD` and `DB` goes to X, the others' to D. -/
inductive ModmulMode where
  | DD
  | AB
  | DB
  | AA
deriving DecidableEq, Repr

section Engine
-- What the engine computes from the number of words, `mc`, the modulus and the factors.
variable (monMul : Nat → Nat → Nat → Nat → Nat → Nat)

/-- A multiplication from `wm_ll_rsa_set_modmul_start` to its completion. -/
def modmul (mode : ModmulMode) (r : Regs) : Regs :=
  let mul x y := monMul r.n r.mc (low r.n r.mbuf) (low r.n x) (low r.n y)
  match mode with
  | .DD => { r with xbuf := setLow r.n r.xbuf (mul r.dbuf r.dbuf) }
  | .AB => { r with dbuf := setLow r.n r.dbuf (mul r.xbuf r.ybuf) }
  | .DB => { r with xbuf := setLow r.n r.xbuf (mul r.dbuf r.ybuf) }
  | .AA => { r with dbuf := setLow r.n r.dbuf (mul r.xbuf r.xbuf) }

/-- `wm_hal_rsa_init`: the soft reset clears `MC` and `N`. -/
def rsaInit (r : Regs) : Regs := { r with mc := 0, n := 0 }

/-- The loop of `wm_hal_rsa_calc_mc`. -/
def calcMcLoop (word : Nat) : Nat → Nat → Nat → Nat
  | 0, _, y => y
  | i + 1, left, y =>
    let left := left * 2 % 2 ^ 32
    let right := word * y % 2 ^ 32 &&& left
    calcMcLoop word i left (if right ≠ 0 then (y + left) % 2 ^ 32 else y)

/-- `wm_hal_rsa_calc_mc` -/
def calcMc (word : Nat) : Nat := (2 ^ 32 - 1 - calcMcLoop word 31 1 1 + 1) % 2 ^ 32

/-- The loop of `wm_hal_rsa_expt_mod`, with the bits of the exponent below `i` to go. -/
def exptModLoop (e : Nat) : Nat → Bool → Regs → Bool × Regs
  | 0, flag, r => (flag, r)
  | i + 1, flag, r =>
    let (flag, r) := if flag = false then (true, modmul monMul .AA r) else (false, modmul monMul .DD r)
    let (flag, r) :=
      if e.testBit i then
        if flag = false then (true, modmul monMul .AB r) else (false, modmul monMul .DB r)
      else (flag, r)
    exptModLoop e i flag r

/-- The writes before the loop. -/
def loadRegs (r : Regs) (n mc : Nat) (m b a : Int) : Regs :=
  let r := { r with n := n % 2 ^ 7, mc := mc }
  { r with
    mbuf := setLow r.n r.mbuf m.toNat
    ybuf := setLow r.n r.ybuf b.toNat
    xbuf := setLow r.n r.xbuf a.toNat }

/-- The loop over the bits of the exponent and the multiplication by one behind it. -/
def exptRun (e bits : Nat) (r : Regs) : Nat :=
  let s := exptModLoop monMul e bits false r
  let r := { s.2 with ybuf := setLow s.2.n s.2.ybuf 1 }
  if s.1 = false then low r.n (modmul monMul .AB r).dbuf else low r.n (modmul monMul .DB r).xbuf

/-- `wm_hal_rsa_expt_mod`, with the buffers as left by what ran before. -/
def halExptMod (r : Regs) (a e n : Int) : Except MpiError Int :=
  if e < 0 then .error .badInputData
  else do
    let words := (bitlen n + 31) / 32
    let one ← modMpi (2 ^ (words * 32)) n
    let x1 ← modMpi (a * one) n
    let r := loadRegs (rsaInit r) words (calcMc (n.toNat % 2 ^ 32)) n x1 one
    return exptRun monMul e.toNat (bitlen e) r

end Engine

/-! ## The constant of the engine -/

theorem calcMcLoop_spec {word : Nat} (hodd : word % 2 = 1) {k i y : Nat} (hi : i + k = 31)
    (hy : y < 2 ^ (i + 1)) (hinv : word * y % 2 ^ (i + 1) = 1) :
    word * calcMcLoop word k (2 ^ i) y % 2 ^ 32 = 1 ∧ calcMcLoop word k (2 ^ i) y < 2 ^ 32 := by
  induction k generalizing i y with
  | zero =>
    obtain rfl : i = 31 := by omega
    exact ⟨hinv, hy⟩
  | succ k ih =>
    have hleft : 2 ^ i * 2 % 2 ^ 32 = 2 ^ (i + 1) := by
      rw [← pow_succ, Nat.mod_eq_of_lt (Nat.pow_lt_pow_right (by omega) (by omega))]
    have hbit : (word * y % 2 ^ 32 &&& 2 ^ (i + 1) ≠ 0) ↔ (word * y).testBit (i + 1) = true := by
      rw [Nat.and_two_pow, Nat.testBit_mod_two_pow]
      have hlt : i + 1 < 32 := by omega
      have hpos : 0 < 2 ^ (i + 1) := Nat.two_pow_pos _
      cases (word * y).testBit (i + 1) <;> simp [hlt]
    have hnext := Montgomery.lift_inverse hodd hinv
    have hgrow : 2 ^ (i + 1 + 1) = 2 ^ (i + 1) + 2 ^ (i + 1) := Nat.two_pow_succ _
    have hle : 2 ^ (i + 1 + 1) ≤ 2 ^ 32 := Nat.pow_le_pow_right (by omega) (by omega)
    have hsum : (if (word * y).testBit (i + 1) then y + 2 ^ (i + 1) else y) < 2 ^ (i + 1 + 1) := by
      split <;> omega
    have hstep : (if word * y % 2 ^ 32 &&& 2 ^ (i + 1) ≠ 0 then (y + 2 ^ (i + 1)) % 2 ^ 32 else y) =
        if (word * y).testBit (i + 1) then y + 2 ^ (i + 1) else y := by
      by_cases hset : (word * y).testBit (i + 1) = true
      · rw [if_pos (hbit.mpr hset), if_pos hset, Nat.mod_eq_of_lt (by omega)]
      · rw [if_neg (fun hne => hset (hbit.mp hne)), if_neg hset]
    rw [calcMcLoop, hleft, hstep]
    exact ih (by omega) hsum hnext

/-- For every odd word the constant is the negated inverse of the word. -/
theorem calcMc_spec {word : Nat} (hodd : word % 2 = 1) :
    calcMc word < 2 ^ 32 ∧ calcMc word * word % 2 ^ 32 = 2 ^ 32 - 1 := by
  obtain ⟨hinv, hlt⟩ := calcMcLoop_spec (k := 31) (i := 0) (y := 1) hodd rfl (by decide) (by simpa using hodd)
  rw [pow_zero] at hinv hlt
  have hpos : 0 < calcMcLoop word 31 1 1 := by
    refine Nat.pos_of_ne_zero fun hzero => ?_
    rw [hzero, Nat.mul_zero] at hinv
    cases hinv
  have hmc : calcMc word = 2 ^ 32 - calcMcLoop word 31 1 1 := by
    unfold calcMc
    omega
  have hsum : (2 ^ 32 - calcMcLoop word 31 1 1) * word + word * calcMcLoop word 31 1 1 = 2 ^ 32 * word := by
    rw [Nat.mul_comm word, ← Nat.add_mul, Nat.sub_add_cancel hlt.le]
  rw [hmc]
  refine ⟨by omega, ?_⟩
  omega

/-! ## The exponentiation -/

/-- What the engine computes: a Montgomery product modulo an odd number of at most 64 words. -/
structure MontgomeryUnit (monMul : Nat → Nat → Nat → Nat → Nat → Nat) : Prop where
  spec : ∀ {n mc m x y : Nat}, n ≤ 64 → m < 2 ^ (32 * n) → mc < 2 ^ 32 → mc * m % 2 ^ 32 = 2 ^ 32 - 1 →
    x < m → y < 2 ^ (32 * n) → monMul n mc m x y < m ∧ monMul n mc m x y * 2 ^ (32 * n) ≡ x * y [MOD m]

/-- An engine that works word by word. -/
def wordEngine (n mc m x y : Nat) : Nat := Montgomery.mul (2 ^ 32) mc m n x y

theorem wordEngine_unit : MontgomeryUnit wordEngine := by
  refine ⟨fun {n mc m x y} _ _ _ hmc hx hy => ?_⟩
  rw [pow_mul] at hy ⊢
  exact Montgomery.mul_spec (by decide) hmc hx hy

theorem low_setLow (n old v : Nat) : low n (setLow n old v) = low n v := by
  unfold setLow low
  rw [Nat.add_comm, Nat.add_mul_mod_self_right, Nat.mod_mod]

theorem low_of_lt {n v : Nat} (h : v < 2 ^ (32 * n)) : low n v = v := Nat.mod_eq_of_lt h

/-- The accumulator: `D` when the flag is up, `X` otherwise. -/
def acc (flag : Bool) (r : Regs) : Nat := low r.n (if flag then r.dbuf else r.xbuf)

/-- The parameters are in place. -/
structure Loaded (words mc m y : Nat) (r : Regs) : Prop where
  n : r.n = words
  mc : r.mc = mc
  m : low words r.mbuf = m
  y : low words r.ybuf = y

/-- The modulus fits the words and the constant fits the modulus. -/
structure Fits (words mc m : Nat) : Prop where
  odd : m % 2 = 1
  le : words ≤ 64
  lt : m < 2 ^ (32 * words)
  mc_lt : mc < 2 ^ 32
  inverse : mc * m % 2 ^ 32 = 2 ^ 32 - 1

theorem Fits.coprime {words mc m : Nat} (h : Fits words mc m) : Nat.Coprime m (2 ^ (32 * words)) :=
  ((Nat.coprime_two_right).mpr (Nat.odd_iff.mpr h.odd)).pow_right _

section Loop
variable {monMul : Nat → Nat → Nat → Nat → Nat → Nat} {words mc m y : Nat} {r : Regs}

/-- A multiplication of the accumulator by itself or by Y: the product is the new accumulator. -/
theorem Loaded.square (h : Loaded words mc m y r) (flag : Bool) :
    let r' := modmul monMul (if flag = false then .AA else .DD) r
    Loaded words mc m y r' ∧ acc (!flag) r' = low words (monMul words mc m (acc flag r) (acc flag r)) := by
  obtain ⟨rfl, rfl, rfl, rfl⟩ := h
  cases flag <;> exact ⟨⟨rfl, rfl, rfl, rfl⟩, low_setLow _ _ _⟩

theorem Loaded.multiply (h : Loaded words mc m y r) (flag : Bool) :
    let r' := modmul monMul (if flag = false then .AB else .DB) r
    Loaded words mc m y r' ∧ acc (!flag) r' = low words (monMul words mc m (acc flag r) y) := by
  obtain ⟨rfl, rfl, rfl, rfl⟩ := h
  cases flag <;> exact ⟨⟨rfl, rfl, rfl, rfl⟩, low_setLow _ _ _⟩

variable (hunit : MontgomeryUnit monMul) (hfits : Fits words mc m)
include hunit hfits

theorem low_monMul {x z : Nat} (hx : x < m) (hz : z < 2 ^ (32 * words)) :
    low words (monMul words mc m x z) = monMul words mc m x z :=
  low_of_lt ((hunit.spec hfits.le hfits.lt hfits.mc_lt hfits.inverse hx hz).1.trans hfits.lt)

theorem rep_monMul {x z v w : Nat} (hx : Montgomery.Rep m (2 ^ (32 * words)) x v)
    (hz : Montgomery.Rep m (2 ^ (32 * words)) z w) :
    Montgomery.Rep m (2 ^ (32 * words)) (low words (monMul words mc m x z)) (v * w) := by
  have hzlt : z < 2 ^ (32 * words) := hz.lt.trans hfits.lt
  obtain ⟨hlt, hmul⟩ := hunit.spec hfits.le hfits.lt hfits.mc_lt hfits.inverse hx.lt hzlt
  rw [low_monMul hunit hfits hx.lt hzlt]
  exact hx.mul hz hfits.coprime hlt hmul

/-- With the bits below `i` to go the accumulator holds the power by the bits before. -/
theorem exptModLoop_spec (e : Nat) {a : Nat} (hy : Montgomery.Rep m (2 ^ (32 * words)) y a) (i : Nat)
    (flag : Bool) (r : Regs) (h : Loaded words mc m y r)
    (hacc : Montgomery.Rep m (2 ^ (32 * words)) (acc flag r) (a ^ (e / 2 ^ i))) :
    Loaded words mc m y (exptModLoop monMul e i flag r).2 ∧
      Montgomery.Rep m (2 ^ (32 * words))
        (acc (exptModLoop monMul e i flag r).1 (exptModLoop monMul e i flag r).2) (a ^ e) := by
  induction i generalizing flag r with
  | zero =>
    rw [pow_zero, Nat.div_one] at hacc
    exact ⟨h, hacc⟩
  | succ i ih =>
    obtain ⟨hsq, haccsq⟩ := @Loaded.square monMul _ _ _ _ _ h flag
    have hrepsq := rep_monMul hunit hfits hacc hacc
    rw [← haccsq, ← pow_add, ← Nat.two_mul] at hrepsq
    have hdiv : e / 2 ^ (i + 1) = e / 2 ^ i / 2 := by rw [pow_succ, Nat.div_div_eq_div_mul]
    have hbit : e.testBit i = decide (e / 2 ^ i % 2 = 1) := Nat.testBit_eq_decide_div_mod_eq
    have hsquare : (if flag = false then (true, modmul monMul .AA r) else (false, modmul monMul .DD r)) =
        (!flag, modmul monMul (if flag = false then .AA else .DD) r) := by cases flag <;> rfl
    rw [exptModLoop, hsquare]
    dsimp only
    generalize modmul monMul (if flag = false then .AA else .DD) r = r₁ at hsq hrepsq
    by_cases hset : e.testBit i = true
    · rw [if_pos hset]
      obtain ⟨hmul, haccmul⟩ := @Loaded.multiply monMul _ _ _ _ _ hsq (!flag)
      have hrepmul := rep_monMul hunit hfits hrepsq hy
      have hexp : 2 * (e / 2 ^ (i + 1)) + 1 = e / 2 ^ i := by
        rw [hbit, decide_eq_true_eq] at hset
        omega
      rw [← haccmul, ← pow_succ, hexp] at hrepmul
      have hmultiply : (if (!flag) = false then (true, modmul monMul .AB r₁) else (false, modmul monMul .DB r₁)) =
          (!!flag, modmul monMul (if (!flag) = false then .AB else .DB) r₁) := by cases flag <;> rfl
      rw [hmultiply]
      exact ih _ _ hmul hrepmul
    · rw [if_neg hset]
      have hexp : 2 * (e / 2 ^ (i + 1)) = e / 2 ^ i := by
        rw [hbit, decide_eq_true_eq] at hset
        omega
      rw [hexp] at hrepsq
      exact ih _ _ hsq hrepsq

theorem exptRun_eq {e bits : Nat} (hbits : e < 2 ^ bits) {a : Nat} (hy : Montgomery.Rep m (2 ^ (32 * words)) y a)
    (h : Loaded words mc m y r) (hacc : Montgomery.Rep m (2 ^ (32 * words)) (acc false r) 1) :
    exptRun monMul e bits r = a ^ e % m := by
  have hstart : Montgomery.Rep m (2 ^ (32 * words)) (acc false r) (a ^ (e / 2 ^ bits)) := by
    rwa [Nat.div_eq_of_lt hbits, pow_zero]
  obtain ⟨hloaded, hrep⟩ := exptModLoop_spec hunit hfits e hy bits false r h hstart
  unfold exptRun
  dsimp only
  generalize exptModLoop monMul e bits false r = s at hloaded hrep
  obtain ⟨flag, r'⟩ := s
  dsimp only at hloaded hrep ⊢
  have hm : 0 < m := Nat.zero_lt_of_lt hacc.lt
  have hone : (1 : Nat) < 2 ^ (32 * words) := by
    have hlt := hfits.lt
    have hodd := hfits.odd
    refine lt_of_le_of_ne Nat.one_le_two_pow fun heq => ?_
    omega
  have hnew : Loaded words mc m 1 { r' with ybuf := setLow r'.n r'.ybuf 1 } := by
    obtain ⟨rfl, rfl, rfl, -⟩ := hloaded
    exact ⟨rfl, rfl, rfl, by rw [low_setLow, low_of_lt hone]⟩
  obtain ⟨-, hprod⟩ := @Loaded.multiply monMul _ _ _ _ _ hnew flag
  obtain ⟨hlt, hmul⟩ := hunit.spec hfits.le hfits.lt hfits.mc_lt hfits.inverse hrep.lt hone
  have hout := hrep.out hfits.coprime hlt hmul
  rw [← hout, ← low_monMul hunit hfits hrep.lt hone]
  cases flag <;> exact hprod

end Loop

theorem toNat_emod {a n : Int} (hn : 0 < n) : ((a % n).toNat : Int) = a % n :=
  Int.toNat_of_nonneg (Int.emod_nonneg a hn.ne')

/-- The number of words that `wm_hal_rsa_expt_mod` works with. -/
def wordCount (n : Int) : Nat := (bitlen n + 31) / 32

theorem fits_modulus {n : Int} (hn : 0 < n) (hodd : n % 2 = 1) (hbits : bitlen n ≤ 2048) :
    Fits (wordCount n) (calcMc (n.toNat % 2 ^ 32)) n.toNat := by
  obtain ⟨hlt, hinv⟩ := calcMc_spec (show n.toNat % 2 ^ 32 % 2 = 1 by omega)
  refine ⟨by omega, by unfold wordCount; omega, ?_, hlt, ?_⟩
  · have hsize : n.natAbs < 2 ^ bitlen n := Nat.lt_size_self _
    have hle : 2 ^ bitlen n ≤ 2 ^ (32 * wordCount n) :=
      Nat.pow_le_pow_right (by decide) (by unfold wordCount; omega)
    omega
  · rwa [Nat.mul_mod_mod] at hinv

theorem rep_base {n : Int} (hn : 0 < n) (a : Int) (k : Nat) :
    Montgomery.Rep n.toNat (2 ^ k) (a * (2 ^ k % n) % n).toNat (a % n).toNat := by
  have hlt := Int.emod_lt_of_pos (a * (2 ^ k % n)) hn
  refine ⟨by omega, Int.natCast_modEq_iff.mp ?_⟩
  rw [Int.toNat_of_nonneg hn.le, Nat.cast_mul, toNat_emod hn, toNat_emod hn]
  calc
    a * (2 ^ k % n) % n ≡ a * (2 ^ k % n) [ZMOD n] := Int.mod_modEq _ _
    _ ≡ a * 2 ^ k [ZMOD n] := (Int.mod_modEq _ _).mul_left a
    _ ≡ a % n * 2 ^ k [ZMOD n] := (Int.mod_modEq a n).symm.mul_right _
    _ = a % n * ((2 ^ k : Nat) : Int) := by rw [Nat.cast_pow, Nat.cast_ofNat]

theorem loadRegs_spec {n : Int} (hfits : Fits (wordCount n) (calcMc (n.toNat % 2 ^ 32)) n.toNat) {a b : Int}
    (ha : a.toNat < n.toNat) (hb : b.toNat < n.toNat) (r : Regs) :
    let r' := loadRegs r (wordCount n) (calcMc (n.toNat % 2 ^ 32)) n b a
    Loaded (wordCount n) (calcMc (n.toNat % 2 ^ 32)) n.toNat b.toNat r' ∧ acc false r' = a.toNat := by
  have hwords : wordCount n % 2 ^ 7 = wordCount n := by
    have hle := hfits.le
    omega
  unfold loadRegs acc
  simp only [hwords, Bool.false_eq_true, if_false, low_setLow]
  refine ⟨⟨rfl, rfl, ?_, ?_⟩, low_of_lt (ha.trans hfits.lt)⟩
  · rw [low_setLow, low_of_lt hfits.lt]
  · rw [low_setLow, low_of_lt (hb.trans hfits.lt)]

/-- The power of `a` modulo an odd number of at most 2048 bits, whatever the buffers held. -/
theorem halExptMod_eq {monMul : Nat → Nat → Nat → Nat → Nat → Nat} (hunit : MontgomeryUnit monMul) (r : Regs)
    {a e n : Int} (he : 0 ≤ e) (hn : 0 < n) (hodd : n % 2 = 1) (hbits : bitlen n ≤ 2048) :
    halExptMod monMul r a e n = .ok (a ^ e.toNat % n) := by
  have hfits := fits_modulus hn hodd hbits
  have hmod : ∀ x : Int, modMpi x n = .ok (x % n) := fun x => by
    rw [modMpi, if_neg (by omega), if_neg (by omega)]
  have hone : Montgomery.Rep n.toNat (2 ^ (32 * wordCount n)) ((2 : Int) ^ (32 * wordCount n) % n).toNat 1 := by
    have hlt := Int.emod_lt_of_pos ((2 : Int) ^ (32 * wordCount n)) hn
    refine ⟨by omega, Int.natCast_modEq_iff.mp ?_⟩
    rw [Int.toNat_of_nonneg hn.le, Nat.one_mul, toNat_emod hn, Nat.cast_pow, Nat.cast_ofNat]
    exact Int.mod_modEq _ _
  have hbase := rep_base hn a (32 * wordCount n)
  obtain ⟨hloaded, hacc⟩ := loadRegs_spec hfits hone.lt hbase.lt (rsaInit r)
  have hexp : e.toNat < 2 ^ bitlen e := by
    have hsize : e.natAbs < 2 ^ bitlen e := Nat.lt_size_self _
    omega
  have hrun := exptRun_eq hunit hfits hexp hbase hloaded (by rw [hacc]; exact hone)
  have hcast : (((a % n).toNat ^ e.toNat % n.toNat : Nat) : Int) = a ^ e.toNat % n := by
    rw [Int.natCast_mod, Nat.cast_pow, toNat_emod hn, Int.toNat_of_nonneg hn.le]
    exact (Int.mod_modEq a n).pow _
  simp only [halExptMod, if_neg (Int.not_lt.mpr he), hmod, Nat.mul_comm _ 32]
  rw [← hcast, ← hrun]
  rfl

/-- With an odd modulus of at most 2048 bits the result is the power, for every base, every exponent that is not
negative, and whatever the buffers held. -/
theorem expt_mod_is_power {monMul : Nat → Nat → Nat → Nat → Nat → Nat} (hunit : MontgomeryUnit monMul) (r : Regs)
    (a e : Int) {n : Int} (hn : 0 < n) (hodd : n % 2 = 1) (hbits : bitlen n ≤ 2048) :
    halExptMod monMul r a e n = if e < 0 then .error .badInputData else .ok (a ^ e.toNat % n) := by
  by_cases he : e < 0
  · rw [halExptMod, if_pos he, if_pos he]
  · rw [halExptMod_eq hunit r (Int.not_lt.mp he) hn hodd hbits, if_neg he]

/-- A power modulo 527, on an engine that works word by word. -/
theorem expt_mod_is_power_wordEngine : halExptMod wordEngine ⟨1, 2, 3, 4, 5, 6⟩ 7 13 527 =
    if (13 : Int) < 0 then .error .badInputData else .ok (7 ^ (13 : Int).toNat % 527) :=
  expt_mod_is_power wordEngine_unit _ 7 13 (by decide) (by decide) (by decide)

end WmIot.Rsa
