import Mathlib

/-!
# Little-endian words

A number as a fixed number of bytes, the least significant first, and back.
-/

namespace WmIot.LittleEndian
set_option autoImplicit false

def pack : Nat → Nat → List (BitVec 8)
  | 0, _ => []
  | n + 1, v => BitVec.ofNat 8 v :: pack n (v / 256)

def unpack : List (BitVec 8) → Nat
  | [] => 0
  | b :: bs => b.toNat + 256 * unpack bs

@[simp] theorem pack_length (n : Nat) : ∀ v, (pack n v).length = n := by
  induction n with
  | zero => exact fun _ => rfl
  | succ n ih => exact fun v => congrArg (· + 1) (ih (v / 256))

theorem unpack_pack (n : Nat) : ∀ v, unpack (pack n v) = v % 256 ^ n := by
  induction n with
  | zero => exact fun v => (Nat.mod_one v).symm
  | succ n ih =>
    intro v
    have hbyte : (BitVec.ofNat 8 v).toNat = v % 256 := BitVec.toNat_ofNat v 8
    rw [pack, unpack, ih, hbyte, pow_succ', Nat.mod_mul]

theorem unpack_append (a b : List (BitVec 8)) : unpack (a ++ b) = unpack a + 256 ^ a.length * unpack b := by
  induction a with
  | nil => rw [List.nil_append, List.length_nil, pow_zero, Nat.one_mul, unpack, Nat.zero_add]
  | cons c a ih => rw [List.cons_append, unpack, unpack, ih, List.length_cons, pow_succ', Nat.mul_add, Nat.mul_assoc, Nat.add_assoc]

/-- Two words after each other are one, the first being its low part. -/
theorem pack_append (m n v : Nat) : ∀ u, u < 256 ^ m →
    pack m u ++ pack n v = pack (m + n) (u + 256 ^ m * v) := by
  induction m with
  | zero =>
    intro u hu
    have hzero : u = 0 := by omega
    rw [hzero, pack, List.nil_append, Nat.zero_add, Nat.zero_add, pow_zero, Nat.one_mul]
  | succ m ih =>
    intro u hu
    rw [pow_succ'] at hu
    have hword : u + 256 ^ (m + 1) * v = u + 256 * (256 ^ m * v) := by
      rw [pow_succ', Nat.mul_assoc]
    have hlow : BitVec.ofNat 8 (u + 256 * (256 ^ m * v)) = BitVec.ofNat 8 u := by
      apply BitVec.eq_of_toNat_eq
      rw [BitVec.toNat_ofNat, BitVec.toNat_ofNat]
      omega
    have hhigh : (u + 256 * (256 ^ m * v)) / 256 = u / 256 + 256 ^ m * v := by
      omega
    rw [pack, List.cons_append, ih (u / 256) (by omega), Nat.succ_add, pack, hword, hlow, hhigh]

/-- The word of `n` bytes at an offset. -/
def wordAt (n : Nat) (bytes : List (BitVec 8)) (off : Nat) : Nat := unpack ((bytes.drop off).take n)

theorem wordAt_of_append {n v : Nat} {bytes p rest : List (BitVec 8)}
    (h : bytes = p ++ (pack n v ++ rest)) (hv : v < 256 ^ n) : wordAt n bytes p.length = v := by
  have htake : (pack n v ++ rest).take n = pack n v := List.take_left' (pack_length n v)
  rw [wordAt, h, List.drop_left, htake, unpack_pack, Nat.mod_eq_of_lt hv]

/-- Words after each other are read back in their places. -/
theorem wordAt_words {n : Nat} {rest : List (BitVec 8)} (vs : List Nat) (hall : ∀ v ∈ vs, v < 256 ^ n) :
    ∀ i (hi : i < vs.length), wordAt n (vs.flatMap (pack n) ++ rest) (n * i) = vs[i] := by
  induction vs with
  | nil => exact fun i hi => absurd hi (Nat.not_lt_zero i)
  | cons v vs ih =>
    intro i hi
    rw [List.flatMap_cons, List.append_assoc]
    cases i with
    | zero => exact wordAt_of_append (p := []) rfl (hall v List.mem_cons_self)
    | succ i =>
      have hdrop : (pack n v ++ (vs.flatMap (pack n) ++ rest)).drop (n * (i + 1)) =
          (vs.flatMap (pack n) ++ rest).drop (n * i) := by
        rw [Nat.mul_succ, Nat.add_comm, ← List.drop_drop, List.drop_left' (pack_length n v)]
      have hrest := ih (fun v' hv' => hall v' (List.mem_cons_of_mem v hv')) i (Nat.lt_of_succ_lt_succ hi)
      unfold wordAt at hrest ⊢
      rw [hdrop]
      exact hrest

theorem words_length (n : Nat) (vs : List Nat) : (vs.flatMap (pack n)).length = vs.length * n := by
  induction vs with
  | nil => exact (Nat.zero_mul n).symm
  | cons v vs ih => rw [List.flatMap_cons, List.length_append, ih, pack_length, List.length_cons, Nat.succ_mul,
      Nat.add_comm]

/-- A word inside the first bytes is the same without what follows them. -/
theorem wordAt_take {n off len : Nat} (bytes : List (BitVec 8)) (h : off + n ≤ len) :
    wordAt n (bytes.take len) off = wordAt n bytes off := by
  unfold wordAt
  rw [List.drop_take, List.take_take, Nat.min_eq_left (by omega)]

end WmIot.LittleEndian
