import Mathlib

/-!
# Iterated compression of a padded message

A message is cut into blocks of `n` elements, and a compression takes one block after the other into a
state. Who gets the message in pieces keeps the state after its full blocks and the elements that do
not fill one yet.
-/

namespace WmIot.Framing
set_option autoImplicit false

variable {α σ : Type}

section Blocks
variable (n : Nat) (f : σ → List α → σ)

/-- The state after the full blocks of a message. -/
def fold (s : σ) (m : List α) : σ :=
  if 0 < n ∧ n ≤ m.length then fold (f s (m.take n)) (m.drop n) else s
termination_by m.length
decreasing_by simp only [List.length_drop]; omega

variable {n f}

theorem fold_short {s : σ} {m : List α} (h : m.length < n) : fold n f s m = s := by
  rw [fold, if_neg (by omega)]

theorem fold_block {s : σ} {b m : List α} (hn : 0 < n) (h : b.length = n) :
    fold n f s (b ++ m) = fold n f (f s b) m := by
  rw [fold, if_pos ⟨hn, by simp [h]⟩, List.take_left' h, List.drop_left' h]

theorem fold_one {s : σ} {b : List α} (hn : 0 < n) (h : b.length = n) : fold n f s b = f s b := by
  have hblock := fold_block (f := f) (s := s) (m := []) hn h
  rwa [List.append_nil, fold_short (m := []) hn] at hblock

theorem fold_append (hn : 0 < n) {q : List α} : ∀ (s : σ) (m : List α), n ∣ q.length →
    fold n f s (q ++ m) = fold n f (fold n f s q) m := by
  induction hlen : q.length using Nat.strong_induction_on generalizing q with
  | h len ih =>
    intro s m hdvd
    by_cases hzero : q = []
    · subst hzero
      rw [List.nil_append, fold_short (m := []) hn]
    · have hpos : 0 < len := hlen ▸ List.length_pos_iff.mpr hzero
      have hle : n ≤ len := Nat.le_of_dvd hpos hdvd
      have hblock : (q.take n).length = n := by simp [hlen, hle]
      have hrest : (q.drop n).length = len - n := by simp [hlen]
      have hsub : n ∣ len - n := Nat.dvd_sub hdvd (Nat.dvd_refl n)
      rw [← List.take_append_drop n q, List.append_assoc, fold_block hn hblock,
        ih (len - n) (by omega) hrest _ _ hsub, fold_block hn hblock]

/-- The full blocks of a message are in the state, the others are pending. -/
structure Holds (n : Nat) (f : σ → List α → σ) (s₀ : σ) (m : List α) (s : σ) (pending : List α) : Prop where
  short : pending.length < n
  split : ∃ q, m = q ++ pending ∧ n ∣ q.length ∧ s = fold n f s₀ q

variable {s₀ s : σ} {m p c : List α}

theorem Holds.start (hn : 0 < n) : Holds n f s₀ [] s₀ [] where
  short := hn
  split := ⟨[], rfl, Nat.dvd_zero n, (fold_short hn).symm⟩

/-- More elements that do not fill the block. -/
theorem Holds.keep (h : Holds n f s₀ m s p) (hc : (p ++ c).length < n) :
    Holds n f s₀ (m ++ c) s (p ++ c) := by
  obtain ⟨q, hm, hq, hs⟩ := h.split
  exact ⟨hc, q, by rw [hm, List.append_assoc], hq, hs⟩

/-- Elements that fill it. -/
theorem Holds.flush (h : Holds n f s₀ m s p) (hc : (p ++ c).length = n) :
    Holds n f s₀ (m ++ c) (f s (p ++ c)) [] := by
  obtain ⟨q, hm, hq, hs⟩ := h.split
  have hn : 0 < n := Nat.zero_lt_of_lt h.short
  refine ⟨hn, m ++ c, (List.append_nil _).symm, ?_, ?_⟩
  · rw [hm, List.append_assoc, List.length_append, hc]
    exact Nat.dvd_add hq (Nat.dvd_refl n)
  · rw [hm, List.append_assoc, fold_append hn s₀ _ hq, ← hs, fold_one hn hc]

/-- What ends the message in full blocks is compressed after it. -/
theorem Holds.close (h : Holds n f s₀ m s p) : fold n f s₀ (m ++ c) = fold n f s (p ++ c) := by
  obtain ⟨q, hm, hq, hs⟩ := h.split
  rw [hm, List.append_assoc, fold_append (Nat.zero_lt_of_lt h.short) s₀ _ hq, hs]

theorem Holds.length_mod (h : Holds n f s₀ m s p) : p.length = m.length % n := by
  obtain ⟨q, hm, hq, -⟩ := h.split
  obtain ⟨k, hk⟩ := hq
  rw [hm, List.length_append, hk, Nat.mul_add_mod, Nat.mod_eq_of_lt h.short]

end Blocks

/-! ## The standard padding -/

/-- The eight bytes of a number of 64 bits. -/
def lengthBytes (bigEndian : Bool) (n : Nat) : List UInt8 :=
  let bytes := (List.range 8).map fun i => UInt8.ofNat (n / 256 ^ i)
  if bigEndian then bytes.reverse else bytes

/-- As many zeros as it takes to get from `len` and the byte 0x80 to 56 modulo 64. -/
def zeros (len : Nat) : List UInt8 := List.replicate ((119 - len % 64) % 64) 0

/-- What follows a message of `len` bytes. -/
def padding (bigEndian : Bool) (len : Nat) : List UInt8 :=
  0x80 :: zeros len ++ lengthBytes bigEndian (8 * len)

@[simp] theorem lengthBytes_length (b : Bool) (n : Nat) : (lengthBytes b n).length = 8 := by
  cases b <;> rfl

/-- The zeros reach 56 modulo 64, and they are the least number that does. -/
theorem zeros_length (len : Nat) : (len + 1 + (zeros len).length) % 64 = 56 ∧ (zeros len).length < 64 := by
  simp only [zeros, List.length_replicate]
  omega

theorem padding_length (b : Bool) (len : Nat) : 64 ∣ len + (padding b len).length := by
  have := zeros_length len
  simp only [padding, List.length_append, List.length_cons, lengthBytes_length]
  omega

/-- One block is enough while 55 bytes at most are pending. -/
theorem padding_fits (b : Bool) {len : Nat} (h : len % 64 ≤ 55) :
    padding b len = 0x80 :: List.replicate (55 - len % 64) 0 ++ lengthBytes b (8 * len) := by
  rw [padding, zeros, show (119 - len % 64) % 64 = 55 - len % 64 by omega]

/-- With more, the zeros fill that block and 56 bytes of a second one. -/
theorem padding_spills (b : Bool) {len : Nat} (h : 55 < len % 64) :
    padding b len =
      (0x80 :: List.replicate (63 - len % 64) 0) ++ (List.replicate 56 0 ++ lengthBytes b (8 * len)) := by
  rw [padding, zeros, show (119 - len % 64) % 64 = 63 - len % 64 + 56 by omega, List.replicate_add]
  simp

end WmIot.Framing
