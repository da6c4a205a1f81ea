import Mathlib

/-!
# Text in an array

An array is a function from its indices. Loops that move a range by some places, in the direction that does not
overwrite what is still to be moved, and loops that copy a string. What they leave is said of slices.
-/

namespace WmIot.TextBuffer
set_option autoImplicit false

section Cells
variable {α : Type}

def slice (m : Nat → α) (i n : Nat) : List α := (List.range n).map fun k => m (i + k)

/-- `for (k = n - 1; k >= 0; k--) m[i + d + k] = m[i + k];` -/
def moveUp (m : Nat → α) (i d : Nat) : Nat → Nat → α
  | 0 => m
  | n + 1 => moveUp (Function.update m (i + d + n) (m (i + n))) i d n

/-- `for (k = 0; k < n; k++) m[i + k] = m[i + d + k];` -/
def moveDown (m : Nat → α) (i d : Nat) : Nat → Nat → α
  | 0 => m
  | n + 1 => moveDown (Function.update m i (m (i + d))) (i + 1) d n

/-- The cells of a list, stored from an index on. -/
def write (m : Nat → α) (i : Nat) : List α → Nat → α
  | [] => m
  | b :: s => write (Function.update m i b) (i + 1) s

variable {m m' : Nat → α} {i n d : Nat} {s t : List α} {b : α}

@[simp] theorem slice_length (m : Nat → α) (i n : Nat) : (slice m i n).length = n := by simp [slice]

@[simp] theorem slice_zero (m : Nat → α) (i : Nat) : slice m i 0 = [] := rfl

theorem slice_getElem (k : Nat) (hk : k < (slice m i n).length) : (slice m i n)[k] = m (i + k) := by
  simp [slice]

theorem slice_add (m : Nat → α) (i n k : Nat) : slice m i (n + k) = slice m i n ++ slice m (i + n) k := by
  unfold slice
  rw [List.range_add, List.map_append, List.map_map]
  congr 1
  exact List.map_congr_left fun j _ => congrArg m (Nat.add_assoc i n j).symm

theorem slice_succ (m : Nat → α) (i n : Nat) : slice m i (n + 1) = m i :: slice m (i + 1) n := by
  rw [Nat.add_comm, slice_add]
  rfl

theorem slice_congr (h : ∀ j, i ≤ j → j < i + n → m' j = m j) : slice m' i n = slice m i n :=
  List.map_congr_left fun k hk => h (i + k) (by omega) (by have := List.mem_range.mp hk; omega)

/-- A slice of two parts is known from them. -/
theorem slice_append (hs : slice m i s.length = s) (ht : slice m (i + s.length) t.length = t) :
    slice m i (s.length + t.length) = s ++ t := by
  rw [slice_add, hs, ht]

theorem slice_take (h : slice m i s.length = s) (hn : n ≤ s.length) : slice m i n = s.take n := by
  have hsplit := slice_add m i n (s.length - n)
  rw [Nat.add_sub_cancel' hn, h] at hsplit
  rw [hsplit, List.take_left' (slice_length m i n)]

/-- The two parts of a slice. -/
theorem slice_parts (h : slice m i (s.length + t.length) = s ++ t) :
    slice m i s.length = s ∧ slice m (i + s.length) t.length = t := by
  rw [slice_add] at h
  exact List.append_inj h (slice_length m i s.length)

/-! ## The loops -/

theorem moveUp_apply (m : Nat → α) (i d n j : Nat) :
    moveUp m i d n j = if i + d ≤ j ∧ j < i + d + n then m (j - d) else m j := by
  induction n generalizing m with
  | zero => rw [moveUp, if_neg (by omega)]
  | succ n ih =>
    rw [moveUp, ih]
    by_cases hin : i + d ≤ j ∧ j < i + d + n
    · rw [if_pos hin, if_pos (by omega), Function.update_of_ne (by omega)]
    · rw [if_neg hin]
      by_cases hlast : j = i + d + n
      · subst hlast
        rw [Function.update_self, if_pos (by omega)]
        congr 1
        omega
      · rw [Function.update_of_ne hlast, if_neg (by omega)]

theorem moveDown_apply (m : Nat → α) (i d n j : Nat) :
    moveDown m i d n j = if i ≤ j ∧ j < i + n then m (j + d) else m j := by
  induction n generalizing m i with
  | zero => rw [moveDown, if_neg (by omega)]
  | succ n ih =>
    rw [moveDown, ih]
    by_cases hin : i + 1 ≤ j ∧ j < i + 1 + n
    · rw [if_pos hin, if_pos (by omega), Function.update_of_ne (by omega)]
    · rw [if_neg hin]
      by_cases hfirst : j = i
      · subst hfirst
        rw [Function.update_self, if_pos (by omega)]
      · rw [Function.update_of_ne hfirst, if_neg (by omega)]

theorem slice_moveUp (m : Nat → α) (i d n : Nat) : slice (moveUp m i d n) (i + d) n = slice m i n := by
  refine List.map_congr_left fun k hk => ?_
  have hk' := List.mem_range.mp hk
  rw [moveUp_apply, if_pos (by omega)]
  congr 1
  omega

theorem slice_moveDown (m : Nat → α) (i d n : Nat) : slice (moveDown m i d n) i n = slice m (i + d) n := by
  refine List.map_congr_left fun k hk => ?_
  have hk' := List.mem_range.mp hk
  rw [moveDown_apply, if_pos (by omega)]
  congr 1
  omega

theorem moveUp_out {j : Nat} (h : j < i + d ∨ i + d + n ≤ j) : moveUp m i d n j = m j := by
  rw [moveUp_apply, if_neg (by omega)]

theorem moveDown_out {j : Nat} (h : j < i ∨ i + n ≤ j) : moveDown m i d n j = m j := by
  rw [moveDown_apply, if_neg (by omega)]

theorem write_out {j : Nat} (h : j < i ∨ i + s.length ≤ j) : write m i s j = m j := by
  induction s generalizing m i with
  | nil => rfl
  | cons b s ih =>
    rw [List.length_cons] at h
    rw [write, ih (by omega), Function.update_of_ne (by omega)]

theorem slice_write (m : Nat → α) (i : Nat) (s : List α) : slice (write m i s) i s.length = s := by
  induction s generalizing m i with
  | nil => rfl
  | cons b s ih =>
    rw [List.length_cons, slice_succ, write, write_out (Or.inl (Nat.lt_succ_self i)), Function.update_self, ih]

theorem slice_update_out {j : Nat} (b : α) (h : j < i ∨ i + n ≤ j) :
    slice (Function.update m j b) i n = slice m i n :=
  slice_congr fun k _ _ => Function.update_of_ne (by omega) b m

end Cells

/-! ## Strings -/

/-- The string at an index of an array: the bytes before the first NUL, or all of the `n` bytes. -/
def cstring {α : Type} [Zero α] [DecidableEq α] (m : Nat → α) (i : Nat) : Nat → List α
  | 0 => []
  | n + 1 => if m i = 0 then [] else m i :: cstring m (i + 1) n

/-- The string copied to an index, with its NUL. -/
def copyString {α : Type} [Zero α] (m : Nat → α) (i : Nat) (s : List α) : Nat → α := write m i (s ++ [0])

section Strings
variable {α : Type} [Zero α] {m : Nat → α} {i n : Nat} {s : List α}

theorem slice_copyString (m : Nat → α) (i : Nat) (s : List α) :
    slice (copyString m i s) i s.length = s ∧ copyString m i s (i + s.length) = 0 := by
  have hall := slice_write m i (s ++ [0])
  rw [List.length_append] at hall
  obtain ⟨hs, hend⟩ := slice_parts hall
  refine ⟨hs, ?_⟩
  have hlast : [copyString m i s (i + s.length)] = [0] := hend
  exact List.singleton_inj.mp hlast

theorem copyString_out {j : Nat} (h : j < i ∨ i + s.length < j) : copyString m i s j = m j :=
  write_out (by rw [List.length_append, List.length_singleton]; omega)

variable [DecidableEq α]

/-- A string that ends inside the array. -/
theorem cstring_eq (hs : slice m i s.length = s) (hnul : 0 ∉ s) (hend : m (i + s.length) = 0) (hn : s.length < n) :
    cstring m i n = s := by
  induction s generalizing i n with
  | nil =>
    obtain ⟨n, rfl⟩ := Nat.exists_eq_succ_of_ne_zero (Nat.ne_of_gt hn)
    rw [List.length_nil, Nat.add_zero] at hend
    rw [cstring, if_pos hend]
  | cons b s ih =>
    obtain ⟨n, rfl⟩ := Nat.exists_eq_succ_of_ne_zero (Nat.ne_zero_of_lt hn)
    rw [List.length_cons, slice_succ, List.cons.injEq] at hs
    obtain ⟨rfl, hs⟩ := hs
    rw [List.mem_cons, not_or] at hnul
    rw [List.length_cons] at hend hn
    rw [cstring, if_neg (Ne.symm hnul.1),
      ih hs hnul.2 (by rw [← hend]; congr 1; omega) (by omega)]

theorem cstring_copyString (hnul : 0 ∉ s) (hn : s.length < n) : cstring (copyString m i s) i n = s :=
  cstring_eq (slice_copyString m i s).1 hnul (slice_copyString m i s).2 hn

end Strings

/-! ## Common prefixes -/

def commonPrefix {α : Type} [DecidableEq α] : List α → List α → List α
  | a :: s, b :: t => if a = b then a :: commonPrefix s t else []
  | _, _ => []

section Prefixes
variable {α : Type} [DecidableEq α] {s t u : List α}

theorem commonPrefix_left (s t : List α) : commonPrefix s t <+: s := by
  induction s generalizing t with
  | nil => exact List.nil_prefix
  | cons a s ih =>
    cases t with
    | nil => exact List.nil_prefix
    | cons b t =>
      rw [commonPrefix]
      split
      · exact List.cons_prefix_cons.mpr ⟨rfl, ih t⟩
      · exact List.nil_prefix

theorem commonPrefix_right (s t : List α) : commonPrefix s t <+: t := by
  induction s generalizing t with
  | nil => exact List.nil_prefix
  | cons a s ih =>
    cases t with
    | nil => exact List.nil_prefix
    | cons b t =>
      rw [commonPrefix]
      split
      · rename_i hab
        exact List.cons_prefix_cons.mpr ⟨hab, ih t⟩
      · exact List.nil_prefix

/-- Every prefix of both is one of the common prefix. -/
theorem prefix_commonPrefix (hs : u <+: s) (ht : u <+: t) : u <+: commonPrefix s t := by
  induction u generalizing s t with
  | nil => exact List.nil_prefix
  | cons c u ih =>
    obtain ⟨s, rfl⟩ := hs
    obtain ⟨t, rfl⟩ := ht
    rw [List.cons_append, List.cons_append, commonPrefix, if_pos rfl, List.cons_prefix_cons]
    exact ⟨rfl, ih (List.prefix_append u s) (List.prefix_append u t)⟩

/-- The common prefix with a start of a list is a start of the other one. -/
theorem commonPrefix_take (s t : List α) (n : Nat) :
    commonPrefix (s.take n) t = t.take (min n (commonPrefix s t).length) := by
  induction s generalizing t n with
  | nil => simp [commonPrefix]
  | cons a s ih =>
    cases n with
    | zero => simp [commonPrefix]
    | succ n =>
      cases t with
      | nil => simp [commonPrefix]
      | cons b t =>
        rw [List.take_succ_cons, commonPrefix, commonPrefix]
        split
        · rename_i hab
          rw [ih, hab, List.length_cons, Nat.succ_min_succ, List.take_succ_cons]
        · simp

end Prefixes

end WmIot.TextBuffer
