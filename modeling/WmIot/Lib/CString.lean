import Mathlib

/-!
# C strings in memory

A pointer into an object is the list of the bytes from there to the end of the object; `none` is a read
past it. The comparisons stop at the first difference.
-/

namespace WmIot.CString
set_option autoImplicit false

abbrev Byte := BitVec 8

/-- The bytes of a string literal, without its NUL. -/
def lit (s : String) : List Byte := s.toList.map fun c => BitVec.ofNat 8 c.toNat

/-- A string: its characters, without the NUL behind them. -/
structure Str where
  chars : List Byte
  noNul : 0#8 ∉ chars

/-- The memory of a string ends with its NUL. -/
def Str.mem (s : Str) : List Byte := s.chars ++ [0#8]

def strlen : List Byte → Option Nat
  | [] => none
  | b :: p => if b = 0#8 then some 0 else (strlen p).map (· + 1)

/-- `!strcmp(s, p)`, for the string `s` and the memory `p` -/
def strcmpEq : List Byte → List Byte → Option Bool
  | _, [] => none
  | [], b :: _ => some (b = 0#8)
  | c :: s, b :: p => if c = b then strcmpEq s p else some false

/-- `!memcmp(p, s, n)`, for the `n` bytes of `s` -/
def memcmpEq : List Byte → List Byte → Option Bool
  | _, [] => some true
  | [], _ :: _ => none
  | b :: p, c :: s => if b = c then memcmpEq p s else some false

def isdigit (b : Byte) : Bool := 0x30#8 ≤ b && b ≤ 0x39#8

def isspace (b : Byte) : Bool := b = 0x20#8 || (0x09#8 ≤ b && b ≤ 0x0D#8)

/-- The digits at a pointer, after those of the value `v`. -/
def digits : List Byte → Nat → Option Nat
  | [], _ => none
  | b :: p, v => if isdigit b then digits p (10 * v + (b.toNat - 0x30)) else some v

/-- `atoi`, which is `strtol` with its limits -/
def atoi : List Byte → Option Int
  | [] => none
  | b :: p =>
    if isspace b then atoi p
    else if b = 0x2D#8 then (digits p 0).map fun v => max (-2147483648) (-(v : Int))
    else if b = 0x2B#8 then (digits p 0).map fun v => min 2147483647 (v : Int)
    else (digits (b :: p) 0).map fun v => min 2147483647 (v : Int)

/-- `strstr(p, s)`: the memory from the first place on where `s` is -/
def strstr (s : List Byte) : List Byte → Option (List Byte)
  | [] => if s = [] then some [] else none
  | b :: p => if s.isPrefixOf (b :: p) then some (b :: p) else strstr s p

/-- The number that digits denote. -/
def value (ds : List Byte) : Nat := ds.foldl (fun v b => 10 * v + (b.toNat - 0x30)) 0

section
variable {s p : List Byte}

theorem strlen_append (hs : 0#8 ∉ s) (p : List Byte) : strlen (s ++ 0#8 :: p) = some s.length := by
  induction s with
  | nil => rfl
  | cons b s ih =>
    have hb : b ≠ 0#8 := fun hb => hs (hb ▸ List.mem_cons_self)
    rw [List.cons_append, strlen, if_neg hb, ih fun h => hs (List.mem_cons_of_mem b h)]
    rfl

theorem strlen_eq_some_iff {n : Nat} :
    strlen p = some n ↔ ∃ s rest, p = s ++ 0#8 :: rest ∧ 0#8 ∉ s ∧ s.length = n := by
  constructor
  · intro h
    induction p generalizing n with
    | nil => cases h
    | cons b p ih =>
      rw [strlen] at h
      by_cases hb : b = 0#8
      · rw [if_pos hb, Option.some.injEq] at h
        exact ⟨[], p, by rw [hb]; rfl, List.not_mem_nil, h⟩
      · rw [if_neg hb] at h
        obtain ⟨m, hm, rfl⟩ := Option.map_eq_some_iff.mp h
        obtain ⟨s, rest, rfl, hs, hlen⟩ := ih hm
        refine ⟨b :: s, rest, rfl, fun hmem => ?_, congrArg Nat.succ hlen⟩
        rcases List.mem_cons.mp hmem with hzero | hmem
        · exact hb hzero.symm
        · exact hs hmem
  · rintro ⟨s, rest, rfl, hs, rfl⟩
    exact strlen_append hs rest

theorem digits_append (hs : ∀ b ∈ s, isdigit b) {b : Byte} (hb : isdigit b = false) (p : List Byte) :
    ∀ v, digits (s ++ b :: p) v = some (s.foldl (fun v b => 10 * v + (b.toNat - 0x30)) v) := by
  induction s with
  | nil =>
    intro v
    rw [List.nil_append, digits, hb]
    rfl
  | cons c s ih =>
    intro v
    rw [List.cons_append, digits, if_pos (hs c List.mem_cons_self),
      ih fun d hd => hs d (List.mem_cons_of_mem c hd)]
    rfl

theorem isdigit_iff {b : Byte} : isdigit b = true ↔ 0x30#8 ≤ b ∧ b ≤ 0x39#8 := by
  rw [isdigit, Bool.and_eq_true, decide_eq_true_eq, decide_eq_true_eq]

theorem isspace_of_isdigit {b : Byte} (h : isdigit b) : isspace b = false := by
  obtain ⟨hlo, hhi⟩ := isdigit_iff.mp h
  have hspace : b ≠ 0x20#8 := by bv_omega
  have hrange : ¬ b ≤ 0x0D#8 := by bv_omega
  simp only [isspace, hspace, hrange, decide_false, Bool.and_false, Bool.or_false]

/-- Digits without a sign. -/
theorem atoi_digits (hs : ∀ b ∈ s, isdigit b) {b : Byte} (hb : isdigit b = false) (hspace : isspace b = false)
    (hminus : b ≠ 0x2D#8) (hplus : b ≠ 0x2B#8) (p : List Byte) :
    atoi (s ++ b :: p) = some (min 2147483647 (value s : Int)) := by
  cases s with
  | nil =>
    rw [List.nil_append, atoi, hspace, if_neg Bool.false_ne_true, if_neg hminus, if_neg hplus, digits, hb]
    rfl
  | cons c s =>
    have hc := hs c List.mem_cons_self
    obtain ⟨hlo, hhi⟩ := isdigit_iff.mp hc
    rw [List.cons_append, atoi, isspace_of_isdigit hc, if_neg Bool.false_ne_true, if_neg (by bv_omega),
      if_neg (by bv_omega), ← List.cons_append, digits_append hs hb]
    rfl

theorem atoi_plus (hs : ∀ b ∈ s, isdigit b) {b : Byte} (hb : isdigit b = false) (p : List Byte) :
    atoi (0x2B#8 :: (s ++ b :: p)) = some (min 2147483647 (value s : Int)) := by
  rw [atoi, if_neg (by decide), if_neg (by decide), if_pos rfl, digits_append hs hb]
  rfl

theorem atoi_minus (hs : ∀ b ∈ s, isdigit b) {b : Byte} (hb : isdigit b = false) (p : List Byte) :
    atoi (0x2D#8 :: (s ++ b :: p)) = some (max (-2147483648) (-(value s : Int))) := by
  rw [atoi, if_neg (by decide), if_pos rfl, digits_append hs hb]
  rfl

theorem memcmpEq_true_iff : memcmpEq p s = some true ↔ ∃ rest, p = s ++ rest := by
  induction s generalizing p with
  | nil => exact ⟨fun _ => ⟨p, rfl⟩, fun _ => by cases p <;> rfl⟩
  | cons c s ih =>
    cases p with
    | nil => exact ⟨nofun, nofun⟩
    | cons b p =>
      rw [memcmpEq]
      split
      next hbc =>
        rw [ih, hbc]
        constructor
        · rintro ⟨rest, rfl⟩
          exact ⟨rest, rfl⟩
        · rintro ⟨rest, hrest⟩
          exact ⟨rest, (List.cons.inj hrest).2⟩
      next hbc => exact ⟨nofun, fun ⟨_, hrest⟩ => absurd (List.cons.inj hrest).1 hbc⟩

/-- A comparison with bytes other than NUL does not pass the NUL of a string. -/
theorem memcmpEq_isSome (hs : 0#8 ∉ s) (hp : 0#8 ∈ p) : (memcmpEq p s).isSome := by
  induction s generalizing p with
  | nil => cases p <;> rfl
  | cons c s ih =>
    cases p with
    | nil => cases hp
    | cons b p =>
      rw [memcmpEq]
      split
      next hbc =>
        have hb : b ≠ 0#8 := fun hb => hs (hb ▸ hbc ▸ List.mem_cons_self)
        rcases List.mem_cons.mp hp with hzero | hp
        · exact absurd hzero.symm hb
        · exact ih (fun h => hs (List.mem_cons_of_mem c h)) hp
      next => rfl

theorem strstr_of_isPrefix (h : s <+: p) : strstr s p = some p := by
  cases p with
  | nil => rw [strstr, if_pos (List.prefix_nil.mp h)]
  | cons b p => rw [strstr, if_pos (List.isPrefixOf_iff_prefix.mpr h)]

theorem strstr_isSome_iff : (strstr s p).isSome ↔ s <:+: p := by
  induction p with
  | nil =>
    rw [strstr, List.infix_nil]
    split <;> simp [*]
  | cons b p ih =>
    rw [strstr, List.infix_cons_iff, ← List.isPrefixOf_iff_prefix]
    split
    next h => exact iff_of_true rfl (Or.inl h)
    next h => rw [ih, or_iff_right h]

end

end WmIot.CString
