import WmIot.Lib.CString

/-!
# Comparing and searching

`strcasecmp` and `memrchr` of `wm_utils.c`. The comparison ends with either string, and the search starts
behind its buffer.
-/

namespace WmIot.Utils
open CString
set_option autoImplicit false

/-! ## Comparing without case -/

/-- `a -= 'a' - 'A'` for the small letters -/
def upper (b : Byte) : Byte := if 0x61#8 ≤ b ∧ b ≤ 0x7A#8 then b - 0x20#8 else b

/-- `strcasecmp` of two strings in memory; `none` is a read past one of them. -/
def strcasecmp : List Byte → List Byte → Option Int
  | [], _ => none
  | a :: _, [] => if a = 0#8 then some 0 else none
  | a :: s, b :: t =>
    if a = 0#8 ∨ b = 0#8 then some 0
    else if a = b then strcasecmp s t
    else if upper a ≠ upper b then some 1
    else strcasecmp s t

/-- The ASCII letters in lower case. -/
def lower (b : Byte) : Byte := if 0x41#8 ≤ b ∧ b ≤ 0x5A#8 then b + 0x20#8 else b

/-- The comparison stays inside of the strings, finds equality and orders the two strings. -/
structure Decides (a b : Str) : Prop where
  inside : (strcasecmp a.mem b.mem).isSome
  equal : strcasecmp a.mem b.mem = some 0 ↔ a.chars.map lower = b.chars.map lower
  order : ∀ r r', strcasecmp a.mem b.mem = some r → strcasecmp b.mem a.mem = some r' → r.sign = -r'.sign

theorem lower_upper (b : Byte) : lower (upper b) = lower b := by
  revert b
  decide +kernel

theorem upper_lower (b : Byte) : upper (lower b) = upper b := by
  revert b
  decide +kernel

theorem upper_eq_iff (a b : Byte) : upper a = upper b ↔ lower a = lower b := by
  constructor
  · intro h
    rw [← lower_upper a, h, lower_upper]
  · intro h
    rw [← upper_lower a, h, upper_lower]

/-- The first letters that differ are told, in one direction like in the other. -/
theorem strcasecmp_cons {a b : Byte} (ha : a ≠ 0#8) (hb : b ≠ 0#8) (s t : List Byte) :
    strcasecmp (a :: s) (b :: t) = if lower a = lower b then strcasecmp s t else some 1 := by
  rw [strcasecmp, if_neg (by simp only [ha, hb, or_self, not_false_eq_true])]
  by_cases hab : a = b
  · rw [if_pos hab, if_pos (congrArg lower hab)]
  · rw [if_neg hab]
    by_cases hlow : lower a = lower b
    · rw [if_neg (not_not.mpr ((upper_eq_iff a b).mpr hlow)), if_pos hlow]
    · rw [if_pos (mt (upper_eq_iff a b).mp hlow), if_neg hlow]

/-- Where neither string starts with the other one, the comparison gives 1, else 0. -/
theorem strcasecmp_eq {s t : List Byte} (hs : 0#8 ∉ s) (ht : 0#8 ∉ t) :
    strcasecmp (s ++ [0#8]) (t ++ [0#8]) =
      some (if (s.map lower).IsPrefix (t.map lower) ∨ (t.map lower).IsPrefix (s.map lower) then 0 else 1) := by
  induction s generalizing t with
  | nil =>
    rw [List.map_nil, if_pos (Or.inl List.nil_prefix)]
    cases t <;> rfl
  | cons a s ih =>
    have ha : a ≠ 0#8 := fun h => hs (h ▸ List.mem_cons_self)
    cases t with
    | nil =>
      rw [List.map_nil, if_pos (Or.inr List.nil_prefix)]
      exact if_pos (Or.inr rfl)
    | cons b t =>
      have hb : b ≠ 0#8 := fun h => ht (h ▸ List.mem_cons_self)
      rw [List.cons_append, List.cons_append, strcasecmp_cons ha hb, List.map_cons, List.map_cons]
      simp only [List.cons_prefix_cons]
      by_cases hlow : lower a = lower b
      · rw [if_pos hlow, ih (fun h => hs (List.mem_cons_of_mem a h)) (fun h => ht (List.mem_cons_of_mem b h))]
        simp only [hlow, true_and]
      · rw [if_neg hlow, if_neg]
        rintro (⟨h, -⟩ | ⟨h, -⟩)
        · exact hlow h
        · exact hlow h.symm

/-- The comparison does not depend on the order of the strings. -/
theorem strcasecmp_comm (a b : Str) : strcasecmp a.mem b.mem = strcasecmp b.mem a.mem := by
  rw [Str.mem, Str.mem, strcasecmp_eq a.noNul b.noNul, strcasecmp_eq b.noNul a.noNul]
  simp only [or_comm]

/-- `strcasecmp` is right for the strings that are equal and for no others. -/
theorem decides_iff (a b : Str) : Decides a b ↔ a.chars.map lower = b.chars.map lower := by
  have heq := strcasecmp_eq a.noNul b.noNul
  constructor
  · intro h
    by_contra hne
    have hpre : ¬ ((a.chars.map lower).IsPrefix (b.chars.map lower) ∨
        (b.chars.map lower).IsPrefix (a.chars.map lower)) := by
      intro hpre
      rw [if_pos hpre] at heq
      exact hne (h.equal.mp heq)
    rw [if_neg hpre] at heq
    -- the two directions give the same sign
    have hback : strcasecmp b.mem a.mem = some 1 := (strcasecmp_comm b a).trans heq
    exact absurd (h.order 1 1 heq hback) (by decide)
  · intro h
    have hzero : strcasecmp a.mem b.mem = some 0 := by
      rw [Str.mem, Str.mem, heq, if_pos (Or.inl (h ▸ List.prefix_rfl))]
    refine ⟨by rw [hzero]; rfl, ⟨fun _ => h, fun _ => hzero⟩, fun r r' hr hr' => ?_⟩
    rw [hzero] at hr
    rw [← strcasecmp_comm, hzero] at hr'
    obtain rfl := Option.some.inj hr
    obtain rfl := Option.some.inj hr'
    rfl

/-- A string is taken for a longer one, and two letters are each greater than the other. -/
theorem not_decides : ¬ Decides ⟨lit "ab", by decide⟩ ⟨lit "abc", by decide⟩ ∧
    ¬ Decides ⟨lit "a", by decide⟩ ⟨lit "b", by decide⟩ := by
  constructor
  · intro h
    exact absurd (h.equal.mp (by decide)) (by decide)
  · intro h
    exact absurd (h.order 1 1 (by decide) (by decide)) (by decide)

/-! ## The last occurrence -/

/-- The loop of `memrchr` with `t` at byte `i`: the bytes it reads and the one it finds. -/
def memrchrLoop (s : Nat → Byte) (c : Byte) : Nat → List Nat × Option Nat
  | 0 => ([], none)
  | i + 1 =>
    if s (i + 1) = c then ([i + 1], some (i + 1))
    else ((i + 1) :: (memrchrLoop s c i).1, (memrchrLoop s c i).2)

/-- `memrchr` on the memory from `s` on -/
def memrchr (s : Nat → Byte) (c : Byte) (n : Nat) : List Nat × Option Nat := memrchrLoop s c n

/-- Byte `i` is the last one of the buffer with the value `c`. -/
def IsLast (s : Nat → Byte) (c : Byte) (n i : Nat) : Prop := i < n ∧ s i = c ∧ ∀ j, i < j → j < n → s j ≠ c

/-- The search reads the buffer only, and finds the last occurrence or that there is none. -/
structure FindsLast (s : Nat → Byte) (c : Byte) (n : Nat) : Prop where
  inside : ∀ k ∈ (memrchr s c n).1, k < n
  found : ∀ i, (memrchr s c n).2 = some i → IsLast s c n i
  absent : (memrchr s c n).2 = none → ∀ i < n, s i ≠ c

/-- What the search finds is the last occurrence in the bytes from the second one to the one behind the
buffer. -/
theorem memrchr_spec (s : Nat → Byte) (c : Byte) (n : Nat) :
    match (memrchr s c n).2 with
    | some i => 0 < i ∧ i ≤ n ∧ s i = c ∧ ∀ j, i < j → j ≤ n → s j ≠ c
    | none => ∀ j, 0 < j → j ≤ n → s j ≠ c := by
  unfold memrchr
  induction n with
  | zero =>
    intro j hpos hle
    omega
  | succ n ih =>
    rw [memrchrLoop]
    by_cases hc : s (n + 1) = c
    · rw [if_pos hc]
      refine ⟨Nat.succ_pos n, Nat.le_refl _, hc, fun j hlt hle => ?_⟩
      omega
    · rw [if_neg hc]
      have hlast : ∀ j, j ≤ n + 1 → j ≤ n ∨ s j ≠ c := by
        intro j hle
        rcases Nat.le_succ_iff.mp hle with hle | rfl
        · exact Or.inl hle
        · exact Or.inr hc
      cases hloop : (memrchrLoop s c n).2 with
      | some i =>
        rw [hloop] at ih
        obtain ⟨hpos, hle, hi, hno⟩ := ih
        refine ⟨hpos, Nat.le_succ_of_le hle, hi, fun j hlt hj => ?_⟩
        exact (hlast j hj).elim (hno j hlt) id
      | none =>
        rw [hloop] at ih
        exact fun j hpos hj => (hlast j hj).elim (ih j hpos) id

/-- `memrchr` is right for no bytes and for nothing else: it looks at the byte behind the buffer first. -/
theorem findsLast_iff (s : Nat → Byte) (c : Byte) (n : Nat) : FindsLast s c n ↔ n = 0 := by
  constructor
  · intro h
    cases n with
    | zero => rfl
    | succ n =>
      have hread : n + 1 ∈ (memrchr s c (n + 1)).1 := by
        rw [memrchr, memrchrLoop]
        split
        · exact List.mem_cons_self
        · exact List.mem_cons_self
      exact absurd (h.inside (n + 1) hread) (Nat.lt_irrefl _)
  · rintro rfl
    exact ⟨nofun, nofun, fun _ i hi => absurd hi (Nat.not_lt_zero i)⟩

/-- The only byte of a buffer is not found, and one behind the buffer is. -/
theorem not_findsLast : ¬ FindsLast (fun i => if i = 0 then 0x61#8 else 0#8) 0x61#8 1 ∧
    ¬ FindsLast (fun i => if i = 1 then 0x61#8 else 0#8) 0x61#8 1 := by
  constructor
  · intro h
    exact absurd rfl (h.absent (by decide) 0 (by decide))
  · intro h
    exact absurd (h.found 1 (by decide)).1 (by decide)

end WmIot.Utils
