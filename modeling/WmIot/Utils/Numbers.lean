import WmIot.Lib.CString

/-!
# Numbers in strings

`wm_str2int` of `wm_utils.c`. A string, given by its characters, is accepted if it has digits only, of
one radix or the other, and then read by `strtol`, which takes the radix from the first characters.
-/

namespace WmIot.Utils
open CString
set_option autoImplicit false

/-- The value of a character as a digit; 16 if it is none. -/
def digitVal (b : Byte) : Nat :=
  if isdigit b then b.toNat - 0x30
  else if 0x61#8 ≤ b ∧ b ≤ 0x66#8 then b.toNat - 0x57
  else if 0x41#8 ≤ b ∧ b ≤ 0x46#8 then b.toNat - 0x37
  else 16

def isxdigit (b : Byte) : Bool := digitVal b < 16

/-- The number of the digits behind the number `v`. -/
def numeralFrom (radix v : Nat) (ds : List Byte) : Nat := ds.foldl (fun v b => radix * v + digitVal b) v

def numeral (radix : Nat) (ds : List Byte) : Nat := numeralFrom radix 0 ds

/-- The digits of a radix at the front of a string. -/
def leading (radix : Nat) (s : List Byte) : List Byte := s.takeWhile fun b => digitVal b < radix

/-- `0x` or `0X` in front of a string -/
def isHexMark (a x : Byte) : Bool := a = 0x30#8 && (x = 0x78#8 || x = 0x58#8)

/-- The number `strtol` reads behind a sign: hexadecimal, octal or decimal. -/
def readNumber : List Byte → Nat
  | [] => 0
  | [a] => numeral 10 (leading 10 [a])
  | a :: x :: s =>
    if isHexMark a x then numeral 16 (leading 16 s)
    else if a = 0x30#8 then numeral 8 (leading 8 (a :: x :: s))
    else numeral 10 (leading 10 (a :: x :: s))

/-- `strtol` with base 0; a `long` has 32 bits. -/
def strtol (s : List Byte) : Int :=
  match s.dropWhile isspace with
  | [] => 0
  | b :: s =>
    if b = 0x2D#8 then max (-2147483648) (-(readNumber s : Int))
    else if b = 0x2B#8 then min 2147483647 (readNumber s : Int)
    else min 2147483647 (readNumber (b :: s) : Int)

def wmIsdigitstr (s : List Byte) : Bool := s.all isdigit

def wmIshexstr : List Byte → Bool
  | a :: x :: s => if isHexMark a x then s.all isxdigit else (a :: x :: s).all isxdigit
  | s => s.all isxdigit

def wmIsnumstr (s : List Byte) : Bool := wmIsdigitstr s || wmIshexstr s

/-- `wm_str2int`: the value, or none for `WM_ERR_FAILED` -/
def wmStr2int (s : List Byte) : Option Int := if wmIsnumstr s then some (strtol s) else none

/-! ## Literals -/

/-- The literals without a sign and what they denote. -/
inductive Unsigned : List Byte → Nat → Prop where
  | decimal {ds : List Byte} (hne : ds ≠ []) (hds : ∀ b ∈ ds, isdigit b) : Unsigned ds (numeral 10 ds)
  | hex {a x : Byte} {ds : List Byte} (hmark : isHexMark a x) (hne : ds ≠ []) (hds : ∀ b ∈ ds, isxdigit b) :
      Unsigned (a :: x :: ds) (numeral 16 ds)

/-- The integer literals. -/
inductive Denotes : List Byte → Int → Prop where
  | unsigned {s : List Byte} {n : Nat} (h : Unsigned s n) : Denotes s n
  | plus {s : List Byte} {n : Nat} (h : Unsigned s n) : Denotes (0x2B#8 :: s) n
  | minus {s : List Byte} {n : Nat} (h : Unsigned s n) : Denotes (0x2D#8 :: s) (-n)

/-- The values of an `int` -/
def FitsInt (v : Int) : Prop := -2147483648 ≤ v ∧ v ≤ 2147483647

/-- The literals that fit are accepted, with what they denote, and nothing else is. -/
structure Parsed (s : List Byte) : Prop where
  accepted : (wmStr2int s).isSome ↔ ∃ v, Denotes s v ∧ FitsInt v
  value : ∀ v, wmStr2int s = some v → Denotes s v

/-- The strings that are treated right: literals without a sign that fit, decimal ones without a zero in
front unless they are below 8, and what is refused and is no literal with a sign that fits. -/
inductive Covered : List Byte → Prop where
  | decimal {ds : List Byte} (hne : ds ≠ []) (hds : ∀ b ∈ ds, isdigit b)
      (hzero : ds.head? = some 0x30#8 → numeral 10 ds ≤ 7) (hfits : numeral 10 ds ≤ 2147483647) : Covered ds
  | hex {a x : Byte} {ds : List Byte} (hmark : isHexMark a x) (hne : ds ≠ []) (hds : ∀ b ∈ ds, isxdigit b)
      (hfits : numeral 16 ds ≤ 2147483647) : Covered (a :: x :: ds)
  | refused {s : List Byte} (hrefused : wmIsnumstr s = false)
      (hsign : ∀ t n, Unsigned t n → (s = 0x2B#8 :: t → ¬ FitsInt n) ∧ (s = 0x2D#8 :: t → ¬ FitsInt (-n))) : Covered s

/-! ## Digits -/

section Digits
variable {b : Byte} {s ds : List Byte} {v w : Nat}

theorem digitVal_lt (h : isdigit b) : digitVal b < 10 := by
  obtain ⟨hlo, hhi⟩ := isdigit_iff.mp h
  rw [digitVal, if_pos h]
  have htop : b.toNat ≤ 0x39 := hhi
  omega

theorem isxdigit_of_isdigit (h : isdigit b) : isxdigit b :=
  decide_eq_true (Nat.lt_trans (digitVal_lt h) (by decide))

theorem isxdigit_lt (h : isxdigit b) : digitVal b < 16 := of_decide_eq_true h

theorem leading_eq {radix : Nat} (h : ∀ b ∈ ds, digitVal b < radix) : leading radix ds = ds :=
  List.takeWhile_eq_self_iff.mpr fun b hb => decide_eq_true (h b hb)

theorem not_isspace_of_isxdigit (h : isxdigit b) : isspace b = false := by
  revert h
  revert b
  decide +kernel

theorem not_sign_of_isxdigit (h : isxdigit b) : b ≠ 0x2D#8 ∧ b ≠ 0x2B#8 := by
  revert h
  revert b
  decide +kernel

theorem not_isxdigit_of_mark {a x : Byte} (h : isHexMark a x) : isxdigit x = false ∧ a = 0x30#8 := by
  simp only [isHexMark, Bool.and_eq_true, Bool.or_eq_true, decide_eq_true_eq] at h
  obtain ⟨rfl, rfl | rfl⟩ := h
  · exact ⟨by decide, rfl⟩
  · exact ⟨by decide, rfl⟩

theorem numeralFrom_cons (radix v : Nat) (b : Byte) (ds : List Byte) :
    numeralFrom radix v (b :: ds) = numeralFrom radix (radix * v + digitVal b) ds := rfl

theorem le_numeralFrom (ds : List Byte) (v : Nat) : v ≤ numeralFrom 10 v ds := by
  induction ds generalizing v with
  | nil => exact Nat.le_refl v
  | cons b ds ih =>
    rw [numeralFrom_cons]
    exact Nat.le_trans (by omega) (ih _)

theorem leading_cons (b : Byte) (ds : List Byte) :
    leading 8 (b :: ds) = if digitVal b < 8 then b :: leading 8 ds else [] := by
  rw [leading, List.takeWhile_cons]
  simp only [decide_eq_true_eq]
  rfl

/-- Octal digits make a smaller number than the decimal ones, by what they start with at least. -/
theorem octal_add_le (ds : List Byte) (h : w ≤ v) :
    numeralFrom 8 w (leading 8 ds) + (v - w) ≤ numeralFrom 10 v ds := by
  induction ds generalizing v w with
  | nil =>
    show w + (v - w) ≤ v
    omega
  | cons b ds ih =>
    rw [leading_cons]
    split
    next =>
      have hrest : numeralFrom 8 (8 * w + digitVal b) (leading 8 ds) + (10 * v + digitVal b - (8 * w + digitVal b)) ≤
          numeralFrom 10 (10 * v + digitVal b) ds := ih (by omega)
      rw [numeralFrom_cons, numeralFrom_cons]
      omega
    next =>
      have hle := le_numeralFrom ds (10 * v + digitVal b)
      have hnone : numeralFrom 8 w ([] : List Byte) = w := rfl
      rw [numeralFrom_cons, hnone]
      omega

theorem octal_le (ds : List Byte) : numeral 8 (leading 8 ds) ≤ numeral 10 ds :=
  octal_add_le ds (Nat.le_refl 0)

/-- The octal reading is that of decimal digits below 8 only. -/
theorem octal_eq_iff : numeral 8 (leading 8 ds) = numeral 10 ds ↔ numeral 10 ds ≤ 7 := by
  unfold numeral
  induction ds with
  | nil => exact ⟨fun _ => by decide, fun _ => rfl⟩
  | cons b ds ih =>
    have hle := le_numeralFrom ds (digitVal b)
    rw [numeralFrom_cons, leading_cons, Nat.mul_zero, Nat.zero_add]
    by_cases hzero : digitVal b = 0
    · rw [if_pos (by omega), numeralFrom_cons, hzero]
      exact ih
    · by_cases hoct : digitVal b < 8
      · rw [if_pos hoct, numeralFrom_cons, Nat.mul_zero, Nat.zero_add]
        cases ds with
        | nil => exact ⟨fun _ => Nat.le_of_lt_succ hoct, fun _ => rfl⟩
        | cons c ds =>
          have hmore := le_numeralFrom ds (10 * digitVal b + digitVal c)
          -- a second digit makes the readings differ
          have hless : numeralFrom 8 (digitVal b) (leading 8 (c :: ds)) < numeralFrom 10 (digitVal b) (c :: ds) := by
            rw [leading_cons]
            split
            next =>
              have hrest : numeralFrom 8 (8 * digitVal b + digitVal c) (leading 8 ds) +
                  (10 * digitVal b + digitVal c - (8 * digitVal b + digitVal c)) ≤
                  numeralFrom 10 (10 * digitVal b + digitVal c) ds := octal_add_le ds (by omega)
              rw [numeralFrom_cons, numeralFrom_cons]
              omega
            next =>
              have hnone : numeralFrom 8 (digitVal b) ([] : List Byte) = digitVal b := rfl
              rw [numeralFrom_cons, hnone]
              omega
          rw [numeralFrom_cons] at hless ⊢
          omega
      · have hnone : numeralFrom 8 0 ([] : List Byte) = 0 := rfl
        rw [if_neg hoct, hnone]
        omega

end Digits

/-! ## Reading -/

section Read
variable {b a x : Byte} {s ds : List Byte} {n : Nat} {v : Int}

/-- A string of digits is read without a sign. -/
theorem strtol_digit (h : isxdigit b) (s : List Byte) :
    strtol (b :: s) = min 2147483647 (readNumber (b :: s) : Int) := by
  obtain ⟨hminus, hplus⟩ := not_sign_of_isxdigit h
  rw [strtol, List.dropWhile_cons_of_neg (by rw [not_isspace_of_isxdigit h]; exact Bool.false_ne_true)]
  dsimp only
  rw [if_neg hminus, if_neg hplus]

theorem readNumber_hex (hmark : isHexMark a x) (hds : ∀ b ∈ ds, isxdigit b) :
    readNumber (a :: x :: ds) = numeral 16 ds := by
  rw [readNumber, if_pos hmark, leading_eq fun b hb => isxdigit_lt (hds b hb)]

/-- Digits are read as octal ones behind a zero. -/
theorem readNumber_digits (hds : ∀ b ∈ ds, isdigit b) :
    readNumber ds = if ds.head? = some 0x30#8 ∧ 2 ≤ ds.length then numeral 8 (leading 8 ds) else numeral 10 ds := by
  have hdec : leading 10 ds = ds := leading_eq fun b hb => digitVal_lt (hds b hb)
  match ds with
  | [] => rfl
  | [a] =>
    rw [readNumber, hdec, if_neg (fun h => Nat.lt_irrefl 1 h.2)]
  | a :: x :: ds =>
    have hmark : ¬ isHexMark a x := by
      intro h
      have hx := isxdigit_of_isdigit (hds x (List.mem_cons_of_mem a List.mem_cons_self))
      rw [(not_isxdigit_of_mark h).1] at hx
      cases hx
    rw [readNumber, if_neg hmark, hdec]
    refine if_congr ?_ rfl rfl
    simp only [List.head?_cons, Option.some.injEq, List.length_cons]
    exact ⟨fun h => ⟨h, by omega⟩, fun h => h.1⟩

theorem readNumber_decimal (hds : ∀ b ∈ ds, isdigit b) (hzero : ds.head? = some 0x30#8 → numeral 10 ds ≤ 7) :
    readNumber ds = numeral 10 ds := by
  rw [readNumber_digits hds]
  split
  next h => exact octal_eq_iff.mpr (hzero h.1)
  next => rfl

theorem wmIsnumstr_decimal (hds : ∀ b ∈ ds, isdigit b) : wmIsnumstr ds = true := by
  rw [wmIsnumstr, wmIsdigitstr, List.all_eq_true.mpr hds]
  rfl

theorem wmIsnumstr_hex (hmark : isHexMark a x) (hds : ∀ b ∈ ds, isxdigit b) : wmIsnumstr (a :: x :: ds) = true := by
  rw [wmIsnumstr, wmIshexstr, if_pos hmark, List.all_eq_true.mpr hds, Bool.or_true]

theorem Unsigned.accepted (h : Unsigned s n) : wmIsnumstr s = true := by
  cases h with
  | decimal _ hds => exact wmIsnumstr_decimal hds
  | hex hmark _ hds => exact wmIsnumstr_hex hmark hds

/-- The first character of what is accepted is a digit. -/
theorem isxdigit_of_accepted (h : wmIsnumstr (b :: s) = true) : isxdigit b := by
  have hfirst : ∀ {t : List Byte}, (b :: t).all isxdigit = true → isxdigit b :=
    fun hall => List.all_eq_true.mp hall b List.mem_cons_self
  rw [wmIsnumstr, Bool.or_eq_true] at h
  rcases h with hdec | hhex
  · exact isxdigit_of_isdigit (List.all_eq_true.mp hdec b List.mem_cons_self)
  · cases s with
    | nil => exact hfirst hhex
    | cons c s =>
      rw [wmIshexstr] at hhex
      split at hhex
      next hmark =>
        rw [(not_isxdigit_of_mark hmark).2]
        decide
      next => exact hfirst hhex

/-- Digits denote their number only. -/
theorem Denotes.of_digits (h : Denotes ds v) (hds : ∀ b ∈ ds, isdigit b) : v = numeral 10 ds := by
  cases h with
  | unsigned h =>
    cases h with
    | decimal => rfl
    | @hex a x ds hmark =>
      have hx := isxdigit_of_isdigit (hds x (List.mem_cons_of_mem a List.mem_cons_self))
      rw [(not_isxdigit_of_mark hmark).1] at hx
      cases hx
  | plus h => exact absurd (hds 0x2B#8 List.mem_cons_self) (by decide)
  | minus h => exact absurd (hds 0x2D#8 List.mem_cons_self) (by decide)

theorem Unsigned.fits (h : FitsInt (n : Int)) : n ≤ 2147483647 := by
  have hle := h.2
  omega

theorem fitsInt_ofNat (h : n ≤ 2147483647) : FitsInt (n : Int) := ⟨by omega, by omega⟩

/-- A literal that is accepted with what it denotes is treated right. -/
theorem Parsed.of_value (hnum : wmIsnumstr s = true) (hs : Denotes s (n : Int)) (hfits : n ≤ 2147483647)
    (hread : strtol s = n) : Parsed s := by
  have hsome : wmStr2int s = some (n : Int) := by rw [wmStr2int, if_pos hnum, hread]
  refine ⟨⟨fun _ => ⟨n, hs, fitsInt_ofNat hfits⟩, fun _ => by rw [hsome]; rfl⟩, fun v hv => ?_⟩
  rw [hsome] at hv
  obtain rfl := Option.some.inj hv
  exact hs

/-- `wm_str2int` is right for the covered strings and for no others. -/
theorem parsed_iff_covered (s : List Byte) : Parsed s ↔ Covered s := by
  constructor
  · intro h
    cases hnum : wmIsnumstr s with
    | false =>
      have hnone : wmStr2int s = none := by rw [wmStr2int, hnum, if_neg Bool.false_ne_true]
      have hno : ∀ v, Denotes s v → ¬ FitsInt v := by
        intro v hv hfits
        have hsome := h.accepted.mpr ⟨v, hv, hfits⟩
        rw [hnone] at hsome
        cases hsome
      refine .refused hnum fun t n ht => ⟨fun hs => ?_, fun hs => ?_⟩
      · exact hno _ (hs ▸ .plus ht)
      · exact hno _ (hs ▸ .minus ht)
    | true =>
      have hread : wmStr2int s = some (strtol s) := if_pos hnum
      obtain ⟨v, hv, hfits⟩ := h.accepted.mp (by rw [hread]; rfl)
      have hvalue := h.value _ hread
      cases hv with
      | unsigned hs =>
        have hle := Unsigned.fits hfits
        cases hs with
        | decimal hne hds =>
          refine .decimal hne hds (fun hzero => ?_) hle
          -- a zero in front makes the reading octal
          obtain ⟨b, t, rfl⟩ := List.exists_cons_of_ne_nil hne
          have hnumeral := hvalue.of_digits hds
          rw [strtol_digit (isxdigit_of_isdigit (hds b List.mem_cons_self)), readNumber_digits hds] at hnumeral
          split at hnumeral
          next =>
            have hle' := octal_le (b :: t)
            apply octal_eq_iff.mp
            omega
          next hshort =>
            have hnil : t = [] := by
              apply List.eq_nil_of_length_eq_zero
              have hlen : ¬ 2 ≤ t.length + 1 := fun hlen => hshort ⟨hzero, hlen⟩
              omega
            have hb : b = 0x30#8 := Option.some.inj hzero
            rw [hnil, hb]
            decide
        | hex hmark hne hds => exact .hex hmark hne hds hle
      | plus hs => exact absurd (isxdigit_of_accepted hnum) (by decide)
      | minus hs => exact absurd (isxdigit_of_accepted hnum) (by decide)
  · intro h
    cases h with
    | decimal hne hds hzero hfits =>
      apply Parsed.of_value (wmIsnumstr_decimal hds) (.unsigned (.decimal hne hds)) hfits
      obtain ⟨b, t, rfl⟩ := List.exists_cons_of_ne_nil hne
      rw [strtol_digit (isxdigit_of_isdigit (hds b List.mem_cons_self)), readNumber_decimal hds hzero]
      omega
    | hex hmark hne hds hfits =>
      apply Parsed.of_value (wmIsnumstr_hex hmark hds) (.unsigned (.hex hmark hne hds)) hfits
      have hfirst := (not_isxdigit_of_mark hmark).2
      rw [strtol_digit (by rw [hfirst]; decide), readNumber_hex hmark hds]
      omega
    | refused hnum hsign =>
      have hnone : wmStr2int s = none := by rw [wmStr2int, hnum, if_neg Bool.false_ne_true]
      have hno : ∀ v, Denotes s v → ¬ FitsInt v := by
        intro v hv
        cases hv with
        | unsigned hs =>
          rw [hs.accepted] at hnum
          cases hnum
        | plus hs => exact (hsign _ _ hs).1 rfl
        | minus hs => exact (hsign _ _ hs).2 rfl
      refine ⟨⟨fun h => ?_, fun ⟨v, hv, hfits⟩ => absurd hfits (hno v hv)⟩, fun v hv => ?_⟩
      · rw [hnone] at h
        cases h
      · rw [hnone] at hv
        cases hv

end Read

/-- The empty string, a sign, a zero in front and hexadecimal digits without a mark. -/
theorem not_parsed : ¬ Parsed [] ∧ ¬ Parsed (lit "-5") ∧ ¬ Parsed (lit "010") ∧ ¬ Parsed (lit "ff") ∧
    ¬ Parsed (lit "2147483648") := by
  refine ⟨fun h => ?_, fun h => ?_, fun h => ?_, fun h => ?_, fun h => ?_⟩
  · obtain ⟨v, hv, -⟩ := h.accepted.mp (by decide)
    cases hv with
    | unsigned hs =>
      cases hs with
      | decimal hne => exact hne rfl
  · have hminus : Denotes (lit "-5") (-(numeral 10 (lit "5") : Int)) := .minus (.decimal (by decide) (by decide))
    exact absurd (h.accepted.mpr ⟨_, hminus, by decide, by decide⟩) (by decide)
  · exact absurd ((h.value 8 (by decide)).of_digits (by decide)) (by decide)
  · obtain ⟨v, hv, -⟩ := h.accepted.mp (by decide)
    cases hv with
    | unsigned hs =>
      cases hs with
      | decimal hne hds => exact absurd (hds 0x66#8 List.mem_cons_self) (by decide)
      | hex hmark => exact absurd hmark (by decide)
  · exact absurd ((h.value 2147483647 (by decide)).of_digits (by decide)) (by decide)

end WmIot.Utils
