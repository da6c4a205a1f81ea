import Mathlib

/-!
# The proleptic Gregorian calendar

Dates in their order, from Thursday 1 January 1970 on: the date of a day number is what counting the
days one by one gives. Months, week days and days of a year count from zero, Sunday is the first day of a
week.
-/

namespace WmIot.Gregorian
set_option autoImplicit false

def isLeap (year : Nat) : Bool := year % 4 = 0 && (year % 100 ≠ 0 || year % 400 = 0)

def yearDays (year : Nat) : Nat := if isLeap year then 366 else 365

/-- The lengths of the months; there is none from the thirteenth on. -/
def monthDays (leap : Bool) : Nat → Nat
  | 0 => 31
  | 1 => if leap then 29 else 28
  | 2 => 31
  | 3 => 30
  | 4 => 31
  | 5 => 30
  | 6 => 31
  | 7 => 31
  | 8 => 30
  | 9 => 31
  | 10 => 30
  | 11 => 31
  | _ => 0

structure Date where
  year : Nat
  month : Nat
  /-- from one on -/
  day : Nat
  weekday : Nat
  yearday : Nat
deriving DecidableEq, Repr

def epoch : Date := ⟨1970, 0, 1, 4, 0⟩

/-- The next day. -/
def Date.next (d : Date) : Date :=
  let weekday := (d.weekday + 1) % 7
  if d.day < monthDays (isLeap d.year) d.month then
    { d with day := d.day + 1, weekday := weekday, yearday := d.yearday + 1 }
  else if d.month < 11 then
    { d with month := d.month + 1, day := 1, weekday := weekday, yearday := d.yearday + 1 }
  else ⟨d.year + 1, 0, 1, weekday, 0⟩

/-- The date of a day number. -/
def dateAt : Nat → Date
  | 0 => epoch
  | n + 1 => (dateAt n).next

/-- The fields are in their ranges. -/
structure Date.Valid (d : Date) : Prop where
  month : d.month < 12
  day_pos : 1 ≤ d.day
  day_le : d.day ≤ monthDays (isLeap d.year) d.month
  weekday : d.weekday < 7
  yearday : d.yearday < yearDays d.year

/-! ## Days before a year and before a month -/

/-- The days before the year `1970 + n`. -/
def yearStart : Nat → Nat
  | 0 => 0
  | n + 1 => yearStart n + yearDays (1970 + n)

def monthStart (leap : Bool) : Nat → Nat
  | 0 => 0
  | n + 1 => monthStart leap n + monthDays leap n

theorem monthStart_year (year : Nat) : monthStart (isLeap year) 12 = yearDays year := by
  unfold yearDays
  cases isLeap year <;> rfl

theorem yearStart_monotone : Monotone yearStart :=
  monotone_nat_of_le_succ fun _ => Nat.le_add_right _ _

theorem monthStart_monotone (leap : Bool) : Monotone (monthStart leap) :=
  monotone_nat_of_le_succ fun _ => Nat.le_add_right _ _

/-- A number lies between two neighbours of a monotone sequence at one place only. -/
theorem place_unique {f : Nat → Nat} (hf : Monotone f) {x m n : Nat} (hm : f m ≤ x) (hm' : x < f (m + 1))
    (hn : f n ≤ x) (hn' : x < f (n + 1)) : m = n := by
  rcases Nat.lt_trichotomy m n with hlt | heq | hgt
  · have : f (m + 1) ≤ f n := hf hlt
    omega
  · exact heq
  · have : f (n + 1) ≤ f m := hf hgt
    omega

/-- The leap days before a year in closed form. -/
theorem yearStart_eq (n : Nat) : yearStart n + 477 =
    365 * n + ((1969 + n) / 4 - (1969 + n) / 100 + (1969 + n) / 400) := by
  induction n with
  | zero => rfl
  | succ n ih =>
    have hdays : yearDays (1970 + n) + ((1969 + n) / 4 - (1969 + n) / 100 + (1969 + n) / 400) =
        365 + ((1970 + n) / 4 - (1970 + n) / 100 + (1970 + n) / 400) := by
      unfold yearDays
      split
      next h =>
        simp only [isLeap, Bool.and_eq_true, Bool.or_eq_true, decide_eq_true_eq] at h
        omega
      next h =>
        simp only [isLeap, Bool.and_eq_true, Bool.or_eq_true, decide_eq_true_eq] at h
        omega
    rw [yearStart, show 1969 + (n + 1) = 1970 + n by omega]
    omega

/-! ## Dates -/

/-- What the date of a day is: the year, month and day that the numbers of days before them leave. -/
structure DayOf (n : Nat) (d : Date) : Prop extends d.Valid where
  year : 1970 ≤ d.year
  total : yearStart (d.year - 1970) + d.yearday = n
  inYear : monthStart (isLeap d.year) d.month + d.day = d.yearday + 1
  week : d.weekday = (4 + n) % 7

theorem DayOf.unique {n : Nat} {d d' : Date} (h : DayOf n d) (h' : DayOf n d') : d = d' := by
  have hyear : d.year - 1970 = d'.year - 1970 := by
    have hlt := h.yearday
    have hlt' := h'.yearday
    have hle := h.year
    have hle' := h'.year
    have htotal := h.total
    have htotal' := h'.total
    refine place_unique yearStart_monotone (x := n) (by omega) ?_ (by omega) ?_
    · rw [yearStart, show 1970 + (d.year - 1970) = d.year by omega]
      omega
    · rw [yearStart, show 1970 + (d'.year - 1970) = d'.year by omega]
      omega
  have hyear : d.year = d'.year := by
    have := h.year
    have := h'.year
    omega
  have hyearday : d.yearday = d'.yearday := by
    have htotal := h.total
    have htotal' := h'.total
    rw [hyear] at htotal
    omega
  have hmonth : d.month = d'.month := by
    have hin := h.inYear
    have hin' := h'.inYear
    have hle := h.day_le
    have hle' := h'.day_le
    have hpos := h.day_pos
    have hpos' := h'.day_pos
    rw [hyear] at hin hle
    refine place_unique (monthStart_monotone (isLeap d'.year)) (x := d'.yearday) (by omega) ?_ (by omega) ?_
    · rw [monthStart]
      omega
    · rw [monthStart]
      omega
  have hday : d.day = d'.day := by
    have hin := h.inYear
    have hin' := h'.inYear
    rw [hyear, hmonth] at hin
    omega
  have hweek : d.weekday = d'.weekday := h.week.trans h'.week.symm
  cases d
  cases d'
  simp only [Date.mk.injEq]
  exact ⟨hyear, hmonth, hday, hweek, hyearday⟩

theorem DayOf.next {n : Nat} {d : Date} (h : DayOf n d) : DayOf (n + 1) d.next := by
  have hmonth := h.month
  have hpos := h.day_pos
  have hle := h.day_le
  have htotal := h.total
  have hin := h.inYear
  have hweek : (d.weekday + 1) % 7 = (4 + (n + 1)) % 7 := by
    rw [h.week]
    omega
  have hweekday : (d.weekday + 1) % 7 < 7 := Nat.mod_lt _ (by decide)
  have hend := monthStart_year d.year
  have hstart : monthStart (isLeap d.year) (d.month + 1) ≤ monthStart (isLeap d.year) 12 :=
    monthStart_monotone _ hmonth
  rw [monthStart] at hstart
  unfold Date.next
  dsimp only
  split
  next hday =>
    refine ⟨⟨hmonth, Nat.le_add_left 1 _, hday, hweekday, ?_⟩, h.year, ?_, ?_, hweek⟩
    · dsimp only
      omega
    · dsimp only
      omega
    · dsimp only
      omega
  next hday =>
    split
    next hlast =>
      have hlater : monthStart (isLeap d.year) (d.month + 1 + 1) ≤ monthStart (isLeap d.year) 12 :=
        monthStart_monotone _ (Nat.succ_lt_succ hlast)
      have hnext : 1 ≤ monthDays (isLeap d.year) (d.month + 1) := by
        have hcases : ∀ leap : Bool, ∀ m < 11, 1 ≤ monthDays leap (m + 1) := by decide
        exact hcases _ _ hlast
      rw [monthStart, monthStart] at hlater
      refine ⟨⟨Nat.succ_lt_succ hlast, Nat.le_refl 1, hnext, hweekday, ?_⟩, h.year, ?_, ?_, hweek⟩
      · dsimp only
        omega
      · dsimp only
        omega
      · dsimp only
        rw [monthStart]
        omega
    next hlast =>
      obtain hmonth : d.month = 11 := by omega
      have hwhole : monthStart (isLeap d.year) 12 = monthStart (isLeap d.year) 11 + monthDays (isLeap d.year) 11 :=
        rfl
      have hyear := h.year
      have hfirst : 1 ≤ 31 := by decide
      have hpositive : 0 < yearDays (d.year + 1) := by
        unfold yearDays
        split <;> decide
      rw [hmonth] at hin hle hday
      refine ⟨⟨Nat.zero_lt_succ 11, Nat.le_refl 1, hfirst, hweekday, hpositive⟩, Nat.le_succ_of_le hyear, ?_, rfl, hweek⟩
      dsimp only
      rw [show d.year + 1 - 1970 = d.year - 1970 + 1 by omega, yearStart,
        show 1970 + (d.year - 1970) = d.year by omega]
      omega

theorem dayOf_dateAt (n : Nat) : DayOf n (dateAt n) := by
  induction n with
  | zero => exact ⟨⟨by decide, by decide, by decide, by decide, by decide⟩, by decide, rfl, rfl, rfl⟩
  | succ n ih => exact ih.next

theorem dateAt_valid (n : Nat) : (dateAt n).Valid := (dayOf_dateAt n).toValid

theorem DayOf.eq_dateAt {n : Nat} {d : Date} (h : DayOf n d) : d = dateAt n := h.unique (dayOf_dateAt n)

example : dateAt 59 = ⟨1970, 2, 1, 0, 59⟩ := by decide +kernel

end WmIot.Gregorian
