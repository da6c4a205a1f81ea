import WmIot.Time.Calendar

/-!
# The conversions agree with the calendar

Both ways from seconds to fields give the date that counting the days gives, and `mktime` is the way
back. The tables of the months are compared day by day; the years by the days before them.
-/

namespace WmIot.Time
open Gregorian
set_option autoImplicit false

/-- The fields of a date and of the seconds of its day. -/
def tmOf (d : Date) (s : Nat) : Tm where
  sec := s % 60
  min := s / 60 % 60
  hour := s / 3600
  mday := d.day
  mon := d.month
  year := (d.year : Int) - 1900
  wday := d.weekday
  yday := d.yearday
  isdst := 0

/-- Every field is in its range for the calendar. -/
structure Tm.InRange (t : Tm) : Prop where
  sec : 0 ≤ t.sec ∧ t.sec < 60
  min : 0 ≤ t.min ∧ t.min < 60
  hour : 0 ≤ t.hour ∧ t.hour < 24
  mon : 0 ≤ t.mon ∧ t.mon < 12
  mday : 1 ≤ t.mday ∧ t.mday ≤ monthDays (isLeap (t.year + 1900).toNat) t.mon.toNat
  wday : 0 ≤ t.wday ∧ t.wday < 7
  yday : 0 ≤ t.yday ∧ t.yday < yearDays (t.year + 1900).toNat

theorem tmOf_inRange {d : Date} (hd : d.Valid) {s : Nat} (hs : s < 86400) : (tmOf d s).InRange := by
  have hmonth := hd.month
  have hpos := hd.day_pos
  have hle := hd.day_le
  have hweek := hd.weekday
  have hyear := hd.yearday
  have hback : ((d.year : Int) - 1900 + 1900).toNat = d.year := by omega
  constructor <;> simp only [tmOf, hback, Int.toNat_natCast] <;> omega

/-! ## Leap years -/

theorem isleap_cast (y : Nat) : isleap y = isLeap y := by
  unfold isleap isLeap
  rw [Bool.eq_iff_iff]
  simp only [Bool.and_eq_true, Bool.or_eq_true, decide_eq_true_eq]
  rw [Int.tmod_eq_emod_of_nonneg (by omega), Int.tmod_eq_emod_of_nonneg (by omega),
    Int.tmod_eq_emod_of_nonneg (by omega)]
  omega

theorem isLeapYear_cast (y : Nat) : isLeapYear y = isLeap (1900 + y) := by
  unfold isLeapYear isLeap
  rw [Bool.eq_iff_iff]
  simp only [Bool.and_eq_true, Bool.or_eq_true, decide_eq_true_eq]
  rw [Int.tmod_eq_emod_of_nonneg (by omega), Int.tmod_eq_emod_of_nonneg (by omega),
    Int.tmod_eq_emod_of_nonneg (by omega)]
  omega

theorem yearLen_cast (y : Nat) : yearLen y = yearDays y := by
  unfold yearLen yearDays
  rw [isleap_cast]
  split <;> rfl

/-! ## Months -/

/-- A month and a day that are right for a day of the year. -/
def Dated (leap : Bool) (yday mon : Nat) (mday : Int) : Prop :=
  mon < 12 ∧ 0 < mday ∧ mday.toNat ≤ monthDays leap mon ∧ monthStart leap mon + mday.toNat = yday + 1

instance (leap : Bool) (yday mon : Nat) (mday : Int) : Decidable (Dated leap yday mon mday) :=
  inferInstanceAs (Decidable (mon < 12 ∧ 0 < mday ∧ mday.toNat ≤ monthDays leap mon ∧
    monthStart leap mon + mday.toNat = yday + 1))

theorem Dated.date {n year yday mon : Nat} {mday : Int} (h : Dated (isLeap year) yday mon mday)
    (hyear : 1970 ≤ year) (htotal : yearStart (year - 1970) + yday = n) (hyday : yday < yearDays year) :
    dateAt n = ⟨year, mon, mday.toNat, (4 + n) % 7, yday⟩ := by
  obtain ⟨hmon, hpos, hle, hin⟩ := h
  have hday : DayOf n ⟨year, mon, mday.toNat, (4 + n) % 7, yday⟩ :=
    ⟨⟨hmon, by dsimp only; omega, hle, Nat.mod_lt _ (Nat.zero_lt_succ 6), hyday⟩, hyear, htotal, hin, rfl⟩
  exact hday.eq_dateAt.symm

/-- What `gmtime_r` makes of a day of the year. -/
def gmMonth (leap : Bool) (yday : Int) : Int × Nat :=
  let (mday, work) := if leap && yday > 58 then (if yday = 59 then 2 else 1, yday - 1) else ((1 : Int), yday)
  let mon := monthLoop work 11
  (mday + (work - spm.getD mon 0), mon)

theorem gmMonth_dated (leap : Bool) : ∀ yday < if leap then 366 else 365,
    Dated leap yday (gmMonth leap yday).2 (gmMonth leap yday).1 := by
  cases leap <;> decide +kernel

/-- What `timestamp_conversion_to_tm` makes of a day of the year. -/
def tableMonth (leap : Bool) (yday : Int) : Int × Nat :=
  let mdays := if leap then lpdays else days
  let mon := mdaysLoop yday (mdays.drop 1) 1 - 1
  (yday - mdays.getD mon 0, mon)

theorem tableMonth_dated (leap : Bool) : ∀ yday < if leap then 366 else 365,
    Dated leap yday (tableMonth leap yday).2 (tableMonth leap yday).1 := by
  cases leap <;> decide +kernel

/-! ## Seconds to fields -/

/-- The loop over the years stops in the year of the day. -/
theorem yearLoop_spec (work : Nat) : ∀ a : Nat, ∃ b yday : Nat,
    yearLoop ((1970 + a : Nat) : Int) work = (((1970 + b : Nat) : Int), (yday : Int)) ∧
      yearStart b + yday = yearStart a + work ∧ yday < yearDays (1970 + b) := by
  induction work using Nat.strongRecOn with
  | ind work ih =>
    intro a
    have hpos : 0 < yearDays (1970 + a) := by
      unfold yearDays
      split <;> decide
    rw [yearLoop, yearLen_cast]
    split
    next hle =>
      have hle : yearDays (1970 + a) ≤ work := by omega
      obtain ⟨b, yday, hloop, htotal, hlt⟩ := ih (work - yearDays (1970 + a)) (by omega) (a + 1)
      refine ⟨b, yday, ?_, ?_, hlt⟩
      · rw [← hloop]
        congr 1
        omega
      · rw [htotal, yearStart]
        omega
    next hlt => exact ⟨a, work, rfl, rfl, by omega⟩

theorem gmtime_r_eq (n s : Nat) (hs : s < 86400) :
    gmtime_r ((n * 86400 + s : Nat) : Int) = tmOf (dateAt n) s := by
  obtain ⟨b, yday, hloop, htotal, hlt⟩ := yearLoop_spec n 0
  have hdated := gmMonth_dated (isLeap (1970 + b)) yday hlt
  have hdate := hdated.date (n := n) (by omega) (by
    rw [Nat.add_sub_cancel_left, htotal, yearStart, Nat.zero_add]) hlt
  have hmod : ((n * 86400 + s : Nat) : Int).tmod 86400 = (s : Int) := by
    rw [Int.tmod_eq_emod_of_nonneg (by omega)]
    omega
  have hdiv : ((n * 86400 + s : Nat) : Int).tdiv 86400 = (n : Int) := by
    rw [Int.tdiv_eq_ediv_of_nonneg (by omega)]
    omega
  have hweek : (4 + (n : Int)).tmod 7 = ((4 + n) % 7 : Nat) := by
    rw [Int.tmod_eq_emod_of_nonneg (by omega)]
    omega
  have hsec : (s : Int).tmod 60 = ((s % 60 : Nat) : Int) := by
    rw [Int.tmod_eq_emod_of_nonneg (by omega)]
    omega
  have hmins : (s : Int).tdiv 60 = ((s / 60 : Nat) : Int) := by
    rw [Int.tdiv_eq_ediv_of_nonneg (by omega)]
    omega
  have hmin : ((s / 60 : Nat) : Int).tmod 60 = ((s / 60 % 60 : Nat) : Int) := by
    rw [Int.tmod_eq_emod_of_nonneg (by omega)]
    omega
  have hhour : ((s / 60 : Nat) : Int).tdiv 60 = ((s / 3600 : Nat) : Int) := by
    rw [Int.tdiv_eq_ediv_of_nonneg (by omega)]
    omega
  have hstart : yearLoop 1970 (n : Int) = (((1970 + b : Nat) : Int), (yday : Int)) := hloop
  have hmday : (((gmMonth (isLeap (1970 + b)) yday).1.toNat : Nat) : Int) = (gmMonth (isLeap (1970 + b)) yday).1 :=
    Int.toNat_of_nonneg (Int.le_of_lt hdated.2.1)
  rw [hdate]
  unfold gmtime_r
  simp only [hmod, hdiv, hweek, hsec, hmins, hmin, hhour, hstart, isleap_cast]
  simp only [tmOf, Tm.mk.injEq]
  exact ⟨by omega, by omega, by omega, hmday.symm, rfl, trivial, trivial, trivial, trivial⟩

/-- The days before a year, for the years up to 2100. -/
theorem yearStart_small {b : Nat} (hb : b ≤ 130) : yearStart b = 365 * b + (b + 1) / 4 := by
  have := yearStart_eq b
  omega

theorem elapsedLeapYears_small {b : Nat} (hb : b ≤ 130) :
    elapsedLeapYears ((b : Int) + 70) = ((b + 1) / 4 : Nat) := by
  unfold elapsedLeapYears
  rw [Int.tdiv_eq_ediv_of_nonneg (by omega), Int.tdiv_eq_ediv_of_nonneg (by omega),
    Int.tdiv_eq_ediv_of_nonneg (by omega)]
  omega

theorem yearDays_small {b : Nat} (hb : b ≤ 129) : yearDays (1970 + b) + (b + 1) / 4 = 365 + (b + 2) / 4 := by
  have hthis := yearStart_small (Nat.le_trans hb (by decide))
  have hnext := yearStart_small (b := b + 1) (by omega)
  rw [yearStart] at hnext
  omega

theorem timestampConversionToTm_eq (n s : Nat) (hs : s < 86400) (hn : n * 86400 + s ≤ 0x7fffd27f) :
    timestampConversionToTm ((n * 86400 + s : Nat) : Int) = some (tmOf (dateAt n) s) := by
  -- the year without leap days, which is the year or the one behind it
  obtain ⟨q, hq⟩ : ∃ q, q = n / 365 := ⟨_, rfl⟩
  have hsmall : q ≤ 68 := by omega
  have hfirst : ((n * 86400 + s : Nat) : Int).tdiv (365 * 86400) + 70 = (q : Int) + 70 := by
    rw [Int.tdiv_eq_ediv_of_nonneg (by omega)]
    omega
  have hweek : (((n * 86400 + s : Nat) : Int).tdiv 86400 + 4).tmod 7 = ((4 + n) % 7 : Nat) := by
    rw [Int.tdiv_eq_ediv_of_nonneg (by omega), Int.tmod_eq_emod_of_nonneg (by omega)]
    omega
  have hleaps := elapsedLeapYears_small (b := q) (by omega)
  have hstart := yearStart_small (b := q) (by omega)
  have hdays := yearDays_small (b := q) (by omega)
  -- the rest is the same for both: `b` is the year, `yday` its day
  have hrest : ∀ b yday : Nat, yearStart b + yday = n → yday < yearDays (1970 + b) →
      (let mdays := if isLeapYear ((b : Int) + 70) then lpdays else days
       let caltim : Int := ((yday * 86400 + s : Nat) : Int)
       let yd := caltim.tdiv 86400
       let caltim := caltim - yd * 86400
       let mon := mdaysLoop yd (mdays.drop 1) 1 - 1
       let hour := caltim.tdiv 3600
       let caltim := caltim - hour * 3600
       let min := caltim.tdiv 60
       ({ sec := caltim - min * 60
          min := min
          hour := hour
          mday := yd - mdays.getD mon 0
          mon := mon
          year := (b : Int) + 70
          wday := (((n * 86400 + s : Nat) : Int).tdiv 86400 + 4).tmod 7
          yday := yd
          isdst := 0 } : Tm)) = tmOf (dateAt n) s := by
    intro b yday htotal hlt
    have hleap : isLeapYear ((b : Int) + 70) = isLeap (1970 + b) := by
      have hcast := isLeapYear_cast (b + 70)
      rw [show 1900 + (b + 70) = 1970 + b by omega] at hcast
      exact hcast
    have hdated := tableMonth_dated (isLeap (1970 + b)) yday hlt
    have hdate := hdated.date (n := n) (by omega) (by rw [Nat.add_sub_cancel_left, htotal]) hlt
    have hmday : (((tableMonth (isLeap (1970 + b)) yday).1.toNat : Nat) : Int) =
        (tableMonth (isLeap (1970 + b)) yday).1 := Int.toNat_of_nonneg (Int.le_of_lt hdated.2.1)
    have hyd : ((yday * 86400 + s : Nat) : Int).tdiv 86400 = (yday : Int) := by
      rw [Int.tdiv_eq_ediv_of_nonneg (by omega)]
      omega
    have hsecs : ((yday * 86400 + s : Nat) : Int) - (yday : Int) * 86400 = (s : Int) := by omega
    have hhour : (s : Int).tdiv 3600 = ((s / 3600 : Nat) : Int) := by
      rw [Int.tdiv_eq_ediv_of_nonneg (by omega)]
      omega
    have hmin : ((s : Int) - ((s / 3600 : Nat) : Int) * 3600).tdiv 60 = ((s / 60 % 60 : Nat) : Int) := by
      rw [Int.tdiv_eq_ediv_of_nonneg (by omega)]
      omega
    rw [hdate]
    simp only [hleap, hyd, hsecs, hhour, hmin, hweek]
    simp only [tmOf, Tm.mk.injEq]
    exact ⟨by omega, by omega, by omega, hmday.symm, rfl, by omega, trivial, trivial, trivial⟩
  unfold timestampConversionToTm
  rw [if_neg (by omega)]
  simp only [hfirst, hleaps]
  by_cases hback : n < yearStart q
  · obtain ⟨b, rfl⟩ : ∃ b, q = b + 1 := by
      cases q with
      | zero => exact absurd hback (Nat.not_lt_zero n)
      | succ b => exact ⟨b, rfl⟩
    have hdays := yearDays_small (b := b) (by omega)
    have hbefore := yearStart_small (b := b) (by omega)
    have hyear : ((b + 1 : Nat) : Int) + 70 - 1 = (b : Int) + 70 := by omega
    have hleap : isLeapYear ((b : Int) + 70) = isLeap (1970 + b) := by
      have hcast := isLeapYear_cast (b + 70)
      rw [show 1900 + (b + 70) = 1970 + b by omega] at hcast
      exact hcast
    have hres := hrest b (n - yearStart b) (by omega) (by omega)
    rw [if_pos (by omega)]
    simp only [hyear]
    rw [← hres]
    have hcal : (if isLeapYear ((b : Int) + 70) then
        ((n * 86400 + s : Nat) : Int) - (((b + 1 : Nat) : Int) + 70 - 70) * (365 * 86400) -
          (((b + 1 + 1) / 4 : Nat) : Int) * 86400 + 365 * 86400 + 86400
        else ((n * 86400 + s : Nat) : Int) - (((b + 1 : Nat) : Int) + 70 - 70) * (365 * 86400) -
          (((b + 1 + 1) / 4 : Nat) : Int) * 86400 + 365 * 86400) =
        (((n - yearStart b) * 86400 + s : Nat) : Int) := by
      unfold yearDays at hdays
      rw [← hleap] at hdays
      split
      next hl =>
        rw [if_pos hl] at hdays
        omega
      next hl =>
        rw [if_neg hl] at hdays
        omega
    simp only [hcal]
  · have hres := hrest q (n - yearStart q) (by omega) (by omega)
    have hcal : ((n * 86400 + s : Nat) : Int) - ((q : Int) + 70 - 70) * (365 * 86400) -
        (((q + 1) / 4 : Nat) : Int) * 86400 = (((n - yearStart q) * 86400 + s : Nat) : Int) := by omega
    rw [if_neg (by omega)]
    simp only [hcal]
    rw [← hres]

/-! ## Fields to seconds -/

/-- `mktime` has the days before a month in one formula, for a year that begins in March. -/
theorem monthStart_formula (leap : Bool) : ∀ m < 12,
    monthStart leap m + (if m ≤ 1 then 336 else 0) =
      if m ≤ 1 then 367 * (m + 11) / 12 else 29 + leap.toNat + 367 * (m - 1) / 12 := by
  cases leap <;> decide

/-- The leap days and the days before a month, counted from March, as natural numbers. -/
theorem marchDays_cast (year mon : Nat) :
    (year : Int).tdiv 4 - (year : Int).tdiv 100 + (year : Int).tdiv 400 + (367 * (mon : Int)).tdiv 12 =
      ((year / 4 : Nat) : Int) - ((year / 100 : Nat) : Int) + ((year / 400 : Nat) : Int) +
        ((367 * mon / 12 : Nat) : Int) := rfl

theorem mktime_eq (n s : Nat) : mktime (tmOf (dateAt n) s) = ((n * 86400 + s : Nat) : Int) := by
  have hday := dayOf_dateAt n
  generalize dateAt n = d at hday
  obtain ⟨b, hb⟩ : ∃ b, d.year = 1970 + b := ⟨d.year - 1970, by have := hday.year; omega⟩
  have htotal := hday.total
  have hin := hday.inYear
  have hmonth := hday.month
  have hstart := yearStart_eq b
  have hcenturies : (1969 + b) / 100 ≤ (1969 + b) / 4 := by omega
  rw [hb, Nat.add_sub_cancel_left] at htotal
  rw [hb] at hin
  have hyear : (1970 + b) / 4 + (1969 + b) / 100 + (1970 + b) / 400 =
      (1969 + b) / 4 + (1970 + b) / 100 + (1969 + b) / 400 + (isLeap (1970 + b)).toNat := by
    rcases hleap : isLeap (1970 + b) with _ | _
    · simp only [isLeap, Bool.and_eq_false_iff, Bool.or_eq_false_iff, decide_eq_false_iff_not] at hleap
      rw [Bool.toNat_false]
      omega
    · simp only [isLeap, Bool.and_eq_true, Bool.or_eq_true, decide_eq_true_eq] at hleap
      rw [Bool.toNat_true]
      omega
  have hformula := monthStart_formula (isLeap (1970 + b)) d.month hmonth
  have hmon : ¬ (d.month : Int) ≥ 12 := by omega
  have hpos : ¬ (d.month : Int) < 0 := by omega
  have hback : (d.year : Int) - 1900 + 1900 = ((1970 + b : Nat) : Int) := by omega
  unfold mktime tmOf
  dsimp only
  rw [if_neg hmon, if_neg hpos, hback]
  dsimp only
  split
  next hfirst =>
    dsimp only
    have hle : d.month ≤ 1 := by omega
    rw [if_pos hle, if_pos hle] at hformula
    have hlast : ((1970 + b : Nat) : Int) - 1 = ((1969 + b : Nat) : Int) := by omega
    have hmarch : (d.month : Int) + 1 - 2 + 12 = ((d.month + 11 : Nat) : Int) := by omega
    rw [hlast, hmarch, marchDays_cast]
    clear hyear hlast hmarch
    generalize (1969 + b) / 4 = four at hstart hcenturies ⊢
    generalize (1969 + b) / 100 = hundred at hstart hcenturies ⊢
    generalize (1969 + b) / 400 = fourHundred at hstart ⊢
    omega
  next hfirst =>
    dsimp only
    have hle : ¬ d.month ≤ 1 := by omega
    rw [if_neg hle, if_neg hle] at hformula
    have hmarch : (d.month : Int) + 1 - 2 = ((d.month - 1 : Nat) : Int) := by omega
    rw [hmarch, marchDays_cast]
    clear hmarch
    generalize (1969 + b) / 4 = four at hstart hcenturies hyear
    generalize (1969 + b) / 100 = hundred at hstart hcenturies hyear
    generalize (1969 + b) / 400 = fourHundred at hstart hyear
    generalize (1970 + b) / 4 = four' at hyear ⊢
    generalize (1970 + b) / 100 = hundred' at hyear ⊢
    generalize (1970 + b) / 400 = fourHundred' at hyear ⊢
    omega

/-! ## Main result -/

/-- For every second that the conversion takes, the fields are those of the calendar and of the clock,
`gmtime_r` has the same, and `mktime` leads back. -/
theorem conversions_inverse (t : Int) (hpos : 0 ≤ t) (hle : t ≤ 0x7fffd27f) :
    ∃ tm, timestampConversionToTm t = some tm ∧ mktime tm = t ∧ gmtime_r t = tm ∧ tm.InRange ∧
      tm = tmOf (dateAt (t / 86400).toNat) (t % 86400).toNat := by
  obtain ⟨n, hn⟩ : ∃ n, n = (t / 86400).toNat := ⟨_, rfl⟩
  obtain ⟨s, hs⟩ : ∃ s, s = (t % 86400).toNat := ⟨_, rfl⟩
  have hlt : s < 86400 := by omega
  have ht : t = ((n * 86400 + s : Nat) : Int) := by omega
  rw [← hn, ← hs, ht]
  exact ⟨tmOf (dateAt n) s, timestampConversionToTm_eq n s hlt (by omega), mktime_eq n s,
    gmtime_r_eq n s hlt, tmOf_inRange (dateAt_valid n) hlt, rfl⟩

/-- The leap day of 2000. -/
theorem conversions_inverse_leapDay : ∃ tm, timestampConversionToTm 951827696 = some tm ∧
    mktime tm = 951827696 ∧ gmtime_r 951827696 = tm ∧ tm.InRange ∧
      tm = tmOf (dateAt (951827696 / 86400 : Int).toNat) (951827696 % 86400 : Int).toNat :=
  conversions_inverse 951827696 (by decide) (by decide)

end WmIot.Time
