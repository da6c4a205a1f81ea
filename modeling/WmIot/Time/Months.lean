import WmIot.Time.Calendar
import WmIot.Lib.CInt

/-!
# Months out of range

`mktime` with the overflows of its `int`s: a month outside of the year is moved into it, whichever of the
branches does it, and a day counts the same everywhere.
-/

namespace WmIot.Time
open CInt
set_option autoImplicit false

/-- The month and the year behind the first branches of `mktime`. -/
def monthYear (t : Tm) : Option (Int × Int) := do
  let year ← int (t.year + 1900)
  if t.mon ≥ 12 then
    let year ← int (year + t.mon.tdiv 12)
    return (t.mon.tmod 12, year)
  else if t.mon < 0 then
    let mon ← int (0 - t.mon)
    let year ← int (year - mon.tdiv 12)
    let year ← int (year - 1)
    return (12 - mon.tmod 12, year)
  else return (t.mon, year)

/-- February is put last. -/
def shiftMonth (mon year : Int) : Option (Int × Int) := do
  let mon := mon + 1 - 2
  if 0 ≥ mon then
    let year ← int (year - 1)
    return (mon + 12, year)
  else return (mon, year)

/-- The sum of `mktime`, from the left to the right. -/
def sumSeconds (t : Tm) (mon year : Int) : Option Int := do
  let days ← int (year.tdiv 4 - year.tdiv 100)
  let days ← int (days + year.tdiv 400)
  let days ← int (days + (367 * mon).tdiv 12)
  let days ← int (days + t.mday)
  let years ← int (year * 365)
  let days ← int (days + years)
  let days ← int (days - 719499)
  let hours ← int (days * 24)
  let hours ← int (hours + t.hour)
  let mins ← int (hours * 60)
  let mins ← int (mins + t.min)
  let secs ← int (mins * 60)
  int (secs + t.sec)

/-- `mktime`; none if an `int` overflows on the way -/
def mktimeInt (t : Tm) : Option Int := do
  let (mon, year) ← monthYear t
  let (mon, year) ← shiftMonth mon year
  sumSeconds t mon year

/-- The same time with the month inside of its year. -/
def inYear (t : Tm) : Tm := { t with mon := t.mon % 12, year := t.year + t.mon / 12 }

section
variable {t : Tm} {v w mon year : Int}

/-- Without an overflow the sum is that of the integers. -/
theorem sumSeconds_eq (h : sumSeconds t mon year = some v) :
    v = (((year.tdiv 4 - year.tdiv 100 + year.tdiv 400 + (367 * mon).tdiv 12 + t.mday + year * 365 - 719499) * 24 +
      t.hour) * 60 + t.min) * 60 + t.sec := by
  unfold sumSeconds at h
  simp only [Option.bind_eq_bind, Option.bind_eq_some_iff, int_eq_some] at h
  obtain ⟨_, ⟨rfl, -⟩, _, ⟨rfl, -⟩, _, ⟨rfl, -⟩, _, ⟨rfl, -⟩, _, ⟨rfl, -⟩, _, ⟨rfl, -⟩, _, ⟨rfl, -⟩, _, ⟨rfl, -⟩,
    _, ⟨rfl, -⟩, _, ⟨rfl, -⟩, _, ⟨rfl, -⟩, _, ⟨rfl, -⟩, rfl, -⟩ := h
  rfl

/-- The branches leave the month in `0..11`, or December of the year before as a thirteenth month. -/
theorem monthYear_cases {p : Int × Int} (h : monthYear t = some p) :
    (-2147483648 ≤ t.year + 1900 + t.mon / 12 ∧ t.year + 1900 + t.mon / 12 ≤ 2147483647) ∧
      (p = (t.mon % 12, t.year + 1900 + t.mon / 12) ∨
        (t.mon % 12 = 0 ∧ p = (12, t.year + 1900 + t.mon / 12 - 1) ∧
          -2147483648 ≤ t.year + 1900 + t.mon / 12 - 1)) := by
  unfold monthYear at h
  simp only [Option.bind_eq_bind, Option.bind_eq_some_iff, int_eq_some] at h
  obtain ⟨_, ⟨rfl, hlo, hhi⟩, h⟩ := h
  split at h
  next h12 =>
    simp only [Option.bind_eq_some_iff, int_eq_some, Int.tdiv_eq_ediv_of_nonneg (by omega : 0 ≤ t.mon),
      Int.tmod_eq_emod_of_nonneg (by omega : 0 ≤ t.mon)] at h
    obtain ⟨_, ⟨rfl, hylo, hyhi⟩, h⟩ := h
    exact ⟨⟨hylo, hyhi⟩, .inl (Option.some.inj h).symm⟩
  next h12 =>
    split at h
    next hneg =>
      simp only [Option.bind_eq_some_iff, int_eq_some] at h
      obtain ⟨_, ⟨rfl, -⟩, _, ⟨rfl, hdlo, hdhi⟩, _, ⟨rfl, helo, hehi⟩, h⟩ := h
      rw [Int.tdiv_eq_ediv_of_nonneg (by omega)] at hdlo hdhi helo hehi h
      rw [Int.tmod_eq_emod_of_nonneg (by omega)] at h
      have hp := (Option.some.inj h).symm
      -- the negated month is divided, so the multiples of twelve lie on the other side
      by_cases h0 : t.mon % 12 = 0
      · have hd : t.year + 1900 - (0 - t.mon) / 12 = t.year + 1900 + t.mon / 12 := by omega
        rw [hd] at hdlo hdhi helo hp
        refine ⟨⟨hdlo, hdhi⟩, .inr ⟨h0, ?_, helo⟩⟩
        rw [hp]
        exact Prod.ext (by dsimp only; omega) rfl
      · have hd : t.year + 1900 - (0 - t.mon) / 12 - 1 = t.year + 1900 + t.mon / 12 := by omega
        rw [hd] at helo hehi hp
        refine ⟨⟨helo, hehi⟩, .inl ?_⟩
        rw [hp]
        exact Prod.ext (by dsimp only; omega) rfl
    next hneg =>
      have hm : t.mon % 12 = t.mon := Int.emod_eq_of_lt (by omega) (by omega)
      have hd : t.mon / 12 = 0 := Int.ediv_eq_zero_of_lt (by omega) (by omega)
      rw [hm, hd, Int.add_zero]
      exact ⟨⟨hlo, hhi⟩, .inl (Option.some.inj h).symm⟩

/-- The month in its year takes the last branch. -/
theorem monthYear_inYear (hlo : -2147483648 ≤ t.year + 1900 + t.mon / 12)
    (hhi : t.year + 1900 + t.mon / 12 ≤ 2147483647) :
    monthYear (inYear t) = some (t.mon % 12, t.year + 1900 + t.mon / 12) := by
  have h0 := Int.emod_nonneg t.mon (by decide : (12 : Int) ≠ 0)
  have h12 := Int.emod_lt_of_pos t.mon (by decide : (0 : Int) < 12)
  have hy : (inYear t).year + 1900 = t.year + 1900 + t.mon / 12 := by
    unfold inYear
    dsimp only
    omega
  have hm : (inYear t).mon = t.mon % 12 := rfl
  unfold monthYear
  rw [hy, hm, int_eq_some.mpr ⟨rfl, hlo, hhi⟩]
  simp only [Option.bind_eq_bind, Option.bind_some, if_neg (Int.not_le.mpr h12), if_neg (Int.not_lt.mpr h0), pure]

/-- The thirteenth month and January of the year behind it are the eleventh month of one year. -/
theorem shiftMonth_twelve (hlo : -2147483648 ≤ year - 1) (hhi : year - 1 ≤ 2147483647) :
    shiftMonth 0 year = shiftMonth 12 (year - 1) := by
  have h0 : shiftMonth 0 year = (int (year - 1)).bind fun y => some (11, y) := rfl
  have h12 : shiftMonth 12 (year - 1) = some (11, year - 1) := rfl
  rw [h0, h12, int_eq_some.mpr ⟨rfl, hlo, hhi⟩, Option.bind_some]

theorem mktimeInt_inYear (h : mktimeInt t = some v) : mktimeInt (inYear t) = some v := by
  unfold mktimeInt at h ⊢
  simp only [Option.bind_eq_bind, Option.bind_eq_some_iff] at h
  obtain ⟨p, hp, q, hq, hs⟩ := h
  obtain ⟨⟨hlo, hhi⟩, hcases⟩ := monthYear_cases hp
  have hshift : shiftMonth (t.mon % 12) (t.year + 1900 + t.mon / 12) = some q := by
    rcases hcases with rfl | ⟨h0, rfl, hlo'⟩
    · exact hq
    · rw [h0, shiftMonth_twelve hlo' (by omega)]
      exact hq
  rw [monthYear_inYear hlo hhi]
  simp only [Option.bind_eq_bind, Option.bind_some, hshift]
  exact hs

/-- The day enters the sum once. -/
theorem mktimeInt_mday {k : Int} (h : mktimeInt t = some v)
    (hk : mktimeInt { t with mday := t.mday + k } = some w) : w = v + k * 86400 := by
  unfold mktimeInt at h hk
  simp only [Option.bind_eq_bind, Option.bind_eq_some_iff] at h hk
  obtain ⟨p, hp, q, hq, hs⟩ := h
  obtain ⟨p', hp', q', hq', hs'⟩ := hk
  obtain rfl : p = p' := Option.some.inj (hp.symm.trans hp')
  obtain rfl : q = q' := Option.some.inj (hq.symm.trans hq')
  rw [sumSeconds_eq hs, sumSeconds_eq hs']
  dsimp only
  omega

theorem monthYear_eq (h : monthYear t = some (mon, year)) :
    (mon, year) = if t.mon ≥ 12 then (t.mon.tmod 12, t.year + 1900 + t.mon.tdiv 12)
      else if t.mon < 0 then (12 - (0 - t.mon).tmod 12, t.year + 1900 - (0 - t.mon).tdiv 12 - 1)
      else (t.mon, t.year + 1900) := by
  unfold monthYear at h
  simp only [Option.bind_eq_bind, Option.bind_eq_some_iff, int_eq_some] at h
  obtain ⟨_, ⟨rfl, -⟩, h⟩ := h
  split at h
  next h12 =>
    simp only [Option.bind_eq_some_iff, int_eq_some] at h
    obtain ⟨_, ⟨rfl, -⟩, h⟩ := h
    rw [if_pos h12]
    exact (Option.some.inj h).symm
  next h12 =>
    rw [if_neg h12]
    split at h
    next h0 =>
      simp only [Option.bind_eq_some_iff, int_eq_some] at h
      obtain ⟨_, ⟨rfl, -⟩, _, ⟨rfl, -⟩, _, ⟨rfl, -⟩, h⟩ := h
      rw [if_pos h0]
      exact (Option.some.inj h).symm
    next h0 =>
      rw [if_neg h0]
      exact (Option.some.inj h).symm

theorem shiftMonth_eq {m y : Int} (h : shiftMonth m y = some (mon, year)) :
    (mon, year) = if 0 ≥ m + 1 - 2 then (m + 1 - 2 + 12, y - 1) else (m + 1 - 2, y) := by
  unfold shiftMonth at h
  dsimp only at h
  split at h
  next h0 =>
    simp only [Option.bind_eq_bind, Option.bind_eq_some_iff, int_eq_some] at h
    obtain ⟨_, ⟨rfl, -⟩, h⟩ := h
    rw [if_pos h0]
    exact (Option.some.inj h).symm
  next h0 =>
    rw [if_neg h0]
    exact (Option.some.inj h).symm

/-- Without an overflow `mktime` is the function on the integers. -/
theorem mktimeInt_eq (h : mktimeInt t = some v) : v = mktime t := by
  unfold mktimeInt at h
  simp only [Option.bind_eq_bind, Option.bind_eq_some_iff] at h
  obtain ⟨⟨m, y⟩, hp, ⟨mon, year⟩, hq, hs⟩ := h
  unfold mktime
  dsimp only
  rw [← monthYear_eq hp]
  dsimp only
  rw [← shiftMonth_eq hq, sumSeconds_eq hs]

end

end WmIot.Time
