import WmIot.Time.Calendar

/-!
# The real time clock

The times of `wm_drv_ops_rtc.c` and the registers, which count calendar time with years from 2000 and months
from one.
-/

namespace WmIot.Rtc
open Gregorian
open Time (Tm)
set_option autoImplicit false

/-- The last day of a month in the `switch` of `wm_drv_time_is_available` -/
def lastDay (t : Tm) : Int :=
  if t.mon = 1 then
    let year := t.year + 1900
    if year.tmod 4 = 0 ∧ (year.tmod 100 ≠ 0 ∨ year.tmod 400 = 0) then 29 else 28
  else if t.mon = 3 ∨ t.mon = 5 ∨ t.mon = 8 ∨ t.mon = 10 then 30
  else 31

/-- `wm_drv_time_is_available` -/
def timeIsAvailable (t : Tm) : Bool :=
  if t.year < 100 ∨ 227 < t.year then false
  else if t.mon < 0 ∨ 11 < t.mon then false
  else if t.mday ≤ 0 ∨ 31 < t.mday then false
  else if lastDay t < t.mday then false
  else if t.hour < 0 ∨ 23 < t.hour then false
  else if t.min < 0 ∨ 59 < t.min then false
  else if t.sec < 0 ∨ 59 < t.sec then false
  else true

/-- `wm_drv_rtc_time_compare` -/
def timeCompare (t1 t2 : Tm) : Int :=
  if t1.year ≠ t2.year then (if t1.year < t2.year then -1 else 1)
  else if t1.mon ≠ t2.mon then (if t1.mon < t2.mon then -1 else 1)
  else if t1.mday ≠ t2.mday then (if t1.mday < t2.mday then -1 else 1)
  else if t1.hour ≠ t2.hour then (if t1.hour < t2.hour then -1 else 1)
  else if t1.min ≠ t2.min then (if t1.min < t2.min then -1 else 1)
  else if t1.sec ≠ t2.sec then (if t1.sec < t2.sec then -1 else 1)
  else 0

/-- `wm_800_rtc_std_time_conversion` towards the registers -/
def toW800 (t : Tm) : Tm := { t with year := t.year - 100, mon := t.mon + 1 }

/-- and back -/
def toStd (t : Tm) : Tm := { t with year := t.year + 100, mon := t.mon - 1 }

/-- What the registers hold of a time. -/
def registers (t : Tm) : Tm := { t with wday := 0, yday := 0, isdst := 0 }

/-- The days of the month that the registers show. -/
def monthLen (c : Tm) : Nat := monthDays (isLeap (c.year + 2000).toNat) (c.mon - 1).toNat

/-- The registers one second later. -/
def tick (c : Tm) : Tm :=
  if c.sec < 59 then { c with sec := c.sec + 1 }
  else if c.min < 59 then { c with sec := 0, min := c.min + 1 }
  else if c.hour < 23 then { c with sec := 0, min := 0, hour := c.hour + 1 }
  else if c.mday < monthLen c then { c with sec := 0, min := 0, hour := 0, mday := c.mday + 1 }
  else if c.mon < 12 then { c with sec := 0, min := 0, hour := 0, mday := 1, mon := c.mon + 1 }
  else { c with sec := 0, min := 0, hour := 0, mday := 1, mon := 1, year := c.year + 1 }

/-- One time is earlier than another. -/
def Before (a b : Tm) : Prop :=
  a.year < b.year ∨ a.year = b.year ∧ (a.mon < b.mon ∨ a.mon = b.mon ∧ (a.mday < b.mday ∨ a.mday = b.mday ∧
    (a.hour < b.hour ∨ a.hour = b.hour ∧ (a.min < b.min ∨ a.min = b.min ∧ a.sec < b.sec))))

instance (a b : Tm) : Decidable (Before a b) := by
  unfold Before
  infer_instance

/-- The registers show a time of the calendar. -/
structure OnCalendar (c : Tm) : Prop where
  mon : 1 ≤ c.mon ∧ c.mon ≤ 12
  mday : 1 ≤ c.mday ∧ c.mday ≤ monthLen c
  hour : 0 ≤ c.hour ∧ c.hour ≤ 23
  min : 0 ≤ c.min ∧ c.min ≤ 59
  sec : 0 ≤ c.sec ∧ c.sec ≤ 59

@[simp] theorem registers_idem (t : Tm) : registers (registers t) = registers t := rfl

@[simp] theorem toStd_toW800 (t : Tm) : toStd (toW800 t) = t := by
  simp [toStd, toW800]

@[simp] theorem before_registers (a b : Tm) : Before a (registers b) ↔ Before a b := Iff.rfl

/-- The comparison tells the order. -/
theorem timeCompare_pos (a b : Tm) : 0 < timeCompare a b ↔ Before b a := by
  unfold timeCompare Before
  split_ifs <;> omega

/-- The last day of the driver is that of the calendar. -/
theorem lastDay_eq {t : Tm} (hyear : 100 ≤ t.year) (hmon : 0 ≤ t.mon) (hmon' : t.mon ≤ 11) :
    lastDay t = monthLen (toW800 t) := by
  obtain ⟨y, hy⟩ := Int.eq_ofNat_of_zero_le (a := t.year + 1900) (by omega)
  have hleap : isLeap (t.year - 100 + 2000).toNat =
      decide ((t.year + 1900).tmod 4 = 0 ∧ ((t.year + 1900).tmod 100 ≠ 0 ∨ (t.year + 1900).tmod 400 = 0)) := by
    rw [show (t.year - 100 + 2000).toNat = y by omega, hy, isLeap, Bool.eq_iff_iff]
    simp only [Bool.and_eq_true, Bool.or_eq_true, decide_eq_true_eq]
    rw [Int.tmod_eq_emod_of_nonneg (by omega), Int.tmod_eq_emod_of_nonneg (by omega),
      Int.tmod_eq_emod_of_nonneg (by omega)]
    omega
  obtain ⟨m, hm⟩ := Int.eq_ofNat_of_zero_le hmon
  have hlt : m < 12 := by omega
  simp only [lastDay, monthLen, toW800, hleap, hm, show ((m : Int) + 1 - 1).toNat = m by omega]
  interval_cases m <;> simp [monthDays]

/-- What is accepted is a time of the calendar. -/
theorem onCalendar_of_available {t : Tm} (h : timeIsAvailable t = true) : OnCalendar (toW800 t) := by
  unfold timeIsAvailable at h
  split_ifs at h with hyear hmon hmday hlast hhour hmin hsec
  have heq := lastDay_eq (t := t) (by omega) (by omega) (by omega)
  constructor <;> simp only [toW800] at heq ⊢ <;> omega

theorem onCalendar_registers {t : Tm} (h : OnCalendar t) : OnCalendar (registers t) :=
  ⟨h.mon, h.mday, h.hour, h.min, h.sec⟩

/-- Every month has a first day. -/
theorem one_le_monthLen {c : Tm} (h : 1 ≤ c.mon ∧ c.mon ≤ 12) : (1 : Int) ≤ monthLen c := by
  have hlt : (c.mon - 1).toNat < 12 := by omega
  unfold monthLen
  generalize isLeap _ = leap
  generalize (c.mon - 1).toNat = m at hlt
  interval_cases m <;> cases leap <;> decide

/-- The clock stays on the calendar. -/
theorem onCalendar_tick {c : Tm} (h : OnCalendar c) : OnCalendar (tick c) := by
  obtain ⟨hmon, hmday, hhour, hmin, hsec⟩ := h
  have zero_hour : (0 : Int) ≤ 0 ∧ (0 : Int) ≤ 23 := by decide
  have zero_min : (0 : Int) ≤ 0 ∧ (0 : Int) ≤ 59 := by decide
  unfold tick
  split_ifs
  · exact ⟨hmon, hmday, hhour, hmin, by dsimp only; omega⟩
  · exact ⟨hmon, hmday, hhour, by dsimp only; omega, zero_min⟩
  · exact ⟨hmon, hmday, by dsimp only; omega, zero_min, zero_min⟩
  · refine ⟨hmon, ?_, zero_hour, zero_min, zero_min⟩
    simp only [monthLen] at *
    omega
  · have hnext : 1 ≤ c.mon + 1 ∧ c.mon + 1 ≤ 12 := by omega
    exact ⟨hnext, ⟨le_rfl, one_le_monthLen hnext⟩, zero_hour, zero_min, zero_min⟩
  · have hjan : (1 : Int) ≤ 1 ∧ (1 : Int) ≤ 12 := by decide
    exact ⟨hjan, ⟨le_rfl, one_le_monthLen hjan⟩, zero_hour, zero_min, zero_min⟩

/-- The clock passes over no time of the calendar: what is later stays later for a second or is reached. -/
theorem tick_le {c t : Tm} (ht : OnCalendar t) (h : Before c t) : ¬ Before t (tick c) := by
  obtain ⟨hmon, hmday, hhour, hmin, hsec⟩ := ht
  have hlen : c.year = t.year → c.mon = t.mon → monthLen c = monthLen t := by
    intro hy hm
    rw [monthLen, monthLen, hy, hm]
  unfold Before at h ⊢
  unfold tick
  split_ifs <;> dsimp only <;> omega

/-- Times of which none is earlier are the same in the registers. -/
theorem registers_eq {a b : Tm} (h : ¬ Before a b) (h' : ¬ Before b a) : registers a = registers b := by
  unfold Before at h h'
  simp only [registers, Tm.mk.injEq, and_true]
  omega

theorem Before.asymm {a b : Tm} (h : Before a b) : ¬ Before b a := by
  unfold Before at *
  omega

end WmIot.Rtc
