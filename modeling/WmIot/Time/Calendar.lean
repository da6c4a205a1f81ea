import WmIot.Lib.Gregorian

/-!
# Times and calendar fields

The conversions of `wm_utils.c` between seconds since 1970 and the fields of a `struct tm`. The divisions
of C truncate; an `int` is an integer, and the bounds of the inputs keep all of them in its range.
-/

namespace WmIot.Time
set_option autoImplicit false

/-- `struct tm` -/
structure Tm where
  sec : Int
  min : Int
  hour : Int
  mday : Int
  mon : Int
  year : Int
  wday : Int
  yday : Int
  isdst : Int
deriving DecidableEq, Repr

/-- `__spm`: the days before a month of a year that is no leap year -/
def spm : List Int := [0, 31, 59, 90, 120, 151, 181, 212, 243, 273, 304, 334, 365]

/-- `__isleap` -/
def isleap (year : Int) : Bool :=
  year.tmod 4 = 0 && (year.tmod 100 ≠ 0 || year.tmod 400 = 0)

/-- The days of a year, `k` in the loop of `gmtime_r`. -/
def yearLen (i : Int) : Int := if isleap i then 366 else 365

theorem yearLen_pos (i : Int) : 0 < yearLen i := by
  unfold yearLen
  split <;> decide

/-- The loop of `gmtime_r` over the years. -/
def yearLoop (i work : Int) : Int × Int :=
  if yearLen i ≤ work then yearLoop (i + 1) (work - yearLen i) else (i, work)
termination_by work.toNat
decreasing_by
  have := yearLen_pos i
  omega

/-- The loop of `gmtime_r` over the months, downwards. -/
def monthLoop (work : Int) : Nat → Nat
  | 0 => 0
  | i + 1 => if work < spm.getD (i + 1) 0 then monthLoop work i else i + 1

def gmtime_r (time : Int) : Tm :=
  let work := time.tmod 86400
  let sec := work.tmod 60
  let work := work.tdiv 60
  let min := work.tmod 60
  let hour := work.tdiv 60
  let work := time.tdiv 86400
  let wday := (4 + work).tmod 7
  let (i, work) := yearLoop 1970 work
  let yday := work
  let (mday, work) :=
    if isleap i && work > 58 then (if work = 59 then 2 else 1, work - 1) else ((1 : Int), work)
  let mon := monthLoop work 11
  { sec := sec
    min := min
    hour := hour
    mday := mday + (work - spm.getD mon 0)
    mon := mon
    year := i - 1900
    wday := wday
    yday := yday
    isdst := 0 }

def mktime (t : Tm) : Int :=
  let mon := t.mon
  let year := t.year + 1900
  let (mon, year) :=
    if t.mon ≥ 12 then (mon.tmod 12, year + mon.tdiv 12)
    else if t.mon < 0 then (12 - (0 - mon).tmod 12, year - (0 - mon).tdiv 12 - 1)
    else (mon, year)
  let mon := mon + 1
  let mon := mon - 2
  let (mon, year) := if 0 ≥ mon then (mon + 12, year - 1) else (mon, year)
  (((year.tdiv 4 - year.tdiv 100 + year.tdiv 400 + (367 * mon).tdiv 12 + t.mday + year * 365 - 719499) * 24 +
    t.hour) * 60 + t.min) * 60 + t.sec

/-- `WM_IS_LEAP_YEAR`, of a year since 1900 -/
def isLeapYear (y : Int) : Bool := (y.tmod 4 = 0 && y.tmod 100 ≠ 0) || (y + 1900).tmod 400 = 0

/-- `WM_ELAPSED_LEAP_YEARS` -/
def elapsedLeapYears (y : Int) : Int := (y - 1).tdiv 4 - (y - 1).tdiv 100 + (y + 299).tdiv 400 - 17

/-- `_lpdays` -/
def lpdays : List Int := [-1, 30, 59, 90, 120, 151, 181, 212, 243, 273, 304, 334, 365]

/-- `_days` -/
def days : List Int := [-1, 30, 58, 89, 119, 150, 180, 211, 242, 272, 303, 333, 364]

/-- The loop over the months, from the second entry of the table on. -/
def mdaysLoop (yday : Int) : List Int → Nat → Nat
  | [], tmptim => tmptim
  | d :: mdays, tmptim => if d < yday then mdaysLoop yday mdays (tmptim + 1) else tmptim

def timestampConversionToTm (tim : Int) : Option Tm :=
  if tim < 0 ∨ 0x7fffd27f < tim then none
  else
    let tmptim := tim.tdiv (365 * 86400) + 70
    let caltim := tim - (tmptim - 70) * (365 * 86400)
    let caltim := caltim - elapsedLeapYears tmptim * 86400
    let (tmptim, caltim) :=
      if caltim < 0 then
        let caltim := caltim + 365 * 86400
        let tmptim := tmptim - 1
        (tmptim, if isLeapYear tmptim then caltim + 86400 else caltim)
      else (tmptim, caltim)
    let islpyr := isLeapYear tmptim
    let yday := caltim.tdiv 86400
    let caltim := caltim - yday * 86400
    let mdays := if islpyr then lpdays else days
    let mon := mdaysLoop yday (mdays.drop 1) 1 - 1
    let hour := caltim.tdiv 3600
    let caltim := caltim - hour * 3600
    let min := caltim.tdiv 60
    some {
      sec := caltim - min * 60
      min := min
      hour := hour
      mday := yday - mdays.getD mon 0
      mon := mon
      year := tmptim
      wday := (tim.tdiv 86400 + 4).tmod 7
      yday := yday
      isdst := 0 }

end WmIot.Time
