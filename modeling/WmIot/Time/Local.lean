import WmIot.Time.Inverse
import WmIot.Time.TimeZone

/-!
# Local time

`localtime` shifts by the offset of the setting of `TZ`, `localtime_r` by eight hours. The outer `none` of
`localtime` is a read through a null pointer or past the memory of the string.
-/

namespace WmIot.Time
open CString Gregorian
set_option autoImplicit false

/-- `localtime`; the inner `none` is a time out of its range. -/
def localtime (tz : Option (List Byte)) (tim : Int) : Option (Option Tm) := do
  let timeS ← tzToUtcTime (← tz)
  return timestampConversionToTm (timeS.getD 0 + tim)

def localtime_r (t : Int) : Tm := gmtime_r (t + 8 * 3600)

/-- The settings that calls of `setenv` lead to. -/
inductive Reachable : Option (List Byte) → Prop where
  | unset : Reachable none
  | setenv {tz tz' : Option (List Byte)} {mem overwrite success : Bool} {s : List Byte} : Reachable tz → 0#8 ∉ s →
      Time.setenv mem tz (s ++ [0#8]) overwrite = some (success, tz') → Reachable tz'

/-- The offset of a setting; without one, local time is UTC. -/
def Configured (tz : Option (List Byte)) (sec : Int) : Prop :=
  match tz with
  | none => sec = 0
  | some value => tzToUtcTime value = some (some sec)

/-- Both functions give the calendar's fields of the shifted time, and no missing value is read. -/
def Agree (tz : Option (List Byte)) (t : Int) : Prop :=
  ∃ sec tm, Configured tz sec ∧ localtime tz t = some (some tm) ∧ localtime_r t = tm ∧
    tm = tmOf (dateAt ((t + sec) / 86400).toNat) ((t + sec) % 86400).toNat

/-- A setting of a run is a string that the parser takes. -/
theorem configured_of_reachable {tz : Option (List Byte)} (h : Reachable tz) : ∃ sec, Configured tz sec := by
  induction h with
  | unset => exact ⟨0, rfl⟩
  | @setenv tz tz' mem overwrite success s _ _ hset ih =>
    simp only [Time.setenv, Option.bind_eq_bind, Option.bind_eq_some_iff] at hset
    obtain ⟨r, hr, hset⟩ := hset
    cases r with
    | none =>
      obtain ⟨-, rfl⟩ := Prod.mk.inj (Option.some.inj hset)
      exact ih
    | some sec =>
      simp only at hset
      split at hset
      next =>
        obtain ⟨-, rfl⟩ := Prod.mk.inj (Option.some.inj hset)
        exact ih
      next =>
        split at hset
        next =>
          obtain ⟨-, rfl⟩ := Prod.mk.inj (Option.some.inj hset)
          exact ⟨sec, hr⟩
        next =>
          obtain ⟨-, rfl⟩ := Prod.mk.inj (Option.some.inj hset)
          exact ⟨0, rfl⟩

/-! ## The fields determine the second -/

theorem gmtime_r_seconds (t : Nat) : gmtime_r t = tmOf (dateAt (t / 86400)) (t % 86400) := by
  have h := gmtime_r_eq (t / 86400) (t % 86400) (Nat.mod_lt _ (by decide))
  rwa [Nat.div_add_mod'] at h

theorem mktime_gmtime_r (t : Nat) : mktime (gmtime_r t) = t := by
  have h := mktime_eq (t / 86400) (t % 86400)
  rwa [Nat.div_add_mod', ← gmtime_r_seconds] at h

theorem timestampConversionToTm_seconds {t : Nat} (h : t ≤ 0x7fffd27f) :
    timestampConversionToTm t = some (gmtime_r t) := by
  have hconv := timestampConversionToTm_eq (t / 86400) (t % 86400) (Nat.mod_lt _ (by decide))
    (by rw [Nat.div_add_mod']; exact h)
  rwa [Nat.div_add_mod', ← gmtime_r_seconds] at hconv

theorem range_of_conversion {t : Int} {tm : Tm} (h : timestampConversionToTm t = some tm) :
    0 ≤ t ∧ t ≤ 0x7fffd27f := by
  unfold timestampConversionToTm at h
  split at h
  next => nomatch h
  next hrange => omega

/-- A conversion of one time that gives the fields of another is a conversion of the same. -/
theorem eq_of_fields {t : Int} {t' : Nat} (h : timestampConversionToTm t = some (gmtime_r t')) : t = t' := by
  obtain ⟨hpos, hle⟩ := range_of_conversion h
  obtain ⟨n, rfl⟩ := Int.eq_ofNat_of_zero_le hpos
  rw [timestampConversionToTm_seconds (by omega)] at h
  rw [← mktime_gmtime_r n, ← mktime_gmtime_r t', Option.some.inj h]

/-! ## Main result -/

/-- The two functions agree exactly where `TZ` is set to eight hours east and the shifted time is in range. -/
theorem localtime_agree_iff (tz : Option (List Byte)) (htz : Reachable tz) (t : Int) (hpos : 0 ≤ t)
    (hle : t ≤ 0x7fffd27f) : Agree tz t ↔
      (∃ value, tz = some value ∧ tzToUtcTime value = some (some (8 * 3600))) ∧ t + 8 * 3600 ≤ 0x7fffd27f := by
  obtain ⟨n, hn⟩ := Int.eq_ofNat_of_zero_le hpos
  have hshift : t + 8 * 3600 = ((n + 28800 : Nat) : Int) := by omega
  constructor
  · rintro ⟨sec, tm, hsec, hlocal, rfl, -⟩
    cases tz with
    | none => nomatch hlocal
    | some value =>
      have hread : tzToUtcTime value = some (some sec) := hsec
      have hconv : timestampConversionToTm (sec + t) = some (gmtime_r ((n + 28800 : Nat) : Int)) := by
        rw [localtime, Option.bind_eq_bind, Option.bind_some, hread] at hlocal
        rw [← hshift]
        exact Option.some.inj hlocal
      have heq := eq_of_fields hconv
      have hrange := range_of_conversion hconv
      obtain rfl : sec = 8 * 3600 := by omega
      exact ⟨⟨value, rfl, hread⟩, by omega⟩
  · rintro ⟨⟨value, rfl, hread⟩, hrange⟩
    refine ⟨8 * 3600, gmtime_r (t + 8 * 3600), hread, ?_, rfl, ?_⟩
    · rw [localtime, Option.bind_eq_bind, Option.bind_some, hread]
      have hcomm : (some (8 * 3600 : Int)).getD 0 + t = ((n + 28800 : Nat) : Int) := by
        rw [Option.getD_some]
        omega
      rw [Option.bind_eq_bind, Option.bind_some, hcomm, timestampConversionToTm_seconds (by omega), hshift]
      rfl
    · rw [hshift, gmtime_r_seconds]
      rfl

/-- Noon of the first day, in China. -/
theorem localtime_agree_iff_china : Agree (some (lit "UTC+8" ++ [0#8])) 43200 ↔
    (∃ value, some (lit "UTC+8" ++ [0#8]) = some value ∧ tzToUtcTime value = some (some (8 * 3600))) ∧
      (43200 : Int) + 8 * 3600 ≤ 0x7fffd27f :=
  localtime_agree_iff _ (@Reachable.setenv none _ true true true (lit "UTC+8") .unset (by decide) (by decide))
    43200 (by decide) (by decide)

/-- Without a setting, and with the one of Greenwich, they do not. -/
theorem not_agree_utc : ¬ Agree none 0 ∧ ¬ Agree (some (lit "UTC+0" ++ [0#8])) 0 := by
  constructor
  · rintro ⟨_, _, -, hlocal, -⟩
    nomatch hlocal
  · rintro ⟨sec, tm, -, hlocal, rfl, -⟩
    have hread : tzToUtcTime (lit "UTC+0" ++ [0#8]) = some (some 0) := by decide
    rw [localtime, Option.bind_eq_bind, Option.bind_some, hread] at hlocal
    have hfields : timestampConversionToTm 0 = some (gmtime_r (28800 : Nat)) := Option.some.inj hlocal
    exact absurd (eq_of_fields hfields) (by decide)

end WmIot.Time
