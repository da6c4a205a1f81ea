import WmIot.Lib.CString

/-!
# The time-zone string

`tz_to_utc_time` and `setenv` of `wm_utils.c`, on a string in memory. The outer `none` is a read past the
memory of the string; the products of the hours and the minutes wrap around in an `int` of 32 bits.
-/

namespace WmIot.Time
open CString
set_option autoImplicit false

/-! ## The parser -/

/-- The loop over the rest of the string, of which `n` characters are left: the inner `none` refuses the
string, `minStr` points behind the colon. -/
def scan : Nat → List Byte → Option (List Byte) → Option (Option (Option (List Byte)))
  | 0, _, minStr => some (some minStr)
  | _ + 1, [], _ => none
  | n + 1, b :: p, minStr =>
    if isdigit b then scan n p minStr
    else if b = 0x3A#8 then
      if minStr.isSome then some none else scan n p (some p)
    else some none

/-- The offset of an hour and a minute, within UTC-12:00 and UTC+14:00. -/
def offsetOf (hour min : Int) : Option Int :=
  let min := if hour < 0 then -min else min
  let sec := (hour * 60 * 60 + min * 60).bmod (2 ^ 32)
  if sec < -43200 ∨ 50400 < sec then none else some sec

/-- The hour at `p` and the minute behind the colon. -/
def convert (p : List Byte) (minStr : Option (List Byte)) : Option (Option Int) := do
  let hour ← atoi p
  match minStr with
  | none => return offsetOf hour 0
  | some minStr =>
    let min ← atoi minStr
    return if 59 < min then none else offsetOf hour min

/-- `tz_to_utc_time` -/
def tzToUtcTime (value : List Byte) : Option (Option Int) := do
  let len ← strlen value
  if !(← memcmpEq value (lit "UTC")) then return none
  let b ← value[3]?
  if b ≠ 0x2B#8 ∧ b ≠ 0x2D#8 ∧ isdigit b = false then return none
  match ← scan (len - 4) (value.drop 4) none with
  | none => return none
  | some minStr => convert (value.drop 3) minStr

/-- `setenv` of `TZ`: whether it succeeds, and the setting after it; `mem` says whether the string can be
copied. -/
def setenv (mem : Bool) (tz : Option (List Byte)) (value : List Byte) (overwrite : Bool) :
    Option (Bool × Option (List Byte)) := do
  match ← tzToUtcTime value with
  | none => return (false, tz)
  | some _ =>
    if tz.isSome ∧ overwrite = false then return (false, tz)
    if mem then return (true, some value)
    return (false, none)

/-! ## What a setting denotes -/

inductive Sign where
  | none
  | plus
  | minus
deriving DecidableEq, Repr

def Sign.text : Sign → List Byte
  | .none => []
  | .plus => [0x2B#8]
  | .minus => [0x2D#8]

/-- What stands behind `UTC`: the digits of the hours and, behind a colon, of the minutes. -/
structure Setting where
  sign : Sign
  hours : List Byte
  minutes : Option (List Byte)

namespace Setting

def tail : Option (List Byte) → List Byte
  | none => []
  | some ds => 0x3A#8 :: ds

def text (z : Setting) : List Byte := lit "UTC" ++ (z.sign.text ++ (z.hours ++ tail z.minutes))

/-- Only digits, and a sign or a digit first. -/
structure Shape (z : Setting) : Prop where
  hours : ∀ b ∈ z.hours, isdigit b
  minutes : ∀ ds, z.minutes = some ds → ∀ b ∈ ds, isdigit b
  first : z.sign = .none → z.hours ≠ []

def hour (z : Setting) : Nat := value z.hours

def minute (z : Setting) : Nat := value (z.minutes.getD [])

/-- The seconds of an hour and a minute under the sign. -/
def seconds (z : Setting) (hour : Nat) : Int :=
  match z.sign with
  | .minus => -((hour * 3600 + z.minute * 60 : Nat) : Int)
  | _ => ((hour * 3600 + z.minute * 60 : Nat) : Int)

/-- The largest hour number under the sign that an `int` holds. -/
def cap (z : Setting) : Nat :=
  match z.sign with
  | .minus => 2147483648
  | _ => 2147483647

/-- The seconds, modulo `2 ^ 32`. -/
def wrapped (z : Setting) : Int := (z.seconds (min z.hour z.cap)).bmod (2 ^ 32)

end Setting

/-- From UTC-12:00 to UTC+14:00. -/
def InZone (sec : Int) : Prop := -43200 ≤ sec ∧ sec ≤ 50400

instance (sec : Int) : Decidable (InZone sec) := inferInstanceAs (Decidable (_ ∧ _))

/-- The strings of a time zone, and the offset of each. -/
def Denotes (s : List Byte) (sec : Int) : Prop :=
  ∃ z : Setting, z.Shape ∧ s = z.text ∧ z.hours ≠ [] ∧ z.minutes ≠ some [] ∧ z.minute < 60 ∧
    sec = z.seconds z.hour ∧ InZone sec

/-- The parser reads no byte behind the string and takes exactly the strings of a time zone, each with its
offset; `setenv` does the same. -/
def Parsed (s : List Byte) : Prop :=
  (∃ r, tzToUtcTime (s ++ [0#8]) = some r ∧ ∀ sec, r = some sec ↔ Denotes s sec) ∧
    ∀ tz overwrite, (tz = none ∨ overwrite = true) →
      ∃ r, setenv true tz (s ++ [0#8]) overwrite = some r ∧ (r.1 = true ↔ ∃ sec, Denotes s sec)

/-- The strings that are taken without denoting a time zone, or with another offset: no digit of the hours, no
digit of the minutes, zero hours under a minus, or hours so many that the seconds wrap around into the zone. -/
def Slip (s : List Byte) : Prop :=
  ∃ z : Setting, z.Shape ∧ s = z.text ∧ z.minute < 60 ∧
    (z.hours = [] ∨ z.minutes = some [] ∧ InZone z.wrapped ∨
      z.sign = .minus ∧ z.hour = 0 ∧ 0 < z.minute ∨ ¬ InZone (z.seconds z.hour) ∧ InZone z.wrapped)

/-! ## The shape of a string -/

section Scan
variable {s : List Byte}

/-- The loop reads up to the end of the string only. -/
theorem scan_isSome (s : List Byte) : ∀ minStr, (scan s.length (s ++ [0#8]) minStr).isSome := by
  induction s with
  | nil => exact fun _ => rfl
  | cons b s ih =>
    intro minStr
    rw [List.length_cons, List.cons_append, scan]
    split
    next => exact ih minStr
    next =>
      split
      next =>
        split
        next => rfl
        next => exact ih _
      next => rfl

theorem scan_digits (hs : ∀ b ∈ s, isdigit b) (p : List Byte) : ∀ n minStr,
    scan (s.length + n) (s ++ p) minStr = scan n p minStr := by
  induction s with
  | nil => exact fun n minStr => by rw [List.length_nil, Nat.zero_add, List.nil_append]
  | cons b s ih =>
    intro n minStr
    rw [List.length_cons, Nat.succ_add, List.cons_append, scan, if_pos (hs b List.mem_cons_self),
      ih fun d hd => hs d (List.mem_cons_of_mem b hd)]

/-- What the loop finds in a string of the shape. -/
theorem scan_tail (hs : ∀ b ∈ s, isdigit b) {minutes : Option (List Byte)}
    (hmin : ∀ ds, minutes = some ds → ∀ b ∈ ds, isdigit b) :
    scan (s ++ Setting.tail minutes).length (s ++ Setting.tail minutes ++ [0#8]) none =
      some (some (minutes.map (· ++ [0#8]))) := by
  rw [List.length_append, List.append_assoc, scan_digits hs]
  cases minutes with
  | none => rfl
  | some ds =>
    have hcolon : isdigit 0x3A#8 = false := by decide
    rw [Setting.tail, List.length_cons, List.cons_append, scan, hcolon, if_neg Bool.false_ne_true, if_pos rfl,
      if_neg (by decide)]
    exact scan_digits (hmin ds rfl) [0#8] 0 _

theorem scan_some_digits (p : List Byte) : ∀ {minStr r}, scan s.length (s ++ p) (some minStr) = some (some r) →
    (∀ b ∈ s, isdigit b) ∧ r = some minStr := by
  induction s with
  | nil => exact fun h => ⟨nofun, (Option.some.inj (Option.some.inj h)).symm⟩
  | cons b s ih =>
    intro minStr r h
    rw [List.length_cons, List.cons_append, scan] at h
    split at h
    next hb =>
      obtain ⟨hs, hr⟩ := ih h
      exact ⟨List.forall_mem_cons.mpr ⟨hb, hs⟩, hr⟩
    next =>
      split at h
      next => exact absurd (Option.some.inj h) nofun
      next => exact absurd (Option.some.inj h) nofun

/-- A string that passes the loop has the shape. -/
theorem shape_of_scan : ∀ {r}, scan s.length (s ++ [0#8]) none = some (some r) →
    ∃ hours minutes, (∀ b ∈ hours, isdigit b) ∧ (∀ ds, minutes = some ds → ∀ b ∈ ds, isdigit b) ∧
      s = hours ++ Setting.tail minutes := by
  induction s with
  | nil => exact fun _ => ⟨[], none, nofun, nofun, rfl⟩
  | cons b s ih =>
    intro r h
    rw [List.length_cons, List.cons_append, scan] at h
    split at h
    next hb =>
      obtain ⟨hours, minutes, hhours, hminutes, rfl⟩ := ih h
      exact ⟨b :: hours, minutes, List.forall_mem_cons.mpr ⟨hb, hhours⟩, hminutes, rfl⟩
    next =>
      split at h
      next hb =>
        have hs := (scan_some_digits [0#8] h).1
        exact ⟨[], some s, nofun, fun ds hds => Option.some.inj hds ▸ hs, by rw [hb]; rfl⟩
      next => exact absurd (Option.some.inj h) nofun

end Scan

/-! ## The parser on a string of the shape -/

section Text
variable {b : Byte} {s t : List Byte} {z : Setting}

theorem isdigit_ne_zero (h : isdigit b) : b ≠ 0#8 := by
  obtain ⟨hlo, -⟩ := isdigit_iff.mp h
  bv_omega

/-- Behind `UTC` and a sign or a digit, the loop decides. -/
theorem tzToUtcTime_behind (hnul : 0#8 ∉ b :: t) : tzToUtcTime (lit "UTC" ++ b :: t ++ [0#8]) =
    if b ≠ 0x2B#8 ∧ b ≠ 0x2D#8 ∧ isdigit b = false then some none
    else (scan t.length (t ++ [0#8]) none).bind fun r =>
      match r with
      | none => some none
      | some minStr => convert (b :: t ++ [0#8]) minStr := by
  have hlen : strlen (lit "UTC" ++ b :: t ++ [0#8]) = some (t.length + 4) := by
    rw [strlen_append]
    · rfl
    · intro h
      rcases List.mem_append.mp h with h | h
      · exact absurd h (by decide)
      · exact hnul h
  have hcmp : memcmpEq (lit "UTC" ++ b :: t ++ [0#8]) (lit "UTC") = some true :=
    memcmpEq_true_iff.mpr ⟨b :: t ++ [0#8], List.append_assoc _ _ _⟩
  have hget : (lit "UTC" ++ b :: t ++ [0#8])[3]? = some b := rfl
  have hdrop3 : (lit "UTC" ++ b :: t ++ [0#8]).drop 3 = b :: t ++ [0#8] := rfl
  have hdrop4 : (lit "UTC" ++ b :: t ++ [0#8]).drop 4 = t ++ [0#8] := rfl
  rw [tzToUtcTime, hlen, hcmp, hget, hdrop3, hdrop4]
  simp only [Option.bind_eq_bind, Option.bind_some, Bool.not_true, Bool.false_eq_true, if_false,
    Nat.add_sub_cancel]
  split
  next => rfl
  next =>
    cases scan t.length (t ++ [0#8]) none with
    | none => rfl
    | some r => cases r <;> rfl

theorem not_refused (h : b = 0x2B#8 ∨ b = 0x2D#8 ∨ isdigit b = true) :
    ¬ (b ≠ 0x2B#8 ∧ b ≠ 0x2D#8 ∧ isdigit b = false) := by
  rintro ⟨hplus, hminus, hdigit⟩
  rcases h with h | h | h
  · exact hplus h
  · exact hminus h
  · exact Bool.false_ne_true (hdigit.symm.trans h)

namespace Setting

/-- The hour number that the parser reads. -/
def readHour (z : Setting) : Int :=
  match z.sign with
  | .minus => max (-2147483648) (-(z.hour : Int))
  | _ => min 2147483647 (z.hour : Int)

/-- The offset that the parser reads. -/
def read (z : Setting) : Option Int :=
  if 59 < min 2147483647 (z.minute : Int) then none else offsetOf z.readHour (min 2147483647 (z.minute : Int))

/-- A sign or a digit, and digits up to the colon or the end. -/
theorem behind_split (h : z.Shape) : ∃ b s, z.sign.text ++ (z.hours ++ tail z.minutes) = b :: (s ++ tail z.minutes) ∧
    (b = 0x2B#8 ∨ b = 0x2D#8 ∨ isdigit b = true) ∧ ∀ c ∈ s, isdigit c := by
  cases hsign : z.sign with
  | none =>
    cases hhours : z.hours with
    | nil => exact absurd hhours (h.first hsign)
    | cons b s =>
      have hall := h.hours
      rw [hhours] at hall
      exact ⟨b, s, rfl, .inr (.inr (hall b List.mem_cons_self)), fun c hc => hall c (List.mem_cons_of_mem b hc)⟩
  | plus => exact ⟨_, z.hours, rfl, .inl rfl, h.hours⟩
  | minus => exact ⟨_, z.hours, rfl, .inr (.inl rfl), h.hours⟩

/-- What stands behind the digits of the hours is no part of a number. -/
theorem tail_end (z : Setting) : ∃ b p, tail z.minutes ++ [0#8] = b :: p ∧ isdigit b = false ∧ isspace b = false ∧
    b ≠ 0x2D#8 ∧ b ≠ 0x2B#8 := by
  cases z.minutes with
  | none => exact ⟨0#8, [], rfl, by decide⟩
  | some ds => exact ⟨0x3A#8, ds ++ [0#8], rfl, by decide⟩

theorem atoi_hours (h : z.Shape) :
    atoi (z.sign.text ++ (z.hours ++ tail z.minutes) ++ [0#8]) = some z.readHour := by
  obtain ⟨b, p, htail, hdigit, hspace, hminus, hplus⟩ := z.tail_end
  rw [List.append_assoc, List.append_assoc, htail, readHour]
  cases z.sign with
  | none => exact atoi_digits h.hours hdigit hspace hminus hplus p
  | plus => exact atoi_plus h.hours hdigit p
  | minus => exact atoi_minus h.hours hdigit p

theorem convert_text (h : z.Shape) : convert (z.sign.text ++ (z.hours ++ tail z.minutes) ++ [0#8])
    (z.minutes.map (· ++ [0#8])) = some z.read := by
  rw [convert, atoi_hours h, read, minute]
  cases hmin : z.minutes with
  | none => rfl
  | some ds =>
    have hatoi : atoi (ds ++ [0#8]) = some (min 2147483647 (value ds : Int)) :=
      atoi_digits (h.minutes ds hmin) (by decide) (by decide) (by decide) (by decide) []
    simp only [Option.bind_eq_bind, Option.bind_some, Option.map_some, hatoi, Option.getD_some]
    rfl

theorem zero_notMem_tail (h : z.Shape) : 0#8 ∉ tail z.minutes := by
  cases hmin : z.minutes with
  | none => exact List.not_mem_nil
  | some ds =>
    intro hmem
    rcases List.mem_cons.mp hmem with hzero | hmem
    · exact absurd hzero (by decide)
    · exact isdigit_ne_zero (h.minutes ds hmin _ hmem) rfl

end Setting

open Setting

theorem tzToUtcTime_text (h : z.Shape) : tzToUtcTime (z.text ++ [0#8]) = some z.read := by
  have hconvert := convert_text h
  obtain ⟨b, s, hsplit, hfirst, hdigits⟩ := behind_split h
  have hnul : 0#8 ∉ b :: (s ++ tail z.minutes) := by
    intro hmem
    rcases List.mem_cons.mp hmem with hzero | hmem
    · rw [← hzero] at hfirst
      exact absurd hfirst (by decide)
    · rcases List.mem_append.mp hmem with hmem | hmem
      · exact isdigit_ne_zero (hdigits _ hmem) rfl
      · exact zero_notMem_tail h hmem
  rw [hsplit] at hconvert
  rw [text, hsplit, tzToUtcTime_behind hnul, if_neg (not_refused hfirst), scan_tail hdigits h.minutes]
  exact hconvert

/-- A string of another shape is refused. -/
theorem tzToUtcTime_refuses (hs : 0#8 ∉ s) (hno : ∀ z : Setting, z.Shape → s ≠ z.text) :
    tzToUtcTime (s ++ [0#8]) = some none := by
  have hsome := memcmpEq_isSome (s := lit "UTC") (p := s ++ [0#8]) (by decide) (by simp)
  obtain ⟨equal, hequal⟩ := Option.isSome_iff_exists.mp hsome
  cases equal with
  | false =>
    rw [tzToUtcTime, strlen_append hs, hequal]
    rfl
  | true =>
    have hprefix : lit "UTC" <+: s ++ [0#8] := (memcmpEq_true_iff.mp hequal).imp fun _ h => h.symm
    have hlen : (lit "UTC").length ≤ s.length := by
      by_contra hlt
      have hle : (s ++ [0#8]).length ≤ (lit "UTC").length := by
        rw [List.length_append, List.length_singleton]
        omega
      have hmem : 0#8 ∈ lit "UTC" := hprefix.eq_of_length_le hle ▸ List.mem_append_right s List.mem_cons_self
      exact absurd hmem (by decide)
    obtain ⟨r, rfl⟩ := List.prefix_of_prefix_length_le hprefix (List.prefix_append s [0#8]) hlen
    cases r with
    | nil => rfl
    | cons b t =>
      have hnul : 0#8 ∉ b :: t := fun h => hs (List.mem_append_right _ h)
      rw [tzToUtcTime_behind hnul]
      split
      next => rfl
      next hfirst =>
        obtain ⟨r, hr⟩ := Option.isSome_iff_exists.mp (scan_isSome t none)
        rw [hr]
        cases r with
        | none => rfl
        | some r =>
          obtain ⟨hours, minutes, hhours, hminutes, rfl⟩ := shape_of_scan hr
          by_cases hplus : b = 0x2B#8
          · exact absurd (hplus ▸ rfl) (hno ⟨.plus, hours, minutes⟩ ⟨hhours, hminutes, nofun⟩)
          · by_cases hminus : b = 0x2D#8
            · exact absurd (hminus ▸ rfl) (hno ⟨.minus, hours, minutes⟩ ⟨hhours, hminutes, nofun⟩)
            · have hdigit : isdigit b = true := by
                by_contra hb
                exact hfirst ⟨hplus, hminus, Bool.eq_false_iff.mpr hb⟩
              exact absurd rfl (hno ⟨.none, b :: hours, minutes⟩
                ⟨List.forall_mem_cons.mpr ⟨hdigit, hhours⟩, hminutes, fun _ => nofun⟩)

/-! ## The setting of a string is unique -/

theorem tail_inj {minutes minutes' : Option (List Byte)} (h : tail minutes = tail minutes') : minutes = minutes' := by
  cases minutes with
  | none =>
    cases minutes' with
    | none => rfl
    | some _ => exact nomatch h
  | some ds =>
    cases minutes' with
    | none => exact nomatch h
    | some _ => exact congrArg some (List.cons.inj h).2

theorem takeWhile_hours (h : z.Shape) : (z.hours ++ tail z.minutes).takeWhile isdigit = z.hours := by
  rw [List.takeWhile_append_of_pos h.hours]
  cases z.minutes with
  | none => exact List.append_nil _
  | some ds => exact (congrArg (z.hours ++ ·) (List.takeWhile_cons_of_neg (by decide))).trans (List.append_nil _)

theorem hours_inj {z' : Setting} (h : z.Shape) (h' : z'.Shape)
    (heq : z.hours ++ tail z.minutes = z'.hours ++ tail z'.minutes) :
    z.hours = z'.hours ∧ z.minutes = z'.minutes := by
  have hhours : z.hours = z'.hours := by rw [← takeWhile_hours h, heq, takeWhile_hours h']
  rw [hhours] at heq
  exact ⟨hhours, tail_inj (List.append_cancel_left heq)⟩

/-- The first character behind `UTC` gives the sign. -/
theorem sign_eq (h : z.Shape) {rest : List Byte} (heq : z.sign.text ++ (z.hours ++ tail z.minutes) = b :: rest) :
    z.sign = if b = 0x2B#8 then .plus else if b = 0x2D#8 then .minus else .none := by
  cases hsign : z.sign with
  | none =>
    rw [hsign] at heq
    have hdigit : isdigit b := by
      cases hhours : z.hours with
      | nil => exact absurd hhours (h.first hsign)
      | cons c s =>
        rw [hhours] at heq
        have hc : c = b := (List.cons.inj heq).1
        exact hc ▸ h.hours c (hhours ▸ List.mem_cons_self)
    obtain ⟨hlo, hhi⟩ := isdigit_iff.mp hdigit
    rw [if_neg (by bv_omega), if_neg (by bv_omega)]
  | plus =>
    rw [hsign] at heq
    rw [← (List.cons.inj heq).1]
    rfl
  | minus =>
    rw [hsign] at heq
    rw [← (List.cons.inj heq).1]
    rfl

theorem text_inj {z' : Setting} (h : z.Shape) (h' : z'.Shape) (heq : z.text = z'.text) : z = z' := by
  have hbehind : z.sign.text ++ (z.hours ++ tail z.minutes) = z'.sign.text ++ (z'.hours ++ tail z'.minutes) :=
    List.append_cancel_left heq
  obtain ⟨b, rest, hsplit, -⟩ := behind_split h
  have hsign : z.sign = z'.sign := by
    rw [sign_eq h hsplit, sign_eq h' (hbehind.symm.trans hsplit)]
  rw [hsign] at hbehind
  obtain ⟨hhours, hminutes⟩ := hours_inj h h' (List.append_cancel_left hbehind)
  cases z
  cases z'
  simp only at hsign hhours hminutes
  rw [hsign, hhours, hminutes]

/-! ## The arithmetic of the offset -/

theorem minute_of_none (h : z.minutes = some []) : z.minute = 0 := by
  rw [minute, h]
  rfl

theorem hour_of_nil (h : z.hours = []) : z.hour = 0 := by
  rw [hour, h]
  rfl

theorem offsetOf_eq {hour min : Int} :
    offsetOf hour min = if InZone ((hour * 3600 + (if hour < 0 then -min else min) * 60).bmod (2 ^ 32)) then
      some ((hour * 3600 + (if hour < 0 then -min else min) * 60).bmod (2 ^ 32)) else none := by
  have hmul : hour * 60 * 60 = hour * 3600 := by omega
  simp only [offsetOf, hmul]
  generalize (hour * 3600 + (if hour < 0 then -min else min) * 60).bmod (2 ^ 32) = sec
  by_cases h : InZone sec
  · rw [if_pos h, if_neg]
    unfold InZone at h
    omega
  · rw [if_neg h, if_pos]
    unfold InZone at h
    omega

/-- Up to a minus before zero hours, the parser computes the seconds under the sign, wrapped around. -/
theorem read_eq (hmin : z.minute < 60) (hzero : z.sign = .minus → z.hour = 0 → z.minute = 0) :
    z.read = if InZone z.wrapped then some z.wrapped else none := by
  have hle : min 2147483647 (z.minute : Int) = z.minute := by omega
  have hseconds : z.readHour * 3600 + (if z.readHour < 0 then -(z.minute : Int) else z.minute) * 60 =
      z.seconds (min z.hour z.cap) := by
    unfold readHour Setting.seconds cap
    cases hsign : z.sign with
    | minus =>
      simp only
      have hzero := hzero hsign
      split <;> omega
    | _ =>
      simp only
      split <;> omega
  rw [Setting.read, hle, if_neg (by omega), offsetOf_eq, hseconds]
  rfl

theorem read_minus (hmin : z.minute < 60) (hsign : z.sign = .minus) (hzero : z.hour = 0) :
    z.read = some ((z.minute * 60 : Nat) : Int) := by
  have hle : min 2147483647 (z.minute : Int) = z.minute := by omega
  have hhour : z.readHour = 0 := by
    unfold readHour
    rw [hsign, hzero]
    rfl
  have hmod : (0 * 3600 + (if (0 : Int) < 0 then -(z.minute : Int) else z.minute) * 60).bmod (2 ^ 32) =
      ((z.minute * 60 : Nat) : Int) := by
    rw [if_neg (by decide), Int.bmod_eq_of_le (by omega) (by omega)]
    omega
  rw [Setting.read, hle, if_neg (by omega), offsetOf_eq, hhour, hmod, if_pos]
  unfold InZone
  omega

theorem read_late (hmin : 60 ≤ z.minute) : z.read = none := by
  rw [Setting.read, if_pos (by omega)]

/-- Seconds in the zone do not wrap. -/
theorem wrapped_eq (h : InZone (z.seconds z.hour)) : z.wrapped = z.seconds z.hour := by
  have hle : z.hour ≤ z.cap := by
    unfold InZone Setting.seconds at h
    unfold cap
    cases hsign : z.sign with
    | _ =>
      rw [hsign] at h
      simp only at h ⊢
      omega
  rw [wrapped, Nat.min_eq_left hle]
  unfold InZone at h
  exact Int.bmod_eq_of_le (by omega) (by omega)

/-! ## Main result -/

theorem denotes_text (h : z.Shape) {sec : Int} : Denotes z.text sec ↔
    z.hours ≠ [] ∧ z.minutes ≠ some [] ∧ z.minute < 60 ∧ sec = z.seconds z.hour ∧ InZone sec := by
  constructor
  · rintro ⟨z', h', heq, hdenotes⟩
    exact text_inj h h' heq ▸ hdenotes
  · exact fun hdenotes => ⟨z, h, rfl, hdenotes⟩

/-- What the parser reads is what the string denotes, unless it slips. -/
theorem read_iff (h : z.Shape) : (∀ sec, z.read = some sec ↔ Denotes z.text sec) ↔ ¬ Slip z.text := by
  have hslip : Slip z.text ↔ z.minute < 60 ∧ (z.hours = [] ∨ z.minutes = some [] ∧ InZone z.wrapped ∨
      z.sign = .minus ∧ z.hour = 0 ∧ 0 < z.minute ∨ ¬ InZone (z.seconds z.hour) ∧ InZone z.wrapped) := by
    constructor
    · rintro ⟨z', h', heq, hslip⟩
      exact text_inj h h' heq ▸ hslip
    · exact fun hslip => ⟨z, h, rfl, hslip⟩
  simp only [hslip, denotes_text h]
  by_cases hmin : z.minute < 60
  case neg =>
    rw [read_late (by omega)]
    exact ⟨fun _ h => hmin h.1, fun _ sec => ⟨nofun, fun h => absurd h.2.2.1 hmin⟩⟩
  by_cases hzero : z.sign = .minus ∧ z.hour = 0 ∧ 0 < z.minute
  case pos =>
    -- the minutes stay positive
    refine ⟨fun hall => ?_, fun hno => absurd ⟨hmin, .inr (.inr (.inl hzero))⟩ hno⟩
    obtain ⟨-, -, -, hsec, -⟩ := (hall _).mp (read_minus hmin hzero.1 hzero.2.1)
    unfold Setting.seconds at hsec
    rw [hzero.1] at hsec
    simp only at hsec
    omega
  have hread := read_eq hmin fun hsign hhour => by
    by_contra hpos
    exact hzero ⟨hsign, hhour, Nat.pos_of_ne_zero hpos⟩
  rw [hread]
  by_cases hin : InZone z.wrapped
  case neg =>
    have hout : ¬ InZone (z.seconds z.hour) := fun h => hin (wrapped_eq h ▸ h)
    rw [if_neg hin]
    refine ⟨fun _ => ?_, fun _ sec => ⟨nofun, fun ⟨_, _, _, hsec, hsec'⟩ => absurd (hsec ▸ hsec') hout⟩⟩
    rintro ⟨-, hhours | hminutes | hminus | hwrap⟩
    · -- no hour: only minutes, which are in the zone
      have hlow : InZone (z.seconds z.hour) := by
        unfold InZone Setting.seconds
        rw [hour_of_nil hhours]
        cases z.sign with
        | _ =>
          simp only
          omega
      exact hout hlow
    · exact hin hminutes.2
    · exact hzero hminus
    · exact hin hwrap.2
  rw [if_pos hin]
  constructor
  · intro hall
    obtain ⟨hhours, hminutes, -, hsec, hsec'⟩ := (hall _).mp rfl
    rintro ⟨-, h | h | h | h⟩
    · exact hhours h
    · exact hminutes h.1
    · exact hzero h
    · exact h.1 (hsec ▸ hsec')
  · intro hno sec
    have hseconds : InZone (z.seconds z.hour) := by
      by_contra hout
      exact hno ⟨hmin, .inr (.inr (.inr ⟨hout, hin⟩))⟩
    rw [wrapped_eq hseconds]
    constructor
    · intro hsec
      have hsec := Option.some.inj hsec
      exact ⟨fun h => hno ⟨hmin, .inl h⟩, fun h => hno ⟨hmin, .inr (.inl ⟨h, hin⟩)⟩, hmin, hsec.symm, hsec ▸ hseconds⟩
    · exact fun h => congrArg some h.2.2.2.1.symm

theorem setenv_of_parsed {r : Option Int} (hread : tzToUtcTime (s ++ [0#8]) = some r) {tz : Option (List Byte)}
    {overwrite : Bool} (hset : tz = none ∨ overwrite = true) :
    ∃ r', setenv true tz (s ++ [0#8]) overwrite = some r' ∧ (r'.1 = true ↔ r.isSome) := by
  cases r with
  | none =>
    refine ⟨(false, tz), ?_, by simp⟩
    rw [setenv, hread]
    rfl
  | some sec =>
    refine ⟨(true, some (s ++ [0#8])), ?_, by simp⟩
    have hfree : ¬ (tz.isSome ∧ overwrite = false) := by
      rcases hset with rfl | rfl
      · exact fun h => nomatch h.1
      · exact fun h => nomatch h.2
    rw [setenv, hread]
    simp only [Option.bind_eq_bind, Option.bind_some, if_neg hfree]
    rfl

/-- The parser and `setenv` do what the strings of a time zone ask for, exactly when the string is none of those
that slip through. -/
theorem parsed_iff (s : List Byte) (hs : 0#8 ∉ s) : Parsed s ↔ ¬ Slip s := by
  by_cases hshape : ∃ z : Setting, z.Shape ∧ s = z.text
  · obtain ⟨z, h, rfl⟩ := hshape
    have hread := tzToUtcTime_text h
    rw [← read_iff h]
    constructor
    · rintro ⟨⟨r, hr, hall⟩, -⟩
      obtain rfl : r = z.read := Option.some.inj (hr.symm.trans hread)
      exact hall
    · intro hall
      refine ⟨⟨z.read, hread, hall⟩, fun tz overwrite hset => ?_⟩
      obtain ⟨r, hr, hsome⟩ := setenv_of_parsed hread hset
      refine ⟨r, hr, hsome.trans ?_⟩
      rw [Option.isSome_iff_exists]
      exact exists_congr hall
  · have hno : ∀ z : Setting, z.Shape → s ≠ z.text := fun z h heq => hshape ⟨z, h, heq⟩
    have hread := tzToUtcTime_refuses hs hno
    have hdenotes : ∀ sec, ¬ Denotes s sec := fun sec ⟨z, h, heq, _⟩ => hno z h heq
    refine ⟨fun _ ⟨z, h, heq, _⟩ => hno z h heq, fun _ => ⟨⟨none, hread, fun sec => ?_⟩, fun tz overwrite hset => ?_⟩⟩
    · exact ⟨nofun, fun h => absurd h (hdenotes sec)⟩
    · obtain ⟨r, hr, hsome⟩ := setenv_of_parsed hread hset
      refine ⟨r, hr, hsome.trans ⟨nofun, fun ⟨sec, h⟩ => absurd h (hdenotes sec)⟩⟩

/-- China's time zone. -/
theorem parsed_iff_utc8 : Parsed (lit "UTC+8") ↔ ¬ Slip (lit "UTC+8") := parsed_iff _ (by decide)

/-- Half an hour west of Greenwich is taken as half an hour east of it. -/
theorem not_parsed_minusZero : ¬ Parsed (lit "UTC-0:30") := by
  rintro ⟨⟨r, hr, hall⟩, -⟩
  have hread : tzToUtcTime (lit "UTC-0:30" ++ [0#8]) = some (some 1800) := by decide
  obtain rfl : r = some 1800 := Option.some.inj (hr.symm.trans hread)
  have hdenotes : Denotes (lit "UTC-0:30") (-1800) :=
    ⟨⟨.minus, lit "0", some (lit "30")⟩, ⟨by decide, fun ds hds => Option.some.inj hds ▸ by decide, nofun⟩, by decide, by decide,
      by decide, by decide, by decide, by decide⟩
  exact absurd (Option.some.inj ((hall _).mpr hdenotes)) (by decide)

end Text

end WmIot.Time
