import WmIot.Lib.Transition
import WmIot.Rtc.Clock

/-!
# The alarm of the real time clock

`wm_drv_ops_rtc.c` over `wm_hal_rtc.c`. A call is a sequence of steps; the clock may go on between any two of them,
and where the registers then show the time that was programmed last, the interrupt handler runs before the next
step. There is one alarm, so every `id` but zero is refused. A read of the clock is one step.
-/

namespace WmIot.Rtc
open Transition
open Time (Tm)
set_option autoImplicit false

/-- A `set_alarm` that was successful, with the time that it was given. -/
structure Setting where
  id : Nat
  time : Tm
deriving DecidableEq, Repr

/-- The callback was run: for the setting in force, if there was one. -/
structure Run where
  of : Option Setting
  now : Tm
deriving DecidableEq, Repr

/-- The alarm of the driver and of the hardware, and what has come of it. -/
structure Dev where
  /-- `alarm[0].active` -/
  active : Bool
  /-- `alarm[0].time` -/
  time : Tm
  /-- the alarm registers -/
  programmed : Tm
  enabled : Bool
  /-- the last setting that no call has undone -/
  current : Option Setting
  runs : List Run
deriving DecidableEq, Repr

/-- Where a call is: times are as the caller gave them. -/
inductive Pc where
  | idle
  | setTime (t : Tm)
  | clear
  | mask (m : BitVec 32) (t : Tm)
  | check (t : Tm)
  /-- the fields below `k` are copied -/
  | copy (t : Tm) (k : Nat)
  | program (t : Tm)
  | activate (t : Tm)
  | look (mask : Bool)
  | take (expect : Option Tm) (mask : Bool)
  | abort
  | disable
deriving DecidableEq, Repr

/-- What a `get_alarm` found in force, whether its `mask` was no NULL pointer, and what it returned. -/
structure Got where
  expect : Option Tm
  mask : Bool
  result : Option Tm
deriving DecidableEq, Repr

structure St where
  dev : Dev
  now : Tm
  pc : Pc
  /-- successful calls of `set_alarm` -/
  sets : Nat
  /-- as the call found it -/
  before : Dev
  /-- before and after each `set_alarm` that failed -/
  failures : List (Dev × Dev)
  gets : List Got
deriving DecidableEq, Repr

/-- `none` stands for a NULL pointer; the mutex may fail. -/
inductive Call where
  | setTime (time : Option Tm)
  | setAlarm (id : Int) (mask : BitVec 32) (time : Option Tm)
  | getAlarm (id : Int) (mask time : Bool)
  | abortAlarm (id : Int)
deriving DecidableEq, Repr

inductive Ev where
  | call (c : Call) (lock : Bool)
  /-- the next step of the call -/
  | next
  /-- a second goes by -/
  | tick
deriving DecidableEq, Repr

/-- Has this setting run the callback? -/
def Dev.Ran (d : Dev) (a : Setting) : Prop := some a ∈ d.runs.map Run.of

instance (d : Dev) (a : Setting) : Decidable (d.Ran a) := inferInstanceAs (Decidable (_ ∈ _))

/-- The setting that is in force and has not run. -/
def Dev.pending (d : Dev) : Option Setting := d.current.filter fun a => !decide (d.Ran a)

/-- The alarm is triggered. -/
def Dev.ring (d : Dev) (now : Tm) : Dev := { d with active := false, runs := ⟨d.current, now⟩ :: d.runs }

/-- `wm_800_rtc_callback`, of an alarm for which a callback is registered -/
def Dev.callback (d : Dev) (now : Tm) : Dev :=
  if d.active then
    if 0 < timeCompare d.time now then d else d.ring now
  else d

/-- The interrupt is raised where the registers meet the alarm. -/
def Dev.interrupt (d : Dev) (now : Tm) : Dev :=
  if d.enabled ∧ d.programmed = registers now then d.callback now else d

def St.tick (s : St) : St := { s with now := Rtc.tick s.now, dev := s.dev.interrupt (Rtc.tick s.now) }

/-- One field of the `memcpy`, in the order of `struct tm`. -/
def copyField (src dst : Tm) : Nat → Tm
  | 0 => { dst with sec := src.sec }
  | 1 => { dst with min := src.min }
  | 2 => { dst with hour := src.hour }
  | 3 => { dst with mday := src.mday }
  | 4 => { dst with mon := src.mon }
  | 5 => { dst with year := src.year }
  | 6 => { dst with wday := src.wday }
  | 7 => { dst with yday := src.yday }
  | _ => { dst with isdst := src.isdst }

/-- `wm_hal_rtc_get_supported_mask` -/
def supportedMask : BitVec 32 := 0

/-- A `set_alarm` returns an error. -/
def St.fail (s : St) : St := { s with pc := .idle, failures := (s.before, s.dev) :: s.failures }

/-- The checks of a call before its first step under the mutex. -/
def St.call (s : St) (lock : Bool) : Call → St
  | .setTime time =>
    match time.filter timeIsAvailable with
    | none => s
    | some t => if !lock then s else { s with pc := .setTime t }
  | .setAlarm id mask time =>
    let s := { s with before := s.dev }
    match time.filter timeIsAvailable with
    | none => s.fail
    | some t => if 1 ≤ id ∨ id < 0 ∨ !lock then s.fail else { s with pc := .mask mask t }
  | .getAlarm id mask time => if 1 ≤ id ∨ id < 0 ∨ !time ∨ !lock then s else { s with pc := .look mask }
  | .abortAlarm id => if 1 ≤ id ∨ id < 0 ∨ !lock then s else { s with pc := .abort }

/-- The next step of a call. While the driver is initialised no function of the HAL fails, but for a NULL `mask`. -/
def St.next (s : St) : Pc → Option St
  | .idle => none
  | .setTime t => some { s with now := registers (toW800 t), dev := { s.dev with enabled := false }, pc := .clear }
  | .clear => some { s with dev := { s.dev with active := false, current := none }, pc := .idle }
  | .mask m t => if m &&& ~~~supportedMask ≠ 0 then some s.fail else some { s with pc := .check t }
  | .check t => if timeCompare (toW800 t) s.now ≤ 0 then some s.fail else some { s with pc := .copy t 0 }
  | .copy t k => some { s with
      dev := { s.dev with time := copyField (toW800 t) s.dev.time k }
      pc := if k < 8 then .copy t (k + 1) else .program t }
  | .program t => some { s with
      dev := { s.dev with programmed := registers s.dev.time, enabled := true }, pc := .activate t }
  | .activate t => some { s with
      dev := { s.dev with active := true, current := some ⟨s.sets, t⟩ }, sets := s.sets + 1, pc := .idle }
  | .look mask =>
    if !s.dev.active then some { s with pc := .idle, gets := ⟨s.dev.pending.map Setting.time, mask, none⟩ :: s.gets }
    else some { s with pc := .take (s.dev.pending.map Setting.time) mask }
  | .take expect mask => some { s with
      pc := .idle, gets := ⟨expect, mask, if mask then some (toStd s.dev.time) else none⟩ :: s.gets }
  | .abort => some { s with dev := { s.dev with active := false, current := none }, pc := .disable }
  | .disable => some { s with dev := { s.dev with enabled := false }, pc := .idle }

def step (s : St) : Ev → Option St
  | .call c lock => if s.pc ≠ .idle then none else some (s.call lock c)
  | .next => s.next s.pc
  | .tick => some s.tick

/-- After the initialisation -/
def St.Init (s : St) : Prop :=
  OnCalendar s.now ∧ s.pc = .idle ∧ s.dev.active = false ∧ s.dev.current = none ∧ s.dev.runs = [] ∧
    s.failures = [] ∧ s.gets = []

/-- The time that a call is about to set, once it has compared it with the clock. -/
def Pc.replacing : Pc → Option Tm
  | .copy t _ | .program t | .activate t => some t
  | _ => none

/-- No call is changing the alarm. -/
def Pc.Settled (pc : Pc) : Prop := pc.replacing = none ∧ pc ≠ .clear

instance (pc : Pc) : Decidable pc.Settled := inferInstanceAs (Decidable (_ ∧ _))

/-- A run for a setting in force, at its time or later. -/
def Run.InTime (r : Run) : Prop := ∃ a, r.of = some a ∧ ¬ Before r.now (toW800 a.time)

/-- A failed call has changed nothing; the alarm may have rung meanwhile. -/
def Kept (old new : Dev) : Prop :=
  new.time = old.time ∧ new.programmed = old.programmed ∧ new.enabled = old.enabled ∧ new.current = old.current ∧
    (new.active = old.active ∨ old.active = true ∧ ∃ a, old.current = some a ∧ new.Ran a)

/-- What was in force is returned, and nothing else. -/
def Got.Right (g : Got) : Prop := ∀ t, (g.expect = some t → g.mask = true → g.result = some t) ∧
  (g.result = some t → g.expect = some t)

/-- The alarms are right: each setting runs at most once, while it is in force and not early, and it has run when its
time is reached; failed calls change nothing; what is returned is in force. -/
structure Sound (s : St) : Prop where
  once : (s.dev.runs.map Run.of).Nodup
  inTime : ∀ r ∈ s.dev.runs, r.InTime
  fires : s.pc.Settled → ∀ a, s.dev.current = some a → ¬ Before s.now (toW800 a.time) → s.dev.Ran a
  kept : ∀ p ∈ s.failures, Kept p.1 p.2
  right : ∀ g ∈ s.gets, g.Right

/-- Where a call has compared its time with the clock and is not yet done, the clock does not reach that time. -/
def Timely (s : St) (e : Ev) : Prop :=
  e = .tick → ∀ t ∈ s.pc.replacing, Before (Rtc.tick s.now) (toW800 t)

instance (s : St) (e : Ev) : Decidable (Timely s e) :=
  inferInstanceAs (Decidable (_ → ∀ t ∈ s.pc.replacing, _))

/-! ## What holds in between -/

/-- The active alarm is that of the setting in force, and it is ahead. -/
structure Armed (d : Dev) (now : Tm) (a : Setting) : Prop where
  current : d.current = some a
  fresh : ¬ d.Ran a
  time : d.time = toW800 a.time
  programmed : d.programmed = registers (toW800 a.time)
  enabled : d.enabled = true
  ahead : Before now (toW800 a.time)
  onCalendar : OnCalendar (toW800 a.time)

/-- No call is changing the alarm. -/
structure Quiet (d : Dev) (now : Tm) : Prop where
  armed : d.active = true → ∃ a, Armed d now a
  rung : d.active = false → ∀ a, d.current = some a → d.Ran a

/-- A call is changing the alarm: the active one can still ring for its setting. -/
def Leaving (d : Dev) : Prop := d.active = true → ∃ a, d.current = some a ∧ ¬ d.Ran a ∧
  (d.enabled = true → d.programmed = registers (toW800 a.time))

/-- The first `k` fields are those of the new time. -/
def CopiedTo (k : Nat) (src dst : Tm) : Prop :=
  (0 < k → dst.sec = src.sec) ∧ (1 < k → dst.min = src.min) ∧ (2 < k → dst.hour = src.hour) ∧
    (3 < k → dst.mday = src.mday) ∧ (4 < k → dst.mon = src.mon) ∧ (5 < k → dst.year = src.year) ∧
    (6 < k → dst.wday = src.wday) ∧ (7 < k → dst.yday = src.yday) ∧ (8 < k → dst.isdst = src.isdst)

/-- The new time is ahead. -/
def Ahead (now t : Tm) : Prop := OnCalendar (toW800 t) ∧ Before now (toW800 t)

/-- What holds where a call is. -/
def Stage (s : St) : Pc → Prop
  | .idle | .look _ | .abort => Quiet s.dev s.now
  | .setTime t => Quiet s.dev s.now ∧ OnCalendar (toW800 t)
  | .clear => Leaving s.dev ∧ s.dev.enabled = false
  | .mask _ t | .check t => Quiet s.dev s.now ∧ OnCalendar (toW800 t) ∧ Kept s.before s.dev
  | .copy t k => Leaving s.dev ∧ Ahead s.now t ∧ CopiedTo k (toW800 t) s.dev.time ∧ k ≤ 8
  | .program t => Leaving s.dev ∧ Ahead s.now t ∧ s.dev.time = toW800 t
  | .activate t => (s.dev.active = true → ∃ a, s.dev.current = some a ∧ ¬ s.dev.Ran a) ∧ Ahead s.now t ∧
      s.dev.time = toW800 t ∧ s.dev.programmed = registers (toW800 t) ∧ s.dev.enabled = true
  | .take expect _ => Quiet s.dev s.now ∧ expect = some (toStd s.dev.time)
  | .disable => s.dev.active = false ∧ s.dev.current = none

/-- The runs so far, of settings with numbers below `n`. -/
structure Recorded (d : Dev) (n : Nat) : Prop where
  once : (d.runs.map Run.of).Nodup
  inTime : ∀ r ∈ d.runs, r.InTime
  known : ∀ a, d.Ran a → a.id < n
  current : ∀ a, d.current = some a → a.id < n

structure Inv (s : St) : Prop where
  clock : OnCalendar s.now
  recorded : Recorded s.dev s.sets
  kept : ∀ p ∈ s.failures, Kept p.1 p.2
  right : ∀ g ∈ s.gets, g.Right
  stage : Stage s s.pc

theorem init_inv {s : St} (h : s.Init) : Inv s := by
  obtain ⟨hclock, hpc, hact, hcur, hruns, hfail, hgets⟩ := h
  have hran : ∀ a, ¬ s.dev.Ran a := by simp [Dev.Ran, hruns]
  refine ⟨hclock, ⟨by simp [hruns], by simp [hruns], fun a ha => absurd ha (hran a), by simp [hcur]⟩, by simp [hfail],
    by simp [hgets], ?_⟩
  rw [hpc]
  exact ⟨fun h => by simp [hact] at h, fun _ a ha => by simp [hcur] at ha⟩

/-! ## The interrupt -/

theorem ran_ring {d : Dev} {a : Setting} {now : Tm} : (d.ring now).Ran a ↔ d.current = some a ∨ d.Ran a := by
  simp [Dev.Ran, Dev.ring, eq_comm]

/-- The interrupt does nothing, or the active alarm rings. -/
theorem interrupt_cases (d : Dev) (now : Tm) : d.interrupt now = d ∨
    d.enabled = true ∧ d.programmed = registers now ∧ d.active = true ∧ ¬ Before now d.time ∧
      d.interrupt now = d.ring now := by
  unfold Dev.interrupt Dev.callback
  split_ifs with hhit hact hlater
  · exact .inl rfl
  · exact .inr ⟨hhit.1, hhit.2, hact, fun h => hlater ((timeCompare_pos _ _).mpr h), rfl⟩
  · exact .inl rfl
  · exact .inl rfl

/-- An alarm in force rings where the registers meet it. -/
theorem interrupt_hit {d : Dev} {now : Tm} (hen : d.enabled = true) (hprog : d.programmed = registers now)
    (hact : d.active = true) (htime : ¬ Before now d.time) : d.interrupt now = d.ring now := by
  rw [Dev.interrupt, if_pos ⟨hen, hprog⟩, Dev.callback, if_pos hact,
    if_neg fun h => htime ((timeCompare_pos _ _).mp h)]

theorem interrupt_miss {d : Dev} {now : Tm} (h : ¬ (d.enabled = true ∧ d.programmed = registers now)) :
    d.interrupt now = d := if_neg h

theorem interrupt_inactive {d : Dev} {now : Tm} (h : d.active = false) : d.interrupt now = d := by
  rcases interrupt_cases d now with heq | ⟨-, -, hact, -⟩
  · exact heq
  · rw [h] at hact
    cases hact

@[simp] theorem interrupt_time (d : Dev) (now : Tm) : (d.interrupt now).time = d.time := by
  rcases interrupt_cases d now with h | ⟨-, -, -, -, h⟩ <;> rw [h]
  rfl

@[simp] theorem interrupt_current (d : Dev) (now : Tm) : (d.interrupt now).current = d.current := by
  rcases interrupt_cases d now with h | ⟨-, -, -, -, h⟩ <;> rw [h]
  rfl

/-- Registers that meet a time are not before it. -/
theorem not_before_of_registers {now t : Tm} (h : registers now = registers t) : ¬ Before now t := by
  simp only [registers, Tm.mk.injEq, and_true] at h
  unfold Before
  omega

/-- The record is of the runs and the setting in force. -/
theorem Recorded.congr {d d' : Dev} {n : Nat} (h : Recorded d n) (hruns : d'.runs = d.runs)
    (hcur : d'.current = d.current) : Recorded d' n where
  once := by
    rw [hruns]
    exact h.once
  inTime := by
    rw [hruns]
    exact h.inTime
  known := by
    intro a ha
    rw [Dev.Ran, hruns] at ha
    exact h.known a ha
  current := by
    rw [hcur]
    exact h.current

theorem Recorded.ring {d : Dev} {n : Nat} {a : Setting} {now : Tm} (h : Recorded d n) (hcur : d.current = some a)
    (hfresh : ¬ d.Ran a) (htime : ¬ Before now (toW800 a.time)) : Recorded (d.ring now) n where
  once := by
    simp only [Dev.ring, List.map_cons, List.nodup_cons, hcur]
    exact ⟨hfresh, h.once⟩
  inTime := fun r hr => by
    rcases List.mem_cons.mp hr with rfl | hr
    · exact ⟨a, hcur, htime⟩
    · exact h.inTime r hr
  known := fun b hb => by
    rcases ran_ring.mp hb with hb | hb
    · exact h.current b hb
    · exact h.known b hb
  current := h.current

/-- An alarm that is ahead rings when it is reached. -/
theorem Quiet.interrupt {d : Dev} {now : Tm} {n : Nat} (h : Quiet d now) (hrec : Recorded d n) :
    Quiet (d.interrupt (Rtc.tick now)) (Rtc.tick now) ∧ Recorded (d.interrupt (Rtc.tick now)) n := by
  cases hact : d.active with
  | false =>
    rw [interrupt_inactive hact]
    exact ⟨⟨fun h => by simp [hact] at h, h.rung⟩, hrec⟩
  | true =>
    obtain ⟨a, ha⟩ := h.armed hact
    have hle := tick_le ha.onCalendar ha.ahead
    by_cases hhit : Before (Rtc.tick now) (toW800 a.time)
    · -- still ahead
      rw [interrupt_miss fun hreg => not_before_of_registers (hreg.2.symm.trans ha.programmed) hhit]
      exact ⟨⟨fun _ => ⟨a, { ha with ahead := hhit }⟩, h.rung⟩, hrec⟩
    · rw [interrupt_hit ha.enabled (ha.programmed.trans (registers_eq hle hhit)) hact (by rwa [ha.time])]
      refine ⟨⟨fun hring => Bool.noConfusion hring, fun _ b hb => ran_ring.mpr (.inl hb)⟩, ?_⟩
      exact hrec.ring ha.current ha.fresh hhit

theorem Leaving.interrupt {d : Dev} {now : Tm} {n : Nat} (h : Leaving d) (hrec : Recorded d n) :
    Leaving (d.interrupt now) ∧ Recorded (d.interrupt now) n := by
  rcases interrupt_cases d now with heq | ⟨hen, hprog, hact, -, heq⟩ <;> rw [heq]
  · exact ⟨h, hrec⟩
  · obtain ⟨a, hcur, hfresh, ha⟩ := h hact
    refine ⟨fun hring => Bool.noConfusion hring, hrec.ring hcur hfresh ?_⟩
    exact not_before_of_registers (hprog.symm.trans (ha hen))

theorem Kept.interrupt {old d : Dev} {now now' : Tm} (h : Kept old d) (hquiet : Quiet d now) :
    Kept old (d.interrupt now') := by
  rcases interrupt_cases d now' with heq | ⟨-, -, hact, -, heq⟩ <;> rw [heq]
  · exact h
  · obtain ⟨htime, hprog, hen, hcur, hstay⟩ := h
    obtain ⟨a, ha⟩ := hquiet.armed hact
    refine ⟨htime, hprog, hen, hcur, .inr ?_⟩
    rcases hstay with hstay | ⟨hold, b, hb, hran⟩
    · exact ⟨hstay.symm.trans hact, a, hcur.symm.trans ha.current, ran_ring.mpr (.inl ha.current)⟩
    · exact ⟨hold, b, hb, ran_ring.mpr (.inr hran)⟩

/-- A second goes by. -/
theorem Inv.tick {s : St} (h : Inv s) (htimely : Timely s .tick) : Inv s.tick := by
  have hclock := onCalendar_tick h.clock
  have hahead := htimely rfl
  have hstage := h.stage
  suffices hdev : Recorded (s.dev.interrupt (Rtc.tick s.now)) s.sets ∧ Stage s.tick s.pc from
    ⟨hclock, hdev.1, h.kept, h.right, hdev.2⟩
  cases hpc : s.pc with
  | idle | look | abort =>
    rw [hpc] at hstage
    exact (Quiet.interrupt hstage h.recorded).symm
  | setTime t =>
    rw [hpc] at hstage
    obtain ⟨hquiet, hrec⟩ := hstage.1.interrupt h.recorded
    exact ⟨hrec, hquiet, hstage.2⟩
  | clear =>
    rw [hpc] at hstage
    have hsame : s.dev.interrupt (Rtc.tick s.now) = s.dev := interrupt_miss fun hhit => by simp [hstage.2] at hhit
    simp only [Stage, St.tick, hsame]
    exact ⟨h.recorded, hstage⟩
  | mask m t | check t =>
    rw [hpc] at hstage
    obtain ⟨hquiet, hrec⟩ := hstage.1.interrupt h.recorded
    exact ⟨hrec, hquiet, hstage.2.1, hstage.2.2.interrupt hstage.1⟩
  | copy t k =>
    rw [hpc] at hstage hahead
    obtain ⟨hleave, hnew, hcopied, hk⟩ := hstage
    obtain ⟨hleave', hrec⟩ := @Leaving.interrupt _ (Rtc.tick s.now) _ hleave h.recorded
    refine ⟨hrec, hleave', ⟨hnew.1, hahead t rfl⟩, ?_, hk⟩
    simpa [St.tick] using hcopied
  | program t =>
    rw [hpc] at hstage hahead
    obtain ⟨hleave, hnew, htime⟩ := hstage
    obtain ⟨hleave', hrec⟩ := @Leaving.interrupt _ (Rtc.tick s.now) _ hleave h.recorded
    exact ⟨hrec, hleave', ⟨hnew.1, hahead t rfl⟩, by simpa [St.tick] using htime⟩
  | activate t =>
    rw [hpc] at hstage hahead
    obtain ⟨hact, hnew, htime, hprog, hen⟩ := hstage
    have hsame : s.dev.interrupt (Rtc.tick s.now) = s.dev :=
      interrupt_miss fun hhit => not_before_of_registers (hhit.2.symm.trans hprog) (hahead t rfl)
    simp only [Stage, St.tick, hsame]
    exact ⟨h.recorded, hact, ⟨hnew.1, hahead t rfl⟩, htime, hprog, hen⟩
  | take expect mask =>
    rw [hpc] at hstage
    obtain ⟨hquiet, hrec⟩ := hstage.1.interrupt h.recorded
    exact ⟨hrec, hquiet, by simpa [St.tick] using hstage.2⟩
  | disable =>
    rw [hpc] at hstage
    simp only [Stage, St.tick, interrupt_inactive hstage.1]
    exact ⟨h.recorded, hstage⟩

/-! ## The steps of a call -/

/-- A `set_alarm` fails where it has changed nothing. -/
theorem Inv.fail {s : St} (h : Inv s) (hquiet : Quiet s.dev s.now) (hkept : Kept s.before s.dev) : Inv s.fail := by
  refine ⟨h.clock, h.recorded, fun p hp => ?_, h.right, hquiet⟩
  rcases List.mem_cons.mp hp with rfl | hp
  · exact hkept
  · exact h.kept p hp

theorem Kept.refl (d : Dev) : Kept d d := ⟨rfl, rfl, rfl, rfl, .inl rfl⟩

theorem Inv.call {s : St} (h : Inv s) (hpc : s.pc = .idle) (lock : Bool) (c : Call) : Inv (s.call lock c) := by
  have hquiet : Quiet s.dev s.now := by
    have hstage := h.stage
    rw [hpc] at hstage
    exact hstage
  have havail : ∀ {time : Option Tm} {t : Tm}, time.filter timeIsAvailable = some t → OnCalendar (toW800 t) :=
    fun ht => onCalendar_of_available (Option.filter_eq_some_iff.mp ht).2
  have hbefore : Inv { s with before := s.dev } := by
    refine ⟨h.clock, h.recorded, h.kept, h.right, ?_⟩
    rw [hpc]
    exact hquiet
  cases c with
  | setTime time =>
    rw [St.call]
    split
    · exact h
    next t ht =>
      split
      · exact h
      · exact ⟨h.clock, h.recorded, h.kept, h.right, hquiet, havail ht⟩
  | setAlarm id mask time =>
    rw [St.call]
    dsimp only
    split
    · exact hbefore.fail hquiet (.refl _)
    next t ht =>
      split
      · exact hbefore.fail hquiet (.refl _)
      · exact ⟨h.clock, h.recorded, h.kept, h.right, hquiet, havail ht, .refl _⟩
  | getAlarm id mask time =>
    rw [St.call]
    split
    · exact h
    · exact ⟨h.clock, h.recorded, h.kept, h.right, hquiet⟩
  | abortAlarm id =>
    rw [St.call]
    split
    · exact h
    · exact ⟨h.clock, h.recorded, h.kept, h.right, hquiet⟩

/-- The pending setting is that of the active alarm. -/
theorem Armed.pending {d : Dev} {now : Tm} {a : Setting} (h : Armed d now a) : d.pending = some a := by
  simp [Dev.pending, h.current, h.fresh]

theorem Quiet.pending {d : Dev} {now : Tm} (h : Quiet d now) (hact : d.active = false) : d.pending = none := by
  rw [Dev.pending, Option.filter_eq_none_iff]
  intro a ha
  simpa using h.rung hact a ha

/-- The copy of one more field. -/
theorem CopiedTo.field {k : Nat} {src dst : Tm} (h : CopiedTo k src dst) (hk : k ≤ 8) :
    CopiedTo (k + 1) src (copyField src dst k) := by
  obtain ⟨h0, h1, h2, h3, h4, h5, h6, h7, -⟩ := h
  unfold CopiedTo
  interval_cases k <;> simp_all [copyField]

theorem CopiedTo.eq {src dst : Tm} (h : CopiedTo 9 src dst) : dst = src := by
  obtain ⟨h0, h1, h2, h3, h4, h5, h6, h7, h8⟩ := h
  cases src
  cases dst
  simp_all

theorem Leaving.of_quiet {d : Dev} {now : Tm} (h : Quiet d now) : Leaving d := fun hact =>
  have ⟨a, ha⟩ := h.armed hact
  ⟨a, ha.current, ha.fresh, fun _ => ha.programmed⟩

theorem Inv.next {s s' : St} (h : Inv s) (hstep : s.next s.pc = some s') : Inv s' := by
  have hstage := h.stage
  cases hpc : s.pc with
  | idle =>
    rw [hpc] at hstep
    cases hstep
  | setTime t =>
    rw [hpc] at hstep hstage
    cases hstep
    obtain ⟨hquiet, hcal⟩ := hstage
    refine ⟨onCalendar_registers hcal, h.recorded.congr rfl rfl, h.kept, h.right, fun hact => ?_, rfl⟩
    obtain ⟨a, ha⟩ := hquiet.armed hact
    exact ⟨a, ha.current, ha.fresh, fun hen => Bool.noConfusion hen⟩
  | clear =>
    rw [hpc] at hstep
    cases hstep
    exact ⟨h.clock, { h.recorded with current := fun a ha => by cases ha }, h.kept, h.right,
      fun hact => Bool.noConfusion hact, fun _ a ha => by cases ha⟩
  | mask m t =>
    rw [hpc] at hstep hstage
    rw [St.next] at hstep
    obtain ⟨hquiet, hcal, hkept⟩ := hstage
    split at hstep <;> cases hstep
    · exact h.fail hquiet hkept
    · exact ⟨h.clock, h.recorded, h.kept, h.right, hquiet, hcal, hkept⟩
  | check t =>
    rw [hpc] at hstep hstage
    rw [St.next] at hstep
    obtain ⟨hquiet, hcal, hkept⟩ := hstage
    split at hstep
    · cases hstep
      exact h.fail hquiet hkept
    next hlater =>
      cases hstep
      have hahead : Before s.now (toW800 t) := (timeCompare_pos _ _).mp (not_le.mp hlater)
      exact ⟨h.clock, h.recorded, h.kept, h.right, .of_quiet hquiet, ⟨hcal, hahead⟩, by simp [CopiedTo], by decide⟩
  | copy t k =>
    rw [hpc] at hstep hstage
    obtain ⟨hleave, hnew, hcopied, hk⟩ := hstage
    have hmore := hcopied.field hk
    cases hstep
    refine ⟨h.clock, h.recorded.congr rfl rfl, h.kept, h.right, ?_⟩
    dsimp only
    split
    next hlt => exact ⟨hleave, hnew, hmore, hlt⟩
    next hge =>
      obtain rfl : k = 8 := by omega
      exact ⟨hleave, hnew, hmore.eq⟩
  | program t =>
    rw [hpc] at hstep hstage
    obtain ⟨hleave, hnew, htime⟩ := hstage
    cases hstep
    refine ⟨h.clock, h.recorded.congr rfl rfl, h.kept, h.right,
      fun hact => ?_, hnew, htime, congrArg registers htime, rfl⟩
    obtain ⟨a, hcur, hfresh, -⟩ := hleave hact
    exact ⟨a, hcur, hfresh⟩
  | activate t =>
    rw [hpc] at hstep hstage
    obtain ⟨-, hnew, htime, hprog, hen⟩ := hstage
    cases hstep
    have hfresh : ¬ s.dev.Ran ⟨s.sets, t⟩ := fun hran => lt_irrefl _ (h.recorded.known _ hran)
    refine ⟨h.clock, ⟨h.recorded.once, h.recorded.inTime, fun a ha => Nat.lt_succ_of_lt (h.recorded.known a ha),
      fun a ha => ?_⟩, h.kept, h.right, fun _ => ⟨⟨s.sets, t⟩, rfl, hfresh, htime, hprog, hen, hnew.2, hnew.1⟩,
      fun hact => Bool.noConfusion hact⟩
    cases ha
    exact Nat.lt_succ_self _
  | look mask =>
    rw [hpc] at hstep hstage
    rw [St.next] at hstep
    cases hact : s.dev.active with
    | false =>
      rw [if_pos (by simp [hact])] at hstep
      cases hstep
      refine ⟨h.clock, h.recorded, h.kept, fun g hg => ?_, hstage⟩
      rcases List.mem_cons.mp hg with rfl | hg
      · simp [Got.Right, Quiet.pending hstage hact]
      · exact h.right g hg
    | true =>
      rw [if_neg (by simp [hact])] at hstep
      cases hstep
      obtain ⟨a, ha⟩ := hstage.armed hact
      refine ⟨h.clock, h.recorded, h.kept, h.right, hstage, ?_⟩
      rw [ha.pending, ha.time, toStd_toW800]
      rfl
  | take expect mask =>
    rw [hpc] at hstep hstage
    obtain ⟨hquiet, rfl⟩ := hstage
    cases hstep
    refine ⟨h.clock, h.recorded, h.kept, fun g hg => ?_, hquiet⟩
    rcases List.mem_cons.mp hg with rfl | hg
    · intro t
      cases mask <;> simp
    · exact h.right g hg
  | abort =>
    rw [hpc] at hstep
    cases hstep
    exact ⟨h.clock, { h.recorded with current := fun a ha => by cases ha }, h.kept, h.right, rfl, rfl⟩
  | disable =>
    rw [hpc] at hstep hstage
    cases hstep
    exact ⟨h.clock, h.recorded.congr rfl rfl, h.kept, h.right,
      fun hact => absurd hact (by simp [hstage.1]), fun _ a ha => absurd ha (by simp [hstage.2])⟩

theorem step_inv {s s' : St} {e : Ev} (h : Inv s) (htimely : Timely s e) (hstep : step s e = some s') : Inv s' := by
  cases e with
  | call c lock =>
    simp only [step] at hstep
    split at hstep
    · cases hstep
    next hpc =>
      cases hstep
      exact h.call (not_not.mp hpc) lock c
  | next => exact h.next hstep
  | tick =>
    cases hstep
    exact h.tick htimely

/-- Where no call is changing the alarm, it is in force or has rung. -/
theorem Inv.quiet {s : St} (h : Inv s) (hpc : s.pc.Settled) : Quiet s.dev s.now := by
  have hstage := h.stage
  obtain ⟨hrep, hclear⟩ := hpc
  cases hpc : s.pc with
  | idle | look | abort => rwa [hpc] at hstage
  | setTime | mask | check | take =>
    rw [hpc] at hstage
    exact hstage.1
  | clear => exact absurd hpc hclear
  | copy | program | activate =>
    rw [hpc] at hrep
    cases hrep
  | disable =>
    rw [hpc] at hstage
    exact ⟨fun hact => absurd hact (by simp [hstage.1]), fun _ a ha => absurd ha (by simp [hstage.2])⟩

def blankTime : Tm := ⟨0, 0, 0, 0, 0, 0, 0, 0, 0⟩

def newYear : Tm := ⟨0, 0, 0, 1, 1, 24, 0, 0, 0⟩

def fresh : St :=
  let dev : Dev := ⟨false, blankTime, blankTime, false, none, []⟩
  ⟨dev, newYear, .idle, 0, dev, [], []⟩

theorem fresh_init : fresh.Init := by
  refine ⟨⟨by decide, by decide, by decide, by decide, by decide⟩, rfl, rfl, rfl, rfl, rfl, rfl⟩

/-- Two seconds after the start, as a caller gives it. -/
def secondSecond : Tm := ⟨2, 0, 0, 1, 0, 124, 1, 0, 0⟩

/-- The steps of a `set_alarm` up to its last one. -/
def setting (t : Tm) : List Ev := .call (.setAlarm 0 0 (some t)) true :: List.replicate 12 .next

theorem exec_sound {ok : St → Ev → Prop} {evs : List Ev} (halong : Along step ok fresh evs)
    {s : St} (hrun : exec step fresh evs = some s) : Reached St.Init step ok s :=
  Reached.of_exec (.start fresh_init) halong hrun

/-- The alarm is asked for, rings, and a later `set_alarm` in the past fails. -/
def ringing : List Ev :=
  setting secondSecond ++ [.next, .call (.getAlarm 0 true true) true, .next, .next, .tick, .tick] ++
    [.call (.setAlarm 0 0 (some secondSecond)) true, .next, .next]

/-- The clock reaches the new time before the alarm is activated. -/
def overtaken : List Ev := setting secondSecond ++ [.tick, .tick, .next]

end WmIot.Rtc
