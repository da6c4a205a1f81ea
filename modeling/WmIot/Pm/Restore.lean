import WmIot.Pm.PowerManager
import WmIot.Lib.Transition

/-!
# What the power manager leaves behind

Runs of calls: a sleep gives back the lock and the clocks, a configuration that succeeds has its devices,
and no call meets a missing device.
-/

namespace WmIot.Pm
open Transition
set_option autoImplicit false

inductive Call where
  | setConfig (config : Option Config) (o : SetOutcome)
  | lockAcquire
  | lockRelease
  | enterSleep (ticks : Nat) (o : SleepOutcome)

/-- The context that a call leaves when it returns. -/
def step (hz : Nat) (c : Ctx) : Call → Option Ctx
  | .setConfig config o => some (setConfig c config o).1
  | .lockAcquire => (lockAcquire c).map (·.1)
  | .lockRelease => some (lockRelease c).1
  | .enterSleep ticks o =>
    match enterSleep hz c ticks o with
    | .ret c _ _ => some c
    | .fault => none

/-- The lock and the timer or PMU that a mode needs are there. -/
def Equipped (c : Ctx) (mode : Nat) : Prop :=
  c.lock.isSome ∧ (mode = lightSleep → c.timer) ∧ (mode = deepSleep ∨ mode = standby → c.pmu)

/-- A sleep ends with the count of the lock that it met and without a clock that it disabled. -/
def Restores (c : Ctx) : SleepResult → Prop
  | .ret c' _ _ => c'.lock = c.lock ∧ ∀ i, c.clocks.getLsbD i → c'.clocks.getLsbD i
  | .fault => False

/-- What is expected of a call. -/
def Sound (hz : Nat) (c : Ctx) : Call → Prop
  | .setConfig (some config) o =>
    (setConfig c (some config) o).2 = success → config.mode ≠ 0 →
      Equipped (setConfig c (some config) o).1 config.mode
  | .enterSleep ticks o => Restores c (enterSleep hz c ticks o)
  | _ => True

/-- The timer of a light sleep starts. The mode that was recorded last is set again only while its lock is
there, that is, when no later change of the mode has failed. A change of the mode does not find the clock
device where a `wm_drv_clock_init` without memory has left it. -/
def Undisturbed (hz : Nat) (c : Ctx) : Call → Prop
  | .setConfig (some config) _ =>
    (config.mode = c.config.mode → config.mode = 0 ∨ c.lock.isSome) ∧
      (config.mode ≠ c.config.mode → config.mode = 0 ∨ c.rccDev.state ≠ .initing)
  | .enterSleep ticks o =>
    c.config.mode = lightSleep → c.lock = some 1 → o.timerStart (sleepTimeMs hz ticks) = success
  | _ => True

instance Undisturbed.decidable (hz : Nat) (c : Ctx) : ∀ call, Decidable (Undisturbed hz c call)
  | .setConfig (some _) _ => inferInstanceAs (Decidable (_ ∧ _))
  | .setConfig none _ => inferInstanceAs (Decidable True)
  | .lockAcquire => inferInstanceAs (Decidable True)
  | .lockRelease => inferInstanceAs (Decidable True)
  | .enterSleep _ _ => inferInstanceAs (Decidable (_ → _ → _))

/-! ## The invariant -/

/-- Where there is a lock, its mode is recorded and has its devices. -/
structure Inv (c : Ctx) : Prop where
  rccDev : c.rccDev.drv ↔ c.rccDev.state = .inited
  lock : ∀ n, c.lock = some n → n ≤ 1 ∧ c.rcc ∧ c.rccDev.drv ∧ Equipped c c.config.mode

theorem drvClockInit_spec {dev dev' : RccDev} {o : ClockOutcome} {found : Bool}
    (h : drvClockInit dev o = (dev', found)) (hdev : dev.drv ↔ dev.state = .inited) :
    (dev'.drv ↔ dev'.state = .inited) ∧ (found → dev.state ≠ .initing → dev'.drv) := by
  unfold drvClockInit at h
  split at h
  next =>
    obtain ⟨rfl, rfl⟩ := Prod.mk.inj h
    exact ⟨hdev, nofun⟩
  next =>
    split at h
    next hnew =>
      split at h
      next =>
        obtain ⟨rfl, rfl⟩ := Prod.mk.inj h
        exact ⟨by simpa using hnew.1, nofun⟩
      next =>
        split at h
        next =>
          obtain ⟨rfl, rfl⟩ := Prod.mk.inj h
          exact ⟨by decide, nofun⟩
        next =>
          obtain ⟨rfl, rfl⟩ := Prod.mk.inj h
          exact ⟨by decide, fun _ _ => rfl⟩
    next hold =>
      obtain ⟨rfl, rfl⟩ := Prod.mk.inj h
      refine ⟨hdev, fun _ hstate => ?_⟩
      cases hdrv : dev.drv with
      | true => rfl
      | false =>
        have huninit : dev.state ≠ .uninit := fun h => hold ⟨by rw [hdrv]; rfl, h⟩
        have hinited : dev.state ≠ .inited := fun h => by
          rw [hdev.mpr h] at hdrv
          exact absurd hdrv (by decide)
        cases hst : dev.state with
        | uninit => exact absurd hst huninit
        | initing => exact absurd hst hstate
        | inited => exact absurd hst hinited

theorem drvClockDeinit_spec {dev : RccDev} (hdev : dev.drv ↔ dev.state = .inited) :
    (drvClockDeinit dev).drv ↔ (drvClockDeinit dev).state = .inited := by
  unfold drvClockDeinit
  split
  next => decide
  next => exact hdev

/-- A failing change leaves no lock; one that succeeds has the devices of its mode. -/
theorem setUp_spec {c c' : Ctx} {config : Config} {o : SetOutcome} {err : Err} (h : setUp c config o = (c', err))
    (hlock : c.lock = none) (hdev : c.rccDev.drv ↔ c.rccDev.state = .inited) :
    (c'.rccDev.drv ↔ c'.rccDev.state = .inited) ∧ (c'.lock = none ∨
      c'.lock = some 1 ∧ c'.rcc ∧ err = success ∧ Equipped c' config.mode ∧
        (c.rccDev.state ≠ .initing → c'.rccDev.drv)) ∧
      (err = success → config.mode ≠ 0 → c'.lock = some 1) := by
  unfold setUp at h
  split at h
  next hzero =>
    obtain ⟨rfl, rfl⟩ := Prod.mk.inj h
    exact ⟨hdev, .inl hlock, fun _ hne => absurd hzero hne⟩
  next hmode =>
    split at h
    next =>
      obtain ⟨rfl, rfl⟩ := Prod.mk.inj h
      exact ⟨hdev, .inl hlock, fun h => absurd h (by decide)⟩
    next =>
      dsimp only at h
      rcases hinit : drvClockInit c.rccDev o.clock with ⟨dev, found⟩
      obtain ⟨hdev', hdrv⟩ := drvClockInit_spec hinit hdev
      rw [hinit] at h
      dsimp only at h
      split at h
      next =>
        obtain ⟨rfl, rfl⟩ := Prod.mk.inj h
        exact ⟨hdev', .inl rfl, fun h => absurd h (by decide)⟩
      next hfound =>
        have hfound : found = true := by simpa using hfound
        split at h
        next hlight =>
          split at h
          next =>
            obtain ⟨rfl, rfl⟩ := Prod.mk.inj h
            exact ⟨drvClockDeinit_spec hdev', .inl rfl, fun h => absurd h (by decide)⟩
          next =>
            obtain ⟨rfl, rfl⟩ := Prod.mk.inj h
            refine ⟨hdev', .inr ⟨rfl, hfound, rfl, ⟨rfl, fun _ => rfl, fun hother => ?_⟩, hdrv hfound⟩,
              fun _ _ => rfl⟩
            rw [hlight] at hother
            exact absurd hother (by decide)
        next hlight =>
          split at h
          next hpmu =>
            split at h
            next =>
              obtain ⟨rfl, rfl⟩ := Prod.mk.inj h
              exact ⟨drvClockDeinit_spec hdev', .inl rfl, fun h => absurd h (by decide)⟩
            next =>
              obtain ⟨rfl, rfl⟩ := Prod.mk.inj h
              exact ⟨hdev', .inr ⟨rfl, hfound, rfl, ⟨rfl, fun h => absurd h hlight, fun _ => rfl⟩, hdrv hfound⟩,
                fun _ _ => rfl⟩
          next hpmu =>
            obtain ⟨rfl, rfl⟩ := Prod.mk.inj h
            exact ⟨hdev', .inr ⟨rfl, hfound, rfl,
              ⟨rfl, fun h => absurd h hlight, fun h => absurd h hpmu⟩, hdrv hfound⟩, fun _ _ => rfl⟩

theorem setConfig_inv {hz : Nat} {c : Ctx} {config : Option Config} {o : SetOutcome} (hinv : Inv c)
    (hok : Undisturbed hz c (.setConfig config o)) : Inv (setConfig c config o).1 := by
  cases config with
  | none => exact hinv
  | some config =>
    dsimp only [setConfig]
    split
    next => exact hinv
    next hne =>
      rcases hup : setUp (tearDown c) config o with ⟨c', err⟩
      obtain ⟨hdev, hlock, hsuccess⟩ := setUp_spec hup rfl hinv.rccDev
      dsimp only
      have hstate := hok.2 hne
      split
      next herr =>
        refine ⟨hdev, fun n hn => ?_⟩
        dsimp only at hn ⊢
        rcases hlock with hnone | ⟨hone, hrcc, _, hequipped, hdrv⟩
        · rw [hnone] at hn
          nomatch hn
        · rw [hone] at hn
          have hmode : config.mode ≠ 0 := by
            intro hzero
            rw [setUp, if_pos hzero] at hup
            rw [← (Prod.mk.inj hup).1] at hone
            nomatch hone
          cases hn
          exact ⟨Nat.le_refl 1, hrcc, hdrv (hstate.resolve_left hmode), hequipped⟩
      next herr =>
        refine ⟨hdev, fun n hn => ?_⟩
        rcases hlock with hnone | ⟨_, _, hsucc, _⟩
        · rw [hnone] at hn
          nomatch hn
        · exact absurd hsucc herr

theorem setConfig_sound {hz : Nat} {c : Ctx} {config : Config} {o : SetOutcome} (hinv : Inv c)
    (hok : Undisturbed hz c (.setConfig (some config) o)) : Sound hz c (.setConfig (some config) o) := by
  intro herr hmode
  dsimp only [setConfig] at herr ⊢
  split at herr
  next heq =>
    rw [if_pos heq]
    obtain ⟨n, hn⟩ := Option.isSome_iff_exists.mp ((hok.1 heq).resolve_left hmode)
    rw [heq]
    exact (hinv.lock n hn).2.2.2
  next hne =>
    rw [if_neg hne]
    rcases hup : setUp (tearDown c) config o with ⟨c', err⟩
    obtain ⟨_, hlock, hsuccess⟩ := setUp_spec hup rfl hinv.rccDev
    rw [hup] at herr
    dsimp only at herr ⊢
    split at herr
    next hsucc =>
      rw [if_pos hsucc]
      rcases hlock with hnone | ⟨_, _, _, hequipped, _⟩
      · rw [hsuccess hsucc hmode] at hnone
        nomatch hnone
      · exact hequipped
    next hfail => exact absurd herr hfail

/-! ## Sleep -/

/-- The context after a sleep: the clocks are disabled and enabled, the lock is free. -/
theorem closeClocks_spec {c d : Ctx} (h : closeClocks c = some d) :
    ∃ k, d = { c with clocks := k } ∧
      ∀ i, c.clocks.getLsbD i → (openClocks d).clocks.getLsbD i := by
  unfold closeClocks at h
  split at h
  next hzero =>
    cases h
    refine ⟨c.clocks, rfl, fun i hi => ?_⟩
    rw [openClocks, if_pos hzero]
    exact hi
  next hsome =>
    split at h
    next => nomatch h
    next =>
      cases h
      refine ⟨_, rfl, fun i hi => ?_⟩
      have hlt : i < 32 := BitVec.lt_of_getLsbD hi
      dsimp only [openClocks]
      rw [if_neg hsome]
      simp only [BitVec.getLsbD_or, BitVec.getLsbD_and, BitVec.getLsbD_not, hi, hlt, decide_true, Bool.true_and]
      cases c.config.sleepDevBitmap.getLsbD i <;> simp

theorem lightSleepFor_spec {hz : Nat} {c : Ctx} {ticks : Nat} {o : SleepOutcome} (htimer : c.timer)
    (hstart : o.timerStart (sleepTimeMs hz ticks) = success) : ∃ w err stepped,
      lightSleepFor hz c ticks o = .ret (openClocks { c with isTimerWakeup := w }) err stepped := by
  dsimp only [lightSleepFor]
  rw [htimer, if_neg (by decide), if_neg (Decidable.not_not.mpr hstart)]
  split
  · exact ⟨_, _, _, rfl⟩
  · exact ⟨_, _, _, rfl⟩

theorem pmuSleepFor_spec {hz : Nat} {c : Ctx} {ticks : Nat} {o : SleepOutcome} (hpmu : c.pmu) :
    ∃ w err stepped, pmuSleepFor hz c ticks o = .ret (openClocks { c with isTimerWakeup := w }) err stepped := by
  have hpmu' : ¬ (!c.pmu) = true := by
    rw [hpmu]
    decide
  dsimp only [pmuSleepFor]
  rw [if_neg hpmu']
  split
  · exact ⟨c.isTimerWakeup, _, _, rfl⟩
  · split
    · exact ⟨c.isTimerWakeup, _, _, rfl⟩
    · split
      · exact ⟨_, _, _, rfl⟩
      · exact ⟨_, _, _, rfl⟩

/-- A sleep is refused, or it comes to its end. -/
theorem enterSleep_spec {hz : Nat} {c : Ctx} {ticks : Nat} {o : SleepOutcome} (hinv : Inv c)
    (hok : Undisturbed hz c (.enterSleep ticks o)) :
    enterSleep hz c ticks o = .ret c notAllowed none ∨
      c.lock = some 1 ∧ ∃ d w err stepped, closeClocks { c with lock := some 0 } = some d ∧
        enterSleep hz c ticks o = .ret (openClocks { d with isTimerWakeup := w }) err stepped := by
  unfold enterSleep
  split
  next => exact .inl rfl
  next hmode =>
    split
    next => exact .inl rfl
    next => exact .inl rfl
    next n hn =>
      obtain ⟨hle, hrcc, hdrv, _, htimer, hpmu⟩ := hinv.lock _ hn
      have hone : n = 0 := by omega
      subst hone
      refine .inr ⟨hn, ?_⟩
      obtain ⟨d, hd⟩ : ∃ d, closeClocks { c with lock := some 0 } = some d := by
        unfold closeClocks
        split
        · exact ⟨_, rfl⟩
        · rw [if_neg (by simp only [hrcc, hdrv]; decide)]
          exact ⟨_, rfl⟩
      obtain ⟨k, hk, _⟩ := closeClocks_spec hd
      rw [hd]
      dsimp only
      have hconfig : d.config = c.config := by rw [hk]
      split
      next hlight =>
        rw [hconfig] at hlight
        have htimer' : d.timer := by
          rw [hk]
          exact htimer hlight
        obtain ⟨w, err, stepped, hrun⟩ := lightSleepFor_spec htimer' (hok hlight hn)
        exact ⟨d, w, err, stepped, rfl, hrun⟩
      next hlight =>
        split
        next hdeep =>
          rw [hconfig] at hdeep
          have hpmu' : d.pmu := by
            rw [hk]
            exact hpmu hdeep
          obtain ⟨w, err, stepped, hrun⟩ := pmuSleepFor_spec hpmu'
          exact ⟨d, w, err, stepped, rfl, hrun⟩
        next => exact ⟨d, d.isTimerWakeup, _, _, rfl, rfl⟩

/-! ## Main result -/

theorem step_inv {hz : Nat} (c : Ctx) (call : Call) (c' : Ctx) (hinv : Inv c) (hok : Undisturbed hz c call)
    (hstep : step hz c call = some c') : Inv c' := by
  cases call with
  | setConfig config o =>
    cases hstep
    exact setConfig_inv hinv hok
  | lockAcquire =>
    dsimp only [step, lockAcquire] at hstep
    split at hstep
    next =>
      cases hstep
      exact hinv
    next => nomatch hstep
    next n hn =>
      cases hstep
      obtain ⟨hle, hrcc, hdrv, hequipped⟩ := hinv.lock _ hn
      refine ⟨hinv.rccDev, fun m hm => ?_⟩
      cases hm
      exact ⟨by omega, hrcc, hdrv, rfl, hequipped.2⟩
  | lockRelease =>
    cases hstep
    dsimp only [lockRelease]
    split
    next => exact hinv
    next hn =>
      obtain ⟨hle, hrcc, hdrv, hequipped⟩ := hinv.lock _ hn
      refine ⟨hinv.rccDev, fun m hm => ?_⟩
      cases hm
      exact ⟨Nat.le_refl 1, hrcc, hdrv, rfl, hequipped.2⟩
    next => exact hinv
  | enterSleep ticks o =>
    dsimp only [step] at hstep
    rcases enterSleep_spec hinv hok with hrefused | ⟨hone, d, w, err, stepped, hclose, hrun⟩
    · rw [hrefused] at hstep
      cases hstep
      exact hinv
    · rw [hrun] at hstep
      cases hstep
      obtain ⟨k, rfl, _⟩ := closeClocks_spec hclose
      obtain ⟨hle, hrcc, hdrv, hequipped⟩ := hinv.lock _ hone
      refine ⟨hinv.rccDev, fun m hm => ?_⟩
      cases hm
      exact ⟨Nat.le_refl 1, hrcc, hdrv, rfl, hequipped.2⟩

theorem sound {hz : Nat} (c : Ctx) (call : Call) (hinv : Inv c) (hok : Undisturbed hz c call) : Sound hz c call := by
  cases call with
  | setConfig config o =>
    cases config with
    | none => trivial
    | some config => exact setConfig_sound hinv hok
  | lockAcquire => trivial
  | lockRelease => trivial
  | enterSleep ticks o =>
    dsimp only [Sound]
    rcases enterSleep_spec hinv hok with hrefused | ⟨hone, d, w, err, stepped, hclose, hrun⟩
    · rw [hrefused]
      exact ⟨rfl, fun _ hi => hi⟩
    · rw [hrun]
      obtain ⟨k, rfl, hclocks⟩ := closeClocks_spec hclose
      exact ⟨hone.symm, hclocks⟩

/-- Every call of an undisturbed run leaves what is expected of it. -/
theorem calls_sound (hz : Nat) (clocks wakeup : BitVec 32) (calls : List Call)
    (h : Along (step hz) (Undisturbed hz) (start clocks wakeup) calls) :
    Along (step hz) (Sound hz) (start clocks wakeup) calls :=
  Along.mono_of_invariant step_inv sound ⟨⟨fun _ => rfl, fun _ => rfl⟩, nofun⟩ h

/-! ## Runs -/

/-- Every sub-step of a configuration succeeds. -/
def allSet : SetOutcome := ⟨true, ⟨true, true, true⟩, true, true⟩

/-- A sleep that the timer ends, of a timer that refuses a period of 0. -/
def timerWakes : SleepOutcome where
  timerStart := fun period => if period = 0 then invalidParam else success
  timerStop := success
  counter := success
  sleptTimeMs := 0
  pmuTimer0 := fun _ => success
  pmuTimer1 := fun _ => success
  pmuPower := success
  wakeup := true
  slept := 0

/-- A configuration whose sleep disables the clock of a UART. -/
def uartOff (mode : Nat) : Config := ⟨mode, 2#32, 0#32, false⟩

theorem calls_sound_lightSleep : Along (step 1000) (Sound 1000) (start 2#32 0#32)
    [.setConfig (some (uartOff lightSleep)) allSet, .lockAcquire, .lockRelease, .enterSleep 5 timerWakes,
      .setConfig (some (uartOff deepSleep)) allSet, .enterSleep 5000 timerWakes] :=
  calls_sound 1000 2#32 0#32 _ (by decide +kernel)

/-- A light sleep whose timer does not start keeps the lock and the clocks; a mode whose devices were given up
by a failing change is set again without them; the clock device that was given up with a timer is taken
without its data after an allocation failed. -/
theorem calls_unsound :
    (¬ Along (step 1000) (Sound 1000) (start 2#32 0#32)
      [.setConfig (some (uartOff lightSleep)) allSet, .enterSleep 0 timerWakes]) ∧
    (¬ Along (step 1000) (Sound 1000) (start 2#32 0#32)
      [.setConfig (some (uartOff lightSleep)) allSet, .setConfig (some (uartOff deepSleep)) { allSet with pmu := false },
        .setConfig (some (uartOff lightSleep)) allSet]) ∧
    ¬ Along (step 1000) (Sound 1000) (start 2#32 0#32)
      [.setConfig (some (uartOff lightSleep)) { allSet with timer := false },
        .setConfig (some (uartOff lightSleep)) { allSet with clock := ⟨true, false, true⟩ },
        .setConfig (some (uartOff lightSleep)) allSet, .enterSleep 5 timerWakes] := by
  refine ⟨fun h => ?_, fun h => ?_, fun h => ?_⟩
  · have hclocks := (h.2 _ rfl).1.2 1
    exact absurd hclocks (by decide)
  · have hequipped := ((h.2 _ rfl).2 _ rfl).1 rfl (by decide)
    exact absurd hequipped.1 (by decide)
  · exact (((h.2 _ rfl).2 _ rfl).2 _ rfl).1

end WmIot.Pm
