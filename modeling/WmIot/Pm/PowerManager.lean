import Mathlib

/-!
# The power manager

`wm_pm.c` with the driver functions that its devices come from. An error code is the `int` of the
source; the outcomes of the calls that can fail are arguments. `none` and `fault` are a wait without end
and an access through a NULL pointer.
-/

namespace WmIot.Pm
set_option autoImplicit false

abbrev Err := BitVec 32

def success : Err := 0#32

/-- `WM_ERR_FAILED` -/
def failed : Err := BitVec.ofInt 32 (-1)

/-- `WM_ERR_NO_MEM` -/
def noMem : Err := BitVec.ofInt 32 (-2)

/-- `WM_ERR_INVALID_PARAM` -/
def invalidParam : Err := BitVec.ofInt 32 (-3)

/-- `WM_ERR_NOT_ALLOWED` -/
def notAllowed : Err := BitVec.ofInt 32 (-9)

/-! ## The clock device -/

/-- `wm_device_state_t` -/
inductive DevState where
  | uninit
  | initing
  | inited
deriving DecidableEq, Repr

/-- The device "rcc": whether it has driver data, and its state. -/
structure RccDev where
  drv : Bool
  state : DevState
deriving DecidableEq, Repr

/-- What the calls of `wm_w800_drv_clock_init` answer. -/
structure ClockOutcome where
  found : Bool
  mem : Bool
  mutex : Bool
deriving DecidableEq, Repr

/-- `wm_drv_clock_init`, and whether it returns the device. -/
def drvClockInit (dev : RccDev) (o : ClockOutcome) : RccDev × Bool :=
  if !o.found then (dev, false)
  else if !dev.drv ∧ dev.state = .uninit then
    if !o.mem then ({ dev with state := .initing }, false)
    else if !o.mutex then ({ drv := false, state := .uninit }, false)
    else ({ drv := true, state := .inited }, true)
  else (dev, true)

/-- `wm_drv_clock_deinit` -/
def drvClockDeinit (dev : RccDev) : RccDev :=
  if dev.drv ∧ dev.state = .inited then { drv := false, state := .uninit } else dev

/-! ## The context -/

/-- `WM_PM_MODE_LIGHT_SLEEP` -/
def lightSleep : Nat := 1

/-- `WM_PM_MODE_DEEP_SLEEP` -/
def deepSleep : Nat := 2

/-- `WM_PM_MODE_STANDBY` -/
def standby : Nat := 3

/-- `wm_pm_config_t`; of the callback only whether there is one -/
structure Config where
  mode : Nat
  sleepDevBitmap : BitVec 32
  wakeupDevBitmap : BitVec 32
  getSlept : Bool
deriving DecidableEq, Repr

/-- `WM_PM_SLEEP_DEV_TYPE_TIMER` -/
def sleepDevTimer : BitVec 32 := 1#32 <<< 10

/-- `WM_IRQ_MAX` -/
def irqMax : Nat := 32

/-- `WM_IRQ_TIMER` -/
def irqTimer : Nat := 30

/-- `g_wm_pm_ctx` and `g_wm_pm_irq_list`, with what the functions change outside of them: the clock device,
the clock enable register and the interrupts that wake. A pointer is there or NULL; the lock has its
count. -/
structure Ctx where
  config : Config
  timer : Bool
  rcc : Bool
  pmu : Bool
  lock : Option Nat
  isTimerWakeup : Bool
  irqList : List Nat
  rccDev : RccDev
  clocks : BitVec 32
  wakeup : BitVec 32
deriving DecidableEq, Repr

/-- The context at start; of the interrupt list only the first entry is initialized. -/
def start (clocks wakeup : BitVec 32) : Ctx where
  config := ⟨0, 0#32, 0#32, false⟩
  timer := false
  rcc := false
  pmu := false
  lock := none
  isTimerWakeup := false
  irqList := irqMax :: List.replicate 31 0
  rccDev := ⟨true, .inited⟩
  clocks := clocks
  wakeup := wakeup

/-! ## Configuration -/

def irqBit (i : Nat) : BitVec 32 := 1#32 <<< i

/-- The interrupts that wake after the loop that clears those of the list. -/
def clearWakeups (wakeup : BitVec 32) (irqList : List Nat) : BitVec 32 :=
  irqList.foldl (fun w i => if i = irqMax then w else w &&& ~~~irqBit i) wakeup

/-- The interrupts that wake after the loop that sets those of a bitmap. -/
def setWakeups (wakeup bitmap : BitVec 32) : BitVec 32 :=
  (List.range 32).foldl (fun w i => if bitmap.getLsbD i then w ||| irqBit i else w) wakeup

/-- The first part of `wm_pm_set_config`: the devices of the old mode are given up. -/
def tearDown (c : Ctx) : Ctx :=
  { c with
    lock := none
    timer := false
    pmu := false
    wakeup := clearWakeups c.wakeup c.irqList &&& ~~~irqBit irqTimer
    irqList := c.irqList.map fun _ => irqMax }

/-- What the calls of `wm_pm_set_config` answer. -/
structure SetOutcome where
  sem : Bool
  clock : ClockOutcome
  timer : Bool
  pmu : Bool
deriving DecidableEq, Repr

/-- The way out of `wm_pm_set_config` when there is no timer or PMU. -/
def giveUp (c : Ctx) : Ctx :=
  { c with lock := none, rccDev := drvClockDeinit c.rccDev, rcc := false }

/-- The second part of `wm_pm_set_config`: the devices of the new mode; the code is that of the failure. -/
def setUp (c : Ctx) (config : Config) (o : SetOutcome) : Ctx × Err :=
  if config.mode = 0 then (c, success)
  else if !o.sem then (c, noMem)
  else
    let c := { c with lock := some 1 }
    let (dev, found) := drvClockInit c.rccDev o.clock
    let c := { c with rccDev := dev, rcc := found }
    if !found then ({ c with lock := none }, failed)
    else if config.mode = lightSleep then
      if !o.timer then (giveUp c, failed)
      else
        ({ c with
          timer := true
          irqList := c.irqList.mapIdx fun i irq => if config.wakeupDevBitmap.getLsbD i then i else irq
          wakeup := setWakeups c.wakeup config.wakeupDevBitmap ||| irqBit irqTimer }, success)
    else if config.mode = deepSleep ∨ config.mode = standby then
      if !o.pmu then (giveUp c, failed) else ({ c with pmu := true }, success)
    else (c, success)

/-- `wm_pm_set_config` -/
def setConfig (c : Ctx) (config : Option Config) (o : SetOutcome) : Ctx × Err :=
  match config with
  | none => (c, invalidParam)
  | some config =>
    if config.mode = c.config.mode then (c, success)
    else
      let (c, err) := setUp (tearDown c) config o
      if err = success then ({ c with config := config }, success) else (c, err)

/-! ## The lock -/

/-- `wm_pm_lock_acquire` -/
def lockAcquire (c : Ctx) : Option (Ctx × Err) :=
  match c.lock with
  | none => some (c, notAllowed)
  | some 0 => none
  | some (n + 1) => some ({ c with lock := some n }, success)

/-- `wm_pm_lock_release` -/
def lockRelease (c : Ctx) : Ctx × Err :=
  match c.lock with
  | none => (c, notAllowed)
  | some 0 => ({ c with lock := some 1 }, success)
  | some (_ + 1) => (c, success)

/-! ## Sleep -/

/-- What the calls of `wm_pm_enter_sleep` answer, those with a time to each; `wakeup` says whether the
timer's callback has come. -/
structure SleepOutcome where
  timerStart : Nat → Err
  timerStop : Err
  counter : Err
  sleptTimeMs : Nat
  pmuTimer0 : Nat → Err
  pmuTimer1 : Nat → Err
  pmuPower : Err
  wakeup : Bool
  slept : Nat

/-- How `wm_pm_enter_sleep` ends: with a return code and the argument of `vTaskStepTick`, or with an access
through a NULL pointer. -/
inductive SleepResult where
  | ret (c : Ctx) (err : Err) (stepped : Option Nat)
  | fault
deriving DecidableEq, Repr

/-- `ticks * portTICK_PERIOD_MS` -/
def sleepTimeMs (hz ticks : Nat) : Nat := ticks * (1000 / hz) % 2 ^ 32

/-- `pdMS_TO_TICKS` -/
def msToTicks (hz ms : Nat) : Nat := ms * hz % 2 ^ 32 / 1000

/-- `WM_PMU_TIME1_MIN_TIME` -/
def pmuTime1Min : Nat := 1

/-- `WM_PMU_TIME1_MAX_TIME` -/
def pmuTime1Max : Nat := 65535

/-- `WM_PMU_TIME0_MIN_TIME` -/
def pmuTime0Min : Nat := 1000

/-- `WM_PMU_TIME0_MAX_TIME` -/
def pmuTime0Max : Nat := 65535 * 1000

/-- The clocks that a sleep disables; `none` where the clock device is missing. -/
def closeClocks (c : Ctx) : Option Ctx :=
  if c.config.sleepDevBitmap = 0#32 then some c
  else if !c.rcc || !c.rccDev.drv then none
  else some { c with clocks := c.clocks &&& ~~~(c.config.sleepDevBitmap &&& ~~~sleepDevTimer) }

/-- The label `end`: the clocks are enabled, and the lock is reset and released. -/
def openClocks (c : Ctx) : Ctx :=
  { c with
    clocks := if c.config.sleepDevBitmap = 0#32 then c.clocks else c.clocks ||| c.config.sleepDevBitmap
    lock := some 1 }

/-- The ticks of a sleep that was not ended by the timer. -/
def sleptTicks (hz : Nat) (c : Ctx) (o : SleepOutcome) : Option Nat :=
  if c.config.getSlept then some (msToTicks hz o.slept) else none

/-- `wm_pm_enter_sleep` behind the closing of the clocks, in light sleep -/
def lightSleepFor (hz : Nat) (c : Ctx) (ticks : Nat) (o : SleepOutcome) : SleepResult :=
  if !c.timer then .fault
  else if o.timerStart (sleepTimeMs hz ticks) ≠ success then .ret c (o.timerStart (sleepTimeMs hz ticks)) none
  else
    let c := { c with isTimerWakeup := o.wakeup }
    if c.isTimerWakeup then .ret (openClocks c) o.timerStop (some ticks)
    else
      let err := o.timerStop ||| o.counter
      .ret (openClocks c) err (if err = success then some (msToTicks hz o.sleptTimeMs) else none)

/-- The result of setting a timer of the PMU, and the ticks after it. -/
def pmuSetTimer (hz ms ticks : Nat) (o : SleepOutcome) : Err × Nat :=
  if pmuTime1Min ≤ ms ∧ ms ≤ pmuTime1Max then (o.pmuTimer1 ms, ticks)
  else if pmuTime0Min ≤ ms ∧ ms ≤ pmuTime0Max then (o.pmuTimer0 (ms / 1000), ticks)
  else if pmuTime0Max < ms then (o.pmuTimer0 (pmuTime0Max / 1000), msToTicks hz pmuTime0Max)
  else (failed, ticks)

/-- `wm_pm_enter_sleep` behind the closing of the clocks, in deep sleep and standby -/
def pmuSleepFor (hz : Nat) (c : Ctx) (ticks : Nat) (o : SleepOutcome) : SleepResult :=
  let ms := sleepTimeMs hz ticks
  if ms ≤ 8 then .ret (openClocks c) failed none
  else if !c.pmu then .fault
  else
    let (err, ticks) := pmuSetTimer hz ms ticks o
    if err ≠ success then .ret (openClocks c) err none
    else
      let c := { c with isTimerWakeup := o.wakeup }
      if o.pmuPower ≠ success then .ret (openClocks c) o.pmuPower none
      else .ret (openClocks c) o.pmuPower (if c.isTimerWakeup then some ticks else sleptTicks hz c o)

/-- `wm_pm_enter_sleep` -/
def enterSleep (hz : Nat) (c : Ctx) (ticks : Nat) (o : SleepOutcome) : SleepResult :=
  if c.config.mode = 0 then .ret c notAllowed none
  else
    match c.lock with
    | none => .ret c notAllowed none
    | some 0 => .ret c notAllowed none
    | some (n + 1) =>
      match closeClocks { c with lock := some n } with
      | none => .fault
      | some c =>
        if c.config.mode = lightSleep then lightSleepFor hz c ticks o
        else if c.config.mode = deepSleep ∨ c.config.mode = standby then pmuSleepFor hz c ticks o
        else .ret (openClocks c) failed (if c.isTimerWakeup then some ticks else sleptTicks hz c o)

end WmIot.Pm
