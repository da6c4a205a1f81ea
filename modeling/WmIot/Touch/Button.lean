import Mathlib

/-!
# Touch buttons

The task of `wm_drv_ops_touch_button.c` that polls the sensors. Every `int` and `uint32_t` has 32 bits. A
button carries the callbacks made for it; the place of a button in the list stands for its sensor number.
-/

namespace WmIot.Touch
set_option autoImplicit false

/-- `wm_drv_touch_button_state_t` -/
inductive Report where
  | press
  | release
  | pressed
  | longPressed
deriving DecidableEq, Repr

/-- `struct touch_button`, with the callbacks made for it -/
structure Button where
  threshold : BitVec 32
  lowCnt : BitVec 32
  pressCnt : BitVec 32
  pressed : Bool
  longPressed : Bool
  pressedTime : BitVec 32
  usedBase : BitVec 32
  newBase : BitVec 32
  accumVal : BitVec 32
  accumCnt : BitVec 32
  reports : List Report
deriving DecidableEq, Repr

/-- `TOUCH_BUTTON_RELEASE_MAX_CNT` -/
def releaseMaxCnt : BitVec 32 := 2#32

/-- `TOUCH_BUTTON_PRESS_MAX_CNT` -/
def pressMaxCnt : BitVec 32 := 4#32

/-- `TOUCH_BUTTON_MAX_CALIBRATION_TIMES` -/
def maxCalibrationTimes : Nat := 32

/-- `TOUCH_BUTTON_FULL_LEVEL` -/
def fullLevel : BitVec 32 := 1000#32

/-- `TOUCH_BUTTON_BASE_AVERAGE_COUNT` -/
def baseAverageCount : BitVec 32 := 16#32

/-- `touch_button_moving_average`: the new count, average and sum -/
def movingAverage (tsCnt slideCnt count avgVal accumVal : BitVec 32) : BitVec 32 × BitVec 32 × BitVec 32 :=
  if slideCnt = 0#32 then (count, avgVal, accumVal)
  else if count.slt slideCnt then
    let avgVal := (count * avgVal + tsCnt).sdiv (count + 1#32)
    let count := count + 1#32
    (count, avgVal, avgVal * count)
  else
    let accumVal := accumVal - accumVal.sdiv slideCnt + tsCnt
    (count, accumVal.sdiv slideCnt, accumVal)

/-! ## The poll -/

/-- One reading of a sensor: whether it failed, the count after it, and the two times that the code takes
behind it. -/
structure Sample where
  failed : Bool
  val : BitVec 32
  now : BitVec 32
  later : BitVec 32
deriving DecidableEq, Repr

/-- The thresholds of the context, in milliseconds. -/
structure Times where
  longPress : BitVec 32
  shortPress : BitVec 32
deriving DecidableEq, Repr

/-- The count has reached the level of a touch. -/
def touched (b : Button) (x : Sample) : Bool :=
  !x.failed && (b.usedBase * (b.threshold + fullLevel) / fullLevel).ule x.val

/-- The button is held long enough for a long press. -/
def longPressDue (t : Times) (b : Button) (now : BitVec 32) : Bool :=
  b.pressedTime != 0#32 && t.longPress.ult (now - b.pressedTime)

/-- The button was held for a short press only. -/
def shortPressDue (t : Times) (b : Button) (now : BitVec 32) : Bool :=
  b.pressedTime != 0#32 && (now - b.pressedTime).ule t.shortPress

/-- The button is taken as pressed, if it is not yet. -/
def startPress (b : Button) (now : BitVec 32) : Button :=
  if b.pressed then b
  else { b with pressed := true, longPressed := false, pressedTime := now, reports := b.reports ++ [.press] }

/-- The long press is reported once. -/
def longPress (t : Times) (b : Button) (now : BitVec 32) : Button :=
  if !b.longPressed && longPressDue t b now then
    { b with longPressed := true, reports := b.reports ++ [.longPressed] }
  else b

/-- `touch_button_poll` for a button that is touched -/
def pollTouched (t : Times) (b : Button) (x : Sample) : Button :=
  let b := { b with pressCnt := b.pressCnt + 1#32, accumCnt := 0#32 }
  let b := if pressMaxCnt.sle b.pressCnt then longPress t (startPress b x.now) x.later else b
  { b with lowCnt := 0#32 }

/-- The base follows the counts of a button that is not pressed. -/
def followBase (b : Button) (x : Sample) : Button :=
  if !b.pressed && b.pressCnt == 0#32 then
    let (accumCnt, newBase, accumVal) := movingAverage x.val baseAverageCount b.accumCnt b.newBase b.accumVal
    { b with
      accumCnt := accumCnt
      newBase := newBase
      accumVal := accumVal
      usedBase := if accumCnt = baseAverageCount then newBase else b.usedBase }
  else b

/-- The press ends after enough polls without a touch. -/
def endPress (t : Times) (b : Button) (now : BitVec 32) : Button :=
  if releaseMaxCnt.sle b.lowCnt && b.pressed then
    { b with
      longPressed := false
      pressed := false
      reports := b.reports ++ ((if shortPressDue t b now then [.pressed] else []) ++ [.release]) }
  else b

/-- `touch_button_poll` for a button that is not touched -/
def pollUntouched (t : Times) (b : Button) (x : Sample) : Button :=
  let b := followBase b x
  endPress t { b with pressCnt := 0#32, lowCnt := b.lowCnt + 1#32 } x.now

def pollButton (t : Times) (b : Button) (x : Sample) : Button :=
  if touched b x then pollTouched t b x else pollUntouched t b x

/-- The counters after a poll that the transmission of the WiFi has inhibited. -/
def inhibitButton (b : Button) : Button :=
  { b with pressCnt := 0#32, accumCnt := 0#32, lowCnt := 0#32 }

/-- What one turn of the task finds: the WiFi cannot be stopped, the bit 3 of the RF register, the samples
of a poll, the failure and count of each reading of a calibration, and room in the queue. -/
structure Turn where
  inhibited : Bool
  rf : Bool
  samples : Nat → Sample
  readings : Nat → Nat → Bool × BitVec 32
  sent : Bool

/-- `touch_button_poll` -/
def poll (t : Times) (buttons : List Button) (x : Turn) : List Button :=
  if x.inhibited then buttons.map inhibitButton
  else if x.rf then buttons.mapIdx fun i b => pollButton t b (x.samples i)
  else buttons

/-! ## Calibration -/

/-- `touch_button_calibrate` for one button -/
def calibrateButton (b : Button) : Button :=
  { b with
    pressCnt := 0#32
    pressed := false
    longPressed := false
    accumCnt := 0#32
    accumVal := 0#32
    usedBase := 0#32
    newBase := 0#32 }

/-- `touch_button_calibrate`: both rounds over the buttons -/
def calibrate (buttons : List Button) : List Button :=
  (buttons.map calibrateButton).map calibrateButton

/-- A reading of the calibration goes into the base unless it failed or is zero. -/
def baseReading (b : Button) (failed : Bool) (tsCnt : BitVec 32) : Button :=
  if failed || tsCnt == 0#32 then b
  else
    let (accumCnt, usedBase, accumVal) := movingAverage tsCnt baseAverageCount b.accumCnt b.usedBase b.accumVal
    { b with accumCnt := accumCnt, usedBase := usedBase, accumVal := accumVal }

/-- The readings of a calibration. -/
def baseReadings (buttons : List Button) (x : Turn) : List Button :=
  (List.range maxCalibrationTimes).foldl
    (fun bs j => bs.mapIdx fun i b => baseReading b (x.readings j i).1 (x.readings j i).2) buttons

/-- The loop that looks for a button without a base, and `recal_flag`. -/
def checkBases : List Button → List Button × Bool
  | [] => ([], false)
  | b :: bs =>
    if b.usedBase = 0#32 then (b :: bs, true)
    else ({ b with accumCnt := 0#32, accumVal := 0#32 } :: (checkBases bs).1, (checkBases bs).2)

/-! ## The task -/

/-- The messages of the task; `again` marks a `TOUCH_BUTTON_BASE_CALC_MSG` that the task sent itself. -/
inductive Msg where
  | baseCalc (again : Bool)
  | pressDetect
  | pressStop
deriving DecidableEq, Repr

/-- The context and its queue; `stopped` from a stop message to the next start message. -/
structure Ctx where
  times : Times
  buttons : List Button
  queue : List Msg
  stopped : Bool
deriving DecidableEq, Repr

/-- `wm_os_internal_queue_send` -/
def send (queue : List Msg) (msg : Msg) (sent : Bool) : List Msg := if sent then queue ++ [msg] else queue

/-- What `touch_button_task` makes of a message. -/
def handle (c : Ctx) (x : Turn) : Msg → Ctx
  | .pressStop => { c with stopped := true }
  | .baseCalc again =>
    let checked := checkBases (baseReadings (calibrate c.buttons) x)
    { c with
      buttons := checked.1
      queue := send c.queue (if checked.2 then .baseCalc true else .pressDetect) x.sent
      stopped := c.stopped && again }
  | .pressDetect =>
    { c with buttons := poll c.times c.buttons x, queue := send c.queue .pressDetect x.sent }

inductive Event where
  | start
  | stop
  | setLongpress (thresholdTime : BitVec 32)
  | turn (x : Turn)

def step (c : Ctx) : Event → Option Ctx
  | .start => some { c with queue := c.queue ++ [.baseCalc false] }
  | .stop => some { c with queue := c.queue ++ [.pressStop] }
  | .setLongpress thresholdTime => some { c with times := { c.times with longPress := thresholdTime } }
  | .turn x =>
    match c.queue with
    | [] => none
    | msg :: queue => some (handle { c with queue := queue } x msg)

/-- A button after `wm_drv_ops_touch_button_init` -/
def initButton (threshold : BitVec 32) : Button where
  threshold := threshold
  lowCnt := 0#32
  pressCnt := 0#32
  pressed := false
  longPressed := false
  pressedTime := 0#32
  usedBase := 0#32
  newBase := 0#32
  accumVal := 0#32
  accumCnt := 0#32
  reports := []

/-- The context after `wm_drv_ops_touch_button_init` -/
def init (thresholds : List (BitVec 32)) : Ctx where
  times := ⟨1000#32, 500#32⟩
  buttons := thresholds.map initButton
  queue := []
  stopped := false

end WmIot.Touch
