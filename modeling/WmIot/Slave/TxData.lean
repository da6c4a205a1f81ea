import WmIot.Lib.Transition

/-!
# Transmission of the HSPI and the SDIO slave

The two drivers have the same code. A call may be interrupted before each of its accesses to the
mutex, the DMA and the event group; the completion interrupt hands its event bit to the timer task.
-/

namespace WmIot.Slave
open Transition
set_option autoImplicit false

inductive Driver where
  | hspi
  | sdio
deriving DecidableEq, Repr

inductive Err where
  | success
  | failed
  | invalidParam
  | timeout
deriving DecidableEq, Repr

/-- `tx_data_sync` with its timeout in ticks, or `tx_data_async` -/
inductive Kind where
  | sync (ticks : Nat)
  | async
deriving DecidableEq, Repr

/-- What a call returned, and the transfer it had started. -/
structure Return where
  sync : Bool
  ret : Err
  transfer : Option Nat
deriving DecidableEq, Repr

/-- Where a call is. -/
inductive Call where
  | idle
  | lock (kind : Kind)
  | dma (kind : Kind)
  /-- before `wm_os_internal_event_get` -/
  | get (k ticks : Nat)
  /-- blocked in `xEventGroupWaitBits` -/
  | waiting (k : Nat)
  /-- the wait is over without the bit, which is looked at once more -/
  | expired (k : Nat)
  /-- before `wm_os_internal_event_clear_bits` -/
  | clear (k : Nat)
  | unlock (r : Return)
deriving DecidableEq, Repr

/-- The driver context with what the hardware has been given and has done. -/
structure Ctx where
  mutex : Option Nat
  /-- the bit `EVENT_TX_DONE` -/
  txDone : Bool
  /-- the calls that wait for it in the event group, with their transfers -/
  waiters : List (Nat × Nat)
  /-- calls of `xEventGroupSetBits` that interrupts left to the timer task -/
  pended : Nat
  calls : Nat → Call
  started : Nat
  completed : Nat
  returned : List Return

def Ctx.Init (s : Ctx) : Prop :=
  s.mutex = none ∧ s.txDone = false ∧ s.waiters = [] ∧ s.pended = 0 ∧ (∀ j, s.calls j = .idle) ∧
    s.started = 0 ∧ s.completed = 0 ∧ s.returned = []

/-- What `tx_dma` does; a call that waits too long for a descriptor may have given some frames to the
hardware. -/
inductive Dma where
  | started
  | invalidParam
  | timeout (part : Bool)
deriving DecidableEq, Repr

inductive Event where
  | call (j : Nat) (kind : Kind)
  | acquire (j : Nat) (ok : Bool)
  | dma (j : Nat) (r : Dma)
  | go (j : Nat)
  /-- the wait time of a call ends -/
  | expire (j : Nat)
  /-- `UP_FRAME_DONE`; `room` is whether the timer task's queue has room -/
  | interrupt (room : Bool)
  | timerTask
deriving DecidableEq, Repr

def Ctx.at (s : Ctx) (j : Nat) (pc : Call) : Ctx :=
  { s with calls := Function.update s.calls j pc }

/-- `xEventGroupSetBits`: the calls that wait have the bit, which is cleared again. -/
def setTxDone (s : Ctx) : Ctx :=
  if s.waiters = [] then { s with txDone := true }
  else
    { s with
      calls := fun j =>
        match s.waiters.lookup j with
        | some k => .clear k
        | none => s.calls j
      waiters := [] }

def txDma (s : Ctx) (j : Nat) (kind : Kind) : Dma → Ctx
  | .started =>
    match kind with
    | .sync ticks => { s.at j (.get s.started ticks) with started := s.started + 1 }
    | .async => { s.at j (.unlock ⟨false, .success, some s.started⟩) with started := s.started + 1 }
  | .invalidParam => s.at j (.unlock ⟨kind != .async, .invalidParam, none⟩)
  | .timeout part =>
    { s.at j (.unlock ⟨kind != .async, .timeout, none⟩) with
      started := if part then s.started + 1 else s.started }

def goCall (s : Ctx) (j : Nat) : Option Ctx :=
  match s.calls j with
  | .get k ticks =>
    if s.txDone then some { s.at j (.clear k) with txDone := false }
    else if ticks = 0 then some (s.at j (.unlock ⟨true, .timeout, some k⟩))
    else some { s.at j (.waiting k) with waiters := (j, k) :: s.waiters }
  | .expired k =>
    if s.txDone then some { s.at j (.clear k) with txDone := false }
    else some (s.at j (.unlock ⟨true, .timeout, some k⟩))
  | .clear k => some { s.at j (.unlock ⟨true, .success, some k⟩) with txDone := false }
  | .unlock r => some { s.at j .idle with mutex := none, returned := s.returned ++ [r] }
  | _ => none

def Ctx.step (s : Ctx) : Event → Option Ctx
  | .call j kind => if s.calls j = .idle then some (s.at j (.lock kind)) else none
  | .acquire j ok =>
    match s.calls j with
    | .lock kind =>
      if ok then
        if s.mutex = none then some { s.at j (.dma kind) with mutex := some j } else none
      else some { s.at j .idle with returned := s.returned ++ [⟨kind != .async, .failed, none⟩] }
    | _ => none
  | .dma j r =>
    match s.calls j with
    | .dma kind => some (txDma s j kind r)
    | _ => none
  | .go j => goCall s j
  | .expire j =>
    match s.calls j with
    | .waiting k =>
      some { s.at j (.expired k) with waiters := s.waiters.filter fun w => w.1 ≠ j }
    | _ => none
  | .interrupt room =>
    if s.completed < s.started then
      some { s with
        completed := s.completed + 1
        pended := if room then s.pended + 1 else s.pended }
    else none
  | .timerTask =>
    if 0 < s.pended then some (setTxDone { s with pended := s.pended - 1 }) else none

/-- The two drivers side by side. -/
def step (w : Driver → Ctx) (e : Driver × Event) : Option (Driver → Ctx) :=
  ((w e.1).step e.2).map (Function.update w e.1)

def Init (w : Driver → Ctx) : Prop := ∀ d, (w d).Init

/-! ## What a synchronous call promises -/

/-- A synchronous call that returned success had started a transfer, which is among the first `n`. -/
def Return.Done (r : Return) (n : Nat) : Prop :=
  r.sync = true → r.ret = .success → ∃ k, r.transfer = some k ∧ k < n

/-- No synchronous call returned success before its transfer's completion interrupt. -/
def Sound (s : Ctx) : Prop := ∀ r ∈ s.returned, r.Done s.completed

/-- A synchronous call starts its transfer with no earlier one under way, no bit set and no setting of
it left to the timer task. -/
def quietStart (w : Driver → Ctx) (e : Driver × Event) : Prop :=
  match e.2 with
  | .dma j .started =>
    match (w e.1).calls j with
    | .dma (.sync _) =>
      (w e.1).completed = (w e.1).started ∧ (w e.1).txDone = false ∧ (w e.1).pended = 0
    | _ => True
  | _ => True

end WmIot.Slave
