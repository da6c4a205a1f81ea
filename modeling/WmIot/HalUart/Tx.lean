import WmIot.Lib.Transition

/-!
# Interrupt transmission in the HAL

`wm_hal_uart_tx_it` of a task, whose accesses to the context and the FIFO are steps, and the transmit
branch of `wm_hal_uart_irq_handler`, which runs between two of them and calls `wm_hal_uart_tx_it` from
its callback. No buffer is so long that its length is a negative number of the C code.
-/

namespace WmIot.HalUart
open Transition
set_option autoImplicit false

/-- `WM_UART_HW_FIFO_NUM` -/
def fifoNum : Nat := 32

/-- Where the call of `wm_hal_uart_tx_it` of the task is; behind the offset it carries how many buffers
were accepted with its own. -/
inductive Pc where
  | idle
  | check (data : List UInt8)
  | setData (data : List UInt8)
  | setSize (data : List UInt8)
  | setOffset (data : List UInt8)
  | readFifo (data : List UInt8) (k : Nat)
  | disableIrq (data : List UInt8) (k free : Nat)
  /-- the loop over the FIFO, with the interrupts off -/
  | write (data : List UInt8) (k free : Nat)
deriving DecidableEq, Repr

structure World where
  txData : List UInt8
  txSize : Nat
  txOffset : Nat
  /-- the bytes in the hardware FIFO -/
  level : Nat
  /-- a byte was put into a full FIFO -/
  overflow : Bool
  pc : Pc
  /-- the bytes put into the FIFO -/
  put : List UInt8
  accepted : List (List UInt8)
  /-- the sizes of the TX-done events -/
  done : List Nat

def Init (s : World) : Prop :=
  s.txSize = 0 ∧ s.txOffset = 0 ∧ s.level = 0 ∧ s.overflow = false ∧ s.pc = .idle ∧ s.put = [] ∧
    s.accepted = [] ∧ s.done = []

/-- `wm_ll_uart_putchar` of a byte, and the offset after it -/
def putchar (s : World) (b : UInt8) : World :=
  { s with
    txOffset := s.txOffset + 1
    level := if s.level < fifoNum then s.level + 1 else s.level
    overflow := s.overflow || decide (fifoNum ≤ s.level)
    put := s.put ++ [b] }

/-- So many bytes from the offset. -/
def putData (data : List UInt8) : Nat → World → World
  | 0, s => s
  | n + 1, s => putData data n (putchar s (data.getD s.txOffset 0))

/-- The hardware sends from the FIFO. -/
def drain (n : Nat) (s : World) : World := { s with level := s.level - n }

/-- `wm_hal_uart_tx_it` from the callback; some bytes are sent before it looks at the FIFO. -/
def txIt (s : World) (data : List UInt8) (sent : Nat) : World :=
  if data = [] ∨ 0 < s.txSize then s
  else
    let s := drain sent { s with
      txData := data
      txSize := data.length
      txOffset := 0
      accepted := s.accepted ++ [data] }
    putData data (min (fifoNum - s.level) data.length) s

/-- The transmit branch of the handler; `next` is what the callback passes to `wm_hal_uart_tx_it`. -/
def irqTx (s : World) (next : List (List UInt8 × Nat)) : World :=
  if s.txOffset ≤ s.txSize then
    let s := putData s.txData (min (fifoNum - s.level) (s.txSize - s.txOffset)) s
    if s.txSize = s.txOffset then
      next.foldl (fun s d => txIt s d.1 d.2) { s with done := s.done ++ [s.txSize], txSize := 0 }
    else s
  else s

inductive Event where
  /-- the task calls `wm_hal_uart_tx_it` -/
  | call (data : List UInt8)
  | go
  /-- an interrupt with a source of the transmit branch -/
  | irq (next : List (List UInt8 × Nat))
  | sent (n : Nat)
deriving DecidableEq, Repr

def go (s : World) : Option World :=
  match s.pc with
  | .idle => none
  | .check data => some { s with pc := if 0 < s.txSize then .idle else .setData data }
  | .setData data => some { s with txData := data, pc := .setSize data }
  | .setSize data => some { s with txSize := data.length, pc := .setOffset data }
  | .setOffset data =>
    some { s with
      txOffset := 0
      accepted := s.accepted ++ [data]
      pc := .readFifo data (s.accepted.length + 1) }
  | .readFifo data k => some { s with pc := .disableIrq data k (min (fifoNum - s.level) data.length) }
  | .disableIrq data k free => some { s with pc := .write data k free }
  | .write data _ free =>
    if s.txOffset < free then some (putchar s (data.getD s.txOffset 0))
    else some { s with pc := .idle }

def Pc.masked : Pc → Bool
  | .write _ _ _ => true
  | _ => false

def step (s : World) : Event → Option World
  | .call data =>
    if s.pc = .idle then some { s with pc := if data = [] then .idle else .check data } else none
  | .go => go s
  | .irq next => if s.pc.masked then none else some (irqTx s next)
  | .sent n => if n ≤ s.level then some (drain n s) else none

/-! ## What transmission promises -/

/-- The buffer of the context is being sent; a task that has yet to set the offset has not accepted
it. -/
def World.active (s : World) : Bool :=
  match s.pc with
  | .setOffset _ => false
  | _ => decide (0 < s.txSize)

/-- The accepted bytes that are not in the FIFO yet. -/
def World.rest (s : World) : List UInt8 := if s.active then s.txData.drop s.txOffset else []

/-- What went into the FIFO are the accepted buffers, without overflow, and each but the one being
sent has had its event. -/
structure Sound (s : World) : Prop where
  noOverflow : s.overflow = false
  bytes : s.put ++ s.rest = s.accepted.flatten
  events : s.done ++ (if s.active then [s.txSize] else []) = s.accepted.map List.length

/-- No interrupt comes before the first transmission, or while a task has set the size and not the
offset (except where it does nothing); a task does not write once its buffer is sent and the callback
has started another. -/
def orderly (s : World) : Event → Prop
  | .irq _ =>
    ¬ (s.txSize = 0 ∧ s.txOffset = 0) ∧
    match s.pc with
    | .setOffset _ => s.txSize < s.txOffset ∨ s.txOffset < s.txSize ∧ fifoNum ≤ s.level
    | _ => True
  | .go =>
    match s.pc with
    | .write _ k free => s.txOffset < free → s.accepted.length = k
    | _ => True
  | _ => True

end WmIot.HalUart
