import WmIot.Lib.Ring
import WmIot.Lib.Transition

/-!
# Interrupt reception in the HAL

`wm_hal_uart_rx_it` of any number of tasks, whose accesses to the ring are steps, and
`wm_hal_uart_rx_it_receive`, one iteration of whose loop is a step in which no task goes on. An RX
callback is set; its calls of `wm_hal_uart_rx_it` are part of the step. Whether the RX interrupts are
enabled is left out: one may come whenever there is a ring. No buffer goes around the end of the
address space.
-/

namespace WmIot.HalUart.Rx
open Transition Ring
set_option autoImplicit false

/-- `WM_HAL_RX_RECV_BUF_NUM` -/
def recvBufNum : Nat := 4

instance : NeZero recvBufNum := ⟨by decide⟩

abbrev Place := Fin recvBufNum

/-- `wm_hal_dma_desc_t`, as far as reception without DMA uses it. -/
structure Desc where
  vld : Bool
  /-- of the chain control, 16 bits wide -/
  len : Nat
  destAddr : Nat
deriving DecidableEq, Repr

structure Buffer where
  addr : Nat
  size : Nat
deriving DecidableEq, Repr

/-- Where a call of `wm_hal_uart_rx_it` of a task is; `tail` is what it has read from `ctx->w`. -/
inductive Pc where
  | idle
  | init (b : Buffer)
  | initChain (b : Buffer)
  | readTail (b : Buffer)
  | test (b : Buffer) (tail : Place)
  | setLen (b : Buffer) (tail : Place)
  | setAddr (b : Buffer) (tail : Place)
  | setVld (b : Buffer) (tail : Place)
  | setW (b : Buffer) (tail : Place)
deriving DecidableEq, Repr

/-- An RX-ready event, with what is in its range when it is reported. -/
structure Ready where
  addr : Nat
  len : Nat
  bytes : List UInt8
deriving DecidableEq, Repr

/-- The locals of `wm_hal_uart_rx_it_receive`; `fifo` are the bytes of `fifo_cnt`, `count` is
`tmp_cnt`. -/
structure Receive where
  read : Place
  fifo : List UInt8
  count : Nat
  timeout : Bool

structure World where
  r : Option Place
  w : Option Place
  desc : Place → Desc
  readOffset : Nat
  timeoutOffset : Nat
  mem : Nat → UInt8
  irq : Option Receive
  pc : Nat → Pc
  /-- the buffers whose descriptors were made valid -/
  appended : List Buffer
  /-- the address and length of the descriptors that were released -/
  released : List Buffer
  /-- the bytes taken from the FIFO -/
  taken : List UInt8
  /-- what was taken up to the last event -/
  last : List UInt8
  ready : List Ready

def Init (s : World) : Prop :=
  s.r = none ∧ s.w = none ∧ s.readOffset = 0 ∧ s.timeoutOffset = 0 ∧ s.irq = none ∧ (∀ t, s.pc t = .idle) ∧
    s.appended = [] ∧ s.released = [] ∧ s.taken = [] ∧ s.last = [] ∧ s.ready = []

/-- The bytes of a range. -/
def range (mem : Nat → UInt8) (addr : Nat) : Nat → List UInt8
  | 0 => []
  | n + 1 => range mem addr n ++ [mem (addr + n)]

/-! ## Appending a buffer -/

/-- `wm_hal_uart_rx_init_chain` -/
def initChain (s : World) : World :=
  { s with w := some 0, r := some 0, desc := fun _ => ⟨false, 0, 0⟩ }

def setLen (b : Buffer) (tail : Place) (s : World) : World :=
  { s with desc := Function.update s.desc tail { s.desc tail with len := b.size % 65536 } }

def setAddr (b : Buffer) (tail : Place) (s : World) : World :=
  { s with desc := Function.update s.desc tail { s.desc tail with destAddr := b.addr } }

/-- From here on the buffer is in the ring. -/
def setVld (b : Buffer) (tail : Place) (s : World) : World :=
  { s with
    desc := Function.update s.desc tail { s.desc tail with vld := true }
    appended := s.appended ++ [b] }

def setW (tail : Place) (s : World) : World := { s with w := some (tail + 1) }

/-- `wm_hal_uart_rx_it` from the callback -/
def rxIt (s : World) (b : Buffer) : World :=
  if b.addr = 0 ∨ b.size = 0 then s
  else
    let s := if s.w = none then initChain s else s
    match s.w with
    | none => s
    | some tail =>
      if (s.desc tail).destAddr ≠ 0 then s
      else setW tail (setVld b tail (setAddr b tail (setLen b tail s)))

def World.goto (s : World) (t : Nat) (pc : Pc) : World := { s with pc := Function.update s.pc t pc }

/-- `wm_hal_uart_rx_it` of task `t` -/
def go (s : World) (t : Nat) : Option World :=
  match s.pc t with
  | .idle => none
  | .init b => some (s.goto t (if s.w = none then .initChain b else .readTail b))
  | .initChain b => some ((initChain s).goto t (.readTail b))
  | .readTail b => s.w.map fun tail => s.goto t (.test b tail)
  | .test b tail => some (s.goto t (if (s.desc tail).destAddr ≠ 0 then .idle else .setLen b tail))
  | .setLen b tail => some ((setLen b tail s).goto t (.setAddr b tail))
  | .setAddr b tail => some ((setAddr b tail s).goto t (.setVld b tail))
  | .setVld b tail => some ((setVld b tail s).goto t (.setW b tail))
  | .setW _ tail => some ((setW tail s).goto t .idle)

/-! ## Reception -/

/-- The inner loop: bytes go into the buffer as long as both last. -/
def fill (addr len : Nat) : List UInt8 → World → List UInt8 × World
  | [], s => ([], s)
  | b :: fifo, s =>
    if s.timeoutOffset < len then
      fill addr len fifo { s with
        mem := Function.update s.mem (addr + s.timeoutOffset) b
        timeoutOffset := s.timeoutOffset + 1
        taken := s.taken ++ [b] }
    else (b :: fifo, s)

/-- The event for a buffer at the address. -/
def event (addr : Nat) (s : World) : Ready :=
  let len := s.timeoutOffset - s.readOffset
  ⟨addr + s.readOffset, len, range s.mem (addr + s.readOffset) len⟩

/-- The RX callback with an event, and what it appends. -/
def notify (e : Ready) (calls : List Buffer) (s : World) : World :=
  calls.foldl rxIt { s with ready := s.ready ++ [e], last := s.taken }

/-- The descriptor is filled to its end. -/
def release (h : Receive) (fifo : List UInt8) (s : World) : World :=
  let d := s.desc h.read
  { s with
    timeoutOffset := 0
    readOffset := 0
    desc := Function.update s.desc h.read { d with vld := false, destAddr := 0 }
    irq := some { h with read := h.read + 1, fifo := fifo }
    released := s.released ++ [⟨d.destAddr, d.len⟩] }

/-- An iteration of the loop of `wm_hal_uart_rx_it_receive`, or what comes after it. -/
def receive (s : World) (h : Receive) (calls : List Buffer) : World :=
  let d := s.desc h.read
  if d.vld ∧ d.destAddr ≠ 0 ∧ h.fifo ≠ [] then
    let filled := fill d.destAddr d.len h.fifo s
    let fifo := filled.1
    let s := filled.2
    let e := event d.destAddr s
    if s.timeoutOffset = d.len then notify e calls (release h fifo s)
    else if h.timeout then
      notify e calls { s with readOffset := s.timeoutOffset, irq := some { h with fifo := fifo } }
    else { s with irq := some { h with fifo := fifo } }
  else
    -- the timeout comes late
    let s := if h.count = 0 ∧ h.timeout ∧ s.readOffset < s.timeoutOffset then
      notify (event d.destAddr s) calls { s with readOffset := s.timeoutOffset }
    else s
    { s with r := some h.read, irq := none }

inductive Event where
  /-- a task calls `wm_hal_uart_rx_it` -/
  | call (t : Nat) (b : Buffer)
  | go (t : Nat)
  /-- an RX interrupt with the bytes that are in the FIFO -/
  | irq (fifo : List UInt8) (timeout : Bool)
  /-- the handler goes on; `calls` are for the callback -/
  | receive (calls : List Buffer)
deriving DecidableEq, Repr

def step (s : World) : Event → Option World
  | .call t b =>
    if s.irq.isNone ∧ s.pc t = .idle then
      some (s.goto t (if b.addr = 0 ∨ b.size = 0 then .idle else .init b))
    else none
  | .go t => if s.irq.isNone then go s t else none
  | .irq fifo timeout =>
    if s.irq.isNone then s.r.map fun read => { s with irq := some ⟨read, fifo, fifo.length, timeout⟩ }
    else none
  | .receive calls => s.irq.map fun h => receive s h calls

/-! ## What reception promises -/

/-- The descriptor that is filled next. -/
def World.front (s : World) : Option Place :=
  match s.irq with
  | none => s.r
  | some h => some h.read

/-- The buffers from a place of the ring on. -/
def waitingFrom (desc : Place → Desc) : Nat → Place → List Buffer
  | 0, _ => []
  | n + 1, a =>
    if (desc a).vld ∧ (desc a).destAddr ≠ 0 then
      ⟨(desc a).destAddr, (desc a).len⟩ :: waitingFrom desc n (a + 1)
    else []

def World.waiting (s : World) : List Buffer :=
  match s.front with
  | none => []
  | some a => waitingFrom s.desc recvBufNum a

structure Sound (s : World) : Prop where
  /-- the events report what was taken up to the last of them -/
  reported : s.ready.flatMap Ready.bytes = s.last
  /-- what was taken since then is in the buffer that is being filled -/
  kept : s.taken = s.last ++
    (s.waiting.take 1).flatMap fun b => range s.mem (b.addr + s.readOffset) (s.timeoutOffset - s.readOffset)
  inside : ∀ e ∈ s.ready, e.bytes.length = e.len ∧
    ∃ b ∈ s.appended, b.addr ≤ e.addr ∧ e.addr + e.len ≤ b.addr + b.size
  /-- the buffers leave the ring in the order in which they came -/
  order : s.released ++ s.waiting = s.appended
  /-- those that left were filled, and no others -/
  filled : s.taken.length = (s.released.map Buffer.size).sum + s.timeoutOffset
  offsets : s.readOffset ≤ s.timeoutOffset ∧ (s.waiting = [] → s.timeoutOffset = 0) ∧
    ∀ b ∈ s.waiting.head?, s.timeoutOffset < b.size

/-- The call has read `ctx->w` and not set it yet. -/
def Pc.inside : Pc → Bool
  | .test _ _ | .setLen _ _ | .setAddr _ _ | .setVld _ _ | .setW _ _ => true
  | _ => false

/-- The sizes fit into the descriptors, and no call reads `ctx->w` while another is between reading and
setting it; the first to find no ring makes it. -/
def orderly (s : World) : Event → Prop
  | .call _ b => b.size < 65536
  | .go t =>
    match s.pc t with
    | .initChain _ => s.w = none
    | .readTail _ => ∀ u, (s.pc u).inside = false
    | _ => True
  | .irq _ _ => True
  | .receive calls => (∀ b ∈ calls, b.size < 65536) ∧ (calls = [] ∨ ∀ u, (s.pc u).inside = false)

end WmIot.HalUart.Rx
