import WmIot.Lib.Transition
import WmIot.Uart.Buffer

/-!
# The receive buffer of the UART driver

`uart_start_receive` gives every node to the HAL. The RX-ready callback, in an interrupt, notes how
far the current node has got; the reader, under `rx_mutex`, takes the data and gives a node that is
used up back to the HAL. A step of the reader is one access to what the callback also touches (the
status of a node, `end_offset`, the bytes of a node, the HAL); what only the reader touches (`r`,
`append`, `read_offset`) goes with the access before it.
-/

namespace WmIot.Uart.Rx
set_option autoImplicit false

/-- `WM_DRV_UART_RX_BUF_NUM`, which is `WM_HAL_RX_RECV_BUF_NUM` -/
abbrev rxBufNum : Nat := 4

scoped instance : NeZero rxBufNum := ⟨by decide⟩

def rxMinBufSize : Nat := 128

/-- An `rx_buf_size` that `uart_init` accepts. -/
structure RxBufSize where
  bytes : Nat
  min : rxMinBufSize ≤ bytes
  max : bytes < bufBlockMaxSize

/-- `block_size` of `uart_init_buf_manager` -/
def RxBufSize.blockSize (b : RxBufSize) : Nat := b.bytes / rxBufNum

/-- The bit fields of the status word of a node used for rx. -/
structure Status where
  dataHolding : Bool
  receiving : Bool
  timeoutFlag : Bool
deriving DecidableEq, Repr

def Status.zero : Status := ⟨false, false, false⟩

/-- `wm_drv_uart_buf_node_t` as the receiver uses it. -/
structure Node where
  status : Status
  buf : List UInt8
deriving DecidableEq, Repr

/-- A call of `uart_read_from_buffer`: the size asked for, what is copied so far and the timeout
flag it will report. -/
structure Call where
  size : Nat
  count : Nat
  rxFifoTimeout : Bool
deriving DecidableEq, Repr

/-- What follows once the append node has been given to the HAL. -/
inductive After where
  /-- the loop of `uart_start_receive` -/
  | opening
  /-- the loop of `uart_read_from_buffer` -/
  | reading (c : Call)
  /-- the end of `uart_release_to_buffer` -/
  | released
deriving DecidableEq, Repr

/-- What the task that opens the device or holds `rx_mutex` does next. -/
inductive Pc where
  | testAppend
  | idle
  /-- `uart_read` waits for `rx_sem` with this much still to read -/
  | waiting (rest : Nat)
  | testHolding (c : Call)
  | testReceiving (c : Call)
  | loadEnd (c : Call)
  | loadFlag (c : Call) (dataSize : Nat)
  | copy (c : Call) (dataSize : Nat)
  | loadClear (c : Call)
  | storeClear (c : Call) (status : Status)
  | loadFlagOnly (c : Call)
  | copyDone (c : Call)
  | loadFlagDone (c : Call)
  | clearStatus (k : After)
  | loadReceiving (k : After)
  | storeReceiving (k : After) (status : Status)
  | callApi (k : After)
  | loadUndo (k : After)
  | storeUndo (k : After) (status : Status)
  | receiveHolding
  | receiveReceiving
  | receiveEnd
  /-- the reader has what `uart_receive_data` returned -/
  | holding (offset size : Nat)
  | releaseHolding (size : Nat)
  | releaseLoad (size : Nat)
  | releaseStore (size : Nat) (status : Status)
deriving DecidableEq, Repr

structure State where
  node : Fin rxBufNum → Node
  r : Fin rxBufNum
  w : Fin rxBufNum
  append : Fin rxBufNum
  endOffset : Int
  readOffset : Nat
  /-- the buffers the HAL was given and has not filled, in order -/
  hal : List (Fin rxBufNum)
  /-- how much of the first of them the HAL has reported -/
  halOffset : Nat
  pc : Pc
  /-- the bytes of the reports that the callback accepted -/
  accepted : List UInt8
  /-- the bytes that reads copied out and that a release gave back -/
  returned : List UInt8

inductive Event where
  | read (size : Nat)
  | receive
  | release (size : Nat)
  /-- the reader keeps what it received -/
  | keep
  /-- the task's next access -/
  | reader
  /-- `rx_sem` is acquired, or the time is over -/
  | acquired
  | timedOut
  | rxReady (data : List UInt8) (timeoutFlag : Bool)

def setStatus (node : Fin rxBufNum → Node) (i : Fin rxBufNum) (st : Status) :
    Fin rxBufNum → Node :=
  Function.update node i { node i with status := st }

/-- `rx_api` of the HAL, which has `WM_HAL_RX_RECV_BUF_NUM` places for buffers. -/
def rxApi (s : State) (i : Fin rxBufNum) : Option State :=
  if s.hal.length < rxBufNum then some { s with hal := s.hal ++ [i] } else none

/-- `wm_drv_uart_evt_callback` for `WM_HAL_UART_RX_READY`, for a report of `data` at `offset` of the
buffer of node `i`. The buffers lie one after the other, so a difference of pointers between two of
them is `size` for each node. -/
def rxReadyCallback (size : Nat) (s : State) (i : Fin rxBufNum) (offset : Nat) (data : List UInt8)
    (timeoutFlag : Bool) : State :=
  if (s.node s.w).status.receiving then
    let dataOffset : Int := ((i.val : Int) - s.w.val) * size + offset + data.length
    let done : Bool := dataOffset = size
    { s with
      node := setStatus s.node s.w
        ⟨true, if done then false else (s.node s.w).status.receiving, timeoutFlag⟩
      endOffset := if done then 0 else dataOffset
      w := if done then s.w + 1 else s.w
      accepted := s.accepted ++ data }
  else s

/-- The HAL has put `data` behind what it reported of its first buffer and reports it; a buffer
reported to its end leaves the HAL first. -/
def rxReady (size : Nat) (s : State) (data : List UInt8) (timeoutFlag : Bool) : Option State :=
  match s.hal with
  | [] => none
  | i :: rest =>
    if size < s.halOffset + data.length then none
    else
      let buf := memcpy (s.node i).buf s.halOffset data
      let done : Bool := s.halOffset + data.length = size
      let s' := { s with
        node := Function.update s.node i { s.node i with buf := buf }
        hal := if done then rest else s.hal
        halOffset := if done then 0 else s.halOffset + data.length }
      some (rxReadyCallback size s' i s.halOffset data timeoutFlag)

/-- The end of `uart_read_from_buffer`: `uart_read` is done, or it waits for more. -/
def afterRead (c : Call) : Pc :=
  if c.rxFifoTimeout then .idle
  else if c.count < c.size then .waiting (c.size - c.count) else .idle

/-- `while (count < size)` -/
def enterLoop (c : Call) : Pc :=
  if c.count < c.size then .testHolding c else afterRead c

/-- Where the code goes on after `rx_api`, whether it succeeded or not. -/
def After.resume : After → Bool → Pc
  | .opening, ok => if ok then .testAppend else .idle
  | .reading c, _ => enterLoop c
  | .released, _ => .idle

/-- One access. -/
def readerStep (size : Nat) (s : State) : Option State :=
  match s.pc with
  | .idle => none
  | .waiting _ => none
  | .holding _ _ => none
  | .testAppend =>
    some { s with pc := if (s.node s.append).status.receiving then .idle else .clearStatus .opening }
  | .testHolding c =>
    some { s with pc := if (s.node s.r).status.dataHolding then .testReceiving c else afterRead c }
  | .testReceiving c =>
    some { s with pc := if (s.node s.r).status.receiving then .loadEnd c else .copyDone c }
  | .loadEnd c =>
    let dataSize := s.endOffset - s.readOffset
    some { s with pc := if 0 < dataSize then .loadFlag c dataSize.toNat else .loadFlagOnly c }
  | .loadFlag c dataSize =>
    some { s with pc := .copy { c with rxFifoTimeout := (s.node s.r).status.timeoutFlag } dataSize }
  | .copy c dataSize =>
    let copyLen := min (c.size - c.count) dataSize
    let c' := { c with count := c.count + copyLen }
    some { s with
      returned := s.returned ++ ((s.node s.r).buf.drop s.readOffset).take copyLen
      readOffset := s.readOffset + copyLen
      pc := if copyLen = dataSize then .loadClear c' else afterRead c' }
  | .loadClear c => some { s with pc := .storeClear c (s.node s.r).status }
  | .storeClear c status =>
    some { s with
      node := setStatus s.node s.r { status with timeoutFlag := false }
      pc := afterRead c }
  | .loadFlagOnly c =>
    some { s with pc := afterRead { c with rxFifoTimeout := (s.node s.r).status.timeoutFlag } }
  | .copyDone c =>
    let dataSize := size - s.readOffset
    let needSize := c.size - c.count
    let copyLen := min needSize dataSize
    let c' := { c with count := c.count + copyLen }
    some { s with
      returned := s.returned ++ ((s.node s.r).buf.drop s.readOffset).take copyLen
      readOffset := if dataSize ≤ needSize then 0 else s.readOffset + needSize
      pc := if dataSize ≤ needSize then .loadFlagDone c' else enterLoop c' }
  | .loadFlagDone c =>
    some { s with
      r := s.r + 1
      pc := .clearStatus (.reading { c with rxFifoTimeout := (s.node s.r).status.timeoutFlag }) }
  | .clearStatus k =>
    some { s with node := setStatus s.node s.append .zero, pc := .loadReceiving k }
  | .loadReceiving k => some { s with pc := .storeReceiving k (s.node s.append).status }
  | .storeReceiving k status =>
    some { s with
      node := setStatus s.node s.append { status with receiving := true }
      pc := .callApi k }
  | .callApi k =>
    match rxApi s s.append with
    | some s' => some { s' with append := s.append + 1, pc := k.resume true }
    | none => some { s with pc := .loadUndo k }
  | .loadUndo k => some { s with pc := .storeUndo k (s.node s.append).status }
  | .storeUndo k status =>
    some { s with
      node := setStatus s.node s.append { status with receiving := false }
      pc := k.resume false }
  | .receiveHolding =>
    some { s with pc := if (s.node s.r).status.dataHolding then .receiveReceiving else .idle }
  | .receiveReceiving =>
    some { s with pc :=
      if (s.node s.r).status.receiving then .receiveEnd
      else if s.readOffset < size then .holding s.readOffset (size - s.readOffset) else .idle }
  | .receiveEnd =>
    let dataSize := s.endOffset - s.readOffset
    some { s with pc := if 0 < dataSize then .holding s.readOffset dataSize.toNat else .idle }
  | .releaseHolding n =>
    some { s with pc := if (s.node s.r).status.dataHolding then .releaseLoad n else .idle }
  | .releaseLoad n => some { s with pc := .releaseStore n (s.node s.r).status }
  | .releaseStore n status =>
    let done : Bool := s.readOffset + n = size
    some { s with
      node := setStatus s.node s.r { status with timeoutFlag := false }
      returned := s.returned ++ ((s.node s.r).buf.drop s.readOffset).take n
      readOffset := if done then 0 else s.readOffset + n
      r := if done then s.r + 1 else s.r
      pc := if done then .clearStatus .released else .idle }

def step (size : Nat) (s : State) : Event → Option State
  | .read n =>
    match s.pc with
    | .idle => if 0 < n then some { s with pc := .testHolding ⟨n, 0, false⟩ } else none
    | _ => none
  | .receive =>
    match s.pc with
    | .idle => some { s with pc := .receiveHolding }
    | _ => none
  | .release n =>
    match s.pc with
    | .holding _ len => if 0 < n ∧ n ≤ len then some { s with pc := .releaseHolding n } else none
    | _ => none
  | .keep =>
    match s.pc with
    | .holding _ _ => some { s with pc := .idle }
    | _ => none
  | .reader => readerStep size s
  | .acquired =>
    match s.pc with
    | .waiting rest => some { s with pc := .testHolding ⟨rest, 0, false⟩ }
    | _ => none
  | .timedOut =>
    match s.pc with
    | .waiting _ => some { s with pc := .idle }
    | _ => none
  | .rxReady data timeoutFlag => rxReady size s data timeoutFlag

/-- After `uart_init_buf_manager`, when `uart_start_receive` begins. -/
structure Init (size : Nat) (s : State) : Prop where
  node : ∀ i, (s.node i).status = .zero ∧ (s.node i).buf.length = size
  r : s.r = 0
  w : s.w = 0
  append : s.append = 0
  endOffset : s.endOffset = 0
  readOffset : s.readOffset = 0
  hal : s.hal = []
  halOffset : s.halOffset = 0
  pc : s.pc = .testAppend
  accepted : s.accepted = []
  returned : s.returned = []

/-- How much of the node the reader is at counts as data. -/
def dataSize (size : Nat) (s : State) : Int :=
  if (s.node s.r).status.receiving then s.endOffset
  else if (s.node s.r).status.dataHolding then size else 0

/-- What `k` nodes from `i` on hold: complete nodes, and the node under reception up to
`end_offset`. -/
def holdings (s : State) : Nat → Fin rxBufNum → List UInt8
  | 0, _ => []
  | k + 1, i =>
    if (s.node i).status.receiving then (s.node i).buf.take s.endOffset.toNat
    else if (s.node i).status.dataHolding then (s.node i).buf ++ holdings s k (i + 1) else []

/-- The bytes the reader has not taken yet. -/
def unread (s : State) : List UInt8 := (holdings s rxBufNum s.r).drop s.readOffset

/-- The reader is between two calls. -/
def Pc.isBetween : Pc → Bool
  | .idle | .waiting _ | .holding _ _ => true
  | _ => false

end WmIot.Uart.Rx
