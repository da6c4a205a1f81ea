import WmIot.Lib.Transition
import WmIot.Uart.Buffer

/-!
# The transmit buffer of the UART driver

`uart_write` copies data into a ring of buffer nodes under `tx_mutex` and the TX-done callback, in
an interrupt, passes the next node to the HAL. A step of the writer is one access to what both
share (`tbm` and its nodes); the callback runs between two of them.
-/

namespace WmIot.Uart
set_option autoImplicit false

/-- `WM_DRV_UART_TX_BUF_NUM` -/
abbrev txBufNum : Nat := 4

scoped instance : NeZero txBufNum := ⟨by decide⟩

def txMinBufSize : Nat := 128

/-- A `tx_buf_size` that `uart_init` accepts for the buffered mode. -/
structure TxBufSize where
  bytes : Nat
  min : txMinBufSize ≤ bytes
  max : bytes < bufBlockMaxSize

/-- `block_size` of `uart_init_buf_manager` -/
def TxBufSize.blockSize (b : TxBufSize) : Nat := b.bytes / txBufNum

/-- The bit fields of the status word of a node used for tx. -/
structure Status where
  sending : Bool
  dateSize : Nat
deriving DecidableEq, Repr

/-- `wm_drv_uart_buf_node_t` as `uart_write` uses it. The nodes are one array, `next` is the index
after, and `size` is the same for all. -/
structure Node where
  status : Status
  buf : List UInt8
deriving DecidableEq, Repr

/-- The locals of a call of `uart_write_to_buffer`. -/
structure Call where
  data : List UInt8
  write : Fin txBufNum
  append : Fin txBufNum
  count : Nat
deriving DecidableEq, Repr

/-- What the task that holds `tx_mutex` does next: each constructor from `loadAppend` on is one
access of `uart_write_to_buffer`. -/
inductive Pc where
  | outside
  /-- `uart_write` waits for `tx_sem` with this much data left -/
  | waiting (rest : List UInt8)
  | loadAppend (data : List UInt8) (write : Fin txBufNum)
  | setWritting (c : Call)
  | testSending (c : Call)
  | testRoom (c : Call)
  | loadOffset (c : Call) (copyLen : Nat)
  | copy (c : Call) (copyLen offset : Nat)
  | loadStatus (c : Call) (copyLen : Nat)
  | storeStatus (c : Call) (copyLen : Nat) (status : Status)
  | testFull (c : Call)
  | storeWrite (c : Call)
  | testIdle (c : Call)
  | testPending (c : Call)
  | loadMark (c : Call)
  | storeMark (c : Call) (status : Status)
  | testWrite (c : Call)
  | loadNext (c : Call)
  | storeNext (c : Call) (w : Fin txBufNum)
  | storeAppend (c : Call)
  | clearWritting (c : Call)
  | callApi (c : Call)
  | leave (c : Call)
deriving DecidableEq, Repr

/-- What the HAL was told to send and has not reported done. -/
structure Transfer where
  node : Fin txBufNum
  size : Nat
deriving DecidableEq, Repr

structure State where
  node : Fin txBufNum → Node
  r : Fin txBufNum
  w : Fin txBufNum
  append : Fin txBufNum
  writting : Bool
  hal : Option Transfer
  pc : Pc
  /-- the bytes that finished calls of `uart_write_to_buffer` reported as written -/
  returned : List UInt8
  /-- the bytes passed to `tx_api`, call after call -/
  handed : List UInt8

inductive Event where
  /-- a task takes `tx_mutex` and enters `uart_write` -/
  | write (data : List UInt8)
  /-- the writer's next access -/
  | writer
  /-- `tx_sem` is acquired, or the wait for it fails -/
  | acquired
  | givenUp
  | txDone

/-- `tx_api` of the HAL: refused for no data and while a transfer is on. -/
def txApi (s : State) (i : Fin txBufNum) (size : Nat) : Option State :=
  if s.hal.isSome ∨ size = 0 then none
  else some { s with
    hal := some ⟨i, size⟩
    handed := s.handed ++ (s.node i).buf.take size }

def setStatus (node : Fin txBufNum → Node) (i : Fin txBufNum) (st : Status) :
    Fin txBufNum → Node :=
  Function.update node i { node i with status := st }

def setBuf (node : Fin txBufNum → Node) (i : Fin txBufNum) (buf : List UInt8) :
    Fin txBufNum → Node :=
  Function.update node i { node i with buf := buf }

/-- The first half of the callback: the node that was sent is free again. -/
def finishSent (s : State) : State :=
  if (s.node s.r).status.sending then
    { s with node := setStatus s.node s.r ⟨false, 0⟩, r := s.r + 1 }
  else s

/-- The second half: the append node goes to the HAL. -/
def appendNext (s : State) (append : Fin txBufNum) : State :=
  if 0 < (s.node append).status.dateSize ∧ ¬ s.writting then
    match txApi s append (s.node append).status.dateSize with
    | some s' =>
      { s' with
        node := setStatus s'.node append { (s'.node append).status with sending := true }
        w := if s'.w = append then s'.w + 1 else s'.w
        append := append + 1 }
    | none => s
  else s

/-- `wm_drv_uart_evt_callback` for `WM_HAL_UART_TX_DONE`; the HAL clears its transfer before. -/
def txDone (s : State) : Option State :=
  s.hal.map fun _ => appendNext (finishSent { s with hal := none }) s.append

/-- `while (count < size)` -/
def enterLoop (c : Call) : Pc :=
  if c.count < c.data.length then .testSending c else .testIdle c

/-- The end of a call: `uart_write` waits for `tx_sem` unless all is written. -/
def afterCall (c : Call) : Pc :=
  if c.count < c.data.length then .waiting (c.data.drop c.count) else .outside

/-- One access of the writer. -/
def writerStep (size : Nat) (s : State) : Option State :=
  match s.pc with
  | .outside => none
  | .waiting _ => none
  | .loadAppend data write => some { s with pc := .setWritting ⟨data, write, s.append, 0⟩ }
  | .setWritting c => some { s with writting := true, pc := enterLoop c }
  | .testSending c =>
    some { s with pc := if (s.node c.write).status.sending then .testIdle c else .testRoom c }
  | .testRoom c =>
    let dateSize := (s.node c.write).status.dateSize
    some { s with pc :=
      if dateSize < size then .loadOffset c (min (c.data.length - c.count) (size - dateSize))
      else .testIdle c }
  | .loadOffset c copyLen =>
    some { s with pc := .copy c copyLen (s.node c.write).status.dateSize }
  | .copy c copyLen offset =>
    some { s with
      node := setBuf s.node c.write
        (memcpy (s.node c.write).buf offset ((c.data.drop c.count).take copyLen))
      pc := .loadStatus c copyLen }
  | .loadStatus c copyLen => some { s with pc := .storeStatus c copyLen (s.node c.write).status }
  | .storeStatus c copyLen status =>
    some { s with
      node := setStatus s.node c.write
        { status with dateSize := (status.dateSize + copyLen) % 2 ^ 16 }
      pc := .testFull { c with count := c.count + copyLen } }
  | .testFull c =>
    some { s with pc :=
      if (s.node c.write).status.dateSize = size then .storeWrite { c with write := c.write + 1 }
      else enterLoop c }
  | .storeWrite c => some { s with w := c.write, pc := enterLoop c }
  | .testIdle c => some { s with pc := if c.append = s.r then .testPending c else .leave c }
  | .testPending c =>
    some { s with pc := if 0 < (s.node c.append).status.dateSize then .loadMark c else .leave c }
  | .loadMark c => some { s with pc := .storeMark c (s.node c.append).status }
  | .storeMark c status =>
    some { s with
      node := setStatus s.node c.append { status with sending := true }
      pc := .testWrite c }
  | .testWrite c => some { s with pc := if s.w = c.append then .loadNext c else .storeAppend c }
  | .loadNext c => some { s with pc := .storeNext c s.w }
  | .storeNext c w => some { s with w := w + 1, pc := .storeAppend c }
  | .storeAppend c => some { s with append := c.append + 1, pc := .clearWritting c }
  | .clearWritting c => some { s with writting := false, pc := .callApi c }
  | .callApi c =>
    match txApi s c.append (s.node c.append).status.dateSize with
    | some s' => some { s' with pc := .leave c }
    | none => some { s with pc := .leave c }
  | .leave c =>
    some { s with
      writting := false
      returned := s.returned ++ c.data.take c.count
      pc := afterCall c }

def step (size : Nat) (s : State) : Event → Option State
  | .write data =>
    match s.pc with
    | .outside => if data = [] then none else some { s with pc := .loadAppend data s.w }
    | _ => none
  | .writer => writerStep size s
  | .acquired =>
    match s.pc with
    | .waiting rest => some { s with pc := .loadAppend rest s.w }
    | _ => none
  | .givenUp =>
    match s.pc with
    | .waiting _ => some { s with pc := .outside }
    | _ => none
  | .txDone => txDone s

/-- After `uart_init`: `uart_init_buf_manager` has cleared each status and left the memory as it
was allocated. -/
structure Init (size : Nat) (s : State) : Prop where
  node : ∀ i, (s.node i).status = ⟨false, 0⟩ ∧ (s.node i).buf.length = size
  r : s.r = 0
  w : s.w = 0
  append : s.append = 0
  writting : s.writting = false
  hal : s.hal = none
  pc : s.pc = .outside
  returned : s.returned = []
  handed : s.handed = []

/-- The bytes the call in progress has copied. -/
def Pc.copied : Pc → List UInt8
  | .outside | .waiting _ | .loadAppend _ _ => []
  | .setWritting c | .testSending c | .testRoom c | .loadOffset c _ | .copy c _ _
  | .loadStatus c _ | .storeStatus c _ _ | .testFull c | .storeWrite c | .testIdle c
  | .testPending c | .loadMark c | .storeMark c _ | .testWrite c | .loadNext c | .storeNext c _
  | .storeAppend c | .clearWritting c | .callApi c | .leave c => c.data.take c.count

/-- The bytes accepted from the writers so far. -/
def accepted (s : State) : List UInt8 := s.returned ++ s.pc.copied

/-- No task is inside `uart_write_to_buffer`. -/
def Pc.isOutside : Pc → Bool
  | .outside | .waiting _ => true
  | _ => false

end WmIot.Uart
