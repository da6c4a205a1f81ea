import WmIot.Lib.I2cBus

/-!
# I2C in software

`i2c_read` and `i2c_write` of the software I2C driver, down to the levels of the two pins. While SDA is
an input its level is the slave's bit, which changes when SCL falls after it was read. Delays are left
out, and no size exceeds the range of an `int`.
-/

namespace WmIot.I2c
open I2cBus
set_option autoImplicit false

inductive Err where
  | success
  | failed
  | invalidParam
deriving DecidableEq, Repr

structure World where
  /-- the output levels of the two pins -/
  scl : Bool
  sda : Bool
  /-- the direction of SDA -/
  input : Bool
  /-- the bits of the slave, and the next of them -/
  slave : Nat → Bool
  pos : Nat
  /-- the next bit was read since SCL rose -/
  heard : Bool
  /-- the levels of SCL and SDA, after each access -/
  wave : List (Bool × Bool)

/-- The bus is idle. -/
def idle (slave : Nat → Bool) : World := ⟨true, true, false, slave, 0, false, []⟩

def World.level (s : World) : Bool := if s.input then s.slave s.pos else s.sda

def emit (s : World) : World := { s with wave := s.wave ++ [(s.scl, s.level)] }

/-- `i2c_soft_set_scl` -/
def setScl (v : Bool) (s : World) : World :=
  let s := emit { s with scl := v }
  if v = false ∧ s.heard then emit { s with heard := false, pos := s.pos + 1 } else s

/-- `i2c_soft_set_sda` -/
def setSda (v : Bool) (s : World) : World := emit { s with sda := v }

/-- `wm_drv_gpio_fast_set_dir` of SDA -/
def setDir (input : Bool) (s : World) : World := emit { s with input := input }

/-- `i2c_soft_get_sda` -/
def getSda (s : World) : Bool × World := (s.level, { s with heard := true })

/-- `i2c_soft_start` -/
def start (s : World) : World := setSda false (setSda true (setScl true s))

/-- `i2c_soft_stop` -/
def stop (s : World) : World := setSda true (setScl true (setSda false (setScl false s)))

/-- The bits below `i`. -/
def writeBits (data : UInt8) : Nat → World → World
  | 0, s => s
  | i + 1, s => writeBits data i (setScl true (setSda (data.toNat.testBit i) (setScl false s)))

/-- `i2c_soft_write_byte` -/
def writeByte (data : UInt8) (s : World) : Err × World :=
  let s := writeBits data 8 s
  let s := setSda true (setScl false s)
  let s := setScl true (setDir true s)
  let (bit, s) := getSda s
  let s := setScl false (setDir false s)
  (if bit then .failed else .success, s)

/-- So many bits into `ret`. -/
def readBits : Nat → UInt8 → World → UInt8 × World
  | 0, ret, s => (ret, s)
  | i + 1, ret, s =>
    let (bit, s) := getSda (setScl true s)
    readBits i (ret <<< 1 ||| bit.toUInt8) (setScl false s)

/-- `i2c_soft_read_byte` -/
def readByte (sendAck : Bool) (s : World) : UInt8 × World :=
  let s := setDir true (setSda true (setScl false s))
  let (ret, s) := readBits 8 0 s
  let s := setScl false (setDir false s)
  (ret, setScl true (setSda (!sendAck) s))

/-- The loop of `i2c_soft_tx_polling`; it goes on after an error. -/
def writeData : List UInt8 → Err → World → Err × World
  | [], ret, s => (ret, s)
  | b :: data, ret, s =>
    let (err, s) := writeByte b s
    writeData data (if err = .success then ret else .failed) s

/-- `i2c_soft_tx_polling` -/
def txPolling (addr : Nat) (data : List UInt8) (noStart noStop : Bool) (s : World) : Err × World :=
  let (ret, s) := if noStart then (.success, s) else writeByte (UInt8.ofNat (addr <<< 1)) (start s)
  let (ret, s) := if ret = .success then writeData data ret s else (ret, s)
  (ret, if !noStop || ret ≠ .success then stop s else s)

/-- The loop of `i2c_soft_rx_polling`, with the bytes that are left. -/
def readData (noStop : Bool) : Nat → World → List UInt8 × World
  | 0, s => ([], s)
  | n + 1, s =>
    let sendAck := !(n = 0 && !noStop)
    let (b, s) := readByte sendAck s
    let (buffer, s) := readData noStop n s
    (b :: buffer, s)

/-- `i2c_soft_rx_polling`, with what it wrote into the buffer. -/
def rxPolling (addr size : Nat) (noStart noStop : Bool) (s : World) : Err × List UInt8 × World :=
  let (ret, s) := if noStart then (.success, s) else writeByte (UInt8.ofNat (addr <<< 1 ||| 1)) (start s)
  if ret ≠ .success then (ret, [], s)
  else
    let (buffer, s) := readData noStop size s
    (ret, buffer, s)

/-- `wm_drv_i2c_config_t`, and what the checks use of the device. -/
structure Config where
  addr : Nat
  speedHz : Nat
  inited : Bool
  maxClock : Nat

/-- The parameter checks. -/
def Config.valid (c : Config) : Bool :=
  c.inited && decide (c.addr ≤ 0x7F) && decide (1000 ≤ c.speedHz) && decide (c.speedHz ≤ c.maxClock)

/-- `i2c_read`; no sub-address is the empty one, and `lock` says whether the mutex was acquired. -/
def i2cRead (c : Config) (sub : List UInt8) (size : Nat) (lock : Bool) (s : World) :
    Err × List UInt8 × World :=
  if !c.valid then (.invalidParam, [], s)
  else if !lock then (.failed, [], s)
  else
    let (ret, s) := if sub ≠ [] then txPolling c.addr sub false true s else (.success, s)
    if ret = .success then rxPolling c.addr size false false s else (ret, [], s)

/-- `i2c_write` -/
def i2cWrite (c : Config) (sub data : List UInt8) (lock : Bool) (s : World) : Err × World :=
  if !c.valid then (.invalidParam, s)
  else if !lock then (.failed, s)
  else
    let noStop := decide (data ≠ [])
    let (ret, s) := txPolling c.addr sub false noStop s
    if ret = .success ∧ noStop then txPolling c.addr data true false s else (ret, s)

/-! ## What a call promises -/

inductive Call where
  | read (sub : List UInt8) (size : Nat)
  | write (sub data : List UInt8)
deriving DecidableEq, Repr

/-- The result, what was read, and the pins after the call. -/
def Call.run (c : Config) (lock : Bool) (s : World) : Call → Err × List UInt8 × World
  | .read sub size => i2cRead c sub size lock s
  | .write sub data =>
    let r := i2cWrite c sub data lock s
    (r.1, [], r.2)

/-- The address byte. -/
def addrByte (addr : Nat) (read : Bool) : UInt8 := UInt8.ofNat (2 * addr + read.toNat)

/-- As many bytes, and the last one not acknowledged. -/
def readItems : Nat → List Item
  | 0 => []
  | n + 1 => .read (decide (n = 0)) :: readItems n

/-- The transaction of a call. -/
def Call.items (addr : Nat) : Call → List Item
  | .read sub size =>
    (if sub = [] then [] else .start :: .write (addrByte addr false) :: sub.map .write) ++
      .start :: .write (addrByte addr true) :: readItems size
  | .write sub data => .start :: .write (addrByte addr false) :: (sub ++ data).map .write

/-- The bus as a slave sees it. -/
def World.bus (s : World) : Bus := s.wave.foldl (fun b l => b.see l.1 l.2) (.idle [])

/-- The call is one transaction from the idle bus to the idle bus, and returns the slave's bytes; a call
that is refused leaves the bus alone. -/
def Call.Transacts (call : Call) (c : Config) (lock : Bool) (slave : Nat → Bool) : Prop :=
  let r := call.run c lock (idle slave)
  if c.valid ∧ lock then
    Legal slave (call.items c.addr) r.2.2.bus ∧
      (r.1 = .success → Received slave 0 (call.items c.addr) r.2.1 ∧
        r.2.2.bus = .idle (render slave 0 (call.items c.addr) ++ [.stop]))
  else r.2.2.wave = []

end WmIot.I2c
