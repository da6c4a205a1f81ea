import WmIot.Lib.Transition

/-!
# The shared crypto engine

Hash, cipher, CRC and random-number operations on one engine, whose clock gate and mutex they share. A
critical section is one step, and so is each statement outside; the devices are initialised. The engine
itself is a parameter: what it computes for the operands that an operation gives it.
-/

namespace WmIot.Crypto
open Transition
set_option autoImplicit false

inductive Err where
  | success
  | failed
  | invalidParam
  | timeout
deriving DecidableEq, Repr

/-- `wm_hash_alg_t` -/
inductive Alg where
  | md5
  | sha1
deriving DecidableEq, Repr

/-- `wm_hal_hash_cfg_t`: the bytes up to `curlen`, and the length in bits, a number of 64 bits. -/
structure HashCfg where
  alg : Alg
  state : List UInt32
  buf : List UInt8
  length : Nat
deriving DecidableEq, Repr

inductive CrcType where
  | crc8
  | crc16Modbus
  | crc16Ccitt
  | crc32
deriving DecidableEq, Repr

/-- `wm_hal_crc_cfg_t` -/
structure CrcCfg where
  state : UInt32
  type : CrcType
  outReverse : Bool
  inReverse : Bool
deriving DecidableEq, Repr

inductive CipherAlg where
  | rc4
  | aes
  | des
  | des3
deriving DecidableEq, Repr

/-- `wm_hal_cryp_cfg_t` as its `init` leaves it, and the direction of the operation. -/
structure Cipher where
  alg : CipherAlg
  key : List UInt8
  iv : List UInt8
  subMode : Nat
  decrypt : Bool
deriving DecidableEq, Repr

/-- What the engine computes. -/
structure Gpsec where
  hash : Alg → List UInt32 → List UInt8 → List UInt32
  /-- from the value in its register -/
  crc : CrcType → Bool → Bool → UInt32 → List UInt8 → UInt32
  cipher : Cipher → List UInt8 → List UInt8

/-- How a critical section goes: whether the mutex is acquired, whether the engine completes before the
polling ends, and what is read from it where it does not. -/
structure Env where
  acquired : Bool
  completes : Bool
  digest : List UInt32
  crc : UInt32
  data : List UInt8
  /-- what the random-number generator gives -/
  random : List UInt8
deriving DecidableEq, Repr

/-! ## Hash -/

/-- `wm_hal_hash_start` -/
def hashStart (alg : Alg) : HashCfg where
  alg := alg
  state := [0x67452301, 0xefcdab89, 0x98badcfe, 0x10325476] ++
    if alg = .sha1 then [0xc3d2e1f0] else []
  buf := []
  length := 0

section Hash
variable (g : Gpsec) (e : Env) (clock : Bool)

/-- `wm_hal_hash_compress`; that the engine does not complete is only logged. -/
def compress (block : List UInt8) (cfg : HashCfg) : Err × HashCfg :=
  (.success, { cfg with
    state := if clock && e.completes then g.hash cfg.alg cfg.state block else e.digest })

/-- A full block is compressed; the flag says whether the engine was started. -/
def flushFull (cfg : HashCfg) (started : Bool) : Err × HashCfg × Bool :=
  if cfg.buf.length = 64 then
    let (err, cfg) := compress g e clock cfg.buf cfg
    if err ≠ .success then (.timeout, cfg, true)
    else (.success, { cfg with length := (cfg.length + 512) % 2 ^ 64, buf := [] }, true)
  else (.success, cfg, started)

/-- The loop of `wm_w800_drv_hash_update`, byte by byte. -/
def absorb : List UInt8 → HashCfg → Bool → Err × HashCfg × Bool
  | [], cfg, started => (.success, cfg, started)
  | b :: data, cfg, started =>
    let (err, cfg, started) := flushFull g e clock cfg started
    if err ≠ .success then (err, cfg, started)
    else
      let (err, cfg, started) := flushFull g e clock { cfg with buf := cfg.buf ++ [b] } started
      if err ≠ .success then (err, cfg, started) else absorb data cfg started

end Hash

def storeWord (bigEndian : Bool) (w : UInt32) : List UInt8 :=
  let bytes := [(w >>> 24).toUInt8, (w >>> 16).toUInt8, (w >>> 8).toUInt8, w.toUInt8]
  if bigEndian then bytes else bytes.reverse

def storeLength (bigEndian : Bool) (n : Nat) : List UInt8 :=
  let hi := storeWord bigEndian (UInt32.ofNat (n / 2 ^ 32))
  let lo := storeWord bigEndian (UInt32.ofNat n)
  if bigEndian then hi ++ lo else lo ++ hi

/-- `wm_w800_drv_hash_final` before its critical section -/
def finalPad (cfg : HashCfg) : HashCfg :=
  { cfg with
    length := (cfg.length + 8 * cfg.buf.length) % 2 ^ 64
    buf := cfg.buf ++ [0x80] }

/-- The critical section of `wm_w800_drv_hash_final`, which looks at no result of the compression. -/
def finalBlock (g : Gpsec) (e : Env) (clock : Bool) (cfg : HashCfg) : HashCfg :=
  let zeros := fun n => List.replicate n (0 : UInt8)
  let cfg :=
    if 56 < cfg.buf.length then
      { (compress g e clock (cfg.buf ++ zeros (64 - cfg.buf.length)) cfg).2 with buf := [] }
    else cfg
  let cfg := { cfg with buf := cfg.buf ++ zeros (56 - cfg.buf.length) }
  (compress g e clock (cfg.buf ++ storeLength (decide (cfg.alg = Alg.sha1)) cfg.length) cfg).2

def digestOf (cfg : HashCfg) : List UInt8 := cfg.state.flatMap (storeWord (decide (cfg.alg = Alg.sha1)))

/-! ## CRC and ciphers -/

/-- `reverse_num`, with the bits that are left -/
def reverseNum : Nat → UInt32 → UInt32 → UInt32
  | 0, _, ret => ret
  | i + 1, num, ret =>
    reverseNum i (num >>> 1) (if num &&& 1 = 1 then ret ||| (1 <<< UInt32.ofNat i) else ret)

def CrcType.bits : CrcType → Nat
  | .crc8 => 8
  | .crc16Modbus | .crc16Ccitt => 16
  | .crc32 => 32

/-- `set_crc_value` -/
def crcValue (cfg : CrcCfg) : UInt32 :=
  if cfg.outReverse then reverseNum cfg.type.bits cfg.state 0 else cfg.state

/-- `wm_hal_crc_update` -/
def crcUpdate (g : Gpsec) (e : Env) (data : List UInt8) (cfg : CrcCfg) : Err × CrcCfg :=
  if data = [] ∨ 65532 < data.length then (.invalidParam, cfg)
  else
    (.success, { cfg with
      state :=
        if e.completes then g.crc cfg.type cfg.outReverse cfg.inReverse (crcValue cfg) data else e.crc })

/-- The checks of `wm_drv_*_encrypt_decrypt`. -/
def Cipher.sizeOk (c : Cipher) (data : List UInt8) : Bool :=
  decide (0 < data.length) && match c.alg with
    | .rc4 => true
    | .aes => decide (data.length % 16 = 0)
    | .des | .des3 => decide (data.length % 8 = 0)

/-- `wm_hal_*_encrypt_decrypt` -/
def cipherOp (g : Gpsec) (e : Env) (c : Cipher) (data : List UInt8) : Err × List UInt8 :=
  if (if c.alg = .rc4 then 65532 else 0xFFFF) < data.length then (.invalidParam, [])
  else (.success, if e.completes then g.cipher c data else e.data)

/-! ## Operations -/

/-- A context and what it is for; `wm_drv_md5` and `wm_drv_crc32_reverse` have theirs on the stack. -/
inductive Owner where
  | hash (n : Nat)
  | md5 (n : Nat)
  | crc (n : Nat)
  | crc32 (n : Nat)
  | cipher (n : Nat)
  | rng (n : Nat)
deriving DecidableEq, Repr

inductive Call where
  | start (alg : Alg)
  | update (alg : Alg) (data : List UInt8)
  | final (alg : Alg)
  /-- `wm_drv_md5` -/
  | md5 (data : List UInt8)
  | crcCfg (state : UInt32) (type : CrcType) (outReverse inReverse : Bool)
  | crcUpdate (data : List UInt8)
  | crcFinal
  /-- `wm_drv_crc32_reverse` -/
  | crc32Reverse (data : List UInt8)
  | cipher (c : Cipher) (data : List UInt8)
  | rng
deriving DecidableEq, Repr

inductive Output where
  | none
  | bytes (data : List UInt8)
  | value (crc : UInt32)
deriving DecidableEq, Repr

/-- The atomic steps of the calls. -/
inductive Micro where
  | clockOn
  | clockOff
  | hashStart (alg : Alg)
  | hashUpdate (alg : Alg) (data : List UInt8)
  | finalPad (alg : Alg)
  | finalBlock
  | finalCopy
  | crcCfg (state : UInt32) (type : CrcType) (outReverse inReverse : Bool)
  | crcUpdate (data : List UInt8)
  | crcFinal
  /-- `crcvalue` as it was initialised -/
  | crcZero
  | cipher (c : Cipher) (data : List UInt8)
  | rng
deriving DecidableEq, Repr

def Call.steps : Call → List Micro
  | .start alg => [.clockOn, .hashStart alg]
  | .update alg data => [.hashUpdate alg data]
  | .final alg => [.finalPad alg, .finalBlock, .finalCopy]
  | .md5 data =>
    [.clockOn, .hashStart .md5, .hashUpdate .md5 data, .finalPad .md5, .finalBlock, .finalCopy, .clockOff]
  | .crcCfg state type outReverse inReverse => [.crcCfg state type outReverse inReverse]
  | .crcUpdate data => [.crcUpdate data]
  | .crcFinal => [.crcFinal]
  | .crc32Reverse data =>
    if data = [] then [.crcZero]
    else [.crcCfg 0xFFFFFFFF .crc32 true true, .crcUpdate data, .crcFinal, .clockOff]
  | .cipher c data => [.cipher c data]
  | .rng => [.rng]

/-- The context of an owner, the rest of its call and the calls that returned. -/
structure Ctx where
  hash : HashCfg
  /-- between a start and a final -/
  running : Bool
  crc : CrcCfg
  todo : List Micro
  /-- the call goes on after an error -/
  force : Bool
  result : Output
  returned : List (Err × Output)
deriving DecidableEq, Repr

/-- A call of this owner that keeps to the order of start, update and final. -/
def Call.fits (call : Call) (o : Owner) (c : Ctx) : Bool :=
  match call, o with
  | .start _, .hash _ | .md5 _, .md5 _ => true
  | .update _ _, .hash _ | .final _, .hash _ => c.running
  | .crcCfg _ _ _ _, .crc _ | .crcUpdate _, .crc _ | .crcFinal, .crc _ | .crc32Reverse _, .crc32 _ => true
  | .cipher _ _, .cipher _ => true
  | .rng, .rng _ => true
  | _, _ => false

/-- What a step makes of the context and the clock; `off` says that the engine was started without
clock, `leak` that the mutex was not released. -/
structure Outcome where
  err : Err
  ctx : Ctx
  clock : Bool
  off : Bool
  leak : Bool

section Steps
variable (g : Gpsec) (e : Env) (clock : Bool) (c : Ctx)

/-- Nothing but the context. -/
def plain (err : Err) (c : Ctx) : Outcome := ⟨err, c, clock, false, false⟩

def Micro.run : Micro → Outcome
  | .clockOn => ⟨.success, c, true, false, false⟩
  | .clockOff => ⟨.success, c, false, false, false⟩
  | .hashStart alg => plain clock .success { c with hash := Crypto.hashStart alg, running := true }
  | .hashUpdate alg data =>
    if data = [] ∨ c.hash.alg ≠ alg then plain clock .invalidParam c
    else if !e.acquired then plain clock .failed c
    else
      let (err, cfg, started) := absorb g e clock data c.hash false
      ⟨err, { c with hash := cfg }, clock, started && !clock, decide (err ≠ .success)⟩
  | .finalPad alg =>
    if c.hash.alg ≠ alg ∨ 64 ≤ c.hash.buf.length then plain clock .invalidParam c
    else plain clock .success { c with hash := Crypto.finalPad c.hash }
  | .finalBlock =>
    if !e.acquired then plain clock .failed c
    else ⟨.success, { c with hash := Crypto.finalBlock g e clock c.hash }, clock, !clock, false⟩
  | .finalCopy => plain clock .success { c with result := .bytes (digestOf c.hash), running := false }
  | .crcCfg state type outReverse inReverse =>
    plain clock .success { c with crc := ⟨state, type, outReverse, inReverse⟩ }
  | .crcUpdate data =>
    if data = [] then plain clock .invalidParam c
    else if !e.acquired then plain clock .failed c
    else
      let (err, cfg) := Crypto.crcUpdate g e data c.crc
      ⟨err, { c with crc := cfg }, true, false, false⟩
  | .crcFinal => plain clock .success { c with result := .value c.crc.state }
  | .crcZero => plain clock .success { c with result := .value 0 }
  | .cipher k data =>
    if !k.sizeOk data then plain clock .invalidParam c
    else if !e.acquired then plain clock .failed c
    else
      let (err, out) := cipherOp g e k data
      ⟨err, { c with result := .bytes out }, false, false, false⟩
  | .rng =>
    if !e.acquired then plain clock .failed c
    else ⟨.success, { c with result := .bytes e.random }, false, false, false⟩

/-- The context after the step: the call goes on, or returns. -/
def proceed (err : Err) (rest : List Micro) (c : Ctx) : Ctx :=
  if err ≠ .success ∧ c.force = false then
    { c with todo := [], result := .none, returned := c.returned ++ [(err, .none)] }
  else if rest = [] then
    { c with todo := [], result := .none, returned := c.returned ++ [(.success, c.result)] }
  else { c with todo := rest }

end Steps

structure World where
  clock : Bool
  /-- who has the mutex between the steps -/
  mutex : Option Owner
  /-- the engine was started without clock -/
  off : Bool
  ctx : Owner → Ctx

def freshCtx : Ctx :=
  ⟨hashStart .md5, false, ⟨0, .crc8, false, false⟩, [], false, .none, []⟩

def fresh : World := ⟨false, none, false, fun _ => freshCtx⟩

inductive Event where
  | call (o : Owner) (call : Call)
  | go (o : Owner) (e : Env)
deriving DecidableEq, Repr

def Event.owner : Event → Owner
  | .call o _ => o
  | .go o _ => o

def Call.force : Call → Bool
  | .crc32Reverse _ => true
  | _ => false

def step (g : Gpsec) (s : World) : Event → Option World
  | .call o call =>
    let c := s.ctx o
    if c.todo = [] ∧ call.fits o c = true then
      some { s with ctx := Function.update s.ctx o { c with todo := call.steps, force := call.force } }
    else none
  | .go o e =>
    let c := s.ctx o
    match c.todo with
    | [] => none
    | m :: rest =>
      if e.acquired ∧ s.mutex.isSome then none
      else
        let r := m.run g e s.clock c
        some ⟨r.clock, if r.leak then some o else s.mutex, s.off || r.off,
          Function.update s.ctx o (proceed r.err rest r.ctx)⟩

end WmIot.Crypto
