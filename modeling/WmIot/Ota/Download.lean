import WmIot.Ota.Ops

/-!
# The download

`ota_start` over HTTP. The server, Wi-Fi and the flash are an endless sequence of answers, one for
each turn of the loop; the loop runs with fuel.
-/

namespace WmIot.Ota
set_option autoImplicit false

/-- What `HTTPClientReadData` returns. -/
inductive HttpRet where
  | success
  | eos
  | error
deriving DecidableEq, Repr

/-- An answer of `HTTPClientReadData`, and what is looked at after it. -/
structure Read where
  ret : HttpRet
  bytes : List Byte
  /-- the timeout has gone by since the call -/
  late : Bool
  /-- Wi-Fi is connected and has an address -/
  online : Bool

structure Turn where
  read : Read
  io : FlashIo

inductive Status where
  | connectionStart
  | connectionFailed
  | connected
  | downloadStart
  | downloadFailed
  | downloaded
  | upgradeStart
  | abort
deriving DecidableEq, Repr

structure Config where
  /-- `CONFIG_OTA_BLOCK_SIZE`, at least the header by its range -/
  blockSize : Nat
  /-- `CONFIG_OTA_SOCKET_RECONNECT_TIMES` -/
  reconnectTimes : Nat
  block_ge : 64 ≤ blockSize

/-- What a call of `ota_start` meets: the answers of the connections, whether the buffer can be
allocated, and the turns. -/
structure Env where
  connects : Nat → Err
  mem : Bool
  turns : Nat → Turn

/-- The part of `wm_ota_ctx_t` and the locals that the loop changes. -/
structure Loop where
  c : Ctx
  wroteOffset : Nat
  total : Nat
  progress : Nat
  nextReadSize : Nat
  /-- the updates of the state -/
  states : List (Status × Nat)

/-- `wm_http_client_read_data` -/
def readData (r : Read) : Err :=
  match r.ret with
  | .success => .success
  | .eos => .eos
  | .error => .failed

/-- `wm_ota_http_get_firmware` behind its checks; the timeout of the socket it compares with is an
error of the HTTP client, which `wm_http_client_read_data` never returns. -/
def readFirmware (r : Read) : Err :=
  if r.late then .timeout
  else if r.online = false then .noGotIp
  else if readData r = .eos then .success
  else readData r

/-- `wm_ota_http_get_firmware` with the handle of the session -/
def getFirmware (bufSize : Nat) (r : Read) : Err :=
  if bufSize = 0 then .invalidParam else readFirmware r

def Loop.update (s : Loop) (status : Status) (progress : Nat) : Loop :=
  { s with progress := progress, states := s.states ++ [(status, progress)] }

/-- A new progress is reported. -/
def Loop.report (s : Loop) (newProgress : Nat) : Loop :=
  if s.progress ≠ newProgress then s.update .downloadStart newProgress else s

/-- The count of what was written, the size being known from the header, and the next request. -/
def count (cfg : Config) (s : Loop) (got : Nat) : Loop :=
  let total := if s.total = 0 then imgTotalSize s.c else s.total
  let wroteOffset := add32 s.wroteOffset got
  let newProgress := wroteOffset * 100 % 2 ^ 32 / total
  let left := sub32 total wroteOffset
  Loop.report
    { s with
      total := total
      wroteOffset := wroteOffset
      nextReadSize := if cfg.blockSize ≤ left then cfg.blockSize else left }
    newProgress

/-- The end of the loop; `wm_ota_ops_reboot` returns success. -/
def finish (reboot : Bool) (s : Loop) : Loop × Err :=
  let ret := opsEnd s.c
  if ret ≠ .success then (s.update .abort 100, ret)
  else
    let s := s.update .downloaded 100
    (if reboot then s.update .upgradeStart 100 else s, .success)

/-- One turn; the result is there where the loop is left. -/
def turn (cfg : Config) (reboot : Bool) (s : Loop) (t : Turn) : Loop × Option Err :=
  let ret := getFirmware s.nextReadSize t.read
  if ret ≠ .success then (s.update .downloadFailed s.progress, some ret)
  else if t.read.bytes = [] then (s, none)
  else
    let (c, ret) := opsWrite t.io s.c t.read.bytes
    let s := { s with c := c }
    if ret ≠ .success then (s.update .abort s.progress, some ret)
    else
      let s := count cfg s t.read.bytes.length
      if s.total ≤ s.wroteOffset then
        let (s, ret) := finish reboot s
        (s, some ret)
      else (s, none)

def loop (cfg : Config) (reboot : Bool) (turns : Nat → Turn) : Nat → Nat → Loop → Option (Loop × Err)
  | 0, _, _ => none
  | n + 1, i, s =>
    match turn cfg reboot s (turns i) with
    | (s, some ret) => some (s, ret)
    | (s, none) => loop cfg reboot turns n (i + 1) s

/-- The connection, with so many more tries after a failed one. -/
def connect (connects : Nat → Err) : Nat → Nat → Err
  | 0, i => connects i
  | n + 1, i => if connects i = .success then .success else connect connects n (i + 1)

/-- `ota_start` -/
def otaStart (cfg : Config) (reboot : Bool) (env : Env) (n : Nat) (c : Ctx) (wroteOffset : Nat) :
    Option (Loop × Err) :=
  let s : Loop := ⟨c, wroteOffset, 0, 0, cfg.blockSize, []⟩
  let s := s.update .connectionStart 0
  if connect env.connects cfg.reconnectTimes 0 ≠ .success then
    some (s.update .connectionFailed 0, .connectionFailed)
  else
    let s := (s.update .connected 0).update .downloadStart 0
    if env.mem then loop cfg reboot env.turns n 0 s else some (s.update .abort 0, .noMem)

/-- The context before a call: after the beginning, or after calls that came back. -/
inductive Prepared (cfg : Config) : Ctx → Nat → Prop where
  | begin {tail : Bool} {io : FlashIo} {c₀ c : Ctx} {imageSize : Nat}
      (hplaced : c₀.appOtaAddr + c₀.appOtaSize < 2 ^ 32)
      (hbegin : opsBegin tail io c₀ imageSize = (c, .success)) : Prepared cfg c 0
  | again {c : Ctx} {w n : Nat} {reboot : Bool} {env : Env} {s : Loop} {ret : Err} (h : Prepared cfg c w)
      (hstart : otaStart cfg reboot env n c w = some (s, ret)) : Prepared cfg s.c s.wroteOffset

/-! ## What a download promises -/

/-- The bytes that the first reads deliver. -/
def delivered (turns : Nat → Turn) : Nat → Nat
  | 0 => 0
  | i + 1 => delivered turns i + (turns i).read.bytes.length

/-- The size that the header announces. -/
def announced (c : Ctx) : Nat := c.otaHeader.imgLen + headerSize

/-- The stream ends before the announced size. -/
def EndsEarly (env : Env) (c : Ctx) (w : Nat) : Prop :=
  ∃ i, (∀ k, i ≤ k → (env.turns k).read.bytes = []) ∧ w + delivered env.turns i < announced c

/-- `ota_start` returns; with success only when the announced bytes are written and the end accepted
them, and with an error when the stream ended early. -/
def Ends (cfg : Config) (reboot : Bool) (env : Env) (c : Ctx) (w : Nat) : Prop :=
  ∃ n s ret, otaStart cfg reboot env n c w = some (s, ret) ∧
    (ret = .success → s.c.appOtaAddr + announced s.c ≤ s.c.wroteAddr ∧ opsEnd s.c = .success) ∧
    (EndsEarly env s.c w → ret ≠ .success)

/-- The context after the chunks of the first reads, where each is accepted. -/
def written (turns : Nat → Turn) (c : Ctx) : Nat → Option Ctx
  | 0 => some c
  | i + 1 =>
    (written turns c i).bind fun c =>
      let d := (turns i).read.bytes
      if d = [] then some c
      else if (opsWrite (turns i).io c d).2 = .success then some (opsWrite (turns i).io c d).1 else none

/-- The read of turn `i` is no error, what was delivered before it is written, and it is less than
announced, or nothing. -/
def Waits (env : Env) (c : Ctx) (w i : Nat) : Prop :=
  readFirmware (env.turns i).read = .success ∧
    ∃ c', written env.turns c i = some c' ∧
      (delivered env.turns i = 0 ∨ w + delivered env.turns i < announced c')

/-- After a connection no read ever fails and no write either, and what is delivered stays less than
announced: a server that is at its end, and says only that. -/
def Starves (cfg : Config) (env : Env) (c : Ctx) (w : Nat) : Prop :=
  connect env.connects cfg.reconnectTimes 0 = .success ∧ env.mem = true ∧ ∀ i, Waits env c w i

end WmIot.Ota
