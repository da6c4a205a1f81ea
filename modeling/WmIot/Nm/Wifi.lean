import WmIot.Lib.Transition

/-!
# The WiFi part of the net manager

The task that handles the messages, the event task that delivers the driver's events, the reconnect timer
and the requests of users. The driver itself is not here: its calls succeed or fail, and it emits an event
some time after a call that may cause it. A C string is the list of its characters before the zero.
-/

namespace WmIot.Nm
open Transition
set_option autoImplicit false

/-- Those of `wm_nm_state_e` that are stored in `s_nm_wifi` -/
inductive State where
  | init
  | staConnecting
  | staConnected
  | staDisconnected
  | apReady
  | exit
deriving DecidableEq, Repr

/-- `wm_nm_msg_t` -/
inductive Msg where
  | staStart (ssid pwd : List UInt8)
  | staDisconnect
  | apStart (ssid pwd : List UInt8)
  | apStop
  | rfChannelChange (channel : UInt8)
deriving DecidableEq, Repr

inductive Auth where
  | open
  | wpa2Psk
deriving DecidableEq, Repr

/-- `wm_wifi_config_t` for the station -/
structure StaConfig where
  ssid : List UInt8
  password : List UInt8
  listenInterval : Nat
  pmfCapable : Bool
deriving DecidableEq, Repr

/-- `wm_wifi_config_t` for the soft AP -/
structure ApConfig where
  ssid : List UInt8
  ssidLen : Nat
  password : List UInt8
  authmode : Auth
  channel : UInt8
  maxConnection : Nat
deriving DecidableEq, Repr

/-- The configuration of the build. -/
structure Config where
  /-- `CONFIG_NM_WIFI_STA_AUTO_CONNECT` -/
  autoConnect : Bool
  /-- `CONFIG_NM_WIFI_SOFTAP_AUTO_CHANNEL` -/
  autoChannel : Bool
  /-- `CONFIG_NM_WIFI_SOFTAP_CHANNEL` -/
  channel : UInt8
  /-- `CONFIG_NM_WIFI_SOFTAP_MAX_STA_CONN` -/
  maxStaConn : Nat
deriving DecidableEq, Repr

inductive WifiEvent where
  | staConnected (channel : UInt8)
  | staDisconnected
  | apStart
  | apStop
deriving DecidableEq, Repr

/-- The calls of the driver. -/
inductive Driver where
  | init
  | setStaConfig
  | connect
  | disconnect
  | setApConfig
  | apStart
  | apStop
deriving DecidableEq, Repr

/-- What happened: messages taken, driver calls and their success, events delivered, stops handled. -/
inductive Entry where
  | taken (m : Msg)
  | called (d : Driver) (ok : Bool)
  | delivered (ev : WifiEvent)
  | staStopped
  | apStopped
deriving DecidableEq, Repr

/-- Where `wm_nm_wifi_task` is. -/
inductive Task where
  | receive
  | staInit
  | staSetConfig
  | staConnect
  | staConnecting
  | staTimer
  | staLog
  | staRetry
  | staDisconnect
  | staForget
  | staExit
  | apInit
  | apSetConfig
  | apStart
  | apStop
  | apExit
  | apForget
deriving DecidableEq, Repr

structure World where
  staConfig : Option StaConfig
  staState : State
  apConfig : Option ApConfig
  apState : State
  channel : UInt8
  queue : List Msg
  /-- the reconnect timer runs -/
  armed : Bool
  task : Task
  /-- emitted, not delivered -/
  events : List WifiEvent
  /-- the task followed a null pointer -/
  fault : Bool
  /-- newest first -/
  log : List Entry
deriving DecidableEq, Repr

def fresh : World where
  staConfig := none
  staState := .init
  apConfig := none
  apState := .init
  channel := 0
  queue := []
  armed := false
  task := .receive
  events := []
  fault := false
  log := []

/-- `wm_nm_core_send_msg` -/
def sendMsg (m : Msg) (sent : Bool) (s : World) : World :=
  if sent ∧ s.queue.length < 10 then { s with queue := s.queue ++ [m] } else s

section Functions
variable (cfg : Config)

/-- `wm_nm_wifi_station_reconnect_start` -/
def reconnectStart (s : World) : World :=
  if cfg.autoConnect then
    match s.staConfig with
    | some c => if c.ssid ≠ [] then { s with armed := true } else s
    | none => s
  else s

/-- `wm_nm_wifi_station_reconnect_stop` -/
def reconnectStop (s : World) : World := if cfg.autoConnect then { s with armed := false } else s

/-- `WM_NM_STA_START_CONNECT` up to the first driver call -/
def takeStaStart (ssid pwd : List UInt8) (ok : Bool) (s : World) : World :=
  if ssid ≠ [] then
    match s.staConfig with
    | none =>
      if ok then
        { s with staConfig := some ⟨ssid.take 32, pwd.take 64, 3, true⟩, task := .staInit }
      else s
    | some c =>
      { s with staConfig := some { c with ssid := ssid.take 32, password := pwd.take 64 }, task := .staInit }
  else
    match s.staConfig with
    | none => s
    | some c => if c.ssid = [] then s else { s with task := .staInit }

/-- What both ways through `WM_NM_AP_START` set in the configuration. -/
def apChannel (s : World) (c : ApConfig) : ApConfig :=
  let channel := if cfg.autoChannel then s.channel else cfg.channel
  { c with
    channel := if channel < 1 ∨ 13 < channel then 1 else channel
    maxConnection := cfg.maxStaConn }

/-- `WM_NM_AP_START` up to the first driver call -/
def takeApStart (ssid pwd : List UInt8) (ok : Bool) (s : World) : World :=
  let set := fun c : ApConfig =>
    { c with
      ssid := ssid.take 32
      ssidLen := ssid.length
      password := pwd.take 64
      authmode := if pwd ≠ [] then .wpa2Psk else .open }
  if ssid ≠ [] then
    match s.apConfig with
    | none =>
      if ok then
        { s with apConfig := some (apChannel cfg s (set ⟨[], 0, [], .open, 0, 0⟩)), task := .apInit }
      else s
    | some c => { s with apConfig := some (apChannel cfg s (set c)), task := .apInit }
  else
    match s.apConfig with
    | none => s
    | some c =>
      if c.ssid = [] then s
      else { s with apConfig := some (apChannel cfg s c), task := .apInit }

/-- `WM_NM_RF_CHANNEL_CHANGE`, which goes on as an AP start: the message has no SSID then. -/
def takeChannelChange (channel : UInt8) (ok : Bool) (s : World) : World :=
  let s := { s with channel := channel }
  if s.apState ≠ .apReady then s
  else
    match s.apConfig with
    | none => { s with fault := true }
    | some c => if c.channel = channel then s else takeApStart cfg [] [] ok s

def take (m : Msg) (ok : Bool) (s : World) : World :=
  match m with
  | .staStart ssid pwd => takeStaStart ssid pwd ok s
  | .staDisconnect => { s with task := .staDisconnect }
  | .apStart ssid pwd => takeApStart cfg ssid pwd ok s
  | .apStop => { s with task := .apStop }
  | .rfChannelChange channel => takeChannelChange cfg channel ok s

def World.called (s : World) (d : Driver) (ok : Bool) (task : Task) : World :=
  { s with log := .called d ok :: s.log, task := task }

/-- The configuration is read for a message that is logged. -/
def World.readsSta (s : World) (task : Task) : World :=
  match s.staConfig with
  | none => { s with fault := true }
  | some _ => { s with task := task }

def World.readsAp (s : World) (task : Task) : World :=
  match s.apConfig with
  | none => { s with fault := true }
  | some _ => { s with task := task }

/-- One step of `wm_nm_wifi_task`; `ok` is the result of the allocation or driver call in it. -/
def taskStep (s : World) (ok : Bool) : Option World :=
  if s.fault then none
  else
    match s.task with
    | .receive =>
      match s.queue with
      | [] => none
      | m :: queue => some (take cfg m ok { s with queue := queue, log := .taken m :: s.log })
    | .staInit => some (s.called .init ok (if ok then .staSetConfig else .staRetry))
    | .staSetConfig => some (s.called .setStaConfig ok (if ok then .staConnect else .staRetry))
    | .staConnect =>
      let s := s.called .connect ok .staConnecting
      some (if ok then s else s.readsSta .staRetry)
    | .staConnecting => some { s with staState := .staConnecting, task := .staTimer }
    | .staTimer => some { reconnectStart cfg s with task := .staLog }
    | .staLog => some (s.readsSta .receive)
    | .staRetry => some { reconnectStart cfg s with task := .receive }
    | .staDisconnect => some (s.called .disconnect ok .staForget)
    | .staForget => some { s with staConfig := none, task := .staExit }
    | .staExit => some { s with staState := .exit, log := .staStopped :: s.log, task := .receive }
    | .apInit => some (s.called .init ok (if ok then .apSetConfig else .receive))
    | .apSetConfig => some (s.called .setApConfig ok (if ok then .apStart else .receive))
    | .apStart =>
      let s := s.called .apStart ok .receive
      some (if ok then s.readsAp .receive else s)
    | .apStop => some (s.called .apStop ok .apExit)
    | .apExit => some { s with apState := .exit, log := .apStopped :: s.log, task := .apForget }
    | .apForget => some { s with apConfig := none, task := .receive }

/-- `wm_wifi_event_callback` -/
def wifiEvent (sent : Bool) (ev : WifiEvent) (s : World) : World :=
  match ev with
  | .staConnected channel =>
    let s := { reconnectStop cfg s with staState := .staConnected }
    if cfg.autoChannel then sendMsg (.rfChannelChange channel) sent s else s
  | .staDisconnected => { reconnectStart cfg s with staState := .staDisconnected }
  | .apStart => { s with apState := .apReady }
  | .apStop => s

end Functions

/-- The call that an event needs before it. -/
def WifiEvent.cause : WifiEvent → Driver
  | .staConnected _ | .staDisconnected => .connect
  | .apStart | .apStop => .apStart

def Entry.isCall (d : Driver) : Entry → Bool
  | .called d' _ => decide (d' = d)
  | _ => false

inductive Event where
  /-- a user's request, whose message can be stored or not -/
  | request (m : Msg) (sent : Bool)
  /-- the reconnect timer fires -/
  | fire (sent : Bool)
  /-- the driver emits an event -/
  | emit (ev : WifiEvent)
  | deliver (sent : Bool)
  | task (ok : Bool)
deriving DecidableEq, Repr

def step (cfg : Config) (s : World) : Event → Option World
  | .request (.rfChannelChange _) _ => none
  | .request m sent => some (sendMsg m sent s)
  | .fire sent => if s.armed then some (sendMsg (.staStart [] []) sent { s with armed := false }) else none
  | .emit ev =>
    if s.log.any (Entry.isCall ev.cause) then some { s with events := s.events ++ [ev] } else none
  | .deliver sent =>
    match s.events with
    | [] => none
    | ev :: events =>
      some (wifiEvent cfg sent ev { s with events := events, log := .delivered ev :: s.log })
  | .task ok => taskStep cfg s ok

end WmIot.Nm
