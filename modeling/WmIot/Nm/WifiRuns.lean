import WmIot.Nm.Wifi

/-!
# The net manager follows the driver

A configuration is there while the task is on its way to the driver with it, and a soft AP that is ready
has one. The states are compared with what the log says: the last of the connects, the delivered events
and the handled stops.
-/

namespace WmIot.Nm
open Transition
set_option autoImplicit false

/-! ## What the log says -/

/-- A disconnect was taken, and no start with an SSID since. -/
def staHalted : List Entry → Bool
  | [] => false
  | .taken .staDisconnect :: _ => true
  | .taken (.staStart ssid _) :: log => if ssid ≠ [] then false else staHalted log
  | _ :: log => staHalted log

/-- An AP stop was taken, and no start with an SSID since. -/
def apHalted : List Entry → Bool
  | [] => false
  | .taken .apStop :: _ => true
  | .taken (.apStart ssid _) :: log => if ssid ≠ [] then false else apHalted log
  | _ :: log => apHalted log

/-- The last connect, station event or handled disconnect. -/
def staOf : List Entry → State
  | [] => .init
  | .called .connect true :: _ => .staConnecting
  | .delivered (.staConnected _) :: _ => .staConnected
  | .delivered .staDisconnected :: _ => .staDisconnected
  | .staStopped :: _ => .exit
  | _ :: log => staOf log

/-- The last AP event or handled stop is a start. -/
def apUp : List Entry → Bool
  | [] => false
  | .delivered .apStart :: _ => true
  | .delivered .apStop :: _ => false
  | .apStopped :: _ => false
  | _ :: log => apUp log

/-- No connect and no AP start was issued after a stop. -/
def NoStray (log : List Entry) : Prop :=
  ∀ ok rest, (.called .connect ok :: rest <:+ log → staHalted rest = false) ∧
    (.called .apStart ok :: rest <:+ log → apHalted rest = false)

/-- The states are what the driver's last events and the last stops make them. -/
structure World.Agrees (s : World) : Prop where
  sta : s.staState = staOf s.log
  ap : s.apState = .apReady ↔ apUp s.log = true
  config : s.apState = .apReady → s.apConfig.isSome = true

/-- Nothing is under way. -/
def World.Quiet (s : World) : Prop := s.queue = [] ∧ s.events = [] ∧ s.task = .receive

/-- A station event is not delivered between a connect and the state that belongs to it, an AP start only
to a configuration that stays, and an AP stop only where it was asked for. -/
def orderly (s : World) : Event → Prop
  | .deliver _ => ∀ ev ∈ s.events.head?, match ev with
    | .staConnected _ | .staDisconnected => s.task ≠ .staConnecting
    | .apStart => s.apConfig.isSome = true ∧ s.task ≠ .apForget
    | .apStop => s.apState ≠ .apReady ∨ s.task = .apExit
  | _ => True

/-! ## Entries -/

theorem NoStray.cons {log : List Entry} (h : NoStray log) {entry : Entry}
    (hsta : ∀ ok, entry = .called .connect ok → staHalted log = false)
    (hap : ∀ ok, entry = .called .apStart ok → apHalted log = false) : NoStray (entry :: log) := by
  intro ok rest
  constructor
  · intro hsuffix
    rcases List.suffix_cons_iff.mp hsuffix with heq | hold
    · injection heq with hentry hrest
      rw [hrest]
      exact hsta ok hentry.symm
    · exact (h ok rest).1 hold
  · intro hsuffix
    rcases List.suffix_cons_iff.mp hsuffix with heq | hold
    · injection heq with hentry hrest
      rw [hrest]
      exact hap ok hentry.symm
    · exact (h ok rest).2 hold

/-- An entry that is no connect and no AP start cannot be a stray one. -/
theorem NoStray.other {log : List Entry} (h : NoStray log) {entry : Entry}
    (hentry : ∀ d ok, entry = .called d ok → d ≠ .connect ∧ d ≠ .apStart) : NoStray (entry :: log) :=
  h.cons (fun ok heq => absurd rfl (hentry _ ok heq).1) (fun ok heq => absurd rfl (hentry _ ok heq).2)

/-! ## Invariant -/

/-- The task has a station configuration at hand. -/
def Task.usesSta : Task → Bool
  | .staInit | .staSetConfig | .staConnect | .staConnecting | .staTimer | .staLog | .staRetry => true
  | _ => false

/-- The task has a soft AP configuration at hand. -/
def Task.usesAp : Task → Bool
  | .apInit | .apSetConfig | .apStart => true
  | _ => false

/-- The task stops the station. -/
def Task.stopsSta : Task → Bool
  | .staDisconnect | .staForget => true
  | _ => false

def Task.stopsAp : Task → Bool
  | .apStop | .apExit | .apForget => true
  | _ => false

structure StaInv (task : Task) (c : Option StaConfig) (st : State) (log : List Entry) : Prop where
  config : task.usesSta = true → c.isSome = true
  halted : staHalted log = true → task.usesSta = false ∧ (c = none ∨ task.stopsSta = true)
  state : task ≠ .staConnecting → st = staOf log
  connecting : task = .staConnecting → staOf log = .staConnecting

structure ApInv (task : Task) (c : Option ApConfig) (st : State) (log : List Entry) : Prop where
  config : task.usesAp = true → c.isSome = true
  halted : apHalted log = true → task.usesAp = false ∧ (c = none ∨ task.stopsAp = true)
  state : task ≠ .apExit → (st = .apReady ↔ apUp log = true)
  ready : st = .apReady → c.isSome = true ∧ task ≠ .apForget

structure Inv (s : World) : Prop where
  fault : s.fault = false
  sta : StaInv s.task s.staConfig s.staState s.log
  ap : ApInv s.task s.apConfig s.apState s.log
  stray : NoStray s.log

section Frames
variable {task task' : Task} {log log' : List Entry}

/-- Steps that have nothing to do with the station. -/
theorem StaInv.frame {config : Option StaConfig} {state : State} (h : StaInv task config state log)
    (htask : task.usesSta = false ∧ task.stopsSta = false) (htask' : task'.usesSta = false)
    (hhalted : staHalted log' = staHalted log) (hof : staOf log' = staOf log) :
    StaInv task' config state log' := by
  have hstate : state = staOf log := h.state (fun heq => Bool.noConfusion (heq ▸ htask.1))
  refine ⟨fun huse => Bool.noConfusion (htask'.symm.trans huse), fun hhalt => ?_, fun _ => by rw [hof, hstate],
    fun heq => Bool.noConfusion (heq ▸ htask')⟩
  rw [hhalted] at hhalt
  refine ⟨htask', .inl ?_⟩
  rcases (h.halted hhalt).2 with hnone | hstops
  · exact hnone
  · exact Bool.noConfusion (htask.2.symm.trans hstops)

/-- Steps that have nothing to do with the soft AP. -/
theorem ApInv.frame {config : Option ApConfig} {state : State} (h : ApInv task config state log)
    (htask : task.usesAp = false ∧ task.stopsAp = false)
    (htask' : task'.usesAp = false ∧ task' ≠ .apForget)
    (hhalted : apHalted log' = apHalted log) (hup : apUp log' = apUp log) :
    ApInv task' config state log' := by
  have hstate : state = .apReady ↔ apUp log = true := h.state (fun heq => Bool.noConfusion (heq ▸ htask.2))
  refine ⟨fun huse => Bool.noConfusion (htask'.1.symm.trans huse), fun hhalt => ?_,
    fun _ => by rw [hup, hstate], fun hready => ⟨(h.ready hready).1, htask'.2⟩⟩
  rw [hhalted] at hhalt
  refine ⟨htask'.1, .inl ?_⟩
  rcases (h.halted hhalt).2 with hnone | hstops
  · exact hnone
  · exact Bool.noConfusion (htask.2.symm.trans hstops)

end Frames

/-- The queue, the timer and the events play no part. -/
theorem Inv.rest {s : World} (h : Inv s) (queue : List Msg) (armed : Bool) (events : List WifiEvent) :
    Inv { s with queue := queue, armed := armed, events := events } :=
  ⟨h.fault, h.sta, h.ap, h.stray⟩

theorem sendMsg_eq (m : Msg) (sent : Bool) (s : World) : ∃ queue, sendMsg m sent s = { s with queue := queue } := by
  unfold sendMsg
  split
  · exact ⟨_, rfl⟩
  · exact ⟨s.queue, rfl⟩

theorem reconnectStart_eq (cfg : Config) (s : World) :
    ∃ armed, reconnectStart cfg s = { s with armed := armed } := by
  unfold reconnectStart
  split
  · split
    · split
      · exact ⟨true, rfl⟩
      · exact ⟨s.armed, rfl⟩
    · exact ⟨s.armed, rfl⟩
  · exact ⟨s.armed, rfl⟩

theorem reconnectStop_eq (cfg : Config) (s : World) :
    ∃ armed, reconnectStop cfg s = { s with armed := armed } := by
  unfold reconnectStop
  split
  · exact ⟨false, rfl⟩
  · exact ⟨s.armed, rfl⟩

theorem Inv.sendMsg {s : World} (h : Inv s) (m : Msg) (sent : Bool) : Inv (sendMsg m sent s) := by
  obtain ⟨queue, hsend⟩ := sendMsg_eq m sent s
  rw [hsend]
  exact h.rest queue s.armed s.events

/-! ## Messages -/

theorem staHalted_taken {m : Msg} {log : List Entry} (hm : m ≠ .staDisconnect)
    (h : staHalted (.taken m :: log) = true) : staHalted log = true := by
  cases m with
  | staDisconnect => exact absurd rfl hm
  | staStart ssid pwd =>
    rw [staHalted] at h
    split at h
    · cases h
    · exact h
  | _ => exact h

theorem apHalted_taken {m : Msg} {log : List Entry} (hm : m ≠ .apStop)
    (h : apHalted (.taken m :: log) = true) : apHalted log = true := by
  cases m with
  | apStop => exact absurd rfl hm
  | apStart ssid pwd =>
    rw [apHalted] at h
    split at h
    · cases h
    · exact h
  | _ => exact h

/-- The task has no message. -/
structure Idle (s : World) : Prop extends Inv s where
  task : s.task = .receive

section Messages
variable {s : World}

theorem Idle.taken (h : Idle s) {m : Msg} (hsta : m ≠ .staDisconnect) (hap : m ≠ .apStop) (queue : List Msg) :
    Idle { s with queue := queue, log := .taken m :: s.log } := by
  refine ⟨⟨h.fault, ⟨h.sta.config, fun hhalt => h.sta.halted (staHalted_taken hsta hhalt), h.sta.state,
    h.sta.connecting⟩, ⟨h.ap.config, fun hhalt => h.ap.halted (apHalted_taken hap hhalt), h.ap.state,
    h.ap.ready⟩, h.stray.other (fun _ _ heq => nomatch heq)⟩, h.task⟩

theorem Idle.takeStaStart (h : Idle s) {ssid : List UInt8} (hnew : ssid ≠ [] → staHalted s.log = false)
    (pwd : List UInt8) (ok : Bool) : Inv (takeStaStart ssid pwd ok s) := by
  have hsta := h.sta
  have hap := h.ap
  rw [h.task] at hsta hap
  have hframe : ApInv .staInit s.apConfig s.apState s.log := hap.frame ⟨rfl, rfl⟩ ⟨rfl, nofun⟩ rfl rfl
  have hstate : s.staState = staOf s.log := hsta.state nofun
  unfold Nm.takeStaStart
  split
  next hssid =>
    have hon : ¬ staHalted s.log = true := by
      rw [hnew hssid]
      exact Bool.false_ne_true
    split
    next =>
      split
      · exact ⟨h.fault, ⟨fun _ => rfl, fun hhalt => absurd hhalt hon, fun _ => hstate, nofun⟩, hframe, h.stray⟩
      · exact h.toInv
    next =>
      exact ⟨h.fault, ⟨fun _ => rfl, fun hhalt => absurd hhalt hon, fun _ => hstate, nofun⟩, hframe, h.stray⟩
  next =>
    split
    next => exact h.toInv
    next c hc =>
      split
      · exact h.toInv
      · refine ⟨h.fault, ⟨fun _ => by rw [hc]; rfl, fun hhalt => ?_, fun _ => hstate, nofun⟩, hframe, h.stray⟩
        rcases (hsta.halted hhalt).2 with hnone | hstops
        · cases hc.symm.trans hnone
        · cases hstops

theorem Idle.takeApStart (h : Idle s) (cfg : Config) {ssid : List UInt8}
    (hnew : ssid ≠ [] → apHalted s.log = false) (pwd : List UInt8) (ok : Bool) :
    Inv (takeApStart cfg ssid pwd ok s) := by
  have hsta := h.sta
  have hap := h.ap
  rw [h.task] at hsta hap
  have hframe : StaInv .apInit s.staConfig s.staState s.log := hsta.frame ⟨rfl, rfl⟩ rfl rfl rfl
  have hstate : s.apState = .apReady ↔ apUp s.log = true := hap.state nofun
  unfold Nm.takeApStart
  dsimp only
  split
  next hssid =>
    have hon : ¬ apHalted s.log = true := by
      rw [hnew hssid]
      exact Bool.false_ne_true
    split
    next =>
      split
      · exact ⟨h.fault, hframe,
          ⟨fun _ => rfl, fun hhalt => absurd hhalt hon, fun _ => hstate, fun _ => ⟨rfl, nofun⟩⟩, h.stray⟩
      · exact h.toInv
    next =>
      exact ⟨h.fault, hframe,
        ⟨fun _ => rfl, fun hhalt => absurd hhalt hon, fun _ => hstate, fun _ => ⟨rfl, nofun⟩⟩, h.stray⟩
  next =>
    split
    next => exact h.toInv
    next c hc =>
      split
      · exact h.toInv
      · refine ⟨h.fault, hframe,
          ⟨fun _ => rfl, fun hhalt => ?_, fun _ => hstate, fun _ => ⟨rfl, nofun⟩⟩, h.stray⟩
        rcases (hap.halted hhalt).2 with hnone | hstops
        · cases hc.symm.trans hnone
        · cases hstops

/-- A channel change finds the configuration of a soft AP that is ready. -/
theorem Idle.takeChannelChange (h : Idle s) (cfg : Config) (channel : UInt8) (ok : Bool) :
    Inv (takeChannelChange cfg channel ok s) := by
  have hchannel : Idle { s with channel := channel } := ⟨⟨h.fault, h.sta, h.ap, h.stray⟩, h.task⟩
  unfold Nm.takeChannelChange
  dsimp only
  split
  next => exact hchannel.toInv
  next hready =>
    rw [Decidable.not_not] at hready
    split
    next hnone =>
      have hsome := (h.ap.ready hready).1
      rw [hnone] at hsome
      cases hsome
    next =>
      split
      · exact hchannel.toInv
      · exact hchannel.takeApStart cfg (fun hne => absurd rfl hne) [] ok

theorem Idle.take (h : Idle s) (cfg : Config) (m : Msg) (queue : List Msg) (ok : Bool) :
    Inv (take cfg m ok { s with queue := queue, log := .taken m :: s.log }) := by
  have hsta := h.sta
  have hap := h.ap
  rw [h.task] at hsta hap
  cases m with
  | staStart ssid pwd =>
    refine (h.taken (m := .staStart ssid pwd) nofun nofun queue).takeStaStart (fun hne => ?_) pwd ok
    dsimp only
    rw [staHalted, if_pos hne]
  | apStart ssid pwd =>
    refine (h.taken (m := .apStart ssid pwd) nofun nofun queue).takeApStart cfg (fun hne => ?_) pwd ok
    dsimp only
    rw [apHalted, if_pos hne]
  | rfChannelChange channel =>
    exact (h.taken (m := .rfChannelChange channel) nofun nofun queue).takeChannelChange cfg channel ok
  | staDisconnect =>
    refine ⟨h.fault, ⟨nofun, fun _ => ⟨rfl, .inr rfl⟩, fun _ => hsta.state nofun, nofun⟩,
      hap.frame ⟨rfl, rfl⟩ ⟨rfl, nofun⟩ rfl rfl, h.stray.other (fun _ _ heq => nomatch heq)⟩
  | apStop =>
    refine ⟨h.fault, hsta.frame ⟨rfl, rfl⟩ rfl rfl rfl, ⟨nofun, fun _ => ⟨rfl, .inr rfl⟩,
      fun _ => hap.state nofun, fun hready => ⟨(hap.ready hready).1, nofun⟩⟩,
      h.stray.other (fun _ _ heq => nomatch heq)⟩

end Messages

/-! ## Steps of the task -/

section Steps
variable {s t : World}

/-- A driver call of the station's, or one that both have. -/
theorem Inv.readsSta (h : Inv s) (huse : s.task.usesSta = true) {task : Task}
    (htask : StaInv task s.staConfig s.staState s.log) (hap : ApInv task s.apConfig s.apState s.log) :
    Inv (s.readsSta task) := by
  unfold World.readsSta
  split
  next hnone =>
    have hsome := h.sta.config huse
    rw [hnone] at hsome
    cases hsome
  next => exact ⟨h.fault, htask, hap, h.stray⟩

/-- Where the task goes on with the station, and nothing of the invariant's was touched. -/
theorem StaInv.goOn {task task' : Task} {config : Option StaConfig} {state : State} {log log' : List Entry}
    (h : StaInv task config state log) (huse : task.usesSta = true) (hne : task ≠ .staConnecting)
    (hne' : task' ≠ .staConnecting) (hhalted : staHalted log' = staHalted log) (hof : staOf log' = staOf log) :
    StaInv task' config state log' := by
  refine ⟨fun _ => h.config huse, fun hhalt => ?_, fun _ => by rw [hof]; exact h.state hne,
    fun heq => absurd heq hne'⟩
  rw [hhalted] at hhalt
  exact Bool.noConfusion (huse.symm.trans (h.halted hhalt).1)

theorem ApInv.goOn {task task' : Task} {config : Option ApConfig} {state : State} {log log' : List Entry}
    (h : ApInv task config state log) (huse : task.usesAp = true) (hne : task ≠ .apExit)
    (hne' : task' ≠ .apForget) (hhalted : apHalted log' = apHalted log) (hup : apUp log' = apUp log) :
    ApInv task' config state log' := by
  refine ⟨fun _ => h.config huse, fun hhalt => ?_, fun _ => by rw [hup]; exact h.state hne,
    fun hready => ⟨(h.ready hready).1, hne'⟩⟩
  rw [hhalted] at hhalt
  exact Bool.noConfusion (huse.symm.trans (h.halted hhalt).1)

theorem Inv.task (h : Inv s) (cfg : Config) {ok : Bool} (hs : taskStep cfg s ok = some t) : Inv t := by
  have hsta := h.sta
  have hap := h.ap
  unfold taskStep at hs
  rw [if_neg (by rw [h.fault]; exact Bool.false_ne_true)] at hs
  split at hs
  case h_1 htask =>
    split at hs
    · cases hs
    next m queue hqueue =>
      cases hs
      exact Idle.take ⟨h, htask⟩ cfg m queue ok
  case h_2 htask =>
    cases hs
    rw [htask] at hsta hap
    refine ⟨h.fault, ?_, ?_, h.stray.other (fun _ _ heq => by cases heq; exact ⟨nofun, nofun⟩)⟩
    · exact hsta.goOn rfl nofun (by split <;> nofun) rfl rfl
    · exact hap.frame ⟨rfl, rfl⟩ (by split <;> exact ⟨rfl, nofun⟩) rfl rfl
  case h_3 htask =>
    cases hs
    rw [htask] at hsta hap
    refine ⟨h.fault, ?_, ?_, h.stray.other (fun _ _ heq => by cases heq; exact ⟨nofun, nofun⟩)⟩
    · exact hsta.goOn rfl nofun (by split <;> nofun) rfl rfl
    · exact hap.frame ⟨rfl, rfl⟩ (by split <;> exact ⟨rfl, nofun⟩) rfl rfl
  case h_4 htask =>
    rw [htask] at hsta hap
    have hon : staHalted s.log = false := by
      rcases hhalt : staHalted s.log with _ | _
      · rfl
      · cases (hsta.halted hhalt).1
    have hstray : NoStray (.called .connect ok :: s.log) :=
      h.stray.cons (fun _ _ => hon) (fun _ heq => nomatch heq)
    have hframe : ∀ task : Task, task.usesAp = false ∧ task ≠ .apForget →
        ApInv task s.apConfig s.apState (.called .connect ok :: s.log) :=
      fun task htask => hap.frame ⟨rfl, rfl⟩ htask rfl rfl
    cases hs
    cases ok with
    | true =>
      refine ⟨h.fault, ⟨fun _ => hsta.config rfl, fun hhalt => ?_, fun hne => absurd rfl hne, fun _ => rfl⟩,
        hframe .staConnecting ⟨rfl, nofun⟩, hstray⟩
      exact absurd hhalt (hon ▸ Bool.false_ne_true)
    | false =>
      have hcalled : Inv (s.called .connect false .staRetry) :=
        ⟨h.fault, hsta.goOn rfl nofun nofun rfl rfl, hframe .staRetry ⟨rfl, nofun⟩, hstray⟩
      rw [if_neg Bool.false_ne_true]
      unfold World.readsSta
      split
      next hnone =>
        have hsome := hsta.config rfl
        dsimp only [World.called] at hnone
        rw [hnone] at hsome
        cases hsome
      next => exact hcalled
  case h_5 htask =>
    cases hs
    rw [htask] at hsta hap
    refine ⟨h.fault, ⟨fun _ => hsta.config rfl, fun hhalt => ?_, fun _ => (hsta.connecting rfl).symm, nofun⟩,
      hap.frame ⟨rfl, rfl⟩ ⟨rfl, nofun⟩ rfl rfl, h.stray⟩
    cases (hsta.halted hhalt).1
  case h_6 htask =>
    obtain ⟨armed, harmed⟩ := reconnectStart_eq cfg s
    rw [harmed] at hs
    cases hs
    rw [htask] at hsta hap
    exact ⟨h.fault, hsta.goOn rfl nofun nofun rfl rfl, hap.frame ⟨rfl, rfl⟩ ⟨rfl, nofun⟩ rfl rfl, h.stray⟩
  case h_7 htask =>
    cases hs
    rw [htask] at hsta hap
    exact h.readsSta (by rw [htask]; rfl) (hsta.goOn rfl nofun nofun rfl rfl)
      (hap.frame ⟨rfl, rfl⟩ ⟨rfl, nofun⟩ rfl rfl)
  case h_8 htask =>
    obtain ⟨armed, harmed⟩ := reconnectStart_eq cfg s
    rw [harmed] at hs
    cases hs
    rw [htask] at hsta hap
    exact ⟨h.fault, hsta.goOn rfl nofun nofun rfl rfl, hap.frame ⟨rfl, rfl⟩ ⟨rfl, nofun⟩ rfl rfl, h.stray⟩
  case h_9 htask =>
    cases hs
    rw [htask] at hsta hap
    exact ⟨h.fault, ⟨nofun, fun hhalt => ⟨rfl, .inr rfl⟩, fun _ => hsta.state nofun, nofun⟩,
      hap.frame ⟨rfl, rfl⟩ ⟨rfl, nofun⟩ rfl rfl,
      h.stray.other (fun _ _ heq => by cases heq; exact ⟨nofun, nofun⟩)⟩
  case h_10 htask =>
    cases hs
    rw [htask] at hsta hap
    exact ⟨h.fault, ⟨nofun, fun _ => ⟨rfl, .inl rfl⟩, fun _ => hsta.state nofun, nofun⟩,
      hap.frame ⟨rfl, rfl⟩ ⟨rfl, nofun⟩ rfl rfl, h.stray⟩
  case h_11 htask =>
    cases hs
    rw [htask] at hsta hap
    refine ⟨h.fault, ⟨nofun, fun hhalt => ⟨rfl, .inl ?_⟩, fun _ => rfl, nofun⟩,
      hap.frame ⟨rfl, rfl⟩ ⟨rfl, nofun⟩ rfl rfl, h.stray.other (fun _ _ heq => nomatch heq)⟩
    rcases (hsta.halted hhalt).2 with hnone | hstops
    · exact hnone
    · cases hstops
  case h_12 htask =>
    cases hs
    rw [htask] at hsta hap
    refine ⟨h.fault, ?_, ?_, h.stray.other (fun _ _ heq => by cases heq; exact ⟨nofun, nofun⟩)⟩
    · exact hsta.frame ⟨rfl, rfl⟩ (by split <;> rfl) rfl rfl
    · exact hap.goOn rfl nofun (by split <;> nofun) rfl rfl
  case h_13 htask =>
    cases hs
    rw [htask] at hsta hap
    refine ⟨h.fault, ?_, ?_, h.stray.other (fun _ _ heq => by cases heq; exact ⟨nofun, nofun⟩)⟩
    · exact hsta.frame ⟨rfl, rfl⟩ (by split <;> rfl) rfl rfl
    · exact hap.goOn rfl nofun (by split <;> nofun) rfl rfl
  case h_14 htask =>
    rw [htask] at hsta hap
    have hon : apHalted s.log = false := by
      rcases hhalt : apHalted s.log with _ | _
      · rfl
      · cases (hap.halted hhalt).1
    have hnext : Inv (s.called .apStart ok .receive) :=
      ⟨h.fault, hsta.frame ⟨rfl, rfl⟩ rfl rfl rfl, hap.goOn rfl nofun nofun rfl rfl,
        h.stray.cons (fun _ heq => nomatch heq) (fun _ _ => hon)⟩
    cases hs
    split
    · unfold World.readsAp
      split
      next hnone =>
        have hsome := hap.config rfl
        dsimp only [World.called] at hnone
        rw [hnone] at hsome
        cases hsome
      next => exact hnext
    · exact hnext
  case h_15 htask =>
    cases hs
    rw [htask] at hsta hap
    exact ⟨h.fault, hsta.frame ⟨rfl, rfl⟩ rfl rfl rfl,
      ⟨nofun, fun _ => ⟨rfl, .inr rfl⟩, fun hne => absurd rfl hne, fun hready => ⟨(hap.ready hready).1, nofun⟩⟩,
      h.stray.other (fun _ _ heq => by cases heq; exact ⟨nofun, nofun⟩)⟩
  case h_16 htask =>
    cases hs
    rw [htask] at hsta hap
    exact ⟨h.fault, hsta.frame ⟨rfl, rfl⟩ rfl rfl rfl,
      ⟨nofun, fun _ => ⟨rfl, .inr rfl⟩, fun _ => ⟨nofun, nofun⟩, nofun⟩,
      h.stray.other (fun _ _ heq => nomatch heq)⟩
  case h_17 htask =>
    cases hs
    rw [htask] at hsta hap
    exact ⟨h.fault, hsta.frame ⟨rfl, rfl⟩ rfl rfl rfl,
      ⟨nofun, fun _ => ⟨rfl, .inl rfl⟩, fun _ => hap.state nofun,
        fun hready => absurd rfl (hap.ready hready).2⟩, h.stray⟩

/-- An event is delivered. -/
theorem Inv.wifiEvent (h : Inv s) (cfg : Config) {ev : WifiEvent} {events : List WifiEvent} {sent : Bool}
    (hevents : s.events = ev :: events) (hok : orderly s (.deliver sent)) :
    Inv (wifiEvent cfg sent ev { s with events := events, log := .delivered ev :: s.log }) := by
  have hev := hok ev (by rw [hevents]; rfl)
  cases ev with
  | staConnected channel =>
    have hconnected : ∀ armed, Inv { s with
        staState := .staConnected, armed := armed, events := events
        log := .delivered (.staConnected channel) :: s.log } := fun armed =>
      ⟨h.fault, ⟨h.sta.config, h.sta.halted, fun _ => rfl, fun heq => absurd heq hev⟩,
        ⟨h.ap.config, h.ap.halted, h.ap.state, h.ap.ready⟩, h.stray.other (fun _ _ heq => nomatch heq)⟩
    unfold Nm.wifiEvent
    obtain ⟨armed, harmed⟩ := reconnectStop_eq cfg
      { s with events := events, log := .delivered (.staConnected channel) :: s.log }
    rw [harmed]
    dsimp only
    split
    · exact (hconnected armed).sendMsg _ sent
    · exact hconnected armed
  | staDisconnected =>
    unfold Nm.wifiEvent
    obtain ⟨armed, harmed⟩ := reconnectStart_eq cfg
      { s with events := events, log := .delivered .staDisconnected :: s.log }
    rw [harmed]
    exact ⟨h.fault, ⟨h.sta.config, h.sta.halted, fun _ => rfl, fun heq => absurd heq hev⟩,
      ⟨h.ap.config, h.ap.halted, h.ap.state, h.ap.ready⟩, h.stray.other (fun _ _ heq => nomatch heq)⟩
  | apStart =>
    exact ⟨h.fault, ⟨h.sta.config, h.sta.halted, h.sta.state, h.sta.connecting⟩,
      ⟨h.ap.config, h.ap.halted, fun _ => ⟨fun _ => rfl, fun _ => rfl⟩, fun _ => hev⟩,
      h.stray.other (fun _ _ heq => nomatch heq)⟩
  | apStop =>
    refine ⟨h.fault, ⟨h.sta.config, h.sta.halted, h.sta.state, h.sta.connecting⟩,
      ⟨h.ap.config, h.ap.halted, fun hne => ⟨fun hready => ?_, nofun⟩, h.ap.ready⟩,
      h.stray.other (fun _ _ heq => nomatch heq)⟩
    rcases hev with hdown | hexit
    · exact absurd hready hdown
    · exact absurd hexit hne

theorem Inv.step (h : Inv s) (cfg : Config) {ev : Event} (hok : orderly s ev) (hs : step cfg s ev = some t) :
    Inv t := by
  cases ev with
  | request m sent =>
    cases m with
    | rfChannelChange => cases hs
    | _ =>
      cases hs
      exact h.sendMsg _ sent
  | fire sent =>
    dsimp only [Nm.step] at hs
    split at hs
    · cases hs
      exact (h.rest s.queue false s.events).sendMsg _ sent
    · cases hs
  | emit ev =>
    dsimp only [Nm.step] at hs
    split at hs
    · cases hs
      exact h.rest s.queue s.armed (s.events ++ [ev])
    · cases hs
  | deliver sent =>
    dsimp only [Nm.step] at hs
    split at hs
    · cases hs
    next ev events hevents =>
      cases hs
      exact h.wifiEvent cfg hevents hok
  | task ok => exact h.task cfg hs

end Steps

/-! ## Main results -/

theorem Inv.fresh : Inv fresh :=
  ⟨rfl, ⟨nofun, nofun, fun _ => rfl, nofun⟩, ⟨nofun, nofun, fun _ => ⟨nofun, nofun⟩, nofun⟩,
    fun _ _ => ⟨fun h => absurd (List.suffix_nil.mp h) (List.cons_ne_nil _ _),
      fun h => absurd (List.suffix_nil.mp h) (List.cons_ne_nil _ _)⟩⟩

/-- What the net manager guarantees in every state of a run. -/
structure World.Sound (s : World) : Prop where
  /-- the task followed no null pointer -/
  fault : s.fault = false
  stray : NoStray s.log
  agrees : s.Quiet → s.Agrees

instance decidableOrderly (s : World) : (ev : Event) → Decidable (orderly s ev)
  | .request _ _ | .fire _ | .emit _ | .task _ => .isTrue trivial
  | .deliver _ => match h : s.events.head? with
    | none => .isTrue (fun ev hev => by rw [h] at hev; cases hev)
    | some (.staConnected _) | some .staDisconnected =>
      decidable_of_iff (s.task ≠ .staConnecting) (by simp [orderly, h])
    | some .apStart =>
      decidable_of_iff (s.apConfig.isSome = true ∧ s.task ≠ .apForget) (by simp [orderly, h])
    | some .apStop =>
      decidable_of_iff (s.apState ≠ .apReady ∨ s.task = .apExit) (by simp [orderly, h])

/-- The default build. -/
def defaults : Config := ⟨true, true, 1, 8⟩

/-- The station connects, the soft AP starts and is stopped again. -/
def stationAndAp : List Event :=
  [.request (.staStart [0x61] []) true, .task true, .task true, .task true, .task true, .task true,
   .task true, .task true, .emit (.staConnected 6), .deliver true,
   .request (.apStart [0x62] []) true, .task true, .task true, .task true, .task true, .task true,
   .emit .apStart, .deliver true,
   .request .apStop true, .task true, .task true, .emit .apStop, .deliver true, .task true, .task true]

/-- The event of a soft AP that was stopped before it is delivered; then the station connects. -/
def lateApStart : List Event :=
  [.request (.apStart [0x62] []) true, .task true, .task true, .task true, .task true, .emit .apStart,
   .request .apStop true, .task true, .task true, .task true, .task true, .deliver true,
   .request (.staStart [0x61] []) true, .task true, .task true, .task true, .task true, .task true,
   .task true, .task true, .emit (.staConnected 6), .deliver true, .task true]

/-- The event of a connect is delivered before the task has written that it connects. -/
def earlyConnected : List Event :=
  [.request (.staStart [0x61] []) true, .task true, .task true, .task true, .task true,
   .emit (.staConnected 6), .deliver true, .task true, .task true, .task true, .task true]

end WmIot.Nm
