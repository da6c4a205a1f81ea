import WmIot.Lib.Transition

/-!
# The event task

Calls come from any number of tasks, and one at a time from the callback that runs. Every access to
the status, the queue pointer and the queue is a step of its own. A use of a deleted queue, of `NULL`
as a queue or a semaphore, and a second event task on the one list are faults, which the model does
not follow further.
-/

namespace WmIot.Event
open Transition
set_option autoImplicit false

/-- A registration, `struct wm_cb_item_t`; the group 0 is `NULL`. -/
structure CbItem where
  callback : Nat
  group : Nat
  ev : Int
  priv : Nat
deriving DecidableEq, Repr

/-- An event with the copy of its data. -/
structure Ev where
  group : Nat
  ev : Int
  data : List UInt8
deriving DecidableEq, Repr

def anyGroup : Nat := 0
def anyType : Int := -1

/-- Where a call comes from. -/
inductive Caller where
  | task (j : Nat)
  /-- the callback that runs -/
  | callback
deriving DecidableEq, Repr

/-- `struct wm_ev_header_t`; `MSG_EXIT` carries the semaphore of the call that sent it. -/
inductive Msg where
  | add (r : CbItem)
  | remove (r : CbItem)
  | exit (sem : Option Caller)
  | event (e : Ev)
deriving DecidableEq, Repr

/-- Where a call is. -/
inductive Call where
  | idle
  /-- before the look at `g_ev_queue` -/
  | check (m : Msg)
  /-- before `wm_os_internal_queue_send` -/
  | send (m : Msg)
  | initStatus
  | initQueue
  | initList
  | initTask
  /-- the task could not be created -/
  | initDelete
  | initReset
  | deinitSem
  | deinitCheck (sem : Option Caller)
  | deinitSend (sem : Option Caller)
  | deinitWait (sem : Option Caller)
  | deinitReset (success : Bool)
deriving DecidableEq, Repr

/-- Where `wm_event_task` is. -/
inductive TaskPc where
  | none
  | loop
  | receive (queue : Nat)
  /-- in `dl_list_for_each_safe`, with the entries that match and have not been called -/
  | calling (e : Ev) (rest : List CbItem)
  | running (e : Ev) (rest : List CbItem)
  | clear (sem : Option Caller)
  | drain (queue : Option Nat) (sem : Option Caller)
  | delete (queue : Option Nat) (sem : Option Caller)
  | release (sem : Option Caller)
deriving DecidableEq, Repr

structure World where
  /-- `g_ev_status == WM_EV_ST_INITED` -/
  status : Bool
  evQueue : Option Nat
  /-- what is in a queue, `none` where it is not there -/
  queues : Nat → Option (List Msg)
  nextQueue : Nat
  evList : List CbItem
  task : TaskPc
  calls : Caller → Call
  sems : Caller → Bool
  fault : Bool
  /-- the messages whose calls returned success, in the order of the queue -/
  accepted : List Msg
  /-- those that `wm_event_proc` was called for -/
  processed : List Msg
  delivered : List (Ev × CbItem)
  /-- no init has succeeded since the last deinit that did -/
  down : Bool

def Init (s : World) : Prop :=
  s.status = false ∧ s.evQueue = none ∧ s.evList = [] ∧ s.task = .none ∧
    (∀ c, s.calls c = .idle) ∧ s.fault = false ∧ s.accepted = [] ∧ s.processed = [] ∧
    s.delivered = [] ∧ s.down = true

inductive Op where
  | add (r : CbItem)
  | remove (r : CbItem)
  | event (e : Ev)
  | init
  | deinit
deriving DecidableEq, Repr

inductive Event where
  /-- a call begins; `mem` is whether its message can be allocated -/
  | call (c : Caller) (op : Op) (mem : Bool)
  /-- a call goes on; `ok` is whether what it asks of the system can be had -/
  | go (c : Caller) (ok : Bool)
  | task (ok : Bool)
deriving DecidableEq, Repr

def CbItem.wants (r : CbItem) (e : Ev) : Bool :=
  (r.group = anyGroup ∨ r.group = e.group) ∧ (r.ev = anyType ∨ r.ev = e.ev)

def World.at (s : World) (c : Caller) (pc : Call) : World :=
  { s with calls := Function.update s.calls c pc }

def World.failed (s : World) : World := { s with fault := true }

/-- The first steps of the calls; a call that has an error at once is over. -/
def startCall (s : World) (c : Caller) (op : Op) (mem : Bool) : World :=
  match op with
  | .add r => if r.callback ≠ 0 ∧ mem then s.at c (.check (.add r)) else s
  | .remove r => if r.callback ≠ 0 ∧ mem then s.at c (.check (.remove r)) else s
  | .event e => if e.group ≠ 0 ∧ mem then s.at c (.check (.event e)) else s
  | .init => if s.status then s else s.at c .initStatus
  | .deinit => if s.status then s.at c .deinitSem else s

/-- `wm_os_internal_queue_send` to `g_ev_queue`, which does not wait; `yes` and `no` are where the
call goes on. -/
def queueSend (queueSize : Nat) (s : World) (c : Caller) (m : Msg) (yes no : Call) : World :=
  match s.evQueue with
  | none => s.failed
  | some q =>
    match s.queues q with
    | none => s.failed
    | some msgs =>
      if msgs.length < queueSize then
        { s.at c yes with
          queues := Function.update s.queues q (some (msgs ++ [m]))
          accepted := s.accepted ++ [m] }
      else s.at c no

def goCall (queueSize : Nat) (s : World) (c : Caller) (ok : Bool) : Option World :=
  match s.calls c with
  | .idle => none
  | .check m => some (if s.evQueue.isSome then s.at c (.send m) else s.at c .idle)
  | .send m => some (queueSend queueSize s c m .idle .idle)
  | .initStatus => some { s.at c .initQueue with status := true }
  | .initQueue =>
    if ok then
      some { s.at c .initList with
        queues := Function.update s.queues s.nextQueue (some [])
        evQueue := some s.nextQueue
        nextQueue := s.nextQueue + 1 }
    -- the status stays
    else some { s.at c .idle with evQueue := none }
  | .initList => some { s.at c .initTask with evList := [] }
  | .initTask =>
    if ok then
      if s.task = .none then some { s.at c .idle with task := .loop, down := false }
      else some s.failed
    else some (s.at c .initDelete)
  | .initDelete =>
    -- the pointer to the queue stays
    match s.evQueue with
    | none => some (s.at c .initReset)
    | some q => some { s.at c .initReset with queues := Function.update s.queues q none }
  | .initReset => some { s.at c .idle with status := false }
  | .deinitSem =>
    if ok then some { s.at c (.deinitCheck (some c)) with sems := Function.update s.sems c false }
    else some (s.at c (.deinitCheck none))
  | .deinitCheck sem =>
    some (if ok ∧ s.evQueue.isSome then s.at c (.deinitSend sem) else s.at c (.deinitReset false))
  | .deinitSend sem => some (queueSend queueSize s c (.exit sem) (.deinitWait sem) (.deinitReset false))
  | .deinitWait none => some s.failed
  | .deinitWait (some sem) => if s.sems sem then some (s.at c (.deinitReset true)) else none
  | .deinitReset success =>
    some { s.at c .idle with status := false, down := s.down || success }

/-- `wm_event_proc`, up to the first callback; `mem` is whether a registration can be allocated. -/
def eventProc (s : World) (m : Msg) (mem : Bool) : World :=
  let s := { s with processed := s.processed ++ [m] }
  match m with
  | .event e => { s with task := .calling e (s.evList.filter (CbItem.wants · e)) }
  | .add r =>
    { s with
      evList := if r ∈ s.evList then s.evList else if mem then s.evList ++ [r] else s.evList
      task := .loop }
  | .remove r => { s with evList := s.evList.erase r, task := .loop }
  | .exit sem => { s with evList := [], task := .clear sem }

/-- A step of `wm_event_task` -/
def taskStep (s : World) (ok : Bool) : Option World :=
  match s.task with
  | .none => none
  | .loop =>
    if s.status then
      match s.evQueue with
      | none => some s.failed
      | some q => some { s with task := .receive q }
    else some { s with task := .clear none }
  | .receive q =>
    match s.queues q with
    | none => some s.failed
    | some [] => none
    | some (m :: msgs) =>
      some (eventProc { s with queues := Function.update s.queues q (some msgs) } m ok)
  | .calling e rest =>
    match rest with
    | [] => some { s with task := .loop }
    | r :: rest => some { s with task := .running e rest, delivered := s.delivered ++ [(e, r)] }
  | .running e rest =>
    if s.calls .callback = .idle then some { s with task := .calling e rest } else none
  | .clear sem => some { s with task := .drain s.evQueue sem, evQueue := none }
  | .drain none _ => some s.failed
  | .drain (some q) sem =>
    match s.queues q with
    | none => some s.failed
    | some [] => some { s with task := .delete (some q) sem }
    | some (_ :: msgs) => some { s with queues := Function.update s.queues q (some msgs) }
  | .delete none _ => some s.failed
  | .delete (some q) sem =>
    some { s with task := .release sem, queues := Function.update s.queues q none }
  | .release sem =>
    match sem with
    | none => some { s with task := .none }
    | some c => some { s with task := .none, sems := Function.update s.sems c true }

def TaskPc.isRunning : TaskPc → Bool
  | .running _ _ => true
  | _ => false

def step (queueSize : Nat) (s : World) : Event → Option World
  | .call c op mem =>
    if s.calls c = .idle ∧ (c = .callback → s.task.isRunning) then some (startCall s c op mem) else none
  | .go c ok => goCall queueSize s c ok
  | .task ok => taskStep s ok

/-! ## What the calls are for -/

/-- The registrations after a message. -/
def register (l : List CbItem) : Msg → List CbItem
  | .add r => if r ∈ l then l else l ++ [r]
  | .remove r => l.erase r
  | .exit _ => []
  | .event _ => l

/-- Whom a message is delivered to. -/
def deliver (l : List CbItem) : Msg → List (Ev × CbItem)
  | .event e => (l.filter (CbItem.wants · e)).map fun r => (e, r)
  | _ => []

/-- The registrations after messages in queue order. -/
def registered (msgs : List Msg) : List CbItem := msgs.foldl register []

/-- What messages in queue order deliver, one after the other. -/
def deliveries : List CbItem → List Msg → List (Ev × CbItem)
  | _, [] => []
  | l, m :: msgs => deliver l m ++ deliveries (register l m) msgs

/-- The messages in the queue. -/
def pending (s : World) : List Msg :=
  match s.evQueue with
  | none => []
  | some q => (s.queues q).getD []

/-- What the event being processed has still to be delivered to. -/
def remaining (s : World) : List (Ev × CbItem) :=
  match s.task with
  | .calling e rest => rest.map fun r => (e, r)
  | .running e rest => rest.map fun r => (e, r)
  | _ => []

/-- Every accepted message is processed in order and delivered to the registrations of its place in
the order, no registration is there twice, and no callback runs after a deinit. -/
structure Sound (s : World) : Prop where
  noFault : s.fault = false
  order : s.processed ++ pending s = s.accepted
  registered : s.evList = registered s.processed
  delivered : s.delivered ++ remaining s = deliveries [] s.processed
  nodup : s.evList.Nodup
  quiet : s.down = true → s.task = .none

end WmIot.Event
