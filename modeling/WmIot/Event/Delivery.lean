import WmIot.Event.EventTask

/-!
# Delivery of events

The life of the event task goes through stages, each with at most one call of init or deinit. While
inits and deinits do not meet, get what they ask for, and no call sends behind the exit message, every
accepted message is processed in its place.
-/

namespace WmIot.Event
open Transition
set_option autoImplicit false

def Call.lifecycle : Call → Bool
  | .idle => false
  | .check _ => false
  | .send _ => false
  | _ => true

/-- A deinit has sent its message. -/
def Call.leaving : Call → Bool
  | .deinitWait _ => true
  | .deinitReset _ => true
  | _ => false

/-- Inits and deinits start when no other is under way and have what they ask for; a message is sent
to a queue that is there, and not behind an exit message unless the queue is full; a registration can
be allocated. -/
def orderly (queueSize : Nat) (s : World) : Event → Prop
  | .call _ .init _ => s.status = false → ∀ c, (s.calls c).lifecycle = false
  | .call _ .deinit _ => s.status = true → ∀ c, (s.calls c).lifecycle = false
  | .call _ _ _ => True
  | .go c ok =>
    match s.calls c with
    | .send _ => ∃ q msgs, s.evQueue = some q ∧ s.queues q = some msgs ∧
        ((∀ c', (s.calls c').leaving = false) ∨ queueSize ≤ msgs.length)
    | .initQueue => ok = true
    | .initTask => ok = true
    | .deinitSem => ok = true
    | .deinitCheck _ => ok = true
    | .deinitSend _ => ∀ q ∈ s.evQueue, ∀ msgs ∈ s.queues q, msgs.length < queueSize
    | _ => True
  | .task ok =>
    match s.task with
    | .receive q => ∀ r msgs, s.queues q = some (.add r :: msgs) → r ∈ s.evList ∨ ok = true
    | _ => True

/-- The call of `l` is at `pc`, and no other call is an init or a deinit. -/
structure Leads (s : World) (l : Caller) (pc : Call) : Prop where
  self : s.calls l = pc
  others : ∀ c, c ≠ l → (s.calls c).lifecycle = false

def NoLead (s : World) : Prop := ∀ c, (s.calls c).lifecycle = false

def NoExit (msgs : List Msg) : Prop := ∀ sem, Msg.exit sem ∉ msgs

/-- The queue with its messages. -/
structure Serves (s : World) (q : Nat) (msgs : List Msg) : Prop where
  queue : s.evQueue = some q
  msgs : s.queues q = some msgs

/-- The event task is in its loop. -/
def Looping (t : TaskPc) (q : Nat) : Prop :=
  t = .loop ∨ t = .receive q ∨ (∃ e rest, t = .calling e rest) ∨ ∃ e rest, t = .running e rest

/-- Before the event task is made. -/
structure NoTask (s : World) : Prop where
  task : s.task = .none
  down : s.down = true
  evList : s.evList = []

/-- The stages of the event task's life. -/
inductive Stage (s : World) : Prop where
  | down (h : NoTask s) (hstatus : s.status = false) (hqueue : s.evQueue = none) (hcalls : NoLead s)
  | starting (h : NoTask s) (l : Caller) (hcalls : Leads s l .initStatus) (hqueue : s.evQueue = none)
  | started (h : NoTask s) (l : Caller) (hcalls : Leads s l .initQueue) (hqueue : s.evQueue = none)
      (hstatus : s.status = true)
  | made (h : NoTask s) (l : Caller) (hcalls : Leads s l .initList ∨ Leads s l .initTask) (q : Nat)
      (msgs : List Msg) (hserves : Serves s q msgs) (hexit : NoExit msgs) (hstatus : s.status = true)
  | up (q : Nat) (msgs : List Msg) (hserves : Serves s q msgs) (hexit : NoExit msgs)
      (hloop : Looping s.task q) (hstatus : s.status = true) (hdown : s.down = false)
      (hcalls : NoLead s ∨ ∃ l, Leads s l .deinitSem ∨ ((Leads s l (.deinitCheck (some l)) ∨
        Leads s l (.deinitSend (some l))) ∧ s.sems l = false))
  | leaving (l : Caller) (hcalls : Leads s l (.deinitWait (some l))) (hsem : s.sems l = false)
      (hstatus : s.status = true) (hdown : s.down = false) (q : Nat) (msgs : List Msg)
      (hserves : Serves s q (msgs ++ [.exit (some l)])) (hexit : NoExit msgs)
      (hloop : Looping s.task q)
  | clearing (l : Caller) (hcalls : Leads s l (.deinitWait (some l))) (hsem : s.sems l = false)
      (hdown : s.down = false) (hlist : s.evList = []) (q : Nat) (hserves : Serves s q [])
      (htask : s.task = .clear (some l))
  | draining (l : Caller) (hcalls : Leads s l (.deinitWait (some l))) (hsem : s.sems l = false)
      (hdown : s.down = false) (hlist : s.evList = []) (hqueue : s.evQueue = none) (q : Nat)
      (hmsgs : s.queues q = some []) (htask : s.task = .drain (some q) (some l))
  | deleting (l : Caller) (hcalls : Leads s l (.deinitWait (some l))) (hsem : s.sems l = false)
      (hdown : s.down = false) (hlist : s.evList = []) (hqueue : s.evQueue = none) (q : Nat)
      (htask : s.task = .delete (some q) (some l))
  | releasing (l : Caller) (hcalls : Leads s l (.deinitWait (some l))) (hsem : s.sems l = false)
      (hdown : s.down = false) (hlist : s.evList = []) (hqueue : s.evQueue = none)
      (htask : s.task = .release (some l))
  | released (l : Caller) (hcalls : Leads s l (.deinitWait (some l)) ∨ Leads s l (.deinitReset true))
      (hdown : s.down = false) (hlist : s.evList = []) (hqueue : s.evQueue = none)
      (htask : s.task = .none)

/-- What a run keeps of messages, registrations and deliveries. -/
structure History (s : World) : Prop where
  noFault : s.fault = false
  order : s.processed ++ pending s = s.accepted
  registered : s.evList = registered s.processed
  delivered : s.delivered ++ remaining s = deliveries [] s.processed

section Spec
variable {l : List CbItem} {msgs : List Msg} {m : Msg}

theorem register_nodup (h : l.Nodup) : (register l m).Nodup := by
  cases m with
  | add r =>
    unfold register
    dsimp only
    by_cases hr : r ∈ l
    · rw [if_pos hr]
      exact h
    · rw [if_neg hr]
      exact h.append (List.nodup_singleton r) (by simpa using hr)
  | remove r => exact h.erase r
  | exit sem => exact List.nodup_nil
  | event e => exact h

theorem foldl_register_nodup : ∀ {msgs : List Msg} {l : List CbItem}, l.Nodup →
    (msgs.foldl register l).Nodup := by
  intro msgs
  induction msgs with
  | nil => exact fun h => h
  | cons m msgs ih => exact fun h => ih (register_nodup h)

theorem registered_nodup (msgs : List Msg) : (registered msgs).Nodup :=
  foldl_register_nodup List.nodup_nil

theorem registered_append (msgs : List Msg) (m : Msg) :
    registered (msgs ++ [m]) = register (registered msgs) m := by
  rw [registered, List.foldl_append]
  rfl

theorem deliveries_append : ∀ {msgs : List Msg} {l : List CbItem},
    deliveries l (msgs ++ [m]) = deliveries l msgs ++ deliver (msgs.foldl register l) m := by
  intro msgs
  induction msgs with
  | nil =>
    intro l
    rw [List.nil_append, deliveries, deliveries, deliveries, List.append_nil]
    rfl
  | cons m' msgs ih =>
    intro l
    rw [List.cons_append, deliveries, ih, deliveries, List.append_assoc]
    rfl

end Spec

section Leads
variable {s : World} {l c : Caller} {pc pc' : Call}

theorem Leads.ne (h : Leads s l pc) (hpc : pc.lifecycle = true)
    (hc : (s.calls c).lifecycle = false) : c ≠ l := by
  intro heq
  rw [heq, h.self, hpc] at hc
  cases hc

/-- Another call goes on. -/
theorem Leads.at_other (h : Leads s l pc) (hc : c ≠ l) (hpc' : pc'.lifecycle = false) :
    Leads (s.at c pc') l pc := by
  refine ⟨?_, fun c' hc' => ?_⟩
  · rw [World.at]
    dsimp only
    rw [Function.update_of_ne (Ne.symm hc)]
    exact h.self
  · rw [World.at]
    dsimp only
    by_cases hcc : c' = c
    · subst hcc
      rw [Function.update_self]
      exact hpc'
    · rw [Function.update_of_ne hcc]
      exact h.others c' hc'

/-- The call itself goes on. -/
theorem Leads.at_self (h : Leads s l pc) (pc' : Call) : Leads (s.at l pc') l pc' := by
  refine ⟨?_, fun c' hc' => ?_⟩
  · rw [World.at]
    dsimp only
    rw [Function.update_self]
  · rw [World.at]
    dsimp only
    rw [Function.update_of_ne hc']
    exact h.others c' hc'

/-- The call is over. -/
theorem Leads.done (h : Leads s l pc) : NoLead (s.at l .idle) := by
  intro c
  by_cases hc : c = l
  · subst hc
    rw [(h.at_self .idle).self]
    rfl
  · exact (h.at_self .idle).others c hc

theorem NoLead.at_other (h : NoLead s) (hpc' : pc'.lifecycle = false) : NoLead (s.at c pc') := by
  intro c'
  rw [World.at]
  dsimp only
  by_cases hcc : c' = c
  · subst hcc
    rw [Function.update_self]
    exact hpc'
  · rw [Function.update_of_ne hcc]
    exact h c'

/-- An init or a deinit begins. -/
theorem NoLead.begin (h : NoLead s) (c : Caller) (pc' : Call) : Leads (s.at c pc') c pc' := by
  refine ⟨?_, fun c' hc' => ?_⟩
  · rw [World.at]
    dsimp only
    rw [Function.update_self]
  · rw [World.at]
    dsimp only
    rw [Function.update_of_ne hc']
    exact h c'

end Leads

section Stage
variable {s : World} {c : Caller} {pc : Call}

/-- A call that is neither an init nor a deinit goes on. -/
theorem Stage.at_other (h : Stage s) (hc : (s.calls c).lifecycle = false)
    (hpc : pc.lifecycle = false) : Stage (s.at c pc) := by
  have hkeep : ∀ {l : Caller} {p : Call}, p.lifecycle = true → Leads s l p →
      Leads (s.at c pc) l p := fun hp hl => hl.at_other (hl.ne hp hc) hpc
  cases h with
  | down h hstatus hqueue hcalls =>
    exact .down ⟨h.task, h.down, h.evList⟩ hstatus hqueue (hcalls.at_other hpc)
  | starting h l hcalls hqueue =>
    exact .starting ⟨h.task, h.down, h.evList⟩ l (hkeep rfl hcalls) hqueue
  | started h l hcalls hqueue hstatus =>
    exact .started ⟨h.task, h.down, h.evList⟩ l (hkeep rfl hcalls) hqueue hstatus
  | made h l hcalls q msgs hserves hexit hstatus =>
    exact .made ⟨h.task, h.down, h.evList⟩ l (hcalls.imp (hkeep rfl) (hkeep rfl)) q msgs
      ⟨hserves.queue, hserves.msgs⟩ hexit hstatus
  | up q msgs hserves hexit hloop hstatus hdown hcalls =>
    refine .up q msgs ⟨hserves.queue, hserves.msgs⟩ hexit hloop hstatus hdown ?_
    rcases hcalls with hno | ⟨l, hsem | ⟨hcalls, hsem⟩⟩
    · exact Or.inl (hno.at_other hpc)
    · exact Or.inr ⟨l, Or.inl (hkeep rfl hsem)⟩
    · exact Or.inr ⟨l, Or.inr ⟨hcalls.imp (hkeep rfl) (hkeep rfl), hsem⟩⟩
  | leaving l hcalls hsem hstatus hdown q msgs hserves hexit hloop =>
    exact .leaving l (hkeep rfl hcalls) hsem hstatus hdown q msgs ⟨hserves.queue, hserves.msgs⟩ hexit
      hloop
  | clearing l hcalls hsem hdown hlist q hserves htask =>
    exact .clearing l (hkeep rfl hcalls) hsem hdown hlist q ⟨hserves.queue, hserves.msgs⟩ htask
  | draining l hcalls hsem hdown hlist hqueue q hmsgs htask =>
    exact .draining l (hkeep rfl hcalls) hsem hdown hlist hqueue q hmsgs htask
  | deleting l hcalls hsem hdown hlist hqueue q htask =>
    exact .deleting l (hkeep rfl hcalls) hsem hdown hlist hqueue q htask
  | releasing l hcalls hsem hdown hlist hqueue htask =>
    exact .releasing l (hkeep rfl hcalls) hsem hdown hlist hqueue htask
  | released l hcalls hdown hlist hqueue htask =>
    exact .released l (hcalls.imp (hkeep rfl) (hkeep rfl)) hdown hlist hqueue htask

theorem Stage.quiet (h : Stage s) (hdown : s.down = true) : s.task = .none := by
  cases h with
  | down h => exact h.task
  | starting h => exact h.task
  | started h => exact h.task
  | made h => exact h.task
  | up _ _ _ _ _ _ hup => rw [hup] at hdown; cases hdown
  | leaving _ _ _ _ hup => rw [hup] at hdown; cases hdown
  | clearing _ _ _ hup => rw [hup] at hdown; cases hdown
  | draining _ _ _ hup => rw [hup] at hdown; cases hdown
  | deleting _ _ _ hup => rw [hup] at hdown; cases hdown
  | releasing _ _ _ hup => rw [hup] at hdown; cases hdown
  | released _ _ _ _ _ htask => exact htask

end Stage

theorem pending_serves {s : World} {q : Nat} {msgs : List Msg} (h : Serves s q msgs) :
    pending s = msgs := by
  unfold pending
  rw [h.queue]
  dsimp only
  rw [h.msgs, Option.getD_some]

theorem pending_none {s : World} (h : s.evQueue = none) : pending s = [] := by
  unfold pending
  rw [h]

theorem History.at {s : World} (h : History s) (c : Caller) (pc : Call) : History (s.at c pc) :=
  ⟨h.noFault, h.order, h.registered, h.delivered⟩

/-- Only deinit sends an exit message. -/
def Call.plain : Call → Bool
  | .check (.exit _) => false
  | .send (.exit _) => false
  | _ => true

/-- What a run keeps. -/
structure Inv (s : World) : Prop where
  stage : Stage s
  history : History s
  plain : ∀ c, (s.calls c).plain = true

section Steps
variable {s s' : World} {c l : Caller} {queueSize : Nat}

theorem plain_at (h : ∀ c, (s.calls c).plain = true) {pc : Call} (hpc : pc.plain = true)
    (c' : Caller) : ((s.at c pc).calls c').plain = true := by
  rw [World.at]
  dsimp only
  by_cases hcc : c' = c
  · subst hcc
    rw [Function.update_self]
    exact hpc
  · rw [Function.update_of_ne hcc]
    exact h c'

theorem Inv.at_other (hinv : Inv s) (hc : (s.calls c).lifecycle = false) {pc : Call}
    (hpc : pc.lifecycle = false) (hplain : pc.plain = true) : Inv (s.at c pc) :=
  ⟨hinv.stage.at_other hc hpc, hinv.history.at c pc, plain_at hinv.plain hplain⟩

theorem Leads.eq {pc : Call} (h : Leads s l pc) (hc : (s.calls c).lifecycle = true) : c = l := by
  by_contra hne
  rw [h.others c hne] at hc
  cases hc

theorem NoLead.not_leads {pc : Call} (h : NoLead s) (hl : Leads s l pc) :
    pc.lifecycle = false := by
  rw [← hl.self]
  exact h l

theorem Inv.startInit (hinv : Inv s) (hno : NoLead s) (hstatus : s.status = false) :
    Inv (s.at c .initStatus) := by
  refine ⟨?_, hinv.history.at c _, plain_at hinv.plain rfl⟩
  cases hinv.stage with
  | down h hst hqueue hcalls =>
    exact .starting ⟨h.task, h.down, h.evList⟩ c (hno.begin c _) hqueue
  | starting h l hcalls => cases hno.not_leads hcalls
  | started h l hcalls hqueue hst => cases hno.not_leads hcalls
  | made h l hcalls q msgs hserves hexit hst =>
    rcases hcalls with hcalls | hcalls
    · cases hno.not_leads hcalls
    · cases hno.not_leads hcalls
  | up q msgs hserves hexit hloop hst =>
    rw [hstatus] at hst
    cases hst
  | leaving l hcalls => cases hno.not_leads hcalls
  | clearing l hcalls => cases hno.not_leads hcalls
  | draining l hcalls => cases hno.not_leads hcalls
  | deleting l hcalls => cases hno.not_leads hcalls
  | releasing l hcalls => cases hno.not_leads hcalls
  | released l hcalls =>
    rcases hcalls with hcalls | hcalls
    · cases hno.not_leads hcalls
    · cases hno.not_leads hcalls

theorem Inv.startDeinit (hinv : Inv s) (hno : NoLead s) (hstatus : s.status = true) :
    Inv (s.at c .deinitSem) := by
  refine ⟨?_, hinv.history.at c _, plain_at hinv.plain rfl⟩
  cases hinv.stage with
  | down h hst hqueue hcalls =>
    rw [hstatus] at hst
    cases hst
  | starting h l hcalls => cases hno.not_leads hcalls
  | started h l hcalls hqueue hst => cases hno.not_leads hcalls
  | made h l hcalls q msgs hserves hexit hst =>
    rcases hcalls with hcalls | hcalls
    · cases hno.not_leads hcalls
    · cases hno.not_leads hcalls
  | up q msgs hserves hexit hloop hst hdown hcalls =>
    exact .up q msgs ⟨hserves.queue, hserves.msgs⟩ hexit hloop hst hdown
      (Or.inr ⟨c, Or.inl (hno.begin c _)⟩)
  | leaving l hcalls => cases hno.not_leads hcalls
  | clearing l hcalls => cases hno.not_leads hcalls
  | draining l hcalls => cases hno.not_leads hcalls
  | deleting l hcalls => cases hno.not_leads hcalls
  | releasing l hcalls => cases hno.not_leads hcalls
  | released l hcalls =>
    rcases hcalls with hcalls | hcalls
    · cases hno.not_leads hcalls
    · cases hno.not_leads hcalls

theorem Inv.startCall (hinv : Inv s) (hidle : s.calls c = .idle) {op : Op} {mem : Bool}
    (hok : orderly queueSize s (.call c op mem)) : Inv (startCall s c op mem) := by
  have hc : (s.calls c).lifecycle = false := by
    rw [hidle]
    rfl
  cases op with
  | add r =>
    rw [Event.startCall]
    split
    · exact hinv.at_other hc rfl rfl
    · exact hinv
  | remove r =>
    rw [Event.startCall]
    split
    · exact hinv.at_other hc rfl rfl
    · exact hinv
  | event e =>
    rw [Event.startCall]
    split
    · exact hinv.at_other hc rfl rfl
    · exact hinv
  | init =>
    rw [Event.startCall]
    cases hstatus : s.status with
    | true => exact hinv
    | false => exact hinv.startInit (hok hstatus) hstatus
  | deinit =>
    rw [Event.startCall]
    cases hstatus : s.status with
    | true => exact hinv.startDeinit (hok hstatus) hstatus
    | false => exact hinv

/-- A message goes to the end of the queue. -/
theorem History.push {q : Nat} {msgs : List Msg} (h : History s) (hserves : Serves s q msgs) (m : Msg)
    (c : Caller) (pc : Call) : History { s.at c pc with
      queues := Function.update s.queues q (some (msgs ++ [m]))
      accepted := s.accepted ++ [m] } := by
  refine ⟨h.noFault, ?_, h.registered, h.delivered⟩
  have hafter : Serves { s.at c pc with
      queues := Function.update s.queues q (some (msgs ++ [m]))
      accepted := s.accepted ++ [m] } q (msgs ++ [m]) := ⟨hserves.queue, Function.update_self ..⟩
  have hbefore := h.order
  rw [pending_serves hserves] at hbefore
  rw [pending_serves hafter, ← List.append_assoc]
  dsimp only
  rw [← hbefore]
  rfl

theorem NoExit.push {msgs : List Msg} {m : Msg} (h : NoExit msgs) (hm : ∀ sem, m ≠ .exit sem) :
    NoExit (msgs ++ [m]) := by
  intro sem hmem
  rcases List.mem_append.mp hmem with hmem | hmem
  · exact h sem hmem
  · exact hm sem (List.mem_singleton.mp hmem).symm

/-- A message is sent while no deinit has sent its own. -/
theorem Inv.push (hinv : Inv s) {m : Msg} (hcall : s.calls c = .send m) {q : Nat} {msgs : List Msg}
    (hserves : Serves s q msgs) (hno : ∀ c', (s.calls c').leaving = false) :
    Inv { s.at c .idle with
      queues := Function.update s.queues q (some (msgs ++ [m]))
      accepted := s.accepted ++ [m] } := by
  have hc : (s.calls c).lifecycle = false := by
    rw [hcall]
    rfl
  have hm : ∀ sem, m ≠ .exit sem := by
    intro sem heq
    have hplain := hinv.plain c
    rw [hcall, heq] at hplain
    cases hplain
  have hkeep : ∀ {l : Caller} {p : Call}, p.lifecycle = true → Leads s l p →
      Leads (s.at c .idle) l p := fun hp hl => hl.at_other (hl.ne hp hc) rfl
  have hstay : ∀ {l : Caller} {pc : Call}, Leads s l pc → pc.leaving = false := fun hl => by
    rw [← hl.self]
    exact hno _
  refine ⟨?_, hinv.history.push hserves m c _, plain_at hinv.plain rfl⟩
  cases hinv.stage with
  | down h hst hqueue =>
    rw [hserves.queue] at hqueue
    cases hqueue
  | starting h l hcalls hqueue =>
    rw [hserves.queue] at hqueue
    cases hqueue
  | started h l hcalls hqueue =>
    rw [hserves.queue] at hqueue
    cases hqueue
  | made h l hcalls q' msgs' hserves' hexit hst =>
    have hq : q' = q := Option.some.inj (hserves'.queue.symm.trans hserves.queue)
    subst hq
    have hmsgs : msgs' = msgs := Option.some.inj (hserves'.msgs.symm.trans hserves.msgs)
    subst hmsgs
    exact .made ⟨h.task, h.down, h.evList⟩ l
      (hcalls.imp (fun hl => ⟨(hkeep rfl hl).self, (hkeep rfl hl).others⟩)
        fun hl => ⟨(hkeep rfl hl).self, (hkeep rfl hl).others⟩)
      q' (msgs' ++ [m]) ⟨hserves.queue, Function.update_self ..⟩ (hexit.push hm) hst
  | up q' msgs' hserves' hexit hloop hst hdown hcalls =>
    have hq : q' = q := Option.some.inj (hserves'.queue.symm.trans hserves.queue)
    subst hq
    have hmsgs : msgs' = msgs := Option.some.inj (hserves'.msgs.symm.trans hserves.msgs)
    subst hmsgs
    refine .up q' (msgs' ++ [m]) ⟨hserves.queue, Function.update_self ..⟩ (hexit.push hm) hloop hst
      hdown ?_
    rcases hcalls with hnone | ⟨l, hsem | ⟨hl | hl, hsem⟩⟩
    · have hafter : NoLead (s.at c .idle) := hnone.at_other rfl
      exact Or.inl hafter
    · exact Or.inr ⟨l, Or.inl ⟨(hkeep rfl hsem).self, (hkeep rfl hsem).others⟩⟩
    · exact Or.inr ⟨l, Or.inr ⟨Or.inl ⟨(hkeep rfl hl).self, (hkeep rfl hl).others⟩, hsem⟩⟩
    · exact Or.inr ⟨l, Or.inr ⟨Or.inr ⟨(hkeep rfl hl).self, (hkeep rfl hl).others⟩, hsem⟩⟩
  | leaving l hcalls => cases hstay hcalls
  | clearing l hcalls => cases hstay hcalls
  | draining l hcalls => cases hstay hcalls
  | deleting l hcalls => cases hstay hcalls
  | releasing l hcalls => cases hstay hcalls
  | released l hcalls =>
    rcases hcalls with hcalls | hcalls
    · cases hstay hcalls
    · cases hstay hcalls

/-- A deinit sends its message. -/
theorem Inv.pushExit (hinv : Inv s) (hl : Leads s l (.deinitSend (some l))) {q : Nat}
    {msgs : List Msg} (hserves : Serves s q msgs) (hexit : NoExit msgs) (hloop : Looping s.task q)
    (hstatus : s.status = true) (hdown : s.down = false) (hsem : s.sems l = false) :
    Inv { s.at l (.deinitWait (some l)) with
      queues := Function.update s.queues q (some (msgs ++ [.exit (some l)]))
      accepted := s.accepted ++ [.exit (some l)] } := by
  have hafter := hl.at_self (.deinitWait (some l))
  exact ⟨.leaving l ⟨hafter.self, hafter.others⟩ hsem hstatus hdown q msgs
    ⟨hserves.queue, Function.update_self ..⟩ hexit hloop,
    hinv.history.push hserves _ l _, plain_at hinv.plain rfl⟩

/-- An init or a deinit goes on. -/
theorem Inv.goLead (hinv : Inv s) (hlife : (s.calls c).lifecycle = true) {ok : Bool}
    (hok : orderly queueSize s (.go c ok)) (h : goCall queueSize s c ok = some s') : Inv s' := by
  have hhist := hinv.history
  unfold orderly at hok
  dsimp only at hok
  cases hinv.stage with
  | down hn hst hqueue hcalls =>
    rw [hcalls c] at hlife
    cases hlife
  | starting hn l hcalls hqueue =>
    have hcl := hcalls.eq hlife
    subst hcl
    rw [goCall, hcalls.self] at h
    cases h
    have hnext := hcalls.at_self .initQueue
    exact ⟨.started ⟨hn.task, hn.down, hn.evList⟩ c ⟨hnext.self, hnext.others⟩ hqueue rfl,
      ⟨hhist.noFault, hhist.order, hhist.registered, hhist.delivered⟩, plain_at hinv.plain rfl⟩
  | started hn l hcalls hqueue hst =>
    have hcl := hcalls.eq hlife
    subst hcl
    rw [hcalls.self] at hok
    rw [goCall, hcalls.self] at h
    dsimp only at h hok
    rw [hok, if_pos rfl] at h
    cases h
    have hnext := hcalls.at_self .initList
    have hserves : Serves { s.at c .initList with
        queues := Function.update s.queues s.nextQueue (some [])
        evQueue := some s.nextQueue
        nextQueue := s.nextQueue + 1 } s.nextQueue [] := ⟨rfl, Function.update_self ..⟩
    refine ⟨.made ⟨hn.task, hn.down, hn.evList⟩ c (Or.inl ⟨hnext.self, hnext.others⟩) _ _ hserves
      (fun sem hmem => by cases hmem) hst, ⟨hhist.noFault, ?_, hhist.registered, hhist.delivered⟩,
      plain_at hinv.plain rfl⟩
    have hbefore := hhist.order
    rw [pending_none hqueue] at hbefore
    rw [pending_serves hserves]
    exact hbefore
  | made hn l hcalls q msgs hserves hexit hst =>
    rcases hcalls with hcalls | hcalls
    · have hcl := hcalls.eq hlife
      subst hcl
      rw [goCall, hcalls.self] at h
      cases h
      have hnext := hcalls.at_self .initTask
      refine ⟨.made ⟨hn.task, hn.down, rfl⟩ c (Or.inr ⟨hnext.self, hnext.others⟩) q msgs
        ⟨hserves.queue, hserves.msgs⟩ hexit hst,
        ⟨hhist.noFault, hhist.order, ?_, hhist.delivered⟩, plain_at hinv.plain rfl⟩
      rw [← hn.evList]
      exact hhist.registered
    · have hcl := hcalls.eq hlife
      subst hcl
      rw [hcalls.self] at hok
      rw [goCall, hcalls.self] at h
      dsimp only at h hok
      rw [hok, if_pos rfl, if_pos hn.task] at h
      cases h
      refine ⟨.up q msgs ⟨hserves.queue, hserves.msgs⟩ hexit (Or.inl rfl) hst rfl (Or.inl hcalls.done),
        ⟨hhist.noFault, hhist.order, hhist.registered, ?_⟩, plain_at hinv.plain rfl⟩
      have hbefore := hhist.delivered
      rw [remaining, hn.task] at hbefore
      exact hbefore
  | up q msgs hserves hexit hloop hst hdown hcalls =>
    rcases hcalls with hno | ⟨l, hl | ⟨hl | hl, hsem⟩⟩
    · rw [hno c] at hlife
      cases hlife
    · have hcl := hl.eq hlife
      subst hcl
      rw [hl.self] at hok
      rw [goCall, hl.self] at h
      dsimp only at h hok
      rw [hok, if_pos rfl] at h
      cases h
      have hnext := hl.at_self (.deinitCheck (some c))
      exact ⟨.up q msgs ⟨hserves.queue, hserves.msgs⟩ hexit hloop hst hdown
        (Or.inr ⟨c, Or.inr ⟨Or.inl ⟨hnext.self, hnext.others⟩, Function.update_self ..⟩⟩),
        ⟨hhist.noFault, hhist.order, hhist.registered, hhist.delivered⟩, plain_at hinv.plain rfl⟩
    · have hcl := hl.eq hlife
      subst hcl
      rw [hl.self] at hok
      rw [goCall, hl.self] at h
      dsimp only at h hok
      rw [hok, hserves.queue, Option.isSome_some, if_pos ⟨rfl, rfl⟩] at h
      cases h
      exact ⟨.up q msgs ⟨hserves.queue, hserves.msgs⟩ hexit hloop hst hdown
        (Or.inr ⟨c, Or.inr ⟨Or.inr (hl.at_self _), hsem⟩⟩), hhist.at c _, plain_at hinv.plain rfl⟩
    · have hcl := hl.eq hlife
      subst hcl
      rw [hl.self] at hok
      rw [goCall, hl.self] at h
      dsimp only at h hok
      rw [queueSend, hserves.queue] at h
      dsimp only at h
      rw [hserves.msgs] at h
      dsimp only at h
      rw [if_pos (hok q hserves.queue msgs hserves.msgs)] at h
      cases h
      exact hinv.pushExit hl hserves hexit hloop hst hdown hsem
  | leaving l hcalls hsem =>
    have hcl := hcalls.eq hlife
    subst hcl
    rw [goCall, hcalls.self] at h
    dsimp only at h
    rw [hsem, if_neg Bool.false_ne_true] at h
    cases h
  | clearing l hcalls hsem =>
    have hcl := hcalls.eq hlife
    subst hcl
    rw [goCall, hcalls.self] at h
    dsimp only at h
    rw [hsem, if_neg Bool.false_ne_true] at h
    cases h
  | draining l hcalls hsem =>
    have hcl := hcalls.eq hlife
    subst hcl
    rw [goCall, hcalls.self] at h
    dsimp only at h
    rw [hsem, if_neg Bool.false_ne_true] at h
    cases h
  | deleting l hcalls hsem =>
    have hcl := hcalls.eq hlife
    subst hcl
    rw [goCall, hcalls.self] at h
    dsimp only at h
    rw [hsem, if_neg Bool.false_ne_true] at h
    cases h
  | releasing l hcalls hsem =>
    have hcl := hcalls.eq hlife
    subst hcl
    rw [goCall, hcalls.self] at h
    dsimp only at h
    rw [hsem, if_neg Bool.false_ne_true] at h
    cases h
  | released l hcalls hdown hlist hqueue htask =>
    rcases hcalls with hcalls | hcalls
    · have hcl := hcalls.eq hlife
      subst hcl
      rw [goCall, hcalls.self] at h
      dsimp only at h
      by_cases hsem : s.sems c = true
      · rw [if_pos hsem] at h
        cases h
        exact ⟨.released c (Or.inr (hcalls.at_self _)) hdown hlist hqueue htask, hhist.at c _,
          plain_at hinv.plain rfl⟩
      · rw [if_neg hsem] at h
        cases h
    · have hcl := hcalls.eq hlife
      subst hcl
      rw [goCall, hcalls.self] at h
      cases h
      exact ⟨.down ⟨htask, by rw [hdown]; rfl, hlist⟩ rfl hqueue hcalls.done,
        ⟨hhist.noFault, hhist.order, hhist.registered, hhist.delivered⟩, plain_at hinv.plain rfl⟩

theorem Inv.goCall (hinv : Inv s) {ok : Bool} (hok : orderly queueSize s (.go c ok))
    (h : goCall queueSize s c ok = some s') : Inv s' := by
  cases hlife : (s.calls c).lifecycle with
  | true => exact hinv.goLead hlife hok h
  | false =>
    unfold orderly at hok
    dsimp only at hok
    rw [Event.goCall] at h
    cases hcall : s.calls c with
    | idle =>
      rw [hcall] at h
      cases h
    | check m =>
      rw [hcall] at h
      cases h
      by_cases hsome : s.evQueue.isSome = true
      · rw [if_pos hsome]
        have hplain := hinv.plain c
        rw [hcall] at hplain
        refine hinv.at_other hlife rfl ?_
        cases m with
        | exit sem => cases hplain
        | _ => rfl
      · rw [if_neg hsome]
        exact hinv.at_other hlife rfl rfl
    | send m =>
      rw [hcall] at h hok
      cases h
      obtain ⟨q, msgs, hqueue, hmsgs, hroom⟩ := hok
      rw [queueSend, hqueue]
      dsimp only
      rw [hmsgs]
      dsimp only
      by_cases hlt : msgs.length < queueSize
      · rw [if_pos hlt]
        rcases hroom with hno | hfull
        · exact hinv.push hcall ⟨hqueue, hmsgs⟩ hno
        · omega
      · rw [if_neg hlt]
        exact hinv.at_other hlife rfl rfl
    | initStatus => rw [hcall] at hlife; cases hlife
    | initQueue => rw [hcall] at hlife; cases hlife
    | initList => rw [hcall] at hlife; cases hlife
    | initTask => rw [hcall] at hlife; cases hlife
    | initDelete => rw [hcall] at hlife; cases hlife
    | initReset => rw [hcall] at hlife; cases hlife
    | deinitSem => rw [hcall] at hlife; cases hlife
    | deinitCheck sem => rw [hcall] at hlife; cases hlife
    | deinitSend sem => rw [hcall] at hlife; cases hlife
    | deinitWait sem => rw [hcall] at hlife; cases hlife
    | deinitReset success => rw [hcall] at hlife; cases hlife

end Steps

section Task
variable {s s' : World} {queueSize : Nat}

/-- Where the task is after `wm_event_proc` began. -/
def procTask (l : List CbItem) : Msg → TaskPc
  | .event e => .calling e (l.filter (CbItem.wants · e))
  | .exit sem => .clear sem
  | _ => .loop

theorem eventProc_eq {m : Msg} {mem : Bool} (hadd : ∀ r, m = .add r → r ∈ s.evList ∨ mem = true) :
    eventProc s m mem = { s with
      processed := s.processed ++ [m]
      evList := register s.evList m
      task := procTask s.evList m } := by
  cases m with
  | add r =>
    unfold eventProc register procTask
    dsimp only
    rcases hadd r rfl with hr | hmem
    · rw [if_pos hr, if_pos hr]
    · rw [if_pos hmem]
  | remove r => rfl
  | exit sem => rfl
  | event e => rfl

theorem looping_procTask {l : List CbItem} {m : Msg} (h : ∀ sem, m ≠ .exit sem) (q : Nat) :
    Looping (procTask l m) q := by
  cases m with
  | add r => exact Or.inl rfl
  | remove r => exact Or.inl rfl
  | exit sem => exact absurd rfl (h sem)
  | event e => exact Or.inr (Or.inr (Or.inl ⟨e, _, rfl⟩))

/-- A message is taken off the queue and processed. -/
theorem History.process (h : History s) {q : Nat} {m : Msg} {msgs : List Msg}
    (hserves : Serves s q (m :: msgs)) (hremaining : remaining s = []) {task : TaskPc}
    (htask : task = procTask s.evList m) : History { s with
      queues := Function.update s.queues q (some msgs)
      processed := s.processed ++ [m]
      evList := register s.evList m
      task := task } := by
  have hafter : Serves { s with
      queues := Function.update s.queues q (some msgs)
      processed := s.processed ++ [m]
      evList := register s.evList m
      task := task } q msgs := ⟨hserves.queue, Function.update_self ..⟩
  have horder := h.order
  have hdelivered := h.delivered
  rw [pending_serves hserves] at horder
  rw [hremaining, List.append_nil] at hdelivered
  refine ⟨h.noFault, ?_, ?_, ?_⟩
  · rw [pending_serves hafter, List.append_assoc]
    exact horder
  · dsimp only
    rw [registered_append, ← h.registered]
  · have hdeliver : ∀ t, t = procTask s.evList m →
        remaining { s with task := t } = deliver s.evList m := by
      intro t ht
      rw [ht]
      cases m <;> rfl
    have hnew : remaining { s with
        queues := Function.update s.queues q (some msgs)
        processed := s.processed ++ [m]
        evList := register s.evList m
        task := task } = deliver s.evList m := hdeliver task htask
    rw [hnew]
    dsimp only
    rw [deliveries_append, ← hdelivered]
    change _ = s.delivered ++ deliver (Event.registered s.processed) m
    rw [← h.registered]

theorem Stage.setTask (h : Stage s) {q : Nat} (hloop : Looping s.task q) {task : TaskPc}
    (hnext : ∀ q, s.evQueue = some q → Looping s.task q → Looping task q)
    (delivered : List (Ev × CbItem)) : Stage { s with task := task, delivered := delivered } := by
  have hbusy : s.task ≠ .none := by
    rcases hloop with h | h | ⟨e, rest, h⟩ | ⟨e, rest, h⟩
    all_goals
      rw [h]
      simp
  have hleft : ∀ sem, s.task ≠ .clear sem ∧ s.task ≠ .release sem ∧
      ∀ q, s.task ≠ .drain q sem ∧ s.task ≠ .delete q sem := by
    intro sem
    rcases hloop with h | h | ⟨e, rest, h⟩ | ⟨e, rest, h⟩
    all_goals
      rw [h]
      simp
  cases h with
  | down hn => exact absurd hn.task hbusy
  | starting hn => exact absurd hn.task hbusy
  | started hn => exact absurd hn.task hbusy
  | made hn => exact absurd hn.task hbusy
  | up q' msgs hserves hexit hloop' hstatus hdown hcalls =>
    exact .up q' msgs ⟨hserves.queue, hserves.msgs⟩ hexit (hnext q' hserves.queue hloop') hstatus hdown
      (hcalls.imp id fun ⟨l, hl⟩ => ⟨l, hl.imp (fun h => ⟨h.self, h.others⟩) fun h =>
        ⟨h.1.imp (fun h => ⟨h.self, h.others⟩) fun h => ⟨h.self, h.others⟩, h.2⟩⟩)
  | leaving l hcalls hsem hstatus hdown q' msgs hserves hexit hloop' =>
    exact .leaving l ⟨hcalls.self, hcalls.others⟩ hsem hstatus hdown q' msgs
      ⟨hserves.queue, hserves.msgs⟩ hexit (hnext q' hserves.queue hloop')
  | clearing l _ _ _ _ _ _ htask => exact absurd htask (hleft _).1
  | draining l _ _ _ _ _ q' _ htask => exact absurd htask ((hleft _).2.2 _).1
  | deleting l _ _ _ _ _ q' htask => exact absurd htask ((hleft _).2.2 _).2
  | releasing l _ _ _ _ _ htask => exact absurd htask (hleft _).2.1
  | released l _ _ _ _ htask => exact absurd htask hbusy

/-- A message is processed while the task is up. -/
theorem Inv.process (hinv : Inv s) {q : Nat} {m : Msg} {msgs : List Msg}
    (htask : s.task = .receive q) (hmsgs : s.queues q = some (m :: msgs)) :
    Inv { s with
      queues := Function.update s.queues q (some msgs)
      processed := s.processed ++ [m]
      evList := register s.evList m
      task := procTask s.evList m } := by
  have hremaining : remaining s = [] := by
    rw [remaining, htask]
  have hnot : ∀ {t : TaskPc}, s.task = t → t = .receive q := fun h => h.symm.trans htask
  have hsame : ∀ {q' : Nat}, Looping s.task q' → q' = q := by
    intro q' hloop
    rcases hloop with h | h | ⟨e, rest, h⟩ | ⟨e, rest, h⟩
    · cases hnot h
    · cases hnot h
      rfl
    · cases hnot h
    · cases hnot h
  cases hinv.stage with
  | down hn => cases hnot hn.task
  | starting hn => cases hnot hn.task
  | started hn => cases hnot hn.task
  | made hn => cases hnot hn.task
  | up q' msgs' hserves hexit hloop hstatus hdown hcalls =>
    have hq := hsame hloop
    subst hq
    have hall : msgs' = m :: msgs := Option.some.inj (hserves.msgs.symm.trans hmsgs)
    subst hall
    have hm : ∀ sem, m ≠ .exit sem := fun sem heq => hexit sem (heq ▸ List.mem_cons_self)
    refine ⟨.up q' msgs ⟨hserves.queue, Function.update_self ..⟩
      (fun sem hmem => hexit sem (List.mem_cons_of_mem m hmem)) (looping_procTask hm q') hstatus hdown
      (hcalls.imp id fun ⟨l, hl⟩ => ⟨l, hl.imp (fun h => ⟨h.self, h.others⟩) fun h =>
        ⟨h.1.imp (fun h => ⟨h.self, h.others⟩) fun h => ⟨h.self, h.others⟩, h.2⟩⟩),
      hinv.history.process hserves hremaining rfl, hinv.plain⟩
  | leaving l hcalls hsem hstatus hdown q' msgs' hserves hexit hloop =>
    have hq := hsame hloop
    subst hq
    have hall : msgs' ++ [.exit (some l)] = m :: msgs :=
      Option.some.inj (hserves.msgs.symm.trans hmsgs)
    have hhistory := hinv.history.process ⟨hserves.queue, hmsgs⟩ hremaining rfl
    cases msgs' with
    | nil =>
      rw [List.nil_append] at hall
      cases hall
      exact ⟨.clearing l ⟨hcalls.self, hcalls.others⟩ hsem hdown rfl q'
        ⟨hserves.queue, Function.update_self ..⟩ rfl, hhistory, hinv.plain⟩
    | cons m' msgs' =>
      rw [List.cons_append] at hall
      cases hall
      have hm : ∀ sem, m ≠ .exit sem := fun sem heq => hexit sem (heq ▸ List.mem_cons_self)
      exact ⟨.leaving l ⟨hcalls.self, hcalls.others⟩ hsem hstatus hdown q' msgs'
        ⟨hserves.queue, Function.update_self ..⟩
        (fun sem hmem => hexit sem (List.mem_cons_of_mem m hmem)) (looping_procTask hm q'),
        hhistory, hinv.plain⟩
  | clearing l _ _ _ _ _ _ h => cases hnot h
  | draining l _ _ _ _ _ q' _ h => cases hnot h
  | deleting l _ _ _ _ _ q' h => cases hnot h
  | releasing l _ _ _ _ _ h => cases hnot h
  | released l _ _ _ _ h => cases hnot h

/-- The task's loop, while there is a queue. -/
theorem Inv.loopStep (hinv : Inv s) {q : Nat} (hqueue : s.evQueue = some q)
    (hthere : ∃ msgs, s.queues q = some msgs) (hstatus : s.status = true)
    (hloop : Looping s.task q) {ok : Bool} (hok : orderly queueSize s (.task ok))
    (h : taskStep s ok = some s') : Inv s' := by
  have hhist := hinv.history
  unfold orderly at hok
  dsimp only at hok
  have hmove : ∀ {task : TaskPc} {delivered : List (Ev × CbItem)},
      (∀ q, s.evQueue = some q → Looping s.task q → Looping task q) →
      delivered ++ remaining { s with task := task } = s.delivered ++ remaining s →
      Inv { s with task := task, delivered := delivered } :=
    fun {task delivered} hnext hsame => ⟨hinv.stage.setTask hloop hnext delivered,
      ⟨hhist.noFault, hhist.order, hhist.registered, hsame.trans hhist.delivered⟩, hinv.plain⟩
  rw [taskStep] at h
  rcases hloop with htask | htask | ⟨e, rest, htask⟩ | ⟨e, rest, htask⟩
  · rw [htask] at h
    dsimp only at h
    rw [if_pos hstatus] at h
    split at h
    · rename_i hnone
      rw [hqueue] at hnone
      cases hnone
    · rename_i q' hsome
      cases h
      refine hmove (fun q'' hq'' _ => ?_) ?_
      · rw [hsome, Option.some.injEq] at hq''
        exact Or.inr (Or.inl (by rw [hq'']))
      · rw [remaining, remaining, htask]
  · rw [htask] at h hok
    dsimp only at h hok
    split at h
    · rename_i hnone
      obtain ⟨msgs, hmsgs⟩ := hthere
      rw [hmsgs] at hnone
      cases hnone
    · cases h
    · rename_i m msgs hmsgs
      rw [Option.some.injEq] at h
      rw [← h, eventProc_eq]
      · exact hinv.process htask hmsgs
      · intro r hr
        exact hok r msgs (by rw [hmsgs, hr])
  · rw [htask] at h
    dsimp only at h
    cases rest with
    | nil =>
      cases h
      refine hmove (fun q' _ _ => Or.inl rfl) ?_
      rw [remaining, remaining, htask]
      rfl
    | cons r rest =>
      cases h
      refine hmove (fun q' _ _ => Or.inr (Or.inr (Or.inr ⟨e, rest, rfl⟩))) ?_
      rw [remaining, remaining, htask, List.append_assoc]
      rfl
  · rw [htask] at h
    dsimp only at h
    by_cases hidle : s.calls .callback = .idle
    · rw [if_pos hidle] at h
      cases h
      refine hmove (fun q' _ _ => Or.inr (Or.inr (Or.inl ⟨e, rest, rfl⟩))) ?_
      rw [remaining, remaining, htask]
    · rw [if_neg hidle] at h
      cases h

theorem History.setTask (h : History s) {task : TaskPc}
    (hrem : remaining s = []) (hrem' : remaining { s with task := task } = [])
    {evQueue : Option Nat} {queues : Nat → Option (List Msg)} {sems : Caller → Bool}
    (hpend : pending s = []) (hpend' : pending { s with evQueue := evQueue, queues := queues } = []) :
    History { s with task := task, evQueue := evQueue, queues := queues, sems := sems } := by
  refine ⟨h.noFault, ?_, h.registered, ?_⟩
  · change s.processed ++ pending { s with evQueue := evQueue, queues := queues } = _
    rw [hpend', ← hpend]
    exact h.order
  · change s.delivered ++ remaining { s with task := task } = _
    rw [hrem', ← hrem]
    exact h.delivered

theorem Inv.taskStep (hinv : Inv s) {ok : Bool} (hok : orderly queueSize s (.task ok))
    (h : taskStep s ok = some s') : Inv s' := by
  have hhist := hinv.history
  have hnone : s.task ≠ .none := by
    intro htask
    rw [Event.taskStep, htask] at h
    cases h
  cases hinv.stage with
  | down hn => exact absurd hn.task hnone
  | starting hn => exact absurd hn.task hnone
  | started hn => exact absurd hn.task hnone
  | made hn => exact absurd hn.task hnone
  | up q msgs hserves hexit hloop hstatus =>
    exact hinv.loopStep hserves.queue ⟨_, hserves.msgs⟩ hstatus hloop hok h
  | leaving l hcalls hsem hstatus hdown q msgs hserves hexit hloop =>
    exact hinv.loopStep hserves.queue ⟨_, hserves.msgs⟩ hstatus hloop hok h
  | clearing l hcalls hsem hdown hlist q hserves htask =>
    rw [Event.taskStep, htask] at h
    cases h
    rw [hserves.queue]
    exact ⟨.draining l ⟨hcalls.self, hcalls.others⟩ hsem hdown hlist rfl q hserves.msgs rfl,
      hhist.setTask (by rw [remaining, htask]) rfl (pending_serves hserves) rfl, hinv.plain⟩
  | draining l hcalls hsem hdown hlist hqueue q hmsgs htask =>
    rw [Event.taskStep, htask] at h
    dsimp only at h
    rw [hmsgs] at h
    cases h
    exact ⟨.deleting l ⟨hcalls.self, hcalls.others⟩ hsem hdown hlist hqueue q rfl,
      hhist.setTask (by rw [remaining, htask]) rfl (pending_none hqueue) (pending_none hqueue),
      hinv.plain⟩
  | deleting l hcalls hsem hdown hlist hqueue q htask =>
    rw [Event.taskStep, htask] at h
    cases h
    exact ⟨.releasing l ⟨hcalls.self, hcalls.others⟩ hsem hdown hlist hqueue rfl,
      hhist.setTask (by rw [remaining, htask]) rfl (pending_none hqueue) (pending_none hqueue),
      hinv.plain⟩
  | releasing l hcalls hsem hdown hlist hqueue htask =>
    rw [Event.taskStep, htask] at h
    cases h
    exact ⟨.released l (Or.inl ⟨hcalls.self, hcalls.others⟩) hdown hlist hqueue rfl,
      hhist.setTask (by rw [remaining, htask]) rfl (pending_none hqueue) (pending_none hqueue),
      hinv.plain⟩
  | released l hcalls hdown hlist hqueue htask => exact absurd htask hnone

end Task

section Runs
variable {s s' : World} {queueSize : Nat}

theorem Inv.step (hinv : Inv s) {e : Event} (hok : orderly queueSize s e)
    (h : step queueSize s e = some s') : Inv s' := by
  cases e with
  | call c op mem =>
    rw [Event.step] at h
    by_cases hidle : s.calls c = .idle ∧ (c = .callback → s.task.isRunning = true)
    · rw [if_pos hidle] at h
      cases h
      exact hinv.startCall hidle.1 hok
    · rw [if_neg hidle] at h
      cases h
  | go c ok => exact hinv.goCall hok h
  | task ok => exact hinv.taskStep hok h

theorem Init.inv (h : Init s) : Inv s := by
  obtain ⟨hstatus, hqueue, hlist, htask, hcalls, hfault, haccepted, hprocessed, hdelivered, hdown⟩ := h
  have hidle : ∀ c, (s.calls c).lifecycle = false := fun c => by
    rw [hcalls]
    rfl
  refine ⟨.down ⟨htask, hdown, hlist⟩ hstatus hqueue hidle, ⟨hfault, ?_, ?_, ?_⟩, fun c => ?_⟩
  · rw [pending_none hqueue, hprocessed, haccepted]
    rfl
  · rw [hlist, hprocessed]
    rfl
  · rw [remaining, htask, hdelivered, hprocessed]
    rfl
  · rw [hcalls]
    rfl

theorem Inv.sound (h : Inv s) : Sound s :=
  ⟨h.history.noFault, h.history.order, h.history.registered, h.history.delivered,
    by rw [h.history.registered]; exact registered_nodup _, h.stage.quiet⟩

end Runs

section Example

def freshWorld : World :=
  ⟨false, none, fun _ => none, 0, [], .none, fun _ => .idle, fun _ => false, false, [], [], [], true⟩

theorem freshWorld_init : Init freshWorld := ⟨rfl, rfl, rfl, rfl, fun _ => rfl, rfl, rfl, rfl, rfl, rfl⟩

def app : Caller := .task 0

/-- A registration for all events. -/
def anyEvent : CbItem := ⟨1, anyGroup, anyType, 0⟩

def wifiEvent : Ev := ⟨5, 2, []⟩

def initRun : List Event := .call app .init true :: List.replicate 4 (.go app true)

def addRun : List Event := .call app (.add anyEvent) true :: List.replicate 2 (.go app true)

def sendRun : List Event := .call app (.event wifiEvent) true :: List.replicate 2 (.go app true)

theorem leaving_update {f : Caller → Call} (h : ∀ c, (f c).leaving = false) {pc : Call}
    (hpc : pc.leaving = false) (c c' : Caller) : (Function.update f c pc c').leaving = false := by
  by_cases hc : c' = c
  · subst hc
    rw [Function.update_self]
    exact hpc
  · rw [Function.update_of_ne hc]
    exact h c'

/-- The event task gets no memory for a registration whose call returned success. -/
def lostAdd : List Event := initRun ++ addRun ++ [.task true, .task false]

/-- An event goes behind the exit message, and is dropped with it. -/
def lostEvent : List Event :=
  initRun ++ .call (.task 1) (.event wifiEvent) true :: .go (.task 1) true ::
    .call app .deinit true :: List.replicate 3 (.go app true) ++ .go (.task 1) true ::
    List.replicate 4 (.task true)

end Example

end WmIot.Event
