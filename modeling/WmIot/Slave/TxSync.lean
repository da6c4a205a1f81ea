import WmIot.Slave.TxData

/-!
# Synchronous transmission waits for its own completion

While a synchronous call holds the mutex, only interrupts move the hardware. So if nothing is left of
earlier transfers when it starts its own, the bit it gets is its own.
-/

namespace WmIot.Slave
open Transition
set_option autoImplicit false

/-- The call holds the mutex. -/
def Call.holds : Call → Bool
  | .idle => false
  | .lock _ => false
  | _ => true

/-- The call's transfer, while it has not got the bit. -/
def Call.awaits : Call → Option Nat
  | .get k _ => some k
  | .waiting k => some k
  | .expired k => some k
  | _ => none

/-- Transfer `k` is the last one, all others are complete, and before its interrupt there is no bit. -/
structure Alone (s : Ctx) (k : Nat) : Prop where
  last : k + 1 = s.started
  others : k ≤ s.completed
  quiet : s.completed = k → s.txDone = false ∧ s.pended = 0

structure Inv (s : Ctx) : Prop where
  arrived : s.completed ≤ s.started
  holder : ∀ j, (s.calls j).holds = true → s.mutex = some j
  alone : ∀ j k, (s.calls j).awaits = some k → Alone s k
  waiters : ∀ j k, s.waiters.lookup j = some k → s.calls j = .waiting k
  got : ∀ j k, s.calls j = .clear k → k < s.completed
  leaving : ∀ j r, s.calls j = .unlock r → r.Done s.completed
  returned : Sound s

section Step
variable {s s' : Ctx} {j : Nat}

theorem Return.Done.mono {r : Return} {n n' : Nat} (h : r.Done n) (hn : n ≤ n') : r.Done n' := by
  intro hsync hret
  obtain ⟨k, hk, hlt⟩ := h hsync hret
  exact ⟨k, hk, by omega⟩

theorem Return.done_of_error {r : Return} {n : Nat} (h : r.ret ≠ .success) : r.Done n :=
  fun _ hret => absurd hret h

theorem init_inv (h : s.Init) : Inv s := by
  obtain ⟨_, _, hwaiters, _, hcalls, hstarted, hcompleted, hreturned⟩ := h
  constructor
  case arrived => omega
  case holder =>
    intro j hj
    rw [hcalls j] at hj
    cases hj
  case alone =>
    intro j k hj
    rw [hcalls j] at hj
    cases hj
  case waiters =>
    intro j k hj
    rw [hwaiters] at hj
    cases hj
  case got =>
    intro j k hj
    rw [hcalls j] at hj
    cases hj
  case leaving =>
    intro j r hj
    rw [hcalls j] at hj
    cases hj
  case returned =>
    intro r hr
    rw [hreturned] at hr
    cases hr

@[simp] theorem at_calls_self (s : Ctx) (j : Nat) (pc : Call) : (s.at j pc).calls j = pc := by
  simp [Ctx.at]

theorem at_calls_ne {j' : Nat} (h : j' ≠ j) (pc : Call) : (s.at j pc).calls j' = s.calls j' := by
  simp [Ctx.at, h]

/-- Only one call is past the mutex. -/
theorem Inv.free (h : Inv s) (hj : (s.calls j).holds = true) (j' : Nat) (hne : j' ≠ j) :
    (s.calls j').holds = false := by
  rw [Bool.eq_false_iff]
  intro hj'
  have heq := h.holder j hj
  rw [h.holder j' hj'] at heq
  exact hne (Option.some.inj heq)

theorem holds_of_awaits {c : Call} {k : Nat} (h : c.awaits = some k) : c.holds = true := by
  cases c <;> first | rfl | cases h

/-- What a step of the one call past the mutex has to keep. -/
theorem Inv.move (h : Inv s) (hfree : ∀ j', j' ≠ j → (s.calls j').holds = false) (pc : Call)
    (hcalls : s'.calls = Function.update s.calls j pc)
    (hcompleted : s'.completed = s.completed) (hstarted : s.completed ≤ s'.started)
    (hmutex : pc.holds = true → s'.mutex = some j)
    (halone : ∀ k, pc.awaits = some k → Alone s' k)
    (hwaiters : ∀ k, s'.waiters.lookup j = some k → pc = .waiting k)
    (hothers : ∀ j', j' ≠ j → s'.waiters.lookup j' = s.waiters.lookup j')
    (hgot : ∀ k, pc = .clear k → k < s.completed)
    (hleaving : ∀ r, pc = .unlock r → r.Done s.completed)
    (hreturned : Sound s') : Inv s' := by
  have hself : s'.calls j = pc := by
    rw [hcalls]
    exact Function.update_self j pc s.calls
  have hne : ∀ j', j' ≠ j → s'.calls j' = s.calls j' := by
    intro j' hj'
    rw [hcalls]
    exact Function.update_of_ne hj' pc s.calls
  have hfree' : ∀ j', j' ≠ j → (s'.calls j').holds = false := by
    intro j' hj'
    rw [hne j' hj']
    exact hfree j' hj'
  constructor
  case arrived =>
    rw [hcompleted]
    exact hstarted
  case holder =>
    intro j' hj'
    by_cases hjj : j' = j
    · subst hjj
      rw [hself] at hj'
      exact hmutex hj'
    · rw [hfree' j' hjj] at hj'
      cases hj'
  case alone =>
    intro j' k hk
    by_cases hjj : j' = j
    · subst hjj
      rw [hself] at hk
      exact halone k hk
    · have hj' := holds_of_awaits hk
      rw [hfree' j' hjj] at hj'
      cases hj'
  case waiters =>
    intro j' k hk
    by_cases hjj : j' = j
    · subst hjj
      rw [hself]
      exact hwaiters k hk
    · rw [hothers j' hjj] at hk
      rw [hne j' hjj]
      exact h.waiters j' k hk
  case got =>
    intro j' k hk
    rw [hcompleted]
    by_cases hjj : j' = j
    · subst hjj
      rw [hself] at hk
      exact hgot k hk
    · rw [hne j' hjj] at hk
      exact h.got j' k hk
  case leaving =>
    intro j' r hr
    rw [hcompleted]
    by_cases hjj : j' = j
    · subst hjj
      rw [hself] at hr
      exact hleaving r hr
    · rw [hne j' hjj] at hr
      exact h.leaving j' r hr
  case returned => exact hreturned

/-- A call that does not hold the mutex comes to a place without it. -/
theorem Inv.outside (h : Inv s) (hholds : (s.calls j).holds = false) {pc : Call}
    (hpc : pc.holds = false) {returned : List Return}
    (hreturned : ∀ r ∈ returned, r.Done s.completed) :
    Inv { s.at j pc with returned := returned } := by
  have hcalls : ∀ j', (s.at j pc).calls j' ≠ s.calls j' → j' = j := by
    intro j' hj'
    by_contra hjj
    exact hj' (at_calls_ne hjj pc)
  have hback : ∀ j', ((s.at j pc).calls j').holds = true → (s.at j pc).calls j' = s.calls j' := by
    intro j' hj'
    by_contra hne
    rw [hcalls j' hne, at_calls_self, hpc] at hj'
    cases hj'
  constructor
  case arrived => exact h.arrived
  case holder =>
    intro j' hj'
    rw [hback j' hj'] at hj'
    exact h.holder j' hj'
  case alone =>
    intro j' k hk
    have heq := hback j' (holds_of_awaits hk)
    have hawaits : ((s.at j pc).calls j').awaits = some k := hk
    rw [heq] at hawaits
    have halone := h.alone j' k hawaits
    exact ⟨halone.last, halone.others, halone.quiet⟩
  case waiters =>
    intro j' k hk
    have hwaiting := h.waiters j' k hk
    have hjj : j' ≠ j := by
      rintro rfl
      rw [hwaiting] at hholds
      cases hholds
    exact (at_calls_ne hjj pc).trans hwaiting
  case got =>
    intro j' k hk
    have hclear : (s.at j pc).calls j' = .clear k := hk
    have heq := hback j' (by rw [hclear]; rfl)
    rw [heq] at hclear
    exact h.got j' k hclear
  case leaving =>
    intro j' r hr
    have hunlock : (s.at j pc).calls j' = .unlock r := hr
    have heq := hback j' (by rw [hunlock]; rfl)
    rw [heq] at hunlock
    exact h.leaving j' r hunlock
  case returned => exact hreturned

/-- The call of the holder is not waiting. -/
theorem Inv.waiters_none (h : Inv s) (hj : ∀ k, s.calls j ≠ .waiting k) :
    s.waiters.lookup j = none := by
  cases hlookup : s.waiters.lookup j with
  | none => rfl
  | some k => exact absurd (h.waiters j k hlookup) (hj k)

/-- Nothing is left to show of a step of the holder that leaves the event group and the hardware. -/
theorem Inv.advance (h : Inv s) (hholds : (s.calls j).holds = true)
    (hwait : ∀ k, s.calls j ≠ .waiting k) {pc : Call} (hawaits : pc.awaits = none)
    (hcalls : s'.calls = Function.update s.calls j pc) (hwaiters : s'.waiters = s.waiters)
    (hcompleted : s'.completed = s.completed) (hstarted : s.completed ≤ s'.started)
    (hmutex : s'.mutex = s.mutex) (hreturned : s'.returned = s.returned)
    (hgot : ∀ k, pc = .clear k → k < s.completed)
    (hleaving : ∀ r, pc = .unlock r → r.Done s.completed) : Inv s' := by
  refine h.move (h.free hholds) pc hcalls hcompleted hstarted ?_ ?_ ?_ ?_ hgot hleaving ?_
  · intro _
    rw [hmutex]
    exact h.holder j hholds
  · intro k hk
    rw [hawaits] at hk
    cases hk
  · intro k hk
    rw [hwaiters, h.waiters_none hwait] at hk
    cases hk
  · intro j' _
    rw [hwaiters]
  · intro r hr
    rw [hreturned] at hr
    rw [hcompleted]
    exact h.returned r hr

theorem call_inv {kind : Kind} (h : Inv s) (hs : s.step (.call j kind) = some s') : Inv s' := by
  unfold Ctx.step at hs
  dsimp only at hs
  split at hs
  next hcall =>
    cases hs
    refine h.outside ?_ rfl h.returned
    rw [hcall]
    rfl
  next => cases hs

theorem acquire_inv {ok : Bool} (h : Inv s) (hs : s.step (.acquire j ok) = some s') : Inv s' := by
  unfold Ctx.step at hs
  dsimp only at hs
  split at hs
  next kind hcall =>
    split at hs
    next =>
      split at hs
      next hmutex =>
        cases hs
        have hfree : ∀ j', j' ≠ j → (s.calls j').holds = false := by
          intro j' _
          rw [Bool.eq_false_iff]
          intro hj'
          have hheld := h.holder j' hj'
          rw [hmutex] at hheld
          cases hheld
        have hnone : s.waiters.lookup j = none := by
          refine h.waiters_none fun k hk => ?_
          rw [hcall] at hk
          cases hk
        refine h.move hfree (.dma kind) rfl rfl h.arrived (fun _ => rfl) (fun k hk => (by cases hk))
          ?_ (fun _ _ => rfl) (fun k hk => (by cases hk)) (fun r hr => (by cases hr)) h.returned
        intro k hk
        have hk : s.waiters.lookup j = some k := hk
        rw [hnone] at hk
        cases hk
      next => cases hs
    next =>
      cases hs
      refine h.outside ?_ rfl ?_
      · rw [hcall]
        rfl
      intro r hr
      rcases List.mem_append.mp hr with hr | hr
      · exact h.returned r hr
      · rw [List.mem_singleton.mp hr]
        exact Return.done_of_error nofun
  next => cases hs

/-- A call starts its transfer, or has an error. -/
theorem dma_inv {r : Dma} (h : Inv s) (hs : s.step (.dma j r) = some s')
    (hquiet : r = .started → ∀ ticks, s.calls j = .dma (.sync ticks) →
      s.completed = s.started ∧ s.txDone = false ∧ s.pended = 0) : Inv s' := by
  unfold Ctx.step at hs
  dsimp only at hs
  split at hs
  next kind hcall =>
    cases hs
    have hholds : (s.calls j).holds = true := by
      rw [hcall]
      rfl
    have hwait : ∀ k, s.calls j ≠ .waiting k := by
      intro k hk
      rw [hcall] at hk
      cases hk
    have harrived := h.arrived
    cases r with
    | started =>
      cases kind with
      | sync ticks =>
        obtain ⟨hall, hbit, hpended⟩ := hquiet rfl ticks hcall
        refine h.move (h.free hholds) (.get s.started ticks) rfl rfl (Nat.le_succ_of_le harrived)
          (fun _ => h.holder j hholds) ?_ ?_ (fun _ _ => rfl) (fun k hk => (by cases hk))
          (fun r hr => (by cases hr)) h.returned
        · intro k hk
          cases hk
          exact ⟨rfl, Nat.le_of_eq hall.symm, fun _ => ⟨hbit, hpended⟩⟩
        · intro k hk
          have hk : s.waiters.lookup j = some k := hk
          rw [h.waiters_none hwait] at hk
          cases hk
      | async =>
        refine h.advance hholds hwait rfl rfl rfl rfl (Nat.le_succ_of_le harrived) rfl rfl nofun ?_
        intro r hr
        cases hr
        exact fun hsync => (by cases hsync)
    | invalidParam =>
      refine h.advance hholds hwait rfl rfl rfl rfl harrived rfl rfl nofun ?_
      intro r hr
      cases hr
      exact Return.done_of_error nofun
    | timeout part =>
      refine h.advance hholds hwait rfl rfl rfl rfl ?_ rfl rfl nofun ?_
      · have hge : s.started ≤ if part then s.started + 1 else s.started := by
          split <;> omega
        exact Nat.le_trans harrived hge
      · intro r hr
        cases hr
        exact Return.done_of_error nofun
  next => cases hs

/-- The one call past the mutex gets the bit, so its transfer is complete. -/
theorem Inv.take_bit {k : Nat} (h : Inv s) (hawaits : (s.calls j).awaits = some k)
    (hwait : ∀ k, s.calls j ≠ .waiting k) (hbit : s.txDone = true) :
    Inv { s.at j (.clear k) with txDone := false } := by
  have halone := h.alone j k hawaits
  refine h.advance (holds_of_awaits hawaits) hwait rfl rfl rfl rfl h.arrived rfl rfl ?_ nofun
  intro k' hk'
  cases hk'
  by_contra hlt
  have hothers := halone.others
  have hquiet := (halone.quiet (by omega)).1
  rw [hbit] at hquiet
  cases hquiet

/-- The call gives up. -/
theorem Inv.give_up {k : Nat} (h : Inv s) (hholds : (s.calls j).holds = true)
    (hwait : ∀ k, s.calls j ≠ .waiting k) :
    Inv (s.at j (.unlock ⟨true, .timeout, some k⟩)) := by
  refine h.advance hholds hwait rfl rfl rfl rfl h.arrived rfl rfl nofun ?_
  intro r hr
  cases hr
  exact Return.done_of_error nofun

theorem go_inv (h : Inv s) (hs : s.step (.go j) = some s') : Inv s' := by
  have hs : goCall s j = some s' := hs
  unfold goCall at hs
  split at hs
  next k ticks hcall =>
    have hawaits : (s.calls j).awaits = some k := by
      rw [hcall]
      rfl
    have hwait : ∀ k, s.calls j ≠ .waiting k := by
      intro k hk
      rw [hcall] at hk
      cases hk
    have halone := h.alone j k hawaits
    have hholds := holds_of_awaits hawaits
    split at hs
    next hbit =>
      cases hs
      exact h.take_bit hawaits hwait hbit
    next =>
      split at hs
      next =>
        cases hs
        exact h.give_up hholds hwait
      next =>
        cases hs
        refine h.move (h.free hholds) (.waiting k) rfl rfl h.arrived (fun _ => h.holder j hholds)
          ?_ ?_ ?_ nofun nofun h.returned
        · intro k' hk'
          cases hk'
          exact ⟨halone.last, halone.others, halone.quiet⟩
        · intro k' hk'
          have hk' : ((j, k) :: s.waiters).lookup j = some k' := hk'
          rw [List.lookup_cons_self] at hk'
          cases hk'
          rfl
        · intro j' hj'
          show ((j, k) :: s.waiters).lookup j' = s.waiters.lookup j'
          rw [List.lookup_cons, beq_false_of_ne hj']
  next k hcall =>
    have hawaits : (s.calls j).awaits = some k := by
      rw [hcall]
      rfl
    have hwait : ∀ k, s.calls j ≠ .waiting k := by
      intro k hk
      rw [hcall] at hk
      cases hk
    split at hs
    next hbit =>
      cases hs
      exact h.take_bit hawaits hwait hbit
    next =>
      cases hs
      exact h.give_up (holds_of_awaits hawaits) hwait
  next k hcall =>
    cases hs
    have hholds : (s.calls j).holds = true := by
      rw [hcall]
      rfl
    have hwait : ∀ k, s.calls j ≠ .waiting k := by
      intro k hk
      rw [hcall] at hk
      cases hk
    refine h.advance hholds hwait rfl rfl rfl rfl h.arrived rfl rfl nofun ?_
    intro r hr
    cases hr
    exact fun _ _ => ⟨k, rfl, h.got j k hcall⟩
  next r hcall =>
    cases hs
    have hholds : (s.calls j).holds = true := by
      rw [hcall]
      rfl
    have hnone : s.waiters.lookup j = none := by
      refine h.waiters_none fun k hk => ?_
      rw [hcall] at hk
      cases hk
    refine h.move (h.free hholds) .idle rfl rfl h.arrived nofun nofun ?_ (fun _ _ => rfl) nofun nofun
      ?_
    · intro k hk
      have hk : s.waiters.lookup j = some k := hk
      rw [hnone] at hk
      cases hk
    · intro r' hr'
      rcases List.mem_append.mp hr' with hr' | hr'
      · exact h.returned r' hr'
      · rw [List.mem_singleton.mp hr']
        exact h.leaving j r hcall
  next => cases hs

theorem lookup_filter_ne (l : List (Nat × Nat)) (j : Nat) :
    (l.filter fun w => w.1 ≠ j).lookup j = none := by
  rw [List.lookup_eq_none_iff]
  intro w hw
  have hne := (List.mem_filter.mp hw).2
  have hne : w.1 ≠ j := of_decide_eq_true hne
  exact bne_iff_ne.mpr hne.symm

theorem lookup_filter_of_ne (l : List (Nat × Nat)) {j j' : Nat} (h : j' ≠ j) :
    (l.filter fun w => w.1 ≠ j).lookup j' = l.lookup j' := by
  induction l with
  | nil => rfl
  | cons w l ih =>
    by_cases hw : w.1 = j
    · rw [List.filter_cons_of_neg (by simpa using hw), ih, List.lookup_cons,
        beq_false_of_ne (hw ▸ h)]
    · rw [List.filter_cons_of_pos (by simpa using hw), List.lookup_cons, List.lookup_cons, ih]

theorem expire_inv (h : Inv s) (hs : s.step (.expire j) = some s') : Inv s' := by
  unfold Ctx.step at hs
  dsimp only at hs
  split at hs
  next k hcall =>
    cases hs
    have hawaits : (s.calls j).awaits = some k := by
      rw [hcall]
      rfl
    have halone := h.alone j k hawaits
    have hholds := holds_of_awaits hawaits
    refine h.move (h.free hholds) (.expired k) rfl rfl h.arrived (fun _ => h.holder j hholds) ?_ ?_ ?_
      nofun nofun h.returned
    · intro k' hk'
      cases hk'
      exact ⟨halone.last, halone.others, halone.quiet⟩
    · intro k' hk'
      have hk' : (s.waiters.filter fun w => w.1 ≠ j).lookup j = some k' := hk'
      rw [lookup_filter_ne] at hk'
      cases hk'
    · intro j' hj'
      exact lookup_filter_of_ne s.waiters hj'
  next => cases hs

theorem interrupt_inv {room : Bool} (h : Inv s) (hs : s.step (.interrupt room) = some s') :
    Inv s' := by
  unfold Ctx.step at hs
  dsimp only at hs
  split at hs
  next hlt =>
    cases hs
    constructor
    case arrived => exact hlt
    case holder => exact h.holder
    case alone =>
      intro j k hk
      have halone := h.alone j k hk
      have hlast := halone.last
      have hothers := halone.others
      -- the only transfer that can complete is the call's own
      refine ⟨hlast, Nat.le_succ_of_le hothers, fun heq => ?_⟩
      have heq : s.completed + 1 = k := heq
      omega
    case waiters => exact h.waiters
    case got => exact fun j k hk => Nat.lt_succ_of_lt (h.got j k hk)
    case leaving => exact fun j r hr => (h.leaving j r hr).mono (Nat.le_succ _)
    case returned => exact fun r hr => (h.returned r hr).mono (Nat.le_succ _)
  next => cases hs

theorem timerTask_inv (h : Inv s) (hs : s.step .timerTask = some s') : Inv s' := by
  unfold Ctx.step at hs
  dsimp only at hs
  split at hs
  next hpended =>
    cases hs
    -- a setting is left only once the transfer of a call that awaits the bit is complete
    have hdone : ∀ j k, (s.calls j).awaits = some k → k < s.completed := by
      intro j k hk
      have halone := h.alone j k hk
      have hothers := halone.others
      by_contra hlt
      have hquiet := (halone.quiet (by omega)).2
      omega
    have halone : ∀ j k, (s.calls j).awaits = some k → ∀ s' : Ctx, s'.started = s.started →
        s'.completed = s.completed → Alone s' k := by
      intro j k hk s' hstarted hcompleted
      have hlt := hdone j k hk
      refine ⟨?_, ?_, fun heq => ?_⟩
      · rw [hstarted]
        exact (h.alone j k hk).last
      · omega
      · omega
    unfold setTxDone
    dsimp only
    split
    next =>
      exact ⟨h.arrived, h.holder, fun j k hk => halone j k hk _ rfl rfl, h.waiters, h.got, h.leaving,
        h.returned⟩
    next =>
      constructor
      case arrived => exact h.arrived
      case holder =>
        intro j hj
        dsimp only at hj
        split at hj
        next k hk =>
          refine h.holder j ?_
          rw [h.waiters j k hk]
          rfl
        next => exact h.holder j hj
      case alone =>
        intro j k hk
        dsimp only at hk
        split at hk
        next => cases hk
        next => exact halone j k hk _ rfl rfl
      case waiters => exact fun j k hk => (by cases hk)
      case got =>
        intro j k hk
        dsimp only at hk
        split at hk
        next k' hk' =>
          cases hk
          refine hdone j k ?_
          rw [h.waiters j k hk']
          rfl
        next => exact h.got j k hk
      case leaving =>
        intro j r hr
        dsimp only at hr
        split at hr
        next => cases hr
        next => exact h.leaving j r hr
      case returned => exact h.returned
  next => cases hs

end Step

theorem step_inv {w w' : Driver → Ctx} {e : Driver × Event} (h : ∀ d, Inv (w d))
    (hok : quietStart w e) (hs : step w e = some w') (d : Driver) : Inv (w' d) := by
  obtain ⟨d', e⟩ := e
  obtain ⟨s', hs', rfl⟩ := Option.map_eq_some_iff.mp hs
  by_cases hd : d = d'
  · subst hd
    rw [Function.update_self]
    have hinv := h d
    cases e with
    | call j kind => exact call_inv hinv hs'
    | acquire j ok => exact acquire_inv hinv hs'
    | dma j r =>
      refine dma_inv hinv hs' fun hr ticks hcall => ?_
      subst hr
      have hquiet : quietStart w (d, .dma j .started) := hok
      unfold quietStart at hquiet
      dsimp only at hquiet
      rw [hcall] at hquiet
      exact hquiet
    | go j => exact go_inv hinv hs'
    | expire j => exact expire_inv hinv hs'
    | interrupt room => exact interrupt_inv hinv hs'
    | timerTask => exact timerTask_inv hinv hs'
  · rw [Function.update_of_ne hd]
    exact h d

/-- Where synchronous calls start with nothing left of earlier transfers, they return success only
after the completion interrupt of their own. -/
theorem sync_waits_own {w : Driver → Ctx} (h : Reached Init step quietStart w) (d : Driver) :
    Sound (w d) := by
  have hinv : ∀ d, Inv (w d) :=
    h.invariant (fun _ hw d => init_inv (hw d)) fun _ _ _ hw hok hs => step_inv hw hok hs
  exact (hinv d).returned

section Example

def idleCtx : Ctx := ⟨none, false, [], 0, fun _ => .idle, 0, 0, []⟩

def fresh : Driver → Ctx := fun _ => idleCtx

theorem fresh_init : Init fresh := fun _ => ⟨rfl, rfl, rfl, rfl, fun _ => rfl, rfl, rfl, rfl⟩

/-- A call of task 0 up to the start of its transfer. -/
def startRun (kind : Kind) : List Event := [.call 0 kind, .acquire 0 true, .dma 0 .started]

def syncRun : List Event :=
  startRun (.sync 10) ++ [.go 0, .interrupt true, .timerTask, .go 0, .go 0]

/-- One synchronous transmission on the HSPI slave. -/
theorem sync_waits_own_one :
    ∃ w, exec step fresh (syncRun.map (Prod.mk .hspi)) = some w ∧
      (w .hspi).returned = [⟨true, .success, some 0⟩] ∧ Sound (w .hspi) := by
  generalize hes : syncRun.map (Prod.mk Driver.hspi) = es
  have hrun : (exec step fresh es).map (fun w => (w .hspi).returned) =
      some [⟨true, .success, some 0⟩] := by
    rw [← hes]
    decide +kernel
  have halong : Along step quietStart fresh es := by
    rw [← hes]
    refine ⟨trivial, fun w₁ h₁ => ?_⟩
    cases h₁
    refine ⟨trivial, fun w₂ h₂ => ?_⟩
    cases h₂
    refine ⟨⟨rfl, rfl, rfl⟩, fun w₃ h₃ => ?_⟩
    cases h₃
    refine ⟨trivial, fun w₄ _ => ⟨trivial, fun w₅ _ => ⟨trivial, fun w₆ _ => ⟨trivial, fun w₇ _ =>
      ⟨trivial, fun w₈ _ => trivial⟩⟩⟩⟩⟩
  obtain ⟨w, hw, hreturned⟩ := Option.map_eq_some_iff.mp hrun
  exact ⟨w, hw, hreturned, sync_waits_own (.of_exec (.start fresh_init) halong hw) .hspi⟩

/-- The bit of an asynchronous transfer ends the wait of the synchronous call that follows it. -/
def earlyRun : List Event :=
  startRun .async ++ [.go 0, .interrupt true, .timerTask] ++ startRun (.sync 10) ++
    [.go 0, .go 0, .go 0]

/-- A synchronous call returned success with the transfer before its own the last one complete. -/
def ReturnsEarly (d : Driver) : Prop :=
  ∃ w, Reached Init step anyStep w ∧ (w d).returned = [⟨false, .success, some 0⟩, ⟨true, .success, some 1⟩] ∧
    (w d).completed = 1 ∧ ¬ Sound (w d)

theorem returnsEarly (d : Driver) : ReturnsEarly d := by
  have hrun : (exec step fresh (earlyRun.map (Prod.mk d))).map
      (fun w => ((w d).returned, (w d).completed)) =
        some ([⟨false, .success, some 0⟩, ⟨true, .success, some 1⟩], 1) := by
    cases d <;> decide +kernel
  obtain ⟨w, hw, heq⟩ := Option.map_eq_some_iff.mp hrun
  obtain ⟨hreturned, hcompleted⟩ := Prod.mk.inj heq
  refine ⟨w, .of_exec (.start fresh_init) (along_anyStep _ _) hw, hreturned, hcompleted, ?_⟩
  intro h
  have hmem : (⟨true, .success, some 1⟩ : Return) ∈ (w d).returned := by
    rw [hreturned]
    exact List.mem_cons_of_mem _ (List.mem_singleton_self _)
  obtain ⟨k, hk, hlt⟩ := h _ hmem rfl rfl
  cases hk
  omega

theorem sync_returns_early : ReturnsEarly .hspi ∧ ReturnsEarly .sdio :=
  ⟨returnsEarly .hspi, returnsEarly .sdio⟩

end Example

end WmIot.Slave
