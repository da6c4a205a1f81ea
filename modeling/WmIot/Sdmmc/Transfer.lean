import WmIot.Lib.Transition
import WmIot.Sdmmc.Capacity

/-!
# Block transfers of an SD card

`wm_drv_ops_sdh_sdmmc_read_blocks` and `_write_blocks` step by step. The hardware tells of the transfers that
were started at any time, also when nobody waits any more: its interrupt writes the one event record and
releases the counting semaphore. An error code is given by its amount: all codes but success are negative.
-/

namespace WmIot.Sdmmc
open Transition
set_option autoImplicit false

/-- `wm_hal_sdh_evt_type_t` -/
inductive EvtType where
  | readDone
  | readErr
  | writeDone
  | writeErr
  | max
deriving DecidableEq, Repr

/-- The event that the interrupt tells of, by the direction of the buffer. -/
def EvtType.of : Dir → Bool → EvtType
  | .read, false => .readDone
  | .read, true => .readErr
  | .write, false => .writeDone
  | .write, true => .writeErr

/-- How a command goes: what the HAL returns, and the first two words of the response. -/
structure Answer where
  err : Nat
  rsp0 : BitVec 32
  rsp1 : BitVec 32
deriving DecidableEq, Repr

/-- The check that follows each command, as the amount of the code. -/
def Answer.check (a : Answer) (cmd : Nat) : Nat :=
  if a.err ≠ 0 then a.err else if (a.rsp1 &&& 0xFF).toNat ≠ cmd then 1 else 0

/-- `current_state` -/
def Answer.state (a : Answer) : Nat := (a.rsp0 >>> 9 &&& 0xF).toNat

/-- `error_state` -/
def Answer.error (a : Answer) : Bool := decide ((a.rsp0 >>> 19 &&& 0x1).toNat ≠ 0)

inductive Pc where
  | idle
  | request
  | xfer
  | acquire
  /-- the comparisons of `evt.type`, one after the other -/
  | look (k : Fin 4)
  | stop
  | status
  | reset
  | release
deriving DecidableEq, Repr

/-- A call, with what is known of it at last. -/
structure Call where
  dir : Dir
  numBlocks : BitVec 32
  /-- which transfer is its own -/
  id : Nat
  ret : Int
  /-- a channel was obtained -/
  dma : Bool
  /-- so far every command was answered correctly -/
  answered : Bool
  /-- the card has said that it is in the transfer state -/
  ready : Bool
deriving DecidableEq, Repr

structure Return where
  ret : Int
  dma : Bool
  answered : Bool
  /-- the done event of its own transfer has arrived -/
  done : Bool
  ready : Bool
deriving DecidableEq, Repr

structure St where
  info : CardInfo
  pc : Pc
  call : Call
  /-- the count of `evt_sem` -/
  sem : Nat
  /-- `evt.type` -/
  evt : EvtType
  /-- the transfer that it tells of -/
  evtOf : Option Nat
  /-- `buf_access_dir` -/
  bufDir : Dir
  /-- transfers started -/
  started : Nat
  /-- transfers whose done event has arrived -/
  arrived : List Nat
  /-- channels obtained and not released -/
  held : Nat
  returned : List Return
deriving DecidableEq, Repr

inductive Ev where
  /-- a call, whose arguments may be NULL and whose mutex may fail -/
  | call (dir : Dir) (buf : Bool) (startBlock numBlocks : BitVec 32) (lock : Bool)
  /-- `wm_drv_dma_request_ch` -/
  | request (err : Nat)
  /-- `wm_hal_sdh_xfer_dma` and the check of its response -/
  | xfer (a : Answer)
  | acquired
  /-- the wait fails or times out -/
  | expired
  | look
  /-- `wm_drv_sdh_sdmmc_card_stop_trans` -/
  | stop (a : Answer)
  /-- `wm_drv_sdh_sdmmc_card_get_status`, and the time since the first -/
  | status (a : Answer) (deltaMs : Nat)
  | reset
  | release
  /-- the hardware is done with a transfer, or gives it up -/
  | raise (id : Nat) (err : Bool)
deriving DecidableEq, Repr

def St.setRet (s : St) (ret : Int) (pc : Pc) : St := { s with pc := pc, call := { s.call with ret := ret } }

/-- A command whose check gives `err` is added to the result. -/
def St.answer (s : St) (err : Nat) : St :=
  { s with call := { s.call with
    ret := s.call.ret - err, answered := s.call.answered && decide (err = 0) } }

/-- What follows the event: the transmission of several blocks is stopped. -/
def St.afterEvent (s : St) (ret : Int) : St := s.setRet ret (if 1 < s.call.numBlocks.toNat then .stop else .status)

/-- The comparisons in `wm_drv_sdh_sdmmc_wait_ready`: `ret` is success at first. -/
def St.look (s : St) : Fin 4 → St
  | 0 => if s.evt = .readDone then s.afterEvent 0 else { s with pc := .look 1 }
  | 1 => if s.evt = .writeDone then s.afterEvent 0 else { s with pc := .look 2 }
  | 2 => if s.evt = .readErr then s.afterEvent (-1) else { s with pc := .look 3 }
  | 3 => if s.evt = .writeErr then s.afterEvent (-1) else s.afterEvent 0

/-- `WM_DRV_OPS_SDH_SDMMC_READY_TIMEOUT` -/
def readyTimeout : Nat := 300

/-- One turn of the loop that waits for the transfer state. -/
def St.poll (s : St) (a : Answer) (deltaMs : Nat) : St :=
  let s := s.answer (a.check 13)
  if s.call.ret ≠ 0 then { s with pc := .reset }
  else if a.error then s.setRet (-1) .reset
  else if readyTimeout < deltaMs then s.setRet (-5) .reset
  else if a.state ≠ 4 then s
  else { s with pc := .reset, call := { s.call with ready := true } }

/-- The call returns. -/
def St.leave (s : St) (ret : Int) : St :=
  { s with
    pc := .idle
    returned := ⟨ret, s.call.dma, s.call.answered, s.arrived.contains s.call.id, s.call.ready⟩ :: s.returned }

def step (s : St) : Ev → Option St
  | .call dir buf startBlock numBlocks lock =>
    if s.pc ≠ .idle then none
    else
      let s := { s with call := ⟨dir, numBlocks, s.started, 0, false, true, false⟩ }
      if !buf || !inRange s.info startBlock numBlocks then some (s.leave (-3))
      else if !lock then some (s.leave (-1))
      else some { s with pc := .request }
  | .request err =>
    if s.pc ≠ .request then none
    else if err ≠ 0 then some { s with pc := .release }
    else some { s with pc := .xfer, call := { s.call with dma := true }, held := s.held + 1 }
  | .xfer a =>
    if s.pc ≠ .xfer then none
    else
      let s := { s with bufDir := s.call.dir, started := s.started + 1 }
      let s := s.answer (a.check (cmdId s.call.dir s.call.numBlocks))
      some { s with pc := if s.call.ret ≠ 0 then .release else .acquire }
  | .acquired =>
    if s.pc ≠ .acquire ∨ s.sem = 0 then none else some { s with sem := s.sem - 1, pc := .look 0 }
  | .expired => if s.pc ≠ .acquire then none else some (s.afterEvent (-5))
  | .look =>
    match s.pc with
    | .look k => some (s.look k)
    | _ => none
  | .stop a =>
    if s.pc ≠ .stop then none
    else
      let s := s.answer (a.check 12)
      some { s with pc := if s.call.ret ≠ 0 then .release else .status }
  | .status a deltaMs => if s.pc ≠ .status then none else some (s.poll a deltaMs)
  | .reset => if s.pc ≠ .reset then none else some { s with evt := .max, evtOf := none, pc := .release }
  | .release =>
    if s.pc ≠ .release then none
    else some ({ s with held := if s.call.dma then s.held - 1 else s.held }.leave s.call.ret)
  | .raise id err =>
    if s.started ≤ id then none
    else some { s with
      sem := s.sem + 1
      evt := .of s.bufDir err
      evtOf := some id
      arrived := if err then s.arrived else id :: s.arrived }

/-- After the initialisation -/
def St.Init (s : St) : Prop :=
  s.pc = .idle ∧ s.sem = 0 ∧ s.evt = .max ∧ s.evtOf = none ∧ s.started = 0 ∧ s.arrived = [] ∧ s.held = 0 ∧
    s.returned = []

/-- Success is only returned with a channel, all commands answered, its own done event and the card ready. -/
def Return.Truthful (r : Return) : Prop := r.ret = 0 → r.dma ∧ r.answered ∧ r.done ∧ r.ready

/-- Calls report truthfully, and between calls no channel is held. -/
def Sound (s : St) : Prop := (∀ r ∈ s.returned, r.Truthful) ∧ (s.pc = .idle → s.held = 0)

/-- A channel is there when one is requested, and the event record that a call looks at tells of its own
transfer. -/
def Fresh (s : St) : Ev → Prop
  | .request err => err = 0
  | .look => s.evtOf = some s.call.id
  | _ => True

instance (s : St) (e : Ev) : Decidable (Fresh s e) := by
  cases e <;> simp only [Fresh] <;> infer_instance

/-! ## What holds in between -/

/-- The transfer of the call is the last one that was started. -/
structure Started (s : St) : Prop where
  held : s.held = 1
  dma : s.call.dma = true
  answered : s.call.answered = true
  last : s.call.id + 1 = s.started
  bufDir : s.bufDir = s.call.dir

/-- What holds where a call is. -/
def Stage (s : St) : Pc → Prop
  | .idle => s.held = 0
  | .request => s.held = 0 ∧ s.call.id = s.started ∧ s.call.dma = false ∧ s.call.answered = true ∧ s.call.ret = 0
  | .xfer => s.held = 1 ∧ s.call.id = s.started ∧ s.call.dma = true ∧ s.call.answered = true ∧ s.call.ret = 0
  | .acquire => Started s
  | .look k => Started s ∧ (k = 3 → s.call.dir = .read → s.call.id ∈ s.arrived)
  | .stop | .status => Started s ∧ s.call.ret ≤ 0 ∧ (s.call.ret = 0 → s.call.id ∈ s.arrived)
  | .reset => s.held = 1 ∧ s.call.dma = true ∧
      (s.call.ret = 0 → s.call.answered = true ∧ s.call.id ∈ s.arrived ∧ s.call.ready = true)
  | .release => (s.held = if s.call.dma then 1 else 0) ∧
      (s.call.ret = 0 → s.call.dma = true ∧ s.call.answered = true ∧ s.call.id ∈ s.arrived ∧ s.call.ready = true)

/-- The record is that of an event of a started transfer; its done event has then arrived. -/
def Recorded (s : St) : Prop := ∀ id, s.evtOf = some id → ∃ dir err, s.evt = .of dir err ∧ id < s.started ∧
  (err = false → id ∈ s.arrived) ∧ (id + 1 = s.started → dir = s.bufDir)

structure Inv (s : St) : Prop where
  truthful : ∀ r ∈ s.returned, r.Truthful
  recorded : Recorded s
  stage : Stage s s.pc

theorem init_inv {s : St} (h : s.Init) : Inv s := by
  obtain ⟨hpc, -, -, hof, -, -, hheld, hret⟩ := h
  refine ⟨by simp [hret], fun id hid => ?_, by rw [hpc]; exact hheld⟩
  rw [hof] at hid
  cases hid

theorem check_cases (a : Answer) (cmd : Nat) : a.check cmd = 0 ∨ 0 < a.check cmd := Nat.eq_zero_or_pos _

/-- A call that returns `ret` reports truthfully, if it does so about this call. -/
theorem Inv.leave {s : St} {ret : Int} (htrue : ∀ r ∈ s.returned, r.Truthful) (hrec : Recorded s) (hheld : s.held = 0)
    (h : ret = 0 → s.call.dma = true ∧ s.call.answered = true ∧ s.call.id ∈ s.arrived ∧ s.call.ready = true) :
    Inv (s.leave ret) := by
  refine ⟨fun r hr => ?_, hrec, hheld⟩
  rcases List.mem_cons.mp hr with rfl | hr
  · intro hzero
    obtain ⟨hdma, hans, hdone, hready⟩ := h hzero
    exact ⟨hdma, hans, List.contains_iff_mem.mpr hdone, hready⟩
  · exact htrue r hr

/-- After the event the call goes on with its result. -/
theorem Inv.afterEvent {s : St} {ret : Int} (h : Inv s) (hst : Started s) (hle : ret ≤ 0)
    (hdone : ret = 0 → s.call.id ∈ s.arrived) : Inv (s.afterEvent ret) := by
  refine ⟨h.truthful, h.recorded, ?_⟩
  rw [St.afterEvent, St.setRet]
  split
  · exact ⟨⟨hst.held, hst.dma, hst.answered, hst.last, hst.bufDir⟩, hle, hdone⟩
  · exact ⟨⟨hst.held, hst.dma, hst.answered, hst.last, hst.bufDir⟩, hle, hdone⟩

/-- The comparisons of a record that is its own. -/
theorem Inv.look {s : St} (h : Inv s) {k : Fin 4} (hpc : s.pc = .look k) (hown : s.evtOf = some s.call.id) :
    Inv (s.look k) := by
  have hstage := h.stage
  rw [hpc] at hstage
  obtain ⟨hst, hread⟩ := hstage
  obtain ⟨dir, err, hevt, -, hdone, hdir⟩ := h.recorded _ hown
  obtain rfl : dir = s.call.dir := (hdir hst.last).trans hst.bufDir
  have hmove : ∀ k' : Fin 4, (k' = 3 → s.call.dir = .read → s.call.id ∈ s.arrived) → Inv { s with pc := .look k' } :=
    fun k' hk' => ⟨h.truthful, h.recorded, ⟨hst.held, hst.dma, hst.answered, hst.last, hst.bufDir⟩, hk'⟩
  have hsucc : err = false → Inv (s.afterEvent 0) := fun herr => h.afterEvent hst le_rfl fun _ => hdone herr
  have hfail : Inv (s.afterEvent (-1)) := h.afterEvent hst (by decide) fun hzero => absurd hzero (by decide)
  match k with
  | 0 =>
    rw [St.look]
    split
    next heq =>
      refine hsucc ?_
      rw [hevt] at heq
      cases hd : s.call.dir <;> cases err <;> simp_all [EvtType.of]
    next => exact hmove 1 fun h => absurd h (by decide)
  | 1 =>
    rw [St.look]
    split
    next heq =>
      refine hsucc ?_
      rw [hevt] at heq
      cases hd : s.call.dir <;> cases err <;> simp_all [EvtType.of]
    next => exact hmove 2 fun h => absurd h (by decide)
  | 2 =>
    rw [St.look]
    split
    next => exact hfail
    next hne =>
      refine hmove 3 fun _ hd => hdone ?_
      rw [hevt, hd] at hne
      cases err
      · rfl
      · exact absurd rfl hne
  | 3 =>
    rw [St.look]
    split
    next => exact hfail
    next hne =>
      refine h.afterEvent hst le_rfl fun _ => ?_
      cases hd : s.call.dir with
      | read => exact hread rfl hd
      | write =>
        rw [hevt, hd] at hne
        apply hdone
        cases err
        · rfl
        · exact absurd rfl hne

/-- A turn of the loop that waits for the card. -/
theorem Inv.poll {s : St} (h : Inv s) (hpc : s.pc = .status) (a : Answer) (deltaMs : Nat) : Inv (s.poll a deltaMs) := by
  have hstage := h.stage
  rw [hpc] at hstage
  obtain ⟨hst, hle, hdone⟩ := hstage
  have hreset : ∀ call : Call, call.dma = true →
      (call.ret = 0 → call.answered = true ∧ call.id ∈ s.arrived ∧ call.ready = true) →
      Inv { s with pc := .reset, call := call } :=
    fun call hdma hret => ⟨h.truthful, h.recorded, hst.held, hdma, hret⟩
  unfold St.poll
  dsimp only
  split
  next hne => exact hreset _ hst.dma fun hzero => absurd hzero hne
  next heq =>
    have hzero : s.call.ret = 0 ∧ a.check 13 = 0 := by
      simp only [St.answer, ne_eq, not_not] at heq
      omega
    have hans : (s.answer (a.check 13)).call.answered = true := by
      simp [St.answer, hst.answered, hzero.2]
    split
    · exact hreset _ hst.dma fun hzero => absurd hzero (by decide : ¬ (-1 : Int) = 0)
    split
    · exact hreset _ hst.dma fun hzero => absurd hzero (by decide : ¬ (-5 : Int) = 0)
    split
    · refine ⟨h.truthful, h.recorded, ?_⟩
      rw [show (s.answer (a.check 13)).pc = .status from hpc]
      exact ⟨⟨hst.held, hst.dma, hans, hst.last, hst.bufDir⟩, le_of_eq (not_not.mp heq), fun _ => hdone hzero.1⟩
    · exact hreset _ hst.dma fun _ => ⟨hans, hdone hzero.1, rfl⟩

/-- The hardware tells of a transfer. -/
theorem Inv.raise {s : St} (h : Inv s) {id : Nat} (hid : id < s.started) (err : Bool) : Inv { s with
    sem := s.sem + 1
    evt := .of s.bufDir err
    evtOf := some id
    arrived := if err then s.arrived else id :: s.arrived } := by
  have hsub : ∀ i ∈ s.arrived, i ∈ if err then s.arrived else id :: s.arrived := by
    intro i hi
    split
    · exact hi
    · exact List.mem_cons_of_mem _ hi
  refine ⟨h.truthful, fun i hi => ?_, ?_⟩
  · obtain rfl := Option.some.inj hi
    refine ⟨s.bufDir, err, rfl, hid, fun herr => ?_, fun _ => rfl⟩
    rw [if_neg (by simp [herr])]
    exact List.mem_cons_self
  · have hstage := h.stage
    revert hstage
    generalize s.pc = pc
    intro hstage
    cases pc with
    | idle => exact hstage
    | request => exact hstage
    | xfer => exact hstage
    | acquire => exact ⟨hstage.held, hstage.dma, hstage.answered, hstage.last, hstage.bufDir⟩
    | look k =>
      obtain ⟨hst, hread⟩ := hstage
      exact ⟨⟨hst.held, hst.dma, hst.answered, hst.last, hst.bufDir⟩, fun hk hd => hsub _ (hread hk hd)⟩
    | stop =>
      obtain ⟨hst, hle, hdone⟩ := hstage
      exact ⟨⟨hst.held, hst.dma, hst.answered, hst.last, hst.bufDir⟩, hle, fun hz => hsub _ (hdone hz)⟩
    | status =>
      obtain ⟨hst, hle, hdone⟩ := hstage
      exact ⟨⟨hst.held, hst.dma, hst.answered, hst.last, hst.bufDir⟩, hle, fun hz => hsub _ (hdone hz)⟩
    | reset =>
      obtain ⟨hheld, hdma, hret⟩ := hstage
      exact ⟨hheld, hdma, fun hz => ⟨(hret hz).1, hsub _ (hret hz).2.1, (hret hz).2.2⟩⟩
    | release =>
      obtain ⟨hheld, hret⟩ := hstage
      exact ⟨hheld, fun hz => ⟨(hret hz).1, (hret hz).2.1, hsub _ (hret hz).2.2.1, (hret hz).2.2.2⟩⟩

theorem step_inv {s : St} {e : Ev} {s' : St} (h : Inv s) (hfresh : Fresh s e) (hstep : step s e = some s') :
    Inv s' := by
  have hstage := h.stage
  cases e with
  | call dir buf startBlock numBlocks lock =>
    simp only [step] at hstep
    split at hstep
    · cases hstep
    next hpc =>
      rw [not_not.mp hpc] at hstage
      split at hstep
      · cases hstep
        exact Inv.leave h.truthful h.recorded hstage fun hz => absurd hz (by decide)
      split at hstep
      · cases hstep
        exact Inv.leave h.truthful h.recorded hstage fun hz => absurd hz (by decide)
      · cases hstep
        exact ⟨h.truthful, h.recorded, hstage, rfl, rfl, rfl, rfl⟩
  | request err =>
    obtain rfl : err = 0 := hfresh
    simp only [step] at hstep
    split at hstep
    · cases hstep
    next hpc =>
      rw [not_not.mp hpc] at hstage
      obtain ⟨hheld, hid, -, hans, hret⟩ := hstage
      cases hstep
      exact ⟨h.truthful, h.recorded, congrArg (· + 1) hheld, hid, rfl, hans, hret⟩
  | xfer a =>
    simp only [step] at hstep
    split at hstep
    · cases hstep
    next hpc =>
      rw [not_not.mp hpc] at hstage
      obtain ⟨hheld, hid, hdma, hans, hret⟩ := hstage
      cases hstep
      refine ⟨h.truthful, fun i hi => ?_, ?_⟩
      · -- an older event is not of the new transfer
        obtain ⟨dir, err, hevt, hlt, hdone, -⟩ := h.recorded i hi
        exact ⟨dir, err, hevt, Nat.lt_succ_of_lt hlt, hdone, fun heq => absurd (Nat.succ.inj heq) hlt.ne⟩
      · simp only [St.answer, hret, hans]
        generalize a.check (cmdId s.call.dir s.call.numBlocks) = err
        by_cases hzero : err = 0
        · subst hzero
          exact ⟨hheld, hdma, rfl, congrArg (· + 1) hid, rfl⟩
        · rw [if_pos (by omega)]
          refine ⟨by simp [hheld, hdma], fun hz => ?_⟩
          dsimp only at hz
          omega
  | acquired =>
    simp only [step] at hstep
    split at hstep
    · cases hstep
    next hpc =>
      obtain ⟨hpc, -⟩ := not_or.mp hpc
      rw [not_not.mp hpc] at hstage
      cases hstep
      exact ⟨h.truthful, h.recorded, ⟨hstage.held, hstage.dma, hstage.answered, hstage.last, hstage.bufDir⟩,
        fun hk => absurd hk (by decide)⟩
  | expired =>
    simp only [step] at hstep
    split at hstep
    · cases hstep
    next hpc =>
      rw [not_not.mp hpc] at hstage
      cases hstep
      exact h.afterEvent hstage (by decide) fun hz => absurd hz (by decide)
  | look =>
    simp only [step] at hstep
    split at hstep
    next k hpc =>
      cases hstep
      exact h.look hpc hfresh
    next => cases hstep
  | stop a =>
    simp only [step] at hstep
    split at hstep
    · cases hstep
    next hpc =>
      rw [not_not.mp hpc] at hstage
      obtain ⟨hst, hle, hdone⟩ := hstage
      cases hstep
      refine ⟨h.truthful, h.recorded, ?_⟩
      simp only [St.answer, hst.answered]
      generalize a.check 12 = err
      by_cases hzero : s.call.ret - err = 0
      · have hsplit : s.call.ret = 0 ∧ err = 0 := by omega
        rw [if_neg (not_not.mpr hzero)]
        exact ⟨⟨hst.held, hst.dma, by simp [hsplit.2], hst.last, hst.bufDir⟩, hzero.le, fun _ => hdone hsplit.1⟩
      · rw [if_pos hzero]
        exact ⟨by simp [hst.held, hst.dma], fun hz => absurd hz hzero⟩
  | status a deltaMs =>
    simp only [step] at hstep
    split at hstep
    · cases hstep
    next hpc =>
      cases hstep
      exact h.poll (not_not.mp hpc) a deltaMs
  | reset =>
    simp only [step] at hstep
    split at hstep
    · cases hstep
    next hpc =>
      rw [not_not.mp hpc] at hstage
      obtain ⟨hheld, hdma, hret⟩ := hstage
      cases hstep
      refine ⟨h.truthful, fun i hi => ?_, by simp [hheld, hdma], fun hz => ⟨hdma, hret hz⟩⟩
      cases hi
  | release =>
    simp only [step] at hstep
    split at hstep
    · cases hstep
    next hpc =>
      rw [not_not.mp hpc] at hstage
      obtain ⟨hheld, hret⟩ := hstage
      cases hstep
      refine Inv.leave h.truthful h.recorded ?_ hret
      dsimp only
      rw [hheld]
      split <;> rfl
  | raise id err =>
    simp only [step] at hstep
    split at hstep
    · cases hstep
    next hlt =>
      cases hstep
      exact h.raise (Nat.lt_of_not_le hlt) err

/-- In every run whose requests for a channel succeed, and whose calls only look at event records of their own
transfer, success is only returned after a complete transfer, and every channel is released. -/
theorem transfers_sound {s : St} (h : Reached St.Init step Fresh s) : Sound s := by
  have hinv : Inv s := h.invariant (fun _ => init_inv) fun _ _ _ hi hf hs => step_inv hi hf hs
  refine ⟨hinv.truthful, fun hpc => ?_⟩
  have hstage := hinv.stage
  rw [hpc] at hstage
  exact hstage

/-! ## Runs on a card of 1024 blocks -/

def blankCall : Call := ⟨.read, 0, 0, 0, false, true, false⟩

def mounted : St := ⟨⟨512 * 1024, 512, .ver2⟩, .idle, blankCall, 0, .max, none, .read, 0, [], 0, []⟩

theorem mounted_init : mounted.Init := ⟨rfl, rfl, rfl, rfl, rfl, rfl, rfl, rfl⟩

/-- One block is read; the card is in the transfer state when it is asked. -/
def readRun : List Ev :=
  [.call .read true 5 1 true, .request 0, .xfer ⟨0, 0, 17⟩, .raise 0 false, .acquired, .look,
    .status ⟨0, 0x800, 13⟩ 0, .reset, .release]

theorem exec_sound {ok : St → Ev → Prop} {evs : List Ev} (halong : Along step ok mounted evs)
    {s : St} (hrun : exec step mounted evs = some s) : Reached St.Init step ok s :=
  Reached.of_exec (.start mounted_init) halong hrun

theorem transfers_sound_read : ∃ s, exec step mounted readRun = some s ∧
    s.returned = [⟨0, true, true, true, true⟩] ∧ Sound s := by
  have hrun : exec step mounted readRun = some ((exec step mounted readRun).get (by decide)) := by simp
  exact ⟨_, hrun, by decide, transfers_sound (exec_sound (by decide) hrun)⟩

/-- No channel is free. -/
def noChannel : List Ev := [.call .read true 5 1 true, .request 1, .release]

/-- The first call times out before its event; the second takes that event for its own. -/
def lateEvent : List Ev :=
  [.call .read true 5 1 true, .request 0, .xfer ⟨0, 0, 17⟩, .expired, .status ⟨0, 0x800, 13⟩ 0, .reset, .release,
    .raise 0 false, .call .read true 6 1 true, .request 0, .xfer ⟨0, 0, 17⟩, .acquired, .look,
    .status ⟨0, 0x800, 13⟩ 0, .reset, .release]

/-- Both calls return success, one without a channel and one without its data. -/
theorem not_sound_runs : (∃ s, Reached St.Init step anyStep s ∧ exec step mounted noChannel = some s ∧ ¬ Sound s) ∧
    ∃ s, Reached St.Init step anyStep s ∧ exec step mounted lateEvent = some s ∧ ¬ Sound s := by
  have hfalse : ∀ {s : St} {r : Return}, s.returned.head? = some r → ¬ r.Truthful → ¬ Sound s :=
    fun hr hnot hs => hnot (hs.1 _ (List.mem_of_mem_head? hr))
  have hfirst : exec step mounted noChannel = some ((exec step mounted noChannel).get (by decide)) := by simp
  have hsecond : exec step mounted lateEvent = some ((exec step mounted lateEvent).get (by decide)) := by simp
  refine ⟨⟨_, exec_sound (along_anyStep _ _) hfirst, hfirst, ?_⟩,
    ⟨_, exec_sound (along_anyStep _ _) hsecond, hsecond, ?_⟩⟩
  · exact hfalse (r := ⟨0, false, true, false, false⟩) (by decide) (by simp [Return.Truthful])
  · exact hfalse (r := ⟨0, true, true, false, true⟩) (by decide) (by simp [Return.Truthful])

end WmIot.Sdmmc
