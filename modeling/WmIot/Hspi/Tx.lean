import WmIot.Lib.Ring
import WmIot.Lib.Transition

/-!
# The transmit ring of the HSPI slave

`wm_hal_hspi_slave_tx_dma` of `wm_hal_hspi_slave.c` statement by statement, over the circular list that
`wm_drv_hspi_slave_buf_desc_init` links. The hardware sends the buffer of the descriptor where it stands when the
valid flag is set, clears the flag and moves on; otherwise it waits. It may do so between any two steps of a call. A
byte is named by its address.
-/

namespace WmIot.Hspi.Tx
open Transition
open WmIot.Ring (place place_zero place_succ place_next Holds)
set_option autoImplicit false

/-- `wm_hal_sdio_wrapper_txbd_t`, as far as a transfer uses it -/
structure Txbd where
  valid : Bool
  /-- `txbuf_addr[0]` -/
  addr : BitVec 32
  /-- 14 bits wide -/
  frmLen : Nat
deriving DecidableEq, Repr

/-- What `wm_hal_hspi_slave_register_buf` accepts, and the range of the memory. -/
structure Config where
  bufLen : Nat
  pos : 0 < bufLen
  /-- `WM_HAL_HSPI_SLAVE_DAT_BUF_SIZE_MAX` -/
  le : bufLen ≤ 1500
  dramBase : Nat
  dramLength : Nat

/-- A call, with the length that is not yet in a descriptor. -/
structure Call where
  addr : BitVec 32
  len : Nat
  remain : Nat
deriving DecidableEq, Repr

variable {n : Nat}

/-- Where a call is; `p` is its `txbd`. -/
inductive Pc (n : Nat) where
  | idle
  | test (p : Fin n) (loopCount : Nat)
  | addr (p : Fin n)
  | frmLen (p : Fin n)
  | valid (p : Fin n)
deriving DecidableEq, Repr

structure St (n : Nat) where
  ring : Fin n → Txbd
  /-- `curr_txbd` -/
  curr : Fin n
  /-- where the hardware is -/
  hw : Fin n
  pc : Pc n
  call : Call
  /-- the bytes of the successful calls -/
  accepted : List (BitVec 32)
  sent : List (BitVec 32)
  /-- how much each call that returned an error has queued -/
  failed : List Nat
  /-- a descriptor was written while its flag was set -/
  rewrote : Bool

inductive Ev where
  | call (addr : BitVec 32) (len : Int)
  | step
  /-- more than `WM_HAL_HSPI_SLAVE_TIMEOUT` has gone by -/
  | expire
  /-- the hardware -/
  | send
deriving DecidableEq, Repr

/-- The bytes of a buffer. -/
def bytes (addr : BitVec 32) (len : Nat) : List (BitVec 32) := (List.range len).map fun i => addr + BitVec.ofNat 32 i

/-- The checks of the arguments. -/
def accepts (cfg : Config) (linkNum : Nat) (addr : BitVec 32) (len : Int) : Bool :=
  if addr = 0 ∨ len ≤ 0 ∨ (cfg.bufLen * linkNum : Nat) < len then false
  else if addr.toNat < cfg.dramBase ∨ cfg.dramBase + cfg.dramLength ≤ (addr + BitVec.ofInt 32 len).toNat then false
  else true

/-- A member of the descriptor is written. -/
def St.write (s : St n) (p : Fin n) (d : Txbd) : St n :=
  { s with ring := Function.update s.ring p d, rewrote := s.rewrote || (s.ring p).valid }

section
variable [NeZero n]

/-- The next step of a call. -/
def St.next (cfg : Config) (s : St n) : Pc n → Option (St n)
  | .idle => none
  | .test p loopCount =>
    some { s with pc := if (s.ring p).valid then .test (p + 1) (loopCount + 1) else .addr p }
  | .addr p =>
    some { s.write p { s.ring p with addr := s.call.addr + BitVec.ofNat 32 (s.call.len - s.call.remain) } with
      pc := .frmLen p }
  | .frmLen p =>
    let frmLen := (if cfg.bufLen < s.call.remain then cfg.bufLen else s.call.remain) % 2 ^ 14
    some { s.write p { s.ring p with frmLen := frmLen } with
      pc := .valid p, call := { s.call with remain := s.call.remain - frmLen } }
  | .valid p =>
    let s := { s.write p { s.ring p with valid := true } with curr := p + 1 }
    if s.call.remain = 0 then
      some { s with pc := .idle, accepted := s.accepted ++ bytes s.call.addr s.call.len }
    else some { s with pc := .test (p + 1) 0 }

def step (cfg : Config) (s : St n) : Ev → Option (St n)
  | .call addr len =>
    if s.pc ≠ .idle then none
    else if !accepts cfg n addr len then some { s with failed := 0 :: s.failed }
    else some { s with pc := .test s.curr 0, call := ⟨addr, len.toNat, len.toNat⟩ }
  | .step => s.next cfg s.pc
  | .expire =>
    match s.pc with
    | .test _ loopCount =>
      if loopCount ≤ n then none
      else some { s with pc := .idle, failed := (s.call.len - s.call.remain) :: s.failed }
    | _ => none
  | .send =>
    let d := s.ring s.hw
    if !d.valid then none
    else some { s with
      ring := Function.update s.ring s.hw { d with valid := false }
      sent := s.sent ++ bytes d.addr d.frmLen
      hw := s.hw + 1 }

/-- After the initialisation -/
def St.Init (s : St n) : Prop :=
  (∀ p, (s.ring p).valid = false) ∧ s.curr = 0 ∧ s.hw = 0 ∧ s.pc = .idle ∧ s.accepted = [] ∧ s.sent = [] ∧
    s.failed = [] ∧ s.rewrote = false

/-- The bytes of the call that is in progress. -/
def St.current (s : St n) : List (BitVec 32) := if s.pc = .idle then [] else bytes s.call.addr s.call.len

/-- The ring keeps order: what is sent are the buffers of the calls in their order, and between two calls the hardware
only waits when all of it is sent. -/
structure Sound (s : St n) : Prop where
  order : s.sent <+: s.accepted ++ s.current
  complete : s.pc = .idle → (s.ring s.hw).valid = false → s.sent = s.accepted
  failed : ∀ k ∈ s.failed, k = 0
  kept : s.rewrote = false

/-- A free descriptor is only found where the walk began, and a call that gives up has queued nothing. -/
def Steady (s : St n) : Ev → Prop
  | .step =>
    match s.pc with
    | .test p _ => (s.ring p).valid = false → p = s.curr
    | _ => True
  | .expire => s.call.remain = s.call.len
  | _ => True

instance (s : St n) (e : Ev) : Decidable (Steady s e) := by
  unfold Steady
  split
  · split <;> infer_instance
  · infer_instance
  · infer_instance

end

/-! ## The queue -/

/-- The frame of a descriptor that the hardware has to send. -/
def Txbd.frame (d : Txbd) : Option (BitVec 32 × Nat) := if d.valid then some (d.addr, d.frmLen) else none

def St.cells (s : St n) : Fin n → Option (BitVec 32 × Nat) := Txbd.frame ∘ s.ring

/-- What holds where a call is that has queued `off` bytes. -/
def Stage (s : St n) (off : Nat) : Pc n → Prop
  | .idle => off = 0
  | .test _ _ => off + s.call.remain = s.call.len ∧ 0 < s.call.remain
  | .addr p => off + s.call.remain = s.call.len ∧ 0 < s.call.remain ∧ p = s.curr ∧ (s.ring p).valid = false
  | .frmLen p => off + s.call.remain = s.call.len ∧ 0 < s.call.remain ∧ p = s.curr ∧ (s.ring p).valid = false ∧
      (s.ring p).addr = s.call.addr + BitVec.ofNat 32 off
  | .valid p => off + (s.ring p).frmLen + s.call.remain = s.call.len ∧ p = s.curr ∧ (s.ring p).valid = false ∧
      (s.ring p).addr = s.call.addr + BitVec.ofNat 32 off

theorem frame_none {d : Txbd} : d.frame = none ↔ d.valid = false := by
  unfold Txbd.frame
  cases d.valid <;> simp

/-- A write to a descriptor whose flag stays clear changes no frame. -/
theorem holds_write [NeZero n] {s : St n} {a p : Fin n} {q : List (BitVec 32 × Nat)} {d : Txbd}
    (h : Holds s.cells a q) (hfree : (s.ring p).valid = false) (hd : d.valid = false) :
    Holds (s.write p d).cells a q := by
  have hcell : s.cells p = d.frame := (frame_none.mpr hfree).trans (frame_none.mpr hd).symm
  simp only [St.cells, St.write, Function.comp_update]
  rw [← hcell]
  rwa [← Function.update_eq_self p s.cells] at h

/-- A write to a free descriptor rewrites none that is in use. -/
theorem kept_of {s : St n} {p : Fin n} (hkept : s.rewrote = false) (hfree : (s.ring p).valid = false) :
    (s.rewrote || (s.ring p).valid) = false := by
  rw [hkept, hfree]
  rfl

section
variable [NeZero n]

/-- The frames `q` wait, and `off` bytes of the call in progress are queued. -/
structure Queued (s : St n) (q : List (BitVec 32 × Nat)) (off : Nat) : Prop where
  holds : Holds s.cells s.hw q
  curr : s.curr = place s.hw q.length
  account : s.sent ++ q.flatMap (fun f => bytes f.1 f.2) = s.accepted ++ bytes s.call.addr off
  stage : Stage s off s.pc
  failed : ∀ k ∈ s.failed, k = 0
  kept : s.rewrote = false

theorem bytes_add (addr : BitVec 32) (a b : Nat) :
    bytes addr (a + b) = bytes addr a ++ bytes (addr + BitVec.ofNat 32 a) b := by
  simp only [bytes, List.range_add, List.map_append, List.map_map, List.append_cancel_left_eq]
  refine List.map_congr_left fun i _ => ?_
  simp only [Function.comp, BitVec.ofNat_add, BitVec.add_assoc]

theorem bytes_zero (addr : BitVec 32) : bytes addr 0 = [] := rfl

theorem bytes_prefix (addr : BitVec 32) {a b : Nat} (h : a ≤ b) : bytes addr a <+: bytes addr b := by
  obtain ⟨c, rfl⟩ := Nat.exists_eq_add_of_le h
  rw [bytes_add]
  exact List.prefix_append _ _

theorem frame_some {d : Txbd} {f : BitVec 32 × Nat} (h : d.frame = some f) : d.valid = true ∧ f = (d.addr, d.frmLen) := by
  unfold Txbd.frame at h
  split at h
  next hvalid => exact ⟨hvalid, (Option.some.inj h).symm⟩
  next => cases h

theorem init_queued {s : St n} (h : s.Init) : Queued s [] 0 := by
  obtain ⟨hring, hcurr, hhw, hpc, haccepted, hsent, hfailed, hrewrote⟩ := h
  refine ⟨.nil (fun p => frame_none.mpr (hring p)) _, ?_, ?_, ?_, by simp [hfailed], hrewrote⟩
  · rw [List.length_nil, place_zero, hcurr, hhw]
  · simp [hsent, haccepted, bytes_zero]
  · rw [hpc]
    rfl

/-- The hardware sends the first frame that waits. -/
theorem Queued.send {s s' : St n} {q : List (BitVec 32 × Nat)} {off : Nat} {cfg : Config} (h : Queued s q off)
    (hstep : step cfg s .send = some s') : ∃ q', Queued s' q' off := by
  simp only [step] at hstep
  split at hstep
  · cases hstep
  next hvalid =>
    cases hstep
    have hvalid : (s.ring s.hw).valid = true := by simpa using hvalid
    cases q with
    | nil =>
      have hfree : s.cells (place s.hw 0) = none := h.holds.free 0 (Nat.zero_le _) (NeZero.pos n)
      rw [place_zero] at hfree
      exact absurd (frame_none.mp hfree) (by simp [hvalid])
    | cons f q =>
      obtain ⟨-, rfl⟩ := frame_some h.holds.head
      refine ⟨q, ⟨?_, ?_, ?_, ?_, h.failed, h.kept⟩⟩
      · have hpop := h.holds.pop
        simp only [St.cells, Function.comp_update]
        rwa [show Txbd.frame { s.ring s.hw with valid := false } = none from rfl]
      · rw [place_next]
        exact h.curr
      · rw [List.append_assoc]
        exact h.account
      · -- the descriptor of the call is not the one that is sent
        have hstage := h.stage
        have hother : ∀ p, (s.ring p).valid = false →
            Function.update s.ring s.hw { s.ring s.hw with valid := false } p = s.ring p := fun p hp => by
          refine Function.update_of_ne (fun heq => ?_) _ _
          rw [heq, hvalid] at hp
          cases hp
        dsimp only
        cases hpc : s.pc with
        | idle | test => rwa [hpc] at hstage
        | addr p =>
          rw [hpc] at hstage
          simp only [Stage, hother p hstage.2.2.2]
          exact hstage
        | frmLen p =>
          rw [hpc] at hstage
          simp only [Stage, hother p hstage.2.2.2.1]
          exact hstage
        | valid p =>
          rw [hpc] at hstage
          simp only [Stage, hother p hstage.2.2.1]
          exact hstage

/-- The next step of a call whose walk finds its own descriptor. -/
theorem Queued.next {s s' : St n} {q : List (BitVec 32 × Nat)} {off : Nat} {cfg : Config} (h : Queued s q off)
    (hsteady : Steady s .step) (hstep : s.next cfg s.pc = some s') : ∃ q' off', Queued s' q' off' := by
  have hstage := h.stage
  cases hpc : s.pc with
  | idle =>
    rw [hpc] at hstep
    cases hstep
  | test p loopCount =>
    rw [hpc] at hstep hstage
    cases hstep
    refine ⟨q, off, h.holds, h.curr, h.account, ?_, h.failed, h.kept⟩
    dsimp only
    cases hvalid : (s.ring p).valid with
    | true => exact hstage
    | false =>
      simp only [Steady, hpc] at hsteady
      exact ⟨hstage.1, hstage.2, hsteady hvalid, hvalid⟩
  | addr p =>
    rw [hpc] at hstep hstage
    obtain ⟨hoff, hpos, hcurr, hfree⟩ := hstage
    cases hstep
    refine ⟨q, off, ?_, h.curr, h.account, ?_, h.failed, kept_of h.kept hfree⟩
    · exact holds_write h.holds hfree (by exact hfree)
    · simp only [Stage, St.write, Function.update_self]
      exact ⟨hoff, hpos, hcurr, hfree, by rw [← hoff, Nat.add_sub_cancel]⟩
  | frmLen p =>
    rw [hpc] at hstep hstage
    obtain ⟨hoff, hpos, hcurr, hfree, haddr⟩ := hstage
    have hle := cfg.le
    have hlen : (if cfg.bufLen < s.call.remain then cfg.bufLen else s.call.remain) % 2 ^ 14 ≤ s.call.remain := by
      refine (Nat.mod_le _ _).trans ?_
      split <;> omega
    cases hstep
    refine ⟨q, off, ?_, h.curr, h.account, ?_, h.failed, kept_of h.kept hfree⟩
    · exact holds_write h.holds hfree (by exact hfree)
    · simp only [Stage, St.write, Function.update_self]
      exact ⟨by omega, hcurr, hfree, haddr⟩
  | valid p =>
    rw [hpc] at hstep hstage
    obtain ⟨hoff, hcurr, hfree, haddr⟩ := hstage
    have hplace : p = place s.hw q.length := hcurr.trans h.curr
    have hcell : s.cells (place s.hw q.length) = none := hplace ▸ frame_none.mpr hfree
    have hroom := h.holds.lt_of_free hcell
    -- the frame is queued behind the others
    have hpush : Holds (s.write p { s.ring p with valid := true }).cells s.hw
        (q ++ [((s.ring p).addr, (s.ring p).frmLen)]) := by
      simp only [St.cells, St.write, Function.comp_update, hplace]
      exact h.holds.push hroom _
    have hnext : p + 1 = place s.hw (q ++ [((s.ring p).addr, (s.ring p).frmLen)]).length := by
      rw [List.length_append, List.length_singleton, place_succ, hplace]
    have haccount : s.sent ++ (q ++ [((s.ring p).addr, (s.ring p).frmLen)]).flatMap (fun f => bytes f.1 f.2) =
        s.accepted ++ bytes s.call.addr (off + (s.ring p).frmLen) := by
      rw [List.flatMap_append, ← List.append_assoc, h.account, bytes_add, haddr]
      simp
    rw [St.next] at hstep
    dsimp only at hstep
    split at hstep <;> cases hstep
    next hdone =>
      have hall : off + (s.ring p).frmLen = s.call.len := by
        have hzero : s.call.remain = 0 := hdone
        omega
      refine ⟨_, 0, hpush, hnext, ?_, rfl, h.failed, kept_of h.kept hfree⟩
      rw [bytes_zero, List.append_nil]
      exact hall ▸ haccount
    next hmore =>
      exact ⟨_, _, hpush, hnext, haccount, ⟨hoff, Nat.pos_of_ne_zero hmore⟩, h.failed, kept_of h.kept hfree⟩

theorem accepts_pos {cfg : Config} {linkNum : Nat} {addr : BitVec 32} {len : Int}
    (h : accepts cfg linkNum addr len = true) : 0 < len := by
  unfold accepts at h
  split at h
  · cases h
  next hbad =>
    by_contra hle
    exact hbad (.inr (.inl (not_lt.mp hle)))

/-- What one step keeps. -/
theorem step_queued {cfg : Config} {s s' : St n} {e : Ev} (h : ∃ q off, Queued s q off) (hsteady : Steady s e)
    (hstep : step cfg s e = some s') : ∃ q off, Queued s' q off := by
  obtain ⟨q, off, h⟩ := h
  cases e with
  | call addr len =>
    simp only [step] at hstep
    split at hstep
    · cases hstep
    next hpc =>
      have hidle : s.pc = .idle := not_not.mp hpc
      have hstage := h.stage
      rw [hidle] at hstage
      obtain rfl : off = 0 := hstage
      split at hstep <;> cases hstep
      next =>
        refine ⟨q, 0, h.holds, h.curr, h.account, ?_, by simpa using h.failed, h.kept⟩
        rw [hidle]
        rfl
      next hok =>
        have hpos : 0 < len.toNat := by
          have hlt := accepts_pos (by simpa using hok)
          omega
        exact ⟨q, 0, h.holds, h.curr, h.account, ⟨Nat.zero_add _, hpos⟩, h.failed, h.kept⟩
  | step => exact h.next hsteady hstep
  | expire =>
    have hwhole : s.call.remain = s.call.len := hsteady
    simp only [step] at hstep
    split at hstep
    next p loopCount hpc =>
      split at hstep <;> cases hstep
      have hstage := h.stage
      rw [hpc] at hstage
      obtain rfl : off = 0 := by
        have hoff := hstage.1
        omega
      refine ⟨q, 0, h.holds, h.curr, h.account, rfl, fun k hk => ?_, h.kept⟩
      rcases List.mem_cons.mp hk with rfl | hk
      · rw [hwhole, Nat.sub_self]
      · exact h.failed k hk
    next => cases hstep
  | send =>
    obtain ⟨q', hq⟩ := h.send hstep
    exact ⟨q', off, hq⟩

theorem Queued.sound {s : St n} {q : List (BitVec 32 × Nat)} {off : Nat} (h : Queued s q off) : Sound s := by
  have hstage := h.stage
  have hsent : s.sent <+: s.accepted ++ bytes s.call.addr off := h.account ▸ List.prefix_append _ _
  refine ⟨?_, fun hidle hwait => ?_, h.failed, h.kept⟩
  · refine hsent.trans ((List.prefix_append_right_inj _).mpr ?_)
    unfold St.current
    cases hpc : s.pc with
    | idle =>
      rw [hpc] at hstage
      rw [show off = 0 from hstage]
      exact List.prefix_rfl
    | test | addr | frmLen | valid =>
      rw [hpc] at hstage
      refine bytes_prefix _ ?_
      have hoff := hstage.1
      omega
  · rw [hidle] at hstage
    have hnil := h.holds.eq_nil (frame_none.mpr hwait)
    have haccount := h.account
    rwa [hnil, show off = 0 from hstage, bytes_zero, List.flatMap_nil, List.append_nil, List.append_nil] at haccount

/-- In every run in which a walk around the ring only ends where it began, and a call only gives up before its first
piece, the ring keeps order. -/
theorem transmit_sound {cfg : Config} {s : St n} (h : Reached St.Init (step cfg) Steady s) : Sound s := by
  obtain ⟨q, off, hq⟩ : ∃ q off, Queued s q off :=
    h.invariant (fun _ hi => ⟨[], 0, init_queued hi⟩)
      fun _ _ _ hi hok hs => step_queued hi hok hs
  exact hq.sound

end

/-! ## Runs of a ring of two descriptors with four bytes each -/

def small : Config := ⟨4, by decide, by decide, 0x20000000, 0x48000⟩

scoped instance neZeroRing : NeZero 2 := ⟨by decide⟩

def blankRing : St 2 := ⟨fun _ => ⟨false, 0, 0⟩, 0, 0, .idle, ⟨0, 0, 0⟩, [], [], [], false⟩

theorem blankRing_init : blankRing.Init := ⟨fun _ => rfl, rfl, rfl, rfl, rfl, rfl, rfl, rfl⟩

/-- A buffer of one piece. -/
def piece : List Ev := List.replicate 4 .step

/-- A call of six bytes, and one that finds the ring full until the hardware has sent a frame. -/
def waitingRun : List Ev :=
  [.call 0x20000100 6] ++ piece ++ piece ++ [.call 0x20000200 3, .step, .step, .send, .step, .step, .step, .step,
    .send, .send]

theorem exec_sound {ok : St 2 → Ev → Prop} {evs : List Ev} (halong : Along (step small) ok blankRing evs)
    {s : St 2} (hrun : exec (step small) blankRing evs = some s) : Reached St.Init (step small) ok s :=
  Reached.of_exec (.start blankRing_init) halong hrun

theorem transmit_sound_waiting : ∃ s, exec (step small) blankRing waitingRun = some s ∧
    s.sent = bytes 0x20000100 6 ++ bytes 0x20000200 3 ∧ Sound s := by
  have hrun : exec (step small) blankRing waitingRun = some ((exec (step small) blankRing waitingRun).get (by decide)) :=
    by simp
  exact ⟨_, hrun, by decide, transmit_sound (exec_sound (by decide) hrun)⟩

/-- The ring is full; the walk goes on from the first descriptor to the second, and then both are sent. -/
def overtakenRun : List Ev :=
  [.call 0x20000100 8] ++ piece ++ piece ++ [.call 0x20000200 4, .step, .send, .send] ++ piece

/-- The second piece of the second call finds no descriptor in time. -/
def partialRun : List Ev :=
  [.call 0x20000100 8] ++ piece ++ piece ++ [.send, .call 0x20000200 8] ++ piece ++ [.step, .step, .step, .expire]

/-- The hardware waits at a free descriptor while a later one holds the frame; and a call that returns an error has
queued its first piece. -/
theorem not_transmit_sound_runs : (∃ s, Reached St.Init (step small) anyStep s ∧
      exec (step small) blankRing overtakenRun = some s ∧ ¬ Sound s) ∧
    ∃ s, Reached St.Init (step small) anyStep s ∧ exec (step small) blankRing partialRun = some s ∧ ¬ Sound s := by
  have hfirst : exec (step small) blankRing overtakenRun =
      some ((exec (step small) blankRing overtakenRun).get (by decide)) := by simp
  have hsecond : exec (step small) blankRing partialRun =
      some ((exec (step small) blankRing partialRun).get (by decide)) := by simp
  refine ⟨⟨_, exec_sound (along_anyStep _ _) hfirst, hfirst, fun hs => ?_⟩,
    ⟨_, exec_sound (along_anyStep _ _) hsecond, hsecond, fun hs => ?_⟩⟩
  · exact absurd (hs.complete (by decide) (by decide)) (by decide)
  · exact absurd (hs.failed 4 (by decide)) (by decide)

end WmIot.Hspi.Tx
