import WmIot.Lib.Ring
import WmIot.Lib.Transition

/-!
# Reception of the HSPI slave

The down-frame part of `wm_hal_hspi_slave_irq_handler`, `wm_drv_hspi_slave_callback` and
`wm_drv_ops_hspi_slave_rx_data` step by step. The hardware fills the buffers of the circular list in order; it may do so
between any two steps, and a task only goes on outside the interrupt. `wm_os_internal_event_put` of an interrupt leaves
the bit to the timer task of the system, if there is room in its queue. A buffer is named by its descriptor.
-/

namespace WmIot.Hspi.Rx
open Transition
open WmIot.Ring (place place_zero place_succ place_place Holds)
set_option autoImplicit false

/-- `wm_hal_sdio_wrapper_rxbd_t`, with the number of the frame in its buffer -/
structure Rxbd where
  valid : Bool
  frame : Nat
deriving DecidableEq, Repr

variable {n : Nat}

/-- The buffer of a frame, and which frame it was. -/
structure Frame (n : Nat) where
  buf : Fin n
  id : Nat
deriving DecidableEq, Repr

/-- Where the interrupt handler is; `p` is its `rxbd`. -/
inductive Irq (n : Nat) where
  | test (p : Fin n)
  /-- `wm_os_internal_event_put` -/
  | put (p : Fin n)
  | store (p : Fin n)
  | recycle (p : Fin n)
  | next (p : Fin n)
  /-- the status bit -/
  | clear
deriving DecidableEq, Repr

/-- Where a call of `rx_data` is. -/
inductive Pc where
  | idle
  | wait
  | clearBits
  | read
deriving DecidableEq, Repr

structure St (n : Nat) where
  ring : Fin n → Rxbd
  /-- `curr_rxbd` -/
  curr : Fin n
  /-- where the hardware is -/
  hw : Fin n
  /-- `WM_HAL_SDIO_WRAPPER_INT_STS_DOWN_FRAME_DONE` -/
  sts : Bool
  irq : Option (Irq n)
  /-- what the timer task has to set -/
  posted : Nat
  /-- `HSPI_EVENT_RX_DONE` -/
  bit : Bool
  rxBufAddr : Frame n
  pc : Pc
  received : List (Frame n)
  returned : List (Frame n)
  /-- descriptors that the interrupt has made valid again -/
  handled : Nat
  /-- one of them held a frame that was not yet returned -/
  gaveBack : Bool

inductive Ev where
  /-- a frame is complete -/
  | frame
  /-- the interrupt -/
  | enter
  /-- the next step of the handler; `room` is that of the timer task's queue -/
  | isr (room : Bool)
  | timerTask
  | call
  | get
  | expire
  /-- the next step of the call -/
  | next
deriving DecidableEq, Repr

section
variable [NeZero n]

/-- A step of `wm_hal_hspi_slave_irq_handler`, and of the callback in it. -/
def St.isr (s : St n) (room : Bool) : Irq n → St n
  | .test p => { s with irq := some (if (s.ring p).valid then .clear else .put p) }
  | .put p => { s with posted := if room then s.posted + 1 else s.posted, irq := some (.store p) }
  | .store p => { s with rxBufAddr := ⟨p, (s.ring p).frame⟩, irq := some (.recycle p) }
  | .recycle p => { s with
      ring := Function.update s.ring p { s.ring p with valid := true }
      gaveBack := s.gaveBack || !(s.returned.map Frame.id).contains (s.ring p).frame
      handled := s.handled + 1
      irq := some (.next p) }
  | .next p => { s with curr := p + 1, irq := some (.test (p + 1)) }
  | .clear => { s with sts := false, irq := none }

/-- `wm_drv_ops_hspi_slave_rx_data`, and the timer task -/
def St.task (s : St n) : Ev → Option (St n)
  | .timerTask => if s.posted = 0 then none else some { s with posted := s.posted - 1, bit := true }
  | .call => if s.pc = .idle then some { s with pc := .wait } else none
  | .get => if s.pc = .wait ∧ s.bit = true then some { s with bit := false, pc := .clearBits } else none
  | .expire => if s.pc = .wait ∧ s.bit = false then some { s with pc := .idle } else none
  | .next =>
    match s.pc with
    | .clearBits => some { s with bit := false, pc := .read }
    | .read => some { s with returned := s.returned ++ [s.rxBufAddr], pc := .idle }
    | _ => none
  | _ => none

def step (s : St n) : Ev → Option (St n)
  | .frame =>
    if !(s.ring s.hw).valid then none
    else some { s with
      ring := Function.update s.ring s.hw ⟨false, s.received.length⟩
      received := s.received ++ [⟨s.hw, s.received.length⟩]
      hw := s.hw + 1
      sts := true }
  | .enter => if s.irq.isSome || !s.sts then none else some { s with irq := some (.test s.curr) }
  | .isr room => s.irq.map (s.isr room)
  | e => if s.irq.isSome then none else s.task e

/-- After the initialisation -/
def St.Init (s : St n) : Prop :=
  (∀ p, (s.ring p).valid = true) ∧ s.curr = 0 ∧ s.hw = 0 ∧ s.sts = false ∧ s.irq = none ∧ s.posted = 0 ∧
    s.bit = false ∧ s.pc = .idle ∧ s.received = [] ∧ s.returned = [] ∧ s.handled = 0 ∧ s.gaveBack = false

end

/-- Never more than `rx_link_num` frames wait to be returned. -/
def Within (s : St n) (e : Ev) : Prop := e = .frame → s.received.length < s.returned.length + n

/-- Nothing is under way from the hardware to a caller. -/
def St.Quiet (s : St n) : Prop :=
  s.irq = none ∧ s.sts = false ∧ s.posted = 0 ∧ s.bit = false ∧ (s.pc = .idle ∨ s.pc = .wait)

/-- The addresses that are returned are those of the received frames in order, all of them in the end. -/
def Delivered (s : St n) : Prop :=
  s.returned.map Frame.buf <+: s.received.map Frame.buf ∧
    (s.Quiet → s.returned.map Frame.buf = s.received.map Frame.buf)

structure Sound (s : St n) : Prop where
  delivered : Delivered s
  kept : s.gaveBack = false

/-- The handler takes a frame only when all earlier ones are returned, its event is taken on, and it ends with no
frame left. -/
def Calm (s : St n) : Ev → Prop
  | .isr room =>
    match s.irq with
    | some (.put _) => s.returned.length = s.handled ∧ room = true
    | some .clear => (s.ring s.curr).valid = true
    | _ => True
  | _ => True

instance (s : St n) (e : Ev) : Decidable (Within s e) := inferInstanceAs (Decidable (_ → _))

instance (s : St n) (e : Ev) : Decidable (Calm s e) := by
  unfold Calm
  split
  · split <;> infer_instance
  · infer_instance

/-! ## The ring -/

/-- The frame that waits in a descriptor. -/
def Rxbd.waiting (d : Rxbd) : Option Nat := if d.valid then none else some d.frame

def St.cells (s : St n) : Fin n → Option Nat := Rxbd.waiting ∘ s.ring

section
variable [NeZero n]

def frameAt (n : Nat) [NeZero n] (k : Nat) : Frame n := ⟨place 0 k, k⟩

/-- What the handler knows where it is. -/
def Stage (s : St n) : Option (Irq n) → Prop
  | none => s.curr = place 0 s.handled ∧ (0 < s.handled → s.rxBufAddr.id < s.handled)
  | some (.test p) => s.curr = place 0 s.handled ∧ (0 < s.handled → s.rxBufAddr.id < s.handled) ∧ p = s.curr ∧
      0 < s.received.length
  | some (.put p) | some (.store p) => s.curr = place 0 s.handled ∧ (0 < s.handled → s.rxBufAddr.id < s.handled) ∧
      p = s.curr ∧ (s.ring p).valid = false
  | some (.recycle p) => s.curr = place 0 s.handled ∧ p = s.curr ∧ (s.ring p).valid = false ∧
      s.rxBufAddr = ⟨p, (s.ring p).frame⟩
  | some (.next p) => p + 1 = place 0 s.handled ∧ s.rxBufAddr.id < s.handled ∧ 0 < s.received.length ∧ 0 < s.handled
  | some .clear => s.curr = place 0 s.handled ∧ (0 < s.handled → s.rxBufAddr.id < s.handled) ∧ 0 < s.handled

/-- The frames from `handled` on wait in the ring. -/
structure Inv (s : St n) (waiting : Nat) : Prop where
  holds : Holds s.cells (place 0 s.handled) (List.range' s.handled waiting)
  hw : s.hw = place 0 s.received.length
  received : s.received = (List.range (s.handled + waiting)).map (frameAt n)
  returned : ∀ r ∈ s.returned, r.id < s.handled
  stage : Stage s s.irq
  /-- before the first frame is handled nobody is told of one -/
  told : s.handled = 0 → s.irq = none ∨ (∃ p, s.irq = some (.test p) ∨ s.irq = some (.put p)) →
    s.posted = 0 ∧ s.bit = false ∧ (s.pc = .idle ∨ s.pc = .wait)
  sts : s.sts = false → s.handled = 0 → s.received = []
  got : s.sts = true → 0 < s.received.length
  gave : s.gaveBack = decide (0 < s.handled)

theorem waiting_none {d : Rxbd} : d.waiting = none ↔ d.valid = true := by
  unfold Rxbd.waiting
  cases d.valid <;> simp

theorem waiting_some {d : Rxbd} {k : Nat} : d.waiting = some k ↔ d.valid = false ∧ d.frame = k := by
  unfold Rxbd.waiting
  cases d.valid <;> simp

variable {s s' : St n} {w : Nat}

theorem init_inv (h : s.Init) : Inv s 0 := by
  obtain ⟨hring, hcurr, hhw, hsts, hirq, hposted, hbit, hpc, hreceived, hreturned, hhandled, hgave⟩ := h
  refine ⟨.nil (fun p => waiting_none.mpr (hring p)) _, ?_, ?_, by simp [hreturned], ?_, fun _ _ => ⟨hposted, hbit, .inl hpc⟩,
    fun _ _ => hreceived, fun h => by simp [hsts] at h, by simp [hgave, hhandled]⟩
  · rw [hreceived, List.length_nil, place_zero, hhw]
  · rw [hreceived, hhandled]
    rfl
  · rw [hirq]
    exact ⟨by rw [hcurr, hhandled, place_zero], fun hpos => absurd hpos (by omega)⟩

theorem Inv.length (h : Inv s w) : s.received.length = s.handled + w := by
  rw [h.received, List.length_map, List.length_range]

/-- A frame that waits is the next one. -/
theorem Inv.next_frame (h : Inv s w) (hbusy : (s.ring (place 0 s.handled)).valid = false) :
    0 < w ∧ (s.ring (place 0 s.handled)).frame = s.handled := by
  cases w with
  | zero =>
    have hfree : s.cells (place (place 0 s.handled) 0) = none := h.holds.free 0 (Nat.zero_le _) (NeZero.pos n)
    rw [place_zero] at hfree
    have hvalid := waiting_none.mp hfree
    rw [hbusy] at hvalid
    cases hvalid
  | succ w =>
    have hhead := Holds.head (q := List.range' (s.handled + 1) w) h.holds
    exact ⟨Nat.succ_pos _, (waiting_some.mp hhead).2⟩

/-- Where nothing waits, the descriptor of the handler is valid, and only there. -/
theorem Inv.idle_iff (h : Inv s w) : (s.ring (place 0 s.handled)).valid = true ↔ w = 0 := by
  constructor
  · intro hvalid
    have hnil := h.holds.eq_nil (waiting_none.mpr hvalid)
    simpa using congrArg List.length hnil
  · rintro rfl
    by_contra hbusy
    exact lt_irrefl _ (h.next_frame (by simpa using hbusy)).1

/-- The hardware fills the next buffer. -/
theorem Inv.frame (h : Inv s w) (hvalid : (s.ring s.hw).valid = true) : Inv { s with
    ring := Function.update s.ring s.hw ⟨false, s.received.length⟩
    received := s.received ++ [⟨s.hw, s.received.length⟩]
    hw := s.hw + 1
    sts := true } (w + 1) := by
  have hlen := h.length
  have hplace : s.hw = place (place 0 s.handled) w := by rw [place_place, ← hlen, h.hw]
  have hroom : (List.range' s.handled w).length < n := by
    refine h.holds.lt_of_free ?_
    rw [List.length_range', ← hplace]
    exact waiting_none.mpr hvalid
  have hother : ∀ p, (s.ring p).valid = false →
      Function.update s.ring s.hw (⟨false, s.received.length⟩ : Rxbd) p = s.ring p := fun p hp => by
    refine Function.update_of_ne (fun heq => ?_) _ _
    rw [heq, hvalid] at hp
    cases hp
  refine ⟨?_, ?_, ?_, h.returned, ?_, h.told, fun hsts => Bool.noConfusion hsts, fun _ => ?_, h.gave⟩
  · have hpush := h.holds.push hroom s.received.length
    rw [List.length_range', ← hplace] at hpush
    simp only [St.cells, Function.comp_update]
    rw [List.range'_1_concat, ← hlen]
    exact hpush
  · simp only [List.length_append, List.length_singleton, place_succ, h.hw]
  · simp only [hlen, ← Nat.add_assoc, List.range_succ, List.map_append, List.map_singleton]
    rw [← h.received]
    simp only [frameAt, ← hlen, ← h.hw]
  · have hstage := h.stage
    have hmore : 0 < (s.received ++ [(⟨s.hw, s.received.length⟩ : Frame n)]).length := by simp
    dsimp only
    revert hstage
    generalize s.irq = irq
    intro hstage
    match irq with
    | none => exact hstage
    | some (.test p) => exact ⟨hstage.1, hstage.2.1, hstage.2.2.1, hmore⟩
    | some (.put p) | some (.store p) =>
      refine ⟨hstage.1, hstage.2.1, hstage.2.2.1, ?_⟩
      dsimp only
      rw [hother p hstage.2.2.2]
      exact hstage.2.2.2
    | some (.recycle p) =>
      simp only [Stage, hother p hstage.2.2.1]
      exact hstage
    | some (.next p) => exact ⟨hstage.1, hstage.2.1, hmore, hstage.2.2.2⟩
    | some .clear => exact hstage
  · simp

/-- A descriptor of a frame that waits is made valid. -/
theorem Inv.recycle_holds (h : Inv s w) (hbusy : (s.ring (place 0 s.handled)).valid = false) :
    ∃ w', w = w' + 1 ∧ Holds (Function.update s.cells (place 0 s.handled) none) (place 0 (s.handled + 1))
      (List.range' (s.handled + 1) w') := by
  obtain ⟨w', rfl⟩ : ∃ w', w = w' + 1 := ⟨w - 1, by have := (h.next_frame hbusy).1; omega⟩
  refine ⟨w', rfl, ?_⟩
  have hpop := Holds.pop (q := List.range' (s.handled + 1) w') h.holds
  rwa [place_succ]

/-- A step of the handler. -/
theorem Inv.isr (h : Inv s w) {i : Irq n} (hirq : s.irq = some i) (room : Bool) : ∃ w', Inv (s.isr room i) w' := by
  have hstage := h.stage
  rw [hirq] at hstage
  match i with
  | .test p =>
    obtain ⟨hcurr, hbuf, rfl, hmore⟩ := hstage
    refine ⟨w, h.holds, h.hw, h.received, h.returned, ?_, fun hzero hphase => h.told hzero (.inr ⟨_, .inl hirq⟩), h.sts,
      h.got, h.gave⟩
    simp only [St.isr]
    cases hvalid : (s.ring s.curr).valid with
    | false => exact ⟨hcurr, hbuf, rfl, hvalid⟩
    | true =>
      -- the interrupt was raised by a frame
      have hw : w = 0 := h.idle_iff.mp (hcurr ▸ hvalid)
      have hlen := h.length
      have hpos : 0 < s.handled := by omega
      exact ⟨hcurr, hbuf, hpos⟩
  | .put p =>
    refine ⟨w, h.holds, h.hw, h.received, h.returned, hstage, fun hzero hphase => ?_, h.sts, h.got, h.gave⟩
    rcases hphase with hphase | ⟨_, hphase | hphase⟩ <;> cases hphase
  | .store p =>
    refine ⟨w, h.holds, h.hw, h.received, h.returned, ⟨hstage.1, hstage.2.2.1, hstage.2.2.2, rfl⟩,
      fun hzero hphase => ?_, h.sts, h.got, h.gave⟩
    rcases hphase with hphase | ⟨_, hphase | hphase⟩ <;> cases hphase
  | .recycle p =>
    obtain ⟨hcurr, rfl, hbusy, hbuf⟩ := hstage
    rw [hcurr] at hbusy
    obtain ⟨w', rfl, hholds⟩ := h.recycle_holds hbusy
    have hframe := (h.next_frame hbusy).2
    have hnew : (s.returned.map Frame.id).contains (s.ring s.curr).frame = false := by
      rw [hcurr, hframe]
      refine Bool.eq_false_iff.mpr fun hmem => ?_
      obtain ⟨r, hr, hid⟩ := List.mem_map.mp (List.contains_iff_mem.mp hmem)
      exact absurd (h.returned r hr) (by omega)
    refine ⟨w', ?_, h.hw, ?_, fun r hr => Nat.lt_succ_of_lt (h.returned r hr), ⟨?_, ?_, ?_, Nat.succ_pos _⟩,
      fun hzero => absurd hzero (Nat.succ_ne_zero _), fun _ hzero => absurd hzero (Nat.succ_ne_zero _), h.got, ?_⟩
    · simp only [St.isr, St.cells, Function.comp_update]
      rw [hcurr]
      exact hholds
    · rw [show (s.isr room (.recycle s.curr)).handled = s.handled + 1 from rfl, Nat.add_right_comm, Nat.add_assoc]
      exact h.received
    · rw [hcurr]
      exact (place_succ _ _).symm
    · rw [show (s.isr room (.recycle s.curr)).rxBufAddr = s.rxBufAddr from rfl, hbuf, hcurr, hframe]
      exact Nat.lt_succ_self _
    · have hlen := h.length
      exact lt_of_lt_of_le (Nat.succ_pos _) (hlen.symm ▸ Nat.le_add_left (w' + 1) s.handled)
    · show (s.gaveBack || !(s.returned.map Frame.id).contains (s.ring s.curr).frame) = _
      rw [hnew]
      simp [St.isr]
  | .next p =>
    obtain ⟨hnext, hbuf, hmore, hpos⟩ := hstage
    exact ⟨w, h.holds, h.hw, h.received, h.returned, ⟨hnext, fun _ => hbuf, rfl, hmore⟩,
      fun hzero => absurd hzero (Nat.ne_of_gt hpos), h.sts, h.got, h.gave⟩
  | .clear =>
    obtain ⟨hcurr, hbuf, hpos⟩ := hstage
    exact ⟨w, h.holds, h.hw, h.received, h.returned, ⟨hcurr, hbuf⟩, fun hzero => absurd hzero (Nat.ne_of_gt hpos),
      fun _ hzero => absurd hzero (Nat.ne_of_gt hpos), fun hsts => Bool.noConfusion hsts, h.gave⟩

/-- A step outside the interrupt. -/
theorem Inv.task (h : Inv s w) (hirq : s.irq = none) {e : Ev} (hstep : s.task e = some s') : Inv s' w := by
  have hstage := h.stage
  rw [hirq] at hstage
  have htold := fun hzero : s.handled = 0 => h.told hzero (.inl hirq)
  have hkeep : ∀ posted bit pc, (s.handled = 0 → posted = 0 ∧ bit = false ∧ (pc = .idle ∨ pc = .wait)) →
      Inv { s with posted := posted, bit := bit, pc := pc } w := fun posted bit pc hnew =>
    ⟨h.holds, h.hw, h.received, h.returned, h.stage, fun hzero _ => hnew hzero, h.sts, h.got, h.gave⟩
  cases e with
  | frame | enter | isr => cases hstep
  | timerTask =>
    simp only [St.task] at hstep
    split at hstep <;> cases hstep
    next hposted => exact hkeep _ _ _ fun hzero => absurd (htold hzero).1 hposted
  | call =>
    simp only [St.task] at hstep
    split at hstep <;> cases hstep
    exact hkeep _ _ _ fun hzero => ⟨(htold hzero).1, (htold hzero).2.1, .inr rfl⟩
  | get =>
    simp only [St.task] at hstep
    split at hstep <;> cases hstep
    next hbit => exact hkeep _ _ _ fun hzero => absurd (htold hzero).2.1 (by simp [hbit.2])
  | expire =>
    simp only [St.task] at hstep
    split at hstep <;> cases hstep
    exact hkeep _ _ _ fun hzero => ⟨(htold hzero).1, (htold hzero).2.1, .inl rfl⟩
  | next =>
    simp only [St.task] at hstep
    split at hstep
    next hpc =>
      cases hstep
      exact hkeep _ _ _ fun hzero => absurd (htold hzero).2.2 (by simp [hpc])
    next hpc =>
      cases hstep
      have hpos : 0 < s.handled := Nat.pos_of_ne_zero fun hzero => absurd (htold hzero).2.2 (by simp [hpc])
      refine ⟨h.holds, h.hw, h.received, fun r hr => ?_, h.stage, fun hzero => absurd hzero (Nat.ne_of_gt hpos), h.sts,
        h.got, h.gave⟩
      rcases List.mem_append.mp hr with hr | hr
      · exact h.returned r hr
      · rw [List.mem_singleton.mp hr]
        exact hstage.2 hpos
    next => cases hstep

theorem step_inv (h : ∃ w, Inv s w) {e : Ev} (hstep : step s e = some s') : ∃ w, Inv s' w := by
  obtain ⟨w, h⟩ := h
  have htask : ∀ {e : Ev}, (if s.irq.isSome then none else s.task e) = some s' → ∃ w, Inv s' w := by
    intro e hstep
    split at hstep
    · cases hstep
    next hirq => exact ⟨w, h.task (by simpa using hirq) hstep⟩
  cases e with
  | frame =>
    simp only [step] at hstep
    split at hstep <;> cases hstep
    next hvalid => exact ⟨w + 1, h.frame (by simpa using hvalid)⟩
  | enter =>
    simp only [step] at hstep
    split at hstep <;> cases hstep
    next hready =>
      obtain ⟨hirq, hsts⟩ : s.irq = none ∧ s.sts = true := by simpa using hready
      have hstage := h.stage
      rw [hirq] at hstage
      exact ⟨w, h.holds, h.hw, h.received, h.returned, ⟨hstage.1, hstage.2, rfl, h.got hsts⟩,
        fun hzero _ => h.told hzero (.inl hirq), h.sts, h.got, h.gave⟩
  | isr room =>
    obtain ⟨i, hirq, rfl⟩ := Option.map_eq_some_iff.mp hstep
    exact h.isr hirq room
  | timerTask | call | get | expire | next => exact htask hstep

/-- The claims hold exactly as long as no frame was handled: each one's buffer is given back before it is returned. -/
theorem Inv.sound_iff (h : Inv s w) : Sound s ↔ s.handled = 0 := by
  constructor
  · intro hs
    have hkept := hs.kept
    rw [h.gave] at hkept
    simpa using hkept
  · intro hzero
    have hnone : s.returned = [] := List.eq_nil_iff_forall_not_mem.mpr fun r hr => by
      have hlt := h.returned r hr
      omega
    refine ⟨⟨by simp [hnone], fun hquiet => ?_⟩, by simp [h.gave, hzero]⟩
    rw [hnone, h.sts hquiet.2.1 hzero]

/-! ## One frame at a time -/

/-- A call has the event in hand. -/
def Pc.taken : Pc → Nat
  | .clearBits | .read => 1
  | _ => 0

/-- The signs of a frame on its way from the handler to a caller. -/
def tokens (s : St n) : Nat := s.posted + s.bit.toNat + s.pc.taken

/-- The handler has a frame in hand that its event already tells of. -/
def InHand : Option (Irq n) → Bool
  | some (.store _) | some (.recycle _) => true
  | _ => false

/-- All frames that were handled are returned, but for one of which there is one sign. -/
structure Due (s : St n) (w : Nat) : Prop where
  returned : s.returned = (List.range s.returned.length).map (frameAt n)
  count : s.returned.length + tokens s = s.handled + (InHand s.irq).toNat
  single : tokens s ≤ 1
  busy : InHand s.irq = true → tokens s = 1
  addr : InHand s.irq = false → tokens s = 1 → s.rxBufAddr = frameAt n s.returned.length
  sts : s.sts = false → w = 0

theorem init_due (h : s.Init) : Due s 0 := by
  obtain ⟨-, -, -, -, hirq, hposted, hbit, hpc, -, hreturned, hhandled, -⟩ := h
  have htokens : tokens s = 0 := by simp [tokens, hposted, hbit, hpc, Pc.taken]
  exact ⟨by simp [hreturned], by simp [hreturned, hhandled, htokens, hirq, InHand], by omega,
    fun h => by simp [hirq, InHand] at h, fun _ h => by omega, fun _ => rfl⟩

/-- A step of the handler that takes a frame only when all earlier ones are returned. -/
theorem Due.isr (h : Inv s w) (hdue : Due s w) {i : Irq n} (hirq : s.irq = some i) {room : Bool}
    (hcalm : Calm s (.isr room)) : ∃ w', Inv (s.isr room i) w' ∧ Due (s.isr room i) w' := by
  obtain ⟨w', h'⟩ := h.isr hirq room
  have hstage := h.stage
  obtain ⟨hret, hcount, hsingle, hbusy, haddr, hsts⟩ := hdue
  rw [hirq] at hstage hcount hbusy haddr
  simp only [Calm, hirq] at hcalm
  refine ⟨w', h', ?_⟩
  have hlen := h.length
  have hlen' := h'.length
  match i with
  | .test p =>
    obtain rfl : w' = w := by
      have hsame : (s.isr room (.test p)).received.length = s.received.length := rfl
      have hhand : (s.isr room (.test p)).handled = s.handled := rfl
      omega
    have hhand : InHand (some (if (s.ring p).valid then Irq.clear else .put p)) = false := by split <;> rfl
    refine ⟨hret, ?_, hsingle, fun h => ?_, fun _ => haddr rfl, hsts⟩
    · rw [show (s.isr room (.test p)).irq = some (if (s.ring p).valid then Irq.clear else .put p) from rfl, hhand]
      exact hcount
    · rw [show (s.isr room (.test p)).irq = some (if (s.ring p).valid then Irq.clear else .put p) from rfl, hhand] at h
      cases h
  | .put p =>
    obtain rfl : w' = w := by
      have hsame : (s.isr room (.put p)).received.length = s.received.length := rfl
      have hhand : (s.isr room (.put p)).handled = s.handled := rfl
      omega
    obtain ⟨hall, rfl⟩ := hcalm
    have hzero : tokens s = 0 := by
      simp only [InHand, Bool.toNat_false] at hcount
      omega
    have hone : tokens (s.isr true (.put p)) = 1 := by
      show s.posted + 1 + s.bit.toNat + s.pc.taken = 1
      simp only [tokens] at hzero
      omega
    exact ⟨hret, by rw [hone]; exact congrArg (· + 1) hall, hone.le, fun _ => hone, fun h => Bool.noConfusion h, hsts⟩
  | .store p =>
    obtain rfl : w' = w := by
      have hsame : (s.isr room (.store p)).received.length = s.received.length := rfl
      have hhand : (s.isr room (.store p)).handled = s.handled := rfl
      omega
    exact ⟨hret, hcount, hsingle, fun _ => hbusy rfl, fun h => Bool.noConfusion h, hsts⟩
  | .recycle p =>
    obtain ⟨hcurr, rfl, hfree, hbuf⟩ := hstage
    have hone := hbusy rfl
    have hall : s.returned.length = s.handled := by
      simp only [InHand, Bool.toNat_true] at hcount
      omega
    have hframe := (h.next_frame (hcurr ▸ hfree)).2
    refine ⟨hret, hcount, hsingle, fun h => Bool.noConfusion h, fun _ _ => ?_, fun hoff => ?_⟩
    · show s.rxBufAddr = frameAt n s.returned.length
      rw [hbuf, hcurr, hframe, hall]
      rfl
    · have hzero := hsts hoff
      have hpos := (h.next_frame (hcurr ▸ hfree)).1
      omega
  | .next p =>
    obtain rfl : w' = w := by
      have hsame : (s.isr room (.next p)).received.length = s.received.length := rfl
      have hhand : (s.isr room (.next p)).handled = s.handled := rfl
      omega
    exact ⟨hret, hcount, hsingle, fun h => Bool.noConfusion h, fun _ => haddr rfl, hsts⟩
  | .clear =>
    obtain rfl : w' = w := by
      have hsame : (s.isr room .clear).received.length = s.received.length := rfl
      have hhand : (s.isr room .clear).handled = s.handled := rfl
      omega
    exact ⟨hret, hcount, hsingle, fun h => Bool.noConfusion h, fun _ => haddr rfl,
      fun _ => h.idle_iff.mp (hstage.1 ▸ hcalm)⟩

/-- A step outside the interrupt takes the sign one place further, or returns the frame. -/
theorem Due.task (hdue : Due s w) (hirq : s.irq = none) {e : Ev} (hstep : s.task e = some s') : Due s' w := by
  obtain ⟨hret, hcount, hsingle, hbusy, haddr, hsts⟩ := hdue
  have hidle : InHand s.irq = false := by
    rw [hirq]
    rfl
  have hmove : ∀ posted bit pc, tokens { s with posted := posted, bit := bit, pc := pc } = tokens s →
      Due { s with posted := posted, bit := bit, pc := pc } w := fun posted bit pc hsame =>
    ⟨hret, by rw [hsame]; exact hcount, by rw [hsame]; exact hsingle, fun h => by rw [hsame]; exact hbusy h,
      fun h h1 => haddr h (hsame ▸ h1), hsts⟩
  cases e with
  | frame | enter | isr => cases hstep
  | timerTask =>
    simp only [St.task] at hstep
    split at hstep <;> cases hstep
    next hposted =>
      refine hmove _ _ _ ?_
      simp only [tokens, Bool.toNat_true] at hsingle ⊢
      omega
  | call =>
    simp only [St.task] at hstep
    split at hstep <;> cases hstep
    next hpc => exact hmove _ _ _ (by simp [tokens, hpc, Pc.taken])
  | get =>
    simp only [St.task] at hstep
    split at hstep <;> cases hstep
    next hbit => exact hmove _ _ _ (by simp [tokens, hbit.1, hbit.2, Pc.taken])
  | expire =>
    simp only [St.task] at hstep
    split at hstep <;> cases hstep
    next hbit => exact hmove _ _ _ (by simp [tokens, hbit.1, Pc.taken])
  | next =>
    simp only [St.task] at hstep
    split at hstep
    next hpc =>
      cases hstep
      refine hmove _ _ _ ?_
      simp only [tokens, hpc, Pc.taken, Bool.toNat_false] at hsingle ⊢
      omega
    next hpc =>
      cases hstep
      have hzero : s.posted + s.bit.toNat = 0 := by
        simp only [tokens, hpc, Pc.taken] at hsingle
        omega
      have hone : tokens s = 1 := by
        simp only [tokens, hpc, Pc.taken]
        omega
      have hgone : tokens { s with returned := s.returned ++ [s.rxBufAddr], pc := .idle } = 0 := hzero
      refine ⟨?_, ?_, hgone.le.trans (Nat.zero_le 1), fun h => absurd h (by simp [hidle]), fun _ h => by omega, hsts⟩
      · simp only [List.length_append, List.length_singleton, List.range_succ, List.map_append, List.map_singleton]
        rw [← hret, haddr hidle hone]
      · rw [hgone, List.length_append, List.length_singleton, ← hone]
        exact hcount
    next => cases hstep

/-- What a step keeps while the handler takes one frame at a time. -/
theorem step_due (h : ∃ w, Inv s w ∧ Due s w) {e : Ev} (hcalm : Calm s e) (hstep : step s e = some s') :
    ∃ w, Inv s' w ∧ Due s' w := by
  obtain ⟨w, h, hdue⟩ := h
  have htask : ∀ {e : Ev}, (if s.irq.isSome then none else s.task e) = some s' → ∃ w, Inv s' w ∧ Due s' w := by
    intro e hstep
    split at hstep
    · cases hstep
    next hirq =>
      have hnone : s.irq = none := by simpa using hirq
      exact ⟨w, h.task hnone hstep, hdue.task hnone hstep⟩
  cases e with
  | frame =>
    simp only [step] at hstep
    split at hstep <;> cases hstep
    next hvalid =>
      exact ⟨w + 1, h.frame (by simpa using hvalid), hdue.returned, hdue.count, hdue.single, hdue.busy, hdue.addr,
        fun hsts => Bool.noConfusion hsts⟩
  | enter =>
    obtain ⟨w', h'⟩ := step_inv ⟨w, h⟩ hstep
    simp only [step] at hstep
    split at hstep <;> cases hstep
    next hready =>
      obtain ⟨hirq, hsts⟩ : s.irq = none ∧ s.sts = true := by simpa using hready
      have hcount := hdue.count
      have haddr := hdue.addr
      rw [hirq] at hcount haddr
      exact ⟨w', h', hdue.returned, hcount, hdue.single, fun h => Bool.noConfusion h, fun _ => haddr rfl,
        fun hoff => absurd hoff (by simp [hsts])⟩
  | isr room =>
    obtain ⟨i, hirq, rfl⟩ := Option.map_eq_some_iff.mp hstep
    exact hdue.isr h hirq hcalm
  | timerTask | call | get | expire | next => exact htask hstep

theorem Due.delivered (h : Inv s w) (hdue : Due s w) : Delivered s := by
  have hlen := h.length
  have hcount := hdue.count
  have hle : s.returned.length ≤ s.handled := by
    cases hhand : InHand s.irq with
    | false =>
      simp only [hhand, Bool.toNat_false] at hcount
      omega
    | true =>
      have hone := hdue.busy hhand
      simp only [hhand, Bool.toNat_true] at hcount
      omega
  constructor
  · rw [hdue.returned, h.received]
    obtain ⟨k, hk⟩ := Nat.exists_eq_add_of_le (hle.trans (Nat.le_add_right s.handled w))
    rw [hk, List.range_add, List.map_append, List.map_append]
    exact List.prefix_append _ _
  · intro ⟨hirq, hsts, hposted, hbit, hpc⟩
    have hzero : tokens s = 0 := by
      rcases hpc with hpc | hpc <;> simp [tokens, hposted, hbit, hpc, Pc.taken]
    have hw := hdue.sts hsts
    simp only [hirq, InHand, Bool.toNat_false] at hcount
    rw [hdue.returned, h.received, hw, show s.returned.length = s.handled + 0 by omega]

/-- In every run, the claims hold exactly until the first frame is handled; and the addresses are delivered in order
and once in every run in which the handler takes a frame only when all earlier ones are returned, its events are taken
on, and it ends with no frame left. -/
theorem receive_iff {s : St n} (h : Reached St.Init step Within s) : (Sound s ↔ s.handled = 0) ∧
    (Reached St.Init step (fun s e => Within s e ∧ Calm s e) s → Delivered s) := by
  constructor
  · obtain ⟨w, hinv⟩ : ∃ w, Inv s w :=
      h.invariant (fun _ hi => ⟨0, init_inv hi⟩) fun _ _ _ hi _ hs => step_inv hi hs
    exact hinv.sound_iff
  · intro hcalm
    obtain ⟨w, hinv, hdue⟩ : ∃ w, Inv s w ∧ Due s w :=
      hcalm.invariant (fun _ hi => ⟨0, init_inv hi, init_due hi⟩)
        fun _ _ _ hi hok hs => step_due hi hok.2 hs
    exact hdue.delivered hinv

end

/-! ## Runs of a ring of two buffers -/

def blankRing : St 2 :=
  ⟨fun _ => ⟨true, 0⟩, 0, 0, false, none, 0, false, ⟨0, 0⟩, .idle, [], [], 0, false⟩

theorem blankRing_init : blankRing.Init := ⟨fun _ => rfl, rfl, rfl, rfl, rfl, rfl, rfl, rfl, rfl, rfl, rfl, rfl⟩

/-- An interrupt that finds one frame. -/
def interrupt : List Ev := .enter :: List.replicate 7 (.isr true)

/-- A call that finds the event. -/
def receive : List Ev := [.call, .get, .next, .next]

theorem exec_sound {ok : St 2 → Ev → Prop} {evs : List Ev} (halong : Along step ok blankRing evs)
    {s : St 2} (hrun : exec step blankRing evs = some s) : Reached St.Init step ok s :=
  Reached.of_exec (.start blankRing_init) halong hrun

/-- Three frames, one after the other. -/
def singleFrames : List Ev :=
  (List.replicate 3 ([.frame] ++ interrupt ++ [.timerTask] ++ receive)).flatten

theorem receive_iff_single : ∃ s, exec step blankRing singleFrames = some s ∧ s.returned.map Frame.buf = [0, 1, 0] ∧
    Delivered s ∧ ¬ Sound s := by
  have hrun : exec step blankRing singleFrames = some ((exec step blankRing singleFrames).get (by decide)) := by simp
  have hiff := receive_iff (@exec_sound Within _ (by decide) _ hrun)
  refine ⟨_, hrun, by decide, hiff.2 (exec_sound (by decide) hrun), fun hs => ?_⟩
  exact absurd (hiff.1.mp hs) (by decide)

/-- Two frames before the interrupt. -/
def burst : List Ev := [.frame, .frame, .enter] ++ List.replicate 12 (.isr true) ++ [.timerTask, .timerTask] ++ receive

/-- The second frame is handled between the event of the first and the read of its address. -/
def overtaken : List Ev :=
  [.frame] ++ interrupt ++ [.timerTask, .call, .get, .frame] ++ interrupt ++ [.timerTask, .next, .next]

/-- One address is returned for two frames, and it is that of the second. -/
def LosesFirst (evs : List Ev) : Prop :=
  ∃ s, Reached St.Init step Within s ∧ exec step blankRing evs = some s ∧ s.Quiet ∧
    s.received.map Frame.buf = [0, 1] ∧ s.returned.map Frame.buf = [1] ∧ ¬ Sound s

theorem not_sound_of_lost {s : St 2} (hrec : s.received.map Frame.buf = [0, 1])
    (hret : s.returned.map Frame.buf = [1]) : ¬ Sound s := fun hs => by
  have hpre := hs.delivered.1
  rw [hrec, hret] at hpre
  exact absurd hpre (by decide)

theorem not_receive_sound_runs : LosesFirst burst ∧ LosesFirst overtaken := by
  have hburst : exec step blankRing burst = some ((exec step blankRing burst).get (by decide)) := by simp
  have hovertaken : exec step blankRing overtaken = some ((exec step blankRing overtaken).get (by decide)) := by simp
  constructor
  · exact ⟨_, exec_sound (by decide) hburst, hburst, by unfold St.Quiet; decide, by decide, by decide,
      not_sound_of_lost (by decide) (by decide)⟩
  · exact ⟨_, exec_sound (by decide) hovertaken, hovertaken, by unfold St.Quiet; decide, by decide, by decide,
      not_sound_of_lost (by decide) (by decide)⟩

end WmIot.Hspi.Rx
