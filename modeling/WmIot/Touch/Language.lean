import WmIot.Touch.Button
import WmIot.Lib.Transition

/-!
# The language of the callbacks

The callbacks for a button are groups that begin with a press and end with its release. A calibration
ends a press without a callback, and a stop does not end the polling.
-/

namespace WmIot.Touch
open Transition
set_option autoImplicit false

/-- One press with its release. -/
def group (long short : Bool) : List Report :=
  .press :: ((if long then [.longPressed] else []) ++ ((if short then [.pressed] else []) ++ [.release]))

/-- The words of complete groups. -/
inductive Words : List Report → Prop where
  | nil : Words []
  | cons (long short : Bool) {w : List Report} (h : Words w) : Words (group long short ++ w)

/-- A word of the language that may end inside a group. -/
def InLanguage (reports : List Report) : Prop := ∃ w, Words w ∧ reports.IsPrefix w

theorem Words.snoc (long short : Bool) {w : List Report} (h : Words w) : Words (w ++ group long short) := by
  induction h with
  | nil =>
    rw [List.nil_append, ← List.append_nil (group long short)]
    exact .cons long short .nil
  | cons l s _ ih =>
    rw [List.append_assoc]
    exact .cons l s ih

/-- The part of a group that has been reported for a pressed button. -/
def openPart (b : Button) : List Report :=
  if b.pressed then .press :: (if b.longPressed then [.longPressed] else []) else []

/-- The callbacks are complete groups and the part that is open. -/
def Grouped (b : Button) : Prop := ∃ w, Words w ∧ b.reports = w ++ openPart b

theorem Grouped.inLanguage {b : Button} (h : Grouped b) : InLanguage b.reports := by
  obtain ⟨w, hw, hreports⟩ := h
  rw [hreports]
  by_cases hpressed : b.pressed
  · refine ⟨w ++ group b.longPressed false, hw.snoc _ _, ?_⟩
    rw [openPart, if_pos hpressed]
    exact ⟨[.release], by rw [List.append_assoc]; rfl⟩
  · exact ⟨w, hw, [], by rw [openPart, if_neg hpressed, List.append_nil, List.append_nil]⟩

/-- Neither the press nor the callbacks change. -/
structure SamePress (b b' : Button) : Prop where
  pressed : b'.pressed = b.pressed
  longPressed : b'.longPressed = b.longPressed
  reports : b'.reports = b.reports

theorem SamePress.grouped {b b' : Button} (h : SamePress b b') (hb : Grouped b) : Grouped b' := by
  obtain ⟨w, hw, hreports⟩ := hb
  refine ⟨w, hw, ?_⟩
  rw [h.reports, hreports, openPart, openPart, h.pressed, h.longPressed]

theorem followBase_same (b : Button) (x : Sample) : SamePress b (followBase b x) := by
  unfold followBase
  split
  · exact ⟨rfl, rfl, rfl⟩
  · exact ⟨rfl, rfl, rfl⟩

/-! ## The poll -/

theorem startPress_pressed (b : Button) (now : BitVec 32) : (startPress b now).pressed := by
  unfold startPress
  split
  next h => exact h
  next => rfl

theorem startPress_grouped {b : Button} (now : BitVec 32) (h : Grouped b) : Grouped (startPress b now) := by
  unfold startPress
  split
  next => exact h
  next hfree =>
    obtain ⟨w, hw, hreports⟩ := h
    rw [openPart, if_neg hfree, List.append_nil] at hreports
    exact ⟨w, hw, by rw [hreports]; rfl⟩

theorem longPress_grouped (t : Times) {b : Button} (now : BitVec 32) (hpressed : b.pressed) (h : Grouped b) :
    Grouped (longPress t b now) := by
  unfold longPress
  split
  next hlong =>
    obtain ⟨w, hw, hreports⟩ := h
    have hfirst : b.longPressed = false := by simpa using (Bool.and_eq_true_iff.mp hlong).1
    rw [openPart, if_pos hpressed, hfirst] at hreports
    refine ⟨w, hw, ?_⟩
    dsimp only [openPart]
    rw [if_pos hpressed, hreports, List.append_assoc]
    rfl
  next => exact h

theorem pollTouched_grouped (t : Times) {b : Button} (x : Sample) (h : Grouped b) :
    Grouped (pollTouched t b x) := by
  have hcount : Grouped { b with pressCnt := b.pressCnt + 1#32, accumCnt := 0#32 } := SamePress.grouped ⟨rfl, rfl, rfl⟩ h
  dsimp only [pollTouched]
  split
  next =>
    refine SamePress.grouped ⟨rfl, rfl, rfl⟩ (b := longPress t (startPress _ x.now) x.later) ?_
    exact longPress_grouped t x.later (startPress_pressed _ _) (startPress_grouped x.now hcount)
  next => exact SamePress.grouped ⟨rfl, rfl, rfl⟩ hcount

theorem endPress_grouped (t : Times) {b : Button} (now : BitVec 32) (h : Grouped b) :
    Grouped (endPress t b now) := by
  unfold endPress
  split
  next hrelease =>
    obtain ⟨w, hw, hreports⟩ := h
    have hpressed : b.pressed := (Bool.and_eq_true_iff.mp hrelease).2
    rw [openPart, if_pos hpressed] at hreports
    refine ⟨w ++ group b.longPressed (shortPressDue t b now), hw.snoc _ _, ?_⟩
    change b.reports ++ _ = w ++ group _ _ ++ []
    rw [List.append_nil, hreports, List.append_assoc]
    rfl
  next => exact h

theorem pollUntouched_grouped (t : Times) {b : Button} (x : Sample) (h : Grouped b) :
    Grouped (pollUntouched t b x) := by
  have hfollow := (followBase_same b x).grouped h
  exact endPress_grouped t x.now (SamePress.grouped ⟨rfl, rfl, rfl⟩ hfollow)

theorem pollButton_grouped (t : Times) {b : Button} (x : Sample) (h : Grouped b) : Grouped (pollButton t b x) := by
  unfold pollButton
  split
  · exact pollTouched_grouped t x h
  · exact pollUntouched_grouped t x h

/-! ## Callbacks that are due -/

/-- A poll with this sample makes a callback for the button. -/
def Due (t : Times) (b : Button) (x : Sample) : Prop :=
  if touched b x then
    pressMaxCnt.sle (b.pressCnt + 1#32) ∧ (¬ b.pressed ∨ ¬ b.longPressed ∧ longPressDue t b x.later)
  else b.pressed ∧ releaseMaxCnt.sle (b.lowCnt + 1#32)

instance Due.decidable (t : Times) (b : Button) (x : Sample) : Decidable (Due t b x) :=
  inferInstanceAs (Decidable (if touched b x then _ ∧ _ else _ ∧ _))

theorem followBase_lowCnt (b : Button) (x : Sample) : (followBase b x).lowCnt = b.lowCnt := by
  unfold followBase
  split
  · rfl
  · rfl

theorem longPress_reports (t : Times) (b : Button) (now : BitVec 32) :
    (longPress t b now).reports = b.reports ↔ b.longPressed ∨ ¬ longPressDue t b now := by
  unfold longPress
  split
  next hlong =>
    obtain ⟨hfirst, hdue⟩ := Bool.and_eq_true_iff.mp hlong
    have hfirst : b.longPressed = false := by simpa using hfirst
    constructor
    · intro h
      exact absurd h (by simp)
    · rintro (h | h)
      · rw [hfirst] at h
        nomatch h
      · exact absurd hdue h
  next hlong =>
    refine ⟨fun _ => ?_, fun _ => rfl⟩
    by_cases hfirst : b.longPressed
    · exact .inl hfirst
    · exact .inr fun hdue => hlong (by simp [hfirst, hdue])

theorem startPress_reports {b : Button} (now : BitVec 32) (hfree : ¬ b.pressed) :
    (startPress b now).reports = b.reports ++ [.press] := by
  rw [startPress, if_neg hfree]

theorem longPress_length (t : Times) (b : Button) (now : BitVec 32) :
    b.reports.length ≤ (longPress t b now).reports.length := by
  unfold longPress
  split
  · rw [List.length_append]
    exact Nat.le_add_right _ _
  · exact Nat.le_refl _

theorem endPress_reports (t : Times) (b : Button) (now : BitVec 32) :
    (endPress t b now).reports = b.reports ↔ ¬ (b.pressed ∧ releaseMaxCnt.sle b.lowCnt) := by
  unfold endPress
  split
  next hrelease =>
    obtain ⟨hcount, hpressed⟩ := Bool.and_eq_true_iff.mp hrelease
    exact ⟨fun h => absurd h (by simp), fun h => absurd ⟨hpressed, hcount⟩ h⟩
  next hrelease => exact ⟨fun _ h => hrelease (Bool.and_eq_true_iff.mpr ⟨h.2, h.1⟩), fun _ => rfl⟩

/-- The callbacks of a poll are those that are due. -/
theorem pollButton_reports (t : Times) (b : Button) (x : Sample) :
    (pollButton t b x).reports = b.reports ↔ ¬ Due t b x := by
  unfold pollButton Due
  split
  next =>
    dsimp only [pollTouched]
    split
    next hcount =>
      by_cases hpressed : b.pressed
      · rw [startPress, if_pos hpressed]
        refine (longPress_reports t _ x.later).trans ⟨fun h hdue => ?_, fun h => ?_⟩
        · rcases hdue.2 with hfree | ⟨hfirst, hlong⟩
          · exact hfree hpressed
          · exact h.elim hfirst fun h => h hlong
        · by_cases hfirst : b.longPressed
          · exact .inl hfirst
          · exact .inr fun hlong => h ⟨hcount, .inr ⟨hfirst, hlong⟩⟩
      · refine ⟨fun h _ => ?_, fun h => absurd ⟨hcount, .inl hpressed⟩ h⟩
        have hstart := startPress_reports (b := { b with pressCnt := b.pressCnt + 1#32, accumCnt := 0#32 }) x.now hpressed
        have hlen := longPress_length t (startPress { b with pressCnt := b.pressCnt + 1#32, accumCnt := 0#32 } x.now) x.later
        rw [h, hstart, List.length_append] at hlen
        exact absurd hlen (Nat.not_succ_le_self _)
    next hcount => exact ⟨fun _ h => hcount h.1, fun _ => rfl⟩
  next =>
    dsimp only [pollUntouched]
    have hsame := followBase_same b x
    have hlow := followBase_lowCnt b x
    generalize followBase b x = f at hsame hlow ⊢
    rw [← hsame.reports, ← hsame.pressed, ← hlow]
    exact endPress_reports t _ x.now

/-! ## Calibration -/

/-- The callbacks of all buttons. -/
def allReports (buttons : List Button) : List (List Report) := buttons.map (·.reports)

section Buttons
variable {buttons : List Button} {f : Nat → Button → Button}

theorem grouped_mapIdx (hf : ∀ i b, Grouped b → Grouped (f i b)) (h : ∀ b ∈ buttons, Grouped b) :
    ∀ b ∈ buttons.mapIdx f, Grouped b := by
  intro b hb
  obtain ⟨i, hi, rfl⟩ := List.mem_mapIdx.mp hb
  exact hf i _ (h _ (List.getElem_mem hi))

theorem allReports_mapIdx (hf : ∀ i b, buttons[i]? = some b → (f i b).reports = b.reports) :
    allReports (buttons.mapIdx f) = allReports buttons := by
  apply List.ext_getElem
  · simp [allReports]
  · intro i h₁ h₂
    have hi : i < buttons.length := by simpa [allReports] using h₂
    simp only [allReports, List.getElem_map, List.getElem_mapIdx]
    exact hf i _ (List.getElem?_eq_getElem hi)

end Buttons

/-- A calibration is no callback, and it ends no press of a button that is not pressed. -/
theorem calibrate_spec {buttons : List Button} : allReports (calibrate buttons) = allReports buttons ∧
    ((∀ b ∈ buttons, Grouped b) → (∀ b ∈ buttons, b.pressed = false) → ∀ b ∈ calibrate buttons, Grouped b) := by
  constructor
  · simp only [calibrate, allReports, List.map_map]
    rfl
  · intro hgrouped hfree b hb
    simp only [calibrate, List.map_map] at hb
    obtain ⟨a, ha, rfl⟩ := List.mem_map.mp hb
    obtain ⟨w, hw, hreports⟩ := hgrouped a ha
    rw [openPart, hfree a ha] at hreports
    exact ⟨w, hw, hreports⟩

theorem baseReading_same (b : Button) (failed : Bool) (tsCnt : BitVec 32) : SamePress b (baseReading b failed tsCnt) := by
  unfold baseReading
  split
  · exact ⟨rfl, rfl, rfl⟩
  · exact ⟨rfl, rfl, rfl⟩

theorem baseReadings_spec (x : Turn) (buttons : List Button) :
    allReports (baseReadings buttons x) = allReports buttons ∧
      ((∀ b ∈ buttons, Grouped b) → ∀ b ∈ baseReadings buttons x, Grouped b) := by
  unfold baseReadings
  generalize List.range maxCalibrationTimes = js
  induction js generalizing buttons with
  | nil => exact ⟨rfl, fun h => h⟩
  | cons j js ih =>
    rw [List.foldl_cons]
    obtain ⟨hreports, hgrouped⟩ := ih (buttons.mapIdx fun i b => baseReading b (x.readings j i).1 (x.readings j i).2)
    refine ⟨hreports.trans (allReports_mapIdx fun i b _ => (baseReading_same b _ _).reports), fun h => hgrouped ?_⟩
    exact grouped_mapIdx (fun i b hb => (baseReading_same b _ _).grouped hb) h

theorem checkBases_spec (buttons : List Button) : allReports (checkBases buttons).1 = allReports buttons ∧
    ((∀ b ∈ buttons, Grouped b) → ∀ b ∈ (checkBases buttons).1, Grouped b) := by
  induction buttons with
  | nil => exact ⟨rfl, fun h => h⟩
  | cons b bs ih =>
    rw [checkBases]
    split
    · exact ⟨rfl, fun h => h⟩
    · refine ⟨congrArg (b.reports :: ·) ih.1, fun h a ha => ?_⟩
      rcases List.mem_cons.mp ha with rfl | ha
      · exact SamePress.grouped ⟨rfl, rfl, rfl⟩ (h b List.mem_cons_self)
      · exact ih.2 (fun a ha => h a (List.mem_cons_of_mem b ha)) a ha

/-! ## Runs -/

/-- The condition on a turn of the task: a calibration finds no button pressed, and a poll between a stop and
the next start makes no callback that is due. -/
def Calm (c : Ctx) : Event → Prop
  | .turn x =>
    match c.queue with
    | .baseCalc _ :: _ => ∀ b ∈ c.buttons, b.pressed = false
    | .pressDetect :: _ =>
      c.stopped → x.inhibited ∨ ¬ x.rf ∨ ∀ p ∈ c.buttons.zipIdx, ¬ Due c.times p.1 (x.samples p.2)
    | _ => True
  | _ => True

instance Calm.decidable (c : Ctx) : ∀ e, Decidable (Calm c e)
  | .start | .stop | .setLongpress _ => inferInstanceAs (Decidable True)
  | .turn x =>
    match h : c.queue with
    | .baseCalc _ :: _ =>
      decidable_of_iff (∀ b ∈ c.buttons, b.pressed = false) (by simp only [Calm, h])
    | .pressDetect :: _ =>
      decidable_of_iff
        (c.stopped → x.inhibited ∨ ¬ x.rf ∨ ∀ p ∈ c.buttons.zipIdx, ¬ Due c.times p.1 (x.samples p.2))
        (by simp only [Calm, h])
    | .pressStop :: _ => decidable_of_iff True (by simp only [Calm, h])
    | [] => decidable_of_iff True (by simp only [Calm, h])

theorem poll_grouped {t : Times} {buttons : List Button} (x : Turn) (h : ∀ b ∈ buttons, Grouped b) :
    ∀ b ∈ poll t buttons x, Grouped b := by
  unfold poll
  split
  · intro b hb
    obtain ⟨a, ha, rfl⟩ := List.mem_map.mp hb
    exact SamePress.grouped ⟨rfl, rfl, rfl⟩ (h a ha)
  · split
    · exact grouped_mapIdx (fun i b hb => pollButton_grouped t _ hb) h
    · exact h

theorem handle_grouped {c : Ctx} (x : Turn) {msg : Msg} {queue : List Msg} (hqueue : c.queue = msg :: queue)
    (hok : Calm c (.turn x)) (h : ∀ b ∈ c.buttons, Grouped b) :
    ∀ b ∈ (handle { c with queue := queue } x msg).buttons, Grouped b := by
  dsimp only [Calm] at hok
  rw [hqueue] at hok
  cases msg with
  | pressStop => exact h
  | pressDetect => exact poll_grouped x h
  | baseCalc again =>
    dsimp only [handle]
    exact (checkBases_spec _).2 ((baseReadings_spec x _).2 (calibrate_spec.2 h hok))

/-- Where the task is stopped, an allowed turn makes no callback. -/
theorem handle_stopped {c : Ctx} (x : Turn) {msg : Msg} {queue : List Msg} (hqueue : c.queue = msg :: queue)
    (hok : Calm c (.turn x)) (hstopped : c.stopped) :
    allReports (handle { c with queue := queue } x msg).buttons = allReports c.buttons := by
  dsimp only [Calm] at hok
  rw [hqueue] at hok
  cases msg with
  | pressStop => rfl
  | baseCalc again =>
    dsimp only [handle]
    exact (checkBases_spec _).1.trans ((baseReadings_spec x _).1.trans calibrate_spec.1)
  | pressDetect =>
    dsimp only [handle, poll]
    split
    next =>
      rw [allReports, List.map_map]
      rfl
    next hinhibited =>
      split
      next hrf =>
        refine allReports_mapIdx fun i b hb => (pollButton_reports _ _ _).mpr ?_
        rcases hok hstopped with h | h | h
        · exact absurd h hinhibited
        · exact absurd hrf h
        · exact h (b, i) (List.mem_zipIdx_iff_getElem?.mpr hb)
      next => rfl

theorem step_grouped (c : Ctx) (e : Event) (c' : Ctx) (h : ∀ b ∈ c.buttons, Grouped b) (hok : Calm c e)
    (hstep : step c e = some c') : ∀ b ∈ c'.buttons, Grouped b := by
  cases e with
  | start =>
    cases hstep
    exact h
  | stop =>
    cases hstep
    exact h
  | setLongpress thresholdTime =>
    cases hstep
    exact h
  | turn x =>
    dsimp only [step] at hstep
    split at hstep
    next => nomatch hstep
    next msg queue hqueue =>
      cases hstep
      exact handle_grouped x hqueue hok h

theorem step_stopped {c c' : Ctx} {e : Event} (hok : Calm c e) (hstopped : c.stopped) (hstep : step c e = some c') :
    allReports c'.buttons = allReports c.buttons := by
  cases e with
  | start =>
    cases hstep
    rfl
  | stop =>
    cases hstep
    rfl
  | setLongpress thresholdTime =>
    cases hstep
    rfl
  | turn x =>
    dsimp only [step] at hstep
    split at hstep
    next => nomatch hstep
    next msg queue hqueue =>
      cases hstep
      exact handle_stopped x hqueue hok hstopped

/-- In a run of calm turns the callbacks for every button are words of the language, and none comes between a
stop and the next start. -/
theorem callbacks_inLanguage {thresholds : List (BitVec 32)} {c : Ctx}
    (h : Reached (· = init thresholds) step Calm c) :
    (∀ b ∈ c.buttons, InLanguage b.reports) ∧
      ∀ e c', Calm c e → step c e = some c' → c.stopped → allReports c'.buttons = allReports c.buttons := by
  refine ⟨fun b hb => ?_, fun e c' hok hstep hstopped => step_stopped hok hstopped hstep⟩
  have hgrouped : ∀ b ∈ c.buttons, Grouped b := by
    refine h.invariant (fun s hs a ha => ?_) step_grouped
    rw [hs] at ha
    obtain ⟨threshold, _, rfl⟩ := List.mem_map.mp ha
    exact ⟨[], .nil, rfl⟩
  exact (hgrouped b hb).inLanguage

/-! ## Single runs -/

/-- A turn whose samples all have one count and whose calibration reads 100. -/
def turnOf (val now : BitVec 32) : Event :=
  .turn ⟨false, true, fun _ => ⟨false, val, now, now⟩, fun _ _ => (false, 100#32), true⟩

/-- Four polls that find a touch. -/
def touches : List Event := [turnOf 500#32 1#32, turnOf 500#32 2#32, turnOf 500#32 3#32, turnOf 500#32 4#32]

theorem callbacks_inLanguage_shortPress : ∃ c, exec step (init [100#32])
      ([.start, turnOf 0#32 0#32] ++ touches ++ [turnOf 0#32 5#32, turnOf 0#32 6#32]) = some c ∧
    allReports c.buttons = [[.press, .pressed, .release]] ∧ (∀ b ∈ c.buttons, InLanguage b.reports) ∧
      ∀ e c', Calm c e → step c e = some c' → c.stopped → allReports c'.buttons = allReports c.buttons := by
  have hrun : (exec step (init [100#32])
      ([.start, turnOf 0#32 0#32] ++ touches ++ [turnOf 0#32 5#32, turnOf 0#32 6#32])).map
        (fun c => allReports c.buttons) = some [[.press, .pressed, .release]] := by decide +kernel
  obtain ⟨c, hc, hreports⟩ := Option.map_eq_some_iff.mp hrun
  exact ⟨c, hc, hreports, callbacks_inLanguage (Reached.of_exec (.start rfl) (by decide +kernel) hc)⟩

theorem not_inLanguage_twoPresses : ¬ InLanguage [.press, .press] := by
  intro ⟨w, hw, hprefix⟩
  cases hw with
  | nil => exact absurd hprefix.length_le (by decide)
  | cons long short h =>
    have hsecond := (List.cons_prefix_cons.mp hprefix).2
    cases long <;> cases short <;>
      exact absurd (List.cons_prefix_cons.mp hsecond).1 (by decide)

/-- After a stop the polling goes on and makes a callback; a second start while the button is pressed makes
its next callback a second press. -/
theorem callbacks_outside :
    (∃ c e c', Reached (· = init [100#32]) step anyStep c ∧ step c e = some c' ∧ c.stopped ∧
      allReports c'.buttons ≠ allReports c.buttons) ∧
    ∃ c, Reached (· = init [100#32]) step anyStep c ∧ ∃ b ∈ c.buttons, ¬ InLanguage b.reports := by
  constructor
  · have hrun : (exec step (init [100#32]) ([.start, turnOf 0#32 0#32, .stop, turnOf 0#32 0#32, turnOf 0#32 0#32] ++
        touches.take 3)).map (fun c => (c.stopped, allReports c.buttons,
          (step c (turnOf 500#32 4#32)).map fun c' => allReports c'.buttons)) =
        some (true, [[]], some [[.press]]) := by decide +kernel
    obtain ⟨c, hc, hstate⟩ := Option.map_eq_some_iff.mp hrun
    obtain ⟨hstopped, hstate⟩ := Prod.mk.inj hstate
    obtain ⟨hbefore, hstate⟩ := Prod.mk.inj hstate
    obtain ⟨c', hc', hafter⟩ := Option.map_eq_some_iff.mp hstate
    refine ⟨c, _, c', Reached.of_exec (.start rfl) (along_anyStep _ _) hc, hc', hstopped, ?_⟩
    rw [hbefore, hafter]
    decide
  · have hrun : (exec step (init [100#32]) ([.start, turnOf 0#32 0#32] ++ touches ++
        [.start, turnOf 500#32 5#32, turnOf 0#32 6#32] ++ touches)).map (fun c => allReports c.buttons) =
        some [[.press, .press]] := by decide +kernel
    obtain ⟨c, hc, hreports⟩ := Option.map_eq_some_iff.mp hrun
    refine ⟨c, Reached.of_exec (.start rfl) (along_anyStep _ _) hc, ?_⟩
    obtain ⟨b, hb, hb'⟩ : ∃ b ∈ c.buttons, b.reports = [.press, .press] := by
      apply List.mem_map.mp
      rw [allReports] at hreports
      rw [hreports]
      exact List.mem_singleton_self _
    refine ⟨b, hb, ?_⟩
    rw [hb']
    exact not_inLanguage_twoPresses

end WmIot.Touch
