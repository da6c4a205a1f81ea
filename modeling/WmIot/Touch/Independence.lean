import WmIot.Touch.Average

/-!
# Buttons that share a variable

The poll with the variable that holds the last count read, of whichever button. A read that fails leaves it, and
a button that is not pressed then follows the count of a button before it.
-/

namespace WmIot.Touch
set_option autoImplicit false

/-- What a poll meets at a button: the count, unless the read fails, and the two times behind it. -/
structure Reading where
  count : Option (BitVec 32)
  now : BitVec 32
  later : BitVec 32
deriving DecidableEq, Repr

/-- What one call of `touch_button_poll` meets. -/
structure PollTurn where
  inhibited : Bool
  rf : Bool
  readings : Nat → Reading

/-- A read that fails leaves the variable as it was. -/
def Reading.sample (r : Reading) (tsCurrentVal : BitVec 32) : Sample :=
  ⟨r.count.isNone, r.count.getD tsCurrentVal, r.now, r.later⟩

/-- The loop of `touch_button_poll` over the buttons, with `ts_current_val`. -/
def pollLoop (t : Times) : (Nat → Reading) → BitVec 32 → List Button → List Button
  | _, _, [] => []
  | readings, tsCurrentVal, b :: bs =>
    let x := (readings 0).sample tsCurrentVal
    pollButton t b x :: pollLoop t (fun i => readings (i + 1)) x.val bs

/-- `touch_button_poll` -/
def touchButtonPoll (t : Times) (buttons : List Button) (x : PollTurn) : List Button :=
  if x.inhibited then buttons.map inhibitButton
  else if x.rf then pollLoop t x.readings 0#32 buttons
  else buttons

def run (t : Times) (buttons : List Button) (xs : List PollTurn) : List Button :=
  xs.foldl (touchButtonPoll t) buttons

/-- The variable in front of the read of a button. -/
def leftover (readings : Nat → Reading) (tsCurrentVal : BitVec 32) : Nat → BitVec 32
  | 0 => tsCurrentVal
  | i + 1 => (readings i).count.getD (leftover readings tsCurrentVal i)

section
variable {t : Times} {b : Button} {readings : Nat → Reading} {cur cur' : BitVec 32} {buttons : List Button}

theorem leftover_tail (readings : Nat → Reading) (cur : BitVec 32) (i : Nat) :
    leftover (fun j => readings (j + 1)) ((readings 0).count.getD cur) i = leftover readings cur (i + 1) := by
  induction i with
  | zero => rfl
  | succ i ih =>
    rw [leftover, ih]
    rfl

/-- The loop polls each button with what the variable holds. -/
theorem pollLoop_eq (t : Times) : ∀ (buttons : List Button) (readings : Nat → Reading) (cur : BitVec 32),
    pollLoop t readings cur buttons =
      buttons.mapIdx fun i b => pollButton t b ((readings i).sample (leftover readings cur i)) := by
  intro buttons
  induction buttons with
  | nil => exact fun _ _ => rfl
  | cons b bs ih =>
    intro readings cur
    rw [pollLoop, List.mapIdx_cons, ih]
    have htail := leftover_tail readings cur
    simp only [Reading.sample] at htail ⊢
    simp only [htail]
    rfl

/-- The poll of the task is this one, with the samples that the variable gives. -/
theorem touchButtonPoll_eq (t : Times) (buttons : List Button) (x : PollTurn) (c : Nat → Nat → Bool × BitVec 32)
    (sent : Bool) :
    touchButtonPoll t buttons x =
      poll t buttons ⟨x.inhibited, x.rf, fun i => (x.readings i).sample (leftover x.readings 0#32 i), c, sent⟩ := by
  unfold touchButtonPoll poll
  dsimp only
  rw [pollLoop_eq]

theorem touched_failed {r : Reading} (hread : r.count = none) (b : Button) (cur : BitVec 32) :
    ¬ touched b (r.sample cur) := by
  unfold touched Reading.sample
  rw [hread]
  exact Bool.false_ne_true

/-- The variable counts only for a button that follows a read that has failed. -/
theorem pollButton_leftover {r : Reading} (h : r.count.isSome ∨ b.pressed ∨ b.pressCnt ≠ 0#32) (t : Times)
    (cur cur' : BitVec 32) : pollButton t b (r.sample cur) = pollButton t b (r.sample cur') := by
  cases hcount : r.count with
  | some v =>
    have hsame : r.sample cur = r.sample cur' := by
      unfold Reading.sample
      rw [hcount]
      rfl
    rw [hsame]
  | none =>
    have hfollow : ∀ cur, followBase b (r.sample cur) = b := by
      intro cur
      have hheld : ¬ (!b.pressed && b.pressCnt == 0#32) = true := by
        intro hfree
        obtain ⟨hnot, hcnt⟩ := Bool.and_eq_true_iff.mp hfree
        rcases h with hread | hpressed | hpress
        · rw [hcount] at hread
          cases hread
        · rw [hpressed] at hnot
          cases hnot
        · exact hpress (beq_iff_eq.mp hcnt)
      exact if_neg hheld
    rw [pollButton, pollButton, if_neg (touched_failed hcount b cur), if_neg (touched_failed hcount b cur'),
      pollUntouched, pollUntouched, hfollow, hfollow]
    rfl

/-- A button that is neither pressed nor about to be follows the variable behind a read that has failed. -/
theorem pollButton_follows {r : Reading} (hread : r.count = none) (hfree : ¬ b.pressed) (hpress : b.pressCnt = 0#32)
    (t : Times) (cur : BitVec 32) :
    ((pollButton t b (r.sample cur)).accumCnt, (pollButton t b (r.sample cur)).newBase,
        (pollButton t b (r.sample cur)).accumVal) =
      movingAverage cur baseAverageCount b.accumCnt b.newBase b.accumVal := by
  have hval : (r.sample cur).val = cur := by
    unfold Reading.sample
    rw [hread]
    rfl
  have hidle : (!b.pressed && b.pressCnt == 0#32) = true := by
    rw [Bool.not_eq_true] at hfree
    rw [hfree, hpress]
    rfl
  have haverage : (pollButton t b (r.sample cur)).average [] = (followBase b (r.sample cur)).average [] := by
    rw [pollButton, if_neg (touched_failed hread b cur), pollUntouched_average]
  have hcnt := congrArg Average.count haverage
  have hbase := congrArg Average.avgVal haverage
  have hsum := congrArg Average.accumVal haverage
  unfold Button.average at hcnt hbase hsum
  dsimp only at hcnt hbase hsum
  rw [hcnt, hbase, hsum, followBase, if_pos hidle, hval]

end

/-! ## Two runs -/

/-- Two polls at the same times in which a button has the same read. -/
structure SameFor (i : Nat) (x y : PollTurn) : Prop where
  inhibited : y.inhibited = x.inhibited
  rf : y.rf = x.rf
  now : ∀ j, (y.readings j).now = (x.readings j).now
  later : ∀ j, (y.readings j).later = (x.readings j).later
  reading : y.readings i = x.readings i

/-- Whatever the other buttons are and read: the button is the same after each poll. -/
def Independent (t : Times) (i : Nat) (buttons : List Button) (xs : List PollTurn) : Prop :=
  ∀ buttons' ys, buttons'[i]? = buttons[i]? → List.Forall₂ (SameFor i) xs ys →
    ∀ n, (run t buttons' (ys.take n))[i]? = (run t buttons (xs.take n))[i]?

/-- The button is the first one, or its read does not fail while it is neither pressed nor about to be. -/
def StepOk (i : Nat) (buttons : List Button) (x : PollTurn) : Prop :=
  i = 0 ∨ x.inhibited ∨ ¬ x.rf ∨ (x.readings i).count.isSome ∨
    ∀ b, buttons[i]? = some b → b.pressed ∨ b.pressCnt ≠ 0#32

/-- Every poll of the run meets this. -/
def RunOk (t : Times) (i : Nat) (buttons : List Button) (xs : List PollTurn) : Prop :=
  ∀ k x, xs[k]? = some x → StepOk i (run t buttons (xs.take k)) x

section
variable {t : Times} {i : Nat} {buttons buttons' : List Button} {x y : PollTurn} {xs ys : List PollTurn}

/-- What a poll makes of one button. -/
theorem touchButtonPoll_getElem? (t : Times) (buttons : List Button) (x : PollTurn) (i : Nat) :
    (touchButtonPoll t buttons x)[i]? = buttons[i]?.map fun b =>
      if x.inhibited then inhibitButton b
      else if x.rf then pollButton t b ((x.readings i).sample (leftover x.readings 0#32 i))
      else b := by
  unfold touchButtonPoll
  split
  next => exact List.getElem?_map
  next =>
    split
    next => rw [pollLoop_eq, List.getElem?_mapIdx]
    next => exact Option.map_id'.symm

theorem step_independent (hbutton : buttons'[i]? = buttons[i]?) (hsame : SameFor i x y) (hok : StepOk i buttons x) :
    (touchButtonPoll t buttons' y)[i]? = (touchButtonPoll t buttons x)[i]? := by
  rw [touchButtonPoll_getElem?, touchButtonPoll_getElem?, hbutton, hsame.inhibited, hsame.rf, hsame.reading]
  cases hb : buttons[i]? with
  | none => rfl
  | some b =>
    rw [Option.map_some, Option.map_some]
    congr 1
    split
    next => rfl
    next hinhibited =>
      split
      next hrf =>
        rcases hok with rfl | hinh | hnorf | hread | hheld
        · rfl
        · exact absurd hinh hinhibited
        · exact absurd hrf hnorf
        · exact pollButton_leftover (.inl hread) t _ _
        · exact pollButton_leftover (.inr (hheld b hb)) t _ _
      next => rfl

/-- A run whose polls all meet the condition. -/
theorem run_independent (hok : RunOk t i buttons xs) : Independent t i buttons xs := by
  intro buttons' ys hbutton hsame
  induction hsame generalizing buttons buttons' with
  | nil =>
    intro n
    rw [List.take_nil]
    exact hbutton
  | cons hxy _ ih =>
    intro n
    cases n with
    | zero => exact hbutton
    | succ n => exact ih (fun k x hx => hok (k + 1) x hx) _ (step_independent hbutton hxy (hok 0 _ rfl)) n

/-! ## The condition is exact -/

theorem count_lt {count : BitVec 32} (hcount : count.toNat ≤ 16) (hlt : count.slt baseAverageCount) :
    count.toNat < 16 := by
  have hslide : baseAverageCount.toInt = 16 := by decide
  have hint : count.toInt = count.toNat := BitVec.toInt_eq_toNat_of_lt (by omega)
  rw [BitVec.slt_iff_toInt_lt, hslide, hint] at hlt
  omega

theorem count_succ {count : BitVec 32} (hcount : count.toNat ≤ 16) : (count + 1#32).toNat = count.toNat + 1 := by
  have hone : (1#32).toNat = 1 := rfl
  rw [BitVec.toNat_add, hone]
  omega

theorem movingAverage_count {count : BitVec 32} (hcount : count.toNat ≤ 16) (tsCnt avgVal accumVal : BitVec 32) :
    (movingAverage tsCnt baseAverageCount count avgVal accumVal).1.toNat ≤ 16 := by
  unfold movingAverage
  rw [if_neg (by decide)]
  split
  next hlt =>
    have := count_lt hcount hlt
    dsimp only
    rw [count_succ (by omega)]
    omega
  next => exact hcount

/-- Some other count changes the average. -/
theorem movingAverage_depends {count : BitVec 32} (hcount : count.toNat ≤ 16) (tsCnt avgVal accumVal : BitVec 32) :
    ∃ tsCnt', movingAverage tsCnt' baseAverageCount count avgVal accumVal ≠
      movingAverage tsCnt baseAverageCount count avgVal accumVal := by
  unfold movingAverage
  rw [if_neg (by decide)]
  by_cases hlt : count.slt baseAverageCount
  · have hsmall := count_lt hcount hlt
    have hsum : ∀ v, count * avgVal + (v - count * avgVal) = v := by
      intro v
      rw [BitVec.add_comm, BitVec.sub_add_cancel]
    -- the counts that make the sum zero, and the largest one
    have hzero : (0#32).sdiv (count + 1#32) = 0#32 := BitVec.zero_sdiv
    have hmax : (0x7fffffff#32).sdiv (count + 1#32) ≠ 0#32 := by
      have hall : ∀ n < 16, (0x7fffffff#32).sdiv (BitVec.ofNat 32 n + 1#32) ≠ 0#32 := by decide
      have hcur := hall count.toNat hsmall
      rwa [BitVec.ofNat_toNat, BitVec.setWidth_eq] at hcur
    simp only [if_pos hlt]
    by_cases hcur : (count * avgVal + tsCnt).sdiv (count + 1#32) = 0#32
    · refine ⟨0x7fffffff#32 - count * avgVal, fun h => hmax ?_⟩
      have havg := congrArg (fun r => r.2.1) h
      dsimp only at havg
      rwa [hsum, hcur] at havg
    · refine ⟨0#32 - count * avgVal, fun h => hcur ?_⟩
      have havg := congrArg (fun r => r.2.1) h
      dsimp only at havg
      rw [hsum, hzero] at havg
      exact havg.symm
  · simp only [if_neg hlt]
    refine ⟨tsCnt + 1#32, fun h => ?_⟩
    have haccum := congrArg (fun r => r.2.2) h
    dsimp only at haccum
    rw [← BitVec.add_assoc] at haccum
    exact absurd (BitVec.add_right_eq_self.mp haccum) (show ¬ 1#32 = 0#32 by decide)

/-- The count of the average of a button is at most sixteen. -/
def CountOk (i : Nat) (buttons : List Button) : Prop := ∀ b, buttons[i]? = some b → b.accumCnt.toNat ≤ 16

theorem feed_count {a : Average} (e : Feed) (h : a.count.toNat ≤ 16) : (feed a e).count.toNat ≤ 16 := by
  cases e with
  | sample tsCnt => exact movingAverage_count h _ _ _
  | reset => exact Nat.zero_le _

theorem feeds_count : ∀ {es : List Feed} {a : Average}, a.count.toNat ≤ 16 →
    (es.foldl feed a).count.toNat ≤ 16 := by
  intro es
  induction es with
  | nil => exact fun h => h
  | cons e es ih => exact fun h => ih (feed_count e h)

theorem pollButton_count {b : Button} (h : b.accumCnt.toNat ≤ 16) (t : Times) (x : Sample) :
    (pollButton t b x).accumCnt.toNat ≤ 16 := by
  obtain ⟨es, -, haverage⟩ := pollButton_average t b x []
  have hcount : (pollButton t b x).accumCnt = (es.foldl feed (b.average [])).count := congrArg Average.count haverage
  rw [hcount]
  exact feeds_count h

theorem run_countOk (h : CountOk i buttons) (t : Times) (xs : List PollTurn) : CountOk i (run t buttons xs) := by
  induction xs generalizing buttons with
  | nil => exact h
  | cons x xs ih =>
    refine ih fun b' hb' => ?_
    rw [touchButtonPoll_getElem?] at hb'
    obtain ⟨b, hb, rfl⟩ := Option.map_eq_some_iff.mp hb'
    split
    next => exact Nat.zero_le _
    next =>
      split
      next => exact pollButton_count (h b hb) t _
      next => exact h b hb

/-- The poll with another count at the button before, wherever it stands. -/
def PollTurn.before (x : PollTurn) (i : Nat) (tsCnt : BitVec 32) : PollTurn :=
  { x with readings := fun j => if j < i then { x.readings j with count := some tsCnt } else x.readings j }

theorem before_same (x : PollTurn) (i : Nat) (tsCnt : BitVec 32) : SameFor i x (x.before i tsCnt) where
  inhibited := rfl
  rf := rfl
  now := fun j => by
    unfold PollTurn.before
    dsimp only
    split <;> rfl
  later := fun j => by
    unfold PollTurn.before
    dsimp only
    split <;> rfl
  reading := if_neg (Nat.lt_irrefl i)

theorem before_leftover (x : PollTurn) {i : Nat} (hi : i ≠ 0) (tsCnt : BitVec 32) :
    leftover (x.before i tsCnt).readings 0#32 i = tsCnt := by
  cases i with
  | zero => exact absurd rfl hi
  | succ i =>
    rw [leftover]
    unfold PollTurn.before
    dsimp only
    rw [if_pos (Nat.lt_succ_self i), Option.getD_some]

/-- A poll that does not meet the condition depends on the count of another button. -/
theorem step_depends (hcount : CountOk i buttons) (hbad : ¬ StepOk i buttons x) (t : Times) :
    ∃ tsCnt, (touchButtonPoll t buttons (x.before i tsCnt))[i]? ≠ (touchButtonPoll t buttons x)[i]? := by
  simp only [StepOk, not_or, not_forall, not_not] at hbad
  obtain ⟨hi, hinhibited, hrf, hread, b, hb, hfree, hpress⟩ := hbad
  obtain ⟨tsCnt, hdiff⟩ :=
    movingAverage_depends (hcount b hb) (leftover x.readings 0#32 i) b.newBase b.accumVal
  refine ⟨tsCnt, fun h => hdiff ?_⟩
  have hnone : (x.readings i).count = none := Option.not_isSome_iff_eq_none.mp hread
  have hreading : (x.before i tsCnt).readings i = x.readings i := (before_same x i tsCnt).reading
  have hinhibited' : (x.before i tsCnt).inhibited = x.inhibited := rfl
  have hrf' : (x.before i tsCnt).rf = x.rf := rfl
  rw [touchButtonPoll_getElem?, touchButtonPoll_getElem?, hb, Option.map_some, Option.map_some, hinhibited', hrf',
    if_neg hinhibited, if_pos hrf, if_neg hinhibited, if_pos hrf, hreading, before_leftover x hi] at h
  have hsame := Option.some.inj h
  rw [← pollButton_follows hnone hfree hpress t tsCnt, hsame, pollButton_follows hnone hfree hpress]

/-- A run is independent only if all its polls meet the condition. -/
theorem runOk_of_independent (hcount : CountOk i buttons) (h : Independent t i buttons xs) :
    RunOk t i buttons xs := by
  intro k x hx
  by_contra hbad
  obtain ⟨tsCnt, hdiff⟩ := step_depends (run_countOk hcount t (xs.take k)) hbad t
  have hlt := (List.getElem?_eq_some_iff.mp hx).1
  have hsame : List.Forall₂ (SameFor i) xs (xs.set k (x.before i tsCnt)) := by
    refine List.forall₂_iff_get.mpr ⟨List.length_set.symm, fun j hj hj' => ?_⟩
    simp only [List.get_eq_getElem, List.getElem_set]
    split
    next hkj =>
      subst hkj
      have hget : xs[k] = x := Option.some.inj ((List.getElem?_eq_getElem hlt).symm.trans hx)
      rw [hget]
      exact before_same x i tsCnt
    next => exact ⟨rfl, rfl, fun _ => rfl, fun _ => rfl, rfl⟩
  have hk := h buttons _ rfl hsame (k + 1)
  rw [List.take_add_one, List.take_add_one, hx, List.getElem?_set_self hlt, List.take_set_of_le (Nat.le_refl k), run,
    run, List.foldl_append, List.foldl_append] at hk
  exact hdiff hk

/-- Each button is independent of the others in every run whose polls meet the condition, and, for a count as the code
keeps it, in no other. -/
theorem poll_independent (t : Times) (i : Nat) (buttons : List Button) (xs : List PollTurn) :
    (RunOk t i buttons xs → Independent t i buttons xs) ∧
      (CountOk i buttons → Independent t i buttons xs → RunOk t i buttons xs) :=
  ⟨run_independent, runOk_of_independent⟩

end

/-- A poll in which every button reads the same count, but the read of the second one fails. -/
def secondFails (tsCnt : BitVec 32) : PollTurn where
  inhibited := false
  rf := true
  readings := fun i => ⟨if i = 1 then none else some tsCnt, 5#32, 5#32⟩

/-- The second button then follows the count of the first one. -/
theorem not_independent :
    ¬ Independent ⟨1000#32, 500#32⟩ 1 (List.replicate 2 { initButton 100#32 with usedBase := 100#32 })
      [secondFails 100#32] := by
  intro h
  have hsame : SameFor 1 (secondFails 100#32) (secondFails 90#32) := ⟨rfl, rfl, fun _ => rfl, fun _ => rfl, rfl⟩
  exact absurd (h _ [secondFails 90#32] rfl (.cons hsame .nil) 1) (by decide)

end WmIot.Touch
