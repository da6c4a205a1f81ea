import WmIot.Touch.Button
import WmIot.Lib.CInt

/-!
# The moving average

`touch_button_moving_average` with the overflows of its `int`s. The average lies between the counts it was fed since
its count was zero: at first it is their truncated mean, and then a sixteenth of a sum from which a sixteenth is
taken for each new count.
-/

namespace WmIot.Touch
open CInt
set_option autoImplicit false

/-- `touch_button_moving_average`; none if an `int` overflows or a divisor is zero -/
def movingAverageInt (tsCnt slideCnt count avgVal accumVal : Int) : Option (Int × Int × Int) :=
  if slideCnt = 0 then some (count, avgVal, accumVal)
  else if count < slideCnt then do
    let sum ← int (count * avgVal)
    let sum ← int (sum + tsCnt)
    let next ← int (count + 1)
    let avgVal ← divide sum next
    let accumVal ← int (avgVal * next)
    return (next, avgVal, accumVal)
  else do
    let share ← divide accumVal slideCnt
    let rest ← int (accumVal - share)
    let accumVal ← int (rest + tsCnt)
    let avgVal ← divide accumVal slideCnt
    return (count, avgVal, accumVal)

/-- The values of the three variables. -/
def values (r : BitVec 32 × BitVec 32 × BitVec 32) : Int × Int × Int := (r.1.toInt, r.2.1.toInt, r.2.2.toInt)

/-- Where nothing overflows the bit vectors have the values. -/
theorem movingAverage_values {tsCnt slideCnt count avgVal accumVal : BitVec 32} {r : Int × Int × Int}
    (h : movingAverageInt tsCnt.toInt slideCnt.toInt count.toInt avgVal.toInt accumVal.toInt = some r) :
    values (movingAverage tsCnt slideCnt count avgVal accumVal) = r := by
  have hzero : slideCnt.toInt = 0 ↔ slideCnt = 0#32 := by
    rw [← BitVec.toInt_zero (w := 32), BitVec.toInt_inj]
  have hone : (1#32).toInt = 1 := by decide
  unfold movingAverageInt at h
  unfold movingAverage
  simp only [hzero, ← BitVec.slt_iff_toInt_lt] at h
  split at h
  next hs =>
    rw [if_pos hs]
    exact Option.some.inj h
  next hs =>
    rw [if_neg hs]
    split at h
    next hcount =>
      simp only [Option.bind_eq_bind, Option.bind_eq_some_iff] at h
      obtain ⟨prod, hprod, sum, hsum, next, hnext, avg, havg, accum, haccum, h⟩ := h
      rw [← hone] at hnext
      have hnext := toInt_add hnext
      rw [← toInt_mul hprod] at hsum
      rw [← toInt_add hsum, ← hnext] at havg
      rw [← toInt_sdiv havg, ← hnext] at haccum
      rw [if_pos hcount]
      have hr := Option.some.inj h
      rw [← hr, values]
      dsimp only
      rw [hnext, toInt_sdiv havg, toInt_mul haccum]
    next hcount =>
      simp only [Option.bind_eq_bind, Option.bind_eq_some_iff] at h
      obtain ⟨share, hshare, rest, hrest, accum, haccum, avg, havg, h⟩ := h
      rw [← toInt_sdiv hshare] at hrest
      rw [← toInt_sub hrest] at haccum
      rw [← toInt_add haccum] at havg
      rw [if_neg hcount]
      have hr := Option.some.inj h
      rw [← hr, values]
      dsimp only
      rw [toInt_add haccum, toInt_sdiv havg]

section
variable {k v s ts lo hi : Int}

/-- A truncated mean lies between the mean before and the new count. -/
theorem mean_within (hk : 0 ≤ k) (hv : k = 0 ∨ lo ≤ v ∧ v ≤ hi) (hts : lo ≤ ts ∧ ts ≤ hi) :
    lo ≤ (k * v + ts) / (k + 1) ∧ (k * v + ts) / (k + 1) ≤ hi := by
  have hlo : k * lo ≤ k * v := by
    rcases hv with rfl | hv
    · simp only [Int.zero_mul, Int.le_refl]
    · exact Int.mul_le_mul_of_nonneg_left hv.1 hk
  have hhi : k * v ≤ k * hi := by
    rcases hv with rfl | hv
    · simp only [Int.zero_mul, Int.le_refl]
    · exact Int.mul_le_mul_of_nonneg_left hv.2 hk
  constructor
  · apply (Int.le_ediv_iff_mul_le (by omega)).mpr
    rw [Int.mul_add, Int.mul_comm lo k]
    omega
  · apply Int.ediv_le_of_le_mul (by omega)
    rw [Int.mul_add, Int.mul_comm hi k]
    omega

/-- Up to sixteen counts the average is their truncated mean. -/
theorem movingAverageInt_warm (hk : 0 ≤ k ∧ k < 16) (hv : k = 0 ∨ 0 ≤ v ∧ v ≤ 0x3FFF) (hts : 0 ≤ ts ∧ ts ≤ 0x3FFF) :
    movingAverageInt ts 16 k v s = some (k + 1, (k * v + ts) / (k + 1), (k * v + ts) / (k + 1) * (k + 1)) := by
  have hprod : 0 ≤ k * v ∧ k * v ≤ 15 * 0x3FFF := by
    rcases hv with rfl | hv
    · rw [Int.zero_mul]
      decide
    · refine ⟨Int.mul_nonneg hk.1 hv.1, Int.mul_le_mul (by omega) hv.2 hv.1 (by omega)⟩
  have hmean := mean_within hk.1 hv hts
  have hdiv : (k * v + ts).tdiv (k + 1) = (k * v + ts) / (k + 1) := Int.tdiv_eq_ediv_of_nonneg (by omega)
  have hsum : 0 ≤ (k * v + ts) / (k + 1) * (k + 1) ∧ (k * v + ts) / (k + 1) * (k + 1) ≤ k * v + ts :=
    ⟨Int.mul_nonneg hmean.1 (by omega), Int.ediv_mul_le _ (by omega)⟩
  have hquot : divide (k * v + ts) (k + 1) = some ((k * v + ts) / (k + 1)) :=
    divide_eq_some.mpr ⟨by omega, by rw [hdiv]; exact int_of_range (by omega) (by omega)⟩
  unfold movingAverageInt
  rw [if_neg (by decide), if_pos hk.2, int_of_range (by omega) (by omega)]
  simp only [Option.bind_eq_bind, Option.bind_some]
  rw [int_of_range (by omega) (by omega), int_of_range (v := k + 1) (by omega) (by omega)]
  simp only [Option.bind_some, hquot]
  rw [int_of_range (by omega) (by omega)]
  rfl

/-- After sixteen counts a sixteenth of the sum is replaced. -/
theorem movingAverageInt_steady (hk : 16 ≤ k) (hs : 0 ≤ s ∧ s ≤ 16 * 0x3FFF + 15) (hts : 0 ≤ ts ∧ ts ≤ 0x3FFF) :
    movingAverageInt ts 16 k v s = some (k, (s - s / 16 + ts) / 16, s - s / 16 + ts) := by
  have hshare : divide s 16 = some (s / 16) :=
    divide_eq_some.mpr ⟨by decide, by rw [Int.tdiv_eq_ediv_of_nonneg hs.1]; exact int_of_range (by omega) (by omega)⟩
  have hquot : divide (s - s / 16 + ts) 16 = some ((s - s / 16 + ts) / 16) :=
    divide_eq_some.mpr
      ⟨by decide, by rw [Int.tdiv_eq_ediv_of_nonneg (by omega)]; exact int_of_range (by omega) (by omega)⟩
  unfold movingAverageInt
  rw [if_neg (by decide), if_neg (by omega)]
  simp only [Option.bind_eq_bind, hshare, Option.bind_some]
  rw [int_of_range (by omega) (by omega)]
  simp only [Option.bind_some]
  rw [int_of_range (by omega) (by omega)]
  simp only [Option.bind_some, hquot]
  rfl

end

/-! ## Runs -/

/-- A count goes into the average, or the count of the counts is set to zero, and the rest to anything. -/
inductive Feed where
  | sample (tsCnt : BitVec 32)
  | reset (avgVal accumVal : BitVec 32)

/-- The three variables, and the counts since the last reset. -/
structure Average where
  count : BitVec 32
  avgVal : BitVec 32
  accumVal : BitVec 32
  fed : List Int

def feed (a : Average) : Feed → Average
  | .sample tsCnt =>
    let (count, avgVal, accumVal) := movingAverage tsCnt baseAverageCount a.count a.avgVal a.accumVal
    ⟨count, avgVal, accumVal, a.fed ++ [tsCnt.toInt]⟩
  | .reset avgVal accumVal => ⟨0#32, avgVal, accumVal, []⟩

/-- A sensor counts to 0x3FFF. -/
def IsCount (ts : Int) : Prop := 0 ≤ ts ∧ ts ≤ 0x3FFF

def Feed.InRange : Feed → Prop
  | .sample tsCnt => IsCount tsCnt.toInt
  | .reset _ _ => True

/-- All the counts that were fed lie in these bounds. -/
def Average.Between (a : Average) (lo hi : Int) : Prop := ∀ x ∈ a.fed, lo ≤ x ∧ x ≤ hi

/-- The invariant of the average. -/
structure Average.Inv (a : Average) : Prop where
  range : ∀ x ∈ a.fed, IsCount x
  count : a.count.toInt = min a.fed.length 16
  average : ∀ lo hi, a.Between lo hi → a.fed ≠ [] → lo ≤ a.avgVal.toInt ∧ a.avgVal.toInt ≤ hi
  steady : ∀ lo hi, a.Between lo hi → 16 ≤ a.fed.length →
    16 * lo ≤ a.accumVal.toInt ∧ a.accumVal.toInt ≤ 16 * hi + 15

section
variable {a : Average} {tsCnt : BitVec 32}

theorem Average.Between.sample {lo hi : Int} (h : (feed a (.sample tsCnt)).Between lo hi) :
    a.Between lo hi ∧ lo ≤ tsCnt.toInt ∧ tsCnt.toInt ≤ hi :=
  ⟨fun x hx => h x (List.mem_append_left _ hx), h _ (List.mem_append_right _ (List.mem_singleton_self _))⟩

theorem inv_of_empty (hcount : a.count = 0#32) (hfed : a.fed = []) : a.Inv := by
  constructor
  case range => exact fun x hx => by rw [hfed] at hx; exact absurd hx List.not_mem_nil
  case count =>
    rw [hcount, hfed]
    rfl
  case average => exact fun _ _ _ hne => absurd hfed hne
  case steady =>
    intro _ _ _ hlen
    rw [hfed] at hlen
    exact absurd hlen (by decide)

/-- The average of up to sixteen counts, and a count more. -/
theorem Average.Inv.next_warm (h : a.Inv) (hts : IsCount tsCnt.toInt) (hlen : a.fed.length < 16) :
    movingAverageInt tsCnt.toInt 16 a.count.toInt a.avgVal.toInt a.accumVal.toInt =
      some ((a.fed.length : Int) + 1, (a.fed.length * a.avgVal.toInt + tsCnt.toInt) / (a.fed.length + 1),
        (a.fed.length * a.avgVal.toInt + tsCnt.toInt) / (a.fed.length + 1) * (a.fed.length + 1)) := by
  have hcount : a.count.toInt = a.fed.length := by
    rw [h.count]
    omega
  rw [hcount]
  refine movingAverageInt_warm (by omega) ?_ hts
  by_cases hne : a.fed = []
  · rw [hne]
    exact .inl rfl
  · exact .inr (h.average 0 0x3FFF h.range hne)

/-- The average of more counts, and a count more. -/
theorem Average.Inv.next_steady (h : a.Inv) (hts : IsCount tsCnt.toInt) (hlen : 16 ≤ a.fed.length) :
    movingAverageInt tsCnt.toInt 16 a.count.toInt a.avgVal.toInt a.accumVal.toInt =
      some (16, (a.accumVal.toInt - a.accumVal.toInt / 16 + tsCnt.toInt) / 16,
        a.accumVal.toInt - a.accumVal.toInt / 16 + tsCnt.toInt) := by
  have hcount : a.count.toInt = 16 := by
    rw [h.count]
    omega
  have hsum := h.steady 0 0x3FFF h.range hlen
  rw [hcount]
  exact movingAverageInt_steady (by decide) (by omega) hts

theorem feed_sample {r : Int × Int × Int}
    (h : movingAverageInt tsCnt.toInt 16 a.count.toInt a.avgVal.toInt a.accumVal.toInt = some r) :
    (feed a (.sample tsCnt)).count.toInt = r.1 ∧ (feed a (.sample tsCnt)).avgVal.toInt = r.2.1 ∧
      (feed a (.sample tsCnt)).accumVal.toInt = r.2.2 := by
  have hslide : (16 : Int) = baseAverageCount.toInt := by decide
  rw [hslide] at h
  rw [← movingAverage_values h]
  exact ⟨rfl, rfl, rfl⟩

theorem Average.Inv.sample (h : a.Inv) (hts : IsCount tsCnt.toInt) : (feed a (.sample tsCnt)).Inv := by
  have hfed : (feed a (.sample tsCnt)).fed = a.fed ++ [tsCnt.toInt] := rfl
  have hrange : ∀ x ∈ (feed a (.sample tsCnt)).fed, IsCount x := by
    intro x hx
    rcases List.mem_append.mp hx with hx | hx
    · exact h.range x hx
    · rw [List.mem_singleton.mp hx]
      exact hts
  have hlength : (feed a (.sample tsCnt)).fed.length = a.fed.length + 1 := by
    rw [hfed, List.length_append, List.length_singleton]
  rcases Nat.lt_or_ge a.fed.length 16 with hlen | hlen
  · obtain ⟨hcount, havg, haccum⟩ := feed_sample (h.next_warm hts hlen)
    have hmean : ∀ lo hi, (feed a (.sample tsCnt)).Between lo hi →
        lo ≤ (feed a (.sample tsCnt)).avgVal.toInt ∧ (feed a (.sample tsCnt)).avgVal.toInt ≤ hi := by
      intro lo hi hbetween
      obtain ⟨hold, hnew⟩ := hbetween.sample
      rw [havg]
      refine mean_within (by omega) ?_ hnew
      by_cases hne : a.fed = []
      · rw [hne]
        exact .inl rfl
      · exact .inr (h.average lo hi hold hne)
    refine ⟨hrange, ?_, fun lo hi hbetween _ => hmean lo hi hbetween, fun lo hi hbetween hfull => ?_⟩
    · rw [hcount, hlength]
      omega
    · -- the sixteenth count
      have hsixteen : (a.fed.length : Int) + 1 = 16 := by omega
      have hbounds := hmean lo hi hbetween
      rw [havg] at hbounds
      rw [haccum]
      dsimp only at hbounds ⊢
      rw [hsixteen] at hbounds ⊢
      omega
  · obtain ⟨hcount, havg, haccum⟩ := feed_sample (h.next_steady hts hlen)
    have hsum : ∀ lo hi, (feed a (.sample tsCnt)).Between lo hi →
        16 * lo ≤ (feed a (.sample tsCnt)).accumVal.toInt ∧
          (feed a (.sample tsCnt)).accumVal.toInt ≤ 16 * hi + 15 := by
      intro lo hi hbetween
      obtain ⟨hold, hnew⟩ := hbetween.sample
      have hbefore := h.steady lo hi hold hlen
      rw [haccum]
      dsimp only
      omega
    refine ⟨hrange, ?_, fun lo hi hbetween _ => ?_, fun lo hi hbetween _ => hsum lo hi hbetween⟩
    · rw [hcount, hlength]
      omega
    · have := hsum lo hi hbetween
      rw [haccum] at this
      rw [havg]
      dsimp only at this ⊢
      omega

theorem feed_inv {e : Feed} (h : a.Inv) (he : e.InRange) : (feed a e).Inv := by
  cases e with
  | sample tsCnt => exact h.sample he
  | reset avgVal accumVal => exact inv_of_empty rfl rfl

theorem run_inv : ∀ {es : List Feed} {a : Average}, (∀ e ∈ es, e.InRange) → a.Inv → (es.foldl feed a).Inv := by
  intro es
  induction es with
  | nil => exact fun _ h => h
  | cons e es ih =>
    intro a hes h
    exact ih (fun e' he' => hes e' (List.mem_cons_of_mem _ he')) (feed_inv h (hes e List.mem_cons_self))

/-- The variables of a button that follow its counts between the touches. -/
def Button.average (b : Button) (fed : List Int) : Average := ⟨b.accumCnt, b.newBase, b.accumVal, fed⟩

theorem endPress_average (t : Times) (b : Button) (now : BitVec 32) (fed : List Int) :
    (endPress t b now).average fed = b.average fed := by
  unfold endPress
  split <;> rfl

theorem longPress_average (t : Times) (b : Button) (now later : BitVec 32) (fed : List Int) :
    (longPress t (startPress b now) later).average fed = b.average fed := by
  unfold longPress startPress
  split <;> split <;> rfl

theorem pollUntouched_average (t : Times) (b : Button) (x : Sample) (fed : List Int) :
    (pollUntouched t b x).average fed = (followBase b x).average fed := endPress_average _ _ _ _

/-- A poll resets the average of a button, or feeds it the count, or leaves it. -/
theorem pollButton_average (t : Times) (b : Button) (x : Sample) (fed : List Int) :
    ∃ es : List Feed, (∀ e ∈ es, e = .sample x.val ∨ e = .reset b.newBase b.accumVal) ∧
      (pollButton t b x).average (es.foldl feed (b.average fed)).fed = es.foldl feed (b.average fed) := by
  unfold pollButton
  split
  next =>
    refine ⟨[.reset b.newBase b.accumVal], fun e he => .inr (List.mem_singleton.mp he), ?_⟩
    unfold pollTouched
    dsimp only
    split
    next => exact longPress_average _ _ _ _ _
    next => rfl
  next =>
    simp only [pollUntouched_average]
    unfold followBase
    split
    next => exact ⟨[.sample x.val], fun e he => .inl (List.mem_singleton.mp he), rfl⟩
    next => exact ⟨[], fun _ he => absurd he List.not_mem_nil, rfl⟩

/-- From a count of zero on, after any counts and resets: the average lies between the smallest and the largest count
since the last reset, a constant is its own average, from sixteen counts on the sum has its bounds, and the next step
overflows nowhere. -/
theorem average_within {es : List Feed} (hes : ∀ e ∈ es, e.InRange) (hcount : a.count = 0#32) (hfed : a.fed = [])
    {b : Average} (hb : es.foldl feed a = b) :
    (∀ lo hi, b.fed.min? = some lo → b.fed.max? = some hi →
        (lo ≤ b.avgVal.toInt ∧ b.avgVal.toInt ≤ hi) ∧
          (16 ≤ b.fed.length → 16 * lo ≤ b.accumVal.toInt ∧ b.accumVal.toInt ≤ 16 * hi + 15)) ∧
      (∀ c, b.fed ≠ [] → (∀ x ∈ b.fed, x = c) → b.avgVal.toInt = c) ∧
      ∀ tsCnt : BitVec 32, IsCount tsCnt.toInt →
        (movingAverageInt tsCnt.toInt 16 b.count.toInt b.avgVal.toInt b.accumVal.toInt).isSome := by
  have hinv : b.Inv := by
    rw [← hb]
    exact run_inv hes (inv_of_empty hcount hfed)
  refine ⟨fun lo hi hlo hhi => ?_, fun c hne hconst => ?_, fun tsCnt hts => ?_⟩
  · obtain ⟨hmem, hmin⟩ := List.min?_eq_some_iff.mp hlo
    obtain ⟨-, hmax⟩ := List.max?_eq_some_iff.mp hhi
    have hbetween : b.Between lo hi := fun x hx => ⟨hmin x hx, hmax x hx⟩
    exact ⟨hinv.average lo hi hbetween (List.ne_nil_of_mem hmem), hinv.steady lo hi hbetween⟩
  · have hbetween : b.Between c c := fun x hx => ⟨Int.le_of_eq (hconst x hx).symm, Int.le_of_eq (hconst x hx)⟩
    have := hinv.average c c hbetween hne
    omega
  · rcases Nat.lt_or_ge b.fed.length 16 with hlen | hlen
    · rw [hinv.next_warm hts hlen]
      rfl
    · rw [hinv.next_steady hts hlen]
      rfl

end

/-- Two counts, a reset, and one count more. -/
theorem average_within_reset :
    let es : List Feed := [.sample 100#32, .sample 103#32, .reset 7#32 9#32, .sample 50#32]
    let b := es.foldl feed ⟨0#32, 1#32, 2#32, []⟩
    (∀ lo hi, b.fed.min? = some lo → b.fed.max? = some hi →
        (lo ≤ b.avgVal.toInt ∧ b.avgVal.toInt ≤ hi) ∧
          (16 ≤ b.fed.length → 16 * lo ≤ b.accumVal.toInt ∧ b.accumVal.toInt ≤ 16 * hi + 15)) ∧
      (∀ c, b.fed ≠ [] → (∀ x ∈ b.fed, x = c) → b.avgVal.toInt = c) ∧
      ∀ tsCnt : BitVec 32, IsCount tsCnt.toInt →
        (movingAverageInt tsCnt.toInt 16 b.count.toInt b.avgVal.toInt b.accumVal.toInt).isSome := by
  refine average_within (fun e he => ?_) rfl rfl rfl
  simp only [List.mem_cons, List.not_mem_nil, or_false] at he
  rcases he with rfl | rfl | rfl | rfl
  · exact ⟨by decide, by decide⟩
  · exact ⟨by decide, by decide⟩
  · trivial
  · exact ⟨by decide, by decide⟩

end WmIot.Touch
