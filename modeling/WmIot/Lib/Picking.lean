import Mathlib

/-!
# Taking elements out of a list

An owner has requests, numbered from 0. One after the other they take the first element that they see out of a list;
the first request that sees none is the last. Owners that come one after the other leave the list themselves first.
-/

namespace WmIot.Picking
set_option autoImplicit false

variable {α : Type}

/-- One of the first `n` requests finds `x` in the list, and those before it find something. -/
def Taken (sees : Nat → α → Bool) (n : Nat) (l : List α) (x : α) : Prop :=
  ∃ k < n, l.find? (sees k) = some x ∧ ∀ j < k, (l.find? (sees j)).isSome

section Find
variable {sees : Nat → α → Bool} {n : Nat} {l l' : List α} {x : α} {p : α → Bool}

theorem find?_filter_of {q : α → Bool} (h : ∀ x ∈ l, q x = true → p x = true) :
    (l.filter p).find? q = l.find? q := by
  induction l with
  | nil => rfl
  | cons x l ih =>
    have hrest := ih fun y hy => h y (List.mem_cons_of_mem x hy)
    by_cases hq : q x = true
    · rw [List.filter_cons_of_pos (h x List.mem_cons_self hq), List.find?_cons_of_pos hq, List.find?_cons_of_pos hq]
    · rw [List.find?_cons_of_neg hq]
      by_cases hp : p x = true
      · rw [List.filter_cons_of_pos hp, List.find?_cons_of_neg hq, hrest]
      · rw [List.filter_cons_of_neg hp, hrest]

theorem Taken.congr (h : ∀ k < n, l'.find? (sees k) = l.find? (sees k)) :
    Taken sees n l' x ↔ Taken sees n l x := by
  constructor
  · rintro ⟨k, hk, hfound, hbefore⟩
    refine ⟨k, hk, h k hk ▸ hfound, fun j hj => ?_⟩
    rw [← h j (Nat.lt_trans hj hk)]
    exact hbefore j hj
  · rintro ⟨k, hk, hfound, hbefore⟩
    refine ⟨k, hk, (h k hk).trans hfound, fun j hj => ?_⟩
    rw [h j (Nat.lt_trans hj hk)]
    exact hbefore j hj

theorem Taken.seen (h : Taken sees n l x) : x ∈ l ∧ ∃ k < n, sees k x = true := by
  obtain ⟨k, hk, hfound, _⟩ := h
  exact ⟨List.mem_of_find?_eq_some hfound, k, hk, List.find?_some hfound⟩

end Find

variable [DecidableEq α]

instance (sees : Nat → α → Bool) (n : Nat) (l : List α) (x : α) : Decidable (Taken sees n l x) :=
  inferInstanceAs (Decidable (∃ k < n, _))

/-- What `n` requests leave of a list. -/
def takeOut : Nat → (Nat → α → Bool) → List α → List α
  | 0, _, l => l
  | n + 1, sees, l =>
    match l.find? (sees 0) with
    | none => l
    | some x => takeOut n (fun k => sees (k + 1)) (l.filter (· ≠ x))

/-- What a list of owners leaves. -/
def sweep (sees : α → Nat → α → Bool) (count : α → Nat) : List α → List α → List α
  | [], l => l
  | d :: ds, l => sweep sees count ds (takeOut (count d) (sees d) (l.filter (· ≠ d)))

section Take
variable {p : α → Bool}

/-- What no request sees stays. -/
theorem filter_takeOut : ∀ {n : Nat} {sees : Nat → α → Bool} {l : List α},
    (∀ k < n, ∀ x ∈ l, p x = true → sees k x = false) → (takeOut n sees l).filter p = l.filter p := by
  intro n
  induction n with
  | zero => exact fun _ => rfl
  | succ n ih =>
    intro sees l h
    rw [takeOut]
    split
    next => rfl
    next y hfound =>
      rw [ih fun k hk x hx hp => h (k + 1) (Nat.succ_lt_succ hk) x (List.mem_of_mem_filter hx) hp, List.filter_filter]
      apply List.filter_congr
      intro x hx
      by_cases hp : p x = true
      · have hne : x ≠ y := by
          rintro rfl
          have hseen := List.find?_some hfound
          rw [h 0 (Nat.succ_pos n) x hx hp] at hseen
          cases hseen
        rw [hp, decide_eq_true hne, Bool.and_true]
      · rw [Bool.eq_false_of_not_eq_true hp, Bool.false_and]

theorem mem_of_mem_takeOut {x : α} : ∀ {n : Nat} {sees : Nat → α → Bool} {l : List α}, x ∈ takeOut n sees l → x ∈ l := by
  intro n
  induction n with
  | zero => exact fun h => h
  | succ n ih =>
    intro sees l h
    rw [takeOut] at h
    split at h
    next => exact h
    next => exact List.mem_of_mem_filter (ih h)

/-- Requests no two of which see the same element take what they find in the list as it was. -/
theorem takeOut_eq : ∀ {n : Nat} {sees : Nat → α → Bool} {l : List α},
    (∀ x ∈ l, ∀ j < n, ∀ k < n, sees j x = true → sees k x = true → j = k) →
      takeOut n sees l = l.filter fun x => ¬ Taken sees n l x := by
  intro n
  induction n with
  | zero =>
    intro sees l _
    rw [takeOut, List.filter_eq_self.mpr]
    intro x _
    exact decide_eq_true fun ⟨k, hk, _⟩ => Nat.not_lt_zero k hk
  | succ n ih =>
    intro sees l hdis
    rw [takeOut]
    split
    next hnone =>
      rw [List.filter_eq_self.mpr]
      intro x _
      apply decide_eq_true
      rintro ⟨k, _, hfound, hbefore⟩
      cases k with
      | zero => rw [hnone] at hfound; cases hfound
      | succ k =>
        have hfirst := hbefore 0 (Nat.succ_pos k)
        rw [hnone] at hfirst
        cases hfirst
    next y hfound =>
      have hseen : sees 0 y = true := List.find?_some hfound
      have hy := List.mem_of_find?_eq_some hfound
      -- the others do not see what the first one takes
      have hsame : ∀ k < n, (l.filter (· ≠ y)).find? (sees (k + 1)) = l.find? (sees (k + 1)) := by
        intro k hk
        apply find?_filter_of
        intro x hx hsees
        apply decide_eq_true
        rintro rfl
        have hzero := hdis x hx 0 (Nat.succ_pos n) (k + 1) (Nat.succ_lt_succ hk) hseen hsees
        omega
      rw [ih, List.filter_filter]
      · apply List.filter_congr
        intro x _
        rw [← Bool.decide_and, decide_eq_decide, Taken.congr hsame]
        constructor
        · rintro ⟨hnot, hne⟩ ⟨k, hk, hfoundx, hbefore⟩
          cases k with
          | zero =>
            rw [hfound] at hfoundx
            exact hne (Option.some.inj hfoundx).symm
          | succ k => exact hnot ⟨k, by omega, hfoundx, fun j hj => hbefore (j + 1) (by omega)⟩
        · intro hnot
          constructor
          · rintro ⟨k, hk, hfoundx, hbefore⟩
            refine hnot ⟨k + 1, by omega, hfoundx, fun j hj => ?_⟩
            cases j with
            | zero => rw [hfound]; rfl
            | succ j => exact hbefore j (by omega)
          · rintro rfl
            exact hnot ⟨0, Nat.succ_pos n, hfound, fun j hj => absurd hj (Nat.not_lt_zero j)⟩
      · intro x hx j hj k hk hsj hsk
        have := hdis x (List.mem_of_mem_filter hx) (j + 1) (by omega) (k + 1) (by omega) hsj hsk
        omega

end Take

section Sweep
variable {sees : α → Nat → α → Bool} {count : α → Nat} {ds l : List α} {p : α → Bool}

theorem sweep_append (ds ds' l : List α) : sweep sees count (ds ++ ds') l = sweep sees count ds' (sweep sees count ds l) := by
  induction ds generalizing l with
  | nil => rfl
  | cons d ds ih => exact ih _

theorem mem_sweep {x : α} (h : x ∈ sweep sees count ds l) : x ∈ l ∧ x ∉ ds := by
  induction ds generalizing l with
  | nil => exact ⟨h, List.not_mem_nil⟩
  | cons d ds ih =>
    obtain ⟨hmem, hnot⟩ := ih h
    obtain ⟨hl, hne⟩ := List.mem_filter.mp (mem_of_mem_takeOut hmem)
    refine ⟨hl, fun hx => ?_⟩
    rcases List.mem_cons.mp hx with heq | hds
    · exact of_decide_eq_true hne heq
    · exact hnot hds

/-- What is no owner and is not seen stays. -/
theorem filter_sweep (h : ∀ x ∈ l, p x = true → x ∉ ds ∧ ∀ d ∈ ds, ∀ k < count d, sees d k x = false) :
    (sweep sees count ds l).filter p = l.filter p := by
  induction ds generalizing l with
  | nil => rfl
  | cons d ds ih =>
    have hleave : (l.filter (· ≠ d)).filter p = l.filter p := by
      rw [List.filter_filter]
      apply List.filter_congr
      intro x hx
      by_cases hp : p x = true
      · have hne : x ≠ d := fun heq => (h x hx hp).1 (heq ▸ List.mem_cons_self)
        rw [hp, decide_eq_true hne, Bool.and_true]
      · rw [Bool.eq_false_of_not_eq_true hp, Bool.false_and]
    have htake : (takeOut (count d) (sees d) (l.filter (· ≠ d))).filter p = l.filter p := by
      rw [filter_takeOut, hleave]
      intro k hk x hx hp
      exact (h x (List.mem_of_mem_filter hx) hp).2 d List.mem_cons_self k hk
    rw [sweep, ih, htake]
    intro x hx hp
    have hxl : x ∈ l.filter p := by
      rw [← htake]
      exact List.mem_filter.mpr ⟨hx, hp⟩
    obtain ⟨hnot, hunseen⟩ := h x (List.mem_of_mem_filter hxl) hp
    exact ⟨fun hds => hnot (List.mem_cons_of_mem d hds), fun d' hd' => hunseen d' (List.mem_cons_of_mem d hd')⟩

/-- Owners that no request sees, and no two of whose requests see the same element, take what they find in the list
as it was. -/
theorem sweep_eq (hnodup : ds.Nodup) (hown : ∀ d ∈ ds, ∀ k < count d, ∀ d' ∈ ds, sees d k d' = false)
    (hdis : ∀ x ∈ l, ∀ d ∈ ds, ∀ d' ∈ ds, ∀ k < count d, ∀ k' < count d',
      sees d k x = true → sees d' k' x = true → d = d' ∧ k = k') :
    sweep sees count ds l = l.filter fun x => x ∉ ds ∧ ¬ ∃ d ∈ ds, Taken (sees d) (count d) l x := by
  induction ds generalizing l with
  | nil =>
    rw [sweep, List.filter_eq_self.mpr]
    intro x _
    simp
  | cons d ds ih =>
    obtain ⟨hd, hnodup⟩ := List.nodup_cons.mp hnodup
    have hself : ∀ k < count d, (l.filter (· ≠ d)).find? (sees d k) = l.find? (sees d k) := by
      intro k hk
      apply find?_filter_of
      intro x _ hsees
      apply decide_eq_true
      rintro rfl
      rw [hown x List.mem_cons_self k hk x List.mem_cons_self] at hsees
      cases hsees
    have hstep : takeOut (count d) (sees d) (l.filter (· ≠ d)) =
        l.filter fun x => x ≠ d ∧ ¬ Taken (sees d) (count d) l x := by
      rw [takeOut_eq, List.filter_filter]
      · apply List.filter_congr
        intro x _
        rw [← Bool.decide_and, decide_eq_decide, Taken.congr hself, and_comm]
      · intro x hx j hj k hk hsj hsk
        have hxl := List.mem_of_mem_filter hx
        exact (hdis x hxl d List.mem_cons_self d List.mem_cons_self j hj k hk hsj hsk).2
    -- what the first owner takes is not seen by the others
    have hsame : ∀ d' ∈ ds, ∀ k < count d',
        (l.filter fun x => x ≠ d ∧ ¬ Taken (sees d) (count d) l x).find? (sees d' k) = l.find? (sees d' k) := by
      intro d' hd' k hk
      apply find?_filter_of
      intro x hx hsees
      apply decide_eq_true
      constructor
      · rintro rfl
        rw [hown d' (List.mem_cons_of_mem x hd') k hk x List.mem_cons_self] at hsees
        cases hsees
      · intro htaken
        obtain ⟨_, j, hj, hsj⟩ := htaken.seen
        obtain ⟨rfl, _⟩ := hdis x hx d List.mem_cons_self d' (List.mem_cons_of_mem d hd') j hj k hk hsj hsees
        exact hd hd'
    rw [sweep, hstep, ih hnodup, List.filter_filter]
    · apply List.filter_congr
      intro x _
      rw [← Bool.decide_and, decide_eq_decide]
      have hrest : (∃ d' ∈ ds, Taken (sees d') (count d')
            (l.filter fun x => x ≠ d ∧ ¬ Taken (sees d) (count d) l x) x) ↔
          ∃ d' ∈ ds, Taken (sees d') (count d') l x :=
        exists_congr fun d' => and_congr_right fun hd' => Taken.congr (hsame d' hd')
      rw [hrest, List.mem_cons, not_or, List.exists_mem_cons_iff, not_or]
      tauto
    · intro d' hd' k hk d'' hd''
      exact hown d' (List.mem_cons_of_mem d hd') k hk d'' (List.mem_cons_of_mem d hd'')
    · intro x hx d' hd' d'' hd''
      exact hdis x (List.mem_of_mem_filter hx) d' (List.mem_cons_of_mem d hd') d'' (List.mem_cons_of_mem d hd'')

end Sweep

end WmIot.Picking
