import Mathlib

/-!
# Places in a ring

A ring of `n` nodes is `Fin n`, the node after `a` is `a + 1`. `place a k` is `k` nodes after `a`. The used nodes of
a ring that is filled at one end and emptied at the other are those from some node on: `Holds`.
-/

namespace WmIot.Ring
set_option autoImplicit false

variable {n : Nat} [NeZero n]

def place (a : Fin n) (k : Nat) : Fin n := a + Fin.ofNat n k

theorem place_zero (a : Fin n) : place a 0 = a := by simp [place]

theorem place_succ (a : Fin n) (k : Nat) : place a (k + 1) = place a k + 1 := by
  simp only [place]
  rw [add_assoc]
  congr 1
  apply Fin.ext
  simp [Fin.val_add]

theorem place_next (a : Fin n) (k : Nat) : place (a + 1) k = place a (k + 1) := by
  rw [place_succ]
  simp only [place]
  rw [add_right_comm]

theorem place_place (a : Fin n) (i j : Nat) : place (place a i) j = place a (i + j) := by
  induction j with
  | zero => rw [place_zero, Nat.add_zero]
  | succ j ih => rw [place_succ, ih, ← Nat.add_assoc, place_succ]

theorem place_around (a : Fin n) : place a n = a := by
  simp [place, Fin.ofNat]

theorem place_inj {a : Fin n} {i j : Nat} (hi : i < n) (hj : j < n)
    (h : place a i = place a j) : i = j := by
  have hfin : Fin.ofNat n i = Fin.ofNat n j := add_left_cancel h
  have hval := congrArg Fin.val hfin
  simpa [Nat.mod_eq_of_lt hi, Nat.mod_eq_of_lt hj] using hval

theorem place_ne {a : Fin n} {i j : Nat} (hi : i < n) (hj : j < n) (hne : i ≠ j) : place a i ≠ place a j :=
  fun heq => hne (place_inj hi hj heq)

/-! ## A queue in a ring -/

variable {β : Type} {cell : Fin n → Option β} {a : Fin n} {q : List β}

/-- The nodes from `a` on hold `q`, and the others are free. -/
structure Holds (cell : Fin n → Option β) (a : Fin n) (q : List β) : Prop where
  fits : q.length ≤ n
  held : ∀ i b, q[i]? = some b → cell (place a i) = some b
  free : ∀ i, q.length ≤ i → i < n → cell (place a i) = none

theorem Holds.nil (h : ∀ p, cell p = none) (a : Fin n) : Holds cell a [] :=
  ⟨Nat.zero_le _, fun _ _ hi => by simp at hi, fun _ _ _ => h _⟩

theorem Holds.head {b : β} (h : Holds cell a (b :: q)) : cell a = some b := by
  have hhead := h.held 0 b rfl
  rwa [place_zero] at hhead

/-- Where the first node is free, nothing is queued. -/
theorem Holds.eq_nil (h : Holds cell a q) (hfree : cell a = none) : q = [] := by
  cases q with
  | nil => rfl
  | cons b q => rw [h.head] at hfree; cases hfree

/-- Where the node behind the queue is free, there is room. -/
theorem Holds.lt_of_free (h : Holds cell a q) (hfree : cell (place a q.length) = none) : q.length < n := by
  refine Nat.lt_of_le_of_ne h.fits fun hfull => ?_
  rw [hfull, place_around] at hfree
  rw [h.eq_nil hfree] at hfull
  exact NeZero.ne n hfull.symm

/-- One more at the end. -/
theorem Holds.push (h : Holds cell a q) (hlt : q.length < n) (b : β) :
    Holds (Function.update cell (place a q.length) (some b)) a (q ++ [b]) := by
  have hlen : (q ++ [b]).length = q.length + 1 := by simp
  refine ⟨by omega, fun i c hi => ?_, fun i hge hi => ?_⟩
  · rcases Nat.lt_or_ge i q.length with hlt' | hge
    · rw [List.getElem?_append_left hlt'] at hi
      rw [Function.update_of_ne (place_ne (by omega) hlt hlt'.ne)]
      exact h.held i c hi
    · have hend : i = q.length := by
        have hbound := (List.getElem?_eq_some_iff.mp hi).1
        omega
      subst hend
      rw [List.getElem?_append_right hge, Nat.sub_self] at hi
      rw [Function.update_self, ← hi]
      rfl
  · rw [Function.update_of_ne (place_ne hi hlt (by omega))]
    exact h.free i (by omega) hi

/-- The first one leaves. -/
theorem Holds.pop {b : β} (h : Holds cell a (b :: q)) : Holds (Function.update cell a none) (a + 1) q := by
  have hfits : q.length + 1 ≤ n := h.fits
  have hother : ∀ i, i + 1 < n → place a (i + 1) ≠ a := fun i hi => by
    have hne := place_ne (a := a) hi (Nat.zero_lt_of_lt hi) (Nat.succ_ne_zero i)
    rwa [place_zero] at hne
  refine ⟨by omega, fun i c hi => ?_, fun i hge hi => ?_⟩
  · have hbound := (List.getElem?_eq_some_iff.mp hi).1
    rw [place_next, Function.update_of_ne (hother i (by omega))]
    exact h.held (i + 1) c hi
  · rw [place_next]
    rcases Nat.lt_or_ge (i + 1) n with hlt | hge'
    · rw [Function.update_of_ne (hother i hlt)]
      exact h.free (i + 1) (Nat.succ_le_succ hge) hlt
    · rw [show i + 1 = n by omega, place_around, Function.update_self]

end WmIot.Ring
