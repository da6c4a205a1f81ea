import Mathlib

/-!
# Networks of two rounds

Two halves, each in turn masked with a function of the other. Where masking twice with the same half changes
nothing, the rounds in the other order undo the network, whatever the functions are.
-/

namespace WmIot.Feistel
set_option autoImplicit false

section
variable {α β : Type*} {F : α → β → β} {G : β → α → α}

/-- First the right half, then the left one. -/
def hide (F : α → β → β) (G : β → α → α) (x : α × β) : α × β := (G (F x.1 x.2) x.1, F x.1 x.2)

/-- First the left half, then the right one. -/
def reveal (F : α → β → β) (G : β → α → α) (x : α × β) : α × β := (G x.2 x.1, F (G x.2 x.1) x.2)

theorem reveal_hide (hF : ∀ a, Function.Involutive (F a)) (hG : ∀ b, Function.Involutive (G b)) (x : α × β) :
    reveal F G (hide F G x) = x := by
  have hleft : G (F x.1 x.2) (G (F x.1 x.2) x.1) = x.1 := hG _ _
  rw [hide, reveal]
  dsimp only
  rw [hleft, hF]

theorem hide_reveal (hF : ∀ a, Function.Involutive (F a)) (hG : ∀ b, Function.Involutive (G b)) (x : α × β) :
    hide F G (reveal F G x) = x := by
  have hright : F (G x.2 x.1) (F (G x.2 x.1) x.2) = x.2 := hF _ _
  rw [reveal, hide]
  dsimp only
  rw [hright, hG]

/-- What is revealed is what was hidden. -/
theorem reveal_eq_iff (hF : ∀ a, Function.Involutive (F a)) (hG : ∀ b, Function.Involutive (G b)) {x y : α × β} :
    reveal F G y = x ↔ y = hide F G x := by
  constructor
  · rintro rfl
    exact (hide_reveal hF hG y).symm
  · rintro rfl
    exact reveal_hide hF hG x

end

/-! ## Masks -/

section
variable {α : Type*} {op : α → α → α}

/-- A mask that is long enough, put on twice. -/
theorem zipWith_cancel (hop : ∀ a m, op (op a m) m = a) :
    ∀ {a mask : List α}, a.length ≤ mask.length → List.zipWith op (List.zipWith op a mask) mask = a := by
  intro a
  induction a with
  | nil => exact fun _ => by rw [List.zipWith_nil_left, List.zipWith_nil_left]
  | cons b a ih =>
    intro mask hlen
    cases mask with
    | nil => exact absurd hlen (by simp)
    | cons m mask =>
      rw [List.zipWith_cons_cons, List.zipWith_cons_cons, hop, ih (by simpa using hlen)]

/-- Of a mask only as much as is covered counts. -/
theorem zipWith_extend (mask' : List α) :
    ∀ {a mask : List α}, a.length ≤ mask.length → List.zipWith op a (mask ++ mask') = List.zipWith op a mask := by
  intro a
  induction a with
  | nil => exact fun _ => by rw [List.zipWith_nil_left, List.zipWith_nil_left]
  | cons b a ih =>
    intro mask hlen
    cases mask with
    | nil => exact absurd hlen (by simp)
    | cons m mask =>
      rw [List.cons_append, List.zipWith_cons_cons, List.zipWith_cons_cons, ih (by simpa using hlen)]

end

end WmIot.Feistel
