import Mathlib

/-!
# Guarded runs of a labelled step function

`step s e` is what event `e` makes of state `s`, or `none` where `e` cannot happen there. `ok` is a
condition on the steps of a run. Facts about every state of every such run come from
`Reached.invariant`; a single run is evaluated by `exec`.
-/

namespace WmIot.Transition
set_option autoImplicit false

variable {σ ε : Type}

/-- The states reached from an initial state by steps that all meet `ok`. -/
inductive Reached (init : σ → Prop) (step : σ → ε → Option σ) (ok : σ → ε → Prop) : σ → Prop where
  | start {s : σ} : init s → Reached init step ok s
  | next {s s' : σ} {e : ε} :
      Reached init step ok s → ok s e → step s e = some s' → Reached init step ok s'

/-- Every step of a run is allowed. -/
def anyStep (_ : σ) (_ : ε) : Prop := True

/-- The state after a list of events. -/
def exec (step : σ → ε → Option σ) : σ → List ε → Option σ
  | s, [] => some s
  | s, e :: es => (step s e).bind fun s' => exec step s' es

/-- Every event of the list meets `ok` where it happens. -/
def Along (step : σ → ε → Option σ) (ok : σ → ε → Prop) : σ → List ε → Prop
  | _, [] => True
  | s, e :: es => ok s e ∧ ∀ s' ∈ step s e, Along step ok s' es

variable {init : σ → Prop} {step : σ → ε → Option σ} {ok : σ → ε → Prop}

/-- What holds at the start and is kept by each allowed step holds in every state reached. -/
theorem Reached.invariant {Inv : σ → Prop} (hinit : ∀ s, init s → Inv s)
    (hstep : ∀ s e s', Inv s → ok s e → step s e = some s' → Inv s')
    {s : σ} (h : Reached init step ok s) : Inv s := by
  induction h with
  | start h => exact hinit _ h
  | next _ hok hs ih => exact hstep _ _ _ ih hok hs

/-- A condition that is met wherever a stronger one is allows more runs. -/
theorem Reached.mono {ok' : σ → ε → Prop} (himp : ∀ s e, ok s e → ok' s e)
    {s : σ} (h : Reached init step ok s) : Reached init step ok' s := by
  induction h with
  | start h => exact .start h
  | next _ hok hs ih => exact .next ih (himp _ _ hok) hs

/-- An evaluated run whose steps are allowed reaches its last state. -/
theorem Reached.of_exec {es : List ε} : ∀ {s s' : σ}, Reached init step ok s →
    Along step ok s es → exec step s es = some s' → Reached init step ok s' := by
  induction es with
  | nil =>
    intro s s' h _ hrun
    cases hrun
    exact h
  | cons e es ih =>
    intro s s' h halong hrun
    obtain ⟨t, ht, hrun⟩ := Option.bind_eq_some_iff.mp hrun
    exact ih (.next h halong.1 ht) (halong.2 t ht) hrun

/-- Along a run whose steps all meet `ok`, they meet whatever follows from `ok` and an invariant. -/
theorem Along.mono_of_invariant {Inv : σ → Prop} {good : σ → ε → Prop}
    (hstep : ∀ s e s', Inv s → ok s e → step s e = some s' → Inv s') (hgood : ∀ s e, Inv s → ok s e → good s e)
    {es : List ε} : ∀ {s : σ}, Inv s → Along step ok s es → Along step good s es := by
  induction es with
  | nil => exact fun _ _ => trivial
  | cons e es ih =>
    intro s hs halong
    exact ⟨hgood s e hs halong.1, fun s' hs' => ih (hstep s e s' hs halong.1 hs') (halong.2 s' hs')⟩

instance Along.decidable [∀ s e, Decidable (ok s e)] :
    ∀ (s : σ) (es : List ε), Decidable (Along step ok s es)
  | _, [] => .isTrue trivial
  | s, e :: es =>
    match h : step s e with
    | none => decidable_of_iff (ok s e) (by simp [Along, h])
    | some s' =>
      have := Along.decidable s' es
      decidable_of_iff (ok s e ∧ Along step ok s' es) (by simp [Along, h])

theorem along_anyStep (es : List ε) : ∀ s : σ, Along step anyStep s es := by
  induction es with
  | nil => exact fun _ => trivial
  | cons e es ih => exact fun s => ⟨trivial, fun s' _ => ih s'⟩

end WmIot.Transition
