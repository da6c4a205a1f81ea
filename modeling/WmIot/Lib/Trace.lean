import Mathlib

/-!
# Traces of a labelled step relation

The labels of a trace are what can be seen from outside: an operation and its answer. A relation that every step
keeps carries a trace over to another system, label by label.
-/

namespace WmIot.Traces
set_option autoImplicit false

variable {σ τ ℓ : Type}

/-- The steps with these labels lead from one state to the other. -/
inductive Trace (step : σ → ℓ → σ → Prop) : σ → List ℓ → σ → Prop where
  | nil (s : σ) : Trace step s [] s
  | cons {s s' s'' : σ} {l : ℓ} {ls : List ℓ} :
      step s l s' → Trace step s' ls s'' → Trace step s (l :: ls) s''

variable {step : σ → ℓ → σ → Prop} {spec : τ → ℓ → τ → Prop} {R : σ → τ → Prop}

theorem Trace.append {s s' s'' : σ} {ls ms : List ℓ} (h : Trace step s ls s') (h' : Trace step s' ms s'') :
    Trace step s (ls ++ ms) s'' := by
  induction h with
  | nil s => exact h'
  | cons hs _ ih => exact .cons hs (ih h')

/-- What every step with an allowed label keeps is kept by a trace of them. -/
theorem Trace.invariant {I : σ → Prop} {ok : ℓ → Prop} (hstep : ∀ s l s', I s → ok l → step s l s' → I s')
    {s s' : σ} {ls : List ℓ} (h : Trace step s ls s') (hs : I s) (hok : ∀ l ∈ ls, ok l) : I s' := by
  induction h with
  | nil s => exact hs
  | cons hl _ ih =>
    exact ih (hstep _ _ _ hs (hok _ List.mem_cons_self) hl) fun l hmem => hok l (List.mem_cons_of_mem _ hmem)

/-- A relation kept by every step: each trace has one of the other system with the same labels. -/
theorem Trace.simulate (hstep : ∀ s t l s', R s t → step s l s' → ∃ t', spec t l t' ∧ R s' t')
    {s s' : σ} {t : τ} {ls : List ℓ} (h : Trace step s ls s') (hR : R s t) :
    ∃ t', Trace spec t ls t' ∧ R s' t' := by
  induction h generalizing t with
  | nil s => exact ⟨t, .nil t, hR⟩
  | cons hl _ ih =>
    obtain ⟨t₁, ht, hR₁⟩ := hstep _ _ _ _ hR hl
    obtain ⟨t', htrace, hR'⟩ := ih hR₁
    exact ⟨t', .cons ht htrace, hR'⟩

end WmIot.Traces
