import Mathlib

/-!
# Things divided among holders

Each holder `p` has a list of things, without repetition, and no thing has two holders. A step gives
up things, passes one on or brings in a new one.
-/

namespace WmIot.Holders
set_option autoImplicit false

variable {ι α : Type} {hold : ι → List α} {p q : ι} {l : List α} {x : α}

structure Divided (hold : ι → List α) : Prop where
  nodup : ∀ p, (hold p).Nodup
  once : ∀ p q x, x ∈ hold p → x ∈ hold q → p = q

theorem Divided.congr {hold' : ι → List α} (h : Divided hold) (heq : ∀ p, hold' p = hold p) :
    Divided hold' := by
  have hfun : hold' = hold := funext heq
  rw [hfun]
  exact h

variable [DecidableEq ι]

/-- A holder gives things up. -/
theorem Divided.shrink (h : Divided hold) (hl : l.Nodup) (hsub : ∀ y ∈ l, y ∈ hold p) :
    Divided (Function.update hold p l) := by
  have hback : ∀ r y, y ∈ Function.update hold p l r → y ∈ hold r := by
    intro r y hy
    by_cases hr : r = p
    · subst hr
      rw [Function.update_self] at hy
      exact hsub y hy
    · rwa [Function.update_of_ne hr] at hy
  refine ⟨fun r => ?_, fun r s y hr hs => h.once r s y (hback r y hr) (hback s y hs)⟩
  by_cases hr : r = p
  · subst hr
    rw [Function.update_self]
    exact hl
  · rw [Function.update_of_ne hr]
    exact h.nodup r

/-- A holder gets a thing that nobody has. -/
theorem Divided.fresh (h : Divided hold) (hx : ∀ r, x ∉ hold r) (hl : l.Perm (x :: hold q)) :
    Divided (Function.update hold q l) := by
  have hback : ∀ r y, y ∈ Function.update hold q l r → (r = q ∧ y = x) ∨ y ∈ hold r := by
    intro r y hy
    by_cases hr : r = q
    · subst hr
      rw [Function.update_self, hl.mem_iff] at hy
      rcases List.mem_cons.mp hy with hy | hy
      · exact Or.inl ⟨rfl, hy⟩
      · exact Or.inr hy
    · rw [Function.update_of_ne hr] at hy
      exact Or.inr hy
  refine ⟨fun r => ?_, fun r s y hr hs => ?_⟩
  · by_cases hr : r = q
    · subst hr
      rw [Function.update_self, hl.nodup_iff]
      exact List.nodup_cons.mpr ⟨hx r, h.nodup r⟩
    · rw [Function.update_of_ne hr]
      exact h.nodup r
  · rcases hback r y hr with ⟨hr, hy⟩ | hr
    · rcases hback s y hs with ⟨hs, -⟩ | hs
      · rw [hr, hs]
      · exact absurd (hy ▸ hs) (hx s)
    · rcases hback s y hs with ⟨-, hy⟩ | hs
      · exact absurd (hy ▸ hr) (hx r)
      · exact h.once r s y hr hs

/-- A thing goes from one holder to another. -/
theorem Divided.move {l' : List α} (h : Divided hold) (hpq : p ≠ q)
    (hp : (hold p).Perm (x :: l)) (hq : l'.Perm (x :: hold q)) :
    Divided (Function.update (Function.update hold p l) q l') := by
  have hcons : (x :: l).Nodup := hp.nodup_iff.mp (h.nodup p)
  have hx : x ∈ hold p := hp.mem_iff.mpr List.mem_cons_self
  have hless : Divided (Function.update hold p l) :=
    h.shrink (List.nodup_cons.mp hcons).2 fun y hy => hp.mem_iff.mpr (List.mem_cons_of_mem x hy)
  have habsent : ∀ r, x ∉ Function.update hold p l r := by
    intro r hr
    by_cases hrp : r = p
    · subst hrp
      rw [Function.update_self] at hr
      exact (List.nodup_cons.mp hcons).1 hr
    · rw [Function.update_of_ne hrp] at hr
      exact hrp (h.once r p x hr hx)
  refine hless.fresh habsent ?_
  rw [Function.update_of_ne (Ne.symm hpq)]
  exact hq

end WmIot.Holders
