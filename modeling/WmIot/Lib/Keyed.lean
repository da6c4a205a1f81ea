import Mathlib

/-!
# Lists of records as finite maps

Records with different keys are the table of a finite map. Their order is of no consequence, and
adding, removing and replacing a record is an update of the map.
-/

namespace WmIot.Keyed
set_option autoImplicit false

variable {ρ κ ν : Type}

/-- The records of `R` have different keys, and `m` takes each key to the value of its record. -/
structure Represents (key : ρ → κ) (val : ρ → ν) (R : List ρ) (m : κ → Option ν) : Prop where
  nodup : (R.map key).Nodup
  entry : ∀ k v, m k = some v ↔ ∃ r ∈ R, key r = k ∧ val r = v

theorem find?_eq_of_unique {p : ρ → Bool} {R : List ρ} {r : ρ} (hr : r ∈ R) (hp : p r = true)
    (h : ∀ s ∈ R, p s = true → s = r) : R.find? p = some r := by
  cases hfind : R.find? p with
  | none => exact absurd hp (List.find?_eq_none.mp hfind r hr)
  | some s => rw [h s (List.mem_of_find?_eq_some hfind) (List.find?_some hfind)]

section Table
variable {key : ρ → κ} {val : ρ → ν} {R R' : List ρ} {m : κ → Option ν} {r s old : ρ} {k : κ}

theorem Represents.nil : Represents key val [] fun _ => none :=
  ⟨List.nodup_nil, fun _ _ => by simp⟩

theorem Represents.perm (h : Represents key val R m) (hp : R'.Perm R) : Represents key val R' m where
  nodup := (hp.map key).nodup_iff.mpr h.nodup
  entry := fun k v => (h.entry k v).trans (by simp only [hp.mem_iff])

theorem Represents.mem (h : Represents key val R m) (hr : r ∈ R) : m (key r) = some (val r) :=
  (h.entry _ _).mpr ⟨r, hr, rfl, rfl⟩

theorem Represents.eq_of_key (h : Represents key val R m) (hr : r ∈ R) (hs : s ∈ R) (hk : key r = key s) :
    r = s := List.inj_on_of_nodup_map h.nodup hr hs hk

theorem Represents.absent (h : Represents key val R m) : m k = none ↔ ∀ r ∈ R, key r ≠ k := by
  constructor
  · rintro hk r hr rfl
    rw [h.mem hr] at hk
    exact absurd hk (by simp)
  · intro hk
    cases hm : m k with
    | none => rfl
    | some v =>
      obtain ⟨r, hr, hrk, _⟩ := (h.entry k v).mp hm
      exact absurd hrk (hk r hr)

/-- Keeping the records whose keys meet a condition. -/
theorem Represents.filter (h : Represents key val R m) (p : κ → Bool) :
    Represents key val (R.filter fun r => p (key r)) fun k => if p k then m k else none := by
  constructor
  · exact h.nodup.sublist (List.filter_sublist.map key)
  · intro k v
    simp only [List.mem_filter]
    constructor
    · intro hk
      split at hk
      · rename_i hp
        obtain ⟨r, hr, rfl, hv⟩ := (h.entry k v).mp hk
        exact ⟨r, ⟨hr, hp⟩, rfl, hv⟩
      · exact absurd hk (by simp)
    · rintro ⟨r, ⟨hr, hp⟩, rfl, rfl⟩
      rw [if_pos hp]
      exact h.mem hr

variable [DecidableEq κ]

theorem Represents.insert (h : Represents key val R m) (hk : m (key r) = none) :
    Represents key val (r :: R) (Function.update m (key r) (some (val r))) := by
  have hout := h.absent.mp hk
  constructor
  · rw [List.map_cons, List.nodup_cons]
    refine ⟨fun hmem => ?_, h.nodup⟩
    obtain ⟨s, hs, hsk⟩ := List.mem_map.mp hmem
    exact hout s hs hsk
  · intro k v
    simp only [List.mem_cons, exists_eq_or_imp]
    by_cases hkr : k = key r
    · subst hkr
      rw [Function.update_self, Option.some_inj]
      refine ⟨fun hv => Or.inl ⟨rfl, hv⟩, ?_⟩
      rintro (⟨_, hv⟩ | ⟨s, hs, hsk, _⟩)
      · exact hv
      · exact absurd hsk (hout s hs)
    · rw [Function.update_of_ne hkr, h.entry]
      exact ⟨Or.inr, fun hor => hor.resolve_left fun hr => hkr hr.1.symm⟩

theorem Represents.remove (h : Represents key val (r :: R) m) :
    Represents key val R (Function.update m (key r) none) := by
  obtain ⟨hout, hR⟩ := List.nodup_cons.mp h.nodup
  constructor
  · exact hR
  · intro k v
    by_cases hkr : k = key r
    · subst hkr
      rw [Function.update_self]
      refine ⟨fun hv => absurd hv (by simp), ?_⟩
      rintro ⟨s, hs, hsk, _⟩
      exact absurd (List.mem_map.mpr ⟨s, hs, hsk⟩) hout
    · rw [Function.update_of_ne hkr, h.entry]
      simp only [List.mem_cons, exists_eq_or_imp]
      exact ⟨fun hor => hor.resolve_left fun hr => hkr hr.1.symm, Or.inr⟩

theorem Represents.replace (h : Represents key val (old :: R) m) (hk : key old = key r) :
    Represents key val (r :: R) (Function.update m (key r) (some (val r))) := by
  have hrest := h.remove
  rw [hk] at hrest
  have hnew := hrest.insert (r := r) (Function.update_self ..)
  rwa [Function.update_idem] at hnew

end Table

end WmIot.Keyed
