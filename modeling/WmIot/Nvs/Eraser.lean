import WmIot.Nvs.Writer

/-!
# Finding and erasing

On a tidy store a lookup is a search of the entries of the active sectors. Erasing what a
lookup has just found keeps the store tidy; so do the deletions built from it.
-/

namespace WmIot.Nvs
open NorFlash
set_option autoImplicit false

/-! ## Lookups in a sector -/

/-- Slice `k` is where an entry may start. -/
def Boundary (L : List Entry) (k : Nat) : Prop := k = 0 ∨ ∃ x ∈ L, k = x.1 + x.2.span

theorem Chain.split_at {f : Flash} {addr i e k : Nat} {L : List Entry} (h : Chain f addr i L e)
    (hk : k = i ∨ ∃ x ∈ L, k = x.1 + x.2.span) :
    ∃ A B, L = A ++ B ∧ Chain f addr i A k ∧ Chain f addr k B e := by
  rcases hk with rfl | ⟨x, hx, rfl⟩
  · exact ⟨[], L, rfl, rfl, h⟩
  · obtain ⟨A, B, rfl⟩ := List.append_of_mem hx
    rw [List.append_cons] at h
    obtain ⟨m, hA, hB⟩ := Chain.append_iff.mp h
    have hm : m = x.1 + x.2.span := by
      obtain ⟨j, _, hj⟩ := Chain.append_iff.mp hA
      have hx₁ := hj.1
      have hx₂ : j + x.2.span = m := hj.2.2
      omega
    exact ⟨A ++ [x], B, by simp, by rwa [← hm], by rwa [← hm]⟩

section Sector
variable {P : Port} {st st' : Store} {s k : Nat} {L : List Entry} {q : Query}

/-- A lookup yields the first entry from the start on that it accepts. -/
theorem InUse.find (h : InUse P st s L) (hk : q.key ≠ none ∨ Boundary L k) :
    sectorFindItem P st s q k = L.find? fun x => k ≤ x.1 && q.sees P x.2 := by
  rw [sectorFindItem_eq]
  unfold sectorFind
  simp only
  by_cases hfresh : (st.secArr s).state = sectorUninit
  · rw [if_pos (Or.inr (Or.inr hfresh)), h.nil_of_fresh hfresh]
    rfl
  rw [if_neg (by
    rintro (hs | hs | hs)
    · exact h.crash hs
    · exact h.invalid hs
    · exact hfresh hs)]
  have hfits := h.packed.fits
  split
  · rename_i hge
    rw [List.find?_eq_none.mpr]
    · rfl
    · intro x hx hp
      have hb := h.packed.chain.mem_bounds hx
      have hs := x.2.span_pos
      simp only [Bool.and_eq_true, decide_eq_true_eq, entryCount] at hp hge
      omega
  · rw [Nat.min_eq_left (by simpa using hfits)]
    cases hkey : q.key with
    | some key =>
      apply findLoop_keyed h.packed hkey
      have hlen := h.packed.chain.length_le
      have hle := List.length_filter_le (fun x : Entry => decide (k ≤ x.1)) L
      simp only [entryCount]
      omega
    | none =>
      obtain ⟨A, B, rfl, hA, hB⟩ := h.packed.chain.split_at (hk.resolve_left fun hne => hne hkey)
      rw [findLoop_walk hkey, scan_from hA hB (fun x hx => h.packed.known x (List.mem_append_right A hx))
        hfits, List.find?_filter]
      apply find?_congr_mem
      intro x _
      by_cases hx : k ≤ x.1 <;> simp [hx]

theorem InUse.find_some (h : InUse P st s L) (hk : q.key ≠ none ∨ Boundary L k) {i : Nat} {it : Item}
    (hf : sectorFindItem P st s q k = some (i, it)) :
    (i, it) ∈ L ∧ k ≤ i ∧ q.sees P it = true := by
  rw [h.find hk] at hf
  have hp := List.find?_some hf
  simp only [Bool.and_eq_true, decide_eq_true_eq] at hp
  exact ⟨List.mem_of_find?_eq_some hf, hp.1, hp.2⟩

theorem boundary_markDroped {j : Nat} (h : Boundary L k) : Boundary (markDroped j L) k := by
  rcases h with rfl | ⟨x, hx, rfl⟩
  · exact Or.inl rfl
  · right
    by_cases hj : x.1 = j
    · exact ⟨(j, x.2.droped), mem_markDroped.mpr (Or.inr ⟨x, hx, hj, rfl⟩), by rw [hj]; rfl⟩
    · exact ⟨x, mem_markDroped.mpr (Or.inl ⟨hx, hj⟩), rfl⟩

end Sector

/-! ## Lookups in the store -/

section Store
variable {P : Port} {st st' : Store} {s : Nat} {q : Query}

theorem smFindFrom_some {L : List Nat} {k i : Nat} {it : Item}
    (h : smFindFrom P st q k L = some (s, i, it)) :
    s ∈ L ∧ sectorFindItem P st s q k = some (i, it) := by
  induction L with
  | nil => simp [smFindFrom] at h
  | cons e L ih =>
    unfold smFindFrom at h
    split at h
    · rename_i j jt hf
      simp only [Option.some.injEq, Prod.mk.injEq] at h
      obtain ⟨rfl, rfl, rfl⟩ := h
      exact ⟨List.mem_cons_self, hf⟩
    · obtain ⟨hm, hf⟩ := ih h
      exact ⟨List.mem_cons_of_mem e hm, hf⟩

/-- What a lookup finds lies in an active sector. -/
theorem Tidy.find_keyed (ht : Tidy P st) {k i : Nat} {it : Item} (hk : q.key ≠ none)
    (h : smFindItem P st q k = some (s, i, it)) :
    s ∈ st.active ∧ (i, it) ∈ st.items s ∧ q.sees P it = true := by
  obtain ⟨hs, hf⟩ := smFindFrom_some h
  obtain ⟨L, hL⟩ := ht.active s hs
  obtain ⟨hm, _, hsees⟩ := hL.find_some (Or.inl hk) hf
  rw [hL.items_eq]
  exact ⟨hs, hm, hsees⟩

end Store

/-! ## Erasing -/

/-- `st'` is a tidy store that comes from `st` by well placed events. -/
structure Orderly (P : Port) (st st' : Store) : Prop where
  tidy : Tidy P st'
  secNum : st'.secNum = st.secNum
  trace : ∃ evs, Trace st st' evs ∧ WellPlaced evs

section Erase
variable {P : Port} {st st₁ st₂ st' : Store} {s : Nat}

theorem Orderly.refl (h : Tidy P st) : Orderly P st st := ⟨h, rfl, [], Trace.refl st, .nil⟩

theorem Orderly.trans (h : Orderly P st st₁) (h' : Orderly P st₁ st₂) : Orderly P st st₂ where
  tidy := h'.tidy
  secNum := h'.secNum.trans h.secNum
  trace := by
    obtain ⟨xs, hx, hwx⟩ := h.trace
    obtain ⟨ys, hy, hwy⟩ := h'.trace
    exact ⟨xs ++ ys, hx.trans hy, hwx.append hwy⟩

theorem Orderly.of_grows (ht : Tidy P st') (h : Grows st st') : Orderly P st st' := by
  obtain ⟨evs, htr, hw, _⟩ := h.trace
  exact ⟨ht, h.secNum, evs, htr, hw⟩

/-- The entries of the active sectors stay where they are, up to being dropped. -/
structure Thins (P : Port) (st st' : Store) : Prop extends Orderly P st st' where
  active : st'.active = st.active
  idle : st'.idle = st.idle
  groups : st'.groupList = st.groupList
  state : ∀ t, (st'.secArr t).state = (st.secArr t).state
  boundary : ∀ t ∈ st.active, ∀ k, Boundary (st.items t) k → Boundary (st'.items t) k

theorem Thins.refl (h : Tidy P st) : Thins P st st := ⟨.refl h, rfl, rfl, rfl, fun _ => rfl, fun _ _ _ hk => hk⟩

theorem Thins.trans (h : Thins P st st₁) (h' : Thins P st₁ st₂) : Thins P st st₂ where
  toOrderly := h.toOrderly.trans h'.toOrderly
  active := h'.active.trans h.active
  idle := h'.idle.trans h.idle
  groups := h'.groups.trans h.groups
  state := fun t => (h'.state t).trans (h.state t)
  boundary := by
    intro t ht k hk
    apply h'.boundary t _ k (h.boundary t ht k hk)
    rwa [h.active]

theorem Tidy.erase_thins (ht : Tidy P st) (hs : s ∈ st.active) {x : Entry} (hx : x ∈ st.items s)
    (it : Item) : Thins P st (sectorEraseItem st s x.1 it true) := by
  obtain ⟨ht', hl, hitems, _⟩ := ht.erase hs hx it
  have hmem : s ∈ st.active ++ st.idle := List.mem_append_left _ hs
  obtain ⟨evs, htr, hw, _⟩ := hl.wellPlaced hs (ht.address s hmem)
  refine ⟨⟨ht', hl.secNum, evs, htr, hw⟩, hl.active, hl.idle, hl.groups, ?_, ?_⟩
  · intro t
    by_cases hne : t = s
    · rw [hne, sectorEraseItem_secArr]
    · rw [hl.others t hne]
  intro t hta k hk
  by_cases hne : t = s
  · rw [hne] at hk ⊢
    rw [hitems]
    exact boundary_markDroped hk
  · obtain ⟨L, hL⟩ := ht.active t hta
    rwa [(ht.sameAt hl hmem (List.mem_append_left _ hta) hne).items hL]

theorem Tidy.eraseSegs (ht : Tidy P st) (it : Item) (n i : Nat) (err : Err) :
    Thins P st (eraseSegsLoop P it n i err st).2 := by
  induction n generalizing i err st with
  | zero => exact .refl ht
  | succ n ih =>
    unfold eraseSegsLoop
    split
    · exact .refl ht
    · rename_i s index seg hfind
      obtain ⟨hs, hm, _⟩ := ht.find_keyed (by simp [segQuery]) hfind
      have he := ht.erase_thins hs hm seg
      exact he.trans (ih he.tidy _ _)

theorem Tidy.eraseFound (ht : Tidy P st) (hs : s ∈ st.active) {i : Nat} {it : Item}
    (hx : (i, it) ∈ st.items s) : Thins P st (Nvs.eraseFound P st s i it).2 := by
  have he := ht.erase_thins hs hx it
  unfold Nvs.eraseFound
  split
  · exact he.trans (he.tidy.eraseSegs it _ _ _)
  · exact he

theorem Tidy.delItem (ht : Tidy P st) (g : Byte) (t : NvsType) (key : List Byte) :
    Thins P st (storageDelItem P st g t key).2 := by
  unfold storageDelItem
  split
  · exact .refl ht
  · rename_i s i it hfind
    obtain ⟨hs, hm, _⟩ := ht.find_keyed (by simp [keyQuery]) hfind
    exact ht.eraseFound hs hm

theorem Tidy.delGroupLoop (ht : Tidy P st) (g : Byte) (hs : s ∈ st.active) (n start : Nat)
    (hstart : Boundary (st.items s) start) : Thins P st (Nvs.delGroupLoop P g s n start st) := by
  induction n generalizing start st with
  | zero => exact .refl ht
  | succ n ih =>
    unfold Nvs.delGroupLoop
    split
    · exact .refl ht
    · rename_i i it hfind
      obtain ⟨L, hL⟩ := ht.active s hs
      obtain ⟨hm, _, _⟩ := hL.find_some (Or.inr (by rwa [← hL.items_eq])) hfind
      rw [← hL.items_eq] at hm
      have he := ht.eraseFound hs hm
      apply he.trans
      apply ih he.tidy (by rwa [he.active])
      exact he.boundary s hs _ (Or.inr ⟨(i, it), hm, rfl⟩)

/-- Passing over the sectors one after the other, each pass keeping them where they are. -/
theorem Tidy.foldl_thins (ht : Tidy P st) (f : Store → Nat → Store) {L : List Nat}
    (hL : ∀ s ∈ L, s ∈ st.active)
    (hf : ∀ st s, Tidy P st → s ∈ st.active → Thins P st (f st s)) : Thins P st (L.foldl f st) := by
  induction L generalizing st with
  | nil => exact .refl ht
  | cons s L ih =>
    have h₁ := hf st s ht (hL s List.mem_cons_self)
    apply h₁.trans
    apply ih h₁.tidy
    intro t htL
    rw [h₁.active]
    exact hL t (List.mem_cons_of_mem s htL)

theorem Tidy.delGroup (ht : Tidy P st) (g : Byte) : Thins P st (storageDelGroup P st g).2 :=
  ht.foldl_thins _ (fun _ hs => hs) fun _ _ ht hs => ht.delGroupLoop g hs _ 0 (Or.inl rfl)

theorem Tidy.readItem (ht : Tidy P st) (g : Byte) (t : NvsType) (key : List Byte) (size : Nat) :
    Thins P st (storageReadItem P st g t key size).2 := by
  unfold storageReadItem
  split
  · exact .refl ht
  · rename_i s i it hfind
    obtain ⟨hs, hm, _⟩ := ht.find_keyed (by simp [keyQuery]) hfind
    by_cases hblob : t = .blob
    · simp only [if_pos hblob]
      split
      · exact .refl ht
      · split
        · exact .refl ht
        · simp only
          split
          · exact ht.erase_thins hs hm it
          · exact .refl ht
    · simp only [if_neg hblob]
      split
      · exact .refl ht
      · split
        · exact .refl ht
        · exact .refl ht

end Erase

end WmIot.Nvs
