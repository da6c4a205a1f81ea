import WmIot.Nvs.Scan

/-!
# Slice accounting

The counters and the hash table of a sector against its content: what a load makes of any
image, and what writing, erasing and copying keep.
-/

namespace WmIot.Nvs
open NorFlash
set_option autoImplicit false

def spans (L : List Entry) : Nat := (L.map fun x => x.2.span).sum

def Entry.Droped (x : Entry) : Prop := x.2.state = itemDroped

instance (x : Entry) : Decidable x.Droped := inferInstanceAs (Decidable (_ = _))

instance (x : Entry) : Decidable x.Known := inferInstanceAs (Decidable (_ ∨ _))

def dropedSpans (L : List Entry) : Nat := spans (L.filter fun x => x.Droped)

/-- The items a walk meets below `next_free_slice`. -/
def itemsBelow (f : Flash) (sec : Sector) : List Entry :=
  (walk f sec.address entryCount 0).filter fun x => x.1 < sec.nextFreeSlice

/-- The counters and the hash table of a sector are those of its content. -/
structure Accounted (P : Port) (f : Flash) (sec : Sector) : Prop where
  bounds : sec.dropedSlice ≤ sec.usedSlice ∧ sec.usedSlice ≤ 127
  used : sec.usedSlice = sec.nextFreeSlice
  droped : sec.dropedSlice = dropedSpans (itemsBelow f sec)
  hash : sec.hash = hashNodes P (itemsBelow f sec)

theorem accounted_iff {P : Port} {f : Flash} {sec : Sector} : Accounted P f sec ↔
    (sec.dropedSlice ≤ sec.usedSlice ∧ sec.usedSlice ≤ 127) ∧ sec.usedSlice = sec.nextFreeSlice ∧
      sec.dropedSlice = dropedSpans (itemsBelow f sec) ∧ sec.hash = hashNodes P (itemsBelow f sec) :=
  ⟨fun h => ⟨h.bounds, h.used, h.droped, h.hash⟩, fun h => ⟨h.1, h.2.1, h.2.2.1, h.2.2.2⟩⟩

@[simp] theorem spans_nil : spans [] = 0 := rfl

@[simp] theorem spans_cons (x : Entry) (L : List Entry) : spans (x :: L) = x.2.span + spans L := rfl

@[simp] theorem spans_append (L M : List Entry) : spans (L ++ M) = spans L + spans M := by simp [spans]

theorem spans_filter_le (p : Entry → Bool) (L : List Entry) : spans (L.filter p) ≤ spans L := by
  induction L with
  | nil => exact Nat.le_refl _
  | cons x L ih =>
    rw [List.filter_cons]
    split
    · simp only [spans_cons]
      omega
    · simp only [spans_cons]
      omega

theorem Chain.spans_eq {f : Flash} {addr i e : Nat} {L : List Entry} (h : Chain f addr i L e) :
    i + spans L = e := by
  induction L generalizing i with
  | nil => exact h
  | cons x L ih =>
    have ht := ih h.2.2
    simp only [spans_cons]
    omega

/-! ## The walk as a chain -/

/-- The walk is a chain; the slice it stops at is the end of the chain, cut off at the sector. -/
theorem walk_chain (f : Flash) (addr n i : Nat) (hi : i ≤ 255) :
    ∃ e, Chain f addr i (walk f addr n i) e ∧ e ≤ 255 ∧
      (127 ≤ i + n → walkEnd f addr n i = min e 127 ∧
        (127 ≤ e ∨ (readItem f (sliceAddr addr e)).state = itemUnused)) := by
  induction n generalizing i with
  | zero =>
    refine ⟨i, rfl, hi, fun h => ⟨?_, Or.inl h⟩⟩
    simp only [walkEnd, entryCount]
    omega
  | succ n ih =>
    unfold walk walkEnd
    by_cases hlt : i < entryCount
    · simp only [if_pos hlt]
      simp only [entryCount] at hlt
      by_cases hs : (readItem f (sliceAddr addr i)).state = itemUnused
      · simp only [if_pos hs]
        exact ⟨i, rfl, hi, fun _ => ⟨by omega, Or.inr hs⟩⟩
      · simp only [if_neg hs]
        have hle := (readItem f (sliceAddr addr i)).span_le
        have hpos := (readItem f (sliceAddr addr i)).span_pos
        obtain ⟨e, hc, he, hend⟩ := ih (i + (readItem f (sliceAddr addr i)).span) (by omega)
        exact ⟨e, ⟨rfl, rfl, hc⟩, he, fun h => hend (by omega)⟩
    · simp only [if_neg hlt]
      simp only [entryCount] at hlt
      refine ⟨i, rfl, hi, fun _ => ⟨?_, Or.inl (by omega)⟩⟩
      simp only [entryCount]
      omega

theorem Chain.walk_eq {f : Flash} {addr i e : Nat} {L : List Entry} (h : Chain f addr i L e)
    (hL : ∀ x ∈ L, x.2.state ≠ itemUnused ∧ x.1 < 127)
    (hend : 127 ≤ e ∨ (readItem f (sliceAddr addr e)).state = itemUnused) {n : Nat} (hn : 127 ≤ i + n) :
    walk f addr n i = L := by
  induction L generalizing i n with
  | nil =>
    obtain rfl : i = e := h
    cases n with
    | zero => rfl
    | succ n =>
      unfold walk
      split
      · rename_i hi
        simp only [entryCount] at hi
        simp only [if_pos (hend.resolve_left (by omega))]
      · rfl
  | cons x L ih =>
    obtain ⟨hx, hr, ht⟩ := h
    have hspan := x.2.span_pos
    obtain ⟨hne, hlt⟩ := hL x List.mem_cons_self
    obtain ⟨n, rfl⟩ : ∃ m, n = m + 1 := ⟨n - 1, by omega⟩
    unfold walk
    rw [if_pos (show i < entryCount by simp only [entryCount]; omega)]
    simp only [hr, if_neg hne]
    rw [ih ht (fun y hy => hL y (List.mem_cons_of_mem x hy)) (by omega), ← hx]

/-- In a packed sector the walk meets the entries and nothing else. -/
theorem Packed.itemsBelow_eq {P : Port} {f : Flash} {sec : Sector} {L : List Entry}
    (h : Packed P f sec L) : itemsBelow f sec = L := by
  have hfits := h.fits
  have hwalk : walk f sec.address entryCount 0 = L := by
    apply h.chain.walk_eq
    · intro x hx
      have hb := h.chain.mem_bounds hx
      have hs := x.2.span_pos
      refine ⟨?_, by omega⟩
      rcases h.known x hx with hk | hk
      · rw [hk]
        decide
      · rw [hk]
        decide
    · by_cases hlt : 127 ≤ sec.nextFreeSlice
      · exact Or.inl hlt
      · right
        apply readItem_unused
        apply h.tail.mono (Nat.le_refl _)
        simp only [sliceAddr, sliceSize]
        omega
    · simp
  unfold itemsBelow
  rw [hwalk]
  apply List.filter_eq_self.mpr
  intro x hx
  have hb := h.chain.mem_bounds hx
  have hs := x.2.span_pos
  simp only [decide_eq_true_eq]
  omega

theorem Packed.accounted {P : Port} {f : Flash} {sec : Sector} {L : List Entry} (h : Packed P f sec L)
    (hd : sec.dropedSlice = dropedSpans L) : Accounted P f sec := by
  have hspans := h.chain.spans_eq
  have hle := spans_filter_le (fun x => x.Droped) L
  have hfits := h.fits
  have hused := h.used
  refine ⟨⟨?_, by omega⟩, h.used, by rw [h.itemsBelow_eq, hd], by rw [h.itemsBelow_eq, h.hash]⟩
  rw [hd, dropedSpans]
  omega

/-! ## What a load counts -/

section Fold
variable {P : Port}

theorem count_other (L : List Entry) (sec : Sector) :
    (L.foldl (Sector.count P) sec).state = sec.state ∧
      (L.foldl (Sector.count P) sec).address = sec.address := by
  induction L generalizing sec with
  | nil => exact ⟨rfl, rfl⟩
  | cons x L ih =>
    rw [List.foldl_cons]
    have hx : (sec.count P x).state = sec.state ∧ (sec.count P x).address = sec.address := by
      unfold Sector.count
      split
      · split <;> exact ⟨rfl, rfl⟩
      · split <;> exact ⟨rfl, rfl⟩
    exact ⟨(ih _).1.trans hx.1, (ih _).2.trans hx.2⟩

/-- The used counter, modulo its width. -/
theorem count_used (L : List Entry) (sec : Sector) (h : sec.usedSlice < 256) :
    (L.foldl (Sector.count P) sec).usedSlice =
      (sec.usedSlice + spans (L.filter fun x => x.Known)) % 256 := by
  induction L generalizing sec with
  | nil => exact (Nat.mod_eq_of_lt h).symm
  | cons x L ih =>
    rw [List.foldl_cons, List.filter_cons]
    by_cases hk : x.Known
    · have hx : (sec.count P x).usedSlice = add8 sec.usedSlice x.2.span := by
        unfold Sector.count
        rcases hk with hs | hs
        · rw [if_pos hs]
          split <;> rfl
        · rw [if_neg (by rw [hs]; decide), if_pos hs]
      rw [ih _ (by rw [hx]; exact Nat.mod_lt _ (by decide)), hx, if_pos (by simpa using hk)]
      simp only [spans_cons, add8]
      omega
    · have hx : sec.count P x = sec := by
        unfold Sector.count
        rw [if_neg fun hs => hk (Or.inl hs), if_neg fun hs => hk (Or.inr hs)]
      rw [hx, ih _ h, if_neg (by simpa using hk)]

/-- The dropped counter, modulo its width: a torn item counts twice. -/
theorem count_droped (L : List Entry) (sec : Sector) (h : sec.dropedSlice < 256) :
    (L.foldl (Sector.count P) sec).dropedSlice =
      (sec.dropedSlice + dropedSpans L + 2 * spans (L.filter fun x => x.Torn P)) % 256 := by
  induction L generalizing sec with
  | nil => exact (Nat.mod_eq_of_lt h).symm
  | cons x L ih =>
    rw [List.foldl_cons, dropedSpans, List.filter_cons, List.filter_cons]
    by_cases hu : x.Live
    · have hs : x.2.state = itemUsing := hu
      have hnd : ¬ x.Droped := by
        unfold Entry.Droped
        rw [hs]
        decide
      by_cases hc : x.2.crcItem = itemCrcHead P x.2
      · have ht : ¬ x.Torn P := fun ht => ht.2 hc
        have hx : (sec.count P x).dropedSlice = sec.dropedSlice := by
          simp only [Sector.count, if_pos hs, if_pos hc]
        rw [ih _ (by rw [hx]; exact h), hx, if_neg (by simpa using hnd), if_neg (by simpa using ht)]
        rfl
      · have ht : x.Torn P := ⟨hu, hc⟩
        have hx : (sec.count P x).dropedSlice =
            add8 (add8 sec.dropedSlice x.2.span) x.2.span := by
          simp only [Sector.count, if_pos hs, if_neg hc]
        rw [ih _ (by rw [hx]; exact Nat.mod_lt _ (by decide)), hx, if_neg (by simpa using hnd),
          if_pos (by simpa using ht)]
        simp only [spans_cons, add8, dropedSpans]
        omega
    · have hs : ¬ x.2.state = itemUsing := hu
      have ht : ¬ x.Torn P := fun ht => hu ht.1
      by_cases hd : x.Droped
      · have hx : (sec.count P x).dropedSlice = add8 sec.dropedSlice x.2.span := by
          simp only [Sector.count, if_neg hs, if_pos (show x.2.state = itemDroped from hd)]
        rw [ih _ (by rw [hx]; exact Nat.mod_lt _ (by decide)), hx, if_pos (by simpa using hd),
          if_neg (by simpa using ht)]
        simp only [spans_cons, add8, dropedSpans]
        omega
      · have hx : sec.count P x = sec := by
          simp only [Sector.count, if_neg hs, if_neg (show ¬ x.2.state = itemDroped from hd)]
        rw [hx, ih _ h, if_neg (by simpa using hd), if_neg (by simpa using ht)]
        rfl

def Entry.markTorn (P : Port) (x : Entry) : Entry := if x.Torn P then (x.1, x.2.droped) else x

/-- The hash table lists the items in use that are not torn. -/
theorem count_hash (L : List Entry) (sec : Sector) (h : sec.hash.length + L.length ≤ 127) :
    (L.foldl (Sector.count P) sec).hash = sec.hash ++ hashNodes P (L.map (Entry.markTorn P)) := by
  induction L generalizing sec with
  | nil => simp [hashNodes]
  | cons x L ih =>
    rw [List.foldl_cons, List.map_cons]
    simp only [List.length_cons] at h
    by_cases hu : x.Live
    · have hs : x.2.state = itemUsing := hu
      by_cases hc : x.2.crcItem = itemCrcHead P x.2
      · have ht : ¬ x.Torn P := fun ht => ht.2 hc
        have hx : (sec.count P x).hash = sec.hash ++ [⟨itemCrcHash P x.2, x.1⟩] := by
          simp only [Sector.count, if_pos hs, if_pos hc, hashAppend]
          rw [if_neg (by simp only [entryCount]; omega)]
        rw [ih _ (by rw [hx]; simp; omega), hx, Entry.markTorn, if_neg ht, hashNodes_cons_live P hu]
        simp
      · have hx : (sec.count P x).hash = sec.hash := by
          simp only [Sector.count, if_pos hs, if_neg hc]
        rw [ih _ (by rw [hx]; omega), hx, Entry.markTorn, if_pos ⟨hu, hc⟩,
          hashNodes_cons_dead P (not_live_droped _ _)]
    · have hs : ¬ x.2.state = itemUsing := hu
      have hx : (sec.count P x).hash = sec.hash := by
        simp only [Sector.count, if_neg hs]
        split <;> rfl
      rw [ih _ (by rw [hx]; omega), hx, Entry.markTorn, if_neg fun ht => hu ht.1,
        hashNodes_cons_dead P hu]

end Fold

/-! ## The content after a load -/

section Marked
variable {P : Port} {f : Flash} {addr e : Nat}

@[simp] theorem markTorn_fst (x : Entry) : (x.markTorn P).1 = x.1 := by
  unfold Entry.markTorn
  split <;> rfl

@[simp] theorem markTorn_span (x : Entry) : (x.markTorn P).2.span = x.2.span := by
  unfold Entry.markTorn
  split <;> rfl

theorem spans_markTorn (L : List Entry) : spans (L.map (Entry.markTorn P)) = spans L := by
  induction L with
  | nil => rfl
  | cons x L ih => simp only [List.map_cons, spans_cons, markTorn_span, ih]

/-- Dropping the torn items turns a chain into the chain of the marked items. -/
theorem Chain.dropTorn {A B : List Entry} (h : Chain f addr 0 (A ++ B) e) :
    Chain (B.foldl (Nvs.dropTorn P addr) f) addr 0 (A ++ B.map (Entry.markTorn P)) e := by
  induction B generalizing A f with
  | nil => exact h
  | cons x B ih =>
    rw [List.foldl_cons, List.map_cons, List.append_cons]
    apply ih
    rw [List.append_assoc, List.singleton_append]
    unfold Nvs.dropTorn Entry.markTorn
    split
    · rename_i ht
      have hne : ∀ y ∈ A ++ x :: B, y.1 = x.1 → y = x := fun y hy hxy =>
        h.index_inj hy (by simp) hxy
      have hmark : Nvs.markDroped x.1 (A ++ x :: B) = A ++ (x.1, x.2.droped) :: B := by
        have hp := h.pairwise
        have hpos := x.2.span_pos
        have hA : ∀ y ∈ A, y.1 ≠ x.1 := by
          intro y hy
          have hle := (List.pairwise_append.mp hp).2.2 y hy x List.mem_cons_self
          have hys := y.2.span_pos
          omega
        have hB : ∀ y ∈ B, y.1 ≠ x.1 := by
          intro y hy
          have hle := (List.pairwise_cons.mp (List.pairwise_append.mp hp).2.1).1 y hy
          omega
        have hsplit : Nvs.markDroped x.1 (A ++ x :: B) =
            Nvs.markDroped x.1 A ++ Nvs.markDroped x.1 (x :: B) :=
          List.map_append
        rw [hsplit, markDroped_of_ne hA, markDroped_cons_eq rfl, markDroped_of_ne hB]
      rw [← hmark]
      apply h.markDroped
      intro y hy hyx
      rw [hne y hy hyx]
      exact Or.inl ht.1
    · exact h

theorem dropTorn_agreeOn {B : List Entry} {lo hi : Nat} (h : ∀ x ∈ B, sliceAddr addr x.1 + 1 ≤ lo) :
    AgreeOn (B.foldl (Nvs.dropTorn P addr) f) f lo hi := by
  induction B generalizing f with
  | nil => exact AgreeOn.refl _ _ _
  | cons x B ih =>
    rw [List.foldl_cons]
    apply (ih fun y hy => h y (List.mem_cons_of_mem x hy)).trans
    unfold Nvs.dropTorn
    split
    · apply AgreeOn.program
      right
      exact h x List.mem_cons_self
    · exact AgreeOn.refl _ _ _

/-- The walk over a scanned sector meets the same items, the torn ones dropped. -/
theorem walk_dropTorn (f : Flash) (addr : Nat) :
    walk ((walk f addr entryCount 0).foldl (Nvs.dropTorn P addr) f) addr entryCount 0 =
      (walk f addr entryCount 0).map (Entry.markTorn P) := by
  obtain ⟨e, hc, _, hend⟩ := walk_chain f addr entryCount 0 (by decide)
  have hstop := (hend (by simp)).2
  have hc' : Chain ((walk f addr entryCount 0).foldl (Nvs.dropTorn P addr) f) addr 0
      ((walk f addr entryCount 0).map (Entry.markTorn P)) e :=
    Chain.dropTorn (A := []) hc
  apply hc'.walk_eq _ _ (by simp)
  · intro y hy
    obtain ⟨x, hx, rfl⟩ := List.mem_map.mp hy
    obtain ⟨_, hlt, hne, _⟩ := walk_mem hx
    rw [markTorn_fst]
    refine ⟨?_, hlt⟩
    unfold Entry.markTorn
    split
    · rw [state_droped]
      decide
    · exact hne
  · rcases hstop with hstop | hstop
    · exact Or.inl hstop
    · right
      rw [← hstop]
      apply congrArg Item.state
      apply readItem_congr
      apply dropTorn_agreeOn
      intro x hx
      have hb := hc.mem_bounds hx
      have hs := x.2.span_pos
      have hm := sliceAddr_mono addr (show x.1 + 1 ≤ e by omega)
      rw [sliceAddr_add] at hm
      omega

end Marked

end WmIot.Nvs
