import WmIot.Nvs.Sector

/-!
# Sector layout

What a sector holds, read off the flash: `scan` is the list of items a linear walk meets,
`Chain` the relation behind it. `Packed` says that the RAM description of a sector
(`next_free_slice`, `used_slice` and the hash table) is the one of its flash content and
that everything behind the last item is still erased.
-/

namespace WmIot.Nvs
open NorFlash
set_option autoImplicit false

/-- An item with the slice it starts at. -/
abbrev Entry := Nat × Item

def Entry.Live (e : Entry) : Prop := e.2.state = itemUsing

instance (e : Entry) : Decidable e.Live := inferInstanceAs (Decidable (_ = _))

theorem using_ne_droped : itemUsing ≠ itemDroped := by decide

/-- USING or DROPED. -/
def Entry.Known (e : Entry) : Prop := e.2.state = itemUsing ∨ e.2.state = itemDroped

/-- The items from slice `i` on, as far as they are USING or DROPED and start below `end_`. -/
def scan (f : Flash) (addr end_ : Nat) : Nat → Nat → List Entry
  | 0, _ => []
  | n + 1, i =>
    if i < end_ then
      let it := readItem f (sliceAddr addr i)
      if it.state = itemUsing ∨ it.state = itemDroped then (i, it) :: scan f addr end_ n (i + it.span)
      else []
    else []

/-- The items of `L` lie one behind the other from slice `i` to slice `e`. -/
def Chain (f : Flash) (addr : Nat) : Nat → List Entry → Nat → Prop
  | i, [], e => i = e
  | i, (k, it) :: L, e => k = i ∧ readItem f (sliceAddr addr i) = it ∧ Chain f addr (i + it.span) L e

theorem sliceAddr_add (addr i n : Nat) : sliceAddr addr (i + n) = sliceAddr addr i + n * 32 := by
  simp only [sliceAddr, sliceSize]
  omega

theorem sliceAddr_last (addr : Nat) : sliceAddr addr 127 = addr + 4096 := by
  simp only [sliceAddr, sliceSize]

theorem sliceAddr_mono (addr : Nat) {i j : Nat} (h : i ≤ j) : sliceAddr addr i ≤ sliceAddr addr j := by
  simp only [sliceAddr, sliceSize]
  omega

namespace Chain
variable {f g : Flash} {addr i e : Nat} {L M : List Entry}

theorem le (h : Chain f addr i L e) : i ≤ e := by
  induction L generalizing i with
  | nil => exact Nat.le_of_eq h
  | cons x L ih =>
    have hx := ih h.2.2
    omega

theorem append_iff : Chain f addr i (L ++ M) e ↔ ∃ m, Chain f addr i L m ∧ Chain f addr m M e := by
  induction L generalizing i with
  | nil => simp [Chain]
  | cons x L ih =>
    simp only [List.cons_append, Chain, ih]
    constructor
    · rintro ⟨hk, hr, m, h₁, h₂⟩
      exact ⟨m, ⟨hk, hr, h₁⟩, h₂⟩
    · rintro ⟨m, ⟨hk, hr, h₁⟩, h₂⟩
      exact ⟨hk, hr, m, h₁, h₂⟩

theorem mem_bounds (h : Chain f addr i L e) {x : Entry} (hx : x ∈ L) :
    i ≤ x.1 ∧ x.1 + x.2.span ≤ e := by
  induction L generalizing i with
  | nil => simp at hx
  | cons y L ih =>
    obtain ⟨hk, _, ht⟩ := h
    rcases List.mem_cons.mp hx with rfl | hx
    · have hle := ht.le
      omega
    · have hb := ih ht hx
      omega

theorem mem_read (h : Chain f addr i L e) {x : Entry} (hx : x ∈ L) :
    readItem f (sliceAddr addr x.1) = x.2 := by
  induction L generalizing i with
  | nil => simp at hx
  | cons y L ih =>
    obtain ⟨hk, hr, ht⟩ := h
    rcases List.mem_cons.mp hx with rfl | hx
    · rw [hk]
      exact hr
    · exact ih ht hx

/-- Entries start in increasing order and do not overlap. -/
theorem pairwise (h : Chain f addr i L e) : L.Pairwise fun x y => x.1 + x.2.span ≤ y.1 := by
  induction L generalizing i with
  | nil => exact List.Pairwise.nil
  | cons x L ih =>
    obtain ⟨hk, _, ht⟩ := h
    refine List.pairwise_cons.mpr ⟨fun y hy => ?_, ih ht⟩
    have hb := ht.mem_bounds hy
    omega

theorem index_inj (h : Chain f addr i L e) {x y : Entry} (hx : x ∈ L) (hy : y ∈ L)
    (hxy : x.1 = y.1) : x = y := by
  have hr := h.mem_read hx
  rw [hxy, h.mem_read hy] at hr
  exact Prod.ext hxy hr.symm

theorem length_le (h : Chain f addr i L e) : i + L.length ≤ e := by
  induction L generalizing i with
  | nil => exact Nat.le_of_eq h
  | cons x L ih =>
    have hs := x.2.span_pos
    have ht := ih h.2.2
    simp only [List.length_cons]
    omega

theorem congr (h : Chain f addr i L e) (hfg : AgreeOn f g (sliceAddr addr i) (sliceAddr addr e)) :
    Chain g addr i L e := by
  induction L generalizing i with
  | nil => exact h
  | cons x L ih =>
    obtain ⟨hk, hr, ht⟩ := h
    have hle := ht.le
    have hs := x.2.span_pos
    refine ⟨hk, ?_, ih ht (hfg.mono (sliceAddr_mono _ (by omega)) (Nat.le_refl _))⟩
    rw [← hr]
    apply readItem_congr
    apply (hfg.mono (Nat.le_refl _) ?_).symm
    have hlast := sliceAddr_mono addr (show i + 1 ≤ e by omega)
    rw [sliceAddr_add] at hlast
    simp only [sliceSize]
    omega

/-- The walk over a chain of known items is that chain. -/
theorem scan_eq (h : Chain f addr i L e) (hk : ∀ x ∈ L, x.Known) {n : Nat} (hn : e ≤ i + n) :
    scan f addr e n i = L := by
  induction L generalizing i n with
  | nil =>
    cases n with
    | zero => rfl
    | succ n => simp [scan, show ¬ i < e by have := h; simp only [Chain] at this; omega]
  | cons x L ih =>
    obtain ⟨hx, hr, ht⟩ := h
    have hle := ht.le
    have hs := x.2.span_pos
    obtain ⟨n, rfl⟩ : ∃ m, n = m + 1 := ⟨n - 1, by omega⟩
    have hstate : x.2.state = itemUsing ∨ x.2.state = itemDroped := hk x List.mem_cons_self
    simp only [scan, hr, if_pos (show i < e by omega), if_pos hstate]
    rw [ih ht (fun y hy => hk y (List.mem_cons_of_mem x hy)) (by omega), ← hx]

end Chain

/-- The head of what a walk finds, and that it is a chain. -/
theorem scan_chain (f : Flash) (addr end_ n i : Nat) :
    ∃ e, Chain f addr i (scan f addr end_ n i) e ∧
      (∀ x ∈ scan f addr end_ n i, x.Known ∧ x.1 < end_) ∧
      (end_ ≤ i + n → end_ ≤ e ∨ ¬ Entry.Known (e, readItem f (sliceAddr addr e))) := by
  induction n generalizing i with
  | zero => exact ⟨i, rfl, by simp [scan], fun h => Or.inl (by omega)⟩
  | succ n ih =>
    unfold scan
    split
    · rename_i hi
      simp only
      split
      · rename_i hk
        obtain ⟨e, hc, hm, hstop⟩ := ih (i + (readItem f (sliceAddr addr i)).span)
        have hs := (readItem f (sliceAddr addr i)).span_pos
        refine ⟨e, ⟨rfl, rfl, hc⟩, ?_, fun h => hstop (by omega)⟩
        intro x hx
        rcases List.mem_cons.mp hx with rfl | hx
        · exact ⟨hk, hi⟩
        · exact hm x hx
      · rename_i hk
        exact ⟨i, rfl, by simp, fun _ => Or.inr hk⟩
    · exact ⟨i, rfl, by simp, fun _ => Or.inl (by omega)⟩

/-! ## Marking an item as dropped -/

def Item.droped (it : Item) : Item := { it with state := itemDroped }

/-- The entry at slice `k` becomes DROPED. -/
def markDroped (k : Nat) (L : List Entry) : List Entry :=
  L.map fun x => if x.1 = k then (x.1, x.2.droped) else x

@[simp] theorem span_droped (it : Item) : it.droped.span = it.span := rfl

@[simp] theorem state_droped (it : Item) : it.droped.state = itemDroped := rfl

@[simp] theorem markDroped_nil (k : Nat) : markDroped k [] = [] := rfl

theorem markDroped_cons_eq {k : Nat} {x : Entry} (h : x.1 = k) (L : List Entry) :
    markDroped k (x :: L) = (x.1, x.2.droped) :: markDroped k L := by
  simp only [markDroped, List.map_cons, if_pos h]

theorem markDroped_cons_ne {k : Nat} {x : Entry} (h : x.1 ≠ k) (L : List Entry) :
    markDroped k (x :: L) = x :: markDroped k L := by
  simp only [markDroped, List.map_cons, if_neg h]

theorem markDroped_of_ne {k : Nat} {L : List Entry} (h : ∀ x ∈ L, x.1 ≠ k) : markDroped k L = L := by
  induction L with
  | nil => rfl
  | cons x L ih =>
    rw [markDroped_cons_ne (h x List.mem_cons_self), ih fun y hy => h y (List.mem_cons_of_mem x hy)]

theorem mem_markDroped {k : Nat} {L : List Entry} {x : Entry} :
    x ∈ markDroped k L ↔ (x ∈ L ∧ x.1 ≠ k) ∨ ∃ y ∈ L, y.1 = k ∧ x = (k, y.2.droped) := by
  simp only [markDroped, List.mem_map]
  constructor
  · rintro ⟨y, hy, rfl⟩
    split
    · rename_i hk
      exact Or.inr ⟨y, hy, hk, by rw [hk]⟩
    · rename_i hk
      exact Or.inl ⟨hy, hk⟩
  · rintro (⟨hx, hk⟩ | ⟨y, hy, hk, rfl⟩)
    · exact ⟨x, hx, if_neg hk⟩
    · exact ⟨y, hy, by rw [if_pos hk, hk]⟩

/-- Clearing bits of the state byte changes nothing else of the item. -/
theorem readItem_program_state (f : Flash) (addr : Nat) (b : Byte) :
    readItem (program f addr [b]) addr =
      { readItem f addr with state := (readItem f addr).state &&& b } := by
  have h0 : program f addr [b] (addr + 0) = f (addr + 0) &&& b := by
    unfold program
    rw [if_pos (by simp)]
    simp
  have hout : ∀ k, 0 < k → program f addr [b] (addr + k) = f (addr + k) := fun k hk =>
    program_apply_out (by simp; omega)
  unfold readItem Item.ofBytes
  have hname : ∀ i : Fin maxKeyLen, program f addr [b] (addr + (1 + i)) = f (addr + (1 + i)) :=
    fun i => hout _ (by omega)
  have hdata : ∀ i : Fin 8, program f addr [b] (addr + (24 + i)) = f (addr + (24 + i)) :=
    fun i => hout _ (by omega)
  simp only [h0, hname, hdata, hout 16 (by decide), hout 17 (by decide), hout 18 (by decide),
    hout 19 (by decide), hout 20 (by decide), hout 21 (by decide), hout 22 (by decide),
    hout 23 (by decide)]

theorem readItem_program_off {f : Flash} {addr a : Nat} {bytes : List Byte}
    (h : addr + 32 ≤ a ∨ a + bytes.length ≤ addr) :
    readItem (program f a bytes) addr = readItem f addr :=
  readItem_congr (AgreeOn.program (by simpa using h))

theorem Chain.markDroped {f : Flash} {addr i e k : Nat} {L : List Entry} (h : Chain f addr i L e)
    (hlive : ∀ x ∈ L, x.1 = k → x.Known) :
    Chain (program f (sliceAddr addr k) [itemDroped]) addr i (markDroped k L) e := by
  induction L generalizing i with
  | nil => exact h
  | cons x L ih =>
    obtain ⟨hx, hr, ht⟩ := h
    have htail := ih ht fun y hy => hlive y (List.mem_cons_of_mem x hy)
    by_cases hk : x.1 = k
    · rw [markDroped_cons_eq hk]
      refine ⟨hx, ?_, htail⟩
      have hstate : x.2.state &&& itemDroped = itemDroped := by
        rcases hlive x List.mem_cons_self hk with h | h <;> rw [h] <;> decide
      rw [← hk, hx, readItem_program_state, hr, hstate]
      rfl
    · rw [markDroped_cons_ne hk]
      refine ⟨hx, ?_, htail⟩
      rw [← hr]
      apply readItem_program_off
      simp only [List.length_singleton, sliceAddr, sliceSize]
      omega

/-! ## Packed sectors -/

def hashNodes (P : Port) (L : List Entry) : List HashNode :=
  (L.filter fun x => x.Live).map fun x => ⟨itemCrcHash P x.2, x.1⟩

structure Packed (P : Port) (f : Flash) (sec : Sector) (L : List Entry) : Prop where
  chain : Chain f sec.address 0 L sec.nextFreeSlice
  fits : sec.nextFreeSlice ≤ 127
  known : ∀ x ∈ L, x.Known
  tail : BlankOn f (sliceAddr sec.address sec.nextFreeSlice) (sec.address + 4096)
  used : sec.usedSlice = sec.nextFreeSlice
  hash : sec.hash = hashNodes P L

namespace Packed
variable {P : Port} {f g : Flash} {sec : Sector} {L : List Entry}

theorem congr (h : Packed P f sec L) (hfg : AgreeOn f g sec.address (sec.address + 4096)) :
    Packed P g sec L where
  chain := by
    apply h.chain.congr
    apply hfg.mono
    · simp only [sliceAddr]
      omega
    · rw [← sliceAddr_last]
      exact sliceAddr_mono _ h.fits
  fits := h.fits
  known := h.known
  tail := by
    apply AgreeOn.blankOn _ h.tail
    apply (hfg.mono _ (Nat.le_refl _)).symm
    simp only [sliceAddr]
    omega
  used := h.used
  hash := h.hash

theorem scan_eq (h : Packed P f sec L) :
    scan f sec.address (min sec.nextFreeSlice entryCount) entryCount 0 = L := by
  have hf := h.fits
  rw [Nat.min_eq_left (by simpa using hf)]
  exact h.chain.scan_eq h.known (by simp only [entryCount]; omega)

theorem unique {M : List Entry} (h : Packed P f sec L) (h' : Packed P f sec M) : L = M :=
  h.scan_eq.symm.trans h'.scan_eq

end Packed

theorem hashNodes_cons_live (P : Port) {x : Entry} (h : x.Live) (L : List Entry) :
    hashNodes P (x :: L) = ⟨itemCrcHash P x.2, x.1⟩ :: hashNodes P L := by
  simp [hashNodes, h]

theorem hashNodes_cons_dead (P : Port) {x : Entry} (h : ¬ x.Live) (L : List Entry) :
    hashNodes P (x :: L) = hashNodes P L := by
  simp [hashNodes, h]

theorem hashNodes_append (P : Port) (L M : List Entry) :
    hashNodes P (L ++ M) = hashNodes P L ++ hashNodes P M := by simp [hashNodes]

theorem not_live_droped (k : Nat) (it : Item) : ¬ Entry.Live (k, it.droped) := by
  simp only [Entry.Live, state_droped]
  decide

theorem hashErase_markDroped (P : Port) {L : List Entry} {k : Nat}
    (hp : L.Pairwise fun x y => x.1 < y.1) :
    hashErase (hashNodes P L) k = hashNodes P (markDroped k L) := by
  induction L with
  | nil => rfl
  | cons x L ih =>
    obtain ⟨hx, hL⟩ := List.pairwise_cons.mp hp
    by_cases hk : x.1 = k
    · have hne : ∀ y ∈ L, y.1 ≠ k := by
        intro y hy
        have hlt := hx y hy
        omega
      rw [markDroped_cons_eq hk, hashNodes_cons_dead P (not_live_droped _ _), markDroped_of_ne hne]
      by_cases hl : x.Live
      · rw [hashNodes_cons_live P hl]
        exact List.eraseP_cons_of_pos (by simpa using hk)
      · rw [hashNodes_cons_dead P hl]
        apply List.eraseP_of_forall_not
        intro n hn
        obtain ⟨y, hy, rfl⟩ := List.mem_map.mp hn
        simpa using hne y (List.mem_of_mem_filter hy)
    · rw [markDroped_cons_ne hk]
      by_cases hl : x.Live
      · rw [hashNodes_cons_live P hl, hashNodes_cons_live P hl, ← ih hL]
        exact List.eraseP_cons_of_neg (by simpa using hk)
      · rw [hashNodes_cons_dead P hl, hashNodes_cons_dead P hl, ih hL]

end WmIot.Nvs
