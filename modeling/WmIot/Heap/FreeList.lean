import WmIot.Lib.Tiling
import WmIot.Heap.Heap

/-!
# The free list

Insertion into the free list of a heap is `coalesce` on the tiling of the heap: the links visit
the free spans in order and the headers hold their sizes.
-/

namespace WmIot.Heap
open Tiling
set_option autoImplicit false

section Fields
variable (m : Blocks) (a v c x : Nat)

@[simp] theorem Blocks.setNext_next :
    (m.setNext a v x).nextFreeBlock = if x = a then v else (m x).nextFreeBlock := by
  by_cases h : x = a
  · simp [Blocks.setNext, h]
  · simp [Blocks.setNext, h]

@[simp] theorem Blocks.setNext_size : (m.setNext a v x).blockSize = (m x).blockSize := by
  by_cases h : x = a
  · simp [Blocks.setNext, h]
  · simp [Blocks.setNext, h]

@[simp] theorem Blocks.setNext_heap : (m.setNext a v x).heap = (m x).heap := by
  by_cases h : x = a
  · simp [Blocks.setNext, h]
  · simp [Blocks.setNext, h]

@[simp] theorem Blocks.setSize_next : (m.setSize a v x).nextFreeBlock = (m x).nextFreeBlock := by
  by_cases h : x = a
  · simp [Blocks.setSize, h]
  · simp [Blocks.setSize, h]

@[simp] theorem Blocks.setSize_size :
    (m.setSize a v x).blockSize = if x = a then v else (m x).blockSize := by
  by_cases h : x = a
  · simp [Blocks.setSize, h]
  · simp [Blocks.setSize, h]

@[simp] theorem Blocks.setSize_heap : (m.setSize a v x).heap = (m x).heap := by
  by_cases h : x = a
  · simp [Blocks.setSize, h]
  · simp [Blocks.setSize, h]

@[simp] theorem Blocks.setOwner_next : (m.setOwner a v c x).nextFreeBlock = (m x).nextFreeBlock := by
  by_cases h : x = a
  · simp [Blocks.setOwner, h]
  · simp [Blocks.setOwner, h]

@[simp] theorem Blocks.setOwner_size : (m.setOwner a v c x).blockSize = (m x).blockSize := by
  by_cases h : x = a
  · simp [Blocks.setOwner, h]
  · simp [Blocks.setOwner, h]

@[simp] theorem Blocks.setOwner_heap :
    (m.setOwner a v c x).heap = if x = a then v else (m x).heap := by
  by_cases h : x = a
  · simp [Blocks.setOwner, h]
  · simp [Blocks.setOwner, h]

theorem Blocks.setNext_ne (h : x ≠ a) : m.setNext a v x = m x := Function.update_of_ne h _ _

theorem Blocks.setSize_ne (h : x ≠ a) : m.setSize a v x = m x := Function.update_of_ne h _ _

theorem Blocks.setOwner_ne (h : x ≠ a) : m.setOwner a v c x = m x := Function.update_of_ne h _ _

end Fields

/-! ## Links -/

/-- Each block of the list links to the one behind it. -/
def Links (m : Blocks) (l : List Nat) : Prop := l.IsChain fun x y => (m x).nextFreeBlock = y

section Links
variable {m m' : Blocks} {x y : Nat} {l X Y : List Nat}

theorem links_cons_cons : Links m (x :: y :: l) ↔ (m x).nextFreeBlock = y ∧ Links m (y :: l) :=
  List.isChain_cons_cons

theorem links_split : Links m (X ++ x :: Y) ↔ Links m (X ++ [x]) ∧ Links m (x :: Y) :=
  List.isChain_split

/-- Links read the blocks of the list but its last. -/
theorem Links.congr (h : Links m (l ++ [x])) (hsame : ∀ y ∈ l, (m' y).nextFreeBlock = (m y).nextFreeBlock) :
    Links m' (l ++ [x]) := by
  induction l with
  | nil => exact List.isChain_singleton x
  | cons y l ih =>
    have hy := hsame y List.mem_cons_self
    have hrest := fun h => ih h (fun z hz => hsame z (List.mem_cons_of_mem _ hz))
    cases l with
    | nil =>
      obtain ⟨hlink, -⟩ := links_cons_cons.mp h
      exact links_cons_cons.mpr ⟨hy.trans hlink, List.isChain_singleton x⟩
    | cons z l =>
      obtain ⟨hlink, hl⟩ := links_cons_cons.mp h
      exact links_cons_cons.mpr ⟨hy.trans hlink, hrest hl⟩

/-- A block linked to the first of the list. -/
theorem Links.push (h : Links m (l ++ [x]))
    (hsame : ∀ z ∈ l, (m' z).nextFreeBlock = (m z).nextFreeBlock)
    (hy : ∀ z ∈ (l ++ [x]).head?, (m' y).nextFreeBlock = z) : Links m' (y :: (l ++ [x])) :=
  List.isChain_cons.mpr ⟨hy, h.congr hsame⟩

/-- A block taken out of the list by the one before it. -/
theorem Links.unlink {P b : Nat} (h : Links m (X ++ P :: b :: (Y ++ [x]))) (hX : P ∉ X) (hY : P ∉ Y) :
    Links (m.setNext P (m b).nextFreeBlock) (X ++ P :: (Y ++ [x])) := by
  obtain ⟨hbefore, hsuffix⟩ := links_split.mp h
  obtain ⟨-, hsuffix⟩ := links_cons_cons.mp hsuffix
  obtain ⟨hhead, hrest⟩ := List.isChain_cons.mp hsuffix
  refine links_split.mpr ⟨Links.congr hbefore fun y hy => ?_, Links.push hrest (fun y hy => ?_) fun y hy => ?_⟩
  · rw [Blocks.setNext_next, if_neg]
    rintro rfl
    exact hX hy
  · rw [Blocks.setNext_next, if_neg]
    rintro rfl
    exact hY hy
  · rw [Blocks.setNext_next, if_pos rfl]
    exact hhead y hy

/-- The search for the position stops at the last block before the given one. -/
theorem findPosition_eq {b n : Nat} (h : Links m (x :: (X ++ y :: Y))) (hX : ∀ z ∈ X, z < b) (hy : b ≤ y)
    (hn : X.length < n) :
    findPosition m b n x = (x :: X).getLast (List.cons_ne_nil x X) := by
  induction X generalizing x n with
  | nil =>
    obtain ⟨n, rfl⟩ : ∃ k, n = k + 1 := ⟨n - 1, by simp only [List.length_nil] at hn; omega⟩
    obtain ⟨hlink, -⟩ := links_cons_cons.mp h
    rw [findPosition, if_neg (by omega)]
    rfl
  | cons z X ih =>
    obtain ⟨n, rfl⟩ : ∃ k, n = k + 1 := ⟨n - 1, by simp only [List.length_cons] at hn; omega⟩
    obtain ⟨hlink, hrest⟩ := links_cons_cons.mp h
    have hz := hX z List.mem_cons_self
    rw [findPosition, if_pos (by omega), hlink, ih hrest (fun w hw => hX w (List.mem_cons_of_mem _ hw))]
    · rw [List.getLast_cons (List.cons_ne_nil z X)]
    · simp only [List.length_cons] at hn
      omega

end Links

/-! ## Insertion -/

section Insert
variable {m : Blocks} {heap : Heap} {A B : List Span} {b c : Span} {lo : Nat}

/-- The span `c` is followed by `B`, whose free spans are linked from `next` on. -/
structure Behind (m : Blocks) (heap : Heap) (c : Span) (B : List Span) (next : Nat) : Prop where
  tiles : Tiles (c.addr + c.size) B heap.endBlock
  nonempty : ∀ s ∈ c :: B, 0 < s.size
  sizes : ∀ s ∈ B, s.free = true → (m s.addr).blockSize = s.size
  size : (m c.addr).blockSize = c.size
  head : (freeAddrs B ++ [heap.endBlock]).head? = some next
  links : Links m (freeAddrs B ++ [heap.endBlock])

/-- Merging with what follows: the links from the block on, and its size. -/
theorem Behind.linkNext {next : Nat} (h : Behind m heap c B next) :
    Links (Heap.linkNext m heap c.addr next)
        (c.addr :: (freeAddrs (mergeRight c B).2 ++ [heap.endBlock])) ∧
      (Heap.linkNext m heap c.addr next c.addr).blockSize = (mergeRight c B).1.size ∧
      (∀ x, x ≠ c.addr → Heap.linkNext m heap c.addr next x = m x) ∧
      ∀ x, (Heap.linkNext m heap c.addr next x).heap = (m x).heap := by
  obtain ⟨htiles, hpos, hsizes, hsize, hB, hlinks⟩ := h
  have hc := hpos c List.mem_cons_self
  replace hpos : ∀ s ∈ B, 0 < s.size := fun s hs => hpos s (List.mem_cons_of_mem _ hs)
  have hnot : ∀ (B' : List Span), (∀ s ∈ B', s ∈ B) → c.addr ∉ freeAddrs B' := by
    intro B' hsub hmem
    obtain ⟨s, hs, -, hsc⟩ := mem_freeAddrs.mp hmem
    have hle := (htiles.mem (hsub s hs)).1
    omega
  rcases mergeRight_cases c B with ⟨q, B', rfl, hq, hm⟩ | ⟨hhead, hm⟩
  · rw [hm]
    obtain ⟨hqc, hB'⟩ := htiles
    have hqpos := hpos q List.mem_cons_self
    have hqend := hB'.le
    rw [freeAddrs_cons, hq, if_pos rfl, List.cons_append] at hB hlinks
    obtain rfl : q.addr = next := Option.some.inj hB
    have hjoin : c.addr + (m c.addr).blockSize = q.addr := by rw [hsize, hqc]
    have hne : q.addr ≠ heap.endBlock := by omega
    unfold Heap.linkNext
    rw [if_pos hjoin, if_pos hne]
    refine ⟨?_, ?_, fun x hx => ?_, fun x => ?_⟩
    · obtain ⟨hhead, hrest⟩ := List.isChain_cons.mp hlinks
      refine Links.push hrest (fun z hz => ?_) (fun z hz => ?_)
      · have hzc : z ≠ c.addr := by
          rintro rfl
          exact hnot B' (fun s hs => List.mem_cons_of_mem _ hs) hz
        simp [hzc]
      · simpa using hhead z hz
    · simp [hsize, hsizes q List.mem_cons_self hq]
    · rw [Blocks.setNext_ne _ _ _ _ hx, Blocks.setSize_ne _ _ _ _ hx]
    · simp
  · rw [hm]
    have hsame : Heap.linkNext m heap c.addr next = m.setNext c.addr next := by
      unfold Heap.linkNext
      split
      · rename_i hjoin
        rw [hsize] at hjoin
        have hend : next = heap.endBlock := by
          cases B with
          | nil => exact (Option.some.inj hB).symm
          | cons q B =>
            have hq : q.free = false := hhead q rfl
            obtain ⟨hqc, hB'⟩ := htiles
            have hqpos := hpos q List.mem_cons_self
            have hmem : next ∈ freeAddrs (q :: B) ++ [heap.endBlock] := List.mem_of_head? hB
            rw [freeAddrs_cons, hq, List.mem_append] at hmem
            rcases hmem with hmem | hmem
            · obtain ⟨s, hs, -, hsn⟩ := mem_freeAddrs.mp hmem
              have hle := (hB'.mem hs).1
              omega
            · exact List.mem_singleton.mp hmem
        rw [if_neg (not_not.mpr hend), hend]
      · rfl
    rw [hsame]
    refine ⟨?_, by simp [hsize], fun x hx => Blocks.setNext_ne _ _ _ _ hx, fun x => by simp⟩
    refine Links.push hlinks (fun z hz => ?_) (fun z hz => ?_)
    · have hzc : z ≠ c.addr := by
        rintro rfl
        exact hnot B (fun s hs => hs) hz
      simp [hzc]
    · rw [hB, Option.mem_some_iff] at hz
      simpa using hz

/-- The free list holds the free spans of `A` and `B`; the block of `b` is not in it. -/
structure Detached (m : Blocks) (heap : Heap) (lo : Nat) (A : List Span) (b : Span) (B : List Span) :
    Prop where
  tiles : Tiles lo (A ++ b :: B) heap.endBlock
  sizes8 : ∀ s ∈ A ++ b :: B, 8 ≤ s.size
  isFree : b.free = true
  links : Links m (heap.start :: (freeAddrs A ++ (freeAddrs B ++ [heap.endBlock])))
  sizes : ∀ s ∈ A ++ b :: B, s.free = true → (m s.addr).blockSize = s.size
  startSize : (m heap.start).blockSize = 0
  startOut : heap.start < lo ∨ heap.endBlock < heap.start
  bound : heap.endBlock < 2 ^ 32

/-- What the insertion leaves: the tiling `T` in the free list, and the other blocks. -/
structure Inserted (m m' : Blocks) (heap : Heap) (old : List Nat) (T : List Span) : Prop where
  links : Links m' (heap.start :: (freeAddrs T ++ [heap.endBlock]))
  sizes : ∀ s ∈ T, s.free = true → (m' s.addr).blockSize = s.size
  startSize : (m' heap.start).blockSize = 0
  frame : ∀ x, x ≠ heap.start → x ∉ old → m' x = m x
  owners : ∀ x, (m' x).heap = (m x).heap

theorem Detached.lt_of_left (h : Detached m heap lo A b B) {x : Nat} (hx : x ∈ freeAddrs A) :
    lo ≤ x ∧ x < b.addr := by
  obtain ⟨s, hs, -, rfl⟩ := mem_freeAddrs.mp hx
  obtain ⟨hA, -⟩ := tiles_split.mp h.tiles
  have hpos := h.sizes8 s (List.mem_append_left _ hs)
  have hmem := hA.mem hs
  omega

theorem Detached.lt_of_right (h : Detached m heap lo A b B) {x : Nat}
    (hx : x ∈ freeAddrs B ++ [heap.endBlock]) : b.addr + b.size ≤ x ∧ x ≤ heap.endBlock := by
  obtain ⟨-, hB⟩ := tiles_split.mp h.tiles
  rcases List.mem_append.mp hx with hx | hx
  · obtain ⟨s, hs, -, rfl⟩ := mem_freeAddrs.mp hx
    have hmem := hB.mem hs
    omega
  · rw [List.mem_singleton.mp hx]
    exact ⟨hB.le, Nat.le_refl _⟩

/-- The block the insertion stops at. -/
theorem Detached.position (h : Detached m heap lo A b B) :
    findPosition m b.addr walkLimit heap.start =
      (heap.start :: freeAddrs A).getLast (List.cons_ne_nil _ _) := by
  have hlen : (freeAddrs A).length < walkLimit := by
    have hle := h.tiles.length_le h.sizes8
    have hbound := h.bound
    have hfilter : (freeAddrs A).length ≤ A.length := by
      unfold freeAddrs
      rw [List.length_map]
      exact List.length_filter_le _ _
    rw [List.length_append] at hle
    unfold walkLimit
    omega
  obtain ⟨next, rest, hnext⟩ : ∃ next rest, freeAddrs B ++ [heap.endBlock] = next :: rest :=
    List.exists_cons_of_ne_nil (by simp)
  have hlinks := h.links
  have hmem : next ∈ freeAddrs B ++ [heap.endBlock] := by
    rw [hnext]
    exact List.mem_cons_self
  have hle := (h.lt_of_right hmem).1
  rw [hnext] at hlinks
  exact findPosition_eq hlinks (fun z hz => (h.lt_of_left hz).2) (by omega) hlen

/-- The block before touches: it grows, and its links to the left stay. -/
theorem Detached.insert_left {A' : List Span} {p : Span} (h : Detached m heap lo (A' ++ [p]) b B)
    (hp : p.free = true) :
    Inserted m (heapInsertBlockIntoFreeList m heap b.addr) heap (freeAddrs (A' ++ [p] ++ b :: B))
      (A' ++ (mergeRight ⟨p.addr, p.size + b.size, true⟩ B).1 ::
        (mergeRight ⟨p.addr, p.size + b.size, true⟩ B).2) := by
  obtain ⟨hleft, hB⟩ := tiles_split.mp h.tiles
  obtain ⟨hA', hpb⟩ := tiles_split.mp hleft
  have hpb : p.addr + p.size = b.addr := hpb
  have hmemp : p ∈ A' ++ [p] ++ b :: B := by simp
  have hppos := h.sizes8 p hmemp
  have hpsize := h.sizes p hmemp hp
  have hbsize := h.sizes b (by simp) h.isFree
  have hFA : freeAddrs (A' ++ [p]) = freeAddrs A' ++ [p.addr] := by
    rw [freeAddrs_append, freeAddrs_cons, hp]
    rfl
  have hpos : findPosition m b.addr walkLimit heap.start = p.addr := by
    rw [h.position]
    simp only [hFA, ← List.cons_append, List.getLast_append, List.getLast_singleton]
    rfl
  have hstart : heap.start ≠ p.addr := by
    have hout := h.startOut
    have hmem := h.tiles.mem hmemp
    omega
  have hlt : ∀ x ∈ freeAddrs A', x < p.addr := by
    intro x hx
    obtain ⟨s, hs, -, rfl⟩ := mem_freeAddrs.mp hx
    have hpos := h.sizes8 s (by simp [hs])
    have hmem := hA'.mem hs
    omega
  have hlinks := h.links
  rw [hFA, List.append_assoc, List.singleton_append, ← List.cons_append] at hlinks
  obtain ⟨hbefore, hsuffix⟩ := links_split.mp hlinks
  obtain ⟨next, hnext⟩ : ∃ next, (freeAddrs B ++ [heap.endBlock]).head? = some next :=
    ⟨_, List.head?_eq_some_head (by simp)⟩
  obtain ⟨hhead, hrest⟩ := List.isChain_cons.mp hsuffix
  have hpnext : (m p.addr).nextFreeBlock = next := hhead next hnext
  have hBgt : ∀ s ∈ B, p.addr < s.addr := by
    intro s hs
    have hmem := (hB.mem hs).1
    omega
  have hbsize := h.sizes b (by simp) h.isFree
  generalize hm₁ : m.setSize p.addr (p.size + b.size) = m₁
  have hnext₁ : (m₁ p.addr).nextFreeBlock = next := by rw [← hm₁, Blocks.setSize_next, hpnext]
  have hrun : heapInsertBlockIntoFreeList m heap b.addr = linkNext m₁ heap p.addr next := by
    unfold heapInsertBlockIntoFreeList
    simp only [hpos, hpsize, hpb, hbsize, if_true, hm₁, hnext₁]
  have hbehind : Behind m₁ heap ⟨p.addr, p.size + b.size, true⟩ B next := by
    refine ⟨?_, ?_, ?_, ?_, hnext, ?_⟩
    · rw [← Nat.add_assoc, hpb]
      exact hB
    · intro s hs
      rcases List.mem_cons.mp hs with rfl | hs
      · exact Nat.add_pos_left (by omega) _
      · have hs8 := h.sizes8 s (by simp [hs])
        omega
    · intro s hs hf
      have hne := hBgt s hs
      rw [← hm₁, Blocks.setSize_size, if_neg (by omega)]
      exact h.sizes s (by simp [hs]) hf
    · simp [← hm₁]
    · exact Links.congr hrest fun y _ => by simp [← hm₁]
  obtain ⟨hlinks', hsize', hframe', howner'⟩ := hbehind.linkNext
  rw [hrun]
  have hother : ∀ x, x ≠ p.addr → linkNext m₁ heap p.addr next x = m x := by
    intro x hx
    rw [hframe' x hx, ← hm₁, Blocks.setSize_ne _ _ _ _ hx]
  refine ⟨?_, ?_, ?_, ?_, ?_⟩
  · rw [freeAddrs_append, freeAddrs_cons, mergeRight_isFree rfl, if_pos rfl, mergeRight_addr,
      List.append_assoc, List.cons_append, ← List.cons_append]
    refine links_split.mpr ⟨Links.congr hbefore fun y hy => ?_, hlinks'⟩
    rcases List.mem_cons.mp hy with rfl | hy
    · rw [hother _ hstart]
    · rw [hother _ (Nat.ne_of_lt (hlt y hy))]
  · intro s hs hf
    rcases List.mem_append.mp hs with hs | hs
    · have hne := hlt s.addr (mem_freeAddrs.mpr ⟨s, hs, hf, rfl⟩)
      rw [hother _ (Nat.ne_of_lt hne)]
      exact h.sizes s (by simp [hs]) hf
    · rcases List.mem_cons.mp hs with rfl | hs
      · rw [mergeRight_addr]
        exact hsize'
      · have hsB := mergeRight_subset _ _ s hs
        rw [hother _ (Nat.ne_of_gt (hBgt s hsB))]
        exact h.sizes s (by simp [hsB]) hf
  · rw [hother _ hstart]
    exact h.startSize
  · intro x _ hx
    apply hother
    rintro rfl
    exact hx (mem_freeAddrs.mpr ⟨p, hmemp, hp, rfl⟩)
  · intro x
    rw [howner' x, ← hm₁, Blocks.setSize_heap]

/-- A free span that is not the last ends before the position. -/
theorem Detached.apart_of_used (h : Detached m heap lo A b B) (hlast : ∀ p ∈ A.getLast?, p.free = false)
    {s : Span} (hs : s ∈ A) (hf : s.free = true) : s.addr + s.size < b.addr := by
  obtain ⟨hA, -⟩ := tiles_split.mp h.tiles
  obtain ⟨A₁, A₂, rfl⟩ := List.append_of_mem hs
  obtain ⟨-, hA₂⟩ := tiles_split.mp hA
  cases A₂ with
  | nil =>
    have hused : s.free = false := hlast s (by simp)
    rw [hf] at hused
    cases hused
  | cons q A₂ =>
    have hq := h.sizes8 q (by simp)
    have hle := hA₂.2.le
    omega

/-- The block before does not touch: it links to the new one. -/
theorem Detached.insert_new (h : Detached m heap lo A b B) (hlast : ∀ p ∈ A.getLast?, p.free = false) :
    Inserted m (heapInsertBlockIntoFreeList m heap b.addr) heap (freeAddrs (A ++ b :: B))
      (A ++ (mergeRight b B).1 :: (mergeRight b B).2) := by
  obtain ⟨hA, hB⟩ := tiles_split.mp h.tiles
  have hout := h.startOut
  have hbmem := h.tiles.mem (s := b) (by simp)
  have hb8 := h.sizes8 b (by simp)
  have hbstart : b.addr ≠ heap.start := by omega
  generalize hP : (heap.start :: freeAddrs A).getLast (List.cons_ne_nil _ _) = P
  obtain ⟨X, hX⟩ : ∃ X, heap.start :: freeAddrs A = X ++ [P] :=
    ⟨_, by rw [← hP, List.dropLast_append_getLast]⟩
  have hPmem : P = heap.start ∨ P ∈ freeAddrs A := by
    rw [← List.mem_cons, hX]
    simp
  have hPb : P ≠ b.addr := by
    rcases hPmem with rfl | hmem
    · exact fun h => hbstart h.symm
    · exact Nat.ne_of_lt (h.lt_of_left hmem).2
  -- the block before is the header of the list, or a span that ends earlier
  have hmiss : P + (m P).blockSize ≠ b.addr := by
    rcases hPmem with rfl | hmem
    · rw [h.startSize]
      exact fun h => hbstart h.symm
    · obtain ⟨s, hs, hf, rfl⟩ := mem_freeAddrs.mp hmem
      rw [h.sizes s (by simp [hs]) hf]
      exact Nat.ne_of_lt (h.apart_of_used hlast hs hf)
  have hlinks := h.links
  rw [← List.cons_append, hX, List.append_assoc, List.singleton_append] at hlinks
  obtain ⟨hbefore, hsuffix⟩ := links_split.mp hlinks
  obtain ⟨next, hnext⟩ : ∃ next, (freeAddrs B ++ [heap.endBlock]).head? = some next :=
    ⟨_, List.head?_eq_some_head (by simp)⟩
  obtain ⟨hhead, hrest⟩ := List.isChain_cons.mp hsuffix
  have hPnext : (m P).nextFreeBlock = next := hhead next hnext
  have hrun : heapInsertBlockIntoFreeList m heap b.addr =
      (linkNext m heap b.addr next).setNext P b.addr := by
    unfold heapInsertBlockIntoFreeList
    simp only [h.position, hP, if_neg hmiss, hPnext]
  have hbehind : Behind m heap b B next :=
    { tiles := hB
      nonempty := fun s hs => by
        have hs8 := h.sizes8 s (List.mem_append_right A hs)
        omega
      sizes := fun s hs hf => h.sizes s (by simp [hs]) hf
      size := h.sizes b (by simp) h.isFree
      head := hnext
      links := hrest }
  obtain ⟨hlinks', hsize', hframe', howner'⟩ := hbehind.linkNext
  rw [hrun]
  have hnotP : ∀ x, b.addr ≤ x → x ≤ heap.endBlock → x ≠ P := by
    intro x hx hxe
    rcases hPmem with rfl | hmem
    · omega
    · have hlt := (h.lt_of_left hmem).2
      omega
  have hnodup : (X ++ [P]).Nodup := by
    rw [← hX]
    refine hA.nodup_cons (fun s hs => ?_) (by omega)
    have hs8 := h.sizes8 s (List.mem_append_left _ hs)
    omega
  have hX' : ∀ x ∈ X, x ≠ b.addr ∧ x ≠ P := by
    intro x hx
    refine ⟨?_, fun hxP => (List.nodup_append.mp hnodup).2.2 x hx P (by simp) hxP⟩
    have hmem : x ∈ heap.start :: freeAddrs A := by
      rw [hX]
      exact List.mem_append_left _ hx
    rcases List.mem_cons.mp hmem with rfl | hmem
    · exact fun h => hbstart h.symm
    · exact Nat.ne_of_lt (h.lt_of_left hmem).2
  refine ⟨?_, ?_, ?_, ?_, ?_⟩
  · rw [freeAddrs_append, freeAddrs_cons, mergeRight_isFree h.isFree, if_pos rfl, mergeRight_addr,
      List.append_assoc, List.cons_append, ← List.cons_append, hX, List.append_assoc, List.singleton_append]
    refine links_split.mpr ⟨Links.congr hbefore fun y hy => ?_, ?_⟩
    · rw [Blocks.setNext_ne _ _ _ _ (hX' y hy).2, hframe' y (hX' y hy).1]
    · refine links_cons_cons.mpr ⟨by simp, ?_⟩
      rw [← List.cons_append] at hlinks' ⊢
      refine Links.congr hlinks' fun y hy => ?_
      have hyP : y ≠ P := by
        rcases List.mem_cons.mp hy with rfl | hy
        · exact fun h => hPb h.symm
        · obtain ⟨s, hs, hf, rfl⟩ := mem_freeAddrs.mp hy
          have hmem := h.lt_of_right
            (List.mem_append_left _ (mem_freeAddrs.mpr ⟨s, mergeRight_subset _ _ s hs, hf, rfl⟩))
          exact hnotP _ (by omega) hmem.2
      rw [Blocks.setNext_ne _ _ _ _ hyP]
  · intro s hs hf
    rw [Blocks.setNext_size]
    rcases List.mem_append.mp hs with hs | hs
    · have hne := (h.lt_of_left (mem_freeAddrs.mpr ⟨s, hs, hf, rfl⟩)).2
      rw [hframe' _ (Nat.ne_of_lt hne)]
      exact h.sizes s (by simp [hs]) hf
    · rcases List.mem_cons.mp hs with rfl | hs
      · rw [mergeRight_addr]
        exact hsize'
      · have hsB := mergeRight_subset _ _ s hs
        have hmem := hB.mem hsB
        rw [hframe' _ (by omega)]
        exact h.sizes s (by simp [hsB]) hf
  · rw [Blocks.setNext_size, hframe' _ (fun h => hbstart h.symm)]
    exact h.startSize
  · intro x hxs hx
    have hxb : x ≠ b.addr := by
      rintro rfl
      exact hx (mem_freeAddrs.mpr ⟨b, by simp, h.isFree, rfl⟩)
    have hxP : x ≠ P := by
      rintro rfl
      rcases hPmem with hstart | hmem
      · exact hxs hstart
      · exact hx (by rw [freeAddrs_append]; exact List.mem_append_left _ hmem)
    rw [Blocks.setNext_ne _ _ _ _ hxP, hframe' x hxb]
  · intro x
    rw [Blocks.setNext_heap, howner' x]

theorem insert_spec (h : Detached m heap lo A b B) :
    Inserted m (heapInsertBlockIntoFreeList m heap b.addr) heap (freeAddrs (A ++ b :: B))
      (coalesce A b B) := by
  unfold coalesce
  rcases mergeLeft_cases A b with ⟨A', p, rfl, hp, hm⟩ | ⟨hlast, hm⟩
  · rw [hm]
    exact h.insert_left hp
  · rw [hm]
    exact h.insert_new hlast

end Insert

end WmIot.Heap
