import WmIot.Heap.Alloc

/-!
# All heaps

The invariant of the whole allocator: every heap of `wm_soc_memory` that is set up is tiled, the
regions are apart, the global counter is the sum of the counters, and the blocks in use are those
handed out. With tracing the list of blocks in use visits exactly them.
-/

namespace WmIot.Heap
open Tiling
set_option autoImplicit false

/-! ## The list of blocks in use -/

section Used
variable {cfg : Config} {m : Blocks}

/-- The removal changes the links of the block and of the one before it. -/
structure Removed (cfg : Config) (m m' : Blocks) (U : List Nat) (b : Nat) : Prop where
  links : Links m' (cfg.usedBlockList :: (U.erase b ++ [0]))
  next : (m' b).nextFreeBlock = 0
  sizes : ∀ x, x ≠ cfg.usedBlockList → (m' x).blockSize = (m x).blockSize
  owners : ∀ x, (m' x).heap = (m x).heap
  frame : ∀ x, x ≠ cfg.usedBlockList → x ∉ U → m' x = m x

theorem removeFromUsedLoop_eq (cfg : Config) (bit n : Nat) {b x : Nat} {U V : List Nat}
    (h : Links m (x :: (U ++ b :: V))) (hU : ∀ y ∈ U ++ [b], y ≠ 0) (hb : b ∉ U) (hn : U.length < n) :
    removeFromUsedLoop cfg bit b n x (m x).nextFreeBlock m =
      let m' := (m.setNext ((x :: U).getLast (List.cons_ne_nil x U)) (m b).nextFreeBlock).setNext b 0
      m'.setSize cfg.usedBlockList ((m' cfg.usedBlockList).blockSize - ((m' b).blockSize &&& (2 ^ 32 - 1 - bit))) := by
  induction U generalizing x n with
  | nil =>
    obtain ⟨n, rfl⟩ : ∃ k, n = k + 1 := ⟨n - 1, by simp only [List.length_nil] at hn; omega⟩
    obtain ⟨hlink, -⟩ := links_cons_cons.mp h
    rw [hlink, removeFromUsedLoop, if_neg (hU b (by simp)), if_pos rfl]
    rfl
  | cons y U ih =>
    obtain ⟨n, rfl⟩ : ∃ k, n = k + 1 := ⟨n - 1, by simp only [List.length_cons] at hn; omega⟩
    obtain ⟨hlink, hrest⟩ := links_cons_cons.mp h
    have hyb : y ≠ b := by
      rintro rfl
      exact hb List.mem_cons_self
    rw [hlink, removeFromUsedLoop, if_neg (hU y (by simp)), if_neg hyb,
      ih n hrest (fun z hz => hU z (List.mem_cons_of_mem y hz)) (fun hmem => hb (List.mem_cons_of_mem y hmem))]
    · rw [List.getLast_cons (List.cons_ne_nil y U)]
    · simp only [List.length_cons] at hn
      omega

theorem removed_of_links {heap : Heap} {U : List Nat} {b : Nat}
    (h : Links m (cfg.usedBlockList :: (U ++ [0]))) (hU : ∀ y ∈ U, y ≠ 0) (hnd : U.Nodup)
    (hlist : cfg.usedBlockList ∉ U) (hb : b ∈ U) (hlen : U.length < walkLimit) :
    Removed cfg m (heapRemoveBlockFromUsedList cfg m heap b) U b := by
  obtain ⟨U₁, U₂, rfl⟩ := List.append_of_mem hb
  have hb₁ : b ∉ U₁ := fun hmem => (List.nodup_append.mp hnd).2.2 b hmem b List.mem_cons_self rfl
  have hb₂ : b ∉ U₂ := (List.nodup_cons.mp (List.nodup_append.mp hnd).2.1).1
  have hblist : b ≠ cfg.usedBlockList := by
    rintro rfl
    exact hlist hb
  have hlinks : Links m (cfg.usedBlockList :: (U₁ ++ b :: (U₂ ++ [0]))) := by
    simpa using h
  have hnonzero : ∀ y ∈ U₁ ++ [b], y ≠ 0 := by
    intro y hy
    apply hU y
    rcases List.mem_append.mp hy with hy | hy
    · exact List.mem_append_left _ hy
    · rw [List.mem_singleton.mp hy]
      exact hb
  have hlen₁ : U₁.length < walkLimit := by
    rw [List.length_append] at hlen
    omega
  have hrun := removeFromUsedLoop_eq cfg heap.blockAllocatedBit walkLimit hlinks hnonzero hb₁ hlen₁
  generalize hP : (cfg.usedBlockList :: U₁).getLast (List.cons_ne_nil _ _) = P at hrun
  obtain ⟨X, hX⟩ : ∃ X, cfg.usedBlockList :: U₁ = X ++ [P] :=
    ⟨_, by rw [← hP, List.dropLast_append_getLast]⟩
  have hPmem : P ∈ cfg.usedBlockList :: U₁ := by
    rw [hX]
    simp
  have hnodup : (X ++ [P]).Nodup := by
    rw [← hX]
    exact List.nodup_cons.mpr ⟨fun hmem => hlist (List.mem_append_left _ hmem), (List.nodup_append.mp hnd).1⟩
  have hbX : b ∉ X ++ [P] := by
    rw [← hX]
    intro hmem
    rcases List.mem_cons.mp hmem with heq | hmem
    · exact hblist heq
    · exact hb₁ hmem
  have hPU₂ : P ∉ U₂ := by
    intro hmem
    rcases List.mem_cons.mp hPmem with rfl | hP₁
    · exact hlist (by simp [hmem])
    · exact (List.nodup_append.mp hnd).2.2 P hP₁ P (List.mem_cons_of_mem b hmem) rfl
  have hunlinked : Links (m.setNext P (m b).nextFreeBlock) (X ++ P :: (U₂ ++ [0])) := by
    rw [← List.cons_append, hX, List.append_assoc, List.singleton_append] at hlinks
    exact hlinks.unlink (fun hmem => (List.nodup_append.mp hnodup).2.2 P hmem P (by simp) rfl) hPU₂
  unfold heapRemoveBlockFromUsedList
  rw [hrun]
  refine ⟨?_, by simp, fun x hx => by simp [hx], fun x => by simp, fun x hx hxU => ?_⟩
  · rw [List.erase_append_right _ hb₁, List.erase_cons_head, List.append_assoc, ← List.cons_append, hX,
      List.append_assoc, List.singleton_append]
    rw [← List.cons_append, ← List.append_assoc] at hunlinked ⊢
    refine Links.congr hunlinked fun y hy => ?_
    have hyb : y ≠ b := by
      rintro rfl
      rcases List.mem_append.mp hy with hy | hy
      · exact hbX (List.mem_append_left _ hy)
      · rcases List.mem_cons.mp hy with rfl | hy
        · exact hbX (by simp)
        · exact hb₂ hy
    simp [hyb]
  · have hxb : x ≠ b := by
      rintro rfl
      exact hxU hb
    have hxP : x ≠ P := by
      rintro rfl
      rcases List.mem_cons.mp hPmem with heq | hmem
      · exact hx heq
      · exact hxU (List.mem_append_left _ hmem)
    rw [Blocks.setSize_ne _ _ _ _ hx, Blocks.setNext_ne _ _ _ _ hxb, Blocks.setNext_ne _ _ _ _ hxP]

end Used

/-! ## The invariant -/

def MemoryLayout.valid (l : MemoryLayout) : Bool := capInvalid &&& l.caps == 0

/-- The first aligned address of the region. -/
def MemoryLayout.base (l : MemoryLayout) : Nat := alignDown (l.startAddress + 7)

/-- The counters of the heaps set up. -/
def counters (memory : List MemoryLayout) : Nat :=
  ((memory.filter MemoryLayout.valid).map fun l => l.heap.freeBytesRemaining).sum

/-- The allocator with the pointers `live` handed out; `F` gives the tiling of each heap. -/
structure HeapsInv (cfg : Config) (st : State) (live : List Nat) (F : Nat → List Span) : Prop where
  heaps : ∀ l ∈ st.memory, l.valid = true → HeapInv cfg st.block l.heap l.base (F l.heap.start)
  inside : ∀ l ∈ st.memory, l.valid = true →
    l.heap.endBlock + cfg.heapStructSize ≤ l.startAddress + l.sizeInBytes
  starts : (st.memory.map fun l => l.heap.start).Nodup
  apart : ∀ l ∈ st.memory, ∀ k ∈ st.memory, l.valid = true → k.valid = true → l.heap.start ≠ k.heap.start →
    l.heap.endBlock < k.base ∨ k.heap.endBlock < l.base
  outside : ∀ l ∈ st.memory, ∀ k ∈ st.memory, k.valid = true →
    l.heap.start < k.base ∨ k.heap.endBlock < l.heap.start
  list : ∀ l ∈ st.memory, cfg.usedBlockList ≠ l.heap.start ∧
    (l.valid = true → cfg.usedBlockList < l.base ∨ l.heap.endBlock < cfg.usedBlockList)
  total : st.freeBytesRemaining = counters st.memory
  nodup : live.Nodup
  handed : ∀ p, p ∈ live ↔ ∃ l ∈ st.memory, l.valid = true ∧ ∃ s ∈ F l.heap.start, s.free = false ∧
    s.addr + cfg.heapStructSize = p
  traced : cfg.tracing = true → ∃ U, Links st.block (cfg.usedBlockList :: (U ++ [0])) ∧ U.Nodup ∧
    ∀ a, a ∈ U ↔ a + cfg.heapStructSize ∈ live

section
variable {cfg : Config} {st : State} {live : List Nat} {F : Nat → List Span} {l k : MemoryLayout}

theorem HeapsInv.layout_inj (h : HeapsInv cfg st live F) (hl : l ∈ st.memory) (hk : k ∈ st.memory)
    (heq : l.heap.start = k.heap.start) : l = k :=
  List.inj_on_of_nodup_map h.starts hl hk heq

/-- The heap at its address is the one found there. -/
theorem HeapsInv.findHeap (h : HeapsInv cfg st live F) (hl : l ∈ st.memory) :
    st.findHeap l.heap.start = some l.heap := by
  have hfind : ∃ k, st.memory.find? (fun k => k.heap.start == l.heap.start) = some k := by
    rw [← Option.isSome_iff_exists, List.find?_isSome]
    exact ⟨l, hl, by simp⟩
  obtain ⟨k, hk⟩ := hfind
  have hkl : k = l := h.layout_inj (List.mem_of_find?_eq_some hk) hl (by simpa using List.find?_some hk)
  rw [State.findHeap, hk, hkl]
  rfl

theorem HeapsInv.addr_pos (h : HeapsInv cfg st live F) {p : Nat} (hp : p ∈ live) : cfg.heapStructSize < p := by
  obtain ⟨l, hl, hv, s, hs, -, rfl⟩ := (h.handed p).mp hp
  have hpos := (h.heaps l hl hv).addr_pos hs
  omega

/-- A region determines its heap. -/
theorem HeapsInv.region_inj (h : HeapsInv cfg st live F) (hl : l ∈ st.memory) (hk : k ∈ st.memory)
    (hlv : l.valid = true) (hkv : k.valid = true) {x : Nat} (hxl : l.base ≤ x ∧ x ≤ l.heap.endBlock)
    (hxk : k.base ≤ x ∧ x ≤ k.heap.endBlock) : l = k := by
  apply h.layout_inj hl hk
  by_contra hne
  have hap := h.apart l hl k hk hlv hkv hne
  omega

/-- The entry of a heap replaced, the others kept. -/
theorem HeapsInv.putHeap (h : HeapsInv cfg st live F) (hl : l ∈ st.memory) {heap : Heap}
    (hheap : heap.start = l.heap.start) :
    ∃ L R, st.memory = L ++ l :: R ∧ (st.putHeap heap).memory = L ++ { l with heap := heap } :: R ∧
      (∀ k ∈ L ++ R, k ∈ st.memory ∧ k.heap.start ≠ l.heap.start) := by
  obtain ⟨L, R, hmem⟩ := List.append_of_mem hl
  have hstarts := h.starts
  rw [hmem, List.map_append, List.map_cons] at hstarts
  have hother : ∀ k ∈ L ++ R, k ∈ st.memory ∧ k.heap.start ≠ l.heap.start := by
    intro k hk
    rw [hmem]
    rcases List.mem_append.mp hk with hk | hk
    · refine ⟨by simp [hk], fun heq => ?_⟩
      exact (List.nodup_append.mp hstarts).2.2 _ (List.mem_map_of_mem hk) _ List.mem_cons_self heq
    · refine ⟨by simp [hk], fun heq => ?_⟩
      exact (List.nodup_cons.mp (List.nodup_append.mp hstarts).2.1).1 (heq ▸ List.mem_map_of_mem hk)
  have hkeep : ∀ M : List MemoryLayout, (∀ k ∈ M, k ∈ L ++ R) →
      M.map (fun k => if k.heap.start = heap.start then { k with heap := heap } else k) = M := by
    intro M hM
    have hsame : M.map (fun k => if k.heap.start = heap.start then { k with heap := heap } else k) = M.map id := by
      apply List.map_congr_left
      intro k hk
      rw [if_neg]
      · rfl
      · rw [hheap]
        exact (hother k (hM k hk)).2
    rw [hsame, List.map_id]
  refine ⟨L, R, hmem, ?_, hother⟩
  unfold State.putHeap
  simp only [hmem, List.map_append, List.map_cons, hheap, if_true]
  rw [← hheap, hkeep L (fun k hk => List.mem_append_left R hk), hkeep R (fun k hk => List.mem_append_right L hk)]

theorem counters_split {L R : List MemoryLayout} (hv : l.valid = true) :
    counters (L ++ l :: R) = counters (L ++ R) + l.heap.freeBytesRemaining := by
  unfold counters
  simp only [List.filter_append, List.filter_cons, hv, if_true, List.map_append, List.map_cons, List.sum_append,
    List.sum_cons]
  omega

/-- A block in use of another heap. -/
def Others (cfg : Config) (st : State) (F : Nat → List Span) (l : MemoryLayout) (p : Nat) : Prop :=
  ∃ k ∈ st.memory, k.valid = true ∧ k ≠ l ∧ ∃ s ∈ F k.heap.start, s.free = false ∧
    s.addr + cfg.heapStructSize = p

/-- A block in use of a tiling. -/
def InUse (cfg : Config) (T : List Span) (p : Nat) : Prop :=
  ∃ s ∈ T, s.free = false ∧ s.addr + cfg.heapStructSize = p

theorem HeapsInv.handed_iff (h : HeapsInv cfg st live F) (hl : l ∈ st.memory) (hv : l.valid = true) (p : Nat) :
    p ∈ live ↔ InUse cfg (F l.heap.start) p ∨ Others cfg st F l p := by
  rw [h.handed p]
  constructor
  · rintro ⟨k, hk, hkv, s, hs⟩
    by_cases hkl : k = l
    · subst hkl
      exact Or.inl ⟨s, hs⟩
    · exact Or.inr ⟨k, hk, hkv, hkl, s, hs⟩
  · rintro (⟨s, hs⟩ | ⟨k, hk, hkv, -, s, hs⟩)
    · exact ⟨l, hl, hv, s, hs⟩
    · exact ⟨k, hk, hkv, s, hs⟩

/-- An operation on one heap keeps the invariant when it keeps that of the heap and leaves the
others alone. -/
theorem HeapsInv.update (h : HeapsInv cfg st live F) (hl : l ∈ st.memory) (hv : l.valid = true)
    {m' : Blocks} {heap' : Heap} {T' : List Span} {free' min' : Nat} {live' : List Nat}
    (hstart : heap'.start = l.heap.start) (hend : heap'.endBlock = l.heap.endBlock)
    (hinv : HeapInv cfg m' heap' l.base T')
    (hother : ∀ k ∈ st.memory, k.valid = true → k ≠ l → HeapInv cfg m' k.heap k.base (F k.heap.start))
    (hfree : free' + l.heap.freeBytesRemaining = st.freeBytesRemaining + heap'.freeBytesRemaining)
    (hnodup : live'.Nodup) (hhanded : ∀ p, p ∈ live' ↔ InUse cfg T' p ∨ Others cfg st F l p)
    (htraced : cfg.tracing = true → ∃ U, Links m' (cfg.usedBlockList :: (U ++ [0])) ∧ U.Nodup ∧
      ∀ a, a ∈ U ↔ a + cfg.heapStructSize ∈ live') :
    HeapsInv cfg
      (State.putHeap { st with
        block := m', freeBytesRemaining := free', minimumEverFreeBytesRemaining := min' } heap')
      live' (Function.update F l.heap.start T') := by
  obtain ⟨L, R, hmem, hmem', hLR⟩ := h.putHeap hl hstart
  have hput : (State.putHeap { st with
      block := m', freeBytesRemaining := free', minimumEverFreeBytesRemaining := min' } heap').memory =
      L ++ { l with heap := heap' } :: R := hmem'
  -- every entry stands for one of before, with its bounds
  have hback : ∀ k' ∈ L ++ { l with heap := heap' } :: R, ∃ k ∈ st.memory, k.heap.start = k'.heap.start ∧
      k.heap.endBlock = k'.heap.endBlock ∧ k.base = k'.base ∧ k.valid = k'.valid ∧
      k.startAddress + k.sizeInBytes = k'.startAddress + k'.sizeInBytes ∧
      (k' = { l with heap := heap' } ∧ k = l ∨ k' = k ∧ k ≠ l) := by
    intro k' hk'
    have hcases : k' = { l with heap := heap' } ∨ k' ∈ L ++ R := by
      rcases List.mem_append.mp hk' with hk' | hk'
      · exact Or.inr (List.mem_append_left R hk')
      · exact (List.mem_cons.mp hk').imp id (List.mem_append_right L)
    rcases hcases with rfl | hk'
    · exact ⟨l, hl, hstart.symm, hend.symm, rfl, rfl, rfl, Or.inl ⟨rfl, rfl⟩⟩
    · obtain ⟨hk, hne⟩ := hLR k' hk'
      refine ⟨k', hk, rfl, rfl, rfl, rfl, rfl, Or.inr ⟨rfl, ?_⟩⟩
      rintro rfl
      exact hne rfl
  have hF : ∀ k : MemoryLayout, k ∈ st.memory → k ≠ l →
      Function.update F l.heap.start T' k.heap.start = F k.heap.start := by
    intro k hk hkl
    apply Function.update_of_ne
    exact fun heq => hkl (h.layout_inj hk hl heq)
  have hFl : Function.update F l.heap.start T' heap'.start = T' := by
    rw [hstart, Function.update_self]
  have hmem'' : ∀ k', k' ∈ L ++ { l with heap := heap' } :: R ↔
      k' = { l with heap := heap' } ∨ k' ∈ st.memory ∧ k' ≠ l := by
    intro k'
    constructor
    · intro hk'
      obtain ⟨k, hk, -, -, -, -, -, hcase⟩ := hback k' hk'
      rcases hcase with ⟨hk', -⟩ | ⟨rfl, hne⟩
      · exact Or.inl hk'
      · exact Or.inr ⟨hk, hne⟩
    · rintro (rfl | ⟨hk', hne⟩)
      · simp
      · rw [hmem] at hk'
        rcases List.mem_append.mp hk' with hk' | hk'
        · exact List.mem_append_left _ hk'
        · rcases List.mem_cons.mp hk' with rfl | hk'
          · exact absurd rfl hne
          · exact List.mem_append_right _ (List.mem_cons_of_mem _ hk')
  refine ⟨?_, ?_, ?_, ?_, ?_, ?_, ?_, hnodup, ?_, htraced⟩
  · rw [hput]
    intro k' hk' hk'v
    rcases (hmem'' k').mp hk' with rfl | ⟨hk, hne⟩
    · rw [hFl]
      exact hinv
    · rw [hF k' hk hne]
      exact hother k' hk hk'v hne
  · rw [hput]
    intro k' hk' hk'v
    obtain ⟨k, hk, -, hke, -, hkv, hks, -⟩ := hback k' hk'
    rw [← hke, ← hks]
    exact h.inside k hk (hkv.trans hk'v)
  · rw [hput]
    have hstarts := h.starts
    rw [hmem, List.map_append, List.map_cons] at hstarts
    rw [List.map_append, List.map_cons, hstart]
    exact hstarts
  · rw [hput]
    intro k' hk' j' hj' hk'v hj'v hne
    obtain ⟨k, hk, hkst, hke, hkb, hkv, -, -⟩ := hback k' hk'
    obtain ⟨j, hj, hjst, hje, hjb, hjv, -, -⟩ := hback j' hj'
    rw [← hke, ← hkb, ← hje, ← hjb]
    exact h.apart k hk j hj (hkv.trans hk'v) (hjv.trans hj'v) (by rw [hkst, hjst]; exact hne)
  · rw [hput]
    intro k' hk' j' hj' hj'v
    obtain ⟨k, hk, hkst, -, -, -, -, -⟩ := hback k' hk'
    obtain ⟨j, hj, -, hje, hjb, hjv, -, -⟩ := hback j' hj'
    rw [← hkst, ← hje, ← hjb]
    exact h.outside k hk j hj (hjv.trans hj'v)
  · rw [hput]
    intro k' hk'
    obtain ⟨k, hk, hkst, hke, hkb, hkv, -, -⟩ := hback k' hk'
    rw [← hkst, ← hke, ← hkb, ← hkv]
    exact h.list k hk
  · rw [hput, counters_split (l := { l with heap := heap' }) hv]
    have htotal := h.total
    rw [hmem, counters_split hv] at htotal
    change free' = counters (L ++ R) + heap'.freeBytesRemaining
    omega
  · intro p
    rw [hput, hhanded p]
    constructor
    · rintro (⟨s, hs⟩ | ⟨k, hk, hkv, hkl, s, hs⟩)
      · exact ⟨_, (hmem'' _).mpr (Or.inl rfl), hv, s, by rw [hFl]; exact hs⟩
      · exact ⟨k, (hmem'' _).mpr (Or.inr ⟨hk, hkl⟩), hkv, s, by rw [hF k hk hkl]; exact hs⟩
    · rintro ⟨k', hk', hk'v, s, hs⟩
      rcases (hmem'' k').mp hk' with rfl | ⟨hk, hne⟩
      · rw [hFl] at hs
        exact Or.inl ⟨s, hs⟩
      · rw [hF k' hk hne] at hs
        exact Or.inr ⟨k', hk, hk'v, hne, s, hs⟩

/-- The blocks of one heap and its start are apart from those of another. -/
theorem HeapsInv.other_region (h : HeapsInv cfg st live F) (hl : l ∈ st.memory) (hv : l.valid = true)
    (hk : k ∈ st.memory) (hkv : k.valid = true) (hkl : k ≠ l) {x : Nat}
    (hx : x = k.heap.start ∨ k.base ≤ x ∧ x ≤ k.heap.endBlock) :
    x ≠ l.heap.start ∧ (x < l.base ∨ l.heap.endBlock < x) ∧ x ≠ cfg.usedBlockList := by
  have hne : k.heap.start ≠ l.heap.start := fun heq => hkl (h.layout_inj hk hl heq)
  have hkl' := h.outside k hk l hl hv
  have hlk := h.outside l hl k hk hkv
  have hap := h.apart k hk l hl hkv hv hne
  have hlist := h.list k hk
  rcases hx with rfl | hx
  · exact ⟨hne, hkl', fun heq => hlist.1 heq.symm⟩
  · have hlist' := hlist.2 hkv
    exact ⟨by omega, by omega, by omega⟩

/-- What is in use is in the region of its heap. -/
theorem HeapsInv.inUse_region (h : HeapsInv cfg st live F) (hk : k ∈ st.memory) (hkv : k.valid = true)
    {s : Span} (hs : s ∈ F k.heap.start) : k.base ≤ s.addr ∧ s.addr ≤ k.heap.endBlock := by
  have hin := (h.heaps k hk hkv).tiles.mem hs
  omega

theorem inUse_taken {A B R : List Span} {s : Span} {b size : Nat} (hfree : s.free = true)
    (hR : R.filter (fun u => !u.free) = B.filter fun u => !u.free) (p : Nat) :
    InUse cfg (A ++ ⟨b, size, false⟩ :: R) p ↔ p = b + cfg.heapStructSize ∨ InUse cfg (A ++ s :: B) p := by
  have hRB : ∀ u : Span, u.free = false → (u ∈ R ↔ u ∈ B) := fun u hu =>
    ⟨fun h => mem_inUse hR h hu, fun h => mem_inUse hR.symm h hu⟩
  constructor
  · rintro ⟨u, hu, huf, rfl⟩
    rcases List.mem_append.mp hu with hu | hu
    · exact Or.inr ⟨u, List.mem_append_left _ hu, huf, rfl⟩
    · rcases List.mem_cons.mp hu with rfl | hu
      · exact Or.inl rfl
      · exact Or.inr ⟨u, List.mem_append_right _ (List.mem_cons_of_mem s ((hRB u huf).mp hu)), huf, rfl⟩
  · rintro (rfl | ⟨u, hu, huf, rfl⟩)
    · exact ⟨_, List.mem_append_right _ List.mem_cons_self, rfl, rfl⟩
    · refine ⟨u, ?_, huf, rfl⟩
      rcases List.mem_append.mp hu with hu | hu
      · exact List.mem_append_left _ hu
      · rcases List.mem_cons.mp hu with rfl | hu
        · rw [hfree] at huf
          cases huf
        · exact List.mem_append_right _ (List.mem_cons_of_mem _ ((hRB u huf).mpr hu))

/-- The bytes of the block behind a pointer that the program may use. -/
def State.payload (cfg : Config) (st : State) (p : Nat) : Nat :=
  ((st.block (p - cfg.heapStructSize)).blockSize &&& (2 ^ 32 - 1 - 2 ^ 31)) - cfg.heapStructSize

/-- The blocks of some pointers keep their sizes. -/
def KeepsSizes (cfg : Config) (live : List Nat) (st st' : State) : Prop :=
  ∀ a, a + cfg.heapStructSize ∈ live → (st'.block a).blockSize = (st.block a).blockSize

theorem KeepsSizes.payload {st' : State} (h : KeepsSizes cfg live st st') {p : Nat} (hp : p ∈ live)
    (hpos : cfg.heapStructSize ≤ p) : st'.payload cfg p = st.payload cfg p := by
  rw [State.payload, h _ (by rwa [Nat.sub_add_cancel hpos]), State.payload]

/-- The pointers handed out after a call that returned `p`. -/
def hold (p : Nat) (live : List Nat) : List Nat := if p = 0 then live else p :: live

/-- What a call for `n` bytes that returned `p` leaves. -/
structure Served (cfg : Config) (st st' : State) (live : List Nat) (n p : Nat) (F' : Nat → List Span) : Prop where
  inv : HeapsInv cfg st' (hold p live) F'
  sizes : KeepsSizes cfg live st st'
  byte : st'.byte = st.byte
  room : p ≠ 0 → n ≤ st'.payload cfg p

theorem Served.of_ne {st' : State} {n p : Nat} {F' : Nat → List Span} (hp : p ≠ 0)
    (hinv : HeapsInv cfg st' (p :: live) F') (hsizes : KeepsSizes cfg live st st') (hbyte : st'.byte = st.byte)
    (hroom : n ≤ st'.payload cfg p) : Served cfg st st' live n p F' :=
  ⟨by rw [hold, if_neg hp]; exact hinv, hsizes, hbyte, fun _ => hroom⟩

theorem HeapsInv.alloc_at (h : HeapsInv cfg st live F) (hl : l ∈ st.memory) (hv : l.valid = true)
    {wanted caps b size min' : Nat} {m' : Blocks} {heap' : Heap}
    (hrun : heapAlloc cfg st.block l.heap wanted caps = some (m', heap', b, size)) :
    ∃ F', Served cfg st
      (State.putHeap { st with
        block := m'
        freeBytesRemaining := st.freeBytesRemaining - size
        minimumEverFreeBytesRemaining := min' } heap') live wanted (b + cfg.heapStructSize) F' := by
  have hinv := h.heaps l hl hv
  obtain ⟨T', ha, hroom⟩ := hinv.alloc (h.list l hl).1 ((h.list l hl).2 hv) hrun
  obtain ⟨A, s, B, R, hT, hfree, rfl, rfl, hR⟩ := ha.taken
  have hs : s ∈ F l.heap.start := by
    rw [hT]
    simp
  have hregion := h.inUse_region hl hv hs
  have hsame : ∀ k ∈ st.memory, k.valid = true → k ≠ l → ∀ x,
      x = k.heap.start ∨ k.base ≤ x ∧ x ≤ k.heap.endBlock → m' x = st.block x := by
    intro k hk hkv hkl x hx
    obtain ⟨hxs, hxr, hxl⟩ := h.other_region hl hv hk hkv hkl hx
    exact ha.frame x hxs hxr hxl
  have hnew : s.addr + cfg.heapStructSize ∉ live := by
    rw [h.handed_iff hl hv]
    rintro (⟨u, hu, huf, hus⟩ | ⟨k, hk, hkv, hkl, u, hu, -, hus⟩)
    · exact hinv.addr_ne hu hs (by rw [huf, hfree]; decide) (by omega)
    · have huk := h.inUse_region hk hkv hu
      have heq : u.addr = s.addr := by omega
      exact hkl (h.region_inj hk hl hkv hv (by rw [← heq]; exact huk) hregion)
  -- a block in use keeps its header
  have hold : ∀ a, a + cfg.heapStructSize ∈ live → m' a = st.block a := by
    intro a hmem
    rcases (h.handed_iff hl hv _).mp hmem with ⟨u, hu, huf, hua⟩ | ⟨k, hk, hkv, hkl, u, hu, -, hua⟩
    · obtain rfl : u.addr = a := by omega
      exact ha.inUse u hu huf
    · obtain rfl : u.addr = a := by omega
      exact hsame k hk hkv hkl _ (Or.inr (h.inUse_region hk hkv hu))
  have hp : s.addr + cfg.heapStructSize ≠ 0 := by
    have hpos := hinv.addr_pos hs
    omega
  have htaken : ⟨s.addr, size, false⟩ ∈ A ++ ⟨s.addr, size, false⟩ :: R := by simp
  have hpayload : wanted ≤ ((m' s.addr).blockSize &&& (2 ^ 32 - 1 - 2 ^ 31)) - cfg.heapStructSize := by
    rw [ha.inv.usedSize _ htaken rfl, add_bit_and_not (ha.inv.size_lt htaken)]
    dsimp only
    omega
  refine ⟨_, Served.of_ne hp (h.update hl hv ha.start ha.endBlock ha.inv ?_ ?_ ?_ ?_ ?_)
    (fun a hmem => congrArg Block.blockSize (hold a hmem)) rfl ?_⟩
  rotate_right
  · rw [State.payload, Nat.add_sub_cancel]
    exact hpayload
  · intro k hk hkv hkl
    have hkk := h.heaps k hk hkv
    have hle := hkk.tiles.le
    refine hkk.congr (fun x hx => by rw [hsame k hk hkv hkl x hx])
      (fun x hx hx' => by rw [hsame k hk hkv hkl x (Or.inr ⟨hx, hx'⟩)]) (fun x hx => ?_) (fun _ u hu _ => ?_)
    · rcases hx with rfl | hx | rfl
      · rw [hsame k hk hkv hkl _ (Or.inl rfl)]
      · obtain ⟨u, hu, -, rfl⟩ := mem_freeAddrs.mp hx
        rw [hsame k hk hkv hkl _ (Or.inr (h.inUse_region hk hkv hu))]
      · rw [hsame k hk hkv hkl _ (Or.inr ⟨hle, Nat.le_refl _⟩)]
    · rw [hsame k hk hkv hkl _ (Or.inr (h.inUse_region hk hkv hu))]
  · have htotal := h.total
    obtain ⟨L, R', hmem⟩ := List.append_of_mem hl
    rw [hmem, counters_split hv] at htotal
    have hbytes := ha.bytes
    omega
  · exact List.nodup_cons.mpr ⟨hnew, h.nodup⟩
  · intro p
    rw [List.mem_cons, h.handed_iff hl hv p, inUse_taken hfree hR, hT, or_assoc]
  · intro htr
    obtain ⟨U, hlinks, hnd, hU⟩ := h.traced htr
    obtain ⟨hhead, hnext⟩ := ha.traced htr
    obtain ⟨hfirst, hrest⟩ := List.isChain_cons.mp hlinks
    refine ⟨s.addr :: U, ?_, ?_, ?_⟩
    · rw [List.cons_append]
      refine links_cons_cons.mpr ⟨hhead, Links.push hrest (fun z hz => ?_) fun z hz => ?_⟩
      · rw [hold z ((hU z).mp hz)]
      · rw [hnext]
        exact hfirst z hz
    · exact List.nodup_cons.mpr ⟨fun hmem => hnew ((hU _).mp hmem), hnd⟩
    · intro a
      rw [List.mem_cons, List.mem_cons, hU a]
      constructor
      · rintro (rfl | hmem)
        · exact Or.inl rfl
        · exact Or.inr hmem
      · rintro (heq | hmem)
        · exact Or.inl (by omega)
        · exact Or.inr hmem

theorem HeapsInv.refused (h : HeapsInv cfg st live F) (n : Nat) : Served cfg st st live n 0 F :=
  ⟨h, fun _ _ => rfl, rfl, fun hp => absurd rfl hp⟩

theorem HeapsInv.allocLoop (h : HeapsInv cfg st live F) (size caps : Nat) {rest : List MemoryLayout}
    (hrest : ∀ l ∈ rest, l ∈ st.memory) :
    ∃ F', Served cfg st (capsAllocLoop cfg st size caps rest).2 live size
      (capsAllocLoop cfg st size caps rest).1 F' := by
  induction rest with
  | nil => exact ⟨F, h.refused size⟩
  | cons l rest ih =>
    have ih := ih fun k hk => hrest k (List.mem_cons_of_mem l hk)
    have hl := hrest l List.mem_cons_self
    rw [capsAllocLoop]
    split
    · exact ih
    · rename_i hvalid
      have hv : l.valid = true := by simpa [MemoryLayout.valid] using hvalid
      split
      · cases hrun : heapAlloc cfg st.block l.heap size caps with
        | none => exact ih
        | some r =>
          obtain ⟨m', heap', b, taken⟩ := r
          exact h.alloc_at hl hv hrun
      · exact ih

theorem HeapsInv.alloc (h : HeapsInv cfg st live F) (size caps : Nat) :
    ∃ F', Served cfg st (wmHeapCapsAlloc cfg st size caps).2 live size (wmHeapCapsAlloc cfg st size caps).1 F' := by
  unfold wmHeapCapsAlloc
  split
  · exact ⟨F, h.refused size⟩
  · exact h.allocLoop size _ fun _ hl => hl

/-- Addresses are aligned and below 2^32, so that the walk over the blocks in use ends in time. -/
theorem HeapsInv.length_lt (h : HeapsInv cfg st live F) {U : List Nat} (hnd : U.Nodup)
    (hU : ∀ a ∈ U, a + cfg.heapStructSize ∈ live) : U.length < walkLimit := by
  have haddr : ∀ a ∈ U, 8 ∣ a ∧ a < 2 ^ 32 := by
    intro a ha
    obtain ⟨l, hl, hv, s, hs, -, hsa⟩ := (h.handed _).mp (hU a ha)
    obtain rfl : s.addr = a := by omega
    have hinv := h.heaps l hl hv
    have hin := h.inUse_region hl hv hs
    have hbound := hinv.bound
    exact ⟨hinv.tiles.dvd_addr hinv.aligned (fun u hu => (hinv.sizes u hu).2) hs, by omega⟩
  have hnd' : (U.map fun a => a / 8).Nodup := by
    refine hnd.map_on fun a ha b hb hab => ?_
    have ha' := haddr a ha
    have hb' := haddr b hb
    omega
  have hsub : (U.map fun a => a / 8) ⊆ List.range (2 ^ 29) := by
    intro c hc
    obtain ⟨a, ha, rfl⟩ := List.mem_map.mp hc
    have ha' := haddr a ha
    rw [List.mem_range]
    omega
  have hle := (List.subperm_of_subset hnd' hsub).length_le
  rw [List.length_map, List.length_range] at hle
  unfold walkLimit
  omega

/-- Memory with the block `b` off the list of blocks in use. -/
structure Unlisted (cfg : Config) (st : State) (live : List Nat) (b : Nat) (m : Blocks) : Prop where
  next : (m b).nextFreeBlock = 0
  sizes : ∀ x, x ≠ cfg.usedBlockList → (m x).blockSize = (st.block x).blockSize
  owners : ∀ x, (m x).heap = (st.block x).heap
  frame : ∀ x, x ≠ cfg.usedBlockList → x + cfg.heapStructSize ∉ live → m x = st.block x
  untraced : cfg.tracing = false → m = st.block
  traced : cfg.tracing = true → ∃ U, Links m (cfg.usedBlockList :: (U ++ [0])) ∧ U.Nodup ∧
    ∀ a, a ∈ U ↔ a + cfg.heapStructSize ∈ live.erase (b + cfg.heapStructSize)

theorem HeapsInv.unlist (h : HeapsInv cfg st live F) (hl : l ∈ st.memory) (hv : l.valid = true) {s : Span}
    (hs : s ∈ F l.heap.start) (hused : s.free = false) :
    Unlisted cfg st live s.addr
      (if cfg.tracing then heapRemoveBlockFromUsedList cfg st.block l.heap s.addr else st.block) := by
  have hp : s.addr + cfg.heapStructSize ∈ live := (h.handed _).mpr ⟨l, hl, hv, s, hs, hused, rfl⟩
  cases htr : cfg.tracing with
  | false =>
    simp only [Bool.false_eq_true, if_false]
    exact ⟨(h.heaps l hl hv).untraced htr s hs hused, fun _ _ => rfl, fun _ => rfl, fun _ _ _ => rfl,
      fun _ => rfl, fun ht => absurd ht (by simp [htr])⟩
  | true =>
    simp only [if_true]
    obtain ⟨U, hlinks, hnd, hU⟩ := h.traced htr
    have hzero : ∀ y ∈ U, y ≠ 0 := by
      intro y hy
      have hpos := h.addr_pos ((hU y).mp hy)
      omega
    have hlist : cfg.usedBlockList ∉ U := by
      intro hmem
      obtain ⟨k, hk, hkv, u, hu, -, hua⟩ := (h.handed _).mp ((hU _).mp hmem)
      have hin := h.inUse_region hk hkv hu
      have hout := (h.list k hk).2 hkv
      omega
    have hrem : Removed cfg st.block (heapRemoveBlockFromUsedList cfg st.block l.heap s.addr) U s.addr :=
      removed_of_links hlinks hzero hnd hlist ((hU _).mpr hp) (h.length_lt hnd fun a ha => (hU a).mp ha)
    refine ⟨hrem.next, hrem.sizes, hrem.owners, fun x hx hxlive => hrem.frame x hx fun hmem => hxlive ((hU x).mp hmem),
      fun ht => absurd ht (by simp [htr]), fun _ => ⟨_, hrem.links, hnd.erase _, fun a => ?_⟩⟩
    rw [hnd.mem_erase_iff, h.nodup.mem_erase_iff, hU a]
    constructor
    · rintro ⟨hne, hmem⟩
      exact ⟨by omega, hmem⟩
    · rintro ⟨hne, hmem⟩
      exact ⟨by omega, hmem⟩

/-- Taking a block off the list of blocks in use leaves every heap as it is. -/
theorem HeapsInv.unlisted (h : HeapsInv cfg st live F) {b : Nat} {m : Blocks} (hm : Unlisted cfg st live b m)
    (hk : k ∈ st.memory) (hkv : k.valid = true) : HeapInv cfg m k.heap k.base (F k.heap.start) := by
  have hinv := h.heaps k hk hkv
  have hlist := h.list k hk
  have hlist' := hlist.2 hkv
  have hle := hinv.tiles.le
  -- neither the start, nor a free span, nor the end is a block in use
  have hnot : ∀ x, x = k.heap.start ∨ x ∈ freeAddrs (F k.heap.start) ∨ x = k.heap.endBlock →
      x ≠ cfg.usedBlockList ∧ x + cfg.heapStructSize ∉ live := by
    intro x hx
    constructor
    · rcases hx with rfl | hx | rfl
      · exact fun heq => hlist.1 heq.symm
      · obtain ⟨u, hu, -, rfl⟩ := mem_freeAddrs.mp hx
        have hin := h.inUse_region hk hkv hu
        omega
      · omega
    · intro hmem
      obtain ⟨j, hj, hjv, u, hu, huf, hua⟩ := (h.handed _).mp hmem
      obtain rfl : u.addr = x := by omega
      have huin := h.inUse_region hj hjv hu
      rcases hx with heq | hx | heq
      · have hout := h.outside k hk j hj hjv
        omega
      · obtain ⟨v, hv, hvf, hvu⟩ := mem_freeAddrs.mp hx
        have hvin := h.inUse_region hk hkv hv
        obtain rfl := h.region_inj hj hk hjv hkv huin (by rw [← hvu]; exact hvin)
        exact hinv.addr_ne hv hu (by rw [hvf, huf]; decide) hvu
      · obtain rfl := h.region_inj hj hk hjv hkv huin (by rw [heq]; exact ⟨hle, Nat.le_refl _⟩)
        have hin := hinv.tiles.mem hu
        have hu8 := (hinv.sizes u hu).1
        omega
  refine hinv.congr (fun x hx => hm.sizes x ?_) (fun x _ _ => hm.owners x)
    (fun x hx => by rw [hm.frame x (hnot x hx).1 (hnot x hx).2]) (fun ht s hs _ => by rw [hm.untraced ht])
  rcases hx with rfl | hx
  · exact fun heq => hlist.1 heq.symm
  · omega

theorem inUse_released {A B : List Span} {s : Span} {lo hi : Nat} (hT : Tiles lo (A ++ s :: B) hi)
    (hpos : ∀ u ∈ A ++ s :: B, 0 < u.size) (p : Nat) :
    InUse cfg (coalesce A ⟨s.addr, s.size, true⟩ B) p ↔
      p ≠ s.addr + cfg.heapStructSize ∧ InUse cfg (A ++ s :: B) p := by
  have hfilter : (coalesce A ⟨s.addr, s.size, true⟩ B).filter (fun u => !u.free) =
      (A ++ B).filter fun u => !u.free := by
    rw [coalesce_inUse rfl]
    simp
  obtain ⟨hA, hB⟩ := tiles_split.mp hT
  constructor
  · rintro ⟨u, hu, huf, rfl⟩
    have hmem := mem_inUse hfilter hu huf
    rcases List.mem_append.mp hmem with hmem | hmem
    · have hin := hA.mem hmem
      have hu0 := hpos u (by simp [hmem])
      exact ⟨by omega, u, by simp [hmem], huf, rfl⟩
    · have hin := hB.mem hmem
      have hs0 := hpos s (by simp)
      exact ⟨by omega, u, by simp [hmem], huf, rfl⟩
  · rintro ⟨hne, u, hu, huf, rfl⟩
    have hmem : u ∈ A ++ B := by
      rcases List.mem_append.mp hu with hu | hu
      · exact List.mem_append_left B hu
      · rcases List.mem_cons.mp hu with rfl | hu
        · exact absurd rfl hne
        · exact List.mem_append_right A hu
    exact ⟨u, mem_inUse hfilter.symm hmem huf, huf, rfl⟩

/-- What a free of `p` leaves. -/
structure Freed (cfg : Config) (st st' : State) (live : List Nat) (p : Nat) (F' : Nat → List Span) : Prop where
  inv : HeapsInv cfg st' (live.erase p) F'
  sizes : KeepsSizes cfg (live.erase p) st st'
  byte : st'.byte = st.byte

theorem HeapsInv.free (h : HeapsInv cfg st live F) {p : Nat} (hp : p ∈ live) :
    ∃ F', Freed cfg st (heapFree cfg st p) live p F' := by
  obtain ⟨l, hl, hv, s, hs, hused, rfl⟩ := (h.handed p).mp hp
  have hinv := h.heaps l hl hv
  have hlink : s.addr + cfg.heapStructSize - cfg.heapStructSize = s.addr := by omega
  have hfind : st.findHeap (st.block s.addr).heap = some l.heap := by
    rw [hinv.owner s hs hused]
    exact h.findHeap hl
  have hm := h.unlist hl hv hs hused
  unfold heapFree
  simp only [hlink, hfind]
  generalize (if cfg.tracing then heapRemoveBlockFromUsedList cfg st.block l.heap s.addr else st.block) = m at hm
  have hinv₁ := h.unlisted hm hl hv
  obtain ⟨A, B, hT⟩ := List.append_of_mem hs
  rw [hT] at hinv₁
  have hpos : ∀ u ∈ A ++ s :: B, 0 < u.size := by
    intro u hu
    have hu8 := (hinv₁.sizes u hu).1
    omega
  obtain ⟨m', heap', hrun, rfl, hinv', hframe⟩ := hinv₁.release hused hm.next
  simp only [hrun]
  -- a block apart from the free list, the start and the block freed keeps its header
  have hkeep : ∀ x, x ≠ l.heap.start → (∀ u ∈ A ++ s :: B, u.addr = x → u.free = false ∧ x ≠ s.addr) →
      m' x = m x := by
    intro x hx hxT
    apply hframe x hx
    · intro hmem
      obtain ⟨u, hu, huf, hux⟩ := mem_freeAddrs.mp hmem
      rw [(hxT u hu hux).1] at huf
      cases huf
    · intro hxs
      exact (hxT s (by simp) hxs.symm).2 hxs
  -- so does a block that stays in use
  have hstay : ∀ y, y + cfg.heapStructSize ∈ live.erase (s.addr + cfg.heapStructSize) → m' y = m y := by
    intro y hy
    obtain ⟨hne, hmem⟩ := (h.nodup.mem_erase_iff).mp hy
    obtain ⟨k, hk, hkv, u, hu, huf, hua⟩ := (h.handed _).mp hmem
    have huin := h.inUse_region hk hkv hu
    refine hkeep y ?_ fun v hvT hvy => ⟨?_, by omega⟩
    · rintro rfl
      have hout := h.outside l hl k hk hkv
      omega
    · have hvin : v ∈ F l.heap.start := by rw [hT]; exact hvT
      have hvreg := h.inUse_region hl hv hvin
      have heq : v.addr = u.addr := by omega
      obtain rfl := h.region_inj hk hl hkv hv huin (by rw [← heq]; exact hvreg)
      have huv := hinv.tiles.addr_inj (fun w hw => by rw [hT] at hw; exact hpos w hw) hvin hu heq
      rw [huv]
      exact huf
  have hlistSize : ∀ y, y + cfg.heapStructSize ∈ live → y ≠ cfg.usedBlockList := by
    rintro y hy rfl
    obtain ⟨k, hk, hkv, u, hu, -, hua⟩ := (h.handed _).mp hy
    have hin := h.inUse_region hk hkv hu
    have hout := (h.list k hk).2 hkv
    omega
  have hsizes : ∀ a, a + cfg.heapStructSize ∈ live.erase (s.addr + cfg.heapStructSize) →
      (m' a).blockSize = (st.block a).blockSize := by
    intro a hmem
    rw [hstay a hmem, hm.sizes a (hlistSize a ((h.nodup.mem_erase_iff).mp hmem).2)]
  refine ⟨_, h.update hl hv rfl rfl hinv' ?_ ?_ (h.nodup.erase _) ?_ ?_, hsizes, rfl⟩
  · intro k hk hkv hkl
    have hkk := h.unlisted hm hk hkv
    have hle := hkk.tiles.le
    have hsame : ∀ x, x = k.heap.start ∨ k.base ≤ x ∧ x ≤ k.heap.endBlock → m' x = m x := by
      intro x hx
      obtain ⟨hxs, hxr, -⟩ := h.other_region hl hv hk hkv hkl hx
      refine hkeep x hxs fun u hu hux => ?_
      have hin := hinv₁.tiles.mem hu
      omega
    refine hkk.congr (fun x hx => by rw [hsame x hx]) (fun x hx hx' => by rw [hsame x (Or.inr ⟨hx, hx'⟩)])
      (fun x hx => ?_) (fun _ u hu _ => by rw [hsame _ (Or.inr (h.inUse_region hk hkv hu))])
    rcases hx with rfl | hx | rfl
    · rw [hsame _ (Or.inl rfl)]
    · obtain ⟨u, hu, -, rfl⟩ := mem_freeAddrs.mp hx
      rw [hsame _ (Or.inr (h.inUse_region hk hkv hu))]
    · rw [hsame _ (Or.inr ⟨hle, Nat.le_refl _⟩)]
  · have htotal := h.total
    dsimp only
    omega
  · intro q
    rw [h.nodup.mem_erase_iff, h.handed_iff hl hv q, inUse_released hinv₁.tiles hpos, hT]
    constructor
    · rintro ⟨hne, hin | hout⟩
      · exact Or.inl ⟨hne, hin⟩
      · exact Or.inr hout
    · rintro (⟨hne, hin⟩ | hout)
      · exact ⟨hne, Or.inl hin⟩
      · refine ⟨?_, Or.inr hout⟩
        rintro rfl
        obtain ⟨k, hk, hkv, hkl, u, hu, -, hus⟩ := hout
        have huk := h.inUse_region hk hkv hu
        have heq : u.addr = s.addr := by omega
        exact hkl (h.region_inj hk hl hkv hv (by rw [← heq]; exact huk) (h.inUse_region hl hv hs))
  · intro htr
    obtain ⟨U, hlinks, hnd, hU⟩ := hm.traced htr
    refine ⟨U, ?_, hnd, hU⟩
    rw [← List.cons_append] at hlinks ⊢
    refine Links.congr hlinks fun y hy => ?_
    rcases List.mem_cons.mp hy with rfl | hy
    · have hlist := h.list l hl
      have hlist' := hlist.2 hv
      rw [hkeep _ hlist.1 fun v hvT hvy => ?_]
      have hin := hinv₁.tiles.mem hvT
      omega
    · rw [hstay y ((hU _).mp hy)]

end

end WmIot.Heap
