import WmIot.Heap.Realloc

/-!
# Runs of the heap

Regions are set up, the PSRAM joins later, and blocks are allocated, freed and reallocated in any
order. In every state reached the free and the allocated blocks tile each heap and the counters
agree with the free lists.
-/

namespace WmIot.Heap
open Tiling
set_option autoImplicit false

/-! ## Set-up -/

/-- The entry is for a region that `wm_heap_init` sets up. -/
def MemoryLayout.internal (l : MemoryLayout) : Bool := l.memName != psramName

/-- The regions as linked: those to set up lie apart, each with room for its heap, and
`wm_soc_memory` and the list of blocks in use lie outside them. -/
structure Linked (cfg : Config) (layouts : List MemoryLayout) : Prop where
  ready : ∀ l ∈ layouts, l.internal = true → Ready cfg l ∧ l.valid = true
  starts : (layouts.map fun l => l.heap.start).Nodup
  startsOut : ∀ k ∈ layouts, ∀ l ∈ layouts, l.internal = true →
    k.heap.start < l.startAddress ∨ l.startAddress + l.sizeInBytes ≤ k.heap.start
  listOut : ∀ l ∈ layouts, cfg.usedBlockList ≠ l.heap.start ∧ (l.internal = true →
    cfg.usedBlockList < l.startAddress ∨ l.startAddress + l.sizeInBytes ≤ cfg.usedBlockList)
  apart : layouts.Pairwise fun k l => k.internal = true → l.internal = true →
    k.startAddress + k.sizeInBytes ≤ l.startAddress ∨ l.startAddress + l.sizeInBytes ≤ k.startAddress

section Init
variable {cfg : Config} {st : State} {F : Nat → List Span} {memory done rest : List MemoryLayout} {l : MemoryLayout}

/-- The entries gone through are those of the table, set up when they are internal. -/
def From (memory done : List MemoryLayout) : Prop :=
  List.Forall₂ (fun k k₀ => k.heap.start = k₀.heap.start ∧ k.startAddress = k₀.startAddress ∧
    k.sizeInBytes = k₀.sizeInBytes ∧ (k.valid = true → k₀.internal = true)) memory done

theorem From.mem (h : From memory done) {k : MemoryLayout} (hk : k ∈ memory) :
    ∃ k₀ ∈ done, k.heap.start = k₀.heap.start ∧ k.startAddress = k₀.startAddress ∧
      k.sizeInBytes = k₀.sizeInBytes ∧ (k.valid = true → k₀.internal = true) := by
  induction h with
  | nil => cases hk
  | cons hhead _ ih =>
    rcases List.mem_cons.mp hk with rfl | hk
    · exact ⟨_, List.mem_cons_self, hhead⟩
    · obtain ⟨k₀, hk₀, hsame⟩ := ih hk
      exact ⟨k₀, List.mem_cons_of_mem _ hk₀, hsame⟩

theorem From.starts (h : From memory done) :
    (memory.map fun l => l.heap.start) = done.map fun l => l.heap.start := by
  induction h with
  | nil => rfl
  | cons hhead _ ih => rw [List.map_cons, List.map_cons, hhead.1, ih]

theorem Linked.placed (h : Linked cfg (done ++ l :: rest)) (hfrom : From memory done) (hl : l.internal = true) :
    Placed cfg memory l := by
  have hmem : l ∈ done ++ l :: rest := by simp
  have hdone : ∀ k ∈ done, k ∈ done ++ l :: rest := fun k hk => List.mem_append_left _ hk
  have hstarts := h.starts
  rw [List.map_append, List.map_cons] at hstarts
  refine ⟨(h.ready l hmem hl).1, h.startsOut l hmem l hmem hl, (h.listOut l hmem).2 hl, (h.listOut l hmem).1, ?_, ?_,
    ?_, ?_⟩
  · intro k hk
    obtain ⟨k₀, hk₀, hst, -⟩ := hfrom.mem hk
    rw [hst]
    exact (List.nodup_append.mp hstarts).2.2 _ (List.mem_map_of_mem hk₀) _ List.mem_cons_self
  · intro k hk
    obtain ⟨k₀, hk₀, hst, -⟩ := hfrom.mem hk
    rw [hst]
    exact h.startsOut k₀ (hdone k₀ hk₀) l hmem hl
  · intro k hk hkv
    obtain ⟨k₀, hk₀, -, haddr, hsize, hint⟩ := hfrom.mem hk
    rw [haddr, hsize]
    exact h.startsOut l hmem k₀ (hdone k₀ hk₀) (hint hkv)
  · intro k hk hkv
    obtain ⟨k₀, hk₀, -, haddr, hsize, hint⟩ := hfrom.mem hk
    rw [haddr, hsize]
    exact (List.pairwise_append.mp h.apart).2.2 k₀ hk₀ l List.mem_cons_self (hint hkv) hl

theorem or_capInvalid (l : MemoryLayout) : { l with caps := l.caps ||| capInvalid }.valid = false := by
  have hbit : (capInvalid &&& (l.caps ||| capInvalid)).testBit 20 = true := by
    rw [Nat.testBit_and, Nat.testBit_or, capInvalid, Nat.testBit_two_pow_self, Bool.or_true]
    rfl
  have hne : capInvalid &&& (l.caps ||| capInvalid) ≠ 0 := by
    intro hzero
    rw [hzero, Nat.zero_testBit] at hbit
    cases hbit
  simpa [MemoryLayout.valid] using hne

/-- An entry that is not set up joins the table. -/
theorem HeapsInv.skip (h : HeapsInv cfg st [] F) (hlinked : Linked cfg (done ++ l :: rest)) (hfrom : From st.memory done) :
    HeapsInv cfg { st with memory := st.memory ++ [{ l with caps := l.caps ||| capInvalid }] } [] F := by
  have hmem : l ∈ done ++ l :: rest := by simp
  have hstarts := hlinked.starts
  rw [List.map_append, List.map_cons] at hstarts
  refine h.remap ?_ ?_ fun k hk hkv => ?_
  · rw [List.filter_append, List.filter_cons, or_capInvalid]
    simp
  · rw [List.map_append, hfrom.starts]
    refine List.nodup_append.mpr ⟨(List.nodup_append.mp hstarts).1, by simp, fun a ha b hb => ?_⟩
    obtain rfl : b = l.heap.start := by simpa using hb
    exact (List.nodup_append.mp hstarts).2.2 a ha _ List.mem_cons_self
  · rcases List.mem_append.mp hk with hk | hk
    · exact ⟨(h.list k hk).1, fun j hj hjv => h.outside k hk j hj hjv⟩
    · obtain rfl := List.mem_singleton.mp hk
      refine ⟨(hlinked.listOut l hmem).1, fun j hj hjv => ?_⟩
      obtain ⟨j₀, hj₀, -, haddr, hsize, hint⟩ := hfrom.mem hj
      have hout := hlinked.startsOut l hmem j₀ (List.mem_append_left _ hj₀) (hint hjv)
      have hin := h.inside j hj hjv
      have hbase := j.base_bounds
      have hstruct := heapStructSize_pos cfg
      dsimp only
      omega

theorem HeapsInv.initLayout (h : HeapsInv cfg st [] F) (hlinked : Linked cfg (done ++ l :: rest))
    (hfrom : From st.memory done) :
    (∃ F', HeapsInv cfg (initLayout cfg st l) [] F') ∧ From (initLayout cfg st l).memory (done ++ [l]) := by
  have hmem : l ∈ done ++ l :: rest := by simp
  unfold Heap.initLayout
  by_cases hname : l.memName = psramName
  · rw [if_pos hname]
    refine ⟨⟨F, h.skip hlinked hfrom⟩, List.rel_append hfrom (List.Forall₂.cons ⟨rfl, rfl, rfl, ?_⟩ .nil)⟩
    rw [or_capInvalid]
    exact fun ht => by cases ht
  · have hint : l.internal = true := by simpa [MemoryLayout.internal] using hname
    obtain ⟨hready, hvalid⟩ := hlinked.ready l hmem hint
    have hout := hlinked.startsOut l hmem l hmem hint
    have hbase := l.base_bounds
    obtain ⟨e, -, -, -, hlayout, hstart, -⟩ :=
      heapInit_spec (m := st.block) hready (hout.imp (fun hlt => by omega) id)
    have hcaps : (heapInit cfg st.block l).2.caps = l.caps := by rw [hlayout]
    rw [if_neg hname]
    refine ⟨?_, ?_⟩
    · have hkeep : { (heapInit cfg st.block l).2 with caps := l.caps } = (heapInit cfg st.block l).2 := by rw [← hcaps]
      have hsetup : ∃ F', HeapsInv cfg
          { st with
            block := (heapInit cfg st.block l).1
            memory := st.memory ++ [{ (heapInit cfg st.block l).2 with caps := l.caps }]
            freeBytesRemaining := st.freeBytesRemaining + (heapInit cfg st.block l).2.heap.freeBytesRemaining
            minimumEverFreeBytesRemaining :=
              st.freeBytesRemaining + (heapInit cfg st.block l).2.heap.freeBytesRemaining } [] F' :=
        h.setup (by simp) (hlinked.placed hfrom hint) (by simpa [MemoryLayout.valid] using hvalid) rfl
      rw [hkeep] at hsetup
      exact hsetup
    · refine List.rel_append hfrom (List.Forall₂.cons ⟨hstart, ?_, ?_, fun _ => hint⟩ .nil)
      · rw [hlayout]
      · rw [hlayout]

theorem HeapsInv.initLayouts (h : HeapsInv cfg st [] F) (hlinked : Linked cfg (done ++ rest))
    (hfrom : From st.memory done) : ∃ F', HeapsInv cfg (rest.foldl (Heap.initLayout cfg) st) [] F' := by
  induction rest generalizing done st F with
  | nil => exact ⟨F, h⟩
  | cons l rest ih =>
    obtain ⟨⟨F₁, h₁⟩, hfrom₁⟩ := h.initLayout hlinked hfrom
    rw [List.foldl_cons]
    exact ih h₁ (by simpa using hlinked) hfrom₁

end Init

/-- Memory and counters before `wm_heap_init`. -/
theorem heapsInv_empty (cfg : Config) (m : Blocks) (byte : Nat → BitVec 8)
    (hlist : (m cfg.usedBlockList).nextFreeBlock = 0) :
    HeapsInv cfg ⟨m, byte, [], 0, 0⟩ [] fun _ => [] := by
  refine ⟨by simp, by simp, by simp, by simp, by simp, by simp, rfl, List.nodup_nil, by simp, fun _ => ?_⟩
  exact ⟨[], links_cons_cons.mpr ⟨hlist, List.isChain_singleton _⟩, List.nodup_nil, by simp⟩

section Append
variable {cfg : Config} {st : State} {live : List Nat} {F : Nat → List Span} {L R done : List MemoryLayout}
  {l : MemoryLayout} {memName : String} {epsram : Nat} {psramSize : Option Nat}

/-- The entry with its heap cleared. -/
def MemoryLayout.cleared (l : MemoryLayout) : MemoryLayout :=
  { l with heap := { l.heap with
      endBlock := 0, freeBytesRemaining := 0, minimumEverFreeBytesRemaining := 0, blockAllocatedBit := 0 } }

/-- The entry for a PSRAM of the size detected. -/
def MemoryLayout.detected (l : MemoryLayout) (epsram size : Nat) : MemoryLayout :=
  { l.cleared with startAddress := epsram, sizeInBytes := sub32 size (sub32 epsram psramBaseAddr) }

/-- The entry named, if there is one, is the only one of its name, is not set up yet, and its region
is apart from all others. -/
def Joins (cfg : Config) (st : State) (memName : String) (epsram : Nat) (psramSize : Option Nat) : Prop :=
  ∀ L l R, st.memory = L ++ l :: R → l.memName = memName →
    l.valid = false ∧ (∀ k ∈ L ++ R, k.memName ≠ memName) ∧
      ∀ size, psramSize = some size → cfg.minimumBlockSize < (l.detected epsram size).sizeInBytes →
        Placed cfg (L ++ R) (l.detected epsram size)

theorem appendLoop_skip (hL : ∀ k ∈ L, k.memName ≠ memName) :
    appendLoop cfg memName epsram psramSize done (L ++ R) st =
      appendLoop cfg memName epsram psramSize (done ++ L) R st := by
  induction L generalizing done with
  | nil => simp
  | cons k L ih =>
    rw [List.cons_append, appendLoop, if_pos (hL k List.mem_cons_self),
      ih fun j hj => hL j (List.mem_cons_of_mem k hj), List.append_assoc, List.singleton_append]

theorem appendLoop_end (hR : ∀ k ∈ R, k.memName ≠ memName) :
    appendLoop cfg memName epsram psramSize done R st = { st with memory := done ++ R } := by
  have hskip : appendLoop cfg memName epsram psramSize done (R ++ []) st =
      appendLoop cfg memName epsram psramSize (done ++ R) [] st := appendLoop_skip hR
  rw [List.append_nil] at hskip
  rw [hskip, appendLoop]

/-- An entry not set up may be changed, its start kept. -/
theorem HeapsInv.replace (h : HeapsInv cfg st live F) (hmem : st.memory = L ++ l :: R) (hl : l.valid = false)
    {l' : MemoryLayout} (hl' : l'.valid = false) (hstart : l'.heap.start = l.heap.start) :
    HeapsInv cfg { st with memory := L ++ l' :: R } live F := by
  have hin : l ∈ st.memory := by
    rw [hmem]
    simp
  refine h.remap ?_ ?_ fun k hk hkv => ?_
  · rw [hmem, List.filter_append, List.filter_append, List.filter_cons, List.filter_cons, hl, hl']
    rfl
  · have hstarts := h.starts
    rw [hmem] at hstarts
    simpa [hstart] using hstarts
  · have hk' : k = l' ∨ k ∈ st.memory := by
      rw [hmem]
      rcases List.mem_append.mp hk with hk | hk
      · exact Or.inr (List.mem_append_left _ hk)
      · exact (List.mem_cons.mp hk).imp id fun hk => List.mem_append_right _ (List.mem_cons_of_mem l hk)
    rcases hk' with rfl | hk'
    · rw [hstart]
      exact ⟨(h.list l hin).1, fun j hj hjv => h.outside l hin j hj hjv⟩
    · exact ⟨(h.list k hk').1, fun j hj hjv => h.outside k hk' j hj hjv⟩

/-- An entry not set up may be left out. -/
theorem HeapsInv.drop (h : HeapsInv cfg st live F) (hmem : st.memory = L ++ l :: R) (hl : l.valid = false) :
    HeapsInv cfg { st with memory := L ++ R } live F := by
  have hsub : ∀ k ∈ L ++ R, k ∈ st.memory := by
    intro k hk
    rw [hmem]
    rcases List.mem_append.mp hk with hk | hk
    · exact List.mem_append_left _ hk
    · exact List.mem_append_right _ (List.mem_cons_of_mem l hk)
  refine h.remap ?_ ?_ fun k hk _ => ⟨(h.list k (hsub k hk)).1, fun j hj hjv => h.outside k (hsub k hk) j hj hjv⟩
  · rw [hmem, List.filter_append, List.filter_append, List.filter_cons, hl]
    rfl
  · have hstarts := h.starts
    rw [hmem, List.map_append, List.map_cons, List.nodup_middle, List.nodup_cons] at hstarts
    rw [List.map_append]
    exact hstarts.2

theorem and_not_capInvalid (caps : Nat) : capInvalid &&& (caps &&& (2 ^ 32 - 1 - capInvalid)) = 0 := by
  have hmask : (2 ^ 32 - 1 - capInvalid) &&& capInvalid = 0 := by decide
  rw [Nat.and_comm, Nat.and_assoc, hmask, Nat.and_zero]

theorem HeapsInv.append (h : HeapsInv cfg st live F) (hjoins : Joins cfg st memName epsram psramSize) :
    ∃ F', HeapsInv cfg (wmHeapAppendToHeap cfg st memName epsram psramSize) live F' := by
  unfold wmHeapAppendToHeap
  by_cases hname : ∀ k ∈ st.memory, k.memName ≠ memName
  · rw [appendLoop_end hname]
    exact ⟨F, h⟩
  · push Not at hname
    obtain ⟨l, hl, hlname⟩ := hname
    obtain ⟨L, R, hmem⟩ := List.append_of_mem hl
    obtain ⟨hlv, hothers, hplaced⟩ := hjoins L l R hmem hlname
    have hL : ∀ k ∈ L, k.memName ≠ memName := fun k hk => hothers k (List.mem_append_left R hk)
    have hR : ∀ k ∈ R, k.memName ≠ memName := fun k hk => hothers k (List.mem_append_right L hk)
    rw [hmem, appendLoop_skip hL, List.nil_append, appendLoop, if_neg (by simp [hlname])]
    cases psramSize with
    | none =>
      have hcleared : l.cleared.valid = false := hlv
      exact ⟨F, h.replace hmem hlv hcleared rfl⟩
    | some size =>
      dsimp only
      by_cases hsmall : sub32 size (sub32 epsram psramBaseAddr) ≤ cfg.minimumBlockSize
      · rw [if_pos hsmall]
        have hdetected : (l.detected epsram size).valid = false := hlv
        exact ⟨F, h.replace hmem hlv hdetected rfl⟩
      · rw [if_neg hsmall, appendLoop_end hR, List.append_assoc, List.singleton_append]
        exact (h.drop hmem hlv).setup rfl (hplaced size rfl (Nat.lt_of_not_le hsmall)) (and_not_capInvalid _) rfl

end Append

/-! ## Runs -/

/-- What the program has done so far: the state, and the pointers handed out and not freed since. -/
inductive HeapRun (cfg : Config) : State → List Nat → Prop where
  | init {m : Blocks} {byte : Nat → BitVec 8} {layouts : List MemoryLayout} {bssEnd eshram : Nat}
      (linked : Linked cfg (linkLayouts bssEnd eshram layouts)) (list : (m cfg.usedBlockList).nextFreeBlock = 0) :
      HeapRun cfg (wmHeapInit cfg m byte layouts bssEnd eshram) []
  | append {st : State} {live : List Nat} {memName : String} {epsram : Nat} {psramSize : Option Nat}
      (run : HeapRun cfg st live) (joins : Joins cfg st memName epsram psramSize) :
      HeapRun cfg (wmHeapAppendToHeap cfg st memName epsram psramSize) live
  | alloc {st : State} {live : List Nat} (size caps : Nat) (run : HeapRun cfg st live) :
      HeapRun cfg (wmHeapCapsAlloc cfg st size caps).2 (hold (wmHeapCapsAlloc cfg st size caps).1 live)
  | free {st : State} {live : List Nat} {p : Nat} (run : HeapRun cfg st live) (passable : Passable live p) :
      HeapRun cfg (wmHeapCapsFree cfg st p) (live.erase p)
  | realloc {st : State} {live : List Nat} {p : Nat} (size caps : Nat) (run : HeapRun cfg st live)
      (passable : Passable live p) :
      HeapRun cfg (wmHeapCapsRealloc cfg st p size caps).2
        (reallocHeld live p size (wmHeapCapsRealloc cfg st p size caps).1)

theorem HeapRun.inv {cfg : Config} {st : State} {live : List Nat} (run : HeapRun cfg st live) :
    ∃ F, HeapsInv cfg st live F := by
  induction run with
  | @init _ _ layouts bssEnd eshram linked list =>
    have hlinked : Linked cfg ([] ++ linkLayouts bssEnd eshram layouts) := linked
    exact (heapsInv_empty cfg _ _ list).initLayouts hlinked List.Forall₂.nil
  | append _ joins ih =>
    obtain ⟨F, h⟩ := ih
    exact h.append joins
  | alloc size caps _ ih =>
    obtain ⟨F, h⟩ := ih
    obtain ⟨F', hserved⟩ := h.alloc size caps
    exact ⟨F', hserved.inv⟩
  | free _ passable ih =>
    obtain ⟨F, h⟩ := ih
    exact h.capsFree passable
  | realloc size caps _ passable ih =>
    obtain ⟨F, h⟩ := ih
    exact h.realloc passable size caps

/-- A heap tiled by free blocks, which its free list visits in order, and by blocks in use. -/
structure TiledHeap (cfg : Config) (m : Blocks) (l : MemoryLayout) (T : List Span) : Prop where
  tiles : Tiles l.base T l.heap.endBlock
  inside : l.startAddress ≤ l.base ∧ l.heap.endBlock + cfg.heapStructSize ≤ l.startAddress + l.sizeInBytes
  freeList : Links m (l.heap.start :: (freeAddrs T ++ [l.heap.endBlock]))
  sorted : (freeAddrs T).Pairwise (· < ·)
  separated : (T.filter Span.free).Pairwise fun s t => s.addr + s.size < t.addr
  disjoint : T.Pairwise fun s t => s.addr + s.size ≤ t.addr
  sizes : ∀ s ∈ T, 0 < s.size ∧
    (m s.addr).blockSize = if s.free then s.size else s.size ||| l.heap.blockAllocatedBit
  aligned : ∀ s ∈ T, 8 ∣ s.addr
  counter : l.heap.freeBytesRemaining = ((T.filter Span.free).map Span.size).sum

/-- Every heap is tiled, the heaps are apart, the global counter is the sum of theirs, and the
blocks in use are those behind the pointers handed out. -/
def HeapSound (cfg : Config) (st : State) (live : List Nat) : Prop :=
  ∃ F : Nat → List Span,
    (∀ l ∈ st.memory, l.valid = true → TiledHeap cfg st.block l (F l.heap.start)) ∧
    (∀ l ∈ st.memory, ∀ k ∈ st.memory, l.valid = true → k.valid = true → l ≠ k →
      l.heap.endBlock < k.base ∨ k.heap.endBlock < l.base) ∧
    st.freeBytesRemaining = ((st.memory.filter MemoryLayout.valid).map fun l => l.heap.freeBytesRemaining).sum ∧
    live.Nodup ∧
    ∀ p, p ∈ live ↔ ∃ l ∈ st.memory, l.valid = true ∧
      ∃ s ∈ F l.heap.start, s.free = false ∧ s.addr + cfg.heapStructSize = p

theorem HeapInv.tiled {cfg : Config} {m : Blocks} {l : MemoryLayout} {T : List Span}
    (h : HeapInv cfg m l.heap l.base T)
    (hin : l.heap.endBlock + cfg.heapStructSize ≤ l.startAddress + l.sizeInBytes) : TiledHeap cfg m l T := by
  have hpos : ∀ s ∈ T, 0 < s.size := by
    intro s hs
    have h8 := (h.sizes s hs).1
    omega
  refine ⟨h.tiles, ⟨l.base_bounds.1, hin⟩, h.links, h.tiles.freeAddrs_lt hpos, h.tiles.free_apart hpos h.apart,
    h.tiles.pairwise, fun s hs => ⟨hpos s hs, ?_⟩,
    fun s hs => h.tiles.dvd_addr h.aligned (fun t ht => (h.sizes t ht).2) hs, h.bytes⟩
  cases hf : s.free with
  | true =>
    rw [h.freeSize s hs hf]
    rfl
  | false =>
    rw [h.usedSize s hs hf, h.bit, ← or_bit (h.size_lt hs)]
    rfl

theorem heap_run_sound {cfg : Config} {st : State} {live : List Nat} (run : HeapRun cfg st live) :
    HeapSound cfg st live := by
  obtain ⟨F, h⟩ := run.inv
  refine ⟨F, fun l hl hv => (h.heaps l hl hv).tiled (h.inside l hl hv), fun l hl k hk hlv hkv hne => ?_, h.total,
    h.nodup, h.handed⟩
  exact h.apart l hl k hk hlv hkv fun heq => hne (h.layout_inj hl hk heq)

/-- The table of the chip, with the heaps at the end of the data section. -/
def socMemory : List MemoryLayout :=
  [⟨"SRAM", 0x20000000, 0x28000, 0b01011, ⟨0x20000800, 0, 0, 0, 0⟩⟩,
    ⟨"DRAM", 0x20028000, 0x20000, 0b10011, ⟨0x20000840, 0, 0, 0, 0⟩⟩,
    ⟨"PSRAM", 0x30000000, 0x800000, 0b00100, ⟨0x20000880, 0, 0, 0, 0⟩⟩]

def tracingConfig : Config := ⟨true, 0x20000700⟩

theorem linked_socMemory : Linked tracingConfig (linkLayouts 0x20001002 0x20028000 socMemory) := by
  refine ⟨?_, by decide, by decide, by decide, by decide⟩
  intro l hl hint
  have hcases : l = ⟨"SRAM", 0x20001002, 0x26ffe, 0b01011, ⟨0x20000800, 0, 0, 0, 0⟩⟩ ∨
      l = ⟨"DRAM", 0x20028000, 0x1fffc, 0b10011, ⟨0x20000840, 0, 0, 0, 0⟩⟩ ∨
      l = ⟨"PSRAM", 0x30000000, 0x800000, 0b00100, ⟨0x20000880, 0, 0, 0, 0⟩⟩ := by
    simpa [linkLayouts, socMemory, sub32, add32] using hl
  rcases hcases with rfl | rfl | rfl
  · exact ⟨⟨by decide, by decide, by decide, by decide⟩, by decide⟩
  · exact ⟨⟨by decide, by decide, by decide, by decide⟩, by decide⟩
  · exact absurd hint (by decide)

/-- The allocator of the chip after a request of 100 bytes. -/
theorem heap_run_sound_socMemory :
    let st := wmHeapInit tracingConfig (fun _ => ⟨0, 0, 0, 0⟩) (fun _ => 0) socMemory 0x20001002 0x20028000
    HeapSound tracingConfig (wmHeapCapsAlloc tracingConfig st 100 0).2
      (hold (wmHeapCapsAlloc tracingConfig st 100 0).1 []) :=
  heap_run_sound (.alloc 100 0 (.init linked_socMemory rfl))

/-- With the DRAM full of shared data, the size of its region wraps, and its end block lies before
its first block. -/
theorem full_region_unsound :
    ¬ HeapSound tracingConfig
      (wmHeapInit tracingConfig (fun _ => ⟨0, 0, 0, 0⟩) (fun _ => 0) socMemory 0x20001002 0x20048000) [] := by
  rintro ⟨F, hheaps, -⟩
  have hdram : ∃ l ∈ (wmHeapInit tracingConfig (fun _ => ⟨0, 0, 0, 0⟩) (fun _ => 0) socMemory 0x20001002
      0x20048000).memory, l.valid = true ∧ l.heap.endBlock < l.base := by
    decide
  obtain ⟨l, hl, hv, hlt⟩ := hdram
  have hle := (hheaps l hl hv).tiles.le
  omega

end WmIot.Heap
