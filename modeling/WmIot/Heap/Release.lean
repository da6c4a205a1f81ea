import WmIot.Heap.Runs

/-!
# What is free and what is in use

At every moment the bytes counted as free and the blocks behind the pointers handed out share the
heaps between them. When nothing is in use any more, each heap is one free block again, as it was
set up, and serves what it could serve then.
-/

namespace WmIot.Heap
open Tiling
set_option autoImplicit false

/-! ## Tilings -/

/-- The bytes of the spans in use. -/
def usedBytes (T : List Span) : Nat := ((T.filter fun s => !s.free).map Span.size).sum

theorem usedBytes_cons (s : Span) (T : List Span) :
    usedBytes (s :: T) = (if s.free then 0 else s.size) + usedBytes T := by
  cases h : s.free <;> simp [usedBytes, h]

theorem freeBytes_add_usedBytes {T : List Span} {lo hi : Nat} (h : Tiles lo T hi) :
    lo + (freeBytes T + usedBytes T) = hi := by
  induction T generalizing lo with
  | nil => exact h
  | cons s T ih =>
    have hrest := ih h.2
    rw [freeBytes_cons, usedBytes_cons]
    cases s.free <;> simp only [if_true, Bool.false_eq_true, if_false] <;> omega

/-- Spans that are all free leave no room for a second one. -/
theorem apart_all_free {T : List Span} (h : Apart T) (hfree : ∀ s ∈ T, s.free = true) : T = [] ∨ ∃ s, T = [s] := by
  cases T with
  | nil => exact Or.inl rfl
  | cons s T =>
    cases T with
    | nil => exact Or.inr ⟨s, rfl⟩
    | cons t T =>
      have hst : ¬ (s.free = true ∧ t.free = true) := (List.isChain_cons_cons.mp h).1
      exact absurd ⟨hfree s (by simp), hfree t (by simp)⟩ hst

/-! ## The counters -/

def wmHeapGetFreeSize (st : State) : Nat := st.freeBytesRemaining

def wmHeapGetMinimumEverFreeSize (st : State) : Nat := st.minimumEverFreeBytesRemaining

/-- The bytes between the first block of the heap and its end block. -/
def MemoryLayout.capacity (l : MemoryLayout) : Nat := l.heap.endBlock - l.base

/-- The capacity of the heaps set up. -/
def State.capacity (st : State) : Nat := ((st.memory.filter MemoryLayout.valid).map MemoryLayout.capacity).sum

/-- The size of the block behind a pointer, its header included. -/
def State.blockBytes (cfg : Config) (st : State) (p : Nat) : Nat :=
  (st.block (p - cfg.heapStructSize)).blockSize &&& (2 ^ 32 - 1 - 2 ^ 31)

section
variable {cfg : Config} {st : State} {live : List Nat} {F : Nat → List Span} {l k : MemoryLayout}

/-- The pointers into a heap with the spans `T`. -/
def pointers (cfg : Config) (T : List Span) : List Nat :=
  (T.filter fun s => !s.free).map fun s => s.addr + cfg.heapStructSize

theorem mem_pointers {T : List Span} {p : Nat} :
    p ∈ pointers cfg T ↔ ∃ s ∈ T, s.free = false ∧ s.addr + cfg.heapStructSize = p := by
  simp [pointers, and_assoc]

theorem HeapsInv.pointers_nodup (h : HeapsInv cfg st live F) (hl : l ∈ st.memory) (hv : l.valid = true) :
    (pointers cfg (F l.heap.start)).Nodup := by
  have hheap := h.heaps l hl hv
  have hpos : ∀ s ∈ F l.heap.start, 0 < s.size := fun s hs => by
    have h8 := (hheap.sizes s hs).1
    omega
  have hapart := (hheap.tiles.pairwise.filter (p := fun s => !s.free)).imp_of_mem
    (S := fun s t => s.addr + cfg.heapStructSize ≠ t.addr + cfg.heapStructSize) fun {s t} hs _ hst => by
      have hs := hpos s (List.mem_filter.mp hs).1
      omega
  exact List.pairwise_map.mpr hapart

/-- The pointers handed out are those into the heaps, heap by heap. -/
theorem HeapsInv.live_perm (h : HeapsInv cfg st live F) :
    live.Perm ((st.memory.filter MemoryLayout.valid).flatMap fun l => pointers cfg (F l.heap.start)) := by
  have hmem : ∀ {l}, l ∈ st.memory.filter MemoryLayout.valid ↔ l ∈ st.memory ∧ l.valid = true := List.mem_filter
  refine (List.perm_ext_iff_of_nodup h.nodup (List.nodup_flatMap.mpr ⟨?_, ?_⟩)).mpr fun p => ?_
  · intro l hl
    exact h.pointers_nodup (hmem.mp hl).1 (hmem.mp hl).2
  · have hstarts : st.memory.Pairwise fun l k => l.heap.start ≠ k.heap.start := List.pairwise_map.mp h.starts
    refine (hstarts.filter _).imp_of_mem fun {l k} hl hk hne p hpl hpk => ?_
    obtain ⟨hl, hlv⟩ := hmem.mp hl
    obtain ⟨hk, hkv⟩ := hmem.mp hk
    obtain ⟨s, hs, -, hsp⟩ := mem_pointers.mp hpl
    obtain ⟨t, ht, -, htp⟩ := mem_pointers.mp hpk
    have hins := (h.heaps l hl hlv).tiles.mem hs
    have hint := (h.heaps k hk hkv).tiles.mem ht
    have hs8 := ((h.heaps l hl hlv).sizes s hs).1
    have ht8 := ((h.heaps k hk hkv).sizes t ht).1
    have hapart := h.apart l hl k hk hlv hkv hne
    omega
  · rw [h.handed p]
    simp only [List.mem_flatMap, hmem, mem_pointers]
    grind

theorem HeapsInv.blockBytes (h : HeapsInv cfg st live F) (hl : l ∈ st.memory) (hv : l.valid = true) {s : Span}
    (hs : s ∈ F l.heap.start) (hused : s.free = false) : st.blockBytes cfg (s.addr + cfg.heapStructSize) = s.size := by
  have hheap := h.heaps l hl hv
  rw [State.blockBytes, Nat.add_sub_cancel, hheap.usedSize s hs hused, add_bit_and_not (hheap.size_lt hs)]

theorem HeapsInv.sum_pointers (h : HeapsInv cfg st live F) (hl : l ∈ st.memory) (hv : l.valid = true) :
    ((pointers cfg (F l.heap.start)).map (st.blockBytes cfg)).sum = usedBytes (F l.heap.start) := by
  rw [pointers, usedBytes, List.map_map]
  refine congrArg List.sum (List.map_congr_left fun s hs => ?_)
  obtain ⟨hs, hused⟩ := List.mem_filter.mp hs
  exact h.blockBytes hl hv hs (by simpa using hused)

theorem HeapsInv.share (h : HeapsInv cfg st live F) {L : List MemoryLayout} (hL : ∀ l ∈ L, l ∈ st.memory)
    (hv : ∀ l ∈ L, l.valid = true) :
    (L.map fun l => l.heap.freeBytesRemaining).sum +
      ((L.flatMap fun l => pointers cfg (F l.heap.start)).map (st.blockBytes cfg)).sum =
      (L.map MemoryLayout.capacity).sum := by
  induction L with
  | nil => rfl
  | cons l L ih =>
    have ih := ih (fun k hk => hL k (List.mem_cons_of_mem l hk)) fun k hk => hv k (List.mem_cons_of_mem l hk)
    have hheap := h.heaps l (hL l List.mem_cons_self) (hv l List.mem_cons_self)
    have hbytes := freeBytes_add_usedBytes hheap.tiles
    have hsum := h.sum_pointers (hL l List.mem_cons_self) (hv l List.mem_cons_self)
    rw [List.flatMap_cons, List.map_append, List.sum_append, hsum, List.map_cons, List.sum_cons, List.map_cons,
      List.sum_cons, hheap.bytes, MemoryLayout.capacity]
    omega

end

/-- The heap is one free block from its first address to its end block, and serves exactly the
requests that fit in there. -/
structure Whole (cfg : Config) (m : Blocks) (l : MemoryLayout) : Prop where
  first : (m l.heap.start).nextFreeBlock = l.base
  size : l.base < l.heap.endBlock → (m l.base).blockSize = l.capacity
  next : l.base < l.heap.endBlock → (m l.base).nextFreeBlock = l.heap.endBlock
  counter : l.heap.freeBytesRemaining = l.capacity
  serves : ∀ wanted caps, (heapAlloc cfg m l.heap wanted caps).isSome ↔
    wanted &&& 2 ^ 31 = 0 ∧ 0 < wanted ∧ cfg.blockSizeFor wanted ≤ l.capacity

theorem HeapInv.whole {cfg : Config} {m : Blocks} {l : MemoryLayout} {T : List Span}
    (h : HeapInv cfg m l.heap l.base T) (hfree : ∀ s ∈ T, s.free = true) : Whole cfg m l := by
  rcases apart_all_free h.apart hfree with rfl | ⟨s, rfl⟩
  · have hend : l.base = l.heap.endBlock := h.tiles
    have hfirst := (links_cons_cons.mp h.links).1
    refine ⟨by rw [hend]; exact hfirst, by omega, by omega, ?_, fun wanted caps => ?_⟩
    · rw [h.bytes, freeBytes_nil, MemoryLayout.capacity, hend, Nat.sub_self]
    · rw [h.alloc_isSome_iff wanted caps, MemoryLayout.capacity, hend, Nat.sub_self]
      refine and_congr_right fun _ => and_congr_right fun hpos => ⟨fun ⟨s, hs, _⟩ => (List.not_mem_nil hs).elim, fun hle => ?_⟩
      rw [Config.blockSizeFor, if_pos hpos] at hle
      dsimp only at hle
      split at hle <;> omega
  · have hs := hfree s (by simp)
    obtain ⟨haddr, hend⟩ : s.addr = l.base ∧ l.base + s.size = l.heap.endBlock := h.tiles
    have hcap : l.capacity = s.size := by
      rw [MemoryLayout.capacity]
      omega
    have hlinks := h.links
    rw [freeAddrs_cons, hs, haddr] at hlinks
    obtain ⟨hfirst, hlinks⟩ := links_cons_cons.mp hlinks
    refine ⟨hfirst, fun _ => ?_, fun _ => (links_cons_cons.mp hlinks).1, ?_, fun wanted caps => ?_⟩
    · rw [hcap, ← haddr, h.freeSize s (by simp) hs]
    · rw [h.bytes, freeBytes_cons, hs, hcap]
      rfl
    · rw [h.alloc_isSome_iff wanted caps, hcap]
      simp [hs]

end WmIot.Heap
