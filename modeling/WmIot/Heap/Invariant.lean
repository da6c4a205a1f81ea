import WmIot.Heap.FreeList

/-!
# One heap

The invariant ties the memory of a heap to a tiling: headers hold the sizes, with the allocated
bit for the blocks in use, and the free list visits the free spans. Allocation takes a free span
or splits it, a free merges the span with its neighbours.
-/

namespace WmIot.Heap
open Tiling
set_option autoImplicit false

/-- The heap is tiled by `T` from `lo` to its end block. -/
structure HeapInv (cfg : Config) (m : Blocks) (heap : Heap) (lo : Nat) (T : List Span) : Prop where
  tiles : Tiles lo T heap.endBlock
  aligned : 8 ∣ lo
  sizes : ∀ s ∈ T, 8 ≤ s.size ∧ 8 ∣ s.size
  room : ∀ s ∈ T, s.free = false → cfg.heapStructSize < s.size
  apart : Apart T
  links : Links m (heap.start :: (freeAddrs T ++ [heap.endBlock]))
  freeSize : ∀ s ∈ T, s.free = true → (m s.addr).blockSize = s.size
  usedSize : ∀ s ∈ T, s.free = false → (m s.addr).blockSize = s.size + 2 ^ 31
  owner : ∀ s ∈ T, s.free = false → (m s.addr).heap = heap.start
  untraced : cfg.tracing = false → ∀ s ∈ T, s.free = false → (m s.addr).nextFreeBlock = 0
  startSize : (m heap.start).blockSize = 0
  startOut : heap.start < lo ∨ heap.endBlock < heap.start
  endSize : (m heap.endBlock).blockSize = 0
  endNext : T ≠ [] → (m heap.endBlock).nextFreeBlock = 0
  positive : 0 < lo
  bound : heap.endBlock < 2 ^ 32
  small : heap.endBlock < lo + 2 ^ 31
  bytes : heap.freeBytesRemaining = freeBytes T
  bit : heap.blockAllocatedBit = 2 ^ 31

section Bits

theorem and_bit_eq_zero {n : Nat} (h : n < 2 ^ 31) : n &&& 2 ^ 31 = 0 := by
  rw [Nat.and_two_pow, Nat.testBit_lt_two_pow h]
  rfl

theorem or_bit {n : Nat} (h : n < 2 ^ 31) : n ||| 2 ^ 31 = n + 2 ^ 31 := by
  have hor := Nat.two_pow_add_eq_or_of_lt h 1
  rw [Nat.mul_one] at hor
  rw [Nat.or_comm, ← hor, Nat.add_comm]

theorem add_bit_and_bit {n : Nat} (h : n < 2 ^ 31) : (n + 2 ^ 31) &&& 2 ^ 31 ≠ 0 := by
  rw [← or_bit h, Nat.and_two_pow, Nat.testBit_or, Nat.testBit_two_pow_self, Bool.or_true]
  decide

theorem add_bit_and_not {n : Nat} (h : n < 2 ^ 31) : (n + 2 ^ 31) &&& (2 ^ 32 - 1 - 2 ^ 31) = n := by
  rw [show 2 ^ 32 - 1 - 2 ^ 31 = 2 ^ 31 - 1 from rfl, Nat.and_two_pow_sub_one_eq_mod]
  omega

end Bits

section
variable {cfg : Config} {m m' : Blocks} {heap : Heap} {lo : Nat} {T A B : List Span} {s : Span}

theorem HeapInv.size_lt (h : HeapInv cfg m heap lo T) (hs : s ∈ T) : s.size < 2 ^ 31 := by
  have hmem := h.tiles.mem hs
  have hsmall := h.small
  omega

theorem HeapInv.addr_pos (h : HeapInv cfg m heap lo T) (hs : s ∈ T) : 0 < s.addr := by
  have hmem := h.tiles.mem hs
  have hpos := h.positive
  omega

theorem HeapInv.addr_ne (h : HeapInv cfg m heap lo T) {t : Span} (ht : t ∈ T) (hs : s ∈ T)
    (hfree : t.free ≠ s.free) : t.addr ≠ s.addr := by
  intro heq
  have hpos : ∀ u ∈ T, 0 < u.size := by
    intro u hu
    have hu8 := (h.sizes u hu).1
    omega
  exact hfree (congrArg Span.free (h.tiles.addr_inj hpos ht hs heq))

/-- The invariant reads sizes and owners of the heap and the links of its free list. -/
theorem HeapInv.congr (h : HeapInv cfg m heap lo T)
    (hsize : ∀ x, x = heap.start ∨ lo ≤ x ∧ x ≤ heap.endBlock → (m' x).blockSize = (m x).blockSize)
    (howner : ∀ x, lo ≤ x → x ≤ heap.endBlock → (m' x).heap = (m x).heap)
    (hnext : ∀ x, x = heap.start ∨ x ∈ freeAddrs T ∨ x = heap.endBlock →
      (m' x).nextFreeBlock = (m x).nextFreeBlock)
    (huntraced : cfg.tracing = false → ∀ s ∈ T, s.free = false →
      (m' s.addr).nextFreeBlock = (m s.addr).nextFreeBlock) : HeapInv cfg m' heap lo T := by
  have hin : ∀ s ∈ T, lo ≤ s.addr ∧ s.addr ≤ heap.endBlock := by
    intro s hs
    have hmem := h.tiles.mem hs
    omega
  have hend := h.tiles.le
  exact
    { h with
      links := by
        rw [← List.cons_append]
        apply Links.congr (by rw [List.cons_append]; exact h.links)
        intro y hy
        rcases List.mem_cons.mp hy with rfl | hy
        · exact hnext _ (Or.inl rfl)
        · exact hnext _ (Or.inr (Or.inl hy))
      freeSize := fun s hs hf => (hsize _ (Or.inr (hin s hs))).trans (h.freeSize s hs hf)
      usedSize := fun s hs hf => (hsize _ (Or.inr (hin s hs))).trans (h.usedSize s hs hf)
      owner := fun s hs hf => (howner _ (hin s hs).1 (hin s hs).2).trans (h.owner s hs hf)
      untraced := fun ht s hs hf => (huntraced ht s hs hf).trans (h.untraced ht s hs hf)
      startSize := (hsize _ (Or.inl rfl)).trans h.startSize
      endSize := (hsize _ (Or.inr ⟨hend, Nat.le_refl _⟩)).trans h.endSize
      endNext := fun hne => (hnext _ (Or.inr (Or.inr rfl))).trans (h.endNext hne) }

/-! ## Free -/

/-- The header of the block to free, with its bit cleared, is a block apart from the free list. -/
theorem HeapInv.detach (h : HeapInv cfg m heap lo (A ++ s :: B)) (hused : s.free = false) :
    Detached (m.setSize s.addr s.size) heap lo A ⟨s.addr, s.size, true⟩ B := by
  have hs : s ∈ A ++ s :: B := by simp
  have hstart : heap.start ≠ s.addr := by
    have hmem := h.tiles.mem hs
    have hout := h.startOut
    omega
  have hfree : freeAddrs (A ++ s :: B) = freeAddrs A ++ freeAddrs B := by
    rw [freeAddrs_append, freeAddrs_cons, hused]
    rfl
  refine ⟨h.tiles.replace rfl rfl, ?_, rfl, ?_, ?_, ?_, h.startOut, h.bound⟩
  · intro t ht
    rcases List.mem_append.mp ht with ht | ht
    · exact (h.sizes t (by simp [ht])).1
    · rcases List.mem_cons.mp ht with rfl | ht
      · exact (h.sizes s hs).1
      · exact (h.sizes t (by simp [ht])).1
  · have hlinks := h.links
    rw [hfree, List.append_assoc, ← List.append_assoc (freeAddrs A), ← List.cons_append] at hlinks
    rw [← List.append_assoc, ← List.cons_append]
    exact Links.congr hlinks fun y _ => by simp
  · intro t ht hf
    have hother : ∀ u ∈ A ++ s :: B, u.free = true → ((m.setSize s.addr s.size) u.addr).blockSize = u.size := by
      intro u hu huf
      have hne := h.addr_ne hu hs (by rw [huf, hused]; decide)
      rw [Blocks.setSize_size, if_neg hne, h.freeSize u hu huf]
    rcases List.mem_append.mp ht with ht | ht
    · exact hother t (by simp [ht]) hf
    · rcases List.mem_cons.mp ht with rfl | ht
      · simp
      · exact hother t (by simp [ht]) hf
  · rw [Blocks.setSize_size, if_neg hstart]
    exact h.startSize

theorem mem_inUse {T T' : List Span} (h : T'.filter (fun s => !s.free) = T.filter fun s => !s.free)
    (hs : s ∈ T') (hf : s.free = false) : s ∈ T := by
  have hmem : s ∈ T'.filter fun s => !s.free := List.mem_filter.mpr ⟨hs, by simp [hf]⟩
  rw [h] at hmem
  exact (List.mem_filter.mp hmem).1

/-- A free of a block in use merges its span with the free neighbours. -/
theorem HeapInv.release (h : HeapInv cfg m heap lo (A ++ s :: B)) (hused : s.free = false)
    (hnext : (m s.addr).nextFreeBlock = 0) :
    ∃ m' heap', releaseBlock m heap s.addr = some (m', heap', s.size) ∧
      heap' = { heap with freeBytesRemaining := heap.freeBytesRemaining + s.size } ∧
      HeapInv cfg m' heap' lo (coalesce A ⟨s.addr, s.size, true⟩ B) ∧
      (∀ x, x ≠ heap.start → x ∉ freeAddrs (A ++ s :: B) → x ≠ s.addr → m' x = m x) := by
  have hs : s ∈ A ++ s :: B := by simp
  have hlt := h.size_lt hs
  have hflag : (m s.addr).blockSize &&& heap.blockAllocatedBit ≠ 0 := by
    rw [h.usedSize s hs hused, h.bit]
    exact add_bit_and_bit hlt
  have hsize : (m s.addr).blockSize &&& (2 ^ 32 - 1 - heap.blockAllocatedBit) = s.size := by
    rw [h.usedSize s hs hused, h.bit]
    exact add_bit_and_not hlt
  have hfree : freeAddrs (A ++ ⟨s.addr, s.size, true⟩ :: B) = freeAddrs A ++ s.addr :: freeAddrs B := by
    rw [freeAddrs_append, freeAddrs_cons]
    rfl
  have hfree' : freeAddrs (A ++ s :: B) = freeAddrs A ++ freeAddrs B := by
    rw [freeAddrs_append, freeAddrs_cons, hused]
    rfl
  have hins := insert_spec (h.detach hused)
  have hbytes : freeBytes (coalesce A ⟨s.addr, s.size, true⟩ B) = freeBytes (A ++ s :: B) + s.size := by
    rw [coalesce_freeBytes rfl, freeBytes_append, freeBytes_append, freeBytes_cons, freeBytes_cons, hused]
    simp only [if_true, Bool.false_eq_true, if_false]
    omega
  have hinUse : (coalesce A ⟨s.addr, s.size, true⟩ B).filter (fun u => !u.free) =
      (A ++ B).filter fun u => !u.free := by
    rw [coalesce_inUse rfl]
    simp
  have hstill : ∀ u ∈ coalesce A ⟨s.addr, s.size, true⟩ B, u.free = false →
      u ∈ A ++ s :: B ∧ u.addr ≠ s.addr := by
    intro u hu huf
    have hmem := List.mem_append.mp (mem_inUse hinUse hu huf)
    obtain ⟨hA, hB⟩ := tiles_split.mp h.tiles
    have hs8 := (h.sizes s hs).1
    rcases hmem with hmem | hmem
    · have hle := (hA.mem hmem).2
      have hu8 := (h.sizes u (by simp [hmem])).1
      exact ⟨by simp [hmem], by omega⟩
    · have hle := (hB.mem hmem).1
      exact ⟨by simp [hmem], by omega⟩
  generalize hm' : heapInsertBlockIntoFreeList (m.setSize s.addr s.size) heap s.addr = m' at hins
  have hframe : ∀ x, x ≠ heap.start → x ∉ freeAddrs (A ++ s :: B) → x ≠ s.addr → m' x = m x := by
    intro x hx hxfree hxs
    rw [hins.frame x hx, Blocks.setSize_ne _ _ _ _ hxs]
    rw [hfree, List.mem_append, List.mem_cons]
    rw [hfree', List.mem_append] at hxfree
    rintro (hA | rfl | hB)
    · exact hxfree (Or.inl hA)
    · exact hxs rfl
    · exact hxfree (Or.inr hB)
  refine ⟨m', _, ?_, rfl, ?_, hframe⟩
  · unfold releaseBlock
    rw [if_pos hflag, if_pos hnext]
    simp only [hsize, hm']
  · have hout := h.startOut
    have hnotFree : ∀ u ∈ A ++ s :: B, u.free = false → u.addr ∉ freeAddrs (A ++ s :: B) := by
      intro u hu huf hmem
      obtain ⟨v, hv, hvf, hvu⟩ := mem_freeAddrs.mp hmem
      exact h.addr_ne hv hu (by rw [hvf, huf]; decide) hvu
    have hsame : ∀ u ∈ coalesce A ⟨s.addr, s.size, true⟩ B, u.free = false →
        u ∈ A ++ s :: B ∧ m' u.addr = m u.addr := by
      intro u hu huf
      obtain ⟨hmem, hne⟩ := hstill u hu huf
      have hin := h.tiles.mem hmem
      exact ⟨hmem, hframe _ (by omega) (hnotFree u hmem huf) hne⟩
    have hend : m' heap.endBlock = m heap.endBlock := by
      have hle := h.tiles.le
      apply hframe
      · omega
      · intro hmem
        obtain ⟨v, hv, -, hve⟩ := mem_freeAddrs.mp hmem
        have hv8 := (h.sizes v hv).1
        have hin := h.tiles.mem hv
        omega
      · have hs8 := (h.sizes s hs).1
        have hin := h.tiles.mem hs
        omega
    obtain ⟨hapA, hapB, -⟩ := List.isChain_append.mp h.apart
    have hsizes : ∀ u ∈ coalesce A ⟨s.addr, s.size, true⟩ B, 8 ≤ u.size ∧ 8 ∣ u.size := by
      refine coalesce_sizes (Q := fun n => 8 ≤ n ∧ 8 ∣ n) (fun a b ha hb => ?_) (fun u hu => ?_)
        (h.sizes s hs) (fun u hu => ?_)
      · exact ⟨Nat.le_add_right_of_le ha.1, Nat.dvd_add ha.2 hb.2⟩
      · exact h.sizes u (by simp [hu])
      · exact h.sizes u (by simp [hu])
    exact
      { tiles := coalesce_tiles (h.tiles.replace rfl rfl)
        aligned := h.aligned
        sizes := hsizes
        room := fun u hu huf => h.room u (hsame u hu huf).1 huf
        apart := coalesce_apart hapA hapB.tail
        links := hins.links
        freeSize := hins.sizes
        usedSize := fun u hu huf => by
          rw [(hsame u hu huf).2]
          exact h.usedSize u (hsame u hu huf).1 huf
        owner := fun u hu huf => by
          rw [(hsame u hu huf).2]
          exact h.owner u (hsame u hu huf).1 huf
        untraced := fun ht u hu huf => by
          rw [(hsame u hu huf).2]
          exact h.untraced ht u (hsame u hu huf).1 huf
        startSize := hins.startSize
        startOut := hout
        endSize := by rw [hend]; exact h.endSize
        endNext := fun _ => by rw [hend]; exact h.endNext (by simp)
        positive := h.positive
        bound := h.bound
        small := h.small
        bytes := by rw [hbytes, ← h.bytes]
        bit := h.bit }

end

end WmIot.Heap
