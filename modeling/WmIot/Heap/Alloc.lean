import WmIot.Heap.Invariant

/-!
# Allocation

The search finds a free span large enough; the span leaves the free list, and what it has too
much goes back as a span of its own.
-/

namespace WmIot.Heap
open Tiling
set_option autoImplicit false

section
variable {cfg : Config} {m m' : Blocks} {heap : Heap} {lo wanted : Nat} {T A B : List Span} {s : Span}

/-- The search ends at the end block, if no block is large enough, or at the first block that is. -/
theorem firstFit_spec {w x e n : Nat} {F : List Nat} (h : Links m (x :: (F ++ [e])))
    (hpos : ∀ y ∈ F ++ [e], y ≠ 0) (hnext : (m e).nextFreeBlock = 0) (hn : F.length < n) :
    ((firstFit m w n x (m x).nextFreeBlock).2 = e ∧ ∀ y ∈ F, (m y).blockSize < w) ∨
      ∃ F₁ b F₂, F = F₁ ++ b :: F₂ ∧ w ≤ (m b).blockSize ∧
        firstFit m w n x (m x).nextFreeBlock = ((x :: F₁).getLast (List.cons_ne_nil x F₁), b) := by
  induction F generalizing x n with
  | nil =>
    obtain ⟨n, rfl⟩ : ∃ k, n = k + 1 := ⟨n - 1, by simp only [List.length_nil] at hn; omega⟩
    have hlink : (m x).nextFreeBlock = e := (links_cons_cons.mp h).1
    rw [hlink, firstFit, if_neg (fun hc => hc.2 hnext)]
    exact Or.inl ⟨rfl, fun y hy => absurd hy List.not_mem_nil⟩
  | cons y F ih =>
    obtain ⟨n, rfl⟩ : ∃ k, n = k + 1 := ⟨n - 1, by simp only [List.length_cons] at hn; omega⟩
    obtain ⟨hlink, hrest⟩ := links_cons_cons.mp h
    have hynext : (m y).nextFreeBlock ≠ 0 := by
      obtain ⟨z, hz⟩ : ∃ z, (F ++ [e]).head? = some z := ⟨_, List.head?_eq_some_head (by simp)⟩
      rw [(List.isChain_cons.mp hrest).1 z hz]
      exact hpos z (List.mem_cons_of_mem y (List.mem_of_head? hz))
    rw [hlink, firstFit]
    by_cases hfit : (m y).blockSize < w
    · rw [if_pos ⟨hfit, hynext⟩]
      have hlen : F.length < n := by
        simp only [List.length_cons] at hn
        omega
      rcases ih hrest (fun z hz => hpos z (List.mem_cons_of_mem y hz)) hlen with ⟨he, hall⟩ | ⟨F₁, b, F₂, rfl, hb, hr⟩
      · refine Or.inl ⟨he, fun z hz => ?_⟩
        rcases List.mem_cons.mp hz with rfl | hz
        · exact hfit
        · exact hall z hz
      · refine Or.inr ⟨y :: F₁, b, F₂, rfl, hb, ?_⟩
        rw [hr, List.getLast_cons (List.cons_ne_nil y F₁)]
    · rw [if_neg (fun hc => hfit hc.1)]
      exact Or.inr ⟨[], y, F, rfl, Nat.not_lt.mp hfit, rfl⟩

/-- The block before a free span, unlinked from it. -/
theorem HeapInv.unlink (h : HeapInv cfg m heap lo (A ++ s :: B)) (hfree : s.free = true) {P : Nat}
    (hP : (heap.start :: freeAddrs A).getLast (List.cons_ne_nil _ _) = P) :
    (P = heap.start ∨ P ∈ freeAddrs A) ∧
      Links (m.setNext P (m s.addr).nextFreeBlock)
        (heap.start :: (freeAddrs A ++ (freeAddrs B ++ [heap.endBlock]))) := by
  obtain ⟨hA, hB⟩ := tiles_split.mp h.tiles
  have hout := h.startOut
  have hin := h.tiles.mem (s := s) (by simp)
  have hpos : ∀ u ∈ A ++ s :: B, 0 < u.size := by
    intro u hu
    have hu8 := (h.sizes u hu).1
    omega
  have hspos := hpos s (by simp)
  obtain ⟨X, hX⟩ : ∃ X, heap.start :: freeAddrs A = X ++ [P] :=
    ⟨_, by rw [← hP, List.dropLast_append_getLast]⟩
  have hPmem : P = heap.start ∨ P ∈ freeAddrs A := by
    rw [← List.mem_cons, hX]
    simp
  refine ⟨hPmem, ?_⟩
  have hlinks := h.links
  rw [freeAddrs_append, freeAddrs_cons, hfree, if_pos rfl, List.append_assoc, List.cons_append,
    ← List.cons_append, hX, List.append_assoc, List.singleton_append] at hlinks
  have hnodup : (X ++ [P]).Nodup := by
    rw [← hX]
    exact hA.nodup_cons (fun u hu => hpos u (by simp [hu])) (by omega)
  have hPB : P ∉ freeAddrs B := by
    intro hmem
    obtain ⟨u, hu, -, hue⟩ := mem_freeAddrs.mp hmem
    have huin := hB.mem hu
    rcases hPmem with rfl | hPA
    · omega
    · obtain ⟨v, hv, -, hve⟩ := mem_freeAddrs.mp hPA
      have hvin := hA.mem hv
      omega
  rw [← List.cons_append, hX, List.append_assoc, List.singleton_append]
  exact hlinks.unlink (fun hmem => (List.nodup_append.mp hnodup).2.2 P hmem P (by simp) rfl) hPB

/-- What taking the block leaves: its span with the size it has now, and `R` behind it. -/
structure Carved (cfg : Config) (m m' : Blocks) (heap : Heap) (lo : Nat) (A : List Span) (s : Span)
    (B : List Span) (size : Nat) (R : List Span) : Prop where
  header : (m' s.addr).blockSize = size
  tiles : Tiles lo (A ++ ⟨s.addr, size, false⟩ :: R) heap.endBlock
  sizes : ∀ u ∈ A ++ ⟨s.addr, size, false⟩ :: R, 8 ≤ u.size ∧ 8 ∣ u.size
  inUse : R.filter (fun u => !u.free) = B.filter fun u => !u.free
  apart : Apart (A ++ ⟨s.addr, size, false⟩ :: R)
  links : Links m' (heap.start :: (freeAddrs A ++ (freeAddrs R ++ [heap.endBlock])))
  freeSize : ∀ u ∈ A ++ R, u.free = true → (m' u.addr).blockSize = u.size
  startSize : (m' heap.start).blockSize = 0
  bytes : freeBytes A + freeBytes R + size = freeBytes (A ++ s :: B)
  frame : ∀ x, x ≠ heap.start → x ∉ freeAddrs (A ++ s :: B) → x < s.addr ∨ s.addr + s.size ≤ x → m' x = m x

theorem HeapInv.carve (h : HeapInv cfg m heap lo (A ++ s :: B)) (hfree : s.free = true)
    (hw : wanted ≤ s.size) (hw8 : 8 ∣ wanted) (hpos : 0 < wanted) {P : Nat}
    (hP : (heap.start :: freeAddrs A).getLast (List.cons_ne_nil _ _) = P) :
    ∃ size R, wanted ≤ size ∧ Carved cfg m (Heap.carve cfg m heap P s.addr wanted) heap lo A s B size R := by
  obtain ⟨hPmem, hlinks⟩ := h.unlink hfree hP
  obtain ⟨hA, hB⟩ := tiles_split.mp h.tiles
  have hs : s ∈ A ++ s :: B := by simp
  have hin := h.tiles.mem hs
  have hssize := h.freeSize s hs hfree
  have hs8 := h.sizes s hs
  have hout := h.startOut
  have hsstart : heap.start ≠ s.addr := by omega
  obtain ⟨hapA, hapB, hjoin⟩ := List.isChain_append.mp h.apart
  have hBhead : ∀ q ∈ B.head?, q.free = false := by
    intro q hq
    have hsq := (List.isChain_cons.mp hapB).1 q hq
    simpa [hfree] using hsq
  have hAlast : ∀ p ∈ A.getLast?, p.free = false := by
    intro p hp
    have hps := hjoin p hp s rfl
    simpa [hfree] using hps
  have hfreeT : freeAddrs (A ++ s :: B) = freeAddrs A ++ s.addr :: freeAddrs B := by
    rw [freeAddrs_append, freeAddrs_cons, hfree]
    rfl
  have hbytesT : freeBytes (A ++ s :: B) = freeBytes A + (s.size + freeBytes B) := by
    rw [freeBytes_append, freeBytes_cons, hfree]
    rfl
  have hPfree : P = heap.start ∨ P ∈ freeAddrs (A ++ s :: B) := by
    rw [hfreeT]
    exact hPmem.imp id (List.mem_append_left _)
  have hPs : P ≠ s.addr := by
    rcases hPmem with rfl | hmem
    · exact hsstart
    · obtain ⟨u, hu, -, rfl⟩ := mem_freeAddrs.mp hmem
      have huin := hA.mem hu
      have hu8 := (h.sizes u (by simp [hu])).1
      omega
  generalize hm₀ : m.setNext P (m s.addr).nextFreeBlock = m₀ at hlinks
  have hsize₀ : ∀ x, (m₀ x).blockSize = (m x).blockSize := fun x => by simp [← hm₀]
  have hframe₀ : ∀ x, x ≠ heap.start → x ∉ freeAddrs (A ++ s :: B) → m₀ x = m x := by
    intro x hx hxfree
    rw [← hm₀, Blocks.setNext_ne]
    rintro rfl
    exact hPfree.elim hx hxfree
  -- a span in front of the one used is no free span
  have hapart : ∀ (size : Nat) (R : List Span), Apart R →
      Apart (A ++ ⟨s.addr, size, false⟩ :: R) := by
    intro size R hR
    refine List.isChain_append.mpr ⟨hapA, List.isChain_cons.mpr ⟨fun q _ => by simp, hR⟩, fun p _ q hq => ?_⟩
    obtain rfl : (⟨s.addr, size, false⟩ : Span) = q := by simpa using hq
    simp
  by_cases hbig : s.size - wanted > cfg.minimumBlockSize
  · have hrest8 : 8 ≤ s.size - wanted ∧ 8 ∣ s.size - wanted := by
      refine ⟨?_, Nat.dvd_sub hs8.2 hw8⟩
      unfold Config.minimumBlockSize Config.heapStructSize at hbig
      split at hbig <;> omega
    have hw8' : 8 ≤ wanted := Nat.le_of_dvd hpos hw8
    generalize hm₁ : (m₀.setSize (s.addr + wanted) (s.size - wanted)).setSize s.addr wanted = m₁
    have hrun : Heap.carve cfg m heap P s.addr wanted =
        heapInsertBlockIntoFreeList m₁ heap (s.addr + wanted) := by
      unfold Heap.carve
      simp only [hm₀, hsize₀, hssize, if_pos hbig, hm₁]
    have hsize₁ : ∀ x, x ≠ s.addr → x ≠ s.addr + wanted → (m₁ x).blockSize = (m x).blockSize := by
      intro x hx hx'
      rw [← hm₁, Blocks.setSize_size, if_neg hx, Blocks.setSize_size, if_neg hx', hsize₀]
    have hout₁ : ∀ u ∈ A ++ B, u.addr ≠ s.addr ∧ u.addr ≠ s.addr + wanted := by
      intro u hu
      rcases List.mem_append.mp hu with hu | hu
      · have huin := hA.mem hu
        have hu8 := (h.sizes u (by simp [hu])).1
        omega
      · have huin := hB.mem hu
        omega
    have hfree₁ : ∀ u ∈ A ++ B, u.free = true → (m₁ u.addr).blockSize = u.size := by
      intro u hu huf
      have hne := hout₁ u hu
      rw [hsize₁ _ hne.1 hne.2]
      rcases List.mem_append.mp hu with hu | hu
      · exact h.freeSize u (by simp [hu]) huf
      · exact h.freeSize u (by simp [hu]) huf
    have hsizes₁ : ∀ u ∈ A ++ [⟨s.addr, wanted, false⟩] ++ ⟨s.addr + wanted, s.size - wanted, true⟩ :: B,
        8 ≤ u.size ∧ 8 ∣ u.size := by
      intro u hu
      simp only [List.mem_append, List.mem_cons, List.not_mem_nil, or_false] at hu
      rcases hu with (hu | rfl) | rfl | hu
      · exact h.sizes u (by simp [hu])
      · exact ⟨hw8', hw8⟩
      · exact hrest8
      · exact h.sizes u (by simp [hu])
    have hfreeA : freeAddrs (A ++ [⟨s.addr, wanted, false⟩]) = freeAddrs A := by
      rw [freeAddrs_append, freeAddrs_cons]
      simp
    have hdet : Detached m₁ heap lo (A ++ [⟨s.addr, wanted, false⟩])
        ⟨s.addr + wanted, s.size - wanted, true⟩ B := by
      refine ⟨?_, fun u hu => (hsizes₁ u hu).1, rfl, ?_, ?_, ?_, h.startOut, h.bound⟩
      · rw [List.append_assoc, List.singleton_append]
        refine tiles_append.mpr ⟨s.addr, hA, rfl, rfl, ?_⟩
        rw [show s.addr + wanted + (s.size - wanted) = s.addr + s.size by omega]
        exact hB
      · rw [hfreeA]
        rw [← List.append_assoc, ← List.cons_append] at hlinks ⊢
        exact Links.congr hlinks fun y _ => by simp [← hm₁]
      · intro u hu huf
        simp only [List.mem_append, List.mem_cons, List.not_mem_nil, or_false] at hu
        rcases hu with (hu | rfl) | rfl | hu
        · exact hfree₁ u (List.mem_append_left _ hu) huf
        · cases huf
        · simp only [← hm₁, Blocks.setSize_size, if_true]
          rw [if_neg (by omega)]
        · exact hfree₁ u (List.mem_append_right _ hu) huf
      · rw [hsize₁ _ hsstart (by omega)]
        exact h.startSize
    have hins := insert_spec hdet
    have hsame : coalesce (A ++ [⟨s.addr, wanted, false⟩]) ⟨s.addr + wanted, s.size - wanted, true⟩ B =
        A ++ [⟨s.addr, wanted, false⟩] ++ ⟨s.addr + wanted, s.size - wanted, true⟩ :: B := by
      unfold coalesce
      simp only [mergeLeft_used (A := A ++ [⟨s.addr, wanted, false⟩]) (by simp), mergeRight_used hBhead]
    have hfree' : freeAddrs (A ++ [⟨s.addr, wanted, false⟩] ++
        ⟨s.addr + wanted, s.size - wanted, true⟩ :: B) = freeAddrs A ++ (s.addr + wanted) :: freeAddrs B := by
      rw [freeAddrs_append, hfreeA, freeAddrs_cons]
      rfl
    rw [hsame] at hins
    rw [hrun]
    generalize heapInsertBlockIntoFreeList m₁ heap (s.addr + wanted) = m' at hins
    have hsfree : s.addr ∉ freeAddrs A ++ (s.addr + wanted) :: freeAddrs B := by
      rw [List.mem_append, List.mem_cons]
      rintro (hmem | heq | hmem)
      · obtain ⟨u, hu, -, hue⟩ := mem_freeAddrs.mp hmem
        exact (hout₁ u (List.mem_append_left _ hu)).1 hue
      · omega
      · obtain ⟨u, hu, -, hue⟩ := mem_freeAddrs.mp hmem
        exact (hout₁ u (List.mem_append_right _ hu)).1 hue
    refine ⟨wanted, ⟨s.addr + wanted, s.size - wanted, true⟩ :: B, Nat.le_refl _, ?_⟩
    exact
      { header := by
          rw [hins.frame s.addr (Ne.symm hsstart) (by rw [hfree']; exact hsfree), ← hm₁]
          simp
        tiles := by simpa using hdet.tiles
        sizes := by simpa using hsizes₁
        inUse := by simp
        apart := hapart _ _ (List.isChain_cons.mpr ⟨fun q hq => by simp [hBhead q hq], hapB.tail⟩)
        links := by
          have hl := hins.links
          rw [hfree', List.append_assoc] at hl
          rw [freeAddrs_cons]
          exact hl
        freeSize := fun u hu huf => by
          apply hins.sizes u _ huf
          rcases List.mem_append.mp hu with hu | hu
          · simp [hu]
          · exact List.mem_append_right _ hu
        startSize := hins.startSize
        bytes := by
          rw [freeBytes_cons]
          simp only [if_true]
          omega
        frame := fun x hx hxfree hxs => by
          have hnot : x ∉ freeAddrs A ++ (s.addr + wanted) :: freeAddrs B := by
            rw [hfreeT, List.mem_append, List.mem_cons] at hxfree
            rw [List.mem_append, List.mem_cons]
            rintro (hmem | heq | hmem)
            · exact hxfree (Or.inl hmem)
            · omega
            · exact hxfree (Or.inr (Or.inr hmem))
          rw [hins.frame x hx (by rw [hfree']; exact hnot), ← hm₁, Blocks.setSize_ne _ _ _ _ (by omega),
            Blocks.setSize_ne _ _ _ _ (by omega), hframe₀ x hx hxfree] }
  · have hrun : Heap.carve cfg m heap P s.addr wanted = m₀ := by
      unfold Heap.carve
      simp only [hm₀, hsize₀, hssize, if_neg hbig]
    rw [hrun]
    refine ⟨s.size, B, hw, ?_⟩
    exact
      { header := (hsize₀ _).trans hssize
        tiles := h.tiles.replace rfl rfl
        sizes := fun u hu => by
          rcases List.mem_append.mp hu with hu | hu
          · exact h.sizes u (by simp [hu])
          · rcases List.mem_cons.mp hu with rfl | hu
            · exact hs8
            · exact h.sizes u (by simp [hu])
        inUse := rfl
        apart := hapart _ _ hapB.tail
        links := hlinks
        freeSize := fun u hu huf => by
          rw [hsize₀]
          rcases List.mem_append.mp hu with hu | hu
          · exact h.freeSize u (by simp [hu]) huf
          · exact h.freeSize u (by simp [hu]) huf
        startSize := (hsize₀ _).trans h.startSize
        bytes := by omega
        frame := fun x hx hxfree _ => hframe₀ x hx hxfree }

/-- The block size for a request has room for a header and keeps the alignment. -/
theorem blockSizeFor_spec (hpos : 0 < cfg.blockSizeFor wanted) :
    8 ∣ cfg.blockSizeFor wanted ∧ wanted + cfg.heapStructSize ≤ cfg.blockSizeFor wanted ∧ 0 < wanted := by
  unfold Config.blockSizeFor at hpos ⊢
  split at hpos
  · rename_i hw
    rw [if_pos hw]
    dsimp only
    split
    · exact ⟨by omega, by omega, hw⟩
    · exact ⟨by omega, by omega, hw⟩
  · omega

/-- The header of a block handed out, and with it the head of the list of blocks in use. -/
structure Tagged (cfg : Config) (m m' : Blocks) (heap : Heap) (b size : Nat) : Prop where
  size : (m' b).blockSize = size + 2 ^ 31
  owner : (m' b).heap = heap.start
  next : (m' b).nextFreeBlock = if cfg.tracing then (m cfg.usedBlockList).nextFreeBlock else 0
  head : cfg.tracing = true → (m' cfg.usedBlockList).nextFreeBlock = b
  frame : ∀ x, x ≠ b → x ≠ cfg.usedBlockList → m' x = m x
  untraced : cfg.tracing = false → ∀ x, x ≠ b → m' x = m x

theorem tagged_of_alloc {b size c : Nat} (hb : b ≠ cfg.usedBlockList) (hsize : size < 2 ^ 31)
    (hbit : heap.blockAllocatedBit = 2 ^ 31) :
    Tagged cfg m
      ((if cfg.tracing then heapInsertBlockIntoUsedList cfg (m.setOwner b heap.start c) b
        else (m.setOwner b heap.start c).setNext b 0).setSize b (size ||| heap.blockAllocatedBit))
      heap b size := by
  have hor : size ||| heap.blockAllocatedBit = size + 2 ^ 31 := by rw [hbit, or_bit hsize]
  cases ht : cfg.tracing with
  | true =>
    simp only [if_true, heapInsertBlockIntoUsedList]
    refine ⟨by simp [hor], by simp, ?_, fun _ => by simp, fun x hx hx' => ?_, fun h => absurd h (by simp [ht])⟩
    · simp [ht, hb]
    · rw [Blocks.setSize_ne _ _ _ _ hx, Blocks.setSize_ne _ _ _ _ hx', Blocks.setNext_ne _ _ _ _ hx',
        Blocks.setNext_ne _ _ _ _ hx, Blocks.setOwner_ne _ _ _ _ _ hx]
  | false =>
    have hother : ∀ x, x ≠ b → (((m.setOwner b heap.start c).setNext b 0).setSize b
        (size ||| heap.blockAllocatedBit)) x = m x := by
      intro x hx
      rw [Blocks.setSize_ne _ _ _ _ hx, Blocks.setNext_ne _ _ _ _ hx, Blocks.setOwner_ne _ _ _ _ _ hx]
    simp only [Bool.false_eq_true, if_false]
    exact ⟨by simp [hor], by simp, by simp [ht], fun h => absurd h (by simp [ht]), fun x hx _ => hother x hx,
      fun _ => hother⟩

/-- What an allocation from a heap tiled by `T` leaves. -/
structure Allocated (cfg : Config) (m m' : Blocks) (heap heap' : Heap) (lo : Nat) (T : List Span)
    (b size : Nat) (T' : List Span) : Prop where
  inv : HeapInv cfg m' heap' lo T'
  start : heap'.start = heap.start
  endBlock : heap'.endBlock = heap.endBlock
  bytes : heap'.freeBytesRemaining + size = heap.freeBytesRemaining
  taken : ∃ A s B R, T = A ++ s :: B ∧ s.free = true ∧ s.addr = b ∧ T' = A ++ ⟨b, size, false⟩ :: R ∧
    R.filter (fun u => !u.free) = B.filter fun u => !u.free
  inUse : ∀ u ∈ T, u.free = false → m' u.addr = m u.addr
  frame : ∀ x, x ≠ heap.start → x < lo ∨ heap.endBlock < x → x ≠ cfg.usedBlockList → m' x = m x
  untraced : cfg.tracing = false → m' cfg.usedBlockList = m cfg.usedBlockList
  traced : cfg.tracing = true →
    (m' cfg.usedBlockList).nextFreeBlock = b ∧ (m' b).nextFreeBlock = (m cfg.usedBlockList).nextFreeBlock

/-- A block taken out of the free list and tagged is allocated. -/
theorem Carved.allocated {size : Nat} {R : List Span} {m₁ : Blocks} {heap' : Heap}
    (hc : Carved cfg m m₁ heap lo A s B size R) (h : HeapInv cfg m heap lo (A ++ s :: B))
    (hfree : s.free = true) (ht : Tagged cfg m₁ m' heap s.addr size)
    (hlist : cfg.usedBlockList ≠ heap.start)
    (hout : cfg.usedBlockList < lo ∨ heap.endBlock < cfg.usedBlockList)
    (hroom : cfg.heapStructSize < size) (hstart : heap'.start = heap.start)
    (hend : heap'.endBlock = heap.endBlock) (hbit : heap'.blockAllocatedBit = heap.blockAllocatedBit)
    (hfreeBytes : heap'.freeBytesRemaining = heap.freeBytesRemaining - size) :
    Allocated cfg m m' heap heap' lo (A ++ s :: B) s.addr size (A ++ ⟨s.addr, size, false⟩ :: R) := by
  obtain ⟨hA, hB⟩ := tiles_split.mp h.tiles
  obtain ⟨-, hR⟩ := tiles_split.mp hc.tiles
  have hs8 := (h.sizes s (by simp)).1
  have hsin := h.tiles.mem (s := s) (by simp)
  have hnewin := hc.tiles.mem (s := ⟨s.addr, size, false⟩) (by simp)
  have hnew8 := (hc.sizes ⟨s.addr, size, false⟩ (by simp)).1
  dsimp only at hR hnewin hnew8
  have hstartOut := h.startOut
  -- no other block of the heap has the address of the new one
  have hother : ∀ u ∈ A ++ R, u.addr ≠ s.addr ∧ lo ≤ u.addr ∧ u.addr < heap.endBlock := by
    intro u hu
    rcases List.mem_append.mp hu with hu | hu
    · have huin := hA.mem hu
      have hu8 := (hc.sizes u (by simp [hu])).1
      omega
    · have huin := hR.mem hu
      have hu8 := (hc.sizes u (by simp [hu])).1
      omega
  have hkeep : ∀ x, x = heap.start ∨ lo ≤ x ∧ x ≤ heap.endBlock → x ≠ s.addr → m' x = m₁ x := by
    intro x hx hxs
    apply ht.frame x hxs
    rcases hx with rfl | hx
    · exact fun heq => hlist heq.symm
    · omega
  have hfreeT : freeAddrs (A ++ s :: B) = freeAddrs A ++ s.addr :: freeAddrs B := by
    rw [freeAddrs_append, freeAddrs_cons, hfree]
    rfl
  have hused : ∀ u ∈ A ++ s :: B, u.free = false → m' u.addr = m u.addr := by
    intro u hu huf
    have hus := h.addr_ne hu (by simp) (by rw [huf, hfree]; decide : u.free ≠ s.free)
    have huin := h.tiles.mem hu
    have hu8 := (h.sizes u hu).1
    rw [hkeep _ (Or.inr (by omega)) hus]
    apply hc.frame
    · omega
    · intro hmem
      obtain ⟨v, hv, hvf, hvu⟩ := mem_freeAddrs.mp hmem
      exact h.addr_ne hv hu (by rw [hvf, huf]; decide) hvu
    · rcases List.mem_append.mp hu with hu | hu
      · have := hA.mem hu
        omega
      · rcases List.mem_cons.mp hu with rfl | hu
        · exact absurd rfl hus
        · have := hB.mem hu
          omega
  have hstill : ∀ u ∈ A ++ R, u.free = false → u ∈ A ++ s :: B := by
    intro u hu huf
    rcases List.mem_append.mp hu with hu | hu
    · simp [hu]
    · have huB := mem_inUse hc.inUse hu huf
      simp [huB]
  have hendNot : m' heap.endBlock = m heap.endBlock := by
    have hle := h.tiles.le
    rw [hkeep _ (Or.inr ⟨hle, Nat.le_refl _⟩) (by omega)]
    apply hc.frame
    · omega
    · intro hmem
      obtain ⟨v, hv, -, hve⟩ := mem_freeAddrs.mp hmem
      have hv8 := (h.sizes v hv).1
      have hvin := h.tiles.mem hv
      omega
    · omega
  have hbytes := hc.bytes
  have hbytesT := h.bytes
  have hfreeT' : freeAddrs (A ++ ⟨s.addr, size, false⟩ :: R) = freeAddrs A ++ freeAddrs R := by
    rw [freeAddrs_append, freeAddrs_cons]
    simp
  -- a span in use is the new one or was in use before
  have hcases : ∀ u ∈ A ++ ⟨s.addr, size, false⟩ :: R, u.free = false →
      u = ⟨s.addr, size, false⟩ ∨ u ∈ A ++ s :: B ∧ m' u.addr = m u.addr := by
    intro u hu huf
    have hmem : u = ⟨s.addr, size, false⟩ ∨ u ∈ A ++ R := by
      rcases List.mem_append.mp hu with hu | hu
      · exact Or.inr (List.mem_append_left R hu)
      · exact (List.mem_cons.mp hu).imp id (List.mem_append_right A)
    refine hmem.imp id fun hmem => ?_
    have hold := hstill u hmem huf
    exact ⟨hold, hused u hold huf⟩
  have hinv : HeapInv cfg m' heap' lo (A ++ ⟨s.addr, size, false⟩ :: R) :=
    { tiles := by rw [hend]; exact hc.tiles
      aligned := h.aligned
      sizes := hc.sizes
      room := fun u hu huf => by
        rcases hcases u hu huf with rfl | ⟨hold, -⟩
        · exact hroom
        · exact h.room u hold huf
      apart := hc.apart
      links := by
        rw [hstart, hend, hfreeT', List.append_assoc, ← List.append_assoc (freeAddrs A), ← List.cons_append]
        have hl := hc.links
        rw [← List.append_assoc, ← List.cons_append] at hl
        refine Links.congr hl fun y hy => ?_
        rcases List.mem_cons.mp hy with rfl | hy
        · rw [hkeep _ (Or.inl rfl) (by omega)]
        · rw [← freeAddrs_append] at hy
          obtain ⟨u, hu, -, rfl⟩ := mem_freeAddrs.mp hy
          have huo := hother u hu
          rw [hkeep _ (Or.inr (by omega)) huo.1]
      freeSize := fun u hu huf => by
        have hmem : u ∈ A ++ R := by
          simp only [List.mem_append, List.mem_cons] at hu ⊢
          rcases hu with hu | rfl | hu
          · exact Or.inl hu
          · cases huf
          · exact Or.inr hu
        have huo := hother u hmem
        rw [hkeep _ (Or.inr (by omega)) huo.1]
        exact hc.freeSize u hmem huf
      usedSize := fun u hu huf => by
        rcases hcases u hu huf with rfl | ⟨hold, hsame⟩
        · exact ht.size
        · rw [hsame]
          exact h.usedSize u hold huf
      owner := fun u hu huf => by
        rw [hstart]
        rcases hcases u hu huf with rfl | ⟨hold, hsame⟩
        · exact ht.owner
        · rw [hsame]
          exact h.owner u hold huf
      untraced := fun htr u hu huf => by
        rcases hcases u hu huf with rfl | ⟨hold, hsame⟩
        · rw [ht.next, htr]
          rfl
        · rw [hsame]
          exact h.untraced htr u hold huf
      startSize := by
        rw [hstart, hkeep _ (Or.inl rfl) (by omega)]
        exact hc.startSize
      startOut := by rw [hstart, hend]; exact hstartOut
      endSize := by rw [hend, hendNot]; exact h.endSize
      endNext := fun _ => by rw [hend, hendNot]; exact h.endNext (by simp)
      positive := h.positive
      bound := by rw [hend]; exact h.bound
      small := by rw [hend]; exact h.small
      bytes := by
        rw [hfreeBytes, freeBytes_append, freeBytes_cons, h.bytes]
        simp only [Bool.false_eq_true, if_false]
        omega
      bit := by rw [hbit]; exact h.bit }
  exact
    { inv := hinv
      start := hstart
      endBlock := hend
      bytes := by omega
      taken := ⟨A, s, B, R, rfl, hfree, rfl, rfl, hc.inUse⟩
      inUse := hused
      frame := fun x hx hxout hxlist => by
        rw [ht.frame x (by omega) hxlist]
        apply hc.frame x hx
        · intro hmem
          obtain ⟨v, hv, -, rfl⟩ := mem_freeAddrs.mp hmem
          have hvin := h.tiles.mem hv
          omega
        · omega
      untraced := fun htr => by
        rw [ht.untraced htr _ (by omega)]
        apply hc.frame _ hlist
        · intro hmem
          obtain ⟨v, hv, -, hve⟩ := mem_freeAddrs.mp hmem
          have hvin := h.tiles.mem hv
          omega
        · omega
      traced := fun htr => by
        refine ⟨ht.head htr, ?_⟩
        rw [ht.next, if_pos htr, hc.frame _ hlist]
        · intro hmem
          obtain ⟨v, hv, -, hve⟩ := mem_freeAddrs.mp hmem
          have hvin := h.tiles.mem hv
          omega
        · omega }

/-- The search in a heap ends at a block large enough, if there is one. -/
theorem HeapInv.search (h : HeapInv cfg m heap lo T) (hne : T ≠ []) (w : Nat) :
    ((firstFit m w walkLimit heap.start (m heap.start).nextFreeBlock).2 = heap.endBlock ∧
      ∀ y ∈ freeAddrs T, (m y).blockSize < w) ∨
    ∃ F₁ b F₂, freeAddrs T = F₁ ++ b :: F₂ ∧ w ≤ (m b).blockSize ∧
      firstFit m w walkLimit heap.start (m heap.start).nextFreeBlock =
        ((heap.start :: F₁).getLast (List.cons_ne_nil heap.start F₁), b) := by
  have hpos : ∀ y ∈ freeAddrs T ++ [heap.endBlock], y ≠ 0 := by
    intro y hy
    have hlo := h.positive
    have hle := h.tiles.le
    rcases List.mem_append.mp hy with hy | hy
    · obtain ⟨s, hs, -, rfl⟩ := mem_freeAddrs.mp hy
      have hin := h.tiles.mem hs
      omega
    · rw [List.mem_singleton.mp hy]
      omega
  have hlen : (freeAddrs T).length < walkLimit := by
    have hle := h.tiles.length_le fun s hs => (h.sizes s hs).1
    have hbound := h.bound
    have hfilter : (freeAddrs T).length ≤ T.length := by
      unfold freeAddrs
      rw [List.length_map]
      exact List.length_filter_le _ _
    unfold walkLimit
    omega
  exact firstFit_spec h.links hpos (h.endNext hne) hlen

theorem HeapInv.alloc (h : HeapInv cfg m heap lo T) {caps b size : Nat} {heap' : Heap}
    (hlist : cfg.usedBlockList ≠ heap.start)
    (hout : cfg.usedBlockList < lo ∨ heap.endBlock < cfg.usedBlockList)
    (hrun : heapAlloc cfg m heap wanted caps = some (m', heap', b, size)) :
    ∃ T', Allocated cfg m m' heap heap' lo T b size T' ∧ wanted + cfg.heapStructSize ≤ size := by
  unfold heapAlloc at hrun
  by_cases hbig : wanted &&& heap.blockAllocatedBit = 0
  case neg =>
    rw [if_neg hbig] at hrun
    cases hrun
  rw [if_pos hbig] at hrun
  dsimp only at hrun
  by_cases hfits : 0 < cfg.blockSizeFor wanted ∧ cfg.blockSizeFor wanted ≤ heap.freeBytesRemaining
  case neg =>
    rw [if_neg hfits] at hrun
    cases hrun
  rw [if_pos hfits] at hrun
  obtain ⟨hpos, hbytes⟩ := hfits
  obtain ⟨hw8, hwanted, hwpos⟩ := blockSizeFor_spec hpos
  generalize cfg.blockSizeFor wanted = wanted' at hrun hpos hbytes hw8 hwanted
  have hne : T ≠ [] := by
    rintro rfl
    rw [h.bytes, freeBytes_nil] at hbytes
    omega
  have hfit := h.search hne wanted'
  generalize firstFit m wanted' walkLimit heap.start (m heap.start).nextFreeBlock = r at hrun hfit
  obtain ⟨P, c⟩ := r
  dsimp only at hrun hfit
  by_cases hend : c = heap.endBlock
  case pos =>
    rw [if_neg (not_not.mpr hend)] at hrun
    cases hrun
  rw [if_pos hend] at hrun
  obtain ⟨F₁, b', F₂, hF, hle, hr⟩ := hfit.resolve_left fun hnone => hend hnone.1
  obtain ⟨hP, rfl⟩ := Prod.mk.inj hr
  obtain ⟨A, s, B, rfl, hfree, rfl, hA, -⟩ := freeAddrs_split hF
  have hs : s ∈ A ++ s :: B := by simp
  have hin := h.tiles.mem hs
  have hs8 := (h.sizes s hs).1
  have hstart := h.startOut
  rw [h.freeSize s hs hfree] at hle
  subst hA
  obtain ⟨size', R, hsize', hcarved⟩ := h.carve hfree hle hw8 hpos hP.symm
  generalize Heap.carve cfg m heap P s.addr wanted' = m₁ at hrun hcarved
  clear hfit hr
  have hnew := hcarved.tiles.mem (s := ⟨s.addr, size', false⟩) (by simp)
  have hsmall := h.small
  have hsize : size' < 2 ^ 31 := by
    dsimp only at hnew
    omega
  have hlistb : s.addr ≠ cfg.usedBlockList := by omega
  have htag := tagged_of_alloc (m := m₁) (c := caps) hlistb hsize h.bit
  simp only [hcarved.header] at hrun
  generalize ((if cfg.tracing then heapInsertBlockIntoUsedList cfg (m₁.setOwner s.addr heap.start caps) s.addr
    else (m₁.setOwner s.addr heap.start caps).setNext s.addr 0).setSize s.addr
      (size' ||| heap.blockAllocatedBit)) = m₂ at hrun htag
  simp only [Option.some.injEq, Prod.mk.injEq] at hrun
  obtain ⟨rfl, rfl, rfl, rfl⟩ := hrun
  exact ⟨_, hcarved.allocated h hfree htag hlist hout (by omega) rfl rfl rfl rfl, by omega⟩

theorem freeBytes_ge (hs : s ∈ T) (hfree : s.free = true) : s.size ≤ freeBytes T := by
  obtain ⟨A, B, rfl⟩ := List.append_of_mem hs
  rw [freeBytes_append, freeBytes_cons, hfree]
  simp only [if_true]
  omega

/-- A request is met exactly if it is below 2^31 bytes and a free span has room for it. -/
theorem HeapInv.alloc_isSome_iff (h : HeapInv cfg m heap lo T) (wanted caps : Nat) :
    (heapAlloc cfg m heap wanted caps).isSome ↔
      wanted &&& 2 ^ 31 = 0 ∧ 0 < wanted ∧ ∃ s ∈ T, s.free = true ∧ cfg.blockSizeFor wanted ≤ s.size := by
  unfold heapAlloc
  rw [h.bit]
  by_cases hbig : wanted &&& 2 ^ 31 = 0
  case neg =>
    rw [if_neg hbig]
    simp only [Option.isSome_none, Bool.false_eq_true, hbig, false_and]
  rw [if_pos hbig]
  dsimp only
  by_cases hpos : 0 < cfg.blockSizeFor wanted
  case neg =>
    have hzero : ¬ 0 < wanted := by
      intro hw
      unfold Config.blockSizeFor at hpos
      rw [if_pos hw] at hpos
      dsimp only at hpos
      split at hpos <;> omega
    rw [if_neg fun hc => hpos hc.1]
    simp only [Option.isSome_none, Bool.false_eq_true, hzero, false_and, and_false]
  obtain ⟨-, -, hwpos⟩ := blockSizeFor_spec hpos
  simp only [hbig, hwpos, true_and]
  constructor
  · intro hsome
    by_cases hfits : 0 < cfg.blockSizeFor wanted ∧ cfg.blockSizeFor wanted ≤ heap.freeBytesRemaining
    case neg =>
      rw [if_neg hfits] at hsome
      cases hsome
    rw [if_pos hfits, h.bytes] at *
    have hne : T ≠ [] := by
      rintro rfl
      rw [freeBytes_nil] at hfits
      omega
    rcases h.search hne (cfg.blockSizeFor wanted) with ⟨hend, -⟩ | ⟨F₁, b, F₂, hF, hle, -⟩
    · rw [if_neg (not_not.mpr hend)] at hsome
      cases hsome
    · obtain ⟨s, hs, hfree, rfl⟩ := mem_freeAddrs.mp (show b ∈ freeAddrs T by simp [hF])
      rw [h.freeSize s hs hfree] at hle
      exact ⟨s, hs, hfree, hle⟩
  · rintro ⟨s, hs, hfree, hle⟩
    have hbytes : cfg.blockSizeFor wanted ≤ heap.freeBytesRemaining := by
      rw [h.bytes]
      exact Nat.le_trans hle (freeBytes_ge hs hfree)
    rw [if_pos ⟨hpos, hbytes⟩]
    have haddr : s.addr ∈ freeAddrs T := mem_freeAddrs.mpr ⟨s, hs, hfree, rfl⟩
    rcases h.search (List.ne_nil_of_mem hs) (cfg.blockSizeFor wanted) with ⟨-, hall⟩ | ⟨F₁, b, F₂, hF, -, hr⟩
    · have hlt := hall s.addr haddr
      rw [h.freeSize s hs hfree] at hlt
      omega
    · obtain ⟨t, ht, -, rfl⟩ := mem_freeAddrs.mp (show b ∈ freeAddrs T by simp [hF])
      have hne : t.addr ≠ heap.endBlock := by
        have hin := h.tiles.mem ht
        have ht8 := (h.sizes t ht).1
        omega
      rw [hr, if_pos hne]
      rfl

end

end WmIot.Heap
