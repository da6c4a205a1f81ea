import WmIot.Heap.Runs

/-!
# What a reallocation keeps

The payload of the old block reaches the new one, and the other blocks stay as they are. The copy stays inside
the old block only if the new size does: its length is bounded by the size in the old header, which is larger
than the payload by the header.
-/

namespace WmIot.Heap
open Tiling
set_option autoImplicit false

/-- A heap that serves the capabilities has a free span with room for `n` bytes; a request of 2^31 bytes or more
is not served. -/
def HasRoom (cfg : Config) (st : State) (F : Nat → List Span) (n caps : Nat) : Prop :=
  n &&& 2 ^ 31 = 0 ∧ ∃ l ∈ st.memory, l.valid = true ∧ caps &&& l.caps = caps ∧
    ∃ s ∈ F l.heap.start, s.free = true ∧ cfg.blockSizeFor n ≤ s.size

/-- The capabilities that a reallocation of `p` looks for. -/
def requestCaps (cfg : Config) (st : State) (p caps : Nat) : Nat :=
  if reallocCaps cfg st p caps = 0 then capDefault else reallocCaps cfg st p caps

/-- The block behind a pointer has its size and its bytes. -/
def Same (cfg : Config) (st st' : State) (q : Nat) : Prop :=
  st'.payload cfg q = st.payload cfg q ∧ ∀ k < st.payload cfg q, st'.byte (q + k) = st.byte (q + k)

/-- A reallocation reads the old block only; if it succeeds the new block is a fresh one with room for `n` bytes
that begins with the old payload, if it fails the old block is as it was; the other blocks stay, and the allocator
is left with the pointers that are due. A size of 0 frees the block. -/
structure ReallocPreserves (cfg : Config) (st : State) (live : List Nat) (p n caps : Nat) : Prop where
  reads : reallocCopied cfg st p n caps ≤ st.payload cfg p
  success : (wmHeapCapsRealloc cfg st p n caps).1 ≠ 0 →
    (wmHeapCapsRealloc cfg st p n caps).1 ∉ live ∧
    n ≤ (wmHeapCapsRealloc cfg st p n caps).2.payload cfg (wmHeapCapsRealloc cfg st p n caps).1 ∧
    ∀ k < min (st.payload cfg p) n,
      (wmHeapCapsRealloc cfg st p n caps).2.byte ((wmHeapCapsRealloc cfg st p n caps).1 + k) = st.byte (p + k)
  failure : (wmHeapCapsRealloc cfg st p n caps).1 = 0 → n ≠ 0 → Same cfg st (wmHeapCapsRealloc cfg st p n caps).2 p
  others : ∀ q ∈ live, q ≠ p → Same cfg st (wmHeapCapsRealloc cfg st p n caps).2 q
  held : ∃ F', HeapsInv cfg (wmHeapCapsRealloc cfg st p n caps).2
    (reallocHeld live p n (wmHeapCapsRealloc cfg st p n caps).1) F'

section
variable {cfg : Config} {st : State} {live : List Nat} {F : Nat → List Span} {p n caps : Nat}

theorem HeapsInv.allocLoop_ne_zero_iff (h : HeapsInv cfg st live F) (hn : 0 < n) {rest : List MemoryLayout}
    (hrest : ∀ l ∈ rest, l ∈ st.memory) :
    (capsAllocLoop cfg st n caps rest).1 ≠ 0 ↔ n &&& 2 ^ 31 = 0 ∧ ∃ l ∈ rest, l.valid = true ∧
      caps &&& l.caps = caps ∧ ∃ s ∈ F l.heap.start, s.free = true ∧ cfg.blockSizeFor n ≤ s.size := by
  induction rest with
  | nil => simp [capsAllocLoop]
  | cons l rest ih =>
    have ih := ih fun k hk => hrest k (List.mem_cons_of_mem l hk)
    have hl := hrest l List.mem_cons_self
    simp only [List.exists_mem_cons_iff, and_or_left]
    rw [capsAllocLoop]
    by_cases hvalid : capInvalid &&& l.caps ≠ 0
    · have hv : l.valid = false := by simpa [MemoryLayout.valid] using hvalid
      rw [if_pos hvalid, ih]
      simp only [hv, Bool.false_eq_true, false_and, and_false, false_or]
    · have hv : l.valid = true := by simpa [MemoryLayout.valid] using hvalid
      rw [if_neg hvalid]
      by_cases hcaps : caps &&& l.caps = caps
      · have hsome := (h.heaps l hl hv).alloc_isSome_iff n caps
        rw [if_pos hcaps]
        cases hrun : heapAlloc cfg st.block l.heap n caps with
        | none =>
          rw [hrun] at hsome
          have hno : ¬ (n &&& 2 ^ 31 = 0 ∧ 0 < n ∧ ∃ s ∈ F l.heap.start, s.free = true ∧ cfg.blockSizeFor n ≤ s.size) :=
            fun hc => Bool.false_ne_true (hsome.mpr hc)
          simp only [hn, true_and] at hno
          dsimp only
          rw [ih]
          simp only [hv, hcaps, true_and, hno, false_or]
        | some r =>
          obtain ⟨m', heap', b, taken⟩ := r
          rw [hrun] at hsome
          obtain ⟨hbit, -, hspan⟩ := hsome.mp rfl
          have hss := heapStructSize_pos cfg
          dsimp only
          simp only [hv, hcaps, hbit, hspan, true_and, true_or, iff_true]
          omega
      · rw [if_neg hcaps, ih]
        simp only [hcaps, false_and, and_false, false_or]

/-- A reallocation succeeds exactly if there is room. -/
theorem HeapsInv.realloc_ne_zero_iff (h : HeapsInv cfg st live F) (hp : p ∈ live) (hn : n ≠ 0) (caps : Nat) :
    (wmHeapCapsRealloc cfg st p n caps).1 ≠ 0 ↔ HasRoom cfg st F n (requestCaps cfg st p caps) := by
  have hzero : p ≠ 0 := fun heq => h.zero_notMem (heq ▸ hp)
  have hresult : (wmHeapCapsRealloc cfg st p n caps).1 =
      (wmHeapCapsAlloc cfg st n (reallocCaps cfg st p caps)).1 := by
    obtain ⟨l, hl, hv, s, hs, hused, hsp⟩ := (h.handed p).mp hp
    have hlink : p - cfg.heapStructSize = s.addr := by omega
    unfold wmHeapCapsRealloc reallocCaps
    rw [if_neg hzero, if_neg hn, hlink]
    dsimp only
    rw [(h.heaps l hl hv).owner s hs hused, h.findHeap hl]
    dsimp only
    generalize (if caps = 0 then (st.block s.addr).caps else caps) = wanted
    split
    next hr => exact hr.symm
    next => rfl
  rw [hresult, wmHeapCapsAlloc, if_neg hn]
  exact h.allocLoop_ne_zero_iff (Nat.pos_of_ne_zero hn) fun _ hl => hl

/-- A reallocation keeps what it has to and reads the old block only, unless the new block is there and larger
than the payload of the old one. -/
theorem realloc_preserves_iff (h : HeapsInv cfg st live F) (hp : p ∈ live) (n caps : Nat) :
    ReallocPreserves cfg st live p n caps ↔
      n ≤ st.payload cfg p ∨ ¬ HasRoom cfg st F n (requestCaps cfg st p caps) := by
  have hzero : p ≠ 0 := fun heq => h.zero_notMem (heq ▸ hp)
  have hss := heapStructSize_pos cfg
  obtain ⟨F', hres⟩ := h.resize hp n caps
  have hnone : n = 0 → (wmHeapCapsRealloc cfg st p n caps).1 = 0 := by
    intro hn
    rw [wmHeapCapsRealloc, if_neg hzero, if_pos hn]
  have hroom := fun hn : n ≠ 0 => h.realloc_ne_zero_iff hp hn caps
  rcases hrun : wmHeapCapsRealloc cfg st p n caps with ⟨r, st'⟩
  rw [hrun] at hres hnone hroom
  dsimp only at hres hnone hroom
  constructor
  · intro hpres
    by_contra hcon
    obtain ⟨hlarge, hfits⟩ := not_or.mp hcon
    have hn : n ≠ 0 := by omega
    have hreads := hpres.reads
    rw [hres.copied hn ((hroom hn).mpr (not_not.mp hfits))] at hreads
    omega
  · intro hcond
    have hcopied : reallocCopied cfg st p n caps ≤ n ∧ reallocCopied cfg st p n caps ≤ st.payload cfg p := by
      by_cases hfail : n = 0 ∨ r = 0
      · rw [hres.failed hfail]
        exact ⟨Nat.zero_le _, Nat.zero_le _⟩
      · obtain ⟨hn, hr⟩ := not_or.mp hfail
        have hsmall := hcond.resolve_right fun hno => hno ((hroom hn).mp hr)
        rw [hres.copied hn hr]
        omega
    have hwritten : ∀ a, (n ≠ 0 → r ≠ 0 → a < r ∨ r + n ≤ a) → st'.byte a = st.byte a := by
      intro a hout
      rw [hres.byte, memcpy]
      by_cases hfail : n = 0 ∨ r = 0
      · have hnothing := hres.failed hfail
        rw [if_neg (by omega)]
      · obtain ⟨hn, hr⟩ := not_or.mp hfail
        have hout := hout hn hr
        rw [if_neg (by omega)]
    have hsame : ∀ q ∈ live, q ∈ reallocHeld live p n r → Same cfg st st' q := by
      intro q hq hkept
      refine ⟨hres.sizes q hq hkept, fun k hk => hwritten _ fun hn hr => ?_⟩
      have hapart := hres.apart hn hr q hq
      omega
    refine ⟨hcopied.2, ?_, ?_, ?_, ?_⟩ <;> rw [hrun]
    · intro hr
      have hn : n ≠ 0 := fun hn => hr (hnone hn)
      obtain ⟨hnew, hserved⟩ := hres.served hn hr
      refine ⟨hnew, hserved, fun k hk => ?_⟩
      have hcount := hres.copied hn hr
      dsimp only
      rw [hres.byte, memcpy, if_pos (by omega), Nat.add_sub_cancel_left]
    · intro hr hn
      apply hsame p hp
      rw [reallocHeld, if_neg hzero, if_neg hn, if_pos hr]
      exact hp
    · intro q hq hqp
      apply hsame q hq
      have hrest : q ∈ live.erase p := (h.nodup.mem_erase_iff).mpr ⟨hqp, hq⟩
      rw [reallocHeld, if_neg hzero]
      split
      next => exact hrest
      next =>
        split
        next => exact hq
        next => exact List.mem_cons_of_mem r hrest
    · exact ⟨F', hres.inv⟩

end

/-- The allocator of the chip after a request of 100 bytes. -/
def oneBlock : Nat × State :=
  wmHeapCapsAlloc tracingConfig
    (wmHeapInit tracingConfig (fun _ => ⟨0, 0, 0, 0⟩) (fun _ => 0) socMemory 0x20001002 0x20028000) 100 0

theorem oneBlock_inv : ∃ F, HeapsInv tracingConfig oneBlock.2 [oneBlock.1] F := by
  have hrun : HeapRun tracingConfig oneBlock.2 (hold oneBlock.1 []) := .alloc 100 0 (.init linked_socMemory rfl)
  have hheld : hold oneBlock.1 [] = [oneBlock.1] := if_neg (by decide +kernel)
  rw [hheld] at hrun
  exact hrun.inv

theorem realloc_preserves_iff_shrink :
    ∃ F, ReallocPreserves tracingConfig oneBlock.2 [oneBlock.1] oneBlock.1 40 0 ↔
      40 ≤ oneBlock.2.payload tracingConfig oneBlock.1 ∨
        ¬ HasRoom tracingConfig oneBlock.2 F 40 (requestCaps tracingConfig oneBlock.2 oneBlock.1 0) := by
  obtain ⟨F, h⟩ := oneBlock_inv
  exact ⟨F, realloc_preserves_iff h (List.mem_singleton_self _) 40 0⟩

/-- The block of 100 bytes has a payload of 104 bytes, and growing it copies 128. -/
theorem realloc_reads_beyond :
    (∃ F, HeapsInv tracingConfig oneBlock.2 [oneBlock.1] F) ∧
    ¬ ReallocPreserves tracingConfig oneBlock.2 [oneBlock.1] oneBlock.1 200 0 := by
  have hpayload : oneBlock.2.payload tracingConfig oneBlock.1 = 104 := by decide +kernel
  have hcopied : reallocCopied tracingConfig oneBlock.2 oneBlock.1 200 0 = 128 := by decide +kernel
  refine ⟨oneBlock_inv, fun h => ?_⟩
  have hreads := h.reads
  rw [hpayload, hcopied] at hreads
  omega

end WmIot.Heap
