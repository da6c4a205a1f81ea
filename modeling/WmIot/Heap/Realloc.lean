import WmIot.Heap.Setup

/-!
# Reallocation

A block of the new size is taken, the old payload is copied and the old block freed. The number of bytes
copied is computed from the size in the old header, which counts the header itself.
-/

namespace WmIot.Heap
open Tiling
set_option autoImplicit false

/-- A pointer the program may pass: NULL, or one handed out and not yet freed. -/
def Passable (live : List Nat) (p : Nat) : Prop := p = 0 ∨ p ∈ live

/-- The pointers handed out after a reallocation of `p` to `n` bytes that returned `r`. -/
def reallocHeld (live : List Nat) (p n r : Nat) : List Nat :=
  if p = 0 then hold r live
  else if n = 0 then live.erase p
  else if r = 0 then live
  else r :: live.erase p

/-- The number of bytes that the `memcpy` of a reallocation reads, from the old pointer on. -/
def reallocCopied (cfg : Config) (st : State) (oldMem newSize caps : Nat) : Nat :=
  if oldMem = 0 then 0
  else if newSize = 0 then 0
  else
    let link := oldMem - cfg.heapStructSize
    match st.findHeap (st.block link).heap with
    | none => 0
    | some heap =>
      let caps := if caps = 0 then (st.block link).caps else caps
      let (newMem, st) := wmHeapCapsAlloc cfg st newSize caps
      if newMem = 0 then 0
      else
        let oldSize := (st.block link).blockSize &&& (2 ^ 32 - 1 - heap.blockAllocatedBit)
        if oldSize ≤ newSize then oldSize else newSize

/-- What a reallocation of `p` to `n` bytes that returned `r` leaves. -/
structure Resized (cfg : Config) (st st' : State) (live : List Nat) (p n r copied : Nat) (F' : Nat → List Span) :
    Prop where
  inv : HeapsInv cfg st' (reallocHeld live p n r) F'
  sizes : ∀ q ∈ live, q ∈ reallocHeld live p n r → st'.payload cfg q = st.payload cfg q
  byte : st'.byte = memcpy st.byte r p copied
  failed : n = 0 ∨ r = 0 → copied = 0
  copied : n ≠ 0 → r ≠ 0 → copied = min (st.payload cfg p + cfg.heapStructSize) n
  served : n ≠ 0 → r ≠ 0 → r ∉ live ∧ n ≤ st'.payload cfg r
  apart : n ≠ 0 → r ≠ 0 → ∀ q ∈ live, r + n ≤ q ∨ q + st.payload cfg q + cfg.heapStructSize ≤ r

section Calls
variable {cfg : Config} {st : State} {live : List Nat} {F : Nat → List Span} {l : MemoryLayout} {s : Span}

/-- The size in a header is that of the payload and of the header. -/
theorem HeapsInv.headerSize (h : HeapsInv cfg st live F) (hl : l ∈ st.memory) (hv : l.valid = true)
    (hs : s ∈ F l.heap.start) (hused : s.free = false) :
    (st.block s.addr).blockSize &&& (2 ^ 32 - 1 - 2 ^ 31) = s.size ∧
      st.payload cfg (s.addr + cfg.heapStructSize) + cfg.heapStructSize = s.size := by
  have hinv := h.heaps l hl hv
  have hsize : (st.block s.addr).blockSize &&& (2 ^ 32 - 1 - 2 ^ 31) = s.size := by
    rw [hinv.usedSize s hs hused, add_bit_and_not (hinv.size_lt hs)]
  refine ⟨hsize, ?_⟩
  rw [State.payload, Nat.add_sub_cancel, hsize]
  exact Nat.sub_add_cancel (Nat.le_of_lt (hinv.room s hs hused))

/-- The blocks behind two pointers do not overlap. -/
theorem HeapsInv.payload_apart (h : HeapsInv cfg st live F) {p q : Nat} (hp : p ∈ live) (hq : q ∈ live)
    (hne : p ≠ q) :
    p + st.payload cfg p + cfg.heapStructSize ≤ q ∨ q + st.payload cfg q + cfg.heapStructSize ≤ p := by
  obtain ⟨l, hl, hv, s, hs, hsused, rfl⟩ := (h.handed p).mp hp
  obtain ⟨k, hk, hkv, t, ht, htused, rfl⟩ := (h.handed q).mp hq
  have hsize := (h.headerSize hl hv hs hsused).2
  have htize := (h.headerSize hk hkv ht htused).2
  by_cases hlk : l = k
  · subst hlk
    have hst : s ≠ t := fun heq => hne (by rw [heq])
    have hdisj := (h.heaps l hl hv).tiles.disjoint hs ht hst
    omega
  · have hsin := (h.heaps l hl hv).tiles.mem hs
    have htin := (h.heaps k hk hkv).tiles.mem ht
    have hap := h.apart l hl k hk hv hkv fun heq => hlk (h.layout_inj hl hk heq)
    omega

theorem HeapsInv.copy (h : HeapsInv cfg st live F) (byte' : Nat → BitVec 8) :
    HeapsInv cfg { st with byte := byte' } live F :=
  ⟨h.heaps, h.inside, h.starts, h.apart, h.outside, h.list, h.total, h.nodup, h.handed, h.traced⟩

theorem HeapsInv.zero_notMem (h : HeapsInv cfg st live F) : 0 ∉ live := by
  intro hmem
  have hpos := h.addr_pos hmem
  omega

theorem HeapsInv.capsFree (h : HeapsInv cfg st live F) {p : Nat} (hp : Passable live p) :
    ∃ F', HeapsInv cfg (wmHeapCapsFree cfg st p) (live.erase p) F' := by
  unfold wmHeapCapsFree
  by_cases hzero : p = 0
  · subst hzero
    rw [if_pos rfl, List.erase_of_not_mem h.zero_notMem]
    exact ⟨F, h⟩
  · rw [if_neg hzero]
    obtain ⟨F', hfreed⟩ := h.free (hp.resolve_left hzero)
    exact ⟨F', hfreed.inv⟩

theorem memcpy_zero (byte : Nat → BitVec 8) (dest src : Nat) : memcpy byte dest src 0 = byte := by
  funext a
  rw [memcpy, if_neg (by omega)]

/-- The capabilities that a reallocation asks for. -/
def reallocCaps (cfg : Config) (st : State) (p caps : Nat) : Nat :=
  if caps = 0 then (st.block (p - cfg.heapStructSize)).caps else caps

theorem HeapsInv.resize (h : HeapsInv cfg st live F) {p : Nat} (hp : p ∈ live) (n caps : Nat) :
    ∃ F', Resized cfg st (wmHeapCapsRealloc cfg st p n caps).2 live p n (wmHeapCapsRealloc cfg st p n caps).1
      (reallocCopied cfg st p n caps) F' := by
  have hzero : p ≠ 0 := fun heq => h.zero_notMem (heq ▸ hp)
  have hge : ∀ q ∈ live, cfg.heapStructSize ≤ q := fun q hq => Nat.le_of_lt (h.addr_pos hq)
  unfold wmHeapCapsRealloc reallocCopied
  simp only [if_neg hzero]
  by_cases hn : n = 0
  · simp only [if_pos hn, wmHeapCapsFree, if_neg hzero]
    obtain ⟨F', hfreed⟩ := h.free hp
    refine ⟨F', ?_, fun q hq hkept => ?_, ?_, fun _ => rfl, fun hn' => absurd hn hn', fun hn' => absurd hn hn',
      fun hn' => absurd hn hn'⟩
    · rw [reallocHeld, if_neg hzero, if_pos hn]
      exact hfreed.inv
    · rw [reallocHeld, if_neg hzero, if_pos hn] at hkept
      exact hfreed.sizes.payload hkept (hge q hq)
    · rw [memcpy_zero]
      exact hfreed.byte
  · simp only [if_neg hn]
    obtain ⟨l, hl, hv, s, hs, hused, hsp⟩ := (h.handed p).mp hp
    have hlink : p - cfg.heapStructSize = s.addr := by omega
    rw [hlink, (h.heaps l hl hv).owner s hs hused, h.findHeap hl]
    dsimp only
    generalize (if caps = 0 then (st.block s.addr).caps else caps) = wanted
    obtain ⟨F₁, hserved⟩ := h.alloc n wanted
    rcases hrun : wmHeapCapsAlloc cfg st n wanted with ⟨r, st'⟩
    rw [hrun] at hserved
    dsimp only at hserved ⊢
    by_cases hr : r = 0
    · simp only [if_pos hr]
      have hinv := hserved.inv
      rw [hold, if_pos hr] at hinv
      refine ⟨F₁, ?_, fun q hq _ => hserved.sizes.payload hq (hge q hq), ?_, fun _ => rfl,
        fun _ hr' => absurd rfl hr', fun _ hr' => absurd rfl hr', fun _ hr' => absurd rfl hr'⟩
      · rw [reallocHeld, if_neg hzero, if_neg hn, if_pos rfl]
        exact hinv
      · rw [memcpy_zero]
        exact hserved.byte
    · simp only [if_neg hr, wmHeapCapsFree, if_neg hzero]
      have hinv := hserved.inv
      rw [hold, if_neg hr] at hinv
      have hnew : r ∉ live := (List.nodup_cons.mp hinv.nodup).1
      -- the new block is none of those handed out
      have hne : r ≠ p := by
        rintro rfl
        exact hnew hp
      have herase : r :: live.erase p = (r :: live).erase p := by
        rw [List.erase_cons_tail (by simpa using hne)]
      have holdSize : (st'.block s.addr).blockSize &&& (2 ^ 32 - 1 - l.heap.blockAllocatedBit) =
          st.payload cfg p + cfg.heapStructSize := by
        obtain ⟨hsize, hpayload⟩ := h.headerSize hl hv hs hused
        rw [hserved.sizes s.addr (by rwa [hsp]), (h.heaps l hl hv).bit, hsize, ← hsp, hpayload]
      rw [holdSize]
      generalize hcopied : (if st.payload cfg p + cfg.heapStructSize ≤ n then
        st.payload cfg p + cfg.heapStructSize else n) = copied
      obtain ⟨F', hfreed⟩ := (hinv.copy (memcpy st'.byte r p copied)).free (List.mem_cons_of_mem r hp)
      have hkeep : ∀ q ∈ r :: live, q ≠ p → State.payload cfg _ q = st'.payload cfg q := fun q hq hqp =>
        hfreed.sizes.payload ((hinv.nodup.mem_erase_iff).mpr ⟨hqp, hq⟩) (Nat.le_of_lt (hinv.addr_pos hq))
      refine ⟨F', ?_, fun q hq hkept => ?_, ?_, fun hfail => ?_, fun _ _ => ?_, fun _ _ => ⟨hnew, ?_⟩, fun _ _ q hq => ?_⟩
      · rw [reallocHeld, if_neg hzero, if_neg hn, if_neg hr, herase]
        exact hfreed.inv
      · rw [reallocHeld, if_neg hzero, if_neg hn, if_neg hr, herase] at hkept
        rw [hkeep q (List.mem_cons_of_mem r hq) ((hinv.nodup.mem_erase_iff).mp hkept).1]
        exact hserved.sizes.payload hq (hge q hq)
      · rw [hfreed.byte, ← hserved.byte]
      · exact absurd hfail (not_or.mpr ⟨hn, hr⟩)
      · rw [← hcopied]
        split <;> omega
      · rw [hkeep r List.mem_cons_self hne]
        exact hserved.room hr
      · have hroom := hserved.room hr
        have hap := hinv.payload_apart List.mem_cons_self (List.mem_cons_of_mem r hq) fun heq => hnew (heq ▸ hq)
        rw [hserved.sizes.payload hq (hge q hq)] at hap
        omega

theorem HeapsInv.realloc (h : HeapsInv cfg st live F) {p : Nat} (hp : Passable live p) (n caps : Nat) :
    ∃ F', HeapsInv cfg (wmHeapCapsRealloc cfg st p n caps).2
      (reallocHeld live p n (wmHeapCapsRealloc cfg st p n caps).1) F' := by
  rcases hp with rfl | hp
  · obtain ⟨F', hserved⟩ := h.alloc n caps
    refine ⟨F', ?_⟩
    unfold wmHeapCapsRealloc reallocHeld
    simp only [if_true]
    exact hserved.inv
  · obtain ⟨F', hresized⟩ := h.resize hp n caps
    exact ⟨F', hresized.inv⟩

end Calls

end WmIot.Heap
