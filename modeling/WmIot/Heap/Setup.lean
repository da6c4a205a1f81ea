import WmIot.Heap.Heaps

/-!
# Set-up of the regions

`heap_init` makes one free span of a region that lies in the address space and has room for the
end block. `wm_heap_init` sets up the regions one after the other.
-/

namespace WmIot.Heap
open Tiling
set_option autoImplicit false

/-- The region lies in the address space, and from its first aligned address on it has room for
the end block. -/
structure Ready (cfg : Config) (l : MemoryLayout) : Prop where
  room : l.base + cfg.heapStructSize ≤ l.startAddress + l.sizeInBytes
  inSpace : l.startAddress + l.sizeInBytes ≤ 2 ^ 32
  small : l.sizeInBytes < 2 ^ 31
  positive : 0 < l.startAddress

section
variable {cfg : Config} {m : Blocks} {l : MemoryLayout}

theorem MemoryLayout.base_bounds (l : MemoryLayout) :
    l.startAddress ≤ l.base ∧ l.base < l.startAddress + 8 ∧ 8 ∣ l.base := by
  unfold MemoryLayout.base alignDown
  omega

theorem heapStructSize_pos (cfg : Config) : 16 ≤ cfg.heapStructSize ∧ cfg.heapStructSize ≤ 24 := by
  unfold Config.heapStructSize
  split <;> omega

/-- The addresses `heap_init` computes. -/
theorem heapInit_eq (h : Ready cfg l) :
    ∃ e, 8 ∣ e ∧ l.base ≤ e ∧ e + cfg.heapStructSize ≤ l.startAddress + l.sizeInBytes ∧
      heapInit cfg m l =
        let m' := ((((m.setNext l.heap.start l.base).setSize l.heap.start 0).setSize e 0).setNext e 0)
        ((m'.setSize l.base (e - l.base)).setNext l.base e,
          { l with heap := { l.heap with
            endBlock := e
            minimumEverFreeBytesRemaining := e - l.base
            freeBytesRemaining := e - l.base
            blockAllocatedBit := 2 ^ 31 } }) := by
  obtain ⟨hroom, hspace, hsmall, hpos⟩ := h
  obtain ⟨hlo, hhi, hdvd⟩ := l.base_bounds
  have hstruct := heapStructSize_pos cfg
  have haligned : (if l.startAddress % 8 ≠ 0 then alignDown (add32 l.startAddress 7) else l.startAddress) = l.base := by
    unfold MemoryLayout.base alignDown add32
    split <;> omega
  have htotal : add32 l.base (if l.startAddress % 8 ≠ 0 then sub32 l.sizeInBytes (sub32 l.base l.startAddress)
      else l.sizeInBytes) = (l.startAddress + l.sizeInBytes) % 2 ^ 32 := by
    unfold add32 sub32
    split <;> omega
  have hend : sub32 ((l.startAddress + l.sizeInBytes) % 2 ^ 32) cfg.heapStructSize =
      l.startAddress + l.sizeInBytes - cfg.heapStructSize := by
    unfold sub32
    omega
  refine ⟨alignDown (l.startAddress + l.sizeInBytes - cfg.heapStructSize), ?_, ?_, ?_, ?_⟩
  · unfold alignDown
    omega
  · unfold alignDown
    omega
  · unfold alignDown
    omega
  · have hsub : sub32 (alignDown (l.startAddress + l.sizeInBytes - cfg.heapStructSize)) l.base =
        alignDown (l.startAddress + l.sizeInBytes - cfg.heapStructSize) - l.base := by
      unfold sub32 alignDown
      omega
    unfold heapInit
    simp only [haligned, htotal, hend, hsub, Blocks.setNext_size, Blocks.setSize_size, if_true]

/-- The tiling of a region set up. -/
def initTiling (lo e : Nat) : List Span := if e = lo then [] else [⟨lo, e - lo, true⟩]

theorem heapInit_spec (h : Ready cfg l)
    (hout : l.heap.start < l.base ∨ l.startAddress + l.sizeInBytes ≤ l.heap.start) :
    ∃ e, 8 ∣ e ∧ l.base ≤ e ∧ e + cfg.heapStructSize ≤ l.startAddress + l.sizeInBytes ∧
      (heapInit cfg m l).2 = { l with heap := (heapInit cfg m l).2.heap } ∧
      (heapInit cfg m l).2.heap.start = l.heap.start ∧ (heapInit cfg m l).2.heap.endBlock = e ∧
      HeapInv cfg (heapInit cfg m l).1 (heapInit cfg m l).2.heap l.base (initTiling l.base e) ∧
      ∀ x, x ≠ l.heap.start → x < l.base ∨ e < x → (heapInit cfg m l).1 x = m x := by
  obtain ⟨e, he, hle, hroom, heq⟩ := heapInit_eq (m := m) h
  have hspace := h.inSpace
  have hsmall := h.small
  have hpos := h.positive
  have hbase := l.base_bounds
  have hstruct := heapStructSize_pos cfg
  rw [heq]
  have hstart : l.heap.start ≠ l.base ∧ l.heap.start ≠ e := by omega
  have hstartOut : l.heap.start < l.base ∨ e < l.heap.start := by omega
  have hbound : e < 2 ^ 32 := by omega
  have hshort : e < l.base + 2 ^ 31 := by omega
  have hbasePos : 0 < l.base := by omega
  have htile : l.base + (e - l.base) = e := by omega
  refine ⟨e, he, hle, hroom, rfl, rfl, rfl, ?_, fun x hx hxr => ?_⟩
  · by_cases hne : e = l.base
    · subst hne
      simp only [initTiling, if_true]
      exact
        { tiles := rfl
          aligned := hbase.2.2
          sizes := by simp
          room := by simp
          apart := List.IsChain.nil
          links := by
            refine links_cons_cons.mpr ⟨?_, List.isChain_singleton _⟩
            simp [hstart.1]
          freeSize := by simp
          usedSize := by simp
          owner := by simp
          untraced := by simp
          startSize := by simp [hstart.1]
          startOut := hstartOut
          endSize := by simp
          endNext := fun h => absurd rfl h
          positive := hbasePos
          bound := hbound
          small := hshort
          bytes := by simp
          bit := rfl }
    · simp only [initTiling, if_neg hne]
      exact
        { tiles := ⟨rfl, htile⟩
          aligned := hbase.2.2
          sizes := by
            intro s hs
            rw [List.mem_singleton.mp hs]
            have hdvd := Nat.dvd_sub he hbase.2.2
            have hle8 : 8 ≤ e - l.base := Nat.le_of_dvd (by omega) hdvd
            exact ⟨hle8, hdvd⟩
          room := by simp
          apart := List.isChain_singleton _
          links := by
            refine links_cons_cons.mpr ⟨?_, links_cons_cons.mpr ⟨?_, List.isChain_singleton _⟩⟩
            · simp [hstart.1, hstart.2]
            · simp
          freeSize := by simp
          usedSize := by simp
          owner := by simp
          untraced := by simp
          startSize := by simp [hstart.1, hstart.2]
          startOut := hstartOut
          endSize := by simp [hne]
          endNext := fun _ => by simp [hne]
          positive := hbasePos
          bound := hbound
          small := hshort
          bytes := by simp [freeBytes]
          bit := rfl }
  · have hxb : x ≠ l.base := by omega
    have hxe : x ≠ e := by omega
    dsimp only
    rw [Blocks.setNext_ne _ _ _ _ hxb, Blocks.setSize_ne _ _ _ _ hxb, Blocks.setNext_ne _ _ _ _ hxe,
      Blocks.setSize_ne _ _ _ _ hxe, Blocks.setSize_ne _ _ _ _ hx, Blocks.setNext_ne _ _ _ _ hx]

/-! ## Adding a heap -/

theorem inUse_initTiling (lo e p : Nat) : ¬ InUse cfg (initTiling lo e) p := by
  rintro ⟨s, hs, hf, -⟩
  unfold initTiling at hs
  split at hs
  · cases hs
  · rw [List.mem_singleton.mp hs] at hf
    cases hf

variable {st : State} {live : List Nat} {F : Nat → List Span} {L R : List MemoryLayout}

/-- The region of an entry apart from the heaps set up and from all that is kept outside. -/
structure Placed (cfg : Config) (memory : List MemoryLayout) (l : MemoryLayout) : Prop where
  ready : Ready cfg l
  startOut : l.heap.start < l.startAddress ∨ l.startAddress + l.sizeInBytes ≤ l.heap.start
  listOut : cfg.usedBlockList < l.startAddress ∨ l.startAddress + l.sizeInBytes ≤ cfg.usedBlockList
  listStart : cfg.usedBlockList ≠ l.heap.start
  starts : ∀ k ∈ memory, k.heap.start ≠ l.heap.start
  startsOut : ∀ k ∈ memory, k.heap.start < l.startAddress ∨ l.startAddress + l.sizeInBytes ≤ k.heap.start
  outside : ∀ k ∈ memory, k.valid = true → l.heap.start < k.startAddress ∨
    k.startAddress + k.sizeInBytes ≤ l.heap.start
  apart : ∀ k ∈ memory, k.valid = true → k.startAddress + k.sizeInBytes ≤ l.startAddress ∨
    l.startAddress + l.sizeInBytes ≤ k.startAddress

/-- A heap of a region of its own joins the others. -/
theorem HeapsInv.insert (h : HeapsInv cfg st live F) (hmem : st.memory = L ++ R) (hp : Placed cfg st.memory l)
    {l' : MemoryLayout} {m' : Blocks} {T : List Span} {free' min' : Nat} (hv : l'.valid = true)
    (haddr : l'.startAddress = l.startAddress) (hsize : l'.sizeInBytes = l.sizeInBytes)
    (hst : l'.heap.start = l.heap.start)
    (hroom : l'.heap.endBlock + cfg.heapStructSize ≤ l.startAddress + l.sizeInBytes)
    (hinv : HeapInv cfg m' l'.heap l.base T) (hT : ∀ p, ¬ InUse cfg T p)
    (hframe : ∀ x, x ≠ l.heap.start → x < l.base ∨ l'.heap.endBlock < x → m' x = st.block x)
    (hfree : free' = st.freeBytesRemaining + l'.heap.freeBytesRemaining) :
    HeapsInv cfg
      { st with
        block := m'
        memory := L ++ l' :: R
        freeBytesRemaining := free'
        minimumEverFreeBytesRemaining := min' } live (Function.update F l.heap.start T) := by
  have hbase := l.base_bounds
  have hbase' : l'.base = l.base := by
    unfold MemoryLayout.base
    rw [haddr]
  have hstruct := heapStructSize_pos cfg
  -- the regions in use, from the bounds of the entries
  have hregion : ∀ k ∈ st.memory, k.valid = true →
      k.startAddress ≤ k.base ∧ k.heap.endBlock < k.startAddress + k.sizeInBytes := by
    intro k hk hkv
    have hin := h.inside k hk hkv
    exact ⟨k.base_bounds.1, by omega⟩
  have hmem' : ∀ k, k ∈ L ++ l' :: R ↔ k = l' ∨ k ∈ st.memory := by
    intro k
    rw [hmem, List.mem_append, List.mem_append, List.mem_cons]
    constructor
    · rintro (hk | hk | hk)
      · exact Or.inr (Or.inl hk)
      · exact Or.inl hk
      · exact Or.inr (Or.inr hk)
    · rintro (hk | hk | hk)
      · exact Or.inr (Or.inl hk)
      · exact Or.inl hk
      · exact Or.inr (Or.inr hk)
  have hF : ∀ k ∈ st.memory, Function.update F l.heap.start T k.heap.start = F k.heap.start :=
    fun k hk => Function.update_of_ne (hp.starts k hk) _ _
  have hFl : Function.update F l.heap.start T l'.heap.start = T := by
    rw [hst, Function.update_self]
  have hsame : ∀ x, (∃ k ∈ st.memory, x = k.heap.start ∨ k.valid = true ∧ k.base ≤ x ∧ x ≤ k.heap.endBlock) ∨
      x = cfg.usedBlockList ∨ x + cfg.heapStructSize ∈ live → m' x = st.block x := by
    have hblock : ∀ k ∈ st.memory, k.valid = true → ∀ x, k.base ≤ x → x ≤ k.heap.endBlock → m' x = st.block x := by
      intro k hk hkv x hx hx'
      have hout := hp.startsOut k hk
      have hap := hp.apart k hk hkv
      have hoff := hp.outside k hk hkv
      have hreg := hregion k hk hkv
      exact hframe x (by omega) (by omega)
    rintro x (⟨k, hk, rfl | ⟨hkv, hx⟩⟩ | rfl | hx)
    · have hout := hp.startsOut k hk
      exact hframe _ (hp.starts k hk) (by omega)
    · exact hblock k hk hkv x hx.1 hx.2
    · have hout := hp.listOut
      exact hframe _ hp.listStart (by omega)
    · obtain ⟨k, hk, hkv, s, hs, -, hsx⟩ := (h.handed _).mp hx
      obtain rfl : s.addr = x := by omega
      have hin := h.inUse_region hk hkv hs
      exact hblock k hk hkv _ hin.1 hin.2
  refine ⟨?_, ?_, ?_, ?_, ?_, ?_, ?_, h.nodup, ?_, ?_⟩
  · intro k hk hkv
    rcases (hmem' k).mp hk with rfl | hk
    · rw [hFl, hbase']
      exact hinv
    · rw [hF k hk]
      have hkk := h.heaps k hk hkv
      have hle' := hkk.tiles.le
      refine hkk.congr (fun x hx => ?_)
        (fun x hx hx' => congrArg Block.heap (hsame x (Or.inl ⟨k, hk, Or.inr ⟨hkv, hx, hx'⟩⟩)))
        (fun x hx => ?_) (fun _ s hs _ =>
          congrArg Block.nextFreeBlock (hsame _ (Or.inl ⟨k, hk, Or.inr ⟨hkv, h.inUse_region hk hkv hs⟩⟩)))
      · exact congrArg Block.blockSize (hsame x (Or.inl ⟨k, hk, hx.imp id fun hx => ⟨hkv, hx⟩⟩))
      · refine congrArg Block.nextFreeBlock (hsame x (Or.inl ⟨k, hk, ?_⟩))
        rcases hx with hx | hx | rfl
        · exact Or.inl hx
        · obtain ⟨s, hs, -, rfl⟩ := mem_freeAddrs.mp hx
          exact Or.inr ⟨hkv, h.inUse_region hk hkv hs⟩
        · exact Or.inr ⟨hkv, hle', Nat.le_refl _⟩
  · intro k hk hkv
    rcases (hmem' k).mp hk with rfl | hk
    · rw [haddr, hsize]
      exact hroom
    · exact h.inside k hk hkv
  · have hstarts := h.starts
    rw [hmem, List.map_append] at hstarts
    rw [List.map_append, List.map_cons, List.nodup_middle, List.nodup_cons]
    refine ⟨fun hin => ?_, hstarts⟩
    rw [← List.map_append, ← hmem] at hin
    obtain ⟨k, hk, hkl⟩ := List.mem_map.mp hin
    exact hp.starts k hk (hkl.trans hst)
  · intro k hk j hj hkv hjv hne
    rcases (hmem' k).mp hk with rfl | hkm <;> rcases (hmem' j).mp hj with rfl | hjm
    · exact absurd rfl hne
    · have hap := hp.apart j hjm hjv
      have hreg := hregion j hjm hjv
      omega
    · have hap := hp.apart k hkm hkv
      have hreg := hregion k hkm hkv
      omega
    · exact h.apart k hkm j hjm hkv hjv hne
  · intro k hk j hj hjv
    rcases (hmem' k).mp hk with rfl | hkm <;> rcases (hmem' j).mp hj with rfl | hjm
    · rw [hbase']
      exact hinv.startOut
    · have hoff := hp.outside j hjm hjv
      have hreg := hregion j hjm hjv
      omega
    · have hout := hp.startsOut k hkm
      omega
    · exact h.outside k hkm j hjm hjv
  · intro k hk
    rcases (hmem' k).mp hk with rfl | hk
    · have hlist := hp.listOut
      rw [hst, hbase']
      exact ⟨hp.listStart, fun _ => by omega⟩
    · exact h.list k hk
  · have htotal := h.total
    rw [hmem] at htotal
    rw [counters_split hv]
    change free' = counters (L ++ R) + l'.heap.freeBytesRemaining
    omega
  · intro p
    rw [h.handed p]
    constructor
    · rintro ⟨k, hk, hkv, s, hs⟩
      exact ⟨k, (hmem' k).mpr (Or.inr hk), hkv, s, by rw [hF k hk]; exact hs⟩
    · rintro ⟨k, hk, hkv, s, hs⟩
      rcases (hmem' k).mp hk with rfl | hk
      · rw [hFl] at hs
        exact absurd ⟨s, hs⟩ (hT p)
      · rw [hF k hk] at hs
        exact ⟨k, hk, hkv, s, hs⟩
  · intro htr
    obtain ⟨U, hlinks, hnd, hU⟩ := h.traced htr
    refine ⟨U, ?_, hnd, hU⟩
    rw [← List.cons_append] at hlinks ⊢
    refine Links.congr hlinks fun y hy => congrArg Block.nextFreeBlock (hsame y (Or.inr ?_))
    exact (List.mem_cons.mp hy).imp id fun hy => (hU y).mp hy

theorem HeapsInv.setup (h : HeapsInv cfg st live F) (hmem : st.memory = L ++ R) (hp : Placed cfg st.memory l)
    {v free' min' : Nat} (hcaps : capInvalid &&& v = 0)
    (hfree : free' = st.freeBytesRemaining + (heapInit cfg st.block l).2.heap.freeBytesRemaining) :
    ∃ F', HeapsInv cfg
      { st with
        block := (heapInit cfg st.block l).1
        memory := L ++ { (heapInit cfg st.block l).2 with caps := v } :: R
        freeBytesRemaining := free'
        minimumEverFreeBytesRemaining := min' } live F' := by
  have hbase := l.base_bounds
  obtain ⟨e, -, hle, hroom, hl, hst, rfl, hinv, hframe⟩ :=
    heapInit_spec (m := st.block) hp.ready (hp.startOut.imp (fun hlt => by omega) id)
  refine ⟨_, h.insert hmem hp (by simp [MemoryLayout.valid, hcaps]) ?_ ?_ hst hroom hinv (inUse_initTiling _ _)
    hframe hfree⟩
  · rw [hl]
  · rw [hl]

/-- Entries that are not set up may be changed, added and left out. -/
theorem HeapsInv.remap (h : HeapsInv cfg st live F) {memory' : List MemoryLayout}
    (hvalid : memory'.filter MemoryLayout.valid = st.memory.filter MemoryLayout.valid)
    (hstarts : (memory'.map fun l => l.heap.start).Nodup)
    (hfrom : ∀ l ∈ memory', l.valid = false →
      cfg.usedBlockList ≠ l.heap.start ∧
        ∀ k ∈ st.memory, k.valid = true → l.heap.start < k.base ∨ k.heap.endBlock < l.heap.start) :
    HeapsInv cfg { st with memory := memory' } live F := by
  have hmem : ∀ k : MemoryLayout, k.valid = true → (k ∈ memory' ↔ k ∈ st.memory) := by
    intro k hk
    have hiff : k ∈ memory'.filter MemoryLayout.valid ↔ k ∈ st.memory.filter MemoryLayout.valid := by rw [hvalid]
    simpa [List.mem_filter, hk] using hiff
  refine ⟨fun k hk hkv => h.heaps k ((hmem k hkv).mp hk) hkv, fun k hk hkv => h.inside k ((hmem k hkv).mp hk) hkv,
    hstarts, fun k hk j hj hkv hjv => h.apart k ((hmem k hkv).mp hk) j ((hmem j hjv).mp hj) hkv hjv,
    fun k hk j hj hjv => ?_, fun k hk => ?_, ?_, h.nodup, fun p => ?_, h.traced⟩
  · have hj' := (hmem j hjv).mp hj
    cases hkv : k.valid with
    | true => exact h.outside k ((hmem k hkv).mp hk) j hj' hjv
    | false => exact (hfrom k hk hkv).2 j hj' hjv
  · cases hkv : k.valid with
    | true => exact ⟨(h.list k ((hmem k hkv).mp hk)).1, fun _ => (h.list k ((hmem k hkv).mp hk)).2 hkv⟩
    | false => exact ⟨(hfrom k hk hkv).1, fun ht => by cases ht⟩
  · change st.freeBytesRemaining = counters memory'
    rw [h.total]
    unfold counters
    rw [hvalid]
  · rw [h.handed p]
    constructor
    · rintro ⟨k, hk, hkv, hs⟩
      exact ⟨k, (hmem k hkv).mpr hk, hkv, hs⟩
    · rintro ⟨k, hk, hkv, hs⟩
      exact ⟨k, (hmem k hkv).mp hk, hkv, hs⟩

end

end WmIot.Heap
