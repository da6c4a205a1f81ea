import Mathlib

/-!
# The heap

`wm_heap.c`. Memory holds block headers by their address and bytes; addresses and sizes are the
values of 32-bit words. Both settings of `CONFIG_HEAP_USE_TRACING` are covered; the poisoning
options, which no configuration file offers, are off. Assertions, the names traced and the
counters of successful calls are left out.
-/

namespace WmIot.Heap
set_option autoImplicit false

/-- The fields of `wm_heap_block_t`. -/
structure Block where
  nextFreeBlock : Nat
  blockSize : Nat
  heap : Nat
  caps : Nat
  deriving DecidableEq

/-- The headers by address. -/
abbrev Blocks := Nat → Block

def Blocks.setNext (m : Blocks) (a v : Nat) : Blocks :=
  Function.update m a { m a with nextFreeBlock := v }

def Blocks.setSize (m : Blocks) (a v : Nat) : Blocks :=
  Function.update m a { m a with blockSize := v }

def Blocks.setOwner (m : Blocks) (a heap caps : Nat) : Blocks :=
  Function.update m a { m a with heap := heap, caps := caps }

/-- `wm_heap_t`. Its first field `start` is a block header, kept in memory at the address
`start`, which is that of the heap as well. -/
structure Heap where
  start : Nat
  endBlock : Nat
  freeBytesRemaining : Nat
  minimumEverFreeBytesRemaining : Nat
  blockAllocatedBit : Nat

/-- `wm_memory_layout_t`. -/
structure MemoryLayout where
  memName : String
  startAddress : Nat
  sizeInBytes : Nat
  caps : Nat
  heap : Heap

/-- The build: whether blocks in use are traced, and where the list of them begins. -/
structure Config where
  tracing : Bool
  usedBlockList : Nat

/-- Memory, `wm_soc_memory`, and the global counters of `wm_heaps`. -/
structure State where
  block : Blocks
  byte : Nat → BitVec 8
  memory : List MemoryLayout
  freeBytesRemaining : Nat
  minimumEverFreeBytesRemaining : Nat

def capDefault : Nat := 1
def capInvalid : Nat := 2 ^ 20
def psramName : String := "PSRAM"

/-- `heap_struct_size`: the size of `wm_heap_block_t`, a multiple of 8. -/
def Config.heapStructSize (cfg : Config) : Nat := if cfg.tracing then 24 else 16

/-- `HEAP_MINIMUM_BLOCK_SIZE`. -/
def Config.minimumBlockSize (cfg : Config) : Nat := cfg.heapStructSize * 2

/-- `size_t` arithmetic. -/
def add32 (a b : Nat) : Nat := (a + b) % 2 ^ 32
def sub32 (a b : Nat) : Nat := (a + (2 ^ 32 - b % 2 ^ 32)) % 2 ^ 32

/-- `x & ~HEAP_BYTE_ALIGNMENT_MASK`. -/
def alignDown (x : Nat) : Nat := x / 8 * 8

/-- More turns than a walk over the blocks of a 32-bit address space takes. -/
def walkLimit : Nat := 2 ^ 30

/-! ## Lists of blocks -/

/-- The loop of `heap_insert_block_into_free_list`: the last block before the given one. -/
def findPosition (m : Blocks) (block : Nat) : Nat → Nat → Nat
  | 0, iterator => iterator
  | n + 1, iterator =>
    if (m iterator).nextFreeBlock < block then findPosition m block n (m iterator).nextFreeBlock
    else iterator

/-- Its second part: links the block to what follows, and merges the two when they touch. -/
def linkNext (m : Blocks) (heap : Heap) (block next : Nat) : Blocks :=
  if block + (m block).blockSize = next then
    if next ≠ heap.endBlock then
      (m.setSize block ((m block).blockSize + (m next).blockSize)).setNext block (m next).nextFreeBlock
    else m.setNext block heap.endBlock
  else m.setNext block next

def heapInsertBlockIntoFreeList (m : Blocks) (heap : Heap) (blockToInsert : Nat) : Blocks :=
  let iterator := findPosition m blockToInsert walkLimit heap.start
  if iterator + (m iterator).blockSize = blockToInsert then
    let m := m.setSize iterator ((m iterator).blockSize + (m blockToInsert).blockSize)
    linkNext m heap iterator (m iterator).nextFreeBlock
  else
    (linkNext m heap blockToInsert (m iterator).nextFreeBlock).setNext iterator blockToInsert

/-- `heap_insert_block_into_used_list`. -/
def heapInsertBlockIntoUsedList (cfg : Config) (m : Blocks) (block : Nat) : Blocks :=
  let m := m.setNext block (m cfg.usedBlockList).nextFreeBlock
  let m := m.setNext cfg.usedBlockList block
  m.setSize cfg.usedBlockList ((m cfg.usedBlockList).blockSize + (m block).blockSize)

/-- The loop of `heap_remove_block_from_used_list`. -/
def removeFromUsedLoop (cfg : Config) (allocatedBit block : Nat) : Nat → Nat → Nat → Blocks → Blocks
  | 0, _, _, m => m
  | n + 1, previous, b, m =>
    if b = 0 then m
    else if b = block then
      let m := m.setNext previous (m b).nextFreeBlock
      let m := m.setNext b 0
      m.setSize cfg.usedBlockList
        ((m cfg.usedBlockList).blockSize - ((m b).blockSize &&& (2 ^ 32 - 1 - allocatedBit)))
    else removeFromUsedLoop cfg allocatedBit block n b (m b).nextFreeBlock m

def heapRemoveBlockFromUsedList (cfg : Config) (m : Blocks) (heap : Heap) (block : Nat) : Blocks :=
  removeFromUsedLoop cfg heap.blockAllocatedBit block walkLimit cfg.usedBlockList
    (m cfg.usedBlockList).nextFreeBlock m

/-! ## One heap -/

/-- The search of `heap_alloc`: the first block large enough, with the one before it. -/
def firstFit (m : Blocks) (wanted : Nat) : Nat → Nat → Nat → Nat × Nat
  | 0, previous, block => (previous, block)
  | n + 1, previous, block =>
    if (m block).blockSize < wanted ∧ (m block).nextFreeBlock ≠ 0 then
      firstFit m wanted n block (m block).nextFreeBlock
    else (previous, block)

/-- The size of the block for a request; the sum cannot wrap, the request is below 2^31. -/
def Config.blockSizeFor (cfg : Config) (wanted : Nat) : Nat :=
  if wanted > 0 then
    let size := wanted + cfg.heapStructSize
    if size % 8 ≠ 0 then size + (8 - size % 8) else size
  else wanted

/-- Takes the block found out of the free list and puts what it has too much back. -/
def carve (cfg : Config) (m : Blocks) (heap : Heap) (previous block wanted : Nat) : Blocks :=
  let m := m.setNext previous (m block).nextFreeBlock
  if (m block).blockSize - wanted > cfg.minimumBlockSize then
    let newBlockLink := block + wanted
    let m := m.setSize newBlockLink ((m block).blockSize - wanted)
    let m := m.setSize block wanted
    heapInsertBlockIntoFreeList m heap newBlockLink
  else m

/-- `heap_alloc`: the headers, the heap, the block handed out and its size. -/
def heapAlloc (cfg : Config) (m : Blocks) (heap : Heap) (wanted caps : Nat) :
    Option (Blocks × Heap × Nat × Nat) :=
  if wanted &&& heap.blockAllocatedBit = 0 then
    let wanted := cfg.blockSizeFor wanted
    if wanted > 0 ∧ wanted ≤ heap.freeBytesRemaining then
      let (previous, block) := firstFit m wanted walkLimit heap.start (m heap.start).nextFreeBlock
      if block ≠ heap.endBlock then
        let m := carve cfg m heap previous block wanted
        let size := (m block).blockSize
        let free := heap.freeBytesRemaining - size
        let m := m.setOwner block heap.start caps
        let m := if cfg.tracing then heapInsertBlockIntoUsedList cfg m block else m.setNext block 0
        let m := m.setSize block (size ||| heap.blockAllocatedBit)
        some (m, { heap with
          freeBytesRemaining := free
          minimumEverFreeBytesRemaining := min heap.minimumEverFreeBytesRemaining free }, block, size)
      else none
    else none
  else none

/-- `heap_free` from the two checks of the header on: the block goes back to its heap. -/
def releaseBlock (m : Blocks) (heap : Heap) (link : Nat) : Option (Blocks × Heap × Nat) :=
  if (m link).blockSize &&& heap.blockAllocatedBit ≠ 0 then
    if (m link).nextFreeBlock = 0 then
      let size := (m link).blockSize &&& (2 ^ 32 - 1 - heap.blockAllocatedBit)
      let m := m.setSize link size
      some (heapInsertBlockIntoFreeList m heap link,
        { heap with freeBytesRemaining := heap.freeBytesRemaining + size }, size)
    else none
  else none

/-- `heap_init`, in the memory of the region. -/
def heapInit (cfg : Config) (m : Blocks) (layout : MemoryLayout) : Blocks × MemoryLayout :=
  let start := layout.startAddress
  let aligned := if start % 8 ≠ 0 then alignDown (add32 start 7) else start
  let total := if start % 8 ≠ 0 then sub32 layout.sizeInBytes (sub32 aligned start) else layout.sizeInBytes
  let m := m.setNext layout.heap.start aligned
  let m := m.setSize layout.heap.start 0
  let address := alignDown (sub32 (add32 aligned total) cfg.heapStructSize)
  let m := m.setSize address 0
  let m := m.setNext address 0
  let m := m.setSize aligned (sub32 address aligned)
  let m := m.setNext aligned address
  let size := (m aligned).blockSize
  (m, { layout with heap := { layout.heap with
    endBlock := address
    minimumEverFreeBytesRemaining := size
    freeBytesRemaining := size
    blockAllocatedBit := 2 ^ 31 } })

/-! ## All heaps -/

/-- Replaces the heap at its address. -/
def State.putHeap (st : State) (heap : Heap) : State :=
  { st with memory := st.memory.map fun l => if l.heap.start = heap.start then { l with heap := heap } else l }

def State.findHeap (st : State) (a : Nat) : Option Heap :=
  (st.memory.find? fun l => l.heap.start == a).map MemoryLayout.heap

/-- The loop of `wm_heap_caps_alloc`; 0 stands for NULL. -/
def capsAllocLoop (cfg : Config) (st : State) (size caps : Nat) : List MemoryLayout → Nat × State
  | [] => (0, st)
  | layout :: rest =>
    if capInvalid &&& layout.caps ≠ 0 then capsAllocLoop cfg st size caps rest
    else if caps &&& layout.caps = caps then
      match heapAlloc cfg st.block layout.heap size caps with
      | some (m, heap, block, taken) =>
        let free := st.freeBytesRemaining - taken
        let st := { st with
          block := m
          freeBytesRemaining := free
          minimumEverFreeBytesRemaining := min st.minimumEverFreeBytesRemaining free }
        (block + cfg.heapStructSize, st.putHeap heap)
      | none => capsAllocLoop cfg st size caps rest
    else capsAllocLoop cfg st size caps rest

def wmHeapCapsAlloc (cfg : Config) (st : State) (size caps : Nat) : Nat × State :=
  if size = 0 then (0, st)
  else capsAllocLoop cfg st size (if caps = 0 then capDefault else caps) st.memory

def heapFree (cfg : Config) (st : State) (pv : Nat) : State :=
  let link := pv - cfg.heapStructSize
  match st.findHeap (st.block link).heap with
  | none => st
  | some heap =>
    let m := if cfg.tracing then heapRemoveBlockFromUsedList cfg st.block heap link else st.block
    match releaseBlock m heap link with
    | some (m, heap, size) =>
      { st with block := m, freeBytesRemaining := st.freeBytesRemaining + size }.putHeap heap
    | none => { st with block := m }

def wmHeapCapsFree (cfg : Config) (st : State) (p : Nat) : State :=
  if p = 0 then st else heapFree cfg st p

/-- `memcpy`. -/
def memcpy (byte : Nat → BitVec 8) (dest src n : Nat) : Nat → BitVec 8 :=
  fun a => if dest ≤ a ∧ a < dest + n then byte (src + (a - dest)) else byte a

def wmHeapCapsRealloc (cfg : Config) (st : State) (oldMem newSize caps : Nat) : Nat × State :=
  if oldMem = 0 then wmHeapCapsAlloc cfg st newSize caps
  else if newSize = 0 then (0, wmHeapCapsFree cfg st oldMem)
  else
    let link := oldMem - cfg.heapStructSize
    match st.findHeap (st.block link).heap with
    | none => (0, st)
    | some heap =>
      let caps := if caps = 0 then (st.block link).caps else caps
      let (newMem, st) := wmHeapCapsAlloc cfg st newSize caps
      if newMem = 0 then (0, st)
      else
        let oldSize := (st.block link).blockSize &&& (2 ^ 32 - 1 - heap.blockAllocatedBit)
        let st := { st with byte := memcpy st.byte newMem oldMem (if oldSize ≤ newSize then oldSize else newSize) }
        (newMem, wmHeapCapsFree cfg st oldMem)

/-! ## Set-up -/

/-- One turn of the loop of `wm_heap_init`. -/
def initLayout (cfg : Config) (st : State) (layout : MemoryLayout) : State :=
  if layout.memName = psramName then
    { st with memory := st.memory ++ [{ layout with caps := layout.caps ||| capInvalid }] }
  else
    let (m, layout) := heapInit cfg st.block layout
    { st with
      block := m
      memory := st.memory ++ [layout]
      freeBytesRemaining := st.freeBytesRemaining + layout.heap.freeBytesRemaining
      minimumEverFreeBytesRemaining := st.freeBytesRemaining + layout.heap.freeBytesRemaining }

/-- What `wm_heap_init` makes of the first two entries of `wm_soc_memory`, the SRAM behind
`__bss_end__` and the DRAM behind `_eshram` without its last word. -/
def linkLayouts (bssEnd eshram : Nat) : List MemoryLayout → List MemoryLayout
  | sram :: dram :: rest =>
    { sram with startAddress := bssEnd, sizeInBytes := sub32 sram.sizeInBytes (sub32 bssEnd sram.startAddress) } ::
    { dram with
      startAddress := eshram
      sizeInBytes := sub32 dram.sizeInBytes (add32 (sub32 eshram dram.startAddress) 4) } :: rest
  | layouts => layouts

def wmHeapInit (cfg : Config) (m : Blocks) (byte : Nat → BitVec 8) (layouts : List MemoryLayout)
    (bssEnd eshram : Nat) : State :=
  (linkLayouts bssEnd eshram layouts).foldl (initLayout cfg)
    { block := m, byte := byte, memory := [], freeBytesRemaining := 0, minimumEverFreeBytesRemaining := 0 }

/-- `CONFIG_PSRAM_BASE_ADDR`. -/
def psramBaseAddr : Nat := 0x30000000

/-- The loop of `wm_heap_append_to_heap`, with the entries passed in `done`. The size of the PSRAM
is what its driver detects, if it does. -/
def appendLoop (cfg : Config) (memName : String) (epsram : Nat) (psramSize : Option Nat)
    (done : List MemoryLayout) : List MemoryLayout → State → State
  | [], st => { st with memory := done }
  | layout :: rest, st =>
    if layout.memName ≠ memName then appendLoop cfg memName epsram psramSize (done ++ [layout]) rest st
    else
      let heap := { layout.heap with
        endBlock := 0
        freeBytesRemaining := 0
        minimumEverFreeBytesRemaining := 0
        blockAllocatedBit := 0 }
      match psramSize with
      | none => { st with memory := done ++ { layout with heap := heap } :: rest }
      | some size =>
        let layout := { layout with
          startAddress := epsram
          sizeInBytes := sub32 size (sub32 epsram psramBaseAddr)
          heap := heap }
        if layout.sizeInBytes ≤ cfg.minimumBlockSize then { st with memory := done ++ layout :: rest }
        else
          let (m, layout) := heapInit cfg st.block layout
          let free := st.freeBytesRemaining + layout.heap.freeBytesRemaining
          let st := { st with block := m, freeBytesRemaining := free, minimumEverFreeBytesRemaining := free }
          appendLoop cfg memName epsram psramSize
            (done ++ [{ layout with caps := layout.caps &&& (2 ^ 32 - 1 - capInvalid) }]) rest st

def wmHeapAppendToHeap (cfg : Config) (st : State) (memName : String) (epsram : Nat)
    (psramSize : Option Nat) : State :=
  appendLoop cfg memName epsram psramSize [] st.memory st

end WmIot.Heap
