import Mathlib

/-!
# Splitting a buffer for DMA

`wm_data_align_parser` of `wm_utils.c`: the bytes in front of an aligned address and the ones behind the last
whole word go to the CPU, the words between them to the DMA. An address has 32 bits.
-/

namespace WmIot.Utils
set_option autoImplicit false

/-- `WM_DATA_ALIGN_TYPE_DMA` and `WM_DATA_ALIGN_TYPE_CPU` -/
inductive AlignType where
  | dma
  | cpu
deriving DecidableEq, Repr

/-- `wm_data_align_t`, for an entry that is in use -/
structure DataAlign where
  flag : AlignType
  addr : BitVec 32
  size : Nat
deriving DecidableEq, Repr

/-- The bytes up to an aligned address. -/
def unalignedPart (addr : BitVec 32) : Nat := if addr.toNat % 4 = 0 then 0 else 4 - addr.toNat % 4

/-- The first entry: an address that is not aligned, or a size below a word. -/
def frontPart (addr : BitVec 32) (size : Nat) : List DataAlign :=
  let unaligned := unalignedPart addr
  if 0 < unaligned ∨ size < 4 then
    [⟨.cpu, addr, if (0 < unaligned ∧ size < 4 + unaligned) ∨ size < 4 then size else unaligned⟩]
  else []

def sizes (table : List DataAlign) : Nat := (table.map DataAlign.size).sum

/-- The entry for the DMA. -/
def dmaPart (addr : BitVec 32) (remaining : Nat) : List DataAlign :=
  if 4 ≤ remaining then [⟨.dma, addr + BitVec.ofNat 32 (unalignedPart addr), remaining / 4 * 4⟩] else []

/-- The last entry, behind the one in front of it. -/
def tailPart (table : List DataAlign) (remaining : Nat) : List DataAlign :=
  match table.getLast? with
  | none => []
  | some last => if 0 < remaining then [⟨.cpu, last.addr + BitVec.ofNat 32 last.size, remaining⟩] else []

/-- `wm_data_align_parser`: the entries of the table that are in use, or none for `WM_ERR_INVALID_PARAM`. -/
def wmDataAlignParser (addr size : BitVec 32) : Option (List DataAlign) :=
  if addr = 0#32 ∨ size.toInt ≤ 0 then none
  else
    let front := frontPart addr size.toNat
    let table := front ++ dmaPart addr (size.toNat - sizes front)
    some (table ++ tailPart table (size.toNat - sizes table))

/-! ## The parts of a buffer -/

/-- The entries follow one another from `addr` on and have `n` bytes. -/
def Follows : BitVec 32 → List DataAlign → Nat → Prop
  | _, [], n => n = 0
  | addr, s :: table, n => s.addr = addr ∧ s.size ≤ n ∧ Follows (addr + BitVec.ofNat 32 s.size) table (n - s.size)

/-- The byte at `a` belongs to the entry. -/
def DataAlign.Holds (a : BitVec 32) (s : DataAlign) : Prop := (a - s.addr).toNat < s.size

instance (a : BitVec 32) (s : DataAlign) : Decidable (s.Holds a) := inferInstanceAs (Decidable (_ < _))

/-- A table as the split of the `n` bytes from `addr` on. -/
structure Splits (addr : BitVec 32) (n : Nat) (table : List DataAlign) : Prop where
  three : table.length ≤ 3
  consecutive : Follows addr table n
  once : ∀ a, table.countP (fun s => s.Holds a) = if (a - addr).toNat < n then 1 else 0
  dma : ∀ s ∈ table, s.flag = .dma → s.addr.toNat % 4 = 0 ∧ 0 < s.size ∧ s.size % 4 = 0
  oneDma : table.countP (fun s => s.flag = .dma) ≤ 1
  cpu : ∀ s ∈ table, s.flag = .cpu → 1 ≤ s.size ∧ s.size ≤ 6

/-- Entries that follow one another hold every byte of their range once. -/
theorem Follows.countP : ∀ {table : List DataAlign} {addr : BitVec 32} {n : Nat}, Follows addr table n → n < 2 ^ 32 →
    ∀ a, table.countP (fun s => s.Holds a) = if (a - addr).toNat < n then 1 else 0 := by
  intro table
  induction table with
  | nil =>
    rintro addr n rfl _ a
    rfl
  | cons s table ih =>
    rintro addr n ⟨rfl, hle, hrest⟩ hn a
    have htail := ih hrest (by omega) a
    have hdist : (a - (s.addr + BitVec.ofNat 32 s.size)).toNat =
        ((a - s.addr).toNat + (2 ^ 32 - s.size)) % 2 ^ 32 := by
      simp only [BitVec.toNat_sub, BitVec.toNat_add, BitVec.toNat_ofNat]
      have ha := a.isLt
      have hs := s.addr.isLt
      omega
    have hlt := (a - s.addr).isLt
    rw [List.countP_cons, htail, hdist]
    by_cases hd : (a - s.addr).toNat < s.size
    · have hhead : decide (s.Holds a) = true := decide_eq_true hd
      have hmiss : ¬ ((a - s.addr).toNat + (2 ^ 32 - s.size)) % 2 ^ 32 < n - s.size := by
        rw [Nat.mod_eq_of_lt (by omega)]
        omega
      rw [if_pos hhead, if_neg hmiss, if_pos (Nat.lt_of_lt_of_le hd hle)]
    · have hhead : ¬ decide (s.Holds a) = true := fun h => hd (of_decide_eq_true h)
      have hmod : ((a - s.addr).toNat + (2 ^ 32 - s.size)) % 2 ^ 32 = (a - s.addr).toNat - s.size := by omega
      rw [if_neg hhead, hmod, Nat.add_zero]
      exact if_congr (by omega) rfl rfl

/-- One entry behind the others. -/
theorem Follows.snoc : ∀ {table : List DataAlign} {addr : BitVec 32} {m n : Nat} {s : DataAlign}, Follows addr table m →
    m ≤ n → s.addr = addr + BitVec.ofNat 32 m → s.size = n - m → Follows addr (table ++ [s]) n := by
  intro table
  induction table with
  | nil =>
    rintro addr m n s rfl _ haddr hsize
    rw [Nat.sub_zero] at hsize
    refine ⟨by rw [haddr, BitVec.add_zero], Nat.le_of_eq hsize, ?_⟩
    show n - s.size = 0
    omega
  | cons t table ih =>
    rintro addr m n s ⟨haddr, hle, hrest⟩ hmn hs hsize
    refine ⟨haddr, by omega, ih hrest (by omega) ?_ (by omega)⟩
    rw [hs, BitVec.add_assoc, ← BitVec.ofNat_add]
    congr 2
    omega

theorem aligned_toNat (addr : BitVec 32) : (addr + BitVec.ofNat 32 (unalignedPart addr)).toNat % 4 = 0 := by
  have hlt := addr.isLt
  rw [BitVec.toNat_add, BitVec.toNat_ofNat]
  unfold unalignedPart
  split
  · omega
  · omega

section Parts
variable {addr : BitVec 32} {n : Nat} {front : List DataAlign}

theorem unalignedPart_le (addr : BitVec 32) : unalignedPart addr ≤ 3 := by
  unfold unalignedPart
  split
  · omega
  · omega

/-- A buffer is too small for the DMA, or words follow the bytes up to an aligned address. -/
theorem frontPart_cases (addr : BitVec 32) (n : Nat) :
    (frontPart addr n = [⟨.cpu, addr, n⟩] ∧ n ≤ 6) ∨
      (unalignedPart addr + 4 ≤ n ∧
        frontPart addr n = if 0 < unalignedPart addr then [⟨.cpu, addr, unalignedPart addr⟩] else []) := by
  have hle := unalignedPart_le addr
  unfold frontPart
  dsimp only
  by_cases hsmall : (0 < unalignedPart addr ∧ n < 4 + unalignedPart addr) ∨ n < 4
  · left
    rw [if_pos (by omega), if_pos hsmall]
    exact ⟨rfl, by omega⟩
  · right
    rw [if_neg hsmall]
    exact ⟨by omega, if_congr (by omega) rfl rfl⟩

/-- The entries in front of the words. -/
def shortFront (addr : BitVec 32) : List DataAlign :=
  if 0 < unalignedPart addr then [⟨.cpu, addr, unalignedPart addr⟩] else []

theorem shortFront_follows (addr : BitVec 32) : Follows addr (shortFront addr) (unalignedPart addr) := by
  unfold shortFront
  split
  next => exact ⟨rfl, Nat.le_refl _, Nat.sub_self _⟩
  next h => exact Nat.eq_zero_of_not_pos h

theorem sizes_shortFront (addr : BitVec 32) : sizes (shortFront addr) = unalignedPart addr := by
  unfold shortFront
  split
  next => rfl
  next h => exact (Nat.eq_zero_of_not_pos h).symm

theorem mem_shortFront {s : DataAlign} (hs : s ∈ shortFront addr) : s.flag = .cpu ∧ 1 ≤ s.size ∧ s.size ≤ 6 := by
  have hle := unalignedPart_le addr
  unfold shortFront at hs
  split at hs
  next h =>
    obtain rfl := List.mem_singleton.mp hs
    exact ⟨rfl, h, Nat.le_trans hle (by decide)⟩
  next => exact absurd hs List.not_mem_nil

theorem shortFront_length (addr : BitVec 32) : (shortFront addr).length ≤ 1 := by
  unfold shortFront
  split
  next => exact Nat.le_refl 1
  next => exact Nat.zero_le 1

theorem shortFront_noDma (addr : BitVec 32) : (shortFront addr).countP (fun s => s.flag = .dma) = 0 := by
  apply List.countP_eq_zero.mpr
  intro s hs hdma
  rw [(mem_shortFront hs).1] at hdma
  exact absurd hdma (by decide)

/-- The words of a buffer with their entry, and the bytes behind them with theirs. -/
def restParts (addr : BitVec 32) (m : Nat) : List DataAlign :=
  let words : DataAlign := ⟨.dma, addr, m / 4 * 4⟩
  if 0 < m % 4 then [words, ⟨.cpu, addr + BitVec.ofNat 32 (m / 4 * 4), m % 4⟩] else [words]

theorem parts_eq (hwords : unalignedPart addr + 4 ≤ n) :
    shortFront addr ++ dmaPart addr (n - sizes (shortFront addr)) ++
      tailPart (shortFront addr ++ dmaPart addr (n - sizes (shortFront addr)))
        (n - sizes (shortFront addr ++ dmaPart addr (n - sizes (shortFront addr)))) =
    shortFront addr ++ restParts (addr + BitVec.ofNat 32 (unalignedPart addr)) (n - unalignedPart addr) := by
  have hdma : dmaPart addr (n - unalignedPart addr) =
      [⟨.dma, addr + BitVec.ofNat 32 (unalignedPart addr), (n - unalignedPart addr) / 4 * 4⟩] := if_pos (by omega)
  have hsizes : n - sizes (shortFront addr ++ dmaPart addr (n - unalignedPart addr)) =
      (n - unalignedPart addr) % 4 := by
    have hfront := sizes_shortFront addr
    rw [hdma]
    simp only [sizes, List.map_append, List.sum_append, List.map_cons, List.map_nil, List.sum_cons,
      List.sum_nil] at hfront ⊢
    omega
  rw [sizes_shortFront, hsizes, hdma, tailPart, List.getLast?_append, List.getLast?_singleton, List.append_assoc]
  unfold restParts
  dsimp only [Option.some_or]
  split
  next => rfl
  next => rfl

/-- The words and the bytes behind them complete the entries in front of them. -/
theorem splits_parts (hwords : unalignedPart addr + 4 ≤ n) (hn : n < 2 ^ 32) :
    Splits addr n
      (shortFront addr ++ restParts (addr + BitVec.ofNat 32 (unalignedPart addr)) (n - unalignedPart addr)) := by
  have haligned := aligned_toNat addr
  have hlen := shortFront_length addr
  have hfollows : Follows addr
      (shortFront addr ++ restParts (addr + BitVec.ofNat 32 (unalignedPart addr)) (n - unalignedPart addr)) n := by
    have hfirst : Follows addr (shortFront addr ++
        [⟨.dma, addr + BitVec.ofNat 32 (unalignedPart addr), (n - unalignedPart addr) / 4 * 4⟩])
        (unalignedPart addr + (n - unalignedPart addr) / 4 * 4) :=
      (shortFront_follows addr).snoc (by omega) rfl (by dsimp only; omega)
    unfold restParts
    dsimp only
    split
    next =>
      rw [List.append_cons]
      refine hfirst.snoc (by omega) ?_ (by dsimp only; omega)
      rw [BitVec.add_assoc, ← BitVec.ofNat_add]
    next =>
      have hall : unalignedPart addr + (n - unalignedPart addr) / 4 * 4 = n := by omega
      rwa [hall] at hfirst
  have hmem : ∀ s ∈ restParts (addr + BitVec.ofNat 32 (unalignedPart addr)) (n - unalignedPart addr),
      s = ⟨.dma, addr + BitVec.ofNat 32 (unalignedPart addr), (n - unalignedPart addr) / 4 * 4⟩ ∨
        (s.flag = .cpu ∧ 1 ≤ s.size ∧ s.size ≤ 6) := by
    intro s hs
    unfold restParts at hs
    dsimp only at hs
    split at hs
    next h =>
      rcases List.mem_cons.mp hs with rfl | hs
      · exact Or.inl rfl
      · obtain rfl := List.mem_singleton.mp hs
        exact Or.inr ⟨rfl, h, by dsimp only; omega⟩
    next => exact Or.inl (List.mem_singleton.mp hs)
  have hrest : ∀ a m, (restParts a m).length ≤ 2 ∧ (restParts a m).countP (fun s => s.flag = .dma) = 1 := by
    intro a m
    unfold restParts
    dsimp only
    split
    next => exact ⟨Nat.le_refl 2, rfl⟩
    next => exact ⟨Nat.le_succ 1, rfl⟩
  obtain ⟨hrestLen, hrestDma⟩ := hrest (addr + BitVec.ofNat 32 (unalignedPart addr)) (n - unalignedPart addr)
  refine ⟨?_, hfollows, hfollows.countP hn, ?_, ?_, ?_⟩
  · rw [List.length_append]
    omega
  · intro s hs hflag
    rcases List.mem_append.mp hs with hs | hs
    · rw [(mem_shortFront hs).1] at hflag
      exact absurd hflag (by decide)
    · rcases hmem s hs with rfl | ⟨hcpu, -⟩
      · exact ⟨haligned, by dsimp only; omega, Nat.mul_mod_left _ _⟩
      · rw [hcpu] at hflag
        exact absurd hflag (by decide)
  · exact Nat.le_of_eq (by rw [List.countP_append, shortFront_noDma, hrestDma])
  · intro s hs hflag
    rcases List.mem_append.mp hs with hs | hs
    · exact (mem_shortFront hs).2
    · rcases hmem s hs with rfl | ⟨-, hsize⟩
      · cases hflag
      · exact hsize

/-- A buffer that is too small is one entry. -/
theorem splits_single (addr : BitVec 32) (hpos : 0 < n) (hsmall : n ≤ 6) : Splits addr n [⟨.cpu, addr, n⟩] := by
  have hfollows : Follows addr [⟨.cpu, addr, n⟩] n := ⟨rfl, Nat.le_refl n, Nat.sub_self n⟩
  refine ⟨(by decide : 1 ≤ 3), hfollows, hfollows.countP (Nat.lt_of_le_of_lt hsmall (by decide)), ?_, Nat.zero_le 1, ?_⟩
  · intro s hs hflag
    obtain rfl := List.mem_singleton.mp hs
    cases hflag
  · intro s hs _
    obtain rfl := List.mem_singleton.mp hs
    exact ⟨hpos, hsmall⟩

end Parts

/-- Every buffer at an address other than NULL is split. -/
theorem wmDataAlignParser_splits (addr size : BitVec 32) (haddr : addr ≠ 0#32) (hsize : 0 < size.toInt) :
    ∃ table, wmDataAlignParser addr size = some table ∧ Splits addr size.toNat table := by
  have hn : size.toNat < 2 ^ 32 := size.isLt
  have hpos : 0 < size.toNat := by
    rw [BitVec.toInt_eq_toNat_cond] at hsize
    split at hsize
    · omega
    · omega
  unfold wmDataAlignParser
  dsimp only
  rw [if_neg (by rintro (h | h); exacts [haddr h, absurd hsize (by omega)])]
  refine ⟨_, rfl, ?_⟩
  rcases frontPart_cases addr size.toNat with ⟨hfront, hsmall⟩ | ⟨hwords, hfront⟩
  · have hsizes : size.toNat - sizes [⟨.cpu, addr, size.toNat⟩] = 0 := Nat.sub_self _
    rw [hfront, hsizes]
    have hnone : dmaPart addr 0 = [] := rfl
    rw [hnone, List.append_nil, hsizes]
    exact splits_single addr hpos hsmall
  · rw [hfront]
    exact parts_eq hwords ▸ splits_parts hwords hn

theorem wmDataAlignParser_splits_tail :
    ∃ table, wmDataAlignParser 0x10000002#32 103#32 = some table ∧ Splits 0x10000002#32 103 table :=
  wmDataAlignParser_splits 0x10000002#32 103#32 (by decide) (by decide)

/-- No table is made for NULL. -/
theorem wmDataAlignParser_null : ¬ ∃ table, wmDataAlignParser 0#32 8#32 = some table ∧ Splits 0#32 8 table := by
  rintro ⟨table, htable, -⟩
  cases htable

end WmIot.Utils
