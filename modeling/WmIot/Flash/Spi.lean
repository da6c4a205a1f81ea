import WmIot.Flash.ReadWrite

/-!
# An external flash on the SPI bus

`wm_drv_ops_external_flash_spi.c`. What the bus does to the transfers of a call is an input. A program or an erase
is transferred behind a write enable and a wait for it, and followed by a wait for the chip; of a program the
driver looks at the result of the transfer, of an erase it does not.
-/

namespace WmIot.Flash.External
open NorFlash
set_option autoImplicit false

inductive Err where
  | success
  | invalidParam
  | noMem
  | failed
  | timeout
deriving DecidableEq, Repr

/-- A transfer takes place, or is not taken by a chip that is busy, or fails on the bus. -/
inductive Fate where
  | done
  | dropped
  | failed
deriving DecidableEq, Repr

/-- The status reads of a wait that the driver has the time for; `none` is one that fails. -/
structure Wait where
  first : Option Byte
  polls : List (Option Byte)

/-- The loop of a wait: a status read that fails leaves the status as it was. -/
def waitLoop (going : Byte → Bool) : Byte → List (Option Byte) → Err
  | rdsr1, [] => if going rdsr1 then .timeout else .success
  | rdsr1, p :: ps => if going rdsr1 then waitLoop going (p.getD rdsr1) ps else .success

/-- `wm_spi_flash_wait_idle` -/
def waitIdle (w : Wait) : Err := waitLoop (fun rdsr1 => rdsr1 &&& 0x1 != 0) (w.first.getD 0) w.polls

/-- `wm_spi_flash_wait_wren` -/
def waitWren (w : Wait) : Err := waitLoop (fun rdsr1 => rdsr1 &&& 0x2 == 0) (w.first.getD 0) w.polls

/-- What the bus does around a program or an erase. The result of the write enable itself is not looked at. -/
structure Cycle where
  enable : Wait
  command : Fate
  idle : Wait

/-- The commands of a call that come to the bus. -/
abbrev Trace := List (Op × Fate)

/-- The loop over commands of `wm_spi_flash_program_pages` and of the erase functions, from the `k`-th command of the
call on; `checked` is whether the result of the transfer counts. -/
def runOps (checked : Bool) (cycles : Nat → Cycle) : List Op → Nat → Err × Trace
  | [], _ => (.success, [])
  | op :: ops, k =>
    let c := cycles k
    if waitWren c.enable ≠ .success then (waitWren c.enable, [])
    else if checked = true ∧ c.command = .failed then (.failed, [(op, c.command)])
    else if waitIdle c.idle ≠ .success then (waitIdle c.idle, [(op, c.command)])
    else
      let rest := runOps checked cycles ops (k + 1)
      (rest.1, (op, c.command) :: rest.2)

/-- `WM_FLS_BLOCK_SIZE` -/
def blockSize : Nat := 0x10000

/-- A command carries three bytes of the address. -/
def sent (addr : Nat) : Nat := addr % 2 ^ 32 % 2 ^ 24

def programOps (flashAddr : Nat) (buf : List Byte) (pageNum : Nat) : List Op :=
  (List.range pageNum).map fun k =>
    .program (sent (flashAddr + k * pageSize)) ((buf.drop (k * pageSize)).take pageSize)

/-- The chip erases the unit of the address. -/
def eraseOps (unit flashAddr num : Nat) : List Op :=
  (List.range num).map fun k => .erase (sent (flashAddr + k * unit) / unit * unit) unit

/-- `wm_spi_flash_program_pages` -/
def programPages (cycles : Nat → Cycle) (flashAddr : Nat) (buf : List Byte) (pageNum : Nat) : Err × Trace :=
  runOps true cycles (programOps flashAddr buf pageNum) 0

/-- `wm_spi_flash_erase_block64k`, from the `k`-th command on. -/
def eraseBlock64k (cycles : Nat → Cycle) (k flashAddr blockNum : Nat) : Err × Trace :=
  runOps false cycles (eraseOps blockSize flashAddr blockNum) k

/-- `wm_spi_flash_erase_by_sector`, from the `k`-th command on. -/
def eraseBySector (cycles : Nat → Cycle) (k flashAddr sectorNum : Nat) : Err × Trace :=
  runOps false cycles (eraseOps sectorSize flashAddr sectorNum) k

/-- How `wm_spi_flash_erase_sectors` splits its range: sectors up to a block, blocks, sectors. -/
structure Split where
  unaligned : Nat
  alignedStart : Nat
  alignedBlocks : Nat
  alignedEnd : Nat
  remaining : Nat

def splitAt (flashAddr alignAddr endAddr : Nat) : Split :=
  let unaligned := ((if endAddr > alignAddr then alignAddr else endAddr) + 2 ^ 32 - flashAddr) % 2 ^ 32 / sectorSize
  let blocksEnd := endAddr / blockSize * blockSize
  let alignedBlocks := if blocksEnd > alignAddr then (blocksEnd - alignAddr) / blockSize else 0
  let alignedEnd := (alignAddr + alignedBlocks * blockSize) % 2 ^ 32
  let remaining := (if endAddr > alignedEnd then endAddr - alignedEnd else 0) / sectorSize
  ⟨unaligned, alignAddr, alignedBlocks, alignedEnd, remaining⟩

def split (flashAddr sectorNum : Nat) : Split :=
  splitAt flashAddr ((flashAddr + (blockSize - 1)) % 2 ^ 32 / blockSize * blockSize)
    ((flashAddr + sectorNum * sectorSize % 2 ^ 32) % 2 ^ 32)

/-- `wm_spi_flash_erase_sectors`; `hbe` is whether the chip has a command for blocks. -/
def eraseSectors (hbe : Bool) (cycles : Nat → Cycle) (flashAddr sectorNum : Nat) : Err × Trace :=
  if hbe then
    let s := split flashAddr sectorNum
    let front := if s.unaligned > 0 then eraseBySector cycles 0 flashAddr s.unaligned else (.success, [])
    if front.1 ≠ .success then front
    else
      let blocks :=
        if s.alignedBlocks > 0 then eraseBlock64k cycles s.unaligned s.alignedStart s.alignedBlocks
        else (.success, [])
      if blocks.1 ≠ .success then (blocks.1, front.2 ++ blocks.2)
      else
        let back :=
          if s.remaining > 0 then eraseBySector cycles (s.unaligned + s.alignedBlocks) s.alignedEnd s.remaining
          else (.success, [])
        (back.1, front.2 ++ blocks.2 ++ back.2)
  else eraseBySector cycles 0 flashAddr sectorNum

/-- A read of one page or sector; what a busy chip puts on the bus is `junk`. -/
structure Read where
  fate : Fate
  junk : Nat → Byte
  idle : Wait

/-- One turn of `wm_spi_flash_read_pages` or `wm_spi_flash_read_sectors`. -/
def readUnit (r : Read) (f : Flash) (flashAddr len : Nat) : Err × List Byte :=
  if r.fate = .failed then (.failed, [])
  else if waitIdle r.idle ≠ .success then (waitIdle r.idle, [])
  else (.success, if r.fate = .done then readBytes f (sent flashAddr) len else (List.range len).map r.junk)

/-- The commands that take place. -/
def taken (t : Trace) : List Op := t.filterMap fun c => if c.2 = .done then some c.1 else none

/-- The content after the commands. -/
def effect (f : Flash) (t : Trace) : Flash := replay f (taken t)

/-! ## Waits -/

/-- A failed first status read is taken for an idle chip. -/
theorem waitIdle_failed (polls : List (Option Byte)) : waitIdle ⟨none, polls⟩ = .success := by
  cases polls <;> simp [waitIdle, waitLoop]

/-! ## Runs of commands -/

section Run
variable {checked : Bool} {cycles : Nat → Cycle} {ops ops' : List Op} {k : Nat}

/-- The cycle does not stop the loop. -/
def Cycle.Passes (checked : Bool) (c : Cycle) : Prop :=
  waitWren c.enable = .success ∧ ¬ (checked = true ∧ c.command = .failed) ∧ waitIdle c.idle = .success

instance (checked : Bool) (c : Cycle) : Decidable (c.Passes checked) :=
  inferInstanceAs (Decidable (_ ∧ ¬ (_ ∧ _) ∧ _))

/-- Every command, with what becomes of it. -/
def fates (cycles : Nat → Cycle) : List Op → Nat → Trace
  | [], _ => []
  | op :: ops, k => (op, (cycles k).command) :: fates cycles ops (k + 1)

theorem runOps_passes (h : (cycles k).Passes checked) (op : Op) (ops : List Op) :
    runOps checked cycles (op :: ops) k =
      ((runOps checked cycles ops (k + 1)).1, (op, (cycles k).command) :: (runOps checked cycles ops (k + 1)).2) := by
  obtain ⟨henable, hcommand, hidle⟩ := h
  rw [runOps]
  dsimp only
  rw [if_neg (not_not.mpr henable), if_neg hcommand, if_neg (not_not.mpr hidle)]

theorem runOps_stops (h : ¬ (cycles k).Passes checked) (op : Op) (ops : List Op) :
    (runOps checked cycles (op :: ops) k).1 ≠ .success ∧
      (runOps checked cycles (op :: ops) k).2 <+: [(op, (cycles k).command)] := by
  rw [runOps]
  dsimp only
  by_cases henable : waitWren (cycles k).enable = .success
  · rw [if_neg (not_not.mpr henable)]
    by_cases hcommand : checked = true ∧ (cycles k).command = .failed
    · rw [if_pos hcommand]
      exact ⟨nofun, List.prefix_rfl⟩
    · rw [if_neg hcommand]
      have hidle : waitIdle (cycles k).idle ≠ .success := fun hidle => h ⟨henable, hcommand, hidle⟩
      rw [if_pos hidle]
      exact ⟨hidle, List.prefix_rfl⟩
  · rw [if_pos henable]
    exact ⟨henable, List.nil_prefix⟩

/-- A loop succeeds exactly if no command stops it, and then every command has come to the bus. -/
theorem runOps_success : ∀ {ops : List Op} {k : Nat},
    ((runOps checked cycles ops k).1 = .success ↔ ∀ i < ops.length, (cycles (k + i)).Passes checked) ∧
      ((runOps checked cycles ops k).1 = .success → (runOps checked cycles ops k).2 = fates cycles ops k) := by
  intro ops
  induction ops with
  | nil => exact fun {k} => ⟨⟨fun _ i hi => absurd hi (Nat.not_lt_zero i), fun _ => rfl⟩, fun _ => rfl⟩
  | cons op ops ih =>
    intro k
    obtain ⟨hiff, htrace⟩ := @ih (k + 1)
    by_cases hpass : (cycles k).Passes checked
    · rw [runOps_passes hpass]
      refine ⟨hiff.trans ⟨fun h i hi => ?_, fun h i hi => ?_⟩, fun h => ?_⟩
      · cases i with
        | zero => exact hpass
        | succ i =>
          have hnext := h i (by rw [List.length_cons] at hi; omega)
          rwa [Nat.add_right_comm] at hnext
      · have hnext := h (i + 1) (by rw [List.length_cons]; omega)
        rwa [← Nat.add_assoc, Nat.add_right_comm] at hnext
      · rw [fates, ← htrace h]
    · obtain ⟨hret, _⟩ := runOps_stops hpass op ops
      refine ⟨⟨fun h => absurd h hret, fun h => ?_⟩, fun h => absurd h hret⟩
      exact absurd (h 0 (Nat.succ_pos _)) hpass

theorem fates_append (cycles : Nat → Cycle) : ∀ {ops : List Op} {k : Nat} (ops' : List Op),
    fates cycles (ops ++ ops') k = fates cycles ops k ++ fates cycles ops' (k + ops.length) := by
  intro ops
  induction ops with
  | nil => exact fun _ => rfl
  | cons op ops ih =>
    intro k ops'
    have hidx : k + 1 + ops.length = k + (op :: ops).length := by
      rw [List.length_cons]
      omega
    rw [List.cons_append, fates, ih, fates, List.cons_append, hidx]

/-- Loops one after the other are one loop. -/
theorem runOps_append : ∀ {ops : List Op} {k : Nat} (ops' : List Op),
    runOps checked cycles (ops ++ ops') k =
      if (runOps checked cycles ops k).1 = .success then
        ((runOps checked cycles ops' (k + ops.length)).1,
          (runOps checked cycles ops k).2 ++ (runOps checked cycles ops' (k + ops.length)).2)
      else runOps checked cycles ops k := by
  intro ops
  induction ops with
  | nil => exact fun _ => rfl
  | cons op ops ih =>
    intro k ops'
    have hidx : k + 1 + ops.length = k + (op :: ops).length := by
      rw [List.length_cons]
      omega
    by_cases hpass : (cycles k).Passes checked
    · rw [List.cons_append, runOps_passes hpass, runOps_passes hpass, ih, hidx]
      dsimp only
      split
      · rfl
      · rfl
    · obtain ⟨hret, _⟩ := runOps_stops hpass op ops
      rw [if_neg hret, List.cons_append, runOps, runOps]
      dsimp only
      by_cases henable : waitWren (cycles k).enable = .success
      · rw [if_neg (not_not.mpr henable), if_neg (not_not.mpr henable)]
        by_cases hcommand : checked = true ∧ (cycles k).command = .failed
        · rw [if_pos hcommand, if_pos hcommand]
        · rw [if_neg hcommand, if_neg hcommand]
          have hidle : waitIdle (cycles k).idle ≠ .success := fun hidle => hpass ⟨henable, hcommand, hidle⟩
          rw [if_pos hidle, if_pos hidle]
      · rw [if_pos henable, if_pos henable]

end Run

/-! ## Erasing sectors -/

/-- The commands of `wm_spi_flash_erase_sectors`. -/
def eraseList (hbe : Bool) (flashAddr sectorNum : Nat) : List Op :=
  let s := split flashAddr sectorNum
  if hbe then
    eraseOps sectorSize flashAddr s.unaligned ++ eraseOps blockSize s.alignedStart s.alignedBlocks ++
      eraseOps sectorSize s.alignedEnd s.remaining
  else eraseOps sectorSize flashAddr sectorNum

section Erase
variable {hbe : Bool} {cycles : Nat → Cycle} {f : Flash} {unit flashAddr num : Nat}

@[simp] theorem eraseOps_length (unit flashAddr num : Nat) : (eraseOps unit flashAddr num).length = num := by
  rw [eraseOps, List.length_map, List.length_range]

theorem runOps_eraseOps (k : Nat) :
    (if num > 0 then runOps false cycles (eraseOps unit flashAddr num) k else (.success, [])) =
      runOps false cycles (eraseOps unit flashAddr num) k := by
  split
  next => rfl
  next h =>
    obtain rfl := Nat.eq_zero_of_not_pos h
    rfl

/-- Three loops of which one that fails ends the call. -/
theorem inTurn_eq (front blocks back : Err × Trace) :
    (if front.1 ≠ .success then front
      else if blocks.1 ≠ .success then (blocks.1, front.2 ++ blocks.2)
      else (back.1, front.2 ++ blocks.2 ++ back.2)) =
    let both := if front.1 = .success then (blocks.1, front.2 ++ blocks.2) else front
    if both.1 = .success then (back.1, both.2 ++ back.2) else both := by
  dsimp only
  by_cases hfront : front.1 = .success
  · rw [if_neg (not_not.mpr hfront), if_pos hfront]
    by_cases hblocks : blocks.1 = .success
    · rw [if_neg (not_not.mpr hblocks), if_pos hblocks]
    · rw [if_pos hblocks, if_neg hblocks]
  · rw [if_pos hfront, if_neg hfront, if_neg hfront]

/-- The three loops run through the commands in turn. -/
theorem eraseSectors_eq (hbe : Bool) (cycles : Nat → Cycle) (flashAddr sectorNum : Nat) :
    eraseSectors hbe cycles flashAddr sectorNum = runOps false cycles (eraseList hbe flashAddr sectorNum) 0 := by
  unfold eraseSectors eraseList eraseBySector eraseBlock64k
  dsimp only
  generalize split flashAddr sectorNum = s
  cases hbe with
  | false => rfl
  | true =>
    rw [if_pos rfl, if_pos rfl]
    simp only [runOps_eraseOps]
    rw [runOps_append, runOps_append, eraseOps_length, List.length_append, eraseOps_length, eraseOps_length,
      Nat.zero_add, Nat.zero_add]
    exact inTurn_eq _ _ _

/-- The address of a unit of the chip comes to it as it is, and the unit ends in the range. -/
theorem sent_unit (hunit : 0 < unit) (hle : flashAddr + num * unit ≤ 2 ^ 24) {k : Nat} (hk : k < num) :
    sent (flashAddr + k * unit) = flashAddr + k * unit ∧ k * unit + unit ≤ num * unit := by
  have hlast : k * unit + unit ≤ num * unit := by
    rw [← Nat.succ_mul]
    exact Nat.mul_le_mul_right unit hk
  refine ⟨?_, hlast⟩
  unfold sent
  omega

/-- The chip erases the unit that is meant. -/
theorem sent_start (hunit : 0 < unit) (hstart : flashAddr % unit = 0) (hle : flashAddr + num * unit ≤ 2 ^ 24)
    {k : Nat} (hk : k < num) : sent (flashAddr + k * unit) / unit * unit = flashAddr + k * unit := by
  rw [(sent_unit hunit hle hk).1]
  apply Nat.div_mul_cancel
  exact (Nat.dvd_add_right (Nat.dvd_of_mod_eq_zero hstart)).mpr (Nat.dvd_mul_left _ _)

/-- The last unit of the chip's range. -/
theorem eraseOps_succ (hunit : 0 < unit) (hstart : flashAddr % unit = 0)
    (hle : flashAddr + (num + 1) * unit ≤ 2 ^ 24) :
    eraseOps unit flashAddr (num + 1) = eraseOps unit flashAddr num ++ [.erase (flashAddr + num * unit) unit] := by
  have haddr : sent (flashAddr + num * unit) / unit * unit = flashAddr + num * unit :=
    sent_start hunit hstart hle (Nat.lt_succ_self num)
  rw [eraseOps, List.range_succ, List.map_append, List.map_singleton, haddr, eraseOps]

/-- Erasing units of the chip erases their whole range. -/
theorem replay_eraseOps (hunit : 0 < unit) (hstart : flashAddr % unit = 0) (f : Flash) : ∀ {num : Nat},
    flashAddr + num * unit ≤ 2 ^ 24 → ∀ a, replay f (eraseOps unit flashAddr num) a =
      if flashAddr ≤ a ∧ a < flashAddr + num * unit then blank else f a := by
  intro num
  induction num with
  | zero =>
    intro _ a
    rw [if_neg (by omega)]
    rfl
  | succ num ih =>
    intro hle a
    have hsucc : (num + 1) * unit = num * unit + unit := Nat.succ_mul _ _
    rw [eraseOps_succ hunit hstart hle, replay_append, replay_cons, replay_nil]
    simp only [Op.apply, erase]
    rw [ih (by omega) a]
    split
    next => rw [if_pos (by omega)]
    next =>
      split
      next => rw [if_pos (by omega)]
      next => rw [if_neg (by omega)]

theorem eraseOps_touches (hunit : 0 < unit) (hstart : flashAddr % unit = 0) (hle : flashAddr + num * unit ≤ 2 ^ 24)
    {op : Op} (hop : op ∈ eraseOps unit flashAddr num) {a : Nat} (ha : op.Touches a) :
    flashAddr ≤ a ∧ a < flashAddr + num * unit := by
  obtain ⟨k, hk, rfl⟩ := List.mem_map.mp hop
  have hk := List.mem_range.mp hk
  obtain ⟨_, hlast⟩ := sent_unit hunit hle hk
  rw [sent_start hunit hstart hle hk] at ha
  simp only [Op.Touches] at ha
  omega

theorem ite_sub (m n unit : Nat) : (if m > n then (m - n) / unit else 0) = (m - n) / unit := by
  split
  next => rfl
  next h => rw [Nat.sub_eq_zero_of_le (Nat.le_of_not_lt h), Nat.zero_div]

theorem splitAt_eq (flashAddr al e : Nat) :
    splitAt flashAddr al e =
      ⟨(min e al + 2 ^ 32 - flashAddr) % 2 ^ 32 / sectorSize, al, (e / blockSize * blockSize - al) / blockSize,
        (al + (e / blockSize * blockSize - al) / blockSize * blockSize) % 2 ^ 32,
        (e - (al + (e / blockSize * blockSize - al) / blockSize * blockSize) % 2 ^ 32) / sectorSize⟩ := by
  have hmin : (if e > al then al else e) = min e al := by
    rcases Nat.lt_or_ge al e with h | h
    · rw [if_pos h, Nat.min_eq_right (Nat.le_of_lt h)]
    · rw [if_neg (Nat.not_lt.mpr h), Nat.min_eq_left h]
  have hsub : ∀ n, (if e > n then e - n else 0) = e - n := by
    intro n
    have hone := ite_sub e n 1
    rwa [Nat.div_one] at hone
  unfold splitAt
  dsimp only
  rw [hmin, ite_sub, hsub]

/-- The three parts of a range follow one another. -/
theorem splitAt_spec {al e : Nat} (hstart : flashAddr % sectorSize = 0) (hend : e % sectorSize = 0)
    (hle : flashAddr ≤ e ∧ e ≤ 2 ^ 24) (hal : flashAddr ≤ al ∧ al ≤ 2 ^ 24) (hblock : al % blockSize = 0)
    {s : Split} (hs : splitAt flashAddr al e = s) :
    flashAddr + s.unaligned * sectorSize + s.alignedBlocks * blockSize + s.remaining * sectorSize = e ∧
      (s.alignedBlocks ≠ 0 ∨ s.remaining ≠ 0 → s.alignedStart = flashAddr + s.unaligned * sectorSize) ∧
      s.alignedEnd = s.alignedStart + s.alignedBlocks * blockSize ∧ s.alignedEnd ≤ 2 ^ 24 ∧
      s.alignedStart % blockSize = 0 := by
  subst hs
  rw [splitAt_eq]
  dsimp only
  have hblocksEnd : e / blockSize * blockSize ≤ e := Nat.div_mul_le_self e blockSize
  have hrest : e - e / blockSize * blockSize < blockSize := by
    unfold blockSize
    omega
  have hdvd : e / blockSize * blockSize % blockSize = 0 := Nat.mul_mod_left _ _
  have hsector : e / blockSize * blockSize % sectorSize = 0 := by
    unfold blockSize sectorSize
    omega
  generalize e / blockSize * blockSize = blocksEnd at *
  unfold sectorSize blockSize at *
  omega

theorem split_spec (hstart : flashAddr % sectorSize = 0) (hle : flashAddr + num * sectorSize ≤ 2 ^ 24)
    {s : Split} (hs : split flashAddr num = s) :
    flashAddr + s.unaligned * sectorSize + s.alignedBlocks * blockSize + s.remaining * sectorSize =
        flashAddr + num * sectorSize ∧
      (s.alignedBlocks ≠ 0 ∨ s.remaining ≠ 0 → s.alignedStart = flashAddr + s.unaligned * sectorSize) ∧
      s.alignedEnd = s.alignedStart + s.alignedBlocks * blockSize ∧ s.alignedEnd ≤ 2 ^ 24 ∧
      s.alignedStart % blockSize = 0 := by
  have hend : (flashAddr + num * sectorSize % 2 ^ 32) % 2 ^ 32 = flashAddr + num * sectorSize := by omega
  have hfull : (flashAddr + num * sectorSize) % sectorSize = 0 := by
    rw [Nat.add_mul_mod_self_right]
    exact hstart
  rw [split, hend] at hs
  refine splitAt_spec hstart hfull ⟨Nat.le_add_right _ _, hle⟩ ?_ (Nat.mul_mod_left _ _) hs
  unfold blockSize
  omega

/-- The parts of a range: they lie in the chip, and a byte of the range is in one of them. -/
structure Parts (s : Split) (flashAddr num : Nat) : Prop where
  front : flashAddr + s.unaligned * sectorSize ≤ 2 ^ 24
  middle : s.alignedStart + s.alignedBlocks * blockSize ≤ 2 ^ 24
  back : s.alignedEnd + s.remaining * sectorSize ≤ 2 ^ 24
  alignedStart : s.alignedStart % blockSize = 0
  alignedEnd : s.alignedEnd % sectorSize = 0
  cover : ∀ a, (flashAddr ≤ a ∧ a < flashAddr + num * sectorSize) ↔
    (s.alignedEnd ≤ a ∧ a < s.alignedEnd + s.remaining * sectorSize) ∨
      (s.alignedStart ≤ a ∧ a < s.alignedStart + s.alignedBlocks * blockSize) ∨
        (flashAddr ≤ a ∧ a < flashAddr + s.unaligned * sectorSize)

theorem split_parts (hstart : flashAddr % sectorSize = 0) (hle : flashAddr + num * sectorSize ≤ 2 ^ 24)
    {s : Split} (hs : split flashAddr num = s) : Parts s flashAddr num := by
  obtain ⟨hsum, hbegin, hend, hmax, haligned⟩ := split_spec hstart hle hs
  have hendAligned : s.alignedEnd % sectorSize = 0 := by
    rw [hend, ← Nat.mod_mod_of_dvd _ (show sectorSize ∣ blockSize by decide), Nat.add_mul_mod_self_right, haligned,
      Nat.zero_mod]
  have hback : s.alignedEnd + s.remaining * sectorSize ≤ 2 ^ 24 := by
    by_cases h : s.remaining = 0
    · rw [h, Nat.zero_mul, Nat.add_zero]
      exact hmax
    · have := hbegin (.inr h)
      omega
  refine ⟨by omega, hend ▸ hmax, hback, haligned, hendAligned, fun a => ?_⟩
  by_cases h : s.alignedBlocks ≠ 0 ∨ s.remaining ≠ 0
  · have := hbegin h
    omega
  · obtain ⟨hblocks, hremaining⟩ := not_or.mp h
    have hnoBlocks : s.alignedBlocks * blockSize = 0 := by rw [not_not.mp hblocks, Nat.zero_mul]
    have hnoRemaining : s.remaining * sectorSize = 0 := by rw [not_not.mp hremaining, Nat.zero_mul]
    omega

/-- Blocks or no blocks, the commands erase exactly the sectors of the range. -/
theorem eraseList_spec (hbe : Bool) (hstart : flashAddr % sectorSize = 0)
    (hle : flashAddr + num * sectorSize ≤ 2 ^ 24) :
    (∀ f a, replay f (eraseList hbe flashAddr num) a =
        if flashAddr ≤ a ∧ a < flashAddr + num * sectorSize then blank else f a) ∧
      ∀ op ∈ eraseList hbe flashAddr num, ∀ a, op.Touches a → flashAddr ≤ a ∧ a < flashAddr + num * sectorSize := by
  have hsector : 0 < sectorSize := by decide
  have hblock : 0 < blockSize := by decide
  unfold eraseList
  dsimp only
  cases hbe with
  | false =>
    rw [if_neg Bool.false_ne_true]
    exact ⟨fun f a => replay_eraseOps hsector hstart f hle a, fun op hop a => eraseOps_touches hsector hstart hle hop⟩
  | true =>
    rw [if_pos rfl]
    generalize hs : split flashAddr num = s
    obtain ⟨hfront, hmiddle, hback, haligned, hendAligned, hparts⟩ := split_parts hstart hle hs
    refine ⟨fun f a => ?_, fun op hop a ha => (hparts a).mpr ?_⟩
    · rw [replay_append, replay_append, replay_eraseOps hsector hendAligned _ hback,
        replay_eraseOps hblock haligned _ hmiddle, replay_eraseOps hsector hstart _ hfront, if_congr (hparts a) rfl rfl,
        ite_or, ite_or]
    · rcases List.mem_append.mp hop with hop | hop
      · rcases List.mem_append.mp hop with hop | hop
        · exact .inr (.inr (eraseOps_touches hsector hstart hfront hop ha))
        · exact .inr (.inl (eraseOps_touches hblock haligned hmiddle hop ha))
      · exact .inl (eraseOps_touches hsector hendAligned hback hop ha)

end Erase

end WmIot.Flash.External
