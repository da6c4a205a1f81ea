import WmIot.Flash.ExternalRegion

/-!
# The plan of an erase

The commands of `wm_spi_flash_erase_sectors` with the addresses that are sent. A chip erases the unit an address lies
in; the driver sends the first address of each unit, and each unit of the range once.
-/

namespace WmIot.Flash.External
open NorFlash
set_option autoImplicit false

instance (op : Op) (a : Nat) : Decidable (op.Touches a) :=
  match op with
  | .program _ _ => inferInstanceAs (Decidable (_ ∧ _))
  | .erase _ _ => inferInstanceAs (Decidable (_ ∧ _))

/-- A command for a unit, with the address that is sent. -/
structure EraseCommand where
  unit : Nat
  addr : Nat
deriving DecidableEq, Repr

/-- What the chip does. -/
def EraseCommand.op (c : EraseCommand) : Op := .erase (c.addr / c.unit * c.unit) c.unit

def eraseUnits (unit flashAddr num : Nat) : List EraseCommand :=
  (List.range num).map fun k => ⟨unit, sent (flashAddr + k * unit)⟩

/-- The commands of `wm_spi_flash_erase_sectors`, as they are sent. -/
def erasePlan (hbe : Bool) (flashAddr sectorNum : Nat) : List EraseCommand :=
  let s := split flashAddr sectorNum
  if hbe then
    eraseUnits sectorSize flashAddr s.unaligned ++ eraseUnits blockSize s.alignedStart s.alignedBlocks ++
      eraseUnits sectorSize s.alignedEnd s.remaining
  else eraseUnits sectorSize flashAddr sectorNum

/-- A sector at the address of a sector, or, where the chip has the command, a block at the address of a block. -/
def EraseCommand.Aligned (hbe : Bool) (c : EraseCommand) : Prop :=
  c.unit = sectorSize ∧ c.addr % sectorSize = 0 ∨ hbe = true ∧ c.unit = blockSize ∧ c.addr % blockSize = 0

/-- The write enable, the command and the wait for the chip succeed. -/
def Cycle.Succeeds (c : Cycle) : Prop :=
  waitWren c.enable = .success ∧ c.command = .done ∧ waitIdle c.idle = .success

/-- How many commands erase a byte. -/
def erasures (ops : List Op) (a : Nat) : Nat := ops.countP fun op => op.Touches a

section
variable {hbe : Bool} {cycles : Nat → Cycle} {unit flashAddr num : Nat}

theorem erasePlan_ops (hbe : Bool) (flashAddr num : Nat) :
    (erasePlan hbe flashAddr num).map EraseCommand.op = eraseList hbe flashAddr num := by
  have hunits : ∀ unit flashAddr num, (eraseUnits unit flashAddr num).map EraseCommand.op =
      eraseOps unit flashAddr num := by
    intro unit flashAddr num
    rw [eraseUnits, List.map_map]
    rfl
  unfold erasePlan eraseList
  dsimp only
  split
  next => rw [List.map_append, List.map_append, hunits, hunits, hunits]
  next => exact hunits _ _ _

theorem eraseUnits_aligned (hunit : 0 < unit) (hstart : flashAddr % unit = 0)
    (hle : flashAddr + num * unit ≤ 2 ^ 24) {c : EraseCommand} (hc : c ∈ eraseUnits unit flashAddr num) :
    c.unit = unit ∧ c.addr % unit = 0 := by
  obtain ⟨k, hk, rfl⟩ := List.mem_map.mp hc
  obtain ⟨hsent, _⟩ := sent_unit hunit hle (List.mem_range.mp hk)
  refine ⟨rfl, ?_⟩
  dsimp only
  rw [hsent, Nat.add_mul_mod_self_right]
  exact hstart

theorem erasePlan_aligned (hstart : flashAddr % sectorSize = 0) (hle : flashAddr + num * sectorSize ≤ 2 ^ 24)
    {c : EraseCommand} (hc : c ∈ erasePlan hbe flashAddr num) : c.Aligned hbe := by
  have hsector : 0 < sectorSize := by decide
  have hblock : 0 < blockSize := by decide
  unfold erasePlan at hc
  dsimp only at hc
  cases hbe with
  | false => exact .inl (eraseUnits_aligned hsector hstart hle hc)
  | true =>
    rw [if_pos rfl] at hc
    have hparts := split_parts hstart hle rfl
    rcases List.mem_append.mp hc with hc | hc
    · rcases List.mem_append.mp hc with hc | hc
      · exact .inl (eraseUnits_aligned hsector hstart hparts.front hc)
      · exact .inr ⟨rfl, eraseUnits_aligned hblock hparts.alignedStart hparts.middle hc⟩
    · exact .inl (eraseUnits_aligned hsector hparts.alignedEnd hparts.back hc)

theorem erasures_append (ops ops' : List Op) (a : Nat) :
    erasures (ops ++ ops') a = erasures ops a + erasures ops' a := List.countP_append

/-- Units in a row erase each byte of their range once. -/
theorem erasures_eraseOps (hunit : 0 < unit) (hstart : flashAddr % unit = 0) (a : Nat) : ∀ {num : Nat},
    flashAddr + num * unit ≤ 2 ^ 24 → erasures (eraseOps unit flashAddr num) a =
      if flashAddr ≤ a ∧ a < flashAddr + num * unit then 1 else 0 := by
  intro num
  induction num with
  | zero =>
    intro _
    rw [if_neg (by omega)]
    rfl
  | succ num ih =>
    intro hle
    have hsucc : (num + 1) * unit = num * unit + unit := Nat.succ_mul _ _
    rw [eraseOps_succ hunit hstart hle, erasures_append, ih (by omega)]
    have hlast : erasures [.erase (flashAddr + num * unit) unit] a =
        if flashAddr + num * unit ≤ a ∧ a < flashAddr + num * unit + unit then 1 else 0 := by
      rw [erasures, List.countP_singleton]
      exact if_congr decide_eq_true_iff rfl rfl
    rw [hlast]
    split
    next => rw [if_neg (by omega), if_pos (by omega)]
    next =>
      split
      next => rw [if_pos (by omega)]
      next => rw [if_neg (by omega)]

theorem erasures_eraseList (hstart : flashAddr % sectorSize = 0) (hle : flashAddr + num * sectorSize ≤ 2 ^ 24)
    (a : Nat) : erasures (eraseList hbe flashAddr num) a =
      if flashAddr ≤ a ∧ a < flashAddr + num * sectorSize then 1 else 0 := by
  have hsector : 0 < sectorSize := by decide
  have hblock : 0 < blockSize := by decide
  unfold eraseList
  dsimp only
  cases hbe with
  | false => exact erasures_eraseOps hsector hstart a hle
  | true =>
    rw [if_pos rfl]
    generalize hs : split flashAddr num = s
    obtain ⟨hsum, hbegin, hend, hmax, haligned⟩ := split_spec hstart hle hs
    obtain ⟨hfront, hmiddle, hback, -, hendAligned, hcover⟩ := split_parts hstart hle hs
    rw [erasures_append, erasures_append, erasures_eraseOps hsector hstart a hfront,
      erasures_eraseOps hblock haligned a hmiddle, erasures_eraseOps hsector hendAligned a hback,
      if_congr (hcover a) rfl rfl]
    -- the parts have no byte in common
    have hapart : (s.alignedStart ≤ a ∧ a < s.alignedStart + s.alignedBlocks * blockSize) →
        ¬ (flashAddr ≤ a ∧ a < flashAddr + s.unaligned * sectorSize) := by
      intro h
      have hblocks : s.alignedBlocks ≠ 0 := by
        intro h0
        rw [h0, Nat.zero_mul] at h
        omega
      have := hbegin (.inl hblocks)
      omega
    have hapart' : (s.alignedEnd ≤ a ∧ a < s.alignedEnd + s.remaining * sectorSize) →
        ¬ (s.alignedStart ≤ a ∧ a < s.alignedStart + s.alignedBlocks * blockSize) ∧
          ¬ (flashAddr ≤ a ∧ a < flashAddr + s.unaligned * sectorSize) := by
      intro h
      have hremaining : s.remaining ≠ 0 := by
        intro h0
        rw [h0, Nat.zero_mul] at h
        omega
      have := hbegin (.inr hremaining)
      omega
    by_cases hb : s.alignedEnd ≤ a ∧ a < s.alignedEnd + s.remaining * sectorSize
    · rw [if_pos hb, if_neg (hapart' hb).1, if_neg (hapart' hb).2, if_pos (.inl hb)]
    · by_cases hm : s.alignedStart ≤ a ∧ a < s.alignedStart + s.alignedBlocks * blockSize
      · rw [if_neg hb, if_pos hm, if_neg (hapart hm), if_pos (.inr (.inl hm))]
      · rw [if_neg hb, if_neg hm]
        simp only [hb, hm, false_or, Nat.add_zero]

/-- The commands are those of the plan, each at the address of its unit, and they erase each byte of the range once and
no other. -/
theorem eraseSectors_exact (hstart : flashAddr % sectorSize = 0) (hle : flashAddr + num * sectorSize ≤ 2 ^ 24)
    (hcycles : ∀ k, (cycles k).Succeeds) :
    eraseSectors hbe cycles flashAddr num =
        (.success, carriedOut ((erasePlan hbe flashAddr num).map EraseCommand.op)) ∧
      (∀ c ∈ erasePlan hbe flashAddr num, c.Aligned hbe) ∧
      ∀ a, erasures ((erasePlan hbe flashAddr num).map EraseCommand.op) a =
        if flashAddr ≤ a ∧ a < flashAddr + num * sectorSize then 1 else 0 := by
  have hpass : ∀ k, (cycles k).Passes false :=
    fun k => ⟨(hcycles k).1, fun h => Bool.false_ne_true h.1, (hcycles k).2.2⟩
  have hrun : (eraseSectors hbe cycles flashAddr num).1 = .success := by
    rw [eraseSectors_eq]
    exact runOps_success.1.mpr fun i _ => hpass _
  have hdone : AllDone (eraseSectors hbe cycles flashAddr num).2 := by
    rw [eraseSectors_eq] at hrun ⊢
    rw [runOps_success.2 hrun]
    exact (mem_fates (· = Fate.done)).mpr fun _ _ => (hcycles _).2.1
  rw [erasePlan_ops]
  refine ⟨?_, fun c hc => erasePlan_aligned hstart hle hc, erasures_eraseList hstart hle⟩
  exact Prod.ext hrun (gives_eraseSectors hbe cycles flashAddr num hrun hdone)

end

/-- Two sectors in front of a block, the block, and one sector behind it. -/
theorem eraseSectors_exact_block :
    eraseSectors true (fun _ => quick .done) 0xe000 19 =
        (.success, carriedOut ((erasePlan true 0xe000 19).map EraseCommand.op)) ∧
      (∀ c ∈ erasePlan true 0xe000 19, c.Aligned true) ∧
      ∀ a, erasures ((erasePlan true 0xe000 19).map EraseCommand.op) a =
        if 0xe000 ≤ a ∧ a < 0xe000 + 19 * sectorSize then 1 else 0 :=
  eraseSectors_exact (by decide) (by decide) fun _ => by unfold Cycle.Succeeds; decide

example : erasePlan true 0xe000 19 =
    [⟨0x1000, 0xe000⟩, ⟨0x1000, 0xf000⟩, ⟨0x10000, 0x10000⟩, ⟨0x1000, 0x20000⟩] := by decide

end WmIot.Flash.External
