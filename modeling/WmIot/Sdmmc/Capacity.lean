import Mathlib

/-!
# Capacity and addresses of an SD card

`wm_drv_sdh_sdmmc_card_get_csd` on the words of the response, and what `read_blocks` and `write_blocks` make
of a range of blocks before they take the mutex and send a command.
-/

namespace WmIot.Sdmmc
set_option autoImplicit false

/-! ## The register -/

inductive CsdVer where
  | ver1
  | ver2
deriving DecidableEq, Repr

/-- `wm_drv_sdh_sdmmc_card_info_t` as far as it says how the card is addressed -/
structure CardInfo where
  /-- in bytes -/
  capacity : Nat
  blockSize : Nat
  csdVer : CsdVer
deriving DecidableEq, Repr

/-- What becomes of the command. A shift by a negative number has no meaning. -/
inductive Csd where
  | failed
  | undefined
  | ok (info : CardInfo)
deriving DecidableEq, Repr

/-- `adjust_resp[k]` -/
def adjustResp (cmdRsp : Nat → BitVec 32) (k : Nat) : Nat :=
  (cmdRsp (3 - k / 4)).toNat >>> (24 - 8 * (k % 4)) % 256

/-- `wm_drv_sdh_sdmmc_card_get_csd` -/
def cardGetCsd (cmdRsp : Nat → BitVec 32) : Csd :=
  if (cmdRsp 3).toNat >>> 24 ≠ 0x3F then .failed
  else
    let a := adjustResp cmdRsp
    if a 1 &&& 0x40 = 0x40 then
      let csize := a 10 + a 9 <<< 8 + (a 8 &&& 63) <<< 16 + 1
      let capacity := csize <<< 9 % 2 ^ 32
      .ok ⟨capacity * 1024, 512, .ver2⟩
    else
      let n := (a 6 &&& 0x0F) + (a 11 &&& 0x80) >>> 7 + (a 10 &&& 0x03) <<< 1 + 2
      let csize := a 9 >>> 6 + a 8 <<< 2 + (a 7 &&& 0x03) <<< 10 + 1
      if n < 10 then .undefined
      else
        let capacity := csize <<< (n - 10) % 2 ^ 32
        .ok ⟨capacity * 1024, 512, .ver1⟩

/-! ## A range of blocks -/

inductive Dir where
  | read
  | write
deriving DecidableEq, Repr

/-- `WM_DRV_SDH_SDMMC_MAX_NUM_BLOCKS` -/
def maxNumBlocks : Nat := 127

/-- The checks of `wm_drv_ops_sdh_sdmmc_read_blocks` and `wm_drv_ops_sdh_sdmmc_write_blocks`. -/
def inRange (info : CardInfo) (startBlock numBlocks : BitVec 32) : Bool :=
  !(numBlocks = 0 ∨ maxNumBlocks < numBlocks.toNat) &&
    !((startBlock + numBlocks).toNat ≤ 0 ∨
      (info.capacity / info.blockSize) % 2 ^ 32 < (startBlock + numBlocks).toNat)

/-- `cmd_id` -/
def cmdId (dir : Dir) (numBlocks : BitVec 32) : Nat :=
  match dir with
  | .read => if numBlocks = 1 then 17 else 18
  | .write => if numBlocks = 1 then 24 else 25

/-- `cmd_arg` -/
def cmdArg (info : CardInfo) (startBlock : BitVec 32) : BitVec 32 :=
  if info.csdVer = .ver1 then startBlock * 512 else startBlock

/-! ## The specification of the card -/

/-- The words of the response: the header, and the register without its last byte. -/
def response (csd : BitVec 128) (i : Nat) : BitVec 32 :=
  BitVec.ofNat 32 ((0x3F * 2 ^ 120 + csd.toNat / 256) / 2 ^ (32 * i))

/-- The bits `lo`, …, `lo + len - 1` of the register. -/
def field (csd : BitVec 128) (lo len : Nat) : Nat := csd.toNat / 2 ^ lo % 2 ^ len

def csdStructure (csd : BitVec 128) : Nat := field csd 126 2

/-- READ_BL_LEN + C_SIZE_MULT + 2 -/
def unitBits (csd : BitVec 128) : Nat := field csd 80 4 + field csd 47 3 + 2

/-- In bytes, for the two versions. -/
def specCapacity (csd : BitVec 128) : Nat :=
  if csdStructure csd = 0 then (field csd 62 12 + 1) * 2 ^ (field csd 47 3 + 2) * 2 ^ field csd 80 4
  else (field csd 48 22 + 1) * (512 * 1024)

theorem div_mod_div (x a : Nat) {b : Nat} (hb : b ≤ 24) : x / 2 ^ a % 2 ^ 32 / 2 ^ b % 2 ^ 8 = x / 2 ^ (a + b) % 2 ^ 8 := by
  have hsplit : 2 ^ 32 = 2 ^ b * 2 ^ (32 - b) := by rw [← pow_add, Nat.add_sub_cancel' (by omega)]
  have hdvd : 2 ^ 8 ∣ 2 ^ (32 - b) := pow_dvd_pow 2 (by omega)
  rw [hsplit, Nat.mod_mul_right_div_self, Nat.mod_mod_of_dvd _ hdvd, Nat.div_div_eq_div_mul, ← pow_add]

section Csd
variable (csd : BitVec 128)

theorem response_header : (response csd 3).toNat >>> 24 = 0x3F := by
  have hlt := csd.isLt
  simp only [response, BitVec.toNat_ofNat, Nat.shiftRight_eq_div_pow]
  omega

/-- Behind the header stand the bytes of the register. -/
theorem adjustResp_eq {k : Nat} (hpos : 1 ≤ k) (hk : k < 16) :
    adjustResp (response csd) k = csd.toNat / 2 ^ (128 - 8 * k) % 256 := by
  have hhead : 0x3F * 2 ^ 120 = 2 ^ (120 - 8 * k) * (2 ^ 8 * (0x3F * 2 ^ (8 * k - 8))) := by
    have hpow : 2 ^ 120 = 2 ^ (120 - 8 * k) * (2 ^ 8 * 2 ^ (8 * k - 8)) := by
      rw [← pow_add, ← pow_add, show 120 - 8 * k + (8 + (8 * k - 8)) = 120 by omega]
    rw [hpow]
    ring
  have hexp : 32 * (3 - k / 4) + (24 - 8 * (k % 4)) = 120 - 8 * k := by omega
  rw [adjustResp, response, BitVec.toNat_ofNat, Nat.shiftRight_eq_div_pow, show 256 = 2 ^ 8 from rfl,
    div_mod_div _ _ (by omega), hexp, hhead, Nat.mul_add_div (by positivity), Nat.mul_add_mod,
    Nat.div_div_eq_div_mul, ← pow_add, show 8 + (120 - 8 * k) = 128 - 8 * k by omega]

/-- The masks and shifts of a byte. -/
theorem byte_fields : ∀ a < 256, (a &&& 0x40 = 0x40 ↔ a / 64 % 2 = 1) ∧ a &&& 63 = a % 64 ∧ a &&& 0x0F = a % 16 ∧
    a &&& 0x03 = a % 4 ∧ (a &&& 0x80) >>> 7 = a / 128 ∧ a >>> 6 = a / 64 := by decide +kernel

/-- Bit 126 tells the versions apart, and the fields are those of the specification. -/
theorem cardGetCsd_eq : cardGetCsd (response csd) =
    if csdStructure csd % 2 = 1 then .ok ⟨(field csd 48 22 + 1) * (512 * 1024), 512, .ver2⟩
    else if unitBits csd < 10 then .undefined
    else .ok ⟨(field csd 62 12 + 1) * 2 ^ (unitBits csd - 10) * 1024, 512, .ver1⟩ := by
  have hbyte : ∀ k, adjustResp (response csd) k < 256 := fun k => Nat.mod_lt _ (by decide)
  obtain ⟨h1, _⟩ := byte_fields _ (hbyte 1)
  obtain ⟨_, _, h6, _⟩ := byte_fields _ (hbyte 6)
  obtain ⟨_, _, _, h7, _⟩ := byte_fields _ (hbyte 7)
  obtain ⟨_, h8, _⟩ := byte_fields _ (hbyte 8)
  obtain ⟨_, _, _, _, _, h9⟩ := byte_fields _ (hbyte 9)
  obtain ⟨_, _, _, h10, _⟩ := byte_fields _ (hbyte 10)
  obtain ⟨_, _, _, _, h11, _⟩ := byte_fields _ (hbyte 11)
  have hversion : adjustResp (response csd) 1 / 64 % 2 = csdStructure csd % 2 := by
    rw [adjustResp_eq csd (by decide) (by decide), csdStructure, field]
    omega
  have hunits : adjustResp (response csd) 6 % 16 + adjustResp (response csd) 11 / 128 +
      (adjustResp (response csd) 10 % 4) * 2 + 2 = unitBits csd := by
    rw [adjustResp_eq csd (by decide) (by decide), adjustResp_eq csd (by decide) (by decide),
      adjustResp_eq csd (by decide) (by decide), unitBits, field, field]
    omega
  have hsize₁ : adjustResp (response csd) 9 / 64 + adjustResp (response csd) 8 * 4 +
      (adjustResp (response csd) 7 % 4) * 1024 = field csd 62 12 := by
    rw [adjustResp_eq csd (by decide) (by decide), adjustResp_eq csd (by decide) (by decide),
      adjustResp_eq csd (by decide) (by decide), field]
    omega
  have hsize₂ : adjustResp (response csd) 10 + adjustResp (response csd) 9 * 256 +
      (adjustResp (response csd) 8 % 64) * 65536 = field csd 48 22 := by
    rw [adjustResp_eq csd (by decide) (by decide), adjustResp_eq csd (by decide) (by decide),
      adjustResp_eq csd (by decide) (by decide), field]
    omega
  have hlt₁ : field csd 62 12 < 2 ^ 12 := Nat.mod_lt _ (by decide)
  have hlt₂ : field csd 48 22 < 2 ^ 22 := Nat.mod_lt _ (by decide)
  have hunit : unitBits csd ≤ 24 := by rw [unitBits, field, field]; omega
  rw [cardGetCsd, if_neg (by rw [response_header]; decide)]
  dsimp only
  simp only [h1, h6, h7, h8, h9, h10, h11, hversion, Nat.shiftLeft_eq]
  split
  · rw [show adjustResp (response csd) 10 + adjustResp (response csd) 9 * 2 ^ 8 +
      adjustResp (response csd) 8 % 64 * 2 ^ 16 = field csd 48 22 from hsize₂]
    have hsmall : (field csd 48 22 + 1) * 2 ^ 9 < 2 ^ 32 :=
      (Nat.mul_le_mul_right _ (Nat.succ_le_of_lt hlt₂)).trans_lt (by decide)
    rw [Nat.mod_eq_of_lt hsmall, Nat.mul_assoc]
    rfl
  · rw [show adjustResp (response csd) 6 % 16 + adjustResp (response csd) 11 / 128 +
        adjustResp (response csd) 10 % 4 * 2 ^ 1 + 2 = unitBits csd from hunits,
      show adjustResp (response csd) 9 / 64 + adjustResp (response csd) 8 * 2 ^ 2 +
        adjustResp (response csd) 7 % 4 * 2 ^ 10 = field csd 62 12 from hsize₁]
    split
    · rfl
    · have hpow : 2 ^ (unitBits csd - 10) ≤ 2 ^ 14 := Nat.pow_le_pow_right (by decide) (by omega)
      have hsmall : (field csd 62 12 + 1) * 2 ^ (unitBits csd - 10) < 2 ^ 32 :=
        (Nat.mul_le_mul (Nat.succ_le_of_lt hlt₁) hpow).trans_lt (by decide)
      rw [Nat.mod_eq_of_lt hsmall]

/-! ## Which blocks are addressed -/

variable (startBlock numBlocks : BitVec 32)

/-- The capacity is that of the specification, a range is accepted when it lies on the card, and the command
then addresses its first block. -/
def Addressed : Prop :=
  ∃ info, cardGetCsd (response csd) = .ok info ∧
    (csdStructure csd ≤ 1 → info.capacity = specCapacity csd) ∧
    (inRange info startBlock numBlocks = true ↔
      1 ≤ numBlocks.toNat ∧ numBlocks.toNat ≤ maxNumBlocks ∧
        startBlock.toNat + numBlocks.toNat ≤ info.capacity / 512) ∧
    (inRange info startBlock numBlocks = true →
      (cmdArg info startBlock).toNat = if csdStructure csd = 0 then startBlock.toNat * 512 else startBlock.toNat)

/-- The blocks of the card -/
def blocks : Nat :=
  if csdStructure csd % 2 = 1 then (field csd 48 22 + 1) * 1024
  else (field csd 62 12 + 1) * 2 ^ (unitBits csd - 9)

/-- The sum, cut to 32 bits, is compared like the sum: it does not come round to a block of the card, and the
number of blocks is not cut to 0. -/
def SumFits : Prop :=
  blocks csd < 2 ^ 32 ∧ ¬ (2 ^ 32 < startBlock.toNat + numBlocks.toNat ∧
      startBlock.toNat + numBlocks.toNat ≤ 2 ^ 32 + blocks csd) ∨
    blocks csd = 2 ^ 32 ∧ 2 ^ 32 < startBlock.toNat + numBlocks.toNat

/-- The condition under which the code is right. -/
structure Fits : Prop where
  shift : csdStructure csd % 2 = 0 → 10 ≤ unitBits csd
  sum : 1 ≤ numBlocks.toNat → numBlocks.toNat ≤ maxNumBlocks → SumFits csd startBlock numBlocks
  address : 1 ≤ numBlocks.toNat → numBlocks.toNat ≤ maxNumBlocks →
    startBlock.toNat + numBlocks.toNat ≤ blocks csd →
      (csdStructure csd = 0 → startBlock.toNat < 2 ^ 23) ∧ (csdStructure csd = 2 → startBlock = 0)

theorem blocks_le : csdStructure csd % 2 = 1 ∨ 10 ≤ unitBits csd → blocks csd ≤ 2 ^ 32 := by
  have hlt₁ : field csd 62 12 < 2 ^ 12 := Nat.mod_lt _ (by decide)
  have hlt₂ : field csd 48 22 < 2 ^ 22 := Nat.mod_lt _ (by decide)
  have hunit : unitBits csd ≤ 24 := by rw [unitBits, field, field]; omega
  have hpow : 2 ^ (unitBits csd - 9) ≤ 2 ^ 15 := Nat.pow_le_pow_right (by decide) (by omega)
  intro _
  rw [blocks]
  split
  · omega
  · exact (Nat.mul_le_mul (Nat.succ_le_of_lt hlt₁) hpow).trans (by decide)

/-- What the card information is where there is no shift by a negative number. -/
theorem cardGetCsd_ok (h : csdStructure csd % 2 = 0 → 10 ≤ unitBits csd) : ∃ info,
    cardGetCsd (response csd) = .ok info ∧ info.blockSize = 512 ∧ info.capacity / 512 = blocks csd ∧
      (csdStructure csd ≤ 1 → info.capacity = specCapacity csd) ∧
      (info.csdVer = .ver1 ↔ csdStructure csd % 2 = 0) := by
  rw [cardGetCsd_eq]
  by_cases hver : csdStructure csd % 2 = 1
  · rw [if_pos hver]
    refine ⟨_, rfl, rfl, ?_, ?_, ?_⟩
    · rw [blocks, if_pos hver, ← Nat.mul_assoc, Nat.mul_right_comm, Nat.mul_div_cancel _ (by decide)]
    · intro hle
      rw [specCapacity, if_neg (by omega)]
    · simp [hver]
  · have hunit := h (by omega)
    rw [if_neg hver, if_neg (by omega)]
    have hpow : 2 ^ (unitBits csd - 9) = 2 ^ (unitBits csd - 10) * 2 := by
      rw [← pow_succ, show unitBits csd - 10 + 1 = unitBits csd - 9 by omega]
    refine ⟨_, rfl, rfl, ?_, ?_, ?_⟩
    · rw [blocks, if_neg hver, hpow, ← Nat.mul_assoc, show 1024 = 2 * 512 from rfl, ← Nat.mul_assoc,
        Nat.mul_div_cancel _ (by decide)]
    · intro hle
      have hpow' : 2 ^ (field csd 47 3 + 2) * 2 ^ field csd 80 4 = 2 ^ (unitBits csd - 10) * 1024 := by
        rw [← pow_add, show 1024 = 2 ^ 10 from rfl, ← pow_add]
        congr 1
        rw [unitBits] at hunit ⊢
        omega
      rw [specCapacity, if_pos (by omega), Nat.mul_assoc, Nat.mul_assoc, hpow']
    · simp only [true_iff]
      omega

/-- The checks, on the sum cut to 32 bits. -/
theorem inRange_iff {info : CardInfo} (hsize : info.blockSize = 512) :
    inRange info startBlock numBlocks = true ↔ 1 ≤ numBlocks.toNat ∧ numBlocks.toNat ≤ maxNumBlocks ∧
      0 < (startBlock.toNat + numBlocks.toNat) % 2 ^ 32 ∧
        (startBlock.toNat + numBlocks.toNat) % 2 ^ 32 ≤ info.capacity / 512 % 2 ^ 32 := by
  have hzero : numBlocks = 0 ↔ numBlocks.toNat = 0 := by
    rw [← BitVec.toNat_inj]
    rfl
  simp only [inRange, hsize, BitVec.toNat_add, hzero, Bool.and_eq_true, Bool.not_eq_true', decide_eq_false_iff_not]
  omega

/-- The blocks are addressed exactly under that condition. -/
theorem addressed_iff : Addressed csd startBlock numBlocks ↔ Fits csd startBlock numBlocks := by
  have hs := startBlock.isLt
  have hn := numBlocks.isLt
  by_cases hshift : csdStructure csd % 2 = 0 → 10 ≤ unitBits csd
  · obtain ⟨info, hok, hsize, hblocks, hcap, hver⟩ := cardGetCsd_ok csd hshift
    have hle : info.capacity / 512 ≤ 2 ^ 32 := by
      rw [hblocks]
      exact blocks_le csd (by omega)
    have hrange := inRange_iff startBlock numBlocks hsize
    rw [hblocks] at hrange hle
    have hsum : (1 ≤ numBlocks.toNat → numBlocks.toNat ≤ maxNumBlocks → SumFits csd startBlock numBlocks) ↔
        (inRange info startBlock numBlocks = true ↔ 1 ≤ numBlocks.toNat ∧ numBlocks.toNat ≤ maxNumBlocks ∧
          startBlock.toNat + numBlocks.toNat ≤ info.capacity / 512) := by
      rw [hrange, hblocks, SumFits, maxNumBlocks]
      omega
    have haddr : ((cmdArg info startBlock).toNat =
        if csdStructure csd = 0 then startBlock.toNat * 512 else startBlock.toNat) ↔
        (csdStructure csd = 0 → startBlock.toNat < 2 ^ 23) ∧ (csdStructure csd = 2 → startBlock = 0) := by
      have hlt : csdStructure csd < 4 := Nat.mod_lt _ (by decide)
      have hzero : startBlock = 0 ↔ startBlock.toNat = 0 := by
        rw [← BitVec.toNat_inj]
        rfl
      rw [cmdArg, hzero]
      by_cases hver' : csdStructure csd % 2 = 0
      · rw [if_pos (hver.mpr hver'), BitVec.toNat_mul, show BitVec.toNat (512 : BitVec 32) = 512 from rfl]
        split <;> omega
      · rw [if_neg (mt hver.mp hver'), if_neg (by omega)]
        omega
    constructor
    · rintro ⟨info', hok', _, hiff, harg⟩
      rw [hok] at hok'
      obtain rfl := Csd.ok.inj hok'
      refine ⟨hshift, hsum.mpr hiff, fun hone hmax hin => haddr.mp (harg (hiff.mpr ⟨hone, hmax, ?_⟩))⟩
      rwa [hblocks]
    · intro h
      have hiff := hsum.mp h.sum
      refine ⟨info, hok, hcap, hiff, fun hin => ?_⟩
      obtain ⟨hone, hmax, hle'⟩ := hiff.mp hin
      exact haddr.mpr (h.address hone hmax (hblocks ▸ hle'))
  · refine iff_of_false ?_ fun h => hshift h.shift
    rintro ⟨info, hok, _⟩
    rw [cardGetCsd_eq, if_neg (by omega), if_pos (by omega)] at hok
    cases hok

end Csd

/-- A card of 512 KiB takes two blocks from the last block number for a range of its own. -/
theorem not_addressed_wrap :
    ¬ ∀ (csd : BitVec 128) (startBlock numBlocks : BitVec 32), Addressed csd startBlock numBlocks := by
  intro h
  obtain ⟨info, hok, _, hiff, _⟩ := h (1#128 <<< 126) 0xFFFFFFFF 2
  have hinfo : cardGetCsd (response (1#128 <<< 126)) = .ok ⟨512 * 1024, 512, .ver2⟩ := by decide +kernel
  obtain rfl := Csd.ok.inj (hinfo.symm.trans hok)
  exact absurd (hiff.mp (by decide)).2.2 (by decide)

end WmIot.Sdmmc
