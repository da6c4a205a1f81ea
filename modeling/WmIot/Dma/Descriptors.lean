import Mathlib

/-!
# Descriptors of a DMA transfer

The descriptors of a driver's caller, those of the hardware, and `wm_w800_driver_dma_desc_convert` of
`wm_drv_ops_dma.c`. The control word of the hardware has one layout for a single transfer and another one for a
transfer that is read from a list.
-/

namespace WmIot.Dma
set_option autoImplicit false

/-- `wm_drv_dma_status_t`, as far as it is used. -/
inductive Status where
  | success
  | failed
  | noMem
  | error
deriving DecidableEq, Repr

-- the fields of one, of two and of sixteen bits
scoped instance neZeroBit : NeZero 2 := ⟨by decide⟩
scoped instance neZeroTwoBits : NeZero 4 := ⟨by decide⟩
scoped instance neZeroHalfWord : NeZero 65536 := ⟨by decide⟩

/-- `wm_drv_dma_desc_t` with its bit fields; a list of them is a `List`. -/
structure DrvDesc where
  src : Nat
  dest : Nat
  len : Fin 65536
  ch : Fin 16
  srcIncMode : Fin 4
  destIncMode : Fin 4
  intEn : Fin 2
  autoReload : Fin 2
  dmaMode : Fin 4
  reqSrc : Fin 64
  srcWarpLen : Fin 65536
  destWarpLen : Fin 65536
deriving DecidableEq, Repr

/-- `WM_DRV_DMA_NORMAL_MODE` -/
def normalMode : Fin 4 := 0

/-- `WM_DRV_DMA_WARP_MODE` -/
def warpMode : Fin 4 := 1

/-- `WM_DRV_DMA_LIST_MODE` -/
def listMode : Fin 4 := 2

/-- `wm_hal_dma_extend_ctrl_t` -/
structure ExtendCtrl where
  ch : Nat
  intEn : Nat
  intType : Nat
  mode : Nat
  reqSel : Nat
  chainMode : Nat
  uartDmaCh : Nat
  warpModeEn : Nat
  chainModeEn : Nat
deriving DecidableEq, Repr

/-- `wm_hal_dma_desc_t` without its `next`: the order of a `List` has it. -/
structure HalDesc where
  vld : Nat
  /-- the word of the union `ctrl` -/
  ctrl : Nat
  srcAddr : Nat
  destAddr : Nat
  extendCtrl : ExtendCtrl
  srcWarpLen : Nat
  destWarpLen : Nat
deriving DecidableEq, Repr

/-- A descriptor filled with zeros. -/
def HalDesc.zero : HalDesc := ⟨0, 0, 0, 0, ⟨0, 0, 0, 0, 0, 0, 0, 0, 0⟩, 0, 0⟩

/-! ## Addresses -/

/-- `CONFIG_PSRAM_MAX_LENGTH`, the length of all the ranges -/
def maxLength : Nat := 0x800000

def inRange (base addr : Nat) : Bool := base ≤ addr && addr < base + maxLength

/-- `WM_DRV_DMA_ADDR_IS_PSRAM` -/
def addrIsPsram (addr : Nat) : Bool := inRange 0x30000000 addr

/-- `WM_DRV_DMA_ADDR_IS_SRAM` -/
def addrIsSram (addr : Nat) : Bool := inRange 0x20000000 addr

/-- `WM_DRV_DMA_ADDR_IS_DRAM` -/
def addrIsDram (addr : Nat) : Bool := inRange 0x20028000 addr

/-- `WM_DRV_DMA_ADDR_IS_UART` -/
def addrIsUart (addr : Nat) : Bool := inRange 0x40010600 addr

/-- `WM_DRV_DMA_ADDR_IS_MEM` -/
def addrIsMem (addr : Nat) : Bool := addrIsSram addr || addrIsDram addr || addrIsPsram addr

/-! ## The control word -/

/-- `wm_hal_dma_nonchain_ctrl_t`; the reserved bits stay. -/
def nonchainWord (old autoReload srcInc destInc unit burst len : Nat) : Nat :=
  old / 2 ^ 24 * 2 ^ 24 + len * 2 ^ 8 + burst * 2 ^ 7 + unit * 2 ^ 5 + destInc * 2 ^ 3 + srcInc * 2 + autoReload

/-- `wm_hal_dma_chain_ctrl_t`; the reserved bits stay. -/
def chainWord (old srcInc destInc unit burst len : Nat) : Nat :=
  old / 2 ^ 23 * 2 ^ 23 + len * 2 ^ 7 + burst * 2 ^ 6 + unit * 2 ^ 4 + destInc * 2 ^ 2 + srcInc

/-- What a descriptor says about its transfer. -/
structure Transfer where
  src : Nat
  dest : Nat
  len : Nat
  srcInc : Nat
  destInc : Nat
deriving DecidableEq, Repr

def DrvDesc.transfer (d : DrvDesc) : Transfer := ⟨d.src, d.dest, d.len, d.srcIncMode, d.destIncMode⟩

/-- The hardware reads a descriptor of a list. -/
def HalDesc.chain (h : HalDesc) : Transfer :=
  ⟨h.srcAddr, h.destAddr, h.ctrl / 2 ^ 7 % 2 ^ 16, h.ctrl % 2 ^ 2, h.ctrl / 2 ^ 2 % 2 ^ 2⟩

/-- `wm_hal_dma_config` reads a descriptor that is not in a list. -/
def HalDesc.nonchain (h : HalDesc) : Transfer :=
  ⟨h.srcAddr, h.destAddr, h.ctrl / 2 ^ 8 % 2 ^ 16, h.ctrl / 2 % 2 ^ 2, h.ctrl / 2 ^ 3 % 2 ^ 2⟩

/-! ## The conversion -/

/-- `drv_dma_req_src_drv2hal` -/
def reqSrcDrv2hal : List Nat := [2, 3, 4, 5, 6, 7, 8, 9, 10, 11, 12, 1, 0, 1, 0, 1, 0, 1, 0, 1, 0, 1, 0]

/-- `drv_dma_uart_ch_drv2hal` -/
def uartChDrv2hal : List Nat := [0, 0, 1, 1, 2, 2, 3, 3, 4, 4, 5, 5]

/-- `WM_DRV_DMA_CH_UART0_TX_REQ` -/
def chUart0TxReq : Nat := 11

def unitByte (unit : Nat) : Nat :=
  if unit = 0 then 1 else if unit = 1 then 2 else if unit = 2 then 4 else 0

def burstOf (d : DrvDesc) (unit : Nat) : Nat :=
  if d.dmaMode = normalMode then if d.len.val % (unitByte unit * 4) = 0 then 1 else 0 else 0

/-- The control word in the layout of the descriptor's own mode. -/
def ctrlWord (d : DrvDesc) (unit old : Nat) : Nat :=
  let burst := burstOf d unit
  if d.dmaMode = listMode then chainWord old d.srcIncMode d.destIncMode unit burst d.len
  else nonchainWord old d.autoReload d.srcIncMode d.destIncMode unit burst d.len

section
variable (beyond : Nat → Nat)

/-- The request line of a transfer with a device; `beyond` is what lies behind the tables. -/
def ExtendCtrl.request (e : ExtendCtrl) (reqSrc : Nat) : ExtendCtrl :=
  let e : ExtendCtrl := { e with reqSel := reqSrcDrv2hal.getD reqSrc (beyond reqSrc) % 16 }
  if chUart0TxReq ≤ reqSrc then
    { e with uartDmaCh := uartChDrv2hal.getD (reqSrc - chUart0TxReq) (beyond reqSrc) % 8 }
  else e

/-- The conversion behind its choice of the unit. -/
def convertFields (d : DrvDesc) (h : HalDesc) (unit : Nat) : Status × HalDesc :=
  if unitByte unit = 0 then (.error, h)
  else
    let e : ExtendCtrl := { h.extendCtrl with ch := d.ch, intEn := d.intEn, intType := 1 }
    let e := if e.mode = 1 then e.request beyond d.reqSrc else e
    let h : HalDesc := { h with srcAddr := d.src, destAddr := d.dest, ctrl := ctrlWord d unit h.ctrl }
    if d.dmaMode = warpMode then
      (.success, { h with
        extendCtrl := { e with warpModeEn := 1 }, srcWarpLen := d.srcWarpLen, destWarpLen := d.destWarpLen })
    else (.success, { h with extendCtrl := { e with warpModeEn := 0 } })

/-- The mode of a descriptor. -/
def HalDesc.setMode (h : HalDesc) (mode : Nat) : HalDesc := { h with extendCtrl := { h.extendCtrl with mode := mode } }

/-- `wm_w800_driver_dma_desc_convert` -/
def descConvert (d : DrvDesc) (h : HalDesc) : Status × HalDesc :=
  if addrIsMem d.src && addrIsMem d.dest then
    let h := h.setMode 0
    if addrIsPsram d.src || addrIsPsram d.dest then
      if d.len.val % 4 ≠ 0 then (.error, h) else convertFields beyond d h 2
    else convertFields beyond d h 0
  else
    let h := h.setMode 1
    if addrIsUart d.src || addrIsUart d.dest then convertFields beyond d h 0
    else if d.len.val % 4 ≠ 0 then (.error, h) else convertFields beyond d h 2

end

/-- The transfer is made byte by byte. -/
def DrvDesc.ByBytes (d : DrvDesc) : Prop :=
  if addrIsMem d.src && addrIsMem d.dest then ¬ (addrIsPsram d.src || addrIsPsram d.dest) = true
  else (addrIsUart d.src || addrIsUart d.dest) = true

instance (d : DrvDesc) : Decidable d.ByBytes := by
  unfold DrvDesc.ByBytes
  infer_instance

/-- A transfer of words has a length of whole words. -/
def DrvDesc.Convertible (d : DrvDesc) : Prop := d.ByBytes ∨ d.len.val % 4 = 0

instance (d : DrvDesc) : Decidable d.Convertible := inferInstanceAs (Decidable (_ ∨ _))

/-- The two layouts of the control word give the same length and modes: the descriptor is one for a list, or it
transfers nothing and is no normal one, and its bits repeat. -/
def DrvDesc.SameInChain (d : DrvDesc) : Prop :=
  d.dmaMode = listMode ∨
    d.dmaMode ≠ normalMode ∧ d.len = 0 ∧
      (d.srcIncMode = 0 ∧ d.destIncMode = 0 ∧ d.autoReload = 0 ∨
        d.srcIncMode = 3 ∧ d.destIncMode = 3 ∧ d.autoReload = 1)

instance (d : DrvDesc) : Decidable d.SameInChain := inferInstanceAs (Decidable (_ ∨ _ ∧ _ ∧ (_ ∨ _)))

section
variable {beyond : Nat → Nat} {d : DrvDesc} {h : HalDesc} {unit : Nat}

theorem convertFields_spec (hunit : unitByte unit ≠ 0) :
    (convertFields beyond d h unit).1 = .success ∧ (convertFields beyond d h unit).2.srcAddr = d.src ∧
      (convertFields beyond d h unit).2.destAddr = d.dest ∧
      (convertFields beyond d h unit).2.ctrl = ctrlWord d unit h.ctrl := by
  unfold convertFields
  rw [if_neg hunit]
  dsimp only
  split <;> exact ⟨rfl, rfl, rfl, rfl⟩

/-- A conversion chooses between bytes and words. -/
theorem descConvert_eq (beyond : Nat → Nat) (d : DrvDesc) (h : HalDesc) :
    descConvert beyond d h =
      let h := h.setMode (if addrIsMem d.src && addrIsMem d.dest then 0 else 1)
      if d.ByBytes then convertFields beyond d h 0
      else if d.len.val % 4 ≠ 0 then (.error, h)
      else convertFields beyond d h 2 := by
  unfold descConvert DrvDesc.ByBytes
  dsimp only
  by_cases hmem : (addrIsMem d.src && addrIsMem d.dest) = true
  · simp only [if_pos hmem]
    by_cases hpsram : (addrIsPsram d.src || addrIsPsram d.dest) = true
    · rw [if_pos hpsram, if_neg (not_not.mpr hpsram)]
    · rw [if_neg hpsram, if_pos hpsram]
  · simp only [if_neg hmem]

/-- A conversion writes the addresses and the control word, or refuses the descriptor. -/
theorem descConvert_cases (beyond : Nat → Nat) (d : DrvDesc) (h : HalDesc) :
    (d.Convertible ∧ (descConvert beyond d h).1 = .success ∧ (descConvert beyond d h).2.srcAddr = d.src ∧
        (descConvert beyond d h).2.destAddr = d.dest ∧
        (descConvert beyond d h).2.ctrl = ctrlWord d (if d.ByBytes then 0 else 2) h.ctrl) ∨
      (¬ d.Convertible ∧ (descConvert beyond d h).1 = .error) := by
  rw [descConvert_eq]
  dsimp only
  by_cases hbytes : d.ByBytes
  · rw [if_pos hbytes, if_pos hbytes]
    exact .inl ⟨.inl hbytes, convertFields_spec (by decide)⟩
  · rw [if_neg hbytes, if_neg hbytes]
    by_cases hlen : d.len.val % 4 = 0
    · rw [if_neg (not_not.mpr hlen)]
      exact .inl ⟨.inr hlen, convertFields_spec (by decide)⟩
    · rw [if_pos hlen]
      exact .inr ⟨not_or.mpr ⟨hbytes, hlen⟩, rfl⟩

theorem descConvert_success : (descConvert beyond d h).1 = .success ↔ d.Convertible := by
  rcases descConvert_cases beyond d h with ⟨hconv, hret, -⟩ | ⟨hconv, hret⟩
  · exact iff_of_true hret hconv
  · exact iff_of_false (by rw [hret]; decide) hconv

theorem burstOf_le (d : DrvDesc) (unit : Nat) : burstOf d unit ≤ 1 := by
  unfold burstOf
  split
  · split <;> decide
  · decide

theorem ctrlWord_single (hmode : d.dmaMode ≠ listMode) (old : Nat) :
    ctrlWord d unit old = nonchainWord old d.autoReload d.srcIncMode d.destIncMode unit (burstOf d unit) d.len :=
  if_neg hmode

theorem ctrlWord_list (hmode : d.dmaMode = listMode) (old : Nat) :
    ctrlWord d unit old = chainWord old d.srcIncMode d.destIncMode unit (burstOf d unit) d.len := if_pos hmode

/-- A single transfer is read as it was written. -/
theorem nonchain_descConvert (hzero : h.ctrl = 0) (hconv : d.Convertible) (hmode : d.dmaMode ≠ listMode) :
    (descConvert beyond d h).2.nonchain = d.transfer := by
  rcases descConvert_cases beyond d h with ⟨-, -, hsrc, hdest, hctrl⟩ | ⟨hnot, -⟩
  · have hunit : (if d.ByBytes then 0 else 2) ≤ 2 := by split <;> decide
    generalize (if d.ByBytes then 0 else 2) = unit at hctrl hunit
    have hburst := burstOf_le d unit
    have hlen := d.len.isLt
    have hs := d.srcIncMode.isLt
    have hd := d.destIncMode.isLt
    have hr := d.autoReload.isLt
    unfold HalDesc.nonchain DrvDesc.transfer
    rw [hsrc, hdest, hctrl, hzero, ctrlWord_single hmode, Transfer.mk.injEq]
    unfold nonchainWord
    exact ⟨rfl, rfl, by omega, by omega, by omega⟩
  · exact absurd hconv hnot

/-- Only an empty transfer that is no normal one has the burst and the length that a shift by one bit keeps. -/
theorem shifted_len_iff (d : DrvDesc) (unit : Nat) :
    (2 * d.len.val + burstOf d unit) % 2 ^ 16 = d.len ↔ d.dmaMode ≠ normalMode ∧ d.len = 0 := by
  have hlen := d.len.isLt
  have hzero : d.len = 0 ↔ d.len.val = 0 := Fin.ext_iff
  have hfour : d.len.val % (unitByte unit * 4) = 0 → d.len.val % 4 = 0 := fun h => by
    rw [← Nat.mod_mod_of_dvd _ (Nat.dvd_mul_left 4 (unitByte unit)), h]
  unfold burstOf
  rw [hzero]
  by_cases hmode : d.dmaMode = normalMode
  · rw [if_pos hmode]
    refine iff_of_false (fun h => ?_) fun h => h.1 hmode
    by_cases hwhole : d.len.val % (unitByte unit * 4) = 0
    · rw [if_pos hwhole] at h
      have := hfour hwhole
      omega
    · rw [if_neg hwhole] at h
      have h0 : d.len.val = 0 := by omega
      rw [h0, Nat.zero_mod] at hwhole
      exact hwhole rfl
  · rw [if_neg hmode]
    omega

/-- A descriptor of a list is read as it was written exactly if the layouts agree on it. -/
theorem chain_descConvert (hzero : h.ctrl = 0) (hconv : d.Convertible) :
    (descConvert beyond d h).2.chain = d.transfer ↔ d.SameInChain := by
  rcases descConvert_cases beyond d h with ⟨-, -, hsrc, hdest, hctrl⟩ | ⟨hnot, -⟩
  · have hunit : (if d.ByBytes then 0 else 2) ≤ 2 := by split <;> decide
    generalize (if d.ByBytes then 0 else 2) = unit at hctrl hunit
    have hburst := burstOf_le d unit
    have hlen := d.len.isLt
    have hs := d.srcIncMode.isLt
    have hd := d.destIncMode.isLt
    have hr := d.autoReload.isLt
    unfold HalDesc.chain DrvDesc.transfer DrvDesc.SameInChain
    rw [hsrc, hdest, hctrl, hzero, Transfer.mk.injEq]
    by_cases hmode : d.dmaMode = listMode
    · rw [ctrlWord_list hmode]
      unfold chainWord
      exact iff_of_true ⟨rfl, rfl, by omega, by omega, by omega⟩ (.inl hmode)
    · rw [ctrlWord_single hmode]
      have hshift : nonchainWord 0 d.autoReload d.srcIncMode d.destIncMode unit (burstOf d unit) d.len /
          2 ^ 7 % 2 ^ 16 = (2 * d.len.val + burstOf d unit) % 2 ^ 16 := by
        unfold nonchainWord
        omega
      rw [hshift, shifted_len_iff d unit]
      unfold nonchainWord
      simp only [true_and, hmode, false_or, and_assoc, Fin.ext_iff]
      have hthree : ((3 : Fin 4) : Nat) = 3 := rfl
      have hone : ((1 : Fin 2) : Nat) = 1 := rfl
      rw [hthree, hone]
      generalize burstOf d unit = burst at *
      refine and_congr_right fun _ => and_congr_right fun _ => ?_
      simp only [Fin.val_zero]
      omega
  · exact absurd hconv hnot

end

end WmIot.Dma
