import WmIot.SpiMaster.Polling
import WmIot.Lib.SpiBus

/-!
# The SPI master in software

`w80x_soft_spim_transceive_sync` of `wm_drv_ops_spi_master_soft.c`, next to what `w800_spim_transceive_sync` hands to
the HAL. Device, configuration and buffers are there, the frequency is one that both drivers take, the lock is free
and nothing times out.
-/

namespace WmIot.SpiMaster
open SpiBus
set_option autoImplicit false

/-- `wm_spi_mode_t` -/
inductive SpiMode where
  | mode0
  | mode1
  | mode2
  | mode3
  deriving DecidableEq, Repr

/-- The polarity and the phase of a mode. -/
def SpiMode.bus : SpiMode → Mode
  | .mode0 => ⟨false, false⟩
  | .mode1 => ⟨false, true⟩
  | .mode2 => ⟨true, false⟩
  | .mode3 => ⟨true, true⟩

inductive Err where
  | success
  | invalidParam
  | noMem
  deriving DecidableEq, Repr

/-- `spim_transceive_ex_t`, with the flags that are looked at. A buffer is there when its length is not 0. -/
structure Desc where
  dummyFlag : Bool
  cmdFlag : Bool
  addrFlag : Bool
  bigEndian : Bool
  keepActive : Bool
  tx : List Byte
  rxLen : Nat
  fields : Dev

/-- `spim_transceive_check_arg`, the same in both drivers -/
def Desc.checkArg (desc : Desc) : Bool :=
  !(desc.tx.isEmpty && desc.rxLen == 0 && !(desc.dummyFlag || desc.cmdFlag || desc.addrFlag || desc.bigEndian ||
      desc.keepActive) && desc.fields.cmdLen == 0) &&
    !(desc.cmdFlag && 2 < desc.fields.cmdLen.toNat) && !(desc.addrFlag && 4 < desc.fields.addrLen.toNat)

/-- The fields of the HAL that `w800_spim_transceive_sync` sets; the lengths of the HAL are clear between calls. -/
def Desc.halDev (desc : Desc) : Dev where
  cmdLen := if desc.cmdFlag then desc.fields.cmdLen else 0
  addrLen := if desc.addrFlag then desc.fields.addrLen else 0
  dummyBits := if desc.dummyFlag then desc.fields.dummyBits else 0
  cmd := desc.fields.cmd
  addr := desc.fields.addr

/-! ## The driver -/

/-- One turn of the loop of `wm_spim_gpio_byte`: the bit read. -/
def gpioBit (mode : SpiMode) (bits : Nat → Bool) (txBit : Bool) (bus : Bus) : Bool × Bus :=
  let bus := bus.setMosi txBit
  match mode with
  | .mode0 =>
    let bus := bus.setClk mode.bus true
    (bus.miso mode.bus bits, bus.setClk mode.bus false)
  | .mode1 =>
    let bus := (bus.setClk mode.bus true).setClk mode.bus false
    (bus.miso mode.bus bits, bus)
  | .mode2 =>
    let bus := bus.setClk mode.bus false
    (bus.miso mode.bus bits, bus.setClk mode.bus true)
  | .mode3 =>
    let bus := (bus.setClk mode.bus false).setClk mode.bus true
    (bus.miso mode.bus bits, bus)

/-- The next bit to send. -/
def txBit (bigEndian : Bool) (tx : Byte) : Bool := if bigEndian then tx &&& 0x80#8 != 0 else tx &&& 0x01#8 != 0

/-- What is left to send. -/
def shift (bigEndian : Bool) (tx : Byte) : Byte := if bigEndian then tx <<< 1 else tx >>> 1

/-- `tmp` with the bit read -/
def rxByte (bigEndian : Bool) (tmp : Byte) (rxBit : Bool) : Byte :=
  if bigEndian then (tmp <<< 1) + (if rxBit then 1 else 0) else (tmp >>> 1) + (if rxBit then 0x80 else 0)

/-- The loop of `wm_spim_gpio_byte`, `n` turns. -/
def gpioBits (mode : SpiMode) (bits : Nat → Bool) (bigEndian : Bool) : Nat → Byte → Byte → Bus → Byte × Bus
  | 0, _, tmp, bus => (tmp, bus)
  | n + 1, tx, tmp, bus =>
    let (rxBit, bus) := gpioBit mode bits (txBit bigEndian tx) bus
    gpioBits mode bits bigEndian n (shift bigEndian tx) (rxByte bigEndian tmp rxBit) bus

/-- `wm_spim_gpio_byte` -/
def gpioByte (mode : SpiMode) (bits : Nat → Bool) (bigEndian : Bool) (tx : Byte) (bus : Bus) : Byte × Bus :=
  gpioBits mode bits bigEndian 8 tx 0 bus

/-- One turn of the loop of `wm_spim_gpio_polling`. -/
def gpioTurn (mode : SpiMode) (bits : Nat → Bool) (bigEndian : Bool) (tx : List Byte) (rxLen : Nat)
    (s : List Byte × Bus) (i : Nat) : List Byte × Bus :=
  let (rx, bus) := gpioByte mode bits bigEndian (if i < tx.length then tx.getD i 0 else 0) s.2
  (if i < rxLen then s.1 ++ [rx] else s.1, bus)

/-- `wm_spim_gpio_polling`: the bytes read. Its index is an `int`, which must not overflow. -/
def gpioPolling (mode : SpiMode) (bits : Nat → Bool) (bigEndian : Bool) (tx : List Byte) (rxLen : Nat) (bus : Bus) :
    Option (List Byte × Bus) :=
  if max tx.length rxLen < 2 ^ 31 then
    some ((List.range (max tx.length rxLen)).foldl (gpioTurn mode bits bigEndian tx rxLen) ([], bus))
  else none

/-- A front phase is to be sent: one of its flags is set, and one of its fields. -/
def Desc.HasFront (desc : Desc) : Prop :=
  (desc.dummyFlag = true ∨ desc.cmdFlag = true ∨ desc.addrFlag = true) ∧
    (desc.fields.dummyBits ≠ 0 ∨ desc.fields.cmdLen ≠ 0 ∨ desc.fields.addrLen ≠ 0)

instance (desc : Desc) : Decidable desc.HasFront := inferInstanceAs (Decidable (_ ∧ _))

/-- `front_buf` -/
def Desc.frontBuf (desc : Desc) : Option (List Byte) := do
  let frontLen := (desc.fields.dummyBits.toNat + 7) / 8 + desc.fields.cmdLen.toNat + desc.fields.addrLen.toNat
  let buf ← memcpy (List.replicate frontLen 0xFF#8) 0 desc.fields.cmdBytes
  memcpy buf desc.fields.cmdLen.toNat desc.fields.addrBytes

/-- The part of `wm_soft_spim_tx_rx_polling` behind the front phase. -/
def sendData (mode : SpiMode) (bits : Nat → Bool) (desc : Desc) (bus : Bus) : Option (Err × List Byte × Bus) :=
  if desc.tx ≠ [] ∨ desc.rxLen ≠ 0 then
    (gpioPolling mode bits desc.bigEndian desc.tx desc.rxLen bus).map fun (rx, bus) => (.success, rx, bus)
  else some (.success, [], bus)

/-- `wm_soft_spim_tx_rx_polling`; `mem` is that the allocation succeeds. -/
def softTxRxPolling (mode : SpiMode) (bits : Nat → Bool) (mem : Bool) (desc : Desc) (bus : Bus) :
    Option (Err × List Byte × Bus) :=
  if desc.HasFront then
    if mem = false then some (.noMem, [], bus)
    else do
      let front ← desc.frontBuf
      let (_, bus) ← gpioPolling mode bits desc.bigEndian front 0 bus
      sendData mode bits desc bus
  else sendData mode bits desc bus

/-- The lines before the lock is taken; `pinCs` is that there is a CS pin. -/
def select (mode : SpiMode) (pinCs : Bool) (bus : Bus) : Bus :=
  let bus := if mode = .mode0 ∨ mode = .mode1 then bus.setClk mode.bus false else bus.setClk mode.bus true
  if pinCs then bus.setCs false else bus

/-- `w80x_soft_spim_transceive_sync` -/
def transceiveSync (mode : SpiMode) (bits : Nat → Bool) (mem pinCs : Bool) (desc : Desc) (bus : Bus) :
    Option (Err × List Byte × Bus) :=
  if desc.checkArg = false then some (.invalidParam, [], bus)
  else
    (softTxRxPolling mode bits mem desc (select mode pinCs bus)).map fun (ret, rx, bus) =>
      (ret, rx, if desc.keepActive = false ∧ pinCs = true then bus.setCs true else bus)

/-- What the slave and the caller see of a call: the slave samples the bytes of the hardware driver, and then only
what receiving needs; the bytes read are the slave's bits behind the front phase; and CS changes with an idle clock. -/
structure Spoken (mode : SpiMode) (bits : Nat → Bool) (desc : Desc) (bus : Bus) (rx : List Byte) (bus' : Bus) : Prop where
  sampled : ∃ filler, bus'.sampled =
      bus.sampled ++ (desc.halDev.front ++ desc.tx ++ filler).flatMap (order desc.bigEndian) ∧
    filler.length = desc.rxLen - desc.tx.length
  length : rx.length = desc.rxLen
  read : rx.flatMap (order desc.bigEndian) =
    (List.range (8 * desc.rxLen)).map fun i => bits (bus.place + 8 * desc.halDev.front.length + i)
  idle : ChangesIdle mode.bus bus bus'

/-- The call with a descriptor that is accepted, and a slave that is selected all the time when there is no CS pin. -/
def Speaks (mode : SpiMode) (mem pinCs : Bool) (desc : Desc) (bus : Bus) : Prop :=
  desc.checkArg = true → (pinCs = false → bus.cs = false) → ∀ bits, ∃ err rx bus',
    transceiveSync mode bits mem pinCs desc bus = some (err, rx, bus') ∧ Spoken mode bits desc bus rx bus'

/-! ## Bits and bytes -/

section
variable {mode : SpiMode} (bits : Nat → Bool) (bigEndian : Bool) {bus bus' bus'' : Bus} {l l' : List Bool}

/-- The slave has sampled bits and given as many, and the lines other than MOSI are as they were. -/
structure Sent (bus bus' : Bus) (l : List Bool) : Prop where
  clk : bus'.clk = bus.clk
  cs : bus'.cs = bus.cs
  changes : bus'.changes = bus.changes
  sampled : bus'.sampled = bus.sampled ++ l
  place : bus'.place = bus.place + l.length

theorem Sent.refl (bus : Bus) : Sent bus bus [] := ⟨rfl, rfl, rfl, (List.append_nil _).symm, rfl⟩

theorem Sent.trans (h : Sent bus bus' l) (h' : Sent bus' bus'' l') : Sent bus bus'' (l ++ l') := by
  refine ⟨h'.clk.trans h.clk, h'.cs.trans h.cs, h'.changes.trans h.changes, ?_, ?_⟩
  · rw [h'.sampled, h.sampled, List.append_assoc]
  · rw [h'.place, h.place, List.length_append, Nat.add_assoc]

/-- In each mode a turn is a pulse of the clock, with MISO read where the slave's bit is. -/
theorem gpioBit_eq (hcs : bus.cs = false) (hclk : bus.clk = mode.bus.cpol) (b : Bool) :
    gpioBit mode bits b bus = (bits bus.place, bus.exchanged b) := by
  obtain ⟨hbus, hmiso⟩ := pulse bits hcs hclk b
  cases mode with
  | mode0 => exact Prod.ext hmiso hbus
  | mode1 =>
    rw [← hbus] at hmiso
    exact Prod.ext hmiso hbus
  | mode2 => exact Prod.ext hmiso hbus
  | mode3 =>
    rw [← hbus] at hmiso
    exact Prod.ext hmiso hbus

/-- The bits that `n` turns send. -/
def outBits (bigEndian : Bool) : Nat → Byte → List Bool
  | 0, _ => []
  | n + 1, tx => txBit bigEndian tx :: outBits bigEndian n (shift bigEndian tx)

theorem length_outBits (n : Nat) (tx : Byte) : (outBits bigEndian n tx).length = n := by
  induction n generalizing tx with
  | zero => rfl
  | succ n ih => rw [outBits, List.length_cons, ih]

theorem outBits_eq : ∀ (bigEndian : Bool) (tx : Byte), outBits bigEndian 8 tx = order bigEndian tx := by
  decide +kernel

theorem order_rxByte : ∀ bigEndian b₀ b₁ b₂ b₃ b₄ b₅ b₆ b₇,
    order bigEndian ([b₀, b₁, b₂, b₃, b₄, b₅, b₆, b₇].foldl (rxByte bigEndian) 0) =
      [b₀, b₁, b₂, b₃, b₄, b₅, b₆, b₇] := by
  decide +kernel

theorem gpioBits_eq (hcs : bus.cs = false) (hclk : bus.clk = mode.bus.cpol) (n : Nat) (tx tmp : Byte) :
    ∃ bus', gpioBits mode bits bigEndian n tx tmp bus =
      (((List.range n).map fun i => bits (bus.place + i)).foldl (rxByte bigEndian) tmp, bus') ∧
        Sent bus bus' (outBits bigEndian n tx) := by
  induction n generalizing tx tmp bus with
  | zero => exact ⟨bus, rfl, Sent.refl bus⟩
  | succ n ih =>
    have hfirst : Sent bus (bus.exchanged (txBit bigEndian tx)) [txBit bigEndian tx] := ⟨rfl, rfl, rfl, rfl, rfl⟩
    obtain ⟨bus', hrest, hsent⟩ := ih (hfirst.cs.trans hcs) (hfirst.clk.trans hclk) (shift bigEndian tx)
      (rxByte bigEndian tmp (bits bus.place))
    refine ⟨bus', ?_, hfirst.trans hsent⟩
    rw [gpioBits, gpioBit_eq bits hcs hclk]
    simp only
    rw [hrest, List.range_succ_eq_map, List.map_cons, List.foldl_cons, List.map_map]
    refine Prod.ext ?_ rfl
    simp only [Bus.exchanged, Nat.add_zero, Function.comp_def, Nat.succ_eq_add_one]
    congr 2
    funext i
    rw [Nat.add_assoc, Nat.add_comm 1 i]

theorem gpioByte_eq (hcs : bus.cs = false) (hclk : bus.clk = mode.bus.cpol) (tx : Byte) :
    Sent bus (gpioByte mode bits bigEndian tx bus).2 (order bigEndian tx) ∧
      order bigEndian (gpioByte mode bits bigEndian tx bus).1 =
        (List.range 8).map fun i => bits (bus.place + i) := by
  obtain ⟨bus', hbyte, hsent⟩ := gpioBits_eq bits bigEndian hcs hclk 8 tx 0
  rw [gpioByte, hbyte, ← outBits_eq]
  exact ⟨hsent, order_rxByte ..⟩

/-- The bytes that `n` turns send. -/
def sentBytes (tx : List Byte) (n : Nat) : List Byte := (List.range n).map fun i => tx.getD i 0

theorem sentBytes_max (tx : List Byte) (n : Nat) :
    sentBytes tx (max tx.length n) = tx ++ List.replicate (n - tx.length) 0 := by
  refine List.ext_getElem? fun i => ?_
  rw [sentBytes, List.getElem?_map, List.getElem?_append, List.getElem?_replicate]
  rcases Nat.lt_or_ge i tx.length with hlt | hge
  · rw [List.getElem?_range (by omega), if_pos hlt, List.getElem?_eq_getElem hlt, Option.map_some,
      List.getD_eq_getElem _ _ hlt]
  · rw [if_neg (by omega)]
    split
    next hn =>
      rw [List.getElem?_range (by omega), Option.map_some, List.getD_eq_default _ _ hge]
    next hn => rw [List.getElem?_eq_none (by rw [List.length_range]; omega), Option.map_none]

theorem gpioTurns_eq (hcs : bus.cs = false) (hclk : bus.clk = mode.bus.cpol) (tx : List Byte) (rxLen n : Nat) :
    ∃ rx bus', (List.range n).foldl (gpioTurn mode bits bigEndian tx rxLen) ([], bus) = (rx, bus') ∧
      Sent bus bus' ((sentBytes tx n).flatMap (order bigEndian)) ∧ rx.length = min n rxLen ∧
      rx.flatMap (order bigEndian) = (List.range (8 * min n rxLen)).map fun i => bits (bus.place + i) := by
  induction n with
  | zero =>
    refine ⟨[], bus, rfl, Sent.refl bus, (Nat.zero_min _).symm, ?_⟩
    rw [Nat.zero_min]
    rfl
  | succ n ih =>
    obtain ⟨rx, bus', hrest, hsent, hlen, hread⟩ := ih
    have hplace : bus'.place = bus.place + 8 * n := by
      rw [hsent.place, length_flatMap_order, sentBytes, List.length_map, List.length_range]
    obtain ⟨hbyte, hrx⟩ := gpioByte_eq bits bigEndian (hsent.cs.trans hcs) (hsent.clk.trans hclk) (tx.getD n 0)
    have htx : (if n < tx.length then tx.getD n 0 else 0) = tx.getD n 0 := by
      split
      · rfl
      next hge => rw [List.getD_eq_default _ _ (Nat.le_of_not_lt hge)]
    rw [List.range_succ, List.foldl_append, hrest, List.foldl_cons, List.foldl_nil, gpioTurn, htx]
    generalize gpioByte mode bits bigEndian (tx.getD n 0) bus' = out at hbyte hrx ⊢
    simp only
    refine ⟨_, _, rfl, ?_, ?_, ?_⟩
    · rw [sentBytes, List.range_succ, List.map_append, List.flatMap_append, List.map_singleton,
        List.flatMap_singleton]
      exact hsent.trans hbyte
    · split
      · rw [List.length_append, hlen]
        simp only [List.length_singleton]
        omega
      · omega
    · split
      next hlt =>
        have hmap : (List.range 8).map (fun i => bits (bus.place + 8 * n + i)) =
            ((List.range 8).map fun i => 8 * n + i).map fun i => bits (bus.place + i) := by
          rw [List.map_map]
          exact List.map_congr_left fun i _ => congrArg bits (Nat.add_assoc _ _ _)
        rw [List.flatMap_append, hread, List.flatMap_singleton, hrx, hplace, hmap, ← List.map_append,
          show min n rxLen = n by omega, show min (n + 1) rxLen = n + 1 by omega, Nat.mul_succ, List.range_add]
      next hge => rw [hread, show min n rxLen = min (n + 1) rxLen by omega]

/-! ## A call -/

theorem gpioPolling_eq (hcs : bus.cs = false) (hclk : bus.clk = mode.bus.cpol) {tx : List Byte} {rxLen : Nat}
    (hlen : max tx.length rxLen < 2 ^ 31) :
    ∃ rx bus', gpioPolling mode bits bigEndian tx rxLen bus = some (rx, bus') ∧
      Sent bus bus' ((tx ++ List.replicate (rxLen - tx.length) 0).flatMap (order bigEndian)) ∧ rx.length = rxLen ∧
      rx.flatMap (order bigEndian) = (List.range (8 * rxLen)).map fun i => bits (bus.place + i) := by
  obtain ⟨rx, bus', hturns, hsent, hrx, hread⟩ :=
    gpioTurns_eq bits bigEndian hcs hclk tx rxLen (max tx.length rxLen)
  rw [sentBytes_max] at hsent
  rw [Nat.min_eq_right (Nat.le_max_right _ _)] at hrx hread
  exact ⟨rx, bus', by rw [gpioPolling, if_pos hlen, hturns], hsent, hrx, hread⟩

variable {desc : Desc} {mem pinCs : Bool}

theorem sendData_eq (hcs : bus.cs = false) (hclk : bus.clk = mode.bus.cpol)
    (hlen : max desc.tx.length desc.rxLen < 2 ^ 31) :
    ∃ rx bus', sendData mode bits desc bus = some (.success, rx, bus') ∧
      Sent bus bus'
        ((desc.tx ++ List.replicate (desc.rxLen - desc.tx.length) 0).flatMap (order desc.bigEndian)) ∧
      rx.length = desc.rxLen ∧
      rx.flatMap (order desc.bigEndian) = (List.range (8 * desc.rxLen)).map fun i => bits (bus.place + i) := by
  unfold sendData
  split
  next =>
    obtain ⟨rx, bus', hpolling, hrest⟩ := gpioPolling_eq bits desc.bigEndian hcs hclk hlen
    exact ⟨rx, bus', by rw [hpolling]; rfl, hrest⟩
  next hnone =>
    rw [not_or, not_not, not_not] at hnone
    refine ⟨[], bus, rfl, ?_, hnone.2.symm, ?_⟩
    · rw [hnone.1, hnone.2]
      exact Sent.refl bus
    · rw [hnone.2]
      rfl

/-- The bytes that the driver sends before the data. -/
def Desc.softFront (desc : Desc) : List Byte := if desc.HasFront then desc.fields.front else []

theorem frontBuf_eq (desc : Desc) : desc.frontBuf = some desc.fields.front := by
  refine (memcpy_cmd_addr (by omega)).trans ?_
  rw [Dev.front]
  congr 3
  omega

theorem length_front_lt (dev : Dev) : dev.front.length < 2 ^ 31 := by
  have hlen := length_front dev
  have hc := dev.cmdLen.isLt
  have ha := dev.addrLen.isLt
  have hd := dev.dummyBits.isLt
  omega

theorem softTxRxPolling_eq (hcs : bus.cs = false) (hclk : bus.clk = mode.bus.cpol)
    (hmem : ¬ (desc.HasFront ∧ mem = false)) (hlen : max desc.tx.length desc.rxLen < 2 ^ 31) :
    ∃ rx bus', softTxRxPolling mode bits mem desc bus = some (.success, rx, bus') ∧
      Sent bus bus' ((desc.softFront ++ desc.tx ++ List.replicate (desc.rxLen - desc.tx.length) 0).flatMap
        (order desc.bigEndian)) ∧
      rx.length = desc.rxLen ∧ rx.flatMap (order desc.bigEndian) =
        (List.range (8 * desc.rxLen)).map fun i => bits (bus.place + 8 * desc.softFront.length + i) := by
  unfold softTxRxPolling Desc.softFront
  split
  next hfront =>
    have hfrontLen : max desc.fields.front.length 0 < 2 ^ 31 := by
      rw [Nat.max_zero]
      exact length_front_lt _
    obtain ⟨rx₁, bus₁, hpolling, hsent, -, -⟩ := gpioPolling_eq bits desc.bigEndian hcs hclk hfrontLen
    rw [Nat.zero_sub, List.replicate_zero, List.append_nil] at hsent
    obtain ⟨rx, bus', hdata, hsent', hrx, hread⟩ :=
      sendData_eq bits (hsent.cs.trans hcs) (hsent.clk.trans hclk) hlen
    rw [if_neg fun h => hmem ⟨hfront, h⟩, frontBuf_eq]
    refine ⟨rx, bus', ?_, ?_, hrx, ?_⟩
    · rw [Option.bind_eq_bind, Option.bind_some, hpolling]
      exact hdata
    · rw [List.append_assoc, List.flatMap_append]
      exact hsent.trans hsent'
    · rw [hread, hsent.place, length_flatMap_order]
  next =>
    obtain ⟨rx, bus', hdata, hrest⟩ := sendData_eq bits hcs hclk hlen
    exact ⟨rx, bus', hdata, hrest⟩

theorem softTxRxPolling_of_long (hcs : bus.cs = false) (hclk : bus.clk = mode.bus.cpol)
    (hmem : ¬ (desc.HasFront ∧ mem = false)) (hlen : ¬ max desc.tx.length desc.rxLen < 2 ^ 31) :
    softTxRxPolling mode bits mem desc bus = none := by
  have hdata : ∀ bus, sendData mode bits desc bus = none := by
    intro bus
    rw [sendData, if_pos (by rw [← List.length_pos_iff]; omega), gpioPolling, if_neg hlen, Option.map_none]
  unfold softTxRxPolling
  split
  next hfront =>
    have hfrontLen : max desc.fields.front.length 0 < 2 ^ 31 := by
      rw [Nat.max_zero]
      exact length_front_lt _
    obtain ⟨rx, bus₁, hpolling, -⟩ := gpioPolling_eq bits desc.bigEndian hcs hclk hfrontLen
    rw [if_neg fun h => hmem ⟨hfront, h⟩, frontBuf_eq, Option.bind_eq_bind, Option.bind_some, hpolling]
    exact hdata bus₁
  next => exact hdata bus

/-- The slave sees the clock go to its idle level. -/
def Glitch (mode : SpiMode) (bus : Bus) : Prop := bus.cs = false ∧ bus.clk ≠ mode.bus.cpol

instance (mode : SpiMode) (bus : Bus) : Decidable (Glitch mode bus) := inferInstanceAs (Decidable (_ ∧ _))

/-- The lines when the transfer begins. -/
theorem select_eq (mode : SpiMode) (hpin : pinCs = false → bus.cs = false) :
    (select mode pinCs bus).cs = false ∧ (select mode pinCs bus).clk = mode.bus.cpol ∧
      ChangesIdle mode.bus bus (select mode pinCs bus) ∧
      (select mode pinCs bus).sampled =
        bus.sampled ++ (if Glitch mode bus ∧ mode.bus.cpha = true then [bus.mosi] else []) ∧
      (select mode pinCs bus).place = bus.place + (if Glitch mode bus ∧ mode.bus.cpha = false then 1 else 0) := by
  have hselect : select mode pinCs bus = if pinCs then (bus.setClk mode.bus mode.bus.cpol).setCs false
      else bus.setClk mode.bus mode.bus.cpol := by
    cases mode <;> rfl
  have hclk : (bus.setClk mode.bus mode.bus.cpol).clk = mode.bus.cpol ∧
      (bus.setClk mode.bus mode.bus.cpol).cs = bus.cs ∧ (bus.setClk mode.bus mode.bus.cpol).changes = bus.changes ∧
      (bus.setClk mode.bus mode.bus.cpol).sampled =
        bus.sampled ++ (if Glitch mode bus ∧ mode.bus.cpha = true then [bus.mosi] else []) ∧
      (bus.setClk mode.bus mode.bus.cpol).place =
        bus.place + (if Glitch mode bus ∧ mode.bus.cpha = false then 1 else 0) := by
    by_cases hglitch : Glitch mode bus
    · rw [setClk_trailing bus hglitch.1 hglitch.2]
      cases mode.bus.cpha <;> simp [hglitch]
    · have hquiet : bus.clk = mode.bus.cpol ∨ bus.cs = true := by
        rw [Glitch, not_and_or, Bool.not_eq_false, not_not] at hglitch
        exact hglitch.symm
      rw [Bus.setClk, if_pos hquiet]
      simp [hglitch]
  obtain ⟨hidle, hcs, hchanges, hsampled, hplace⟩ := hclk
  rw [hselect]
  cases pinCs with
  | false => exact ⟨hcs.trans (hpin rfl), hidle, changesIdle_of_eq hchanges, hsampled, hplace⟩
  | true => exact ⟨rfl, hidle, (changesIdle_of_eq hchanges).trans (changesIdle_setCs hidle false), hsampled, hplace⟩

/-- A call that is accepted, by its transfer. -/
theorem transceiveSync_eq (hcheck : desc.checkArg = true) {err : Err} {rx : List Byte}
    (hclk : bus'.clk = mode.bus.cpol) (hchanges : ChangesIdle mode.bus bus bus')
    (h : softTxRxPolling mode bits mem desc (select mode pinCs bus) = some (err, rx, bus')) :
    ∃ bus'', transceiveSync mode bits mem pinCs desc bus = some (err, rx, bus'') ∧
      bus''.sampled = bus'.sampled ∧ ChangesIdle mode.bus bus bus'' := by
  rw [transceiveSync, if_neg (by rw [hcheck]; exact Bool.noConfusion), h, Option.map_some]
  refine ⟨_, rfl, ?_, ?_⟩
  · split <;> rfl
  · split
    · exact hchanges.trans (changesIdle_setCs hclk true)
    · exact hchanges

/-- What the slave samples before the transfer. -/
def early (mode : SpiMode) (bus : Bus) : List Bool :=
  if Glitch mode bus ∧ mode.bus.cpha = true then [bus.mosi] else []

/-- How far the slave is ahead. -/
def skip (mode : SpiMode) (bus : Bus) : Nat := if Glitch mode bus ∧ mode.bus.cpha = false then 1 else 0

/-- A transfer for which there is no memory. -/
theorem transceiveSync_of_no_mem (hcheck : desc.checkArg = true) (hpin : pinCs = false → bus.cs = false)
    (hmem : desc.HasFront ∧ mem = false) :
    ∃ bus', transceiveSync mode bits mem pinCs desc bus = some (.noMem, [], bus') ∧
      bus'.sampled = bus.sampled ++ early mode bus ∧ ChangesIdle mode.bus bus bus' := by
  obtain ⟨-, hclk, hchanges, hsampled, -⟩ := select_eq mode hpin
  have hrun : softTxRxPolling mode bits mem desc (select mode pinCs bus) = some (.noMem, [], select mode pinCs bus) := by
    rw [softTxRxPolling, if_pos hmem.1, if_pos hmem.2]
  obtain ⟨bus', hcall, hsampled', hchanges'⟩ := transceiveSync_eq bits hcheck hclk hchanges hrun
  exact ⟨bus', hcall, hsampled'.trans hsampled, hchanges'⟩

/-- A transfer that is made. -/
theorem transceiveSync_exact (hcheck : desc.checkArg = true) (hpin : pinCs = false → bus.cs = false)
    (hmem : ¬ (desc.HasFront ∧ mem = false)) (hlen : max desc.tx.length desc.rxLen < 2 ^ 31) :
    ∃ rx bus', transceiveSync mode bits mem pinCs desc bus = some (.success, rx, bus') ∧
      bus'.sampled = bus.sampled ++ early mode bus ++
        (desc.softFront ++ desc.tx ++ List.replicate (desc.rxLen - desc.tx.length) 0).flatMap
          (order desc.bigEndian) ∧
      rx.length = desc.rxLen ∧ rx.flatMap (order desc.bigEndian) = ((List.range (8 * desc.rxLen)).map fun i =>
        bits (bus.place + skip mode bus + 8 * desc.softFront.length + i)) ∧ ChangesIdle mode.bus bus bus' := by
  obtain ⟨hcs, hclk, hchanges, hsampled, hplace⟩ := select_eq mode hpin
  obtain ⟨rx, bus₁, hrun, hsent, hrx, hread⟩ := softTxRxPolling_eq bits hcs hclk hmem hlen
  obtain ⟨bus', hcall, hsampled', hchanges'⟩ := transceiveSync_eq bits hcheck (hsent.clk.trans hclk)
    (hchanges.trans (changesIdle_of_eq hsent.changes)) hrun
  refine ⟨rx, bus', hcall, ?_, hrx, ?_, hchanges'⟩
  · rw [hsampled', hsent.sampled, hsampled]
    rfl
  · rw [hread, hplace]
    rfl

theorem transceiveSync_of_long (hcheck : desc.checkArg = true) (hpin : pinCs = false → bus.cs = false)
    (hmem : ¬ (desc.HasFront ∧ mem = false)) (hlen : ¬ max desc.tx.length desc.rxLen < 2 ^ 31) :
    transceiveSync mode bits mem pinCs desc bus = none := by
  obtain ⟨hcs, hclk, -⟩ := select_eq mode hpin
  rw [transceiveSync, if_neg (by rw [hcheck]; exact Bool.noConfusion),
    softTxRxPolling_of_long bits hcs hclk hmem hlen, Option.map_none]

/-! ## The two drivers -/

/-- No flag of the front phase is set, or the fields without their flag are 0. -/
def Desc.FlagsMatch (desc : Desc) : Prop :=
  (desc.dummyFlag = false ∧ desc.cmdFlag = false ∧ desc.addrFlag = false) ∨
    ((desc.dummyFlag = false → desc.fields.dummyBits = 0) ∧ (desc.cmdFlag = false → desc.fields.cmdLen = 0) ∧
      (desc.addrFlag = false → desc.fields.addrLen = 0))

/-- A field with its flag. -/
theorem toNat_flagged (flag : Bool) (x : BitVec 8) :
    (if flag then x else 0).toNat ≤ x.toNat ∧ (flag = false → (if flag then x else 0).toNat = 0) := by
  cases flag with
  | false => exact ⟨Nat.zero_le _, fun _ => rfl⟩
  | true => exact ⟨Nat.le_refl _, nofun⟩

theorem flagged_eq {flag : Bool} {x : BitVec 8} (h : flag = false → x = 0) : (if flag then x else 0) = x := by
  cases flag with
  | false => exact (h rfl).symm
  | true => rfl

theorem length_halFront (desc : Desc) : desc.halDev.front.length =
    (if desc.cmdFlag then desc.fields.cmdLen else 0).toNat + (if desc.addrFlag then desc.fields.addrLen else 0).toNat +
      ((if desc.dummyFlag then desc.fields.dummyBits else 0).toNat + 7) / 8 := by
  rw [length_front]
  rfl

theorem halFront_of_no_flags (hd : desc.dummyFlag = false) (hc : desc.cmdFlag = false) (ha : desc.addrFlag = false) :
    desc.halDev.front = [] := by
  have hlen := length_halFront desc
  rw [hd, hc, ha] at hlen
  simp only [Bool.false_eq_true, if_false] at hlen
  exact List.length_eq_zero_iff.mp (hlen.trans rfl)

/-- Both drivers send the same front phase if they send as many bytes. -/
theorem flagsMatch_of_length (h : desc.softFront.length = desc.halDev.front.length) : desc.FlagsMatch := by
  have hlen := length_front desc.fields
  have hhal := length_halFront desc
  obtain ⟨hcLe, hc⟩ := toNat_flagged desc.cmdFlag desc.fields.cmdLen
  obtain ⟨haLe, ha⟩ := toNat_flagged desc.addrFlag desc.fields.addrLen
  obtain ⟨hdLe, hd⟩ := toNat_flagged desc.dummyFlag desc.fields.dummyBits
  unfold Desc.softFront at h
  split at h
  next =>
    refine Or.inr ⟨fun hflag => ?_, fun hflag => ?_, fun hflag => ?_⟩
    · have := hd hflag
      exact BitVec.eq_of_toNat_eq (show desc.fields.dummyBits.toNat = 0 by omega)
    · have := hc hflag
      exact BitVec.eq_of_toNat_eq (show desc.fields.cmdLen.toNat = 0 by omega)
    · have := ha hflag
      exact BitVec.eq_of_toNat_eq (show desc.fields.addrLen.toNat = 0 by omega)
  next hnone =>
    rw [Desc.HasFront, not_and_or] at hnone
    rcases hnone with hflags | hfields
    · simp only [not_or, Bool.not_eq_true] at hflags
      exact Or.inl hflags
    · simp only [not_or, not_not] at hfields
      exact Or.inr ⟨fun _ => hfields.1, fun _ => hfields.2.1, fun _ => hfields.2.2⟩

theorem softFront_eq (h : desc.FlagsMatch) : desc.softFront = desc.halDev.front := by
  unfold Desc.softFront
  rcases h with ⟨hd, hc, ha⟩ | ⟨hd, hc, ha⟩
  · rw [halFront_of_no_flags hd hc ha, if_neg]
    rintro ⟨hflags, -⟩
    rw [hd, hc, ha] at hflags
    rcases hflags with h | h | h <;> cases h
  · have hsame : desc.halDev.front = desc.fields.front := by
      rw [Desc.halDev, flagged_eq hc, flagged_eq ha, flagged_eq hd]
    split
    next => exact hsame.symm
    next hnone =>
      rw [Desc.HasFront, not_and_or] at hnone
      rcases hnone with hflags | hfields
      · simp only [not_or, Bool.not_eq_true] at hflags
        exact (halFront_of_no_flags hflags.1 hflags.2.1 hflags.2.2).symm
      · simp only [not_or, not_not] at hfields
        have hlen := length_front desc.fields
        rw [hfields.1, hfields.2.1, hfields.2.2] at hlen
        exact hsame.symm ▸ (List.length_eq_zero_iff.mp hlen).symm

/-- The condition: the clock is idle, or the slave is not selected yet, or it just gives its first bit too early for a
call that reads nothing; and without memory there is nothing to send, otherwise the flags match. -/
def Fine (mode : SpiMode) (mem : Bool) (desc : Desc) (bus : Bus) : Prop :=
  (bus.cs = true ∨ bus.clk = mode.bus.cpol ∨ (mode.bus.cpha = false ∧ desc.rxLen = 0)) ∧
    if desc.HasFront ∧ mem = false then desc.halDev.front = [] ∧ desc.tx = [] ∧ desc.rxLen = 0
    else desc.FlagsMatch ∧ max desc.tx.length desc.rxLen < 2 ^ 31

theorem early_eq_nil_iff : early mode bus = [] ↔ ¬ (Glitch mode bus ∧ mode.bus.cpha = true) := by
  rw [early]
  split
  next h => exact iff_of_false (List.cons_ne_nil _ _) (not_not.mpr h)
  next h => exact iff_of_true rfl h

theorem length_early_le : (early mode bus).length ≤ 1 := by
  rw [early]
  split
  · exact Nat.le_refl 1
  · exact Nat.zero_le 1

theorem skip_eq_zero_iff : skip mode bus = 0 ↔ ¬ (Glitch mode bus ∧ mode.bus.cpha = false) := by
  rw [skip]
  split
  next h => exact iff_of_false Nat.one_ne_zero (not_not.mpr h)
  next h => exact iff_of_true rfl h

/-- Nothing is sampled too early, and the slave is ahead of no byte that is read. -/
theorem clock_fine_iff {rxLen : Nat} :
    (bus.cs = true ∨ bus.clk = mode.bus.cpol ∨ (mode.bus.cpha = false ∧ rxLen = 0)) ↔
      early mode bus = [] ∧ (skip mode bus = 0 ∨ rxLen = 0) := by
  rw [early_eq_nil_iff, skip_eq_zero_iff, Glitch]
  by_cases hcs : bus.cs = true
  · simp [hcs]
  · by_cases hclk : bus.clk = mode.bus.cpol
    · simp [hclk]
    · cases hpha : mode.bus.cpha <;> simp [hcs, hclk]

theorem speaks_of_fine (hfine : desc.checkArg = true → (pinCs = false → bus.cs = false) → Fine mode mem desc bus) :
    Speaks mode mem pinCs desc bus := by
  intro hcheck hpin bits
  obtain ⟨hclock, hrest⟩ := hfine hcheck hpin
  obtain ⟨hearly, hskip⟩ := clock_fine_iff.mp hclock
  split at hrest
  next hmem =>
    obtain ⟨hfront, htx, hrx⟩ := hrest
    obtain ⟨bus', hcall, hsampled, hchanges⟩ := transceiveSync_of_no_mem bits hcheck hpin hmem
    refine ⟨_, _, bus', hcall, ⟨[], ?_, ?_⟩, hrx.symm, ?_, hchanges⟩
    · rw [hsampled, hearly, hfront, htx]
      rfl
    · rw [hrx, Nat.zero_sub]
      rfl
    · rw [hrx]
      rfl
  next hmem =>
    obtain ⟨hflags, hlen⟩ := hrest
    obtain ⟨rx, bus', hcall, hsampled, hrx, hread, hchanges⟩ := transceiveSync_exact bits hcheck hpin hmem hlen
    rw [softFront_eq hflags] at hsampled hread
    refine ⟨_, rx, bus', hcall, ⟨List.replicate (desc.rxLen - desc.tx.length) 0, ?_, List.length_replicate⟩, hrx, ?_,
      hchanges⟩
    · rw [hsampled, hearly, List.append_nil]
    · rw [hread]
      rcases hskip with hzero | hnone
      · rw [hzero, Nat.add_zero]
      · rw [hnone]
        rfl

theorem fine_of_speaks (h : Speaks mode mem pinCs desc bus) (hcheck : desc.checkArg = true)
    (hpin : pinCs = false → bus.cs = false) : Fine mode mem desc bus := by
  -- the slave's bits have a one just where the first byte is expected
  obtain ⟨err, rx, bus', hcall, hspoken⟩ :=
    h hcheck hpin fun i => decide (i = bus.place + 8 * desc.halDev.front.length)
  obtain ⟨filler, hsampled, hfiller⟩ := hspoken.sampled
  rw [Fine, clock_fine_iff]
  have hshort : (early mode bus).length ≤ 1 := length_early_le
  split
  next hmem =>
    obtain ⟨bus₁, hcall₁, hsampled₁, -⟩ := transceiveSync_of_no_mem
      (fun i => decide (i = bus.place + 8 * desc.halDev.front.length)) hcheck hpin hmem
    obtain ⟨rfl, hrest⟩ := Prod.mk.inj (Option.some.inj (hcall₁.symm.trans hcall))
    obtain ⟨rfl, rfl⟩ := Prod.mk.inj hrest
    have hrx : desc.rxLen = 0 := hspoken.length.symm
    have hbits := congrArg List.length (List.append_cancel_left (hsampled₁.symm.trans hsampled))
    rw [length_flatMap_order, List.length_append, List.length_append] at hbits
    refine ⟨⟨List.length_eq_zero_iff.mp (by omega), Or.inr hrx⟩, List.length_eq_zero_iff.mp (by omega),
      List.length_eq_zero_iff.mp (by omega), hrx⟩
  next hmem =>
    by_cases hlen : max desc.tx.length desc.rxLen < 2 ^ 31
    · obtain ⟨rx₁, bus₁, hcall₁, hsampled₁, -, hread, -⟩ := transceiveSync_exact
        (fun i => decide (i = bus.place + 8 * desc.halDev.front.length)) hcheck hpin hmem hlen
      obtain ⟨rfl, hrest⟩ := Prod.mk.inj (Option.some.inj (hcall₁.symm.trans hcall))
      obtain ⟨rfl, rfl⟩ := Prod.mk.inj hrest
      rw [List.append_assoc] at hsampled₁
      have hbits := congrArg List.length (List.append_cancel_left (hsampled₁.symm.trans hsampled))
      simp only [length_flatMap_order, List.length_append, List.length_replicate] at hbits
      have hfront : desc.softFront.length = desc.halDev.front.length := by omega
      refine ⟨⟨List.length_eq_zero_iff.mp (by omega), ?_⟩, flagsMatch_of_length hfront, hlen⟩
      by_contra hahead
      rw [not_or] at hahead
      have hfirst := congrArg (·[0]?) (hread.symm.trans hspoken.read)
      have hskip : skip mode bus = 1 := by
        unfold skip at hahead ⊢
        split
        · rfl
        next h => exact absurd (if_neg h) hahead.1
      simp only [List.getElem?_map, List.getElem?_range (show 0 < 8 * desc.rxLen by omega), Option.map_some, hskip,
        hfront, Option.some.injEq, decide_eq_decide] at hfirst
      omega
    · rw [transceiveSync_of_long _ hcheck hpin hmem hlen] at hcall
      cases hcall

end

/-- The drivers speak the same protocol exactly when the condition holds of an accepted descriptor. -/
theorem speaks_iff (mode : SpiMode) (mem pinCs : Bool) (desc : Desc) (bus : Bus) : Speaks mode mem pinCs desc bus ↔
    (desc.checkArg = true → (pinCs = false → bus.cs = false) → Fine mode mem desc bus) :=
  ⟨fine_of_speaks, speaks_of_fine⟩

/-- A descriptor with an address of one byte and its flag, and a length of one byte left in the command without its
flag. -/
def staleCmd : Desc where
  dummyFlag := false
  cmdFlag := false
  addrFlag := true
  bigEndian := true
  keepActive := false
  tx := []
  rxLen := 0
  fields := ⟨1, 1, 0, fun _ => 0x9F, fun _ => 0x20⟩

/-- The slave samples the command, too. -/
theorem not_speaks_stale : ¬ Speaks .mode0 true true staleCmd ⟨false, false, true, [], 0, []⟩ := by
  intro h
  obtain ⟨err, rx, bus', hcall, hspoken⟩ := h rfl nofun fun _ => false
  have hrun : (transceiveSync .mode0 (fun _ => false) true true staleCmd ⟨false, false, true, [], 0, []⟩).map
      (·.2.2.sampled.length) = some 16 := by decide +kernel
  rw [hcall] at hrun
  obtain ⟨filler, hsampled, hfiller⟩ := hspoken.sampled
  have hlen : bus'.sampled.length = 8 := by
    rw [hsampled, List.nil_append, length_flatMap_order, List.length_append, hfiller]
    decide +kernel
  rw [Option.map_some, hlen] at hrun
  exact absurd hrun (by decide)

end WmIot.SpiMaster
