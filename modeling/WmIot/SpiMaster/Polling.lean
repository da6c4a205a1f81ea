import WmIot.Lib.WordFifo

/-!
# The polling transfer of the SPI master

`wm_hal_spim_tx_rx_polling` of `wm_hal_spi_master.c` in the little-endian mode, with the front phase that sends
command, address and dummy bytes. No wait times out. The received bytes, the bytes that are sent when nothing is
filled in and the bytes behind a short word come from outside.
-/

namespace WmIot.SpiMaster
open WordFifo
set_option autoImplicit false

abbrev Byte := BitVec 8

/-- What the other side and the hardware give: by the place on the wire, and by the place in a word. -/
structure Wire where
  miso : Nat → Byte
  idle : Nat → Byte
  junk : Nat → Byte

/-- The peripheral, and the bytes that it has shifted out. -/
structure Spi where
  txFifo : List Byte
  rxFifo : List (List Byte)
  rxChOn : Bool
  mosi : List Byte

/-- `n` bytes received from a place on the wire on. -/
def Wire.received (wire : Wire) (at' n : Nat) : List Byte := (List.range n).map fun i => wire.miso (at' + i)

/-- `n` bytes shifted out: those filled in, and the others as they come. -/
def Spi.shifted (s : Spi) (wire : Wire) (n : Nat) : List Byte :=
  (List.range n).map fun i => s.txFifo.getD i (wire.idle (s.mosi.length + i))

/-- An exchange of `n` bytes. -/
def exchange (wire : Wire) (n : Nat) (s : Spi) : Spi where
  txFifo := s.txFifo.drop n
  rxFifo := if s.rxChOn then s.rxFifo ++ words (wire.received s.mosi.length n) else s.rxFifo
  rxChOn := s.rxChOn
  mosi := s.mosi ++ s.shifted wire n

def Spi.clrFifo (s : Spi) : Spi := { s with txFifo := [], rxFifo := [] }

/-- `wm_hal_spi_fill_tx_fifo`: the words of the data, and at their end a word that is filled up. -/
def fillTxFifo (s : Spi) (data : List Byte) : Nat × Spi :=
  let fifoRemainSpace := (32 - s.txFifo.length) % 256
  let maxFillSize := if data.length < fifoRemainSpace then data.length else fifoRemainSpace
  let txFifo := s.txFifo ++ data.take (4 * (maxFillSize / 4))
  let leftByte := maxFillSize % 4
  if data.length ≤ fifoRemainSpace then
    if leftByte ≠ 0 then
      let tmpValue := (data.drop (4 * (maxFillSize / 4))).take leftByte ++ List.replicate (4 - leftByte) 0#8
      (maxFillSize, { s with txFifo := txFifo ++ tmpValue })
    else (maxFillSize, { s with txFifo := txFifo })
  else (maxFillSize - leftByte, { s with txFifo := txFifo })

/-- The loop of `wm_hal_spi_get_rx_fifo` over `n` words: the bytes read, the rest of the length and the FIFO. -/
def readWords (wire : Wire) : Nat → Nat → List (List Byte) → List Byte → List Byte × Nat × List (List Byte)
  | 0, remain, fifo, rx => (rx, remain, fifo)
  | n + 1, remain, fifo, rx =>
    let data32 := readWord wire.junk (fifo.headD [])
    if 4 ≤ remain then readWords wire n (remain - 4) fifo.tail (rx ++ data32)
    else (rx ++ data32.take remain, 0, fifo.tail)

/-- `wm_hal_spi_get_rx_fifo` -/
def getRxFifo (wire : Wire) (fifo : List (List Byte)) (remainRxLen : Nat) : List Byte × List (List Byte) :=
  let fifoLevel := level fifo % 256
  let rwBytes := fifoLevel % 4
  let (rx, remainRxLen, fifo) := readWords wire (fifoLevel / 4) remainRxLen fifo []
  if rwBytes ≠ 0 ∧ remainRxLen ≠ 0 ∧ remainRxLen ≤ fifoLevel then
    (rx ++ (readWord wire.junk (fifo.headD [])).take (min rwBytes remainRxLen), fifo.tail)
  else (rx, fifo)

/-- The loop of `wm_hal_spim_tx_polling`, at most `fuel` turns. -/
def txLoop (wire : Wire) : Nat → List Byte → Spi → Option Spi
  | _, [], s => some s
  | 0, _ :: _, _ => none
  | fuel + 1, b :: data, s =>
    let (txFillLen, s) := fillTxFifo s (b :: data)
    txLoop wire fuel ((b :: data).drop txFillLen) (exchange wire txFillLen s)

/-- `wm_hal_spim_tx_polling` -/
def txPolling (wire : Wire) (fuel : Nat) (data : List Byte) (s : Spi) : Option Spi :=
  txLoop wire fuel data { s.clrFifo with rxChOn := false }

/-- The fields of `wm_hal_spim_dev_t` for the front phase, with the bytes in memory from `cmd` and `addr` on. -/
structure Dev where
  cmdLen : BitVec 8
  addrLen : BitVec 8
  dummyBits : BitVec 8
  cmd : Nat → Byte
  addr : Nat → Byte

def Dev.cmdBytes (dev : Dev) : List Byte := (List.range dev.cmdLen.toNat).map dev.cmd

def Dev.addrBytes (dev : Dev) : List Byte := (List.range dev.addrLen.toNat).map dev.addr

/-- `data_len`, of 8 bits -/
def Dev.dataLen (dev : Dev) : Nat :=
  ((if dev.dummyBits.toNat % 8 ≠ 0 then 1 else 0) +
    (dev.cmdLen.toNat + dev.addrLen.toNat + dev.dummyBits.toNat / 8)) % 256

/-- `fill_len`, of 8 bits -/
def Dev.fillLen (dev : Dev) : Nat :=
  if dev.dataLen % 4 ≠ 0 then (dev.dataLen + (4 - dev.dataLen % 4)) % 256 else dev.dataLen

/-- `memcpy` into a buffer; `none` when it writes behind its end. -/
def memcpy (buf : List Byte) (at' : Nat) (src : List Byte) : Option (List Byte) :=
  if at' + src.length ≤ buf.length then some (buf.take at' ++ src ++ buf.drop (at' + src.length)) else none

/-- `data_buf`, from an allocation of `fill_len` bytes; the null pointer has none. -/
def Dev.dataBuf (dev : Dev) : Option (List Byte) := do
  let buf := if dev.dataLen = 0 then [] else List.replicate dev.fillLen 0xFF#8
  let buf ← memcpy buf 0 dev.cmdBytes
  memcpy buf dev.cmdLen.toNat dev.addrBytes

/-- `wm_hal_spim_tx_handler_cmd_addr`; `mem` is that the allocation succeeds. -/
def txHandlerCmdAddr (wire : Wire) (fuel : Nat) (mem : Bool) (dev : Dev) (s : Spi) : Option Spi :=
  if dev.dataLen ≠ 0 ∧ mem = false then some s
  else do
    let buf ← dev.dataBuf
    if dev.dataLen = 0 then some s else txPolling wire fuel (buf.take dev.dataLen) s

/-- Where the loop of `wm_hal_spim_tx_rx_polling` is. -/
structure Xfer where
  spi : Spi
  tx : List Byte
  remainRxLen : Nat
  rx : List Byte

/-- The condition of the loop, where the length to receive is compared as a signed number. -/
def Xfer.Goes (x : Xfer) : Prop := x.tx ≠ [] ∨ (0 < x.remainRxLen ∧ x.remainRxLen < 2 ^ 31)

instance (x : Xfer) : Decidable x.Goes := inferInstanceAs (Decidable (_ ∨ _))

/-- How many bytes a turn exchanges, and what it fills in. -/
def Xfer.fill (x : Xfer) : Nat × Spi :=
  if x.tx ≠ [] then fillTxFifo x.spi x.tx else (if 32 < x.remainRxLen then 32 else x.remainRxLen, x.spi)

/-- One turn of the loop. -/
def Xfer.turn (wire : Wire) (x : Xfer) : Xfer :=
  let (txRxLen, spi) := x.fill
  let tx := if x.tx ≠ [] then x.tx.drop txRxLen else []
  let spi := if x.remainRxLen = 0 then { spi with rxChOn := false } else spi
  let spi := exchange wire txRxLen spi
  if x.remainRxLen ≠ 0 then
    let (rx, rxFifo) := getRxFifo wire spi.rxFifo x.remainRxLen
    { spi := { spi with rxFifo := rxFifo }, tx := tx, remainRxLen := x.remainRxLen - rx.length, rx := x.rx ++ rx }
  else { x with spi := spi, tx := tx }

/-- The loop, at most `fuel` turns. -/
def loop (wire : Wire) : Nat → Xfer → Option Xfer
  | 0, x => if x.Goes then none else some x
  | fuel + 1, x => if x.Goes then loop wire fuel (x.turn wire) else some x

/-- `wm_hal_spim_tx_rx_polling` with a buffer for the bytes to receive: the peripheral at the end, and the buffer as
far as it is written. -/
def txRxPolling (wire : Wire) (fuel : Nat) (mem : Bool) (dev : Dev) (s : Spi) (tx : List Byte) (rxLen : Nat) :
    Option Xfer := do
  let s ← txHandlerCmdAddr wire fuel mem dev s
  loop wire fuel ⟨{ s.clrFifo with rxChOn := rxLen ≠ 0 }, tx, rxLen, []⟩

/-- The bytes of the front phase. -/
def Dev.front (dev : Dev) : List Byte :=
  dev.cmdBytes ++ dev.addrBytes ++ List.replicate ((dev.dummyBits.toNat + 7) / 8) 0xFF#8

/-- The transfer ends, has sent the front phase, the data and then only what receiving needs, and the buffer holds
the bytes received behind the front phase. -/
def Exchanges (mem : Bool) (dev : Dev) (tx : List Byte) (rxLen : Nat) : Prop :=
  ∀ wire s, ∃ x : Xfer, (∃ turns, ∀ fuel, turns ≤ fuel → txRxPolling wire fuel mem dev s tx rxLen = some x) ∧
    (∃ filler, x.spi.mosi = s.mosi ++ dev.front ++ tx ++ filler ∧ filler.length = rxLen - tx.length) ∧
    x.rx = wire.received (s.mosi.length + dev.front.length) rxLen

/-! ### One exchange -/

section
variable (wire : Wire) {s : Spi} {data l : List Byte} {n k remain : Nat} {rx : List Byte} {x : Xfer}

theorem length_received (a n : Nat) : (wire.received a n).length = n := by
  rw [Wire.received, List.length_map, List.length_range]

theorem received_add (a m n : Nat) : wire.received a (m + n) = wire.received a m ++ wire.received (a + m) n := by
  simp only [Wire.received, List.range_add, List.map_append, List.map_map]
  congr 1
  exact List.map_congr_left fun i _ => congrArg wire.miso (Nat.add_assoc a m i).symm

theorem take_received (a : Nat) {k n : Nat} (h : k ≤ n) : (wire.received a n).take k = wire.received a k := by
  obtain ⟨m, rfl⟩ := Nat.exists_eq_add_of_le h
  rw [received_add, List.take_left' (length_received wire a k)]

/-- An exchange of what is filled in. -/
theorem mosi_exchange (h : s.txFifo.take n = data) (hlen : data.length = n) :
    (exchange wire n s).mosi = s.mosi ++ data := by
  have hn : n ≤ s.txFifo.length := by
    rw [← h, List.length_take] at hlen
    omega
  simp only [exchange, Spi.shifted]
  congr 1
  refine List.ext_getElem? fun i => ?_
  rw [← h, List.getElem?_map, List.getElem?_take]
  split
  next hi => rw [List.getElem?_range hi, Option.map_some, List.getD_eq_getElem _ _ (by omega), List.getElem?_eq_getElem]
  next hi => rw [List.getElem?_eq_none (by rw [List.length_range]; omega), Option.map_none]

/-- Data is filled into an empty FIFO in pieces of 32 bytes. -/
theorem fillTxFifo_eq (hempty : s.txFifo = []) (data : List Byte) : ∃ filled,
    fillTxFifo s data = (min 32 data.length, { s with txFifo := filled }) ∧
      filled.take (min 32 data.length) = data.take 32 ∧ (32 < data.length → filled.length = 32) := by
  unfold fillTxFifo
  simp only [hempty, List.length_nil, Nat.sub_zero, show 32 % 256 = 32 from rfl]
  rcases Nat.lt_or_ge 32 data.length with hlong | hshort
  · rw [if_neg (show ¬ data.length < 32 by omega), if_neg (show ¬ data.length ≤ 32 by omega),
      Nat.min_eq_left (Nat.le_of_lt hlong)]
    exact ⟨data.take 32, rfl, by rw [List.take_take, Nat.min_self], fun _ => by rw [List.length_take]; omega⟩
  · have hmax : (if data.length < 32 then data.length else 32) = data.length := by
      split <;> omega
    have hparts : data.take (4 * (data.length / 4)) ++
        (data.drop (4 * (data.length / 4))).take (data.length % 4) = data := by
      have htail : (data.drop (4 * (data.length / 4))).take (data.length % 4) = data.drop (4 * (data.length / 4)) :=
        List.take_of_length_le (by rw [List.length_drop]; omega)
      rw [htail, List.take_append_drop]
    rw [hmax, if_pos hshort, Nat.min_eq_right hshort, List.take_of_length_le hshort]
    split
    next =>
      refine ⟨_, rfl, ?_, fun h => absurd hshort (Nat.not_le.mpr h)⟩
      rw [List.nil_append, ← List.append_assoc, hparts, List.take_left]
    next hzero =>
      refine ⟨_, rfl, ?_, fun h => absurd hshort (Nat.not_le.mpr h)⟩
      rw [List.nil_append, List.take_take, show min data.length (4 * (data.length / 4)) = data.length by omega,
        List.take_length]

/-! ### What is read -/

/-- Whole words, of which the length takes all. -/
theorem readWords_all (rx : List Byte) (hn : 4 * n ≤ l.length) (hremain : 4 * n ≤ remain) :
    readWords wire n remain (words l) rx = (rx ++ l.take (4 * n), remain - 4 * n, words (l.drop (4 * n))) := by
  induction n generalizing l remain rx with
  | zero => rw [readWords, Nat.mul_zero, List.take_zero, List.append_nil, Nat.sub_zero, List.drop_zero]
  | succ n ih =>
    have hword : (l.take 4).length = 4 := by
      rw [List.length_take]
      omega
    rw [readWords, words_of_le (by omega), List.headD_cons, List.tail_cons, readWord_eq hword, if_pos (by omega),
      ih _ (by rw [List.length_drop]; omega) (by omega), List.append_assoc, List.drop_drop]
    refine Prod.ext ?_ (Prod.ext (by simp only; omega) ?_)
    · rw [show 4 * (n + 1) = 4 + 4 * n by omega, List.take_add]
    · rw [show 4 * (n + 1) = 4 + 4 * n by omega]

/-- Whole words, in which the length ends. -/
theorem readWords_some (rx : List Byte) {remain : Nat} (hn : 4 * n ≤ l.length) (hremain : remain < 4 * n) :
    ∃ fifo, readWords wire n remain (words l) rx = (rx ++ l.take remain, 0, fifo) := by
  induction n generalizing l remain rx with
  | zero => omega
  | succ n ih =>
    have hword : (l.take 4).length = 4 := by
      rw [List.length_take]
      omega
    rw [readWords, words_of_le (by omega), List.headD_cons, List.tail_cons, readWord_eq hword]
    split
    next hfour =>
      have hless : remain - 4 < 4 * n := by omega
      obtain ⟨fifo, hrest⟩ := ih (rx ++ l.take 4) (l := l.drop 4) (by rw [List.length_drop]; omega) hless
      refine ⟨fifo, hrest.trans ?_⟩
      rw [List.append_assoc, ← List.take_add, Nat.add_sub_cancel' hfour]
    next hfour => exact ⟨_, by rw [List.take_take, Nat.min_eq_left (by omega)]⟩

/-- What is read of a FIFO with one run of bytes: all that is asked for, or no bytes of the last, short word. -/
theorem getRxFifo_words (remain : Nat) (hl : l.length < 256) :
    if l.length % 4 = 0 ∨ remain ≤ l.length + 4 * (l.length / 4) then
      ∃ fifo, getRxFifo wire (words l) remain = (l.take remain, fifo) ∧ (l.length < remain → fifo = [])
    else getRxFifo wire (words l) remain = (l.take (4 * (l.length / 4)), [l.drop (4 * (l.length / 4))]) := by
  simp only [getRxFifo, level_words, Nat.mod_eq_of_lt hl]
  rcases Nat.lt_or_ge remain (4 * (l.length / 4)) with hlt | hge
  · obtain ⟨fifo, hread⟩ := readWords_some wire [] (Nat.mul_div_le l.length 4) hlt
    rw [hread, if_pos (Or.inr (by omega))]
    exact ⟨fifo, by rw [if_neg fun h => h.2.1 rfl, List.nil_append], fun h => absurd h (by omega)⟩
  · rw [readWords_all wire [] (Nat.mul_div_le l.length 4) hge, List.nil_append]
    have hrest : (l.drop (4 * (l.length / 4))).length = l.length % 4 := by
      rw [List.length_drop]
      omega
    rcases Nat.eq_zero_or_pos (l.length % 4) with hzero | hpos
    · rw [if_pos (Or.inl hzero), if_neg fun h => h.1 hzero]
      refine ⟨[], ?_, fun _ => rfl⟩
      rw [List.take_of_length_le (show l.length ≤ remain by omega), List.take_of_length_le (by omega),
        List.drop_of_length_le (by omega)]
      rfl
    · have hnil : l.drop (4 * (l.length / 4)) ≠ [] := fun h => by
        rw [h] at hrest
        exact absurd hrest.symm (Nat.ne_of_gt hpos)
      rw [words_short hnil (by omega)]
      simp only [List.headD_cons, List.tail_cons]
      split
      next hfine =>
        have hle := hfine.resolve_left (Nat.ne_of_gt hpos)
        rcases Nat.eq_zero_or_pos (remain - 4 * (l.length / 4)) with hdone | hmore
        · rw [if_neg fun h => h.2.1 hdone]
          exact ⟨_, by rw [show remain = 4 * (l.length / 4) by omega], fun h => absurd h (by omega)⟩
        · rw [if_pos ⟨Nat.ne_of_gt hpos, Nat.ne_of_gt hmore, by omega⟩,
            take_readWord (by rw [hrest]; exact Nat.min_le_left _ _) (by omega)]
          refine ⟨[], Prod.ext ?_ rfl, fun _ => rfl⟩
          simp only
          rw [← List.take_add]
          rcases Nat.le_total l.length remain with hlong | hshort
          · rw [List.take_of_length_le hlong, List.take_of_length_le (by omega)]
          · congr 1
            omega
      next hfine =>
        rw [not_or] at hfine
        rw [if_neg fun h => hfine.2 (by omega)]

/-! ### One turn -/

/-- Nothing is left over in the FIFOs that the turn uses. -/
structure Xfer.Ready (x : Xfer) : Prop where
  tx : x.tx = [] ∨ x.spi.txFifo = []
  rx : x.remainRxLen = 0 ∨ (x.spi.rxFifo = [] ∧ x.spi.rxChOn = true)

/-- How many bytes a turn exchanges. -/
def Xfer.len (x : Xfer) : Nat := min 32 (if x.tx ≠ [] then x.tx.length else x.remainRxLen)

theorem Xfer.len_pos (h : x.Goes) : 0 < x.len ∧ x.len ≤ 32 ∧ (x.tx ≠ [] → x.len ≤ x.tx.length) := by
  unfold Xfer.len
  split
  next hne =>
    have := List.length_pos_iff.mpr hne
    omega
  next hnil =>
    have := (h.resolve_left hnil).1
    exact ⟨by omega, by omega, fun hne => absurd hne hnil⟩

/-- What a turn fills in and sends. -/
theorem Xfer.fill_eq (h : x.Ready) : ∃ spi, x.fill = (x.len, spi) ∧ spi.rxFifo = x.spi.rxFifo ∧
    spi.rxChOn = x.spi.rxChOn ∧ spi.mosi = x.spi.mosi ∧ (x.tx ≠ [] → spi.txFifo.take x.len = x.tx.take x.len) ∧
    (32 < x.tx.length → spi.txFifo.length = 32) := by
  unfold Xfer.fill Xfer.len
  split
  next hne =>
    obtain ⟨filled, hfill, htake, hlong⟩ := fillTxFifo_eq (h.tx.resolve_left hne) x.tx
    refine ⟨_, hfill, rfl, rfl, rfl, fun _ => htake.trans ?_, hlong⟩
    rcases Nat.le_total 32 x.tx.length with hle | hle
    · rw [Nat.min_eq_left hle]
    · rw [Nat.min_eq_right hle, List.take_of_length_le hle, List.take_length]
  next hnil =>
    rw [not_not] at hnil
    refine ⟨x.spi, Prod.ext ?_ rfl, rfl, rfl, rfl, fun hne => absurd hnil hne, fun hlong => ?_⟩
    · simp only
      split <;> omega
    · rw [hnil] at hlong
      exact absurd hlong (Nat.not_lt_zero _)

/-- What a turn does, whatever it reads. -/
theorem Xfer.turn_eq (hready : x.Ready) (hgoes : x.Goes) :
    (x.turn wire).tx = x.tx.drop x.len ∧ ((x.turn wire).tx = [] ∨ (x.turn wire).spi.txFifo = []) ∧
      (∃ filler, (x.turn wire).spi.mosi = x.spi.mosi ++ x.tx.take x.len ++ filler ∧
        filler.length = x.len - x.tx.length) ∧
      if x.remainRxLen = 0 then (x.turn wire).remainRxLen = 0 ∧ (x.turn wire).rx = x.rx
      else (x.turn wire).spi.rxChOn = true ∧
        ∃ rx, getRxFifo wire (words (wire.received x.spi.mosi.length x.len)) x.remainRxLen =
          (rx, (x.turn wire).spi.rxFifo) ∧ (x.turn wire).remainRxLen = x.remainRxLen - rx.length ∧
          (x.turn wire).rx = x.rx ++ rx := by
  obtain ⟨spi, hfill, hrxFifo, hon, hmosi, htake, hlong⟩ := Xfer.fill_eq hready
  obtain ⟨-, -, hle⟩ := Xfer.len_pos hgoes
  have htx : (if x.tx ≠ [] then x.tx.drop x.len else []) = x.tx.drop x.len := by
    split
    · rfl
    next hnil => rw [not_not.mp hnil, List.drop_nil]
  have hempty : x.tx.drop x.len = [] ∨ spi.txFifo.drop x.len = [] := by
    rcases Nat.lt_or_ge 32 x.tx.length with hlt | hshort
    · have hne : x.tx ≠ [] := fun hnil => by
        rw [hnil] at hlt
        exact absurd hlt (Nat.not_lt_zero _)
      refine Or.inr (List.drop_of_length_le ?_)
      rw [hlong hlt, Xfer.len, if_pos hne]
      omega
    · refine Or.inl (List.drop_of_length_le ?_)
      rw [Xfer.len]
      split
      · omega
      next hnil =>
        rw [not_not.mp hnil]
        exact Nat.zero_le _
  have hsent : ∀ on, ∃ filler, (exchange wire x.len { spi with rxChOn := on }).mosi =
      x.spi.mosi ++ x.tx.take x.len ++ filler ∧ filler.length = x.len - x.tx.length := by
    intro on
    by_cases hne : x.tx = []
    · refine ⟨({ spi with rxChOn := on } : Spi).shifted wire x.len, ?_, ?_⟩
      · rw [hne, List.take_nil, List.append_nil, exchange, hmosi]
      · rw [hne, Spi.shifted, List.length_map, List.length_range]
        rfl
    · refine ⟨[], ?_, by rw [List.length_nil]; have := hle hne; omega⟩
      rw [List.append_nil, mosi_exchange wire (s := { spi with rxChOn := on }) (htake hne)
        (by rw [List.length_take]; have := hle hne; omega), hmosi]
  unfold Xfer.turn
  rw [hfill]
  simp only [htx]
  by_cases hzero : x.remainRxLen = 0
  · rw [if_pos hzero, if_neg (not_not.mpr hzero), if_pos hzero]
    exact ⟨rfl, hempty, hsent false, hzero, rfl⟩
  · obtain ⟨hnil, hrxOn⟩ := hready.rx.resolve_left hzero
    rw [if_neg hzero, if_pos hzero, if_neg hzero]
    have hwords : (exchange wire x.len spi).rxFifo = words (wire.received x.spi.mosi.length x.len) := by
      rw [exchange, hrxFifo, hnil, hon, hrxOn, hmosi]
      rfl
    rw [hwords]
    refine ⟨rfl, hempty, hsent spi.rxChOn, hon.trans hrxOn, _, rfl, rfl, rfl⟩

/-- A turn that reads all that it receives. -/
theorem Xfer.turn_exact (hready : x.Ready) (hgoes : x.Goes)
    (hread : x.len % 4 = 0 ∨ x.remainRxLen ≤ x.len + 4 * (x.len / 4)) :
    (x.turn wire).Ready ∧ (x.turn wire).remainRxLen = x.remainRxLen - x.len ∧
      (x.turn wire).rx = x.rx ++ wire.received x.spi.mosi.length (min x.len x.remainRxLen) := by
  obtain ⟨-, htx, -, hrx⟩ := Xfer.turn_eq wire hready hgoes
  have hlen := length_received wire x.spi.mosi.length x.len
  split at hrx
  next hzero =>
    refine ⟨⟨htx, Or.inl hrx.1⟩, by rw [hrx.1, hzero, Nat.zero_sub], ?_⟩
    rw [hrx.2, hzero, Nat.min_zero]
    exact (List.append_nil _).symm
  next hzero =>
    obtain ⟨hon, rx, hget, hremain, hrx⟩ := hrx
    have hwords := getRxFifo_words wire x.remainRxLen (l := wire.received x.spi.mosi.length x.len)
      (by have := (Xfer.len_pos hgoes).2.1; omega)
    rw [hlen, if_pos hread] at hwords
    obtain ⟨fifo, hfifo, hrest⟩ := hwords
    rw [hfifo] at hget
    obtain ⟨hrx', hfifo'⟩ := Prod.mk.inj hget
    have htake : (wire.received x.spi.mosi.length x.len).take x.remainRxLen =
        wire.received x.spi.mosi.length (min x.len x.remainRxLen) := by
      rcases Nat.le_total x.len x.remainRxLen with hle | hle
      · rw [Nat.min_eq_left hle, List.take_of_length_le (by omega)]
      · rw [Nat.min_eq_right hle, take_received wire _ hle]
    rw [htake] at hrx'
    have hcount : rx.length = min x.len x.remainRxLen := by
      rw [← hrx', length_received]
    refine ⟨⟨htx, ?_⟩, by rw [hremain, hcount]; omega, by rw [hrx, hrx']⟩
    rcases Nat.lt_or_ge x.len x.remainRxLen with hlt | hge
    · exact Or.inr ⟨hfifo'.symm.trans (hrest hlt), hon⟩
    · exact Or.inl (by omega)

/-! ### The loop -/

/-- No turn leaves bytes of a short word behind, and the length to receive is a positive number of 32 bits where it
matters. -/
def Xfer.Fine (x : Xfer) : Prop :=
  x.remainRxLen < 2 ^ 31 + x.tx.length ∧
    (x.tx.length % 4 = 0 ∨ x.remainRxLen ≤ x.tx.length + 4 * (x.tx.length % 32 / 4))

theorem loop_of_not_goes (h : ¬ x.Goes) (fuel : Nat) : loop wire fuel x = some x := by
  cases fuel with
  | zero => rw [loop, if_neg h]
  | succ fuel => rw [loop, if_neg h]

theorem Xfer.Fine.reads (hfine : x.Fine) (hgoes : x.Goes) :
    x.len % 4 = 0 ∨ x.remainRxLen ≤ x.len + 4 * (x.len / 4) := by
  obtain ⟨-, hread⟩ := hfine
  unfold Xfer.len
  split
  · omega
  next hnil =>
    have := (hgoes.resolve_left hnil).1
    omega

theorem Xfer.Fine.turn (hfine : x.Fine) (hready : x.Ready) (hgoes : x.Goes) : (x.turn wire).Fine := by
  obtain ⟨-, hremain, -⟩ := Xfer.turn_exact wire hready hgoes (hfine.reads hgoes)
  unfold Xfer.Fine at *
  rw [hremain, (Xfer.turn_eq wire hready hgoes).1, List.length_drop]
  obtain ⟨-, hle, hlen⟩ := Xfer.len_pos hgoes
  by_cases hnil : x.tx = []
  · rw [hnil, List.length_nil] at hfine ⊢
    omega
  · have := hlen hnil
    have hlen : x.len = min 32 x.tx.length := by rw [Xfer.len, if_pos hnil]
    omega

/-- From a state with nothing left over the loop sends the data, and receives all. -/
theorem loop_exact (hfine : x.Fine) (hready : x.Ready) :
    ∃ x', (∀ fuel, x.tx.length + x.remainRxLen ≤ fuel → loop wire fuel x = some x') ∧
      (∃ filler, x'.spi.mosi = x.spi.mosi ++ x.tx ++ filler ∧ filler.length = x.remainRxLen - x.tx.length) ∧
      x'.rx = x.rx ++ wire.received x.spi.mosi.length x.remainRxLen := by
  generalize hm : x.tx.length + x.remainRxLen = m
  induction m using Nat.strong_induction_on generalizing x with
  | _ m ih =>
    by_cases hgoes : x.Goes
    · obtain ⟨hpos, -, hle⟩ := Xfer.len_pos hgoes
      obtain ⟨hready', hremain, hrx⟩ := Xfer.turn_exact wire hready hgoes (hfine.reads hgoes)
      obtain ⟨htx, -, ⟨filler, hmosi, hfiller⟩, -⟩ := Xfer.turn_eq wire hready hgoes
      have hlen := congrArg List.length hmosi
      simp only [List.length_append, List.length_take] at hlen
      have hpart : x.len ≤ x.tx.length ∨ x.tx = [] ∧ x.len ≤ x.remainRxLen := by
        by_cases hnil : x.tx = []
        · refine Or.inr ⟨hnil, ?_⟩
          rw [Xfer.len, if_neg (not_not.mpr hnil)]
          exact Nat.min_le_right _ _
        · exact Or.inl (hle hnil)
      have hnil : x.tx = [] → x.tx.length = 0 := fun h => by rw [h]; rfl
      obtain ⟨x', hloop, ⟨filler', hmosi', hfiller'⟩, hrx'⟩ := ih _
        (by rw [← hm, htx, hremain, List.length_drop]; omega) (hfine.turn wire hready hgoes) hready' rfl
      refine ⟨x', fun fuel hfuel => ?_, ?_, ?_⟩
      · obtain ⟨n, rfl⟩ : ∃ n, fuel = n + 1 := ⟨fuel - 1, by omega⟩
        rw [loop, if_pos hgoes]
        exact hloop n (by rw [htx, hremain, List.length_drop]; omega)
      · rcases hpart with hdata | ⟨hdone, hrest⟩
        · have hempty : filler = [] := List.length_eq_zero_iff.mp (by omega)
          refine ⟨filler', ?_, ?_⟩
          · rw [hmosi', hmosi, htx, hempty, List.append_nil, List.append_assoc x.spi.mosi, List.take_append_drop]
          · rw [hfiller', hremain, htx, List.length_drop]
            omega
        · refine ⟨filler ++ filler', ?_, ?_⟩
          · rw [hmosi', hmosi, htx, hdone, List.take_nil, List.drop_nil]
            simp only [List.append_nil, List.append_assoc]
          · rw [List.length_append, hfiller', hfiller, hremain, htx, List.length_drop, hnil hdone]
            omega
      · rw [hrx', hrx, hremain, List.append_assoc]
        congr 1
        rcases Nat.le_total x.len x.remainRxLen with hmore | hless
        · have hplace : (x.turn wire).spi.mosi.length = x.spi.mosi.length + x.len := by omega
          rw [hplace, Nat.min_eq_left hmore, ← received_add, Nat.add_sub_cancel' hmore]
        · rw [Nat.min_eq_right hless, Nat.sub_eq_zero_of_le hless]
          exact List.append_nil _
    · refine ⟨x, fun fuel _ => loop_of_not_goes wire hgoes fuel, ⟨[], ?_, ?_⟩, ?_⟩
      all_goals
        rw [Xfer.Goes, not_or, not_not] at hgoes
        have hzero : x.remainRxLen = 0 := by
          have := hfine.1
          rw [hgoes.1, List.length_nil] at this
          omega
      · rw [hgoes.1, List.append_nil, List.append_nil]
      · rw [hzero, Nat.zero_sub]
        rfl
      · rw [hzero]
        exact (List.append_nil _).symm

/-! ### Bytes left behind -/

/-- All bytes received are zero, and those behind a short word are not. -/
def zeros : Wire where
  miso := fun _ => 0
  idle := fun _ => 0
  junk := fun _ => 1

theorem received_zeros (a n : Nat) : zeros.received a n = List.replicate n 0 := by
  rw [Wire.received, List.eq_replicate_iff]
  refine ⟨by rw [List.length_map, List.length_range], fun b hb => ?_⟩
  obtain ⟨i, -, rfl⟩ := List.mem_map.mp hb
  rfl

theorem readWords_isPrefix (fifo : List (List Byte)) : rx <+: (readWords wire n remain fifo rx).1 := by
  induction n generalizing remain fifo rx with
  | zero => exact List.prefix_rfl
  | succ n ih =>
    rw [readWords]
    split
    · exact (List.prefix_append _ _).trans (ih _)
    · exact List.prefix_append _ _

/-- A read that finds a short word before others takes a byte behind its end. -/
theorem getRxFifo_short (k : Nat) {w : List Byte} {r : Nat} (hw : w ≠ []) (hlen : w.length < 4) (hr : w.length < r) :
    (getRxFifo wire (w :: words (wire.received k (min 32 r))) r).1[w.length]? = some (wire.junk w.length) := by
  have hpos := List.length_pos_iff.mpr hw
  have hword : (readWord wire.junk w)[w.length]? = some (wire.junk w.length) := by
    rw [getElem?_readWord w hlen, List.getD_eq_default _ _ (Nat.le_refl _)]
  have hof : ∀ {l : List Byte}, readWord wire.junk w <+: l → l[w.length]? = some (wire.junk w.length) := by
    rintro _ ⟨l, rfl⟩
    rw [List.getElem?_append_left (by rw [length_readWord]; exact hlen), hword]
  have hsome : ∀ {m : Nat} {l : List Byte}, w.length < m → (readWord wire.junk w).take m <+: l →
      l[w.length]? = some (wire.junk w.length) := by
    rintro m _ hm ⟨l, rfl⟩
    rw [List.getElem?_append_left (by rw [List.length_take, length_readWord]; omega), List.getElem?_take_of_lt hm,
      hword]
  simp only [getRxFifo, level_cons, level_words, length_received,
    Nat.mod_eq_of_lt (show w.length + min 32 r < 256 by omega)]
  rcases Nat.eq_zero_or_pos ((w.length + min 32 r) / 4) with hzero | hmore
  · rw [hzero, readWords]
    simp only [List.nil_append, List.headD_cons]
    rw [if_pos (by omega)]
    exact hsome (by omega) List.prefix_rfl
  · obtain ⟨n, hn⟩ : ∃ n, (w.length + min 32 r) / 4 = n + 1 := ⟨_, (Nat.succ_pred_eq_of_pos hmore).symm⟩
    have hread : ∀ l : List Byte, (readWords wire (n + 1) r (w :: words (wire.received k (min 32 r))) []).1 <+: l →
        l[w.length]? = some (wire.junk w.length) := by
      intro l hl
      rw [readWords, List.headD_cons, List.tail_cons, List.nil_append] at hl
      split at hl
      · exact hof ((readWords_isPrefix wire _).trans hl)
      · exact hsome hr hl
    rw [hn]
    split
    · exact hread _ (List.prefix_append _ _)
    · exact hread _ List.prefix_rfl

/-- A turn only adds to the bytes that are read. -/
theorem Xfer.turn_isPrefix (x : Xfer) : x.rx <+: (x.turn wire).rx := by
  unfold Xfer.turn
  simp only
  split
  · exact List.prefix_append _ _
  · exact List.prefix_rfl

theorem loop_isPrefix {fuel : Nat} {x' : Xfer} (h : loop wire fuel x = some x') : x.rx <+: x'.rx := by
  induction fuel generalizing x with
  | zero =>
    rw [loop] at h
    split at h
    · cases h
    · exact Option.some.inj h ▸ List.prefix_rfl
  | succ fuel ih =>
    rw [loop] at h
    split at h
    · exact (x.turn_isPrefix wire).trans (ih h)
    · exact Option.some.inj h ▸ List.prefix_rfl

/-- A loop that starts behind a short word, of which the rest of the length takes more than is there. -/
theorem loop_behind_short {w : List Byte} {fuel : Nat} {x' : Xfer} (htx : x.tx = []) (hon : x.spi.rxChOn = true)
    (hfifo : x.spi.rxFifo = [w]) (hw : w ≠ []) (hlen : w.length < 4) (hremain : w.length < x.remainRxLen)
    (h : loop zeros fuel x = some x') {m : Nat} (hm : x.rx.length < m) : x'.rx ≠ List.replicate m 0 := by
  intro hzeros
  by_cases hgoes : x.Goes
  · have hturn : (x.turn zeros).rx[x.rx.length + w.length]? = some 1 := by
      have hfill : x.fill = (min 32 x.remainRxLen, x.spi) := by
        rw [Xfer.fill, if_neg (not_not.mpr htx)]
        refine Prod.ext ?_ rfl
        simp only
        split <;> omega
      have hread := getRxFifo_short zeros x.spi.mosi.length hw hlen hremain
      unfold Xfer.turn
      rw [hfill]
      simp only
      rw [if_pos (by omega), if_neg (by omega)]
      simp only [exchange, hon, hfifo, if_true, List.singleton_append]
      rw [List.getElem?_append_right (Nat.le_add_right _ _), Nat.add_sub_cancel_left]
      exact hread
    have hrest : (x.turn zeros).rx <+: x'.rx := by
      cases fuel with
      | zero =>
        rw [loop, if_pos hgoes] at h
        cases h
      | succ fuel =>
        rw [loop, if_pos hgoes] at h
        exact loop_isPrefix zeros h
    obtain ⟨rest, hrest⟩ := hrest
    rw [hzeros] at hrest
    have hone : (List.replicate m (0 : Byte))[x.rx.length + w.length]? = some 1 := by
      rw [← hrest, List.getElem?_append_left (List.getElem?_eq_some_iff.mp hturn).1, hturn]
    exact absurd (List.eq_of_mem_replicate (List.mem_of_getElem? hone)) (by decide)
  · rw [loop_of_not_goes zeros hgoes] at h
    rw [← Option.some.inj h] at hzeros
    rw [hzeros, List.length_replicate] at hm
    exact Nat.lt_irrefl _ hm

theorem rx_ne_of_not_goes {fuel : Nat} {x' : Xfer} (hgoes : ¬ x.Goes) (hfine : ¬ x.Fine)
    (h : loop wire fuel x = some x') {m : Nat} (hm : m = x.rx.length + x.remainRxLen) :
    x'.rx ≠ List.replicate m 0 := by
  intro hzeros
  rw [loop_of_not_goes wire hgoes] at h
  obtain rfl := Option.some.inj h
  have hlen := congrArg List.length hzeros
  rw [List.length_replicate] at hlen
  refine hfine ?_
  rw [Xfer.Goes, not_or, not_not] at hgoes
  unfold Xfer.Fine
  rw [hgoes.1, List.length_nil]
  omega

theorem Xfer.not_fine_turn (hfine : ¬ x.Fine) (hready : x.Ready) (hgoes : x.Goes)
    (hread : x.len % 4 = 0 ∨ x.remainRxLen ≤ x.len + 4 * (x.len / 4)) : ¬ (x.turn wire).Fine := by
  intro hturn
  refine hfine ?_
  obtain ⟨-, hremain, -⟩ := Xfer.turn_exact wire hready hgoes hread
  unfold Xfer.Fine at *
  rw [hremain, (Xfer.turn_eq wire hready hgoes).1, List.length_drop] at hturn
  by_cases hnil : x.tx = []
  · have hlt := (hgoes.resolve_left (not_not.mpr hnil)).2
    rw [hnil, List.length_nil]
    omega
  · have hlen : x.len = min 32 x.tx.length := by rw [Xfer.len, if_pos hnil]
    omega

/-- The turn that leaves bytes of a short word behind. -/
theorem Xfer.turn_short (hready : x.Ready) (hgoes : x.Goes) (hshort : x.len % 4 ≠ 0)
    (hremain : x.len + 4 * (x.len / 4) < x.remainRxLen) :
    (x.turn wire).tx = [] ∧ (x.turn wire).spi.rxChOn = true ∧
      (∃ w, (x.turn wire).spi.rxFifo = [w] ∧ w.length = x.len % 4) ∧
      (x.turn wire).remainRxLen = x.remainRxLen - 4 * (x.len / 4) ∧
      (x.turn wire).rx.length = x.rx.length + 4 * (x.len / 4) := by
  obtain ⟨htx, -, -, hrx⟩ := Xfer.turn_eq wire hready hgoes
  rw [if_neg (show x.remainRxLen ≠ 0 by omega)] at hrx
  obtain ⟨hon, rx, hget, hremain', hrx⟩ := hrx
  have hlen := length_received wire x.spi.mosi.length x.len
  have hwords := getRxFifo_words wire x.remainRxLen (l := wire.received x.spi.mosi.length x.len)
    (by have := (Xfer.len_pos hgoes).2.1; omega)
  rw [hlen, if_neg (by omega)] at hwords
  obtain ⟨rfl, hfifo⟩ := Prod.mk.inj (hwords.symm.trans hget)
  have htake : ((wire.received x.spi.mosi.length x.len).take (4 * (x.len / 4))).length = 4 * (x.len / 4) := by
    rw [List.length_take]
    omega
  refine ⟨?_, hon, ⟨_, hfifo.symm, by rw [List.length_drop, hlen]; omega⟩, by rw [hremain', htake],
    by rw [hrx, List.length_append, htake]⟩
  rw [htx]
  refine List.drop_of_length_le ?_
  unfold Xfer.len at *
  split at hshort
  next hne =>
    rw [if_pos hne] at hremain ⊢
    omega
  next hnil =>
    rw [not_not.mp hnil]
    exact Nat.zero_le _

theorem loop_inexact {fuel : Nat} {x' : Xfer} (hready : x.Ready) (hfine : ¬ x.Fine)
    (h : loop zeros fuel x = some x') {m : Nat} (hm : m = x.rx.length + x.remainRxLen) :
    x'.rx ≠ List.replicate m 0 := by
  induction fuel generalizing x with
  | zero =>
    by_cases hgoes : x.Goes
    · rw [loop, if_pos hgoes] at h
      cases h
    · exact rx_ne_of_not_goes zeros hgoes hfine h hm
  | succ fuel ih =>
    by_cases hgoes : x.Goes
    · rw [loop, if_pos hgoes] at h
      by_cases hread : x.len % 4 = 0 ∨ x.remainRxLen ≤ x.len + 4 * (x.len / 4)
      · obtain ⟨hready', hremain, hrx⟩ := Xfer.turn_exact zeros hready hgoes hread
        refine ih hready' (Xfer.not_fine_turn zeros hfine hready hgoes hread) h ?_
        rw [hrx, hremain, List.length_append, length_received]
        omega
      · rw [not_or, Nat.not_le] at hread
        obtain ⟨htx, hon, ⟨w, hfifo, hw⟩, hremain, hrx⟩ := Xfer.turn_short zeros hready hgoes hread.1 hread.2
        exact loop_behind_short htx hon hfifo (List.length_pos_iff.mp (by omega)) (by omega) (by omega) h (by omega)
    · exact rx_ne_of_not_goes zeros hgoes hfine h hm

/-! ### The front phase -/

theorem txLoop_exact (data : List Byte) (hempty : s.txFifo = []) (hon : s.rxChOn = false) (hrx : s.rxFifo = []) :
    ∃ s', (∀ fuel, data.length ≤ fuel → txLoop wire fuel data s = some s') ∧ s'.mosi = s.mosi ++ data := by
  generalize hm : data.length = m
  induction m using Nat.strong_induction_on generalizing data s with
  | _ m ih =>
    cases data with
    | nil => exact ⟨s, fun fuel _ => by cases fuel <;> rfl, (List.append_nil _).symm⟩
    | cons b rest =>
      obtain ⟨filled, hfill, htake, hlong⟩ := fillTxFifo_eq hempty (b :: rest)
      have hlen : (b :: rest).length = rest.length + 1 := rfl
      have hsent : (exchange wire (min 32 (b :: rest).length) { s with txFifo := filled }).mosi =
          s.mosi ++ (b :: rest).take 32 :=
        mosi_exchange wire (s := { s with txFifo := filled }) htake (by rw [List.length_take])
      have hnext : (b :: rest).drop (min 32 (b :: rest).length) = (b :: rest).drop 32 := by
        rcases Nat.le_total 32 (b :: rest).length with hle | hle
        · rw [Nat.min_eq_left hle]
        · rw [Nat.min_eq_right hle, List.drop_length, List.drop_of_length_le hle]
      rcases Nat.lt_or_ge 32 (b :: rest).length with hmore | hlast
      · obtain ⟨s', hloop, hmosi⟩ := ih ((b :: rest).drop 32).length (by rw [List.length_drop]; omega)
          ((b :: rest).drop 32) (s := exchange wire (min 32 (b :: rest).length) { s with txFifo := filled })
          (List.drop_of_length_le (by rw [hlong hmore]; omega)) hon
          (by rw [exchange, if_neg (by rw [hon]; exact Bool.false_ne_true)]; exact hrx) rfl
        refine ⟨s', fun fuel hfuel => ?_, ?_⟩
        · obtain ⟨n, rfl⟩ : ∃ n, fuel = n + 1 := ⟨fuel - 1, by omega⟩
          rw [txLoop, hfill]
          simp only
          rw [hnext]
          exact hloop n (by rw [List.length_drop]; omega)
        · rw [hmosi, hsent, List.append_assoc, List.take_append_drop]
      · refine ⟨_, fun fuel hfuel => ?_, hsent.trans ?_⟩
        · obtain ⟨n, rfl⟩ : ∃ n, fuel = n + 1 := ⟨fuel - 1, by omega⟩
          rw [txLoop, hfill]
          simp only
          rw [hnext, List.drop_of_length_le hlast]
          cases n <;> rfl
        · rw [List.take_of_length_le hlast]

variable {dev : Dev} {mem : Bool} {buf buf' src : List Byte} {at' : Nat}

theorem length_cmdBytes (dev : Dev) : dev.cmdBytes.length = dev.cmdLen.toNat := by
  rw [Dev.cmdBytes, List.length_map, List.length_range]

theorem length_addrBytes (dev : Dev) : dev.addrBytes.length = dev.addrLen.toNat := by
  rw [Dev.addrBytes, List.length_map, List.length_range]

theorem length_front (dev : Dev) :
    dev.front.length = dev.cmdLen.toNat + dev.addrLen.toNat + (dev.dummyBits.toNat + 7) / 8 := by
  simp only [Dev.front, Dev.cmdBytes, Dev.addrBytes, List.length_append, List.length_map, List.length_range,
    List.length_replicate]

theorem dataLen_eq (dev : Dev) : dev.dataLen = dev.front.length % 256 := by
  rw [length_front, Dev.dataLen]
  split <;> omega

theorem memcpy_some (h : memcpy buf at' src = some buf') :
    at' + src.length ≤ buf.length ∧ buf' = buf.take at' ++ src ++ buf.drop (at' + src.length) := by
  unfold memcpy at h
  split at h
  next hle => exact ⟨hle, (Option.some.inj h).symm⟩
  next => cases h

theorem length_memcpy (h : memcpy buf at' src = some buf') : buf'.length = buf.length := by
  obtain ⟨hle, rfl⟩ := memcpy_some h
  simp only [List.length_append, List.length_take, List.length_drop]
  omega

/-- A front phase that does not fit into 8 bits does not fit into its buffer either. -/
theorem dataBuf_eq_none (h : 252 < dev.front.length) : dev.dataBuf = none := by
  by_contra hne
  obtain ⟨buf, hbuf⟩ := Option.ne_none_iff_exists'.mp hne
  obtain ⟨first, hcmd, haddr⟩ := Option.bind_eq_some_iff.mp hbuf
  have hcmdLen := (memcpy_some hcmd).1
  have hroom := (memcpy_some haddr).1
  rw [length_memcpy hcmd] at hroom
  have haddrLen := length_addrBytes dev
  have hdata := dataLen_eq dev
  have hc := dev.cmdLen.isLt
  have ha := dev.addrLen.isLt
  have hd := dev.dummyBits.isLt
  rw [length_front] at h hdata
  rw [haddrLen] at hroom
  split at hroom
  · rw [List.length_nil] at hroom
    omega
  · rw [List.length_replicate, Dev.fillLen] at hroom
    split at hroom <;> omega

/-- Command and address copied into a buffer of `n` bytes. -/
theorem memcpy_cmd_addr {n : Nat} (hroom : dev.cmdLen.toNat + dev.addrLen.toNat ≤ n) :
    ((memcpy (List.replicate n 0xFF#8) 0 dev.cmdBytes).bind fun buf =>
      memcpy buf dev.cmdLen.toNat dev.addrBytes) =
      some (dev.cmdBytes ++ dev.addrBytes ++
        List.replicate (n - dev.cmdLen.toNat - dev.addrLen.toNat) 0xFF#8) := by
  have hcmd := length_cmdBytes dev
  have haddr := length_addrBytes dev
  have hfirst : memcpy (List.replicate n 0xFF#8) 0 dev.cmdBytes =
      some (dev.cmdBytes ++ List.replicate (n - dev.cmdLen.toNat) 0xFF#8) := by
    rw [memcpy, if_pos (by rw [List.length_replicate]; omega), List.take_zero, List.nil_append, Nat.zero_add,
      List.drop_replicate, hcmd]
  rw [hfirst, Option.bind_some, memcpy, if_pos (by rw [List.length_append, List.length_replicate]; omega),
    List.take_left' hcmd, ← hcmd, List.drop_append, List.drop_replicate, haddr,
    List.drop_of_length_le (Nat.le_add_right _ _), List.nil_append, Nat.add_sub_cancel_left]

/-- The buffer of a front phase that fits. -/
theorem dataBuf_eq (hpos : dev.front.length ≠ 0) (hle : dev.front.length ≤ 252) :
    ∃ buf, dev.dataBuf = some buf ∧ buf.take dev.dataLen = dev.front := by
  have hdata : dev.dataLen = dev.front.length := by
    rw [dataLen_eq]
    omega
  have hcmd := length_cmdBytes dev
  have haddr := length_addrBytes dev
  have hfill : dev.front.length ≤ dev.fillLen := by
    unfold Dev.fillLen
    rw [hdata]
    split <;> omega
  have hlen := length_front dev
  unfold Dev.dataBuf
  rw [if_neg (by omega)]
  refine ⟨_, memcpy_cmd_addr (by omega), ?_⟩
  rw [List.take_append, Dev.front, List.take_of_length_le (by rw [List.length_append]; omega), List.take_replicate]
  congr 2
  rw [List.length_append]
  omega

/-- A front phase without an allocation is left out, or copied to the null pointer. -/
theorem txHandler_of_no_mem (hpos : dev.front.length ≠ 0) {fuel : Nat} {s' : Spi}
    (h : txHandlerCmdAddr wire fuel false dev s = some s') : s' = s := by
  unfold txHandlerCmdAddr at h
  split at h
  · exact (Option.some.inj h).symm
  next hzero =>
    have hdata : dev.front.length % 256 = 0 := by
      rw [← dataLen_eq]
      exact by_contra fun hne => hzero ⟨hne, rfl⟩
    rw [dataBuf_eq_none (by omega)] at h
    cases h

theorem txHandler_of_long (hlong : 252 < dev.front.length) (fuel : Nat) :
    txHandlerCmdAddr wire fuel true dev s = none := by
  unfold txHandlerCmdAddr
  rw [if_neg fun h => Bool.noConfusion h.2, dataBuf_eq_none hlong]
  rfl

/-- A front phase that is sent, or empty. -/
theorem txHandler_exact (s : Spi) (h : dev.front.length = 0 ∨ (mem = true ∧ dev.front.length ≤ 252)) :
    ∃ s', (∀ fuel, dev.front.length ≤ fuel → txHandlerCmdAddr wire fuel mem dev s = some s') ∧
      s'.mosi = s.mosi ++ dev.front := by
  have hdata := dataLen_eq dev
  by_cases hzero : dev.front.length = 0
  · have hlen := length_front dev
    have hbuf : dev.dataBuf = some [] := by
      have hcmd : dev.cmdBytes = [] := by
        rw [Dev.cmdBytes, show dev.cmdLen.toNat = 0 by omega]
        rfl
      have haddr : dev.addrBytes = [] := by
        rw [Dev.addrBytes, show dev.addrLen.toNat = 0 by omega]
        rfl
      rw [Dev.dataBuf, if_pos (by omega), hcmd, haddr, show dev.cmdLen.toNat = 0 by omega]
      rfl
    refine ⟨s, fun fuel _ => ?_, ?_⟩
    · unfold txHandlerCmdAddr
      rw [if_neg fun h => h.1 (by omega), hbuf, Option.bind_eq_bind, Option.bind_some, if_pos (by omega)]
    · rw [List.length_eq_zero_iff.mp hzero, List.append_nil]
  · obtain ⟨rfl, hle⟩ := h.resolve_left hzero
    obtain ⟨buf, hbuf, htake⟩ := dataBuf_eq hzero hle
    obtain ⟨s', hloop, hmosi⟩ := txLoop_exact wire dev.front
      (s := { s.clrFifo with rxChOn := false }) rfl rfl rfl
    refine ⟨s', fun fuel hfuel => ?_, hmosi⟩
    unfold txHandlerCmdAddr
    rw [if_neg fun h => Bool.noConfusion h.2, hbuf, Option.bind_eq_bind, Option.bind_some, if_neg (by omega), htake]
    exact hloop fuel hfuel

/-! ### The transfer -/

variable {tx : List Byte} {rxLen : Nat}

/-- The transfer behind the front phase. -/
def Xfer.start (s : Spi) (tx : List Byte) (rxLen : Nat) : Xfer :=
  ⟨{ s.clrFifo with rxChOn := rxLen ≠ 0 }, tx, rxLen, []⟩

theorem start_ready (s : Spi) (tx : List Byte) (rxLen : Nat) : (Xfer.start s tx rxLen).Ready := by
  refine ⟨Or.inr rfl, ?_⟩
  rcases Nat.eq_zero_or_pos rxLen with hzero | hpos
  · exact Or.inl hzero
  · exact Or.inr ⟨rfl, decide_eq_true (Nat.ne_of_gt hpos)⟩

theorem txRxPolling_some {fuel : Nat} (h : txRxPolling wire fuel mem dev s tx rxLen = some x) :
    ∃ s', txHandlerCmdAddr wire fuel mem dev s = some s' ∧ loop wire fuel (Xfer.start s' tx rxLen) = some x :=
  Option.bind_eq_some_iff.mp h

/-- Exactly with a front phase that is empty or gets its buffer, and with data that ends with a word or leaves at most
as many bytes to receive as the whole words of its last piece have. -/
theorem exchanges_iff (mem : Bool) (dev : Dev) (tx : List Byte) (rxLen : Nat) : Exchanges mem dev tx rxLen ↔
    (dev.front.length = 0 ∨ (mem = true ∧ dev.front.length ≤ 252)) ∧ rxLen < 2 ^ 31 + tx.length ∧
      (tx.length % 4 = 0 ∨ rxLen ≤ tx.length + 4 * (tx.length % 32 / 4)) := by
  constructor
  · intro h
    obtain ⟨x, ⟨turns, hrun⟩, ⟨filler, hmosi, hfiller⟩, hrx⟩ := h zeros ⟨[], [], false, []⟩
    obtain ⟨s, hfront, hloop⟩ := txRxPolling_some zeros (hrun turns (Nat.le_refl turns))
    have hfine : (Xfer.start s tx rxLen).Fine := by
      by_contra hfine
      refine loop_inexact (start_ready s tx rxLen) hfine hloop (m := rxLen) (Nat.zero_add rxLen).symm ?_
      rw [hrx, received_zeros]
    refine ⟨?_, hfine⟩
    by_contra hbad
    rw [not_or] at hbad
    cases mem with
    | false =>
      obtain rfl := txHandler_of_no_mem zeros hbad.1 hfront
      obtain ⟨x', hrun', ⟨filler', hmosi', hfiller'⟩, -⟩ :=
        loop_exact zeros hfine (start_ready ⟨[], [], false, []⟩ tx rxLen)
      -- the loop has one end, whatever the fuel
      have hsame : x' = x := by
        have hmore := hrun' (max turns (tx.length + rxLen)) (Nat.le_max_right _ _)
        have hfull := hrun (max turns (tx.length + rxLen)) (Nat.le_max_left _ _)
        obtain ⟨s, hfront', hloop'⟩ := txRxPolling_some zeros hfull
        obtain rfl := txHandler_of_no_mem zeros hbad.1 hfront'
        exact Option.some.inj (hmore.symm.trans hloop')
      rw [hsame, hmosi] at hmosi'
      have hlen := congrArg List.length hmosi'
      simp only [List.length_append, hfiller, hfiller', Xfer.start, Spi.clrFifo, List.length_nil] at hlen
      exact hbad.1 (by omega)
    | true =>
      rw [txHandler_of_long zeros (Nat.lt_of_not_le fun hle => hbad.2 ⟨rfl, hle⟩)] at hfront
      cases hfront
  · rintro ⟨hfront, hfine⟩ wire s
    obtain ⟨s', hhandler, hmosi⟩ := txHandler_exact wire s hfront
    obtain ⟨x, hloop, ⟨filler, hsent, hfiller⟩, hrx⟩ :=
      loop_exact wire (x := Xfer.start s' tx rxLen) hfine (start_ready s' tx rxLen)
    refine ⟨x, ⟨max dev.front.length (tx.length + rxLen), fun fuel hfuel => ?_⟩, ⟨filler, ?_, hfiller⟩, ?_⟩
    · unfold txRxPolling
      rw [hhandler fuel (by omega), Option.bind_eq_bind, Option.bind_some]
      exact hloop fuel (by simp only [Xfer.start]; omega)
    · rw [hsent]
      exact congrArg (· ++ tx ++ filler) hmosi
    · rw [hrx]
      refine (List.nil_append _).trans ?_
      refine congrArg (wire.received · rxLen) ?_
      rw [← List.length_append, ← hmosi]
      rfl

end

/-- Five bytes to send and twenty to receive: the fifth byte received is left behind, and read as a whole word. -/
theorem not_exchanges_five : ¬ Exchanges true ⟨0, 0, 0, fun _ => 0, fun _ => 0⟩ [1, 2, 3, 4, 5] 20 := by
  intro h
  obtain ⟨x, ⟨turns, hrun⟩, -, hrx⟩ := h zeros ⟨[], [], false, []⟩
  obtain ⟨s, -, hloop⟩ := txRxPolling_some zeros (hrun turns (Nat.le_refl turns))
  have hfine : ¬ (Xfer.start s [1, 2, 3, 4, 5] 20).Fine :=
    fun h => absurd (show 5 % 4 = 0 ∨ 20 ≤ 5 + 4 * (5 % 32 / 4) from h.2) (by decide)
  exact loop_inexact (start_ready s _ _) hfine hloop rfl (hrx.trans (received_zeros _ _))

end WmIot.SpiMaster
