import Mathlib

/-!
# The NV24C0x EEPROM

`wm_drv_eeprom_nv24c0x.c`: reads and writes are cut at the pages of the chip, and the address bits that do not
fit into the sub-address go into the I2C address. A write transfer wraps round inside its page.
-/

namespace WmIot.Eeprom
set_option autoImplicit false

abbrev Byte := BitVec 8

/-- The fields of `wm_dt_hw_eeprom_t` that the driver works with. -/
structure Hw where
  pinCfgCount : Nat
  size : Nat
  i2cAddr : Nat
  pageSize : Nat
  addrWidth : Nat
  readOnly : Bool

inductive Err where
  | success
  | invalidParam
  | failed
deriving DecidableEq, Repr

/-- Whether the driver is initialised, the I2C controller found and the mutex acquired. -/
structure Env where
  drv : Bool
  controller : Bool
  lock : Bool

/-- A write on the bus. -/
structure Transfer where
  i2cAddr : Nat
  sub : List Byte
  data : List Byte

inductive Event where
  | setWp (on : Bool)
  | transfer (t : Transfer)

/-- `WM_BIT_MASK` -/
def bitMask (n : Nat) : Nat := 2 ^ n - 1

/-- `eeprom_nv24c0x_get_remaining_in_page` -/
def getRemainingInPage (hw : Hw) (offset len : Nat) : Nat :=
  let remain := hw.pageSize - offset % hw.pageSize
  if remain > len then len else remain

/-- `eeprom_nv24c0x_convert_address`, with the bytes of `addr` that are sent. -/
def convertAddress (hw : Hw) (offset : Nat) : Nat × List Byte :=
  let addr :=
    if hw.addrWidth > 8 then
      [BitVec.ofNat 8 (offset >>> 8 &&& bitMask (hw.addrWidth - 8)), BitVec.ofNat 8 (offset &&& 0xFF)]
    else [BitVec.ofNat 8 (offset &&& bitMask hw.addrWidth)]
  ((hw.i2cAddr + offset >>> hw.addrWidth) % 2 ^ 16, addr.take ((hw.addrWidth + 7) / 8))

/-- `eeprom_nv24c0x_set_wp` -/
def setWp (hw : Hw) (on : Bool) : List Event := if hw.pinCfgCount > 0 then [.setWp on] else []

/-- The loop of `eeprom_nv24c0x_write`: whether every transfer was acknowledged, and the transfers. -/
def writeLoop (hw : Hw) (acked : Nat → Bool) : Nat → Nat → Nat → List Byte → Bool × List Transfer
  | 0, _, _, _ => (true, [])
  | n + 1, k, offset, data =>
    if data.length = 0 then (true, [])
    else
      let addr := convertAddress hw offset
      let len := getRemainingInPage hw offset data.length
      let t := ⟨addr.1, addr.2, data.take len⟩
      if acked k then
        let rest := writeLoop hw acked n (k + 1) (offset + len) (data.drop len)
        (rest.1, t :: rest.2)
      else (false, [t])

/-- `eeprom_nv24c0x_write` -/
def eepromWrite (hw : Hw) (env : Env) (acked : Nat → Bool) (offset : Nat) (data : List Byte) : Err × List Event :=
  if hw.size < (offset + data.length) % 2 ^ 32 then (.invalidParam, [])
  else if !env.drv then (.failed, [])
  else if !env.controller then (.failed, [])
  else if hw.readOnly then (.failed, [])
  else if !env.lock then (.failed, [])
  else
    let run := writeLoop hw acked data.length 0 offset data
    (if run.1 then .success else .failed, setWp hw false ++ run.2.map .transfer ++ setWp hw true)

/-- The loop of `eeprom_nv24c0x_read`; `bus` gives what a chip answers to an address and a length, unless it does
not acknowledge. -/
def readLoop (hw : Hw) (bus : Nat → List Byte → Nat → Option (List Byte)) : Nat → Nat → Nat → Bool × List Byte
  | 0, _, _ => (true, [])
  | n + 1, offset, len =>
    if len = 0 then (true, [])
    else
      let addr := convertAddress hw offset
      let lenInPage := getRemainingInPage hw offset len
      match bus addr.1 addr.2 lenInPage with
      | none => (false, [])
      | some bytes =>
        let rest := readLoop hw bus n (offset + lenInPage) (len - lenInPage)
        (rest.1, bytes ++ rest.2)

/-- `eeprom_nv24c0x_read`, with the bytes it puts into the buffer. -/
def eepromRead (hw : Hw) (env : Env) (bus : Nat → List Byte → Nat → Option (List Byte)) (offset len : Nat) :
    Err × List Byte :=
  if hw.size < (offset + len) % 2 ^ 32 then (.invalidParam, [])
  else if !env.drv then (.failed, [])
  else if !env.controller then (.failed, [])
  else if !env.lock then (.failed, [])
  else
    let run := readLoop hw bus len offset len
    (if run.1 then .success else .failed, run.2)

/-! ## The chip -/

/-- A chip and its entry in the device table. The low bits of its I2C address select the block, as the sub-address
has `addrWidth` bits. -/
structure Chip extends Hw where
  blockBits : Nat
  pagePos : 0 < pageSize
  pageDvd : pageSize ∣ size
  width : 0 < addrWidth ∧ addrWidth ≤ 16
  fits : size ≤ 2 ^ (addrWidth + blockBits)
  sizeLt : size < 2 ^ 32
  base : 2 ^ blockBits ∣ i2cAddr
  addrLt : i2cAddr + 2 ^ blockBits ≤ 2 ^ 16

/-- What the chip holds, and the level of its write protection pin. -/
structure Device where
  mem : Nat → Byte
  wp : Bool

/-- The value of a sub-address, high byte first. -/
def subValue (sub : List Byte) : Nat := sub.foldl (fun n b => n * 2 ^ 8 + b.toNat) 0

/-- The cell that an address on the bus selects, if it is one of the chip's. -/
def Chip.cell (c : Chip) (i2cAddr : Nat) (sub : List Byte) : Option Nat :=
  if i2cAddr / 2 ^ c.blockBits = c.i2cAddr / 2 ^ c.blockBits then
    some (i2cAddr % 2 ^ c.blockBits * 2 ^ c.addrWidth + subValue sub % 2 ^ c.addrWidth)
  else none

/-- The bytes of a transfer go into the page, whose end is followed by its start. -/
def Chip.store (c : Chip) (mem : Nat → Byte) (page pos : Nat) : List Byte → Nat → Byte
  | [] => mem
  | b :: data => c.store (Function.update mem (page + pos % c.pageSize) b) page (pos + 1) data

def Device.step (c : Chip) (d : Device) : Event → Device
  | .setWp on => { d with wp := on }
  | .transfer t =>
    match c.cell t.i2cAddr t.sub with
    | none => d
    | some a =>
      if d.wp then d
      else { d with mem := c.store d.mem (a / c.pageSize * c.pageSize) (a % c.pageSize) t.data }

@[simp] theorem Device.step_setWp (c : Chip) (d : Device) (on : Bool) :
    d.step c (.setWp on) = { d with wp := on } := rfl

def Device.run (c : Chip) (d : Device) (events : List Event) : Device := events.foldl (Device.step c) d

/-- The cells that a write goes to, in the order of its bytes. -/
def Chip.cells (c : Chip) (t : Transfer) : List Nat :=
  match c.cell t.i2cAddr t.sub with
  | none => []
  | some a => (List.range t.data.length).map fun k => a / c.pageSize * c.pageSize + (a % c.pageSize + k) % c.pageSize

/-- A write to the chip that does not wrap round. -/
def Chip.OnePage (c : Chip) (t : Transfer) : Prop :=
  ∃ a, c.cell t.i2cAddr t.sub = some a ∧ 0 < t.data.length ∧ a % c.pageSize + t.data.length ≤ c.pageSize

/-- The writes among the events, in their order. -/
def transfers (events : List Event) : List Transfer :=
  events.filterMap fun e => match e with
    | .transfer t => some t
    | .setWp _ => none

/-- Nothing but the bus keeps a request of the right size from succeeding. -/
def Env.Ready (env : Env) : Prop := env.drv = true ∧ env.controller = true ∧ env.lock = true

/-- The device with the data in the cells from the offset on. -/
def Device.put (d : Device) (offset : Nat) (data : List Byte) : Device :=
  { d with mem := fun a => if offset ≤ a ∧ a < offset + data.length then data.getD (a - offset) 0 else d.mem a }

@[simp] theorem Device.put_nil (d : Device) (offset : Nat) : d.put offset [] = d := by
  cases d with
  | mk mem wp =>
    unfold Device.put
    congr 1
    funext a
    exact if_neg (by simp only [List.length_nil]; omega)

theorem Device.put_take_drop (d : Device) (offset : Nat) {data : List Byte} {n : Nat} (hn : n ≤ data.length) :
    (d.put offset (data.take n)).put (offset + n) (data.drop n) = d.put offset data := by
  have htake : (data.take n).length = n := List.length_take_of_le hn
  have hdrop : (data.drop n).length = data.length - n := List.length_drop
  unfold Device.put
  congr 1
  funext a
  dsimp only
  rw [htake, hdrop]
  by_cases hrest : offset + n ≤ a ∧ a < offset + n + (data.length - n)
  · have hidx : n + (a - (offset + n)) = a - offset := by omega
    rw [if_pos hrest, if_pos (by omega), List.getD_eq_getElem?_getD, List.getElem?_drop, hidx,
      List.getD_eq_getElem?_getD]
  · rw [if_neg hrest]
    by_cases hfirst : offset ≤ a ∧ a < offset + n
    · rw [if_pos hfirst, if_pos (by omega), List.getD_eq_getElem?_getD, List.getElem?_take_of_lt (by omega),
        List.getD_eq_getElem?_getD]
    · rw [if_neg hfirst, if_neg (by omega)]

/-- A read goes on from cell to cell, over the end of the chip to its start. -/
def Device.answer (c : Chip) (d : Device) (i2cAddr : Nat) (sub : List Byte) (len : Nat) : Option (List Byte) :=
  (c.cell i2cAddr sub).map fun a => (List.range len).map fun k => d.mem ((a + k) % c.size)

section
variable {c : Chip} {offset len : Nat} {data : List Byte}

/-! ## Addresses and pieces -/

theorem bitMask_and (x n : Nat) : x &&& bitMask n = x % 2 ^ n := Nat.and_two_pow_sub_one_eq_mod x n

/-- The address sent selects the cell. -/
theorem cell_convertAddress (h : offset < c.size) :
    c.cell (convertAddress c.toHw offset).1 (convertAddress c.toHw offset).2 = some offset := by
  obtain ⟨hwpos, hwle⟩ := c.width
  have hfits := Nat.lt_of_lt_of_le h c.fits
  obtain ⟨q, hq⟩ := c.base
  have haddr := c.addrLt
  have hkpos : 0 < 2 ^ c.blockBits := Nat.two_pow_pos _
  have hblock : offset / 2 ^ c.addrWidth < 2 ^ c.blockBits := by
    apply Nat.div_lt_of_lt_mul
    rwa [← Nat.pow_add]
  have hsum : (c.i2cAddr + offset >>> c.addrWidth) % 2 ^ 16 = 2 ^ c.blockBits * q + offset / 2 ^ c.addrWidth := by
    rw [Nat.shiftRight_eq_div_pow, ← hq]
    exact Nat.mod_eq_of_lt (by omega)
  have hsub : subValue (convertAddress c.toHw offset).2 = offset % 2 ^ c.addrWidth := by
    unfold convertAddress subValue
    dsimp only
    by_cases hwide : c.addrWidth > 8
    · have hbytes : (c.addrWidth + 7) / 8 = 2 := by omega
      have hsplit : 2 ^ c.addrWidth = 2 ^ 8 * 2 ^ (c.addrWidth - 8) := by
        rw [← Nat.pow_add]
        congr 1
        omega
      have hhigh : offset / 2 ^ 8 % 2 ^ (c.addrWidth - 8) < 2 ^ 8 :=
        Nat.lt_of_lt_of_le (Nat.mod_lt _ (Nat.two_pow_pos _)) (Nat.pow_le_pow_right (by omega) (by omega))
      have hlow : offset &&& 0xFF = offset % 2 ^ 8 := bitMask_and offset 8
      rw [if_pos hwide, hbytes, bitMask_and, hlow, Nat.shiftRight_eq_div_pow, hsplit, Nat.mod_mul]
      simp only [List.take_succ_cons, List.take_zero, List.foldl_cons, List.foldl_nil, BitVec.toNat_ofNat,
        Nat.mod_mod, Nat.mod_eq_of_lt hhigh, Nat.zero_mul, Nat.zero_add]
      omega
    · have hbytes : (c.addrWidth + 7) / 8 = 1 := by omega
      have hlow : offset % 2 ^ c.addrWidth < 2 ^ 8 :=
        Nat.lt_of_lt_of_le (Nat.mod_lt _ (Nat.two_pow_pos _)) (Nat.pow_le_pow_right (by omega) (by omega))
      rw [if_neg hwide, hbytes, bitMask_and]
      simp only [List.take_succ_cons, List.take_zero, List.foldl_cons, List.foldl_nil, BitVec.toNat_ofNat,
        Nat.mod_eq_of_lt hlow, Nat.zero_mul, Nat.zero_add]
  have haddress : (convertAddress c.toHw offset).1 = 2 ^ c.blockBits * q + offset / 2 ^ c.addrWidth := hsum
  rw [Chip.cell, hsub, haddress, hq, Nat.mul_add_div hkpos, Nat.mul_div_cancel_left _ hkpos,
    Nat.div_eq_of_lt hblock, Nat.add_zero, if_pos rfl, Nat.mul_add_mod, Nat.mod_eq_of_lt hblock, Nat.mod_mod,
    Nat.div_add_mod']

/-- A piece is not empty, ends in its page and with the data. -/
theorem getRemainingInPage_spec (c : Chip) (offset : Nat) {len : Nat} (hpos : 0 < len) :
    0 < getRemainingInPage c.toHw offset len ∧ getRemainingInPage c.toHw offset len ≤ len ∧
      offset % c.pageSize + getRemainingInPage c.toHw offset len ≤ c.pageSize := by
  have hpage := Nat.mod_lt offset c.pagePos
  unfold getRemainingInPage
  dsimp only
  split <;> omega

/-- Data that ends in its page does not wrap round. -/
theorem store_apply : ∀ {data : List Byte} {mem : Nat → Byte} {page pos : Nat}, pos + data.length ≤ c.pageSize → ∀ a,
    c.store mem page pos data a =
      if page + pos ≤ a ∧ a < page + pos + data.length then data.getD (a - (page + pos)) 0 else mem a := by
  intro data
  induction data with
  | nil =>
    intro mem page pos _ a
    rw [Chip.store, if_neg (by simp only [List.length_nil]; omega)]
  | cons b data ih =>
    intro mem page pos hle a
    rw [List.length_cons] at hle ⊢
    have hmod : pos % c.pageSize = pos := Nat.mod_eq_of_lt (by omega)
    rw [Chip.store, ih (by omega) a, hmod]
    by_cases hfirst : a = page + pos
    · subst hfirst
      rw [if_neg (by omega), Function.update_self, if_pos (by omega), Nat.sub_self, List.getD_cons_zero]
    · rw [Function.update_of_ne hfirst]
      split
      next hin =>
        have hidx : a - (page + pos) = a - (page + (pos + 1)) + 1 := by omega
        rw [if_pos (by omega), hidx, List.getD_cons_succ]
      next hout => rw [if_neg (by omega)]

/-- One piece on the bus of a chip that is not protected. -/
theorem step_piece {d : Device} (hwp : d.wp = false) (h : offset < c.size)
    (hpage : offset % c.pageSize + data.length ≤ c.pageSize) :
    d.step c (.transfer ⟨(convertAddress c.toHw offset).1, (convertAddress c.toHw offset).2, data⟩) =
      d.put offset data := by
  have hstart : offset / c.pageSize * c.pageSize + offset % c.pageSize = offset := Nat.div_add_mod' _ _
  rw [Device.step, cell_convertAddress h]
  dsimp only
  rw [if_neg (by rw [hwp]; decide), Device.put]
  congr 1
  funext a
  rw [store_apply hpage, hstart]

/-- The cells of a write that stays in its page follow one another. -/
theorem cells_eq {t : Transfer} {a : Nat} (hcell : c.cell t.i2cAddr t.sub = some a)
    (hpage : a % c.pageSize + t.data.length ≤ c.pageSize) : c.cells t = List.range' a t.data.length := by
  rw [Chip.cells, hcell, List.range'_eq_map_range]
  apply List.map_congr_left
  intro k hk
  have hlt := List.mem_range.mp hk
  have hstart := Nat.div_add_mod' a c.pageSize
  show a / c.pageSize * c.pageSize + (a % c.pageSize + k) % c.pageSize = a + k
  rw [Nat.mod_eq_of_lt (by omega)]
  omega

/-! ## The loops -/

theorem writeLoop_onePage (acked : Nat → Bool) : ∀ {n k offset : Nat} {data : List Byte},
    offset + data.length ≤ c.size → ∀ t ∈ (writeLoop c.toHw acked n k offset data).2, c.OnePage t := by
  intro n
  induction n with
  | zero =>
    intro k offset data _ t ht
    cases ht
  | succ n ih =>
    intro k offset data hle t ht
    rw [writeLoop] at ht
    by_cases hempty : data.length = 0
    · rw [if_pos hempty] at ht
      cases ht
    · rw [if_neg hempty] at ht
      obtain ⟨hpos, hlen, hpage⟩ := getRemainingInPage_spec c offset (Nat.pos_of_ne_zero hempty)
      have htake := List.length_take_of_le hlen
      have hpiece : c.OnePage ⟨(convertAddress c.toHw offset).1, (convertAddress c.toHw offset).2,
          data.take (getRemainingInPage c.toHw offset data.length)⟩ := by
        refine ⟨offset, cell_convertAddress (by omega), ?_, ?_⟩
        · rwa [htake]
        · rwa [htake]
      dsimp only at ht
      split at ht
      next =>
        rcases List.mem_cons.mp ht with rfl | hrest
        · exact hpiece
        · exact ih (by rw [List.length_drop]; omega) t hrest
      next => rwa [List.mem_singleton.mp ht]

theorem writeLoop_acked {acked : Nat → Bool} (hacked : ∀ k, acked k = true) (hw : Hw) :
    ∀ {n k offset : Nat} {data : List Byte}, (writeLoop hw acked n k offset data).1 = true := by
  intro n
  induction n with
  | zero => intro k offset data; rfl
  | succ n ih =>
    intro k offset data
    rw [writeLoop]
    split
    · rfl
    · rw [if_pos (hacked k)]
      exact ih

/-- A loop that gets through writes the data to its range, piece after piece. -/
theorem writeLoop_exact (acked : Nat → Bool) : ∀ {n k offset : Nat} {data : List Byte}, data.length ≤ n →
    offset + data.length ≤ c.size → (writeLoop c.toHw acked n k offset data).1 = true →
    (writeLoop c.toHw acked n k offset data).2.flatMap c.cells = List.range' offset data.length ∧
      (writeLoop c.toHw acked n k offset data).2.flatMap Transfer.data = data ∧
      ∀ d : Device, d.wp = false →
        d.run c ((writeLoop c.toHw acked n k offset data).2.map .transfer) = d.put offset data := by
  intro n
  induction n with
  | zero =>
    intro k offset data hn _ _
    obtain rfl := List.eq_nil_of_length_eq_zero (Nat.le_zero.mp hn)
    exact ⟨rfl, rfl, fun d _ => (d.put_nil offset).symm⟩
  | succ n ih =>
    intro k offset data hn hle hok
    rw [writeLoop] at hok ⊢
    by_cases hempty : data.length = 0
    · obtain rfl := List.eq_nil_of_length_eq_zero hempty
      rw [if_pos hempty]
      exact ⟨rfl, rfl, fun d _ => (d.put_nil offset).symm⟩
    · rw [if_neg hempty] at hok ⊢
      obtain ⟨hpos, hlen, hpage⟩ := getRemainingInPage_spec c offset (Nat.pos_of_ne_zero hempty)
      have hcell : c.cell (convertAddress c.toHw offset).1 (convertAddress c.toHw offset).2 = some offset :=
        cell_convertAddress (by omega)
      dsimp only at hok ⊢
      generalize getRemainingInPage c.toHw offset data.length = m at hpos hlen hpage hok ⊢
      have htake := List.length_take_of_le hlen
      have hdrop : (data.drop m).length = data.length - m := List.length_drop
      by_cases hack : acked k = true
      · rw [if_pos hack] at hok ⊢
        obtain ⟨hcells, hbytes, hrun⟩ := ih (by omega) (by omega) hok
        refine ⟨?_, ?_, ?_⟩
        · have hsplit : data.length = m + (data.length - m) := by omega
          rw [List.flatMap_cons, hcells, cells_eq hcell (by rw [htake]; exact hpage), htake, hdrop,
            List.range'_append_1, ← hsplit]
        · rw [List.flatMap_cons, hbytes, List.take_append_drop]
        · intro d hwp
          rw [List.map_cons, Device.run, List.foldl_cons, step_piece hwp (by omega) (by rw [htake]; exact hpage)]
          exact (hrun (d.put offset (data.take m)) hwp).trans (d.put_take_drop offset hlen)
      · rw [if_neg hack] at hok
        cases hok

/-- A piece read from the chip. -/
theorem answer_piece (d : Device) (hle : offset + len ≤ c.size) (hpos : 0 < len) :
    d.answer c (convertAddress c.toHw offset).1 (convertAddress c.toHw offset).2 len =
      some ((List.range' offset len).map d.mem) := by
  rw [Device.answer, cell_convertAddress (by omega), Option.map_some, List.range'_eq_map_range, List.map_map]
  congr 1
  apply List.map_congr_left
  intro k hk
  have hlt := List.mem_range.mp hk
  show d.mem ((offset + k) % c.size) = d.mem (offset + k)
  rw [Nat.mod_eq_of_lt (by omega)]

theorem readLoop_exact (d : Device) : ∀ {n offset len : Nat}, len ≤ n → offset + len ≤ c.size →
    readLoop c.toHw (d.answer c) n offset len = (true, (List.range' offset len).map d.mem) := by
  intro n
  induction n with
  | zero =>
    intro offset len hn _
    obtain rfl := Nat.le_zero.mp hn
    rfl
  | succ n ih =>
    intro offset len hn hle
    rw [readLoop]
    by_cases hempty : len = 0
    · subst hempty
      rfl
    · obtain ⟨hpos, hlen, hpage⟩ := getRemainingInPage_spec c offset (Nat.pos_of_ne_zero hempty)
      rw [if_neg hempty]
      dsimp only
      generalize getRemainingInPage c.toHw offset len = m at hpos hlen hpage ⊢
      have hsplit : len = m + (len - m) := by omega
      rw [answer_piece d (by omega) hpos]
      dsimp only
      rw [ih (by omega) (by omega), ← List.map_append, List.range'_append_1, ← hsplit]

end

/-! ## Whole requests -/

theorem transfers_write (hw : Hw) (ts : List Transfer) :
    transfers (setWp hw false ++ ts.map .transfer ++ setWp hw true) = ts := by
  have hwp : ∀ on, transfers (setWp hw on) = [] := by
    intro on
    unfold setWp
    split <;> rfl
  have hmap : transfers (ts.map .transfer) = ts := by
    rw [transfers, List.filterMap_map]
    exact List.filterMap_some
  have happend : ∀ es es' : List Event, transfers (es ++ es') = transfers es ++ transfers es' :=
    fun es es' => List.filterMap_append
  rw [happend, happend, hwp, hwp, hmap, List.nil_append, List.append_nil]

/-- The write protection is taken away before the writes and comes back behind them. -/
theorem run_write (c : Chip) (d : Device) (hwp : c.pinCfgCount = 0 → d.wp = false) (ts : List Transfer) :
    (d.run c (setWp c.toHw false ++ ts.map .transfer ++ setWp c.toHw true)).mem =
      (Device.run c { d with wp := false } (ts.map .transfer)).mem := by
  unfold Device.run setWp
  rw [List.foldl_append, List.foldl_append]
  split
  next => rfl
  next hnone =>
    have hlow : { d with wp := false } = d := by rw [← hwp (by omega)]
    rw [hlow]
    rfl

/-- What a request that reaches the bus comes to. -/
theorem eepromWrite_eq (c : Chip) (env : Env) (acked : Nat → Bool) {offset : Nat} {data : List Byte}
    (hle : offset + data.length ≤ c.size) :
    eepromWrite c.toHw env acked offset data = (.failed, []) ∧ ¬ (env.Ready ∧ c.readOnly = false) ∨
      (env.Ready ∧ c.readOnly = false) ∧
        eepromWrite c.toHw env acked offset data =
          (if (writeLoop c.toHw acked data.length 0 offset data).1 then .success else .failed,
            setWp c.toHw false ++ (writeLoop c.toHw acked data.length 0 offset data).2.map .transfer ++
              setWp c.toHw true) := by
  have hsize := c.sizeLt
  have hin : ¬ c.size < (offset + data.length) % 2 ^ 32 := by
    rw [Nat.mod_eq_of_lt (by omega)]
    omega
  unfold eepromWrite Env.Ready
  rw [if_neg hin]
  cases env.drv
  case false => exact Or.inl ⟨rfl, by simp⟩
  cases env.controller
  case false => exact Or.inl ⟨rfl, by simp⟩
  cases c.readOnly
  case true => exact Or.inl ⟨rfl, by simp⟩
  cases env.lock
  case false => exact Or.inl ⟨rfl, by simp⟩
  exact Or.inr ⟨⟨⟨rfl, rfl, rfl⟩, rfl⟩, rfl⟩

/-- A read of a chip that answers gives what its cells hold. -/
theorem read_exact (c : Chip) {env : Env} (henv : env.Ready) (d : Device) {offset len : Nat}
    (hle : offset + len ≤ c.size) :
    eepromRead c.toHw env (d.answer c) offset len = (.success, (List.range' offset len).map d.mem) := by
  obtain ⟨hdrv, hcontroller, hlock⟩ := henv
  have hsize := c.sizeLt
  have hin : ¬ c.size < (offset + len) % 2 ^ 32 := by
    rw [Nat.mod_eq_of_lt (by omega)]
    omega
  rw [eepromRead, if_neg hin, hdrv, hcontroller, hlock, readLoop_exact d (Nat.le_refl _) hle]
  rfl

/-- The writes of a request each stay in one page; a request that succeeds, as it does when every write is
acknowledged, covers its range once and in order, and leaves the data there and all other cells alone. -/
theorem write_exact (c : Chip) (env : Env) (acked : Nat → Bool) (d : Device) {offset : Nat} {data : List Byte}
    (hle : offset + data.length ≤ c.size) (hwp : c.pinCfgCount = 0 → d.wp = false) :
    let out := eepromWrite c.toHw env acked offset data
    (∀ t ∈ transfers out.2, c.OnePage t) ∧
      (env.Ready → c.readOnly = false → (∀ k, acked k = true) → out.1 = .success) ∧
      (out.1 = .success →
        (transfers out.2).flatMap c.cells = List.range' offset data.length ∧
          (transfers out.2).flatMap Transfer.data = data ∧
          (∀ k, k < data.length → data[k]? = some ((d.run c out.2).mem (offset + k))) ∧
          (∀ a, a < offset ∨ offset + data.length ≤ a → (d.run c out.2).mem a = d.mem a) ∧
          ∀ start len, offset ≤ start → start + len ≤ offset + data.length →
            eepromRead c.toHw env ((d.run c out.2).answer c) start len =
              (.success, (data.drop (start - offset)).take len)) := by
  dsimp only
  rcases eepromWrite_eq c env acked hle with ⟨hout, hnot⟩ | ⟨⟨hready, hro⟩, hout⟩
  · rw [hout]
    refine ⟨?_, ?_, ?_⟩
    · intro t ht
      cases ht
    · intro hready hro _
      exact absurd ⟨hready, hro⟩ hnot
    · intro hok
      cases hok
  · rw [hout]
    dsimp only
    rw [transfers_write]
    refine ⟨writeLoop_onePage acked hle, ?_, ?_⟩
    · intro _ _ hacked
      rw [writeLoop_acked hacked, if_pos rfl]
    · intro hok
      have hall : (writeLoop c.toHw acked data.length 0 offset data).1 = true := by
        by_contra hnack
        rw [if_neg hnack] at hok
        cases hok
      obtain ⟨hcells, hbytes, hrun⟩ := writeLoop_exact acked (Nat.le_refl _) hle hall
      have hmem := run_write c d hwp (writeLoop c.toHw acked data.length 0 offset data).2
      rw [hrun { d with wp := false } rfl] at hmem
      generalize d.run c (setWp c.toHw false ++
        (writeLoop c.toHw acked data.length 0 offset data).2.map .transfer ++ setWp c.toHw true) = d' at hmem ⊢
      have hread : ∀ k, k < data.length → data[k]? = some (d'.mem (offset + k)) := by
        intro k hk
        rw [hmem, Device.put]
        dsimp only
        rw [if_pos (by omega), Nat.add_sub_cancel_left, List.getD_eq_getElem?_getD, List.getElem?_eq_getElem hk]
        rfl
      refine ⟨hcells, hbytes, hread, ?_, ?_⟩
      · intro a hout
        rw [hmem]
        exact if_neg (by omega)
      · intro start len hstart hend
        rw [read_exact c hready d' (by omega)]
        congr 1
        apply List.ext_getElem?
        intro k
        by_cases hk : k < len
        · have hidx : offset + (start - offset + k) = start + k := by omega
          rw [List.getElem?_take_of_lt hk, List.getElem?_drop, hread _ (by omega), hidx, List.getElem?_map,
            List.getElem?_range' hk]
          simp only [Option.map_some, Nat.one_mul]
        · rw [List.getElem?_eq_none (by simp; omega), List.getElem?_eq_none (by simp; omega)]

/-- An NV24C04 with its pin A2 high and a write protection pin: two blocks, pages of 16 bytes. -/
def nv24c04 : Chip where
  pinCfgCount := 1
  size := 512
  i2cAddr := 0x54
  pageSize := 16
  addrWidth := 8
  readOnly := false
  blockBits := 1
  pagePos := by decide
  pageDvd := by decide
  width := by decide
  fits := by decide
  sizeLt := by decide
  base := by decide
  addrLt := by decide

/-- A write over the end of the first block goes on in the second. -/
theorem write_exact_overBlock :
    let bytes : List Byte := [1, 2, 3, 4]
    let out := eepromWrite nv24c04.toHw ⟨true, true, true⟩ (fun _ => true) 254 bytes
    out.1 = .success ∧ (transfers out.2).flatMap nv24c04.cells = [254, 255, 256, 257] ∧
      (Device.run nv24c04 ⟨fun _ => 0xFF, true⟩ out.2).mem 256 = 3 := by
  obtain ⟨_, hok, hexact⟩ := write_exact nv24c04 ⟨true, true, true⟩ (fun _ => true) ⟨fun _ => 0xFF, true⟩
    (show 254 + [(1 : Byte), 2, 3, 4].length ≤ nv24c04.size by decide) (fun h => absurd h (by decide))
  have hsuccess := hok ⟨rfl, rfl, rfl⟩ rfl (fun _ => rfl)
  obtain ⟨hcells, _, hread, _, _⟩ := hexact hsuccess
  exact ⟨hsuccess, hcells, (Option.some.inj (hread 2 (by decide))).symm⟩

end WmIot.Eeprom
