import WmIot.Flash.EraseRegion

/-!
# Reading and writing the internal flash

`wm_drv_internal_flash_read` and `wm_drv_internal_flash_write` go through the flash page by page,
`wm_drv_internal_flash_write_with_erase` sector by sector. A unit that the range covers in part is read
into the buffer first. The buffer is what the allocator returns, its bytes unknown.
-/

namespace WmIot.Flash
open NorFlash
set_option autoImplicit false

/-- `wm_hal_flash_read_pages` of an aligned address. -/
def readPages (f : Flash) (flashAddr pageNum : Nat) : List Byte :=
  readBytes f (flashAddr % 2 ^ 32 % 2 ^ 25) (pageNum * pageSize)

/-- `tmp_buf[i + pos] = src[i]` for all of `src`. -/
def fill (tmp : List Byte) (pos : Nat) (src : List Byte) : List Byte :=
  tmp.take pos ++ src ++ tmp.drop (pos + src.length)

/-- The turns of the loop of a write: `unit` is the page or the sector, `commands` what is done with the
buffer at an address. -/
def writeLoop (unit : Nat) (commands : Nat → List Byte → List Op) :
    Nat → Flash → List Byte → Nat → Nat → List Byte → List Op
  | 0, _, _, _, _, _ => []
  | n + 1, f, tmp, idx, pos, src =>
    let remain := min src.length (unit - pos)
    let addr := idx * unit % 2 ^ 32
    let tmp := if remain = unit then tmp else readPages f addr (unit / pageSize)
    let tmp := fill tmp pos (src.take remain)
    let ops := commands addr tmp
    if src.length = remain then ops
    else ops ++ writeLoop unit commands n (replay f ops) tmp ((idx + 1) % 2 ^ 32) 0 (src.drop remain)

def rewriteSector (addr : Nat) (buf : List Byte) : List Op :=
  eraseSectors addr 1 ++ writePages addr buf (sectorSize / pageSize)

def programPage (addr : Nat) (buf : List Byte) : List Op := writePages addr buf 1

/-- `wm_drv_internal_flash_write_with_erase` -/
def internalFlashWriteWithErase (size : Nat) (tmp : Option (List Byte)) (f : Flash) (offset : Nat)
    (src : List Byte) : Err × List Op :=
  if src.length = 0 then (.invalidParam, [])
  else if size < (offset + src.length) % 2 ^ 32 then (.invalidParam, [])
  else if offset ≤ ftRegion then (.invalidParam, [])
  else
    match tmp with
    | none => (.noMem, [])
    | some tmp =>
      (.success, writeLoop sectorSize rewriteSector src.length f tmp (offset / sectorSize) (offset % sectorSize) src)

/-- `wm_drv_internal_flash_write` -/
def internalFlashWrite (size : Nat) (tmp : Option (List Byte)) (f : Flash) (offset : Nat) (src : List Byte) :
    Err × List Op :=
  if src.length = 0 then (.invalidParam, [])
  else if size < (offset + src.length) % 2 ^ 32 then (.invalidParam, [])
  else if offset ≤ ftRegion then (.invalidParam, [])
  else
    match tmp with
    | none => (.noMem, [])
    | some tmp =>
      (.success, writeLoop pageSize programPage src.length f tmp (offset / pageSize) (offset % pageSize) src)

def readLoop (f : Flash) : Nat → Nat → Nat → Nat → List Byte
  | 0, _, _, _ => []
  | n + 1, idx, pos, len =>
    let remain := min len (pageSize - pos)
    let tmp := readPages f (idx * pageSize % 2 ^ 32) 1
    let out := (tmp.drop pos).take remain
    if len = remain then out else out ++ readLoop f n ((idx + 1) % 2 ^ 32) 0 (len - remain)

/-- `wm_drv_internal_flash_read`, with the bytes it puts into the caller's buffer; `mem` says whether the
page buffer can be allocated. -/
def internalFlashRead (size : Nat) (mem : Bool) (f : Flash) (offset len : Nat) : Err × List Byte :=
  if len = 0 then (.invalidParam, [])
  else if size < (offset + len) % 2 ^ 32 then (.invalidParam, [])
  else if !mem then (.noMem, [])
  else (.success, readLoop f len (offset / pageSize) (offset % pageSize) len)

/-! ## One unit -/

theorem fill_length {tmp : List Byte} {pos : Nat} {src : List Byte} (hpos : pos ≤ tmp.length) :
    (fill tmp pos src).length = max tmp.length (pos + src.length) := by
  simp only [fill, List.length_append, List.length_take, List.length_drop]
  omega

theorem fill_getD {tmp : List Byte} {pos : Nat} {src : List Byte} (hpos : pos ≤ tmp.length) (i : Nat) :
    (fill tmp pos src).getD i blank =
      if pos ≤ i ∧ i < pos + src.length then src.getD (i - pos) blank else tmp.getD i blank := by
  have htake : (tmp.take pos).length = pos := List.length_take_of_le hpos
  rw [fill, List.append_assoc]
  simp only [List.getD_eq_getElem?_getD]
  split
  next hin =>
    rw [List.getElem?_append_right (by omega), htake, List.getElem?_append_left (by omega)]
  next hout =>
    by_cases hlt : i < pos
    · rw [List.getElem?_append_left (by omega), List.getElem?_take_of_lt hlt]
    · have hidx : pos + src.length + (i - pos - src.length) = i := by omega
      rw [List.getElem?_append_right (by omega), htake, List.getElem?_append_right (by omega), List.getElem?_drop,
        hidx]

theorem readPages_getD (f : Flash) {flashAddr n i : Nat} (haddr : flashAddr < 2 ^ 25) (hi : i < n * pageSize) :
    (readPages f flashAddr n).getD i blank = f (flashAddr + i) := by
  have hmask : flashAddr % 2 ^ 32 % 2 ^ 25 = flashAddr := by omega
  rw [readPages, hmask, readBytes, List.getD_eq_getElem?_getD, List.getElem?_map, List.getElem?_range hi]
  rfl

@[simp] theorem readPages_length (f : Flash) (flashAddr n : Nat) :
    (readPages f flashAddr n).length = n * pageSize := readBytes_length _ _ _

/-- The commands for one unit merge the buffer into it and leave the rest of the chip. -/
def Merges (unit : Nat) (commands : Nat → List Byte → List Op) (merge : Byte → Byte → Byte) : Prop :=
  ∀ f addr buf, addr + unit ≤ 2 ^ 25 → unit ≤ buf.length → ∀ a,
    replay f (commands addr buf) a =
      if addr ≤ a ∧ a < addr + unit then merge (f a) (buf.getD (a - addr) blank) else f a

theorem rewriteSector_merges : Merges sectorSize rewriteSector fun _ b => b := by
  intro f addr buf haddr hlen a
  have hpages : sectorSize / pageSize * pageSize = sectorSize := by decide
  have herased := replay_eraseSectors f addr (n := 1) (by omega)
  have hblank : BlankOn (replay f (eraseSectors addr 1)) addr (addr + sectorSize / pageSize * pageSize) := by
    intro x hlo hhi
    rw [herased x, if_pos (by omega)]
  rw [rewriteSector, replay_append, replay_writePages (by omega) (by omega) hblank, hpages, herased a]
  split
  next => rfl
  next => rw [if_neg (by omega)]

theorem programPage_merges : Merges pageSize programPage fun b c => b &&& c := by
  intro f addr buf haddr hlen a
  have hmask : (addr + 0 * pageSize) % 2 ^ 32 = addr := by omega
  have hpage : (buf.take pageSize).length = pageSize := List.length_take_of_le hlen
  rw [programPage, writePages, List.range_one, List.map_singleton, replay_cons, replay_nil, hmask, Nat.zero_mul,
    List.drop_zero]
  simp only [Op.apply, program, hpage]
  split
  next hin =>
    rw [List.getD_eq_getElem?_getD, List.getD_eq_getElem?_getD, List.getElem?_take_of_lt (by omega)]
  next => rfl

/-! ## The loops -/

section Loop
variable {unit : Nat} {commands : Nat → List Byte → List Op} {merge : Byte → Byte → Byte}

/-- The units of a write are merged one after the other; in a unit that is covered in part, the other
bytes are merged with themselves. -/
theorem replay_writeLoop (hmerges : Merges unit commands merge) (hself : ∀ b, merge b b = b)
    (hunit : unit / pageSize * pageSize = unit) (hdvd : unit ∣ 2 ^ 25) :
    ∀ {n : Nat} {f : Flash} {tmp : List Byte} {idx pos : Nat} {src : List Byte}, src.length ≤ n → 0 < src.length →
    pos < unit → idx * unit + pos + src.length ≤ 2 ^ 25 → ∀ a,
    replay f (writeLoop unit commands n f tmp idx pos src) a =
      if idx * unit + pos ≤ a ∧ a < idx * unit + pos + src.length then
        merge (f a) (src.getD (a - (idx * unit + pos)) blank)
      else f a := by
  intro n
  induction n with
  | zero => intro f tmp idx pos src hn hpos; omega
  | succ n ih =>
    intro f tmp idx pos src hn hsrc hpos hle a
    have hmask : idx * unit % 2 ^ 32 = idx * unit := by omega
    have hnext : (idx + 1) * unit = idx * unit + unit := Nat.succ_mul _ _
    have hfits : idx * unit + unit ≤ 2 ^ 25 := by
      obtain ⟨q, hq⟩ := hdvd
      have hlt : idx < q := by
        apply Nat.lt_of_mul_lt_mul_left (a := unit)
        rw [← hq, Nat.mul_comm]
        omega
      rw [← hnext, hq, Nat.mul_comm unit q]
      exact Nat.mul_le_mul_right unit hlt
    rw [writeLoop, hmask]
    generalize hr : min src.length (unit - pos) = remain
    generalize ht : (if remain = unit then tmp else readPages f (idx * unit) (unit / pageSize)) = buf
    have hbuf : pos ≤ buf.length ∧ unit ≤ (fill buf pos (src.take remain)).length := by
      have htake : (src.take remain).length = remain := List.length_take_of_le (by omega)
      have hpos' : pos ≤ buf.length := by
        rw [← ht]
        split
        next => omega
        next => rw [readPages_length, hunit]; omega
      refine ⟨hpos', ?_⟩
      rw [fill_length hpos', htake, ← ht]
      split
      next => omega
      next => rw [readPages_length, hunit]; omega
    have hturn : ∀ x, replay f (commands (idx * unit) (fill buf pos (src.take remain))) x =
        if idx * unit + pos ≤ x ∧ x < idx * unit + pos + remain then
          merge (f x) (src.getD (x - (idx * unit + pos)) blank)
        else f x := by
      intro x
      rw [hmerges f _ _ hfits hbuf.2 x]
      have htake : (src.take remain).length = remain := List.length_take_of_le (by omega)
      split
      next hin =>
        rw [fill_getD hbuf.1, htake]
        split
        next hpiece =>
          have hidx : x - idx * unit - pos = x - (idx * unit + pos) := by omega
          rw [if_pos (by omega), List.getD_eq_getElem?_getD, List.getElem?_take_of_lt (by omega), hidx,
            List.getD_eq_getElem?_getD]
        next hrest =>
          have hpart : remain ≠ unit := by omega
          have hread : buf = readPages f (idx * unit) (unit / pageSize) := by rw [← ht, if_neg hpart]
          rw [if_neg (by omega), hread, readPages_getD f (by omega) (by rw [hunit]; omega),
            Nat.add_sub_cancel' hin.1, hself]
      next hout => rw [if_neg (by omega)]
    split
    next hlast =>
      rw [hturn a, ← hlast]
    next hmore =>
      have hnextMask : (idx + 1) % 2 ^ 32 = idx + 1 := by
        have : idx ≤ idx * unit := Nat.le_mul_of_pos_right _ (by omega)
        omega
      have hdrop : (src.drop remain).length = src.length - remain := List.length_drop
      rw [replay_append, hnextMask, ih (by omega) (by omega) (by omega) (by omega), hturn a, hnext, hdrop]
      split
      next hin =>
        have hidx : remain + (a - (idx * unit + unit + 0)) = a - (idx * unit + pos) := by omega
        rw [if_neg (by omega), if_pos (by omega), List.getD_eq_getElem?_getD, List.getElem?_drop, hidx,
          List.getD_eq_getElem?_getD]
      next hout =>
        split
        next hin => rw [if_pos (by omega)]
        next => rw [if_neg (by omega)]

end Loop

/-- The pages that the loop reads give the bytes of the range. -/
theorem readLoop_eq (f : Flash) : ∀ {n idx pos len : Nat}, len ≤ n → 0 < len → pos < pageSize →
    idx * pageSize + pos + len ≤ 2 ^ 25 → readLoop f n idx pos len = readBytes f (idx * pageSize + pos) len := by
  intro n
  induction n with
  | zero => intro idx pos len hn hlen; omega
  | succ n ih =>
    intro idx pos len hn hlen hpos hle
    have hps : pageSize = 256 := rfl
    have hmask : idx * pageSize % 2 ^ 32 % 2 ^ 32 % 2 ^ 25 = idx * pageSize := by omega
    rw [readLoop, readPages, hmask, Nat.one_mul, readBytes_slice f _ (by omega)]
    split
    next hlast => rw [← hlast]
    next hmore =>
      have hidx : idx ≤ idx * pageSize := Nat.le_mul_of_pos_right _ (by omega)
      have hnext : (idx + 1) % 2 ^ 32 = idx + 1 := by omega
      have haddr : (idx + 1) * pageSize + 0 = idx * pageSize + pos + min len (pageSize - pos) := by
        rw [Nat.succ_mul]
        omega
      rw [hnext, ih (by omega) (by omega) (by omega) (by omega), haddr, ← readBytes_add,
        Nat.add_sub_cancel' (by omega)]

/-! ## Main results -/

/-- The range lies in the chip, each of its bytes is merged with the buffer's, and the rest of the chip is as
it was. -/
structure WritesRange (merge : Byte → Byte → Byte) (size : Nat) (f g : Flash) (offset : Nat) (src : List Byte) :
    Prop where
  inside : offset + src.length ≤ size
  stored : ∀ k < src.length, g (offset + k) = merge (f (offset + k)) (src.getD k blank)
  kept : ∀ a < size, a < offset ∨ offset + src.length ≤ a → g a = f a

/-- The range holds the buffer. -/
def Overwrites (size : Nat) (f g : Flash) (offset : Nat) (src : List Byte) : Prop :=
  WritesRange (fun _ b => b) size f g offset src

/-- The buffer is programmed into the range, and what is read back of it is what the chip holds; if the range
was erased before, that is the buffer. -/
structure Programs (size : Nat) (f g : Flash) (offset : Nat) (src : List Byte) : Prop where
  range : WritesRange (fun b c => b &&& c) size f g offset src
  reads : ∀ o len, 0 < len → offset ≤ o → o + len ≤ offset + src.length →
    internalFlashRead size true g o len = (.success, readBytes g o len)
  erased : BlankOn f offset (offset + src.length) → internalFlashRead size true g offset src.length = (.success, src)

section Exact
variable {capacity offset : Nat} {src : List Byte}

theorem internalFlashRead_eq (hcapacity : capacity ≤ 25) (f : Flash) {len : Nat} (hlen : 0 < len)
    (hle : offset + len ≤ 2 ^ capacity) :
    internalFlashRead (2 ^ capacity) true f offset len = (.success, readBytes f offset len) := by
  have hchip : 2 ^ capacity ≤ 2 ^ 25 := Nat.pow_le_pow_right (by omega) hcapacity
  have hstart : offset / pageSize * pageSize + offset % pageSize = offset := by
    rw [Nat.mul_comm]
    exact Nat.div_add_mod _ _
  have hloop := readLoop_eq f (Nat.le_refl len) hlen (Nat.mod_lt offset (by decide))
    (show offset / pageSize * pageSize + offset % pageSize + len ≤ 2 ^ 25 by omega)
  rw [internalFlashRead, if_neg (by omega), if_neg (by omega), hloop, hstart]
  rfl

/-- The loop over all units of a range of the chip. -/
theorem writesRange_writeLoop {unit : Nat} {commands : Nat → List Byte → List Op} {merge : Byte → Byte → Byte}
    (hmerges : Merges unit commands merge) (hself : ∀ b, merge b b = b) (hunit : unit / pageSize * pageSize = unit)
    (hdvd : unit ∣ 2 ^ 25) (hcapacity : capacity ≤ 25) (hpos : 0 < src.length)
    (hle : offset + src.length ≤ 2 ^ capacity) (f : Flash) (tmp : List Byte) :
    WritesRange merge (2 ^ capacity) f
      (replay f (writeLoop unit commands src.length f tmp (offset / unit) (offset % unit) src)) offset src := by
  have hchip : 2 ^ capacity ≤ 2 ^ 25 := Nat.pow_le_pow_right (by omega) hcapacity
  have hstart : offset / unit * unit + offset % unit = offset := by
    rw [Nat.mul_comm]
    exact Nat.div_add_mod _ _
  have hunitPos : 0 < unit := Nat.pos_of_dvd_of_pos hdvd (by decide)
  have hloop : ∀ a, replay f (writeLoop unit commands src.length f tmp (offset / unit) (offset % unit) src) a = _ :=
    replay_writeLoop hmerges hself hunit hdvd (Nat.le_refl src.length) hpos (Nat.mod_lt offset hunitPos) (by omega)
  rw [hstart] at hloop
  refine ⟨hle, fun k hk => ?_, fun a _ hout => ?_⟩
  · rw [hloop, if_pos (by omega), Nat.add_sub_cancel_left]
  · rw [hloop, if_neg (by omega)]

theorem Programs.of_range (hcapacity : capacity ≤ 25) (hpos : 0 < src.length) {f g : Flash}
    (h : WritesRange (fun b c => b &&& c) (2 ^ capacity) f g offset src) :
    Programs (2 ^ capacity) f g offset src := by
  have hinside := h.inside
  refine ⟨h, fun o len hlen _ hhi => internalFlashRead_eq hcapacity g hlen (by omega), fun hblank => ?_⟩
  rw [internalFlashRead_eq hcapacity g hpos hinside]
  congr 1
  apply List.ext_getElem (readBytes_length _ _ _)
  intro k h₁ h₂
  have hbyte : g (offset + k) = src.getD k blank := by
    rw [h.stored k h₂, hblank _ (by omega) (by omega), blank_and]
  simp only [readBytes, List.getElem_map, List.getElem_range]
  rw [hbyte, List.getD_eq_getElem?_getD, List.getElem?_eq_getElem h₂, Option.getD_some]

/-- A write with erase overwrites exactly its range, unless the range wraps round in 32 bits. The addresses of
a chip are those that the commands can carry. -/
theorem writeWithErase_exact_iff (hcapacity : capacity ≤ 25) (haccepted : Accepted (2 ^ capacity) offset src.length)
    (f : Flash) :
    (∀ tmp ops, internalFlashWriteWithErase (2 ^ capacity) tmp f offset src = (.success, ops) →
      Overwrites (2 ^ capacity) f (replay f ops) offset src) ↔ offset + src.length < 2 ^ 32 := by
  have hchip : 2 ^ capacity ≤ 2 ^ 25 := Nat.pow_le_pow_right (by omega) hcapacity
  obtain ⟨hlen, hsize, hft⟩ := haccepted
  constructor
  · intro h
    have hrun : internalFlashWriteWithErase (2 ^ capacity) (some []) f offset src =
        (.success, (internalFlashWriteWithErase (2 ^ capacity) (some []) f offset src).2) := by
      rw [internalFlashWriteWithErase, if_neg hlen, if_neg (by omega), if_neg (by omega)]
    have hinside := (h _ _ hrun).inside
    omega
  · intro hwrap tmp ops hrun
    rw [Nat.mod_eq_of_lt hwrap] at hsize
    cases tmp with
    | none =>
      rw [internalFlashWriteWithErase, if_neg hlen, if_neg (by omega), if_neg (by omega)] at hrun
      cases hrun
    | some tmp =>
      rw [internalFlashWriteWithErase, if_neg hlen, if_neg (by omega), if_neg (by omega)] at hrun
      rw [← (Prod.mk.inj hrun).2]
      exact writesRange_writeLoop rewriteSector_merges (fun _ => rfl) (by decide) (by decide) hcapacity (by omega)
        hsize f tmp

theorem writeWithErase_exact_iff_acrossSectors :
    (∀ tmp ops, internalFlashWriteWithErase (2 ^ 21) tmp (fun _ => 0) 0x10FFF [1, 2] = (.success, ops) →
      Overwrites (2 ^ 21) (fun _ => 0) (replay (fun _ => 0) ops) 0x10FFF [1, 2]) ↔ 0x10FFF + 2 < 2 ^ 32 :=
  writeWithErase_exact_iff (by decide) ⟨by decide, by decide, by decide⟩ fun _ => 0

/-- A write programs exactly its range, and is read back, unless the range wraps round in 32 bits. -/
theorem write_exact_iff (hcapacity : capacity ≤ 25) (haccepted : Accepted (2 ^ capacity) offset src.length)
    (f : Flash) :
    (∀ tmp ops, internalFlashWrite (2 ^ capacity) tmp f offset src = (.success, ops) →
      Programs (2 ^ capacity) f (replay f ops) offset src) ↔ offset + src.length < 2 ^ 32 := by
  have hchip : 2 ^ capacity ≤ 2 ^ 25 := Nat.pow_le_pow_right (by omega) hcapacity
  obtain ⟨hlen, hsize, hft⟩ := haccepted
  constructor
  · intro h
    have hrun : internalFlashWrite (2 ^ capacity) (some []) f offset src =
        (.success, (internalFlashWrite (2 ^ capacity) (some []) f offset src).2) := by
      rw [internalFlashWrite, if_neg hlen, if_neg (by omega), if_neg (by omega)]
    have hinside := (h _ _ hrun).range.inside
    omega
  · intro hwrap tmp ops hrun
    rw [Nat.mod_eq_of_lt hwrap] at hsize
    cases tmp with
    | none =>
      rw [internalFlashWrite, if_neg hlen, if_neg (by omega), if_neg (by omega)] at hrun
      cases hrun
    | some tmp =>
      rw [internalFlashWrite, if_neg hlen, if_neg (by omega), if_neg (by omega)] at hrun
      rw [← (Prod.mk.inj hrun).2]
      exact Programs.of_range hcapacity (by omega)
        (writesRange_writeLoop programPage_merges (fun _ => BitVec.and_self) (by decide) (by decide) hcapacity
          (by omega) hsize f tmp)

theorem write_exact_iff_acrossPages :
    (∀ tmp ops, internalFlashWrite (2 ^ 21) tmp (fun _ => blank) 0x100FF [1, 2] = (.success, ops) →
      Programs (2 ^ 21) (fun _ => blank) (replay (fun _ => blank) ops) 0x100FF [1, 2]) ↔ 0x100FF + 2 < 2 ^ 32 :=
  write_exact_iff (by decide) ⟨by decide, by decide, by decide⟩ fun _ => blank

end Exact

/-- Two units of which the first is the last one below 2^32: the second turn is for the first unit of the
chip. -/
theorem replay_writeLoop_wraps {unit : Nat} {commands : Nat → List Byte → List Op} {merge : Byte → Byte → Byte}
    (hmerges : Merges unit commands merge) (hpos : 0 < unit) (hle : unit ≤ 2 ^ 25) {idx : Nat}
    (hidx : (idx + 1) * unit = 2 ^ 32) (hidx' : idx + 1 < 2 ^ 32) {src : List Byte} (hlen : src.length = unit + unit)
    (n : Nat) (f : Flash) (tmp : List Byte) :
    ∃ b, replay f (writeLoop unit commands (n + 2) f tmp idx 0 src) 0 = merge b (src.getD unit blank) := by
  have hdrop : (src.drop unit).length = unit := by
    rw [List.length_drop]
    omega
  have htake : (src.drop unit).take unit = src.drop unit := List.take_of_length_le (by omega)
  have hfirst : min src.length (unit - 0) = unit := by omega
  have hsecond : min (src.drop unit).length (unit - 0) = unit := by omega
  have haddr : (idx + 1) % 2 ^ 32 * unit % 2 ^ 32 = 0 := by
    rw [Nat.mod_eq_of_lt hidx', hidx, Nat.mod_self]
  rw [writeLoop, hfirst, if_neg (by omega), replay_append, writeLoop, hsecond, if_pos hdrop, haddr, if_pos rfl,
    htake]
  rw [hmerges _ 0 _ (by omega) (by rw [fill_length (by omega)]; omega) 0, if_pos (by omega)]
  refine ⟨_, congrArg _ ?_⟩
  rw [fill_getD (by omega), if_pos (by omega), List.getD_eq_getElem?_getD, List.getD_eq_getElem?_getD,
    List.getElem?_drop, Nat.sub_zero, Nat.sub_zero, Nat.add_zero]

/-- The range wraps round to the first sector of the chip, which is overwritten. -/
theorem writeWithErase_firstSector :
    Accepted (2 ^ 21) 0xFFFFF000 (List.replicate 0x2000 blank).length ∧
    ¬ ∀ tmp ops, internalFlashWriteWithErase (2 ^ 21) tmp (fun _ => 0) 0xFFFFF000 (List.replicate 0x2000 blank) =
        (.success, ops) →
      Overwrites (2 ^ 21) (fun _ => 0) (replay (fun _ => 0) ops) 0xFFFFF000 (List.replicate 0x2000 blank) := by
  have hlen : (List.replicate 0x2000 blank).length = 0x2000 := List.length_replicate
  have hget : (List.replicate 0x2000 blank).getD sectorSize blank = blank := by
    rw [List.getD_eq_getElem?_getD, List.getElem?_replicate_of_lt (by decide), Option.getD_some]
  generalize hsrc : List.replicate 0x2000 blank = src at hlen hget ⊢
  refine ⟨⟨by omega, by rw [hlen]; decide, by decide⟩, fun h => ?_⟩
  have hrun : internalFlashWriteWithErase (2 ^ 21) (some []) (fun _ => 0) 0xFFFFF000 src = (.success,
      writeLoop sectorSize rewriteSector (0x1FFE + 2) (fun _ => 0) [] 0xFFFFF 0 src) := by
    rw [internalFlashWriteWithErase, if_neg (by omega), if_neg (by rw [hlen]; decide), if_neg (by decide), hlen]
    rfl
  have hkept : replay (fun _ => 0) _ 0 = 0 := (h _ _ hrun).kept 0 (by decide) (Or.inl (by decide))
  obtain ⟨b, hb⟩ := replay_writeLoop_wraps rewriteSector_merges (by decide) (by decide)
    (show (0xFFFFF + 1) * sectorSize = 2 ^ 32 by decide) (by decide) (hlen.trans (by decide)) 0x1FFE (fun _ => 0) []
  rw [hkept, hget] at hb
  exact absurd hb (by decide)

/-- The range wraps round to the first page of the chip, which is programmed. -/
theorem write_firstPage :
    Accepted (2 ^ 21) 0xFFFFFF00 (List.replicate 0x200 (0 : Byte)).length ∧
    ¬ ∀ tmp ops, internalFlashWrite (2 ^ 21) tmp (fun _ => blank) 0xFFFFFF00 (List.replicate 0x200 0) =
        (.success, ops) →
      Programs (2 ^ 21) (fun _ => blank) (replay (fun _ => blank) ops) 0xFFFFFF00 (List.replicate 0x200 0) := by
  have hlen : (List.replicate 0x200 (0 : Byte)).length = 0x200 := List.length_replicate
  have hget : (List.replicate 0x200 (0 : Byte)).getD pageSize blank = 0 := by
    rw [List.getD_eq_getElem?_getD, List.getElem?_replicate_of_lt (by decide), Option.getD_some]
  generalize hsrc : List.replicate 0x200 (0 : Byte) = src at hlen hget ⊢
  refine ⟨⟨by omega, by rw [hlen]; decide, by decide⟩, fun h => ?_⟩
  have hrun : internalFlashWrite (2 ^ 21) (some []) (fun _ => blank) 0xFFFFFF00 src = (.success,
      writeLoop pageSize programPage (0x1FE + 2) (fun _ => blank) [] 0xFFFFFF 0 src) := by
    rw [internalFlashWrite, if_neg (by omega), if_neg (by rw [hlen]; decide), if_neg (by decide), hlen]
    rfl
  have hkept : replay (fun _ => blank) _ 0 = blank := (h _ _ hrun).range.kept 0 (by decide) (Or.inl (by decide))
  obtain ⟨b, hb⟩ := replay_writeLoop_wraps programPage_merges (by decide) (by decide)
    (show (0xFFFFFF + 1) * pageSize = 2 ^ 32 by decide) (by decide) (hlen.trans (by decide)) 0x1FE (fun _ => blank) []
  rw [hkept, hget] at hb
  exact absurd (hb.trans (BitVec.and_zero)) (by decide)

end WmIot.Flash
