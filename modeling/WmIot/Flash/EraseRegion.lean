import WmIot.Flash.Internal

/-!
# Erasing a region of the internal flash

`wm_drv_internal_flash_erase_region`: the sectors that the region covers in part are read before the
erase and written back. Addresses and lengths are 32 bits wide; the erase command carries 25 bits of the
address.
-/

namespace WmIot.Flash
open NorFlash
set_option autoImplicit false

inductive Err where
  | success
  | invalidParam
  | noMem
deriving DecidableEq, Repr

def pageSize : Nat := 256

/-- `WM_FT_REGION` -/
def ftRegion : Nat := 0x2000

/-- `wm_hal_flash_erase_sectors`, one command for each sector -/
def eraseSectors (flashAddr sectorNum : Nat) : List Op :=
  (List.range sectorNum).map fun k => .erase ((flashAddr + k * sectorSize) % 2 ^ 32 % 2 ^ 25) sectorSize

/-- `wm_hal_flash_write_pages`, one command for each page -/
def writePages (flashAddr : Nat) (buf : List Byte) (pageNum : Nat) : List Op :=
  (List.range pageNum).map fun k =>
    .program ((flashAddr + k * pageSize) % 2 ^ 32) ((buf.drop (k * pageSize)).take pageSize)

/-- `wm_hal_flash_read_sectors` of one sector -/
def readSector (f : Flash) (flashAddr : Nat) : List Byte := readBytes f (flashAddr % 2 ^ 32 % 2 ^ 25) sectorSize

/-- The bytes from `lo` to `hi` of a buffer are set to ones. -/
def setBlank (buf : List Byte) (lo hi : Nat) : List Byte :=
  buf.mapIdx fun i b => if lo ≤ i ∧ i < hi then blank else b

/-- The commands of `wm_drv_internal_flash_erase_region` behind its checks, for each case of its `do`. -/
def eraseCommands (f : Flash) (offset len : Nat) : List Op :=
  let startIdx := offset / sectorSize
  let sectorOffset := offset % sectorSize
  let lenOffset := (len + sectorOffset) % 2 ^ 32 % sectorSize
  let pages := sectorSize / pageSize
  if sectorOffset = 0 ∧ lenOffset = 0 then eraseSectors (startIdx * sectorSize) (len / sectorSize)
  else if sectorOffset = 0 then
    let num := len / sectorSize + 1
    let last := (startIdx + num - 1) * sectorSize
    let tmp := readSector f last
    eraseSectors (startIdx * sectorSize) num ++ writePages last (setBlank tmp 0 lenOffset) pages
  else if (sectorOffset + len) % 2 ^ 32 ≤ sectorSize then
    let tmp := setBlank (readSector f (startIdx * sectorSize)) sectorOffset ((sectorOffset + len) % 2 ^ 32)
    eraseSectors (startIdx * sectorSize) 1 ++ writePages (startIdx * sectorSize) tmp pages
  else
    let first := startIdx * sectorSize
    let tmp := setBlank (readSector f first) sectorOffset sectorSize
    let left := len - (sectorSize - sectorOffset)
    let last := (startIdx + left / sectorSize + 1) * sectorSize
    let ops := eraseSectors first 1 ++ writePages first tmp pages ++
      eraseSectors ((startIdx + 1) * sectorSize) (left / sectorSize)
    let tmp := setBlank (readSector (replay f ops) last) 0 lenOffset
    ops ++ eraseSectors last 1 ++ writePages last tmp pages

/-- `wm_drv_internal_flash_erase_region` of a chip of the given size, and its commands; `mem` says
whether the buffer can be allocated. -/
def eraseRegion (size : Nat) (mem : Bool) (f : Flash) (offset len : Nat) : Err × List Op :=
  if len = 0 then (.invalidParam, [])
  else if size < (offset + len) % 2 ^ 32 then (.invalidParam, [])
  else if offset ≤ ftRegion then (.invalidParam, [])
  else if !mem then (.noMem, [])
  else (.success, eraseCommands f offset len)

/-! ## Runs of commands -/

theorem sectorSize_pos : 0 < sectorSize := by decide

theorem sectorSize_eq : sectorSize = 4096 := rfl

@[simp] theorem setBlank_length (buf : List Byte) (lo hi : Nat) : (setBlank buf lo hi).length = buf.length :=
  List.length_mapIdx

theorem setBlank_getD {buf : List Byte} {lo hi i : Nat} (hi' : i < buf.length) :
    (setBlank buf lo hi).getD i blank = if lo ≤ i ∧ i < hi then blank else buf.getD i blank := by
  rw [List.getD_eq_getElem?_getD, List.getD_eq_getElem?_getD, setBlank, List.getElem?_mapIdx,
    List.getElem?_eq_getElem hi']
  rfl

@[simp] theorem readSector_length (f : Flash) (flashAddr : Nat) : (readSector f flashAddr).length = sectorSize :=
  readBytes_length _ _ _

/-- The content of a sector whose address the commands can carry. -/
theorem readSector_getD (f : Flash) {flashAddr i : Nat} (haddr : flashAddr < 2 ^ 25) (hi : i < sectorSize) :
    (readSector f flashAddr).getD i blank = f (flashAddr + i) := by
  have hmask : flashAddr % 2 ^ 32 % 2 ^ 25 = flashAddr := by omega
  rw [readSector, hmask, readBytes, List.getD_eq_getElem?_getD, List.getElem?_map, List.getElem?_range hi]
  rfl

/-- Erasing sectors one after the other erases their whole range. -/
theorem replay_eraseSectors (f : Flash) (flashAddr : Nat) : ∀ {n : Nat}, flashAddr + n * sectorSize ≤ 2 ^ 25 →
    ∀ a, replay f (eraseSectors flashAddr n) a =
      if flashAddr ≤ a ∧ a < flashAddr + n * sectorSize then blank else f a := by
  intro n
  induction n with
  | zero =>
    intro _ a
    rw [if_neg (by omega)]
    rfl
  | succ n ih =>
    intro hle a
    have hmask : (flashAddr + n * sectorSize) % 2 ^ 32 % 2 ^ 25 = flashAddr + n * sectorSize := by
      have := sectorSize_pos
      rw [Nat.succ_mul] at hle
      omega
    have hsucc : (n + 1) * sectorSize = n * sectorSize + sectorSize := Nat.succ_mul _ _
    have hcons : eraseSectors flashAddr (n + 1) =
        eraseSectors flashAddr n ++ [.erase (flashAddr + n * sectorSize) sectorSize] := by
      rw [eraseSectors, List.range_succ, List.map_append, List.map_singleton, hmask, eraseSectors]
    rw [hcons, replay_append, replay_cons, replay_nil]
    simp only [Op.apply, erase]
    rw [ih (by omega) a]
    split
    next hlast => rw [if_pos (by omega)]
    next hlast =>
      split
      next hin => rw [if_pos (by omega)]
      next hout => rw [if_neg (by omega)]

/-- Pages that are written to a blank range give it the content of the buffer. -/
theorem replay_writePages {f : Flash} {flashAddr : Nat} {buf : List Byte} : ∀ {n : Nat},
    n * pageSize ≤ buf.length → flashAddr + n * pageSize ≤ 2 ^ 32 →
    BlankOn f flashAddr (flashAddr + n * pageSize) → ∀ a,
    replay f (writePages flashAddr buf n) a =
      if flashAddr ≤ a ∧ a < flashAddr + n * pageSize then buf.getD (a - flashAddr) blank else f a := by
  intro n
  induction n with
  | zero =>
    intro _ _ _ a
    rw [if_neg (by omega)]
    rfl
  | succ n ih =>
    intro hlen hle hblank a
    have hsucc : (n + 1) * pageSize = n * pageSize + pageSize := Nat.succ_mul _ _
    have hmask : (flashAddr + n * pageSize) % 2 ^ 32 = flashAddr + n * pageSize := by
      have : 0 < pageSize := by decide
      omega
    have hpage : ((buf.drop (n * pageSize)).take pageSize).length = pageSize := by
      rw [List.length_take, List.length_drop]
      omega
    have hcons : writePages flashAddr buf (n + 1) = writePages flashAddr buf n ++
        [.program (flashAddr + n * pageSize) ((buf.drop (n * pageSize)).take pageSize)] := by
      rw [writePages, List.range_succ, List.map_append, List.map_singleton, hmask, writePages]
    have hbefore := ih (by omega) (by omega) (hblank.mono (Nat.le_refl _) (by omega))
    rw [hcons, replay_append, replay_cons, replay_nil]
    simp only [Op.apply, program, hpage]
    rw [hbefore a]
    split
    next hin =>
      have hnew : ¬ (flashAddr ≤ a ∧ a < flashAddr + n * pageSize) := by omega
      have hidx : n * pageSize + (a - (flashAddr + n * pageSize)) = a - flashAddr := by omega
      rw [if_neg hnew, if_pos (by omega), hblank a (by omega) (by omega), blank_and,
        List.getD_eq_getElem?_getD, List.getD_eq_getElem?_getD, List.getElem?_take_of_lt (by omega),
        List.getElem?_drop, hidx]
    next hout =>
      split
      next hin => rw [if_pos (by omega)]
      next hnew => rw [if_neg (by omega)]

/-- A sector is erased and written back. -/
theorem replay_rewriteSector {f : Flash} {flashAddr : Nat} {buf : List Byte} (haddr : flashAddr + sectorSize ≤ 2 ^ 25)
    (hlen : buf.length = sectorSize) (a : Nat) :
    replay f (eraseSectors flashAddr 1 ++ writePages flashAddr buf (sectorSize / pageSize)) a =
      if flashAddr ≤ a ∧ a < flashAddr + sectorSize then buf.getD (a - flashAddr) blank else f a := by
  have hpages : sectorSize / pageSize * pageSize = sectorSize := by decide
  have herased := replay_eraseSectors f flashAddr (n := 1) (by omega)
  have hblank : BlankOn (replay f (eraseSectors flashAddr 1)) flashAddr
      (flashAddr + sectorSize / pageSize * pageSize) := by
    intro x hlo hhi
    rw [herased x, if_pos (by omega)]
  rw [replay_append, replay_writePages (by omega) (by omega) hblank, hpages, herased a]
  split
  next => rfl
  next => rw [if_neg (by omega)]

/-! ## The sectors of the commands -/

/-- The sector of the address that a command carries. -/
def commandSector : Op → Nat
  | .program addr _ => addr / sectorSize
  | .erase addr _ => addr / sectorSize

theorem eraseSectors_sector {flashAddr n : Nat} {op : Op} (hle : flashAddr + n * sectorSize ≤ 2 ^ 25)
    (hop : op ∈ eraseSectors flashAddr n) : ∃ k < n, commandSector op = flashAddr / sectorSize + k := by
  obtain ⟨k, hk, rfl⟩ := List.mem_map.mp hop
  have hk := List.mem_range.mp hk
  refine ⟨k, hk, ?_⟩
  have hss : sectorSize = 4096 := rfl
  rw [hss] at hle
  simp only [commandSector, hss]
  omega

theorem writePages_sector {flashAddr : Nat} {buf : List Byte} {op : Op} (hdvd : flashAddr % sectorSize = 0)
    (hle : flashAddr + sectorSize ≤ 2 ^ 32) (hop : op ∈ writePages flashAddr buf (sectorSize / pageSize)) :
    commandSector op = flashAddr / sectorSize := by
  obtain ⟨k, hk, rfl⟩ := List.mem_map.mp hop
  have hk := List.mem_range.mp hk
  have hss : sectorSize = 4096 := rfl
  have hps : pageSize = 256 := rfl
  rw [hss] at hdvd hle
  rw [hss, hps] at hk
  simp only [commandSector, hss, hps]
  omega

/-- Erase commands stay in the space that their addresses can name. -/
theorem eraseSectors_masked {flashAddr n : Nat} (hdvd : flashAddr % sectorSize = 0) {op : Op}
    (hop : op ∈ eraseSectors flashAddr n) {a : Nat} (ha : 2 ^ 25 ≤ a) : ¬ op.Touches a := by
  obtain ⟨k, _, rfl⟩ := List.mem_map.mp hop
  have hss : sectorSize = 4096 := rfl
  rw [hss] at hdvd
  simp only [Op.Touches, hss]
  omega

/-- A byte that is zero and in no erased sector stays zero. -/
theorem replay_zero {a : Nat} : ∀ {ops : List Op} {f : Flash}, f a = 0 →
    (∀ op ∈ ops, (∃ addr bytes, op = .program addr bytes) ∨ ¬ op.Touches a) → replay f ops a = 0 := by
  intro ops
  induction ops with
  | nil => exact fun hf _ => hf
  | cons op ops ih =>
    intro f hf hops
    rw [replay_cons]
    refine ih ?_ fun o ho => hops o (List.mem_cons_of_mem op ho)
    rcases hops op List.mem_cons_self with ⟨addr, bytes, rfl⟩ | hoff
    · simp only [Op.apply, program, hf]
      split
      · exact BitVec.zero_and
      · rfl
    · cases op with
      | program addr bytes =>
        simp only [Op.Touches] at hoff
        simp only [Op.apply]
        rw [program_apply_out (by omega), hf]
      | erase addr len =>
        simp only [Op.Touches] at hoff
        simp only [Op.apply]
        rw [erase_apply_out (by omega), hf]

theorem eraseCommands_masked {f : Flash} {offset len : Nat} {op : Op} (hop : op ∈ eraseCommands f offset len)
    {a : Nat} (ha : 2 ^ 25 ≤ a) : (∃ addr bytes, op = .program addr bytes) ∨ ¬ op.Touches a := by
  have herase : ∀ idx n, op ∈ eraseSectors (idx * sectorSize) n →
      (∃ addr bytes, op = .program addr bytes) ∨ ¬ op.Touches a :=
    fun idx n h => .inr (eraseSectors_masked (Nat.mul_mod_left _ _) h ha)
  have hwrite : ∀ addr buf n, op ∈ writePages addr buf n →
      (∃ addr bytes, op = .program addr bytes) ∨ ¬ op.Touches a := by
    intro addr buf n h
    obtain ⟨k, _, rfl⟩ := List.mem_map.mp h
    exact .inl ⟨_, _, rfl⟩
  unfold eraseCommands at hop
  dsimp only at hop
  split at hop
  · exact herase _ _ hop
  · split at hop
    · rcases List.mem_append.mp hop with h | h
      · exact herase _ _ h
      · exact hwrite _ _ _ h
    · split at hop
      · rcases List.mem_append.mp hop with h | h
        · exact herase _ _ h
        · exact hwrite _ _ _ h
      · simp only [List.mem_append] at hop
        rcases hop with (((h | h) | h) | h) | h
        · exact herase _ _ h
        · exact hwrite _ _ _ h
        · exact herase _ _ h
        · exact herase _ _ h
        · exact hwrite _ _ _ h

/-! ## Main results -/

/-- The range is erased, the rest of the chip is as it was, and the commands are for sectors of the
range. -/
structure ErasesOnly (size : Nat) (f : Flash) (offset len : Nat) (ops : List Op) : Prop where
  erased : BlankOn (replay f ops) offset (offset + len)
  kept : ∀ a < size, a < offset ∨ offset + len ≤ a → replay f ops a = f a
  sectors : ∀ op ∈ ops, ∃ a, offset ≤ a ∧ a < offset + len ∧ a / sectorSize = commandSector op

/-- The range starts inside a sector and ends at the end of a later one. -/
def EndsAtSector (offset len : Nat) : Prop :=
  offset % sectorSize ≠ 0 ∧ sectorSize < offset % sectorSize + len ∧ (offset + len) % sectorSize = 0

section Cases
variable {size offset len : Nat} {f : Flash}

theorem erasesOnly_aligned (hle : offset + len ≤ 2 ^ 25) (hstart : offset % sectorSize = 0)
    (hend : len % sectorSize = 0) :
    ErasesOnly size f offset len (eraseSectors (offset / sectorSize * sectorSize) (len / sectorSize)) := by
  have hoffset : offset / sectorSize * sectorSize = offset := Nat.div_mul_cancel (Nat.dvd_of_mod_eq_zero hstart)
  have hlen : len / sectorSize * sectorSize = len := Nat.div_mul_cancel (Nat.dvd_of_mod_eq_zero hend)
  rw [hoffset]
  have hreplay := replay_eraseSectors f offset (n := len / sectorSize) (by omega)
  rw [hlen] at hreplay
  refine ⟨fun a hlo hhi => ?_, fun a _ hout => ?_, fun op hop => ?_⟩
  · rw [hreplay a, if_pos ⟨hlo, hhi⟩]
  · rw [hreplay a, if_neg (by omega)]
  · obtain ⟨k, hk, hsector⟩ := eraseSectors_sector (by omega) hop
    simp only [sectorSize_eq] at hoffset hlen hk hsector hstart
    refine ⟨offset + k * 4096, by omega, by omega, ?_⟩
    rw [hsector, sectorSize_eq]
    omega

theorem erasesOnly_lastPartial (hle : offset + len ≤ 2 ^ 25) (hstart : offset % sectorSize = 0)
    (hend : len % sectorSize ≠ 0) {last lenOffset : Nat}
    (hlast : last = offset + len / sectorSize * sectorSize) (hlenOffset : lenOffset = len % sectorSize) :
    ErasesOnly size f offset len (eraseSectors offset (len / sectorSize + 1) ++
      writePages last (setBlank (readSector f last) 0 lenOffset) (sectorSize / pageSize)) := by
  have hpages : sectorSize / pageSize * pageSize = sectorSize := by decide
  have hbuf : (setBlank (readSector f last) 0 lenOffset).length = sectorSize := by
    rw [setBlank_length, readSector_length]
  have hnum : (len / sectorSize + 1) * sectorSize = len / sectorSize * sectorSize + sectorSize := Nat.succ_mul _ _
  have hfits : last + sectorSize ≤ 2 ^ 25 := by
    simp only [sectorSize_eq] at hstart hend hlast ⊢
    omega
  have hbound : len = len / sectorSize * sectorSize + lenOffset ∧ lenOffset < sectorSize ∧ 0 < lenOffset := by
    simp only [sectorSize_eq] at hlenOffset hend ⊢
    omega
  have herased := replay_eraseSectors f offset (n := len / sectorSize + 1) (by omega)
  have hblank : BlankOn (replay f (eraseSectors offset (len / sectorSize + 1))) last
      (last + sectorSize / pageSize * pageSize) := by
    intro a hlo hhi
    rw [herased a, if_pos (by omega)]
  have hreplay : ∀ a, replay f (eraseSectors offset (len / sectorSize + 1) ++
      writePages last (setBlank (readSector f last) 0 lenOffset) (sectorSize / pageSize)) a =
        if offset ≤ a ∧ a < offset + len then blank else f a := by
    intro a
    rw [replay_append, replay_writePages (by omega) (by omega) hblank, hpages, herased a]
    split
    next hin =>
      rw [setBlank_getD (by rw [readSector_length]; omega), readSector_getD f (by omega) (by omega)]
      split
      next => rw [if_pos (by omega)]
      next => rw [if_neg (by omega), Nat.add_sub_cancel' hin.1]
    next hout =>
      split
      next hin => rw [if_pos (by omega)]
      next => rw [if_neg (by omega)]
  refine ⟨fun a hlo hhi => ?_, fun a _ hout => ?_, fun op hop => ?_⟩
  · rw [hreplay a, if_pos ⟨hlo, hhi⟩]
  · rw [hreplay a, if_neg (by omega)]
  · rcases List.mem_append.mp hop with h | h
    · obtain ⟨k, hk, hsector⟩ := eraseSectors_sector (by omega) h
      simp only [sectorSize_eq] at hbound hk hsector hstart
      refine ⟨offset + k * 4096, by omega, by omega, ?_⟩
      rw [hsector, sectorSize_eq]
      omega
    · have hdvd : last % sectorSize = 0 := by
        simp only [sectorSize_eq] at hlast hstart ⊢
        omega
      exact ⟨last, by omega, by omega, (writePages_sector hdvd (by omega) h).symm⟩

/-- One sector of which only the part of the range is set to ones. -/
theorem replay_blankPart (f : Flash) {addr lo hi : Nat} (hfits : addr + sectorSize ≤ 2 ^ 25) (hhi : hi ≤ sectorSize)
    (a : Nat) :
    replay f (eraseSectors addr 1 ++
      writePages addr (setBlank (readSector f addr) lo hi) (sectorSize / pageSize)) a =
        if addr + lo ≤ a ∧ a < addr + hi then blank else f a := by
  have hbuf : (setBlank (readSector f addr) lo hi).length = sectorSize := by
    rw [setBlank_length, readSector_length]
  rw [replay_rewriteSector hfits hbuf]
  have hpos := sectorSize_pos
  split
  next hin =>
    rw [setBlank_getD (by rw [readSector_length]; omega), readSector_getD f (by omega) (by omega)]
    split
    next => rw [if_pos (by omega)]
    next => rw [if_neg (by omega), Nat.add_sub_cancel' hin.1]
  next hout => rw [if_neg (by omega)]

/-- The commands for one sector carry its address. -/
theorem blankPart_sector {addr : Nat} {buf : List Byte} {op : Op} (hdvd : addr % sectorSize = 0)
    (hfits : addr + sectorSize ≤ 2 ^ 25)
    (hop : op ∈ eraseSectors addr 1 ++ writePages addr buf (sectorSize / pageSize)) :
    commandSector op = addr / sectorSize := by
  rcases List.mem_append.mp hop with h | h
  · obtain ⟨k, hk, hsector⟩ := eraseSectors_sector (by omega) h
    rw [hsector, Nat.lt_one_iff.mp hk, Nat.add_zero]
  · exact writePages_sector hdvd (by omega) h

theorem erasesOnly_inside (hle : offset + len ≤ 2 ^ 25) (hpos : 0 < len) {first hi : Nat}
    (hfirst : first = offset / sectorSize * sectorSize) (hhi : hi = offset % sectorSize + len)
    (hhi' : hi ≤ sectorSize) :
    ErasesOnly size f offset len (eraseSectors first 1 ++
      writePages first (setBlank (readSector f first) (offset % sectorSize) hi) (sectorSize / pageSize)) := by
  have hoffset : first + offset % sectorSize = offset := by
    rw [hfirst, Nat.mul_comm]
    exact Nat.div_add_mod _ _
  have hdvd : first % sectorSize = 0 := by rw [hfirst, Nat.mul_mod_left]
  have hfits : first + sectorSize ≤ 2 ^ 25 := by
    simp only [sectorSize_eq] at hdvd hhi' hoffset hhi ⊢
    omega
  have hreplay : ∀ a, replay f (eraseSectors first 1 ++
      writePages first (setBlank (readSector f first) (offset % sectorSize) hi) (sectorSize / pageSize)) a =
        if first + offset % sectorSize ≤ a ∧ a < first + hi then blank else f a := replay_blankPart f hfits hhi'
  refine ⟨fun a hlo hhi => ?_, fun a _ hout => ?_, fun op hop => ?_⟩
  · rw [hreplay a, if_pos (by omega)]
  · rw [hreplay a, if_neg (by omega)]
  · refine ⟨offset, Nat.le_refl _, by omega, ?_⟩
    rw [blankPart_sector hdvd hfits hop, hfirst, Nat.mul_div_cancel _ sectorSize_pos]

theorem erasesOnly_across (hle : offset + len ≤ 2 ^ 25) {first idx left last lenOffset : Nat}
    (hfirst : first = offset / sectorSize * sectorSize) (hidx : idx = offset / sectorSize)
    (hcross : sectorSize < offset % sectorSize + len) (hend : (offset + len) % sectorSize ≠ 0)
    (hleft : left = len - (sectorSize - offset % sectorSize))
    (hlast : last = (idx + left / sectorSize + 1) * sectorSize)
    (hlenOffset : lenOffset = (offset + len) % sectorSize) {ops : List Op}
    (hops : ops = eraseSectors first 1 ++
      writePages first (setBlank (readSector f first) (offset % sectorSize) sectorSize) (sectorSize / pageSize) ++
      eraseSectors ((idx + 1) * sectorSize) (left / sectorSize)) :
    ErasesOnly size f offset len (ops ++ (eraseSectors last 1 ++
      writePages last (setBlank (readSector (replay f ops) last) 0 lenOffset) (sectorSize / pageSize))) := by
  have hoffset : first + offset % sectorSize = offset := by
    rw [hfirst, Nat.mul_comm]
    exact Nat.div_add_mod _ _
  have hdvd : first % sectorSize = 0 := by rw [hfirst, Nat.mul_mod_left]
  have hdvd' : last % sectorSize = 0 := by rw [hlast, Nat.mul_mod_left]
  have hpart : offset % sectorSize < sectorSize := Nat.mod_lt _ sectorSize_pos
  have hnext : (idx + 1) * sectorSize = first + sectorSize := by rw [hfirst, hidx, Nat.succ_mul]
  have hmiddle : first + sectorSize + left / sectorSize * sectorSize = last := by
    rw [hlast, hfirst, hidx, Nat.succ_mul, Nat.add_mul]
    omega
  have hbound : offset + len = last + lenOffset ∧ lenOffset < sectorSize ∧ 0 < lenOffset := by
    simp only [sectorSize_eq] at hlenOffset hend hleft hdvd hmiddle hcross hoffset hpart ⊢
    omega
  have hfits : last + sectorSize ≤ 2 ^ 25 := by
    simp only [sectorSize_eq] at hdvd' hbound ⊢
    omega
  have hrange : first + sectorSize ≤ last := by omega
  rw [hnext] at hops
  have hbefore : ∀ a, replay f ops a = if offset ≤ a ∧ a < last then blank else f a := by
    intro a
    rw [hops, replay_append, replay_eraseSectors _ _ (by omega),
      replay_blankPart f (by omega) (Nat.le_refl _), hoffset, hmiddle]
    split
    next hin => rw [if_pos (by omega)]
    next hout =>
      split
      next hin => rw [if_pos (by omega)]
      next => rw [if_neg (by omega)]
  have hreplay : ∀ a, replay f (ops ++ (eraseSectors last 1 ++
      writePages last (setBlank (readSector (replay f ops) last) 0 lenOffset) (sectorSize / pageSize))) a =
        if offset ≤ a ∧ a < offset + len then blank else f a := by
    intro a
    rw [replay_append, replay_blankPart _ hfits (by omega), hbefore a]
    split
    next hin => rw [if_pos (by omega)]
    next hout =>
      split
      next hin => rw [if_pos (by omega)]
      next => rw [if_neg (by omega)]
  refine ⟨fun a hlo hhi => ?_, fun a _ hout => ?_, fun op hop => ?_⟩
  · rw [hreplay a, if_pos ⟨hlo, hhi⟩]
  · rw [hreplay a, if_neg (by omega)]
  · rcases List.mem_append.mp hop with hop | hop
    · rw [hops] at hop
      rcases List.mem_append.mp hop with hop | hop
      · refine ⟨offset, Nat.le_refl _, by omega, ?_⟩
        rw [blankPart_sector hdvd (by omega) hop, hfirst, Nat.mul_div_cancel _ sectorSize_pos]
      · obtain ⟨k, hk, hsector⟩ := eraseSectors_sector (by omega) hop
        simp only [sectorSize_eq] at hdvd hmiddle hoffset hpart hsector hk hbound
        refine ⟨first + 4096 + k * 4096, by omega, by omega, ?_⟩
        rw [hsector, sectorSize_eq]
        omega
    · exact ⟨last, by omega, by omega, (blankPart_sector hdvd' hfits hop).symm⟩

end Cases

/-- The arguments that the bounds checks let pass. -/
def Accepted (size offset len : Nat) : Prop :=
  len ≠ 0 ∧ (offset + len) % 2 ^ 32 ≤ size ∧ ftRegion < offset

/-- Whatever the chip holds, a call that succeeds erases the range and nothing else. -/
def ErasesRange (size offset len : Nat) : Prop :=
  ∀ mem f ops, eraseRegion size mem f offset len = (.success, ops) → ErasesOnly size f offset len ops

theorem eraseRegion_eq {size offset len : Nat} (haccepted : Accepted size offset len) (f : Flash) :
    eraseRegion size true f offset len = (.success, eraseCommands f offset len) := by
  obtain ⟨hlen, hsize, hft⟩ := haccepted
  rw [eraseRegion, if_neg hlen, if_neg (by omega), if_neg (by omega)]
  rfl

theorem eraseRegion_success {size offset len : Nat} {mem : Bool} {f : Flash} {ops : List Op}
    (h : eraseRegion size mem f offset len = (.success, ops)) : ops = eraseCommands f offset len := by
  unfold eraseRegion at h
  split at h
  · cases h
  · split at h
    · cases h
    · split at h
      · cases h
      · split at h
        · cases h
        · exact (Prod.mk.inj h).2.symm

theorem eraseCommands_erasesOnly {size offset len : Nat} (hpos : len ≠ 0) (hle : offset + len ≤ 2 ^ 25)
    (hends : ¬ EndsAtSector offset len) (f : Flash) : ErasesOnly size f offset len (eraseCommands f offset len) := by
  have hpart : offset % sectorSize ≤ offset := Nat.mod_le _ _
  have hsum : (len + offset % sectorSize) % 2 ^ 32 = len + offset % sectorSize := Nat.mod_eq_of_lt (by omega)
  have hsum' : (offset % sectorSize + len) % 2 ^ 32 = offset % sectorSize + len := Nat.mod_eq_of_lt (by omega)
  have hend : (len + offset % sectorSize) % sectorSize = (offset + len) % sectorSize := by
    simp only [sectorSize_eq]
    omega
  unfold eraseCommands
  dsimp only
  rw [hsum, hsum', hend]
  split
  next h =>
    refine erasesOnly_aligned hle h.1 ?_
    obtain ⟨h₁, h₂⟩ := h
    simp only [sectorSize_eq] at h₁ h₂ ⊢
    omega
  next h =>
    split
    next h₁ =>
      have hoffset : offset / sectorSize * sectorSize = offset :=
        Nat.div_mul_cancel (Nat.dvd_of_mod_eq_zero h₁)
      have hlast : (offset / sectorSize + (len / sectorSize + 1) - 1) * sectorSize =
          offset + len / sectorSize * sectorSize := by
        rw [← Nat.add_assoc, Nat.add_sub_cancel, Nat.add_mul, hoffset]
      have hlenOffset : (offset + len) % sectorSize = len % sectorSize := by
        simp only [sectorSize_eq] at h₁ ⊢
        omega
      rw [hoffset]
      exact erasesOnly_lastPartial hle h₁ (by omega) hlast hlenOffset
    next h₁ =>
      split
      next h₂ => exact erasesOnly_inside hle (by omega) rfl rfl h₂
      next h₂ =>
        rw [List.append_assoc]
        exact erasesOnly_across hle rfl rfl (by omega) (fun h₃ => hends ⟨h₁, by omega, h₃⟩) rfl rfl rfl rfl

/-- A range that wraps round in 32 bits is let pass and not erased to its end. -/
theorem not_erasesOnly_wrap {size offset len : Nat} (hoffset : offset < 2 ^ 32) (hwrap : 2 ^ 32 ≤ offset + len) :
    ¬ ErasesOnly size (fun _ => 0) offset len (eraseCommands (fun _ => 0) offset len) := by
  intro h
  have hzero : replay (fun _ => 0) (eraseCommands (fun _ => 0) offset len) (2 ^ 32 - 1) = 0 :=
    replay_zero rfl fun op hop => eraseCommands_masked hop (by omega)
  have hblank := h.erased (2 ^ 32 - 1) (by omega) (by omega)
  rw [hzero] at hblank
  exact absurd hblank (by decide)

/-- The sector behind the range is erased and written back. -/
theorem not_erasesOnly_endsAtSector {size offset len : Nat} (hle : offset + len ≤ 2 ^ 25) (hft : ftRegion < offset)
    (hends : EndsAtSector offset len) (f : Flash) : ¬ ErasesOnly size f offset len (eraseCommands f offset len) := by
  intro h
  obtain ⟨hstart, hcross, hend⟩ := hends
  have hlast : (offset / sectorSize + (len - (sectorSize - offset % sectorSize)) / sectorSize + 1) * sectorSize =
      offset + len := by
    simp only [sectorSize_eq] at hstart hcross hend ⊢
    omega
  have hsum' : (offset % sectorSize + len) % 2 ^ 32 = offset % sectorSize + len := by
    have hpart : offset % sectorSize < sectorSize := Nat.mod_lt _ sectorSize_pos
    simp only [sectorSize_eq] at hpart ⊢
    omega
  have hop : .erase ((offset + len) % 2 ^ 32 % 2 ^ 25) sectorSize ∈ eraseCommands f offset len := by
    unfold eraseCommands
    dsimp only
    rw [if_neg fun h₁ => hstart h₁.1, if_neg hstart, if_neg (by omega), hlast]
    refine List.mem_append_left _ (List.mem_append_right _ ?_)
    rw [eraseSectors, List.range_one, List.map_singleton, Nat.zero_mul, Nat.add_zero]
    exact List.mem_singleton_self _
  obtain ⟨a, hlo, hhi, hsector⟩ := h.sectors _ hop
  have hft' : ftRegion = 0x2000 := rfl
  simp only [commandSector, sectorSize_eq] at hsector hend
  omega

/-- A call erases exactly its range, unless the range wraps round or starts inside a sector and ends at the
end of a later one. The addresses of a chip are those that the commands can carry. -/
theorem erasesRange_iff {capacity offset len : Nat} (hcapacity : capacity ≤ 25) (hoffset : offset < 2 ^ 32)
    (haccepted : Accepted (2 ^ capacity) offset len) :
    ErasesRange (2 ^ capacity) offset len ↔ offset + len < 2 ^ 32 ∧ ¬ EndsAtSector offset len := by
  have hchip : 2 ^ capacity ≤ 2 ^ 25 := Nat.pow_le_pow_right (by omega) hcapacity
  have ⟨hpos, hsize, hft⟩ := haccepted
  constructor
  · intro h
    have hwrap : offset + len < 2 ^ 32 := by
      by_cases hwrap : offset + len < 2 ^ 32
      · exact hwrap
      · exact absurd (h true _ _ (eraseRegion_eq haccepted fun _ => 0)) (not_erasesOnly_wrap hoffset (by omega))
    refine ⟨hwrap, fun hends => ?_⟩
    rw [Nat.mod_eq_of_lt hwrap] at hsize
    exact not_erasesOnly_endsAtSector (by omega) hft hends _ (h true _ _ (eraseRegion_eq haccepted fun _ => 0))
  · intro ⟨hwrap, hends⟩ mem f ops hops
    rw [Nat.mod_eq_of_lt hwrap] at hsize
    rw [eraseRegion_success hops]
    exact eraseCommands_erasesOnly hpos (by omega) hends f

theorem erasesRange_iff_twoSectors :
    ErasesRange (2 ^ 21) 0x10800 0x1000 ↔ 0x10800 + 0x1000 < 2 ^ 32 ∧ ¬ EndsAtSector 0x10800 0x1000 :=
  erasesRange_iff (by decide) (by decide) ⟨by decide, by decide, by decide⟩

/-- The range ends with its second sector, and the third one is erased as well. -/
theorem erasesRange_thirdSector :
    Accepted (2 ^ 21) 0x10800 0x1800 ∧ ¬ ErasesRange (2 ^ 21) 0x10800 0x1800 := by
  refine ⟨⟨by decide, by decide, by decide⟩, fun h => ?_⟩
  have hrun : eraseRegion (2 ^ 21) true (fun _ => 0) 0x10800 0x1800 =
      (.success, (eraseRegion (2 ^ 21) true (fun _ => 0) 0x10800 0x1800).2) := rfl
  have hop : .erase 0x12000 sectorSize ∈ (eraseRegion (2 ^ 21) true (fun _ => 0) 0x10800 0x1800).2 := by
    refine List.mem_append_left _ (List.mem_append_right _ ?_)
    exact List.mem_singleton_self _
  obtain ⟨a, hlo, hhi, hsector⟩ := (h true (fun _ => 0) _ hrun).sectors _ hop
  simp only [commandSector, sectorSize_eq] at hsector
  omega

end WmIot.Flash
