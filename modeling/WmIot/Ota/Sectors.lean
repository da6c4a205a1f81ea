import WmIot.Lib.NorFlash
import WmIot.Ota.Agree
import WmIot.Ota.Termination

/-!
# The OTA receiver and its flash

The calls of `wm_ota_ops.c` to the flash driver, whose erase and write do what they promise inside the flash and
fail outside. With `need_erase` a write erases the sectors that it comes into, as far as the sector of its end:
what the flash holds behind the data depends on the last write alone.
-/

namespace WmIot.Ota
open NorFlash
set_option autoImplicit false

structure Dev where
  size : Nat
  mem : Flash

/-- `wm_drv_flash_erase_region` -/
def Dev.eraseRegion (f : Dev) (addr len : Nat) : Dev × Bool :=
  if f.size < addr + len then (f, false) else ({ f with mem := erase f.mem addr len }, true)

def overwrite (f : Flash) (addr : Nat) (data : List Byte) : Flash := fun a =>
  if addr ≤ a ∧ a < addr + data.length then data.getD (a - addr) 0 else f a

/-- `wm_drv_flash_write_with_erase` -/
def Dev.writeWithErase (f : Dev) (addr : Nat) (data : List Byte) : Dev × Bool :=
  if f.size < addr + data.length then (f, false) else ({ f with mem := overwrite f.mem addr data }, true)

/-- The length that `wm_ota_ops_begin` erases from the start of the partition. -/
def beginLen (c : Ctx) (imageSize : Nat) : Nat :=
  if imageSize = 0 ∨ imageSize = otaSizeUnknown then c.appOtaSize
  else add32 imageSize (sectorSize - 1) / sectorSize * sectorSize

/-- `wm_ota_ops_begin` -/
def flashBegin (f : Dev) (c : Ctx) (imageSize : Nat) : Dev × Ctx × Err :=
  if c.appOtaAddr = 0 then (f, c, .invalidParam)
  else
    let c := { c with wroteAddr := c.appOtaAddr }
    let tail := f.eraseRegion (sub32 (add32 c.appOtaAddr c.appOtaSize) sectorSize) sectorSize
    if tail.2 = false then (tail.1, c, .failed)
    else if imageSize = otaWithSequentialWrites then (tail.1, { c with needErase := true }, .success)
    else if imageSize ≠ 0 ∧ imageSize ≠ otaSizeUnknown ∧ c.appOtaSize < imageSize then (tail.1, c, .fwOverflow)
    else
      let erased := tail.1.eraseRegion c.appOtaAddr (beginLen c imageSize)
      if erased.2 then (erased.1, { c with needErase := false }, .success)
      else (erased.1, { c with needErase := true }, .failed)

/-- The region that `wm_ota_ops_write` erases before it writes. -/
def eraseBefore (c : Ctx) (size : Nat) : Option (Nat × Nat) :=
  let firstSector := c.wroteAddr / sectorSize
  let lastSector := add32 c.wroteAddr size / sectorSize
  if c.needErase then
    if c.wroteAddr % sectorSize = 0 then
      if size % sectorSize = 0 then
        some (c.wroteAddr, sub32 lastSector firstSector * sectorSize % 2 ^ 32)
      else some (c.wroteAddr, add32 (sub32 lastSector firstSector) 1 * sectorSize % 2 ^ 32)
    else if firstSector ≠ lastSector then
      some (add32 firstSector 1 * sectorSize % 2 ^ 32, sub32 lastSector firstSector * sectorSize % 2 ^ 32)
    else none
  else none

def Dev.eraseBefore (f : Dev) (c : Ctx) (size : Nat) : Dev × Bool :=
  match WmIot.Ota.eraseBefore c size with
  | none => (f, true)
  | some (addr, len) => f.eraseRegion addr len

/-- `wm_ota_ops_write` -/
def flashWrite (f : Dev) (c : Ctx) (data : List Byte) : Dev × Ctx × Err :=
  let size := data.length
  if size = 0 ∨ c.appOtaAddr = 0 then (f, c, .invalidParam)
  else if c.wroteAddr < c.appOtaAddr ∨
      sub32 (add32 c.appOtaAddr c.appOtaSize) c.wroteAddr < size then (f, c, .notAllowed)
  else
    let erased := f.eraseBefore c size
    if erased.2 = false then (erased.1, c, .failed)
    else
      let checked := checkData c data
      if checked.2 = .success then
        let wrote := erased.1.writeWithErase checked.1.wroteAddr data
        if wrote.2 then (wrote.1, { checked.1 with wroteAddr := add32 checked.1.wroteAddr size }, .success)
        else (wrote.1, checked.1, .failed)
      else (erased.1, checked)

/-- Where a run of writes ends, with the length of the chunk that was not taken. -/
structure Outcome where
  dev : Dev
  ctx : Ctx
  stop : Option Nat

/-- Calls of `wm_ota_ops_write` up to the first that fails. -/
def writeAll : Dev → Ctx → List (List Byte) → Outcome
  | f, c, [] => ⟨f, c, none⟩
  | f, c, d :: ds =>
    match flashWrite f c d with
    | (f, c, .success) => writeAll f c ds
    | (f, c, _) => ⟨f, c, some d.length⟩

/-! ## The receiver without its flash -/

section Receiver
variable {f f' : Dev} {c c' : Ctx} {d : List Byte}

/-- Of the flash a beginning sees only whether its calls succeed. -/
theorem flashBegin_ctx (f : Dev) (c : Ctx) (imageSize : Nat) :
    ∃ tail io, (flashBegin f c imageSize).2 = opsBegin tail io c imageSize := by
  unfold flashBegin opsBegin
  dsimp only
  generalize f.eraseRegion (sub32 (add32 c.appOtaAddr c.appOtaSize) sectorSize) sectorSize = tail
  generalize tail.1.eraseRegion c.appOtaAddr (beginLen { c with wroteAddr := c.appOtaAddr } imageSize) = erased
  refine ⟨tail.2, ⟨erased.2, true⟩, ?_⟩
  by_cases h₁ : c.appOtaAddr = 0
  · rw [if_pos h₁, if_pos h₁]
  · rw [if_neg h₁, if_neg h₁]
    by_cases h₂ : tail.2 = false
    · rw [if_pos h₂, if_pos h₂]
    · rw [if_neg h₂, if_neg h₂]
      by_cases h₃ : imageSize = otaWithSequentialWrites
      · rw [if_pos h₃, if_pos h₃]
      · rw [if_neg h₃, if_neg h₃]
        by_cases h₄ : imageSize ≠ 0 ∧ imageSize ≠ otaSizeUnknown ∧ c.appOtaSize < imageSize
        · rw [if_pos h₄, if_pos h₄]
        · rw [if_neg h₄, if_neg h₄]
          cases erased.2 <;> rfl

theorem erases_eq (c : Ctx) (size : Nat) : erases c size = (eraseBefore c size).isSome := by
  unfold erases eraseBefore
  dsimp only
  cases c.needErase
  case false => rfl
  by_cases hstart : c.wroteAddr % sectorSize = 0
  · rw [if_pos rfl, if_pos hstart, hstart]
    split <;> rfl
  · rw [if_pos rfl, if_neg hstart]
    by_cases hsame : c.wroteAddr / sectorSize = add32 c.wroteAddr size / sectorSize
    · rw [if_neg (not_not.mpr hsame), ← hsame]
      simp [hstart]
    · rw [if_pos hsame]
      simp [hsame]

/-- Of the flash a write sees only whether its calls succeed. -/
theorem flashWrite_ctx (f : Dev) (c : Ctx) (d : List Byte) :
    ∃ io, (flashWrite f c d).2 = opsWrite io c d := by
  have hnone : (f.eraseBefore c d.length).2 = false → erases c d.length = true := by
    rw [erases_eq, Dev.eraseBefore]
    cases eraseBefore c d.length with
    | none => exact nofun
    | some _ => exact fun _ => rfl
  unfold flashWrite opsWrite
  dsimp only
  generalize f.eraseBefore c d.length = erased at hnone ⊢
  generalize checkData c d = checked
  generalize erased.1.writeWithErase checked.1.wroteAddr d = wrote
  refine ⟨⟨erased.2, wrote.2⟩, ?_⟩
  by_cases h₁ : d.length = 0 ∨ c.appOtaAddr = 0
  · rw [if_pos h₁, if_pos h₁]
  · rw [if_neg h₁, if_neg h₁]
    by_cases h₂ : c.wroteAddr < c.appOtaAddr ∨ sub32 (add32 c.appOtaAddr c.appOtaSize) c.wroteAddr < d.length
    · rw [if_pos h₂, if_pos h₂]
    · rw [if_neg h₂, if_neg h₂]
      by_cases h₃ : erased.2 = false
      · rw [if_pos h₃, if_pos ⟨hnone h₃, h₃⟩]
      · have hgo : ¬ (erases c d.length = true ∧ erased.2 = false) := fun h => h₃ h.2
        rw [if_neg h₃, if_neg hgo]
        by_cases h₄ : checked.2 = .success
        · rw [if_pos h₄, if_pos h₄]
          cases wrote.2 <;> rfl
        · rw [if_neg h₄, if_neg h₄]

end Receiver

/-! ## One write -/

/-- Where the erased or written part of the flash ends after a write. -/
def eraseEnd (needErase : Bool) (addr size : Nat) : Nat :=
  if needErase then
    if addr % sectorSize = 0 ∧ size % sectorSize = 0 then addr + size
    else ((addr + size) / sectorSize + 1) * sectorSize
  else addr + size

/-- The content after the erase of a write. -/
def eraseMem (f : Flash) (c : Ctx) (size : Nat) : Flash :=
  match eraseBefore c size with
  | none => f
  | some (addr, len) => erase f addr len

/-- The partition lies in the flash. -/
structure Placed (f : Dev) (c : Ctx) : Prop where
  pos : 0 < c.appOtaAddr
  inside : c.appOtaAddr + c.appOtaSize ≤ f.size
  sizeLt : f.size < 2 ^ 32
  sectors : f.size % sectorSize = 0

section Write
variable {f : Dev} {c : Ctx} {d : List Byte} {size : Nat}

/-- The region starts with the write, or with the next sector if the write starts inside one. -/
theorem eraseBefore_spec (hpos : 0 < c.wroteAddr) (hsize : 0 < size) (hfit : c.wroteAddr + size < 2 ^ 32) :
    (eraseBefore c size = none ∧ (c.needErase = true → c.wroteAddr % sectorSize ≠ 0 ∧
        c.wroteAddr / sectorSize = (c.wroteAddr + size) / sectorSize)) ∨
      ∃ lo len, eraseBefore c size = some (lo, len) ∧ c.needErase = true ∧
        lo + len = eraseEnd true c.wroteAddr size ∧
        (c.wroteAddr % sectorSize = 0 ∧ lo = c.wroteAddr ∨
          c.wroteAddr % sectorSize ≠ 0 ∧ lo = (c.wroteAddr / sectorSize + 1) * sectorSize ∧
            lo ≤ c.wroteAddr + size) := by
  have hadd : add32 c.wroteAddr size = c.wroteAddr + size := Nat.mod_eq_of_lt hfit
  unfold eraseBefore eraseEnd
  dsimp only
  rw [hadd]
  cases hneed : c.needErase with
  | false => exact Or.inl ⟨rfl, nofun⟩
  | true =>
    rw [if_pos rfl, if_pos rfl]
    have hlast : c.wroteAddr / sectorSize ≤ (c.wroteAddr + size) / sectorSize :=
      Nat.div_le_div_right (Nat.le_add_right _ _)
    have hsub : sub32 ((c.wroteAddr + size) / sectorSize) (c.wroteAddr / sectorSize) =
        (c.wroteAddr + size) / sectorSize - c.wroteAddr / sectorSize := by
      unfold sub32 sectorSize at *
      omega
    rw [hsub]
    by_cases hstart : c.wroteAddr % sectorSize = 0
    · rw [if_pos hstart]
      by_cases hwhole : size % sectorSize = 0
      · rw [if_pos hwhole, if_pos ⟨hstart, hwhole⟩]
        refine Or.inr ⟨_, _, rfl, rfl, ?_, Or.inl ⟨hstart, rfl⟩⟩
        unfold sectorSize at *
        omega
      · rw [if_neg hwhole, if_neg (fun h => hwhole h.2)]
        refine Or.inr ⟨_, _, rfl, rfl, ?_, Or.inl ⟨hstart, rfl⟩⟩
        unfold add32 sectorSize at *
        omega
    · have hparts : ¬ (c.wroteAddr % sectorSize = 0 ∧ size % sectorSize = 0) := fun h => hstart h.1
      rw [if_neg hstart, if_neg hparts]
      by_cases hsame : c.wroteAddr / sectorSize = (c.wroteAddr + size) / sectorSize
      · rw [if_neg (not_not.mpr hsame)]
        exact Or.inl ⟨rfl, fun _ => ⟨hstart, hsame⟩⟩
      · rw [if_pos hsame]
        refine Or.inr ⟨_, _, rfl, rfl, ?_, Or.inr ⟨hstart, ?_, ?_⟩⟩
        all_goals
          unfold add32 sectorSize at *
          omega

theorem le_eraseEnd (needErase : Bool) (addr size : Nat) : addr + size ≤ eraseEnd needErase addr size := by
  unfold eraseEnd sectorSize
  repeat' split
  all_goals omega

/-- The erase of a write succeeds exactly where it ends in the flash. -/
theorem eraseBefore_dev (h : Placed f c) (hpos : 0 < c.wroteAddr) (hsize : 0 < size)
    (hfit : c.wroteAddr + size ≤ f.size) :
    f.eraseBefore c size =
      if f.size < eraseEnd c.needErase c.wroteAddr size then (f, false)
      else ({ f with mem := eraseMem f.mem c size }, true) := by
  have hlt := h.sizeLt
  have hsectors := h.sectors
  unfold Dev.eraseBefore eraseMem
  rcases eraseBefore_spec hpos hsize (by omega) with ⟨hnone, hsame⟩ | ⟨lo, len, hsome, hneed, hend, _⟩
  · rw [hnone]
    have hin : ¬ f.size < eraseEnd c.needErase c.wroteAddr size := by
      unfold eraseEnd
      cases hneed : c.needErase with
      | false =>
        rw [if_neg (by decide)]
        omega
      | true =>
        obtain ⟨hinside, hdiv⟩ := hsame hneed
        rw [if_pos rfl, if_neg (fun hwhole => hinside hwhole.1)]
        unfold sectorSize at *
        omega
    rw [if_neg hin]
  · rw [hsome, hneed, ← hend]
    rfl

/-- The three ways of a write: no room in the partition, an erase behind the flash, or the data is looked at. -/
theorem flashWrite_cases (h : Placed f c) (hstart : c.appOtaAddr ≤ c.wroteAddr)
    (hwithin : c.wroteAddr ≤ c.appOtaAddr + c.appOtaSize) (hne : d ≠ []) :
    (c.appOtaAddr + c.appOtaSize < c.wroteAddr + d.length ∧ flashWrite f c d = (f, c, .notAllowed)) ∨
      (c.wroteAddr + d.length ≤ c.appOtaAddr + c.appOtaSize ∧
        f.size < eraseEnd c.needErase c.wroteAddr d.length ∧ flashWrite f c d = (f, c, .failed)) ∨
      (c.wroteAddr + d.length ≤ c.appOtaAddr + c.appOtaSize ∧
        eraseEnd c.needErase c.wroteAddr d.length ≤ f.size ∧
        flashWrite f c d =
          if (checkData c d).2 = .success then
            ({ f with mem := overwrite (eraseMem f.mem c d.length) c.wroteAddr d },
              { (checkData c d).1 with wroteAddr := c.wroteAddr + d.length }, .success)
          else ({ f with mem := eraseMem f.mem c d.length }, checkData c d)) := by
  have hpos := h.pos
  have hinside := h.inside
  have hlt := h.sizeLt
  have hlen : 0 < d.length := List.length_pos_iff.mpr hne
  have hroom : sub32 (add32 c.appOtaAddr c.appOtaSize) c.wroteAddr = c.appOtaAddr + c.appOtaSize - c.wroteAddr := by
    unfold sub32 add32
    omega
  unfold flashWrite
  dsimp only
  rw [hroom, if_neg (by omega)]
  by_cases hfit : c.wroteAddr + d.length ≤ c.appOtaAddr + c.appOtaSize
  · rw [if_neg (by omega), eraseBefore_dev h (by omega) hlen (by omega)]
    by_cases hend : f.size < eraseEnd c.needErase c.wroteAddr d.length
    · rw [if_pos hend, if_pos rfl]
      exact Or.inr (Or.inl ⟨hfit, hend, rfl⟩)
    · rw [if_neg hend]
      dsimp only
      rw [if_neg (Bool.noConfusion : ¬ true = false)]
      refine Or.inr (Or.inr ⟨hfit, Nat.le_of_not_lt hend, ?_⟩)
      obtain ⟨hdr, crc, hctx, _, _⟩ := checkData_spec c d
      have hsame : (checkData c d).1.wroteAddr = c.wroteAddr := by rw [hctx]
      have hadd : add32 c.wroteAddr d.length = c.wroteAddr + d.length := Nat.mod_eq_of_lt (by omega)
      have hwrite : Dev.writeWithErase { f with mem := eraseMem f.mem c d.length } c.wroteAddr d =
          ({ f with mem := overwrite (eraseMem f.mem c d.length) c.wroteAddr d }, true) :=
        if_neg (Nat.not_lt.mpr (Nat.le_trans hfit hinside))
      rw [hsame, hadd, hwrite]
      rfl
  · rw [if_pos (by omega)]
    exact Or.inl ⟨by omega, rfl⟩

end Write

/-! ## What the flash holds -/

/-- The data from `addr` on, blank behind it up to `hi`, and the content from before. -/
def laidOut (f : Flash) (addr : Nat) (data : List Byte) (hi : Nat) : Flash := fun a =>
  if addr ≤ a ∧ a < addr + data.length then data.getD (a - addr) 0
  else if (addr + (sectorSize - 1)) / sectorSize * sectorSize ≤ a ∧ addr + data.length ≤ a ∧ a < hi then blank
  else f a

/-- How far the flash behind a write at `addr` may be erased. -/
structure Front (needErase : Bool) (addr hi : Nat) : Prop where
  written : needErase = false → hi = addr
  onSector : needErase = true → addr % sectorSize = 0 → hi ≤ addr + sectorSize
  inside : needErase = true → addr % sectorSize ≠ 0 → hi = (addr / sectorSize + 1) * sectorSize

theorem Front.next (needErase : Bool) (addr size : Nat) :
    Front needErase (addr + size) (eraseEnd needErase addr size) := by
  unfold eraseEnd
  cases needErase with
  | false => exact ⟨fun _ => rfl, nofun, nofun⟩
  | true =>
    rw [if_pos rfl]
    refine ⟨nofun, ?_, ?_⟩
    all_goals
      intro _ hmod
      unfold sectorSize at *
      split <;> omega

/-- Before the first write. -/
def startFront (needErase : Bool) (addr : Nat) : Nat :=
  if needErase then (addr + (sectorSize - 1)) / sectorSize * sectorSize else addr

theorem Front.start (needErase : Bool) (addr : Nat) : Front needErase addr (startFront needErase addr) := by
  unfold startFront
  cases needErase with
  | false => exact ⟨fun _ => rfl, nofun, nofun⟩
  | true =>
    rw [if_pos rfl]
    refine ⟨nofun, ?_, ?_⟩
    all_goals
      intro _ hmod
      unfold sectorSize at *
      omega

theorem laidOut_start (f : Flash) (needErase : Bool) (addr : Nat) :
    laidOut f addr [] (startFront needErase addr) = f := by
  funext a
  unfold laidOut startFront
  rw [if_neg (by simp only [List.length_nil]; omega)]
  cases needErase with
  | false => exact if_neg (by simp only [List.length_nil, reduceCtorEq, if_false]; omega)
  | true => exact if_neg (by simp only [if_true]; omega)

/-- A write puts its data behind the data, and erases what the end of the partition is not behind. -/
theorem laidOut_write {f : Flash} {c : Ctx} {addr hi : Nat} {data d : List Byte} (hpos : 0 < addr) (hne : d ≠ [])
    (hwrote : c.wroteAddr = addr + data.length) (hfront : Front c.needErase c.wroteAddr hi)
    (hfit : c.wroteAddr + d.length < 2 ^ 32) :
    overwrite (eraseMem (laidOut f addr data hi) c d.length) c.wroteAddr d =
      laidOut f addr (data ++ d) (eraseEnd c.needErase c.wroteAddr d.length) := by
  have hlen : 0 < d.length := List.length_pos_iff.mpr hne
  have happend : (data ++ d).length = data.length + d.length := List.length_append
  funext a
  unfold overwrite
  by_cases hnew : c.wroteAddr ≤ a ∧ a < c.wroteAddr + d.length
  · have hidx : a - addr - data.length = a - c.wroteAddr := by omega
    rw [if_pos hnew, laidOut, if_pos (by omega), List.getD_append_right _ _ _ _ (by omega), hidx]
  · rw [if_neg hnew]
    by_cases hold : addr ≤ a ∧ a < addr + data.length
    · have hkeep : eraseMem (laidOut f addr data hi) c d.length a = laidOut f addr data hi a := by
        unfold eraseMem
        rcases eraseBefore_spec (by omega) hlen hfit with ⟨hnone, _⟩ | ⟨lo, len, hsome, _, _, hlo⟩
        · rw [hnone]
        · rw [hsome]
          apply erase_apply_out
          unfold sectorSize at *
          omega
      rw [hkeep, laidOut, laidOut, if_pos hold, if_pos (by omega), List.getD_append _ _ _ _ (by omega)]
    · have hbehind : laidOut f addr (data ++ d) (eraseEnd c.needErase c.wroteAddr d.length) a =
          if (addr + (sectorSize - 1)) / sectorSize * sectorSize ≤ a ∧ addr + (data ++ d).length ≤ a ∧
            a < eraseEnd c.needErase c.wroteAddr d.length then blank else f a := by
        rw [laidOut, if_neg (by omega)]
      rw [hbehind, happend]
      unfold eraseMem
      rcases eraseBefore_spec (by omega) hlen hfit with ⟨hnone, hsame⟩ | ⟨lo, len, hsome, hneed, hend, hlo⟩
      · rw [hnone]
        dsimp only
        rw [laidOut, if_neg hold]
        cases hneed : c.needErase with
        | false =>
          have hhi := hfront.written hneed
          have hend : eraseEnd false c.wroteAddr d.length = c.wroteAddr + d.length := rfl
          rw [hend, if_neg (by omega), if_neg (by omega)]
        | true =>
          obtain ⟨hinside, hdiv⟩ := hsame hneed
          have hhi := hfront.inside hneed hinside
          have hend : eraseEnd true c.wroteAddr d.length = hi := by
            rw [eraseEnd, if_pos rfl, if_neg (fun hwhole => hinside hwhole.1), ← hdiv, hhi]
          rw [hend]
          congr 1
          apply propext
          omega
      · rw [hsome, hneed]
        dsimp only
        rw [← hend, erase, laidOut, if_neg hold]
        by_cases hin : lo ≤ a ∧ a < lo + len
        · rw [if_pos hin, if_pos]
          unfold sectorSize at *
          omega
        · have hbefore : ¬ ((addr + (sectorSize - 1)) / sectorSize * sectorSize ≤ a ∧
              addr + data.length ≤ a ∧ a < hi) := by
            rcases hlo with ⟨hmod, rfl⟩ | ⟨hmod, rfl, hlo⟩
            · have hhi := hfront.onSector hneed hmod
              have hwhole : c.wroteAddr + sectorSize ≤ c.wroteAddr + len := by
                rw [eraseEnd, if_pos rfl] at hend
                unfold sectorSize at *
                split at hend <;> omega
              omega
            · have hhi := hfront.inside hneed hmod
              omega
          have hbehind : ¬ ((addr + (sectorSize - 1)) / sectorSize * sectorSize ≤ a ∧
              addr + (data.length + d.length) ≤ a ∧ a < lo + len) := by
            rcases hlo with ⟨_, rfl⟩ | ⟨_, _, hlo⟩ <;> omega
          rw [if_neg hin, if_neg hbefore, if_neg hbehind]

/-! ## Runs of writes -/

/-- Where the erased or written part ends after a run. -/
def lastEnd (needErase : Bool) : Nat → Nat → List (List Byte) → Nat
  | _, hi, [] => hi
  | addr, _, d :: ds => lastEnd needErase (addr + d.length) (eraseEnd needErase addr d.length) ds

theorem lastEnd_concat (needErase : Bool) (d : List Byte) : ∀ {pre : List (List Byte)} {addr hi : Nat},
    lastEnd needErase addr hi (pre ++ [d]) = eraseEnd needErase (addr + pre.flatten.length) d.length := by
  intro pre
  induction pre with
  | nil => exact rfl
  | cons x pre ih =>
    intro addr hi
    rw [List.cons_append, lastEnd, ih, List.flatten_cons, List.length_append, Nat.add_assoc]

/-- The erases before these chunks end in the flash. -/
def Roomy (size : Nat) (needErase : Bool) (addr : Nat) (chunks : List (List Byte)) : Prop :=
  ∀ p x q, chunks = p ++ x :: q → eraseEnd needErase (addr + p.flatten.length) x.length ≤ size

/-- Every chunk is taken. -/
structure Written (f : Dev) (g : Flash) (data : List Byte) (hi : Nat) (c : Ctx) (chunks : List (List Byte)) (out : Outcome) :
    Prop where
  mem : out.dev.mem =
    laidOut g c.appOtaAddr (data ++ chunks.flatten) (lastEnd c.needErase c.wroteAddr hi chunks)
  wrote : out.ctx.wroteAddr = c.wroteAddr + chunks.flatten.length
  within : c.wroteAddr + chunks.flatten.length ≤ c.appOtaAddr + c.appOtaSize
  room : Roomy f.size c.needErase c.wroteAddr chunks
  fed : feed c chunks = some out.ctx

/-- The chunk `d` is not taken: it goes over the end of the partition, or the erase before it over the end of the
flash. -/
structure StopsAt (f : Dev) (c : Ctx) (pre : List (List Byte)) (d : List Byte) (out : Outcome) : Prop where
  stop : out.stop = some d.length
  wrote : out.ctx.wroteAddr = c.wroteAddr + pre.flatten.length
  within : c.wroteAddr + pre.flatten.length ≤ c.appOtaAddr + c.appOtaSize
  room : Roomy f.size c.needErase c.wroteAddr pre
  cause : c.appOtaAddr + c.appOtaSize < c.wroteAddr + pre.flatten.length + d.length ∨
    c.wroteAddr + pre.flatten.length + d.length ≤ c.appOtaAddr + c.appOtaSize ∧
      f.size < eraseEnd c.needErase (c.wroteAddr + pre.flatten.length) d.length

theorem Roomy.nil (size : Nat) (needErase : Bool) (addr : Nat) : Roomy size needErase addr [] := by
  intro p x q h
  cases p <;> cases h

theorem Roomy.cons {size addr : Nat} {needErase : Bool} {d : List Byte} {ds : List (List Byte)}
    (hd : eraseEnd needErase addr d.length ≤ size) (h : Roomy size needErase (addr + d.length) ds) :
    Roomy size needErase addr (d :: ds) := by
  intro p x q hsplit
  cases p with
  | nil =>
    obtain ⟨rfl, rfl⟩ := List.cons.inj hsplit
    exact hd
  | cons y p =>
    obtain ⟨rfl, rfl⟩ := List.cons.inj hsplit
    rw [List.flatten_cons, List.length_append, ← Nat.add_assoc]
    exact h p x q rfl

/-- A run whose header, where it has one, is accepted takes every chunk or stops at the first that has no room. -/
theorem writeAll_cases (g : Flash) : ∀ (chunks : List (List Byte)) (f : Dev) (c : Ctx) (data : List Byte) (hi : Nat),
    Placed f c → c.wroteAddr = c.appOtaAddr + data.length → c.wroteAddr ≤ c.appOtaAddr + c.appOtaSize →
    Front c.needErase c.wroteAddr hi → f.mem = laidOut g c.appOtaAddr data hi → (∀ d ∈ chunks, d ≠ []) →
    (c.appOtaAddr = c.wroteAddr → ∀ d ∈ chunks.head?, (checkData c d).2 = .success) →
    ((writeAll f c chunks).stop = none ∧ Written f g data hi c chunks (writeAll f c chunks)) ∨
      ∃ pre d post, chunks = pre ++ d :: post ∧ StopsAt f c pre d (writeAll f c chunks) := by
  intro chunks
  induction chunks with
  | nil =>
    intro f c data hi _ _ hwithin _ hmem _ _
    exact Or.inl ⟨rfl, by rw [List.flatten_nil, List.append_nil]; exact hmem, rfl, hwithin, Roomy.nil _ _ _, rfl⟩
  | cons d ds ih =>
    intro f c data hi hplaced hwrote hwithin hfront hmem hne hcheck
    have hd : d ≠ [] := hne d List.mem_cons_self
    have hlen : 0 < d.length := List.length_pos_iff.mpr hd
    have hpos := hplaced.pos
    have hinside := hplaced.inside
    have hlt := hplaced.sizeLt
    rcases flashWrite_cases hplaced (by omega) hwithin hd with ⟨hover, hwrite⟩ | ⟨hfit, hend, hwrite⟩ |
      ⟨hfit, hend, hwrite⟩
    · refine Or.inr ⟨[], d, ds, rfl, ?_⟩
      rw [writeAll, hwrite]
      exact ⟨rfl, rfl, hwithin, Roomy.nil _ _ _, Or.inl hover⟩
    · refine Or.inr ⟨[], d, ds, rfl, ?_⟩
      rw [writeAll, hwrite]
      exact ⟨rfl, rfl, hwithin, Roomy.nil _ _ _, Or.inr ⟨hfit, hend⟩⟩
    · obtain ⟨hdr, crc, hctx, _, _⟩ := checkData_spec c d
      have hok : (checkData c d).2 = .success := by
        by_cases hfirst : c.appOtaAddr = c.wroteAddr
        · exact hcheck hfirst d rfl
        · unfold checkData
          rw [if_neg hfirst]
      rw [if_pos hok, hctx, hmem, laidOut_write hpos hd hwrote hfront (by omega)] at hwrite
      have hfeed : feed c (d :: ds) =
          feed { c with otaHeader := hdr, crcCtx := crc, wroteAddr := c.wroteAddr + d.length } ds := by
        have hadd : add32 c.wroteAddr d.length = c.wroteAddr + d.length := Nat.mod_eq_of_lt (by omega)
        rw [feed, opsWrite_eq hpos (by omega) (by omega) hd hfit, if_pos hok, hctx]
        dsimp only
        rw [hadd]
      have hall : writeAll f c (d :: ds) =
          writeAll ⟨f.size, laidOut g c.appOtaAddr (data ++ d) (eraseEnd c.needErase c.wroteAddr d.length)⟩
            { c with otaHeader := hdr, crcCtx := crc, wroteAddr := c.wroteAddr + d.length } ds := by
        rw [writeAll, hwrite]
      have hflatten : (d :: ds).flatten.length = d.length + ds.flatten.length := by
        rw [List.flatten_cons, List.length_append]
      rw [hall]
      have hnext := ih ⟨f.size, laidOut g c.appOtaAddr (data ++ d) (eraseEnd c.needErase c.wroteAddr d.length)⟩
        { c with otaHeader := hdr, crcCtx := crc, wroteAddr := c.wroteAddr + d.length } (data ++ d)
        (eraseEnd c.needErase c.wroteAddr d.length) ⟨hpos, hinside, hlt, hplaced.sectors⟩
        (by rw [List.length_append]; dsimp only; omega) hfit (Front.next _ _ _) rfl
        (fun x hx => hne x (List.mem_cons_of_mem _ hx)) (fun h => absurd h (by dsimp only; omega))
      rcases hnext with ⟨hstop, hwritten⟩ | ⟨pre, x, post, hsplit, hstops⟩
      · refine Or.inl ⟨hstop, ?_, ?_, ?_, Roomy.cons hend hwritten.room, ?_⟩
        · rw [hwritten.mem, List.flatten_cons, List.append_assoc]
          rfl
        · rw [hwritten.wrote, hflatten, Nat.add_assoc]
        · have hle := hwritten.within
          dsimp only at hle
          omega
        · rw [hfeed]
          exact hwritten.fed
      · refine Or.inr ⟨d :: pre, x, post, by rw [hsplit, List.cons_append], ?_⟩
        have hshift : c.wroteAddr + (d :: pre).flatten.length = c.wroteAddr + d.length + pre.flatten.length := by
          rw [List.flatten_cons, List.length_append, Nat.add_assoc]
        refine ⟨hstops.stop, ?_, ?_, Roomy.cons hend hstops.room, ?_⟩
        · rw [hshift]
          exact hstops.wrote
        · rw [hshift]
          exact hstops.within
        · rw [hshift]
          exact hstops.cause

theorem flashWrite_success {f : Dev} {c : Ctx} {d : List Byte} (h : (flashWrite f c d).2.2 = .success) :
    d ≠ [] ∧ (checkData c d).2 = .success := by
  unfold flashWrite at h
  dsimp only at h
  split at h
  next => cases h
  next hparam =>
    have hne : d ≠ [] := fun hnil => hparam (Or.inl (by rw [hnil, List.length_nil]))
    split at h
    next => cases h
    next =>
      split at h
      next => cases h
      next =>
        split at h
        next hok => exact ⟨hne, hok⟩
        next hbad => exact absurd h hbad

theorem writeAll_cons {f : Dev} {c : Ctx} {d : List Byte} {ds : List (List Byte)}
    (h : (writeAll f c (d :: ds)).stop = none) :
    (flashWrite f c d).2.2 = .success ∧
      writeAll f c (d :: ds) = writeAll (flashWrite f c d).1 (flashWrite f c d).2.1 ds := by
  rw [writeAll] at h ⊢
  generalize flashWrite f c d = r at h ⊢
  obtain ⟨f', c', ret⟩ := r
  cases ret
  case success => exact ⟨rfl, rfl⟩
  all_goals cases h

/-- A run that takes every chunk was given data each time, and first an accepted header. -/
theorem writeAll_taken : ∀ {chunks : List (List Byte)} {f : Dev} {c : Ctx}, (writeAll f c chunks).stop = none →
    (∀ d ∈ chunks, d ≠ []) ∧ ∀ d ∈ chunks.head?, (checkData c d).2 = .success := by
  intro chunks
  induction chunks with
  | nil => exact fun _ => ⟨nofun, nofun⟩
  | cons d ds ih =>
    intro f c h
    obtain ⟨hsuccess, hrest⟩ := writeAll_cons h
    obtain ⟨hne, hok⟩ := flashWrite_success hsuccess
    rw [hrest] at h
    refine ⟨?_, ?_⟩
    · intro x hx
      rcases List.mem_cons.mp hx with rfl | hx
      · exact hne
      · exact (ih h).1 x hx
    · intro x hx
      obtain rfl := Option.some.inj hx
      exact hok

end WmIot.Ota
