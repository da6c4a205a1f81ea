import WmIot.Lib.NorFlash

/-!
# The internal flash driver

`wm_drv_ops_internal_flash.c`: the read operation and the write that rewrites whole sectors, as
used for the factory parameters. The buffer of a call may be refused (`mem`); the pages of a
sector are programmed in one operation.
-/

namespace WmIot.Flash
open NorFlash
set_option autoImplicit false

/-- `device_info.sector_size`. -/
def sectorSize : Nat := 0x1000

/-- `wm_drv_internal_flash_read`, of a chip of the given size. -/
def read (size : Nat) (mem : Bool) (f : Flash) (offset len : Nat) : Option (List Byte) :=
  if len = 0 ∨ size < offset + len ∨ mem = false then none else some (readBytes f offset len)

/-- The turns of the loop over sectors, of which the first begins at `sectorOffset`. -/
def rewriteLoop (f : Flash) : Nat → Nat → Nat → List Byte → List Op
  | 0, _, _, _ => []
  | n + 1, sectorIdx, sectorOffset, src =>
    let remain := min src.length (sectorSize - sectorOffset)
    let tmp := readBytes f (sectorIdx * sectorSize) sectorSize
    let tmp := tmp.take sectorOffset ++ src.take remain ++ tmp.drop (sectorOffset + remain)
    let ops := [.erase (sectorIdx * sectorSize) sectorSize, .program (sectorIdx * sectorSize) tmp]
    if src.length = remain then ops
    else ops ++ rewriteLoop (replay f ops) n (sectorIdx + 1) 0 (src.drop remain)

/-- `wm_drv_iflash_wr_with_erase_private`: its operations, of which there are none when it fails. -/
def wrWithErasePrivate (size : Nat) (mem : Bool) (f : Flash) (offset : Nat) (src : List Byte) : List Op :=
  if src.length = 0 ∨ size < offset + src.length ∨ mem = false then []
  else rewriteLoop f src.length (offset / sectorSize) (offset % sectorSize) src

section
variable {f : Flash} {size offset : Nat} {src : List Byte}

/-- A write at the start of a sector that ends inside it. -/
theorem wrWithErasePrivate_eq (hsize : offset + src.length ≤ size) (hdvd : sectorSize ∣ offset) (hpos : 0 < src.length)
    (hlen : src.length ≤ sectorSize) :
    wrWithErasePrivate size true f offset src =
      [.erase offset sectorSize, .program offset (src ++ (readBytes f offset sectorSize).drop src.length)] := by
  have hmod : offset % sectorSize = 0 := Nat.mod_eq_zero_of_dvd hdvd
  have hdiv : offset / sectorSize * sectorSize = offset := Nat.div_mul_cancel hdvd
  have hmin : min src.length (sectorSize - 0) = src.length := by omega
  have hloop : ∀ n, 0 < n → rewriteLoop f n (offset / sectorSize) 0 src =
      [.erase offset sectorSize, .program offset (src ++ (readBytes f offset sectorSize).drop src.length)] := by
    intro n hn
    cases n with
    | zero => exact absurd hn (Nat.lt_irrefl 0)
    | succ n =>
      rw [rewriteLoop]
      simp only [hdiv, hmin, if_true, List.take_zero, List.nil_append, List.take_length, Nat.zero_add]
  unfold wrWithErasePrivate
  rw [if_neg (by simp only [Bool.true_eq_false, or_false]; omega), hmod]
  exact hloop src.length hpos

/-- What such a write touches, whether it succeeds or not. -/
theorem wrWithErasePrivate_touches {mem : Bool} (hdvd : sectorSize ∣ offset) (hlen : src.length ≤ sectorSize)
    {op : Op} (hop : op ∈ wrWithErasePrivate size mem f offset src) {a : Nat} (ha : op.Touches a) :
    offset ≤ a ∧ a < offset + sectorSize := by
  by_cases hrefused : src.length = 0 ∨ size < offset + src.length ∨ mem = false
  · rw [wrWithErasePrivate, if_pos hrefused] at hop
    cases hop
  · push Not at hrefused
    obtain ⟨hpos, hsize, hmem⟩ := hrefused
    obtain rfl : mem = true := by simpa using hmem
    rw [wrWithErasePrivate_eq (by omega) hdvd (by omega) hlen] at hop
    rcases List.mem_cons.mp hop with rfl | hop
    · exact ha
    · obtain rfl := List.mem_singleton.mp hop
      simp only [Op.Touches, List.length_append, List.length_drop, readBytes_length] at ha
      omega

theorem readBytes_wrWithErasePrivate (hsize : offset + src.length ≤ size) (hdvd : sectorSize ∣ offset)
    (hpos : 0 < src.length) (hlen : src.length ≤ sectorSize) :
    readBytes (replay f (wrWithErasePrivate size true f offset src)) offset src.length = src := by
  rw [wrWithErasePrivate_eq hsize hdvd hpos hlen]
  simp only [replay_cons, replay_nil, Op.apply]
  have hall : (src ++ (readBytes f offset sectorSize).drop src.length).length = sectorSize := by
    simp only [List.length_append, List.length_drop, readBytes_length]
    omega
  have hblank : BlankOn (erase f offset sectorSize) offset
      (offset + (src ++ (readBytes f offset sectorSize).drop src.length).length) := by
    rw [hall]
    exact erase_blankOn f offset sectorSize
  apply List.ext_getElem (by simp)
  intro k h₁ h₂
  simp only [readBytes, List.getElem_map, List.getElem_range]
  change program _ _ (src ++ (readBytes f offset sectorSize).drop src.length) _ = _
  rw [program_on_blank hblank (by rw [hall]; omega), List.getD_eq_getElem?_getD, List.getElem?_append_left h₂,
    List.getElem?_eq_getElem h₂, Option.getD_some]

end

end WmIot.Flash
