import WmIot.FtParam.FtParam

/-!
# Blocks of factory parameters

What `ft_param_init` makes of a copy depends on its 220 bytes only. A block of the current layout
that is sealed passes its own check, whatever is stored in it.
-/

namespace WmIot.FtParam
open NorFlash
set_option autoImplicit false

section Bytes
variable {p q : Image} {data : List Byte} {off a v lo hi : Nat}

theorem patch_out (h : a < off ∨ off + data.length ≤ a) : patch p off data a = p a := by
  unfold patch
  rw [if_neg (by omega)]

theorem patch_in (p : Image) (off : Nat) (data : List Byte) {k : Nat} (hk : k < data.length) : patch p off data (off + k) = data.getD k 0 := by
  unfold patch
  rw [if_pos (by omega), Nat.add_sub_cancel_left]

/-- Storing what is there already. -/
theorem patch_same (h : ∀ k, k < data.length → data.getD k 0 = p (off + k)) : patch p off data = p := by
  funext a
  unfold patch
  split
  · rename_i ha
    rw [h (a - off) (by omega), Nat.add_sub_cancel' ha.1]
  · rfl

theorem fill_out {len : Nat} (h : a < off ∨ off + len ≤ a) : fill p off len a = p a := by
  unfold fill
  rw [if_neg (by omega)]

@[simp] theorem le16_length (v : Nat) : (le16 v).length = 2 := rfl

@[simp] theorem le32_length (v : Nat) : (le32 v).length = 4 := rfl

/-- A block stored elsewhere leaves a range as it was. -/
theorem patch_agreeOn (lo hi : Nat) (h : hi ≤ off ∨ off + data.length ≤ lo) : AgreeOn (patch p off data) p lo hi :=
  fun _ _ _ => patch_out (by omega)

theorem fill_agreeOn {len : Nat} (lo hi : Nat) (h : hi ≤ off ∨ off + len ≤ lo) : AgreeOn (fill p off len) p lo hi :=
  fun _ _ _ => fill_out (by omega)

theorem readBytes_patch : readBytes (patch p off data) off data.length = data := by
  apply List.ext_getElem (by simp)
  intro k h₁ h₂
  simp only [readBytes, List.getElem_map, List.getElem_range]
  rw [patch_in _ _ _ h₂, List.getD_eq_getElem?_getD, List.getElem?_eq_getElem h₂, Option.getD_some]

theorem readBytes_getD (p : Image) (off : Nat) {k len : Nat} (hk : k < len) : (readBytes p off len).getD k 0 = p (off + k) := by
  rw [List.getD_eq_getElem?_getD, List.getElem?_eq_getElem (by simpa using hk), Option.getD_some]
  simp [readBytes]

/-- The bytes read from one block, stored at the start of another. -/
theorem patch_readBytes_agreeOn (q : Image) (off len : Nat) :
    AgreeOn (patch p 0 (readBytes q off len)) (fun a => q (off + a)) 0 len := by
  intro a _ ha
  have hin := patch_in p 0 (readBytes q off len) (by simpa using ha)
  rw [Nat.zero_add] at hin
  rw [hin, readBytes_getD q off ha]

theorem patch_readBytes_start (p q : Image) (len : Nat) : AgreeOn (patch p 0 (readBytes q 0 len)) q 0 len := by
  have hsame := patch_readBytes_agreeOn (p := p) q 0 len
  simpa only [Nat.zero_add] using hsame

theorem agreeOn_of_readBytes {len : Nat} (h : readBytes p 0 len = readBytes q 0 len) : AgreeOn p q 0 len := by
  intro a _ ha
  have hp := readBytes_getD p 0 ha
  rw [h, readBytes_getD q 0 ha, Nat.zero_add] at hp
  exact hp.symm

theorem get16_congr (off : Nat) (h : AgreeOn p q lo hi) (hlo : lo ≤ off) (hhi : off + 2 ≤ hi) : get16 p off = get16 q off := by
  unfold get16
  rw [h off (by omega) (by omega), h (off + 1) (by omega) (by omega)]

theorem get32_congr (off : Nat) (h : AgreeOn p q lo hi) (hlo : lo ≤ off) (hhi : off + 4 ≤ hi) : get32 p off = get32 q off := by
  unfold get32
  rw [get16_congr off h hlo (by omega), get16_congr (off + 2) h (by omega) (by omega)]

theorem get16_patch (hv : v < 2 ^ 16) : get16 (patch p off (le16 v)) off = v := by
  have h₀ : patch p off (le16 v) (off + 0) = (le16 v).getD 0 0 := patch_in _ _ _ (Nat.zero_lt_two)
  have h₁ : patch p off (le16 v) (off + 1) = (le16 v).getD 1 0 := patch_in _ _ _ (Nat.one_lt_two)
  rw [Nat.add_zero] at h₀
  unfold get16
  rw [h₀, h₁]
  simp only [le16, List.getD_cons_zero, List.getD_cons_succ, BitVec.toNat_ofNat]
  omega

theorem get32_patch (hv : v < 2 ^ 32) : get32 (patch p off (le32 v)) off = v := by
  have hbyte : ∀ k, k < 4 → patch p off (le32 v) (off + k) = (le32 v).getD k 0 :=
    fun k hk => patch_in _ _ _ (by rw [le32_length]; exact hk)
  have h₀ := hbyte 0 (by omega)
  have h₁ := hbyte 1 (by omega)
  have h₂ := hbyte 2 (by omega)
  have h₃ := hbyte 3 (by omega)
  rw [Nat.add_zero] at h₀
  unfold get32 get16
  rw [h₀, h₁, h₂, Nat.add_assoc off 2 1, h₃]
  simp only [le32, le16, List.cons_append, List.nil_append, List.getD_cons_zero, List.getD_cons_succ, BitVec.toNat_ofNat]
  omega

end Bytes

/-! ## The check of a block -/

/-- What `ft_param_init` returns for the block. -/
def Port.check (P : Port) (p : Image) : Version :=
  if get32 p magicNoAt = signatureWord then
    if get32 p checksumAt ≠ P.crc32 p 8 (paramSize - 8) then .failed
    else if ftExtValid p then
      if get32 p extChecksumAt = P.crc32 p ext1At (get16 p extParamLenAt) then .current else .failed
    else .legacy
  else .failed

/-- The block of the old layout as `ft_param_init` hands it on. -/
def legacyFields (p : Image) : Image := patch (patch p versionNoAt (le16 0xFFFF)) extParamLenAt (le16 0xFFFF)

/-- The copy in flash at an address. -/
def copyAt (f : Flash) (addr : Nat) : Image := fun a => f (addr + a)

section Check
variable {P : Port} {p q : Image} {f : Flash} {addr : Nat}

theorem ftExtValid_congr (h : AgreeOn p q 14 24) : ftExtValid p = ftExtValid q := by
  unfold ftExtValid
  rw [get16_congr versionNoAt h (by decide) (by decide),
    get16_congr extParamLenAt h (by decide) (by decide)]

theorem ftExtValid_len (h : ftExtValid p = true) :
    0 < get16 p versionNoAt ∧ get16 p versionNoAt < 0xFFFF ∧ extSize ≤ get16 p extParamLenAt ∧
      get16 p extParamLenAt ≤ 84 := by
  exact of_decide_eq_true h

theorem crc32_congr {lo hi : Nat} (off len : Nat) (h : AgreeOn p q lo hi) (hlo : lo ≤ off) (hhi : off + len ≤ hi) :
    P.crc32 p off len = P.crc32 q off len := by
  unfold Port.crc32
  rw [h.readBytes hlo hhi]

theorem check_congr (h : AgreeOn p q 0 verSize) : P.check p = P.check q := by
  have hext := ftExtValid_congr (h.mono (Nat.zero_le 14) (by decide))
  have hlen : get16 p extParamLenAt = get16 q extParamLenAt := get16_congr _ h (Nat.zero_le _) (by decide)
  unfold Port.check
  rw [get32_congr magicNoAt h (by decide) (by decide), get32_congr checksumAt h (by decide) (by decide),
    get32_congr extChecksumAt h (by decide) (by decide), crc32_congr 8 _ h (Nat.zero_le _) (by decide), hext]
  by_cases hvalid : ftExtValid q = true
  · have hbound := (ftExtValid_len hvalid).2.2.2
    rw [crc32_congr ext1At _ h (Nat.zero_le _) (by rw [hlen]; unfold ext1At verSize; omega), hlen]
  · simp only [if_neg hvalid]

theorem ftParamInit_refused {mem : Bool} (h : P.size < addr + verSize ∨ mem = false) :
    ftParamInit P mem f addr blankImage = (.failed, blankImage) := by
  have hread : Flash.read P.size mem f addr verSize = none := by
    unfold Flash.read
    rw [if_pos (Or.inr h)]
  have hmagic : get32 blankImage magicNoAt ≠ signatureWord := by decide
  unfold ftParamInit
  rw [hread]
  simp only [if_neg hmagic]

/-- The copy read is checked as it lies in flash. -/
theorem ftParamInit_read (h : addr + verSize ≤ P.size) :
    ∃ p, AgreeOn p (copyAt f addr) 0 verSize ∧
      ftParamInit P true f addr blankImage = (P.check p, if P.check p = .legacy then legacyFields p else p) := by
  have hread : Flash.read P.size true f addr verSize = some (readBytes f addr verSize) := by
    unfold Flash.read
    rw [if_neg (by simp only [verSize, Bool.true_eq_false, or_false]; unfold verSize at h; omega)]
  refine ⟨patch blankImage 0 (readBytes f addr verSize), patch_readBytes_agreeOn f addr verSize, ?_⟩
  unfold ftParamInit Port.check legacyFields
  rw [hread]
  dsimp only
  split <;> rename_i hmagic
  · split <;> rename_i hsum
    · rw [if_neg (by decide)]
    · split <;> rename_i hext
      · split <;> rename_i hextSum
        · rw [if_neg (by decide)]
        · rw [if_neg (by decide)]
      · rw [if_pos rfl]
  · rw [if_neg (by decide)]

/-- The copy at the address passes the header and checksum check. -/
def CopyValid (P : Port) (f : Flash) (addr : Nat) : Prop :=
  addr + verSize ≤ P.size ∧ P.check (copyAt f addr) ≠ .failed

theorem copyValid_iff : CopyValid P f addr ↔ (ftParamInit P true f addr blankImage).1 ≠ .failed := by
  by_cases hsize : addr + verSize ≤ P.size
  · obtain ⟨p, hp, hrun⟩ := ftParamInit_read (f := f) hsize
    rw [hrun, CopyValid, ← check_congr hp]
    exact ⟨fun h => h.2, fun h => ⟨hsize, h⟩⟩
  · rw [ftParamInit_refused (Or.inl (by omega))]
    exact ⟨fun h => absurd h.1 hsize, fun h => absurd rfl h⟩

theorem CopyValid.congr {g : Flash} (h : CopyValid P f addr) (hsame : AgreeOn g f addr (addr + verSize)) :
    CopyValid P g addr := by
  have hcopy : AgreeOn (copyAt g addr) (copyAt f addr) 0 verSize :=
    fun a _ ha => hsame (addr + a) (by omega) (by omega)
  refine ⟨h.1, ?_⟩
  rw [check_congr hcopy]
  exact h.2

end Check

/-! ## The block written -/

section Seal
variable {P : Port} {ram : Image} {opnum : FtCmd} {data : List Byte}

theorem ftExtValid_upgrade (ram : Image) : ftExtValid (upgrade ram) = true := by
  unfold upgrade
  by_cases h : ftExtValid ram = true
  · rw [if_pos h]
    exact h
  · rw [if_neg h]
    have hlow : AgreeOn (fill (patch (patch ram versionNoAt (le16 1)) extParamLenAt (le16 extSize)) ext1At extSize)
        (patch (patch ram versionNoAt (le16 1)) extParamLenAt (le16 extSize)) 0 24 := fill_agreeOn _ _ (Or.inl (by decide))
    have hlen : get16 (fill (patch (patch ram versionNoAt (le16 1)) extParamLenAt (le16 extSize)) ext1At extSize)
        extParamLenAt = extSize := by
      rw [get16_congr _ hlow (by decide) (by decide), get16_patch (by decide)]
    have hversion : get16 (fill (patch (patch ram versionNoAt (le16 1)) extParamLenAt (le16 extSize)) ext1At extSize)
        versionNoAt = 1 := by
      have hother : AgreeOn (patch (patch ram versionNoAt (le16 1)) extParamLenAt (le16 extSize))
          (patch ram versionNoAt (le16 1)) 0 22 := patch_agreeOn _ _ (Or.inl (by decide))
      rw [get16_congr _ hlow (by decide) (by decide), get16_congr _ hother (by decide) (by decide), get16_patch (by decide)]
    unfold ftExtValid
    rw [hlen, hversion]
    decide

/-- A parameter lies apart from the fields of the header and inside the block. -/
theorem FtCmd.place (h : opnum ≠ .all) :
    opnum.at + opnum.len ≤ verSize ∧ 0 < opnum.len ∧
      (8 ≤ opnum.at ∧ opnum.at + opnum.len ≤ 14 ∨ 16 ≤ opnum.at ∧ opnum.at + opnum.len ≤ 22 ∨
        24 ≤ opnum.at ∧ opnum.at + opnum.len ≤ 132 ∨ 136 ≤ opnum.at) := by
  cases opnum with
  | all => exact absurd rfl h
  | _ => decide

/-- With data of its length, the assignment stores all of it at the place of the parameter. -/
theorem storeParam_eq (h : opnum ≠ .all) (hlen : data.length = opnum.len) :
    storeParam ram opnum data = some (patch ram opnum.at data) := by
  cases opnum with
  | all => exact absurd rfl h
  | wifiMac => rfl
  | btMac => rfl
  | txAdcCal => rfl
  | txGain =>
    have hall : data.take 84 = data := List.take_of_length_le (Nat.le_of_eq hlen)
    rw [storeParam, hall]
  | _ =>
    have hall : data.take 4 = data := List.take_of_length_le (Nat.le_of_eq hlen)
    simp only [storeParam, hall]

theorem crc32_lt (P : Port) (p : Image) (off len : Nat) : P.crc32 p off len < 2 ^ 32 := BitVec.isLt _

/-- The seal changes the signature and the two checksums. -/
theorem sealed_agreeOn (lo hi : Nat) (h : 8 ≤ lo ∧ hi ≤ 132 ∨ 136 ≤ lo) : AgreeOn (sealed P ram) ram lo hi := by
  unfold sealed
  refine (patch_agreeOn lo hi ?_).trans ((patch_agreeOn lo hi ?_).trans (patch_agreeOn lo hi ?_))
  · rw [le32_length, checksumAt]
    omega
  · rw [le32_length, magicNoAt]
    omega
  · rw [le32_length, extChecksumAt]
    omega

theorem sealed_magic (P : Port) (ram : Image) : get32 (sealed P ram) magicNoAt = signatureWord := by
  unfold sealed
  dsimp only
  rw [get32_congr _ (patch_agreeOn 0 checksumAt (Or.inl (Nat.le_refl _))) (Nat.zero_le _) (by decide)]
  exact get32_patch (by decide)

/-- A sealed block with a valid extension passes the check. -/
theorem check_sealed (h : ftExtValid ram = true) : P.check (sealed P ram) = .current := by
  have hbound := (ftExtValid_len h).2.2.2
  have hext : ftExtValid (sealed P ram) = true :=
    (ftExtValid_congr (sealed_agreeOn 14 24 (Or.inl ⟨by decide, by decide⟩))).trans h
  have hlen : get16 (sealed P ram) extParamLenAt = get16 ram extParamLenAt :=
    get16_congr _ (sealed_agreeOn 14 24 (Or.inl ⟨by decide, by decide⟩)) (by decide) (by decide)
  -- the last patch lies before the range it is the checksum of
  have hbehind : ∀ (p : Image) (v lo hi : Nat), 8 ≤ lo → AgreeOn (patch p checksumAt (le32 v)) p lo hi :=
    fun p v lo hi hlo => patch_agreeOn lo hi (Or.inr hlo)
  have hsum : get32 (sealed P ram) checksumAt = P.crc32 (sealed P ram) 8 (paramSize - 8) := by
    unfold sealed
    dsimp only
    rw [get32_patch (crc32_lt P _ _ _)]
    exact (crc32_congr _ _ (hbehind _ _ 8 132 (by decide)) (by decide) (by decide)).symm
  have hextSum : get32 (sealed P ram) extChecksumAt = P.crc32 ram ext1At (get16 ram extParamLenAt) := by
    unfold sealed
    dsimp only
    rw [get32_congr _ (hbehind _ _ 132 136 (by decide)) (by decide) (by decide),
      get32_congr _ (patch_agreeOn 132 136 (Or.inr (by decide))) (by decide) (by decide),
      get32_patch (crc32_lt P _ _ _)]
  have hcover : P.crc32 (sealed P ram) ext1At (get16 ram extParamLenAt) = P.crc32 ram ext1At (get16 ram extParamLenAt) :=
    crc32_congr _ _ (sealed_agreeOn 136 220 (Or.inr (by decide))) (by decide)
      (by unfold ext1At; omega)
  unfold Port.check
  rw [if_pos (sealed_magic P ram), if_neg (fun hne => hne hsum), if_pos hext, hextSum, hlen, hcover, if_pos rfl]

/-- The block of a call: that in memory with the parameter stored, sealed. -/
def newImage (P : Port) (ram : Image) (opnum : FtCmd) (data : List Byte) : Image :=
  sealed P (patch (upgrade ram) opnum.at data)

theorem ftExtValid_store (h : opnum ≠ .all) (hlen : data.length = opnum.len) :
    ftExtValid (patch (upgrade ram) opnum.at data) = true := by
  have hplace := (FtCmd.place h).2.2
  rw [← hlen] at hplace
  have hversion : get16 (patch (upgrade ram) opnum.at data) versionNoAt = get16 (upgrade ram) versionNoAt :=
    get16_congr _ (patch_agreeOn 14 16 (by omega)) (by decide) (by decide)
  have hextLen : get16 (patch (upgrade ram) opnum.at data) extParamLenAt = get16 (upgrade ram) extParamLenAt :=
    get16_congr _ (patch_agreeOn 22 24 (by omega)) (by decide) (by decide)
  have hvalid := ftExtValid_upgrade ram
  unfold ftExtValid at hvalid ⊢
  rw [hversion, hextLen]
  exact hvalid

theorem check_newImage (h : opnum ≠ .all) (hlen : data.length = opnum.len) :
    P.check (newImage P ram opnum data) = .current := check_sealed (ftExtValid_store h hlen)

end Seal

end WmIot.FtParam
