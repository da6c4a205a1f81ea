import WmIot.FtParam.Frame

/-!
# Setting a parameter and reading it back

A call brings the second copy up to date before it writes the new block, and gives up when that fails. Behind a
good first copy it does fail if the block in memory no longer has the checksum of the copy: the old layout is
loaded with two fields set to ones.
-/

namespace WmIot.FtParam
open NorFlash
set_option autoImplicit false

/-- With its buffers granted a call succeeds, and the value is read back, at once and after a reset. -/
structure RoundTrips (P : Port) (f : Flash) (resetWhenGet : Bool) (t : FtCmd) (data : List Byte) : Prop where
  success : (wmFtParamSet P granted (boot P f) t data).success = true
  get : wmFtParamGet P resetWhenGet ⟨replay f (wmFtParamSet P granted (boot P f) t data).ops,
    (wmFtParamSet P granted (boot P f) t data).ram⟩ t t.len = some data
  getAfterInit : wmFtParamGet P resetWhenGet (boot P (replay f (wmFtParamSet P granted (boot P f) t data).ops)) t
    t.len = some data

/-- The second copy needs no update, is equal to the block loaded, or can be made equal to it: that block passes
the check. -/
def CanSync (P : Port) (f : Flash) : Prop :=
  ¬ CopyValid P f P.addr0 ∨ differs (ftParamInit P true f P.addr1 blankImage) (boot P f).ram = false ∨
    P.check (boot P f).ram ≠ .failed

section
variable {P : Port} {f : Flash} {t : FtCmd} {data : List Byte}

theorem newImage_own {ram : Image} (ht : t ≠ .all) (hlen : data.length = t.len) :
    readBytes (newImage P ram t data) t.at t.len = data := by
  have hplace := (FtCmd.place ht).2.2
  have hseal : AgreeOn (newImage P ram t data) (patch (upgrade ram) t.at data) t.at (t.at + t.len) :=
    sealed_agreeOn _ _ (by omega)
  rw [hseal.readBytes (Nat.le_refl _) (Nat.le_refl _), ← hlen]
  exact readBytes_patch

/-- A block loaded in the old layout has its two fields set to ones. -/
theorem boot_legacyFields (hacc : Accepted P f) (h : P.check (boot P f).ram = .legacy) :
    AgreeOn (legacyFields (boot P f).ram) (boot P f).ram 0 verSize := by
  obtain ⟨p, -, -, hbytes⟩ := loadedBytes_eq hacc
  rw [boot_eq hacc, hbytes] at h ⊢
  dsimp only at h ⊢
  by_cases hcurrent : P.check p = .current
  · rw [if_pos hcurrent] at h
    have hsame := patch_readBytes_start (fill (fun _ => 0) 0 verSize) p verSize
    rw [check_congr hsame, hcurrent] at h
    cases h
  · rw [if_neg hcurrent]
    have hsame := patch_readBytes_start (fill (fun _ => 0) 0 verSize) (legacyFields p) paramSize
    generalize patch (fill (fun _ => 0) 0 verSize) 0 (readBytes (legacyFields p) 0 paramSize) = ram at hsame
    have hones : ∀ off, off = versionNoAt ∨ off = extParamLenAt → ∀ k, k < (le16 0xFFFF).length →
        (le16 0xFFFF).getD k 0 = ram (off + k) := by
      intro off hoff k hk
      have hk' : k < 2 := hk
      rw [hsame (off + k) (Nat.zero_le _) (by rcases hoff with rfl | rfl <;> unfold paramSize <;> decide +revert)]
      rcases hoff with rfl | rfl
      · rw [legacyFields, patch_out (Or.inl (by unfold versionNoAt extParamLenAt; omega)), patch_in _ _ _ hk]
      · rw [legacyFields, patch_in _ _ _ hk]
    rw [legacyFields, patch_same (hones versionNoAt (Or.inl rfl)), patch_same (hones extParamLenAt (Or.inr rfl))]
    exact AgreeOn.refl _ _ _

theorem syncSecond_eq (P : Port) (st : State) :
    (syncSecond P granted st).1 =
      if (ftParamInit P true st.flash P.addr0 blankImage).1 = .failed then true
      else if differs (ftParamInit P true st.flash P.addr1 blankImage) st.ram then
        !differs (ftParamInit P true
          (replay st.flash (Flash.wrWithErasePrivate P.size true st.flash P.addr1 (readBytes st.ram 0 verSize)))
          P.addr1 blankImage) st.ram
      else true := by
  unfold syncSecond
  split
  next hfirst => exact (if_pos hfirst).symm
  next hfirst =>
    refine Eq.trans ?_ (if_neg hfirst).symm
    split
    next hdiffers => exact (if_pos hdiffers).symm
    next hdiffers => exact (if_neg hdiffers).symm

theorem syncSecond_iff (hacc : Accepted P f) (hroom : P.addr1 + verSize ≤ P.size) :
    (syncSecond P granted (boot P f)).1 = true ↔ CanSync P f := by
  have hflash : (boot P f).flash = f := by rw [boot_eq hacc]
  constructor
  · intro hsync
    by_cases hfirst : CopyValid P f P.addr0
    · by_cases hdiffers : differs (ftParamInit P true f P.addr1 blankImage) (boot P f).ram = true
      · refine Or.inr (Or.inr fun hfailed => ?_)
        rw [syncSecond_eq, hflash, if_neg (copyValid_iff.mp hfirst), if_pos hdiffers] at hsync
        obtain ⟨p, hp, hrun⟩ := ftParamInit_written (P := P) (f := f) (boot P f).ram (aligned1 P) hroom
        have hcheck : P.check p = .failed := (check_congr hp).trans hfailed
        rw [hrun, hcheck] at hsync
        simp [differs] at hsync
      · exact Or.inr (Or.inl (by simpa using hdiffers))
    · exact Or.inl hfirst
  · rintro (hfirst | hsame | hcheck)
    · rw [syncSecond_of_invalid (by rwa [hflash])]
    · rw [syncSecond_eq, hflash, if_neg (show ¬ differs _ _ = true by rw [hsame]; decide)]
      split <;> rfl
    · exact syncSecond_granted hcheck (boot_legacyFields hacc) hroom ⟨rfl, rfl⟩

theorem writeCopies_room {mem : Allocations} {g : Flash} {ram : Image} (hram : P.check ram = .current)
    (hsucc : (writeCopies P mem g ram).1 = true) : P.addr1 + verSize ≤ P.size := by
  unfold writeCopies at hsucc
  dsimp only at hsucc
  split at hsucc
  · cases hsucc
  · rename_i hmatch
    exact (copy_of_match hram (by simpa using hmatch)).1.1

/-- A call that succeeds got past the update of the second copy and wrote both. -/
theorem set_success_steps {st : State} (ht : t ≠ .all) (hlen : data.length = t.len)
    (hsucc : (wmFtParamSet P granted st t data).success = true) :
    (syncSecond P granted st).1 = true ∧ P.addr1 + verSize ≤ P.size := by
  have hpos := (FtCmd.place ht).2.1
  unfold wmFtParamSet at hsucc
  rw [if_neg (not_or.mpr ⟨by omega, by decide⟩)] at hsucc
  dsimp only at hsucc
  by_cases hsync : (syncSecond P granted st).1 = true
  · rw [if_pos hsync, storeParam_eq ht hlen] at hsucc
    exact ⟨hsync, writeCopies_room (check_newImage ht hlen) hsucc⟩
  · rw [if_neg hsync] at hsucc
    cases hsucc

/-- A value set is read back exactly if both copies lie in the flash and the second one can be brought up to
date. -/
theorem set_get_iff (hacc : Accepted P f) (resetWhenGet : Bool) (ht : t ≠ .all) (hlen : data.length = t.len) :
    RoundTrips P f resetWhenGet t data ↔ P.addr1 + verSize ≤ P.size ∧ CanSync P f := by
  have hflash : (boot P f).flash = f := by rw [boot_eq hacc]
  constructor
  · intro h
    obtain ⟨hsync, hroom⟩ := set_success_steps ht hlen h.success
    exact ⟨hroom, (syncSecond_iff hacc hroom).mp hsync⟩
  · intro ⟨hroom, hcan⟩
    have hsucc : (wmFtParamSet P granted (boot P f) t data).success = true :=
      set_granted ht hlen rfl ((syncSecond_iff hacc hroom).mpr hcan) hroom ⟨rfl, rfl, rfl, rfl⟩
    obtain ⟨-, hram, hvalid, hcopy⟩ := set_success hlen hsucc
    rw [hflash] at hvalid hcopy
    have hnew : AgreeOn (wmFtParamSet P granted (boot P f) t data).ram (newImage P (boot P f).ram t data) 0 verSize := by
      rw [hram]
      exact AgreeOn.refl _ _ _
    have hafter := get_after (check_newImage ht hlen) hnew hvalid hcopy resetWhenGet ht
    rw [newImage_own ht hlen] at hafter
    exact ⟨hsucc, hafter.1, hafter.2⟩

end

theorem set_get_iff_second :
    RoundTrips chip secondOnly false .btMac [1, 2, 3, 4, 5, 6] ↔
      chip.addr1 + verSize ≤ chip.size ∧ CanSync chip secondOnly :=
  set_get_iff (Or.inr copyValid_secondOnly) false (by decide) rfl

/-- A block of the old layout of zeros. -/
def zeroBase : Image :=
  patch (patch (fun _ => 0) magicNoAt (le32 signatureWord)) checksumAt
    (le32 (chip.crc32 (fun _ => 0) 8 (paramSize - 8)))

/-- The first copy is of the old layout, with no ones in the fields that it does not use; the second is erased. -/
def zeroFlash : Flash := fun a => if a < 0x1000 then zeroBase a else 0xFF#8

theorem zeroBase_zero (lo hi : Nat) (h : 8 ≤ lo) : AgreeOn zeroBase (fun _ => 0) lo hi := by
  unfold zeroBase
  refine (patch_agreeOn lo hi (Or.inr ?_)).trans (patch_agreeOn lo hi (Or.inr ?_))
  · rw [le32_length, checksumAt]
    omega
  · rw [le32_length, magicNoAt]
    omega

theorem get32_zeroBase : get32 zeroBase magicNoAt = signatureWord ∧
    get32 zeroBase checksumAt = chip.crc32 (fun _ => 0) 8 (paramSize - 8) := by
  constructor
  · unfold zeroBase
    rw [get32_congr _ (patch_agreeOn 0 checksumAt (Or.inl (Nat.le_refl _))) (Nat.zero_le _) (by decide)]
    exact get32_patch (by decide)
  · exact get32_patch (crc32_lt chip _ _ _)

theorem check_zeroBase {p : Image} (h : AgreeOn p zeroBase 0 verSize) : chip.check p = .legacy := by
  obtain ⟨hmagic, hsum⟩ := get32_zeroBase
  rw [check_congr h]
  apply check_legacy hmagic
  · rw [hsum, crc32_congr 8 (paramSize - 8) (zeroBase_zero 8 132 (Nat.le_refl 8)) (Nat.le_refl 8) (by decide)]
  · rw [ftExtValid_congr (zeroBase_zero 14 24 (by decide))]
    decide

theorem chip_crc32 (p : Image) (off len : Nat) :
    chip.crc32 p off len = (Crc32.updateSkip 0xFFFFFFFF#32 (readBytes p off len)).toNat := by
  rw [Crc32.updateSkip_eq]
  rfl

/-- The checksum of the copy is not that of the block as it is handed on. -/
theorem check_normalised {p : Image} (h : AgreeOn p (legacyFields zeroBase) 0 paramSize) : chip.check p = .failed := by
  obtain ⟨-, hsum⟩ := get32_zeroBase
  have hstored : get32 p checksumAt = chip.crc32 (fun _ => 0) 8 (paramSize - 8) := by
    rw [get32_congr checksumAt h (by decide) (by decide),
      get32_congr checksumAt (legacyFields_agreeOn zeroBase 4 8 (by omega)) (by decide) (by decide), hsum]
  have hrange : AgreeOn (legacyFields zeroBase) (legacyFields fun _ => 0) 8 132 := by
    intro a hlo hhi
    have hsame := zeroBase_zero 8 132 (Nat.le_refl 8) a hlo hhi
    unfold legacyFields patch
    split
    · rfl
    · split
      · rfl
      · exact hsame
  have hcrc : chip.crc32 p 8 (paramSize - 8) = chip.crc32 (legacyFields fun _ => 0) 8 (paramSize - 8) := by
    rw [crc32_congr 8 (paramSize - 8) h (by decide) (by decide),
      crc32_congr 8 (paramSize - 8) hrange (Nat.le_refl 8) (by decide)]
  have hne : chip.crc32 (fun _ => 0) 8 (paramSize - 8) ≠ chip.crc32 (legacyFields fun _ => 0) 8 (paramSize - 8) := by
    rw [chip_crc32, chip_crc32]
    decide +kernel
  unfold Port.check
  split
  · rw [if_pos (by rw [hstored, hcrc]; exact hne)]
  · rfl

theorem copyAt_zeroFlash : AgreeOn (copyAt zeroFlash chip.addr0) zeroBase 0 verSize := by
  intro a _ ha
  have haddr : chip.addr0 + a = a := Nat.zero_add a
  unfold copyAt zeroFlash
  rw [haddr, if_pos (Nat.lt_trans ha (by decide))]

theorem copyValid_zeroFlash : CopyValid chip zeroFlash chip.addr0 := by
  refine ⟨by decide, ?_⟩
  rw [check_zeroBase copyAt_zeroFlash]
  decide

theorem check_boot_zeroFlash : chip.check (boot chip zeroFlash).ram = .failed := by
  have hacc : Accepted chip zeroFlash := Or.inl copyValid_zeroFlash
  have haddr : loadedAddr chip zeroFlash = chip.addr0 := by
    rw [loadedAddr, if_neg (copyValid_iff.mp copyValid_zeroFlash)]
  obtain ⟨p, hp, -, hbytes⟩ := loadedBytes_eq hacc
  rw [haddr] at hp
  have hbase := hp.trans copyAt_zeroFlash
  rw [boot_eq hacc, hbytes, check_zeroBase hbase, if_neg (by decide)]
  apply check_normalised
  exact (patch_readBytes_start _ (legacyFields p) paramSize).trans
    (legacyFields_congr (hbase.mono (Nat.le_refl 0) (by decide)))

theorem second_zeroFlash : (ftParamInit chip true zeroFlash chip.addr1 blankImage).1 = .failed := by
  by_contra hne
  have hmagic : get32 (copyAt zeroFlash chip.addr1) magicNoAt = signatureWord :=
    check_magic (copyValid_iff.mpr hne).2
  exact absurd hmagic (by decide)

/-- No parameter of this image can be set. -/
theorem set_fails_zeroFlash :
    Accepted chip zeroFlash ∧ ¬ RoundTrips chip zeroFlash false .btMac [1, 2, 3, 4, 5, 6] := by
  have hacc : Accepted chip zeroFlash := Or.inl copyValid_zeroFlash
  refine ⟨hacc, fun h => ?_⟩
  obtain ⟨hsync, hroom⟩ := set_success_steps (by decide) rfl h.success
  rcases (syncSecond_iff hacc hroom).mp hsync with hfirst | hsame | hcheck
  · exact hfirst copyValid_zeroFlash
  · rw [differs, second_zeroFlash] at hsame
    cases hsame
  · exact hcheck check_boot_zeroFlash

end WmIot.FtParam
