import WmIot.FtParam.Block

/-!
# Loading the factory parameters

A reset loads the first copy when it is valid, and else the second one. A block written is read
back and compared, and when they match the copy in flash is that block.
-/

namespace WmIot.FtParam
open NorFlash
set_option autoImplicit false

/-- After a reset: memory is zero, and `wm_ft_param_init` loads a copy. -/
def boot (P : Port) (f : Flash) : State := wmFtParamInit P ⟨f, fun _ => 0⟩

/-- At least one copy is valid. -/
def Accepted (P : Port) (f : Flash) : Prop := CopyValid P f P.addr0 ∨ CopyValid P f P.addr1

/-- The copy that `wm_ft_param_init` loads. -/
def loadedAddr (P : Port) (f : Flash) : Nat :=
  if (ftParamInit P true f P.addr0 blankImage).1 = .failed then P.addr1 else P.addr0

section Boot
variable {P : Port} {f : Flash}

theorem Accepted.loaded (h : Accepted P f) : CopyValid P f (loadedAddr P f) := by
  unfold loadedAddr
  by_cases hfirst : (ftParamInit P true f P.addr0 blankImage).1 = .failed
  · rw [if_pos hfirst]
    exact h.resolve_left fun hvalid => copyValid_iff.mp hvalid hfirst
  · rw [if_neg hfirst]
    exact copyValid_iff.mpr hfirst

/-- The part of the copy that `wm_ft_param_init` takes over. -/
def loadedBytes (P : Port) (f : Flash) : List Byte :=
  let found := ftParamInit P true f (loadedAddr P f) blankImage
  if found.1 = .current then readBytes found.2 0 verSize else readBytes found.2 0 paramSize

theorem resetInternalData_eq {st : State} (h : Accepted P st.flash) :
    resetInternalData P st = ⟨st.flash, patch st.ram 0 (loadedBytes P st.flash)⟩ := by
  have hfound : (if (ftParamInit P true st.flash P.addr0 blankImage).1 = .failed then
      ftParamInit P true st.flash P.addr1 blankImage else ftParamInit P true st.flash P.addr0 blankImage) =
      ftParamInit P true st.flash (loadedAddr P st.flash) blankImage := by
    unfold loadedAddr
    split <;> rfl
  have hvalid := copyValid_iff.mp h.loaded
  unfold resetInternalData loadedBytes
  simp only [hfound]
  cases hversion : (ftParamInit P true st.flash (loadedAddr P st.flash) blankImage).1 with
  | failed => exact absurd hversion hvalid
  | current => rw [if_pos rfl]
  | legacy => rw [if_neg (by decide)]

theorem boot_eq (h : Accepted P f) : boot P f = ⟨f, patch (fill (fun _ => 0) 0 verSize) 0 (loadedBytes P f)⟩ := by
  have hzero : get32 (fun _ => 0) magicNoAt ≠ signatureWord := by decide
  unfold boot wmFtParamInit
  rw [if_neg hzero]
  exact resetInternalData_eq h

theorem loadedBytes_eq (h : Accepted P f) :
    ∃ p, AgreeOn p (copyAt f (loadedAddr P f)) 0 verSize ∧ P.check p ≠ .failed ∧
      loadedBytes P f =
        if P.check p = .current then readBytes p 0 verSize else readBytes (legacyFields p) 0 paramSize := by
  obtain ⟨hsize, hcheck⟩ := h.loaded
  obtain ⟨p, hp, hrun⟩ := ftParamInit_read (f := f) hsize
  rw [← check_congr hp] at hcheck
  refine ⟨p, hp, hcheck, ?_⟩
  unfold loadedBytes
  simp only [hrun]
  cases hversion : P.check p with
  | failed => exact absurd hversion hcheck
  | current => rw [if_pos rfl, if_neg (by decide), if_pos rfl]
  | legacy => rw [if_neg (by decide), if_pos rfl, if_neg (by decide)]

theorem check_magic {p : Image} (h : P.check p ≠ .failed) : get32 p magicNoAt = signatureWord := by
  by_contra hne
  unfold Port.check at h
  rw [if_neg hne] at h
  exact h rfl

theorem legacyFields_agreeOn (p : Image) (lo hi : Nat) (h : hi ≤ 14 ∨ 16 ≤ lo ∧ hi ≤ 22 ∨ 24 ≤ lo) :
    AgreeOn (legacyFields p) p lo hi := by
  unfold legacyFields
  refine (patch_agreeOn lo hi ?_).trans (patch_agreeOn lo hi ?_)
  · rw [le16_length, extParamLenAt]
    omega
  · rw [le16_length, versionNoAt]
    omega

/-- A later `wm_ft_param_init` finds a block. -/
theorem boot_magic (h : Accepted P f) : get32 (boot P f).ram magicNoAt = signatureWord := by
  obtain ⟨p, -, hcheck, hbytes⟩ := loadedBytes_eq h
  rw [boot_eq h, hbytes]
  dsimp only
  split
  · have hsame := patch_readBytes_start (fill (fun _ => 0) 0 verSize) p verSize
    rw [get32_congr magicNoAt hsame (by decide) (by decide)]
    exact check_magic hcheck
  · have hsame := patch_readBytes_start (fill (fun _ => 0) 0 verSize) (legacyFields p) paramSize
    rw [get32_congr magicNoAt hsame (by decide) (by decide),
      get32_congr magicNoAt (legacyFields_agreeOn p 0 8 (by omega)) (by decide) (by decide)]
    exact check_magic hcheck

/-- When the block read back equals a block of the current layout, the copy in flash is that block. -/
theorem copy_of_match {refused : Bool} {addr : Nat} {ram : Image} (hram : P.check ram = .current)
    (h : mismatch (ftParamInit P refused f addr blankImage) ram = false) :
    CopyValid P f addr ∧ readBytes f addr verSize = readBytes ram 0 verSize := by
  have hbytes : readBytes (ftParamInit P refused f addr blankImage).2 0 verSize = readBytes ram 0 verSize := by
    simpa [mismatch] using h
  have hsame := agreeOn_of_readBytes hbytes
  have hmagic : get32 ram magicNoAt = signatureWord := check_magic (by rw [hram]; decide)
  by_cases hread : P.size < addr + verSize ∨ refused = false
  · rw [ftParamInit_refused hread] at hsame
    have hblank := get32_congr magicNoAt hsame (by decide) (by decide)
    rw [hmagic] at hblank
    exact absurd hblank (by decide)
  · push Not at hread
    obtain ⟨hsize, hmem⟩ := hread
    obtain rfl : refused = true := by simpa using hmem
    have hsize : addr + verSize ≤ P.size := by omega
    obtain ⟨p, hp, hrun⟩ := ftParamInit_read (f := f) hsize
    rw [hrun] at hsame
    have hcurrent : P.check p ≠ .legacy := by
      intro hlegacy
      rw [if_pos hlegacy] at hsame
      have hversion := get16_congr versionNoAt hsame (by decide) (by decide)
      have hvalid : ftExtValid ram = true := by
        by_contra hinvalid
        unfold Port.check at hram
        rw [if_pos hmagic, if_neg hinvalid] at hram
        split at hram <;> cases hram
      have hbound := (ftExtValid_len hvalid).2.1
      have hfield : get16 (legacyFields p) versionNoAt = 0xFFFF := by
        unfold legacyFields
        rw [get16_congr _ (patch_agreeOn 14 16 (by rw [le16_length, extParamLenAt]; omega)) (by decide) (by decide),
          get16_patch (by decide)]
      rw [hfield] at hversion
      omega
    rw [if_neg hcurrent] at hsame
    have hcopy : AgreeOn (copyAt f addr) ram 0 verSize := hp.symm.trans hsame
    refine ⟨⟨hsize, ?_⟩, ?_⟩
    · rw [check_congr hcopy, hram]
      decide
    · have hread : readBytes f addr verSize = readBytes (copyAt f addr) 0 verSize := by
        simp only [readBytes, copyAt, Nat.zero_add]
      rw [hread, hcopy.readBytes (Nat.le_refl 0) (Nat.le_refl _)]

end Boot

/-! ## One call -/

/-- A call stops before the writes of the new block, or makes them. -/
theorem wmFtParamSet_cases (P : Port) (mem : Allocations) (st : State) {opnum : FtCmd} {data : List Byte}
    (hlen : data.length = opnum.len) :
    (∃ ram, wmFtParamSet P mem st opnum data = ⟨false, ram, []⟩) ∨
      (∃ ram, wmFtParamSet P mem st opnum data = ⟨false, ram, (syncSecond P mem st).2⟩) ∨
      opnum ≠ .all ∧ mem.buffer = true ∧ wmFtParamSet P mem st opnum data =
        ⟨(writeCopies P mem (replay st.flash (syncSecond P mem st).2) (newImage P st.ram opnum data)).1,
          newImage P st.ram opnum data, (syncSecond P mem st).2 ++
            (writeCopies P mem (replay st.flash (syncSecond P mem st).2) (newImage P st.ram opnum data)).2⟩ := by
  unfold wmFtParamSet
  split
  · exact Or.inl ⟨_, rfl⟩
  · rename_i hstop
    push Not at hstop
    dsimp only
    split
    · have hall : opnum ≠ .all := by
        rintro rfl
        exact hstop.1 hlen
      rw [storeParam_eq hall hlen]
      exact Or.inr (Or.inr ⟨hall, by simpa using hstop.2, rfl⟩)
    · exact Or.inr (Or.inl ⟨_, rfl⟩)

/-- Writes that succeed leave the block in the first copy. -/
theorem writeCopies_success {P : Port} {mem : Allocations} {f : Flash} {ram : Image} (hram : P.check ram = .current)
    (hsucc : (writeCopies P mem f ram).1 = true) :
    CopyValid P (replay f (writeCopies P mem f ram).2) P.addr0 ∧
      readBytes (replay f (writeCopies P mem f ram).2) P.addr0 verSize = readBytes ram 0 verSize := by
  unfold writeCopies at hsucc ⊢
  dsimp only at hsucc ⊢
  split at hsucc
  · cases hsucc
  · rename_i hmatch
    rw [if_neg hmatch]
    dsimp only at hsucc ⊢
    rw [replay_append]
    exact copy_of_match hram (by simpa using hsucc)

/-! ## Calls that succeed -/

theorem aligned1 (P : Port) : Flash.sectorSize ∣ P.addr1 := Nat.dvd_add P.aligned (Nat.dvd_refl _)

theorem legacyFields_congr {p q : Image} {n : Nat} (h : AgreeOn p q 0 n) :
    AgreeOn (legacyFields p) (legacyFields q) 0 n := by
  intro a hlo hhi
  have hsame := h a hlo hhi
  unfold legacyFields patch
  split
  · rfl
  · split
    · rfl
    · exact hsame

/-- A block written to a copy is read back as it is checked. -/
theorem ftParamInit_written {P : Port} {f : Flash} {addr : Nat} (ram : Image) (hdvd : Flash.sectorSize ∣ addr)
    (hroom : addr + verSize ≤ P.size) :
    ∃ p, AgreeOn p ram 0 verSize ∧
      ftParamInit P true
        (replay f (Flash.wrWithErasePrivate P.size true f addr (readBytes ram 0 verSize))) addr blankImage =
        (P.check p, if P.check p = .legacy then legacyFields p else p) := by
  have hlen : (readBytes ram 0 verSize).length = verSize := readBytes_length _ _ _
  have hwritten : readBytes (replay f (Flash.wrWithErasePrivate P.size true f addr (readBytes ram 0 verSize))) addr
      (readBytes ram 0 verSize).length = readBytes ram 0 verSize :=
    Flash.readBytes_wrWithErasePrivate (by rw [hlen]; exact hroom) hdvd (by rw [hlen]; decide) (by rw [hlen]; decide)
  rw [hlen] at hwritten
  generalize replay f (Flash.wrWithErasePrivate P.size true f addr (readBytes ram 0 verSize)) = g at hwritten ⊢
  obtain ⟨p, hp, hrun⟩ := ftParamInit_read (f := g) hroom
  refine ⟨p, hp.trans ?_, hrun⟩
  apply agreeOn_of_readBytes
  rw [← hwritten]
  simp only [readBytes, copyAt, Nat.zero_add]

theorem writeCopies_granted {P : Port} {mem : Allocations} {f : Flash} {ram : Image} (hram : P.check ram = .current)
    (hroom : P.addr1 + verSize ≤ P.size) (hmem : mem.write1 = true ∧ mem.readBack1 = true ∧ mem.write0 = true ∧
      mem.readBack0 = true) : (writeCopies P mem f ram).1 = true := by
  obtain ⟨hwrite1, hread1, hwrite0, hread0⟩ := hmem
  have hmatch : ∀ (addr : Nat) (g : Flash), Flash.sectorSize ∣ addr → addr + verSize ≤ P.size →
      mismatch (ftParamInit P true
        (replay g (Flash.wrWithErasePrivate P.size true g addr (readBytes ram 0 verSize))) addr blankImage) ram = false := by
    intro addr g hdvd hroom
    obtain ⟨p, hp, hrun⟩ := ftParamInit_written (P := P) (f := g) ram hdvd hroom
    have hcurrent : P.check p = .current := (check_congr hp).trans hram
    rw [hrun, hcurrent, if_neg (by decide)]
    simpa [mismatch] using hp.readBytes (Nat.le_refl 0) (Nat.le_of_eq (Nat.zero_add verSize))
  unfold writeCopies
  rw [hwrite1, hread1, hwrite0, hread0]
  dsimp only
  rw [hmatch P.addr1 f (aligned1 P) hroom, if_neg (by decide),
    hmatch P.addr0 _ P.aligned (by unfold Port.addr1 at hroom; omega)]
  rfl

theorem syncSecond_granted {P : Port} {mem : Allocations} {st : State} (hcheck : P.check st.ram ≠ .failed)
    (hlegacy : P.check st.ram = .legacy → AgreeOn (legacyFields st.ram) st.ram 0 verSize)
    (hroom : P.addr1 + verSize ≤ P.size) (hmem : mem.sync = true ∧ mem.readSync = true) :
    (syncSecond P mem st).1 = true := by
  unfold syncSecond
  split
  · rfl
  · split
    · dsimp only
      rw [hmem.1, hmem.2]
      obtain ⟨p, hp, hrun⟩ := ftParamInit_written (P := P) (f := st.flash) st.ram (aligned1 P) hroom
      have hsame : P.check p = P.check st.ram := check_congr hp
      rw [hrun, hsame]
      have hbytes : readBytes (if P.check st.ram = .legacy then legacyFields p else p) 0 verSize =
          readBytes st.ram 0 verSize := by
        split
        · rename_i hold
          exact ((legacyFields_congr hp).trans (hlegacy hold)).readBytes (Nat.le_refl 0)
            (Nat.le_of_eq (Nat.zero_add verSize))
        · exact hp.readBytes (Nat.le_refl 0) (Nat.le_of_eq (Nat.zero_add verSize))
      simp [differs, hbytes, hcheck]
    · rfl

theorem set_granted {P : Port} {mem : Allocations} {st : State} {opnum : FtCmd} {data : List Byte}
    (hall : opnum ≠ .all) (hlen : data.length = opnum.len) (hbuffer : mem.buffer = true)
    (hsync : (syncSecond P mem st).1 = true) (hroom : P.addr1 + verSize ≤ P.size)
    (hmem : mem.write1 = true ∧ mem.readBack1 = true ∧ mem.write0 = true ∧ mem.readBack0 = true) :
    (wmFtParamSet P mem st opnum data).success = true := by
  have hpos := (FtCmd.place hall).2.1
  unfold wmFtParamSet
  rw [if_neg (by rw [hbuffer]; simp only [Bool.true_eq_false, or_false]; omega)]
  simp only [hsync, if_true, storeParam_eq hall hlen]
  exact writeCopies_granted (check_newImage hall hlen) hroom hmem

end WmIot.FtParam
