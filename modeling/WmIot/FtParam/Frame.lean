import WmIot.FtParam.PowerCut

/-!
# Setting one parameter

A successful call leaves its block in memory and in both copies. Behind a block of the current
layout every other parameter is as before. The conversion of the old layout fills the extension,
and the two words the old layout keeps behind the block are lost.
-/

namespace WmIot.FtParam
open NorFlash
set_option autoImplicit false

/-- The parameters of the extension. -/
def FtCmd.extension : FtCmd → Bool
  | .freqErr | .rfCalFlag | .txAdcCal => true
  | _ => false

section Places
variable {t u : FtCmd}

theorem FtCmd.apart (htu : t ≠ u) (ht : t ≠ .all) (hu : u ≠ .all) :
    u.at + u.len ≤ t.at ∨ t.at + t.len ≤ u.at := by
  revert htu ht hu
  cases t <;> cases u <;> decide

theorem FtCmd.place_extension (h : u.extension = true) : 136 ≤ u.at ∧ u.at + u.len ≤ 188 := by
  revert h
  cases u <;> decide

theorem FtCmd.place_base (h : u.extension = false) (hall : u ≠ .all) :
    8 ≤ u.at ∧ u.at + u.len ≤ 14 ∨ 16 ≤ u.at ∧ u.at + u.len ≤ 22 ∨ 24 ≤ u.at ∧ u.at + u.len ≤ 132 := by
  revert h hall
  cases u <;> decide

end Places

section Blocks
variable {P : Port} {ram p : Image} {t u : FtCmd} {data : List Byte}

/-- The new block has the other parameters of the block in memory, with its extension. -/
theorem newImage_other (htu : t ≠ u) (ht : t ≠ .all) (hu : u ≠ .all) (hlen : data.length = t.len) :
    readBytes (newImage P ram t data) u.at u.len = readBytes (upgrade ram) u.at u.len := by
  have hplace := (FtCmd.place hu).2.2
  have hapart := FtCmd.apart htu ht hu
  have hseal : AgreeOn (newImage P ram t data) (patch (upgrade ram) t.at data) u.at (u.at + u.len) :=
    sealed_agreeOn _ _ (by omega)
  have hstore : AgreeOn (patch (upgrade ram) t.at data) (upgrade ram) u.at (u.at + u.len) :=
    patch_agreeOn _ _ (by omega)
  exact (hseal.trans hstore).readBytes (Nat.le_refl _) (Nat.le_refl _)

theorem upgrade_base (h : u.extension = false) (hall : u ≠ .all) :
    readBytes (upgrade ram) u.at u.len = readBytes ram u.at u.len := by
  have hplace := FtCmd.place_base h hall
  unfold upgrade
  split
  · rfl
  · have hfill : AgreeOn (fill (patch (patch ram versionNoAt (le16 1)) extParamLenAt (le16 extSize)) ext1At extSize)
        (patch (patch ram versionNoAt (le16 1)) extParamLenAt (le16 extSize)) u.at (u.at + u.len) :=
      fill_agreeOn _ _ (by unfold ext1At; omega)
    have hextLen : AgreeOn (patch (patch ram versionNoAt (le16 1)) extParamLenAt (le16 extSize))
        (patch ram versionNoAt (le16 1)) u.at (u.at + u.len) :=
      patch_agreeOn _ _ (by rw [le16_length, extParamLenAt]; omega)
    have hversion : AgreeOn (patch ram versionNoAt (le16 1)) ram u.at (u.at + u.len) :=
      patch_agreeOn _ _ (by rw [le16_length, versionNoAt]; omega)
    exact (hfill.trans (hextLen.trans hversion)).readBytes (Nat.le_refl _) (Nat.le_refl _)

theorem upgrade_extension (h : u.extension = true) (hinvalid : ftExtValid ram = false) :
    readBytes (upgrade ram) u.at u.len = List.replicate u.len 0xFF#8 := by
  have hplace := FtCmd.place_extension h
  unfold upgrade
  rw [if_neg (by rw [hinvalid]; decide)]
  refine List.eq_replicate_iff.mpr ⟨readBytes_length _ _ _, fun b hb => ?_⟩
  obtain ⟨k, hk, rfl⟩ := List.mem_map.mp hb
  have hk' := List.mem_range.mp hk
  unfold fill
  rw [if_pos (by unfold ext1At extSize; omega)]

/-- Behind a valid extension every parameter is read from memory. -/
theorem readParam_current {st : State} (h : ftExtValid st.ram = true) (hall : u ≠ .all) :
    readParam P st u u.len = some (readBytes st.ram u.at u.len) := by
  cases u with
  | all => exact absurd rfl hall
  | freqErr => simp only [readParam, h, if_true, FtCmd.len]
  | rfCalFlag => simp only [readParam, h, if_true, FtCmd.len]
  | txAdcCal => simp only [readParam, h, if_true]
  | txGain => rfl
  | _ => rfl

/-- The parameters of the base block always are. -/
theorem readParam_base {st : State} (h : u.extension = false) (hall : u ≠ .all) :
    readParam P st u u.len = some (readBytes st.ram u.at u.len) := by
  cases u with
  | all => exact absurd rfl hall
  | freqErr => cases h
  | rfCalFlag => cases h
  | txAdcCal => cases h
  | txGain => rfl
  | _ => rfl

theorem readParam_all (P : Port) (st : State) : readParam P st .all FtCmd.all.len = none := rfl

/-- In the old layout the words behind the first copy stand for two parameters of the extension. -/
theorem readParam_legacy {st : State} (h : u.extension = true) (hinvalid : ftExtValid st.ram = false) :
    readParam P st u u.len =
      if u = .txAdcCal then none else Flash.read P.size true st.flash (P.addr0 + (u.at - 4)) u.len := by
  cases u with
  | freqErr => simp only [readParam, hinvalid]; rfl
  | rfCalFlag => simp only [readParam, hinvalid]; rfl
  | txAdcCal => simp only [readParam, hinvalid]; rfl
  | _ => cases h

theorem readParam_congr {st st' : State} (hram : AgreeOn st'.ram st.ram 0 verSize) (hflash : st'.flash = st.flash) :
    readParam P st' u u.len = readParam P st u u.len := by
  have hext := ftExtValid_congr (hram.mono (Nat.zero_le 14) (by decide))
  by_cases hall : u = .all
  · subst hall
    rfl
  · have hplace := (FtCmd.place hall).1
    have hbytes : readBytes st'.ram u.at u.len = readBytes st.ram u.at u.len := hram.readBytes (Nat.zero_le _) hplace
    cases hvalid : ftExtValid st.ram with
    | true => rw [readParam_current (hext.trans hvalid) hall, readParam_current hvalid hall, hbytes]
    | false =>
      cases hu : u.extension with
      | true => rw [readParam_legacy hu (hext.trans hvalid), readParam_legacy hu hvalid, hflash]
      | false => rw [readParam_base hu hall, readParam_base hu hall, hbytes]

end Blocks

/-! ## The states before and after -/

section States
variable {P : Port} {f : Flash} {mem : Allocations} {st : State} {t u : FtCmd} {data : List Byte}

/-- Loading the copies again changes nothing. -/
theorem get_boot (h : Accepted P f) (resetWhenGet : Bool) :
    wmFtParamGet P resetWhenGet (boot P f) u u.len = readParam P (boot P f) u u.len := by
  cases resetWhenGet with
  | false => rfl
  | true =>
    have hflash : (boot P f).flash = f := by rw [boot_eq h]
    have hreload : resetInternalData P (boot P f) =
        ⟨(boot P f).flash, patch (boot P f).ram 0 (loadedBytes P (boot P f).flash)⟩ :=
      resetInternalData_eq (by rw [hflash]; exact h)
    simp only [wmFtParamGet, if_true]
    refine readParam_congr ?_ (by rw [hreload])
    rw [hreload, hflash, boot_eq h]
    intro a _ _
    unfold patch
    dsimp only
    split <;> rfl

theorem ftExtValid_boot (h : Accepted P f) :
    ftExtValid (boot P f).ram = true ↔ P.check (copyAt f (loadedAddr P f)) = .current := by
  obtain ⟨p, hp, hcheck, hbytes⟩ := loadedBytes_eq h
  rw [boot_eq h, hbytes, ← check_congr hp]
  dsimp only
  by_cases hcurrent : P.check p = .current
  · rw [if_pos hcurrent]
    have hsame := patch_readBytes_start (fill (fun _ => 0) 0 verSize) p verSize
    rw [ftExtValid_congr (hsame.mono (Nat.zero_le 14) (by decide))]
    refine ⟨fun _ => hcurrent, fun _ => ?_⟩
    by_contra hinvalid
    have hmagic := check_magic hcheck
    unfold Port.check at hcurrent
    rw [if_pos hmagic, if_neg hinvalid] at hcurrent
    split at hcurrent <;> cases hcurrent
  · rw [if_neg hcurrent]
    have hsame := patch_readBytes_start (fill (fun _ => 0) 0 verSize) (legacyFields p) paramSize
    rw [ftExtValid_congr (hsame.mono (Nat.zero_le 14) (by decide))]
    refine ⟨fun hvalid => ?_, fun habs => absurd habs hcurrent⟩
    have hbound := (ftExtValid_len hvalid).2.1
    have hfield : get16 (legacyFields p) versionNoAt = 0xFFFF := by
      unfold legacyFields
      rw [get16_congr _ (patch_agreeOn 14 16 (by rw [le16_length, extParamLenAt]; omega)) (by decide) (by decide),
        get16_patch (by decide)]
    rw [hfield] at hbound
    exact absurd hbound (by decide)

/-- What a successful call leaves: the new block in memory and in the first copy. -/
theorem set_success (hlen : data.length = t.len) (hsucc : (wmFtParamSet P mem st t data).success = true) :
    t ≠ .all ∧ (wmFtParamSet P mem st t data).ram = newImage P st.ram t data ∧
      CopyValid P (replay st.flash (wmFtParamSet P mem st t data).ops) P.addr0 ∧
      readBytes (replay st.flash (wmFtParamSet P mem st t data).ops) P.addr0 verSize =
        readBytes (newImage P st.ram t data) 0 verSize := by
  rcases wmFtParamSet_cases P mem st hlen with ⟨ram, hout⟩ | ⟨ram, hout⟩ | ⟨hall, -, hout⟩
  · rw [hout] at hsucc
    cases hsucc
  · rw [hout] at hsucc
    cases hsucc
  · rw [hout] at hsucc ⊢
    dsimp only at hsucc ⊢
    rw [replay_append]
    exact ⟨hall, rfl, writeCopies_success (check_newImage hall hlen) hsucc⟩

/-- With the new block in the first copy, memory and flash give the same parameters. -/
theorem get_after {g : Flash} {ram new : Image} (hcheck : P.check new = .current) (hram : AgreeOn ram new 0 verSize)
    (hvalid : CopyValid P g P.addr0) (hcopy : readBytes g P.addr0 verSize = readBytes new 0 verSize)
    (resetWhenGet : Bool) (hall : u ≠ .all) :
    wmFtParamGet P resetWhenGet ⟨g, ram⟩ u u.len = some (readBytes new u.at u.len) ∧
      wmFtParamGet P resetWhenGet (boot P g) u u.len = some (readBytes new u.at u.len) := by
  have hacc : Accepted P g := Or.inl hvalid
  have hplace := (FtCmd.place hall).1
  have haddr : loadedAddr P g = P.addr0 := by
    rw [loadedAddr, if_neg (copyValid_iff.mp hvalid)]
  have hflashCopy : AgreeOn (copyAt g P.addr0) new 0 verSize := by
    apply agreeOn_of_readBytes
    rw [← hcopy]
    simp only [readBytes, copyAt, Nat.zero_add]
  have hvalidNew : ftExtValid new = true := by
    have hmagic : get32 new magicNoAt = signatureWord := check_magic (by rw [hcheck]; decide)
    by_contra hinvalid
    unfold Port.check at hcheck
    rw [if_pos hmagic, if_neg hinvalid] at hcheck
    split at hcheck <;> cases hcheck
  -- whatever is loaded from this flash is the new block
  have hloaded : ∀ r : Image, AgreeOn (patch r 0 (loadedBytes P g)) new 0 verSize := by
    intro r
    obtain ⟨p, hp, -, hbytes⟩ := loadedBytes_eq hacc
    rw [haddr] at hp
    have hpnew : AgreeOn p new 0 verSize := hp.trans hflashCopy
    have hcurrent : P.check p = .current := (check_congr hpnew).trans hcheck
    rw [hbytes, if_pos hcurrent]
    have hsame := patch_readBytes_start r p verSize
    exact hsame.trans hpnew
  have hread : ∀ r : Image, AgreeOn r new 0 verSize → readParam P ⟨g, r⟩ u u.len = some (readBytes new u.at u.len) := by
    intro r hr
    have hext : ftExtValid r = true := (ftExtValid_congr (hr.mono (Nat.zero_le 14) (by decide))).trans hvalidNew
    rw [readParam_current hext hall, hr.readBytes (Nat.zero_le _) hplace]
  constructor
  · cases resetWhenGet with
    | false => exact hread ram hram
    | true =>
      have hreload : resetInternalData P ⟨g, ram⟩ = ⟨g, patch ram 0 (loadedBytes P g)⟩ := resetInternalData_eq hacc
      have hget := hread (patch ram 0 (loadedBytes P g)) (hloaded ram)
      rw [← hreload] at hget
      exact hget
  · rw [get_boot hacc, boot_eq hacc]
    exact hread (patch (fill (fun _ => 0) 0 verSize) 0 (loadedBytes P g)) (hloaded _)

end States

/-- A successful call keeps another parameter, in memory and after a reset, exactly when the block
loaded was of the current layout, or the parameter is of the base block, or it is one of the two
words of the old layout and that word is blank. -/
theorem set_keeps_other_iff (P : Port) (f : Flash) (hacc : Accepted P f) (mem : Allocations) (resetWhenGet : Bool)
    (t u : FtCmd) (htu : t ≠ u) (data : List Byte) (hlen : data.length = t.len)
    (hsucc : (wmFtParamSet P mem (boot P f) t data).success = true) :
    (wmFtParamGet P resetWhenGet ⟨replay f (wmFtParamSet P mem (boot P f) t data).ops,
        (wmFtParamSet P mem (boot P f) t data).ram⟩ u u.len =
        wmFtParamGet P resetWhenGet (boot P f) u u.len ∧
      wmFtParamGet P resetWhenGet (boot P (replay f (wmFtParamSet P mem (boot P f) t data).ops)) u u.len =
        wmFtParamGet P resetWhenGet (boot P f) u u.len) ↔
    P.check (copyAt f (loadedAddr P f)) = .current ∨ u.extension = false ∨
      u ≠ .txAdcCal ∧ Flash.read P.size true f (P.addr0 + (u.at - 4)) u.len = some (List.replicate u.len 0xFF#8) := by
  have hflash : (boot P f).flash = f := by rw [boot_eq hacc]
  obtain ⟨ht, hram, hvalid, hcopy⟩ := set_success hlen hsucc
  rw [hflash] at hvalid hcopy
  rw [get_boot hacc]
  by_cases hall : u = .all
  · subst hall
    have hnone : ∀ st, wmFtParamGet P resetWhenGet st .all FtCmd.all.len = none := fun st => readParam_all P _
    rw [hnone, hnone, readParam_all]
    exact ⟨fun _ => Or.inr (Or.inl rfl), fun _ => ⟨rfl, rfl⟩⟩
  · have hnew : AgreeOn (wmFtParamSet P mem (boot P f) t data).ram (newImage P (boot P f).ram t data) 0 verSize := by
      rw [hram]
      exact AgreeOn.refl _ _ _
    have hafter := get_after (u := u) (check_newImage ht hlen) hnew hvalid hcopy resetWhenGet hall
    rw [hafter.1, hafter.2, newImage_other htu ht hall hlen, and_self]
    cases hext : ftExtValid (boot P f).ram with
    | true =>
      have hsame : upgrade (boot P f).ram = (boot P f).ram := by rw [upgrade, if_pos hext]
      rw [readParam_current hext hall, hsame]
      exact ⟨fun _ => Or.inl ((ftExtValid_boot hacc).mp hext), fun _ => rfl⟩
    | false =>
      have hlegacy : P.check (copyAt f (loadedAddr P f)) ≠ .current := by
        intro hcurrent
        rw [(ftExtValid_boot hacc).mpr hcurrent] at hext
        cases hext
      cases hu : u.extension with
      | false =>
        rw [readParam_base hu hall, upgrade_base hu hall]
        exact ⟨fun _ => Or.inr (Or.inl rfl), fun _ => rfl⟩
      | true =>
        rw [upgrade_extension hu hext, readParam_legacy hu hext, hflash]
        constructor
        · intro hget
          refine Or.inr (Or.inr ?_)
          by_cases hadc : u = .txAdcCal
          · rw [if_pos hadc] at hget
            cases hget
          · rw [if_neg hadc] at hget
            exact ⟨hadc, hget.symm⟩
        · rintro (hcurrent | hbase | ⟨hadc, hword⟩)
          · exact absurd hcurrent hlegacy
          · cases hbase
          · rw [if_neg hadc, hword]

theorem set_succeeds_second : (wmFtParamSet chip granted (boot chip secondOnly) .btMac [1, 2, 3, 4, 5, 6]).success = true := by
  have hflash : (boot chip secondOnly).flash = secondOnly := by rw [boot_eq (Or.inr copyValid_secondOnly)]
  refine set_granted (by decide) rfl rfl ?_ (by decide) ⟨rfl, rfl, rfl, rfl⟩
  rw [syncSecond_of_invalid (by rw [hflash]; exact not_copyValid_secondOnly)]

theorem set_keeps_other_iff_second :
    (wmFtParamGet chip false ⟨replay secondOnly (wmFtParamSet chip granted (boot chip secondOnly) .btMac [1, 2, 3, 4, 5, 6]).ops,
        (wmFtParamSet chip granted (boot chip secondOnly) .btMac [1, 2, 3, 4, 5, 6]).ram⟩ .wifiMac FtCmd.wifiMac.len =
        wmFtParamGet chip false (boot chip secondOnly) .wifiMac FtCmd.wifiMac.len ∧
      wmFtParamGet chip false
        (boot chip (replay secondOnly (wmFtParamSet chip granted (boot chip secondOnly) .btMac [1, 2, 3, 4, 5, 6]).ops))
        .wifiMac FtCmd.wifiMac.len = wmFtParamGet chip false (boot chip secondOnly) .wifiMac FtCmd.wifiMac.len) ↔
    chip.check (copyAt secondOnly (loadedAddr chip secondOnly)) = .current ∨ FtCmd.wifiMac.extension = false ∨
      FtCmd.wifiMac ≠ .txAdcCal ∧ Flash.read chip.size true secondOnly (chip.addr0 + (FtCmd.wifiMac.at - 4))
        FtCmd.wifiMac.len = some (List.replicate FtCmd.wifiMac.len 0xFF#8) :=
  set_keeps_other_iff chip secondOnly (Or.inr copyValid_secondOnly) granted false .btMac .wifiMac (by decide)
    [1, 2, 3, 4, 5, 6] rfl set_succeeds_second

/-- A block of the old layout, without a version. -/
def legacyBase : Image :=
  patch (patch blankImage magicNoAt (le32 signatureWord)) checksumAt
    (le32 (chip.crc32 (patch blankImage magicNoAt (le32 signatureWord)) 8 (paramSize - 8)))

/-- The first copy is of the old layout, with the frequency error behind it; the second is erased. -/
def legacyFlash : Flash := fun a => if a < 0x1000 then patch legacyBase paramSize [0xE8, 0x03, 0, 0] a else 0xFF#8

theorem legacyBase_blank (lo hi : Nat) (h : 8 ≤ lo) : AgreeOn legacyBase blankImage lo hi := by
  unfold legacyBase
  refine (patch_agreeOn lo hi (Or.inr ?_)).trans (patch_agreeOn lo hi (Or.inr ?_))
  · rw [le32_length, checksumAt]
    omega
  · rw [le32_length, magicNoAt]
    omega

theorem ftExtValid_legacyBase : ftExtValid legacyBase = false := by
  rw [ftExtValid_congr (legacyBase_blank 14 24 (by decide))]
  decide

theorem check_legacy {P : Port} {p : Image} (hmagic : get32 p magicNoAt = signatureWord)
    (hsum : get32 p checksumAt = P.crc32 p 8 (paramSize - 8)) (hext : ftExtValid p = false) : P.check p = .legacy := by
  unfold Port.check
  rw [if_pos hmagic, if_neg (fun hne => hne hsum), if_neg (by rw [hext]; decide)]

/-- Whatever lies behind the base block, it passes the check as one of the old layout. -/
theorem check_legacyBase {p : Image} (h : AgreeOn p legacyBase 0 paramSize) : chip.check p = .legacy := by
  have hmagic : get32 legacyBase magicNoAt = signatureWord := by
    unfold legacyBase
    rw [get32_congr _ (patch_agreeOn 0 checksumAt (Or.inl (Nat.le_refl _))) (Nat.zero_le _) (by decide)]
    exact get32_patch (by decide)
  have hsum : get32 legacyBase checksumAt = chip.crc32 legacyBase 8 (paramSize - 8) := by
    have hrange : AgreeOn legacyBase (patch blankImage magicNoAt (le32 signatureWord)) 8 132 :=
      patch_agreeOn 8 132 (Or.inr (Nat.le_refl 8))
    rw [crc32_congr 8 (paramSize - 8) hrange (Nat.le_refl 8) (by decide)]
    exact get32_patch (crc32_lt chip _ _ _)
  apply check_legacy
  · rw [get32_congr magicNoAt h (by decide) (by decide), hmagic]
  · rw [get32_congr checksumAt h (by decide) (by decide), crc32_congr 8 (paramSize - 8) h (by decide) (by decide), hsum]
  · rw [ftExtValid_congr (h.mono (Nat.zero_le 14) (by decide)), ftExtValid_legacyBase]

theorem legacyFields_legacyBase : legacyFields legacyBase = legacyBase := by
  have hblank : ∀ off, 8 ≤ off → ∀ k, k < (le16 0xFFFF).length → (le16 0xFFFF).getD k 0 = legacyBase (off + k) := by
    intro off hoff k hk
    rw [legacyBase_blank 8 (off + k + 1) (Nat.le_refl 8) (off + k) (by omega) (by omega)]
    have hcases : k = 0 ∨ k = 1 := by
      rw [le16_length] at hk
      omega
    rcases hcases with rfl | rfl <;> rfl
  unfold legacyFields
  rw [patch_same (hblank versionNoAt (by decide)), patch_same (hblank extParamLenAt (by decide))]

theorem copyAt_legacyFlash : AgreeOn (copyAt legacyFlash chip.addr0) legacyBase 0 paramSize := by
  intro a _ ha
  have haddr : chip.addr0 + a = a := Nat.zero_add a
  unfold copyAt legacyFlash
  rw [haddr, if_pos (Nat.lt_trans ha (by decide)), patch_out (Or.inl ha)]

theorem copyValid_legacyFlash : CopyValid chip legacyFlash chip.addr0 := by
  refine ⟨by decide, ?_⟩
  rw [check_legacyBase copyAt_legacyFlash]
  decide

/-- The block in memory: what the copy has of it, with nothing behind. -/
theorem boot_legacyFlash : AgreeOn (boot chip legacyFlash).ram legacyBase 0 verSize := by
  have hacc : Accepted chip legacyFlash := Or.inl copyValid_legacyFlash
  have haddr : loadedAddr chip legacyFlash = chip.addr0 := by
    rw [loadedAddr, if_neg (copyValid_iff.mp copyValid_legacyFlash)]
  obtain ⟨p, hp, -, hbytes⟩ := loadedBytes_eq hacc
  rw [haddr] at hp
  have hbase : AgreeOn p legacyBase 0 paramSize := (hp.mono (Nat.le_refl 0) (by decide)).trans copyAt_legacyFlash
  rw [boot_eq hacc, hbytes, check_legacyBase hbase, if_neg (by decide)]
  intro a _ ha
  dsimp only
  by_cases hlow : a < paramSize
  · have hread := patch_readBytes_start (fill (fun _ => 0) 0 verSize) (legacyFields p) paramSize a (Nat.zero_le a) hlow
    have hsame := legacyFields_congr hbase a (Nat.zero_le a) hlow
    rw [legacyFields_legacyBase] at hsame
    rw [hread, hsame]
  · have hout : (readBytes (legacyFields p) 0 paramSize).length = paramSize := readBytes_length _ _ _
    rw [patch_out (Or.inr (by rw [hout]; omega)), legacyBase_blank 8 verSize (Nat.le_refl 8) a
      (by unfold paramSize at hlow; omega) ha]
    unfold fill
    rw [if_pos (by omega)]
    rfl

/-- Setting another parameter of an image of the old layout loses the frequency error. -/
theorem legacy_frequency_lost :
    Accepted chip legacyFlash ∧
      (wmFtParamSet chip granted (boot chip legacyFlash) .btMac [1, 2, 3, 4, 5, 6]).success = true ∧
      wmFtParamGet chip false (boot chip legacyFlash) .freqErr 4 = some [0xE8, 0x03, 0, 0] ∧
      wmFtParamGet chip false
        ⟨replay legacyFlash (wmFtParamSet chip granted (boot chip legacyFlash) .btMac [1, 2, 3, 4, 5, 6]).ops,
          (wmFtParamSet chip granted (boot chip legacyFlash) .btMac [1, 2, 3, 4, 5, 6]).ram⟩ .freqErr 4 =
        some [0xFF, 0xFF, 0xFF, 0xFF] := by
  have hacc : Accepted chip legacyFlash := Or.inl copyValid_legacyFlash
  have hflash : (boot chip legacyFlash).flash = legacyFlash := by rw [boot_eq hacc]
  have hram := boot_legacyFlash
  have hcheck : chip.check (boot chip legacyFlash).ram = .legacy := check_legacyBase (hram.mono (Nat.le_refl 0) (by decide))
  have hfields : AgreeOn (legacyFields (boot chip legacyFlash).ram) (boot chip legacyFlash).ram 0 verSize := by
    have hsame := legacyFields_congr hram
    rw [legacyFields_legacyBase] at hsame
    exact hsame.trans hram.symm
  have hext : ftExtValid (boot chip legacyFlash).ram = false :=
    (ftExtValid_congr (hram.mono (Nat.zero_le 14) (by decide))).trans ftExtValid_legacyBase
  have hsucc : (wmFtParamSet chip granted (boot chip legacyFlash) .btMac [1, 2, 3, 4, 5, 6]).success = true :=
    set_granted (by decide) rfl rfl
      (syncSecond_granted (by rw [hcheck]; decide) (fun _ => hfields) (by decide) ⟨rfl, rfl⟩) (by decide)
      ⟨rfl, rfl, rfl, rfl⟩
  refine ⟨hacc, hsucc, ?_, ?_⟩
  · refine (get_boot hacc false).trans ?_
    rw [readParam_legacy rfl hext, if_neg (by decide), hflash]
    decide
  · have hlen : ([1, 2, 3, 4, 5, 6] : List Byte).length = FtCmd.btMac.len := rfl
    obtain ⟨ht, hnew, hvalid, hcopy⟩ := set_success hlen hsucc
    rw [hflash] at hvalid hcopy
    have hsame : AgreeOn (wmFtParamSet chip granted (boot chip legacyFlash) .btMac [1, 2, 3, 4, 5, 6]).ram
        (newImage chip (boot chip legacyFlash).ram .btMac [1, 2, 3, 4, 5, 6]) 0 verSize := by
      rw [hnew]
      exact AgreeOn.refl _ _ _
    refine (get_after (u := .freqErr) (check_newImage ht hlen) hsame hvalid hcopy false (by decide)).1.trans ?_
    rw [newImage_other (by decide) ht (by decide) rfl, upgrade_extension rfl hext]
    rfl

end WmIot.FtParam
