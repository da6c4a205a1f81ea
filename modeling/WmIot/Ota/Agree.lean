import WmIot.Ota.Bin2img

/-!
# Image tool and receiver

The receiver takes a file in chunks exactly where it accepts the header in front of it; the rest is
the size and the CRC that the header gives. The header the tool packs is accepted unless its version
is not ASCII, which moves what comes after it, or the type of the image is out of its four bits.
-/

namespace WmIot.Ota
open LittleEndian
set_option autoImplicit false

/-- The calls of `wm_ota_ops_write`, which all have to succeed; the flash works. -/
def feed : Ctx → List (List Byte) → Option Ctx
  | c, [] => some c
  | c, d :: ds =>
    match opsWrite ⟨true, true⟩ c d with
    | (c, .success) => feed c ds
    | _ => none

structure Chunking (file : List Byte) (chunks : List (List Byte)) : Prop where
  flatten : chunks.flatten = file
  nonempty : ∀ d ∈ chunks, d ≠ []
  first : ∀ d ∈ chunks.head?, headerSize ≤ d.length

/-- Before the first write, with the OTA partition inside of the address space. -/
structure Ready (c : Ctx) : Prop where
  start : c.wroteAddr = c.appOtaAddr
  pos : 0 < c.appOtaAddr
  placed : c.appOtaAddr + c.appOtaSize < 2 ^ 32

/-- Every write and the end succeed, and the size read up to is that of the file. -/
def Receives (c : Ctx) (chunks : List (List Byte)) (file : List Byte) : Prop :=
  ∃ c', feed c chunks = some c' ∧ opsEnd c' = .success ∧ imgTotalSize c' = file.length

section Receiver
variable {c : Ctx}

/-- What is checked before the data is looked at. -/
theorem opsWrite_eq {d : List Byte} (hpos : 0 < c.appOtaAddr) (hplaced : c.appOtaAddr + c.appOtaSize < 2 ^ 32)
    (hstart : c.appOtaAddr ≤ c.wroteAddr) (hne : d ≠ [])
    (hfit : c.wroteAddr + d.length ≤ c.appOtaAddr + c.appOtaSize) :
    opsWrite ⟨true, true⟩ c d =
      if (checkData c d).2 = .success then
        ({ (checkData c d).1 with wroteAddr := add32 (checkData c d).1.wroteAddr d.length }, .success)
      else checkData c d := by
  have hlen : d.length ≠ 0 := fun h => hne (List.length_eq_zero_iff.mp h)
  have hroom : ¬ (c.wroteAddr < c.appOtaAddr ∨
      sub32 (add32 c.appOtaAddr c.appOtaSize) c.wroteAddr < d.length) := by
    unfold sub32 add32
    omega
  unfold opsWrite
  dsimp only
  rw [if_neg (by omega), if_neg hroom, if_neg (by rintro ⟨_, h⟩; cases h)]
  rfl

/-- A write behind the header. -/
theorem opsWrite_next {d : List Byte} (hpos : 0 < c.appOtaAddr) (hplaced : c.appOtaAddr + c.appOtaSize < 2 ^ 32)
    (hstart : c.appOtaAddr < c.wroteAddr) (hne : d ≠ [])
    (hfit : c.wroteAddr + d.length ≤ c.appOtaAddr + c.appOtaSize) :
    opsWrite ⟨true, true⟩ c d =
      ({ c with crcCtx := Crc32.update c.crcCtx d, wroteAddr := c.wroteAddr + d.length }, .success) := by
  have hcheck : checkData c d = ({ c with crcCtx := Crc32.update c.crcCtx d }, .success) := by
    unfold checkData
    rw [if_neg (by omega)]
  have hadd : add32 c.wroteAddr d.length = c.wroteAddr + d.length := by
    unfold add32
    omega
  rw [opsWrite_eq hpos hplaced (Nat.le_of_lt hstart) hne hfit, hcheck, if_pos rfl]
  dsimp only
  rw [hadd]

theorem feed_next (chunks : List (List Byte)) : ∀ {c : Ctx}, 0 < c.appOtaAddr →
    c.appOtaAddr + c.appOtaSize < 2 ^ 32 → c.appOtaAddr < c.wroteAddr → (∀ d ∈ chunks, d ≠ []) →
    c.wroteAddr + chunks.flatten.length ≤ c.appOtaAddr + c.appOtaSize →
    feed c chunks = some { c with
      crcCtx := Crc32.update c.crcCtx chunks.flatten
      wroteAddr := c.wroteAddr + chunks.flatten.length } := by
  induction chunks with
  | nil => exact fun _ _ _ _ _ => rfl
  | cons d ds ih =>
    intro c hpos hplaced hstart hne hfit
    rw [List.flatten_cons, List.length_append] at hfit
    have hwrite := opsWrite_next hpos hplaced hstart (hne d List.mem_cons_self) (by omega)
    rw [feed, hwrite]
    dsimp only
    rw [ih (c := { c with crcCtx := Crc32.update c.crcCtx d, wroteAddr := c.wroteAddr + d.length })
      hpos hplaced (by dsimp only; omega) (fun d' hd' => hne d' (List.mem_cons_of_mem _ hd'))
      (by dsimp only; omega)]
    rw [List.flatten_cons, Crc32.update_append, List.length_append, Nat.add_assoc]

/-- The first write stands or falls with the header. -/
theorem opsWrite_first {d : List Byte} (h : Ready c) (hhead : headerSize ≤ d.length)
    (hfit : d.length ≤ c.appOtaSize) :
    opsWrite ⟨true, true⟩ c d =
      if headerError c (d.take headerSize) = .success then
        ({ c with
          otaHeader := d.take headerSize
          crcCtx := Crc32.update 0xFFFFFFFF#32 (d.drop headerSize)
          wroteAddr := c.appOtaAddr + d.length }, .success)
      else ({ c with otaHeader := d.take headerSize }, headerError c (d.take headerSize)) := by
  have hstart := h.start
  have hplaced := h.placed
  have hne : d ≠ [] := by
    rintro rfl
    exact absurd hhead (by decide)
  have hadd : add32 c.wroteAddr d.length = c.appOtaAddr + d.length := by
    unfold add32
    omega
  have hcheck : checkData c d =
      if headerError c (d.take headerSize) = .success then
        ({ c with
          otaHeader := d.take headerSize
          crcCtx := Crc32.update 0xFFFFFFFF#32 (d.drop headerSize) }, .success)
      else ({ c with otaHeader := d.take headerSize }, headerError c (d.take headerSize)) := by
    unfold checkData checkHeader
    rw [if_pos hstart.symm, if_neg (by omega)]
  rw [opsWrite_eq h.pos hplaced (Nat.le_of_eq hstart.symm) hne (by omega), hcheck]
  by_cases herror : headerError c (d.take headerSize) = .success
  · rw [if_pos herror, if_pos herror, if_pos rfl]
    dsimp only
    rw [hadd]
  · rw [if_neg herror, if_neg herror, if_neg herror]

/-- A file is taken, in any chunks, exactly where its header is accepted. -/
theorem feed_eq {file : List Byte} {chunks : List (List Byte)} (h : Ready c)
    (hchunks : Chunking file chunks) (hhead : headerSize ≤ file.length) (hfit : file.length ≤ c.appOtaSize) :
    feed c chunks =
      if headerError c (file.take headerSize) = .success then
        some { c with
          otaHeader := file.take headerSize
          crcCtx := Crc32.update 0xFFFFFFFF#32 (file.drop headerSize)
          wroteAddr := c.appOtaAddr + file.length }
      else none := by
  obtain ⟨rfl, hnonempty, hfirst⟩ := hchunks
  cases chunks with
  | nil => exact absurd hhead (by decide)
  | cons d ds =>
    have hd : headerSize ≤ d.length := hfirst d rfl
    have hpos := h.pos
    rw [List.flatten_cons, List.length_append] at hfit
    have htake : (d ++ ds.flatten).take headerSize = d.take headerSize :=
      List.take_append_of_le_length hd
    have hdrop : (d ++ ds.flatten).drop headerSize = d.drop headerSize ++ ds.flatten :=
      List.drop_append_of_le_length hd
    rw [List.flatten_cons, htake, hdrop, feed, opsWrite_first h hd (by omega)]
    by_cases herror : headerError c (d.take headerSize) = .success
    · rw [if_pos herror, if_pos herror]
      dsimp only
      have hsize : 0 < headerSize := by decide
      rw [feed_next ds (by exact hpos) (by exact h.placed) (by dsimp only; omega)
        (fun d' hd' => hnonempty d' (List.mem_cons_of_mem _ hd')) (by dsimp only; omega)]
      rw [Crc32.update_append, List.length_append, Nat.add_assoc]
    · rw [if_neg herror, if_neg herror]
      split
      next heq => exact absurd (congrArg Prod.snd heq) herror
      next => rfl

/-- What the receiver asks of a file. -/
theorem receives_iff {file : List Byte} {chunks : List (List Byte)} (h : Ready c)
    (hchunks : Chunking file chunks) (hhead : headerSize ≤ file.length) (hfit : file.length ≤ c.appOtaSize) :
    Receives c chunks file ↔
      headerError c (file.take headerSize) = .success ∧
      Header.orgChecksum (file.take headerSize) =
        (Crc32.update 0xFFFFFFFF#32 (file.drop headerSize)).toNat ∧
      add32 (Header.imgLen (file.take headerSize)) headerSize = file.length := by
  have hsize : 0 < headerSize := by decide
  unfold Receives
  rw [feed_eq h hchunks hhead hfit]
  by_cases herror : headerError c (file.take headerSize) = .success
  · rw [if_pos herror]
    simp only [Option.some.injEq, exists_eq_left', herror, true_and]
    unfold opsEnd imgTotalSize
    dsimp only
    rw [if_neg (by omega)]
    by_cases hcrc : Header.orgChecksum (file.take headerSize) =
        (Crc32.update 0xFFFFFFFF#32 (file.drop headerSize)).toNat
    · rw [if_neg (not_not.mpr hcrc)]
      simp only [hcrc, true_and]
    · rw [if_pos hcrc]
      simp only [hcrc, false_and, reduceCtorEq]
  · rw [if_neg herror]
    simp only [herror, false_and, reduceCtorEq, exists_false]

end Receiver

section Tool

/-- The numbers of a packed header; the type and the compression share a word. -/
structure Fields where
  imgType : Nat
  compressType : Nat
  imgAddr : Nat
  imgLen : Nat
  imgHeaderAddr : Nat
  upgradeImgAddr : Nat
  orgChecksum : Nat
  updNo : Nat
  flags : Nat
  next : Nat

def Fields.words (w : Fields) : List Nat :=
  [magicNo, w.imgType + 256 ^ 2 * w.compressType, w.imgAddr, w.imgLen, w.imgHeaderAddr, w.upgradeImgAddr,
    w.orgChecksum, w.updNo]

/-- The header up to the version. -/
def Fields.front (w : Fields) : List Byte := w.words.flatMap (pack 4)

/-- The header behind the version. -/
def Fields.back (w : Fields) : List Byte := [w.flags, 0, w.next].flatMap (pack 4)

/-- The numbers come from the options and the image, and fit. -/
structure Fields.Of (w : Fields) (a : Args) (binLen : Nat) (binCrc : BitVec 32) : Prop where
  imgType : a.imageType = w.imgType
  compressType : a.compressType = w.compressType
  imgAddr : a.runAddress = w.imgAddr
  imgLen : w.imgLen = binLen
  imgHeaderAddr : a.imageHeader = w.imgHeaderAddr
  upgradeImgAddr : a.updateAddress = w.upgradeImgAddr
  orgChecksum : w.orgChecksum = binCrc.toNat
  typeFit : w.imgType < 256 ^ 2
  fit : ∀ v ∈ w.words, v < 256 ^ 4

/-- A header that could be packed. -/
theorem packHeader_some {a : Args} {binLen : Nat} {binCrc : BitVec 32} {bytes : List Byte}
    (h : packHeader a binLen binCrc = some bytes) :
    ∃ w : Fields, w.Of a binLen binCrc ∧
      bytes = w.front ++ (encode (newVersion a.versionString) ++ w.back) := by
  unfold packHeader at h
  simp only [Option.bind_eq_bind, Option.bind_eq_some_iff, Option.pure_def, Option.some.injEq] at h
  obtain ⟨_, h₁, _, h₂, _, h₃, _, h₄, _, h₅, _, h₆, _, h₇, _, h₈, _, h₉, rfl⟩ := h
  obtain ⟨k₁, hk₁, hlt₁, rfl⟩ := structPack_some h₁
  obtain ⟨k₂, hk₂, hlt₂, rfl⟩ := structPack_some h₂
  obtain ⟨k₃, hk₃, hlt₃, rfl⟩ := structPack_some h₃
  obtain ⟨k₄, hk₄, hlt₄, rfl⟩ := structPack_some h₄
  obtain ⟨k₅, hk₅, hlt₅, rfl⟩ := structPack_some h₅
  obtain ⟨k₆, hk₆, hlt₆, rfl⟩ := structPack_some h₆
  obtain ⟨k₇, hk₇, hlt₇, rfl⟩ := structPack_some h₇
  obtain ⟨k₈, hk₈, hlt₈, rfl⟩ := structPack_some h₈
  obtain ⟨k₉, hk₉, hlt₉, rfl⟩ := structPack_some h₉
  have hcrc : binCrc.toNat < 256 ^ 4 := binCrc.isLt
  refine ⟨⟨k₁, k₂, k₃, k₄, k₅, k₆, binCrc.toNat, k₇, k₈, k₉⟩, ?_, ?_⟩
  · refine ⟨hk₁, hk₂, hk₃, (Int.ofNat.inj hk₄).symm, hk₅, hk₆, rfl, hlt₁, ?_⟩
    simp only [Fields.words, List.forall_mem_cons, List.not_mem_nil, false_implies, implies_true, and_true]
    refine ⟨by decide, ?_, hlt₃, hlt₄, hlt₅, hlt₆, hcrc, hlt₇⟩
    omega
  · have hword := pack_append 2 2 k₂ k₁ hlt₁
    simp only [Fields.front, Fields.back, Fields.words, List.flatMap_cons, List.flatMap_nil, List.append_nil,
      ← hword, List.append_assoc]

variable {a : Args} {binLen : Nat} {binCrc : BitVec 32} {w : Fields} {rest : List Byte}

@[simp] theorem front_length (w : Fields) : w.front.length = 32 := words_length 4 w.words

@[simp] theorem back_length (w : Fields) : w.back.length = 12 := words_length 4 _

theorem front_word (hw : w.Of a binLen binCrc) (i : Nat) (hi : i < w.words.length) :
    wordAt 4 (w.front ++ rest) (4 * i) = w.words[i] :=
  wordAt_words w.words hw.fit i hi

/-- The words of the front, as the receiver reads them. -/
theorem take_word (hw : w.Of a binLen binCrc) (i : Nat) (hi : i < w.words.length) :
    wordAt 4 ((w.front ++ rest).take headerSize) (4 * i) = w.words[i] := by
  have hlen : i < 8 := hi
  rw [wordAt_take _ (by unfold headerSize; omega)]
  exact front_word hw i hi

/-- The options of the agreement: addresses of the two partitions, no compression or xz. -/
structure InDomain (c : Ctx) (a : Args) : Prop where
  compressType : a.compressType = 0 ∨ a.compressType = 2 ^ 4
  imageType : a.imageType ≠ 0 ∧ a.imageType ≠ 14
  runAddress : a.runAddress = flashBaseAddr + c.appAddr + appRunAddressOffset ∨
    a.runAddress = flashBaseAddr + c.appOtaAddr + appRunAddressOffset
  imageHeader : a.imageHeader = flashBaseAddr + c.appAddr ∨ a.imageHeader = flashBaseAddr + c.appOtaAddr
  updateAddress : a.updateAddress = 0 ∨ a.updateAddress = flashBaseAddr + c.appOtaAddr

/-- The type of the image is one of the receiver's in its four bits. -/
def TypeKept (a : Args) : Prop := a.imageType % 16 ≠ 0 ∧ a.imageType % 16 ≠ 14

/-- The characters kept of the version are ASCII. -/
def VersionAscii (a : Args) : Prop := ∀ ch ∈ a.versionString.take 15, ch.val ≤ 127

/-- What is left of the checks for a header of the tool: the type and the CRC. -/
theorem headerError_front {c : Ctx} (hdomain : InDomain c a) (hw : w.Of a binLen binCrc)
    (hplaced : c.appOtaAddr + c.appOtaSize < 2 ^ 32) (hfit : binLen + headerSize ≤ c.appOtaSize) :
    headerError c ((w.front ++ rest).take headerSize) = .success ↔
      TypeKept a ∧ Header.hdChecksum ((w.front ++ rest).take headerSize) =
        (Crc32.update 0xFFFFFFFF#32 (((w.front ++ rest).take headerSize).take 60)).toNat := by
  obtain ⟨h, hh⟩ : ∃ h : Header, (w.front ++ rest).take headerSize = h := ⟨_, rfl⟩
  rw [hh]
  have hword : ∀ i (hi : i < 8), wordAt 4 h (4 * i) = w.words.get ⟨i, hi⟩ := by
    intro i hi
    rw [← hh]
    exact take_word hw i hi
  have hmagic : Header.magicNo h = magicNo := hword 0 (by decide)
  have hattr : Header.imgAttr h = w.imgType + 256 ^ 2 * w.compressType := hword 1 (by decide)
  have haddr : Header.imgAddr h = w.imgAddr := hword 2 (by decide)
  have hlen : Header.imgLen h = binLen := (hword 3 (by decide)).trans hw.imgLen
  have hhead : Header.imgHeaderAddr h = w.imgHeaderAddr := hword 4 (by decide)
  have hupgrade : Header.upgradeImgAddr h = w.upgradeImgAddr := hword 5 (by decide)
  have htypeFit := hw.typeFit
  have hcompress : w.compressType = 0 ∨ w.compressType = 2 ^ 4 := by
    have h₁ := hw.compressType
    have h₂ := hdomain.compressType
    omega
  have htype : Header.imgType h = w.imgType % 16 := by
    unfold Header.imgType
    rw [hattr]
    omega
  have hgzip : Header.gzipEnable h = 0 := by
    unfold Header.gzipEnable
    rw [hattr]
    omega
  have hxz : ¬ 2 ≤ Header.compressType h := by
    unfold Header.compressType
    rw [hattr]
    omega
  have hrun : ¬ (h.imgAddr ≠ add32 (inFlash c.appOtaAddr) appRunAddressOffset ∧
      h.imgAddr ≠ add32 (inFlash c.appAddr) appRunAddressOffset) := by
    have hlt := hw.fit w.imgAddr (by simp [Fields.words])
    have h₁ := hw.imgAddr
    have h₂ := hdomain.runAddress
    unfold flashBaseAddr appRunAddressOffset at h₂
    unfold add32 inFlash add32 flashBaseAddr appRunAddressOffset
    omega
  have hroom : ¬ sub32 c.appOtaSize headerSize < h.imgLen := by
    unfold sub32
    unfold headerSize at hfit ⊢
    omega
  have hhome : ¬ (h.imgHeaderAddr ≠ inFlash c.appOtaAddr ∧ h.imgHeaderAddr ≠ inFlash c.appAddr) := by
    have hlt := hw.fit w.imgHeaderAddr (by simp [Fields.words])
    have h₁ := hw.imgHeaderAddr
    have h₂ := hdomain.imageHeader
    unfold flashBaseAddr at h₂
    unfold inFlash add32 flashBaseAddr
    omega
  have hupdate : ¬ (h.upgradeImgAddr ≠ 0 ∧ h.upgradeImgAddr ≠ inFlash c.appOtaAddr) := by
    have hlt := hw.fit w.upgradeImgAddr (by simp [Fields.words])
    have h₁ := hw.upgradeImgAddr
    have h₂ := hdomain.updateAddress
    unfold flashBaseAddr at h₂
    unfold inFlash add32 flashBaseAddr
    omega
  have hkept : TypeKept a ↔ ¬ (h.imgType = 0 ∨ h.imgType = 0x0E) := by
    have h₁ := hw.imgType
    unfold TypeKept
    omega
  unfold headerError
  rw [if_neg (not_not.mpr hmagic), hkept]
  by_cases hbad : h.imgType = 0 ∨ h.imgType = 0x0E
  · rw [if_pos hbad]
    simp only [reduceCtorEq, hbad, not_true_eq_false, false_and]
  · rw [if_neg hbad, if_neg (not_not.mpr hgzip), if_neg hxz, if_neg hrun, if_neg hroom, if_neg hhome,
      if_neg hupdate]
    by_cases hcrc : h.hdChecksum = (Crc32.update 0xFFFFFFFF#32 (h.take 60)).toNat
    · rw [if_neg (not_not.mpr hcrc)]
      simp only [hbad, not_false_eq_true, hcrc, and_self]
    · rw [if_pos hcrc]
      simp only [reduceCtorEq, hcrc, and_false]

theorem opsBegin_ready {c₀ c : Ctx} {tail : Bool} {io : FlashIo} {imageSize : Nat}
    (hplaced : c₀.appOtaAddr + c₀.appOtaSize < 2 ^ 32)
    (hbegin : opsBegin tail io c₀ imageSize = (c, .success)) : Ready c := by
  unfold opsBegin at hbegin
  split at hbegin
  next => cases hbegin
  next hpos =>
    have hready : ∀ needErase, Ready { c₀ with wroteAddr := c₀.appOtaAddr, needErase := needErase } :=
      fun _ => ⟨rfl, Nat.pos_of_ne_zero hpos, hplaced⟩
    dsimp only at hbegin
    repeat' split at hbegin
    all_goals cases hbegin
    all_goals exact hready _

end Tool

section Example

/-- A device with the partitions of the default addresses, after the beginning. -/
def begun : Ctx := ⟨0xD0000, 0x10000, 0xC0000, false, 0x10000, [], 0⟩

theorem begun_begin :
    opsBegin true ⟨true, true⟩ { begun with needErase := true, wroteAddr := 0 } otaSizeUnknown =
      (begun, .success) := rfl

def plain : Args := { imageType := 1 }

/-- The type does not fit into the four bits of the header. -/
def wideType : Args := { imageType := 16 }

def accented : Args := { imageType := 1, versionString := ['é'] }

def image : List Byte := [0xC0#8, 0xFF#8, 0xEE#8]

theorem inDomain_defaults {a : Args} (hcompress : a.compressType = 0) (htype : a.imageType ≠ 0 ∧ a.imageType ≠ 14)
    (hrun : a.runAddress = 0x80D0400) (hheader : a.imageHeader = 0x80D0000)
    (hupdate : a.updateAddress = 0x8010000) : InDomain begun a :=
  ⟨Or.inl hcompress, htype, Or.inl hrun, Or.inl hheader, Or.inr hupdate⟩

theorem chunking_single {file : List Byte} (h : headerSize ≤ file.length) : Chunking file [file] := by
  refine ⟨List.flatten_singleton, ?_, ?_⟩
  · rintro d hd rfl
    have heq : [] = file := List.mem_singleton.mp hd
    rw [← heq] at h
    exact absurd h (by decide)
  · intro d hd
    cases hd
    exact h

/-- The tool's file for options of the agreement is refused. -/
def Refused (a : Args) : Prop :=
  InDomain begun a ∧ ∃ file, bin2img id id a image = some file ∧ file.length ≤ begun.appOtaSize ∧
    Chunking file [file] ∧ ¬ Receives begun [file] file

theorem refused_of_run {a : Args} (hdomain : InDomain begun a) {n : Nat} (hlen : headerSize ≤ n ∧ n ≤ begun.appOtaSize)
    (hrun : (bin2img id id a image).map (fun file => (file.length, (feed begun [file]).isSome)) =
      some (n, false)) : Refused a := by
  obtain ⟨file, hfile, heq⟩ := Option.map_eq_some_iff.mp hrun
  obtain ⟨rfl, hfeed⟩ := Prod.mk.inj heq
  refine ⟨hdomain, file, hfile, hlen.2, chunking_single hlen.1, ?_⟩
  rintro ⟨c, hc, _⟩
  rw [hc] at hfeed
  cases hfeed

end Example

end WmIot.Ota
