import WmIot.Nvs.Mount

/-!
# Sector headers

The 32 bytes in front of the slices of a sector hold its serial number. They are written once, to
erased cells; a change of state touches the one byte the checksum leaves out, and what is written
to the slices of a sector stays behind its header.
-/

namespace WmIot.Nvs
open NorFlash
set_option autoImplicit false

/-- The headers at `addr` are the same, their state bytes aside. -/
def SameHeader (f g : Flash) (addr : Nat) : Prop :=
  ∀ a, addr ≤ a → a < addr + 32 → a ≠ addr + 2 → f a = g a

/-- `wm_nvs_sector_load` takes the serial number of the header, whatever the state byte is. -/
def HeaderIntact (P : Port) (f : Flash) (addr : Nat) : Prop :=
  let header := readHeader f addr
  header.magic = sectorMagic ∧
    header.crc32 = sectorCrc32 P header.serialNumber header.version header.reserve2 ∧
    header.version = P.verNum

instance (P : Port) (f : Flash) (addr : Nat) : Decidable (HeaderIntact P f addr) :=
  inferInstanceAs (Decidable (_ ∧ _))

/-- No header is written yet. -/
def HeaderUnwritten (f : Flash) (addr : Nat) : Prop := SameHeader f (fun _ => blank) addr

/-- The serial number in the header. -/
def headerSerial (f : Flash) (addr : Nat) : Nat := (readHeader f addr).serialNumber.toNat

section Header
variable {P : Port} {f g k : Flash} {addr : Nat}

theorem SameHeader.of_agree (h : AgreeOn f g addr (addr + 32)) : SameHeader f g addr :=
  fun a hlo hhi _ => h a hlo hhi

theorem SameHeader.trans (h : SameHeader f g addr) (h' : SameHeader g k addr) : SameHeader f k addr :=
  fun a hlo hhi hne => (h a hlo hhi hne).trans (h' a hlo hhi hne)

theorem SameHeader.readHeader (h : SameHeader f g addr) :
    Nvs.readHeader f addr = { Nvs.readHeader g addr with state := f (addr + 2) } := by
  have hb : ∀ k < 32, k ≠ 2 → f (addr + k) = g (addr + k) := by
    intro k hk hne
    exact h _ (by omega) (by omega) (by omega)
  have hr : readBytes f (addr + 13) 19 = readBytes g (addr + 13) 19 := by
    apply List.map_congr_left
    intro j hj
    have hj' := List.mem_range.mp hj
    exact h _ (by omega) (by omega) (by omega)
  unfold Nvs.readHeader
  rw [hr, hb 1 (by decide) (by decide), hb 4 (by decide) (by decide), hb 5 (by decide) (by decide),
    hb 6 (by decide) (by decide), hb 7 (by decide) (by decide), hb 8 (by decide) (by decide),
    hb 9 (by decide) (by decide), hb 10 (by decide) (by decide), hb 11 (by decide) (by decide),
    hb 12 (by decide) (by decide), h addr (by omega) (by omega) (by omega)]

theorem SameHeader.intact (h : SameHeader f g addr) : HeaderIntact P f addr ↔ HeaderIntact P g addr := by
  unfold HeaderIntact
  rw [h.readHeader]

theorem SameHeader.serial (h : SameHeader f g addr) : headerSerial f addr = headerSerial g addr := by
  unfold headerSerial
  rw [h.readHeader]

theorem HeaderUnwritten.not_intact (h : HeaderUnwritten f addr) : ¬ HeaderIntact P f addr := by
  rintro ⟨hmagic, _⟩
  have h₀ : f addr = blank := h addr (by omega) (by omega) (by omega)
  have h₁ : f (addr + 1) = blank := h (addr + 1) (by omega) (by omega) (by omega)
  simp only [readHeader, h₀, h₁] at hmagic
  exact absurd hmagic (by decide)

theorem intact_of_not_refused (h : ¬ HeaderRefused P f addr) : HeaderIntact P f addr := by
  unfold HeaderRefused at h
  simp only [not_or, not_not] at h
  exact ⟨h.2.1, h.2.2.1, h.2.2.2.1⟩

/-- The header `wm_nvs_sector_init` puts on erased cells. -/
theorem headerBytes_intact (sn : BitVec 32) (h : BlankOn f addr (addr + 32)) :
    HeaderIntact P (program f addr (headerBytes P sn)) addr ∧
      headerSerial (program f addr (headerBytes P sn)) addr = sn.toNat := by
  have hlen : (headerBytes P sn).length = 32 := headerBytes_length P sn
  have hblank : BlankOn f addr (addr + (headerBytes P sn).length) := by
    rw [hlen]
    exact h
  have hb : ∀ k < 32, program f addr (headerBytes P sn) (addr + k) = (headerBytes P sn).getD k blank :=
    fun k hk => program_on_blank hblank (by omega)
  have hread : readBytes (program f addr (headerBytes P sn)) (addr + 13) 19 = List.replicate 19 blank := by
    have hall := readBytes_slice (program f addr (headerBytes P sn)) addr (show 13 + 19 ≤ 32 by decide)
    have hwhole := readBytes_program hblank
    rw [hlen] at hwhole
    rw [← hall, hwhole]
    simp [headerBytes, le32]
  have hheader : Nvs.readHeader (program f addr (headerBytes P sn)) addr =
      ⟨sectorMagic, sectorUsing, sectorCrc32 P sn P.verNum (List.replicate 19 blank), sn, P.verNum,
        List.replicate 19 blank⟩ := by
    have h₀ := hb 0 (by decide)
    rw [Nat.add_zero] at h₀
    unfold Nvs.readHeader
    rw [hread, h₀, hb 1 (by decide), hb 2 (by decide), hb 4 (by decide), hb 5 (by decide),
      hb 6 (by decide), hb 7 (by decide), hb 8 (by decide), hb 9 (by decide), hb 10 (by decide),
      hb 11 (by decide), hb 12 (by decide)]
    congr 1
    · show sectorMagic.extractLsb' 8 8 ++ sectorMagic.extractLsb' 0 8 = sectorMagic
      decide
    · exact ofLe32_le32 _
    · exact ofLe32_le32 _
  unfold HeaderIntact headerSerial
  rw [hheader]
  exact ⟨⟨rfl, rfl, rfl⟩, rfl⟩

end Header

/-- The sector has no header yet or an intact one. -/
def HeaderWhole (P : Port) (f : Flash) (s : Nat) : Prop :=
  HeaderUnwritten f (s * sectionSize) ∨ HeaderIntact P f (s * sectionSize)

/-- The serial number a load sorts the sector by; a sector without a header is going to get the one
in RAM. -/
def Store.shownSerial (P : Port) (st : Store) (s : Nat) : Nat :=
  if HeaderIntact P st.flash (s * sectionSize) then headerSerial st.flash (s * sectionSize)
  else (st.secArr s).serialNumber

/-- All lookups of the hash table lead into the sector. -/
def Sector.HashInside (sec : Sector) : Prop := ∀ n ∈ sec.hash, n.id < entryCount

section Congr
variable {P : Port} {f g : Flash} {st st' : Store} {s : Nat}

theorem HeaderWhole.congr (h : HeaderWhole P g s) (hfg : SameHeader f g (s * sectionSize)) :
    HeaderWhole P f s := by
  rcases h with h | h
  · exact Or.inl (hfg.trans h)
  · exact Or.inr (hfg.intact.mpr h)

theorem shownSerial_congr (hf : SameHeader st'.flash st.flash (s * sectionSize))
    (hs : (st'.secArr s).serialNumber = (st.secArr s).serialNumber) :
    st'.shownSerial P s = st.shownSerial P s := by
  unfold Store.shownSerial
  simp only [hf.intact, hf.serial, hs]

theorem shownSerial_unwritten (h : HeaderUnwritten st.flash (s * sectionSize)) :
    st.shownSerial P s = (st.secArr s).serialNumber := if_neg h.not_intact

end Congr

/-! ## Steps that leave the serial numbers alone -/

/-- No sector changes its list or its serial number, in RAM or in its header. -/
structure Keeps (P : Port) (st st' : Store) : Prop where
  secNum : st'.secNum = st.secNum
  active : st'.active = st.active
  idle : st'.idle = st.idle
  counter : st'.serialNumber = st.serialNumber
  address : ∀ t, (st'.secArr t).address = (st.secArr t).address
  serial : ∀ t, (st'.secArr t).serialNumber = (st.secArr t).serialNumber
  hash : ∀ t, (st.secArr t).HashInside → (st'.secArr t).HashInside
  asleep : ∀ t ∈ st.idle, (st'.secArr t).state = (st.secArr t).state
  fresh : ∀ t < st.secNum, (st'.secArr t).state = sectorUninit → (st.secArr t).state = sectorUninit ∧
    AgreeOn st'.flash st.flash (t * sectionSize) (t * sectionSize + 32)
  shown : ∀ t < st.secNum, st'.shownSerial P t = st.shownSerial P t
  whole : ∀ t < st.secNum, HeaderWhole P st.flash t → HeaderWhole P st'.flash t

section Keeps
variable {P : Port} {st st₁ st₂ : Store} {s : Nat}

theorem Keeps.refl (P : Port) (st : Store) : Keeps P st st :=
  ⟨rfl, rfl, rfl, rfl, fun _ => rfl, fun _ => rfl, fun _ h => h, fun _ _ => rfl,
    fun _ _ h => ⟨h, AgreeOn.refl _ _ _⟩, fun _ _ => rfl, fun _ _ h => h⟩

theorem Keeps.trans (h : Keeps P st st₁) (h' : Keeps P st₁ st₂) : Keeps P st st₂ where
  secNum := h'.secNum.trans h.secNum
  active := h'.active.trans h.active
  idle := h'.idle.trans h.idle
  counter := h'.counter.trans h.counter
  address := fun t => (h'.address t).trans (h.address t)
  serial := fun t => (h'.serial t).trans (h.serial t)
  hash := fun t ht => h'.hash t (h.hash t ht)
  asleep := fun t ht => (h'.asleep t (by rwa [h.idle])).trans (h.asleep t ht)
  fresh := by
    intro t ht hs
    obtain ⟨hs₁, hf₁⟩ := h'.fresh t (by rwa [h.secNum]) hs
    obtain ⟨hs₀, hf₀⟩ := h.fresh t ht hs₁
    exact ⟨hs₀, hf₁.trans hf₀⟩
  shown := fun t ht => (h'.shown t (by rwa [h.secNum])).trans (h.shown t ht)
  whole := fun t ht hw => h'.whole t (by rwa [h.secNum]) (h.whole t ht hw)

/-- A change of the RAM record only. A sector may stop being without a header, but only while it is
active. -/
theorem setSec_keeps {sec : Sector} (haddr : sec.address = (st.secArr s).address)
    (hserial : sec.serialNumber = (st.secArr s).serialNumber)
    (hhash : (st.secArr s).HashInside → sec.HashInside)
    (hstate : sec.state = (st.secArr s).state ∨ (s ∉ st.idle ∧ sec.state ≠ sectorUninit)) :
    Keeps P st (st.setSec s sec) := by
  have hall : ∀ t, (st.setSec s sec).secArr t = st.secArr t ∨
      t = s ∧ (st.setSec s sec).secArr t = sec := by
    intro t
    rcases eq_or_ne t s with rfl | hne
    · exact Or.inr ⟨rfl, setSec_self ..⟩
    · exact Or.inl (setSec_other _ _ _ hne)
  have hnumber : ∀ t, ((st.setSec s sec).secArr t).serialNumber = (st.secArr t).serialNumber := by
    intro t
    rcases hall t with h | ⟨rfl, h⟩ <;> rw [h]
    exact hserial
  refine ⟨rfl, rfl, rfl, rfl, ?_, hnumber, ?_, ?_, ?_, ?_, fun _ _ h => h⟩
  · intro t
    rcases hall t with h | ⟨rfl, h⟩ <;> rw [h]
    exact haddr
  · intro t ht
    rcases hall t with h | ⟨rfl, h⟩ <;> rw [h]
    · exact ht
    · exact hhash ht
  · intro t ht
    rcases hall t with h | ⟨rfl, h⟩ <;> rw [h]
    rcases hstate with hs | ⟨hout, _⟩
    · exact hs
    · exact absurd ht hout
  · intro t _ hu
    refine ⟨?_, AgreeOn.refl _ _ _⟩
    rcases hall t with h | ⟨rfl, h⟩ <;> rw [h] at hu
    · exact hu
    · rcases hstate with hs | ⟨_, hne⟩
      · rw [← hs]
        exact hu
      · exact absurd hu hne
  · exact fun t _ => shownSerial_congr (fun _ _ _ _ => rfl) (hnumber t)

/-- A write that keeps off the headers, or changes the state byte of a sector that has one. -/
theorem ptWriteRaw_keeps {addr : Nat} {bytes : List Byte}
    (hsame : ∀ t < st.secNum, SameHeader (program st.flash addr bytes) st.flash (t * sectionSize))
    (hfresh : ∀ t < st.secNum, (st.secArr t).state = sectorUninit →
      AgreeOn (program st.flash addr bytes) st.flash (t * sectionSize) (t * sectionSize + 32)) :
    Keeps P st (st.ptWriteRaw addr bytes) :=
  ⟨rfl, rfl, rfl, rfl, fun _ => rfl, fun _ => rfl, fun _ h => h, fun _ _ => rfl,
    fun t ht hu => ⟨hu, hfresh t ht hu⟩, fun t ht => shownSerial_congr (hsame t ht) rfl,
    fun t ht hw => hw.congr (hsame t ht)⟩

theorem sliceAddr_bounds (addr : Nat) {i n : Nat} (h : i + n ≤ 127) :
    addr + 32 ≤ sliceAddr addr i ∧ sliceAddr addr i + n * 32 ≤ addr + 4096 := by
  simp only [sliceAddr, sliceSize]
  omega

/-- A write to the slices of a sector. -/
theorem slices_keeps {addr : Nat} {bytes : List Byte} (hlo : s * sectionSize + 32 ≤ addr)
    (hhi : addr + bytes.length ≤ s * sectionSize + 4096) : Keeps P st (st.ptWriteRaw addr bytes) := by
  have hoff : ∀ t, AgreeOn (program st.flash addr bytes) st.flash (t * sectionSize)
      (t * sectionSize + 32) := by
    intro t
    apply AgreeOn.program
    simp only [sectionSize] at *
    rcases Nat.lt_trichotomy t s with hlt | rfl | hlt <;> omega
  exact ptWriteRaw_keeps (fun t _ => .of_agree (hoff t)) fun t _ _ => hoff t

end Keeps

section Operations
variable {P : Port} {st : Store} {s : Nat}

theorem hashAppend_inside {sec : Sector} {it : Item} {index : Nat} (hi : index < 127)
    (h : sec.HashInside) : ∀ n ∈ hashAppend P sec.hash it index, n.id < entryCount := by
  intro n hn
  unfold hashAppend at hn
  split at hn
  · exact h n hn
  · rcases List.mem_append.mp hn with hn | hn
    · exact h n hn
    · rw [List.mem_singleton.mp hn]
      exact hi

theorem sectorEraseItem_keeps (haddr : (st.secArr s).address = s * sectionSize) {index : Nat}
    (h : index < 127) (it : Item) (eraseHash : Bool) :
    Keeps P st (sectorEraseItem st s index it eraseHash) := by
  have hcount : Keeps P st (st.setSec s { st.secArr s with
      dropedSlice := add8 (st.secArr s).dropedSlice it.span }) :=
    setSec_keeps rfl rfl (fun h => h) (Or.inl rfl)
  have hmark := hcount.trans (@slices_keeps P _ s (sliceAddr (st.secArr s).address index)
    [itemDroped] (by
      rw [haddr]
      exact (sliceAddr_bounds _ (show index + 1 ≤ 127 from h)).1) (by
      rw [haddr]
      have hb := (sliceAddr_bounds (s * sectionSize) (show index + 1 ≤ 127 from h)).2
      rw [List.length_singleton]
      omega))
  unfold sectorEraseItem
  simp only
  split
  · apply hmark.trans
    refine setSec_keeps rfl rfl (fun hin n hn => ?_) (Or.inl rfl)
    apply hin n
    simp only [ptWriteRaw_secArr, setSec_self]
    exact List.mem_of_mem_eraseP hn
  · exact hmark

theorem sectorSetState_keeps (haddr : (st.secArr s).address = s * sectionSize) (hs : s ∉ st.idle)
    {state : Byte} (hstate : state ≠ sectorUninit) : Keeps P st (sectorSetState st s state) := by
  unfold sectorSetState
  have hram : Keeps P st (st.setSec s { st.secArr s with state := state }) :=
    setSec_keeps rfl rfl (fun h => h) (Or.inr ⟨hs, hstate⟩)
  apply hram.trans
  have hother : ∀ t, t ≠ s → AgreeOn (program st.flash ((st.secArr s).address + 2) [state]) st.flash
      (t * sectionSize) (t * sectionSize + 32) := by
    intro t ht
    apply AgreeOn.program
    rw [haddr, List.length_singleton]
    simp only [sectionSize]
    omega
  apply ptWriteRaw_keeps
  · intro t _
    rcases eq_or_ne t s with rfl | ht
    · intro a _ _ hne
      apply program_apply_out
      rw [haddr, List.length_singleton]
      omega
    · exact .of_agree (hother t ht)
  · intro t _ hu
    apply hother t
    rintro rfl
    rw [setSec_self] at hu
    exact hstate hu

/-- The header gets the serial number that the sector has in RAM. -/
theorem header_keeps (hstate : (st.secArr s).state ≠ sectorUninit)
    (hblank : BlankOn st.flash (s * sectionSize) (s * sectionSize + 32))
    (hserial : (st.secArr s).serialNumber < 2 ^ 32) :
    Keeps P st (st.ptWriteRaw (s * sectionSize)
      (headerBytes P (BitVec.ofNat 32 (st.secArr s).serialNumber))) := by
  obtain ⟨hintact, hnumber⟩ :=
    headerBytes_intact (P := P) (BitVec.ofNat 32 (st.secArr s).serialNumber) hblank
  have hlen := headerBytes_length P (BitVec.ofNat 32 (st.secArr s).serialNumber)
  generalize headerBytes P (BitVec.ofNat 32 (st.secArr s).serialNumber) = bytes at *
  have hother : ∀ t, t ≠ s → AgreeOn (program st.flash (s * sectionSize) bytes) st.flash
      (t * sectionSize) (t * sectionSize + 32) := by
    intro t ht
    apply AgreeOn.program
    rw [hlen]
    simp only [sectionSize]
    omega
  refine ⟨rfl, rfl, rfl, rfl, fun _ => rfl, fun _ => rfl, fun _ h => h, fun _ _ => rfl, ?_, ?_, ?_⟩
  · intro t _ hu
    refine ⟨hu, hother t ?_⟩
    rintro rfl
    exact hstate hu
  · intro t _
    rcases eq_or_ne t s with rfl | ht
    · have hshown : (st.ptWriteRaw (t * sectionSize) bytes).shownSerial P t =
          headerSerial (program st.flash (t * sectionSize) bytes) (t * sectionSize) := if_pos hintact
      rw [hshown, hnumber, shownSerial_unwritten (.of_agree hblank), BitVec.toNat_ofNat]
      exact Nat.mod_eq_of_lt hserial
    · exact shownSerial_congr (.of_agree (hother t ht)) rfl
  · intro t _ hw
    rcases eq_or_ne t s with rfl | ht
    · exact Or.inr hintact
    · exact hw.congr (.of_agree (hother t ht))

theorem sectorInit_keeps (haddr : (st.secArr s).address = s * sectionSize) (hs : s ∉ st.idle)
    (hblank : BlankOn st.flash (s * sectionSize) (s * sectionSize + 32))
    (hserial : (st.secArr s).serialNumber < 2 ^ 32) : Keeps P st (sectorInit P st s) := by
  have hram : Keeps P st (st.setSec s { st.secArr s with
      state := sectorUsing, nextFreeSlice := 0, usedSlice := 0, dropedSlice := 0 }) :=
    setSec_keeps rfl rfl (fun h => h) (Or.inr ⟨hs, show sectorUsing ≠ sectorUninit by decide⟩)
  have hheader := hram.trans (header_keeps (P := P) (s := s) (by
    rw [setSec_self]
    exact show sectorUsing ≠ sectorUninit by decide) hblank (by rwa [setSec_self]))
  unfold sectorInit
  simp only [setSec_self, haddr] at hheader ⊢
  exact hheader

theorem readySector_keeps (haddr : (st.secArr s).address = s * sectionSize) (hs : s ∉ st.idle)
    (hblank : (st.secArr s).state = sectorUninit →
      BlankOn st.flash (s * sectionSize) (s * sectionSize + 32))
    (hserial : (st.secArr s).serialNumber < 2 ^ 32) : Keeps P st (readySector P st s) := by
  unfold readySector
  split
  · rename_i hu
    exact sectorInit_keeps haddr hs (hblank hu) hserial
  · exact .refl P st

theorem appendItem_keeps (haddr : (st.secArr s).address = s * sectionSize) {it : Item} {data : List Byte}
    (hfit : (st.secArr s).nextFreeSlice + it.span ≤ 127) (hdata : data.length ≤ (it.span - 1) * 32) :
    Keeps P st (appendItem P st s it data) := by
  have hspan := it.span_pos
  have hbytes : it.bytes.length = 32 := it.bytes_length
  have hhead : Keeps P st (st.ptWriteRaw (sliceAddr (st.secArr s).address (st.secArr s).nextFreeSlice)
      it.bytes) := by
    apply slices_keeps (s := s)
    · simp only [haddr, sliceAddr, sliceSize]
      omega
    · simp only [haddr, sliceAddr, sliceSize]
      omega
  have htail : Keeps P st ((st.ptWriteRaw (sliceAddr (st.secArr s).address (st.secArr s).nextFreeSlice)
      it.bytes).ptWriteRaw (sliceAddr (st.secArr s).address ((st.secArr s).nextFreeSlice + 1)) data) := by
    apply hhead.trans
    apply slices_keeps (s := s)
    · simp only [haddr, sliceAddr, sliceSize]
      omega
    · simp only [haddr, sliceAddr, sliceSize]
      omega
  have hpush : ∀ st₁ : Store, st₁.secArr = st.secArr →
      Keeps P st₁ (st₁.setSec s ((st.secArr s).push P it)) := by
    intro st₁ hsec
    rw [← hsec]
    exact setSec_keeps rfl rfl (hashAppend_inside (by rw [hsec]; omega)) (Or.inl rfl)
  unfold appendItem
  simp only
  split
  · exact hhead.trans (hpush _ rfl)
  · exact htail.trans (hpush _ rfl)

/-- Writing to a sector that is in the active list. -/
theorem sectorWriteItem_keeps (haddr : (st.secArr s).address = s * sectionSize) (hlt : s < st.secNum)
    (hs : s ∉ st.idle) (hblank : (st.secArr s).state = sectorUninit →
      BlankOn st.flash (s * sectionSize) (s * sectionSize + 32))
    (hserial : (st.secArr s).serialNumber < 2 ^ 32) (groupId : Byte) (type : NvsType)
    (key data : List Byte) (segId : Byte) :
    Keeps P st (sectorWriteItem P st s groupId type key data segId).2 := by
  have hready := readySector_keeps (P := P) haddr hs hblank hserial
  have hsize : (st.secArr s).address + 4096 ≤ st.size := by
    rw [haddr, Store.size]
    simp only [sectionSize]
    omega
  cases hrun : sectorWriteItem P st s groupId type key data segId with
  | mk err st' =>
    rcases sectorWriteItem_cases hsize hrun with ⟨_, rfl | rfl⟩ | ⟨_, hlen, hfit, rfl⟩
    · exact .refl P st'
    · exact hready
    · apply hready.trans
      rw [← newItem_span P groupId type key segId hlen] at hfit
      apply appendItem_keeps ((hready.address s).trans haddr) hfit
      rw [newItem_span P groupId type key segId hlen]
      exact tailData_length data

/-! ## Copying -/

/-- With the entries `L` to come and `next` the slice they go to, no data is copied over the end of
the sector at `dst`. A copy ends where data does not lie inside the partition. -/
def CopyInside (size dst src : Nat) : List Entry → Nat → Prop
  | [], _ => True
  | x :: L, next =>
    if ¬ x.Live then CopyInside size dst src L next
    else if 1 < x.2.span ∧ (size < sliceAddr src (x.1 + 1) + x.2.length.toNat ∨
        size < sliceAddr dst (next + 1) + x.2.length.toNat) then True
    else next + x.2.span ≤ entryCount ∧ CopyInside size dst src L (next + x.2.span)

instance CopyInside.decidable (size dst src : Nat) :
    ∀ (L : List Entry) (next : Nat), Decidable (CopyInside size dst src L next)
  | [], _ => .isTrue trivial
  | x :: L, next =>
    have := CopyInside.decidable size dst src L next
    have := CopyInside.decidable size dst src L (next + x.2.span)
    inferInstanceAs (Decidable (ite _ _ _))

theorem scan_congr {f g : Flash} {addr : Nat} (n i : Nat)
    (h : AgreeOn f g (sliceAddr addr i) (addr + 4096)) :
    scan f addr entryCount n i = scan g addr entryCount n i := by
  induction n generalizing i with
  | zero => rfl
  | succ n ih =>
    unfold scan
    split
    · rename_i hi
      simp only [readItem_agree h hi]
      rw [ih _ (h.mono (sliceAddr_mono _ (Nat.le_add_right _ _)) (Nat.le_refl _))]
    · rfl

/-- Where a copy runs: both sectors are active and the target is not the source. -/
structure CopyPlaces (st : Store) (dst src : Nat) : Prop where
  ne : dst ≠ src
  dst : (st.secArr dst).address = dst * sectionSize ∧ dst ∉ st.idle
  src : (st.secArr src).address = src * sectionSize ∧ src ∉ st.idle

theorem CopyPlaces.keeps {dst src : Nat} {st' : Store} (h : CopyPlaces st dst src) (hk : Keeps P st st') :
    CopyPlaces st' dst src := by
  refine ⟨h.ne, ?_, ?_⟩
  · rw [hk.address, hk.idle]
    exact h.dst
  · rw [hk.address, hk.idle]
    exact h.src

/-- Writing to one sector leaves another one as it is. -/
theorem program_off {f : Flash} {dst src addr : Nat} {bytes : List Byte} (hne : dst ≠ src)
    (hlo : dst * sectionSize ≤ addr) (hhi : addr + bytes.length ≤ dst * sectionSize + 4096) :
    AgreeOn (program f addr bytes) f (src * sectionSize) (src * sectionSize + 4096) := by
  apply AgreeOn.program
  simp only [sectionSize] at *
  omega

theorem sectorCopyLoop_keeps {dst src : Nat} (n : Nat) : ∀ {st : Store} {srcIndex next : Nat},
    CopyPlaces st dst src → next ≤ srcIndex →
    CopyInside st.size (dst * sectionSize) (src * sectionSize)
      (scan st.flash (src * sectionSize) entryCount n srcIndex) next →
    Keeps P st (sectorCopyLoop P dst src n srcIndex next st).2 := by
  induction n with
  | zero => exact fun _ _ _ => .refl P _
  | succ n ih =>
    intro st srcIndex next hp hle hin
    have hdst := hp.dst.1
    have hsrc := hp.src.1
    by_cases hi : srcIndex < entryCount
    · have hnext : next < 127 := Nat.lt_of_le_of_lt hle hi
      simp only [sectorCopyLoop, if_pos hi, hsrc, hdst]
      simp only [scan, if_pos hi] at hin
      generalize readItem st.flash (sliceAddr (src * sectionSize) srcIndex) = it at *
      have hspan := it.span_pos
      have hbytes : it.bytes.length = 32 := it.bytes_length
      by_cases hdrop : it.state = itemDroped
      · have hdead : ¬ Entry.Live (srcIndex, it) := by
          intro (hlive : it.state = itemUsing)
          rw [hdrop] at hlive
          exact absurd hlive (by decide)
        rw [if_pos (Or.inr hdrop), CopyInside, if_pos hdead] at hin
        rw [if_pos hdrop]
        exact ih hp (by omega) hin
      rw [if_neg hdrop]
      by_cases husing : it.state = itemUsing
      · have hknown : it.state = itemUsing ∨ it.state = itemDroped := Or.inl husing
        have hlive : ¬¬ Entry.Live (srcIndex, it) := not_not_intro husing
        rw [if_pos hknown, CopyInside, if_neg hlive] at hin
        rw [if_pos husing]
        dsimp only at hin
        obtain ⟨hlo, hhi⟩ := sliceAddr_bounds (dst * sectionSize) (show next + 1 ≤ 127 from hnext)
        rw [Nat.one_mul, ← hbytes] at hhi
        have hhead : Keeps P st (st.ptWriteRaw (sliceAddr (dst * sectionSize) next) it.bytes) :=
          slices_keeps hlo hhi
        have hheadOff := program_off (f := st.flash) hp.ne (Nat.le_of_add_right_le hlo) hhi
        -- once the bytes are there, the entries behind this one are copied
        have hrest : ∀ st₂ : Store, Keeps P st st₂ →
            CopyInside st.size (dst * sectionSize) (src * sectionSize)
              (scan st.flash (src * sectionSize) entryCount n (srcIndex + it.span)) (next + it.span) →
            AgreeOn st₂.flash st.flash (src * sectionSize) (src * sectionSize + 4096) →
            Keeps P st (sectorCopyLoop P dst src n (srcIndex + it.span) (next + it.span)
              (st₂.setSec dst { st₂.secArr dst with
                hash := hashAppend P (st₂.secArr dst).hash it next
                usedSlice := add8 (st₂.secArr dst).usedSlice it.span
                nextFreeSlice := add8 (st₂.secArr dst).nextFreeSlice it.span })).2 := by
          intro st₂ hk hinside hoff
          have hcount : Keeps P st (st₂.setSec dst { st₂.secArr dst with
              hash := hashAppend P (st₂.secArr dst).hash it next
              usedSlice := add8 (st₂.secArr dst).usedSlice it.span
              nextFreeSlice := add8 (st₂.secArr dst).nextFreeSlice it.span }) :=
            hk.trans (setSec_keeps rfl rfl (hashAppend_inside hnext) (Or.inl rfl))
          apply hcount.trans
          apply ih (hp.keeps hcount) (by omega)
          have hscan := scan_congr n (srcIndex + it.span)
            (hoff.mono (Nat.le_add_right _ _) (Nat.le_refl _))
          rw [setSec_flash, hscan, setSec_size, Store.size, hk.secNum]
          exact hinside
        by_cases hlong : 1 < it.span
        · rw [if_pos hlong]
          by_cases hread : sliceAddr (src * sectionSize) (srcIndex + 1) + it.length.toNat ≤ st.size
          · simp only [Store.ptRead, ptWriteRaw_size, ptWriteRaw_secArr, hsrc, hdst, if_pos hread]
            by_cases hwrite : sliceAddr (dst * sectionSize) (next + 1) + it.length.toNat ≤ st.size
            · rw [if_neg (by omega)] at hin
              obtain ⟨hfit, hinside⟩ := hin
              have hlen := length_le_span (span_gt_one.mp hlong)
              have hdata := sliceAddr_bounds (dst * sectionSize) (i := next + 1) (n := it.span - 1)
                (by simp only [entryCount] at hfit; omega)
              have hend := Nat.le_trans (Nat.add_le_add_left hlen _) hdata.2
              simp only [Store.ptWrite, readBytes_length, ptWriteRaw_size, if_pos hwrite]
              apply hrest _ (hhead.trans (slices_keeps hdata.1 (by rwa [readBytes_length]))) hinside
              apply AgreeOn.trans _ hheadOff
              exact program_off hp.ne (Nat.le_of_add_right_le hdata.1) (by rwa [readBytes_length])
            · simp only [Store.ptWrite, readBytes_length, ptWriteRaw_size, if_neg hwrite]
              exact hhead.trans (setSec_keeps rfl rfl (fun h => h)
                (Or.inr ⟨hp.dst.2, show sectorInvalid ≠ sectorUninit by decide⟩))
          · simp only [Store.ptRead, ptWriteRaw_size, ptWriteRaw_secArr, hsrc, if_neg hread]
            exact hhead.trans (setSec_keeps hsrc.symm rfl (fun h => h)
              (Or.inr ⟨hp.src.2, show sectorInvalid ≠ sectorUninit by decide⟩))
        · rw [if_neg fun h => hlong h.1] at hin
          simp only [if_neg (show ¬ it.span > 1 from hlong)]
          exact hrest _ hhead hin.2 hheadOff
      · rw [if_neg husing]
        exact setSec_keeps hdst.symm rfl (fun h => h) (Or.inl rfl)
    · simp only [sectorCopyLoop, if_neg hi]
      exact .refl P st

end Operations

end WmIot.Nvs
