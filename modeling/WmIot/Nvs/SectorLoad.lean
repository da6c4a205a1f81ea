import WmIot.Nvs.Accounting
import WmIot.Nvs.Storage

/-!
# Loading a sector

`wm_nvs_sector_load` on any flash content: which headers it accepts, what the scan makes of the
sector, and when the accounting it ends with is right. From a sound image on, writing, erasing
and copying keep it right.
-/

namespace WmIot.Nvs
open NorFlash
set_option autoImplicit false

/-- `wm_nvs_sector_load` accepts the header and scans the sector. -/
def HeaderAccepted (P : Port) (f : Flash) (addr : Nat) : Prop :=
  let header := readHeader f addr
  (header.state = sectorFull ∨ header.state = sectorUsing ∨ header.state = sectorDeletting) ∧
    header.magic = sectorMagic ∧
    header.crc32 = sectorCrc32 P header.serialNumber header.version header.reserve2 ∧
    header.version = P.verNum

instance (P : Port) (f : Flash) (addr : Nat) : Decidable (HeaderAccepted P f addr) :=
  inferInstanceAs (Decidable (_ ∧ _))

theorem HeaderAccepted.state_ne {P : Port} {f : Flash} {addr : Nat} (h : HeaderAccepted P f addr)
    {b : Byte} (hb : b = sectorUninit ∨ b = sectorCrash ∨ b = sectorInvalid) :
    (readHeader f addr).state ≠ b := by
  rcases h.1 with hs | hs | hs <;> rcases hb with rfl | rfl | rfl <;> rw [hs] <;> decide

section Load
variable {P : Port} {st : Store} {s : Nat}

/-- The record `wm_nvs_sector_load` starts from. -/
def loadStart (st : Store) (s : Nat) : Sector :=
  let header := readHeader st.flash (s * sectionSize)
  { st.secArr s with
    address := s * sectionSize, usedSlice := 0, dropedSlice := 0, hash := [], state := header.state
    serialNumber := header.serialNumber.toNat }

theorem sectorLoad_accepted (h : HeaderAccepted P st.flash (s * sectionSize)) :
    sectorLoad P st s = sectorUpdateSliceAndHash P (st.setSec s (loadStart st s)) s := by
  obtain ⟨hstate, hmagic, hcrc, hver⟩ := h
  have hu : ¬ (readHeader st.flash (s * sectionSize)).state = sectorUninit := by
    rcases hstate with hs | hs | hs <;> rw [hs] <;> decide
  have hok : ¬ ((readHeader st.flash (s * sectionSize)).magic ≠ sectorMagic ∨
      (readHeader st.flash (s * sectionSize)).crc32 ≠
        sectorCrc32 P (readHeader st.flash (s * sectionSize)).serialNumber
          (readHeader st.flash (s * sectionSize)).version
          (readHeader st.flash (s * sectionSize)).reserve2) := by
    rintro (hm | hm)
    · exact hm hmagic
    · exact hm hcrc
  unfold sectorLoad
  simp only
  rw [if_neg hu, if_neg hok, if_neg (not_not_intro hver)]
  simp only [setSec_self]
  rw [if_pos hstate]
  rfl

/-- `wm_nvs_sector_load` leaves the sector for the idle list. -/
def HeaderRefused (P : Port) (f : Flash) (addr : Nat) : Prop :=
  let header := readHeader f addr
  header.state = sectorUninit ∨ header.magic ≠ sectorMagic ∨
    header.crc32 ≠ sectorCrc32 P header.serialNumber header.version header.reserve2 ∨
    header.version ≠ P.verNum ∨ header.state = sectorCrash ∨ header.state = sectorInvalid

instance (P : Port) (f : Flash) (addr : Nat) : Decidable (HeaderRefused P f addr) :=
  inferInstanceAs (Decidable (_ ∨ _))

/-- The states of the sectors on the idle list after a load. -/
def Sector.Dead (sec : Sector) : Prop :=
  sec.state = sectorUninit ∨ sec.state = sectorCrash ∨ sec.state = sectorInvalid

/-- A sector whose header is not accepted is not scanned. -/
theorem sectorLoad_refused (h : ¬ HeaderAccepted P st.flash (s * sectionSize)) :
    ∃ sec, sectorLoad P st s = st.setSec s sec ∧ sec.address = s * sectionSize ∧
      (HeaderRefused P st.flash (s * sectionSize) → sec.Dead) ∧ (sec.state = sectorUninit →
        BlankOn st.flash (s * sectionSize) (s * sectionSize + 4096)) := by
  have hcrash : ¬ (sectorCrash = sectorFull ∨ sectorCrash = sectorUsing ∨ sectorCrash = sectorDeletting) := by
    decide
  have hfresh : sectorCrash = sectorUninit →
      BlankOn st.flash (s * sectionSize) (s * sectionSize + 4096) := fun hs => absurd hs (by decide)
  unfold sectorLoad
  simp only
  by_cases hu : (readHeader st.flash (s * sectionSize)).state = sectorUninit
  · rw [if_pos hu]
    unfold sectorCheckEmpty
    simp only [setSec_self, setSec_setSec, setSec_flash]
    split
    · rename_i hall
      simp only [setSec_self, hu]
      rw [if_neg (by decide)]
      refine ⟨_, rfl, rfl, fun _ => Or.inl rfl, fun _ => ?_⟩
      intro a hlo hhi
      have hmem : st.flash (s * sectionSize + (a - s * sectionSize)) ∈
          readBytes st.flash (s * sectionSize) sectionSize := by
        apply List.mem_map.mpr
        refine ⟨a - s * sectionSize, List.mem_range.mpr ?_, rfl⟩
        simp only [sectionSize] at *
        omega
      have hb := List.all_eq_true.mp hall _ hmem
      rw [Nat.add_sub_cancel' hlo] at hb
      simpa using hb
    · simp only [setSec_self]
      rw [if_neg hcrash]
      exact ⟨_, rfl, rfl, fun _ => Or.inr (Or.inl rfl), hfresh⟩
  · rw [if_neg hu]
    split
    · simp only [setSec_self]
      rw [if_neg hcrash]
      exact ⟨_, rfl, rfl, fun _ => Or.inr (Or.inl rfl), hfresh⟩
    · rename_i hmagic
      split
      · simp only [setSec_self]
        rw [if_neg hcrash]
        exact ⟨_, rfl, rfl, fun _ => Or.inr (Or.inl rfl), hfresh⟩
      · rename_i hver
        simp only [setSec_self]
        rw [if_neg]
        · refine ⟨_, rfl, rfl, ?_, fun hs => absurd hs hu⟩
          rintro (hr | hr | hr | hr | hr)
          · exact Or.inl hr
          · exact absurd (Or.inl hr) hmagic
          · exact absurd (Or.inr hr) hmagic
          · exact absurd hr hver
          · exact Or.inr hr
        · intro hs
          exact h ⟨hs, by simpa using fun hm => hmagic (Or.inl hm),
            by simpa using fun hm => hmagic (Or.inr hm), by simpa using hver⟩

/-- Loading touches nothing but the sector it loads. -/
structure Loads (s : Nat) (st st' : Store) : Prop where
  secNum : st'.secNum = st.secNum
  active : st'.active = st.active
  idle : st'.idle = st.idle
  serial : st'.serialNumber = st.serialNumber
  groups : st'.groupList = st.groupList
  others : ∀ t, t ≠ s → st'.secArr t = st.secArr t
  flash : ∀ {lo hi}, hi ≤ s * sectionSize ∨ s * sectionSize + 4096 ≤ lo →
    AgreeOn st'.flash st.flash lo hi
  events : ∃ evs, Trace st st' evs

theorem Loads.of_local {st₁ st' : Store} {sec : Sector} (hsec : sec.address = s * sectionSize)
    (h : st₁ = st.setSec s sec) (hl : Local s st₁ st') : Loads s st st' where
  secNum := by rw [hl.secNum, h]; rfl
  active := by rw [hl.active, h]; rfl
  idle := by rw [hl.idle, h]; rfl
  serial := by rw [hl.serial, h]; rfl
  groups := by rw [hl.groups, h]; rfl
  others := fun t ht => by rw [hl.others t ht, h, setSec_other _ _ _ ht]
  flash := by
    intro lo hi ho
    have hout : hi ≤ (st₁.secArr s).address ∨ (st₁.secArr s).address + 4096 ≤ lo := by
      rw [h, setSec_self, hsec]
      exact ho
    have ha := hl.agreeOn hout
    rwa [h] at ha
  events := by
    obtain ⟨evs, ht, _⟩ := hl.events
    rw [h] at ht
    exact ⟨evs, ht.log, ht.flash⟩

theorem scan_local (P : Port) (st : Store) (s : Nat) :
    Local s st (sectorUpdateSliceAndHash P st s) := (updateSliceLoop_spec _ _ st).1

theorem sectorLoad_loads (P : Port) (st : Store) (s : Nat) : Loads s st (sectorLoad P st s) := by
  by_cases h : HeaderAccepted P st.flash (s * sectionSize)
  · rw [sectorLoad_accepted h]
    exact .of_local rfl rfl (scan_local P _ s)
  · obtain ⟨sec, heq, haddr, _⟩ := sectorLoad_refused h
    rw [heq]
    exact .of_local haddr rfl (Local.refl s _)

theorem sectorLoad_address (P : Port) (st : Store) (s : Nat) :
    ((sectorLoad P st s).secArr s).address = s * sectionSize := by
  by_cases h : HeaderAccepted P st.flash (s * sectionSize)
  · rw [sectorLoad_accepted h, (scan_local P _ s).address, setSec_self]
    rfl
  · obtain ⟨sec, heq, haddr, _⟩ := sectorLoad_refused h
    rw [heq, setSec_self]
    exact haddr

/-- The record of a scanned sector. -/
theorem sectorLoad_sector (h : HeaderAccepted P st.flash (s * sectionSize)) :
    (sectorLoad P st s).secArr s =
        { (walk st.flash (s * sectionSize) (entryCount + 1) 0).foldl (Sector.count P) (loadStart st s) with
          nextFreeSlice := walkEnd st.flash (s * sectionSize) (entryCount + 1) 0 } ∧
      (sectorLoad P st s).flash =
        (walk st.flash (s * sectionSize) (entryCount + 1) 0).foldl (dropTorn P (s * sectionSize))
          st.flash := by
  rw [sectorLoad_accepted h]
  have hspec := (updateSliceLoop_spec (P := P) (s := s) (entryCount + 1) 0
    (st.setSec s (loadStart st s))).2
  simp only [setSec_self, setSec_flash] at hspec
  exact hspec

end Load

/-! ## The scan stays inside the sector -/

theorem walk_succ (f : Flash) (addr n i : Nat) (h : 127 ≤ i + n) :
    walk f addr (n + 1) i = walk f addr n i ∧ walkEnd f addr (n + 1) i = walkEnd f addr n i := by
  induction n generalizing i with
  | zero =>
    have hi : ¬ i < entryCount := by
      simp only [entryCount]
      omega
    simp only [walk, walkEnd, if_neg hi, and_self]
  | succ n ih =>
    have hs := (readItem f (sliceAddr addr i)).span_pos
    obtain ⟨hw, he⟩ := ih (i + (readItem f (sliceAddr addr i)).span) (by omega)
    rw [walk, walkEnd]
    simp only [hw, he]
    rw [walk, walkEnd]
    exact ⟨rfl, rfl⟩

/-- More turns than slices change nothing: the loop has ended by then. -/
theorem updateSliceLoop_ends (P : Port) (s : Nat) (n i : Nat) (st : Store) (h : 127 ≤ i + n) :
    updateSliceLoop P s (n + 1) i st = updateSliceLoop P s n i st := by
  induction n generalizing i st with
  | zero =>
    have hi : ¬ i < entryCount := by
      simp only [entryCount]
      omega
    simp only [updateSliceLoop, if_neg hi]
  | succ n ih =>
    rw [updateSliceLoop]
    conv_rhs => rw [updateSliceLoop]
    split
    · simp only
      have hs := (readItem st.flash (sliceAddr (st.secArr s).address i)).span_pos
      simp only [ih (i + (readItem st.flash (sliceAddr (st.secArr s).address i)).span) _ (by omega)]
    · rfl

/-- The scan reads nothing outside its sector. -/
theorem scan_inside (P : Port) (st : Store) (s : Nat) (g : Flash)
    (h : AgreeOn st.flash g (st.secArr s).address ((st.secArr s).address + 4096)) :
    (sectorUpdateSliceAndHash P { st with flash := g } s).secArr s =
      (sectorUpdateSliceAndHash P st s).secArr s := by
  have hin : AgreeOn st.flash g (sliceAddr (st.secArr s).address 0) ((st.secArr s).address + 4096) := by
    apply h.mono _ (Nat.le_refl _)
    simp only [sliceAddr]
    omega
  have h₁ := (updateSliceLoop_spec (P := P) (s := s) (entryCount + 1) 0 st).2.1
  have h₂ := (updateSliceLoop_spec (P := P) (s := s) (entryCount + 1) 0 { st with flash := g }).2.1
  rw [walk_congr _ _ hin, walkEnd_congr _ _ hin] at h₁
  unfold sectorUpdateSliceAndHash
  rw [h₁, h₂]

/-! ## The accounting after a load -/

/-- No item in use is torn, and the items in use or dropped fill the sector up to where the
walk stops. -/
def ScanClean (P : Port) (f : Flash) (addr : Nat) : Prop :=
  (∀ x ∈ walk f addr entryCount 0, ¬ x.Torn P) ∧
    spans ((walk f addr entryCount 0).filter fun x => x.Known) = walkEnd f addr entryCount 0

instance (P : Port) (f : Flash) (addr : Nat) : Decidable (ScanClean P f addr) :=
  inferInstanceAs (Decidable (_ ∧ _))

theorem dropedSpans_markTorn (P : Port) (L : List Entry) :
    dropedSpans (L.map (Entry.markTorn P)) = dropedSpans L + spans (L.filter fun x => x.Torn P) := by
  induction L with
  | nil => rfl
  | cons x L ih =>
    simp only [dropedSpans] at ih ⊢
    rw [List.map_cons, List.filter_cons, List.filter_cons, List.filter_cons]
    by_cases ht : x.Torn P
    · have hm : (x.markTorn P).Droped := by
        rw [Entry.markTorn, if_pos ht]
        exact state_droped x.2
      have hnd : ¬ x.Droped := by
        intro hd
        have hs : x.2.state = itemUsing := ht.1
        rw [show x.2.state = itemDroped from hd] at hs
        exact absurd hs (by decide)
      rw [if_pos (by simpa using hm), if_neg (by simpa using hnd), if_pos (by simpa using ht)]
      simp only [spans_cons, markTorn_span, ih]
      omega
    · have hm : x.markTorn P = x := if_neg ht
      rw [hm, if_neg (show ¬ decide (x.Torn P) = true by simpa using ht)]
      by_cases hd : x.Droped
      · rw [if_pos (by simpa using hd), if_pos (by simpa using hd)]
        simp only [spans_cons, ih]
        omega
      · rw [if_neg (by simpa using hd), if_neg (by simpa using hd), ih]

theorem spans_torn_droped_le (P : Port) (L : List Entry) :
    dropedSpans L + spans (L.filter fun x => x.Torn P) ≤ spans (L.filter fun x => x.Known) := by
  induction L with
  | nil => exact Nat.le_refl _
  | cons x L ih =>
    simp only [dropedSpans] at ih ⊢
    rw [List.filter_cons, List.filter_cons, List.filter_cons]
    by_cases ht : x.Torn P
    · have hk : x.Known := Or.inl ht.1
      have hnd : ¬ x.Droped := by
        intro hd
        have hs : x.2.state = itemUsing := ht.1
        rw [show x.2.state = itemDroped from hd] at hs
        exact absurd hs (by decide)
      rw [if_neg (by simpa using hnd), if_pos (by simpa using ht), if_pos (by simpa using hk)]
      simp only [spans_cons]
      omega
    · rw [if_neg (show ¬ decide (x.Torn P) = true by simpa using ht)]
      by_cases hd : x.Droped
      · have hk : x.Known := Or.inr hd
        rw [if_pos (by simpa using hd), if_pos (by simpa using hk)]
        simp only [spans_cons]
        omega
      · rw [if_neg (by simpa using hd)]
        split
        · simp only [spans_cons]
          omega
        · exact ih

theorem walk_length_le (f : Flash) (addr n i : Nat) (hi : i ≤ 127) :
    (walk f addr n i).length + i ≤ 127 ∨ walk f addr n i = [] := by
  induction n generalizing i with
  | zero => exact Or.inr rfl
  | succ n ih =>
    unfold walk
    split
    · rename_i hlt
      simp only
      split
      · exact Or.inr rfl
      · left
        have hs := (readItem f (sliceAddr addr i)).span_pos
        simp only [entryCount] at hlt
        by_cases hle : i + (readItem f (sliceAddr addr i)).span ≤ 127
        · rcases ih _ hle with h | h
          · simp only [List.length_cons]
            omega
          · simp only [h, List.length_singleton]
            omega
        · have hnil : walk f addr n (i + (readItem f (sliceAddr addr i)).span) = [] := by
            cases n with
            | zero => rfl
            | succ n => exact if_neg (by simp only [entryCount]; omega)
          simp only [hnil, List.length_singleton]
          omega
    · exact Or.inr rfl

theorem torn_nil_of_spans {P : Port} {L : List Entry} (h : spans (L.filter fun x => x.Torn P) = 0) :
    ∀ x ∈ L, ¬ x.Torn P := by
  intro x hx ht
  have hmem : x ∈ L.filter fun x => x.Torn P := List.mem_filter.mpr ⟨hx, by simpa using ht⟩
  have hspan := x.2.span_pos
  obtain ⟨A, B, hAB⟩ := List.append_of_mem hmem
  rw [hAB] at h
  simp only [spans_append, spans_cons] at h
  omega

/-- After the scan of an accepted sector the accounting is right exactly when the image is clean. -/
theorem sectorLoad_accounted_iff {P : Port} {st : Store} {s : Nat}
    (h : HeaderAccepted P st.flash (s * sectionSize)) :
    Accounted P (sectorLoad P st s).flash ((sectorLoad P st s).secArr s) ↔
      ScanClean P st.flash (s * sectionSize) := by
  obtain ⟨hsec, hflash⟩ := sectorLoad_sector h
  obtain ⟨hw, he⟩ := walk_succ st.flash (s * sectionSize) entryCount 0 (by decide)
  rw [hw] at hsec hflash
  rw [he] at hsec
  obtain ⟨e, hchain, he255, hend⟩ := walk_chain st.flash (s * sectionSize) entryCount 0 (by decide)
  have hstop := (hend (by decide)).1
  have hspans := hchain.spans_eq
  generalize hW : walk st.flash (s * sectionSize) entryCount 0 = W at *
  have hlen : W.length ≤ 127 := by
    rcases walk_length_le st.flash (s * sectionSize) entryCount 0 (by decide) with hl | hl
    · rw [hW] at hl
      omega
    · rw [← hW, hl]
      exact Nat.zero_le _
  have hused := count_used (P := P) W (loadStart st s) (by simp [loadStart])
  have hdroped := count_droped (P := P) W (loadStart st s) (by simp [loadStart])
  have hhash := count_hash (P := P) W (loadStart st s) (by simpa [loadStart] using hlen)
  have haddr : (W.foldl (Sector.count P) (loadStart st s)).address = s * sectionSize :=
    (count_other (P := P) W (loadStart st s)).2
  simp only [loadStart, Nat.zero_add, List.nil_append] at hused hdroped hhash
  have hknown := spans_filter_le (fun x => x.Known) W
  have htorn := spans_torn_droped_le P W
  -- below the stop there is all the walk met
  have hbelow : itemsBelow (sectorLoad P st s).flash ((sectorLoad P st s).secArr s) =
      W.map (Entry.markTorn P) := by
    unfold itemsBelow
    rw [hsec, hflash]
    simp only [haddr]
    rw [← hW, walk_dropTorn, hW]
    apply List.filter_eq_self.mpr
    intro y hy
    obtain ⟨x, hx, rfl⟩ := List.mem_map.mp hy
    have hb := hchain.mem_bounds hx
    have hs := x.2.span_pos
    have hlt := (walk_mem (hW ▸ hx)).2.1
    simp only [markTorn_fst, decide_eq_true_eq]
    omega
  have hmark := dropedSpans_markTorn P W
  constructor
  · intro hacc
    have h₁ := hacc.used
    have h₂ := hacc.droped
    rw [hbelow, hmark] at h₂
    rw [hsec] at h₁ h₂
    simp only [loadStart] at h₁ h₂
    rw [hused] at h₁
    rw [hdroped] at h₂
    unfold ScanClean
    rw [hW]
    exact ⟨torn_nil_of_spans (by omega), by omega⟩
  · rintro ⟨hno, hsum⟩
    rw [hW] at hno hsum
    have hzero : spans (W.filter fun x => x.Torn P) = 0 := by
      rw [List.filter_eq_nil_iff.mpr fun x hx => by simpa using hno x hx]
      rfl
    rw [hzero] at hdroped hmark htorn
    have hu : ((sectorLoad P st s).secArr s).usedSlice = spans (W.filter fun x => x.Known) := by
      rw [hsec]
      simp only [loadStart]
      rw [hused]
      exact Nat.mod_eq_of_lt (by omega)
    have hd : ((sectorLoad P st s).secArr s).dropedSlice = dropedSpans W := by
      rw [hsec]
      simp only [loadStart]
      rw [hdroped]
      exact Nat.mod_eq_of_lt (by omega)
    have hn : ((sectorLoad P st s).secArr s).nextFreeSlice =
        walkEnd st.flash (s * sectionSize) entryCount 0 := by rw [hsec]
    refine ⟨⟨by omega, by omega⟩, by omega, by rw [hbelow, hmark, hd, Nat.add_zero], ?_⟩
    rw [hbelow, hsec]
    exact hhash

/-! ## Sound images -/

/-- An accepted sector whose items are in use or dropped and end inside the sector, with erased
cells behind them. -/
structure ImageFits (P : Port) (f : Flash) (addr : Nat) : Prop where
  accepted : HeaderAccepted P f addr
  known : ∀ x ∈ walk f addr entryCount 0, x.Known
  fits : ∀ x ∈ walk f addr entryCount 0, x.1 + x.2.span ≤ 127
  tail : BlankOn f (sliceAddr addr (walkEnd f addr entryCount 0)) (addr + 4096)

/-- None of its items is torn. -/
structure ImageSound (P : Port) (f : Flash) (addr : Nat) : Prop extends ImageFits P f addr where
  untorn : ∀ x ∈ walk f addr entryCount 0, ¬ x.Torn P

theorem readHeader_congr {f g : Flash} {addr : Nat} (h : AgreeOn f g addr (addr + 4096)) :
    readHeader f addr = readHeader g addr := by
  have hb : ∀ k < 32, f (addr + k) = g (addr + k) := fun k hk => h _ (by omega) (by omega)
  unfold readHeader
  have hr : readBytes f (addr + 13) 19 = readBytes g (addr + 13) 19 := h.readBytes (by omega) (by omega)
  rw [h addr (by omega) (by omega), hr]
  simp only [hb 1 (by decide), hb 2 (by decide), hb 4 (by decide), hb 5 (by decide), hb 6 (by decide),
    hb 7 (by decide), hb 8 (by decide), hb 9 (by decide), hb 10 (by decide), hb 11 (by decide),
    hb 12 (by decide)]

section Congr
variable {P : Port} {f g : Flash} {addr : Nat}

theorem HeaderAccepted.congr (h : HeaderAccepted P f addr) (hfg : AgreeOn f g addr (addr + 4096)) :
    HeaderAccepted P g addr := by
  unfold HeaderAccepted at h ⊢
  rwa [← readHeader_congr hfg]

theorem ImageFits.congr (h : ImageFits P f addr) (hfg : AgreeOn f g addr (addr + 4096)) :
    ImageFits P g addr := by
  have hin : AgreeOn f g (sliceAddr addr 0) (addr + 4096) := by
    apply hfg.mono _ (Nat.le_refl _)
    simp only [sliceAddr]
    omega
  have hw := walk_congr entryCount 0 hin
  have hfrom : addr ≤ sliceAddr addr (walkEnd f addr entryCount 0) := by
    simp only [sliceAddr]
    omega
  refine ⟨h.accepted.congr hfg, ?_, ?_, ?_⟩
  · rw [← hw]
    exact h.known
  · rw [← hw]
    exact h.fits
  · rw [← walkEnd_congr entryCount 0 hin]
    exact (hfg.mono hfrom (Nat.le_refl _)).symm.blankOn h.tail

theorem ImageSound.congr (h : ImageSound P f addr) (hfg : AgreeOn f g addr (addr + 4096)) :
    ImageSound P g addr := by
  refine ⟨h.toImageFits.congr hfg, ?_⟩
  rw [← walk_congr entryCount 0 (hfg.mono (by simp only [sliceAddr]; omega) (Nat.le_refl _))]
  exact h.untorn

end Congr

section Sound
variable {P : Port} {st : Store} {s : Nat}

theorem walk_end_of_fits {f : Flash} {addr e : Nat} {L : List Entry} (hc : Chain f addr 0 L e)
    (hfits : ∀ x ∈ L, x.1 + x.2.span ≤ 127) : e ≤ 127 := by
  rcases List.eq_nil_or_concat L with rfl | ⟨M, x, rfl⟩
  · obtain rfl : 0 = e := hc
    exact Nat.zero_le _
  · rw [List.concat_eq_append] at hc hfits
    obtain ⟨m, _, hx, _, he⟩ := Chain.append_iff.mp hc
    have hf := hfits x (by simp)
    have he' : m + x.2.span = e := he
    omega

theorem markTorn_known {x : Entry} (h : x.Known) : (x.markTorn P).Known := by
  unfold Entry.markTorn
  split
  · exact Or.inr (state_droped x.2)
  · exact h

/-- Loading gives a packed sector, in which the torn items are dropped. -/
theorem ImageFits.load (h : ImageFits P st.flash (s * sectionSize)) :
    InUse P (sectorLoad P st s) s ((walk st.flash (s * sectionSize) entryCount 0).map (Entry.markTorn P)) ∧
      ((sectorLoad P st s).secArr s).address = s * sectionSize ∧
      ((sectorLoad P st s).secArr s).state = (readHeader st.flash (s * sectionSize)).state := by
  obtain ⟨hsec, hflash⟩ := sectorLoad_sector h.accepted
  obtain ⟨hw, he⟩ := walk_succ st.flash (s * sectionSize) entryCount 0 (by decide)
  rw [hw] at hsec hflash
  rw [he] at hsec
  obtain ⟨e, hchain, _, hend⟩ := walk_chain st.flash (s * sectionSize) entryCount 0 (by decide)
  have hstop := (hend (by decide)).1
  have he127 := walk_end_of_fits hchain h.fits
  have hnext : walkEnd st.flash (s * sectionSize) entryCount 0 = e := by omega
  have htail := h.tail
  rw [hnext] at hsec htail
  have hknown := h.known
  generalize hW : walk st.flash (s * sectionSize) entryCount 0 = W at *
  have hspans := hchain.spans_eq
  have hlen := hchain.length_le
  have hall : W.filter (fun x => x.Known) = W :=
    List.filter_eq_self.mpr fun x hx => by simpa using hknown x hx
  have hused := count_used (P := P) W (loadStart st s) (by simp [loadStart])
  have hhash := count_hash (P := P) W (loadStart st s) (by simp [loadStart]; omega)
  have hother := count_other (P := P) W (loadStart st s)
  rw [hall] at hused
  simp only [loadStart, Nat.zero_add, List.nil_append] at hused hhash
  have haddr : ((sectorLoad P st s).secArr s).address = s * sectionSize := by
    rw [hsec]
    exact hother.2
  have hstate : ((sectorLoad P st s).secArr s).state = (readHeader st.flash (s * sectionSize)).state := by
    rw [hsec]
    exact hother.1
  have hn : ((sectorLoad P st s).secArr s).nextFreeSlice = e := by rw [hsec]
  refine ⟨⟨⟨?_, by omega, ?_, ?_, ?_, ?_⟩, ?_, ?_, ?_⟩, haddr, hstate⟩
  · rw [hflash, haddr, hn]
    exact Chain.dropTorn (A := []) hchain
  · intro y hy
    obtain ⟨x, hx, rfl⟩ := List.mem_map.mp hy
    exact markTorn_known (hknown x hx)
  · rw [hflash, haddr, hn]
    apply AgreeOn.blankOn _ htail
    apply dropTorn_agreeOn
    intro x hx
    have hb := hchain.mem_bounds hx
    have hs := x.2.span_pos
    have hm := sliceAddr_mono (s * sectionSize) (show x.1 + 1 ≤ e by omega)
    rw [sliceAddr_add] at hm
    omega
  · rw [hn, hsec]
    simp only [loadStart]
    rw [hused]
    exact (Nat.mod_eq_of_lt (by omega)).trans (by omega)
  · rw [hsec]
    exact hhash
  · rw [hstate]
    exact h.accepted.state_ne (Or.inr (Or.inl rfl))
  · rw [hstate]
    exact h.accepted.state_ne (Or.inr (Or.inr rfl))
  · rw [hstate]
    exact fun hs => absurd hs (h.accepted.state_ne (Or.inl rfl))

theorem ImageSound.clean {f : Flash} {addr : Nat} (h : ImageSound P f addr) : ScanClean P f addr := by
  refine ⟨h.untorn, ?_⟩
  obtain ⟨e, hchain, _, hend⟩ := walk_chain f addr entryCount 0 (by decide)
  have hstop := (hend (by decide)).1
  have he := walk_end_of_fits hchain h.fits
  have hspans := hchain.spans_eq
  rw [List.filter_eq_self.mpr fun x hx => by simpa using h.known x hx]
  omega

/-- Loading a sound image gives the right number of dropped slices. -/
theorem ImageSound.load (h : ImageSound P st.flash (s * sectionSize)) :
    ∃ L, InUse P (sectorLoad P st s) s L ∧
      ((sectorLoad P st s).secArr s).dropedSlice = dropedSpans L := by
  obtain ⟨hu, _⟩ := h.toImageFits.load
  refine ⟨_, hu, ?_⟩
  have hacc := (sectorLoad_accounted_iff h.accepted).mpr h.clean
  rw [hacc.droped, hu.packed.itemsBelow_eq]

/-- An erased sector is loaded as an empty one. -/
theorem sectorLoad_blank (h : BlankOn st.flash (s * sectionSize) (s * sectionSize + 4096))
    (hnext : (st.secArr s).nextFreeSlice = 0) :
    InUse P (sectorLoad P st s) s [] ∧ ((sectorLoad P st s).secArr s).dropedSlice = 0 ∧
      ((sectorLoad P st s).secArr s).address = s * sectionSize ∧
      ((sectorLoad P st s).secArr s).state = sectorUninit := by
  have hstate : (readHeader st.flash (s * sectionSize)).state = sectorUninit :=
    h (s * sectionSize + 2) (by omega) (by omega)
  have hall : (readBytes st.flash (s * sectionSize) sectionSize).all (· == blank) = true := by
    apply List.all_eq_true.mpr
    intro b hb
    obtain ⟨k, hk, rfl⟩ := List.mem_map.mp hb
    have hk' := List.mem_range.mp hk
    simp only [sectionSize] at hk'
    exact beq_iff_eq.mpr (h _ (by omega) (by simp only [sectionSize]; omega))
  have hload : sectorLoad P st s = st.setSec s { st.secArr s with
      address := s * sectionSize, usedSlice := 0, dropedSlice := 0, hash := [],
      state := sectorUninit } := by
    unfold sectorLoad sectorCheckEmpty
    simp only [hstate, if_true, setSec_self, setSec_flash, hall]
    rw [if_neg (by decide)]
  rw [hload]
  simp only [setSec_self]
  refine ⟨⟨?_, ?_, ?_, ?_⟩, trivial, trivial, trivial⟩
  · rw [setSec_self]
    exact packed_nil P hnext rfl rfl (h.mono (by simp) (Nat.le_refl _))
  · rw [setSec_self]
    exact fun hs : sectorUninit = sectorCrash => absurd hs (by decide)
  · rw [setSec_self]
    exact fun hs : sectorUninit = sectorInvalid => absurd hs (by decide)
  · rw [setSec_self]
    exact fun _ => h

end Sound

/-! ## Loading all sectors -/

/-- A mount before recovery: every sector is loaded. -/
def loadAll (P : Port) (flash : Flash) (n : Nat) : Store :=
  (List.range n).foldl (sectorLoad P) (Store.unmounted flash n)

/-- `t` was loaded from `flash` by itself. -/
def LoadedAt (P : Port) (flash : Flash) (st : Store) (t : Nat) : Prop :=
  ∃ st₀, st₀.secArr t = {} ∧ AgreeOn flash st₀.flash (t * sectionSize) (t * sectionSize + 4096) ∧
    SameAt (sectorLoad P st₀ t) st t

/-- After the first `k` sectors of `flash` are loaded. -/
structure Loading (P : Port) (flash : Flash) (n k : Nat) (st : Store) : Prop where
  secNum : st.secNum = n
  pending : ∀ t, k ≤ t → st.secArr t = {} ∧
    AgreeOn flash st.flash (t * sectionSize) (t * sectionSize + 4096)
  loaded : ∀ t < k, LoadedAt P flash st t

section All
variable {P : Port} {flash : Flash} {n k : Nat} {st : Store}

theorem Loading.step (h : Loading P flash n k st) :
    Loading P flash n (k + 1) (sectorLoad P st k) := by
  have hl := sectorLoad_loads P st k
  have hoff : ∀ t, t ≠ k → AgreeOn st.flash (sectorLoad P st k).flash (t * sectionSize)
      (t * sectionSize + 4096) := by
    intro t ht
    apply (hl.flash _).symm
    simp only [sectionSize]
    omega
  refine ⟨hl.secNum.trans h.secNum, ?_, ?_⟩
  · intro t ht
    obtain ⟨hsec, hf⟩ := h.pending t (by omega)
    have hne : t ≠ k := by omega
    exact ⟨(hl.others t hne).trans hsec, hf.trans (hoff t hne)⟩
  · intro t ht
    by_cases hk : t = k
    · obtain ⟨hsec, hf⟩ := h.pending k (Nat.le_refl k)
      rw [hk]
      exact ⟨st, hsec, hf, SameAt.refl _ _⟩
    · obtain ⟨st₀, hsec, hf, hsame⟩ := h.loaded t (by omega)
      refine ⟨st₀, hsec, hf, hsame.trans ⟨hl.others t hk, ?_⟩⟩
      rw [hsame.secArr, sectorLoad_address]
      exact hoff t hk

theorem Loading.start (P : Port) (flash : Flash) (n : Nat) :
    Loading P flash n 0 (Store.unmounted flash n) where
  secNum := rfl
  pending := fun _ _ => ⟨rfl, AgreeOn.refl _ _ _⟩
  loaded := fun _ ht => absurd ht (Nat.not_lt_zero _)

theorem loadAll_loading (P : Port) (flash : Flash) (n : Nat) : Loading P flash n n (loadAll P flash n) := by
  have h : ∀ k, Loading P flash n k ((List.range k).foldl (sectorLoad P) (Store.unmounted flash n)) := by
    intro k
    induction k with
    | zero => exact .start P flash n
    | succ k ih =>
      rw [List.range_succ, List.foldl_append]
      exact ih.step
  exact h n

/-! What a sector loaded by itself holds. -/

theorem LoadedAt.address {t : Nat} (h : LoadedAt P flash st t) : (st.secArr t).address = t * sectionSize := by
  obtain ⟨st₀, _, _, hsame⟩ := h
  rw [hsame.secArr, sectorLoad_address]

theorem HeaderRefused.congr {f g : Flash} {addr : Nat} (h : HeaderRefused P f addr)
    (hfg : AgreeOn f g addr (addr + 4096)) : HeaderRefused P g addr := by
  unfold HeaderRefused at h ⊢
  rwa [← readHeader_congr hfg]

theorem HeaderRefused.not_accepted {f : Flash} {addr : Nat} (h : HeaderRefused P f addr) :
    ¬ HeaderAccepted P f addr := by
  intro (ha : HeaderAccepted P f addr)
  have ha' := ha
  obtain ⟨_, hmagic, hcrc, hver⟩ := ha
  rcases h with hr | hr | hr | hr | hr | hr
  · exact HeaderAccepted.state_ne ha' (Or.inl rfl) hr
  · exact hr hmagic
  · exact hr hcrc
  · exact hr hver
  · exact HeaderAccepted.state_ne ha' (Or.inr (Or.inl rfl)) hr
  · exact HeaderAccepted.state_ne ha' (Or.inr (Or.inr rfl)) hr

theorem LoadedAt.fits {t : Nat} (h : LoadedAt P flash st t) (hi : ImageFits P flash (t * sectionSize)) :
    ∃ L, InUse P st t L ∧ (st.secArr t).state = (readHeader flash (t * sectionSize)).state := by
  obtain ⟨st₀, _, hf, hsame⟩ := h
  obtain ⟨hu, _, hs⟩ := (hi.congr hf).load
  exact ⟨_, hsame.inUse hu, by rw [hsame.secArr, hs, readHeader_congr hf]⟩

theorem LoadedAt.sound {t : Nat} (h : LoadedAt P flash st t) (hi : ImageSound P flash (t * sectionSize)) :
    ∃ L, InUse P st t L ∧ (st.secArr t).dropedSlice = dropedSpans L := by
  obtain ⟨st₀, _, hf, hsame⟩ := h
  obtain ⟨L, hL, hd⟩ := (hi.congr hf).load
  exact ⟨L, hsame.inUse hL, by rw [hsame.secArr, hd]⟩

/-- An empty sector has no dropped slices. -/
theorem LoadedAt.empty {t : Nat} (h : LoadedAt P flash st t) (hi : ImageFits P flash (t * sectionSize))
    (hu : InUse P st t []) : (st.secArr t).dropedSlice = 0 := by
  obtain ⟨st₀, hsec, hf, hsame⟩ := h
  have hL := hsame.inUse (hi.congr hf).load.1
  have hnil : walk st₀.flash (t * sectionSize) entryCount 0 = [] := by
    rw [← List.map_eq_nil_iff (f := Entry.markTorn P), ← hL.items_eq, hu.items_eq]
  have hsound : ImageSound P st₀.flash (t * sectionSize) := ⟨hi.congr hf, by simp [hnil]⟩
  obtain ⟨L, hL', hd⟩ := hsound.load
  have hLnil : L = [] := by rw [← (hsame.inUse hL').items_eq, hu.items_eq]
  rw [hsame.secArr, hd, hLnil]
  rfl

theorem LoadedAt.blank {t : Nat} (h : LoadedAt P flash st t)
    (hb : BlankOn flash (t * sectionSize) (t * sectionSize + 4096)) :
    InUse P st t [] ∧ (st.secArr t).dropedSlice = 0 ∧ (st.secArr t).state = sectorUninit := by
  obtain ⟨st₀, hsec, hf, hsame⟩ := h
  obtain ⟨hu, hd, _, hs⟩ := sectorLoad_blank (P := P) (hf.symm.blankOn hb) (by rw [hsec])
  exact ⟨hsame.inUse hu, by rw [hsame.secArr, hd], by rw [hsame.secArr, hs]⟩

theorem LoadedAt.refused {t : Nat} (h : LoadedAt P flash st t)
    (hr : HeaderRefused P flash (t * sectionSize)) : (st.secArr t).Dead ∧
      ((st.secArr t).state = sectorUninit → InUse P st t [] ∧ (st.secArr t).dropedSlice = 0) := by
  have h' := h
  obtain ⟨st₀, _, hf, hsame⟩ := h
  have hr₀ := hr.congr hf
  obtain ⟨sec, heq, _, hdead, hfresh⟩ := sectorLoad_refused hr₀.not_accepted
  have hsec : st.secArr t = sec := by rw [hsame.secArr, heq, setSec_self]
  rw [hsec]
  refine ⟨hdead hr₀, fun hs => ?_⟩
  obtain ⟨hu, hd, _⟩ := h'.blank (hf.blankOn (hfresh hs))
  exact ⟨hu, by rw [← hsec, hd]⟩

end All

end WmIot.Nvs
