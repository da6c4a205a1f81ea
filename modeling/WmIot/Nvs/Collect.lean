import WmIot.Nvs.Tidy

/-!
# Requesting a sector

`wm_nvs_sm_request_sector` either activates an idle sector or collects: the sector with the
most to gain is copied into the last idle one, erased and put on the idle list. Both keep the
store tidy and its records as they are.
-/

namespace WmIot.Nvs
open NorFlash
set_option autoImplicit false

/-! ## Where events go -/

/-- The event stays inside a sector that is active at that moment. -/
def Event.OnActive (ev : Event) : Prop :=
  ∃ s ∈ ev.active, ∀ a, ev.op.Touches a → s * 4096 ≤ a ∧ a < s * 4096 + 4096

/-- The two events of `wm_nvs_sector_erase`. -/
def eraseEvents (active : List Nat) (s : Nat) : List Event :=
  [⟨.program (s * 4096 + 2) [sectorCrash], active⟩, ⟨.erase (s * 4096) 4096, active⟩]

/-- Every event stays inside an active sector, up to the erasing of a sector. -/
inductive WellPlaced : List Event → Prop where
  | nil : WellPlaced []
  | cons {ev : Event} {evs : List Event} (h : ev.OnActive) (hs : WellPlaced evs) : WellPlaced (ev :: evs)
  | erase (active : List Nat) (s : Nat) {evs : List Event} (hs : WellPlaced evs) :
      WellPlaced (eraseEvents active s ++ evs)

theorem WellPlaced.append {xs ys : List Event} (hx : WellPlaced xs) (hy : WellPlaced ys) :
    WellPlaced (xs ++ ys) := by
  induction hx with
  | nil => exact hy
  | cons h _ ih => exact .cons h ih
  | erase active s _ ih =>
    rw [List.append_assoc]
    exact .erase active s ih

theorem WellPlaced.of_forall {evs : List Event} (h : ∀ ev ∈ evs, ev.OnActive) : WellPlaced evs := by
  induction evs with
  | nil => exact .nil
  | cons ev evs ih =>
    exact .cons (h ev List.mem_cons_self) (ih fun e he => h e (List.mem_cons_of_mem ev he))

theorem sectorErase_trace {st : Store} {s : Nat} (h : (st.secArr s).address = s * 4096) :
    Trace st (sectorErase st s) (eraseEvents st.active s) where
  log := by simp [sectorErase, sectorSetState, eraseEvents, Store.ptErase, h]
  flash := by simp [sectorErase, sectorSetState, eraseEvents, Store.ptErase, h, Op.apply]

/-! ## What grows -/

/-- Sector `t` is erased by one of the events. -/
def Erases (evs : List Event) (t : Nat) : Prop := ∃ ev ∈ evs, ev.op = .erase (t * 4096) 4096

/-- Sector `t` keeps its entries with their values; new ones come behind them. -/
structure Extends (st st' : Store) (t : Nat) : Prop where
  active : t ∈ st'.active
  items : ∃ M, st'.items t = st.items t ++ M
  value : ∀ x ∈ st.items t,
    entryData st'.flash (st'.secArr t).address x = entryData st.flash (st.secArr t).address x

/-- `st'` comes from `st` by well placed events; what they do not erase is still there. -/
structure Grows (st st' : Store) : Prop where
  secNum : st'.secNum = st.secNum
  groups : st'.groupList = st.groupList
  trace : ∃ evs, Trace st st' evs ∧ WellPlaced evs ∧
    ∀ t ∈ st.active, ¬ Erases evs t → Extends st st' t

theorem Extends.refl {st : Store} {t : Nat} (h : t ∈ st.active) : Extends st st t :=
  ⟨h, ⟨[], (List.append_nil _).symm⟩, fun _ _ => rfl⟩

theorem Extends.trans {st₁ st₂ st₃ : Store} {t : Nat} (h : Extends st₁ st₂ t) (h' : Extends st₂ st₃ t) :
    Extends st₁ st₃ t where
  active := h'.active
  items := by
    obtain ⟨M, hM⟩ := h.items
    obtain ⟨N, hN⟩ := h'.items
    exact ⟨M ++ N, by rw [hN, hM, List.append_assoc]⟩
  value := by
    intro x hx
    obtain ⟨M, hM⟩ := h.items
    rw [h'.value x (by rw [hM]; exact List.mem_append_left M hx), h.value x hx]

theorem Grows.refl (st : Store) : Grows st st :=
  ⟨rfl, rfl, [], Trace.refl st, .nil, fun _ ht _ => .refl ht⟩

theorem Grows.trans {st₁ st₂ st₃ : Store} (h : Grows st₁ st₂) (h' : Grows st₂ st₃) : Grows st₁ st₃ where
  secNum := h'.secNum.trans h.secNum
  groups := h'.groups.trans h.groups
  trace := by
    obtain ⟨xs, hx, hwx, hex⟩ := h.trace
    obtain ⟨ys, hy, hwy, hey⟩ := h'.trace
    refine ⟨xs ++ ys, hx.trans hy, hwx.append hwy, ?_⟩
    intro t ht hne
    have h₁ := hex t ht fun ⟨ev, hev, hop⟩ => hne ⟨ev, List.mem_append_left ys hev, hop⟩
    exact h₁.trans (hey t h₁.active fun ⟨ev, hev, hop⟩ => hne ⟨ev, List.mem_append_right xs hev, hop⟩)

/-- The events of a change inside an active sector are well placed. -/
theorem Local.wellPlaced {st st' : Store} {s : Nat} (h : Local s st st') (hs : s ∈ st.active)
    (ha : (st.secArr s).address = s * 4096) :
    ∃ evs, Trace st st' evs ∧ WellPlaced evs ∧ ∀ ev ∈ evs, ev.active = st.active := by
  obtain ⟨evs, ht, hin⟩ := h.events
  refine ⟨evs, ht, .of_forall ?_, fun ev hev => (hin ev hev).1⟩
  intro ev hev
  refine ⟨s, by rw [(hin ev hev).1]; exact hs, ?_⟩
  intro a hta
  have hb := (hin ev hev).2 a hta
  rwa [ha] at hb

/-- A change inside an active sector that only adds entries. -/
theorem Tidy.grows_local {P : Port} {st st' : Store} {s : Nat} (ht : Tidy P st) (hl : Local s st st')
    (hs : s ∈ st.active) (hitems : ∃ M, st'.items s = st.items s ++ M)
    (hval : ∀ x ∈ st.items s,
      entryData st'.flash (st'.secArr s).address x = entryData st.flash (st.secArr s).address x) :
    Grows st st' where
  secNum := hl.secNum
  groups := hl.groups
  trace := by
    have hmem : s ∈ st.active ++ st.idle := List.mem_append_left _ hs
    obtain ⟨evs, htr, hw, _⟩ := hl.wellPlaced hs (ht.address s hmem)
    refine ⟨evs, htr, hw, ?_⟩
    intro t hta _
    have hact : t ∈ st'.active := by rwa [hl.active]
    by_cases hne : t = s
    · subst hne
      exact ⟨hact, hitems, hval⟩
    · obtain ⟨L, hL⟩ := ht.active t hta
      have hsame := ht.sameAt hl hmem (List.mem_append_left _ hta) hne
      refine ⟨hact, ⟨[], by rw [hsame.items hL, List.append_nil]⟩, ?_⟩
      intro x hx
      rw [hL.items_eq] at hx
      exact hsame.value hL hx

/-! ## Taking an idle sector -/

section Activate
variable {P : Port} {st st' : Store} {s d : Nat} {rest : List Nat}

/-- Tidiness only depends on which sectors are in use and which are spare. -/
theorem Arranged.rearrange (h : Arranged P st)
    (hperm : (st'.active ++ st'.idle).Perm (st.active ++ st.idle)) (hnum : st'.secNum = st.secNum)
    (haddr : ∀ s ∈ st.active ++ st.idle, (st'.secArr s).address = (st.secArr s).address)
    (hne : st'.active ≠ []) (hactive : ∀ s ∈ st'.active, ∃ L, InUse P st' s L)
    (hidle : ∀ s ∈ st'.idle, Spare P st' s) : Tidy P st' where
  nodup := hperm.nodup_iff.mpr h.nodup
  inRange := by
    intro s hs
    rw [hnum]
    exact h.inRange s (hperm.mem_iff.mp hs)
  address := by
    intro s hs
    rw [haddr s (hperm.mem_iff.mp hs)]
    exact h.address s (hperm.mem_iff.mp hs)
  nonempty := hne
  active := hactive
  idle := hidle

/-- An erased sector is empty. -/
theorem sectorErase_inUse (P : Port) (st : Store) (s : Nat) :
    InUse P (sectorErase st s) s [] ∧ ((sectorErase st s).secArr s).dropedSlice = 0 ∧
      ((sectorErase st s).secArr s).state = sectorUninit := by
  have hb := sectorErase_blank st s
  rw [sectorErase_secArr]
  refine ⟨⟨?_, ?_, ?_, ?_⟩, rfl, rfl⟩
  · rw [sectorErase_secArr]
    exact packed_nil P rfl rfl rfl (hb.mono (by simp) (Nat.le_refl _))
  · rw [sectorErase_secArr]
    exact fun hs : sectorUninit = sectorCrash => absurd hs (by decide)
  · rw [sectorErase_secArr]
    exact fun hs : sectorUninit = sectorInvalid => absurd hs (by decide)
  · rw [sectorErase_secArr]
    exact fun _ => hb

theorem InUse.of_serial {L : List Entry} (h : InUse P st s L) (sn : Nat) :
    InUse P (st.setSec s { st.secArr s with serialNumber := sn }) s L := by
  have hp := h.packed
  constructor
  · rw [setSec_self]
    exact ⟨hp.chain, hp.fits, hp.known, hp.tail, hp.used, hp.hash⟩
  · rw [setSec_self]
    exact h.crash
  · rw [setSec_self]
    exact h.invalid
  · rw [setSec_self]
    exact h.fresh

/-- The store whose lists are changed has the same sectors. -/
theorem InUse.of_lists {L : List Entry} (h : InUse P st s L) (hf : st'.flash = st.flash)
    (hsec : st'.secArr s = st.secArr s) : InUse P st' s L where
  packed := by
    rw [hf, hsec]
    exact h.packed
  crash := by
    rw [hsec]
    exact h.crash
  invalid := by
    rw [hsec]
    exact h.invalid
  fresh := by
    rw [hf, hsec]
    exact h.fresh

/-- `sm_active_sector` puts the first idle sector, empty, at the end of the active list. -/
theorem Arranged.activate (h : Arranged P st) (hidle : st.idle = s :: rest) :
    ∃ st', smActiveSector st = (.ok, st') ∧ Tidy P st' ∧ st'.active = st.active ++ [s] ∧
      st'.idle = rest ∧ st'.secNum = st.secNum ∧ st'.groupList = st.groupList ∧
      InUse P st' s [] ∧ (∀ t ∈ st.active ++ st.idle, t ≠ s → SameAt st st' t) ∧
      ∃ evs, Trace st st' evs ∧ (evs = [] ∨ evs = eraseEvents st.active s) := by
  have hs : s ∈ st.active ++ st.idle := by
    rw [hidle]
    simp
  have hsi : s ∈ st.idle := by
    rw [hidle]
    exact List.mem_cons_self
  obtain ⟨st₁, hst₁, hl, hu, hev⟩ : ∃ st₁, st₁ = (if (st.secArr s).state = sectorCrash ∨
      (st.secArr s).state = sectorInvalid then sectorErase st s else st) ∧ Local s st st₁ ∧
      InUse P st₁ s [] ∧ ∃ evs, Trace st st₁ evs ∧ (evs = [] ∨ evs = eraseEvents st.active s) := by
    refine ⟨_, rfl, ?_⟩
    split
    · exact ⟨sectorErase_local st s, (sectorErase_inUse P st s).1, _,
        sectorErase_trace (h.address s hs), Or.inr rfl⟩
    · rename_i hn
      exact ⟨Local.refl s st, ((h.idle s hsi).resolve_left hn).1, [], Trace.refl st, Or.inl rfl⟩
  refine ⟨_, by rw [smActiveSector, hidle], ?_⟩
  simp only [← hst₁]
  have hu₂ := hu.of_serial st₁.serialNumber
  have hl₂ : Local s st (st₁.setSec s { st₁.secArr s with serialNumber := st₁.serialNumber }) :=
    hl.trans (Local.setSec st₁ s _ rfl)
  have hsame : ∀ t ∈ st.active ++ st.idle, t ≠ s →
      SameAt st (st₁.setSec s { st₁.secArr s with serialNumber := st₁.serialNumber }) t :=
    fun t ht hne => h.sameAt hl₂ hs ht hne
  have hne_of_active : ∀ t ∈ st.active, t ≠ s := by
    rintro t ht rfl
    exact (List.nodup_append.mp h.nodup).2.2 t ht t hsi rfl
  have hne_of_rest : ∀ t ∈ rest, t ≠ s := by
    rintro t ht rfl
    have hnd := (List.nodup_append.mp h.nodup).2.1
    rw [hidle] at hnd
    exact (List.nodup_cons.mp hnd).1 ht
  refine ⟨?_, by simp [hl.active], trivial, hl.secNum, hl.groups, hu₂.of_lists rfl rfl, ?_, ?_⟩
  · apply h.rearrange
    · simp [hl.active, hidle]
    · exact hl.secNum
    · intro t ht
      by_cases hne : t = s
      · rw [hne]
        exact hl₂.address
      · exact congrArg Sector.address (hl₂.others t hne)
    · simp
    · intro t ht
      simp only [setSec_active, hl.active, List.mem_append, List.mem_singleton] at ht
      rcases ht with ht | rfl
      · obtain ⟨L, hL⟩ := h.active t ht
        exact ⟨L, ((hsame t (List.mem_append_left _ ht) (hne_of_active t ht)).inUse hL).of_lists rfl rfl⟩
      · exact ⟨[], hu₂.of_lists rfl rfl⟩
    · intro t ht
      have hti : t ∈ st.idle := by
        rw [hidle]
        exact List.mem_cons_of_mem s ht
      have hsp := (hsame t (List.mem_append_right _ hti) (hne_of_rest t ht)).spare (h.idle t hti)
      rcases hsp with hc | ⟨hu, hd⟩
      · exact Or.inl hc
      · exact Or.inr ⟨hu.of_lists rfl rfl, hd⟩
  · intro t ht hne
    exact ⟨(hsame t ht hne).secArr, (hsame t ht hne).flash⟩
  · obtain ⟨evs, htr, hor⟩ := hev
    exact ⟨evs, ⟨htr.log, htr.flash⟩, hor⟩

end Activate

/-! ## Collecting a sector -/

section Collect
variable {P : Port} {st st' : Store} {n d : Nat}

/-- The active sector `d` is erased and moved to the end of the idle list. -/
def retireSector (st : Store) (d : Nat) : Store :=
  let st := sectorErase st d
  { st with active := st.active.erase d, idle := st.idle ++ [d] }

theorem Tidy.retire (h : Tidy P st) (hd : d ∈ st.active) (hne : st.active.erase d ≠ []) :
    Tidy P (retireSector st d) ∧
      (∀ t ∈ st.active ++ st.idle, t ≠ d → SameAt st (retireSector st d) t) := by
  have hmem : d ∈ st.active ++ st.idle := List.mem_append_left _ hd
  have hl := sectorErase_local st d
  have hu := sectorErase_inUse P st d
  have hnd := (List.nodup_append.mp h.nodup)
  have hsame : ∀ t ∈ st.active ++ st.idle, t ≠ d → SameAt st (sectorErase st d) t :=
    fun t ht hne => h.sameAt hl hmem ht hne
  refine ⟨?_, fun t ht hne => ⟨(hsame t ht hne).secArr, (hsame t ht hne).flash⟩⟩
  apply h.rearrange
  · simp only [retireSector, hl.active, hl.idle]
    have hp := List.perm_cons_erase hd
    apply List.Perm.trans _ (hp.symm.append_right st.idle)
    rw [← List.append_assoc]
    exact List.perm_append_comm
  · exact hl.secNum
  · intro t ht
    by_cases htd : t = d
    · rw [htd]
      exact hl.address
    · exact congrArg Sector.address (hl.others t htd)
  · simpa only [retireSector, hl.active] using hne
  · intro t ht
    simp only [retireSector, hl.active] at ht
    have hta := List.mem_of_mem_erase ht
    have htd : t ≠ d := by
      rintro rfl
      exact (hnd.1.not_mem_erase) ht
    obtain ⟨L, hL⟩ := h.active t hta
    exact ⟨L, ((hsame t (List.mem_append_left _ hta) htd).inUse hL).of_lists rfl rfl⟩
  · intro t ht
    simp only [retireSector, hl.idle, List.mem_append, List.mem_singleton] at ht
    rcases ht with ht | rfl
    · have htd : t ≠ d := by
        rintro rfl
        exact hnd.2.2 t hd t ht rfl
      rcases (hsame t (List.mem_append_right _ ht) htd).spare (h.idle t ht) with hc | ⟨hu, hz⟩
      · exact Or.inl hc
      · exact Or.inr ⟨hu.of_lists rfl rfl, hz⟩
    · exact Or.inr ⟨hu.1.of_lists rfl rfl, hu.2.1⟩

theorem retireSector_trace (ha : (st.secArr d).address = d * 4096) :
    Trace st (retireSector st d) (eraseEvents st.active d) :=
  ⟨(sectorErase_trace ha).log, (sectorErase_trace ha).flash⟩

/-- The copy into `n` and the erasing of `d` that end a collection. -/
theorem Tidy.finish (h : Tidy P st) (hn : n ∈ st.active) (hd : d ∈ st.active) (hne : n ≠ d)
    (hempty : InUse P st n []) (hready : (st.secArr n).state ≠ sectorUninit) :
    ∃ st', smFinishCollection P st n d = (.ok, st') ∧ Tidy P st' ∧
      st'.active = st.active.erase d ∧ st'.idle = st.idle ++ [d] ∧ st'.secNum = st.secNum ∧
      st'.groupList = st.groupList ∧ st'.sectorRecords n = st.sectorRecords d ∧
      (∀ t ∈ st.active ++ st.idle, t ≠ n → t ≠ d → SameAt st st' t) ∧
      ∃ evs, Trace st st' (evs ++ eraseEvents st.active d) ∧ WellPlaced evs := by
  have hmn : n ∈ st.active ++ st.idle := List.mem_append_left _ hn
  have hmd : d ∈ st.active ++ st.idle := List.mem_append_left _ hd
  obtain ⟨L, hL⟩ := h.active d hd
  obtain ⟨st₁, hrun, hl, hp, hrec, hstate, _⟩ := sectorCopy_spec hL.packed hempty.packed hne
    (h.disjoint hmd hmn hne) (h.inSize hmn) (h.inSize hmd)
  have hu : InUse P st₁ n (placed 0 (liveItems L)) :=
    ⟨hp, by rw [hstate]; exact hempty.crash, by rw [hstate]; exact hempty.invalid,
      by rw [hstate]; exact fun hs => absurd hs hready⟩
  have ht₁ := h.of_local hl hn ⟨_, hu⟩
  have hd₁ : d ∈ st₁.active := by rwa [hl.active]
  have hn₁ : n ∈ st₁.active.erase d := by
    rw [hl.active]
    exact (List.mem_erase_of_ne hne).mpr hn
  obtain ⟨ht₂, hsame⟩ := ht₁.retire hd₁ (List.ne_nil_of_mem hn₁)
  obtain ⟨evs, htr, hw, _⟩ := hl.wellPlaced hn (h.address n hmn)
  have haddr : (st₁.secArr d).address = d * 4096 := ht₁.address d (List.mem_append_left _ hd₁)
  have hsn := hsame n (List.mem_append_left _ (by rwa [hl.active])) hne
  refine ⟨retireSector st₁ d, ?_, ht₂, ?_, ?_, ?_, ?_, ?_, ?_, evs, ?_, hw⟩
  · rw [smFinishCollection, hrun]
    rfl
  · simp only [retireSector, (sectorErase_local st₁ d).active, hl.active]
  · simp only [retireSector, (sectorErase_local st₁ d).idle, hl.idle]
  · exact (sectorErase_local st₁ d).secNum.trans hl.secNum
  · exact (sectorErase_local st₁ d).groups.trans hl.groups
  · rw [hsn.sectorRecords hu]
    unfold Store.sectorRecords
    rw [hu.items_eq, hL.items_eq, hl.address]
    exact hrec
  · intro t ht htn htd
    exact (h.sameAt hl hmn ht htn).trans (hsame t (by rwa [hl.active, hl.idle]) htd)
  · have htr₂ := retireSector_trace haddr
    rw [hl.active] at htr₂
    exact htr.trans htr₂

/-- A new last sector with its header written. -/
theorem Tidy.newSector (h : Tidy P st) {rest : List Nat} (hidle : st.idle = n :: rest) :
    ∃ st', smNewSector P st = (.ok, st', n) ∧ Tidy P st' ∧ st'.active = st.active ++ [n] ∧
      st'.idle = rest ∧ st'.secNum = st.secNum ∧ st'.groupList = st.groupList ∧
      InUse P st' n [] ∧ (st'.secArr n).state ≠ sectorUninit ∧
      (∀ t ∈ st.active ++ st.idle, t ≠ n → SameAt st st' t) ∧
      ∃ evs, Trace st st' evs ∧ WellPlaced evs := by
  obtain ⟨st₁, hrun, ht, hact, hid, hnum, hgr, hu, hsame, evs, htr, hevs⟩ := h.activate hidle
  have hn₁ : n ∈ st₁.active := by
    rw [hact]
    simp
  have hmem : n ∈ st₁.active ++ st₁.idle := List.mem_append_left _ hn₁
  have hcur : st₁.currentSector = some n := by
    rw [Store.currentSector, hact]
    simp
  have hl := readySector_local P st₁ n
  obtain ⟨hr, hready⟩ := hu.ready
  have hperm : st₁.active ++ st₁.idle = st.active ++ st.idle := by
    rw [hact, hid, hidle]
    simp
  obtain ⟨ys, htr', hw, _⟩ := hl.wellPlaced hn₁ (ht.address n hmem)
  refine ⟨readySector P st₁ n, ?_, ht.of_local hl hn₁ ⟨[], hr⟩, by rw [hl.active, hact],
    by rw [hl.idle, hid], by rw [hl.secNum, hnum], by rw [hl.groups, hgr], hr, hready, ?_,
    evs ++ ys, htr.trans htr', ?_⟩
  · rw [smNewSector, hrun]
    simp only [hcur]
    rfl
  · intro t htm hne
    exact (hsame t htm hne).trans (ht.sameAt hl hmem (by rwa [hperm]) hne)
  · rcases hevs with rfl | rfl
    · exact hw
    · exact .erase st.active n hw

/-- What a collection of `d` into the idle sector `n` leads to. -/
structure Collected (P : Port) (st st' : Store) (n d : Nat) : Prop where
  tidy : Tidy P st'
  mem : d ∈ st.active
  active : st'.active = st.active.erase d ++ [n]
  idle : st'.idle = [d]
  secNum : st'.secNum = st.secNum
  groups : st'.groupList = st.groupList
  moved : st'.sectorRecords n = st.sectorRecords d
  same : ∀ t ∈ st.active, t ≠ d → SameAt st st' t
  trace : ∃ evs, Trace st st' (evs ++ eraseEvents (st.active ++ [n]) d) ∧ WellPlaced evs

theorem InUse.setState {L : List Entry} (h : InUse P st d L) :
    InUse P (sectorSetState st d sectorDeletting) d L where
  packed := sectorSetState_packed h.packed sectorDeletting
  crash := by
    rw [sectorSetState_secArr]
    exact fun hs : sectorDeletting = sectorCrash => absurd hs (by decide)
  invalid := by
    rw [sectorSetState_secArr]
    exact fun hs : sectorDeletting = sectorInvalid => absurd hs (by decide)
  fresh := by
    rw [sectorSetState_secArr]
    exact fun hs : sectorDeletting = sectorUninit => absurd hs (by decide)

/-- A change of the state leaves the records of a sector alone. -/
theorem InUse.setState_records {L : List Entry} (h : InUse P st d L) :
    (sectorSetState st d sectorDeletting).sectorRecords d = st.sectorRecords d := by
  unfold Store.sectorRecords
  rw [h.setState.items_eq, h.items_eq, sectorSetState_secArr]
  apply recordsOf_congr
  intro x hx
  apply entryData_congr h.packed.chain hx
  apply AgreeOn.symm
  apply AgreeOn.program
  right
  simp only [sliceAddr, sliceSize, List.length_singleton]
  omega

theorem Tidy.collect (h : Tidy P st) (hidle : st.idle = [n]) (hd : d ∈ st.active) :
    ∃ st₁ st', smNewSector P st = (.ok, st₁, n) ∧
      smFinishCollection P (sectorSetState st₁ d sectorDeletting) n d = (.ok, st') ∧
      Collected P st st' n d := by
  obtain ⟨st₁, hrun, ht, hact, hid, hnum, hgr, hu, hready, hsame, xs, htr, hw⟩ := h.newSector hidle
  have hni : n ∈ st.idle := by
    rw [hidle]
    exact List.mem_cons_self
  have hnd : ∀ t ∈ st.active, t ≠ n := by
    rintro t ht rfl
    exact (List.nodup_append.mp h.nodup).2.2 t ht t hni rfl
  have hd₁ : d ∈ st₁.active := by
    rw [hact]
    exact List.mem_append_left _ hd
  have hn₁ : n ∈ st₁.active := by
    rw [hact]
    simp
  have hmd := List.mem_append_left st₁.idle hd₁
  have hmn := List.mem_append_left st₁.idle hn₁
  obtain ⟨L, hL⟩ := ht.active d hd₁
  have hl := sectorSetState_local st₁ d sectorDeletting
  have ht₂ := ht.of_local hl hd₁ ⟨L, hL.setState⟩
  have hsn := ht.sameAt hl hmd hmn (hnd d hd).symm
  obtain ⟨st', hfin, ht', hact', hid', hnum', hgr', hrec, hsame', ys, htr', hw'⟩ :=
    ht₂.finish (n := n) (d := d) (by rwa [hl.active]) (by rwa [hl.active]) (hnd d hd).symm
      (hsn.inUse hu) (by rw [hsn.secArr]; exact hready)
  obtain ⟨zs, htz, hwz, _⟩ := hl.wellPlaced hd₁ (ht.address d hmd)
  refine ⟨st₁, st', hrun, hfin, ht', hd, ?_, ?_, ?_, ?_, ?_, ?_, xs ++ (zs ++ ys), ?_, ?_⟩
  · rw [hact', hl.active, hact, List.erase_append_left _ hd]
  · rw [hid', hl.idle, hid]
    rfl
  · rw [hnum', hl.secNum, hnum]
  · rw [hgr', hl.groups, hgr]
  · obtain ⟨M, hM⟩ := h.active d hd
    rw [hrec, hL.setState_records,
      (hsame d (List.mem_append_left _ hd) (hnd d hd)).sectorRecords hM]
  · intro t hta htd
    have htn := hnd t hta
    have hta₁ : t ∈ st₁.active := by
      rw [hact]
      exact List.mem_append_left _ hta
    exact ((hsame t (List.mem_append_left _ hta) htn).trans
      (ht.sameAt hl hmd (List.mem_append_left _ hta₁) htd)).trans
      (hsame' t (List.mem_append_left _ (by rwa [hl.active])) htn htd)
  · have htr₂ := htr.trans (htz.trans htr')
    rw [hl.active, hact] at htr₂
    simpa only [List.append_assoc] using htr₂
  · exact hw.append (hwz.append hw')

/-- The sector picked is an active one with the most to gain; with nothing to gain none is picked. -/
theorem dirtiestSector_spec (st : Store) :
    (∃ d ∈ st.active, dirtiestSector st = (some d, (st.secArr d).gcSize) ∧ 0 < (st.secArr d).gcSize ∧
      ∀ e ∈ st.active, (st.secArr e).gcSize ≤ (st.secArr d).gcSize) ∨
    (dirtiestSector st = (none, 0) ∧ ∀ e ∈ st.active, (st.secArr e).gcSize ≤ 0) := by
  -- the best of the sectors looked at so far
  have h : ∀ (L M : List Nat) (best : Option Nat × Int), (∀ e ∈ M, (st.secArr e).gcSize ≤ best.2) →
      ((∃ d ∈ M, best = (some d, (st.secArr d).gcSize) ∧ 0 < (st.secArr d).gcSize) ∨ best = (none, 0)) →
      ∃ best', L.foldl (fun best e => if (st.secArr e).gcSize > best.2 then
          (some e, (st.secArr e).gcSize) else best) best = best' ∧
        (∀ e ∈ M ++ L, (st.secArr e).gcSize ≤ best'.2) ∧
        ((∃ d ∈ M ++ L, best' = (some d, (st.secArr d).gcSize) ∧ 0 < (st.secArr d).gcSize) ∨ best' = (none, 0)) := by
    intro L
    induction L with
    | nil =>
      intro M best hle hbest
      refine ⟨best, rfl, ?_, ?_⟩
      · rwa [List.append_nil]
      · rwa [List.append_nil]
    | cons e L ih =>
      intro M best hle hbest
      have hpos : 0 ≤ best.2 := by
        rcases hbest with ⟨d, _, hd, hgain⟩ | hnone
        · rw [hd]
          exact Int.le_of_lt hgain
        · exact Int.le_of_eq (congrArg Prod.snd hnone).symm
      rw [List.foldl_cons, List.append_cons]
      split
      next hgt =>
        apply ih
        · intro e' he'
          rcases List.mem_append.mp he' with he' | he'
          · have hb := hle e' he'
            exact Int.le_of_lt (Int.lt_of_le_of_lt hb hgt)
          · exact Int.le_of_eq (by rw [List.mem_singleton.mp he'])
        · exact Or.inl ⟨e, by simp, rfl, Int.lt_of_le_of_lt hpos hgt⟩
      next hle' =>
        apply ih
        · intro e' he'
          rcases List.mem_append.mp he' with he' | he'
          · exact hle e' he'
          · rw [List.mem_singleton.mp he']
            exact Int.not_lt.mp hle'
        · rcases hbest with ⟨d, hd, hbest⟩ | hnone
          · exact Or.inl ⟨d, List.mem_append_left _ hd, hbest⟩
          · exact Or.inr hnone
  obtain ⟨best, hfold, hle, hbest⟩ := h st.active [] (none, 0) (by simp) (Or.inr rfl)
  rw [List.nil_append] at hle hbest
  rcases hbest with ⟨d, hd, rfl, hgain⟩ | rfl
  · exact Or.inl ⟨d, hd, hfold, hgain, hle⟩
  · exact Or.inr ⟨hfold, hle⟩

theorem dirtiestSector_cases (st : Store) :
    (∃ d g, dirtiestSector st = (some d, g) ∧ d ∈ st.active) ∨ dirtiestSector st = (none, 0) := by
  rcases dirtiestSector_spec st with ⟨d, hd, hpick, _⟩ | ⟨hnone, _⟩
  · exact Or.inl ⟨d, _, hpick, hd⟩
  · exact Or.inr hnone

/-- What `wm_nvs_sm_request_sector` can do. -/
inductive Requested (P : Port) (st st' : Store) : Err → Prop where
  | refused {err : Err} (herr : err ≠ .ok) (hst : st' = st) : Requested P st st' err
  | activated (n : Nat) (htidy : Tidy P st') (hactive : st'.active = st.active ++ [n])
      (hempty : InUse P st' n []) (hsame : ∀ t ∈ st.active, SameAt st st' t)
      (hnum : st'.secNum = st.secNum) (hgroups : st'.groupList = st.groupList)
      (hidle : st.idle = n :: st'.idle)
      (htrace : ∃ evs, Trace st st' evs ∧ WellPlaced evs) : Requested P st st' .ok
  | collected (n d : Nat) (hidle : st.idle = [n]) (h : Collected P st st' n d) : Requested P st st' .ok

theorem Tidy.request (h : Tidy P st) {need : Nat} (hneed : 0 < need) {err : Err}
    (hrun : smRequestSector P st need = (err, st')) : Requested P st st' err := by
  unfold smRequestSector at hrun
  cases hidle : st.idle with
  | nil =>
    rw [hidle] at hrun
    obtain ⟨rfl, rfl⟩ := Prod.mk.inj hrun
    exact .refused (by decide) rfl
  | cons n rest =>
    rw [hidle, if_neg (by simp)] at hrun
    cases rest with
    | nil =>
      rw [if_pos (List.length_singleton), smGarbageCollection] at hrun
      rcases dirtiestSector_cases st with ⟨d, g, hd, hmem⟩ | hnone
      · simp only [hd] at hrun
        split at hrun
        · obtain ⟨st₁, st₂, hnew, hfin, hc⟩ := h.collect hidle hmem
          simp only [hnew, hfin] at hrun
          obtain ⟨rfl, rfl⟩ := Prod.mk.inj hrun
          exact .collected n d hidle hc
        · obtain ⟨rfl, rfl⟩ := Prod.mk.inj hrun
          exact .refused (by decide) rfl
      · simp only [hnone] at hrun
        rw [if_neg (by omega)] at hrun
        obtain ⟨rfl, rfl⟩ := Prod.mk.inj hrun
        exact .refused (by decide) rfl
    | cons m rest =>
      rw [if_neg (by simp)] at hrun
      obtain ⟨st₁, hact, ht, hactive, hid, hnum, hgr, hu, hsame, evs, htr, hevs⟩ := h.activate hidle
      rw [hact] at hrun
      obtain ⟨rfl, rfl⟩ := Prod.mk.inj hrun
      have hni : n ∈ st.idle := by
        rw [hidle]
        exact List.mem_cons_self
      refine .activated n ht hactive hu ?_ hnum hgr (by rw [hid, hidle]) ⟨evs, htr, ?_⟩
      · intro t hta
        apply hsame t (List.mem_append_left _ hta)
        rintro rfl
        exact (List.nodup_append.mp h.nodup).2.2 t hta t hni rfl
      · rcases hevs with rfl | rfl
        · exact .nil
        · simpa using WellPlaced.erase st.active n .nil

/-! ## What a request keeps -/

theorem Requested.tidy {err : Err} (h : Requested P st st' err) (ht : Tidy P st) : Tidy P st' := by
  cases h with
  | refused _ hst => rwa [hst]
  | activated _ htidy => exact htidy
  | collected _ _ _ h => exact h.tidy

theorem flatMap_sectorRecords {L : List Nat} (ht : Tidy P st) (hL : ∀ t ∈ L, t ∈ st.active)
    (h : ∀ t ∈ L, SameAt st st' t) : L.flatMap st'.sectorRecords = L.flatMap st.sectorRecords := by
  apply List.flatMap_congr
  intro t htL
  obtain ⟨M, hM⟩ := ht.active t (hL t htL)
  exact (h t htL).sectorRecords hM

/-- The records stay the same; a collection changes their order. -/
theorem Requested.records {err : Err} (h : Requested P st st' err) (ht : Tidy P st) :
    st'.records.Perm st.records := by
  cases h with
  | refused _ hst => rw [hst]
  | activated n _ hactive hempty hsame =>
    have hn : st'.sectorRecords n = [] := by
      unfold Store.sectorRecords
      rw [hempty.items_eq]
      rfl
    rw [Store.records, hactive, List.flatMap_append, flatMap_sectorRecords ht (fun t ht => ht) hsame]
    simp [hn, Store.records]
  | collected n d _ h =>
    have hsame : ∀ t ∈ st.active.erase d, SameAt st st' t := by
      intro t hte
      apply h.same t (List.mem_of_mem_erase hte)
      rintro rfl
      exact (List.nodup_append.mp ht.nodup).1.not_mem_erase hte
    rw [Store.records, h.active, List.flatMap_append,
      flatMap_sectorRecords ht (fun t hte => List.mem_of_mem_erase hte) hsame]
    simp only [List.flatMap_cons, List.flatMap_nil, List.append_nil, h.moved]
    have hp := (List.perm_cons_erase h.mem).flatMap_right st.sectorRecords
    rw [List.flatMap_cons] at hp
    exact List.perm_append_comm.trans hp.symm

theorem Extends.of_sameAt {t : Nat} (ht : Tidy P st) (hta : t ∈ st.active) (hact : t ∈ st'.active)
    (h : SameAt st st' t) : Extends st st' t := by
  obtain ⟨L, hL⟩ := ht.active t hta
  refine ⟨hact, ⟨[], by rw [h.items hL, List.append_nil]⟩, ?_⟩
  intro x hx
  rw [hL.items_eq] at hx
  exact h.value hL hx

theorem Requested.grows {err : Err} (h : Requested P st st' err) (ht : Tidy P st) : Grows st st' := by
  cases h with
  | refused _ hst =>
    rw [hst]
    exact .refl st
  | activated n _ hactive _ hsame hnum hgroups _ htrace =>
    obtain ⟨evs, htr, hw⟩ := htrace
    refine ⟨hnum, hgroups, evs, htr, hw, ?_⟩
    intro t hta _
    exact .of_sameAt ht hta (by rw [hactive]; exact List.mem_append_left _ hta) (hsame t hta)
  | collected n d _ h =>
    obtain ⟨evs, htr, hw⟩ := h.trace
    refine ⟨h.secNum, h.groups, _, htr, hw.append (by simpa using WellPlaced.erase _ d .nil), ?_⟩
    intro t hta hne
    have htd : t ≠ d := by
      rintro rfl
      apply hne
      exact ⟨⟨.erase (t * 4096) 4096, st.active ++ [n]⟩, by simp [eraseEvents], rfl⟩
    apply Extends.of_sameAt ht hta _ (h.same t hta htd)
    rw [h.active]
    exact List.mem_append_left _ ((List.mem_erase_of_ne htd).mpr hta)

end Collect

end WmIot.Nvs
