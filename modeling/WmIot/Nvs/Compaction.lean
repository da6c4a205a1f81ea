import WmIot.Nvs.Runs

/-!
# Garbage collection

`sm_garbage_collection` moves the items in use of the active sector with the most to gain to
the front of the first idle sector and erases the sector they came from. From a store whose
sectors are accounted this is a compaction that gains what the counters promise.
-/

namespace WmIot.Nvs
open NorFlash
set_option autoImplicit false

/-- A tidy store in which every active sector has the counters and the hash table of its content. -/
structure Balanced (P : Port) (st : Store) : Prop extends Tidy P st where
  accounted : ∀ s ∈ st.active, Accounted P st.flash (st.secArr s)

/-- `st'` is `st` with the items in use of `d` moved together in `n`. -/
structure Compacted (P : Port) (st st' : Store) (n d : Nat) : Prop where
  picked : d ∈ st.active
  target : st.idle.head? = some n
  active : st'.active = st.active.erase d ++ [n]
  idle : st'.idle = st.idle.tail ++ [d]
  current : st'.currentSector = some n
  items : st'.items n = placed 0 (liveItems (st.items d))
  data : st'.sectorRecords n = st.sectorRecords d
  used : (st'.secArr n).usedSlice = spans (placed 0 (liveItems (st.items d)))
  next : (st'.secArr n).nextFreeSlice = (st'.secArr n).usedSlice
  droped : (st'.secArr n).dropedSlice = 0
  hash : (st'.secArr n).hash = hashNodes P (placed 0 (liveItems (st.items d)))
  erased : BlankOn st'.flash (d * 4096) (d * 4096 + 4096)
  empty : (st'.secArr d).state = sectorUninit ∧ (st'.secArr d).nextFreeSlice = 0 ∧
    (st'.secArr d).usedSlice = 0 ∧ (st'.secArr d).dropedSlice = 0 ∧ (st'.secArr d).hash = []
  others : ∀ t ∈ st.active ++ st.idle, t ≠ n → t ≠ d → SameAt st st' t

/-! ## Spans -/

theorem spans_placed (i : Nat) (its : List Item) : spans (placed i its) = (its.map Item.span).sum := by
  induction its generalizing i with
  | nil => rfl
  | cons it its ih => simp only [placed, spans_cons, ih, List.map_cons, List.sum_cons]

/-- The slices of known items are those in use and those dropped. -/
theorem spans_liveItems_add_dropedSpans {L : List Entry} (hk : ∀ x ∈ L, x.Known) :
    ((liveItems L).map Item.span).sum + dropedSpans L = spans L := by
  induction L with
  | nil => rfl
  | cons x L ih =>
    have hrest := ih fun y hy => hk y (List.mem_cons_of_mem x hy)
    simp only [dropedSpans] at hrest ⊢
    rcases hk x List.mem_cons_self with hu | hd
    · have hnd : ¬ x.Droped := by
        intro hd
        rw [Entry.Droped, hu] at hd
        exact absurd hd (by decide)
      rw [liveItems_cons_live hu, List.filter_cons_of_neg (by simpa using hnd), spans_cons, List.map_cons,
        List.sum_cons]
      omega
    · have hnl : ¬ x.Live := by
        intro hl
        rw [Entry.Live, hd] at hl
        exact absurd hl (by decide)
      have hdrop : x.Droped := hd
      rw [liveItems_cons_dead hnl, List.filter_cons_of_pos (by simpa using hdrop), spans_cons, spans_cons]
      omega

section Balanced
variable {P : Port} {st st' : Store} {s n d : Nat} {L : List Entry}

theorem InUse.accounted_iff (h : InUse P st s L) :
    Accounted P st.flash (st.secArr s) ↔ (st.secArr s).dropedSlice = dropedSpans L := by
  refine ⟨fun hacc => ?_, fun hd => h.packed.accounted hd⟩
  rw [hacc.droped, h.packed.itemsBelow_eq]

theorem Balanced.droped (h : Balanced P st) (hs : s ∈ st.active) :
    (st.secArr s).dropedSlice = dropedSpans (st.items s) := by
  obtain ⟨L, hL⟩ := h.active s hs
  rw [hL.items_eq]
  exact hL.accounted_iff.mp (h.accounted s hs)

theorem InUse.used_eq (h : InUse P st s L) : (st.secArr s).usedSlice = spans L := by
  have hchain := h.packed.chain.spans_eq
  rw [h.packed.used]
  omega

/-- What a collection would gain is what the items in use leave free. -/
theorem InUse.gcSize_eq (h : InUse P st s L) (hd : (st.secArr s).dropedSlice = dropedSpans L) :
    (st.secArr s).gcSize = (127 - ((liveItems L).map Item.span).sum : Int) * 32 := by
  have hsum := spans_liveItems_add_dropedSpans h.packed.known
  simp only [Sector.gcSize, h.used_eq, hd, entryCount, sliceSize]
  omega

/-- Without dropped items the gain is the free space. -/
theorem Sector.gcSize_eq_freeSize {sec : Sector} (h : sec.dropedSlice = 0) : sec.gcSize = sec.freeSize := by
  simp only [Sector.gcSize, Sector.freeSize, h, Int.ofNat_zero, Int.add_zero]

end Balanced

/-! ## The steps of a collection -/

section Steps
variable {P : Port} {st st' : Store} {n d : Nat} {L : List Entry}

/-- The sector that is activated has nothing dropped in it. -/
theorem smActiveSector_droped {rest : List Nat} (hspare : Spare P st n) (hidle : st.idle = n :: rest)
    {err : Err} (hrun : smActiveSector st = (err, st')) : (st'.secArr n).dropedSlice = 0 := by
  have hfirst : ((if (st.secArr n).state = sectorCrash ∨ (st.secArr n).state = sectorInvalid then
      sectorErase st n else st).secArr n).dropedSlice = 0 := by
    split
    · rw [sectorErase_secArr]
    · rename_i hn
      exact (hspare.resolve_left hn).2
  rw [smActiveSector, hidle] at hrun
  obtain rfl := (Prod.mk.inj hrun).2
  simp only [Store.setSec, Function.update_self]
  exact hfirst

theorem smNewSector_droped {rest : List Nat} (h : Arranged P st) (hidle : st.idle = n :: rest) {m : Nat}
    (hrun : smNewSector P st = (.ok, st', m)) : (st'.secArr n).dropedSlice = 0 := by
  have hni : n ∈ st.idle := by
    rw [hidle]
    exact List.mem_cons_self
  obtain ⟨st₁, hact, _, hactive, _⟩ := h.activate hidle
  have hcur : st₁.currentSector = some n := by
    rw [Store.currentSector, hactive]
    simp
  have hzero := smActiveSector_droped (h.idle n hni) hidle hact
  simp only [smNewSector, hact, hcur] at hrun
  obtain rfl : readySector P st₁ n = st' := (Prod.mk.inj (Prod.mk.inj hrun).2).1
  rcases readySector_droped P st₁ n with hsame | ⟨_, hfresh⟩
  · rw [hsame, hzero]
  · exact hfresh

/-- What the copy and the erasing of `d` leave in both sectors. -/
theorem Tidy.finish_compacts (h : Tidy P st) (hn : n ∈ st.active) (hd : d ∈ st.active) (hne : n ≠ d)
    (hempty : InUse P st n []) (hready : (st.secArr n).state ≠ sectorUninit) (hL : InUse P st d L)
    (hrun : smFinishCollection P st n d = (.ok, st')) :
    InUse P st' n (placed 0 (liveItems L)) ∧ (st'.secArr n).dropedSlice = (st.secArr n).dropedSlice ∧
      BlankOn st'.flash (d * 4096) (d * 4096 + 4096) ∧
      (st'.secArr d).state = sectorUninit ∧ (st'.secArr d).nextFreeSlice = 0 ∧
      (st'.secArr d).usedSlice = 0 ∧ (st'.secArr d).dropedSlice = 0 ∧ (st'.secArr d).hash = [] := by
  have hmn : n ∈ st.active ++ st.idle := List.mem_append_left _ hn
  have hmd : d ∈ st.active ++ st.idle := List.mem_append_left _ hd
  obtain ⟨st₁, hcopy, hl, hp, _, hstate, hdrop⟩ := sectorCopy_spec hL.packed hempty.packed hne
    (h.disjoint hmd hmn hne) (h.inSize hmn) (h.inSize hmd)
  have hu : InUse P st₁ n (placed 0 (liveItems L)) :=
    ⟨hp, by rw [hstate]; exact hempty.crash, by rw [hstate]; exact hempty.invalid,
      by rw [hstate]; exact fun hs => absurd hs hready⟩
  have ht₁ := h.of_local hl hn ⟨_, hu⟩
  have hd₁ : d ∈ st₁.active := by rwa [hl.active]
  have hn₁ : n ∈ st₁.active := by rwa [hl.active]
  have hrest : n ∈ st₁.active.erase d := (List.mem_erase_of_ne hne).mpr hn₁
  have hsame := (ht₁.retire hd₁ (List.ne_nil_of_mem hrest)).2 n (List.mem_append_left _ hn₁) hne
  have haddr : (st₁.secArr d).address = d * 4096 := ht₁.address d (List.mem_append_left _ hd₁)
  have hst : st' = retireSector st₁ d := by
    rw [smFinishCollection, hcopy] at hrun
    exact (Prod.mk.inj hrun).2.symm
  rw [hst]
  refine ⟨hsame.inUse hu, ?_, ?_, ?_⟩
  · rw [hsame.secArr, hdrop]
  · have hblank := sectorErase_blank st₁ d
    rwa [haddr] at hblank
  · have hsec : (retireSector st₁ d).secArr d = _ := sectorErase_secArr st₁ d
    rw [hsec]
    exact ⟨rfl, rfl, rfl, rfl, rfl⟩

/-- A collection of the active sector `d` into the first idle one. -/
theorem Tidy.compact (h : Tidy P st) {rest : List Nat} (hidle : st.idle = n :: rest) (hd : d ∈ st.active) :
    ∃ st₁ st', smNewSector P st = (.ok, st₁, n) ∧
      smFinishCollection P (sectorSetState st₁ d sectorDeletting) n d = (.ok, st') ∧
      Tidy P st' ∧ Compacted P st st' n d := by
  obtain ⟨st₁, hnew, ht, hact, hid, _, _, hu, hready, hsame, _⟩ := h.newSector hidle
  have hni : n ∈ st.idle := by
    rw [hidle]
    exact List.mem_cons_self
  have hnd : ∀ t ∈ st.active, t ≠ n := by
    rintro t ht rfl
    exact (List.nodup_append.mp h.nodup).2.2 t ht t hni rfl
  have hdn := hnd d hd
  have hd₁ : d ∈ st₁.active := by
    rw [hact]
    exact List.mem_append_left _ hd
  have hn₁ : n ∈ st₁.active := by
    rw [hact]
    simp
  have hmd := List.mem_append_left st₁.idle hd₁
  have hmn := List.mem_append_left st₁.idle hn₁
  have hperm : ∀ t, t ∈ st.active ++ st.idle → t ∈ st₁.active ++ st₁.idle := by
    intro t ht
    rw [hidle] at ht
    rw [hact, hid]
    simpa only [List.append_assoc, List.singleton_append] using ht
  obtain ⟨L, hL⟩ := h.active d hd
  have hL₁ : InUse P st₁ d L := (hsame d (List.mem_append_left _ hd) hdn).inUse hL
  have hl := sectorSetState_local st₁ d sectorDeletting
  have ht₂ := ht.of_local hl hd₁ ⟨L, hL₁.setState⟩
  have hsn := ht.sameAt hl hmd hmn hdn.symm
  have hn₂ : n ∈ (sectorSetState st₁ d sectorDeletting).active := by rwa [hl.active]
  have hd₂ : d ∈ (sectorSetState st₁ d sectorDeletting).active := by rwa [hl.active]
  have hready₂ : ((sectorSetState st₁ d sectorDeletting).secArr n).state ≠ sectorUninit := by
    rw [hsn.secArr]
    exact hready
  obtain ⟨st', hfin, ht', hact', hid', _, _, hrec, hsame', _⟩ :=
    ht₂.finish hn₂ hd₂ hdn.symm (hsn.inUse hu) hready₂
  obtain ⟨hu', hdrop, herased, hzero⟩ :=
    ht₂.finish_compacts hn₂ hd₂ hdn.symm (hsn.inUse hu) hready₂ hL₁.setState hfin
  have hactive : st'.active = st.active.erase d ++ [n] := by
    rw [hact', hl.active, hact, List.erase_append_left _ hd]
  refine ⟨st₁, st', hnew, hfin, ht', hd, by rw [hidle]; rfl, hactive, ?_, ?_, ?_, ?_, ?_, ?_, ?_, ?_,
    herased, hzero, ?_⟩
  · rw [hid', hl.idle, hid, hidle]
    rfl
  · rw [Store.currentSector, hactive]
    simp
  · rw [hu'.items_eq, hL.items_eq]
  · rw [hrec, hL₁.setState_records, (hsame d (List.mem_append_left _ hd) hdn).sectorRecords hL]
  · rw [hu'.used_eq, hL.items_eq]
  · exact hu'.packed.used.symm
  · rw [hdrop, hsn.secArr]
    exact smNewSector_droped h.toArranged hidle hnew
  · rw [hu'.packed.hash, hL.items_eq]
  · intro t htm htn htd
    have htm₁ := hperm t htm
    exact ((hsame t htm htn).trans (ht.sameAt hl hmd htm₁ htd)).trans
      (hsame' t (by rwa [hl.active, hl.idle]) htn htd)

end Steps

/-! ## The collection -/

section Collection
variable {P : Port} {st st' : Store} {n d : Nat}

/-- The sector filled has as much free space as the sector collected had to gain. -/
theorem Compacted.freeSize (h : Compacted P st st' n d) (hb : Balanced P st) :
    (st'.secArr n).freeSize = (st.secArr d).gcSize := by
  obtain ⟨L, hL⟩ := hb.active d h.picked
  have hused := h.used
  rw [hL.items_eq, spans_placed] at hused
  rw [hL.gcSize_eq (hL.accounted_iff.mp (hb.accounted d h.picked)), Sector.freeSize, hused]
  rfl

/-- From a balanced store a collection is a compaction after which the space asked for is free; when it
finds too little to gain it changes nothing. -/
theorem smGarbageCollection_compacts (P : Port) (st : Store) (h : Balanced P st) (needSize : Int) :
    (∀ st', smGarbageCollection P st needSize = (.ok, st') →
      ∃ n d, Compacted P st st' n d ∧ needSize ≤ (st'.secArr n).freeSize) ∧
    (∀ st', smGarbageCollection P st needSize = (.noSpace, st') → st' = st) := by
  have hrefuse : ∀ {r : Err}, r ≠ .ok → smGarbageCollection P st needSize = (r, st) →
      (∀ st', smGarbageCollection P st needSize = (.ok, st') →
        ∃ n d, Compacted P st st' n d ∧ needSize ≤ (st'.secArr n).freeSize) ∧
      (∀ st', smGarbageCollection P st needSize = (.noSpace, st') → st' = st) := by
    intro r hr hrun
    rw [hrun]
    exact ⟨fun st' hst => absurd (Prod.mk.inj hst).1 hr, fun st' hst => (Prod.mk.inj hst).2.symm⟩
  rcases dirtiestSector_spec st with ⟨d, hd, hpick, _, _⟩ | ⟨hnone, _⟩
  · by_cases hneed : (st.secArr d).gcSize ≥ needSize
    · cases hidle : st.idle with
      | nil =>
        apply hrefuse (r := .fault) (by decide)
        simp only [smGarbageCollection, hpick, if_pos hneed, smNewSector, smActiveSector, hidle]
      | cons n rest =>
        obtain ⟨st₁, st₂, hnew, hfin, _, hc⟩ := h.compact hidle hd
        have hrun : smGarbageCollection P st needSize = (.ok, st₂) := by
          simp only [smGarbageCollection, hpick, if_pos hneed, hnew, hfin]
        rw [hrun]
        refine ⟨fun st' hst => ?_, fun st' hst => absurd (Prod.mk.inj hst).1 (by decide)⟩
        obtain rfl := (Prod.mk.inj hst).2
        exact ⟨n, d, hc, by rw [hc.freeSize h]; exact hneed⟩
    · apply hrefuse (r := .noSpace) (by decide)
      simp only [smGarbageCollection, hpick, if_neg hneed]
  · by_cases hneed : (0 : Int) ≥ needSize
    · apply hrefuse (r := .fault) (by decide)
      simp only [smGarbageCollection, hnone, if_pos hneed]
    · apply hrefuse (r := .noSpace) (by decide)
      simp only [smGarbageCollection, hnone, if_neg hneed]

end Collection

/-- A mounted partition in which one item was written twice. -/
def rewrittenStore : Store :=
  runOps testPort 0 [.write 1 .uint8 [0x6b] [1], .write 1 .uint8 [0x6b] [2]] testStore

theorem rewrittenStore_balanced : Balanced testPort rewrittenStore where
  toTidy := by
    have hfirst : (StorageOp.write 1 .uint8 [0x6b] [1]).stale testPort 0 testStore = false := by decide +kernel
    have hsecond : (StorageOp.write 1 .uint8 [0x6b] [2]).stale testPort 0
        ((StorageOp.write 1 .uint8 [0x6b] [1]).run testPort 0 testStore) = false := by decide +kernel
    exact (testStore_tidy.run (.step (.step .refl _ 0 hfirst) _ 0 hsecond)).tidy
  accounted := by
    have hacc : rewrittenStore.active = [0] ∧
        ((rewrittenStore.secArr 0).dropedSlice ≤ (rewrittenStore.secArr 0).usedSlice ∧
          (rewrittenStore.secArr 0).usedSlice ≤ 127) ∧
        (rewrittenStore.secArr 0).usedSlice = (rewrittenStore.secArr 0).nextFreeSlice ∧
        (rewrittenStore.secArr 0).dropedSlice =
          dropedSpans (itemsBelow rewrittenStore.flash (rewrittenStore.secArr 0)) ∧
        (rewrittenStore.secArr 0).hash =
          hashNodes testPort (itemsBelow rewrittenStore.flash (rewrittenStore.secArr 0)) := by
      decide +kernel
    intro s hs
    rw [hacc.1] at hs
    rw [List.mem_singleton.mp hs]
    exact accounted_iff.mpr hacc.2

theorem smGarbageCollection_compacts_rewritten :
    ∃ st', smGarbageCollection testPort rewrittenStore 32 = (.ok, st') ∧
      ∃ n d, Compacted testPort rewrittenStore st' n d ∧ 32 ≤ (st'.secArr n).freeSize := by
  have hrun : smGarbageCollection testPort rewrittenStore 32 =
      (.ok, (smGarbageCollection testPort rewrittenStore 32).2) := eq_ok_of_fst (by decide +kernel)
  exact ⟨_, hrun, (smGarbageCollection_compacts testPort rewrittenStore rewrittenStore_balanced 32).1 _ hrun⟩

end WmIot.Nvs
