import WmIot.Nvs.BlobSpace
import WmIot.Nvs.Lists

/-!
# The blob writer ends

A turn of the `while (1)` of `storage_write_blob` that writes nothing is followed by a request
for a sector. From a balanced store and with a size that the check accepts, the sector provided
takes the rest of the data or a full segment, so that at most 127 turns follow.
-/

namespace WmIot.Nvs
open NorFlash
set_option autoImplicit false

/-! ## One turn -/

section Turn
variable (P : Port) (w : BlobWrite) (startSec fuel n offset : Nat) (st : Store)

/-- The end of a turn: a sector is requested, and the writer goes on in the current one. -/
def nextSector : Outcome :=
  match smRequestSector P st sliceSize with
  | (.ok, st) =>
    match st.currentSector with
    | none => (some .fail, st)
    | some s => if s = startSec then (some .noSpace, st) else writeBlobLoop P w startSec fuel s n offset st
  | (_, st) => (some .noSpace, st)

variable {P w startSec fuel n offset st} {s : Nat}

/-- With 127 segments and data left the writer gives up. -/
theorem writeBlobLoop_limit (hleft : offset < w.data.length) (hn : 127 ≤ n) :
    writeBlobLoop P w startSec (fuel + 1) s n offset st = (some .noSpace, st) := by
  unfold writeBlobLoop
  exact if_pos ⟨hn, by omega⟩

/-- The rest of the data fits into the sector. -/
theorem writeBlobLoop_last (hleft : offset < w.data.length) (hn : n < 127)
    (hfit : ((w.data.length - offset : Nat) : Int) + 32 ≤ (st.secArr s).freeSize) :
    writeBlobLoop P w startSec (fuel + 1) s n offset st =
      match w.writeSeg P st s n offset (w.data.length - offset) with
      | (.ok, st) =>
        if (st.secArr s).nextFreeSlice + 1 ≤ entryCount then
          .returned (storageWriteBlobDesc P st s w.groupId w.key w.data.length (n + 1) w.segStart)
        else nextSector P w startSec fuel (n + 1) w.data.length st
      | (err, st) => (some err, st) := by
  have hpos : w.data.length - offset > 0 := by omega
  conv_lhs => unfold writeBlobLoop
  dsimp only
  rw [if_neg (by simp only [segNumMax]; omega), if_pos hpos]
  exact (if_pos hfit).trans rfl

/-- A full segment is written. -/
theorem writeBlobLoop_full (hn : n < 127)
    (hfit : ¬ ((w.data.length - offset : Nat) : Int) + 32 ≤ (st.secArr s).freeSize)
    (hbig : 544 ≤ (st.secArr s).freeSize) :
    writeBlobLoop P w startSec (fuel + 1) s n offset st =
      match w.writeSeg P st s n offset ((st.secArr s).freeSize - 32).toNat with
      | (.ok, st') => nextSector P w startSec fuel (n + 1) (offset + ((st.secArr s).freeSize - 32).toNat) st'
      | (err, st) => (some err, st) := by
  have hpos : w.data.length - offset > 0 := by omega
  conv_lhs => unfold writeBlobLoop
  dsimp only
  rw [if_neg (by simp only [segNumMax]; omega), if_pos hpos]
  exact (if_neg hfit).trans ((if_pos hbig).trans rfl)

/-- The sector is too small for a segment. -/
theorem writeBlobLoop_skip (hleft : offset < w.data.length) (hn : n < 127)
    (hfit : ¬ ((w.data.length - offset : Nat) : Int) + 32 ≤ (st.secArr s).freeSize)
    (hsmall : ¬ 544 ≤ (st.secArr s).freeSize) :
    writeBlobLoop P w startSec (fuel + 1) s n offset st = nextSector P w startSec fuel n offset st := by
  have hpos : w.data.length - offset > 0 := by omega
  conv_lhs => unfold writeBlobLoop
  dsimp only
  rw [if_neg (by simp only [segNumMax]; omega), if_pos hpos]
  exact (if_neg hfit).trans ((if_neg hsmall).trans rfl)

/-- All data is written and the descriptor fits. -/
theorem writeBlobLoop_desc (hleft : w.data.length ≤ offset) (hslot : 32 ≤ (st.secArr s).freeSize) :
    writeBlobLoop P w startSec (fuel + 1) s n offset st =
      .returned (storageWriteBlobDesc P st s w.groupId w.key w.data.length n w.segStart) := by
  have hzero : ¬ w.data.length - offset > 0 := by omega
  conv_lhs => unfold writeBlobLoop
  dsimp only
  rw [if_neg (by omega), if_neg hzero]
  exact if_pos hslot

/-- All data is written and there is no slice for the descriptor. -/
theorem writeBlobLoop_noSlot (hleft : w.data.length ≤ offset) (hslot : ¬ 32 ≤ (st.secArr s).freeSize) :
    writeBlobLoop P w startSec (fuel + 1) s n offset st = nextSector P w startSec fuel n offset st := by
  have hzero : ¬ w.data.length - offset > 0 := by omega
  conv_lhs => unfold writeBlobLoop
  dsimp only
  rw [if_neg (by omega), if_neg hzero]
  exact if_neg hslot

end Turn

/-! ## Ending -/

section Ends
variable {P : Port} {w : BlobWrite} {startSec fuel n offset s : Nat} {st st' : Store}

/-- The call has returned a code. -/
def Outcome.Ended (r : Outcome) : Prop := r.1 ≠ none

theorem returned_ended (r : Err × Store) : (Outcome.returned r).Ended := by
  simp [Outcome.Ended, Outcome.returned]

/-- The writer ends if it ends on the store that a request has provided. -/
theorem nextSector_ended (h : Balanced P st)
    (hnext : ∀ st' s', Balanced P st' → Provided P 32 st st' .ok → st'.currentSector = some s' →
      (writeBlobLoop P w startSec fuel s' n offset st').Ended) :
    (nextSector P w startSec fuel n offset st).Ended := by
  unfold nextSector
  cases hreq : smRequestSector P st sliceSize with
  | mk e st₁ =>
    obtain ⟨hb, hp⟩ := h.request (by decide) hreq
    cases e with
    | ok =>
      obtain ⟨s', hcur, _⟩ := hp.current
      simp only [hcur]
      split
      · simp [Outcome.Ended]
      · exact hnext st₁ s' hb hp hcur
    | _ => simp [Outcome.Ended]

theorem Provided.slot (h : Provided P 32 st st' .ok) (hb : Balanced P st) (hcur : st'.currentSector = some s) :
    32 ≤ (st'.secArr s).freeSize := by
  obtain ⟨m, hm, _, hdroped⟩ := h.current
  rw [hm] at hcur
  obtain rfl := Option.some.inj hcur
  rw [← Sector.gcSize_eq_freeSize hdroped]
  cases h with
  | refused hne => exact absurd rfl hne
  | activated n _ _ hactive hempty hdroped' =>
    rw [Store.currentSector, hactive, List.getLast?_append] at hm
    obtain rfl : n = m := Option.some.inj hm
    rw [hempty.gcSize_of_nil hdroped']
    omega
  | collected n d _ hgain _ h =>
    rw [h.current] at hm
    obtain rfl := Option.some.inj hm
    rw [h.gcSize hb]
    exact hgain

/-- With all data written, the descriptor takes two more turns at most. -/
theorem written_ended (h : Balanced P st) (hoff : w.data.length ≤ offset) (hfuel : 2 ≤ fuel) :
    (writeBlobLoop P w startSec fuel s n offset st).Ended := by
  obtain ⟨fuel, rfl⟩ : ∃ f, fuel = f + 2 := ⟨fuel - 2, by omega⟩
  by_cases hslot : 32 ≤ (st.secArr s).freeSize
  · rw [writeBlobLoop_desc hoff hslot]
    exact returned_ended _
  · rw [writeBlobLoop_noSlot hoff hslot]
    apply nextSector_ended h
    intro st' s' _ hp hcur
    rw [writeBlobLoop_desc hoff (hp.slot h hcur)]
    exact returned_ended _

/-- A full segment fills the sector and leaves enough room for the rest. -/
theorem Balanced.segment (h : Balanced P st) (hs : s ∈ st.active) (hdroped : (st.secArr s).dropedSlice = 0)
    (hbig : 544 ≤ (st.secArr s).freeSize) (hlen : offset + ((st.secArr s).freeSize - 32).toNat ≤ w.data.length)
    (he : Enough ((st.idle.length : Int) - 1) st.gains ((w.data.length - offset : Nat) : Int))
    (hrun : w.writeSeg P st s n offset ((st.secArr s).freeSize - 32).toNat = (.ok, st')) :
    Balanced P st' ∧ Enough ((st'.idle.length : Int) - 1) st'.gains
      ((w.data.length - (offset + ((st.secArr s).freeSize - 32).toNat) : Nat) : Int) := by
  obtain ⟨hl, hdrop, hused⟩ := h.written hs hrun
  obtain ⟨f, hf, hgain⟩ := h.gcSize_eq hs
  have hfree := Sector.gcSize_eq_freeSize hdroped
  have hlen' : ((w.data.drop offset).take ((st.secArr s).freeSize - 32).toNat).length = (f - 1) * 32 := by
    rw [List.length_take, List.length_drop]
    omega
  have hcnt : entryCntOf ((f - 1) * 32) = f := by
    unfold entryCntOf
    simp only [sliceSize]
    rw [if_pos (by omega)]
    omega
  rw [hlen', hcnt] at hused
  have hgain' : (st'.secArr s).gcSize = 0 := by
    have hdef : (st.secArr s).gcSize =
        ((127 : Int) - (st.secArr s).usedSlice + (st.secArr s).dropedSlice) * 32 := rfl
    have hdef' : (st'.secArr s).gcSize =
        ((127 : Int) - (st'.secArr s).usedSlice + (st'.secArr s).dropedSlice) * 32 := rfl
    rw [hdef', hdrop, hused]
    omega
  refine ⟨h.write hs hrun, ?_⟩
  have hperm := hl.gains hs (List.nodup_append.mp h.nodup).1
  rw [hgain'] at hperm
  have he' := (he.perm (gains_perm_erase hs)).segment (by omega)
  rw [hl.idle]
  have hleft : ((w.data.length - (offset + ((st.secArr s).freeSize - 32).toNat) : Nat) : Int) =
      ((w.data.length - offset : Nat) : Int) - ((st.secArr s).gcSize - 32) := by omega
  rw [hleft]
  exact he'.perm hperm.symm

/-- In a sector that takes the rest or a full segment the writer goes on to its end. -/
theorem room_ended (hfuel : 127 - n + 4 ≤ fuel) (h : Balanced P st) (hcur : st.currentSector = some s)
    (hdroped : (st.secArr s).dropedSlice = 0 ∨
      ((w.data.length - offset : Nat) : Int) + 32 ≤ (st.secArr s).freeSize)
    (hroom : ((w.data.length - offset : Nat) : Int) + 32 ≤ (st.secArr s).freeSize ∨ 544 ≤ (st.secArr s).freeSize)
    (he : Enough ((st.idle.length : Int) - 1) st.gains ((w.data.length - offset : Nat) : Int)) :
    (writeBlobLoop P w startSec fuel s n offset st).Ended := by
  induction fuel generalizing s n offset st with
  | zero => omega
  | succ fuel ih =>
    have hs := mem_of_current hcur
    by_cases hleft : offset < w.data.length
    · by_cases hn : n < 127
      · by_cases hfit : ((w.data.length - offset : Nat) : Int) + 32 ≤ (st.secArr s).freeSize
        · rw [writeBlobLoop_last hleft hn hfit]
          cases hseg : w.writeSeg P st s n offset (w.data.length - offset) with
          | mk e st₁ =>
            cases e with
            | ok =>
              dsimp only
              split
              · exact returned_ended _
              · apply nextSector_ended (h.write hs hseg)
                intro st' s' hb _ _
                exact written_ended hb (Nat.le_refl _) (by omega)
            | _ => simp [Outcome.Ended]
        · have hbig := hroom.resolve_left hfit
          rw [writeBlobLoop_full hn hfit hbig]
          cases hseg : w.writeSeg P st s n offset ((st.secArr s).freeSize - 32).toNat with
          | mk e st₁ =>
            cases e with
            | ok =>
              obtain ⟨hb, he₁⟩ := h.segment hs (hdroped.resolve_right hfit) hbig (by omega) he hseg
              apply nextSector_ended hb
              intro st' s' hb' hp hcur'
              have hpos : 0 < ((w.data.length - (offset + ((st.secArr s).freeSize - 32).toNat) : Nat) : Int) := by
                omega
              obtain ⟨he', m, hm, hdroped', hroom'⟩ := hp.enough hb hpos he₁
              rw [hm] at hcur'
              obtain rfl := Option.some.inj hcur'
              exact ih (by omega) hb' hm (Or.inl hdroped') hroom' he'
            | _ => simp [Outcome.Ended]
      · rw [writeBlobLoop_limit hleft (by omega)]
        simp [Outcome.Ended]
    · exact written_ended h (by omega) (by omega)

/-- Without an idle sector the first turn is the last one. -/
theorem noIdle_ended (hidle : st.idle = []) : (writeBlobLoop P w startSec (fuel + 1) s n offset st).Ended := by
  have hnext : ∀ {st : Store} {n offset : Nat}, st.idle = [] → (nextSector P w startSec fuel n offset st).Ended := by
    intro st n offset hidle
    have hreq : smRequestSector P st sliceSize = (.noMem, st) := by
      rw [smRequestSector, hidle]
      rfl
    rw [nextSector, hreq]
    simp [Outcome.Ended]
  have hkeep : ∀ {len : Nat} {e : Err} {st₁ : Store}, w.writeSeg P st s n offset len = (e, st₁) → st₁.idle = [] := by
    intro len e st₁ hrun
    have hl := (sectorWriteItem_lists P st s w.groupId .blobSeg w.key ((w.data.drop offset).take len) (w.segId n)).2
    rw [show sectorWriteItem P st s w.groupId .blobSeg w.key ((w.data.drop offset).take len) (w.segId n) =
      (e, st₁) from hrun] at hl
    rw [hl, hidle]
  by_cases hleft : offset < w.data.length
  · by_cases hn : n < 127
    · by_cases hfit : ((w.data.length - offset : Nat) : Int) + 32 ≤ (st.secArr s).freeSize
      · rw [writeBlobLoop_last hleft hn hfit]
        cases hseg : w.writeSeg P st s n offset (w.data.length - offset) with
        | mk e st₁ =>
          cases e with
          | ok =>
            dsimp only
            split
            · exact returned_ended _
            · exact hnext (hkeep hseg)
          | _ => simp [Outcome.Ended]
      · by_cases hbig : 544 ≤ (st.secArr s).freeSize
        · rw [writeBlobLoop_full hn hfit hbig]
          cases hseg : w.writeSeg P st s n offset ((st.secArr s).freeSize - 32).toNat with
          | mk e st₁ =>
            cases e with
            | ok => exact hnext (hkeep hseg)
            | _ => simp [Outcome.Ended]
        · rw [writeBlobLoop_skip hleft hn hfit hbig]
          exact hnext hidle
    · rw [writeBlobLoop_limit hleft (by omega)]
      simp [Outcome.Ended]
  · by_cases hslot : 32 ≤ (st.secArr s).freeSize
    · rw [writeBlobLoop_desc (by omega) hslot]
      exact returned_ended _
    · rw [writeBlobLoop_noSlot (by omega) hslot]
      exact hnext hidle

/-- A sector that takes neither the rest nor a full segment is left for one that does. -/
theorem skip_ended (hfuel : 132 ≤ fuel) (h : Balanced P st) (hleft : 0 < w.data.length)
    (hfit : ¬ ((w.data.length : Nat) : Int) + 32 ≤ (st.secArr s).freeSize)
    (hsmall : ¬ 544 ≤ (st.secArr s).freeSize)
    (he : Enough ((st.idle.length : Int) - 1) st.gains w.data.length) :
    (writeBlobLoop P w startSec fuel s 0 0 st).Ended := by
  obtain ⟨fuel, rfl⟩ : ∃ f, fuel = f + 1 := ⟨fuel - 1, by omega⟩
  rw [writeBlobLoop_skip hleft (by decide) hfit hsmall]
  apply nextSector_ended h
  intro st' s' hb hp hcur
  obtain ⟨he', m, hm, hdroped, hroom⟩ := hp.enough h (by omega) he
  rw [hm] at hcur
  obtain rfl := Option.some.inj hcur
  exact room_ended (by omega) hb hm (Or.inl hdroped) hroom he'

/-- The writer ends when its first turn is in the sector current at the call. -/
theorem first_ended (hfuel : 132 ≤ fuel) (h : Balanced P st) (hcur : st.currentSector = some s)
    (hdroped : (st.secArr s).dropedSlice = 0 ∨ ((w.data.length : Nat) : Int) + 32 ≤ (st.secArr s).freeSize)
    (he : Enough ((st.idle.length : Int) - 1) st.gains w.data.length) :
    (writeBlobLoop P w startSec fuel s 0 0 st).Ended := by
  by_cases hleft : 0 < w.data.length
  · by_cases hroom : ((w.data.length : Nat) : Int) + 32 ≤ (st.secArr s).freeSize ∨ 544 ≤ (st.secArr s).freeSize
    · exact room_ended (by omega) h hcur hdroped hroom he
    · exact skip_ended hfuel h hleft (fun hf => hroom (Or.inl hf)) (fun hb => hroom (Or.inr hb)) he
  · exact written_ended h (by omega) (by omega)

/-- With nothing to gain anywhere and no spare sector, no data is accepted. -/
theorem Enough.none {G : List Int} {left : Int} (h : Enough 0 G left) (hall : ∀ g ∈ G, g ≤ 0) : left ≤ 0 := by
  have hzero : segRooms G = 0 := segRooms_eq_zero fun g hg => by
    have hle := hall g hg
    omega
  rcases h with hle | ⟨g, hg, _, hle⟩
  · omega
  · have hle' := hall g hg
    omega

/-- The call requests a sector first, or the current one has nothing dropped or takes the blob. -/
theorem storageWriteBlob_cases (fuel : Nat) (hcur : st.currentSector = some s) :
    (∃ e st₁, smRequestSector P st sliceSize = (e, st₁) ∧
      storageWriteBlob P fuel st w =
        match st₁.currentSector with
        | none => (some .fault, st₁)
        | some s => writeBlobLoop P w s fuel s 0 0 st₁) ∨
    (((st.secArr s).dropedSlice = 0 ∨ ((w.data.length : Nat) : Int) + 32 ≤ (st.secArr s).freeSize) ∧
      storageWriteBlob P fuel st w = writeBlobLoop P w s fuel s 0 0 st) := by
  by_cases hcond : ((st.secArr s).dropedSlice > 0 ∧
      ((w.data.length : Nat) : Int) + sliceSize > (st.secArr s).freeSize) ∨
      w.data.length > (segNumMax - 1) * singleItemMaxDataSize
  · refine Or.inl ⟨(smRequestSector P st sliceSize).1, (smRequestSector P st sliceSize).2, rfl, ?_⟩
    unfold storageWriteBlob
    simp only [hcur, if_pos hcond] <;> rfl
  · refine Or.inr ⟨?_, ?_⟩
    · simp only [sliceSize] at hcond
      omega
    · unfold storageWriteBlob
      simp only [hcur]
      rw [if_neg hcond]
      simp only [hcur]

/-- From a balanced store the writer ends on every size that the check accepts. -/
theorem Balanced.writeBlob_ended (h : Balanced P st) (hcheck : smCheckWriteBlobSize st w.data.length = .ok)
    (hfuel : 132 ≤ fuel) : (storageWriteBlob P fuel st w).Ended := by
  have he := enough_of_check hcheck
  obtain ⟨s, hcur⟩ := h.toTidy.current
  rcases storageWriteBlob_cases (P := P) (w := w) fuel hcur with ⟨e, st₁, hreq, hrun⟩ | ⟨hkeep, hrun⟩
  · rw [hrun]
    obtain ⟨hb, hp⟩ := h.request (by decide) hreq
    by_cases herr : e = .ok
    · rw [herr] at hp
      by_cases hleft : 0 < w.data.length
      · obtain ⟨he', m, hm, hdroped, hroom⟩ := hp.enough h (by omega) he
        simp only [hm]
        exact room_ended (by omega) hb hm (Or.inl hdroped) hroom he'
      · obtain ⟨m, hm, _⟩ := hp.current
        simp only [hm]
        exact written_ended hb (by omega) (by omega)
    · cases hp with
      | refused _ hst hfull =>
        rw [hst]
        simp only [hcur]
        obtain ⟨fuel, rfl⟩ : ∃ f, fuel = f + 1 := ⟨fuel - 1, by omega⟩
        rcases hfull with hidle | ⟨hone, hsmall⟩
        · exact noIdle_ended hidle
        · rw [hone] at he
          have hzero : ∀ g ∈ st.gains, g ≤ 0 := by
            intro g hg
            obtain ⟨e, hea, rfl⟩ := mem_gains.mp hg
            obtain ⟨f, _, hf⟩ := h.gcSize_eq hea
            have hlt := hsmall e hea
            simp only [sliceSize] at hlt
            omega
          have hleft := he.none hzero
          exact written_ended h (by omega) (by omega)
      | activated => exact absurd rfl herr
      | collected => exact absurd rfl herr
  · rw [hrun]
    exact first_ended hfuel h hcur hkeep he

end Ends

end WmIot.Nvs
