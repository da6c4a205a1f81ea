import WmIot.Ota.Agree

/-!
# A chunk written again

`wm_ota_ops_write` adds a chunk to the running CRC before it writes it. A chunk whose write fails has been
counted; only the first one starts the CRC afresh when it is written again.
-/

namespace WmIot.Ota
set_option autoImplicit false

/-- The flash erases and writes. -/
def flashOk : FlashIo := ⟨true, true⟩

/-- The results of the writes, and of `wm_ota_ops_end` after them. -/
def verdict (c : Ctx) : List (FlashIo × List Byte) → List Err × Err
  | [] => ([], opsEnd c)
  | (io, data) :: rest =>
    let step := opsWrite io c data
    let next := verdict step.1 rest
    (step.2 :: next.1, next.2)

/-- After a failed write the context is as before, and the chunk written again leads to the same verdict, however
the download goes on. -/
def Retriable (c c' : Ctx) (data : List Byte) : Prop :=
  c'.crcCtx = c.crcCtx ∧ c'.wroteAddr = c.wroteAddr ∧
    ∀ rest, verdict c' ((flashOk, data) :: rest) = verdict c ((flashOk, data) :: rest)

/-- The running CRC behind a chunk. -/
def crcBehind (c : Ctx) (data : List Byte) : BitVec 32 :=
  if c.appOtaAddr = c.wroteAddr then Crc32.update 0xFFFFFFFF#32 (data.drop headerSize) else Crc32.update c.crcCtx data

/-- The context behind a chunk that has been counted and not yet written. -/
def counted (c : Ctx) (data : List Byte) : Ctx :=
  { c with
    otaHeader := if c.appOtaAddr = c.wroteAddr then data.take headerSize else c.otaHeader
    crcCtx := crcBehind c data }

section
variable {c c' : Ctx} {io : FlashIo} {data : List Byte}

theorem verdict_of_write_eq (h : opsWrite flashOk c' data = opsWrite flashOk c data)
    (rest : List (FlashIo × List Byte)) :
    verdict c' ((flashOk, data) :: rest) = verdict c ((flashOk, data) :: rest) := by
  rw [verdict, verdict, h]

theorem ite_ne_failed {p : Prop} [Decidable p] {a b : Err} (ha : a ≠ .failed) (hb : b ≠ .failed) :
    (if p then a else b) ≠ .failed := by
  split
  · exact ha
  · exact hb

theorem headerError_ne_failed (h : Header) : headerError c h ≠ .failed := by
  unfold headerError
  repeat' apply ite_ne_failed
  all_goals decide

/-- A chunk is refused for its header, or counted. -/
theorem checkData_cases (c : Ctx) (data : List Byte) :
    (∃ c' e, checkData c data = (c', e) ∧ e ≠ .success ∧ e ≠ .failed) ∨
      checkData c data = (counted c data, .success) := by
  unfold checkData counted crcBehind
  by_cases hfirst : c.appOtaAddr = c.wroteAddr
  · simp only [if_pos hfirst]
    by_cases hshort : data.length < headerSize
    · have hcheck : checkHeader c data = (c, .invalidParam) := if_pos hshort
      rw [hcheck]
      exact .inl ⟨c, .invalidParam, rfl, by decide, by decide⟩
    · have hcheck : checkHeader c data =
          ({ c with otaHeader := data.take headerSize }, headerError c (data.take headerSize)) := if_neg hshort
      rw [hcheck]
      by_cases herror : headerError c (data.take headerSize) = .success
      · exact .inr (if_pos herror)
      · exact .inl ⟨_, _, if_neg herror, herror, headerError_ne_failed _⟩
  · simp only [if_neg hfirst]
    exact .inr trivial

/-- A call that fails for the flash: the erase fails and nothing has changed, or the write does and the chunk has been
counted. -/
theorem failed_cases (h : opsWrite io c data = (c', .failed)) :
    erases c data.length = true ∧ io.erase = false ∧ c' = c ∨
      ¬ (erases c data.length = true ∧ io.erase = false) ∧ c' = counted c data ∧
        checkData c data = (counted c data, .success) ∧
        opsWrite flashOk c data = ({ counted c data with wroteAddr := add32 c.wroteAddr data.length }, .success) := by
  unfold opsWrite at h ⊢
  dsimp only at h ⊢
  split at h
  next => nomatch h
  next hargs =>
    split at h
    next => nomatch h
    next hroom =>
      split at h
      next herase => exact .inl ⟨herase.1, herase.2, (Prod.mk.inj h).1.symm⟩
      next herase =>
        rcases checkData_cases c data with ⟨c₁, e, hcheck, hne, hnf⟩ | hcheck
        · rw [hcheck] at h
          simp only [if_neg hne] at h
          exact absurd (Prod.mk.inj h).2 hnf
        · rw [hcheck] at h
          simp only [if_true] at h
          split at h
          next => nomatch h
          next =>
            have hok : ¬ (erases c data.length = true ∧ flashOk.erase = false) := fun h => nomatch h.2
            refine .inr ⟨herase, (Prod.mk.inj h).1.symm, hcheck, ?_⟩
            rw [if_neg hargs, if_neg hroom, if_neg hok, hcheck]
            rfl

/-- The header check of the first chunk looks at the addresses only. -/
theorem checkData_counted (hfirst : c.appOtaAddr = c.wroteAddr) (h : checkData c data = (counted c data, .success)) :
    checkData (counted c data) data = (counted c data, .success) := by
  have hsame : counted (counted c data) data = counted c data := by
    simp only [counted, crcBehind, if_pos hfirst]
  have hresult : (checkData (counted c data) data).2 = (checkData c data).2 := by
    have hfirst' : (counted c data).appOtaAddr = (counted c data).wroteAddr := hfirst
    have herror : headerError (counted c data) (data.take headerSize) = headerError c (data.take headerSize) := rfl
    simp only [checkData, checkHeader, if_pos hfirst, if_pos hfirst']
    by_cases hshort : data.length < headerSize
    · simp only [if_pos hshort]
      rfl
    · simp only [if_neg hshort, herror]
      split <;> rfl
  rcases checkData_cases (counted c data) data with ⟨c₁, e, hcheck, hne, -⟩ | hcheck
  · rw [hcheck, h] at hresult
    exact absurd hresult hne
  · rw [hcheck, hsame]

/-- A chunk that has been counted without a change of the CRC is written again as the first time. -/
theorem write_again (hcheck : checkData c data = (counted c data, .success))
    (h : opsWrite flashOk c data = ({ counted c data with wroteAddr := add32 c.wroteAddr data.length }, .success))
    (hcrc : crcBehind c data = c.crcCtx) : opsWrite flashOk (counted c data) data = opsWrite flashOk c data := by
  by_cases hfirst : c.appOtaAddr = c.wroteAddr
  · have hagain := checkData_counted hfirst hcheck
    unfold opsWrite at h ⊢
    dsimp only at h ⊢
    have haddr : (counted c data).appOtaAddr = c.appOtaAddr := rfl
    have hsize : (counted c data).appOtaSize = c.appOtaSize := rfl
    have hwrote : (counted c data).wroteAddr = c.wroteAddr := rfl
    have herases : erases (counted c data) data.length = erases c data.length := rfl
    rw [haddr, hsize, hwrote, herases, hagain, hcheck]
    split at h
    next => exact absurd (Prod.mk.inj h).2 (by decide)
    next hargs =>
      split at h
      next => exact absurd (Prod.mk.inj h).2 (by decide)
      next hroom =>
        split at h
        next => exact absurd (Prod.mk.inj h).2 (by decide)
        next herase => rw [if_neg hargs, if_neg hroom, if_neg herase, if_neg hargs, if_neg hroom, if_neg herase]
  · have hsame : counted c data = c := by
      unfold counted
      rw [if_neg hfirst, hcrc]
    rw [hsame]

end

/-! ## A device -/

/-- The header of the image of three bytes. -/
def imageHeader : Header :=
  let h := [magicNo, 1, 0x80D0400, 3, 0x80D0000, 0, (Crc32.update 0xFFFFFFFF#32 image).toNat, 0, 0, 0, 0, 0, 0, 0,
    0].flatMap (LittleEndian.pack 4)
  h ++ LittleEndian.pack 4 (Crc32.update 0xFFFFFFFF#32 h).toNat

/-- The context behind the header. -/
def headed : Ctx := (opsWrite flashOk begun imageHeader).1

theorem eq_of_result {step : Ctx × Err} {e : Err} (h : step.2 = e) : step = (step.1, e) := by
  rw [← h]

end WmIot.Ota
