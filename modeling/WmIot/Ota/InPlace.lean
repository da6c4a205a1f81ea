import WmIot.Ota.Sectors

/-!
# Updates and the partition

A run of writes in sequential mode that ends on a sector, with a chunk that starts inside one, erases the sector
behind its end. At the end of the partition that is a sector of another partition.
-/

namespace WmIot.Ota
open NorFlash
set_option autoImplicit false

theorem eraseRegion_true {f : Dev} {addr len : Nat} (h : (f.eraseRegion addr len).2 = true) :
    (f.eraseRegion addr len).1 = { f with mem := erase f.mem addr len } := by
  unfold Dev.eraseRegion at h ⊢
  split at h
  next => cases h
  next hin => rw [if_neg hin]

theorem erase_nothing (f : Flash) (addr : Nat) : erase f addr 0 = f := by
  funext a
  exact if_neg (by omega)

/-- A beginning erases the last sector of the partition and a part at its start. -/
theorem flashBegin_spec {f f₁ : Dev} {c c₁ : Ctx} {imageSize : Nat} (hplaced : Placed f c)
    (haddr : c.appOtaAddr % sectorSize = 0) (hsize : c.appOtaSize % sectorSize = 0)
    (hbegin : flashBegin f c imageSize = (f₁, c₁, .success)) :
    ∃ len, len ≤ c.appOtaSize ∧
      f₁ = { f with
        mem := erase (erase f.mem (c.appOtaAddr + c.appOtaSize - sectorSize) sectorSize) c.appOtaAddr len } ∧
      c₁ = { c with
        wroteAddr := c.appOtaAddr
        needErase := decide (imageSize = otaWithSequentialWrites) } := by
  have hpos := hplaced.pos
  have hinside := hplaced.inside
  have hlt := hplaced.sizeLt
  have htail : sub32 (add32 c.appOtaAddr c.appOtaSize) sectorSize = c.appOtaAddr + c.appOtaSize - sectorSize := by
    unfold sub32 add32
    unfold sectorSize at *
    omega
  unfold flashBegin at hbegin
  dsimp only at hbegin
  rw [if_neg (Nat.ne_of_gt hpos), htail] at hbegin
  split at hbegin
  next => cases hbegin
  next hok =>
    rw [eraseRegion_true (Bool.eq_true_of_not_eq_false hok)] at hbegin
    by_cases hseq : imageSize = otaWithSequentialWrites
    · rw [if_pos hseq] at hbegin
      obtain ⟨rfl, hctx⟩ := Prod.mk.inj hbegin
      obtain ⟨rfl, _⟩ := Prod.mk.inj hctx
      exact ⟨0, Nat.zero_le _, by rw [erase_nothing], by rw [decide_eq_true hseq]⟩
    · rw [if_neg hseq] at hbegin
      split at hbegin
      next => cases hbegin
      next himage =>
        split at hbegin
        next hfull =>
          rw [eraseRegion_true hfull] at hbegin
          dsimp only at hbegin
          obtain ⟨rfl, hctx⟩ := Prod.mk.inj hbegin
          obtain ⟨rfl, _⟩ := Prod.mk.inj hctx
          refine ⟨beginLen { c with wroteAddr := c.appOtaAddr } imageSize, ?_, rfl, by rw [decide_eq_false hseq]⟩
          unfold beginLen
          dsimp only
          split
          next => exact Nat.le_refl _
          next hexact =>
            have hfits : imageSize ≤ c.appOtaSize := by
              by_contra hover
              exact himage ⟨fun h => hexact (Or.inl h), fun h => hexact (Or.inr h), by omega⟩
            unfold add32
            unfold sectorSize at *
            omega
        next => cases hbegin

/-! ## The partition -/

/-- The flash from the start of the partition up to the address of the next write is the data, and outside of the
partition nothing has changed. -/
structure KeepsWritten (f : Dev) (c : Ctx) (out : Outcome) (data : List Byte) : Prop where
  data : readBytes out.dev.mem c.appOtaAddr (out.ctx.wroteAddr - c.appOtaAddr) = data
  outside : ∀ a, a < c.appOtaAddr ∨ c.appOtaAddr + c.appOtaSize ≤ a → out.dev.mem a = f.mem a

/-- The chunks of a sequential update fill the partition, and the last one starts inside a sector. -/
def FillsFromInside (c : Ctx) (imageSize : Nat) (chunks : List (List Byte)) : Prop :=
  imageSize = otaWithSequentialWrites ∧ chunks.flatten.length = c.appOtaSize ∧
    ∃ d ∈ chunks.getLast?, d.length % sectorSize ≠ 0

theorem readBytes_laidOut (f : Flash) (addr hi : Nat) (data : List Byte) :
    readBytes (laidOut f addr data hi) addr data.length = data := by
  apply List.ext_getElem (readBytes_length _ _ _)
  intro k h₁ h₂
  simp only [readBytes, List.getElem_map, List.getElem_range]
  rw [laidOut, if_pos (by omega), Nat.add_sub_cancel_left, List.getD_eq_getElem _ _ h₂]

theorem laidOut_blank {f : Flash} {addr hi a : Nat} {data : List Byte}
    (hsector : (addr + (sectorSize - 1)) / sectorSize * sectorSize ≤ a) (hlo : addr + data.length ≤ a) (hhi : a < hi) :
    laidOut f addr data hi a = blank := by
  rw [laidOut, if_neg (by omega), if_pos ⟨hsector, hlo, hhi⟩]

/-- Erasing goes over the end of the partition only if the chunks fill it and the last one starts inside a sector. -/
theorem lastEnd_partition (needErase : Bool) {addr size : Nat} {chunks : List (List Byte)}
    (haddr : addr % sectorSize = 0) (hsize : size % sectorSize = 0) (hfit : chunks.flatten.length ≤ size) :
    (lastEnd needErase addr (startFront needErase addr) chunks = addr + size + sectorSize ∧ needErase = true ∧
        chunks.flatten.length = size ∧ ∃ d ∈ chunks.getLast?, d.length % sectorSize ≠ 0) ∨
      lastEnd needErase addr (startFront needErase addr) chunks ≤ addr + size ∧
        ¬ (needErase = true ∧ chunks.flatten.length = size ∧ ∃ d ∈ chunks.getLast?, d.length % sectorSize ≠ 0) := by
  rcases List.eq_nil_or_concat chunks with rfl | ⟨pre, d, rfl⟩
  · refine Or.inr ⟨?_, ?_⟩
    · show startFront needErase addr ≤ addr + size
      unfold startFront
      unfold sectorSize at *
      split <;> omega
    · rintro ⟨_, _, d, hd, _⟩
      cases hd
  · rw [List.concat_eq_append] at hfit ⊢
    rw [lastEnd_concat]
    have hlast : (pre ++ [d]).getLast? = some d := List.getLast?_concat
    have hlen : (pre ++ [d]).flatten.length = pre.flatten.length + d.length := by
      rw [List.flatten_append, List.length_append, List.flatten_singleton]
    simp only [hlast, hlen, Option.mem_some_iff, exists_eq_left'] at hfit ⊢
    unfold eraseEnd
    cases needErase with
    | false =>
      rw [if_neg (Bool.noConfusion : ¬ false = true)]
      exact Or.inr ⟨by omega, fun h => Bool.noConfusion h.1⟩
    | true =>
      rw [if_pos rfl]
      unfold sectorSize at *
      by_cases hfill : pre.flatten.length + d.length = size
      · by_cases hwhole : d.length % 4096 = 0
        · rw [if_pos (by omega)]
          exact Or.inr ⟨by omega, fun h => h.2.2 hwhole⟩
        · rw [if_neg (fun h => hwhole h.2)]
          exact Or.inl ⟨by omega, rfl, hfill, hwhole⟩
      · refine Or.inr ⟨?_, fun h => hfill h.2.1⟩
        split <;> omega

/-- A run of writes keeps to the partition unless the partition is empty, or the writes are sequential and fill it
with a last chunk that starts inside a sector; unless what is erased outside was blank. -/
theorem writes_keep_iff {f f₁ : Dev} {c c₁ : Ctx} {imageSize : Nat} {chunks : List (List Byte)} (hplaced : Placed f c)
    (haddr : c.appOtaAddr % sectorSize = 0) (hsize : c.appOtaSize % sectorSize = 0)
    (hbegin : flashBegin f c imageSize = (f₁, c₁, .success)) (htaken : (writeAll f₁ c₁ chunks).stop = none) :
    KeepsWritten f c₁ (writeAll f₁ c₁ chunks) chunks.flatten ↔
      (c.appOtaSize = 0 → BlankOn f.mem (c.appOtaAddr - sectorSize) c.appOtaAddr) ∧
        (FillsFromInside c imageSize chunks →
          BlankOn f.mem (c.appOtaAddr + c.appOtaSize) (c.appOtaAddr + c.appOtaSize + sectorSize)) := by
  have hpos := hplaced.pos
  obtain ⟨len, hlen, rfl, rfl⟩ := flashBegin_spec hplaced haddr hsize hbegin
  obtain ⟨hne, hcheck⟩ := writeAll_taken htaken
  generalize hg : erase (erase f.mem (c.appOtaAddr + c.appOtaSize - sectorSize) sectorSize) c.appOtaAddr len = g
    at htaken ⊢
  rcases writeAll_cases g chunks ⟨f.size, g⟩
    { c with wroteAddr := c.appOtaAddr, needErase := decide (imageSize = otaWithSequentialWrites) } []
    (startFront (decide (imageSize = otaWithSequentialWrites)) c.appOtaAddr)
    ⟨hpos, hplaced.inside, hplaced.sizeLt, hplaced.sectors⟩ rfl (Nat.le_add_right _ _) (Front.start _ _)
    (laidOut_start g _ _).symm hne (fun _ => hcheck) with ⟨_, hwritten⟩ | ⟨pre, d, post, _, hstops⟩
  · have hmem := hwritten.mem
    have hwrote := hwritten.wrote
    have hwithin := hwritten.within
    dsimp only at hmem hwrote hwithin
    rw [List.nil_append] at hmem
    have hfit : chunks.flatten.length ≤ c.appOtaSize := by omega
    have hlast := lastEnd_partition (decide (imageSize = otaWithSequentialWrites)) haddr hsize hfit
    rw [decide_eq_true_iff] at hlast
    generalize lastEnd (decide (imageSize = otaWithSequentialWrites)) c.appOtaAddr
      (startFront (decide (imageSize = otaWithSequentialWrites)) c.appOtaAddr) chunks = hi at hmem hlast
    generalize writeAll _ _ _ = out at hmem hwrote htaken ⊢
    have hdata : readBytes out.dev.mem c.appOtaAddr (out.ctx.wroteAddr - c.appOtaAddr) = chunks.flatten := by
      rw [hmem, hwrote, Nat.add_sub_cancel_left]
      exact readBytes_laidOut _ _ _ _
    have hg' : ∀ a, a < c.appOtaAddr ∨ c.appOtaAddr + c.appOtaSize ≤ a →
        g a = if c.appOtaSize = 0 ∧ c.appOtaAddr - sectorSize ≤ a ∧ a < c.appOtaAddr then blank else f.mem a := by
      intro a ha
      rw [← hg, erase_apply_out (by omega)]
      unfold erase sectorSize at *
      split <;> split <;> first | rfl | omega
    have hout : ∀ a, a < c.appOtaAddr ∨ c.appOtaAddr + c.appOtaSize ≤ a →
        out.dev.mem a = if c.appOtaAddr + c.appOtaSize ≤ a ∧ a < hi then blank else g a := by
      intro a ha
      rw [hmem, laidOut, if_neg (by omega)]
      congr 1
      apply propext
      unfold sectorSize at *
      omega
    constructor
    · intro hkeeps
      refine ⟨?_, ?_⟩
      · intro hempty a hlo hhi
        rw [← hkeeps.outside a (Or.inl hhi), hout a (Or.inl hhi), if_neg (by omega), hg' a (Or.inl hhi),
          if_pos ⟨hempty, hlo, hhi⟩]
      · intro hfills a hlo hhi
        rcases hlast with ⟨hend, _⟩ | ⟨_, hno⟩
        · rw [← hkeeps.outside a (Or.inr hlo), hout a (Or.inr hlo), if_pos ⟨hlo, by omega⟩]
        · exact absurd hfills hno
    · rintro ⟨hempty, hfills⟩
      refine ⟨hdata, ?_⟩
      intro a ha
      rw [hout a ha]
      by_cases hbehind : c.appOtaAddr + c.appOtaSize ≤ a ∧ a < hi
      · rw [if_pos hbehind]
        rcases hlast with ⟨hend, hfill⟩ | ⟨hend, _⟩
        · exact (hfills hfill a hbehind.1 (by omega)).symm
        · omega
      · rw [if_neg hbehind, hg' a ha]
        split
        next htail => exact (hempty htail.1 a htail.2.1 htail.2.2).symm
        next => rfl
  · rw [hstops.stop] at htaken
    cases htaken

/-- Where the flash has room for a sector behind the partition, every chunk that fits is taken. -/
theorem written_of_room {f : Dev} {c : Ctx} {chunks : List (List Byte)} (hplaced : Placed f c)
    (hstart : c.wroteAddr = c.appOtaAddr) (hroom : c.appOtaAddr + c.appOtaSize + sectorSize ≤ f.size)
    (hfit : chunks.flatten.length ≤ c.appOtaSize) (hne : ∀ d ∈ chunks, d ≠ [])
    (hcheck : ∀ d ∈ chunks.head?, (checkData c d).2 = .success) :
    (writeAll f c chunks).stop = none ∧
      Written f f.mem [] (startFront c.needErase c.appOtaAddr) c chunks (writeAll f c chunks) := by
  have hfront : Front c.needErase c.wroteAddr (startFront c.needErase c.appOtaAddr) := by
    rw [hstart]
    exact Front.start _ _
  rcases writeAll_cases f.mem chunks f c [] _ hplaced hstart (by omega) hfront (laidOut_start f.mem _ _).symm hne
    (fun _ => hcheck) with hall | ⟨pre, d, post, rfl, hstops⟩
  · exact hall
  · have hlen : (pre ++ d :: post).flatten.length = pre.flatten.length + (d.length + post.flatten.length) := by
      rw [List.flatten_append, List.length_append, List.flatten_cons, List.length_append]
    have hend : eraseEnd c.needErase (c.wroteAddr + pre.flatten.length) d.length ≤
        c.wroteAddr + pre.flatten.length + d.length + sectorSize := by
      unfold eraseEnd sectorSize
      repeat' split
      all_goals omega
    have hcause := hstops.cause
    omega

section Example

/-- A flash of zeros with the partitions. -/
def zeros : Dev := ⟨0x200000, fun _ => 0⟩

def begunSequential : Dev × Ctx :=
  (⟨0x200000, erase (fun _ => 0) 0xCF000 0x1000⟩, { partitions with needErase := true })

theorem zeros_placed : Placed zeros partitions := ⟨by decide, by decide, by decide, by decide⟩

theorem zeros_begin :
    flashBegin zeros partitions otaWithSequentialWrites = (begunSequential.1, begunSequential.2, .success) := rfl

theorem smallHeader_checked : (checkData begunSequential.2 smallHeader).2 = .success := by decide +kernel

theorem smallHeader_length : smallHeader.length = 64 := by decide +kernel

theorem smallHeader_ne : smallHeader ≠ [] := by
  intro h
  have hlen := smallHeader_length
  rw [h] at hlen
  cases hlen

theorem header_taken {ds : List (List Byte)} (hne : ∀ d ∈ ds, d ≠ []) (hfit : 64 + ds.flatten.length ≤ 0xC0000) :
    (writeAll begunSequential.1 begunSequential.2 (smallHeader :: ds)).stop = none ∧
      Written begunSequential.1 begunSequential.1.mem [] (startFront true 0x10000) begunSequential.2 (smallHeader :: ds)
        (writeAll begunSequential.1 begunSequential.2 (smallHeader :: ds)) := by
  have hplaced : Placed begunSequential.1 begunSequential.2 := ⟨by decide, by decide, by decide, by decide⟩
  refine written_of_room hplaced rfl (by decide) ?_ ?_ ?_
  · rw [List.flatten_cons, List.length_append, smallHeader_length]
    exact hfit
  · intro d hd
    rcases List.mem_cons.mp hd with rfl | hd
    · exact smallHeader_ne
    · exact hne d hd
  · intro d hd
    obtain rfl := Option.some.inj hd
    exact smallHeader_checked

theorem writes_keep_iff_header :
    KeepsWritten zeros begunSequential.2 (writeAll begunSequential.1 begunSequential.2 [smallHeader])
      [smallHeader].flatten := by
  have htaken := (header_taken (List.forall_mem_nil _) (by decide)).1
  refine (writes_keep_iff zeros_placed (by decide) (by decide) zeros_begin htaken).mpr
    ⟨fun h => absurd h (by decide), ?_⟩
  rintro ⟨_, hfull, _⟩
  rw [List.flatten_singleton, smallHeader_length] at hfull
  exact absurd hfull (by decide)

/-- The header, and the rest of the partition in one chunk. -/
def fullPartition : List (List Byte) := [smallHeader, List.replicate 0xBFFC0 0]

theorem fullPartition_flatten : fullPartition.flatten.length = 0xC0000 := by
  rw [fullPartition, List.flatten_cons, List.flatten_singleton, List.length_append, smallHeader_length,
    List.length_replicate]

/-- Every write succeeds, and the first byte behind the partition is erased. -/
theorem writes_erase_behind :
    flashBegin zeros partitions otaWithSequentialWrites = (begunSequential.1, begunSequential.2, .success) ∧
      (writeAll begunSequential.1 begunSequential.2 fullPartition).stop = none ∧
      ¬ KeepsWritten zeros begunSequential.2 (writeAll begunSequential.1 begunSequential.2 fullPartition)
        fullPartition.flatten := by
  have hrest : (List.replicate 0xBFFC0 (0 : Byte)).length = 0xBFFC0 := List.length_replicate
  have hne : ∀ d ∈ [List.replicate 0xBFFC0 (0 : Byte)], d ≠ [] := by
    intro d hd
    rw [List.mem_singleton.mp hd, ← List.length_pos_iff, hrest]
    decide
  have hfit : 64 + [List.replicate 0xBFFC0 (0 : Byte)].flatten.length ≤ 0xC0000 := by
    rw [List.flatten_singleton, hrest]
  have htaken : (writeAll begunSequential.1 begunSequential.2 fullPartition).stop = none ∧
      Written begunSequential.1 begunSequential.1.mem [] (startFront true 0x10000) begunSequential.2 fullPartition
        (writeAll begunSequential.1 begunSequential.2 fullPartition) := header_taken hne hfit
  obtain ⟨hstop, hwritten⟩ := htaken
  refine ⟨zeros_begin, hstop, ?_⟩
  intro hkeeps
  have hmem := hwritten.mem
  have hend : lastEnd begunSequential.2.needErase begunSequential.2.wroteAddr (startFront true 0x10000)
      fullPartition = 0xD1000 := by
    have hlast : lastEnd true 0x10000 (startFront true 0x10000) fullPartition =
        eraseEnd true (0x10000 + smallHeader.length) (List.replicate 0xBFFC0 (0 : Byte)).length := rfl
    rw [smallHeader_length, hrest] at hlast
    exact hlast
  have hbehind := hkeeps.outside 0xD0000 (Or.inr (by decide))
  have hlen : ([] ++ fullPartition.flatten).length = 0xC0000 := fullPartition_flatten
  rw [hend] at hmem
  generalize writeAll begunSequential.1 begunSequential.2 fullPartition = out at hmem hbehind
  have herased : out.dev.mem 0xD0000 = blank := by
    rw [hmem]
    refine laidOut_blank (by decide) ?_ (by decide)
    rw [hlen]
    exact Nat.le_refl _
  rw [herased] at hbehind
  cases hbehind

end Example

end WmIot.Ota
