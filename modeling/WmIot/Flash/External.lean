import WmIot.Flash.Spi

/-!
# Writing an external flash when transfers fail

`wm_drv_external_flash_write` and `wm_spi_flash_erase_sectors`. The write leaves its loop at the first result that is
not success, but its own result is always success; an erase takes the result of the wait for that of the transfer.
-/

namespace WmIot.Flash.External
open NorFlash
set_option autoImplicit false

/-- What the bus does to one turn of a write. -/
structure Piece where
  read : Read
  program : Cycle

/-- The loop of a write, from its `k`-th turn on, with the value of `ret` behind it. -/
def writeLoop (pieces : Nat → Piece) : Nat → Nat → Flash → List Byte → Nat → Nat → List Byte → Err × Trace
  | 0, _, _, _, _, _, _ => (.success, [])
  | n + 1, k, f, tmp, idx, pos, src =>
    let remain := min src.length (pageSize - pos)
    let addr := idx * pageSize % 2 ^ 32
    let read := if remain ≠ pageSize then readUnit (pieces k).read f addr pageSize else (.success, tmp)
    if read.1 ≠ .success then (read.1, [])
    else
      let tmp := fill read.2 pos (src.take remain)
      let page := programPages (fun _ => (pieces k).program) addr tmp 1
      if page.1 ≠ .success then page
      else if src.length = remain then page
      else
        let rest := writeLoop pieces n (k + 1) (effect f page.2) tmp ((idx + 1) % 2 ^ 32) 0 (src.drop remain)
        (rest.1, page.2 ++ rest.2)

/-- `wm_drv_external_flash_write` of a chip of the given size, and what comes to the bus. -/
def externalFlashWrite (size : Nat) (pieces : Nat → Piece) (tmp : Option (List Byte)) (f : Flash) (offset : Nat)
    (src : List Byte) : Err × Trace :=
  if src.length = 0 then (.invalidParam, [])
  else if size < (offset + src.length) % 2 ^ 32 then (.invalidParam, [])
  else
    match tmp with
    | none => (.noMem, [])
    | some tmp =>
      let loop := writeLoop pieces src.length 0 f tmp (offset / pageSize) (offset % pageSize) src
      (.success, loop.2)

/-! ## One page -/

def Read.Passes (r : Read) : Prop := r.fate ≠ .failed ∧ waitIdle r.idle = .success

/-- The page comes to be programmed; it is read first if it is covered in part. -/
structure Piece.Programs (p : Piece) (inPart : Prop) : Prop where
  read : inPart → p.read.Passes
  enable : waitWren p.program.enable = .success
  command : p.program.command = .done

/-- The page is programmed, by a command that takes place. -/
def Programmed (t : Trace) (page : Nat) : Prop := ∃ data, (Op.program (page * pageSize) data, Fate.done) ∈ t

theorem effect_append (f : Flash) (t t' : Trace) : effect f (t ++ t') = effect (effect f t) t' := by
  rw [effect, taken, List.filterMap_append, replay_append]
  rfl

theorem readUnit_success {r : Read} {f : Flash} {flashAddr len : Nat} :
    (readUnit r f flashAddr len).1 = .success ↔ r.Passes := by
  unfold readUnit Read.Passes
  by_cases hfate : r.fate = .failed
  · rw [if_pos hfate]
    exact ⟨nofun, fun h => absurd hfate h.1⟩
  · rw [if_neg hfate]
    by_cases hidle : waitIdle r.idle = .success
    · rw [if_neg (not_not.mpr hidle)]
      exact ⟨fun _ => ⟨hfate, hidle⟩, fun _ => rfl⟩
    · rw [if_pos hidle]
      exact ⟨fun h => absurd h hidle, fun h => absurd h.2 hidle⟩

theorem readUnit_length {r : Read} (h : r.Passes) (f : Flash) (flashAddr len : Nat) :
    (readUnit r f flashAddr len).2.length = len := by
  rw [readUnit, if_neg h.1, if_neg (not_not.mpr h.2)]
  split
  next => exact readBytes_length _ _ _
  next => rw [List.length_map, List.length_range]

/-- The addresses of a chip come to it as they are. -/
theorem programOps_eq {flashAddr n : Nat} (hle : flashAddr + n * pageSize ≤ 2 ^ 24) (buf : List Byte) :
    programOps flashAddr buf n = writePages flashAddr buf n := by
  apply List.map_congr_left
  intro k hk
  have hpage : 0 < pageSize := by decide
  obtain ⟨hsent, hlast⟩ := sent_unit hpage hle (List.mem_range.mp hk)
  rw [hsent, Nat.mod_eq_of_lt (by omega)]

section Page
variable {addr : Nat}

theorem programPages_one (c : Cycle) (buf : List Byte) (hle : addr + pageSize ≤ 2 ^ 24) :
    ((programPages (fun _ => c) addr buf 1).1 = .success ↔ c.Passes true) ∧
      (programPages (fun _ => c) addr buf 1).2 =
        if waitWren c.enable = .success then [(.program addr (buf.take pageSize), c.command)] else [] := by
  have hpage : 0 < pageSize := by decide
  obtain ⟨hsent, _⟩ := sent_unit hpage (show addr + 1 * pageSize ≤ 2 ^ 24 by omega) Nat.one_pos
  have hops : programOps addr buf 1 = [.program addr (buf.take pageSize)] := by
    rw [programOps, List.range_one, List.map_singleton, hsent, Nat.zero_mul, Nat.add_zero, List.drop_zero]
  rw [programPages, hops]
  constructor
  · refine runOps_success.1.trans ⟨fun h => h 0 Nat.one_pos, fun h i _ => h⟩
  · rw [runOps]
    dsimp only
    by_cases henable : waitWren c.enable = .success
    · rw [if_neg (not_not.mpr henable), if_pos henable]
      by_cases hcommand : true = true ∧ c.command = .failed
      · rw [if_pos hcommand]
      · rw [if_neg hcommand]
        by_cases hidle : waitIdle c.idle = .success
        · rw [if_neg (not_not.mpr hidle), runOps]
        · rw [if_pos hidle]
    · rw [if_pos henable, if_neg henable]

end Page

/-! ## The loop of a write -/

/-- The pages of a range that begins at a position of the first one. -/
def pagesOf (pos len : Nat) : Nat := (pos + len + (pageSize - 1)) / pageSize

/-- The range covers the whole `k`-th of its pages. -/
def Whole (pos len k : Nat) : Prop := pos ≤ k * pageSize ∧ (k + 1) * pageSize ≤ pos + len

/-- Every page comes to be programmed, and the wait behind each but the last succeeds. -/
def Through (pieces : Nat → Piece) (pos len : Nat) : Prop :=
  ∀ k < pagesOf pos len, (pieces k).Programs (¬ Whole pos len k) ∧
    (k + 1 < pagesOf pos len → waitIdle (pieces k).program.idle = .success)

section Loop
variable {pieces : Nat → Piece} {pos len : Nat}

theorem through_last (hpos : pos < pageSize) (hlen : 0 < len) (hlast : len ≤ pageSize - pos) :
    Through pieces pos len ↔ (pieces 0).Programs (min len (pageSize - pos) ≠ pageSize) := by
  have hpages : pagesOf pos len = 1 := by
    unfold pagesOf pageSize at *
    omega
  have hwhole : Whole pos len 0 ↔ min len (pageSize - pos) = pageSize := by
    unfold Whole
    omega
  rw [Through, hpages, ne_eq, ← hwhole]
  constructor
  · intro h
    exact (h 0 Nat.one_pos).1
  · intro h k hk
    obtain rfl : k = 0 := by omega
    exact ⟨h, fun hmore => absurd hmore (Nat.lt_irrefl 1)⟩

theorem through_more (hpos : pos < pageSize) (hmore : pageSize - pos < len) :
    Through pieces pos len ↔ (pieces 0).Programs (min len (pageSize - pos) ≠ pageSize) ∧
      waitIdle (pieces 0).program.idle = .success ∧
        Through (fun k => pieces (k + 1)) 0 (len - min len (pageSize - pos)) := by
  have hpages : pagesOf pos len = pagesOf 0 (len - min len (pageSize - pos)) + 1 := by
    unfold pagesOf pageSize at *
    omega
  have hrest : 0 < pagesOf 0 (len - min len (pageSize - pos)) := by
    unfold pagesOf pageSize at *
    omega
  have hwhole : Whole pos len 0 ↔ min len (pageSize - pos) = pageSize := by
    unfold Whole
    omega
  have hnext : ∀ k, Whole pos len (k + 1) ↔ Whole 0 (len - min len (pageSize - pos)) k := by
    intro k
    have hsucc : (k + 1 + 1) * pageSize = (k + 1) * pageSize + pageSize := Nat.succ_mul _ _
    have hle : pageSize ≤ (k + 1) * pageSize := Nat.le_mul_of_pos_left _ k.succ_pos
    unfold Whole
    omega
  rw [Through, hpages, ne_eq, ← hwhole]
  constructor
  · intro h
    refine ⟨(h 0 (by omega)).1, (h 0 (by omega)).2 (by omega), fun k hk => ?_⟩
    obtain ⟨hprogram, hidle⟩ := h (k + 1) (by omega)
    rw [hnext k] at hprogram
    exact ⟨hprogram, fun hlt => hidle (by omega)⟩
  · rintro ⟨hprogram, hidle, htail⟩ k hk
    cases k with
    | zero => exact ⟨hprogram, fun _ => hidle⟩
    | succ k =>
      rw [hnext k]
      obtain ⟨hprogram', hidle'⟩ := htail k (by omega)
      exact ⟨hprogram', fun hlt => hidle' (by omega)⟩

variable {n k idx : Nat} {f : Flash} {tmp src : List Byte}

theorem page_fits {n : Nat} (hle : idx * pageSize + n ≤ 2 ^ 24) (hn : 0 < n) : idx * pageSize + pageSize ≤ 2 ^ 24 := by
  have hpages : 2 ^ 24 = 2 ^ 16 * pageSize := by decide
  have hlt : idx < 2 ^ 16 := by
    apply Nat.lt_of_mul_lt_mul_right (a := pageSize)
    omega
  rw [← Nat.succ_mul, hpages]
  exact Nat.mul_le_mul_right pageSize hlt

theorem nextPage (h : idx * pageSize + pageSize ≤ 2 ^ 24) : (idx + 1) % 2 ^ 32 = idx + 1 := by
  have hidx : idx ≤ idx * pageSize := Nat.le_mul_of_pos_right idx (by decide)
  omega

theorem writeLoop_stops (h : ¬ (min src.length (pageSize - pos) ≠ pageSize → (pieces k).read.Passes)) :
    (writeLoop pieces (n + 1) k f tmp idx pos src).2 = [] := by
  obtain ⟨hpart, hread⟩ := Classical.not_imp.mp h
  have hret : (readUnit (pieces k).read f (idx * pageSize % 2 ^ 32) pageSize).1 ≠ .success :=
    readUnit_success.not.mpr hread
  rw [writeLoop]
  dsimp only
  rw [if_pos hpart, if_pos hret]

/-- A turn programs its page, and goes on if nothing failed. -/
theorem writeLoop_turn (n : Nat) (f : Flash) (tmp : List Byte) (haddr : idx * pageSize + pageSize ≤ 2 ^ 24)
    (hpos : pos < pageSize) (hread : min src.length (pageSize - pos) ≠ pageSize → (pieces k).read.Passes) :
    ∃ buf : List Byte, pageSize ≤ buf.length ∧
      (∀ i, pos ≤ i → i < pos + min src.length (pageSize - pos) → buf.getD i blank = src.getD (i - pos) blank) ∧
      (writeLoop pieces (n + 1) k f tmp idx pos src).2 =
        if waitWren (pieces k).program.enable = .success then
          (.program (idx * pageSize) (buf.take pageSize), (pieces k).program.command) ::
            if (pieces k).program.Passes true ∧ src.length ≠ min src.length (pageSize - pos) then
              (writeLoop pieces n (k + 1)
                (effect f [(.program (idx * pageSize) (buf.take pageSize), (pieces k).program.command)]) buf
                ((idx + 1) % 2 ^ 32) 0 (src.drop (min src.length (pageSize - pos)))).2
            else []
        else [] := by
  have hmask : idx * pageSize % 2 ^ 32 = idx * pageSize := by omega
  rw [writeLoop, hmask]
  dsimp only
  generalize hremain : min src.length (pageSize - pos) = remain at *
  have hok : (if remain ≠ pageSize then readUnit (pieces k).read f (idx * pageSize) pageSize
      else (.success, tmp)).1 = .success := by
    split
    next h => exact readUnit_success.mpr (hread h)
    next => rfl
  have hlen : remain ≠ pageSize → (if remain ≠ pageSize then readUnit (pieces k).read f (idx * pageSize) pageSize
      else (.success, tmp)).2.length = pageSize := by
    intro h
    rw [if_pos h]
    exact readUnit_length (hread h) _ _ _
  generalize (if remain ≠ pageSize then readUnit (pieces k).read f (idx * pageSize) pageSize
      else (.success, tmp)) = page at hok hlen ⊢
  have htake : (src.take remain).length = remain := List.length_take_of_le (by omega)
  have hposLen : pos ≤ page.2.length := by
    by_cases h : remain = pageSize
    · omega
    · rw [hlen h]
      omega
  rw [if_neg (not_not.mpr hok)]
  refine ⟨fill page.2 pos (src.take remain), ?_, fun i hlo hhi => ?_, ?_⟩
  · rw [fill_length hposLen, htake]
    by_cases h : remain = pageSize
    · omega
    · rw [hlen h]
      omega
  · rw [fill_getD hposLen, htake, if_pos ⟨hlo, hhi⟩, List.getD_eq_getElem?_getD, List.getElem?_take_of_lt (by omega),
      List.getD_eq_getElem?_getD]
  · obtain ⟨hret, htrace⟩ := programPages_one (pieces k).program (fill page.2 pos (src.take remain)) haddr
    by_cases henable : waitWren (pieces k).program.enable = .success
    · rw [if_pos henable] at htrace ⊢
      by_cases hpass : (pieces k).program.Passes true
      · rw [if_neg (not_not.mpr (hret.mpr hpass))]
        by_cases hlast : src.length = remain
        · rw [if_pos hlast, htrace, if_neg (fun h => h.2 hlast)]
        · rw [if_neg hlast, htrace, if_pos ⟨hpass, hlast⟩]
          rfl
      · rw [if_pos (hret.not.mpr hpass), htrace, if_neg (fun h => hpass h.1)]
    · rw [if_neg henable] at htrace ⊢
      have hstop : ¬ (pieces k).program.Passes true := fun h => henable h.1
      rw [if_pos (hret.not.mpr hstop), htrace]

/-- The commands are programs of pages from one page on. -/
def PagesFrom (idx : Nat) (t : Trace) : Prop :=
  ∀ c ∈ t, ∃ page data, idx ≤ page ∧ data.length = pageSize ∧ c.1 = .program (page * pageSize) data

theorem writeLoop_pages : ∀ {n k idx pos : Nat} {f : Flash} {tmp src : List Byte}, pos < pageSize → 0 < src.length →
    idx * pageSize + pos + src.length ≤ 2 ^ 24 → PagesFrom idx (writeLoop pieces n k f tmp idx pos src).2 := by
  intro n
  induction n with
  | zero => exact fun _ _ _ _ hc => absurd hc List.not_mem_nil
  | succ n ih =>
    intro k idx pos f tmp src hpos hsrc hle c hc
    have hfits : idx * pageSize + pageSize ≤ 2 ^ 24 := page_fits (n := pos + src.length) (by omega) (by omega)
    by_cases hread : min src.length (pageSize - pos) ≠ pageSize → (pieces k).read.Passes
    · obtain ⟨buf, hbuf, _, htrace⟩ := writeLoop_turn n f tmp hfits hpos hread
      rw [htrace] at hc
      split at hc
      next =>
        rcases List.mem_cons.mp hc with rfl | hc
        · exact ⟨idx, _, Nat.le_refl idx, List.length_take_of_le hbuf, rfl⟩
        · split at hc
          next hmore =>
            have hne := hmore.2
            have hnext := nextPage hfits
            have hsucc : (idx + 1) * pageSize = idx * pageSize + pageSize := Nat.succ_mul _ _
            have hdrop := List.length_drop (l := src) (i := min src.length (pageSize - pos))
            rw [hnext] at hc
            obtain ⟨page, data, hpage, hdata⟩ := ih (Nat.zero_lt_of_lt hpos) (by omega) (by omega) c hc
            exact ⟨page, data, by omega, hdata⟩
          next => exact absurd hc List.not_mem_nil
      next => exact absurd hc List.not_mem_nil
    · rw [writeLoop_stops hread] at hc
      exact absurd hc List.not_mem_nil

/-- Commands for later pages leave the earlier ones. -/
theorem effect_before {t : Trace} (h : PagesFrom idx t) (f : Flash) {a : Nat} (ha : a < idx * pageSize) :
    effect f t a = f a := by
  have hkept : AgreeOn (effect f t) f 0 (idx * pageSize) := by
    apply replay_agreeOn
    intro op hop b _ hb htouches
    obtain ⟨c, hc, hop⟩ := List.mem_filterMap.mp hop
    obtain ⟨page, data, hpage, _, hc'⟩ := h c hc
    split at hop
    next =>
      obtain rfl := Option.some.inj hop
      rw [hc'] at htouches
      have hle : idx * pageSize ≤ page * pageSize := Nat.mul_le_mul_right pageSize hpage
      simp only [Op.Touches] at htouches
      omega
    next => cases hop
  exact hkept a (Nat.zero_le a) ha

theorem effect_page {buf : List Byte} (hbuf : pageSize ≤ buf.length) (f : Flash) (addr a : Nat) :
    effect f [(.program addr (buf.take pageSize), .done)] a =
      if addr ≤ a ∧ a < addr + pageSize then f a &&& buf.getD (a - addr) blank else f a := by
  have hlen : (buf.take pageSize).length = pageSize := List.length_take_of_le hbuf
  have htaken : taken [(.program addr (buf.take pageSize), .done)] = [.program addr (buf.take pageSize)] := rfl
  rw [effect, htaken, replay_cons, replay_nil]
  simp only [Op.apply, program, hlen]
  split
  next hin =>
    rw [List.getD_eq_getElem?_getD, List.getD_eq_getElem?_getD, List.getElem?_take_of_lt (by omega)]
  next => rfl

/-- The bytes from `start` on are programmed over the old ones. -/
def RangeWritten (f g : Flash) (start : Nat) (src : List Byte) : Prop :=
  ∀ i < src.length, g (start + i) = f (start + i) &&& src.getD i blank

/-- If every page comes to be programmed, the range is written. -/
theorem writeLoop_through : ∀ {n k idx pos : Nat} (f : Flash) (tmp : List Byte) {src : List Byte}, src.length ≤ n →
    pos < pageSize → 0 < src.length → idx * pageSize + pos + src.length ≤ 2 ^ 24 →
    Through (fun i => pieces (k + i)) pos src.length →
    (∀ page, idx ≤ page → page * pageSize < idx * pageSize + pos + src.length →
      Programmed (writeLoop pieces n k f tmp idx pos src).2 page) ∧
    RangeWritten f (effect f (writeLoop pieces n k f tmp idx pos src).2) (idx * pageSize + pos) src := by
  intro n
  induction n with
  | zero => intro k idx pos f tmp src hn hpos hsrc; omega
  | succ n ih =>
    intro k idx pos f tmp src hn hpos hsrc hle hthrough
    have hfits : idx * pageSize + pageSize ≤ 2 ^ 24 := page_fits (n := pos + src.length) (by omega) (by omega)
    have hsucc : (idx + 1) * pageSize = idx * pageSize + pageSize := Nat.succ_mul _ _
    rcases Nat.lt_or_ge (pageSize - pos) src.length with hmore | hlast
    · obtain ⟨hprogram, hidle, htail⟩ := (through_more hpos hmore).mp hthrough
      have hprogram : (pieces k).Programs (min src.length (pageSize - pos) ≠ pageSize) := hprogram
      obtain ⟨buf, hbuf, hpiece, htrace⟩ := writeLoop_turn n f tmp hfits hpos hprogram.read
      have hpass : (pieces k).program.Passes true := by
        refine ⟨hprogram.enable, fun h => ?_, hidle⟩
        rw [hprogram.command] at h
        cases h.2
      have hdrop := List.length_drop (l := src) (i := min src.length (pageSize - pos))
      rw [if_pos hprogram.enable, if_pos ⟨hpass, by omega⟩, hprogram.command, nextPage hfits] at htrace
      have htail : Through (fun i => pieces (k + 1 + i)) 0 (src.drop (min src.length (pageSize - pos))).length := by
        rw [hdrop]
        have hidx : ∀ i, k + 1 + i = k + (i + 1) := by
          intro i
          omega
        simpa only [hidx] using htail
      have hpages : PagesFrom (idx + 1) (writeLoop pieces n (k + 1)
          (effect f [(.program (idx * pageSize) (buf.take pageSize), .done)]) buf (idx + 1) 0
          (src.drop (min src.length (pageSize - pos)))).2 :=
        writeLoop_pages (Nat.zero_lt_of_lt hpos) (by omega) (by omega)
      have hfitsRest : (idx + 1) * pageSize + 0 + (src.drop (min src.length (pageSize - pos))).length ≤ 2 ^ 24 := by
        omega
      obtain ⟨hcommands, hstored⟩ := ih (effect f [(.program (idx * pageSize) (buf.take pageSize), .done)]) buf
        (by omega) (Nat.zero_lt_of_lt hpos) (by omega) hfitsRest htail
      rw [htrace]
      refine ⟨fun page hlo hhi => ?_, fun i hi => ?_⟩
      · rcases Nat.eq_or_lt_of_le hlo with rfl | hlo
        · exact ⟨_, List.mem_cons_self⟩
        · obtain ⟨data, hdata⟩ := hcommands page hlo (by omega)
          exact ⟨data, List.mem_cons_of_mem _ hdata⟩
      · rw [← List.singleton_append, effect_append]
        rcases Nat.lt_or_ge i (pageSize - pos) with hfirst | hrest
        · rw [effect_before hpages _ (by omega), effect_page hbuf, if_pos (by omega), hpiece _ (by omega) (by omega)]
          congr 2
          omega
        · have hnext := hstored (i - (pageSize - pos)) (by omega)
          have haddr : (idx + 1) * pageSize + 0 + (i - (pageSize - pos)) = idx * pageSize + pos + i := by omega
          have hidx : min src.length (pageSize - pos) + (i - (pageSize - pos)) = i := by omega
          rw [haddr, effect_page hbuf f, if_neg (by omega), List.getD_eq_getElem?_getD, List.getElem?_drop, hidx,
            ← List.getD_eq_getElem?_getD] at hnext
          exact hnext
    · have hprogram : (pieces k).Programs (min src.length (pageSize - pos) ≠ pageSize) :=
        (through_last hpos hsrc hlast).mp hthrough
      obtain ⟨buf, hbuf, hpiece, htrace⟩ := writeLoop_turn n f tmp hfits hpos hprogram.read
      rw [if_pos hprogram.enable, if_neg (by omega), hprogram.command] at htrace
      rw [htrace]
      refine ⟨fun page hlo hhi => ?_, fun i hi => ?_⟩
      · obtain rfl : page = idx := by
          apply Nat.le_antisymm _ hlo
          apply Nat.le_of_lt_succ
          apply Nat.lt_of_mul_lt_mul_right (a := pageSize)
          rw [Nat.succ_mul]
          omega
        exact ⟨_, List.mem_singleton_self _⟩
      · rw [effect_page hbuf, if_pos (by omega), hpiece _ (by omega) (by omega)]
        congr 2
        omega

theorem PagesFrom.not_programmed {t : Trace} {page : Nat} (h : PagesFrom idx t) (hpage : page < idx) :
    ¬ Programmed t page := by
  rintro ⟨data, hdata⟩
  obtain ⟨other, _, hother, _, hop⟩ := h _ hdata
  have heq : page = other := Nat.eq_of_mul_eq_mul_right (by decide) (Op.program.inj hop).1
  omega

/-- Where every page is programmed, every page has come to be programmed. -/
theorem through_of_programmed : ∀ {n k idx pos : Nat} (f : Flash) (tmp : List Byte) {src : List Byte}, src.length ≤ n →
    pos < pageSize → 0 < src.length → idx * pageSize + pos + src.length ≤ 2 ^ 24 →
    (∀ page, idx ≤ page → page * pageSize < idx * pageSize + pos + src.length →
      Programmed (writeLoop pieces n k f tmp idx pos src).2 page) →
    Through (fun i => pieces (k + i)) pos src.length := by
  intro n
  induction n with
  | zero => intro k idx pos f tmp src hn hpos hsrc; omega
  | succ n ih =>
    intro k idx pos f tmp src hn hpos hsrc hle hprogrammed
    have hfits : idx * pageSize + pageSize ≤ 2 ^ 24 := page_fits (n := pos + src.length) (by omega) (by omega)
    have hsucc : (idx + 1) * pageSize = idx * pageSize + pageSize := Nat.succ_mul _ _
    obtain ⟨data, hfirst⟩ := hprogrammed idx (Nat.le_refl idx) (by omega)
    by_cases hread : min src.length (pageSize - pos) ≠ pageSize → (pieces k).read.Passes
    · obtain ⟨buf, hbuf, _, htrace⟩ := writeLoop_turn n f tmp hfits hpos hread
      by_cases henable : waitWren (pieces k).program.enable = .success
      · rw [if_pos henable] at htrace
        rcases Nat.lt_or_ge (pageSize - pos) src.length with hmore | hlast
        · by_cases hpass : (pieces k).program.Passes true
          · have hdrop := List.length_drop (l := src) (i := min src.length (pageSize - pos))
            rw [if_pos ⟨hpass, by omega⟩, nextPage hfits] at htrace
            have hpages : PagesFrom (idx + 1) (writeLoop pieces n (k + 1)
                (effect f [(.program (idx * pageSize) (buf.take pageSize), (pieces k).program.command)]) buf (idx + 1) 0
                (src.drop (min src.length (pageSize - pos)))).2 :=
              writeLoop_pages (Nat.zero_lt_of_lt hpos) (by omega) (by omega)
            have hcommand : (pieces k).program.command = .done := by
              rw [htrace] at hfirst
              rcases List.mem_cons.mp hfirst with heq | hrest
              · exact (Prod.mk.inj heq).2.symm
              · exact absurd ⟨data, hrest⟩ (hpages.not_programmed (Nat.lt_succ_self idx))
            have hfitsRest : (idx + 1) * pageSize + 0 + (src.drop (min src.length (pageSize - pos))).length ≤ 2 ^ 24 := by
              omega
            have hrest : Through (fun i => pieces (k + 1 + i)) 0
                (src.drop (min src.length (pageSize - pos))).length := by
              refine ih (effect f [(.program (idx * pageSize) (buf.take pageSize), (pieces k).program.command)]) buf
                (by omega) (Nat.zero_lt_of_lt hpos) (by omega) hfitsRest fun page hlo hhi => ?_
              obtain ⟨data, hdata⟩ := hprogrammed page (by omega) (by omega)
              rw [htrace] at hdata
              rcases List.mem_cons.mp hdata with heq | hrest
              · have hpage : page = idx :=
                  Nat.eq_of_mul_eq_mul_right (by decide) (Op.program.inj (Prod.mk.inj heq).1).1
                omega
              · exact ⟨data, hrest⟩
            have hidx : ∀ i, k + 1 + i = k + (i + 1) := by
              intro i
              omega
            rw [hdrop] at hrest
            simp only [hidx] at hrest
            exact (through_more hpos hmore).mpr ⟨⟨hread, henable, hcommand⟩, hpass.2.2, hrest⟩
          · -- the loop ends in front of the next page
            rw [if_neg (fun h => hpass h.1)] at htrace
            obtain ⟨data', hnext⟩ := hprogrammed (idx + 1) (Nat.le_succ idx) (by omega)
            rw [htrace] at hnext
            have hpage : idx + 1 = idx := Nat.eq_of_mul_eq_mul_right (by decide)
              (Op.program.inj (Prod.mk.inj (List.mem_singleton.mp hnext)).1).1
            omega
        · rw [if_neg (by omega)] at htrace
          rw [htrace] at hfirst
          have hcommand := (Prod.mk.inj (List.mem_singleton.mp hfirst)).2
          exact (through_last hpos hsrc hlast).mpr ⟨hread, henable, hcommand.symm⟩
      · rw [htrace, if_neg henable] at hfirst
        exact absurd hfirst List.not_mem_nil
    · rw [writeLoop_stops hread] at hfirst
      exact absurd hfirst List.not_mem_nil

end Loop

/-! ## Main results -/

/-- What a write that returns success tells its caller. -/
structure WriteDone (size : Nat) (f : Flash) (t : Trace) (offset : Nat) (src : List Byte) : Prop where
  inside : offset + src.length ≤ size
  commands : ∀ i < src.length, Programmed t ((offset + i) / pageSize)
  stored : RangeWritten f (effect f t) offset src

/-- What an erase that returns success tells its caller. -/
structure EraseDone (size : Nat) (t : Trace) (flashAddr sectorNum : Nat) : Prop where
  inside : flashAddr + sectorNum * sectorSize ≤ size
  commands : ∀ c ∈ t, c.2 = .done
  erased : ∀ f, BlankOn (effect f t) flashAddr (flashAddr + sectorNum * sectorSize)

theorem mem_fates {cycles : Nat → Cycle} : ∀ {ops : List Op} {k : Nat} (p : Fate → Prop),
    (∀ c ∈ fates cycles ops k, p c.2) ↔ ∀ i < ops.length, p (cycles (k + i)).command := by
  intro ops
  induction ops with
  | nil => exact fun {k} p => ⟨fun _ i hi => absurd hi (Nat.not_lt_zero i), fun _ c hc => absurd hc List.not_mem_nil⟩
  | cons op ops ih =>
    intro k p
    rw [fates, List.forall_mem_cons, ih, List.length_cons]
    constructor
    · rintro ⟨hfirst, hrest⟩ i hi
      cases i with
      | zero => exact hfirst
      | succ i =>
        have hnext := hrest i (by omega)
        rwa [Nat.add_right_comm] at hnext
    · intro h
      refine ⟨h 0 (Nat.succ_pos _), fun i hi => ?_⟩
      have hnext := h (i + 1) (by omega)
      rwa [← Nat.add_assoc, Nat.add_right_comm] at hnext

theorem taken_fates {cycles : Nat → Cycle} : ∀ {ops : List Op} {k : Nat},
    (∀ i < ops.length, (cycles (k + i)).command = .done) → taken (fates cycles ops k) = ops := by
  intro ops
  induction ops with
  | nil => exact fun _ => rfl
  | cons op ops ih =>
    intro k h
    have hrest : taken (fates cycles ops (k + 1)) = ops := by
      refine ih fun i hi => ?_
      rw [Nat.add_right_comm]
      exact h (i + 1) (Nat.succ_lt_succ hi)
    have hfirst : (cycles k).command = .done := h 0 (Nat.succ_pos _)
    have hcons : taken ((op, (cycles k).command) :: fates cycles ops (k + 1)) =
        op :: taken (fates cycles ops (k + 1)) := by
      rw [hfirst]
      rfl
    rw [fates, hcons, hrest]

section Success
variable {capacity offset : Nat} {src : List Byte}

theorem externalFlashWrite_eq {size : Nat} (hlen : src.length ≠ 0) (hsize : (offset + src.length) % 2 ^ 32 ≤ size)
    (pieces : Nat → Piece) (tmp : List Byte) (f : Flash) :
    externalFlashWrite size pieces (some tmp) f offset src = (.success,
      (writeLoop pieces src.length 0 f tmp (offset / pageSize) (offset % pageSize) src).2) := by
  rw [externalFlashWrite, if_neg hlen, if_neg (by omega)]

theorem write_success_iff (hcapacity : capacity ≤ 24) (hlen : src.length ≠ 0)
    (hsize : (offset + src.length) % 2 ^ 32 ≤ 2 ^ capacity) (pieces : Nat → Piece) (f : Flash) :
    (∀ tmp t, externalFlashWrite (2 ^ capacity) pieces tmp f offset src = (.success, t) →
      WriteDone (2 ^ capacity) f t offset src) ↔
    offset + src.length < 2 ^ 32 ∧ Through pieces (offset % pageSize) src.length := by
  have hchip : 2 ^ capacity ≤ 2 ^ 24 := Nat.pow_le_pow_right (by omega) hcapacity
  have hstart : offset / pageSize * pageSize + offset % pageSize = offset := Nat.div_add_mod' offset pageSize
  have hpos : offset % pageSize < pageSize := Nat.mod_lt offset (by decide)
  have hshift : (fun i => pieces (0 + i)) = pieces := funext fun i => by rw [Nat.zero_add]
  constructor
  · intro h
    obtain ⟨hinside, hcommands, _⟩ := h _ _ (externalFlashWrite_eq hlen hsize pieces [] f)
    refine ⟨by omega, ?_⟩
    rw [← hshift]
    have hprogrammed : ∀ page, offset / pageSize ≤ page →
        page * pageSize < offset / pageSize * pageSize + offset % pageSize + src.length →
        Programmed (writeLoop pieces src.length 0 f [] (offset / pageSize) (offset % pageSize) src).2 page := by
      intro page hlo hhi
      rcases Nat.eq_or_lt_of_le hlo with rfl | hlo
      · exact hcommands 0 (Nat.pos_of_ne_zero hlen)
      · have hle : (offset / pageSize + 1) * pageSize ≤ page * pageSize := Nat.mul_le_mul_right pageSize hlo
        have hbyte := hcommands (page * pageSize - offset) (by omega)
        rw [Nat.succ_mul] at hle
        have haddr : offset + (page * pageSize - offset) = page * pageSize := by omega
        rwa [haddr, Nat.mul_div_cancel page (by decide)] at hbyte
    exact through_of_programmed f [] (Nat.le_refl src.length) hpos (by omega) (by omega) hprogrammed
  · rintro ⟨hwrap, hthrough⟩ tmp t hrun
    rw [Nat.mod_eq_of_lt hwrap] at hsize
    cases tmp with
    | none =>
      rw [externalFlashWrite, if_neg hlen, if_neg (by omega)] at hrun
      cases hrun
    | some tmp =>
      rw [externalFlashWrite, if_neg hlen, if_neg (by omega)] at hrun
      obtain rfl := (Prod.mk.inj hrun).2
      rw [← hshift] at hthrough
      have hfits : offset / pageSize * pageSize + offset % pageSize + src.length ≤ 2 ^ 24 := by omega
      obtain ⟨hcommands, hstored⟩ :=
        writeLoop_through f tmp (Nat.le_refl src.length) hpos (by omega) hfits hthrough
      rw [hstart] at hcommands hstored
      refine ⟨hsize, fun i hi => ?_, hstored⟩
      apply hcommands
      · exact Nat.div_le_div_right (Nat.le_add_right _ _)
      · have hpage := Nat.div_mul_le_self (offset + i) pageSize
        omega

theorem erase_success_iff {hbe : Bool} {cycles : Nat → Cycle} {flashAddr sectorNum : Nat} (hcapacity : capacity ≤ 24)
    (hstart : flashAddr % sectorSize = 0) :
    (∀ t, eraseSectors hbe cycles flashAddr sectorNum = (.success, t) →
      EraseDone (2 ^ capacity) t flashAddr sectorNum) ↔
    (∃ k < (eraseList hbe flashAddr sectorNum).length, ¬ (cycles k).Passes false) ∨
      (flashAddr + sectorNum * sectorSize ≤ 2 ^ capacity ∧
        ∀ k < (eraseList hbe flashAddr sectorNum).length, (cycles k).command = .done) := by
  have hchip : 2 ^ capacity ≤ 2 ^ 24 := Nat.pow_le_pow_right (by omega) hcapacity
  rw [eraseSectors_eq]
  obtain ⟨hret, htrace⟩ := @runOps_success false cycles (eraseList hbe flashAddr sectorNum) 0
  simp only [Nat.zero_add] at hret
  by_cases hpass : ∀ k < (eraseList hbe flashAddr sectorNum).length, (cycles k).Passes false
  · have hnone : ¬ ∃ k < (eraseList hbe flashAddr sectorNum).length, ¬ (cycles k).Passes false := by
      rintro ⟨k, hk, hstop⟩
      exact hstop (hpass k hk)
    rw [or_iff_right hnone]
    have hrun := hret.mpr hpass
    have hfates := htrace hrun
    constructor
    · intro h
      obtain ⟨hinside, hcommands, _⟩ := h _ (Prod.ext hrun hfates)
      rw [mem_fates (· = Fate.done)] at hcommands
      simp only [Nat.zero_add] at hcommands
      exact ⟨hinside, hcommands⟩
    · rintro ⟨hinside, hdone⟩ t ht
      obtain rfl : fates cycles (eraseList hbe flashAddr sectorNum) 0 = t := by
        rw [← hfates, ht]
      obtain ⟨hcontent, _⟩ := eraseList_spec hbe hstart (show flashAddr + sectorNum * sectorSize ≤ 2 ^ 24 by omega)
      have hdone' : ∀ i < (eraseList hbe flashAddr sectorNum).length, (cycles (0 + i)).command = .done := by
        simpa only [Nat.zero_add] using hdone
      refine ⟨hinside, (mem_fates (· = Fate.done)).mpr hdone', fun f a hlo hhi => ?_⟩
      rw [effect, taken_fates hdone', hcontent, if_pos ⟨hlo, hhi⟩]
  · have hstop : ∃ k < (eraseList hbe flashAddr sectorNum).length, ¬ (cycles k).Passes false := by
      simpa only [not_forall, exists_prop] using hpass
    refine ⟨fun _ => .inl hstop, fun _ t ht => ?_⟩
    have hsuccess := hret.mp (congrArg Prod.fst ht)
    exact absurd hsuccess hpass

/-- Success tells of a write and of an erase what it should exactly if all pages come to be programmed, and if a
command of the erase is waited for in vain or all of them take place. -/
theorem writeAndErase_success_iff {hbe : Bool} {cycles : Nat → Cycle} {flashAddr sectorNum : Nat}
    (hcapacity : capacity ≤ 24) (hlen : src.length ≠ 0) (hsize : (offset + src.length) % 2 ^ 32 ≤ 2 ^ capacity)
    (hstart : flashAddr % sectorSize = 0) (pieces : Nat → Piece) (f : Flash) :
    ((∀ tmp t, externalFlashWrite (2 ^ capacity) pieces tmp f offset src = (.success, t) →
        WriteDone (2 ^ capacity) f t offset src) ↔
      offset + src.length < 2 ^ 32 ∧ Through pieces (offset % pageSize) src.length) ∧
    ((∀ t, eraseSectors hbe cycles flashAddr sectorNum = (.success, t) →
        EraseDone (2 ^ capacity) t flashAddr sectorNum) ↔
      (∃ k < (eraseList hbe flashAddr sectorNum).length, ¬ (cycles k).Passes false) ∨
        (flashAddr + sectorNum * sectorSize ≤ 2 ^ capacity ∧
          ∀ k < (eraseList hbe flashAddr sectorNum).length, (cycles k).command = .done)) :=
  ⟨write_success_iff hcapacity hlen hsize pieces f, erase_success_iff hcapacity hstart⟩

end Success

/-- The status reads of a wait show an idle chip with writing enabled; the fate of the transfers is given. -/
def quick (fate : Fate) : Cycle := ⟨⟨some 2, []⟩, fate, ⟨some 0, []⟩⟩

/-- Reads succeed. -/
def quickPiece (fate : Fate) : Piece := ⟨⟨.done, fun _ => blank, ⟨some 0, []⟩⟩, quick fate⟩

theorem writeAndErase_success_iff_working :
    ((∀ tmp t, externalFlashWrite (2 ^ 21) (fun _ => quickPiece .done) tmp (fun _ => blank) 0x100FF [1, 2] =
          (.success, t) →
        WriteDone (2 ^ 21) (fun _ => blank) t 0x100FF [1, 2]) ↔
      0x100FF + 2 < 2 ^ 32 ∧ Through (fun _ => quickPiece .done) (0x100FF % pageSize) 2) ∧
    ((∀ t, eraseSectors true (fun _ => quick .done) 0xF000 18 = (.success, t) →
        EraseDone (2 ^ 21) t 0xF000 18) ↔
      (∃ k < (eraseList true 0xF000 18).length, ¬ (quick .done).Passes false) ∨
        (0xF000 + 18 * sectorSize ≤ 2 ^ 21 ∧ ∀ k < (eraseList true 0xF000 18).length, (quick .done).command = .done)) :=
  writeAndErase_success_iff (by decide) (by decide) (by decide) (by decide) (fun _ => quickPiece .done) fun _ => blank

/-- The transfer of the program fails, and those of the erase, and both calls return success. -/
theorem writeAndErase_failedTransfers :
    (¬ ∀ tmp t, externalFlashWrite (2 ^ 21) (fun _ => quickPiece .failed) tmp (fun _ => blank) 0x100FF [1, 2] =
        (.success, t) →
      WriteDone (2 ^ 21) (fun _ => blank) t 0x100FF [1, 2]) ∧
    ¬ ∀ t, eraseSectors true (fun _ => quick .failed) 0xF000 18 = (.success, t) → EraseDone (2 ^ 21) t 0xF000 18 := by
  constructor
  · rw [write_success_iff (by decide) (by decide) (by decide)]
    rintro ⟨_, hthrough⟩
    have hcommand := (hthrough 0 (by decide)).1.command
    exact absurd hcommand (by decide)
  · rw [erase_success_iff (by decide) (by decide)]
    rintro (⟨k, _, hstop⟩ | ⟨_, hdone⟩)
    · exact hstop (by decide)
    · exact absurd (hdone 0 (by decide)) (by decide)

end WmIot.Flash.External
