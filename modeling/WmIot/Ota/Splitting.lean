import WmIot.Ota.InPlace

/-!
# Updates and the chunks of the stream

What a run of writes leaves is a matter of its last chunk: one that ends on a sector and starts inside one has the
sector behind it erased. Two runs of the same stream differ exactly in that.
-/

namespace WmIot.Ota
open NorFlash
set_option autoImplicit false

/-- Both runs take every chunk and leave the same, or both stop at chunks that have a byte in common. -/
def SameResult (r₁ r₂ : Outcome) : Prop :=
  match r₁.stop, r₂.stop with
  | none, none => r₁.dev.mem = r₂.dev.mem ∧ r₁.ctx.wroteAddr = r₂.ctx.wroteAddr ∧ opsEnd r₁.ctx = opsEnd r₂.ctx
  | some n₁, some n₂ =>
    ∃ a, (r₁.ctx.wroteAddr ≤ a ∧ a < r₁.ctx.wroteAddr + n₁) ∧ r₂.ctx.wroteAddr ≤ a ∧ a < r₂.ctx.wroteAddr + n₂
  | _, _ => False

/-- A chunk ends behind `e` bytes of the stream; the predicate is for the address that it starts at. -/
def ChunkEnds (addr : Nat) (chunks : List (List Byte)) (e : Nat) (P : Nat → Prop) : Prop :=
  ∃ pre d post, chunks = pre ++ d :: post ∧ pre.flatten.length + d.length = e ∧ P (addr + pre.flatten.length)

def OnSector (a : Nat) : Prop := a % sectorSize = 0

def InsideSector (a : Nat) : Prop := a % sectorSize ≠ 0

/-- The last byte that fits into the partition is in front of a sector, one of the runs comes to it with a chunk
that starts on a sector, the other with one that starts inside, and there is no sector to erase, or an erase is seen
there. -/
def Diverges (f : Dev) (c : Ctx) (file : List Byte) (ch₁ ch₂ : List (List Byte)) : Prop :=
  let e := min file.length c.appOtaSize
  headerError c (file.take headerSize) = .success ∧ OnSector (c.appOtaAddr + e) ∧
    (ChunkEnds c.appOtaAddr ch₁ e OnSector ∧ ChunkEnds c.appOtaAddr ch₂ e InsideSector ∨
      ChunkEnds c.appOtaAddr ch₁ e InsideSector ∧ ChunkEnds c.appOtaAddr ch₂ e OnSector) ∧
    (f.size < c.appOtaAddr + e + sectorSize ∨ file.length ≤ c.appOtaSize ∧
      ¬ BlankOn f.mem (c.appOtaAddr + e) (c.appOtaAddr + e + sectorSize))

theorem SameResult.symm {r₁ r₂ : Outcome} (h : SameResult r₁ r₂) : SameResult r₂ r₁ := by
  unfold SameResult at *
  cases h₁ : r₁.stop with
  | none =>
    cases h₂ : r₂.stop with
    | none =>
      rw [h₁, h₂] at h
      exact ⟨h.1.symm, h.2.1.symm, h.2.2.symm⟩
    | some n => rw [h₁, h₂] at h; exact h
  | some n =>
    cases h₂ : r₂.stop with
    | none => rw [h₁, h₂] at h; exact h
    | some m =>
      rw [h₁, h₂] at h
      obtain ⟨a, hleft, hright⟩ := h
      exact ⟨a, hright, hleft⟩

theorem Diverges.symm {f : Dev} {c : Ctx} {file : List Byte} {ch₁ ch₂ : List (List Byte)}
    (h : Diverges f c file ch₁ ch₂) : Diverges f c file ch₂ ch₁ := by
  obtain ⟨hheader, hsector, hends, hseen⟩ := h
  refine ⟨hheader, hsector, ?_, hseen⟩
  rcases hends with ⟨h₁, h₂⟩ | ⟨h₁, h₂⟩
  · exact Or.inr ⟨h₂, h₁⟩
  · exact Or.inl ⟨h₂, h₁⟩

section Chunks
variable {pre p post q chunks : List (List Byte)} {d x : List Byte} {addr e : Nat} {P Q : Nat → Prop}

/-- A chunk that ends in front of the end of another comes before it. -/
theorem before_of_lt (h : pre ++ d :: post = p ++ x :: q)
    (hlt : p.flatten.length + x.length < pre.flatten.length + d.length) : ∃ q', pre = p ++ x :: q' := by
  rcases List.append_eq_append_iff.mp h with ⟨l, rfl, hl⟩ | ⟨l, rfl, hl⟩
  · cases l with
    | nil =>
      obtain ⟨rfl, _⟩ := List.cons.inj hl
      rw [List.append_nil] at hlt
      omega
    | cons y l =>
      obtain ⟨rfl, _⟩ := List.cons.inj hl
      rw [List.flatten_append, List.length_append, List.flatten_cons, List.length_append] at hlt
      omega
  · cases l with
    | nil =>
      obtain ⟨rfl, _⟩ := List.cons.inj hl
      rw [List.append_nil] at hlt
      omega
    | cons y l =>
      obtain ⟨rfl, _⟩ := List.cons.inj hl
      exact ⟨l, rfl⟩

/-- One chunk ends at a byte. -/
theorem chunk_unique (hne : ∀ d ∈ chunks, d ≠ []) (h : chunks = pre ++ d :: post) (h' : chunks = p ++ x :: q)
    (hlen : pre.flatten.length + d.length = p.flatten.length + x.length) : pre = p := by
  have hpos : ∀ {l y r}, chunks = l ++ y :: r → 0 < y.length := by
    intro l y r hy
    apply List.length_pos_iff.mpr
    apply hne
    rw [hy]
    exact List.mem_append_right _ List.mem_cons_self
  have hd := hpos h
  have hx := hpos h'
  rcases List.append_eq_append_iff.mp (h.symm.trans h') with ⟨l, rfl, hl⟩ | ⟨l, rfl, hl⟩
  · cases l with
    | nil => rw [List.append_nil]
    | cons y l =>
      obtain ⟨rfl, _⟩ := List.cons.inj hl
      rw [List.flatten_append, List.length_append, List.flatten_cons, List.length_append] at hlen
      omega
  · cases l with
    | nil => rw [List.append_nil]
    | cons y l =>
      obtain ⟨rfl, _⟩ := List.cons.inj hl
      rw [List.flatten_append, List.length_append, List.flatten_cons, List.length_append] at hlen
      omega

theorem ChunkEnds.start (hne : ∀ d ∈ chunks, d ≠ []) (h : chunks = pre ++ d :: post)
    (hends : ChunkEnds addr chunks (pre.flatten.length + d.length) P) : P (addr + pre.flatten.length) := by
  obtain ⟨p, x, q, hsplit, hlen, hP⟩ := hends
  rwa [chunk_unique hne h hsplit hlen.symm]

theorem not_onSector_inside (hne : ∀ d ∈ chunks, d ≠ []) (hon : ChunkEnds addr chunks e OnSector) :
    ¬ ChunkEnds addr chunks e InsideSector := by
  intro hinside
  obtain ⟨pre, d, post, hsplit, rfl, hP⟩ := hon
  exact hinside.start hne hsplit hP

end Chunks

section TwoRuns
variable {f : Dev} {c : Ctx} {file : List Byte} {chunks ch₁ ch₂ : List (List Byte)} {out out₁ out₂ : Outcome}

/-- How a run over an accepted header ends: with the last chunk, with a chunk over the end of the partition, or with
an erase behind the flash. -/
inductive RunEnds (f : Dev) (c : Ctx) (chunks : List (List Byte)) (out : Outcome) : Prop
  | done (pre : List (List Byte)) (d : List Byte) (split : chunks = pre ++ [d]) (stop : out.stop = none)
      (mem : out.dev.mem = laidOut f.mem c.appOtaAddr chunks.flatten
        (eraseEnd true (c.appOtaAddr + pre.flatten.length) d.length))
      (room : eraseEnd true (c.appOtaAddr + pre.flatten.length) d.length ≤ f.size)
      (fits : chunks.flatten.length ≤ c.appOtaSize) (fed : feed c chunks = some out.ctx)
  | crosses (pre : List (List Byte)) (d : List Byte) (post : List (List Byte)) (split : chunks = pre ++ d :: post)
      (stop : out.stop = some d.length) (wrote : out.ctx.wroteAddr = c.appOtaAddr + pre.flatten.length)
      (starts : pre.flatten.length ≤ c.appOtaSize) (beyond : c.appOtaSize < pre.flatten.length + d.length)
      (room : Roomy f.size true c.appOtaAddr pre)
  | blocked (pre : List (List Byte)) (d : List Byte) (post : List (List Byte)) (split : chunks = pre ++ d :: post)
      (stop : out.stop = some d.length) (wrote : out.ctx.wroteAddr = c.appOtaAddr + pre.flatten.length)
      (ends : pre.flatten.length + d.length = c.appOtaSize) (full : c.appOtaAddr + c.appOtaSize = f.size)
      (inside : InsideSector (c.appOtaAddr + pre.flatten.length))

theorem head_take (hchunks : Chunking file chunks) {d : List Byte} (hd : d ∈ chunks.head?) :
    headerSize ≤ d.length ∧ file.take headerSize = d.take headerSize := by
  have hlen := hchunks.first d hd
  have hfile := hchunks.flatten
  cases chunks with
  | nil => cases hd
  | cons x ds =>
    obtain rfl := Option.some.inj hd
    rw [List.flatten_cons] at hfile
    rw [← hfile, List.take_append_of_le_length hlen]
    exact ⟨hlen, rfl⟩

theorem length_split {pre post : List (List Byte)} {d : List Byte} :
    (pre ++ d :: post).flatten.length = pre.flatten.length + d.length + post.flatten.length := by
  rw [List.flatten_append, List.length_append, List.flatten_cons, List.length_append, Nat.add_assoc]

theorem runEnds (hplaced : Placed f c) (hneed : c.needErase = true) (hstart : c.wroteAddr = c.appOtaAddr)
    (hchunks : Chunking file chunks) (hsome : chunks ≠ [])
    (hheader : headerError c (file.take headerSize) = .success) : RunEnds f c chunks (writeAll f c chunks) := by
  have hinside := hplaced.inside
  have hsectors := hplaced.sectors
  have hfront : Front c.needErase c.wroteAddr (startFront c.needErase c.appOtaAddr) := by
    rw [hstart]
    exact Front.start _ _
  have hcheck : ∀ d ∈ chunks.head?, (checkData c d).2 = .success := by
    intro d hd
    obtain ⟨hlen, htake⟩ := head_take hchunks hd
    rw [htake] at hheader
    unfold checkData checkHeader
    rw [if_pos hstart.symm, if_neg (Nat.not_lt.mpr hlen)]
    dsimp only
    rw [if_pos hheader]
  rcases writeAll_cases f.mem chunks f c [] _ hplaced hstart (by omega) hfront (laidOut_start f.mem _ _).symm
    hchunks.nonempty (fun _ => hcheck) with ⟨hstop, hwritten⟩ | ⟨pre, d, post, hsplit, hstops⟩
  · rcases List.eq_nil_or_concat chunks with rfl | ⟨pre, d, hsplit⟩
    · exact absurd rfl hsome
    · rw [List.concat_eq_append] at hsplit
      have hmem := hwritten.mem
      have hroom := hwritten.room pre d [] hsplit
      have hwithin := hwritten.within
      rw [hsplit, lastEnd_concat, hneed, hstart, ← hsplit, List.nil_append] at hmem
      rw [hneed, hstart] at hroom
      exact .done pre d hsplit hstop hmem hroom (by omega) hwritten.fed
  · have hwrote := hstops.wrote
    have hwithin := hstops.within
    have hroom := hstops.room
    have hcause := hstops.cause
    rw [hneed, hstart] at hroom
    rw [hneed, hstart] at hcause
    rw [hstart] at hwrote hwithin
    rcases hcause with hover | ⟨hfit, hend⟩
    · exact .crosses pre d post hsplit hstops.stop hwrote (by omega) (by omega) hroom
    · have hpos : 0 < d.length := by
        apply List.length_pos_iff.mpr
        apply hchunks.nonempty
        rw [hsplit]
        exact List.mem_append_right _ List.mem_cons_self
      rw [eraseEnd, if_pos rfl] at hend
      refine .blocked pre d post hsplit hstops.stop hwrote ?_ ?_ ?_
      all_goals
        unfold InsideSector at *
        unfold sectorSize at *
        split at hend <;> omega

/-- Before the end of the partition nothing is erased behind the flash. -/
theorem crosses_onSector {pre : List (List Byte)} {d : List Byte} {post : List (List Byte)}
    (hsplit : chunks = pre ++ d :: post) (beyond : c.appOtaSize < pre.flatten.length + d.length)
    (room : Roomy f.size true c.appOtaAddr pre) (hfull : f.size < c.appOtaAddr + c.appOtaSize + sectorSize)
    (hsector : OnSector (c.appOtaAddr + c.appOtaSize)) :
    ¬ ChunkEnds c.appOtaAddr chunks c.appOtaSize InsideSector := by
  rintro ⟨p, x, q, hends, hlen, hinside⟩
  obtain ⟨q', rfl⟩ := before_of_lt (hsplit.symm.trans hends) (by omega)
  have hroom := room p x q' rfl
  unfold InsideSector at hinside
  unfold OnSector at hsector
  rw [eraseEnd, if_pos rfl] at hroom
  unfold sectorSize at *
  split at hroom <;> omega

theorem crosses_starts {pre : List (List Byte)} {d : List Byte} {post : List (List Byte)} {P : Nat → Prop}
    (hsplit : chunks = pre ++ d :: post) (beyond : c.appOtaSize < pre.flatten.length + d.length)
    (hends : ChunkEnds c.appOtaAddr chunks c.appOtaSize P) : c.appOtaSize ≤ pre.flatten.length := by
  obtain ⟨p, x, q, hx, hlen, _⟩ := hends
  obtain ⟨q', rfl⟩ := before_of_lt (hsplit.symm.trans hx) (by omega)
  rw [length_split]
  omega

/-- The sector behind the data is erased in one content and not in the other. -/
theorem laidOut_eq_iff (g : Flash) {addr : Nat} {data : List Byte} (hsector : OnSector (addr + data.length)) :
    laidOut g addr data (addr + data.length) = laidOut g addr data (addr + data.length + sectorSize) ↔
      BlankOn g (addr + data.length) (addr + data.length + sectorSize) := by
  unfold OnSector at hsector
  constructor
  · intro heq a hlo hhi
    have ha := congrFun heq a
    rw [laidOut_blank (by unfold sectorSize at *; omega) hlo hhi, laidOut, if_neg (by omega), if_neg (by omega)] at ha
    exact ha
  · intro hblank
    funext a
    by_cases hbehind : addr + data.length ≤ a ∧ a < addr + data.length + sectorSize
    · rw [laidOut_blank (by unfold sectorSize at *; omega) hbehind.1 hbehind.2, laidOut, if_neg (by omega),
        if_neg (by omega)]
      exact hblank a hbehind.1 hbehind.2
    · unfold laidOut
      split
      next => rfl
      next => rw [if_neg (by omega), if_neg (by omega)]

theorem eraseEnd_onSector (addr size : Nat) (hend : OnSector (addr + size)) (hstart : OnSector addr) :
    eraseEnd true addr size = addr + size := by
  unfold OnSector at *
  rw [eraseEnd, if_pos rfl, if_pos]
  unfold sectorSize at *
  omega

theorem eraseEnd_inside (addr size : Nat) (hend : OnSector (addr + size)) (hstart : InsideSector addr) :
    eraseEnd true addr size = addr + size + sectorSize := by
  unfold OnSector at hend
  rw [eraseEnd, if_pos rfl, if_neg (fun h => hstart h.1)]
  unfold sectorSize at *
  omega

theorem eraseEnd_off {addr size : Nat} (hend : ¬ OnSector (addr + size)) :
    eraseEnd true addr size = ((addr + size) / sectorSize + 1) * sectorSize := by
  unfold OnSector at hend
  rw [eraseEnd, if_pos rfl, if_neg]
  unfold sectorSize at *
  omega

theorem Chunking.ends_last (h : Chunking file chunks) {pre : List (List Byte)} {d : List Byte}
    (hsplit : chunks = pre ++ [d]) : pre.flatten.length + d.length = file.length := by
  rw [← h.flatten, hsplit, List.flatten_append, List.length_append, List.flatten_singleton]

/-- Two runs that take every chunk leave the same unless one has erased the sector behind the data. -/
theorem same_done (hready : Ready c) (h₁ : Chunking file ch₁) (h₂ : Chunking file ch₂)
    (hhead : headerSize ≤ file.length) (hheader : headerError c (file.take headerSize) = .success)
    {pre₁ pre₂ : List (List Byte)} {d₁ d₂ : List Byte} (hsplit₁ : ch₁ = pre₁ ++ [d₁]) (hsplit₂ : ch₂ = pre₂ ++ [d₂])
    (hstop₁ : out₁.stop = none) (hstop₂ : out₂.stop = none)
    (hmem₁ : out₁.dev.mem = laidOut f.mem c.appOtaAddr ch₁.flatten
      (eraseEnd true (c.appOtaAddr + pre₁.flatten.length) d₁.length))
    (hmem₂ : out₂.dev.mem = laidOut f.mem c.appOtaAddr ch₂.flatten
      (eraseEnd true (c.appOtaAddr + pre₂.flatten.length) d₂.length))
    (hroom₁ : eraseEnd true (c.appOtaAddr + pre₁.flatten.length) d₁.length ≤ f.size)
    (hroom₂ : eraseEnd true (c.appOtaAddr + pre₂.flatten.length) d₂.length ≤ f.size)
    (hfits : file.length ≤ c.appOtaSize) (hfed₁ : feed c ch₁ = some out₁.ctx) (hfed₂ : feed c ch₂ = some out₂.ctx) :
    SameResult out₁ out₂ ↔ ¬ Diverges f c file ch₁ ch₂ := by
  have hctx : out₁.ctx = out₂.ctx := by
    rw [feed_eq hready h₁ hhead hfits] at hfed₁
    rw [feed_eq hready h₂ hhead hfits] at hfed₂
    exact Option.some.inj (hfed₁.symm.trans hfed₂)
  have hlast₁ := h₁.ends_last hsplit₁
  have hlast₂ := h₂.ends_last hsplit₂
  have hmin : min file.length c.appOtaSize = file.length := Nat.min_eq_left hfits
  have hsame : SameResult out₁ out₂ ↔ out₁.dev.mem = out₂.dev.mem := by
    unfold SameResult
    rw [hstop₁, hstop₂, hctx]
    exact ⟨fun h => h.1, fun h => ⟨h, rfl, rfl⟩⟩
  have hstart₁ : ∀ P, ChunkEnds c.appOtaAddr ch₁ file.length P ↔ P (c.appOtaAddr + pre₁.flatten.length) := by
    intro P
    rw [← hlast₁]
    exact ⟨fun h => h.start h₁.nonempty hsplit₁, fun h => ⟨pre₁, d₁, [], hsplit₁, rfl, h⟩⟩
  have hstart₂ : ∀ P, ChunkEnds c.appOtaAddr ch₂ file.length P ↔ P (c.appOtaAddr + pre₂.flatten.length) := by
    intro P
    rw [← hlast₂]
    exact ⟨fun h => h.start h₂.nonempty hsplit₂, fun h => ⟨pre₂, d₂, [], hsplit₂, rfl, h⟩⟩
  have hend₁ : c.appOtaAddr + pre₁.flatten.length + d₁.length = c.appOtaAddr + file.length := by omega
  have hend₂ : c.appOtaAddr + pre₂.flatten.length + d₂.length = c.appOtaAddr + file.length := by omega
  rw [hsame, hmem₁, hmem₂, h₁.flatten, h₂.flatten]
  unfold Diverges
  dsimp only
  rw [hmin, hstart₁, hstart₂, hstart₁, hstart₂]
  by_cases hsector : OnSector (c.appOtaAddr + file.length)
  · have hon₁ := eraseEnd_onSector (c.appOtaAddr + pre₁.flatten.length) d₁.length (by rwa [hend₁])
    have hon₂ := eraseEnd_onSector (c.appOtaAddr + pre₂.flatten.length) d₂.length (by rwa [hend₂])
    have hin₁ := eraseEnd_inside (c.appOtaAddr + pre₁.flatten.length) d₁.length (by rwa [hend₁])
    have hin₂ := eraseEnd_inside (c.appOtaAddr + pre₂.flatten.length) d₂.length (by rwa [hend₂])
    rw [hend₁] at hon₁ hin₁
    rw [hend₂] at hon₂ hin₂
    by_cases hs₁ : OnSector (c.appOtaAddr + pre₁.flatten.length)
    · by_cases hs₂ : OnSector (c.appOtaAddr + pre₂.flatten.length)
      · rw [hon₁ hs₁, hon₂ hs₂]
        refine ⟨fun _ => ?_, fun _ => rfl⟩
        rintro ⟨_, _, h | h, _⟩
        · exact h.2 hs₂
        · exact h.1 hs₁
      · rw [hin₂ hs₂] at hroom₂ ⊢
        rw [hon₁ hs₁, laidOut_eq_iff f.mem hsector]
        refine ⟨?_, ?_⟩
        · rintro hblank ⟨_, _, _, hfull | ⟨_, hnot⟩⟩
          · omega
          · exact hnot hblank
        · intro hno
          by_contra hblank
          exact hno ⟨hheader, hsector, Or.inl ⟨hs₁, hs₂⟩, Or.inr ⟨hfits, hblank⟩⟩
    · by_cases hs₂ : OnSector (c.appOtaAddr + pre₂.flatten.length)
      · rw [hin₁ hs₁] at hroom₁ ⊢
        rw [hon₂ hs₂, eq_comm, laidOut_eq_iff f.mem hsector]
        refine ⟨?_, ?_⟩
        · rintro hblank ⟨_, _, _, hfull | ⟨_, hnot⟩⟩
          · omega
          · exact hnot hblank
        · intro hno
          by_contra hblank
          exact hno ⟨hheader, hsector, Or.inr ⟨hs₁, hs₂⟩, Or.inr ⟨hfits, hblank⟩⟩
      · rw [hin₁ hs₁, hin₂ hs₂]
        refine ⟨fun _ => ?_, fun _ => rfl⟩
        rintro ⟨_, _, h | h, _⟩
        · exact hs₁ h.1
        · exact hs₂ h.2
  · rw [eraseEnd_off (by rwa [hend₁]), eraseEnd_off (by rwa [hend₂]), hend₁, hend₂]
    exact ⟨fun _ h => hsector h.2.1, fun _ => rfl⟩

/-- One run comes behind the end of the partition where the other would erase a sector behind the flash. -/
theorem diverges_full (hends : ChunkEnds c.appOtaAddr ch₁ c.appOtaSize OnSector)
    (hinside : ChunkEnds c.appOtaAddr ch₂ c.appOtaSize InsideSector) (hfull : c.appOtaAddr + c.appOtaSize = f.size)
    (hsectors : f.size % sectorSize = 0) (hheader : headerError c (file.take headerSize) = .success)
    (hlen : c.appOtaSize ≤ file.length) : Diverges f c file ch₁ ch₂ := by
  have hmin : min file.length c.appOtaSize = c.appOtaSize := Nat.min_eq_right hlen
  unfold Diverges
  dsimp only
  rw [hmin, hfull]
  exact ⟨hheader, hsectors, Or.inl ⟨hends, hinside⟩, Or.inl (by unfold sectorSize; omega)⟩

theorem same_of_overlap {n₁ n₂ : Nat} (h₁ : out₁.stop = some n₁) (h₂ : out₂.stop = some n₂) :
    SameResult out₁ out₂ ↔
      ∃ a, (out₁.ctx.wroteAddr ≤ a ∧ a < out₁.ctx.wroteAddr + n₁) ∧
        out₂.ctx.wroteAddr ≤ a ∧ a < out₂.ctx.wroteAddr + n₂ := by
  unfold SameResult
  rw [h₁, h₂]

/-- A run over the end of the partition stops where a blocked one stops, unless its chunk starts behind the end. -/
theorem same_crosses_blocked (hsectors : f.size % sectorSize = 0) (h₁ : Chunking file ch₁) (h₂ : Chunking file ch₂)
    (hheader : headerError c (file.take headerSize) = .success)
    {pre₁ pre₂ post₁ post₂ : List (List Byte)} {d₁ d₂ : List Byte} (hsplit₁ : ch₁ = pre₁ ++ d₁ :: post₁)
    (hsplit₂ : ch₂ = pre₂ ++ d₂ :: post₂) (hstop₁ : out₁.stop = some d₁.length) (hstop₂ : out₂.stop = some d₂.length)
    (hwrote₁ : out₁.ctx.wroteAddr = c.appOtaAddr + pre₁.flatten.length)
    (hwrote₂ : out₂.ctx.wroteAddr = c.appOtaAddr + pre₂.flatten.length)
    (hstarts : pre₁.flatten.length ≤ c.appOtaSize) (hover : c.appOtaSize < pre₁.flatten.length + d₁.length)
    (hroom : Roomy f.size true c.appOtaAddr pre₁) (hends : pre₂.flatten.length + d₂.length = c.appOtaSize)
    (hfull : c.appOtaAddr + c.appOtaSize = f.size) (hinside : InsideSector (c.appOtaAddr + pre₂.flatten.length)) :
    SameResult out₁ out₂ ↔ ¬ Diverges f c file ch₁ ch₂ := by
  have hlen : c.appOtaSize < file.length := by
    have hsum : (pre₁ ++ d₁ :: post₁).flatten.length = pre₁.flatten.length + d₁.length + post₁.flatten.length :=
      length_split
    rw [← h₁.flatten, hsplit₁]
    omega
  have hpos : 0 < d₂.length := by
    apply List.length_pos_iff.mpr
    apply h₂.nonempty
    rw [hsplit₂]
    exact List.mem_append_right _ List.mem_cons_self
  have hinside₂ : ChunkEnds c.appOtaAddr ch₂ c.appOtaSize InsideSector := ⟨pre₂, d₂, post₂, hsplit₂, hends, hinside⟩
  have hsector : OnSector (c.appOtaAddr + c.appOtaSize) := by
    unfold OnSector
    rwa [hfull]
  have hno := crosses_onSector (f := f) hsplit₁ hover hroom (by unfold sectorSize; omega) hsector
  rw [same_of_overlap hstop₁ hstop₂, hwrote₁, hwrote₂]
  constructor
  · rintro ⟨a, hleft, hright⟩ ⟨_, _, hpair, _⟩
    rw [Nat.min_eq_right (Nat.le_of_lt hlen)] at hpair
    rcases hpair with ⟨hon, _⟩ | ⟨_, hon⟩
    · have hbehind := crosses_starts hsplit₁ hover hon
      omega
    · exact not_onSector_inside h₂.nonempty hon hinside₂
  · intro hsame
    by_cases hbefore : pre₁.flatten.length < c.appOtaSize
    · exact ⟨c.appOtaAddr + c.appOtaSize - 1, by omega, by omega⟩
    · exfalso
      apply hsame
      refine diverges_full ?_ hinside₂ hfull hsectors hheader (Nat.le_of_lt hlen)
      rcases List.eq_nil_or_concat pre₁ with hnil | ⟨p, x, hx⟩
      · rw [hnil] at hbefore
        simp only [List.flatten_nil, List.length_nil] at hbefore
        omega
      · rw [List.concat_eq_append] at hx
        have hx' : ch₁ = p ++ x :: (d₁ :: post₁) := by rw [hsplit₁, hx, List.append_assoc, List.singleton_append]
        have hsum : p.flatten.length + x.length = pre₁.flatten.length := by
          rw [hx, List.flatten_append, List.length_append, List.flatten_singleton]
        refine ⟨p, x, d₁ :: post₁, hx', by omega, ?_⟩
        by_contra hbad
        exact hno ⟨p, x, d₁ :: post₁, hx', by omega, hbad⟩

/-- A run that takes every chunk comes to the end of the flash on a sector, and a blocked one inside. -/
theorem same_done_blocked (hsectors : f.size % sectorSize = 0) (h₁ : Chunking file ch₁) (h₂ : Chunking file ch₂)
    (hheader : headerError c (file.take headerSize) = .success)
    {pre₁ pre₂ post₂ : List (List Byte)} {d₁ d₂ : List Byte} (hsplit₁ : ch₁ = pre₁ ++ [d₁])
    (hsplit₂ : ch₂ = pre₂ ++ d₂ :: post₂) (hstop₁ : out₁.stop = none) (hstop₂ : out₂.stop = some d₂.length)
    (hroom : eraseEnd true (c.appOtaAddr + pre₁.flatten.length) d₁.length ≤ f.size)
    (hfits : ch₁.flatten.length ≤ c.appOtaSize) (hends : pre₂.flatten.length + d₂.length = c.appOtaSize)
    (hfull : c.appOtaAddr + c.appOtaSize = f.size) (hinside : InsideSector (c.appOtaAddr + pre₂.flatten.length)) :
    SameResult out₁ out₂ ↔ ¬ Diverges f c file ch₁ ch₂ := by
  have hlast := h₁.ends_last hsplit₁
  rw [h₁.flatten] at hfits
  have hlen : c.appOtaSize ≤ file.length := by
    have hsum : (pre₂ ++ d₂ :: post₂).flatten.length = pre₂.flatten.length + d₂.length + post₂.flatten.length :=
      length_split
    rw [← h₂.flatten, hsplit₂]
    omega
  have hon : OnSector (c.appOtaAddr + pre₁.flatten.length) := by
    by_contra hin
    have hend : OnSector (c.appOtaAddr + pre₁.flatten.length + d₁.length) := by
      have hsum : c.appOtaAddr + pre₁.flatten.length + d₁.length = f.size := by omega
      unfold OnSector
      rwa [hsum]
    rw [eraseEnd_inside _ _ hend hin] at hroom
    unfold sectorSize at hroom
    omega
  have hdiverges : Diverges f c file ch₁ ch₂ :=
    diverges_full ⟨pre₁, d₁, [], hsplit₁, by omega, hon⟩ ⟨pre₂, d₂, post₂, hsplit₂, hends, hinside⟩ hfull hsectors
      hheader hlen
  refine ⟨fun h => ?_, fun h => absurd hdiverges h⟩
  unfold SameResult at h
  rw [hstop₁, hstop₂] at h
  exact h.elim

theorem same_iff_symm (h : SameResult out₂ out₁ ↔ ¬ Diverges f c file ch₂ ch₁) :
    SameResult out₁ out₂ ↔ ¬ Diverges f c file ch₁ ch₂ :=
  ⟨fun hsame hdiverges => h.mp hsame.symm hdiverges.symm, fun hno => (h.mpr fun hd => hno hd.symm).symm⟩

/-- A header that is refused is refused in every first chunk. -/
theorem stops_header (hplaced : Placed f c) (hstart : c.wroteAddr = c.appOtaAddr) (hchunks : Chunking file chunks)
    (hsome : chunks ≠ []) (hheader : headerError c (file.take headerSize) ≠ .success) :
    ∃ n, 0 < n ∧ (writeAll f c chunks).stop = some n ∧ (writeAll f c chunks).ctx.wroteAddr = c.appOtaAddr := by
  cases chunks with
  | nil => exact absurd rfl hsome
  | cons d ds =>
    have hd : d ≠ [] := hchunks.nonempty d List.mem_cons_self
    obtain ⟨hlen, htake⟩ := head_take hchunks (List.head?_cons)
    rw [htake] at hheader
    have hbad : (checkData c d).2 ≠ .success := by
      unfold checkData checkHeader
      rw [if_pos hstart.symm, if_neg (Nat.not_lt.mpr hlen)]
      dsimp only
      rw [if_neg hheader]
      exact hheader
    refine ⟨d.length, List.length_pos_iff.mpr hd, ?_⟩
    rcases flashWrite_cases hplaced (Nat.le_of_eq hstart.symm) (by omega) hd with ⟨_, hwrite⟩ | ⟨_, _, hwrite⟩ |
      ⟨_, _, hwrite⟩
    · rw [writeAll, hwrite]
      exact ⟨rfl, hstart⟩
    · rw [writeAll, hwrite]
      exact ⟨rfl, hstart⟩
    · obtain ⟨hdr, crc, hctx, _, _⟩ := checkData_spec c d
      rw [if_neg hbad] at hwrite
      have hwrote : (checkData c d).1.wroteAddr = c.appOtaAddr := by rw [hctx, hstart]
      generalize checkData c d = checked at hwrite hbad hwrote
      obtain ⟨c', ret⟩ := checked
      rw [writeAll, hwrite]
      cases ret
      case success => exact absurd rfl hbad
      all_goals exact ⟨rfl, hwrote⟩

/-- The result of two runs is the same exactly where they do not diverge. -/
theorem same_iff (hplaced : Placed f c) (hneed : c.needErase = true) (hstart : c.wroteAddr = c.appOtaAddr)
    (h₁ : Chunking file ch₁) (h₂ : Chunking file ch₂) :
    SameResult (writeAll f c ch₁) (writeAll f c ch₂) ↔ ¬ Diverges f c file ch₁ ch₂ := by
  have hinside := hplaced.inside
  have hlt := hplaced.sizeLt
  have hsectors := hplaced.sectors
  have hready : Ready c := ⟨hstart, hplaced.pos, by omega⟩
  have hempty : ∀ {ch ch' : List (List Byte)}, Chunking file ch → Chunking file ch' → ch = [] → ch' = [] := by
    intro ch ch' h h' hnil
    cases ch' with
    | nil => rfl
    | cons d ds =>
      have hfile := h.flatten.trans h'.flatten.symm
      rw [hnil, List.flatten_nil, List.flatten_cons] at hfile
      exact absurd (List.append_eq_nil_iff.mp hfile.symm).1 (h'.nonempty d List.mem_cons_self)
  by_cases hnil : ch₁ = []
  · obtain rfl := hempty h₁ h₂ hnil
    subst hnil
    refine ⟨fun _ => ?_, fun _ => ⟨rfl, rfl, rfl⟩⟩
    rintro ⟨_, _, ⟨⟨p, x, q, hx, _⟩, _⟩ | ⟨⟨p, x, q, hx, _⟩, _⟩, _⟩
    all_goals cases p <;> cases hx
  have hnil₂ : ch₂ ≠ [] := fun h => hnil (hempty h₂ h₁ h)
  by_cases hheader : headerError c (file.take headerSize) = .success
  · have hhead : headerSize ≤ file.length := by
      cases ch₁ with
      | nil => exact absurd rfl hnil
      | cons d ds =>
        have hlen := h₁.first d rfl
        rw [← h₁.flatten, List.flatten_cons, List.length_append]
        omega
    have hrun₁ := runEnds hplaced hneed hstart h₁ hnil hheader
    have hrun₂ := runEnds hplaced hneed hstart h₂ hnil₂ hheader
    generalize writeAll f c ch₁ = out₁ at hrun₁ ⊢
    generalize writeAll f c ch₂ = out₂ at hrun₂ ⊢
    have hover : ∀ {ch pre post : List (List Byte)} {d : List Byte}, Chunking file ch → ch = pre ++ d :: post →
        pre.flatten.length + d.length ≤ file.length := by
      intro ch pre post d h hsplit
      have hsum : (pre ++ d :: post).flatten.length = pre.flatten.length + d.length + post.flatten.length :=
        length_split
      rw [← h.flatten, hsplit]
      omega
    cases hrun₁ with
    | done pre₁ d₁ split₁ stop₁ mem₁ room₁ fits₁ fed₁ =>
      cases hrun₂ with
      | done pre₂ d₂ split₂ stop₂ mem₂ room₂ fits₂ fed₂ =>
        have hfits : file.length ≤ c.appOtaSize := by rwa [← h₁.flatten]
        exact same_done hready h₁ h₂ hhead hheader split₁ split₂ stop₁ stop₂ mem₁ mem₂ room₁ room₂ hfits fed₁ fed₂
      | crosses pre₂ d₂ post₂ split₂ stop₂ wrote₂ starts₂ over₂ room₂ =>
        have hle := hover h₂ split₂
        rw [h₁.flatten] at fits₁
        omega
      | blocked pre₂ d₂ post₂ split₂ stop₂ wrote₂ ends₂ full₂ inside₂ =>
        exact same_done_blocked hsectors h₁ h₂ hheader split₁ split₂ stop₁ stop₂ room₁ fits₁ ends₂ full₂ inside₂
    | crosses pre₁ d₁ post₁ split₁ stop₁ wrote₁ starts₁ over₁ room₁ =>
      cases hrun₂ with
      | done pre₂ d₂ split₂ stop₂ mem₂ room₂ fits₂ fed₂ =>
        have hle := hover h₁ split₁
        rw [h₂.flatten] at fits₂
        omega
      | crosses pre₂ d₂ post₂ split₂ stop₂ wrote₂ starts₂ over₂ room₂ =>
        have hle := hover h₁ split₁
        have hmin : min file.length c.appOtaSize = c.appOtaSize := Nat.min_eq_right (by omega)
        rw [same_of_overlap stop₁ stop₂, wrote₁, wrote₂]
        refine ⟨fun _ => ?_, fun _ => ⟨c.appOtaAddr + c.appOtaSize, by omega, by omega⟩⟩
        unfold Diverges
        dsimp only
        rw [hmin]
        rintro ⟨_, hsector, hpair, hseen⟩
        have hfull : f.size < c.appOtaAddr + c.appOtaSize + sectorSize := by
          rcases hseen with hfull | ⟨hfits, _⟩
          · exact hfull
          · omega
        rcases hpair with ⟨_, hin⟩ | ⟨hin, _⟩
        · exact crosses_onSector split₂ over₂ room₂ hfull hsector hin
        · exact crosses_onSector split₁ over₁ room₁ hfull hsector hin
      | blocked pre₂ d₂ post₂ split₂ stop₂ wrote₂ ends₂ full₂ inside₂ =>
        exact same_crosses_blocked hsectors h₁ h₂ hheader split₁ split₂ stop₁ stop₂ wrote₁ wrote₂ starts₁ over₁ room₁
          ends₂ full₂ inside₂
    | blocked pre₁ d₁ post₁ split₁ stop₁ wrote₁ ends₁ full₁ inside₁ =>
      cases hrun₂ with
      | done pre₂ d₂ split₂ stop₂ mem₂ room₂ fits₂ fed₂ =>
        exact same_iff_symm
          (same_done_blocked hsectors h₂ h₁ hheader split₂ split₁ stop₂ stop₁ room₂ fits₂ ends₁ full₁ inside₁)
      | crosses pre₂ d₂ post₂ split₂ stop₂ wrote₂ starts₂ over₂ room₂ =>
        exact same_iff_symm (same_crosses_blocked hsectors h₂ h₁ hheader split₂ split₁ stop₂ stop₁ wrote₂ wrote₁ starts₂
          over₂ room₂ ends₁ full₁ inside₁)
      | blocked pre₂ d₂ post₂ split₂ stop₂ wrote₂ ends₂ full₂ inside₂ =>
        have hle := hover h₁ split₁
        have hmin : min file.length c.appOtaSize = c.appOtaSize := Nat.min_eq_right (by omega)
        have hin₁ : ChunkEnds c.appOtaAddr ch₁ c.appOtaSize InsideSector := ⟨pre₁, d₁, post₁, split₁, ends₁, inside₁⟩
        have hin₂ : ChunkEnds c.appOtaAddr ch₂ c.appOtaSize InsideSector := ⟨pre₂, d₂, post₂, split₂, ends₂, inside₂⟩
        have hpos₁ : 0 < d₁.length := List.length_pos_iff.mpr
          (h₁.nonempty d₁ (by rw [split₁]; exact List.mem_append_right _ List.mem_cons_self))
        have hpos₂ : 0 < d₂.length := List.length_pos_iff.mpr
          (h₂.nonempty d₂ (by rw [split₂]; exact List.mem_append_right _ List.mem_cons_self))
        rw [same_of_overlap stop₁ stop₂, wrote₁, wrote₂]
        refine ⟨fun _ => ?_, fun _ => ⟨c.appOtaAddr + c.appOtaSize - 1, by omega, by omega⟩⟩
        unfold Diverges
        dsimp only
        rw [hmin]
        rintro ⟨_, _, ⟨hon, _⟩ | ⟨_, hon⟩, _⟩
        · exact not_onSector_inside h₁.nonempty hon hin₁
        · exact not_onSector_inside h₂.nonempty hon hin₂
  · obtain ⟨n₁, hpos₁, hstop₁, hwrote₁⟩ := stops_header hplaced hstart h₁ hnil hheader
    obtain ⟨n₂, hpos₂, hstop₂, hwrote₂⟩ := stops_header hplaced hstart h₂ hnil₂ hheader
    rw [same_of_overlap hstop₁ hstop₂, hwrote₁, hwrote₂]
    exact ⟨fun _ h => hheader h.1, fun _ => ⟨c.appOtaAddr, by omega, by omega⟩⟩

/-- Two runs of the same stream after the same sequential beginning leave the same exactly where they do not
diverge. -/
theorem split_same_iff {f₀ : Dev} {c₀ : Ctx} (hplaced : Placed f₀ c₀)
    (hbegin : flashBegin f₀ c₀ otaWithSequentialWrites = (f, c, .success)) (h₁ : Chunking file ch₁)
    (h₂ : Chunking file ch₂) :
    SameResult (writeAll f c ch₁) (writeAll f c ch₂) ↔ ¬ Diverges f c file ch₁ ch₂ := by
  unfold flashBegin at hbegin
  dsimp only at hbegin
  rw [if_neg (Nat.ne_of_gt hplaced.pos)] at hbegin
  split at hbegin
  next => cases hbegin
  next hok =>
    rw [if_pos rfl, eraseRegion_true (Bool.eq_true_of_not_eq_false hok)] at hbegin
    obtain ⟨rfl, hctx⟩ := Prod.mk.inj hbegin
    obtain ⟨rfl, _⟩ := Prod.mk.inj hctx
    exact same_iff ⟨hplaced.pos, hplaced.inside, hplaced.sizeLt, hplaced.sectors⟩ rfl rfl h₁ h₂

end TwoRuns

section Example

/-- The header with bytes behind it. -/
def headerAnd (rest : List Byte) : List Byte := smallHeader ++ rest

theorem headerAnd_length (rest : List Byte) : (headerAnd rest).length = 64 + rest.length := by
  rw [headerAnd, List.length_append, smallHeader_length]

theorem headerAnd_whole (rest : List Byte) : Chunking (headerAnd rest) [headerAnd rest] := by
  refine chunking_single ?_
  rw [headerAnd_length]
  exact Nat.le_add_right _ _

theorem headerAnd_split {rest : List Byte} (hne : rest ≠ []) : Chunking (headerAnd rest) [smallHeader, rest] := by
  refine ⟨?_, ?_, ?_⟩
  · rw [List.flatten_cons, List.flatten_singleton]
    rfl
  · intro d hd
    rcases List.mem_cons.mp hd with rfl | hd
    · exact smallHeader_ne
    · rwa [List.mem_singleton.mp hd]
  · intro d hd
    obtain rfl := Option.some.inj hd
    rw [smallHeader_length]
    exact Nat.le_refl _

theorem split_same_iff_header :
    SameResult (writeAll begunSequential.1 begunSequential.2 [headerAnd [1, 2]])
      (writeAll begunSequential.1 begunSequential.2 [smallHeader, [1, 2]]) := by
  rw [split_same_iff zeros_placed zeros_begin (headerAnd_whole [1, 2]) (headerAnd_split (List.cons_ne_nil _ _))]
  have hmin : min (headerAnd [1, 2]).length begunSequential.2.appOtaSize = 66 := by
    rw [headerAnd_length]
    decide
  unfold Diverges
  dsimp only
  rw [hmin]
  rintro ⟨_, hsector, _⟩
  revert hsector
  unfold OnSector
  decide

/-- A sector of the stream in one chunk and in two: in two, the second sector is erased as well. -/
theorem split_differs :
    ∃ file ch₁ ch₂, Chunking file ch₁ ∧ Chunking file ch₂ ∧
      flashBegin zeros partitions otaWithSequentialWrites = (begunSequential.1, begunSequential.2, .success) ∧
      ¬ SameResult (writeAll begunSequential.1 begunSequential.2 ch₁)
        (writeAll begunSequential.1 begunSequential.2 ch₂) := by
  have hrest : (List.replicate 0xFC0 (0 : Byte)).length = 0xFC0 := List.length_replicate
  generalize List.replicate 0xFC0 (0 : Byte) = rest at hrest
  have hne : rest ≠ [] := by
    rw [← List.length_pos_iff, hrest]
    decide
  have hlen : (headerAnd rest).length = 0x1000 := by rw [headerAnd_length, hrest]
  have h₁ := headerAnd_whole rest
  have h₂ := headerAnd_split hne
  refine ⟨_, _, _, h₁, h₂, zeros_begin, ?_⟩
  have hplaced : Placed begunSequential.1 begunSequential.2 := ⟨by decide, by decide, by decide, by decide⟩
  rw [same_iff hplaced rfl rfl h₁ h₂, not_not]
  have hmin : min (headerAnd rest).length begunSequential.2.appOtaSize = 0x1000 := by
    rw [hlen]
    decide
  unfold Diverges
  dsimp only
  rw [hmin]
  refine ⟨?_, by unfold OnSector; decide, Or.inl ⟨?_, ?_⟩, Or.inr ⟨?_, ?_⟩⟩
  · have htake : (headerAnd rest).take headerSize = smallHeader := List.take_left' smallHeader_length
    rw [htake]
    decide +kernel
  · refine ⟨[], headerAnd rest, [], rfl, ?_, by unfold OnSector; decide⟩
    rw [hlen]
    rfl
  · refine ⟨[smallHeader], rest, [], rfl, ?_, ?_⟩
    · rw [List.flatten_singleton, smallHeader_length, hrest]
    · rw [List.flatten_singleton, smallHeader_length]
      unfold InsideSector
      decide
  · rw [hlen]
    decide
  · intro hblank
    have hfirst : erase (fun _ => 0) 0xCF000 0x1000 0x11000 = blank := hblank 0x11000 (by decide) (by decide)
    have hzero : erase (fun _ => 0) 0xCF000 0x1000 0x11000 = 0 := erase_apply_out (Or.inl (by decide))
    rw [hzero] at hfirst
    cases hfirst

end Example

end WmIot.Ota
