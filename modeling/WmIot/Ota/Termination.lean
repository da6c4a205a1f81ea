import WmIot.Ota.Download

/-!
# When a download ends

A turn that leaves the loop running has read without an error and written what it read. So a loop that
does not end is one that waits in every turn, and one that waits in every turn does not end.
-/

namespace WmIot.Ota
open LittleEndian
set_option autoImplicit false

/-- What holds of the context between writes, `w` bytes having been written. -/
structure Valid (c : Ctx) (w : Nat) : Prop where
  placed : c.appOtaAddr + c.appOtaSize < 2 ^ 32
  wrote : c.wroteAddr = c.appOtaAddr + w
  within : w ≤ c.appOtaSize
  header : 0 < w → announced c ≤ c.appOtaSize

section Write
variable {c c' : Ctx} {w : Nat} {io : FlashIo} {d : List Byte}

/-- A header that is accepted announces what has room. -/
theorem room_of_headerError {h : Header} (hplaced : c.appOtaAddr + c.appOtaSize < 2 ^ 32)
    (hsize : headerSize ≤ c.appOtaSize) (herror : headerError c h = .success) :
    h.imgLen + headerSize ≤ c.appOtaSize := by
  unfold headerError at herror
  by_contra hlt
  have hover : sub32 c.appOtaSize headerSize < h.imgLen := by
    unfold sub32
    unfold headerSize at *
    omega
  repeat' split at herror
  all_goals cases herror

/-- A check changes the header and the CRC; behind the first write it leaves the header. -/
theorem checkData_spec (c : Ctx) (d : List Byte) :
    ∃ h crc, (checkData c d).1 = { c with otaHeader := h, crcCtx := crc } ∧
      (c.appOtaAddr ≠ c.wroteAddr → h = c.otaHeader) ∧
      ((checkData c d).2 = .success → c.appOtaAddr = c.wroteAddr →
        headerSize ≤ d.length ∧ headerError c h = .success) := by
  unfold checkData
  by_cases hfirst : c.appOtaAddr = c.wroteAddr
  · rw [if_pos hfirst]
    unfold checkHeader
    by_cases hshort : d.length < headerSize
    · rw [if_pos hshort]
      exact ⟨c.otaHeader, c.crcCtx, rfl, fun _ => rfl, nofun⟩
    · rw [if_neg hshort]
      by_cases herror : headerError c (d.take headerSize) = .success
      · dsimp only
        rw [if_pos herror]
        exact ⟨_, _, rfl, fun h => absurd hfirst h, fun _ _ => ⟨by omega, herror⟩⟩
      · dsimp only
        rw [if_neg herror]
        exact ⟨_, c.crcCtx, rfl, fun h => absurd hfirst h, fun h => absurd h herror⟩
  · rw [if_neg hfirst]
    exact ⟨c.otaHeader, _, rfl, fun _ => rfl, fun _ h => absurd h hfirst⟩

/-- What a write does to the context: with success the data is behind what was written. -/
theorem opsWrite_valid (h : Valid c w) :
    ((opsWrite io c d).2 = .success → Valid (opsWrite io c d).1 (w + d.length)) ∧
      ((opsWrite io c d).2 ≠ .success → Valid (opsWrite io c d).1 w) ∧
      (0 < w → (opsWrite io c d).1.otaHeader = c.otaHeader) := by
  have hplaced := h.placed
  have hwrote := h.wrote
  have hwithin := h.within
  unfold opsWrite
  dsimp only
  split
  next => exact ⟨nofun, fun _ => h, fun _ => rfl⟩
  next hparam =>
    split
    next => exact ⟨nofun, fun _ => h, fun _ => rfl⟩
    next hroom =>
      split
      next => exact ⟨nofun, fun _ => h, fun _ => rfl⟩
      next =>
        have hfit : w + d.length ≤ c.appOtaSize := by
          unfold sub32 add32 at hroom
          omega
        obtain ⟨hdr, crc, hctx, hkeep, hhead⟩ := checkData_spec c d
        rw [hctx]
        have hsame : 0 < w → hdr = c.otaHeader := fun hw => hkeep (by omega)
        have hvalid : Valid { c with otaHeader := hdr, crcCtx := crc } w := by
          refine ⟨hplaced, hwrote, hwithin, fun hw => ?_⟩
          rw [hsame hw]
          exact h.header hw
        split
        next hok =>
          split
          next =>
            refine ⟨fun _ => ⟨hplaced, ?_, hfit, fun _ => ?_⟩, fun hne => absurd rfl hne, hsame⟩
            · show add32 c.wroteAddr d.length = c.appOtaAddr + (w + d.length)
              unfold add32
              omega
            · by_cases hw : 0 < w
              · exact hvalid.header hw
              · obtain ⟨hlen, herror⟩ := hhead hok (by omega)
                have hsize : headerSize ≤ c.appOtaSize := by omega
                exact room_of_headerError hplaced hsize herror
          next => exact ⟨nofun, fun _ => hvalid, hsame⟩
        next hbad => exact ⟨fun hok => absurd hok hbad, fun _ => hvalid, hsame⟩

end Write

section Run
variable {cfg : Config} {reboot : Bool} {env : Env} {c : Ctx} {w i : Nat} {s s' : Loop}

/-- The state of the loop before turn `i`. -/
structure Running (env : Env) (c : Ctx) (w i : Nat) (s : Loop) : Prop where
  written : written env.turns c i = some s.c
  offset : s.wroteOffset = w + delivered env.turns i
  valid : Valid s.c s.wroteOffset
  waits : delivered env.turns i = 0 ∧ s.total = 0 ∨
    0 < s.wroteOffset ∧ s.total = announced s.c ∧ s.wroteOffset < s.total
  request : 0 < s.nextReadSize

/-- What the end of the loop promises. -/
structure Over (env : Env) (w : Nat) (s : Loop) (ret : Err) : Prop where
  valid : Valid s.c s.wroteOffset
  complete : ret = .success → announced s.c ≤ s.wroteOffset ∧ opsEnd s.c = .success
  offset : ∃ i, s.wroteOffset = w + delivered env.turns i

theorem written_succ (env : Env) (c : Ctx) (i : Nat) :
    written env.turns c (i + 1) = (written env.turns c i).bind fun c =>
      if (env.turns i).read.bytes = [] then some c
      else if (opsWrite (env.turns i).io c (env.turns i).read.bytes).2 = .success then
        some (opsWrite (env.turns i).io c (env.turns i).read.bytes).1
      else none := rfl

/-- A report changes the progress and the states only. -/
theorem report_eq (s : Loop) (newProgress : Nat) :
    ∃ states, s.report newProgress = { s with progress := newProgress, states := states } := by
  unfold Loop.report
  split
  next => exact ⟨_, rfl⟩
  next h =>
    refine ⟨s.states, ?_⟩
    rw [← not_not.mp h]

theorem count_eq (cfg : Config) (s : Loop) (got : Nat) :
    ∃ progress states, count cfg s got =
      let total := if s.total = 0 then imgTotalSize s.c else s.total
      let left := sub32 total (add32 s.wroteOffset got)
      { c := s.c, wroteOffset := add32 s.wroteOffset got, total := total, progress := progress,
        nextReadSize := if cfg.blockSize ≤ left then cfg.blockSize else left, states := states } := by
  obtain ⟨states, h⟩ := report_eq _ _
  exact ⟨_, states, h⟩

/-- A turn that has written a chunk counts it without a wrap, and knows the size. -/
theorem Running.count_spec (h : Running env c w i s)
    (hok : (opsWrite (env.turns i).io s.c (env.turns i).read.bytes).2 = .success)
    (hne : (env.turns i).read.bytes ≠ []) (s' : Loop)
    (hs' : s' = count cfg { s with c := (opsWrite (env.turns i).io s.c (env.turns i).read.bytes).1 }
      (env.turns i).read.bytes.length) :
    s'.c = (opsWrite (env.turns i).io s.c (env.turns i).read.bytes).1 ∧
      s'.wroteOffset = w + delivered env.turns (i + 1) ∧ 0 < s'.wroteOffset ∧
      Valid s'.c s'.wroteOffset ∧ s'.total = announced s'.c ∧
      (s'.wroteOffset < s'.total → 0 < s'.nextReadSize) := by
  have hvalid := (opsWrite_valid h.valid).1 hok
  have hsame : 0 < s.wroteOffset →
      (opsWrite (env.turns i).io s.c (env.turns i).read.bytes).1.otaHeader = s.c.otaHeader :=
    (opsWrite_valid h.valid).2.2
  obtain ⟨progress, states, hcount⟩ := count_eq cfg
    { s with c := (opsWrite (env.turns i).io s.c (env.turns i).read.bytes).1 }
    (env.turns i).read.bytes.length
  rw [hcount] at hs'
  dsimp only at hs'
  generalize (opsWrite (env.turns i).io s.c (env.turns i).read.bytes).1 = c' at *
  have hoffset := h.offset
  have hplaced := hvalid.placed
  have hwithin := hvalid.within
  have hpos : 0 < (env.turns i).read.bytes.length := List.length_pos_of_ne_nil hne
  have hroom := hvalid.header (by omega)
  have hadd : add32 s.wroteOffset (env.turns i).read.bytes.length =
      s.wroteOffset + (env.turns i).read.bytes.length := by
    unfold add32
    omega
  have hsize : imgTotalSize c' = announced c' := by
    unfold imgTotalSize add32
    unfold announced at hroom ⊢
    omega
  have htotal : (if s.total = 0 then imgTotalSize c' else s.total) = announced c' := by
    split
    next => exact hsize
    next hne =>
      rcases h.waits with ⟨_, hzero⟩ | ⟨hwrote, hknown, _⟩
      · exact absurd hzero hne
      · rw [hknown, announced, announced, hsame hwrote]
  rw [htotal, hadd] at hs'
  have hblock := cfg.block_ge
  subst hs'
  dsimp only
  refine ⟨rfl, ?_, by omega, hvalid, rfl, fun hlt => ?_⟩
  · rw [hoffset, delivered]
    omega
  · have hleft : sub32 (announced c') (s.wroteOffset + (env.turns i).read.bytes.length) =
        announced c' - (s.wroteOffset + (env.turns i).read.bytes.length) := by
      unfold sub32
      omega
    rw [hleft]
    split <;> omega

/-- Before a turn that reads without an error the loop waits. -/
theorem Running.waitsAt (h : Running env c w i s) (hread : readFirmware (env.turns i).read = .success) :
    Waits env c w i := by
  refine ⟨hread, s.c, h.written, ?_⟩
  rcases h.waits with ⟨hnone, _⟩ | ⟨_, htotal, hlt⟩
  · exact Or.inl hnone
  · have hoffset := h.offset
    exact Or.inr (by omega)

theorem finish_spec (reboot : Bool) (s : Loop) :
    (finish reboot s).1.c = s.c ∧ (finish reboot s).1.wroteOffset = s.wroteOffset ∧
      ((finish reboot s).2 = .success → opsEnd s.c = .success) := by
  unfold finish
  dsimp only
  split
  next h => exact ⟨rfl, rfl, fun hok => absurd hok h⟩
  next h =>
    have hok := not_not.mp h
    cases reboot <;> exact ⟨rfl, rfl, fun _ => hok⟩

/-- A turn leaves the loop with what it promises, where the loop does not wait here and in the next
turn, or it leaves it running. -/
theorem Running.turn (h : Running env c w i s) (cfg : Config) (reboot : Bool) :
    (∃ s' ret, turn cfg reboot s (env.turns i) = (s', some ret) ∧ Over env w s' ret ∧
      ¬ (Waits env c w i ∧ Waits env c w (i + 1))) ∨
    ∃ s', turn cfg reboot s (env.turns i) = (s', none) ∧ Running env c w (i + 1) s' ∧ Waits env c w i := by
  have hrequest := h.request
  have hget : getFirmware s.nextReadSize (env.turns i).read = readFirmware (env.turns i).read := by
    unfold getFirmware
    rw [if_neg (by omega)]
  unfold Ota.turn
  dsimp only
  rw [hget]
  by_cases hread : readFirmware (env.turns i).read = .success
  case neg =>
    rw [if_pos hread]
    refine Or.inl ⟨_, _, rfl, ⟨h.valid, fun hok => absurd hok hread, i, h.offset⟩, ?_⟩
    rintro ⟨hwaits, _⟩
    exact hread hwaits.1
  case pos =>
    have hwaits := h.waitsAt hread
    rw [if_neg (not_not.mpr hread)]
    have hwritten := written_succ env c i
    rw [h.written, Option.bind_some] at hwritten
    by_cases hempty : (env.turns i).read.bytes = []
    · rw [if_pos hempty] at hwritten ⊢
      have hdelivered : delivered env.turns (i + 1) = delivered env.turns i := by
        rw [delivered, hempty]
        rfl
      refine Or.inr ⟨s, rfl, ⟨hwritten, ?_, h.valid, ?_, hrequest⟩, hwaits⟩
      · rw [hdelivered]
        exact h.offset
      · rw [hdelivered]
        exact h.waits
    · rw [if_neg hempty] at hwritten ⊢
      by_cases hok : (opsWrite (env.turns i).io s.c (env.turns i).read.bytes).2 = .success
      · rw [if_pos hok] at hwritten
        rw [if_neg (not_not.mpr hok)]
        obtain ⟨s', hs'⟩ : ∃ s', s' = Ota.count cfg
            { s with c := (opsWrite (env.turns i).io s.c (env.turns i).read.bytes).1 }
            (env.turns i).read.bytes.length := ⟨_, rfl⟩
        obtain ⟨hc, hoffset, hpos, hvalid, htotal, hnext⟩ := h.count_spec hok hempty s' hs'
        rw [← hs']
        rw [← hc] at hwritten
        by_cases hdone : s'.total ≤ s'.wroteOffset
        · rw [if_pos hdone]
          obtain ⟨hfc, hfo, hfend⟩ := finish_spec reboot s'
          refine Or.inl ⟨_, _, rfl, ⟨?_, ?_, i + 1, ?_⟩, ?_⟩
          · rw [hfc, hfo]
            exact hvalid
          · intro hsuccess
            rw [hfc, hfo]
            exact ⟨by omega, hfend hsuccess⟩
          · rw [hfo]
            exact hoffset
          · rintro ⟨_, _, c', hc', hwait⟩
            rw [hwritten] at hc'
            cases hc'
            have hlen := List.length_pos_of_ne_nil hempty
            have hsum : delivered env.turns (i + 1) =
                delivered env.turns i + (env.turns i).read.bytes.length := rfl
            omega
        · rw [if_neg hdone]
          refine Or.inr ⟨s', rfl, ⟨hwritten, hoffset, hvalid, Or.inr ⟨hpos, htotal, by omega⟩, ?_⟩, hwaits⟩
          exact hnext (by omega)
      · rw [if_neg hok] at hwritten
        rw [if_pos hok]
        refine Or.inl ⟨_, _, rfl, ⟨(opsWrite_valid h.valid).2.1 hok, fun hsuccess => absurd hsuccess hok, i,
          h.offset⟩, ?_⟩
        rintro ⟨_, _, c', hc', _⟩
        rw [hwritten] at hc'
        cases hc'

/-- The loop ends with what it promises, or waits in each turn of its fuel. -/
theorem Running.loop (n : Nat) : ∀ {i : Nat} {s : Loop}, Running env c w i s → ∀ cfg reboot,
    (∃ s' ret, loop cfg reboot env.turns n i s = some (s', ret) ∧ Over env w s' ret) ∨
      loop cfg reboot env.turns n i s = none ∧ ∀ k, k < n → Waits env c w (i + k) := by
  induction n with
  | zero => exact fun _ _ _ => Or.inr ⟨rfl, fun k hk => absurd hk (Nat.not_lt_zero k)⟩
  | succ n ih =>
    intro i s h cfg reboot
    rw [Ota.loop]
    rcases h.turn cfg reboot with ⟨s', ret, hturn, hover, _⟩ | ⟨s', hturn, hnext, hwaits⟩
    · rw [hturn]
      exact Or.inl ⟨s', ret, rfl, hover⟩
    · rw [hturn]
      rcases ih hnext cfg reboot with hend | ⟨hnone, hall⟩
      · exact Or.inl hend
      · refine Or.inr ⟨hnone, fun k hk => ?_⟩
        cases k with
        | zero => exact hwaits
        | succ k =>
          have hk := hall k (by omega)
          rw [Nat.add_right_comm] at hk
          exact hk

/-- A loop that waits in every turn does not end. -/
theorem Running.loop_none (hall : ∀ i, Waits env c w i) (n : Nat) : ∀ {i : Nat} {s : Loop},
    Running env c w i s → Ota.loop cfg reboot env.turns n i s = none := by
  induction n with
  | zero => exact fun _ => rfl
  | succ n ih =>
    intro i s h
    rcases h.turn cfg reboot with ⟨s', ret, _, _, hno⟩ | ⟨s', hturn, hnext, _⟩
    · exact absurd ⟨hall i, hall (i + 1)⟩ hno
    · rw [Ota.loop, hturn]
      exact ih hnext

/-- Nothing more is delivered from a turn on. -/
theorem delivered_le {turns : Nat → Turn} {i : Nat} (hend : ∀ k, i ≤ k → (turns k).read.bytes = []) (j : Nat) :
    delivered turns j ≤ delivered turns i := by
  have hafter : ∀ m, delivered turns (i + m) = delivered turns i := by
    intro m
    induction m with
    | zero => rfl
    | succ m ih =>
      rw [← Nat.add_assoc, delivered, ih, hend (i + m) (Nat.le_add_right i m)]
      rfl
  have hmono : ∀ m, delivered turns j ≤ delivered turns (j + m) := by
    intro m
    induction m with
    | zero => exact Nat.le_refl _
    | succ m ih => exact Nat.le_trans ih (Nat.le_add_right _ _)
  rcases Nat.le_total i j with hij | hij
  · obtain ⟨m, rfl⟩ := Nat.exists_eq_add_of_le hij
    exact Nat.le_of_eq (hafter m)
  · obtain ⟨m, rfl⟩ := Nat.exists_eq_add_of_le hij
    exact hmono m

/-- The loop begins with nothing delivered. -/
theorem Running.start (h : Valid c w) (hs : s.c = c ∧ s.wroteOffset = w ∧ s.total = 0 ∧
    s.nextReadSize = cfg.blockSize) : Running env c w 0 s := by
  obtain ⟨rfl, rfl, htotal, hnext⟩ := hs
  have hblock := cfg.block_ge
  exact ⟨rfl, rfl, h, Or.inl ⟨rfl, htotal⟩, by omega⟩

/-- A call returns before its loop, or is its loop. -/
theorem otaStart_cases (cfg : Config) (reboot : Bool) (env : Env) (c : Ctx) (w : Nat) :
    (∃ s ret, (∀ n, otaStart cfg reboot env n c w = some (s, ret)) ∧ s.c = c ∧ s.wroteOffset = w ∧
      ret ≠ .success ∧ ¬ Starves cfg env c w) ∨
    connect env.connects cfg.reconnectTimes 0 = .success ∧ env.mem = true ∧
      ∃ s, (s.c = c ∧ s.wroteOffset = w ∧ s.total = 0 ∧ s.nextReadSize = cfg.blockSize) ∧
        ∀ n, otaStart cfg reboot env n c w = Ota.loop cfg reboot env.turns n 0 s := by
  unfold otaStart
  dsimp only
  by_cases hconnect : connect env.connects cfg.reconnectTimes 0 = .success
  case neg =>
    refine Or.inl ⟨_, _, fun _ => if_pos hconnect, rfl, rfl, nofun, ?_⟩
    rintro ⟨h, _⟩
    exact hconnect h
  case pos =>
    by_cases hmem : env.mem = true
    case neg =>
      simp only [if_neg (not_not.mpr hconnect), if_neg hmem]
      refine Or.inl ⟨_, _, fun _ => rfl, rfl, rfl, nofun, ?_⟩
      rintro ⟨_, h, _⟩
      exact hmem h
    case pos =>
      simp only [if_neg (not_not.mpr hconnect), if_pos hmem]
      exact Or.inr ⟨hconnect, hmem, _, ⟨rfl, rfl, rfl, rfl⟩, fun _ => rfl⟩

theorem Prepared.valid (h : Prepared cfg c w) : Valid c w := by
  induction h with
  | @begin tail io c₀ c imageSize hplaced hbegin =>
    unfold opsBegin at hbegin
    split at hbegin
    next => cases hbegin
    next =>
      dsimp only at hbegin
      repeat' split at hbegin
      all_goals cases hbegin
      all_goals exact ⟨hplaced, rfl, Nat.zero_le _, fun h => absurd h (Nat.lt_irrefl 0)⟩
  | @again c w n reboot env s ret _ hstart ih =>
    rcases otaStart_cases cfg reboot env c w with ⟨s', ret', hall, hc, hw, _⟩ | ⟨_, _, s₀, hs₀, hloop⟩
    · rw [hall n] at hstart
      cases hstart
      rw [hc, hw]
      exact ih
    · rw [hloop n] at hstart
      have hrunning : Running env c w 0 s₀ := .start ih hs₀
      rcases hrunning.loop n cfg reboot with ⟨s', ret', hend, hover⟩ | ⟨hnone, _⟩
      · rw [hend] at hstart
        cases hstart
        exact hover.valid
      · rw [hnone] at hstart
        cases hstart

/-- A starved loop turns for ever. -/
theorem not_ends_of_starves {cfg : Config} {reboot : Bool} (h : Prepared cfg c w) (hstarves : Starves cfg env c w) :
    ¬ Ends cfg reboot env c w := by
  rintro ⟨n, s, ret, hstart, _⟩
  rcases otaStart_cases cfg reboot env c w with ⟨_, _, _, _, _, _, hno⟩ | ⟨_, _, s₀, hs₀, hloop⟩
  · exact hno hstarves
  · have hrunning : Running env c w 0 s₀ := .start h.valid hs₀
    rw [hloop, hrunning.loop_none hstarves.2.2 n] at hstart
    cases hstart

theorem ends_of_not_starves {cfg : Config} {reboot : Bool} (h : Prepared cfg c w) (hno : ¬ Starves cfg env c w) :
    Ends cfg reboot env c w := by
  rcases otaStart_cases cfg reboot env c w with ⟨s, ret, hall, _, _, hret, _⟩ | ⟨hconnect, hmem, s₀, hs₀, hloop⟩
  · exact ⟨0, s, ret, hall 0, fun hok => absurd hok hret, fun _ => hret⟩
  · have hrunning : Running env c w 0 s₀ := .start h.valid hs₀
    have hsome : ∃ i, ¬ Waits env c w i := by
      by_contra hall
      exact hno ⟨hconnect, hmem, fun i => not_not.mp fun hi => hall ⟨i, hi⟩⟩
    obtain ⟨i, hi⟩ := hsome
    rcases hrunning.loop (i + 1) cfg reboot with ⟨s, ret, hend, hover⟩ | ⟨_, hall⟩
    · refine ⟨i + 1, s, ret, ?_, fun hok => ?_, ?_⟩
      · rw [hloop]
        exact hend
      · obtain ⟨hcomplete, hopsEnd⟩ := hover.complete hok
        have hwrote := hover.valid.wrote
        exact ⟨by omega, hopsEnd⟩
      · rintro ⟨j, hquiet, hshort⟩ hok
        obtain ⟨m, hm⟩ := hover.offset
        have hcomplete := (hover.complete hok).1
        have hle := delivered_le hquiet m
        omega
    · refine absurd ?_ hi
      have hwaits := hall i (Nat.lt_succ_self i)
      rw [Nat.zero_add] at hwaits
      exact hwaits

end Run

/-- A download ends, as it promises, exactly where its server does not starve it. -/
theorem download_ends_iff {cfg : Config} {reboot : Bool} {env : Env} {c : Ctx} {w : Nat}
    (h : Prepared cfg c w) : Ends cfg reboot env c w ↔ ¬ Starves cfg env c w :=
  ⟨fun hends hstarves => not_ends_of_starves h hstarves hends, ends_of_not_starves h⟩

section Example

def blocks : Config := ⟨4096, 5, by decide⟩

def partitions : Ctx := ⟨0xD0000, 0x10000, 0xC0000, false, 0x10000, [], 0⟩

theorem partitions_prepared : Prepared blocks partitions 0 := by
  have hbegin : opsBegin true ⟨true, true⟩ partitions otaSizeUnknown = (partitions, .success) := rfl
  exact .begin (by decide) hbegin

/-- A header that announces four bytes behind it. -/
def smallHeader : Header :=
  let h := [magicNo, 1, 0x80D0400, 4, 0x80D0000, 0, 0, 0, 0, 0, 0, 0, 0, 0, 0].flatMap (pack 4)
  h ++ pack 4 (Crc32.update 0xFFFFFFFF#32 h).toNat

/-- The header, and then the answer `tail` for ever. -/
def serverOf (tail : HttpRet) : Env where
  connects _ := .success
  mem := true
  turns i := ⟨⟨if i = 0 then .success else tail, if i = 0 then smallHeader else [], false, true⟩, ⟨true, true⟩⟩

/-- A broken connection ends the download. -/
theorem download_ends_broken : Ends blocks false (serverOf .error) partitions 0 := by
  refine (download_ends_iff partitions_prepared).mpr ?_
  rintro ⟨_, _, hwaits⟩
  have hread := (hwaits 1).1
  revert hread
  decide

theorem smallHeader_written : ∀ i, ∃ c', written (serverOf .eos).turns partitions (i + 1) = some c' ∧
    delivered (serverOf .eos).turns (i + 1) = 64 ∧ announced c' = 68 := by
  have hfirst : (written (serverOf .eos).turns partitions 1).map announced = some 68 := by
    decide +kernel
  obtain ⟨c', hc', hannounced⟩ := Option.map_eq_some_iff.mp hfirst
  intro i
  induction i with
  | zero => exact ⟨c', hc', by decide +kernel, hannounced⟩
  | succ i ih =>
    obtain ⟨c', hwritten, hdelivered, hannounced⟩ := ih
    refine ⟨c', ?_, ?_, hannounced⟩
    · rw [written_succ, hwritten]
      rfl
    · rw [delivered, hdelivered]
      rfl

/-- After its header, which is accepted, the stream ends, and `ota_start` never returns. -/
theorem download_never_ends :
    (∀ k, 1 ≤ k → ((serverOf .eos).turns k).read.bytes = []) ∧
    (opsWrite ⟨true, true⟩ partitions ((serverOf .eos).turns 0).read.bytes).2 = .success ∧
    Prepared blocks partitions 0 ∧ ¬ Ends blocks false (serverOf .eos) partitions 0 := by
  refine ⟨fun k hk => if_neg (by omega), by decide +kernel, partitions_prepared, ?_⟩
  refine not_ends_of_starves partitions_prepared ⟨by decide, rfl, fun i => ?_⟩
  cases i with
  | zero => exact ⟨by decide, partitions, rfl, Or.inl rfl⟩
  | succ i =>
    obtain ⟨c', hwritten, hdelivered, hannounced⟩ := smallHeader_written i
    exact ⟨rfl, c', hwritten, Or.inr (by omega)⟩

end Example

end WmIot.Ota
