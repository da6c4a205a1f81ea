import WmIot.Cli.Editor

/-!
# Each key edits the line

One lemma a key: the shell it leaves follows the editor's line, and what it writes brings the terminal from the old
line to the new one. Then runs of keys.
-/

namespace WmIot.Cli
open CString (Byte lit)
open TextBuffer
open Terminal hiding Byte
set_option autoImplicit false

/-- The prompt opens a row, and a command fits in the buffer with `help` before it. -/
structure Setup.WellFormed (S : Setup) (p : List Byte) : Prop where
  prompt : S.command = cr :: lf :: p
  glyphs : ∀ c ∈ p, Glyph c
  history : 0 < S.historyMaxNumber
  names : ∀ c ∈ S.commands, (∀ b ∈ c.name, Plain b) ∧ c.name.length + 5 < S.commandMaxLength

/-- The shell has the editor's line and history. -/
structure Follows (S : Setup) (sh₀ sh : Shell) (e : Editor) : Prop where
  line : LineIs S sh₀.buffer sh.buffer sh.length sh.cursor e.before e.after
  history : HistoryIs S sh₀.history sh.history sh.historyCount sh.historyFlag sh.historyOffset e.history e.back e.slot
  mode : sh.inputMode = e.mode
  tabbed : sh.tabFlag = e.tabbed

/-- The shell and the terminal after a key. -/
structure Leads (S : Setup) (p : List Byte) (sh₀ : Shell) (e : Editor) (r : Shell × List Byte) (e' : Editor) : Prop where
  follows : Follows S sh₀ r.1 e'
  shown : (e.screen p).feed r.2 = e'.screen p

section Keys
variable {S : Setup} {p : List Byte} {sh₀ sh : Shell} {e : Editor} {c : Byte}

theorem Follows.length (h : Follows S sh₀ sh e) : sh.length = e.text.length := by
  rw [h.line.length, Editor.text, List.length_append]

theorem Follows.still (h : Follows S sh₀ sh e) : Leads S p sh₀ e (sh, []) e := ⟨h, rfl⟩

/-- The same text with the cursor elsewhere. -/
theorem LineIs.move {mem buffer : Nat → Byte} {length cursor : Nat} {a b a' b' : List Byte}
    (h : LineIs S mem buffer length cursor a b) (htext : a' ++ b' = a ++ b) :
    LineIs S mem buffer length a'.length a' b' := by
  have hlen : a'.length + b'.length = a.length + b.length := by
    simpa only [List.length_append] using congrArg List.length htext
  refine ⟨rfl, h.length.trans hlen.symm, ?_, ?_, h.last, ?_, h.outside⟩
  · rw [hlen, htext]
    exact h.text
  · rw [hlen]
    exact h.room
  · rw [htext]
    exact h.plain

theorem follows_insert (hS : S.WellFormed p) (h : Follows S sh₀ sh e) (hc : c = 0 ∨ Plain c) :
    Leads S p sh₀ e (shellNormal S c sh) (e.insert S c) := by
  unfold shellNormal Editor.insert
  by_cases hzero : c = 0
  · rw [if_pos hzero, if_pos hzero]
    exact h.still
  · have hplain := hc.resolve_left hzero
    rw [if_neg hzero, if_neg hzero, ← h.length]
    have hglyphs : ∀ d ∈ e.after, Glyph d := fun d hd => (h.line.plain d (List.mem_append_right _ hd)).2
    by_cases hroom : sh.length < S.commandMaxLength - 1
    · rw [if_pos hroom, if_pos hroom]
      obtain ⟨before, after, history, back, slot, mode, tabbed⟩ := e
      by_cases hend : sh.length = sh.cursor
      · have hafter : after = [] := by
          have hlength := h.line.length
          have hcursor := h.line.cursor
          exact List.eq_nil_of_length_eq_zero (by dsimp only at hlength hcursor; omega)
        subst hafter
        rw [if_pos hend]
        refine ⟨⟨h.line.append hplain hroom, h.history, h.mode, h.tabbed⟩, ?_⟩
        have hshow := feed_insert (p := p) (a := before) (b := []) hplain.2 (by simp)
        simpa [Editor.screen] using hshow
      · rw [if_neg hend]
        have hline := h.line.insert hplain hroom
        refine ⟨⟨hline, h.history, h.mode, h.tabbed⟩, ?_⟩
        have hshow := feed_insert (p := p) (a := before) (b := after) hplain.2 hglyphs
        obtain ⟨hbefore, hafter⟩ := hline.parts
        have hlength := h.line.length
        have hcursor := h.line.cursor
        dsimp only at hlength hcursor hafter ⊢
        rw [List.length_append, List.length_singleton, hcursor] at hafter
        rw [Nat.add_sub_cancel, show sh.length + 1 - sh.cursor = after.length + 1 by omega,
          show sh.length + 1 - (sh.cursor + 1) = after.length by omega, slice_succ, Function.update_of_ne (by omega),
          Function.update_self, hcursor, hafter]
        exact hshow
    · rw [if_neg hroom, if_neg hroom]
      have hlength := h.line.length
      have hfits := h.line.room
      have hstring := h.line.string (by rw [← h.line.last]; congr 1; omega)
      have htext : ∀ d ∈ e.text, Glyph d := fun d hd => (h.line.plain d hd).2
      refine ⟨⟨?_, h.history, h.mode, h.tabbed⟩, ?_⟩
      · have hmoved := h.line.move (List.append_nil e.text)
        rwa [← h.length] at hmoved
      · rw [hS.prompt, hstring, feed_append, feed_prompt hS.glyphs]
        have hshow := feed_glyphs htext p []
        rw [List.drop_nil] at hshow
        exact hshow

theorem follows_delete (h : Follows S sh₀ sh e) : Leads S p sh₀ e (shellBackspace sh) e.delete := by
  obtain ⟨before, after, history, back, slot, mode, tabbed⟩ := e
  have hlength := h.line.length
  have hcursor := h.line.cursor
  dsimp only at hlength hcursor
  unfold shellBackspace Editor.delete
  rcases List.eq_nil_or_concat before with rfl | ⟨a, c, rfl⟩
  · rw [List.length_nil] at hcursor hlength
    split
    · exact h.still
    · rw [if_neg (by omega), if_neg (by omega)]
      exact h.still
  · rw [List.concat_eq_append] at h hlength hcursor ⊢
    rw [List.length_append, List.length_singleton] at hlength hcursor
    rw [if_neg (by omega), List.dropLast_concat]
    by_cases hend : sh.cursor = sh.length
    · obtain rfl : after = [] := List.eq_nil_of_length_eq_zero (by omega)
      rw [if_pos hend]
      exact ⟨⟨h.line.deleteLast, h.history, h.mode, h.tabbed⟩, feed_deleteLast⟩
    · rw [if_neg hend, if_pos (by omega)]
      have hline := h.line.delete
      refine ⟨⟨hline, h.history, h.mode, h.tabbed⟩, ?_⟩
      have hshow := feed_delete (p := p) (a := a) (c := c) (b := after)
        fun d hd => (h.line.plain d (List.mem_append_right _ hd)).2
      have hafter := hline.parts.2
      dsimp only
      rw [show sh.length - 1 - (sh.cursor - 1) = after.length by omega, hcursor, Nat.add_sub_cancel]
      rw [hcursor, Nat.add_sub_cancel] at hafter
      rw [hafter]
      exact hshow

theorem follows_left (h : Follows S sh₀ sh e) :
    Leads S p sh₀ e (if 0 < sh.cursor then ({ sh with cursor := sh.cursor - 1 }, [backspace]) else (sh, [])) e.left := by
  obtain ⟨before, after, history, back, slot, mode, tabbed⟩ := e
  have hcursor := h.line.cursor
  dsimp only at hcursor
  unfold Editor.left
  rcases List.eq_nil_or_concat before with rfl | ⟨a, c, rfl⟩
  · rw [List.length_nil] at hcursor
    rw [if_neg (by omega)]
    exact h.still
  · rw [List.concat_eq_append] at h hcursor ⊢
    rw [List.length_append, List.length_singleton] at hcursor
    rw [if_pos (by omega), List.getLast?_concat]
    dsimp only
    rw [List.dropLast_concat]
    have hmoved := h.line.move (show a ++ c :: after = a ++ [c] ++ after by simp)
    rw [show a.length = sh.cursor - 1 by omega] at hmoved
    refine ⟨⟨hmoved, h.history, h.mode, h.tabbed⟩, ?_⟩
    have hback := feed_backs (p ++ a) [c] after
    rw [List.append_assoc] at hback
    exact hback

theorem follows_right (h : Follows S sh₀ sh e) :
    Leads S p sh₀ e
      (if sh.cursor < sh.length then ({ sh with cursor := sh.cursor + 1 }, [sh.buffer sh.cursor]) else (sh, []))
      e.right := by
  obtain ⟨before, after, history, back, slot, mode, tabbed⟩ := e
  have hcursor := h.line.cursor
  have hlength := h.line.length
  dsimp only at hcursor hlength
  unfold Editor.right
  cases after with
  | nil =>
    rw [List.length_nil] at hlength
    rw [if_neg (by omega)]
    exact h.still
  | cons c after =>
    rw [List.length_cons] at hlength
    rw [if_pos (by omega)]
    have hbyte : sh.buffer sh.cursor = c := by
      have hafter := h.line.parts.2
      rw [List.length_cons, slice_succ, List.cons.injEq] at hafter
      rw [hcursor]
      exact hafter.1
    have hmoved := h.line.move (show (before ++ [c]) ++ after = before ++ c :: after by simp)
    rw [List.length_append, List.length_singleton, ← hcursor] at hmoved
    refine ⟨⟨hmoved, h.history, h.mode, h.tabbed⟩, ?_⟩
    have hc : Glyph c := (h.line.plain c (by simp)).2
    have hshow := feed_glyphs (s := [c]) (by simpa using hc) (p ++ before) (c :: after)
    rw [hbyte]
    simpa [Editor.screen] using hshow

/-! ## The history -/

theorem follows_fetch {n : Nat} (h : Follows S sh₀ sh { e with back := n }) :
    Leads S p sh₀ e (showHistory S sh) (e.fetch n) := by
  have hlength := h.line.length
  have hcursor := h.line.cursor
  have hoffset := h.history.offsetEq
  dsimp only at hlength hcursor hoffset
  have hclear := feed_clear p e.before e.after
  have hcleared : shellClearLine sh =
      List.replicate e.after.length blank ++ erase (e.before.length + e.after.length) := by
    unfold shellClearLine
    rw [show sh.length - sh.cursor = e.after.length by omega, hlength]
    rfl
  unfold showHistory Editor.fetch
  by_cases hn : n = 0
  · subst hn
    rw [if_pos (by omega), if_pos rfl]
    refine ⟨⟨h.line.reset, h.history, h.mode, h.tabbed⟩, ?_⟩
    rw [hcleared]
    simpa [Editor.screen] using hclear
  · have hstored := h.history.fetched hn
    dsimp only at hstored
    have hstring : historyLine S sh = e.history.getD (n - 1) [] := hstored.string
    rw [if_neg (by omega), if_neg hn]
    dsimp only
    rw [hstring, if_neg fun hlen => hstored.nonempty (List.eq_nil_of_length_eq_zero hlen)]
    have hline := h.line.copy hstored.plain hstored.room
    refine ⟨⟨hline, h.history, h.mode, h.tabbed⟩, ?_⟩
    have hshow := feed_replace (p := p) (a := e.before) (b := e.after) (Plain.glyphs hstored.plain)
    rw [cstring_copyString (Plain.noNul hstored.plain) hstored.room, hcleared]
    exact hshow

/-- The line at another place of the history. -/
theorem Follows.at (h : Follows S sh₀ sh e) {n : Nat} (hn : n ≤ e.history.length) {offset : Int} (hoffset : offset = -(n : Int)) :
    Follows S sh₀ { sh with historyOffset := offset } { e with back := n } :=
  ⟨h.line, { h.history with offsetEq := hoffset, backLe := hn }, h.mode, h.tabbed⟩

theorem follows_up (h : Follows S sh₀ sh e) : Leads S p sh₀ e (shellHistoryUp S sh) e.up := by
  have hback := h.history.backLe
  have hcount := h.history.countEq
  have hflag := h.history.flagEq
  have hoffset := h.history.offsetEq
  have hslot := h.history.slotLt
  have hmost : (if sh.historyFlag < sh.historyCount then (sh.historyCount : Int) else sh.historyFlag) =
      e.history.length := by
    rcases h.history.full with hfull | hfull <;> split <;> omega
  unfold shellHistoryUp Editor.up
  dsimp only
  rw [hmost]
  refine follows_fetch (h.at ?_ ?_)
  · split <;> omega
  · split <;> split <;> omega

theorem follows_down (h : Follows S sh₀ sh e) : Leads S p sh₀ e (shellHistoryDown S sh) e.down := by
  have hback := h.history.backLe
  have hoffset := h.history.offsetEq
  unfold shellHistoryDown Editor.down
  by_cases hzero : e.back = 0
  · rw [if_pos (by omega), if_pos hzero]
    obtain ⟨before, after, history, back, slot, mode, tabbed⟩ := e
    obtain rfl : back = 0 := hzero
    exact (h.at (n := 0) (Nat.zero_le _) rfl).still
  · rw [if_neg (by omega), if_neg hzero]
    exact follows_fetch (h.at (by omega) (by omega))

end Keys

end WmIot.Cli
