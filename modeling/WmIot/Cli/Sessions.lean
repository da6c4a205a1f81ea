import WmIot.Cli.Completion
import WmIot.Cli.Words

/-!
# Sessions

Whatever is typed, the shell has the line, the history and the mode of the editor, nothing outside its arrays is
written, and the terminal shows the line behind the prompt with the cursor in its place. A line entered runs with its
words as the parameters.
-/

namespace WmIot.Cli
open CString (Byte lit)
open TextBuffer
open Terminal hiding Byte
set_option autoImplicit false

section Enter
variable {S : Setup} {p : List Byte} {sh₀ sh : Shell} {e : Editor} {stale : Bool}

theorem shellHistoryAdd_frame (S : Setup) (stale : Bool) (sh : Shell) :
    (shellHistoryAdd S stale sh).buffer = sh.buffer ∧ (shellHistoryAdd S stale sh).length = sh.length ∧
      (shellHistoryAdd S stale sh).inputMode = sh.inputMode ∧ (shellHistoryAdd S stale sh).tabFlag = sh.tabFlag := by
  unfold shellHistoryAdd
  dsimp only
  generalize (if sh.historyFlag = 0 then stale else _) = same
  cases same with
  | true => exact ⟨rfl, rfl, rfl, rfl⟩
  | false => exact ⟨rfl, rfl, rfl, rfl⟩

/-- The line is added to the ring, unless it is the last one again. -/
theorem HistoryIs.enter {lines : List (List Byte)} {back slot : Nat} {s : List Byte}
    (h : HistoryIs S sh₀.history sh.history sh.historyCount sh.historyFlag sh.historyOffset lines back slot)
    (hstring : cstring sh.buffer 0 S.commandMaxLength = s) (hplain : ∀ c ∈ s, Plain c)
    (hroom : s.length < S.commandMaxLength) (hs : s ≠ []) {same : Bool}
    (hsame : same = if slot = 0 then stale else decide (lines.head? = some s)) :
    HistoryIs S sh₀.history (shellHistoryAdd S stale sh).history (shellHistoryAdd S stale sh).historyCount
      (shellHistoryAdd S stale sh).historyFlag (shellHistoryAdd S stale sh).historyOffset
      (if same then lines else (s :: lines).take S.historyMaxNumber) 0
      (if same then slot else if S.historyMaxNumber ≤ slot + 1 then 0 else slot + 1) := by
  have hcompared : same = if sh.historyFlag = 0 then stale
      else decide (cstring (sh.history (sh.historyFlag - 1)) 0 S.commandMaxLength = s) := by
    rw [hsame, ← h.flagEq]
    split
    · rfl
    · rename_i hflag
      exact decide_eq_decide.mpr (by rw [h.newest hflag, Option.some_inj])
  unfold shellHistoryAdd
  dsimp only
  rw [hstring, ← hcompared]
  cases same with
  | true =>
    rw [if_pos rfl, if_pos rfl, if_pos rfl]
    exact { h with offsetEq := rfl, backLe := Nat.zero_le _ }
  | false =>
    rw [if_neg Bool.false_ne_true, if_neg Bool.false_ne_true, if_neg Bool.false_ne_true]
    have hpushed := h.push hplain hroom hs
    have hlen : s.length ≠ 0 := fun habs => hs (List.eq_nil_of_length_eq_zero habs)
    dsimp only
    rw [if_pos hlen, h.flagEq]
    rw [h.flagEq] at hpushed
    exact hpushed

theorem shellEnter_out (h : Follows S sh₀ sh e) :
    (shellEnter S stale sh).2 = runCommand S ((words e.text).take S.parameterMaxNumber) ++ S.command := by
  unfold shellEnter
  by_cases hzero : sh.length = 0
  · have htext : e.text = [] := by
      rw [h.length] at hzero
      exact List.eq_nil_of_length_eq_zero hzero
    rw [if_pos hzero, htext]
    simp [words, scan, joinWord, runCommand]
  · rw [if_neg hzero]
    dsimp only
    obtain ⟨hbuffer, hlength, -, -⟩ := shellHistoryAdd_frame S stale
      { sh with buffer := Function.update sh.buffer sh.length 0, length := sh.length + 1 }
    rw [hbuffer, hlength]
    dsimp only
    obtain ⟨hline, -⟩ := h.line.terminate
    have htext := hline.text
    have hroom := hline.room
    rw [← List.length_append] at htext hroom
    have hlen : sh.length = (e.before ++ e.after).length := h.length
    rw [hlen] at htext ⊢
    rw [parseLoop_words S.parameterMaxNumber hroom htext (Function.update_self ..) (Plain.noNul hline.plain)]
    rfl

theorem follows_enter (hS : S.WellFormed p) (h : Follows S sh₀ sh e) :
    Leads S p sh₀ e (shellEnter S stale sh) (e.enter S stale) := by
  have hshown : (e.screen p).feed (shellEnter S stale sh).2 = row p [] := by
    rw [shellEnter_out h, hS.prompt, feed_prompt hS.glyphs]
  unfold Editor.enter
  by_cases htext : e.text = []
  · have hzero : sh.length = 0 := by rw [h.length, htext]; rfl
    obtain ⟨hbefore, hafter⟩ := List.append_eq_nil_iff.mp htext
    rw [if_pos htext]
    refine ⟨?_, ?_⟩
    · unfold shellEnter
      rw [if_pos hzero]
      exact h
    · rw [hshown, Editor.screen, hbefore, hafter, List.append_nil]
  · have hlen : sh.length ≠ 0 := by
      rw [h.length]
      exact fun habs => htext (List.eq_nil_of_length_eq_zero habs)
    rw [if_neg htext]
    refine ⟨?_, ?_⟩
    · obtain ⟨hline, hstring⟩ := h.line.terminate
      have hroom := h.line.room
      rw [← List.length_append] at hroom
      obtain ⟨hbuffer, hlength, hmode, htab⟩ := shellHistoryAdd_frame S stale
        { sh with buffer := Function.update sh.buffer sh.length 0, length := sh.length + 1 }
      have hentered := @HistoryIs.enter S sh₀
        { sh with buffer := Function.update sh.buffer sh.length 0, length := sh.length + 1 } stale _ _ _ _ h.history
        hstring h.line.plain hroom htext _ rfl
      unfold shellEnter
      rw [if_neg hlen]
      dsimp only
      refine ⟨?_, hentered, hmode.trans h.mode, htab.trans h.tabbed⟩
      dsimp only
      rw [hbuffer, hlength]
      dsimp only
      have hcells := parseLoop_cells S.parameterMaxNumber (sh.length + 1) (sh.length + 1) 0 true []
        (Function.update sh.buffer sh.length 0)
      refine ⟨rfl, rfl, rfl, Nat.lt_of_le_of_lt (Nat.zero_le _) hroom, ?_, by simp, fun j hj => ?_⟩
      · rcases hcells (S.commandMaxLength - 1) with hcell | ⟨-, hcell⟩
        · rw [hcell]
          exact hline.last
        · exact hcell
      · rcases hcells j with hcell | ⟨hin, -⟩
        · rw [hcell]
          exact hline.outside j hj
        · have hlast := h.length
          have htextLen : e.text.length = (e.before ++ e.after).length := rfl
          omega
    · rw [hshown, Editor.screen, List.append_nil]

end Enter

section Sessions
variable {S : Setup} {p : List Byte} {sh₀ sh : Shell} {e : Editor}

theorem shellAnsi_csi {data : Byte} (h : sh.inputMode = .ansiCsi) :
    shellAnsi S data sh = ({ (shellArrow S data sh).1 with inputMode := .normal }, (shellArrow S data sh).2) := by
  unfold shellAnsi
  split
  · rfl
  · rename_i habs
    rw [h] at habs
    cases habs
  · rename_i habs
    rw [h] at habs
    cases habs

theorem shellAnsi_esc {data : Byte} (h : sh.inputMode = .ansiEsc) :
    shellAnsi S data sh =
      if data = 0x5B#8 then ({ sh with inputMode := .ansiCsi }, []) else ({ sh with inputMode := .normal }, []) := by
  unfold shellAnsi
  split
  · rename_i habs
    rw [h] at habs
    cases habs
  · rfl
  · rename_i habs
    rw [h] at habs
    cases habs

theorem follows_arrow (data : Byte) (h : Follows S sh₀ sh e) :
    Leads S p sh₀ e (shellArrow S data sh) (e.arrow data) := by
  unfold shellArrow Editor.arrow
  by_cases hup : data = 0x41#8
  · rw [if_pos hup, if_pos hup]
    exact follows_up h
  rw [if_neg hup, if_neg hup]
  by_cases hdown : data = 0x42#8
  · rw [if_pos hdown, if_pos hdown]
    exact follows_down h
  rw [if_neg hdown, if_neg hdown]
  by_cases hright : data = 0x43#8
  · rw [if_pos hright, if_pos hright]
    exact follows_right h
  rw [if_neg hright, if_neg hright]
  by_cases hleft : data = 0x44#8
  · rw [if_pos hleft, if_pos hleft]
    exact follows_left h
  rw [if_neg hleft, if_neg hleft]
  exact h.still

theorem follows_key (hS : S.WellFormed p) (i : Input) (h : Follows S sh₀ sh e) :
    Leads S p sh₀ e (shellKey S i sh) (e.key S i) := by
  unfold shellKey Editor.key
  by_cases henter : i.data = 0x0A#8 ∨ i.data = 0x0D#8
  · rw [if_pos henter, if_pos henter]
    exact follows_enter hS h
  rw [if_neg henter, if_neg henter]
  by_cases htab : i.data = 0x09#8
  · rw [if_pos htab, if_pos htab]
    exact follows_tab hS i.quick h
  rw [if_neg htab, if_neg htab]
  by_cases hdelete : i.data = 0x08#8 ∨ i.data = 0x7F#8
  · rw [if_pos hdelete, if_pos hdelete]
    exact follows_delete h
  rw [if_neg hdelete, if_neg hdelete]
  by_cases hesc : i.data = 0x1B#8
  · rw [if_pos hesc, if_pos hesc]
    exact ⟨⟨h.line, h.history, rfl, h.tabbed⟩, rfl⟩
  rw [if_neg hesc, if_neg hesc]
  by_cases hctrl : 0x01#8 ≤ i.data ∧ i.data ≤ 0x1A#8
  · rw [if_pos hctrl, if_pos hctrl]
    exact h.still
  rw [if_neg hctrl, if_neg hctrl]
  refine follows_insert hS h ?_
  by_cases hzero : i.data = 0
  · exact Or.inl hzero
  · refine Or.inr ⟨hzero, ?_, ?_, ?_⟩
    · exact fun habs => hdelete (Or.inl habs)
    · exact fun habs => henter (Or.inr habs)
    · exact fun habs => henter (Or.inl habs)

/-- One byte, in any mode. -/
theorem follows_handle (hS : S.WellFormed p) (i : Input) (h : Follows S sh₀ sh e) :
    Leads S p sh₀ e (shellHandler S i sh) (e.handle S i) := by
  have hmode := h.mode
  unfold shellHandler Editor.handle
  cases hcase : e.mode with
  | normal =>
    rw [hcase] at hmode
    rw [if_pos hmode]
    obtain ⟨hfollows, hshown⟩ := follows_key (p := p) hS i h
    exact ⟨⟨hfollows.line, hfollows.history, hfollows.mode, rfl⟩, hshown⟩
  | ansiEsc =>
    rw [hcase] at hmode
    rw [if_neg (by rw [hmode]; decide), shellAnsi_esc hmode]
    dsimp only
    split
    · exact ⟨⟨h.line, h.history, rfl, rfl⟩, rfl⟩
    · exact ⟨⟨h.line, h.history, rfl, rfl⟩, rfl⟩
  | ansiCsi =>
    rw [hcase] at hmode
    rw [if_neg (by rw [hmode]; decide), shellAnsi_csi hmode]
    obtain ⟨hfollows, hshown⟩ := follows_arrow (p := p) i.data h
    exact ⟨⟨hfollows.line, hfollows.history, rfl, rfl⟩, hshown⟩

theorem follows_init (hS : S.WellFormed p) (hroom : 0 < S.commandMaxLength)
    (hclear : sh₀.buffer (S.commandMaxLength - 1) = 0) : Follows S sh₀ (shellInit S sh₀).1 Editor.start :=
  ⟨⟨rfl, rfl, rfl, hroom, hclear, by simp [Editor.start], fun _ _ => rfl⟩,
    ⟨rfl, rfl, rfl, Nat.zero_le _, Nat.zero_le _, hS.history, Or.inr rfl, fun k hk => absurd hk (Nat.not_lt_zero k),
      fun _ _ _ => rfl⟩, rfl, rfl⟩

theorem follows_run (hS : S.WellFormed p) (is : List Input) {out : List Byte} (h : Follows S sh₀ sh e) (t : Screen)
    (ht : t.feed out = e.screen p) :
    Follows S sh₀ (shellRun S is (sh, out)).1 (e.run S is) ∧
      t.feed (shellRun S is (sh, out)).2 = (e.run S is).screen p := by
  induction is generalizing sh out e with
  | nil => exact ⟨h, ht⟩
  | cons i is ih =>
    obtain ⟨hfollows, hshown⟩ := follows_handle hS i h
    refine ih hfollows ?_
    rw [feed_append, ht, hshown]

/-- A session from the start, on any terminal. -/
theorem follows_session (hS : S.WellFormed p) (hroom : 0 < S.commandMaxLength)
    (hclear : sh₀.buffer (S.commandMaxLength - 1) = 0) (is : List Input) (t : Screen) :
    Follows S sh₀ (shellRun S is (shellInit S sh₀)).1 (Editor.start.run S is) ∧
      t.feed (shellRun S is (shellInit S sh₀)).2 = (Editor.start.run S is).screen p := by
  have hprompt : t.feed (shellInit S sh₀).2 = Editor.start.screen p := by
    have hrow := feed_prompt hS.glyphs t []
    rw [List.nil_append, ← hS.prompt] at hrow
    refine hrow.trans ?_
    rw [Editor.screen, Editor.start, List.append_nil]
  exact follows_run hS is (follows_init hS hroom hclear) t hprompt

/-! ## Completion -/

theorem foldl_commonPrefix {α : Type} [DecidableEq α] (n : List α) (ns : List (List α)) :
    (∀ s ∈ n :: ns, ns.foldl commonPrefix n <+: s) ∧ ∀ u, (∀ s ∈ n :: ns, u <+: s) → u <+: ns.foldl commonPrefix n := by
  induction ns generalizing n with
  | nil => simp
  | cons t ns ih =>
    obtain ⟨hlower, hgreatest⟩ := ih (commonPrefix n t)
    have hboth := hlower _ List.mem_cons_self
    rw [List.foldl_cons]
    refine ⟨fun s hs => ?_, fun u hu => hgreatest u fun s hs => ?_⟩
    · rcases List.mem_cons.mp hs with rfl | hs
      · exact hboth.trans (commonPrefix_left s t)
      · rcases List.mem_cons.mp hs with rfl | hs
        · exact hboth.trans (commonPrefix_right n s)
        · exact hlower s (List.mem_cons_of_mem _ hs)
    · rcases List.mem_cons.mp hs with rfl | hs
      · exact prefix_commonPrefix (hu n List.mem_cons_self) (hu t (by simp))
      · exact hu s (List.mem_cons_of_mem _ (List.mem_cons_of_mem _ hs))

/-- The line is the greatest common prefix of the commands that it was a prefix of. -/
theorem tab_text {quick : Bool} (htext : e.text ≠ []) (hcandidates : e.candidates S ≠ [])
    (hsingle : e.tabbed = false ∨ quick = false ∨ 1 < (e.candidates S).length) :
    (e.tab S quick).after = [] ∧ (∀ n ∈ e.candidates S, (e.tab S quick).before <+: n) ∧
      ∀ u, (∀ n ∈ e.candidates S, u <+: n) → u <+: (e.tab S quick).before := by
  unfold Editor.tab
  rw [if_neg htext]
  cases hc : e.candidates S with
  | nil => exact absurd hc hcandidates
  | cons n ns =>
    cases ns with
    | nil =>
      rw [hc] at hsingle
      have hplain : ¬ (e.tabbed && quick) = true := by
        rcases hsingle with hfalse | hfalse | hmore
        · simp [hfalse]
        · simp [hfalse]
        · exact absurd hmore (by simp)
      dsimp only
      rw [if_neg hplain]
      exact ⟨rfl, by simp, by simp⟩
    | cons n' ns => exact ⟨rfl, foldl_commonPrefix n (n' :: ns)⟩

end Sessions

/-! ## The shell of a board -/

/-- The default configuration, with two commands. -/
def board : Setup where
  commandMaxLength := 65
  parameterMaxNumber := 9
  historyMaxNumber := 5
  command := lit "\r\nw800: "
  commands := [⟨lit "reboot", fun _ => [], lit "reboot system", none⟩,
    ⟨lit "version", fun _ => lit "v2", lit "show sdk version info", some (lit "version-- sdk version info")⟩]

/-- The shell that `wm_cli_init` has cleared. -/
def cleared : Shell := ⟨fun _ => 0, 0, 0, fun _ _ => 0, 0, 0, 0, .normal, false⟩

def typed (s : List Byte) : List Input := s.map fun b => ⟨b, false, false⟩

theorem wellFormed_board : board.WellFormed (lit "w800: ") := by
  refine ⟨by decide, by decide, by decide, fun c hc => ?_⟩
  rcases List.mem_cons.mp hc with rfl | hc
  · exact ⟨by decide, by decide⟩
  · rw [List.mem_singleton.mp hc]
    exact ⟨by decide, by decide⟩

end WmIot.Cli
