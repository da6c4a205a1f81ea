import WmIot.Cli.Edits

/-!
# Completion

The tab key looks for the commands that the line is a prefix of. One of them replaces the line, and a second tab puts
`help` before it; of several the line becomes the common prefix, so that nothing typed is lost.
-/

namespace WmIot.Cli
open CString (Byte lit)
open TextBuffer
open Terminal hiding Byte
set_option autoImplicit false

theorem shellStringCompare_eq (s t : List Byte) : shellStringCompare s t = (commonPrefix s t).length := by
  induction s generalizing t with
  | nil => rfl
  | cons a s ih =>
    cases t with
    | nil => rfl
    | cons b t =>
      rw [shellStringCompare, commonPrefix]
      split
      · rw [ih, List.length_cons]
      · rfl

theorem shellStringCompare_eq_length {s t : List Byte} : shellStringCompare s t = s.length ↔ s <+: t := by
  rw [shellStringCompare_eq]
  constructor
  · intro hlen
    have hsame := (commonPrefix_left s t).eq_of_length hlen
    rw [← hsame]
    exact commonPrefix_right s t
  · intro hpre
    have hle := (prefix_commonPrefix (List.prefix_refl s) hpre).length_le
    exact Nat.le_antisymm (commonPrefix_left s t).length_le hle

/-- The loop has met the name `n` and then the names `ns`. -/
structure Found (size : Nat) (m : Matches) (n : List Byte) (ns : List (List Byte)) : Prop where
  matchNum : m.matchNum = ns.length + 1
  last : ∃ c, m.last = some c ∧ c.name ∈ n :: ns ∧ ns.foldl commonPrefix n = c.name.take m.maxMatch ∧
    (ns ≠ [] → m.maxMatch ≤ c.name.length)
  alone : ns = [] → m.out = []

section Loop
variable {size : Nat} {m : Matches} {n line : List Byte} {ns : List (List Byte)} {c : Command}

theorem Found.next (h : Found size m n ns) (line : List Byte) (c : Command) (hc : line <+: c.name) :
    ∃ m', Found size m' n (ns ++ [c.name]) ∧
      ∀ commands, tabLoop line (c :: commands) m = tabLoop line commands m' := by
  obtain ⟨last, hlast, -, hcommon, -⟩ := h.last
  refine ⟨⟨m.matchNum + 1, some c, min m.maxMatch (shellStringCompare last.name c.name),
    m.out ++ (if m.matchNum = 1 then crlf else []) ++ shellDisplayItem last⟩, ?_, fun commands => ?_⟩
  · refine ⟨?_, ⟨c, rfl, by simp, ?_, fun _ => ?_⟩, fun habs => absurd habs (by simp)⟩
    · rw [h.matchNum, List.length_append, List.length_singleton]
    · rw [List.foldl_append, List.foldl_cons, List.foldl_nil, hcommon, commonPrefix_take, shellStringCompare_eq]
    · rw [shellStringCompare_eq]
      exact Nat.le_trans (Nat.min_le_right _ _) (commonPrefix_right last.name c.name).length_le
  · rw [tabLoop, if_pos (shellStringCompare_eq_length.mpr hc), hlast]

theorem tabLoop_skip (commands : List Command) (hc : ¬ line <+: c.name) :
    tabLoop line (c :: commands) m = tabLoop line commands m := by
  rw [tabLoop, if_neg fun habs => hc (shellStringCompare_eq_length.mp habs)]

theorem tabLoop_found (line : List Byte) (commands : List Command) {m : Matches} {n : List Byte} {ns : List (List Byte)}
    (h : Found size m n ns) :
    Found size (tabLoop line commands m) n (ns ++ (commands.map Command.name).filter fun n => decide (line <+: n)) := by
  induction commands generalizing m ns with
  | nil => simpa [tabLoop] using h
  | cons c commands ih =>
    rw [List.map_cons, List.filter_cons]
    by_cases hc : line <+: c.name
    · obtain ⟨m', hm', hloop⟩ := h.next line c hc
      rw [if_pos (by simpa using hc), hloop]
      simpa using ih hm'
    · rw [if_neg (by simpa using hc), tabLoop_skip commands hc]
      exact ih h

/-- The loop from the start. -/
theorem tabLoop_spec (line : List Byte) (commands : List Command) (hsize : ∀ c ∈ commands, c.name.length ≤ size) :
    match (commands.map Command.name).filter fun n => decide (line <+: n) with
    | [] => (tabLoop line commands ⟨0, none, size, []⟩).last = none
    | n :: ns => Found size (tabLoop line commands ⟨0, none, size, []⟩) n ns := by
  induction commands with
  | nil => rfl
  | cons c commands ih =>
    rw [List.map_cons, List.filter_cons]
    by_cases hc : line <+: c.name
    · rw [if_pos (by simpa using hc)]
      have hfirst : Found size ⟨1, some c, size, []⟩ c.name [] := by
        refine ⟨rfl, ⟨c, rfl, List.mem_cons_self, ?_, fun habs => absurd rfl habs⟩, fun _ => rfl⟩
        rw [List.take_of_length_le (hsize c List.mem_cons_self)]
        rfl
      have hrest := tabLoop_found line commands hfirst
      rw [tabLoop, if_pos (shellStringCompare_eq_length.mpr hc)]
      simpa using hrest
    · rw [if_neg (by simpa using hc), tabLoop_skip commands hc]
      exact ih fun d hd => hsize d (List.mem_cons_of_mem c hd)

end Loop

section Tab
variable {S : Setup} {p : List Byte} {sh₀ sh : Shell} {e : Editor}

/-- A line cut off behind its first `k` bytes. -/
theorem LineIs.truncate {mem buffer : Nat → Byte} {length cursor k : Nat} {s : List Byte}
    (h : LineIs S mem buffer length cursor s []) (hk : k ≤ s.length) :
    LineIs S mem (Function.update buffer k 0) k k (s.take k) [] ∧
      cstring (Function.update buffer k 0) 0 S.commandMaxLength = s.take k := by
  have hroom := h.room
  have hlen : (s.take k).length = k := List.length_take_of_le hk
  have htext := slice_take h.parts.1 hk
  have hcut : LineIs S mem buffer k k (s.take k) [] := by
    refine ⟨hlen.symm, by simpa using hlen.symm, ?_, ?_, h.last, fun c hc => h.plain c ?_, h.outside⟩
    · rw [hlen, List.length_nil, Nat.add_zero, htext, List.append_nil]
    · rw [hlen]
      rw [List.length_nil] at hroom ⊢
      omega
    · rw [List.append_nil] at hc ⊢
      exact List.mem_of_mem_take hc
  have hterminated := hcut.terminate
  rwa [List.append_nil] at hterminated

theorem lit_help : lit "help " = lit "help" ++ [space] := by decide

/-- `help` is put before the line. -/
theorem LineIs.help {mem buffer : Nat → Byte} {length cursor : Nat} {s : List Byte}
    (h : LineIs S mem buffer length cursor s []) (hend : buffer length = 0) (hroom : s.length + 5 < S.commandMaxLength) :
    LineIs S mem (Function.update (copyString (moveUp buffer 0 5 (length + 1)) 0 (lit "help")) 4 space) (length + 5)
        (length + 5) (lit "help " ++ s) [] ∧
      cstring (Function.update (copyString (moveUp buffer 0 5 (length + 1)) 0 (lit "help")) 4 space) 0
        S.commandMaxLength = lit "help " ++ s := by
  have hhelp : (lit "help").length = 4 := by decide
  have hlong : (lit "help ").length = 5 := by decide
  have hhelpPlain : ∀ c ∈ lit "help ", Plain c := by decide
  obtain rfl : length = s.length := h.length
  have hmoved := slice_moveUp buffer 0 5 (s.length + 1)
  rw [slice_add, slice_add, h.parts.1] at hmoved
  obtain ⟨htext, hlast⟩ := List.append_inj hmoved (by simp)
  have hnul : moveUp buffer 0 5 (s.length + 1) (0 + 5 + s.length) = 0 := by
    rw [slice_succ, slice_zero, slice_succ, slice_zero, List.singleton_inj] at hlast
    rw [hlast, Nat.zero_add, hend]
  have hbehind : ∀ j, 5 ≤ j → Function.update (copyString (moveUp buffer 0 5 (s.length + 1)) 0 (lit "help")) 4 space j =
      moveUp buffer 0 5 (s.length + 1) j := by
    intro j hj
    rw [Function.update_of_ne (by omega), copyString_out (by rw [hhelp]; omega)]
  have hline : LineIs S mem (Function.update (copyString (moveUp buffer 0 5 (s.length + 1)) 0 (lit "help")) 4 space)
      (s.length + 5) (s.length + 5) (lit "help " ++ s) [] := by
    refine ⟨by rw [List.length_append, hlong, Nat.add_comm], by rw [List.length_append, hlong, List.length_nil]; omega, ?_,
      by rw [List.length_append, hlong, List.length_nil]; omega, ?_, ?_, fun j hj => ?_⟩
    · rw [List.append_nil, List.length_append, List.length_nil, Nat.add_zero]
      refine slice_append ?_ ?_
      · have hstart := (slice_copyString (moveUp buffer 0 5 (s.length + 1)) 0 (lit "help")).1
        rw [hhelp] at hstart
        rw [hlong, slice_add _ 0 4 1, slice_update_out _ (by omega), hstart, slice_succ, slice_zero, Nat.zero_add,
          Function.update_self, lit_help]
      · rw [hlong, slice_congr fun j hj _ => hbehind j (by omega)]
        exact htext
    · by_cases hj : S.commandMaxLength - 1 = 0 + 5 + s.length
      · rw [hj, hbehind _ (by omega), hnul]
      · rw [hbehind _ (by omega), moveUp_out (by omega)]
        exact h.last
    · rw [List.append_nil]
      intro c hc
      rcases List.mem_append.mp hc with hc | hc
      · exact hhelpPlain c hc
      · exact h.plain c (List.mem_append_left _ hc)
    · rw [hbehind j (by omega), moveUp_out (by omega)]
      exact h.outside j hj
  refine ⟨hline, ?_⟩
  have hstring := hline.string ?_
  · rwa [List.append_nil] at hstring
  · have hplace : (lit "help " ++ s).length + ([] : List Byte).length = 0 + 5 + s.length := by
      rw [List.length_append, hlong, List.length_nil]
      omega
    rw [hplace, hbehind _ (by omega), hnul]

theorem shellClearLine_eq (h : Follows S sh₀ sh e) :
    shellClearLine sh = List.replicate e.after.length blank ++ erase (e.before.length + e.after.length) := by
  have hlength := h.line.length
  have hcursor := h.line.cursor
  unfold shellClearLine
  rw [show sh.length - sh.cursor = e.after.length by omega, hlength]
  rfl

theorem follows_help {n : List Byte} (h : Follows S sh₀ sh { e with before := n, after := [] })
    (hend : sh.buffer sh.length = 0) (hroom : n.length + 5 < S.commandMaxLength) :
    Leads S p sh₀ { e with before := n, after := [] } (longHelp S sh)
      { e with before := lit "help " ++ n, after := [] } := by
  obtain ⟨hline, hstring⟩ := h.line.help hend hroom
  refine ⟨⟨hline, h.history, h.mode, h.tabbed⟩, ?_⟩
  have hglyphs : ∀ d ∈ lit "help " ++ n, Glyph d := fun d hd => (hline.plain d (List.mem_append_left _ hd)).2
  have hshow := feed_replace (p := p) (a := n) (b := []) hglyphs
  unfold longHelp
  dsimp only
  rw [hstring, shellClearLine_eq h]
  exact hshow

/-- What the tab key writes brings the terminal to its line. -/
theorem follows_tab (hS : S.WellFormed p) (quick : Bool) (h : Follows S sh₀ sh e) :
    Leads S p sh₀ e (shellTab S quick sh) (e.tab S quick) := by
  unfold shellTab Editor.tab
  by_cases htext : e.text = []
  · have hzero : sh.length = 0 := by rw [h.length, htext]; rfl
    rw [if_pos hzero, if_pos htext]
    obtain ⟨hbefore, hafter⟩ := List.append_eq_nil_iff.mp htext
    refine ⟨h, ?_⟩
    rw [hS.prompt, feed_prompt hS.glyphs, Editor.screen, hbefore, hafter, List.append_nil]
  · have hlen : sh.length ≠ 0 := by
      rw [h.length]
      exact fun habs => htext (List.eq_nil_of_length_eq_zero habs)
    obtain ⟨hline, hstring⟩ := h.line.terminate
    have hsizes : ∀ c ∈ S.commands, c.name.length ≤ S.commandMaxLength := fun c hc => by
      have := (hS.names c hc).2
      omega
    have hspec := tabLoop_spec e.text S.commands hsizes
    rw [if_neg hlen, if_neg htext]
    dsimp only
    rw [hstring, show e.before ++ e.after = e.text from rfl]
    have hcandidates : e.candidates S = (S.commands.map Command.name).filter fun n => decide (e.text <+: n) := rfl
    rw [← hcandidates] at hspec
    generalize hloop : tabLoop e.text S.commands ⟨0, none, S.commandMaxLength, []⟩ = found at hspec ⊢
    have hmem : ∀ n ∈ e.candidates S, (∀ b ∈ n, Plain b) ∧ n.length + 5 < S.commandMaxLength := by
      intro n hn
      rw [hcandidates, List.mem_filter, List.mem_map] at hn
      obtain ⟨⟨c, hc, rfl⟩, -⟩ := hn
      exact hS.names c hc
    have hkept : Follows S sh₀ { sh with buffer := Function.update sh.buffer sh.length 0 } e :=
      ⟨hline, h.history, h.mode, h.tabbed⟩
    cases hc : e.candidates S with
    | nil =>
      rw [hc] at hspec
      dsimp only at hspec
      rw [hspec]
      exact hkept.still
    | cons n ns =>
      rw [hc] at hspec hmem
      dsimp only at hspec
      obtain ⟨last, hlast, hin, hcommon, hmost⟩ := hspec.last
      rw [hlast, hspec.matchNum]
      dsimp only
      obtain ⟨hplain, hroom⟩ := hmem _ hin
      have hcopied := hline.copy hplain (by omega)
      cases ns with
      | nil =>
        obtain rfl : last.name = n := List.mem_singleton.mp hin
        obtain ⟨hcut, hshown⟩ := hcopied.truncate (Nat.le_refl _)
        rw [List.take_length] at hcut hshown
        rw [List.length_nil, Nat.zero_add, if_pos rfl, if_neg (Nat.lt_irrefl 1), if_neg (Nat.lt_irrefl 1),
          hspec.alone rfl, hshown, shellClearLine_eq hkept]
        have hfollows : Follows S sh₀
            { sh with
              buffer := Function.update (copyString (Function.update sh.buffer sh.length 0) 0 last.name)
                last.name.length 0
              length := last.name.length
              cursor := last.name.length } { e with before := last.name, after := [] } :=
          ⟨hcut, h.history, h.mode, h.tabbed⟩
        have hshow := feed_replace (p := p) (a := e.before) (b := e.after) (Plain.glyphs hplain)
        rw [List.nil_append, List.append_nil]
        dsimp only
        have htabbed := h.tabbed
        by_cases hhelp : e.tabbed = true ∧ quick = true
        · rw [if_pos ⟨rfl, htabbed.trans hhelp.1, hhelp.2⟩, if_pos (by simpa using hhelp)]
          have hhelped := follows_help (p := p) hfollows (Function.update_self ..) hroom
          refine ⟨hhelped.follows, ?_⟩
          dsimp only
          rw [feed_append]
          refine (congrArg (fun t => Screen.feed t _) hshow).trans hhelped.shown
        · have hnot : ¬ (e.tabbed && quick) = true := by simpa using hhelp
          rw [if_neg fun habs => hhelp ⟨htabbed.symm.trans habs.2.1, habs.2.2⟩, if_neg hnot]
          exact ⟨hfollows, hshow⟩
      | cons n' ns =>
        have hle := hmost (by simp)
        obtain ⟨hcut, hshown⟩ := hcopied.truncate hle
        rw [← hcommon] at hcut hshown
        have hone : ¬ ns.length + 1 + 1 = 1 := by omega
        have hmore : 1 < ns.length + 1 + 1 := by omega
        simp only [List.length_cons, hone, hmore, if_true, if_false, false_and, hshown]
        refine ⟨⟨hcut, h.history, h.mode, h.tabbed⟩, ?_⟩
        have hglyphs : ∀ d ∈ (n' :: ns).foldl commonPrefix n, Glyph d := by
          intro d hd
          rw [hcommon] at hd
          exact (hplain d (List.mem_of_mem_take hd)).2
        dsimp only
        rw [hS.prompt, List.append_nil, ← List.append_assoc, feed_append, feed_prompt hS.glyphs, feed_glyphs hglyphs,
          List.drop_nil]
        rfl

end Tab

end WmIot.Cli
