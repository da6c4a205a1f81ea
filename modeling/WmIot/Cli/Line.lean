import WmIot.Cli.Shell
import WmIot.Lib.Terminal

/-!
# The line being edited

The buffer holds the text before the cursor and the text behind it. Each key that edits the line changes the two
as an editor would, and what it writes makes the same change on the terminal.
-/

namespace WmIot.Cli
open CString (Byte lit)
open TextBuffer
open Terminal hiding Byte
set_option autoImplicit false

/-- A byte that a line may have. -/
def Plain (b : Byte) : Prop := b ≠ 0 ∧ Glyph b

instance (b : Byte) : Decidable (Plain b) := inferInstanceAs (Decidable (_ ∧ _))

/-- The buffer holds `a` before the cursor and `b` behind it, and its last byte is a NUL. What lies behind the array
is as it was. -/
structure LineIs (S : Setup) (mem buffer : Nat → Byte) (length cursor : Nat) (a b : List Byte) : Prop where
  cursor : cursor = a.length
  length : length = a.length + b.length
  text : slice buffer 0 (a.length + b.length) = a ++ b
  room : a.length + b.length < S.commandMaxLength
  last : buffer (S.commandMaxLength - 1) = 0
  plain : ∀ c ∈ a ++ b, Plain c
  outside : ∀ j, S.commandMaxLength ≤ j → buffer j = mem j

section Lines
variable {S : Setup} {mem buffer : Nat → Byte} {length cursor : Nat} {a b s : List Byte} {c : Byte}

theorem Plain.glyphs (h : ∀ c ∈ s, Plain c) : ∀ c ∈ s, Glyph c := fun c hc => (h c hc).2

theorem Plain.noNul (h : ∀ c ∈ s, Plain c) : 0 ∉ s := fun hmem => (h 0 hmem).1 rfl

theorem LineIs.parts (h : LineIs S mem buffer length cursor a b) :
    slice buffer 0 a.length = a ∧ slice buffer a.length b.length = b := by
  have hparts := slice_parts h.text
  rwa [Nat.zero_add] at hparts

/-- The bytes of the buffer as a string, once there is a NUL behind the text. -/
theorem LineIs.string (h : LineIs S mem buffer length cursor a b) (hend : buffer (a.length + b.length) = 0) :
    cstring buffer 0 S.commandMaxLength = a ++ b := by
  refine cstring_eq ?_ (Plain.noNul h.plain) ?_ ?_
  · rw [List.length_append]
    exact h.text
  · rw [List.length_append, Nat.zero_add]
    exact hend
  · rw [List.length_append]
    exact h.room

/-- A NUL behind the text. -/
theorem LineIs.terminate (h : LineIs S mem buffer length cursor a b) :
    LineIs S mem (Function.update buffer length 0) length cursor a b ∧
      cstring (Function.update buffer length 0) 0 S.commandMaxLength = a ++ b := by
  have hroom := h.room
  have hlength := h.length
  have hline : LineIs S mem (Function.update buffer length 0) length cursor a b := by
    refine ⟨h.cursor, h.length, ?_, h.room, ?_, h.plain, fun j hj => ?_⟩
    · rw [slice_update_out _ (by omega)]
      exact h.text
    · by_cases hlast : S.commandMaxLength - 1 = length
      · rw [hlast, Function.update_self]
      · rw [Function.update_of_ne hlast]
        exact h.last
    · rw [Function.update_of_ne (by omega)]
      exact h.outside j hj
  refine ⟨hline, hline.string ?_⟩
  rw [← h.length, Function.update_self]

/-- A string copied to the start of the buffer. -/
theorem LineIs.copy (h : LineIs S mem buffer length cursor a b) (hs : ∀ c ∈ s, Plain c)
    (hroom : s.length < S.commandMaxLength) :
    LineIs S mem (copyString buffer 0 s) s.length s.length s [] := by
  obtain ⟨htext, hend⟩ := slice_copyString buffer 0 s
  rw [Nat.zero_add] at hend
  refine ⟨rfl, rfl, ?_, hroom, ?_, by simpa using hs, fun j hj => ?_⟩
  · rw [List.append_nil]
    exact htext
  · by_cases hlast : S.commandMaxLength - 1 = s.length
    · rw [hlast, hend]
    · rw [copyString_out (by omega)]
      exact h.last
  · rw [copyString_out (by omega)]
    exact h.outside j hj

/-- The line is given up. -/
theorem LineIs.reset (h : LineIs S mem buffer length cursor a b) : LineIs S mem buffer 0 0 [] [] :=
  ⟨rfl, rfl, rfl, Nat.lt_of_le_of_lt (Nat.zero_le _) h.room, h.last, by simp, h.outside⟩

/-! ## Insertion -/

theorem LineIs.append (h : LineIs S mem buffer length cursor a []) (hc : Plain c)
    (hroom : length < S.commandMaxLength - 1) :
    LineIs S mem (Function.update buffer length c) (length + 1) (cursor + 1) (a ++ [c]) [] := by
  have hlength : length = a.length := h.length
  refine ⟨?_, ?_, ?_, ?_, ?_, ?_, fun j hj => ?_⟩
  · rw [h.cursor, List.length_append, List.length_singleton]
  · rw [hlength, List.length_append, List.length_singleton, List.length_nil, Nat.add_zero]
  · rw [List.append_nil, List.length_append, List.length_singleton, List.length_nil, Nat.add_zero, slice_add,
      slice_update_out _ (by omega), h.parts.1, Nat.zero_add, ← hlength]
    simp [slice]
  · simp only [List.length_append, List.length_singleton, List.length_nil]
    omega
  · rw [Function.update_of_ne (by omega)]
    exact h.last
  · rw [List.append_nil]
    intro d hd
    rcases List.mem_append.mp hd with hd | hd
    · exact h.plain d (List.mem_append_left _ hd)
    · rw [List.mem_singleton.mp hd]
      exact hc
  · rw [Function.update_of_ne (by omega)]
    exact h.outside j hj

/-- The text behind the cursor moves up one place. -/
theorem LineIs.insert (h : LineIs S mem buffer length cursor a b) (hc : Plain c)
    (hroom : length < S.commandMaxLength - 1) :
    LineIs S mem (Function.update (Function.update (moveUp buffer cursor 1 (length - cursor)) cursor c) (length + 1) 0)
      (length + 1) (cursor + 1) (a ++ [c]) b := by
  obtain ⟨ha, hb⟩ := h.parts
  obtain ⟨rfl, rfl, -, -, hlast, hplain, houtside⟩ := h
  rw [Nat.add_sub_cancel_left]
  have hbelow : ∀ j, j < a.length → Function.update (Function.update (moveUp buffer a.length 1 b.length) a.length c)
      (a.length + b.length + 1) 0 j = buffer j := by
    intro j hj
    rw [Function.update_of_ne (by omega), Function.update_of_ne (by omega), moveUp_out (by omega)]
  have habove : ∀ j, a.length + b.length + 1 < j →
      Function.update (Function.update (moveUp buffer a.length 1 b.length) a.length c) (a.length + b.length + 1) 0 j =
        buffer j := by
    intro j hj
    rw [Function.update_of_ne (by omega), Function.update_of_ne (by omega), moveUp_out (by omega)]
  refine ⟨by simp, by simp; omega, ?_, ?_, ?_, ?_, fun j hj => ?_⟩
  · refine slice_append ?_ ?_
    · rw [List.length_append, List.length_singleton, slice_add,
        slice_congr fun j _ hj => hbelow j (by omega), ha, Nat.zero_add, slice_succ, slice_zero,
        Function.update_of_ne (by omega), Function.update_self]
    · rw [List.length_append, List.length_singleton, Nat.zero_add, slice_update_out _ (by omega),
        slice_update_out _ (by omega), slice_moveUp, hb]
  · simp only [List.length_append, List.length_singleton]
    omega
  · by_cases hend : S.commandMaxLength - 1 = a.length + b.length + 1
    · rw [hend, Function.update_self]
    · rw [habove _ (by omega)]
      exact hlast
  · intro d hd
    simp only [List.append_assoc, List.mem_append, List.mem_singleton] at hd
    rcases hd with hd | rfl | hd
    · exact hplain d (List.mem_append_left _ hd)
    · exact hc
    · exact hplain d (List.mem_append_right _ hd)
  · rw [habove _ (by omega)]
    exact houtside j hj

/-! ## Deletion -/

theorem LineIs.deleteLast (h : LineIs S mem buffer length cursor (a ++ [c]) []) :
    LineIs S mem (Function.update buffer (length - 1) 0) (length - 1) (cursor - 1) a [] := by
  have hlength := h.length
  have hcursor := h.cursor
  have hroom := h.room
  simp only [List.length_append, List.length_singleton, List.length_nil] at hlength hcursor hroom
  have hkept : LineIs S mem buffer (length - 1) (cursor - 1) a [] := by
    refine ⟨by omega, by simp; omega, ?_, by simp; omega, h.last, fun d hd => h.plain d ?_, h.outside⟩
    · rw [List.length_nil, Nat.add_zero, List.append_nil]
      have htext := h.parts.1
      rw [slice_take htext (by simp), List.take_left' rfl]
    · rw [List.append_nil] at hd ⊢
      exact List.mem_append_left _ hd
  exact hkept.terminate.1

/-- The text behind the cursor moves down one place. -/
theorem LineIs.delete (h : LineIs S mem buffer length cursor (a ++ [c]) b) :
    LineIs S mem (Function.update (moveDown buffer (cursor - 1) 1 (length - cursor)) (length - 1) 0) (length - 1)
      (cursor - 1) a b := by
  have hlength := h.length
  have hcursor := h.cursor
  have hroom := h.room
  obtain ⟨ha, hb⟩ := h.parts
  simp only [List.length_append, List.length_singleton] at hlength hcursor hroom hb
  obtain rfl : cursor = a.length + 1 := hcursor
  obtain rfl : length = a.length + 1 + b.length := hlength
  rw [Nat.add_sub_cancel, Nat.add_sub_cancel_left]
  have hkept : LineIs S mem (moveDown buffer a.length 1 b.length) (a.length + 1 + b.length - 1) a.length a b := by
    refine ⟨rfl, by omega, ?_, by omega, ?_, fun d hd => h.plain d ?_, fun j hj => ?_⟩
    · refine slice_append ?_ ?_
      · rw [slice_congr fun j _ hj => moveDown_out (by omega), slice_take ha (by simp), List.take_left' rfl]
      · rw [Nat.zero_add, slice_moveDown, hb]
    · rw [moveDown_out (by omega)]
      exact h.last
    · simp only [List.append_assoc, List.mem_append, List.mem_singleton] at hd ⊢
      exact hd.imp_right Or.inr
    · rw [moveDown_out (by omega)]
      exact h.outside j hj
  exact hkept.terminate.1

end Lines

/-! ## The terminal -/

section Shown
variable {p a b s : List Byte} {c : Byte}

/-- The text is written, and the cursor goes back over what was there. -/
theorem feed_insert (hc : Glyph c) (hb : ∀ d ∈ b, Glyph d) :
    (row (p ++ a) b).feed (c :: b ++ List.replicate b.length bs) = row (p ++ (a ++ [c])) b := by
  have hglyphs : ∀ d ∈ c :: b, Glyph d := by
    intro d hd
    rcases List.mem_cons.mp hd with rfl | hd
    · exact hc
    · exact hb d hd
  have hback := feed_backs (p ++ (a ++ [c])) b []
  rw [feed_append, feed_glyphs hglyphs, List.drop_of_length_le (by simp)]
  simpa using hback

theorem feed_delete (hb : ∀ d ∈ b, Glyph d) :
    (row (p ++ (a ++ [c])) b).feed ([bs] ++ b ++ [blank] ++ List.replicate (b.length + 1) bs) = row (p ++ a) b := by
  have hback := feed_backs (p ++ a) [c] b
  have hover := feed_glyphs (s := b ++ [blank]) (by
    intro d hd
    rcases List.mem_append.mp hd with hd | hd
    · exact hb d hd
    · rw [List.mem_singleton.mp hd]
      decide) (p ++ a) ([c] ++ b)
  have hagain := feed_backs (p ++ a) (b ++ [blank]) []
  have hblank := row_blank (p ++ a) b 1
  rw [List.length_singleton, List.replicate_one, List.append_assoc] at hback
  rw [List.drop_of_length_le (by simp)] at hover
  rw [List.length_append, List.length_singleton, List.append_nil] at hagain
  rw [List.replicate_one] at hblank
  rw [List.append_assoc [bs], List.append_assoc [bs], feed_append, hback, feed_append, hover, hagain, hblank]

theorem feed_deleteLast : (row (p ++ (a ++ [c])) []).feed (erase 1) = row (p ++ a) [] := by
  have herase := feed_erase (p ++ a) [c]
  rwa [List.length_singleton, List.append_assoc] at herase

/-- The line is cleared, and another one written. -/
theorem feed_replace (hs : ∀ d ∈ s, Glyph d) :
    (row (p ++ a) b).feed (List.replicate b.length blank ++ erase (a.length + b.length) ++ s) = row (p ++ s) [] := by
  rw [feed_append, feed_clear, feed_glyphs hs, List.drop_nil]

/-- Whatever came before, behind the prompt the row is empty. -/
theorem feed_prompt (hp : ∀ d ∈ p, Glyph d) (t : Screen) (out : List Byte) :
    t.feed (out ++ (cr :: lf :: p)) = row p [] := by
  have hline := feed_newline (t.feed out)
  rw [feed_append, show cr :: lf :: p = [cr, lf] ++ p from rfl, feed_append, hline, feed_glyphs hp,
    List.drop_nil, List.nil_append]

end Shown

end WmIot.Cli
