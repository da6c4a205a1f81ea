import Mathlib

/-!
# A terminal row

What a program that edits a line writes to a terminal: glyphs, backspaces that move the cursor only, carriage
returns and line feeds. The row is as wide as needed. `row a b` is the row that shows `a` and `b` with the cursor
between them.
-/

namespace WmIot.Terminal
set_option autoImplicit false

abbrev Byte := BitVec 8

def blank : Byte := 0x20#8
def bs : Byte := 0x08#8
def lf : Byte := 0x0A#8
def cr : Byte := 0x0D#8

structure Screen where
  cells : Nat → Byte
  col : Nat

/-- One byte. A line feed opens a blank row. -/
def Screen.put (t : Screen) (b : Byte) : Screen :=
  if b = bs then { t with col := t.col - 1 }
  else if b = cr then { t with col := 0 }
  else if b = lf then { t with cells := fun _ => blank }
  else ⟨Function.update t.cells t.col b, t.col + 1⟩

def Screen.feed (t : Screen) (out : List Byte) : Screen := out.foldl Screen.put t

/-- The bytes that are shown. -/
def Glyph (b : Byte) : Prop := b ≠ bs ∧ b ≠ cr ∧ b ≠ lf

instance (b : Byte) : Decidable (Glyph b) := inferInstanceAs (Decidable (_ ∧ _))

/-- The cells of a row that shows a text. -/
def shown (s : List Byte) : Nat → Byte := fun j => s.getD j blank

def row (a b : List Byte) : Screen := ⟨shown (a ++ b), a.length⟩

section
variable {a b s : List Byte} {t : Screen}

@[simp] theorem feed_nil (t : Screen) : t.feed [] = t := rfl

theorem feed_append (t : Screen) (xs ys : List Byte) : t.feed (xs ++ ys) = (t.feed xs).feed ys :=
  List.foldl_append

theorem feed_cons (t : Screen) (b : Byte) (out : List Byte) : t.feed (b :: out) = (t.put b).feed out := rfl

theorem shown_append_blank (s : List Byte) (n : Nat) : shown (s ++ List.replicate n blank) = shown s := by
  funext j
  unfold shown
  simp only [List.getD_eq_getElem?_getD]
  by_cases hj : j < s.length
  · rw [List.getElem?_append_left hj]
  · rw [List.getElem?_append_right (by omega), List.getElem?_eq_none (by omega : s.length ≤ j), List.getElem?_replicate]
    split <;> rfl

/-- Blanks behind the text do not show. -/
theorem row_blank (a b : List Byte) (n : Nat) : row a (b ++ List.replicate n blank) = row a b := by
  unfold row
  rw [← List.append_assoc, shown_append_blank]

theorem put_glyph {c : Byte} (hc : Glyph c) (a b : List Byte) : (row a b).put c = row (a ++ [c]) (b.drop 1) := by
  obtain ⟨hbs, hcr, hlf⟩ := hc
  unfold Screen.put
  rw [if_neg hbs, if_neg hcr, if_neg hlf]
  unfold row
  refine congr (congrArg Screen.mk ?_) (by simp)
  funext j
  unfold shown
  simp only [List.getD_eq_getElem?_getD]
  by_cases hj : j = a.length
  · subst hj
    rw [Function.update_self]
    simp
  · rw [Function.update_of_ne hj]
    rcases Nat.lt_or_gt_of_ne hj with hlt | hgt
    · rw [List.getElem?_append_left hlt, List.getElem?_append_left (by simp; omega), List.getElem?_append_left hlt]
    · rw [List.getElem?_append_right (by omega), List.getElem?_append_right (by simp; omega), List.getElem?_drop]
      congr 2
      simp
      omega

/-- Glyphs overwrite the text at the cursor. -/
theorem feed_glyphs (hs : ∀ c ∈ s, Glyph c) (a b : List Byte) : (row a b).feed s = row (a ++ s) (b.drop s.length) := by
  induction s generalizing a b with
  | nil => simp
  | cons c s ih =>
    rw [feed_cons, put_glyph (hs c List.mem_cons_self), ih fun d hd => hs d (List.mem_cons_of_mem c hd)]
    simp [List.drop_drop, Nat.add_comm]

/-- Backspaces move the cursor over the text before it. -/
theorem feed_backs (a s b : List Byte) : (row (a ++ s) b).feed (List.replicate s.length bs) = row a (s ++ b) := by
  induction s using List.reverseRecOn generalizing b with
  | nil => simp
  | append_singleton s c ih =>
    have hput : (row (a ++ (s ++ [c])) b).put bs = row (a ++ s) (c :: b) := by
      unfold Screen.put row
      rw [if_pos rfl]
      simp
    rw [List.length_append, List.length_singleton, List.replicate_succ, feed_cons, hput, ih]
    simp

/-- `n` times backspace, blank, backspace. -/
def erase (n : Nat) : List Byte := (List.replicate n [bs, blank, bs]).flatten

theorem erase_succ (n : Nat) : erase (n + 1) = [bs, blank, bs] ++ erase n := by
  unfold erase
  rw [List.replicate_succ, List.flatten_cons]

/-- It erases the text before the cursor, at the end of the row. -/
theorem feed_erase (a s : List Byte) : (row (a ++ s) []).feed (erase s.length) = row a [] := by
  induction s using List.reverseRecOn with
  | nil => simp [erase]
  | append_singleton s c ih =>
    have hback := feed_backs (a ++ s) [c] []
    have hover := feed_glyphs (s := [blank]) (by simp [Glyph, blank, bs, cr, lf]) (a ++ s) [c]
    have hback' := feed_backs (a ++ s) [blank] []
    have hblank := row_blank (a ++ s) [] 1
    rw [List.length_append, List.length_singleton, erase_succ, feed_append]
    have hone : (row (a ++ (s ++ [c])) []).feed [bs, blank, bs] = row (a ++ s) [] := by
      rw [← List.append_assoc, show [bs, blank, bs] = [bs] ++ ([blank] ++ [bs]) from rfl, feed_append, feed_append]
      simp only [List.length_singleton, List.replicate_one, List.append_nil, List.singleton_append, List.drop_one,
        List.tail_cons, List.nil_append] at hback hover hback' hblank
      rw [hback, hover, hback', hblank]
    rw [hone, ih]

/-- Blanks over the text behind the cursor, and then an erase of all of it. -/
theorem feed_clear (p a b : List Byte) :
    (row (p ++ a) b).feed (List.replicate b.length blank ++ erase (a.length + b.length)) = row p [] := by
  have hover := feed_glyphs (s := List.replicate b.length blank)
    (by intro c hc; rw [List.eq_of_mem_replicate hc]; decide) (p ++ a) b
  rw [List.length_replicate, List.drop_length] at hover
  have herase := feed_erase p (a ++ List.replicate b.length blank)
  rw [List.length_append, List.length_replicate, ← List.append_assoc] at herase
  rw [feed_append, hover, herase]

/-- A new line, whatever was shown. -/
theorem feed_newline (t : Screen) : t.feed [cr, lf] = row [] [] := by
  unfold Screen.feed Screen.put row shown
  simp [cr, lf, bs]

end

end WmIot.Terminal
