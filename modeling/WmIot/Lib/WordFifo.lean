import Mathlib

/-!
# Bytes packed into words

A FIFO of words, each of up to four bytes. A run of bytes is packed from a fresh word on; a read takes one word and
gives four bytes, of which those behind the end of a short word are not determined.
-/

namespace WmIot.WordFifo
set_option autoImplicit false

variable {α : Type} {l w : List α} {junk : Nat → α}

/-- The words of a run of bytes. -/
def words : List α → List (List α)
  | a :: b :: c :: d :: l => [a, b, c, d] :: words l
  | [] => []
  | l => [l]

/-- The bytes in a FIFO. -/
def level (fifo : List (List α)) : Nat := (fifo.map List.length).sum

/-- The four bytes of a word. -/
def readWord (junk : Nat → α) (w : List α) : List α := (List.range 4).map fun i => w.getD i (junk i)

theorem words_append (hw : w.length = 4) (l : List α) : words (w ++ l) = w :: words l := by
  match w, hw with
  | [a, b, c, d], _ => rfl

theorem words_short (hpos : l ≠ []) (h : l.length < 4) : words l = [l] := by
  match l, hpos, h with
  | [a], _, _ => rfl
  | [a, b], _, _ => rfl
  | [a, b, c], _, _ => rfl

/-- A run of at least one word. -/
theorem words_of_le (h : 4 ≤ l.length) : words l = l.take 4 :: words (l.drop 4) := by
  conv_lhs => rw [← List.take_append_drop 4 l]
  exact words_append (by rw [List.length_take]; omega) _

theorem level_cons (w : List α) (fifo : List (List α)) : level (w :: fifo) = w.length + level fifo := by
  rw [level, List.map_cons, List.sum_cons, level]

theorem level_words (l : List α) : level (words l) = l.length := by
  match l with
  | [] => rfl
  | [_] => rfl
  | [_, _] => rfl
  | [_, _, _] => rfl
  | a :: b :: c :: d :: l =>
    rw [words, level_cons, level_words l]
    exact Nat.add_comm 4 l.length

theorem length_readWord (junk : Nat → α) (w : List α) : (readWord junk w).length = 4 := by
  rw [readWord, List.length_map, List.length_range]

theorem getElem?_readWord (w : List α) {i : Nat} (hi : i < 4) :
    (readWord junk w)[i]? = some (w.getD i (junk i)) := by
  rw [readWord, List.getElem?_map, List.getElem?_range hi, Option.map_some]

/-- The bytes of a word that are there. -/
theorem take_readWord {k : Nat} (hk : k ≤ w.length) (hw : w.length ≤ 4) : (readWord junk w).take k = w.take k := by
  refine List.ext_getElem? fun i => ?_
  rw [List.getElem?_take, List.getElem?_take]
  split
  next hi =>
    rw [getElem?_readWord w (by omega), List.getD_eq_getElem _ _ (by omega), List.getElem?_eq_getElem]
  next => rfl

theorem readWord_eq (hw : w.length = 4) : readWord junk w = w := by
  have h : (readWord junk w).take 4 = w.take 4 := take_readWord (Nat.le_of_eq hw.symm) (Nat.le_of_eq hw)
  rwa [List.take_of_length_le (Nat.le_of_eq (length_readWord junk w)), List.take_of_length_le (Nat.le_of_eq hw)] at h

end WmIot.WordFifo
