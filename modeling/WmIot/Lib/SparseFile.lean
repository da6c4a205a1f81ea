import Mathlib

/-!
# Files written at offsets

A write behind the end of a file fills the gap. Writes whose ranges do not meet all stay readable.
-/

namespace WmIot.SparseFile
set_option autoImplicit false

variable {α : Type} {fill : α} {file : List α} {p n : Nat}

structure Write (α : Type) where
  offset : Nat
  chunk : List α

/-- The write covers a position. -/
def Write.Covers (w : Write α) (p : Nat) : Prop := w.offset ≤ p ∧ p < w.offset + w.chunk.length

/-- A write after a seek. Without bytes it leaves the file as it is, also behind its end. -/
def writeAt (fill : α) (file : List α) (w : Write α) : List α :=
  if w.chunk.isEmpty then file
  else (file ++ List.replicate (w.offset - file.length) fill).take w.offset ++ w.chunk ++
    file.drop (w.offset + w.chunk.length)

/-- No position is covered by both. -/
def Apart (v w : Write α) : Prop := ∀ p, v.Covers p → ¬ w.Covers p

/-- The file has the bytes of the write in their places. -/
def Holds (file : List α) (w : Write α) : Prop := ∀ i < w.chunk.length, file[w.offset + i]? = w.chunk[i]?

variable {v w : Write α} {ws : List (Write α)}

theorem Apart.symm (h : Apart v w) : Apart w v := fun p hw hv => h p hv hw

theorem apart_iff : Apart v w ↔ v.chunk.length = 0 ∨ w.chunk.length = 0 ∨
    v.offset + v.chunk.length ≤ w.offset ∨ w.offset + w.chunk.length ≤ v.offset := by
  constructor
  · intro h
    have hv := h v.offset
    have hw := h w.offset
    simp only [Write.Covers] at hv hw
    omega
  · rintro h p ⟨hv, hv'⟩ ⟨hw, hw'⟩
    omega

theorem length_front (fill : α) (file : List α) (n : Nat) :
    ((file ++ List.replicate (n - file.length) fill).take n).length = n := by
  rw [List.length_take, List.length_append, List.length_replicate]
  omega

theorem length_writeAt_le_iff :
    (writeAt fill file w).length ≤ n ↔
      file.length ≤ n ∧ (w.chunk.length ≠ 0 → w.offset + w.chunk.length ≤ n) := by
  unfold writeAt
  split
  next h =>
    rw [List.isEmpty_iff] at h
    simp [h]
  next h =>
    have hpos : w.chunk.length ≠ 0 := fun hzero => h (List.isEmpty_iff.mpr (List.length_eq_zero_iff.mp hzero))
    simp only [List.length_append, length_front, List.length_drop]
    omega

theorem getElem?_writeAt_of_not_covers (hp : p < file.length) (h : ¬ w.Covers p) :
    (writeAt fill file w)[p]? = file[p]? := by
  unfold writeAt
  split
  · rfl
  · rcases Nat.lt_or_ge p w.offset with hlt | hge
    · rw [List.append_assoc, List.getElem?_append_left (by rw [length_front]; exact hlt),
        List.getElem?_take_of_lt hlt, List.getElem?_append_left hp]
    · have hend : w.offset + w.chunk.length ≤ p := Nat.le_of_not_lt fun hlt => h ⟨hge, hlt⟩
      rw [List.getElem?_append_right (by rw [List.length_append, length_front]; exact hend),
        List.length_append, length_front, List.getElem?_drop, Nat.add_sub_cancel' hend]

theorem holds_writeAt : Holds (writeAt fill file w) w := by
  intro i hi
  have hne : ¬ w.chunk.isEmpty := fun h => by
    rw [List.isEmpty_iff.mp h] at hi
    exact Nat.not_lt_zero i hi
  rw [writeAt, if_neg hne, List.getElem?_append_left (by rw [List.length_append, length_front]; omega),
    List.getElem?_append_right (by rw [length_front]; omega), length_front, Nat.add_sub_cancel_left]

theorem Holds.lt_length (h : Holds file v) {i : Nat} (hi : i < v.chunk.length) : v.offset + i < file.length := by
  have heq := h i hi
  rw [List.getElem?_eq_getElem hi] at heq
  exact (List.getElem?_eq_some_iff.mp heq).1

theorem Holds.writeAt (h : Holds file v) (hapart : Apart v w) : Holds (writeAt fill file w) v := by
  intro i hi
  rw [getElem?_writeAt_of_not_covers (h.lt_length hi) (hapart _ ⟨Nat.le_add_right _ _, by omega⟩)]
  exact h i hi

theorem length_writes_le_iff :
    (ws.foldl (writeAt fill) file).length ≤ n ↔
      file.length ≤ n ∧ ∀ w ∈ ws, w.chunk.length ≠ 0 → w.offset + w.chunk.length ≤ n := by
  induction ws generalizing file with
  | nil => simp
  | cons w ws ih => rw [List.foldl_cons, ih, length_writeAt_le_iff, List.forall_mem_cons, and_assoc]

theorem Holds.writes (h : Holds file v) (hapart : ∀ w ∈ ws, Apart v w) :
    Holds (ws.foldl (SparseFile.writeAt fill) file) v := by
  induction ws generalizing file with
  | nil => exact h
  | cons w ws ih =>
    rw [List.forall_mem_cons] at hapart
    exact ih (h.writeAt hapart.1) hapart.2

/-- Writes that keep apart are all in the file at the end. -/
theorem holds_writes (h : ws.Pairwise Apart) : ∀ w ∈ ws, Holds (ws.foldl (writeAt fill) file) w := by
  induction ws generalizing file with
  | nil => exact fun w hw => absurd hw List.not_mem_nil
  | cons v ws ih =>
    rw [List.pairwise_cons] at h
    intro w hw
    rcases List.mem_cons.mp hw with rfl | hw
    · exact holds_writeAt.writes h.1
    · exact ih h.2 w hw

end WmIot.SparseFile
