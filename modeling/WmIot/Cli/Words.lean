import WmIot.Cli.Line

/-!
# The parameters of a command

The words of a line lie between blanks, tabs and commas, and a backslash takes the next byte into the word. The loop
of `shellEnter` finds the first words of the line, and leaves a NUL behind each.
-/

namespace WmIot.Cli
open CString (Byte lit)
open TextBuffer
set_option autoImplicit false

def joinWord (w : List Byte × List (List Byte)) : List (List Byte) := if w.1 = [] then w.2 else w.1 :: w.2

/-- The rest of the word at the start, and the words behind it. -/
def scan : Bool → List Byte → List Byte × List (List Byte)
  | _, [] => ([], [])
  | escaped, b :: s =>
    if escaped = false ∧ isSeparator b = true then ([], joinWord (scan false s))
    else
      let w := scan (!escaped && b = 0x5C#8) s
      (b :: w.1, w.2)

def words (s : List Byte) : List (List Byte) := joinWord (scan false s)

/-- What the loop leaves: the parameters found, and the buffer from which their strings are read. -/
structure Parsed (size max i : Nat) (fresh : Bool) (params : List Nat) (buffer : Nat → Byte)
    (w : List Byte × List (List Byte)) (r : (Nat → Byte) × List Nat) : Prop where
  kept : ∀ j, j < i → r.1 j = buffer j
  rest : fresh = false → cstring r.1 i (size - i) = w.1
  found : ∃ starts, r.2 = params ++ starts ∧ starts.map (fun o => cstring r.1 o (size - o)) =
    (if fresh then joinWord w else w.2).take (max - params.length)

section Loop
variable {size max n i fuel : Nat} {fresh : Bool} {params : List Nat} {buffer : Nat → Byte}
  {w : List Byte × List (List Byte)} {r : (Nat → Byte) × List Nat} {b : Byte}

/-- The loop writes NULs only, and only in the line. -/
theorem parseLoop_cells (max length fuel i : Nat) (fresh : Bool) (params : List Nat) (buffer : Nat → Byte) (j : Nat) :
    (parseLoop max length fuel i fresh params buffer).1 j = buffer j ∨
      j < length ∧ (parseLoop max length fuel i fresh params buffer).1 j = 0 := by
  induction fuel generalizing i fresh params buffer with
  | zero => exact Or.inl rfl
  | succ fuel ih =>
    rw [parseLoop]
    split
    · exact Or.inl rfl
    · split
      · rcases ih (i + 1) true params (Function.update buffer i 0) with hj | hj
        · by_cases hji : j = i
          · subst hji
            rw [Function.update_self] at hj
            exact Or.inr ⟨by omega, hj⟩
          · rw [Function.update_of_ne hji] at hj
            exact Or.inl hj
        · exact Or.inr hj
      · split
        · exact Or.inl rfl
        · exact ih _ _ _ _

theorem isSeparator_zero : isSeparator 0 = true := by decide

/-- At a separator. -/
theorem Parsed.separator (hi : i < size) {w' : List Byte × List (List Byte)}
    (h : Parsed size max (i + 1) true params (Function.update buffer i 0) w' r) :
    Parsed size max i fresh params buffer ([], joinWord w') r := by
  have hzero : r.1 i = 0 := by
    rw [h.kept i (Nat.lt_succ_self i), Function.update_self]
  refine ⟨fun j hj => ?_, fun _ => ?_, ?_⟩
  · rw [h.kept j (by omega), Function.update_of_ne (by omega)]
  · obtain ⟨k, hk⟩ := Nat.exists_eq_succ_of_ne_zero (show size - i ≠ 0 by omega)
    rw [hk, cstring, if_pos hzero]
  · obtain ⟨starts, hstarts, hmap⟩ := h.found
    refine ⟨starts, hstarts, ?_⟩
    rw [hmap]
    cases fresh <;> simp [joinWord]

/-- At a byte of a word, which is `b` and perhaps the one that it escapes. -/
theorem Parsed.word {s : List Byte} (hs : s ≠ []) (hmax : fresh = true → params.length < max)
    (h : Parsed size max (i + s.length) false (if fresh then params ++ [i] else params) buffer w r)
    (hstring : cstring r.1 i (size - i) = s ++ cstring r.1 (i + s.length) (size - (i + s.length))) :
    Parsed size max i fresh params buffer (s ++ w.1, w.2) r := by
  have hword : cstring r.1 i (size - i) = s ++ w.1 := by rw [hstring, h.rest rfl]
  refine ⟨fun j hj => h.kept j (by omega), fun _ => hword, ?_⟩
  obtain ⟨starts, hstarts, hmap⟩ := h.found
  cases fresh with
  | false => exact ⟨starts, hstarts, hmap⟩
  | true =>
    have hlt := hmax rfl
    rw [if_pos rfl, List.append_assoc, List.singleton_append] at hstarts
    rw [if_pos rfl, List.length_append, List.length_singleton, if_neg (by decide)] at hmap
    refine ⟨i :: starts, hstarts, ?_⟩
    obtain ⟨k, hk⟩ := Nat.exists_eq_succ_of_ne_zero (show max - params.length ≠ 0 by omega)
    have hne : s ++ w.1 ≠ [] := by simp [hs]
    rw [List.map_cons, hword, hmap, if_pos rfl, joinWord, if_neg hne, hk, List.take_succ_cons,
      show max - (params.length + 1) = k by omega]

/-- The loop from an index on, with `n` the index of the NUL. -/
theorem parseLoop_parsed (max : Nat) (hn : n < size) (hfuel : n + 1 ≤ i + fuel) (hi : i ≤ n + 1)
    (hfresh : fresh = false → i ≤ n) (hend : i ≤ n → buffer n = 0) (hnul : 0 ∉ slice buffer i (n - i)) :
    Parsed size max i fresh params buffer (scan false (slice buffer i (n - i)))
      (parseLoop max (n + 1) fuel i fresh params buffer) := by
  induction fuel generalizing i fresh params buffer with
  | zero =>
    obtain rfl : i = n + 1 := by omega
    obtain rfl : fresh = true := by
      cases fresh with
      | true => rfl
      | false => exact absurd (hfresh rfl) (by omega)
    refine ⟨fun _ _ => rfl, fun habs => absurd habs (by decide), [], by simp [parseLoop], ?_⟩
    simp [show n - (n + 1) = 0 by omega, scan, joinWord]
  | succ fuel ih =>
    by_cases hlast : i = n + 1
    · subst hlast
      obtain rfl : fresh = true := by
        cases fresh with
        | true => rfl
        | false => exact absurd (hfresh rfl) (by omega)
      rw [parseLoop, if_pos (Nat.le_refl _)]
      refine ⟨fun _ _ => rfl, fun habs => absurd habs (by decide), [], by simp, ?_⟩
      simp [show n - (n + 1) = 0 by omega, scan, joinWord]
    have hle : i ≤ n := by omega
    rw [parseLoop, if_neg (by omega)]
    by_cases hsep : isSeparator (buffer i) = true
    · rw [if_pos hsep]
      have hslice : slice (Function.update buffer i 0) (i + 1) (n - (i + 1)) = slice buffer (i + 1) (n - (i + 1)) :=
        slice_update_out _ (by omega)
      by_cases hin : i = n
      · subst hin
        have hnext := @ih (i + 1) true params (Function.update buffer i 0)
          (by omega) (by omega) (fun habs => absurd habs (by decide)) (by omega) (by simp [show i - (i + 1) = 0 by omega])
        rw [show i - (i + 1) = 0 by omega] at hnext
        rw [Nat.sub_self]
        have hparsed : Parsed size max i fresh params buffer _ _ := hnext.separator hn
        simpa [scan, joinWord] using hparsed
      · have hcons : slice buffer i (n - i) = buffer i :: slice buffer (i + 1) (n - (i + 1)) := by
          rw [show n - i = n - (i + 1) + 1 by omega, slice_succ]
        rw [hcons, List.mem_cons, not_or] at hnul
        have hnext := @ih (i + 1) true params (Function.update buffer i 0)
          (by omega) (by omega) (fun habs => absurd habs (by decide))
          (fun _ => by rw [Function.update_of_ne (Ne.symm hin)]; exact hend hle) (by rw [hslice]; exact hnul.2)
        rw [hslice] at hnext
        rw [hcons, scan, if_pos ⟨rfl, hsep⟩]
        exact hnext.separator (by omega)
    · rw [if_neg hsep]
      have hin : i ≠ n := by
        rintro rfl
        rw [hend hle] at hsep
        exact hsep isSeparator_zero
      have hcons : slice buffer i (n - i) = buffer i :: slice buffer (i + 1) (n - (i + 1)) := by
        rw [show n - i = n - (i + 1) + 1 by omega, slice_succ]
      rw [hcons, List.mem_cons, not_or] at hnul
      have hfirst : buffer i ≠ 0 := Ne.symm hnul.1
      have hsize : size - i = size - (i + 1) + 1 := by omega
      by_cases hfull : fresh = true ∧ max ≤ params.length
      · -- the word has no place
        rw [if_pos hfull]
        refine ⟨fun _ _ => rfl, fun habs => absurd habs (by rw [hfull.1]; decide), [], by simp, ?_⟩
        rw [Nat.sub_eq_zero_of_le hfull.2]
        simp
      · rw [if_neg hfull]
        dsimp only
        have hmax : fresh = true → params.length < max := fun hf => by
          by_contra hge
          exact hfull ⟨hf, by omega⟩
        by_cases hescape : buffer i = 0x5C#8 ∧ buffer (i + 1) ≠ 0
        · have hin' : i + 1 ≠ n := by
            intro habs
            rw [habs] at hescape
            exact hescape.2 (hend hle)
          have hcons' : slice buffer (i + 1) (n - (i + 1)) = buffer (i + 1) :: slice buffer (i + 2) (n - (i + 2)) := by
            rw [show n - (i + 1) = n - (i + 2) + 1 by omega, slice_succ]
          rw [hcons', List.mem_cons, not_or] at hnul
          have hnext := @ih (i + 2) false (if fresh then params ++ [i] else params) buffer (by omega) (by omega) (by omega) (fun _ => hend hle) hnul.2.2
          have hscan : scan false (slice buffer i (n - i)) =
              ([buffer i, buffer (i + 1)] ++ (scan false (slice buffer (i + 2) (n - (i + 2)))).1,
                (scan false (slice buffer (i + 2) (n - (i + 2)))).2) := by
            rw [hcons, hcons', scan, if_neg fun habs => hsep habs.2, scan]
            simp [hescape.1]
          rw [if_pos hescape, hscan]
          refine hnext.word (s := [buffer i, buffer (i + 1)]) (by simp) hmax ?_
          rw [hsize, cstring, hnext.kept i (by omega), if_neg hfirst, show size - (i + 1) = size - (i + 2) + 1 by omega,
            cstring, hnext.kept (i + 1) (by omega), if_neg hescape.2]
          rfl
        · have hnext := @ih (i + 1) false (if fresh then params ++ [i] else params) buffer (by omega) (by omega) (by omega) (fun _ => hend hle) hnul.2
          have hscan : scan false (slice buffer i (n - i)) =
              ([buffer i] ++ (scan false (slice buffer (i + 1) (n - (i + 1)))).1,
                (scan false (slice buffer (i + 1) (n - (i + 1)))).2) := by
            rw [hcons, scan, if_neg fun habs => hsep habs.2]
            by_cases hback : buffer i = 0x5C#8
            · -- a backslash at the end of the line
              have hzero : buffer (i + 1) = 0 := by
                by_contra hne
                exact hescape ⟨hback, hne⟩
              have hrest : n - (i + 1) = 0 := by
                by_contra hne
                obtain ⟨k, hk⟩ := Nat.exists_eq_succ_of_ne_zero hne
                rw [hk, slice_succ, hzero] at hnul
                exact hnul.2 List.mem_cons_self
              rw [hrest]
              simp [scan]
            · simp [hback]
          rw [if_neg hescape, hscan]
          refine hnext.word (s := [buffer i]) (by simp) hmax ?_
          rw [hsize, cstring, hnext.kept i (by omega), if_neg hfirst]
          rfl

end Loop

/-- The parameters are the first words of the line. -/
theorem parseLoop_words {size : Nat} {buffer : Nat → Byte} {s : List Byte} (max : Nat) (hsize : s.length < size)
    (htext : slice buffer 0 s.length = s) (hend : buffer s.length = 0) (hnul : 0 ∉ s) :
    (parseLoop max (s.length + 1) (s.length + 1) 0 true [] buffer).2.map (fun o =>
        cstring (parseLoop max (s.length + 1) (s.length + 1) 0 true [] buffer).1 o (size - o)) = (words s).take max := by
  have hparsed : Parsed size max 0 true [] buffer (scan false (slice buffer 0 (s.length - 0)))
      (parseLoop max (s.length + 1) (s.length + 1) 0 true [] buffer) :=
    parseLoop_parsed max hsize (by omega) (Nat.zero_le _) (fun habs => absurd habs (by decide)) (fun _ => hend)
      (by rw [Nat.sub_zero, htext]; exact hnul)
  obtain ⟨starts, hstarts, hmap⟩ := hparsed.found
  rw [Nat.sub_zero, htext] at hmap
  rw [List.nil_append] at hstarts
  rw [hstarts, hmap, if_pos rfl, List.length_nil, Nat.sub_zero, words]

end WmIot.Cli
