import WmIot.Lib.CString

/-!
# Bytes in hexadecimal

`wm_hex_str_to_array` of `wm_utils.c`, which reads MAC addresses and keys: pairs of digits, with colons and
dashes in front of them.
-/

namespace WmIot.Utils
open CString
set_option autoImplicit false

/-- `wm_atohex`; none for -1 -/
def wmAtohex (ch : Byte) : Option Byte :=
  if 0x30#8 ≤ ch ∧ ch ≤ 0x39#8 then some (ch - 0x30#8)
  else if 0x61#8 ≤ ch ∧ ch ≤ 0x66#8 then some (ch - 0x61#8 + 0xA#8)
  else if 0x41#8 ≤ ch ∧ ch ≤ 0x46#8 then some (ch - 0x41#8 + 0xA#8)
  else none

def isSeparator (b : Byte) : Bool := b = 0x3A#8 || b = 0x2D#8

/-- The byte of two digits. -/
def pair (hi lo : Byte) : Byte := (hi <<< 4 &&& 0xF0#8) ||| (lo &&& 0x0F#8)

/-- The loop of `wm_hex_str_to_array` with `des` written: whether it returns 0, and the bytes it has written.
`none` is a read past the memory of the string. -/
def hexLoop : List Byte → Nat → List Byte → Option (Bool × List Byte)
  | [], _, _ => none
  | b :: _, 0, des => some (b = 0#8, des)
  | b :: p, n + 1, des =>
    if isSeparator b then hexLoop p (n + 1) des
    else
      match wmAtohex b with
      | none => some (false, des)
      | some hi =>
        match p with
        | [] => none
        | c :: p =>
          match wmAtohex c with
          | none => some (false, des)
          | some lo => hexLoop p n (des ++ [pair hi lo])

def wmHexStrToArray (str : List Byte) (arrayLen : Nat) : Option (Bool × List Byte) := hexLoop str arrayLen []

/-! ## The grammar -/

/-- The strings of two-digit bytes, each behind any number of separators, and the bytes they denote. -/
inductive HexText : List Byte → List Byte → Prop where
  | nil : HexText [] []
  | cons {seps : List Byte} {h l hi lo : Byte} {s bytes : List Byte} (hseps : ∀ b ∈ seps, isSeparator b)
      (hhi : wmAtohex h = some hi) (hlo : wmAtohex l = some lo) (hrest : HexText s bytes) :
      HexText (seps ++ h :: l :: s) (pair hi lo :: bytes)

/-- The digits of a byte below 16, small or capital. -/
def digit (capital : Bool) (n : Byte) : Byte :=
  if n < 0xA#8 then 0x30#8 + n else if capital then 0x37#8 + n else 0x57#8 + n

/-- A byte in two digits. -/
def hexByte (capital : Bool) (b : Byte) : List Byte := [digit capital (b >>> 4), digit capital (b &&& 0x0F#8)]

/-- Bytes in hexadecimal, with `sep` between them. -/
def hexText (capital : Bool) (sep : List Byte) : List Byte → List Byte
  | [] => []
  | [b] => hexByte capital b
  | b :: bytes => hexByte capital b ++ (sep ++ hexText capital sep bytes)

section Loop
variable {b : Byte} {s p des bytes : List Byte} {n : Nat}

theorem separator_not_digit (h : isSeparator b) : wmAtohex b = none ∧ b ≠ 0#8 := by
  revert h
  revert b
  decide +kernel

theorem digit_not_separator (h : (wmAtohex b).isSome) : isSeparator b = false ∧ b ≠ 0#8 := by
  revert h
  revert b
  decide +kernel

theorem hexLoop_separator (h : isSeparator b) (p : List Byte) (n : Nat) (des : List Byte) :
    hexLoop (b :: p) (n + 1) des = hexLoop p (n + 1) des := by
  rw [hexLoop, if_pos h]

theorem hexLoop_pair {h l hi lo : Byte} (hhi : wmAtohex h = some hi) (hlo : wmAtohex l = some lo) (p : List Byte)
    (n : Nat) (des : List Byte) : hexLoop (h :: l :: p) (n + 1) des = hexLoop p n (des ++ [pair hi lo]) := by
  have hsep := (digit_not_separator (by rw [hhi]; rfl)).1
  rw [hexLoop, hsep, if_neg Bool.false_ne_true]
  simp only [hhi, hlo]

/-- Text is read to its end. -/
theorem hexLoop_text (h : HexText s bytes) (p des : List Byte) :
    hexLoop (s ++ p) bytes.length des = hexLoop p 0 (des ++ bytes) := by
  induction h generalizing des with
  | nil => rw [List.nil_append, List.append_nil, List.length_nil]
  | @cons seps h l hi lo s bytes hseps hhi hlo _ ih =>
    rw [List.length_cons]
    induction seps with
    | nil =>
      rw [List.nil_append, List.cons_append, List.cons_append, hexLoop_pair hhi hlo, ih, List.append_assoc,
        List.singleton_append]
    | cons c seps ihs =>
      rw [List.cons_append, List.cons_append, hexLoop_separator (hseps c List.mem_cons_self)]
      exact ihs fun b hb => hseps b (List.mem_cons_of_mem c hb)

theorem HexText.separator (h : HexText s bytes) (hb : isSeparator b) (hne : bytes ≠ []) : HexText (b :: s) bytes := by
  cases h with
  | nil => exact absurd rfl hne
  | @cons seps _ _ _ _ _ _ hseps hhi hlo hrest =>
    have hall : ∀ c ∈ b :: seps, isSeparator c := by
      intro c hc
      rcases List.mem_cons.mp hc with rfl | hc
      · exact hb
      · exact hseps c hc
    exact HexText.cons hall hhi hlo hrest

theorem no_separators : ∀ b ∈ ([] : List Byte), isSeparator b := nofun

/-- The loop stays inside of a string and of its array, and succeeds on text only. -/
theorem hexLoop_string (hs : 0#8 ∉ s) (n : Nat) (des : List Byte) :
    ∃ r out, hexLoop (s ++ [0#8]) n des = some (r, des ++ out) ∧ out.length ≤ n ∧
      (r = true → HexText s out ∧ out.length = n) := by
  induction hlen : s.length using Nat.strong_induction_on generalizing s n des with
  | _ len ih =>
    subst hlen
    cases n with
    | zero =>
      cases s with
      | nil => exact ⟨true, [], by rw [List.append_nil]; rfl, Nat.le_refl 0, fun _ => ⟨.nil, rfl⟩⟩
      | cons b s =>
        have hb : b ≠ 0#8 := fun hb => hs (hb ▸ List.mem_cons_self)
        refine ⟨false, [], ?_, Nat.le_refl 0, nofun⟩
        rw [List.append_nil, List.cons_append, hexLoop, decide_eq_false hb]
    | succ n =>
      cases s with
      | nil => exact ⟨false, [], by rw [List.append_nil]; rfl, Nat.zero_le _, nofun⟩
      | cons b s =>
        have hrest : 0#8 ∉ s := fun h => hs (List.mem_cons_of_mem b h)
        by_cases hsep : isSeparator b
        · obtain ⟨r, out, hrun, hle, htext⟩ := ih s.length (Nat.lt_succ_self _) hrest (n + 1) des rfl
          refine ⟨r, out, by rw [List.cons_append, hexLoop_separator hsep, hrun], hle, fun hr => ?_⟩
          obtain ⟨hs', hout⟩ := htext hr
          exact ⟨hs'.separator hsep (by rintro rfl; cases hout), hout⟩
        · cases hhi : wmAtohex b with
          | none =>
            refine ⟨false, [], ?_, Nat.zero_le _, nofun⟩
            rw [List.append_nil, List.cons_append, hexLoop, if_neg hsep, hhi]
          | some hi =>
            cases s with
            | nil =>
              refine ⟨false, [], ?_, Nat.zero_le _, nofun⟩
              rw [List.append_nil, List.singleton_append, hexLoop, if_neg hsep, hhi]
              rfl
            | cons c s =>
              cases hlo : wmAtohex c with
              | none =>
                refine ⟨false, [], ?_, Nat.zero_le _, nofun⟩
                rw [List.append_nil, List.cons_append, List.cons_append, hexLoop, if_neg hsep]
                simp only [hhi, hlo]
              | some lo =>
                have htail : 0#8 ∉ s := fun h => hrest (List.mem_cons_of_mem c h)
                obtain ⟨r, out, hrun, hle, htext⟩ :=
                  ih s.length (by simp only [List.length_cons]; omega) htail n (des ++ [pair hi lo]) rfl
                refine ⟨r, pair hi lo :: out, ?_, Nat.succ_le_succ hle, fun hr => ?_⟩
                · rw [List.cons_append, List.cons_append, hexLoop_pair hhi hlo, hrun, List.append_assoc,
                    List.singleton_append]
                · obtain ⟨hs', hout⟩ := htext hr
                  exact ⟨.cons no_separators hhi hlo hs', congrArg Nat.succ hout⟩

end Loop

/-! ## Rendering -/

theorem atohex_digit (capital : Bool) {n : Byte} (h : n < 0x10#8) : wmAtohex (digit capital n) = some n := by
  revert h
  revert n capital
  decide +kernel

theorem pair_halves (b : Byte) : b >>> 4 < 0x10#8 ∧ b &&& 0x0F#8 < 0x10#8 ∧ pair (b >>> 4) (b &&& 0x0F#8) = b := by
  revert b
  decide +kernel

theorem HexText.byte {s bytes : List Byte} (h : HexText s bytes) (capital : Bool) {seps : List Byte}
    (hseps : ∀ b ∈ seps, isSeparator b) (b : Byte) : HexText (seps ++ (hexByte capital b ++ s)) (b :: bytes) := by
  obtain ⟨hhi, hlo, hpair⟩ := pair_halves b
  have hcons := HexText.cons hseps (atohex_digit capital hhi) (atohex_digit capital hlo) h
  rwa [hpair] at hcons

/-- Bytes in hexadecimal are text, also with separators in front of them. -/
theorem hexText_isText (capital : Bool) {sep : List Byte} (hsep : ∀ b ∈ sep, isSeparator b) (bytes : List Byte) :
    HexText (hexText capital sep bytes) bytes ∧ (bytes ≠ [] → HexText (sep ++ hexText capital sep bytes) bytes) := by
  induction bytes with
  | nil => exact ⟨.nil, fun h => absurd rfl h⟩
  | cons b bytes ih =>
    cases bytes with
    | nil =>
      have hone : ∀ {seps : List Byte}, (∀ b ∈ seps, isSeparator b) → HexText (seps ++ hexByte capital b) [b] := by
        intro seps hseps
        have h := HexText.nil.byte capital hseps b
        rwa [List.append_nil] at h
      exact ⟨hone no_separators, fun _ => hone hsep⟩
    | cons c bytes =>
      have hrest := ih.2 (List.cons_ne_nil c bytes)
      exact ⟨hrest.byte capital no_separators b, fun _ => hrest.byte capital hsep b⟩

/-- `wm_hex_str_to_array` parses its grammar inside of the string and the array, and undoes the rendering. -/
theorem wmHexStrToArray_parses :
    (∀ (str : Str) (n : Nat), ∃ r out, wmHexStrToArray str.mem n = some (r, out) ∧ out.length ≤ n ∧
      (r = true ↔ ∃ bytes, HexText str.chars bytes ∧ bytes.length = n) ∧
      ∀ bytes, HexText str.chars bytes → bytes.length = n → out = bytes) ∧
    ∀ (capital : Bool) (sep bytes : List Byte), (∀ b ∈ sep, isSeparator b) →
      wmHexStrToArray (hexText capital sep bytes ++ [0#8]) bytes.length = some (true, bytes) := by
  have hread : ∀ {s bytes : List Byte}, HexText s bytes →
      wmHexStrToArray (s ++ [0#8]) bytes.length = some (true, bytes) := fun h => hexLoop_text h [0#8] []
  refine ⟨fun str n => ?_, fun capital sep bytes hsep => hread (hexText_isText capital hsep bytes).1⟩
  obtain ⟨r, out, hrun, hle, htext⟩ := hexLoop_string str.noNul n []
  refine ⟨r, out, hrun, hle, ⟨fun hr => ⟨out, htext hr⟩, ?_⟩, ?_⟩
  · rintro ⟨bytes, hbytes, rfl⟩
    have hr := hrun.symm.trans (hread hbytes)
    exact (Prod.mk.inj (Option.some.inj hr)).1
  · rintro bytes hbytes rfl
    have hr := hrun.symm.trans (hread hbytes)
    exact (Prod.mk.inj (Option.some.inj hr)).2

theorem wmHexStrToArray_parses_two :
    wmHexStrToArray (hexText true [0x3A#8] [0xAB#8, 0x0C#8] ++ [0#8]) 2 = some (true, [0xAB#8, 0x0C#8]) :=
  wmHexStrToArray_parses.2 true [0x3A#8] [0xAB#8, 0x0C#8] (by decide)

end WmIot.Utils
