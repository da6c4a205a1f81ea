import WmIot.Cli.Line

/-!
# The editor behind the shell

A line with a cursor and the lines entered before, the newest first. The shell keeps the newest lines in a ring of
rows; what each key does to the line, to the ring and to the terminal is what it does to the editor.
-/

namespace WmIot.Cli
open CString (Byte lit)
open TextBuffer
open Terminal hiding Byte
set_option autoImplicit false

/-- The line is `before` and `after` the cursor. With `back` not 0 it was fetched from the history; `slot` is where
the ring stores the next line. -/
structure Editor where
  before : List Byte
  after : List Byte
  history : List (List Byte)
  back : Nat
  slot : Nat
  mode : InputMode
  tabbed : Bool

namespace Editor

def text (e : Editor) : List Byte := e.before ++ e.after

def insert (S : Setup) (c : Byte) (e : Editor) : Editor :=
  if c = 0 then e
  else if e.text.length < S.commandMaxLength - 1 then { e with before := e.before ++ [c] }
  else { e with before := e.text, after := [] }

def delete (e : Editor) : Editor := { e with before := e.before.dropLast }

def left (e : Editor) : Editor :=
  match e.before.getLast? with
  | some c => { e with before := e.before.dropLast, after := c :: e.after }
  | none => e

def right (e : Editor) : Editor :=
  match e.after with
  | c :: after => { e with before := e.before ++ [c], after := after }
  | [] => e

/-- The line entered `n` lines ago, or an empty one. -/
def fetch (n : Nat) (e : Editor) : Editor :=
  { e with back := n, before := if n = 0 then [] else e.history.getD (n - 1) [], after := [] }

def up (e : Editor) : Editor := e.fetch (if e.history.length ≤ e.back then e.history.length else e.back + 1)

def down (e : Editor) : Editor := if e.back = 0 then e else e.fetch (e.back - 1)

/-- A line is not stored twice in a row, unless the ring begins anew. -/
def enter (S : Setup) (stale : Bool) (e : Editor) : Editor :=
  if e.text = [] then e
  else
    let same := if e.slot = 0 then stale else decide (e.history.head? = some e.text)
    { e with
      before := []
      after := []
      back := 0
      history := if same then e.history else (e.text :: e.history).take S.historyMaxNumber
      slot := if same then e.slot else if S.historyMaxNumber ≤ e.slot + 1 then 0 else e.slot + 1 }

/-- The commands that the line is a prefix of. -/
def candidates (S : Setup) (e : Editor) : List (List Byte) :=
  (S.commands.map Command.name).filter fun n => decide (e.text <+: n)

def tab (S : Setup) (quick : Bool) (e : Editor) : Editor :=
  if e.text = [] then e
  else
    match e.candidates S with
    | [] => e
    | [n] => { e with before := if e.tabbed && quick then lit "help " ++ n else n, after := [] }
    | n :: ns => { e with before := ns.foldl commonPrefix n, after := [] }

def key (S : Setup) (i : Input) (e : Editor) : Editor :=
  if i.data = 0x0A#8 ∨ i.data = 0x0D#8 then e.enter S i.stale
  else if i.data = 0x09#8 then e.tab S i.quick
  else if i.data = 0x08#8 ∨ i.data = 0x7F#8 then e.delete
  else if i.data = 0x1B#8 then { e with mode := .ansiEsc }
  else if 0x01#8 ≤ i.data ∧ i.data ≤ 0x1A#8 then e
  else e.insert S i.data

def arrow (data : Byte) (e : Editor) : Editor :=
  if data = 0x41#8 then e.up
  else if data = 0x42#8 then e.down
  else if data = 0x43#8 then e.right
  else if data = 0x44#8 then e.left
  else e

def handle (S : Setup) (i : Input) (e : Editor) : Editor :=
  let e' := match e.mode with
    | .normal => e.key S i
    | .ansiEsc => { e with mode := if i.data = 0x5B#8 then .ansiCsi else .normal }
    | .ansiCsi => { e.arrow i.data with mode := .normal }
  { e' with tabbed := decide (i.data = 0x09#8) }

def start : Editor := ⟨[], [], [], 0, 0, .normal, false⟩

def run (S : Setup) (is : List Input) (e : Editor) : Editor := is.foldl (fun e i => e.handle S i) e

/-- What the terminal shows behind the prompt. -/
def screen (p : List Byte) (e : Editor) : Screen := row (p ++ e.before) e.after

end Editor

/-! ## The ring of lines -/

/-- A row of the history holds the line. -/
structure Stored (S : Setup) (m : Nat → Byte) (s : List Byte) : Prop where
  text : slice m 0 s.length = s
  last : m s.length = 0
  room : s.length < S.commandMaxLength
  plain : ∀ c ∈ s, Plain c
  nonempty : s ≠ []

/-- The row of the line that was stored `k` lines before the last one. -/
def rowOf (size slot k : Nat) : Nat := (slot + size - 1 - k) % size

/-- The rows hold the lines, the newest first. Outside the array nothing has changed. -/
structure HistoryIs (S : Setup) (rows₀ rows : Nat → Nat → Byte) (count flag : Nat) (offset : Int)
    (lines : List (List Byte)) (back slot : Nat) : Prop where
  countEq : count = lines.length
  flagEq : flag = slot
  offsetEq : offset = -(back : Int)
  backLe : back ≤ lines.length
  most : lines.length ≤ S.historyMaxNumber
  slotLt : slot < S.historyMaxNumber
  full : lines.length = S.historyMaxNumber ∨ slot = lines.length
  stored : ∀ k (hk : k < lines.length), Stored S (rows (rowOf S.historyMaxNumber slot k)) lines[k]
  outside : ∀ k j, S.historyMaxNumber ≤ k ∨ S.commandMaxLength ≤ j → rows k j = rows₀ k j

section Ring
variable {S : Setup} {rows₀ rows : Nat → Nat → Byte} {m : Nat → Byte} {count flag size slot k : Nat} {offset : Int}
  {lines : List (List Byte)} {back : Nat} {s : List Byte}

theorem Stored.string (h : Stored S m s) : cstring m 0 S.commandMaxLength = s :=
  cstring_eq h.text (Plain.noNul h.plain) (by rw [Nat.zero_add]; exact h.last) h.room

theorem stored_copy (m : Nat → Byte) (hplain : ∀ c ∈ s, Plain c) (hroom : s.length < S.commandMaxLength) (hs : s ≠ []) :
    Stored S (copyString m 0 s) s := by
  obtain ⟨htext, hend⟩ := slice_copyString m 0 s
  rw [Nat.zero_add] at hend
  exact ⟨htext, hend, hroom, hplain, hs⟩

theorem rowOf_eq (hslot : slot < size) (hk : k < size) :
    rowOf size slot k = if k < slot then slot - 1 - k else slot + size - 1 - k := by
  unfold rowOf
  split
  · rw [show slot + size - 1 - k = slot - 1 - k + size by omega, Nat.add_mod_right, Nat.mod_eq_of_lt (by omega)]
  · exact Nat.mod_eq_of_lt (by omega)

/-- The slot after the next one. -/
def nextSlot (size slot : Nat) : Nat := if size ≤ slot + 1 then 0 else slot + 1

theorem rowOf_next_zero (hslot : slot < size) : rowOf size (nextSlot size slot) 0 = slot := by
  have hnext : nextSlot size slot < size := by
    unfold nextSlot
    split <;> omega
  rw [rowOf_eq hnext (by omega)]
  unfold nextSlot
  split <;> split <;> omega

theorem rowOf_next_succ (hslot : slot < size) (hk : k + 1 < size) :
    rowOf size (nextSlot size slot) (k + 1) = rowOf size slot k ∧ rowOf size slot k ≠ slot := by
  have hnext : nextSlot size slot < size := by
    unfold nextSlot
    split <;> omega
  rw [rowOf_eq hnext hk, rowOf_eq hslot (by omega)]
  unfold nextSlot
  constructor
  · split <;> split <;> split <;> omega
  · split <;> omega

theorem HistoryIs.newest (h : HistoryIs S rows₀ rows count flag offset lines back slot) (hflag : flag ≠ 0) :
    lines.head? = some (cstring (rows (flag - 1)) 0 S.commandMaxLength) := by
  have hslot := h.slotLt
  obtain rfl := h.flagEq
  have hlines : 0 < lines.length := by
    rcases h.full with hfull | hfull
    · have hmost := h.most
      omega
    · omega
  have hrow : rowOf S.historyMaxNumber flag 0 = flag - 1 := by
    rw [rowOf_eq hslot (by omega), if_pos (by omega)]
    omega
  have hstored := h.stored 0 hlines
  rw [hrow] at hstored
  rw [hstored.string, List.head?_eq_getElem?, List.getElem?_eq_getElem hlines]

/-- A line stored in the next row. -/
theorem HistoryIs.push (h : HistoryIs S rows₀ rows count flag offset lines back slot)
    (hplain : ∀ c ∈ s, Plain c) (hroom : s.length < S.commandMaxLength) (hs : s ≠ []) :
    HistoryIs S rows₀ (Function.update rows flag (copyString (rows flag) 0 s))
      (if S.historyMaxNumber < count + 1 then S.historyMaxNumber else count + 1) (nextSlot S.historyMaxNumber slot) 0
      ((s :: lines).take S.historyMaxNumber) 0 (nextSlot S.historyMaxNumber slot) := by
  have hslot := h.slotLt
  have hmost := h.most
  have hfull := h.full
  have hcount := h.countEq
  obtain rfl := h.flagEq
  refine ⟨?_, rfl, by simp, Nat.zero_le _, ?_, ?_, ?_, fun k hk => ?_, fun k j hkj => ?_⟩
  · rw [List.length_take, List.length_cons, ← hcount]
    split <;> omega
  · exact List.length_take_le _ _
  · unfold nextSlot
    split <;> omega
  · rw [List.length_take, List.length_cons]
    unfold nextSlot
    split <;> omega
  · rw [List.length_take, List.length_cons] at hk
    rw [List.getElem_take]
    cases k with
    | zero =>
      rw [rowOf_next_zero hslot, Function.update_self]
      exact stored_copy _ hplain hroom hs
    | succ k =>
      obtain ⟨hrow, hne⟩ := rowOf_next_succ (k := k) hslot (by omega)
      rw [hrow, Function.update_of_ne hne]
      exact h.stored k (by omega)
  · by_cases hk : k = flag
    · subst hk
      rw [Function.update_self, copyString_out (by omega)]
      exact h.outside k j hkj
    · rw [Function.update_of_ne hk]
      exact h.outside k j hkj

theorem HistoryIs.fetched (h : HistoryIs S rows₀ rows count flag offset lines back slot) (hback : back ≠ 0) :
    Stored S (rows ((flag + S.historyMaxNumber + offset : Int).tmod S.historyMaxNumber).toNat)
      (lines.getD (back - 1) []) := by
  have hle := h.backLe
  have hmost := h.most
  have hslot := h.slotLt
  have hoffset := h.offsetEq
  obtain rfl := h.flagEq
  have hsum : (flag + S.historyMaxNumber + offset : Int) = ((flag + S.historyMaxNumber - 1 - (back - 1) : Nat) : Int) := by
    omega
  have hrow : ((flag + S.historyMaxNumber + offset : Int).tmod S.historyMaxNumber).toNat =
      rowOf S.historyMaxNumber flag (back - 1) := by
    rw [hsum, Int.tmod_eq_emod_of_nonneg (Int.natCast_nonneg _)]
    rfl
  have hstored := h.stored (back - 1) (by omega)
  rw [hrow, List.getD_eq_getElem?_getD, List.getElem?_eq_getElem (by omega), Option.getD_some]
  exact hstored

end Ring

end WmIot.Cli
