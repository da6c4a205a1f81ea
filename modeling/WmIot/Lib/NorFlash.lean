import Mathlib

/-!
# NOR flash

A byte-addressed flash whose program operation can only clear bits and whose erase
operation sets a range to all ones. `replay` runs a list of operations; the content
after a power cut is the replay of a prefix of that list.
-/

namespace WmIot.NorFlash
set_option autoImplicit false

abbrev Byte := BitVec 8
abbrev Flash := Nat → Byte

/-- The value of an erased byte. -/
abbrev blank : Byte := 0xFF#8

inductive Op where
  | program (addr : Nat) (bytes : List Byte)
  | erase (addr len : Nat)
  deriving DecidableEq

/-- Programming ANDs the new bytes into the old content. -/
def program (f : Flash) (addr : Nat) (bytes : List Byte) : Flash := fun a =>
  if addr ≤ a ∧ a < addr + bytes.length then f a &&& bytes.getD (a - addr) blank else f a

def erase (f : Flash) (addr len : Nat) : Flash := fun a =>
  if addr ≤ a ∧ a < addr + len then blank else f a

def readBytes (f : Flash) (addr len : Nat) : List Byte := (List.range len).map fun k => f (addr + k)

def Op.apply (f : Flash) : Op → Flash
  | .program addr bytes => NorFlash.program f addr bytes
  | .erase addr len => NorFlash.erase f addr len

def replay (f : Flash) (ops : List Op) : Flash := ops.foldl Op.apply f

/-- The bytes an operation may change. -/
def Op.Touches : Op → Nat → Prop
  | .program addr bytes, a => addr ≤ a ∧ a < addr + bytes.length
  | .erase addr len, a => addr ≤ a ∧ a < addr + len

/-- Two contents that agree on `[lo, hi)`. -/
def AgreeOn (f g : Flash) (lo hi : Nat) : Prop := ∀ a, lo ≤ a → a < hi → f a = g a

def BlankOn (f : Flash) (lo hi : Nat) : Prop := ∀ a, lo ≤ a → a < hi → f a = blank

@[simp] theorem blank_and (b : Byte) : blank &&& b = b := by
  have h : blank = BitVec.allOnes 8 := by decide
  rw [h, BitVec.allOnes_and]

@[simp] theorem and_blank (b : Byte) : b &&& blank = b := by
  rw [BitVec.and_comm, blank_and]

@[simp] theorem replay_nil (f : Flash) : replay f [] = f := rfl

@[simp] theorem replay_cons (f : Flash) (op : Op) (ops : List Op) :
    replay f (op :: ops) = replay (op.apply f) ops := rfl

@[simp] theorem replay_append (f : Flash) (xs ys : List Op) :
    replay f (xs ++ ys) = replay (replay f xs) ys := List.foldl_append

@[simp] theorem readBytes_length (f : Flash) (addr len : Nat) :
    (readBytes f addr len).length = len := by simp [readBytes]

theorem readBytes_add (f : Flash) (addr m n : Nat) :
    readBytes f addr (m + n) = readBytes f addr m ++ readBytes f (addr + m) n := by
  rw [readBytes, List.range_add, List.map_append, List.map_map, readBytes, readBytes]
  congr 1
  exact List.map_congr_left fun k _ => congrArg f (Nat.add_assoc addr m k).symm

theorem readBytes_slice (f : Flash) (addr : Nat) {pos n len : Nat} (h : pos + n ≤ len) :
    ((readBytes f addr len).drop pos).take n = readBytes f (addr + pos) n := by
  obtain ⟨k, rfl⟩ := Nat.exists_eq_add_of_le h
  have hpos : (readBytes f addr pos).length = pos := readBytes_length f addr pos
  have hn : (readBytes f (addr + pos) n).length = n := readBytes_length f _ n
  rw [Nat.add_assoc, readBytes_add, List.drop_append_of_le_length (by omega), readBytes_add,
    List.drop_eq_nil_of_le (by omega), List.nil_append, List.take_append_of_le_length (by omega),
    List.take_of_length_le (by omega)]

theorem program_apply_out {f : Flash} {addr a : Nat} {bytes : List Byte}
    (h : a < addr ∨ addr + bytes.length ≤ a) : program f addr bytes a = f a := by
  unfold program
  rw [if_neg (by omega)]

theorem erase_apply_out {f : Flash} {addr len a : Nat} (h : a < addr ∨ addr + len ≤ a) :
    erase f addr len a = f a := by
  unfold erase
  rw [if_neg (by omega)]

theorem erase_blankOn (f : Flash) (addr len : Nat) : BlankOn (erase f addr len) addr (addr + len) := by
  intro a hlo hhi
  unfold erase
  rw [if_pos ⟨hlo, hhi⟩]

theorem program_on_blank {f : Flash} {addr : Nat} {bytes : List Byte}
    (h : BlankOn f addr (addr + bytes.length)) {k : Nat} (hk : k < bytes.length) :
    program f addr bytes (addr + k) = bytes.getD k blank := by
  unfold program
  rw [if_pos (by omega), h (addr + k) (by omega) (by omega), blank_and, Nat.add_sub_cancel_left]

/-- What is written to blank cells is read back. -/
theorem readBytes_program {f : Flash} {addr : Nat} {bytes : List Byte}
    (h : BlankOn f addr (addr + bytes.length)) :
    readBytes (program f addr bytes) addr bytes.length = bytes := by
  apply List.ext_getElem (by simp)
  intro k h₁ h₂
  simp only [readBytes, List.getElem_map, List.getElem_range]
  rw [program_on_blank h h₂]
  simp only [List.getD, List.getElem?_eq_getElem h₂, Option.getD_some]

namespace AgreeOn
variable {f g k : Flash} {lo hi : Nat}

theorem refl (f : Flash) (lo hi : Nat) : AgreeOn f f lo hi := fun _ _ _ => rfl

theorem symm (h : AgreeOn f g lo hi) : AgreeOn g f lo hi := fun a h₁ h₂ => (h a h₁ h₂).symm

theorem trans (h : AgreeOn f g lo hi) (h' : AgreeOn g k lo hi) : AgreeOn f k lo hi :=
  fun a h₁ h₂ => (h a h₁ h₂).trans (h' a h₁ h₂)

theorem mono (h : AgreeOn f g lo hi) {lo' hi' : Nat} (hlo : lo ≤ lo') (hhi : hi' ≤ hi) :
    AgreeOn f g lo' hi' := fun a h₁ h₂ => h a (by omega) (by omega)

theorem program {addr : Nat} {bytes : List Byte} (h : hi ≤ addr ∨ addr + bytes.length ≤ lo) :
    AgreeOn (NorFlash.program f addr bytes) f lo hi :=
  fun _ _ _ => program_apply_out (by omega)

theorem erase {addr len : Nat} (h : hi ≤ addr ∨ addr + len ≤ lo) :
    AgreeOn (NorFlash.erase f addr len) f lo hi :=
  fun _ _ _ => erase_apply_out (by omega)

theorem readBytes (h : AgreeOn f g lo hi) {addr len : Nat} (hlo : lo ≤ addr) (hhi : addr + len ≤ hi) :
    NorFlash.readBytes f addr len = NorFlash.readBytes g addr len := by
  apply List.map_congr_left
  intro k hk
  have hk' := List.mem_range.mp hk
  exact h _ (by omega) (by omega)

theorem blankOn (h : AgreeOn f g lo hi) (hb : BlankOn g lo hi) : BlankOn f lo hi :=
  fun a h₁ h₂ => (h a h₁ h₂).trans (hb a h₁ h₂)

end AgreeOn

theorem BlankOn.mono {f : Flash} {lo hi lo' hi' : Nat} (h : BlankOn f lo hi) (hlo : lo ≤ lo')
    (hhi : hi' ≤ hi) : BlankOn f lo' hi' := fun a h₁ h₂ => h a (by omega) (by omega)

/-- Operations that keep off a range leave its content as it was. -/
theorem replay_agreeOn (ops : List Op) (f : Flash) {lo hi : Nat}
    (h : ∀ op ∈ ops, ∀ a, lo ≤ a → a < hi → ¬ op.Touches a) : AgreeOn (replay f ops) f lo hi := by
  induction ops generalizing f with
  | nil => exact AgreeOn.refl f lo hi
  | cons op ops ih =>
    have hrest := ih (op.apply f) fun o ho => h o (List.mem_cons_of_mem op ho)
    apply hrest.trans
    intro a hlo hhi
    have hop := h op List.mem_cons_self a hlo hhi
    cases op with
    | program addr bytes =>
      simp only [Op.Touches] at hop
      exact program_apply_out (by omega)
    | erase addr len =>
      simp only [Op.Touches] at hop
      exact erase_apply_out (by omega)

/-! ## Power cuts -/

/-- The contents a power cut can leave: some operations are done, and the next one has changed what
it touches in any way. -/
inductive Cut : Flash → List Op → Flash → Prop where
  | done (f : Flash) : Cut f [] f
  | torn {f g : Flash} {op : Op} {ops : List Op} (h : ∀ a, ¬ op.Touches a → g a = f a) : Cut f (op :: ops) g
  | next {f g : Flash} {op : Op} {ops : List Op} (h : Cut (op.apply f) ops g) : Cut f (op :: ops) g

theorem Cut.start (f : Flash) (ops : List Op) : Cut f ops f := by
  cases ops with
  | nil => exact .done f
  | cons op ops => exact .torn fun _ _ => rfl

theorem Cut.after (f : Flash) (xs ys : List Op) : Cut f (xs ++ ys) (replay f xs) := by
  induction xs generalizing f with
  | nil => exact Cut.start f ys
  | cons op xs ih => exact .next (ih (op.apply f))

theorem Cut.split {f g : Flash} {xs ys : List Op} (h : Cut f (xs ++ ys) g) :
    Cut f xs g ∨ Cut (replay f xs) ys g := by
  induction xs generalizing f with
  | nil => exact Or.inr h
  | cons op xs ih =>
    cases h with
    | torn h => exact Or.inl (.torn h)
    | next h => exact (ih h).imp .next id

/-- Operations that keep off a range leave its content as it was, wherever they are cut. -/
theorem Cut.agreeOn {f g : Flash} {ops : List Op} (h : Cut f ops g) {lo hi : Nat}
    (hoff : ∀ op ∈ ops, ∀ a, lo ≤ a → a < hi → ¬ op.Touches a) : AgreeOn g f lo hi := by
  induction h with
  | done f => exact AgreeOn.refl f lo hi
  | torn h => exact fun a hlo hhi => h a (hoff _ List.mem_cons_self a hlo hhi)
  | @next f g op ops _ ih =>
    have hrest := ih fun o ho => hoff o (List.mem_cons_of_mem op ho)
    have hop : AgreeOn (replay f [op]) f lo hi := by
      apply replay_agreeOn
      intro o ho
      rw [List.mem_singleton.mp ho]
      exact hoff op List.mem_cons_self
    exact hrest.trans hop

end WmIot.NorFlash
