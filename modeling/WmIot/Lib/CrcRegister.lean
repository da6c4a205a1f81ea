import Mathlib

/-!
# The remainder register of a CRC

A register of `w` bits with the remainder so far, the most significant bit first.
-/

namespace WmIot.CrcRegister
set_option autoImplicit false

variable {w : Nat} (poly : BitVec w)

/-- One bit of the message. -/
def shift (r : BitVec w) (bit : Bool) : BitVec w :=
  if r.msb ^^ bit then (r <<< 1) ^^^ poly else r <<< 1

/-- A byte, its most significant bit first. -/
def step (r : BitVec w) (b : BitVec 8) : BitVec w :=
  ((List.range 8).map fun i => b.getMsbD i).foldl (shift poly) r

def run (r : BitVec w) (bytes : List (BitVec 8)) : BitVec w := bytes.foldl (step poly) r

theorem run_append (r : BitVec w) (xs ys : List (BitVec 8)) :
    run poly r (xs ++ ys) = run poly (run poly r xs) ys := List.foldl_append

/-- The bits in the order in which they are shown. -/
def view (reversed : Bool) (r : BitVec w) : BitVec w := if reversed then r.reverse else r

@[simp] theorem view_view (reversed : Bool) (r : BitVec w) : view reversed (view reversed r) = r := by
  cases reversed with
  | false => rfl
  | true => simp [view]

end WmIot.CrcRegister
