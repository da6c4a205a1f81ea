import Mathlib

/-!
# CRC-32

The reflected CRC-32 with polynomial 0x04C11DB7, without a final inversion: the running
value of one call is the initial value of the next.
-/

namespace WmIot.Crc32
set_option autoImplicit false

def shift (c : BitVec 32) : BitVec 32 :=
  if c.getLsbD 0 then (c >>> 1) ^^^ 0xEDB88320#32 else c >>> 1

def step (c : BitVec 32) (b : BitVec 8) : BitVec 32 :=
  Nat.repeat shift 8 (c ^^^ b.setWidth 32)

def update (c : BitVec 32) (bytes : List (BitVec 8)) : BitVec 32 := bytes.foldl step c

@[simp] theorem update_append (c : BitVec 32) (xs ys : List (BitVec 8)) :
    update c (xs ++ ys) = update (update c xs) ys := List.foldl_append

example : update 0xFFFFFFFF#32 [0x31#8, 0x32#8, 0x33#8] = ~~~ 0x884863D2#32 := by decide +kernel

/-- `update` that skips zero bytes once the value is zero; on long runs of zeros it evaluates fast. -/
def updateSkip (c : BitVec 32) : List (BitVec 8) → BitVec 32
  | [] => c
  | b :: bs => if c = 0 ∧ b = 0 then updateSkip 0 bs else updateSkip (step c b) bs

theorem updateSkip_eq : updateSkip = update := by
  funext c bytes
  induction bytes generalizing c with
  | nil => rfl
  | cons b bs ih =>
    unfold updateSkip
    split
    next h =>
      rw [ih, h.1, h.2]
      rfl
    next =>
      rw [ih]
      rfl

end WmIot.Crc32
