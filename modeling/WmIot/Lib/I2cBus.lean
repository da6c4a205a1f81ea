import Mathlib

/-!
# Transactions on an I2C bus

The levels of SCL and SDA, read as symbols: SDA changes while SCL is high at a START or a STOP, and a
clock pulse in which it does not change is a bit. A transaction is rendered from what its master does
and from the bits of the slave; the slave's bits are counted over the clock pulses that are its own.
-/

namespace WmIot.I2cBus
set_option autoImplicit false

inductive Sym where
  | start
  | stop
  | bit (b : Bool)
deriving DecidableEq, Repr

/-- The levels of the lines and the symbols so far; `clean` says that SCL is high and SDA has not
changed since it rose. -/
structure Bus where
  scl : Bool
  sda : Bool
  clean : Bool
  symbols : List Sym
deriving DecidableEq, Repr

/-- Both lines are high, and there was a STOP. -/
def Bus.idle (symbols : List Sym) : Bus := ⟨true, true, false, symbols⟩

/-- The next levels. -/
def Bus.see (b : Bus) (scl sda : Bool) : Bus :=
  match b.scl, scl with
  | true, true =>
    if b.sda = sda then b
    else ⟨true, sda, false, b.symbols ++ [if sda then .stop else .start]⟩
  | true, false => ⟨false, sda, false, b.symbols ++ if b.clean then [.bit b.sda] else []⟩
  | false, true => ⟨true, sda, true, b.symbols⟩
  | false, false => ⟨false, sda, false, b.symbols⟩

/-- The most significant bit first. -/
def bits (data : UInt8) : List Bool :=
  [7, 6, 5, 4, 3, 2, 1, 0].map fun i => data.toNat.testBit i

/-- What a master does between the idle bus and the STOP; the last byte it reads is not acknowledged. -/
inductive Item where
  | start
  | write (data : UInt8)
  | read (last : Bool)
deriving DecidableEq, Repr

variable (slave : Nat → Bool)

/-- Eight bits of the slave. -/
def slaveBits (p : Nat) : List Bool := (List.range 8).map fun i => slave (p + i)

/-- The symbols of a transaction, with the next bit of the slave. -/
def render : Nat → List Item → List Sym
  | _, [] => []
  | p, .start :: items => .start :: render p items
  | p, .write data :: items => (bits data).map .bit ++ .bit (slave p) :: render (p + 1) items
  | p, .read last :: items => (slaveBits slave p).map .bit ++ .bit last :: render (p + 8) items

/-- A written byte is not acknowledged. -/
def Nacked : Nat → List Item → Prop
  | _, [] => False
  | p, .start :: items => Nacked p items
  | p, .write _ :: items => slave p = true ∨ Nacked (p + 1) items
  | p, .read _ :: items => Nacked (p + 8) items

/-- The bytes are those that the slave sends. -/
def Received : Nat → List Item → List UInt8 → Prop
  | _, [], bytes => bytes = []
  | p, .start :: items, bytes => Received p items bytes
  | p, .write _ :: items, bytes => Received (p + 1) items bytes
  | p, .read _ :: items, bytes =>
    ∃ b rest, bytes = b :: rest ∧ bits b = slaveBits slave p ∧ Received (p + 8) items rest

/-- The transaction up to its end, or to a byte behind which or before which one was not acknowledged,
then a STOP that leaves the bus idle. -/
def Legal (items : List Item) (bus : Bus) : Prop :=
  ∃ done, done <+: items ∧ (done = items ∨ Nacked slave 0 done) ∧
    bus = .idle (render slave 0 done ++ [.stop])

/-- A STOP where the first byte should be acknowledged is no transaction. -/
theorem not_legal_of_stop {data : UInt8} {items : List Item} {bus : Bus} {rest : List Sym}
    (h : bus.symbols = .start :: (bits data).map .bit ++ .stop :: rest) :
    ¬ Legal slave (.start :: .write data :: items) bus := by
  rintro ⟨done, hprefix, -, hbus⟩
  rw [hbus] at h
  have hsym : render slave 0 done ++ [Sym.stop] = .start :: (bits data).map .bit ++ .stop :: rest := h
  cases done with
  | nil => cases hsym
  | cons item done =>
    obtain ⟨rfl, hrest⟩ := List.cons_prefix_cons.mp hprefix
    cases done with
    | nil => cases hsym
    | cons item done =>
      obtain ⟨rfl, -⟩ := List.cons_prefix_cons.mp hrest
      cases hsym

end WmIot.I2cBus
