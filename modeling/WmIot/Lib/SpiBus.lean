import Mathlib

/-!
# The lines of an SPI bus

Clock, MOSI and CS as a master drives them, and a slave that is selected while CS is low. An edge of the clock away
from its idle level is a leading one, and one back to it a trailing one. The slave samples MOSI at one kind and
changes MISO at the other.
-/

namespace WmIot.SpiBus
set_option autoImplicit false

/-- The idle level of the clock, and whether MISO changes at leading edges. -/
structure Mode where
  cpol : Bool
  cpha : Bool

structure Bus where
  clk : Bool
  mosi : Bool
  cs : Bool
  /-- what the slave has sampled, and how often it has changed MISO -/
  sampled : List Bool
  place : Nat
  /-- the level of the clock at each change of CS -/
  changes : List Bool

variable {m : Mode} {bus : Bus} {b : Bool}

def Bus.setMosi (bus : Bus) (b : Bool) : Bus := { bus with mosi := b }

def Bus.setCs (bus : Bus) (b : Bool) : Bus :=
  { bus with cs := b, changes := if bus.cs = b then bus.changes else bus.changes ++ [bus.clk] }

def Bus.setClk (m : Mode) (bus : Bus) (b : Bool) : Bus :=
  if bus.clk = b ∨ bus.cs = true then { bus with clk := b }
  else if (b == m.cpol) == m.cpha then { bus with clk := b, sampled := bus.sampled ++ [bus.mosi] }
  else { bus with clk := b, place := bus.place + 1 }

/-- MISO, where the slave gives a bit after each change; without `cpha` the first one is there from the start. -/
def Bus.miso (m : Mode) (bits : Nat → Bool) (bus : Bus) : Bool :=
  if m.cpha then bits (bus.place - 1) else bits bus.place

/-- An edge that the slave sees back to the idle level. -/
theorem setClk_trailing (bus : Bus) (hcs : bus.cs = false) (hclk : bus.clk ≠ m.cpol) : bus.setClk m m.cpol =
    if m.cpha then { bus with clk := m.cpol, sampled := bus.sampled ++ [bus.mosi] }
    else { bus with clk := m.cpol, place := bus.place + 1 } := by
  rw [Bus.setClk, if_neg (by rw [hcs]; exact fun h => h.elim hclk Bool.noConfusion)]
  cases m.cpha <;> simp

theorem setClk_leading (bus : Bus) (hcs : bus.cs = false) (hclk : bus.clk = m.cpol) : bus.setClk m (!m.cpol) =
    if m.cpha then { bus with clk := !m.cpol, place := bus.place + 1 }
    else { bus with clk := !m.cpol, sampled := bus.sampled ++ [bus.mosi] } := by
  rw [Bus.setClk, if_neg (by rw [hcs, hclk]; exact fun h => h.elim (by cases m.cpol <;> decide) Bool.noConfusion)]
  cases m.cpha <;> cases m.cpol <;> rfl

/-- One bit in both directions. -/
def Bus.exchanged (bus : Bus) (b : Bool) : Bus :=
  { bus with mosi := b, sampled := bus.sampled ++ [b], place := bus.place + 1 }

/-- A pulse of the clock is a bit in both directions, where MISO is read between the edges without `cpha`, and behind
them with it. -/
theorem pulse (bits : Nat → Bool) (hcs : bus.cs = false) (hclk : bus.clk = m.cpol) (b : Bool) :
    ((bus.setMosi b).setClk m (!m.cpol)).setClk m m.cpol = bus.exchanged b ∧
      (if m.cpha then (bus.exchanged b).miso m bits else ((bus.setMosi b).setClk m (!m.cpol)).miso m bits) =
        bits bus.place := by
  have hne : (!m.cpol) ≠ m.cpol := by cases m.cpol <;> decide
  rw [setClk_leading (bus.setMosi b) hcs hclk]
  cases hpha : m.cpha with
  | false =>
    rw [if_neg Bool.false_ne_true, setClk_trailing, hpha]
    · simp [Bus.exchanged, Bus.setMosi, Bus.miso, hpha, hclk]
    · exact hcs
    · exact hne
  | true =>
    rw [if_pos rfl, setClk_trailing, hpha]
    · simp [Bus.exchanged, Bus.setMosi, Bus.miso, hpha, hclk]
    · exact hcs
    · exact hne

/-! ### Changes of CS -/

/-- CS has changed with an idle clock only. -/
def ChangesIdle (m : Mode) (bus bus' : Bus) : Prop :=
  ∃ changes, bus'.changes = bus.changes ++ changes ∧ ∀ c ∈ changes, c = m.cpol

section
variable {bus' bus'' : Bus}

theorem changesIdle_of_eq (h : bus'.changes = bus.changes) : ChangesIdle m bus bus' :=
  ⟨[], h.trans (List.append_nil _).symm, fun _ hc => absurd hc List.not_mem_nil⟩

theorem ChangesIdle.trans (h : ChangesIdle m bus bus') (h' : ChangesIdle m bus' bus'') : ChangesIdle m bus bus'' := by
  obtain ⟨changes, heq, hall⟩ := h
  obtain ⟨changes', heq', hall'⟩ := h'
  refine ⟨changes ++ changes', by rw [heq', heq, List.append_assoc], fun c hc => ?_⟩
  exact (List.mem_append.mp hc).elim (hall c) (hall' c)

theorem changesIdle_setCs (h : bus.clk = m.cpol) (b : Bool) : ChangesIdle m bus (bus.setCs b) := by
  rw [Bus.setCs]
  split
  · exact changesIdle_of_eq rfl
  · exact ⟨[bus.clk], rfl, fun c hc => (List.mem_singleton.mp hc).trans h⟩

end

/-! ### Bytes -/

abbrev Byte := BitVec 8

/-- The bits of a byte in the order of the bus. -/
def order (bigEndian : Bool) (x : Byte) : List Bool :=
  (List.range 8).map fun i => x.getLsbD (if bigEndian then 7 - i else i)

theorem length_order (bigEndian : Bool) (x : Byte) : (order bigEndian x).length = 8 := by
  rw [order, List.length_map, List.length_range]

theorem length_flatMap_order (bigEndian : Bool) (l : List Byte) : (l.flatMap (order bigEndian)).length = 8 * l.length := by
  induction l with
  | nil => rfl
  | cons x l ih =>
    rw [List.flatMap_cons, List.length_append, length_order, ih, List.length_cons]
    omega

end WmIot.SpiBus
