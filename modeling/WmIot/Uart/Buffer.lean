import Mathlib

/-!
# The memory of a UART buffer
-/

namespace WmIot.Uart
set_option autoImplicit false

def bufBlockMaxSize : Nat := 64 * 1024

/-- `memcpy(buf + offset, data, …)` -/
def memcpy (buf : List UInt8) (offset : Nat) (data : List UInt8) : List UInt8 :=
  buf.take offset ++ data ++ buf.drop (offset + data.length)

section Memcpy
variable {buf data : List UInt8} {offset : Nat}

theorem memcpy_length (h : offset + data.length ≤ buf.length) :
    (memcpy buf offset data).length = buf.length := by
  simp [memcpy]
  omega

theorem memcpy_take (h : offset ≤ buf.length) :
    (memcpy buf offset data).take offset = buf.take offset := by
  rw [memcpy, List.append_assoc, List.take_left' (by simp [h])]

theorem memcpy_drop (h : offset ≤ buf.length) :
    ((memcpy buf offset data).drop offset).take data.length = data := by
  have hlen : (buf.take offset).length = offset := by simp [h]
  rw [memcpy, List.append_assoc, List.drop_left' hlen, List.take_left]

/-- The bytes up to the end of the copy are those before it and the copied ones. -/
theorem memcpy_take_end (h : offset ≤ buf.length) :
    (memcpy buf offset data).take (offset + data.length) = buf.take offset ++ data := by
  rw [List.take_add, memcpy_take h, memcpy_drop h]

end Memcpy

end WmIot.Uart
