import Mdict.Error
import Mdict.Lib.Bytes

/-!
This module contains the operations that the program leaves to its build to check: to subtract too
much, to divide by zero and to index or slice out of range is a panic.
-/

namespace Mdict

open Effect

/-- `a - b` -/
def subtract (a b : Nat) : Except Error Nat :=
  okOr (checkedSub a b) (.panic "attempt to subtract with overflow")

/-- `a / b` -/
def divide (a b : Nat) : Except Error Nat := do
  failIf (b = 0) (.panic "attempt to divide by zero")
  return a / b

/-- `output[start..stop].copy_from_slice(&bytes[from..to])` -/
def copyFromSlice (output : Bytes) (start stop : Nat) (bytes : Bytes) (first last : Nat)
    : Except Error Bytes := do
  let target ← okOr (output.get? start stop) (.panic "range out of bounds")
  let source ← okOr (bytes.get? first last) (.panic "range out of bounds")
  failIf (target.length ≠ source.length) (.panic "source and destination lengths differ")
  return output.take start ++ source ++ output.drop stop

/-- `values[i]` -/
def indexed {α : Type} (values : Array α) (i : Nat) : Except Error α :=
  okOr values[i]? (.panic "index out of bounds")

theorem subtract_of_le {a b : Nat} (h : b ≤ a) : subtract a b = .ok (a - b) := by
  rw [subtract, okOr_eq_ok, checkedSub_eq_some]
  exact ⟨h, rfl⟩

theorem divide_of_pos {a b : Nat} (h : 0 < b) : divide a b = .ok (a / b) := by
  rw [divide, failIf_of_not (by omega), except_ok_bind]
  rfl

theorem copyFromSlice_of_le {output bytes : Bytes} {start stop first last : Nat}
    (htarget : start ≤ stop ∧ stop ≤ output.length) (hsource : first ≤ last ∧ last ≤ bytes.length)
    (hlen : stop - start = last - first)
    : copyFromSlice output start stop bytes first last
        = .ok (output.take start ++ (bytes.drop first).take (last - first) ++ output.drop stop) := by
  unfold copyFromSlice
  rw [Bytes.get?, if_pos htarget, okOr_some, except_ok_bind, Bytes.get?, if_pos hsource, okOr_some,
    except_ok_bind, failIf_of_not, except_ok_bind]
  . rfl
  . simp only [List.length_take, List.length_drop]
    omega

theorem indexed_of_lt {α : Type} [Inhabited α] (values : Array α) {i : Nat}
    (h : i < values.size)
    : indexed values i = .ok values[i]! := by
  rw [indexed, getElem?_pos values i h, okOr_some, getElem!_pos values i h]

end Mdict
