/-
# C integers in `ℤ`

An `int` is an integer; an operation of the program that may leave its range
is wrapped by `int32`. Sums and products can be wrapped once, at the end. A
value that is converted to `size_t` is taken modulo 2^64 (`toSize`).
-/
import Mathlib.Tactic

namespace CInt

/-- The two's complement 32-bit value of `x`. -/
def int32 (x : ℤ) : ℤ := (x + 2147483648) % 4294967296 - 2147483648

/-- The values of a 32-bit `int`. -/
def IsInt32 (x : ℤ) : Prop := -2147483648 ≤ x ∧ x < 2147483648

instance (x : ℤ) : Decidable (IsInt32 x) := by unfold IsInt32; infer_instance

/-- The `size_t` value of `x`. -/
def toSize (x : ℤ) : ℕ := (x % 18446744073709551616).toNat

theorem int32_eq {x : ℤ} (h : IsInt32 x) : int32 x = x := by
  unfold int32 IsInt32 at *; omega

/-- A value is unchanged exactly when it is an `int`. -/
theorem int32_eq_iff {x : ℤ} : int32 x = x ↔ IsInt32 x := by
  unfold int32 IsInt32; omega

theorem int32_int32_add (x y : ℤ) : int32 (int32 x + y) = int32 (x + y) := by
  unfold int32; omega

theorem int32_add_int32 (x y : ℤ) : int32 (x + int32 y) = int32 (x + y) := by
  unfold int32; omega

end CInt
