import Mathlib.Algebra.Group.Int.Defs
import Mathlib.Algebra.Group.Nat.Defs
import Mathlib.Tactic.Common

set_option autoImplicit false

/- The fixed-width arithmetic of the session: std::uint64_t, std::size_t and the
conversions between them and int. Values are naturals, every operation says
where it wraps. -/
namespace CurvecprAsio

/-- Addition of 64-bit unsigned values. -/
def add64 (a b : Nat) : Nat := (a + b) % 2 ^ 64

/-- Subtraction of 64-bit unsigned values. -/
def sub64 (a b : Nat) : Nat := (a + (2 ^ 64 - b % 2 ^ 64)) % 2 ^ 64

/-- The conversion of a 64-bit value to int. -/
def toInt (n : Nat) : Int :=
  if n % 2 ^ 32 < 2 ^ 31 then (n % 2 ^ 32 : Nat) else (n % 2 ^ 32 : Nat) - 2 ^ 32

/-- The conversion of an int to a 64-bit value. -/
def toSize (i : Int) : Nat := (i % 2 ^ 64).toNat

theorem add64_lt (a b : Nat) : add64 a b < 2 ^ 64 := Nat.mod_lt _ (by decide)

theorem add64_eq {a b : Nat} (fits : a + b < 2 ^ 64) : add64 a b = a + b :=
  Nat.mod_eq_of_lt fits

/-- A sum that does not fit ends up below either operand. -/
theorem add64_wraps {a b : Nat} (ha : a < 2 ^ 64) (hb : b < 2 ^ 64)
    (overflow : 2 ^ 64 ≤ a + b) : add64 a b + 2 ^ 64 = a + b := by
  unfold add64
  omega

theorem sub64_eq {a b : Nat} (ordered : b ≤ a) (fits : a < 2 ^ 64) : sub64 a b = a - b := by
  unfold sub64
  omega

theorem toSize_lt (i : Int) : toSize i < 2 ^ 64 := by
  unfold toSize
  omega

theorem toInt_eq {n : Nat} (fits : n < 2 ^ 31) : toInt n = n := by
  have small : n % 2 ^ 32 = n := Nat.mod_eq_of_lt (by omega)
  rw [toInt, small, if_pos fits]

theorem toSize_natCast {n : Nat} (fits : n < 2 ^ 64) : toSize n = n := by
  unfold toSize
  omega

/-- A value that fits in int comes back unchanged. -/
theorem toSize_toInt {n : Nat} (fits : n < 2 ^ 31) : toSize (toInt n) = n := by
  rw [toInt_eq fits]
  exact toSize_natCast (by omega)

end CurvecprAsio
