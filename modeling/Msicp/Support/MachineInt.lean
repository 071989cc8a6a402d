import Mathlib.Data.Int.Basic
import Mathlib.Tactic.Ring

/-!
# Machine integers as naturals and integers

Unsigned words of `w` bits are naturals below `2 ^ w` with wrap-around written
out; signed 32-bit integers are integers brought back into range.
-/

namespace Msicp.Support

/-- Unsigned addition on `w` bits. -/
def uadd (w a b : ℕ) : ℕ := (a + b) % 2 ^ w

/-- Unsigned subtraction on `w` bits. -/
def usub (w a b : ℕ) : ℕ := (a + 2 ^ w - b) % 2 ^ w

theorem uadd_of_lt {w a b : ℕ} (h : a + b < 2 ^ w) : uadd w a b = a + b :=
  Nat.mod_eq_of_lt h

theorem usub_of_le {w a b : ℕ} (hba : b ≤ a) (ha : a < 2 ^ w) : usub w a b = a - b := by
  have hsplit : a + 2 ^ w - b = a - b + 2 ^ w := by omega
  rw [usub, hsplit, Nat.add_mod_right]
  exact Nat.mod_eq_of_lt (by omega)

theorem uadd_lt (w a b : ℕ) : uadd w a b < 2 ^ w :=
  Nat.mod_lt _ (Nat.two_pow_pos w)

end Msicp.Support
