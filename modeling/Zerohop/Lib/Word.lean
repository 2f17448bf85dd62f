/-
# Words of 64 bits as numbers

A counter or an index of 64 bits is a natural number below 2^64; going past
either end wraps.
-/
import Mathlib.Algebra.Ring.Nat
import Mathlib.Tactic.Common

namespace Zerohop

/-- `+ 1` on a 64-bit word. -/
def wrappingSucc (x : ℕ) : ℕ := (x + 1) % 2 ^ 64

/-- `- 1` on a 64-bit word. -/
def wrappingPred (x : ℕ) : ℕ := (x + (2 ^ 64 - 1)) % 2 ^ 64

theorem wrappingSucc_of_lt {x : ℕ} (h : x + 1 < 2 ^ 64) : wrappingSucc x = x + 1 :=
  Nat.mod_eq_of_lt h

theorem wrappingPred_of_pos {x : ℕ} (h : 0 < x) (hx : x < 2 ^ 64) : wrappingPred x = x - 1 := by
  have hsum : x + (2 ^ 64 - 1) = x - 1 + 2 ^ 64 := by omega
  calc wrappingPred x = (x - 1 + 2 ^ 64) % 2 ^ 64 := congrArg (· % 2 ^ 64) hsum
    _ = (x - 1) % 2 ^ 64 := Nat.add_mod_right _ _
    _ = x - 1 := Nat.mod_eq_of_lt (by omega)

/-- The parity changes with every step, also where the word wraps. -/
theorem wrappingSucc_mod_two (x : ℕ) : wrappingSucc x % 2 = (x + 1) % 2 :=
  Nat.mod_mod_of_dvd _ ⟨2 ^ 63, rfl⟩

theorem wrappingSucc_mod (x : ℕ) : wrappingSucc (x % 2 ^ 64) = (x + 1) % 2 ^ 64 :=
  Nat.mod_add_mod x (2 ^ 64) 1

end Zerohop
