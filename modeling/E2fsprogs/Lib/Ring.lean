import Mathlib

/-!
# Positions on a circular log

A circular log is an interval `[first, first + len)` of block numbers in which
the block after the last one is the first. `E2fsprogs.ringPos first len start k` is
the block reached from `start` after `k` steps, in closed form.

A program does not compute remainders: it adds, and subtracts `len` once when it
has run past the end. `E2fsprogs.ringPos_add` says that this is the same thing as
long as it adds at most `len`.
-/

namespace E2fsprogs

/-- The block `k` steps after `start` on the circle `[first, first + len)`. -/
def ringPos (first len start k : ℕ) : ℕ := first + (start - first + k) % len

variable {first len start : ℕ}

theorem ringPos_zero (h1 : first ≤ start) (h2 : start < first + len) :
    ringPos first len start 0 = start := by
  rw [ringPos, Nat.add_zero, Nat.mod_eq_of_lt (by omega)]
  omega

theorem first_le_ringPos (k : ℕ) : first ≤ ringPos first len start k := Nat.le_add_right _ _

theorem ringPos_lt (hlen : 0 < len) (k : ℕ) : ringPos first len start k < first + len :=
  Nat.add_lt_add_left (Nat.mod_lt _ hlen) _

/-- **One subtraction is enough**: going on by at most one turn lands where adding
and wrapping once does. -/
theorem ringPos_add (hlen : 0 < len) (k : ℕ) {m : ℕ} (hm : m ≤ len) :
    ringPos first len start (k + m) =
      if first + len ≤ ringPos first len start k + m then ringPos first len start k + m - len
      else ringPos first len start k + m := by
  have hlt : (start - first + k) % len < len := Nat.mod_lt _ hlen
  have hmod : (start - first + (k + m)) % len = ((start - first + k) % len + m) % len := by
    rw [Nat.mod_add_mod, Nat.add_assoc]
  unfold ringPos
  rw [hmod]
  generalize (start - first + k) % len = y at hlt
  split
  · rw [Nat.mod_eq_sub_mod (by omega), Nat.mod_eq_of_lt (by omega)]
    omega
  · rw [Nat.mod_eq_of_lt (by omega)]
    omega

end E2fsprogs
