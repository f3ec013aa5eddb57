import Mathlib.Tactic

/-!
# Libs/Defs — `libs/defs.h`, `libs/error.h` and `kern/debug/assert.h`

Unsigned values are natural numbers below their width; the conversions that the source makes are
`u32` and `u64`.  An `int` is an integer, and an error is returned as its negated code.
-/

namespace UCore

/-- Conversion to `unsigned int`. -/
def u32 (n : ℕ) : ℕ := n % 2 ^ 32

/-- Conversion to `uint64_t`. -/
def u64 (n : ℕ) : ℕ := n % 2 ^ 64

/-- Conversion of an integer to `uint64_t`. -/
def toU64 (n : ℤ) : ℕ := (n % 2 ^ 64).toNat

/-- Conversion to `int64_t`. -/
def toS64 (n : ℤ) : ℤ := n.bmod (2 ^ 64)

/-- Conversion to `int`. -/
def toS32 (n : ℤ) : ℤ := n.bmod (2 ^ 32)

/-- `ROUNDDOWN`. -/
def roundDown (a n : ℕ) : ℕ := a - a % n

/-- `ROUNDUP`, on 64-bit values: the sum wraps before it is rounded down. -/
def roundUp (a n : ℕ) : ℕ := roundDown (u64 (a + n - 1)) n

/-- `ROUNDUP_DIV`. -/
def roundUpDiv (a n : ℕ) : ℕ := u64 (a + n - 1) / n

/-- `PGSIZE`. -/
abbrev PGSIZE : ℕ := 4096

/-- How a call fails to return: a failed assertion, or a loop that does not end. -/
inductive Stop where
  | panic
  | spin
  deriving DecidableEq, Repr

theorem u32_of_lt {n : ℕ} (h : n < 2 ^ 32) : u32 n = n := Nat.mod_eq_of_lt h

theorem u32_lt (n : ℕ) : u32 n < 2 ^ 32 := Nat.mod_lt _ (by norm_num)

theorem u64_of_lt {n : ℕ} (h : n < 2 ^ 64) : u64 n = n := Nat.mod_eq_of_lt h

theorem u64_lt (n : ℕ) : u64 n < 2 ^ 64 := Nat.mod_lt _ (by norm_num)

theorem toS32_of_mem {n : ℤ} (hlo : -2 ^ 31 ≤ n) (hhi : n < 2 ^ 31) : toS32 n = n := by
  rw [toS32, Int.bmod_eq_of_le] <;> omega

theorem toS64_of_mem {n : ℤ} (hlo : -2 ^ 63 ≤ n) (hhi : n < 2 ^ 63) : toS64 n = n := by
  rw [toS64, Int.bmod_eq_of_le] <;> omega

theorem toS64_le {n : ℤ} (h : 0 ≤ n) : toS64 n ≤ n := by
  rw [toS64, Int.bmod_def]
  split <;> omega

theorem toS32_lt (n : ℤ) : toS32 n < 2 ^ 31 := by
  have := Int.bmod_lt (x := n) (show 0 < 2 ^ 32 by norm_num)
  unfold toS32
  omega

theorem roundDown_le (a n : ℕ) : roundDown a n ≤ a := Nat.sub_le _ _

theorem dvd_roundDown (a n : ℕ) : n ∣ roundDown a n := Nat.dvd_sub_mod a

theorem lt_roundDown_add {a n : ℕ} (hn : 0 < n) : a < roundDown a n + n := by
  have := Nat.mod_lt a hn
  have := Nat.mod_le a n
  unfold roundDown
  omega

end UCore
