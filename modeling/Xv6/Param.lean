import Mathlib

/-!
# Kernel parameters

The constants of `kernel/param.h`, `kernel/fs.h` and `kernel/proc.c` that the model uses, under
the names the source gives them, and the wrap-around of `int`.
-/

namespace Xv6

/-- Maximum number of processes. -/
abbrev NPROC : ℕ := 64

instance neZero_nproc : NeZero NPROC := ⟨by decide⟩

/-- Maximum number of CPUs. -/
abbrev NCPU : ℕ := 8

/-- Maximum number of blocks any file-system operation writes. -/
abbrev MAXOPBLOCKS : ℕ := 10

/-- Maximum number of data blocks in the on-disk log. -/
abbrev LOGSIZE : ℕ := MAXOPBLOCKS * 3

/-- Block size in bytes. -/
abbrev BSIZE : ℕ := 1024

/-- The value an `int` has after an operation whose exact result is `x`. -/
def wrapInt (x : ℤ) : ℤ := x.bmod (2 ^ 32)

theorem wrapInt_of_lt {x : ℤ} (h₀ : -2 ^ 31 ≤ x) (h₁ : x < 2 ^ 31) : wrapInt x = x := by
  unfold wrapInt
  rw [Int.bmod_eq_of_le] <;> omega

end Xv6
