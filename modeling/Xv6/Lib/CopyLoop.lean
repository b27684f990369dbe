import Mathlib

/-!
# Loops that copy a range of memory

A range may be copied from its first cell on or from its last one down, and the two ranges may
overlap. Pointers are bit vectors, so that a range may also go around. A loop is right if no cell is
read after it has been written, which depends only on how far the two ranges are apart.
-/

namespace Xv6

open Function (update update_self update_of_ne)

section CopyLoop

variable {α : Type*} {n : ℕ} {d s : BitVec 64} {m : BitVec 64 → α}

/-- `while(n-- > 0) *d++ = *s++;` -/
def copyUp : ℕ → BitVec 64 → BitVec 64 → (BitVec 64 → α) → BitVec 64 → α
  | 0, _, _, m => m
  | n + 1, d, s, m => copyUp n (d + 1) (s + 1) (update m d (m s))

/-- `while(n-- > 0) *--d = *--s;` -/
def copyDown : ℕ → BitVec 64 → BitVec 64 → (BitVec 64 → α) → BitVec 64 → α
  | 0, _, _, m => m
  | n + 1, d, s, m => copyDown n (d - 1) (s - 1) (update m (d - 1) (m (s - 1)))

/-- The `n` cells from `s` on are copied to `d`. -/
def moved (n : ℕ) (d s : BitVec 64) (m : BitVec 64 → α) : BitVec 64 → α :=
  fun p => if (p - d).toNat < n then m (s + (p - d)) else m p

/-- The first cell is copied before the others. -/
theorem moved_first (hn : n < 2 ^ 64) (h : (d - s).toNat = 0 ∨ n < (d - s).toNat) :
    moved n (d + 1) (s + 1) (update m d (m s)) = moved (n + 1) d s m := by
  funext p
  rw [moved, moved]
  by_cases hp : p = d
  · have hs : s + (p - d) = s := by bv_omega
    rw [if_neg (by bv_omega), if_pos (by bv_omega), hs, hp, update_self]
  · have hs : s + 1 + (p - (d + 1)) = s + (p - d) := by bv_omega
    rw [hs, update_of_ne hp]
    by_cases hlt : (p - (d + 1)).toNat < n
    · have hne : s + (p - d) ≠ d := by bv_omega
      rw [if_pos hlt, if_pos (by bv_omega), update_of_ne hne]
    · rw [if_neg hlt, if_neg (by bv_omega)]

/-- The last cell is copied before the others. -/
theorem moved_last (hn : n < 2 ^ 64) (h : (s - d).toNat = 0 ∨ n < (s - d).toNat) :
    moved n d s (update m (d + .ofNat 64 n) (m (s + .ofNat 64 n))) = moved (n + 1) d s m := by
  funext p
  rw [moved, moved]
  by_cases hp : p = d + .ofNat 64 n
  · have hs : p - d = .ofNat 64 n := by bv_omega
    rw [if_neg (by bv_omega), if_pos (by bv_omega), hs, hp, update_self]
  · rw [update_of_ne hp]
    by_cases hlt : (p - d).toNat < n
    · have hne : s + (p - d) ≠ d + .ofNat 64 n := by bv_omega
      rw [if_pos hlt, if_pos (by omega), update_of_ne hne]
    · rw [if_neg hlt, if_neg (by bv_omega)]

theorem copyUp_eq (hn : n ≤ 2 ^ 64) (h : (d - s).toNat = 0 ∨ n ≤ (d - s).toNat) :
    copyUp n d s m = moved n d s m := by
  induction n generalizing d s m with
  | zero => rfl
  | succ n ih =>
    have hdist : d + 1 - (s + 1) = d - s := by bv_omega
    rw [copyUp, ih (by omega) (by rw [hdist]; omega), moved_first (by omega) (by omega)]

theorem copyDown_eq (hn : n ≤ 2 ^ 64) (h : (s - d).toNat = 0 ∨ n ≤ (s - d).toNat) :
    copyDown n (d + .ofNat 64 n) (s + .ofNat 64 n) m = moved n d s m := by
  induction n generalizing m with
  | zero => rfl
  | succ n ih =>
    have hpred (p : BitVec 64) : p + .ofNat 64 (n + 1) - 1 = p + .ofNat 64 n := by bv_omega
    rw [copyDown, hpred, hpred, ih (by omega) (by omega), moved_last (by omega) (by omega)]

end CopyLoop

end Xv6
