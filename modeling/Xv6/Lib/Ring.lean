import Mathlib.Data.Nat.ModEq

/-!
# Rings with free-running positions

A producer writes entries to an array of `n` places, a consumer reads them, and each has a position:
a machine word that goes up by one with each entry and is taken modulo `n` only to index the array.
What has been written and not yet read is a list. It is as long as the positions are apart, also
when one of them has overflowed and the other has not.
-/

namespace Xv6

variable {α : Type*} {w n : ℕ} {ring : ℕ → α} {lo hi : BitVec w}

/-- The entries from position `lo` on, up to position `hi`. -/
def window (n : ℕ) (ring : ℕ → α) (lo hi : BitVec w) : List α :=
  (List.range (hi - lo).toNat).map fun j => ring ((lo.toNat + j) % n)

@[simp] theorem length_window (n : ℕ) (ring : ℕ → α) (lo hi : BitVec w) :
    (window n ring lo hi).length = (hi - lo).toNat := by
  simp [window]

@[simp] theorem window_self (n : ℕ) (ring : ℕ → α) (lo : BitVec w) : window n ring lo lo = [] := by
  simp [window]

theorem toNat_succ (lo : BitVec w) : (lo + 1).toNat = (lo.toNat + 1) % 2 ^ w := by
  rw [BitVec.toNat_add]
  exact Nat.add_mod_mod _ _ _

/-- Positions that overflow are in the right place. -/
theorem toNat_succ_add_mod (hn : n ∣ 2 ^ w) (lo : BitVec w) (j : ℕ) :
    ((lo + 1).toNat + j) % n = (lo.toNat + (j + 1)) % n := by
  rw [toNat_succ, Nat.add_mod, Nat.mod_mod_of_dvd _ hn, ← Nat.add_mod, Nat.add_assoc,
    Nat.add_comm 1]

/-- How far apart the positions are. -/
theorem toNat_sub_eq (lo hi : BitVec w) : (hi - lo).toNat =
    if lo.toNat ≤ hi.toNat then hi.toNat - lo.toNat else 2 ^ w + hi.toNat - lo.toNat := by
  have hlo := lo.isLt
  have hhi := hi.isLt
  rw [BitVec.toNat_sub]
  split_ifs with hle
  · rw [Nat.mod_eq_sub_mod (by omega), Nat.mod_eq_of_lt (by omega)]
    omega
  · rw [Nat.mod_eq_of_lt (by omega)]
    omega

theorem toNat_succ_eq (lo : BitVec w) :
    (lo + 1).toNat = if lo.toNat + 1 = 2 ^ w then 0 else lo.toNat + 1 := by
  have hlo := lo.isLt
  rw [toNat_succ]
  split_ifs with he
  · rw [he, Nat.mod_self]
  · exact Nat.mod_eq_of_lt (by omega)

theorem toNat_sub_succ (h : lo ≠ hi) : (hi - lo).toNat = (hi - (lo + 1)).toNat + 1 := by
  have hlo := lo.isLt
  have hhi := hi.isLt
  have hne : lo.toNat ≠ hi.toNat := fun he => h (BitVec.eq_of_toNat_eq he)
  rw [toNat_sub_eq, toNat_sub_eq, toNat_succ_eq]
  split_ifs <;> omega

theorem succ_toNat_sub (h : (hi - lo).toNat + 1 < 2 ^ w) :
    (hi + 1 - lo).toNat = (hi - lo).toNat + 1 := by
  have hlo := lo.isLt
  have hhi := hi.isLt
  rw [toNat_sub_eq] at h ⊢
  rw [toNat_sub_eq, toNat_succ_eq]
  split_ifs at h ⊢ <;> omega

/-- The place that `hi` is at, seen from `lo`. -/
theorem toNat_add_sub_mod (hn : n ∣ 2 ^ w) (lo hi : BitVec w) :
    (lo.toNat + (hi - lo).toNat) % n = hi.toNat % n := by
  rw [toNat_sub_eq]
  split_ifs with hle
  · rw [Nat.add_sub_cancel' hle]
  · have hlo := lo.isLt
    rw [Nat.add_sub_cancel' (by omega), Nat.add_mod, Nat.mod_eq_zero_of_dvd hn, Nat.zero_add,
      Nat.mod_mod]

/-- Reading an entry. -/
theorem window_pop (ring : ℕ → α) (hn : n ∣ 2 ^ w) (h : lo ≠ hi) :
    window n ring lo hi = ring (lo.toNat % n) :: window n ring (lo + 1) hi := by
  rw [window, toNat_sub_succ h, List.range_succ_eq_map, List.map_cons, List.map_map, window]
  congr 1
  refine List.map_congr_left fun j _ => ?_
  exact congrArg ring (toNat_succ_add_mod hn lo j).symm

/-- While the ring is not full, the place that is written to is not the place of an entry that is
still to be read. -/
theorem ring_update_of_lt (hn : n ∣ 2 ^ w) (hfull : (hi - lo).toNat < n) {j : ℕ}
    (hj : j < (hi - lo).toNat) (x : α) :
    Function.update ring (hi.toNat % n) x ((lo.toNat + j) % n) = ring ((lo.toNat + j) % n) := by
  refine Function.update_of_ne (fun he => ?_) _ _
  rw [← toNat_add_sub_mod hn lo hi] at he
  have := Nat.le_of_dvd (by omega) ((Nat.modEq_iff_dvd' (by omega)).1 he)
  omega

/-- Writing an entry. -/
theorem window_push (ring : ℕ → α) (hn : n ∣ 2 ^ w) (hw : n < 2 ^ w)
    (hfull : (hi - lo).toNat < n) (x : α) :
    window n (Function.update ring (hi.toNat % n) x) lo (hi + 1) = window n ring lo hi ++ [x] := by
  rw [window, succ_toNat_sub (by omega), List.range_succ, List.map_append, List.map_singleton,
    toNat_add_sub_mod hn, Function.update_self, window]
  congr 1
  refine List.map_congr_left fun j hj => ?_
  exact ring_update_of_lt hn hfull (List.mem_range.1 hj) x

end Xv6
