import Mathlib

/-!
# Numbers in memory

A memory is a function from addresses to bytes. `readLe n m a` is the little-endian number of `n`
bytes at address `a`, and `writeLe n m a v` is the memory with the number `v` there.
-/

namespace Xv6

variable {m m' : ℕ → BitVec 8} {a v : ℕ}

/-- The little-endian number of `n` bytes at `a`. -/
def readLe : ℕ → (ℕ → BitVec 8) → ℕ → ℕ
  | 0, _, _ => 0
  | n + 1, m, a => (m a).toNat + 256 * readLe n m (a + 1)

/-- The memory with the `n` bytes of `v` at `a`. -/
def writeLe (n : ℕ) (m : ℕ → BitVec 8) (a v : ℕ) : ℕ → BitVec 8 := fun i =>
  if a ≤ i ∧ i < a + n then BitVec.ofNat 8 (v / 256 ^ (i - a)) else m i

theorem writeLe_of_not_mem {n i : ℕ} (h : ¬ (a ≤ i ∧ i < a + n)) : writeLe n m a v i = m i :=
  if_neg h

theorem readLe_congr {n : ℕ} (h : ∀ i, a ≤ i → i < a + n → m i = m' i) :
    readLe n m a = readLe n m' a := by
  induction n generalizing a with
  | zero => rfl
  | succ n ih =>
    rw [readLe, readLe, h a (Nat.le_refl a) (by omega),
      ih fun i hai hi => h i (by omega) (by omega)]

theorem readLe_zero (n a : ℕ) : readLe n (fun _ => 0) a = 0 := by
  induction n generalizing a with
  | zero => rfl
  | succ n ih =>
    rw [readLe, ih]
    rfl

/-- Digits to the base 256, from the lowest. -/
theorem readLe_digits {n : ℕ} (hv : v < 256 ^ n)
    (h : ∀ i, i < n → m (a + i) = BitVec.ofNat 8 (v / 256 ^ i)) : readLe n m a = v := by
  induction n generalizing a v with
  | zero => rw [readLe, Nat.lt_one_iff.mp hv]
  | succ n ih =>
    have hdiv : v / 256 < 256 ^ n :=
      Nat.div_lt_of_lt_mul (by rwa [Nat.pow_succ, Nat.mul_comm] at hv)
    have hlow : (m a).toNat = v % 256 := by
      rw [show m a = BitVec.ofNat 8 (v / 256 ^ 0) from h 0 (Nat.succ_pos n), Nat.pow_zero,
        Nat.div_one]
      rfl
    rw [readLe, hlow, ih hdiv fun i hi => ?_, Nat.mod_add_div]
    rw [Nat.add_assoc, Nat.add_comm 1, h (i + 1) (Nat.succ_lt_succ hi), Nat.div_div_eq_div_mul,
      Nat.pow_succ']

/-- The bytes of the number that is read are those in memory. -/
theorem ofNat_readLe_div {n i : ℕ} (m : ℕ → BitVec 8) (a : ℕ) (hi : i < n) :
    BitVec.ofNat 8 (readLe n m a / 256 ^ i) = m (a + i) := by
  induction n generalizing a i with
  | zero => omega
  | succ n ih =>
    have hlow : (m a).toNat < 256 := (m a).isLt
    rw [readLe]
    cases i with
    | zero =>
      apply BitVec.eq_of_toNat_eq
      rw [Nat.pow_zero, Nat.div_one, BitVec.toNat_ofNat, Nat.add_mul_mod_self_left,
        Nat.mod_eq_of_lt hlow, Nat.add_zero]
    | succ i =>
      rw [Nat.pow_succ', ← Nat.div_div_eq_div_mul, Nat.add_mul_div_left _ _ (by decide),
        Nat.div_eq_of_lt hlow, Nat.zero_add, ih (a + 1) (by omega), Nat.add_assoc, Nat.add_comm 1]

/-- The `n` bytes of `v`, lowest first. -/
def leBytes (n v : ℕ) : List (BitVec 8) := (List.range n).map fun i => BitVec.ofNat 8 (v / 256 ^ i)

@[simp] theorem length_leBytes (n v : ℕ) : (leBytes n v).length = n := by simp [leBytes]

theorem readLe_writeLe {n : ℕ} (hv : v < 256 ^ n) : readLe n (writeLe n m a v) a = v := by
  refine readLe_digits hv fun i hi => ?_
  rw [writeLe, if_pos ⟨Nat.le_add_right a i, Nat.add_lt_add_left hi a⟩, Nat.add_sub_cancel_left]

theorem readLe_writeLe_of_disjoint {n k a' : ℕ} (h : a' + k ≤ a ∨ a + n ≤ a') :
    readLe k (writeLe n m a v) a' = readLe k m a' :=
  readLe_congr fun _ _ _ => writeLe_of_not_mem (by omega)

theorem readLe_lt (n : ℕ) (m : ℕ → BitVec 8) (a : ℕ) : readLe n m a < 256 ^ n := by
  induction n generalizing a with
  | zero => exact Nat.one_pos
  | succ n ih =>
    have hlow : (m a).toNat < 256 := (m a).isLt
    have hhigh := ih (a + 1)
    rw [readLe, Nat.pow_succ]
    omega

end Xv6
