import Mathlib.Data.List.Basic

/-!
# Strings that end with a zero

A string in memory is read from its first address on, up to a zero. `skipWhile` is the loop that
moves a pointer over the characters that pass a test. A test that zero does not pass stops it inside
the string.
-/

namespace Xv6

variable {mem : ℕ → BitVec 8} {p fuel : ℕ} {str : List (BitVec 8)}

/-- The characters of a string stand in memory from `p` on, and a zero follows them. -/
def CString (mem : ℕ → BitVec 8) : ℕ → List (BitVec 8) → Prop
  | p, [] => mem p = 0
  | p, c :: cs => mem p = c ∧ c ≠ 0 ∧ CString mem (p + 1) cs

/-- The pointer moves on as long as the character that it points to passes the test. There is no
result if that takes `fuel` rounds. -/
def skipWhile (test : BitVec 8 → Bool) (mem : ℕ → BitVec 8) : ℕ → ℕ → Option ℕ
  | 0, _ => none
  | fuel + 1, p => if test (mem p) then skipWhile test mem fuel (p + 1) else some p

/-- The pointer is at the end if and only if nothing is left. -/
theorem CString.eq_zero_iff (h : CString mem p str) : mem p = 0 ↔ str = [] := by
  cases str with
  | nil => exact iff_of_true h rfl
  | cons c cs => exact iff_of_false (h.1 ▸ h.2.1) (List.cons_ne_nil c cs)

theorem CString.getElem? (h : CString mem p str) {i : ℕ} (hi : i < str.length) :
    str[i]? = some (mem (p + i)) := by
  induction str generalizing p i with
  | nil => exact absurd hi (Nat.not_lt_zero i)
  | cons c cs ih =>
    cases i with
    | zero => rw [List.getElem?_cons_zero, Nat.add_zero, h.1]
    | succ i =>
      rw [List.getElem?_cons_succ, ih h.2.2 (Nat.lt_of_succ_lt_succ hi)]
      congr 2
      omega

theorem CString.ne_zero (h : CString mem p str) : ∀ c ∈ str, c ≠ 0 := by
  induction str generalizing p with
  | nil => exact fun c hc => absurd hc List.not_mem_nil
  | cons a as ih =>
    intro c hc
    obtain rfl | hc := List.mem_cons.mp hc
    · exact h.2.1
    · exact ih h.2.2 c hc

/-- **The loop ends inside the string**, after the characters that pass the test. -/
theorem CString.skipWhile (h : CString mem p str) (test : BitVec 8 → Bool) (hzero : test 0 = false)
    (hfuel : str.length < fuel) :
    skipWhile test mem fuel p = some (p + (str.takeWhile test).length) ∧
      CString mem (p + (str.takeWhile test).length) (str.dropWhile test) := by
  induction str generalizing p fuel with
  | nil =>
    obtain ⟨fuel, rfl⟩ := Nat.exists_eq_add_of_lt hfuel
    refine ⟨?_, h⟩
    have hmem : ¬ test (mem p) = true := by
      rw [show mem p = 0 from h, hzero]
      decide
    exact if_neg hmem
  | cons c cs ih =>
    cases fuel with
    | zero => exact absurd hfuel (Nat.not_lt_zero _)
    | succ fuel =>
      obtain ⟨rfl, hc, htail⟩ := h
      rw [Xv6.skipWhile]
      by_cases ht : test (mem p) = true
      · obtain ⟨hrun, hrest⟩ := ih htail (Nat.lt_of_succ_lt_succ hfuel)
        have hlen : p + (mem p :: cs.takeWhile test).length =
            p + 1 + (cs.takeWhile test).length := by
          rw [List.length_cons]
          omega
        rw [if_pos ht, List.takeWhile_cons_of_pos ht, List.dropWhile_cons_of_pos ht, hlen]
        exact ⟨hrun, hrest⟩
      · rw [if_neg ht, List.takeWhile_cons_of_neg ht, List.dropWhile_cons_of_neg ht]
        exact ⟨rfl, rfl, hc, htail⟩

end Xv6
