import Xv6.Vm.PageTable

/-!
# Page-table entries

What the bits of an entry say. An entry is an address of a page, moved up by ten bits, and ten bits
of flags.
-/

namespace Xv6.Vm

/-- The flags fit below the address. -/
def IsFlags (f : Word) : Prop := f.toNat < 1024

instance (f : Word) : Decidable (IsFlags f) := inferInstanceAs (Decidable (f.toNat < 1024))

theorem pa2pte_toNat {p : ℕ} (hp : p < 2 ^ 44) : (pa2pte p).toNat = 2 ^ 10 * p := by
  have h₁ : (addrOf p >>> 12).toNat = p := by
    rw [BitVec.toNat_ushiftRight, Nat.shiftRight_eq_div_pow]
    exact pageOf_addrOf (by omega)
  rw [pa2pte, BitVec.toNat_shiftLeft, h₁, Nat.shiftLeft_eq, Nat.mod_eq_of_lt (by omega)]
  omega

variable {f g w perm : Word}

theorem toNat_pa2pte_or {p : ℕ} (hp : p < 2 ^ 44) (hf : IsFlags f) :
    (pa2pte p ||| f).toNat = 2 ^ 10 * p + f.toNat := by
  rw [BitVec.toNat_or, pa2pte_toNat hp, Nat.two_pow_add_eq_or_of_lt hf]

theorem pte2pa_eq (w : Word) : pte2pa w = w.toNat / 1024 % 2 ^ 52 := by
  rw [pte2pa, pageOf, BitVec.toNat_shiftLeft, BitVec.toNat_ushiftRight, Nat.shiftLeft_eq,
    Nat.shiftRight_eq_div_pow]
  omega

theorem pte2pa_pa2pte {p : ℕ} (hp : p < 2 ^ 44) (hf : IsFlags f) :
    pte2pa (pa2pte p ||| f) = p := by
  rw [pte2pa_eq, toNat_pa2pte_or hp hf]
  rw [IsFlags] at hf
  omega

theorem or_and (a b g : Word) : (a ||| b) &&& g = a &&& g ||| b &&& g := by
  apply BitVec.eq_of_getLsbD_eq
  intro i _
  simp [Bool.and_or_distrib_right]

theorem and_eq_zero_of_isFlags (p : ℕ) (hg : IsFlags g) : pa2pte p &&& g = 0 := by
  apply BitVec.eq_of_getLsbD_eq
  intro i hi
  by_cases h10 : i < 10
  · simp [pa2pte, h10]
  · have : g.getLsbD i = false := by
      rw [BitVec.getLsbD]
      exact Nat.testBit_lt_two_pow
        (lt_of_lt_of_le hg (Nat.pow_le_pow_right (by decide : 0 < 2) (by omega : 10 ≤ i)))
    simp [this]

/-- The address does not get in the way of the flags. -/
theorem pa2pte_or_and (p : ℕ) (f : Word) (hg : IsFlags g) :
    (pa2pte p ||| f) &&& g = f &&& g := by
  rw [or_and, and_eq_zero_of_isFlags p hg]
  exact BitVec.zero_or

theorem pteFlags_pa2pte (p : ℕ) (hf : IsFlags f) : pteFlags (pa2pte p ||| f) = f := by
  rw [pteFlags, pa2pte_or_and p f (by decide : IsFlags 0x3FF)]
  apply BitVec.eq_of_toNat_eq
  rw [BitVec.toNat_and]
  change f.toNat &&& (2 ^ 10 - 1) = f.toNat
  rw [Nat.and_two_pow_sub_one_eq_mod, Nat.mod_eq_of_lt hf]

theorem isFlags_pteFlags (w : Word) : IsFlags (pteFlags w) := by
  rw [IsFlags, pteFlags, BitVec.toNat_and]
  exact lt_of_le_of_lt Nat.and_le_right (by decide)

theorem IsFlags.or (hf : IsFlags f) (hg : IsFlags g) : IsFlags (f ||| g) := by
  rw [IsFlags, BitVec.toNat_or]
  exact Nat.or_lt_two_pow (n := 10) hf hg

/-! ### Entries for page-table pages -/

theorem node_valid (q : ℕ) : (pa2pte q ||| PTE_V) &&& PTE_V ≠ 0 := by
  rw [pa2pte_or_and q _ (by decide)]
  decide

theorem node_not_leaf (q : ℕ) : (pa2pte q ||| PTE_V) &&& (PTE_R ||| PTE_W ||| PTE_X) = 0 := by
  rw [pa2pte_or_and q _ (by decide)]
  decide

theorem pte2pa_node {q : ℕ} (hq : q < 2 ^ 44) : pte2pa (pa2pte q ||| PTE_V) = q :=
  pte2pa_pa2pte hq (by decide)

/-! ### Entries for pages -/

/-- An entry that maps a page. -/
structure IsLeaf (w : Word) : Prop where
  valid : w &&& PTE_V ≠ 0
  readable : w &&& PTE_R ≠ 0

theorem or_and_ne_zero {a : Word} (b : Word) (h : a &&& g ≠ 0) : (a ||| b) &&& g ≠ 0 := by
  rw [or_and]
  exact fun h₀ => h (BitVec.or_eq_zero_iff.1 h₀).1

theorem IsLeaf.ne_zero (h : IsLeaf w) : w ≠ 0 := by
  rintro rfl
  exact h.valid rfl

theorem isLeaf_mk (q : ℕ) (hr : perm &&& PTE_R ≠ 0) :
    IsLeaf (pa2pte q ||| perm ||| PTE_V) := by
  rw [BitVec.or_assoc]
  constructor
  · rw [pa2pte_or_and q _ (by decide), or_and]
    simp [BitVec.or_eq_zero_iff]
  · rw [pa2pte_or_and q _ (by decide), or_and]
    simpa using hr

theorem pte2pa_leaf {q : ℕ} (hq : q < 2 ^ 44) (hf : IsFlags perm) :
    pte2pa (pa2pte q ||| perm ||| PTE_V) = q := by
  rw [BitVec.or_assoc]
  exact pte2pa_pa2pte hq (hf.or (by decide))

/-- The flags of a valid entry have `PTE_V` in them. -/
theorem pteFlags_or_valid (h : w &&& PTE_V ≠ 0) : pteFlags w ||| PTE_V = pteFlags w := by
  have hone (i : ℕ) : PTE_V.getLsbD i = decide (i = 0) := by
    rw [show PTE_V = BitVec.twoPow 64 0 from rfl, BitVec.getLsbD_twoPow]
    simp [eq_comm]
  have hbit : w.getLsbD 0 = true := by
    by_contra hbit
    refine h (BitVec.eq_of_getLsbD_eq fun i hi => ?_)
    rw [BitVec.getLsbD_and, hone]
    by_cases hi₀ : i = 0
    · rw [hi₀, Bool.eq_false_of_not_eq_true hbit]
      rfl
    · simp [hi₀]
  refine BitVec.eq_of_getLsbD_eq fun i hi => ?_
  rw [BitVec.getLsbD_or, hone]
  by_cases hi₀ : i = 0
  · simp [hi₀, pteFlags, hbit]
  · simp [hi₀]

theorem IsLeaf.pteFlags_ne (h : IsLeaf w) : pteFlags w ≠ PTE_V := by
  intro hw
  apply h.readable
  have : pteFlags w &&& PTE_R = w &&& PTE_R := by
    rw [pteFlags, BitVec.and_assoc]
    rfl
  rw [← this, hw]
  rfl

theorem IsLeaf.flags_readable (h : IsLeaf w) : pteFlags w &&& PTE_R ≠ 0 := by
  rw [pteFlags, BitVec.and_assoc]
  exact h.readable

/-- Taking the page away from the user leaves the mapping as it is. -/
theorem IsLeaf.clear (h : IsLeaf w) : IsLeaf (w &&& ~~~PTE_U) where
  valid := by
    rw [BitVec.and_assoc]
    exact h.valid
  readable := by
    rw [BitVec.and_assoc]
    exact h.readable

theorem pte2pa_clear (w : Word) : pte2pa (w &&& ~~~PTE_U) = pte2pa w := by
  have h : (w &&& ~~~PTE_U) >>> 10 = w >>> 10 := by
    apply BitVec.eq_of_getLsbD_eq
    intro i _
    have hU : PTE_U.getLsbD (10 + i) = false :=
      Nat.testBit_lt_two_pow (lt_of_lt_of_le (by decide : 16 < 2 ^ 10)
        (Nat.pow_le_pow_right (by decide) (by omega)))
    rw [BitVec.getLsbD_ushiftRight, BitVec.getLsbD_ushiftRight, BitVec.getLsbD_and,
      BitVec.getLsbD_not, hU]
    by_cases hi : 10 + i < 64
    · simp [hi]
    · simp [hi, BitVec.getLsbD_of_ge w _ (not_lt.1 hi)]
  rw [pte2pa, pte2pa, h]

end Xv6.Vm
