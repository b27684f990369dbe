import Xv6.Lib.CopyLoop

/-!
# `memmove`, in the kernel and in the user library

The kernel copies from the end only if the destination starts inside the source. The user library
copies from the end whenever the source does not start above the destination.
-/

namespace Xv6

/-- Memory, by address. -/
abbrev Bytes := BitVec 64 → BitVec 8

/-- `memmove` of `kernel/string.c`, with the pointer that it returns. -/
def KernelString.memmove (dst src : BitVec 64) (n : BitVec 32) (m : Bytes) : BitVec 64 × Bytes :=
  if n = 0 then (dst, m)
  else if src < dst ∧ src + n.setWidth 64 > dst then
    (dst, copyDown n.toNat (dst + n.setWidth 64) (src + n.setWidth 64) m)
  else (dst, copyUp n.toNat dst src m)

/-- `memmove` of `user/ulib.c`. The length is an `int`. -/
def Ulib.memmove (dst src : BitVec 64) (n : BitVec 32) (m : Bytes) : BitVec 64 × Bytes :=
  if src > dst then (dst, copyUp n.toInt.toNat dst src m)
  else (dst, copyDown n.toInt.toNat (dst + n.signExtend 64) (src + n.signExtend 64) m)

section Memmove

variable {dst src : BitVec 64} {n : BitVec 32} {m : Bytes}

theorem setWidth_eq_ofNat (n : BitVec 32) : n.setWidth 64 = .ofNat 64 n.toNat := by bv_omega

theorem kernel_memmove_eq (hsrc : src.toNat + n.toNat ≤ 2 ^ 64)
    (hdst : dst.toNat + n.toNat ≤ 2 ^ 64) :
    KernelString.memmove dst src n m = (dst, moved n.toNat dst src m) := by
  rw [KernelString.memmove, setWidth_eq_ofNat]
  split_ifs with h₀ hdown
  · rw [h₀]
    rfl
  · rw [copyDown_eq (by bv_omega) (by bv_omega)]
  · rw [copyUp_eq (by bv_omega) (by bv_omega)]

theorem user_memmove_eq (hn : n.toNat < 2 ^ 31) (hsrc : src.toNat + n.toNat ≤ 2 ^ 64)
    (hdst : dst.toNat + n.toNat ≤ 2 ^ 64) :
    Ulib.memmove dst src n m = (dst, moved n.toNat dst src m) := by
  have hmsb : n.msb = false := BitVec.msb_eq_false_iff_two_mul_lt.2 (by omega)
  have hlen : n.toInt.toNat = n.toNat := by
    rw [BitVec.toInt_eq_toNat_of_msb hmsb]
    rfl
  rw [Ulib.memmove, hlen, BitVec.signExtend_eq_setWidth_of_msb_false hmsb, setWidth_eq_ofNat]
  split_ifs with hup
  · rw [copyUp_eq (by bv_omega) (by bv_omega)]
  · rw [copyDown_eq (by bv_omega) (by bv_omega)]

/-- **`memmove` is right on overlapping ranges.** Both versions leave in the destination what was in
the source before, change nothing else, and so agree. -/
theorem memmove_moves (m : Bytes) (dst src : BitVec 64) (n : BitVec 32) (hn : n.toNat < 2 ^ 31)
    (hsrc : src.toNat + n.toNat ≤ 2 ^ 64) (hdst : dst.toNat + n.toNat ≤ 2 ^ 64) :
    (∀ r ∈ [KernelString.memmove dst src n m, Ulib.memmove dst src n m], r.1 = dst ∧
      (∀ i < n.toNat, r.2 (dst + .ofNat 64 i) = m (src + .ofNat 64 i)) ∧
      ∀ p : BitVec 64, ¬ (dst ≤ p ∧ p.toNat < dst.toNat + n.toNat) → r.2 p = m p) ∧
    KernelString.memmove dst src n m = Ulib.memmove dst src n m := by
  rw [kernel_memmove_eq hsrc hdst, user_memmove_eq hn hsrc hdst]
  refine ⟨fun r hr => ?_, rfl⟩
  obtain rfl : r = (dst, moved n.toNat dst src m) := by simpa using hr
  refine ⟨rfl, fun i hi => ?_, fun p hp => if_neg (by bv_omega)⟩
  have hoff : dst + .ofNat 64 i - dst = .ofNat 64 i := by bv_omega
  change moved _ _ _ _ _ = _
  rw [moved, hoff, if_pos (by bv_omega)]

/-- Two ranges of four bytes that overlap, at the top of the address space. -/
theorem memmove_moves_top : KernelString.memmove (-4) (-5) 4 (fun p => p.setWidth 8) =
    Ulib.memmove (-4) (-5) 4 fun p => p.setWidth 8 :=
  (memmove_moves _ _ _ _ (by decide) (by decide) (by decide)).2

end Memmove

end Xv6
