import Xv6.Vm.PageTable

/-!
# Copying to user memory, byte by byte

The memory of one process by virtual address, as `copyout` sees it: which pages `walkaddr` finds,
and the bytes in them. Different pages of a process are in different frames, so a byte has one
address.

`copyout` goes page by page. When it comes to a page that is not there it gives up, and what it has
copied before stays.
-/

namespace Xv6

open Vm (PGSIZE)

/-- The memory of a process. -/
@[ext]
structure UserMem where
  /-- Whether `walkaddr` finds the page with this number. -/
  mapped : ℕ → Bool
  mem : ℕ → BitVec 8

namespace UserMem

variable {u : UserMem} {va : ℕ} {src : List (BitVec 8)}

/-- The bytes `src` at `va`. -/
def write (u : UserMem) (va : ℕ) (src : List (BitVec 8)) : UserMem where
  mapped := u.mapped
  mem := fun a => if va ≤ a then src.getD (a - va) (u.mem a) else u.mem a

@[simp] theorem write_mapped : (u.write va src).mapped = u.mapped := rfl

@[simp] theorem write_nil : u.write va [] = u := by
  simp [write]

theorem write_append (u : UserMem) (va : ℕ) (xs ys : List (BitVec 8)) :
    (u.write va xs).write (va + xs.length) ys = u.write va (xs ++ ys) := by
  have hmem : ((u.write va xs).write (va + xs.length) ys).mem = (u.write va (xs ++ ys)).mem := by
    funext a
    simp only [write]
    by_cases hxs : va + xs.length ≤ a
    · rw [if_pos hxs, if_pos (by omega), if_pos (by omega),
        List.getD_append_right _ _ _ _ (by omega),
        List.getD_eq_default xs _ (by omega), Nat.sub_add_eq]
    · rw [if_neg hxs]
      by_cases hva : va ≤ a
      · rw [if_pos hva, if_pos hva, List.getD_append _ _ _ _ (by omega)]
      · rw [if_neg hva, if_neg hva]
  exact congrArg (UserMem.mk u.mapped) hmem

/-- All of the `n` bytes at `va` are in pages that are mapped. -/
def Mapped (u : UserMem) (va n : ℕ) : Prop := ∀ i < n, u.mapped ((va + i) / PGSIZE) = true

instance (u : UserMem) (va n : ℕ) : Decidable (u.Mapped va n) :=
  inferInstanceAs (Decidable (∀ i < n, u.mapped ((va + i) / PGSIZE) = true))

/-- The loop of `copyout`. Every round copies something, so there are at most as many as bytes. -/
def copyoutLoop : ℕ → UserMem → ℕ → List (BitVec 8) → Bool × UserMem
  | 0, u, _, _ => (true, u)
  | fuel + 1, u, dstva, src =>
    if src = [] then (true, u)
    else
      let va0 := Vm.pgrounddown dstva
      if u.mapped (va0 / PGSIZE) = false then (false, u)
      else
        let n := min (PGSIZE - (dstva - va0)) src.length
        copyoutLoop fuel (u.write dstva (src.take n)) (va0 + PGSIZE) (src.drop n)

/-- `copyout`: whether it succeeds, and the memory afterwards. -/
def copyout (u : UserMem) (dstva : ℕ) (src : List (BitVec 8)) : Bool × UserMem :=
  copyoutLoop src.length u dstva src

/-- The bytes `src` at `va`, up to the first that is not mapped. -/
def fill (u : UserMem) (va : ℕ) : List (BitVec 8) → UserMem
  | [] => u
  | b :: src => if u.mapped (va / PGSIZE) then (u.write va [b]).fill (va + 1) src else u

theorem fill_mapped (u : UserMem) (va : ℕ) (src : List (BitVec 8)) :
    (u.fill va src).mapped = u.mapped := by
  induction src generalizing u va with
  | nil => rfl
  | cons b src ih =>
    rw [fill]
    split_ifs
    · exact ih _ _
    · rfl

theorem Mapped.of_mapped_eq {v : UserMem} (h : v.mapped = u.mapped) {n : ℕ} :
    v.Mapped va n ↔ u.Mapped va n := by
  rw [Mapped, Mapped, h]

theorem mapped_add {a b : ℕ} : u.Mapped va (a + b) ↔ u.Mapped va a ∧ u.Mapped (va + a) b := by
  refine ⟨fun h => ⟨fun i hi => h i (by omega), fun i hi => ?_⟩, fun h i hi => ?_⟩
  · rw [Nat.add_assoc]
    exact h (a + i) (by omega)
  · by_cases hia : i < a
    · exact h.1 i hia
    · have := h.2 (i - a) (by omega)
      rwa [Nat.add_assoc, Nat.add_sub_cancel' (by omega)] at this

theorem mapped_succ {k : ℕ} :
    u.Mapped va (k + 1) ↔ u.mapped (va / PGSIZE) = true ∧ u.Mapped (va + 1) k := by
  rw [Nat.add_comm, mapped_add]
  refine and_congr_left' ⟨fun h => h 0 Nat.one_pos, fun h i hi => ?_⟩
  rwa [Nat.lt_one_iff.1 hi]

/-- Bytes that are mapped are written. -/
theorem fill_append {xs : List (BitVec 8)} (h : u.Mapped va xs.length) (ys : List (BitVec 8)) :
    u.fill va (xs ++ ys) = (u.write va xs).fill (va + xs.length) ys := by
  induction xs generalizing u va with
  | nil => rw [write_nil]; rfl
  | cons b xs ih =>
    rw [List.length_cons, mapped_succ] at h
    have hxs := ih ((Mapped.of_mapped_eq (v := u.write va [b]) rfl).2 h.2)
    have hwrite : (u.write va [b]).write (va + 1) xs = u.write va (b :: xs) :=
      write_append u va [b] xs
    rw [List.cons_append, fill, if_pos h.1, hxs, hwrite, List.length_cons, Nat.add_assoc,
      Nat.add_comm 1]

theorem fill_of_mapped (h : u.Mapped va src.length) : u.fill va src = u.write va src := by
  rw [← List.append_nil src, fill_append h, List.append_nil, fill]

theorem fill_mem_of_lt {a : ℕ} (ha : a < va) : (u.fill va src).mem a = u.mem a := by
  induction src generalizing u va with
  | nil => rfl
  | cons b src ih =>
    rw [fill]
    split_ifs
    · rw [ih (by omega)]
      exact if_neg (by omega)
    · rfl

/-- A byte after the copy. -/
theorem fill_mem (u : UserMem) (va : ℕ) (src : List (BitVec 8)) (k : ℕ) :
    (u.fill va src).mem (va + k) =
      if u.Mapped va (k + 1) then src.getD k (u.mem (va + k)) else u.mem (va + k) := by
  induction src generalizing u va k with
  | nil => simp [fill]
  | cons b src ih =>
    rw [fill]
    by_cases hb : u.mapped (va / PGSIZE) = true
    · rw [if_pos hb]
      cases k with
      | zero =>
        rw [if_pos (mapped_succ.2 ⟨hb, fun i hi => absurd hi (Nat.not_lt_zero i)⟩),
          fill_mem_of_lt (by omega)]
        simp [write]
      | succ k =>
        have hbyte : (u.write va [b]).mem (va + 1 + k) = u.mem (va + 1 + k) := by
          simp [write, Nat.add_assoc, Nat.add_comm 1 k]
        have hrest := ih (u.write va [b]) (va + 1) k
        rw [hbyte] at hrest
        rw [Nat.add_comm k 1, ← Nat.add_assoc, hrest, Nat.add_comm 1 k]
        refine if_congr ?_ rfl rfl
        rw [mapped_succ (k := k + 1), and_iff_right hb]
        exact Mapped.of_mapped_eq write_mapped
    · rw [if_neg hb, if_neg fun h => hb (mapped_succ.1 h).1]

theorem fill_singleton {b : BitVec 8} (h : u.mapped (va / PGSIZE) = true) :
    (u.fill va [b]).mem va = b := by
  simp [fill, h, write]

/-- A copy of `src` to `va` changes the byte at `a`. -/
def Overwrites (u : UserMem) (va : ℕ) (src : List (BitVec 8)) (a : ℕ) : Prop :=
  va ≤ a ∧ u.Mapped va (a - va + 1) ∧ src.getD (a - va) (u.mem a) ≠ u.mem a

instance (u : UserMem) (va : ℕ) (src : List (BitVec 8)) (a : ℕ) :
    Decidable (u.Overwrites va src a) := inferInstanceAs (Decidable (_ ∧ _))

theorem fill_mem_eq_iff {a : ℕ} : (u.fill va src).mem a = u.mem a ↔ ¬ u.Overwrites va src a := by
  by_cases ha : va ≤ a
  · obtain ⟨k, rfl⟩ := Nat.exists_eq_add_of_le ha
    rw [fill_mem, Overwrites, Nat.add_sub_cancel_left]
    split_ifs with h <;> simp [h]
  · exact iff_of_true (fill_mem_of_lt (not_le.1 ha)) fun h => ha h.1

/-- How much of a page there is from `va` on. -/
def rest (va : ℕ) : ℕ := PGSIZE - (va - Vm.pgrounddown va)

theorem add_rest (va : ℕ) : va + rest va = Vm.pgrounddown va + PGSIZE := by
  change va + (4096 - (va - va / 4096 * 4096)) = va / 4096 * 4096 + 4096
  omega

theorem rest_pos (va : ℕ) : 0 < rest va := by
  change 0 < 4096 - (va - va / 4096 * 4096)
  omega

/-- Within a page all bytes are mapped, or none. -/
theorem div_of_lt_rest {va i : ℕ} (hi : i < rest va) : (va + i) / PGSIZE = va / PGSIZE := by
  change i < 4096 - (va - va / 4096 * 4096) at hi
  change (va + i) / 4096 = va / 4096
  omega

/-- A round of the loop. -/
theorem copyoutLoop_succ (fuel : ℕ) (u : UserMem) (va : ℕ) (hsrc : src ≠ []) :
    copyoutLoop (fuel + 1) u va src =
      if u.mapped (va / PGSIZE) = false then (false, u)
      else copyoutLoop fuel (u.write va (src.take (min (rest va) src.length))) (va + rest va)
        (src.drop (min (rest va) src.length)) := by
  have hdiv : Vm.pgrounddown va / PGSIZE = va / PGSIZE := Nat.mul_div_cancel _ (by decide)
  rw [copyoutLoop, if_neg hsrc, add_rest]
  dsimp only
  rw [hdiv, rest]

/-- The loop goes page by page, and this is the same as byte by byte. -/
theorem copyoutLoop_eq (fuel : ℕ) (hfuel : src.length ≤ fuel) :
    copyoutLoop fuel u va src = (decide (u.Mapped va src.length), u.fill va src) := by
  induction fuel generalizing u va src with
  | zero =>
    cases List.length_eq_zero_iff.mp (Nat.le_zero.mp hfuel)
    simp [copyoutLoop, Mapped, fill]
  | succ fuel ih =>
    by_cases hsrc : src = []
    · simp [copyoutLoop, hsrc, Mapped, fill]
    have hlen := List.length_pos_iff.mpr hsrc
    have hpos := rest_pos va
    rw [copyoutLoop_succ fuel u va hsrc]
    split_ifs with hpage
    · obtain ⟨b, src, rfl⟩ := List.exists_cons_of_ne_nil hsrc
      have hno : ¬ u.Mapped va (b :: src).length := fun h => by
        cases hpage.symm.trans (h 0 hlen)
      rw [decide_eq_false hno, fill, if_neg (by rw [hpage]; decide)]
    · generalize hn : min (rest va) src.length = n
      have htake : (src.take n).length = n := List.length_take_of_le (by omega)
      have hmapped : u.Mapped va (src.take n).length := fun i hi => by
        rw [div_of_lt_rest (by omega), Bool.eq_true_of_not_eq_false hpage]
      have hall : u.Mapped va src.length ↔ u.Mapped (va + n) (src.drop n).length := by
        rw [htake] at hmapped
        rw [List.length_drop, ← Nat.add_sub_cancel' (show n ≤ src.length by omega), mapped_add,
          and_iff_right hmapped, Nat.add_sub_cancel_left]
      have hfill := fill_append hmapped (src.drop n)
      rw [List.take_append_drop, htake] at hfill
      rw [ih (by rw [List.length_drop]; omega), hfill]
      by_cases hrest : n = rest va
      · rw [← hrest]
        exact Prod.ext (decide_eq_decide.2 hall.symm) rfl
      · have hdrop : src.drop n = [] := List.drop_eq_nil_of_le (by omega)
        have hnil (v : UserMem) (va : ℕ) : v.Mapped va ([] : List (BitVec 8)).length :=
          fun i hi => absurd hi (Nat.not_lt_zero i)
        rw [hdrop] at hall ⊢
        rw [decide_eq_true (hnil _ _), decide_eq_true (hall.2 (hnil _ _))]
        rfl

/-- **What `copyout` does.** -/
theorem copyout_eq (u : UserMem) (va : ℕ) (src : List (BitVec 8)) :
    u.copyout va src = (decide (u.Mapped va src.length), u.fill va src) :=
  copyoutLoop_eq src.length le_rfl

/-- `copyout` succeeds where everything is mapped, and nowhere else. -/
theorem copyout_fst : (u.copyout va src).1 = true ↔ u.Mapped va src.length := by
  rw [copyout_eq, decide_eq_true_iff]

theorem copyout_of_mapped (h : u.Mapped va src.length) :
    u.copyout va src = (true, u.write va src) := by
  rw [copyout_eq, decide_eq_true h, fill_of_mapped h]

/-- Where the first byte is not mapped, nothing is written. -/
theorem copyout_of_not_mapped (hsrc : src ≠ []) (h : u.mapped (va / PGSIZE) = false) :
    u.copyout va src = (false, u) := by
  obtain ⟨b, src, rfl⟩ := List.exists_cons_of_ne_nil hsrc
  rw [copyout, List.length_cons, copyoutLoop_succ _ _ _ hsrc, if_pos h]

end UserMem

/-- The four bytes of an `int`, lowest first. -/
def bytes (w : BitVec 32) : List (BitVec 8) :=
  [w.setWidth 8, (w >>> 8).setWidth 8, (w >>> 16).setWidth 8, (w >>> 24).setWidth 8]

end Xv6
