import Mathlib.Algebra.BigOperators.Fin

/-!
# Counting holders

Each of finitely many places holds at most one thing. `holders g i` is the number of places that
hold `i`. When one place is given other contents, only the counts of what it held and of what it
holds change.
-/

namespace Xv6

variable {ι κ : Type*} [Fintype ι] [DecidableEq κ] {g : ι → Option κ} {x : ι} {i j : κ}

/-- The number of places that hold `i`. -/
def holders (g : ι → Option κ) (i : κ) : ℕ := (Finset.univ.filter fun x => g x = some i).card

theorem holders_pos (h : g x = some i) : 0 < holders g i :=
  Finset.card_pos.mpr ⟨x, Finset.mem_filter.mpr ⟨Finset.mem_univ x, h⟩⟩

theorem holders_eq_zero (h : ∀ x, g x = none) (i : κ) : holders g i = 0 := by
  rw [holders, Finset.card_eq_zero, Finset.filter_eq_empty_iff]
  intro x _ hx
  rw [h x] at hx
  cases hx

theorem holders_mono {g' : ι → Option κ} (h : ∀ x, g x = some i → g' x = some i) :
    holders g i ≤ holders g' i :=
  Finset.card_le_card (Finset.monotone_filter_right _ fun x _ => h x)

variable [DecidableEq ι]

theorem holders_update (g : ι → Option κ) (x : ι) (v : Option κ) (i : κ) :
    holders (Function.update g x v) i + (if g x = some i then 1 else 0) =
      holders g i + if v = some i then 1 else 0 := by
  have hrest : (∑ y ∈ Finset.univ.erase x, if Function.update g x v y = some i then 1 else 0) =
      ∑ y ∈ Finset.univ.erase x, if g y = some i then 1 else 0 :=
    Finset.sum_congr rfl fun y hy => by rw [Function.update_of_ne (Finset.ne_of_mem_erase hy)]
  rw [holders, holders, Finset.card_filter, Finset.card_filter,
    ← Finset.add_sum_erase _ _ (Finset.mem_univ x), hrest, Function.update_self,
    ← Finset.add_sum_erase Finset.univ (fun y => if g y = some i then 1 else 0) (Finset.mem_univ x)]
  omega

end Xv6
