import Mathlib

/-!
# Drawing by weight

The elements of a list share an interval of integers, in order: each gets as many as its weight
says. `pick` finds the element that a number belongs to, by taking the weights off the number one
after the other.
-/

namespace Xv6.Draw

variable {α : Type*} (w : α → ℤ)

/-- The element that `r` belongs to. -/
def pick : List α → ℤ → Option α
  | [], _ => none
  | a :: l, r => if r < w a then some a else pick l (r - w a)

/-- The weight of the elements in front of `a`. -/
def before [DecidableEq α] : List α → α → ℤ
  | [], _ => 0
  | b :: l, a => if b = a then 0 else w b + before l a

variable {w} {l : List α} {a : α} {r : ℤ}

/-- Every number below the total belongs to an element. -/
theorem exists_pick (h : r < (l.map w).sum) (hr : 0 ≤ r) : ∃ a ∈ l, pick w l r = some a := by
  induction l generalizing r with
  | nil => exact absurd h (not_lt.mpr hr)
  | cons b l ih =>
    rw [pick]
    split_ifs with hb
    · exact ⟨b, List.mem_cons_self, rfl⟩
    · rw [List.map_cons, List.sum_cons] at h
      obtain ⟨a, ha, he⟩ := ih (r := r - w b) (by omega) (by omega)
      exact ⟨a, List.mem_cons_of_mem _ ha, he⟩

variable [DecidableEq α]

theorem before_nonneg (hw : ∀ b ∈ l, 0 ≤ w b) : 0 ≤ before w l a := by
  induction l with
  | nil => exact le_rfl
  | cons b l ih =>
    rw [before]
    split_ifs
    · exact le_rfl
    · exact add_nonneg (hw b List.mem_cons_self) (ih fun c hc => hw c (List.mem_cons_of_mem _ hc))

theorem before_add_le (hw : ∀ b ∈ l, 0 ≤ w b) (ha : a ∈ l) :
    before w l a + w a ≤ (l.map w).sum := by
  induction l with
  | nil => cases ha
  | cons b l ih =>
    have hw' : ∀ c ∈ l, 0 ≤ w c := fun c hc => hw c (List.mem_cons_of_mem _ hc)
    rw [before, List.map_cons, List.sum_cons]
    split_ifs with hb
    · subst hb
      have : 0 ≤ (l.map w).sum := List.sum_nonneg (by simpa using hw')
      omega
    · have := ih hw' (List.mem_of_ne_of_mem (Ne.symm hb) ha)
      omega

/-- A number belongs to the element in whose part of the interval it is. -/
theorem pick_eq_some_iff (hl : l.Nodup) (hw : ∀ b ∈ l, 0 ≤ w b) (hr : 0 ≤ r) :
    pick w l r = some a ↔ a ∈ l ∧ before w l a ≤ r ∧ r < before w l a + w a := by
  induction l generalizing r with
  | nil => simp [pick]
  | cons b l ih =>
    have hw' : ∀ c ∈ l, 0 ≤ w c := fun c hc => hw c (List.mem_cons_of_mem _ hc)
    obtain ⟨hb, hl⟩ := List.nodup_cons.mp hl
    rw [pick, before]
    by_cases hrb : r < w b
    · -- the number belongs to the first element, and everybody else's part is above it
      rw [if_pos hrb]
      refine ⟨fun he => ?_, fun ⟨_, hle, _⟩ => ?_⟩
      · cases he
        rw [if_pos rfl]
        exact ⟨List.mem_cons_self, hr, by omega⟩
      · by_cases hba : b = a
        · rw [hba]
        · rw [if_neg hba] at hle
          have := before_nonneg (a := a) hw'
          omega
    · rw [if_neg hrb, ih hl hw' (by omega)]
      by_cases hba : b = a
      · subst hba
        rw [if_pos rfl]
        exact ⟨fun h => absurd h.1 hb, fun h => absurd h.2.2 (by omega)⟩
      · rw [if_neg hba, List.mem_cons, or_iff_right (Ne.symm hba)]
        refine and_congr_right fun _ => ?_
        constructor <;> rintro ⟨h₁, h₂⟩ <;> constructor <;> omega

/-- An element gets as many of the numbers as its weight. -/
theorem card_pick (hl : l.Nodup) (hw : ∀ b ∈ l, 0 ≤ w b) (ha : a ∈ l) :
    (((Finset.Ico 0 (l.map w).sum).filter fun r => pick w l r = some a).card : ℤ) = w a := by
  have hpart : ((Finset.Ico 0 (l.map w).sum).filter fun r => pick w l r = some a) =
      Finset.Ico (before w l a) (before w l a + w a) := by
    have h₀ := before_nonneg (a := a) hw
    have h₁ := before_add_le hw ha
    ext r
    rw [Finset.mem_filter, Finset.mem_Ico, Finset.mem_Ico]
    constructor
    · rintro ⟨⟨hr, -⟩, he⟩
      exact ((pick_eq_some_iff hl hw hr).mp he).2
    · rintro ⟨hle, hlt⟩
      exact ⟨⟨by omega, by omega⟩, (pick_eq_some_iff hl hw (by omega)).mpr ⟨ha, hle, hlt⟩⟩
  rw [hpart, Int.card_Ico, add_sub_cancel_left, Int.toNat_of_nonneg (hw a ha)]

end Xv6.Draw
