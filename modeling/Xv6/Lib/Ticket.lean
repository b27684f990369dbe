import Mathlib.Algebra.Order.Ring.Int

/-!
# Tickets

Whoever enters a queue takes a number, and the number that the queue hands out next is larger than
any that it has handed out. Then the numbers in a queue are in the order of arrival. Time is a
counter that is larger than any time at which somebody has entered.
-/

namespace Xv6

open Function (update_self update_of_ne)

variable {ι κ : Type*}

/-- `live i` is in the queue `queue i`, with the number `num i`, since time `entered i`. The queue
`k` hands out `next k` next. -/
structure Tickets (live : ι → Prop) (queue : ι → κ) (num : ι → ℤ) (entered : ι → ℕ) (clock : ℕ)
    (next : κ → ℤ) : Prop where
  lt_next : ∀ i, live i → num i < next (queue i)
  past : ∀ i, live i → entered i < clock
  apart : ∀ i j, live i → live j → i ≠ j → entered i ≠ entered j
  order : ∀ i j, live i → live j → queue i = queue j → entered i < entered j → num i < num j

namespace Tickets

variable {live live' : ι → Prop} {queue queue' : ι → κ} {num num' : ι → ℤ} {entered : ι → ℕ}
variable {clock : ℕ} {next next' : κ → ℤ} {i j : ι}

theorem lt_iff (h : Tickets live queue num entered clock next) (hi : live i) (hj : live j)
    (hq : queue i = queue j) : num i < num j ↔ entered i < entered j := by
  refine ⟨fun hlt => ?_, h.order i j hi hj hq⟩
  by_contra hnot
  have hij : i ≠ j := fun hij => absurd hlt (hij ▸ lt_irrefl _)
  have hji : entered j < entered i := lt_of_le_of_ne (not_lt.1 hnot) (h.apart j i hj hi hij.symm)
  exact absurd (h.order j i hj hi hq.symm hji) (not_lt.2 hlt.le)

theorem num_ne (h : Tickets live queue num entered clock next) (hi : live i) (hj : live j)
    (hij : i ≠ j) (hq : queue i = queue j) : num i ≠ num j := by
  rcases lt_or_gt_of_ne (h.apart i j hi hj hij) with hlt | hlt
  · exact (h.order i j hi hj hq hlt).ne
  · exact (h.order j i hj hi hq.symm hlt).ne'

/-- Nobody enters. -/
theorem keep (h : Tickets live queue num entered clock next) {clock' : ℕ}
    (hlive : ∀ i, live' i → live i) (hq : ∀ i, live' i → queue' i = queue i)
    (hnum : ∀ i, live' i → num' i = num i) (hclock : clock ≤ clock')
    (hnext : ∀ k, next k ≤ next' k) : Tickets live' queue' num' entered clock' next' where
  lt_next i hi := by
    rw [hq i hi, hnum i hi]
    exact (h.lt_next i (hlive i hi)).trans_le (hnext _)
  past i hi := (h.past i (hlive i hi)).trans_le hclock
  apart i j hi hj := h.apart i j (hlive i hi) (hlive j hj)
  order i j hi hj hqij hlt := by
    rw [hq i hi, hq j hj] at hqij
    rw [hnum i hi, hnum j hj]
    exact h.order i j (hlive i hi) (hlive j hj) hqij hlt

variable [DecidableEq ι]

/-- `i` takes the next number of queue `k`. -/
theorem enter (h : Tickets live queue num entered clock next) (i : ι) (k : κ)
    (hlive : ∀ j, j ≠ i → live' j → live j) (hq : ∀ j, j ≠ i → live' j → queue' j = queue j)
    (hnum : ∀ j, j ≠ i → live' j → num' j = num j) (hqi : queue' i = k) (hni : num' i = next k)
    (hnext : ∀ k, next k ≤ next' k) (hk : next k < next' k) :
    Tickets live' queue' num' (Function.update entered i clock) (clock + 1) next' where
  lt_next j hj := by
    by_cases hji : j = i
    · rw [hji, hqi, hni]
      exact hk
    · rw [hq j hji hj, hnum j hji hj]
      exact (h.lt_next j (hlive j hji hj)).trans_le (hnext _)
  past j hj := by
    by_cases hji : j = i
    · rw [hji, update_self]
      exact Nat.lt_succ_self clock
    · rw [update_of_ne hji]
      exact Nat.lt_succ_of_lt (h.past j (hlive j hji hj))
  apart j l hj hl hjl := by
    by_cases hji : j = i
    · have hli : l ≠ i := fun hli => hjl (hji.trans hli.symm)
      rw [hji, update_self, update_of_ne hli]
      exact (h.past l (hlive l hli hl)).ne'
    · rw [update_of_ne hji]
      by_cases hli : l = i
      · rw [hli, update_self]
        exact (h.past j (hlive j hji hj)).ne
      · rw [update_of_ne hli]
        exact h.apart j l (hlive j hji hj) (hlive l hli hl) hjl
  order j l hj hl hqjl hlt := by
    by_cases hji : j = i
    · -- nobody has entered after `i`
      rw [hji, update_self] at hlt
      by_cases hli : l = i
      · rw [hli, update_self] at hlt
        exact absurd hlt (lt_irrefl _)
      · rw [update_of_ne hli] at hlt
        exact absurd hlt (h.past l (hlive l hli hl)).le.not_gt
    · by_cases hli : l = i
      · rw [hli, hqi] at hqjl
        rw [hli, hni, hnum j hji hj]
        rw [hq j hji hj] at hqjl
        exact hqjl ▸ h.lt_next j (hlive j hji hj)
      · rw [update_of_ne hji, update_of_ne hli] at hlt
        rw [hq j hji hj, hq l hli hl] at hqjl
        rw [hnum j hji hj, hnum l hli hl]
        exact h.order j l (hlive j hji hj) (hlive l hli hl) hqjl hlt

end Tickets

end Xv6
