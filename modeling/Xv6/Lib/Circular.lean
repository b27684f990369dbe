import Mathlib

/-!
# Circular doubly linked lists

A list is kept in links between its cells, with a distinguished cell `head` that is no element: from
`head` through `next` all cells are met in order and then `head` again, and through `prev` in the
opposite order.
-/

namespace Xv6

open Function (update update_self update_of_ne)

variable {α : Type*} {head : α} {next prev : α → α} {l : List α} {b : α}

/-- Neighbours point to each other. -/
def Linked (next prev : α → α) (x y : α) : Prop := next x = y ∧ prev y = x

/-- The links are those of the list `l`. -/
structure IsCircular (head : α) (next prev : α → α) (l : List α) : Prop where
  nodup : (head :: l).Nodup
  chain : List.IsChain (Linked next prev) (head :: (l ++ [head]))

/-- The first cell from `x` on that passes the test. -/
def scan [DecidableEq α] (head : α) (next : α → α) (f : α → Bool) : ℕ → α → Option α
  | 0, _ => none
  | fuel + 1, x =>
    if x = head then none else if f x then some x else scan head next f fuel (next x)

namespace IsCircular

theorem head_notMem (h : IsCircular head next prev l) : head ∉ l := (List.nodup_cons.1 h.nodup).1

theorem ne_head (h : IsCircular head next prev l) (hb : b ∈ l) : b ≠ head :=
  fun he => h.head_notMem (he ▸ hb)

/-- Backwards, the links are those of the reversed list. -/
theorem reverse (h : IsCircular head next prev l) : IsCircular head prev next l.reverse where
  nodup := by
    have := List.nodup_cons.1 h.nodup
    exact List.nodup_cons.2 ⟨by simpa using this.1, List.nodup_reverse.2 this.2⟩
  chain := by
    have hrev : head :: (l.reverse ++ [head]) = (head :: (l ++ [head])).reverse := by simp
    rw [hrev, List.isChain_reverse]
    exact h.chain.imp fun x y hxy => ⟨hxy.2, hxy.1⟩

theorem scan_eq_aux [DecidableEq α] (f : α → Bool) {x : α} {fuel : ℕ} (hl : head ∉ l)
    (h : List.IsChain (Linked next prev) (x :: (l ++ [head]))) (hfuel : l.length < fuel) :
    scan head next f fuel (next x) = l.find? f := by
  induction l generalizing x fuel with
  | nil =>
    cases fuel with
    | zero => exact absurd hfuel (Nat.not_lt_zero _)
    | succ fuel =>
      have hx : next x = head := (List.isChain_cons_cons.1 h).1.1
      rw [scan, if_pos hx]
      rfl
  | cons y l ih =>
    cases fuel with
    | zero => exact absurd hfuel (Nat.not_lt_zero _)
    | succ fuel =>
      obtain ⟨⟨hx, -⟩, h⟩ := List.isChain_cons_cons.1 h
      have hy : y ≠ head := fun he => hl (he ▸ List.mem_cons_self)
      rw [scan, hx, if_neg hy, List.find?_cons]
      cases hf : f y with
      | true => simp
      | false =>
        rw [if_neg Bool.false_ne_true]
        exact ih (fun hm => hl (List.mem_cons_of_mem _ hm)) h (Nat.lt_of_succ_lt_succ hfuel)

/-- Following links finds what searching the list finds. -/
theorem scan_eq [DecidableEq α] (h : IsCircular head next prev l) (f : α → Bool) {fuel : ℕ}
    (hfuel : l.length < fuel) : scan head next f fuel (next head) = l.find? f :=
  scan_eq_aux f h.head_notMem h.chain hfuel

variable [DecidableEq α]

/-- A cell is taken out: its neighbours are linked to each other. -/
theorem unlink {l₁ l₂ : List α} (h : IsCircular head next prev (l₁ ++ b :: l₂)) :
    IsCircular head (update next (prev b) (next b))
      (update prev (next b) (prev b)) (l₁ ++ l₂) := by
  have hnodup : (head :: l₁ ++ b :: l₂).Nodup := h.nodup
  have hb₁ : b ∉ head :: l₁ :=
    fun hm => (List.nodup_append.1 hnodup).2.2 b hm b List.mem_cons_self rfl
  have hb₂ : b ∉ l₂ := (List.nodup_cons.1 (List.nodup_append.1 hnodup).2.1).1
  -- the neighbours of `b`
  obtain ⟨k, x, hk⟩ : ∃ k x, head :: l₁ = k ++ [x] :=
    ⟨_, _, (List.dropLast_concat_getLast (List.cons_ne_nil head l₁)).symm⟩
  obtain ⟨y, m, hm⟩ : ∃ y m, l₂ ++ [head] = y :: m := List.exists_cons_of_ne_nil (by simp)
  have hchain := h.chain
  have hsplit : head :: (l₁ ++ b :: l₂ ++ [head]) = k ++ x :: b :: y :: m := by
    rw [List.append_assoc, List.cons_append, hm, ← List.cons_append, hk, List.append_assoc]
    rfl
  rw [hsplit, List.isChain_append_cons_cons, List.isChain_cons_cons] at hchain
  obtain ⟨hleft, ⟨hxn, hxp⟩, ⟨hyn, hyp⟩, hright⟩ := hchain
  have hby : b ∉ y :: m := by
    rw [← hm, List.mem_append, List.mem_singleton, not_or]
    exact ⟨hb₂, fun he => hb₁ (he ▸ List.mem_cons_self)⟩
  -- only the links of the neighbours change, and those lead to `b`
  have hkeep {r : List α} (hr : b ∉ r) (hc : List.IsChain (Linked next prev) r) : List.IsChain
      (Linked (update next (prev b) (next b)) (update prev (next b) (prev b))) r := by
    refine hc.imp_of_mem_imp fun u v hu hv huv => ?_
    have hux : u ≠ prev b := by
      rintro rfl
      rw [hxp] at huv
      exact hr (huv.1.symm.trans hxn ▸ hv)
    have hvy : v ≠ next b := by
      rintro rfl
      rw [hyn] at huv
      exact hr (huv.2.symm.trans hyp ▸ hu)
    exact ⟨(update_of_ne hux _ _).trans huv.1, (update_of_ne hvy _ _).trans huv.2⟩
  refine ⟨hnodup.sublist ((List.Sublist.refl (head :: l₁)).append
    (List.sublist_cons_self b l₂)), ?_⟩
  have hnew : head :: (l₁ ++ l₂ ++ [head]) = k ++ x :: y :: m := by
    rw [List.append_assoc, hm, ← List.cons_append, hk, List.append_assoc]
    rfl
  rw [hnew, List.isChain_append_cons_cons]
  refine ⟨hkeep (hk ▸ hb₁) hleft, ⟨?_, ?_⟩, hkeep hby hright⟩
  · rw [hxp, update_self, hyn]
  · rw [hyn, update_self, hxp]

/-- A cell is put in front. -/
theorem push (h : IsCircular head next prev l) (hb : b ∉ l) (hne : b ≠ head) :
    IsCircular head (update (update next b (next head)) head b)
      (update (update prev b head) (next head) b) (b :: l) := by
  obtain ⟨y, m, hm⟩ : ∃ y m, l ++ [head] = y :: m := List.exists_cons_of_ne_nil (by simp)
  have hnodup : (y :: m).Nodup := by
    rw [← hm, List.nodup_append_comm]
    exact h.nodup
  have hbm : b ∉ y :: m := by
    rw [← hm, List.mem_append, List.mem_singleton, not_or]
    exact ⟨hb, hne⟩
  have hchain := h.chain
  rw [hm, List.isChain_cons_cons] at hchain
  obtain ⟨⟨hyn, hyp⟩, hright⟩ := hchain
  refine ⟨?_, ?_⟩
  · refine List.nodup_cons.2 ⟨?_, List.nodup_cons.2 ⟨hb, (List.nodup_cons.1 h.nodup).2⟩⟩
    rw [List.mem_cons, not_or]
    exact ⟨hne.symm, h.head_notMem⟩
  · rw [List.cons_append, hm, List.isChain_cons_cons, List.isChain_cons_cons, hyn]
    have hby : b ≠ y := fun he => hbm (he ▸ List.mem_cons_self)
    refine ⟨⟨update_self _ _ _, ?_⟩, ⟨?_, update_self _ _ _⟩, ?_⟩
    · rw [update_of_ne hby, update_self]
    · rw [update_of_ne hne, update_self]
    · -- `head` points to the first cell, which no other cell points to
      refine hright.imp_of_mem_tail_imp fun u v hu hv huv => ?_
      have hvy : v ≠ y := fun he => (List.nodup_cons.1 hnodup).1 (he ▸ hv)
      have huh : u ≠ head := by
        rintro rfl
        exact hvy (huv.1.symm.trans hyn)
      have hub : u ≠ b := fun he => hbm (he ▸ hu)
      have hvb : v ≠ b := fun he => hbm (he ▸ List.mem_cons_of_mem _ hv)
      exact ⟨by rw [update_of_ne huh, update_of_ne hub, huv.1],
        by rw [update_of_ne hvy, update_of_ne hvb, huv.2]⟩

/-- A cell is moved to the front. -/
theorem unlink_push {l₁ l₂ : List α} (h : IsCircular head next prev (l₁ ++ b :: l₂)) :
    let next' := update next (prev b) (next b)
    let prev' := update prev (next b) (prev b)
    IsCircular head (update (update next' b (next' head)) head b)
      (update (update prev' b head) (next' head) b) (b :: (l₁ ++ l₂)) := by
  have hb : b ∉ l₁ ++ l₂ := (List.nodup_middle.1 (List.nodup_cons.1 h.nodup).2).notMem
  exact h.unlink.push hb (h.ne_head (List.mem_append_right _ List.mem_cons_self))

end IsCircular

end Xv6
