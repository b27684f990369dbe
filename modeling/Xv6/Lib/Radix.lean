import Mathlib.Data.List.Induction

/-!
# Trees of pages

Pages that point to pages, each through a table of indices. A path of indices leads from a root to a
page. Down to a given depth the pages form a tree when no page is found on two paths, so that what
is written to one page changes what is found on one path only.

Nothing is said of what pages hold besides their pointers, and the pages at the greatest depth may
hold anything: what looks like a pointer there is not followed.
-/

namespace Xv6.Radix

variable {P I : Type*} {ptr ptr' : P → I → Option P} {d : ℕ} {r p q x : P} {i j : I}
  {is js : List I}

/-- The page at the end of a path. -/
def find (ptr : P → I → Option P) : P → List I → Option P
  | p, [] => some p
  | p, i :: is => (ptr p i).bind fun q => find ptr q is

/-- The page is found on a path of at most `d` indices. -/
def Reach (ptr : P → I → Option P) (d : ℕ) (r q : P) : Prop :=
  ∃ is : List I, is.length ≤ d ∧ find ptr r is = some q

/-- No page is found on two paths of at most `d` indices. -/
def IsTree (ptr : P → I → Option P) (d : ℕ) (r : P) : Prop :=
  ∀ is js q, is.length ≤ d → js.length ≤ d → find ptr r is = some q → find ptr r js = some q →
    is = js

theorem find_append (ptr : P → I → Option P) (r : P) (is js : List I) :
    find ptr r (is ++ js) = (find ptr r is).bind fun q => find ptr q js := by
  induction is generalizing r with
  | nil => rfl
  | cons i is ih =>
    rw [List.cons_append, find, find, Option.bind_assoc]
    congr 1
    funext q
    exact ih q

theorem find_concat (ptr : P → I → Option P) (r : P) (is : List I) (i : I) :
    find ptr r (is ++ [i]) = (find ptr r is).bind fun q => ptr q i := by
  rw [find_append]
  congr 1
  funext q
  rw [find]
  exact Option.bind_fun_some _

theorem Reach.refl (ptr : P → I → Option P) (d : ℕ) (r : P) : Reach ptr d r r :=
  ⟨[], Nat.zero_le d, rfl⟩

theorem Reach.mono {d' : ℕ} (h : Reach ptr d r q) (hd : d ≤ d') : Reach ptr d' r q := by
  obtain ⟨is, hl, hf⟩ := h
  exact ⟨is, Nat.le_trans hl hd, hf⟩

/-- What is reached from a page is the page itself or reached from a page that it points to. -/
theorem reach_succ : Reach ptr (d + 1) r x ↔ x = r ∨ ∃ i q, ptr r i = some q ∧ Reach ptr d q x := by
  constructor
  · rintro ⟨is, hl, hf⟩
    cases is with
    | nil => exact .inl (Option.some.inj hf).symm
    | cons i is =>
      obtain ⟨q, hq, hf⟩ := Option.bind_eq_some_iff.1 hf
      exact .inr ⟨i, q, hq, is, Nat.le_of_succ_le_succ hl, hf⟩
  · rintro (rfl | ⟨i, q, hq, is, hl, hf⟩)
    · exact .refl ptr _ x
    · exact ⟨i :: is, Nat.succ_le_succ hl, by rw [find, hq, Option.bind_some, hf]⟩

theorem reach_zero : Reach ptr 0 r x ↔ x = r := by
  constructor
  · rintro ⟨is, hl, hf⟩
    obtain rfl := List.length_eq_zero_iff.1 (Nat.le_zero.1 hl)
    exact (Option.some.inj hf).symm
  · rintro rfl
    exact .refl ptr 0 x

/-! ### Other pages -/

/-- What is found does not depend on pages that are not on the way. -/
theorem find_congr (h : ∀ q, Reach ptr d r q → ptr' q = ptr q) (hl : is.length ≤ d + 1) :
    find ptr' r is = find ptr r is := by
  induction is generalizing r d with
  | nil => rfl
  | cons i is ih =>
    rw [find, find, h r (.refl ptr d r)]
    match hq : ptr r i with
    | none => rfl
    | some q =>
      rw [Option.bind_some, Option.bind_some]
      cases d with
      | zero =>
        obtain rfl := List.length_eq_zero_iff.1 (Nat.le_zero.1 (Nat.le_of_succ_le_succ hl))
        rfl
      | succ d =>
        exact ih (fun x hx => h x (reach_succ.2 (.inr ⟨i, q, hq, hx⟩))) (Nat.le_of_succ_le_succ hl)

theorem reach_congr {e : ℕ} (h : ∀ q, Reach ptr d r q → ptr' q = ptr q) (he : e ≤ d + 1) :
    Reach ptr' e r x ↔ Reach ptr e r x := by
  refine exists_congr fun is => and_congr_right fun hl => ?_
  rw [find_congr h (Nat.le_trans hl he)]

theorem IsTree.congr {e : ℕ} (h : IsTree ptr e r) (hc : ∀ q, Reach ptr d r q → ptr' q = ptr q)
    (he : e ≤ d + 1) : IsTree ptr' e r := by
  intro is js q hi hj hfi hfj
  rw [find_congr hc (Nat.le_trans hi he)] at hfi
  rw [find_congr hc (Nat.le_trans hj he)] at hfj
  exact h is js q hi hj hfi hfj

/-! ### Linking a page -/

/-- The page `q` has been linked to entry `k` of page `p`, and points nowhere yet. -/
structure Linked (ptr ptr' : P → I → Option P) (p : P) (k : I) (q : P) : Prop where
  entry : ptr' p k = some q
  fresh : ∀ i, ptr' q i = none
  other : ∀ x i, x ≠ q → ¬ (x = p ∧ i = k) → ptr' x i = ptr x i

variable {k : I}

/-- **Only what is found on the path to the new page changes.** -/
theorem IsTree.find_link [DecidableEq I] (h : IsTree ptr (d + 1) r) (hp : find ptr r is = some p)
    (his : is.length ≤ d) (hk : ptr p k = none) (hq : ¬ Reach ptr (d + 1) r q)
    (hl : Linked ptr ptr' p k q) (hjs : js.length ≤ d + 1) :
    find ptr' r js = if js = is ++ [k] then some q else find ptr r js := by
  induction js using List.reverseRecOn with
  | nil => rw [if_neg (by simp)]; rfl
  | append_singleton js i ih =>
    rw [List.length_append, List.length_singleton] at hjs
    rw [find_concat, find_concat, ih (by omega)]
    by_cases hnew : js = is ++ [k]
    · -- nothing is below the new page
      have hne : js ++ [i] ≠ is ++ [k] := by
        rw [hnew]
        simp
      have hnone : find ptr r js = none := by
        rw [hnew, find_concat, hp, Option.bind_some, hk]
      rw [if_pos hnew, if_neg hne, Option.bind_some, hl.fresh, hnone]
      rfl
    rw [if_neg hnew]
    by_cases hpk : js = is ∧ i = k
    · obtain ⟨rfl, rfl⟩ := hpk
      rw [if_pos rfl, hp, Option.bind_some, hl.entry]
    have hne : js ++ [i] ≠ is ++ [k] := fun he => hpk (by simpa using List.append_inj' he rfl)
    rw [if_neg hne]
    match hx : find ptr r js with
    | none => rfl
    | some x =>
      rw [Option.bind_some, Option.bind_some]
      refine hl.other x i ?_ ?_
      · rintro rfl
        exact hq ⟨js, by omega, hx⟩
      · rintro ⟨rfl, rfl⟩
        exact hpk ⟨h js is x (by omega) (by omega) hx hp, rfl⟩

section Link

variable [DecidableEq I] (h : IsTree ptr (d + 1) r) (hp : find ptr r is = some p)
  (his : is.length ≤ d) (hk : ptr p k = none) (hq : ¬ Reach ptr (d + 1) r q)
  (hl : Linked ptr ptr' p k q)

include h hp his hk hq hl

theorem IsTree.reach_link : Reach ptr' (d + 1) r x ↔ Reach ptr (d + 1) r x ∨ x = q := by
  have hnone : find ptr r (is ++ [k]) = none := by rw [find_concat, hp, Option.bind_some, hk]
  constructor
  · rintro ⟨js, hjs, hf⟩
    rw [h.find_link hp his hk hq hl hjs] at hf
    split_ifs at hf
    · exact .inr (Option.some.inj hf).symm
    · exact .inl ⟨js, hjs, hf⟩
  · rintro (⟨js, hjs, hf⟩ | rfl)
    · refine ⟨js, hjs, ?_⟩
      rw [h.find_link hp his hk hq hl hjs, if_neg, hf]
      rintro rfl
      simp [hnone] at hf
    · have hlen : (is ++ [k]).length ≤ d + 1 := by simpa using his
      exact ⟨is ++ [k], hlen, by rw [h.find_link hp his hk hq hl hlen, if_pos rfl]⟩

theorem IsTree.link : IsTree ptr' (d + 1) r := by
  intro js js' x hjs hjs' hf hf'
  rw [h.find_link hp his hk hq hl hjs] at hf
  rw [h.find_link hp his hk hq hl hjs'] at hf'
  split_ifs at hf hf' with h₁ h₂ h₂
  · rw [h₁, h₂]
  · cases hf
    exact absurd ⟨js', hjs', hf'⟩ hq
  · cases hf'
    exact absurd ⟨js, hjs, hf⟩ hq
  · exact h js js' x hjs hjs' hf hf'

end Link

/-! ### Subtrees -/

section Subtrees

variable (h : IsTree ptr (d + 1) r)

include h

theorem IsTree.child (hq : ptr r i = some q) : IsTree ptr d q := by
  intro is js x hi hj hfi hfj
  have hcons (is : List I) : find ptr r (i :: is) = find ptr q is := by
    rw [find, hq, Option.bind_some]
  have := h (i :: is) (i :: js) x (Nat.succ_le_succ hi) (Nat.succ_le_succ hj) (by rwa [hcons])
    (by rwa [hcons])
  exact (List.cons.inj this).2

/-- The root is not below itself. -/
theorem IsTree.not_reach_root (hq : ptr r i = some q) : ¬ Reach ptr d q r := by
  rintro ⟨is, hl, hf⟩
  have hcons : find ptr r (i :: is) = some r := by rw [find, hq, Option.bind_some, hf]
  exact absurd (h (i :: is) [] r (Nat.succ_le_succ hl) (Nat.zero_le _) hcons rfl)
    (List.cons_ne_nil i is)

/-- What is below different entries is apart. -/
theorem IsTree.disjoint (hq : ptr r i = some q) (hq' : ptr r j = some p) (hij : i ≠ j)
    (hx : Reach ptr d q x) : ¬ Reach ptr d p x := by
  rintro ⟨js, hjs, hj⟩
  obtain ⟨is, his, hi⟩ := hx
  have h₁ : find ptr r (i :: is) = some x := by rw [find, hq, Option.bind_some, hi]
  have h₂ : find ptr r (j :: js) = some x := by rw [find, hq', Option.bind_some, hj]
  have := h (i :: is) (j :: js) x (Nat.succ_le_succ his) (Nat.succ_le_succ hjs) h₁ h₂
  exact hij (List.cons.inj this).1

end Subtrees

end Xv6.Radix
