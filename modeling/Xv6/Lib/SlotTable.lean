import Mathlib.Data.List.Basic

/-!
# Tables with holes as finite maps

A table has numbered slots, and each of the first `n` is empty or holds a key and a value. The slots
are in no order. As long as no key stands in two slots, the table is a finite map.
-/

namespace Xv6

variable {κ α : Type*} [DecidableEq κ] {n n' k : ℕ} {e e' : ℕ → Option (κ × α)} {key : κ} {a : α}

/-- The first slot with a key. -/
def slotOf (n : ℕ) (e : ℕ → Option (κ × α)) (key : κ) : Option ℕ :=
  (List.range n).find? fun k => (e k).any fun p => p.1 = key

/-- The value that stands with a key. -/
def slotMap (n : ℕ) (e : ℕ → Option (κ × α)) (key : κ) : Option α :=
  (slotOf n e key).bind fun k => (e k).map Prod.snd

/-- No key stands in two slots. -/
def DistinctKeys (n : ℕ) (e : ℕ → Option (κ × α)) : Prop :=
  ∀ j < n, ∀ k < n, ∀ key a b, e j = some (key, a) → e k = some (key, b) → j = k

theorem slotOf_eq_none_iff : slotOf n e key = none ↔ ∀ k < n, ∀ a, e k ≠ some (key, a) := by
  rw [slotOf, List.find?_eq_none]
  constructor
  · intro h k hk a he
    refine h k (List.mem_range.mpr hk) ?_
    rw [he]
    exact decide_eq_true rfl
  · intro h k hk hany
    obtain ⟨⟨key', a⟩, he, hkey⟩ := (Option.any_eq_true _ _).mp hany
    obtain rfl : key' = key := of_decide_eq_true hkey
    exact h k (List.mem_range.mp hk) a he

theorem slotOf_eq_some (h : slotOf n e key = some k) : k < n ∧ ∃ a, e k = some (key, a) := by
  have hany := List.find?_some h
  obtain ⟨⟨key', a⟩, he, hkey⟩ := (Option.any_eq_true _ _).mp hany
  obtain rfl : key' = key := of_decide_eq_true hkey
  exact ⟨List.mem_range.mp (List.mem_of_find?_eq_some h), a, he⟩

/-- There is one slot with the key. -/
theorem slotOf_eq (h : DistinctKeys n e) (hk : k < n) (he : e k = some (key, a)) :
    slotOf n e key = some k := by
  cases hslot : slotOf n e key with
  | none => exact absurd he (slotOf_eq_none_iff.mp hslot k hk a)
  | some j =>
    obtain ⟨hj, b, hb⟩ := slotOf_eq_some hslot
    rw [h j hj k hk key b a hb he]

theorem slotMap_eq_none_iff : slotMap n e key = none ↔ ∀ k < n, ∀ a, e k ≠ some (key, a) := by
  rw [← slotOf_eq_none_iff, slotMap]
  cases hslot : slotOf n e key with
  | none => exact iff_of_true rfl rfl
  | some k =>
    obtain ⟨-, a, ha⟩ := slotOf_eq_some hslot
    rw [Option.bind_some, ha]
    exact iff_of_false nofun nofun

/-- The map has the value that stands in the first slot with the key. -/
theorem slotMap_of_first (hk : k < n) (he : e k = some (key, a))
    (hfirst : ∀ j < k, ∀ b, e j ≠ some (key, b)) : slotMap n e key = some a := by
  have hslot : slotOf n e key = some k := by
    refine List.find?_range_eq_some.mpr ⟨?_, List.mem_range.mpr hk, fun j hj => ?_⟩
    · rw [he]
      exact decide_eq_true rfl
    · rw [Bool.not_eq_true', Bool.eq_false_iff]
      intro hany
      obtain ⟨⟨key', b⟩, hb, hkey⟩ := (Option.any_eq_true _ _).mp hany
      obtain rfl : key' = key := of_decide_eq_true hkey
      exact hfirst j hj b hb
  rw [slotMap, hslot, Option.bind_some, he]
  rfl

theorem slotMap_eq_some_iff (h : DistinctKeys n e) :
    slotMap n e key = some a ↔ ∃ k < n, e k = some (key, a) := by
  constructor
  · intro hmap
    obtain ⟨k, hslot, ha⟩ := Option.bind_eq_some_iff.mp hmap
    obtain ⟨hk, b, hb⟩ := slotOf_eq_some hslot
    rw [hb] at ha
    cases ha
    exact ⟨k, hk, hb⟩
  · rintro ⟨k, hk, he⟩
    rw [slotMap, slotOf_eq h hk he, Option.bind_some, he]
    rfl

/-- Two maps are the same if they have the same values. -/
theorem slotMap_ext (h : DistinctKeys n' e') {m : κ → Option α}
    (hm : ∀ key a, (∃ k < n', e' k = some (key, a)) ↔ m key = some a) : slotMap n' e' = m := by
  funext key
  refine Option.ext fun a => ?_
  exact (slotMap_eq_some_iff h).trans (hm key a)

/-- The slots are as they were. -/
theorem slotMap_same (h : DistinctKeys n e) (hn' : n' = n) (hsame : ∀ j < n, e' j = e j) :
    DistinctKeys n' e' ∧ slotMap n' e' = slotMap n e := by
  subst hn'
  have hdist : DistinctKeys n' e' := fun i hi j hj key a b hia hjb =>
    h i hi j hj key a b ((hsame i hi).symm.trans hia) ((hsame j hj).symm.trans hjb)
  refine ⟨hdist, slotMap_ext hdist fun key a => ?_⟩
  rw [slotMap_eq_some_iff h]
  exact exists_congr fun j => and_congr_right fun hj => by rw [hsame j hj]

/-- **A slot that is empty, or that is the next one, is filled with a new key.** -/
theorem slotMap_fill (h : DistinctKeys n e) (hempty : k < n → e k = none) (hn' : n' = max n (k + 1))
    (hk : k ≤ n) (hself : e' k = some (key, a)) (hother : ∀ j < n, j ≠ k → e' j = e j)
    (hnew : slotMap n e key = none) :
    DistinctKeys n' e' ∧ slotMap n' e' = Function.update (slotMap n e) key (some a) := by
  have hold {j : ℕ} (hj : j < n') (hjk : j ≠ k) : j < n ∧ e' j = e j := by
    have hlt : j < n := by omega
    exact ⟨hlt, hother j hlt hjk⟩
  rw [slotMap_eq_none_iff] at hnew
  have hdist : DistinctKeys n' e' := by
    intro i hi j hj key' b c hib hjc
    by_cases hik : i = k <;> by_cases hjk : j = k
    · rw [hik, hjk]
    · rw [hik, hself] at hib
      obtain ⟨hlt, heq⟩ := hold hj hjk
      cases hib
      exact absurd (heq.symm.trans hjc) (hnew j hlt c)
    · rw [hjk, hself] at hjc
      obtain ⟨hlt, heq⟩ := hold hi hik
      cases hjc
      exact absurd (heq.symm.trans hib) (hnew i hlt b)
    · obtain ⟨hi', hei⟩ := hold hi hik
      obtain ⟨hj', hej⟩ := hold hj hjk
      exact h i hi' j hj' key' b c (hei.symm.trans hib) (hej.symm.trans hjc)
  refine ⟨hdist, slotMap_ext hdist fun key' b => ?_⟩
  by_cases hkey : key' = key
  · rw [hkey, Function.update_self]
    constructor
    · rintro ⟨j, hj, he⟩
      by_cases hjk : j = k
      · rw [hjk, hself] at he
        cases he
        rfl
      · obtain ⟨hlt, heq⟩ := hold hj hjk
        exact absurd (heq.symm.trans he) (hnew j hlt b)
    · intro hb
      cases hb
      exact ⟨k, by omega, hself⟩
  · rw [Function.update_of_ne hkey, slotMap_eq_some_iff h]
    constructor
    · rintro ⟨j, hj, he⟩
      have hjk : j ≠ k := by
        rintro rfl
        rw [hself] at he
        cases he
        exact hkey rfl
      obtain ⟨hlt, heq⟩ := hold hj hjk
      exact ⟨j, hlt, heq.symm.trans he⟩
    · rintro ⟨j, hj, he⟩
      have hjk : j ≠ k := by
        rintro rfl
        rw [hempty hj] at he
        cases he
      exact ⟨j, by omega, (hother j hj hjk).trans he⟩

/-- **A slot is emptied.** -/
theorem slotMap_clear (h : DistinctKeys n e) (hk : k < n) (he : e k = some (key, a))
    (hself : e' k = none) (hother : ∀ j < n, j ≠ k → e' j = e j) :
    DistinctKeys n e' ∧ slotMap n e' = Function.update (slotMap n e) key none := by
  have hold {j : ℕ} (hj : j < n) {p : κ × α} (hp : e' j = some p) : j ≠ k ∧ e j = some p := by
    have hjk : j ≠ k := by
      rintro rfl
      rw [hself] at hp
      cases hp
    exact ⟨hjk, (hother j hj hjk).symm.trans hp⟩
  have hdist : DistinctKeys n e' := fun i hi j hj key' b c hib hjc =>
    h i hi j hj key' b c (hold hi hib).2 (hold hj hjc).2
  refine ⟨hdist, slotMap_ext hdist fun key' b => ?_⟩
  by_cases hkey : key' = key
  · rw [hkey, Function.update_self]
    refine iff_of_false ?_ nofun
    rintro ⟨j, hj, hjb⟩
    obtain ⟨hjk, hjb⟩ := hold hj hjb
    exact hjk (h j hj k hk key b a hjb he)
  · rw [Function.update_of_ne hkey, slotMap_eq_some_iff h]
    constructor
    · rintro ⟨j, hj, hjb⟩
      exact ⟨j, hj, (hold hj hjb).2⟩
    · rintro ⟨j, hj, hjb⟩
      have hjk : j ≠ k := by
        rintro rfl
        rw [he] at hjb
        cases hjb
        exact hkey rfl
      exact ⟨j, hj, (hother j hj hjk).trans hjb⟩

end Xv6
