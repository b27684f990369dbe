import Mathlib

/-!
# Families in places that are used again

Every place holds one member of a family at a time. A member is born into a place that is free, gets
a parent, grows up, and dies; the place is free when it has been buried. Members have parents, and a
parent is known by its place only. Nobody dies before all its children have been given to somebody
else, and so nobody's parent is ever replaced by a stranger.

Ages tell members apart: each birth gets the next number. `kin` is the age of the parent at the time
when it became the parent.
-/

namespace Xv6

open Function (update update_self update_of_ne)

/-- What is in a place. -/
inductive Phase
  | absent
  | embryo
  | alive
  | dead
  deriving DecidableEq, Repr

/-- What is in the places of `ι`, and whose children they are. -/
structure Forest (ι : Type*) where
  phase : ι → Phase
  parent : ι → Option ι
  age : ι → ℕ
  /-- The age of the parent. -/
  kin : ι → ℕ
  /-- The next age. -/
  next : ℕ

namespace Forest

variable {ι : Type*} {F : Forest ι} {root i j : ι}

/-- The parents are alive and older, and they are who they were. -/
structure Ok (F : Forest ι) (root : ι) : Prop where
  root_alive : F.phase root = .alive
  root_age : F.age root = 0
  root_parent : F.parent root = none
  age_lt : ∀ i, F.phase i ≠ .absent → F.age i < F.next
  age_inj : ∀ i j, F.phase i ≠ .absent → F.phase j ≠ .absent → F.age i = F.age j → i = j
  present : ∀ i j, F.parent i = some j → F.phase i ≠ .absent
  parent_alive : ∀ i j, F.parent i = some j → F.phase j = .alive
  parent_age : ∀ i j, F.parent i = some j → F.age j < F.age i
  kin_eq : ∀ i j, F.parent i = some j → F.kin i = F.age j
  parent_ne : ∀ i, i ≠ root → F.phase i = .alive ∨ F.phase i = .dead → F.parent i ≠ none

theorem Ok.ne_root (h : F.Ok root) (hi : F.parent i ≠ none) : i ≠ root := by
  rintro rfl
  exact hi h.root_parent

/-- The parents of the parents lead to the root. -/
theorem Ok.reaches (h : F.Ok root) (hi : F.phase i = .alive ∨ F.phase i = .dead) :
    Relation.ReflTransGen (fun a b => F.parent a = some b) i root := by
  induction hn : F.age i using Nat.strongRecOn generalizing i with
  | ind n ih =>
    by_cases hroot : i = root
    · rw [hroot]
    · obtain ⟨j, hj⟩ := Option.ne_none_iff_exists'.mp (h.parent_ne i hroot hi)
      have hage := h.parent_age i j hj
      exact .head hj (ih (F.age j) (hn ▸ hage) (.inl (h.parent_alive i j hj)) rfl)

/-! ### What happens to members -/

variable [DecidableEq ι]

/-- A new member, without a parent. -/
@[simps] def born (F : Forest ι) (i : ι) : Forest ι :=
  { F with
    phase := update F.phase i .embryo
    age := update F.age i F.next
    next := F.next + 1 }

/-- `j` becomes the parent of `i`. -/
@[simps] def link (F : Forest ι) (i j : ι) : Forest ι :=
  { F with
    parent := update F.parent i (some j)
    kin := update F.kin i (F.age j) }

/-- A member comes alive. -/
@[simps] def grow (F : Forest ι) (i : ι) : Forest ι :=
  { F with phase := update F.phase i .alive }

/-- A member dies. -/
@[simps] def die (F : Forest ι) (i : ι) : Forest ι :=
  { F with phase := update F.phase i .dead }

/-- A dead member is removed. -/
@[simps] def bury (F : Forest ι) (i : ι) : Forest ι :=
  { F with
    phase := update F.phase i .absent
    parent := update F.parent i none }

theorem Ok.born (h : F.Ok root) (hi : F.phase i = .absent) : (F.born i).Ok root := by
  have hroot : root ≠ i := by
    rintro rfl
    rw [h.root_alive] at hi
    cases hi
  -- whoever is somebody's parent is not in place `i`
  have halive {j : ι} (hj : F.phase j = .alive) : j ≠ i := by
    rintro rfl
    rw [hi] at hj
    cases hj
  refine ⟨?_, ?_, h.root_parent, fun j hj => ?_, fun j k hj hk => ?_, fun j k hjk => ?_,
    fun j k hjk => ?_, fun j k hjk => ?_, fun j k hjk => ?_, fun j hj hp => ?_⟩ <;>
    simp only [Forest.born] at *
  · rw [update_of_ne hroot, h.root_alive]
  · rw [update_of_ne hroot, h.root_age]
  · by_cases hji : j = i
    · rw [hji, update_self]
      exact Nat.lt_succ_self _
    · rw [update_of_ne hji] at hj ⊢
      exact Nat.lt_succ_of_lt (h.age_lt j hj)
  · -- the new age is above all others
    by_cases hji : j = i <;> by_cases hki : k = i
    · exact fun _ => hji.trans hki.symm
    · rw [update_of_ne hki] at hk ⊢
      rw [hji, update_self]
      exact fun he => absurd he (Nat.ne_of_gt (h.age_lt k hk))
    · rw [update_of_ne hji] at hj ⊢
      rw [hki, update_self]
      exact fun he => absurd he (Nat.ne_of_lt (h.age_lt j hj))
    · rw [update_of_ne hji] at hj ⊢
      rw [update_of_ne hki] at hk ⊢
      exact h.age_inj j k hj hk
  · by_cases hji : j = i
    · rw [hji, update_self]
      exact nofun
    · rw [update_of_ne hji]
      exact h.present j k hjk
  · have hk := h.parent_alive j k hjk
    rw [update_of_ne (halive hk), hk]
  · have hji : j ≠ i := by
      rintro rfl
      exact h.present j k hjk hi
    rw [update_of_ne (halive (h.parent_alive j k hjk)), update_of_ne hji]
    exact h.parent_age j k hjk
  · rw [update_of_ne (halive (h.parent_alive j k hjk))]
    exact h.kin_eq j k hjk
  · by_cases hji : j = i
    · rw [hji, update_self] at hp
      simp at hp
    · rw [update_of_ne hji] at hp
      exact h.parent_ne j hj hp

theorem Ok.link (h : F.Ok root) (hroot : i ≠ root) (hi : F.phase i ≠ .absent)
    (hj : F.phase j = .alive) (hage : F.age j < F.age i) : (F.link i j).Ok root := by
  -- the new parent is as good as any
  have hcases (P : ι → ι → Prop) (hP : P i j) (hold : ∀ k l, F.parent k = some l → P k l) (k l : ι)
      (hkl : (F.link i j).parent k = some l) : P k l := by
    by_cases hki : k = i
    · subst hki
      simp only [Forest.link, update_self, Option.some.injEq] at hkl
      exact hkl ▸ hP
    · simp only [Forest.link, update_of_ne hki] at hkl
      exact hold k l hkl
  refine ⟨h.root_alive, h.root_age, ?_, h.age_lt, h.age_inj,
    hcases _ hi h.present, hcases (fun _ l => F.phase l = .alive) hj h.parent_alive,
    hcases (fun k l => F.age l < F.age k) hage h.parent_age, ?_, fun k hk hp => ?_⟩
  · simp only [Forest.link, update_of_ne hroot.symm]
    exact h.root_parent
  · intro k l hkl
    by_cases hki : k = i
    · subst hki
      simp only [Forest.link, update_self, Option.some.injEq] at hkl ⊢
      rw [hkl]
    · simp only [Forest.link, update_of_ne hki] at hkl ⊢
      exact h.kin_eq k l hkl
  · by_cases hki : k = i
    · simp [Forest.link, hki]
    · simp only [Forest.link, update_of_ne hki]
      exact h.parent_ne k hk hp

/-- Somebody who has a parent is given to the root. -/
theorem Ok.adopt (h : F.Ok root) (hi : F.parent i = some j) : (F.link i root).Ok root := by
  refine h.link (h.ne_root (by simp [hi])) (h.present i j hi) h.root_alive ?_
  rw [h.root_age]
  exact Nat.lt_of_le_of_lt (Nat.zero_le _) (h.parent_age i j hi)

theorem Ok.grow (h : F.Ok root) (hi : F.phase i ≠ .absent) (hp : F.parent i ≠ none) :
    (F.grow i).Ok root := by
  have habsent (j : ι) : (F.grow i).phase j ≠ .absent ↔ F.phase j ≠ .absent := by
    by_cases hji : j = i
    · simp [Forest.grow, hji, hi]
    · simp [Forest.grow, update_of_ne hji]
  have halive {j : ι} (hj : F.phase j = .alive) : (F.grow i).phase j = .alive := by
    by_cases hji : j = i
    · simp [Forest.grow, hji]
    · simp [Forest.grow, update_of_ne hji, hj]
  refine ⟨halive h.root_alive, h.root_age, h.root_parent, fun j hj => h.age_lt j ((habsent j).1 hj),
    fun j k hj hk => h.age_inj j k ((habsent j).1 hj) ((habsent k).1 hk),
    fun j k hjk => (habsent j).2 (h.present j k hjk),
    fun j k hjk => halive (h.parent_alive j k hjk), h.parent_age, h.kin_eq, fun j hj hph => ?_⟩
  by_cases hji : j = i
  · exact hji ▸ hp
  · simp only [Forest.grow, update_of_ne hji] at hph
    exact h.parent_ne j hj hph

/-- Somebody without children dies. -/
theorem Ok.die (h : F.Ok root) (hroot : i ≠ root) (hi : F.phase i = .alive)
    (hchildren : ∀ k, F.parent k ≠ some i) : (F.die i).Ok root := by
  have habsent (j : ι) : (F.die i).phase j ≠ .absent ↔ F.phase j ≠ .absent := by
    by_cases hji : j = i
    · simp [Forest.die, hji, hi]
    · simp [Forest.die, update_of_ne hji]
  have hother {j : ι} (hji : j ≠ i) : (F.die i).phase j = F.phase j := update_of_ne hji _ _
  refine ⟨(hother hroot.symm).trans h.root_alive, h.root_age, h.root_parent,
    fun j hj => h.age_lt j ((habsent j).1 hj),
    fun j k hj hk => h.age_inj j k ((habsent j).1 hj) ((habsent k).1 hk),
    fun j k hjk => (habsent j).2 (h.present j k hjk), fun j k hjk => ?_, h.parent_age, h.kin_eq,
    fun j hj hph => ?_⟩
  · have hki : k ≠ i := fun hki => hchildren j (hki ▸ hjk)
    exact (hother hki).trans (h.parent_alive j k hjk)
  · by_cases hji : j = i
    · exact hji ▸ h.parent_ne i hroot (.inl hi)
    · rw [hother hji] at hph
      exact h.parent_ne j hj hph

/-- Somebody who is not alive leaves its place. -/
theorem Ok.bury (h : F.Ok root) (hi : F.phase i ≠ .alive) : (F.bury i).Ok root := by
  have hroot : root ≠ i := fun he => hi (he ▸ h.root_alive)
  have hother {j : ι} (hji : j ≠ i) : (F.bury i).phase j = F.phase j := update_of_ne hji _ _
  have hpresent {j : ι} (hj : (F.bury i).phase j ≠ .absent) : j ≠ i ∧ F.phase j ≠ .absent := by
    have hji : j ≠ i := by
      rintro rfl
      exact hj (update_self _ _ _)
    exact ⟨hji, hother hji ▸ hj⟩
  have hparent {j k : ι} (hjk : (F.bury i).parent j = some k) : j ≠ i ∧ F.parent j = some k := by
    have hji : j ≠ i := by
      rintro rfl
      simp [Forest.bury] at hjk
    simp only [Forest.bury, update_of_ne hji] at hjk
    exact ⟨hji, hjk⟩
  refine ⟨(hother hroot).trans h.root_alive, h.root_age, ?_, fun j hj => h.age_lt j (hpresent hj).2,
    fun j k hj hk => h.age_inj j k (hpresent hj).2 (hpresent hk).2, fun j k hjk => ?_,
    fun j k hjk => ?_, fun j k hjk => h.parent_age j k (hparent hjk).2,
    fun j k hjk => h.kin_eq j k (hparent hjk).2, fun j hj hph => ?_⟩
  · simp only [Forest.bury, update_of_ne hroot]
    exact h.root_parent
  · rw [hother (hparent hjk).1]
    exact h.present j k (hparent hjk).2
  · have hk := h.parent_alive j k (hparent hjk).2
    have hki : k ≠ i := fun hki => hi (hki ▸ hk)
    exact (hother hki).trans hk
  · have hji : j ≠ i := (hpresent (by rcases hph with hph | hph <;> rw [hph] <;> decide)).1
    rw [hother hji] at hph
    simp only [Forest.bury, update_of_ne hji]
    exact h.parent_ne j hj hph

end Forest

end Xv6
