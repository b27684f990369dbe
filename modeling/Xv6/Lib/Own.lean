import Mathlib.Data.Finset.Card

/-!
# Who owns what

Resources are numbers, and `0` is none. There are slots that refer to resources, and a mark for each
resource that says whether it is taken. `Owns` says that the two agree: a resource is taken if and
only if a slot refers to it, and then only one slot does. Resources below `lo` are taken for good,
and nobody refers to them.
-/

namespace Xv6

open Function (update update_self update_of_ne)

variable {ι : Type*} {lo hi : ℕ} {ref : ι → ℕ} {used : ℕ → Bool} {i : ι} {b : ℕ}

/-- The slots own the resources from `lo` to `hi` that are marked. -/
structure Owns (lo hi : ℕ) (ref : ι → ℕ) (used : ℕ → Bool) : Prop where
  lo_pos : 0 < lo
  low : ∀ b < lo, used b = true
  inj : ∀ i j, ref i ≠ 0 → ref i = ref j → i = j
  range : ∀ i, ref i ≠ 0 → lo ≤ ref i ∧ ref i < hi
  used_iff : ∀ b, lo ≤ b → (used b = true ↔ ∃ i, ref i = b)

namespace Owns

theorem used_of_ref (h : Owns lo hi ref used) (hi : ref i ≠ 0) : used (ref i) = true :=
  (h.used_iff _ (h.range i hi).1).mpr ⟨i, rfl⟩

theorem le_of_free (h : Owns lo hi ref used) (hb : used b = false) : lo ≤ b := by
  by_contra hlt
  rw [h.low b (Nat.lt_of_not_le hlt)] at hb
  cases hb

/-- Nobody refers to a resource that is free. -/
theorem ref_ne_of_free (h : Owns lo hi ref used) (hb : used b = false) (i : ι) : ref i ≠ b := by
  rintro rfl
  rw [(h.used_iff _ (h.le_of_free hb)).mpr ⟨i, rfl⟩] at hb
  cases hb

variable [DecidableEq ι]

theorem take (h : Owns lo hi ref used) (hempty : ref i = 0) (hb : used b = false) (hbhi : b < hi) :
    Owns lo hi (update ref i b) (update used b true) := by
  have hlo := h.le_of_free hb
  have hself : update ref i b i = b := update_self _ _ _
  have hother {j : ι} (hj : j ≠ i) : update ref i b j = ref j :=
    update_of_ne hj _ _
  refine ⟨h.lo_pos, fun c hc => ?_, fun j k hj hjk => ?_, fun j hj => ?_, fun c hc => ?_⟩
  · rw [update_of_ne (Nat.ne_of_lt (Nat.lt_of_lt_of_le hc hlo))]
    exact h.low c hc
  · by_cases hji : j = i <;> by_cases hki : k = i
    · rw [hji, hki]
    · rw [hji, hself, hother hki] at hjk
      exact absurd hjk.symm (h.ref_ne_of_free hb k)
    · rw [hki, hself, hother hji] at hjk
      exact absurd hjk (h.ref_ne_of_free hb j)
    · rw [hother hji] at hj hjk
      rw [hother hki] at hjk
      exact h.inj j k hj hjk
  · by_cases hji : j = i
    · rw [hji, hself]
      exact ⟨hlo, hbhi⟩
    · rw [hother hji] at hj ⊢
      exact h.range j hj
  · by_cases hcb : c = b
    · rw [hcb, update_self]
      exact ⟨fun _ => ⟨i, hself⟩, fun _ => rfl⟩
    · rw [update_of_ne hcb, h.used_iff c hc]
      refine exists_congr fun j => ?_
      by_cases hji : j = i
      · rw [hji, hself, hempty]
        exact iff_of_false (Nat.ne_of_lt (Nat.lt_of_lt_of_le h.lo_pos hc)) (Ne.symm hcb)
      · rw [hother hji]

theorem drop (h : Owns lo hi ref used) (hfull : ref i ≠ 0) :
    Owns lo hi (update ref i 0) (update used (ref i) false) := by
  have hself : update ref i 0 i = 0 := update_self _ _ _
  have hother {j : ι} (hj : j ≠ i) : update ref i 0 j = ref j :=
    update_of_ne hj _ _
  -- a slot that still refers to something is another one
  have hne {j : ι} (hj : update ref i 0 j ≠ 0) : j ≠ i := by
    rintro rfl
    exact hj hself
  refine ⟨h.lo_pos, fun c hc => ?_, fun j k hj hjk => ?_, fun j hj => ?_, fun c hc => ?_⟩
  · rw [update_of_ne (Nat.ne_of_lt (Nat.lt_of_lt_of_le hc (h.range i hfull).1))]
    exact h.low c hc
  · have hji := hne hj
    have hki := hne (hjk ▸ hj)
    rw [hother hji] at hj hjk
    rw [hother hki] at hjk
    exact h.inj j k hj hjk
  · have hji := hne hj
    rw [hother hji] at hj ⊢
    exact h.range j hj
  · have hc₀ : c ≠ 0 := Nat.ne_of_gt (Nat.lt_of_lt_of_le h.lo_pos hc)
    by_cases hci : c = ref i
    · rw [hci, update_self]
      refine iff_of_false nofun ?_
      rintro ⟨j, hj⟩
      have hji := hne (hj ▸ hfull)
      rw [hother hji] at hj
      exact hji (h.inj j i (hj ▸ hfull) hj)
    · rw [update_of_ne hci, h.used_iff c hc]
      refine exists_congr fun j => ?_
      by_cases hji : j = i
      · rw [hji, hself]
        exact iff_of_false (Ne.symm hci) (Ne.symm hc₀)
      · rw [hother hji]

end Owns

/-! ### Counting -/

/-- How many of the slots in `P` are empty. -/
def emptyCount (ref : ι → ℕ) (P : Finset ι) : ℕ := (P.filter fun i => ref i = 0).card

/-- How many resources are free. -/
def freeCount (used : ℕ → Bool) (hi : ℕ) : ℕ :=
  ((Finset.range hi).filter fun b => used b = false).card

theorem emptyCount_take [DecidableEq ι] {P : Finset ι} (hi : i ∈ P) (hempty : ref i = 0)
    (hb : b ≠ 0) : emptyCount (update ref i b) P + 1 = emptyCount ref P := by
  have herase : (P.filter fun j => update ref i b j = 0) =
      (P.filter fun j => ref j = 0).erase i := by
    ext j
    rw [Finset.mem_erase, Finset.mem_filter, Finset.mem_filter]
    by_cases hj : j = i
    · rw [hj, update_self]
      exact ⟨fun h => absurd h.2 hb, fun h => absurd rfl h.1⟩
    · rw [update_of_ne hj]
      exact (and_iff_right hj).symm
  rw [emptyCount, herase]
  exact Finset.card_erase_add_one (Finset.mem_filter.mpr ⟨hi, hempty⟩)

theorem freeCount_take {n : ℕ} (hb : used b = false) (hlt : b < n) :
    freeCount (update used b true) n + 1 = freeCount used n := by
  have herase : ((Finset.range n).filter fun c => update used b true c = false) =
      ((Finset.range n).filter fun c => used c = false).erase b := by
    ext c
    rw [Finset.mem_erase, Finset.mem_filter, Finset.mem_filter]
    by_cases hc : c = b
    · rw [hc, update_self]
      exact ⟨fun h => absurd h.2 (by decide), fun h => absurd rfl h.1⟩
    · rw [update_of_ne hc]
      exact (and_iff_right hc).symm
  rw [freeCount, herase]
  exact Finset.card_erase_add_one (Finset.mem_filter.mpr ⟨Finset.mem_range.mpr hlt, hb⟩)

theorem freeCount_eq_zero {n : ℕ} : freeCount used n = 0 ↔ ∀ b < n, used b = true := by
  rw [freeCount, Finset.card_eq_zero, Finset.filter_eq_empty_iff]
  exact ⟨fun h b hb => Bool.not_eq_false _ ▸ h (Finset.mem_range.mpr hb),
    fun h b hb => by rw [h b (Finset.mem_range.mp hb)]; decide⟩

theorem emptyCount_pos {P : Finset ι} (hi : i ∈ P) (hempty : ref i = 0) : 0 < emptyCount ref P :=
  Finset.card_pos.mpr ⟨i, Finset.mem_filter.mpr ⟨hi, hempty⟩⟩

theorem emptyCount_mono {P : Finset ι} {ref' : ι → ℕ} (h : ∀ i, ref i ≠ 0 → ref' i ≠ 0) :
    emptyCount ref' P ≤ emptyCount ref P :=
  Finset.card_le_card (Finset.monotone_filter_right P fun i _ h' => not_imp_not.mp (h i) h')

end Xv6
