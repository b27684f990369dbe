import Mathlib.Data.Fin.Basic

/-!
# Sleeping and waking

A process that waits for a condition gives up the lock that protects the condition and goes to sleep
on a channel. These are two steps, so there is a time when it has given up the lock and is not
asleep. It has a lock of its own all that time. A process that wakes the sleepers on a channel goes
through all the processes, one at a time, and it takes the own lock of each of them, so it does not
get past a process that is on its way to sleep.
-/

namespace Xv6

open Function (update update_self update_of_ne)

/-- How far a process is with going to sleep. -/
inductive Status (χ : Type*)
  | awake
  /-- The process has given up the lock of the condition, and holds its own. -/
  | falling (c : χ)
  | asleep (c : χ)
  deriving DecidableEq, Repr

namespace Status

variable {χ : Type*} {s t : Status χ} {c d : χ}

/-- The process is asleep on `c`, or is going to be. -/
def On (c : χ) (s : Status χ) : Prop := s = .falling c ∨ s = .asleep c

@[simp] theorem not_on_awake : ¬ On c .awake := by simp [On]

@[simp] theorem on_falling : On c (.falling d) ↔ d = c := by simp [On]

@[simp] theorem on_asleep : On c (.asleep d) ↔ d = c := by simp [On]

/-- What a waker of `c` does when it has the process's own lock. -/
def wake [DecidableEq χ] (c : χ) : Status χ → Option (Status χ)
  | .awake => some .awake
  | .falling _ => none
  | .asleep d => some (if d = c then .awake else .asleep d)

/-- The process is woken, whatever it sleeps on. -/
def rouse : Status χ → Option (Status χ)
  | .awake => some .awake
  | .falling _ => none
  | .asleep _ => some .awake

theorem eq_awake_of_rouse (h : s.rouse = some t) : t = .awake := by
  cases s <;> simp_all [rouse]

variable [DecidableEq χ]

theorem not_on_of_wake (h : s.wake c = some t) : ¬ t.On c := by
  cases s with
  | awake => cases h; exact not_on_awake
  | falling d => cases h
  | asleep d =>
    cases h
    split
    · exact not_on_awake
    · rwa [on_asleep]

theorem on_of_wake (h : s.wake c = some t) (ht : t.On d) : s.On d := by
  cases s with
  | awake => cases h; exact ht
  | falling e => cases h
  | asleep e =>
    cases h
    split at ht
    · exact absurd ht not_on_awake
    · exact ht

end Status

section WakeAt

variable {χ : Type*} [DecidableEq χ] {N : ℕ} {status status' : Fin N → Status χ} {c d : χ}
  {j k p : Fin N}

/-- The waker `j` looks at the process `k`. It passes itself over. -/
def wakeAt (c : χ) (j k : Fin N) (status : Fin N → Status χ) : Option (Fin N → Status χ) :=
  if k = j then some status
  else ((status k).wake c).map fun t => update status k t

/-- A waker sends nobody to sleep. -/
theorem on_of_wakeAt (h : wakeAt c j k status = some status') (hp : (status' p).On d) :
    (status p).On d := by
  unfold wakeAt at h
  split at h
  · exact Option.some.inj h ▸ hp
  · obtain ⟨t, ht, rfl⟩ := Option.map_eq_some_iff.mp h
    by_cases hpk : p = k
    · subst hpk
      rw [update_self] at hp
      exact Status.on_of_wake ht hp
    · rwa [update_of_ne hpk] at hp

/-- Whom a waker has looked at does not sleep on its channel. -/
theorem not_on_of_wakeAt (h : wakeAt c j k status = some status') (hkj : k ≠ j) :
    ¬ (status' k).On c := by
  unfold wakeAt at h
  rw [if_neg hkj] at h
  obtain ⟨t, ht, rfl⟩ := Option.map_eq_some_iff.mp h
  rw [update_self]
  exact Status.not_on_of_wake ht

end WakeAt

section Watched

variable {χ : Type*} {N : ℕ} {calm calm' : χ → Prop} {owes owes' : χ → Fin N → Prop}
  {status status' : Fin N → Status χ} {c : χ} {j : Fin N}

/-- Who sleeps on a channel has nothing to do there, or is going to be woken. -/
def Watched (calm : χ → Prop) (owes : χ → Fin N → Prop) (status : Fin N → Status χ) : Prop :=
  ∀ p c, (status p).On c → calm c ∨ owes c p

theorem Watched.mono (h : Watched calm owes status)
    (hon : ∀ p c, (status' p).On c → (status p).On c)
    (hcalm : ∀ p c, (status p).On c → calm c ∨ owes c p → calm' c ∨ owes' c p) :
    Watched calm' owes' status' :=
  fun p c hp => hcalm p c (hon p c hp) (h p c (hon p c hp))

/-- A process may begin to sleep where it is calm. -/
theorem Watched.falling (h : Watched calm owes status) (hc : calm c) :
    Watched calm owes (update status j (.falling c)) := by
  intro p d hp
  by_cases hpj : p = j
  · subst hpj
    rw [update_self, Status.on_falling] at hp
    exact .inl (hp ▸ hc)
  · rw [update_of_ne hpj] at hp
    exact h p d hp

theorem Watched.asleep (h : Watched calm owes status) (hj : status j = .falling c) :
    Watched calm owes (update status j (.asleep c)) := by
  intro p d hp
  by_cases hpj : p = j
  · subst hpj
    rw [update_self, Status.on_asleep] at hp
    exact h p d (by rw [hj, Status.on_falling, hp])
  · rw [update_of_ne hpj] at hp
    exact h p d hp

theorem Watched.awake (h : Watched calm owes status) :
    Watched calm owes (update status j .awake) := by
  intro p d hp
  by_cases hpj : p = j
  · rw [hpj, update_self] at hp
    exact absurd hp Status.not_on_awake
  · rw [update_of_ne hpj] at hp
    exact h p d hp

/-- A waker that has looked at process `k` owes nothing to it. -/
theorem Watched.wakeAt [DecidableEq χ] {k : Fin N}
    (h : Watched calm (fun d p => d = c ∧ k.val ≤ p.val) status)
    (hj : ∀ d, ¬ (status j).On d) (hw : Xv6.wakeAt c j k status = some status') :
    Watched calm (fun d p => d = c ∧ k.val + 1 ≤ p.val) status' := by
  intro p d hp
  have hon := on_of_wakeAt hw hp
  rcases h p d hon with hc | ⟨rfl, hkp⟩
  · exact .inl hc
  · have hpk : k ≠ p := by
      rintro rfl
      exact not_on_of_wakeAt hw (fun hkj => hj d (hkj ▸ hon)) hp
    have : k.val ≠ p.val := fun he => hpk (Fin.ext he)
    exact .inr ⟨rfl, by omega⟩

end Watched

end Xv6
