import Mathlib.Data.Nat.Notation

/-!
# Programs with a state that may fail

A program is a value of `StateT σ (Except ε) α`: it starts in a state, and either fails with an
error or returns a value and a new state. `Runs x s Q` is total correctness: from `s`, the program
`x` does not fail, and `Q` holds of what it returns and leaves behind. There is one rule for each
way of building a program. `Leaves x s Q` is partial correctness, for programs that may fail, and
`Ends E x s Q` says in addition with which errors they may.
-/

namespace Xv6

variable {σ ε α β : Type} {s t : σ} {a : α} {x : StateT σ (Except ε) α} {Q R : α → σ → Prop}

/-- The program `x` runs from `s` without failing and establishes `Q`. -/
def Runs (x : StateT σ (Except ε) α) (s : σ) (Q : α → σ → Prop) : Prop :=
  ∃ a t, x.run s = .ok (a, t) ∧ Q a t

theorem Runs.of_eq (h : x.run s = .ok (a, t)) (hQ : Q a t) : Runs x s Q := ⟨a, t, h, hQ⟩

theorem Runs.pure (h : Q a s) : Runs (pure a : StateT σ (Except ε) α) s Q := ⟨a, s, rfl, h⟩

variable {f : α → StateT σ (Except ε) β} {Q' : β → σ → Prop}

theorem Runs.bind (h : Runs x s R)
    (hf : ∀ a t, R a t → Runs (f a) t Q') : Runs (x >>= f) s Q' := by
  obtain ⟨a, t, hx, hR⟩ := h
  obtain ⟨b, u, hb, hQ⟩ := hf a t hR
  refine ⟨b, u, ?_, hQ⟩
  change (x.run s).bind (fun p => (f p.1).run p.2) = _
  rw [hx]
  exact hb

/-- A program whose beginning is known to end in a given way. -/
theorem run_bind (hx : x.run s = .ok (a, t)) :
    (x >>= f).run s = (f a).run t := by
  change (x.run s).bind (fun p => (f p.1).run p.2) = _
  rw [hx]
  rfl

theorem Runs.bind_run
    (hx : x.run s = .ok (a, t)) (h : Runs (f a) t Q') : Runs (x >>= f) s Q' := by
  obtain ⟨b, u, hb, hQ⟩ := h
  exact ⟨b, u, (run_bind hx).trans hb, hQ⟩

theorem Runs.mono (h : Runs x s R) (hQ : ∀ a t, R a t → Q a t) : Runs x s Q := by
  obtain ⟨a, t, hx, hR⟩ := h
  exact ⟨a, t, hx, hQ a t hR⟩

theorem Runs.get {Q : σ → σ → Prop} (h : Q s s) :
    Runs (get : StateT σ (Except ε) σ) s Q := ⟨s, s, rfl, h⟩

theorem Runs.modify {f : σ → σ} {Q : PUnit → σ → Prop} (h : Q ⟨⟩ (f s)) :
    Runs (modify f : StateT σ (Except ε) PUnit) s Q := ⟨⟨⟩, f s, rfl, h⟩

/-- A program has one outcome. -/
theorem Runs.elim (h : Runs x s Q) (hx : x.run s = .ok (a, t)) : Q a t := by
  obtain ⟨b, u, hb, hQ⟩ := h
  rw [hx] at hb
  cases hb
  exact hQ

/-- If the program `x` runs from `s` without failing, it establishes `Q`. -/
def Leaves (x : StateT σ (Except ε) α) (s : σ) (Q : α → σ → Prop) : Prop :=
  ∀ a t, x.run s = .ok (a, t) → Q a t

theorem Runs.leaves (h : Runs x s Q) : Leaves x s Q := fun _ _ hx => h.elim hx

theorem Leaves.bind (h : Leaves x s R)
    (hf : ∀ a t, R a t → Leaves (f a) t Q') : Leaves (x >>= f) s Q' := by
  intro b u hb
  change (x.run s).bind (fun p => (f p.1).run p.2) = _ at hb
  match hx : x.run s with
  | .ok (a, t) =>
    rw [hx] at hb
    exact hf a t (h a t hx) b u hb
  | .error e =>
    rw [hx] at hb
    exact absurd hb (fun he => nomatch he)

theorem Leaves.throw (e : ε) : Leaves (throw e : StateT σ (Except ε) α) s Q := fun _ _ h =>
  absurd h (fun he => nomatch he)

theorem Runs.not_error (h : Runs x s Q) (e : ε) : x.run s ≠ .error e := by
  obtain ⟨b, u, hb, -⟩ := h
  rw [hb]
  exact fun he => nomatch he

/-- What is returned is looked at by running the program. -/
instance decidableExistsOk (r : Except ε α) (P : α → Prop) [DecidablePred P] :
    Decidable (∃ a, r = .ok a ∧ P a) :=
  match r with
  | .error _ => isFalse nofun
  | .ok a => decidable_of_iff (P a) (by simp)

instance decidableExistsOkPair [DecidableEq α] (r : Except ε (α × σ)) (a : α) (P : σ → Prop)
    [DecidablePred P] : Decidable (∃ t, r = .ok (a, t) ∧ P t) :=
  decidable_of_iff (∃ x, r = .ok x ∧ a = x.1 ∧ P x.2)
    ⟨fun ⟨_, h, ha, hP⟩ => ⟨_, ha ▸ h, hP⟩, fun ⟨_, h, hP⟩ => ⟨_, h, rfl, hP⟩⟩

/-! ### Errors -/

variable {E : ε → Prop}

/-- From `s`, the program `x` establishes `Q` if it returns, and fails with no error but those of
`E`. -/
def Ends (E : ε → Prop) (x : StateT σ (Except ε) α) (s : σ) (Q : α → σ → Prop) : Prop :=
  match x.run s with
  | .ok (a, t) => Q a t
  | .error e => E e

theorem Ends.of_ok (h : x.run s = .ok (a, t)) (hQ : Q a t) : Ends E x s Q := by
  rw [Ends, h]
  exact hQ

theorem Ends.of_error {e : ε} (h : x.run s = .error e) (hE : E e) : Ends E x s Q := by
  rw [Ends, h]
  exact hE

theorem Ends.pure (h : Q a s) : Ends E (pure a : StateT σ (Except ε) α) s Q := h

theorem Ends.throw {e : ε} (h : E e) : Ends E (throw e : StateT σ (Except ε) α) s Q := h

theorem Ends.mono (h : Ends E x s R) (hQ : ∀ a t, R a t → Q a t) : Ends E x s Q := by
  rw [Ends] at h ⊢
  match x.run s, h with
  | .ok (a, t), h => exact hQ a t h
  | .error _, h => exact h

theorem Ends.weaken {E' : ε → Prop} (h : Ends E x s Q) (hE : ∀ e, E e → E' e) : Ends E' x s Q := by
  rw [Ends] at h ⊢
  match x.run s, h with
  | .ok (a, t), h => exact h
  | .error e, h => exact hE e h

/-- What is returned is what the run returns. -/
theorem Ends.with_run (h : Ends E x s Q) : Ends E x s fun a t => x.run s = .ok (a, t) ∧ Q a t := by
  rw [Ends] at h ⊢
  match hx : x.run s, h with
  | .ok (a, t), h => exact ⟨rfl, h⟩
  | .error e, h => exact h

theorem Ends.bind (h : Ends E x s R)
    (hf : ∀ a t, R a t → Ends E (f a) t Q') : Ends E (x >>= f) s Q' := by
  rw [Ends] at h ⊢
  change match (x.run s).bind fun p => (f p.1).run p.2 with
    | .ok (b, u) => Q' b u
    | .error e => E e
  match x.run s, h with
  | .ok (a, t), h => exact hf a t h
  | .error _, h => exact h

theorem Runs.ends (h : Runs x s Q) : Ends E x s Q := by
  obtain ⟨a, t, hx, hQ⟩ := h
  exact .of_ok hx hQ

/-- What a program that returns has established. -/
theorem Ends.of_run (h : Ends E x s Q) (hx : x.run s = .ok (a, t)) : Q a t := by
  rwa [Ends, hx] at h

end Xv6
