import Mathlib

/-!
# Runs of labelled systems

A system is a partial function `step : σ → ε → Option σ`: the state after an event, or `none` when
the event cannot happen. A run is a list of events, first event first. Everything is executable, so
a concrete run is checked by evaluating it.

A rule restricts what a run does, by what has been done before: it looks at marks that the events
leave behind.
-/

namespace Xv6

/-- What comes out of a computation is looked at by running it. -/
instance decidableExistsSome {α : Type*} (o : Option α) (P : α → Prop) [DecidablePred P] :
    Decidable (∃ a, o = some a ∧ P a) :=
  match o with
  | none => isFalse nofun
  | some a => decidable_of_iff (P a) (by simp)

/-- A system of one party. -/
instance neZero_one : NeZero 1 := ⟨one_ne_zero⟩

/-- A system of two parties. -/
instance neZero_two : NeZero 2 := ⟨two_ne_zero⟩

variable {σ ε : Type*} {step : σ → ε → Option σ}

/-- The state after the events `es`, or `none` if one of them cannot happen. -/
def runEvents (step : σ → ε → Option σ) : σ → List ε → Option σ
  | s, [] => some s
  | s, e :: es => (step s e).bind fun t => runEvents step t es

@[simp] theorem runEvents_nil (s : σ) : runEvents step s [] = some s := rfl

@[simp] theorem runEvents_cons (s : σ) (e : ε) (es : List ε) :
    runEvents step s (e :: es) = (step s e).bind fun t => runEvents step t es := rfl

theorem runEvents_append (s : σ) (es fs : List ε) :
    runEvents step s (es ++ fs) = (runEvents step s es).bind fun t => runEvents step t fs := by
  induction es generalizing s with
  | nil => rfl
  | cons e es ih =>
    rw [List.cons_append, runEvents_cons, runEvents_cons, Option.bind_assoc]
    exact congrArg _ (funext fun t => ih t)

variable {s t : σ} {es : List ε}

/-- The last event of a run happens in the state reached before it. -/
theorem runEvents_snoc {e : ε}
    (h : runEvents step s (es ++ [e]) = some t) :
    ∃ u, runEvents step s es = some u ∧ step u e = some t := by
  rw [runEvents_append] at h
  obtain ⟨u, hu, h⟩ := Option.bind_eq_some_iff.mp h
  rw [runEvents_cons] at h
  obtain ⟨v, hv, h⟩ := Option.bind_eq_some_iff.mp h
  exact ⟨u, hu, hv.trans h⟩

/-- The invariant rule for runs whose events all have a property. -/
theorem runEvents_invariant_of {I : σ → Prop} {P : ε → Prop}
    (hstep : ∀ s e t, P e → I s → step s e = some t → I t)
    (hP : ∀ e ∈ es, P e) (hs : I s) (h : runEvents step s es = some t) : I t := by
  induction es generalizing s with
  | nil => exact Option.some.inj h ▸ hs
  | cons e es ih =>
    obtain ⟨u, hu, h⟩ := Option.bind_eq_some_iff.mp h
    exact ih (fun e' he' => hP e' (List.mem_cons_of_mem _ he'))
      (hstep s e u (hP e List.mem_cons_self) hs hu) h

/-- **The invariant rule.** What every step keeps holds after every run. -/
theorem runEvents_invariant {I : σ → Prop} (hstep : ∀ s e t, I s → step s e = some t → I t)
    (hs : I s) (h : runEvents step s es = some t) : I t :=
  runEvents_invariant_of (P := fun _ => True) (fun s e t _ => hstep s e t) (fun _ _ => trivial) hs h

/-- A map that takes steps to steps takes runs to runs. -/
theorem runEvents_map {τ : Type*} {step' : τ → ε → Option τ} (f : σ → τ)
    (hstep : ∀ s e t, step s e = some t → step' (f s) e = some (f t))
    (h : runEvents step s es = some t) : runEvents step' (f s) es = some (f t) := by
  induction es generalizing s with
  | nil => exact congrArg some (congrArg f (Option.some.inj h))
  | cons e es ih =>
    obtain ⟨u, hu, h⟩ := Option.bind_eq_some_iff.mp h
    rw [runEvents_cons, hstep s e u hu]
    exact ih h

/-- The system in which an event happens only where it meets a condition. Its runs are the runs of
`step` in which every event meets the condition. -/
def restrict (P : σ → ε → Prop) [∀ s e, Decidable (P s e)] (step : σ → ε → Option σ) (s : σ)
    (e : ε) : Option σ :=
  if P s e then step s e else none

theorem restrict_eq_some {P : σ → ε → Prop} [∀ s e, Decidable (P s e)] {e : ε} :
    restrict P step s e = some t ↔ P s e ∧ step s e = some t := by
  unfold restrict
  split <;> simp_all

/-! ### Rules -/

/-- A rule on marks: which mark may come next, and what the rule remembers of it. -/
structure Rule (γ μ : Type*) where
  Fits : γ → μ → Prop
  after : γ → μ → γ

namespace Rule

variable {γ μ : Type*} {R : Rule γ μ}

/-- The marks come in an order that the rule allows. -/
def Follows (R : Rule γ μ) : γ → List μ → Prop
  | _, [] => True
  | g, m :: ms => R.Fits g m ∧ R.Follows (R.after g m) ms

instance decidableFollows [∀ g m, Decidable (R.Fits g m)] :
    ∀ (g : γ) (ms : List μ), Decidable (R.Follows g ms)
  | _, [] => isTrue trivial
  | g, m :: ms =>
    haveI := decidableFollows (R.after g m) ms
    inferInstanceAs (Decidable (R.Fits g m ∧ R.Follows (R.after g m) ms))

theorem follows_append (g : γ) (ms ms' : List μ) :
    R.Follows g (ms ++ ms') ↔ R.Follows g ms ∧ R.Follows (ms.foldl R.after g) ms' := by
  induction ms generalizing g with
  | nil => simp [Follows]
  | cons m ms ih => simp only [List.cons_append, Follows, ih, List.foldl_cons, and_assoc]

/-- **The invariant rule for runs that follow a rule.** An invariant may speak about what the rule
remembers. -/
theorem runEvents_invariant {mark : ε → Option μ} {I : σ → γ → Prop}
    (hstep : ∀ s e t g, I s g → (∀ m, mark e = some m → R.Fits g m) → step s e = some t →
      I t ((mark e).elim g (R.after g)))
    {s t : σ} {es : List ε} {g : γ} (hs : I s g) (hR : R.Follows g (es.filterMap mark))
    (h : runEvents step s es = some t) : I t ((es.filterMap mark).foldl R.after g) := by
  induction es generalizing s g with
  | nil => exact Option.some.inj h ▸ hs
  | cons e es ih =>
    obtain ⟨u, hu, h⟩ := Option.bind_eq_some_iff.mp h
    cases hm : mark e with
    | none =>
      rw [List.filterMap_cons_none hm] at hR ⊢
      have := hstep s e u g hs (by simp [hm]) hu
      rw [hm] at this
      exact ih this hR h
    | some m =>
      rw [List.filterMap_cons_some hm] at hR ⊢
      have := hstep s e u g hs (fun m' hm' => Option.some.inj (hm.symm.trans hm') ▸ hR.1) hu
      rw [hm] at this
      exact ih this hR.2 h

end Rule

end Xv6
