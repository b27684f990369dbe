import Mathlib

/-!
# Sequences of writes

A store is a function `ι → β`, and a sequence of writes is a list of pairs, oldest first. What a
crash leaves behind is the effect of a prefix of such a sequence, so most lemmas here are about
`List.take`.
-/

namespace Xv6

variable {ι β : Type*} [DecidableEq ι]

/-- The store after the writes `ws`, oldest first. -/
def applyWrites (ws : List (ι × β)) (d : ι → β) : ι → β :=
  ws.foldl (fun d w => Function.update d w.1 w.2) d

@[simp] theorem applyWrites_nil (d : ι → β) : applyWrites [] d = d := rfl

@[simp] theorem applyWrites_cons (w : ι × β) (ws : List (ι × β)) (d : ι → β) :
    applyWrites (w :: ws) d = applyWrites ws (Function.update d w.1 w.2) := rfl

theorem applyWrites_append (ws vs : List (ι × β)) (d : ι → β) :
    applyWrites (ws ++ vs) d = applyWrites vs (applyWrites ws d) :=
  List.foldl_append

theorem applyWrites_of_notMem {ws : List (ι × β)} {d : ι → β} {a : ι}
    (h : ∀ w ∈ ws, w.1 ≠ a) : applyWrites ws d a = d a := by
  induction ws generalizing d with
  | nil => rfl
  | cons w ws ih =>
    rw [applyWrites_cons, ih fun v hv => h v (List.mem_cons_of_mem _ hv),
      Function.update_of_ne (h w List.mem_cons_self).symm]

/-- After a sequence of writes, two stores agree at every address where they agreed before and
at every address that was written. -/
theorem applyWrites_agree {ws : List (ι × β)} {d e : ι → β} {a : ι}
    (h : (∃ w ∈ ws, w.1 = a) ∨ d a = e a) : applyWrites ws d a = applyWrites ws e a := by
  induction ws generalizing d e with
  | nil =>
    rcases h with ⟨w, hw, -⟩ | h
    · exact absurd hw List.not_mem_nil
    · exact h
  | cons w ws ih =>
    rw [applyWrites_cons, applyWrites_cons]
    apply ih
    by_cases hw : w.1 = a
    · right
      rw [← hw, Function.update_self, Function.update_self]
    · rcases h with ⟨v, hv, hva⟩ | h
      · rcases List.mem_cons.mp hv with rfl | hv
        · exact absurd hva hw
        · exact Or.inl ⟨v, hv, hva⟩
      · right
        rw [Function.update_of_ne (Ne.symm hw), Function.update_of_ne (Ne.symm hw), h]

/-- Replaying a sequence of writes over the effect of one of its prefixes. -/
theorem applyWrites_take_self (ws : List (ι × β)) (k : ℕ) (d : ι → β) :
    applyWrites ws (applyWrites (ws.take k) d) = applyWrites ws d := by
  funext a
  apply applyWrites_agree
  by_cases h : ∃ w ∈ ws, w.1 = a
  · exact Or.inl h
  · right
    apply applyWrites_of_notMem
    intro w hw hwa
    exact h ⟨w, List.mem_of_mem_take hw, hwa⟩

/-- If every write stores the value of `f` at its address, a written address holds the value of
`f`, and so does one that held it before. -/
theorem applyWrites_eq_of_forall {ws : List (ι × β)} {d f : ι → β} {a : ι}
    (hf : ∀ w ∈ ws, w.2 = f w.1) (h : (∃ w ∈ ws, w.1 = a) ∨ d a = f a) :
    applyWrites ws d a = f a := by
  rw [applyWrites_agree (e := f) h]
  clear h
  induction ws with
  | nil => rfl
  | cons w ws ih =>
    rw [applyWrites_cons, hf w List.mem_cons_self, Function.update_eq_self]
    exact ih fun v hv => hf v (List.mem_cons_of_mem _ hv)

end Xv6
