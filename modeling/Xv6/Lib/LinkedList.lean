import Mathlib

/-!
# Null-terminated linked lists

A linked list is given by its head and by a function from each cell to the next one, with a
distinguished value `nil` that is no cell. `IsList nil next head l` says that the cells met from
`head` are those of `l`, in order, and that the last one points to `nil`.
-/

namespace Xv6

variable {α : Type*} {nil : α} {next next' : α → α}

/-- The cells from `head` to `nil` are those of `l`. -/
def IsList (nil : α) (next : α → α) : α → List α → Prop
  | head, [] => head = nil
  | head, a :: l => head = a ∧ a ≠ nil ∧ IsList nil next (next a) l

namespace IsList

instance decidable [DecidableEq α] : (head : α) → (l : List α) → Decidable (IsList nil next head l)
  | head, [] => inferInstanceAs (Decidable (head = nil))
  | head, a :: l =>
    have := decidable (next a) l
    inferInstanceAs (Decidable (head = a ∧ a ≠ nil ∧ IsList nil next (next a) l))

variable {head a : α} {l : List α}

theorem congr (h : IsList nil next head l)
    (hn : ∀ a ∈ l, next' a = next a) : IsList nil next' head l := by
  induction l generalizing head with
  | nil => exact h
  | cons a l ih =>
    obtain ⟨rfl, ha, h⟩ := h
    refine ⟨rfl, ha, ih ?_ fun b hb => hn b (List.mem_cons_of_mem _ hb)⟩
    rwa [hn head List.mem_cons_self]

/-- A head determines its list. -/
theorem unique {l' : List α} (h : IsList nil next head l)
    (h' : IsList nil next head l') : l = l' := by
  induction l generalizing head l' with
  | nil =>
    cases l' with
    | nil => rfl
    | cons a l' => exact absurd (h'.1.symm.trans h) h'.2.1
  | cons a l ih =>
    obtain ⟨rfl, ha, h⟩ := h
    cases l' with
    | nil => exact absurd h' ha
    | cons b l' =>
      obtain ⟨rfl, -, h'⟩ := h'
      rw [ih h h']

/-- A cell of a list is the head of a shorter one. -/
theorem tail_of_mem (h : IsList nil next head l) (ha : a ∈ l) :
    ∃ l', IsList nil next a l' ∧ l'.length ≤ l.length := by
  induction l generalizing head with
  | nil => cases ha
  | cons b l ih =>
    rcases List.mem_cons.1 ha with rfl | ha
    · exact ⟨a :: l, ⟨rfl, h.2⟩, le_rfl⟩
    · obtain ⟨l', hl', hle⟩ := ih h.2.2 ha
      exact ⟨l', hl', hle.trans (Nat.le_succ _)⟩

/-- No cell occurs twice: it would be the head of two lists of different lengths. -/
theorem nodup (h : IsList nil next head l) : l.Nodup := by
  induction l generalizing head with
  | nil => exact List.nodup_nil
  | cons a l ih =>
    refine List.nodup_cons.2 ⟨fun ha => ?_, ih h.2.2⟩
    obtain ⟨l', hl', hle⟩ := h.2.2.tail_of_mem ha
    have hal : IsList nil next a (a :: l) := ⟨rfl, h.2⟩
    simp [hl'.unique hal] at hle

/-- Taking the first cell off. -/
theorem pop (h : IsList nil next head l) (hh : head ≠ nil) :
    ∃ l', l = head :: l' ∧ head ∉ l' ∧ IsList nil next (next head) l' := by
  cases l with
  | nil => exact absurd h hh
  | cons a l =>
    obtain rfl : head = a := h.1
    exact ⟨l, rfl, (List.nodup_cons.1 h.nodup).1, h.2.2⟩

/-- Putting a cell in front. -/
theorem push (h : IsList nil next head l) (hn : a ≠ nil)
    (hhead : next' a = head) (heq : ∀ b ∈ l, next' b = next b) : IsList nil next' a (a :: l) :=
  ⟨rfl, hn, by rw [hhead]; exact h.congr heq⟩

end IsList

end Xv6
