import Mathlib
import Xv6.Lib.LinkedList

/-!
# The page allocator

`kernel/kalloc.c` over physical memory as a function from page numbers to pages of 512 words. The
null pointer is page 0, which is not mapped. The free list is kept the way the source keeps it: the
first word of a free page holds the address of the next one. So a page that is freed twice, or
written to after it has been freed, spoils the list here as it does there.
-/

namespace Xv6

/-- A word of memory. -/
abbrev Word := BitVec 64

/-- A page of physical memory. -/
abbrev Page := Fin 512 → Word

instance neZero_words : NeZero 512 := ⟨by decide⟩

/-- The page where physical memory ends, `PHYSTOP / PGSIZE`. -/
abbrev PHYSTOPPG : ℕ := 0x88000

/-- The number of the page that a pointer points to. -/
def pageOf (w : Word) : ℕ := w.toNat / 4096

/-- The address of a page. -/
def addrOf (p : ℕ) : Word := BitVec.ofNat 64 (p * 4096)

theorem pageOf_addrOf {p : ℕ} (h : p < 2 ^ 52) : pageOf (addrOf p) = p := by
  rw [pageOf, addrOf, BitVec.toNat_ofNat, Nat.mod_eq_of_lt (by omega)]
  exact Nat.mul_div_cancel p (by decide)

/-- A page filled with one byte. -/
def fill (b : BitVec 8) : Page := fun _ => b ++ b ++ b ++ b ++ b ++ b ++ b ++ b

/-- Physical memory, the head `kmem.freelist` of the free list, and the first page after the
kernel. -/
structure Kmem where
  mem : ℕ → Page
  freelist : ℕ
  first : ℕ

namespace Kmem

/-- Overwrite a page. -/
def write (m : Kmem) (p : ℕ) (pg : Page) : Kmem := { m with mem := Function.update m.mem p pg }

/-- The page after `p` on the free list. -/
def next (m : Kmem) (p : ℕ) : ℕ := pageOf (m.mem p 0)

/-- `kalloc`: the page, or `0`. -/
def kalloc (m : Kmem) : ℕ × Kmem :=
  if m.freelist = 0 then (0, m)
  else (m.freelist, { m with freelist := m.next m.freelist }.write m.freelist (fill 5))

/-- Put a page on the free list. -/
def putFree (m : Kmem) (p : ℕ) : Kmem :=
  { m.write p (Function.update (fill 1) 0 (addrOf m.freelist)) with freelist := p }

/-- `kfree`. It panics when the page is not one that `kalloc` could have returned. -/
def kfree (m : Kmem) (p : ℕ) : Option Kmem :=
  if p < m.first ∨ PHYSTOPPG ≤ p then none
  else some (m.putFree p)

/-- The free list is well formed, and its pages are those of `l`. -/
structure Free (m : Kmem) (l : List ℕ) : Prop where
  first_pos : 0 < m.first
  isList : IsList 0 m.next m.freelist l
  range : ∀ p ∈ l, m.first ≤ p ∧ p < PHYSTOPPG

/-- The page is on the free list. -/
def IsFree (m : Kmem) (p : ℕ) : Prop := ∃ l, m.Free l ∧ p ∈ l

variable {m : Kmem} {l : List ℕ}

@[simp] theorem write_mem_self (m : Kmem) (p : ℕ) (pg : Page) : (m.write p pg).mem p = pg := by
  simp [write]

theorem write_mem_of_ne (m : Kmem) {p q : ℕ} (pg : Page) (h : q ≠ p) :
    (m.write p pg).mem q = m.mem q := by
  simp [write, h]

/-- Writing to a page in use leaves the free list alone. -/
theorem Free.write (h : m.Free l) {p : ℕ} (hp : p ∉ l) (pg : Page) : (m.write p pg).Free l where
  first_pos := h.first_pos
  isList := h.isList.congr fun q hq => by
    have hne : q ≠ p := fun he => hp (he ▸ hq)
    simp [next, write_mem_of_ne m pg hne]
  range := h.range

theorem Free.isFree_iff (h : m.Free l) {p : ℕ} : m.IsFree p ↔ p ∈ l := by
  refine ⟨?_, fun hp => ⟨l, h, hp⟩⟩
  rintro ⟨l', h', hp⟩
  rwa [h.isList.unique h'.isList]

theorem Free.freelist_lt (h : m.Free l) : m.freelist < 2 ^ 52 := by
  cases l with
  | nil =>
    have : m.freelist = 0 := h.isList
    omega
  | cons p l =>
    have h₁ : m.freelist = p := h.isList.1
    have h₂ : p < 0x88000 := (h.range p List.mem_cons_self).2
    omega

/-- `kalloc` takes a page off the free list and writes to this page only. -/
theorem Free.kalloc (h : m.Free l) (hne : m.freelist ≠ 0) :
    ∃ l', l = m.freelist :: l' ∧ m.freelist ∉ l' ∧ m.kalloc.1 = m.freelist ∧
      m.kalloc.2.Free l' ∧ ∀ p, p ≠ m.freelist → m.kalloc.2.mem p = m.mem p := by
  obtain ⟨l', rfl, hnot, ht⟩ := h.isList.pop hne
  refine ⟨l', rfl, hnot, by simp [Kmem.kalloc, hne], ?_, fun p hp => ?_⟩
  · rw [Kmem.kalloc, if_neg hne]
    have hrest : ({ m with freelist := m.next m.freelist } : Kmem).Free l' :=
      ⟨h.first_pos, ht, fun p hp => h.range p (List.mem_cons_of_mem _ hp)⟩
    exact hrest.write hnot _
  · rw [Kmem.kalloc, if_neg hne]
    exact write_mem_of_ne _ _ hp

theorem kfree_eq {p : ℕ} (hr : m.first ≤ p ∧ p < PHYSTOPPG) : m.kfree p = some (m.putFree p) :=
  if_neg (by omega)

theorem putFree_mem_of_ne (m : Kmem) {p q : ℕ} (h : q ≠ p) : (m.putFree p).mem q = m.mem q :=
  write_mem_of_ne m _ h

theorem putFree_write (m : Kmem) {p q : ℕ} (h : p ≠ q) (pg : Page) :
    (m.putFree q).write p pg = (m.write p pg).putFree q := by
  simp only [putFree, write, mk.injEq, and_true]
  exact (Function.update_comm h _ _ _).symm

/-- Putting a page that is in use on the free list. -/
theorem Free.putFree (h : m.Free l) {p : ℕ} (hp : p ∉ l) (hr : m.first ≤ p ∧ p < PHYSTOPPG) :
    (m.putFree p).Free (p :: l) := by
  have h₀ := h.first_pos
  have hp₀ : p ≠ 0 := by omega
  refine ⟨h₀, h.isList.push hp₀ ?_ fun q hq => ?_, ?_⟩
  · simp [next, Kmem.putFree, pageOf_addrOf h.freelist_lt]
  · have hne : q ≠ p := fun he => hp (he ▸ hq)
    simp [next, putFree_mem_of_ne m hne]
  · intro q hq
    rcases List.mem_cons.1 hq with rfl | hq
    · exact hr
    · exact h.range q hq

end Kmem

end Xv6
