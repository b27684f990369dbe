import Xv6.Vm.AddressSpace
import Xv6.Vm.PageMap

/-!
# Tables that are built and taken down

`Built` is every page table that `uvmcreate`, `mappages` and `uvmunmap` can make, in memory that is
used for other things as well. When nothing is mapped, `freewalk` gives its pages back, each of them
once.
-/

namespace Xv6

open Vm Radix

namespace PageMap

/-! ### Taking a table down -/

/-- A page-table page of the given level, below which nothing is mapped. -/
def Bare (m : Kmem) : ℕ → ℕ → Prop
  | 0, p => ∀ k, m.child p k = none
  | level + 1, p => ∀ k q, m.child p k = some q →
    m.mem p k &&& (PTE_R ||| PTE_W ||| PTE_X) = 0 ∧ Bare m level q

section Freewalk

variable {m m' : Kmem} {r p q level : ℕ} {l : List ℕ}

theorem Bare.congr (h : Bare m level p) (hmem : ∀ x, Reach m.child level p x → m'.mem x = m.mem x) :
    Bare m' level p := by
  induction level generalizing p with
  | zero =>
    intro k
    rw [child_congr (hmem p (.refl _ 0 p))]
    exact h k
  | succ level ih =>
    intro k q hq
    have hp := hmem p (.refl _ _ p)
    rw [child_congr hp] at hq
    rw [hp]
    exact ⟨(h k q hq).1, ih (h k q hq).2 fun x hx => hmem x (reach_succ.2 (.inr ⟨k, q, hq, hx⟩))⟩

/-- A page-table page that can be freed with all below it. -/
structure Subtable (m : Kmem) (l : List ℕ) (level p : ℕ) : Prop where
  tree : IsTree m.child level p
  used : ∀ x, Reach m.child level p x → x ∉ l ∧ m.first ≤ x ∧ x < PHYSTOPPG
  bare : Bare m level p

/-- What is not below the page may change. -/
theorem Subtable.congr {l' : List ℕ} (h : Subtable m l level p) (hfirst : m'.first = m.first)
    (hmem : ∀ x, Reach m.child level p x → m'.mem x = m.mem x ∧ x ∉ l') :
    Subtable m' l' level p := by
  have hc (x : ℕ) (hx : Reach m.child level p x) : m'.child x = m.child x :=
    child_congr (hmem x hx).1
  refine ⟨h.tree.congr hc (Nat.le_succ _), fun x hx => ?_, h.bare.congr fun x hx => (hmem x hx).1⟩
  rw [reach_congr hc (Nat.le_succ _)] at hx
  exact ⟨(hmem x hx).2, hfirst ▸ (h.used x hx).2⟩

/-- The pages in `S` have been freed, and nothing else has been changed. -/
def Freed (S : ℕ → Prop) (m : Kmem) (l : List ℕ) (m' : Kmem) : Prop :=
  m'.first = m.first ∧ (∀ x, ¬ S x → m'.mem x = m.mem x) ∧
    ∃ ps, m'.Free (ps ++ l) ∧ ∀ x, x ∈ ps ↔ S x

/-- The program frees page-table pages of the given level with all below them. -/
def FreesBelow (level : ℕ) (free : ℕ → PhysM Unit) : Prop :=
  ∀ ⦃m l p⦄, m.Free l → Subtable m l level p → ∀ d, Runs (free p) ⟨m, d⟩ fun _ t =>
    Freed (Reach m.child level p) m l t.kmem

/-- What entry `k` of a page-table page points to, with all below it. -/
def Below (m : Kmem) (level p : ℕ) (ks : List (Fin 512)) (x : ℕ) : Prop :=
  ∃ k ∈ ks, ∃ q, m.child p k = some q ∧ Reach m.child level q x

variable {ks : List (Fin 512)}

theorem below_cons_none {k : Fin 512} (h : m.child p k = none) {x : ℕ} :
    Below m level p (k :: ks) x ↔ Below m level p ks x := by
  simp [Below, h]

theorem below_cons_some {k : Fin 512} (h : m.child p k = some q) {x : ℕ} :
    Below m level p (k :: ks) x ↔ Reach m.child level q x ∨ Below m level p ks x := by
  simp [Below, h]

/-- The entries of a page-table page can be freed one after another. -/
structure Entries (m : Kmem) (l : List ℕ) (level p : ℕ) (ks : List (Fin 512)) : Prop where
  notMem : p ∉ l
  sub : ∀ k ∈ ks, ∀ q, m.child p k = some q →
    m.mem p k &&& (PTE_R ||| PTE_W ||| PTE_X) = 0 ∧ Subtable m l level q ∧ ¬ Reach m.child level q p
  disjoint : ∀ k ∈ ks, ∀ k' ∈ ks, k ≠ k' → ∀ q q' x, m.child p k = some q → m.child p k' = some q' →
    Reach m.child level q x → ¬ Reach m.child level q' x

/-- The first entry has been freed and cleared. -/
theorem Entries.next {k : Fin 512} {l' : List ℕ}
    (h : Entries m l level p (k :: ks)) (hk : k ∉ ks) (hq : m.child p k = some q)
    (hfirst : m'.first = m.first) (hp : ∀ k' ≠ k, m'.mem p k' = m.mem p k')
    (hsame : ∀ x ≠ p, ¬ Reach m.child level q x → m'.mem x = m.mem x)
    (hl : ∀ x ∉ l, ¬ Reach m.child level q x → x ∉ l') :
    Entries m' l' level p ks ∧ ∀ x, Below m' level p ks x ↔ Below m level p ks x := by
  have hself : k ∈ k :: ks := List.mem_cons_self
  have hchild (k' : Fin 512) (hk' : k' ∈ ks) : m'.child p k' = m.child p k' := by
    rw [Kmem.child, Kmem.child, hp k' fun he => hk (he ▸ hk')]
  -- what is below the other entries is as it was
  have hmem (k' : Fin 512) (hk' : k' ∈ ks) (q' : ℕ) (hq' : m.child p k' = some q') (x : ℕ)
      (hx : Reach m.child level q' x) : ¬ Reach m.child level q x ∧ m'.mem x = m.mem x := by
    have hkk : k' ≠ k := fun he => hk (he ▸ hk')
    have hnot := h.disjoint k' (List.mem_cons_of_mem _ hk') k hself hkk q' q x hq' hq hx
    refine ⟨hnot, hsame x ?_ hnot⟩
    rintro rfl
    exact (h.sub k' (List.mem_cons_of_mem _ hk') q' hq').2.2 hx
  have hreach (k' : Fin 512) (hk' : k' ∈ ks) (q' : ℕ) (hq' : m.child p k' = some q') (x : ℕ) :
      Reach m'.child level q' x ↔ Reach m.child level q' x :=
    reach_congr (fun y hy => child_congr (hmem k' hk' q' hq' y hy).2) (Nat.le_succ _)
  refine ⟨⟨hl p h.notMem (h.sub k hself q hq).2.2, fun k' hk' q' hq' => ?_,
    fun k₁ h₁ k₂ h₂ hne q₁ q₂ x hq₁ hq₂ => ?_⟩, fun x => ?_⟩
  · rw [hchild k' hk'] at hq'
    obtain ⟨hnode, hsub, hnot⟩ := h.sub k' (List.mem_cons_of_mem _ hk') q' hq'
    rw [hreach k' hk' q' hq', hp k' fun he => hk (he ▸ hk')]
    refine ⟨hnode, hsub.congr hfirst fun x hx => ?_, hnot⟩
    obtain ⟨hx', hxm⟩ := hmem k' hk' q' hq' x hx
    exact ⟨hxm, hl x (hsub.used x hx).1 hx'⟩
  · rw [hchild k₁ h₁] at hq₁
    rw [hchild k₂ h₂] at hq₂
    rw [hreach k₁ h₁ q₁ hq₁, hreach k₂ h₂ q₂ hq₂]
    exact h.disjoint k₁ (List.mem_cons_of_mem _ h₁) k₂ (List.mem_cons_of_mem _ h₂) hne q₁ q₂ x
      hq₁ hq₂
  · constructor
    · rintro ⟨k', hk', q', hq', hx⟩
      rw [hchild k' hk'] at hq'
      exact ⟨k', hk', q', hq', (hreach k' hk' q' hq' x).1 hx⟩
    · rintro ⟨k', hk', q', hq', hx⟩
      exact ⟨k', hk', q', (hchild k' hk').trans hq', (hreach k' hk' q' hq' x).2 hx⟩

/-- The loop of `freewalk` frees all that is below the page. -/
theorem freeEntries_frees {free : ℕ → PhysM Unit} (hfree : FreesBelow level free) (hks : ks.Nodup)
    (hf : m.Free l) (h : Entries m l level p ks)
    (d : List Bool) : Runs (freeEntries free p ks) ⟨m, d⟩ fun _ t =>
      t.kmem.first = m.first ∧ (∀ x ≠ p, ¬ Below m level p ks x → t.kmem.mem x = m.mem x) ∧
      ∃ ps, t.kmem.Free (ps ++ l) ∧ ∀ x, x ∈ ps ↔ Below m level p ks x := by
  induction ks generalizing m l d with
  | nil => exact .pure ⟨rfl, fun _ _ _ => rfl, [], hf, fun x => by simp [Below]⟩
  | cons k ks ih =>
    obtain ⟨hk, hks⟩ := List.nodup_cons.1 hks
    change Runs (if m.mem p k &&& PTE_V ≠ 0 ∧ _ then _ else _ : PhysM Unit) _ _
    by_cases hV : m.mem p k &&& PTE_V ≠ 0
    swap
    · have hnone : m.child p k = none := if_neg hV
      rw [if_neg fun h => hV h.1, if_neg hV]
      have h' : Entries m l level p ks :=
        ⟨h.notMem, fun k' hk' => h.sub k' (List.mem_cons_of_mem _ hk'), fun k₁ h₁ k₂ h₂ =>
          h.disjoint k₁ (List.mem_cons_of_mem _ h₁) k₂ (List.mem_cons_of_mem _ h₂)⟩
      simp only [below_cons_none hnone]
      exact ih hks hf h' d
    have hq : m.child p k = some (pte2pa (m.mem p k)) := if_pos hV
    generalize hqe : pte2pa (m.mem p k) = q at hq
    obtain ⟨hnode, hsub, hnot⟩ := h.sub k List.mem_cons_self q hq
    rw [if_pos ⟨hV, hnode⟩]
    refine (hfree hf hsub d).bind ?_
    rintro - ⟨m₁, d₁⟩ ⟨hfirst₁, hsame₁, ps₁, hf₁, hps₁⟩
    have hpl : p ∉ ps₁ ++ l := by
      rw [List.mem_append, not_or]
      exact ⟨fun hp => hnot ((hps₁ p).1 hp), h.notMem⟩
    refine Runs.bind_run (a := ()) (t := ⟨_, d₁⟩) rfl ?_
    have hf₂ := hf₁.write hpl (Function.update (m₁.mem p) k 0)
    dsimp only at hf₂ hfirst₁ hsame₁ ⊢
    generalize hm₂ : m₁.write p (Function.update (m₁.mem p) k 0) = m₂ at hf₂ ⊢
    have hp₂ (k' : Fin 512) (hk' : k' ≠ k) : m₂.mem p k' = m.mem p k' := by
      rw [← hm₂, Kmem.write_mem_self, Function.update_of_ne hk', hsame₁ p hnot]
    have hsame₂ (x : ℕ) (hx : x ≠ p) (hxq : ¬ Reach m.child level q x) : m₂.mem x = m.mem x := by
      rw [← hm₂, Kmem.write_mem_of_ne _ _ hx, hsame₁ x hxq]
    have hfirst₂ : m₂.first = m.first := by rw [← hm₂, ← hfirst₁]; rfl
    have hl₂ (x : ℕ) (hx : x ∉ l) (hxq : ¬ Reach m.child level q x) : x ∉ ps₁ ++ l := by
      rw [List.mem_append, not_or]
      exact ⟨fun hp => hxq ((hps₁ x).1 hp), hx⟩
    obtain ⟨h₂, hbelow⟩ := h.next hk hq hfirst₂ hp₂ hsame₂ hl₂
    refine (ih hks hf₂ h₂ d₁).mono ?_
    rintro - t ⟨hfirst, hsame, ps, hft, hps⟩
    refine ⟨hfirst.trans hfirst₂, fun x hx hxb => ?_, ps ++ ps₁, ?_, fun x => ?_⟩
    · rw [below_cons_some hq, not_or] at hxb
      rw [hsame x hx (by rw [hbelow]; exact hxb.2), hsame₂ x hx hxb.1]
    · rwa [List.append_assoc]
    · rw [below_cons_some hq, List.mem_append, hps, hps₁, hbelow, or_comm]

/-- Entries that are not valid are passed over. -/
theorem freeEntries_none {free : ℕ → PhysM Unit} {s : Phys}
    (h : ∀ k, s.kmem.child p k = none) : (freeEntries free p ks).run s = .ok ((), s) := by
  induction ks with
  | nil => rfl
  | cons k ks ih =>
    have hV : ¬ s.kmem.mem p k &&& PTE_V ≠ 0 := fun hV => by
      have := h k
      rw [Kmem.child, if_pos hV] at this
      exact absurd this (by simp)
    change (if s.kmem.mem p k &&& PTE_V ≠ 0 ∧ _ then _ else _ : PhysM Unit).run s = _
    rw [if_neg fun h => hV h.1, if_neg hV]
    exact ih

/-- The page itself is freed after all that is below it. -/
theorem kfree_freed {S T : ℕ → Prop} (hp : p ∉ l) (hrange : m.first ≤ p ∧ p < PHYSTOPPG)
    (hST : ∀ x, T x ↔ x = p ∨ S x) (hpS : ¬ S p) (hfirst : m'.first = m.first)
    (hsame : ∀ x ≠ p, ¬ S x → m'.mem x = m.mem x)
    (hfree : ∃ ps, m'.Free (ps ++ l) ∧ ∀ x, x ∈ ps ↔ S x) (d : List Bool) :
    Runs (kfree p) ⟨m', d⟩ fun _ t => Freed T m l t.kmem := by
  obtain ⟨ps, hf, hps⟩ := hfree
  rw [← hfirst] at hrange
  refine .of_eq (kfree_run m' d hrange) ⟨hfirst, fun x hx => ?_, p :: ps, ?_, fun x => ?_⟩
  · rw [hST, not_or] at hx
    exact (Kmem.putFree_mem_of_ne m' hx.1).trans (hsame x hx.1 hx.2)
  · refine hf.putFree ?_ hrange
    rw [List.mem_append, hps, not_or]
    exact ⟨hpS, hp⟩
  · rw [List.mem_cons, hps, hST]

/-- The page-table pages that the entries of a page point to. -/
theorem Subtable.entries (h : Subtable m l (level + 1) p) (ks : List (Fin 512)) :
    Entries m l level p ks := by
  refine ⟨(h.used p (.refl _ _ p)).1, fun k _ q hq => ?_, fun k _ k' _ hne q q' x hq hq' => ?_⟩
  · refine ⟨(h.bare k q hq).1, ⟨h.tree.child hq, fun x hx => ?_, (h.bare k q hq).2⟩,
      h.tree.not_reach_root hq⟩
    exact h.used x (reach_succ.2 (.inr ⟨k, q, hq, hx⟩))
  · exact h.tree.disjoint hq hq' hne

/-- **`freewalk` frees a page-table page and all below it**, each page once. -/
theorem freewalk_frees (level : ℕ) : FreesBelow level (freewalk (level + 1)) := by
  induction level with
  | zero =>
    intro m l p hf h d
    obtain ⟨hp, hrange⟩ := h.used p (.refl _ _ p)
    rw [freewalk]
    refine Runs.bind_run (freeEntries_none fun k => h.bare k) ?_
    refine kfree_freed (S := fun _ => False) hp hrange (fun x => ?_) (fun h => h) rfl
      (fun _ _ _ => rfl) ⟨[], hf, fun x => by simp⟩ d
    rw [reach_zero, or_false]
  | succ level ih =>
    intro m l p hf h d
    obtain ⟨hp, hrange⟩ := h.used p (.refl _ _ p)
    have hentries := h.entries (List.finRange 512)
    rw [freewalk]
    refine (freeEntries_frees ih (List.nodup_finRange 512) hf hentries d).bind ?_
    rintro - ⟨m₁, d₁⟩ ⟨hfirst, hsame, hfree⟩
    refine kfree_freed hp hrange (fun x => ?_) (fun hx => ?_) hfirst hsame hfree d₁
    · rw [reach_succ, Below]
      simp
    · obtain ⟨k, hk, q, hq, hx⟩ := hx
      exact (hentries.sub k hk q hq).2.2 hx

/-- A table that maps nothing can be taken down. -/
theorem Table.subtable (h : Table m r l) (hnone : ∀ v < vpnLimit, m.leaf r v = none) :
    Subtable m l 2 r := by
  refine ⟨h.tree, h.used, fun k q hq => ⟨?_, fun j s hs => ⟨?_, fun i => ?_⟩⟩⟩
  · refine h.node r (.refl _ _ r) k fun hV => ?_
    rw [Kmem.child, if_neg (not_not.2 hV)] at hq
    exact absurd hq (by simp)
  · refine h.node q (reach_succ.2 (.inr ⟨k, q, hq, .refl _ _ q⟩)) j fun hV => ?_
    rw [Kmem.child, if_neg (not_not.2 hV)] at hs
    exact absurd hs (by simp)
  · obtain ⟨v, hv, hpath, hpx⟩ := exists_path k j i
    have hlevel : m.level0 r v = some s := by
      rw [level0_eq, hpath, find, hq, Option.bind_some, find, hs, Option.bind_some, find]
    have hleaf := hnone v hv
    rw [leaf_of_level0 hlevel, hpx] at hleaf
    rw [Kmem.child]
    split_ifs at hleaf with hV
    exact if_neg hV

end Freewalk

/-! ### Tables that are built -/

/-- The page is a page-table page of the table. -/
def InTable (m : Kmem) (r p : ℕ) : Prop := Reach m.child 2 r p

/-- The physical pages that `uvmunmap` is to free are the caller's: none is free or a page-table
page, and none is mapped twice. -/
structure Owned (m : Kmem) (r va npages : ℕ) : Prop where
  apart : ∀ v e, v * PGSIZE < MAXVA → InUnmap va npages v → m.leaf r v = some e →
    ¬ m.IsFree (pte2pa e) ∧ ¬ InTable m r (pte2pa e)
  once : ∀ v v' e e', v * PGSIZE < MAXVA → v' * PGSIZE < MAXVA → InUnmap va npages v →
    InUnmap va npages v' → m.leaf r v = some e → m.leaf r v' = some e' →
    pte2pa e = pte2pa e' → v = v'

/-- The page tables with root `r` that the kernel can build. Calls may fail, and between them
anything may happen to the rest of memory. -/
inductive Built (r : ℕ) : Kmem → Prop
  | create {m : Kmem} {l : List ℕ} {d : List Bool} {t : Phys} (hm : m.Free l)
    (h : uvmcreate.run ⟨m, d⟩ = .ok (r, t)) (hr : r ≠ 0) : Built r t.kmem
  | map {m : Kmem} {va size pa : ℕ} {perm : Word} {d : List Bool} {ok : Bool} {t : Phys}
    (hb : Built r m) (h : (mappages r va size pa perm).run ⟨m, d⟩ = .ok (ok, t)) : Built r t.kmem
  | unmap {m : Kmem} {va npages : ℕ} {doFree : Bool} {d : List Bool} {t : Phys} (hb : Built r m)
    (ho : doFree = true → Owned m r va npages)
    (h : (uvmunmap r va npages doFree).run ⟨m, d⟩ = .ok ((), t)) : Built r t.kmem
  | other {m m' : Kmem} {l : List ℕ} (hb : Built r m) (hfirst : m'.first = m.first)
    (hm : m'.Free l) (h : ∀ p, InTable m r p → m'.mem p = m.mem p ∧ p ∉ l) : Built r m'

section Built

variable {m : Kmem} {r va npages : ℕ} {l : List ℕ}

/-- A page without valid entries is a table that maps nothing. -/
theorem Table.new (hf : m.Free l) (hr : r ∉ l) (hrange : m.first ≤ r ∧ r < PHYSTOPPG)
    (hz : ∀ k, m.mem r k &&& PTE_V = 0) : Table m r l ∧ ∀ v, m.leaf r v = none := by
  have hchild (k : Fin 512) : m.child r k = none := if_neg (not_not.2 (hz k))
  have hfind {is : List (Fin 512)} {x : ℕ} (h : find m.child r is = some x) : is = [] ∧ x = r := by
    cases is with
    | nil => exact ⟨rfl, (Option.some.inj h).symm⟩
    | cons i is =>
      rw [find, hchild] at h
      exact absurd h (by simp)
  refine ⟨⟨hf, fun is js x _ _ hi hj => ?_, fun x hx => ?_, fun x hx k hV => ?_⟩,
    fun v => ?_⟩
  · rw [(hfind hi).1, (hfind hj).1]
  · obtain ⟨is, -, hx⟩ := hx
    rw [(hfind hx).2]
    exact ⟨hr, hrange⟩
  · obtain ⟨is, -, hx⟩ := hx
    rw [(hfind hx).2] at hV
    exact absurd (hz k) hV
  · rw [Kmem.leaf, Kmem.level0, hchild]
    rfl

/-- A new table maps nothing. -/
theorem uvmcreate_runs (hm : m.Free l) (d : List Bool) : Runs uvmcreate ⟨m, d⟩ fun q t => q ≠ 0 →
    ∃ l', Table t.kmem q l' ∧ ∀ v, t.kmem.leaf q v = none := by
  rw [uvmcreate]
  refine (kalloc_runs hm d).bind ?_
  rintro q ⟨m₁, d₁⟩ (⟨rfl, -⟩ | ⟨hq, l', hl, hnot, hf, hfirst, -⟩)
  · exact .pure fun h => absurd rfl h
  rw [if_neg hq]
  refine .of_eq rfl fun _ => ⟨l', Table.new (hf.write hnot _) hnot ?_ fun k => ?_⟩
  · have hrange := hm.range q (hl ▸ List.mem_cons_self)
    rw [← hfirst] at hrange
    exact hrange
  · change (m₁.write q (fill 0)).mem q k &&& PTE_V = 0
    rw [Kmem.write_mem_self]
    simp [fill]

/-- The pages that are freed, in terms of the free list. -/
theorem Owned.frees (h : Owned m r va npages) (ht : Table m r l) (halign : va % PGSIZE = 0)
    (hhigh : ∀ v < vpnLimit, MAXVA ≤ v * PGSIZE → m.leaf r v = none) :
    Frees m r l (va / PGSIZE) (((va + npages * PGSIZE) % 2 ^ 64 - va) / PGSIZE) := by
  have hiff (v : ℕ) : InUnmap va npages v ↔ va / PGSIZE ≤ v ∧
      v < va / PGSIZE + ((va + npages * PGSIZE) % 2 ^ 64 - va) / PGSIZE := inUnmap_arith halign
  have hlt {v : ℕ} {e : Word} (hv : v < vpnLimit) (he : m.leaf r v = some e) :
      v * PGSIZE < MAXVA := by
    by_contra hn
    rw [hhigh v hv (not_lt.1 hn)] at he
    exact absurd he (by simp)
  refine ⟨fun v hv e h₁ h₂ he => ?_, fun v hv v' hv' e e' h₁ h₂ h₃ h₄ he he' => ?_⟩
  · obtain ⟨hfree, hin⟩ := h.apart v e (hlt hv he) ((hiff v).2 ⟨h₁, h₂⟩) he
    rw [ht.free.isFree_iff] at hfree
    exact ⟨hfree, hin⟩
  · exact h.once v v' e e' (hlt hv he) (hlt hv' he') ((hiff v).2 ⟨h₁, h₂⟩)
      ((hiff v').2 ⟨h₃, h₄⟩) he he'

/-- Every table that is built is a tree, and maps nothing from `MAXVA` on. -/
theorem Built.table (h : Built r m) :
    ∃ l, Table m r l ∧ ∀ v < vpnLimit, MAXVA ≤ v * PGSIZE → m.leaf r v = none := by
  induction h with
  | create hm h hr =>
    obtain ⟨l, ht, hnone⟩ := (uvmcreate_runs hm _).elim h hr
    exact ⟨l, ht, fun v _ _ => hnone v⟩
  | map hb h ih =>
    obtain ⟨l, ht, hhigh⟩ := ih
    obtain ⟨l', j, ht', hmax, -, hleaf⟩ := (mappages_ends ht _ _ _ _ _).of_run h
    refine ⟨l', ht', fun v hv hge => ?_⟩
    rw [hleaf v hv, mapped, if_neg fun hin => absurd (hmax v hin.1 hin.2) (not_lt.2 hge),
      hhigh v hv hge]
  | @unmap m va npages doFree d t hb ho h ih =>
    obtain ⟨l, ht, hhigh⟩ := ih
    by_cases halign : va % PGSIZE = 0
    · obtain ⟨l', ht', hmax, hleaf⟩ :=
        (uvmunmap_ends ht (fun hd => (ho hd).frees ht halign hhigh) d).of_run h
      refine ⟨l', ht', fun v hv hge => ?_⟩
      rw [(hleaf v hv).2 fun hin => absurd (hmax v hin) (not_lt.2 hge), hhigh v hv hge]
    · rw [uvmunmap, if_pos halign] at h
      exact absurd h (by simp [Vm.panic, StateT.run])
  | other hb hfirst hm hmem ih =>
    obtain ⟨l, ht, hhigh⟩ := ih
    refine ⟨_, ht.other hfirst hm hmem, fun v hv hge => ?_⟩
    rw [leaf_congr fun p hp => (hmem p hp).1, hhigh v hv hge]

/-- `walk` finds the entry for a virtual page. -/
def Finds (m : Kmem) (r v : ℕ) (e : Word) : Prop :=
  ∃ p k, (∀ d, (walk r (v * PGSIZE) false).run ⟨m, d⟩ = .ok (some (p, k), ⟨m, d⟩)) ∧ m.mem p k = e

theorem finds_of_leaf {v : ℕ} {e : Word} (hv : v * PGSIZE < MAXVA) (h : m.leaf r v = some e) :
    Finds m r v e := by
  obtain ⟨p, hp, he, -⟩ := level0_of_leaf h
  refine ⟨p, px 0 (v * PGSIZE), fun d => ?_, he⟩
  rw [walk_run _ r hv, hp]
  rfl

/-- The physical page and the flags of the entry that `mappages` writes. -/
theorem entry_fields {pa : ℕ} {perm : Word} (hpa : pa < 2 ^ 44) (hperm : IsFlags perm) :
    pte2pa (pa2pte pa ||| perm ||| PTE_V) = pa ∧
      pteFlags (pa2pte pa ||| perm ||| PTE_V) = perm ||| PTE_V := by
  refine ⟨pte2pa_leaf hpa hperm, ?_⟩
  rw [BitVec.or_assoc, pteFlags_pa2pte pa (hperm.or (by decide))]

/-- **Page tables refine maps.** For every table that is built: after `mappages` has returned 0,
each page that it was asked for is found with its physical page and its flags, and the rest of the
map is as before; `uvmunmap` removes its pages and no others, and panics only if it cannot; and
`freewalk` puts every page-table page of a table without leaves on the free list, once. -/
theorem page_tables_refine_maps (h : Built r m) :
    (∀ va size pa perm d t, (mappages r va size pa perm).run ⟨m, d⟩ = .ok (true, t) →
      (∀ v, InMap va size v → ∃ e, Finds t.kmem r v e ∧
        e = pa2pte (pa + (v - va / PGSIZE)) ||| perm ||| PTE_V ∧
        (pa + (v - va / PGSIZE) < 2 ^ 44 → IsFlags perm →
          pte2pa e = pa + (v - va / PGSIZE) ∧ pteFlags e = perm ||| PTE_V)) ∧
      ∀ v, v * PGSIZE < MAXVA → ¬ InMap va size v → t.kmem.leaf r v = m.leaf r v) ∧
    (∀ va npages doFree d, (doFree = true → Owned m r va npages) →
      Ends (fun _ => ¬ (va % PGSIZE = 0 ∧ CanUnmap m r (va / PGSIZE)
          (((va + npages * PGSIZE) % 2 ^ 64 - va) / PGSIZE) doFree))
        (uvmunmap r va npages doFree) ⟨m, d⟩ fun _ t => ∀ v, v * PGSIZE < MAXVA →
          (InUnmap va npages v → t.kmem.leaf r v = none) ∧
          (¬ InUnmap va npages v → t.kmem.leaf r v = m.leaf r v)) ∧
    ((∀ v, v * PGSIZE < MAXVA → m.leaf r v = none) → ∀ l d, m.Free l →
      ∃ ps t, (freewalk 3 r).run ⟨m, d⟩ = .ok ((), t) ∧ t.kmem.Free (ps ++ l) ∧ (ps ++ l).Nodup ∧
        ∀ p, p ∈ ps ↔ InTable m r p) := by
  obtain ⟨l, ht, hhigh⟩ := h.table
  refine ⟨fun va size pa perm d t hrun => ?_, fun va npages doFree d ho => ?_,
    fun hnone l' d hfree => ?_⟩
  · obtain ⟨l', j, ht', hmax, hin, hleaf⟩ := (mappages_ends ht va size pa perm d).of_run hrun
    refine ⟨fun v hv => ?_, fun v hlt hv => ?_⟩
    · obtain ⟨h₁, h₂⟩ := (hin rfl v).1 hv
      have hlt := hmax v h₁ h₂
      refine ⟨_, finds_of_leaf hlt ?_, rfl, fun hpa hperm => entry_fields hpa hperm⟩
      rw [hleaf v (lt_vpnLimit_of_lt hlt), mapped, if_pos ⟨h₁, h₂⟩]
    · rw [hleaf v (lt_vpnLimit_of_lt hlt), mapped, if_neg fun h => hv ((hin rfl v).2 h)]
  · by_cases halign : va % PGSIZE = 0
    · refine (uvmunmap_ends ht (fun hd => (ho hd).frees ht halign hhigh) d).mono ?_
      rintro - t ⟨l', -, -, hleaf⟩
      exact fun v hv => hleaf v (lt_vpnLimit_of_lt hv)
    · rw [uvmunmap, if_pos halign]
      exact .of_error rfl fun h => halign h.1
  · have hall (v : ℕ) (hv : v < vpnLimit) : m.leaf r v = none := by
      by_cases hlt : v * PGSIZE < MAXVA
      · exact hnone v hlt
      · exact hhigh v hv (not_lt.1 hlt)
    obtain rfl : l' = l := hfree.isList.unique ht.free.isList
    obtain ⟨⟨⟩, t, hrun, -, -, ps, hps, hiff⟩ := freewalk_frees 2 hfree (ht.subtable hall) d
    exact ⟨ps, t, hrun, hps, hps.isList.nodup, hiff⟩

/-- Three pages are mapped, at an address that is not at the start of a page, and unmapped again. -/
theorem page_tables_refine_maps_threePages : ∃ (r : ℕ) (m : Kmem) (t u : Phys), Built r m ∧
    (mappages r 0x1234 0x2800 0x80200 (PTE_R ||| PTE_X)).run ⟨m, []⟩ = .ok (true, t) ∧
    (∃ e, Finds t.kmem r 3 e ∧ pte2pa e = 0x80202 ∧ pteFlags e = PTE_R ||| PTE_X ||| PTE_V) ∧
    t.kmem.leaf r 4 = m.leaf r 4 ∧
    (uvmunmap r 0x1000 3 false).run t = .ok ((), u) ∧ u.kmem.leaf r 3 = none ∧
    ∃ ps v l, u.kmem.Free l ∧ (freewalk 3 r).run u = .ok ((), v) ∧ v.kmem.Free (ps ++ l) := by
  obtain ⟨⟨r, s⟩, hcreate, hne, t, hmap, u, hunmap, -⟩ :
      ∃ x, uvmcreate.run ⟨somePages, []⟩ = .ok x ∧ x.1 ≠ 0 ∧
      ∃ t, (mappages x.1 0x1234 0x2800 0x80200 (PTE_R ||| PTE_X)).run ⟨x.2.kmem, []⟩ =
        .ok (true, t) ∧
      ∃ u, (uvmunmap x.1 0x1000 3 false).run t = .ok ((), u) ∧ True := by decide +kernel
  have hbuilt : Built r s.kmem := .create somePages_free hcreate hne
  have hbuilt' : Built r t.kmem := .map hbuilt hmap
  have hbuilt'' : Built r u.kmem :=
    .unmap hbuilt' (fun h : false = true => absurd h (by decide)) hunmap
  obtain ⟨-, -, hnone⟩ := (uvmcreate_runs somePages_free []).elim hcreate hne
  obtain ⟨hin, hout⟩ := (page_tables_refine_maps hbuilt).1 0x1234 0x2800 0x80200 _ [] t hmap
  have hrem := ((page_tables_refine_maps hbuilt').2.1 0x1000 3 false t.denied nofun).of_run hunmap
  have hthree : InUnmap 0x1000 3 3 := by decide
  obtain ⟨e, hfinds, -, hfields⟩ := hin 3 (by decide)
  obtain ⟨hpa, hflags⟩ := hfields (by decide) (by decide)
  obtain ⟨l, htable, -⟩ := hbuilt''.table
  have hempty (v : ℕ) (hv : v * PGSIZE < MAXVA) : u.kmem.leaf r v = none := by
    by_cases hu : InUnmap 0x1000 3 v
    · exact (hrem v hv).1 hu
    · have hm : ¬ InMap 0x1234 0x2800 v := by
        rintro ⟨h₁, h₂⟩
        refine hu ⟨h₁, ?_⟩
        have : v * 4096 ≤ 0x3000 := h₂
        change v * 4096 < 0x4000
        omega
      rw [(hrem v hv).2 hu, hout v hv hm, hnone v]
  obtain ⟨ps, v, hfree, hps, -⟩ := (page_tables_refine_maps hbuilt'').2.2 hempty l u.denied
    htable.free
  exact ⟨r, s.kmem, t, u, hbuilt, hmap, ⟨e, hfinds, hpa, hflags⟩, hout 4 (by decide) (by decide),
    hunmap, (hrem 3 (by decide)).1 hthree, ps, v, l, htable.free, hfree, hps⟩

end Built

end PageMap

end Xv6
