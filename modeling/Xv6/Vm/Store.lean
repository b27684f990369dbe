import Xv6.Lib.Wp
import Xv6.Vm.Tables

/-!
# Programs on tidy memory

A `Store` is memory together with labels that describe it. The functions of `kernel/vm.c` that work
on a single page of an address space take a store to a store, and what they do to the mappings of
all address spaces is described by a relation between the two.
-/

namespace Xv6.Vm

open Function (update update_self update_of_ne update_apply)

/-- Memory and labels that describe it. -/
structure Store where
  kmem : Kmem
  use : ℕ → Use
  list : List ℕ
  tidy : Tidy kmem use (fun _ _ => False) list
  mapped : Exact kmem use

/-- The number of virtual pages that a page table has entries for. -/
abbrev vpnLimit : ℕ := 2 ^ 27

namespace Store

variable {w : Store} {r v p q : ℕ}

/-- The page is the root of an address space. -/
def IsRoot (w : Store) (r : ℕ) : Prop := w.use r = .table r 2 0

/-- The entry for a virtual page. -/
def pte (w : Store) (r v : ℕ) : Word := w.kmem.pte r v

end Store

theorem px_val (level v : ℕ) : (px level (v * PGSIZE) : ℕ) = v / 512 ^ level % 512 := by
  have h : v * PGSIZE / 2 ^ (12 + 9 * level) = v / 512 ^ level := by
    rw [pow_add, ← Nat.div_div_eq_div_mul, pow_mul]
    congr 1
    exact Nat.mul_div_cancel v (by decide)
  rw [px, Fin.val_ofNat, h]

namespace Store

variable {w : Store} {r v p q : ℕ}

/-- An entry of a higher level. -/
theorem child_cases {level pre : ℕ} (hp : w.use p = .table r (level + 1) pre) (k : Fin 512) :
    w.kmem.mem p k = 0 ∧ w.kmem.child p k = none ∨
      ∃ q, w.kmem.child p k = some q ∧ w.use q = .table r level (pre * 512 + k) := by
  rcases w.tidy.node p r level pre k hp (fun h => h) with h | ⟨q, hw, hq⟩
  · refine .inl ⟨h, ?_⟩
    rw [Kmem.child, h]
    rfl
  · refine .inr ⟨q, ?_, hq⟩
    rw [Kmem.child, hw, if_pos (node_valid q), pte2pa_node (w.tidy.lt (by simp [hq]))]

theorem child_of_table {level pre : ℕ} {k : Fin 512} (hlevel : level < 2)
    (hq : w.use q = .table r level (pre * 512 + k)) :
    ∃ p, w.use p = .table r (level + 1) pre ∧ w.kmem.child p k = some q := by
  obtain ⟨p, hp, hw⟩ := w.tidy.parent q r level pre k hq hlevel
  refine ⟨p, hp, ?_⟩
  rw [Kmem.child, hw, if_pos (node_valid q), pte2pa_node (w.tidy.lt (by simp [hq]))]

/-- The page-table page of level 0 is the one with the label for it. -/
theorem level0_iff (hr : w.IsRoot r) (hv : v < vpnLimit) :
    w.kmem.level0 r v = some p ↔ w.use p = .table r 0 (v / 512) := by
  have hv' : v < 134217728 := hv
  have h₂ : (px 2 (v * PGSIZE) : ℕ) = v / 512 / 512 := by
    rw [px_val]
    omega
  have h₁ : v / 512 = v / 512 / 512 * 512 + (px 1 (v * PGSIZE) : ℕ) := by
    rw [px_val]
    omega
  rw [Kmem.level0]
  constructor
  · intro h
    obtain ⟨q, hq, hp⟩ := Option.bind_eq_some_iff.mp h
    have hq' : w.use q = .table r 1 (v / 512 / 512) := by
      rcases child_cases hr (px 2 (v * PGSIZE)) with ⟨-, h₀⟩ | ⟨q', hq', hu⟩
      · simp [h₀] at hq
      · obtain rfl := Option.some.inj (hq'.symm.trans hq)
        rw [hu, h₂, Nat.zero_mul, Nat.zero_add]
    rcases child_cases hq' (px 1 (v * PGSIZE)) with ⟨-, h₀⟩ | ⟨p', hp', hu⟩
    · simp [h₀] at hp
    · obtain rfl := Option.some.inj (hp'.symm.trans hp)
      rw [hu, ← h₁]
  · intro h
    rw [h₁] at h
    obtain ⟨q, hq, hqp⟩ := child_of_table (by decide) h
    have hq' : w.use q = .table r 1 (0 * 512 + (px 2 (v * PGSIZE) : ℕ)) := by
      rw [hq, h₂]
      simp
    obtain ⟨r', hr', hrq⟩ := child_of_table (by decide) hq'
    obtain ⟨rfl, -⟩ := w.tidy.root r' r 0 hr'
    rw [hrq, Option.bind_some, hqp]

theorem pte_of_table (hr : w.IsRoot r) (hv : v < vpnLimit)
    (hp : w.use p = .table r 0 (v / 512)) : w.pte r v = w.kmem.mem p (px 0 (v * PGSIZE)) := by
  rw [pte, Kmem.pte, (level0_iff hr hv).2 hp]
  rfl

theorem pte_eq_zero (hr : w.IsRoot r) (hv : v < vpnLimit)
    (hp : ∀ p, w.use p ≠ .table r 0 (v / 512)) : w.pte r v = 0 := by
  have : w.kmem.level0 r v = none := by
    rw [Option.eq_none_iff_forall_not_mem]
    exact fun p h => hp p ((level0_iff hr hv).1 h)
  rw [pte, Kmem.pte, this]
  rfl

/-- Every entry maps a page, or none. -/
theorem pte_ok (hr : w.IsRoot r) (hv : v < vpnLimit) : LeafOk w.use r v (w.pte r v) := by
  by_cases hp : ∃ p, w.use p = .table r 0 (v / 512)
  · obtain ⟨p, hp⟩ := hp
    rw [pte_of_table hr hv hp]
    have hk : v = v / 512 * 512 + (px 0 (v * PGSIZE) : ℕ) := by
      rw [px_val]
      omega
    have := w.tidy.leaf p r (v / 512) (px 0 (v * PGSIZE)) hp
    rwa [← hk] at this
  · exact .inl (pte_eq_zero hr hv fun p h => hp ⟨p, h⟩)

end Store

/-! ### Programs -/

/-- The program runs from the store without panics, and `Q` holds of what it returns and of the
store that it leaves. It does so whichever calls of `kalloc` fail. -/
def Does {α : Type} (w : Store) (x : PhysM α) (Q : α → Store → Prop) : Prop :=
  ∀ d, Runs x ⟨w.kmem, d⟩ fun a t => ∃ w', t.kmem = w'.kmem ∧ Q a w'

namespace Does

variable {α β : Type} {w : Store} {x : PhysM α} {R Q : α → Store → Prop}

theorem pure {a : α} (h : Q a w) : Does w (pure a) Q := fun _ => .pure ⟨w, rfl, h⟩

theorem bind {f : α → PhysM β} {Q : β → Store → Prop} (h : Does w x R)
    (hf : ∀ a w', R a w' → Does w' (f a) Q) : Does w (x >>= f) Q := by
  intro d
  refine (h d).bind ?_
  rintro a ⟨m, d'⟩ ⟨w', rfl, hR⟩
  exact hf a w' hR d'

theorem mono (h : Does w x R) (hQ : ∀ a w', R a w' → Q a w') : Does w x Q := fun d =>
  (h d).mono fun a _ ⟨w', ht, hR⟩ => ⟨w', ht, hQ a w' hR⟩

/-- The labels may be changed at any point. -/
theorem ghost (w' : Store) (hw : w'.kmem = w.kmem) (h : Does w' x Q) : Does w x Q := fun d =>
  hw ▸ h d

/-- A program that changes memory in one step. -/
theorem step {f : Kmem → Kmem} {Q : Unit → Store → Prop} (w' : Store) (hw : w'.kmem = f w.kmem)
    (h : Q () w') : Does w (fun s => .ok ((), { s with kmem := f s.kmem })) Q :=
  fun _ => .of_eq rfl ⟨w', hw.symm, h⟩

end Does

/-! ### What a program may change -/

/-- Where a page of an address space is, its root is. -/
theorem Store.isRoot_of {w : Store} {r p : ℕ} (h : (w.use p).Of r) : w.IsRoot r := by
  match hp : w.use p with
  | .none | .frame _ =>
    rw [hp] at h
    exact h.elim
  | .table r' level pre =>
    rw [hp] at h
    obtain rfl : r' = r := h
    exact w.tidy.root_of_table hp
  | .user r' v =>
    rw [hp] at h
    obtain rfl : r' = r := h
    rw [eq_prefix_add v] at hp
    obtain ⟨-, t, ht, -⟩ := w.mapped p r' _ _ hp
    exact w.tidy.root_of_table ht

/-- Pages of the user are mapped where such pages are. -/
theorem Store.isUser {w : Store} {r p v : ℕ} (h : w.use p = .user r v) : IsUser v := by
  rw [eq_prefix_add v] at h ⊢
  exact (w.mapped p r _ _ h).1

/-- A page of the user is mapped where its label says. -/
theorem Store.pte_of_user {w : Store} {r p v : ℕ} (hr : w.IsRoot r) (hv : v < vpnLimit)
    (h : w.use p = .user r v) : w.pte r v ≠ 0 ∧ pte2pa (w.pte r v) = p := by
  rw [eq_prefix_add v] at h
  obtain ⟨-, t, ht, hne, hpa⟩ := w.mapped p r _ _ h
  have hk : px 0 (v * PGSIZE) = Fin.ofNat 512 v := Fin.ext (by rw [px_val]; simp)
  rw [Store.pte_of_table hr hv ht, hk]
  exact ⟨hne, hpa⟩

/-- The page is free, or part of the address space with root `r`, or one of the pages `a` that the
program has in hand. -/
def Store.Owns (w : Store) (r : ℕ) (a : List ℕ) (p : ℕ) : Prop :=
  p ∈ w.list ∨ (w.use p).Of r ∨ p ∈ a

theorem Store.not_owns {w : Store} {r p : ℕ} (hp : p ∉ w.list) (hu : ¬ (w.use p).Of r) :
    ¬ w.Owns r [] p := by
  rintro (h | h | h)
  exacts [hp h, hu h, absurd h List.not_mem_nil]

/-- Only free pages, pages of the address space with root `r` and pages in hand are changed, which
are `a` before and `b` after, and none of them is lost. -/
structure Confined (r : ℕ) (a b : List ℕ) (w w' : Store) : Prop where
  owns : ∀ p, w'.Owns r b p ↔ w.Owns r a p
  same : ∀ p, ¬ w.Owns r a p → w'.use p = w.use p ∧ w'.kmem.mem p = w.kmem.mem p

namespace Confined

variable {w w' w'' : Store} {r p q : ℕ} {a b c : List ℕ}

theorem refl (r : ℕ) (a : List ℕ) (w : Store) : Confined r a a w w :=
  ⟨fun _ => Iff.rfl, fun _ _ => ⟨rfl, rfl⟩⟩

theorem trans (h : Confined r a b w w') (h' : Confined r b c w' w'') : Confined r a c w w'' where
  owns p := (h'.owns p).trans (h.owns p)
  same p hp := by
    obtain ⟨hu, hm⟩ := h.same p hp
    obtain ⟨hu', hm'⟩ := h'.same p (mt (h.owns p).1 hp)
    exact ⟨hu'.trans hu, hm'.trans hm⟩

/-- Pages in hand that are not touched. -/
theorem frame (h : Confined r [] [] w w') (a : List ℕ) : Confined r a a w w' where
  owns p := by
    have := h.owns p
    simp only [Store.Owns, List.not_mem_nil, or_false] at this ⊢
    rw [← or_assoc, this, or_assoc]
  same p hp := h.same p fun h => hp (h.imp_right (.imp_right fun h => absurd h List.not_mem_nil))

/-- The label of at most one page is changed, and this page stays where the program may use it. -/
theorem of_page (hq : w.Owns r a q) (hq' : w'.Owns r b q)
    (hx : ∀ x ≠ q, w'.use x = w.use x ∧ (x ∈ w'.list ↔ x ∈ w.list) ∧ (x ∈ b ↔ x ∈ a))
    (hmem : ∀ x, ¬ w.Owns r a x → w'.kmem.mem x = w.kmem.mem x) : Confined r a b w w' where
  owns x := by
    by_cases hxq : x = q
    · subst hxq
      exact iff_of_true hq' hq
    · obtain ⟨hu, hl, hab⟩ := hx x hxq
      rw [Store.Owns, Store.Owns, hu, hl, hab]
  same x hxo := by
    have hxq : x ≠ q := by
      rintro rfl
      exact hxo hq
    exact ⟨(hx x hxq).1, hmem x hxo⟩

/-- A page is overwritten. -/
theorem of_write {pg : Page} (hp : w.Owns r a p) (hk : w'.kmem = w.kmem.write p pg)
    (hu : w'.use = w.use) (hl : w'.list = w.list) : Confined r a a w w' := by
  refine of_page hp ?_ (fun x _ => ⟨congrFun hu x, by rw [hl], Iff.rfl⟩) fun x hx => ?_
  · rwa [Store.Owns, hu, hl]
  · rw [hk]
    refine Kmem.write_mem_of_ne _ _ ?_
    rintro rfl
    exact hx hp

theorem notMem (h : Confined r a b w w') (hp : ¬ w.Owns r a p) : p ∉ w'.list := fun hl =>
  hp ((h.owns p).1 (.inl hl))

end Confined

/-! ### Page-table pages are added -/

/-- The page has been taken from the free list and has no use yet. -/
structure Store.Reserved (w : Store) (p : ℕ) : Prop where
  use : w.use p = .none
  notMem : p ∉ w.list
  range : w.kmem.first ≤ p ∧ p < PHYSTOPPG

/-- Pages are taken from the free list, and the rest is as it was. -/
structure Grows (w w' : Store) : Prop where
  first : w'.kmem.first = w.kmem.first
  keep : ∀ p ∉ w.list, p ∉ w'.list ∧ w'.use p = w.use p
  pte : ∀ r v, w.IsRoot r → v < vpnLimit → w'.pte r v = w.pte r v

namespace Grows

variable {w w' w'' : Store} {r p : ℕ}

theorem refl (w : Store) : Grows w w := ⟨rfl, fun _ hp => ⟨hp, rfl⟩, fun _ _ _ _ => rfl⟩

theorem use (h : Grows w w') (hp : w.use p ≠ .none) : w'.use p = w.use p :=
  (h.keep p (w.tidy.notMem hp)).2

theorem isRoot (h : Grows w w') (hr : w.IsRoot r) : w'.IsRoot r := by
  have : w.use r ≠ .none := by
    rw [hr]
    simp
  rw [Store.IsRoot, h.use this, hr]

theorem trans (h : Grows w w') (h' : Grows w' w'') : Grows w w'' where
  first := h'.first.trans h.first
  keep p hp := by
    obtain ⟨hp', hu⟩ := h.keep p hp
    exact ⟨(h'.keep p hp').1, (h'.keep p hp').2.trans hu⟩
  pte r v hr hv := (h'.pte r v (h.isRoot hr) hv).trans (h.pte r v hr hv)

theorem reserved (h : Grows w w') (hp : w.Reserved p) : w'.Reserved p where
  use := (h.keep p hp.notMem).2.trans hp.use
  notMem := (h.keep p hp.notMem).1
  range := h.first ▸ hp.range

/-- The mapping is in the labelled pages of level 0, so nothing else matters for it. -/
theorem pte_congr {v : ℕ} (hr : w.IsRoot r) (hr' : w'.IsRoot r) (hv : v < vpnLimit)
    (h : ∀ p, w.use p = .table r 0 (v / 512) →
      w'.use p = .table r 0 (v / 512) ∧ w'.kmem.mem p = w.kmem.mem p)
    (h' : ∀ p, w'.use p = .table r 0 (v / 512) →
      w.use p = .table r 0 (v / 512) ∨ w'.kmem.mem p (px 0 (v * PGSIZE)) = 0 ∧
        ∀ q, w.use q ≠ .table r 0 (v / 512)) : w'.pte r v = w.pte r v := by
  by_cases hp : ∃ p, w.use p = .table r 0 (v / 512)
  · obtain ⟨p, hp⟩ := hp
    rw [Store.pte_of_table hr hv hp, Store.pte_of_table hr' hv (h p hp).1, (h p hp).2]
  · rw [Store.pte_eq_zero hr hv fun p h => hp ⟨p, h⟩]
    by_cases hp' : ∃ p, w'.use p = .table r 0 (v / 512)
    · obtain ⟨p, hp'⟩ := hp'
      rw [Store.pte_of_table hr' hv hp']
      exact ((h' p hp').resolve_left fun h => hp ⟨p, h⟩).1
    · exact Store.pte_eq_zero hr' hv fun p h => hp' ⟨p, h⟩

end Grows

/-- Pages that are neither free nor page-table pages have the contents that they had. -/
def Still (w w' : Store) : Prop :=
  ∀ p ∉ w.list, ¬ (w.use p).IsTable → w'.kmem.mem p = w.kmem.mem p

namespace Still

variable {w w' w'' : Store} {p : ℕ}

theorem refl (w : Store) : Still w w := fun _ _ _ => rfl

theorem trans (h : Still w w') (hg : Grows w w') (h' : Still w' w'') : Still w w'' := by
  intro p hp ht
  obtain ⟨hp', hu⟩ := hg.keep p hp
  rw [h' p hp' (hu ▸ ht), h p hp ht]

/-- A free page is overwritten, or a page-table page. -/
theorem of_write {pg : Page} (hk : w'.kmem = w.kmem.write p pg)
    (hp : p ∈ w.list ∨ (w.use p).IsTable) : Still w w' := by
  intro q hq ht
  rw [hk]
  refine Kmem.write_mem_of_ne _ _ ?_
  rintro rfl
  exact hp.elim hq ht

end Still

/-! ### Single steps -/

section Steps

variable {w : Store} {r p q : ℕ}

theorem readPte_bind {α : Type} {k : Fin 512} {f : Word → PhysM α} {Q : α → Store → Prop}
    (h : Does w (f (w.kmem.mem p k)) Q) : Does w (readPte p k >>= f) Q := h

theorem readPage_bind {α : Type} {f : Page → PhysM α} {Q : α → Store → Prop}
    (h : Does w (f (w.kmem.mem p)) Q) : Does w (readPage p >>= f) Q := h

/-- A page that is no page-table page is overwritten. -/
theorem writePage_spec (hp : p ∉ w.list) (ht : ¬ (w.use p).IsTable) (pg : Page) :
    Does w (writePage p pg) fun _ w' =>
      Grows w w' ∧ w'.kmem = w.kmem.write p pg ∧ w'.use = w.use ∧ w'.list = w.list := by
  have hmapped : Exact (w.kmem.write p pg) w.use := w.mapped.congr (fun _ _ _ h => h)
    fun t r pre h => ⟨h, Kmem.write_mem_of_ne _ _ (Tidy.ne_of_table ht h)⟩
  refine Does.step (f := fun m => m.write p pg) ⟨_, w.use, w.list, w.tidy.write hp ht pg, hmapped⟩
    rfl ?_
  refine ⟨⟨rfl, fun _ hq => ⟨hq, rfl⟩, fun r v hr hv => ?_⟩, rfl, rfl, rfl⟩
  exact Grows.pte_congr hr hr hv
    (fun q hq => ⟨hq, Kmem.write_mem_of_ne _ _ (Tidy.ne_of_table ht hq)⟩) fun q hq => .inl hq

theorem kalloc_spec : Does w kalloc fun p w' => Grows w w' ∧ (p = 0 → w' = w) ∧
    (p ≠ 0 → p ∈ w.list ∧ w'.Reserved p ∧ (∀ r, Confined r [] [p] w w') ∧ w'.use = w.use ∧
      ∀ q ≠ p, w'.kmem.mem q = w.kmem.mem q) := by
  intro d
  by_cases hd : d.headD false = true
  · refine .of_eq (a := 0) (t := ⟨w.kmem, d.tail⟩) ?_
      ⟨w, rfl, .refl w, fun _ => rfl, fun h => absurd rfl h⟩
    change (if d.headD false = true then _ else _) = _
    rw [if_pos hd]
  · refine .of_eq (a := w.kmem.kalloc.1) (t := ⟨w.kmem.kalloc.2, d.tail⟩) ?_ ?_
    · change (if d.headD false = true then _ else _) = _
      rw [if_neg hd]
    by_cases hne : w.kmem.freelist = 0
    · refine ⟨w, ?_, .refl w, fun _ => rfl, fun h => absurd ?_ h⟩
      · rw [Kmem.kalloc, if_pos hne]
      · rw [Kmem.kalloc, if_pos hne]
    · obtain ⟨l', hl', hnot, hu, hr, heq, htidy⟩ := w.tidy.kalloc hne
      have hmem (q : ℕ) (hq : q ≠ w.kmem.freelist) : w.kmem.kalloc.2.mem q = w.kmem.mem q := by
        rw [Kmem.kalloc, if_neg hne]
        exact Kmem.write_mem_of_ne _ _ hq
      have hfirst : w.kmem.kalloc.2.first = w.kmem.first := by
        rw [Kmem.kalloc, if_neg hne]
        rfl
      have htable {q r level pre : ℕ} (hq : w.use q = .table r level pre) :
          w.kmem.kalloc.2.mem q = w.kmem.mem q := by
        refine hmem q ?_
        rintro rfl
        simp [hu] at hq
      have hmapped : Exact w.kmem.kalloc.2 w.use :=
        w.mapped.congr (fun _ _ _ h => h) fun t r pre h => ⟨h, htable h⟩
      have hhead : w.kmem.freelist ∈ w.list := hl' ▸ List.mem_cons_self
      have hpos : w.kmem.kalloc.1 ≠ 0 := heq.symm ▸ hne
      rw [heq] at hpos ⊢
      refine ⟨⟨w.kmem.kalloc.2, w.use, l', htidy, hmapped⟩, rfl, ⟨hfirst, fun p hp => ?_, ?_⟩,
        fun h => absurd h hpos,
        fun _ => ⟨hhead, ⟨hu, hnot, hfirst.symm ▸ hr⟩, fun r => ?_, rfl, hmem⟩⟩
      · rw [hl'] at hp
        exact ⟨fun h => hp (List.mem_cons_of_mem _ h), rfl⟩
      · intro r v hroot hv
        exact Grows.pte_congr hroot hroot hv (fun q hq => ⟨hq, htable hq⟩) fun q hq => .inl hq
      · refine .of_page (.inl hhead) (.inr (.inr List.mem_cons_self)) (fun x hx => ⟨rfl, ?_, ?_⟩)
          fun x hx => hmem x ?_
        · rw [hl', List.mem_cons, or_iff_right hx]
        · simp [hx]
        · rintro rfl
          exact hx (.inl hhead)

theorem kfree_run (m : Kmem) (d : List Bool) (hr : m.first ≤ p ∧ p < PHYSTOPPG) :
    (kfree p).run ⟨m, d⟩ = .ok ((), ⟨m.putFree p, d⟩) := by
  rw [StateT.run, kfree, Kmem.kfree_eq hr]

/-- A page that is no page-table page, and no page of a user, is freed. -/
theorem kfree_spec (hp : ¬ (w.use p).IsTable) (hl : p ∉ w.list)
    (hr : w.kmem.first ≤ p ∧ p < PHYSTOPPG) (hu : ∀ r v, w.use p ≠ .user r v) :
    Does w (kfree p) fun _ w' => w'.kmem.first = w.kmem.first ∧
      (∀ q ∉ w.list, q ≠ p → q ∉ w'.list ∧ w'.use q = w.use q) ∧ (∀ r, Confined r [p] [] w w') ∧
      (∀ q ≠ p, w'.kmem.mem q = w.kmem.mem q) ∧
      ∀ r v, w.IsRoot r → v < vpnLimit → w'.pte r v = w.pte r v := by
  intro d
  have htidy := w.tidy.putFree hp hl hr fun r pre k t h _ => absurd h (hu r _)
  have hmapped : Exact (w.kmem.putFree p) (update w.use p .none) := by
    refine w.mapped.congr (fun q r v hq => ?_) fun t r pre ht => ?_
    · by_cases hqp : q = p
      · simp [hqp] at hq
      · rwa [update_of_ne hqp] at hq
    · have htp := Tidy.ne_of_table hp ht
      exact ⟨(update_of_ne htp _ _).trans ht, Kmem.putFree_mem_of_ne _ htp⟩
  refine .of_eq (kfree_run w.kmem d hr) ⟨⟨_, _, _, htidy, hmapped⟩, rfl, rfl, ?_, fun r => ?_,
    fun q hq => Kmem.putFree_mem_of_ne _ hq, ?_⟩
  · intro q hq hqp
    exact ⟨by simp [hqp, hq], update_of_ne hqp _ _⟩
  · refine .of_page (.inr (.inr List.mem_cons_self)) (.inl List.mem_cons_self)
      (fun x hx => ⟨update_of_ne hx _ _, by simp [hx], by simp [hx]⟩) fun x hx => ?_
    refine Kmem.putFree_mem_of_ne _ ?_
    rintro rfl
    exact hx (.inr (.inr List.mem_cons_self))
  · intro r v hroot hv
    have hne {q r level pre : ℕ} (hq : w.use q = .table r level pre) : q ≠ p :=
      Tidy.ne_of_table hp hq
    refine Grows.pte_congr hroot ?_ hv (fun q hq => ⟨?_, ?_⟩) fun q hq => .inl ?_
    · exact (update_of_ne (hne hroot) _ _).trans hroot
    · exact (update_of_ne (hne hq) _ _).trans hq
    · exact Kmem.putFree_mem_of_ne _ (hne hq)
    · by_cases hqp : q = p
      · simp [hqp] at hq
      · exact (update_of_ne hqp _ _).symm.trans hq

/-- A new page-table page is put in an empty place. -/
theorem link_spec {level pre : ℕ} {k : Fin 512} (hp : w.use p = .table r (level + 1) pre)
    (hk : w.kmem.mem p k = 0) (hq : w.Reserved q) (hz : ∀ k, w.kmem.mem q k = 0) :
    Does w (writePte p k (pa2pte q ||| PTE_V)) fun _ w' => w'.kmem.first = w.kmem.first ∧
      w'.list = w.list ∧ w'.use = update w.use q (.table r level (pre * 512 + k)) ∧
      Confined r [q] [] w w' ∧ Still w w' ∧
      ∀ r v, w.IsRoot r → v < vpnLimit → w'.pte r v = w.pte r v := by
  have htidy := w.tidy.link hp hk hq.use hq.notMem hq.range hz
  have hne {x : ℕ} (hx : w.use x ≠ .none) : x ≠ q := fun he => hx (he ▸ hq.use)
  have hmapped : Exact (w.kmem.write p (update (w.kmem.mem p) k (pa2pte q ||| PTE_V)))
      (update w.use q (.table r level (pre * 512 + k))) := by
    refine w.mapped.congr (fun x r v hx => ?_) fun t r' pre' ht => ?_
    · by_cases hxq : x = q
      · simp [hxq] at hx
      · rwa [update_of_ne hxq] at hx
    · refine ⟨(update_of_ne (hne (by simp [ht])) _ _).trans ht,
        Kmem.write_mem_of_ne _ _ ?_⟩
      rintro rfl
      simp [hp] at ht
  refine Does.step (f := fun m => m.write p (update (m.mem p) k (pa2pte q ||| PTE_V)))
    ⟨_, _, _, htidy, hmapped⟩ rfl
    ⟨rfl, rfl, rfl, ?_, .of_write rfl (.inr (by rw [hp]; trivial)), fun r' v hr' hv => ?_⟩
  · refine .of_page (q := q) (.inr (.inr List.mem_cons_self)) (.inr (.inl ?_))
      (fun x hx => ⟨update_of_ne hx _ _, Iff.rfl, by simp [hx]⟩) fun x hx => ?_
    · change (update w.use q _ q).Of r
      rw [update_self]
      rfl
    · refine Kmem.write_mem_of_ne _ _ ?_
      rintro rfl
      exact hx (.inr (.inl (by rw [hp]; rfl)))
  refine Grows.pte_congr hr' ?_ hv (fun x hx => ⟨?_, ?_⟩) fun x hx => ?_
  · exact (update_of_ne (hne (by rw [hr']; simp)) _ _).trans hr'
  · exact (update_of_ne (hne (by simp [hx])) _ _).trans hx
  · refine Kmem.write_mem_of_ne _ _ ?_
    rintro rfl
    simp [hp] at hx
  · by_cases hxq : x = q
    · -- the new page is empty, and there was no page in its place
      subst hxq
      have hxp : x ≠ p := by
        rintro rfl
        simp [hq.use] at hp
      simp only [update_self, Use.table.injEq] at hx
      obtain ⟨rfl, rfl, hpre⟩ := hx
      refine .inr ⟨by simp [Kmem.write_mem_of_ne _ _ hxp, hz], fun y hy => ?_⟩
      rw [← hpre] at hy
      obtain ⟨p', hp', hw⟩ := w.tidy.parent y r 0 pre k hy (by decide)
      obtain rfl := w.tidy.table_unique hp hp'
      apply node_valid y
      rw [← hw, hk]
      rfl
    · exact .inl ((update_of_ne hxq _ _).symm.trans hx)

end Steps

/-! ### `walk` -/

section Walk

variable {w : Store} {r p v : ℕ}

theorem pre_px (level v : ℕ) :
    v / 512 ^ (level + 2) * 512 + (px (level + 1) (v * PGSIZE) : ℕ) = v / 512 ^ (level + 1) := by
  rw [px_val, pow_succ 512 (level + 1), ← Nat.div_div_eq_div_mul]
  omega

/-- The loop of `walk`, when it may add page-table pages. -/
theorem descend_true {level : ℕ} (hp : w.use p = .table r level (v / 512 ^ (level + 1))) :
    Does w (descend (v * PGSIZE) true level p) fun o w' => Grows w w' ∧ Confined r [] [] w w' ∧
      Still w w' ∧ ∀ q, o = some q → w'.use q = .table r 0 (v / 512) := by
  induction level generalizing w p with
  | zero =>
    refine .pure ⟨.refl w, .refl r [] w, .refl w, fun q hq => ?_⟩
    cases hq
    simpa using hp
  | succ level ih =>
    rw [descend]
    refine readPte_bind ?_
    rcases w.tidy.node p r level _ (px (level + 1) (v * PGSIZE)) hp (fun h => h) with
      h₀ | ⟨q, hq, hu⟩
    · have hz : ¬ ((0 : Word) &&& PTE_V ≠ 0) := by decide
      rw [h₀, if_neg hz, if_pos rfl]
      refine kalloc_spec.bind fun p' w₁ ⟨hg, hsame, hp'⟩ => ?_
      split_ifs with h
      · exact .pure ⟨hg, hsame h ▸ .refl r [] w, hsame h ▸ .refl w, fun q hq => by simp at hq⟩
      obtain ⟨hmem, hres, hc, huse, hkeep⟩ := hp' h
      have hpp' : p ≠ p' := by
        rintro rfl
        simp [← huse, hres.use] at hp
      refine (writePage_spec hres.notMem (by simp [hres.use, Use.IsTable]) _).bind ?_
      rintro - w₂ ⟨hg₂, hkmem, huse₂, hlist₂⟩
      have hp₂ : w₂.use p = .table r (level + 1) (v / 512 ^ (level + 2)) := by rw [huse₂, huse, hp]
      have hk₂ : w₂.kmem.mem p (px (level + 1) (v * PGSIZE)) = 0 := by
        rw [hkmem, Kmem.write_mem_of_ne _ _ hpp', hkeep p hpp', h₀]
      have hz₂ (k : Fin 512) : w₂.kmem.mem p' k = 0 := by
        rw [hkmem, Kmem.write_mem_self]
        rfl
      have hc₂ : Confined r [p'] [p'] w₁ w₂ :=
        .of_write (.inr (.inr List.mem_cons_self)) hkmem huse₂ hlist₂
      refine (link_spec hp₂ hk₂ (hg₂.reserved hres) hz₂).bind ?_
      rintro - w₃ ⟨hfirst, hlist, hu₃, hc₃, hst₃, hpte⟩
      have hst : Still w w₂ := by
        intro x hx _
        have hxp : x ≠ p' := fun he => hx (he ▸ hmem)
        rw [hkmem, Kmem.write_mem_of_ne _ _ hxp, hkeep x hxp]
      have hc' : Confined r [] [] w w₃ := ((hc r).trans hc₂).trans hc₃
      have hg₃ : Grows w w₃ := by
        refine ⟨hfirst.trans (hg₂.first.trans hg.first), fun x hx => ?_, fun r' v' hr' hv' => ?_⟩
        · have hxp : x ≠ p' := fun he => hx (he ▸ hmem)
          obtain ⟨hx₂, hu₂⟩ := (hg.trans hg₂).keep x hx
          exact ⟨by rwa [hlist], by rw [hu₃, update_of_ne hxp, hu₂]⟩
        · rw [hpte r' v' ((hg.trans hg₂).isRoot hr') hv', (hg.trans hg₂).pte r' v' hr' hv']
      have hp₃ : w₃.use p' = .table r level (v / 512 ^ (level + 1)) := by
        rw [hu₃, update_self, pre_px]
      refine (ih hp₃).mono fun o w' ⟨hg', hc'', hst', ho⟩ => ⟨hg₃.trans hg', hc'.trans hc'', ?_, ho⟩
      exact (hst.trans (hg.trans hg₂) hst₃).trans hg₃ hst'
    · rw [hq, if_pos (node_valid q), pte2pa_node (w.tidy.lt (by simp [hu]))]
      rw [pre_px] at hu
      exact ih hu

theorem walk_true (hr : w.IsRoot r) (hv : v * PGSIZE < MAXVA) :
    Does w (walk r (v * PGSIZE) true) fun o w' => Grows w w' ∧ Confined r [] [] w w' ∧
      Still w w' ∧ ∀ a, o = some a → w'.use a.1 = .table r 0 (v / 512) ∧
      a.2 = px 0 (v * PGSIZE) := by
  have hv' : v < 2 ^ 26 := by
    have : v * 4096 < 2 ^ 38 := hv
    omega
  have hroot : w.use r = .table r 2 (v / 512 ^ 3) := by
    rw [hr, Nat.div_eq_of_lt (by omega)]
  rw [walk, if_neg (not_le.2 hv)]
  refine (descend_true hroot).bind fun o w' ⟨hg, hc, hst, ho⟩ => .pure ⟨hg, hc, hst, ?_⟩
  rintro ⟨q, k⟩ ha
  obtain ⟨q', rfl, hq⟩ := Option.map_eq_some_iff.mp ha
  obtain ⟨rfl, rfl⟩ := Prod.mk.inj hq
  exact ⟨ho q' rfl, rfl⟩

/-- The loop of `walk`, when it may not add page-table pages. -/
theorem descend_run (s : Phys) (r v : ℕ) :
    (descend (v * PGSIZE) false 2 r).run s = .ok (s.kmem.level0 r v, s) := by
  have hstep (level p : ℕ) : (descend (v * PGSIZE) false (level + 1) p).run s =
      (s.kmem.child p (px (level + 1) (v * PGSIZE))).elim (.ok (none, s))
        fun q => (descend (v * PGSIZE) false level q).run s := by
    change (if s.kmem.mem p _ &&& PTE_V ≠ 0 then _ else _ : PhysM (Option ℕ)).run s = _
    rw [Kmem.child]
    split_ifs with _ hf
    · rfl
    · exact hf.elim
    · rfl
  rw [hstep, Kmem.level0]
  cases s.kmem.child r (px 2 (v * PGSIZE)) with
  | none => rfl
  | some q =>
    rw [Option.elim_some, hstep, Option.bind_some]
    cases s.kmem.child q (px 1 (v * PGSIZE)) <;> rfl

/-- `walk` only looks, when it may not add page-table pages. -/
theorem walk_false (hr : w.IsRoot r) (hv : v * PGSIZE < MAXVA) :
    Does w (walk r (v * PGSIZE) false) fun o w' => w' = w ∧
      ((∃ q, o = some (q, px 0 (v * PGSIZE)) ∧ w.use q = .table r 0 (v / 512)) ∨
        o = none ∧ w.pte r v = 0) := by
  have hv' : v < vpnLimit := by
    have : v * 4096 < 2 ^ 38 := hv
    change v < 2 ^ 27
    omega
  rw [walk, if_neg (not_le.2 hv)]
  intro d
  have hrun : Runs (descend (v * PGSIZE) false 2 r) ⟨w.kmem, d⟩
      fun o t => o = w.kmem.level0 r v ∧ t = ⟨w.kmem, d⟩ := .of_eq (descend_run _ r v) ⟨rfl, rfl⟩
  refine hrun.bind ?_
  rintro o t ⟨rfl, rfl⟩
  refine .pure ⟨w, rfl, rfl, ?_⟩
  cases ho : w.kmem.level0 r v with
  | none => exact .inr ⟨rfl, by rw [Store.pte, Kmem.pte, ho]; rfl⟩
  | some q => exact .inl ⟨q, rfl, (Store.level0_iff hr hv').1 ho⟩

end Walk

/-! ### Mapping -/

/-- The entry for virtual page `v` of `r` becomes `e`, which maps page `q`; pages may be taken from
the free list for page-table pages. -/
structure Maps (r v q : ℕ) (e : Word) (w w' : Store) : Prop where
  first : w'.kmem.first = w.kmem.first
  keep : ∀ p ∉ w.list, (IsUser v → p ≠ q) → p ∉ w'.list ∧ w'.use p = w.use p
  page : IsUser v → q ∉ w'.list ∧ w'.use q = .user r v
  pte : ∀ r' v', w.IsRoot r' → v' < vpnLimit →
    w'.pte r' v' = if r' = r ∧ v' = v then e else w.pte r' v'
  user : IsUser v → Confined r [q] [] w w'
  kernel : ¬ IsUser v → Confined r [] [] w w'

section Map

variable {w : Store} {r p q v : ℕ} {perm : Word}

/-- What is mapped after an entry of level 0 has been changed. -/
theorem pte_setLeaf {w' : Store} {e : Word} (hp : w.use p = .table r 0 (v / 512))
    (hmem : ∀ x, (w.use x).IsTable → w'.kmem.mem x = if x = p
      then update (w.kmem.mem p) (px 0 (v * PGSIZE)) e else w.kmem.mem x)
    (huse : ∀ x r level pre, w'.use x = .table r level pre ↔ w.use x = .table r level pre)
    {r' v' : ℕ} (hr' : w.IsRoot r') (hv' : v' < vpnLimit) :
    w'.pte r' v' = if r' = r ∧ v' = v then e else w.pte r' v' := by
  have hroot : w'.IsRoot r' := (huse r' r' 2 0).2 hr'
  by_cases hx : ∃ x, w.use x = .table r' 0 (v' / 512)
  · obtain ⟨x, hx⟩ := hx
    rw [Store.pte_of_table hroot hv' ((huse x _ _ _).2 hx), Store.pte_of_table hr' hv' hx,
      hmem x (by simp [hx, Use.IsTable])]
    by_cases hxp : x = p
    · subst hxp
      obtain ⟨rfl, hdiv⟩ : r = r' ∧ v / 512 = v' / 512 := by simpa [hp] using hx
      have hiff : px 0 (v' * PGSIZE) = px 0 (v * PGSIZE) ↔ v' = v := by
        rw [Fin.ext_iff, px_val, px_val]
        omega
      rw [if_pos rfl]
      by_cases hvv : v' = v
      · rw [hvv, update_self, if_pos ⟨rfl, rfl⟩]
      · rw [update_of_ne (mt hiff.1 hvv), if_neg fun h => hvv h.2]
    · have hne : ¬ (r' = r ∧ v' = v) := by
        rintro ⟨rfl, rfl⟩
        exact hxp (w.tidy.table_unique hx hp)
      rw [if_neg hxp, if_neg hne]
  · have hne : ¬ (r' = r ∧ v' = v) := by
      rintro ⟨rfl, rfl⟩
      exact hx ⟨p, hp⟩
    rw [if_neg hne, Store.pte_eq_zero hr' hv' fun x h => hx ⟨x, h⟩,
      Store.pte_eq_zero hroot hv' fun x h => hx ⟨x, (huse x _ _ _).1 h⟩]

theorem Maps.of_grows {w' w'' : Store} {e : Word} (h : Maps r v q e w' w'') (hg : Grows w w')
    (hu : IsUser v → Confined r [q] [q] w w') (hk : ¬ IsUser v → Confined r [] [] w w') :
    Maps r v q e w w'' where
  first := h.first.trans hg.first
  keep p hp hq := by
    obtain ⟨hp', hu⟩ := hg.keep p hp
    exact ⟨(h.keep p hp' hq).1, (h.keep p hp' hq).2.trans hu⟩
  page := h.page
  pte r' v' hr' hv' := by rw [h.pte r' v' (hg.isRoot hr') hv', hg.pte r' v' hr' hv']
  user hv := (hu hv).trans (h.user hv)
  kernel hv := (hk hv).trans (h.kernel hv)

theorem px_zero (v : ℕ) : v / 512 * 512 + (px 0 (v * PGSIZE) : ℕ) = v := by
  rw [px_val]
  omega

/-- An entry of level 0 is overwritten. -/
theorem putPte_spec {e : Word} (hp : w.use p = .table r 0 (v / 512)) (he : LeafOk w.use r v e)
    (hx : ∀ x, w.use x = .user r v → e ≠ 0 ∧ pte2pa e = x) :
    Does w (writePte p (px 0 (v * PGSIZE)) e) fun _ w' => w'.kmem.first = w.kmem.first ∧
      w'.use = w.use ∧ w'.list = w.list ∧ Confined r [] [] w w' ∧ Still w w' ∧
      ∀ r' v', w.IsRoot r' → v' < vpnLimit →
        w'.pte r' v' = if r' = r ∧ v' = v then e else w.pte r' v' := by
  have hv := px_zero v
  have htidy := w.tidy.setLeaf (k := px 0 (v * PGSIZE)) hp (hv.symm ▸ he)
  have hmapped : Exact (w.kmem.write p (update (w.kmem.mem p) (px 0 (v * PGSIZE)) e))
      w.use := by
    refine w.mapped.setLeaf (k := px 0 (v * PGSIZE)) hp (fun x hu => ?_) (fun _ _ _ _ h => h)
      fun t r' pre' ht => ⟨ht, update_apply _ _ _ _⟩
    refine ⟨(w.mapped x r _ _ hu).1, hx x ?_⟩
    rwa [hv] at hu
  refine Does.step (f := fun m => m.write p (update (m.mem p) (px 0 (v * PGSIZE)) e))
    ⟨_, _, _, htidy, hmapped⟩ rfl
    ⟨rfl, rfl, rfl, ?_, .of_write rfl (.inr (by rw [hp]; trivial)), fun r' v' hr' hv' => ?_⟩
  · exact .of_write (.inr (.inl (by rw [hp]; rfl))) rfl rfl rfl
  refine pte_setLeaf hp ?_ ?_ hr' hv'
  · exact fun x _ => update_apply _ _ _ _
  · exact fun _ _ _ _ => Iff.rfl

/-- An empty entry of level 0 is made to map a page. -/
theorem setLeaf_spec {e : Word} (hp : w.use p = .table r 0 (v / 512))
    (h₀ : w.kmem.mem p (px 0 (v * PGSIZE)) = 0) (he : IsLeaf e)
    (hq : pte2pa e = q) (hres : IsUser v → w.Reserved q) :
    Does w (writePte p (px 0 (v * PGSIZE)) e) fun _ w' => Still w w' ∧ Maps r v q e w w' := by
  by_cases hu : IsUser v
  · have hres := hres hu
    have hqt : ¬ (w.use q).IsTable := by simp [hres.use, Use.IsTable]
    have hpq : p ≠ q := Tidy.ne_of_table hqt hp
    have h₁ := w.tidy.relabel (o := .user r v) hqt (fun h => h)
      (fun _ => ⟨hres.notMem, hres.range⟩) (fun _ _ _ _ h => by simp [hres.use] at h)
    have h₂ := h₁.setLeaf (k := px 0 (v * PGSIZE)) (w := e)
      ((update_of_ne hpq _ _).trans hp)
      (.inr ⟨he, fun _ => by rw [px_zero, hq, update_self]⟩)
    have hmapped : Exact (w.kmem.write p (update (w.kmem.mem p) (px 0 (v * PGSIZE)) e))
        (update w.use q (.user r v)) := by
      refine w.mapped.setLeaf (k := px 0 (v * PGSIZE)) hp (fun x hx => ?_)
        (fun x r' v' hne hx => ?_) fun t r' pre' ht => ⟨?_, update_apply _ _ _ _⟩
      · rw [px_zero] at hx ⊢
        refine ⟨hu, he.ne_zero, ?_⟩
        by_cases hxq : x = q
        · rw [hq, hxq]
        · -- there was nothing at this place before
          rw [update_of_ne hxq, ← px_zero v] at hx
          obtain ⟨-, t, ht, hne, -⟩ := w.mapped x r _ _ hx
          rw [w.tidy.table_unique ht hp] at hne
          exact absurd h₀ hne
      · by_cases hxq : x = q
        · simp only [hxq, update_self, Use.user.injEq] at hx
          exact absurd ⟨hx.1.symm, by rw [px_zero, hx.2]⟩ hne
        · rwa [update_of_ne hxq] at hx
      · exact (update_of_ne (Tidy.ne_of_table hqt ht) _ _).trans ht
    refine Does.step (f := fun m => m.write p (update (m.mem p) (px 0 (v * PGSIZE)) e))
      ⟨_, _, _, h₂, hmapped⟩ rfl ⟨.of_write rfl (.inr (by rw [hp]; trivial)), rfl,
        fun x hx hxq => ⟨hx, update_of_ne (hxq hu) _ _⟩,
        fun _ => ⟨hres.notMem, update_self _ _ _⟩, fun r' v' hr' hv' => ?_, fun _ => ?_,
        fun h => absurd hu h⟩
    · refine pte_setLeaf hp (fun x _ => ?_) (fun x r level pre => ?_) hr' hv'
      · exact update_apply _ _ _ _
      · by_cases hxq : x = q
        · simp [hxq, hres.use]
        · simp [update_of_ne hxq]
    · refine .of_page (q := q) (.inr (.inr List.mem_cons_self)) (.inr (.inl ?_))
        (fun x hx => ⟨update_of_ne hx _ _, Iff.rfl, by simp [hx]⟩) fun x hx => ?_
      · change (update w.use q _ q).Of r
        rw [update_self]
        rfl
      · refine Kmem.write_mem_of_ne _ _ ?_
        rintro rfl
        exact hx (.inr (.inl (by rw [hp]; rfl)))
  · have hx (x : ℕ) (hx : w.use x = .user r v) : e ≠ 0 ∧ pte2pa e = x :=
      absurd (Store.isUser hx) hu
    refine (putPte_spec hp (.inr ⟨he, fun h => absurd h hu⟩) hx).mono ?_
    rintro - w' ⟨hfirst, huse, hlist, hc, hst, hpte⟩
    exact ⟨hst, hfirst, fun x hx _ => ⟨hlist ▸ hx, congrFun huse x⟩, fun h => absurd h hu, hpte,
      fun h => absurd h hu, fun _ => hc⟩

/-- What is needed to map page `q` at virtual page `v`. -/
structure CanMap (w : Store) (r v q : ℕ) (perm : Word) : Prop where
  root : w.IsRoot r
  lt : v * PGSIZE < MAXVA
  pte : w.pte r v = 0
  page : IsUser v → w.Reserved q
  addr : q < 2 ^ 44
  flags : IsFlags perm
  readable : perm &&& PTE_R ≠ 0

theorem mapPage_spec (h : CanMap w r v q perm) :
    Does w (mapPage r perm (v * PGSIZE) q) fun ok w' => Still w w' ∧
      if ok then Maps r v q (pa2pte q ||| perm ||| PTE_V) w w'
      else Grows w w' ∧ Confined r [] [] w w' := by
  rw [mapPage]
  refine (walk_true h.root h.lt).bind fun o w₁ ⟨hg, hc, hst, ho⟩ => ?_
  match o with
  | none => exact .pure ⟨hst, hg, hc⟩
  | some (p, k) =>
    obtain ⟨hp, rfl⟩ := ho _ rfl
    have hv : v < vpnLimit := by
      have : v * 4096 < 2 ^ 38 := h.lt
      change v < 2 ^ 27
      omega
    have h₀ : w₁.kmem.mem p (px 0 (v * PGSIZE)) = 0 := by
      rw [← Store.pte_of_table (hg.isRoot h.root) hv hp, hg.pte r v h.root hv, h.pte]
    refine readPte_bind ?_
    have hz : ¬ ((0 : Word) &&& PTE_V ≠ 0) := by decide
    rw [h₀, if_neg hz]
    refine (setLeaf_spec hp h₀ (isLeaf_mk q h.readable) (pte2pa_leaf h.addr h.flags)
      fun hu => hg.reserved (h.page hu)).bind fun _ w₂ ⟨hst', hm⟩ => .pure ⟨hst.trans hg hst', ?_⟩
    exact hm.of_grows hg (fun _ => hc.frame [q]) fun _ => hc

theorem mappages_spec (h : CanMap w r v q perm) :
    Does w (mappages r (v * PGSIZE) PGSIZE q perm) fun ok w' => Still w w' ∧
      if ok then Maps r v q (pa2pte q ||| perm ||| PTE_V) w w'
      else Grows w w' ∧ Confined r [] [] w w' := by
  have hlt : v * 4096 < 2 ^ 38 := h.lt
  have hdown : pgrounddown (v * PGSIZE) = v * PGSIZE := by
    rw [pgrounddown, Nat.mul_div_cancel v (by decide)]
  have hlast : pgrounddown ((v * PGSIZE + PGSIZE - 1) % 2 ^ 64) = v * PGSIZE := by
    rw [pgrounddown]
    change (v * 4096 + 4096 - 1) % 2 ^ 64 / 4096 * 4096 = v * 4096
    omega
  have hn : (v * PGSIZE + 2 ^ 64 - v * PGSIZE) % 2 ^ 64 / PGSIZE = 0 := by
    rw [Nat.add_sub_cancel_left]
    decide
  rw [mappages, if_neg (by decide), hdown, hlast]
  dsimp only
  rw [hn]
  exact mapPage_spec h

end Map

/-! ### Unmapping -/

/-- The entries for the `n` virtual pages of `r` from `lo` on become empty, and the pages that they
mapped for the user are freed. The pages that are not freed have the contents that they had. -/
structure Unmaps (r lo n : ℕ) (w w' : Store) : Prop where
  first : w'.kmem.first = w.kmem.first
  keep : ∀ p ∉ w.list, (∀ v, lo ≤ v → v < lo + n → w.use p ≠ .user r v) →
    p ∉ w'.list ∧ w'.use p = w.use p
  pte : ∀ r' v', w.IsRoot r' → v' < vpnLimit →
    w'.pte r' v' = if r' = r ∧ lo ≤ v' ∧ v' < lo + n then 0 else w.pte r' v'
  confined : Confined r [] [] w w'
  free : ∀ p ∈ w.list, p ∈ w'.list
  freed : ∀ v, lo ≤ v → v < lo + n → IsUser v → pte2pa (w.pte r v) ∈ w'.list
  data : ∀ p ∉ w'.list, ¬ (w.use p).IsTable → w'.kmem.mem p = w.kmem.mem p

namespace Unmaps

variable {w w' w'' : Store} {r lo n : ℕ}

theorem isRoot (h : Unmaps r lo n w w') {r' : ℕ} (hr : w.IsRoot r') : w'.IsRoot r' := by
  have hne : w.use r' ≠ .none := by
    rw [hr]
    simp
  rw [Store.IsRoot, (h.keep r' (w.tidy.notMem hne) fun v _ _ => by rw [hr]; simp).2, hr]

theorem refl (r lo : ℕ) (w : Store) : Unmaps r lo 0 w w where
  first := rfl
  keep _ hp _ := ⟨hp, rfl⟩
  pte r' v' _ _ := by rw [if_neg (by omega)]
  confined := .refl r [] w
  free _ hp := hp
  freed v h₁ h₂ := by omega
  data _ _ _ := rfl

theorem trans (hr : w.IsRoot r) (hlt : lo + (n + 1) ≤ vpnLimit) (h : Unmaps r lo 1 w w')
    (h' : Unmaps r (lo + 1) n w' w'') : Unmaps r lo (n + 1) w w'' where
  first := h'.first.trans h.first
  keep p hp hu := by
    obtain ⟨hp', hu'⟩ := h.keep p hp fun v h₁ h₂ => hu v h₁ (by omega)
    obtain ⟨hp'', hu''⟩ := h'.keep p hp' fun v h₁ h₂ => by
      rw [hu']
      exact hu v (by omega) (by omega)
    exact ⟨hp'', hu''.trans hu'⟩
  pte r' v' hr hv := by
    rw [h'.pte r' v' (h.isRoot hr) hv, h.pte r' v' hr hv]
    split_ifs <;> first | rfl | omega
  confined := h.confined.trans h'.confined
  free p hp := h'.free p (h.free p hp)
  freed v h₁ h₂ hu := by
    by_cases hv : v = lo
    · exact h'.free _ (h.freed v h₁ (by omega) hu)
    · have hsame := h.pte r v hr (by omega)
      rw [if_neg (by omega)] at hsame
      rw [← hsame]
      exact h'.freed v (by omega) (by omega) hu
  data p hp ht := by
    have hp' : p ∉ w'.list := fun hl => hp (h'.free p hl)
    have hl : p ∉ w.list := fun hl => hp' (h.free p hl)
    have hkeep := h.keep p hl fun v h₁ h₂ hu => by
      obtain rfl : v = lo := by omega
      obtain ⟨-, hpa⟩ := Store.pte_of_user hr (by omega) hu
      exact hp' (hpa ▸ h.freed v le_rfl (by omega) (Store.isUser hu))
    rw [h'.data p hp (hkeep.2 ▸ ht), h.data p hp' ht]

end Unmaps

section Unmap

variable {w : Store} {r p v : ℕ}

theorem clearPte_spec (hr : w.IsRoot r) (hv : v < vpnLimit) (hp : w.use p = .table r 0 (v / 512))
    (hm : w.pte r v ≠ 0) {doFree : Bool} (hu : doFree = true ↔ IsUser v) :
    Does w (clearPte p (px 0 (v * PGSIZE)) doFree) fun _ w' => Unmaps r v 1 w w' := by
  have hiff (r' v' : ℕ) : r' = r ∧ v ≤ v' ∧ v' < v + 1 ↔ r' = r ∧ v' = v := by omega
  refine readPte_bind ?_
  cases doFree with
  | false =>
    rw [if_neg (by decide)]
    have hx (x : ℕ) (hx : w.use x = .user r v) : (0 : Word) ≠ 0 ∧ pte2pa 0 = x :=
      absurd (hu.2 (Store.isUser hx)) (by decide)
    refine (putPte_spec hp (.inl rfl) hx).mono ?_
    rintro - w' ⟨hfirst, huse, hlist, hc, hst, hpte⟩
    refine ⟨hfirst, fun x hx _ => ⟨hlist ▸ hx, congrFun huse x⟩, fun r' v' hr' hv' => ?_, hc,
      fun x hx => hlist ▸ hx, fun v' h₁ h₂ hu' => ?_, fun x hx => hst x (hlist ▸ hx)⟩
    · rw [hpte r' v' hr' hv']
      simp only [hiff]
    · obtain rfl : v' = v := by omega
      exact absurd (hu.2 hu') (by decide)
  | true =>
    rw [if_pos rfl, ← Store.pte_of_table hr hv hp]
    obtain ⟨-, hq⟩ := (Store.pte_ok hr hv).resolve_left hm
    replace hq := hq (hu.1 rfl)
    have hpa : pte2pa (w.kmem.mem p (px 0 (v * PGSIZE))) = pte2pa (w.pte r v) := by
      rw [Store.pte_of_table hr hv hp]
    generalize hqe : pte2pa (w.pte r v) = q at hq hpa
    have hqt : ¬ (w.use q).IsTable := by simp [hq, Use.IsTable]
    have hpq : p ≠ q := Tidy.ne_of_table hqt hp
    have hql : q ∉ w.list := w.tidy.notMem (by simp [hq])
    have hqr := w.tidy.range q (by simp [hq])
    have hk := px_zero v
    have hclear := w.tidy.setLeaf (k := px 0 (v * PGSIZE)) hp (.inl rfl)
    -- the order of the two writes does not matter
    have hfree := hclear.putFree hqt hql hqr fun r' pre k t hu ht => by
      obtain ⟨rfl, hv'⟩ : r = r' ∧ v = pre * 512 + k := by simpa [hq] using hu
      obtain rfl : px 0 (v * PGSIZE) = k := Fin.ext (by omega)
      obtain rfl : pre = v / 512 := by omega
      rw [w.tidy.table_unique ht hp, Kmem.write_mem_self, update_self]
    have hmapped : Exact ((w.kmem.write p (update (w.kmem.mem p) (px 0 (v * PGSIZE)) 0)).putFree
        q) (update w.use q .none) := by
      have hold {x r' v' : ℕ} (hx : update w.use q .none x = .user r' v') :
          x ≠ q ∧ w.use x = .user r' v' := by
        by_cases hxq : x = q
        · simp [hxq] at hx
        · exact ⟨hxq, by rwa [update_of_ne hxq] at hx⟩
      refine w.mapped.setLeaf (k := px 0 (v * PGSIZE)) (e := 0) hp (fun x hx => ?_)
        (fun x r' v' _ hx => (hold hx).2) fun t r' pre' ht => ⟨?_, ?_⟩
      · -- the page that has been freed was the only one at this place
        obtain ⟨hxq, hx⟩ := hold hx
        obtain ⟨-, t, ht, -, hxa⟩ := w.mapped x r _ _ hx
        rw [w.tidy.table_unique ht hp, hpa] at hxa
        exact absurd hxa.symm hxq
      · exact (update_of_ne (Tidy.ne_of_table hqt ht) _ _).trans ht
      · rw [Kmem.putFree_mem_of_ne _ (Tidy.ne_of_table hqt ht)]
        exact update_apply _ _ _ _
    intro d
    refine Runs.bind (R := fun _ t => t = ⟨w.kmem.putFree q, d⟩) (.of_eq (kfree_run _ d hqr) rfl) ?_
    rintro - t rfl
    have hmem {x : ℕ} (hxq : x ≠ q) (hxp : x ≠ p) : ((w.kmem.write p
        (update (w.kmem.mem p) (px 0 (v * PGSIZE)) 0)).putFree q).mem x = w.kmem.mem x :=
      (Kmem.putFree_mem_of_ne _ hxq).trans (Kmem.write_mem_of_ne _ _ hxp)
    refine .of_eq rfl ⟨⟨_, _, _, hfree, hmapped⟩, ?_, rfl, fun x hx hxu => ?_,
      fun r' v' hr' hv' => ?_, ?_, fun x hx => List.mem_cons_of_mem q hx, fun v' h₁ h₂ _ => ?_,
      fun x hx ht => ?_⟩
    · change (w.kmem.putFree q).write p (update ((w.kmem.putFree q).mem p) _ 0) =
        (w.kmem.write p _).putFree q
      rw [Kmem.putFree_write _ hpq, Kmem.putFree_mem_of_ne _ hpq]
    · have hxq : x ≠ q := by
        rintro rfl
        exact hxu v le_rfl (by omega) hq
      exact ⟨by simp [hxq, hx], update_of_ne hxq _ _⟩
    · simp only [hiff]
      refine pte_setLeaf hp (fun x hx => ?_) (fun x r level pre => ?_) hr' hv'
      · have hxq : x ≠ q := by
          rintro rfl
          exact hqt hx
        exact (Kmem.putFree_mem_of_ne _ hxq).trans (update_apply _ _ _ _)
      · by_cases hxq : x = q
        · simp [hxq, hq]
        · simp [update_of_ne hxq]
    · refine .of_page (q := q) (.inr (.inl (by rw [hq]; rfl))) (.inl List.mem_cons_self)
        (fun x hx => ⟨update_of_ne hx _ _, by simp [hx], Iff.rfl⟩) fun x hx => ?_
      have hxq : x ≠ q := by
        rintro rfl
        exact hx (.inr (.inl (by rw [hq]; rfl)))
      have hxp : x ≠ p := by
        rintro rfl
        exact hx (.inr (.inl (by rw [hp]; rfl)))
      exact hmem hxq hxp
    · obtain rfl : v' = v := by omega
      rw [hqe]
      exact List.mem_cons_self
    · refine hmem (fun h => hx (h ▸ List.mem_cons_self)) ?_
      rintro rfl
      exact ht (by rw [hp]; trivial)

theorem unmapPages_spec {lo n : ℕ} {doFree : Bool} (hr : w.IsRoot r)
    (hmax : (lo + n) * PGSIZE ≤ MAXVA) (hm : ∀ v, lo ≤ v → v < lo + n → w.pte r v ≠ 0)
    (hu : ∀ v, lo ≤ v → v < lo + n → (doFree = true ↔ IsUser v)) :
    Does w (unmapPages r doFree n (lo * PGSIZE)) fun _ w' => Unmaps r lo n w w' := by
  induction n generalizing w lo with
  | zero => exact .pure (.refl r lo w)
  | succ n ih =>
    have hmax' : (lo + (n + 1)) * 4096 ≤ 2 ^ 38 := hmax
    have hlo : lo < vpnLimit := by
      change lo < 2 ^ 27
      omega
    have hm₀ := hm lo le_rfl (by omega)
    rw [unmapPages]
    refine (walk_false hr (by change lo * 4096 < 2 ^ 38; omega)).bind ?_
    rintro o w' ⟨rfl, ⟨p, rfl, hp⟩ | ⟨-, h₀⟩⟩
    · have hpte := Store.pte_of_table hr hlo hp
      obtain ⟨hleaf, -⟩ := (Store.pte_ok hr hlo).resolve_left hm₀
      refine readPte_bind ?_
      rw [← hpte, if_neg hleaf.valid, if_neg hleaf.pteFlags_ne]
      refine (clearPte_spec hr hlo hp hm₀ (hu lo le_rfl (by omega))).bind ?_
      intro _ w₁ h₁
      have hnext : lo * PGSIZE + PGSIZE = (lo + 1) * PGSIZE := (Nat.succ_mul lo PGSIZE).symm
      rw [hnext]
      refine (ih (h₁.isRoot hr) ?_ ?_ ?_).mono fun _ w₂ h₂ =>
        .trans hr (by change lo + (n + 1) ≤ 2 ^ 27; omega) h₁ h₂
      · rwa [show lo + 1 + n = lo + (n + 1) by omega]
      · intro v h₁' h₂'
        have hv : v < vpnLimit := by
          change v < 2 ^ 27
          omega
        rw [h₁.pte r v hr hv, if_neg (by omega)]
        exact hm v (by omega) (by omega)
      · exact fun v h₁' h₂' => hu v (by omega) (by omega)
    · exact absurd h₀ hm₀

theorem uvmunmap_spec {lo n : ℕ} {doFree : Bool} (hr : w.IsRoot r)
    (hmax : (lo + n) * PGSIZE ≤ MAXVA) (hm : ∀ v, lo ≤ v → v < lo + n → w.pte r v ≠ 0)
    (hu : ∀ v, lo ≤ v → v < lo + n → (doFree = true ↔ IsUser v)) :
    Does w (uvmunmap r (lo * PGSIZE) n doFree) fun _ w' => Unmaps r lo n w w' := by
  have hn : ((lo * PGSIZE + n * PGSIZE) % 2 ^ 64 - lo * PGSIZE) / PGSIZE = n := by
    have hmax' : (lo + n) * 4096 ≤ 2 ^ 38 := hmax
    change ((lo * 4096 + n * 4096) % 2 ^ 64 - lo * 4096) / 4096 = n
    omega
  rw [uvmunmap, if_neg (by simp), hn]
  exact unmapPages_spec hr hmax hm hu

end Unmap

end Xv6.Vm
