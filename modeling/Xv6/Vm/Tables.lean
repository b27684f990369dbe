import Xv6.Proc.Basic
import Xv6.Vm.Pte

/-!
# What the pages of memory are used for

The page tables of all address spaces share physical memory with the pages they map and with the
free list. To keep them apart, every page gets a label that says what it is used for: as a
page-table page of the address space with a given root, at a given place in it, or as the page that
such an address space maps at a given virtual page. A label is a claim that `Tidy` makes about the
contents of memory; the kernel knows nothing of labels. Since a page has only one of them, what has
different labels is kept apart.
-/

namespace Xv6.Vm

open Function (update update_self update_of_ne)

/-- The virtual page of the trampoline. -/
abbrev trampolineVpn : ℕ := TRAMPOLINE / PGSIZE

/-- The virtual page of the trapframe. -/
abbrev trapframeVpn : ℕ := TRAPFRAME / PGSIZE

/-- The virtual pages that are the user's own. -/
def IsUser (vpn : ℕ) : Prop := vpn ≠ trampolineVpn ∧ vpn ≠ trapframeVpn

/-- What a page of memory is used for. -/
inductive Use
  /-- Nothing that matters here. -/
  | none
  /-- The trapframe of the process in slot `i`. -/
  | frame (i : Slot)
  /-- The page-table page of a level for the virtual pages `v` with `v / 512 ^ (level + 1) = pre`.
  -/
  | table (root level pre : ℕ)
  /-- The user's virtual page `vpn`. -/
  | user (root vpn : ℕ)

/-- The page is a page-table page. -/
def Use.IsTable : Use → Prop
  | .table _ _ _ => True
  | _ => False

/-- The page is part of the address space with the given root. -/
def Use.Of (root : ℕ) : Use → Prop
  | .table r _ _ | .user r _ => r = root
  | _ => False

theorem Use.Of.root_eq {u : Use} {r r' : ℕ} (h : u.Of r) (h' : u.Of r') : r = r' := by
  cases u with
  | none | frame => exact h.elim
  | table | user =>
    obtain rfl := h
    exact h'

/-- A page-table entry of a higher level is empty or points to the page-table page for it. -/
def NodeOk (u : ℕ → Use) (root level pre : ℕ) (w : Word) : Prop :=
  w = 0 ∨ ∃ q, w = pa2pte q ||| PTE_V ∧ u q = .table root level pre

/-- A page-table entry of level 0 is empty or maps a page, and what is mapped for the user is a page
of this address space. -/
def LeafOk (u : ℕ → Use) (root vpn : ℕ) (w : Word) : Prop :=
  w = 0 ∨ IsLeaf w ∧ (IsUser vpn → u (pte2pa w) = .user root vpn)

/-- Memory is as the labels `u` say, with free pages `l`. The entries in `E` of page-table pages of
higher levels are left out; they are being taken down. -/
structure Tidy (m : Kmem) (u : ℕ → Use) (E : ℕ → Fin 512 → Prop) (l : List ℕ) : Prop where
  free : m.Free l
  use_free : ∀ p ∈ l, u p = .none
  range : ∀ p, u p ≠ .none → m.first ≤ p ∧ p < PHYSTOPPG
  level : ∀ p r level pre, u p = .table r level pre → level ≤ 2
  root : ∀ p r pre, u p = .table r 2 pre → p = r ∧ pre = 0
  node : ∀ p r level pre (k : Fin 512), u p = .table r (level + 1) pre → ¬ E p k →
    NodeOk u r level (pre * 512 + k) (m.mem p k)
  leaf : ∀ p r pre (k : Fin 512), u p = .table r 0 pre → LeafOk u r (pre * 512 + k) (m.mem p k)
  parent : ∀ q r level pre (k : Fin 512), u q = .table r level (pre * 512 + k) → level < 2 →
    ∃ p, u p = .table r (level + 1) pre ∧ m.mem p k = pa2pte q ||| PTE_V

/-- What is labelled as a page of the user is mapped, and where such pages are. -/
def Exact (m : Kmem) (u : ℕ → Use) : Prop :=
  ∀ p r pre (k : Fin 512), u p = .user r (pre * 512 + k) → IsUser (pre * 512 + k) ∧
    ∃ t, u t = .table r 0 pre ∧ m.mem t k ≠ 0 ∧ pte2pa (m.mem t k) = p

variable {u' : ℕ → Use}

/-- No page of the user is added, and the page-table pages of level 0 are kept. -/
theorem Exact.congr {m m' : Kmem} {u : ℕ → Use} (h : Exact m u)
    (hu : ∀ p r v, u' p = .user r v → u p = .user r v)
    (ht : ∀ t r pre, u t = .table r 0 pre → u' t = .table r 0 pre ∧ m'.mem t = m.mem t) :
    Exact m' u' := by
  intro p r pre k hp
  obtain ⟨hv, t, htable, hne, hpa⟩ := h p r pre k (hu p r _ hp)
  obtain ⟨htable', hmem⟩ := ht t r pre htable
  exact ⟨hv, t, htable', by rwa [hmem], by rwa [hmem]⟩

/-- The entry of level 0 for one place is changed, and the page of the user there with it. -/
theorem Exact.setLeaf {m m' : Kmem} {u : ℕ → Use} {p r pre : ℕ} {k : Fin 512} {e : Word}
    (h : Exact m u) (hp : u p = .table r 0 pre)
    (hself : ∀ x, u' x = .user r (pre * 512 + k) → IsUser (pre * 512 + k) ∧ e ≠ 0 ∧ pte2pa e = x)
    (hother : ∀ x r' v, ¬ (r' = r ∧ v = pre * 512 + k) → u' x = .user r' v → u x = .user r' v)
    (ht : ∀ t r' pre', u t = .table r' 0 pre' → u' t = .table r' 0 pre' ∧
      m'.mem t = if t = p then update (m.mem p) k e else m.mem t) : Exact m' u' := by
  intro x r' pre' k' hx
  by_cases hv : r' = r ∧ pre' * 512 + k' = pre * 512 + k
  · obtain ⟨rfl, hv⟩ := hv
    obtain ⟨rfl, rfl⟩ : pre' = pre ∧ k' = k := ⟨by omega, Fin.ext (by omega)⟩
    obtain ⟨hu, hne, hpa⟩ := hself x hx
    obtain ⟨hp', hm'⟩ := ht p r' pre' hp
    rw [if_pos rfl] at hm'
    exact ⟨hu, p, hp', by rwa [hm', update_self], by rwa [hm', update_self]⟩
  · obtain ⟨hu, t, htable, hne, hpa⟩ := h x r' pre' k' (hother x r' _ hv hx)
    obtain ⟨ht', hm'⟩ := ht t r' pre' htable
    have hmem : m'.mem t k' = m.mem t k' := by
      rw [hm']
      split_ifs with htp
      · subst htp
        refine update_of_ne ?_ _ _
        rintro rfl
        obtain ⟨rfl, rfl⟩ : r = r' ∧ pre = pre' := by simpa [hp] using htable
        exact hv ⟨rfl, rfl⟩
      · rfl
    exact ⟨hu, t, ht', by rwa [hmem], by rwa [hmem]⟩

theorem NodeOk.congr {u : ℕ → Use} {root level pre : ℕ} {w : Word}
    (h : NodeOk u root level pre w) (hu : ∀ q, u q ≠ .none → u' q = u q) :
    NodeOk u' root level pre w :=
  h.imp_right fun ⟨q, hw, hq⟩ => ⟨q, hw, by rw [hu q (by simp [hq]), hq]⟩

theorem LeafOk.congr {u : ℕ → Use} {root vpn : ℕ} {w : Word} (h : LeafOk u root vpn w)
    (hu : ∀ q, u q ≠ .none → u' q = u q) : LeafOk u' root vpn w :=
  h.imp_right fun ⟨hw, hv⟩ => ⟨hw, fun hvpn => by rw [hu _ (by simp [hv hvpn]), hv hvpn]⟩

/-- The place of a page-table page, as the place of its parent and the index there. -/
theorem eq_prefix_add (pre : ℕ) : pre = pre / 512 * 512 + (Fin.ofNat 512 pre : Fin 512) := by
  simp only [Fin.val_ofNat]
  omega

namespace Tidy

variable {m : Kmem} {u : ℕ → Use} {E E' : ℕ → Fin 512 → Prop} {l : List ℕ} {p q r : ℕ}

theorem mono (h : Tidy m u E l) (hE : ∀ p k, E p k → E' p k) : Tidy m u E' l :=
  { h with node := fun p r level pre k hp hk => h.node p r level pre k hp fun he => hk (hE p k he) }

theorem lt (h : Tidy m u E l) (hp : u p ≠ .none) : p < 2 ^ 44 := by
  have : p < 0x88000 := (h.range p hp).2
  omega

theorem notMem (h : Tidy m u E l) (hp : u p ≠ .none) : p ∉ l := fun hl => hp (h.use_free p hl)

variable {level pre : ℕ}

/-- A page-table page is determined by its place. -/
theorem table_unique (h : Tidy m u E l) (hp : u p = .table r level pre)
    (hq : u q = .table r level pre) : p = q := by
  have hle := h.level p r level pre hp
  -- down from the root, since the parent of a page is unique
  induction hn : 2 - level generalizing p q level pre with
  | zero =>
    obtain rfl : level = 2 := by omega
    rw [(h.root p r pre hp).1, (h.root q r pre hq).1]
  | succ n ih =>
    rw [eq_prefix_add pre] at hp hq
    obtain ⟨p', hp', hpw⟩ := h.parent p r level _ _ hp (by omega)
    obtain ⟨q', hq', hqw⟩ := h.parent q r level _ _ hq (by omega)
    obtain rfl := ih hp' hq' (h.level p' r _ _ hp') (by omega)
    have hlt : p < 2 ^ 44 := h.lt (by simp [hp])
    have hlt' : q < 2 ^ 44 := h.lt (by simp [hq])
    rw [← pte2pa_node hlt, ← hpw, hqw, pte2pa_node hlt']

/-- Where there is a page-table page there is a root. -/
theorem root_of_table (h : Tidy m u E l) (hp : u p = .table r level pre) :
    u r = .table r 2 0 := by
  have hle := h.level p r level pre hp
  induction hn : 2 - level generalizing p level pre with
  | zero =>
    obtain rfl : level = 2 := by omega
    obtain ⟨rfl, rfl⟩ := h.root p r pre hp
    exact hp
  | succ n ih =>
    rw [eq_prefix_add pre] at hp
    obtain ⟨p', hp', -⟩ := h.parent p r level _ _ hp (by omega)
    exact ih hp' (h.level p' r _ _ hp') (by omega)

/-! ### Pages that are no page-table pages -/

theorem ne_of_table (ht : ¬ (u p).IsTable) (hq : u q = .table r level pre) :
    q ≠ p := by
  rintro rfl
  rw [hq] at ht
  exact ht trivial

/-- The free list and the pages that are no page-table pages may change. -/
theorem congr {m' : Kmem} {l' : List ℕ} (h : Tidy m u E l) (hfree : m'.Free l')
    (hl' : ∀ p ∈ l', u p = .none) (hfirst : m'.first = m.first)
    (hmem : ∀ q r level pre, u q = .table r level pre → m'.mem q = m.mem q) :
    Tidy m' u E l' := by
  refine ⟨hfree, hl', hfirst ▸ h.range, h.level, h.root, ?_, ?_, ?_⟩
  · intro q r level pre k hq hk
    rw [hmem q r _ pre hq]
    exact h.node q r level pre k hq hk
  · intro q r pre k hq
    rw [hmem q r _ pre hq]
    exact h.leaf q r pre k hq
  · intro q r level pre k hq hlevel
    obtain ⟨p, hp, hw⟩ := h.parent q r level pre k hq hlevel
    exact ⟨p, hp, by rw [hmem p r _ pre hp, hw]⟩

/-- Writing to a page in use that is no page-table page. -/
theorem write (h : Tidy m u E l) (hp : p ∉ l) (ht : ¬ (u p).IsTable) (pg : Page) :
    Tidy (m.write p pg) u E l :=
  h.congr (h.free.write hp pg) h.use_free rfl fun _ _ _ _ hq =>
    Kmem.write_mem_of_ne m pg (ne_of_table ht hq)

/-- `kalloc` takes a page that had no use. -/
theorem kalloc (h : Tidy m u E l) (hne : m.freelist ≠ 0) :
    ∃ l', l = m.freelist :: l' ∧ m.freelist ∉ l' ∧ u m.freelist = .none ∧
      (m.first ≤ m.freelist ∧ m.freelist < PHYSTOPPG) ∧ m.kalloc.1 = m.freelist ∧
      Tidy m.kalloc.2 u E l' := by
  obtain ⟨l', rfl, hnot, heq, hfree, hmem⟩ := h.free.kalloc hne
  have hu := h.use_free _ List.mem_cons_self
  refine ⟨l', rfl, hnot, hu, h.free.range _ List.mem_cons_self, heq, ?_⟩
  refine h.congr hfree (fun p hp => h.use_free p (List.mem_cons_of_mem _ hp)) ?_ ?_
  · simp [Kmem.kalloc, hne, Kmem.write]
  · intro q r level pre hq
    apply hmem
    rintro rfl
    simp [hu] at hq

/-- A page that is no page-table page may get another use that is none either. If it was a page of
the user, it must not be mapped any more. -/
theorem relabel (h : Tidy m u E l) {o : Use} (hp : ¬ (u p).IsTable) (ho : ¬ o.IsTable)
    (hl : o ≠ .none → p ∉ l ∧ m.first ≤ p ∧ p < PHYSTOPPG)
    (hleaf : ∀ r pre (k : Fin 512) t, u p = .user r (pre * 512 + k) → u t = .table r 0 pre →
      m.mem t k = 0) : Tidy m (update u p o) E l := by
  have hold {q r level pre : ℕ} (hq : update u p o q = .table r level pre) :
      u q = .table r level pre := by
    by_cases hqp : q = p
    · rw [hqp, update_self] at hq
      rw [hq] at ho
      exact absurd trivial ho
    · rwa [update_of_ne hqp] at hq
  have hnew {q r level pre : ℕ} (hq : u q = .table r level pre) :
      update u p o q = .table r level pre := by
    rwa [update_of_ne (ne_of_table hp hq)]
  refine ⟨h.free, ?_, ?_, ?_, ?_, ?_, ?_, ?_⟩
  · intro q hq
    by_cases hqp : q = p
    · rw [hqp, update_self]
      by_contra ho'
      exact (hl ho').1 (hqp ▸ hq)
    · rw [update_of_ne hqp]
      exact h.use_free q hq
  · intro q hq
    by_cases hqp : q = p
    · rw [hqp, update_self] at hq
      exact hqp ▸ (hl hq).2
    · rw [update_of_ne hqp] at hq
      exact h.range q hq
  · exact fun q r level pre hq => h.level q r level pre (hold hq)
  · exact fun q r pre hq => h.root q r pre (hold hq)
  · intro q r level pre k hq hk
    exact (h.node q r level pre k (hold hq) hk).imp_right fun ⟨c, hc, hcu⟩ => ⟨c, hc, hnew hcu⟩
  · intro q r pre k hq
    rcases h.leaf q r pre k (hold hq) with h₀ | ⟨hw, hu⟩
    · exact .inl h₀
    · by_cases hqp : pte2pa (m.mem q k) = p
      · by_cases hvpn : IsUser (pre * 512 + k)
        · exact .inl (hleaf r pre k q (hqp ▸ hu hvpn) (hold hq))
        · exact .inr ⟨hw, fun h => absurd h hvpn⟩
      · exact .inr ⟨hw, fun h => by rw [update_of_ne hqp, hu h]⟩
  · intro q r level pre k hq hlevel
    obtain ⟨c, hc, hw⟩ := h.parent q r level pre k (hold hq) hlevel
    exact ⟨c, hnew hc, hw⟩

/-- Freeing a page that is no page-table page, and not mapped for a user. -/
theorem putFree (h : Tidy m u E l) (hp : ¬ (u p).IsTable) (hl : p ∉ l)
    (hr : m.first ≤ p ∧ p < PHYSTOPPG)
    (hleaf : ∀ r pre (k : Fin 512) t, u p = .user r (pre * 512 + k) → u t = .table r 0 pre →
      m.mem t k = 0) : Tidy (m.putFree p) (update u p .none) E (p :: l) := by
  have h' := h.relabel (o := .none) hp (fun h => h) (fun h => absurd rfl h) hleaf
  refine h'.congr (h.free.putFree hl hr) ?_ rfl ?_
  · intro q hq
    by_cases hqp : q = p
    · rw [hqp, update_self]
    · exact h'.use_free q ((List.mem_cons.1 hq).resolve_left hqp)
  · intro q r level pre hq
    apply Kmem.putFree_mem_of_ne
    rintro rfl
    simp at hq

/-! ### Page-table pages -/

/-- Changing an entry of level 0. -/
theorem setLeaf (h : Tidy m u E l) {k : Fin 512} {w : Word} (hp : u p = .table r 0 pre)
    (hw : LeafOk u r (pre * 512 + k) w) :
    Tidy (m.write p (update (m.mem p) k w)) u E l := by
  have hl : p ∉ l := h.notMem (by simp [hp])
  have hne {q r' level pre' : ℕ} (hq : u q = .table r' (level + 1) pre') : q ≠ p := by
    rintro rfl
    simp [hp] at hq
  refine ⟨h.free.write hl _, h.use_free, h.range, h.level, h.root, ?_, ?_, ?_⟩
  · intro q r' level pre' k' hq hk
    rw [Kmem.write_mem_of_ne m _ (hne hq)]
    exact h.node q r' level pre' k' hq hk
  · intro q r' pre' k' hq
    by_cases hqp : q = p
    · subst hqp
      obtain ⟨rfl, -, rfl⟩ : r = r' ∧ True ∧ pre = pre' := by simpa [hp] using hq
      rw [Kmem.write_mem_self]
      by_cases hk : k' = k
      · rw [hk, update_self]
        exact hw
      · rw [update_of_ne hk]
        exact h.leaf q r pre k' hq
    · rw [Kmem.write_mem_of_ne m _ hqp]
      exact h.leaf q r' pre' k' hq
  · intro q r' level pre' k' hq hlevel
    obtain ⟨c, hc, hcw⟩ := h.parent q r' level pre' k' hq hlevel
    exact ⟨c, hc, by rw [Kmem.write_mem_of_ne m _ (hne hc), hcw]⟩

/-- A new page-table page without entries becomes a root. -/
theorem newRoot (h : Tidy m u E l) (hp : u p = .none) (hl : p ∉ l)
    (hr : m.first ≤ p ∧ p < PHYSTOPPG) (hz : ∀ k, m.mem p k = 0) :
    Tidy m (update u p (.table p 2 0)) E l := by
  have hold {q : ℕ} (hqp : q ≠ p) : update u p (.table p 2 0) q = u q :=
    update_of_ne hqp _ _
  have hkeep (q : ℕ) (hq : u q ≠ .none) : update u p (.table p 2 0) q = u q :=
    hold fun he => hq (he ▸ hp)
  refine ⟨h.free, ?_, ?_, ?_, ?_, ?_, ?_, ?_⟩
  · intro q hq
    rw [hold (by rintro rfl; exact hl hq)]
    exact h.use_free q hq
  · intro q hq
    by_cases hqp : q = p
    · exact hqp ▸ hr
    · exact h.range q (by rwa [hold hqp] at hq)
  · intro q r level pre hq
    by_cases hqp : q = p
    · simp only [hqp, update_self, Use.table.injEq] at hq
      omega
    · exact h.level q r level pre (by rwa [hold hqp] at hq)
  · intro q r pre hq
    by_cases hqp : q = p
    · simp only [hqp, update_self, Use.table.injEq, true_and] at hq
      exact ⟨hqp.trans hq.1, hq.2.symm⟩
    · exact h.root q r pre (by rwa [hold hqp] at hq)
  · intro q r level pre k hq hk
    by_cases hqp : q = p
    · exact .inl (hqp ▸ hz k)
    · rw [hold hqp] at hq
      exact (h.node q r level pre k hq hk).congr hkeep
  · intro q r pre k hq
    by_cases hqp : q = p
    · simp [hqp] at hq
    · rw [hold hqp] at hq
      exact (h.leaf q r pre k hq).congr hkeep
  · intro q r level pre k hq hlevel
    by_cases hqp : q = p
    · simp only [hqp, update_self, Use.table.injEq] at hq
      omega
    · rw [hold hqp] at hq
      obtain ⟨c, hc, hcw⟩ := h.parent q r level pre k hq hlevel
      exact ⟨c, by rw [hkeep c (by simp [hc]), hc], hcw⟩

/-- A new page-table page without entries is put in an empty place of a page-table page. -/
theorem link (h : Tidy m u E l) {k : Fin 512} (hp : u p = .table r (level + 1) pre)
    (hk : m.mem p k = 0) (hq : u q = .none) (hl : q ∉ l) (hr : m.first ≤ q ∧ q < PHYSTOPPG)
    (hz : ∀ k, m.mem q k = 0) :
    Tidy (m.write p (update (m.mem p) k (pa2pte q ||| PTE_V)))
      (update u q (.table r level (pre * 512 + k))) E l := by
  have hold {x : ℕ} (hx : x ≠ q) : update u q (.table r level (pre * 512 + k)) x = u x :=
    update_of_ne hx _ _
  have hkeep (x : ℕ) (hx : u x ≠ .none) :
      update u q (.table r level (pre * 512 + k)) x = u x :=
    hold fun he => hx (he ▸ hq)
  have hpq : p ≠ q := by
    rintro rfl
    simp [hp] at hq
  have hlevel := h.level p r _ pre hp
  refine ⟨h.free.write (h.notMem (by simp [hp])) _, ?_, ?_, ?_, ?_, ?_, ?_, ?_⟩
  · intro x hx
    rw [hold (by rintro rfl; exact hl hx)]
    exact h.use_free x hx
  · intro x hx
    by_cases hxq : x = q
    · exact hxq ▸ hr
    · exact h.range x (by rwa [hold hxq] at hx)
  · intro x r' level' pre' hx
    by_cases hxq : x = q
    · simp only [hxq, update_self, Use.table.injEq] at hx
      omega
    · exact h.level x r' level' pre' (by rwa [hold hxq] at hx)
  · intro x r' pre' hx
    by_cases hxq : x = q
    · simp only [hxq, update_self, Use.table.injEq] at hx
      omega
    · exact h.root x r' pre' (by rwa [hold hxq] at hx)
  · intro x r' level' pre' k' hx hE
    by_cases hxq : x = q
    · rw [hxq, Kmem.write_mem_of_ne m _ hpq.symm]
      exact .inl (hz k')
    · rw [hold hxq] at hx
      have hchild := (h.node x r' level' pre' k' hx hE).congr hkeep
      by_cases hxp : x = p
      · subst hxp
        obtain ⟨rfl, rfl, rfl⟩ : r = r' ∧ level = level' ∧ pre = pre' := by simpa [hp] using hx
        rw [Kmem.write_mem_self]
        by_cases hkk : k' = k
        · subst hkk
          exact .inr ⟨q, by rw [update_self], by rw [update_self]⟩
        · rwa [update_of_ne hkk]
      · rwa [Kmem.write_mem_of_ne m _ hxp]
  · intro x r' pre' k' hx
    by_cases hxq : x = q
    · rw [hxq, Kmem.write_mem_of_ne m _ hpq.symm]
      exact .inl (hz k')
    · rw [hold hxq] at hx
      have hxp : x ≠ p := by
        rintro rfl
        simp [hp] at hx
      rw [Kmem.write_mem_of_ne m _ hxp]
      exact (h.leaf x r' pre' k' hx).congr hkeep
  · intro x r' level' pre' k' hx hlevel'
    by_cases hxq : x = q
    · subst hxq
      simp only [update_self, Use.table.injEq] at hx
      obtain ⟨rfl, rfl, hpre⟩ := hx
      obtain ⟨rfl, rfl⟩ : pre = pre' ∧ k = k' := by
        refine ⟨by omega, Fin.ext (by omega)⟩
      exact ⟨p, by rw [hold hpq, hp], by rw [Kmem.write_mem_self, update_self]⟩
    · rw [hold hxq] at hx
      obtain ⟨c, hc, hcw⟩ := h.parent x r' level' pre' k' hx hlevel'
      refine ⟨c, by rw [hkeep c (by simp [hc]), hc], ?_⟩
      by_cases hcp : c = p
      · subst hcp
        have hkk : k' ≠ k := by
          rintro rfl
          apply node_valid x
          rw [← hcw, hk]
          rfl
        rw [Kmem.write_mem_self, update_of_ne hkk, hcw]
      · rw [Kmem.write_mem_of_ne m _ hcp, hcw]

/-- Clearing an entry of a higher level whose page-table page has been freed. The entry is taken
down with it. -/
theorem unlink (h : Tidy m u E' l) {k : Fin 512}
    (hp : u p = .table r (level + 1) pre) (hq : ∀ q, u q ≠ .table r level (pre * 512 + k))
    (hE : ∀ x y, E' x y → E x y ∨ x = p ∧ y = k) :
    Tidy (m.write p (update (m.mem p) k 0)) u E l := by
  refine ⟨h.free.write (h.notMem (by simp [hp])) _, h.use_free, h.range, h.level, h.root,
    ?_, ?_, ?_⟩
  · intro x r' level' pre' k' hx hk'
    by_cases hxk : x = p ∧ k' = k
    · obtain ⟨rfl, rfl⟩ := hxk
      rw [Kmem.write_mem_self, update_self]
      exact .inl rfl
    · have hmem : (m.write p (update (m.mem p) k 0)).mem x k' = m.mem x k' := by
        by_cases hxp : x = p
        · subst hxp
          rw [Kmem.write_mem_self, update_of_ne fun h => hxk ⟨rfl, h⟩]
        · rw [Kmem.write_mem_of_ne m _ hxp]
      rw [hmem]
      exact h.node x r' level' pre' k' hx fun he => (hE x k' he).elim hk' hxk
  · intro x r' pre' k' hx
    have hxp : x ≠ p := by
      rintro rfl
      simp [hp] at hx
    rw [Kmem.write_mem_of_ne m _ hxp]
    exact h.leaf x r' pre' k' hx
  · intro x r' level' pre' k' hx hlevel
    obtain ⟨c, hc, hcw⟩ := h.parent x r' level' pre' k' hx hlevel
    refine ⟨c, hc, ?_⟩
    by_cases hcp : c = p
    · subst hcp
      obtain ⟨rfl, rfl, rfl⟩ : r = r' ∧ level = level' ∧ pre = pre' := by simpa [hp] using hc
      have hkk : k' ≠ k := by
        rintro rfl
        exact hq x hx
      rw [Kmem.write_mem_self, update_of_ne hkk, hcw]
    · rw [Kmem.write_mem_of_ne m _ hcp, hcw]

/-- Freeing a page-table page without entries. The entry that points to it is being taken down. -/
theorem freeTable (h : Tidy m u E l) (hp : u p = .table r level pre)
    (hz : ∀ k, m.mem p k = 0)
    (hE : ∀ q pre' (k : Fin 512), u q = .table r (level + 1) pre' → pre = pre' * 512 + k → E q k) :
    Tidy (m.putFree p) (update u p .none) E (p :: l) := by
  have hold {x : ℕ} (hx : x ≠ p) : update u p .none x = u x :=
    update_of_ne hx _ _
  have hne {x r level pre : ℕ} (hx : update u p .none x = .table r level pre) : x ≠ p := by
    rintro rfl
    simp at hx
  refine ⟨h.free.putFree (h.notMem (by simp [hp])) (h.range p (by simp [hp])), ?_, ?_, ?_, ?_, ?_,
    ?_, ?_⟩
  · intro x hx
    by_cases hxp : x = p
    · rw [hxp, update_self]
    · rw [hold hxp]
      exact h.use_free x ((List.mem_cons.1 hx).resolve_left hxp)
  · intro x hx
    by_cases hxp : x = p
    · simp [hxp] at hx
    · exact h.range x (by rwa [hold hxp] at hx)
  · intro x r' level' pre' hx
    exact h.level x r' level' pre' (by rwa [hold (hne hx)] at hx)
  · intro x r' pre' hx
    exact h.root x r' pre' (by rwa [hold (hne hx)] at hx)
  · intro x r' level' pre' k hx hk
    have hxp := hne hx
    rw [hold hxp] at hx
    rw [Kmem.putFree_mem_of_ne m hxp]
    rcases h.node x r' level' pre' k hx hk with h₀ | ⟨c, hc, hcu⟩
    · exact .inl h₀
    · refine .inr ⟨c, hc, ?_⟩
      have hcp : c ≠ p := by
        rintro rfl
        obtain ⟨rfl, rfl, hpre⟩ : r' = r ∧ level' = level ∧ pre' * 512 + k = pre := by
          simpa [hp, eq_comm] using hcu
        exact hk (hE x pre' k hx hpre.symm)
      rw [hold hcp, hcu]
  · intro x r' pre' k hx
    have hxp := hne hx
    rw [hold hxp] at hx
    rw [Kmem.putFree_mem_of_ne m hxp]
    refine (h.leaf x r' pre' k hx).imp_right fun ⟨hw, hu⟩ => ⟨hw, fun hv => ?_⟩
    have hcp : pte2pa (m.mem x k) ≠ p := by
      intro he
      simp [← he, hu hv] at hp
    rw [hold hcp, hu hv]
  · intro x r' level' pre' k hx hlevel
    have hxp := hne hx
    rw [hold hxp] at hx
    obtain ⟨c, hc, hcw⟩ := h.parent x r' level' pre' k hx hlevel
    have hcp : c ≠ p := by
      rintro rfl
      apply node_valid x
      rw [← hcw, hz k]
      rfl
    exact ⟨c, by rw [hold hcp, hc], by rw [Kmem.putFree_mem_of_ne m hcp, hcw]⟩

end Tidy

end Xv6.Vm
