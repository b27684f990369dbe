import Xv6.Lib.Radix
import Xv6.Vm.Store

/-!
# Page tables as maps

A page table is a tree of pages, and what it maps is found at the end of a path of indices that are
taken from the address. `Kmem.leaf` is the map from virtual pages to entries that this makes.
`mappages` adds to this map and `uvmunmap` removes from it, for any addresses, sizes and physical
pages.

Nothing is assumed of the pages that are mapped: `mappages` may map a page twice, or a page that is
free or part of a page table. Only what `uvmunmap` is to free must be the caller's. The rest of
memory may be changed between calls in any way that leaves the pages of the tree alone.
-/

namespace Xv6

open Function (update update_self update_of_ne)

open Vm Radix

/-- The entry for a virtual page, if there is a valid one. -/
def Kmem.leaf (m : Kmem) (r v : ℕ) : Option Word :=
  (m.level0 r v).bind fun p =>
    if m.mem p (px 0 (v * PGSIZE)) &&& PTE_V ≠ 0 then some (m.mem p (px 0 (v * PGSIZE))) else none

namespace PageMap

/-- The way to the page-table page of level 0. -/
def path (v : ℕ) : List (Fin 512) := [px 2 (v * PGSIZE), px 1 (v * PGSIZE)]

section Paths

variable {m m' : Kmem} {r v v' : ℕ}

theorem level0_eq (m : Kmem) (r v : ℕ) : m.level0 r v = find m.child r (path v) := by
  simp [Kmem.level0, path, find]

theorem level0_of_leaf {e : Word} (h : m.leaf r v = some e) :
    ∃ p, m.level0 r v = some p ∧ m.mem p (px 0 (v * PGSIZE)) = e ∧ e &&& PTE_V ≠ 0 := by
  obtain ⟨p, hp, he⟩ := Option.bind_eq_some_iff.1 h
  split_ifs at he with hV
  exact ⟨p, hp, Option.some.inj he, Option.some.inj he ▸ hV⟩

theorem leaf_of_level0 {p : ℕ} (h : m.level0 r v = some p) : m.leaf r v =
    if m.mem p (px 0 (v * PGSIZE)) &&& PTE_V ≠ 0 then some (m.mem p (px 0 (v * PGSIZE)))
    else none := by
  rw [Kmem.leaf, h, Option.bind_some]

/-- The indices determine the virtual page. -/
theorem path_inj (hv : v < vpnLimit) (hv' : v' < vpnLimit) (hp : path v = path v')
    (h₀ : px 0 (v * PGSIZE) = px 0 (v' * PGSIZE)) : v = v' := by
  have h₂ : (px 2 (v * PGSIZE) : ℕ) = px 2 (v' * PGSIZE) := by rw [(List.cons.inj hp).1]
  have h₁ : (px 1 (v * PGSIZE) : ℕ) = px 1 (v' * PGSIZE) := by
    rw [(List.cons.inj (List.cons.inj hp).2).1]
  have h₀' : (px 0 (v * PGSIZE) : ℕ) = px 0 (v' * PGSIZE) := by rw [h₀]
  have hlt : v < 2 ^ 27 := hv
  have hlt' : v' < 2 ^ 27 := hv'
  rw [px_val, px_val] at h₀' h₁ h₂
  omega

/-- Every way leads to some virtual page. -/
theorem exists_path (k j i : Fin 512) :
    ∃ v < vpnLimit, path v = [k, j] ∧ px 0 (v * PGSIZE) = i := by
  have hk := k.isLt
  have hj := j.isLt
  have hi := i.isLt
  have hpx (level : ℕ) (x : Fin 512) (hx : ((k * 512 + j) * 512 + i : ℕ) / 512 ^ level % 512 = x) :
      px level (((k * 512 + j) * 512 + i : ℕ) * PGSIZE) = x := Fin.ext (by rw [px_val, hx])
  refine ⟨(k * 512 + j) * 512 + i, by change _ < 2 ^ 27; omega, ?_, hpx 0 i (by omega)⟩
  rw [path, hpx 2 k (by omega), hpx 1 j (by omega)]

theorem child_congr {p : ℕ} (h : m'.mem p = m.mem p) : m'.child p = m.child p := by
  funext k
  rw [Kmem.child, Kmem.child, h]

/-- Only the pages of the tree matter. -/
theorem leaf_congr (h : ∀ p, Reach m.child 2 r p → m'.mem p = m.mem p) (v : ℕ) :
    m'.leaf r v = m.leaf r v := by
  have hfind : find m'.child r (path v) = find m.child r (path v) :=
    find_congr (d := 2) (fun q hq => child_congr (h q hq)) (by simp [path])
  rw [Kmem.leaf, Kmem.leaf, level0_eq, level0_eq, hfind]
  match hp : find m.child r (path v) with
  | none => rfl
  | some p => rw [Option.bind_some, Option.bind_some, h p ⟨path v, le_rfl, hp⟩]

end Paths

/-! ### The pages of a table -/

/-- The page-table pages below `r` form a tree, none of them is free, and the entries above level 0
are not leaves. The free pages are those of `l`. -/
structure Table (m : Kmem) (r : ℕ) (l : List ℕ) : Prop where
  free : m.Free l
  tree : IsTree m.child 2 r
  used : ∀ p, Reach m.child 2 r p → p ∉ l ∧ m.first ≤ p ∧ p < PHYSTOPPG
  node : ∀ p, Reach m.child 1 r p → ∀ k, m.mem p k &&& PTE_V ≠ 0 →
    m.mem p k &&& (PTE_R ||| PTE_W ||| PTE_X) = 0

namespace Table

variable {m m' : Kmem} {r p q v : ℕ} {l l' : List ℕ} {is : List (Fin 512)} {k : Fin 512}

/-- Anything may happen to the rest of memory. -/
theorem other (h : Table m r l) (hfirst : m'.first = m.first) (hfree : m'.Free l')
    (hmem : ∀ p, Reach m.child 2 r p → m'.mem p = m.mem p ∧ p ∉ l') : Table m' r l' := by
  have hc (q : ℕ) (hq : Reach m.child 2 r q) : m'.child q = m.child q := child_congr (hmem q hq).1
  refine ⟨hfree, h.tree.congr hc (by decide), fun p hp => ?_, fun p hp => ?_⟩
  · rw [reach_congr hc (by decide)] at hp
    exact ⟨(hmem p hp).2, hfirst ▸ (h.used p hp).2⟩
  · rw [reach_congr hc (by decide)] at hp
    rw [(hmem p (hp.mono (by decide))).1]
    exact h.node p hp

/-- A page that is neither free nor part of the table is freed. -/
theorem putFree (h : Table m r l) (hp : p ∉ l) (hr : ¬ Reach m.child 2 r p)
    (hrange : m.first ≤ p ∧ p < PHYSTOPPG) : Table (m.putFree p) r (p :: l) := by
  refine h.other rfl (h.free.putFree hp hrange) fun q hq => ?_
  have hqp : q ≠ p := fun he => hr (he ▸ hq)
  exact ⟨Kmem.putFree_mem_of_ne m hqp, by simp [hqp, (h.used q hq).1]⟩

/-- The pages of level 0 are not above it. -/
theorem not_reach_of_level0 (h : Table m r l) (hp : find m.child r (path v) = some p) :
    ¬ Reach m.child 1 r p := by
  rintro ⟨is, hl, hf⟩
  have := h.tree is (path v) p (hl.trans (by decide)) le_rfl hf hp
  rw [this] at hl
  exact absurd hl (by simp [path])

/-- An entry of level 0 is overwritten. -/
theorem setLeaf (h : Table m r l) (hv : v < vpnLimit) (hp : find m.child r (path v) = some p)
    (e : Word) : Table (m.write p (update (m.mem p) (px 0 (v * PGSIZE)) e)) r l ∧
      (∀ x, Reach (m.write p (update (m.mem p) (px 0 (v * PGSIZE)) e)).child 2 r x ↔
        Reach m.child 2 r x) ∧
      ∀ v' < vpnLimit, (m.write p (update (m.mem p) (px 0 (v * PGSIZE)) e)).leaf r v' =
        if v' = v then if e &&& PTE_V ≠ 0 then some e else none else m.leaf r v' := by
  generalize hm' : m.write p (update (m.mem p) (px 0 (v * PGSIZE)) e) = m'
  have hmem {x : ℕ} (hx : x ≠ p) : m'.mem x = m.mem x := by
    rw [← hm', Kmem.write_mem_of_ne m _ hx]
  have hself : m'.mem p = update (m.mem p) (px 0 (v * PGSIZE)) e := by
    rw [← hm', Kmem.write_mem_self]
  have hc (x : ℕ) (hx : Reach m.child 1 r x) : m'.child x = m.child x :=
    child_congr (hmem fun he => h.not_reach_of_level0 hp (he ▸ hx))
  have hreach (x : ℕ) : Reach m'.child 2 r x ↔ Reach m.child 2 r x := reach_congr hc le_rfl
  have hp' : p ∉ l := (h.used p ⟨path v, le_rfl, hp⟩).1
  refine ⟨⟨hm' ▸ h.free.write hp' _, h.tree.congr hc le_rfl, fun x hx => ?_, fun x hx => ?_⟩,
    hreach, fun v' hv' => ?_⟩
  · rw [← hm']
    exact h.used x ((hreach x).1 hx)
  · rw [reach_congr hc (by decide)] at hx
    rw [hmem fun he => h.not_reach_of_level0 hp (he ▸ hx)]
    exact h.node x hx
  · have hfind : find m'.child r (path v') = find m.child r (path v') :=
      find_congr hc (by simp [path])
    by_cases hvv : v' = v
    · rw [hvv, if_pos rfl, leaf_of_level0 (p := p) (by rw [level0_eq, ← hvv, hfind, hvv, hp]),
        hself, update_self]
    · rw [if_neg hvv, Kmem.leaf, Kmem.leaf, level0_eq, level0_eq, hfind]
      match hx : find m.child r (path v') with
      | none => rfl
      | some x =>
        rw [Option.bind_some, Option.bind_some]
        by_cases hxp : x = p
        · -- the same page, at another index
          subst hxp
          have hpath := h.tree (path v') (path v) x le_rfl le_rfl hx hp
          have hpx : px 0 (v' * PGSIZE) ≠ px 0 (v * PGSIZE) := fun he =>
            hvv (path_inj hv' hv hpath he)
          rw [hself, update_of_ne hpx]
        · rw [hmem hxp]

/-- A page-table page without entries is linked. -/
theorem link (h : Table m r l) (hp : find m.child r is = some p) (his : is.length ≤ 1)
    (hk : m.child p k = none) (hq : ¬ Reach m.child 2 r q) (hql : q ∉ l)
    (hrange : m.first ≤ q ∧ q < PHYSTOPPG) (hz : m.mem q = fill 0) :
    Table (m.write p (update (m.mem p) k (pa2pte q ||| PTE_V))) r l ∧
      (∀ v, (m.write p (update (m.mem p) k (pa2pte q ||| PTE_V))).leaf r v = m.leaf r v) ∧
      find (m.write p (update (m.mem p) k (pa2pte q ||| PTE_V))).child r (is ++ [k]) =
        some q := by
  generalize hm' : m.write p (update (m.mem p) k (pa2pte q ||| PTE_V)) = m'
  have hreach : Reach m.child 2 r p := ⟨is, his.trans (by decide), hp⟩
  have hqp : q ≠ p := fun he => hq (he ▸ hreach)
  have hmem {x : ℕ} (hx : x ≠ p) : m'.mem x = m.mem x := by
    rw [← hm', Kmem.write_mem_of_ne m _ hx]
  have hself : m'.mem p = update (m.mem p) k (pa2pte q ||| PTE_V) := by
    rw [← hm', Kmem.write_mem_self]
  have hlt : q < 2 ^ 44 := by
    have : q < 0x88000 := hrange.2
    omega
  have hlinked : Radix.Linked m.child m'.child p k q := by
    refine ⟨?_, fun i => ?_, fun x i hxq hxk => ?_⟩
    · rw [Kmem.child, hself, update_self, if_pos (node_valid q), pte2pa_node hlt]
    · rw [Kmem.child, hmem hqp, hz]
      exact if_neg (by simp [fill])
    · by_cases hxp : x = p
      · subst hxp
        rw [Kmem.child, Kmem.child, hself, update_of_ne fun he => hxk ⟨rfl, he⟩]
      · rw [child_congr (hmem hxp)]
  have hfind {js : List (Fin 512)} (hjs : js.length ≤ 2) :=
    h.tree.find_link hp his hk hq hlinked hjs
  have hiff (x : ℕ) : Reach m'.child 2 r x ↔ Reach m.child 2 r x ∨ x = q :=
    h.tree.reach_link hp his hk hq hlinked
  refine ⟨⟨hm' ▸ h.free.write (h.used p hreach).1 _, h.tree.link hp his hk hq hlinked,
    fun x hx => ?_, fun x hx i => ?_⟩, fun v => ?_, ?_⟩
  · rw [← hm']
    rcases (hiff x).1 hx with hx | rfl
    · exact h.used x hx
    · exact ⟨hql, hrange⟩
  · obtain ⟨js, hjs, hx⟩ := hx
    rw [hfind (hjs.trans (by decide))] at hx
    split_ifs at hx with hnew
    · cases hx
      rw [hmem hqp, hz]
      exact fun hV => absurd hV (by simp [fill])
    · by_cases hxp : x = p
      · subst hxp
        by_cases hik : i = k
        · rw [hself, hik, update_self]
          exact fun _ => node_not_leaf q
        · rw [hself, update_of_ne hik]
          exact h.node x ⟨js, hjs, hx⟩ i
      · rw [hmem hxp]
        exact h.node x ⟨js, hjs, hx⟩ i
  · rw [Kmem.leaf, Kmem.leaf, level0_eq, level0_eq, hfind (by simp [path])]
    split_ifs with hnew
    · -- nothing is mapped by the new page
      have hnone : find m.child r (path v) = none := by
        rw [hnew, find_concat, hp, Option.bind_some, hk]
      rw [hnone, Option.bind_some, hmem hqp, hz]
      exact if_neg (by simp [fill])
    · cases hx : find m.child r (path v) with
      | none => rfl
      | some x =>
        have hxp : x ≠ p := by
          rintro rfl
          have := h.tree (path v) is x le_rfl (his.trans (by decide)) hx hp
          rw [← this] at his
          exact absurd his (by simp [path])
        rw [Option.bind_some, Option.bind_some, hmem hxp]
  · rw [hfind (by simpa using his), if_pos rfl]

end Table

/-! ### Mapping -/

section Mapping

variable {m : Kmem} {r p v : ℕ} {l : List ℕ}

/-- One more step on the way. -/
theorem take_path {level : ℕ} (h : level ≤ 1) (v : ℕ) :
    (path v).take (1 - level) ++ [px (level + 1) (v * PGSIZE)] = (path v).take (2 - level) := by
  match level, h with
  | 0, _ => rfl
  | 1, _ => rfl

/-- `kalloc` takes the first page of the free list, or finds none. -/
theorem kalloc_runs (hf : m.Free l) (d : List Bool) : Runs kalloc ⟨m, d⟩ fun q t =>
    q = 0 ∧ t.kmem = m ∨ q ≠ 0 ∧ ∃ l', l = q :: l' ∧ q ∉ l' ∧ t.kmem.Free l' ∧
      t.kmem.first = m.first ∧ ∀ p ≠ q, t.kmem.mem p = m.mem p := by
  by_cases hd : d.headD false = true
  · refine .of_eq (a := 0) (t := ⟨m, d.tail⟩) ?_ (.inl ⟨rfl, rfl⟩)
    change (if d.headD false = true then _ else _) = _
    rw [if_pos hd]
  · refine .of_eq (a := m.kalloc.1) (t := ⟨m.kalloc.2, d.tail⟩) ?_ ?_
    · change (if d.headD false = true then _ else _) = _
      rw [if_neg hd]
    by_cases h₀ : m.freelist = 0
    · rw [Kmem.kalloc, if_pos h₀]
      exact .inl ⟨rfl, rfl⟩
    · obtain ⟨l', hl, hnot, hq, hfree, hmem⟩ := hf.kalloc h₀
      refine .inr ⟨hq ▸ h₀, l', hq ▸ hl, hq ▸ hnot, hfree, ?_, hq ▸ hmem⟩
      rw [Kmem.kalloc, if_neg h₀]
      rfl

/-- A page has been taken from the free list and cleared. -/
structure Fresh (m : Kmem) (r q : ℕ) (m' : Kmem) (l' : List ℕ) : Prop where
  table : Table m' r l'
  same : ∀ x, Reach m.child 2 r x → m'.mem x = m.mem x
  apart : ¬ Reach m'.child 2 r q
  notMem : q ∉ l'
  range : m'.first ≤ q ∧ q < PHYSTOPPG
  zero : m'.mem q = fill 0

theorem Table.fresh {m' : Kmem} {q : ℕ} {l' : List ℕ} (h : Table m r l) (hl : l = q :: l')
    (hq : q ∉ l') (hf : m'.Free l') (hfirst : m'.first = m.first)
    (hmem : ∀ p ≠ q, m'.mem p = m.mem p) : Fresh m r q (m'.write q (fill 0)) l' := by
  have hqr : ¬ Reach m.child 2 r q := fun hr => (h.used q hr).1 (hl ▸ List.mem_cons_self)
  have hne {x : ℕ} (hx : Reach m.child 2 r x) : x ≠ q := fun he => hqr (he ▸ hx)
  have hsame (x : ℕ) (hx : Reach m.child 2 r x) : (m'.write q (fill 0)).mem x = m.mem x := by
    rw [Kmem.write_mem_of_ne _ _ (hne hx), hmem x (hne hx)]
  have hc (x : ℕ) (hx : Reach m.child 2 r x) : (m'.write q (fill 0)).child x = m.child x :=
    child_congr (hsame x hx)
  refine ⟨h.other hfirst (hf.write hq _) fun x hx => ⟨hsame x hx, fun hx' => ?_⟩, hsame, ?_, hq, ?_,
    Kmem.write_mem_self _ _ _⟩
  · exact (h.used x hx).1 (hl ▸ List.mem_cons_of_mem q hx')
  · rwa [reach_congr hc (by decide)]
  · exact hfirst ▸ h.free.range q (hl ▸ List.mem_cons_self)

/-- The loop of `walk` may link page-table pages, and maps nothing. -/
theorem descend_runs {level : ℕ} (hlevel : level ≤ 2) (h : Table m r l)
    (hp : find m.child r ((path v).take (2 - level)) = some p) (d : List Bool) :
    Runs (descend (v * PGSIZE) true level p) ⟨m, d⟩ fun o t => ∃ l', Table t.kmem r l' ∧
      (∀ v', t.kmem.leaf r v' = m.leaf r v') ∧
      ∀ q, o = some q → find t.kmem.child r (path v) = some q := by
  induction level generalizing m l p d with
  | zero =>
    refine .pure ⟨l, h, fun _ => rfl, fun q hq => ?_⟩
    cases hq
    exact hp
  | succ level ih =>
    have hlevel' : level ≤ 1 := by omega
    have htake := take_path hlevel' v
    have hpath : (path v).take (2 - (level + 1)) = (path v).take (1 - level) := by
      rw [show 2 - (level + 1) = 1 - level by omega]
    rw [hpath] at hp
    have hlen : ((path v).take (1 - level)).length ≤ 1 := by
      rw [List.length_take]
      omega
    have hreach : Reach m.child 2 r p := ⟨_, hlen.trans (by decide), hp⟩
    change Runs (if m.mem p (px (level + 1) (v * PGSIZE)) &&& PTE_V ≠ 0 then _ else _ :
      PhysM (Option ℕ)) _ _
    by_cases hV : m.mem p (px (level + 1) (v * PGSIZE)) &&& PTE_V ≠ 0
    · rw [if_pos hV]
      refine ih (by omega) h ?_ d
      rw [← htake, find_concat, hp, Option.bind_some, Kmem.child, if_pos hV]
    rw [if_neg hV, if_pos rfl]
    refine (kalloc_runs h.free d).bind ?_
    rintro q ⟨m₁, d₁⟩ (⟨rfl, rfl⟩ | ⟨hq, l', hl, hnot, hf, hfirst, hmem⟩)
    · exact .pure ⟨l, h, fun _ => rfl, by simp⟩
    rw [if_neg hq]
    have hnew := h.fresh hl hnot hf hfirst hmem
    have hc (x : ℕ) (hx : Reach m.child 2 r x) : (m₁.write q (fill 0)).child x = m.child x :=
      child_congr (hnew.same x hx)
    have hp₂ : find (m₁.write q (fill 0)).child r ((path v).take (1 - level)) = some p := by
      rw [find_congr hc (hlen.trans (by decide)), hp]
    have hk : (m₁.write q (fill 0)).child p (px (level + 1) (v * PGSIZE)) = none := by
      rw [hc p hreach, Kmem.child, if_neg hV]
    obtain ⟨h₃, hleaf₃, hq₃⟩ := hnew.table.link hp₂ hlen hk hnew.apart hnew.notMem hnew.range
      hnew.zero
    rw [htake] at hq₃
    refine Runs.bind_run (a := ()) (t := ⟨m₁.write q (fill 0), d₁⟩) rfl ?_
    refine Runs.bind_run (a := ()) (t := ⟨_, d₁⟩) rfl ?_
    refine (ih (by omega) h₃ hq₃ d₁).mono ?_
    rintro o t ⟨l₄, h₄, hleaf₄, ho⟩
    refine ⟨l₄, h₄, fun v' => ?_, ho⟩
    rw [hleaf₄, hleaf₃, leaf_congr hnew.same]

/-- `walk`, when it may link page-table pages. -/
theorem walk_runs (h : Table m r l) (hv : v * PGSIZE < MAXVA) (d : List Bool) :
    Runs (walk r (v * PGSIZE) true) ⟨m, d⟩ fun o t => ∃ l', Table t.kmem r l' ∧
      (∀ v', t.kmem.leaf r v' = m.leaf r v') ∧
      ∀ a, o = some a → find t.kmem.child r (path v) = some a.1 ∧ a.2 = px 0 (v * PGSIZE) := by
  rw [walk, if_neg (not_le.2 hv)]
  refine (descend_runs le_rfl h rfl d).bind ?_
  rintro o t ⟨l', h', hleaf, ho⟩
  refine .pure ⟨l', h', hleaf, ?_⟩
  rintro ⟨q, k⟩ ha
  obtain ⟨q', rfl, hq⟩ := Option.map_eq_some_iff.1 ha
  obtain ⟨rfl, rfl⟩ := Prod.mk.inj hq
  exact ⟨ho q' rfl, rfl⟩

/-- The map with `n` pages added from `v` on. -/
def mapped (f : ℕ → Option Word) (v n pa : ℕ) (perm : Word) (v' : ℕ) : Option Word :=
  if v ≤ v' ∧ v' < v + n then some (pa2pte (pa + (v' - v)) ||| perm ||| PTE_V) else f v'

/-- The map without the `n` pages from `v` on. -/
def unmapped (f : ℕ → Option Word) (v n v' : ℕ) : Option Word :=
  if v ≤ v' ∧ v' < v + n then none else f v'

theorem entry_valid (pa : ℕ) (perm : Word) : (pa2pte pa ||| perm ||| PTE_V) &&& PTE_V ≠ 0 := by
  rw [BitVec.or_comm]
  exact or_and_ne_zero _ (by decide)

theorem lt_vpnLimit_of_lt (h : v * PGSIZE < MAXVA) : v < vpnLimit := by
  have : v * 4096 < 2 ^ 38 := h
  change v < 2 ^ 27
  omega

theorem mapPage_ends (h : Table m r l) (perm : Word) (v pa : ℕ) (d : List Bool) :
    Ends (fun _ => True) (mapPage r perm (v * PGSIZE) pa) ⟨m, d⟩ fun ok t => ∃ l' j,
      Table t.kmem r l' ∧ (ok = true ↔ j = 1) ∧ j ≤ 1 ∧ (0 < j → v * PGSIZE < MAXVA) ∧
      ∀ v' < vpnLimit, t.kmem.leaf r v' = mapped (m.leaf r) v j pa perm v' := by
  rw [mapPage]
  by_cases hv : MAXVA ≤ v * PGSIZE
  · rw [walk, if_pos hv]
    exact .of_error rfl trivial
  push Not at hv
  refine (walk_runs h hv d).ends.bind ?_
  rintro (_ | ⟨p, k⟩) ⟨m₁, d₁⟩ ⟨l₁, h₁, hleaf, ho⟩
  · refine .pure ⟨l₁, 0, h₁, by simp, by omega, by omega, fun v' _ => ?_⟩
    rw [mapped, if_neg (by omega)]
    exact hleaf v'
  obtain ⟨hp, rfl⟩ := ho _ rfl
  have hlt := lt_vpnLimit_of_lt hv
  change Ends _
    (if m₁.mem p (px 0 (v * PGSIZE)) &&& PTE_V ≠ 0 then Vm.panic _ else _ : PhysM Bool) _ _
  by_cases hV : m₁.mem p (px 0 (v * PGSIZE)) &&& PTE_V ≠ 0
  · rw [if_pos hV]
    exact .of_error rfl trivial
  rw [if_neg hV]
  obtain ⟨h₂, -, hleaf₂⟩ := h₁.setLeaf hlt hp (pa2pte pa ||| perm ||| PTE_V)
  refine .of_ok rfl ⟨l₁, 1, h₂, by simp, le_rfl, fun _ => hv, fun v' hv' => ?_⟩
  refine (hleaf₂ v' hv').trans ?_
  rw [mapped, if_pos (entry_valid pa perm)]
  by_cases hvv : v' = v
  · rw [if_pos hvv, if_pos (by omega), hvv, Nat.sub_self, Nat.add_zero]
  · rw [if_neg hvv, if_neg (by omega)]
    exact hleaf v'

theorem mapped_succ (f : ℕ → Option Word) (v n pa : ℕ) (perm : Word) (v' : ℕ) :
    mapped (mapped f v 1 pa perm) (v + 1) n (pa + 1) perm v' = mapped f v (n + 1) pa perm v' := by
  rw [mapped, mapped, mapped]
  by_cases hv : v' = v
  · rw [if_neg (by omega), if_pos (by omega), if_pos (by omega)]
  by_cases hin : v + 1 ≤ v' ∧ v' < v + 1 + n
  · rw [if_pos hin, if_pos (by omega), show pa + 1 + (v' - (v + 1)) = pa + (v' - v) by omega]
  · rw [if_neg hin, if_neg (by omega), if_neg (by omega)]

/-- The loop of `mappages`: some of the pages are mapped, and all of them if it succeeds. -/
theorem mapPages_ends (h : Table m r l) (perm : Word) (n v pa : ℕ) (d : List Bool) :
    Ends (fun _ => True) (mapPages r perm n (v * PGSIZE) pa) ⟨m, d⟩ fun ok t => ∃ l' j,
      Table t.kmem r l' ∧ (ok = true ↔ j = n + 1) ∧ j ≤ n + 1 ∧
      (∀ v', v ≤ v' → v' < v + j → v' * PGSIZE < MAXVA) ∧
      ∀ v' < vpnLimit, t.kmem.leaf r v' = mapped (m.leaf r) v j pa perm v' := by
  induction n generalizing m l v pa d with
  | zero =>
    refine (mapPage_ends h perm v pa d).mono ?_
    rintro ok t ⟨l', j, h', hok, hj, hmax, hleaf⟩
    refine ⟨l', j, h', hok, hj, fun v' h₁ h₂ => ?_, hleaf⟩
    obtain rfl : v' = v := by omega
    exact hmax (by omega)
  | succ n ih =>
    rw [mapPages]
    refine (mapPage_ends h perm v pa d).bind ?_
    rintro ok ⟨m₁, d₁⟩ ⟨l₁, j, h₁, hok, hj, hmax, hleaf⟩
    cases ok with
    | false =>
      have hj₀ : j = 0 := by
        have : j ≠ 1 := fun h => absurd (hok.2 h) (by decide)
        omega
      subst hj₀
      exact .pure ⟨l₁, 0, h₁, by simp, by omega, fun v' _ h₂ => by omega, hleaf⟩
    | true =>
      obtain rfl := hok.1 rfl
      have hlt := hmax Nat.one_pos
      have hnext : (v * PGSIZE + PGSIZE) % 2 ^ 64 = (v + 1) * PGSIZE := by
        have : v * 4096 < 2 ^ 38 := hlt
        change (v * 4096 + 4096) % 2 ^ 64 = (v + 1) * 4096
        omega
      rw [if_pos rfl, hnext]
      refine (ih h₁ (v + 1) (pa + 1) d₁).mono ?_
      rintro ok t ⟨l', j, h', hok', hj', hmax', hleaf'⟩
      refine ⟨l', j + 1, h', by rw [hok']; omega, by omega, fun v' h₂ h₃ => ?_, fun v' hv' => ?_⟩
      · by_cases hvv : v' = v
        · rw [hvv]
          exact hlt
        · exact hmax' v' (by omega) (by omega)
      · rw [hleaf' v' hv', ← mapped_succ, mapped, mapped, hleaf v' hv']

/-- The pages that `mappages` is asked for. -/
def InMap (va size v : ℕ) : Prop :=
  pgrounddown va ≤ v * PGSIZE ∧ v * PGSIZE ≤ pgrounddown ((va + size - 1) % 2 ^ 64)

instance (va size v : ℕ) : Decidable (InMap va size v) := inferInstanceAs (Decidable (_ ∧ _))

/-- The last page is below `MAXVA`, so that the range does not wrap around. -/
theorem inMap_arith {va e j v : ℕ}
    (hj : j = (e % 2 ^ 64 / 4096 * 4096 + 2 ^ 64 - va / 4096 * 4096) % 2 ^ 64 / 4096 + 1)
    (hlast : (va / 4096 + j - 1) * 4096 < 2 ^ 38) :
    va / 4096 * 4096 ≤ v * 4096 ∧ v * 4096 ≤ e % 2 ^ 64 / 4096 * 4096 ↔
      va / 4096 ≤ v ∧ v < va / 4096 + j := by
  omega

/-- **`mappages` adds its pages to the map.** -/
theorem mappages_ends (h : Table m r l) (va size pa : ℕ) (perm : Word) (d : List Bool) :
    Ends (fun _ => True) (mappages r va size pa perm) ⟨m, d⟩ fun ok t => ∃ l' j,
      Table t.kmem r l' ∧ (∀ v', va / PGSIZE ≤ v' → v' < va / PGSIZE + j → v' * PGSIZE < MAXVA) ∧
      (ok = true → ∀ v, InMap va size v ↔ va / PGSIZE ≤ v ∧ v < va / PGSIZE + j) ∧
      ∀ v' < vpnLimit, t.kmem.leaf r v' = mapped (m.leaf r) (va / PGSIZE) j pa perm v' := by
  rw [mappages]
  by_cases hsize : size = 0
  · rw [if_pos hsize]
    exact .of_error rfl trivial
  rw [if_neg hsize]
  refine (mapPages_ends h perm _ _ pa d).mono ?_
  rintro ok t ⟨l', j, h', hok, hj, hmax, hleaf⟩
  refine ⟨l', j, h', hmax, fun htrue v => ?_, hleaf⟩
  have hj' := hok.1 htrue
  have hpos : 0 < j := hj' ▸ Nat.succ_pos _
  have hlast := hmax (va / PGSIZE + j - 1) (Nat.le_sub_one_of_lt (Nat.lt_add_of_pos_right hpos))
    (Nat.sub_lt (Nat.add_pos_right _ hpos) Nat.one_pos)
  rw [InMap]
  rw [pgrounddown, pgrounddown] at hj' ⊢
  exact inMap_arith hj' hlast

end Mapping

/-! ### Unmapping -/

section Unmapping

variable {m : Kmem} {r p v n : ℕ} {l : List ℕ} {doFree : Bool}

/-- The pages of the range are mapped, and can be freed if they are to be. -/
structure CanUnmap (m : Kmem) (r v n : ℕ) (doFree : Bool) : Prop where
  lt : ∀ v', v ≤ v' → v' < v + n → v' * PGSIZE < MAXVA
  mapped : ∀ v', v ≤ v' → v' < v + n → ∃ e, m.leaf r v' = some e ∧ pteFlags e ≠ PTE_V ∧
    (doFree = true → m.first ≤ pte2pa e ∧ pte2pa e < PHYSTOPPG)

/-- The physical pages of the range are the caller's: none is free or part of the table, and none is
mapped twice. -/
structure Frees (m : Kmem) (r : ℕ) (l : List ℕ) (v n : ℕ) : Prop where
  apart : ∀ v' < vpnLimit, ∀ e, v ≤ v' → v' < v + n → m.leaf r v' = some e →
    pte2pa e ∉ l ∧ ¬ Reach m.child 2 r (pte2pa e)
  once : ∀ v₁ < vpnLimit, ∀ v₂ < vpnLimit, ∀ e₁ e₂, v ≤ v₁ → v₁ < v + n → v ≤ v₂ → v₂ < v + n →
    m.leaf r v₁ = some e₁ → m.leaf r v₂ = some e₂ → pte2pa e₁ = pte2pa e₂ → v₁ = v₂

/-- One page is unmapped. -/
theorem clearPte_ends {e : Word} (h : Table m r l) (hv : v < vpnLimit)
    (hp : find m.child r (path v) = some p) (he : m.mem p (px 0 (v * PGSIZE)) = e)
    (hfree : doFree = true → pte2pa e ∉ l ∧ ¬ Reach m.child 2 r (pte2pa e)) (d : List Bool) :
    Ends (fun _ => doFree = true ∧ ¬ (m.first ≤ pte2pa e ∧ pte2pa e < PHYSTOPPG))
      (clearPte p (px 0 (v * PGSIZE)) doFree) ⟨m, d⟩ fun _ t =>
        Table t.kmem r (if doFree then pte2pa e :: l else l) ∧ t.kmem.first = m.first ∧
        (∀ x, Reach t.kmem.child 2 r x ↔ Reach m.child 2 r x) ∧
        ∀ v' < vpnLimit, t.kmem.leaf r v' = unmapped (m.leaf r) v 1 v' := by
  have hunmapped {m' : Kmem} (v' : ℕ) (hleaf : m'.leaf r v' =
      if v' = v then if (0 : Word) &&& PTE_V ≠ 0 then some 0 else none else m.leaf r v') :
      m'.leaf r v' = unmapped (m.leaf r) v 1 v' := by
    rw [hleaf, unmapped, if_neg (by decide : ¬ (0 : Word) &&& PTE_V ≠ 0)]
    exact if_congr (by omega) rfl rfl
  cases doFree with
  | false =>
    obtain ⟨h', hreach, hleaf⟩ := h.setLeaf hv hp 0
    exact .of_ok rfl ⟨h', rfl, hreach, fun v' hv' => hunmapped v' (hleaf v' hv')⟩
  | true =>
    obtain ⟨hl, hr⟩ := hfree rfl
    rw [clearPte]
    refine Ends.bind (R := fun w t => e = w ∧ t = ⟨m, d⟩) (.of_ok rfl ⟨he.symm, rfl⟩) ?_
    rintro w t ⟨rfl, rfl⟩
    rw [if_pos rfl]
    by_cases hrange : m.first ≤ pte2pa e ∧ pte2pa e < PHYSTOPPG
    swap
    · have hrun : (kfree (pte2pa e)).run ⟨m, d⟩ = .error .kfree := by
        rw [StateT.run, kfree]
        dsimp only
        rw [Kmem.kfree, if_pos (by omega)]
      exact Ends.bind (R := fun _ _ => False) (.of_error hrun ⟨rfl, hrange⟩) fun _ _ h => h.elim
    have h₁ := h.putFree hl hr hrange
    have hsame (x : ℕ) (hx : Reach m.child 2 r x) : (m.putFree (pte2pa e)).mem x = m.mem x :=
      Kmem.putFree_mem_of_ne m fun he => hr (he ▸ hx)
    have hc (x : ℕ) (hx : Reach m.child 2 r x) : (m.putFree (pte2pa e)).child x = m.child x :=
      child_congr (hsame x hx)
    have hp₁ : find (m.putFree (pte2pa e)).child r (path v) = some p := by
      rw [find_congr hc (by simp [path]), hp]
    obtain ⟨h', hreach, hleaf⟩ := h₁.setLeaf hv hp₁ 0
    refine Ends.of_ok (t := ⟨_, d⟩) ((run_bind (kfree_run m d hrange)).trans rfl)
      ⟨h', rfl, fun x => ?_, fun v' hv' => hunmapped v' ?_⟩
    · rw [hreach, reach_congr hc (by decide)]
    · rw [hleaf v' hv', leaf_congr hsame]

/-- `walk` only looks, when it may not link page-table pages. -/
theorem walk_run (s : Phys) (r : ℕ) (hv : v * PGSIZE < MAXVA) : (walk r (v * PGSIZE) false).run s =
    .ok ((s.kmem.level0 r v).map fun p => (p, px 0 (v * PGSIZE)), s) := by
  rw [walk, if_neg (not_le.2 hv)]
  exact run_bind (descend_run s r v)

theorem CanUnmap.next {m' : Kmem} (h : CanUnmap m r v (n + 1) doFree) (hfirst : m'.first = m.first)
    (hleaf : ∀ v' < vpnLimit, m'.leaf r v' = unmapped (m.leaf r) v 1 v') :
    CanUnmap m' r (v + 1) n doFree := by
  refine ⟨fun v' h₁ h₂ => h.lt v' (by omega) (by omega), fun v' h₁ h₂ => ?_⟩
  rw [hleaf v' (lt_vpnLimit_of_lt (h.lt v' (by omega) (by omega))), unmapped, if_neg (by omega),
    hfirst]
  exact h.mapped v' (by omega) (by omega)

theorem Frees.next {m' : Kmem} {e : Word} (h : Frees m r l v (n + 1)) (hv : v < vpnLimit)
    (he : m.leaf r v = some e) (hreach : ∀ x, Reach m'.child 2 r x ↔ Reach m.child 2 r x)
    (hleaf : ∀ v' < vpnLimit, m'.leaf r v' = unmapped (m.leaf r) v 1 v') :
    Frees m' r (pte2pa e :: l) (v + 1) n := by
  have hsame (v' : ℕ) (hv' : v' < vpnLimit) (h₁ : v + 1 ≤ v') : m'.leaf r v' = m.leaf r v' := by
    rw [hleaf v' hv', unmapped, if_neg (by omega)]
  refine ⟨fun v' hv' e' h₁ h₂ he' => ?_, fun v₁ hv₁ v₂ hv₂ e₁ e₂ h₁ h₂ h₃ h₄ he₁ he₂ => ?_⟩
  · rw [hsame v' hv' h₁] at he'
    obtain ⟨hl, hr⟩ := h.apart v' hv' e' (by omega) (by omega) he'
    rw [hreach, List.mem_cons, not_or]
    refine ⟨⟨fun heq => ?_, hl⟩, hr⟩
    have := h.once v' hv' v hv e' e (by omega) (by omega) le_rfl (by omega) he' he heq
    omega
  · rw [hsame v₁ hv₁ h₁] at he₁
    rw [hsame v₂ hv₂ h₃] at he₂
    exact h.once v₁ hv₁ v₂ hv₂ e₁ e₂ (by omega) (by omega) (by omega) (by omega) he₁ he₂

theorem unmapped_succ (f : ℕ → Option Word) (v n v' : ℕ) :
    unmapped (unmapped f v 1) (v + 1) n v' = unmapped f v (n + 1) v' := by
  rw [unmapped, unmapped, unmapped]
  split_ifs <;> first | rfl | omega

/-- The loop of `uvmunmap`. -/
theorem unmapPages_ends (h : Table m r l) (hf : doFree = true → Frees m r l v n) (d : List Bool) :
    Ends (fun _ => ¬ CanUnmap m r v n doFree) (unmapPages r doFree n (v * PGSIZE)) ⟨m, d⟩ fun _ t =>
      ∃ l', Table t.kmem r l' ∧ (∀ v', v ≤ v' → v' < v + n → v' * PGSIZE < MAXVA) ∧
        ∀ v' < vpnLimit, t.kmem.leaf r v' = unmapped (m.leaf r) v n v' := by
  induction n generalizing m l v d with
  | zero =>
    refine .pure ⟨l, h, fun v' _ h₂ => by omega, fun v' _ => ?_⟩
    rw [unmapped, if_neg (by omega)]
  | succ n ih =>
    rw [unmapPages]
    by_cases hv : MAXVA ≤ v * PGSIZE
    · rw [walk, if_pos hv]
      exact .of_error rfl fun hc => absurd (hc.lt v le_rfl (by omega)) (not_lt.2 hv)
    push Not at hv
    have hlt := lt_vpnLimit_of_lt hv
    refine Ends.bind (R := fun o t => o = (m.level0 r v).map (fun p => (p, px 0 (v * PGSIZE))) ∧
      t = ⟨m, d⟩) (.of_ok (walk_run _ r hv) ⟨rfl, rfl⟩) ?_
    rintro o - ⟨rfl, rfl⟩
    -- where the page is not mapped, the range cannot be unmapped
    have hno (h : m.leaf r v = none) : ¬ CanUnmap m r v (n + 1) doFree := fun hc => by
      obtain ⟨e, he, -⟩ := hc.mapped v le_rfl (by omega)
      rw [h] at he
      exact absurd he (by simp)
    cases hp : m.level0 r v with
    | none =>
      refine .of_error rfl (hno ?_)
      rw [Kmem.leaf, hp]
      rfl
    | some p =>
      have hleaf := leaf_of_level0 hp
      generalize he : m.mem p (px 0 (v * PGSIZE)) = e at hleaf
      change Ends _ (if m.mem p (px 0 (v * PGSIZE)) &&& PTE_V = 0 then Vm.panic _ else
        if pteFlags (m.mem p (px 0 (v * PGSIZE))) = PTE_V then Vm.panic _ else _ : PhysM Unit) _ _
      rw [he]
      by_cases hV : e &&& PTE_V = 0
      · rw [if_pos hV]
        exact .of_error rfl (hno (by rw [hleaf, if_neg fun h => h hV]))
      rw [if_neg hV]
      rw [if_pos hV] at hleaf
      by_cases hflags : pteFlags e = PTE_V
      · rw [if_pos hflags]
        refine .of_error rfl fun hc => ?_
        obtain ⟨e', he', hne, -⟩ := hc.mapped v le_rfl (by omega)
        rw [hleaf] at he'
        exact hne (Option.some.inj he' ▸ hflags)
      rw [if_neg hflags]
      have hfind : find m.child r (path v) = some p := by rw [← level0_eq, hp]
      have hclear := clearPte_ends h hlt hfind he
        (fun hd : doFree = true => (hf hd).apart v hlt e le_rfl (by omega) hleaf) d
      refine (hclear.weaken ?_).bind ?_
      · rintro - ⟨hd, hrange⟩ hc
        obtain ⟨e', he', -, hr⟩ := hc.mapped v le_rfl (by omega)
        rw [hleaf] at he'
        exact hrange (Option.some.inj he' ▸ hr hd)
      rintro - ⟨m₁, d₁⟩ ⟨h₁, hfirst, hreach, hleaf₁⟩
      have hnext : v * PGSIZE + PGSIZE = (v + 1) * PGSIZE := (Nat.succ_mul v PGSIZE).symm
      rw [hnext]
      have hf₁ (hd : doFree = true) :
          Frees m₁ r (if doFree then pte2pa e :: l else l) (v + 1) n := by
        rw [if_pos hd]
        exact (hf hd).next hlt hleaf hreach hleaf₁
      refine ((ih h₁ hf₁ d₁).weaken fun _ hn hc => hn (hc.next hfirst hleaf₁)).mono ?_
      rintro - t ⟨l', h', hmax, hleaf'⟩
      refine ⟨l', h', fun v' h₂ h₃ => ?_, fun v' hv' => ?_⟩
      · by_cases hvv : v' = v
        · rw [hvv]
          exact hv
        · exact hmax v' (by omega) (by omega)
      · rw [hleaf' v' hv', ← unmapped_succ, unmapped, unmapped, hleaf₁ v' hv']

/-- The pages that `uvmunmap` is asked for. -/
def InUnmap (va npages v : ℕ) : Prop :=
  va ≤ v * PGSIZE ∧ v * PGSIZE < (va + npages * PGSIZE) % 2 ^ 64

instance (va npages v : ℕ) : Decidable (InUnmap va npages v) := inferInstanceAs (Decidable (_ ∧ _))

theorem inUnmap_arith {va npages v : ℕ} (h : va % 4096 = 0) :
    va ≤ v * 4096 ∧ v * 4096 < (va + npages * 4096) % 2 ^ 64 ↔
      va / 4096 ≤ v ∧ v < va / 4096 + ((va + npages * 4096) % 2 ^ 64 - va) / 4096 := by
  omega

/-- **`uvmunmap` removes its pages from the map**, and returns if they can be removed. -/
theorem uvmunmap_ends (h : Table m r l) {va npages : ℕ}
    (hf : doFree = true →
      Frees m r l (va / PGSIZE) (((va + npages * PGSIZE) % 2 ^ 64 - va) / PGSIZE))
    (d : List Bool) :
    Ends (fun _ => ¬ (va % PGSIZE = 0 ∧ CanUnmap m r (va / PGSIZE)
        (((va + npages * PGSIZE) % 2 ^ 64 - va) / PGSIZE) doFree))
      (uvmunmap r va npages doFree) ⟨m, d⟩ fun _ t => ∃ l', Table t.kmem r l' ∧
        (∀ v, InUnmap va npages v → v * PGSIZE < MAXVA) ∧
        ∀ v < vpnLimit, (InUnmap va npages v → t.kmem.leaf r v = none) ∧
          (¬ InUnmap va npages v → t.kmem.leaf r v = m.leaf r v) := by
  rw [uvmunmap]
  by_cases halign : va % PGSIZE ≠ 0
  · rw [if_pos halign]
    exact .of_error rfl fun h => halign h.1
  rw [if_neg halign]
  push Not at halign
  have hva : va / PGSIZE * PGSIZE = va := Nat.div_mul_cancel (Nat.dvd_of_mod_eq_zero halign)
  have hiff (v : ℕ) : InUnmap va npages v ↔ va / PGSIZE ≤ v ∧
      v < va / PGSIZE + ((va + npages * PGSIZE) % 2 ^ 64 - va) / PGSIZE := inUnmap_arith halign
  have hloop := (unmapPages_ends h hf d).weaken fun _ hn (hc : va % PGSIZE = 0 ∧ _) => hn hc.2
  rw [hva] at hloop
  refine hloop.mono ?_
  rintro - t ⟨l', h', hmax, hleaf⟩
  refine ⟨l', h', fun v hin => ?_, fun v hv => ⟨fun hin => ?_, fun hin => ?_⟩⟩
  · exact hmax v ((hiff v).1 hin).1 ((hiff v).1 hin).2
  · rw [hleaf v hv, unmapped, if_pos ((hiff v).1 hin)]
  · rw [hleaf v hv, unmapped, if_neg (mt (hiff v).2 hin)]

end Unmapping

end PageMap

end Xv6
