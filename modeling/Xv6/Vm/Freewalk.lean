import Xv6.Vm.Process
import Xv6.Vm.Space

/-!
# Building and taking down page tables

`freewalk` frees the page-table pages of an address space that maps nothing any more, from the
leaves up. While it is in the middle of it there are entries that point to pages already freed; the
exempt entries of `Tidy` are the ones on the way from the root. `proc_pagetable` and
`proc_freepagetable` make and free the address spaces of processes.
-/

namespace Xv6.Vm

open Function (update update_self update_of_ne)

/-- Page-table pages of `r` up to the given level are freed, page `p` may be overwritten, and the
rest is as it was. -/
structure Prunes (r level p : ℕ) (m : Kmem) (u : ℕ → Use) (l : List ℕ) (m' : Kmem) (u' : ℕ → Use)
    (l' : List ℕ) : Prop where
  first : m'.first = m.first
  keep : ∀ q ∉ l, (∀ level' pre, u q = .table r level' pre → level < level') →
    q ∉ l' ∧ u' q = u q
  same : ∀ q ∉ l', q ∉ l ∧ u' q = u q ∧ (q ≠ p → m'.mem q = m.mem q)

/-- What `freewalk` needs to free a page-table page of `r` of the given level with all below it:
nothing is mapped, and entries are exempt in higher levels only. -/
structure Prunable (m : Kmem) (u : ℕ → Use) (E : ℕ → Fin 512 → Prop) (l : List ℕ) (r level : ℕ) :
    Prop where
  tidy : Tidy m u E l
  empty : ∀ q pre (k : Fin 512), u q = .table r 0 pre → m.mem q k = 0
  low : ∀ q k level' pre, u q = .table r level' pre → level' ≤ level → ¬ E q k

namespace Prunes

variable {r level level' p q : ℕ} {m m' m'' : Kmem} {u u' u'' : ℕ → Use} {l l' l'' : List ℕ}

theorem trans (h : Prunes r level p m u l m' u' l') (h' : Prunes r level' p m' u' l' m'' u'' l'')
    (hle : level ≤ level') : Prunes r level' p m u l m'' u'' l'' where
  first := h'.first.trans h.first
  keep x hx hu := by
    obtain ⟨hx', hu'⟩ := h.keep x hx fun a pre ha => hle.trans_lt (hu a pre ha)
    obtain ⟨hx'', hu''⟩ := h'.keep x hx' fun a pre ha => hu a pre (hu' ▸ ha)
    exact ⟨hx'', hu''.trans hu'⟩
  same x hx := by
    obtain ⟨hx', hu', hm'⟩ := h'.same x hx
    obtain ⟨hx₀, hu, hm⟩ := h.same x hx'
    exact ⟨hx₀, hu'.trans hu, fun hxp => (hm' hxp).trans (hm hxp)⟩

/-- A page that has been freed does not matter. -/
theorem of_free (h : Prunes r level q m u l m' u' l') (hq : q ∈ l') :
    Prunes r level p m u l m' u' l' where
  first := h.first
  keep := h.keep
  same x hx := by
    obtain ⟨hx', hu, hm⟩ := h.same x hx
    exact ⟨hx', hu, fun _ => hm fun he => hx (he ▸ hq)⟩

theorem write (r level p : ℕ) (m : Kmem) (u : ℕ → Use) (l : List ℕ) (pg : Page) :
    Prunes r level p m u l (m.write p pg) u l where
  first := rfl
  keep _ hx _ := ⟨hx, rfl⟩
  same _ hx := ⟨hx, rfl, fun hxp => Kmem.write_mem_of_ne m pg hxp⟩

/-- The page-table page itself is freed. -/
theorem putFree {pre : ℕ} (hp : u p = .table r level pre) :
    Prunes r level p m u l (m.putFree p) (update u p .none) (p :: l) where
  first := rfl
  keep x hx hu := by
    have hxp : x ≠ p := by
      rintro rfl
      exact lt_irrefl level (hu level pre hp)
    exact ⟨by simp [hxp, hx], update_of_ne hxp _ _⟩
  same x hx := by
    obtain ⟨hxp, hx'⟩ := not_or.1 (mt List.mem_cons.2 hx)
    exact ⟨hx', update_of_ne hxp _ _, fun h => Kmem.putFree_mem_of_ne m h⟩

/-- What is left can still be pruned. -/
theorem prunable {E E' : ℕ → Fin 512 → Prop} (h : Prunes r level p m u l m' u' l')
    (hpr : Prunable m u E l r level') (htidy : Tidy m' u' E' l')
    (hE : ∀ q k a pre, u q = .table r a pre → a ≤ level' → E' q k → E q k)
    (hp : ∀ pre, u p ≠ .table r 0 pre) : Prunable m' u' E' l' r level' where
  tidy := htidy
  empty x pre k hx := by
    obtain ⟨-, hu, hm⟩ := h.same x (htidy.notMem (by simp [hx]))
    rw [hu] at hx
    rw [hm fun he => hp pre (he ▸ hx), hpr.empty x pre k hx]
  low x k a pre hx ha he := by
    rw [(h.same x (htidy.notMem (by simp [hx]))).2.1] at hx
    exact hpr.low x k a pre hx ha (hE x k a pre hx ha he)

end Prunes

section Freewalk

variable {m : Kmem} {u : ℕ → Use} {E : ℕ → Fin 512 → Prop} {l : List ℕ} {r p level pre : ℕ}

/-- Empty entries are passed over. -/
theorem freeEntries_zero {free : ℕ → PhysM Unit} {ks : List (Fin 512)} {s : Phys}
    (h : ∀ k ∈ ks, s.kmem.mem p k = 0) : (freeEntries free p ks).run s = .ok ((), s) := by
  induction ks with
  | nil => rfl
  | cons k ks ih =>
    change (if s.kmem.mem p k &&& PTE_V ≠ 0 ∧ _ then _ else _ : PhysM Unit).run s = _
    have hz : ¬ ((0 : Word) &&& PTE_V ≠ 0) := by decide
    rw [h k List.mem_cons_self, if_neg fun h => hz h.1, if_neg hz]
    exact ih fun k hk => h k (List.mem_cons_of_mem _ hk)

/-- The program frees the page-table pages of the given level with all below them, if the entries
that point to them are exempt. -/
def FreesTable (r level : ℕ) (free : ℕ → PhysM Unit) : Prop :=
  ∀ ⦃m u E l p pre⦄, Prunable m u E l r level → u p = .table r level pre →
    (∀ q pre' (k : Fin 512), u q = .table r (level + 1) pre' → pre = pre' * 512 + k → E q k) →
    ∀ d, Runs (free p) ⟨m, d⟩ fun _ t => ∃ u' l', Tidy t.kmem u' E l' ∧
      Prunes r level p m u l t.kmem u' l' ∧ p ∈ l'

/-- The loop of `freewalk` empties the page-table page. -/
theorem freeEntries_prunes {free : ℕ → PhysM Unit} (hfree : FreesTable r level free)
    (h : Prunable m u E l r (level + 1)) (hp : u p = .table r (level + 1) pre)
    (ks : List (Fin 512)) (d : List Bool) :
    Runs (freeEntries free p ks) ⟨m, d⟩ fun _ t => ∃ u' l', Tidy t.kmem u' E l' ∧
      Prunes r level p m u l t.kmem u' l' ∧
      ∀ k, m.mem p k = 0 ∨ k ∈ ks → t.kmem.mem p k = 0 := by
  induction ks generalizing m u l d with
  | nil =>
    refine .pure ⟨u, l, h.tidy,
      ⟨rfl, fun _ hx _ => ⟨hx, rfl⟩, fun _ hx => ⟨hx, rfl, fun _ => rfl⟩⟩, ?_⟩
    exact fun k hk => hk.resolve_right (List.not_mem_nil)
  | cons k ks ih =>
    change Runs (if m.mem p k &&& PTE_V ≠ 0 ∧ _ then _ else _ : PhysM Unit) _ _
    rcases h.tidy.node p r level pre k hp (h.low p k _ _ hp le_rfl) with h₀ | ⟨q, hw, hq⟩
    · have hz : ¬ ((0 : Word) &&& PTE_V ≠ 0) := by decide
      rw [h₀, if_neg fun h => hz h.1, if_neg hz]
      refine (ih h hp d).mono fun _ t ⟨u', l', ht, hpr, hzero⟩ => ⟨u', l', ht, hpr, fun x hx => ?_⟩
      rcases hx with hx | hx
      · exact hzero x (.inl hx)
      · rcases List.mem_cons.1 hx with rfl | hx
        · exact hzero x (.inl h₀)
        · exact hzero x (.inr hx)
    · rw [hw, if_pos ⟨node_valid q, node_not_leaf q⟩, pte2pa_node (h.tidy.lt (by simp [hq]))]
      -- while the page is being freed, the entry that points to it is exempt
      have hlow : Prunable m u (fun x y => E x y ∨ x = p ∧ y = k) l r level := by
        refine ⟨h.tidy.mono fun x y => .inl, h.empty, fun x y a pre' hx ha he => ?_⟩
        rcases he with he | ⟨rfl, -⟩
        · exact h.low x y a pre' hx (by omega) he
        · simp only [hp, Use.table.injEq] at hx
          omega
      refine (hfree hlow hq (fun x pre' k' hx hk => .inr ?_) d).bind ?_
      · obtain ⟨rfl, rfl⟩ : pre = pre' ∧ k = k' := ⟨by omega, Fin.ext (by omega)⟩
        exact ⟨h.tidy.table_unique hx hp, rfl⟩
      rintro - ⟨m₁, d₁⟩ ⟨u₁, l₁, ht₁, hpr₁, hq₁⟩
      have hp₁ : u₁ p = .table r (level + 1) pre := by
        refine (hpr₁.keep p (h.tidy.notMem (by simp [hp])) fun a pre' ha => ?_).2.trans hp
        simp only [hp, Use.table.injEq] at ha
        omega
      have hpq : p ≠ q := by
        rintro rfl
        simp [hq] at hp
      have hmem₁ : m₁.mem p = m.mem p :=
        (hpr₁.same p (ht₁.notMem (by simp [hp₁]))).2.2 hpq
      have hgone (x : ℕ) : u₁ x ≠ .table r level (pre * 512 + k) := by
        intro hx
        have hx' := (hpr₁.same x (ht₁.notMem (by simp [hx]))).2.1 ▸ hx
        rw [h.tidy.table_unique hx' hq, ht₁.use_free q hq₁] at hx
        exact absurd hx (by simp)
      have ht₂ := ht₁.unlink hp₁ hgone fun x y h => h
      have hpr₂ := (hpr₁.of_free (p := p) hq₁).trans
        (.write r level p m₁ u₁ l₁ (update (m₁.mem p) k 0)) le_rfl
      have h₂ := hpr₂.prunable h ht₂ (fun _ _ _ _ _ _ he => he) fun pre' => by simp [hp]
      refine (Runs.of_eq (x := writePte p k 0) rfl (Q := fun _ t => t = ⟨_, d₁⟩) rfl).bind ?_
      rintro - t rfl
      refine (ih h₂ hp₁ d₁).mono fun _ t ⟨u', l', ht, hpr, hzero⟩ =>
        ⟨u', l', ht, hpr₂.trans hpr le_rfl, fun x hx => ?_⟩
      by_cases hxk : x = k
      · refine hzero x (.inl ?_)
        rw [Kmem.write_mem_self, hxk, update_self]
      · refine hzero x (hx.imp (fun hx => ?_) fun hx => (List.mem_cons.1 hx).resolve_left hxk)
        rw [Kmem.write_mem_self, update_of_ne hxk, hmem₁, hx]

/-- **`freewalk` frees a page-table page and all below it**. -/
theorem freewalk_prunes (r level : ℕ) : FreesTable r level (freewalk (level + 1)) := by
  -- the page itself is freed at the end, once it is empty
  have hend {m m' : Kmem} {u u' : ℕ → Use} {E : ℕ → Fin 512 → Prop} {l l' : List ℕ}
      {p pre level a : ℕ} (hp : u' p = .table r level pre) (ht : Tidy m' u' E l')
      (hpr : Prunes r a p m u l m' u' l') (ha : a ≤ level) (hz : ∀ k, m'.mem p k = 0)
      (hE : ∀ q pre' (k : Fin 512), u' q = .table r (level + 1) pre' → pre = pre' * 512 + k →
        E q k) (d : List Bool) :
      Runs (kfree p) ⟨m', d⟩ fun _ t => ∃ u' l', Tidy t.kmem u' E l' ∧
        Prunes r level p m u l t.kmem u' l' ∧ p ∈ l' :=
    .of_eq (kfree_run m' d (ht.range p (by simp [hp])))
      ⟨_, _, ht.freeTable hp hz hE, hpr.trans (.putFree hp) ha, List.mem_cons_self⟩
  induction level with
  | zero =>
    intro m u E l p pre h hp hE d
    have hz (k : Fin 512) : m.mem p k = 0 := h.empty p pre k hp
    refine (Runs.of_eq (freeEntries_zero fun k _ => hz k) (Q := fun _ t => t = ⟨m, d⟩) rfl).bind ?_
    rintro - t rfl
    exact hend hp h.tidy ⟨rfl, fun _ hx _ => ⟨hx, rfl⟩, fun _ hx => ⟨hx, rfl, fun _ => rfl⟩⟩
      le_rfl hz hE d
  | succ level ih =>
    intro m u E l p pre h hp hE d
    refine (freeEntries_prunes ih h hp (List.finRange 512) d).bind ?_
    rintro - ⟨m', d'⟩ ⟨u', l', ht, hpr, hz⟩
    have hp' : u' p = .table r (level + 1) pre := by
      refine (hpr.keep p (h.tidy.notMem (by simp [hp])) fun a pre' ha => ?_).2.trans hp
      simp only [hp, Use.table.injEq] at ha
      omega
    refine hend hp' ht hpr (by omega) (fun k => hz k (.inr (List.mem_finRange k))) ?_ d'
    intro q pre' k hq hpre
    rw [(hpr.same q (ht.notMem (by simp [hq]))).2.1] at hq
    exact hE q pre' k hq hpre

end Freewalk

section Spaces

variable {w : Store} {r n : ℕ} {tf tr : Word}

/-- The page-table pages of level 0 are for virtual pages below the limit. -/
theorem Store.lt_of_table {p pre : ℕ} (hp : w.use p = .table r 0 pre) : pre < 512 * 512 := by
  rw [eq_prefix_add pre] at hp
  obtain ⟨q, hq, -⟩ := w.tidy.parent p r 0 _ _ hp (by decide)
  rw [eq_prefix_add (pre / 512)] at hq
  obtain ⟨q', hq', -⟩ := w.tidy.parent q r 1 _ _ hq (by decide)
  have := (w.tidy.root q' r _ hq').2
  omega

/-- Pruning a whole address space is confined to it. -/
theorem Prunes.confined {w' : Store} (h : Prunes r 2 r w.kmem w.use w.list w'.kmem w'.use w'.list)
    (hr : w.IsRoot r) : Confined r [] [] w w' := by
  have hkeep {p : ℕ} (hp : ¬ w.Owns r [] p) : p ∉ w'.list ∧ w'.use p = w.use p := by
    refine h.keep p (fun hl => hp (.inl hl)) fun a pre ha => absurd ?_ hp
    exact .inr (.inl (by rw [ha]; rfl))
  refine ⟨fun p => ⟨fun hp => ?_, fun hp => ?_⟩, fun p hp => ⟨(hkeep hp).2, ?_⟩⟩
  · by_contra hn
    obtain ⟨hl, hu⟩ := hkeep hn
    rw [Store.Owns, hu] at hp
    exact hn (.inr (hp.resolve_left hl))
  · by_contra hn
    have hl : p ∉ w'.list := fun hl => hn (.inl hl)
    obtain ⟨hl', hu, -⟩ := h.same p hl
    rw [Store.Owns, hu] at hn
    exact hn (.inr (hp.resolve_left hl'))
  · refine (h.same p (hkeep hp).1).2.2 ?_
    rintro rfl
    exact hp (.inr (.inl (by rw [hr]; rfl)))

theorem freewalk_spec (hr : w.IsRoot r) (hz : ∀ v < vpnLimit, w.pte r v = 0) :
    Does w (freewalk 3 r) fun _ w' => Others r w w' ∧ ¬ w'.IsRoot r := by
  have hentry {q pre : ℕ} (k : Fin 512) (hq : w.use q = .table r 0 pre) : w.kmem.mem q k = 0 := by
    have hpre := Store.lt_of_table hq
    have hv : pre * 512 + k < vpnLimit := by
      change _ < 2 ^ 27
      omega
    have hdiv : (pre * 512 + k) / 512 = pre := by omega
    have hk : px 0 ((pre * 512 + k) * PGSIZE) = k := by
      refine Fin.ext ?_
      rw [px_val]
      omega
    rw [← hz _ hv, Store.pte_of_table hr hv (hdiv.symm ▸ hq), hk]
  have hpr : Prunable w.kmem w.use (fun _ _ => False) w.list r 2 :=
    ⟨w.tidy, fun q pre k hq => hentry k hq, fun _ _ _ _ _ _ h => h⟩
  -- nothing is mapped, so there is no page of the user
  have huser (p v : ℕ) : w.use p ≠ .user r v := by
    intro hp
    rw [eq_prefix_add v] at hp
    obtain ⟨-, t, ht, hne, -⟩ := w.mapped p r _ _ hp
    exact hne (hentry _ ht)
  intro d
  refine (freewalk_prunes r 2 hpr hr (fun q pre k hq _ => ?_) d).mono ?_
  · have := w.tidy.level q r 3 pre hq
    omega
  rintro - ⟨m, d'⟩ ⟨u, l, htidy, h, hfree⟩
  have hmapped : Exact m u := by
    intro p r' pre k hp
    rw [(h.same p (htidy.notMem (by simp [hp]))).2.1] at hp
    obtain ⟨hv, t, ht, hne, hpa⟩ := w.mapped p r' pre k hp
    have hrr : r' ≠ r := by
      rintro rfl
      exact huser p _ hp
    obtain ⟨hl, hu⟩ := h.keep t (w.tidy.notMem (by simp [ht])) fun a pre' ha => by
      rw [ht] at ha
      exact absurd (Use.table.inj ha).1 hrr
    have hmem : m.mem t = w.kmem.mem t := by
      refine (h.same t hl).2.2 ?_
      rintro rfl
      rw [hr] at ht
      exact hrr (Use.table.inj ht).1.symm
    exact ⟨hv, t, hu.trans ht, by rwa [hmem], by rwa [hmem]⟩
  refine ⟨⟨m, u, l, htidy, hmapped⟩, rfl, ⟨h.first, Prunes.confined h hr⟩, ?_⟩
  intro hroot
  have hnone := htidy.use_free r hfree
  have hroot' : u r = .table r 2 0 := hroot
  rw [hnone] at hroot'
  exact absurd hroot' (by simp)

/-- `uvmfree` frees an address space from which trapframe and trampoline have been unmapped. -/
theorem uvmfree_spec (sz : ℕ) (hs : Space w r (pages sz) 0 0) :
    Does w (uvmfree r sz) fun _ w' => Others r w w' ∧ ¬ w'.IsRoot r := by
  have hend {w' : Store} (h : Resizes r 0 0 0 w w') :
      Does w' (freewalk 3 r) fun _ w'' => Others r w w'' ∧ ¬ w''.IsRoot r := by
    refine (freewalk_spec h.space.root fun v hv => ?_).mono fun _ w'' h' =>
      ⟨h.others.trans h'.1, h'.2⟩
    by_cases hu : IsUser v
    · by_contra hne
      exact Nat.not_lt_zero v ((h.space.user v hv hu).1 hne)
    · rcases not_and_or.1 hu with hu | hu
      · rw [not_not.1 hu, h.space.tramp]
      · rw [not_not.1 hu, h.space.frame]
  rw [uvmfree]
  by_cases h₀ : 0 < sz
  · rw [if_pos h₀, pgroundup_eq hs.le, Nat.mul_div_cancel _ (by decide)]
    have hs' := hs
    rw [← Nat.zero_add (pages sz)] at hs'
    have hunmap := uvmunmap_space hs'
    rw [Nat.zero_mul] at hunmap
    exact hunmap.bind fun _ w' h => hend h.1
  · rw [if_neg h₀]
    obtain rfl : sz = 0 := by omega
    exact hend (.refl hs)

/-! ### The page tables of processes -/

/-- The entry for the trapframe in page `p`. -/
def frameEntry (p : ℕ) : Word := pa2pte p ||| (PTE_R ||| PTE_W) ||| PTE_V

/-- The entry for the trampoline in page `p`. -/
def trampolineEntry (p : ℕ) : Word := pa2pte p ||| (PTE_R ||| PTE_X) ||| PTE_V

theorem frameEntry_kernel (p : ℕ) : frameEntry p &&& PTE_U = 0 := by
  rw [frameEntry, BitVec.or_assoc, pa2pte_or_and p _ (by decide)]
  decide

theorem trampolineEntry_kernel (p : ℕ) : trampolineEntry p &&& PTE_U = 0 := by
  rw [trampolineEntry, BitVec.or_assoc, pa2pte_or_and p _ (by decide)]
  decide

/-- The entry of a page that is not the user's is changed. -/
theorem Space.setKernel {w' : Store} {v : ℕ} {e : Word} (hs : Space w r n tf tr)
    (hroot : w'.IsRoot r) (hv : ¬ IsUser v)
    (hpte : ∀ v' < vpnLimit, w'.pte r v' = if v' = v then e else w.pte r v')
    (he : e &&& PTE_U = 0) : Space w' r n (if trapframeVpn = v then e else tf)
      (if trampolineVpn = v then e else tr) where
  root := hroot
  frame := by rw [hpte _ (by decide), hs.frame]
  tramp := by rw [hpte _ (by decide), hs.tramp]
  user v' hv' hu := by
    have hne : v' ≠ v := by
      rintro rfl
      exact hv hu
    rw [hpte v' hv', if_neg hne, hs.user v' hv' hu]
  tf_kernel := by
    split_ifs
    exacts [he, hs.tf_kernel]
  tr_kernel := by
    split_ifs
    exacts [he, hs.tr_kernel]

/-- A page that is not the user's is unmapped. -/
theorem unmapKernel_spec {v : ℕ} (hs : Space w r n tf tr) (hv : ¬ IsUser v)
    (hm : w.pte r v ≠ 0) (hmax : (v + 1) * PGSIZE ≤ MAXVA) :
    Does w (uvmunmap r (v * PGSIZE) 1 false) fun _ w' => Others r w w' ∧
      Space w' r n (if trapframeVpn = v then 0 else tf) (if trampolineVpn = v then 0 else tr) := by
  refine (uvmunmap_spec hs.root hmax (fun v' h₁ h₂ => ?_) fun v' h₁ h₂ => ?_).mono fun _ w' h =>
    ⟨.of_unmaps h, hs.setKernel (h.isRoot hs.root) hv (fun v' hv' => ?_) rfl⟩
  · obtain rfl : v' = v := by omega
    exact hm
  · obtain rfl : v' = v := by omega
    exact iff_of_false (by decide) hv
  · have hiff : r = r ∧ v ≤ v' ∧ v' < v + 1 ↔ v' = v := by omega
    rw [h.pte r v' hs.root hv', if_congr hiff rfl rfl]

theorem procFreepagetable_spec {sz : ℕ} (hs : Space w r (pages sz) tf tr) (htf : tf ≠ 0)
    (htr : tr ≠ 0) :
    Does w (procFreepagetable r sz) fun _ w' => Others r w w' ∧ ¬ w'.IsRoot r := by
  rw [procFreepagetable]
  refine (unmapKernel_spec (v := trampolineVpn) hs (fun h => h.1 rfl) (by rwa [hs.tramp])
    (by decide)).bind ?_
  rintro - w₁ ⟨ho₁, hs₁⟩
  refine (unmapKernel_spec (v := trapframeVpn) hs₁ (fun h => h.2 rfl) ?_ (by decide)).bind ?_
  · rw [hs₁.frame]
    exact htf
  rintro - w₂ ⟨ho₂, hs₂⟩
  exact (uvmfree_spec sz hs₂).mono fun _ w₃ ⟨ho₃, hroot⟩ => ⟨(ho₁.trans ho₂).trans ho₃, hroot⟩

theorem uvmcreate_spec : Does w uvmcreate fun p w' => (p = 0 → w' = w) ∧
    (p ≠ 0 → p ∈ w.list ∧ Others p w w' ∧ Space w' p 0 0 0) := by
  rw [uvmcreate]
  refine kalloc_spec.bind fun p w₁ ⟨hg, hsame, hp⟩ => ?_
  by_cases h₀ : p = 0
  · rw [if_pos h₀]
    exact .pure ⟨fun _ => hsame h₀, fun h => absurd rfl h⟩
  rw [if_neg h₀]
  obtain ⟨hmem, hres, hc, -⟩ := hp h₀
  refine (writePage_spec hres.notMem (by simp [hres.use, Use.IsTable]) _).bind ?_
  rintro - w₂ ⟨hg₂, hkmem, huse₂, hlist₂⟩
  have hres₂ := hg₂.reserved hres
  have hz (k : Fin 512) : w₂.kmem.mem p k = 0 := by
    rw [hkmem, Kmem.write_mem_self]
    rfl
  have hne {q : ℕ} (hq : w₂.use q ≠ .none) : q ≠ p := fun he => hq (he ▸ hres₂.use)
  have hmapped : Exact w₂.kmem (update w₂.use p (.table p 2 0)) := by
    refine w₂.mapped.congr (fun q r v hq => ?_) fun t r pre ht => ⟨?_, rfl⟩
    · by_cases hqp : q = p
      · simp [hqp] at hq
      · rwa [update_of_ne hqp] at hq
    · exact (update_of_ne (hne (by simp [ht])) _ _).trans ht
  refine .ghost ⟨_, _, _, w₂.tidy.newRoot hres₂.use hres₂.notMem hres₂.range hz, hmapped⟩ rfl ?_
  have hc₂ : Confined p [p] [p] w₁ w₂ :=
    .of_write (.inr (.inr List.mem_cons_self)) hkmem huse₂ hlist₂
  have hroot : update w₂.use p (.table p 2 0) p = .table p 2 0 := update_self _ _ _
  refine .pure ⟨fun h => absurd h h₀, fun _ => ⟨hmem, ⟨hg₂.first.trans hg.first, ?_⟩, ?_⟩⟩
  · refine ((hc p).trans hc₂).trans (.of_page (q := p) (.inr (.inr List.mem_cons_self)) ?_
      (fun x hx => ⟨update_of_ne hx _ _, Iff.rfl, by simp [hx]⟩) fun _ _ => rfl)
    refine .inr (.inl ?_)
    change (update w₂.use p _ p).Of p
    rw [hroot]
    rfl
  · have hpte (v : ℕ) : w₂.kmem.pte p v = 0 := by
      rw [Kmem.pte, Kmem.level0, Kmem.child, hz, if_neg (by decide)]
      rfl
    exact ⟨hroot, hpte _, hpte _, fun v _ _ => by simp [Store.pte, hpte v], rfl, rfl⟩

/-- A page that is not the user's is mapped. -/
theorem mapKernel_spec {v q : ℕ} {perm : Word} (hs : Space w r n tf tr) (hv : ¬ IsUser v)
    (hm : w.pte r v = 0) (hmax : v * PGSIZE < MAXVA) (hq : q < 2 ^ 44) (hf : IsFlags perm)
    (hr : perm &&& PTE_R ≠ 0) (hk : (pa2pte q ||| perm ||| PTE_V) &&& PTE_U = 0) :
    Does w (mappages r (v * PGSIZE) PGSIZE q perm) fun ok w' => Others r w w' ∧
      if ok then Space w' r n (if trapframeVpn = v then pa2pte q ||| perm ||| PTE_V else tf)
        (if trampolineVpn = v then pa2pte q ||| perm ||| PTE_V else tr)
      else Space w' r n tf tr := by
  have hcan : CanMap w r v q perm := ⟨hs.root, hmax, hm, fun h => absurd h hv, hq, hf, hr⟩
  refine (mappages_spec hcan).mono ?_
  rintro (_ | _) w' h
  · exact ⟨.of_grows h.2.1 h.2.2, hs.of_grows h.2.1⟩
  · have h' : Maps r v q (pa2pte q ||| perm ||| PTE_V) w w' := h.2
    have hroot : w'.IsRoot r := by
      have hne : w.use r ≠ .none := by
        rw [hs.root]
        simp
      rw [Store.IsRoot, (h'.keep r (w.tidy.notMem hne) fun h => absurd h hv).2, hs.root]
    refine ⟨⟨h'.first, h'.kernel hv⟩, hs.setKernel hroot hv (fun v' hv' => ?_) hk⟩
    rw [h'.pte r v' hs.root hv', if_congr (and_iff_right rfl) rfl rfl]

theorem Store.not_isRoot_zero (w : Store) : ¬ w.IsRoot 0 := by
  intro h
  have hrange := w.tidy.range 0 (by rw [h]; simp)
  have := w.tidy.free.first_pos
  omega

/-- `proc_pagetable` leaves all address spaces alone, and makes a new one if it succeeds. -/
theorem procPagetable_spec {trampoline tf : ℕ} (htr : trampoline < 2 ^ 44) (htf : tf < 2 ^ 44) :
    Does w (procPagetable trampoline tf) fun p w' => ∃ q, ¬ w.IsRoot q ∧ Others q w w' ∧
      (p = 0 → ¬ w'.IsRoot q) ∧
      (p ≠ 0 → p = q ∧ Space w' p 0 (frameEntry tf) (trampolineEntry trampoline)) := by
  rw [procPagetable]
  refine uvmcreate_spec.bind fun p w₁ ⟨hsame, hp⟩ => ?_
  by_cases h₀ : p = 0
  · rw [if_pos h₀, hsame h₀]
    have hroot := w.not_isRoot_zero
    exact .pure ⟨0, hroot, .refl 0 w, fun _ => hroot, fun h => absurd rfl h⟩
  rw [if_neg h₀]
  obtain ⟨hmem, ho₁, hs₁⟩ := hp h₀
  have hfree : ¬ w.IsRoot p := fun h => w.tidy.notMem (by rw [h]; simp) hmem
  -- what has been built is freed again
  have hback {w' : Store} (ho : Others p w w') (hs : Space w' p 0 0 0) :
      Does w' (uvmfree p 0 >>= fun _ => pure 0) fun p w' => ∃ q, ¬ w.IsRoot q ∧ Others q w w' ∧
        (p = 0 → ¬ w'.IsRoot q) ∧
        (p ≠ 0 → p = q ∧ Space w' p 0 (frameEntry tf) (trampolineEntry trampoline)) :=
    (uvmfree_spec 0 hs).bind fun _ w'' ⟨ho', hroot⟩ =>
      .pure ⟨p, hfree, ho.trans ho', fun _ => hroot, fun h => absurd rfl h⟩
  refine (mapKernel_spec (v := trampolineVpn) hs₁ (fun h => h.1 rfl) hs₁.tramp (by decide) htr
    (by decide) (by decide) (trampolineEntry_kernel _)).bind ?_
  rintro (_ | _) w₂ ⟨ho₂, hs₂⟩
  · exact hback (ho₁.trans ho₂) hs₂
  rw [if_pos rfl] at hs₂ ⊢
  refine (mapKernel_spec (v := trapframeVpn) hs₂ (fun h => h.2 rfl) hs₂.frame (by decide) htf
    (by decide) (by decide) (frameEntry_kernel _)).bind ?_
  have ho₂' := ho₁.trans ho₂
  rintro (_ | _) w₃ ⟨ho₃, hs₃⟩
  · refine (unmapKernel_spec (v := trampolineVpn) hs₃ (fun h => h.1 rfl) ?_ (by decide)).bind ?_
    · rw [hs₃.tramp]
      exact (isLeaf_mk trampoline (by decide)).ne_zero
    rintro - w₄ ⟨ho₄, hs₄⟩
    exact hback ((ho₂'.trans ho₃).trans ho₄) hs₄
  · exact .pure ⟨p, hfree, ho₂'.trans ho₃, fun h => absurd h h₀, fun _ => ⟨rfl, hs₃⟩⟩

end Spaces

end Xv6.Vm
