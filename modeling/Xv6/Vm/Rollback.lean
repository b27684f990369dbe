import Xv6.Vm.AddressSpace

/-!
# Growing and copying roll back

When `uvmalloc` or `uvmcopy` runs out of memory, the table maps what it did before, and no page is
lost: what was free is free again, or has become a page-table page of this table. A copy that
succeeds is in pages that were free, and that nothing else maps.

`uvmcopy` panics if the old address space is smaller than the size, or if the new one has pages
already. It may also run out of memory before it gets there, so all of these cases are covered.
-/

namespace Xv6

/-- Page `p` is a page-table page below the root `r`. -/
def Kmem.Linked (m : Kmem) (r p : ℕ) : Prop :=
  ∃ i, m.child r i = some p ∨ ∃ j, ((m.child r i).bind fun q => m.child q j) = some p

namespace Vm

/-- The address space with root `r` has the leaves that it had, and what was free is free again, or
has been linked into the table as a page-table page. -/
structure RolledBack (r : ℕ) (w w' : Store) : Prop where
  leaves : ∀ v < vpnLimit, w'.pte r v = w.pte r v
  pages : ∀ p ∈ w.list, p ∈ w'.list ∨ w'.kmem.Linked r p

/-- No page table maps a free page. -/
def Store.FreeUnmapped (w : Store) : Prop :=
  ∀ r v, w.IsRoot r → v < vpnLimit → w.pte r v ≠ 0 → pte2pa (w.pte r v) ∉ w.list

/-- The pages of `old` up to `sz` bytes have been copied to `new`, into pages that were free and
that are mapped nowhere else. -/
structure Duplicated (old new sz : ℕ) (w w' : Store) : Prop where
  copied : ∀ v < pages sz, Copied old new v w w'
  unshared : ∀ v < pages sz, ∀ r' v', w'.IsRoot r' → v' < vpnLimit → w'.pte r' v' ≠ 0 →
    pte2pa (w'.pte r' v') = pte2pa (w'.pte new v) → r' = new ∧ v' = v

section Rollback

variable {w w' : Store} {r n : ℕ} {tf tr : Word}

theorem Store.linked_of_table {p level pre : ℕ} (hp : w.use p = .table r level pre)
    (hlevel : level < 2) : w.kmem.Linked r p := by
  rw [eq_prefix_add pre] at hp
  obtain ⟨q, hq, hqp⟩ := Store.child_of_table hlevel hp
  match level, hlevel with
  | 1, _ =>
    obtain ⟨rfl, -⟩ := w.tidy.root q r _ hq
    exact ⟨_, .inl hqp⟩
  | 0, _ =>
    rw [eq_prefix_add (pre / 512)] at hq
    obtain ⟨r', hr', hrq⟩ := Store.child_of_table (by decide) hq
    obtain ⟨rfl, -⟩ := w.tidy.root r' r _ hr'
    exact ⟨_, .inr ⟨_, by rw [hrq, Option.bind_some, hqp]⟩⟩

theorem Store.lt_of_user {p v : ℕ} (hp : w.use p = .user r v) : v < vpnLimit := by
  rw [eq_prefix_add v] at hp
  obtain ⟨-, t, ht, -⟩ := w.mapped p r _ _ hp
  have := Store.lt_of_table ht
  change v < 2 ^ 27
  omega

/-- The leaves of an address space that has the size that it had. -/
theorem Resizes.leaves (h : Resizes r n tf tr w w') (hs : Space w r n tf tr) {v : ℕ}
    (hv : v < vpnLimit) : w'.pte r v = w.pte r v := by
  by_cases hu : IsUser v
  · by_cases hn : v < n
    · exact h.pte v hn ((hs.user v hv hu).2 hn)
    · rw [not_not.1 (mt (hs.user v hv hu).1 hn), not_not.1 (mt (h.space.user v hv hu).1 hn)]
  · rcases not_and_or.1 hu with hu | hu
    · rw [not_not.1 hu, h.space.tramp, hs.tramp]
    · rw [not_not.1 hu, h.space.frame, hs.frame]

theorem Resizes.rolledBack (h : Resizes r n tf tr w w') (hs : Space w r n tf tr) :
    RolledBack r w w' := by
  refine ⟨fun v hv => h.leaves hs hv, fun p hp => ?_⟩
  have hnone := w.tidy.use_free p hp
  rcases (h.others.confined.owns p).2 (.inl hp) with hl | hof | hnil
  · exact .inl hl
  · match hu : w'.use p with
    | .none | .frame _ =>
      rw [hu] at hof
      exact hof.elim
    | .table r' level pre =>
      rw [hu] at hof
      obtain rfl : r' = r := hof
      refine .inr (Store.linked_of_table hu (lt_of_le_of_ne (w'.tidy.level p _ _ _ hu) ?_))
      -- the root was not free
      rintro rfl
      obtain ⟨rfl, -⟩ := w'.tidy.root p _ _ hu
      rw [hs.root] at hnone
      simp at hnone
    | .user r' v =>
      rw [hu] at hof
      obtain rfl : r' = r := hof
      -- what is mapped was mapped before, and so it was not free
      have hv := Store.lt_of_user hu
      obtain ⟨hne, hpa⟩ := Store.pte_of_user h.space.root hv hu
      rw [h.leaves hs hv] at hne hpa
      have huse := ((Store.pte_ok hs.root hv).resolve_left hne).2 (Store.isUser hu)
      rw [hpa, hnone] at huse
      simp at huse
  · exact absurd hnil List.not_mem_nil

/-- The pages of a copy are the user's, and what is mapped otherwise was in use before. -/
theorem Resizes.duplicated {old new sz : ℕ} (h : Resizes new (pages sz) tf tr w w')
    (hs : Space w new n tf tr) (hfree : w.FreeUnmapped)
    (hc : ∀ v < pages sz, Copied old new v w w') : Duplicated old new sz w w' := by
  refine ⟨hc, fun v hv r' v' hr' hv' hne heq => ?_⟩
  have huse := h.space.use hv (hv.le.trans h.space.le)
  by_cases hu : IsUser v'
  · have huse' := ((Store.pte_ok hr' hv').resolve_left hne).2 hu
    rw [heq, huse, Use.user.injEq] at huse'
    exact ⟨huse'.1.symm, huse'.2.symm⟩
  · have hroot : w.IsRoot r' := by
      by_cases hrn : r' = new
      · rw [hrn]
        exact hs.root
      · refine Store.isRoot_of ((h.others.of_iff hrn (p := r')).1 ?_)
        rw [hr']
        rfl
    have hsame : w'.pte r' v' = w.pte r' v' := by
      by_cases hrn : r' = new
      · rw [hrn]
        rcases not_and_or.1 hu with hu | hu
        · rw [not_not.1 hu, h.space.tramp, hs.tramp]
        · rw [not_not.1 hu, h.space.frame, hs.frame]
      · exact h.others.pte r' v' hroot hrn hv'
    rw [hsame] at hne heq
    exact absurd (heq ▸ (hc v hv).fresh) (hfree r' v' hroot hv' hne)

end Rollback

/-! ### Copies of any size -/

section Copy

variable {w : Store} {old new n k : ℕ} {tf tr tf' tr' : Word}

/-- The loop of `uvmcopy` in two parts. -/
theorem copyPages_add (old new m₁ m₂ i : ℕ) : copyPages old new (m₁ + m₂) i =
    copyPages old new m₁ i >>= fun ok =>
      if ok then copyPages old new m₂ (i + m₁ * PGSIZE) else pure false := by
  induction m₁ generalizing i with
  | zero => simp [copyPages]
  | succ m₁ ih =>
    have hnext : i + PGSIZE + m₁ * PGSIZE = i + (m₁ + 1) * PGSIZE := by
      rw [Nat.succ_mul]
      omega
    rw [Nat.succ_add, copyPages, copyPages, bind_assoc]
    congr 1
    funext o
    cases o with
    | none => rfl
    | some x =>
      dsimp only
      rw [bind_assoc]
      congr 1
      funext pte
      split_ifs
      · rfl
      rw [bind_assoc]
      congr 1
      funext mem
      split_ifs
      · rw [bind_assoc]
        rfl
      · simp only [bind_assoc]
        congr 1
        funext pg
        congr 1
        funext _
        congr 1
        funext ok
        cases ok with
        | true =>
          simp only [if_true]
          rw [ih, hnext]
        | false => simp

/-- There is nothing to copy at the end of the old address space. -/
theorem copyPages_past (hold : Space w old n tf tr) (m : ℕ) (d : List Bool)
    {Q : Bool → Phys → Prop} :
    Ends (fun _ => True) (copyPages old new (m + 1) (n * PGSIZE)) ⟨w.kmem, d⟩ Q := by
  have hle : n ≤ 0x88000 := hold.le
  have hn : n < vpnLimit := lt_vpnLimit hold.le
  have hpte : w.pte old n = 0 := by
    by_contra hne
    exact lt_irrefl n ((hold.user n hn (isUser_of_le hold.le)).1 hne)
  rw [copyPages]
  refine (walk_false hold.root (by change n * 4096 < 2 ^ 38; omega) d).ends.bind ?_
  rintro o ⟨m', d'⟩ ⟨w', rfl, rfl, ⟨p, rfl, hp⟩ | ⟨rfl, -⟩⟩
  · refine .of_error (e := .uvmcopyPageNotPresent) ?_ trivial
    rw [Store.pte_of_table hold.root hn hp] at hpte
    change (if w'.kmem.mem p _ &&& PTE_V = 0 then panic _ else _ : PhysM Bool).run _ = _
    rw [hpte]
    rfl
  · exact .of_error rfl trivial

/-- Page 0 of the new address space is mapped, so nothing can be copied to it. -/
theorem mappages_mapped {q : ℕ} {perm : Word} (hroot : w.IsRoot new) (hne : w.pte new 0 ≠ 0)
    (d : List Bool) :
    Ends (fun _ => True) (mappages new 0 PGSIZE q perm) ⟨w.kmem, d⟩ fun ok t =>
      ok = false ∧ ∃ w', t.kmem = w'.kmem ∧ Grows w w' ∧ Confined new [] [] w w' ∧ Still w w' := by
  have hmap : mappages new 0 PGSIZE q perm = mapPage new perm 0 q := rfl
  have hwalk := walk_true (v := 0) hroot (by decide) d
  rw [Nat.zero_mul] at hwalk
  rw [hmap, mapPage]
  refine hwalk.ends.bind ?_
  rintro (_ | ⟨p, k⟩) ⟨m, d'⟩ ⟨w', rfl, hg, hc, hst, ho⟩
  · exact .pure ⟨rfl, w', rfl, hg, hc, hst⟩
  · obtain ⟨hp, rfl⟩ := ho _ rfl
    refine .of_error (e := .mappagesRemap) ?_ trivial
    rw [← hg.pte new 0 hroot (by decide)] at hne
    obtain ⟨hleaf, -⟩ := (Store.pte_ok (hg.isRoot hroot) (by decide)).resolve_left hne
    rw [Store.pte_of_table (hg.isRoot hroot) (by decide) hp, Nat.zero_mul] at hleaf
    change (if w'.kmem.mem p _ &&& PTE_V ≠ 0 then panic _ else _ : PhysM Bool).run _ = _
    rw [if_pos hleaf.valid]
    rfl

/-- Copying to an address space that has pages panics or runs out of memory. -/
theorem copyPages_occupied (hold : Space w old n tf tr) (hnew : Space w new k tf' tr') (hk : k ≠ 0)
    (m : ℕ) (d : List Bool) :
    Ends (fun _ => True) (copyPages old new (m + 1) 0) ⟨w.kmem, d⟩ fun ok t =>
      ok = false ∧ ∃ w', t.kmem = w'.kmem ∧ Resizes new k tf' tr' w w' := by
  have hne : w.pte new 0 ≠ 0 :=
    (hnew.user 0 (by decide) (isUser_of_le (by decide))).2 (Nat.pos_of_ne_zero hk)
  have hwalk := walk_false (v := 0) hold.root (by decide) d
  rw [Nat.zero_mul] at hwalk
  rw [copyPages]
  refine hwalk.ends.bind ?_
  rintro o ⟨m', d'⟩ ⟨w', rfl, rfl, ⟨p, rfl, hp⟩ | ⟨rfl, -⟩⟩
  swap
  · exact .of_error rfl trivial
  change Ends _ (if w'.kmem.mem p _ &&& PTE_V = 0 then panic _ else _ : PhysM Bool) _ _
  by_cases hV : w'.kmem.mem p (px 0 0) &&& PTE_V = 0
  · rw [if_pos hV]
    exact .of_error rfl trivial
  rw [if_neg hV]
  refine (kalloc_spec d').ends.bind ?_
  rintro q ⟨m', d''⟩ ⟨w₁, rfl, hg, hsame, hq⟩
  by_cases h₀ : q = 0
  · rw [if_pos h₀, hsame h₀]
    exact .pure ⟨rfl, w', rfl, .refl hnew⟩
  rw [if_neg h₀]
  obtain ⟨hmem, hres, hc, -, hkeep⟩ := hq h₀
  refine Ends.bind (R := fun pg t => t = ⟨w₁.kmem, d''⟩) (.of_ok rfl rfl) ?_
  rintro pg - rfl
  refine (fillPage_spec pg hg (hc new) (still_of_kalloc hmem hkeep) hmem hres d'').ends.bind ?_
  rintro - ⟨m', d₂⟩ ⟨w₂, rfl, hg₂, hc₂, hst₂, hres₂, -⟩
  rw [← hg₂.pte new 0 hnew.root (by decide)] at hne
  refine (mappages_mapped (hg₂.isRoot hnew.root) hne d₂).bind ?_
  rintro - ⟨m', d₃⟩ ⟨rfl, w₃, rfl, hg₃, hc₃, hst₃⟩
  rw [if_neg (by decide)]
  have hfree := kfree_grows (hg₂.trans hg₃) (hc₂.trans (hc₃.frame [q])) (hst₂.trans hg₂ hst₃) hmem
    (hg₃.reserved hres₂)
  refine (hfree d₃).ends.bind ?_
  rintro - ⟨m', d₄⟩ ⟨w₄, rfl, hg₄, hc₄, hst₄⟩
  exact .pure ⟨rfl, w₄, rfl, .of_grows hnew hg₄ hc₄ hst₄⟩

/-- **`uvmcopy` from an address space to another**, of any sizes: it panics only if the new one is
not empty or the old one is too small. -/
theorem uvmcopy_ends (hold : Space w old n tf tr) (hnew : Space w new k tf' tr') (sz : ℕ)
    (d : List Bool) :
    Ends (fun _ => ¬ (pages sz ≤ n ∧ k = 0 ∧ old ≠ new)) (uvmcopy old new sz) ⟨w.kmem, d⟩
      fun ok t => ∃ w', t.kmem = w'.kmem ∧ (ok = false → Resizes new k tf' tr' w w') ∧
        (ok = true → 0 < pages sz → Resizes new (pages sz) tf' tr' w w' ∧
          ∀ v < pages sz, Copied old new v w w') := by
  have huvm : uvmcopy old new sz = copyPages old new (pages sz) 0 := rfl
  rw [huvm]
  generalize pages sz = m
  by_cases hm : m = 0
  · subst hm
    exact .pure ⟨w, rfl, nofun, fun _ h => absurd h (lt_irrefl 0)⟩
  obtain ⟨m, rfl⟩ : ∃ m', m = m' + 1 := ⟨m - 1, by omega⟩
  by_cases hk : k = 0
  swap
  · refine ((copyPages_occupied hold hnew hk m d).weaken fun _ _ h => hk h.2.1).mono ?_
    rintro ok t ⟨rfl, w', hw', hr⟩
    exact ⟨w', hw', fun _ => hr, nofun⟩
  subst hk
  by_cases hne : old = new
  · subst hne
    obtain rfl : n = 0 := by
      by_contra hn
      have hpte := (hold.user 0 (by decide) (isUser_of_le (by decide))).2 (by omega)
      exact lt_irrefl 0 ((hnew.user 0 (by decide) (isUser_of_le (by decide))).1 hpte)
    refine Ends.weaken (E := fun _ => True) ?_ fun _ _ h => h.2.2 rfl
    exact copyPages_past (n := 0) hold m d
  by_cases hle : m + 1 ≤ n
  · have hcopy := copyPages_spec (k := 0) hold hnew hne (by omega : 0 + (m + 1) ≤ n)
    rw [Nat.zero_mul, Nat.zero_add] at hcopy
    refine (hcopy d).ends.mono ?_
    rintro (_ | _) t ⟨w', hw', hr, hcopied⟩
    · exact ⟨w', hw', fun _ => hr, nofun⟩
    · exact ⟨w', hw', nofun, fun _ _ => ⟨hr, fun v hv => hcopied rfl v (Nat.zero_le v) hv⟩⟩
  · -- all pages of the old address space are copied before it panics
    obtain ⟨m', hm'⟩ : ∃ m', m + 1 = n + (m' + 1) := ⟨m - n, by omega⟩
    have hcopy := copyPages_spec (k := 0) hold hnew hne (Nat.zero_add n).le
    rw [Nat.zero_mul] at hcopy
    rw [hm', copyPages_add, Nat.zero_add]
    refine (hcopy d).ends.bind ?_
    rintro (_ | _) ⟨_, d'⟩ ⟨w', rfl, hr, -⟩
    · exact .pure ⟨w', rfl, fun _ => hr, nofun⟩
    · exact (copyPages_past (hr.others.space hold hne) m' d').weaken fun _ _ h => by omega

/-- **Growing and copying roll back**, whichever calls of `kalloc` fail, for all page tables and all
sizes. When `uvmalloc` or `uvmcopy` fails, the leaves are as before and no page is lost but to
page-table pages of this table; when `uvmcopy` succeeds, every page has been copied to a page of its
own. -/
theorem growth_rolls_back (hfree : w.FreeUnmapped) :
    (∀ r oldsz newsz perm tf tr, Space w r (pages oldsz) tf tr → IsFlags perm → 0 < oldsz →
      oldsz ≤ newsz → Does w (uvmalloc r oldsz newsz perm) fun sz w' =>
        (sz = 0 → RolledBack r w w') ∧ (sz ≠ 0 → sz = newsz)) ∧
    ∀ old new n k sz tf tr tf' tr' d, Space w old n tf tr → Space w new k tf' tr' →
      Ends (fun _ => ¬ (pages sz ≤ n ∧ k = 0 ∧ old ≠ new)) (uvmcopy old new sz) ⟨w.kmem, d⟩
        fun ok t => ∃ w', t.kmem = w'.kmem ∧ (ok = false → RolledBack new w w') ∧
          (ok = true → Duplicated old new sz w w') := by
  refine ⟨fun r oldsz newsz perm tf tr hs hf hpos hle => ?_,
    fun old new n k sz tf tr tf' tr' d hold hnew => ?_⟩
  · refine (uvmalloc_spec hs hf).mono ?_
    rintro sz w' (⟨hsz, h, -⟩ | ⟨rfl, h⟩)
    · rw [max_eq_right hle] at hsz
      exact ⟨fun h₀ => by omega, fun _ => hsz⟩
    · exact ⟨fun _ => h.rolledBack hs, fun h => absurd rfl h⟩
  · refine (uvmcopy_ends hold hnew sz d).mono ?_
    rintro ok t ⟨w', hw', hfail, hok⟩
    refine ⟨w', hw', fun h => (hfail h).rolledBack hnew, fun h => ?_⟩
    by_cases hsz : 0 < pages sz
    · obtain ⟨hr, hcopied⟩ := hok h hsz
      exact hr.duplicated hnew hfree hcopied
    · exact ⟨fun v hv => by omega, fun v hv => by omega⟩

/-! ### Two address spaces -/

/-- No trapframe and no trampoline is mapped. -/
def Store.Plain (w : Store) : Prop := ∀ r, w.IsRoot r → ∃ n, Space w r n 0 0

theorem Store.Plain.freeUnmapped (h : w.Plain) : w.FreeUnmapped := by
  intro r v hr hv hne
  obtain ⟨n, hs⟩ := h r hr
  by_cases hu : IsUser v
  · refine w.tidy.notMem ?_
    rw [((Store.pte_ok hr hv).resolve_left hne).2 hu]
    simp
  · rcases not_and_or.1 hu with hu | hu
    · exact absurd (not_not.1 hu ▸ hs.tramp) hne
    · exact absurd (not_not.1 hu ▸ hs.frame) hne

theorem Store.Plain.step {w' : Store} {r : ℕ} (h : w.Plain) (ho : Others r w w')
    (hs : Space w' r n 0 0) : w'.Plain := by
  intro r' hr'
  by_cases hne : r' = r
  · exact ⟨n, hne ▸ hs⟩
  · have hroot : w.IsRoot r' := by
      refine Store.isRoot_of ((ho.of_iff hne (p := r')).1 ?_)
      rw [hr']
      rfl
    obtain ⟨n', hs'⟩ := h r' hroot
    exact ⟨n', ho.space hs' hne⟩

/-- An address space of two pages, and one without pages, if there is memory for them. -/
def twoSpaces : PhysM (ℕ × ℕ) := do
  let old ← uvmcreate
  if old = 0 then pure (0, 0)
  else
    let sz ← uvmalloc old 0 8192 PTE_W
    if sz = 0 then pure (old, 0)
    else
      let new ← uvmcreate
      pure (old, new)

theorem twoSpaces_spec (h : w.Plain) :
    Does w twoSpaces fun x w' => x.2 ≠ 0 → w'.Plain ∧ Space w' x.1 2 0 0 ∧ Space w' x.2 0 0 0 := by
  rw [twoSpaces]
  refine uvmcreate_spec.bind fun old w₁ ⟨_, hold⟩ => ?_
  by_cases h₀ : old = 0
  · rw [if_pos h₀]
    exact .pure fun h => absurd rfl h
  rw [if_neg h₀]
  obtain ⟨-, ho₁, hs₁⟩ := hold h₀
  have hs₀ : Space w₁ old (pages 0) 0 0 := hs₁
  refine (uvmalloc_spec hs₀ (by decide)).bind fun sz w₂ hsz => ?_
  by_cases hsz₀ : sz = 0
  · rw [if_pos hsz₀]
    exact .pure fun h => absurd rfl h
  rw [if_neg hsz₀]
  obtain ⟨rfl, hr, -⟩ := hsz.resolve_right fun h => hsz₀ h.1
  refine uvmcreate_spec.bind fun new w₃ ⟨_, hnew⟩ => .pure fun hne => ?_
  obtain ⟨hmem, ho₃, hs₃⟩ := hnew hne
  have hroot : old ≠ new := by
    rintro rfl
    exact w₂.tidy.notMem (by rw [hr.space.root]; simp) hmem
  exact ⟨((h.step ho₁ hs₁).step hr.others hr.space).step ho₃ hs₃, ho₃.space hr.space hroot, hs₃⟩

theorem growth_rolls_back_twoSpaces : ∃ (w : Store) (old new : ℕ), Space w old 2 0 0 ∧
    Space w new 0 0 0 ∧
    (∃ t w', (uvmalloc old 8192 20000 PTE_W).run ⟨w.kmem, [false, true]⟩ = .ok (0, t) ∧
      t.kmem = w'.kmem ∧ RolledBack old w w') ∧
    (∃ t w', (uvmcopy old new 8192).run ⟨w.kmem, [false, false, false, true]⟩ = .ok (false, t) ∧
      t.kmem = w'.kmem ∧ RolledBack new w w') ∧
    ∃ t w', (uvmcopy old new 8192).run ⟨w.kmem, []⟩ = .ok (true, t) ∧ t.kmem = w'.kmem ∧
      Duplicated old new 8192 w w' := by
  obtain ⟨⟨⟨old, new⟩, t⟩, hrun, hne, ⟨t₁, halloc, -⟩, ⟨t₂, hfail, -⟩, t₃, hcopy, -⟩ :
      ∃ x, twoSpaces.run ⟨somePages, []⟩ = .ok x ∧ x.1.2 ≠ 0 ∧
      (∃ t, (uvmalloc x.1.1 8192 20000 PTE_W).run ⟨x.2.kmem, [false, true]⟩ = .ok (0, t) ∧ True) ∧
      (∃ t, (uvmcopy x.1.1 x.1.2 8192).run ⟨x.2.kmem, [false, false, false, true]⟩ =
        .ok (false, t) ∧ True) ∧
      ∃ t, (uvmcopy x.1.1 x.1.2 8192).run ⟨x.2.kmem, []⟩ = .ok (true, t) ∧ True := by
    decide +kernel
  have hplain : (Store.ofFree somePages_free).Plain := fun r h => by
    simp [Store.IsRoot, Store.ofFree] at h
  obtain ⟨w, hw, h⟩ := (twoSpaces_spec hplain []).elim hrun
  obtain ⟨hplain', hold, hnew⟩ := h hne
  rw [hw] at halloc hfail hcopy
  have hroll := growth_rolls_back hplain'.freeUnmapped
  obtain ⟨w₁, hw₁, h₁, -⟩ := (hroll.1 old 8192 20000 PTE_W 0 0 hold (by decide) (by decide)
    (by decide) _).elim halloc
  obtain ⟨w₂, hw₂, h₂, -⟩ := (hroll.2 old new 2 0 8192 0 0 0 0 _ hold hnew).of_run hfail
  obtain ⟨w₃, hw₃, -, h₃⟩ := (hroll.2 old new 2 0 8192 0 0 0 0 _ hold hnew).of_run hcopy
  exact ⟨w, old, new, hold, hnew, ⟨t₁, w₁, halloc, hw₁, h₁ rfl⟩, ⟨t₂, w₂, hfail, hw₂, h₂ rfl⟩,
    t₃, w₃, hcopy, hw₃, h₃ rfl⟩

end Copy

end Vm

end Xv6
