import Xv6.Vm.Store

/-!
# Address spaces

A `Space` maps a number of pages from virtual address 0 on, and nothing else but the trampoline and
the trapframe. The functions of `kernel/vm.c` that work on whole address spaces keep them in this
form, and leave all other address spaces alone, also when `kalloc` fails on the way.

Nothing in the code keeps an address space from growing into the trapframe. It cannot, since every
page of it is a page of physical memory of its own, and there are not that many.
-/

namespace Xv6.Vm

/-- The number of pages that `sz` bytes take. -/
def pages (sz : ℕ) : ℕ := (sz + 4095) / 4096

theorem pages_mul (n : ℕ) : pages (n * PGSIZE) = n := by
  change (n * 4096 + 4095) / 4096 = n
  omega

theorem pgroundup_eq {sz : ℕ} (h : pages sz ≤ PHYSTOPPG) : pgroundup sz = pages sz * PGSIZE := by
  have h' : (sz + 4095) / 4096 ≤ 0x88000 := h
  change (sz + 4096 - 1) % 2 ^ 64 / 4096 * 4096 = (sz + 4095) / 4096 * 4096
  omega

/-- The address space with root `r` maps the pages below `n` for the user; the entries for trapframe
and trampoline are `tf` and `tr`, and these two pages are not for the user. -/
structure Space (w : Store) (r n : ℕ) (tf tr : Word) : Prop where
  root : w.IsRoot r
  frame : w.pte r trapframeVpn = tf
  tramp : w.pte r trampolineVpn = tr
  user : ∀ v < vpnLimit, IsUser v → (w.pte r v ≠ 0 ↔ v < n)
  tf_kernel : tf &&& PTE_U = 0
  tr_kernel : tr &&& PTE_U = 0

/-- Everything outside the address space with root `r` is as it was. -/
structure Others (r : ℕ) (w w' : Store) : Prop where
  first : w'.kmem.first = w.kmem.first
  confined : Confined r [] [] w w'

theorem isUser_of_le {v : ℕ} (h : v ≤ PHYSTOPPG) : IsUser v := by
  have h' : v ≤ 0x88000 := h
  have h₁ : trampolineVpn = 2 ^ 26 - 1 := rfl
  have h₂ : trapframeVpn = 2 ^ 26 - 2 := rfl
  constructor <;> omega

theorem lt_vpnLimit {v : ℕ} (h : v ≤ PHYSTOPPG) : v < vpnLimit :=
  lt_of_le_of_lt h (by decide)

namespace Space

variable {w w' : Store} {r n : ℕ} {tf tr : Word}

theorem congr (h : Space w r n tf tr) (hroot : w'.IsRoot r)
    (hpte : ∀ v < vpnLimit, w'.pte r v = w.pte r v) : Space w' r n tf tr where
  root := hroot
  frame := (hpte _ (by decide)).trans h.frame
  tramp := (hpte _ (by decide)).trans h.tramp
  user v hv hu := by rw [hpte v hv, h.user v hv hu]
  tf_kernel := h.tf_kernel
  tr_kernel := h.tr_kernel

theorem of_grows (h : Space w r n tf tr) (hg : Grows w w') : Space w' r n tf tr :=
  h.congr (hg.isRoot h.root) fun v hv => hg.pte r v h.root hv

/-- The page that is mapped at a virtual page of the user. -/
theorem use (h : Space w r n tf tr) {v : ℕ} (hv : v < n) (hv' : v ≤ PHYSTOPPG) :
    w.use (pte2pa (w.pte r v)) = .user r v := by
  have hne := (h.user v (lt_vpnLimit hv') (isUser_of_le hv')).2 hv
  exact ((Store.pte_ok h.root (lt_vpnLimit hv')).resolve_left hne).2 (isUser_of_le hv')

/-- **An address space is not larger than physical memory.** -/
theorem le (h : Space w r n tf tr) : n ≤ PHYSTOPPG := by
  by_contra hn
  have hlt (v : Fin (PHYSTOPPG + 1)) : (v : ℕ) < n := by
    have := v.isLt
    omega
  have huse (v : Fin (PHYSTOPPG + 1)) := h.use (hlt v) (Nat.lt_succ_iff.1 v.isLt)
  let f (v : Fin (PHYSTOPPG + 1)) : Fin PHYSTOPPG :=
    ⟨pte2pa (w.pte r v), (w.tidy.range _ (by rw [huse v]; simp)).2⟩
  have hf : Function.Injective f := by
    intro v v' he
    have he' : pte2pa (w.pte r v) = pte2pa (w.pte r v') := congrArg Fin.val he
    have := huse v
    rw [he', huse v'] at this
    exact Fin.ext (by simpa using this.symm)
  have := Fintype.card_le_of_injective f hf
  rw [Fintype.card_fin, Fintype.card_fin] at this
  omega

end Space

namespace Others

variable {w w' w'' : Store} {r n : ℕ} {tf tr : Word}

theorem refl (r : ℕ) (w : Store) : Others r w w := ⟨rfl, .refl r [] w⟩

theorem trans (h : Others r w w') (h' : Others r w' w'') : Others r w w'' :=
  ⟨h'.first.trans h.first, h.confined.trans h'.confined⟩

theorem keep (h : Others r w w') (p : ℕ) (hp : p ∉ w.list) (hu : ¬ (w.use p).Of r) :
    p ∉ w'.list ∧ w'.use p = w.use p :=
  ⟨h.confined.notMem (Store.not_owns hp hu), (h.confined.same p (Store.not_owns hp hu)).1⟩

variable {p r' : ℕ}

theorem mem (h : Others r w w') (hp : p ∉ w.list) (hu : ¬ (w.use p).Of r) :
    w'.kmem.mem p = w.kmem.mem p :=
  (h.confined.same p (Store.not_owns hp hu)).2

/-- No page gets into another address space. -/
theorem use_eq (h : Others r w w') (hp : p ∉ w'.list) (hu : ¬ (w'.use p).Of r) :
    p ∉ w.list ∧ w'.use p = w.use p := by
  have ho : ¬ w.Owns r [] p := fun ho => Store.not_owns hp hu ((h.confined.owns p).2 ho)
  exact ⟨fun hl => ho (.inl hl), (h.confined.same p ho).1⟩

/-- Another address space has the pages that it had. -/
theorem of_iff (h : Others r w w') (hne : r' ≠ r) :
    (w'.use p).Of r' ↔ (w.use p).Of r' := by
  constructor
  · intro hof
    have hl : p ∉ w'.list := w'.tidy.notMem fun h₀ => by
      rw [h₀] at hof
      exact hof
    rwa [← (h.use_eq hl fun hr => hne (hof.root_eq hr)).2]
  · intro hof
    have hl : p ∉ w.list := w.tidy.notMem fun h₀ => by
      rw [h₀] at hof
      exact hof
    rwa [(h.keep p hl fun hr => hne (hof.root_eq hr)).2]

theorem isRoot (h : Others r w w') (hr : w.IsRoot r') (hne : r' ≠ r) : w'.IsRoot r' := by
  have hu : w.use r' ≠ .none := by
    rw [hr]
    simp
  rw [Store.IsRoot, (h.keep r' (w.tidy.notMem hu) (by rw [hr]; exact hne)).2, hr]

/-- Other address spaces map what they did. -/
theorem pte (h : Others r w w') (r' v : ℕ) (hr : w.IsRoot r') (hne : r' ≠ r) (hv : v < vpnLimit) :
    w'.pte r' v = w.pte r' v := by
  refine Grows.pte_congr hr (h.isRoot hr hne) hv (fun p hp => ?_) fun p hp => .inl ?_
  · have hl := w.tidy.notMem (p := p) (by simp [hp])
    have hu : ¬ (w.use p).Of r := by
      rw [hp]
      exact hne
    exact ⟨(h.keep p hl hu).2.trans hp, h.mem hl hu⟩
  · have hu : ¬ (w'.use p).Of r := by
      rw [hp]
      exact hne
    exact (h.use_eq (w'.tidy.notMem (by simp [hp])) hu).2.symm.trans hp

theorem of_grows (h : Grows w w') (hc : Confined r [] [] w w') : Others r w w' := ⟨h.first, hc⟩

theorem of_unmaps {lo : ℕ} (h : Unmaps r lo n w w') : Others r w w' := ⟨h.first, h.confined⟩

/-- Other address spaces are not concerned. -/
theorem space (h : Others r w w') (hs : Space w r' n tf tr) (hne : r' ≠ r) :
    Space w' r' n tf tr :=
  hs.congr (h.isRoot hs.root hne) fun v hv => h.pte r' v hs.root hne hv

end Others

/-- The address space with root `r` gets `n` pages. The pages that it keeps are mapped as before and
have the contents that they had, and everything outside is as it was. -/
structure Resizes (r n : ℕ) (tf tr : Word) (w w' : Store) : Prop where
  others : Others r w w'
  space : Space w' r n tf tr
  pte : ∀ v < n, w.pte r v ≠ 0 → w'.pte r v = w.pte r v
  data : ∀ v < n, w.pte r v ≠ 0 →
    w'.kmem.mem (pte2pa (w.pte r v)) = w.kmem.mem (pte2pa (w.pte r v))

namespace Resizes

variable {w w' w'' : Store} {r n n' : ℕ} {tf tr : Word}

theorem refl (h : Space w r n tf tr) : Resizes r n tf tr w w :=
  ⟨.refl r w, h, fun _ _ _ => rfl, fun _ _ _ => rfl⟩

theorem trans (h : Resizes r n tf tr w w') (h' : Resizes r n' tf tr w' w'')
    (hn : ∀ v < n', w.pte r v ≠ 0 → v < n) : Resizes r n' tf tr w w'' where
  others := h.others.trans h'.others
  space := h'.space
  pte v hv hm := by
    have h₁ := h.pte v (hn v hv hm) hm
    rw [h'.pte v hv (by rwa [h₁]), h₁]
  data v hv hm := by
    have h₁ := h.pte v (hn v hv hm) hm
    have h₂ := h'.data v hv (by rwa [h₁])
    rw [h₁] at h₂
    rw [h₂, h.data v (hn v hv hm) hm]

/-- The pages of the user are neither free nor page-table pages. -/
theorem data_of_still {v : ℕ} (hs : Space w r n tf tr) (h : Still w w') (hv : v ≤ PHYSTOPPG)
    (hm : w.pte r v ≠ 0) : w'.kmem.mem (pte2pa (w.pte r v)) = w.kmem.mem (pte2pa (w.pte r v)) := by
  have hu := hs.use ((hs.user v (lt_vpnLimit hv) (isUser_of_le hv)).1 hm) hv
  refine h _ (w.tidy.notMem ?_) ?_
  · rw [hu]
    simp
  · rw [hu]
    exact fun h => h

/-- Nothing is kept of an address space without pages. -/
theorem of_empty (hs : Space w r 0 tf tr) (ho : Others r w w') (hs' : Space w' r n tf tr) :
    Resizes r n tf tr w w' := by
  have hnone (v : ℕ) (hv : v < n) (hm : w.pte r v ≠ 0) : False := by
    have hle := hv.le.trans hs'.le
    exact Nat.not_lt_zero v ((hs.user v (lt_vpnLimit hle) (isUser_of_le hle)).1 hm)
  exact ⟨ho, hs', fun v hv hm => (hnone v hv hm).elim, fun v hv hm => (hnone v hv hm).elim⟩

/-- Page-table pages may be added. -/
theorem of_grows (hs : Space w r n tf tr) (h : Grows w w') (hc : Confined r [] [] w w')
    (hst : Still w w') : Resizes r n tf tr w w' where
  others := .of_grows h hc
  space := hs.of_grows h
  pte v hv _ := h.pte r v hs.root (lt_vpnLimit (hv.le.trans hs.le))
  data _ hv hm := data_of_still hs hst (hv.le.trans hs.le) hm

/-- The pages from `lo` on are unmapped. -/
theorem of_unmaps {lo k : ℕ} (hs : Space w r (lo + k) tf tr) (h : Unmaps r lo k w w') :
    Resizes r lo tf tr w w' := by
  have hle := hs.le
  have hne (v : ℕ) (hv : ¬ IsUser v) : ¬ (r = r ∧ lo ≤ v ∧ v < lo + k) := fun h =>
    hv (isUser_of_le (h.2.2.le.trans hle))
  refine ⟨.of_unmaps h, ⟨h.isRoot hs.root, ?_, ?_, fun v hv hu => ?_, hs.tf_kernel, hs.tr_kernel⟩,
    fun v hv hm => ?_, fun v hv hm => ?_⟩
  · rw [h.pte r _ hs.root (by decide), if_neg (hne _ fun h => h.2 rfl), hs.frame]
  · rw [h.pte r _ hs.root (by decide), if_neg (hne _ fun h => h.1 rfl), hs.tramp]
  · rw [h.pte r v hs.root hv]
    have := hs.user v hv hu
    split_ifs with hin
    · simpa using hin.2.1
    · rw [this]
      omega
  · rw [h.pte r v hs.root (lt_vpnLimit (by omega)), if_neg (by omega)]
  · have hu := hs.use (v := v) (by omega) (by omega)
    have hkeep := h.keep _ (w.tidy.notMem (by rw [hu]; simp)) fun v' h₁ h₂ hu' => by
      rw [hu, Use.user.injEq] at hu'
      omega
    exact h.data _ hkeep.1 (by rw [hu]; exact fun h => h)

/-- The first page that is not mapped is mapped. -/
theorem of_maps {q : ℕ} {e : Word} (hs : Space w r n tf tr) (hg : Grows w w') (hq : q ∈ w.list)
    (hc : Confined r [] [q] w w') (h : Maps r n q e w' w'') (he : e ≠ 0) (hst : Still w w'') :
    Resizes r (n + 1) tf tr w w'' := by
  have hle := hs.le
  have hroot := hg.isRoot hs.root
  have hkeep (v : ℕ) (hv : v < vpnLimit) (hne : v ≠ n) : w''.pte r v = w.pte r v := by
    rw [h.pte r v hroot hv, if_neg fun h => hne h.2, hg.pte r v hs.root hv]
  have hne (v : ℕ) (hv : ¬ IsUser v) : v ≠ n := by
    rintro rfl
    exact hv (isUser_of_le hle)
  have hothers : Others r w w'' :=
    ⟨h.first.trans hg.first, hc.trans (h.user (isUser_of_le hle))⟩
  refine ⟨hothers, ⟨?_, ?_, ?_, fun v hv hu => ?_, hs.tf_kernel, hs.tr_kernel⟩, fun v hv hm => ?_,
    fun v hv hm => data_of_still hs hst (by omega) hm⟩
  · have hr : w'.use r ≠ .none := by
      rw [hroot]
      simp
    have hrq (_ : IsUser n) : r ≠ q := by
      rintro rfl
      exact w.tidy.notMem (by rw [hs.root]; simp) hq
    rw [Store.IsRoot, (h.keep r (w'.tidy.notMem hr) hrq).2, hroot]
  · rw [hkeep _ (by decide) (hne _ fun h => h.2 rfl), hs.frame]
  · rw [hkeep _ (by decide) (hne _ fun h => h.1 rfl), hs.tramp]
  · by_cases hvn : v = n
    · rw [h.pte r v hroot hv, if_pos ⟨rfl, hvn⟩]
      exact iff_of_true he (by omega)
    · rw [hkeep v hv hvn, hs.user v hv hu]
      omega
  · refine hkeep v (lt_vpnLimit (by omega)) ?_
    rintro rfl
    have := (hs.user v (lt_vpnLimit (by omega)) (isUser_of_le hle)).1 hm
    omega

end Resizes

/-! ### Growing and shrinking -/

section Resize

variable {w : Store} {r n : ℕ} {tf tr : Word}

/-- The last pages are unmapped and freed. -/
theorem uvmunmap_space {lo k : ℕ} (hs : Space w r (lo + k) tf tr) :
    Does w (uvmunmap r (lo * PGSIZE) k true) fun _ w' => Resizes r lo tf tr w w' ∧
      ∀ v, lo ≤ v → v < lo + k → pte2pa (w.pte r v) ∈ w'.list := by
  have hle : lo + k ≤ 0x88000 := hs.le
  refine (uvmunmap_spec hs.root ?_ (fun v _ hv => ?_) fun v _ hv => ?_).mono fun _ w' h =>
    ⟨.of_unmaps hs h, fun v h₁ h₂ => h.freed v h₁ h₂ (isUser_of_le (by change v ≤ 0x88000; omega))⟩
  · change (lo + k) * 4096 ≤ 2 ^ 38
    omega
  · exact (hs.user v (lt_vpnLimit (by change v ≤ 0x88000; omega))
      (isUser_of_le (by change v ≤ 0x88000; omega))).2 hv
  · exact iff_of_true rfl (isUser_of_le (by change v ≤ 0x88000; omega))

variable {old new q base : ℕ}

theorem uvmdealloc_spec (hs : Space w r (pages old) tf tr) :
    Does w (uvmdealloc r old new) fun sz w' =>
      sz = min old new ∧ Resizes r (pages sz) tf tr w w' ∧
        ∀ v, pages sz ≤ v → v < pages old → pte2pa (w.pte r v) ∈ w'.list := by
  rw [uvmdealloc]
  by_cases hle : old ≤ new
  · rw [if_pos hle]
    exact .pure ⟨(min_eq_left hle).symm, .refl hs, fun v h₁ h₂ => by omega⟩
  rw [if_neg hle]
  push Not at hle
  have hold := hs.le
  have hpages : pages new ≤ pages old := Nat.div_le_div_right (by omega)
  rw [pgroundup_eq hold, pgroundup_eq (hpages.trans hold)]
  have hmin : new = min old new := (min_eq_right hle.le).symm
  split_ifs with hlt
  · obtain ⟨k, hk⟩ := Nat.exists_eq_add_of_le hpages
    have hn : (pages old * PGSIZE - pages new * PGSIZE) / PGSIZE = k := by
      rw [← Nat.mul_sub_right_distrib, Nat.mul_div_cancel _ (by decide), hk,
        Nat.add_sub_cancel_left]
    have hk' : k < 2 ^ 31 := by
      have : pages old ≤ 0x88000 := hold
      omega
    have hint : intToU64 (wrapInt ((k : ℕ) : ℤ)) = k := by
      rw [wrapInt_of_lt (by omega) (by omega), intToU64]
      omega
    dsimp only
    rw [hn, hint]
    rw [hk] at hs
    exact (uvmunmap_space hs).bind fun _ w' ⟨h, hfreed⟩ =>
      .pure ⟨hmin, h, fun v h₁ h₂ => hfreed v h₁ (by omega)⟩
  · have heq : pages new = pages old := by
      refine le_antisymm hpages ?_
      exact Nat.le_of_mul_le_mul_right (not_lt.1 hlt) (by decide : 0 < PGSIZE)
    exact .pure ⟨hmin, heq ▸ .refl hs, fun v h₁ h₂ => by omega⟩

/-- A page that has been taken from the free list is given back. -/
theorem kfree_grows {w' : Store} (hg : Grows w w') (hc : Confined r [] [q] w w')
    (hst : Still w w') (hq : q ∈ w.list) (hr : w'.Reserved q) :
    Does w' (kfree q) fun _ w'' => Grows w w'' ∧ Confined r [] [] w w'' ∧ Still w w'' := by
  have ht : ¬ (w'.use q).IsTable := by simp [hr.use, Use.IsTable]
  refine (kfree_spec ht hr.notMem hr.range fun _ _ => by simp [hr.use]).mono ?_
  rintro - w'' ⟨hfirst, hkeep, hc', hmem, hpte⟩
  refine ⟨⟨hfirst.trans hg.first, fun p hp => ?_, fun r v hroot hv => ?_⟩, hc.trans (hc' r),
    fun p hp ht => ?_⟩
  · obtain ⟨hp', hu⟩ := hg.keep p hp
    obtain ⟨hp'', hu'⟩ := hkeep p hp' fun he => hp (he ▸ hq)
    exact ⟨hp'', hu'.trans hu⟩
  · rw [hpte r v (hg.isRoot hroot) hv, hg.pte r v hroot hv]
  · rw [hmem p fun he => hp (he ▸ hq), hst p hp ht]

/-- A page that has been allocated is filled. -/
theorem fillPage_spec (pg : Page) {w₁ : Store} (hg : Grows w w₁)
    (hc : Confined r [] [q] w w₁) (hst : Still w w₁) (hq : q ∈ w.list) (hres : w₁.Reserved q) :
    Does w₁ (writePage q pg) fun _ w₂ => Grows w w₂ ∧ Confined r [] [q] w w₂ ∧ Still w w₂ ∧
      w₂.Reserved q ∧ w₂.kmem.mem q = pg ∧ Grows w₁ w₂ ∧ Confined r [q] [q] w₁ w₂ := by
  refine (writePage_spec hres.notMem (by simp [hres.use, Use.IsTable]) pg).mono ?_
  rintro - w₂ ⟨hg₂, hkmem, huse, hlist⟩
  have hc₂ : Confined r [q] [q] w₁ w₂ :=
    .of_write (.inr (.inr List.mem_cons_self)) hkmem huse hlist
  refine ⟨hg.trans hg₂, hc.trans hc₂, fun p hp ht => ?_, hg₂.reserved hres, ?_, hg₂, hc₂⟩
  · have hpq : p ≠ q := fun he => hp (he ▸ hq)
    rw [hkmem, Kmem.write_mem_of_ne _ _ hpq, hst p hp ht]
  · rw [hkmem, Kmem.write_mem_self]

/-- A page is allocated, filled, and mapped after the last one. -/
theorem growPage_spec (perm : Word) (pg : Page) (hs : Space w r n tf tr) (hf : IsFlags perm)
    (hr : perm &&& PTE_R ≠ 0) {w₁ : Store} (hg : Grows w w₁) (hc : Confined r [] [q] w w₁)
    (hst : Still w w₁) (hq : q ∈ w.list) (hres : w₁.Reserved q) :
    Does w₁ (writePage q pg >>= fun _ => mappages r (n * PGSIZE) PGSIZE q perm) fun ok w₂ =>
      Still w w₂ ∧
      if ok then Maps r n q (pa2pte q ||| perm ||| PTE_V) w₁ w₂ ∧ w₂.kmem.mem q = pg
      else Grows w w₂ ∧ Confined r [] [q] w w₂ ∧ w₂.Reserved q := by
  have hle : n ≤ 0x88000 := hs.le
  refine (fillPage_spec pg hg hc hst hq hres).bind ?_
  rintro - w₂ ⟨hg', hc', hst₂, hres₂, hpg, hg₂, hc₂⟩
  have hcan : CanMap w₂ r n q perm := by
    refine ⟨hg'.isRoot hs.root, ?_, ?_, fun _ => hres₂, ?_, hf, hr⟩
    · change n * 4096 < 2 ^ 38
      omega
    · rw [hg'.pte r n hs.root (lt_vpnLimit hle)]
      by_contra hne
      exact lt_irrefl n ((hs.user n (lt_vpnLimit hle) (isUser_of_le hle)).1 hne)
    · have : q < 0x88000 := hres.range.2
      omega
  refine (mappages_spec hcan).mono fun ok w₃ ⟨hst₃, h⟩ => ⟨hst₂.trans hg' hst₃, ?_⟩
  split_ifs at h with hok
  · rw [if_pos hok]
    refine ⟨h.of_grows hg₂ (fun _ => hc₂) fun hu => absurd (isUser_of_le hle) hu, ?_⟩
    rw [hst₃ q hres₂.notMem (by simp [hres₂.use, Use.IsTable]), hpg]
  · rw [if_neg hok]
    exact ⟨hg'.trans h.1, hc'.trans (h.2.frame [q]), h.1.reserved hres₂⟩

/-- What has been mapped since `base` is unmapped again when there is no more memory. -/
theorem undo_spec {w' : Store} (h : Resizes r n tf tr w w') (hbase : base ≤ n) :
    Does w' (uvmdealloc r (n * PGSIZE) (base * PGSIZE) >>= fun _ => pure false) fun ok w'' =>
      ok = false ∧ Resizes r base tf tr w w'' := by
  have hs := h.space
  rw [← pages_mul n] at hs
  refine (uvmdealloc_spec hs).bind ?_
  rintro sz w'' ⟨rfl, h', -⟩
  rw [min_eq_right (Nat.mul_le_mul_right _ hbase), pages_mul] at h'
  exact .pure ⟨rfl, h.trans h' fun v hv _ => hv.trans_le hbase⟩

/-- The page from `kalloc` was free. -/
theorem still_of_kalloc {w' : Store} (hq : q ∈ w.list)
    (hmem : ∀ p ≠ q, w'.kmem.mem p = w.kmem.mem p) : Still w w' :=
  fun p hp _ => hmem p fun he => hp (he ▸ hq)

theorem allocPages_spec {m : ℕ} {xperm : Word} (hs : Space w r n tf tr) (hbase : base ≤ n)
    (hf : IsFlags xperm) :
    Does w (allocPages r (base * PGSIZE) xperm m (n * PGSIZE)) fun ok w' =>
      if ok then Resizes r (n + m) tf tr w w' ∧
        ∀ v, n ≤ v → v < n + m → w'.pte r v &&& PTE_U ≠ 0 ∧
        w'.kmem.mem (pte2pa (w'.pte r v)) = fill 0
      else Resizes r base tf tr w w' := by
  have hflags : IsFlags (PTE_R ||| PTE_U ||| xperm) := IsFlags.or (by decide) hf
  have hread : (PTE_R ||| PTE_U ||| xperm) &&& PTE_R ≠ 0 := or_and_ne_zero _ (by decide)
  have huser (q : ℕ) : (pa2pte q ||| (PTE_R ||| PTE_U ||| xperm) ||| PTE_V) &&& PTE_U ≠ 0 := by
    rw [BitVec.or_assoc, pa2pte_or_and q _ (by decide)]
    exact or_and_ne_zero _ (or_and_ne_zero _ (by decide))
  induction m generalizing w n with
  | zero => exact .pure ⟨.refl hs, fun v h₁ h₂ => by omega⟩
  | succ m ih =>
    have hle := hs.le
    rw [allocPages]
    refine kalloc_spec.bind fun q w₁ ⟨hg, hsame, hq⟩ => ?_
    by_cases h₀ : q = 0
    · rw [if_pos h₀, hsame h₀]
      refine (undo_spec (.refl hs) hbase).mono ?_
      rintro - w' ⟨rfl, h⟩
      exact h
    rw [if_neg h₀, ← bind_assoc]
    obtain ⟨hmem, hres, hc, -, hsame'⟩ := hq h₀
    have hst := still_of_kalloc hmem hsame'
    refine (growPage_spec _ _ hs hflags hread hg (hc r) hst hmem hres).bind ?_
    rintro (_ | _) w₂ ⟨hst₂, h⟩
    · -- `mappages` has failed
      obtain ⟨hg₂, hc₂, hres₂⟩ := h
      refine (kfree_grows hg₂ hc₂ hst₂ hmem hres₂).bind fun _ w₃ ⟨hg₃, hc₃, hst₃⟩ => ?_
      refine (undo_spec (.of_grows hs hg₃ hc₃ hst₃) hbase).mono ?_
      rintro - w' ⟨rfl, h⟩
      exact h
    · obtain ⟨h, hzero⟩ : Maps r n q _ w₁ w₂ ∧ w₂.kmem.mem q = fill 0 := h
      have h₁ : Resizes r (n + 1) tf tr w w₂ :=
        .of_maps hs hg hmem (hc r) h (isLeaf_mk q hread).ne_zero hst₂
      have hpte : w₂.pte r n = pa2pte q ||| (PTE_R ||| PTE_U ||| xperm) ||| PTE_V := by
        rw [h.pte r n (hg.isRoot hs.root) (lt_vpnLimit hle), if_pos ⟨rfl, rfl⟩]
      have hlt : q < 2 ^ 44 := by
        have : q < 0x88000 := hres.range.2
        omega
      have hnew : w₂.pte r n &&& PTE_U ≠ 0 := by
        rw [hpte]
        exact huser q
      have hfill : w₂.kmem.mem (pte2pa (w₂.pte r n)) = fill 0 := by
        rw [hpte, pte2pa_leaf hlt hflags, hzero]
      have hnext : n * PGSIZE + PGSIZE = (n + 1) * PGSIZE := (Nat.succ_mul n PGSIZE).symm
      rw [if_pos rfl, hnext]
      have hold (v : ℕ) (hv : v < vpnLimit) (hu : IsUser v) (hm : w.pte r v ≠ 0) : v < n + 1 :=
        ((hs.user v hv hu).1 hm).trans (Nat.lt_succ_self n)
      refine (ih h₁.space (by omega)).mono ?_
      rintro (_ | _) w₃ h₃
      · exact h₁.trans h₃ fun v hv hm => by omega
      · have hle' := h₃.1.space.le
        rw [show n + 1 + m = n + (m + 1) by omega] at h₃ hle'
        refine ⟨h₁.trans h₃.1 fun v hv hm => ?_, fun v hv hv' => ?_⟩
        · have hv' : v ≤ PHYSTOPPG := by omega
          exact hold v (lt_vpnLimit hv') (isUser_of_le hv') hm
        · by_cases hvn : v = n
          · subst hvn
            have hne : w₂.pte r v ≠ 0 := fun h => hnew (by rw [h]; rfl)
            rw [h₃.1.pte v hv' hne, h₃.1.data v hv' hne]
            exact ⟨hnew, hfill⟩
          · exact h₃.2 v (by omega) hv'

theorem uvmalloc_spec {xperm : Word} (hs : Space w r (pages old) tf tr)
    (hf : IsFlags xperm) :
    Does w (uvmalloc r old new xperm) fun sz w' =>
      sz = max old new ∧ Resizes r (pages sz) tf tr w w' ∧
          (∀ v, pages old ≤ v → v < pages sz → w'.pte r v &&& PTE_U ≠ 0 ∧
            w'.kmem.mem (pte2pa (w'.pte r v)) = fill 0) ∨
        sz = 0 ∧ Resizes r (pages old) tf tr w w' := by
  rw [uvmalloc]
  by_cases hlt : new < old
  · rw [if_pos hlt]
    exact .pure (.inl ⟨(max_eq_left hlt.le).symm, .refl hs, fun v h₁ h₂ => by omega⟩)
  rw [if_neg hlt]
  push Not at hlt
  have hold := hs.le
  rw [pgroundup_eq hold]
  dsimp only
  have hm : pages old + (new - pages old * PGSIZE + PGSIZE - 1) / PGSIZE = pages new := by
    change (old + 4095) / 4096 + (new - (old + 4095) / 4096 * 4096 + 4096 - 1) / 4096 =
      (new + 4095) / 4096
    omega
  refine (allocPages_spec hs le_rfl hf).bind ?_
  rw [hm]
  rintro (_ | _) w' h
  · exact .pure (.inr ⟨rfl, h⟩)
  · exact .pure (.inl ⟨(max_eq_right hlt).symm, h⟩)

end Resize

/-! ### Copying -/

section Copy

variable {w : Store} {r n : ℕ} {tf tr : Word}

/-- All pages are unmapped and freed. -/
theorem unmapAll_spec {w' : Store} (h : Resizes r n tf tr w w') :
    Does w' (uvmunmap r 0 (n * PGSIZE / PGSIZE) true >>= fun _ => pure false) fun ok w'' =>
      ok = false ∧ Resizes r 0 tf tr w w'' := by
  have hs := h.space
  rw [← Nat.zero_add n] at hs
  have hunmap := uvmunmap_space hs
  rw [Nat.zero_mul] at hunmap
  rw [Nat.mul_div_cancel n (by decide)]
  exact hunmap.bind fun _ w'' ⟨h', _⟩ => .pure ⟨rfl, h.trans h' fun v hv _ => by omega⟩

/-- Virtual page `v` of `new` is a copy of the one of `old`, with the same flags, in a page that was
free. -/
structure Copied (old new v : ℕ) (w w' : Store) : Prop where
  fresh : pte2pa (w'.pte new v) ∈ w.list
  flags : pteFlags (w'.pte new v) = pteFlags (w.pte old v)
  data : w'.kmem.mem (pte2pa (w'.pte new v)) = w.kmem.mem (pte2pa (w.pte old v))

variable {old new v : ℕ}

/-- Page `q`, which was free, has been mapped with the contents and the flags of a page of `old`. -/
theorem Copied.of_maps {q : ℕ} {w' w'' : Store} {e : Word} (hroot : w'.IsRoot new)
    (hv : v < vpnLimit) (hleaf : IsLeaf e) (hq : q ∈ w.list) (hlt : q < 2 ^ 44)
    (he : w.pte old v = e)
    (h : Maps new v q (pa2pte q ||| pteFlags e ||| PTE_V) w' w'')
    (hdata : w''.kmem.mem q = w.kmem.mem (pte2pa e)) : Copied old new v w w'' := by
  have hpte : w''.pte new v = pa2pte q ||| pteFlags e ||| PTE_V := by
    rw [h.pte new v hroot hv, if_pos ⟨rfl, rfl⟩]
  have hflags := isFlags_pteFlags e
  have hpa : pte2pa (w''.pte new v) = q := by rw [hpte, pte2pa_leaf hlt hflags]
  refine ⟨hpa ▸ hq, ?_, ?_⟩
  · rw [hpte, he, BitVec.or_assoc, pteFlags_pa2pte q (hflags.or (by decide)),
      pteFlags_or_valid hleaf.valid]
  · rw [hpa, hdata, he]

/-- The page of `new` is kept. -/
theorem Copied.later {w' w'' : Store} (h : Copied old new v w w')
    (hpte : w''.pte new v = w'.pte new v)
    (hdata : w''.kmem.mem (pte2pa (w'.pte new v)) = w'.kmem.mem (pte2pa (w'.pte new v))) :
    Copied old new v w w'' := by
  refine ⟨?_, ?_, ?_⟩
  · rw [hpte]
    exact h.fresh
  · rw [hpte]
    exact h.flags
  · rw [hpte, hdata]
    exact h.data

/-- Before, more pages were free, and the page of `old` was the same. -/
theorem Copied.earlier {w' w'' : Store} (h : Copied old new v w' w'')
    (hfree : ∀ p ∈ w'.list, p ∈ w.list) (hpte : w'.pte old v = w.pte old v)
    (hdata : w'.kmem.mem (pte2pa (w.pte old v)) = w.kmem.mem (pte2pa (w.pte old v))) :
    Copied old new v w w'' := by
  refine ⟨hfree _ h.fresh, ?_, ?_⟩
  · rw [h.flags, hpte]
  · rw [h.data, hpte, hdata]

theorem copyPages_spec {k m : ℕ} {tf' tr' : Word} (hold : Space w old n tf tr)
    (hnew : Space w new k tf' tr') (hne : old ≠ new) (hm : k + m ≤ n) :
    Does w (copyPages old new m (k * PGSIZE)) fun ok w' =>
      Resizes new (if ok then k + m else 0) tf' tr' w w' ∧
      (ok = true → ∀ v, k ≤ v → v < k + m → Copied old new v w w') := by
  induction m generalizing w k with
  | zero => exact .pure ⟨.refl hnew, fun _ v h₁ h₂ => by omega⟩
  | succ m ih =>
    have hle : n ≤ 0x88000 := hold.le
    have hk : k < vpnLimit := lt_vpnLimit (by change k ≤ 0x88000; omega)
    have hpte := (hold.user k hk (isUser_of_le (by change k ≤ 0x88000; omega))).2 (by omega)
    obtain ⟨hleaf, -⟩ := (Store.pte_ok hold.root hk).resolve_left hpte
    rw [copyPages]
    refine (walk_false hold.root (by change k * 4096 < 2 ^ 38; omega)).bind ?_
    rintro o w' ⟨rfl, ⟨p, rfl, hp⟩ | ⟨-, h₀⟩⟩
    swap
    · exact absurd h₀ hpte
    refine readPte_bind ?_
    rw [← Store.pte_of_table hold.root hk hp, if_neg hleaf.valid]
    refine kalloc_spec.bind fun q w₁ ⟨hg, hsame, hq⟩ => ?_
    by_cases h₀ : q = 0
    · rw [if_pos h₀, hsame h₀]
      refine (unmapAll_spec (.refl hnew)).mono ?_
      rintro - w'' ⟨rfl, h⟩
      exact ⟨h, nofun⟩
    rw [if_neg h₀]
    obtain ⟨hmem, hres, hc, -, hsame'⟩ := hq h₀
    have hst := still_of_kalloc hmem hsame'
    refine readPage_bind ?_
    rw [← bind_assoc]
    refine (growPage_spec _ _ hnew (isFlags_pteFlags _) hleaf.flags_readable hg (hc new) hst hmem
      hres).bind ?_
    rintro (_ | _) w₂ ⟨hst₂, h⟩
    · obtain ⟨hg₂, hc₂, hres₂⟩ := h
      refine (kfree_grows hg₂ hc₂ hst₂ hmem hres₂).bind fun _ w₃ ⟨hg₃, hc₃, hst₃⟩ => ?_
      refine (unmapAll_spec (.of_grows hnew hg₃ hc₃ hst₃)).mono ?_
      rintro - w'' ⟨rfl, h⟩
      exact ⟨h, nofun⟩
    · obtain ⟨h, hdata⟩ : Maps new k q _ w₁ w₂ ∧ w₂.kmem.mem q = _ := h
      have h₁ : Resizes new (k + 1) tf' tr' w' w₂ :=
        .of_maps hnew hg hmem (hc new) h (isLeaf_mk q hleaf.flags_readable).ne_zero hst₂
      have hnext : k * PGSIZE + PGSIZE = (k + 1) * PGSIZE := (Nat.succ_mul k PGSIZE).symm
      have huse := hold.use (v := k) (by omega) (by change k ≤ 0x88000; omega)
      have hcopied : Copied old new k w' w₂ := by
        have hlt : q < 0x88000 := hres.range.2
        refine .of_maps (hg.isRoot hnew.root) hk hleaf hmem (by omega) rfl h ?_
        rw [hdata]
        exact hst _ (w'.tidy.notMem (by rw [huse]; simp)) (by rw [huse]; exact fun h => h)
      rw [if_pos rfl, hnext]
      refine (ih (h₁.others.space hold hne) h₁.space (by omega)).mono fun ok w₃ ⟨h₃, hrest⟩ => ?_
      rw [show k + 1 + m = k + (m + 1) by omega] at h₃ hrest
      refine ⟨h₁.trans h₃ fun v hv hm => ?_, fun hok v hv hv' => ?_⟩
      · have hv' : v ≤ PHYSTOPPG := hv.le.trans h₃.space.le
        have := (hnew.user v (lt_vpnLimit hv') (isUser_of_le hv')).1 hm
        omega
      · rw [hok, if_pos rfl] at h₃
        by_cases hvk : v = k
        · subst hvk
          have hne : w₂.pte new v ≠ 0 :=
            (h₁.space.user v hk (Store.isUser (h₁.space.use (Nat.lt_succ_self v)
              (hv'.le.trans h₃.space.le)))).2 (Nat.lt_succ_self v)
          exact hcopied.later (h₃.pte v hv' hne) (h₃.data v hv' hne)
        · have hvold := hold.use (v := v) (by omega) (by change v ≤ 0x88000; omega)
          have hpte₂ := h₁.others.pte old v hold.root hne
            (lt_vpnLimit (by change v ≤ 0x88000; omega))
          refine (hrest hok v (by omega) hv').earlier (fun p hp => ?_) hpte₂
            (hst₂ _ (w'.tidy.notMem (by rw [hvold]; simp)) (by rw [hvold]; exact fun h => h))
          by_contra hp'
          have hpq : p ≠ q := fun he => hp' (he ▸ hmem)
          exact (h.keep p (hg.keep p hp').1 fun _ => hpq).1 hp

theorem uvmcopy_spec {sz : ℕ} {tf' tr' : Word} (hold : Space w old (pages sz) tf tr)
    (hnew : Space w new 0 tf' tr') (hne : old ≠ new) :
    Does w (uvmcopy old new sz) fun ok w' =>
      Resizes new (if ok then pages sz else 0) tf' tr' w w' ∧
      (ok = true → ∀ v < pages sz, Copied old new v w w') := by
  have h := copyPages_spec (m := pages sz) hold hnew hne (Nat.zero_add _).le
  rw [Nat.zero_mul, Nat.zero_add] at h
  exact h.mono fun ok w' ⟨hr, hcopied⟩ => ⟨hr, fun hok v hv => hcopied hok v (Nat.zero_le v) hv⟩

/-- `uvmclear` keeps the page from the user, but it stays mapped. -/
theorem uvmclear_spec (hs : Space w r n tf tr) (hv : v < n) :
    Does w (uvmclear r (v * PGSIZE)) fun _ w' => Others r w w' ∧ Space w' r n tf tr ∧
      ∀ v' < vpnLimit, w'.pte r v' = if v' = v then w.pte r v &&& ~~~PTE_U else w.pte r v' := by
  have hle : n ≤ 0x88000 := hs.le
  have hv' : v ≤ PHYSTOPPG := by
    change v ≤ 0x88000
    omega
  have hpte := (hs.user v (lt_vpnLimit hv') (isUser_of_le hv')).2 hv
  obtain ⟨hleaf, huse⟩ := (Store.pte_ok hs.root (lt_vpnLimit hv')).resolve_left hpte
  rw [uvmclear]
  refine (walk_false hs.root (by change v * 4096 < 2 ^ 38; omega)).bind ?_
  rintro o w' ⟨rfl, ⟨p, rfl, hp⟩ | ⟨-, h₀⟩⟩
  swap
  · exact absurd h₀ hpte
  refine readPte_bind ?_
  rw [← Store.pte_of_table hs.root (lt_vpnLimit hv') hp]
  refine (putPte_spec hp (.inr ⟨hleaf.clear, fun hu => by rw [pte2pa_clear, huse hu]⟩) fun x hx =>
    ⟨hleaf.clear.ne_zero, by
      rw [pte2pa_clear, (Store.pte_of_user hs.root (lt_vpnLimit hv') hx).2]⟩).mono ?_
  rintro - w₁ ⟨hfirst, huse₁, hlist₁, hc₁, -, hpte₁⟩
  have hkeep (v' : ℕ) (hlt : v' < vpnLimit) (hne : v' ≠ v) : w₁.pte r v' = w'.pte r v' := by
    rw [hpte₁ r v' hs.root hlt, if_neg fun h => hne h.2]
  have hne (v' : ℕ) (hu : ¬ IsUser v') : v' ≠ v := by
    rintro rfl
    exact hu (isUser_of_le hv')
  refine ⟨⟨hfirst, hc₁⟩, ⟨(congrFun huse₁ r).trans hs.root, ?_, ?_, fun v' hlt hu => ?_,
    hs.tf_kernel, hs.tr_kernel⟩, fun v' hlt => ?_⟩
  · rw [hkeep _ (by decide) (hne _ fun h => h.2 rfl), hs.frame]
  · rw [hkeep _ (by decide) (hne _ fun h => h.1 rfl), hs.tramp]
  · by_cases hvv : v' = v
    · rw [hpte₁ r v' hs.root hlt, if_pos ⟨rfl, hvv⟩]
      exact iff_of_true hleaf.clear.ne_zero (hvv ▸ hv)
    · rw [hkeep v' hlt hvv, hs.user v' hlt hu]
  · rw [hpte₁ r v' hs.root hlt]
    exact if_congr (and_iff_right rfl) rfl rfl

end Copy

end Xv6.Vm
