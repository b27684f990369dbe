import Xv6.Vm.Args
import Xv6.Vm.Copy
import Xv6.Vm.Freewalk

/-!
# The image that `exec` builds

`exec` builds the new image in a page table of its own. At every point at which it may give up, the
size that it has reached by then says which pages are mapped; this is what it passes to
`proc_freepagetable`. The segments are loaded into pages that have just been allocated for the user,
so that `loadseg` does not panic. The last two pages are the stack, which the user may use, and the
page below it, which it may not.
-/

namespace Xv6.Vm

/-- The user may use all pages below `n`. -/
def Accessible (w : Store) (r n : ℕ) : Prop := ∀ v < n, w.pte r v &&& PTE_U ≠ 0

section Image

variable {w : Store} {r n : ℕ} {tf tr : Word}

theorem Accessible.of_grows {w' : Store} (h : Accessible w r n) (hs : Space w r n tf tr)
    (hg : Grows w w') : Accessible w' r n := fun v hv => by
  rw [hg.pte r v hs.root (lt_vpnLimit (hv.le.trans hs.le))]
  exact h v hv

/-- What has been allocated is for the user, as what was there before. -/
theorem Accessible.of_resizes {w' : Store} {n' : ℕ} (h : Accessible w r n)
    (hr : Resizes r n' tf tr w w') (hnew : ∀ v, n ≤ v → v < n' → w'.pte r v &&& PTE_U ≠ 0) :
    Accessible w' r n' := fun v hv => by
  by_cases hvn : v < n
  · have hU := h v hvn
    rw [hr.pte v hv fun h₀ => hU (by rw [h₀]; rfl)]
    exact hU
  · exact hnew v (by omega) hv

theorem loadPages_spec (data : ℕ → Option (Page → Page)) {v i m : ℕ} (hs : Space w r n tf tr)
    (ha : Accessible w r n) (hn : v + i + m ≤ n) :
    Does w (loadPages r (v * PGSIZE) data m (i * PGSIZE)) fun _ w' =>
      Grows w w' ∧ Confined r [] [] w w' := by
  induction m generalizing w i with
  | zero => exact .pure ⟨.refl w, .refl r [] w⟩
  | succ m ih =>
    have hle : n ≤ 0x88000 := hs.le
    have hva : (v * PGSIZE + i * PGSIZE) % 2 ^ 64 = (v + i) * PGSIZE := by
      change (v * 4096 + i * 4096) % 2 ^ 64 = (v + i) * 4096
      omega
    have hnext : (i * PGSIZE + PGSIZE) % 2 ^ 32 = (i + 1) * PGSIZE := by
      rw [← Nat.succ_mul]
      exact Nat.mod_eq_of_lt (by change (i + 1) * 4096 < 2 ^ 32; omega)
    rw [loadPages, hva, hnext]
    refine (walkaddr_spec hs (v + i)).bind ?_
    rintro pa w' ⟨rfl, hcase⟩
    have hpage : w'.kmem.userPage r (v + i) = true := hs.userPage (by omega) (ha _ (by omega))
    obtain ⟨-, hne, -, huse⟩ := hcase.resolve_right fun h => by simp [hpage] at h
    rw [if_neg hne]
    cases data (i * PGSIZE) with
    | none => exact .pure ⟨.refl w', .refl r [] w'⟩
    | some f =>
      refine readPage_bind ((writeUser_spec huse _).bind fun _ w₁ ⟨hg, hc, _⟩ => ?_)
      refine (ih (hs.of_grows hg) (ha.of_grows hs hg) (by omega)).mono ?_
      exact fun _ w₂ ⟨hg₂, hc₂⟩ => ⟨hg.trans hg₂, hc.trans hc₂⟩

/-- `loadseg` fills pages of the user. -/
theorem loadseg_spec {data : ℕ → Option (Page → Page)} {v sz : ℕ} (hs : Space w r n tf tr)
    (ha : Accessible w r n) (hn : v + pages sz ≤ n) :
    Does w (loadseg r (v * PGSIZE) data sz) fun _ w' => Grows w w' ∧ Confined r [] [] w w' := by
  have h := loadPages_spec data (i := 0) (m := pages sz) hs ha (by omega)
  rw [Nat.zero_mul] at h
  exact h

theorem isFlags_flags2perm (flags : BitVec 32) : IsFlags (flags2perm flags) := by
  rw [flags2perm]
  refine .or ?_ ?_ <;> split_ifs <;> decide

theorem loadSegments_spec {phs : List (Option Segment)} (sz : ℕ)
    (hs : Space w r (pages sz) tf tr) (ha : Accessible w r (pages sz)) :
    Does w (loadSegments r phs sz) fun x w' =>
      Others r w w' ∧ Space w' r (pages x.2) tf tr := by
  induction phs generalizing w sz with
  | nil => exact .pure ⟨.refl r w, hs⟩
  | cons ph phs ih =>
    match ph with
    | none => exact .pure ⟨.refl r w, hs⟩
    | some ph =>
      rw [loadSegments]
      by_cases htype : ph.type ≠ 1
      · rw [if_pos htype]
        exact ih sz hs ha
      rw [if_neg htype]
      by_cases hmemsz : ph.memsz < ph.filesz
      · rw [if_pos hmemsz]
        exact .pure ⟨.refl r w, hs⟩
      rw [if_neg hmemsz]
      by_cases hwrap : ph.vaddr + ph.memsz < ph.vaddr
      · rw [if_pos hwrap]
        exact .pure ⟨.refl r w, hs⟩
      rw [if_neg hwrap]
      by_cases halign : ph.vaddr.toNat % PGSIZE ≠ 0
      · rw [if_pos halign]
        exact .pure ⟨.refl r w, hs⟩
      rw [if_neg halign]
      refine (uvmalloc_spec hs (isFlags_flags2perm _)).bind ?_
      rintro sz₁ w₁ (⟨hsz, h, hnew⟩ | ⟨rfl, h⟩)
      swap
      · rw [if_pos rfl]
        exact .pure ⟨h.others, h.space⟩
      by_cases h₀ : sz₁ = 0
      · -- nothing has been allocated then
        have hsz₀ : sz = 0 := by
          have := le_max_left sz (ph.vaddr + ph.memsz).toNat
          omega
        rw [if_pos h₀]
        exact .pure ⟨h.others, by simpa [h₀, hsz₀] using h.space⟩
      rw [if_neg h₀]
      have hv : ph.vaddr.toNat = ph.vaddr.toNat / PGSIZE * PGSIZE := by
        have h' : ¬ ph.vaddr.toNat % 4096 ≠ 0 := halign
        change _ = _ / 4096 * 4096
        omega
      have hfits : ph.vaddr.toNat / PGSIZE + pages (ph.filesz.toNat % 2 ^ 32) ≤ pages sz₁ := by
        have h₁ : ¬ ph.memsz.toNat < ph.filesz.toNat := hmemsz
        have h₂ : ¬ (ph.vaddr.toNat + ph.memsz.toNat) % 2 ^ 64 < ph.vaddr.toNat := by
          have h₂ : ¬ (ph.vaddr + ph.memsz).toNat < ph.vaddr.toNat := hwrap
          rwa [BitVec.toNat_add] at h₂
        have h₃ := le_max_right sz (ph.vaddr + ph.memsz).toNat
        rw [← hsz, BitVec.toNat_add] at h₃
        have h₄ := ph.vaddr.isLt
        have h₅ := ph.memsz.isLt
        have hv' : ph.vaddr.toNat = ph.vaddr.toNat / 4096 * 4096 := hv
        change ph.vaddr.toNat / 4096 + (ph.filesz.toNat % 2 ^ 32 + 4095) / 4096 ≤
          (sz₁ + 4095) / 4096
        omega
      rw [hv]
      have ha₁ := ha.of_resizes h fun v hv hv' => (hnew v hv hv').1
      refine (loadseg_spec h.space ha₁ hfits).bind ?_
      rintro ok w₂ ⟨hg, hc⟩
      have hs₂ := h.space.of_grows hg
      have ho₂ := h.others.trans (.of_grows hg hc)
      cases ok with
      | false => exact .pure ⟨ho₂, hs₂⟩
      | true =>
        refine (ih sz₁ hs₂ (ha₁.of_grows h.space hg)).mono ?_
        exact fun x w₃ hx => ⟨ho₂.trans hx.1, hx.2⟩

/-- The memory of the user ends with a page for its stack and a page below it that it may not
use. -/
structure Guarded (u : UserMem) (sz : ℕ) : Prop where
  stack : u.Stack (sz - PGSIZE)
  guard : u.mapped (sz / PGSIZE - 2) = false

theorem Space.guarded {k : ℕ} (hs : Space w r (k + 2) tf tr) (hU : w.pte r (k + 1) &&& PTE_U ≠ 0)
    (hG : w.pte r k &&& PTE_U = 0) : Guarded (w.kmem.userMem r) ((k + 2) * PGSIZE) := by
  have hle : k + 2 ≤ 0x88000 := hs.le
  have hstack : (k + 2) * PGSIZE - PGSIZE = (k + 1) * PGSIZE := by
    change (k + 2) * 4096 - 4096 = (k + 1) * 4096
    omega
  refine ⟨⟨?_, ?_, ?_, ?_, fun v hv => ?_⟩, ?_⟩
  · rw [hstack, Nat.mul_mod_left]
  · rw [hstack]
    exact Nat.le_mul_of_pos_left _ (Nat.succ_pos _)
  · rw [hstack]
    change (k + 1) * 4096 < 2 ^ 38
    omega
  · rw [hstack, Nat.mul_div_cancel _ (by decide)]
    exact hs.userPage (by omega) hU
  · exact decide_eq_false fun h => absurd h.1 (not_lt.2 hv)
  · rw [Nat.mul_div_cancel _ (by decide), Nat.add_sub_cancel]
    exact decide_eq_false fun h => h.2.2 hG

/-- **The image that `exec` loads is an address space of the size returned**, also when it gives
up. -/
theorem loadImage_spec {phs : List (Option Segment)} (hs : Space w r 0 tf tr) :
    Does w (loadImage r phs) fun x w' => Others r w w' ∧ Space w' r (pages x.2) tf tr ∧
      (x.1 = true → Guarded (w'.kmem.userMem r) x.2) := by
  rw [loadImage]
  refine (loadSegments_spec 0 hs fun v hv => absurd hv (Nat.not_lt_zero v)).bind ?_
  rintro ⟨ok, sz⟩ w₁ ⟨ho₁, hs₁⟩
  cases ok with
  | false => exact .pure ⟨ho₁, hs₁, nofun⟩
  | true =>
    have hle : pages sz ≤ 0x88000 := hs₁.le
    dsimp only at hs₁ ⊢
    rw [if_pos rfl, pgroundup_eq hs₁.le]
    rw [← pages_mul (pages sz)] at hs₁
    refine (uvmalloc_spec hs₁ (by decide)).bind ?_
    rintro sz₁ w₂ (⟨hsz, h, hnew⟩ | ⟨rfl, h⟩)
    swap
    · rw [if_pos rfl]
      exact .pure ⟨ho₁.trans h.others, h.space, nofun⟩
    have hmax : sz₁ = (pages sz + 2) * PGSIZE := by
      change sz₁ = max (pages sz * 4096) ((pages sz * 4096 + 2 * 4096) % 2 ^ 64) at hsz
      change sz₁ = (pages sz + 2) * 4096
      omega
    have h₀ : sz₁ ≠ 0 := by
      rw [hmax]
      exact Nat.mul_ne_zero (by omega) (by decide)
    have hclear : (sz₁ + 2 ^ 64 - 2 * PGSIZE) % 2 ^ 64 = pages sz * PGSIZE := by
      rw [hmax]
      change ((pages sz + 2) * 4096 + 2 ^ 64 - 2 * 4096) % 2 ^ 64 = pages sz * 4096
      omega
    rw [if_neg h₀, hclear]
    refine (uvmclear_spec h.space ?_).bind ?_
    · rw [hmax, pages_mul]
      omega
    rintro - w₃ ⟨ho₃, hs₃, hpte₃⟩
    have hpages : pages sz₁ = pages sz + 2 := by rw [hmax, pages_mul]
    have hle₁ : pages sz + 2 ≤ 0x88000 := hpages ▸ h.space.le
    have hlt {v : ℕ} (hv : v < pages sz + 2) : v < vpnLimit :=
      lt_vpnLimit (by change v ≤ 0x88000; omega)
    refine .pure ⟨(ho₁.trans h.others).trans ho₃, hs₃, fun _ => ?_⟩
    dsimp only
    rw [hpages] at hs₃
    rw [hmax]
    refine hs₃.guarded ?_ ?_
    · rw [hpte₃ _ (hlt (by omega)), if_neg (by omega)]
      exact (hnew _ (by rw [pages_mul]; omega) (by omega)).1
    · -- `uvmclear` has taken the page from the user
      rw [hpte₃ _ (hlt (by omega)), if_pos rfl, BitVec.and_assoc,
        show (~~~PTE_U &&& PTE_U : Word) = 0#64 by decide, BitVec.and_zero]
      rfl

/-- Pushing the arguments on page tables is pushing them by virtual address. -/
theorem pushArgs_spec {stackbase : ℕ} {argv : List (List (BitVec 8))} {ustack : List ℕ} {sp : ℕ}
    (hs : Space w r n tf tr) :
    Does w (pushArgs r stackbase argv ustack sp) fun o w' => Grows w w' ∧ Confined r [] [] w w' ∧
      (o, w'.kmem.userMem r) =
        UserMem.pushArgs stackbase (w.kmem.userMem r) argv ustack sp := by
  induction argv generalizing w ustack sp with
  | nil =>
    rw [pushArgs, UserMem.pushArgs]
    dsimp only
    generalize (sp + 2 ^ 64 - (ustack.length + 1) * 8) % 2 ^ 64 -
      (sp + 2 ^ 64 - (ustack.length + 1) * 8) % 2 ^ 64 % 16 = q
    by_cases h₁ : q < stackbase
    · rw [if_pos h₁, if_pos h₁]
      exact .pure ⟨.refl w, .refl r [] w, rfl⟩
    rw [if_neg h₁, if_neg h₁]
    refine (copyout_spec hs).bind ?_
    rintro ok w' ⟨hg, hc, hu⟩
    rw [← hu]
    cases ok <;> exact .pure ⟨hg, hc, rfl⟩
  | cons s argv ih =>
    rw [pushArgs, UserMem.pushArgs]
    by_cases hargc : MAXARG ≤ ustack.length
    · rw [if_pos hargc, if_pos hargc]
      exact .pure ⟨.refl w, .refl r [] w, rfl⟩
    rw [if_neg hargc, if_neg hargc]
    dsimp only
    generalize (sp + 2 ^ 64 - (s.length + 1)) % 2 ^ 64 -
      (sp + 2 ^ 64 - (s.length + 1)) % 2 ^ 64 % 16 = q
    by_cases h₁ : q < stackbase
    · rw [if_pos h₁, if_pos h₁]
      exact .pure ⟨.refl w, .refl r [] w, rfl⟩
    rw [if_neg h₁, if_neg h₁]
    refine (copyout_spec hs).bind ?_
    rintro ok w' ⟨hg, hc, hu⟩
    rw [← hu]
    cases ok with
    | false => exact .pure ⟨hg, hc, rfl⟩
    | true =>
      refine (ih (hs.of_grows hg)).mono ?_
      rintro _ w'' ⟨hg', hc', hu'⟩
      exact ⟨hg.trans hg', hc.trans hc', hu'⟩

end Image

end Xv6.Vm
