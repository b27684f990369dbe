import Xv6.Vm.Rollback
import Xv6.Vm.UserCopy

/-!
# The system call sbrk

`sys_sbrk` changes the size of the caller by `n`, which may be negative. What is below both sizes is
kept, what is above the new one is unmapped and freed, and new pages are zero. When memory runs out,
nothing has changed.

There is one more case. A size less than zero cannot be reached, but `growproc` adds `n` to an
unsigned size, so that a shrink by more than there is asks `uvmdealloc` for a size that is very
large. This does nothing, and `sys_sbrk` returns as if it had succeeded.
-/

namespace Xv6.Vm

open Function (update update_eq_self)

open ProcM UserCopy

/-- `sys_sbrk`, with what `argint` makes of the argument. -/
def sysSbrk (i : Slot) (arg : ℤ) : ProcM ℤ := do
  let n := wrapInt arg
  let addr := (← slot i).sz
  if ← growproc i n then pure addr else pure (-1)

/-- The size of the process in slot `i` has changed by `n`. -/
structure Resized (i : Slot) (n : ℤ) (s t : Machine) : Prop where
  size : ((t.proc i).sz : ℤ) = (s.proc i).sz + n
  bytes : ∀ a < (s.proc i).sz, a < (t.proc i).sz →
    userByte t.phys.kmem (t.proc i).pagetable a = userByte s.phys.kmem (s.proc i).pagetable a
  /-- What is above the new size is not mapped, and what was mapped there is free. -/
  above : ∃ l, t.phys.kmem.Free l ∧ ∀ v < vpnLimit, IsUser v →
    pgroundup (t.proc i).sz ≤ v * PGSIZE →
      t.pte i v = 0 ∧ (s.pte i v ≠ 0 → pte2pa (s.pte i v) ∈ l)
  zero : ∀ v < vpnLimit, s.pte i v = 0 → t.pte i v ≠ 0 →
    t.phys.kmem.mem (pte2pa (t.pte i v)) = fill 0

/-- The process table and all mappings are as before. -/
structure Unresized (s t : Machine) : Prop where
  proc : t.proc = s.proc
  pte : ∀ j, s.Live j → ∀ v < vpnLimit, t.pte j v = s.pte j v

section Spec

variable {s t : Machine} {w w' : Store} {i : Slot}

/-- The size that `growproc` computes, unless it is below zero. -/
theorem add_intToU64 {sz : ℕ} {n : ℤ} (hsz : sz < 2 ^ 63) (hn : n < 2 ^ 31) (h₀ : 0 ≤ sz + n) :
    (((sz + intToU64 n) % 2 ^ 64 : ℕ) : ℤ) = sz + n := by
  rw [intToU64]
  omega

theorem wrapInt_lt (x : ℤ) : wrapInt x < 2 ^ 31 := by
  have := Int.bmod_lt (x := x) (m := 2 ^ 32) (by decide)
  rw [wrapInt]
  omega

theorem Holds.lt {tr : ℕ} {p : Proc} (h : Holds w tr i p) : p.sz < 2 ^ 63 := by
  have hle : (p.sz + 4095) / 4096 ≤ 0x88000 := h.space.le
  omega

/-- The address space of slot `i` has another size. -/
theorem resized_of_resizes {n : ℤ} {sz : ℕ} (h : Spaces (fun _ => True) s w) (hi : s.Live i)
    (hk : t.phys.kmem = w'.kmem)
    (hp : t.proc = update s.proc i { s.proc i with sz := sz })
    (hr : Resizes (s.proc i).pagetable (pages sz) (frameEntry (s.proc i).trapframe)
      (trampolineEntry s.trampoline) w w') (hsz : (sz : ℤ) = (s.proc i).sz + n)
    (hfill : ∀ v, pages (s.proc i).sz ≤ v → v < pages sz →
      w'.kmem.mem (pte2pa (w'.pte (s.proc i).pagetable v)) = fill 0)
    (hfreed : ∀ v, pages sz ≤ v → v < pages (s.proc i).sz →
      pte2pa (w.pte (s.proc i).pagetable v) ∈ w'.list) : Resized i n s t := by
  have hs := (h.holds i trivial hi).space
  have hpi : t.proc i = { s.proc i with sz := sz } := by rw [hp, Function.update_self]
  have hpte (v : ℕ) : t.pte i v = w'.pte (s.proc i).pagetable v := by
    rw [Machine.pte, hk, hpi]
    rfl
  have hpte' (v : ℕ) : s.pte i v = w.pte (s.proc i).pagetable v := by
    rw [Machine.pte, h.kmem]
    rfl
  refine ⟨by rw [hpi, hsz], fun a ha ha' => ?_, ⟨w'.list, hk ▸ w'.tidy.free, fun v hv hu hle => ?_⟩,
    fun v hv hz hne => ?_⟩
  · rw [hpi] at ha' ⊢
    have hv : a / PGSIZE < pages sz := by
      change a / 4096 < (sz + 4095) / 4096
      have : a < sz := ha'
      omega
    have hm : w.pte (s.proc i).pagetable (a / PGSIZE) ≠ 0 := by
      have hle := hv.le.trans hr.space.le
      refine (hs.user _ (lt_vpnLimit hle) (isUser_of_le hle)).2 ?_
      change a / 4096 < ((s.proc i).sz + 4095) / 4096
      omega
    rw [userByte_eq, userByte_eq, hk, h.kmem]
    change pageByte (w'.kmem.mem (pte2pa (w'.pte (s.proc i).pagetable (a / PGSIZE)))) _ =
      pageByte (w.kmem.mem (pte2pa (w.pte (s.proc i).pagetable (a / PGSIZE)))) _
    rw [hr.pte _ hv hm, hr.data _ hv hm]
  · rw [hpi, pgroundup_eq hr.space.le] at hle
    have hle' : pages sz ≤ v := Nat.le_of_mul_le_mul_right hle (by decide)
    rw [hpte, hpte']
    refine ⟨?_, fun hne => hfreed v hle' ((hs.user v hv hu).1 hne)⟩
    by_contra hne
    exact absurd ((hr.space.user v hv hu).1 hne) (not_lt.2 hle')
  · rw [hpte'] at hz
    rw [hpte] at hne ⊢
    rw [hk]
    have hu : IsUser v := by
      by_contra hu
      rcases not_and_or.1 hu with hu | hu
      · rw [not_not.1 hu, hr.space.tramp, ← hs.tramp, ← not_not.1 hu] at hne
        exact hne hz
      · rw [not_not.1 hu, hr.space.frame, ← hs.frame, ← not_not.1 hu] at hne
        exact hne hz
    refine hfill v (not_lt.1 fun hlt => (hs.user v hv hu).2 hlt hz) ((hr.space.user v hv hu).1 hne)

/-- Nothing but page-table pages has been added. -/
theorem unresized_of_resizes (h : Spaces (fun _ => True) s w) (hi : s.Live i)
    (hk : t.phys.kmem = w'.kmem) (hp : t.proc = s.proc)
    (hr : Resizes (s.proc i).pagetable (pages (s.proc i).sz) (frameEntry (s.proc i).trapframe)
      (trampolineEntry s.trampoline) w w') : Unresized s t := by
  refine ⟨hp, fun j hj v hv => ?_⟩
  rw [Machine.pte, Machine.pte, hk, hp, h.kmem]
  by_cases hji : j = i
  · rw [hji]
    exact hr.leaves (h.holds i trivial hi).space hv
  · exact hr.others.pte _ v (h.holds j trivial hj).space.root (h.ne_of_ne hi j hji hj) hv

theorem sysSbrk_spec (h : Spaces (fun _ => True) s w) (hi : s.Live i) (arg : ℤ)
    (h₀ : 0 ≤ (s.proc i).sz + wrapInt arg) :
    Runs (sysSbrk i arg) s fun ret t => ret = -1 ∧ Unresized s t ∨
      ret = (s.proc i).sz ∧ Resized i (wrapInt arg) s t := by
  have hnew := add_intToU64 (h.holds i trivial hi).lt (wrapInt_lt arg) h₀
  rw [sysSbrk]
  refine slot_bind ((growproc_spec h hi (wrapInt arg)).bind ?_)
  rintro ok t ⟨w', sz, hc, hr, ⟨rfl, rfl⟩ | ⟨rfl, hsz, hfill, hfreed⟩⟩
  · exact .pure (.inl ⟨rfl, unresized_of_resizes h hi hc.kmem
      (hc.proc.trans (update_eq_self i s.proc)) hr⟩)
  · have hsz' : (sz : ℤ) = (s.proc i).sz + wrapInt arg := by
      rcases hsz with ⟨hpos, rfl⟩ | ⟨hneg, rfl⟩ | ⟨hz, rfl⟩ <;> omega
    exact .pure (.inr ⟨rfl, resized_of_resizes h hi hc.kmem hc.proc hr hsz' hfill hfreed⟩)

theorem le_wrapInt (x : ℤ) : -2 ^ 31 ≤ wrapInt x := by
  have := Int.le_bmod (x := x) (m := 2 ^ 32) (by decide)
  rw [wrapInt]
  omega

/-- **A shrink by more than there is succeeds and does nothing.** -/
theorem sysSbrk_below_zero (h : Spaces (fun _ => True) s w) (hi : s.Live i) {arg : ℤ}
    (h₀ : (s.proc i).sz + wrapInt arg < 0) :
    Runs (sysSbrk i arg) s fun ret t => ret = (s.proc i).sz ∧ Unresized s t := by
  have hlt := (h.holds i trivial hi).lt
  have hge := le_wrapInt arg
  have hle : (s.proc i).sz ≤ ((s.proc i).sz + intToU64 (wrapInt arg)) % 2 ^ 64 := by
    rw [intToU64]
    omega
  have hsame : Unresized s { s with proc := update s.proc i (s.proc i) } :=
    ⟨update_eq_self i s.proc, fun j _ v _ => by
      rw [update_eq_self]⟩
  rw [sysSbrk, growproc]
  refine slot_bind ?_
  rw [bind_assoc]
  refine slot_bind ?_
  rw [if_neg (by omega), if_pos (by omega), uvmdealloc, if_pos hle]
  exact .of_eq rfl ⟨rfl, hsame⟩

end Spec

/-! ### Every state -/

/-- **`sbrk` changes the size by exactly `n` or fails**, in every state that can be reached and
whichever calls of `kalloc` fail, if and only if the new size is not below zero. -/
theorem sbrk_exact {m : Kmem} {l : List ℕ} (hm : m.Free l) {trampoline : ℕ}
    (htr : trampoline < 2 ^ 44) {code : Page} {s₀ s : Machine}
    (hinit : (userinit code).run (boot m trampoline) = .ok (true, s₀)) {es : List Event}
    (hrun : runEvents step s₀ es = some s) {i : Slot} (hi : s.Active i) (arg : ℤ) :
    ∃ ret t, (sysSbrk i arg).run s = .ok (ret, t) ∧ ((ret = -1 ∧ Unresized s t ∨
      ret = (s.proc i).sz ∧ Resized i (wrapInt arg) s t) ↔ 0 ≤ (s.proc i).sz + wrapInt arg) := by
  obtain ⟨w, h⟩ := run_spaces hm htr hinit hrun
  by_cases h₀ : 0 ≤ (s.proc i).sz + wrapInt arg
  · obtain ⟨ret, t, hret, hcase⟩ := sysSbrk_spec h hi.1 arg h₀
    exact ⟨ret, t, hret, iff_of_true hcase h₀⟩
  · obtain ⟨ret, t, hret, rfl, -⟩ := sysSbrk_below_zero h hi.1 (not_le.1 h₀)
    refine ⟨_, t, hret, iff_of_false ?_ h₀⟩
    rintro (⟨hneg, -⟩ | ⟨-, hr⟩)
    · omega
    · have := hr.size
      omega

theorem sbrk_exact_shrink : ∃ s₀ s t, (userinit (fill 0)).run (boot somePages 0x80007) =
      .ok (true, s₀) ∧ runEvents step s₀ [.sbrk 0 5000] = some s ∧ (s.proc 0).sz = 9096 ∧
    (sysSbrk 0 (-6000)).run s = .ok (9096, t) ∧ Resized 0 (-6000) s t := by
  obtain ⟨s, hs, hsz, hactive, t, hret, -⟩ : ∃ s, runFrom somePages [.sbrk 0 5000] = some s ∧
      (s.proc 0).sz = 9096 ∧ s.Active 0 ∧
      ∃ t, (sysSbrk 0 (-6000)).run s = .ok (9096, t) ∧ True := by decide +kernel
  have hn : wrapInt (-6000) = -6000 := by decide
  rw [runFrom] at hs
  split at hs
  · next s₀ hinit =>
    obtain ⟨ret', t', hret', hcase⟩ := sbrk_exact somePages_free (by decide) hinit hs hactive
      (-6000)
    obtain ⟨rfl, rfl⟩ := Prod.mk.inj (Except.ok.inj (hret.symm.trans hret'))
    obtain ⟨-, hr⟩ := (hcase.2 (by rw [hsz, hn]; decide)).resolve_left fun h =>
      absurd h.1 (by decide)
    exact ⟨s₀, s, t, hinit, hs, hsz, hret, hn ▸ hr⟩
  · exact absurd hs (by simp)

/-- The first process has one page, and gives back more than that. -/
theorem sbrk_below_zero : ∃ s₀ t, (userinit (fill 0)).run (boot somePages 0x80007) =
      .ok (true, s₀) ∧ s₀.Active 0 ∧ (s₀.proc 0).sz = 4096 ∧
    (sysSbrk 0 (-5000)).run s₀ = .ok (4096, t) ∧ ¬ Resized 0 (-5000) s₀ t := by
  obtain ⟨s₀, hinit, hactive, hsz, t, hret, hsz'⟩ :
      ∃ s, (userinit (fill 0)).run (boot somePages 0x80007) = .ok (true, s) ∧ s.Active 0 ∧
      (s.proc 0).sz = 4096 ∧
      ∃ t, (sysSbrk 0 (-5000)).run s = .ok (4096, t) ∧ (t.proc 0).sz = 4096 := by decide +kernel
  refine ⟨s₀, t, hinit, hactive, hsz, hret, fun hr => ?_⟩
  have := hr.size
  rw [hsz, hsz'] at this
  omega

end Xv6.Vm
