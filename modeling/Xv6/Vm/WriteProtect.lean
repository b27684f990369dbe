import Xv6.Vm.NewImage
import Xv6.Vm.Sbrk

/-!
# Read-only pages of a user

`walkaddr` looks at `PTE_V` and `PTE_U`, and `copyout` at nothing else: it also writes to pages that
the user itself cannot write, such as the text that `exec` has loaded. Nothing else in the kernel
does that: as long as a process has its image, its read-only bytes can only be given back by `sbrk`
or overwritten by `copyout`.

## Main results

* `text_kept` — read-only bytes stay as they are if and only if `copyout` does not overwrite them
* `copyout_writes_text` — it does
-/

namespace Xv6.Vm

/-- The user has a byte at `a`, in a page without `PTE_W`. -/
def Machine.ReadOnly (s : Machine) (k : Slot) (a : ℕ) : Prop :=
  (s.userMem k).mapped (a / PGSIZE) = true ∧ s.pte k (a / PGSIZE) &&& PTE_W = 0

instance (s : Machine) (k : Slot) (a : ℕ) : Decidable (s.ReadOnly k a) :=
  inferInstanceAs (Decidable (_ ∧ _))

/-- What may happen while the process in slot `k` has its image, if the byte at `a` is to stay: it
does not exit, `exec` does not succeed, it does not give back the page with `sbrk`, and nothing else
is copied over the byte. The hardware refuses what the process itself stores in a page without
`PTE_W`. -/
def Respects (k : Slot) (a : ℕ) (s : Machine) : Event → Prop
  | .exec i x => i = k → execs i x s = false
  | .exit i _ => i ≠ k
  | .sbrk i n => i = k → ¬ (0 ≤ (s.proc k).sz + wrapInt n ∧
      (s.proc k).sz + wrapInt n ≤ (a / PGSIZE * PGSIZE : ℕ))
  | .store i vpn _ => i = k → s.pte k vpn &&& PTE_W ≠ 0
  | .copyout i dstva src => i = k → ¬ (s.userMem k).Overwrites dstva src a
  | .fork _ | .wait _ _ | .deny _ => True

instance (k : Slot) (a : ℕ) (s : Machine) (e : Event) : Decidable (Respects k a s e) := by
  cases e <;> unfold Respects <;> infer_instance

/-- The process in slot `k` runs, and its byte at `a` is `b`, in a page that it cannot write. -/
structure HasText (k : Slot) (a : ℕ) (b : BitVec 8) (s : Machine) : Prop where
  spaces : ∃ w, Spaces (fun _ => True) s w
  active : s.Active k
  readOnly : s.ReadOnly k a
  byte : (s.userMem k).mem a = b

section Text

variable {s t : Machine} {w w' : Store} {k : Slot} {a : ℕ} {b : BitVec 8}

theorem Machine.ReadOnly.lt (h : s.ReadOnly k a) : a / PGSIZE < vpnLimit :=
  lt_vpnLimit_of_lt (of_decide_eq_true h.1).1

/-- Entry and byte are as they were. -/
theorem HasText.congr (h : HasText k a b s) (hw : ∃ w, Spaces (fun _ => True) t w)
    (hst : (t.proc k).state = (s.proc k).state)
    (hpte : t.pte k (a / PGSIZE) = s.pte k (a / PGSIZE))
    (hmapped : (t.userMem k).mapped (a / PGSIZE) = (s.userMem k).mapped (a / PGSIZE))
    (hmem : (t.userMem k).mem a = (s.userMem k).mem a) : HasText k a b t where
  spaces := hw
  active := by
    rw [Machine.Active, hst]
    exact h.active
  readOnly := ⟨hmapped.trans h.readOnly.1, by rw [hpte]; exact h.readOnly.2⟩
  byte := hmem.trans h.byte

theorem HasText.of_same (h : HasText k a b s) (hw : ∃ w, Spaces (fun _ => True) t w)
    (hsame : SameUser k s t) : HasText k a b t :=
  h.congr hw hsame.state (hsame.pte _ h.readOnly.lt) (by rw [hsame.userMem]) (by rw [hsame.userMem])

theorem HasText.of_writes {u : UserMem} (h : HasText k a b s) (hw : Writes k s t u)
    (hmapped : u.mapped = (s.userMem k).mapped) (hmem : u.mem a = (s.userMem k).mem a) :
    HasText k a b t :=
  h.congr hw.keeps.1 (by rw [hw.proc]) (hw.pte _ h.readOnly.lt) (by rw [hw.userMem, hmapped])
    (by rw [hw.userMem, hmem])

/-- A page that is not given back is below the new size. -/
theorem lt_pages {sz sz' v : ℕ} {n : ℤ} (hsz : sz < 2 ^ 63) (hn : -2 ^ 31 ≤ n) (hn' : n < 2 ^ 31)
    (hv : v < pages sz) (hback : ¬ (0 ≤ sz + n ∧ sz + n ≤ (v * PGSIZE : ℕ)))
    (h : sz' = sz ∨ sz' = max sz ((sz + intToU64 n) % 2 ^ 64) ∨
      n < 0 ∧ sz' = min sz ((sz + intToU64 n) % 2 ^ 64)) : v < pages sz' := by
  change v < (sz + 4095) / 4096 at hv
  change ¬ (0 ≤ sz + n ∧ sz + n ≤ (v * 4096 : ℕ)) at hback
  change v < (sz' + 4095) / 4096
  rw [intToU64] at h
  omega

theorem Machine.userMem_mapped (s : Machine) (k : Slot) (v : ℕ) : (s.userMem k).mapped v =
    decide (v * PGSIZE < MAXVA ∧ s.pte k v &&& PTE_V ≠ 0 ∧ s.pte k v &&& PTE_U ≠ 0) := rfl

theorem Machine.userMem_mem (s : Machine) (k : Slot) (a : ℕ) : (s.userMem k).mem a =
    if (s.userMem k).mapped (a / PGSIZE)
      then pageByte (s.phys.kmem.mem (pte2pa (s.pte k (a / PGSIZE)))) (a % PGSIZE) else 0 := rfl

/-- The process changes its size, and keeps the page. -/
theorem HasText.sbrk (h : HasText k a b s) (hs : Spaces (fun _ => True) s w) {n : ℤ}
    (hn : ¬ (0 ≤ (s.proc k).sz + wrapInt n ∧
      (s.proc k).sz + wrapInt n ≤ (a / PGSIZE * PGSIZE : ℕ))) :
    Runs (growproc k (wrapInt n)) s fun _ t => HasText k a b t := by
  have hh := hs.holds k trivial h.active.1
  refine (growproc_spec hs h.active.1 (wrapInt n)).mono ?_
  rintro ok t ⟨w', sz, hc, hr, hcase⟩
  have hpage : w.kmem.userPage (s.proc k).pagetable (a / PGSIZE) = true := by
    rw [← hs.kmem]
    exact h.readOnly.1
  have huse := hh.space.use_of_userPage hpage
  have hne : w.pte (s.proc k).pagetable (a / PGSIZE) ≠ 0 := fun h₀ =>
    (userPage_eq_true.1 hpage).2.1 (by rw [h₀]; rfl)
  have hv : a / PGSIZE < pages sz := by
    refine lt_pages hh.lt (le_wrapInt n) (wrapInt_lt n)
      ((hh.space.user _ h.readOnly.lt (Store.isUser huse)).1 hne) hn ?_
    rcases hcase with ⟨-, hsz⟩ | ⟨-, hsz | ⟨hneg, hsz⟩ | hsz, -⟩
    · exact .inl hsz
    · exact .inr (.inl hsz.2)
    · exact .inr (.inr ⟨hneg, hsz⟩)
    · exact .inl hsz.2
  have hproc : t.proc k = { s.proc k with sz := sz } := by rw [hc.proc, Function.update_self]
  have hpte : t.pte k (a / PGSIZE) = s.pte k (a / PGSIZE) := by
    rw [Machine.pte, Machine.pte, hc.kmem, hproc, hs.kmem]
    exact hr.pte _ hv hne
  have hmapped : (t.userMem k).mapped (a / PGSIZE) = (s.userMem k).mapped (a / PGSIZE) := by
    rw [Machine.userMem_mapped, Machine.userMem_mapped, hpte]
  have hdata : t.phys.kmem.mem (pte2pa (s.pte k (a / PGSIZE))) =
      s.phys.kmem.mem (pte2pa (s.pte k (a / PGSIZE))) := by
    rw [hc.kmem, Machine.pte, hs.kmem]
    exact hr.data _ hv hne
  refine h.congr ⟨w', hs.resize h.active.1 hr hc⟩ (by rw [hproc]) hpte hmapped ?_
  rw [Machine.userMem_mem, Machine.userMem_mem, hmapped, hpte, hdata]

/-- **One step keeps a read-only byte**, if it respects it. -/
theorem HasText.step {e : Event} (h : HasText k a b s) (he : Respects k a s e)
    (hs : step s e = some t) : HasText k a b t := by
  obtain ⟨w, hw⟩ := h.spaces
  obtain ⟨ha, ⟨_, hrun⟩, hw', hspares⟩ := step_keeps hw hs
  by_cases hk : e.concerns s k
  swap
  · exact h.of_same hw' (hspares k hk h.active.1)
  cases e with
  | fork | deny => exact hk.elim
  | wait => exact absurd hk h.active.2
  | exec i x =>
    obtain ⟨rfl, hx⟩ := hk
    rw [he rfl] at hx
    exact absurd hx (by decide)
  | exit i status => exact absurd hk.symm he
  | sbrk i n =>
    obtain rfl : k = i := hk
    exact (discard_spec (h.sbrk hw (he rfl))).elim hrun
  | store i vpn pg =>
    obtain rfl : k = i := hk
    obtain ⟨u, hwrites, hmapped, hmem⟩ := (store_spec hw h.active.1 vpn pg).elim hrun
    refine h.of_writes hwrites hmapped (hmem a ?_)
    rintro rfl
    exact he rfl h.readOnly.2
  | copyout i dstva src =>
    obtain rfl : k = i := hk
    have hwrites := (copyoutEvent_spec hw h.active.1 dstva src).elim hrun
    rw [UserMem.copyout_eq] at hwrites
    exact h.of_writes hwrites (UserMem.fill_mapped _ _ _) (UserMem.fill_mem_eq_iff.2 (he rfl))

theorem copyout_step (h : Spaces (fun _ => True) s w) (hk : s.Active k) (dstva : ℕ)
    (src : List (BitVec 8)) : ∃ t, step s (.copyout k dstva src) = some t ∧
      Writes k s t ((s.userMem k).fill dstva src) := by
  obtain ⟨_, t, ht, hwrites⟩ := copyoutEvent_spec h hk.1 dstva src
  rw [UserMem.copyout_eq] at hwrites
  exact ⟨t, by rw [step, if_pos (by simpa [Event.caller] using hk), ht], hwrites⟩

/-- **Read-only bytes and `copyout`.** In every state that can be reached, a call of `copyout` for a
process leaves all of its read-only bytes as they are, if and only if it overwrites none of them
with another one. And for the life of an image, a read-only byte stays as it is whatever calls are
made by whichever process, if no `copyout` overwrites it and the process keeps the page. -/
theorem text_kept {m : Kmem} {l : List ℕ} (hm : m.Free l) {trampoline : ℕ}
    (htr : trampoline < 2 ^ 44) {code : Page} {s₀ : Machine}
    (hinit : (userinit code).run (boot m trampoline) = .ok (true, s₀)) {es : List Event}
    (hrun : runEvents step s₀ es = some s) (hk : s.Active k) :
    (∀ dstva src, ∃ t, step s (.copyout k dstva src) = some t ∧
      ((∀ a, s.ReadOnly k a → (t.userMem k).mem a = (s.userMem k).mem a) ↔
        ∀ a, s.ReadOnly k a → ¬ (s.userMem k).Overwrites dstva src a)) ∧
    ∀ a, s.ReadOnly k a → ∀ fs t, runEvents (restrict (Respects k a) step) s fs = some t →
      t.ReadOnly k a ∧ (t.userMem k).mem a = (s.userMem k).mem a := by
  obtain ⟨w, h⟩ := run_spaces hm htr hinit hrun
  refine ⟨fun dstva src => ?_, fun a ha fs t hfs => ?_⟩
  · obtain ⟨t, ht, hwrites⟩ := copyout_step h hk dstva src
    refine ⟨t, ht, forall₂_congr fun a _ => ?_⟩
    rw [hwrites.userMem]
    exact UserMem.fill_mem_eq_iff
  · have htext := runEvents_invariant (I := HasText k a ((s.userMem k).mem a))
      (fun u e v hu hs => hu.step (restrict_eq_some.1 hs).1 (restrict_eq_some.1 hs).2)
      ⟨⟨w, h⟩, hk, ha, rfl⟩ hfs
    exact ⟨htext.readOnly, htext.byte⟩

end Text

/-- The first process executes a program whose page 0 it cannot write. Page 2 is its stack. -/
theorem echo_text : ∃ s₀ s, (userinit (fill 0)).run (boot somePages 0x80007) = .ok (true, s₀) ∧
    runEvents step s₀ [.exec 0 echo] = some s ∧ s.Active 0 ∧ s.ReadOnly 0 0 ∧ ¬ s.ReadOnly 0 8192 ∧
    (s.userMem 0).mapped 2 = true ∧ ∃ w, Spaces (fun _ => True) s w := by
  -- what is in the page table when the program has been loaded
  obtain ⟨s₀, hinit, hactive, ⟨t₁, hroot, -⟩, t', hload, htext, hstack, hW⟩ :
      ∃ s₀, (userinit (fill 0)).run (boot somePages 0x80007) = .ok (true, s₀) ∧ s₀.Active 0 ∧
      (∃ t₁, (ProcM.onPhys (procPagetable s₀.trampoline (s₀.proc 0).trapframe)).run s₀ =
        .ok (0x87fe7, t₁) ∧ True) ∧
      ∃ t', (imageLoaded 0 echo).run s₀ = .ok (true, t') ∧
        (0 * PGSIZE < MAXVA ∧ t'.phys.kmem.pte 0x87fe7 0 &&& PTE_V ≠ 0 ∧
          t'.phys.kmem.pte 0x87fe7 0 &&& PTE_U ≠ 0) ∧
        (2 * PGSIZE < MAXVA ∧ t'.phys.kmem.pte 0x87fe7 2 &&& PTE_V ≠ 0 ∧
          t'.phys.kmem.pte 0x87fe7 2 &&& PTE_U ≠ 0) ∧
        t'.phys.kmem.pte 0x87fe7 0 &&& PTE_W = 0 ∧ t'.phys.kmem.pte 0x87fe7 2 &&& PTE_W ≠ 0 := by
    decide +kernel
  obtain ⟨w, h⟩ := userinit_leaves somePages_free (by decide) (fill 0) true s₀ hinit rfl
  have hexec : Runs (event (.exec 0 echo)) s₀ fun _ s => ∃ n, Executed 0 echo s₀ n s :=
    discard_spec ((exec_spec h hactive.1 echo).mono fun n _ hx => ⟨n, hx⟩)
  obtain ⟨_, s, hrun, n, hx⟩ := hexec
  have hstep : step s₀ (.exec 0 echo) = some s := by
    rw [step, if_pos (by simpa [Event.caller] using hactive), hrun]
  have hne : n ≠ -1 := fun hn =>
    (hx.eq_neg_one_iff hload (by decide) (by decide)).1 hn echo_layout
  obtain ⟨_, _, -, ⟨hn, -⟩ | ⟨-, -, _, _, hinst, -⟩⟩ := hx.cases
  · exact absurd hn hne
  obtain ⟨pt, _, _, _, hroot', hload', hpte⟩ := hx.image hne
  obtain ⟨rfl, -⟩ := Prod.mk.inj (Except.ok.inj (hroot'.symm.trans hroot))
  obtain ⟨-, rfl⟩ := Prod.mk.inj (Except.ok.inj (hload'.symm.trans hload))
  have h0 := hpte (0 / PGSIZE) (by decide)
  have h2 := hpte (8192 / PGSIZE) (by decide)
  refine ⟨s₀, s, hinit, by rw [runEvents_cons, hstep]; rfl, ?_, ⟨?_, ?_⟩, fun hro => hW.2 ?_, ?_,
    hx.keeps.1⟩
  · rw [Machine.Active, hinst.proc, Function.update_self]
    exact hactive
  · rw [Machine.userMem_mapped]
    exact decide_eq_true (by rw [h0]; exact htext)
  · rw [h0]
    exact hW.1
  · have hstackW := hro.2
    rw [h2] at hstackW
    exact hstackW
  · rw [Machine.userMem_mapped]
    exact decide_eq_true (h2 ▸ hstack)

/-- A byte is copied to the stack of this process. -/
theorem text_kept_echo : ∃ s₀ s t, (userinit (fill 0)).run (boot somePages 0x80007) =
      .ok (true, s₀) ∧ runEvents step s₀ [.exec 0 echo] = some s ∧ s.ReadOnly 0 0 ∧
    ¬ s.ReadOnly 0 8192 ∧
    runEvents (restrict (Respects 0 0) step) s [.copyout 0 8192 [7]] = some t ∧
    (t.userMem 0).mem 8192 = 7 ∧ t.ReadOnly 0 0 ∧ (t.userMem 0).mem 0 = (s.userMem 0).mem 0 := by
  obtain ⟨s₀, s, hinit, hs, hactive, hro, hstack, hmapped, w, h⟩ := echo_text
  obtain ⟨t, ht, hwrites⟩ := copyout_step h hactive 8192 [7]
  have hrun : runEvents (restrict (Respects 0 0) step) s [.copyout 0 8192 [7]] = some t := by
    rw [runEvents_cons, restrict_eq_some.2 ⟨fun _ hw => absurd hw.1 (by decide), ht⟩]
    rfl
  have hbyte : (t.userMem 0).mem 8192 = 7 := by
    rw [hwrites.userMem]
    exact UserMem.fill_singleton hmapped
  have hkept := (text_kept somePages_free (by decide) hinit hs hactive).2 0 hro _ t hrun
  exact ⟨s₀, s, t, hinit, hs, hro, hstack, hrun, hbyte, hkept⟩

/-- **`copyout` writes to a page without `PTE_W`.** The program of the first process has a byte read
to its own text, and whatever the byte is, it is there then. -/
theorem copyout_writes_text : ∃ s₀ s, (userinit (fill 0)).run (boot somePages 0x80007) =
      .ok (true, s₀) ∧ runEvents step s₀ [.exec 0 echo] = some s ∧ s.Active 0 ∧ s.ReadOnly 0 0 ∧
    ∀ b, ∃ t, step s (.copyout 0 0 [b]) = some t ∧ (t.userMem 0).mem 0 = b := by
  obtain ⟨s₀, s, hinit, hs, hactive, hro, -, -, w, h⟩ := echo_text
  refine ⟨s₀, s, hinit, hs, hactive, hro, fun b => ?_⟩
  obtain ⟨t, ht, hwrites⟩ := copyout_step h hactive 0 [b]
  refine ⟨t, ht, ?_⟩
  rw [hwrites.userMem]
  exact UserMem.fill_singleton hro.1

end Xv6.Vm
