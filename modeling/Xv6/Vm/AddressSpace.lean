import Xv6.Vm.Exec

/-!
# What processes have mapped

From the first process on, through any calls of any processes, the page table of every process maps
exactly the pages below its size, the trapframe and the trampoline, and except for the trampoline no
page is mapped twice. The only panic that can be reached is the one of the first process when it
exits.
-/

namespace Xv6.Vm

/-- The page tables of all processes in use map what they should. -/
structure AddressSpaces (s : Machine) : Prop where
  /-- The pages that are mapped are those below the size, the trapframe and the trampoline. -/
  mapped : ∀ i, s.Live i → ∀ vpn < vpnLimit, (s.pte i vpn &&& PTE_V ≠ 0 ↔
    vpn < pgroundup (s.proc i).sz / PGSIZE ∨ vpn = trapframeVpn ∨ vpn = trampolineVpn)
  /-- Entries of higher levels map nothing themselves. -/
  nodes : ∀ i, s.Live i → ∀ k, s.phys.kmem.mem (s.proc i).pagetable k &&&
    (PTE_R ||| PTE_W ||| PTE_X) = 0 ∧ ∀ q, s.phys.kmem.child (s.proc i).pagetable k = some q →
      ∀ k, s.phys.kmem.mem q k &&& (PTE_R ||| PTE_W ||| PTE_X) = 0
  /-- No page but the trampoline is mapped twice. -/
  apart : ∀ i j v v', s.Live i → s.Live j → v < vpnLimit → v' < vpnLimit → v ≠ trampolineVpn →
    v' ≠ trampolineVpn → s.pte i v &&& PTE_V ≠ 0 → s.pte j v' &&& PTE_V ≠ 0 →
    pte2pa (s.pte i v) = pte2pa (s.pte j v') → i = j ∧ v = v'

/-! ### The invariant in terms of page tables -/

section Spaces

variable {s : Machine} {w : Store} {i : Slot}

/-- What the page that is mapped is used for. -/
theorem Holds.use {tr v : ℕ} {p : Proc} (h : Holds w tr i p) (hv : v < vpnLimit)
    (hne : v ≠ trampolineVpn) (hm : w.pte p.pagetable v ≠ 0) :
    w.use (pte2pa (w.pte p.pagetable v)) =
      if v = trapframeVpn then .frame i else .user p.pagetable v := by
  split_ifs with hframe
  · have hlt : p.trapframe < 2 ^ 44 := w.tidy.lt (by simp [h.frame])
    rw [hframe, h.space.frame, frameEntry, pte2pa_leaf hlt (by decide), h.frame]
  · exact ((Store.pte_ok h.space.root hv).resolve_left hm).2 ⟨hne, hframe⟩

theorem Spaces.addressSpaces (h : Spaces (fun _ => True) s w) : AddressSpaces s := by
  have hpte (i : Slot) (v : ℕ) : s.pte i v = w.pte (s.proc i).pagetable v := by
    rw [Machine.pte, Store.pte, h.kmem]
  have hvalid (i : Slot) (hi : s.Live i) (v : ℕ) (hv : v < vpnLimit) :
      s.pte i v &&& PTE_V ≠ 0 ↔ w.pte (s.proc i).pagetable v ≠ 0 := by
    rw [hpte]
    constructor
    · rintro hV h₀
      rw [h₀] at hV
      exact hV rfl
    · exact fun hne => ((Store.pte_ok (h.isRoot trivial hi) hv).resolve_left hne).1.valid
  refine ⟨fun i hi v hv => ?_, fun i hi k => ?_, fun i j v v' hi hj hv hv' hne hne' hm hm' he => ?_⟩
  · have hs := (h.holds i trivial hi).space
    rw [hvalid i hi v hv, pgroundup_eq hs.le, Nat.mul_div_cancel _ (by decide)]
    by_cases hu : IsUser v
    · rw [hs.user v hv hu]
      exact ⟨.inl, fun h => h.resolve_right fun h => h.elim hu.2 hu.1⟩
    · rcases not_and_or.1 hu with hu | hu <;> rw [not_not] at hu
      · rw [hu, hs.tramp]
        exact iff_of_true (trampolineEntry_ne_zero _) (.inr (.inr rfl))
      · rw [hu, hs.frame]
        exact iff_of_true (frameEntry_ne_zero _) (.inr (.inl rfl))
  · rw [h.kmem]
    have hroot := h.isRoot (i := i) trivial hi
    have hnode {p level pre : ℕ} (hp : w.use p = .table (s.proc i).pagetable (level + 1) pre)
        (k : Fin 512) : w.kmem.mem p k &&& (PTE_R ||| PTE_W ||| PTE_X) = 0 := by
      rcases w.tidy.node p _ level pre k hp (fun h => h) with h₀ | ⟨q, hq, -⟩
      · rw [h₀]
        rfl
      · rw [hq, node_not_leaf]
    refine ⟨hnode hroot k, fun q hq k' => ?_⟩
    rcases Store.child_cases hroot k with ⟨-, h₀⟩ | ⟨q', hq', hu⟩
    · simp [h₀] at hq
    · obtain rfl := Option.some.inj (hq'.symm.trans hq)
      exact hnode hu k'
  · have hu := (h.holds i trivial hi).use hv hne ((hvalid i hi v hv).1 hm)
    have hu' := (h.holds j trivial hj).use hv' hne' ((hvalid j hj v' hv').1 hm')
    rw [hpte, hpte] at he
    rw [he, hu'] at hu
    split_ifs at hu with h₁ h₂ h₂
    · exact ⟨(Use.frame.inj hu).symm, h₂.trans h₁.symm⟩
    · obtain ⟨hr, hvv⟩ := Use.user.inj hu
      exact ⟨(h.roots j i trivial trivial hj hi hr).symm, hvv.symm⟩

end Spaces

/-! ### Every state -/

/-- The first page of the first process. -/
theorem uvmfirst_leaves {w : Store} {r : ℕ} {tf tr : Word} (hs : Space w r 0 tf tr) (code : Page)
    (d : List Bool) : Leaves (uvmfirst r code) ⟨w.kmem, d⟩ fun ok t =>
      ok = true → ∃ w', t.kmem = w'.kmem ∧ Resizes r 1 tf tr w w' := by
  refine (kalloc_spec d).leaves.bind ?_
  rintro q ⟨m, d'⟩ ⟨w₁, rfl, hg, -, hq⟩
  by_cases h₀ : q = 0
  · rw [if_pos h₀]
    exact .throw _
  rw [if_neg h₀, ← bind_assoc]
  obtain ⟨hmem, hres, hc, -, hkeep⟩ := hq h₀
  have hmap := growPage_spec (PTE_W ||| PTE_R ||| PTE_X ||| PTE_U) (fill 0) hs (by decide)
    (by decide) hg (hc r) (still_of_kalloc hmem hkeep) hmem hres
  rw [Nat.zero_mul] at hmap
  refine (hmap d').leaves.bind ?_
  rintro (_ | _) ⟨m, d''⟩ ⟨w₂, rfl, hst, h⟩
  · -- the code is written to a page that has not been mapped
    intro ok t ht hok
    obtain ⟨rfl, -⟩ := Prod.mk.inj (Except.ok.inj ht)
    exact absurd hok (by decide)
  · replace h : Maps r 0 q _ w₁ w₂ := h.1
    have hr : Resizes r 1 tf tr w w₂ :=
      .of_maps hs hg hmem (hc r) h (isLeaf_mk q (by decide)).ne_zero hst
    have huse : w₂.use q = .user r 0 := (h.page (isUser_of_le (Nat.zero_le _))).2
    refine (writeUser_spec huse code d'').leaves.bind ?_
    rintro - ⟨m, d₃⟩ ⟨w₃, rfl, hg₃, hc₃, -⟩
    refine Runs.leaves (.pure fun _ => ⟨w₃, rfl, ?_⟩)
    exact .of_empty hs (hr.others.trans (.of_grows hg₃ hc₃)) (hr.space.of_grows hg₃)

theorem onPhys_leaves {α : Type} {x : PhysM α} {s : Machine} {R : α → Phys → Prop}
    (h : Leaves x s.phys R) :
    Leaves (ProcM.onPhys x) s fun a t => ∃ m, R a m ∧ t = { s with phys := m } := by
  intro a t ht
  rw [StateT.run, ProcM.onPhys] at ht
  cases hx : x.run s.phys with
  | error e =>
    rw [hx] at ht
    cases ht
  | ok y =>
    obtain ⟨b, m⟩ := y
    rw [hx] at ht
    obtain ⟨rfl, rfl⟩ := Prod.mk.inj (Except.ok.inj ht)
    exact ⟨m, h b m hx, rfl⟩

theorem slot_leaves {α : Type} {s : Machine} {Q : α → Machine → Prop} {i : Slot}
    {f : Proc → ProcM α} (h : Leaves (f (s.proc i)) s Q) : Leaves (ProcM.slot i >>= f) s Q := h

/-- Memory of which nothing is in use. -/
def Store.ofFree {m : Kmem} {l : List ℕ} (hm : m.Free l) : Store where
  kmem := m
  use _ := .none
  list := l
  tidy := ⟨hm, fun _ _ => rfl, fun _ h => absurd rfl h, by simp, by simp, by simp, by simp, by simp⟩
  mapped p r pre k h := by simp at h

/-- Before the first process, no memory is in use. -/
theorem boot_spaces {m : Kmem} {l : List ℕ} (hm : m.Free l) {trampoline : ℕ}
    (htr : trampoline < 2 ^ 44) : ∃ w, Spaces (fun _ => True) (boot m trampoline) w :=
  ⟨.ofFree hm, rfl, htr, fun _ _ _ => ⟨rfl, rfl, rfl⟩, fun _ _ h => absurd rfl h,
    fun _ _ _ _ h => absurd rfl h⟩

/-- The first process has an address space, if there is memory for its page. -/
theorem userinit_leaves {m : Kmem} {l : List ℕ} (hm : m.Free l) {trampoline : ℕ}
    (htr : trampoline < 2 ^ 44) (code : Page) : Leaves (userinit code) (boot m trampoline)
      fun ok t => ok = true → ∃ w, Spaces (fun _ => True) t w := by
  obtain ⟨w, h⟩ := boot_spaces hm htr
  refine (allocproc_spec h).leaves.bind ?_
  rintro (_ | j) t ⟨⟨⟨w₁, h₁⟩, -⟩, hj⟩
  · exact .throw _
  obtain ⟨-, hused, hsz, -⟩ := hj j rfl
  have hlive : (t.proc j).state ≠ .unused := by simp [hused]
  have hh := h₁.holds j trivial hlive
  have hspace := hh.space
  rw [hsz] at hspace
  have hfirst := uvmfirst_leaves hspace code t.phys.denied
  rw [← h₁.kmem] at hfirst
  refine slot_leaves ((onPhys_leaves hfirst).bind ?_)
  rintro ok - ⟨m', hok, rfl⟩
  refine Runs.leaves (.of_eq rfl fun h₀ => ?_)
  obtain ⟨w', hk, hr⟩ := hok h₀
  let t' : Machine :=
    { t with phys := m', proc := Function.update t.proc j { t.proc j with sz := PGSIZE } }
  have h' : Spaces (fun _ => True) t' w' := h₁.resize (n := PGSIZE) hlive hr ⟨rfl, rfl, hk⟩
  refine ⟨w', h'.congr rfl rfl fun i => ?_⟩
  by_cases hi : i = j
  · subst hi
    simp [t', hused]
  · simp [t', hi]

/-- Whether `exec` replaces the image of its caller. -/
def execs (i : Slot) (x : Program) (s : Machine) : Bool :=
  match (exec i x).run s with
  | .ok (n, _) => n ≠ -1
  | .error _ => false

/-- The processes whose memory an event is about. -/
def Event.concerns (s : Machine) : Event → Slot → Prop
  | .exec i x, j => j = i ∧ execs i x s = true
  | .sbrk i _, j | .exit i _, j | .store i _ _, j | .copyout i _ _, j => j = i
  | .wait _ _, j => (s.proc j).state = .zombie
  | .fork _, _ | .deny _, _ => False

/-- Every event keeps the invariant, and the memory of the other processes, or it is the first
process that exits. -/
theorem event_keeps {s : Machine} {w : Store} (h : Spaces (fun _ => True) s w) (e : Event)
    (ha : ∀ i ∈ e.caller, s.Active i) :
    Keeps (e.concerns s) s (event e) ∨ (event e).run s = .error .initExiting := by
  cases e with
  | fork i => exact .inl (discard_spec (fork_spec h (ha i rfl).1))
  | exec i x =>
    obtain ⟨n, t, hrun, hkeeps, -, -⟩ := exec_spec h (ha i rfl).1 x
    refine .inl (discard_spec (.of_eq hrun ⟨hkeeps.1, fun j hj => hkeeps.2 j fun hn => hj ?_⟩))
    exact ⟨hn.1, by simp [execs, hrun, hn.2]⟩
  | sbrk i n => exact .inl (discard_spec (growproc_keeps h (ha i rfl).1 _))
  | exit i status =>
    by_cases hi : i = initSlot
    · right
      rw [event, exit, if_pos hi]
      rfl
    · exact .inl (exit_spec h (ha i rfl).1 hi status)
  | wait i copied => exact .inl (wait_spec h copied)
  | store i vpn pg =>
    refine .inl ((store_spec h (ha i rfl).1 vpn pg).mono ?_)
    rintro _ t ⟨_, hwrites, _⟩
    exact hwrites.keeps
  | copyout i dstva src =>
    exact .inl ((copyoutEvent_spec h (ha i rfl).1 dstva src).mono fun _ _ h => h.keeps)
  | deny denied =>
    exact .inl (.of_eq rfl ⟨⟨w, h.congr rfl rfl fun _ => ⟨Iff.rfl, rfl, rfl, rfl⟩⟩,
      fun _ _ _ => .of_proc ⟨rfl, rfl⟩ rfl⟩)

theorem step_keeps {s t : Machine} {w : Store} {e : Event} (h : Spaces (fun _ => True) s w)
    (hs : step s e = some t) : (∀ i ∈ e.caller, s.Active i) ∧ (∃ y, (event e).run s = .ok (y, t)) ∧
      (∃ w, Spaces (fun _ => True) t w) ∧ Spares (e.concerns s) s t := by
  rw [step] at hs
  split_ifs at hs with ha
  match hrun : (event e).run s with
  | .error p =>
    rw [hrun] at hs
    exact absurd hs (by simp)
  | .ok (_, t') =>
    rw [hrun] at hs
    cases hs
    rcases event_keeps h e ha with hk | he
    · exact ⟨ha, ⟨_, rfl⟩, hk.elim hrun⟩
    · rw [hrun] at he
      exact absurd he (by simp)

/-- The invariant holds in every state after `userinit`. -/
theorem run_spaces {m : Kmem} {l : List ℕ} (hm : m.Free l) {trampoline : ℕ}
    (htr : trampoline < 2 ^ 44) {code : Page} {s₀ s : Machine}
    (hinit : (userinit code).run (boot m trampoline) = .ok (true, s₀)) {es : List Event}
    (hrun : runEvents step s₀ es = some s) : ∃ w, Spaces (fun _ => True) s w := by
  refine runEvents_invariant (I := fun s => ∃ w, Spaces (fun _ => True) s w) ?_
    (userinit_leaves hm htr code true s₀ hinit rfl) hrun
  rintro s e t ⟨w, h⟩ hs
  exact (step_keeps h hs).2.2.1

/-- **Address spaces are exact.** Once the first process is there, in every state that calls of
processes lead to, the page table of every process maps exactly the pages below its size, its
trapframe and the trampoline, no page but the trampoline is mapped twice, and no call panics, except
that the first process must not exit. -/
theorem address_spaces_exact {m : Kmem} {l : List ℕ} (hm : m.Free l) {trampoline : ℕ}
    (htr : trampoline < 2 ^ 44) {code : Page} {s₀ s : Machine}
    (hinit : (userinit code).run (boot m trampoline) = .ok (true, s₀)) {es : List Event}
    (hrun : runEvents step s₀ es = some s) :
    AddressSpaces s ∧ ∀ e : Event, (∀ i ∈ e.caller, s.Active i) →
      ∀ p, (event e).run s = .error p → p = .initExiting := by
  obtain ⟨w, h⟩ := run_spaces hm htr hinit hrun
  refine ⟨h.addressSpaces, fun e ha p hp => ?_⟩
  rcases event_keeps h e ha with hk | he
  · exact absurd hp (hk.not_error p)
  · rw [hp] at he
    exact Except.error.inj he

/-! ### A small machine -/

/-- Memory with thirty-two free pages. -/
def somePages : Kmem where
  mem p := fun _ => if p < 0x87fff then addrOf (p + 1) else 0
  freelist := 0x87fe0
  first := 0x80100

theorem somePages_free : somePages.Free (List.range' 0x87fe0 32) where
  first_pos := by decide
  isList := by decide +kernel
  range := by decide

/-- A child grows, fails to grow once more in the middle of it, shrinks and exits, and there is
another child. -/
def forkAndGrow : List Event :=
  [.fork 0, .sbrk 1 5000, .deny [false, true], .sbrk 1 9000, .sbrk 1 (-6000), .exit 1 0, .fork 0]

/-- The state after the first process and some events. -/
def runFrom (m : Kmem) (es : List Event) : Option Machine :=
  match (userinit (fill 0)).run (boot m 0x80007) with
  | .ok (true, s) => runEvents step s es
  | _ => none

theorem address_spaces_exact_forkAndGrow : ∃ s₀ s,
    (userinit (fill 0)).run (boot somePages 0x80007) = .ok (true, s₀) ∧
      runEvents step s₀ forkAndGrow = some s ∧ (s.proc 1).sz = 3096 ∧ s.Live 2 ∧
      AddressSpaces s := by
  obtain ⟨s, hs, hsz, hlive⟩ : ∃ s, runFrom somePages forkAndGrow = some s ∧ (s.proc 1).sz = 3096 ∧
    s.Live 2 := by decide +kernel
  rw [runFrom] at hs
  split at hs
  · next s₀ hinit =>
    exact ⟨s₀, s, hinit, hs, hsz, hlive,
      (address_spaces_exact somePages_free (by decide) hinit hs).1⟩
  · exact absurd hs (by simp)

end Xv6.Vm
