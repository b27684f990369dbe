import Xv6.Vm.Image

/-!
# The address spaces of all processes

Every process that is in use has an address space of its own: a page table that maps its size,
trapframe and trampoline, over pages that no other process has. All calls keep this, also when they
give up in the middle because there is no memory, and in no state that they can reach does one of
them panic. They leave the memory of the processes that they are not about alone.
-/

namespace Xv6.Vm

open Function (update update_self update_of_ne update_eq_self)

/-- The process in slot `i` has an address space. -/
structure Holds (w : Store) (tr : ℕ) (i : Slot) (p : Proc) : Prop where
  space : Space w p.pagetable (pages p.sz) (frameEntry p.trapframe) (trampolineEntry tr)
  frame : w.use p.trapframe = .frame i

/-- The slots in `D` are as they should be: a slot in use has an address space, which is not that of
another slot, and the others have nothing. -/
structure Spaces (D : Slot → Prop) (s : Machine) (w : Store) : Prop where
  kmem : s.phys.kmem = w.kmem
  trampoline : s.trampoline < 2 ^ 44
  unused : ∀ i, D i → (s.proc i).state = .unused →
    (s.proc i).pagetable = 0 ∧ (s.proc i).trapframe = 0 ∧ (s.proc i).sz = 0
  holds : ∀ i, D i → (s.proc i).state ≠ .unused → Holds w s.trampoline i (s.proc i)
  roots : ∀ i j, D i → D j → (s.proc i).state ≠ .unused → (s.proc j).state ≠ .unused →
    (s.proc i).pagetable = (s.proc j).pagetable → i = j

/-- The entry for a virtual page in the page table of the process in slot `i`. -/
def Machine.pte (s : Machine) (i : Slot) (vpn : ℕ) : Word :=
  s.phys.kmem.pte (s.proc i).pagetable vpn

/-- The memory of the process in slot `i`. -/
def Machine.userMem (s : Machine) (i : Slot) : UserMem := s.phys.kmem.userMem (s.proc i).pagetable

/-- The slot is in use. -/
def Machine.Live (s : Machine) (i : Slot) : Prop := (s.proc i).state ≠ .unused

instance (s : Machine) (i : Slot) : Decidable (s.Live i) := inferInstanceAs (Decidable (_ ≠ _))

/-- The process in slot `i` has the memory that it had. -/
structure SameUser (i : Slot) (s t : Machine) : Prop where
  state : (t.proc i).state = (s.proc i).state
  pte : ∀ v < vpnLimit, t.pte i v = s.pte i v
  userMem : t.userMem i = s.userMem i

/-- So have all processes that are not in `X`. -/
def Spares (X : Slot → Prop) (s t : Machine) : Prop := ∀ i, ¬ X i → s.Live i → SameUser i s t

/-- The program keeps the invariant, and the memory of the processes that are not in `X`. -/
def Keeps (X : Slot → Prop) (s : Machine) {α : Type} (x : ProcM α) : Prop :=
  Runs x s fun _ t => (∃ w, Spaces (fun _ => True) t w) ∧ Spares X s t

/-! ### Steps of programs -/

/-- The process table is `proc` after a step, and physical memory is as `w` says. -/
structure Changes (s t : Machine) (proc : Slot → Proc) (w : Store) : Prop where
  proc : t.proc = proc
  trampoline : t.trampoline = s.trampoline
  kmem : t.phys.kmem = w.kmem

section Steps

variable {α : Type} {s : Machine} {w : Store} {Q : α → Machine → Prop}

/-- A program on physical memory. -/
theorem onPhys_spec {x : PhysM α} {R : α → Store → Prop} (h : Does w x R)
    (hk : s.phys.kmem = w.kmem) :
    Runs (ProcM.onPhys x) s fun a t => ∃ w', R a w' ∧ Changes s t s.proc w' := by
  obtain ⟨a, ⟨m, d⟩, hrun, w', rfl, hR⟩ := h s.phys.denied
  rw [← hk] at hrun
  refine .of_eq (a := a) (t := { s with phys := ⟨w'.kmem, d⟩ }) ?_ ⟨w', hR, rfl, rfl, rfl⟩
  rw [StateT.run, ProcM.onPhys, hrun]

theorem update_spec (i : Slot) (g : Proc → Proc) (hk : s.phys.kmem = w.kmem) :
    Runs (ProcM.update i g) s fun _ t =>
      Changes s t (update s.proc i (g (s.proc i))) w :=
  .of_eq rfl ⟨rfl, rfl, hk⟩

theorem slot_bind {i : Slot} {f : Proc → ProcM α} (h : Runs (f (s.proc i)) s Q) :
    Runs (ProcM.slot i >>= f) s Q := h

theorem discard_spec {x : ProcM α} {R : Machine → Prop} (h : Runs x s fun _ t => R t) :
    Runs (discard x) s fun _ t => R t := Runs.bind h fun _ _ ht => .pure ht

theorem get_bind {f : Machine → ProcM α} (h : Runs (f s) s Q) : Runs (get >>= f) s Q := h

end Steps

/-! ### The invariant -/

theorem Holds.of_others {w w' : Store} {q tr : ℕ} {i : Slot} {p : Proc} (h : Holds w tr i p)
    (ho : Others q w w') (hq : p.pagetable ≠ q) : Holds w' tr i p where
  space := ho.space h.space hq
  frame := by
    have hne : w.use p.trapframe ≠ .none := by simp [h.frame]
    rw [(ho.keep _ (w.tidy.notMem hne) (by simp [h.frame, Use.Of])).2, h.frame]

namespace Spaces

variable {D : Slot → Prop} {s t : Machine} {w w' : Store} {i j : Slot} {p : Proc} {q : ℕ}

theorem isRoot (h : Spaces D s w) (hi : D i) (hu : (s.proc i).state ≠ .unused) :
    w.IsRoot (s.proc i).pagetable := (h.holds i hi hu).space.root

/-- Something happens outside of all address spaces. -/
theorem of_others (h : Spaces D s w) (ho : Others q w w') (hq : ∀ i, D i →
    (s.proc i).state ≠ .unused → (s.proc i).pagetable ≠ q) (hc : Changes s t s.proc w') :
    Spaces D t w' where
  kmem := hc.kmem
  trampoline := hc.trampoline ▸ h.trampoline
  unused := hc.proc ▸ h.unused
  holds i hi hu := by
    rw [hc.proc] at hu ⊢
    rw [hc.trampoline]
    exact (h.holds i hi hu).of_others ho (hq i hi hu)
  roots := hc.proc ▸ h.roots

theorem of_grows (h : Spaces D s w) (hg : Grows w w') (hc : Changes s t s.proc w') :
    Spaces D t w' where
  kmem := hc.kmem
  trampoline := hc.trampoline ▸ h.trampoline
  unused := hc.proc ▸ h.unused
  holds i hi hu := by
    rw [hc.proc] at hu ⊢
    rw [hc.trampoline]
    have hh := h.holds i hi hu
    exact ⟨hh.space.of_grows hg, (hg.use (by simp [hh.frame])).trans hh.frame⟩
  roots := hc.proc ▸ h.roots

/-- A slot is left out, and may then be changed. -/
theorem leave (h : Spaces D s w) (hD : ∀ i, i ≠ j → D i)
    (hc : Changes s t (update s.proc j p) w) : Spaces (fun i => i ≠ j) t w := by
  have hsame (i : Slot) (hi : i ≠ j) : t.proc i = s.proc i := by
    rw [hc.proc, update_of_ne hi]
  refine ⟨hc.kmem, hc.trampoline ▸ h.trampoline, fun i hi hu => ?_, fun i hi hu => ?_,
    fun i k hi hk hu hu' he => ?_⟩
  · rw [hsame i hi] at hu ⊢
    exact h.unused i (hD i hi) hu
  · rw [hsame i hi] at hu ⊢
    rw [hc.trampoline]
    exact h.holds i (hD i hi) hu
  · rw [hsame i hi] at hu he
    rw [hsame k hk] at hu' he
    exact h.roots i k (hD i hi) (hD k hk) hu hu' he

/-- The slot that has been left out is as it should be again. -/
theorem join (h : Spaces (fun i => i ≠ j) s w)
    (hu : p.state = .unused → p.pagetable = 0 ∧ p.trapframe = 0 ∧ p.sz = 0)
    (hp : p.state ≠ .unused → Holds w s.trampoline j p)
    (hr : ∀ i ≠ j, p.state ≠ .unused → (s.proc i).state ≠ .unused →
      (s.proc i).pagetable ≠ p.pagetable)
    (hc : Changes s t (update s.proc j p) w) : Spaces (fun _ => True) t w := by
  have hsame (i : Slot) (hi : i ≠ j) : t.proc i = s.proc i := by
    rw [hc.proc, update_of_ne hi]
  have hself : t.proc j = p := by rw [hc.proc, update_self]
  refine ⟨hc.kmem, hc.trampoline ▸ h.trampoline, fun i _ => ?_, fun i _ => ?_,
    fun i k _ _ hi hk he => ?_⟩
  · by_cases hij : i = j
    · rwa [hij, hself]
    · rw [hsame i hij]
      exact h.unused i hij
  · rw [hc.trampoline]
    by_cases hij : i = j
    · rwa [hij, hself]
    · rw [hsame i hij]
      exact h.holds i hij
  · by_cases hij : i = j <;> by_cases hkj : k = j
    · rw [hij, hkj]
    · rw [hij, hself] at he hi
      rw [hsame k hkj] at he hk
      exact absurd he.symm (hr k hkj hi hk)
    · rw [hkj, hself] at he hk
      rw [hsame i hij] at he hi
      exact absurd he (hr i hij hk hi)
    · rw [hsame i hij] at he hi
      rw [hsame k hkj] at he hk
      exact h.roots i k hij hkj hi hk he

/-- Nothing that matters here is changed. -/
theorem congr (h : Spaces D s w) {t : Machine} (hphys : t.phys.kmem = s.phys.kmem)
    (htr : t.trampoline = s.trampoline)
    (hproc : ∀ i, ((t.proc i).state = .unused ↔ (s.proc i).state = .unused) ∧
      (t.proc i).pagetable = (s.proc i).pagetable ∧ (t.proc i).trapframe = (s.proc i).trapframe ∧
      (t.proc i).sz = (s.proc i).sz) : Spaces D t w := by
  refine ⟨hphys.trans h.kmem, htr ▸ h.trampoline, fun i hi hu => ?_, fun i hi hu => ?_,
    fun i k hi hk hu hu' he => ?_⟩
  · obtain ⟨hst, hpt, htf, hsz⟩ := hproc i
    rw [hpt, htf, hsz]
    exact h.unused i hi (hst.1 hu)
  · obtain ⟨hst, hpt, htf, hsz⟩ := hproc i
    obtain ⟨h₁, h₂⟩ := h.holds i hi (mt hst.2 hu)
    refine ⟨?_, ?_⟩
    · rwa [hpt, htf, hsz, htr]
    · rwa [htf]
  · rw [(hproc i).2.1, (hproc k).2.1] at he
    exact h.roots i k hi hk (mt (hproc i).1.2 hu) (mt (hproc k).1.2 hu') he

end Spaces

/-! ### The memory of other processes -/

section Spares

variable {D X Y : Slot → Prop} {s t u : Machine} {w w' : Store} {i : Slot} {q : ℕ}

theorem SameUser.trans (h : SameUser i s t) (h' : SameUser i t u) : SameUser i s u where
  state := h'.state.trans h.state
  pte v hv := (h'.pte v hv).trans (h.pte v hv)
  userMem := h'.userMem.trans h.userMem

theorem SameUser.of_proc (hproc : (t.proc i).state = (s.proc i).state ∧
    (t.proc i).pagetable = (s.proc i).pagetable) (hk : t.phys.kmem = s.phys.kmem) :
    SameUser i s t where
  state := hproc.1
  pte v _ := by rw [Machine.pte, Machine.pte, hk, hproc.2]
  userMem := by rw [Machine.userMem, Machine.userMem, hk, hproc.2]

/-- Page table and pages of the process are kept. -/
theorem Spaces.sameUser (h : Spaces D s w) (hi : D i) (hu : s.Live i)
    (hproc : t.proc i = s.proc i) (hk : t.phys.kmem = w'.kmem)
    (hpte : ∀ v < vpnLimit, w'.pte (s.proc i).pagetable v = w.pte (s.proc i).pagetable v)
    (hmem : ∀ p v, w.use p = .user (s.proc i).pagetable v → w'.kmem.mem p = w.kmem.mem p) :
    SameUser i s t where
  state := by rw [hproc]
  pte v hv := by
    rw [Machine.pte, Machine.pte, hk, hproc, h.kmem]
    exact hpte v hv
  userMem := by
    rw [Machine.userMem, Machine.userMem, hk, hproc, h.kmem]
    exact (h.holds i hi hu).space.userMem_congr hpte hmem

theorem Spaces.sameUser_of_others (h : Spaces D s w) (hi : D i) (hu : s.Live i)
    (hproc : t.proc i = s.proc i) (hk : t.phys.kmem = w'.kmem) (ho : Others q w w')
    (hq : (s.proc i).pagetable ≠ q) : SameUser i s t := by
  refine h.sameUser hi hu hproc hk (fun v hv => ho.pte _ v (h.isRoot hi hu) hq hv) fun p v hp => ?_
  refine ho.mem (w.tidy.notMem (by simp [hp])) ?_
  rw [hp]
  exact hq

theorem Spares.refl (X : Slot → Prop) (s : Machine) : Spares X s s := fun _ _ _ =>
  .of_proc ⟨rfl, rfl⟩ rfl

theorem Spares.trans (h : Spares X s t) (h' : Spares Y t u)
    (hXY : ∀ i, s.Live i → Y i → X i) : Spares X s u := fun i hi hu =>
  (h i hi hu).trans (h' i (mt (hXY i hu) hi) fun hu' => hu ((h i hi hu).state ▸ hu'))

/-- The program comes after something that leaves the memory of processes alone, too. -/
theorem Keeps.after {α : Type} {x : ProcM α} (hx : Keeps Y t x) (h : Spares X s t)
    (hXY : ∀ i, s.Live i → Y i → X i) :
    Runs x t fun _ u => (∃ w, Spaces (fun _ => True) u w) ∧ Spares X s u :=
  hx.mono fun _ _ ⟨hw, h'⟩ => ⟨hw, h.trans h' hXY⟩

end Spares

/-! ### Freeing processes -/

section Calls

variable {s : Machine} {w : Store} {i j : Slot}

/-- The trapframe of a slot is freed. -/
theorem kfreeFrame_spec {p : ℕ} (hp : w.use p = .frame j) :
    Does w (kfree p) fun _ w' => (∀ r n tf tr, Space w r n tf tr → Space w' r n tf tr) ∧
      (∀ i q, i ≠ j → w.use q = .frame i → w'.use q = .frame i) ∧
      (∀ r v, w.IsRoot r → v < vpnLimit → w'.pte r v = w.pte r v) ∧
      ∀ q ≠ p, w'.kmem.mem q = w.kmem.mem q := by
  have ht : ¬ (w.use p).IsTable := by simp [hp, Use.IsTable]
  have hne : w.use p ≠ .none := by simp [hp]
  refine (kfree_spec ht (w.tidy.notMem hne) (w.tidy.range p hne) (by simp [hp])).mono ?_
  rintro - w' ⟨hfirst, hkeep, -, hmem, hpte⟩
  refine ⟨fun r n tf tr hs => hs.congr ?_ fun v hv => hpte r v hs.root hv, fun i q hi hq => ?_,
    hpte, hmem⟩
  · have hr : w.use r ≠ .none := by
      rw [hs.root]
      simp
    rw [Store.IsRoot, (hkeep r (w.tidy.notMem hr) (Tidy.ne_of_table ht hs.root)).2, hs.root]
  · have hqp : q ≠ p := by
      rintro rfl
      exact hi (by simpa [hp] using hq.symm)
    rw [(hkeep q (w.tidy.notMem (by simp [hq])) hqp).2, hq]

theorem freeproc_spec (h : Spaces (fun i => i ≠ j) s w)
    (htf : (s.proc j).trapframe ≠ 0 → w.use (s.proc j).trapframe = .frame j)
    (hpt : (s.proc j).pagetable ≠ 0 → ∃ tf tr, tf ≠ 0 ∧ tr ≠ 0 ∧
      Space w (s.proc j).pagetable (pages (s.proc j).sz) tf tr)
    (hr : ∀ i ≠ j, (s.proc i).state ≠ .unused → (s.proc i).pagetable ≠ (s.proc j).pagetable) :
    Keeps (· = j) s (freeproc j) := by
  have hfree {s : Machine} {w : Store} (h : Spaces (fun i => i ≠ j) s w) :
      Keeps (· = j) s (ProcM.update j Proc.free) := by
    refine (update_spec j Proc.free h.kmem).mono fun _ t hc => ⟨⟨w, ?_⟩, fun i hi _ => ?_⟩
    · exact h.join (fun _ => ⟨rfl, rfl, rfl⟩) (fun h => absurd rfl h) (fun i _ h => absurd rfl h) hc
    · exact .of_proc (by rw [hc.proc, update_of_ne hi]; exact ⟨rfl, rfl⟩)
        (hc.kmem.trans h.kmem.symm)
  have hpages {s : Machine} {w : Store} (h : Spaces (fun i => i ≠ j) s w) {pt sz : ℕ}
      (hpt : pt ≠ 0 → ∃ tf tr, tf ≠ 0 ∧ tr ≠ 0 ∧ Space w pt (pages sz) tf tr)
      (hr : ∀ i ≠ j, (s.proc i).state ≠ .unused → (s.proc i).pagetable ≠ pt) :
      Keeps (· = j) s (do
        if pt ≠ 0 then ProcM.onPhys (procFreepagetable pt sz)
        ProcM.update j Proc.free) := by
    by_cases h₀ : pt ≠ 0
    · obtain ⟨tf, tr, htf, htr, hs⟩ := hpt h₀
      rw [if_pos h₀]
      refine (onPhys_spec (procFreepagetable_spec hs htf htr) h.kmem).bind ?_
      rintro - t ⟨w', ⟨ho, -⟩, hc⟩
      refine (hfree (h.of_others ho hr hc)).after (fun i hi hu => ?_) fun _ _ hi => hi
      exact h.sameUser_of_others hi hu (by rw [hc.proc]) hc.kmem ho (hr i hi hu)
    · rw [if_neg h₀]
      exact hfree h
  refine slot_bind ?_
  by_cases h₀ : (s.proc j).trapframe ≠ 0
  · rw [if_pos h₀]
    refine (onPhys_spec (kfreeFrame_spec (htf h₀)) h.kmem).bind ?_
    rintro - t ⟨w', ⟨hspace, hframe, hpte, hmem⟩, hc⟩
    have h' : Spaces (fun i => i ≠ j) t w' := by
      refine ⟨hc.kmem, hc.trampoline ▸ h.trampoline, hc.proc ▸ h.unused, fun i hi hu => ?_,
        hc.proc ▸ h.roots⟩
      rw [hc.proc] at hu ⊢
      rw [hc.trampoline]
      have hh := h.holds i hi hu
      exact ⟨hspace _ _ _ _ hh.space, hframe i _ hi hh.frame⟩
    refine (hpages h' (fun h₁ => ?_) (hc.proc ▸ hr)).after (fun i hi hu => ?_) fun _ _ hi => hi
    · obtain ⟨tf, tr, htf, htr, hs⟩ := hpt h₁
      exact ⟨tf, tr, htf, htr, hspace _ _ _ _ hs⟩
    · refine h.sameUser hi hu (by rw [hc.proc]) hc.kmem
        (fun v hv => hpte _ v (h.isRoot hi hu) hv) fun p v hp => hmem p ?_
      rintro rfl
      simp [htf h₀] at hp
  · rw [if_neg h₀]
    exact hpages h hpt hr

theorem frameEntry_ne_zero (p : ℕ) : frameEntry p ≠ 0 := (isLeaf_mk p (by decide)).ne_zero

theorem trampolineEntry_ne_zero (p : ℕ) : trampolineEntry p ≠ 0 :=
  (isLeaf_mk p (by decide)).ne_zero

/-- A slot in use is freed. -/
theorem freeproc_keeps (h : Spaces (fun _ => True) s w) (hj : (s.proc j).state ≠ .unused) :
    Keeps (· = j) s (freeproc j) := by
  have hh := h.holds j trivial hj
  have hl : Spaces (fun i => i ≠ j) s w :=
    h.leave (fun _ _ => trivial) ⟨(update_eq_self j s.proc).symm, rfl, h.kmem⟩
  refine freeproc_spec hl (fun _ => hh.frame) (fun _ => ?_) fun i hi hu he => ?_
  · exact ⟨_, _, frameEntry_ne_zero _, trampolineEntry_ne_zero _, hh.space⟩
  · exact hi (h.roots i j trivial trivial hu hj he)

/-! ### New processes -/

/-- `kalloc` for the trapframe of a slot. -/
theorem kallocFrame_spec (j : Slot) :
    Does w kalloc fun p w' => Grows w w' ∧ Still w w' ∧ (p ≠ 0 → w'.use p = .frame j) := by
  rw [← bind_pure kalloc]
  refine kalloc_spec.bind fun p w₁ ⟨hg, hnone, hp⟩ => ?_
  by_cases h₀ : p = 0
  · exact .pure ⟨hg, hnone h₀ ▸ .refl w, fun h => absurd h₀ h⟩
  obtain ⟨hmem, hres, -, -, hkeep⟩ := hp h₀
  have ht : ¬ (w₁.use p).IsTable := by simp [hres.use, Use.IsTable]
  have hmapped : Exact w₁.kmem (update w₁.use p (.frame j)) := by
    refine w₁.mapped.congr (fun q r v hq => ?_) fun t r pre htable => ⟨?_, rfl⟩
    · by_cases hqp : q = p
      · simp [hqp] at hq
      · rwa [update_of_ne hqp] at hq
    · exact (update_of_ne (Tidy.ne_of_table ht htable) _ _).trans htable
  refine .ghost ⟨_, _, _, w₁.tidy.relabel (o := .frame j) ht (fun h => h)
    (fun _ => ⟨hres.notMem, hres.range⟩) fun _ _ _ _ h => by simp [hres.use] at h, hmapped⟩ rfl
    (.pure ?_)
  refine ⟨⟨hg.first, fun q hq => ?_, hg.pte⟩, still_of_kalloc hmem hkeep,
    fun _ => update_self _ _ _⟩
  have hqp : q ≠ p := fun he => hq (he ▸ hmem)
  exact ⟨(hg.keep q hq).1, (update_of_ne hqp _ _).trans (hg.keep q hq).2⟩

/-- What `allocproc` does for its caller: a slot that was not in use gets an empty address space. -/
def Allocates (s : Machine) (o : Option Slot) (t : Machine) : Prop :=
  ((∃ w, Spaces (fun _ => True) t w) ∧ Spares (fun _ => False) s t) ∧
    ∀ j, o = some j → (s.proc j).state = .unused ∧ (t.proc j).state = .used ∧ (t.proc j).sz = 0 ∧
      ∀ i ≠ j, t.proc i = s.proc i

/-- The slot `j` while `allocproc` is at work on it. -/
structure Building (s : Machine) (j : Slot) (tf pt : ℕ) (t : Machine) (w : Store) : Prop where
  spaces : Spaces (fun i => i ≠ j) t w
  spares : Spares (fun _ => False) s t
  same : ∀ i ≠ j, t.proc i = s.proc i
  trapframe : (t.proc j).trapframe = tf
  pagetable : (t.proc j).pagetable = pt
  sz : (t.proc j).sz = 0
  roots : ∀ i ≠ j, (t.proc i).state ≠ .unused → (t.proc i).pagetable ≠ pt

theorem allocFound_spec (h : Spaces (fun _ => True) s w) (hj : (s.proc j).state = .unused) :
    Runs (allocFound j) s (Allocates s) := by
  obtain ⟨hpt, htf, hsz⟩ := h.unused j trivial hj
  have hnot (i : Slot) (hu : s.Live i) (hi : i = j) : False := hu (hi ▸ hj)
  have hfail {t : Machine} (hsp : Spares (fun _ => False) s t)
      (hk : Keeps (· = j) t (freeproc j)) :
      Runs (freeproc j >>= fun _ => pure none) t (Allocates s) :=
    (hk.after hsp hnot).bind fun _ t ht => .pure ⟨ht, fun j hj => by simp at hj⟩
  refine (Runs.of_eq (x := allocpid) rfl (Q := fun _ t => Changes s t s.proc w)
    ⟨rfl, rfl, h.kmem⟩).bind ?_
  intro pid t₁ hc₁
  have h₁ := h.of_grows (.refl w) hc₁
  refine (onPhys_spec (kallocFrame_spec j) h₁.kmem).bind ?_
  rintro tf t₂ ⟨w₂, ⟨hg₂, hst₂, hframe₂⟩, hc₂⟩
  have h₂ := h₁.of_grows hg₂ hc₂
  have hproc₂ : t₂.proc = s.proc := hc₂.proc.trans hc₁.proc
  refine (update_spec j _ h₂.kmem).bind fun _ t₃ hc₃ => ?_
  have hself₃ : t₃.proc j = { s.proc j with pid := pid, state := .used, trapframe := tf } := by
    rw [hc₃.proc, update_self, hproc₂]
  have h₃ : Building s j tf 0 t₃ w₂ := by
    have hs := h₂.leave (fun _ _ => trivial) hc₃
    have hsame (i : Slot) (hi : i ≠ j) : t₃.proc i = s.proc i := by
      rw [hc₃.proc, update_of_ne hi, hproc₂]
    refine ⟨hs, fun i _ hu => ?_, hsame, ?_, ?_, ?_, fun i hi hu h₀ => w₂.not_isRoot_zero ?_⟩
    · refine h.sameUser trivial hu (hsame i (hnot i hu)) hc₃.kmem
        (fun v hv => hg₂.pte _ v (h.isRoot trivial hu) hv) fun p v hp => hst₂ p ?_ ?_
      · exact w.tidy.notMem (by simp [hp])
      · simp [hp, Use.IsTable]
    · rw [hself₃]
    · rw [hself₃]
      exact hpt
    · rw [hself₃]
      exact hsz
    · exact h₀ ▸ hs.isRoot hi hu
  by_cases h₀ : tf = 0
  · rw [if_pos h₀]
    refine hfail h₃.spares (freeproc_spec h₃.spaces (fun hne => ?_) (fun hne => ?_) ?_)
    · exact absurd (h₃.trapframe.trans h₀) hne
    · exact absurd h₃.pagetable hne
    · rw [h₃.pagetable]
      exact h₃.roots
  rw [if_neg h₀]
  refine get_bind ?_
  have hlt : tf < 2 ^ 44 := w₂.tidy.lt (by simp [hframe₂ h₀])
  refine (onPhys_spec (procPagetable_spec h₃.spaces.trampoline hlt) h₃.spaces.kmem).bind ?_
  rintro pt t₄ ⟨w₄, ⟨q, hq, ho₄, -, hspace₄⟩, hc₄⟩
  have hq₄ (i : Slot) (hi : i ≠ j) (hu : (t₃.proc i).state ≠ .unused) :
      (t₃.proc i).pagetable ≠ q := by
    rintro rfl
    exact hq (h₃.spaces.isRoot hi hu)
  have h₄ := h₃.spaces.of_others ho₄ hq₄ hc₄
  have hframe₄ : w₄.use tf = .frame j := by
    have hne : w₂.use tf ≠ .none := by simp [hframe₂ h₀]
    rw [(ho₄.keep tf (w₂.tidy.notMem hne) (by simp [hframe₂ h₀, Use.Of])).2, hframe₂ h₀]
  refine (update_spec j _ h₄.kmem).bind fun _ t₅ hc₅ => ?_
  have hself₅ : t₅.proc j = { t₃.proc j with pagetable := pt } := by
    rw [hc₅.proc, update_self, hc₄.proc]
  have hsame₅ (i : Slot) (hi : i ≠ j) : t₅.proc i = t₃.proc i := by
    rw [hc₅.proc, update_of_ne hi, hc₄.proc]
  have h₅ : Building s j tf pt t₅ w₄ := by
    have hs := h₄.leave (fun _ hi => hi) hc₅
    have hsp : Spares (· = j) t₃ t₅ := fun i hi hu =>
      h₃.spaces.sameUser_of_others hi hu (hsame₅ i hi) hc₅.kmem ho₄ (hq₄ i hi hu)
    refine ⟨hs, h₃.spares.trans hsp hnot, fun i hi => (hsame₅ i hi).trans (h₃.same i hi),
      ?_, ?_, ?_, fun i hi hu he => ?_⟩
    · rw [hself₅]
      exact h₃.trapframe
    · rw [hself₅]
    · rw [hself₅]
      exact h₃.sz
    · by_cases hpt₀ : pt = 0
      · exact w₄.not_isRoot_zero (hpt₀ ▸ he ▸ hs.isRoot hi hu)
      · rw [hsame₅ i hi] at hu he
        exact hq₄ i hi hu (he.trans (hspace₄ hpt₀).1)
  by_cases hpt₀ : pt = 0
  · rw [if_pos hpt₀]
    refine hfail h₅.spares (freeproc_spec h₅.spaces (fun _ => ?_) (fun hne => ?_) ?_)
    · rw [h₅.trapframe]
      exact hframe₄
    · exact absurd (h₅.pagetable.trans hpt₀) hne
    · rw [h₅.pagetable]
      exact h₅.roots
  rw [if_neg hpt₀]
  refine get_bind ((update_spec j _ h₅.spaces.kmem).bind fun _ t₆ hc₆ => ?_)
  have htr₅ : t₅.trampoline = t₃.trampoline := hc₅.trampoline.trans hc₄.trampoline
  have h₆ : Spaces (fun _ => True) t₆ w₄ := by
    refine h₅.spaces.join (fun h => ?_) (fun _ => ⟨?_, hframe₄⟩)
      (fun i hi _ hu => h₅.roots i hi hu) hc₆
    · exact absurd h (by simp [Proc.allocInit])
    · have hsz₅ : ((t₅.proc j).allocInit pid tf pt t₅.ticks t₅.npnq0).sz = 0 := h₅.sz
      rw [hsz₅, htr₅]
      exact (hspace₄ hpt₀).2
  have hself₆ : t₆.proc j = (t₅.proc j).allocInit pid tf pt t₅.ticks t₅.npnq0 := by
    rw [hc₆.proc, update_self]
  have hsp₆ : Spares (· = j) t₅ t₆ := fun i hi _ =>
    .of_proc (by rw [hc₆.proc, update_of_ne hi]; exact ⟨rfl, rfl⟩)
      (hc₆.kmem.trans h₅.spaces.kmem.symm)
  refine .of_eq rfl ⟨⟨⟨w₄, h₆.congr rfl rfl fun _ => ⟨Iff.rfl, rfl, rfl, rfl⟩⟩, ?_⟩, ?_⟩
  · exact (h₅.spares.trans hsp₆ hnot).trans (Y := fun _ => False)
      (fun _ _ _ => .of_proc ⟨rfl, rfl⟩ rfl) fun _ _ h => h
  intro j' hj'
  cases hj'
  refine ⟨hj, ?_, ?_, fun i hi => ?_⟩
  · change (t₆.proc j).state = _
    rw [hself₆]
    rfl
  · change (t₆.proc j).sz = _
    rw [hself₆]
    exact h₅.sz
  · change t₆.proc i = _
    rw [hc₆.proc, update_of_ne hi, h₅.same i hi]

theorem allocproc_spec (h : Spaces (fun _ => True) s w) : Runs allocproc s (Allocates s) := by
  refine get_bind ?_
  cases hf : s.findUnused with
  | none => exact .pure ⟨⟨⟨w, h⟩, .refl _ s⟩, fun j hj => by simp at hj⟩
  | some j => exact allocFound_spec h (by simpa using List.find?_some hf)

/-- A slot in use is left out, and what is known about it is kept. -/
theorem Spaces.leave_self (h : Spaces (fun _ => True) s w) (j : Slot) :
    Spaces (fun i => i ≠ j) s w :=
  h.leave (fun _ _ => trivial) ⟨(update_eq_self j s.proc).symm, rfl, h.kmem⟩

theorem Spaces.ne_of_ne (h : Spaces (fun _ => True) s w) (hj : (s.proc j).state ≠ .unused)
    (i : Slot) (hi : i ≠ j) (hu : (s.proc i).state ≠ .unused) :
    (s.proc i).pagetable ≠ (s.proc j).pagetable := fun he =>
  hi (h.roots i j trivial trivial hu hj he)

/-- Writing to the trapframe of a slot. -/
theorem writeFrame_spec {p : ℕ} (hp : w.use p = .frame j) (pg : Page) :
    Does w (writePage p pg) fun _ w' => Grows w w' ∧ ∀ q ≠ p, w'.kmem.mem q = w.kmem.mem q := by
  have ht : ¬ (w.use p).IsTable := by simp [hp, Use.IsTable]
  refine (writePage_spec (w.tidy.notMem (by simp [hp])) ht pg).mono ?_
  rintro - w' ⟨hg, hk, -⟩
  exact ⟨hg, fun q hq => by rw [hk, Kmem.write_mem_of_ne _ _ hq]⟩

theorem fork_spec (h : Spaces (fun _ => True) s w) (hi : (s.proc i).state ≠ .unused) :
    Keeps (fun _ => False) s (fork i) := by
  rw [fork]
  refine (allocproc_spec h).bind ?_
  rintro (_ | j) t ⟨⟨⟨w₁, h₁⟩, hsp₁⟩, hj⟩
  · exact .pure ⟨⟨w₁, h₁⟩, hsp₁⟩
  obtain ⟨hunused, hused, hsz, hsame⟩ := hj j rfl
  have hnot (i : Slot) (hu : s.Live i) (hi : i = j) : False := hu (hi ▸ hunused)
  have hij : i ≠ j := by
    rintro rfl
    exact hi hunused
  have hlive : (t.proc j).state ≠ .unused := by simp [hused]
  rw [← hsame i hij] at hi
  have hspace := (h₁.holds j trivial hlive).space
  rw [hsz] at hspace
  refine slot_bind (slot_bind ?_)
  have hne : (t.proc i).pagetable ≠ (t.proc j).pagetable := h₁.ne_of_ne hlive i hij hi
  refine (onPhys_spec (uvmcopy_spec (h₁.holds i trivial hi).space hspace hne) h₁.kmem).bind ?_
  rintro ok t₂ ⟨w₂, ⟨hr₂, -⟩, hc₂⟩
  have h₂ := (h₁.leave_self j).of_others hr₂.others (h₁.ne_of_ne hlive) hc₂
  have hsp₂ : Spares (· = j) t t₂ := fun k hk hu => h₁.sameUser_of_others trivial hu
    (by rw [hc₂.proc]) hc₂.kmem hr₂.others (h₁.ne_of_ne hlive k hk hu)
  have hframe : w₂.use (t.proc j).trapframe = .frame j := by
    have hf := (h₁.holds j trivial hlive).frame
    have hu : w₁.use (t.proc j).trapframe ≠ .none := by simp [hf]
    rw [(hr₂.others.keep _ (w₁.tidy.notMem hu) (by simp [hf, Use.Of])).2, hf]
  cases ok with
  | false =>
    rw [if_neg (by decide)]
    refine Runs.bind (Keeps.after ?_ (hsp₁.trans hsp₂ hnot) hnot) fun _ t ht => .pure ht
    refine freeproc_spec h₂ (fun _ => ?_) (fun _ => ⟨_, _, frameEntry_ne_zero (t.proc j).trapframe,
      trampolineEntry_ne_zero t.trampoline, ?_⟩) (hc₂.proc ▸ h₁.ne_of_ne hlive)
    · rwa [hc₂.proc]
    · rw [hc₂.proc, hsz]
      exact hr₂.space
  | true =>
    rw [if_pos rfl]
    have hwrite : Does w₂ (do writePage (t.proc j).trapframe (copyFrame
        (← readPage (t.proc j).trapframe) (← readPage (t.proc i).trapframe)))
        fun _ w' => Grows w₂ w' ∧ ∀ q ≠ (t.proc j).trapframe, w'.kmem.mem q = w₂.kmem.mem q :=
      readPage_bind (readPage_bind (writeFrame_spec hframe _))
    refine (onPhys_spec hwrite h₂.kmem).bind ?_
    rintro - t₃ ⟨w₃, ⟨hg₃, hmem₃⟩, hc₃⟩
    have h₃ := h₂.of_grows hg₃ hc₃
    have hproc₃ : t₃.proc = t.proc := hc₃.proc.trans hc₂.proc
    refine (update_spec j _ h₃.kmem).bind fun _ t₄ hc₄ => .pure ⟨⟨w₃, ?_⟩, ?_⟩
    swap
    · refine (hsp₁.trans hsp₂ hnot).trans (Y := (· = j)) (fun k hk hu => ?_) hnot
      refine h₂.sameUser hk hu (by rw [hc₄.proc, update_of_ne hk, hc₃.proc]) hc₄.kmem
        (fun v hv => hg₃.pte _ v (h₂.isRoot hk hu) hv) fun p v hp => hmem₃ p ?_
      rintro rfl
      simp [hframe] at hp
    refine h₃.join (fun h => absurd h (by simp [Proc.forkInit])) (fun _ => ⟨?_, ?_⟩) ?_ hc₄
    · rw [hproc₃, hc₃.trampoline, hc₂.trampoline]
      exact hr₂.space.of_grows hg₃
    · rw [hproc₃]
      change w₃.use (t.proc j).trapframe = _
      rw [hg₃.use (by simp [hframe]), hframe]
    · rw [hproc₃]
      exact fun i hi _ hu => h₁.ne_of_ne hlive i hi hu

/-! ### Calls of one process -/

/-- The address space of a slot gets another size. -/
theorem Spaces.resize {w' : Store} {t : Machine} {n : ℕ} (h : Spaces (fun _ => True) s w)
    (hi : (s.proc i).state ≠ .unused)
    (hr : Resizes (s.proc i).pagetable (pages n) (frameEntry (s.proc i).trapframe)
      (trampolineEntry s.trampoline) w w')
    (hc : Changes s t (update s.proc i { s.proc i with sz := n }) w') :
    Spaces (fun _ => True) t w' := by
  have h' : Spaces (fun j => j ≠ i) { s with phys := ⟨w'.kmem, []⟩ } w' :=
    (h.leave_self i).of_others hr.others (h.ne_of_ne hi) ⟨rfl, rfl, rfl⟩
  have hframe := (h.holds i trivial hi).frame
  have hne : w.use (s.proc i).trapframe ≠ .none := by simp [hframe]
  refine h'.join (p := { s.proc i with sz := n }) (fun hu => absurd hu hi) (fun _ => ⟨hr.space, ?_⟩)
    (fun j hj _ hu => h.ne_of_ne hi j hj hu) ⟨hc.proc, hc.trampoline, hc.kmem⟩
  exact (hr.others.keep _ (w.tidy.notMem hne) (by simp [hframe, Use.Of])).2.trans hframe

/-- What `growproc` does: the size changes, or there is no memory for it. A size that is less than
zero is very large for `uvmdealloc`. -/
theorem growproc_spec (h : Spaces (fun _ => True) s w) (hi : (s.proc i).state ≠ .unused) (n : ℤ) :
    Runs (growproc i n) s fun ok t => ∃ w' sz,
      Changes s t (update s.proc i { s.proc i with sz := sz }) w' ∧
      Resizes (s.proc i).pagetable (pages sz) (frameEntry (s.proc i).trapframe)
        (trampolineEntry s.trampoline) w w' ∧
      (ok = false ∧ sz = (s.proc i).sz ∨ ok = true ∧
        (0 < n ∧ sz = max (s.proc i).sz (((s.proc i).sz + intToU64 n) % 2 ^ 64) ∨
          n < 0 ∧ sz = min (s.proc i).sz (((s.proc i).sz + intToU64 n) % 2 ^ 64) ∨
          n = 0 ∧ sz = (s.proc i).sz) ∧
        (∀ v, pages (s.proc i).sz ≤ v → v < pages sz →
          w'.kmem.mem (pte2pa (w'.pte (s.proc i).pagetable v)) = fill 0) ∧
        ∀ v, pages sz ≤ v → v < pages (s.proc i).sz →
          pte2pa (w.pte (s.proc i).pagetable v) ∈ w'.list) := by
  have hs := (h.holds i trivial hi).space
  have hset {t : Machine} {w' : Store} (hc : Changes s t s.proc w') (sz : ℕ) :
      Runs (ProcM.update i fun p => { p with sz := sz }) t fun _ t' =>
        Changes s t' (update s.proc i { s.proc i with sz := sz }) w' :=
    (update_spec i _ hc.kmem).mono fun _ t' hc' =>
      ⟨by rw [hc'.proc, hc.proc], hc'.trampoline.trans hc.trampoline, hc'.kmem⟩
  have hsame {t : Machine} {w' : Store} (hc : Changes s t s.proc w') :
      Changes s t (update s.proc i { s.proc i with sz := (s.proc i).sz }) w' :=
    ⟨hc.proc.trans (update_eq_self i s.proc).symm, hc.trampoline, hc.kmem⟩
  rw [growproc]
  refine slot_bind ?_
  by_cases hpos : 0 < n
  · rw [if_pos hpos]
    refine (onPhys_spec (uvmalloc_spec hs (by decide)) h.kmem).bind ?_
    rintro sz t ⟨w', hcase, hc⟩
    by_cases hz : sz = 0
    · rw [if_pos hz]
      refine .pure ⟨w', (s.proc i).sz, hsame hc, ?_, .inl ⟨rfl, rfl⟩⟩
      rcases hcase with ⟨hmax, hr, -⟩ | ⟨-, hr⟩
      · have hle := le_max_left (s.proc i).sz (((s.proc i).sz + intToU64 n) % 2 ^ 64)
        rw [show (s.proc i).sz = sz by omega]
        exact hr
      · exact hr
    · rw [if_neg hz]
      obtain ⟨hmax, hr, hfill⟩ := hcase.resolve_right fun h => hz h.1
      refine (hset hc sz).bind fun _ t' hc' => .pure ⟨w', sz, hc', hr, .inr ⟨rfl, .inl ⟨hpos, hmax⟩,
        fun v h₁ h₂ => (hfill v h₁ h₂).2, fun v h₁ h₂ => ?_⟩⟩
      have : pages (s.proc i).sz ≤ pages sz := Nat.div_le_div_right (by omega)
      omega
  rw [if_neg hpos]
  by_cases hneg : n < 0
  · rw [if_pos hneg]
    refine (onPhys_spec (uvmdealloc_spec hs) h.kmem).bind ?_
    rintro sz t ⟨w', ⟨hmin, hr, hfreed⟩, hc⟩
    refine (hset hc sz).bind fun _ t' hc' => .pure ⟨w', sz, hc', hr, .inr ⟨rfl,
      .inr (.inl ⟨hneg, hmin⟩), fun v h₁ h₂ => ?_, hfreed⟩⟩
    have : pages sz ≤ pages (s.proc i).sz := Nat.div_le_div_right (by omega)
    omega
  · rw [if_neg hneg]
    exact .pure ⟨w, (s.proc i).sz, hsame ⟨rfl, rfl, h.kmem⟩, .refl hs, .inr ⟨rfl,
      .inr (.inr ⟨by omega, rfl⟩), fun v h₁ h₂ => by omega, fun v h₁ h₂ => by omega⟩⟩

theorem growproc_keeps (h : Spaces (fun _ => True) s w) (hi : (s.proc i).state ≠ .unused) (n : ℤ) :
    Keeps (· = i) s (growproc i n) := by
  refine (growproc_spec h hi n).mono ?_
  rintro ok t ⟨w', sz, hc, hr, -⟩
  refine ⟨⟨w', h.resize hi hr hc⟩, fun j hj hu => ?_⟩
  exact h.sameUser_of_others trivial hu (by rw [hc.proc, update_of_ne hj]) hc.kmem hr.others
    (h.ne_of_ne hi j hj hu)

theorem exit_spec (h : Spaces (fun _ => True) s w) (hi : (s.proc i).state ≠ .unused)
    (hinit : i ≠ initSlot) (status : ℤ) : Keeps (· = i) s (exit i status) := by
  rw [exit, if_neg hinit]
  have hre (j : Slot) : (reparent s.proc i j).state = (s.proc j).state ∧
      (reparent s.proc i j).pagetable = (s.proc j).pagetable ∧
      (reparent s.proc i j).trapframe = (s.proc j).trapframe ∧
      (reparent s.proc i j).sz = (s.proc j).sz := by
    rw [reparent]
    split_ifs <;> exact ⟨rfl, rfl, rfl, rfl⟩
  refine .of_eq rfl ⟨⟨w, h.congr rfl rfl fun j => ?_⟩, fun j hj _ => .of_proc ?_ rfl⟩
  swap
  · dsimp only
    rw [update_of_ne hj]
    exact ⟨(hre j).1, (hre j).2.1⟩
  by_cases hj : j = i
  · subst hj
    dsimp only
    rw [update_self]
    exact ⟨iff_of_false (by simp) hi, (hre j).2⟩
  · dsimp only
    rw [update_of_ne hj]
    exact ⟨by rw [(hre j).1], (hre j).2⟩

theorem wait_spec (h : Spaces (fun _ => True) s w) (copied : Bool) :
    Keeps (fun j => (s.proc j).state = .zombie) s (wait i copied) := by
  rw [wait]
  refine get_bind ?_
  cases hf : s.findZombie i with
  | none => exact .pure ⟨⟨w, h⟩, .refl _ s⟩
  | some j =>
    have hj : (s.proc j).state = .zombie := by
      have hfound := List.find?_some hf
      simp only [Bool.and_eq_true, decide_eq_true_eq] at hfound
      exact hfound.2
    cases copied with
    | false => exact .pure ⟨⟨w, h⟩, .refl _ s⟩
    | true => exact (freeproc_keeps h (by simp [hj])).after (.refl _ s) fun k _ hk => hk ▸ hj

/-- Something is written to the memory of the process in slot `i`, which is `u` then. -/
structure Writes (i : Slot) (s t : Machine) (u : UserMem) : Prop where
  keeps : (∃ w, Spaces (fun _ => True) t w) ∧ Spares (· = i) s t
  proc : t.proc = s.proc
  pte : ∀ v < vpnLimit, t.pte i v = s.pte i v
  userMem : t.userMem i = u

theorem Writes.of_grows {t : Machine} {w' : Store} {u : UserMem} (h : Spaces (fun _ => True) s w)
    (hi : (s.proc i).state ≠ .unused) (hc : Changes s t s.proc w') (hg : Grows w w')
    (hcon : Confined (s.proc i).pagetable [] [] w w')
    (hu : w'.kmem.userMem (s.proc i).pagetable = u) : Writes i s t u where
  keeps := ⟨⟨w', h.of_grows hg hc⟩, fun j hj hu => h.sameUser_of_others trivial hu (by rw [hc.proc])
    hc.kmem (.of_grows hg hcon) (h.ne_of_ne hi j hj hu)⟩
  proc := hc.proc
  pte v hv := by
    rw [Machine.pte, Machine.pte, hc.kmem, hc.proc, h.kmem]
    exact hg.pte _ v (h.isRoot trivial hi) hv
  userMem := by rw [Machine.userMem, hc.kmem, hc.proc, hu]

/-- The process in slot `i` stores something in its memory. -/
theorem store_spec (h : Spaces (fun _ => True) s w) (hi : (s.proc i).state ≠ .unused) (vpn : ℕ)
    (pg : Page) : Runs (event (.store i vpn pg)) s fun _ t => ∃ u, Writes i s t u ∧
      u.mapped = (s.userMem i).mapped ∧ ∀ a, a / PGSIZE ≠ vpn → u.mem a = (s.userMem i).mem a := by
  have hs := (h.holds i trivial hi).space
  rw [event]
  refine slot_bind ?_
  refine (onPhys_spec (walkaddr_spec hs vpn) h.kmem).bind ?_
  rintro pa t ⟨w', ⟨rfl, ⟨hpage, h₀, rfl, huse⟩ | ⟨-, rfl⟩⟩, hc⟩
  · rw [if_pos h₀]
    refine (onPhys_spec (writeUser_spec huse pg) hc.kmem).mono ?_
    rintro - t' ⟨w'', ⟨hg, hcon, hk⟩, hc'⟩
    refine ⟨_, .of_grows h hi ⟨hc'.proc.trans hc.proc, hc'.trampoline.trans hc.trampoline,
      hc'.kmem⟩ hg hcon (hs.userMem_write hpage hg hk), ?_, fun a ha => ?_⟩
    · rw [Machine.userMem, h.kmem]
    · rw [Machine.userMem, h.kmem]
      exact if_neg ha
  · rw [if_neg (fun h => h rfl)]
    exact .pure ⟨_, .of_grows h hi hc (.refl w') (.refl _ [] w') (by rw [← h.kmem]; rfl), rfl,
      fun _ _ => rfl⟩

/-- The kernel copies something to the memory of the process in slot `i`. -/
theorem copyoutEvent_spec (h : Spaces (fun _ => True) s w) (hi : (s.proc i).state ≠ .unused)
    (dstva : ℕ) (src : List (BitVec 8)) : Runs (event (.copyout i dstva src)) s fun _ t =>
      Writes i s t ((s.userMem i).copyout dstva src).2 := by
  rw [event]
  have hcopy : Does w (copyoutBytes (s.proc i).pagetable dstva src) _ :=
    copyout_spec (h.holds i trivial hi).space
  refine slot_bind (discard_spec ((onPhys_spec hcopy h.kmem).mono ?_))
  rintro ok t ⟨w', ⟨hg, hcon, hu⟩, hc⟩
  rw [Machine.userMem, h.kmem]
  exact .of_grows h hi hc hg hcon (congrArg Prod.snd hu)

end Calls

end Xv6.Vm
