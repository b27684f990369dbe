import Xv6.Proc.Parts

/-!
# The kernel keeps to its own pages

Every step of the kernel is a sequence of actions of the ledger, provided that a `sigreturn` finds
a saved frame of its own process: this is so for each of the parts of the step.
-/

namespace Xv6

open Function (update update_self update_of_ne)

/-- Whether a slot is in use. -/
def Proc.inUse (p : Proc) : Bool := p.state ≠ .unused

theorem Proc.inUse_iff {p : Proc} : p.inUse = true ↔ p.state ≠ .unused := by
  simp [inUse]

theorem Proc.inUse_eq_false {p : Proc} : p.inUse = false ↔ p.state = .unused := by
  simp [inUse]

/-- The flag `hlp`, which says nothing in a free slot. -/
def Proc.flag (p : Proc) : ℤ := if p.inUse then p.hlp else 1

theorem Proc.flag_congr {p q : Proc} (hst : q.state = .unused ↔ p.state = .unused)
    (hh : q.hlp = p.hlp) : q.flag = p.flag := by
  rw [flag, flag, inUse, inUse, hh]
  simp [hst]

namespace Kernel

/-- The pages of the kernel. -/
def ledger (s : Kernel) : Ledger where
  mem := s.kmem.mem
  owner := s.owner
  live i := (s.proc i).inUse
  trapframe i := (s.proc i).trapframe
  alarmTf i := (s.proc i).alarmTf
  hlp i := (s.proc i).flag

/-- The pages `l` are the free ones, and every process has its trapframe. -/
structure Wf (s : Kernel) (l : List ℕ) : Prop where
  free : s.kmem.Free l
  owner_free : ∀ p ∈ l, s.owner p = .free
  range : ∀ p, s.owner p ≠ .free → s.owner p ≠ .other → s.kmem.first ≤ p ∧ p < PHYSTOPPG
  frame : ∀ i, (s.proc i).state ≠ .unused → s.owner (s.proc i).trapframe = .frame i
  unused : ∀ i, (s.proc i).state = .unused → (s.proc i).trapframe = 0

/-! ### What an event will do -/

/-- What a run will do to processes and alarms. -/
def runMarks : Kernel → List Event → List Mark
  | _, [] => []
  | s, e :: es => s.marks e ++ (step s e).elim [] fun t => t.runMarks es

theorem runMarks_append {s t : Kernel} {es fs : List Event} (h : runEvents step s es = some t) :
    s.runMarks (es ++ fs) = s.runMarks es ++ t.runMarks fs := by
  induction es generalizing s with
  | nil => exact Option.some.inj h ▸ rfl
  | cons e es ih =>
    obtain ⟨u, hu, h⟩ := Option.bind_eq_some_iff.mp h
    simp only [List.cons_append, runMarks, hu, Option.elim_some, ih h, List.append_assoc]

theorem runMarks_singleton (s : Kernel) (e : Event) : s.runMarks [e] = s.marks e := by
  rw [runMarks]
  cases step s e <;> simp [runMarks]

theorem restore_notMem_forkMarks (s : Kernel) (r : ForkResult) (k : Slot) :
    .restore k ∉ s.forkMarks r := by
  unfold forkMarks forkIntoMarks
  cases s.findUnused with
  | none => simp
  | some j =>
    simp only [Option.elim_some]
    split_ifs
    · simp
    · split <;> simp

theorem restore_notMem_waitMarks (s : Kernel) (i : Slot) (copyout : Bool) (k : Slot) :
    .restore k ∉ s.waitMarks i copyout := by
  unfold waitMarks
  cases s.findChild i fun p => p.state = .zombie with
  | none => simp
  | some j =>
    simp only [Option.elim_some]
    split_ifs <;> simp

variable {num p : ℕ}

theorem restore_mem_callMarks {s : Kernel} {i k : Slot} {r : Outcome} :
    .restore k ∈ s.callMarks i r num ↔ num = 25 ∧ k = i := by
  unfold callMarks
  split <;> simp_all [restore_notMem_forkMarks, restore_notMem_waitMarks]

/-- A `sigreturn` does nothing else. -/
theorem marks_of_restore {s : Kernel} {e : Event} {k : Slot} (h : .restore k ∈ s.marks e) :
    s.marks e = [.restore k] := by
  cases e with
  | userinit pt =>
    simp only [marks] at h
    split_ifs at h <;> simp at h
  | trap i u cause =>
    cases cause with
    | syscall r =>
      simp only [marks, trapMarks, syscallMarks] at h ⊢
      split_ifs at h ⊢
      · simp at h
      · obtain ⟨hnum, rfl⟩ := restore_mem_callMarks.1 h
        rw [hnum]
        rfl
      · simp at h
    | timer =>
      simp only [marks, trapMarks, tickMarks] at h
      split_ifs at h <;> simp at h
    | device | fault => simp [marks, trapMarks] at h
  | _ => simp [marks] at h

/-! ### Simulation -/

/-- From `s` to `t` by actions of the ledger with the marks `ms`. -/
def Sim (ms : List Mark) (s t : Kernel) : Prop :=
  ∀ l, s.Wf l → ∃ l' as, t.Wf l' ∧ runEvents Ledger.step s.ledger as = some t.ledger ∧
    as.filterMap Act.mark = ms

variable {s t u : Kernel} {ms ms' : List Mark} {i j : Slot}

theorem Sim.trans (h : Sim ms s t) (h' : Sim ms' t u) : Sim (ms ++ ms') s u := by
  intro l hl
  obtain ⟨l₁, as₁, hl₁, hr₁, rfl⟩ := h l hl
  obtain ⟨l₂, as₂, hl₂, hr₂, rfl⟩ := h' l₁ hl₁
  exact ⟨l₂, as₁ ++ as₂, hl₂, by rw [runEvents_append, hr₁, Option.bind_some, hr₂],
    List.filterMap_append⟩

theorem Wf.congr {l : List ℕ} (hl : s.Wf l) (hk : t.kmem = s.kmem) (ho : t.owner = s.owner)
    (h : ∀ j, ((t.proc j).state = .unused ↔ (s.proc j).state = .unused) ∧
      (t.proc j).trapframe = (s.proc j).trapframe) : t.Wf l := by
  refine ⟨hk ▸ hl.free, ho ▸ hl.owner_free, hk ▸ ho ▸ hl.range, fun i hi => ?_, fun i hi => ?_⟩
  · rw [ho, (h i).2]
    exact hl.frame i (mt (h i).1.2 hi)
  · rw [(h i).2]
    exact hl.unused i ((h i).1.1 hi)

/-- The pages stay as they are, and the slots keep theirs, their flags `hlp`, and whether they are
in use. -/
theorem Sim.procs (hk : t.kmem = s.kmem) (ho : t.owner = s.owner)
    (h : ∀ j, ((t.proc j).state = .unused ↔ (s.proc j).state = .unused) ∧
      (t.proc j).trapframe = (s.proc j).trapframe ∧ (t.proc j).alarmTf = (s.proc j).alarmTf ∧
      (t.proc j).flag = (s.proc j).flag) : Sim [] s t := by
  intro l hl
  have hlive (j : Slot) : (t.proc j).inUse = (s.proc j).inUse := by simp [Proc.inUse, (h j).1]
  have hL : t.ledger = s.ledger := by
    simp only [ledger, Ledger.mk.injEq]
    exact ⟨congrArg Kmem.mem hk, ho, funext hlive, funext fun j => (h j).2.1,
      funext fun j => (h j).2.2.1, funext fun j => (h j).2.2.2⟩
  exact ⟨l, [], hl.congr hk ho fun j => ⟨(h j).1, (h j).2.1⟩, by rw [hL]; rfl, rfl⟩

theorem Sim.refl : Sim [] s s := .procs rfl rfl fun _ => ⟨Iff.rfl, rfl, rfl, rfl⟩

/-- One action. -/
theorem Sim.act {a : Act} (h : ∀ l, s.Wf l → (∃ l', t.Wf l') ∧ s.ledger.step a = some t.ledger) :
    Sim a.mark.toList s t := by
  intro l hl
  obtain ⟨⟨l', hl'⟩, hs⟩ := h l hl
  refine ⟨l', [a], hl', by simp [hs], ?_⟩
  cases a <;> rfl

variable {f : Proc → Proc}

/-- The ledger after a change of one slot. -/
theorem ledger_upd (s : Kernel) (i : Slot) (f : Proc → Proc) : (s.upd i f).ledger =
    ⟨s.kmem.mem, s.owner, update s.ledger.live i (f (s.proc i)).inUse,
      update s.ledger.trapframe i (f (s.proc i)).trapframe,
      update s.ledger.alarmTf i (f (s.proc i)).alarmTf,
      update s.ledger.hlp i (f (s.proc i)).flag⟩ := by
  have hj {β : Type} (g : Proc → β) :
      (fun j => g ((s.upd i f).proc j)) = update (fun j => g (s.proc j)) i (g (f (s.proc i))) :=
    Function.comp_update g s.proc i _
  simp only [ledger, Ledger.mk.injEq]
  exact ⟨rfl, rfl, hj Proc.inUse, hj Proc.trapframe, hj Proc.alarmTf, hj Proc.flag⟩

/-- A change of one slot that keeps its trapframe and whether it is in use. -/
theorem slots_upd (hst : (f (s.proc i)).state = .unused ↔ (s.proc i).state = .unused)
    (htf : (f (s.proc i)).trapframe = (s.proc i).trapframe) (j : Slot) :
    (((s.upd i f).proc j).state = .unused ↔ (s.proc j).state = .unused) ∧
      ((s.upd i f).proc j).trapframe = (s.proc j).trapframe := by
  by_cases hji : j = i
  · subst hji
    simp [hst, htf]
  · simp [upd, hji]

/-- A change of a slot that keeps its pages and its flag `hlp`, and whether it is in use. -/
theorem Sim.upd (hst : (f (s.proc i)).state = .unused ↔ (s.proc i).state = .unused)
    (htf : (f (s.proc i)).trapframe = (s.proc i).trapframe)
    (ha : (f (s.proc i)).alarmTf = (s.proc i).alarmTf) (hh : (f (s.proc i)).hlp = (s.proc i).hlp) :
    Sim [] s (s.upd i f) := by
  refine .procs rfl rfl fun j => ?_
  by_cases hji : j = i
  · subst hji
    simp [hst, htf, ha, Proc.flag_congr hst hh]
  · simp [Kernel.upd, hji]

/-! ### Pages -/

variable {l : List ℕ}

theorem Wf.notMem (h : s.Wf l) (hp : s.owner p ≠ .free) : p ∉ l :=
  fun hl => hp (h.owner_free p hl)

theorem Wf.write (h : s.Wf l) (hp : s.owner p ≠ .free) (pg : Page) :
    (s.write p pg).Wf l :=
  ⟨h.free.write (h.notMem hp) pg, h.owner_free, h.range, h.frame, h.unused⟩

theorem Sim.write (hp : (s.owner p).writable) (pg : Page) : Sim [] s (s.write p pg) := by
  refine Sim.act (a := .write p pg) fun l hl => ⟨⟨l, hl.write ?_ pg⟩, ?_⟩
  · intro he
    simp [he, Owner.writable] at hp
  · simp [Ledger.step, ledger, hp, Kernel.write, Kmem.write]

theorem Sim.setFrame (hi : s.Live i) (pg : Page) : Sim [] s (s.setFrame i pg) := by
  intro l hl
  exact Sim.write (by simp [hl.frame i hi, Owner.writable]) pg l hl

theorem Sim.setReg (hi : s.Live i) (k : Fin 512) (w : Word) : Sim [] s (s.setReg i k w) :=
  .setFrame hi _

/-- `kalloc` takes a free page, which was nobody's. -/
theorem Wf.kalloc (h : s.Wf l) (hne : s.kmem.freelist ≠ 0) :
    ∃ l', (∀ p ∈ l', p ≠ s.kmem.freelist ∧ s.owner p = .free) ∧ s.kmem.kalloc.2.Free l' ∧
      s.kmem.kalloc.1 = s.kmem.freelist ∧ s.owner s.kmem.freelist = .free ∧
      (s.kmem.first ≤ s.kmem.freelist ∧ s.kmem.freelist < PHYSTOPPG) ∧
      ∀ p, p ≠ s.kmem.freelist → s.kmem.kalloc.2.mem p = s.kmem.mem p := by
  obtain ⟨l', rfl, hnot, heq, hfree, hmem⟩ := h.free.kalloc hne
  refine ⟨l', fun p hp => ⟨fun he => hnot (he ▸ hp), ?_⟩, hfree, heq, ?_, ?_, hmem⟩
  · exact h.owner_free p (List.mem_cons_of_mem _ hp)
  · exact h.owner_free _ List.mem_cons_self
  · exact h.free.range _ List.mem_cons_self

/-- The kernel with page `p` taken off the free list for `o`. -/
theorem Wf.of_kalloc (h : s.Wf l) (hne : s.kmem.freelist ≠ 0) {o : Owner}
    {p : Page} (hk : t.kmem = s.kmem.kalloc.2.write s.kmem.freelist p)
    (hown : t.owner = update s.owner s.kmem.freelist o)
    (hframe : ∀ i, (t.proc i).trapframe = s.kmem.freelist ∧ o = .frame i ∧ t.Live i ∨
      ((t.proc i).state = .unused ↔ (s.proc i).state = .unused) ∧
        (t.proc i).trapframe = (s.proc i).trapframe) :
    ∃ l', t.Wf l' := by
  obtain ⟨l', hl', hfree, -, hown₀, hrange, -⟩ := h.kalloc hne
  have hfirst : t.kmem.first = s.kmem.first := by
    rw [hk]
    simp [Kmem.kalloc, hne, Kmem.write]
  refine ⟨l', ⟨hk ▸ hfree.write (fun hp => (hl' _ hp).1 rfl) p, fun p hp => ?_, fun p => ?_,
    fun i hi => ?_, fun i hi => ?_⟩⟩
  · rw [hown, update_of_ne (hl' p hp).1, (hl' p hp).2]
  · rw [hown, hfirst]
    by_cases hp : p = s.kmem.freelist
    · exact fun _ _ => hp ▸ hrange
    · rw [update_of_ne hp]
      exact h.range p
  · rcases hframe i with ⟨htf, rfl, -⟩ | ⟨hst, htf⟩
    · rw [hown, htf, update_self]
    · -- the page of a trapframe is not free
      have hs := h.frame i (mt hst.2 hi)
      have hne' : (s.proc i).trapframe ≠ s.kmem.freelist := by
        intro he
        rw [he, hown₀] at hs
        cases hs
      rw [hown, htf, update_of_ne hne', hs]
  · rcases hframe i with ⟨-, -, hlive⟩ | ⟨hst, htf⟩
    · exact absurd hi hlive
    · rw [htf]
      exact h.unused i (hst.1 hi)

theorem Sim.otherAlloc : Sim [] s (s.kalloc .other).2 := by
  by_cases hne : s.kmem.freelist = 0
  · rw [Kernel.kalloc, if_pos hne]
    exact .refl
  · intro l hl
    obtain ⟨-, -, -, heq, hown, -, hmem⟩ := hl.kalloc hne
    have hk : (s.kalloc .other).2 = { s with
        kmem := s.kmem.kalloc.2, owner := update s.owner s.kmem.freelist .other } := by
      rw [Kernel.kalloc, if_neg hne, heq]
    rw [hk]
    refine Sim.act (a := .take s.kmem.freelist (s.kmem.kalloc.2.mem s.kmem.freelist))
      (fun l hl => ⟨?_, ?_⟩) l hl
    · refine hl.of_kalloc hne (o := .other) (p := s.kmem.kalloc.2.mem s.kmem.freelist) ?_ rfl
        fun i => .inr ⟨Iff.rfl, rfl⟩
      simp [Kmem.write]
    · simp only [Ledger.step, ledger, hown, if_true, Ledger.assign, Option.some.injEq,
        Ledger.mk.injEq, and_true]
      funext p
      by_cases hp : p = s.kmem.freelist
      · simp [hp]
      · simp [hp, hmem p hp]

theorem kfree_eq (hr : s.kmem.first ≤ p ∧ p < PHYSTOPPG) :
    s.kfree p = { s with
      kmem := s.kmem.putFree p, owner := update s.owner p .free } := by
  rw [Kernel.kfree, Kmem.kfree_eq hr]

/-- The kernel with page `p` put on the free list. -/
theorem Wf.of_kfree (h : s.Wf l) (hp : s.owner p ≠ .free)
    (hr : s.kmem.first ≤ p ∧ p < PHYSTOPPG) (hk : t.kmem = s.kmem.putFree p)
    (hown : t.owner = update s.owner p .free)
    (hframe : ∀ i, s.owner p = .frame i ∧ (t.proc i).state = .unused ∧
        (t.proc i).trapframe = 0 ∨
      s.owner p ≠ .frame i ∧ ((t.proc i).state = .unused ↔ (s.proc i).state = .unused) ∧
        (t.proc i).trapframe = (s.proc i).trapframe) : t.Wf (p :: l) := by
  refine ⟨hk ▸ h.free.putFree (h.notMem hp) hr, fun q hq => ?_, fun q => ?_, fun i hi => ?_,
    fun i hi => ?_⟩
  · rw [hown]
    by_cases hqp : q = p
    · rw [hqp, update_self]
    · rw [update_of_ne hqp]
      exact h.owner_free q ((List.mem_cons.1 hq).resolve_left hqp)
  · have hfirst : t.kmem.first = s.kmem.first := by
      rw [hk]
      rfl
    rw [hown, hfirst]
    by_cases hqp : q = p
    · exact fun _ _ => hqp ▸ hr
    · rw [update_of_ne hqp]
      exact h.range q
  · rcases hframe i with ⟨-, hst, -⟩ | ⟨hpi, hst, htf⟩
    · exact absurd hst hi
    · have hs := h.frame i (mt hst.2 hi)
      have hne : (s.proc i).trapframe ≠ p := fun he => hpi (he ▸ hs)
      rw [hown, htf, update_of_ne hne, hs]
  · rcases hframe i with ⟨-, -, htf⟩ | ⟨-, hst, htf⟩
    · exact htf
    · rw [htf]
      exact h.unused i (hst.1 hi)

theorem Sim.otherFree (hp : s.owner p = .other) : Sim [] s (s.kfree p) := by
  by_cases hr : s.kmem.first ≤ p ∧ p < PHYSTOPPG
  · rw [kfree_eq hr]
    refine Sim.act (a := .give p ((s.kmem.putFree p).mem p)) fun l hl => ⟨⟨p :: l, ?_⟩, ?_⟩
    · exact hl.of_kfree (by simp [hp]) hr rfl rfl fun i => .inr ⟨by simp [hp], Iff.rfl, rfl⟩
    · simp [Ledger.step, ledger, hp, Ledger.assign, Kmem.putFree, Kmem.write]
  · have : s.kmem.kfree p = none := if_pos (by omega)
    rw [Kernel.kfree, this]
    exact .procs rfl rfl fun _ => ⟨Iff.rfl, rfl, rfl, rfl⟩

theorem Wf.trapframe_range (h : s.Wf l) (hi : s.Live i) :
    s.kmem.first ≤ (s.proc i).trapframe ∧ (s.proc i).trapframe < PHYSTOPPG :=
  h.range _ (by simp [h.frame i hi]) (by simp [h.frame i hi])

/-- A slot loses its process, and the page of its trapframe is free. -/
theorem Sim.reap (hi : s.Live i) :
    Sim [.reap i] s ({ s with
      kmem := s.kmem.putFree (s.proc i).trapframe
      owner := update s.owner (s.proc i).trapframe .free }.upd i Proc.free) := by
  refine Sim.act (a := .reap i ((s.kmem.putFree (s.proc i).trapframe).mem (s.proc i).trapframe))
    fun l hl => ?_
  have hown := hl.frame i hi
  refine ⟨⟨_, hl.of_kfree (by simp [hown]) (hl.trapframe_range hi) rfl rfl fun j => ?_⟩, ?_⟩
  · by_cases hji : j = i
    · subst hji
      exact .inl ⟨hown, by simp [Proc.free], by simp [Proc.free]⟩
    · exact .inr ⟨by simp [hown, Ne.symm hji], by simp [Kernel.upd, hji], by simp [Kernel.upd, hji]⟩
  · have hlive : s.ledger.live i = true := Proc.inUse_iff.2 hi
    have hown' : s.ledger.owner (s.ledger.trapframe i) = .frame i := hown
    rw [ledger_upd, Ledger.step, if_pos ⟨hlive, hown'⟩]
    simp [Ledger.assign, ledger, Kmem.putFree, Kmem.write, Proc.free, Proc.inUse, Proc.flag]

/-- `freeproc` gives back the trapframe of a process. -/
theorem Sim.freeproc (hi : s.Live i) : Sim [.reap i] s (s.freeproc i) := by
  intro l hl
  have hr := hl.trapframe_range hi
  have h₀ : (s.proc i).trapframe ≠ 0 := by
    have := hl.free.first_pos
    omega
  rw [Kernel.freeproc, if_pos h₀, kfree_eq hr]
  exact Sim.reap hi l hl

/-- The pages of memory after `kalloc`, when the new page has been filled. -/
theorem kalloc_write_mem (h : s.Wf l) (hne : s.kmem.freelist ≠ 0) (pg : Page) :
    (s.kmem.kalloc.2.write s.kmem.freelist pg).mem =
      update s.kmem.mem s.kmem.freelist pg := by
  obtain ⟨-, -, -, -, -, -, hmem⟩ := h.kalloc hne
  funext p
  by_cases hp : p = s.kmem.freelist
  · simp [hp]
  · simp [hp, Kmem.write_mem_of_ne, hmem p hp]

/-- The alarm code saves the trapframe in a new page. -/
theorem Sim.saveFrame (hi : s.Live i) (hh : (s.proc i).hlp = 1) (hne : s.kmem.freelist ≠ 0) :
    Sim [.save i] s ((s.kalloc (.alarm i)).2.saveFrame i s.kmem.freelist) := by
  refine Sim.act (a := .save i s.kmem.freelist) fun l hl => ?_
  obtain ⟨-, -, -, -, hown, -, hmem⟩ := hl.kalloc hne
  have htf : (s.proc i).trapframe ≠ s.kmem.freelist := by
    intro he
    have := hl.frame i hi
    rw [he, hown] at this
    cases this
  have hframe : (s.kalloc (.alarm i)).2.frame i = s.frame i := by
    rw [kalloc_eq hne]
    exact hmem _ htf
  rw [Kernel.saveFrame, hframe, kalloc_eq hne]
  refine ⟨hl.of_kalloc hne rfl rfl fun j => .inr (slots_upd Iff.rfl rfl j), ?_⟩
  have hlive : s.ledger.live i = true := Proc.inUse_iff.2 hi
  have hflag : s.ledger.hlp i = 1 := by simp [ledger, Proc.flag, hh]
  rw [ledger_upd, Ledger.step, if_pos ⟨hlive, hflag, hown⟩]
  dsimp only [Kernel.write]
  rw [kalloc_write_mem hl hne]
  simp [Ledger.assign, ledger, Kernel.frame, Proc.inUse, Proc.flag]

theorem saveFrame_owner (hne : s.kmem.freelist ≠ 0) :
    ((s.kalloc (.alarm i)).2.saveFrame i s.kmem.freelist).owner
      (((s.kalloc (.alarm i)).2.saveFrame i s.kmem.freelist).proc i).alarmTf = .alarm i := by
  simp [kalloc_eq hne, Kernel.saveFrame, Kernel.upd, Kernel.write]

/-- The process is sent to its handler. -/
theorem Sim.enterHandler (hi : s.Live i) (hown : s.owner (s.proc i).alarmTf = .alarm i) :
    Sim [.enter i] s (s.enterHandler i) := by
  refine (Sim.setReg hi Tf.epc (s.proc i).handler).trans (Sim.act (a := .enter i) fun l hl => ?_)
  rw [Kernel.enterHandler]
  refine ⟨⟨l, hl.congr rfl rfl (slots_upd Iff.rfl rfl)⟩, ?_⟩
  have hlive : s.ledger.live i = true := Proc.inUse_iff.2 hi
  rw [ledger_upd, Ledger.step, if_pos ⟨hlive, hown⟩]
  simp [ledger, Proc.inUse, Proc.flag, hi]

/-- `sigreturn` restores a saved frame of its own process and frees it. -/
theorem Sim.restoreFrame (hi : s.Live i) (hown : s.owner (s.proc i).alarmTf = .alarm i) :
    Sim [.restore i] s (s.restoreFrame i (s.proc i).alarmTf) := by
  refine Sim.act (a := .restore i (((s.kmem.write (s.proc i).trapframe
    (s.kmem.mem (s.proc i).alarmTf)).putFree (s.proc i).alarmTf).mem (s.proc i).alarmTf))
    fun l hl => ?_
  have hfr := hl.frame i hi
  have hr : (s.setFrame i (s.kmem.mem (s.proc i).alarmTf)).kmem.first ≤ (s.proc i).alarmTf ∧
      (s.proc i).alarmTf < PHYSTOPPG := hl.range _ (by simp [hown]) (by simp [hown])
  rw [Kernel.restoreFrame, kfree_eq hr]
  refine ⟨⟨(s.proc i).alarmTf :: l, ?_⟩, ?_⟩
  · have hw := hl.write (p := (s.proc i).trapframe) (by simp [hfr]) (s.kmem.mem (s.proc i).alarmTf)
    have hown' : (s.write (s.proc i).trapframe (s.kmem.mem (s.proc i).alarmTf)).owner
        (s.proc i).alarmTf = .alarm i := hown
    exact hw.of_kfree (by simp [hown']) hr rfl rfl
      fun j => .inr ⟨by simp [hown'], slots_upd Iff.rfl rfl j⟩
  · have hlive : s.ledger.live i = true := Proc.inUse_iff.2 hi
    rw [ledger_upd, Ledger.step, if_pos ⟨hlive, hfr, hown⟩]
    have hq : Proc.inUse { s.proc i with hlp := 1 } = (s.proc i).inUse := rfl
    simp [Ledger.assign, ledger, Kernel.setFrame, Kernel.write, Kmem.putFree, Kmem.write, Proc.flag,
      hq]
    rfl

/-! ### The parts of a step -/

/-- `sigreturn` finds a frame, if the process has one. -/
theorem Wf.alarmTf_ne_zero (hl : s.Wf l) (hown : s.owner (s.proc i).alarmTf = .alarm i) :
    (s.proc i).alarmTf ≠ 0 := by
  have := hl.range (s.proc i).alarmTf (by simp [hown]) (by simp [hown])
  have := hl.free.first_pos
  omega

theorem ledger_initSlot (s : Kernel) (j : Slot) (pid : ℤ) (tf pt : ℕ) :
    (s.initSlot j pid tf pt).ledger =
      (s.upd j fun p => p.allocInit pid tf pt s.ticks s.npnq0).ledger := rfl

/-- A free slot gets a process, with a new page for its trapframe. -/
theorem Sim.initSlot (hne : s.kmem.freelist ≠ 0) (hj : ¬ s.Live j) (pid : ℤ) (pt : ℕ) :
    Sim [.spawn j] s ((s.kalloc (.frame j)).2.initSlot j pid s.kmem.freelist pt) := by
  have hk : s.kmem.kalloc.2 =
      s.kmem.kalloc.2.write s.kmem.freelist (s.kmem.kalloc.2.mem s.kmem.freelist) := by
    rw [Kmem.write, Function.update_eq_self]
  rw [kalloc_eq hne]
  refine Sim.act (a := .spawn j s.kmem.freelist (s.kmem.kalloc.2.mem s.kmem.freelist))
    fun l hl => ⟨?_, ?_⟩
  · refine hl.of_kalloc hne hk rfl fun i => ?_
    by_cases hij : i = j
    · subst hij
      exact .inl
        ⟨by simp [Kernel.initSlot, Proc.allocInit], rfl, by simp [Kernel.initSlot, Proc.allocInit]⟩
    · exact .inr (by simp [Kernel.initSlot, Kernel.upd, hij])
  · obtain ⟨-, -, -, -, hown, -, -⟩ := hl.kalloc hne
    have hlive : s.ledger.live j = false := Proc.inUse_eq_false.2 (not_not.1 hj)
    rw [ledger_initSlot, ledger_upd, Ledger.step, if_pos ⟨hlive, hown⟩]
    dsimp only
    rw [hk, kalloc_write_mem hl hne]
    simp [Ledger.assign, ledger, Proc.allocInit, Proc.inUse, Proc.flag]

/-- As if `allocproc` had set up the slot before it fails. -/
theorem Sim.fail (hne : s.kmem.freelist ≠ 0) (hj : ¬ s.Live j) :
    Sim [.spawn j, .reap j] s
      (((s.kalloc (.frame j)).2.kfree s.kmem.freelist).upd j Proc.free) := by
  intro l hl
  obtain ⟨-, -, -, -, -, hr, -⟩ := hl.kalloc hne
  have hk := kalloc_eq hne (.frame j)
  have hr' : (s.kalloc (.frame j)).2.kmem.first ≤ s.kmem.freelist ∧
      s.kmem.freelist < PHYSTOPPG := by
    rw [hk]
    simpa [Kmem.kalloc, hne, Kmem.write] using hr
  rw [kfree_eq hr']
  have hreap := Sim.reap (s := (s.kalloc (.frame j)).2.initSlot j 0 s.kmem.freelist 0) (i := j)
    (by simp [Live, Kernel.initSlot, Proc.allocInit])
  rw [initSlot_trapframe] at hreap
  refine ((Sim.initSlot hne hj 0 0).trans hreap).trans (.procs rfl rfl fun k => ?_) l hl
  by_cases hk : k = j
  · subst hk
    simp [Kernel.initSlot, Kernel.upd, Proc.free, Proc.allocInit, Proc.flag, Proc.inUse]
  · simp [Kernel.initSlot, Kernel.upd, hk]

theorem Sim.alarmTick (hi : s.Live i) (hc : counts (s.proc i)) (hne : s.kmem.freelist ≠ 0) :
    Sim (s.tickMarks i) s (s.alarmTick i) := by
  have hh : (s.proc i).hlp = 1 := by
    simp only [counts, Bool.and_eq_true, decide_eq_true_eq] at hc
    exact hc.2
  have hsave := Sim.saveFrame hi hh hne
  have htf : (s.kalloc (.alarm i)).1 = s.kmem.freelist := by rw [kalloc_eq hne]
  unfold Kernel.tickMarks Kernel.alarmTick
  simp only [hc, hne, htf, ne_eq, not_false_eq_true, and_self, if_true, if_false]
  by_cases he : enters (s.proc i) = true
  · simp only [he, if_true]
    refine hsave.trans (.enterHandler ?_ (saveFrame_owner hne))
    simpa [Live, Kernel.saveFrame] using hi
  · simp only [he]
    exact hsave

end Kernel

open Kernel

/-- What a part of a step does to pages. -/
theorem Op.sim {s₀ s t : Kernel} {e : Event} {ms : List Mark} {x : Option (Slot × AlarmEvent)}
    (h : Op s₀ e s ms x t)
    (hown : ∀ i, .restore i ∈ ms → s₀.owner (s₀.proc i).alarmTf = .alarm i) : Sim ms s t := by
  cases h with
  | quiet hk ho h =>
    exact .procs hk ho fun j => ⟨(h j).unused, (h j).trapframe,
      congrArg Leftover.alarmTf (h j).leftover, Proc.flag_congr (h j).unused (h j).hlp⟩
  | frame hi pg => exact .setFrame hi pg
  | fault | sigalarm => exact .upd Iff.rfl rfl rfl rfl
  | kill =>
    refine .upd ?_ rfl rfl rfl
    dsimp only
    split_ifs with h <;> simp [h]
  | restore hi _ h => exact .restoreFrame hi (h (hown _ (by simp)))
  | lost h₀ h => exact fun l hl => absurd h₀ (hl.alarmTf_ne_zero (h (hown _ (by simp))))
  | tick hi hc hne => exact .alarmTick hi hc hne
  | alloc hj _ hne pid pt => exact .initSlot hne (not_not.2 hj) pid pt
  | fail hj hne => exact .fail hne (not_not.2 hj)
  | clear hj =>
    exact fun l hl => Sim.upd (by simp [Proc.free, hj])
      (by simp [Proc.free, hl.unused _ hj]) rfl rfl l hl
  | reap hj => exact .freeproc hj
  | take => exact .otherAlloc
  | give hp => exact .otherFree hp
  | put hp pg => exact .write (by simp [hp, Owner.writable]) pg

/-- **Every step of the kernel is a run of the ledger**, as long as a `sigreturn` finds a frame
saved for its process. -/
theorem step_sim {s t : Kernel} {e : Event} (h : step s e = some t)
    (hown : ∀ i, .restore i ∈ s.marks e → s.owner (s.proc i).alarmTf = .alarm i) :
    Sim (s.marks e) s t := by
  have hpath {u v : Kernel} {ms : List Mark} {xs : List (Slot × AlarmEvent)}
      (h : Path s e u ms xs v)
      (hms : ∀ i, .restore i ∈ ms → s.owner (s.proc i).alarmTf = .alarm i) : Sim ms u v := by
    induction h with
    | refl => exact .refl
    | step h _ ih =>
      exact (h.sim fun i hi => hms i (List.mem_append_left _ hi)).trans
        (ih fun i hi => hms i (List.mem_append_right _ hi))
  exact hpath (step_path h) hown

/-- **A run of the kernel that follows a protecting rule is a run of the ledger.** -/
theorem run_sim {γ : Type*} {R : Rule γ Mark} {I : Ledger → γ → Prop} (hP : Ledger.Protects R I)
    {s t : Kernel} {es : List Event} {g : γ} (hI : I s.ledger g)
    (hR : R.Follows g (s.runMarks es)) (h : runEvents step s es = some t) :
    Sim (s.runMarks es) s t := by
  induction es generalizing s g with
  | nil => exact Option.some.inj h ▸ .refl
  | cons e es ih =>
    obtain ⟨u, hu, h⟩ := Option.bind_eq_some_iff.mp h
    simp only [runMarks, hu, Option.elim_some] at hR ⊢
    obtain ⟨hR₁, hR₂⟩ := (R.follows_append _ _ _).1 hR
    have hsim := step_sim hu fun i hi => by
      rw [marks_of_restore hi] at hR₁
      exact hP.owns _ _ _ hI hR₁.1
    intro l hl
    obtain ⟨l₁, as, hl₁, hrun, hms⟩ := hsim l hl
    have hI₁ := R.runEvents_invariant (fun _ _ _ _ => hP.step _ _ _ _) hI (hms ▸ hR₁) hrun
    rw [hms] at hI₁
    exact hsim.trans (ih hI₁ hR₂ h) l hl

/-- What a rule protects holds after every run that follows it. -/
theorem run_protected {γ : Type*} {R : Rule γ Mark} {I : Ledger → γ → Prop}
    (hP : Ledger.Protects R I) {s t : Kernel} {es : List Event} {g : γ} {l : List ℕ} (hl : s.Wf l)
    (hI : I s.ledger g) (hR : R.Follows g (s.runMarks es)) (h : runEvents step s es = some t) :
    (∃ l', t.Wf l') ∧ I t.ledger ((s.runMarks es).foldl R.after g) := by
  obtain ⟨l', as, hl', hrun, hms⟩ := run_sim hP hI hR h l hl
  rw [← hms] at hR ⊢
  exact ⟨⟨l', hl'⟩, R.runEvents_invariant (fun _ _ _ _ => hP.step _ _ _ _) hI hR hrun⟩

/-- The kernel boots with its free list in order. -/
theorem boot_wf {m : Kmem} {l : List ℕ} (h : m.Free l) : (boot m l).Wf l where
  free := h
  owner_free p hp := if_pos hp
  range p := by
    unfold boot
    dsimp only
    split_ifs <;> simp
  frame i hi := absurd rfl hi
  unused i _ := rfl

/-! ### Calls on a small machine -/

/-- The first process calls `sigalarm(n, 0x1000)`. -/
def alarmEvery (n : Word) : List Event :=
  [.userinit 1, .dispatch 0, .trap 0 (callRegs 24 n 0x1000) (.syscall {})]

/-- A timer tick of the process in slot `i`, after which it runs again. -/
def tick (i : Slot) : List Event := [.trap i (callRegs 0 0 0) .timer, .dispatch i]

/-- `sigreturn`, called by the process in slot `i`. -/
def sigreturnBy (i : Slot) : Event := .trap i (callRegs 25 0 0) (.syscall {})

end Xv6
