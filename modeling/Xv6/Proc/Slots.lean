import Xv6.Proc.Parts

/-!
# What can happen to a slot

Each step of the kernel changes a slot of the process table in one of a few ways, as far as the
fields are concerned that no part of the kernel resets when the slot gets a new process. The pid and
the tickets of a process are told apart as well.
-/

namespace Xv6

/-- The changes of a slot that are told apart. -/
inductive SlotLabel
  | plain
  | sigalarm
  | kill (pid : ℤ)
  deriving DecidableEq, Repr

/-- A change of a slot. -/
inductive SlotMove : SlotLabel → Proc → Proc → Prop
  /-- Nothing that is told apart changes. -/
  | quiet {p q : Proc} (hl : q.leftover = p.leftover) (hpid : q.pid = p.pid)
      (hst : q.state = .unused ↔ p.state = .unused) : SlotMove .plain p q
  | free (p : Proc) : SlotMove .plain p p.free
  /-- The slot gets a new process, or the process in it goes on to another state. -/
  | live {p q : Proc} (hl : q.leftover = p.leftover) (hst : q.state ≠ .unused) :
      SlotMove .plain p q
  /-- A trap that is an error. -/
  | fault {p : Proc} (hst : p.state ≠ .unused) : SlotMove .plain p { p with killed := 1 }
  /-- The alarm code saves a frame. -/
  | save {p q : Proc} (hact : p.alarmAct = 1)
      (hl : q.leftover = { p.leftover with alarmTf := q.alarmTf }) (hpid : q.pid = p.pid)
      (hst : q.state = .unused ↔ p.state = .unused) : SlotMove .plain p q
  | sigalarm (p : Proc) (n : ℤ) (h : Word) :
      SlotMove .sigalarm p { p with ticks := n, handler := h, alarmAct := 1 }
  | kill {p q : Proc} (hl : q.leftover = { p.leftover with killed := 1 }) (hpid : q.pid = p.pid)
      (hst : q.state = .unused ↔ p.state = .unused) : SlotMove (.kill p.pid) p q

/-- Changes of a slot, one after the other, with labels from `A`. -/
abbrev SlotMoves (A : SlotLabel → Prop) : Proc → Proc → Prop :=
  Relation.ReflTransGen fun p q => ∃ a, A a ∧ SlotMove a p q

/-! ### Changes in detail -/

/-- The label of the same change among the slot's moves. -/
def StepLabel.move : StepLabel → SlotLabel
  | .plain | .alloc | .fault => .plain
  | .sigalarm => .sigalarm
  | .kill pid => .kill pid

/-- A slot has the process that it had before, if any. -/
structure SameProc (p q : Proc) : Prop where
  pid : q.pid = p.pid
  unused : q.state = .unused ↔ p.state = .unused

/-- A change of a slot. `T` are the numbers of tickets that a child can inherit. -/
inductive SlotStep (T : ℤ → Prop) : StepLabel → Proc → Proc → Prop
  /-- Nothing that is told apart changes. -/
  | quiet {p q : Proc} (hl : q.leftover = p.leftover) (hsame : SameProc p q)
      (htk : q.tickets = p.tickets) : SlotStep T .plain p q
  | free (p : Proc) : SlotStep T .plain p p.free
  /-- A free slot gets a new process. -/
  | alloc {p q : Proc} (hp : p.state = .unused) (hl : q.leftover = p.leftover)
      (hst : q.state ≠ .unused) (htk : q.tickets = 1) : SlotStep T .alloc p q
  /-- The process gets other tickets, by its own call or from its parent. -/
  | tickets {p q : Proc} (hl : q.leftover = p.leftover) (hsame : SameProc p q)
      (htk : 1 ≤ q.tickets ∨ T q.tickets) : SlotStep T .plain p q
  /-- A trap that is an error. -/
  | fault {p : Proc} (hst : p.state ≠ .unused) : SlotStep T .fault p { p with killed := 1 }
  /-- The alarm code saves a frame. -/
  | save {p q : Proc} (hact : p.alarmAct = 1)
      (hl : q.leftover = { p.leftover with alarmTf := q.alarmTf }) (hsame : SameProc p q)
      (htk : q.tickets = p.tickets) : SlotStep T .plain p q
  | sigalarm (p : Proc) (n : ℤ) (h : Word) :
      SlotStep T .sigalarm p { p with ticks := n, handler := h, alarmAct := 1 }
  | kill {p q : Proc} (hl : q.leftover = { p.leftover with killed := 1 }) (hsame : SameProc p q)
      (htk : q.tickets = p.tickets) : SlotStep T (.kill p.pid) p q

theorem SlotStep.move {T : ℤ → Prop} {a : StepLabel} {p q : Proc} (h : SlotStep T a p q) :
    SlotMove a.move p q := by
  cases h with
  | quiet hl hsame _ => exact .quiet hl hsame.pid hsame.unused
  | free => exact .free p
  | alloc _ hl hst _ => exact .live hl hst
  | tickets hl hsame _ => exact .quiet hl hsame.pid hsame.unused
  | fault hst => exact .fault hst
  | save hact hl hsame _ => exact .save hact hl hsame.pid hsame.unused
  | sigalarm _ n h => exact .sigalarm p n h
  | kill hl hsame _ => exact .kill hl hsame.pid hsame.unused

/-! ### Events -/

/-- The changes that an event can make to slot `j`. -/
def Event.Allows (e : Event) (j : Slot) : SlotLabel → Prop
  | .plain => True
  | .sigalarm => e.sigalarms j
  | .kill pid => e.kills pid

namespace Kernel

variable {s t u : Kernel} {T : ℤ → Prop} {A : StepLabel → Prop} {i j : Slot}

/-- The change of slot `j` from `s` to `t`. -/
def Moved (A : SlotLabel → Prop) (j : Slot) (s t : Kernel) : Prop :=
  SlotMoves A (s.proc j) (t.proc j)

/-- The change of slot `j` from `s` to `t`, in detail. -/
def Stepped (T : ℤ → Prop) (A : StepLabel → Prop) (j : Slot) (s t : Kernel) : Prop :=
  Relation.ReflTransGen (fun p q => ∃ a, A a ∧ SlotStep T a p q) (s.proc j) (t.proc j)

theorem Stepped.refl : Stepped T A j s s := Relation.ReflTransGen.refl

theorem Stepped.trans (h : Stepped T A j s t) (h' : Stepped T A j t u) : Stepped T A j s u :=
  Relation.ReflTransGen.trans h h'

theorem Stepped.single {a : StepLabel} (ha : A a) (h : SlotStep T a (s.proc j) (t.proc j)) :
    Stepped T A j s t :=
  Relation.ReflTransGen.single ⟨a, ha, h⟩

theorem Stepped.of_eq (h : t.proc = s.proc) : Stepped T A j s t := by
  rw [Stepped, h]

theorem Stepped.moved {B : SlotLabel → Prop} (h : Stepped T A j s t)
    (hAB : ∀ a, A a → B a.move) : Moved B j s t :=
  Relation.ReflTransGen.mono (fun _ _ ⟨a, ha, hm⟩ => ⟨a.move, hAB a ha, hm.move⟩) _ _ h

/-- A change of slot `i` alone. -/
theorem Stepped.update {q : Proc} {a : StepLabel} (ht : t.proc = Function.update s.proc i q)
    (ha : j = i → A a) (h : SlotStep T a (s.proc i) q) : Stepped T A j s t := by
  by_cases hj : j = i
  · subst hj
    refine .single (ha rfl) ?_
    simpa [ht] using h
  · have : t.proc j = s.proc j := by simp [ht, hj]
    rw [Stepped, this]

/-! ### The parts of a step -/

theorem Stepped.free (hA : A .plain) (ht : t.proc = Function.update s.proc i (s.proc i).free) :
    Stepped T A j s t :=
  .update ht (fun _ => hA) (.free _)

/-- A change that keeps what is told apart, up to the tickets. -/
theorem Stepped.quiet (hA : A .plain) (h : Quiet T (s.proc j) (t.proc j)) : Stepped T A j s t := by
  have hsame : SameProc (s.proc j) (t.proc j) := ⟨h.pid, h.unused⟩
  rcases h.tickets with htk | htk
  · exact .single hA (.quiet h.leftover hsame htk)
  · exact .single hA (.tickets h.leftover hsame htk)

theorem Stepped.alarmTick (hA : A .plain) : Stepped T A j s (s.alarmTick i) := by
  have hsave {tf : ℕ} (hc : counts (s.proc i) = true) :
      Stepped T A j s ((s.kalloc (.alarm i)).2.saveFrame i tf) := by
    simp only [counts, Bool.and_eq_true, decide_eq_true_eq] at hc
    refine .trans (.of_eq (kalloc_proc s (.alarm i))) (.update (i := i) rfl (fun _ => hA) ?_)
    refine .save ?_ rfl ⟨rfl, Iff.rfl⟩ rfl
    rw [kalloc_proc, hc.1]
  rw [Kernel.alarmTick]
  dsimp only
  split_ifs with hc
  · exact .of_eq rfl
  · exact (hsave hc).trans
      (.update (i := i) rfl (fun _ => hA) (.quiet rfl ⟨rfl, Iff.rfl⟩ rfl))
  · exact hsave hc
  · exact .refl

end Kernel

open Kernel

/-- What a part of a step does to a slot. -/
theorem Op.stepped {s₀ s t : Kernel} {e : Event} {ms : List Mark} {x : Option (Slot × AlarmEvent)}
    (h : Op s₀ e s ms x t) (j : Slot) : Stepped s₀.Holds (e.Permits j) j s t := by
  have hA : e.Permits j .plain := trivial
  cases h with
  | quiet _ _ h => exact .quiet hA (h j)
  | frame | put | lost => exact .of_eq rfl
  | take => exact .of_eq (kalloc_proc _ _)
  | give => exact .of_eq (kfree_proc _ _)
  | fault hi ha => exact .update rfl (fun h => h ▸ ha) (.fault hi)
  | kill ha =>
    refine .update rfl (fun h => h ▸ ha) (.kill rfl ⟨rfl, ?_⟩ rfl)
    dsimp only
    split_ifs with h <;> simp [h]
  | sigalarm ha => exact .update rfl (fun h => h ▸ ha) (.sigalarm _ _ _)
  | @restore i =>
    exact .trans (.of_eq (kfree_proc (s.setFrame i _) _))
      (.update (i := i) rfl (fun _ => hA) (.quiet rfl ⟨rfl, Iff.rfl⟩ rfl))
  | tick => exact .alarmTick hA
  | @alloc k hk ha =>
    refine .trans (.of_eq (kalloc_proc s (.frame k))) (.update (i := k) rfl (fun h => h ▸ ha) ?_)
    exact .alloc (by rwa [kalloc_proc]) rfl (by simp [Proc.allocInit]) rfl
  | @fail k =>
    have hproc : ((s.kalloc (.frame k)).2.kfree s.kmem.freelist).proc = s.proc := by simp
    exact .trans (.of_eq hproc) (.free (i := k) hA rfl)
  | clear => exact .free hA rfl
  | reap => exact .free hA (freeproc_proc s _)

/-- **What a step does to a slot.** Every step changes every slot in the ways its event permits. -/
theorem step_steps {s t : Kernel} {e : Event} (h : step s e = some t) (j : Slot) :
    Stepped s.Holds (e.Permits j) j s t := by
  have hpath {s₀ u v : Kernel} {ms : List Mark} {xs : List (Slot × AlarmEvent)}
      (h : Path s₀ e u ms xs v) : Stepped s₀.Holds (e.Permits j) j u v := by
    induction h with
    | refl => exact .refl
    | step h _ ih => exact (h.stepped j).trans ih
  exact hpath (step_path h)

/-- Every step changes every slot in the ways its event allows. -/
theorem step_moves {s t : Kernel} {e : Event} (h : step s e = some t) (j : Slot) :
    Kernel.Moved (e.Allows j) j s t := by
  refine (step_steps h j).moved fun a ha => ?_
  cases a with
  | plain | alloc | fault => trivial
  | sigalarm => exact ha
  | kill pid => exact ha

/-- A timer trap that is not counted leaves the registers of the user alone. -/
theorem timer_uncounted {s t : Kernel} {i : Slot} {u : Page} (hc : Kernel.counts (s.proc i) = false)
    (h : step s (.trap i u .timer) = some t) {k : Fin 512} (hk : Tf.isUser k) :
    t.frame i k = u k := by
  obtain ⟨-, h⟩ := stepEvent_of_step h
  have hu := Kernel.frame_enterKernel s i u hk
  have hquiet : (s.enterKernel i u).alarmTick i = s.enterKernel i u := by
    have : Kernel.counts ((s.enterKernel i u).proc i) = false := hc
    simp [Kernel.alarmTick, this]
  simp only [stepEvent] at h
  split_ifs at h with hrun
  unfold Kernel.usertrap at h
  split_ifs at h <;> cases h
  · rw [Kernel.frame_exit, hu]
  · rw [Kernel.frame_upd _ _ _ (by simp), hquiet, hu]

end Xv6
