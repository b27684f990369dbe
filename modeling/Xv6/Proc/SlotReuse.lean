import Xv6.Proc.Slots

/-!
# What a new process finds in its slot

`allocproc` picks a free slot, and neither it nor `fork` nor the `freeproc` that emptied the slot
sets the alarm fields `alarm_act`, `ticks`, `handler` and `alarm_tf`. So a process whose slot was
used by one that had called `sigalarm` is sent to a handler it never installed. The flag `killed`
is reset when a slot is freed; but free slots have pid 0, and `kill(0)` sets the flag of the first
of them.
-/

namespace Xv6

/-- Maximum number of open files of a process. -/
abbrev NOFILE : ℕ := 16

/-- The fields of a process that the kernel acts on. -/
structure ActedOn where
  alarmAct : ℤ
  ticks : ℤ
  handler : Word
  hlp : ℤ
  sTcks : ℤ
  alarmTf : ℕ
  killed : ℤ
  tickets : ℤ
  queue : ℤ
  pqtct : ℤ
  wwpqtct : ℤ
  syscallCount : ℕ → BitVec 32
  rtime : BitVec 32

/-- What the kernel acts on for this process. -/
def Proc.actedOn (p : Proc) : ActedOn where
  alarmAct := p.alarmAct
  ticks := p.ticks
  handler := p.handler
  hlp := p.hlp
  sTcks := p.sTcks
  alarmTf := p.alarmTf
  killed := p.killed
  tickets := p.tickets
  queue := p.queue
  pqtct := p.pqtct
  wwpqtct := p.wwpqtct
  syscallCount := p.syscallCount
  rtime := p.rtime

/-- Two processes that `fork` copies alike. -/
def SameParent (s₁ : Kernel) (i₁ : Slot) (s₂ : Kernel) (i₂ : Slot) : Prop :=
  (∀ k, s₁.frame i₁ k = s₂.frame i₂ k) ∧
    (∀ fd < NOFILE, (s₁.proc i₁).ofile fd = (s₂.proc i₂).ofile fd) ∧
    (s₁.proc i₁).cwd = (s₂.proc i₂).cwd ∧ (s₁.proc i₁).tickets = (s₂.proc i₂).tickets ∧
    (s₁.proc i₁).name = (s₂.proc i₂).name ∧ (s₁.proc i₁).sz = (s₂.proc i₂).sz

instance (s₁ : Kernel) (i₁ : Slot) (s₂ : Kernel) (i₂ : Slot) :
    Decidable (SameParent s₁ i₁ s₂ i₂) := by
  unfold SameParent
  infer_instance

/-- Nobody in slot `j` has called `sigalarm`, and nobody at all has called `kill(0)`. -/
def Untouched (j : Slot) (es : List Event) : Prop :=
  ∀ e ∈ es, ¬ e.sigalarms j ∧ ¬ e.kills 0

instance (j : Slot) (es : List Event) : Decidable (Untouched j es) := by
  unfold Untouched
  infer_instance

/-! ### One slot -/

/-- A free slot has no pid and is not killed. -/
def Proc.CleanIfUnused (p : Proc) : Prop := p.state = .unused → p.pid = 0 ∧ p.killed = 0

variable {p q : Proc}

theorem SlotMove.cleanIfUnused {a : SlotLabel} (h : SlotMove a p q) (ha : a ≠ .kill 0)
    (hp : p.CleanIfUnused) : q.CleanIfUnused := by
  have hkilled {p q : Proc} (hl : q.leftover = p.leftover) : q.killed = p.killed :=
    congrArg Leftover.killed hl
  intro hq
  cases h with
  | quiet hl hpid hst => exact hpid ▸ hkilled hl ▸ hp (hst.1 hq)
  | free => exact ⟨rfl, rfl⟩
  | live _ hst => exact absurd hq hst
  | fault hst => exact absurd hq hst
  | save _ hl hpid hst =>
    have hk : q.killed = p.killed := congrArg Leftover.killed hl
    exact hpid ▸ hk ▸ hp (hst.1 hq)
  | sigalarm => exact hp hq
  | kill _ _ hst => exact absurd (congrArg SlotLabel.kill (hp (hst.1 hq)).1) ha

/-- The alarm settings of a slot, apart from the flag `killed`, stay as they are. -/
structure SameAlarm (p q : Proc) : Prop where
  alarmAct : q.alarmAct = p.alarmAct
  ticks : q.ticks = p.ticks
  handler : q.handler = p.handler
  alarmTf : q.alarmTf = p.alarmTf

theorem SlotMove.sameAlarm {a : SlotLabel} (h : SlotMove a p q)
    (ha : a ≠ .sigalarm) (hp : p.alarmAct ≠ 1) : SameAlarm p q := by
  have of_leftover {p q : Proc} {k : ℤ} (hl : q.leftover = { p.leftover with killed := k }) :
      SameAlarm p q := by
    simp only [Proc.leftover, Leftover.mk.injEq] at hl
    exact ⟨hl.1, hl.2.1, hl.2.2.1, hl.2.2.2.1⟩
  cases h with
  | quiet hl _ _ => exact of_leftover (k := p.killed) hl
  | free => exact ⟨rfl, rfl, rfl, rfl⟩
  | live hl _ => exact of_leftover (k := p.killed) hl
  | fault _ => exact ⟨rfl, rfl, rfl, rfl⟩
  | save hact _ _ _ => exact absurd hact hp
  | sigalarm => exact absurd rfl ha
  | kill hl _ _ => exact of_leftover hl

theorem SlotMoves.cleanIfUnused {A : SlotLabel → Prop} (h : SlotMoves A p q)
    (hA : ¬ A (.kill 0)) (hp : p.CleanIfUnused) : q.CleanIfUnused := by
  induction h with
  | refl => exact hp
  | tail _ hm ih =>
    obtain ⟨a, ha, hm⟩ := hm
    exact hm.cleanIfUnused (fun he => hA (he ▸ ha)) ih

theorem SlotMoves.sameAlarm {A : SlotLabel → Prop} (h : SlotMoves A p q)
    (hA : ¬ A .sigalarm) (hp : p.alarmAct ≠ 1) : SameAlarm p q := by
  induction h with
  | refl => exact ⟨rfl, rfl, rfl, rfl⟩
  | tail _ hm ih =>
    obtain ⟨a, ha, hm⟩ := hm
    have h := hm.sameAlarm (fun he => hA (he ▸ ha)) (ih.alarmAct ▸ hp)
    exact ⟨h.alarmAct.trans ih.alarmAct, h.ticks.trans ih.ticks, h.handler.trans ih.handler,
      h.alarmTf.trans ih.alarmTf⟩

/-! ### Histories -/

variable {s t : Kernel} {j i : Slot}

theorem run_cleanIfUnused {m : Kmem} {l : List ℕ} {es : List Event}
    (h : runEvents step (boot m l) es = some s) (hj : Untouched j es) :
    (s.proc j).CleanIfUnused :=
  runEvents_invariant_of (I := fun s => (s.proc j).CleanIfUnused) (P := fun e => ¬ e.kills 0)
    (fun _ _ _ he hs hst => SlotMoves.cleanIfUnused (step_moves hst j) he hs)
    (fun e he => (hj e he).2) (fun _ => ⟨rfl, rfl⟩) h

/-- A slot without an active alarm keeps its alarm settings until its process calls `sigalarm`. -/
theorem run_sameAlarm {es : List Event}
    (h : runEvents step s es = some t) (hes : ∀ e ∈ es, ¬ e.sigalarms j)
    (hs : (s.proc j).alarmAct ≠ 1) : SameAlarm (s.proc j) (t.proc j) := by
  refine runEvents_invariant_of (I := fun t => SameAlarm (s.proc j) (t.proc j))
    (fun u e t he hu hst => ?_) hes ⟨rfl, rfl, rfl, rfl⟩ h
  have h := SlotMoves.sameAlarm (step_moves hst j) he (hu.alarmAct ▸ hs)
  exact ⟨h.alarmAct.trans hu.alarmAct, h.ticks.trans hu.ticks, h.handler.trans hu.handler,
    h.alarmTf.trans hu.alarmTf⟩

/-- A slot that a history left untouched holds what it held at boot. -/
theorem leftover_of_untouched {m : Kmem} {l : List ℕ} {es : List Event}
    (h : runEvents step (boot m l) es = some s) (hj : Untouched j es)
    (hst : (s.proc j).state = .unused) : (s.proc j).leftover = Proc.zero.leftover := by
  have hclean := run_cleanIfUnused h hj hst
  have halarm : SameAlarm Proc.zero (s.proc j) :=
    run_sameAlarm h (fun e he => (hj e he).1) (by simp [boot, Proc.zero])
  simp [Proc.leftover, halarm.alarmAct, halarm.ticks, halarm.handler, halarm.alarmTf, hclean.2,
    Proc.zero]

/-! ### Children -/

/-- The child that `fork` returns. -/
theorem fork_child {r : ForkResult} (h : s.fork i r = (some j, t)) :
    (s.proc j).state = .unused ∧ ∃ pid tf pt now qn,
      t.proc j = ((s.proc j).allocInit pid tf pt now qn).forkInit i (s.proc i) := by
  unfold Kernel.fork at h
  split at h
  · cases h
  · rename_i k hk
    have hunused : (s.proc k).state = .unused := by simpa using List.find?_some hk
    unfold Kernel.forkInto at h
    dsimp only at h
    split_ifs at h
    · cases h
    · cases r with
      | noPagetable => cases h
      | noCopy => cases h
      | ok pt =>
        obtain ⟨hj, rfl⟩ := Prod.mk.inj h
        obtain rfl := Option.some.inj hj
        refine ⟨hunused, s.nextpid, (s.allocpid.kalloc (.frame k)).1, pt, ?_, ?_, ?_⟩
        · exact (s.allocpid.kalloc (.frame k)).2.ticks
        · exact (s.allocpid.kalloc (.frame k)).2.npnq0
        · simp [Kernel.write, Kernel.upd, Kernel.initSlot, Kernel.allocpid]

/-- A child has what its slot held, and fixed values or its parent's for the rest. -/
theorem actedOn_fork {r : ForkResult}
    (h : s.fork i r = (some j, t)) :
    (t.proc j).actedOn =
      ⟨(s.proc j).alarmAct, (s.proc j).ticks, (s.proc j).handler, 1, 0, (s.proc j).alarmTf,
        (s.proc j).killed, (s.proc i).tickets, 1, 0, 0, fun _ => 0, 0⟩ := by
  obtain ⟨-, pid, tf, pt, now, qn, hj⟩ := fork_child h
  rw [hj]
  rfl

/-! ### Timer traps -/

/-- A timer trap of a process without an active alarm leaves the program counter alone. -/
theorem timer_epc {u : Page} (hs : (s.proc j).alarmAct ≠ 1)
    (h : step s (.trap j u .timer) = some t) : t.frame j Tf.epc = u Tf.epc :=
  timer_uncounted (by simp [Kernel.counts, hs]) h (by decide)

/-- **What a child finds in its slot.** Take two histories with parents that `fork` copies alike.
The children agree on every field the kernel acts on if and only if their slots agreed on
`Leftover`; this is so when no earlier process in the slots called `sigalarm` and nobody called
`kill(0)`; and if the slot held no active alarm then the child, until it calls `sigalarm` itself,
goes on after every timer trap where it was interrupted. -/
theorem fork_slot_reuse {m₁ m₂ : Kmem} {l₁ l₂ : List ℕ} {es₁ es₂ : List Event}
    {s₁ s₂ t₁ t₂ : Kernel} {i₁ i₂ j₁ j₂ : Slot} {r₁ r₂ : ForkResult}
    (h₁ : runEvents step (boot m₁ l₁) es₁ = some s₁)
    (h₂ : runEvents step (boot m₂ l₂) es₂ = some s₂) (hp : SameParent s₁ i₁ s₂ i₂)
    (hf₁ : s₁.fork i₁ r₁ = (some j₁, t₁)) (hf₂ : s₂.fork i₂ r₂ = (some j₂, t₂)) :
    ((t₁.proc j₁).actedOn = (t₂.proc j₂).actedOn ↔
        (s₁.proc j₁).leftover = (s₂.proc j₂).leftover) ∧
      (Untouched j₁ es₁ → Untouched j₂ es₂ →
        (s₁.proc j₁).leftover = (s₂.proc j₂).leftover ∧ (s₁.proc j₁).alarmAct ≠ 1) ∧
      ((s₁.proc j₁).alarmAct ≠ 1 → ∀ es w u t, runEvents step t₁ es = some w →
        (∀ e ∈ es, ¬ e.sigalarms j₁) → step w (.trap j₁ u .timer) = some t →
        t.frame j₁ Tf.epc = u Tf.epc) := by
  refine ⟨?_, fun hu₁ hu₂ => ?_, fun hact es w u t hw hes ht => ?_⟩
  · rw [actedOn_fork hf₁, actedOn_fork hf₂]
    simp [Proc.leftover, hp.2.2.2.1]
  · have e₁ := leftover_of_untouched h₁ hu₁ (fork_child hf₁).1
    have e₂ := leftover_of_untouched h₂ hu₂ (fork_child hf₂).1
    refine ⟨e₁.trans e₂.symm, ?_⟩
    have : (s₁.proc j₁).alarmAct = 0 := congrArg Leftover.alarmAct e₁
    omega
  · have hchild : (t₁.proc j₁).alarmAct = (s₁.proc j₁).alarmAct :=
      congrArg ActedOn.alarmAct (actedOn_fork hf₁)
    have hkeep := (run_sameAlarm hw hes (hchild ▸ hact)).alarmAct
    exact timer_epc (by rw [hkeep, hchild]; exact hact) ht

/-! ### Two histories -/

/-- The first process has a child that makes one call and exits, and waits for it. -/
def oneChild (call : Page) : List Event :=
  [.userinit 1, .dispatch 0, .trap 0 (callRegs 1 0 0) (.syscall { fork := .ok 2 }), .dispatch 1,
    .trap 1 call (.syscall {}), .trap 1 (callRegs 2 0 0) (.syscall {}),
    .trap 0 (callRegs 3 0 0) (.syscall {})]

/-- The two histories of the first process with a child that makes the call `u₁` or `u₂`, and the
children that it has then. -/
theorem oneChild_runs (u₁ u₂ : Page) {q : Kernel → Kernel → Prop}
    (h : ∃ s₁, runEvents step (boot fewPages fewFree) (oneChild u₁) = some s₁ ∧
      ∃ s₂, runEvents step (boot fewPages fewFree) (oneChild u₂) = some s₂ ∧
        SameParent s₁ 0 s₂ 0 ∧ s₁.ticks = s₂.ticks ∧ s₁.nextpid = s₂.nextpid ∧
          (s₁.fork 0 (.ok 3)).1 = some 1 ∧ (s₂.fork 0 (.ok 3)).1 = some 1 ∧ q s₁ s₂) :
    ∃ s₁ s₂ t₁ t₂, runEvents step (boot fewPages fewFree) (oneChild u₁) = some s₁ ∧
      runEvents step (boot fewPages fewFree) (oneChild u₂) = some s₂ ∧
      SameParent s₁ 0 s₂ 0 ∧ s₁.ticks = s₂.ticks ∧ s₁.nextpid = s₂.nextpid ∧
      s₁.fork 0 (.ok 3) = (some 1, t₁) ∧ s₂.fork 0 (.ok 3) = (some 1, t₂) ∧ q s₁ s₂ := by
  obtain ⟨s₁, hs₁, s₂, hs₂, hp, ht, hn, hf₁, hf₂, hq⟩ := h
  exact ⟨s₁, s₂, _, _, hs₁, hs₂, hp, ht, hn, Prod.ext hf₁ rfl, Prod.ext hf₂ rfl, hq⟩

theorem fork_slot_reuse_untouched :
    ∃ s₁ s₂ t₁ t₂, runEvents step (boot fewPages fewFree) (oneChild (callRegs 11 0 0)) = some s₁ ∧
      runEvents step (boot fewPages fewFree) (oneChild (callRegs 14 0 0)) = some s₂ ∧
      s₁.fork 0 (.ok 3) = (some 1, t₁) ∧ s₂.fork 0 (.ok 3) = (some 1, t₂) ∧
      (t₁.proc 1).actedOn = (t₂.proc 1).actedOn := by
  obtain ⟨s₁, s₂, t₁, t₂, hs₁, hs₂, hp, -, -, hf₁, hf₂, -⟩ :=
    oneChild_runs (callRegs 11 0 0) (callRegs 14 0 0) (q := fun _ _ => true)
      (by decide +kernel)
  obtain ⟨hiff, hleft, -⟩ := fork_slot_reuse hs₁ hs₂ hp hf₁ hf₂
  exact ⟨s₁, s₂, t₁, t₂, hs₁, hs₂, hf₁, hf₂,
    hiff.2 (hleft (by decide +kernel) (by decide +kernel)).1⟩

/-- The first timer trap sends the process in slot 1 to `0x1000`. -/
def SentToHandler (s : Kernel) : Prop := ∃ w, runEvents step s [.dispatch 1] = some w ∧
  ∃ t, step w (.trap 1 (callRegs 0 0 0) .timer) = some t ∧ t.frame 1 Tf.epc = 0x1000

instance (s : Kernel) : Decidable (SentToHandler s) := inferInstanceAs (Decidable (∃ _, _))

/-- **An alarm carried over.** Two histories agree on the parent and on the tick and pid counters.
They differ in the one call of the process that used the slot before, `getpid()` in the first and
`sigalarm(1, 0x1000)` in the second. The children differ, and the second one, which has done
nothing yet, is sent to `0x1000` by its first timer trap. -/
theorem fork_carries_alarm :
    ∃ es₁ es₂ s₁ s₂ t₁ t₂ j, runEvents step (boot fewPages fewFree) es₁ = some s₁ ∧
      runEvents step (boot fewPages fewFree) es₂ = some s₂ ∧ SameParent s₁ 0 s₂ 0 ∧
      s₁.ticks = s₂.ticks ∧ s₁.nextpid = s₂.nextpid ∧ s₁.fork 0 (.ok 3) = (some j, t₁) ∧
      s₂.fork 0 (.ok 3) = (some j, t₂) ∧ (t₁.proc j).actedOn ≠ (t₂.proc j).actedOn ∧
      ∃ w u t, runEvents step t₂ [.dispatch j] = some w ∧ step w (.trap j u .timer) = some t ∧
        t.frame j Tf.epc ≠ u Tf.epc := by
  obtain ⟨s₁, s₂, t₁, t₂, hs₁, hs₂, hp, ht, hn, hf₁, hf₂, hq⟩ :=
    oneChild_runs (callRegs 11 0 0) (callRegs 24 1 0x1000)
      (q := fun s₁ s₂ => ((s₁.fork 0 (.ok 3)).2.proc 1).alarmAct = 0 ∧
        ((s₂.fork 0 (.ok 3)).2.proc 1).alarmAct = 1 ∧ SentToHandler (s₂.fork 0 (.ok 3)).2)
      (by decide +kernel)
  rw [hf₁, hf₂] at hq
  obtain ⟨h₀ : (t₁.proc 1).alarmAct = 0, h₁ : (t₂.proc 1).alarmAct = 1, w, hw, t, ht', hq⟩ := hq
  refine ⟨_, _, s₁, s₂, t₁, t₂, 1, hs₁, hs₂, hp, ht, hn, hf₁, hf₂, fun he => ?_,
    w, callRegs 0 0 0, t, hw, ht', ?_⟩
  · have : (t₁.proc 1).alarmAct = (t₂.proc 1).alarmAct := congrArg ActedOn.alarmAct he
    omega
  · rw [hq]
    decide

end Xv6
