import Xv6.Proc.SlotReuse

/-!
# Who is killed

`kill` of `kernel/proc.c` looks for a pid and not at the state of a slot. Free slots have pid 0, in
every history, so for any other pid `kill` finds a process or nobody. A call of `kill(0)` marks the
first free slot; `allocproc` does not take the mark away, and the next process in the slot is born
killed.
-/

namespace Xv6

/-- A process has this pid. -/
def Kernel.Lives (s : Kernel) (pid : ℤ) (i : Slot) : Prop :=
  (s.proc i).state ≠ .unused ∧ (s.proc i).pid = pid

instance (s : Kernel) (pid : ℤ) (i : Slot) : Decidable (s.Lives pid i) :=
  inferInstanceAs (Decidable ((s.proc i).state ≠ .unused ∧ (s.proc i).pid = pid))

/-- What `kill` returns and leaves, if it acts on processes only. -/
structure KillsLive (s : Kernel) (pid : ℤ) (w : Word) (t : Kernel) : Prop where
  ret : w = 0 ↔ ∃ i, s.Lives pid i
  found : w = 0 → ∃ i, s.Lives pid i ∧ t = s.upd i fun p =>
    { p with killed := 1, state := if p.state = .sleeping then .runnable else p.state }
  missing : w ≠ 0 → w = ofInt (-1) ∧ t = s

/-- Slot `j` has its process during the events `es`. -/
def Stays (j : Slot) (s : Kernel) (es : List Event) : Prop :=
  ∀ es' t, es' <+: es → runEvents step s es' = some t →
    (t.proc j).state ≠ .unused ∧ (t.proc j).pid = (s.proc j).pid

/-! ### Free slots -/

/-- A free slot has no pid. -/
def Proc.NoPid (p : Proc) : Prop := p.state = .unused → p.pid = 0

theorem SlotMove.noPid {a : SlotLabel} {p q : Proc} (h : SlotMove a p q) (hp : p.NoPid) :
    q.NoPid := by
  intro hq
  cases h with
  | quiet _ hpid hst | save _ _ hpid hst | kill _ hpid hst => exact hpid.trans (hp (hst.1 hq))
  | free => rfl
  | live _ hst | fault hst => exact absurd hq hst
  | sigalarm => exact hp hq

theorem SlotMoves.noPid {A : SlotLabel → Prop} {p q : Proc} (h : SlotMoves A p q) (hp : p.NoPid) :
    q.NoPid := by
  induction h with
  | refl => exact hp
  | tail _ hm ih =>
    obtain ⟨a, -, hm⟩ := hm
    exact hm.noPid ih

/-- Free slots have no pid, in every history. -/
theorem run_noPid {m : Kmem} {l : List ℕ} {es : List Event} {s : Kernel}
    (h : runEvents step (boot m l) es = some s) (j : Slot) : (s.proc j).NoPid :=
  runEvents_invariant (I := fun s => (s.proc j).NoPid)
    (fun _ _ _ hs hst => SlotMoves.noPid (step_moves hst j) hs) (fun _ => rfl) h

/-- `kill` acts on processes only if no free slot has the pid. -/
theorem Kernel.kill_killsLive {s : Kernel} {pid : ℤ}
    (hs : ∀ i, (s.proc i).pid = pid → (s.proc i).state ≠ .unused) :
    KillsLive s pid (s.kill pid).1 (s.kill pid).2 := by
  have hneg : ofInt (-1) ≠ (0 : Word) := by decide
  rw [Kernel.kill]
  split
  · rename_i hnone
    have hno : ¬ ∃ i, s.Lives pid i := by
      rintro ⟨i, -, hi⟩
      simpa [hi] using List.find?_eq_none.1 hnone i (List.mem_finRange i)
    exact ⟨iff_of_false hneg hno, fun h => absurd h hneg, fun _ => ⟨rfl, rfl⟩⟩
  · rename_i i hi
    have hpid : (s.proc i).pid = pid := by simpa using List.find?_some hi
    have hi : s.Lives pid i := ⟨hs i hpid, hpid⟩
    exact ⟨iff_of_true rfl ⟨i, hi⟩, fun _ => ⟨i, hi, rfl⟩, fun h => absurd rfl h⟩

/-- `kill(0)` finds a free slot if there is one. -/
theorem Kernel.kill_zero_killsLive_iff {s : Kernel} (hs : ∀ i, (s.proc i).NoPid)
    (hzero : ∀ i, ¬ s.Lives 0 i) :
    KillsLive s 0 (s.kill 0).1 (s.kill 0).2 ↔ ∀ i, (s.proc i).state ≠ .unused := by
  refine ⟨fun h i hi => ?_, fun h => kill_killsLive fun i _ => h i⟩
  obtain ⟨k, hk⟩ : ∃ k, (List.finRange NPROC).find? (fun i => (s.proc i).pid = 0) = some k :=
    Option.isSome_iff_exists.1
      (List.find?_isSome.2 ⟨i, List.mem_finRange i, by simpa using hs i hi⟩)
  have hret : (s.kill 0).1 = 0 := by rw [Kernel.kill, hk]
  obtain ⟨j, hj⟩ := h.ret.1 hret
  exact hzero j hj

/-! ### The flag -/

/-- What a slot with a killed process was before, and why the process is killed. -/
structure KilledFrom (A : StepLabel → Prop) (p q : Proc) : Prop where
  live : p.state ≠ .unused
  pid : q.pid = p.pid
  cause : p.killed ≠ 0 ∨ A (.kill p.pid) ∨ A .fault

/-- The flag of a process after changes of its slot. -/
structure Accounted (A : StepLabel → Prop) (p q : Proc) : Prop where
  clean : q.CleanIfUnused
  killed : q.state ≠ .unused → q.killed ≠ 0 → KilledFrom A p q
  /-- A process was there before, or the changes make processes. -/
  born : q.state ≠ .unused → (p.state ≠ .unused ∧ q.pid = p.pid) ∨ A .alloc

theorem SlotStep.accounted {T : ℤ → Prop} {A : StepLabel → Prop} {a : StepLabel} {p q r : Proc}
    (h : SlotStep T a q r) (ha : A a) (hzero : ¬ A (.kill 0))
    (hborn : A .alloc → ¬ A .fault ∧ ∀ pid, ¬ A (.kill pid)) (hq : Accounted A p q) :
    Accounted A p r := by
  -- changes that leave the process and its flag alone
  have hkeep (hsame : SameProc q r) (hk : r.killed = q.killed) : Accounted A p r := by
    have hlive (hr : r.state ≠ .unused) : q.state ≠ .unused := mt hsame.unused.2 hr
    refine ⟨fun hr => ?_, fun hr hkr => ?_, fun hr => ?_⟩
    · rw [hsame.pid, hk]
      exact hq.clean (hsame.unused.1 hr)
    · obtain ⟨h₁, h₂, h₃⟩ := hq.killed (hlive hr) (hk ▸ hkr)
      exact ⟨h₁, hsame.pid.trans h₂, h₃⟩
    · rw [hsame.pid]
      exact hq.born (hlive hr)
  -- changes that set the flag, which no event does that makes processes
  have hset (hsame : SameProc q r) (hlive : q.state ≠ .unused) (hA : ¬ A .alloc)
      (hcause : A (.kill q.pid) ∨ A .fault) : Accounted A p r := by
    obtain ⟨h₁, h₂⟩ := (hq.born hlive).resolve_right hA
    exact ⟨fun hr => absurd (hsame.unused.1 hr) hlive,
      fun _ _ => ⟨h₁, hsame.pid.trans h₂, .inr (h₂ ▸ hcause)⟩,
      fun _ => .inl ⟨h₁, hsame.pid.trans h₂⟩⟩
  have hkilled {p q : Proc} (hl : q.leftover = p.leftover) : q.killed = p.killed :=
    congrArg Leftover.killed hl
  cases h with
  | quiet hl hsame _ | tickets hl hsame _ => exact hkeep hsame (hkilled hl)
  | free => exact ⟨fun _ => ⟨rfl, rfl⟩, fun hr => absurd rfl hr, fun hr => absurd rfl hr⟩
  | alloc hst hl hst' _ =>
    have hk : r.killed = 0 := (hkilled hl).trans (hq.clean hst).2
    exact ⟨fun hr => absurd hr hst', fun _ hkr => absurd hk hkr, fun _ => .inr ha⟩
  | fault hst =>
    exact hset ⟨rfl, Iff.rfl⟩ hst (fun hA => (hborn hA).1 ha) (.inr ha)
  | save _ hl hsame _ => exact hkeep hsame (congrArg Leftover.killed hl :)
  | sigalarm => exact hkeep ⟨rfl, Iff.rfl⟩ rfl
  | kill _ hsame _ =>
    have hlive : q.state ≠ .unused := fun hu => hzero ((hq.clean hu).1 ▸ ha)
    exact hset hsame hlive (fun hA => (hborn hA).2 _ ha) (.inl ha)

/-- An event that makes processes kills nobody. -/
theorem Event.not_kill_of_allocates {e : Event} {j : Slot} (h : e.Permits j .alloc) :
    ¬ e.Permits j .fault ∧ ∀ pid, ¬ e.Permits j (.kill pid) := by
  cases e with
  | trap i u cause =>
    cases cause with
    | syscall r =>
      have hnum : Kernel.sysno u = 1 := by
        simpa [Event.Permits, Event.allocates, Event.syscall] using h
      refine ⟨by simp [Event.Permits, Event.faults], fun pid => ?_⟩
      simp [Event.Permits, Event.kills, Event.syscall, hnum]
    | timer | device | fault => simp [Event.Permits, Event.allocates, Event.syscall] at h
  | userinit pt => simp [Event.Permits, Event.faults, Event.kills, Event.syscall]
  | _ => simp [Event.Permits, Event.allocates, Event.syscall] at h

/-- One step: a killed process was there before, and it was killed already, or the step is a call of
`kill` with its pid, or it is its own fault. -/
theorem step_accounted {s t : Kernel} {e : Event} {j : Slot} (hs : (s.proc j).CleanIfUnused)
    (hzero : ¬ e.kills 0) (h : step s e = some t) :
    Accounted (e.Permits j) (s.proc j) (t.proc j) := by
  have hsteps := step_steps h j
  rw [Kernel.Stepped] at hsteps
  generalize t.proc j = q at hsteps
  induction hsteps with
  | refl => exact ⟨hs, fun hl hk => ⟨hl, rfl, .inl hk⟩, fun hl => .inl ⟨hl, rfl⟩⟩
  | tail _ hm ih =>
    obtain ⟨a, ha, hm⟩ := hm
    exact hm.accounted ha hzero Event.not_kill_of_allocates ih

/-! ### Histories -/

theorem stays_nil {j : Slot} {s : Kernel} (h : (s.proc j).state ≠ .unused) : Stays j s [] := by
  intro es' t hes' ht
  obtain rfl := List.prefix_nil.1 hes'
  cases ht
  exact ⟨h, rfl⟩

theorem Stays.snoc {j : Slot} {s t u : Kernel} {es : List Event} {e : Event} (h : Stays j s es)
    (ht : runEvents step s es = some t) (hu : step t e = some u)
    (hlive : (u.proc j).state ≠ .unused) (hpid : (u.proc j).pid = (t.proc j).pid) :
    Stays j s (es ++ [e]) := by
  intro es' v hes' hv
  rcases List.prefix_concat_iff.1 hes' with rfl | hes'
  · obtain ⟨t', ht', hv⟩ := runEvents_snoc hv
    obtain rfl := Option.some.inj (ht.symm.trans ht')
    obtain rfl := Option.some.inj (hu.symm.trans hv)
    exact ⟨hlive, hpid.trans (h es t (List.prefix_refl _) ht).2⟩
  · exact h es' v hes' hv

/-- The process in slot `j` has been there since a call of `kill` with its pid. -/
def Reason (b : Kernel) (es : List Event) (j : Slot) : Prop :=
  ∃ es₁ e es₂ u, es = es₁ ++ e :: es₂ ∧ runEvents step b es₁ = some u ∧ Stays j u (e :: es₂) ∧
    e.kills (u.proc j).pid

theorem run_reason {m : Kmem} {l : List ℕ} {es : List Event} {s : Kernel}
    (h : runEvents step (boot m l) es = some s) {j : Slot}
    (hes : ∀ e ∈ es, ¬ e.kills 0 ∧ ¬ e.faults j) : (s.proc j).CleanIfUnused ∧
      ((s.proc j).state ≠ .unused → (s.proc j).killed ≠ 0 → Reason (boot m l) es j) := by
  induction es using List.reverseRecOn generalizing s with
  | nil =>
    cases h
    exact ⟨fun _ => ⟨rfl, rfl⟩, fun hl => absurd rfl hl⟩
  | append_singleton es e ih =>
    obtain ⟨u, hu, hst⟩ := runEvents_snoc h
    have ⟨hclean, hu'⟩ := ih hu fun e' he' => hes e' (List.mem_append_left _ he')
    obtain ⟨hzero, hfault⟩ := hes e (by simp)
    have hacc := step_accounted hclean hzero hst
    refine ⟨hacc.clean, fun hl hk => ?_⟩
    obtain ⟨hlive, hpid, hcause⟩ := hacc.killed hl hk
    rcases hcause with hku | hcause | hcause
    · -- the process was killed before: the reason stands
      obtain ⟨es₁, e', es₂, v, rfl, hv, hstays, hr⟩ := hu' hlive hku
      have hvu : runEvents step v (e' :: es₂) = some u := by
        rw [runEvents_append, hv] at hu
        exact hu
      exact ⟨es₁, e', es₂ ++ [e], v, by simp, hv, hstays.snoc hvu hst hl hpid, hr⟩
    · exact ⟨es, e, [], u, rfl, hu, (stays_nil hlive).snoc rfl hst hl hpid, hcause⟩
    · exact absurd hcause hfault

/-- **Who is killed.** After every history, `kill` with a pid that is not 0 returns 0 if and only if
a process has this pid; then it changes nothing but the flag of such a process, and its state if it
sleeps, and otherwise it returns -1 and changes nothing. The same is true of `kill(0)` if and only
if no slot is free, as long as no process has got the pid 0 by an overflow. If `kill(0)` is not
called and no process in slot `j` faults, then a process there that is killed has been there since a
call of `kill` with its pid. -/
theorem kill_live_only {m : Kmem} {l : List ℕ} {es : List Event} {s : Kernel}
    (h : runEvents step (boot m l) es = some s) :
    (∀ pid, pid ≠ 0 → KillsLive s pid (s.kill pid).1 (s.kill pid).2) ∧
      ((∀ i, ¬ s.Lives 0 i) →
        (KillsLive s 0 (s.kill 0).1 (s.kill 0).2 ↔ ∀ i, (s.proc i).state ≠ .unused)) ∧
      ∀ j, (∀ e ∈ es, ¬ e.kills 0 ∧ ¬ e.faults j) → (s.proc j).state ≠ .unused →
        (s.proc j).killed ≠ 0 → Reason (boot m l) es j := by
  have hs := run_noPid h
  refine ⟨fun pid hpid => Kernel.kill_killsLive fun i hi hu => hpid (hi.symm.trans (hs i hu)),
    Kernel.kill_zero_killsLive_iff hs, fun j hes => (run_reason h hes).2⟩

/-- The first process forks and kills its child. -/
def killChild : List Event :=
  [.userinit 1, .dispatch 0, .trap 0 (callRegs 1 0 0) (.syscall { fork := .ok 2 }),
    .trap 0 (callRegs 6 2 0) (.syscall {})]

theorem kill_live_only_child : ∃ s, runEvents step (boot fewPages fewFree) killChild = some s ∧
    (∀ pid, pid ≠ 0 → KillsLive s pid (s.kill pid).1 (s.kill pid).2) ∧
      ¬ KillsLive s 0 (s.kill 0).1 (s.kill 0).2 ∧ (s.proc 1).state ≠ .unused ∧
      (s.proc 1).killed ≠ 0 ∧
      Reason (boot fewPages fewFree) killChild 1 := by
  obtain ⟨s, hs, hzero, hfree, hlive, hk⟩ : ∃ s, runEvents step (boot fewPages fewFree) killChild =
    some s ∧ (∀ i, ¬ s.Lives 0 i) ∧ (s.proc 2).state = .unused ∧ (s.proc 1).state ≠ .unused ∧
    (s.proc 1).killed ≠ 0 := by decide +kernel
  obtain ⟨hkill, hkill₀, hreason⟩ := kill_live_only hs
  exact ⟨s, hs, hkill, fun h => (hkill₀ hzero).1 h 2 hfree, hlive, hk,
    hreason 1 (by decide +kernel) hlive hk⟩

/-- The first process calls `kill(0)` and forks. -/
def killZero : List Event :=
  [.trap 0 (callRegs 6 0 0) (.syscall {}),
    .trap 0 (callRegs 1 0 0) (.syscall { fork := .ok 2 })]

/-- **A free slot is killed.** Only the first process exists, with pid 1. `kill(0)` returns 0 and
sets the flag of a free slot. The child that gets the slot is killed, although nobody has called
`kill` with its pid and it has not run. -/
theorem kill_zero_marks_unused :
    ∃ es s t, runEvents step (boot fewPages fewFree) es = some s ∧ (∀ i, ¬ s.Lives 0 i) ∧
      (s.kill 0).1 = 0 ∧ (s.proc 1).state = .unused ∧ (s.proc 1).killed = 0 ∧
      ((s.kill 0).2.proc 1).killed = 1 ∧ runEvents step s killZero = some t ∧
      (t.proc 1).state = .runnable ∧ (t.proc 1).killed = 1 ∧
      ∀ e ∈ es ++ killZero, ¬ e.kills (t.proc 1).pid ∧ ¬ e.faults 1 := by
  obtain ⟨s, hs, ⟨h₁, h₂, h₃, h₄, h₅⟩, t, ht⟩ :
      ∃ s, runEvents step (boot fewPages fewFree) [.userinit 1, .dispatch 0] = some s ∧
      ((∀ i, ¬ s.Lives 0 i) ∧ (s.kill 0).1 = 0 ∧ (s.proc 1).state = .unused ∧
        (s.proc 1).killed = 0 ∧ ((s.kill 0).2.proc 1).killed = 1) ∧
      ∃ t, runEvents step s killZero = some t ∧ (t.proc 1).state = .runnable ∧
        (t.proc 1).killed = 1 ∧ ∀ e ∈ [.userinit 1, .dispatch 0] ++ killZero,
          ¬ e.kills (t.proc 1).pid ∧ ¬ e.faults 1 := by decide +kernel
  exact ⟨_, s, t, hs, h₁, h₂, h₃, h₄, h₅, ht⟩

end Xv6
