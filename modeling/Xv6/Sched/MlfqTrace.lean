import Xv6.Sched.MlfqPass

/-!
# What happens to a process

`pqtct` and `wwpqtct` count what `scheduler()` does to a process. This keeps a tally beside them, on
one CPU: a dispatch, a round of waiting, a boost and a demotion are noted where they happen.

A pass is some two hundred steps long. For a run in which most passes have only one process to
dispatch there are shortcuts.
-/

namespace Xv6.Mlfq

open Function (update)

/-! ### What the scheduler does next -/

/-- What a step of `scheduler()` does to the process table. -/
inductive Act
  /-- Nothing. -/
  | move
  /-- The branch of queue 3 dispatches `p`. -/
  | dispatch3 (p : Slot)
  /-- The branch of queue 3 counts a round of waiting for `q`. -/
  | age3 (q : Slot)
  /-- The other branch counts a round of waiting for `q`. Its choice is `prngd`. -/
  | age (prngd : Option Slot) (q : Slot)
  /-- The other branch dispatches `p`. -/
  | dispatch (p : Slot)

/-- What the next step of `scheduler()` does. -/
def State.act (s : State 1) : Act :=
  match s.pc 0 with
  | .rr i =>
    if h : i < NPROC then
      if (s.proc ⟨i, h⟩).state = .runnable then .dispatch3 ⟨i, h⟩ else .move
    else .move
  | .acquire3 _ q => .age3 q
  | .dispatch prngd i =>
    if h : i < NPROC then
      if (s.proc ⟨i, h⟩).state = .runnable then
        if prngd = some ⟨i, h⟩ then .dispatch ⟨i, h⟩ else .age prngd ⟨i, h⟩
      else .move
    else .move
  | _ => .move

section Act

variable {s : State 1} {p q : Slot}

theorem act_of_move {pc : Pc} (h : Move s.proc (s.pc 0) pc) : s.act = .move := by
  generalize hpc : s.pc 0 = pc₀ at h
  rw [State.act, hpc]
  cases h with
  | rr hi hr | dispatch hi hr => exact (dif_pos hi).trans (if_neg hr)
  | endRr hi | endDispatch hi => exact dif_neg (not_lt.mpr hi)
  | _ => rfl

theorem act_of_dispatch3 (hpc : s.pc 0 = .rr p) (hr : (s.proc p).state = .runnable) :
    s.act = .dispatch3 p := by
  rw [State.act, hpc]
  exact (dif_pos p.isLt).trans (if_pos hr)

theorem act_of_age3 (hpc : s.pc 0 = .acquire3 p q) : s.act = .age3 q := by
  rw [State.act, hpc]

theorem act_of_age {prngd : Option Slot} (hpc : s.pc 0 = .dispatch prngd q)
    (hr : (s.proc q).state = .runnable) (hq : prngd ≠ some q) : s.act = .age prngd q := by
  rw [State.act, hpc]
  exact (dif_pos q.isLt).trans ((if_pos hr).trans (if_neg hq))

theorem act_of_dispatch (hpc : s.pc 0 = .dispatch (some p) p) (hr : (s.proc p).state = .runnable) :
    s.act = .dispatch p := by
  rw [State.act, hpc]
  exact (dif_pos p.isLt).trans ((if_pos hr).trans (if_pos rfl))

end Act

/-! ### The tally -/

/-- What has happened to a process. -/
structure Tally where
  /-- The dispatches since the process came to its queue. -/
  dispatches : ℕ
  /-- The rounds of waiting since it was dispatched, created or boosted. -/
  rounds : ℕ
  deriving DecidableEq

namespace Tally

/-- A process that has just come to its queue. -/
def zero : Tally := ⟨0, 0⟩

/-- A dispatch ends the waiting. -/
def dispatch (x : Tally) : Tally := ⟨x.dispatches + 1, 0⟩

/-- A round of waiting, and a boost if there is one. -/
def wait (x : Tally) (boosted : Bool) : Tally :=
  if boosted then zero else ⟨x.dispatches, x.rounds + 1⟩

/-- The end of a dispatch, and a demotion if there is one. -/
def leave (x : Tally) (demoted : Bool) : Tally := if demoted then ⟨0, x.rounds⟩ else x

end Tally

/-- The test for a boost in the branch of queue 3. -/
def Boosts3 (p : Proc) : Prop := 48 ≤ wrapInt (p.wwpqtct + 1)

/-- The test for a boost in the other branch. -/
def Boosts (p : Proc) : Prop := p.queue ≠ 0 ∧ Boosts3 p

/-- The test for a demotion. -/
def Demotes (p : Proc) : Prop := tickSlc p.queue ≤ wrapInt (p.pqtct + 1) ∧ p.queue ≠ 4

instance (p : Proc) : Decidable (Boosts3 p) := inferInstanceAs (Decidable (_ ≤ _))

instance (p : Proc) : Decidable (Boosts p) := inferInstanceAs (Decidable (_ ∧ _))

instance (p : Proc) : Decidable (Demotes p) := inferInstanceAs (Decidable (_ ∧ _))

section Tests

variable {qs : Queues} {p : Proc}

theorem age3_of_boosts3 (h : Boosts3 p) :
    age3 qs p = boost qs { p with wwpqtct := wrapInt (p.wwpqtct + 1) } := if_pos h

theorem age3_of_not_boosts3 (h : ¬ Boosts3 p) :
    age3 qs p = (qs, { p with wwpqtct := wrapInt (p.wwpqtct + 1) }) := if_neg h

theorem age3_state : (age3 qs p).2.state = p.state := by
  by_cases h : Boosts3 p
  · rw [age3_of_boosts3 h]
    rfl
  · rw [age3_of_not_boosts3 h]

theorem age_of_boosts (h : Boosts p) :
    age qs p = boost qs { p with wwpqtct := wrapInt (p.wwpqtct + 1) } :=
  (if_pos h.1).trans (if_pos h.2)

theorem age_of_not_boosts (h : ¬ Boosts p) :
    age qs p = (qs, { p with wwpqtct := wrapInt (p.wwpqtct + 1) }) := by
  by_cases hq : p.queue ≠ 0
  · exact (if_pos hq).trans (if_neg fun hw => h ⟨hq, hw⟩)
  · exact if_neg hq

/-- A process that has used its slice goes to the next queue. -/
theorem charge_of_demotes (qs : Queues) (h : Demotes p) : (charge qs p).2.queue = p.queue + 1 ∧
    (charge qs p).2.pqtct = 0 ∧ (charge qs p).2.wwpqtct = 0 := by
  rw [charge]
  dsimp only
  split_ifs with hc
  · exact ⟨rfl, rfl, rfl⟩
  · exact absurd h hc

theorem charge_of_not_demotes (qs : Queues) (h : ¬ Demotes p) : (charge qs p).2.queue = p.queue ∧
    (charge qs p).2.pqtct = wrapInt (p.pqtct + 1) ∧ (charge qs p).2.wwpqtct = 0 := by
  rw [charge]
  dsimp only
  split_ifs with hc
  · exact absurd hc h
  · exact ⟨rfl, rfl, rfl⟩

end Tests

/-- The process whose tally changes, and how. -/
def note (s : State 1) : Event 1 → Option (Slot × (Tally → Tally))
  | .sched _ =>
    match s.act with
    | .move => none
    | .dispatch3 p | .dispatch p => some (p, .dispatch)
    | .age3 q => some (q, (·.wait (Boosts3 (s.proc q))))
    | .age _ q => some (q, (·.wait (Boosts (s.proc q))))
  | .leave _ _ =>
    match s.pc 0 with
    | .running p => some (p, (·.leave (Demotes (s.proc p))))
    | _ => none
  | .alloc i _ _ _ => some (i, fun _ => .zero)
  | _ => none

/-- The tallies after an event. -/
def tally (s : State 1) (e : Event 1) (g : Slot → Tally) : Slot → Tally :=
  (note s e).elim g fun x => update g x.1 (x.2 (g x.1))

section Tally

variable {s : State 1} {c : Fin 1} {g : Slot → Tally} {p q : Slot}

theorem tally_move (h : s.act = .move) : tally s (.sched c) g = g := by
  rw [tally, note, h]
  rfl

theorem tally_dispatch3 (h : s.act = .dispatch3 p) :
    tally s (.sched c) g = update g p (g p).dispatch := by
  rw [tally, note, h]
  rfl

theorem tally_dispatch (h : s.act = .dispatch p) :
    tally s (.sched c) g = update g p (g p).dispatch := by
  rw [tally, note, h]
  rfl

theorem tally_age3 (h : s.act = .age3 q) :
    tally s (.sched c) g = update g q ((g q).wait (Boosts3 (s.proc q))) := by
  rw [tally, note, h]
  rfl

theorem tally_age {prngd : Option Slot} (h : s.act = .age prngd q) :
    tally s (.sched c) g = update g q ((g q).wait (Boosts (s.proc q))) := by
  rw [tally, note, h]
  rfl

theorem tally_leave {how : Leave} (h : s.pc 0 = .running p) :
    tally s (.leave c how) g = update g p ((g p).leave (Demotes (s.proc p))) := by
  rw [tally, note, h]
  rfl

theorem tally_leave3 {how : Leave} (h : s.pc 0 = .running3 p) : tally s (.leave c how) g = g := by
  rw [tally, note, h]
  rfl

end Tally

/-- A system with the tallies: `step`, or `quietStep`. -/
def tracedStep (step : State 1 → Event 1 → Option (State 1)) (x : State 1 × (Slot → Tally))
    (e : Event 1) : Option (State 1 × (Slot → Tally)) :=
  (step x.1 e).map fun t => (t, tally x.1 e x.2)

theorem tracedStep_eq_some {step : State 1 → Event 1 → Option (State 1)}
    {x y : State 1 × (Slot → Tally)} {e : Event 1} :
    tracedStep step x e = some y ↔ step x.1 e = some y.1 ∧ y.2 = tally x.1 e x.2 := by
  rw [tracedStep, Option.map_eq_some_iff]
  constructor
  · rintro ⟨t, ht, rfl⟩
    exact ⟨ht, rfl⟩
  · rintro ⟨ht, hg⟩
    exact ⟨y.1, ht, Prod.ext rfl hg.symm⟩

/-- The system boots. -/
def traced : State 1 × (Slot → Tally) := (init 1, fun _ => .zero)

/-! ### Shortcuts

A pass is some two hundred steps long. When only one process can run, it is clear where they lead.
-/

section Shortcuts

variable {s t : State 1} {g : Slot → Tally} {p : Slot} {x y z : State 1 × (Slot → Tally)}

/-- There is a quiet run from `x` to `y`. -/
def Reaches (x y : State 1 × (Slot → Tally)) : Prop :=
  ∃ es, runEvents (tracedStep quietStep) x es = some y

theorem Reaches.refl (x : State 1 × (Slot → Tally)) : Reaches x x := ⟨[], rfl⟩

theorem Reaches.trans (h : Reaches x y) (h' : Reaches y z) : Reaches x z := by
  obtain ⟨es, hes⟩ := h
  obtain ⟨es', hes'⟩ := h'
  exact ⟨es ++ es', by rw [runEvents_append, hes, Option.bind_some, hes']⟩

theorem reaches_step {e : Event 1} (h : quietStep s e = some t) :
    Reaches (s, g) (t, tally s e g) :=
  ⟨[e], by rw [runEvents_cons, tracedStep, h]; rfl⟩

/-- A quiet run is a run of the system. -/
theorem Reaches.run (h : Reaches x y) : ∃ es, runEvents (tracedStep step) x es = some y := by
  obtain ⟨es, hes⟩ := h
  refine ⟨es, runEvents_map id (fun x e y hy => ?_) hes⟩
  obtain ⟨ht, hg⟩ := tracedStep_eq_some.mp hy
  exact tracedStep_eq_some.mpr ⟨step_of_quietStep ht, hg⟩

/-- The run without the tallies. -/
theorem Reaches.quiet (h : Reaches x y) : ∃ es, runEvents quietStep x.1 es = some y.1 := by
  obtain ⟨es, hes⟩ := h
  exact ⟨es, runEvents_map Prod.fst (fun x e y hy => (tracedStep_eq_some.mp hy).1) hes⟩

theorem reaches_sched (h : schedStep 0 s = some t) : Reaches (s, g) (t, tally s (.sched 0) g) :=
  reaches_step ((quietStep_sched s).trans h)

theorem reaches_move {pc pc' : Pc} (h : Move s.proc pc pc') :
    Reaches (s.setPc 0 pc, g) (s.setPc 0 pc', g) := by
  have hm : Move (s.setPc 0 pc).proc ((s.setPc 0 pc).pc 0) pc' := by rwa [setPc_pc]
  have hstep := reaches_sched (g := g) (schedStep_of_move hm)
  rwa [setPc_setPc, tally_move (act_of_move hm)] at hstep

/-- A loop passes slots where nobody can run. -/
theorem reaches_skip (pc : ℕ → Pc) {i k : ℕ} (hik : i ≤ k) (hk : k ≤ NPROC)
    (hidle : ∀ q : Slot, i ≤ q → q < k → (s.proc q).state ≠ .runnable)
    (hmove : ∀ q : Slot, (s.proc q).state ≠ .runnable → Move s.proc (pc q) (pc (q + 1))) :
    Reaches (s.setPc 0 (pc i), g) (s.setPc 0 (pc k), g) := by
  induction k, hik using Nat.le_induction with
  | base => exact .refl _
  | succ k hik ih =>
    refine (ih (Nat.le_of_succ_le hk) fun q hq hqk => hidle q hq (Nat.lt_succ_of_lt hqk)).trans ?_
    exact reaches_move (hmove ⟨k, hk⟩ (hidle ⟨k, hk⟩ hik (Nat.lt_succ_self k)))

/-- A pass starts, and `p` is the only process that can run. -/
def Alone (p : Slot) (s : State 1) : Prop :=
  s.pc 0 = .start ∧ (s.proc p).state = .runnable ∧
    (∀ q, q ≠ p → (s.proc q).state ≠ .runnable) ∧ (s.proc p).queue < 3 ∧
    (s.proc p).qnumber < refmin1

instance (p : Slot) (s : State 1) : Decidable (Alone p s) := inferInstanceAs (Decidable (_ ∧ _))

/-- Nobody after `p` can run, and `p` does. -/
def Last (p : Slot) (s : State 1) : Prop :=
  s.pc 0 = .running p ∧ ∀ q, p < q → (s.proc q).state ≠ .runnable

instance (p : Slot) (s : State 1) : Decidable (Last p s) := inferInstanceAs (Decidable (_ ∧ _))

theorem Alone.reaches_choice (h : Alone p s) :
    Reaches (s, g) (s.setPc 0 (.dispatch (some p) p), g) := by
  obtain ⟨hpc, hr, hothers, hq, hn⟩ := h
  have hbefore (q : Slot) (_ : 0 ≤ (q : ℕ)) (hqp : q < (p : ℕ)) : (s.proc q).state ≠ .runnable :=
    hothers q (Fin.ne_of_lt hqp)
  have hafter (q : Slot) (hpq : (p : ℕ) + 1 ≤ q) (_ : (q : ℕ) < NPROC) :
      (s.proc q).state ≠ .runnable := hothers q (Fin.ne_of_gt hpq)
  -- each of the two searches passes the slots before `p`, takes `p`, and passes the slots after it
  have hstart : s = s.setPc 0 (.scan 4 0) := (setPc_of_eq hpc).symm
  nth_rewrite 1 [hstart]
  refine (reaches_skip (.scan 4) (Nat.zero_le _) p.isLt.le hbefore
    fun q hq => .scan q.isLt fun h => hq h.1).trans ?_
  refine (reaches_move (.lower p.isLt hr (hq.trans (by decide)))).trans ?_
  refine (reaches_skip (.scan (s.proc p).queue) p.isLt le_rfl hafter
    fun q hq => .scan q.isLt fun h => hq h.1).trans ?_
  refine (reaches_move (.toSelect le_rfl hq.ne)).trans ?_
  refine (reaches_skip (.select (s.proc p).queue refmin1 none) (Nat.zero_le _) p.isLt.le hbefore
    fun q hq => .select q.isLt fun h => hq h.1).trans ?_
  refine (reaches_move (.choose p.isLt hr rfl hn)).trans ?_
  refine (reaches_skip (.select (s.proc p).queue (s.proc p).qnumber (some p)) p.isLt le_rfl hafter
    fun q hq => .select q.isLt fun h => hq h.1).trans ?_
  refine (reaches_move (.toDispatch le_rfl)).trans ?_
  exact reaches_skip (.dispatch (some p)) (Nat.zero_le _) p.isLt.le hbefore
    fun q hq => .dispatch q.isLt hq

/-- A process that is alone is dispatched. -/
theorem Alone.reaches (h : Alone p s) :
    Reaches (s, g) ((s.setProc p ((s.proc p).setState .running)).setPc 0 (.running p),
      update g p (g p).dispatch) := by
  refine h.reaches_choice.trans ?_
  have hr := h.2.1
  have hstep :=
    reaches_sched (g := g) (schedStep_of_dispatch (setPc_pc s (.dispatch (some p) p)) hr)
  rw [tally_dispatch (act_of_dispatch (setPc_pc s _) hr)] at hstep
  change Reaches _ (((s.setProc p _).setPc 0 _).setPc 0 _, _) at hstep
  rwa [setPc_setPc] at hstep

/-- A process gives up the CPU, and the pass comes to its end. -/
theorem Last.reaches (h : Last p s) (how : Leave) :
    Reaches (s, g) ((s.setBoth p (charge s.qs ((s.proc p).setState how.state))).setPc 0 .start,
      update g p ((g p).leave (Demotes (s.proc p)))) := by
  obtain ⟨hpc, hafter⟩ := h
  have hleave : quietStep s (.leave 0 how) =
      some ((s.setBoth p (charge s.qs ((s.proc p).setState how.state))).setPc 0
        (.dispatch (some p) (p + 1))) := by
    rw [quietStep_of_current (by rw [hpc]; rfl), step, leave, hpc]
    exact withLock_of_holds (by rw [hpc]; rfl) _ _
  refine (reaches_step hleave).trans ?_
  rw [tally_leave hpc]
  refine (reaches_skip (.dispatch (some p)) p.isLt le_rfl (fun q hq _ => ?_)
    fun q hq => .dispatch q.isLt hq).trans (reaches_move (.endDispatch le_rfl))
  have hother : (s.setBoth p (charge s.qs ((s.proc p).setState how.state))).proc q = s.proc q :=
    Function.update_of_ne (Fin.ne_of_gt hq) _ _
  rw [hother]
  exact hafter q hq

/-- The same in the branch of queue 3, which goes on. -/
theorem leave3_reaches (hpc : s.pc 0 = .running3 p) (how : Leave) :
    Reaches (s, g) ((s.setProc p ((s.proc p).setState how.state)).setPc 0 (.aging3 p 0), g) := by
  have hleave : quietStep s (.leave 0 how) =
      some ((s.setProc p ((s.proc p).setState how.state)).setPc 0 (.aging3 p 0)) := by
    rw [quietStep_of_current (by rw [hpc]; rfl), step, leave, hpc]
    exact withLock_of_holds (by rw [hpc]; rfl) _ _
  have hstep := reaches_step (g := g) hleave
  rwa [tally_leave3 hpc] at hstep

/-- The stages of a run. -/
inductive Stage
  | events (es : List (Event 1))
  /-- A process that is alone is dispatched. -/
  | dispatch (p : Slot)
  /-- It gives up the CPU, and the pass ends. -/
  | leave (p : Slot) (how : Leave)

/-- What a stage leads to. -/
def stage (x : State 1 × (Slot → Tally)) : Stage → Option (State 1 × (Slot → Tally))
  | .events es => runEvents (tracedStep quietStep) x es
  | .dispatch p =>
    if Alone p x.1 then
      some ((x.1.setProc p ((x.1.proc p).setState .running)).setPc 0 (.running p),
        update x.2 p (x.2 p).dispatch)
    else none
  | .leave p how =>
    if Last p x.1 then
      some ((x.1.setBoth p (charge x.1.qs ((x.1.proc p).setState how.state))).setPc 0 .start,
        update x.2 p ((x.2 p).leave (Demotes (x.1.proc p))))
    else none

theorem reaches_of_stages {l : List Stage} (h : runEvents stage x l = some y) : Reaches x y := by
  refine runEvents_invariant (I := Reaches x) (fun y c z hy hz => hy.trans ?_) (.refl x) h
  cases c with
  | events es => exact ⟨es, hz⟩
  | dispatch p =>
    rw [stage] at hz
    split_ifs at hz with h
    cases hz
    exact h.reaches
  | leave p how =>
    rw [stage] at hz
    split_ifs at hz with h
    cases hz
    exact h.reaches how

end Shortcuts

/-- Process `p` runs alone, `k` times. -/
def runsAlone (p : Slot) (k : ℕ) : List Stage :=
  (List.replicate k [.dispatch p, .leave p .yield]).flatten

/-- The first process goes down to queue 3, creates another one and sleeps. This goes down to
queue 2, wakes the first one and sleeps. The pass that follows is one of queue 3: it dispatches
the first process, which wakes the second and creates a third. -/
def intoSweep : List Stage :=
  [.events boot] ++ runsAlone 0 11 ++
    [.dispatch 0,
      .events ([.alloc 1 3 4 0, .forkDone 1, .leave 0 .sleep] ++ List.replicate 64 (.sched 0))] ++
    runsAlone 1 3 ++ [.dispatch 1, .events [.wakeup 0], .leave 1 .sleep,
      .events (List.replicate 66 (.sched 0) ++
        [.wakeup 1, .alloc 2 5 6 0, .forkDone 2, .leave 0 .yield] ++ List.replicate 67 (.sched 0))]

theorem intoSweep_reaches :
    ∃ s g, Reaches traced (s, g) ∧ s.pc 0 = .rr (1 : Slot) ∧
      ((s.proc 1).state = .runnable ∧ (s.proc 1).queue = 2 ∧ (s.proc 1).pqtct = 0 ∧
        (s.proc 1).wwpqtct = 1) ∧
      (s.proc 2).state = .runnable ∧ (s.proc 2).queue = 1 ∧ (g 1).dispatches = 0 := by
  obtain ⟨⟨s, g⟩, hx, hp⟩ : ∃ x, runEvents stage traced intoSweep = some x ∧
      x.1.pc 0 = .rr (1 : Slot) ∧ ((x.1.proc 1).state = .runnable ∧ (x.1.proc 1).queue = 2 ∧
        (x.1.proc 1).pqtct = 0 ∧ (x.1.proc 1).wwpqtct = 1) ∧ (x.1.proc 2).state = .runnable ∧
        (x.1.proc 2).queue = 1 ∧
      (x.2 1).dispatches = 0 := by decide +kernel
  exact ⟨s, g, reaches_of_stages hx, hp⟩

end Xv6.Mlfq
