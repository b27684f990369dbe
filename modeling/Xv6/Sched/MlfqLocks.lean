import Xv6.Sched.MlfqTrace

/-!
# The locks of the queue-3 branch

The queue-3 branch of `scheduler()` is the only code that takes a `p->lock` while it holds another:
after the process that it has dispatched has given up the CPU, with its lock held, it takes the lock
of every other process that it sees runnable. Two CPUs that do this at the same time can wait for
each other. `wakeup`, `kill`, `update_time`, `wait`, `exit` and `fork` hold one process lock at a
time, so a CPU that waits there keeps nobody waiting.
-/

namespace Xv6.Mlfq

variable {n : ℕ} {s t : State n}

/-- CPU `c` holds the lock of a process and spins on the lock of another one, which CPU `d` holds.
-/
def State.WaitsFor (s : State n) (c d : Fin n) : Prop :=
  ∃ p q, s.pc c = .acquire3 p q ∧ (s.pc d).holds = some q

/-- There is a cycle of CPUs each of which waits for the next one. -/
def Deadlocked (s : State n) : Prop := ∃ c, Relation.TransGen s.WaitsFor c c

/-- When a process that the queue-3 branch has dispatched gives up CPU `c`, no other CPU holds a
lock in that branch. -/
def OneAtATime (s : State n) : Event n → Prop
  | .leave c _ => ∀ p, s.pc c = .running3 p → ∀ d, d ≠ c → (s.pc d).holds = none
  | _ => True

instance (s : State n) : (e : Event n) → Decidable (OneAtATime s e)
  | .leave c _ => inferInstanceAs
      (Decidable (∀ p, s.pc c = .running3 p → ∀ d, d ≠ c → (s.pc d).holds = none))
  | .sched _ | .alloc _ _ _ _ | .allocFail _ | .forkFail _ | .forkDone _ | .wakeup _ | .reap _ =>
    inferInstanceAs (Decidable True)

/-- At most one CPU holds a lock, and it does not wait for that lock. -/
structure Single (s : State n) : Prop where
  one : ∀ c d, (s.pc c).holds ≠ none → (s.pc d).holds ≠ none → c = d
  ne : ∀ c p q, s.pc c = .acquire3 p q → p ≠ q

/-- One CPU waits for itself only if it waits for what it holds. -/
theorem Single.not_waitsFor (h : Single s) (c d : Fin n) : ¬ s.WaitsFor c d := by
  rintro ⟨p, q, hc, hd⟩
  have hcd : c = d := h.one c d (by simp [hc, Pc.holds]) (by simp [hd])
  rw [← hcd, hc] at hd
  exact h.ne c p q hc (Option.some.inj hd)

theorem Single.not_deadlocked (h : Single s) : ¬ Deadlocked s := by
  rintro ⟨c, hc⟩
  obtain ⟨d, -, hd⟩ := Relation.TransGen.tail'_iff.1 hc
  exact h.not_waitsFor d c hd

/-- A CPU goes on. It takes no lock that it has not held. -/
theorem Single.setPc (h : Single s) {u : State n} {c : Fin n} {pc : Pc} (hu : u.pc = s.pc)
    (hpc : pc.holds ≠ none → (s.pc c).holds ≠ none ∨ ∀ d, d ≠ c → (s.pc d).holds = none)
    (hne : ∀ p q, pc = .acquire3 p q → p ≠ q) : Single (u.setPc c pc) := by
  have hcases {d : Fin n} : (u.setPc c pc).pc d = if d = c then pc else s.pc d := by
    rw [State.setPc, hu]
    exact Function.update_apply _ _ _ _
  constructor
  · intro d d' hd hd'
    rw [hcases] at hd hd'
    split_ifs at hd hd' with hdc hdc' hdc'
    · exact hdc.trans hdc'.symm
    · rcases hpc hd with hold | hfree
      · exact hdc.trans (h.one c d' hold hd')
      · exact absurd (hfree d' hdc') hd'
    · rcases hpc hd' with hold | hfree
      · exact (h.one d c hd hold).trans hdc'.symm
      · exact absurd (hfree d hdc) hd
    · exact h.one d d' hd hd'
  · intro d p q hd
    rw [hcases] at hd
    split_ifs at hd with hdc
    · exact hne p q hd
    · exact h.ne d p q hd

theorem Single.step {e : Event n} (h : Single s) (he : OneAtATime s e) (hst : step s e = some t) :
    Single t := by
  cases step_inv hst with
  | @move c pc hm =>
    refine h.setPc rfl (fun hpc => .inl ?_) fun p q hpc => ?_
    · generalize s.pc c = pc₀ at hm ⊢
      cases hm <;> simp_all [Pc.holds, Pc.start]
    · generalize s.pc c = pc₀ at hm
      cases hm with
      | toAcquire3 hi hp hr =>
        obtain ⟨rfl, rfl⟩ := Pc.acquire3.inj hpc
        exact hp
      | _ => cases hpc
  | dispatch3 | dispatch => exact h.setPc rfl (absurd rfl) (by simp)
  | @age3 c p q hpc => exact h.setPc rfl (fun _ => .inl (by simp [hpc, Pc.holds])) (by simp)
  | age => exact h.setPc rfl (absurd rfl) (by simp)
  | @leave3 c how p hpc => exact h.setPc rfl (fun _ => .inr (he p hpc)) (by simp)
  | leave => exact h.setPc rfl (absurd rfl) (by simp)
  | alloc | allocFail | forkFail | forkDone | wakeup | reap => exact ⟨h.one, h.ne⟩

theorem single_init (n : ℕ) : Single (init n) := ⟨fun _ _ h => absurd rfl h, nofun⟩

/-- **No deadlock when the round robin ages on one CPU at a time.** Whatever the other CPUs do,
there is no cycle of CPUs that wait for each other's locks. -/
theorem no_deadlock {es : List (Event n)}
    (hrun : runEvents (restrict OneAtATime step) (init n) es = some s) : ¬ Deadlocked s := by
  refine Single.not_deadlocked (runEvents_invariant (fun _ _ _ hs hst => ?_) (single_init n) hrun)
  obtain ⟨he, hst⟩ := restrict_eq_some.1 hst
  exact hs.step he hst

/-! ### A CPU that does nothing -/

section Alongside

variable {s t : State 1}

/-- A second CPU stays at the start of its loop. -/
def alongside (s : State 1) : State 2 :=
  ⟨s.proc, s.qs, s.nextpid, fun c => if c = 0 then s.pc 0 else .start⟩

/-- An event, on the first of two CPUs. -/
def Event.onFirst : Event 1 → Event 2
  | .sched _ => .sched 0
  | .leave _ how => .leave 0 how
  | .alloc i tf pt now => .alloc i tf pt now
  | .allocFail i => .allocFail i
  | .forkFail i => .forkFail i
  | .forkDone i => .forkDone i
  | .wakeup i => .wakeup i
  | .reap i => .reap i

theorem alongside_setPc (s : State 1) (pc : Pc) :
    (alongside s).setPc 0 pc = alongside (s.setPc 0 pc) := by
  simp only [alongside, State.setPc, State.mk.injEq, true_and]
  funext c
  by_cases hc : c = 0 <;> simp [hc]

theorem alongside_withLock (s t : State 1) (p : Slot) :
    (alongside s).withLock p (alongside t) = (s.withLock p t).map alongside := by
  have hl : (alongside s).locked p = s.locked p := by
    simp [State.locked, alongside, Fin.exists_fin_two, Pc.holds, Pc.start]
  rw [State.withLock, State.withLock, hl]
  split_ifs <;> rfl

theorem alongside_onSlot (s t : State 1) (p : Slot) (st : ProcState) :
    onSlot (alongside s) p st (alongside t) = (onSlot s p st t).map alongside := by
  rw [onSlot, onSlot, alongside_withLock]
  change (if (s.proc p).state = st then _ else _) = _
  split_ifs <;> rfl

theorem alongside_setProc (s : State 1) (i : Slot) (p : Proc) :
    (alongside s).setProc i p = alongside (s.setProc i p) := rfl

theorem alongside_setBoth (s : State 1) (i : Slot) (r : Queues × Proc) :
    (alongside s).setBoth i r = alongside (s.setBoth i r) := rfl

theorem alongside_pc (s : State 1) : (alongside s).pc 0 = s.pc 0 := rfl

theorem alongside_proc (s : State 1) : (alongside s).proc = s.proc := rfl

theorem alongside_qs (s : State 1) : (alongside s).qs = s.qs := rfl

theorem alongside_schedStep (s : State 1) :
    schedStep 0 (alongside s) = (schedStep 0 s).map alongside := by
  rw [schedStep, schedStep, alongside_pc]
  cases s.pc 0 with
  | running3 p | running p => rfl
  | _ =>
    simp only [scanStep, rrStep, aging3Step, acquire3Step, selectStep, dispatchStep, alongside_proc,
      alongside_qs, alongside_setPc, alongside_setProc, alongside_setBoth, alongside_withLock,
      apply_dite (Option.map alongside), apply_ite (Option.map alongside), Option.map_some]

/-- A CPU that stays at the start of its loop is in nobody's way. -/
theorem alongside_step (s : State 1) (e : Event 1) :
    step (alongside s) e.onFirst = (step s e).map alongside := by
  cases e with
  | sched c =>
    rw [Subsingleton.elim c 0]
    exact alongside_schedStep s
  | leave c how =>
    rw [Subsingleton.elim c 0]
    change leave 0 how.state (alongside s) = (leave 0 how.state s).map alongside
    rw [leave, leave, alongside_pc]
    cases s.pc 0 with
    | running3 p | running p =>
      dsimp only
      rw [← alongside_withLock, ← alongside_setPc]
      rfl
    | _ => rfl
  | alloc i tf pt now => exact alongside_onSlot s (allocproc i tf pt now s) i .unused
  | allocFail i =>
    exact alongside_onSlot s { s.setProc i (s.proc i).free with nextpid := wrapInt (s.nextpid + 1) }
      i .unused
  | forkFail i => exact alongside_onSlot s (s.setProc i (s.proc i).free) i .used
  | forkDone i => exact alongside_onSlot s (s.setProc i ((s.proc i).setState .runnable)) i .used
  | wakeup i => exact alongside_onSlot s (s.setProc i ((s.proc i).setState .runnable)) i .sleeping
  | reap i => exact alongside_onSlot s (s.setProc i (s.proc i).free) i .zombie

theorem alongside_oneAtATime (s : State 1) (e : Event 1) : OneAtATime (alongside s) e.onFirst := by
  cases e with
  | leave c how =>
    intro p _ d hd
    exact congrArg Pc.holds (if_neg hd)
  | _ => trivial

theorem alongside_run {es : List (Event 1)} (h : runEvents step s es = some t) :
    runEvents (restrict OneAtATime step) (alongside s) (es.map Event.onFirst) =
      some (alongside t) := by
  induction es generalizing s with
  | nil => exact congrArg (some ∘ alongside) (Option.some.inj h)
  | cons e es ih =>
    obtain ⟨u, hu, h⟩ := Option.bind_eq_some_iff.mp h
    have hstep : restrict OneAtATime step (alongside s) e.onFirst = some (alongside u) :=
      restrict_eq_some.2 ⟨alongside_oneAtATime s e, by rw [alongside_step, hu]; rfl⟩
    rw [List.map_cons, runEvents_cons, hstep]
    exact ih h

theorem alongside_init : alongside (init 1) = init 2 := by
  simp only [alongside, init, State.mk.injEq, true_and]
  funext c
  exact ite_self _

end Alongside

/-- The first process goes down to queue 3. -/
def intoQueue3 : List Stage := [.events boot] ++ runsAlone 0 12

/-- Where a run leads that goes on with two CPUs. -/
theorem onTwo_reaches (es : List (Event 2)) (P : State 2 → Prop)
    (h : ∃ x, runEvents stage traced intoQueue3 = some x ∧
      ∃ s, runEvents (restrict OneAtATime step) (alongside x.1) es = some s ∧ P s) :
    ∃ fs s, runEvents (restrict OneAtATime step) (init 2) fs = some s ∧ P s := by
  obtain ⟨x, hx, s, hs, hp⟩ := h
  obtain ⟨fs, hfs⟩ := (reaches_of_stages hx).quiet
  have hrun : runEvents (restrict OneAtATime step) (init 2) (fs.map Event.onFirst) =
      some (alongside x.1) :=
    alongside_init ▸ alongside_run (runEvents_map id (fun _ _ _ => step_of_quietStep) hfs)
  refine ⟨fs.map Event.onFirst ++ es, s, ?_, hp⟩
  rw [runEvents_append, hrun]
  exact hs

/-- Both CPUs see that queue 3 is the lowest queue in use. The first one dispatches the first
process, which creates another one. The second CPU dispatches that. Then the first process gives up
its CPU, and that CPU goes on to take the lock of the other process. -/
def bothInQueue3 : List (Event 2) :=
  List.replicate 65 (.sched 0) ++ List.replicate 65 (.sched 1) ++
    [.sched 0, .alloc 1 3 4 0, .forkDone 1, .sched 1, .sched 1, .leave 0 .yield]

theorem no_deadlock_bothInQueue3 : ∃ fs s,
    runEvents (restrict OneAtATime step) (init 2) fs = some s ∧
      s.pc 0 = .aging3 0 0 ∧ s.pc 1 = .running3 1 ∧ ¬ Deadlocked s := by
  obtain ⟨fs, s, hs, h₀, h₁⟩ := onTwo_reaches bothInQueue3
    (fun s => s.pc 0 = .aging3 0 0 ∧ s.pc 1 = .running3 1) (by decide +kernel)
  exact ⟨fs, s, hs, h₀, h₁, no_deadlock hs⟩

/-- **Two CPUs wait for each other.** The second process gives up its CPU, too, while the first CPU
holds the lock of the first process. Each CPU sees the other process runnable and spins on its
lock. -/
theorem scheduler_deadlocks : ∃ es s, runEvents step (init 2) es = some s ∧
    s.pc 0 = .acquire3 0 1 ∧ s.pc 1 = .acquire3 1 0 ∧ Deadlocked s := by
  obtain ⟨fs, s, hs, t, ht, h₀, h₁⟩ := onTwo_reaches bothInQueue3
    (fun s => ∃ t, runEvents step s [.leave 1 .yield, .sched 0, .sched 0, .sched 1] = some t ∧
      t.pc 0 = .acquire3 0 1 ∧ t.pc 1 = .acquire3 1 0) (by decide +kernel)
  have hfs : runEvents step (init 2) fs = some s :=
    runEvents_map id (fun _ _ _ h => (restrict_eq_some.1 h).2) hs
  have h01 : t.WaitsFor 0 1 := ⟨0, 1, h₀, by rw [h₁]; rfl⟩
  have h10 : t.WaitsFor 1 0 := ⟨1, 0, h₁, by rw [h₀]; rfl⟩
  refine ⟨fs ++ [.leave 1 .yield, .sched 0, .sched 0, .sched 1], t, ?_, h₀, h₁, 0,
    .tail (.single h01) h10⟩
  rw [runEvents_append, hfs]
  exact ht

end Xv6.Mlfq
