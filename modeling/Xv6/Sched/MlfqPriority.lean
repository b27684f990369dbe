import Xv6.Sched.MlfqTrace

/-!
# Priority

On one CPU, when other code leaves the process table alone during the searches, does `scheduler()`
dispatch a process of the lowest queue in use?

A search finds this queue, but what it has found may be out of date when a process is dispatched.
The round robin of queue 3 dispatches one process after the other, and each of them may wake or
create processes of lower queues. And both branches boost processes on their way.
-/

namespace Xv6.Mlfq

/-- Nobody in a queue below `k` can run. -/
def AtLeast (proc : Slot → Proc) (k : ℤ) : Prop :=
  ∀ q, (proc q).state = .runnable → k ≤ (proc q).queue

/-- What is known about the queues of the processes that can run. -/
def Pc.Ordered (proc : Slot → Proc) : Pc → Prop
  | .scan qm i => ∀ q : Slot, q < i → (proc q).state = .runnable → qm ≤ (proc q).queue
  | .rr _ | .aging3 _ _ | .acquire3 _ _ => AtLeast proc 3
  | .running3 p => 3 ≤ (proc p).queue ∧ AtLeast proc 3
  | .select qm _ prngd _ => AtLeast proc qm ∧ ∀ p, prngd = some p → (proc p).queue = qm
  | .dispatch prngd i => ∀ p : Slot, prngd = some p → i ≤ p → AtLeast proc (proc p).queue
  | .running _ => True

/-- The round robin of queue 3 boosts nobody, nor does the other branch before it has dispatched its
choice, unless that is in queue 0. -/
def Act.Orderly (proc : Slot → Proc) : Act → Prop
  | .age3 q => (proc q).wwpqtct < 47
  | .age (some p) q => q < p → (proc p).queue = 0 ∨ (proc q).wwpqtct < 47
  | .age none _ | .move | .dispatch3 _ | .dispatch _ => True

instance (proc : Slot → Proc) : (a : Act) → Decidable (a.Orderly proc)
  | .age3 _ => inferInstanceAs (Decidable (_ < _))
  | .age (some _) _ => inferInstanceAs (Decidable (_ → _))
  | .age none _ | .move | .dispatch3 _ | .dispatch _ => inferInstanceAs (Decidable True)

/-- Whether the process on the CPU has been dispatched by the round robin. -/
def Pc.sweeping : Pc → Bool
  | .running3 _ => true
  | _ => false

/-- A step of the scheduler is orderly. During a round robin, a process that becomes runnable is in
queue 3. -/
def State.Orderly (s : State 1) : Event 1 → Prop
  | .sched _ => s.act.Orderly s.proc
  | .forkDone i | .wakeup i => (s.pc 0).sweeping = true → 3 ≤ (s.proc i).queue
  | _ => True

instance (s : State 1) : (e : Event 1) → Decidable (s.Orderly e)
  | .sched _ => inferInstanceAs (Decidable (s.act.Orderly s.proc))
  | .forkDone _ | .wakeup _ => inferInstanceAs (Decidable (_ → _))
  | .leave _ _ | .alloc _ _ _ _ | .allocFail _ | .forkFail _ | .reap _ =>
    inferInstanceAs (Decidable True)

section Step

variable {s t : State 1} {proc : Slot → Proc} {pc pc' : Pc}

theorem Pc.Ordered.move (h : pc.Ordered proc) (hm : Move proc pc pc') : pc'.Ordered proc := by
  cases hm with
  | @lower qm i hi hr hq =>
    intro q hqi hrun
    rcases Nat.lt_succ_iff_lt_or_eq.mp hqi with hlt | heq
    · exact (h q hlt hrun).trans' hq.le
    · obtain rfl : q = ⟨i, hi⟩ := Fin.ext heq
      exact le_rfl
  | @scan qm i hi hr =>
    intro q hqi hrun
    rcases Nat.lt_succ_iff_lt_or_eq.mp hqi with hlt | heq
    · exact h q hlt hrun
    · obtain rfl : q = ⟨i, hi⟩ := Fin.ext heq
      exact not_lt.mp fun hlt => hr ⟨hrun, hlt⟩
  | toRr hi => exact fun q => h q (q.isLt.trans_le hi)
  | toSelect hi _ => exact ⟨fun q => h q (q.isLt.trans_le hi), nofun⟩
  | rr | aging3 | endAging3 | toAcquire3 => exact h
  | endRr | endDispatch => exact fun q hq => absurd hq (Nat.not_lt_zero q)
  | choose _ _ hq =>
    refine ⟨h.1, fun p hp => ?_⟩
    cases hp
    exact hq
  | select => exact h
  | toDispatch =>
    intro p hp _ q hrun
    rw [h.2 p hp]
    exact h.1 q hrun
  | dispatch => exact fun p hp hle => h p hp (Nat.le_of_succ_le hle)

theorem AtLeast.update {k : ℤ} (h : AtLeast proc k) {i : Slot} {y : Proc}
    (hy : y.state = .runnable → k ≤ y.queue) : AtLeast (Function.update proc i y) k := by
  intro q hq
  by_cases hqi : q = i
  · subst hqi
    rw [Function.update_self] at hq ⊢
    exact hy hq
  · rw [Function.update_of_ne hqi] at hq ⊢
    exact h q hq

theorem not_boosts3 {p : Proc} (hok : ProcOk p) (hq : p.queue ≠ 0) (h : p.wwpqtct < 47) :
    ¬ Boosts3 p := by
  obtain ⟨h₀, -⟩ := hok.wwpqtct.resolve_left hq
  rw [Boosts3, wrapInt_of_lt (by omega) (by omega)]
  omega

theorem age_queue (qs : Queues) {p : Proc} (hok : ProcOk p) (h : p.wwpqtct < 47) :
    (age qs p).2.queue = p.queue := by
  rw [age_of_not_boosts fun hb => not_boosts3 hok hb.1 h hb.2]

/-- Other code changes a process that does not run. -/
theorem Pc.Ordered.other {i : Slot} {y : Proc} (h : (s.pc 0).Ordered s.proc) (hseat : Seated s)
    (hquiet : (s.pc 0).current.isSome ∨ s.pc 0 = .start) (hi : (s.proc i).state ≠ .running)
    (hy : (s.pc 0).sweeping = true → y.state = .runnable → 3 ≤ y.queue) :
    (s.pc 0).Ordered (Function.update s.proc i y) := by
  cases hpc : s.pc 0 with
  | scan qm k =>
    rw [hpc] at hquiet
    rcases hquiet with hcur | hstart
    · cases hcur
    · cases hstart
      exact fun q hq => absurd hq (Nat.not_lt_zero q)
  | running3 p =>
    have hne : p ≠ i := by
      rintro rfl
      exact hi (hseat p (by rw [hpc]; rfl))
    rw [hpc] at h hy
    rw [Pc.Ordered, Function.update_of_ne hne]
    exact ⟨h.1, h.2.update (hy rfl)⟩
  | running p => trivial
  | _ =>
    rw [hpc] at hquiet
    rcases hquiet with hcur | hstart
    · cases hcur
    · cases hstart

theorem step_ordered {e : Event 1} (hs : Inv s) (hseat : Seated s) (h : (s.pc 0).Ordered s.proc)
    (ho : s.Orderly e) (ht : quietStep s e = some t) : (t.pc 0).Ordered t.proc := by
  have hcpu (c : Fin 1) : c = 0 := Subsingleton.elim c 0
  have hquiet (he : e ≠ .sched 0) : (s.pc 0).current.isSome ∨ s.pc 0 = .start := by
    rw [quietStep] at ht
    split_ifs at ht with hq
    exact hq.resolve_left he
  cases step_inv (step_of_quietStep ht) with
  | @move c pc hm =>
    obtain rfl := hcpu c
    rw [setPc_pc]
    exact h.move hm
  | @dispatch3 c p hpc hr =>
    obtain rfl := hcpu c
    rw [hpc] at h
    rw [setPc_pc]
    have hself : (s.setProc p ((s.proc p).setState .running)).proc p =
        (s.proc p).setState .running := Function.update_self _ _ _
    refine ⟨?_, h.update (by simp)⟩
    change 3 ≤ ((s.setProc p ((s.proc p).setState .running)).proc p).queue
    rw [hself]
    exact h p hr
  | @age3 c p q hpc =>
    obtain rfl := hcpu c
    rw [State.Orderly, act_of_age3 hpc] at ho
    rw [hpc] at h
    rw [setPc_pc]
    refine AtLeast.update h fun hr => ?_
    rw [age3_state] at hr
    have hq := h q hr
    rw [age3_of_not_boosts3 (not_boosts3 (hs.proc q) (by omega) ho)]
    exact hq
  | @age c prngd q hpc hr hq =>
    obtain rfl := hcpu c
    rw [State.Orderly, act_of_age hpc hr hq] at ho
    rw [hpc] at h
    rw [setPc_pc]
    rintro p rfl hlt
    have hpq : p ≠ q := Fin.ne_of_gt hlt
    have hother :
        ((s.setBoth q (age s.qs (s.proc q))).setPc 0 (.dispatch (some p) (q + 1))).proc p =
          s.proc p := Function.update_of_ne hpq _ _
    rw [hother]
    refine (h p rfl (Nat.le_of_succ_le hlt)).update fun _ => ?_
    rcases ho hlt with hzero | hw
    · rw [hzero]
      exact (age_keeps hs.inBounds (hs.proc q)).ok.queue_nonneg
    · rw [age_queue _ (hs.proc q) hw]
      exact h p rfl (Nat.le_of_succ_le hlt) q hr
  | @dispatch c p =>
    obtain rfl := hcpu c
    rw [setPc_pc]
    trivial
  | @leave3 c how p hpc =>
    obtain rfl := hcpu c
    rw [hpc] at h
    rw [setPc_pc]
    exact AtLeast.update h.2 fun _ => h.1
  | @leave c how p hpc =>
    obtain rfl := hcpu c
    rw [setPc_pc]
    rintro q hq hle
    cases hq
    omega
  | alloc hi | allocFail hi | forkFail hi | reap hi =>
    exact h.other hseat (hquiet (by simp)) (by rw [hi]; simp) fun _ hr => by cases hr
  | forkDone hi | wakeup hi =>
    exact h.other hseat (hquiet (by simp)) (by rw [hi]; simp) fun hsweep _ => ho hsweep

/-- A process that is dispatched is in the lowest queue in use. -/
theorem Pc.Ordered.dispatched {p : Slot} (hs : Inv s) (h : (s.pc 0).Ordered s.proc)
    (ht : schedStep 0 s = some t) (hp : (t.pc 0).current = some p) :
    AtLeast s.proc (s.proc p).queue := by
  cases schedStep_inv ht with
  | move hm =>
    rw [setPc_pc, hm.current_eq_none.2] at hp
    cases hp
  | dispatch3 hpc hr =>
    rw [setPc_pc] at hp
    cases hp
    rw [hpc] at h
    have h₃ := (hs.proc p).queue_le
    exact fun q hq => h₃.trans (h q hq)
  | dispatch hpc hr =>
    rw [setPc_pc] at hp
    cases hp
    rw [hpc] at h
    exact h p rfl le_rfl
  | age3 | age =>
    rw [setPc_pc] at hp
    cases hp

end Step

/-- **Strict priority.** In every run on one CPU whose steps are orderly, when `scheduler()`
dispatches a process, no process that can run is in a lower queue. -/
theorem strict_priority {es : List (Event 1)} {s t : State 1} {p : Slot}
    (hrun : runEvents (restrict State.Orderly quietStep) (init 1) es = some s)
    (ht : schedStep 0 s = some t) (hp : (t.pc 0).current = some p) :
    ∀ q, (s.proc q).state = .runnable → ¬ (s.proc q).queue < (s.proc p).queue := by
  have h : Inv s ∧ Seated s ∧ (s.pc 0).Ordered s.proc :=
    runEvents_invariant (I := fun s => Inv s ∧ Seated s ∧ (s.pc 0).Ordered s.proc)
      (fun s e t hs ht => by
        obtain ⟨ho, ht⟩ := restrict_eq_some.mp ht
        obtain ⟨hinv, hseat, hord⟩ := hs
        have hstep := step_of_quietStep ht
        exact ⟨hinv.step (by decide) hstep, step_seated hseat hstep,
          step_ordered hinv hseat hord ho ht⟩)
      ⟨init_inv 1, seated_init, fun q hq => absurd hq (Nat.not_lt_zero q)⟩ hrun
  exact fun q hq => not_lt.mpr (h.2.2.dispatched h.1 ht hp q hq)

/-- The first process creates another one and yields. The next pass is about to dispatch it. -/
def secondDispatch : List (Event 1) :=
  boot ++ List.replicate 131 (.sched 0) ++ [.alloc 1 3 4 0, .forkDone 1, .leave 0 .yield] ++
    List.replicate 64 (.sched 0) ++ List.replicate 130 (.sched 0)

theorem strict_priority_secondDispatch :
    ∃ s t p, runEvents (restrict State.Orderly quietStep) (init 1) secondDispatch = some s ∧
      schedStep 0 s = some t ∧ (t.pc 0).current = some p ∧
      (s.proc 1).state = .runnable ∧ ¬ (s.proc 1).queue < (s.proc p).queue := by
  obtain ⟨s, hs, hr, t, ht, hcur⟩ :
      ∃ s, runEvents (restrict State.Orderly quietStep) (init 1) secondDispatch = some s ∧
        (s.proc 1).state = .runnable ∧
        ∃ t, schedStep 0 s = some t ∧ (t.pc 0).current = some 0 := by decide +kernel
  exact ⟨s, t, 0, hs, ht, hcur, hr, strict_priority hs ht hcur 1 hr⟩

/-- **A dispatch out of order.** The round robin of queue 3 dispatches a process of queue 2 while a
process of queue 1 can run. -/
theorem priority_inversion :
    ∃ es s t p q, runEvents quietStep (init 1) es = some s ∧ schedStep 0 s = some t ∧
      (t.pc 0).current = some p ∧ (s.proc q).state = .runnable ∧
      (s.proc q).queue < (s.proc p).queue := by
  obtain ⟨s, g, hreach, hpc, ⟨hr, hq, -⟩, hr', hq', -⟩ := intoSweep_reaches
  obtain ⟨es, hes⟩ := hreach.quiet
  refine ⟨es, s, _, 1, 2, hes, schedStep_of_dispatch3 hpc hr, by rw [setPc_pc]; rfl, hr', ?_⟩
  rw [hq, hq']
  decide

end Xv6.Mlfq
