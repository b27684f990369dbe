import Xv6.Sched.MlfqInv

/-!
# What one pass of the scheduler dispatches

A pass of `scheduler()` under `MLFQ` on a single CPU, when nothing changes the process table
between its loops. The search for the process with the smallest queue number starts from
`refmin1`, so it only sees queue numbers below a million, while the counters that give out queue
numbers never go down on their own: `freeproc` takes nothing back from `npnq[0]`.
-/

namespace Xv6.Mlfq

/-- The system on one CPU. Other code acts when a process runs, or between two passes. -/
def quietStep (s : State 1) (e : Event 1) : Option (State 1) :=
  if e = .sched 0 ∨ (s.pc 0).current.isSome ∨ s.pc 0 = .start then step s e else none

theorem step_of_quietStep {s t : State 1} {e : Event 1} (h : quietStep s e = some t) :
    step s e = some t := by
  unfold quietStep at h
  split_ifs at h
  exact h

theorem quietStep_sched (s : State 1) : quietStep s (.sched 0) = schedStep 0 s := by
  simp [quietStep, step]

theorem setPc_pc (s : State 1) (pc : Pc) : (s.setPc 0 pc).pc 0 = pc := by
  simp [State.setPc]

theorem Move.current_eq_none {proc : Slot → Proc} {pc pc' : Pc} (h : Move proc pc pc') :
    pc.current = none ∧ pc'.current = none := by
  cases h <;> exact ⟨rfl, rfl⟩

/-- The process on the CPU is in state `RUNNING`. -/
def Seated (s : State 1) : Prop := ∀ p, (s.pc 0).current = some p → (s.proc p).state = .running

theorem step_seated {s t : State 1} {e : Event 1} (h : Seated s) (ht : step s e = some t) :
    Seated t := by
  have hcpu (c : Fin 1) : c = 0 := Subsingleton.elim c 0
  -- nobody is on the CPU, or the process that is there has just been put there
  have hpc {u : State 1} {pc : Pc}
      (hp : ∀ p, pc.current = some p → (u.proc p).state = .running) : Seated (u.setPc 0 pc) :=
    fun p hcur => hp p (by rwa [setPc_pc] at hcur)
  -- a process that is not there changes
  have hother {u : State 1} {i : Slot} {y : Proc} (hi : (s.proc i).state ≠ .running)
      (hproc : u.proc = Function.update s.proc i y) (hpc : u.pc = s.pc) : Seated u := by
    intro p hp
    rw [hpc] at hp
    have hne : p ≠ i := by
      rintro rfl
      exact hi (h p hp)
    rw [hproc, Function.update_of_ne hne]
    exact h p hp
  cases step_inv ht with
  | @move c pc hm =>
    obtain rfl := hcpu c
    refine hpc fun p hp => ?_
    rw [hm.current_eq_none.2] at hp
    cases hp
  | @dispatch3 c p | @dispatch c p =>
    obtain rfl := hcpu c
    refine hpc fun q hq => ?_
    cases hq
    have hself : (s.setProc p ((s.proc p).setState .running)).proc p =
        (s.proc p).setState .running := Function.update_self _ _ _
    rw [hself]
    rfl
  | @age3 c | @age c | @leave3 c | @leave c =>
    obtain rfl := hcpu c
    exact hpc nofun
  | alloc hi | allocFail hi | forkFail hi | forkDone hi | wakeup hi | reap hi =>
    exact hother (by rw [hi]; nofun) rfl rfl

theorem seated_init : Seated (init 1) := nofun

/-- The scheduler gets from `s` to `t` without coming back to the start of its loop. -/
inductive Walk : State 1 → State 1 → Prop
  | refl (s : State 1) : Walk s s
  | step {s t u : State 1} (h : schedStep 0 s = some t) (hs : t.pc 0 ≠ .start) (hu : Walk t u) :
      Walk s u

/-- The pass that starts in `s` dispatches a process. -/
def Dispatches (s : State 1) : Prop := ∃ t, Walk s t ∧ (t.pc 0).current.isSome

/-- The pass that starts in `s` comes to its end without having dispatched a process. -/
def Completes (s : State 1) : Prop := ∃ t u, Walk s t ∧ schedStep 0 t = some u ∧ u.pc 0 = .start

namespace Walk

variable {s t u : State 1}

theorem trans (h : Walk s t) (h' : Walk t u) : Walk s u := by
  induction h with
  | refl _ => exact h'
  | step hst hs _ ih => exact .step hst hs (ih h')

theorem run (h : Walk s t) :
    ∃ k, runEvents quietStep s (List.replicate k (.sched 0)) = some t := by
  induction h with
  | refl s => exact ⟨0, rfl⟩
  | step hst _ _ ih =>
    obtain ⟨k, hk⟩ := ih
    exact ⟨k + 1, by rw [List.replicate_succ, runEvents_cons, quietStep_sched, hst]; exact hk⟩

end Walk

theorem schedStep_of_current {s : State 1} (h : (s.pc 0).current.isSome) :
    schedStep 0 s = none := by
  unfold schedStep
  split <;> simp_all [Pc.current]

/-- A pass is deterministic. -/
theorem not_dispatches_of_completes {s : State 1} (h : Completes s) : ¬ Dispatches s := by
  rintro ⟨t, hst, ht⟩
  obtain ⟨u, v, hsu, huv, hv⟩ := h
  induction hst with
  | refl s =>
    have hnone := schedStep_of_current ht
    cases hsu with
    | refl => simp [hnone] at huv
    | step h => simp [hnone] at h
  | step h hne _ ih =>
    cases hsu with
    | refl =>
      rw [h] at huv
      cases huv
      exact hne hv
    | step h' _ hsu =>
      rw [h] at h'
      cases h'
      exact ih ht hsu

/-! ### The loops -/

section Loops

variable {s : State 1}

theorem setPc_setPc (s : State 1) (pc pc' : Pc) : (s.setPc 0 pc).setPc 0 pc' = s.setPc 0 pc' := by
  simp [State.setPc]

/-- On one CPU a lock is free unless the CPU itself holds it. -/
theorem withLock_of_holds (h : (s.pc 0).holds = none) (p : Slot) (t : State 1) :
    s.withLock p t = some t := by
  have hl : s.locked p = false := by
    simp [State.locked, h]
  simp [State.withLock, hl]

/-- On one CPU, nothing is in the way of a step that only moves it. -/
theorem schedStep_of_move {pc : Pc} (h : Move s.proc (s.pc 0) pc) :
    schedStep 0 s = some (s.setPc 0 pc) := by
  generalize hpc : s.pc 0 = pc₀ at h
  have hl (hh : pc₀.holds = none) := withLock_of_holds (s := s) (by rw [hpc]; exact hh)
  rw [schedStep, hpc]
  cases h with
  | lower hi hr hq => exact (dif_pos hi).trans ((if_pos ⟨hr, hq⟩).trans (hl rfl _ _))
  | scan hi hr => exact (dif_pos hi).trans ((if_neg hr).trans (hl rfl _ _))
  | toRr hi => exact (dif_neg (not_lt.mpr hi)).trans (if_pos rfl)
  | toSelect hi hq => exact (dif_neg (not_lt.mpr hi)).trans (if_neg hq)
  | rr hi hr => exact (dif_pos hi).trans ((if_neg hr).trans (hl rfl _ _))
  | toAcquire3 hi hp hr => exact (dif_pos hi).trans (if_pos ⟨hp, hr⟩)
  | aging3 hi hr => exact (dif_pos hi).trans (if_neg hr)
  | choose hi hr hq hn => exact (dif_pos hi).trans ((if_pos ⟨hr, hq, hn⟩).trans (hl rfl _ _))
  | select hi hr => exact (dif_pos hi).trans ((if_neg hr).trans (hl rfl _ _))
  | dispatch hi hr =>
    exact (dif_pos hi).trans ((if_neg fun h => hr h.1).trans
      ((if_neg fun h => hr h.1).trans (hl rfl _ _)))
  | endRr hi | endAging3 hi | toDispatch hi | endDispatch hi => exact dif_neg (not_lt.mpr hi)

theorem schedStep_of_dispatch3 {p : Slot} (hpc : s.pc 0 = .rr p)
    (hr : (s.proc p).state = .runnable) : schedStep 0 s =
      some ((s.setProc p ((s.proc p).setState .running)).setPc 0 (.running3 p)) := by
  have hl := withLock_of_holds (s := s) (by rw [hpc]; rfl)
  simp [schedStep, hpc, rrStep, hr, hl]

theorem schedStep_of_dispatch {p : Slot} (hpc : s.pc 0 = .dispatch (some p) p)
    (hr : (s.proc p).state = .runnable) : schedStep 0 s =
      some ((s.setProc p ((s.proc p).setState .running)).setPc 0 (.running p)) := by
  have hl := withLock_of_holds (s := s) (by rw [hpc]; rfl)
  simp [schedStep, hpc, dispatchStep, hr, hl]

/-- A step that takes the CPU to a place which is not the start. -/
theorem Walk.single {t : State 1} {pc : Pc} (h : schedStep 0 s = some (t.setPc 0 pc))
    (hpc : pc ≠ .start) : Walk s (t.setPc 0 pc) :=
  .step h (by rwa [setPc_pc]) (.refl _)

theorem setPc_of_eq {pc : Pc} (hpc : s.pc 0 = pc) : s.setPc 0 pc = s := by
  simp [State.setPc, ← hpc]

theorem Walk.stay {pc : Pc} (hpc : s.pc 0 = pc) : Walk s (s.setPc 0 pc) := by
  rw [setPc_of_eq hpc]
  exact .refl s

theorem scan_walk {i : ℕ} (hi : i ≤ NPROC) {qm : ℤ} (hpc : s.pc 0 = .scan qm i) :
    ∃ qm', Walk s (s.setPc 0 (.scan qm' NPROC)) ∧ qm' ≤ qm ∧
      (∀ p : Slot, i ≤ p → (s.proc p).state = .runnable → qm' ≤ (s.proc p).queue) ∧
      (qm' = qm ∨ ∃ p : Slot, (s.proc p).state = .runnable ∧ (s.proc p).queue = qm') := by
  induction hi using Nat.decreasingInduction generalizing s qm with
  | self =>
    exact ⟨qm, .stay hpc, le_rfl, fun p hp => by omega, .inl rfl⟩
  | of_succ i hi ih =>
    -- the test at slot `i` takes the search to a bound that holds for this slot too
    obtain ⟨qm₁, hstep, hle, hi₁, hfrom⟩ : ∃ qm₁,
        schedStep 0 s = some (s.setPc 0 (.scan qm₁ (i + 1))) ∧ qm₁ ≤ qm ∧
        ((s.proc ⟨i, hi⟩).state = .runnable → qm₁ ≤ (s.proc ⟨i, hi⟩).queue) ∧
        (qm₁ = qm ∨ ∃ p : Slot, (s.proc p).state = .runnable ∧ (s.proc p).queue = qm₁) := by
      by_cases hr : (s.proc ⟨i, hi⟩).state = .runnable ∧ (s.proc ⟨i, hi⟩).queue < qm
      · exact ⟨_, schedStep_of_move (hpc ▸ .lower hi hr.1 hr.2), hr.2.le, fun _ => le_rfl,
          .inr ⟨_, hr.1, rfl⟩⟩
      · refine ⟨qm, schedStep_of_move (hpc ▸ .scan hi hr), le_rfl, fun h => ?_, .inl rfl⟩
        by_contra hlt
        exact hr ⟨h, by omega⟩
    obtain ⟨qm', hw, hle', hall, hfrom'⟩ := ih (s := s.setPc 0 (.scan qm₁ (i + 1))) (setPc_pc _ _)
    rw [setPc_setPc] at hw
    refine ⟨qm', (Walk.single hstep (by simp [Pc.start])).trans hw, hle'.trans hle, ?_, ?_⟩
    · intro p hp hr
      by_cases hpi : (p : ℕ) = i
      · obtain rfl : p = ⟨i, hi⟩ := Fin.ext hpi
        exact hle'.trans (hi₁ hr)
      · exact hall p (by omega) hr
    · rcases hfrom' with rfl | h
      · exact hfrom
      · exact .inr h

/-- The search finds a process if and only if there is one below the number it starts from. -/
theorem select_walk {i : ℕ} (hi : i ≤ NPROC) {qm refm : ℤ} {prngd : Option Slot}
    (hpc : s.pc 0 = .select qm refm prngd i) :
    ∃ refm' prngd', Walk s (s.setPc 0 (.select qm refm' prngd' NPROC)) ∧
      (prngd' = none ↔ prngd = none ∧ ∀ p : Slot, i ≤ p → (s.proc p).state = .runnable →
        (s.proc p).queue = qm → refm ≤ (s.proc p).qnumber) ∧
      (∀ p, prngd' = some p → prngd = some p ∨ (s.proc p).state = .runnable) := by
  induction hi using Nat.decreasingInduction generalizing s refm prngd with
  | self =>
    refine ⟨refm, prngd, .stay hpc, ⟨fun h => ⟨h, fun p hp => by omega⟩, fun h => h.1⟩,
      fun p => .inl⟩
  | of_succ i hi ih =>
    by_cases hr : (s.proc ⟨i, hi⟩).state = .runnable ∧ (s.proc ⟨i, hi⟩).queue = qm ∧
        (s.proc ⟨i, hi⟩).qnumber < refm
    · have hstep : schedStep 0 s = some (s.setPc 0
          (.select qm (s.proc ⟨i, hi⟩).qnumber (some ⟨i, hi⟩) (i + 1))) :=
        schedStep_of_move (hpc ▸ .choose hi hr.1 hr.2.1 hr.2.2)
      obtain ⟨refm', prngd', hw, hnone, hsome⟩ := ih (s := s.setPc 0 _) (setPc_pc _ _)
      rw [setPc_setPc] at hw
      refine ⟨refm', prngd', (Walk.single hstep (by simp [Pc.start])).trans hw, ?_, ?_⟩
      · constructor
        · intro h
          simpa using (hnone.1 h).1
        · rintro ⟨-, h⟩
          exact absurd (h ⟨i, hi⟩ le_rfl hr.1 hr.2.1) (by omega)
      · intro p hp
        rcases hsome p hp with h | h
        · cases h
          exact .inr hr.1
        · exact .inr h
    · have hstep : schedStep 0 s = some (s.setPc 0 (.select qm refm prngd (i + 1))) :=
        schedStep_of_move (hpc ▸ .select hi hr)
      obtain ⟨refm', prngd', hw, hnone, hsome⟩ := ih (s := s.setPc 0 _) (setPc_pc _ _)
      rw [setPc_setPc] at hw
      refine ⟨refm', prngd', (Walk.single hstep (by simp [Pc.start])).trans hw, ?_, hsome⟩
      rw [hnone]
      refine and_congr_right fun _ => ⟨fun h p hp hrun hq => ?_, fun h p hp => h p (by omega)⟩
      by_cases hpi : (p : ℕ) = i
      · obtain rfl : p = ⟨i, hi⟩ := Fin.ext hpi
        by_contra hlt
        exact hr ⟨hrun, hq, by omega⟩
      · exact h p (by omega) hrun hq

theorem rr_dispatches {i : ℕ} (hi : i ≤ NPROC) (hpc : s.pc 0 = .rr i)
    (hex : ∃ p : Slot, i ≤ p ∧ (s.proc p).state = .runnable) : Dispatches s := by
  induction hi using Nat.decreasingInduction generalizing s with
  | self =>
    obtain ⟨p, hp, -⟩ := hex
    omega
  | of_succ i hi ih =>
    by_cases hr : (s.proc ⟨i, hi⟩).state = .runnable
    · have hstep := schedStep_of_dispatch3 (p := ⟨i, hi⟩) hpc hr
      exact ⟨_, .single hstep (by simp [Pc.start]), by rw [setPc_pc]; rfl⟩
    · have hstep : schedStep 0 s = some (s.setPc 0 (.rr (i + 1))) :=
        schedStep_of_move (hpc ▸ .rr hi hr)
      obtain ⟨p, hp, hrun⟩ := hex
      have hpi : (p : ℕ) ≠ i := by
        intro h
        obtain rfl : p = ⟨i, hi⟩ := Fin.ext h
        exact hr hrun
      obtain ⟨t, hw, ht⟩ := ih (s := s.setPc 0 (.rr (i + 1))) (setPc_pc _ _) ⟨p, by omega, hrun⟩
      exact ⟨t, (Walk.single hstep (by simp [Pc.start])).trans hw, ht⟩

/-- The dispatch loop up to slot `k`, when the chosen process is not met on the way: it ages some
of the others. -/
theorem dispatch_walk {i k : ℕ} (hik : i ≤ k) (hk : k ≤ NPROC) {prngd : Option Slot}
    (hpc : s.pc 0 = .dispatch prngd i)
    (hno : ∀ p : Slot, i ≤ p → p < k → prngd = some p → (s.proc p).state ≠ .runnable) :
    ∃ t, Walk s t ∧ t.pc 0 = .dispatch prngd k ∧
      ∀ p, t.proc p = s.proc p ∨ (p : ℕ) < k ∧ ∃ qs, t.proc p = (age qs (s.proc p)).2 := by
  induction k, hik using Nat.le_induction with
  | base => exact ⟨s, .refl s, hpc, fun p => .inl rfl⟩
  | succ k hik ih =>
    obtain ⟨t, hw, htpc, ht⟩ := ih (by omega) fun p hp hpk => hno p hp (by omega)
    have hl := withLock_of_holds (s := t) (by rw [htpc]; rfl)
    have hk' : k < NPROC := hk
    -- slot `k` has not been touched yet
    have htk : t.proc ⟨k, hk'⟩ = s.proc ⟨k, hk'⟩ := (ht ⟨k, hk'⟩).resolve_right fun h => by
      have := h.1
      simp at this
    by_cases hr : (t.proc ⟨k, hk'⟩).state = .runnable
    · have hne : prngd ≠ some ⟨k, hk'⟩ := fun h => hno ⟨k, hk'⟩ hik (by simp) h (htk ▸ hr)
      have hstep : schedStep 0 t = some ((t.setBoth ⟨k, hk'⟩ (age t.qs (t.proc ⟨k, hk'⟩))).setPc 0
          (.dispatch prngd (k + 1))) := by
        simp only [schedStep, htpc, dispatchStep, hk', hr, hne, hl, dite_true, ne_eq,
          not_false_eq_true, and_self, if_true]
      refine ⟨_, hw.trans (.single hstep (by simp [Pc.start])), setPc_pc _ _, fun p => ?_⟩
      by_cases hp : p = ⟨k, hk'⟩
      · subst hp
        refine .inr ⟨by simp, t.qs, ?_⟩
        simp [State.setPc, State.setBoth, htk]
      · obtain h | ⟨hpk, qs, h⟩ := ht p
        · exact .inl ((Function.update_of_ne hp ..).trans h)
        · exact .inr ⟨Nat.lt_succ_of_lt hpk, qs, (Function.update_of_ne hp ..).trans h⟩
    · have hstep : schedStep 0 t = some (t.setPc 0 (.dispatch prngd (k + 1))) :=
        schedStep_of_move (htpc ▸ .dispatch hk' hr)
      exact ⟨_, hw.trans (.single hstep (by simp [Pc.start])), setPc_pc _ _,
        fun p => (ht p).imp_right fun h => ⟨Nat.lt_succ_of_lt h.1, h.2⟩⟩

/-- A dispatch loop without a choice ends the pass. -/
theorem dispatch_none_completes (hpc : s.pc 0 = .dispatch none 0) : Completes s := by
  obtain ⟨t, hw, htpc, -⟩ := dispatch_walk (Nat.zero_le NPROC) le_rfl hpc (by simp)
  exact ⟨t, t.setPc 0 .start, hw, schedStep_of_move (htpc ▸ .endDispatch le_rfl), setPc_pc _ _⟩

/-- A dispatch loop with a runnable choice dispatches it. -/
theorem dispatch_some_dispatches {p : Slot} (hpc : s.pc 0 = .dispatch (some p) 0)
    (hp : (s.proc p).state = .runnable) : Dispatches s := by
  obtain ⟨t, hw, htpc, ht⟩ := dispatch_walk (k := p) (Nat.zero_le _) p.isLt.le hpc (by
    intro q _ hq h
    obtain rfl : p = q := by simpa using h
    omega)
  have htp : t.proc p = s.proc p := (ht p).resolve_right fun h => by
    have := h.1
    omega
  have hstep := schedStep_of_dispatch htpc (htp ▸ hp)
  exact ⟨_, hw.trans (.single hstep (by simp [Pc.start])), by rw [setPc_pc]; rfl⟩

end Loops

/-! ### A pass -/

theorem Dispatches.of_walk {s t : State 1} (h : Walk s t) (ht : Dispatches t) : Dispatches s := by
  obtain ⟨u, hu, hc⟩ := ht
  exact ⟨u, h.trans hu, hc⟩

theorem Completes.of_walk {s t : State 1} (h : Walk s t) (ht : Completes t) : Completes s := by
  obtain ⟨u, v, hu, hv⟩ := ht
  exact ⟨u, v, h.trans hu, hv⟩

/-- The lower branch of the pass, which goes by queue numbers. -/
theorem select_phase {s : State 1} {qm : ℤ} (hpc : s.pc 0 = .scan qm NPROC) (hqm : qm ≠ 3) :
    (∃ p, (s.proc p).state = .runnable ∧ (s.proc p).queue = qm ∧ (s.proc p).qnumber < refmin1) ∧
        Dispatches s ∨
      (∀ p, (s.proc p).state = .runnable → (s.proc p).queue = qm →
        refmin1 ≤ (s.proc p).qnumber) ∧ Completes s := by
  have hstep : schedStep 0 s = some (s.setPc 0 (.select qm refmin1 none 0)) :=
    schedStep_of_move (hpc ▸ .toSelect le_rfl hqm)
  obtain ⟨refm, prngd, hsel, hnone, hsome⟩ :=
    select_walk (s := s.setPc 0 (.select qm refmin1 none 0)) (Nat.zero_le _) (setPc_pc _ _)
  rw [setPc_setPc] at hsel
  have hstep' : schedStep 0 (s.setPc 0 (.select qm refm prngd NPROC)) =
      some (s.setPc 0 (.dispatch prngd 0)) := by
    simp [schedStep, setPc_pc, selectStep, setPc_setPc]
  have hwalk : Walk s (s.setPc 0 (.dispatch prngd 0)) :=
    (Walk.single hstep (by simp [Pc.start])).trans
      (hsel.trans (.single hstep' (by simp [Pc.start])))
  cases prngd with
  | none =>
    refine .inr ⟨fun p => (hnone.1 rfl).2 p (Nat.zero_le _), ?_⟩
    exact .of_walk hwalk (dispatch_none_completes (setPc_pc _ _))
  | some p =>
    have hp := (hsome p rfl).resolve_left (by simp)
    refine .inl ⟨?_, .of_walk hwalk (dispatch_some_dispatches (setPc_pc _ _) hp)⟩
    by_contra hno
    have := hnone.2 ⟨rfl, fun q _ hq hqq => not_lt.1 fun hlt => hno ⟨q, hq, hqq, hlt⟩⟩
    cases this

/-- The branch of queue 3. -/
theorem rr_phase {s : State 1} (hpc : s.pc 0 = .scan 3 NPROC)
    (hex : ∃ p, (s.proc p).state = .runnable) : Dispatches s := by
  have hstep : schedStep 0 s = some (s.setPc 0 (.rr 0)) :=
    schedStep_of_move (hpc ▸ .toRr le_rfl)
  refine .of_walk (.single hstep (by simp [Pc.start])) ?_
  exact rr_dispatches (Nat.zero_le _) (setPc_pc _ _) (hex.imp fun p hp => ⟨Nat.zero_le _, hp⟩)

/-- The pass has something to find: the lowest queue in use is queue 3, or one of its processes
has a queue number below `refmin1`. -/
def HasWork (s : State 1) : Prop :=
  (∀ p, (s.proc p).state = .runnable → (s.proc p).queue = 3) ∨
    ∃ p, (s.proc p).state = .runnable ∧ (s.proc p).qnumber < refmin1 ∧
      ∀ q, (s.proc q).state = .runnable → (s.proc p).queue ≤ (s.proc q).queue

theorem hasWork_iff {s : State 1} {qm : ℤ} (hqm : ∃ p, (s.proc p).state = .runnable ∧
      (s.proc p).queue = qm) (hle : ∀ p, (s.proc p).state = .runnable → qm ≤ (s.proc p).queue)
    (h₃ : ∀ p, (s.proc p).queue ≤ 3) :
    HasWork s ↔ qm = 3 ∨ ∃ p, (s.proc p).state = .runnable ∧ (s.proc p).queue = qm ∧
      (s.proc p).qnumber < refmin1 := by
  obtain ⟨p₀, hp₀, rfl⟩ := hqm
  refine or_congr ⟨fun h => h p₀ hp₀, fun h p hp => ?_⟩ (exists_congr fun p => ?_)
  · have := hle p hp
    have := h₃ p
    omega
  · refine and_congr_right fun hp => ⟨fun ⟨hn, hmin⟩ => ⟨?_, hn⟩, fun ⟨hq, hn⟩ => ⟨hn, hq ▸ hle⟩⟩
    exact le_antisymm (hmin p₀ hp₀) (hle p hp)

/-- A pass dispatches a process if and only if it has something to find. -/
theorem dispatches_iff {s : State 1} (hpc : s.pc 0 = .start) (h₃ : ∀ p, (s.proc p).queue ≤ 3)
    (hex : ∃ p, (s.proc p).state = .runnable) : Dispatches s ↔ HasWork s := by
  obtain ⟨qm, hscan, hle, hall, hfrom⟩ := scan_walk (Nat.zero_le _) hpc
  have hqm : ∃ p, (s.proc p).state = .runnable ∧ (s.proc p).queue = qm := by
    refine hfrom.resolve_left fun h => ?_
    obtain ⟨p, hp⟩ := hex
    have := hall p (Nat.zero_le _) hp
    have := h₃ p
    omega
  rw [hasWork_iff hqm (fun p => hall p (Nat.zero_le _)) h₃]
  by_cases hq : qm = 3
  · subst hq
    exact iff_of_true (.of_walk hscan (rr_phase (setPc_pc _ _) hex)) (.inl rfl)
  · rcases select_phase (setPc_pc s _) hq with ⟨hwork, hd⟩ | ⟨hno, hc⟩
    · exact iff_of_true (.of_walk hscan hd) (.inr hwork)
    · refine iff_of_false (not_dispatches_of_completes (.of_walk hscan hc)) ?_
      rintro (h | ⟨p, hp, hpq, hpn⟩)
      · exact hq h
      · exact absurd (hno p hp hpq) (not_le.2 hpn)

/-- **When a pass finds work.** In every reachable state of the kernel on one CPU in which a pass
starts and a process is runnable, the pass dispatches a process if and only if the lowest queue in
use is queue 3 or holds a process with a queue number below `refmin1`. -/
theorem pass_dispatches_iff {es : List (Event 1)} {s : State 1}
    (h : runEvents quietStep (init 1) es = some s) (hpc : s.pc 0 = .start)
    (hex : ∃ p, (s.proc p).state = .runnable) : Dispatches s ↔ HasWork s := by
  have hs : Inv s :=
    runEvents_invariant (fun _ _ _ hs hst => hs.step (by decide) (step_of_quietStep hst))
      (init_inv 1) h
  exact dispatches_iff hpc (fun p => (hs.proc p).queue_le) hex

/-- The kernel boots, and the first process can run. -/
def boot : List (Event 1) := [.alloc 0 1 2 0, .forkDone 0]

theorem pass_dispatches_iff_boot :
    ∃ s, runEvents quietStep (init 1) boot = some s ∧ Dispatches s := by
  obtain ⟨s, hs, hpc, hr, hn, hmin⟩ : ∃ s, runEvents quietStep (init 1) boot = some s ∧ s.pc 0 =
    .start ∧ (s.proc 0).state = .runnable ∧ (s.proc 0).qnumber = 0 ∧ ∀ q, (s.proc q).state =
    .runnable → (s.proc 0).queue ≤ (s.proc q).queue := by decide +kernel
  refine ⟨s, hs, (pass_dispatches_iff hs hpc ⟨0, hr⟩).2 (.inr ⟨0, hr, ?_, hmin⟩)⟩
  rw [hn]
  decide

/-! ### A million forks

The first process calls `fork` again and again, each time without enough memory to copy its own.
Every call takes a number from `npnq[0]` and gives nothing back. Then one call succeeds and the
first process goes to sleep in `wait`. -/

/-- A call of `fork` that cannot copy the memory of the caller. -/
def failingFork : List (Event 1) := [.alloc 1 3 4 0, .forkFail 1]

/-- A call of `fork`, and one of `wait`. -/
def forkAndWait : List (Event 1) := [.alloc 1 3 4 0, .forkDone 1, .leave 0 .sleep]

/-- The first process runs alone, and `v` queue numbers have been given out. -/
structure RunsAlone (v : ℤ) (s : State 1) : Prop where
  pc : s.pc 0 = .running 0
  unused : ∀ p, p ≠ 0 → (s.proc p).state = .unused
  npnq : s.qs.npnq 0 = v

instance (v : ℤ) (s : State 1) : Decidable (RunsAlone v s) :=
  decidable_of_iff (s.pc 0 = .running 0 ∧ (∀ p, p ≠ 0 → (s.proc p).state = .unused) ∧
      s.qs.npnq 0 = v)
    ⟨fun ⟨h₁, h₂, h₃⟩ => ⟨h₁, h₂, h₃⟩, fun ⟨h₁, h₂, h₃⟩ => ⟨h₁, h₂, h₃⟩⟩

theorem runsAlone_boot :
    ∃ s, runEvents quietStep (init 1) (boot ++ List.replicate 131 (.sched 0)) = some s ∧
      RunsAlone 1 s := by
  decide +kernel

theorem quietStep_of_current {s : State 1} (h : (s.pc 0).current.isSome) (e : Event 1) :
    quietStep s e = step s e := by
  simp [quietStep, h]

/-- While a process runs, a call that needs slot `i` in state `st` can be made. -/
theorem onSlot_of_running {s : State 1} (hpc : s.pc 0 = .running 0) {i : Slot} {st : ProcState}
    (hst : (s.proc i).state = st) (t : State 1) : onSlot s i st t = some t := by
  simp [onSlot, hst, withLock_of_holds (s := s) (by rw [hpc]; rfl)]

theorem RunsAlone.alloc {v : ℤ} {s : State 1} (h : RunsAlone v s) :
    quietStep s (.alloc 1 3 4 0) = some (allocproc 1 3 4 0 s) := by
  rw [quietStep_of_current (by rw [h.pc]; rfl)]
  exact onSlot_of_running h.pc (h.unused 1 (by decide)) _

theorem RunsAlone.run_failingFork {v : ℤ} {s : State 1} (h : RunsAlone v s) (h₀ : 0 ≤ v)
    (hv : v < 2 ^ 31 - 1) :
    ∃ t, runEvents quietStep s failingFork = some t ∧ RunsAlone (v + 1) t := by
  set a := allocproc 1 3 4 0 s with ha
  have hpc : a.pc 0 = .running 0 := h.pc
  have hfail : quietStep a (.forkFail 1) = some (a.setProc 1 (a.proc 1).free) := by
    rw [quietStep_of_current (by rw [hpc]; rfl)]
    exact onSlot_of_running hpc (by simp [ha, allocproc, State.setProc, Proc.allocInit]) _
  refine ⟨a.setProc 1 (a.proc 1).free, ?_, hpc, fun p hp => ?_, ?_⟩
  · rw [failingFork, runEvents_cons, h.alloc, Option.bind_some, runEvents_cons, ← ha, hfail]
    rfl
  · by_cases hp₁ : p = 1
    · subst hp₁
      simp [State.setProc, Proc.free]
    · simpa [State.setProc, ha, allocproc, hp₁] using h.unused p hp
  · change wrapInt (s.qs.npnq 0 + 1) = v + 1
    rw [h.npnq]
    exact wrapInt_of_lt (by omega) (by omega)

theorem RunsAlone.run_failingForks {s : State 1} (h : RunsAlone 1 s) {k : ℕ} (hk : k < 2 ^ 31 - 2) :
    ∃ t, runEvents quietStep s (List.replicate k failingFork).flatten = some t ∧
      RunsAlone (k + 1) t := by
  induction k with
  | zero => exact ⟨s, rfl, by simpa using h⟩
  | succ k ih =>
    obtain ⟨t, ht, hk⟩ := ih (by omega)
    obtain ⟨u, hu, hk⟩ := hk.run_failingFork (by omega) (by omega)
    refine ⟨u, ?_, by simpa using hk⟩
    rw [List.replicate_succ', List.flatten_append, runEvents_append, ht]
    simpa using hu

theorem age_state (qs : Queues) (p : Proc) : (age qs p).2.state = p.state := by
  unfold age
  dsimp only
  split_ifs <;> rfl

theorem charge_state (qs : Queues) (p : Proc) : (charge qs p).2.state = p.state := by
  unfold charge
  dsimp only
  split_ifs <;> rfl

/-- The process that the last call of `fork` has made gets the number `v`, and the pass that has
dispatched the first process goes on to the next slot. -/
theorem RunsAlone.run_forkAndWait {v : ℤ} {s : State 1} (h : RunsAlone v s) :
    ∃ t, runEvents quietStep s forkAndWait = some t ∧ t.pc 0 = .dispatch (some 0) 1 ∧
      t.proc 1 = ((s.proc 1).allocInit s.nextpid 3 4 0 v).setState .runnable ∧
      ∀ p, p ≠ 1 → (t.proc p).state ≠ .runnable := by
  set a := allocproc 1 3 4 0 s with ha
  set b := a.setProc 1 ((a.proc 1).setState .runnable) with hb
  have hpca : a.pc 0 = .running 0 := h.pc
  have hpcb : b.pc 0 = .running 0 := h.pc
  have hfork : quietStep a (.forkDone 1) = some b := by
    rw [quietStep_of_current (by rw [hpca]; rfl)]
    exact onSlot_of_running hpca (by simp [ha, allocproc, State.setProc, Proc.allocInit]) _
  set c := b.setBoth 0 (charge b.qs ((b.proc 0).setState .sleeping)) with hc
  have hwait : quietStep b (.leave 0 .sleep) = some (c.setPc 0 (.dispatch (some 0) 1)) := by
    rw [quietStep_of_current (by rw [hpcb]; rfl)]
    simp [step, leave, hpcb, withLock_of_holds (s := b) (by rw [hpcb]; rfl), Leave.state, hc]
  refine ⟨c.setPc 0 (.dispatch (some 0) 1), ?_, setPc_pc _ _, ?_, fun p hp => ?_⟩
  · rw [forkAndWait, runEvents_cons, h.alloc, Option.bind_some, runEvents_cons, ← ha, hfork,
      Option.bind_some, runEvents_cons, hwait]
    rfl
  · have h₁₀ : (1 : Slot) ≠ 0 := by decide
    simp [State.setPc, hc, State.setBoth, hb, ha, State.setProc, allocproc, h.npnq, h₁₀]
  · by_cases hp₀ : p = 0
    · subst hp₀
      simp [State.setPc, hc, State.setBoth, charge_state]
    · have := h.unused p hp₀
      simp [State.setPc, hc, State.setBoth, hp₀, hb, ha, State.setProc, allocproc, hp, this]

/-- The first call of `age` for a process leaves it where it is. -/
theorem age_of_wwpqtct_eq_zero (qs : Queues) {p : Proc} (h : p.wwpqtct = 0) :
    age qs p = (qs, { p with wwpqtct := 1 }) := by
  simp [age, h, wrapInt]

/-- The run to the state where the scheduler is stuck. -/
theorem starved_reachable :
    ∃ es s, runEvents quietStep (init 1) es = some s ∧ s.pc 0 = .start ∧
      ((s.proc 1).state = .runnable ∧ (s.proc 1).queue = 1 ∧ (s.proc 1).qnumber = refmin1) ∧
      ∀ p, p ≠ 1 → (s.proc p).state ≠ .runnable := by
  obtain ⟨s₀, hs₀, h⟩ := runsAlone_boot
  obtain ⟨s₁, hs₁, h⟩ := h.run_failingForks (k := 999999) (by decide)
  obtain ⟨s₂, hs₂, hpc, hchild, hothers⟩ := h.run_forkAndWait
  obtain ⟨s₃, hw, hpc₃, hs₃⟩ := dispatch_walk (k := NPROC) (by decide) le_rfl hpc (by
    intro p hp _ h₀
    obtain rfl : p = 0 := by simpa using h₀.symm
    simp at hp)
  obtain ⟨k, hk⟩ := hw.run
  have hend : quietStep s₃ (.sched 0) = some (s₃.setPc 0 .start) := by
    rw [quietStep_sched]
    exact schedStep_of_move (hpc₃ ▸ .endDispatch le_rfl)
  refine ⟨(boot ++ List.replicate 131 (.sched 0)) ++ (List.replicate 999999 failingFork).flatten ++
    forkAndWait ++ List.replicate k (.sched 0) ++ [.sched 0], s₃.setPc 0 .start, ?_,
    setPc_pc _ _, ?_, fun p hp => ?_⟩
  · rw [runEvents_append, runEvents_append, runEvents_append, runEvents_append, hs₀,
      Option.bind_some, hs₁, Option.bind_some, hs₂, Option.bind_some, hk, Option.bind_some,
      runEvents_cons, hend]
    rfl
  · have hchild₃ : (s₃.proc 1).state = .runnable ∧ (s₃.proc 1).queue = 1 ∧
        (s₃.proc 1).qnumber = 999999 + 1 := by
      rcases hs₃ 1 with h₁ | ⟨-, qs, h₁⟩
      · rw [h₁, hchild]
        exact ⟨rfl, rfl, rfl⟩
      · rw [h₁, hchild, age_of_wwpqtct_eq_zero qs rfl]
        exact ⟨rfl, rfl, rfl⟩
    exact hchild₃
  · have hst : (s₃.proc p).state = (s₂.proc p).state := by
      rcases hs₃ p with h₁ | ⟨-, qs, h₁⟩
      · rw [h₁]
      · rw [h₁, age_state]
    exact fun hr => hothers p hp (hst.symm.trans hr)

/-- **A pass that finds nothing.** There is a reachable state in which a pass starts, a process is
runnable, and the pass dispatches none. -/
theorem pass_finds_nothing :
    ∃ es s, runEvents quietStep (init 1) es = some s ∧ s.pc 0 = .start ∧
      (∃ p, (s.proc p).state = .runnable) ∧ ¬ Dispatches s := by
  obtain ⟨es, s, hrun, hpc, ⟨hr, hq, hn⟩, hothers⟩ := starved_reachable
  have hs : Inv s :=
    runEvents_invariant (fun _ _ _ hs hst => hs.step (by decide) (step_of_quietStep hst))
      (init_inv 1) hrun
  refine ⟨es, s, hrun, hpc, ⟨1, hr⟩, ?_⟩
  rw [dispatches_iff hpc (fun p => (hs.proc p).queue_le) ⟨1, hr⟩]
  rintro (h | ⟨p, hp, hpn, -⟩)
  · have := h 1 hr
    omega
  · obtain rfl : p = 1 := by
      by_contra hne
      exact hothers p hne hp
    omega

end Xv6.Mlfq
