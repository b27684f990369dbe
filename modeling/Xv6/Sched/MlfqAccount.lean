import Xv6.Sched.MlfqTrace

/-!
# Accounting

`pqtct` is the number of dispatches of a process in its queue, and `wwpqtct` the number of rounds it
has been waiting for, if both branches of `scheduler()` keep them.

The branch of queue 3 does not touch the counters of the process it has dispatched. That makes no
difference to a process of queue 3 that has not been waiting, and it does to all others.
-/

namespace Xv6.Mlfq

open Function (update update_self update_of_ne update_eq_self)

/-- The counters of a process agree with its tally. In queue 3 the dispatches do not matter. -/
def Tallies (p : Proc) (x : Tally) : Prop :=
  (p.queue < 3 → p.pqtct = x.dispatches) ∧ p.wwpqtct = x.rounds

/-- The counters agree with the tallies. While a process runs, its dispatch has not been counted. -/
structure Accurate (s : State 1) (g : Slot → Tally) : Prop where
  charged : ∀ p, s.pc 0 = .running p →
    ((s.proc p).queue < 3 → (s.proc p).pqtct + 1 = (g p).dispatches) ∧ (g p).rounds = 0
  counted : ∀ p, (s.proc p).state ≠ .unused → s.pc 0 ≠ .running p → Tallies (s.proc p) (g p)

/-- If the branch of queue 3 dispatches a process, it is one of queue 3 that has not been waiting.
Nobody waits for `2 ^ 31` rounds. -/
def Act.Even (proc : Slot → Proc) : Act → Prop
  | .dispatch3 p => (proc p).queue = 3 ∧ (proc p).wwpqtct = 0
  | .age3 q | .age _ q => (proc q).wwpqtct < 2 ^ 31 - 1
  | .move | .dispatch _ => True

instance (proc : Slot → Proc) : (a : Act) → Decidable (a.Even proc)
  | .dispatch3 _ => inferInstanceAs (Decidable (_ ∧ _))
  | .age3 _ | .age _ _ => inferInstanceAs (Decidable (_ < _))
  | .move | .dispatch _ => inferInstanceAs (Decidable True)

/-- A step of the scheduler is even. -/
def State.Even (s : State 1) : Event 1 → Prop
  | .sched _ => s.act.Even s.proc
  | _ => True

instance (s : State 1) : (e : Event 1) → Decidable (s.Even e)
  | .sched _ => inferInstanceAs (Decidable (s.act.Even s.proc))
  | .leave _ _ | .alloc _ _ _ _ | .allocFail _ | .forkFail _ | .forkDone _ | .wakeup _ | .reap _ =>
    inferInstanceAs (Decidable True)

/-! ### Processes -/

section Proc

variable {p : Proc} {x : Tally} {qs : Queues}

/-- A round of waiting without a boost. -/
theorem Tallies.wait (h : Tallies p x) (hlt : p.wwpqtct < 2 ^ 31 - 1) :
    Tallies { p with wwpqtct := wrapInt (p.wwpqtct + 1) } (x.wait false) := by
  refine ⟨h.1, ?_⟩
  change wrapInt (p.wwpqtct + 1) = ((x.rounds + 1 : ℕ) : ℤ)
  rw [h.2] at hlt ⊢
  exact wrapInt_of_lt (by omega) (by omega)

theorem Tallies.age3 (h : Tallies p x) (hlt : p.wwpqtct < 2 ^ 31 - 1) :
    Tallies (age3 qs p).2 (x.wait (Boosts3 p)) := by
  by_cases hb : Boosts3 p
  · rw [age3_of_boosts3 hb, decide_eq_true hb]
    exact ⟨fun _ => rfl, rfl⟩
  · rw [age3_of_not_boosts3 hb, decide_eq_false hb]
    exact h.wait hlt

theorem Tallies.age (h : Tallies p x) (hlt : p.wwpqtct < 2 ^ 31 - 1) :
    Tallies (age qs p).2 (x.wait (Boosts p)) := by
  by_cases hb : Boosts p
  · rw [age_of_boosts hb, decide_eq_true hb]
    exact ⟨fun _ => rfl, rfl⟩
  · rw [age_of_not_boosts hb, decide_eq_false hb]
    exact h.wait hlt

theorem ProcOk.pqtct_lt_sixteen (h : ProcOk p) : p.pqtct < 16 := by
  have hlt := h.pqtct_lt
  rw [tickSlc] at hlt
  split_ifs at hlt <;> omega

theorem ProcOk.wrapInt_pqtct (h : ProcOk p) : wrapInt (p.pqtct + 1) = p.pqtct + 1 := by
  have h₀ := h.pqtct_nonneg
  have hlt := h.pqtct_lt_sixteen
  exact wrapInt_of_lt (by omega) (by omega)

/-- A dispatch is counted when it is over. -/
theorem tallies_charge (hok : ProcOk p) (hd : p.queue < 3 → p.pqtct + 1 = x.dispatches)
    (hr : x.rounds = 0) : Tallies (charge qs p).2 (x.leave (Demotes p)) := by
  by_cases hdem : Demotes p
  · obtain ⟨-, ht, hw⟩ := charge_of_demotes qs hdem
    rw [Tallies, ht, hw, decide_eq_true hdem]
    exact ⟨fun _ => rfl, congrArg Nat.cast hr.symm⟩
  · obtain ⟨hq, ht, hw⟩ := charge_of_not_demotes qs hdem
    rw [Tallies, hq, ht, hw, hok.wrapInt_pqtct, decide_eq_false hdem]
    exact ⟨hd, congrArg Nat.cast hr.symm⟩

end Proc

/-! ### Steps -/

section Step

variable {s t : State 1} {g g' : Slot → Tally} {i : Slot}

theorem Accurate.setPc (h : Accurate s g) {pc : Pc} (hfrom : ∀ p, s.pc 0 ≠ .running p)
    (hto : pc.current = none) : Accurate (s.setPc 0 pc) g := by
  refine ⟨fun p hp => ?_, fun p hp _ => h.counted p hp (hfrom p)⟩
  rw [setPc_pc] at hp
  rw [hp] at hto
  cases hto

/-- The scheduler does something to a process that has not been dispatched by the lower branch. -/
theorem Accurate.setBoth (h : Accurate s g) {r : Queues × Proc} {pc : Pc} {x : Tally}
    (hfrom : ∀ p, s.pc 0 = .running p → p = i) (hto : ∀ p, pc ≠ .running p)
    (hx : r.2.state ≠ .unused → Tallies r.2 x) :
    Accurate ((s.setBoth i r).setPc 0 pc) (update g i x) := by
  have hself : ((s.setBoth i r).setPc 0 pc).proc i = r.2 := update_self _ _ _
  have hother {p : Slot} (hp : p ≠ i) : ((s.setBoth i r).setPc 0 pc).proc p = s.proc p :=
    update_of_ne hp _ _
  refine ⟨fun p hp => ?_, fun p hp _ => ?_⟩
  · rw [setPc_pc] at hp
    exact absurd hp (hto p)
  · by_cases hpi : p = i
    · subst hpi
      rw [hself] at hp ⊢
      rw [update_self]
      exact hx hp
    · rw [hother hpi] at hp ⊢
      rw [update_of_ne hpi]
      exact h.counted p hp fun hpc => hpi (hfrom p hpc)

/-- Other code does something to a process that does not run. -/
theorem Accurate.other (h : Accurate s g) (hseat : Seated s) {y : Proc} {x : Tally}
    (hproc : t.proc = update s.proc i y) (hpc : t.pc = s.pc)
    (hi : (s.proc i).state ≠ .running) (hx : y.state ≠ .unused → Tallies y x) :
    Accurate t (update g i x) := by
  have hne {p : Slot} (hp : (s.pc 0).current = some p) : p ≠ i := by
    rintro rfl
    exact hi (hseat p hp)
  refine ⟨fun p hp => ?_, fun p hp hr => ?_⟩ <;> rw [hpc] at *
  · have hpi := hne (p := p) (by rw [hp]; rfl)
    rw [hproc, update_of_ne hpi, update_of_ne hpi]
    exact h.charged p hp
  · by_cases hpi : p = i
    · subst hpi
      rw [hproc, update_self] at hp ⊢
      rw [update_self]
      exact hx hp
    · rw [hproc, update_of_ne hpi] at hp ⊢
      rw [update_of_ne hpi]
      exact h.counted p hp hr

/-- The same, where no tally changes. -/
theorem Accurate.setProc (h : Accurate s g) (hseat : Seated s) {y : Proc}
    (hproc : t.proc = update s.proc i y) (hpc : t.pc = s.pc)
    (hi : (s.proc i).state ≠ .running) (hx : y.state ≠ .unused → Tallies y (g i)) :
    Accurate t g := by
  have hother := h.other hseat hproc hpc hi hx
  rwa [update_eq_self] at hother

theorem Accurate.dispatch (h : Accurate s g) {p : Slot} (hfrom : ∀ q, s.pc 0 ≠ .running q)
    (hp : (s.proc p).state = .runnable) :
    Accurate ((s.setProc p ((s.proc p).setState .running)).setPc 0 (.running p))
      (update g p (g p).dispatch) := by
  have hself : ((s.setProc p ((s.proc p).setState .running)).setPc 0 (.running p)).proc p =
      (s.proc p).setState .running := update_self _ _ _
  have hold := h.counted p (by rw [hp]; nofun) (hfrom p)
  refine ⟨fun q hq => ?_, fun q hq hne => ?_⟩
  · rw [setPc_pc] at hq
    cases hq
    rw [hself, update_self]
    exact ⟨fun hlt => congrArg (· + 1) (hold.1 hlt), rfl⟩
  · have hqp : q ≠ p := by
      rintro rfl
      exact hne (setPc_pc _ _)
    have hother : ((s.setProc p ((s.proc p).setState .running)).setPc 0 (.running p)).proc q =
        s.proc q := update_of_ne hqp _ _
    rw [hother] at hq ⊢
    rw [update_of_ne hqp]
    exact h.counted q hq (hfrom q)

theorem step_accurate {e : Event 1} (hs : Inv s) (hseat : Seated s) (h : Accurate s g)
    (he : s.Even e) (ht : step s e = some t) : Accurate t (tally s e g) := by
  -- there is only one CPU
  have hcpu (c : Fin 1) : c = 0 := Subsingleton.elim c 0
  cases step_inv ht with
  | @move c pc hm =>
    obtain rfl := hcpu c
    rw [tally_move (act_of_move hm)]
    refine h.setPc (fun p hp => ?_) ?_
    · rw [hp] at hm
      cases hm
    · exact hm.current_eq_none.2
  | @dispatch3 c p hpc hr =>
    obtain rfl := hcpu c
    have hact := act_of_dispatch3 hpc hr
    rw [State.Even, hact] at he
    rw [tally_dispatch3 hact]
    refine h.setBoth (r := (s.qs, _)) (fun q hq => ?_) (fun q => nofun) fun _ => ?_
    · rw [hpc] at hq
      cases hq
    · exact ⟨fun hlt => absurd he.1 hlt.ne, he.2⟩
  | @age3 c p q hpc =>
    obtain rfl := hcpu c
    have hact := act_of_age3 hpc
    have hnot (p : Slot) : s.pc 0 ≠ .running p := by rw [hpc]; nofun
    rw [State.Even, hact] at he
    rw [tally_age3 hact]
    refine h.setBoth (fun p hp => absurd hp (hnot p)) (fun p => nofun) fun hlive => ?_
    rw [age3_state] at hlive
    exact (h.counted q hlive (hnot q)).age3 he
  | @age c prngd q hpc hr hq =>
    obtain rfl := hcpu c
    have hact := act_of_age hpc hr hq
    have hnot (p : Slot) : s.pc 0 ≠ .running p := by rw [hpc]; nofun
    rw [State.Even, hact] at he
    rw [tally_age hact]
    refine h.setBoth (fun p hp => absurd hp (hnot p)) (fun p => nofun) fun _ => ?_
    exact (h.counted q (by rw [hr]; nofun) (hnot q)).age he
  | @dispatch c p hpc hr =>
    obtain rfl := hcpu c
    rw [tally_dispatch (act_of_dispatch hpc hr)]
    refine h.dispatch (fun q hq => ?_) hr
    rw [hpc] at hq
    cases hq
  | @leave3 c how p hpc =>
    obtain rfl := hcpu c
    have hnot (p : Slot) : s.pc 0 ≠ .running p := by rw [hpc]; nofun
    have hp := hseat p (by rw [hpc]; rfl)
    rw [tally_leave3 hpc, ← update_eq_self p g]
    refine h.setBoth (r := (s.qs, _)) (fun q hq => absurd hq (hnot q)) (fun q => nofun) fun _ => ?_
    exact h.counted p (by rw [hp]; nofun) (hnot p)
  | @leave c how p hpc =>
    obtain rfl := hcpu c
    rw [tally_leave hpc]
    refine h.setBoth (fun q hq => ?_) (fun q => nofun) fun _ => ?_
    · rw [hpc] at hq
      cases hq
      rfl
    · obtain ⟨hd, hr⟩ := h.charged p hpc
      exact tallies_charge ((hs.proc p).congr rfl rfl rfl) hd hr
  | @alloc i tf pt now hi =>
    exact h.other hseat rfl rfl (by rw [hi]; nofun) fun _ => ⟨fun _ => rfl, rfl⟩
  | allocFail hi | forkFail hi | reap hi =>
    exact h.setProc hseat rfl rfl (by rw [hi]; nofun) fun hne => absurd rfl hne
  | @forkDone i hi | @wakeup i hi =>
    have hnot : (s.proc i).state ≠ .running := by rw [hi]; nofun
    refine h.setProc hseat rfl rfl hnot fun _ => h.counted i (by rw [hi]; nofun) fun hpc => hnot ?_
    exact hseat i (by rw [hpc]; rfl)

theorem accurate_init : Accurate (init 1) traced.2 :=
  ⟨nofun, fun _ hlive => absurd rfl hlive⟩

/-- A process changes its queue when it is boosted, or when it has run and is demoted. -/
inductive Moves (s : State 1) (p : Slot) (q : ℤ) : Prop
  | stay (hq : q = (s.proc p).queue)
  | boost (hpc : s.pc 0 ≠ .running p) (hb : Boosts3 (s.proc p)) (hq : q = 0)
  | demote (hpc : s.pc 0 = .running p) (hd : Demotes (s.proc p)) (hq : q = (s.proc p).queue + 1)

theorem moves_step {e : Event 1} {p : Slot} (hp : (s.proc p).state ≠ .unused)
    (ht : step s e = some t) : Moves s p (t.proc p).queue := by
  have hcpu (c : Fin 1) : c = 0 := Subsingleton.elim c 0
  -- only one process changes
  have hset {i : Slot} {y : Proc} (hi : p = i → Moves s p y.queue) :
      Moves s p (update s.proc i y p).queue := by
    by_cases hpi : p = i
    · rw [hpi, update_self, ← hpi]
      exact hi hpi
    · rw [update_of_ne hpi]
      exact .stay rfl
  cases step_inv ht with
  | move => exact .stay rfl
  | @age3 c _ q hpc =>
    obtain rfl := hcpu c
    refine hset ?_
    rintro rfl
    by_cases hb : Boosts3 (s.proc p)
    · exact .boost (by rw [hpc]; nofun) hb (by rw [age3_of_boosts3 hb]; rfl)
    · exact .stay (by rw [age3_of_not_boosts3 hb])
  | @age c _ q hpc =>
    obtain rfl := hcpu c
    refine hset ?_
    rintro rfl
    by_cases hb : Boosts (s.proc p)
    · exact .boost (by rw [hpc]; nofun) hb.2 (by rw [age_of_boosts hb]; rfl)
    · exact .stay (by rw [age_of_not_boosts hb])
  | @leave c how q hpc =>
    obtain rfl := hcpu c
    refine hset ?_
    rintro rfl
    by_cases hd : Demotes (s.proc p)
    · exact .demote hpc hd (charge_of_demotes (p := (s.proc p).setState how.state) _ hd).1
    · exact .stay (charge_of_not_demotes (p := (s.proc p).setState how.state) _ hd).1
  | alloc hi =>
    refine hset ?_
    rintro rfl
    exact absurd hi hp
  | dispatch3 | dispatch | leave3 | allocFail | forkFail | forkDone | wakeup | reap =>
    refine hset ?_
    rintro rfl
    exact .stay rfl

end Step

/-- A process has used its slice when it has been dispatched often enough. -/
theorem demotes_iff {p : Proc} {x : Tally} (hok : ProcOk p) (hx : p.pqtct + 1 = x.dispatches) :
    Demotes p ↔ (x.dispatches : ℤ) = tickSlc p.queue := by
  have hlt := hok.pqtct_lt
  have hle := hok.queue_le
  rw [Demotes, hok.wrapInt_pqtct, hx]
  constructor
  · rintro ⟨hd, -⟩
    omega
  · intro hd
    exact ⟨by omega, by omega⟩

/-- A process that rises or falls has been dispatched, or has been waiting, as often as it takes. -/
theorem Accurate.moves {s t : State 1} {g : Slot → Tally} {e : Event 1} {p : Slot} (hs : Inv s)
    (h : Accurate s g) (hp : (s.proc p).state ≠ .unused) (ht : step s e = some t) :
    ((s.proc p).queue < (t.proc p).queue → (g p).dispatches = tickSlc (s.proc p).queue) ∧
      ((t.proc p).queue < (s.proc p).queue → (t.proc p).queue = 0 ∧ (g p).rounds + 1 = 48) := by
  have hok := hs.proc p
  have h₀ := hok.queue_nonneg
  have h₃ := ((hs.step (by decide) ht).proc p).queue_le
  cases moves_step hp ht with
  | stay hq => exact ⟨fun hlt => by omega, fun hlt => by omega⟩
  | boost hpc hb hq =>
    refine ⟨fun hlt => by omega, fun hlt => ⟨hq, ?_⟩⟩
    obtain ⟨hw₀, hw⟩ := hok.wwpqtct.resolve_left (by omega)
    have hrounds := (h.counted p hp hpc).2
    rw [Boosts3, wrapInt_of_lt (by omega) (by omega)] at hb
    omega
  | demote hpc hd hq =>
    refine ⟨fun _ => ?_, fun hlt => by omega⟩
    exact (demotes_iff hok ((h.charged p hpc).1 (by omega))).mp hd

theorem Accurate.demoted {s t : State 1} {g : Slot → Tally} {how : Leave} {p : Slot} (hs : Inv s)
    (h : Accurate s g) (hpc : s.pc 0 = .running p) (hq : (s.proc p).queue < 3)
    (hd : (g p).dispatches = tickSlc (s.proc p).queue) (ht : step s (.leave 0 how) = some t) :
    (t.proc p).queue = (s.proc p).queue + 1 := by
  have hdem := (demotes_iff (hs.proc p) ((h.charged p hpc).1 hq)).mpr hd
  cases step_inv ht with
  | leave3 hpc' =>
    rw [hpc] at hpc'
    cases hpc'
  | leave hpc' =>
    rw [hpc] at hpc'
    cases hpc'
    have hself : ((s.setBoth p (charge s.qs ((s.proc p).setState how.state))).setPc 0
        (.dispatch (some p) (p + 1))).proc p = (charge s.qs ((s.proc p).setState how.state)).2 :=
      update_self _ _ _
    rw [hself]
    exact (charge_of_demotes (p := (s.proc p).setState how.state) _ hdem).1

/-- **The counters of a process.** In every run in which the branch of queue 3 is even, `pqtct` is
the number of dispatches of a process in its queue, and `wwpqtct` is the number of rounds it has
been waiting for. A process of the lower queues is demoted after exactly as many dispatches as its
queue allows, and a process is boosted after 48 rounds. -/
theorem mlfq_accounting {es : List (Event 1)} {s : State 1} {g : Slot → Tally}
    (hrun : runEvents (restrict (fun x e => x.1.Even e) (tracedStep step)) traced es = some (s, g))
    (p : Slot) (hp : (s.proc p).state ≠ .unused) :
    (s.pc 0 ≠ .running p →
      ((s.proc p).queue < 3 → (s.proc p).pqtct = (g p).dispatches) ∧
        (s.proc p).wwpqtct = (g p).rounds) ∧
      (s.pc 0 = .running p → (s.proc p).queue < 3 → (s.proc p).pqtct + 1 = (g p).dispatches) ∧
      (∀ e t, step s e = some t →
        ((s.proc p).queue < (t.proc p).queue → (g p).dispatches = tickSlc (s.proc p).queue) ∧
        ((t.proc p).queue < (s.proc p).queue → (t.proc p).queue = 0 ∧ (g p).rounds + 1 = 48)) ∧
      ∀ how t, step s (.leave 0 how) = some t → s.pc 0 = .running p → (s.proc p).queue < 3 →
        (g p).dispatches = tickSlc (s.proc p).queue →
        (t.proc p).queue = (s.proc p).queue + 1 := by
  have h : Inv s ∧ Seated s ∧ Accurate s g :=
    runEvents_invariant (I := fun x => Inv x.1 ∧ Seated x.1 ∧ Accurate x.1 x.2)
        (fun x e y hx hy => by
      obtain ⟨he, hy⟩ := restrict_eq_some.mp hy
      obtain ⟨ht, hg⟩ := tracedStep_eq_some.mp hy
      obtain ⟨hs, hseat, hacc⟩ := hx
      exact ⟨hs.step (by decide) ht, step_seated hseat ht, hg ▸ step_accurate hs hseat hacc he ht⟩)
      ⟨init_inv 1, seated_init, accurate_init⟩ hrun
  obtain ⟨hs, -, hacc⟩ := h
  exact ⟨hacc.counted p hp, fun hpc => (hacc.charged p hpc).1,
    fun e t ht => hacc.moves hs hp ht,
    fun how t ht hpc hq hd => hacc.demoted hs hpc hq hd ht⟩

/-- The first process is dispatched once. -/
def firstDispatch : List (Event 1) := boot ++ List.replicate 131 (.sched 0) ++ [.leave 0 .yield]

theorem mlfq_accounting_firstDispatch :
    ∃ s g, runEvents (restrict (fun x e => x.1.Even e) (tracedStep step)) traced firstDispatch =
    some (s, g) ∧
      (g 0).dispatches = 1 ∧ (s.proc 0).pqtct = (g 0).dispatches ∧
      (s.proc 0).wwpqtct = (g 0).rounds := by
  obtain ⟨⟨s, g⟩, hs, hr, hq, hpc, hd⟩ : ∃ x, runEvents (restrict (fun x e => x.1.Even e)
      (tracedStep step)) traced firstDispatch = some x ∧ (x.1.proc 0).state = .runnable ∧
      (x.1.proc 0).queue = 1 ∧ x.1.pc 0 = .dispatch (some 0) 1 ∧ (x.2 0).dispatches = 1 := by
    decide +kernel
  obtain ⟨hcount, -⟩ := mlfq_accounting hs 0 (by rw [hr]; nofun)
  obtain ⟨hpq, hww⟩ := hcount (by rw [hpc]; nofun)
  exact ⟨s, g, hs, hd, hpq (by rw [hq]; decide), hww⟩

/-- **The branch of queue 3 miscounts.** It dispatches a process of queue 2 that has been waiting
for one round. Afterwards the dispatch is missing, and the round is still there. -/
theorem mlfq_miscounts :
    ∃ es s g, runEvents (tracedStep step) traced es = some (s, g) ∧ s.pc 0 ≠ .running 1 ∧
      (s.proc 1).state = .runnable ∧ (s.proc 1).queue = 2 ∧
      ((s.proc 1).pqtct = 0 ∧ (g 1).dispatches = 1) ∧
      ((s.proc 1).wwpqtct = 1 ∧ (g 1).rounds = 0) := by
  obtain ⟨s, g, hreach, hpc, ⟨hr, hq, ht, hw⟩, -, -, hd⟩ := intoSweep_reaches
  have hdispatch := reaches_sched (g := g) (schedStep_of_dispatch3 hpc hr)
  rw [tally_dispatch3 (act_of_dispatch3 hpc hr)] at hdispatch
  have hleave := leave3_reaches (g := update g 1 (g 1).dispatch)
    (setPc_pc (s.setProc 1 ((s.proc 1).setState .running)) (.running3 1)) .yield
  obtain ⟨es, hes⟩ := (hreach.trans (hdispatch.trans hleave)).run
  refine ⟨es, _, _, hes, by rw [setPc_pc]; nofun, ?_⟩
  simp [State.setPc, State.setProc, Proc.setState, Leave.state, Tally.dispatch, hq, ht, hw, hd]

end Xv6.Mlfq
