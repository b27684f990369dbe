import Xv6.Lib.Holders
import Xv6.Sched.MlfqTrace

/-!
# Queue counts

`npnq[k]` should be the number of processes in queue `k`. Demotion and boost keep it so. `allocproc`
does not: it puts the process into queue 1 and counts it in queue 0. `freeproc` takes it out of its
queue without counting it out. What `allocproc` has added to `npnq[0]` stays there, so the counts
are right until the first process is created, and never again.

`npnq` and `roqd` have no lock of their own, so this is about one CPU.
-/

namespace Xv6.Mlfq

open Function (update update_self update_of_ne update_apply)

variable {s t : State 1} {e : Event 1}

/-! ### Places in the queues -/

/-- The process that an event puts to the end of a queue. -/
def enters (s : State 1) : Event 1 → Option Slot
  | .sched c =>
    match s.pc c with
    | .acquire3 _ q => if Boosts3 (s.proc q) then some q else none
    | .dispatch prngd i =>
      if h : i < NPROC then
        if ((s.proc ⟨i, h⟩).state = .runnable ∧ prngd ≠ some ⟨i, h⟩) ∧ Boosts (s.proc ⟨i, h⟩) then
          some ⟨i, h⟩
        else none
      else none
    | _ => none
  | .leave c _ =>
    match s.pc c with
    | .running p => if Demotes (s.proc p) then some p else none
    | _ => none
  | .alloc i _ _ _ => some i
  | _ => none

/-- Whether an event is an `allocproc` that succeeds. -/
def Event.creates : Event 1 → Bool
  | .alloc _ _ _ _ => true
  | _ => false

/-- A process goes to queue `k`: by a boost, whatever its state is, or by a demotion when it gives
up the CPU. -/
inductive Goes (s : State 1) (i : Slot) (p : Proc) : Event 1 → ℤ → Prop
  | boost {c : Fin 1} (hst : p.state = (s.proc i).state) : Goes s i p (.sched c) 0
  | demotion {c : Fin 1} {how : Leave} (hpc : s.pc c = .running i)
    (hused : (s.proc i).state ≠ .unused) (hst : p.state ≠ .unused) :
    Goes s i p (.leave c how) ((s.proc i).queue + 1)

/-- What a step does to the places in the queues, by who is put to the end of one. -/
inductive Shift (s : State 1) (e : Event 1) (t : State 1) : Option Slot → Prop
  | keep (he : e.creates = false) (hn : t.qs.npnq = s.qs.npnq) (hr : t.qs.roqd = s.qs.roqd)
    (hproc : ∀ i, (t.proc i).state ≠ .unused → (s.proc i).state ≠ .unused ∧
      (t.proc i).queue = (s.proc i).queue ∧ (t.proc i).qnumber = (s.proc i).qnumber) :
    Shift s e t none
  | enter {i : Slot} {k : ℤ} {p : Proc} (hproc : t.proc = update s.proc i p) (hk : Goes s i p e k)
    (hn : t.qs.npnq = ((s.qs.addNpnq (s.proc i).queue (-1)).addNpnq k 1).npnq)
    (hr : t.qs.roqd = update s.qs.roqd k (wrapInt (s.qs.roqd k + 1))) (hq : p.queue = k)
    (hnum : p.qnumber = s.qs.roqd k) : Shift s e t (some i)
  | create {i : Slot} {tf pt : ℕ} {now : BitVec 32} (he : e = .alloc i tf pt now)
    (hi : (s.proc i).state = .unused) (ht : t = allocproc i tf pt now s) : Shift s e t (some i)

/-- A change of one slot that leaves it in its place. -/
theorem Shift.of_update {i : Slot} {p : Proc} (he : e.creates = false)
    (hproc : t.proc = update s.proc i p) (hn : t.qs.npnq = s.qs.npnq) (hr : t.qs.roqd = s.qs.roqd)
    (hlive : p.state ≠ .unused → (s.proc i).state ≠ .unused) (hq : p.queue = (s.proc i).queue)
    (hnum : p.qnumber = (s.proc i).qnumber) : Shift s e t none := by
  refine .keep he hn hr fun j hj => ?_
  rw [hproc] at hj ⊢
  by_cases hji : j = i
  · subst hji
    rw [update_self] at hj ⊢
    exact ⟨hlive hj, hq, hnum⟩
  · rw [update_of_ne hji] at hj ⊢
    exact ⟨hj, rfl, rfl⟩

theorem enters_of_move {c : Fin 1} {pc : Pc} (h : Move s.proc (s.pc c) pc) :
    enters s (.sched c) = none := by
  generalize hpc : s.pc c = pc₀ at h
  rw [enters, hpc]
  cases h with
  | dispatch hi hr => exact (dif_pos hi).trans (if_neg fun h => hr h.1.1)
  | endDispatch hi => exact dif_neg (not_lt.mpr hi)
  | _ => rfl

/-- A demotion takes the next number of the queue below. -/
theorem charge_enters (qs : Queues) {p : Proc} (h : Demotes p) :
    (charge qs p).1.npnq = ((qs.addNpnq p.queue (-1)).addNpnq (p.queue + 1) 1).npnq ∧
      (charge qs p).1.roqd = update qs.roqd (p.queue + 1) (wrapInt (qs.roqd (p.queue + 1) + 1)) ∧
      (charge qs p).2.qnumber = qs.roqd (p.queue + 1) := by
  rw [charge]
  dsimp only
  split_ifs with hc
  · exact ⟨rfl, rfl, rfl⟩
  · exact absurd h hc

theorem charge_stays (qs : Queues) {p : Proc} (h : ¬ Demotes p) :
    (charge qs p).1.npnq = qs.npnq ∧ (charge qs p).1.roqd = qs.roqd ∧
      (charge qs p).2.qnumber = p.qnumber := by
  rw [charge]
  dsimp only
  split_ifs with hc
  · exact absurd hc h
  · exact ⟨rfl, rfl, rfl⟩

theorem Leave.state_ne_unused (how : Leave) : how.state ≠ .unused := by cases how <;> decide

/-- **What a step does to the places in the queues.** -/
theorem shift_step (h : Seated s) (hst : step s e = some t) : Shift s e t (enters s e) := by
  have hcpu (c : Fin 1) : c = 0 := Subsingleton.elim c 0
  cases step_inv hst with
  | @move c pc hm =>
    rw [enters_of_move hm]
    exact .keep rfl rfl rfl fun i hi => ⟨hi, rfl, rfl⟩
  | @dispatch3 c p hpc hr =>
    have he : enters s (.sched c) = none := by rw [enters, hpc]
    rw [he]
    exact .of_update (i := p) rfl rfl rfl rfl (fun _ => by simp [hr]) rfl rfl
  | @age3 c p q hpc =>
    by_cases hb : Boosts3 (s.proc q)
    · have he : enters s (.sched c) = some q := by rw [enters, hpc]; exact if_pos hb
      rw [he, age3_of_boosts3 hb]
      exact .enter rfl (.boost rfl) rfl rfl rfl rfl
    · have he : enters s (.sched c) = none := by rw [enters, hpc]; exact if_neg hb
      rw [he, age3_of_not_boosts3 hb]
      exact .of_update (i := q) rfl rfl rfl rfl id rfl rfl
  | @age c prngd q hpc hr hq =>
    by_cases hb : Boosts (s.proc q)
    · have he : enters s (.sched c) = some q := by
        rw [enters, hpc]
        exact (dif_pos q.isLt).trans (if_pos ⟨⟨hr, hq⟩, hb⟩)
      rw [he, age_of_boosts hb]
      exact .enter rfl (.boost rfl) rfl rfl rfl rfl
    · have he : enters s (.sched c) = none := by
        rw [enters, hpc]
        exact (dif_pos q.isLt).trans (if_neg fun h => hb h.2)
      rw [he, age_of_not_boosts hb]
      exact .of_update (i := q) rfl rfl rfl rfl id rfl rfl
  | @dispatch c p hpc hr =>
    have he : enters s (.sched c) = none := by
      rw [enters, hpc]
      exact (dif_pos p.isLt).trans (if_neg fun h => h.1.2 rfl)
    rw [he]
    exact .of_update (i := p) rfl rfl rfl rfl (fun _ => by simp [hr]) rfl rfl
  | @leave3 c how p hpc =>
    have he : enters s (.leave c how) = none := by rw [enters, hpc]
    obtain rfl := hcpu c
    have hrun : (s.proc p).state = .running := h p (by rw [hpc]; rfl)
    rw [he]
    exact .of_update (i := p) rfl rfl rfl rfl (fun _ => by simp [hrun]) rfl rfl
  | @leave c how p hpc =>
    obtain rfl := hcpu c
    have hused : (s.proc p).state ≠ .unused := by rw [h p (by rw [hpc]; rfl)]; decide
    by_cases hd : Demotes (s.proc p)
    · have he : enters s (.leave 0 how) = some p := by rw [enters, hpc]; exact if_pos hd
      have hd' : Demotes ((s.proc p).setState how.state) := hd
      obtain ⟨hn, hr, hnum⟩ := charge_enters s.qs hd'
      rw [he]
      refine .enter rfl (.demotion hpc hused ?_) hn hr (charge_of_demotes s.qs hd').1 hnum
      rw [charge_state]
      exact how.state_ne_unused
    · have he : enters s (.leave 0 how) = none := by rw [enters, hpc]; exact if_neg hd
      have hd' : ¬ Demotes ((s.proc p).setState how.state) := hd
      obtain ⟨hn, hr, hnum⟩ := charge_stays s.qs hd'
      rw [he]
      exact .of_update (i := p) rfl rfl hn hr (fun _ => hused) (charge_of_not_demotes s.qs hd').1
        hnum
  | @alloc i tf pt now hi => exact .create rfl hi rfl
  | @allocFail i hi | @forkFail i hi | @reap i hi =>
    exact .of_update (i := i) rfl rfl rfl rfl (fun h => absurd rfl h) rfl rfl
  | @forkDone i hi | @wakeup i hi =>
    exact .of_update (i := i) rfl rfl rfl rfl (fun _ => by simp [hi]) rfl rfl

/-- What moving a process does to `npnq[0]`. -/
theorem npnq_move {qs : Queues} {q k : ℤ} (h₀ : 0 ≤ qs.npnq 0) (hroom : qs.npnq 0 < 2 ^ 31 - 1) :
    ((qs.addNpnq q (-1)).addNpnq k 1).npnq 0 + (if q = 0 then 1 else 0) =
      qs.npnq 0 + if k = 0 then 1 else 0 := by
  have hwrap : wrapInt (qs.npnq 0 + -1) = qs.npnq 0 + -1 := wrapInt_of_lt (by omega) (by omega)
  have hwrap' : wrapInt (qs.npnq 0 + 1) = qs.npnq 0 + 1 := wrapInt_of_lt (by omega) (by omega)
  have hback : wrapInt (qs.npnq 0 + -1 + 1) = qs.npnq 0 := by
    rw [neg_add_cancel_right]
    exact wrapInt_of_lt (by omega) (by omega)
  simp only [Queues.addNpnq, Queues.index, update_apply, eq_comm (a := (0 : ℤ))]
  split_ifs <;> subst_vars <;> simp_all

/-! ### The census -/

/-- The queue that a process in use is in. -/
def level (p : Proc) : Option ℤ := if p.state = .unused then none else some p.queue

/-- The number of processes in use in queue `k`. -/
def State.census (s : State 1) (k : ℤ) : ℕ := holders (fun i => level (s.proc i)) k

theorem level_of_used {p : Proc} (h : p.state ≠ .unused) : level p = some p.queue := if_neg h

theorem census_update {i : Slot} {p : Proc} (hproc : t.proc = update s.proc i p) (k : ℤ) :
    t.census k + (if level (s.proc i) = some k then 1 else 0) =
      s.census k + if level p = some k then 1 else 0 := by
  have hlevel : (fun j => level (t.proc j)) = update (fun j => level (s.proc j)) i (level p) := by
    funext j
    rw [hproc, update_apply, update_apply]
    exact apply_ite level _ _ _
  rw [State.census, hlevel]
  exact holders_update _ i _ k

/-- `npnq[0]` is larger than the number of processes in queue 0, by `a` at least. -/
structure Surplus (a : ℕ) (s : State 1) : Prop where
  inv : Inv s
  seated : Seated s
  le : s.census 0 + a ≤ s.qs.npnq 0

/-- No step takes away from the surplus, and `allocproc` adds to it. -/
theorem Surplus.step {a : ℕ} (h : Surplus a s) (hroom : s.qs.npnq 0 < 2 ^ 31 - 1)
    (hst : step s e = some t) : Surplus (a + if e.creates then 1 else 0) t := by
  have hle := h.le
  refine ⟨h.inv.step (by decide) hst, step_seated h.seated hst, ?_⟩
  have hshift := shift_step h.seated hst
  generalize enters s e = o at hshift
  cases hshift with
  | keep he hn _ hproc =>
    have hsub : t.census 0 ≤ s.census 0 := by
      refine holders_mono fun i hi => ?_
      rw [level] at hi
      split_ifs at hi with hun
      obtain ⟨hused, hq, -⟩ := hproc i hun
      rw [level_of_used hused, ← hq, hi]
    rw [he, hn]
    simp only [Bool.false_eq_true, if_false]
    omega
  | @enter i k p hproc hk hn _ hq _ =>
    have hcount := census_update hproc 0
    have hmove := npnq_move (q := (s.proc i).queue) (k := k) (by omega) hroom
    rw [← hn] at hmove
    have h₀ := (h.inv.proc i).queue_nonneg
    cases hk with
    | boost hstate =>
      simp only [level, hq, hstate, Event.creates] at hcount hmove ⊢
      split_ifs at hcount hmove ⊢ <;> simp_all <;> omega
    | demotion _ hused hused' =>
      rw [level_of_used hused, level_of_used hused', hq] at hcount
      simp only [Option.some.injEq, Event.creates, Bool.false_eq_true, if_false] at hcount ⊢
      split_ifs at hcount hmove <;> omega
  | @create i tf pt now he hi ht =>
    have hnpnq : t.qs.npnq 0 = s.qs.npnq 0 + 1 := by
      rw [ht]
      change update s.qs.npnq 0 (wrapInt (s.qs.npnq 0 + 1)) 0 = _
      rw [update_self, wrapInt_of_lt (by omega) (by omega)]
    have hcount := census_update (t := t) (s := s) (i := i) (by rw [ht]; rfl) 0
    have hlevel : level ((s.proc i).allocInit s.nextpid tf pt now (s.qs.npnq 0)) = some 1 := rfl
    rw [level, if_pos hi, hlevel] at hcount
    rw [he, hnpnq]
    simp [Event.creates] at hcount ⊢
    omega

/-- `npnq[0]` can be incremented. -/
def Room0 (s : State 1) (_ : Event 1) : Prop := s.qs.npnq 0 < 2 ^ 31 - 1

instance (s : State 1) (e : Event 1) : Decidable (Room0 s e) := inferInstanceAs (Decidable (_ < _))

theorem Surplus.run {a : ℕ} {es : List (Event 1)} (h : Surplus a s)
    (hrun : runEvents (restrict Room0 Mlfq.step) s es = some t) :
    Surplus (a + es.countP Event.creates) t := by
  induction es generalizing s a with
  | nil =>
    cases hrun
    exact h
  | cons e es ih =>
    obtain ⟨u, hu, hrun⟩ := Option.bind_eq_some_iff.mp hrun
    obtain ⟨hroom, hst⟩ := restrict_eq_some.mp hu
    rw [List.countP_cons, Nat.add_comm (es.countP _), ← Nat.add_assoc]
    exact ih (h.step hroom hst) hrun

/-! ### Before the first process -/

/-- The process that a CPU has seen runnable, or has dispatched, and changes next. -/
def Pc.touches : Pc → Option Slot
  | .acquire3 _ q => some q
  | .running3 p => some p
  | .running p => some p
  | _ => none

/-- There is no process, and no CPU is about to change one. -/
structure Idle (s : State 1) : Prop where
  unused : ∀ i, (s.proc i).state = .unused
  npnq : s.qs.npnq = fun _ => 0
  pc : ∀ c, (s.pc c).touches = none

theorem Idle.step (h : Idle s) (he : e.creates = false) (hst : step s e = some t) : Idle t := by
  -- nobody can be dispatched, aged or woken up
  have habsurd {i : Slot} {st : ProcState} (hi : (s.proc i).state = st) (hst : st ≠ .unused) :
      False := hst (hi.symm.trans (h.unused i))
  have htouch {c : Fin 1} {pc : Pc} (hpc : s.pc c = pc) : pc.touches = none := hpc ▸ h.pc c
  cases step_inv hst with
  | @move c pc hm =>
    refine ⟨h.unused, h.npnq, fun d => ?_⟩
    obtain rfl : d = c := Subsingleton.elim d c
    generalize s.pc d = pc₀ at hm
    change (update s.pc d pc d).touches = none
    rw [update_self]
    cases hm with
    | toAcquire3 _ _ hr => exact (habsurd hr (by decide)).elim
    | _ => rfl
  | dispatch3 _ hr | dispatch _ hr | age _ hr => exact (habsurd hr (by decide)).elim
  | age3 hpc | leave3 hpc | leave hpc => cases htouch hpc
  | alloc => cases he
  | @allocFail i =>
    refine ⟨fun j => ?_, h.npnq, h.pc⟩
    change (update s.proc i (s.proc i).free j).state = _
    rw [update_apply]
    split_ifs
    · rfl
    · exact h.unused j
  | forkFail hi | forkDone hi | wakeup hi | reap hi => exact (habsurd hi (by decide)).elim

/-- **The counts are right until the first process is created.** After that `npnq[0]` is too large
for ever, unless it overflows. -/
theorem census_right_iff {es : List (Event 1)}
    (hrun : runEvents (restrict Room0 step) (init 1) es = some s) :
    (∀ k, 0 ≤ k → k ≤ 3 → s.qs.npnq k = s.census k) ↔ ∀ e ∈ es, e.creates = false := by
  constructor
  · intro hright e he
    by_contra hcreates
    have hsurplus : Surplus (0 + es.countP Event.creates) s :=
      Surplus.run ⟨init_inv 1, seated_init, by decide +kernel⟩ hrun
    have hpos := List.countP_pos_iff.mpr ⟨e, he, Bool.eq_true_of_not_eq_false hcreates⟩
    have hle := hsurplus.le
    rw [hright 0 le_rfl (by decide)] at hle
    omega
  · intro hes k _ _
    have hidle : Idle s := by
      refine runEvents_invariant_of (fun s e t he hs hst => ?_) hes
        ⟨fun _ => rfl, rfl, fun _ => rfl⟩ hrun
      exact hs.step he (restrict_eq_some.mp hst).2
    have hnone (i : Slot) : level (s.proc i) = none := if_pos (hidle.unused i)
    rw [hidle.npnq, State.census, holders_eq_zero hnone]
    rfl

/-- The counts are right when `allocproc` has failed, and wrong when it has succeeded. -/
theorem census_right_iff_boot :
    (∃ s, runEvents (restrict Room0 step) (init 1) [.sched 0, .allocFail 0] = some s ∧
      ∀ k, 0 ≤ k → k ≤ 3 → s.qs.npnq k = s.census k) ∧
    ∃ s, runEvents (restrict Room0 step) (init 1) [.sched 0, .alloc 0 1 2 0] = some s ∧
      ¬ ∀ k, 0 ≤ k → k ≤ 3 → s.qs.npnq k = s.census k := by
  obtain ⟨s, hs, -⟩ : ∃ s,
      runEvents (restrict Room0 step) (init 1) [.sched 0, .allocFail 0] = some s ∧ True := by
    decide +kernel
  obtain ⟨t, ht, -⟩ : ∃ t,
      runEvents (restrict Room0 step) (init 1) [.sched 0, .alloc 0 1 2 0] = some t ∧ True := by
    decide +kernel
  exact ⟨⟨s, hs, (census_right_iff hs).mpr (by decide)⟩,
    t, ht, mt (census_right_iff ht).mp (by decide)⟩

/-- After the first process has used its slice of queue 1, queue 0 counts one process that has never
been there, and queue 1 has been left once and never been entered. -/
theorem census_lost : ∃ es s, runEvents step (init 1) es = some s ∧
    (s.qs.npnq 0 = 1 ∧ s.census 0 = 0) ∧ s.qs.npnq 1 = -1 ∧ s.census 1 = 0 := by
  obtain ⟨x, hx, hp⟩ : ∃ x, runEvents stage traced ([.events boot] ++ runsAlone 0 4) = some x ∧
      (x.1.qs.npnq 0 = 1 ∧ x.1.census 0 = 0) ∧ x.1.qs.npnq 1 = -1 ∧ x.1.census 1 = 0 := by
    decide +kernel
  obtain ⟨es, hes⟩ := (reaches_of_stages hx).quiet
  exact ⟨es, x.1, runEvents_map id (fun _ _ _ => step_of_quietStep) hes, hp⟩

end Xv6.Mlfq
