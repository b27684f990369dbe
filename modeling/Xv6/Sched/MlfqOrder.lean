import Xv6.Lib.Ticket
import Xv6.Sched.MlfqQueues

/-!
# The order in a queue

A process that is put to the end of queue `k`, by a boost or a demotion, takes `roqd[k]` as its
number, and the next one takes a larger number. `allocproc` takes the number of a new process, which
starts in queue 1, from `npnq[0]`. As long as nobody comes to queue 1 from queue 0, `npnq[0]` only
grows, and every queue is in the order of arrival. A process that has been boosted and is demoted
again takes its number for queue 1 from `roqd[1]`, which nobody has used before.

The run is followed by a clock, with the time at which each process has come to its queue. Like the
counts, the numbers have no lock of their own, so there is one CPU.
-/

namespace Xv6.Mlfq

open Function (update update_self update_of_ne update_apply)

variable {s t : State 1}

/-! ### Times -/

/-- The system, the time, and the time at which each process has come to its queue. -/
structure Queued where
  state : State 1
  clock : ℕ
  entered : Slot → ℕ

/-- One event. -/
def Queued.step (x : Queued) (e : Event 1) : Option Queued :=
  (Mlfq.step x.state e).map fun t =>
    ⟨t, x.clock + 1, (enters x.state e).elim x.entered fun i => update x.entered i x.clock⟩

/-- The system boots. -/
def Queued.boot : Queued := ⟨init 1, 1, fun _ => 0⟩

section Times

variable {x : Queued} {e : Event 1}

theorem Queued.step_of_step (h : Mlfq.step x.state e = some t) : x.step e = some ⟨t, x.clock + 1,
    (enters x.state e).elim x.entered fun i => update x.entered i x.clock⟩ := by
  rw [Queued.step, h]
  rfl

/-- Every run can be followed. -/
theorem Queued.run_of_run {es : List (Event 1)} (h : runEvents Mlfq.step x.state es = some t) :
    ∃ y : Queued, runEvents Queued.step x es = some y ∧ y.state = t := by
  induction es generalizing x with
  | nil => exact ⟨x, rfl, Option.some.inj h⟩
  | cons e es ih =>
    obtain ⟨u, hu, h⟩ := Option.bind_eq_some_iff.mp h
    rw [runEvents_cons, Queued.step_of_step hu]
    exact ih h

/-- Everybody has come to their queue before now. -/
theorem Queued.entered_lt {es : List (Event 1)}
    (h : runEvents Queued.step Queued.boot es = some x) (i : Slot) : x.entered i < x.clock := by
  refine runEvents_invariant (I := fun x : Queued => ∀ i, x.entered i < x.clock)
    (fun y e z hy hz i => ?_) (fun _ => Nat.one_pos) h i
  obtain ⟨t, -, rfl⟩ := Option.map_eq_some_iff.1 hz
  dsimp only
  cases enters y.state e with
  | none => exact Nat.lt_succ_of_lt (hy i)
  | some j =>
    dsimp only [Option.elim]
    rw [update_apply]
    split_ifs
    · exact Nat.lt_succ_self _
    · exact Nat.lt_succ_of_lt (hy i)

end Times

/-! ### The condition -/

/-- No counter is about to overflow. -/
def Room (qs : Queues) : Prop :=
  qs.npnq 0 < 2 ^ 31 - 1 ∧ ∀ k ∈ [0, 1, 2, 3], qs.roqd k < 2 ^ 31 - 1

instance (qs : Queues) : Decidable (Room qs) := inferInstanceAs (Decidable (_ ∧ _))

/-- The process that gives up the CPU has not been dispatched from queue 0. -/
def NotFrom0 (s : State 1) : Event 1 → Prop
  | .leave c _ => ∀ p, s.pc c = .running p → (s.proc p).queue ≠ 0
  | _ => True

instance (s : State 1) : (e : Event 1) → Decidable (NotFrom0 s e)
  | .leave c _ => inferInstanceAs (Decidable (∀ p, s.pc c = .running p → (s.proc p).queue ≠ 0))
  | .sched _ | .alloc _ _ _ _ | .allocFail _ | .forkFail _ | .forkDone _ | .wakeup _ | .reap _ =>
    inferInstanceAs (Decidable True)

/-- No counter is about to overflow, and nobody comes to queue 1 from queue 0. -/
def InTurn (x : Queued) (e : Event 1) : Prop := Room x.state.qs ∧ NotFrom0 x.state e

instance (x : Queued) (e : Event 1) : Decidable (InTurn x e) := inferInstanceAs (Decidable (_ ∧ _))

/-! ### The invariant -/

/-- The number that the next process gets that comes to queue `k`: as long as nobody comes from
queue 0, a process comes to queue 1 by being created. -/
def Queues.next (qs : Queues) (k : ℤ) : ℤ := if k = 1 then qs.npnq 0 else qs.roqd k

/-- The numbers are in the order of arrival. -/
structure Ordered (x : Queued) : Prop where
  inv : Inv x.state
  seated : Seated x.state
  npnq_nonneg : 0 ≤ x.state.qs.npnq 0
  roqd_nonneg : ∀ k, 0 ≤ x.state.qs.roqd k
  tickets : Tickets (fun i => (x.state.proc i).state ≠ .unused) (fun i => (x.state.proc i).queue)
    (fun i => (x.state.proc i).qnumber) x.entered x.clock x.state.qs.next

variable {clock : ℕ} {entered : Slot → ℕ}

/-- Nobody comes to a queue. -/
theorem Ordered.keep (h : Ordered ⟨s, clock, entered⟩) (hinv : Inv t ∧ Seated t)
    (hn : t.qs.npnq = s.qs.npnq) (hr : t.qs.roqd = s.qs.roqd)
    (hproc : ∀ i, (t.proc i).state ≠ .unused → (s.proc i).state ≠ .unused ∧
      (t.proc i).queue = (s.proc i).queue ∧ (t.proc i).qnumber = (s.proc i).qnumber) :
    Ordered ⟨t, clock + 1, entered⟩ where
  inv := hinv.1
  seated := hinv.2
  npnq_nonneg := hn ▸ h.npnq_nonneg
  roqd_nonneg := hr ▸ h.roqd_nonneg
  tickets := by
    refine h.tickets.keep (fun i hi => (hproc i hi).1) (fun i hi => (hproc i hi).2.1)
      (fun i hi => (hproc i hi).2.2) (Nat.le_succ clock) fun k => ?_
    simp only [Queues.next, hn, hr, le_refl]

/-- The process in slot `i` comes to queue `k`. -/
theorem Ordered.enter (h : Ordered ⟨s, clock, entered⟩) (hinv : Inv t ∧ Seated t) {i : Slot}
    {k : ℤ} {p : Proc}
    (hproc : t.proc = update s.proc i p) (hq : p.queue = k)
    (hnum : p.qnumber = s.qs.next k) (hn : s.qs.npnq 0 ≤ t.qs.npnq 0)
    (hr : ∀ j, s.qs.roqd j ≤ t.qs.roqd j) (hk : s.qs.next k < t.qs.next k) :
    Ordered ⟨t, clock + 1, update entered i clock⟩ where
  inv := hinv.1
  seated := hinv.2
  npnq_nonneg := h.npnq_nonneg.trans hn
  roqd_nonneg j := (h.roqd_nonneg j).trans (hr j)
  tickets := by
    have hother (j : Slot) (hj : j ≠ i) : t.proc j = s.proc j := by
      rw [hproc, update_of_ne hj]
    refine h.tickets.enter i k (fun j hj hl => hother j hj ▸ hl) (fun j hj _ => ?_)
      (fun j hj _ => ?_) ?_ ?_ (fun j => ?_) hk
    · exact congrArg Proc.queue (hother j hj)
    · exact congrArg Proc.qnumber (hother j hj)
    · simp only [hproc, update_self, hq]
    · simp only [hproc, update_self, hnum]
    · simp only [Queues.next]
      split_ifs
      · exact hn
      · exact hr j

/-- A number that is handed out is not handed out again. -/
theorem Room.incRoqd {qs : Queues} {k : ℤ} (h : Room qs) (h₀ : ∀ j, 0 ≤ qs.roqd j)
    (hk : 0 ≤ k ∧ k ≤ 3) : wrapInt (qs.roqd k + 1) = qs.roqd k + 1 ∧
      ∀ j, qs.roqd j ≤ update qs.roqd k (qs.roqd k + 1) j := by
  have hlt : qs.roqd k < 2 ^ 31 - 1 := by
    refine h.2 k ?_
    simp only [List.mem_cons, List.not_mem_nil, or_false]
    omega
  have := h₀ k
  refine ⟨wrapInt_of_lt (by omega) (by omega), fun j => ?_⟩
  rw [update_apply]
  split_ifs with hj
  · rw [hj]
    exact (lt_add_one _).le
  · exact le_rfl

/-- A step in turn keeps the order. -/
theorem Ordered.step {x y : Queued} {e : Event 1} (h : Ordered x) (hturn : InTurn x e)
    (hst : x.step e = some y) : Ordered y := by
  obtain ⟨s, clock, entered⟩ := x
  obtain ⟨t, ht, rfl⟩ := Option.map_eq_some_iff.1 hst
  obtain ⟨hroom, hfrom⟩ := hturn
  dsimp only at ht hroom hfrom ⊢
  have hinv := And.intro (h.inv.step (by decide) ht) (step_seated h.seated ht)
  have hshift := shift_step h.seated ht
  dsimp only at hshift
  generalize enters s e = o at hshift
  cases hshift with
  | keep _ hn hr hproc => exact h.keep hinv hn hr hproc
  | @enter i k p hproc hk hn hr hq hnum =>
    -- a boost is to queue 0, and a demotion is not from there
    have hk : ((s.proc i).queue = 0 → k = 0) ∧ k ≠ 1 := by
      cases hk with
      | boost => exact ⟨fun _ => rfl, by decide⟩
      | demotion hpc =>
        have := hfrom i hpc
        omega
    have hok := hinv.1.proc i
    rw [hproc, update_self] at hok
    have hrange : 0 ≤ k ∧ k ≤ 3 := hq ▸ ⟨hok.queue_nonneg, hok.queue_le⟩
    obtain ⟨hwrap, hle⟩ := hroom.incRoqd h.roqd_nonneg hrange
    have hmove := npnq_move (q := (s.proc i).queue) (k := k) h.npnq_nonneg hroom.1
    dsimp only at hmove hwrap hle
    rw [← hn] at hmove
    rw [hwrap] at hr
    refine h.enter hinv hproc hq ?_ ?_ (hr ▸ hle) ?_
    · rw [hnum, Queues.next, if_neg hk.2]
    · split_ifs at hmove <;> omega
    · rw [Queues.next, Queues.next, if_neg hk.2, if_neg hk.2, hr, update_self]
      exact lt_add_one _
  | @create i tf pt now _ hi htt =>
    -- a new process takes its number from `npnq[0]`
    subst htt
    have hn₀ : 0 ≤ s.qs.npnq 0 := h.npnq_nonneg
    have hn : (allocproc i tf pt now s).qs.npnq 0 = s.qs.npnq 0 + 1 := by
      have := hroom.1
      change update s.qs.npnq 0 (wrapInt (s.qs.npnq 0 + 1)) 0 = _
      rw [update_self, wrapInt_of_lt (by omega) (by omega)]
    obtain ⟨hwrap, hle⟩ := hroom.incRoqd h.roqd_nonneg (k := 0) (by decide)
    refine h.enter hinv (i := i) (k := 1) rfl rfl rfl (by omega) (fun j => ?_) ?_
    · change s.qs.roqd j ≤ update s.qs.roqd 0 (wrapInt (s.qs.roqd 0 + 1)) j
      rw [hwrap]
      exact hle j
    · change s.qs.npnq 0 < (allocproc i tf pt now s).qs.npnq 0
      omega

theorem ordered_boot : Ordered Queued.boot where
  inv := init_inv 1
  seated := seated_init
  npnq_nonneg := le_rfl
  roqd_nonneg _ := le_rfl
  tickets := ⟨fun _ h => absurd rfl h, fun _ h => absurd rfl h, fun _ _ h => absurd rfl h,
    fun _ _ h => absurd rfl h⟩

/-- **Every queue is in the order of arrival**, as long as nobody comes to queue 1 from queue 0 and
no counter overflows. The process with the smallest number is the one that has been in the queue
for the longest time. -/
theorem queues_fifo {es : List (Event 1)} {x : Queued}
    (hrun : runEvents (restrict InTurn Queued.step) Queued.boot es = some x) {i j : Slot}
    (hi : (x.state.proc i).state ≠ .unused) (hj : (x.state.proc j).state ≠ .unused) (hij : i ≠ j)
    (hq : (x.state.proc i).queue = (x.state.proc j).queue) :
    (x.state.proc i).qnumber ≠ (x.state.proc j).qnumber ∧
      ((x.state.proc i).qnumber < (x.state.proc j).qnumber ↔ x.entered i < x.entered j) := by
  have hx : Ordered x := by
    refine runEvents_invariant (I := Ordered) (fun y e z hy hz => ?_) ordered_boot hrun
    obtain ⟨hturn, hz⟩ := restrict_eq_some.1 hz
    exact hy.step hturn hz
  exact ⟨hx.tickets.num_ne hi hj hij hq, hx.tickets.lt_iff hi hj hq⟩

/-- The first process creates another one, and is then in queue 1 before it. -/
theorem queues_fifo_boot : ∃ x, runEvents (restrict InTurn Queued.step) Queued.boot
      ([.alloc 0 1 2 0, .forkDone 0] ++ List.replicate 131 (.sched 0) ++
        [.alloc 1 3 4 0, .forkDone 1, .leave 0 .yield]) = some x ∧
    (x.state.proc 0).queue = 1 ∧ x.entered 0 < x.entered 1 ∧
      (x.state.proc 0).qnumber < (x.state.proc 1).qnumber := by
  obtain ⟨x, hx, ⟨hr₀, hr₁⟩, ⟨hq₀, hq₁⟩, ht⟩ : ∃ x, runEvents (restrict InTurn Queued.step)
      Queued.boot ([.alloc 0 1 2 0, .forkDone 0] ++ List.replicate 131 (.sched 0) ++
        [.alloc 1 3 4 0, .forkDone 1, .leave 0 .yield]) = some x ∧
      ((x.state.proc 0).state = .runnable ∧ (x.state.proc 1).state = .runnable) ∧
      ((x.state.proc 0).queue = 1 ∧ (x.state.proc 1).queue = 1) ∧ x.entered 0 < x.entered 1 := by
    decide +kernel
  exact ⟨x, hx, hq₀, ht, (queues_fifo hx (i := 0) (j := 1) (by simp [hr₀])
    (by simp [hr₁]) (by decide) (hq₀.trans hq₁.symm)).2.2 ht⟩

/-! ### A process that waits -/

section Waits

variable {s t : State 1} {p b : Slot}

/-- There is a quiet run from `s` to `t`. -/
def Leads (s t : State 1) : Prop := ∃ es, runEvents quietStep s es = some t

theorem Leads.refl (s : State 1) : Leads s s := ⟨[], rfl⟩

theorem Leads.trans {u : State 1} (h : Leads s t) (h' : Leads t u) : Leads s u := by
  obtain ⟨es, hes⟩ := h
  obtain ⟨es', hes'⟩ := h'
  exact ⟨es ++ es', by rw [runEvents_append, hes, Option.bind_some, hes']⟩

theorem leads_sched (h : schedStep 0 s = some t) : Leads s t :=
  ⟨[.sched 0], by rw [runEvents_cons, quietStep_sched, h]; rfl⟩

theorem schedStep_of_age {prngd : Option Slot} (hpc : s.pc 0 = .dispatch prngd b)
    (hr : (s.proc b).state = .runnable) (hb : prngd ≠ some b) : schedStep 0 s =
      some ((s.setBoth b (age s.qs (s.proc b))).setPc 0 (.dispatch prngd (b + 1))) := by
  have hl := withLock_of_holds (s := s) (by rw [hpc]; rfl)
  simp [schedStep, hpc, dispatchStep, hr, hb, hl]

/-- A pass starts in which `p` will be chosen. Only `b` can run, too, and it comes before `p` in the
table. -/
def Ahead (p b : Slot) (s : State 1) : Prop :=
  s.pc 0 = .start ∧ ((s.proc p).state = .runnable ∧ (s.proc b).state = .runnable) ∧
    (∀ q, q ≠ p → q ≠ b → (s.proc q).state ≠ .runnable) ∧ b < p ∧
    ((s.proc p).queue < 3 ∧ (s.proc p).queue < (s.proc b).queue ∧ (s.proc b).queue < 4) ∧
    (s.proc p).qnumber < refmin1

instance (p b : Slot) (s : State 1) : Decidable (Ahead p b s) := inferInstanceAs (Decidable (_ ∧ _))

/-- The state when `p` has been dispatched, and `b` has waited for one more round. -/
def State.ahead (s : State 1) (p b : Slot) : State 1 :=
  ((s.setBoth b (age s.qs (s.proc b))).setProc p ((s.proc p).setState .running)).setPc 0
    (.running p)

theorem Ahead.leads (h : Ahead p b s) : Leads s (s.ahead p b) := by
  obtain ⟨hpc, ⟨hrp, hrb⟩, hothers, hbp, ⟨hq₃, hqb, hb₄⟩, hn⟩ := h
  have hbp' : (b : ℕ) < p := hbp
  have hbefore (q : Slot) (_ : 0 ≤ (q : ℕ)) (hqb : q < (b : ℕ)) : (s.proc q).state ≠ .runnable :=
    hothers q (Fin.ne_of_lt (Nat.lt_trans hqb hbp')) (Fin.ne_of_lt hqb)
  have hbetween (q : Slot) (hbq : (b : ℕ) + 1 ≤ q) (hqp : q < (p : ℕ)) :
      (s.proc q).state ≠ .runnable := hothers q (Fin.ne_of_lt hqp) (Fin.ne_of_gt hbq)
  have hafter (q : Slot) (hpq : (p : ℕ) + 1 ≤ q) (_ : (q : ℕ) < NPROC) :
      (s.proc q).state ≠ .runnable :=
    hothers q (Fin.ne_of_gt hpq) (Fin.ne_of_gt (Nat.lt_trans hbp' hpq))
  -- the search for the lowest queue stops at `b`, and then at `p`
  have hscan : Reaches (s, fun _ => .zero) (s.setPc 0 (.scan (s.proc p).queue NPROC),
      fun _ => .zero) := by
    have hstart : s = s.setPc 0 (.scan 4 0) := (setPc_of_eq hpc).symm
    nth_rewrite 1 [hstart]
    refine (reaches_skip (.scan 4) (Nat.zero_le _) b.isLt.le hbefore
      fun q hq => .scan q.isLt fun h => hq h.1).trans ?_
    refine (reaches_move (.lower b.isLt hrb hb₄)).trans ?_
    refine (reaches_skip (.scan (s.proc b).queue) hbp' p.isLt.le hbetween
      fun q hq => .scan q.isLt fun h => hq h.1).trans ?_
    refine (reaches_move (.lower p.isLt hrp hqb)).trans ?_
    exact reaches_skip (.scan (s.proc p).queue) p.isLt le_rfl hafter
      fun q hq => .scan q.isLt fun h => hq h.1
  -- the search for the smallest number passes `b`, which is in another queue
  have hselect : Reaches (s.setPc 0 (.scan (s.proc p).queue NPROC), fun _ => .zero)
      (s.setPc 0 (.dispatch (some p) b), fun _ => .zero) := by
    refine (reaches_move (.toSelect le_rfl hq₃.ne)).trans ?_
    refine (reaches_skip (.select (s.proc p).queue refmin1 none) (Nat.zero_le _) b.isLt.le hbefore
      fun q hq => .select q.isLt fun h => hq h.1).trans ?_
    refine (reaches_move (.select b.isLt fun h => hqb.ne' h.2.1)).trans ?_
    refine (reaches_skip (.select (s.proc p).queue refmin1 none) hbp' p.isLt.le hbetween
      fun q hq => .select q.isLt fun h => hq h.1).trans ?_
    refine (reaches_move (.choose p.isLt hrp rfl hn)).trans ?_
    refine (reaches_skip (.select (s.proc p).queue (s.proc p).qnumber (some p)) p.isLt le_rfl hafter
      fun q hq => .select q.isLt fun h => hq h.1).trans ?_
    refine (reaches_move (.toDispatch le_rfl)).trans ?_
    exact reaches_skip (.dispatch (some p)) (Nat.zero_le _) b.isLt.le hbefore
      fun q hq => .dispatch q.isLt hq
  refine Leads.trans (hscan.trans hselect).quiet ?_
  -- `b` waits for another round, and `p` is dispatched
  set u := s.setBoth b (age s.qs (s.proc b)) with hu
  have hother {q : Slot} (hq : q ≠ b) : u.proc q = s.proc q := update_of_ne hq _ _
  have hage := leads_sched (schedStep_of_age (setPc_pc s (.dispatch (some p) b)) hrb
    fun h => hbp'.ne' (congrArg Fin.val (Option.some.inj h)))
  change Leads _ ((u.setPc 0 _).setPc 0 _) at hage
  rw [setPc_setPc] at hage
  have hskip : Reaches (u.setPc 0 (.dispatch (some p) (b + 1)), fun _ => .zero)
      (u.setPc 0 (.dispatch (some p) p), fun _ => .zero) :=
    reaches_skip (.dispatch (some p)) hbp' p.isLt.le
      (fun q hbq hqp => hother (Fin.ne_of_gt hbq) ▸ hbetween q hbq hqp)
      fun q hq => .dispatch q.isLt hq
  have hp : u.proc p = s.proc p := hother (Fin.ne_of_gt hbp')
  have hdisp := leads_sched (schedStep_of_dispatch (setPc_pc u (.dispatch (some p) p)) (hp ▸ hrp))
  change Leads _ (((u.setProc p ((u.proc p).setState .running)).setPc 0 _).setPc 0 _) at hdisp
  rw [setPc_setPc, hp] at hdisp
  exact hage.trans (Leads.trans hskip.quiet hdisp)

/-- The state after `p` has run `k` times ahead of `b`, within its slice. -/
def State.rounds (s : State 1) (p b : Slot) (k : ℕ) : State 1 :=
  { s with
    proc := update (update s.proc
      b { s.proc b with wwpqtct := (s.proc b).wwpqtct + k })
      p { s.proc p with pqtct := (s.proc p).pqtct + k, wwpqtct := 0 } }

/-- `p` can run `k` times ahead of `b` before it has used its slice, and before `b` is boosted. -/
def AheadFor (p b : Slot) (k : ℕ) (s : State 1) : Prop :=
  Ahead p b s ∧ (0 ≤ (s.proc b).wwpqtct ∧ (s.proc b).wwpqtct + k < 48) ∧
    (0 ≤ (s.proc p).pqtct ∧ (s.proc p).pqtct + k < tickSlc (s.proc p).queue) ∧
    0 ≤ (s.proc p).queue

instance (p b : Slot) (k : ℕ) (s : State 1) : Decidable (AheadFor p b k s) :=
  inferInstanceAs (Decidable (_ ∧ _))

theorem age_of_lt {qs : Queues} {x : Proc} (h₀ : 0 ≤ x.wwpqtct) (h : x.wwpqtct + 1 < 48) :
    age qs x = (qs, { x with wwpqtct := x.wwpqtct + 1 }) := by
  have hw : wrapInt (x.wwpqtct + 1) = x.wwpqtct + 1 := wrapInt_of_lt (by omega) (by omega)
  rw [age_of_not_boosts fun hb => absurd hb.2 (by rw [Boosts3, hw]; omega), hw]

theorem index_of_lt {qs : Queues} {q : ℤ} (h₀ : 0 ≤ q) (h₃ : q < 4) : qs.index q = qs := by
  rw [Queues.index, decide_eq_true ⟨h₀, h₃⟩, Bool.and_true]

theorem charge_of_lt {qs : Queues} {x : Proc} (h₀ : 0 ≤ x.pqtct)
    (h : x.pqtct + 1 < tickSlc x.queue) (hq₀ : 0 ≤ x.queue) (hq : x.queue < 3) :
    charge qs x = (qs, { x with pqtct := x.pqtct + 1, wwpqtct := 0 }) := by
  have hle : tickSlc x.queue ≤ 16 := by
    rw [tickSlc]
    split_ifs <;> decide
  have hw : wrapInt (x.pqtct + 1) = x.pqtct + 1 := wrapInt_of_lt (by omega) (by omega)
  rw [charge]
  dsimp only
  rw [hw, if_neg (by omega), index_of_lt hq₀ (by omega)]

theorem AheadFor.leads_one (h : AheadFor p b 1 s) : Leads s (s.rounds p b 1) := by
  obtain ⟨ha, ⟨hw₀, hw⟩, ⟨ht₀, ht⟩, hq₀⟩ := h
  have hlead := ha.leads
  obtain ⟨hpc, ⟨hrp, hrb⟩, hothers, hbp, ⟨hq₃, -, -⟩, -⟩ := ha
  have hlast : Last p (s.ahead p b) := by
    refine ⟨setPc_pc _ _, fun q hq => ?_⟩
    have hqp : q ≠ p := Fin.ne_of_gt hq
    have hqb : q ≠ b := Fin.ne_of_gt (hbp.trans hq)
    have : (s.ahead p b).proc q = s.proc q :=
      (update_of_ne hqp _ _).trans (update_of_ne hqb _ _)
    rw [this]
    exact hothers q hqp hqb
  refine hlead.trans ?_
  have hleave := (hlast.reaches (g := fun _ => .zero) .yield).quiet
  have hp : ((s.ahead p b).proc p).setState Leave.yield.state = s.proc p := by
    have : (s.ahead p b).proc p = (s.proc p).setState .running := update_self _ _ _
    rw [this, Leave.state, ← hrp]
    rfl
  have hage : age s.qs (s.proc b) = (s.qs, { s.proc b with wwpqtct := (s.proc b).wwpqtct + 1 }) :=
    age_of_lt hw₀ hw
  have hqs : (s.ahead p b).qs = s.qs := congrArg Prod.fst hage
  rw [hp, hqs, charge_of_lt ht₀ ht hq₀ hq₃] at hleave
  refine hleave.elim fun es hes => ⟨es, hes.trans (congrArg some ?_)⟩
  simp only [State.ahead, hage, State.setBoth, State.setProc, State.setPc, State.rounds,
    Function.update_idem, Nat.cast_one]
  rw [← hpc, Function.update_eq_self]

section Rounds

variable {k : ℕ}

theorem rounds_proc_self : (s.rounds p b k).proc p =
    { s.proc p with pqtct := (s.proc p).pqtct + k, wwpqtct := 0 } := update_self _ _ _

theorem rounds_proc_behind (hbp : b ≠ p) :
    (s.rounds p b k).proc b = { s.proc b with wwpqtct := (s.proc b).wwpqtct + k } :=
  (update_of_ne hbp _ _).trans (update_self _ _ _)

theorem rounds_proc_of_ne {q : Slot} (hp : q ≠ p) (hb : q ≠ b) :
    (s.rounds p b k).proc q = s.proc q :=
  (update_of_ne hp _ _).trans (update_of_ne hb _ _)

theorem Ahead.rounds (h : Ahead p b s) : Ahead p b (s.rounds p b k) := by
  obtain ⟨hpc, hr, hothers, hbp, hq, hn⟩ := h
  refine ⟨hpc, ?_, fun q hp hb => ?_, hbp, ?_, ?_⟩
  · rwa [rounds_proc_self, rounds_proc_behind (Fin.ne_of_lt hbp)]
  · rw [rounds_proc_of_ne hp hb]
    exact hothers q hp hb
  · rwa [rounds_proc_self, rounds_proc_behind (Fin.ne_of_lt hbp)]
  · rwa [rounds_proc_self]

theorem AheadFor.rounds (h : AheadFor p b (k + 1) s) :
    AheadFor p b k s ∧ AheadFor p b 1 (s.rounds p b k) := by
  obtain ⟨ha, hw, ht, hq⟩ := h
  have hbp := Fin.ne_of_lt ha.2.2.2.1
  push_cast at hw ht
  refine ⟨⟨ha, by omega, by omega, hq⟩, ha.rounds, ?_⟩
  rw [rounds_proc_self, rounds_proc_behind hbp]
  dsimp only
  push_cast
  omega

theorem rounds_succ (hbp : b ≠ p) : (s.rounds p b k).rounds p b 1 = s.rounds p b (k + 1) := by
  rw [State.rounds, rounds_proc_self, rounds_proc_behind hbp, State.rounds, State.rounds]
  simp only [Nat.cast_add, Nat.cast_one, add_assoc, State.mk.injEq, and_true]
  funext q
  by_cases hp : q = p
  · subst hp
    simp
  · by_cases hb : q = b
    · subst hb
      simp [hp]
    · simp [hp, hb]

end Rounds

/-- `p` runs several times ahead of `b`. -/
theorem AheadFor.leads {k : ℕ} (h : AheadFor p b (k + 1) s) : Leads s (s.rounds p b (k + 1)) := by
  induction k with
  | zero => exact h.leads_one
  | succ k ih =>
    obtain ⟨hk, hone⟩ := h.rounds
    rw [← rounds_succ (Fin.ne_of_lt h.1.2.2.2.1)]
    exact (ih hk).trans hone.leads_one

/-- The legs of a run. -/
inductive Leg
  | stage (st : Stage)
  /-- `p` is dispatched ahead of `b`. -/
  | ahead (p b : Slot)
  /-- `p` runs `k + 1` times ahead of `b`. -/
  | rounds (p b : Slot) (k : ℕ)

/-- What a leg leads to. -/
def leg (s : State 1) : Leg → Option (State 1)
  | .stage st => (stage (s, fun _ => .zero) st).map Prod.fst
  | .ahead p b => if Ahead p b s then some (s.ahead p b) else none
  | .rounds p b k => if AheadFor p b (k + 1) s then some (s.rounds p b (k + 1)) else none

theorem leads_of_legs {l : List Leg} (h : runEvents leg s l = some t) : Leads s t := by
  refine runEvents_invariant (I := Leads s) (fun u c v hu hv => hu.trans ?_) (.refl s) h
  cases c with
  | stage st =>
    obtain ⟨x, hx, rfl⟩ := Option.map_eq_some_iff.1 hv
    exact (reaches_of_stages (l := [st]) (by rw [runEvents_cons, hx]; rfl)).quiet
  | ahead p b =>
    rw [leg] at hv
    split_ifs at hv with h
    cases hv
    exact h.leads
  | rounds p b k =>
    rw [leg] at hv
    split_ifs at hv with h
    cases hv
    exact h.leads

end Waits

/-- The process in slot `k` uses its slices of queues 1 and 2 while the first process waits. In its
last dispatch `es` happens. -/
def usesSlices (k : Slot) (es : List (Event 1)) : List Leg :=
  [.rounds k 0 2, .ahead k 0, .stage (.leave k .yield), .rounds k 0 6, .ahead k 0,
    .stage (.events (es ++ .leave 0 .sleep :: List.replicate (64 - k) (.sched 0)))]

/-- The first process goes down to queue 3 and creates another one. This uses its slices, creates
a third one and sleeps, and so on. When the fifth process is dispatched for the last time, the first
has waited for 48 rounds and is boosted. Then it is dispatched, and creates a sixth process. -/
def intoBoost : List Leg :=
  (([.events boot] ++ runsAlone 0 11 ++ [.dispatch 0, .events ([.alloc 1 3 4 0, .forkDone 1,
      .leave 0 .yield] ++ List.replicate 64 (.sched 0))] : List Stage).map Leg.stage) ++
    ([1, 2, 3] : List Slot).flatMap (fun k =>
      usesSlices k [.alloc (k + 1) 3 4 0, .forkDone (k + 1)]) ++
    usesSlices 4 [] ++ [.stage (.dispatch 0), .stage (.events [.alloc 5 3 4 0, .forkDone 5])]

/-- **A process comes back to queue 1 and is ahead of one that was there before.** The first process
has been boosted. When it gives up the CPU it goes from queue 0 to queue 1 with the number 0. The
process that it has created just before has the number 6. -/
theorem queues_not_fifo : ∃ (es : List (Event 1)) (x : Queued),
    runEvents Queued.step Queued.boot es = some x ∧
      ((x.state.proc 5).state = .runnable ∧ (x.state.proc 5).queue = 1) ∧
      ((x.state.proc 0).state = .runnable ∧ (x.state.proc 0).queue = 1) ∧
      x.entered 5 < x.entered 0 ∧
      (x.state.proc 5).qnumber = 6 ∧ (x.state.proc 0).qnumber = 0 := by
  obtain ⟨s, hs, he, t, ht, h₅, h₀, hn⟩ : ∃ s, runEvents leg (init 1) intoBoost = some s ∧
      enters s (.leave 0 .yield) = some 0 ∧ ∃ t, step s (.leave 0 .yield) = some t ∧
        ((t.proc 5).state = .runnable ∧ (t.proc 5).queue = 1) ∧
        ((t.proc 0).state = .runnable ∧ (t.proc 0).queue = 1) ∧
        (t.proc 5).qnumber = 6 ∧ (t.proc 0).qnumber = 0 := by
    decide +kernel
  obtain ⟨es, hes⟩ := leads_of_legs hs
  obtain ⟨y, hy, rfl⟩ := Queued.run_of_run (x := Queued.boot)
    (runEvents_map id (fun _ _ _ => step_of_quietStep) hes)
  refine ⟨es ++ [.leave 0 .yield], ⟨t, y.clock + 1, update y.entered 0 y.clock⟩, ?_, h₅, h₀,
    ?_, hn⟩
  · rw [runEvents_append, hy, Option.bind_some, runEvents_cons, Queued.step_of_step ht, he]
    rfl
  · dsimp only
    rw [update_self, update_of_ne (by decide)]
    exact Queued.entered_lt hy 5

end Xv6.Mlfq
