import Xv6.Tree.Family

/-!
# No missed exit

A process that sleeps in `wait` has no child that is a zombie, as long as `wait_lock` is free. A
process that exits wakes its parent first and becomes a zombie later. It has `wait_lock` all the
time, so the parent cannot look for children before that, and when it goes to sleep it keeps its own
lock until it is asleep, so it is not overlooked.
-/

namespace Xv6.Tree

open Function (update update_self update_of_ne)

/-- A process has `wait_lock`. -/
def Pc.Locked : Pc → Prop
  | .reparent _ _ | .waking _ _ _ | .dying _ | .scan _ _ => True
  | .idle | .blocked | .forked _ | .linked _ | .wait | .sleeping => False

/-- A process is about to become a zombie, and wakes its parent or has woken it. -/
def Pc.Dying : Pc → Prop
  | .waking _ _ (.die _) | .dying _ => True
  | _ => False

theorem Pc.Dying.locked {c : Pc} (h : c.Dying) : c.Locked := by
  cases c with
  | waking => trivial
  | dying => trivial
  | _ => exact False.elim h

/-- The process is asleep in `wait`, or is going to be. -/
def State.On (s : State) (p : Slot) : Prop :=
  s.own p = true ∨ (s.proc p).state = .sleeping ∧ (s.proc p).chan = chanOf p

/-- No child of the process is a zombie, or is about to become one. -/
def State.Calm (s : State) (p : Slot) : Prop :=
  ∀ q, (s.proc q).parent = some p → (s.proc q).state ≠ .zombie ∧ ¬ (s.pc q).Dying

/-- The process is going to be woken. -/
def State.Owed (s : State) (p : Slot) : Prop :=
  ∃ j k next, s.lock = some j ∧ s.pc j = .waking (some p) k next ∧ k ≤ p

/-- The invariant: no parent sleeps beside a zombie that nobody will tell it of. -/
structure Watch (s : State) : Prop where
  locked : ∀ p, (s.pc p).Locked ↔ s.lock = some p
  running : ∀ p, (s.pc p).Locked ∨ s.own p = true → (s.proc p).state = .running
  sleeping : ∀ p, s.On p → s.pc p = .sleeping
  scanned : ∀ p k b, s.pc p = .scan k b → ∀ q : Slot, q.val < k → (s.proc q).parent = some p →
    (s.proc q).state ≠ .zombie
  watched : ∀ p, s.On p → s.Calm p ∨ s.Owed p

section Watch

variable {s t : State} {p q r : Slot} {c : Pc}

theorem Watch.not_on (h : Watch s) (hp : (s.pc p).Locked) : ¬ s.On p := fun hon => by
  rw [h.sleeping p hon] at hp
  exact hp

theorem Watch.calm_of_free (h : Watch s) (hl : s.lock = none) (hr : s.On r) : s.Calm r := by
  rcases h.watched r hr with hc | ⟨j, k, next, hj, -⟩
  · exact hc
  · rw [hl] at hj
    cases hj

/-- Who is not going to be woken by the one that has the lock has nothing to do. -/
theorem Watch.calm (h : Watch s) (hp : (s.pc p).Locked)
    (hpc : ∀ k next, s.pc p = .waking (some r) k next → ¬ k ≤ r) (hr : s.On r) : s.Calm r := by
  rcases h.watched r hr with hc | ⟨j, k, next, hj, hw, hk⟩
  · exact hc
  · cases ((h.locked p).1 hp).symm.trans hj
    exact absurd hk (hpc k next hw)

/-- Only the one that has the lock can be about to become a zombie. -/
theorem Watch.eq_of_locked (h : Watch s) (hp : (s.pc p).Locked) (hq : (s.pc q).Locked) : q = p :=
  Option.some.inj (((h.locked q).1 hq).symm.trans ((h.locked p).1 hp))

/-! ### What a process can do about the lock -/

/-- Something happens that has nothing to do with the lock. Nobody goes to sleep, nobody becomes a
zombie, and those who are asleep get no children. -/
theorem Watch.outside (h : Watch s) (hlock : t.lock = s.lock)
    (hpc : ∀ q, (s.pc q).Locked ∨ (t.pc q).Locked → t.pc q = s.pc q)
    (hrunning : ∀ q, (s.pc q).Locked ∨ t.own q = true → (t.proc q).state = .running)
    (hon : ∀ q, t.On q → s.On q ∧ t.pc q = .sleeping)
    (hzombie : ∀ q r, (t.proc q).parent = some r → (t.proc q).state = .zombie →
      (s.proc q).parent = some r ∧ (s.proc q).state = .zombie)
    (hparent : ∀ q r, t.On r → (t.proc q).parent = some r → (s.proc q).parent = some r) :
    Watch t := by
  have hlocked (q : Slot) : (t.pc q).Locked ↔ (s.pc q).Locked := by
    constructor <;> intro hq
    · rwa [hpc q (.inr hq)] at hq
    · rwa [hpc q (.inl hq)]
  refine ⟨fun q => ?_, fun q hq => ?_, fun q hq => (hon q hq).2, fun q k b hq i hi hparent hz => ?_,
    fun r hr => ?_⟩
  · rw [hlocked, hlock, h.locked]
  · exact hrunning q (hq.imp (hlocked q).1 id)
  · have hq' : (t.pc q).Locked := hq ▸ trivial
    rw [hpc q (.inr hq')] at hq
    obtain ⟨hp, hz⟩ := hzombie i q hparent hz
    exact h.scanned q k b hq i hi hp hz
  · rcases h.watched r (hon r hr).1 with hc | ⟨j, k, next, hj, hw, hk⟩
    · refine .inl fun q hq => ⟨fun hz => ?_, fun hd => ?_⟩
      · obtain ⟨hp, hz⟩ := hzombie q r hq hz
        exact (hc q hp).1 hz
      · rw [hpc q (.inr hd.locked)] at hd
        exact (hc q (hparent q r hr hq)).2 hd
    · have hj' : (s.pc j).Locked := hw ▸ trivial
      exact .inr ⟨j, k, next, hlock.trans hj, (hpc j (.inl hj')).trans hw, hk⟩

/-- Something else changes. -/
theorem Watch.congr (h : Watch s) (hproc : t.proc = s.proc) (hpc : t.pc = s.pc)
    (hlock : t.lock = s.lock) (hown : t.own = s.own) : Watch t := by
  have hon (q : Slot) : t.On q ↔ s.On q := by rw [State.On, State.On, hproc, hown]
  refine h.outside hlock (fun q _ => congrFun hpc q) (fun q hq => ?_) (fun q hq => ?_)
    (fun q r => ?_) fun q r _ => ?_
  · rw [hproc]
    exact h.running q (hown ▸ hq)
  · rw [hon] at hq
    exact ⟨hq, hpc ▸ h.sleeping q hq⟩
  · rw [hproc]
    exact And.intro
  · rw [hproc]
    exact id

/-- A process takes the lock. -/
theorem Watch.acquire (h : Watch s) (ht : s.acquire p c = some t) (hc : c.Locked) (hd : ¬ c.Dying)
    (hscan : ∀ k b, c = .scan k b → k = 0) (hrun : (s.proc p).state = .running) (hon : ¬ s.On p) :
    Watch t := by
  rw [State.acquire] at ht
  split_ifs at ht with hl
  cases ht
  have hfree (q : Slot) : ¬ (s.pc q).Locked := fun hq => by
    rw [(h.locked q).1 hq] at hl
    cases hl
  have hpc {q : Slot} (hq : q ≠ p) : (s.goto p c).pc q = s.pc q := update_of_ne hq _ _
  have hself : (s.goto p c).pc p = c := update_self _ _ _
  refine ⟨fun q => ?_, fun q hq => ?_, fun q hq => ?_, fun q k b hq => ?_,
    fun r hr => .inl fun q hq => ?_⟩
  · by_cases hqp : q = p
    · subst hqp
      simp only [hself, hc]
    · change ((s.goto p c).pc q).Locked ↔ some p = some q
      rw [hpc hqp]
      simp [hfree q, Ne.symm hqp]
  · by_cases hqp : q = p
    · exact hqp ▸ hrun
    · refine h.running q (hq.imp (fun hq => ?_) id)
      change ((s.goto p c).pc q).Locked at hq
      rwa [hpc hqp] at hq
  · have hqp : q ≠ p := fun he => hon (he ▸ hq)
    exact (hpc hqp).trans (h.sleeping q hq)
  · by_cases hqp : q = p
    · subst hqp
      change (s.goto q c).pc q = _ at hq
      rw [hself] at hq
      cases hscan k b hq
      exact fun i hi => absurd hi (Nat.not_lt_zero _)
    · change (s.goto p c).pc q = _ at hq
      rw [hpc hqp] at hq
      exact absurd (hq ▸ trivial) (hfree q)
  · obtain ⟨hz, hdq⟩ := h.calm_of_free hl hr q hq
    refine ⟨hz, ?_⟩
    change ¬ ((s.goto p c).pc q).Dying
    by_cases hqp : q = p
    · rwa [hqp, hself]
    · rwa [hpc hqp]

/-- The process that has the lock keeps it. -/
theorem Watch.keep (h : Watch s) (hp : (s.pc p).Locked) (hc : c.Locked)
    (hlock : t.lock = s.lock) (hpcs : t.pc = update s.pc p c) (hown : t.own = s.own)
    (hrunning : ∀ q, (s.proc q).state = .running → (t.proc q).state = .running)
    (hon : ∀ q, t.On q → s.On q)
    (hscan : ∀ k b, c = .scan k b → ∀ q : Slot, q.val < k → (t.proc q).parent = some p →
      (t.proc q).state ≠ .zombie)
    (hwatched : ∀ r, t.On r → (∀ q, (t.proc q).parent = some r →
      (t.proc q).state ≠ .zombie ∧ (q = p → ¬ c.Dying)) ∨
      ∃ k next, c = .waking (some r) k next ∧ k ≤ r) : Watch t := by
  have hl := (h.locked p).1 hp
  have hpc {q : Slot} (hq : q ≠ p) : t.pc q = s.pc q := by rw [hpcs, update_of_ne hq]
  have hself : t.pc p = c := by rw [hpcs, update_self]
  have hother {q : Slot} (hq : q ≠ p) : ¬ (t.pc q).Locked := fun hq' =>
    hq (h.eq_of_locked hp (hpc hq ▸ hq'))
  refine ⟨fun q => ?_, fun q hq => hrunning q (h.running q ?_), fun q hq => ?_, fun q k b hq => ?_,
    fun r hr => ?_⟩
  · rw [hlock, hl]
    by_cases hqp : q = p
    · subst hqp
      simp only [hself, hc]
    · simp [hother hqp, Ne.symm hqp]
  · rw [hown] at hq
    refine hq.imp (fun hq => ?_) id
    by_cases hqp : q = p
    · exact hqp ▸ hp
    · exact absurd hq (hother hqp)
  · have hqp : q ≠ p := fun he => h.not_on hp (he ▸ hon q hq)
    rw [hpc hqp, h.sleeping q (hon q hq)]
  · have hqp : q = p := by
      by_contra hqp
      exact hother hqp (hq ▸ trivial)
    subst hqp
    exact hscan k b (hself.symm.trans hq)
  · rcases hwatched r hr with hcalm | ⟨k, next, hw, hk⟩
    · refine .inl fun q hq => ⟨(hcalm q hq).1, fun hd => ?_⟩
      by_cases hqp : q = p
      · subst hqp
        exact (hcalm q hq).2 rfl (hself ▸ hd)
      · exact hother hqp hd.locked
    · exact .inr ⟨p, k, next, hlock.trans hl, hself.trans hw, hk⟩

/-- The process that has the lock gives it back. -/
theorem Watch.giveBack (h : Watch s) (hp : (s.pc p).Locked) (hc : ¬ c.Locked)
    (hlock : t.lock = none) (hpcs : t.pc = update s.pc p c)
    (hrunning : ∀ q, t.own q = true → (t.proc q).state = .running)
    (hon : ∀ q, t.On q → s.On q ∨ q = p ∧ c = .sleeping)
    (hcalm : ∀ r, t.On r → ∀ q, (t.proc q).parent = some r → (t.proc q).state ≠ .zombie) :
    Watch t := by
  have hpc {q : Slot} (hq : q ≠ p) : t.pc q = s.pc q := by rw [hpcs, update_of_ne hq]
  have hself : t.pc p = c := by rw [hpcs, update_self]
  have hfree (q : Slot) : ¬ (t.pc q).Locked := by
    by_cases hqp : q = p
    · rwa [hqp, hself]
    · rw [hpc hqp]
      exact fun hq => hqp (h.eq_of_locked hp hq)
  refine ⟨fun q => ?_, fun q hq => hrunning q (hq.resolve_left (hfree q)), fun q hq => ?_,
    fun q k b hq => absurd (hq ▸ trivial) (hfree q),
    fun r hr => .inl fun q hq => ⟨hcalm r hr q hq, fun hd => hfree q hd.locked⟩⟩
  · simp [hfree q, hlock]
  · by_cases hqp : q = p
    · subst hqp
      rcases hon q hq with hq | ⟨-, hcs⟩
      · exact absurd hq (h.not_on hp)
      · rw [hself, hcs]
    · rcases hon q hq with hq | ⟨he, -⟩
      · rw [hpc hqp, h.sleeping q hq]
      · exact absurd he hqp

/-! ### Steps without the lock -/

section Outside

variable {f : Proc → Proc} {i : Slot}

/-- One process changes. -/
theorem Watch.upd (h : Watch s)
    (hrunning : (s.pc i).Locked ∨ s.own i = true → (f (s.proc i)).state = .running)
    (hon : (f (s.proc i)).state = .sleeping ∧ (f (s.proc i)).chan = chanOf i → s.On i)
    (hzombie : (f (s.proc i)).state = .zombie →
      (s.proc i).state = .zombie ∧ (f (s.proc i)).parent = (s.proc i).parent)
    (hparent : ∀ r, (f (s.proc i)).parent = some r → (s.proc i).parent = some r ∨ ¬ s.On r) :
    Watch (s.upd i f) := by
  have hold (q : Slot) (hq : (s.upd i f).On q) : s.On q := by
    by_cases hqi : q = i
    · subst hqi
      rw [State.On, State.upd_self] at hq
      exact hq.elim .inl hon
    · rwa [State.On, State.upd_of_ne hqi] at hq
  refine h.outside rfl (fun _ _ => rfl) (fun q hq => ?_) (fun q hq => ?_) (fun q r hq hz => ?_)
    fun q r hr hq => ?_
  · by_cases hqi : q = i
    · subst hqi
      rw [State.upd_self]
      exact hrunning hq
    · rw [State.upd_of_ne hqi]
      exact h.running q hq
  · exact ⟨hold q hq, h.sleeping q (hold q hq)⟩
  · by_cases hqi : q = i
    · subst hqi
      rw [State.upd_self] at hq hz
      exact ⟨(hzombie hz).2 ▸ hq, (hzombie hz).1⟩
    · rw [State.upd_of_ne hqi] at hq hz
      exact ⟨hq, hz⟩
  · by_cases hqi : q = i
    · subst hqi
      rw [State.upd_self] at hq
      exact (hparent r hq).resolve_right fun hn => hn (hold r hr)
    · rwa [State.upd_of_ne hqi] at hq

/-- A process changes and keeps its parent. It does not go to sleep, and it does not exit. -/
theorem Watch.upd_awake (h : Watch s) (hsleeping : (f (s.proc i)).state ≠ .sleeping)
    (hzombie : (f (s.proc i)).state = .zombie → (s.proc i).state = .zombie)
    (hrunning : (s.pc i).Locked ∨ s.own i = true → (f (s.proc i)).state = .running)
    (hparent : (f (s.proc i)).parent = (s.proc i).parent) : Watch (s.upd i f) :=
  h.upd hrunning (fun hs => absurd hs.1 hsleeping) (fun hz => ⟨hzombie hz, hparent⟩)
    fun _ hr => .inl (hparent ▸ hr)

/-- A process moves on without the lock. -/
theorem Watch.goto (h : Watch s) (hp : ¬ (s.pc p).Locked) (hc : ¬ c.Locked) (hon : ¬ s.On p) :
    Watch (s.goto p c) := by
  have hother {q : Slot} (hq : q ≠ p) : (s.goto p c).pc q = s.pc q := update_of_ne hq _ _
  have hself : (s.goto p c).pc p = c := update_self _ _ _
  refine h.outside rfl (fun q hq => ?_) (fun q => h.running q) (fun q hq => ⟨hq, ?_⟩)
    (fun _ _ hq hz => ⟨hq, hz⟩) fun _ _ _ => id
  · have hqp : q ≠ p := by
      rintro rfl
      rw [hself] at hq
      exact hq.elim hp hc
    exact hother hqp
  · have hqp : q ≠ p := fun he => hon (he ▸ hq)
    rw [hother hqp, h.sleeping q hq]

theorem Watch.not_on_of_pc (h : Watch s) (hp : s.pc p ≠ .sleeping) : ¬ s.On p :=
  fun hon => hp (h.sleeping p hon)

theorem Watch.fork (h : Watch s) (hp : s.Free p) {np : Slot}
    (hnp : (s.proc np).state = .unused) (r : ForkResult) : Watch (fork s p np r) := by
  -- nobody is in the slot
  have hrunning : (s.pc np).Locked ∨ s.own np = true → False := fun ho => by
    have := h.running np ho
    rw [hnp] at this
    cases this
  have halloc : Watch (s.allocpid np) := h.congr rfl rfl rfl rfl
  have hfails (g : Proc → Proc) : Watch ((s.allocpid np).upd np fun x => (g x).free) :=
    halloc.upd (fun ho => (hrunning ho).elim) (fun hs => absurd hs.1 nofun) nofun nofun
  cases r with
  | noMemory => exact hfails fun x => { x with pid := s.nextpid, state := .used }
  | noCopy f =>
    exact hfails fun x => x.allocInit s.nextpid f.trapframe f.pagetable s.ticks f.qnumber
  | ok f =>
    have hupd : Watch ((s.allocpid np).upd np fun x =>
        copyProc (x.allocInit s.nextpid f.trapframe f.pagetable s.ticks f.qnumber) (s.proc p)) :=
      halloc.upd_awake nofun nofun (fun ho => (hrunning ho).elim) rfl
    have hpc : ((s.allocpid np).upd np fun x =>
        copyProc (x.allocInit s.nextpid f.trapframe f.pagetable s.ticks f.qnumber) (s.proc p)).pc
          p = .idle := hp.2
    exact hupd.goto (by rw [hpc]; exact id) id (hupd.not_on_of_pc (by rw [hpc]; nofun))

theorem Watch.link (h : Watch s) {np : Slot} (hp : s.pc p = .forked np)
    (hnp : (s.proc np).state = .used) : Watch (link s p np) := by
  have hrunning : (s.pc np).Locked ∨ s.own np = true → False := fun ho => by
    have := h.running np ho
    rw [hnp] at this
    cases this
  have hon : ¬ s.On p := h.not_on_of_pc (by rw [hp]; nofun)
  have hset : Watch
      (s.upd np fun x => { x with parent := some p, tickets := (s.proc p).tickets }) :=
    h.upd (fun ho => (hrunning ho).elim) (fun hs => absurd (hnp.symm.trans hs.1) nofun)
      (fun hz => absurd (hnp.symm.trans hz) nofun) fun r hr => .inr (Option.some.inj hr ▸ hon)
  have hpc : (s.upd np fun x => { x with parent := some p, tickets := (s.proc p).tickets }).pc p =
      .forked np := hp
  refine Watch.congr (hset.goto (p := p) (c := .linked np) (by rw [hpc]; exact id) id
    (hset.not_on_of_pc (by rw [hpc]; nofun))) ?_ rfl rfl rfl
  simp [Tree.link, State.setParent, State.goto, State.upd]

theorem Watch.start (h : Watch s) {np : Slot} (hp : s.pc p = .linked np) (hnp : s.pc np = .idle) :
    Watch ((s.upd np (·.setState .runnable)).goto p .idle) := by
  have hupd : Watch (s.upd np (·.setState .runnable)) :=
    h.upd_awake nofun nofun (fun ho => ?_) rfl
  · have hpc : (s.upd np (·.setState .runnable)).pc p = .linked np := hp
    exact hupd.goto (by rw [hpc]; exact id) id (hupd.not_on_of_pc (by rw [hpc]; nofun))
  · rcases ho with ho | ho
    · rw [hnp] at ho
      exact ho.elim
    · have := h.sleeping np (.inl ho)
      rw [hnp] at this
      cases this

/-- A process that was on its way to sleep is asleep. -/
theorem Watch.fallAsleep (h : Watch s) (hp : s.pc p = .sleeping) (hown : s.own p = true)
    (hlock : t.lock = s.lock) (hpc : t.pc = s.pc) (hproc : ∀ q, q ≠ p → t.proc q = s.proc q)
    (hstate : (t.proc p).state = .sleeping) (hparent : (t.proc p).parent = (s.proc p).parent)
    (howns : t.own = update s.own p false) : Watch t := by
  have hon : s.On p := .inl hown
  have hown' {q : Slot} (hq : q ≠ p) : t.own q = s.own q := by
    rw [howns, update_of_ne hq]
  refine h.outside hlock (fun q _ => congrFun hpc q) (fun q hq => ?_) (fun q hq => ?_)
    (fun q r hq hz => ?_) fun q r _ hq => ?_
  · have hqp : q ≠ p := by
      rintro rfl
      simp [hp, howns, Pc.Locked] at hq
    rw [hproc q hqp]
    exact h.running q (hown' hqp ▸ hq)
  · by_cases hqp : q = p
    · subst hqp
      exact ⟨hon, hpc ▸ hp⟩
    · rw [State.On, hown' hqp, hproc q hqp] at hq
      exact ⟨hq, hpc ▸ h.sleeping q hq⟩
  · have hqp : q ≠ p := by
      rintro rfl
      rw [hstate] at hz
      cases hz
    rw [hproc q hqp] at hq hz
    exact ⟨hq, hz⟩
  · by_cases hqp : q = p
    · subst hqp
      rwa [hparent] at hq
    · rwa [hproc q hqp] at hq

/-- A process goes to sleep, or wakes up. -/
theorem Watch.sleep (h : Watch s) (hp : s.pc p = .sleeping) (hrun : (s.proc p).state = .running) :
    Watch (sleep s p) := by
  rw [Tree.sleep]
  split_ifs with hown
  · exact h.fallAsleep hp hown rfl rfl (fun q hq => update_of_ne hq _ _)
      (by simp [State.upd]) (by simp [State.upd]) rfl
  · have hupd : Watch (s.upd p fun x => { x with chan := 0 }) :=
      h.upd_awake (by rw [hrun]; simp) (fun hz => hz) (fun _ => hrun) rfl
    refine hupd.goto ?_ id ?_
    · change ¬ (s.pc p).Locked
      rw [hp]
      exact id
    · rintro (ho | hs)
      · exact hown ho
      · simp [State.upd, hrun] at hs

end Outside

/-! ### Steps with the lock -/

section Locked

/-- What a waker does to a process. -/
theorem wake_cases (chan : Option Slot) (x : Proc) :
    (wake chan x).parent = x.parent ∧ (wake chan x).chan = x.chan ∧
      ((wake chan x).state = x.state ∨ x.state = .sleeping ∧ (wake chan x).state = .runnable) := by
  rw [wake]
  split_ifs with h
  · exact ⟨rfl, rfl, .inr ⟨h.1, rfl⟩⟩
  · exact ⟨rfl, rfl, .inl rfl⟩

theorem Watch.reparent (h : Watch s) {k : ℕ} {status : ℤ} (hp : s.pc p = .reparent k status) :
    Watch (reparent s p k status) := by
  have hlocked : (s.pc p).Locked := hp ▸ trivial
  have hcalm {r : Slot} (hr : s.On r) : s.Calm r := h.calm hlocked (by simp [hp]) hr
  rw [Tree.reparent]
  split_ifs with hk hchild
  · -- the child may be a zombie, so `initproc` has to be woken
    have hother {q : Slot} (hq : q ≠ ⟨k, hk⟩) :
        (s.setParent ⟨k, hk⟩ initproc).proc q = s.proc q := update_of_ne hq _ _
    have hself : (s.setParent ⟨k, hk⟩ initproc).proc ⟨k, hk⟩ =
        { s.proc ⟨k, hk⟩ with parent := some initproc } := update_self _ _ _
    have hstate (q : Slot) : ((s.setParent ⟨k, hk⟩ initproc).proc q).state = (s.proc q).state ∧
        ((s.setParent ⟨k, hk⟩ initproc).proc q).chan = (s.proc q).chan := by
      by_cases hq : q = ⟨k, hk⟩
      · rw [hq, hself]
        exact ⟨rfl, rfl⟩
      · rw [hother hq]
        exact ⟨rfl, rfl⟩
    have hon (q : Slot) (hq : (s.setParent ⟨k, hk⟩ initproc).On q) : s.On q := by
      rwa [State.On, (hstate q).1, (hstate q).2] at hq
    refine h.keep (c := .waking (some initproc) 0 (.reparent (k + 1) status)) hlocked trivial
      rfl rfl rfl (fun q hq => (hstate q).1.trans hq) hon (by simp) fun r hr => ?_
    by_cases hroot : r = initproc
    · exact .inr ⟨0, _, by rw [hroot], Nat.zero_le _⟩
    · refine .inl fun q hq => ⟨fun hz => ?_, fun _ => id⟩
      have hqk : q ≠ ⟨k, hk⟩ := by
        rintro rfl
        exact hroot (Option.some.inj ((congrArg Proc.parent hself).symm.trans hq)).symm
      exact (hcalm (hon r hr) q ((congrArg Proc.parent (hother hqk)).symm.trans hq)).1
        ((hstate q).1.symm.trans hz)
  · exact h.keep (c := .reparent (k + 1) status) hlocked trivial rfl rfl rfl (fun _ => id)
      (fun _ => id) (by simp) fun r hr => .inl fun q hq => ⟨(hcalm hr q hq).1, fun _ => id⟩
  · -- from now on the parent is not calm
    refine h.keep (c := .waking (s.proc p).parent 0 (.die status)) hlocked trivial rfl rfl rfl
      (fun _ => id) (fun _ => id) (by simp) fun r hr => ?_
    by_cases hparent : (s.proc p).parent = some r
    · exact .inr ⟨0, _, by rw [hparent], Nat.zero_le _⟩
    · refine .inl fun q hq => ⟨(hcalm hr q hq).1, fun hqp => ?_⟩
      subst hqp
      exact absurd hq hparent

theorem Watch.wakeup (h : Watch s) {chan : Option Slot} {k : ℕ} {next : Next}
    (hp : s.pc p = .waking chan k next) (ht : wakeup s p chan k next = some t) : Watch t := by
  have hlocked : (s.pc p).Locked := hp ▸ trivial
  -- who is not calm is woken by this loop, if it is not past
  have hcases {r : Slot} (hr : s.On r) : s.Calm r ∨ chan = some r ∧ k ≤ r := by
    rcases h.watched r hr with hc | ⟨j, k', next', hj, hw, hk'⟩
    · exact .inl hc
    · cases ((h.locked p).1 hlocked).symm.trans hj
      cases hp.symm.trans hw
      exact .inr ⟨rfl, hk'⟩
  have hdying (m : ℕ) : (Pc.waking chan m next).Dying ↔ (s.pc p).Dying := by
    rw [hp]
    cases next <;> rfl
  rw [Tree.wakeup] at ht
  split_ifs at ht with hk hself hown
  · cases ht
    refine h.keep (c := .waking chan (k + 1) next) hlocked trivial rfl rfl rfl (fun _ => id)
      (fun _ => id) (by simp) fun r hr => ?_
    rcases hcases hr with hc | ⟨rfl, hkr⟩
    · exact .inl fun q hq => ⟨(hc q hq).1, fun hqp => (hdying _).not.mpr (hqp ▸ (hc q hq).2)⟩
    · have hne : r.val ≠ k := by
        rintro rfl
        exact h.not_on hlocked (hself ▸ hr)
      exact .inr ⟨k + 1, next, rfl, by omega⟩
  · cases ht
    obtain ⟨hparent, hchan, hstate⟩ := wake_cases chan (s.proc ⟨k, hk⟩)
    have hon (q : Slot) (hq : (s.upd ⟨k, hk⟩ (wake chan)).On q) : s.On q := by
      by_cases hqk : q = ⟨k, hk⟩
      · subst hqk
        rw [State.On, State.upd_self] at hq
        refine hq.imp id fun hq => ?_
        rcases hstate with hst | ⟨-, hst⟩
        · rwa [hst, hchan] at hq
        · rw [hst] at hq
          exact absurd hq.1 (by simp)
      · rwa [State.On, State.upd_of_ne hqk] at hq
    have hparents (q : Slot) : ((s.upd ⟨k, hk⟩ (wake chan)).proc q).parent = (s.proc q).parent := by
      by_cases hqk : q = ⟨k, hk⟩
      · rw [hqk, State.upd_self, hparent]
      · rw [State.upd_of_ne hqk]
    have hzombie (q : Slot) (hq : (s.proc q).state ≠ .zombie) :
        ((s.upd ⟨k, hk⟩ (wake chan)).proc q).state ≠ .zombie := by
      by_cases hqk : q = ⟨k, hk⟩
      · subst hqk
        rw [State.upd_self]
        rcases hstate with hst | ⟨-, hst⟩ <;> rw [hst]
        · exact hq
        · simp
      · rwa [State.upd_of_ne hqk]
    refine h.keep (c := .waking chan (k + 1) next) hlocked trivial rfl rfl rfl (fun q hq => ?_) hon
      (by simp) fun r hr => ?_
    · change ((s.upd ⟨k, hk⟩ (wake chan)).proc q).state = _
      by_cases hqk : q = ⟨k, hk⟩
      · subst hqk
        rw [State.upd_self]
        rcases hstate with hst | ⟨hs, -⟩
        · rw [hst, hq]
        · rw [hq] at hs
          cases hs
      · rw [State.upd_of_ne hqk, hq]
    · rcases hcases (hon r hr) with hc | ⟨rfl, hkr⟩
      · refine .inl fun q hq => ?_
        obtain ⟨hz, hd⟩ := hc q ((hparents q).symm.trans hq)
        exact ⟨hzombie q hz, fun hqp => (hdying _).not.mpr (hqp ▸ hd)⟩
      · -- process `k` has just been woken, if it was asleep
        have hne : r ≠ ⟨k, hk⟩ := by
          rintro rfl
          rcases hr with hr | ⟨hr₁, hr₂⟩
          · exact hown hr
          · change ((s.upd _ (wake _)).proc _).state = _ at hr₁
            change ((s.upd _ (wake _)).proc _).chan = _ at hr₂
            rw [State.upd_self] at hr₁ hr₂
            rw [hchan] at hr₂
            rcases hstate with hst | ⟨-, hst⟩
            · rw [hst] at hr₁
              rw [wake, if_pos ⟨hr₁, hr₂⟩, hr₁] at hst
              cases hst
            · rw [hst] at hr₁
              cases hr₁
        have : r.val ≠ k := fun he => hne (Fin.ext he)
        exact .inr ⟨k + 1, next, rfl, by omega⟩
  · cases ht
    have hlast : next.pc.Locked := by cases next <;> trivial
    have hdying' : next.pc.Dying ↔ (s.pc p).Dying := by
      rw [hp]
      cases next <;> rfl
    refine h.keep hlocked hlast rfl rfl rfl (fun _ => id) (fun _ => id) ?_ fun r hr => ?_
    · cases next <;> simp [Next.pc]
    · rcases hcases hr with hc | ⟨-, hkr⟩
      · exact .inl fun q hq => ⟨(hc q hq).1, fun hqp => hdying'.not.mpr (hqp ▸ (hc q hq).2)⟩
      · exact absurd (Nat.lt_of_le_of_lt hkr r.isLt) hk

theorem Watch.die (h : Watch s) {status : ℤ} (hp : s.pc p = .dying status) :
    Watch (die s p status) := by
  have hlocked : (s.pc p).Locked := hp ▸ trivial
  have hcalm {r : Slot} (hr : s.On r) : s.Calm r := h.calm hlocked (by simp [hp]) hr
  rw [Tree.die]
  generalize hg :
    (fun x : Proc => { x with xstate := status, state := .zombie, etime := s.ticks }) = g
  have hzombie : (g (s.proc p)).state = .zombie := by rw [← hg]
  have hparent : (g (s.proc p)).parent = (s.proc p).parent := by rw [← hg]
  have hon (q : Slot) (hq : (s.upd p g).On q) : s.On q := by
    by_cases hqp : q = p
    · subst hqp
      rcases hq with hq | hq
      · exact .inl hq
      · rw [State.upd_self, hzombie] at hq
        exact absurd hq.1 (by simp)
    · rwa [State.On, State.upd_of_ne hqp] at hq
  refine h.giveBack (c := .idle) hlocked id rfl rfl (fun q hq => ?_) (fun q hq => .inl (hon q hq))
    fun r hr q hq hz => ?_
  · have hqp : q ≠ p := by
      rintro rfl
      exact h.not_on hlocked (.inl hq)
    exact (congrArg Proc.state (State.upd_of_ne hqp s g)).trans (h.running q (.inr hq))
  · by_cases hqp : q = p
    · -- the parent has been woken, and has not been able to go to sleep again
      subst hqp
      have hq' : (s.proc q).parent = some r := by
        rw [← hparent, ← State.upd_self s q g]
        exact hq
      exact (hcalm (hon r hr) q hq').2 (hp ▸ trivial)
    · exact (hcalm (hon r hr) q ((congrArg Proc.parent (State.upd_of_ne hqp s g)).symm.trans hq)).1
        ((congrArg Proc.state (State.upd_of_ne hqp s g)).symm.trans hz)

/-- `wait` frees a child. -/
theorem Watch.reap (h : Watch s) (hp : (s.pc p).Locked) (hq : (s.proc q).state = .zombie)
    (hcalm : ∀ r, s.On r → s.Calm r) : Watch ((s.upd q Proc.free).release p) := by
  have hon (i : Slot) (hi : (s.upd q Proc.free).On i) : s.On i := by
    by_cases hiq : i = q
    · subst hiq
      rcases hi with hi | hi
      · exact .inl hi
      · rw [State.upd_self] at hi
        exact absurd hi.1 nofun
    · rwa [State.On, State.upd_of_ne hiq] at hi
  refine h.giveBack (c := .idle) hp id rfl rfl (fun i hi => ?_) (fun i hi => .inl (hon i hi))
    fun r hr i hi hz => ?_
  · have hiq : i ≠ q := by
      rintro rfl
      have := h.running i (.inr hi)
      rw [hq] at this
      cases this
    exact (congrArg Proc.state (State.upd_of_ne hiq s Proc.free)).trans (h.running i (.inr hi))
  · have hiq : i ≠ q := by
      rintro rfl
      exact absurd ((congrArg Proc.parent (State.upd_self s i Proc.free)).symm.trans hi) nofun
    exact (hcalm r (hon r hr) i ((congrArg Proc.parent (State.upd_of_ne hiq s Proc.free)).symm.trans
      hi)).1 ((congrArg Proc.state (State.upd_of_ne hiq s Proc.free)).symm.trans hz)

theorem Watch.scan (h : Watch s) {k : ℕ} {havekids copyout : Bool} (hp : s.pc p = .scan k havekids)
    (ht : scan s p k havekids copyout = some t) : Watch t := by
  have hlocked : (s.pc p).Locked := hp ▸ trivial
  have hcalm (r : Slot) (hr : s.On r) : s.Calm r := h.calm hlocked (by simp [hp]) hr
  have hrelease : Watch (s.release p) :=
    h.giveBack (c := .idle) hlocked id rfl rfl (fun q hq => h.running q (.inr hq))
      (fun _ hq => .inl hq) fun r hr q hq => (hcalm r hr q hq).1
  -- the slot that has been looked at is no zombie child
  have hnext (b : Bool) (hk : k < NPROC)
      (hchild : (s.proc ⟨k, hk⟩).parent = some p → (s.proc ⟨k, hk⟩).state ≠ .zombie) :
      Watch (s.goto p (.scan (k + 1) b)) := by
    refine h.keep hlocked (c := .scan (k + 1) b) trivial rfl rfl rfl (fun _ => id) (fun _ => id) ?_
      fun r hr => .inl fun q hq => ⟨(hcalm r hr q hq).1, fun _ => id⟩
    rintro _ _ ⟨⟩ q hq hqp
    by_cases hqk : q.val = k
    · have hq' : q = ⟨k, hk⟩ := Fin.ext hqk
      subst hq'
      exact hchild hqp
    · exact h.scanned p k havekids hp q (by omega) hqp
  rw [Tree.scan] at ht
  split_ifs at ht with hk hchild hown hzombie hcopy hret <;> cases ht
  · exact h.reap hlocked hzombie hcalm
  · exact hrelease
  · exact hnext true hk fun _ => hzombie
  · exact hnext havekids hk fun hc => absurd hc hchild
  · exact hrelease
  · have hother {q : Slot} (hq : q ≠ p) : update s.own p true q = s.own q :=
      update_of_ne hq _ _
    refine h.giveBack (c := .sleeping) hlocked id rfl rfl (fun q hq => ?_) (fun q hq => ?_)
      fun r hr q hq => ?_
    · by_cases hqp : q = p
      · exact hqp ▸ h.running p (.inl hlocked)
      · exact h.running q (.inr ((hother hqp).symm.trans hq))
    · by_cases hqp : q = p
      · exact .inr ⟨hqp, rfl⟩
      · exact .inl (hq.imp (hother hqp).symm.trans id)
    · by_cases hrp : r = p
      · -- everybody has been looked at
        subst hrp
        have := q.isLt
        exact h.scanned r k havekids hp q (by omega) hq
      · exact (hcalm r (hr.imp (hother hrp).symm.trans id) q hq).1

end Locked

/-! ### Runs -/

theorem Watch.run (h : Watch s) (hf : s.Family) (hrun : (s.proc p).state = .running)
    {copyout : Bool} (ht : Run s p copyout t) : Watch t := by
  cases ht with
  | blocked hp =>
    have hupd : Watch (s.upd p fun x => { x with chan := 0 }) :=
      h.upd_awake (by rw [hrun]; nofun) id (fun _ => hrun) rfl
    have hpc : (s.upd p fun x => { x with chan := 0 }).pc p = .blocked := hp
    exact hupd.goto (by rw [hpc]; exact id) id (hupd.not_on_of_pc (by rw [hpc]; nofun))
  | @link np hp hl =>
    have hfits := hf.fits p
    rw [hp] at hfits
    exact h.link hp (phaseOf_eq_embryo.mp (hfits.embryo np (.inl rfl)))
  | @start np hp =>
    have hfits := hf.fits p
    rw [hp] at hfits
    refine h.start hp ?_
    by_contra hnp
    have halive := (hf.fits np).alive hnp
    rw [hfits.embryo np (.inr rfl)] at halive
    cases halive
  | reparent hp => exact h.reparent hp
  | wakeup hp ht => exact h.wakeup hp ht
  | die hp => exact h.die hp
  | wait hp ht =>
    exact h.acquire ht trivial id (fun _ _ hc => by cases hc; rfl) hrun
      (h.not_on_of_pc (by rw [hp]; nofun))
  | scan hp ht => exact h.scan hp ht
  | sleep hp => exact h.sleep hp hrun

theorem step_watch {e : Event} (hf : s.Family) (h : Watch s) (ht : step s e = some t) :
    Watch t := by
  -- a process that is in no call is not asleep
  have hfree {p : Slot} (hp : s.Free p) : ¬ (s.pc p).Locked ∧ ¬ s.On p :=
    ⟨by rw [hp.2]; exact id, h.not_on_of_pc (by rw [hp.2]; simp)⟩
  cases step_inv ht with
  | fork hp hnp => exact h.fork hp hnp _
  | exit hp hroot ht => exact h.acquire ht trivial id (by simp) hp.1 (hfree hp).2
  | wait hp => exact h.goto (hfree hp).1 id (hfree hp).2
  | run hrun ht => exact h.run hf hrun ht
  | @kill p hown =>
    refine h.upd_awake ?_ ?_ (fun hr => ?_) rfl <;> simp only [killed]
    · split_ifs with hs <;> simp_all
    · split_ifs with hs <;> simp_all
    · rw [h.running p hr]
      rfl
  | @syscall p num hp =>
    rw [count]
    split_ifs
    · split
      · exact h
      · rename_i r _
        refine Watch.congr (h.upd (i := r) (f := fun x => { x with
          syscallCount := update x.syscallCount num.toNat (x.syscallCount num.toNat + 1) })
          (h.running r) .inr (fun hz => ⟨hz, rfl⟩) fun _ => .inl) rfl rfl rfl rfl
    · exact h
  | dispatch hp => exact h.upd_awake (by simp) (by simp) (fun _ => rfl) rfl
  | @yield p hp hl hown =>
    refine h.upd_awake (by simp) (by simp) (fun hr => ?_) rfl
    rcases hr with hr | hr
    · exact absurd ((h.locked p).1 hr) hl
    · rw [hown] at hr
      cases hr
  | @sleepOn p chan hp hchan =>
    have hgoto : Watch (s.goto p .blocked) := h.goto (hfree hp).1 id (hfree hp).2
    refine hgoto.upd (i := p) (f := fun x => { x with chan := chan, state := .sleeping }) ?_ ?_
      (by simp) fun _ => .inl
    · rintro (hr | hr)
      · simp [State.goto, Pc.Locked] at hr
      · exact absurd (.inl hr) (hfree hp).2
    · -- the channel is not that of a process
      rintro ⟨-, heq⟩
      have hlt := p.isLt
      simp only [chanOf] at heq
      omega
  | @wakeupOn p hp hchan =>
    refine h.upd_awake (by simp) (by simp) (fun hr => ?_) rfl
    have := h.running p hr
    rw [hp] at this
    cases this
  | clockintr hs => exact h.congr rfl rfl rfl rfl
  | @charge k hk hs hown =>
    have hupd : Watch (s.upd ⟨k, hk⟩ charge) := by
      refine h.upd ?_ ?_ ?_ ?_ <;> simp only [charge_state, charge_chan, charge_parent]
      · exact h.running _
      · exact .inr
      · exact fun hz => ⟨hz, trivial⟩
      · exact fun _ => .inl
    exact hupd.congr rfl rfl rfl rfl
  | swept hk hs => exact h.congr rfl rfl rfl rfl

end Watch

theorem watch_boot (f : Fresh) : Watch (boot f) := by
  have hon (p : Slot) : ¬ (boot f).On p := by
    by_cases hp : p = initproc <;> simp [State.On, boot, hp, Proc.zero]
  refine ⟨fun p => ?_, fun p hp => ?_, fun p hp => absurd hp (hon p), fun p k b hp => ?_,
    fun p hp => absurd hp (hon p)⟩
  · simp [boot, Pc.Locked]
  · simp [boot, Pc.Locked] at hp
  · cases hp

/-- **No missed exit.** When `wait_lock` is free, no process sleeps in `wait` or `waitx` that has a
zombie among its children. -/
theorem no_missed_exit (f : Fresh) (es : List Event) {s : State}
    (hrun : runEvents step (boot f) es = some s) (hfree : s.lock = none) (p q : Slot)
    (hsleep : (s.proc p).state = .sleeping ∧ (s.proc p).chan = chanOf p)
    (hchild : (s.proc q).parent = some p) : (s.proc q).state ≠ .zombie := by
  have h : s.Family ∧ Watch s := runEvents_invariant (I := fun s => s.Family ∧ Watch s)
    (fun _ _ _ hs ht => ⟨step_family hs.1 ht, step_watch hs.1 hs.2 ht⟩)
    ⟨family_boot f, watch_boot f⟩ hrun
  exact (h.2.calm_of_free hfree (.inr hsleep) q hchild).1

/-- `initproc` has a child and waits for it. -/
def waitForChild : List Event :=
  [.dispatch 0, .fork 0 1 (.ok ⟨5, 6, 1⟩), .run 0 true, .run 0 true, .wait 0] ++
    List.replicate 67 (.run 0 true)

theorem no_missed_exit_waitForChild :
    ∃ s, runEvents step (boot ⟨1, 2, 0⟩) waitForChild = some s ∧ s.lock = none ∧
      (s.proc 0).state = .sleeping ∧ (s.proc 1).parent = some 0 ∧ (s.proc 1).state ≠ .zombie := by
  obtain ⟨s, hs, hlock, hsleep, hparent⟩ : ∃ s, runEvents step (boot ⟨1, 2, 0⟩) waitForChild =
      some s ∧ s.lock = none ∧ ((s.proc 0).state = .sleeping ∧ (s.proc 0).chan = chanOf 0) ∧
      (s.proc 1).parent = some 0 := by decide +kernel
  exact ⟨s, hs, hlock, hsleep.1, hparent,
    no_missed_exit ⟨1, 2, 0⟩ waitForChild hs hlock 0 1 hsleep hparent⟩

end Xv6.Tree
