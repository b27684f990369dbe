import Xv6.Lib.Forest
import Xv6.Tree.Basic

/-!
# Every process has its parent

The process table is a family in the sense of `Xv6.Lib.Forest`: `fork` brings a member into the
world, gives it a parent and lets it grow, `exit` gives the children away and dies, `wait` buries.
Each step of the system is one of these, or does nothing to the family.
-/

namespace Xv6.Tree

open Function (update update_self update_of_ne)

/-! ### The family in the process table -/

/-- What a slot is in the family. -/
def phaseOf (x : Proc) : Phase :=
  match x.state with
  | .unused => .absent
  | .used => .embryo
  | .sleeping | .runnable | .running => .alive
  | .zombie => .dead

/-- The processes as a forest. -/
def State.forest (s : State) : Forest Slot where
  phase := phaseOf ∘ s.proc
  parent := Proc.parent ∘ s.proc
  age := s.serial
  kin := s.kin
  next := s.allocs

/-- The process has created `np` and is not done with it. -/
def Pc.Forks (pc : Pc) (np : Slot) : Prop := pc = .forked np ∨ pc = .linked np

/-- The process is in `exit`. -/
def Pc.Exits : Pc → Prop
  | .reparent _ _ | .waking _ _ _ | .dying _ => True
  | _ => False

/-- How far `reparent` has come. -/
def Pc.past : Pc → ℕ
  | .reparent k _ | .waking _ _ (.reparent k _) => k
  | .waking _ _ (.die _) | .dying _ => NPROC
  | _ => 0

/-- Where a process is fits the family. -/
structure Fits (F : Forest Slot) (p : Slot) (c : Pc) : Prop where
  alive : c ≠ .idle → F.phase p = .alive
  embryo : ∀ np, c.Forks np → F.phase np = .embryo
  younger : ∀ np, c.Forks np → F.age p < F.age np
  linked : ∀ np, c = .linked np → F.parent np ≠ none
  exits : c.Exits → p ≠ initproc
  past : ∀ q : Slot, q.val < c.past → F.parent q ≠ some p

/-- The family is as it should be, and the processes know what they do with it. -/
structure Family (F : Forest Slot) (pc : Slot → Pc) (pid : Slot → ℤ) (nextpid : ℤ) : Prop where
  ok : F.Ok initproc
  fits : ∀ p, Fits F p (pc p)
  one : ∀ p q np, (pc p).Forks np → (pc q).Forks np → p = q
  pid_eq : ∀ p, F.phase p ≠ .absent → pid p = wrapInt (F.age p + 1)
  nextpid_eq : nextpid = wrapInt (F.next + 1)

section Family

variable {F F' : Forest Slot} {pc : Slot → Pc} {pid pid' : Slot → ℤ} {nextpid nextpid' : ℤ}
  {p q np : Slot} {c c' : Pc}

theorem Pc.exits_of_past {c : Pc} {k : ℕ} (h : k < c.past) : c.Exits := by
  cases c with
  | reparent => trivial
  | waking => trivial
  | dying => trivial
  | _ => exact absurd h (Nat.not_lt_zero _)

theorem fits_idle : Fits F p .idle :=
  ⟨fun h => absurd rfl h, fun _ h => absurd h (by simp [Pc.Forks]),
    fun _ h => absurd h (by simp [Pc.Forks]), nofun, nofun, nofun⟩

/-- What happens to the others does not matter to a process. -/
theorem Fits.mono (h : Fits F p c) (halive : F.phase p = .alive → F'.phase p = .alive)
    (hage : ∀ q, F.phase q ≠ .absent → F'.age q = F.age q)
    (hembryo : ∀ np, c.Forks np → F'.phase np = F.phase np)
    (hlinked : ∀ np, c = .linked np → F.parent np ≠ none → F'.parent np ≠ none)
    (hpast : ∀ q, c.Exits → F'.parent q = some p → F.parent q = some p) : Fits F' p c := by
  refine ⟨fun hc => halive (h.alive hc), fun np hnp => (hembryo np hnp).trans (h.embryo np hnp),
    fun np hnp => ?_, fun np hnp => hlinked np hnp (h.linked np hnp), h.exits,
    fun q hq hp => h.past q hq (hpast q (Pc.exits_of_past hq) hp)⟩
  have hp := h.alive fun hc => by rcases hnp with hnp | hnp <;> cases hnp.symm.trans hc
  rw [hage p (by rw [hp]; decide), hage np (by rw [h.embryo np hnp]; decide)]
  exact h.younger np hnp

/-- Process `p` does something. -/
theorem Family.act (h : Family F pc pid nextpid) (hok : F'.Ok initproc)
    (hothers : ∀ r, r ≠ p → Fits F' r (pc r)) (hself : Fits F' p c)
    (hone : ∀ np, c.Forks np → ∀ r, r ≠ p → ¬ (pc r).Forks np)
    (hpid : ∀ q, F'.phase q ≠ .absent → pid' q = wrapInt (F'.age q + 1))
    (hnext : nextpid' = wrapInt (F'.next + 1)) :
    Family F' (update pc p c) pid' nextpid' := by
  refine ⟨hok, fun r => ?_, fun q r np hq hr => ?_, hpid, hnext⟩
  · by_cases hr : r = p
    · subst hr
      rwa [update_self]
    · rw [update_of_ne hr]
      exact hothers r hr
  · by_cases hqp : q = p <;> by_cases hrp : r = p
    · exact hqp.trans hrp.symm
    · rw [hqp, update_self] at hq
      rw [update_of_ne hrp] at hr
      exact absurd hr (hone np hq r hrp)
    · rw [hrp, update_self] at hr
      rw [update_of_ne hqp] at hq
      exact absurd hq (hone np hr q hqp)
    · rw [update_of_ne hqp] at hq
      rw [update_of_ne hrp] at hr
      exact h.one q r np hq hr

/-- A process does nothing to the family. -/
theorem Family.move (h : Family F pc pid nextpid) (hself : Fits F p c)
    (hforks : ∀ np, ¬ c.Forks np) : Family F (update pc p c) pid nextpid :=
  h.act h.ok (fun r _ => h.fits r) hself (fun np hnp => absurd hnp (hforks np)) h.pid_eq
    h.nextpid_eq

theorem wrapInt_add_one (x : ℤ) : wrapInt (wrapInt x + 1) = wrapInt (x + 1) := by
  rw [wrapInt, wrapInt, wrapInt, Int.bmod_add_bmod]

theorem Family.nextpid_succ (h : Family F pc pid nextpid) :
    wrapInt (nextpid + 1) = wrapInt (((F.next + 1 : ℕ) : ℤ) + 1) := by
  rw [h.nextpid_eq, wrapInt_add_one, Nat.cast_add, Nat.cast_one]

theorem Family.ne_of_absent (h : Family F pc pid nextpid) (hnp : F.phase np = .absent) {r : Slot}
    (hr : (pc p).Forks r) : r ≠ np := by
  rintro rfl
  have := (h.fits p).embryo r hr
  rw [hnp] at this
  cases this

/-- What is born into a free slot does not matter to anybody. -/
theorem Family.fits_born (h : Family F pc pid nextpid) (hnp : F.phase np = .absent) (r : Slot) :
    Fits (F.born np) r (pc r) := by
  have hne {q : Slot} (hq : F.phase q ≠ .absent) : q ≠ np := fun he => hq (he ▸ hnp)
  refine (h.fits r).mono (fun hr => ?_) (fun q hq => update_of_ne (hne hq) _ _)
    (fun q hq => ?_) (fun _ _ => id) fun _ _ => id
  · exact (update_of_ne (hne (by rw [hr]; decide)) _ _).trans hr
  · exact update_of_ne (h.ne_of_absent hnp hq) _ _

/-- `fork` has found a free slot. -/
theorem Family.fork (h : Family F pc pid nextpid) (hp : F.phase p = .alive)
    (hnp : F.phase np = .absent) :
    Family (F.born np) (update pc p (.forked np)) (update pid np nextpid)
      (wrapInt (nextpid + 1)) := by
  have hpnp : p ≠ np := by
    rintro rfl
    rw [hp] at hnp
    cases hnp
  have hphase : (F.born np).phase np = .embryo := update_self _ _ _
  have hage : (F.born np).age np = F.next := update_self _ _ _
  refine h.act (h.ok.born hnp) (fun r _ => h.fits_born hnp r) ?_ ?_ (fun q hq => ?_) h.nextpid_succ
  · refine ⟨fun _ => (update_of_ne hpnp _ _).trans hp, ?_, ?_, nofun, nofun, nofun⟩ <;>
      rintro r (hr | hr) <;> cases hr
    · exact hphase
    · rw [hage, Forest.born_age, update_of_ne hpnp]
      exact h.ok.age_lt p (by rw [hp]; decide)
  · rintro r (hr | hr) q - hq <;> cases hr
    exact h.ne_of_absent hnp hq rfl
  · by_cases hqn : q = np
    · rw [hqn, update_self, hage, h.nextpid_eq]
    · have hq' : F.phase q ≠ .absent := by rwa [Forest.born_phase, update_of_ne hqn] at hq
      rw [update_of_ne hqn, Forest.born_age, update_of_ne hqn]
      exact h.pid_eq q hq'

/-- `fork` has found a free slot and gives it back. -/
theorem Family.forkFails (h : Family F pc pid nextpid) (hnp : F.phase np = .absent) :
    Family ((F.born np).bury np) pc (update pid np 0) (wrapInt (nextpid + 1)) := by
  have hphase : (F.born np).phase np = .embryo := update_self _ _ _
  refine ⟨(h.ok.born hnp).bury (by rw [hphase]; decide), fun r => ?_, h.one, fun q hq => ?_,
    h.nextpid_succ⟩
  · refine (h.fits_born hnp r).mono (fun hr => ?_) (fun _ _ => rfl) (fun q hq => ?_)
      (fun q hq hp => ?_) fun q _ hq => ?_
    · have hne : r ≠ np := by
        rintro rfl
        rw [hphase] at hr
        cases hr
      exact (update_of_ne hne _ _).trans hr
    · exact update_of_ne (h.ne_of_absent hnp hq) _ _
    · rwa [Forest.bury_parent, update_of_ne (h.ne_of_absent hnp (.inr hq))]
    · have hne : q ≠ np := by
        rintro rfl
        rw [Forest.bury_parent, update_self] at hq
        cases hq
      rwa [Forest.bury_parent, update_of_ne hne] at hq
  · have hqn : q ≠ np := by
      rintro rfl
      exact hq (update_self _ _ _)
    rw [Forest.bury_phase, update_of_ne hqn, Forest.born_phase, update_of_ne hqn]
      at hq
    rw [update_of_ne hqn, Forest.bury_age, Forest.born_age, update_of_ne hqn]
    exact h.pid_eq q hq

/-- `fork` sets the parent. -/
theorem Family.link (h : Family F pc pid nextpid) (hp : pc p = .forked np) :
    Family (F.link np p) (update pc p (.linked np)) pid nextpid := by
  have hfits := h.fits p
  rw [hp] at hfits
  have hembryo := hfits.embryo np (.inl rfl)
  have halive := hfits.alive nofun
  have hroot : np ≠ initproc := by
    rintro rfl
    rw [h.ok.root_alive] at hembryo
    cases hembryo
  refine h.act (h.ok.link hroot (by rw [hembryo]; decide) halive (hfits.younger np (.inl rfl)))
    (fun r hr => ?_) ?_ ?_ h.pid_eq h.nextpid_eq
  · refine (h.fits r).mono id (fun _ _ => rfl) (fun _ _ => rfl) (fun q _ hq => ?_) fun q _ hq => ?_
    · by_cases hqn : q = np
      · rw [hqn, Forest.link_parent, update_self]
        exact nofun
      · rwa [Forest.link_parent, update_of_ne hqn]
    · by_cases hqn : q = np
      · rw [hqn, Forest.link_parent, update_self] at hq
        exact absurd (Option.some.inj hq).symm hr
      · rwa [Forest.link_parent, update_of_ne hqn] at hq
  · refine ⟨fun _ => halive, ?_, ?_, ?_, nofun, nofun⟩
    · rintro r (hr | hr) <;> cases hr
      exact hembryo
    · rintro r (hr | hr) <;> cases hr
      exact hfits.younger np (.inl rfl)
    · rintro r hr
      cases hr
      rw [Forest.link_parent, update_self]
      exact nofun
  · rintro r (hr | hr) q hq hqr <;> cases hr
    exact hq (h.one q p np hqr (hp ▸ .inl rfl))

/-- `fork` makes the new process runnable. -/
theorem Family.start (h : Family F pc pid nextpid) (hp : pc p = .linked np) :
    Family (F.grow np) (update pc p .idle) pid nextpid := by
  have hfits := h.fits p
  rw [hp] at hfits
  have hembryo := hfits.embryo np (.inr rfl)
  have hnp : F.phase np ≠ .absent := by rw [hembryo]; decide
  refine h.act (h.ok.grow hnp (hfits.linked np rfl)) (fun r hr => ?_) fits_idle
    (fun _ hc => absurd hc (by simp [Pc.Forks])) (fun q hq => ?_) h.nextpid_eq
  · refine (h.fits r).mono (fun hph => ?_) (fun _ _ => rfl) (fun q hq => ?_) (fun _ _ => id)
      fun _ _ => id
    · by_cases hrn : r = np
      · rw [hrn, Forest.grow_phase, update_self]
      · rwa [Forest.grow_phase, update_of_ne hrn]
    · have hqn : q ≠ np := by
        rintro rfl
        exact hr (h.one r p q hq (hp ▸ .inr rfl))
      exact update_of_ne hqn _ _
  · refine h.pid_eq q fun hph => ?_
    by_cases hqn : q = np
    · exact hnp (hqn ▸ hph)
    · rw [Forest.grow_phase, update_of_ne hqn] at hq
      exact hq hph

/-- `reparent` gives a child of `p` to `initproc`. -/
theorem Family.adopt (h : Family F pc pid nextpid) (chan : Option Slot) {k : ℕ} {status : ℤ}
    (hk : k < NPROC) (hp : pc p = .reparent k status) (hq : F.parent ⟨k, hk⟩ = some p) :
    Family (F.link ⟨k, hk⟩ initproc)
      (update pc p (.waking chan 0 (.reparent (k + 1) status))) pid nextpid := by
  have hfits := h.fits p
  rw [hp] at hfits
  have hroot := hfits.exits trivial
  refine h.act (h.ok.adopt hq) (fun r _ => ?_) ?_ (fun _ hc => absurd hc (by simp [Pc.Forks]))
    h.pid_eq h.nextpid_eq
  · refine (h.fits r).mono id (fun _ _ => rfl) (fun _ _ => rfl) (fun i _ hi => ?_) fun i hr hi => ?_
    · by_cases hik : i = ⟨k, hk⟩
      · rw [hik, Forest.link_parent, update_self]
        exact nofun
      · rwa [Forest.link_parent, update_of_ne hik]
    · by_cases hik : i = ⟨k, hk⟩
      · rw [hik, Forest.link_parent, update_self] at hi
        exact absurd (Option.some.inj hi).symm ((h.fits r).exits hr)
      · rwa [Forest.link_parent, update_of_ne hik] at hi
  · refine ⟨fun _ => hfits.alive nofun, fun _ hc => absurd hc (by simp [Pc.Forks]),
      fun _ hc => absurd hc (by simp [Pc.Forks]), nofun, fun _ => hroot, fun i hi hip => ?_⟩
    by_cases hik : i = ⟨k, hk⟩
    · rw [hik, Forest.link_parent, update_self] at hip
      exact hroot (Option.some.inj hip).symm
    · rw [Forest.link_parent, update_of_ne hik] at hip
      have hne : i.val ≠ k := fun he => hik (Fin.ext he)
      have hlt : i.val < k + 1 := hi
      exact hfits.past i (by change i.val < k; omega) hip

/-- The end of `exit`. -/
theorem Family.die (h : Family F pc pid nextpid) {status : ℤ} (hp : pc p = .dying status) :
    Family (F.die p) (update pc p .idle) pid nextpid := by
  have hfits := h.fits p
  rw [hp] at hfits
  have halive := hfits.alive nofun
  refine h.act (h.ok.die (hfits.exits trivial) halive fun k => hfits.past k k.isLt) (fun r hr => ?_)
    fits_idle (fun _ hc => absurd hc (by simp [Pc.Forks])) (fun q hq => ?_) h.nextpid_eq
  · refine (h.fits r).mono (fun hph => (update_of_ne hr _ _).trans hph) (fun _ _ => rfl)
      (fun q hq => ?_) (fun _ _ => id) fun _ _ => id
    have hqp : q ≠ p := by
      rintro rfl
      have := (h.fits r).embryo q hq
      rw [halive] at this
      cases this
    exact update_of_ne hqp _ _
  · refine h.pid_eq q fun hph => ?_
    by_cases hqp : q = p
    · rw [hqp, halive] at hph
      cases hph
    · rw [Forest.die_phase, update_of_ne hqp] at hq
      exact hq hph

/-- `wait` frees a child that has exited. -/
theorem Family.reap (h : Family F pc pid nextpid) (hq : F.phase q = .dead) :
    Family (F.bury q) (update pc p .idle) (update pid q 0) nextpid := by
  have hne {r : Slot} (hr : F.phase r ≠ .dead) : r ≠ q := fun he => hr (he ▸ hq)
  refine h.act (h.ok.bury (by rw [hq]; decide)) (fun r _ => ?_) fits_idle
    (fun _ hc => absurd hc (by simp [Pc.Forks])) (fun r hr => ?_) h.nextpid_eq
  · refine (h.fits r).mono (fun hph => ?_) (fun _ _ => rfl) (fun i hi => ?_) (fun i hi hp => ?_)
      fun i _ hi => ?_
    · exact (update_of_ne (hne (by rw [hph]; decide)) _ _).trans hph
    · exact update_of_ne (hne (by rw [(h.fits r).embryo i hi]; decide)) _ _
    · rwa [Forest.bury_parent, update_of_ne (hne (by rw [(h.fits r).embryo i (.inr hi)]; decide))]
    · have hiq : i ≠ q := by
        rintro rfl
        rw [Forest.bury_parent, update_self] at hi
        cases hi
      rwa [Forest.bury_parent, update_of_ne hiq] at hi
  · have hrq : r ≠ q := by
      rintro rfl
      exact hr (update_self _ _ _)
    rw [Forest.bury_phase, update_of_ne hrq] at hr
    rw [update_of_ne hrq]
    exact h.pid_eq r hr

end Family

/-! ### Steps -/

/-- The process table is a family. -/
def State.Family (s : State) : Prop := Tree.Family s.forest s.pc (Proc.pid ∘ s.proc) s.nextpid

section Steps

variable {s t : State} {p q np : Slot} {f : Proc → Proc}

/-- The change of a process does not matter to the family. -/
def Quiet (f : Proc → Proc) (x : Proc) : Prop :=
  phaseOf (f x) = phaseOf x ∧ (f x).parent = x.parent ∧ (f x).pid = x.pid

theorem comp_upd {β : Type*} (g : Proc → β) (s : State) (i : Slot) (f : Proc → Proc) :
    g ∘ (s.upd i f).proc = update (g ∘ s.proc) i (g (f (s.proc i))) :=
  Function.comp_update g s.proc i _

/-- A field that does not change. -/
theorem comp_upd_self {β : Type*} {g : Proc → β} {i : Slot} (h : g (f (s.proc i)) = g (s.proc i)) :
    g ∘ (s.upd i f).proc = g ∘ s.proc := by
  rw [comp_upd, h]
  exact Function.update_eq_self i _

theorem forest_upd (s : State) (i : Slot) (f : Proc → Proc) :
    (s.upd i f).forest = { s.forest with
      phase := update s.forest.phase i (phaseOf (f (s.proc i)))
      parent := update s.forest.parent i (f (s.proc i)).parent } := by
  rw [State.forest, comp_upd, comp_upd]
  rfl

/-- The parent does not change. -/
theorem forest_upd_phase {i : Slot} (h : (f (s.proc i)).parent = (s.proc i).parent) :
    (s.upd i f).forest =
      { s.forest with phase := update s.forest.phase i (phaseOf (f (s.proc i))) } := by
  rw [State.forest, comp_upd, comp_upd_self h]
  rfl

theorem State.Family.upd (h : s.Family) {i : Slot} (hf : Quiet f (s.proc i)) :
    (s.upd i f).Family := by
  obtain ⟨hphase, hparent, hpid⟩ := hf
  have hforest : (s.upd i f).forest = s.forest := by
    rw [State.forest, comp_upd_self hphase, comp_upd_self hparent]
    rfl
  rw [State.Family, hforest, comp_upd_self hpid]
  exact h

theorem State.Family.goto (h : s.Family) {c : Pc} (hself : Fits s.forest p c)
    (hforks : ∀ np, ¬ c.Forks np) : (s.goto p c).Family :=
  Tree.Family.move h hself hforks

theorem State.Family.idle (h : s.Family) : (s.goto p .idle).Family :=
  h.goto fits_idle (by simp [Pc.Forks])

theorem forest_setParent (s : State) (np p : Slot) :
    (s.setParent np p).forest = s.forest.link np p := by
  have hphase : phaseOf ∘ (s.upd np fun x => { x with parent := some p }).proc = phaseOf ∘ s.proc :=
    comp_upd_self rfl
  simp only [State.forest, State.setParent, hphase, comp_upd]
  rfl

theorem pid_setParent (s : State) (np p : Slot) :
    Proc.pid ∘ (s.setParent np p).proc = Proc.pid ∘ s.proc :=
  comp_upd_self (f := fun x => { x with parent := some p }) rfl

theorem State.Family.alive (h : s.Family) (hp : s.pc p ≠ .idle) : s.forest.phase p = .alive :=
  (h.fits p).alive hp

theorem phaseOf_alive {x : Proc}
    (h : x.state = .running ∨ x.state = .runnable ∨ x.state = .sleeping) : phaseOf x = .alive := by
  rcases h with h | h | h <;> rw [phaseOf, h]

theorem phaseOf_eq_absent {x : Proc} : phaseOf x = .absent ↔ x.state = .unused := by
  rw [phaseOf]
  cases x.state <;> simp

/-- A process that is in a call is in use. -/
theorem State.Family.used_of_busy (h : s.Family) (hp : s.pc p ≠ .idle) :
    (s.proc p).state ≠ .unused := fun he => by
  have halive := h.alive hp
  rw [show s.forest.phase p = .absent from phaseOf_eq_absent.mpr he] at halive
  cases halive

theorem phaseOf_eq_embryo {x : Proc} : phaseOf x = .embryo ↔ x.state = .used := by
  rw [phaseOf]
  cases x.state <;> simp

theorem phaseOf_eq_dead {x : Proc} : phaseOf x = .dead ↔ x.state = .zombie := by
  rw [phaseOf]
  cases x.state <;> simp

theorem State.Family.fork (h : s.Family) (hp : s.Free p) (hnp : (s.proc np).state = .unused)
    (r : ForkResult) : (fork s p np r).Family := by
  have halive : s.forest.phase p = .alive := phaseOf_alive (.inl hp.1)
  have habsent : s.forest.phase np = .absent := phaseOf_eq_absent.mpr hnp
  -- a slot that is given back
  have hfails (g : Proc → Proc) : ((s.allocpid np).upd np fun x => (g x).free).Family := by
    have hforest : ((s.allocpid np).upd np fun x => (g x).free).forest =
        (s.forest.born np).bury np := by
      rw [forest_upd, Forest.bury, Forest.born]
      dsimp only
      rw [Function.update_idem]
      rfl
    have hpid : Proc.pid ∘ ((s.allocpid np).upd np fun x => (g x).free).proc =
        update (Proc.pid ∘ s.proc) np 0 := comp_upd _ _ _ _
    rw [State.Family, hforest, hpid]
    exact Tree.Family.forkFails h habsent
  cases r with
  | noMemory => exact hfails _
  | noCopy f => exact hfails _
  | ok f =>
    rw [Tree.fork]
    generalize hg : (fun x : Proc => copyProc
      (x.allocInit s.nextpid f.trapframe f.pagetable s.ticks f.qnumber) (s.proc p)) = g
    have hforest : ((s.allocpid np).upd np g).forest = s.forest.born np := by
      subst hg
      exact forest_upd_phase rfl
    have hpid : Proc.pid ∘ ((s.allocpid np).upd np g).proc =
        update (Proc.pid ∘ s.proc) np s.nextpid := by
      subst hg
      exact comp_upd _ _ _ _
    have hfork := Tree.Family.fork h halive habsent
    rw [← hforest, ← hpid] at hfork
    exact hfork

theorem State.Family.link (h : s.Family) (hp : s.pc p = .forked np) : (link s p np).Family := by
  have hlink := Tree.Family.link h hp
  rw [← forest_setParent, ← pid_setParent s np p] at hlink
  have hset : ((s.setParent np p).goto p (.linked np)).Family := hlink
  exact hset.upd (f := fun x => { x with tickets := (s.proc p).tickets }) ⟨rfl, rfl, rfl⟩

theorem State.Family.start (h : s.Family) (hp : s.pc p = .linked np) :
    ((s.upd np (·.setState .runnable)).goto p .idle).Family := by
  have hforest : (s.upd np (·.setState .runnable)).forest = s.forest.grow np := forest_upd_phase rfl
  have hpid : Proc.pid ∘ (s.upd np (·.setState .runnable)).proc = Proc.pid ∘ s.proc :=
    comp_upd_self rfl
  have hstart := Tree.Family.start h hp
  rw [← hforest, ← hpid] at hstart
  exact hstart

theorem State.Family.reparent (h : s.Family) {k : ℕ} {status : ℤ}
    (hp : s.pc p = .reparent k status) : (reparent s p k status).Family := by
  have hfits := h.fits p
  rw [hp] at hfits
  have halive := hfits.alive nofun
  rw [Tree.reparent]
  split_ifs with hk hparent
  · have hadopt := Tree.Family.adopt h (some initproc) hk hp hparent
    rw [← forest_setParent, ← pid_setParent s ⟨k, hk⟩ initproc] at hadopt
    exact hadopt
  · -- the slot that has been looked at is no child
    refine h.goto ⟨fun _ => halive, ?_, ?_, nofun, hfits.exits, fun q hq hqp => ?_⟩ ?_
    · simp [Pc.Forks]
    · simp [Pc.Forks]
    · by_cases hqk : q.val = k
      · have hq' : q = ⟨k, hk⟩ := Fin.ext hqk
        exact hparent (hq' ▸ hqp)
      · have hlt : q.val < k + 1 := hq
        exact hfits.past q (by change q.val < k; omega) hqp
    · simp [Pc.Forks]
  · refine h.goto ⟨fun _ => halive, ?_, ?_, nofun, hfits.exits, fun q _ hqp => ?_⟩ ?_
    · simp [Pc.Forks]
    · simp [Pc.Forks]
    · have := q.isLt
      exact hfits.past q (by change q.val < k; omega) hqp
    · simp [Pc.Forks]

theorem quiet_wake (chan : Option Slot) (x : Proc) : Quiet (wake chan) x := by
  unfold Quiet wake
  split_ifs with h
  · exact ⟨by rw [phaseOf, phaseOf, h.1], rfl, rfl⟩
  · exact ⟨rfl, rfl, rfl⟩

theorem State.Family.wakeup (h : s.Family) {chan : Option Slot} {k : ℕ} {next : Next}
    (hp : s.pc p = .waking chan k next) (ht : wakeup s p chan k next = some t) : t.Family := by
  have hfits := h.fits p
  rw [hp] at hfits
  have halive := hfits.alive nofun
  have hmove (m : ℕ) : (s.goto p (.waking chan m next)).Family := by
    have hpast : (Pc.waking chan m next).past = (Pc.waking chan k next).past := by
      cases next <;> rfl
    refine h.goto ⟨fun _ => halive, ?_, ?_, nofun, hfits.exits, hpast ▸ hfits.past⟩ ?_ <;>
      simp [Pc.Forks]
  rw [Tree.wakeup] at ht
  split_ifs at ht with hk hself hown
  · cases ht
    exact hmove _
  · cases ht
    exact (hmove _).upd (quiet_wake _ _)
  · cases ht
    have hpast : next.pc.past = (Pc.waking chan k next).past := by cases next <;> rfl
    refine h.goto ⟨fun _ => halive, ?_, ?_, ?_, fun _ => hfits.exits trivial,
      hpast ▸ hfits.past⟩ ?_ <;> cases next <;> simp [Next.pc, Pc.Forks]

theorem State.Family.die (h : s.Family) {status : ℤ} (hp : s.pc p = .dying status) :
    (die s p status).Family := by
  rw [Tree.die]
  generalize hg :
    (fun x : Proc => { x with xstate := status, state := .zombie, etime := s.ticks }) = g
  have hforest : (s.upd p g).forest = s.forest.die p := by
    subst hg
    exact forest_upd_phase rfl
  have hpid : Proc.pid ∘ (s.upd p g).proc = Proc.pid ∘ s.proc := comp_upd_self (by rw [← hg])
  have hdie := Tree.Family.die h hp
  rw [← hforest, ← hpid] at hdie
  exact hdie

theorem State.Family.reap (h : s.Family) (hq : (s.proc q).state = .zombie) :
    ((s.upd q Proc.free).release p).Family := by
  have hforest : (s.upd q Proc.free).forest = s.forest.bury q := forest_upd s q Proc.free
  have hpid : Proc.pid ∘ (s.upd q Proc.free).proc = update (Proc.pid ∘ s.proc) q 0 :=
    comp_upd _ _ _ _
  have hreap := Tree.Family.reap h (p := p) (phaseOf_eq_dead.mpr hq)
  rw [← hforest, ← hpid] at hreap
  exact hreap

/-- A process that has no business with the family goes on. -/
theorem State.Family.goOn (h : s.Family) {c : Pc} (hp : s.pc p ≠ .idle ∨ s.Free p)
    (hforks : ∀ np, ¬ c.Forks np) (hexits : ¬ c.Exits) : (s.goto p c).Family := by
  have halive : s.forest.phase p = .alive :=
    hp.elim (h.fits p).alive fun hfree => phaseOf_alive (.inl hfree.1)
  exact h.goto ⟨fun _ => halive, fun _ hc => absurd hc (hforks _), fun _ hc => absurd hc (hforks _),
    fun _ hc => absurd (.inr hc) (hforks _), fun hc => absurd hc hexits,
    fun _ hq => absurd (Pc.exits_of_past hq) hexits⟩ hforks

theorem State.Family.acquire {c : Pc} (hgoto : (s.goto p c).Family)
    (ht : s.acquire p c = some t) : t.Family := by
  rw [State.acquire] at ht
  split_ifs at ht
  cases ht
  exact hgoto

theorem State.Family.scan (h : s.Family) {k : ℕ} {havekids copyout : Bool}
    (hp : s.pc p = .scan k havekids) (ht : scan s p k havekids copyout = some t) : t.Family := by
  have hbusy : s.pc p ≠ .idle ∨ s.Free p := .inl (by rw [hp]; nofun)
  rw [Tree.scan] at ht
  split_ifs at ht with hk hchild hown hzombie hcopy hret <;> cases ht
  · exact h.reap hzombie
  · exact h.idle
  · exact h.goOn hbusy (by simp [Pc.Forks]) id
  · exact h.goOn hbusy (by simp [Pc.Forks]) id
  · exact h.idle
  · exact h.goOn (c := .sleeping) hbusy (by simp [Pc.Forks]) id

theorem State.Family.sleep (h : s.Family) (hrun : (s.proc p).state = .running)
    (hp : s.pc p = .sleeping) : (sleep s p).Family := by
  rw [Tree.sleep]
  split_ifs
  · exact h.upd (f := fun x => { x with chan := chanOf p, state := .sleeping })
      ⟨by simp [phaseOf, hrun], rfl, rfl⟩
  · exact (h.upd (f := fun x => { x with chan := 0 }) ⟨rfl, rfl, rfl⟩).goOn
      (.inl (by change s.pc p ≠ _; rw [hp]; nofun)) (by simp [Pc.Forks]) id

theorem State.Family.run (h : s.Family) (hrun : (s.proc p).state = .running) {copyout : Bool}
    (ht : Run s p copyout t) : t.Family := by
  cases ht with
  | blocked hp => exact (h.upd (f := fun x => { x with chan := 0 }) ⟨rfl, rfl, rfl⟩).idle
  | link hp hl => exact h.link hp
  | start hp => exact h.start hp
  | reparent hp => exact h.reparent hp
  | wakeup hp ht => exact h.wakeup hp ht
  | die hp => exact h.die hp
  | wait hp ht => exact (h.goOn (.inl (by rw [hp]; nofun)) (by simp [Pc.Forks]) id).acquire ht
  | scan hp ht => exact h.scan hp ht
  | sleep hp => exact h.sleep hrun hp

theorem quiet_setState {x : Proc} {st : ProcState}
    (hx : x.state = .running ∨ x.state = .runnable ∨ x.state = .sleeping)
    (hst : st = .running ∨ st = .runnable ∨ st = .sleeping) : Quiet (·.setState st) x :=
  ⟨(phaseOf_alive hst).trans (phaseOf_alive hx).symm, rfl, rfl⟩

theorem quiet_killed (x : Proc) : Quiet killed x := by
  refine ⟨?_, rfl, rfl⟩
  rw [killed, phaseOf]
  split_ifs with h
  · exact (phaseOf_alive (.inr (.inr h))).symm
  · rfl

theorem quiet_charge (x : Proc) : Quiet charge x := by
  rw [Quiet, phaseOf, phaseOf, charge_state]
  exact ⟨rfl, charge_parent x, charge_pid x⟩

theorem State.Family.count (h : s.Family) (num : ℤ) : (count s p num).Family := by
  rw [Tree.count]
  split_ifs
  · split
    · exact h
    · exact h.upd (f := fun x => { x with
        syscallCount := update x.syscallCount num.toNat (x.syscallCount num.toNat + 1) })
        ⟨rfl, rfl, rfl⟩
  · exact h

theorem step_family {e : Event} (h : s.Family) (ht : step s e = some t) : t.Family := by
  cases step_inv ht with
  | fork hp hnp => exact h.fork hp hnp _
  | exit hp hroot ht =>
    refine State.Family.acquire (h.goto ?_ (by simp [Pc.Forks])) ht
    exact ⟨fun _ => phaseOf_alive (.inl hp.1), by simp [Pc.Forks], by simp [Pc.Forks], nofun,
      fun _ => hroot, fun _ hq => absurd hq (Nat.not_lt_zero _)⟩
  | wait hp => exact h.goOn (.inr hp) (by simp [Pc.Forks]) id
  | run hrun ht => exact h.run hrun ht
  | kill hown => exact h.upd (quiet_killed _)
  | syscall hp => exact h.count _
  | dispatch hp => exact h.upd (quiet_setState (.inr (.inl hp)) (.inl rfl))
  | yield hp hl hown => exact h.upd (quiet_setState (.inl hp) (.inr (.inl rfl)))
  | @sleepOn p chan hp hchan =>
    exact (h.goOn (c := .blocked) (.inr hp) (by simp [Pc.Forks]) id).upd
      (f := fun x => { x with chan := chan, state := .sleeping })
      ⟨(phaseOf_alive (.inr (.inr rfl))).trans (phaseOf_alive (.inl hp.1)).symm, rfl, rfl⟩
  | wakeupOn hp hchan => exact h.upd (quiet_setState (.inr (.inr hp)) (.inr (.inl rfl)))
  | clockintr hs => exact h
  | charge hk hs hown => exact h.upd (quiet_charge _)
  | swept hk hs => exact h

theorem family_boot (f : Fresh) : (boot f).Family := by
  have hphase {q : Slot} (hq : q ≠ initproc) : (boot f).forest.phase q = .absent := by
    simp [State.forest, boot, hq, phaseOf, Proc.zero]
  have hinit : (boot f).forest.phase initproc = .alive := by
    simp [State.forest, boot, phaseOf]
  have hparent (q : Slot) : (boot f).forest.parent q = none := by
    by_cases hq : q = initproc <;> simp [State.forest, boot, hq, Proc.zero, Proc.allocInit]
  have hone {q : Slot} (hq : (boot f).forest.phase q ≠ .absent) : q = initproc := by
    by_contra hne
    exact hq (hphase hne)
  have horphan {i j : Slot} (hij : (boot f).forest.parent i = some j) : False := by
    rw [hparent] at hij
    cases hij
  refine ⟨⟨hinit, rfl, hparent _, fun _ _ => Nat.zero_lt_one, fun i j hi hj _ => ?_,
    fun _ _ hij => (horphan hij).elim, fun _ _ hij => (horphan hij).elim,
    fun _ _ hij => (horphan hij).elim, fun _ _ hij => (horphan hij).elim, ?_⟩,
    fun p => fits_idle, ?_, fun q hq => ?_, ?_⟩
  · rw [hone hi, hone hj]
  · intro i hi hp
    rw [hphase hi] at hp
    simp at hp
  · exact fun p q np hp => absurd hp (by simp [boot, Pc.Forks])
  · rw [hone hq]
    change (1 : ℤ) = wrapInt 1
    rw [wrapInt_of_lt (by decide) (by decide)]
  · change (2 : ℤ) = wrapInt 2
    rw [wrapInt_of_lt (by decide) (by decide)]

end Steps

/-! ### The process tree -/

/-- The process is runnable, running, asleep or a zombie. -/
def Started (x : Proc) : Prop := x.state ≠ .unused ∧ x.state ≠ .used

theorem phaseOf_of_started {x : Proc} (h : Started x) : phaseOf x = .alive ∨ phaseOf x = .dead := by
  obtain ⟨h₁, h₂⟩ := h
  rw [phaseOf]
  cases hx : x.state <;> simp_all

/-- With few enough processes, pids do not wrap. -/
theorem State.Family.pid_eq_serial {s : State} (h : s.Family) (hallocs : s.allocs < 2 ^ 31 - 1)
    {p : Slot} (hp : (s.proc p).state ≠ .unused) : (s.proc p).pid = s.serial p + 1 := by
  have hp' : s.forest.phase p ≠ .absent := fun he => hp (phaseOf_eq_absent.mp he)
  have hlt : s.serial p < s.allocs := h.ok.age_lt p hp'
  have hpid : (s.proc p).pid = wrapInt (s.serial p + 1) := h.pid_eq p hp'
  rw [hpid, wrapInt_of_lt (by omega) (by omega)]

/-- **The process tree.** Pids are positive and different. All processes but `initproc` have parents
that are alive and have smaller pids, the parents are those that they have been given, and the
parents of the parents lead to `initproc`. -/
theorem process_tree (f : Fresh) (es : List Event) {s : State}
    (hrun : runEvents step (boot f) es = some s) (hallocs : s.allocs < 2 ^ 31 - 1) :
    (∀ p, (s.proc p).state ≠ .unused → 0 < (s.proc p).pid) ∧
      (∀ p q, (s.proc p).state ≠ .unused → (s.proc q).state ≠ .unused →
        (s.proc p).pid = (s.proc q).pid → p = q) ∧
      (∀ p, p ≠ initproc → Started (s.proc p) → ∃ r, (s.proc p).parent = some r ∧
        (s.proc r).state ≠ .unused ∧ (s.proc r).state ≠ .zombie ∧ (s.proc r).pid < (s.proc p).pid) ∧
      (∀ p, Started (s.proc p) →
        Relation.ReflTransGen (fun a b => (s.proc a).parent = some b) p initproc) ∧
      ∀ p r, (s.proc p).parent = some r → s.kin p = s.serial r := by
  have h : s.Family :=
    runEvents_invariant (I := State.Family) (fun _ _ _ => step_family) (family_boot f) hrun
  have hpid {p : Slot} (hp : (s.proc p).state ≠ .unused) := h.pid_eq_serial hallocs hp
  refine ⟨fun p hp => ?_, fun p q hp hq hpq => ?_, fun p hroot hp => ?_, fun p hp => ?_,
    fun p r hr => h.ok.kin_eq p r hr⟩
  · rw [hpid hp]
    omega
  · rw [hpid hp, hpid hq] at hpq
    exact h.ok.age_inj p q (fun he => hp (phaseOf_eq_absent.mp he))
      (fun he => hq (phaseOf_eq_absent.mp he)) (by change s.serial p = s.serial q; omega)
  · obtain ⟨r, hr⟩ := Option.ne_none_iff_exists'.mp (h.ok.parent_ne p hroot (phaseOf_of_started hp))
    have hr : (s.proc p).parent = some r := hr
    have halive : phaseOf (s.proc r) = .alive := h.ok.parent_alive p r hr
    have hage : s.serial r < s.serial p := h.ok.parent_age p r hr
    have hr₁ : (s.proc r).state ≠ .unused := fun he => by simp [phaseOf, he] at halive
    have hr₂ : (s.proc r).state ≠ .zombie := fun he => by simp [phaseOf, he] at halive
    refine ⟨r, hr, hr₁, hr₂, ?_⟩
    rw [hpid hr₁, hpid hp.1]
    omega
  · exact h.ok.reaches (phaseOf_of_started hp)

/-- `initproc` forks, in vain at first. Its child is killed. -/
def forkTwice : List Event :=
  [.dispatch 0, .fork 0 1 .noMemory, .fork 0 1 (.ok ⟨5, 6, 1⟩), .run 0 true, .run 0 true, .kill 1,
    .dispatch 1]

theorem process_tree_forkTwice :
    ∃ s, runEvents step (boot ⟨1, 2, 0⟩) forkTwice = some s ∧ s.allocs < 2 ^ 31 - 1 ∧
      (s.proc 1).pid = 3 ∧ Relation.ReflTransGen (fun a b => (s.proc a).parent = some b) 1
      initproc := by
  obtain ⟨s, hs, hallocs, hpid, hstate⟩ : ∃ s, runEvents step (boot ⟨1, 2, 0⟩) forkTwice = some s ∧
    s.allocs < 2 ^ 31 - 1 ∧ (s.proc 1).pid = 3 ∧ (s.proc 1).state = .running := by decide +kernel
  exact ⟨s, hs, hallocs, hpid,
    (process_tree ⟨1, 2, 0⟩ forkTwice hs hallocs).2.2.2.1 1 (by rw [Started, hstate]; decide)⟩

end Xv6.Tree
