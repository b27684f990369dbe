import Xv6.Proc.Wait
import Xv6.Tree.Frame

/-!
# The times of a process

`ctime` and `etime` are the time when a process was created and when it exited, `rtime` is how many
ticks it was running for. `waitx` reports the difference as waiting time.

`clockintr` first counts the tick and then goes through the table to charge it. A process that is
created in between, in a slot that has not been looked at, can be running when it is, and is charged
a tick from before its time. If it exits within the same tick its waiting time is `-1`.
-/

namespace Xv6.Tree

/-- The ticks that `update_time` has not charged to slot `q` yet: one or none. -/
def State.pending (s : State) (q : Slot) : ℕ := s.sweep.elim 0 fun k => if k ≤ q then 1 else 0

/-- No process has been charged more ticks than there were. -/
structure Timely (s : State) : Prop where
  ticks_eq : s.ticks.toNat = s.time
  charged : ∀ q, (s.proc q).state ≠ .unused →
    (s.proc q).ctime.toNat + (s.proc q).rtime.toNat + s.pending q ≤ s.time
  exited : ∀ q, (s.proc q).state = .zombie →
    (s.proc q).ctime.toNat + (s.proc q).rtime.toNat ≤ (s.proc q).etime.toNat

/-- No process is created in a slot where a tick is pending. -/
def State.Settled (s : State) : Event → Prop
  | .fork _ np _ => s.pending np = 0
  | _ => True

instance (s : State) : (e : Event) → Decidable (s.Settled e)
  | .fork _ np _ => inferInstanceAs (Decidable (s.pending np = 0))
  | .exit _ _ | .wait _ | .run _ _ | .kill _ | .syscall _ _ | .dispatch _ | .yield _ | .sleepOn _ _
  | .wakeupOn _ | .clockintr | .updateTime => inferInstanceAs (Decidable True)

section Timely

variable {s t : State} {p q : Slot} {f : Proc → Proc} {i : Slot}

/-- Nothing happens to the clock, and nobody exits. -/
theorem Timely.keep (h : Timely s) (hproc : ∀ q, SameTimes (s.proc q) (t.proc q))
    (hticks : t.ticks = s.ticks) (htime : t.time = s.time) (hsweep : t.sweep = s.sweep) :
    Timely t := by
  refine ⟨by rw [hticks, htime, h.ticks_eq], fun q hq => ?_, fun q hq => ?_⟩
  · rw [(hproc q).ctime, (hproc q).rtime, htime, State.pending, hsweep]
    exact h.charged q ((hproc q).used hq)
  · obtain ⟨hz, he⟩ := (hproc q).exited hq
    rw [(hproc q).ctime, (hproc q).rtime, he]
    exact h.exited q hz

/-- A process is created now. -/
theorem Timely.fork {np : Slot} (h : Timely s) (hnp : s.pending np = 0) (hnew : Created s np t) :
    Timely t := by
  refine ⟨by rw [hnew.ticks, hnew.time, h.ticks_eq], fun q hq => ?_, fun q hq => ?_⟩ <;>
    by_cases hqn : q = np
  · subst hqn
    obtain ⟨-, hc, hr⟩ := hnew.fresh.2 hq
    rw [State.pending] at hnp
    rw [hc, hr, h.ticks_eq, hnew.time, State.pending, hnew.sweep, hnp]
    exact Nat.le_refl _
  · rw [hnew.other q hqn] at hq ⊢
    rw [hnew.time, State.pending, hnew.sweep]
    exact h.charged q hq
  · subst hqn
    exact absurd hq hnew.fresh.1
  · rw [hnew.other q hqn] at hq ⊢
    exact h.exited q hq

/-- A process exits now. -/
theorem Timely.die (h : Timely s) {status : ℤ} (hp : (s.proc p).state ≠ .unused) :
    Timely (die s p status) := by
  suffices hupd : Timely (s.upd p fun x =>
      { x with xstate := status, state := .zombie, etime := s.ticks }) from
    ⟨hupd.ticks_eq, hupd.charged, hupd.exited⟩
  have hcharged := h.charged p hp
  refine ⟨h.ticks_eq, fun q hq => ?_, fun q hq => ?_⟩ <;> by_cases hqp : q = p
  · subst hqp
    rw [State.upd_self]
    exact hcharged
  · rw [State.upd_of_ne hqp] at hq ⊢
    exact h.charged q hq
  · subst hqp
    rw [State.upd_self]
    change _ ≤ s.ticks.toNat
    rw [h.ticks_eq]
    exact Nat.le_trans (Nat.le_add_right _ _) hcharged
  · rw [State.upd_of_ne hqp] at hq ⊢
    exact h.exited q hq

/-- A process is charged one tick at the most. -/
theorem charge_le (x : Proc) (h : x.ctime.toNat + x.rtime.toNat + 1 < 2 ^ 32) :
    (charge x).ctime.toNat + (charge x).rtime.toNat + 0 ≤ x.ctime.toNat + x.rtime.toNat + 1 := by
  rw [charge]
  split_ifs
  · change x.ctime.toNat + (x.rtime + 1).toNat + 0 ≤ _
    have hone : (1 : BitVec 32).toNat = 1 := rfl
    rw [BitVec.toNat_add, hone, Nat.mod_eq_of_lt (by omega)]
    omega
  · omega

/-- The clock ticks. All slots have been charged for the tick before. -/
theorem Timely.clockintr (h : Timely s) (hs : s.sweep = none) (htime : s.time + 1 < 2 ^ 32) :
    Timely (clockintr s) := by
  refine ⟨?_, fun q hq => ?_, h.exited⟩
  · change (s.ticks + 1).toNat = s.time + 1
    rw [BitVec.toNat_add, h.ticks_eq]
    exact Nat.mod_eq_of_lt htime
  · have hold := h.charged q hq
    rw [State.pending, hs] at hold
    have hnew : (Tree.clockintr s).pending q = 1 := by
      change (if 0 ≤ q.val then 1 else 0) = 1
      exact if_pos (Nat.zero_le _)
    rw [hnew]
    exact Nat.add_le_add_right hold 1

/-- A slot is charged. -/
theorem Timely.charge (h : Timely s) {k : ℕ} (hk : k < NPROC) (hs : s.sweep = some k)
    (htime : s.time < 2 ^ 32) : Timely { s.upd ⟨k, hk⟩ charge with sweep := some (k + 1) } := by
  have hold (q : Slot) : s.pending q = if k ≤ q then 1 else 0 := by
    rw [State.pending, hs]
    rfl
  generalize ht : ({ s.upd ⟨k, hk⟩ Tree.charge with sweep := some (k + 1) } : State) = t
  have hnew (q : Slot) : t.pending q = if k + 1 ≤ q then 1 else 0 := by rw [← ht]; rfl
  have hself : t.proc ⟨k, hk⟩ = Tree.charge (s.proc ⟨k, hk⟩) := by
    rw [← ht]; exact State.upd_self _ _ _
  have hother {q : Slot} (hq : q ≠ ⟨k, hk⟩) : t.proc q = s.proc q := by
    rw [← ht]
    exact State.upd_of_ne hq _ _
  have hnow : t.time = s.time := by rw [← ht]; rfl
  refine ⟨by rw [hnow, ← ht]; exact h.ticks_eq, fun q hq => ?_, fun q hq => ?_⟩ <;>
    by_cases hqk : q = ⟨k, hk⟩
  · -- the tick is not pending any more, and may have been charged
    subst hqk
    rw [hself, charge_state] at hq
    have hcharged := h.charged ⟨k, hk⟩ hq
    rw [hold, if_pos (Nat.le_refl k)] at hcharged
    rw [hnew, if_neg (Nat.not_succ_le_self k), hself, hnow]
    exact Nat.le_trans (charge_le (s.proc ⟨k, hk⟩) (Nat.lt_of_le_of_lt hcharged htime)) hcharged
  · rw [hother hqk] at hq ⊢
    have hne : q.val ≠ k := fun he => hqk (Fin.ext he)
    have hcharged := h.charged q hq
    rw [hold] at hcharged
    rw [hnew, hnow]
    split_ifs at hcharged ⊢ <;> omega
  · subst hqk
    rw [hself, charge_state] at hq
    rw [hself, Tree.charge, if_neg (by rw [hq]; simp)]
    exact h.exited _ hq
  · rw [hother hqk] at hq ⊢
    exact h.exited q hq

/-- All slots have been charged. -/
theorem Timely.swept (h : Timely s) : Timely { s with sweep := none } := by
  refine ⟨h.ticks_eq, fun q hq => ?_, h.exited⟩
  exact Nat.le_trans (Nat.le_add_right _ _) (h.charged q hq)

theorem step_timely {e : Event} (hf : s.Family) (h : Timely s) (he : s.Settled e)
    (htime : t.time < 2 ^ 32) (ht : step s e = some t) : Timely t := by
  cases step_change hf ht with
  | keeps hk => exact h.keep (fun q => (hk.proc q).toSameTimes) hk.ticks hk.time hk.sweep
  | fork hnew => exact h.fork he hnew
  | die hp => exact h.die hp
  | syscall =>
    rw [count]
    split_ifs
    · split
      · exact h
      · rename_i r _
        have hproc (q : Slot) (g : ℕ → BitVec 32) : SameTimes (s.proc q)
            (Function.update s.proc r { s.proc r with syscallCount := g } q) := by
          by_cases hq : q = r
          · rw [hq, Function.update_self]
            exact ⟨rfl, rfl, id, fun hz => ⟨hz, rfl⟩⟩
          · rw [Function.update_of_ne hq]
            exact ⟨rfl, rfl, id, fun hz => ⟨hz, rfl⟩⟩
        exact h.keep (hproc · _) rfl rfl rfl
    · exact h
  | clockintr hs => exact h.clockintr hs htime
  | charge hk hs => exact h.charge hk hs htime
  | swept => exact h.swept

/-- Time does not go back. -/
theorem time_le_of_step {e : Event} (hf : s.Family) (ht : step s e = some t) : s.time ≤ t.time := by
  cases step_change hf ht with
  | keeps hk => exact Nat.le_of_eq hk.time.symm
  | fork hnew => exact Nat.le_of_eq hnew.time.symm
  | syscall =>
    rw [count]
    split_ifs
    · split <;> exact Nat.le_refl _
    · exact Nat.le_refl _
  | clockintr => exact Nat.le_succ _
  | _ => exact Nat.le_refl _

theorem timely_boot (f : Fresh) : Timely (boot f) := by
  have hproc (q : Slot) : ((boot f).proc q).ctime = 0 ∧ ((boot f).proc q).rtime = 0 := by
    by_cases hq : q = initproc
    · subst hq
      exact ⟨rfl, rfl⟩
    · have hother : (boot f).proc q = .zero :=
        Function.update_of_ne hq _ fun _ => Proc.zero
      rw [hother]
      exact ⟨rfl, rfl⟩
  refine ⟨rfl, fun q _ => ?_, fun q _ => ?_⟩ <;> obtain ⟨hc, hr⟩ := hproc q <;> rw [hc, hr]
  · exact Nat.le_refl _
  · exact Nat.zero_le _

end Timely

/-- If a process was charged as much as there was, `waitx` reports the difference. -/
theorem wtime_eq {x : Proc} (h : x.ctime.toNat + x.rtime.toNat ≤ x.etime.toNat) :
    x.rtime ≤ x.etime - x.ctime ∧
      (Wait.times x).wtime.toNat = x.etime.toNat - x.ctime.toNat - x.rtime.toNat := by
  have hc : x.ctime ≤ x.etime := BitVec.le_def.mpr (by omega)
  have hr : x.rtime ≤ x.etime - x.ctime := by
    rw [BitVec.le_def, BitVec.toNat_sub_of_le hc]
    omega
  refine ⟨hr, ?_⟩
  rw [Wait.times, BitVec.toNat_sub_of_le hr, BitVec.toNat_sub_of_le hc]

/-- **The times of a process fit.** In every run of less than `2 ^ 32` ticks in which processes are
created in settled slots only, a process that has exited has not run for longer than it was there,
and the waiting time that `waitx` reports is the rest. -/
theorem times_never_underflow {s : State} (f : Fresh) (es : List Event)
    (hrun : runEvents (restrict State.Settled step) (boot f) es = some s) (htime : s.time < 2 ^ 32)
    (q : Slot) (hq : (s.proc q).state = .zombie) :
    (s.proc q).rtime ≤ (s.proc q).etime - (s.proc q).ctime ∧
      (Wait.times (s.proc q)).wtime.toNat =
        (s.proc q).etime.toNat - (s.proc q).ctime.toNat - (s.proc q).rtime.toNat := by
  have h : s.Family ∧ (s.time < 2 ^ 32 → Timely s) :=
    runEvents_invariant (I := fun s => s.Family ∧ (s.time < 2 ^ 32 → Timely s))
      (fun s e t hs ht => by
        obtain ⟨he, ht⟩ := restrict_eq_some.mp ht
        refine ⟨step_family hs.1 ht, fun hlt => ?_⟩
        exact step_timely hs.1 (hs.2 (Nat.lt_of_le_of_lt (time_le_of_step hs.1 ht) hlt)) he hlt ht)
      ⟨family_boot f, fun _ => timely_boot f⟩ hrun
  exact wtime_eq ((h.2 htime).exited q hq)

/-- A process exits: it has no children, and everybody else is looked at. -/
def exitOf (p : Slot) : List Event := .exit p 0 :: List.replicate 131 (.run p true)

/-- `initproc` makes a process, and there is a tick while it is running. -/
def forkThenTick : List Event :=
  [.dispatch 0, .fork 0 1 (.ok ⟨5, 6, 1⟩), .run 0 true, .run 0 true, .dispatch 1, .clockintr,
    .updateTime, .updateTime] ++ exitOf 1

theorem times_never_underflow_forkThenTick :
    ∃ s, runEvents (restrict State.Settled step) (boot ⟨1, 2, 0⟩) forkThenTick = some s ∧
      s.time = 1 ∧ (s.proc 1).state = .zombie ∧
      (s.proc 1).rtime ≤ (s.proc 1).etime - (s.proc 1).ctime ∧
      (Wait.times (s.proc 1)).wtime.toNat =
        (s.proc 1).etime.toNat - (s.proc 1).ctime.toNat - (s.proc 1).rtime.toNat := by
  obtain ⟨s, hs, htime, hz⟩ : ∃ s, runEvents (restrict State.Settled step) (boot ⟨1, 2, 0⟩)
    forkThenTick = some s ∧ s.time = 1 ∧ (s.proc 1).state = .zombie := by decide +kernel
  exact ⟨s, hs, htime, hz,
    times_never_underflow ⟨1, 2, 0⟩ forkThenTick hs (by rw [htime]; decide) 1 hz⟩

/-- The process is created, dispatched and charged while `update_time` is on its way to it. -/
def forkInSweep : List Event :=
  [.dispatch 0, .clockintr, .fork 0 1 (.ok ⟨5, 6, 1⟩), .run 0 true, .run 0 true, .dispatch 1,
    .updateTime, .updateTime] ++ exitOf 1

/-- A process that was there for no time at all has run for one tick, and `waitx` reports that it
was waiting for `2 ^ 32 - 1` ticks. -/
theorem times_underflow :
    ∃ s, runEvents step (boot ⟨1, 2, 0⟩) forkInSweep = some s ∧ s.time = 1 ∧
      (s.proc 1).state = .zombie ∧ ¬ (s.proc 1).rtime ≤ (s.proc 1).etime - (s.proc 1).ctime ∧
      Wait.times (s.proc 1) = ⟨BitVec.ofNat 32 (2 ^ 32 - 1), 1⟩ := by
  decide +kernel

end Xv6.Tree
