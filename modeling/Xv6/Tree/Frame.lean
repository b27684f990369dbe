import Xv6.Tree.Family

/-!
# What most steps leave alone

The counters and the times of the processes change in a few steps only. All the others keep them.
-/

namespace Xv6.Tree

/-- The times of a process stay. -/
structure SameTimes (x y : Proc) : Prop where
  ctime : y.ctime = x.ctime
  rtime : y.rtime = x.rtime
  used : y.state ≠ .unused → x.state ≠ .unused
  exited : y.state = .zombie → x.state = .zombie ∧ y.etime = x.etime

/-- So do the counters. -/
structure Kept (x y : Proc) : Prop extends SameTimes x y where
  count : y.syscallCount = x.syscallCount

/-- Nobody is created or exits, nothing is counted, and the clock stands still. -/
structure Keeps (s t : State) : Prop where
  proc : ∀ q, Kept (s.proc q) (t.proc q)
  serial : t.serial = s.serial
  calls : t.calls = s.calls
  allocs : t.allocs = s.allocs
  ticks : t.ticks = s.ticks
  time : t.time = s.time
  sweep : t.sweep = s.sweep

variable {s t : State} {p q i : Slot} {f : Proc → Proc} {c : Pc}

theorem Kept.refl (x : Proc) : Kept x x := ⟨⟨rfl, rfl, id, fun hz => ⟨hz, rfl⟩⟩, rfl⟩

/-- Both processes are in use and have not exited. -/
theorem Kept.of_alive {x y : Proc} (hc : y.ctime = x.ctime) (hr : y.rtime = x.rtime)
    (hn : y.syscallCount = x.syscallCount) (hx : x.state ≠ .unused) (hy : y.state ≠ .zombie) :
    Kept x y :=
  ⟨⟨hc, hr, fun _ => hx, fun hz => absurd hz hy⟩, hn⟩

theorem Kept.trans {x y z : Proc} (h : Kept x y) (h' : Kept y z) : Kept x z where
  count := h'.count.trans h.count
  ctime := h'.ctime.trans h.ctime
  rtime := h'.rtime.trans h.rtime
  used := h.used ∘ h'.used
  exited :=
    fun hz => ⟨(h.exited (h'.exited hz).1).1, (h'.exited hz).2.trans (h.exited (h'.exited hz).1).2⟩

namespace Keeps

theorem refl (s : State) : Keeps s s := ⟨fun _ => .refl _, rfl, rfl, rfl, rfl, rfl, rfl⟩

theorem goto (h : Keeps s t) : Keeps s (t.goto p c) := ⟨h.1, h.2, h.3, h.4, h.5, h.6, h.7⟩

theorem release (h : Keeps s t) : Keeps s (t.release p) := ⟨h.1, h.2, h.3, h.4, h.5, h.6, h.7⟩

theorem acquire (ht : s.acquire p c = some t) : Keeps s t := by
  rw [State.acquire] at ht
  split_ifs at ht
  cases ht
  exact ⟨fun _ => .refl _, rfl, rfl, rfl, rfl, rfl, rfl⟩

theorem upd (h : Keeps s t) (hf : Kept (t.proc i) (f (t.proc i))) : Keeps s (t.upd i f) := by
  refine ⟨fun q => ?_, h.2, h.3, h.4, h.5, h.6, h.7⟩
  by_cases hq : q = i
  · subst hq
    rw [State.upd_self]
    exact (h.proc q).trans hf
  · rw [State.upd_of_ne hq]
    exact h.proc q

theorem setParent (h : Keeps s t) : Keeps s (t.setParent q p) :=
  have hupd := h.upd (i := q) (f := fun x => { x with parent := some p })
    ⟨⟨rfl, rfl, id, fun hz => ⟨hz, rfl⟩⟩, rfl⟩
  ⟨hupd.1, hupd.2, hupd.3, hupd.4, hupd.5, hupd.6, hupd.7⟩

end Keeps

/-- A process that takes a step keeps all this, unless it exits. -/
theorem run_change (hf : s.Family) {copyout : Bool} (ht : Run s p copyout t) :
    Keeps s t ∨ ∃ status, t = die s p status ∧ (s.proc p).state ≠ .unused := by
  have hbusy (hp : s.pc p ≠ .idle) : (s.proc p).state ≠ .unused := hf.used_of_busy hp
  have h := Keeps.refl s
  have hchan : Kept (s.proc p) { s.proc p with chan := 0 } :=
    ⟨⟨rfl, rfl, id, fun hz => ⟨hz, rfl⟩⟩, rfl⟩
  cases ht with
  | blocked hp => exact .inl (h.upd hchan).goto
  | link hp hl => exact .inl (h.setParent.upd ⟨⟨rfl, rfl, id, fun hz => ⟨hz, rfl⟩⟩, rfl⟩).goto
  | @start np hp =>
    have hfits := hf.fits p
    rw [hp] at hfits
    have hused := phaseOf_eq_embryo.mp (hfits.embryo np (.inr rfl))
    exact .inl (h.upd (f := (·.setState .runnable))
      (.of_alive rfl rfl rfl (by rw [hused]; simp) (by simp))).goto
  | reparent hp =>
    rw [reparent]
    split_ifs
    · exact .inl h.setParent.goto
    · exact .inl h.goto
    · exact .inl h.goto
  | wakeup hp ht =>
    rw [wakeup] at ht
    split_ifs at ht <;> cases ht
    · exact .inl h.goto
    · refine .inl (h.upd ?_).goto
      rw [wake]
      split_ifs with hs
      · exact .of_alive rfl rfl rfl (by rw [hs.1]; simp) (by simp)
      · exact .refl _
    · exact .inl h.goto
  | die hp => exact .inr ⟨_, rfl, hbusy (by rw [hp]; simp)⟩
  | wait hp ht => exact .inl (.acquire ht)
  | scan hp ht =>
    rw [scan] at ht
    split_ifs at ht <;> cases ht
    · exact .inl (h.upd (f := Proc.free)
        ⟨⟨rfl, rfl, fun hne => absurd rfl hne, fun hz => by cases hz⟩, rfl⟩).release
    · exact .inl h.release
    · exact .inl h.goto
    · exact .inl h.goto
    · exact .inl h.release
    · exact .inl ⟨h.1, h.2, h.3, h.4, h.5, h.6, h.7⟩
  | sleep hp =>
    rw [sleep]
    split_ifs
    · have hupd := h.upd (i := p) (f := fun x => { x with chan := chanOf p, state := .sleeping })
        (.of_alive rfl rfl rfl (hbusy (by rw [hp]; simp)) (by simp))
      exact .inl ⟨hupd.1, hupd.2, hupd.3, hupd.4, hupd.5, hupd.6, hupd.7⟩
    · exact .inl (h.upd hchan).goto

/-- A process is created in slot `np` now, or there was not enough memory. -/
structure Created (s : State) (np : Slot) (t : State) : Prop where
  other : ∀ q ≠ np, t.proc q = s.proc q
  fresh : (t.proc np).state ≠ .zombie ∧ ((t.proc np).state ≠ .unused →
    (t.proc np).syscallCount = (fun _ => 0) ∧ (t.proc np).ctime = s.ticks ∧ (t.proc np).rtime = 0)
  serial : t.serial = Function.update s.serial np s.allocs
  calls : t.calls = s.calls
  allocs : t.allocs = s.allocs + 1
  ticks : t.ticks = s.ticks
  time : t.time = s.time
  sweep : t.sweep = s.sweep

theorem fork_created (s : State) (p np : Slot) (r : ForkResult) : Created s np (fork s p np r) := by
  cases r with
  | noMemory | noCopy f =>
    refine ⟨fun q hq => Function.update_of_ne hq _ _, ?_, rfl, rfl, rfl, rfl, rfl, rfl⟩
    rw [fork, State.upd_self]
    exact ⟨by rintro ⟨⟩, fun hne => absurd rfl hne⟩
  | ok f =>
    refine ⟨fun q hq => Function.update_of_ne hq _ _, ?_, rfl, rfl, rfl, rfl, rfl, rfl⟩
    rw [fork, State.goto, State.upd_self]
    exact ⟨by rintro ⟨⟩, fun _ => ⟨rfl, rfl, rfl⟩⟩

/-- What a step does to the counters and the times. -/
inductive Change (s : State) : Event → State → Prop
  | keeps {e : Event} {t : State} (h : Keeps s t) : Change s e t
  | fork {p np : Slot} {r : ForkResult} {t : State} (h : Created s np t) : Change s (.fork p np r) t
  | die {p : Slot} {copyout : Bool} {status : ℤ} (hp : (s.proc p).state ≠ .unused) :
    Change s (.run p copyout) (die s p status)
  | syscall {p : Slot} {num : ℤ} : Change s (.syscall p num) (count s p num)
  | clockintr (hs : s.sweep = none) : Change s .clockintr (clockintr s)
  | charge {k : ℕ} (hk : k < NPROC) (hs : s.sweep = some k) :
    Change s .updateTime { s.upd ⟨k, hk⟩ charge with sweep := some (k + 1) }
  | swept : Change s .updateTime { s with sweep := none }

theorem step_change {e : Event} (hf : s.Family) (ht : step s e = some t) : Change s e t := by
  have h := Keeps.refl s
  cases step_inv ht with
  | fork hp hnp => exact .fork (fork_created ..)
  | exit hp hroot ht => exact .keeps (.acquire ht)
  | wait hp => exact .keeps h.goto
  | run hrun ht =>
    obtain h | ⟨status, rfl, hp⟩ := run_change hf ht
    · exact .keeps h
    · exact .die hp
  | @kill p hown =>
    refine .keeps (h.upd ?_)
    by_cases hs : (s.proc p).state = .sleeping
    · exact .of_alive rfl rfl rfl (by rw [hs]; simp) (by simp [killed, hs])
    · rw [killed, if_neg hs]
      exact ⟨⟨rfl, rfl, id, fun hz => ⟨hz, rfl⟩⟩, rfl⟩
  | syscall hp => exact .syscall
  | dispatch hp | wakeupOn hp =>
    exact .keeps (h.upd (.of_alive rfl rfl rfl (by rw [hp]; simp) (by simp)))
  | yield hp hl hown => exact .keeps (h.upd (.of_alive rfl rfl rfl (by rw [hp]; simp) (by simp)))
  | @sleepOn p chan hp hchan =>
    exact .keeps (h.upd (f := fun x => { x with chan := chan, state := .sleeping })
      (.of_alive rfl rfl rfl (by rw [hp.1]; simp) (by simp))).goto
  | clockintr hs => exact .clockintr hs
  | charge hk hs hown => exact .charge hk hs
  | swept hk hs => exact .swept

end Xv6.Tree
