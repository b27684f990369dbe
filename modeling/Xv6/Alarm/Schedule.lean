import Xv6.Alarm.Sigreturn

/-!
# When an alarm goes off

`sigalarm(n, h)` should have `h` called at the `n`-th timer trap after it, and again at the `n`-th
timer trap after each return of the handler. The alarm code counts all timer traps of the process in
`s_tcks`, which `sigalarm` does not reset, and calls the handler when the count is a multiple of
`n`. So the first interval after a `sigalarm` is as long as it should be only if `s_tcks` is a
multiple of `n` at that time. `sigalarm(0, 0)`, which should switch the alarm off, leaves it active
with the interval `0`, and `usertrap` then divides by it.
-/

namespace Xv6

open Function (update update_self update_of_ne)

/-- The fields of a process that the alarm code uses. -/
structure Alarm where
  act : ℤ
  ticks : ℤ
  sTcks : ℤ
  handler : Word
  hlp : ℤ
  deriving DecidableEq

/-- The alarm of a process. -/
def Proc.alarm (p : Proc) : Alarm := ⟨p.alarmAct, p.ticks, p.sTcks, p.handler, p.hlp⟩

/-- What happens to the fields. -/
def Alarm.step (a : Alarm) : AlarmEvent → Alarm
  | .spawn => { a with sTcks := 0, hlp := 1 }
  | .sigalarm n h => { a with ticks := n, handler := h, act := 1 }
  | .tick => { a with
      sTcks := wrapInt (a.sTcks + 1)
      hlp := if (wrapInt (a.sTcks + 1)).tmod a.ticks = 0 then 0 else a.hlp }
  | .sigreturn => { a with hlp := 1 }

namespace Kernel

variable {s t : Kernel} {i j : Slot}

/-- The alarms of all processes. -/
def alarms (s : Kernel) (j : Slot) : Alarm := (s.proc j).alarm

/-- The alarms after an event. -/
def alarmsAfter (s : Kernel) : Option (Slot × AlarmEvent) → Slot → Alarm
  | none => s.alarms
  | some (i, a) => update s.alarms i ((s.alarms i).step a)

/-! ### The parts of a step -/

theorem alarms_of_proc (h : t.proc = s.proc) : t.alarms = s.alarms :=
  funext fun j => congrArg Proc.alarm (congrFun h j)

theorem alarms_upd (s : Kernel) (i : Slot) (f : Proc → Proc) :
    (s.upd i f).alarms = update s.alarms i (f (s.proc i)).alarm := by
  funext j
  by_cases hj : j = i
  · subst hj
    simp [alarms, upd]
  · simp [alarms, upd, hj]

/-- A change of a slot that does not concern its alarm. -/
theorem alarms_upd_of_eq {f : Proc → Proc} (h : (f (s.proc i)).alarm = s.alarms i) :
    (s.upd i f).alarms = s.alarms := by
  rw [alarms_upd, h, Function.update_eq_self]

theorem alarms_kalloc (s : Kernel) (o : Owner) : (s.kalloc o).2.alarms = s.alarms :=
  alarms_of_proc (kalloc_proc s o)

theorem alarms_saveFrame (s : Kernel) (i : Slot) (tf : ℕ) : (s.saveFrame i tf).alarms =
    update s.alarms i { s.alarms i with sTcks := wrapInt ((s.alarms i).sTcks + 1) } :=
  alarms_upd (s.write tf (s.frame i)) i _

theorem alarms_enterHandler (s : Kernel) (i : Slot) :
    (s.enterHandler i).alarms = update s.alarms i { s.alarms i with hlp := 0 } :=
  alarms_upd (s.setReg i Tf.epc (s.proc i).handler) i _

theorem alarms_alarmTick (hc : counts (s.proc i)) (hne : s.kmem.freelist ≠ 0) :
    (s.alarmTick i).alarms = s.alarmsAfter (some (i, .tick)) := by
  have hk : (s.kalloc (.alarm i)).1 ≠ 0 := by rwa [kalloc_eq hne]
  have hsave := alarms_saveFrame (s.kalloc (.alarm i)).2 i (s.kalloc (.alarm i)).1
  rw [alarms_kalloc] at hsave
  rw [alarmTick, if_pos hc, if_neg hk]
  by_cases he : enters (s.proc i)
  · rw [if_pos he, alarms_enterHandler, hsave, Function.update_idem, update_self]
    have he' : (wrapInt ((s.alarms i).sTcks + 1)).tmod (s.alarms i).ticks = 0 :=
      of_decide_eq_true he
    rw [alarmsAfter, Alarm.step, if_pos he']
  · have he' : ¬ (wrapInt ((s.alarms i).sTcks + 1)).tmod (s.alarms i).ticks = 0 :=
      fun h => he (decide_eq_true h)
    rw [if_neg he, hsave, alarmsAfter, Alarm.step, if_neg he']

end Kernel

open Kernel

/-- What a part of a step does to the alarms. -/
theorem Op.alarms {s₀ s t : Kernel} {e : Event} {ms : List Mark} {x : Option (Slot × AlarmEvent)}
    (h : Op s₀ e s ms x t) : t.alarms = s.alarmsAfter x := by
  cases h with
  | quiet _ _ h =>
    funext j
    obtain ⟨hact, hticks, hhandler, -, -⟩ := Leftover.mk.inj (h j).leftover
    simp only [alarmsAfter, Kernel.alarms, Proc.alarm, hact, hticks, hhandler, (h j).sTcks,
      (h j).hlp]
  | frame | put | lost => rfl
  | fault | kill | clear => exact alarms_upd_of_eq rfl
  | sigalarm => exact alarms_upd s _ _
  | @restore i =>
    have hp : ((s.setFrame i (s.kmem.mem (s.proc i).alarmTf)).kfree (s.proc i).alarmTf).proc =
        s.proc := kfree_proc _ _
    rw [restoreFrame, alarms_upd, alarms_of_proc hp, hp]
    rfl
  | tick _ hc hne => exact alarms_alarmTick hc hne
  | @alloc j =>
    refine (alarms_upd _ j fun p => p.allocInit _ _ _ _ _).trans ?_
    rw [alarms_kalloc, kalloc_proc]
    rfl
  | fail => exact (alarms_upd_of_eq rfl).trans (alarms_of_proc (by simp))
  | @reap j =>
    rw [freeproc]
    refine (alarms_upd_of_eq rfl).trans (alarms_of_proc ?_)
    split_ifs <;> simp
  | take => exact alarms_kalloc s _
  | give => exact alarms_of_proc (kfree_proc _ _)

/-- Every step changes the alarms as its event says. -/
theorem step_alarms {s t : Kernel} {e : Event} (h : step s e = some t) :
    t.alarms = s.alarmsAfter (s.alarmEvent e) := by
  have hpath {s₀ u v : Kernel} {ms : List Mark} {xs : List (Slot × AlarmEvent)}
      (h : Path s₀ e u ms xs v) : v.alarms =
        xs.foldl (fun f x => update f x.1 ((f x.1).step x.2)) u.alarms := by
    induction h with
    | refl => rfl
    | @step _ _ _ _ _ x _ h _ ih =>
      rw [ih, h.alarms, List.foldl_append]
      cases x <;> rfl
  rw [hpath (step_path h)]
  cases s.alarmEvent e <;> rfl

/-- What an event does to the alarm of the process in slot `j`. -/
def Kernel.alarmOf (s : Kernel) (j : Slot) (e : Event) : Option AlarmEvent :=
  (s.alarmEvent e).bind fun x => if x.1 = j then some x.2 else none

theorem step_alarm {s t : Kernel} {e : Event} (h : step s e = some t) (j : Slot) :
    t.alarms j = (s.alarmOf j e).elim (s.alarms j) (s.alarms j).step := by
  rw [step_alarms h, Kernel.alarmOf]
  cases s.alarmEvent e with
  | none => rfl
  | some x =>
    dsimp only [Kernel.alarmsAfter, Option.bind_some]
    by_cases hj : x.1 = j
    · rw [if_pos hj, ← hj, update_self]
      rfl
    · rw [if_neg hj, update_of_ne (Ne.symm hj)]
      rfl

/-! ### The promise -/

/-- What a process has been promised: the last interval and handler that it has given to `sigalarm`,
and how many timer traps have been counted since then, or since the handler has returned. -/
structure Promise where
  installed : Option (ℤ × Word)
  since : ℕ
  deriving DecidableEq

/-- What happens to the promise. `a` is the alarm before. -/
def Promise.step (g : Promise) (a : Alarm) : AlarmEvent → Promise
  | .spawn => ⟨none, 0⟩
  | .sigalarm n h => ⟨some (n, h), 0⟩
  | .tick => { g with since := g.since + 1 }
  | .sigreturn => if a.hlp = 0 then { g with since := 0 } else g

/-- The kernel, and what the process in one slot has been promised. -/
structure Promised where
  state : Kernel
  promise : Promise

/-- One event, with slot `j` watched. -/
def Promised.step (j : Slot) (x : Promised) (e : Event) : Option Promised :=
  (Xv6.step x.state e).map fun t =>
    ⟨t, (x.state.alarmOf j e).elim x.promise (x.promise.step (x.state.alarms j))⟩

/-- The machine before the first process. -/
def Promised.boot (m : Kmem) (l : List ℕ) : Promised := ⟨Xv6.boot m l, ⟨none, 0⟩⟩

/-- The condition on what happens to the alarm of a process: the slot that it gets has no alarm left
in it; when it asks for an alarm, the interval is positive and the traps that have been counted are
a multiple of it; and the count does not overflow. -/
def Alarm.Regular (a : Alarm) : AlarmEvent → Prop
  | .spawn => a.act ≠ 1
  | .sigalarm n _ => 0 < n ∧ n ∣ a.sTcks
  | .tick => a.sTcks < 2 ^ 31 - 1
  | .sigreturn => True

instance (a : Alarm) : (e : AlarmEvent) → Decidable (a.Regular e)
  | .spawn => inferInstanceAs (Decidable (_ ≠ _))
  | .sigalarm _ _ => inferInstanceAs (Decidable (_ ∧ _))
  | .tick => inferInstanceAs (Decidable (_ < _))
  | .sigreturn => inferInstanceAs (Decidable True)

/-- The condition, for the process in slot `j`. -/
def Promised.Regular (j : Slot) (x : Promised) (e : Event) : Prop :=
  ∀ a ∈ x.state.alarmOf j e, (x.state.alarms j).Regular a

instance (j : Slot) (x : Promised) (e : Event) : Decidable (x.Regular j e) :=
  inferInstanceAs (Decidable (∀ a ∈ x.state.alarmOf j e, (x.state.alarms j).Regular a))

/-! ### The promise is kept -/

/-- The count is where the promise says. -/
structure Kept (a : Alarm) (g : Promise) : Prop where
  hlp : a.hlp = 0 ∨ a.hlp = 1
  count : 0 ≤ a.sTcks ∧ a.sTcks < 2 ^ 31
  installed : a.act = 1 → 0 < a.ticks ∧ g.installed = some (a.ticks, a.handler)
  none : a.act ≠ 1 → g.installed = none
  inside : a.act = 1 → a.hlp = 0 → a.ticks ∣ a.sTcks
  outside : a.act = 1 → a.hlp = 1 → (g.since : ℤ) < a.ticks ∧ a.ticks ∣ a.sTcks - g.since

section Kept

variable {a : Alarm} {g : Promise}

/-- The next count is a multiple of the interval when the interval is over. -/
theorem Kept.dvd_iff (h : Kept a g) (hact : a.act = 1) (hhlp : a.hlp = 1) :
    a.ticks ∣ a.sTcks + 1 ↔ (g.since : ℤ) + 1 = a.ticks := by
  obtain ⟨hlt, hdvd⟩ := h.outside hact hhlp
  have hsum : a.sTcks + 1 = (a.sTcks - g.since) + (g.since + 1) := by omega
  rw [hsum, Int.dvd_add_right hdvd]
  constructor
  · intro hd
    have := Int.le_of_dvd (by omega) hd
    omega
  · intro he
    exact he ▸ Int.dvd_refl _

theorem Kept.wrap (h : Kept a g) (hlt : a.sTcks < 2 ^ 31 - 1) :
    wrapInt (a.sTcks + 1) = a.sTcks + 1 := by
  have := h.count
  exact wrapInt_of_lt (by omega) (by omega)

/-- The test of `usertrap`. -/
theorem Kept.enters_iff (h : Kept a g) (hact : a.act = 1) (hhlp : a.hlp = 1)
    (hreg : a.Regular .tick) :
    (wrapInt (a.sTcks + 1)).tmod a.ticks = 0 ↔ (g.since : ℤ) + 1 = a.ticks := by
  rw [h.wrap hreg, ← h.dvd_iff hact hhlp]
  exact Int.dvd_iff_tmod_eq_zero.symm

/-- What the condition allows keeps the promise. -/
theorem Kept.step (h : Kept a g) {e : AlarmEvent} (hreg : a.Regular e)
    (htick : e = .tick → a.act = 1 ∧ a.hlp = 1) : Kept (a.step e) (g.step a e) := by
  cases e with
  | spawn =>
    have hzero : (0 : ℤ) < 2 ^ 31 := by decide
    exact ⟨.inr rfl, ⟨le_rfl, hzero⟩, fun h => absurd h hreg, fun _ => rfl,
      fun h => absurd h hreg, fun h => absurd h hreg⟩
  | sigalarm n w =>
    refine ⟨h.hlp, h.count, fun _ => ⟨hreg.1, rfl⟩, fun hne => absurd rfl hne, fun _ _ => hreg.2,
      fun _ _ => ⟨hreg.1, ?_⟩⟩
    change n ∣ a.sTcks - (0 : ℕ)
    rw [Int.natCast_zero, Int.sub_zero]
    exact hreg.2
  | tick =>
    obtain ⟨hact, hhlp⟩ := htick rfl
    have henter := h.enters_iff hact hhlp hreg
    have hdvd := h.dvd_iff hact hhlp
    have hwrap := h.wrap hreg
    obtain ⟨hlt, hmod⟩ := h.outside hact hhlp
    have hcount := h.count
    have hmax : a.sTcks < 2 ^ 31 - 1 := hreg
    rw [Alarm.step]
    by_cases he : (g.since : ℤ) + 1 = a.ticks
    · -- the handler is entered
      rw [if_pos (henter.2 he), hwrap]
      refine ⟨.inl rfl, by dsimp only; omega, h.installed, h.none, fun _ _ => hdvd.2 he, ?_⟩
      exact fun _ h₁ => absurd h₁ (by dsimp only; omega)
    · rw [if_neg fun h => he (henter.1 h), hwrap]
      refine ⟨h.hlp, by dsimp only; omega, h.installed, h.none, fun _ h₀ => ?_,
        fun _ _ => ⟨?_, ?_⟩⟩
      · exact absurd (h₀.symm.trans hhlp) (by decide)
      · change ((g.since + 1 : ℕ) : ℤ) < a.ticks
        omega
      · change a.ticks ∣ a.sTcks + 1 - ((g.since + 1 : ℕ) : ℤ)
        have hsub : a.sTcks + 1 - ((g.since + 1 : ℕ) : ℤ) = a.sTcks - g.since := by omega
        rwa [hsub]
  | sigreturn =>
    have hout : (a.step .sigreturn).hlp ≠ 0 := Int.one_ne_zero
    rw [Promise.step]
    split_ifs with h₀
    · -- the handler returns
      refine ⟨.inr rfl, h.count, h.installed, h.none, fun _ h₁ => absurd h₁ hout,
        fun ha _ => ⟨?_, ?_⟩⟩
      · exact (h.installed ha).1
      · change a.ticks ∣ a.sTcks - (0 : ℕ)
        rw [Int.natCast_zero, Int.sub_zero]
        exact h.inside ha h₀
    · have h₁ := h.hlp.resolve_left h₀
      exact ⟨.inr rfl, h.count, h.installed, h.none, fun _ h₁ => absurd h₁ hout,
        fun ha _ => h.outside ha h₁⟩

end Kept

section Runs

variable {j : Slot} {x y : Promised} {e : Event} {u : Page} {t : Kernel}

/-- A timer trap is counted when the alarm is active and the process is not in its handler. -/
theorem counts_of_tick {s : Kernel} (h : s.alarmOf j e = some .tick) :
    (s.alarms j).act = 1 ∧ (s.alarms j).hlp = 1 := by
  obtain ⟨⟨i, a⟩, hx, hj⟩ := Option.bind_eq_some_iff.1 h
  split_ifs at hj with hij
  cases hj
  obtain rfl : i = j := hij
  cases e with
  | trap k u cause =>
    cases cause with
    | syscall r =>
      -- a call creates a process, installs an alarm or ends a handler
      simp only [Kernel.alarmEvent, Kernel.callAlarm, Kernel.forkAlarm] at hx
      repeat' split at hx
      all_goals cases hx
    | timer =>
      rw [Kernel.alarmEvent] at hx
      split_ifs at hx with hc
      obtain rfl := (Prod.mk.inj (Option.some.inj hx)).1
      have hcounts := hc.2.1
      rw [Kernel.counts, Bool.and_eq_true, decide_eq_true_eq, decide_eq_true_eq] at hcounts
      exact hcounts
    | device | fault => cases hx
  | userinit pt =>
    rw [Kernel.alarmEvent] at hx
    split_ifs at hx
    cases hx
  | _ => cases hx

theorem Promised.step_kept (h : Kept (x.state.alarms j) x.promise) (hreg : x.Regular j e)
    (hstep : x.step j e = some y) : Kept (y.state.alarms j) y.promise := by
  obtain ⟨t, ht, rfl⟩ := Option.map_eq_some_iff.1 hstep
  dsimp only
  rw [step_alarm ht j]
  cases ha : x.state.alarmOf j e with
  | none => exact h
  | some a =>
    refine h.step (hreg a ha) fun he => ?_
    subst he
    exact counts_of_tick ha

theorem kept_boot (m : Kmem) (l : List ℕ) :
    Kept ((Promised.boot m l).state.alarms j) (Promised.boot m l).promise := by
  have hact : (0 : ℤ) ≠ 1 := Int.zero_ne_one
  have hzero : (0 : ℤ) < 2 ^ 31 := by decide
  exact ⟨.inl rfl, ⟨le_rfl, hzero⟩, fun h => absurd h hact, fun _ => rfl, fun h => absurd h hact,
    fun h => absurd h hact⟩

/-- The promise is kept along every run that meets the condition. -/
theorem run_kept {m : Kmem} {l : List ℕ} {es : List Event}
    (hrun : runEvents (restrict (Promised.Regular j) (Promised.step j)) (Promised.boot m l) es =
      some x) : Kept (x.state.alarms j) x.promise := by
  refine runEvents_invariant (I := fun x => Kept (x.state.alarms j) x.promise)
    (fun x e y hkept hstep => ?_) (kept_boot m l) hrun
  obtain ⟨hreg, hstep⟩ := restrict_eq_some.1 hstep
  exact Promised.step_kept hkept hreg hstep

/-- A timer trap of a live process, which finds a page for the saved trapframe, is counted outside
of the handler. -/
theorem alarmOf_timer (s : Kernel) (j : Slot) (u : Page) : s.alarmOf j (.trap j u .timer) =
    if (s.proc j).killed = 0 ∧ Kernel.counts (s.proc j) ∧ s.kmem.freelist ≠ 0 then some .tick
    else none := by
  rw [Kernel.alarmOf, Kernel.alarmEvent]
  split_ifs
  · simp
  · rfl

theorem alarmOf_timer_iff (s : Kernel) (j : Slot) (u : Page) :
    s.alarmOf j (.trap j u .timer) = some .tick ↔
      (s.proc j).killed = 0 ∧ ((s.alarms j).act = 1 ∧ (s.alarms j).hlp = 1) ∧
        s.kmem.freelist ≠ 0 := by
  have hcounts : Kernel.counts (s.proc j) = true ↔ (s.alarms j).act = 1 ∧ (s.alarms j).hlp = 1 := by
    rw [Kernel.counts, Bool.and_eq_true, decide_eq_true_eq, decide_eq_true_eq]
    rfl
  rw [alarmOf_timer, ← hcounts]
  split_ifs with hc
  · exact iff_of_true rfl hc
  · exact iff_of_false (by simp) hc

/-- Where a process goes on after a timer trap that enters its handler. -/
theorem epc_alarmTick {s : Kernel} (hc : Kernel.counts (s.proc j)) (hne : s.kmem.freelist ≠ 0)
    (he : Kernel.enters (s.proc j)) : (s.alarmTick j).frame j Tf.epc = (s.proc j).handler := by
  have hk : (s.kalloc (.alarm j)).1 ≠ 0 := by rwa [Kernel.kalloc_eq hne]
  rw [Kernel.alarmTick, if_pos hc, if_neg hk, if_pos he, Kernel.enterHandler,
    Kernel.frame_upd _ _ _ (by simp), Kernel.setReg, Kernel.frame_setFrame, update_self]
  have hsave (s' : Kernel) (tf : ℕ) : ((s'.saveFrame j tf).alarms j).handler =
      (s'.alarms j).handler := by
    rw [Kernel.alarms_saveFrame, update_self]
  exact (hsave _ _).trans (congrArg (fun f => (f j).handler) (Kernel.alarms_kalloc s _))

theorem epc_timer {s : Kernel} (hstep : step s (.trap j u .timer) = some t)
    (htick : s.alarmOf j (.trap j u .timer) = some .tick) (he : Kernel.enters (s.proc j)) :
    t.frame j Tf.epc = (s.alarms j).handler := by
  rw [alarmOf_timer] at htick
  split_ifs at htick with hc
  obtain ⟨-, h⟩ := stepEvent_of_step hstep
  simp only [stepEvent] at h
  split_ifs at h with hrun
  have hk : ¬ ((s.enterKernel j u).proc j).killed ≠ 0 := not_not.2 hc.1
  rw [Kernel.usertrap, if_neg hk] at h
  cases h
  rw [Kernel.frame_upd _ _ _ (by simp [Proc.setState])]
  exact epc_alarmTick (s := s.enterKernel j u) hc.2.1 hc.2.2 he

/-- **Alarms go off on time.** Take any run of the kernel in which the process in slot `j` meets the
condition, and then a timer trap of the process. The trap enters the handler if and only if the
process is live and outside its handler, and this is the `n`-th counted trap since the latest of its
last `sigalarm(n, h)` and its last return from the handler; it is `h` that is entered; and a counted
trap never divides by `0`. -/
theorem alarm_schedule {m : Kmem} {l : List ℕ} {es : List Event}
    (hrun : runEvents (restrict (Promised.Regular j) (Promised.step j)) (Promised.boot m l) es =
      some x)
    (hreg : x.Regular j (.trap j u .timer)) (htrap : step x.state (.trap j u .timer) = some t) :
    ((x.state.alarms j).hlp = 1 ∧ (t.alarms j).hlp = 0 ↔
      (x.state.proc j).killed = 0 ∧ x.state.kmem.freelist ≠ 0 ∧ (x.state.alarms j).hlp = 1 ∧
        ∃ n h, x.promise.installed = some (n, h) ∧ (x.promise.since : ℤ) + 1 = n) ∧
    ((x.state.alarms j).hlp = 1 → (t.alarms j).hlp = 0 →
      ∃ n h, x.promise.installed = some (n, h) ∧ t.frame j Tf.epc = h) ∧
    (x.state.alarmOf j (.trap j u .timer) = some .tick → (x.state.alarms j).ticks ≠ 0) := by
  have hkept := run_kept hrun
  have hafter := step_alarm htrap j
  have hcounted := alarmOf_timer_iff x.state j u
  by_cases htick : x.state.alarmOf j (.trap j u .timer) = some .tick
  · obtain ⟨hlive, ⟨hact, hout⟩, hfree⟩ := hcounted.1 htick
    obtain ⟨hpos, hins⟩ := hkept.installed hact
    have henter := hkept.enters_iff hact hout (hreg _ htick)
    rw [htick] at hafter
    have hhlp : (t.alarms j).hlp = 0 ↔ (x.promise.since : ℤ) + 1 = (x.state.alarms j).ticks := by
      rw [← henter, hafter, Option.elim_some, Alarm.step]
      dsimp only
      rw [hout, ite_eq_left_iff]
      simp
    refine ⟨?_, fun _ h₀ => ⟨_, _, hins, ?_⟩, fun _ => ne_of_gt hpos⟩
    · simp [hlive, hfree, hout, hins, hhlp, eq_comm]
    · exact epc_timer htrap htick (decide_eq_true (henter.2 (hhlp.1 h₀)))
  · -- a trap that is not counted changes nothing, and it is not one that should enter the handler
    have hsame : t.alarms j = x.state.alarms j := by
      have hnone : x.state.alarmOf j (.trap j u .timer) = none := by
        rw [alarmOf_timer] at htick ⊢
        exact if_neg fun h => htick (if_pos h)
      rw [hafter, hnone]
      rfl
    have hhlp : (x.state.alarms j).hlp = 1 → (t.alarms j).hlp ≠ 0 := by
      intro h₁ h₀
      rw [hsame, h₁] at h₀
      exact absurd h₀ (by decide)
    refine ⟨⟨fun h => absurd h.2 (hhlp h.1), ?_⟩, fun h₁ h₀ => absurd h₀ (hhlp h₁),
      fun h => absurd h htick⟩
    rintro ⟨hlive, hfree, hout, n, h, hins, -⟩
    by_cases hact : (x.state.alarms j).act = 1
    · exact absurd (hcounted.2 ⟨hlive, ⟨hact, hout⟩, hfree⟩) htick
    · rw [hkept.none hact] at hins
      cases hins

end Runs

/-- A timer trap of the first process. -/
def timerTrap : Event := .trap 0 (callRegs 0 0 0) .timer

/-- With the interval `2`, the second trap enters the handler. -/
theorem alarm_schedule_everyTwo : ∃ x t,
    runEvents (restrict (Promised.Regular 0) (Promised.step 0)) (Promised.boot fewPages fewFree)
      (alarmEvery 2 ++ tick 0) = some x ∧ x.Regular 0 timerTrap ∧
    step x.state timerTrap = some t ∧ x.promise = ⟨some (2, 0x1000), 1⟩ ∧ (t.alarms 0).hlp = 0 ∧
    t.frame 0 Tf.epc = 0x1000 := by
  obtain ⟨x, hrun, ⟨hreg, hprom, hlive, hfree, hout⟩, t, htrap, -⟩ :
      ∃ x, runEvents (restrict (Promised.Regular 0) (Promised.step 0))
        (Promised.boot fewPages fewFree) (alarmEvery 2 ++ tick 0) = some x ∧
        (x.Regular 0 timerTrap ∧ x.promise = ⟨some (2, 0x1000), 1⟩ ∧ (x.state.proc 0).killed = 0 ∧
          x.state.kmem.freelist ≠ 0 ∧ (x.state.alarms 0).hlp = 1) ∧
        ∃ t, step x.state timerTrap = some t ∧ True := by
    decide +kernel
  obtain ⟨henter, hepc, -⟩ := alarm_schedule hrun hreg htrap
  obtain ⟨-, h₀⟩ := henter.2 ⟨hlive, hfree, hout, 2, 0x1000, by rw [hprom], by rw [hprom]; rfl⟩
  obtain ⟨n, w, hins, hw⟩ := hepc hout h₀
  rw [hprom] at hins
  obtain ⟨-, rfl⟩ := Prod.mk.inj (Option.some.inj hins)
  exact ⟨x, t, hrun, hreg, htrap, hprom, h₀, hw⟩

/-- **Alarms do not always go off on time.** After `sigalarm(2, h)`, a timer trap and
`sigalarm(2, h)` again, the first trap enters the handler. After `sigalarm(0, h)` the next timer
trap is counted, and divides by `0`. -/
theorem alarm_off_schedule :
    (∃ x t, runEvents (Promised.step 0) (Promised.boot fewPages fewFree)
        (alarmEvery 2 ++ tick 0 ++ [.trap 0 (callRegs 24 2 0x1000) (.syscall {})]) = some x ∧
      step x.state timerTrap = some t ∧ x.promise = ⟨some (2, 0x1000), 0⟩ ∧
      (x.state.alarms 0).hlp = 1 ∧ (t.alarms 0).hlp = 0) ∧
    ∃ x, runEvents (Promised.step 0) (Promised.boot fewPages fewFree) (alarmEvery 0) = some x ∧
      x.state.alarmOf 0 timerTrap = some .tick ∧ (x.state.alarms 0).ticks = 0 ∧
      (step x.state timerTrap).isSome := by
  obtain ⟨x, hrun, t, ht⟩ : ∃ x, runEvents (Promised.step 0) (Promised.boot fewPages fewFree)
      (alarmEvery 2 ++ tick 0 ++ [.trap 0 (callRegs 24 2 0x1000) (.syscall {})]) = some x ∧
      ∃ t, step x.state timerTrap = some t ∧ x.promise = ⟨some (2, 0x1000), 0⟩ ∧
        (x.state.alarms 0).hlp = 1 ∧ (t.alarms 0).hlp = 0 := by
    decide +kernel
  exact ⟨⟨x, t, hrun, ht⟩, by decide +kernel⟩

end Xv6
