import Xv6.Alarm.Ledger

/-!
# The parts of a step

A step of the kernel is a sequence of parts: a slot changes in a way that matters to nobody but its
process, a trapframe is written, a process is made or freed, the alarm code runs, and so on. `Op`
lists them, each with what holds before it, with its marks in the ledger of pages, and with what it
does to the alarm of a process. What a step keeps, and how it changes what it does not keep, is then
shown part by part.
-/

namespace Xv6

open Function (update update_self update_of_ne)

/-- The fields of a slot that neither `freeproc` nor `allocproc` nor `fork` sets before the next
process uses them; `freeproc` does reset `killed`, but a free slot can still be killed. -/
structure Leftover where
  alarmAct : ℤ
  ticks : ℤ
  handler : Word
  alarmTf : ℕ
  killed : ℤ
  deriving DecidableEq, Repr

/-- What a slot holds for its next process. -/
def Proc.leftover (p : Proc) : Leftover := ⟨p.alarmAct, p.ticks, p.handler, p.alarmTf, p.killed⟩

/-! ### Events -/

/-- The changes of a slot that only some events make. -/
inductive StepLabel
  | plain
  | alloc
  | fault
  | sigalarm
  | kill (pid : ℤ)
  deriving DecidableEq, Repr

/-- The system call that an event makes, if it makes one: the caller and the saved registers. -/
def Event.syscall : Event → Option (Slot × Page)
  | .trap i u (.syscall _) => some (i, u)
  | _ => none

/-- Whether the event is a call of `sigalarm` by the process in slot `j`. -/
def Event.sigalarms (e : Event) (j : Slot) : Bool :=
  e.syscall.any fun (i, u) => i = j && Kernel.sysno u = 24

/-- Whether the event is a call of `kill` for `pid`. -/
def Event.kills (e : Event) (pid : ℤ) : Bool :=
  e.syscall.any fun (_, u) => Kernel.sysno u = 6 && toInt (u Tf.a0) = pid

/-- Whether the event makes a process. -/
def Event.allocates (e : Event) : Bool :=
  match e with
  | .userinit _ => true
  | e => e.syscall.any fun (_, u) => Kernel.sysno u = 1

/-- Whether the event is a trap of the process in slot `j` that is an error. -/
def Event.faults (j : Slot) : Event → Bool
  | .trap i _ .fault => i = j
  | _ => false

/-- The changes that an event can make to slot `j`, in detail. -/
def Event.Permits (e : Event) (j : Slot) : StepLabel → Prop
  | .plain => True
  | .alloc => e.allocates
  | .fault => e.faults j
  | .sigalarm => e.sigalarms j
  | .kill pid => e.kills pid

/-- What can happen to the alarm of a process. -/
inductive AlarmEvent
  /-- `allocproc` sets the process up. -/
  | spawn
  | sigalarm (n : ℤ) (h : Word)
  /-- A timer trap is counted. -/
  | tick
  | sigreturn
  deriving DecidableEq

namespace Kernel

variable {s t u : Kernel} {i j : Slot} {num : ℕ}

/-- The process in slot `i` is there. -/
abbrev Live (s : Kernel) (i : Slot) : Prop := (s.proc i).state ≠ .unused

/-- The numbers of tickets that processes have. -/
def Holds (s : Kernel) (n : ℤ) : Prop := ∃ i, (s.proc i).state ≠ .unused ∧ (s.proc i).tickets = n

/-! ### What an event will do -/

/-- What `fork` will do once it has found slot `j`. -/
def forkIntoMarks (s : Kernel) (j : Slot) (r : ForkResult) : List Mark :=
  if s.kmem.freelist = 0 then []
  else
    match r with
    | .ok _ => [.spawn j]
    | _ => [.spawn j, .reap j]

/-- What `fork` will do. -/
def forkMarks (s : Kernel) (r : ForkResult) : List Mark :=
  s.findUnused.elim [] fun j => s.forkIntoMarks j r

/-- What `wait` will do. -/
def waitMarks (s : Kernel) (i : Slot) (copyout : Bool) : List Mark :=
  (s.findChild i fun p => p.state = .zombie).elim [] fun j => if copyout then [.reap j] else []

/-- What a system call will do. -/
def callMarks (s : Kernel) (i : Slot) (r : Outcome) : ℕ → List Mark
  | 1 => s.forkMarks r.fork
  | 3 => s.waitMarks i r.copyout
  | 22 => s.waitMarks i r.copyout
  | 25 => [.restore i]
  | _ => []

/-- What `syscall` will do. -/
def syscallMarks (s : Kernel) (i : Slot) (r : Outcome) : List Mark :=
  let num := sysno (s.frame i)
  if 0 < num ∧ num < 28 then (s.countCall i num.toNat).callMarks i r num.toNat else []

/-- What the alarm code will do. -/
def tickMarks (s : Kernel) (i : Slot) : List Mark :=
  if counts (s.proc i) ∧ s.kmem.freelist ≠ 0 then
    .save i :: if enters (s.proc i) then [.enter i] else []
  else []

/-- What `usertrap` will do. -/
def trapMarks (s : Kernel) (i : Slot) : Trap → List Mark
  | .syscall r =>
    if (s.proc i).killed ≠ 0 then []
    else (s.setReg i Tf.epc (s.frame i Tf.epc + 4)).syscallMarks i r
  | .timer => if (s.proc i).killed ≠ 0 then [] else s.tickMarks i
  | _ => []

/-- What an event will do to processes and alarms. -/
def marks (s : Kernel) : Event → List Mark
  | .userinit _ => if s.kmem.freelist = 0 then [] else [.spawn initproc]
  | .trap i u cause => (s.enterKernel i u).trapMarks i cause
  | _ => []

/-- What `fork` does to the alarm of the slot that it finds. -/
def forkAlarm (s : Kernel) (r : ForkResult) : Option (Slot × AlarmEvent) :=
  match s.findUnused with
  | none => none
  | some j => if s.kmem.freelist = 0 ∨ r = .noPagetable then none else some (j, .spawn)

/-- What a system call of the process in slot `i` does to an alarm. -/
def callAlarm (s : Kernel) (i : Slot) (u : Page) (r : Outcome) : Option (Slot × AlarmEvent) :=
  if (s.proc i).killed ≠ 0 then none
  else if sysno u = 1 then s.forkAlarm r.fork
  else if sysno u = 24 then some (i, .sigalarm (toInt (u Tf.a0)) (u Tf.a1))
  else if sysno u = 25 then if (s.proc i).alarmTf = 0 then none else some (i, .sigreturn)
  else none

/-- What an event does to an alarm: to which, and what. -/
def alarmEvent (s : Kernel) : Event → Option (Slot × AlarmEvent)
  | .userinit _ => if s.kmem.freelist = 0 then none else some (initproc, .spawn)
  | .trap i u (.syscall r) => s.callAlarm i u r
  | .trap i _ .timer =>
    if (s.proc i).killed = 0 ∧ counts (s.proc i) ∧
      s.kmem.freelist ≠ 0 then some (i, .tick) else none
  | _ => none

/-! ### Slots and frames -/

@[simp] theorem write_proc (s : Kernel) (p : ℕ) (pg : Page) : (s.write p pg).proc = s.proc := rfl

@[simp] theorem setReg_proc (s : Kernel) (i : Slot) (k : Fin 512) (w : Word) :
    (s.setReg i k w).proc = s.proc := rfl

@[simp] theorem kalloc_proc (s : Kernel) (o : Owner) : (s.kalloc o).2.proc = s.proc := by
  rw [kalloc]
  split_ifs <;> rfl

@[simp] theorem kfree_proc (s : Kernel) (p : ℕ) : (s.kfree p).proc = s.proc := by
  rw [kfree]
  split <;> rfl

@[simp] theorem upd_self (s : Kernel) (i : Slot) (f : Proc → Proc) :
    (s.upd i f).proc i = f (s.proc i) := by
  simp [upd]

theorem initSlot_trapframe (s : Kernel) (j : Slot) (pid : ℤ) (tf pt : ℕ) :
    ((s.initSlot j pid tf pt).proc j).trapframe = tf := by
  simp [initSlot, upd, Proc.allocInit]

theorem freeproc_proc (s : Kernel) (i : Slot) :
    (s.freeproc i).proc = update s.proc i (s.proc i).free := by
  have hproc : (if (s.proc i).trapframe ≠ 0 then s.kfree (s.proc i).trapframe else s).proc =
      s.proc := by
    split_ifs <;> simp
  rw [freeproc, upd, hproc]

theorem reparent_state (s : Kernel) (i k : Slot) :
    ((s.reparent i).proc k).state = (s.proc k).state := by
  rw [Kernel.reparent]
  dsimp only
  split_ifs <;> rfl

theorem frame_setFrame (s : Kernel) (i : Slot) (pg : Page) : (s.setFrame i pg).frame i = pg := by
  simp [frame, setFrame, write]

theorem frame_upd (s : Kernel) (i j : Slot) {f : Proc → Proc}
    (hf : ∀ p, (f p).trapframe = p.trapframe) : (s.upd i f).frame j = s.frame j := by
  by_cases hj : j = i
  · subst hj
    simp [frame, upd, hf]
  · simp [frame, upd, hj]

theorem frame_exit (s : Kernel) (i j : Slot) (status : ℤ) :
    (s.exit i status).frame j = s.frame j := by
  unfold exit
  split_ifs
  · rfl
  · rw [frame_upd _ _ _ (by simp)]
    unfold frame reparent
    dsimp only
    split_ifs <;> rfl

theorem frame_checkKilled (s : Kernel) (i j : Slot) : (s.checkKilled i).frame j = s.frame j := by
  unfold checkKilled
  split_ifs
  · exact frame_exit _ _ _ _
  · rfl

theorem frame_countCall (s : Kernel) (i j : Slot) (num : ℕ) :
    (s.countCall i num).frame j = s.frame j := by
  unfold countCall
  split
  · rfl
  · exact frame_upd _ _ _ fun _ => rfl

/-- The registers that `syscall` looks at are those the process trapped with. -/
theorem frame_enterKernel (s : Kernel) (i : Slot) (u : Page) {k : Fin 512}
    (hk : Tf.isUser k = true) : (s.enterKernel i u).frame i k = u k := by
  rw [enterKernel, frame_setFrame, saveUser, if_pos hk]

/-- The program counter is not one of the words that `syscall` looks at. -/
theorem frame_trap (s : Kernel) (i : Slot) (u : Page) (w : Word) {k : Fin 512}
    (hk : Tf.isUser k = true) (hne : k ≠ Tf.epc) :
    ((s.enterKernel i u).setReg i Tf.epc w).frame i k = u k := by
  rw [setReg, frame_setFrame, update_of_ne hne, frame_enterKernel _ _ _ hk]

/-- The number of a call, as `syscall` reads it. -/
theorem sysno_frame (s : Kernel) (i : Slot) (u : Page) (w : Word) :
    sysno (((s.enterKernel i u).setReg i Tf.epc w).frame i) = sysno u := by
  rw [sysno, frame_trap s i u w (by decide) (by decide), sysno]

/-- `countCall` changes nothing but a counter. -/
theorem countCall_eq (s : Kernel) (i : Slot) (num : ℕ) :
    (∀ j, ((s.countCall i num).proc j).state = (s.proc j).state ∧
      ((s.countCall i num).proc j).trapframe = (s.proc j).trapframe ∧
      ((s.countCall i num).proc j).alarmTf = (s.proc j).alarmTf ∧
      ((s.countCall i num).proc j).tickets = (s.proc j).tickets) ∧
    (s.countCall i num).kmem = s.kmem ∧ (s.countCall i num).owner = s.owner := by
  unfold Kernel.countCall
  split
  · simp
  · rename_i k _
    refine ⟨fun j => ?_, rfl, rfl⟩
    by_cases hj : j = k
    · simp [Kernel.upd, hj]
    · simp [Kernel.upd, hj]

theorem findUnused_state (h : s.findUnused = some j) : (s.proc j).state = .unused := by
  simpa using List.find?_some h

theorem findChild_zombie (h : s.findChild i (fun p => p.state = .zombie) = some j) :
    (s.proc j).state = .zombie := by
  have := List.find?_some h
  simp only [Bool.and_eq_true, decide_eq_true_eq] at this
  exact this.2

theorem kalloc_eq (hne : s.kmem.freelist ≠ 0) (o : Owner) :
    s.kalloc o = (s.kmem.freelist, { s with
      kmem := s.kmem.kalloc.2, owner := update s.owner s.kmem.freelist o }) := by
  have : s.kmem.kalloc.1 = s.kmem.freelist := by simp [Kmem.kalloc, hne]
  rw [Kernel.kalloc, if_neg hne, this]

/-- The caller of `fork` and `wait` is not freed by them. -/
theorem reap_notMem_callMarks (hrun : (s.proc i).state = .running) (r : Outcome) (num : ℕ) :
    .reap i ∉ s.callMarks i r num := by
  have hfork : .reap i ∉ s.forkMarks r.fork := by
    unfold Kernel.forkMarks
    cases hf : s.findUnused with
    | none => simp
    | some j =>
      have hij : i ≠ j := by
        rintro rfl
        simp [findUnused_state hf] at hrun
      simp only [Option.elim_some, Kernel.forkIntoMarks]
      split_ifs
      · simp
      · split <;> simp [hij]
  have hwait : .reap i ∉ s.waitMarks i r.copyout := by
    unfold Kernel.waitMarks
    cases hf : s.findChild i fun p => p.state = .zombie with
    | none => simp
    | some j =>
      have hij : i ≠ j := by
        rintro rfl
        simp [findChild_zombie hf] at hrun
      simp only [Option.elim_some]
      split_ifs <;> simp [hij]
  unfold Kernel.callMarks
  split <;> simp [hfork, hwait]

/-- What `call` will do to an alarm is known when the process traps. -/
theorem callAlarm_trap {u : Page} {r : Outcome} {w : Word} (hk : (s.proc i).killed = 0) :
    let s' := ((s.enterKernel i u).setReg i Tf.epc w).countCall i (sysno u).toNat
    (if (sysno u).toNat = 1 then s'.forkAlarm r.fork
      else if (sysno u).toNat = 24 then
        some (i, .sigalarm (toInt (s'.frame i Tf.a0)) (s'.frame i Tf.a1))
      else if (sysno u).toNat = 25 then
        if (s'.proc i).alarmTf = 0 then none else some (i, .sigreturn)
      else none) = s.callAlarm i u r := by
  intro s'
  have hnum (k : ℕ) (hk : 0 < k) : (sysno u).toNat = k ↔ sysno u = k := by omega
  obtain ⟨hproc, hkmem, -⟩ :=
    countCall_eq ((s.enterKernel i u).setReg i Tf.epc w) i (sysno u).toNat
  have hframe {k : Fin 512} (hk : Tf.isUser k = true) (hne : k ≠ Tf.epc) : s'.frame i k = u k := by
    rw [frame_countCall, frame_trap _ _ _ _ hk hne]
  have hfind : s'.findUnused = s.findUnused := by
    rw [findUnused, findUnused]
    refine congrArg (fun q => List.find? q _) (funext fun j => ?_)
    rw [(hproc j).1]
    rfl
  have hfork : s'.forkAlarm r.fork = s.forkAlarm r.fork := by
    have hfree : s'.kmem.freelist = s.kmem.freelist := (congrArg Kmem.freelist hkmem).trans rfl
    rw [forkAlarm, forkAlarm, hfind, hfree]
  have halarm : (s'.proc i).alarmTf = (s.proc i).alarmTf := (hproc i).2.2.1
  rw [callAlarm, if_neg (not_not.2 hk), hfork, halarm, hframe rfl (by decide),
    hframe rfl (by decide)]
  simp only [hnum 1 (by decide), hnum 24 (by decide), hnum 25 (by decide)]
  rfl

end Kernel

/-! ### Parts -/

open Kernel

/-- A slot keeps its process, if any, and all that is told apart. Its tickets may become others, of
its own choice or from `T`. -/
structure Quiet (T : ℤ → Prop) (p q : Proc) : Prop where
  leftover : q.leftover = p.leftover
  pid : q.pid = p.pid
  unused : q.state = .unused ↔ p.state = .unused
  tickets : q.tickets = p.tickets ∨ 1 ≤ q.tickets ∨ T q.tickets
  trapframe : q.trapframe = p.trapframe
  sTcks : q.sTcks = p.sTcks
  hlp : q.hlp = p.hlp

/-- A part of the step that event `e` makes from `σ`, with its marks and its alarm event. -/
inductive Op (σ : Kernel) (e : Event) (s : Kernel) :
    List Mark → Option (Slot × AlarmEvent) → Kernel → Prop
  | quiet {t : Kernel} (hk : t.kmem = s.kmem) (ho : t.owner = s.owner)
      (h : ∀ j, Quiet σ.Holds (s.proc j) (t.proc j)) : Op σ e s [] none t
  | frame {i : Slot} (hi : s.Live i) (pg : Page) : Op σ e s [] none (s.setFrame i pg)
  /-- A trap that is an error. -/
  | fault {i : Slot} (hi : s.Live i) (ha : e.Permits i .fault) :
      Op σ e s [] none (s.upd i fun p => { p with killed := 1 })
  | kill {i : Slot} (ha : e.Permits i (.kill (s.proc i).pid)) :
      Op σ e s [] none (s.upd i fun p => { p with
        killed := 1, state := if p.state = .sleeping then .runnable else p.state })
  | sigalarm {i : Slot} (ha : e.Permits i .sigalarm) (n : ℤ) (h : Word) :
      Op σ e s [] (some (i, .sigalarm n h))
        (s.upd i fun p => { p with ticks := n, handler := h, alarmAct := 1 })
  | restore {i : Slot} (hi : s.Live i) (h₀ : (s.proc i).alarmTf ≠ 0)
      (hown : σ.owner (σ.proc i).alarmTf = .alarm i → s.owner (s.proc i).alarmTf = .alarm i) :
      Op σ e s [.restore i] (some (i, .sigreturn)) (s.restoreFrame i (s.proc i).alarmTf)
  /-- A `sigreturn` that finds no frame. -/
  | lost {i : Slot} (h₀ : (s.proc i).alarmTf = 0)
      (hown : σ.owner (σ.proc i).alarmTf = .alarm i → s.owner (s.proc i).alarmTf = .alarm i) :
      Op σ e s [.restore i] none s.halt
  | tick {i : Slot} (hi : s.Live i) (hc : counts (s.proc i)) (hne : s.kmem.freelist ≠ 0) :
      Op σ e s (s.tickMarks i) (some (i, .tick)) (s.alarmTick i)
  /-- A free slot gets a new process. -/
  | alloc {j : Slot} (hj : (s.proc j).state = .unused) (ha : e.Permits j .alloc)
      (hne : s.kmem.freelist ≠ 0) (pid : ℤ) (pt : ℕ) :
      Op σ e s [.spawn j] (some (j, .spawn))
        ((s.kalloc (.frame j)).2.initSlot j pid s.kmem.freelist pt)
  /-- There is no page table for a new process. -/
  | fail {j : Slot} (hj : (s.proc j).state = .unused) (hne : s.kmem.freelist ≠ 0) :
      Op σ e s [.spawn j, .reap j] none
        (((s.kalloc (.frame j)).2.kfree s.kmem.freelist).upd j Proc.free)
  /-- There is no trapframe for a new process. -/
  | clear {j : Slot} (hj : (s.proc j).state = .unused) : Op σ e s [] none (s.upd j Proc.free)
  | reap {j : Slot} (hj : s.Live j) : Op σ e s [.reap j] none (s.freeproc j)
  /-- The rest of the kernel takes, frees or writes a page. -/
  | take : Op σ e s [] none (s.kalloc .other).2
  | give {p : ℕ} (hp : s.owner p = .other) : Op σ e s [] none (s.kfree p)
  | put {p : ℕ} (hp : s.owner p = .other) (pg : Page) : Op σ e s [] none (s.write p pg)

/-- Parts of a step, one after the other. -/
inductive Path (σ : Kernel) (e : Event) :
    Kernel → List Mark → List (Slot × AlarmEvent) → Kernel → Prop
  | refl (s : Kernel) : Path σ e s [] [] s
  | step {s t u : Kernel} {ms ms' : List Mark} {x : Option (Slot × AlarmEvent)}
      {xs : List (Slot × AlarmEvent)} (h : Op σ e s ms x t) (h' : Path σ e t ms' xs u) :
      Path σ e s (ms ++ ms') (x.toList ++ xs) u

variable {σ s t v : Kernel} {e : Event} {i j : Slot} {ms ms' : List Mark}
  {x : Option (Slot × AlarmEvent)} {xs xs' : List (Slot × AlarmEvent)}

/-- The process in slot `i` is kept by a change of slot `k` that leaves `k` in use. -/
theorem Kernel.Live.of_update {k : Slot} {q : Proc} (hp : t.proc = update s.proc k q)
    (hi : s.Live i) (hq : i = k → q.state ≠ .unused) : t.Live i := by
  by_cases hik : i = k
  · rw [Live, hp, hik, update_self]
    exact hq hik
  · rw [Live, hp, update_of_ne hik]
    exact hi

theorem Op.live (h : Op σ e s ms x t) (hi : s.Live i) (hr : .reap i ∉ ms) : t.Live i := by
  cases h with
  | quiet _ _ h => exact mt (h i).unused.1 hi
  | frame | put | lost => exact hi
  | take => rwa [Live, kalloc_proc]
  | give => rwa [Live, kfree_proc]
  | fault hk | sigalarm => exact .of_update rfl hi fun h => h ▸ hi
  | @kill k =>
    refine .of_update rfl hi fun h => ?_
    subst h
    dsimp only
    split_ifs
    · nofun
    · exact hi
  | @restore k =>
    refine .of_update (k := k) rfl (by rwa [Live, kfree_proc]) fun h => ?_
    subst h
    rwa [kfree_proc]
  | @tick k _ hc hne =>
    have hsave (tf : ℕ) : ((s.kalloc (.alarm k)).2.saveFrame k tf).Live i := by
      refine .of_update (k := k) rfl (by rwa [Live, write_proc, kalloc_proc]) fun h => ?_
      subst h
      rwa [write_proc, kalloc_proc]
    rw [alarmTick, if_pos hc]
    dsimp only
    split_ifs
    · exact hi
    · exact .of_update (k := k) rfl (hsave _) fun h => h ▸ hsave _
    · exact hsave _
  | @alloc k =>
    refine .of_update (k := k) rfl (by rwa [Live, kalloc_proc]) fun _ => ?_
    simp [Proc.allocInit]
  | @fail k hk =>
    refine .of_update (k := k) rfl (by rwa [Live, kfree_proc, kalloc_proc]) fun h => ?_
    exact absurd (h ▸ hk) hi
  | clear hk => exact .of_update rfl hi fun h => absurd (h ▸ hk) hi
  | @reap k => exact .of_update (freeproc_proc s k) hi fun h => absurd (by simp [h]) hr

namespace Path

/-- A process stays where it is until it is reaped. -/
theorem live (h : Path σ e s ms xs t) (hi : s.Live i) (hr : .reap i ∉ ms) : t.Live i := by
  induction h with
  | refl => exact hi
  | step h _ ih =>
    rw [List.mem_append, not_or] at hr
    exact ih (h.live hi hr.1) hr.2

theorem of (h : Op σ e s ms x t) : Path σ e s ms x.toList t := by
  simpa using Path.step h (.refl t)

theorem andThen (h : Op σ e s [] none t) (h' : Path σ e t ms xs v) : Path σ e s ms xs v :=
  .step h h'

theorem trans (h : Path σ e s ms xs t) (h' : Path σ e t ms' xs' v) :
    Path σ e s (ms ++ ms') (xs ++ xs') v := by
  induction h with
  | refl => exact h'
  | step h _ ih =>
    rw [List.append_assoc, List.append_assoc]
    exact .step h (ih h')

/-- Parts without marks at the end. -/
theorem endWith (h : Path σ e s ms xs t) (h' : Path σ e t [] [] v) : Path σ e s ms xs v := by
  simpa using h.trans h'

/-- The slots stay as they are. -/
theorem same (hp : t.proc = s.proc) (hk : t.kmem = s.kmem) (ho : t.owner = s.owner) :
    Path σ e s [] [] t :=
  .of (.quiet hk ho fun j => by rw [hp]; exact ⟨rfl, rfl, Iff.rfl, .inl rfl, rfl, rfl, rfl⟩)

/-- One slot changes, and keeps what is told apart. -/
theorem update {q : Proc} (hp : t.proc = update s.proc i q) (hk : t.kmem = s.kmem)
    (ho : t.owner = s.owner) (hq : Quiet σ.Holds (s.proc i) q) : Path σ e s [] [] t := by
  refine .of (.quiet hk ho fun j => ?_)
  rw [hp]
  by_cases hj : j = i
  · rw [hj, update_self]
    exact hq
  · rw [update_of_ne hj]
    exact ⟨rfl, rfl, Iff.rfl, .inl rfl, rfl, rfl, rfl⟩

theorem setReg (hi : s.Live i) (k : Fin 512) (w : Word) : Path σ e s [] [] (s.setReg i k w) :=
  .of (.frame hi _)

/-! ### Processes -/

theorem exit (hi : s.Live i) (status : ℤ) : Path σ e s [] [] (s.exit i status) := by
  unfold Kernel.exit
  split_ifs
  · exact .same rfl rfl rfl
  · have hre : Op σ e s [] none (s.reparent i) := by
      refine .quiet rfl rfl fun j => ?_
      rw [reparent]
      dsimp only
      split_ifs <;> exact ⟨rfl, rfl, Iff.rfl, .inl rfl, rfl, rfl, rfl⟩
    refine .andThen hre (.update (i := i) rfl rfl rfl ⟨rfl, rfl, ?_, .inl rfl, rfl, rfl, rfl⟩)
    simp [reparent_state, hi]

theorem checkKilled (hi : s.Live i) : Path σ e s [] [] (s.checkKilled i) := by
  unfold Kernel.checkKilled
  split_ifs
  · exact .exit hi _
  · exact .refl s

theorem wait {ok : Bool} {w : Word} (h : s.wait i ok = some (w, t)) :
    Path σ e s (s.waitMarks i ok) [] t := by
  unfold Kernel.wait at h
  unfold Kernel.waitMarks
  cases hf : s.findChild i fun p => p.state = .zombie with
  | none =>
    simp only [hf] at h
    split_ifs at h
    obtain ⟨-, rfl⟩ := Prod.mk.inj (Option.some.inj h)
    exact .refl s
  | some j =>
    have hj : s.Live j := by simp [Live, findChild_zombie hf]
    simp only [hf] at h
    simp only [Option.elim_some]
    split_ifs at h ⊢ <;> obtain ⟨-, rfl⟩ := Prod.mk.inj (Option.some.inj h)
    · exact .of (.reap hj)
    · exact .refl s

theorem kill {pid : ℤ} (ha : ∀ k, e.Permits k (.kill pid)) :
    Path σ e s [] [] (s.kill pid).2 := by
  unfold Kernel.kill
  split
  · exact .refl s
  · rename_i k hk
    have hpid : (s.proc k).pid = pid := by simpa using List.find?_some hk
    exact .of (.kill (hpid ▸ ha k))

theorem settickets : Path σ e s [] [] (s.settickets i).2 := by
  unfold Kernel.settickets
  dsimp only
  split_ifs with hn
  · exact .refl s
  · exact .update (i := i) rfl rfl rfl
      ⟨rfl, rfl, Iff.rfl, .inr (.inl (not_lt.1 hn)), rfl, rfl, rfl⟩

theorem exec (hi : s.Live i) (im : Option Image) : Path σ e s [] [] (s.exec i im).2 := by
  cases im with
  | none => exact .refl s
  | some im =>
    refine (Path.setReg hi Tf.a1 im.sp).trans ?_
    refine (Path.setReg (s := s.setReg i Tf.a1 im.sp) hi Tf.epc im.entry).trans ?_
    refine (Path.setReg (s := (s.setReg i Tf.a1 im.sp).setReg i Tf.epc im.entry) hi Tf.sp
      im.sp).trans (.update (i := i) rfl rfl rfl ⟨rfl, rfl, Iff.rfl, .inl rfl, rfl, rfl, rfl⟩)

theorem countCall (num : ℕ) : Path σ e s [] [] (s.countCall i num) := by
  unfold Kernel.countCall
  split
  · exact .refl s
  · rename_i k _
    exact .update (i := k) rfl rfl rfl ⟨rfl, rfl, Iff.rfl, .inl rfl, rfl, rfl, rfl⟩

/-- A child has the tickets of its parent, and a copy of its trapframe. -/
theorem inherit (hj : s.Live j) {p : Proc} (hT : σ.Holds p.tickets) (pg : Page) :
    Path σ e s [] []
      ((s.upd j fun np => np.forkInit i p).write (s.proc j).trapframe pg) := by
  have hinit : Path σ e s [] [] (s.upd j fun np => np.forkInit i p) := by
    refine .update (i := j) rfl rfl rfl
      ⟨rfl, rfl, ?_, .inr (.inr hT), rfl, rfl, rfl⟩
    exact iff_of_false (by simp [Proc.forkInit]) hj
  have hframe : (s.upd j fun np => np.forkInit i p).setFrame j pg =
      (s.upd j fun np => np.forkInit i p).write (s.proc j).trapframe pg := by
    rw [setFrame, upd_self]
    rfl
  refine hinit.trans (hframe ▸ .of (.frame ?_ pg))
  simp [Proc.forkInit]

theorem forkInto (hj : (s.proc j).state = .unused) (ha : e.Permits j .alloc)
    (hT : σ.Holds (s.proc i).tickets) (r : ForkResult) :
    Path σ e s (s.forkIntoMarks j r)
      (if s.kmem.freelist = 0 ∨ r = .noPagetable then [] else [(j, .spawn)])
      (s.forkInto i j r).2 := by
  unfold Kernel.forkIntoMarks Kernel.forkInto
  have hpid : Path σ e s [] [] s.allocpid := .same rfl rfl rfl
  by_cases hne : s.kmem.freelist = 0
  · have hk : s.allocpid.kalloc (.frame j) = (0, s.allocpid) := if_pos hne
    simp only [hne, hk, if_true, true_or]
    exact hpid.trans (.of (.clear (s := s.allocpid) hj))
  · have hk := kalloc_eq (s := s.allocpid) hne (.frame j)
    have htf : (s.allocpid.kalloc (.frame j)).1 = s.kmem.freelist := by
      rw [hk]
      rfl
    have halloc (pt : ℕ) : Path σ e s [.spawn j] [(j, .spawn)]
        ((s.allocpid.kalloc (.frame j)).2.initSlot j s.nextpid s.kmem.freelist pt) :=
      hpid.trans (.of (.alloc (s := s.allocpid) hj ha hne s.nextpid pt))
    have hlive (pt : ℕ) :
        ((s.allocpid.kalloc (.frame j)).2.initSlot j s.nextpid s.kmem.freelist pt).Live j := by
      simp [Live, initSlot, Proc.allocInit]
    simp only [hne, htf, if_false, false_or]
    cases r with
    | noPagetable => exact hpid.trans (.of (.fail (s := s.allocpid) hj hne))
    | noCopy => exact (halloc 0).trans (.of (.reap (hlive 0)))
    | ok pt =>
      have hchild := inherit (σ := σ) (e := e) (i := i) (hlive pt) hT
        (childFrame ((s.allocpid.kalloc (.frame j)).2.kmem.mem s.kmem.freelist) (s.frame i))
      rw [initSlot_trapframe] at hchild
      exact (halloc pt).endWith hchild

theorem fork (ha : ∀ k, e.Permits k .alloc) (hT : σ.Holds (s.proc i).tickets) (r : ForkResult) :
    Path σ e s (s.forkMarks r) (s.forkAlarm r).toList (s.fork i r).2 := by
  unfold Kernel.forkMarks Kernel.forkAlarm Kernel.fork
  cases hf : s.findUnused with
  | none => exact .refl s
  | some j =>
    have h := Path.forkInto (i := i) (findUnused_state hf) (ha j) hT r
    dsimp only
    split_ifs at h ⊢ <;> exact h

/-! ### Alarms -/

theorem sigreturn (hi : s.Live i)
    (hown : σ.owner (σ.proc i).alarmTf = .alarm i → s.owner (s.proc i).alarmTf = .alarm i) :
    Path σ e s [.restore i]
      (if (s.proc i).alarmTf = 0 then none else some (i, .sigreturn)).toList (s.sigreturn i).2 := by
  unfold Kernel.sigreturn
  dsimp only
  split_ifs with h₀
  · exact .of (.lost h₀ hown)
  · exact .of (.restore hi h₀ hown)

theorem alarmTick (hi : s.Live i) : Path σ e s (s.tickMarks i)
    (if counts (s.proc i) ∧ s.kmem.freelist ≠ 0 then some (i, .tick) else none).toList
    (s.alarmTick i) := by
  by_cases h : counts (s.proc i) ∧ s.kmem.freelist ≠ 0
  · rw [if_pos h]
    exact .of (.tick hi h.1 h.2)
  · rw [if_neg h, tickMarks, if_neg h]
    refine .same ?_ ?_ ?_
    all_goals
      unfold Kernel.alarmTick
      split_ifs <;> simp_all [Kernel.kalloc, halt]

/-! ### Traps -/

/-- What `call` may do, by number. -/
theorem call {u : Page} {r : Outcome} {num : ℕ} {w : Word} (hi : s.Live i) (hnum : sysno u = num)
    (ha₀ : s.frame i Tf.a0 = u Tf.a0) (hT : σ.Holds (s.proc i).tickets)
    (hown : σ.owner (σ.proc i).alarmTf = .alarm i → s.owner (s.proc i).alarmTf = .alarm i)
    (h : s.call i r num = some (w, t)) :
    Path σ (.trap i u (.syscall r)) s (s.callMarks i r num) (if num = 1 then s.forkAlarm r.fork
      else if num = 24 then some (i, .sigalarm (toInt (s.frame i Tf.a0)) (s.frame i Tf.a1))
      else if num = 25 then if (s.proc i).alarmTf = 0 then none else some (i, .sigreturn)
      else none).toList t := by
  rw [Kernel.call.eq_def] at h
  split at h
  · obtain rfl := (Prod.mk.inj (Option.some.inj h)).2
    refine .fork (fun k => ?_) hT r.fork
    simp [Event.Permits, Event.allocates, Event.syscall, hnum]
  · exact .wait h
  · obtain ⟨⟨w', s'⟩, hw, he⟩ := Option.map_eq_some_iff.1 h
    obtain rfl := (Prod.mk.inj he).2
    exact .wait hw
  · obtain rfl := (Prod.mk.inj (Option.some.inj h)).2
    refine .kill fun k => ?_
    simp [Event.Permits, Event.kills, Event.syscall, hnum, ha₀]
  · obtain rfl := (Prod.mk.inj (Option.some.inj h)).2
    exact .exec hi _
  · obtain rfl := (Prod.mk.inj (Option.some.inj h)).2
    exact .update (i := i) rfl rfl rfl ⟨rfl, rfl, Iff.rfl, .inl rfl, rfl, rfl, rfl⟩
  · obtain rfl := (Prod.mk.inj (Option.some.inj h)).2
    refine .of (.sigalarm ?_ _ _)
    simp [Event.Permits, Event.sigalarms, Event.syscall, hnum]
  · obtain rfl := (Prod.mk.inj (Option.some.inj h)).2
    exact .sigreturn hi hown
  · obtain rfl := (Prod.mk.inj (Option.some.inj h)).2
    exact .settickets
  · next h₁ h₃ h₂₂ _ _ _ h₂₄ h₂₅ _ =>
    obtain rfl := (Prod.mk.inj (Option.some.inj h)).2
    rw [if_neg h₁, if_neg h₂₄, if_neg h₂₅, callMarks]
    · exact .update (i := i) rfl rfl rfl ⟨rfl, rfl, Iff.rfl, .inl rfl, rfl, rfl, rfl⟩
    · exact h₁
    · exact h₃
    · exact h₂₂
    · exact h₂₅

theorem syscall {u : Page} {r : Outcome} {w : Word} (hrun : (σ.proc i).state = .running)
    (hk : (σ.proc i).killed = 0)
    (h : ((σ.enterKernel i u).setReg i Tf.epc w).syscall i r = some t) :
    Path σ (.trap i u (.syscall r)) ((σ.enterKernel i u).setReg i Tf.epc w)
      (((σ.enterKernel i u).setReg i Tf.epc w).syscallMarks i r) (σ.callAlarm i u r).toList t := by
  have hi : σ.Live i := by simp [Live, hrun]
  have hend {s : Kernel} (hs : s.Live i) (w : Word) :
      Path σ (.trap i u (.syscall r)) s [] [] ((s.setReg i Tf.a0 w).checkKilled i) :=
    (Path.setReg hs Tf.a0 w).trans (.checkKilled (s := s.setReg i Tf.a0 w) hs)
  rw [← callAlarm_trap (w := w) hk]
  rw [Kernel.syscall, sysno_frame] at h
  rw [syscallMarks, sysno_frame]
  split_ifs at h with hnum h₂
  · rw [h₂] at h
    rw [if_pos hnum, h₂]
    cases h
    have hcount := countCall (σ := σ) (e := .trap i u (.syscall r)) (i := i)
      (s := (σ.enterKernel i u).setReg i Tf.epc w) 2
    exact hcount.trans (.exit (hcount.live hi (by simp)) _)
  · rw [if_pos hnum]
    obtain ⟨⟨w', s₂⟩, hcall, rfl⟩ := Option.map_eq_some_iff.1 h
    obtain ⟨hproc, -, howner⟩ :=
      countCall_eq ((σ.enterKernel i u).setReg i Tf.epc w) i (sysno u).toNat
    have hcount := countCall (σ := σ) (e := .trap i u (.syscall r)) (i := i)
      (s := (σ.enterKernel i u).setReg i Tf.epc w) (sysno u).toNat
    have hi' := hcount.live hi (by simp)
    have hpath := Path.call (σ := σ) (u := u) hi' (by omega)
      (by rw [frame_countCall, frame_trap _ _ _ _ (by decide) (by decide)])
      ⟨i, hi, ((hproc i).2.2.2).symm⟩ (by rw [(hproc i).2.2.1, howner]; exact id) hcall
    refine (hcount.trans hpath).endWith (hend (hpath.live hi' ?_) w')
    exact reap_notMem_callMarks ((hproc i).1.trans hrun) r _
  · rw [if_neg hnum]
    cases h
    have hnot (k : ℕ) (h₀ : 0 < k) (hlt : k < 28) : (sysno u).toNat ≠ k := by omega
    rw [if_neg (hnot 1 (by decide) (by decide)), if_neg (hnot 24 (by decide) (by decide)),
      if_neg (hnot 25 (by decide) (by decide))]
    exact hend (s := (σ.enterKernel i u).setReg i Tf.epc w) hi _

theorem userinit (hj : (s.proc initproc).state = .unused) (ha : e.Permits initproc .alloc)
    (pt : ℕ) : Path σ e s (s.marks (.userinit pt)) (s.alarmEvent (.userinit pt)).toList
      (s.userinit pt) := by
  unfold Kernel.marks Kernel.alarmEvent Kernel.userinit
  by_cases hne : s.kmem.freelist = 0
  · have hk : s.allocpid.kalloc (.frame initproc) = (0, s.allocpid) := if_pos hne
    simp only [hne, hk, if_true]
    exact .same rfl rfl rfl
  · have hk := kalloc_eq (s := s.allocpid) hne (.frame initproc)
    have htf : (s.allocpid.kalloc (.frame initproc)).1 = s.kmem.freelist := by
      rw [hk]
      rfl
    simp only [hne, htf, if_false]
    have hpid : Path σ e s [] [] s.allocpid := .same rfl rfl rfl
    have halloc := hpid.trans (.of (.alloc (s := s.allocpid) hj ha hne s.nextpid pt))
    have hlive : ((s.allocpid.kalloc (.frame initproc)).2.initSlot initproc s.nextpid
        s.kmem.freelist pt).Live initproc := by
      simp [Live, initSlot, Proc.allocInit]
    refine halloc.endWith ?_
    change Path σ e ((s.allocpid.kalloc (.frame initproc)).2.initSlot initproc s.nextpid
      s.kmem.freelist pt) _ _ _
    generalize (s.allocpid.kalloc (.frame initproc)).2.initSlot initproc s.nextpid
      s.kmem.freelist pt = s' at hlive ⊢
    refine (Path.setReg hlive Tf.epc 0).trans ?_
    refine (Path.setReg (s := s'.setReg initproc Tf.epc 0) hlive Tf.sp 4096).trans ?_
    exact .update (i := initproc) rfl rfl rfl
      ⟨rfl, rfl, iff_of_false nofun hlive, .inl rfl, rfl, rfl, rfl⟩

theorem usertrap {u : Page} {cause : Trap} (hrun : (σ.proc i).state = .running)
    (h : (σ.enterKernel i u).usertrap i cause = some t) :
    Path σ (.trap i u cause) (σ.enterKernel i u) (σ.marks (.trap i u cause))
      (σ.alarmEvent (.trap i u cause)).toList t := by
  have hi : (σ.enterKernel i u).Live i := by
    change (σ.proc i).state ≠ .unused
    simp [hrun]
  cases cause with
  | syscall r =>
    simp only [Kernel.usertrap] at h
    simp only [marks, trapMarks, alarmEvent]
    split_ifs at h ⊢ with hk
    · cases h
      have hk₀ : (σ.proc i).killed ≠ 0 := hk
      rw [callAlarm, if_pos hk₀]
      exact .exit hi _
    · exact (Path.setReg hi Tf.epc _).trans (.syscall hrun (not_not.1 hk) h)
  | timer =>
    simp only [Kernel.usertrap] at h
    simp only [marks, trapMarks]
    split_ifs at h ⊢ with hk
    · cases h
      rw [alarmEvent, if_neg fun h => hk h.1]
      exact .exit hi _
    · cases h
      have hnot : .reap i ∉ (σ.enterKernel i u).tickMarks i := by
        unfold Kernel.tickMarks
        split_ifs <;> simp
      have htick := alarmTick (σ := σ) (e := .trap i u .timer) hi
      have hk₀ : (σ.proc i).killed = 0 := not_not.1 hk
      rw [alarmEvent]
      simp only [hk₀, true_and]
      refine htick.endWith (.update (i := i) rfl rfl rfl ⟨rfl, rfl, ?_, .inl rfl, rfl, rfl, rfl⟩)
      exact iff_of_false nofun (htick.live hi hnot)
  | device =>
    cases h
    exact .checkKilled hi
  | fault =>
    cases h
    have hkill : Op σ (.trap i u .fault) (σ.enterKernel i u) [] none
        ((σ.enterKernel i u).upd i fun p => { p with killed := 1 }) :=
      .fault hi (by simp [Event.Permits, Event.faults])
    exact .andThen hkill (.checkKilled (hkill.live hi (by simp)))

end Path

theorem stepEvent_of_step (h : step s e = some t) : s.halted = false ∧ stepEvent s e = some t := by
  rw [step] at h
  cases hh : s.halted with
  | true => simp [hh] at h
  | false => exact ⟨rfl, by simpa [hh] using h⟩

/-- **What a step is made of.** Every step is a sequence of parts, with the marks and the alarm
event of its event. -/
theorem step_path (h : step s e = some t) : Path s e s (s.marks e) (s.alarmEvent e).toList t := by
  obtain ⟨-, h⟩ := stepEvent_of_step h
  cases e with
  | userinit pt =>
    simp only [stepEvent] at h
    split_ifs at h with hu
    cases h
    exact .userinit (e := .userinit pt) hu.2 rfl pt
  | clock =>
    cases h
    refine .of (.quiet rfl rfl fun j => ?_)
    rw [clockintr]
    dsimp only
    split_ifs <;> exact ⟨rfl, rfl, Iff.rfl, .inl rfl, rfl, rfl, rfl⟩
  | dispatch i | preempt i | block i _ | wakeup i =>
    simp only [stepEvent] at h
    split_ifs at h with hi
    cases h
    exact .update (i := i) rfl rfl rfl
      ⟨rfl, rfl, by simp [hi], .inl rfl, rfl, rfl, rfl⟩
  | account i =>
    cases h
    exact .update (i := i) rfl rfl rfl ⟨rfl, rfl, Iff.rfl, .inl rfl, rfl, rfl, rfl⟩
  | trap i u cause =>
    simp only [stepEvent] at h
    split_ifs at h with hrun
    have hi : s.Live i := by simp [Live, hrun]
    exact .andThen (.frame hi _) (.usertrap hrun h)
  | otherAlloc =>
    cases h
    exact .of .take
  | otherFree p =>
    simp only [stepEvent] at h
    split_ifs at h with hp
    cases h
    exact .of (.give hp)
  | otherWrite p pg =>
    simp only [stepEvent] at h
    split_ifs at h with hp
    cases h
    exact .of (.put hp pg)

end Xv6
