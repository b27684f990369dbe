import Xv6.Lib.Run
import Xv6.Proc.Basic

/-!
# The process tree

`fork`, `exit`, `wait`, `waitx` and `kill` of `kernel/proc.c`, and the counting of system calls,
with any number of CPUs: processes that are running take their next steps in any order.

Parents are under `wait_lock`. `exit` and `wait` have it while they go through the process table,
one slot at a step, and `fork` takes it once for a short time. The other fields of a process are
under its own lock, `p->lock`. Whoever has that lock gives it back before anybody else can look at
the fields, so what is done under it is one step. In `sleep` a process keeps its own lock after it
has given back `wait_lock`: this takes two steps.

The clock interrupt is `clockintr`: it has `tickslock`, counts, and then goes through the process
table to charge the processes that are running, one slot at a step.

The scheduler, and all the reasons to sleep outside of `wait`, are left open. So are the pages that
`allocproc` takes, and whether there are any.

`serial`, `kin`, `calls` and `time` are not part of the kernel. They record the order in which
processes have been created, who was made whose parent, the calls that have been counted, and the
ticks of the clock.
-/

namespace Xv6.Tree

open Function (update)

/-- `initproc`. -/
def initproc : Slot := 0

/-- The channel `&proc[i]`. -/
def chanOf (i : Slot) : ℕ := i + 1

/-- What comes after `wakeup`. -/
inductive Next
  /-- Back to the loop of `reparent`. -/
  | reparent (k : ℕ) (status : ℤ)
  /-- On with `exit`. -/
  | die (status : ℤ)
  deriving DecidableEq, Repr

/-- Where a process is. -/
inductive Pc
  | idle
  /-- Asleep on something else than a process, or just after that. -/
  | blocked
  /-- In `fork`, before the parent of the new process `np` is set. -/
  | forked (np : Slot)
  /-- In `fork`, before the new process `np` becomes runnable. -/
  | linked (np : Slot)
  /-- In `exit`, in the loop of `reparent`. -/
  | reparent (k : ℕ) (status : ℤ)
  /-- In `exit`, in `wakeup(chan)`, before it looks at process `k`. -/
  | waking (chan : Option Slot) (k : ℕ) (next : Next)
  /-- In `exit`, when the parent has been woken. -/
  | dying (status : ℤ)
  /-- In `wait` or `waitx`, before `acquire(&wait_lock)`. -/
  | wait
  /-- In the loop over the table. -/
  | scan (k : ℕ) (havekids : Bool)
  /-- In `sleep(p, &wait_lock)`. -/
  | sleeping
  deriving DecidableEq, Repr

/-- Where a process goes on after `wakeup`. -/
def Next.pc : Next → Pc
  | .reparent k status => .reparent k status
  | .die status => .dying status

/-- The process table, the locks and where the processes are, with a record of who has been created
by whom. -/
structure State where
  proc : Slot → Proc
  /-- Whether the process keeps its own lock from one step to the next. -/
  own : Slot → Bool
  /-- Who has `wait_lock`. -/
  lock : Option Slot
  pc : Slot → Pc
  nextpid : ℤ
  ticks : BitVec 32
  /-- In `clockintr`, the slot that `update_time` comes to next. -/
  sweep : Option ℕ
  /-- How many processes have been created before the one in this slot. -/
  serial : Slot → ℕ
  /-- `serial` of the parent, at the time when it became the parent. -/
  kin : Slot → ℕ
  /-- How many processes have been created. -/
  allocs : ℕ
  /-- For each call that has been counted, the parent of the caller, and the number. -/
  calls : List (ℕ × ℕ)
  /-- How often the clock has ticked. -/
  time : ℕ

/-- What `allocproc` takes from elsewhere. -/
structure Fresh where
  trapframe : ℕ
  pagetable : ℕ
  qnumber : ℤ

/-- How `fork` goes on, when it has found a slot. -/
inductive ForkResult
  /-- There is no trapframe, or no page table. -/
  | noMemory
  /-- `uvmcopy` fails. -/
  | noCopy (f : Fresh)
  | ok (f : Fresh)

/-- What happens. -/
inductive Event
  /-- Process `p` calls `fork`, and it finds the slot `np`. -/
  | fork (p np : Slot) (r : ForkResult)
  | exit (p : Slot) (status : ℤ)
  /-- Process `p` calls `wait` or `waitx`. -/
  | wait (p : Slot)
  /-- Process `p` takes a step. If it copies the status of a child, this is whether it can. -/
  | run (p : Slot) (copyout : Bool)
  /-- Somebody calls `kill`, and it finds process `p`. -/
  | kill (p : Slot)
  /-- Process `p` makes a system call. -/
  | syscall (p : Slot) (num : ℤ)
  | dispatch (p : Slot)
  | yield (p : Slot)
  /-- Process `p` sleeps on something that is not a process. -/
  | sleepOn (p : Slot) (chan : ℕ)
  /-- Somebody wakes process `p`, which sleeps on something that is not a process. -/
  | wakeupOn (p : Slot)
  /-- A clock interrupt. -/
  | clockintr
  /-- The clock interrupt goes on with `update_time`. -/
  | updateTime

namespace State

/-- Change the process in slot `i`. -/
def upd (s : State) (i : Slot) (f : Proc → Proc) : State :=
  { s with proc := update s.proc i (f (s.proc i)) }

theorem upd_self (s : State) (i : Slot) (f : Proc → Proc) : (s.upd i f).proc i = f (s.proc i) :=
  Function.update_self _ _ _

theorem upd_of_ne {i q : Slot} (h : q ≠ i) (s : State) (f : Proc → Proc) :
    (s.upd i f).proc q = s.proc q :=
  Function.update_of_ne h _ _

/-- Process `p` goes to `pc`. -/
def goto (s : State) (p : Slot) (pc : Pc) : State :=
  { s with pc := update s.pc p pc }

/-- `np->parent = p`. -/
def setParent (s : State) (np p : Slot) : State :=
  { s.upd np fun x => { x with parent := some p } with
    kin := update s.kin np (s.serial p) }

/-- `acquire(&wait_lock)`. It spins while somebody has the lock. -/
def acquire (s : State) (p : Slot) (pc : Pc) : Option State :=
  if s.lock = none then some { s.goto p pc with lock := some p } else none

/-- `release(&wait_lock)` and return. -/
def release (s : State) (p : Slot) : State :=
  { s.goto p .idle with lock := none }

end State

/-! ### `fork` -/

/-- What `fork` copies from `p` to the new process `np`, before it gives back `np->lock`. -/
def copyProc (np p : Proc) : Proc :=
  { np with
    sz := p.sz, s1 := p.s1, ofile := fun fd => if p.ofile fd ≠ 0 then p.ofile fd else np.ofile fd,
    cwd := p.cwd, name := p.name }

/-- `allocpid`, and a record of it. -/
def State.allocpid (s : State) (np : Slot) : State :=
  { s with
    nextpid := wrapInt (s.nextpid + 1)
    allocs := s.allocs + 1
    serial := update s.serial np s.allocs }

/-- `fork`, as long as it has the lock of the new process. -/
def fork (s : State) (p np : Slot) : ForkResult → State
  | .noMemory => (s.allocpid np).upd np fun x => { x with pid := s.nextpid, state := .used }.free
  | .noCopy f =>
    (s.allocpid np).upd np fun x =>
      (x.allocInit s.nextpid f.trapframe f.pagetable s.ticks f.qnumber).free
  | .ok f =>
    ((s.allocpid np).upd np fun x =>
      copyProc (x.allocInit s.nextpid f.trapframe f.pagetable s.ticks f.qnumber) (s.proc p)).goto p
      (.forked np)

/-- `fork`, with `wait_lock`. -/
def link (s : State) (p np : Slot) : State :=
  (((s.setParent np p).upd np fun x => { x with tickets := (s.proc p).tickets })).goto p
    (.linked np)

/-! ### `exit` -/

/-- A round of the loop of `reparent`, and then `wakeup(p->parent)`. -/
def reparent (s : State) (p : Slot) (k : ℕ) (status : ℤ) : State :=
  if h : k < NPROC then
    if (s.proc ⟨k, h⟩).parent = some p then
      (s.setParent ⟨k, h⟩ initproc).goto p (.waking (some initproc) 0 (.reparent (k + 1) status))
    else s.goto p (.reparent (k + 1) status)
  else s.goto p (.waking (s.proc p).parent 0 (.die status))

/-- `wakeup(chan)` looks at a process. -/
def wake (chan : Option Slot) (x : Proc) : Proc :=
  if x.state = .sleeping ∧ x.chan = chan.elim 0 chanOf then { x with state := .runnable } else x

/-- `wakeup(chan)`: look at process `k`. When all have been looked at, go on. -/
def wakeup (s : State) (p : Slot) (chan : Option Slot) (k : ℕ) (next : Next) : Option State :=
  if h : k < NPROC then
    if ⟨k, h⟩ = p then some (s.goto p (.waking chan (k + 1) next))
    else if s.own ⟨k, h⟩ then none
    else some ((s.upd ⟨k, h⟩ (wake chan)).goto p (.waking chan (k + 1) next))
  else some (s.goto p next.pc)

/-- The end of `exit`. -/
def die (s : State) (p : Slot) (status : ℤ) : State :=
  (s.upd p fun x => { x with xstate := status, state := .zombie, etime := s.ticks }).release p

/-! ### `wait` -/

/-- A round of the loop over the table in `wait` and `waitx`, and what comes after the loop. -/
def scan (s : State) (p : Slot) (k : ℕ) (havekids copyout : Bool) : Option State :=
  if h : k < NPROC then
    if (s.proc ⟨k, h⟩).parent = some p then
      if s.own ⟨k, h⟩ then none
      else if (s.proc ⟨k, h⟩).state = .zombie then
        if copyout then some ((s.upd ⟨k, h⟩ Proc.free).release p) else some (s.release p)
      else some (s.goto p (.scan (k + 1) true))
    else some (s.goto p (.scan (k + 1) havekids))
  else if havekids = false ∨ (s.proc p).killed ≠ 0 then some (s.release p)
  else
    -- `sleep`, as far as `release(lk)`
    some { s.goto p .sleeping with lock := none, own := update s.own p true }

/-- `sleep`, after `release(lk)`. -/
def sleep (s : State) (p : Slot) : State :=
  if s.own p then
    { s.upd p fun x => { x with chan := chanOf p, state := .sleeping } with
      own := update s.own p false }
  else (s.upd p fun x => { x with chan := 0 }).goto p .wait

/-! ### The clock -/

/-- `update_time` looks at a process. -/
def charge (x : Proc) : Proc :=
  if x.state = .running then { x with rtime := x.rtime + 1 } else x

@[simp] theorem charge_state (x : Proc) : (charge x).state = x.state := by
  rw [charge]
  split_ifs <;> rfl

@[simp] theorem charge_chan (x : Proc) : (charge x).chan = x.chan := by
  rw [charge]
  split_ifs <;> rfl

@[simp] theorem charge_pid (x : Proc) : (charge x).pid = x.pid := by
  rw [charge]
  split_ifs <;> rfl

@[simp] theorem charge_parent (x : Proc) : (charge x).parent = x.parent := by
  rw [charge]
  split_ifs <;> rfl

@[simp] theorem charge_syscallCount (x : Proc) : (charge x).syscallCount = x.syscallCount := by
  rw [charge]
  split_ifs <;> rfl

/-- `clockintr`, as far as `ticks++`. -/
def clockintr (s : State) : State :=
  { s with ticks := s.ticks + 1, sweep := some 0, time := s.time + 1 }

/-- A round of the loop of `update_time`, and the end of `clockintr`. -/
def updateTime (s : State) (k : ℕ) : Option State :=
  if h : k < NPROC then
    if s.own ⟨k, h⟩ then none else some { s.upd ⟨k, h⟩ charge with sweep := some (k + 1) }
  else some { s with sweep := none }

/-! ### Steps -/

/-- Process `p` takes a step. -/
def run (s : State) (p : Slot) (copyout : Bool) : Option State :=
  match s.pc p with
  | .idle => none
  | .blocked => some ((s.upd p fun x => { x with chan := 0 }).goto p .idle)
  | .forked np => if s.lock = none then some (link s p np) else none
  | .linked np => some ((s.upd np (·.setState .runnable)).goto p .idle)
  | .reparent k status => some (reparent s p k status)
  | .waking chan k next => wakeup s p chan k next
  | .dying status => some (die s p status)
  | .wait => s.acquire p (.scan 0 false)
  | .scan k havekids => scan s p k havekids copyout
  | .sleeping => some (sleep s p)

/-- `NELEM(syscalls)`. There is an entry for every number below it, from `1` on. -/
abbrev NELEM : ℤ := 28

/-- The number is one of the table. -/
def Known (num : ℤ) : Prop := 0 < num ∧ num < NELEM

instance (num : ℤ) : Decidable (Known num) := inferInstanceAs (Decidable (_ ∧ _))

/-- `syscall` counts a call, in the parent. -/
def count (s : State) (p : Slot) (num : ℤ) : State :=
  if Known num then
    match (s.proc p).parent with
    | none => s
    | some r =>
      { s.upd r fun x => { x with
          syscallCount := update x.syscallCount num.toNat (x.syscallCount num.toNat + 1) } with
        calls := (s.kin p, num.toNat) :: s.calls }
  else s

/-- `kill`, when it has found the process. -/
def killed (x : Proc) : Proc :=
  { x with killed := 1, state := if x.state = .sleeping then .runnable else x.state }

/-- The process is running, and not in a call that is modelled here. -/
def State.Free (s : State) (p : Slot) : Prop := (s.proc p).state = .running ∧ s.pc p = .idle

instance (s : State) (p : Slot) : Decidable (s.Free p) := inferInstanceAs (Decidable (_ ∧ _))

/-- One step of the system. -/
def step (s : State) : Event → Option State
  | .fork p np r => if s.Free p ∧ (s.proc np).state = .unused then some (fork s p np r) else none
  | .exit p status =>
    if s.Free p ∧ p ≠ initproc then s.acquire p (.reparent 0 status) else none
  | .wait p => if s.Free p then some (s.goto p .wait) else none
  | .run p copyout => if (s.proc p).state = .running then run s p copyout else none
  | .kill p => if s.own p then none else some (s.upd p killed)
  | .syscall p num => if s.Free p then some (count s p num) else none
  | .dispatch p =>
    if (s.proc p).state = .runnable then some (s.upd p (·.setState .running)) else none
  | .yield p =>
    -- with a lock, interrupts are off
    if (s.proc p).state = .running ∧ s.lock ≠ some p ∧ s.own p = false then
      some (s.upd p (·.setState .runnable))
    else none
  | .sleepOn p chan =>
    if s.Free p ∧ NPROC < chan then
      some ((s.upd p fun x => { x with chan := chan, state := .sleeping }).goto p .blocked)
    else none
  | .wakeupOn p =>
    if (s.proc p).state = .sleeping ∧ NPROC < (s.proc p).chan then
      some (s.upd p (·.setState .runnable))
    else none
  | .clockintr => if s.sweep = none then some (clockintr s) else none
  | .updateTime => s.sweep.bind (updateTime s)

/-! ### What a step can do -/

/-- The steps of a process, by where it is. -/
inductive Run (s : State) (p : Slot) (copyout : Bool) : State → Prop
  | blocked (hp : s.pc p = .blocked) :
    Run s p copyout ((s.upd p fun x => { x with chan := 0 }).goto p .idle)
  | link {np : Slot} (hp : s.pc p = .forked np) (hl : s.lock = none) : Run s p copyout (link s p np)
  | start {np : Slot} (hp : s.pc p = .linked np) :
    Run s p copyout ((s.upd np (·.setState .runnable)).goto p .idle)
  | reparent {k : ℕ} {status : ℤ} (hp : s.pc p = .reparent k status) :
    Run s p copyout (reparent s p k status)
  | wakeup {chan : Option Slot} {k : ℕ} {next : Next} {t : State}
    (hp : s.pc p = .waking chan k next) (ht : wakeup s p chan k next = some t) : Run s p copyout t
  | die {status : ℤ} (hp : s.pc p = .dying status) : Run s p copyout (die s p status)
  | wait {t : State} (hp : s.pc p = .wait) (ht : s.acquire p (.scan 0 false) = some t) :
    Run s p copyout t
  | scan {k : ℕ} {havekids : Bool} {t : State} (hp : s.pc p = .scan k havekids)
    (ht : scan s p k havekids copyout = some t) : Run s p copyout t
  | sleep (hp : s.pc p = .sleeping) : Run s p copyout (sleep s p)

theorem run_inv {s t : State} {p : Slot} {copyout : Bool} (ht : run s p copyout = some t) :
    Run s p copyout t := by
  rw [run] at ht
  split at ht <;> rename_i hp
  · cases ht
  · cases ht
    exact .blocked hp
  · split_ifs at ht with hl
    cases ht
    exact .link hp hl
  · cases ht
    exact .start hp
  · cases ht
    exact .reparent hp
  · exact .wakeup hp ht
  · cases ht
    exact .die hp
  · exact .wait hp ht
  · exact .scan hp ht
  · cases ht
    exact .sleep hp

/-- The steps of the system, by what happens. -/
inductive Step (s : State) : Event → State → Prop
  | fork {p np : Slot} {r : ForkResult} (hp : s.Free p) (hnp : (s.proc np).state = .unused) :
    Step s (.fork p np r) (fork s p np r)
  | exit {p : Slot} {status : ℤ} {t : State} (hp : s.Free p) (hroot : p ≠ initproc)
    (ht : s.acquire p (.reparent 0 status) = some t) : Step s (.exit p status) t
  | wait {p : Slot} (hp : s.Free p) : Step s (.wait p) (s.goto p .wait)
  | run {p : Slot} {copyout : Bool} {t : State} (hrun : (s.proc p).state = .running)
    (ht : Run s p copyout t) : Step s (.run p copyout) t
  | kill {p : Slot} (hown : s.own p = false) : Step s (.kill p) (s.upd p killed)
  | syscall {p : Slot} {num : ℤ} (hp : s.Free p) : Step s (.syscall p num) (count s p num)
  | dispatch {p : Slot} (hp : (s.proc p).state = .runnable) :
    Step s (.dispatch p) (s.upd p (·.setState .running))
  | yield {p : Slot} (hp : (s.proc p).state = .running) (hl : s.lock ≠ some p)
    (hown : s.own p = false) : Step s (.yield p) (s.upd p (·.setState .runnable))
  | sleepOn {p : Slot} {chan : ℕ} (hp : s.Free p) (hchan : NPROC < chan) :
    Step s (.sleepOn p chan)
      ((s.upd p fun x => { x with chan := chan, state := .sleeping }).goto p .blocked)
  | wakeupOn {p : Slot} (hp : (s.proc p).state = .sleeping) (hchan : NPROC < (s.proc p).chan) :
    Step s (.wakeupOn p) (s.upd p (·.setState .runnable))
  | clockintr (hs : s.sweep = none) : Step s .clockintr (clockintr s)
  | charge {k : ℕ} (hk : k < NPROC) (hs : s.sweep = some k) (hown : s.own ⟨k, hk⟩ = false) :
    Step s .updateTime { s.upd ⟨k, hk⟩ charge with sweep := some (k + 1) }
  | swept {k : ℕ} (hk : ¬ k < NPROC) (hs : s.sweep = some k) :
    Step s .updateTime { s with sweep := none }

theorem step_inv {s t : State} {e : Event} (ht : step s e = some t) : Step s e t := by
  cases e with
  | updateTime =>
    obtain ⟨k, hs, ht⟩ := Option.bind_eq_some_iff.mp ht
    rw [updateTime] at ht
    split_ifs at ht with hk hown <;> cases ht
    · exact .charge hk hs (Bool.eq_false_iff.mpr hown)
    · exact .swept hk hs
  | exit p status =>
    rw [step] at ht
    split_ifs at ht with h
    exact .exit h.1 h.2 ht
  | run p copyout =>
    rw [step] at ht
    split_ifs at ht with h
    exact .run h (run_inv ht)
  | kill p =>
    rw [step] at ht
    split_ifs at ht with h
    cases ht
    exact .kill (Bool.eq_false_iff.mpr h)
  | _ =>
    rw [step] at ht
    split_ifs at ht with h
    cases ht
    first
    | exact .fork h.1 h.2
    | exact .wait h
    | exact .syscall h
    | exact .dispatch h
    | exact .yield h.1 h.2.1 h.2.2
    | exact .sleepOn h.1 h.2
    | exact .wakeupOn h.1 h.2
    | exact .clockintr h

/-- After `userinit`. -/
def boot (f : Fresh) : State where
  proc := update (fun _ => .zero) initproc
    ((Proc.zero.allocInit 1 f.trapframe f.pagetable 0 f.qnumber).setState .runnable)
  own := fun _ => false
  lock := none
  pc := fun _ => .idle
  nextpid := 2
  ticks := 0
  sweep := none
  serial := fun _ => 0
  kin := fun _ => 0
  allocs := 1
  calls := []
  time := 0

end Xv6.Tree
