import Xv6.Lib.Run
import Xv6.Proc.Basic

/-!
# The multi-level feedback queue scheduler

`scheduler()` of `kernel/proc.c` under `MLFQ`, on `n` CPUs at once. The unit of interleaving is a
critical section of some `p->lock`: each event below is one of them, or the test of `q->state`
that the queue-3 branch makes before it takes `q->lock`. A CPU's place in its loop is a `Pc`.

After a process has given up the CPU, the queue-3 branch goes through the whole table with the
lock of that process still held. These are the only sections that span several events, so a lock
is held exactly when some CPU is in such a place (`State.locked`).

`npnq` and `roqd` have no lock of their own: two CPUs that hold the locks of two processes can
change them at once, and then an update can be lost. Here the updates of a section are part of its
event, which is exact for one CPU.

The calls that other code makes (`allocproc`, the end of `fork`, `wakeup`, `kill`, `wait`) are
events that may come at any time, from any CPU.

The calls of `log_process_queue`, which keep a trace for `print_logg`, are left out, and so is the
counter `random_ct` they print.
-/

namespace Xv6.Mlfq

/-! ### Queues -/

/-- `tick_slc`: the dispatches a process gets in each queue. -/
def tickSlc (q : ℤ) : ℤ :=
  if q = 0 then 1 else if q = 1 then 4 else if q = 2 then 8 else 16

/-- `refmin1`. -/
def refmin1 : ℤ := 1000000

/-- `npnq` and `roqd`, with a record of whether every index into an array of four has been
in bounds. -/
structure Queues where
  npnq : ℤ → ℤ
  roqd : ℤ → ℤ
  inBounds : Bool

/-- Use `q` as an index. -/
def Queues.index (qs : Queues) (q : ℤ) : Queues :=
  { qs with inBounds := qs.inBounds && decide (0 ≤ q ∧ q < 4) }

/-- `npnq[q] += d`. -/
def Queues.addNpnq (qs : Queues) (q d : ℤ) : Queues :=
  { qs.index q with npnq := Function.update qs.npnq q (wrapInt (qs.npnq q + d)) }

/-- `roqd[q]++`. -/
def Queues.incRoqd (qs : Queues) (q : ℤ) : Queues :=
  { qs.index q with roqd := Function.update qs.roqd q (wrapInt (qs.roqd q + 1)) }

/-- Move a process to the end of queue `k`. -/
def enterQueue (k : ℤ) (qs : Queues) (p : Proc) : Queues × Proc :=
  let qs := (qs.addNpnq p.queue (-1)).addNpnq k 1
  (qs.incRoqd k, { p with queue := k, pqtct := 0, qnumber := qs.roqd k })

/-- The boost of a process that has waited too long. -/
def boost (qs : Queues) (p : Proc) : Queues × Proc :=
  let r := enterQueue 0 qs p
  (r.1, { r.2 with wwpqtct := 0 })

/-- A round of waiting, in the queue-3 branch. -/
def age3 (qs : Queues) (q : Proc) : Queues × Proc :=
  let q := { q with wwpqtct := wrapInt (q.wwpqtct + 1) }
  if q.wwpqtct ≥ 48 then boost qs q else (qs, q)

/-- A round of waiting, in the other branch. -/
def age (qs : Queues) (p : Proc) : Queues × Proc :=
  let p := { p with wwpqtct := wrapInt (p.wwpqtct + 1) }
  if p.queue ≠ 0 then if p.wwpqtct ≥ 48 then boost qs p else (qs, p) else (qs, p)

/-- What the dispatch loop does to a process that has just given up the CPU. -/
def charge (qs : Queues) (p : Proc) : Queues × Proc :=
  let p := { p with pqtct := wrapInt (p.pqtct + 1) }
  let qs := qs.index p.queue
  let r := if p.pqtct ≥ tickSlc p.queue ∧ p.queue ≠ 4 then enterQueue (p.queue + 1) qs p
    else (qs, p)
  (r.1, { r.2 with wwpqtct := 0 })

/-! ### CPUs -/

/-- The place of a CPU in `scheduler()`. Loop variables run up to `NPROC`. -/
inductive Pc
  /-- The search for the lowest queue with a runnable process. -/
  | scan (qm : ℤ) (i : ℕ)
  /-- The round robin of queue 3. -/
  | rr (i : ℕ)
  /-- A process dispatched by the round robin runs. -/
  | running3 (p : Slot)
  /-- The round robin ages the other processes, with the lock of `p` held. -/
  | aging3 (p : Slot) (i : ℕ)
  /-- The same, having seen that `q` is runnable and waiting for its lock. -/
  | acquire3 (p q : Slot)
  /-- The search for the smallest queue number. -/
  | select (qm refm : ℤ) (prngd : Option Slot) (i : ℕ)
  /-- The loop that dispatches the chosen process and ages the others. -/
  | dispatch (prngd : Option Slot) (i : ℕ)
  /-- A process dispatched by that loop runs. -/
  | running (p : Slot)
  deriving DecidableEq, Repr

/-- The process whose lock a CPU in this place holds. -/
def Pc.holds : Pc → Option Slot
  | .aging3 p _ => some p
  | .acquire3 p _ => some p
  | _ => none

/-- The start of a pass. -/
def Pc.start : Pc := .scan 4 0

/-- The process that runs on a CPU in this place. -/
def Pc.current : Pc → Option Slot
  | .running3 p => some p
  | .running p => some p
  | _ => none

/-- The process table, the queues, the counters of the kernel, and the CPUs. -/
structure State (n : ℕ) where
  proc : Slot → Proc
  qs : Queues
  nextpid : ℤ
  pc : Fin n → Pc

variable {n : ℕ}

namespace State

/-- Whether the lock of `p` is held. -/
def locked (s : State n) (p : Slot) : Bool := decide (∃ c, (s.pc c).holds = some p)

/-- Replace one slot. -/
def setProc (s : State n) (i : Slot) (p : Proc) : State n :=
  { s with proc := Function.update s.proc i p }

/-- Replace one slot and the queues. -/
def setBoth (s : State n) (i : Slot) (r : Queues × Proc) : State n :=
  { s with proc := Function.update s.proc i r.2, qs := r.1 }

/-- Move one CPU. -/
def setPc (s : State n) (c : Fin n) (pc : Pc) : State n :=
  { s with pc := Function.update s.pc c pc }

/-- A critical section of the lock of `p`, which waits while the lock is held. -/
def withLock (s : State n) (p : Slot) (t : State n) : Option (State n) :=
  if s.locked p then none else some t

end State

/-- `boot`: an empty table, and every CPU at the start of its loop. -/
def init (n : ℕ) : State n :=
  ⟨fun _ => Proc.zero, ⟨fun _ => 0, fun _ => 0, true⟩, 1, fun _ => .start⟩

/-! ### The loops of `scheduler()` -/

/-- The search for the lowest queue, at slot `i`. -/
def scanStep (c : Fin n) (qm : ℤ) (i : ℕ) (s : State n) : Option (State n) :=
  if h : i < NPROC then
    if (s.proc ⟨i, h⟩).state = .runnable ∧ (s.proc ⟨i, h⟩).queue < qm then
      s.withLock ⟨i, h⟩ (s.setPc c (.scan (s.proc ⟨i, h⟩).queue (i + 1)))
    else s.withLock ⟨i, h⟩ (s.setPc c (.scan qm (i + 1)))
  else if qm = 3 then some (s.setPc c (.rr 0))
  else some (s.setPc c (.select qm refmin1 none 0))

/-- The round robin of queue 3, at slot `i`. -/
def rrStep (c : Fin n) (i : ℕ) (s : State n) : Option (State n) :=
  if h : i < NPROC then
    if (s.proc ⟨i, h⟩).state = .runnable then
      s.withLock ⟨i, h⟩ ((s.setProc ⟨i, h⟩ ((s.proc ⟨i, h⟩).setState .running)).setPc c
        (.running3 ⟨i, h⟩))
    else s.withLock ⟨i, h⟩ (s.setPc c (.rr (i + 1)))
  else some (s.setPc c .start)

/-- The aging of the others in the round robin, at slot `i`: the test without the lock. -/
def aging3Step (c : Fin n) (p : Slot) (i : ℕ) (s : State n) : Option (State n) :=
  if h : i < NPROC then
    if p ≠ ⟨i, h⟩ ∧ (s.proc ⟨i, h⟩).state = .runnable then
      some (s.setPc c (.acquire3 p ⟨i, h⟩))
    else some (s.setPc c (.aging3 p (i + 1)))
  else some (s.setPc c (.rr (p + 1)))

/-- The aging of the others in the round robin, once `q->lock` is free. -/
def acquire3Step (c : Fin n) (p q : Slot) (s : State n) : Option (State n) :=
  s.withLock q ((s.setBoth q (age3 s.qs (s.proc q))).setPc c (.aging3 p (q + 1)))

/-- The search for the smallest queue number, at slot `i`. -/
def selectStep (c : Fin n) (qm refm : ℤ) (prngd : Option Slot) (i : ℕ) (s : State n) :
    Option (State n) :=
  if h : i < NPROC then
    if (s.proc ⟨i, h⟩).state = .runnable ∧ (s.proc ⟨i, h⟩).queue = qm ∧
        (s.proc ⟨i, h⟩).qnumber < refm then
      s.withLock ⟨i, h⟩ (s.setPc c (.select qm (s.proc ⟨i, h⟩).qnumber (some ⟨i, h⟩) (i + 1)))
    else s.withLock ⟨i, h⟩ (s.setPc c (.select qm refm prngd (i + 1)))
  else some (s.setPc c (.dispatch prngd 0))

/-- The dispatch loop, at slot `i`. -/
def dispatchStep (c : Fin n) (prngd : Option Slot) (i : ℕ) (s : State n) : Option (State n) :=
  if h : i < NPROC then
    if (s.proc ⟨i, h⟩).state = .runnable ∧ prngd ≠ some ⟨i, h⟩ then
      s.withLock ⟨i, h⟩
        ((s.setBoth ⟨i, h⟩ (age s.qs (s.proc ⟨i, h⟩))).setPc c (.dispatch prngd (i + 1)))
    else if (s.proc ⟨i, h⟩).state = .runnable ∧ prngd = some ⟨i, h⟩ then
      s.withLock ⟨i, h⟩ ((s.setProc ⟨i, h⟩ ((s.proc ⟨i, h⟩).setState .running)).setPc c
        (.running ⟨i, h⟩))
    else s.withLock ⟨i, h⟩ (s.setPc c (.dispatch prngd (i + 1)))
  else some (s.setPc c .start)

/-- The next step of `scheduler()` on CPU `c`. A CPU that runs a process takes none. -/
def schedStep (c : Fin n) (s : State n) : Option (State n) :=
  match s.pc c with
  | .scan qm i => scanStep c qm i s
  | .rr i => rrStep c i s
  | .running3 _ => none
  | .aging3 p i => aging3Step c p i s
  | .acquire3 p q => acquire3Step c p q s
  | .select qm refm prngd i => selectStep c qm refm prngd i s
  | .dispatch prngd i => dispatchStep c prngd i s
  | .running _ => none

/-- The process on CPU `c` gives it up: `yield`, `sleep` or `exit` takes its lock, sets its state
and switches to the scheduler, which goes on with the lock held. -/
def leave (c : Fin n) (st : ProcState) (s : State n) : Option (State n) :=
  match s.pc c with
  | .running3 p =>
    s.withLock p ((s.setProc p ((s.proc p).setState st)).setPc c (.aging3 p 0))
  | .running p =>
    s.withLock p
      ((s.setBoth p (charge s.qs ((s.proc p).setState st))).setPc c
        (.dispatch (some p) (p + 1)))
  | _ => none

/-! ### The system -/

/-- How a process gives up the CPU. -/
inductive Leave
  | yield
  | sleep
  | exit
  deriving DecidableEq, Repr

/-- The state a process gives the CPU up in. -/
def Leave.state : Leave → ProcState
  | .yield => .runnable
  | .sleep => .sleeping
  | .exit => .zombie

/-- What can happen. -/
inductive Event (n : ℕ)
  /-- CPU `c` takes a step of `scheduler()`. -/
  | sched (c : Fin n)
  /-- The process on CPU `c` gives it up. -/
  | leave (c : Fin n) (how : Leave)
  /-- `allocproc` takes slot `i`, with trapframe page `tf` and page table `pt`, at time `now`. -/
  | alloc (i : Slot) (tf pt : ℕ) (now : BitVec 32)
  /-- `allocproc` takes slot `i` and gives it back because an allocation fails. -/
  | allocFail (i : Slot)
  /-- `fork` gives slot `i` back because the memory cannot be copied. -/
  | forkFail (i : Slot)
  /-- `fork` or `userinit` lets the new process in slot `i` run. -/
  | forkDone (i : Slot)
  /-- `wakeup` or `kill` wakes the process in slot `i`. -/
  | wakeup (i : Slot)
  /-- `wait` or `waitx` frees the process in slot `i`. -/
  | reap (i : Slot)
  deriving DecidableEq, Repr

/-- A critical section of the lock of slot `i` that needs the slot in state `st`. -/
def onSlot (s : State n) (i : Slot) (st : ProcState) (t : State n) : Option (State n) :=
  if (s.proc i).state = st then s.withLock i t else none

/-- `allocproc`, once it has found slot `i`. -/
def allocproc (i : Slot) (tf pt : ℕ) (now : BitVec 32) (s : State n) : State n :=
  let p := (s.proc i).allocInit s.nextpid tf pt now (s.qs.npnq 0)
  { s.setProc i p with
    nextpid := wrapInt (s.nextpid + 1)
    qs := (s.qs.addNpnq 0 1).incRoqd 0 }

/-- One event. -/
def step (s : State n) : Event n → Option (State n)
  | .sched c => schedStep c s
  | .leave c how => leave c how.state s
  | .alloc i tf pt now => onSlot s i .unused (allocproc i tf pt now s)
  | .allocFail i =>
    onSlot s i .unused { s.setProc i (s.proc i).free with nextpid := wrapInt (s.nextpid + 1) }
  | .forkFail i => onSlot s i .used (s.setProc i (s.proc i).free)
  | .forkDone i => onSlot s i .used (s.setProc i ((s.proc i).setState .runnable))
  | .wakeup i => onSlot s i .sleeping (s.setProc i ((s.proc i).setState .runnable))
  | .reap i => onSlot s i .zombie (s.setProc i (s.proc i).free)

/-! ### What a step can do -/

/-- The steps of `scheduler()` that change nothing but the place of the CPU, by that place. -/
inductive Move (proc : Slot → Proc) : Pc → Pc → Prop
  | lower {qm : ℤ} {i : ℕ} (hi : i < NPROC) (hr : (proc ⟨i, hi⟩).state = .runnable)
    (hq : (proc ⟨i, hi⟩).queue < qm) : Move proc (.scan qm i) (.scan (proc ⟨i, hi⟩).queue (i + 1))
  | scan {qm : ℤ} {i : ℕ} (hi : i < NPROC)
    (hr : ¬ ((proc ⟨i, hi⟩).state = .runnable ∧ (proc ⟨i, hi⟩).queue < qm)) :
    Move proc (.scan qm i) (.scan qm (i + 1))
  | toRr {i : ℕ} (hi : NPROC ≤ i) : Move proc (.scan 3 i) (.rr 0)
  | toSelect {qm : ℤ} {i : ℕ} (hi : NPROC ≤ i) (hq : qm ≠ 3) :
    Move proc (.scan qm i) (.select qm refmin1 none 0)
  | rr {i : ℕ} (hi : i < NPROC) (hr : (proc ⟨i, hi⟩).state ≠ .runnable) :
    Move proc (.rr i) (.rr (i + 1))
  | endRr {i : ℕ} (hi : NPROC ≤ i) : Move proc (.rr i) .start
  | toAcquire3 {p : Slot} {i : ℕ} (hi : i < NPROC) (hp : p ≠ ⟨i, hi⟩)
    (hr : (proc ⟨i, hi⟩).state = .runnable) : Move proc (.aging3 p i) (.acquire3 p ⟨i, hi⟩)
  | aging3 {p : Slot} {i : ℕ} (hi : i < NPROC)
    (hr : ¬ (p ≠ ⟨i, hi⟩ ∧ (proc ⟨i, hi⟩).state = .runnable)) :
    Move proc (.aging3 p i) (.aging3 p (i + 1))
  | endAging3 {p : Slot} {i : ℕ} (hi : NPROC ≤ i) : Move proc (.aging3 p i) (.rr (p + 1))
  | choose {qm refm : ℤ} {prngd : Option Slot} {i : ℕ} (hi : i < NPROC)
    (hr : (proc ⟨i, hi⟩).state = .runnable) (hq : (proc ⟨i, hi⟩).queue = qm)
    (hn : (proc ⟨i, hi⟩).qnumber < refm) :
    Move proc (.select qm refm prngd i)
      (.select qm (proc ⟨i, hi⟩).qnumber (some ⟨i, hi⟩) (i + 1))
  | select {qm refm : ℤ} {prngd : Option Slot} {i : ℕ} (hi : i < NPROC)
    (hr : ¬ ((proc ⟨i, hi⟩).state = .runnable ∧ (proc ⟨i, hi⟩).queue = qm ∧
      (proc ⟨i, hi⟩).qnumber < refm)) :
    Move proc (.select qm refm prngd i) (.select qm refm prngd (i + 1))
  | toDispatch {qm refm : ℤ} {prngd : Option Slot} {i : ℕ} (hi : NPROC ≤ i) :
    Move proc (.select qm refm prngd i) (.dispatch prngd 0)
  | dispatch {prngd : Option Slot} {i : ℕ} (hi : i < NPROC)
    (hr : (proc ⟨i, hi⟩).state ≠ .runnable) :
    Move proc (.dispatch prngd i) (.dispatch prngd (i + 1))
  | endDispatch {prngd : Option Slot} {i : ℕ} (hi : NPROC ≤ i) :
    Move proc (.dispatch prngd i) .start

/-- The steps of the system, by what happens. -/
inductive Step (s : State n) : Event n → State n → Prop
  | move {c : Fin n} {pc : Pc} (h : Move s.proc (s.pc c) pc) : Step s (.sched c) (s.setPc c pc)
  | dispatch3 {c : Fin n} {p : Slot} (hpc : s.pc c = .rr p) (hr : (s.proc p).state = .runnable) :
    Step s (.sched c) ((s.setProc p ((s.proc p).setState .running)).setPc c (.running3 p))
  | age3 {c : Fin n} {p q : Slot} (hpc : s.pc c = .acquire3 p q) :
    Step s (.sched c) ((s.setBoth q (age3 s.qs (s.proc q))).setPc c (.aging3 p (q + 1)))
  | age {c : Fin n} {prngd : Option Slot} {q : Slot} (hpc : s.pc c = .dispatch prngd q)
    (hr : (s.proc q).state = .runnable) (hq : prngd ≠ some q) :
    Step s (.sched c) ((s.setBoth q (age s.qs (s.proc q))).setPc c (.dispatch prngd (q + 1)))
  | dispatch {c : Fin n} {p : Slot} (hpc : s.pc c = .dispatch (some p) p)
    (hr : (s.proc p).state = .runnable) :
    Step s (.sched c) ((s.setProc p ((s.proc p).setState .running)).setPc c (.running p))
  | leave3 {c : Fin n} {how : Leave} {p : Slot} (hpc : s.pc c = .running3 p) :
    Step s (.leave c how) ((s.setProc p ((s.proc p).setState how.state)).setPc c (.aging3 p 0))
  | leave {c : Fin n} {how : Leave} {p : Slot} (hpc : s.pc c = .running p) :
    Step s (.leave c how) ((s.setBoth p (charge s.qs ((s.proc p).setState how.state))).setPc c
      (.dispatch (some p) (p + 1)))
  | alloc {i : Slot} {tf pt : ℕ} {now : BitVec 32} (hi : (s.proc i).state = .unused) :
    Step s (.alloc i tf pt now) (allocproc i tf pt now s)
  | allocFail {i : Slot} (hi : (s.proc i).state = .unused) : Step s (.allocFail i)
      { s.setProc i (s.proc i).free with nextpid := wrapInt (s.nextpid + 1) }
  | forkFail {i : Slot} (hi : (s.proc i).state = .used) :
    Step s (.forkFail i) (s.setProc i (s.proc i).free)
  | forkDone {i : Slot} (hi : (s.proc i).state = .used) :
    Step s (.forkDone i) (s.setProc i ((s.proc i).setState .runnable))
  | wakeup {i : Slot} (hi : (s.proc i).state = .sleeping) :
    Step s (.wakeup i) (s.setProc i ((s.proc i).setState .runnable))
  | reap {i : Slot} (hi : (s.proc i).state = .zombie) :
    Step s (.reap i) (s.setProc i (s.proc i).free)

section Inversion

variable {s t u : State n} {c : Fin n} {p : Slot} {e : Event n}

theorem eq_of_withLock (h : s.withLock p t = some u) : u = t := by
  rw [State.withLock] at h
  split_ifs at h
  exact (Option.some.inj h).symm

theorem onSlot_inv {st : ProcState} (h : onSlot s p st t = some u) :
    (s.proc p).state = st ∧ u = t := by
  rw [onSlot] at h
  split_ifs at h with hst
  exact ⟨hst, eq_of_withLock h⟩

theorem schedStep_inv (h : schedStep c s = some t) : Step s (.sched c) t := by
  -- a step that only moves the CPU
  have hmove {pc pc' : Pc} (hpc : s.pc c = pc) (h : Move s.proc pc pc') :
      Step s (.sched c) (s.setPc c pc') := .move (hpc ▸ h)
  rw [schedStep] at h
  split at h <;> rename_i hpc
  · rw [scanStep] at h
    split_ifs at h with hi hr hq
    · rw [eq_of_withLock h]
      exact hmove hpc (.lower hi hr.1 hr.2)
    · rw [eq_of_withLock h]
      exact hmove hpc (.scan hi hr)
    · cases h
      subst hq
      exact hmove hpc (.toRr (not_lt.mp hi))
    · cases h
      exact hmove hpc (.toSelect (not_lt.mp hi) hq)
  · rw [rrStep] at h
    split_ifs at h with hi hr
    · rw [eq_of_withLock h]
      exact .dispatch3 hpc hr
    · rw [eq_of_withLock h]
      exact hmove hpc (.rr hi hr)
    · cases h
      exact hmove hpc (.endRr (not_lt.mp hi))
  · cases h
  · rw [aging3Step] at h
    split_ifs at h with hi hr <;> cases h
    · exact hmove hpc (.toAcquire3 hi hr.1 hr.2)
    · exact hmove hpc (.aging3 hi hr)
    · exact hmove hpc (.endAging3 (not_lt.mp hi))
  · rw [acquire3Step] at h
    rw [eq_of_withLock h]
    exact .age3 hpc
  · rw [selectStep] at h
    split_ifs at h with hi hr
    · rw [eq_of_withLock h]
      exact hmove hpc (.choose hi hr.1 hr.2.1 hr.2.2)
    · rw [eq_of_withLock h]
      exact hmove hpc (.select hi hr)
    · cases h
      exact hmove hpc (.toDispatch (not_lt.mp hi))
  · rw [dispatchStep] at h
    split_ifs at h with hi hr hr'
    · rw [eq_of_withLock h]
      exact .age hpc hr.1 hr.2
    · rw [eq_of_withLock h]
      exact .dispatch (hr'.2 ▸ hpc) hr'.1
    · rw [eq_of_withLock h]
      exact hmove hpc (.dispatch hi fun hrun => hr ⟨hrun, fun hp => hr' ⟨hrun, hp⟩⟩)
    · cases h
      exact hmove hpc (.endDispatch (not_lt.mp hi))
  · cases h

theorem leave_inv {how : Leave} (h : leave c how.state s = some t) : Step s (.leave c how) t := by
  rw [leave] at h
  split at h <;> rename_i hpc
  · rw [eq_of_withLock h]
    exact .leave3 hpc
  · rw [eq_of_withLock h]
    exact .leave hpc
  · cases h

theorem step_inv (h : step s e = some t) : Step s e t := by
  cases e with
  | sched c => exact schedStep_inv h
  | leave c how => exact leave_inv h
  | alloc | allocFail | forkFail | forkDone | wakeup | reap =>
    obtain ⟨hi, rfl⟩ := onSlot_inv h
    constructor
    exact hi

end Inversion

end Xv6.Mlfq
