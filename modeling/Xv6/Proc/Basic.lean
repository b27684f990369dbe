import Xv6.Param

/-!
# Process slots

`struct proc` of `kernel/proc.h`, and what `allocproc`, `freeproc` and `fork` do to the fields of
one slot. The rest of the kernel model (the scheduler, the alarm code, the histories of
`Xv6.Proc.Kernel`) changes slots only through these.

Pointers into physical memory are page numbers, with `0` for the null pointer. The kernel-private
`context` and `kstack` are left out: nothing that is modelled reads them.
-/

namespace Xv6

/-- `enum procstate`. -/
inductive ProcState
  | unused
  | used
  | sleeping
  | runnable
  | running
  | zombie
  deriving DecidableEq, Repr

/-- A slot of the process table. -/
abbrev Slot := Fin NPROC

/-- `struct proc`. -/
structure Proc where
  state : ProcState
  /-- If non-zero, what the process sleeps on. -/
  chan : ℕ
  /-- If non-zero, the process has been killed. -/
  killed : ℤ
  xstate : ℤ
  pid : ℤ
  parent : Option Slot
  sz : ℕ
  /-- Root page of the user page table. -/
  pagetable : ℕ
  /-- Page that holds the trapframe. -/
  trapframe : ℕ
  ofile : ℕ → ℕ
  cwd : ℕ
  name : String
  rtime : BitVec 32
  ctime : BitVec 32
  etime : BitVec 32
  syscallCount : ℕ → BitVec 32
  s1 : ℤ
  tickets : ℤ
  arrivalT : BitVec 64
  /-- Alarm interval. -/
  ticks : ℤ
  /-- Timer traps counted so far. -/
  sTcks : ℤ
  handler : BitVec 64
  /-- Zero while an alarm handler runs. -/
  hlp : ℤ
  /-- Page that holds the frame an alarm interrupted. -/
  alarmTf : ℕ
  alarmAct : ℤ
  /-- Dispatches since the process entered its queue. -/
  pqtct : ℤ
  queue : ℤ
  /-- Rounds waited since the last dispatch. -/
  wwpqtct : ℤ
  /-- Place in the queue. -/
  qnumber : ℤ

namespace Proc

/-- A slot of the zero-initialised table. -/
def zero : Proc where
  state := .unused
  chan := 0
  killed := 0
  xstate := 0
  pid := 0
  parent := none
  sz := 0
  pagetable := 0
  trapframe := 0
  ofile := fun _ => 0
  cwd := 0
  name := ""
  rtime := 0
  ctime := 0
  etime := 0
  syscallCount := fun _ => 0
  s1 := 0
  tickets := 0
  arrivalT := 0
  ticks := 0
  sTcks := 0
  handler := 0
  hlp := 0
  alarmTf := 0
  alarmAct := 0
  pqtct := 0
  queue := 0
  wwpqtct := 0
  qnumber := 0

/-- `p->state = st`. -/
@[simps] def setState (p : Proc) (st : ProcState) : Proc := { p with state := st }

/-- The assignments of `freeproc`. -/
def free (p : Proc) : Proc :=
  { p with
    trapframe := 0, pagetable := 0, sz := 0, pid := 0, parent := none, name := "", chan := 0,
    killed := 0, xstate := 0, state := .unused }

/-- The assignments `allocproc` makes once the trapframe page `tf` and the page table `pt` exist,
at time `now`, with `qn` the queue number it takes from `npnq[0]`. -/
def allocInit (p : Proc) (pid : ℤ) (tf pt : ℕ) (now : BitVec 32) (qn : ℤ) : Proc :=
  { p with
    pid := pid, state := .used, trapframe := tf, pagetable := pt, syscallCount := fun _ => 0,
    rtime := 0, etime := 0, ctime := now, tickets := 1, arrivalT := now.setWidth 64, sTcks := 0,
    hlp := 1, pqtct := 0, queue := 1, wwpqtct := 0, qnumber := qn }

/-- The assignments `fork` makes in the child `np` of the process `p` in slot `i`, after the
memory has been copied. -/
def forkInit (np : Proc) (i : Slot) (p : Proc) : Proc :=
  { np with
    sz := p.sz, s1 := p.s1, ofile := fun fd => if p.ofile fd ≠ 0 then p.ofile fd else np.ofile fd,
    cwd := p.cwd, name := p.name, parent := some i, tickets := p.tickets, state := .runnable }

end Proc

end Xv6
