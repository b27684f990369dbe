import Xv6.Lib.Run
import Xv6.Mem.Kalloc
import Xv6.Proc.Basic

/-!
# Processes and traps

The life of processes (`fork`, `exit`, `wait`, `kill` of `kernel/proc.c`), the traps that bring
them into the kernel (`usertrap` of `kernel/trap.c`, `syscall` of `kernel/syscall.c`) and the alarm
calls of `kernel/sysproc.c`, over physical memory with its page allocator.

A step of the system is one trap of one process, taken as a whole, or something that happens around
the processes: a clock interrupt, a scheduling decision, a wakeup, or the use of memory by the rest
of the kernel. Scheduling is left open: any runnable process may be dispatched, and the scheduler's
own counters may take any values.

A trapframe is a page: the words of `struct trapframe` are those at the offsets in
`kernel/proc.h`, divided by eight. The four words that `usertrapret` sets for the trampoline are
left out, since only the trampoline reads them. Page tables and user memory are pages that the rest
of the kernel takes and gives back in steps of its own.

`Kernel.owner` is not part of the kernel: it records who took each page from `kalloc`. The rest of
the kernel is assumed to free and write only pages that it took itself.
-/

namespace Xv6

/-! ### Trapframes -/

namespace Tf

def epc : Fin 512 := 3
def sp : Fin 512 := 6
def a0 : Fin 512 := 14
def a1 : Fin 512 := 15
def a7 : Fin 512 := 21

/-- The size of `struct trapframe` in words. -/
def size : ℕ := 36

/-- Whether a word holds a register of the user, or the program counter. -/
def isUser (k : Fin 512) : Bool := k == epc || decide (5 ≤ k ∧ k < 36)

end Tf

/-- The trapframe after the trampoline and `usertrap` have saved the user's registers `u`. -/
def saveUser (tf u : Page) : Page := fun k => if Tf.isUser k then u k else tf k

/-- A register as an `int`. -/
def toInt (w : Word) : ℤ := (w.setWidth 32).toInt

/-- An `int` as a register. -/
def ofInt (x : ℤ) : Word := BitVec.ofInt 64 x

/-! ### The kernel -/

/-- Who uses a page. -/
inductive Owner
  | free
  | other
  /-- The trapframe of the process in slot `i`. -/
  | frame (i : Slot)
  /-- A frame that the alarm code has saved for the process in slot `i`. -/
  | alarm (i : Slot)
  deriving DecidableEq, Repr

/-- The state of the kernel. -/
structure Kernel where
  proc : Slot → Proc
  kmem : Kmem
  ticks : BitVec 32
  nextpid : ℤ
  /-- `npnq[0]`, which gives new processes their queue number. -/
  npnq0 : ℤ
  /-- Whether the kernel has stopped in a panic. -/
  halted : Bool
  owner : ℕ → Owner

/-- `initproc`. -/
def initproc : Slot := 0

/-- The machine before the first process, with the pages `l` on the free list. -/
def boot (m : Kmem) (l : List ℕ) : Kernel where
  proc := fun _ => .zero
  kmem := m
  ticks := 0
  nextpid := 1
  npnq0 := 0
  halted := false
  owner := fun p => if p ∈ l then .free else .other

/-- What happens inside a call of `fork`, once a slot and a trapframe have been found. -/
inductive ForkResult
  /-- `proc_pagetable` fails. -/
  | noPagetable
  /-- `uvmcopy` fails. -/
  | noCopy
  /-- The child gets the page table `pt`. -/
  | ok (pt : ℕ)
  deriving DecidableEq, Repr

/-- The image that `exec` has built. -/
structure Image where
  pagetable : ℕ
  sz : ℕ
  name : String
  entry : Word
  sp : Word
  argc : Word
  deriving DecidableEq, Repr

/-- What a system call meets in the rest of the kernel. Calls on files and memory may return
anything, and leave any open files, current directory and size. -/
structure Outcome where
  fork : ForkResult := .noCopy
  exec : Option Image := none
  /-- Whether `wait` can copy the exit status out. -/
  copyout : Bool := true
  /-- Whether `sys_waitx` can copy the times out. -/
  copyoutTimes : Bool := true
  ret : Word := 0
  ofile : ℕ → ℕ := fun _ => 0
  cwd : ℕ := 0
  sz : ℕ := 0

/-- The causes of a trap from user space. -/
inductive Trap
  | syscall (r : Outcome)
  | timer
  | device
  | fault

namespace Kernel

/-- `panic`. -/
def halt (s : Kernel) : Kernel := { s with halted := true }

/-- Change one slot. -/
def upd (s : Kernel) (i : Slot) (f : Proc → Proc) : Kernel :=
  { s with proc := Function.update s.proc i (f (s.proc i)) }

/-- The trapframe of the process in slot `i`. -/
def frame (s : Kernel) (i : Slot) : Page := s.kmem.mem (s.proc i).trapframe

/-- Overwrite a page. -/
def write (s : Kernel) (p : ℕ) (pg : Page) : Kernel := { s with kmem := s.kmem.write p pg }

/-- Overwrite the trapframe of the process in slot `i`. -/
def setFrame (s : Kernel) (i : Slot) (pg : Page) : Kernel := s.write (s.proc i).trapframe pg

/-- Store one word of a trapframe. -/
def setReg (s : Kernel) (i : Slot) (k : Fin 512) (w : Word) : Kernel :=
  s.setFrame i (Function.update (s.frame i) k w)

/-- `kalloc`, on behalf of `o`. -/
def kalloc (s : Kernel) (o : Owner) : ℕ × Kernel :=
  if s.kmem.freelist = 0 then (0, s)
  else (s.kmem.kalloc.1, { s with
    kmem := s.kmem.kalloc.2, owner := Function.update s.owner s.kmem.kalloc.1 o })

/-- `kfree`. -/
def kfree (s : Kernel) (p : ℕ) : Kernel :=
  match s.kmem.kfree p with
  | none => s.halt
  | some m => { s with kmem := m, owner := Function.update s.owner p .free }

/-! ### Processes -/

/-- `freeproc`, apart from the page table. -/
def freeproc (s : Kernel) (i : Slot) : Kernel :=
  let s' := if (s.proc i).trapframe ≠ 0 then s.kfree (s.proc i).trapframe else s
  s'.upd i Proc.free

/-- The slot that `allocproc` picks. -/
def findUnused (s : Kernel) : Option Slot :=
  (List.finRange NPROC).find? fun i => (s.proc i).state = .unused

/-- The trapframe of a new process: `fork` copies the structure, not the page. -/
def childFrame (tf parent : Page) : Page :=
  Function.update (fun k => if k < Tf.size then parent k else tf k) Tf.a0 0

/-- `allocpid`, which returns the old value of `nextpid`. -/
def allocpid (s : Kernel) : Kernel := { s with nextpid := wrapInt (s.nextpid + 1) }

/-- The end of `allocproc`, once there are a trapframe and a page table. -/
def initSlot (s : Kernel) (j : Slot) (pid : ℤ) (tf pt : ℕ) : Kernel :=
  { s.upd j fun p => p.allocInit pid tf pt s.ticks s.npnq0 with npnq0 := wrapInt (s.npnq0 + 1) }

/-- `fork`, called by the process in slot `i`, once `allocproc` has found slot `j`. -/
def forkInto (s : Kernel) (i j : Slot) (r : ForkResult) : Option Slot × Kernel :=
  let tf := (s.allocpid.kalloc (.frame j)).1
  let s₁ := (s.allocpid.kalloc (.frame j)).2
  if tf = 0 then (none, s₁.upd j Proc.free)
  else
    match r with
    | .noPagetable => (none, (s₁.kfree tf).upd j Proc.free)
    | .noCopy => (none, (s₁.initSlot j s.nextpid tf 0).freeproc j)
    | .ok pt =>
      (some j, ((s₁.initSlot j s.nextpid tf pt).upd j fun p => p.forkInit i (s.proc i)).write tf
        (childFrame (s₁.kmem.mem tf) (s.frame i)))

/-- `fork`, called by the process in slot `i`: the slot of the child, if there is one. -/
def fork (s : Kernel) (i : Slot) (r : ForkResult) : Option Slot × Kernel :=
  match s.findUnused with
  | none => (none, s)
  | some j => s.forkInto i j r

/-- `reparent`. -/
def reparent (s : Kernel) (i : Slot) : Kernel :=
  { s with proc := fun j => if (s.proc j).parent = some i
      then { s.proc j with parent := some initproc } else s.proc j }

/-- `exit`. -/
def exit (s : Kernel) (i : Slot) (status : ℤ) : Kernel :=
  if i = initproc then s.halt
  else
    (s.reparent i).upd i fun p => { p with
      ofile := fun _ => 0, cwd := 0, xstate := status, state := .zombie, etime := s.ticks }

/-- The first child of the process in slot `i` that satisfies a test. -/
def findChild (s : Kernel) (i : Slot) (q : Proc → Bool) : Option Slot :=
  (List.finRange NPROC).find? fun j => decide ((s.proc j).parent = some i) && q (s.proc j)

/-- `wait` and `waitx`: what they return. The call does not return at all while there are children
and none has exited. -/
def wait (s : Kernel) (i : Slot) (copyout : Bool) : Option (Word × Kernel) :=
  match s.findChild i fun p => p.state = .zombie with
  | some j =>
    if copyout then some (ofInt (s.proc j).pid, s.freeproc j) else some (ofInt (-1), s)
  | none =>
    if s.findChild i (fun _ => true) = none ∨ (s.proc i).killed ≠ 0 then some (ofInt (-1), s)
    else none

/-- `kill`. -/
def kill (s : Kernel) (pid : ℤ) : Word × Kernel :=
  match (List.finRange NPROC).find? fun i => (s.proc i).pid = pid with
  | none => (ofInt (-1), s)
  | some i =>
    (0, s.upd i fun p => { p with
      killed := 1, state := if p.state = .sleeping then .runnable else p.state })

/-- `sys_settickets`. -/
def settickets (s : Kernel) (i : Slot) : Word × Kernel :=
  let n := toInt (s.frame i Tf.a0)
  if n < 1 then (ofInt (-1), s) else (0, s.upd i fun p => { p with tickets := n })

/-- `exec`, once it has built an image or failed to. -/
def exec (s : Kernel) (i : Slot) : Option Image → Word × Kernel
  | none => (ofInt (-1), s)
  | some im =>
    (im.argc, (((s.setReg i Tf.a1 im.sp).setReg i Tf.epc im.entry).setReg i Tf.sp im.sp).upd i
      fun p => { p with pagetable := im.pagetable, sz := im.sz, name := im.name })

/-! ### Alarms -/

/-- `sys_sigalarm`. -/
def sigalarm (s : Kernel) (i : Slot) : Word × Kernel :=
  (0, s.upd i fun p => { p with
    ticks := toInt (s.frame i Tf.a0), handler := s.frame i Tf.a1, alarmAct := 1 })

/-- Give the process in slot `i` back the frame saved in page `tf`, and free the page. -/
def restoreFrame (s : Kernel) (i : Slot) (tf : ℕ) : Kernel :=
  ((s.setFrame i (s.kmem.mem tf)).kfree tf).upd i fun p => { p with hlp := 1 }

/-- `sys_sigreturn`. Reading through the null pointer stops the kernel. -/
def sigreturn (s : Kernel) (i : Slot) : Word × Kernel :=
  let tf := (s.proc i).alarmTf
  if tf = 0 then (0, s.halt)
  else ((s.restoreFrame i tf).frame i Tf.a0, s.restoreFrame i tf)

/-- Whether `usertrap` counts a timer trap of this process. -/
def counts (p : Proc) : Bool := p.alarmAct = 1 && p.hlp = 1

/-- Whether a counted timer trap enters the handler. The remainder is that of C, with the divisor
`0` as the hardware has it. -/
def enters (p : Proc) : Bool := (wrapInt (p.sTcks + 1)).tmod p.ticks = 0

/-- Save the trapframe of the process in slot `i` in page `tf`. -/
def saveFrame (s : Kernel) (i : Slot) (tf : ℕ) : Kernel :=
  (s.write tf (s.frame i)).upd i fun p => { p with
    alarmTf := tf, sTcks := wrapInt (p.sTcks + 1) }

/-- Send the process in slot `i` to its handler. -/
def enterHandler (s : Kernel) (i : Slot) : Kernel :=
  (s.setReg i Tf.epc (s.proc i).handler).upd i fun p => { p with hlp := 0 }

/-- The alarm code of `usertrap`. Writing through the null pointer stops the kernel. -/
def alarmTick (s : Kernel) (i : Slot) : Kernel :=
  if counts (s.proc i) then
    let tf := (s.kalloc (.alarm i)).1
    if tf = 0 then s.halt
    else
      let s₁ := (s.kalloc (.alarm i)).2.saveFrame i tf
      if enters (s.proc i) then s₁.enterHandler i else s₁
  else s

/-! ### Traps -/

/-- Count a system call for the parent of the caller. -/
def countCall (s : Kernel) (i : Slot) (num : ℕ) : Kernel :=
  match (s.proc i).parent with
  | none => s
  | some j => s.upd j fun p => { p with
      syscallCount := Function.update p.syscallCount num (p.syscallCount num + 1) }

/-- A call on files or memory. -/
def otherCall (s : Kernel) (i : Slot) (r : Outcome) : Word × Kernel :=
  (r.ret, s.upd i fun p => { p with ofile := r.ofile, cwd := r.cwd, sz := r.sz })

/-- The table `syscalls`, without `exit`, which does not return. -/
def call (s : Kernel) (i : Slot) (r : Outcome) : ℕ → Option (Word × Kernel)
  | 1 =>
    let (j, s') := s.fork i r.fork
    some (j.elim (ofInt (-1)) fun j => ofInt (s'.proc j).pid, s')
  | 3 => s.wait i r.copyout
  | 22 => (s.wait i r.copyout).map fun (w, s') => (if r.copyoutTimes then w else ofInt (-1), s')
  | 6 => some (s.kill (toInt (s.frame i Tf.a0)))
  | 7 => some (s.exec i r.exec)
  | 23 => some (r.ret, s.upd i fun p => { p with s1 := toInt (s.frame i Tf.a0) })
  | 24 => some (s.sigalarm i)
  | 25 => some (s.sigreturn i)
  | 26 => some (s.settickets i)
  | _ => some (s.otherCall i r)

/-- The number of a system call, from `a7`. -/
def sysno (pg : Page) : ℤ := toInt (pg Tf.a7)

/-- `if(killed(p)) exit(-1)`. -/
def checkKilled (s : Kernel) (i : Slot) : Kernel :=
  if (s.proc i).killed ≠ 0 then s.exit i (-1) else s

/-- `syscall`, with the test of `usertrap` that follows it. -/
def syscall (s : Kernel) (i : Slot) (r : Outcome) : Option Kernel :=
  let num := sysno (s.frame i)
  if 0 < num ∧ num < 28 then
    let s₁ := s.countCall i num.toNat
    if num = 2 then some (s₁.exit i (toInt (s.frame i Tf.a0)))
    else (s₁.call i r num.toNat).map fun (w, s₂) => (s₂.setReg i Tf.a0 w).checkKilled i
  else some ((s.setReg i Tf.a0 (ofInt (-1))).checkKilled i)

/-- The start of `usertrap`: the registers of the process in slot `i` are in its trapframe. -/
def enterKernel (s : Kernel) (i : Slot) (u : Page) : Kernel :=
  s.setFrame i (saveUser (s.frame i) u)

/-- The rest of `usertrap`, for a trap of the process in slot `i`. -/
def usertrap (s : Kernel) (i : Slot) : Trap → Option Kernel
  | .syscall r =>
    if (s.proc i).killed ≠ 0 then some (s.exit i (-1))
    else (s.setReg i Tf.epc (s.frame i Tf.epc + 4)).syscall i r
  | .timer =>
    if (s.proc i).killed ≠ 0 then some (s.exit i (-1))
    else some ((s.alarmTick i).upd i fun p => p.setState .runnable)
  | .device => some (s.checkKilled i)
  | .fault => some ((s.upd i fun p => { p with killed := 1 }).checkKilled i)

/-- `userinit`: the first process, with page table `pt`. -/
def userinit (s : Kernel) (pt : ℕ) : Kernel :=
  let tf := (s.allocpid.kalloc (.frame initproc)).1
  if tf = 0 then s.halt
  else
    let s₁ := (s.allocpid.kalloc (.frame initproc)).2.initSlot initproc s.nextpid tf pt
    ((s₁.setReg initproc Tf.epc 0).setReg initproc Tf.sp 4096).upd initproc fun p =>
      { p with sz := 4096, name := "initcode", cwd := 1, state := .runnable }

/-- `clockintr`. -/
def clockintr (s : Kernel) : Kernel :=
  { s with
    ticks := s.ticks + 1
    proc := fun i => if (s.proc i).state = .running
      then { s.proc i with rtime := (s.proc i).rtime + 1 } else s.proc i }

end Kernel

/-! ### The system -/

/-- What can happen. -/
inductive Event
  | userinit (pt : ℕ)
  | clock
  /-- The scheduler lets the process in slot `i` run. -/
  | dispatch (i : Slot)
  /-- The process in slot `i` loses the CPU while it is in the kernel. -/
  | preempt (i : Slot)
  /-- The process in slot `i` goes to sleep on `chan`. -/
  | block (i : Slot) (chan : ℕ)
  | wakeup (i : Slot)
  /-- The scheduler changes the counters of slot `i`. -/
  | account (i : Slot) (queue pqtct wwpqtct qnumber npnq0 : ℤ)
  /-- A trap of the process in slot `i`, with registers `u`. -/
  | trap (i : Slot) (u : Page) (cause : Trap)
  /-- The rest of the kernel takes, frees or writes a page. -/
  | otherAlloc
  | otherFree (p : ℕ)
  | otherWrite (p : ℕ) (pg : Page)

/-- One event, while the kernel runs. -/
def stepEvent (s : Kernel) : Event → Option Kernel
  | .userinit pt => if s.nextpid = 1 ∧ (s.proc initproc).state = .unused
      then some (s.userinit pt) else none
  | .clock => some s.clockintr
  | .dispatch i => if (s.proc i).state = .runnable
      then some (s.upd i fun p => { p with state := .running, chan := 0 }) else none
  | .preempt i => if (s.proc i).state = .running
      then some (s.upd i fun p => p.setState .runnable) else none
  | .block i chan => if (s.proc i).state = .running
      then some (s.upd i fun p => { p with state := .sleeping, chan := chan }) else none
  | .wakeup i => if (s.proc i).state = .sleeping
      then some (s.upd i fun p => p.setState .runnable) else none
  | .account i queue pqtct wwpqtct qnumber npnq0 =>
      some { s.upd i fun p => { p with
        queue := queue, pqtct := pqtct, wwpqtct := wwpqtct, qnumber := qnumber } with
        npnq0 := npnq0 }
  | .trap i u cause => if (s.proc i).state = .running
      then (s.enterKernel i u).usertrap i cause else none
  | .otherAlloc => some (s.kalloc .other).2
  | .otherFree p => if s.owner p = .other then some (s.kfree p) else none
  | .otherWrite p pg => if s.owner p = .other then some (s.write p pg) else none

/-- One event. Nothing happens after a panic. -/
def step (s : Kernel) (e : Event) : Option Kernel :=
  if s.halted then none else stepEvent s e

/-! ### A small machine

For runs on concrete inputs. -/

/-- Memory with five free pages. -/
def fewPages : Kmem where
  mem p := fun _ => if p < 0x87ffe then addrOf (p + 1) else 0
  freelist := 0x87ffa
  first := 0x80100

/-- The free pages of `fewPages`. -/
def fewFree : List ℕ := [0x87ffa, 0x87ffb, 0x87ffc, 0x87ffd, 0x87ffe]

theorem fewPages_free : fewPages.Free fewFree where
  first_pos := by decide
  isList := by decide +kernel
  range := by decide

/-- The registers of a system call. -/
def callRegs (num a0 a1 : Word) : Page := fun k =>
  if k = Tf.a7 then num else if k = Tf.a0 then a0 else if k = Tf.a1 then a1 else 0

end Xv6
