import Xv6.Lib.Run
import Xv6.Lib.Sleep

/-!
# Pipes

A pipe, and `N` processes that call `pipewrite`, `piperead` and `pipeclose` on it, at any time and
as often as they like. The processes take turns in any order. A process holds `pi->lock` over most
of a call, but others can take steps all the same: they begin calls, go to sleep, or kill a process.

`wakeup` takes one step for every process it looks at. `sleep` takes two, as `pi->lock` is free
before the process is asleep. Where a process does something that nobody else can see or change, it
is part of the step before. What `copyin` and `copyout` say comes from outside.

`pipeclose` frees the page of the pipe when both ends are closed. Nobody has the pipe open then, so
nobody calls anything, and this is left out.
-/

namespace Xv6.Pipe

open Function (update)

abbrev PIPESIZE : ℕ := 512

/-- What a process sleeps on. -/
inductive Chan
  /-- `&pi->nread`: readers wait for bytes. -/
  | nread
  /-- `&pi->nwrite`: writers wait for room. -/
  | nwrite
  deriving DecidableEq, Repr

/-- Who sleeps, and what it has to do when it wakes up. -/
inductive Waiter
  | writer (i : ℕ) (n : ℤ)
  | reader (n : ℤ)
  deriving DecidableEq, Repr

/-- Where a process sleeps. -/
def Waiter.chan : Waiter → Chan
  | .writer _ _ => .nwrite
  | .reader _ => .nread

/-- What comes after `wakeup`. -/
inductive Next
  | sleep (w : Waiter)
  /-- Give back the lock and return. -/
  | done
  deriving DecidableEq, Repr

/-- Where a process is. -/
inductive Pc
  | idle
  /-- Before `acquire` in `pipewrite`, with the number of bytes to write. -/
  | pipewrite (n : ℤ)
  /-- At the head of the loop of `pipewrite`. -/
  | writeLoop (i : ℕ) (n : ℤ)
  | piperead (n : ℤ)
  /-- At the head of the first loop of `piperead`. -/
  | readWait (n : ℤ)
  /-- At the head of the second loop of `piperead`. -/
  | readCopy (i : ℕ) (n : ℤ)
  | pipeclose (writable : Bool)
  /-- In `pipeclose`, after `acquire`. -/
  | close (writable : Bool)
  /-- In `wakeup(c)`, before it looks at process `k`. -/
  | waking (c : Chan) (k : ℕ) (next : Next)
  /-- In `sleep`. -/
  | sleeping (w : Waiter)
  deriving DecidableEq, Repr

/-- Where a process goes on when `sleep` returns. -/
def Waiter.resume : Waiter → Pc
  | .writer i n => .writeLoop i n
  | .reader n => .readWait n

/-- The pipe and the processes, with all bytes that have been stored and delivered. -/
structure State (N : ℕ) where
  data : ℕ → BitVec 8
  nread : BitVec 32
  nwrite : BitVec 32
  readopen : Bool
  writeopen : Bool
  lock : Option (Fin N)
  pc : Fin N → Pc
  status : Fin N → Status Chan
  killed : Fin N → Bool
  /-- What `pipewrite` has put into the pipe. -/
  stored : List (BitVec 8)
  /-- What `piperead` has copied out. -/
  delivered : List (BitVec 8)

/-- What happens. -/
inductive Event (N : ℕ)
  | pipewrite (j : Fin N) (n : ℤ)
  | piperead (j : Fin N) (n : ℤ)
  | pipeclose (j : Fin N) (writable : Bool)
  /-- Process `j` takes a step. If it copies a byte in, this is the byte. If it copies in or out and
  there is none, the copy fails. -/
  | run (j : Fin N) (copy : Option (BitVec 8))
  | kill (j : Fin N)
  /-- Process `j` has gone and there is another one in its place. -/
  | replace (j : Fin N)

section Step

variable {N : ℕ}

/-- `pipealloc`, with nobody in a call. -/
def pipealloc (N : ℕ) (data : ℕ → BitVec 8) : State N where
  data := data
  nread := 0
  nwrite := 0
  readopen := true
  writeopen := true
  lock := none
  pc := fun _ => .idle
  status := fun _ => .awake
  killed := fun _ => false
  stored := []
  delivered := []

/-- Process `j` goes to `pc`. -/
def State.goto (s : State N) (j : Fin N) (pc : Pc) : State N :=
  { s with pc := update s.pc j pc }

/-- `acquire(&pi->lock)`. It spins while somebody has the lock. -/
def acquire (s : State N) (j : Fin N) (pc : Pc) : Option (State N) :=
  if s.lock = none then some { s.goto j pc with lock := some j } else none

/-- `release(&pi->lock)` and return. -/
def release (s : State N) (j : Fin N) : State N :=
  { s.goto j .idle with lock := none }

/-- `sleep`, as far as `release(lk)`. -/
def sleep (s : State N) (j : Fin N) (w : Waiter) : State N :=
  { s.goto j (.sleeping w) with
    lock := none
    status := update s.status j (.falling w.chan) }

/-- `wakeup(c)`: look at process `k`. When all have been looked at, go on. -/
def wakeup (s : State N) (j : Fin N) (c : Chan) (k : ℕ) (next : Next) : Option (State N) :=
  if h : k < N then
    (wakeAt c j ⟨k, h⟩ s.status).map fun status =>
      { s.goto j (.waking c (k + 1) next) with status := status }
  else
    match next with
    | .sleep w => some (sleep s j w)
    | .done => some (release s j)

/-- A round of the loop of `pipewrite`. -/
def writeLoop (s : State N) (j : Fin N) (i : ℕ) (n : ℤ) (copyin : Option (BitVec 8)) : State N :=
  if i < n then
    if s.readopen = false ∨ s.killed j then release s j
    else if s.nwrite = s.nread + BitVec.ofNat 32 PIPESIZE then
      s.goto j (.waking .nread 0 (.sleep (.writer i n)))
    else
      match copyin with
      | none => s.goto j (.waking .nread 0 .done)
      | some ch =>
        { s.goto j (.writeLoop (i + 1) n) with
          data := update s.data (s.nwrite.toNat % PIPESIZE) ch
          nwrite := s.nwrite + 1
          stored := s.stored ++ [ch] }
  else s.goto j (.waking .nread 0 .done)

/-- A round of the first loop of `piperead`. -/
def readWait (s : State N) (j : Fin N) (n : ℤ) : State N :=
  if s.nread = s.nwrite ∧ s.writeopen then
    if s.killed j then release s j else sleep s j (.reader n)
  else s.goto j (.readCopy 0 n)

/-- A round of the second loop of `piperead`. -/
def readCopy (s : State N) (j : Fin N) (i : ℕ) (n : ℤ) (copyout : Bool) : State N :=
  if i < n then
    if s.nread = s.nwrite then s.goto j (.waking .nwrite 0 .done)
    else if copyout then
      { s.goto j (.readCopy (i + 1) n) with
        nread := s.nread + 1
        delivered := s.delivered ++ [s.data (s.nread.toNat % PIPESIZE)] }
    else { s.goto j (.waking .nwrite 0 .done) with nread := s.nread + 1 }
  else s.goto j (.waking .nwrite 0 .done)

/-- `pipeclose`, after `acquire`. -/
def close (s : State N) (j : Fin N) (writable : Bool) : State N :=
  if writable then { s.goto j (.waking .nread 0 .done) with writeopen := false }
  else { s.goto j (.waking .nwrite 0 .done) with readopen := false }

/-- `sleep`, after `release(lk)`. A process that has been woken takes the lock and goes on. -/
def sleeping (s : State N) (j : Fin N) (w : Waiter) : Option (State N) :=
  match s.status j with
  | .falling c => some { s with status := update s.status j (.asleep c) }
  | .asleep _ => none
  | .awake => acquire s j w.resume

/-- Process `j` takes a step. -/
def run (s : State N) (j : Fin N) (copy : Option (BitVec 8)) : Option (State N) :=
  match s.pc j with
  | .idle => none
  | .pipewrite n => acquire s j (.writeLoop 0 n)
  | .writeLoop i n => some (writeLoop s j i n copy)
  | .piperead n => acquire s j (.readWait n)
  | .readWait n => some (readWait s j n)
  | .readCopy i n => some (readCopy s j i n copy.isSome)
  | .pipeclose writable => acquire s j (.close writable)
  | .close writable => some (close s j writable)
  | .waking c k next => wakeup s j c k next
  | .sleeping w => sleeping s j w

/-- `kill`, when it has found the process. It needs the process's own lock. -/
def kill (s : State N) (j : Fin N) : Option (State N) :=
  (s.status j).rouse.map fun t =>
    { s with
      status := update s.status j t
      killed := update s.killed j true }

/-- A process that is in no call begins one. -/
def State.call (s : State N) (j : Fin N) (pc : Pc) : Option (State N) :=
  if s.pc j = .idle then some (s.goto j pc) else none

/-- One step of the system. -/
def step (s : State N) : Event N → Option (State N)
  | .pipewrite j n => s.call j (.pipewrite n)
  | .piperead j n => s.call j (.piperead n)
  | .pipeclose j writable => s.call j (.pipeclose writable)
  | .run j copy => run s j copy
  | .kill j => kill s j
  | .replace j =>
    if s.pc j = .idle then some { s with killed := update s.killed j false } else none

end Step

end Xv6.Pipe
