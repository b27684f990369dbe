import Xv6.Proc.Basic
import Xv6.Vm.UserMem

/-!
# `wait` and `waitx`

A round of `wait` goes through the process table. It frees the first child that has exited and
returns, or there is nothing to wait for and it returns, or it sleeps and there is another round. A
round that sleeps changes nothing, so this is about the last one. It is under `wait_lock` all the
time, and nobody becomes a zombie or gets another parent meanwhile.

`sys_waitx` copies the times to the user after `waitx` has returned, whatever it has returned. By
then the child is gone, and without a child the times are whatever the two variables contained.
-/

namespace Xv6.Wait

open Vm (PGSIZE)

/-- The process table, and the memory of the caller. -/
structure State where
  proc : Slot → Proc
  user : UserMem

/-- The loop over the table, with `havekids`: the first child that is a zombie, and whether there
are children. -/
def scan (proc : Slot → Proc) (p : Slot) : List Slot → Bool → Option Slot × Bool
  | [], havekids => (none, havekids)
  | pp :: pps, havekids =>
    if (proc pp).parent = some p then
      if (proc pp).state = .zombie then (some pp, true) else scan proc p pps true
    else scan proc p pps havekids

/-- `copyout` of the exit status, if there is an address. -/
def copyStatus (u : UserMem) (addr : ℕ) (xstate : ℤ) : Bool × UserMem :=
  if addr ≠ 0 then u.copyout addr (bytes (BitVec.ofInt 32 xstate)) else (true, u)

/-- `freeproc`. -/
def State.freeproc (s : State) (pp : Slot) : State :=
  { s with proc := Function.update s.proc pp (s.proc pp).free }

/-- A round of `wait`, by the process in slot `p`: what it returns, if it does. -/
def wait (s : State) (p : Slot) (addr : ℕ) : Option (ℤ × State) :=
  match scan s.proc p (List.finRange NPROC) false with
  | (some pp, _) =>
    match copyStatus s.user addr (s.proc pp).xstate with
    | (false, user) => some (-1, { s with user := user })
    | (true, user) => some ((s.proc pp).pid, { s.freeproc pp with user := user })
  | (none, havekids) =>
    if havekids = false ∨ (s.proc p).killed ≠ 0 then some (-1, s) else none

/-- What `waitx` leaves in the variables of its caller. -/
structure Times where
  wtime : BitVec 32
  rtime : BitVec 32
  deriving DecidableEq

/-- The times of a process that has exited. -/
def times (np : Proc) : Times where
  wtime := np.etime - np.ctime - np.rtime
  rtime := np.rtime

/-- A round of `waitx`, with what is in the variables before. -/
def waitx (s : State) (p : Slot) (addr : ℕ) (x : Times) : Option (ℤ × Times × State) :=
  match scan s.proc p (List.finRange NPROC) false with
  | (some np, _) =>
    match copyStatus s.user addr (s.proc np).xstate with
    | (false, user) => some (-1, times (s.proc np), { s with user := user })
    | (true, user) =>
      some ((s.proc np).pid, times (s.proc np), { s.freeproc np with user := user })
  | (none, havekids) =>
    if havekids = false ∨ (s.proc p).killed ≠ 0 then some (-1, x, s) else none

/-- `sys_waitx`, with what is in its variables at first. -/
def sysWaitx (s : State) (p : Slot) (addr addr1 addr2 : ℕ) (x : Times) : Option (ℤ × State) :=
  (waitx s p addr x).map fun (ret, x, s) =>
    match s.user.copyout addr1 (bytes x.wtime) with
    | (false, user) => (-1, { s with user := user })
    | (true, user) =>
      match user.copyout addr2 (bytes x.rtime) with
      | (false, user) => (-1, { s with user := user })
      | (true, user) => (ret, { s with user := user })

/-- A system call. -/
inductive Call
  | wait (addr : ℕ)
  /-- With what is in the variables of `sys_waitx` at first. -/
  | waitx (addr addr1 addr2 : ℕ) (x : Times)
  deriving DecidableEq

/-- A round of the call. -/
def Call.round (s : State) (p : Slot) : Call → Option (ℤ × State)
  | .wait addr => Wait.wait s p addr
  | .waitx addr addr1 addr2 x => sysWaitx s p addr addr1 addr2 x

/-! ### The loop over the table -/

section Scan

variable {proc : Slot → Proc} {p q : Slot} {pps : List Slot} {havekids : Bool}

/-- The process in slot `q` is a child of `p` and has exited. -/
def Exited (proc : Slot → Proc) (p q : Slot) : Prop :=
  (proc q).parent = some p ∧ (proc q).state = .zombie

instance (proc : Slot → Proc) (p q : Slot) : Decidable (Exited proc p q) :=
  inferInstanceAs (Decidable (_ ∧ _))

end Scan

section Calls

variable {s t : State} {p : Slot} {addr addr1 addr2 : ℕ} {x : Times} {ret : ℤ}

/-- There is no address for the status, or it is mapped. -/
def StatusFits (u : UserMem) (addr : ℕ) : Prop := addr = 0 ∨ u.Mapped addr 4

instance (u : UserMem) (addr : ℕ) : Decidable (StatusFits u addr) :=
  inferInstanceAs (Decidable (_ ∨ _))

/-- A child has exited, and its status can be copied. -/
def Reaps (s : State) (p : Slot) (addr : ℕ) : Prop :=
  (∃ q, Exited s.proc p q) ∧ StatusFits s.user addr

/-- What a round that frees nobody leaves in the variables of its caller and in memory: the times of
a child whose status has been copied half way, or what has been there. -/
def State.unreaped (s : State) (p : Slot) (addr : ℕ) (x : Times) : Times × UserMem :=
  match (scan s.proc p (List.finRange NPROC) false).1 with
  | some np =>
    (times (s.proc np), s.user.fill addr (bytes (BitVec.ofInt 32 (s.proc np).xstate)))
  | none => (x, s.user)

/-- The words that `waitx` is given for the times are as before. -/
def Call.TimesKept (u v : UserMem) : Call → Prop
  | .wait _ => True
  | .waitx _ addr1 addr2 _ =>
    ∀ i < 4, v.mem (addr1 + i) = u.mem (addr1 + i) ∧ v.mem (addr2 + i) = u.mem (addr2 + i)

/-- What the copies of the times leave in memory. The second is made if the first succeeds. -/
def copyTimes (u : UserMem) (addr1 addr2 : ℕ) (y : Times) : UserMem :=
  if u.Mapped addr1 4 then (u.fill addr1 (bytes y.wtime)).fill addr2 (bytes y.rtime)
  else u.fill addr1 (bytes y.wtime)

/-- With `waitx`, the two words for the times are mapped if a child is freed. If not, what is copied
all the same, up to pages that are not mapped, does not change these words. -/
def Call.Sound (s : State) (p : Slot) : Call → Prop
  | .wait _ => True
  | .waitx addr addr1 addr2 x =>
    (Reaps s p addr → s.user.Mapped addr1 4 ∧ s.user.Mapped addr2 4) ∧
      (¬ Reaps s p addr → (Call.waitx addr addr1 addr2 x).TimesKept s.user
        (copyTimes (s.unreaped p addr x).2 addr1 addr2 (s.unreaped p addr x).1))

end Calls

end Xv6.Wait
