import Xv6.Lib.Run
import Xv6.Proc.Basic
import Xv6.Vm.Bytes

/-!
# The memory of processes

The calls that change address spaces: `fork`, `exit`, `wait` and `growproc` of `kernel/proc.c`, and
`exec` of `kernel/exec.c`, over the page tables of `Xv6.Vm.PageTable`. Calls are taken one at a
time, by any process that has not exited. `kalloc` may fail at any point of a call, and between
calls a process may store what it likes in its own pages. What calls such as `read` copy to the
memory of their caller is an event of its own.

What a call reads from files is an argument of it: whether the file and its headers can be read, the
program headers, and the bytes of the segments (`Xv6.Vm.Elf` says what they are for a file). Open
files and the current directory are left alone here.
-/

namespace Xv6.Vm

/-- The process table, physical memory, and the counters that new processes get values from. -/
structure Machine where
  proc : Slot → Proc
  phys : Phys
  nextpid : ℤ
  ticks : BitVec 32
  npnq0 : ℤ
  /-- The page of the trampoline code, which is part of the kernel. -/
  trampoline : ℕ

/-- Programs on the process table and physical memory. -/
abbrev ProcM := StateT Machine (Except Panic)

namespace ProcM

/-- Run a program on physical memory. -/
def onPhys {α : Type} (x : PhysM α) : ProcM α := fun s =>
  match x.run s.phys with
  | .error e => .error e
  | .ok (a, m) => .ok (a, { s with phys := m })

/-- Slot `i`. -/
def slot (i : Slot) : ProcM Proc := fun s => .ok (s.proc i, s)

/-- Change slot `i`. -/
def update (i : Slot) (f : Proc → Proc) : ProcM Unit := fun s =>
  .ok ((), { s with proc := Function.update s.proc i (f (s.proc i)) })

end ProcM

open ProcM

/-! ### Page tables of processes -/

/-- `proc_pagetable`, for a process with its trapframe in page `tf`. -/
def procPagetable (trampoline tf : ℕ) : PhysM ℕ := do
  let pagetable ← uvmcreate
  if pagetable = 0 then pure 0
  else if ← mappages pagetable TRAMPOLINE PGSIZE trampoline (PTE_R ||| PTE_X) then
    if ← mappages pagetable TRAPFRAME PGSIZE tf (PTE_R ||| PTE_W) then pure pagetable
    else
      uvmunmap pagetable TRAMPOLINE 1 false
      uvmfree pagetable 0
      pure 0
  else
    uvmfree pagetable 0
    pure 0

/-- `proc_freepagetable`. -/
def procFreepagetable (pagetable sz : ℕ) : PhysM Unit := do
  uvmunmap pagetable TRAMPOLINE 1 false
  uvmunmap pagetable TRAPFRAME 1 false
  uvmfree pagetable sz

/-! ### Processes -/

/-- `freeproc`. -/
def freeproc (i : Slot) : ProcM Unit := do
  let p ← slot i
  if p.trapframe ≠ 0 then onPhys (kfree p.trapframe)
  if p.pagetable ≠ 0 then onPhys (procFreepagetable p.pagetable p.sz)
  update i Proc.free

/-- The slot that `allocproc` picks. -/
def Machine.findUnused (s : Machine) : Option Slot :=
  (List.finRange NPROC).find? fun i => (s.proc i).state = .unused

/-- `allocpid`. -/
def allocpid : ProcM ℤ := fun s => .ok (s.nextpid, { s with nextpid := wrapInt (s.nextpid + 1) })

/-- `allocproc`, from `found` on. -/
def allocFound (i : Slot) : ProcM (Option Slot) := do
  let pid ← allocpid
  let tf ← onPhys kalloc
  update i fun p => { p with pid := pid, state := .used, trapframe := tf }
  if tf = 0 then
    freeproc i
    pure none
  else
    let pagetable ← onPhys (procPagetable (← get).trampoline tf)
    update i fun p => { p with pagetable := pagetable }
    if pagetable = 0 then
      freeproc i
      pure none
    else
      let s ← get
      update i fun p => p.allocInit pid tf pagetable s.ticks s.npnq0
      modify fun s => { s with npnq0 := wrapInt (s.npnq0 + 1) }
      pure (some i)

/-- `allocproc`. -/
def allocproc : ProcM (Option Slot) := do
  match (← get).findUnused with
  | none => pure none
  | some i => allocFound i

/-- The trapframe of a child: `fork` copies the structure, of 36 words, and not the page, and clears
`a0`. -/
def copyFrame (tf parent : Page) : Page :=
  Function.update (fun k => if (k : ℕ) < 36 then parent k else tf k) 14 0

/-- `fork`, called by the process in slot `i`: the slot of the child. -/
def fork (i : Slot) : ProcM (Option Slot) := do
  match ← allocproc with
  | none => pure none
  | some j =>
    let p ← slot i
    let np ← slot j
    if ← onPhys (uvmcopy p.pagetable np.pagetable p.sz) then
      onPhys do
        writePage np.trapframe (copyFrame (← readPage np.trapframe) (← readPage p.trapframe))
      update j fun np => np.forkInit i p
      pure (some j)
    else
      freeproc j
      pure none

/-- `growproc`: whether it succeeds. -/
def growproc (i : Slot) (n : ℤ) : ProcM Bool := do
  let p ← slot i
  if 0 < n then
    let sz ← onPhys (uvmalloc p.pagetable p.sz ((p.sz + intToU64 n) % 2 ^ 64) PTE_W)
    if sz = 0 then pure false
    else
      update i fun p => { p with sz := sz }
      pure true
  else if n < 0 then
    let sz ← onPhys (uvmdealloc p.pagetable p.sz ((p.sz + intToU64 n) % 2 ^ 64))
    update i fun p => { p with sz := sz }
    pure true
  else pure true

/-- `initproc`. -/
def initSlot : Slot := 0

/-- `reparent`. -/
def reparent (proc : Slot → Proc) (i : Slot) : Slot → Proc := fun j =>
  if (proc j).parent = some i then { proc j with parent := some initSlot } else proc j

/-- `exit`. -/
def exit (i : Slot) (status : ℤ) : ProcM Unit :=
  if i = initSlot then throw .initExiting
  else do
    modify fun s => { s with proc := reparent s.proc i }
    let s ← get
    update i fun p => { p with xstate := status, state := .zombie, etime := s.ticks }

/-- The first child of the process in slot `i` that has exited. -/
def Machine.findZombie (s : Machine) (i : Slot) : Option Slot :=
  (List.finRange NPROC).find? fun j =>
    decide ((s.proc j).parent = some i) && decide ((s.proc j).state = .zombie)

/-- `wait`, once there is a child that has exited, or none to wait for. It gives up if it cannot
copy the exit status to the caller. -/
def wait (i : Slot) (copied : Bool) : ProcM Unit := do
  match (← get).findZombie i with
  | none => pure ()
  | some j => if copied then freeproc j else pure ()

/-! ### `exec` -/

/-- A program header, with the segment it describes. -/
structure Segment where
  type : BitVec 32
  flags : BitVec 32
  vaddr : BitVec 64
  filesz : BitVec 64
  memsz : BitVec 64
  /-- What `readi` does to the page at offset `i` of the segment, or `none` if it falls short. -/
  data : ℕ → Option (Page → Page)

/-- What `exec` is called with. -/
structure Program where
  path : List Char
  /-- The program headers, or `none` if there is no such file or its header is no good. A header
  that cannot be read is `none`. -/
  headers : Option (List (Option Segment))
  /-- Where the program begins. -/
  entry : Word
  /-- The arguments, each without the zero byte that ends it. -/
  argv : List (List (BitVec 8))

/-- `flags2perm`. -/
def flags2perm (flags : BitVec 32) : Word :=
  (if flags &&& 1 ≠ 0 then PTE_X else 0) ||| (if flags &&& 2 ≠ 0 then PTE_W else 0)

/-- The loop of `loadseg`, with `n` rounds. -/
def loadPages (pagetable va : ℕ) (data : ℕ → Option (Page → Page)) : ℕ → ℕ → PhysM Bool
  | 0, _ => pure true
  | n + 1, i => do
    let pa ← walkaddr pagetable ((va + i) % 2 ^ 64)
    if pa = 0 then throw .loadsegAddressShouldExist
    else
      match data i with
      | none => pure false
      | some f =>
        writePage pa (f (← readPage pa))
        loadPages pagetable va data n ((i + PGSIZE) % 2 ^ 32)

/-- `loadseg`: whether it succeeds. -/
def loadseg (pagetable va : ℕ) (data : ℕ → Option (Page → Page)) (sz : ℕ) : PhysM Bool :=
  loadPages pagetable va data ((sz + PGSIZE - 1) / PGSIZE) 0

/-- The loop of `exec` over the program headers: whether it succeeds, and the size that has been
reached. -/
def loadSegments (pagetable : ℕ) : List (Option Segment) → ℕ → PhysM (Bool × ℕ)
  | [], sz => pure (true, sz)
  | none :: _, sz => pure (false, sz)
  | some ph :: phs, sz =>
    if ph.type ≠ 1 then loadSegments pagetable phs sz
    else if ph.memsz < ph.filesz then pure (false, sz)
    else if ph.vaddr + ph.memsz < ph.vaddr then pure (false, sz)
    else if ph.vaddr.toNat % PGSIZE ≠ 0 then pure (false, sz)
    else do
      let sz1 ← uvmalloc pagetable sz (ph.vaddr + ph.memsz).toNat (flags2perm ph.flags)
      if sz1 = 0 then pure (false, sz)
      else if ← loadseg pagetable ph.vaddr.toNat ph.data (ph.filesz.toNat % 2 ^ 32) then
        loadSegments pagetable phs sz1
      else pure (false, sz1)

/-- Maximum number of arguments. -/
abbrev MAXARG : ℕ := 32

/-- `copyout`, of the bytes `src`. -/
def copyoutBytes (pagetable dstva : ℕ) (src : List (BitVec 8)) : PhysM Bool :=
  copyout pagetable dstva src.length (blit dstva src)

/-- The bytes of an array of `uint64`. -/
def wordBytes (xs : List ℕ) : List (BitVec 8) := xs.flatMap (leBytes 8)

/-- The loop of `exec` over the arguments, with the pointers to those that have been pushed in
`ustack`, and what comes after it: the stack pointer, if it succeeds. -/
def pushArgs (pagetable stackbase : ℕ) : List (List (BitVec 8)) → List ℕ → ℕ → PhysM (Option ℕ)
  | [], ustack, sp =>
    let sp := (sp + 2 ^ 64 - (ustack.length + 1) * 8) % 2 ^ 64
    let sp := sp - sp % 16
    if sp < stackbase then pure none
    else do
      if ← copyoutBytes pagetable sp (wordBytes (ustack ++ [0])) then pure (some sp) else pure none
  | s :: argv, ustack, sp =>
    if MAXARG ≤ ustack.length then pure none
    else
      let sp := (sp + 2 ^ 64 - (s.length + 1)) % 2 ^ 64
      let sp := sp - sp % 16
      if sp < stackbase then pure none
      else do
        if ← copyoutBytes pagetable sp (s ++ [0]) then
          pushArgs pagetable stackbase argv (ustack ++ [sp]) sp
        else pure none

/-- The part of `exec` that loads the program into `pagetable` and allocates its stack: whether it
succeeds, and the size that has been reached. -/
def loadImage (pagetable : ℕ) (phs : List (Option Segment)) : PhysM (Bool × ℕ) := do
  let (ok, sz) ← loadSegments pagetable phs 0
  if ok then
    let sz := pgroundup sz
    let sz1 ← uvmalloc pagetable sz ((sz + 2 * PGSIZE) % 2 ^ 64) PTE_W
    if sz1 = 0 then pure (false, sz)
    else
      uvmclear pagetable ((sz1 + 2 ^ 64 - 2 * PGSIZE) % 2 ^ 64)
      pure (true, sz1)
  else pure (false, sz)

/-- The name that `exec` gives to a process: what comes after the last slash of the path, cut to
what `safestrcpy` can put in 16 bytes. -/
def execName (path : List Char) : String :=
  String.ofList ((path.reverse.takeWhile (· ≠ '/')).reverse.take 15)

/-- Set a word of the trapframe in page `tf`. -/
def setReg (tf : ℕ) (k : Fin 512) (x : Word) : PhysM Unit := do
  writePage tf (Function.update (← readPage tf) k x)

/-- `trapframe->epc`. -/
abbrev regEpc : Fin 512 := 3
/-- `trapframe->sp`. -/
abbrev regSp : Fin 512 := 6
/-- `trapframe->a1`. -/
abbrev regA1 : Fin 512 := 15

/-- `exec`, called by the process in slot `i`. -/
def exec (i : Slot) (x : Program) : ProcM ℤ := do
  match x.headers with
  | none => pure (-1)
  | some phs =>
    let p ← slot i
    let pagetable ← onPhys (procPagetable (← get).trampoline p.trapframe)
    if pagetable = 0 then pure (-1)
    else
      let (ok, sz) ← onPhys (loadImage pagetable phs)
      let sp ← onPhys (if ok
        then pushArgs pagetable ((sz + 2 ^ 64 - PGSIZE) % 2 ^ 64) x.argv [] sz else pure none)
      match sp with
      | none =>
        onPhys (procFreepagetable pagetable sz)
        pure (-1)
      | some sp =>
        onPhys (setReg p.trapframe regA1 sp)
        update i fun p =>
          { p with name := execName x.path, pagetable := pagetable, sz := sz }
        onPhys (setReg p.trapframe regEpc x.entry)
        onPhys (setReg p.trapframe regSp sp)
        onPhys (procFreepagetable p.pagetable p.sz)
        pure x.argv.length

/-! ### The first process -/

/-- `uvmfirst`, for code that fits in a page. It does not look at what `mappages` returns; this is
returned here. -/
def uvmfirst (pagetable : ℕ) (code : Page) : PhysM Bool := do
  let mem ← kalloc
  if mem = 0 then throw .kerneltrap
  else
    writePage mem (fill 0)
    let ok ← mappages pagetable 0 PGSIZE mem (PTE_W ||| PTE_R ||| PTE_X ||| PTE_U)
    writePage mem code
    pure ok

/-- `userinit`, with the code of the first process in `code`: whether its page has been mapped,
which `userinit` takes for granted. -/
def userinit (code : Page) : ProcM Bool := do
  match ← allocproc with
  | none => throw .kerneltrap
  | some i =>
    let ok ← onPhys (uvmfirst (← slot i).pagetable code)
    update i fun p => { p with sz := PGSIZE, name := "initcode", state := .runnable }
    pure ok

/-- The machine before the first process, with free list and memory in `m`. -/
def boot (m : Kmem) (trampoline : ℕ) : Machine where
  proc := fun _ => .zero
  phys := { kmem := m, denied := [] }
  nextpid := 1
  ticks := 0
  npnq0 := 0
  trampoline := trampoline

/-! ### The system -/

/-- What can happen. -/
inductive Event
  | fork (i : Slot)
  | exec (i : Slot) (x : Program)
  | sbrk (i : Slot) (n : ℤ)
  | exit (i : Slot) (status : ℤ)
  | wait (i : Slot) (copied : Bool)
  /-- The process in slot `i` stores something in virtual page `vpn`. -/
  | store (i : Slot) (vpn : ℕ) (pg : Page)
  /-- A call copies something to the memory of its caller. -/
  | copyout (i : Slot) (dstva : ℕ) (src : List (BitVec 8))
  /-- Which of the next calls of `kalloc` fail. -/
  | deny (denied : List Bool)

/-- The process in slot `i` can make calls. -/
def Machine.Active (s : Machine) (i : Slot) : Prop :=
  (s.proc i).state ≠ .unused ∧ (s.proc i).state ≠ .zombie

instance (s : Machine) (i : Slot) : Decidable (s.Active i) := inferInstanceAs (Decidable (_ ∧ _))

/-- One event. An argument of `sbrk` is an `int`. -/
def event : Event → ProcM Unit
  | .fork i => discard (fork i)
  | .exec i x => discard (exec i x)
  | .sbrk i n => discard (growproc i (wrapInt n))
  | .exit i status => exit i status
  | .wait i copied => wait i copied
  | .store i vpn pg => do
    let pa ← onPhys (walkaddr (← slot i).pagetable (vpn * PGSIZE))
    if pa ≠ 0 then onPhys (writePage pa pg)
  | .copyout i dstva src => do
    discard (onPhys (copyoutBytes (← slot i).pagetable dstva src))
  | .deny denied => modify fun s => { s with phys := { s.phys with denied := denied } }

/-- Who makes the call. -/
def Event.caller : Event → Option Slot
  | .fork i | .exec i _ | .sbrk i _ | .exit i _ | .wait i _ | .store i _ _
  | .copyout i _ _ => some i
  | .deny _ => none

/-- The state after an event, if nothing panics. -/
def step (s : Machine) (e : Event) : Option Machine :=
  if ∀ i ∈ e.caller, s.Active i then
    match (event e).run s with
    | .ok (_, t) => some t
    | .error _ => none
  else none

end Xv6.Vm
