import Xv6.Lib.Circular
import Xv6.Lib.Run
import Xv6.Log.Redo

/-!
# The buffer cache and its callers

`kernel/bio.c`, with the list of buffers in the order in which they were released, and the callers
of `bread`, `bwrite` and `brelse`: any number of processes in the file system, and `commit` of
`kernel/log.c`.

What is done under `bcache.lock` is one action. So `bread` is three actions: `bget` finds a buffer,
its sleep lock is acquired, and what is missing is read from the disk. `brelse` is two. Other
processes may do something in between.

A process in the file system may do what it likes with the buffers that it has, in any order. In
`commit`, a process has a program: what `write_log`, `write_head` and `install_trans` do to the
blocks in the log header, which nobody changes meanwhile.

A process that calls `bread` for a block that it has a buffer of would wait for itself; this does
not happen here. An action that panics does not happen either: the machine has stopped. Reference
counts are numbers, and do not overflow.

`recover_from_log` is not a program of its own: before other processes run, it reads, changes,
writes and releases buffers, as any process may.
-/

namespace Xv6.Bio

open Function (update)

/-- The number of buffers. -/
abbrev NBUF : ℕ := MAXOPBLOCKS * 3

/-- A cell of the list: a buffer, or `bcache.head`. -/
abbrev Node := Option (Fin NBUF)

/-- `struct buf`, without its links. -/
structure Buf (P : Type) where
  valid : Bool
  dev : ℕ
  blockno : ℕ
  refcnt : ℕ
  /-- Who has the sleep lock. -/
  lock : Option P
  data : Block

/-- How far a process is with a buffer. -/
inductive Stage
  /-- It has no reference. -/
  | none
  /-- In `bget`, at `acquiresleep`. -/
  | waiting
  /-- In `bread`, with the lock. -/
  | locked
  /-- `bread` has returned. The buffer is dirty if it has been changed and not passed to `log_write`
  or `bwrite` since. -/
  | ready (dirty : Bool)
  /-- In `brelse`, after `releasesleep`. -/
  | leaving
  deriving DecidableEq

/-- What `commit` does, by block number. -/
inductive Instr
  | bread (b : ℕ)
  /-- `memmove`, from the buffer of one block to that of another. -/
  | copy (src dst : ℕ)
  /-- Store the log header in the buffer of the header block. -/
  | head
  | bwrite (b : ℕ)
  | bunpin (b : ℕ)
  | brelse (b : ℕ)
  /-- `log.lh.n = 0` -/
  | clear
  /-- `log.committing = 0` -/
  | finish
  deriving DecidableEq

/-- The links of all buffers and of `bcache.head`. -/
structure Links where
  next : Node → Node
  prev : Node → Node

/-- Put buffer `i` in front, as `binit` and `brelse` do. -/
def Links.push (k : Links) (i : Fin NBUF) : Links where
  next := update (update k.next (some i) (k.next none)) none (some i)
  prev := update (update k.prev (some i) none) (k.next none) (some i)

/-- Take buffer `i` out. -/
def Links.unlink (k : Links) (i : Fin NBUF) : Links where
  next := update k.next (k.prev (some i)) (k.next (some i))
  prev := update k.prev (k.next (some i)) (k.prev (some i))

/-- The loop of `binit`. -/
def binit : Links := (List.finRange NBUF).foldl Links.push ⟨fun _ => none, fun _ => none⟩

/-- The buffers and their list, the disks, the log, and what the processes of `P` have to do. -/
structure State (P : Type) where
  buf : Fin NBUF → Buf P
  links : Links
  /-- The disks, by device and block number. -/
  disk : ℕ → ℕ → Block
  /-- `log.lh.block[0..n)`. -/
  lh : List ℕ
  outstanding : ℕ
  committing : Bool
  /-- The process is between `begin_op` and `end_op`. -/
  inOp : P → Bool
  hold : P → Fin NBUF → Stage
  /-- What is left of `commit`. -/
  code : P → List Instr

/-! ### The program of `commit` -/

/-- One round of `write_log`. -/
def logBlock (L : LogArea) (x : ℕ × ℕ) : List Instr :=
  let (b, tail) := x
  [.bread (L.start + tail + 1), .bread b, .copy b (L.start + tail + 1),
    .bwrite (L.start + tail + 1), .brelse b, .brelse (L.start + tail + 1)]

/-- `write_log`. -/
def writeLog (L : LogArea) (lh : List ℕ) : List Instr := lh.zipIdx.flatMap (logBlock L)

/-- `write_head`. -/
def writeHead (L : LogArea) : List Instr :=
  [.bread L.start, .head, .bwrite L.start, .brelse L.start]

/-- One round of `install_trans(0)`. -/
def installBlock (L : LogArea) (x : ℕ × ℕ) : List Instr :=
  let (b, tail) := x
  [.bread (L.start + tail + 1), .bread b, .copy (L.start + tail + 1) b, .bwrite b, .bunpin b,
    .brelse (L.start + tail + 1), .brelse b]

/-- `install_trans(0)`. -/
def installTrans (L : LogArea) (lh : List ℕ) : List Instr := lh.zipIdx.flatMap (installBlock L)

/-- `commit`, with what `end_op` does after it. -/
def commit (L : LogArea) (lh : List ℕ) : List Instr :=
  (if lh = [] then []
    else writeLog L lh ++ writeHead L ++ installTrans L lh ++ [.clear] ++ writeHead L) ++ [.finish]

/-! ### Actions -/

/-- What a process does. Buffers are given by their index. -/
inductive Act
  /-- `bget`, under `bcache.lock`. -/
  | bget (dev blockno : ℕ)
  /-- `acquiresleep`, at the end of `bget`. -/
  | acquire (i : Fin NBUF)
  /-- `bread`, after `bget`. -/
  | read (i : Fin NBUF)
  /-- Change the contents of a buffer. -/
  | write (i : Fin NBUF) (data : Block)
  | bwrite (i : Fin NBUF)
  | logWrite (i : Fin NBUF)
  | bunpin (i : Fin NBUF)
  /-- `brelse`, up to `releasesleep`. -/
  | release (i : Fin NBUF)
  /-- `brelse`, under `bcache.lock`. -/
  | unref (i : Fin NBUF)
  | beginOp
  | endOp
  | copy (i j : Fin NBUF)
  | head (i : Fin NBUF)
  | clear
  | finish

section Actions

variable {P : Type} [DecidableEq P] (L : LogArea) (dev : ℕ) (s : State P) (p : P)

/-- Buffer `i` is for block `b` of device `d`. -/
def State.isFor (i : Fin NBUF) (d b : ℕ) : Bool :=
  decide ((s.buf i).dev = d) && decide ((s.buf i).blockno = b)

/-- The process is in the file system and the action is one of the file system, or it is in `commit`
and the action is the next one there. -/
def State.follows : Act → Bool := fun a =>
  match s.code p, a with
  | [], .bunpin _ | [], .copy _ _ | [], .head _ | [], .clear | [], .finish => false
  | [], _ => true
  | .bread b :: _, .bget d b' => decide (d = dev) && decide (b' = b)
  | .bread b :: _, .acquire i | .bread b :: _, .read i => s.isFor i dev b
  | .copy b c :: _, .copy i j => s.isFor i dev b && s.isFor j dev c
  | .head :: _, .head i => s.isFor i dev L.start
  | .bwrite b :: _, .bwrite i => s.isFor i dev b
  | .bunpin b :: _, .bunpin i => s.isFor i dev b
  | .brelse b :: _, .release i | .brelse b :: _, .unref i => s.isFor i dev b
  | .clear :: _, .clear => true
  | .finish :: _, .finish => true
  | _, _ => false

/-- Change a buffer. -/
def State.upd (i : Fin NBUF) (f : Buf P → Buf P) : State P :=
  { s with buf := update s.buf i (f (s.buf i)) }

/-- Change how far a process is with a buffer. -/
def State.setHold (i : Fin NBUF) (h : Stage) : State P :=
  { s with hold := update s.hold p (update (s.hold p) i h) }

/-- Go on to the next instruction of `commit`. -/
def State.pop : State P := { s with code := update s.code p (s.code p).tail }

/-- `bget`, where the block is cached. -/
def State.hit (i : Fin NBUF) : State P :=
  (s.upd i fun b => { b with refcnt := b.refcnt + 1 }).setHold p i .waiting

/-- `bget`, where a buffer is recycled. -/
def State.recycle (i : Fin NBUF) (d b : ℕ) : State P :=
  (s.upd i fun bf => { bf with dev := d, blockno := b, valid := false, refcnt := 1 }).setHold p i
    .waiting

/-- The first loop of `bget`. -/
def State.lookup (d b : ℕ) : Option Node :=
  scan none s.links.next (fun x => x.elim false fun i => s.isFor i d b) (NBUF + 1)
    (s.links.next none)

/-- The second loop of `bget`. -/
def State.victim : Option Node :=
  scan none s.links.prev (fun x => x.elim false fun i => decide ((s.buf i).refcnt = 0)) (NBUF + 1)
    (s.links.prev none)

/-- `bget`, under `bcache.lock`. -/
def State.bget (d b : ℕ) : Option (State P) :=
  match s.lookup d b with
  | some (some i) => if s.hold p i = .none then some (s.hit p i) else none
  | _ =>
    match s.victim with
    | some (some i) => some (s.recycle p i d b)
    | _ => none

/-- `bread`, after `bget`. -/
def State.read (i : Fin NBUF) : State P :=
  (s.upd i fun b => if b.valid then b
    else { b with data := s.disk b.dev b.blockno, valid := true }).setHold p i (.ready false)

/-- The contents of a buffer are changed. -/
def State.put (i : Fin NBUF) (v : Block) : State P :=
  (s.upd i fun b => { b with data := v }).setHold p i (.ready true)

/-- The contents of a buffer are written to the disk. -/
def State.bwrite (i : Fin NBUF) : State P :=
  let disk := update (s.disk (s.buf i).dev) (s.buf i).blockno (s.buf i).data
  State.setHold { s with disk := update s.disk (s.buf i).dev disk } p i (.ready false)

/-- The end of `log_write`: the block is in the header already, or it is added and the buffer is
pinned. -/
def State.record (i : Fin NBUF) : State P :=
  if (s.buf i).blockno ∈ s.lh then s.setHold p i (.ready false)
  else
    let t := s.upd i fun b => { b with refcnt := b.refcnt + 1 }
    State.setHold { t with lh := s.lh ++ [(s.buf i).blockno] } p i (.ready false)

/-- `brelse`, under `bcache.lock`. -/
def State.unref (i : Fin NBUF) : State P :=
  let t := (s.upd i fun b => { b with refcnt := b.refcnt - 1 }).setHold p i .none
  if (s.buf i).refcnt - 1 = 0 then { t with links := (s.links.unlink i).push i } else t

/-- The header block after the header has been stored over its contents. -/
def encodeHead (lh : List ℕ) (old : Block) : Block := fun w =>
  if w = 0 then BitVec.ofNat 32 lh.length
  else (lh[w - 1]?).elim (old w) (BitVec.ofNat 32)

/-- The process has the buffer. -/
def State.has (i : Fin NBUF) : Bool :=
  match s.hold p i with
  | .ready _ => true
  | _ => false

/-- The state after an action. -/
def act : Act → Option (State P)
  | .bget d b => s.bget p d b
  | .acquire i =>
    if s.hold p i = .waiting ∧ (s.buf i).lock = none then
      some ((s.upd i fun b => { b with lock := some p }).setHold p i .locked)
    else none
  | .read i => if s.hold p i = .locked then some ((s.read p i).pop p) else none
  | .write i v => if s.has p i then some (s.put p i v) else none
  | .bwrite i => if s.has p i then some ((s.bwrite p i).pop p) else none
  | .logWrite i =>
    if s.has p i ∧ s.inOp p ∧ (s.buf i).dev = dev ∧ 1 ≤ s.outstanding ∧ s.lh.length < LOGSIZE ∧
        s.lh.length + 1 < L.size then
      some (s.record p i)
    else none
  | .bunpin i =>
    if s.has p i then some ((s.upd i fun b => { b with refcnt := b.refcnt - 1 }).pop p) else none
  | .release i =>
    if s.has p i then some ((s.upd i fun b => { b with lock := none }).setHold p i .leaving)
    else none
  | .unref i => if s.hold p i = .leaving then some ((s.unref p i).pop p) else none
  | .beginOp =>
    if s.inOp p = false ∧ s.committing = false ∧
        s.lh.length + (s.outstanding + 1) * MAXOPBLOCKS ≤ LOGSIZE then
      some { s with outstanding := s.outstanding + 1, inOp := update s.inOp p true }
    else none
  | .endOp =>
    if s.inOp p ∧ s.committing = false then
      let t := { s with
        outstanding := s.outstanding - 1, inOp := update s.inOp p false }
      if s.outstanding - 1 = 0 then
        some { t with committing := true, code := update s.code p (commit L s.lh) }
      else some t
    else none
  | .copy i j =>
    if s.has p i ∧ s.has p j then some ((s.put p j (s.buf i).data).pop p) else none
  | .head i =>
    if s.has p i then some ((s.put p i (encodeHead s.lh (s.buf i).data)).pop p) else none
  | .clear => some (State.pop { s with lh := [] } p)
  | .finish => some (State.pop { s with committing := false } p)

/-- One action of a process. -/
def step (e : P × Act) : Option (State P) :=
  if s.follows L dev e.1 e.2 then act L dev s e.1 e.2 else none

end Actions

/-- The state after `binit`, over any disks. -/
def init {P : Type} (disk : ℕ → ℕ → Block) : State P where
  buf := fun _ => ⟨false, 0, 0, 0, none, fun _ => 0⟩
  links := binit
  disk := disk
  lh := []
  outstanding := 0
  committing := false
  inOp := fun _ => false
  hold := fun _ _ => .none
  code := fun _ => []

end Xv6.Bio
