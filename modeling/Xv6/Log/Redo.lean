import Xv6.Log.Bio

/-!
# The redo log

`kernel/log.c`: `log_write` collects the numbers of the blocks a transaction changes, and `commit`
copies them to the log area, writes the header, installs them at home and clears the header.
`recover_from_log` is what a booting machine does with what it finds.

Every operation works on a `LogState` and adds the block writes it makes to `issued`, so a crash
is a prefix of that list (see `Xv6.Log.Crash`). The operations are those of one process at a time:
`end_op` calls `commit` only when no operation is outstanding, and `committing` keeps `begin_op`
from starting one meanwhile.
-/

namespace Xv6

/-- The place of the log on the disk, from the superblock: a header block followed by
`size - 1` log blocks. The log's `start` and `size` fields are `int`, so the area ends below
`2 ^ 31`. -/
structure LogArea where
  start : ℕ
  size : ℕ
  pos : 0 < size
  fits : start + size ≤ 2 ^ 31

/-- The log that `mkfs` makes: `nlog` is `LOGSIZE`, and `logstart` is `2`. -/
def mkfsLog : LogArea where
  start := 2
  size := LOGSIZE
  pos := by decide
  fits := by decide

namespace LogArea

/-- A block outside the log area. -/
def IsHome (L : LogArea) (b : ℕ) : Prop := b < 2 ^ 32 ∧ (b < L.start ∨ L.start + L.size ≤ b)

instance (L : LogArea) (b : ℕ) : Decidable (L.IsHome b) := by unfold IsHome; infer_instance

end LogArea

/-- `struct logheader`, in memory. -/
structure LogHeader where
  n : ℤ
  block : ℕ → BitVec 32

/-- What `log.c` and the layers under it keep. -/
structure LogState where
  bc : Bcache
  lh : LogHeader
  outstanding : ℤ

/-- Why the log stopped the machine. -/
inductive LogPanic
  | tooBig
  | outsideTrans
  deriving DecidableEq, Repr

/-- The header block after `write_head` has stored `lh` over the contents `old`: word `0` is `n`
and the words after it are `block[0..n)`. -/
def LogHeader.encode (lh : LogHeader) (old : Block) : Block := fun w =>
  if w = 0 then BitVec.ofInt 32 lh.n
  else if w - 1 < lh.n.toNat then lh.block (w - 1)
  else old w

namespace LogState

variable (L : LogArea) (e : Recycle)

/-- A machine that has just been switched on. -/
def boot (d : Disk) : LogState := ⟨Bcache.boot d, ⟨0, fun _ => 0⟩, 0⟩

/-- One iteration of `install_trans`: copy log block `tail` to its home. -/
def installBlock (recovering : Bool) (tail : ℕ) (s : LogState) : LogState :=
  let lb := L.start + tail + 1
  let db := (s.lh.block tail).toNat
  let bc := (s.bc.bread e lb).bread e db
  let bc := (bc.setData db (bc.data lb)).bwrite db
  let bc := if recovering then bc else bc.bunpin db
  { s with bc := (bc.brelse lb).brelse db }

/-- `install_trans`. -/
def installTrans (recovering : Bool) (s : LogState) : LogState :=
  (List.range s.lh.n.toNat).foldl (fun s tail => s.installBlock L e recovering tail) s

/-- `read_head`: load the on-disk header. -/
def readHead (s : LogState) : LogState :=
  let bc := s.bc.bread e L.start
  let hb := bc.data L.start
  let n := (hb 0).toInt
  { s with
    bc := bc.brelse L.start
    lh := ⟨n, fun i => if i < n.toNat then hb (i + 1) else s.lh.block i⟩ }

/-- `write_head`: store the in-memory header. -/
def writeHead (s : LogState) : LogState :=
  let bc := s.bc.bread e L.start
  let bc := (bc.setData L.start (s.lh.encode (bc.data L.start))).bwrite L.start
  { s with bc := bc.brelse L.start }

/-- `log.lh.n = 0`. -/
def clearHead (s : LogState) : LogState := { s with lh := { s.lh with n := 0 } }

/-- `recover_from_log`. -/
def recoverFromLog (s : LogState) : LogState :=
  (((s.readHead L e).installTrans L e true).clearHead).writeHead L e

/-- One iteration of `write_log`: copy a changed block from the cache to log block `tail`. -/
def logBlock (tail : ℕ) (s : LogState) : LogState :=
  let tb := L.start + tail + 1
  let fb := (s.lh.block tail).toNat
  let bc := (s.bc.bread e tb).bread e fb
  let bc := (bc.setData tb (bc.data fb)).bwrite tb
  { s with bc := (bc.brelse fb).brelse tb }

/-- `write_log`. -/
def writeLog (s : LogState) : LogState :=
  (List.range s.lh.n.toNat).foldl (fun s tail => s.logBlock L e tail) s

/-- `commit`. -/
def commit (s : LogState) : LogState :=
  if 0 < s.lh.n then
    (((((s.writeLog L e).writeHead L e).installTrans L e false).clearHead).writeHead L e)
  else s

/-- The index `log_write` stops at: the first slot that holds block `b`, or `n`. -/
def absorbIndex (lh : LogHeader) (b : ℕ) : ℕ :=
  ((List.range lh.n.toNat).find? fun i => lh.block i == BitVec.ofNat 32 b).getD lh.n.toNat

/-- `log_write` of the held buffer of block `b`. -/
def logWrite (b : ℕ) (s : LogState) : Except LogPanic LogState :=
  if s.lh.n ≥ LOGSIZE ∨ s.lh.n ≥ (L.size : ℤ) - 1 then .error .tooBig
  else if s.outstanding < 1 then .error .outsideTrans
  else
    let i := absorbIndex s.lh b
    let block := Function.update s.lh.block i (BitVec.ofNat 32 b)
    if i = s.lh.n.toNat then
      .ok { s with bc := s.bc.bpin b, lh := ⟨s.lh.n + 1, block⟩ }
    else .ok { s with lh := { s.lh with block := block } }

/-- How a file-system operation changes a block: `bread`, modify, `log_write`, `brelse`. -/
def update (w : ℕ × Block) (s : LogState) : Except LogPanic LogState := do
  let s := { s with bc := (s.bc.bread e w.1).setData w.1 w.2 }
  let s ← s.logWrite L w.1
  return { s with bc := s.bc.brelse w.1 }

/-- The `log_write`s of one transaction, in order. -/
def updates : List (ℕ × Block) → LogState → Except LogPanic LogState
  | [], s => .ok s
  | w :: ws, s => s.update L e w >>= updates ws

/-- A transaction: operations begin, change the blocks `ws`, and the last `end_op` commits. -/
def logTx (ws : List (ℕ × Block)) (s : LogState) : Except LogPanic LogState := do
  let s ← updates L e ws { s with outstanding := s.outstanding + 1 }
  return commit L e { s with outstanding := s.outstanding - 1 }

/-- A sequence of transactions. A panic stops the machine; until then the transaction it hit has
written nothing. -/
def runTxs : List (List (ℕ × Block)) → LogState → LogState
  | [], s => s
  | tx :: txs, s =>
    match s.logTx L e tx with
    | .ok s' => runTxs txs s'
    | .error _ => s

end LogState

end Xv6
