import Xv6.Fs.Disk

/-!
# The inode table, directories and paths

The upper half of `kernel/fs.c`. The state is the disk, the table of inodes in memory, the table of
open files, and what each process holds. System calls run one at a time, so of the locks only the
sleep-lock of an inode is kept: whether it is held tells whether a call would wait for itself. There
is one device.
-/

namespace Xv6.Fs

/-- Maximum number of inodes in memory. -/
abbrev NINODE : ℕ := 50

/-- Open files per system. -/
abbrev NFILE : ℕ := 100

/-- Open files per process. -/
abbrev NOFILE : ℕ := 16

/-- Length of a name in a directory. -/
abbrev DIRSIZ : ℕ := 14

/-- The size of a directory entry. -/
abbrev DIRENT : ℕ := 2 + DIRSIZ

/-- The largest number of bytes that `filewrite` writes in one transaction. -/
abbrev maxChunk : ℕ := (MAXOPBLOCKS - 1 - 1 - 2) / 2 * BSIZE

/-- An inode in memory. -/
structure Inode where
  inum : ℕ
  ref : ℤ
  locked : Bool
  valid : Bool
  /-- The copy of the inode on the disk. -/
  din : Dinode

/-- The field `type` of an open file. -/
inductive FdType
  | none
  | pipe
  | inode
  | device
  deriving DecidableEq, Repr

/-- An open file. -/
structure File where
  type : FdType
  ref : ℤ
  readable : Bool
  writable : Bool
  ip : Fin NINODE
  off : ℕ
  major : BitVec 16

/-- What a process holds. A process that has no `cwd` has exited, or is not there. -/
structure Proc where
  cwd : Option (Fin NINODE)
  ofile : Fin NOFILE → Option (Fin NFILE)

/-- The disk, the tables of inodes and of open files, and what processes have open. -/
structure State where
  disk : Disk
  itable : Fin NINODE → Inode
  ftable : Fin NFILE → File
  proc : Fin NPROC → Proc

/-- A kernel function: it returns or stops, and may change the state. -/
abbrev FsM := StateT State (Except Stop)

/-- Change the inode in slot `i` of the table. -/
def State.updInode (s : State) (i : Fin NINODE) (f : Inode → Inode) : State :=
  { s with itable := Function.update s.itable i (f (s.itable i)) }

/-- The disk and the inode in slot `i` of the table. -/
def State.view (s : State) (i : Fin NINODE) : View := ⟨s.disk, (s.itable i).inum, (s.itable i).din⟩

/-- The state after work on the inode in slot `i`. -/
def State.setView (s : State) (i : Fin NINODE) (v : View) : State :=
  { s with disk := v.disk }.updInode i fun ip => { ip with din := v.ip }

/-- A function on one inode runs on slot `i` of the table. -/
def withInode {α : Type} (i : Fin NINODE) (f : View → Except Stop (α × View)) : FsM α := fun s =>
  match f (s.view i) with
  | .ok (a, v) => .ok (a, s.setView i v)
  | .error e => .error e

/-- The copy in memory of an inode. -/
def dinode (i : Fin NINODE) : FsM Dinode := fun s => .ok ((s.itable i).din, s)

variable (sb : Superblock)

/-! ### The inode table -/

/-- A slot for inode `inum`: the one it has, or else the first that is empty. -/
def iget (inum : ℕ) : FsM (Fin NINODE) := fun s =>
  match (List.finRange NINODE).find? fun i => 0 < (s.itable i).ref ∧ (s.itable i).inum = inum with
  | some i => .ok (i, s.updInode i fun ip => { ip with ref := ip.ref + 1 })
  | none =>
    match (List.finRange NINODE).find? fun i => (s.itable i).ref = 0 with
    | some i => .ok (i, s.updInode i fun ip => { ip with inum := inum, ref := 1, valid := false })
    | none => .error (.panic .igetNoInodes)

/-- One more reference. -/
def idup (i : Fin NINODE) : FsM Unit := fun s =>
  .ok ((), s.updInode i fun ip => { ip with ref := ip.ref + 1 })

/-- The inode is locked, and read from the disk if that has not been done. -/
def ilock (i : Fin NINODE) : FsM Unit := fun s =>
  if (s.itable i).ref < 1 then .error (.panic .ilock)
  else if (s.itable i).locked then .error .deadlock
  else if (s.itable i).valid then .ok ((), s.updInode i fun ip => { ip with locked := true })
  else
    let din := s.disk.dinode (s.itable i).inum
    if din.type = .free then .error (.panic .ilockNoType)
    else .ok ((), s.updInode i fun ip => { ip with locked := true, valid := true, din := din })

/-- The inode is unlocked by the process that has it locked. -/
def iunlock (i : Fin NINODE) : FsM Unit := fun s =>
  if (s.itable i).locked = false ∨ (s.itable i).ref < 1 then .error (.panic .iunlock)
  else .ok ((), s.updInode i fun ip => { ip with locked := false })

/-- A reference is dropped. If it is the last one and the inode has no links, the inode is freed. -/
def iput (i : Fin NINODE) : FsM Unit := fun s =>
  if (s.itable i).ref = 1 ∧ (s.itable i).valid ∧ (s.itable i).din.nlink = 0 then
    if (s.itable i).locked then .error .deadlock
    else
      match itrunc (s.view i) with
      | .ok v =>
        let v := iupdate { v with ip := { v.ip with type := .free } }
        .ok ((), (s.setView i v).updInode i fun ip => { ip with valid := false, ref := ip.ref - 1 })
      | .error e => .error e
  else .ok ((), s.updInode i fun ip => { ip with ref := ip.ref - 1 })

/-- Unlock, then drop the reference. -/
def iunlockput (i : Fin NINODE) : FsM Unit := do
  iunlock i
  iput i

/-! ### Names -/

/-- The first character of a string, which is `0` at its end. -/
def hd (s : List Byte) : Byte := s.headD 0

/-- Compare at most `n` bytes, up to a zero. -/
def strncmp : ℕ → List Byte → List Byte → ℤ
  | 0, _, _ => 0
  | n + 1, p, q =>
    if hd p ≠ 0 ∧ hd p = hd q then strncmp n p.tail q.tail else (hd p).toNat - (hd q).toNat

/-- The `n` characters stored for a string: it is cut, or filled up with `0`. -/
def strncpy : ℕ → List Byte → List Byte
  | 0, _ => []
  | n + 1, t => if hd t = 0 then List.replicate (n + 1) 0 else hd t :: strncpy n t.tail

/-- Compare names of files. -/
def namecmp (s t : List Byte) : ℤ := strncmp DIRSIZ s t

/-! ### Directories -/

/-- An entry of a directory. -/
structure Dirent where
  inum : ℕ
  name : List Byte
  deriving DecidableEq, Repr

/-- An entry as it is read from a directory. -/
def Dirent.decode (bytes : List Byte) : Dirent :=
  ⟨readLe 2 (fun i => bytes.getD i 0) 0, bytes.drop 2⟩

/-- The bytes of an entry. -/
def Dirent.encode (de : Dirent) : ℕ → Byte :=
  writeLe 2 (fun i => de.name.getD (i - 2) 0) 0 de.inum

/-- The loops over the entries of a directory from offset `off` on: they stop at the first entry
that passes the test, and panic if an entry cannot be read. -/
def dirscan (why : Panic) (test : Dirent → Bool) :
    ℕ → ℕ → View → Except Stop ((ℕ × Option Dirent) × View)
  | 0, off, v => .ok ((off, none), v)
  | fuel + 1, off, v =>
    if off < v.ip.size then do
      let ((r, bytes), v) ← readi sb v (fun _ => true) off DIRENT
      if r ≠ DIRENT then .error (.panic why)
      else if test (.decode bytes) then .ok ((off, some (.decode bytes)), v)
      else dirscan why test fuel (off + DIRENT) v
    else .ok ((off, none), v)

/-- The inode that a directory has under a name, and the offset of the entry. -/
def dirlookup (dp : Fin NINODE) (name : List Byte) : FsM (Option (Fin NINODE × ℕ)) := do
  if (← dinode dp).type ≠ .dir then throw (.panic .dirlookupNotDir)
  else
    let (off, de) ← withInode dp fun v =>
      dirscan sb .dirlookupRead (fun de => de.inum ≠ 0 ∧ namecmp name de.name = 0) v.ip.size 0 v
    match de with
    | none => return none
    | some de => return some (← iget de.inum, off)

/-- An entry is written at offset `off` of a directory. -/
def writeDirent (dp : Fin NINODE) (de : Dirent) (off : ℕ) : FsM Bool := do
  let r ← withInode dp fun v => writei sb v (fun i => some (de.encode i)) off DIRENT
  return r = DIRENT

/-- A new entry is written to a directory, where the first is free or at the end. The result says
whether that has been done. -/
def dirlink (dp : Fin NINODE) (name : List Byte) (inum : ℕ) : FsM Bool := do
  match ← dirlookup sb dp name with
  | some (ip, _) =>
    iput ip
    return false
  | none =>
    let (off, _) ← withInode dp fun v =>
      dirscan sb .dirlinkRead (fun de => de.inum = 0) v.ip.size 0 v
    writeDirent sb dp ⟨inum, strncpy DIRSIZ name⟩ off

/-! ### Paths -/

/-- The next element of a path, cut to `DIRSIZ`, and what follows it. -/
def skipelem (path : List Byte) : Option (List Byte × List Byte) :=
  match path.dropWhile (· = 47) with
  | [] => none
  | c :: cs =>
    some (((c :: cs).takeWhile (· ≠ 47)).take DIRSIZ,
      ((c :: cs).dropWhile (· ≠ 47)).dropWhile (· = 47))

/-- The elements of a path. -/
def elems : ℕ → List Byte → List (List Byte)
  | 0, _ => []
  | fuel + 1, path =>
    match skipelem path with
    | none => []
    | some (name, rest) => name :: elems fuel rest

/-- The loop of `namex`. With `parent` it stops one level early, and returns the last element too.
-/
def namexLoop (parent : Bool) :
    Fin NINODE → List (List Byte) → FsM (Option (Fin NINODE × List Byte))
  | ip, [] =>
    if parent then do
      iput ip
      return none
    else return some (ip, [])
  | ip, name :: rest => do
    ilock ip
    if (← dinode ip).type ≠ .dir then
      iunlockput ip
      return none
    else if parent ∧ rest = [] then
      iunlock ip
      return some (ip, name)
    else
      match ← dirlookup sb ip name with
      | none =>
        iunlockput ip
        return none
      | some (next, _) =>
        iunlockput ip
        namexLoop parent next rest

/-- The inode of a path, which starts at the root or at the current directory `cwd`. -/
def namex (cwd : Fin NINODE) (path : List Byte) (parent : Bool) :
    FsM (Option (Fin NINODE × List Byte)) :=
  if path.head? = some 47 then do
    let ip ← iget ROOTINO
    namexLoop sb parent ip (elems path.length path)
  else do
    idup cwd
    namexLoop sb parent cwd (elems path.length path)

/-- The inode that a path names. -/
def namei (cwd : Fin NINODE) (path : List Byte) : FsM (Option (Fin NINODE)) := do
  return (← namex sb cwd path false).map Prod.fst

/-- The directory of the last element of a path, and this element. -/
def nameiparent (cwd : Fin NINODE) (path : List Byte) : FsM (Option (Fin NINODE × List Byte)) :=
  namex sb cwd path true

end Xv6.Fs
