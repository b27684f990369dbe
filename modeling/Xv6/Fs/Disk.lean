import Xv6.Param
import Xv6.Lib.Bytes

/-!
# The disk and the contents of inodes

The lower half of `kernel/fs.c`: the block allocator, and the functions that read, write and
discard what an inode holds. The disk is given by its areas: the free bitmap, the inodes, and the
data blocks. A block is the bytes `bread` gives for it, so a copy that fails in the middle of a
block leaves what it has copied there, though `log_write` is not reached.

The functions on one inode work on a `View`: the disk together with the inode's copy in memory. They
run with the inode locked, and touch nothing else. A kernel panic is an error.
-/

namespace Xv6.Fs

/-- Block numbers held by an inode itself. -/
abbrev NDIRECT : ℕ := 12

/-- Block numbers in an indirect block. -/
abbrev NINDIRECT : ℕ := BSIZE / 4

/-- Largest file, in blocks. -/
abbrev MAXFILE : ℕ := NDIRECT + NINDIRECT

/-- The inode of the root directory. -/
abbrev ROOTINO : ℕ := 1

/-- A byte of a block. -/
abbrev Byte := BitVec 8

/-- The bytes of a block, from `0` to `BSIZE - 1`. -/
abbrev Block := ℕ → Byte

/-- The field `type` of an inode. An inode of type `free` is not allocated. -/
inductive FileType
  | free
  | dir
  | file
  | device
  deriving DecidableEq, Repr

/-- An inode, as it is on the disk and as it is copied to memory. -/
structure Dinode where
  type : FileType
  major : BitVec 16
  minor : BitVec 16
  /-- Number of links, a `short`. -/
  nlink : BitVec 16
  size : ℕ
  /-- Block numbers `0` to `NDIRECT - 1`, and at `NDIRECT` the indirect block. -/
  addrs : ℕ → ℕ

/-- The inode `memset` to zero. -/
def Dinode.zero : Dinode := ⟨.free, 0, 0, 0, 0, fun _ => 0⟩

/-- The inode with another block number at place `i`. -/
def Dinode.setAddr (ip : Dinode) (i b : ℕ) : Dinode :=
  { ip with addrs := Function.update ip.addrs i b }

/-- The inode without contents. -/
def Dinode.emptied (ip : Dinode) : Dinode :=
  { ip with size := 0, addrs := fun i => if i ≤ NDIRECT then 0 else ip.addrs i }

/-- The bitmap, the inodes and the blocks of a file system. -/
structure Disk where
  /-- Whether a block is marked as in use. -/
  bitmap : ℕ → Bool
  dinode : ℕ → Dinode
  data : ℕ → Block

/-- The disk with another inode at number `x`. -/
def Disk.put (d : Disk) (x : ℕ) (ip : Dinode) : Disk :=
  { d with dinode := Function.update d.dinode x ip }

/-- The disk with other bytes in block `b`. -/
def Disk.setData (d : Disk) (b : ℕ) (blk : Block) : Disk :=
  { d with data := Function.update d.data b blk }

/-- The layout of the disk. Block numbers are `uint` and the inode number of a directory entry is
`ushort`. -/
structure Superblock where
  size : ℕ
  nblocks : ℕ
  ninodes : ℕ
  nblocks_lt : nblocks < size
  size_le : size ≤ 256 ^ 4
  ninodes_le : ninodes ≤ 256 ^ 2
  root_lt : ROOTINO < ninodes

/-- The first data block. What comes before is the log, the inodes and the bitmap itself. -/
def Superblock.firstData (sb : Superblock) : ℕ := sb.size - sb.nblocks

/-- The panics of the file system. -/
inductive Panic
  | freeingFreeBlock
  | bmapOutOfRange
  | igetNoInodes
  | ilock
  | ilockNoType
  | iunlock
  | dirlookupNotDir
  | dirlookupRead
  | dirlinkRead
  | isdiremptyReadi
  | unlinkNlink
  | unlinkWritei
  | filedup
  | fileclose
  | fileread
  | filewrite
  | initExiting
  deriving DecidableEq, Repr

/-- Why a call does not return: the kernel panics, or the caller sleeps for a lock that it holds
itself. -/
inductive Stop
  | panic (why : Panic)
  | deadlock
  deriving DecidableEq, Repr

/-- The disk, and the copy in memory of the inode that is being worked on. -/
structure View where
  disk : Disk
  inum : ℕ
  ip : Dinode

/-- Bytes are written to block `b`. -/
def View.store (v : View) (b : ℕ) (blk : Block) : View := { v with disk := v.disk.setData b blk }

/-- The inode in memory is given another size. -/
def View.setSize (v : View) (n : ℕ) : View := { v with ip := { v.ip with size := n } }

variable (sb : Superblock)

/-! ### Blocks -/

/-- Block `b` is marked as in use and zeroed. -/
def Disk.claim (d : Disk) (b : ℕ) : Disk :=
  { d with bitmap := Function.update d.bitmap b true }.setData b fun _ => 0

/-- The first block that is not in use is marked and zeroed. The result `0` means that there is
none. The two loops of the source visit the blocks below `sb.size` in order. -/
def balloc (d : Disk) : ℕ × Disk :=
  match (List.range sb.size).find? fun b => !d.bitmap b with
  | some b => (b, d.claim b)
  | none => (0, d)

/-- A block is given back. -/
def bfree (d : Disk) (b : ℕ) : Except Stop Disk :=
  if d.bitmap b then .ok { d with bitmap := Function.update d.bitmap b false }
  else .error (.panic .freeingFreeBlock)

/-- The block numbers of a list are given back, those that are `0` apart. -/
def bfreeAll : List ℕ → Disk → Except Stop Disk
  | [], d => .ok d
  | b :: bs, d => do
    let d ← if b = 0 then .ok d else bfree d b
    bfreeAll bs d

/-! ### The contents of an inode -/

/-- Block number `j` of an indirect block. -/
def word (a : Block) (j : ℕ) : ℕ := readLe 4 a (4 * j)

/-- The block at place `bn` of the indirect block `ind`, allocated if it is not there. -/
def bmapIndirect (v : View) (ind bn : ℕ) : ℕ × View :=
  let a := v.disk.data ind
  if word a bn = 0 then
    let (addr, d) := balloc sb v.disk
    if addr = 0 then (0, v)
    else
      -- the buffer of the indirect block has been read before the allocation
      (addr, { v with disk := d.setData ind (writeLe 4 a (4 * bn) addr) })
  else (word a bn, v)

/-- The disk block of block `bn` of the inode, allocated if it is not there. The result `0` means
that the disk is full. -/
def bmap (v : View) (bn : ℕ) : Except Stop (ℕ × View) :=
  if bn < NDIRECT then
    if v.ip.addrs bn = 0 then
      let (addr, d) := balloc sb v.disk
      if addr = 0 then .ok (0, v)
      else .ok (addr, { v with disk := d, ip := v.ip.setAddr bn addr })
    else .ok (v.ip.addrs bn, v)
  else if bn - NDIRECT < NINDIRECT then
    if v.ip.addrs NDIRECT = 0 then
      let (addr, d) := balloc sb v.disk
      if addr = 0 then .ok (0, v)
      else
        let v := { v with disk := d, ip := v.ip.setAddr NDIRECT addr }
        .ok (bmapIndirect sb v addr (bn - NDIRECT))
    else .ok (bmapIndirect sb v (v.ip.addrs NDIRECT) (bn - NDIRECT))
  else .error (.panic .bmapOutOfRange)

/-- The copy in memory is written to the disk. -/
def iupdate (v : View) : View :=
  { v with disk := v.disk.put v.inum v.ip }

/-- The contents of the inode are discarded. -/
def itrunc (v : View) : Except Stop View := do
  let d ← bfreeAll ((List.range NDIRECT).map v.ip.addrs) v.disk
  let ind := v.ip.addrs NDIRECT
  let d ← if ind = 0 then .ok d else do
    let d ← bfreeAll ((List.range NINDIRECT).map (word (d.data ind))) d
    bfree d ind
  return iupdate { v with disk := d, ip := v.ip.emptied }

/-- The loop of `readi`. The destination is given by whether a byte can be stored at each of its
places. The bytes are those that have been delivered. -/
def readiLoop (dst : ℕ → Bool) (n : ℕ) :
    ℕ → ℕ → ℕ → List Byte → View → Except Stop ((ℤ × List Byte) × View)
  | 0, tot, _, out, v => .ok ((tot, out), v)
  | fuel + 1, tot, off, out, v =>
    if tot < n then do
      let (addr, v) ← bmap sb v (off / BSIZE)
      if addr = 0 then .ok ((tot, out), v)
      else
        let m := min (n - tot) (BSIZE - off % BSIZE)
        if (List.range m).all fun i => dst (tot + i) then
          let bytes := (List.range m).map fun i => v.disk.data addr (off % BSIZE + i)
          readiLoop dst n fuel (tot + m) (off + m) (out ++ bytes) v
        else .ok ((-1, out), v)
    else .ok ((tot, out), v)

/-- At most `n` bytes are read from offset `off`. Both are `uint`, and so is their sum. -/
def readi (v : View) (dst : ℕ → Bool) (off n : ℕ) : Except Stop ((ℤ × List Byte) × View) :=
  if v.ip.size < off ∨ (off + n) % 2 ^ 32 < off then .ok ((0, []), v)
  else
    let n := if v.ip.size < off + n then v.ip.size - off else n
    readiLoop sb dst n n 0 off [] v

/-- How many of the `m` bytes from place `p` on are there before the first that is not mapped. -/
def mapped (src : ℕ → Option Byte) (p m : ℕ) : ℕ :=
  ((List.range m).takeWhile fun i => (src (p + i)).isSome).length

/-- A copy to place `o` of a block stops at the first byte that is not mapped. -/
def copyin (blk : Block) (o : ℕ) (src : ℕ → Option Byte) (p m : ℕ) : Block := fun i =>
  if o ≤ i ∧ i < o + mapped src p m then (src (p + (i - o))).getD 0 else blk i

/-- The loop of `writei`, which returns `tot` and `off`. -/
def writeiLoop (src : ℕ → Option Byte) (n : ℕ) :
    ℕ → ℕ → ℕ → View → Except Stop ((ℕ × ℕ) × View)
  | 0, tot, off, v => .ok ((tot, off), v)
  | fuel + 1, tot, off, v =>
    if tot < n then do
      let (addr, v) ← bmap sb v (off / BSIZE)
      if addr = 0 then .ok ((tot, off), v)
      else
        let m := min (n - tot) (BSIZE - off % BSIZE)
        let v := v.store addr (copyin (v.disk.data addr) (off % BSIZE) src tot m)
        if mapped src tot m = m then writeiLoop src n fuel (tot + m) (off + m) v
        else .ok ((tot, off), v)
    else .ok ((tot, off), v)

/-- At most `n` bytes are written at offset `off`. -/
def writei (v : View) (src : ℕ → Option Byte) (off n : ℕ) : Except Stop (ℤ × View) :=
  if v.ip.size < off ∨ (off + n) % 2 ^ 32 < off then .ok (-1, v)
  else if MAXFILE * BSIZE < off + n then .ok (-1, v)
  else do
    let ((tot, off), v) ← writeiLoop sb src n n 0 off v
    -- the inode is written back even if the size is the same: `bmap` may have added a block
    return (tot, iupdate (v.setSize (max v.ip.size off)))

end Xv6.Fs
