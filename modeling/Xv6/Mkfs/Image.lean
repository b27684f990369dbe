import Xv6.Fs.Directory
import Xv6.Lib.Wp

/-!
# Building a file system

`mkfs/mkfs.c`: a host program that writes an image with a log, inodes, a bitmap, and a root
directory of the files it is given. The image is a file of sectors on the host, and everything in it
is kept as bytes: `rinode` and `winode` work on slots of 64 bytes, wherever the sector of an inode
number is.

The host's disk is taken to work: seeks and writes succeed, and a read fails if and only if it is
beyond the end of the image. An input file is given by its path and by what the calls of `read`
return for it, up to the first that returns nothing. Assertions that fail end the program like other
failures. Files are all the arguments but the first, so the check of their number is left out, and
so are the messages that are printed on the way.

`mount` is how the kernel sees an image.
-/

namespace Xv6.Fs.Mkfs

/-- Size of the file system in blocks. -/
abbrev FSSIZE : ℕ := 2000

abbrev NINODES : ℕ := 200

abbrev FSMAGIC : ℕ := 0x10203040

/-- The size of `struct dinode`. -/
abbrev DINODE : ℕ := 4 * 2 + 4 + 4 * (NDIRECT + 1)

/-- Inodes per block. -/
abbrev IPB : ℕ := BSIZE / DINODE

/-- Bitmap bits per block. -/
abbrev BPB : ℕ := BSIZE * 8

abbrev nbitmap : ℕ := FSSIZE / (BSIZE * 8) + 1

abbrev ninodeblocks : ℕ := NINODES / IPB + 1

abbrev nlog : ℕ := LOGSIZE

/-- Number of meta blocks: boot block, superblock, log, inodes, bitmap. -/
abbrev nmeta : ℕ := 2 + nlog + ninodeblocks + nbitmap

/-- Number of data blocks. -/
abbrev nblocks : ℕ := FSSIZE - nmeta

abbrev inodestart : ℕ := 2 + nlog

abbrev bmapstart : ℕ := 2 + nlog + ninodeblocks

/-- Block containing inode `i`. -/
def IBLOCK (i : ℕ) : ℕ := i / IPB + inodestart

/-- Why `mkfs` does not finish: `die`, with what it prints, or an assertion that fails. -/
inductive Failure
  | read
  | cannotOpen (path : List Byte)
  /-- `rootino == ROOTINO` -/
  | notRoot
  /-- `index(shortname, '/') == 0` -/
  | slash
  /-- `fbn < MAXFILE` -/
  | maxfile
  /-- `used < BSIZE*8` -/
  | bitmapFull
  deriving DecidableEq, Repr

/-- The image and the counters. -/
structure Work where
  /-- The sectors of the image. -/
  img : ℕ → Block
  /-- The length of the image, in sectors. -/
  len : ℕ
  freeinode : ℕ
  freeblock : ℕ

/-- Programs that write an image. -/
abbrev MkM := StateT Work (Except Failure)

/-! ### Sectors -/

/-- The sector at the offset of sector `sec`, which is a `uint`. -/
def sector (sec : ℕ) : ℕ := sec * BSIZE % 2 ^ 32 / BSIZE

/-- Read a sector. -/
def rsect (sec : ℕ) : MkM Block := fun w =>
  if sector sec < w.len then .ok (w.img (sector sec), w) else .error .read

/-- Write a sector. -/
def wsect (sec : ℕ) (buf : Block) : MkM Unit := fun w =>
  .ok ((), { w with
    img := Function.update w.img (sector sec) buf
    len := max w.len (sector sec + 1) })

/-! ### Inodes -/

/-- The number that stands for a type. -/
def typeCode : FileType → ℕ
  | .free => 0
  | .dir => 1
  | .file => 2
  | .device => 3

/-- The type that a number stands for. Numbers that are no type do not occur. -/
def typeOf : ℕ → FileType
  | 0 => .free
  | 1 => .dir
  | 2 => .file
  | _ => .device

/-- The bytes of an inode. -/
def dinodeBytes (ip : Dinode) : ℕ → Byte :=
  let addrs : ℕ → Byte := fun i => BitVec.ofNat 8 (ip.addrs ((i - 12) / 4) / 256 ^ ((i - 12) % 4))
  writeLe 2 (writeLe 2 (writeLe 2 (writeLe 2 (writeLe 4 addrs 8 ip.size) 6 ip.nlink.toNat) 4
    ip.minor.toNat) 2 ip.major.toNat) 0 (typeCode ip.type)

/-- The inode that bytes stand for. -/
def dinodeOf (m : ℕ → Byte) : Dinode where
  type := typeOf (readLe 2 m 0)
  major := BitVec.ofNat 16 (readLe 2 m 2)
  minor := BitVec.ofNat 16 (readLe 2 m 4)
  nlink := BitVec.ofNat 16 (readLe 2 m 6)
  size := readLe 4 m 8
  addrs :=
    let addrs := (List.range (NDIRECT + 1)).map fun i => readLe 4 m (12 + 4 * i)
    fun i => addrs.getD i 0

/-- Slot `k` of a block of inodes. -/
def slot (buf : Block) (k : ℕ) : ℕ → Byte := fun i => buf (DINODE * k + i)

/-- The block with other bytes in slot `k`. -/
def setSlot (buf : Block) (k : ℕ) (bytes : ℕ → Byte) : Block := fun i =>
  if DINODE * k ≤ i ∧ i < DINODE * k + DINODE then bytes (i - DINODE * k) else buf i

/-- Read an inode. -/
def rinode (inum : ℕ) : MkM Dinode := do
  let buf ← rsect (IBLOCK inum)
  return dinodeOf (slot buf (inum % IPB))

/-- Write an inode. -/
def winode (inum : ℕ) (ip : Dinode) : MkM Unit := do
  let buf ← rsect (IBLOCK inum)
  wsect (IBLOCK inum) (setSlot buf (inum % IPB) (dinodeBytes ip))

/-- Take the next inode. -/
def ialloc (type : FileType) : MkM ℕ := do
  let inum := (← get).freeinode
  modify fun w => { w with freeinode := w.freeinode + 1 }
  winode inum { Dinode.zero with type := type, nlink := 1 }
  return inum

/-- The block with the bits below `used`. -/
def bits (used : ℕ) : Block :=
  (List.range used).foldl
    (fun buf i => Function.update buf (i / 8) (buf (i / 8) ||| 1#8 <<< (i % 8))) fun _ => 0

/-- Mark the blocks below `used`. -/
def balloc (used : ℕ) : MkM Unit := do
  if used < BSIZE * 8 then wsect bmapstart (bits used)
  else throw .bitmapFull

/-! ### Contents -/

/-- `freeblock++` -/
def nextBlock : MkM ℕ := do
  let b := (← get).freeblock
  modify fun w => { w with freeblock := w.freeblock + 1 }
  return b

/-- The sector of block `fbn` of a file, allocated if it is not there. -/
def fileBlock (din : Dinode) (fbn : ℕ) : MkM (ℕ × Dinode) := do
  if fbn < NDIRECT then
    if din.addrs fbn = 0 then
      let b ← nextBlock
      return (b, din.setAddr fbn b)
    else return (din.addrs fbn, din)
  else
    let din ← if din.addrs NDIRECT = 0 then do
        let b ← nextBlock
        pure (din.setAddr NDIRECT b)
      else pure din
    let indirect ← rsect (din.addrs NDIRECT)
    if word indirect (fbn - NDIRECT) = 0 then
      let b ← nextBlock
      wsect (din.addrs NDIRECT) (writeLe 4 indirect (4 * (fbn - NDIRECT)) b)
      return (b, din)
    else return (word indirect (fbn - NDIRECT), din)

/-- The loop of `iappend`, over the bytes that are left. -/
def iappendLoop : ℕ → List Byte → ℕ → Dinode → MkM (ℕ × Dinode)
  | 0, _, off, din => return (off, din)
  | fuel + 1, p, off, din =>
    if p = [] then return (off, din)
    else do
      let fbn := off / BSIZE
      if fbn < MAXFILE then
        let (x, din) ← fileBlock din fbn
        let n1 := min p.length ((fbn + 1) * BSIZE - off)
        let buf ← rsect x
        wsect x (copyin buf (off - fbn * BSIZE) (fun i => p[i]?) 0 n1)
        iappendLoop fuel (p.drop n1) (off + n1) din
      else throw .maxfile

/-- Bytes are added at the end of a file. -/
def iappend (inum : ℕ) (p : List Byte) : MkM Unit := do
  let din ← rinode inum
  let (off, din) ← iappendLoop p.length p din.size din
  winode inum { din with size := off }

/-! ### The program -/

/-- An argument: its path, and what is read from the file, or nothing if it cannot be opened. -/
structure Input where
  path : List Byte
  reads : Option (List (List Byte))

/-- `user/` -/
def userDir : List Byte := [117, 115, 101, 114, 47]

/-- The path without `user/`. -/
def Input.short (f : Input) : List Byte :=
  if userDir.isPrefixOf f.path then f.path.drop 5 else f.path

/-- The name of a file in the root directory: without `user/`, and without `_` in front. -/
def Input.name (f : Input) : List Byte :=
  if f.short.head? = some 95 then f.short.tail else f.short

/-- The bytes of a directory entry. -/
def direntBytes (inum : ℕ) (name : List Byte) : List Byte :=
  (List.range DIRENT).map (Dirent.encode ⟨inum % 2 ^ 16, strncpy DIRSIZ name⟩)

/-- One round of the loop over the arguments. -/
def addFile (f : Input) : MkM Unit := do
  if 47 ∈ f.short then throw .slash
  else
    match f.reads with
    | none => throw (.cannotOpen f.path)
    | some reads =>
      let inum ← ialloc .file
      iappend ROOTINO (direntBytes inum f.name)
      reads.forM (iappend inum)

/-- The superblock, as it is written. -/
def superblockBytes : Block :=
  writeLe 4 (writeLe 4 (writeLe 4 (writeLe 4 (writeLe 4 (writeLe 4 (writeLe 4 (writeLe 4
    (fun _ => 0) 28 bmapstart) 24 inodestart) 20 2) 16 nlog) 12 NINODES) 8 nblocks) 4 FSSIZE)
    0 FSMAGIC

/-- `main`, without the check of its arguments. -/
def main (files : List Input) : MkM Unit := do
  (List.range FSSIZE).forM fun i => wsect i fun _ => 0
  wsect 1 superblockBytes
  let rootino ← ialloc .dir
  if rootino ≠ ROOTINO then throw .notRoot
  else
    iappend rootino (direntBytes rootino [46])
    iappend rootino (direntBytes rootino [46, 46])
    files.forM addFile
    let din ← rinode rootino
    winode rootino { din with size := (din.size / BSIZE + 1) * BSIZE }
    balloc (← get).freeblock

/-- What there is after `mkfs` has finished. -/
def mkfs (files : List Input) : Except Failure Work :=
  (main files ⟨fun _ _ => 0, 0, 1, nmeta⟩).map Prod.snd

/-! ### The kernel's view -/

/-- What the superblock says. -/
def superblock : Superblock where
  size := FSSIZE
  nblocks := nblocks
  ninodes := NINODES
  nblocks_lt := by decide
  size_le := by decide
  ninodes_le := by decide
  root_lt := by decide

/-- The bit of block `b` in the bitmap. -/
def bitOf (img : ℕ → Block) (b : ℕ) : Bool :=
  (img (b / BPB + bmapstart) (b % BPB / 8)).getLsbD (b % 8)

/-- The inode `x` on the disk. -/
def inodeOf (img : ℕ → Block) (x : ℕ) : Dinode := dinodeOf (slot (img (IBLOCK x)) (x % IPB))

/-- The areas of the disk: the kernel looks at the bits of the blocks there are, at the inodes below
`ninodes`, and for files at the data blocks. -/
def mount (img : ℕ → Block) : Disk where
  bitmap := fun b => decide (b < FSSIZE) && bitOf img b
  dinode := fun x => if x < NINODES then inodeOf img x else .zero
  data := fun b => if nmeta ≤ b then img b else fun _ => 0

end Xv6.Fs.Mkfs
