import Xv6.Vm.Process

/-!
# Executable files

What `exec` finds in a file, whatever its bytes are: the header of `kernel/elf.h`, and the program
headers that it says are there. Offsets are cut down to 32 bits on the way to `readi`.
-/

namespace Xv6.Vm

/-- The contents of a file. -/
structure File where
  size : ℕ
  byte : ℕ → BitVec 8

namespace File

/-- `readi` of `n` bytes at `off`, or `none` if it returns less. -/
def read (f : File) (off n : ℕ) : Option (ℕ → BitVec 8) :=
  if f.size < off ∨ 2 ^ 32 ≤ off + n ∨ f.size < off + n then none
  else some fun k => f.byte (off + k)

/-- What `loadseg` reads to the page at offset `i` of a segment, which begins at `offset` in the
file and has `sz` bytes there. -/
def segmentData (f : File) (offset sz i : ℕ) : Option (Page → Page) :=
  let n := min (sz - i) PGSIZE
  (f.read ((offset + i) % 2 ^ 32) n).map fun b pg =>
    ofBytes fun k => if k < n then b k else pageByte pg k

/-- The size of `struct elfhdr`. -/
abbrev elfhdrSize : ℕ := 64

/-- The size of `struct proghdr`. -/
abbrev proghdrSize : ℕ := 56

/-- The program header at `off`. -/
def segment (f : File) (off : ℕ) : Option Segment :=
  (f.read off proghdrSize).map fun b =>
    { type := BitVec.ofNat 32 (readLe 4 b 0)
      flags := BitVec.ofNat 32 (readLe 4 b 4)
      vaddr := BitVec.ofNat 64 (readLe 8 b 16)
      filesz := BitVec.ofNat 64 (readLe 8 b 32)
      memsz := BitVec.ofNat 64 (readLe 8 b 40)
      data := f.segmentData (readLe 8 b 8 % 2 ^ 32) (readLe 8 b 32 % 2 ^ 32) }

/-- The header of the file, if it can be read and has the right `magic`. -/
def elfhdr (f : File) : Option (ℕ → BitVec 8) :=
  (f.read 0 elfhdrSize).filter fun b => readLe 4 b 0 = 0x464C457F

/-- The program headers, for a file that exists. The offset `off` is an `int`. -/
def headers (f : File) : Option (List (Option Segment)) :=
  f.elfhdr.map fun b =>
    (List.range (readLe 2 b 56)).map fun k => f.segment ((readLe 8 b 32 + k * proghdrSize) % 2 ^ 32)

/-- `elf.entry`. -/
def entry (f : File) : Word := BitVec.ofNat 64 (f.elfhdr.elim 0 fun b => readLe 8 b 24)

end File

/-- The call of `exec` for a path, with the file that `namei` finds there. -/
def Program.ofFile (path : List Char) (file : Option File) (argv : List (List (BitVec 8))) :
    Program where
  path := path
  headers := file.bind File.headers
  entry := file.elim 0 File.entry
  argv := argv

end Xv6.Vm
