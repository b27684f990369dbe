import Xv6.Mem.Kalloc
import Xv6.Param

/-!
# Page tables

`kernel/vm.c` for user address spaces, over physical memory with its page allocator. A page-table
entry is a word of memory and a page-table page is a page like any other, so what the functions do
to each other's pages shows. Physical addresses are page numbers, since the source only passes
around addresses of pages; virtual addresses and sizes are numbers below `2 ^ 64`.

Loops over addresses are recursions on the number of rounds. The number is the one that the
condition of the source gives for addresses that do not wrap around, and `walk` panics at `MAXVA`
long before they would.

The bytes that are copied into user pages are left open: they are arguments.
-/

namespace Xv6

namespace Vm

/-- The panics of the code that is modelled here. -/
inductive Panic
  /-- `walk` -/
  | walk
  /-- `mappages: size` -/
  | mappagesSize
  /-- `mappages: remap` -/
  | mappagesRemap
  /-- `uvmunmap: not aligned` -/
  | uvmunmapNotAligned
  /-- `uvmunmap: walk` -/
  | uvmunmapWalk
  /-- `uvmunmap: not mapped` -/
  | uvmunmapNotMapped
  /-- `uvmunmap: not a leaf` -/
  | uvmunmapNotALeaf
  /-- `freewalk: leaf` -/
  | freewalkLeaf
  /-- `freewalk` goes deeper than the three levels of a page table. -/
  | freewalkDepth
  /-- `uvmcopy: pte should exist` -/
  | uvmcopyPteShouldExist
  /-- `uvmcopy: page not present` -/
  | uvmcopyPageNotPresent
  /-- `uvmclear` -/
  | uvmclear
  /-- `kfree` -/
  | kfree
  /-- `loadseg: address should exist` -/
  | loadsegAddressShouldExist
  /-- `init exiting` -/
  | initExiting
  /-- `kerneltrap`, for the use of a null pointer. -/
  | kerneltrap
  deriving DecidableEq, Repr

/-! ### Addresses and entries -/

abbrev PGSIZE : ℕ := 4096
abbrev MAXVA : ℕ := 2 ^ 38
abbrev TRAMPOLINE : ℕ := MAXVA - PGSIZE
abbrev TRAPFRAME : ℕ := TRAMPOLINE - PGSIZE

/-- `PGROUNDUP`. -/
def pgroundup (sz : ℕ) : ℕ := (sz + PGSIZE - 1) % 2 ^ 64 / PGSIZE * PGSIZE

/-- `PGROUNDDOWN`. -/
def pgrounddown (a : ℕ) : ℕ := a / PGSIZE * PGSIZE

/-- An `int` as a `uint64`. -/
def intToU64 (x : ℤ) : ℕ := (x % 2 ^ 64).toNat

/-- `PX`. -/
def px (level va : ℕ) : Fin 512 := Fin.ofNat 512 (va / 2 ^ (12 + 9 * level))

abbrev PTE_V : Word := 1
abbrev PTE_R : Word := 2
abbrev PTE_W : Word := 4
abbrev PTE_X : Word := 8
abbrev PTE_U : Word := 16

/-- `PA2PTE`, of the address of page `p`. -/
def pa2pte (p : ℕ) : Word := addrOf p >>> 12 <<< 10

/-- `PTE2PA`, as a page number. -/
def pte2pa (pte : Word) : ℕ := pageOf (pte >>> 10 <<< 12)

/-- `PTE_FLAGS`. -/
def pteFlags (pte : Word) : Word := pte &&& 0x3FF

/-! ### Programs -/

/-- Physical memory, and for each of the next calls of `kalloc` whether it finds no page: other
CPUs may have taken what there was. Once the list is used up, calls fail only when there are no
pages. -/
structure Phys where
  kmem : Kmem
  denied : List Bool

/-- Programs on physical memory. -/
abbrev PhysM := StateT Phys (Except Panic)

/-- The kernel stops. -/
def panic {α : Type} (e : Panic) : PhysM α := fun _ => .error e

/-- `kalloc`. -/
def kalloc : PhysM ℕ := fun s =>
  if s.denied.headD false then .ok (0, { s with denied := s.denied.tail })
  else .ok (s.kmem.kalloc.1, { kmem := s.kmem.kalloc.2, denied := s.denied.tail })

/-- `kfree`. -/
def kfree (p : ℕ) : PhysM Unit := fun s =>
  match s.kmem.kfree p with
  | none => .error .kfree
  | some m => .ok ((), { s with kmem := m })

/-- The contents of a page. -/
def readPage (p : ℕ) : PhysM Page := fun s => .ok (s.kmem.mem p, s)

/-- Overwrite a page. -/
def writePage (p : ℕ) (pg : Page) : PhysM Unit := fun s =>
  .ok ((), { s with kmem := s.kmem.write p pg })

/-- A page-table entry. -/
def readPte (p : ℕ) (k : Fin 512) : PhysM Word := fun s => .ok (s.kmem.mem p k, s)

/-- Overwrite a page-table entry. -/
def writePte (p : ℕ) (k : Fin 512) (w : Word) : PhysM Unit := fun s =>
  .ok ((), { s with kmem := s.kmem.write p (Function.update (s.kmem.mem p) k w) })

/-! ### Walking -/

/-- The loop of `walk`, from a page-table page `pagetable` of the given level down to level 0. -/
def descend (va : ℕ) (alloc : Bool) : ℕ → ℕ → PhysM (Option ℕ)
  | 0, pagetable => pure (some pagetable)
  | level + 1, pagetable => do
    let pte ← readPte pagetable (px (level + 1) va)
    if pte &&& PTE_V ≠ 0 then descend va alloc level (pte2pa pte)
    else if alloc then
      let p ← kalloc
      if p = 0 then pure none
      else
        writePage p (fill 0)
        writePte pagetable (px (level + 1) va) (pa2pte p ||| PTE_V)
        descend va alloc level p
    else pure none

/-- `walk`: where the entry for `va` is, as a page and an index in it. -/
def walk (pagetable va : ℕ) (alloc : Bool) : PhysM (Option (ℕ × Fin 512)) :=
  if MAXVA ≤ va then panic .walk
  else do
    let p ← descend va alloc 2 pagetable
    pure (p.map fun p => (p, px 0 va))

/-- `walkaddr`. -/
def walkaddr (pagetable va : ℕ) : PhysM ℕ :=
  if MAXVA ≤ va then pure 0
  else do
    match ← walk pagetable va false with
    | none => pure 0
    | some (p, k) =>
      let pte ← readPte p k
      if pte &&& PTE_V = 0 then pure 0
      else if pte &&& PTE_U = 0 then pure 0
      else pure (pte2pa pte)

/-! ### Mapping -/

/-- One round of `mappages`, for the page at `a`. -/
def mapPage (pagetable : ℕ) (perm : Word) (a pa : ℕ) : PhysM Bool := do
  match ← walk pagetable a true with
  | none => pure false
  | some (p, k) =>
    let pte ← readPte p k
    if pte &&& PTE_V ≠ 0 then panic .mappagesRemap
    else
      writePte p k (pa2pte pa ||| perm ||| PTE_V)
      pure true

/-- The loop of `mappages`, with `n` more rounds after this one. -/
def mapPages (pagetable : ℕ) (perm : Word) : ℕ → ℕ → ℕ → PhysM Bool
  | 0, a, pa => mapPage pagetable perm a pa
  | n + 1, a, pa => do
    if ← mapPage pagetable perm a pa then
      mapPages pagetable perm n ((a + PGSIZE) % 2 ^ 64) (pa + 1)
    else pure false

/-- `mappages`: whether it succeeds. -/
def mappages (pagetable va size pa : ℕ) (perm : Word) : PhysM Bool :=
  if size = 0 then panic .mappagesSize
  else
    let a := pgrounddown va
    let last := pgrounddown ((va + size - 1) % 2 ^ 64)
    mapPages pagetable perm ((last + 2 ^ 64 - a) % 2 ^ 64 / PGSIZE) a pa

/-- The end of a round of `uvmunmap`. -/
def clearPte (p : ℕ) (k : Fin 512) (doFree : Bool) : PhysM Unit := do
  let pte ← readPte p k
  if doFree then
    kfree (pte2pa pte)
    writePte p k 0
  else writePte p k 0

/-- The loop of `uvmunmap`, with `n` rounds. -/
def unmapPages (pagetable : ℕ) (doFree : Bool) : ℕ → ℕ → PhysM Unit
  | 0, _ => pure ()
  | n + 1, a => do
    match ← walk pagetable a false with
    | none => panic .uvmunmapWalk
    | some (p, k) =>
      let pte ← readPte p k
      if pte &&& PTE_V = 0 then panic .uvmunmapNotMapped
      else if pteFlags pte = PTE_V then panic .uvmunmapNotALeaf
      else
        clearPte p k doFree
        unmapPages pagetable doFree n (a + PGSIZE)

/-- `uvmunmap`. -/
def uvmunmap (pagetable va npages : ℕ) (doFree : Bool) : PhysM Unit :=
  if va % PGSIZE ≠ 0 then panic .uvmunmapNotAligned
  else unmapPages pagetable doFree (((va + npages * PGSIZE) % 2 ^ 64 - va) / PGSIZE) va

/-- `uvmcreate`. -/
def uvmcreate : PhysM ℕ := do
  let p ← kalloc
  if p = 0 then pure 0
  else
    writePage p (fill 0)
    pure p

/-! ### Growing and shrinking -/

/-- `uvmdealloc`. -/
def uvmdealloc (pagetable oldsz newsz : ℕ) : PhysM ℕ :=
  if oldsz ≤ newsz then pure oldsz
  else do
    if pgroundup newsz < pgroundup oldsz then
      let npages := wrapInt (((pgroundup oldsz - pgroundup newsz) / PGSIZE : ℕ) : ℤ)
      uvmunmap pagetable (pgroundup newsz) (intToU64 npages) true
    pure newsz

/-- The loop of `uvmalloc`, with `n` rounds. -/
def allocPages (pagetable oldsz : ℕ) (xperm : Word) : ℕ → ℕ → PhysM Bool
  | 0, _ => pure true
  | n + 1, a => do
    let mem ← kalloc
    if mem = 0 then
      let _ ← uvmdealloc pagetable a oldsz
      pure false
    else
      writePage mem (fill 0)
      if ← mappages pagetable a PGSIZE mem (PTE_R ||| PTE_U ||| xperm) then
        allocPages pagetable oldsz xperm n (a + PGSIZE)
      else
        kfree mem
        let _ ← uvmdealloc pagetable a oldsz
        pure false

/-- `uvmalloc`. -/
def uvmalloc (pagetable oldsz newsz : ℕ) (xperm : Word) : PhysM ℕ :=
  if newsz < oldsz then pure oldsz
  else do
    let base := pgroundup oldsz
    if ← allocPages pagetable base xperm ((newsz - base + PGSIZE - 1) / PGSIZE) base then
      pure newsz
    else pure 0

/-! ### Freeing -/

/-- The loop of `freewalk`, over the entries in the list. -/
def freeEntries (free : ℕ → PhysM Unit) (pagetable : ℕ) : List (Fin 512) → PhysM Unit
  | [] => pure ()
  | k :: ks => do
    let pte ← readPte pagetable k
    if pte &&& PTE_V ≠ 0 ∧ pte &&& (PTE_R ||| PTE_W ||| PTE_X) = 0 then
      free (pte2pa pte)
      writePte pagetable k 0
      freeEntries free pagetable ks
    else if pte &&& PTE_V ≠ 0 then panic .freewalkLeaf
    else freeEntries free pagetable ks

/-- `freewalk`, to a given depth. -/
def freewalk : ℕ → ℕ → PhysM Unit
  | 0, _ => panic .freewalkDepth
  | depth + 1, pagetable => do
    freeEntries (freewalk depth) pagetable (List.finRange 512)
    kfree pagetable

/-- `uvmfree`. -/
def uvmfree (pagetable sz : ℕ) : PhysM Unit := do
  if 0 < sz then uvmunmap pagetable 0 (pgroundup sz / PGSIZE) true
  freewalk 3 pagetable

/-! ### Copying -/

/-- The loop of `uvmcopy`, with `n` rounds. -/
def copyPages (old new : ℕ) : ℕ → ℕ → PhysM Bool
  | 0, _ => pure true
  | n + 1, i => do
    match ← walk old i false with
    | none => panic .uvmcopyPteShouldExist
    | some (p, k) =>
      let pte ← readPte p k
      if pte &&& PTE_V = 0 then panic .uvmcopyPageNotPresent
      else
        let mem ← kalloc
        if mem = 0 then
          uvmunmap new 0 (i / PGSIZE) true
          pure false
        else
          writePage mem (← readPage (pte2pa pte))
          if ← mappages new i PGSIZE mem (pteFlags pte) then copyPages old new n (i + PGSIZE)
          else
            kfree mem
            uvmunmap new 0 (i / PGSIZE) true
            pure false

/-- `uvmcopy`: whether it succeeds. -/
def uvmcopy (old new sz : ℕ) : PhysM Bool := copyPages old new ((sz + PGSIZE - 1) / PGSIZE) 0

/-- `uvmclear`. -/
def uvmclear (pagetable va : ℕ) : PhysM Unit := do
  match ← walk pagetable va false with
  | none => panic .uvmclear
  | some (p, k) =>
    let pte ← readPte p k
    writePte p k (pte &&& ~~~PTE_U)

/-- The loop of `copyout`. Every round copies something, so there are at most `len` of them. What is
copied to the page at `va0` turns its contents `pg` into `data va0 pg`. -/
def copyPagesOut (pagetable : ℕ) (data : ℕ → Page → Page) : ℕ → ℕ → ℕ → PhysM Bool
  | 0, _, _ => pure true
  | fuel + 1, dstva, len =>
    if len = 0 then pure true
    else do
      let va0 := pgrounddown dstva
      let pa0 ← walkaddr pagetable va0
      if pa0 = 0 then pure false
      else
        let n := min (PGSIZE - (dstva - va0)) len
        writePage pa0 (data va0 (← readPage pa0))
        copyPagesOut pagetable data fuel (va0 + PGSIZE) (len - n)

/-- `copyout`: whether it succeeds. -/
def copyout (pagetable dstva len : ℕ) (data : ℕ → Page → Page) : PhysM Bool :=
  copyPagesOut pagetable data len dstva len

end Vm

/-! ### The mapping of a page table -/

namespace Kmem

open Vm

/-- The page-table page that entry `k` of page `p` points to. -/
def child (m : Kmem) (p : ℕ) (k : Fin 512) : Option ℕ :=
  if m.mem p k &&& PTE_V ≠ 0 then some (pte2pa (m.mem p k)) else none

/-- The page-table page of level 0 for virtual page `vpn`. -/
def level0 (m : Kmem) (pagetable vpn : ℕ) : Option ℕ :=
  (m.child pagetable (px 2 (vpn * PGSIZE))).bind fun p => m.child p (px 1 (vpn * PGSIZE))

/-- The entry that maps virtual page `vpn`; it is `0` where there is no page-table page for it. -/
def pte (m : Kmem) (pagetable vpn : ℕ) : Word :=
  (m.level0 pagetable vpn).elim 0 fun p => m.mem p (px 0 (vpn * PGSIZE))

end Kmem

end Xv6
