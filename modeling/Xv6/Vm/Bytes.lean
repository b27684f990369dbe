import Xv6.Lib.Bytes
import Xv6.Vm.UserMem

/-!
# The bytes of pages

Memory is made of words, since this is what page tables and the free list need. What `copyout` and
`readi` put into the pages of a user are bytes. `Kmem.userMem` is the memory of a user as the bytes
at its virtual addresses, the way `Xv6.Vm.UserMem` has it.
-/

namespace Xv6

namespace Vm

/-- Byte `k` of a page. Words are stored with the lowest byte first. -/
def pageByte (pg : Page) (k : ℕ) : BitVec 8 :=
  BitVec.ofNat 8 ((pg (Fin.ofNat 512 (k / 8))).toNat / 256 ^ (k % 8))

/-- The page with the given bytes. -/
def ofBytes (f : ℕ → BitVec 8) : Page := fun j => BitVec.ofNat 64 (readLe 8 f (8 * j))

theorem pageByte_ofBytes (f : ℕ → BitVec 8) {k : ℕ} (hk : k < PGSIZE) :
    pageByte (ofBytes f) k = f k := by
  have hk' : k / 8 < 512 := by
    change k < 4096 at hk
    omega
  have hlt : readLe 8 f (8 * (k / 8)) < 2 ^ 64 := readLe_lt 8 f _
  rw [pageByte, ofBytes, BitVec.toNat_ofNat, Fin.val_ofNat, Nat.mod_eq_of_lt hk',
    Nat.mod_eq_of_lt hlt, ofNat_readLe_div f _ (Nat.mod_lt k (by decide)), Nat.div_add_mod]

/-- The page at `va0` with contents `pg`, after the bytes `src` have been copied to `dstva`. -/
def blit (dstva : ℕ) (src : List (BitVec 8)) (va0 : ℕ) (pg : Page) : Page :=
  ofBytes fun k =>
    if dstva ≤ va0 + k then src.getD (va0 + k - dstva) (pageByte pg k) else pageByte pg k

end Vm

open Vm

namespace Kmem

/-- Whether `walkaddr` finds virtual page `vpn`. -/
def userPage (m : Kmem) (pagetable vpn : ℕ) : Bool :=
  decide (vpn * PGSIZE < MAXVA ∧ m.pte pagetable vpn &&& PTE_V ≠ 0 ∧
    m.pte pagetable vpn &&& PTE_U ≠ 0)

/-- The memory of the user with the given page table. -/
def userMem (m : Kmem) (pagetable : ℕ) : UserMem where
  mapped := m.userPage pagetable
  mem a := if m.userPage pagetable (a / PGSIZE)
    then pageByte (m.mem (pte2pa (m.pte pagetable (a / PGSIZE)))) (a % PGSIZE) else 0

end Kmem

end Xv6
