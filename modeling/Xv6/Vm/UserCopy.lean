import Xv6.Vm.Bytes
import Xv6.Vm.Store

/-!
# Copies between the kernel and a user

`copyout`, `copyin` and `copyinstr` on the bytes of physical memory, which the kernel sees at their
own addresses. They go page by page: `walkaddr` finds the frame of the user's page, and what lies in
it is copied in one piece. The user's addresses are `uint64`, and the step to the next page wraps
around; `walkaddr` refuses addresses from `MAXVA` on long before that.

Compared with this is what one byte is: `UserAddr` says that the user has the byte, and
`userByte` is its value. For the memory of the user by virtual address, `copyout` is what it is in
`Xv6.Vm.UserMem`.
-/

namespace Xv6

open Vm

namespace Kmem

variable {m m' : Kmem} {a a' p n : ℕ} {l : List (BitVec 8)}

/-- The byte at a physical address. -/
def byte (m : Kmem) (a : ℕ) : BitVec 8 := pageByte (m.mem (a / PGSIZE)) (a % PGSIZE)

/-- Write a byte. -/
def setByte (m : Kmem) (a : ℕ) (b : BitVec 8) : Kmem :=
  m.write (a / PGSIZE)
    (ofBytes (Function.update (pageByte (m.mem (a / PGSIZE))) (a % PGSIZE) b))

/-- The `n` bytes at `a`. -/
def load (m : Kmem) (a n : ℕ) : List (BitVec 8) := (List.range n).map fun i => m.byte (a + i)

/-- Memory with the bytes of a list at `a`. -/
def store (m : Kmem) (a : ℕ) : List (BitVec 8) → Kmem
  | [] => m
  | b :: bs => (m.setByte a b).store (a + 1) bs

theorem byte_setByte (m : Kmem) (a : ℕ) (b : BitVec 8) (a' : ℕ) :
    (m.setByte a b).byte a' = if a' = a then b else m.byte a' := by
  have hlt : a' % PGSIZE < PGSIZE := Nat.mod_lt _ (by decide)
  rw [byte, setByte]
  by_cases hp : a' / PGSIZE = a / PGSIZE
  · rw [hp, write_mem_self, pageByte_ofBytes _ hlt]
    by_cases ha : a' = a
    · rw [ha, if_pos rfl, Function.update_self]
    · have hne : a' % PGSIZE ≠ a % PGSIZE := by
        intro hmod
        refine ha ?_
        rw [← Nat.div_add_mod a' PGSIZE, ← Nat.div_add_mod a PGSIZE, hp, hmod]
      rw [if_neg ha, Function.update_of_ne hne, byte, hp]
  · have ha : a' ≠ a := fun ha => hp (by rw [ha])
    rw [write_mem_of_ne _ _ hp, if_neg ha, byte]

theorem setByte_mem_of_ne (b : BitVec 8) (h : a / PGSIZE ≠ p) : (m.setByte a b).mem p = m.mem p :=
  write_mem_of_ne _ _ (Ne.symm h)

/-- A byte after a list has been stored. -/
theorem byte_store (m : Kmem) (a : ℕ) (l : List (BitVec 8)) (a' : ℕ) :
    (m.store a l).byte a' =
      if a ≤ a' ∧ a' < a + l.length then l.getD (a' - a) 0 else m.byte a' := by
  induction l generalizing m a with
  | nil =>
    rw [if_neg (by rw [List.length_nil]; omega)]
    rfl
  | cons b bs ih =>
    rw [store, ih, byte_setByte, List.length_cons]
    by_cases ha : a' = a
    · rw [if_neg (by omega), if_pos ha, if_pos (by omega), ha, Nat.sub_self]
      rfl
    · rw [if_neg ha]
      by_cases hin : a + 1 ≤ a' ∧ a' < a + 1 + bs.length
      · obtain ⟨i, rfl⟩ := Nat.exists_eq_add_of_le hin.1
        rw [if_pos hin, if_pos (by omega), Nat.add_sub_cancel_left, Nat.add_assoc,
          Nat.add_sub_cancel_left, Nat.add_comm 1 i]
        rfl
      · rw [if_neg hin, if_neg (by omega)]

theorem store_mem_of_ne (h : ∀ i < l.length, (a + i) / PGSIZE ≠ p) :
    (m.store a l).mem p = m.mem p := by
  induction l generalizing m a with
  | nil => rfl
  | cons b bs ih =>
    have htail : ∀ i < bs.length, (a + 1 + i) / PGSIZE ≠ p := by
      intro i hi
      rw [Nat.add_assoc, Nat.add_comm 1 i]
      exact h (i + 1) (Nat.succ_lt_succ hi)
    have hhead : a / PGSIZE ≠ p := h 0 (Nat.succ_pos _)
    rw [store, ih htail, setByte_mem_of_ne b hhead]

theorem length_load (m : Kmem) (a n : ℕ) : (m.load a n).length = n := by
  rw [load, List.length_map, List.length_range]

theorem load_getD (m : Kmem) (a : ℕ) {i : ℕ} (hi : i < n) (b : BitVec 8) :
    (m.load a n).getD i b = m.byte (a + i) := by
  rw [load, List.getD_eq_getElem?_getD, List.getElem?_map, List.getElem?_range hi]
  rfl

end Kmem

namespace UserCopy

/-! ### The functions -/

/-- `memmove`: all bytes are read before they are written. -/
def memmove (dst src n : ℕ) : PhysM Unit := fun s =>
  .ok ((), { s with kmem := s.kmem.store dst (s.kmem.load src n) })

/-- Read the byte at `a`. -/
def readByte (a : ℕ) : PhysM (BitVec 8) := fun s => .ok (s.kmem.byte a, s)

/-- Write the byte at `a`. -/
def writeByte (a : ℕ) (b : BitVec 8) : PhysM Unit := fun s =>
  .ok ((), { s with kmem := s.kmem.setByte a b })

/-- The loop of `copyout` and `copyin`, which differ in the direction of `move`. Its arguments are
an address in a frame, one in the kernel's buffer, and a number of bytes. Every round moves
something, so there are at most `len` of them. -/
def copyLoop (move : ℕ → ℕ → ℕ → PhysM Unit) (pagetable : ℕ) : ℕ → ℕ → ℕ → ℕ → PhysM Bool
  | 0, _, _, _ => pure true
  | fuel + 1, va, buf, len =>
    if len = 0 then pure true
    else do
      let va0 := pgrounddown va
      let pa0 ← walkaddr pagetable va0
      if pa0 = 0 then pure false
      else
        let n := min (PGSIZE - (va - va0)) len
        move (pa0 * PGSIZE + (va - va0)) buf n
        copyLoop move pagetable fuel ((va0 + PGSIZE) % 2 ^ 64) (buf + n) (len - n)

/-- `copyout`: whether it succeeds. -/
def copyout (pagetable dstva src len : ℕ) : PhysM Bool :=
  copyLoop (fun pa buf n => memmove pa buf n) pagetable len dstva src len

/-- `copyin`: whether it succeeds. -/
def copyin (pagetable dst srcva len : ℕ) : PhysM Bool :=
  copyLoop (fun pa buf n => memmove buf pa n) pagetable len srcva dst len

/-- The inner loop of `copyinstr`, with `n` bytes to go in the page: `got_null`, `dst` and `max`. -/
def stringLoop : ℕ → ℕ → ℕ → ℕ → PhysM (Bool × ℕ × ℕ)
  | 0, _, dst, max => pure (false, dst, max)
  | n + 1, p, dst, max => do
    let c ← readByte p
    if c = 0 then
      writeByte dst 0
      pure (true, dst, max)
    else
      writeByte dst c
      stringLoop n (p + 1) (dst + 1) (max - 1)

/-- The outer loop of `copyinstr`. Every round copies something, so there are at most `max` of them.
-/
def copyinstrLoop (pagetable : ℕ) : ℕ → ℕ → ℕ → ℕ → PhysM Bool
  | 0, _, _, _ => pure false
  | fuel + 1, dst, srcva, max =>
    if max = 0 then pure false
    else do
      let va0 := pgrounddown srcva
      let pa0 ← walkaddr pagetable va0
      if pa0 = 0 then pure false
      else
        let n := min (PGSIZE - (srcva - va0)) max
        let (gotNull, dst, max) ← stringLoop n (pa0 * PGSIZE + (srcva - va0)) dst max
        if gotNull then pure true
        else copyinstrLoop pagetable fuel dst ((va0 + PGSIZE) % 2 ^ 64) max

/-- `copyinstr`: whether it succeeds. -/
def copyinstr (pagetable dst srcva max : ℕ) : PhysM Bool :=
  copyinstrLoop pagetable max dst srcva max

/-! ### One byte of the user -/

/-- The user has a byte at `a`. -/
def UserAddr (m : Kmem) (pagetable a : ℕ) : Prop :=
  a < MAXVA ∧ m.pte pagetable (a / PGSIZE) &&& PTE_V ≠ 0 ∧
    m.pte pagetable (a / PGSIZE) &&& PTE_U ≠ 0

instance (m : Kmem) (pagetable a : ℕ) : Decidable (UserAddr m pagetable a) :=
  inferInstanceAs (Decidable (_ ∧ _ ∧ _))

/-- The frame of the user's page `v`. -/
def frame (m : Kmem) (pagetable v : ℕ) : ℕ := pte2pa (m.pte pagetable v)

/-- Where a byte of the user is in memory. -/
def phys (m : Kmem) (pagetable a : ℕ) : ℕ := frame m pagetable (a / PGSIZE) * PGSIZE + a % PGSIZE

/-- The byte that the user sees at `a`. -/
def userByte (m : Kmem) (pagetable a : ℕ) : BitVec 8 := m.byte (phys m pagetable a)

/-- The pages that a walk reads entries in. -/
def IsTable (m : Kmem) (pagetable q : ℕ) : Prop :=
  q = pagetable ∨ ∃ v, v * PGSIZE < MAXVA ∧
    (m.child pagetable (px 2 (v * PGSIZE)) = some q ∨ m.level0 pagetable v = some q)

/-- Different pages of the user are in different frames, and these are no page-table pages. -/
structure UserTable (m : Kmem) (pagetable : ℕ) : Prop where
  frame_inj : ∀ a b, UserAddr m pagetable a → UserAddr m pagetable b →
    frame m pagetable (a / PGSIZE) = frame m pagetable (b / PGSIZE) → a / PGSIZE = b / PGSIZE
  frame_ne_zero : ∀ a, UserAddr m pagetable a → frame m pagetable (a / PGSIZE) ≠ 0
  frame_ne_table : ∀ a q, UserAddr m pagetable a → IsTable m pagetable q →
    frame m pagetable (a / PGSIZE) ≠ q

/-- The `len` bytes at `buf` are in no frame of the user and in no page-table page. -/
structure Apart (m : Kmem) (pagetable buf len : ℕ) : Prop where
  table : ∀ i < len, ∀ q, IsTable m pagetable q → (buf + i) / PGSIZE ≠ q
  frame : ∀ i < len, ∀ a, UserAddr m pagetable a →
    (buf + i) / PGSIZE ≠ frame m pagetable (a / PGSIZE)

variable {m m' : Kmem} {r a b va buf len k n fuel : ℕ} {d : List Bool}

theorem userAddr_iff : m.userPage r (a / PGSIZE) = true ↔ UserAddr m r a := by
  have hlt : a / PGSIZE * PGSIZE < MAXVA ↔ a < MAXVA := by
    change a / 4096 * 4096 < 2 ^ 38 ↔ a < 2 ^ 38
    omega
  rw [Kmem.userPage, decide_eq_true_iff, hlt]
  rfl

theorem walkaddr_run (s : Phys) (r a : ℕ) : (walkaddr r (pgrounddown a)).run s =
    .ok (if UserAddr s.kmem r a then frame s.kmem r (a / PGSIZE) else 0, s) := by
  have hlt : MAXVA ≤ pgrounddown a ↔ ¬ a < MAXVA := by
    change 2 ^ 38 ≤ a / 4096 * 4096 ↔ ¬ a < 2 ^ 38
    omega
  rw [walkaddr]
  by_cases hmax : MAXVA ≤ pgrounddown a
  · rw [if_pos hmax, if_neg fun h => hlt.mp hmax h.1]
    rfl
  · have ha : a < MAXVA := not_not.mp fun h => hmax (hlt.mpr h)
    have hwalk : (walk r (pgrounddown a) false).run s =
        .ok ((s.kmem.level0 r (a / PGSIZE)).map fun p => (p, px 0 (pgrounddown a)), s) := by
      rw [walk, if_neg hmax]
      exact run_bind (descend_run s r (a / PGSIZE))
    rw [if_neg hmax, run_bind hwalk]
    cases hl : s.kmem.level0 r (a / PGSIZE) with
    | none =>
      have hpte : s.kmem.pte r (a / PGSIZE) = 0 := by
        rw [Kmem.pte, hl]
        rfl
      rw [if_neg]
      · rfl
      · intro h
        rw [UserAddr, hpte] at h
        exact h.2.1 rfl
    | some p =>
      have hpte : s.kmem.pte r (a / PGSIZE) = s.kmem.mem p (px 0 (pgrounddown a)) := by
        rw [Kmem.pte, hl]
        rfl
      change (if s.kmem.mem p (px 0 (pgrounddown a)) &&& PTE_V = 0 then pure 0
        else if s.kmem.mem p (px 0 (pgrounddown a)) &&& PTE_U = 0 then pure 0
        else pure (pte2pa (s.kmem.mem p (px 0 (pgrounddown a)))) : PhysM ℕ).run s = _
      rw [← hpte]
      split_ifs with hV hu hU hu hu
      · exact absurd hV hu.2.1
      · rfl
      · exact absurd hU hu.2.2
      · rfl
      · rfl
      · exact absurd ⟨ha, hV, hU⟩ hu

/-- The user's pages are mapped as before, by the same page-table pages. -/
structure SameTable (r : ℕ) (m m' : Kmem) : Prop where
  pte : ∀ a, a < MAXVA → m'.pte r (a / PGSIZE) = m.pte r (a / PGSIZE)
  table : ∀ q, IsTable m' r q → IsTable m r q

/-- The mapping depends on the page-table pages only. -/
theorem SameTable.of_mem (h : ∀ q, IsTable m r q → m'.mem q = m.mem q) : SameTable r m m' := by
  have hchild {q : ℕ} (hq : IsTable m r q) (k : Fin 512) : m'.child q k = m.child q k := by
    rw [Kmem.child, Kmem.child, h q hq]
  have hlevel {v : ℕ} (hv : v * PGSIZE < MAXVA) : m'.level0 r v = m.level0 r v := by
    rw [Kmem.level0, Kmem.level0, hchild (.inl rfl)]
    cases hc : m.child r (px 2 (v * PGSIZE)) with
    | none => rfl
    | some q => exact hchild (.inr ⟨_, hv, .inl hc⟩) _
  refine ⟨fun a ha => ?_, fun q hq => ?_⟩
  · have hv : a / PGSIZE * PGSIZE < MAXVA := Nat.lt_of_le_of_lt (Nat.div_mul_le_self a PGSIZE) ha
    rw [Kmem.pte, Kmem.pte, hlevel hv]
    cases hl : m.level0 r (a / PGSIZE) with
    | none => rfl
    | some q => exact congrFun (h q (.inr ⟨_, hv, .inr hl⟩)) _
  · obtain hq | ⟨v, hv, hc | hl⟩ := hq
    · exact .inl hq
    · rw [hchild (.inl rfl)] at hc
      exact .inr ⟨v, hv, .inl hc⟩
    · rw [hlevel hv] at hl
      exact .inr ⟨v, hv, .inr hl⟩

theorem SameTable.userAddr (h : SameTable r m m') : UserAddr m' r a ↔ UserAddr m r a := by
  by_cases ha : a < MAXVA
  · rw [UserAddr, UserAddr, h.pte a ha]
  · exact iff_of_false (fun hu => ha hu.1) fun hu => ha hu.1

theorem SameTable.frame (h : SameTable r m m') (ha : UserAddr m r a) :
    UserCopy.frame m' r (a / PGSIZE) = UserCopy.frame m r (a / PGSIZE) := by
  rw [UserCopy.frame, UserCopy.frame, h.pte a ha.1]

theorem SameTable.phys (h : SameTable r m m') (ha : UserAddr m r a) :
    UserCopy.phys m' r a = UserCopy.phys m r a := by
  rw [UserCopy.phys, UserCopy.phys, h.frame ha]

theorem SameTable.userTable (h : SameTable r m m') (hm : UserTable m r) : UserTable m' r := by
  refine ⟨fun a b ha hb hab => ?_, fun a ha => ?_, fun a q ha hq => ?_⟩
  · have ha := h.userAddr.mp ha
    have hb := h.userAddr.mp hb
    rw [h.frame ha, h.frame hb] at hab
    exact hm.frame_inj a b ha hb hab
  · have ha := h.userAddr.mp ha
    rw [h.frame ha]
    exact hm.frame_ne_zero a ha
  · have ha := h.userAddr.mp ha
    rw [h.frame ha]
    exact hm.frame_ne_table a q ha (h.table q hq)

theorem SameTable.apart (h : SameTable r m m') (hb : Apart m r buf len) : Apart m' r buf len := by
  refine ⟨fun i hi q hq => hb.table i hi q (h.table q hq), fun i hi a ha => ?_⟩
  have ha := h.userAddr.mp ha
  rw [h.frame ha]
  exact hb.frame i hi a ha

/-- A page is mapped as a whole. -/
theorem userAddr_congr (h : a / PGSIZE = b / PGSIZE) : UserAddr m r a ↔ UserAddr m r b := by
  rw [← userAddr_iff, ← userAddr_iff, h]

/-- Bytes of a page lie side by side in its frame. -/
theorem phys_add (h : (a + n) / PGSIZE = a / PGSIZE) : phys m r (a + n) = phys m r a + n := by
  have hmod : (a + n) % PGSIZE = a % PGSIZE + n := by
    change (a + n) / 4096 = a / 4096 at h
    change (a + n) % 4096 = a % 4096 + n
    omega
  rw [phys, phys, h, hmod, Nat.add_assoc]

theorem phys_div (m : Kmem) (r a : ℕ) : phys m r a / PGSIZE = frame m r (a / PGSIZE) := by
  have := Nat.mod_lt a (show 0 < PGSIZE by decide)
  rw [phys, Nat.mul_comm, Nat.mul_add_div (by decide), Nat.div_eq_of_lt this, Nat.add_zero]

theorem phys_mod (m : Kmem) (r a : ℕ) : phys m r a % PGSIZE = a % PGSIZE := by
  rw [phys, Nat.mul_comm, Nat.mul_add_mod, Nat.mod_mod]

theorem userByte_eq (m : Kmem) (r a : ℕ) :
    userByte m r a = pageByte (m.mem (pte2pa (m.pte r (a / PGSIZE)))) (a % PGSIZE) := by
  rw [userByte, Kmem.byte, phys_div, phys_mod, frame]

theorem userMem_mem (m : Kmem) (r a : ℕ) :
    (m.userMem r).mem a = if UserAddr m r a then userByte m r a else 0 := by
  rw [userByte_eq]
  exact if_congr userAddr_iff rfl rfl

theorem UserTable.phys_inj (h : UserTable m r) (ha : UserAddr m r a) (hb : UserAddr m r b)
    (heq : phys m r a = phys m r b) : a = b := by
  have hdiv : a / PGSIZE = b / PGSIZE := by
    refine h.frame_inj a b ha hb ?_
    rw [← phys_div, ← phys_div, heq]
  have hmod : a % PGSIZE = b % PGSIZE := by rw [← phys_mod m r a, ← phys_mod m r b, heq]
  rw [← Nat.div_add_mod a PGSIZE, ← Nat.div_add_mod b PGSIZE, hdiv, hmod]

/-! ### The loop of `copyout` and `copyin` -/

/-- The bytes from `va` to the end of its page. -/
theorem chunk (va len : ℕ) (hlen : len ≠ 0) :
    0 < min (PGSIZE - (va - pgrounddown va)) len ∧ min (PGSIZE - (va - pgrounddown va)) len ≤ len ∧
    (∀ i < min (PGSIZE - (va - pgrounddown va)) len, (va + i) / PGSIZE = va / PGSIZE) ∧
    (min (PGSIZE - (va - pgrounddown va)) len < len →
      pgrounddown va + PGSIZE = va + min (PGSIZE - (va - pgrounddown va)) len) := by
  change 0 < min (4096 - (va - va / 4096 * 4096)) len ∧ min (4096 - (va - va / 4096 * 4096)) len ≤
    len ∧ (∀ i < min (4096 - (va - va / 4096 * 4096)) len, (va + i) / 4096 = va / 4096) ∧
    (min (4096 - (va - va / 4096 * 4096)) len < len →
      va / 4096 * 4096 + 4096 = va + min (4096 - (va - va / 4096 * 4096)) len)
  refine ⟨by omega, by omega, fun i hi => by omega, fun h => by omega⟩

theorem sub_pgrounddown (a : ℕ) : a - pgrounddown a = a % PGSIZE := by
  change a - a / 4096 * 4096 = a % 4096
  omega

/-- The step to the next page does not wrap around where the user has a byte. -/
theorem UserAddr.next (h : UserAddr m r a) :
    (pgrounddown a + PGSIZE) % 2 ^ 64 = pgrounddown a + PGSIZE := by
  have hmax : a < 2 ^ 38 := h.1
  change (a / 4096 * 4096 + 4096) % 2 ^ 64 = a / 4096 * 4096 + 4096
  omega

/-- **The loop goes on up to the first byte that the user does not have.** `P k` says what memory is
after `k` bytes, and keeps the page table; a move within a page takes it from `k` to `k + n`. -/
theorem copyLoop_spec {move : ℕ → ℕ → ℕ → PhysM Unit} (hm : UserTable m r) (P : ℕ → Kmem → Prop)
    (htable : ∀ k m', P k m' → SameTable r m m')
    (hmove : ∀ k n m' d, P k m' → k + n ≤ len → UserAddr m r (va + k) →
      (∀ i < n, (va + k + i) / PGSIZE = (va + k) / PGSIZE) →
      Runs (move (phys m r (va + k)) (buf + k) n) ⟨m', d⟩ fun _ t => P (k + n) t.kmem)
    (hk : k ≤ len) (hfuel : len - k ≤ fuel) (ha : k < len → a = va + k) (hP : P k m') :
    Runs (copyLoop move r fuel a (buf + k) (len - k)) ⟨m', d⟩ fun ok t =>
      ok = true ∧ P len t.kmem ∧ (∀ i, k ≤ i → i < len → UserAddr m r (va + i)) ∨
      ok = false ∧ ∃ j, k ≤ j ∧ j < len ∧ P j t.kmem ∧ ¬ UserAddr m r (va + j) := by
  induction fuel generalizing k a m' d with
  | zero =>
    obtain rfl : k = len := by omega
    exact .pure (.inl ⟨rfl, hP, fun i hi hi' => by omega⟩)
  | succ fuel ih =>
    rw [copyLoop]
    by_cases hlen : len - k = 0
    · obtain rfl : k = len := by omega
      rw [if_pos hlen]
      exact .pure (.inl ⟨rfl, hP, fun i hi hi' => by omega⟩)
    · rw [if_neg hlen]
      obtain rfl := ha (by omega)
      have hsame := htable k m' hP
      refine .bind_run (walkaddr_run _ r (va + k)) ?_
      by_cases hu : UserAddr m r (va + k)
      · obtain ⟨hpos, hle, hpage, hnext⟩ := chunk (va + k) (len - k) hlen
        generalize min (PGSIZE - (va + k - pgrounddown (va + k))) (len - k) = n at *
        have hframe := hsame.frame hu
        rw [if_pos (hsame.userAddr.mpr hu), hframe, if_neg (hm.frame_ne_zero _ hu), sub_pgrounddown]
        refine .bind (hmove k n m' d hP (by omega) hu hpage) fun _ t ht => ?_
        rw [hu.next, Nat.add_assoc, Nat.sub_sub]
        refine .mono (ih (k := k + n) (by omega) (by omega)
          (fun h => by rw [hnext (by omega), Nat.add_assoc]) ht) ?_
        rintro ok u (⟨hok, hend, hall⟩ | ⟨hok, j, hj, hjlen, hend, hno⟩)
        · refine .inl ⟨hok, hend, fun i hi hi' => ?_⟩
          by_cases hin : i < k + n
          · obtain ⟨i', rfl⟩ := Nat.exists_eq_add_of_le hi
            rw [← Nat.add_assoc, userAddr_congr (hpage i' (by omega))]
            exact hu
          · exact hall i (by omega) hi'
        · exact .inr ⟨hok, j, by omega, hjlen, hend, hno⟩
      · rw [if_neg (mt hsame.userAddr.mp hu), if_pos rfl]
        exact .pure (.inr ⟨rfl, k, Nat.le_refl k, by omega, hP, hu⟩)

/-! ### `copyin` -/

theorem memmove_runs (dst src n : ℕ) (s : Phys) : Runs (memmove dst src n) s fun _ t =>
    (∀ a, t.kmem.byte a =
      if dst ≤ a ∧ a < dst + n then s.kmem.byte (src + (a - dst)) else s.kmem.byte a) ∧
    ∀ p, (∀ i < n, (dst + i) / PGSIZE ≠ p) → t.kmem.mem p = s.kmem.mem p := by
  refine .of_eq rfl ⟨fun a => ?_, fun p hp => Kmem.store_mem_of_ne ?_⟩
  · change (s.kmem.store dst (s.kmem.load src n)).byte a = _
    rw [Kmem.byte_store, Kmem.length_load]
    split_ifs with h
    · exact Kmem.load_getD _ _ (by omega) _
    · rfl
  · rw [Kmem.length_load]
    exact hp

/-- Memory after the first `k` bytes at `va` have been copied to the buffer. -/
structure CopiedIn (m : Kmem) (r va buf len k : ℕ) (m' : Kmem) : Prop where
  byte : ∀ a, m'.byte a = if buf ≤ a ∧ a < buf + k then userByte m r (va + (a - buf)) else m.byte a
  mem : ∀ p, (∀ i < len, (buf + i) / PGSIZE ≠ p) → m'.mem p = m.mem p

theorem CopiedIn.sameTable (h : CopiedIn m r va buf len k m') (hb : Apart m r buf len) :
    SameTable r m m' :=
  .of_mem fun q hq => h.mem q fun i hi => hb.table i hi q hq

/-- The bytes of the user are not in the buffer. -/
theorem CopiedIn.byte_phys (h : CopiedIn m r va buf len k m') (hb : Apart m r buf len)
    (ha : UserAddr m r a) : m'.byte (phys m r a) = userByte m r a := by
  rw [Kmem.byte, phys_div, h.mem, ← phys_div, ← Kmem.byte]
  · rfl
  · exact fun i hi => hb.frame i hi a ha

theorem copyin_spec (hm : UserTable m r) (hb : Apart m r buf len) (d : List Bool) :
    Runs (copyin r buf va len) ⟨m, d⟩ fun ok t =>
      ok = true ∧ CopiedIn m r va buf len len t.kmem ∧ (∀ i < len, UserAddr m r (va + i)) ∨
      ok = false ∧ ∃ j < len, CopiedIn m r va buf len j t.kmem ∧ ¬ UserAddr m r (va + j) := by
  have hstart : CopiedIn m r va buf len 0 m := ⟨fun a => (if_neg (by omega)).symm, fun _ _ => rfl⟩
  refine .mono (copyLoop_spec (k := 0) hm (CopiedIn m r va buf len) (fun k m' h => h.sameTable hb)
    (fun k n m' d h hkn hu hpage => ?_) (Nat.zero_le _) (Nat.le_refl _) (fun _ => rfl) hstart) ?_
  · refine .mono (memmove_runs (buf + k) (phys m r (va + k)) n ⟨m', d⟩)
      fun _ t ⟨hbyte, hmem⟩ => ⟨?_, ?_⟩
    · intro a
      rw [hbyte]
      by_cases hin : buf + k ≤ a ∧ a < buf + k + n
      · obtain ⟨i, rfl⟩ := Nat.exists_eq_add_of_le hin.1
        have hi := hpage i (by omega)
        have hbuf : va + (buf + k + i - buf) = va + k + i := by omega
        rw [if_pos hin, if_pos (by omega), Nat.add_sub_cancel_left, ← phys_add hi, hbuf,
          h.byte_phys hb ((userAddr_congr hi).mpr hu)]
      · rw [if_neg hin, h.byte]
        by_cases hin' : buf ≤ a ∧ a < buf + k
        · rw [if_pos hin', if_pos (by omega)]
        · rw [if_neg hin', if_neg (by omega)]
    · intro p hp
      rw [hmem p, h.mem p hp]
      intro i hi
      rw [Nat.add_assoc]
      exact hp (k + i) (by omega)
  · rintro ok t (⟨hok, hend, hall⟩ | ⟨hok, j, -, hj, hend, hno⟩)
    · exact .inl ⟨hok, hend, fun i hi => hall i (Nat.zero_le i) hi⟩
    · exact .inr ⟨hok, j, hj, hend, hno⟩

/-! ### `copyout` -/

/-- Memory after `k` bytes of the buffer have been copied to `va`. -/
structure CopiedOut (m : Kmem) (r va buf k : ℕ) (m' : Kmem) : Prop where
  user : ∀ i < k, UserAddr m r (va + i)
  byte : ∀ i < k, m'.byte (phys m r (va + i)) = m.byte (buf + i)
  other : ∀ a, (∀ i < k, a ≠ phys m r (va + i)) → m'.byte a = m.byte a
  mem : ∀ p, (∀ a, UserAddr m r a → frame m r (a / PGSIZE) ≠ p) → m'.mem p = m.mem p

theorem CopiedOut.sameTable (h : CopiedOut m r va buf k m') (hm : UserTable m r) :
    SameTable r m m' :=
  .of_mem fun q hq => h.mem q fun a ha => hm.frame_ne_table a q ha hq

/-- The buffer is in no frame of the user. -/
theorem CopiedOut.byte_buf {i : ℕ} (h : CopiedOut m r va buf k m') (hb : Apart m r buf len)
    (hi : i < len) : m'.byte (buf + i) = m.byte (buf + i) := by
  rw [Kmem.byte, h.mem, ← Kmem.byte]
  exact fun a ha => (hb.frame i hi a ha).symm

theorem copyout_spec (hm : UserTable m r) (hb : Apart m r buf len) (d : List Bool) :
    Runs (copyout r va buf len) ⟨m, d⟩ fun ok t =>
      ok = true ∧ CopiedOut m r va buf len t.kmem ∨
      ok = false ∧ ∃ j < len, CopiedOut m r va buf j t.kmem ∧ ¬ UserAddr m r (va + j) := by
  have hstart : CopiedOut m r va buf 0 m := by
    refine ⟨fun i hi => ?_, fun i hi => ?_, fun _ _ => rfl, fun _ _ => rfl⟩ <;>
      exact absurd hi (Nat.not_lt_zero i)
  refine .mono (copyLoop_spec (k := 0) hm (CopiedOut m r va buf) (fun k m' h => h.sameTable hm)
    (fun k n m' d h hkn hu hpage => ?_) (Nat.zero_le _) (Nat.le_refl _) (fun _ => rfl) hstart) ?_
  · have huser (i : ℕ) (hi : i < n) : UserAddr m r (va + k + i) :=
      (userAddr_congr (hpage i hi)).mpr hu
    have hphys (i : ℕ) (hi : i < n) : phys m r (va + k + i) = phys m r (va + k) + i :=
      phys_add (hpage i hi)
    refine .mono (memmove_runs (phys m r (va + k)) (buf + k) n ⟨m', d⟩) fun _ t ⟨hbyte, hmem⟩ => ?_
    have hold (i : ℕ) (hi : i < k) : UserAddr m r (va + i) := h.user i hi
    refine ⟨fun i hi => ?_, fun i hi => ?_, fun a ha => ?_, fun p hp => ?_⟩
    · by_cases hik : i < k
      · exact h.user i hik
      · obtain ⟨j, rfl⟩ := Nat.exists_eq_add_of_le (Nat.le_of_not_lt hik)
        rw [← Nat.add_assoc]
        exact huser j (by omega)
    · by_cases hik : i < k
      · -- what has been copied before lies elsewhere
        rw [hbyte, if_neg, h.byte i hik]
        rintro ⟨hlow, hhigh⟩
        obtain ⟨j, hj⟩ := Nat.exists_eq_add_of_le hlow
        have hjn : j < n := by omega
        rw [← hphys j hjn] at hj
        have := hm.phys_inj (h.user i hik) (huser j hjn) hj
        omega
      · obtain ⟨j, rfl⟩ := Nat.exists_eq_add_of_le (Nat.le_of_not_lt hik)
        rw [← Nat.add_assoc, hphys j (by omega), hbyte, if_pos (by omega), Nat.add_sub_cancel_left,
          Nat.add_assoc, h.byte_buf hb (by omega)]
    · rw [hbyte, if_neg, h.other a fun i hi => ha i (by omega)]
      rintro ⟨hlow, hhigh⟩
      obtain ⟨j, rfl⟩ := Nat.exists_eq_add_of_le hlow
      refine ha (k + j) (by omega) ?_
      rw [← Nat.add_assoc, hphys j (by omega)]
    · rw [hmem p fun i hi => ?_, h.mem p hp]
      rw [← hphys i hi, phys_div]
      exact hp _ (huser i hi)
  · rintro ok t (⟨hok, hend, -⟩ | ⟨hok, j, -, hj, hend, hno⟩)
    · exact .inl ⟨hok, hend⟩
    · exact .inr ⟨hok, j, hj, hend, hno⟩

/-- The memory of the user after the copy. -/
theorem CopiedOut.userMem (h : CopiedOut m r va buf k m') (hm : UserTable m r)
    (hend : k = len ∨ k < len ∧ ¬ UserAddr m r (va + k)) :
    m'.userMem r = (m.userMem r).fill va (m.load buf len) := by
  have hsame := h.sameTable hm
  have hpage (v : ℕ) : m'.userPage r v = m.userPage r v := by
    have hiff : m'.userPage r (v * PGSIZE / PGSIZE) = true ↔
        m.userPage r (v * PGSIZE / PGSIZE) = true :=
      userAddr_iff.trans (hsame.userAddr.trans userAddr_iff.symm)
    rw [Nat.mul_div_cancel _ (by decide)] at hiff
    exact Bool.eq_iff_iff.2 hiff
  have hother (a : ℕ) (ha : ∀ i < k, a ≠ va + i) : (m'.userMem r).mem a = (m.userMem r).mem a := by
    rw [userMem_mem, userMem_mem]
    refine if_ctx_congr hsame.userAddr (fun hu => ?_) fun _ => rfl
    rw [userByte, hsame.phys hu, h.other _ fun i hi he => ha i hi (hm.phys_inj hu (h.user i hi) he)]
    rfl
  refine UserMem.ext ?_ (funext fun a => ?_)
  · rw [UserMem.fill_mapped]
    exact funext hpage
  by_cases hva : va ≤ a
  swap
  · rw [UserMem.fill_mem_of_lt (not_le.1 hva), hother a fun i _ => by omega]
  obtain ⟨i, rfl⟩ := Nat.exists_eq_add_of_le hva
  rw [UserMem.fill_mem]
  by_cases hi : i < k
  · have hmapped : (m.userMem r).Mapped va (i + 1) := fun j hj =>
      userAddr_iff.2 (h.user j (by omega))
    rw [if_pos hmapped, Kmem.load_getD _ _ (by omega), userMem_mem,
      if_pos (hsame.userAddr.2 (h.user i hi)), userByte, hsame.phys (h.user i hi), h.byte i hi]
  · rw [hother (va + i) fun j hj => by omega]
    split_ifs with hmapped
    · -- everything has been copied, since `va + k` is mapped
      have hlen : k = len := hend.resolve_right fun h => h.2 (userAddr_iff.1 (hmapped k (by omega)))
      rw [List.getD_eq_default _ _ (by rw [Kmem.length_load]; omega)]
    · rfl

/-- **Copying from a buffer is copying by virtual address.** -/
theorem copyout_userMem (hm : UserTable m r) (hb : Apart m r buf len) (d : List Bool) :
    Runs (copyout r va buf len) ⟨m, d⟩ fun ok t =>
      (ok, t.kmem.userMem r) = (m.userMem r).copyout va (m.load buf len) := by
  refine (copyout_spec hm hb d).mono ?_
  rw [UserMem.copyout_eq, Kmem.length_load]
  rintro ok t (⟨rfl, h⟩ | ⟨rfl, j, hj, h, hno⟩)
  · have hall : (m.userMem r).Mapped va len := fun i hi => userAddr_iff.2 (h.user i hi)
    rw [h.userMem hm (.inl rfl), decide_eq_true hall]
  · have hnone : ¬ (m.userMem r).Mapped va len := fun hall => hno (userAddr_iff.1 (hall j hj))
    rw [h.userMem hm (.inr ⟨hj, hno⟩), decide_eq_false hnone]

/-! ### `copyinstr` -/

/-- Memory after the first `k` bytes at `va`, none of which is zero, have been copied to the buffer.
-/
structure CopiedString (m : Kmem) (r va buf len k : ℕ) (m' : Kmem) : Prop extends
    CopiedIn m r va buf len k m' where
  user : ∀ i < k, UserAddr m r (va + i)
  ne_zero : ∀ i < k, userByte m r (va + i) ≠ 0

/-- A byte is copied to the buffer. -/
theorem CopiedIn.setByte (h : CopiedIn m r va buf len k m') (hk : k < len) :
    CopiedIn m r va buf len (k + 1) (m'.setByte (buf + k) (userByte m r (va + k))) := by
  refine ⟨fun a => ?_, fun p hp => ?_⟩
  · rw [Kmem.byte_setByte]
    by_cases ha : a = buf + k
    · rw [if_pos ha, if_pos (by omega), ha, Nat.add_sub_cancel_left]
    · rw [if_neg ha, h.byte]
      by_cases hin : buf ≤ a ∧ a < buf + k
      · rw [if_pos hin, if_pos (by omega)]
      · rw [if_neg hin, if_neg (by omega)]
  · rw [Kmem.setByte_mem_of_ne _ (hp k hk), h.mem p hp]

/-- What the loops of `copyinstr` have done: they have copied a string with its zero, or `k` bytes
that are not zero. -/
def StringCopied (m : Kmem) (r va buf len : ℕ) (ok : Bool) (k : ℕ) (m' : Kmem) : Prop :=
  if ok then k < len ∧ UserAddr m r (va + k) ∧ userByte m r (va + k) = 0 ∧
    (∀ i < k, UserAddr m r (va + i) ∧ userByte m r (va + i) ≠ 0) ∧
    CopiedIn m r va buf len (k + 1) m'
  else CopiedString m r va buf len k m'

/-- The inner loop, over `n` bytes of a page. -/
theorem stringLoop_spec (hb : Apart m r buf len) (hkn : k + n ≤ len)
    (hu : ∀ i < n, UserAddr m r (va + k + i)) (hphys : ∀ i < n, phys m r (va + k + i) = a + i)
    (h : CopiedString m r va buf len k m') :
    Runs (stringLoop n a (buf + k) (len - k)) ⟨m', d⟩ fun o t =>
      ∃ j, StringCopied m r va buf len o.1 j t.kmem ∧
        (o.1 = false → j = k + n ∧ o.2 = (buf + j, len - j)) := by
  induction n generalizing k a m' d with
  | zero => exact .pure ⟨k, h, fun _ => ⟨rfl, rfl⟩⟩
  | succ n ih =>
    rw [stringLoop]
    have huk : UserAddr m r (va + k) := hu 0 (Nat.succ_pos n)
    have hread : m'.byte a = userByte m r (va + k) := by
      rw [← h.byte_phys hb huk]
      exact congrArg m'.byte (hphys 0 (Nat.succ_pos n)).symm
    have hset := h.setByte (show k < len by omega)
    refine .bind_run (show (readByte a).run ⟨m', d⟩ = .ok (m'.byte a, ⟨m', d⟩) from rfl) ?_
    rw [hread]
    by_cases hc : userByte m r (va + k) = 0
    · rw [if_pos hc]
      rw [hc] at hset
      refine .bind_run (show (writeByte (buf + k) 0).run ⟨m', d⟩ =
        .ok ((), ⟨m'.setByte (buf + k) 0, d⟩) from rfl) ?_
      refine .pure ⟨k, ⟨by omega, huk, hc, fun i hi => ⟨h.user i hi, h.ne_zero i hi⟩, hset⟩, nofun⟩
    · rw [if_neg hc]
      refine .bind_run (show (writeByte (buf + k) (userByte m r (va + k))).run ⟨m', d⟩ =
        .ok ((), ⟨m'.setByte (buf + k) (userByte m r (va + k)), d⟩) from rfl) ?_
      have hnext : CopiedString m r va buf len (k + 1)
          (m'.setByte (buf + k) (userByte m r (va + k))) := by
        refine ⟨hset, fun i hi => ?_, fun i hi => ?_⟩
        · obtain hi | rfl := Nat.lt_succ_iff_lt_or_eq.mp hi
          · exact h.user i hi
          · exact huk
        · obtain hi | rfl := Nat.lt_succ_iff_lt_or_eq.mp hi
          · exact h.ne_zero i hi
          · exact hc
      have hshift (i : ℕ) : va + (k + 1) + i = va + k + (i + 1) := by omega
      refine .mono (ih (k := k + 1) (by omega) (fun i hi => ?_) (fun i hi => ?_) hnext) ?_
      · rw [hshift]
        exact hu (i + 1) (by omega)
      · rw [hshift, hphys (i + 1) (by omega)]
        omega
      · rintro o t ⟨j, hj, hend⟩
        exact ⟨j, hj, fun ho => ⟨by have := (hend ho).1; omega, (hend ho).2⟩⟩

/-- **The outer loop** goes on up to a zero, to the first byte that the user does not have, or to
the end of the buffer. -/
theorem copyinstrLoop_spec (hm : UserTable m r) (hb : Apart m r buf len) (hk : k ≤ len)
    (hfuel : len - k ≤ fuel) (ha : k < len → a = va + k) (h : CopiedString m r va buf len k m') :
    Runs (copyinstrLoop r fuel (buf + k) a (len - k)) ⟨m', d⟩ fun ok t =>
      ∃ j, StringCopied m r va buf len ok j t.kmem ∧
        (ok = false → j = len ∨ j < len ∧ ¬ UserAddr m r (va + j)) := by
  induction fuel generalizing k a m' d with
  | zero =>
    obtain rfl : k = len := by omega
    exact .pure ⟨k, h, fun _ => .inl rfl⟩
  | succ fuel ih =>
    rw [copyinstrLoop]
    by_cases hlen : len - k = 0
    · obtain rfl : k = len := by omega
      rw [if_pos hlen]
      exact .pure ⟨k, h, fun _ => .inl rfl⟩
    · rw [if_neg hlen]
      obtain rfl := ha (by omega)
      have hsame := h.sameTable hb
      refine .bind_run (walkaddr_run _ r (va + k)) ?_
      by_cases hu : UserAddr m r (va + k)
      · obtain ⟨hpos, hle, hpage, hnext⟩ := chunk (va + k) (len - k) hlen
        generalize min (PGSIZE - (va + k - pgrounddown (va + k))) (len - k) = n at *
        have hframe := hsame.frame hu
        rw [if_pos (hsame.userAddr.mpr hu), hframe, if_neg (hm.frame_ne_zero _ hu), sub_pgrounddown]
        refine .bind
          (stringLoop_spec hb (by omega) (fun i hi => (userAddr_congr (hpage i hi)).mpr hu)
          (fun i hi => phys_add (hpage i hi)) h) ?_
        rintro ⟨got, dst, max⟩ t ⟨j, hj, hend⟩
        cases got with
        | true => exact .pure ⟨j, hj, nofun⟩
        | false =>
          obtain ⟨rfl, hrest⟩ := hend rfl
          obtain ⟨rfl, rfl⟩ := Prod.mk.inj hrest
          rw [hu.next]
          exact ih (k := k + n) (by omega) (by omega)
            (fun _ => by rw [hnext (by omega), Nat.add_assoc]) hj
      · rw [if_neg (mt hsame.userAddr.mp hu), if_pos rfl]
        exact .pure ⟨k, h, fun _ => .inr ⟨by omega, hu⟩⟩

/-! ### Byte by byte -/

/-- Outside of the buffer nothing is written. -/
theorem CopiedIn.outside (h : CopiedIn m r va buf len k m') (ha : ∀ i < k, a ≠ buf + i) :
    m'.byte a = m.byte a := by
  rw [h.byte, if_neg]
  rintro ⟨hlow, hhigh⟩
  obtain ⟨i, rfl⟩ := Nat.exists_eq_add_of_le hlow
  exact ha i (by omega) rfl

theorem CopiedIn.inside {i : ℕ} (h : CopiedIn m r va buf len k m') (hi : i < k) :
    m'.byte (buf + i) = userByte m r (va + i) := by
  rw [h.byte, if_pos (by omega), Nat.add_sub_cancel_left]

/-- **Copies in pieces are copies byte by byte.** `copyin` and `copyout` succeed if and only if the
user has every byte; then every byte is copied, and in any case nothing else is written. `copyinstr`
succeeds if and only if the user has a zero within the first `len` bytes and every byte before it;
then the string up to the zero is copied, and in any case nothing outside of the buffer is written.
`copyin` after `copyout` gives what has been written. -/
theorem copies_bytewise {s : Phys} (hm : UserTable s.kmem r) (hb : Apart s.kmem r buf len)
    (va : ℕ) :
    Runs (copyin r buf va len) s (fun ok t =>
      (ok = true ↔ ∀ i < len, UserAddr s.kmem r (va + i)) ∧
      (ok = true → ∀ i < len, t.kmem.byte (buf + i) = userByte s.kmem r (va + i)) ∧
      ∀ a, (∀ i < len, a ≠ buf + i) → t.kmem.byte a = s.kmem.byte a) ∧
    Runs (copyout r va buf len) s (fun ok t =>
      (ok = true ↔ ∀ i < len, UserAddr s.kmem r (va + i)) ∧
      (ok = true → ∀ i < len, userByte t.kmem r (va + i) = s.kmem.byte (buf + i)) ∧
      (∀ a, (∀ i < len, UserAddr s.kmem r (va + i) → a ≠ phys s.kmem r (va + i)) →
        t.kmem.byte a = s.kmem.byte a) ∧
      (ok = true → ∀ dst, Apart s.kmem r dst len → Runs (copyin r dst va len) t fun ok u =>
        ok = true ∧ ∀ i < len, u.kmem.byte (dst + i) = s.kmem.byte (buf + i))) ∧
    Runs (copyinstr r buf va len) s fun ok t =>
      (ok = true ↔ ∃ k < len, (∀ i ≤ k, UserAddr s.kmem r (va + i)) ∧
        userByte s.kmem r (va + k) = 0) ∧
      (ok = true → ∃ k < len, userByte s.kmem r (va + k) = 0 ∧
        (∀ i < k, userByte s.kmem r (va + i) ≠ 0) ∧
        (∀ i ≤ k, t.kmem.byte (buf + i) = userByte s.kmem r (va + i)) ∧
        ∀ a, (∀ i ≤ k, a ≠ buf + i) → t.kmem.byte a = s.kmem.byte a) ∧
      ∀ a, (∀ i < len, a ≠ buf + i) → t.kmem.byte a = s.kmem.byte a := by
  refine ⟨?_, ?_, ?_⟩
  · refine .mono (copyin_spec hm hb s.denied) ?_
    rintro ok t (⟨rfl, hend, hall⟩ | ⟨rfl, j, hj, hend, hno⟩)
    · exact ⟨iff_of_true rfl hall, fun _ i hi => hend.inside hi, fun a ha => hend.outside ha⟩
    · exact ⟨iff_of_false nofun fun hall => hno (hall j hj), nofun,
        fun a ha => hend.outside fun i hi => ha i (by omega)⟩
  · refine .mono (copyout_spec hm hb s.denied) ?_
    rintro ok t (⟨rfl, hend⟩ | ⟨rfl, j, hj, hend, hno⟩)
    · have hsame := hend.sameTable hm
      have hbyte (i : ℕ) (hi : i < len) : userByte t.kmem r (va + i) = s.kmem.byte (buf + i) := by
        rw [userByte, hsame.phys (hend.user i hi), hend.byte i hi]
      refine ⟨iff_of_true rfl hend.user, fun _ => hbyte,
        fun a ha => hend.other a fun i hi => ha i hi (hend.user i hi), fun _ dst hdst => ?_⟩
      refine .mono (copyin_spec (hsame.userTable hm) (hsame.apart hdst) t.denied) ?_
      rintro ok u (⟨rfl, hin, -⟩ | ⟨rfl, j, hj, -, hno⟩)
      · refine ⟨rfl, fun i hi => ?_⟩
        rw [hin.inside hi, hbyte i hi]
      · exact absurd (hsame.userAddr.mpr (hend.user j hj)) hno
    · exact ⟨iff_of_false nofun fun hall => hno (hall j hj), nofun,
        fun a ha => hend.other a fun i hi => ha i (by omega) (hend.user i hi), nofun⟩
  · have hstart : CopiedString s.kmem r va buf len 0 s.kmem := by
      refine ⟨⟨fun a => (if_neg (by omega)).symm, fun _ _ => rfl⟩, fun i hi => ?_,
        fun i hi => ?_⟩ <;> exact absurd hi (Nat.not_lt_zero i)
    refine .mono (copyinstrLoop_spec (k := 0) hm hb (Nat.zero_le _) (Nat.le_refl _) (fun _ => rfl)
      hstart) ?_
    rintro ok t ⟨j, hj, hend⟩
    cases ok with
    | true =>
      obtain ⟨hlt, hu, hzero, hbefore, hcopy⟩ := hj
      have huser (i : ℕ) (hi : i ≤ j) : UserAddr s.kmem r (va + i) := by
        obtain hi | rfl := Nat.lt_or_eq_of_le hi
        · exact (hbefore i hi).1
        · exact hu
      refine ⟨iff_of_true rfl ⟨j, hlt, huser, hzero⟩,
        fun _ => ⟨j, hlt, hzero, fun i hi => (hbefore i hi).2,
        fun i hi => hcopy.inside (Nat.lt_succ_of_le hi), fun a ha => hcopy.outside fun i hi =>
        ha i (by omega)⟩,
        fun a ha => hcopy.outside fun i hi => ha i (by omega)⟩
    | false =>
      have hstop := hend rfl
      have hj : CopiedString s.kmem r va buf len j t.kmem := hj
      refine ⟨iff_of_false nofun ?_, nofun, fun a ha => hj.outside fun i hi => ha i (by omega)⟩
      rintro ⟨k, hk, hu, hzero⟩
      by_cases hkj : k < j
      · exact hj.ne_zero k hkj hzero
      · obtain rfl | ⟨hjlen, hno⟩ := hstop
        · exact hkj hk
        · exact hno (hu j (by omega))

/-- A page table in pages 1 to 3 that maps page 0 of a user to frame 4. -/
def onePage : Phys where
  kmem := ⟨fun p k => if k = 0 ∧ 1 ≤ p ∧ p ≤ 2 then pa2pte (p + 1) ||| PTE_V
    else if k = 0 ∧ p = 3 then pa2pte 4 ||| (PTE_V ||| PTE_R ||| PTE_W ||| PTE_U) else 0, 0, 6⟩
  denied := []

/-- Pages 1 to 3 are a page table with one entry `e`, for page 0 of the user. -/
def OneEntry (m : Kmem) (e : Word) : Prop := ∀ p ≤ 3, ∀ k, m.mem p k =
  if k = 0 ∧ 1 ≤ p ∧ p ≤ 2 then pa2pte (p + 1) ||| PTE_V else if k = 0 ∧ p = 3 then e else 0

namespace OneEntry

variable {e : Word}

theorem child (h : OneEntry m e) {p q : ℕ} {k : Fin 512} (hq : m.child p k = some q) (hp : p ≤ 2) :
    k = 0 ∧ 1 ≤ p ∧ q = p + 1 := by
  rw [Kmem.child, h p (by omega)] at hq
  split_ifs at hq with hk hv hk'
  · rw [pte2pa_node (by omega)] at hq
    exact ⟨hk.1, hk.2.1, (Option.some.inj hq).symm⟩
  · omega
  · exact absurd rfl ‹(0 : Word) &&& PTE_V ≠ 0›

theorem level0 (h : OneEntry m e) {v q : ℕ} (hq : m.level0 1 v = some q) :
    px 2 (v * PGSIZE) = 0 ∧ px 1 (v * PGSIZE) = 0 ∧ q = 3 := by
  obtain ⟨p, hp, hq⟩ := Option.bind_eq_some_iff.mp hq
  obtain ⟨hk₂, -, rfl⟩ := h.child hp (by omega)
  obtain ⟨hk₁, -, rfl⟩ := h.child hq (by omega)
  exact ⟨hk₂, hk₁, rfl⟩

/-- The user has page 0 only, and its entry is `e`. -/
theorem userAddr (h : OneEntry m e) (ha : UserAddr m 1 a) :
    a / PGSIZE = 0 ∧ frame m 1 (a / PGSIZE) = pte2pa e := by
  obtain ⟨hlt, hv, -⟩ := ha
  rw [frame]
  rw [Kmem.pte] at hv ⊢
  cases hl : m.level0 1 (a / PGSIZE) with
  | none =>
    rw [hl] at hv
    exact absurd (show (0 : Word) &&& PTE_V = 0 from rfl) hv
  | some q =>
    obtain ⟨hk₂, hk₁, rfl⟩ := h.level0 hl
    rw [hl] at hv
    have hpte : m.mem 3 (px 0 (a / PGSIZE * PGSIZE)) = _ := h 3 le_rfl _
    change m.mem 3 (px 0 (a / PGSIZE * PGSIZE)) &&& PTE_V ≠ 0 at hv
    rw [hpte, if_neg (by omega)] at hv
    have hk₀ : px 0 (a / PGSIZE * PGSIZE) = 0 := by
      by_contra hk
      rw [if_neg fun h => hk h.1] at hv
      exact hv rfl
    refine ⟨?_, ?_⟩
    · have h₂ := px_val 2 (a / PGSIZE)
      have h₁ := px_val 1 (a / PGSIZE)
      have h₀ := px_val 0 (a / PGSIZE)
      rw [hk₂] at h₂
      rw [hk₁] at h₁
      rw [hk₀] at h₀
      have hlt : a < 2 ^ 38 := hlt
      change 0 = a / 4096 / 512 ^ 2 % 512 at h₂
      change 0 = a / 4096 / 512 ^ 1 % 512 at h₁
      change 0 = a / 4096 / 512 ^ 0 % 512 at h₀
      change a / 4096 = 0
      omega
    · change pte2pa (m.mem 3 (px 0 (a / PGSIZE * PGSIZE))) = _
      rw [hpte, if_neg (by omega), if_pos ⟨hk₀, rfl⟩]

theorem isTable (h : OneEntry m e) {q : ℕ} (hq : IsTable m 1 q) : q ≤ 3 := by
  obtain rfl | ⟨v, -, hc | hl⟩ := hq
  · omega
  · obtain ⟨-, -, rfl⟩ := h.child hc (by omega)
    omega
  · obtain ⟨-, -, rfl⟩ := h.level0 hl
    omega

theorem userTable (h : OneEntry m e) (he : 3 < pte2pa e) : UserTable m 1 := by
  refine ⟨fun a b ha hb _ => ?_, fun a ha => ?_, fun a q ha hq => ?_⟩
  · rw [(h.userAddr ha).1, (h.userAddr hb).1]
  · rw [(h.userAddr ha).2]
    omega
  · rw [(h.userAddr ha).2]
    have := h.isTable hq
    omega

theorem apart (h : OneEntry m e) {p : ℕ} (hp : 3 < p) (he : p ≠ pte2pa e) (hlen : len ≤ PGSIZE) :
    Apart m 1 (p * PGSIZE) len := by
  have hpage (i : ℕ) (hi : i < len) : (p * PGSIZE + i) / PGSIZE = p := by
    change len ≤ 4096 at hlen
    change (p * 4096 + i) / 4096 = p
    omega
  refine ⟨fun i hi q hq => ?_, fun i hi a ha => ?_⟩
  · rw [hpage i hi]
    have := h.isTable hq
    omega
  · rw [hpage i hi, (h.userAddr ha).2]
    exact he

end OneEntry

theorem copies_bytewise_onePage : UserTable onePage.kmem 1 ∧ Apart onePage.kmem 1 (5 * PGSIZE) 2 ∧
    Runs (copyin 1 (5 * PGSIZE) 0 2) onePage (fun ok _ => ok = true) ∧
    Runs (copyin 1 (5 * PGSIZE) (PGSIZE - 1) 2) onePage fun ok _ => ok = false := by
  have h : OneEntry onePage.kmem (pa2pte 4 ||| (PTE_V ||| PTE_R ||| PTE_W ||| PTE_U)) :=
    fun _ _ _ => rfl
  have hm := h.userTable (by decide)
  have hb : Apart onePage.kmem 1 (5 * PGSIZE) 2 := h.apart (by decide) (by decide) (by decide)
  refine ⟨hm, hb, (copies_bytewise hm hb 0).1.mono fun ok t h => ?_,
    (copies_bytewise hm hb (PGSIZE - 1)).1.mono fun ok t h => ?_⟩
  · rw [h.1]
    decide +kernel
  · rw [Bool.eq_false_iff, Ne, h.1]
    decide +kernel

end UserCopy

end Xv6
