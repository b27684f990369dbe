import Xv6.Vm.Process

/-!
# The arguments of a program

`exec` puts the arguments on the stack of the new image: the strings from the top down, each at a
multiple of 16, then the array of pointers to them. Here this is done to the memory of a user by
virtual address. The arguments fit into the stack page or they do not, and if they do, whoever
follows the pointers reads the arguments again.
-/

namespace Xv6

open Vm

/-! ### Sizes -/

/-- The next multiple of 16. -/
def roundUp16 (n : ℕ) : ℕ := (n + 15) / 16 * 16

/-- What a string takes, with the zero byte that ends it. -/
def stringSize (s : List (BitVec 8)) : ℕ := roundUp16 (s.length + 1)

/-- What the strings take. -/
def stringsSize (argv : List (List (BitVec 8))) : ℕ := (argv.map stringSize).sum

/-- What the arguments take: the strings, and the array of pointers with the null pointer. -/
def stackSize (argv : List (List (BitVec 8))) : ℕ :=
  stringsSize argv + roundUp16 ((argv.length + 1) * 8)

@[simp] theorem stringsSize_nil : stringsSize [] = 0 := rfl

@[simp] theorem stringsSize_cons (s : List (BitVec 8)) (argv : List (List (BitVec 8))) :
    stringsSize (s :: argv) = stringSize s + stringsSize argv := List.sum_cons

theorem roundUp16_mod (n : ℕ) : roundUp16 n % 16 = 0 := by
  rw [roundUp16]
  omega

theorem stringsSize_mod (argv : List (List (BitVec 8))) : stringsSize argv % 16 = 0 := by
  induction argv with
  | nil => rfl
  | cons s argv ih =>
    have : stringSize s % 16 = 0 := roundUp16_mod _
    rw [stringsSize_cons]
    omega

theorem le_roundUp16 (n : ℕ) : n ≤ roundUp16 n := by
  rw [roundUp16]
  omega

/-- What is left of the stack pointer after `k` bytes have been taken, in unsigned arithmetic. -/
def takeDown (sp k : ℕ) : ℕ := (sp + 2 ^ 64 - k) % 2 ^ 64 - (sp + 2 ^ 64 - k) % 2 ^ 64 % 16

/-- Taking `k` bytes and rounding down, when there are that many. -/
theorem sub_round {sp k : ℕ} (h16 : sp % 16 = 0) (hk : k ≤ sp) (hsp : sp < 2 ^ 64) :
    takeDown sp k = sp - roundUp16 k ∧ roundUp16 k ≤ sp := by
  have hmod : (sp + 2 ^ 64 - k) % 2 ^ 64 = sp - k := by omega
  rw [takeDown, hmod, roundUp16]
  omega

/-- When there are not that many, the result is too large for an address. -/
theorem le_takeDown {sp k : ℕ} (hk : sp < k) (hk' : k < 2 ^ 31) :
    2 ^ 38 + 4096 ≤ takeDown sp k := by
  have hmod : (sp + 2 ^ 64 - k) % 2 ^ 64 = sp + 2 ^ 64 - k := Nat.mod_eq_of_lt (by omega)
  rw [takeDown, hmod]
  omega

/-! ### Pushing -/

namespace UserMem

variable {u : UserMem} {stackbase sp : ℕ} {s : List (BitVec 8)} {argv : List (List (BitVec 8))}
  {ustack : List ℕ}

/-- The loop of `exec` over the arguments, and what comes after it, on the memory of a user. -/
def pushArgs (stackbase : ℕ) :
    UserMem → List (List (BitVec 8)) → List ℕ → ℕ → Option ℕ × UserMem
  | u, [], ustack, sp =>
    let sp := (sp + 2 ^ 64 - (ustack.length + 1) * 8) % 2 ^ 64
    let sp := sp - sp % 16
    if sp < stackbase then (none, u)
    else
      let r := u.copyout sp (wordBytes (ustack ++ [0]))
      (if r.1 then some sp else none, r.2)
  | u, s :: argv, ustack, sp =>
    if MAXARG ≤ ustack.length then (none, u)
    else
      let sp := (sp + 2 ^ 64 - (s.length + 1)) % 2 ^ 64
      let sp := sp - sp % 16
      if sp < stackbase then (none, u)
      else
        let r := u.copyout sp (s ++ [0])
        if r.1 then pushArgs stackbase r.2 argv (ustack ++ [sp]) sp else (none, r.2)

/-- Where the strings go, from `sp` down. -/
def pointers : ℕ → List (List (BitVec 8)) → List ℕ
  | _, [] => []
  | sp, s :: argv => (sp - stringSize s) :: pointers (sp - stringSize s) argv

/-- The memory with the strings in it. -/
def pushed : UserMem → ℕ → List (List (BitVec 8)) → UserMem
  | u, _, [] => u
  | u, sp, s :: argv => pushed (u.write (sp - stringSize s) (s ++ [0])) (sp - stringSize s) argv

@[simp] theorem pushed_mapped : (u.pushed sp argv).mapped = u.mapped := by
  induction argv generalizing u sp with
  | nil => rfl
  | cons s argv ih => rw [pushed, ih, write_mapped]

@[simp] theorem length_pointers (sp : ℕ) (argv : List (List (BitVec 8))) :
    (pointers sp argv).length = argv.length := by
  induction argv generalizing sp with
  | nil => rfl
  | cons s argv ih => rw [pointers, List.length_cons, ih, List.length_cons]

theorem length_wordBytes (xs : List ℕ) : (wordBytes xs).length = xs.length * 8 := by
  induction xs with
  | nil => rfl
  | cons x xs ih =>
    rw [wordBytes, List.flatMap_cons, List.length_append, length_leBytes, ← wordBytes, ih,
      List.length_cons]
    omega

/-- The stack page of a new image: one page that is there, in the lower half of the address space
with nothing above it. -/
structure Stack (u : UserMem) (stackbase : ℕ) : Prop where
  aligned : stackbase % PGSIZE = 0
  pos : PGSIZE ≤ stackbase
  lt : stackbase < MAXVA
  mapped : u.mapped (stackbase / PGSIZE) = true
  above : ∀ v, MAXVA ≤ v * PGSIZE → u.mapped v = false

variable {a k va p a1 fuel : ℕ}

theorem Stack.mapped_of_le (h : Stack u stackbase) (ha : stackbase ≤ a)
    (hk : a + k ≤ stackbase + PGSIZE) : u.Mapped a k := by
  have h₁ : stackbase % 4096 = 0 := h.aligned
  have h₂ : a + k ≤ stackbase + 4096 := hk
  intro i hi
  have hpage : (a + i) / PGSIZE = stackbase / PGSIZE := by
    change (a + i) / 4096 = stackbase / 4096
    omega
  rw [hpage, h.mapped]

theorem Stack.write (h : Stack u stackbase) (va : ℕ) (src : List (BitVec 8)) :
    Stack (u.write va src) stackbase :=
  ⟨h.aligned, h.pos, h.lt, h.mapped, h.above⟩

/-- What is still to be pushed when `ustack` has been filled this far. -/
def need (argv : List (List (BitVec 8))) (ustack : List ℕ) : ℕ :=
  stringsSize argv + roundUp16 ((ustack.length + argv.length + 1) * 8)

theorem need_cons (p : ℕ) :
    need (s :: argv) ustack = stringSize s + need argv (ustack ++ [p]) := by
  have hlen : (ustack ++ [p]).length + argv.length = ustack.length + (s :: argv).length := by
    rw [List.length_append, List.length_singleton, List.length_cons]
    omega
  rw [need, need, hlen, stringsSize_cons, Nat.add_assoc]

theorem pushArgs_cons_eq (hargc : ustack.length < MAXARG) :
    pushArgs stackbase u (s :: argv) ustack sp =
      if takeDown sp (s.length + 1) < stackbase then (none, u)
      else if (u.copyout (takeDown sp (s.length + 1)) (s ++ [0])).1 then
        pushArgs stackbase (u.copyout (takeDown sp (s.length + 1)) (s ++ [0])).2 argv
          (ustack ++ [takeDown sp (s.length + 1)]) (takeDown sp (s.length + 1))
      else (none, (u.copyout (takeDown sp (s.length + 1)) (s ++ [0])).2) := by
  rw [pushArgs, if_neg (not_le.2 hargc)]
  rfl

/-- The string at the top fits. -/
theorem pushArgs_cons (h : Stack u stackbase) (h16 : sp % 16 = 0)
    (hsp : sp ≤ stackbase + PGSIZE) (hargc : ustack.length < MAXARG)
    (hfits : stackbase + stringSize s ≤ sp) :
    pushArgs stackbase u (s :: argv) ustack sp =
      pushArgs stackbase (u.write (sp - stringSize s) (s ++ [0])) argv
        (ustack ++ [sp - stringSize s]) (sp - stringSize s) := by
  have hlt : stackbase < 2 ^ 38 := h.lt
  have hsp' : sp ≤ stackbase + 4096 := hsp
  have hle := le_roundUp16 (s.length + 1)
  have hsize : stringSize s = roundUp16 (s.length + 1) := rfl
  obtain ⟨heq, -⟩ := sub_round (k := s.length + 1) h16 (by omega) (by omega)
  rw [pushArgs_cons_eq hargc, heq, ← hsize, if_neg (by omega)]
  have hmapped : u.Mapped (sp - stringSize s) (s ++ [0]).length := by
    refine h.mapped_of_le (by omega) ?_
    rw [List.length_append, List.length_singleton]
    change _ ≤ stackbase + 4096
    omega
  rw [copyout_of_mapped hmapped, if_pos rfl]

/-- The string at the top does not fit: there is no room for it on the page, or not even below the
stack pointer, and then `copyout` is called for an address that is too large. -/
theorem pushArgs_cons_none (h : Stack u stackbase) (h16 : sp % 16 = 0)
    (hsp : sp ≤ stackbase + PGSIZE) (hargc : ustack.length < MAXARG) (hs : s.length + 1 < 2 ^ 31)
    (hfits : ¬ stackbase + stringSize s ≤ sp) :
    (pushArgs stackbase u (s :: argv) ustack sp).1 = none := by
  have hlt : stackbase < 2 ^ 38 := h.lt
  have hsp' : sp ≤ stackbase + 4096 := hsp
  rw [pushArgs_cons_eq hargc]
  by_cases hk : s.length + 1 ≤ sp
  · obtain ⟨heq, hle⟩ := sub_round (k := s.length + 1) h16 hk (by omega)
    have hsize : stringSize s = roundUp16 (s.length + 1) := rfl
    rw [heq, ← hsize, if_pos (by omega)]
  · have hlarge := le_takeDown (not_le.1 hk) hs
    generalize takeDown sp (s.length + 1) = q at hlarge
    have hpage : MAXVA ≤ q / PGSIZE * PGSIZE := by
      change 2 ^ 38 ≤ q / 4096 * 4096
      omega
    have hsrc : s ++ [(0 : BitVec 8)] ≠ [] := by simp
    rw [if_neg (by omega), copyout_of_not_mapped hsrc (h.above _ hpage), if_neg Bool.false_ne_true]

theorem pushArgs_nil (h : Stack u stackbase) (h16 : sp % 16 = 0) (hbase : stackbase ≤ sp)
    (hsp : sp ≤ stackbase + PGSIZE) (hargc : ustack.length < MAXARG) :
    pushArgs stackbase u [] ustack sp = if stackbase + need [] ustack ≤ sp
      then (some (sp - need [] ustack), u.write (sp - need [] ustack) (wordBytes (ustack ++ [0])))
      else (none, u) := by
  have hlt : stackbase < 2 ^ 38 := h.lt
  have hpos : 4096 ≤ stackbase := h.pos
  have hsp' : sp ≤ stackbase + 4096 := hsp
  have hargc' : ustack.length < 32 := hargc
  have hneed : need [] ustack = roundUp16 ((ustack.length + 1) * 8) := by
    rw [need, stringsSize_nil, Nat.zero_add, List.length_nil, Nat.add_zero]
  obtain ⟨heq, hle⟩ := sub_round (k := (ustack.length + 1) * 8) h16 (by omega) (by omega)
  have hround := le_roundUp16 ((ustack.length + 1) * 8)
  have hround' : pushArgs stackbase u [] ustack sp =
      if takeDown sp ((ustack.length + 1) * 8) < stackbase then (none, u)
      else (if (u.copyout (takeDown sp ((ustack.length + 1) * 8)) (wordBytes (ustack ++ [0]))).1
        then some (takeDown sp ((ustack.length + 1) * 8)) else none,
        (u.copyout (takeDown sp ((ustack.length + 1) * 8)) (wordBytes (ustack ++ [0]))).2) := by
    rw [pushArgs]
    rfl
  rw [hround', heq, ← hneed]
  rw [← hneed] at hle hround
  by_cases hfits : stackbase + need [] ustack ≤ sp
  · rw [if_pos hfits, if_neg (by omega)]
    have hmapped : u.Mapped (sp - need [] ustack) (wordBytes (ustack ++ [0])).length := by
      refine h.mapped_of_le (by omega) ?_
      rw [length_wordBytes, List.length_append, List.length_singleton]
      change _ ≤ stackbase + 4096
      omega
    rw [copyout_of_mapped hmapped, if_pos rfl]
  · rw [if_neg hfits, if_pos (by omega)]

/-- The arguments fit. -/
theorem pushArgs_eq (h : Stack u stackbase) (h16 : sp % 16 = 0) (hbase : stackbase ≤ sp)
    (hsp : sp ≤ stackbase + PGSIZE) (hargc : ustack.length + argv.length < MAXARG)
    (hfits : stackbase + need argv ustack ≤ sp) :
    pushArgs stackbase u argv ustack sp = (some (sp - need argv ustack),
      (u.pushed sp argv).write (sp - need argv ustack)
        (wordBytes (ustack ++ pointers sp argv ++ [0]))) := by
  induction argv generalizing u ustack sp with
  | nil => rw [pushArgs_nil h h16 hbase hsp hargc, if_pos hfits, pushed, pointers, List.append_nil]
  | cons s argv ih =>
    rw [List.length_cons] at hargc
    rw [need_cons (sp - stringSize s)] at hfits ⊢
    have h16' : (sp - stringSize s) % 16 = 0 := by
      have := roundUp16_mod (s.length + 1)
      have hsize : stringSize s = roundUp16 (s.length + 1) := rfl
      omega
    have hlen : (ustack ++ [sp - stringSize s]).length = ustack.length + 1 := by
      rw [List.length_append, List.length_singleton]
    rw [pushArgs_cons h h16 hsp (by omega) (by omega)]
    rw [ih (h.write _ _) h16' (by omega) (by omega) (by omega) (by omega), Nat.sub_sub, pushed,
      pointers, List.append_assoc ustack [_], List.singleton_append]

/-- The arguments do not fit. -/
theorem pushArgs_none (h : Stack u stackbase) (h16 : sp % 16 = 0) (hbase : stackbase ≤ sp)
    (hsp : sp ≤ stackbase + PGSIZE) (hargc : ustack.length + argv.length < MAXARG)
    (hlen : ∀ s ∈ argv, s.length + 1 < 2 ^ 31) (hfits : ¬ stackbase + need argv ustack ≤ sp) :
    (pushArgs stackbase u argv ustack sp).1 = none := by
  induction argv generalizing u ustack sp with
  | nil => rw [pushArgs_nil h h16 hbase hsp hargc, if_neg hfits]
  | cons s argv ih =>
    rw [List.length_cons] at hargc
    by_cases hs : stackbase + stringSize s ≤ sp
    · rw [need_cons (sp - stringSize s)] at hfits
      have h16' : (sp - stringSize s) % 16 = 0 := by
        have := roundUp16_mod (s.length + 1)
        have hsize : stringSize s = roundUp16 (s.length + 1) := rfl
        omega
      have hlen' : (ustack ++ [sp - stringSize s]).length = ustack.length + 1 := by
        rw [List.length_append, List.length_singleton]
      rw [pushArgs_cons h h16 hsp (by omega) hs]
      exact ih (h.write _ _) h16' (by omega) (by omega) (by omega)
        (fun s hs => hlen s (List.mem_cons_of_mem _ hs)) (by omega)
    · exact pushArgs_cons_none h h16 hsp (by omega) (hlen s List.mem_cons_self) hs

/-! ### Reading -/

/-- The `uint64` at `a`. -/
def word (u : UserMem) (a : ℕ) : ℕ := readLe 8 u.mem a

/-- The words from `a` on, up to a null pointer, if there is one among the first `fuel`. -/
def readPointers : ℕ → UserMem → ℕ → List ℕ
  | 0, _, _ => []
  | fuel + 1, u, a => if u.word a = 0 then [] else u.word a :: readPointers fuel u (a + 8)

/-- The bytes from `a` on, up to a zero byte, if there is one among the first `fuel`. -/
def readString : ℕ → UserMem → ℕ → List (BitVec 8)
  | 0, _, _ => []
  | fuel + 1, u, a => if u.mem a = 0 then [] else u.mem a :: readString fuel u (a + 1)

/-- What a program reads that follows the pointers at `a1`. -/
def readArgv (u : UserMem) (a1 : ℕ) : List (List (BitVec 8)) :=
  (readPointers MAXARG u a1).map (readString PGSIZE u)

/-- The words `xs` are at `a`. -/
def HasWords (u : UserMem) (a : ℕ) (xs : List ℕ) : Prop :=
  ∀ k (hk : k < xs.length), u.word (a + k * 8) = xs[k]

/-- A copy of `s`, with a zero byte at its end, is at `p`. -/
def HasString (u : UserMem) (p : ℕ) (s : List (BitVec 8)) : Prop :=
  ∀ j (hj : j < (s ++ [0]).length), u.mem (p + j) = (s ++ [0])[j]

/-- The pieces of memory, each with its length, that the array of pointers `ps` at `a1` and the
strings take. -/
def blocks (a1 : ℕ) (ps : List ℕ) (argv : List (List (BitVec 8))) : List (ℕ × ℕ) :=
  (a1, (argv.length + 1) * 8) :: List.zipWith (fun p s => (p, s.length + 1)) ps argv

/-- A place for the arguments on the page at `stackbase`: the array of pointers at `a1`, and the
strings at `ps`. -/
structure Layout (stackbase a1 : ℕ) (argv : List (List (BitVec 8))) (ps : List ℕ) : Prop where
  length : ps.length = argv.length
  aligned : ∀ p ∈ a1 :: ps, p % 16 = 0
  inside : ∀ b ∈ blocks a1 ps argv, stackbase ≤ b.1 ∧ b.1 + b.2 ≤ stackbase + PGSIZE
  apart : (blocks a1 ps argv).Pairwise fun b b' => b.1 + b.2 ≤ b'.1 ∨ b'.1 + b'.2 ≤ b.1

/-- The arguments are on the stack page at `stackbase`, with the array of pointers at `a1`. -/
structure Passed (u : UserMem) (stackbase a1 : ℕ) (argv : List (List (BitVec 8))) (ps : List ℕ) :
    Prop where
  layout : Layout stackbase a1 argv ps
  /-- There is a pointer for every argument, and then a null pointer. -/
  words : u.HasWords a1 (ps ++ [0])
  /-- There is a copy of the argument where the pointer points to. -/
  strings : List.Forall₂ u.HasString ps argv

theorem write_mem_of_le {src : List (BitVec 8)} (h : va + src.length ≤ a) :
    (u.write va src).mem a = u.mem a := by
  change (if va ≤ a then src.getD (a - va) (u.mem a) else u.mem a) = u.mem a
  rw [if_pos (by omega), List.getD_eq_default _ _ (by omega)]

theorem write_mem_add {j : ℕ} {src : List (BitVec 8)} (hj : j < src.length) :
    (u.write va src).mem (va + j) = src[j] := by
  change (if va ≤ va + j then src.getD (va + j - va) (u.mem (va + j)) else u.mem (va + j)) = src[j]
  rw [if_pos (Nat.le_add_right va j), Nat.add_sub_cancel_left, List.getD_eq_getElem _ _ hj]

theorem length_lt_stringSize (s : List (BitVec 8)) : s.length + 1 ≤ stringSize s :=
  le_roundUp16 _

/-- The strings are below `sp`. -/
theorem pushed_mem (hsp : stringsSize argv ≤ sp) (ha : sp ≤ a) :
    (u.pushed sp argv).mem a = u.mem a := by
  induction argv generalizing u sp with
  | nil => rfl
  | cons s argv ih =>
    rw [stringsSize_cons] at hsp
    have hs := length_lt_stringSize s
    rw [pushed, ih (by omega) (by omega), write_mem_of_le]
    rw [List.length_append, List.length_singleton]
    omega

theorem pushed_strings (hsp : stringsSize argv ≤ sp) :
    List.Forall₂ (fun p s => sp - stringsSize argv ≤ p ∧ (u.pushed sp argv).HasString p s)
      (pointers sp argv) argv := by
  induction argv generalizing u sp with
  | nil => exact .nil
  | cons s argv ih =>
    rw [stringsSize_cons] at hsp ⊢
    rw [← Nat.sub_sub]
    refine .cons ⟨Nat.sub_le _ _, fun j hj => ?_⟩ (ih (by omega))
    rw [pushed, pushed_mem (by omega) (Nat.le_add_right _ j), write_mem_add hj]

theorem pointers_aligned (hsp : stringsSize argv ≤ sp) (h16 : sp % 16 = 0) :
    ∀ p ∈ pointers sp argv, p % 16 = 0 := by
  induction argv generalizing sp with
  | nil => simp [pointers]
  | cons s argv ih =>
    rw [stringsSize_cons] at hsp
    have h16' : (sp - stringSize s) % 16 = 0 := by
      have : stringSize s % 16 = 0 := roundUp16_mod _
      omega
    rw [pointers, List.forall_mem_cons]
    exact ⟨h16', ih (by omega) h16'⟩

theorem le_of_mem_pointers (hp : p ∈ pointers sp argv) : p ≤ sp := by
  induction argv generalizing sp with
  | nil => exact absurd hp List.not_mem_nil
  | cons s argv ih =>
    rcases List.mem_cons.1 hp with rfl | hp
    · exact Nat.sub_le _ _
    · exact (ih hp).trans (Nat.sub_le _ _)

/-- The strings are between `sp` and what is left of it. -/
theorem mem_pointers (hsp : stringsSize argv ≤ sp) :
    ∀ b ∈ List.zipWith (fun p (s : List (BitVec 8)) => (p, s.length + 1)) (pointers sp argv) argv,
      sp - stringsSize argv ≤ b.1 ∧ b.1 + b.2 ≤ sp := by
  induction argv generalizing sp with
  | nil => simp
  | cons s argv ih =>
    rw [stringsSize_cons] at hsp ⊢
    have hs := length_lt_stringSize s
    intro b hb
    rw [pointers, List.zipWith_cons_cons, List.mem_cons] at hb
    rcases hb with rfl | hb
    · dsimp only
      omega
    · have := ih (by omega) b hb
      omega

/-- The strings are apart from each other: each is below the one before. -/
theorem pointers_apart (hsp : stringsSize argv ≤ sp) :
    (List.zipWith (fun p (s : List (BitVec 8)) => (p, s.length + 1)) (pointers sp argv)
      argv).Pairwise fun b b' => b.1 + b.2 ≤ b'.1 ∨ b'.1 + b'.2 ≤ b.1 := by
  induction argv generalizing sp with
  | nil => exact .nil
  | cons s argv ih =>
    rw [stringsSize_cons] at hsp
    refine .cons (fun b hb => .inr ?_) (ih (by omega))
    exact (mem_pointers (by omega) b hb).2

variable {xs ps : List ℕ}

theorem getElem_wordBytes {i : ℕ} (hk : k < xs.length) (hi : i < 8)
    (h : k * 8 + i < (wordBytes xs).length) :
    (wordBytes xs)[k * 8 + i] = BitVec.ofNat 8 (xs[k] / 256 ^ i) := by
  induction xs generalizing k with
  | nil => exact absurd hk (Nat.not_lt_zero k)
  | cons x xs ih =>
    have hcons : wordBytes (x :: xs) = leBytes 8 x ++ wordBytes xs := List.flatMap_cons
    cases k with
    | zero =>
      simp only [hcons, Nat.zero_mul, Nat.zero_add, List.getElem_cons_zero]
      rw [List.getElem_append_left (by rwa [length_leBytes])]
      simp [leBytes]
    | succ k =>
      simp only [hcons, List.getElem_cons_succ]
      rw [List.getElem_append_right (by rw [length_leBytes]; omega)]
      simp only [length_leBytes, show (k + 1) * 8 + i - 8 = k * 8 + i by omega]
      exact ih (Nat.lt_of_succ_lt_succ hk) _

theorem hasWords_write (h : ∀ x ∈ xs, x < 2 ^ 64) :
    (u.write a (wordBytes xs)).HasWords a xs := by
  intro k hk
  refine readLe_digits (h _ (List.getElem_mem hk)) fun i hi => ?_
  have hlen : k * 8 + i < (wordBytes xs).length := by
    rw [length_wordBytes]
    omega
  rw [Nat.add_assoc, write_mem_add hlen, getElem_wordBytes hk hi]

/-- Where the loop puts the arguments. -/
theorem layout_pointers (h16 : stackbase % 16 = 0) (hfits : stackSize argv ≤ PGSIZE) :
    Layout stackbase (stackbase + PGSIZE - stackSize argv) argv
      (pointers (stackbase + PGSIZE) argv) := by
  have hsize : stackSize argv = stringsSize argv + roundUp16 ((argv.length + 1) * 8) := rfl
  have hle := le_roundUp16 ((argv.length + 1) * 8)
  have hpage : PGSIZE = 4096 := rfl
  have hsp : stringsSize argv ≤ stackbase + PGSIZE := by omega
  have hmem := mem_pointers hsp
  refine ⟨length_pointers _ _, List.forall_mem_cons.2 ⟨?_, ?_⟩, fun b hb => ?_,
    .cons (fun b hb => .inl ?_) (pointers_apart hsp)⟩
  · have := roundUp16_mod ((argv.length + 1) * 8)
    have := stringsSize_mod argv
    omega
  · exact pointers_aligned hsp (by omega)
  · rcases List.mem_cons.1 hb with rfl | hb
    · dsimp only
      omega
    · have := hmem b hb
      omega
  · have := hmem b hb
    dsimp only
    omega

/-- **What the loop leaves on the stack page.** -/
theorem passed_pushed (h : Stack u stackbase) (hfits : stackSize argv ≤ PGSIZE) :
    ((u.pushed (stackbase + PGSIZE) argv).write (stackbase + PGSIZE - stackSize argv)
      (wordBytes (pointers (stackbase + PGSIZE) argv ++ [0]))).Passed stackbase
        (stackbase + PGSIZE - stackSize argv) argv (pointers (stackbase + PGSIZE) argv) := by
  have h₁ : stackbase % 4096 = 0 := h.aligned
  have hlt : stackbase < 2 ^ 38 := h.lt
  have hsize : stackSize argv = stringsSize argv + roundUp16 ((argv.length + 1) * 8) := rfl
  have hle := le_roundUp16 ((argv.length + 1) * 8)
  have hpage : PGSIZE = 4096 := rfl
  have hsp : stringsSize argv ≤ stackbase + PGSIZE := by omega
  have hlen : (wordBytes (pointers (stackbase + PGSIZE) argv ++ [0])).length =
      (argv.length + 1) * 8 := by
    rw [length_wordBytes, List.length_append, length_pointers, List.length_singleton]
  refine ⟨layout_pointers (by omega) hfits, hasWords_write fun x hx => ?_, ?_⟩
  · rcases List.mem_append.1 hx with hx | hx
    · have := le_of_mem_pointers hx
      omega
    · rw [List.mem_singleton.1 hx]
      decide
  · refine (pushed_strings (u := u) hsp).imp fun p s ⟨hp, hs⟩ j hj => ?_
    rw [write_mem_of_le (by omega), hs j hj]

/-! ### No other place -/

/-- What a block takes from the page, in pieces of 16 bytes. -/
def pieces (b : ℕ × ℕ) : Finset ℕ := Finset.Ico (b.1 / 16) (b.1 / 16 + (b.2 + 15) / 16)

theorem pieces_disjoint {b b' : ℕ × ℕ} (hb : b.1 % 16 = 0) (hb' : b'.1 % 16 = 0)
    (h : b.1 + b.2 ≤ b'.1 ∨ b'.1 + b'.2 ≤ b.1) : Disjoint (pieces b) (pieces b') := by
  rw [Finset.disjoint_left]
  intro k hk hk'
  rw [pieces, Finset.mem_Ico] at hk hk'
  omega

/-- Blocks that are apart do not take more than there is. -/
theorem sum_pieces_le {bs : List (ℕ × ℕ)} (haligned : ∀ b ∈ bs, b.1 % 16 = 0)
    (hapart : bs.Pairwise fun b b' => b.1 + b.2 ≤ b'.1 ∨ b'.1 + b'.2 ≤ b.1) {t : Finset ℕ}
    (ht : ∀ b ∈ bs, pieces b ⊆ t) : (bs.map fun b => (b.2 + 15) / 16).sum ≤ t.card := by
  induction bs generalizing t with
  | nil => exact Nat.zero_le _
  | cons b bs ih =>
    rw [List.forall_mem_cons] at haligned ht
    rw [List.pairwise_cons] at hapart
    have hrest (b' : ℕ × ℕ) (hb' : b' ∈ bs) : pieces b' ⊆ t \ pieces b :=
      Finset.subset_sdiff.2 ⟨ht.2 b' hb',
        (pieces_disjoint haligned.1 (haligned.2 b' hb') (hapart.1 b' hb')).symm⟩
    have hle := ih haligned.2 hapart.2 hrest
    have hcard : (pieces b).card = (b.2 + 15) / 16 := by
      rw [pieces, Nat.card_Ico, Nat.add_sub_cancel_left]
    have hsplit := Finset.card_sdiff_add_card_eq_card ht.1
    rw [List.map_cons, List.sum_cons]
    omega

theorem sum_blocks (a1 : ℕ) (h : ps.length = argv.length) :
    ((blocks a1 ps argv).map fun b => (b.2 + 15) / 16).sum * 16 = stackSize argv := by
  have hstrings : ((List.zipWith (fun p (s : List (BitVec 8)) => (p, s.length + 1)) ps argv).map
      fun b => (b.2 + 15) / 16).sum * 16 = stringsSize argv := by
    induction argv generalizing ps with
    | nil => rw [List.zipWith_nil_right, List.map_nil, List.sum_nil, stringsSize_nil, Nat.zero_mul]
    | cons s argv ih =>
      obtain ⟨p, ps, rfl⟩ := List.exists_cons_of_length_eq_add_one h
      rw [List.zipWith_cons_cons, List.map_cons, List.sum_cons, Nat.add_mul,
        ih (Nat.succ.inj h), stringsSize_cons]
      rfl
  rw [blocks, List.map_cons, List.sum_cons, Nat.add_mul, hstrings, Nat.add_comm]
  rfl

/-- **Whatever place the arguments could have on a page, `exec` has room for them.** -/
theorem Layout.stackSize_le (h : Layout stackbase a1 argv ps)
    (h16 : stackbase % 16 = 0) : stackSize argv ≤ PGSIZE := by
  have haligned : ∀ b ∈ blocks a1 ps argv, b.1 % 16 = 0 := by
    intro b hb
    refine h.aligned b.1 ?_
    rcases List.mem_cons.1 hb with rfl | hb
    · exact List.mem_cons_self
    · obtain ⟨k, hk, rfl⟩ := List.mem_iff_getElem.1 hb
      rw [List.getElem_zipWith]
      exact List.mem_cons_of_mem _ (List.getElem_mem _)
  have hle := sum_pieces_le haligned h.apart
    (t := Finset.Ico (stackbase / 16) (stackbase / 16 + 256)) fun b hb k hk => by
      have h₁ := haligned b hb
      obtain ⟨h₂, h₃⟩ : stackbase ≤ b.1 ∧ b.1 + b.2 ≤ stackbase + 4096 := h.inside b hb
      rw [pieces, Finset.mem_Ico] at hk
      rw [Finset.mem_Ico]
      omega
  rw [Nat.card_Ico, Nat.add_sub_cancel_left] at hle
  have := sum_blocks a1 h.length
  change stackSize argv ≤ 4096
  omega

/-! ### The way back -/

theorem readString_eq (h : u.HasString p s) (h₀ : 0 ∉ s) (hfuel : s.length < fuel) :
    readString fuel u p = s := by
  induction s generalizing p fuel with
  | nil =>
    cases fuel with
    | zero => exact absurd hfuel (Nat.not_lt_zero _)
    | succ fuel => exact if_pos (h 0 Nat.one_pos)
  | cons b s ih =>
    cases fuel with
    | zero => exact absurd hfuel (Nat.not_lt_zero _)
    | succ fuel =>
      have hb : u.mem p = b := h 0 (Nat.succ_pos _)
      have hne : u.mem p ≠ 0 := by
        rintro hz
        exact h₀ (List.mem_cons.2 (.inl (hz.symm.trans hb)))
      have hs : u.HasString (p + 1) s := by
        intro j hj
        rw [Nat.add_assoc, Nat.add_comm 1 j]
        exact h (j + 1) (Nat.succ_lt_succ hj)
      rw [readString, if_neg hne, hb, ih hs (fun h => h₀ (List.mem_cons_of_mem b h))
        (Nat.lt_of_succ_lt_succ hfuel)]

theorem readPointers_eq (h : u.HasWords a (ps ++ [0]))
    (h₀ : 0 ∉ ps) (hfuel : ps.length < fuel) : readPointers fuel u a = ps := by
  induction ps generalizing a fuel with
  | nil =>
    cases fuel with
    | zero => exact absurd hfuel (Nat.not_lt_zero _)
    | succ fuel => exact if_pos (h 0 Nat.one_pos)
  | cons p ps ih =>
    cases fuel with
    | zero => exact absurd hfuel (Nat.not_lt_zero _)
    | succ fuel =>
      have hp : u.word a = p := h 0 (Nat.succ_pos _)
      have hne : u.word a ≠ 0 := by
        rintro hz
        exact h₀ (List.mem_cons.2 (.inl (hz.symm.trans hp)))
      have hps : u.HasWords (a + 8) (ps ++ [0]) := by
        intro k hk
        rw [Nat.add_assoc, Nat.add_comm 8, ← Nat.succ_mul]
        exact h (k + 1) (Nat.succ_lt_succ hk)
      rw [readPointers, if_neg hne, hp, ih hps (fun h => h₀ (List.mem_cons_of_mem p h))
        (Nat.lt_of_succ_lt_succ hfuel)]

/-- **Whoever follows the pointers reads the arguments.** -/
theorem Passed.readArgv_eq (h : u.Passed stackbase a1 argv ps)
    (hbase : 0 < stackbase) (hargc : argv.length < MAXARG) (h₀ : ∀ s ∈ argv, 0 ∉ s) :
    u.readArgv a1 = argv := by
  have hlen := h.layout.length
  have hblock (k : ℕ) (hk : k < ps.length) (hk' : k < argv.length) :
      stackbase ≤ ps[k] ∧ ps[k] + (argv[k].length + 1) ≤ stackbase + PGSIZE := by
    refine h.layout.inside (ps[k], argv[k].length + 1) (List.mem_cons_of_mem _ ?_)
    rw [List.mem_iff_getElem]
    exact ⟨k, by rw [List.length_zipWith]; omega, by rw [List.getElem_zipWith]⟩
  have hnull : 0 ∉ ps := by
    intro h₀
    obtain ⟨k, hk, hp⟩ := List.mem_iff_getElem.1 h₀
    have := hblock k hk (hlen ▸ hk)
    omega
  rw [readArgv, readPointers_eq h.words hnull (hlen ▸ hargc)]
  refine List.ext_getElem (by rw [List.length_map, hlen]) fun k hk hk' => ?_
  rw [List.length_map] at hk
  rw [List.getElem_map]
  refine readString_eq (h.strings.get hk hk') (h₀ _ (List.getElem_mem hk')) ?_
  have := hblock k hk hk'
  omega

end UserMem

end Xv6
