import Xv6.Proc.Slots

/-!
# Counting system calls

`getSysCount` of `kernel/proc.c`. The loop over the bits of the mask leaves the highest one in `j`,
and `j` is a global variable: a mask without any of these bits leaves it as the last call has, by
whichever process. `j` selects the count that is returned, and `j - 1` the name that is printed;
there are 27 names and 31 bits.

A history is one of the kernel, with `j` beside it: the value that a call of `getSysCount` returns
is the one computed here. The call is one step. In the kernel a timer interrupt can switch to
another process between the loop and the return, and if this one calls `getSysCount` as well, its
`j` is what both of them return the count for.
-/

namespace Xv6

/-- The number of entries of `syscall_names`. -/
abbrev NAMES : ℕ := 27

/-- `NUMBER_OF_SYSCALLS`. -/
abbrev NUMBER_OF_SYSCALLS : ℕ := 32

/-- `(mask >> i) & 1`; the shift of an `int` keeps its sign. -/
def maskBit (mask : BitVec 32) (i : ℕ) : Bool := mask.sshiftRight i &&& 1 ≠ 0

/-- The loop of `getSysCount`: `j` after the bits from 1 on. -/
def selectIndex (mask : BitVec 32) (j : ℕ) : ℕ :=
  (List.range' 1 (NUMBER_OF_SYSCALLS - 1)).foldl (fun j i => if maskBit mask i then i else j) j

/-- The kernel, with the global variable `j`. -/
structure Counting where
  kernel : Kernel
  j : ℕ

namespace Counting

/-- `getSysCount`, called by the process in slot `i`. -/
def getSysCount (s : Counting) (i : Slot) (mask : BitVec 32) : BitVec 32 × Counting :=
  let j := selectIndex mask s.j
  ((s.kernel.proc i).syscallCount j, { s with j := j })

/-- The entry of `syscall_names` that `getSysCount` looks up. -/
def nameIndex (s : Counting) (mask : BitVec 32) : ℤ := selectIndex mask s.j - 1

/-- One event. A process that is killed exits before it makes a call; otherwise the call is counted
and then made. -/
def step (s : Counting) (e : Event) : Option Counting :=
  match e with
  | .trap i u (.syscall r) =>
    if Kernel.sysno u = 23 ∧ (s.kernel.proc i).killed = 0 then
      let (n, s') := getSysCount { s with kernel := s.kernel.countCall i 23 } i
        ((u Tf.a0).setWidth 32)
      (Xv6.step s.kernel (.trap i u (.syscall { r with ret := n.signExtend 64 }))).map fun k =>
        ⟨k, s'.j⟩
    else (Xv6.step s.kernel e).map fun k => ⟨k, s.j⟩
  | e => (Xv6.step s.kernel e).map fun k => ⟨k, s.j⟩

/-- The machine before the first process. -/
def boot (m : Kmem) (l : List ℕ) : Counting := ⟨Xv6.boot m l, 0⟩

/-- A state that events lead to. -/
def Reached (s : Counting) : Prop := ∃ m l es, runEvents step (boot m l) es = some s

end Counting

/-- The result depends on the mask and the counts of the caller only. -/
def Determined (mask : BitVec 32) : Prop := ∀ s₁ s₂ : Counting, ∀ i₁ i₂, s₁.Reached → s₂.Reached →
  (∀ k < NUMBER_OF_SYSCALLS,
    (s₁.kernel.proc i₁).syscallCount k = (s₂.kernel.proc i₂).syscallCount k) →
  (s₁.getSysCount i₁ mask).1 = (s₂.getSysCount i₂ mask).1

/-- The name that is printed is one of the table. -/
def Counting.Named (s : Counting) (mask : BitVec 32) : Prop :=
  0 ≤ s.nameIndex mask ∧ s.nameIndex mask < NAMES

/-! ### The highest bit -/

/-- Bit `i` is the highest of the bits that `getSysCount` looks at. -/
structure Highest (mask : BitVec 32) (i : ℕ) : Prop where
  pos : 1 ≤ i
  lt : i < NUMBER_OF_SYSCALLS
  bit : mask.getLsbD i = true
  above : ∀ k, i < k → k < NUMBER_OF_SYSCALLS → mask.getLsbD k = false

theorem maskBit_eq {mask : BitVec 32} {i : ℕ} (h : i < 32) : maskBit mask i = mask.getLsbD i := by
  have hbit : (mask.sshiftRight i).getLsbD 0 = mask.getLsbD i := by
    rw [BitVec.getLsbD_sshiftRight]
    simp [h]
  rw [maskBit, ← hbit]
  change decide (mask.sshiftRight i &&& 1#32 ≠ 0#32) = _
  rw [BitVec.and_one_eq_setWidth_ofBool_getLsbD]
  cases (mask.sshiftRight i).getLsbD 0 <;> decide

/-- A loop that keeps the last index with a property. -/
theorem foldl_none {f : ℕ → Bool} {l : List ℕ} (h : ∀ k ∈ l, f k = false) (j : ℕ) :
    l.foldl (fun j k => if f k then k else j) j = j := by
  induction l with
  | nil => rfl
  | cons k l ih =>
    rw [List.foldl_cons, h k List.mem_cons_self]
    exact ih fun k' hk' => h k' (List.mem_cons_of_mem _ hk')

/-- It ends with the last one, whatever it starts with. -/
theorem foldl_last {f : ℕ → Bool} {l₁ l₂ : List ℕ} {i : ℕ} (hi : f i = true)
    (h : ∀ k ∈ l₂, f k = false) (j : ℕ) :
    (l₁ ++ i :: l₂).foldl (fun j k => if f k then k else j) j = i := by
  rw [List.foldl_append, List.foldl_cons, if_pos hi, foldl_none h]

/-- The loop ends with the highest bit. -/
theorem selectIndex_of_highest {mask : BitVec 32} {i : ℕ} (h : Highest mask i) (j : ℕ) :
    selectIndex mask j = i := by
  have hsplit : List.range' 1 (NUMBER_OF_SYSCALLS - 1) =
      List.range' 1 (i - 1) ++ i :: List.range' (i + 1) (NUMBER_OF_SYSCALLS - 1 - i) := by
    have h₁ := h.pos
    have h₂ := h.lt
    have hlen : NUMBER_OF_SYSCALLS - 1 = (i - 1) + (1 + (NUMBER_OF_SYSCALLS - 1 - i)) := by omega
    conv_lhs => rw [hlen]
    rw [← List.range'_append_1, ← List.range'_append_1, show 1 + (i - 1) = i by omega]
    rfl
  rw [selectIndex, hsplit]
  refine foldl_last (f := maskBit mask) ?_ (fun k hk => ?_) j
  · rw [maskBit_eq h.lt, h.bit]
  · obtain ⟨hk₁, hk₂⟩ := List.mem_range'_1.mp hk
    have hk₃ : k < NUMBER_OF_SYSCALLS := by
      have := h.lt
      omega
    rw [maskBit_eq hk₃, h.above k (by omega) hk₃]

/-- Without one of these bits, `j` is what it was. -/
theorem selectIndex_of_none {mask : BitVec 32} (h : ¬ ∃ b, Highest mask b) (j : ℕ) :
    selectIndex mask j = j := by
  refine foldl_none (fun k hk => ?_) j
  obtain ⟨hk₁, hk₂⟩ := List.mem_range'_1.mp hk
  change k < 1 + (32 - 1) at hk₂
  rw [maskBit_eq (by omega)]
  by_contra hbit
  rw [Bool.not_eq_false] at hbit
  -- the highest bit is the greatest index below 32 that has one
  have hle : k ≤ Nat.findGreatest (fun i => mask.getLsbD i = true) 31 :=
    Nat.le_findGreatest (by omega) hbit
  refine h ⟨_, by omega, Nat.lt_succ_of_le (Nat.findGreatest_le 31),
    Nat.findGreatest_spec (P := fun i => mask.getLsbD i = true) (by omega) hbit, fun i hi hlt => ?_⟩
  exact Bool.eq_false_iff.2 (Nat.findGreatest_is_greatest hi (Nat.le_of_lt_succ hlt))

/-- The first process has a child, which makes a call and then calls `getSysCount(mask)`. -/
def childCounts (mask : Word) : List Event :=
  [.userinit 1, .dispatch 0, .trap 0 (callRegs 1 0 0) (.syscall { fork := .ok 2 }), .dispatch 1,
    .trap 1 (callRegs 11 0 0) (.syscall {}), .trap 1 (callRegs 23 mask 0) (.syscall {})]

/-- Two histories with the same counts of the first process, which has made the call that `j` is for
in one of them, and not the call that it is for in the other. -/
theorem childCounts_stale : ∃ s₁ s₂,
    runEvents Counting.step (Counting.boot fewPages fewFree) (childCounts 0x800) = some s₁ ∧
    runEvents Counting.step (Counting.boot fewPages fewFree) (childCounts 0x1000) = some s₂ ∧
    (∀ k < NUMBER_OF_SYSCALLS,
      (s₁.kernel.proc 0).syscallCount k = (s₂.kernel.proc 0).syscallCount k) ∧
    (s₁.kernel.proc 0).syscallCount s₁.j = 1 ∧ (s₂.kernel.proc 0).syscallCount s₂.j = 0 := by
  obtain ⟨s₁, hs₁, s₂, h⟩ :
      ∃ s, runEvents Counting.step (Counting.boot fewPages fewFree) (childCounts 0x800) = some s ∧
      ∃ s', runEvents Counting.step (Counting.boot fewPages fewFree) (childCounts 0x1000) =
      some s' ∧
        (∀ k < NUMBER_OF_SYSCALLS,
          (s.kernel.proc 0).syscallCount k = (s'.kernel.proc 0).syscallCount k) ∧
        (s.kernel.proc 0).syscallCount s.j = 1 ∧ (s'.kernel.proc 0).syscallCount s'.j = 0 := by
    decide +kernel
  exact ⟨s₁, s₂, hs₁, h⟩

/-- **What `getSysCount` returns.** The result depends on the mask and the counts of the caller
only, if and only if the mask has one of the bits 1 to 31; and the name is one of the table in every
state, if and only if the highest of them is at most 27. With such a bit, the result is the count
for the highest one. -/
theorem getSysCount_highest (mask : BitVec 32) :
    (Determined mask ↔ ∃ b, Highest mask b) ∧
    ((∀ s : Counting, s.Reached → s.Named mask) ↔ ∃ b ≤ NAMES, Highest mask b) ∧
    ∀ b, Highest mask b → ∀ (s : Counting) (i : Slot),
      (s.getSysCount i mask).1 = (s.kernel.proc i).syscallCount b ∧ (s.Named mask ↔ b ≤ NAMES) := by
  have hvalue (b : ℕ) (h : Highest mask b) (s : Counting) (i : Slot) :
      (s.getSysCount i mask).1 = (s.kernel.proc i).syscallCount b ∧ (s.Named mask ↔ b ≤ NAMES) := by
    have hpos := h.pos
    rw [Counting.getSysCount, Counting.Named, Counting.nameIndex, selectIndex_of_highest h]
    refine ⟨rfl, ?_⟩
    change 0 ≤ (b : ℤ) - 1 ∧ (b : ℤ) - 1 < 27 ↔ b ≤ 27
    omega
  have hboot : (Counting.boot fewPages fewFree).Reached := ⟨_, _, [], rfl⟩
  refine ⟨⟨fun hdet => ?_, ?_⟩, ⟨fun hname => ?_, ?_⟩, hvalue⟩
  · by_contra hnone
    obtain ⟨s₁, s₂, hs₁, hs₂, hsame, h₁, h₂⟩ := childCounts_stale
    have heq := hdet s₁ s₂ 0 0 ⟨_, _, _, hs₁⟩ ⟨_, _, _, hs₂⟩ hsame
    simp only [Counting.getSysCount, selectIndex_of_none hnone, h₁, h₂] at heq
    exact absurd heq (by decide)
  · rintro ⟨b, hb⟩ s₁ s₂ i₁ i₂ - - hsame
    rw [(hvalue b hb s₁ i₁).1, (hvalue b hb s₂ i₂).1, hsame b hb.lt]
  · by_cases hb : ∃ b, Highest mask b
    · obtain ⟨b, hb⟩ := hb
      exact ⟨b, (hvalue b hb _ 0).2.1 (hname _ hboot), hb⟩
    · have hneg := (hname _ hboot).1
      rw [Counting.nameIndex, selectIndex_of_none hb] at hneg
      exact absurd hneg (by decide)
  · rintro ⟨b, hle, hb⟩ s -
    exact (hvalue b hb s 0).2.2 hle

/-- **Masks without a bit, and bits without a name.** In two histories the counts of the first
process are the same, and a child has called `getSysCount` with different masks; then
`getSysCount(0)` of the first process returns 1 in one and 0 in the other. Before any call,
`getSysCount(0)` looks up the name in front of the table; and `getSysCount(1 << 28)` looks up the
one behind it. -/
theorem getSysCount_stale :
    (∃ es₁ es₂ s₁ s₂, runEvents Counting.step (Counting.boot fewPages fewFree) es₁ = some s₁ ∧
      runEvents Counting.step (Counting.boot fewPages fewFree) es₂ = some s₂ ∧
      (∀ k < NUMBER_OF_SYSCALLS,
        (s₁.kernel.proc 0).syscallCount k = (s₂.kernel.proc 0).syscallCount k) ∧
      (s₁.getSysCount 0 0).1 = 1 ∧ (s₂.getSysCount 0 0).1 = 0) ∧
    (Counting.boot fewPages fewFree).nameIndex 0 = -1 ∧
    (Counting.boot fewPages fewFree).nameIndex 0x10000000 = NAMES := by
  obtain ⟨s₁, s₂, hs₁, hs₂, hsame, h₁, h₂⟩ := childCounts_stale
  have hzero (j : ℕ) : selectIndex 0 j = j := by
    refine selectIndex_of_none ?_ j
    rintro ⟨b, hb⟩
    simpa using hb.bit
  refine ⟨⟨_, _, s₁, s₂, hs₁, hs₂, hsame, ?_, ?_⟩, by decide +kernel, by decide +kernel⟩
  · rw [Counting.getSysCount, hzero, h₁]
  · rw [Counting.getSysCount, hzero, h₂]

end Xv6
