import Xv6.Lib.Draw
import Xv6.Proc.Slots

/-!
# The lottery scheduler

The scheduler of `kernel/proc.c` under `LBS`. A pass sums the tickets of the `RUNNABLE` processes,
draws a number below the sum with `rg`, and goes through the table a second time, taking tickets off
the number until it is less than what the next process has. This process runs; its lock stays held.

`sum_tkt` is an `int`, and the sum is `none` where the addition overflows. The remainder in `rg` is
the hardware's, for which the remainder by zero is the dividend. The first scan takes no locks, so
what it reads of each slot may be of another moment; a table here is what a scan has read.

The selection is a draw by weight: this is how it is shown to be proportional.
-/

namespace Xv6.Lbs

open Function (update update_of_ne)

/-- The largest `int`. -/
abbrev INT_MAX : ℤ := 2 ^ 31 - 1

/-- `rg(l, r)`, with the value of `ticks`. -/
def rg (ticks : BitVec 32) (l r : ℤ) : ℤ :=
  let x : BitVec 64 := ticks.setWidth 64
  let x := x ^^^ (x <<< 13)
  let x := x ^^^ (x >>> 17)
  let x := x ^^^ (x <<< 5)
  let x := x % BitVec.ofInt 64 (wrapInt (r - l))
  let x := x + BitVec.ofInt 64 l
  (x.setWidth 32).toInt

/-- `a + b`, unless this is not an `int`. -/
def addInt (a b : ℤ) : Option ℤ := if -2 ^ 31 ≤ a + b ∧ a + b ≤ INT_MAX then some (a + b) else none

/-- The first scan, from the sum so far. -/
def sumFrom (proc : Slot → Proc) : List Slot → ℤ → Option ℤ
  | [], sum => some sum
  | i :: l, sum =>
    if (proc i).state = .runnable then (addInt sum (proc i).tickets).bind (sumFrom proc l)
    else sumFrom proc l sum

/-- `sum_tkt` after the first scan. -/
def sumTkt (proc : Slot → Proc) : Option ℤ := sumFrom proc (List.finRange NPROC) 0

/-- The variables of the second scan, and the process locks that the CPU holds. -/
structure Scan where
  rtvll : ℤ
  winner : Option Slot
  held : Slot → Bool

/-- `acquire(&p->lock)` -/
def Scan.acquire (q : Scan) (i : Slot) : Scan := { q with held := update q.held i true }

/-- `release(&p->lock)` -/
def Scan.release (q : Scan) (i : Slot) : Scan := { q with held := update q.held i false }

/-- Whether the process in slot `i` takes the place of the winner so far. -/
def Scan.beats (proc : Slot → Proc) (q : Scan) (i : Slot) : Bool :=
  q.winner.all fun w => (proc w).tickets = (proc i).tickets ∧ (proc i).arrivalT < (proc w).arrivalT

/-- The second scan. It stops with the lock of the process held that it stops at. -/
def select (proc : Slot → Proc) : List Slot → Scan → Scan
  | [], q => q
  | i :: l, q =>
    let q := q.acquire i
    if (proc i).state = .runnable then
      if q.rtvll < (proc i).tickets then
        if q.beats proc i then { q with winner := some i } else q
      else select proc l ({ q with rtvll := wrapInt (q.rtvll - (proc i).tickets) }.release i)
    else select proc l (q.release i)

/-- The second scan, with the number `r`. -/
def lottery (proc : Slot → Proc) (r : ℤ) : Scan :=
  select proc (List.finRange NPROC) ⟨r, none, fun _ => false⟩

/-- The process that a pass runs, if there is one. -/
def lbsPass (s : Kernel) : Option Slot :=
  (sumTkt s.proc).bind fun sum => (lottery s.proc (rg s.ticks 0 sum)).winner

/-! ### Tickets -/

/-- The tickets of the processes in `l` that are `RUNNABLE`. -/
def tickets (proc : Slot → Proc) (l : List Slot) : ℤ :=
  ((l.filter fun i => (proc i).state = .runnable).map fun i => (proc i).tickets).sum

/-- The tickets of all `RUNNABLE` processes. -/
def total (proc : Slot → Proc) : ℤ := tickets proc (List.finRange NPROC)

/-- The tickets of the `RUNNABLE` processes in front of slot `p`. -/
def ahead (proc : Slot → Proc) (p : Slot) : ℤ :=
  tickets proc ((List.finRange NPROC).filter fun i => i < p)

/-- The weight of a slot in the draw. -/
def share (proc : Slot → Proc) (i : Slot) : ℤ :=
  if (proc i).state = .runnable then (proc i).tickets else 0

/-- Every `RUNNABLE` process has a ticket. -/
def Ticketed (proc : Slot → Proc) : Prop :=
  ∀ i, (proc i).state = .runnable → 1 ≤ (proc i).tickets

instance (proc : Slot → Proc) : Decidable (Ticketed proc) :=
  inferInstanceAs (Decidable (∀ i, (proc i).state = .runnable → 1 ≤ (proc i).tickets))

variable {proc : Slot → Proc} {l : List Slot} {r : ℤ} {p : Slot}

theorem tickets_nil : tickets proc [] = 0 := rfl

theorem tickets_cons (i : Slot) (l : List Slot) :
    tickets proc (i :: l) = share proc i + tickets proc l := by
  rw [tickets, share, List.filter_cons]
  split_ifs with h₁ h₂ h₂
  · rw [List.map_cons, List.sum_cons, tickets]
  · exact absurd (of_decide_eq_true h₁) h₂
  · exact absurd (decide_eq_true h₂) h₁
  · rw [tickets, zero_add]

theorem tickets_eq_sum (proc : Slot → Proc) (l : List Slot) :
    tickets proc l = (l.map (share proc)).sum := by
  induction l with
  | nil => rfl
  | cons i l ih => rw [tickets_cons, ih, List.map_cons, List.sum_cons]

theorem Ticketed.share_nonneg (h : Ticketed proc) (i : Slot) : 0 ≤ share proc i := by
  rw [share]
  split_ifs with hi
  · have := h i hi
    omega
  · exact le_rfl

theorem Ticketed.tickets_nonneg (h : Ticketed proc) (l : List Slot) : 0 ≤ tickets proc l := by
  rw [tickets_eq_sum]
  refine List.sum_nonneg fun x hx => ?_
  obtain ⟨i, -, rfl⟩ := List.mem_map.mp hx
  exact h.share_nonneg i

/-- In a list in ascending order, what is in front of a slot are the smaller slots. -/
theorem tickets_lt (hl : l.Pairwise (· < ·)) (hp : p ∈ l) :
    tickets proc (l.filter fun i => i < p) = Draw.before (share proc) l p := by
  induction l with
  | nil => cases hp
  | cons b l ih =>
    obtain ⟨hb, hl⟩ := List.pairwise_cons.mp hl
    rw [Draw.before]
    split_ifs with hbp
    · subst hbp
      have : (b :: l).filter (fun i => i < b) = [] := by
        simpa using fun i hi => (hb i hi).le
      rw [this, tickets_nil]
    · have hp : p ∈ l := List.mem_of_ne_of_mem (Ne.symm hbp) hp
      rw [List.filter_cons_of_pos (by simpa using hb p hp), tickets_cons, ih hl hp]

theorem ahead_eq (proc : Slot → Proc) (p : Slot) :
    ahead proc p = Draw.before (share proc) (List.finRange NPROC) p :=
  tickets_lt (List.pairwise_lt_finRange NPROC) (List.mem_finRange p)

/-! ### The sum -/

/-- The first scan overflows if and only if the sum is not an `int`: tickets are positive. -/
theorem sumFrom_eq (h : Ticketed proc) {sum : ℤ} (h₀ : 0 ≤ sum) (h₁ : sum ≤ INT_MAX) :
    sumFrom proc l sum =
      if sum + tickets proc l ≤ INT_MAX then some (sum + tickets proc l) else none := by
  induction l generalizing sum with
  | nil => rw [sumFrom, tickets_nil, add_zero, if_pos h₁]
  | cons i l ih =>
    have hi := h.share_nonneg i
    have hl := h.tickets_nonneg l
    rw [sumFrom, tickets_cons]
    rw [share] at hi ⊢
    split_ifs at hi ⊢ with hr hle hle
    · rw [addInt, if_pos (by omega), Option.bind_some, ih (by omega) (by omega), if_pos (by omega),
        add_assoc]
    · rw [addInt]
      split_ifs with hf
      · rw [Option.bind_some, ih (by omega) (by omega), if_neg (by omega)]
      · rfl
    · rw [ih h₀ h₁, if_pos (by omega), zero_add]
    · rw [ih h₀ h₁, if_neg (by omega)]

theorem sumTkt_eq (h : Ticketed proc) :
    sumTkt proc = if total proc ≤ INT_MAX then some (total proc) else none := by
  rw [sumTkt, sumFrom_eq h le_rfl (by decide), zero_add, total]

theorem total_pos (h : Ticketed proc) (hi : ∃ i, (proc i).state = .runnable) : 0 < total proc := by
  obtain ⟨i, hi⟩ := hi
  have hle := Draw.before_add_le (w := share proc) (fun b _ => h.share_nonneg b)
    (List.mem_finRange i)
  have hnn := Draw.before_nonneg (w := share proc) (a := i) (l := List.finRange NPROC)
    fun b _ => h.share_nonneg b
  have hshare : 1 ≤ share proc i := by
    rw [share, if_pos hi]
    exact h i hi
  rw [total, tickets_eq_sum]
  omega

/-- `rg` draws below a positive bound. -/
theorem rg_range (ticks : BitVec 32) {n : ℤ} (h₀ : 0 < n) (h₁ : n ≤ INT_MAX) :
    0 ≤ rg ticks 0 n ∧ rg ticks 0 n < n := by
  obtain ⟨k, rfl⟩ := Int.eq_ofNat_of_zero_le h₀.le
  have hk : (k : ℤ) ≤ 2 ^ 31 - 1 := h₁
  have hw : wrapInt ((k : ℤ) - 0) = k := by rw [sub_zero, wrapInt_of_lt] <;> omega
  rw [rg, hw]
  generalize (BitVec.setWidth 64 ticks ^^^ _) = x₁
  generalize x₁ ^^^ _ = x₂
  generalize x₂ ^^^ _ = x
  have hmod : (x % BitVec.ofInt 64 (k : ℤ) + BitVec.ofInt 64 0).toNat = x.toNat % k := by
    have : k % 18446744073709551616 = k := Nat.mod_eq_of_lt (by omega)
    simp [this]
  have hlt : x.toNat % k < k := Nat.mod_lt _ (by omega)
  have h32 : (BitVec.setWidth 32 (x % BitVec.ofInt 64 (k : ℤ) + BitVec.ofInt 64 0)).toInt =
      (x.toNat % k : ℕ) := by
    rw [BitVec.toInt_eq_toNat_of_lt] <;> rw [BitVec.toNat_setWidth, hmod] <;> omega
  rw [h32]
  omega

/-! ### The selection -/

/-- What the second scan ends with: the process that the number belongs to, and its lock. -/
structure Selects (proc : Slot → Proc) (l : List Slot) (r : ℤ) (q : Scan) : Prop where
  winner : q.winner = Draw.pick (share proc) l r
  held : ∀ i, q.held i = true ↔ q.winner = some i

section Rounds

variable {b : Slot} {held : Slot → Bool}

/-- Nobody has been selected before the process that the scan stops at. -/
theorem select_stop (hb : (proc b).state = .runnable) (hlt : r < (proc b).tickets) :
    select proc (b :: l) ⟨r, none, held⟩ = ⟨r, some b, update held b true⟩ := by
  rw [select]
  exact (if_pos hb).trans ((if_pos hlt).trans (if_pos rfl))

theorem select_take (hb : (proc b).state = .runnable) (hge : ¬ r < (proc b).tickets) :
    select proc (b :: l) ⟨r, none, held⟩ = select proc l ⟨wrapInt (r - (proc b).tickets), none,
      update (update held b true) b false⟩ := by
  rw [select]
  exact (if_pos hb).trans (if_neg hge)

theorem select_skip (hb : (proc b).state ≠ .runnable) :
    select proc (b :: l) ⟨r, none, held⟩ =
      select proc l ⟨r, none, update (update held b true) b false⟩ := by
  rw [select]
  exact if_neg hb

end Rounds

theorem select_selects (h : Ticketed proc) (h₀ : 0 ≤ r) (h₁ : r ≤ INT_MAX) {held : Slot → Bool}
    (hheld : ∀ i, held i = false) : Selects proc l r (select proc l ⟨r, none, held⟩) := by
  induction l generalizing r held with
  | nil => exact ⟨rfl, fun i => by simp [select, hheld]⟩
  | cons b l ih =>
    -- a lock that is taken and given back leaves no trace
    have hback : ∀ i, update (update held b true) b false i = false := by
      intro i
      by_cases hi : i = b
      · rw [hi, Function.update_self]
      · rw [update_of_ne hi, update_of_ne hi, hheld]
    by_cases hb : (proc b).state = .runnable
    · have hshare : share proc b = (proc b).tickets := if_pos hb
      by_cases hlt : r < (proc b).tickets
      · rw [select_stop hb hlt]
        refine ⟨by rw [Draw.pick, hshare, if_pos hlt], fun i => ?_⟩
        by_cases hi : i = b
        · simp [hi]
        · simp [hi, hheld, Ne.symm hi]
      · have hbt := h b hb
        have hr : r ≤ 2 ^ 31 - 1 := h₁
        rw [select_take hb hlt, wrapInt_of_lt (by omega) (by omega)]
        obtain ⟨hwin, hh⟩ := ih (r := r - (proc b).tickets) (by omega) (by omega) hback
        exact ⟨by rw [hwin, Draw.pick, hshare, if_neg hlt], hh⟩
    · have hshare : share proc b = 0 := if_neg hb
      rw [select_skip hb]
      obtain ⟨hwin, hh⟩ := ih h₀ h₁ hback
      exact ⟨by rw [hwin, Draw.pick, hshare, if_neg (by omega), sub_zero], hh⟩

/-- The draw `r` belongs to the process in slot `p`. -/
def Belongs (proc : Slot → Proc) (r : ℤ) (p : Slot) : Prop :=
  (proc p).state = .runnable ∧ ahead proc p ≤ r ∧ r < ahead proc p + (proc p).tickets

theorem pick_eq_some_iff_belongs (h : Ticketed proc) (h₀ : 0 ≤ r) :
    Draw.pick (share proc) (List.finRange NPROC) r = some p ↔ Belongs proc r p := by
  rw [Draw.pick_eq_some_iff (List.nodup_finRange _) (fun b _ => h.share_nonneg b) h₀, ← ahead_eq,
    share, Belongs]
  split_ifs with hp
  · simp [hp]
  · simp only [hp, false_and, iff_false]
    omega

/-- **The lottery is proportional.** If every `RUNNABLE` process has a ticket and the tickets fit in
an `int`, the first scan finds their sum. Every draw below the sum belongs to exactly one process;
the second scan stops at it, with its lock held and no other; and a process is selected by as many
draws as it has tickets. -/
theorem lottery_proportional (h : Ticketed proc) (hint : total proc ≤ INT_MAX) :
    sumTkt proc = some (total proc) ∧
      (∀ r, 0 ≤ r → r < total proc → (∃! p, Belongs proc r p) ∧ ∀ p, Belongs proc r p →
        (lottery proc r).winner = some p ∧ ∀ i, (lottery proc r).held i = true ↔ i = p) ∧
      ∀ p, (proc p).state = .runnable →
        (((Finset.Ico 0 (total proc)).filter fun r => (lottery proc r).winner = some p).card : ℤ) =
          (proc p).tickets := by
  have hsel {r : ℤ} (h₀ : 0 ≤ r) (h₁ : r < total proc) :
      Selects proc (List.finRange NPROC) r (lottery proc r) :=
    select_selects h h₀ (by omega) fun _ => rfl
  refine ⟨by rw [sumTkt_eq h, if_pos hint], fun r h₀ h₁ => ⟨?_, fun p hp => ?_⟩, fun p hp => ?_⟩
  · rw [total, tickets_eq_sum] at h₁
    obtain ⟨p, -, hp⟩ := Draw.exists_pick h₁ h₀
    refine ⟨p, (pick_eq_some_iff_belongs h h₀).mp hp, fun p' hp' => ?_⟩
    exact Option.some.inj (((pick_eq_some_iff_belongs h h₀).mpr hp').symm.trans hp)
  · have hwin : (lottery proc r).winner = some p :=
      (hsel h₀ h₁).winner.trans ((pick_eq_some_iff_belongs h h₀).mpr hp)
    refine ⟨hwin, fun i => ?_⟩
    rw [(hsel h₀ h₁).held, hwin, Option.some_inj, eq_comm]
  · have hcard := Draw.card_pick (List.nodup_finRange NPROC) (fun b _ => h.share_nonneg b)
      (List.mem_finRange p)
    rw [← tickets_eq_sum, ← total, share, if_pos hp] at hcard
    rw [← hcard]
    congr 1
    refine congrArg Finset.card (Finset.filter_congr fun r hr => ?_)
    obtain ⟨h₀, h₁⟩ := Finset.mem_Ico.mp hr
    rw [(hsel h₀ h₁).winner]

/-- Three processes, of which the second sleeps. -/
def threeProcs : Slot → Proc := fun i =>
  if i = 0 then { Proc.zero with state := .runnable, tickets := 2 }
  else if i = 1 then { Proc.zero with state := .sleeping, tickets := 5 }
  else if i = 2 then { Proc.zero with state := .runnable, tickets := 3 }
  else .zero

theorem lottery_proportional_three :
    sumTkt threeProcs = some 5 ∧ (lottery threeProcs 2).winner = some 2 ∧
      (∀ i, (lottery threeProcs 2).held i = true ↔ i = 2) ∧
      (((Finset.Ico 0 5).filter fun r => (lottery threeProcs r).winner = some 2).card : ℤ) = 3 := by
  have ht : Ticketed threeProcs := by decide +kernel
  have htot : total threeProcs = 5 := by decide +kernel
  have hbelongs : Belongs threeProcs 2 2 := by
    rw [Belongs, show ahead threeProcs 2 = 2 by decide +kernel]
    decide
  obtain ⟨hsum, hsel, hcard⟩ := lottery_proportional ht (by rw [htot]; decide)
  have hcard := hcard 2 rfl
  obtain ⟨hwin, hheld⟩ := (hsel 2 (by decide) (by rw [htot]; decide)).2 2 hbelongs
  rw [htot] at hsum hcard
  exact ⟨hsum, hwin, hheld, hcard⟩

/-! ### Tickets of processes -/

/-- A process has a ticket. -/
def HasTicket (p : Proc) : Prop := p.state ≠ .unused → 1 ≤ p.tickets

theorem HasTicket.slotStep {T : ℤ → Prop} {a : StepLabel} {p q : Proc}
    (h : SlotStep T a p q) (hT : ∀ n, T n → 1 ≤ n) (hp : HasTicket p) : HasTicket q := by
  intro hq
  cases h with
  | quiet _ hsame htk | save _ _ hsame htk | kill _ hsame htk =>
    rw [htk]
    exact hp (mt hsame.unused.2 hq)
  | free => exact absurd rfl hq
  | alloc _ _ _ htk => exact htk.ge
  | tickets _ _ htk => exact htk.elim id (hT _)
  | fault | sigalarm => exact hp hq

/-- Processes have tickets, in every history. -/
theorem run_hasTicket {m : Kmem} {l : List ℕ} {es : List Event} {s : Kernel}
    (h : runEvents step (boot m l) es = some s) (j : Slot) : HasTicket (s.proc j) := by
  refine runEvents_invariant (I := fun s => ∀ j, HasTicket (s.proc j)) (fun s e t hs hst j => ?_)
    (fun _ hu => absurd rfl hu) h j
  have hT : ∀ n, s.Holds n → 1 ≤ n := by
    rintro n ⟨i, hi, rfl⟩
    exact hs i hi
  have hsteps := step_steps hst j
  rw [Kernel.Stepped] at hsteps
  generalize t.proc j = q at hsteps
  induction hsteps with
  | refl => exact hs j
  | tail _ hm ih =>
    obtain ⟨a, -, hm⟩ := hm
    exact HasTicket.slotStep hm hT ih

/-- What a scan reads while the kernel runs: each slot as it is in some state. -/
def Read (m : Kmem) (l : List ℕ) (proc : Slot → Proc) : Prop :=
  ∀ i, ∃ es s, runEvents step (boot m l) es = some s ∧ proc i = s.proc i

theorem Read.ticketed {m : Kmem} {l : List ℕ} (h : Read m l proc) : Ticketed proc := by
  intro i hi
  obtain ⟨es, s, hs, he⟩ := h i
  rw [he] at hi ⊢
  exact run_hasTicket hs i (by simp [hi])

/-- **The arithmetic of the lottery.** Whatever the first scan has read, at one moment or at many,
it finds a positive sum without an overflow if and only if it has read a `RUNNABLE` process and the
tickets it has read fit in an `int`. Then `rg` divides by this sum, and draws a number below it. -/
theorem lottery_arithmetic {m : Kmem} {l : List ℕ} (h : Read m l proc) (ticks : BitVec 32) :
    ((∃ sum, sumTkt proc = some sum ∧ 0 < sum) ↔
        (∃ i, (proc i).state = .runnable) ∧ total proc ≤ INT_MAX) ∧
      ((∃ i, (proc i).state = .runnable) → total proc ≤ INT_MAX → ∃ sum, sumTkt proc = some sum ∧
        0 < sum ∧ sum ≤ INT_MAX ∧ 0 ≤ rg ticks 0 sum ∧ rg ticks 0 sum < sum) := by
  have ht := h.ticketed
  have hgood (hi : ∃ i, (proc i).state = .runnable) (hint : total proc ≤ INT_MAX) :
      ∃ sum, sumTkt proc = some sum ∧ 0 < sum ∧ sum ≤ INT_MAX ∧ 0 ≤ rg ticks 0 sum ∧
        rg ticks 0 sum < sum :=
    ⟨total proc, by rw [sumTkt_eq ht, if_pos hint], total_pos ht hi, hint,
      rg_range ticks (total_pos ht hi) hint⟩
  refine ⟨⟨?_, fun ⟨hi, hint⟩ => ?_⟩, hgood⟩
  · rintro ⟨sum, hsum, hpos⟩
    rw [sumTkt_eq ht] at hsum
    split_ifs at hsum with hint
    cases hsum
    refine ⟨?_, hint⟩
    -- without a `RUNNABLE` process there is nothing to sum
    by_contra hno
    have : total proc = 0 := by
      rw [total, tickets, List.filter_eq_nil_iff.mpr]
      · rfl
      · exact fun i _ => by simpa using fun hi => hno ⟨i, hi⟩
    omega
  · obtain ⟨sum, hsum, hpos, -⟩ := hgood hi hint
    exact ⟨sum, hsum, hpos⟩

/-- The first process has two children. -/
def twoChildren : List Event :=
  [.userinit 1, .dispatch 0, .trap 0 (callRegs 1 0 0) (.syscall { fork := .ok 2 }),
    .trap 0 (callRegs 1 0 0) (.syscall { fork := .ok 3 })]

theorem lottery_arithmetic_children : ∃ s, runEvents step (boot fewPages fewFree) twoChildren =
    some s ∧ ∃ sum, sumTkt s.proc = some sum ∧ 0 < sum ∧ sum ≤ INT_MAX ∧ 0 ≤ rg s.ticks 0 sum ∧
      rg s.ticks 0 sum < sum := by
  obtain ⟨s, hs, hi, hint⟩ : ∃ s, runEvents step (boot fewPages fewFree) twoChildren = some s ∧
    (s.proc 1).state = .runnable ∧ total s.proc ≤ INT_MAX := by decide +kernel
  exact ⟨s, hs, (lottery_arithmetic (fun i => ⟨_, s, hs, rfl⟩) s.ticks).2 ⟨1, hi⟩ hint⟩

/-- **Two sums that are no draw.** The first process runs and no other exists: the sum is 0, and
`rg` divides by it. The first process sets its tickets to the largest `int` and forks twice: the sum
of the children's tickets overflows. -/
theorem lottery_sum_breaks :
    (∃ es s, runEvents step (boot fewPages fewFree) es = some s ∧ sumTkt s.proc = some 0) ∧
      ∃ es s, runEvents step (boot fewPages fewFree) es = some s ∧ sumTkt s.proc = none := by
  refine ⟨⟨[.userinit 1, .dispatch 0], by decide +kernel⟩, [.userinit 1, .dispatch 0,
    .trap 0 (callRegs 26 0x7fffffff 0) (.syscall {}),
    .trap 0 (callRegs 1 0 0) (.syscall { fork := .ok 2 }),
    .trap 0 (callRegs 1 0 0) (.syscall { fork := .ok 3 })], by decide +kernel⟩

/-! ### Ties -/

/-- Nobody arrived before `p` among the `RUNNABLE` processes with as many tickets. -/
def First (proc : Slot → Proc) (p : Slot) : Prop :=
  ∀ i, (proc i).state = .runnable → (proc i).tickets = (proc p).tickets →
    (proc p).arrivalT ≤ (proc i).arrivalT

/-- `RUNNABLE` processes with as many tickets arrived at the same time. -/
def NoTie (proc : Slot → Proc) : Prop :=
  ∀ i p, (proc i).state = .runnable → (proc p).state = .runnable →
    (proc i).tickets = (proc p).tickets → (proc i).arrivalT = (proc p).arrivalT

instance (proc : Slot → Proc) : Decidable (NoTie proc) :=
  inferInstanceAs (Decidable (∀ i p, (proc i).state = .runnable → (proc p).state = .runnable →
    (proc i).tickets = (proc p).tickets → (proc i).arrivalT = (proc p).arrivalT))

theorem select_runnable {q : Scan} (hq : q.winner = none)
    (h : (select proc l q).winner = some p) : (proc p).state = .runnable := by
  induction l generalizing q with
  | nil =>
    rw [select, hq] at h
    cases h
  | cons b l ih =>
    rw [select] at h
    split_ifs at h with hb hlt hw
    · cases h
      exact hb
    · rw [show (q.acquire b).winner = none from hq] at h
      cases h
    · refine ih ?_ h
      exact hq
    · refine ih ?_ h
      exact hq

/-- **No order among equals.** The process that is selected arrived first among those with as many
tickets, whatever the table and the draw, if those arrived at the same time. If every `RUNNABLE`
process has a ticket and the tickets fit in an `int`, then this is so for all draws only if they
did: the scan stops at the first process it can select, and never compares times. -/
theorem lottery_tie_iff (proc : Slot → Proc) :
    (NoTie proc → ∀ r p, (lottery proc r).winner = some p → First proc p) ∧
      (Ticketed proc → total proc ≤ INT_MAX →
        ((∀ r, 0 ≤ r → r < total proc → ∀ p, (lottery proc r).winner = some p → First proc p) ↔
          NoTie proc)) := by
  have hno (h : NoTie proc) {r : ℤ} {p : Slot} (hp : (lottery proc r).winner = some p) :
      First proc p := by
    intro i hi he
    rw [h i p hi (select_runnable rfl hp) he]
    exact BitVec.le_refl _
  refine ⟨fun h r p => hno h, fun ht hint => ⟨fun h => ?_, fun h r _ _ p => hno h⟩⟩
  -- each process is selected by the draw that is the tickets ahead of it
  have hfirst (p : Slot) (hp : (proc p).state = .runnable) : First proc p := by
    have hpt := ht p hp
    have h₀ : 0 ≤ ahead proc p := ht.tickets_nonneg _
    have hlt : ahead proc p < total proc := by
      have := Draw.before_add_le (w := share proc) (fun b _ => ht.share_nonneg b)
        (List.mem_finRange p)
      rw [← ahead_eq, ← tickets_eq_sum, ← total, share, if_pos hp] at this
      omega
    refine h _ h₀ hlt p ((select_selects ht h₀ (by omega) fun _ => rfl).winner.trans ?_)
    exact (pick_eq_some_iff_belongs ht h₀).mpr ⟨hp, le_rfl, by omega⟩
  intro i p hi hp he
  exact BitVec.le_antisymm (hfirst i hi p hp he.symm) (hfirst p hp i hi he)

/-- Two processes that arrived together. -/
theorem lottery_tie_iff_three :
    ∀ r p, (lottery threeProcs r).winner = some p → First threeProcs p :=
  (lottery_tie_iff threeProcs).1 (by decide +kernel)

/-- The first child exits, and a third one gets its slot, two ticks later. -/
def reusedSlot : List Event :=
  twoChildren ++ [.dispatch 1, .trap 1 (callRegs 2 0 0) (.syscall {}),
    .trap 0 (callRegs 3 0 0) (.syscall {}), .clock, .clock,
    .trap 0 (callRegs 1 0 0) (.syscall { fork := .ok 4 })]

/-- **The later one is selected.** Two processes with one ticket each are `RUNNABLE`. The one in
slot 1 arrived two ticks after the one in slot 2, and the pass runs it. -/
theorem lottery_later_wins : ∃ s, runEvents step (boot fewPages fewFree) reusedSlot = some s ∧
    lbsPass s = some 1 ∧ (s.proc 2).state = .runnable ∧ (s.proc 2).tickets = (s.proc 1).tickets ∧
      (s.proc 2).arrivalT < (s.proc 1).arrivalT ∧ ¬ First s.proc 1 := by
  obtain ⟨s, hs, hpass, hst, htk, hlt⟩ : ∃ s, runEvents step (boot fewPages fewFree) reusedSlot =
      some s ∧ lbsPass s = some 1 ∧ (s.proc 2).state = .runnable ∧
      (s.proc 2).tickets = (s.proc 1).tickets ∧ (s.proc 2).arrivalT < (s.proc 1).arrivalT := by
      decide +kernel
  refine ⟨s, hs, hpass, hst, htk, hlt, fun h => ?_⟩
  exact absurd (h 2 hst htk) (BitVec.not_le.mpr hlt)

end Xv6.Lbs
