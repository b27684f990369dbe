import Xv6.Lib.Run
import Xv6.Log.Spec

/-!
# Log space

`begin_op` lets an operation in when there is room in the log for `MAXOPBLOCKS` blocks of every
operation that is then outstanding. It counts with `LOGSIZE` blocks. `log_write` counts with
`log.size - 1`, which is what is left of the log after its header, and `mkfs` makes a log of
`LOGSIZE` blocks, so there is one block less than has been promised.

Any processes call `begin_op`, `log_write` and `end_op`, in any order that the code allows. What is
done under `log.lock` is one step. `commit` is one step, too: while it is under way `committing`
keeps everybody out.
-/

namespace Xv6.Admission

open Function (update update_self update_of_ne)

/-- Where a process is. -/
inductive Pc
  | idle
  /-- Asleep in `begin_op`. -/
  | asleep
  /-- In `begin_op`, awake again. -/
  | waiting
  /-- Between `begin_op` and `end_op`, with the blocks that have been logged. -/
  | inside (blocks : Finset ℕ)
  /-- In `end_op`, before `commit`. -/
  | commit
  /-- In `end_op`, after `commit`. -/
  | committed
  deriving DecidableEq

/-- Why the machine has stopped. -/
inductive Panic
  | log (p : LogPanic)
  | committing
  deriving DecidableEq, Repr

/-- The log and the processes that use it. -/
structure State (ι : Type*) where
  log : LogState
  committing : Bool
  pc : ι → Pc
  panicked : Option Panic

/-- What a process does. -/
inductive Event (ι : Type*)
  /-- A round of the loop of `begin_op`. -/
  | beginOp (i : ι)
  /-- Change a block, with `log_write`. -/
  | logWrite (i : ι) (w : ℕ × Block)
  /-- `end_op`, up to `commit`. -/
  | endOp (i : ι)
  | commit (i : ι)
  /-- `end_op`, after `commit`. -/
  | finish (i : ι)
  /-- `kill` wakes a process that is asleep. -/
  | kill (i : ι)

/-- The blocks that a process has logged in its operation. -/
def Pc.blocks : Pc → Finset ℕ
  | .inside B => B
  | _ => ∅

/-- `wakeup(&log)`. -/
def wakeup {ι : Type*} (pc : ι → Pc) : ι → Pc := fun i => if pc i = .asleep then .waiting else pc i

section Step

variable {ι : Type*} [DecidableEq ι] (L : LogArea) (o : Recycle)

/-- A round of the loop of `begin_op`. -/
def beginOp (i : ι) (s : State ι) : State ι :=
  if s.committing then { s with pc := update s.pc i .asleep }
  else if s.log.lh.n + (s.log.outstanding + 1) * MAXOPBLOCKS > LOGSIZE then
    { s with pc := update s.pc i .asleep }
  else
    { s with
      log := { s.log with outstanding := s.log.outstanding + 1 }
      pc := update s.pc i (.inside ∅) }

/-- `log_write`, for a process that has logged `B`. -/
def logWrite (i : ι) (B : Finset ℕ) (w : ℕ × Block) (s : State ι) : State ι :=
  match s.log.update L o w with
  | .error p => { s with panicked := some (.log p) }
  | .ok l => { s with log := l, pc := update s.pc i (.inside (insert w.1 B)) }

/-- `end_op`, up to `commit`. -/
def endOp (i : ι) (s : State ι) : State ι :=
  let log := { s.log with outstanding := s.log.outstanding - 1 }
  if s.committing then { s with log := log, panicked := some .committing }
  else if log.outstanding = 0 then
    { s with log := log, committing := true, pc := update s.pc i .commit }
  else { s with log := log, pc := wakeup (update s.pc i .idle) }

/-- One step. Nothing happens after a panic. -/
def step (s : State ι) (e : Event ι) : Option (State ι) :=
  if s.panicked ≠ none then none
  else
    match e with
    | .beginOp i => if s.pc i = .idle ∨ s.pc i = .waiting then some (beginOp i s) else none
    | .logWrite i w =>
      match s.pc i with
      | .inside B => some (logWrite L o i B w s)
      | _ => none
    | .endOp i =>
      match s.pc i with
      | .inside _ => some (endOp i s)
      | _ => none
    | .commit i =>
      if s.pc i = .commit then
        some { s with log := s.log.commit L o, pc := update s.pc i .committed }
      else none
    | .finish i =>
      if s.pc i = .committed then
        some { s with committing := false, pc := wakeup (update s.pc i .idle) }
      else none
    | .kill i =>
      if s.pc i = .asleep then some { s with pc := update s.pc i .waiting } else none

/-- No operation is under way. -/
def boot (ι : Type*) (d : Disk) : State ι where
  log := .boot d
  committing := false
  pc := fun _ => .idle
  panicked := none

/-- The operation stays within `k` distinct blocks. -/
def State.Within (k : ℕ) (s : State ι) : Event ι → Prop
  | .logWrite i w => (insert w.1 (s.pc i).blocks).card ≤ k
  | _ => True

instance (k : ℕ) (s : State ι) : (e : Event ι) → Decidable (s.Within k e)
  | .logWrite i w => inferInstanceAs (Decidable ((insert w.1 (s.pc i).blocks).card ≤ k))
  | .beginOp _ | .endOp _ | .commit _ | .finish _ | .kill _ => inferInstanceAs (Decidable True)

/-- Steps in which every operation stays within `k` distinct blocks. -/
def stepWithin (k : ℕ) (s : State ι) (e : Event ι) : Option (State ι) :=
  if s.Within k e then step L o s e else none

end Step

/-! ### What `log_write` does -/

section LogWrite

variable {L : LogArea} {o : Recycle} {s : LogState} {w : ℕ × Block}

/-- The header lists the block. -/
def Listed (lh : LogHeader) (b : ℕ) : Prop := ∃ j < lh.n.toNat, lh.block j = BitVec.ofNat 32 b

theorem absorbIndex_lt {lh : LogHeader} {b : ℕ} (h : Listed lh b) :
    LogState.absorbIndex lh b < lh.n.toNat := by
  obtain ⟨j, hj, hb⟩ := h
  rw [LogState.absorbIndex]
  cases hf : (List.range lh.n.toNat).find? fun i => lh.block i == BitVec.ofNat 32 b with
  | none =>
    have := List.find?_eq_none.mp hf j (List.mem_range.mpr hj)
    simp [hb] at this
  | some i => exact List.mem_range.mp (List.mem_of_find?_eq_some hf)

/-- The four ways in which `log_write` ends. -/
theorem update_eq (L : LogArea) (o : Recycle) (s : LogState) (w : ℕ × Block) :
    s.update L o w =
      if s.lh.n ≥ LOGSIZE ∨ s.lh.n ≥ (L.size : ℤ) - 1 then .error .tooBig
      else if s.outstanding < 1 then .error .outsideTrans
      else
        let i := LogState.absorbIndex s.lh w.1
        let block := update s.lh.block i (BitVec.ofNat 32 w.1)
        let bc := (s.bc.bread o w.1).setData w.1 w.2
        if i = s.lh.n.toNat then
          .ok { s with bc := (bc.bpin w.1).brelse w.1, lh := ⟨s.lh.n + 1, block⟩ }
        else .ok { s with bc := bc.brelse w.1, lh := { s.lh with block := block } } := by
  have hupd : s.update L o w = (LogState.logWrite L w.1
      { s with bc := (s.bc.bread o w.1).setData w.1 w.2 }) >>= fun s =>
        pure { s with bc := s.bc.brelse w.1 } := rfl
  rw [hupd, LogState.logWrite]
  dsimp only
  split_ifs <;> rfl

/-- `log_write` adds one block to the header, unless it is there already. -/
theorem update_spec (hn : 0 ≤ s.lh.n) (hlt : s.lh.n < LOGSIZE) (hsize : s.lh.n < (L.size : ℤ) - 1)
    (ho : 1 ≤ s.outstanding) :
    ∃ t, s.update L o w = .ok t ∧ t.outstanding = s.outstanding ∧ Listed t.lh w.1 ∧
      (∀ b, Listed s.lh b → Listed t.lh b) ∧
      (t.lh.n = s.lh.n ∨ ¬ Listed s.lh w.1 ∧ t.lh.n = s.lh.n + 1) := by
  rw [update_eq, if_neg (by omega), if_neg (by omega)]
  by_cases hi : LogState.absorbIndex s.lh w.1 = s.lh.n.toNat
  · -- a new block, in the first place that is not in use
    rw [if_pos hi]
    refine ⟨_, rfl, rfl, ?_, ?_, .inr ⟨fun h => (absorbIndex_lt h).ne hi, rfl⟩⟩
    · exact ⟨s.lh.n.toNat, by dsimp only; omega, by simp [hi]⟩
    · rintro b ⟨j, hj, hb⟩
      have hne : j ≠ LogState.absorbIndex s.lh w.1 := by omega
      exact ⟨j, by dsimp only; omega, (update_of_ne hne _ _).trans hb⟩
  · have hlt' : LogState.absorbIndex s.lh w.1 < s.lh.n.toNat :=
      lt_of_le_of_ne (LogState.absorbIndex_le _ _) hi
    rw [if_neg hi]
    refine ⟨_, rfl, rfl, ⟨_, hlt', by simp⟩, ?_, .inl rfl⟩
    rintro b ⟨j, hj, hb⟩
    refine ⟨j, hj, ?_⟩
    dsimp only
    rw [← LogState.block_absorbIndex hlt', Function.update_eq_self, hb]

end LogWrite

theorem commit_n {L : LogArea} {o : Recycle} {s : LogState} (hn : 0 ≤ s.lh.n) :
    (s.commit L o).lh.n = 0 := by
  rw [LogState.commit]
  split_ifs with h
  · rfl
  · omega

theorem commit_outstanding (L : LogArea) (o : Recycle) (s : LogState) :
    (s.commit L o).outstanding = s.outstanding := by
  have hwrite : (s.writeLog L o).outstanding = s.outstanding := by
    rw [LogState.writeLog]
    induction List.range s.lh.n.toNat using List.reverseRecOn with
    | nil => rfl
    | append_singleton l a ih => rwa [List.foldl_append]
  have hinstall (t : LogState) : (t.installTrans L o false).outstanding = t.outstanding := by
    rw [LogState.installTrans]
    induction List.range t.lh.n.toNat using List.reverseRecOn with
    | nil => rfl
    | append_singleton l a ih => rwa [List.foldl_append]
  rw [LogState.commit]
  split_ifs with h
  · exact (hinstall _).trans hwrite
  · rfl

/-! ### The invariant -/

section Inv

variable {ι : Type*} {log : LogState} {committing : Bool} {pc : ι → Pc} {A : Finset ι} {i : ι}

/-- The process is the one that commits. -/
def Pc.Commits (pc : Pc) : Prop := pc = .commit ∨ pc = .committed

/-- How many blocks the operations in `A` may still log, if each stays one below `MAXOPBLOCKS`. -/
def spare (pc : ι → Pc) (A : Finset ι) : ℕ := ∑ i ∈ A, (MAXOPBLOCKS - 1 - (pc i).blocks.card)

/-- There is room in the log for everything that the operations in `A`, which are those under way,
may still log. -/
structure Inv (log : LogState) (committing : Bool) (pc : ι → Pc) (A : Finset ι) : Prop where
  inside : ∀ i, i ∈ A ↔ ∃ B, pc i = .inside B
  outstanding : log.outstanding = A.card
  nonneg : 0 ≤ log.lh.n
  room : log.lh.n + spare pc A ≤ LOGSIZE - 2
  small : ∀ i, (pc i).blocks.card ≤ MAXOPBLOCKS - 1
  listed : ∀ i, ∀ b ∈ (pc i).blocks, Listed log.lh b
  empty : A = ∅ → committing = false → log.lh.n = 0
  quiet : committing = true → A = ∅
  commits : ∀ i, (pc i).Commits → committing = true
  one : ∀ i j, (pc i).Commits → (pc j).Commits → i = j
  committed : ∀ i, pc i = .committed → log.lh.n = 0

theorem spare_le (pc : ι → Pc) (A : Finset ι) : spare pc A ≤ A.card * (MAXOPBLOCKS - 1) := by
  calc spare pc A ≤ ∑ _i ∈ A, (MAXOPBLOCKS - 1) := Finset.sum_le_sum fun i _ => Nat.sub_le _ _
    _ = A.card * (MAXOPBLOCKS - 1) := Finset.sum_const_nat fun _ _ => rfl

theorem spare_empty (pc : ι → Pc) : spare pc ∅ = 0 := Finset.sum_empty

theorem spare_congr {pc' : ι → Pc} (h : ∀ i ∈ A, (pc' i).blocks = (pc i).blocks) :
    spare pc' A = spare pc A :=
  Finset.sum_congr rfl fun i hi => by rw [h i hi]

/-- A process that is not in an operation has logged nothing. -/
theorem Pc.blocks_eq_empty {p : Pc} (hp : ∀ B, p ≠ .inside B) : p.blocks = ∅ := by
  cases p with
  | inside B => exact absurd rfl (hp B)
  | _ => rfl

/-- Processes outside of operations move about. -/
theorem Inv.move (h : Inv log committing pc A) {pc' : ι → Pc}
    (hin : ∀ i B, pc' i = .inside B ↔ pc i = .inside B)
    (hc : ∀ i, (pc' i).Commits → (pc i).Commits)
    (hd : ∀ i, pc' i = .committed → pc i = .committed) : Inv log committing pc' A := by
  have hblocks (i : ι) : (pc' i).blocks = (pc i).blocks := by
    by_cases hB : ∃ B, pc i = .inside B
    · obtain ⟨B, hB⟩ := hB
      rw [hB, (hin i B).2 hB]
    · rw [Pc.blocks_eq_empty fun B h => hB ⟨B, (hin i B).1 h⟩,
        Pc.blocks_eq_empty fun B h => hB ⟨B, h⟩]
  exact {
    inside := fun i => by simp only [h.inside i, hin]
    outstanding := h.outstanding
    nonneg := h.nonneg
    room := by
      rw [spare_congr fun i _ => hblocks i]
      exact h.room
    small := fun i => by
      rw [hblocks]
      exact h.small i
    listed := fun i => by
      rw [hblocks]
      exact h.listed i
    empty := h.empty
    quiet := h.quiet
    commits := fun i hi => h.commits i (hc i hi)
    one := fun i j hi hj => h.one i j (hc i hi) (hc j hj)
    committed := fun i hi => h.committed i (hd i hi) }

theorem Inv.wakeup (h : Inv log committing pc A) : Inv log committing (wakeup pc) A := by
  refine h.move (fun i B => ?_) (fun i => ?_) fun i => ?_ <;> rw [Admission.wakeup] <;>
    split_ifs with hi <;> simp [hi, Pc.Commits]

variable [DecidableEq ι]

theorem spare_erase (pc : ι → Pc) (hi : i ∈ A) :
    spare pc A = MAXOPBLOCKS - 1 - (pc i).blocks.card + spare pc (A.erase i) :=
  (Finset.add_sum_erase A _ hi).symm

theorem spare_update (pc : ι → Pc) (hi : i ∈ A) (p : Pc) :
    spare (update pc i p) A =
      MAXOPBLOCKS - 1 - p.blocks.card + spare pc (A.erase i) := by
  rw [spare_erase _ hi, update_self,
    spare_congr fun j hj => by rw [update_of_ne (Finset.ne_of_mem_erase hj)]]

/-- A process that is neither in an operation nor committing moves within `begin_op`. -/
theorem Inv.set (h : Inv log committing pc A) {p : Pc}
    (hi : pc i = .idle ∨ pc i = .waiting ∨ pc i = .asleep) (hp : p = .asleep ∨ p = .waiting) :
    Inv log committing (update pc i p) A := by
  have hcases (P : Pc → Prop) (j : ι) (hpi : P p ↔ P (pc i)) :
      P (update pc i p j) ↔ P (pc j) := by
    by_cases hj : j = i
    · rw [hj, update_self, hpi]
    · rw [update_of_ne hj]
  refine h.move (fun j B => hcases (· = .inside B) j ?_) (fun j => (hcases Pc.Commits j ?_).1)
    fun j => (hcases (· = .committed) j ?_).1
  all_goals rcases hi with hi | hi | hi <;> rcases hp with rfl | rfl <;> simp [hi, Pc.Commits]

/-- An operation is let in. -/
theorem Inv.enter (h : Inv log false pc A) (hi : pc i = .idle ∨ pc i = .waiting)
    (hfits : log.lh.n + (log.outstanding + 1) * MAXOPBLOCKS ≤ LOGSIZE) :
    Inv { log with outstanding := log.outstanding + 1 } false
      (update pc i (.inside ∅)) (insert i A) := by
  have hA : i ∉ A := fun hA => by
    obtain ⟨B, hB⟩ := (h.inside i).1 hA
    rcases hi with hi | hi <;> simp [hi] at hB
  have hidle (j : ι) : ¬ (update pc i (.inside ∅) j).Commits := by
    by_cases hj : j = i
    · rw [hj, update_self]
      simp [Pc.Commits]
    · rw [update_of_ne hj]
      exact fun hc => absurd (h.commits j hc) (by decide)
  exact {
    inside := fun j => by
      by_cases hj : j = i
      · simp [hj]
      · simp [hj, h.inside]
    outstanding := by
      rw [Finset.card_insert_of_notMem hA]
      push_cast
      rw [← h.outstanding]
    nonneg := h.nonneg
    room := by
      -- the reservations are for one more block of each operation than is needed
      have hspare : spare (update pc i (.inside ∅)) (insert i A) = 9 + spare pc A := by
        rw [spare_update _ (Finset.mem_insert_self i A), Finset.erase_insert hA]
        rfl
      have hle := spare_le pc A
      have hout := h.outstanding
      change log.lh.n + (log.outstanding + 1) * (10 : ℕ) ≤ (30 : ℕ) at hfits
      change spare pc A ≤ A.card * 9 at hle
      change log.lh.n + (spare _ _ : ℤ) ≤ (30 : ℕ) - 2
      rw [hspare]
      rcases Finset.eq_empty_or_nonempty A with rfl | hne
      · have h₀ := h.empty rfl rfl
        rw [Finset.card_empty] at hle
        omega
      · have := hne.card_pos
        omega
    small := fun j => by
      by_cases hj : j = i
      · simp [hj, Pc.blocks]
      · rw [update_of_ne hj]
        exact h.small j
    listed := fun j b hb => by
      by_cases hj : j = i
      · simp [hj, Pc.blocks] at hb
      · rw [update_of_ne hj] at hb
        exact h.listed j b hb
    empty := fun hA => absurd hA (Finset.insert_ne_empty i A)
    quiet := fun hc => absurd hc (by decide)
    commits := fun j hj => absurd hj (hidle j)
    one := fun j _ hj => absurd hj (hidle j)
    committed := fun j hj => absurd (.inr hj) (hidle j) }

/-- An operation logs a block. -/
theorem Inv.logs {t : LogState} {B : Finset ℕ} {b : ℕ} (h : Inv log committing pc A)
    (hi : pc i = .inside B) (hb : (insert b B).card ≤ MAXOPBLOCKS - 1)
    (hout : t.outstanding = log.outstanding) (hlisted : Listed t.lh b)
    (hkeep : ∀ b, Listed log.lh b → Listed t.lh b)
    (hn : t.lh.n = log.lh.n ∨ ¬ Listed log.lh b ∧ t.lh.n = log.lh.n + 1) :
    Inv t committing (update pc i (.inside (insert b B))) A := by
  have hA : i ∈ A := (h.inside i).2 ⟨B, hi⟩
  have hne : A ≠ ∅ := Finset.ne_empty_of_mem hA
  have hidle (j : ι) : ¬ (update pc i (.inside (insert b B)) j).Commits := by
    by_cases hj : j = i
    · rw [hj, update_self]
      simp [Pc.Commits]
    · rw [update_of_ne hj]
      exact fun hc => hne (h.quiet (h.commits j hc))
  have hroom := h.room
  have hnonneg := h.nonneg
  exact {
    inside := fun j => by
      by_cases hj : j = i
      · simp [hj, hA]
      · simp [hj, h.inside]
    outstanding := hout.trans h.outstanding
    nonneg := by omega
    room := by
      have hold := spare_erase pc hA
      have hnew := spare_update pc hA (.inside (insert b B))
      rw [hi] at hold
      change spare pc A = 9 - B.card + _ at hold
      change _ = 9 - (insert b B).card + _ at hnew
      change _ ≤ 9 at hb
      by_cases hB : b ∈ B
      · -- a block that this operation has logged before is in the header
        have hin : Listed log.lh b := h.listed i b (by rw [hi]; exact hB)
        have heq := hn.resolve_right fun h => h.1 hin
        rw [Finset.insert_eq_of_mem hB] at hnew ⊢
        rw [heq, hnew, ← hold]
        exact hroom
      · rw [Finset.card_insert_of_notMem hB] at hnew hb
        omega
    small := fun j => by
      by_cases hj : j = i
      · rw [hj, update_self]
        exact hb
      · rw [update_of_ne hj]
        exact h.small j
    listed := fun j x hx => by
      by_cases hj : j = i
      · rw [hj, update_self] at hx
        rcases Finset.mem_insert.1 hx with rfl | hx
        · exact hlisted
        · exact hkeep x (h.listed i x (by rw [hi]; exact hx))
      · rw [update_of_ne hj] at hx
        exact hkeep x (h.listed j x hx)
    empty := fun h₀ => absurd h₀ hne
    quiet := h.quiet
    commits := fun j hj => absurd hj (hidle j)
    one := fun j _ hj => absurd hj (hidle j)
    committed := fun j hj => absurd (.inr hj) (hidle j) }

/-- An operation ends. If it was the last one, its process commits. -/
theorem Inv.leave {B : Finset ℕ} (h : Inv log committing pc A) (hi : pc i = .inside B) {p : Pc}
    (hp : log.outstanding - 1 = 0 ∧ p = .commit ∨ log.outstanding - 1 ≠ 0 ∧ p = .idle) :
    Inv { log with outstanding := log.outstanding - 1 } (decide (log.outstanding - 1 = 0))
      (update pc i p) (A.erase i) := by
  have hA : i ∈ A := (h.inside i).2 ⟨B, hi⟩
  have hcard : log.outstanding - 1 = (A.erase i).card := by
    have := Finset.card_erase_add_one hA
    have := h.outstanding
    omega
  have hempty : A.erase i = ∅ ↔ log.outstanding - 1 = 0 := by
    rw [← Finset.card_eq_zero, hcard]
    omega
  have hpin (B : Finset ℕ) : p ≠ .inside B := by rcases hp with ⟨-, rfl⟩ | ⟨-, rfl⟩ <;> simp
  have hold (j : ι) : ¬ (pc j).Commits := fun hc =>
    Finset.ne_empty_of_mem hA (h.quiet (h.commits j hc))
  have hcom {j : ι} (hj : (update pc i p j).Commits) :
      j = i ∧ log.outstanding - 1 = 0 ∧ p = .commit := by
    by_cases hji : j = i
    · rw [hji, update_self] at hj
      refine ⟨hji, hp.resolve_right ?_⟩
      rintro ⟨-, rfl⟩
      simp [Pc.Commits] at hj
    · rw [update_of_ne hji] at hj
      exact absurd hj (hold j)
  exact {
    inside := fun j => by
      by_cases hj : j = i
      · simp [hj, hpin]
      · simp [hj, h.inside]
    outstanding := hcard
    nonneg := h.nonneg
    room := by
      have hroom := h.room
      have hspare := spare_erase pc hA
      rw [spare_congr fun j hj => by rw [update_of_ne (Finset.ne_of_mem_erase hj)]]
      dsimp only
      omega
    small := fun j => by
      by_cases hj : j = i
      · rw [hj, update_self, Pc.blocks_eq_empty hpin]
        exact Nat.zero_le _
      · rw [update_of_ne hj]
        exact h.small j
    listed := fun j b hb => by
      by_cases hj : j = i
      · rw [hj, update_self, Pc.blocks_eq_empty hpin] at hb
        exact absurd hb (Finset.notMem_empty b)
      · rw [update_of_ne hj] at hb
        exact h.listed j b hb
    empty := fun h₀ hc => absurd (hempty.1 h₀) (of_decide_eq_false hc)
    quiet := fun hc => hempty.2 (of_decide_eq_true hc)
    commits := fun j hj => decide_eq_true (hcom hj).2.1
    one := fun j k hj hk => (hcom hj).1.trans (hcom hk).1.symm
    committed := fun j hj => by
      obtain ⟨rfl, -, hc⟩ := hcom (.inr hj)
      rw [update_self, hc] at hj
      exact absurd hj (by simp) }

/-- The process that commits goes on, when the header is empty. -/
theorem Inv.commit {t : LogState} (h : Inv log committing pc A) (hi : (pc i).Commits) {p : Pc}
    (ht : t.lh.n = 0) (hout : t.outstanding = log.outstanding)
    (hp : committing = true ∧ p = .committed ∨ p = .idle) {c : Bool}
    (hc : c = decide (p = .committed)) :
    Inv t c (update pc i p) A := by
  have hA : A = ∅ := h.quiet (h.commits i hi)
  have hpin (B : Finset ℕ) : p ≠ .inside B := by rcases hp with ⟨-, rfl⟩ | rfl <;> simp
  have hnone (j : ι) (B : Finset ℕ) : update pc i p j ≠ .inside B := by
    by_cases hj : j = i
    · rw [hj, update_self]
      exact hpin B
    · rw [update_of_ne hj]
      exact fun hB => Finset.notMem_empty j (hA ▸ (h.inside j).2 ⟨B, hB⟩)
  have hcom {j : ι} (hj : (update pc i p j).Commits) : j = i ∧ p = .committed := by
    by_cases hji : j = i
    · rw [hji, update_self] at hj
      refine ⟨hji, ?_⟩
      rcases hp with ⟨-, rfl⟩ | rfl
      · rfl
      · simp [Pc.Commits] at hj
    · rw [update_of_ne hji] at hj
      exact absurd (h.one j i hj hi) hji
  subst hA hc
  exact {
    inside := fun j => by simp [hnone]
    outstanding := hout.trans h.outstanding
    nonneg := ht.ge
    room := by
      rw [ht, spare_empty]
      decide
    small := fun j => by
      rw [Pc.blocks_eq_empty (hnone j)]
      exact Nat.zero_le _
    listed := fun j b hb => by
      rw [Pc.blocks_eq_empty (hnone j)] at hb
      exact absurd hb (Finset.notMem_empty b)
    empty := fun _ _ => ht
    quiet := fun _ => rfl
    commits := fun j hj => decide_eq_true (hcom hj).2
    one := fun j k hj hk => (hcom hj).1.trans (hcom hk).1.symm
    committed := fun _ _ => ht }

end Inv

/-! ### Runs -/

section Runs

variable {ι : Type*} {L : LogArea} {o : Recycle} {s t : State ι}

/-- The invariant of a whole state. -/
def State.Ok (s : State ι) : Prop :=
  s.panicked = none ∧ ∃ A, Inv s.log s.committing s.pc A

theorem ok_boot (d : Disk) : (boot ι d).Ok := by
  refine ⟨rfl, ∅, ?_⟩
  exact {
    inside := fun i => by simp [boot]
    outstanding := rfl
    nonneg := le_rfl
    room := by
      rw [spare_empty]
      change (0 : ℤ) + (0 : ℕ) ≤ LOGSIZE - 2
      decide
    small := fun _ => Nat.zero_le _
    listed := fun i b hb => absurd hb (Finset.notMem_empty b)
    empty := fun _ _ => rfl
    quiet := fun _ => rfl
    commits := fun i hi => by simp [boot, Pc.Commits] at hi
    one := fun i j hi => by simp [boot, Pc.Commits] at hi
    committed := fun i hi => by simp [boot] at hi }

variable [DecidableEq ι]

/-- Every step keeps the invariant, if operations stay one block below `MAXOPBLOCKS`. -/
theorem step_ok (hL : L.size = LOGSIZE) {e : Event ι} (h : s.Ok)
    (hs : stepWithin L o (MAXOPBLOCKS - 1) s e = some t) : t.Ok := by
  obtain ⟨hfine, A, h⟩ := h
  rw [stepWithin] at hs
  split_ifs at hs with hw
  rw [step.eq_def, if_neg (by simp [hfine])] at hs
  cases e with
  | beginOp i =>
    dsimp only at hs
    split_ifs at hs with hi
    cases hs
    have hi' : s.pc i = .idle ∨ s.pc i = .waiting ∨ s.pc i = .asleep :=
      hi.imp_right .inl
    rw [beginOp]
    split_ifs with hc hfull
    · exact ⟨hfine, A, h.set hi' (.inl rfl)⟩
    · exact ⟨hfine, A, h.set hi' (.inl rfl)⟩
    · have hc' : s.committing = false := by simpa using hc
      rw [hc'] at h
      refine ⟨hfine, insert i A, ?_⟩
      dsimp only
      rw [hc']
      exact h.enter hi (not_lt.1 hfull)
  | logWrite i w =>
    dsimp only at hs
    split at hs
    · next B hB =>
      cases hs
      have hroom := h.room
      have hcard : 0 < A.card := Finset.card_pos.2 ⟨i, (h.inside i).2 ⟨B, hB⟩⟩
      have hout := h.outstanding
      obtain ⟨l, hl, hlout, hlisted, hkeep, hn⟩ := update_spec (L := L) (o := o) (w := w) h.nonneg
        (by omega) (by omega) (by omega)
      rw [State.Within, hB] at hw
      rw [logWrite, hl]
      exact ⟨hfine, A, h.logs hB hw hlout hlisted hkeep hn⟩
    · exact absurd hs (by simp)
  | endOp i =>
    dsimp only at hs
    split at hs
    · next B hB =>
      cases hs
      have hbusy : ¬ s.committing = true := fun hc =>
        Finset.ne_empty_of_mem ((h.inside i).2 ⟨B, hB⟩) (h.quiet hc)
      rw [endOp, if_neg hbusy]
      split_ifs with h₀
      · refine ⟨hfine, A.erase i, ?_⟩
        have := h.leave hB (.inl ⟨h₀, rfl⟩)
        rwa [decide_eq_true h₀] at this
      · refine ⟨hfine, A.erase i, Inv.wakeup ?_⟩
        have := h.leave hB (.inr ⟨h₀, rfl⟩)
        rw [decide_eq_false h₀] at this
        dsimp only
        rwa [Bool.eq_false_iff.2 hbusy]
    · exact absurd hs (by simp)
  | commit i =>
    dsimp only at hs
    split_ifs at hs with hi
    cases hs
    have hc : (s.pc i).Commits := .inl hi
    refine ⟨hfine, A, ?_⟩
    exact h.commit hc (commit_n h.nonneg) (commit_outstanding L o s.log)
      (.inl ⟨h.commits i hc, rfl⟩) (h.commits i hc)
  | finish i =>
    dsimp only at hs
    split_ifs at hs with hi
    cases hs
    exact ⟨hfine, A, (h.commit (.inr hi) (h.committed i hi) rfl (.inr rfl) rfl).wakeup⟩
  | kill i =>
    dsimp only at hs
    split_ifs at hs with hi
    cases hs
    exact ⟨hfine, A, h.set (.inr (.inr hi)) (.inr rfl)⟩

/-- **The log has room for operations of at most `MAXOPBLOCKS - 1` blocks.** Whatever the processes
do, and however many there are, `log_write` does not panic. -/
theorem log_space_suffices (hL : L.size = LOGSIZE) {d : Disk} {es : List (Event ι)}
    (hrun : runEvents (stepWithin L o (MAXOPBLOCKS - 1)) (boot ι d) es = some s) :
    s.panicked = none :=
  (runEvents_invariant (I := State.Ok) (fun _ _ _ h hs => step_ok hL h hs) (ok_boot d) hrun).1

end Runs

/-! ### Three operations -/

/-- Three processes each log `n` blocks of their own, at the same time. -/
def threeOps (n : ℕ) : List (Event (Fin 3)) :=
  [.beginOp 0, .beginOp 1, .beginOp 2] ++
    (List.finRange 3).flatMap fun i =>
      (List.range n).map fun k => .logWrite i (100 + 10 * i + k, fun _ => 0)

/-- An empty disk. -/
def blank : Disk := fun _ _ => 0

theorem log_space_suffices_threeOps : ∃ s,
    runEvents (stepWithin mkfsLog (fun _ _ => false) (MAXOPBLOCKS - 1)) (boot (Fin 3) blank)
      (threeOps 9) = some s ∧ s.log.lh.n = 27 ∧ s.panicked = none := by
  obtain ⟨s, hs, hn⟩ : ∃ s, runEvents (stepWithin mkfsLog (fun _ _ => false) (MAXOPBLOCKS - 1))
    (boot (Fin 3) blank) (threeOps 9) = some s ∧ s.log.lh.n = 27 := by decide +kernel
  exact ⟨s, hs, hn, log_space_suffices rfl hs⟩

/-- With `MAXOPBLOCKS` blocks each, which is what `begin_op` has promised, the last block of three
operations does not fit. -/
theorem log_space_exceeded : ∃ s,
    runEvents (stepWithin mkfsLog (fun _ _ => false) MAXOPBLOCKS) (boot (Fin 3) blank)
      (threeOps 10) = some s ∧ s.panicked = some (.log .tooBig) := by
  decide +kernel

end Xv6.Admission
