import Xv6.Log.Admission

/-!
# Transactions

What one commit writes is what the operations since the last commit have logged. An operation never
spans a commit, because `end_op` commits only when nobody is inside, and `begin_op` lets nobody in
while `committing` is set.

The run is followed by a history: how often `commit` has been called, when each process has begun
its operation, and the operations that have ended with the blocks that they have logged. No
assumption is made about how much an operation logs. Where it is too much, `log_write` panics and
the run ends.
-/

namespace Xv6

open Function (update update_self update_of_ne update_eq_self)

/-- The block numbers in the header: `lh.block[0..n)`. -/
def LogHeader.words (lh : LogHeader) : List (BitVec 32) := (List.range lh.n.toNat).map lh.block

namespace Admission

/-! ### What `log_write` does to the header -/

section LogWrite

variable {L : LogArea} {o : Recycle} {s t : LogState} {w : ℕ × Block} {p : LogPanic}

theorem listed_iff {lh : LogHeader} {b : ℕ} : Listed lh b ↔ BitVec.ofNat 32 b ∈ lh.words := by
  simp [Listed, LogHeader.words]

/-- Inside an operation `log_write` panics only for want of space. -/
theorem update_error (ho : 1 ≤ s.outstanding) (h : s.update L o w = .error p) : p = .tooBig := by
  rw [update_eq, if_neg (c := s.outstanding < 1) (by omega)] at h
  split_ifs at h
  · exact (Except.error.inj h).symm
  · dsimp only at h
    split_ifs at h

/-- **`log_write` absorbs.** It appends a block to the header unless the block is there. -/
theorem update_words (hn : 0 ≤ s.lh.n) (h : s.update L o w = .ok t) :
    t.outstanding = s.outstanding ∧ 0 ≤ t.lh.n ∧
      t.lh.words = if BitVec.ofNat 32 w.1 ∈ s.lh.words then s.lh.words
        else s.lh.words ++ [BitVec.ofNat 32 w.1] := by
  rw [update_eq] at h
  split_ifs at h
  dsimp only at h
  split_ifs at h with hi
  · -- the loop has run to the end
    obtain rfl := Except.ok.inj h
    have hmem : BitVec.ofNat 32 w.1 ∉ s.lh.words := fun hmem =>
      (absorbIndex_lt (listed_iff.2 hmem)).ne hi
    refine ⟨rfl, Int.add_nonneg hn zero_le_one, ?_⟩
    rw [if_neg hmem]
    have hsucc : (s.lh.n + 1).toNat = s.lh.n.toNat + 1 := by omega
    dsimp only [LogHeader.words]
    rw [hsucc, List.range_succ, List.map_append, List.map_singleton, hi, update_self]
    refine congrArg (· ++ _) (List.map_congr_left fun j hj => ?_)
    exact update_of_ne (List.mem_range.1 hj).ne _ _
  · obtain rfl := Except.ok.inj h
    have hlt : LogState.absorbIndex s.lh w.1 < s.lh.n.toNat :=
      lt_of_le_of_ne (LogState.absorbIndex_le _ _) hi
    have hblock := LogState.block_absorbIndex hlt
    refine ⟨rfl, hn, ?_⟩
    rw [if_pos (listed_iff.1 ⟨_, hlt, hblock⟩)]
    dsimp only [LogHeader.words]
    rw [← hblock, update_eq_self]

end LogWrite

/-! ### The history of a run -/

/-- An operation that has ended. -/
structure Op (ι : Type*) where
  proc : ι
  /-- How many commits there had been when `begin_op` let the process in. -/
  began : ℕ
  /-- How many commits there had been at `end_op`. -/
  ended : ℕ
  /-- What the process has given to `log_write` in between. -/
  blocks : Finset ℕ

/-- What has happened so far. -/
structure History (ι : Type*) where
  /-- How often `commit` has been called. -/
  commits : ℕ
  /-- How many commits there had been when a process has begun its last operation. -/
  began : ι → ℕ
  ops : List (Op ι)

/-- The log and its history. -/
structure Traced (ι : Type*) where
  state : State ι
  history : History ι

section Record

variable {ι : Type*} [DecidableEq ι]

/-- The history after an event that leads from `s` to `t`. -/
def History.record (h : History ι) (s t : State ι) : Event ι → History ι
  | .beginOp i =>
    match t.pc i with
    | .inside _ => { h with began := update h.began i h.commits }
    | _ => h
  | .endOp i => { h with ops := ⟨i, h.began i, h.commits, (s.pc i).blocks⟩ :: h.ops }
  | .commit _ => { h with commits := h.commits + 1 }
  | .logWrite _ _ | .finish _ | .kill _ => h

/-- One step, and what it adds to the history. -/
def Traced.step (L : LogArea) (o : Recycle) (s : Traced ι) (e : Event ι) : Option (Traced ι) :=
  (Admission.step L o s.state e).map fun t => ⟨t, s.history.record s.state t e⟩

end Record

/-- No operation has been begun. -/
def Traced.boot (ι : Type*) (d : Disk) : Traced ι := ⟨Admission.boot ι d, ⟨0, fun _ => 0, []⟩⟩

/-! ### The invariant -/

section Inv

variable {ι : Type*} {log : LogState} {committing : Bool} {pc : ι → Pc} {A : Finset ι} {i : ι}
variable {h : History ι}

/-- The operations in `A` are those under way, and they have all begun after the last commit. The
header holds what they and the operations that have ended since then have logged. -/
structure Isolated (log : LogState) (committing : Bool) (pc : ι → Pc) (h : History ι)
    (A : Finset ι) : Prop where
  inside : ∀ i, i ∈ A ↔ ∃ B, pc i = .inside B
  outstanding : log.outstanding = A.card
  quiet : committing = true → A = ∅
  commits : ∀ i, (pc i).Commits → committing = true
  one : ∀ i j, (pc i).Commits → (pc j).Commits → i = j
  nonneg : 0 ≤ log.lh.n
  nodup : log.lh.words.Nodup
  began : ∀ i ∈ A, h.began i = h.commits
  spans : ∀ op ∈ h.ops, op.began = op.ended ∧ op.ended ≤ h.commits
  words : ∀ c, c ∈ log.lh.words ↔
    (∃ op ∈ h.ops, op.ended = h.commits ∧ ∃ b ∈ op.blocks, BitVec.ofNat 32 b = c) ∨
      ∃ i, ∃ b ∈ (pc i).blocks, BitVec.ofNat 32 b = c

/-- Processes outside of operations move about. -/
theorem Isolated.move (hI : Isolated log committing pc h A) {pc' : ι → Pc}
    (hin : ∀ i B, pc' i = .inside B ↔ pc i = .inside B)
    (hc : ∀ i, (pc' i).Commits → (pc i).Commits) : Isolated log committing pc' h A := by
  have hblocks (i : ι) : (pc' i).blocks = (pc i).blocks := by
    by_cases hB : ∃ B, pc i = .inside B
    · obtain ⟨B, hB⟩ := hB
      rw [hB, (hin i B).2 hB]
    · rw [Pc.blocks_eq_empty fun B h => hB ⟨B, (hin i B).1 h⟩,
        Pc.blocks_eq_empty fun B h => hB ⟨B, h⟩]
  exact {
    hI with
    inside := fun i => by simp only [hI.inside i, hin]
    commits := fun i hi => hI.commits i (hc i hi)
    one := fun i j hi hj => hI.one i j (hc i hi) (hc j hj)
    words := fun c => by simp only [hI.words c, hblocks] }

theorem Isolated.wakeup (hI : Isolated log committing pc h A) :
    Isolated log committing (wakeup pc) h A := by
  refine hI.move (fun i B => ?_) fun i => ?_ <;> rw [Admission.wakeup] <;>
    split_ifs with hi <;> simp [hi, Pc.Commits]

/-- While an operation is under way nobody commits. -/
theorem Isolated.not_commits (hI : Isolated log committing pc h A) (hA : i ∈ A) (j : ι) :
    ¬ (pc j).Commits := fun hj =>
  Finset.ne_empty_of_mem hA (hI.quiet (hI.commits j hj))

variable [DecidableEq ι]

/-- A process that is not in an operation moves within `begin_op`. -/
theorem Isolated.set (hI : Isolated log committing pc h A) {p : Pc}
    (hi : ∀ B, pc i ≠ .inside B) (hp : p = .asleep ∨ p = .waiting) :
    Isolated log committing (update pc i p) h A := by
  refine hI.move (fun j B => ?_) fun j hj => ?_
  · by_cases hji : j = i
    · subst hji
      rw [update_self]
      exact iff_of_false (by rcases hp with rfl | rfl <;> simp) (hi B)
    · rw [update_of_ne hji]
  · by_cases hji : j = i
    · subst hji
      rw [update_self] at hj
      rcases hp with rfl | rfl <;> simp [Pc.Commits] at hj
    · rwa [update_of_ne hji] at hj

theorem not_commits_update_inside {B : Finset ℕ} (hpc : ∀ j, ¬ (pc j).Commits) (j : ι) :
    ¬ (update pc i (.inside B) j).Commits := by
  by_cases hji : j = i
  · rw [hji, update_self]
    simp [Pc.Commits]
  · rw [update_of_ne hji]
    exact hpc j

/-- The blocks of all processes when one of them is in another place. -/
theorem exists_blocks_update (pc : ι → Pc) (i : ι) (p : Pc) (P : ℕ → Prop) :
    (∃ j, ∃ b ∈ (update pc i p j).blocks, P b) ↔
      (∃ b ∈ p.blocks, P b) ∨ ∃ j, j ≠ i ∧ ∃ b ∈ (pc j).blocks, P b := by
  constructor
  · rintro ⟨j, b, hb, hP⟩
    by_cases hj : j = i
    · rw [hj, update_self] at hb
      exact .inl ⟨b, hb, hP⟩
    · rw [update_of_ne hj] at hb
      exact .inr ⟨j, hj, b, hb, hP⟩
  · rintro (⟨b, hb, hP⟩ | ⟨j, hj, b, hb, hP⟩)
    · exact ⟨i, b, by rwa [update_self], hP⟩
    · exact ⟨j, b, by rwa [update_of_ne hj], hP⟩

theorem exists_blocks (pc : ι → Pc) (i : ι) (P : ℕ → Prop) :
    (∃ j, ∃ b ∈ (pc j).blocks, P b) ↔
      (∃ b ∈ (pc i).blocks, P b) ∨ ∃ j, j ≠ i ∧ ∃ b ∈ (pc j).blocks, P b := by
  have := exists_blocks_update pc i (pc i) P
  rwa [update_eq_self] at this

/-- An operation is let in. -/
theorem Isolated.enter (hI : Isolated log false pc h A) (hi : ∀ B, pc i ≠ .inside B) :
    Isolated { log with outstanding := log.outstanding + 1 } false
      (update pc i (.inside ∅)) { h with began := update h.began i h.commits }
      (insert i A) := by
  have hA : i ∉ A := fun hA => by
    obtain ⟨B, hB⟩ := (hI.inside i).1 hA
    exact hi B hB
  have hidle (j : ι) : ¬ (update pc i (.inside ∅) j).Commits :=
    not_commits_update_inside (fun j hj => absurd (hI.commits j hj) (by decide)) j
  exact {
    inside := fun j => by
      by_cases hj : j = i
      · simp [hj]
      · simp [hj, hI.inside]
    outstanding := by
      rw [Finset.card_insert_of_notMem hA]
      push_cast
      rw [← hI.outstanding]
    quiet := fun hc => absurd hc (by decide)
    commits := fun j hj => absurd hj (hidle j)
    one := fun j _ hj => absurd hj (hidle j)
    nonneg := hI.nonneg
    nodup := hI.nodup
    began := fun j hj => by
      by_cases hji : j = i
      · rw [hji]
        exact update_self _ _ _
      · refine (update_of_ne hji _ _).trans (hI.began j ?_)
        exact Finset.mem_of_mem_insert_of_ne hj hji
    spans := hI.spans
    words := fun c => by
      rw [exists_blocks_update, hI.words c, exists_blocks pc i, Pc.blocks_eq_empty hi]
      rfl }

/-- An operation logs a block. -/
theorem Isolated.logs {t : LogState} {B : Finset ℕ} {b : ℕ} (hI : Isolated log committing pc h A)
    (hi : pc i = .inside B) (hout : t.outstanding = log.outstanding) (hn : 0 ≤ t.lh.n)
    (ht : t.lh.words = if BitVec.ofNat 32 b ∈ log.lh.words then log.lh.words
      else log.lh.words ++ [BitVec.ofNat 32 b]) :
    Isolated t committing (update pc i (.inside (insert b B))) h A := by
  have hA : i ∈ A := (hI.inside i).2 ⟨B, hi⟩
  have hidle (j : ι) : ¬ (update pc i (.inside (insert b B)) j).Commits :=
    not_commits_update_inside (hI.not_commits hA) j
  have hmem (c : BitVec 32) : c ∈ t.lh.words ↔ c ∈ log.lh.words ∨ BitVec.ofNat 32 b = c := by
    rw [ht]
    split_ifs with hb
    · exact ⟨.inl, fun hc => hc.elim id fun hc => hc ▸ hb⟩
    · rw [List.mem_append, List.mem_singleton, eq_comm (a := c)]
  exact {
    inside := fun j => by
      by_cases hj : j = i
      · simp [hj, hA]
      · simp [hj, hI.inside]
    outstanding := hout.trans hI.outstanding
    quiet := hI.quiet
    commits := fun j hj => absurd hj (hidle j)
    one := fun j _ hj => absurd hj (hidle j)
    nonneg := hn
    nodup := by
      rw [ht]
      split_ifs with hb
      · exact hI.nodup
      · exact hI.nodup.append (List.nodup_singleton _) (by simpa using hb)
    began := hI.began
    spans := hI.spans
    words := fun c => by
      rw [hmem, exists_blocks_update, hI.words c, exists_blocks pc i, hi]
      change _ ↔ _ ∨ (∃ x ∈ insert b B, _) ∨ _
      rw [Finset.exists_mem_insert]
      change (_ ∨ (∃ x ∈ B, _) ∨ _) ∨ _ ↔ _
      simp only [or_assoc, or_comm] }

/-- An operation ends. If it was the last one, its process commits. -/
theorem Isolated.leave {B : Finset ℕ} (hI : Isolated log committing pc h A) (hi : pc i = .inside B)
    {p : Pc} (hp : log.outstanding - 1 = 0 ∧ p = .commit ∨ log.outstanding - 1 ≠ 0 ∧ p = .idle) :
    Isolated { log with outstanding := log.outstanding - 1 } (decide (log.outstanding - 1 = 0))
      (update pc i p) { h with ops := ⟨i, h.began i, h.commits, B⟩ :: h.ops }
      (A.erase i) := by
  have hA : i ∈ A := (hI.inside i).2 ⟨B, hi⟩
  have hcard : log.outstanding - 1 = (A.erase i).card := by
    have := Finset.card_erase_add_one hA
    have := hI.outstanding
    omega
  have hpin (B : Finset ℕ) : p ≠ .inside B := by rcases hp with ⟨-, rfl⟩ | ⟨-, rfl⟩ <;> simp
  have hlast (j : ι) (hj : (update pc i p j).Commits) : j = i := by
    by_contra hji
    rw [update_of_ne hji] at hj
    exact hI.not_commits hA j hj
  exact {
    inside := fun j => by
      by_cases hj : j = i
      · simp [hj, hpin]
      · simp [hj, hI.inside]
    outstanding := hcard
    quiet := fun hc => by
      rw [← Finset.card_eq_zero]
      have := of_decide_eq_true hc
      omega
    commits := fun j hj => by
      by_cases hji : j = i
      · rw [hji, update_self] at hj
        rcases hp with ⟨h₀, -⟩ | ⟨-, rfl⟩
        · exact decide_eq_true h₀
        · simp [Pc.Commits] at hj
      · rw [update_of_ne hji] at hj
        exact absurd hj (hI.not_commits hA j)
    one := fun j k hj hk => (hlast j hj).trans (hlast k hk).symm
    nonneg := hI.nonneg
    nodup := hI.nodup
    began := fun j hj => hI.began j (Finset.mem_of_mem_erase hj)
    spans := fun op hop => by
      rcases List.mem_cons.1 hop with rfl | hop
      · exact ⟨hI.began i hA, le_rfl⟩
      · exact hI.spans op hop
    words := fun c => by
      rw [exists_blocks_update, Pc.blocks_eq_empty hpin, hI.words c, exists_blocks pc i, hi]
      change (_ ∨ (∃ x ∈ B, _) ∨ _) ↔ _
      simp only [List.exists_mem_cons_iff, Finset.notMem_empty, false_and, exists_false, false_or,
        true_and]
      simp only [or_assoc, or_comm, or_left_comm] }

/-- The process that commits goes on. -/
theorem Isolated.commit {t : LogState} (hI : Isolated log committing pc h A) (hi : pc i = .commit)
    (hn : t.lh.n = 0) (hout : t.outstanding = log.outstanding) :
    Isolated t committing (update pc i .committed) { h with commits := h.commits + 1 }
      A := by
  have hA : A = ∅ := hI.quiet (hI.commits i (.inl hi))
  have hnone (j : ι) (B : Finset ℕ) : update pc i .committed j ≠ .inside B := by
    by_cases hj : j = i
    · simp [hj]
    · rw [update_of_ne hj]
      exact fun hB => Finset.notMem_empty j (hA ▸ (hI.inside j).2 ⟨B, hB⟩)
  have hlast (j : ι) (hj : (update pc i .committed j).Commits) : j = i := by
    by_contra hji
    rw [update_of_ne hji] at hj
    exact hji (hI.one j i hj (.inl hi))
  have hwords : t.lh.words = [] := by
    rw [LogHeader.words, hn]
    rfl
  subst hA
  exact {
    inside := fun j => by simp [hnone]
    outstanding := hout.trans hI.outstanding
    quiet := fun _ => rfl
    commits := fun j hj => hI.commits i (.inl hi)
    one := fun j k hj hk => (hlast j hj).trans (hlast k hk).symm
    nonneg := hn.ge
    nodup := by
      rw [hwords]
      exact List.nodup_nil
    began := fun j hj => absurd hj (Finset.notMem_empty j)
    spans := fun op hop => ⟨(hI.spans op hop).1, Nat.le_succ_of_le (hI.spans op hop).2⟩
    words := fun c => by
      -- no operation has ended since
      rw [hwords]
      refine iff_of_false List.not_mem_nil ?_
      rintro (⟨op, hop, hend, -⟩ | ⟨j, b, hb, -⟩)
      · exact absurd (hI.spans op hop).2 (by dsimp only at hend; omega)
      · rw [Pc.blocks_eq_empty (hnone j)] at hb
        exact Finset.notMem_empty b hb }

/-- `committing` is cleared. -/
theorem Isolated.finish (hI : Isolated log committing pc h A) (hi : pc i = .committed) :
    Isolated log false (update pc i .idle) h A := by
  have hmove : Isolated log committing (update pc i .idle) h A := by
    refine hI.move (fun j B => ?_) fun j hj => ?_
    · by_cases hji : j = i
      · simp [hji, hi]
      · rw [update_of_ne hji]
    · by_cases hji : j = i
      · simp [hji, Pc.Commits] at hj
      · rwa [update_of_ne hji] at hj
  refine { hmove with
    quiet := fun hc => absurd hc (by decide)
    commits := fun j hj => ?_ }
  by_cases hji : j = i
  · simp [hji, Pc.Commits] at hj
  · rw [update_of_ne hji] at hj
    exact absurd (hI.one j i hj (.inr hi)) hji

end Inv

/-! ### Runs -/

section Runs

variable {ι : Type*} {L : LogArea} {o : Recycle}

/-- The invariant of a state with its history. After a panic it still holds of the state in which
`log_write` has panicked. -/
def Traced.Isolated (s : Traced ι) : Prop :=
  (s.state.panicked = none ∨ s.state.panicked = some (.log .tooBig)) ∧
    ∃ A, Admission.Isolated s.state.log s.state.committing s.state.pc s.history A

theorem Traced.isolated_boot (d : Disk) : (Traced.boot ι d).Isolated := by
  refine ⟨.inl rfl, ∅, ?_⟩
  exact {
    inside := fun i => by simp [boot, Admission.boot]
    outstanding := rfl
    quiet := fun _ => rfl
    commits := fun i hi => by simp [boot, Admission.boot, Pc.Commits] at hi
    one := fun i j hi => by simp [boot, Admission.boot, Pc.Commits] at hi
    nonneg := le_rfl
    nodup := List.nodup_nil
    began := fun i hi => absurd hi (Finset.notMem_empty i)
    spans := fun op hop => absurd hop List.not_mem_nil
    words := fun c => by simp [boot, Admission.boot, LogState.boot, LogHeader.words, Pc.blocks] }

variable [DecidableEq ι]

/-- Every step keeps the invariant. -/
theorem Traced.step_isolated {s t : Traced ι} {e : Event ι} (hs : s.Isolated)
    (hstep : Traced.step L o s e = some t) : t.Isolated := by
  obtain ⟨s, h⟩ := s
  obtain ⟨-, A, hI⟩ := hs
  obtain ⟨u, hu, rfl⟩ := Option.map_eq_some_iff.1 hstep
  dsimp only at hI hu ⊢
  rw [Admission.step.eq_def] at hu
  split_ifs at hu with hfine
  have hfine : s.panicked = none := not_not.1 hfine
  cases e with
  | beginOp i =>
    dsimp only at hu
    split_ifs at hu with hi
    cases hu
    have hi' : ∀ B, s.pc i ≠ .inside B := fun B hB => by rcases hi with hi | hi <;> simp [hi] at hB
    rw [beginOp]
    split_ifs with hc hfull
    · refine ⟨.inl hfine, A, ?_⟩
      simp only [History.record, update_self]
      exact hI.set hi' (.inl rfl)
    · refine ⟨.inl hfine, A, ?_⟩
      simp only [History.record, update_self]
      exact hI.set hi' (.inl rfl)
    · have hc' : s.committing = false := by simpa using hc
      refine ⟨.inl hfine, insert i A, ?_⟩
      simp only [History.record, update_self]
      rw [hc'] at hI ⊢
      exact hI.enter hi'
  | logWrite i w =>
    dsimp only at hu
    split at hu
    · next B hB =>
      cases hu
      have hcard : 0 < A.card := Finset.card_pos.2 ⟨i, (hI.inside i).2 ⟨B, hB⟩⟩
      have hout := hI.outstanding
      rw [logWrite]
      cases hupd : s.log.update L o w with
      | error p =>
        obtain rfl := update_error (by omega) hupd
        exact ⟨.inr rfl, A, hI⟩
      | ok l =>
        obtain ⟨hlout, hn, hwords⟩ := update_words hI.nonneg hupd
        exact ⟨.inl hfine, A, hI.logs hB hlout hn hwords⟩
    · exact absurd hu (by simp)
  | endOp i =>
    dsimp only at hu
    split at hu
    · next B hB =>
      cases hu
      have hbusy : ¬ s.committing = true := fun hc =>
        Finset.ne_empty_of_mem ((hI.inside i).2 ⟨B, hB⟩) (hI.quiet hc)
      rw [endOp, if_neg hbusy]
      simp only [History.record, hB, Pc.blocks]
      split_ifs with h₀
      · refine ⟨.inl hfine, A.erase i, ?_⟩
        have := hI.leave hB (.inl ⟨h₀, rfl⟩)
        rwa [decide_eq_true h₀] at this
      · refine ⟨.inl hfine, A.erase i, Isolated.wakeup ?_⟩
        have := hI.leave hB (.inr ⟨h₀, rfl⟩)
        rw [decide_eq_false h₀] at this
        rwa [Bool.eq_false_iff.2 hbusy]
    · exact absurd hu (by simp)
  | commit i =>
    dsimp only at hu
    split_ifs at hu with hi
    cases hu
    exact ⟨.inl hfine, A, hI.commit hi (commit_n hI.nonneg) (commit_outstanding L o s.log)⟩
  | finish i =>
    dsimp only at hu
    split_ifs at hu with hi
    cases hu
    exact ⟨.inl hfine, A, (hI.finish hi).wakeup⟩
  | kill i =>
    dsimp only at hu
    split_ifs at hu with hi
    cases hu
    exact ⟨.inl hfine, A, hI.set (fun B hB => by simp [hi] at hB) (.inr rfl)⟩

/-- **Transactions are isolated.** After any steps of any processes, nobody is inside while the log
is being committed, `outstanding` counts the processes inside, the only panic is that of a
transaction that is too big, the header lists each block once, and what is about to be committed is
what the operations since the last commit have logged, each of which has begun and ended since
then. -/
theorem transactions_isolated {d : Disk} {es : List (Event ι)} {s : State ι} {h : History ι}
    (hrun : runEvents (Traced.step L o) (Traced.boot ι d) es = some ⟨s, h⟩) :
    (s.committing = true → s.log.outstanding = 0) ∧
      (∃ A : Finset ι, (∀ i, i ∈ A ↔ ∃ B, s.pc i = .inside B) ∧ s.log.outstanding = A.card) ∧
      s.panicked ≠ some .committing ∧ s.panicked ≠ some (.log .outsideTrans) ∧
      s.log.lh.words.Nodup ∧
      (∀ op ∈ h.ops, op.began = op.ended) ∧
      ∀ i, s.pc i = .commit → ∀ c, c ∈ s.log.lh.words ↔
        ∃ op ∈ h.ops, op.began = h.commits ∧ op.ended = h.commits ∧
          ∃ b ∈ op.blocks, BitVec.ofNat 32 b = c := by
  obtain ⟨hpanic, A, hI⟩ := runEvents_invariant (I := Traced.Isolated)
    (fun _ _ _ hs hst => Traced.step_isolated hs hst) (Traced.isolated_boot d) hrun
  dsimp only at hpanic hI
  refine ⟨fun hc => ?_, ⟨A, hI.inside, hI.outstanding⟩, ?_, ?_, hI.nodup,
    fun op hop => (hI.spans op hop).1, fun i hi c => ?_⟩
  · rw [hI.outstanding, hI.quiet hc]
    rfl
  · rcases hpanic with hp | hp <;> simp [hp]
  · rcases hpanic with hp | hp <;> simp [hp]
  · have hA := hI.quiet (hI.commits i (.inl hi))
    rw [hI.words c]
    constructor
    · rintro (⟨op, hop, hend, hb⟩ | ⟨j, b, hb, -⟩)
      · exact ⟨op, hop, (hI.spans op hop).1.trans hend, hend, hb⟩
      · have hj : ∀ B, s.pc j ≠ .inside B := fun B hB =>
          Finset.notMem_empty j (hA ▸ (hI.inside j).2 ⟨B, hB⟩)
        rw [Pc.blocks_eq_empty hj] at hb
        exact absurd hb (Finset.notMem_empty b)
    · rintro ⟨op, hop, -, hend, hb⟩
      exact .inl ⟨op, hop, hend, hb⟩

end Runs

/-- Two operations run at the same time and log a block of both and one of each. The second to end
commits. -/
def twoOps : List (Event (Fin 2)) :=
  [.beginOp 0, .beginOp 1, .logWrite 0 (50, fun _ => 1), .logWrite 1 (50, fun _ => 2),
    .logWrite 1 (51, fun _ => 3), .logWrite 0 (52, fun _ => 4), .endOp 1, .endOp 0]

theorem transactions_isolated_twoOps : ∃ s h,
    runEvents (Traced.step mkfsLog (fun _ _ => false)) (Traced.boot (Fin 2) blank) twoOps =
        some ⟨s, h⟩ ∧
      s.pc 0 = .commit ∧ s.log.lh.words = [50, 51, 52] ∧
      ∀ c, c ∈ s.log.lh.words ↔ ∃ op ∈ h.ops, op.began = h.commits ∧ op.ended = h.commits ∧
        ∃ b ∈ op.blocks, BitVec.ofNat 32 b = c := by
  obtain ⟨⟨s, h⟩, hs, hpc, hwords⟩ : ∃ s, runEvents (Traced.step mkfsLog (fun _ _ => false))
      (Traced.boot (Fin 2) blank) twoOps = some s ∧ s.state.pc 0 = .commit ∧
      s.state.log.lh.words = [50, 51, 52] := by decide +kernel
  exact ⟨s, h, hs, hpc, hwords, (transactions_isolated hs).2.2.2.2.2.2 0 hpc⟩

end Admission

end Xv6
