import Xv6.Sched.Mlfq

/-!
# The invariant of the multi-level feedback queues

Every process stays in one of the four queues, has been charged for fewer dispatches than its
queue allows, and has waited for fewer than 48 rounds unless it is in queue 0.

The last demotion is the one to exclude: a process in queue 3 may still be charged by CPUs that
chose it while it was in a lower queue. Such a CPU is one where the process is *pending*. No CPU
chooses a process that is in queue 3, so from the moment a process gets there the number of CPUs
where it is pending only falls, and each charge uses one of them up. One CPU has moved it to
queue 3; the other seven can charge it seven times, and sixteen are needed.
-/

namespace Xv6.Mlfq

variable {n : ℕ}

/-- Whether a CPU in this place may still dispatch and charge `p` as the process it chose. -/
def Pc.pending (p : Slot) : Pc → Bool
  | .select _ _ prngd _ => prngd == some p
  | .dispatch prngd i => prngd == some p && decide (i ≤ p)
  | .running q => q == p
  | _ => false

/-- Whether the search of this CPU leaves queue 3 alone. -/
def Pc.Avoids3 : Pc → Prop
  | .select qm _ _ _ => qm ≠ 3
  | _ => True

/-- The number of CPUs where `p` is pending. -/
def State.stale (s : State n) (p : Slot) : ℕ :=
  (Finset.univ.filter fun c => (s.pc c).pending p = true).card

/-- The bounds on the counters of one process. -/
structure ProcOk (p : Proc) : Prop where
  queue_nonneg : 0 ≤ p.queue
  queue_le : p.queue ≤ 3
  pqtct_nonneg : 0 ≤ p.pqtct
  pqtct_lt : p.pqtct < tickSlc p.queue
  wwpqtct : p.queue = 0 ∨ 0 ≤ p.wwpqtct ∧ p.wwpqtct < 48

/-- The invariant. -/
structure Inv (s : State n) : Prop where
  inBounds : s.qs.inBounds = true
  proc : ∀ p, ProcOk (s.proc p)
  avoids : ∀ c, (s.pc c).Avoids3
  stale : ∀ p, (s.proc p).queue = 3 → (s.proc p).pqtct + s.stale p ≤ 7

/-! ### Processes -/

variable {p : Proc}

theorem ProcOk.congr {q : Proc} (hp : ProcOk p) (hq : q.queue = p.queue)
    (ht : q.pqtct = p.pqtct) (hw : q.wwpqtct = p.wwpqtct) : ProcOk q := by
  obtain ⟨h₀, h₁, h₂, h₃, h₄⟩ := hp
  constructor <;> simp_all

variable {qs : Queues}

theorem index_inBounds {q : ℤ} (h : qs.inBounds = true) (h₀ : 0 ≤ q) (h₁ : q ≤ 3) :
    (qs.index q).inBounds = true := by
  have h₄ : q < 4 := by omega
  simp [Queues.index, h, h₀, h₄]

theorem enterQueue_inBounds {k : ℤ} (h : qs.inBounds = true)
    (hp : 0 ≤ p.queue ∧ p.queue ≤ 3) (hk : 0 ≤ k ∧ k ≤ 3) :
    (enterQueue k qs p).1.inBounds = true := by
  have hp₄ : p.queue < 4 := by omega
  have hk₄ : k < 4 := by omega
  simp [enterQueue, Queues.addNpnq, Queues.incRoqd, Queues.index, h, hp.1, hp₄, hk.1, hk₄]

theorem tickSlc_pos (q : ℤ) : 0 < tickSlc q := by
  unfold tickSlc
  split_ifs <;> omega

/-- What a change of one process has to keep. -/
structure Keeps (r : Queues × Proc) : Prop where
  inBounds : r.1.inBounds = true
  ok : ProcOk r.2

theorem boost_keeps (h : qs.inBounds = true)
    (hp : 0 ≤ p.queue ∧ p.queue ≤ 3) : Keeps (boost qs p) where
  inBounds := enterQueue_inBounds h hp (by omega)
  ok := ⟨le_rfl, by simp [boost, enterQueue], le_rfl, tickSlc_pos _, .inl rfl⟩

/-- A round of waiting, when it does not end in a boost. -/
theorem ProcOk.wait (hp : ProcOk p)
    (h : p.queue = 0 ∨ wrapInt (p.wwpqtct + 1) < 48) :
    ProcOk { p with wwpqtct := wrapInt (p.wwpqtct + 1) } := by
  refine ⟨hp.queue_nonneg, hp.queue_le, hp.pqtct_nonneg, hp.pqtct_lt, ?_⟩
  by_cases h₀ : p.queue = 0
  · exact .inl h₀
  · obtain ⟨hw₀, hw⟩ := hp.wwpqtct.resolve_left h₀
    have hwrap := wrapInt_of_lt (x := p.wwpqtct + 1) (by omega) (by omega)
    refine .inr ⟨?_, h.resolve_left h₀⟩
    simp only [hwrap]
    omega

theorem age3_keeps (h : qs.inBounds = true) (hp : ProcOk p) :
    Keeps (age3 qs p) := by
  unfold age3
  dsimp only
  split_ifs with hw
  · exact boost_keeps h ⟨hp.queue_nonneg, hp.queue_le⟩
  · exact ⟨h, hp.wait (.inr (by omega))⟩

theorem age_keeps (h : qs.inBounds = true) (hp : ProcOk p) :
    Keeps (age qs p) := by
  unfold age
  dsimp only
  split_ifs with h₀ hw
  · exact boost_keeps h ⟨hp.queue_nonneg, hp.queue_le⟩
  · exact ⟨h, hp.wait (.inr (by omega))⟩
  · exact ⟨h, hp.wait (.inl (by simpa using h₀))⟩

/-- A charge does not take a process out of queue 3, provided it has dispatches left there. -/
theorem charge_keeps (h : qs.inBounds = true) (hp : ProcOk p)
    (h₃ : p.queue = 3 → p.pqtct < 15) : Keeps (charge qs p) := by
  obtain ⟨hq₀, hq, ht₀, ht, -⟩ := hp
  have hlt : p.pqtct < 16 := by
    unfold tickSlc at ht
    split_ifs at ht <;> omega
  have hwrap := wrapInt_of_lt (x := p.pqtct + 1) (by omega) (by omega)
  have hi := index_inBounds h hq₀ hq
  unfold charge
  simp only [hwrap]
  split_ifs with hc
  · -- a full slice of queue 3 would be 16 dispatches
    have hne : p.queue ≠ 3 := by
      intro he
      have := h₃ he
      simp [tickSlc, he] at hc
      omega
    have hk : 0 ≤ p.queue + 1 ∧ p.queue + 1 ≤ 3 := by omega
    exact ⟨enterQueue_inBounds hi ⟨hq₀, hq⟩ hk,
      ⟨hk.1, hk.2, le_rfl, tickSlc_pos _, .inr ⟨le_rfl, by simp⟩⟩⟩
  · refine ⟨hi, ⟨hq₀, hq, ?_, ?_, .inr ⟨le_rfl, by simp⟩⟩⟩ <;> dsimp only <;> omega

/-- A charge that leaves the process in queue 3 either has just moved it there or has counted one
more dispatch. -/
theorem charge_queue3 (hp : ProcOk p) (h : (charge qs p).2.queue = 3) :
    (charge qs p).2.pqtct = 0 ∨ p.queue = 3 ∧ (charge qs p).2.pqtct = p.pqtct + 1 := by
  obtain ⟨-, -, ht₀, ht, -⟩ := hp
  have hlt : p.pqtct < 16 := by
    unfold tickSlc at ht
    split_ifs at ht <;> omega
  have hwrap := wrapInt_of_lt (x := p.pqtct + 1) (by omega) (by omega)
  unfold charge at h ⊢
  simp only [hwrap] at h ⊢
  split_ifs at h ⊢ with hc
  · exact .inl rfl
  · exact .inr ⟨h, rfl⟩

theorem age_queue3 (h : (age qs p).2.queue = 3) :
    p.queue = 3 ∧ (age qs p).2.pqtct = p.pqtct := by
  unfold age at h ⊢
  dsimp only at h ⊢
  split_ifs at h ⊢
  · simp [boost, enterQueue] at h
  · exact ⟨h, rfl⟩
  · exact ⟨h, rfl⟩

theorem age3_queue3 (h : (age3 qs p).2.queue = 3) :
    p.queue = 3 ∧ (age3 qs p).2.pqtct = p.pqtct := by
  unfold age3 at h ⊢
  dsimp only at h ⊢
  split_ifs at h ⊢
  · simp [boost, enterQueue] at h
  · exact ⟨h, rfl⟩

/-! ### Pending CPUs -/

theorem stale_le (s : State n) (p : Slot) : s.stale p ≤ n :=
  (Finset.card_le_univ _).trans_eq (Fintype.card_fin n)

theorem stale_setBoth (s : State n) (i : Slot) (r : Queues × Proc) (p : Slot) :
    (s.setBoth i r).stale p = s.stale p := rfl

theorem stale_setPc_le {s : State n} {c : Fin n} {pc : Pc} {p : Slot}
    (h : pc.pending p = true → (s.pc c).pending p = true) : (s.setPc c pc).stale p ≤ s.stale p := by
  refine Finset.card_le_card fun d hd => Finset.mem_filter.2 ⟨Finset.mem_univ d, ?_⟩
  obtain ⟨-, hd⟩ := Finset.mem_filter.1 hd
  by_cases hdc : d = c
  · subst hdc
    exact h (by simpa [State.setPc] using hd)
  · simpa [State.setPc, hdc] using hd

theorem stale_setPc_lt {s : State n} {c : Fin n} {pc : Pc} {p : Slot}
    (h : (s.pc c).pending p = true) (h' : pc.pending p = false) :
    (s.setPc c pc).stale p < s.stale p := by
  refine Finset.card_lt_card (Finset.ssubset_iff_of_subset ?_ |>.2 ⟨c, ?_, ?_⟩)
  · intro d hd
    obtain ⟨-, hd⟩ := Finset.mem_filter.1 hd
    refine Finset.mem_filter.2 ⟨Finset.mem_univ d, ?_⟩
    by_cases hdc : d = c
    · rwa [hdc]
    · simpa [State.setPc, hdc] using hd
  · exact Finset.mem_filter.2 ⟨Finset.mem_univ c, h⟩
  · intro hc
    obtain ⟨-, hc⟩ := Finset.mem_filter.1 hc
    simp [State.setPc, h'] at hc

/-! ### Steps -/

/-- A CPU may move where it makes no process of queue 3 pending. -/
theorem Inv.setPc {s : State n} (hs : Inv s) {c : Fin n} {pc : Pc} (ha : pc.Avoids3)
    (hp : ∀ p, (s.proc p).queue = 3 → pc.pending p = true → (s.pc c).pending p = true) :
    Inv (s.setPc c pc) where
  inBounds := hs.inBounds
  proc := hs.proc
  avoids d := by
    by_cases hd : d = c
    · subst hd
      simpa [State.setPc] using ha
    · simpa [State.setPc, hd] using hs.avoids d
  stale p h₃ := by
    have := hs.stale p h₃
    have hle : (s.setPc c pc).stale p ≤ s.stale p := stale_setPc_le (hp p h₃)
    change (s.proc p).pqtct + _ ≤ 7
    omega

theorem Inv.setBoth {s : State n} (hs : Inv s) {i : Slot} {r : Queues × Proc} (hr : Keeps r)
    (h₃ : r.2.queue = 3 → r.2.pqtct + s.stale i ≤ 7) : Inv (s.setBoth i r) where
  inBounds := hr.inBounds
  proc p := by
    by_cases hp : p = i
    · subst hp
      simpa [State.setBoth] using hr.ok
    · simpa [State.setBoth, hp] using hs.proc p
  avoids := hs.avoids
  stale p := by
    rw [stale_setBoth]
    by_cases hp : p = i
    · subst hp
      simpa [State.setBoth] using h₃
    · simpa [State.setBoth, hp] using hs.stale p

/-- A change of a slot that leaves the three counters alone. -/
theorem Inv.setProc {s : State n} (hs : Inv s) {i : Slot}
    (hq : p.queue = (s.proc i).queue) (ht : p.pqtct = (s.proc i).pqtct)
    (hw : p.wwpqtct = (s.proc i).wwpqtct) : Inv (s.setProc i p) := by
  refine hs.setBoth (r := (s.qs, p)) ⟨hs.inBounds, (hs.proc i).congr hq ht hw⟩ fun h₃ => ?_
  rw [ht]
  exact hs.stale i (hq ▸ h₃)

theorem Inv.setState {s : State n} (hs : Inv s) (i : Slot) (st : ProcState) :
    Inv (s.setProc i ((s.proc i).setState st)) :=
  hs.setProc rfl rfl rfl

section Step

variable {s t : State n} {c : Fin n}

/-- A CPU may move where nothing is pending. -/
theorem Inv.setPc_of_not_pending (hs : Inv s) {pc : Pc} (ha : pc.Avoids3)
    (hp : ∀ p, pc.pending p = false) : Inv (s.setPc c pc) :=
  hs.setPc ha fun p _ h => by simp [hp p] at h

/-- A step that only moves the CPU makes no process of queue 3 pending: the search leaves queue 3
alone. -/
theorem Inv.move (hs : Inv s) {pc pc' : Pc} (hpc : s.pc c = pc) (h : Move s.proc pc pc') :
    Inv (s.setPc c pc') := by
  have ha := hs.avoids c
  rw [hpc] at ha
  cases h with
  | toSelect _ hq => exact hs.setPc_of_not_pending hq fun _ => rfl
  | @choose qm _ _ _ hi _ hq _ =>
    refine hs.setPc ha fun p h₃ hp => absurd ?_ ha
    simp only [Pc.pending, beq_iff_eq, Option.some.injEq] at hp
    rw [← hq, hp, h₃]
  | select => exact hs.setPc ha fun p _ hp => by simpa [hpc, Pc.pending] using hp
  | toDispatch => exact hs.setPc trivial fun p _ hp => by simpa [hpc, Pc.pending] using hp
  | dispatch =>
    refine hs.setPc trivial fun p _ hp => ?_
    simp only [hpc, Pc.pending, Bool.and_eq_true, beq_iff_eq, decide_eq_true_eq] at hp ⊢
    exact ⟨hp.1, by omega⟩
  | _ => exact hs.setPc_of_not_pending trivial fun _ => rfl

/-- The charge uses up one CPU where the process was pending. -/
theorem Inv.leave (hn : n ≤ NCPU) (hs : Inv s) {p : Slot} (hpc : s.pc c = .running p)
    (st : ProcState) :
    Inv ((s.setBoth p (charge s.qs ((s.proc p).setState st))).setPc c
      (.dispatch (some p) (p + 1))) := by
  have hpend : (s.pc c).pending p = true := by simp [hpc, Pc.pending]
  have hdone : (Pc.dispatch (some p) (p + 1)).pending p = false := by simp [Pc.pending]
  have hlt := stale_setPc_lt hpend hdone
  have hmoved : Inv (s.setPc c (.dispatch (some p) (p + 1))) := by
    refine hs.setPc trivial fun q _ hq => ?_
    simp only [Pc.pending, Bool.and_eq_true, beq_iff_eq, Option.some.injEq,
      decide_eq_true_eq] at hq
    obtain ⟨rfl, hle⟩ := hq
    omega
  have hok : ProcOk ((s.proc p).setState st) := (hs.proc p).congr rfl rfl rfl
  refine hmoved.setBoth (charge_keeps hs.inBounds hok fun h₃ => ?_) fun h₃ => ?_
  · have := hs.stale p h₃
    change (s.proc p).pqtct < 15
    omega
  · have hle := stale_le s p
    obtain ht | ⟨hq, ht⟩ := charge_queue3 hok h₃
    · have : n ≤ 8 := hn
      rw [ht]
      omega
    · have := hs.stale p hq
      rw [ht]
      change (s.proc p).pqtct + 1 + _ ≤ 7
      omega

theorem Inv.allocproc (hs : Inv s) (i : Slot) (tf pt : ℕ) (now : BitVec 32) :
    Inv (allocproc i tf pt now s) := by
  have hq : ((s.qs.addNpnq 0 1).incRoqd 0).inBounds = true := by
    simp [Queues.addNpnq, Queues.incRoqd, Queues.index, hs.inBounds]
  have hp : ProcOk ((s.proc i).allocInit s.nextpid tf pt now (s.qs.npnq 0)) :=
    ⟨by simp [Proc.allocInit], by simp [Proc.allocInit], le_rfl, tickSlc_pos _,
      .inr (by simp [Proc.allocInit])⟩
  have := hs.setBoth (i := i) (r := (_, _)) ⟨hq, hp⟩ fun h => by simp at h
  exact ⟨this.inBounds, this.proc, this.avoids, this.stale⟩

/-- Every event preserves the invariant. -/
theorem Inv.step (hn : n ≤ NCPU) {e : Event n} (hs : Inv s) (h : step s e = some t) : Inv t := by
  cases step_inv h with
  | move hm => exact hs.move rfl hm
  | dispatch3 | leave3 => exact (hs.setState _ _).setPc_of_not_pending trivial fun _ => rfl
  | @age3 c p q =>
    refine (hs.setBoth (age3_keeps hs.inBounds (hs.proc q)) fun h₃ => ?_).setPc_of_not_pending
      trivial fun _ => rfl
    obtain ⟨hq, ht⟩ := age3_queue3 h₃
    rw [ht]
    exact hs.stale q hq
  | @age c prngd q hpc =>
    refine (hs.setBoth (age_keeps hs.inBounds (hs.proc q)) fun h₃ => ?_).setPc trivial
      fun p _ hp => ?_
    · obtain ⟨hq, ht⟩ := age_queue3 h₃
      rw [ht]
      exact hs.stale q hq
    · -- going on to the next slot makes nothing new pending
      change (s.pc c).pending p = true
      simp only [hpc, Pc.pending, Bool.and_eq_true, beq_iff_eq, decide_eq_true_eq] at hp ⊢
      exact ⟨hp.1, by omega⟩
  | @dispatch c p hpc =>
    refine (hs.setState _ _).setPc trivial fun q _ hq => ?_
    simp only [Pc.pending, beq_iff_eq] at hq
    simp [State.setProc, hpc, Pc.pending, hq]
  | leave hpc => exact hs.leave hn hpc _
  | alloc => exact hs.allocproc _ _ _ _
  | @allocFail i =>
    have := hs.setProc (i := i) (p := (s.proc i).free) rfl rfl rfl
    exact ⟨this.inBounds, this.proc, this.avoids, this.stale⟩
  | forkFail | forkDone | wakeup | reap => exact hs.setProc rfl rfl rfl

end Step

theorem init_inv (n : ℕ) : Inv (init n) where
  inBounds := rfl
  proc _ := ⟨le_rfl, by simp [init, Proc.zero], le_rfl, tickSlc_pos _, .inl rfl⟩
  avoids _ := trivial
  stale p h := by simp [init, Proc.zero] at h

/-- **The bounds on the queues.** In every reachable state, each process that is in use and whose
lock is free is in one of the four queues, has used less than its slice there, and has waited for
fewer than 48 rounds unless it is in queue 0; and no array has been indexed out of bounds. -/
theorem mlfq_invariant (hn : n ≤ NCPU) {es : List (Event n)} {s : State n}
    (h : runEvents step (init n) es = some s) :
    s.qs.inBounds = true ∧
      ∀ p, (s.proc p).state ≠ .unused → s.locked p = false →
        0 ≤ (s.proc p).queue ∧ (s.proc p).queue ≤ 3 ∧
          (s.proc p).pqtct < tickSlc (s.proc p).queue ∧
          ((s.proc p).queue ≠ 0 → (s.proc p).wwpqtct < 48) := by
  have hs : Inv s := runEvents_invariant (fun _ _ _ hs => hs.step hn) (init_inv n) h
  refine ⟨hs.inBounds, fun p _ _ => ?_⟩
  obtain ⟨h₀, h₁, -, h₂, h₃⟩ := hs.proc p
  exact ⟨h₀, h₁, h₂, fun hq => (h₃.resolve_left hq).2⟩

/-- Two CPUs choose the first process before either has dispatched it; then both do in turn. -/
def staleChoice : List (Event 2) :=
  [.alloc 0 1 2 0, .forkDone 0] ++ List.replicate 130 (.sched 0) ++ List.replicate 130 (.sched 1) ++
    [.sched 0, .leave 0 .yield, .sched 1, .leave 1 .yield]

theorem mlfq_invariant_staleChoice :
    ∃ s, runEvents step (init 2) staleChoice = some s ∧ (s.proc 0).state = .runnable ∧
      (s.proc 0).queue = 1 ∧ 2 = (s.proc 0).pqtct ∧ (s.proc 0).pqtct <
      tickSlc (s.proc 0).queue := by
  obtain ⟨s, hs, hst, hq, ht, hl⟩ : ∃ s, runEvents step (init 2) staleChoice = some s ∧ (s.proc
    0).state = .runnable ∧ (s.proc 0).queue = 1 ∧ (s.proc 0).pqtct = 2 ∧ s.locked 0 = false := by
    decide +kernel
  have hb := (mlfq_invariant (by decide) hs).2 0 (by simp [hst]) hl
  exact ⟨s, hs, hst, hq, ht.symm, hb.2.2.1⟩

end Xv6.Mlfq
