import Xv6.Pipe.Basic

/-!
# No lost wakeup

A process that sleeps on a pipe has nothing to do there, as long as `pi->lock` is free: a reader
finds the pipe empty, a writer finds it full, and the other end is open. While somebody has the lock
this may fail for those whom that process is still going to wake.

There is a way out of `pipewrite` on which nobody is woken. A writer that is killed when it has put
some of its bytes into the pipe gives back the lock and returns, and readers sleep on.
-/

namespace Xv6.Pipe

open Function (update update_self update_of_ne)

variable {N : ℕ} {s t : State N} {j : Fin N}

/-- Who sleeps on the channel has nothing to do. -/
def State.Calm (s : State N) : Chan → Prop
  | .nread => s.nread = s.nwrite ∧ s.writeopen = true
  | .nwrite => s.nwrite = s.nread + BitVec.ofNat 32 PIPESIZE ∧ s.readopen = true

/-- A process has `pi->lock`. -/
def Pc.Locked : Pc → Prop
  | .writeLoop _ _ | .readWait _ | .readCopy _ _ | .close _ | .waking _ _ _ => True
  | .idle | .pipewrite _ | .piperead _ | .pipeclose _ | .sleeping _ => False

/-- The loop of `pipewrite` is not left by its first `return`. -/
def State.Stays (s : State N) (j : Fin N) : Prop := s.readopen = true ∧ s.killed j = false

/-- A process at `pc` is still going to wake those who sleep on `c`, and `p` among them. -/
def Pc.Owes (stays : Prop) : Pc → Chan → Fin N → Prop
  | .waking d k _, c, p => c = d ∧ k ≤ p
  | .writeLoop i n, c, _ => c = .nread ∧ 0 < i ∧ (stays ∨ n ≤ i)
  | .readCopy _ _, c, _ => c = .nwrite
  | _, _, _ => False

/-- Whoever has the lock is still going to wake `p`. -/
def State.Owed (s : State N) (c : Chan) (p : Fin N) : Prop :=
  ∃ j, s.lock = some j ∧ (s.pc j).Owes (s.Stays j) c p

/-- The processes and the lock fit together, and who sleeps has nothing to do or is going to be
woken. -/
structure Inv (s : State N) : Prop where
  locked : ∀ j, (s.pc j).Locked ↔ s.lock = some j
  sleeping : ∀ p c, (s.status p).On c → ∃ w, s.pc p = .sleeping w
  next : ∀ j c k w, s.pc j = .waking c k (.sleep w) → s.Calm w.chan
  watched : Watched s.Calm s.Owed s.status

theorem Inv.calm_of_free (h : Inv s) (hl : s.lock = none) {p : Fin N} {c : Chan}
    (hp : (s.status p).On c) : s.Calm c := by
  rcases h.watched p c hp with hc | ⟨j, hj, -⟩
  · exact hc
  · rw [hl] at hj
    cases hj

theorem Inv.calm_or_owes (h : Inv s) (hl : s.lock = some j) {p : Fin N} {c : Chan}
    (hp : (s.status p).On c) : s.Calm c ∨ (s.pc j).Owes (s.Stays j) c p := by
  rcases h.watched p c hp with hc | ⟨i, hi, ho⟩
  · exact .inl hc
  · cases hl.symm.trans hi
    exact .inr ho

/-- A process that has the lock is not asleep. -/
theorem Inv.not_on (h : Inv s) (hj : (s.pc j).Locked) (c : Chan) : ¬ (s.status j).On c := by
  intro hon
  obtain ⟨w, hw⟩ := h.sleeping j c hon
  rw [hw] at hj
  exact hj

/-! ### What a process can do about the lock -/

/-- A process that has not got the lock moves on without it. -/
theorem Inv.stays_out (h : Inv s) {pc : Pc} (hj : ¬ (s.pc j).Locked) (hpc : ¬ pc.Locked)
    (hon : ∀ c, ¬ (s.status j).On c) : Inv (s.goto j pc) := by
  have hlock (i : Fin N) (hi : s.lock = some i) : i ≠ j := by
    rintro rfl
    exact hj ((h.locked i).2 hi)
  refine ⟨fun i => ?_, fun p c hp => ?_, fun i c k w hi => ?_, ?_⟩
  · by_cases hij : i = j
    · subst hij
      simp only [State.goto, update_self, hpc, false_iff]
      exact fun hi => hlock i hi rfl
    · simp only [State.goto, update_of_ne hij]
      exact h.locked i
  · have hpj : p ≠ j := by
      rintro rfl
      exact hon c hp
    simp only [State.goto, update_of_ne hpj]
    exact h.sleeping p c hp
  · have hij : i ≠ j := by
      rintro rfl
      simp only [State.goto, update_self] at hi
      exact hpc (hi ▸ trivial)
    simp only [State.goto, update_of_ne hij] at hi
    exact h.next i c k w hi
  · refine h.watched.mono (fun _ _ => id) fun p c hp hc => hc.imp id ?_
    rintro ⟨i, hi, ho⟩
    have hpc' : (s.goto j pc).pc i = s.pc i := update_of_ne (hlock i hi) _ _
    exact ⟨i, hi, hpc' ▸ ho⟩

/-- A process takes the lock. -/
theorem Inv.acquire (h : Inv s) {pc : Pc} (ht : acquire s j pc = some t) (hpc : pc.Locked)
    (hnext : ∀ c k w, pc ≠ .waking c k (.sleep w)) (hon : ∀ c, ¬ (s.status j).On c) : Inv t := by
  unfold Pipe.acquire at ht
  split at ht
  · rename_i hl
    cases ht
    have hfree (i : Fin N) : ¬ (s.pc i).Locked := fun hi => by
      rw [(h.locked i).1 hi] at hl
      cases hl
    refine ⟨fun i => ?_, fun p c hp => ?_, fun i c k w hi => ?_, ?_⟩
    · by_cases hij : i = j
      · subst hij
        simp [State.goto, hpc]
      · simp [State.goto, update_of_ne hij, hfree, Ne.symm hij]
    · have hpj : p ≠ j := by
        rintro rfl
        exact hon c hp
      simp only [State.goto, update_of_ne hpj]
      exact h.sleeping p c hp
    · by_cases hij : i = j
      · subst hij
        simp only [State.goto, update_self] at hi
        exact absurd hi (hnext c k w)
      · simp only [State.goto, update_of_ne hij] at hi
        exact absurd (hi ▸ trivial) (hfree i)
    · exact fun p c hp => .inl (h.calm_of_free hl hp)
  · cases ht

/-- The process that has the lock keeps it. -/
theorem Inv.keep (h : Inv s) (pc : Pc) (hj : (s.pc j).Locked) (hpc : pc.Locked)
    (hlock : t.lock = s.lock) (hpcs : t.pc = update s.pc j pc)
    (hstatus : ∀ p c, (t.status p).On c → (s.status p).On c)
    (hnext : ∀ c k w, pc = .waking c k (.sleep w) → t.Calm w.chan)
    (hwatched : Watched t.Calm (fun c p => pc.Owes (t.Stays j) c p) t.status) : Inv t := by
  have hl := (h.locked j).1 hj
  refine ⟨fun i => ?_, fun p c hp => ?_, fun i c k w hi => ?_, ?_⟩
  · rw [hlock, hpcs]
    by_cases hij : i = j
    · subst hij
      simp [hpc, hl]
    · rw [update_of_ne hij]
      exact h.locked i
  · have hp := hstatus p c hp
    have hpj : p ≠ j := by
      rintro rfl
      exact h.not_on hj c hp
    rw [hpcs, update_of_ne hpj]
    exact h.sleeping p c hp
  · have hi' : (t.pc i).Locked := hi ▸ trivial
    rw [hpcs] at hi hi'
    by_cases hij : i = j
    · subst hij
      rw [update_self] at hi
      exact hnext c k w hi
    · rw [update_of_ne hij] at hi'
      exact absurd (Option.some.inj (((h.locked i).1 hi').symm.trans hl)) hij
  · refine hwatched.mono (fun _ _ => id) fun p c _ hc => hc.imp id fun ho => ?_
    refine ⟨j, hlock.trans hl, ?_⟩
    rw [hpcs, update_self]
    exact ho

/-- The process that has the lock gives it back, when it has woken everybody. -/
theorem Inv.giveBack (h : Inv s) {pc : Pc} (hj : (s.pc j).Locked) (hpc : ¬ pc.Locked)
    (hlock : t.lock = none) (hpcs : t.pc = update s.pc j pc)
    (hsleeping : ∀ p c, (t.status p).On c → (s.status p).On c ∨ p = j ∧ ∃ w, pc = .sleeping w)
    (hwatched : Watched t.Calm (fun _ _ => False) t.status) : Inv t := by
  have hl := (h.locked j).1 hj
  have hfree (i : Fin N) : ¬ (t.pc i).Locked := by
    rw [hpcs]
    by_cases hij : i = j
    · rwa [hij, update_self]
    · rw [update_of_ne hij, h.locked i, hl]
      exact fun he => hij (Option.some.inj he).symm
  refine ⟨fun i => ?_, fun p c hp => ?_, fun i c k w hi => ?_, ?_⟩
  · simp [hfree i, hlock]
  · rw [hpcs]
    by_cases hpj : p = j
    · subst hpj
      rw [update_self]
      rcases hsleeping p c hp with hon | ⟨-, hw⟩
      · exact absurd hon (h.not_on hj c)
      · exact hw
    · rw [update_of_ne hpj]
      rcases hsleeping p c hp with hon | ⟨hpj', -⟩
      · exact h.sleeping p c hon
      · exact absurd hpj' hpj
  · exact absurd (hi ▸ trivial) (hfree i)
  · exact hwatched.mono (fun _ _ => id) fun _ _ _ hc => .inl (hc.resolve_right id)

/-! ### The steps of a call -/

theorem Inv.release (h : Inv s) (hj : (s.pc j).Locked)
    (hcalm : ∀ p c, (s.status p).On c → s.Calm c) : Inv (release s j) :=
  h.giveBack hj id rfl rfl (fun _ _ => .inl) fun p c hp => .inl (hcalm p c hp)

theorem Inv.sleep (h : Inv s) {w : Waiter} (hj : (s.pc j).Locked)
    (hcalm : ∀ p c, (s.status p).On c → s.Calm c) (hw : s.Calm w.chan) : Inv (sleep s j w) := by
  refine h.giveBack hj id rfl rfl (fun p c hp => ?_) ?_
  · by_cases hpj : p = j
    · exact .inr ⟨hpj, w, rfl⟩
    · simp only [Pipe.sleep, update_of_ne hpj] at hp
      exact .inl hp
  · have : Watched s.Calm (fun _ _ => False) s.status := fun p c hp => .inl (hcalm p c hp)
    exact this.falling hw

/-- The process that has the lock begins to wake those who sleep on `c`. -/
theorem Inv.wake (h : Inv s) {c : Chan} {next : Next} (hj : (s.pc j).Locked)
    (hlock : t.lock = s.lock) (hpcs : t.pc = update s.pc j (.waking c 0 next))
    (hstatus : t.status = s.status) (hnext : ∀ w, next = .sleep w → t.Calm w.chan)
    (hcalm : ∀ p d, d ≠ c → (s.status p).On d → t.Calm d) : Inv t := by
  refine h.keep (.waking c 0 next) hj trivial hlock hpcs (fun p c hp => hstatus ▸ hp) ?_
    fun p d hp => ?_
  · rintro _ _ w ⟨⟩
    exact hnext w rfl
  · rw [hstatus] at hp
    by_cases hdc : d = c
    · exact .inr ⟨hdc, Nat.zero_le _⟩
    · exact .inl (hcalm p d hdc hp)

theorem Inv.wakeup (h : Inv s) {c : Chan} {k : ℕ} {next : Next} (hj : s.pc j = .waking c k next)
    (ht : wakeup s j c k next = some t) : Inv t := by
  have hlocked : (s.pc j).Locked := hj ▸ trivial
  have hl := (h.locked j).1 hlocked
  have howes (p : Fin N) (d : Chan) (hp : (s.status p).On d) : s.Calm d ∨ d = c ∧ k ≤ p := by
    have := h.calm_or_owes hl hp
    rwa [hj] at this
  unfold Pipe.wakeup at ht
  split at ht
  · rename_i hk
    obtain ⟨status, hwake, rfl⟩ := Option.map_eq_some_iff.mp ht
    refine h.keep (.waking c (k + 1) next) hlocked trivial rfl rfl
      (fun p c hp => on_of_wakeAt hwake hp) ?_ ?_
    · rintro _ _ w ⟨⟩
      exact h.next j c k w hj
    · exact Watched.wakeAt (k := ⟨k, hk⟩) howes (h.not_on hlocked) hwake
  · rename_i hk
    -- everybody has been looked at
    have hcalm (p : Fin N) (d : Chan) (hp : (s.status p).On d) : s.Calm d :=
      (howes p d hp).resolve_right fun ⟨_, hkp⟩ => hk (hkp.trans_lt p.isLt)
    cases next with
    | sleep w =>
      cases ht
      exact h.sleep hlocked hcalm (h.next j c k w hj)
    | done =>
      cases ht
      exact h.release hlocked hcalm

/-- At the head of the loop of `pipewrite`, who is not calm is a reader, and the loop goes on until
it has been woken. -/
theorem Inv.writeLoop (h : Inv s) {i : ℕ} {n : ℤ} (hj : s.pc j = .writeLoop i n)
    (copyin : Option (BitVec 8)) : Inv (writeLoop s j i n copyin) := by
  have hlocked : (s.pc j).Locked := hj ▸ trivial
  have hl := (h.locked j).1 hlocked
  have howes (p : Fin N) (d : Chan) (hp : (s.status p).On d) :
      s.Calm d ∨ d = .nread ∧ 0 < i ∧ (s.Stays j ∨ n ≤ i) := by
    have := h.calm_or_owes hl hp
    rwa [hj] at this
  have hwriters (p : Fin N) (d : Chan) (hd : d ≠ .nread) (hp : (s.status p).On d) : s.Calm d :=
    (howes p d hp).resolve_right fun ho => hd ho.1
  unfold Pipe.writeLoop
  split_ifs with hin hexit hfull
  · refine h.release hlocked fun p d hp => (howes p d hp).resolve_right ?_
    rintro ⟨-, -, hstays | hdone⟩
    · rcases hexit with hro | hkilled
      · simp [hstays.1] at hro
      · simp [hstays.2] at hkilled
    · omega
  · have hro : s.readopen = true := by
      by_contra hro
      exact hexit (.inl (by simpa using hro))
    refine h.wake hlocked rfl rfl rfl ?_ hwriters
    rintro w ⟨⟩
    exact ⟨hfull, hro⟩
  · cases copyin with
    | none => exact h.wake hlocked rfl rfl rfl (fun _ he => by cases he) hwriters
    | some ch =>
      -- the pipe was not full, so no writer sleeps
      have hstays : s.Stays j := by
        simpa [State.Stays] using hexit
      refine h.keep (.writeLoop (i + 1) n) hlocked trivial rfl rfl (fun _ _ => id)
        (fun _ _ _ he => by cases he) fun p d hp => .inr ?_
      cases d with
      | nread => exact ⟨rfl, Nat.succ_pos i, .inl hstays⟩
      | nwrite => exact absurd (hwriters p .nwrite (by decide) hp).1 hfull
  · exact h.wake hlocked rfl rfl rfl (fun _ he => by cases he) hwriters

theorem Inv.readWait (h : Inv s) {n : ℤ} (hj : s.pc j = .readWait n) : Inv (readWait s j n) := by
  have hlocked : (s.pc j).Locked := hj ▸ trivial
  have hl := (h.locked j).1 hlocked
  have hcalm (p : Fin N) (d : Chan) (hp : (s.status p).On d) : s.Calm d := by
    have := h.calm_or_owes hl hp
    rw [hj] at this
    exact this.resolve_right id
  unfold Pipe.readWait
  split_ifs with hempty hkilled
  · exact h.release hlocked hcalm
  · exact h.sleep hlocked hcalm hempty
  · exact h.keep (.readCopy 0 n) hlocked trivial rfl rfl (fun _ _ => id)
      (fun _ _ _ he => by cases he) fun p d hp => .inl (hcalm p d hp)

theorem Inv.readCopy (h : Inv s) {i : ℕ} {n : ℤ} (hj : s.pc j = .readCopy i n) (copyout : Bool) :
    Inv (readCopy s j i n copyout) := by
  have hlocked : (s.pc j).Locked := hj ▸ trivial
  have hl := (h.locked j).1 hlocked
  have hreaders (p : Fin N) (d : Chan) (hd : d ≠ .nwrite) (hp : (s.status p).On d) : s.Calm d := by
    have := h.calm_or_owes hl hp
    rw [hj] at this
    exact this.resolve_right hd
  have hdone : Inv (s.goto j (.waking .nwrite 0 .done)) :=
    h.wake hlocked rfl rfl rfl (fun _ he => by cases he) hreaders
  unfold Pipe.readCopy
  split_ifs with hin hempty hcopy
  · exact hdone
  · -- the pipe was not empty, so no reader sleeps
    refine h.keep (.readCopy (i + 1) n) hlocked trivial rfl rfl (fun _ _ => id)
      (fun _ _ _ he => by cases he) fun p d hp => .inr ?_
    cases d with
    | nread => exact absurd (hreaders p .nread (by decide) hp).1 hempty
    | nwrite => exact rfl
  · refine h.wake hlocked rfl rfl rfl (fun _ he => by cases he) fun p d hd hp => ?_
    cases d with
    | nread => exact absurd (hreaders p .nread hd hp).1 hempty
    | nwrite => exact absurd rfl hd
  · exact hdone

theorem Inv.close (h : Inv s) {writable : Bool} (hj : s.pc j = .close writable) :
    Inv (close s j writable) := by
  have hlocked : (s.pc j).Locked := hj ▸ trivial
  have hl := (h.locked j).1 hlocked
  have hcalm (p : Fin N) (d : Chan) (hp : (s.status p).On d) : s.Calm d := by
    have := h.calm_or_owes hl hp
    rw [hj] at this
    exact this.resolve_right id
  unfold Pipe.close
  -- the end that is closed does not matter to those who use it
  split_ifs <;> refine h.wake hlocked rfl rfl rfl (fun _ he => by cases he) fun p d hd hp => ?_ <;>
    cases d
  · exact absurd rfl hd
  · exact hcalm p .nwrite hp
  · exact hcalm p .nread hp
  · exact absurd rfl hd

/-- `sleep`, and taking the lock when it is over. -/
theorem Inv.sleeping_run (h : Inv s) {w : Waiter} (hj : s.pc j = .sleeping w)
    (ht : Pipe.sleeping s j w = some t) : Inv t := by
  unfold Pipe.sleeping at ht
  split at ht
  · rename_i c hs
    cases ht
    refine ⟨h.locked, fun p d hp => ?_, h.next, h.watched.asleep hs⟩
    by_cases hpj : p = j
    · exact ⟨w, hpj ▸ hj⟩
    · simp only [update_of_ne hpj] at hp
      exact h.sleeping p d hp
  · cases ht
  · rename_i hs
    refine h.acquire ht ?_ ?_ fun c => ?_
    · cases w <;> trivial
    · cases w <;> exact fun _ _ _ he => by cases he
    · rw [hs]
      exact Status.not_on_awake

theorem Inv.run (h : Inv s) {copy : Option (BitVec 8)} (ht : run s j copy = some t) : Inv t := by
  -- who is not in `sleep` is awake
  have hon (hj : ∀ w, s.pc j ≠ .sleeping w) (c : Chan) : ¬ (s.status j).On c := fun hon => by
    obtain ⟨w, hw⟩ := h.sleeping j c hon
    exact hj w hw
  unfold Pipe.run at ht
  split at ht <;> rename_i hj
  · cases ht
  · exact h.acquire ht trivial (fun _ _ _ he => by cases he) (hon (by simp [hj]))
  · cases ht
    exact h.writeLoop hj copy
  · exact h.acquire ht trivial (fun _ _ _ he => by cases he) (hon (by simp [hj]))
  · cases ht
    exact h.readWait hj
  · cases ht
    exact h.readCopy hj copy.isSome
  · exact h.acquire ht trivial (fun _ _ _ he => by cases he) (hon (by simp [hj]))
  · cases ht
    exact h.close hj
  · exact h.wakeup hj ht
  · exact h.sleeping_run hj ht

/-! ### `kill` -/

/-- A writer has put some of its bytes into the pipe and is about to put more. -/
def Pc.HalfWay : Pc → Prop
  | .writeLoop i n => 0 < i ∧ i < n
  | _ => False

instance : DecidablePred Pc.HalfWay
  | .writeLoop i n => inferInstanceAs (Decidable (0 < i ∧ i < n))
  | .idle | .pipewrite _ | .piperead _ | .readWait _ | .readCopy _ _ | .pipeclose _ | .close _
  | .waking _ _ _ | .sleeping _ => isFalse id

/-- `kill` does not hit a writer half way. A `kill` while a writer is inside a round counts as one
at the next head of its loop, where `pipewrite` looks at the flag. -/
def State.Spares (s : State N) : Event N → Prop
  | .kill j => ¬ (s.pc j).HalfWay
  | _ => True

instance (s : State N) : (e : Event N) → Decidable (s.Spares e)
  | .kill j => inferInstanceAs (Decidable ¬ (s.pc j).HalfWay)
  | .pipewrite _ _ | .piperead _ _ | .pipeclose _ _ | .run _ _ | .replace _ =>
    inferInstanceAs (Decidable True)

theorem Inv.kill (h : Inv s) (hspares : s.Spares (.kill j)) (ht : kill s j = some t) : Inv t := by
  obtain ⟨st, hst, rfl⟩ := Option.map_eq_some_iff.mp ht
  cases Status.eq_awake_of_rouse hst
  refine ⟨h.locked, fun p c hp => ?_, h.next, ?_⟩
  · by_cases hpj : p = j
    · subst hpj
      simp at hp
    · simp only [update_of_ne hpj] at hp
      exact h.sleeping p c hp
  · refine h.watched.awake.mono (fun _ _ => id) fun p c _ hc => hc.imp id ?_
    rintro ⟨i, hi, ho⟩
    refine ⟨i, hi, ?_⟩
    by_cases hij : i = j
    · subst hij
      -- only the loop of `pipewrite` looks at the flag
      cases hpc : s.pc i with
      | writeLoop m n =>
        simp only [State.Spares, hpc, Pc.HalfWay] at hspares
        simp only [hpc, Pc.Owes] at ho ⊢
        exact ⟨ho.1, ho.2.1, .inr (by omega)⟩
      | _ => simp_all [Pc.Owes]
    · simpa [State.Stays, update_of_ne hij] using ho

theorem Inv.call (h : Inv s) {pc : Pc} (hpc : ¬ pc.Locked) (ht : s.call j pc = some t) : Inv t := by
  unfold State.call at ht
  split at ht
  · rename_i hj
    cases ht
    refine h.stays_out (by simp [hj, Pc.Locked]) hpc fun c hon => ?_
    obtain ⟨w, hw⟩ := h.sleeping j c hon
    rw [hj] at hw
    cases hw
  · cases ht

theorem Inv.replace (h : Inv s) (hj : s.pc j = .idle) :
    Inv { s with killed := update s.killed j false } := by
  refine ⟨h.locked, h.sleeping, h.next, h.watched.mono (fun _ _ => id) ?_⟩
  rintro p c - (hc | ⟨i, hi, ho⟩)
  · exact .inl hc
  · have hij : i ≠ j := by
      rintro rfl
      rw [hj] at ho
      exact ho
    exact .inr ⟨i, hi, by simpa [State.Stays, update_of_ne hij] using ho⟩

/-! ### Runs -/

theorem inv_pipealloc (N : ℕ) (data : ℕ → BitVec 8) : Inv (pipealloc N data) := by
  refine ⟨fun j => ?_, fun p c hp => ?_, fun j c k w hj => ?_, fun p c hp => ?_⟩
  · simp [pipealloc, Pc.Locked]
  · exact absurd hp Status.not_on_awake
  · cases hj
  · exact absurd hp Status.not_on_awake

theorem step_inv (h : Inv s) {e : Event N} (hspares : s.Spares e) (ht : step s e = some t) :
    Inv t := by
  cases e with
  | pipewrite j n => exact h.call id ht
  | piperead j n => exact h.call id ht
  | pipeclose j writable => exact h.call id ht
  | run j copy => exact h.run ht
  | kill j => exact h.kill hspares ht
  | replace j =>
    simp only [step] at ht
    split at ht
    · rename_i hj
      cases ht
      exact h.replace hj
    · cases ht

/-- **No lost wakeup.** If `kill` never hits a writer half way, nobody sleeps on a pipe that has
something for it to do, when the lock is free. -/
theorem no_lost_wakeup (data : ℕ → BitVec 8) (es : List (Event N))
    (hrun : runEvents (restrict State.Spares step) (pipealloc N data) es = some s)
    (hfree : s.lock = none) (p : Fin N) :
    ¬ (s.status p = .asleep .nread ∧ (s.nread ≠ s.nwrite ∨ s.writeopen = false)) ∧
      ¬ (s.status p = .asleep .nwrite ∧
        (s.nwrite ≠ s.nread + BitVec.ofNat 32 PIPESIZE ∨ s.readopen = false)) := by
  have h : Inv s := runEvents_invariant (I := Inv) (fun s e t hs ht => by
    obtain ⟨hspares, ht⟩ := restrict_eq_some.mp ht
    exact step_inv hs hspares ht) (inv_pipealloc N data) hrun
  constructor
  · rintro ⟨hp, hbad⟩
    obtain ⟨heq, hopen⟩ := h.calm_of_free hfree (c := .nread) (.inr hp)
    rcases hbad with hne | hclosed
    · exact hne heq
    · simp [hopen] at hclosed
  · rintro ⟨hp, hbad⟩
    obtain ⟨heq, hopen⟩ := h.calm_of_free hfree (c := .nwrite) (.inr hp)
    rcases hbad with hne | hclosed
    · exact hne heq
    · simp [hopen] at hclosed

/-- A reader sleeps on the empty pipe. A writer puts two bytes into it, and is killed after that. -/
def killAfter : List (Event 2) :=
  [.piperead 0 1, .run 0 none, .run 0 none, .run 0 none,
    .pipewrite 1 2, .run 1 none, .run 1 (some 7), .run 1 (some 8), .run 1 none, .run 1 none,
    .kill 1, .run 1 none, .run 1 none]

theorem no_lost_wakeup_killAfter :
    ∃ s : State 2,
      runEvents (restrict State.Spares step) (pipealloc 2 fun _ => 0) killAfter = some s ∧
        s.lock = none ∧ s.nread ≠ s.nwrite ∧ ∀ p, s.status p ≠ .asleep .nread := by
  obtain ⟨s, hs, hlock, hne⟩ : ∃ s, runEvents (restrict State.Spares step) (pipealloc 2 fun _ => 0)
    killAfter = some s ∧ s.lock = none ∧ s.nread ≠ s.nwrite := by decide +kernel
  exact ⟨s, hs, hlock, hne, fun p hp =>
    (no_lost_wakeup (fun _ => 0) killAfter hs hlock p).1 ⟨hp, .inl hne⟩⟩

/-- The same, but the writer is killed after its first byte. -/
def killHalfWay : List (Event 2) :=
  [.piperead 0 1, .run 0 none, .run 0 none, .run 0 none,
    .pipewrite 1 2, .run 1 none, .run 1 (some 7), .kill 1, .run 1 none]

/-- **A wakeup is lost.** The reader sleeps on a pipe that has a byte for it. -/
theorem lost_wakeup :
    ∃ s : State 2, runEvents step (pipealloc 2 fun _ => 0) killHalfWay = some s ∧
      s.lock = none ∧ s.status 0 = .asleep .nread ∧ s.nread ≠ s.nwrite ∧ s.pc 1 = .idle := by
  decide +kernel

end Xv6.Pipe
