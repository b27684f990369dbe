import Xv6.Tree.Frame

/-!
# System calls are counted exactly

`syscall` counts every call in the process that is the parent of the caller at that time, whatever
has happened to parents before: the caller may have been given to `initproc`, and the slot of its
first parent may be in use again.
-/

namespace Xv6.Tree

/-- The counters agree with the record of calls. -/
structure Counts (s : State) : Prop where
  counted : ∀ p, (s.proc p).state ≠ .unused → ∀ n,
    (s.proc p).syscallCount n = BitVec.ofNat 32 (s.calls.count (s.serial p, n))
  old : ∀ c ∈ s.calls, c.1 < s.allocs

section Counts

variable {s t : State} {p r i : Slot} {f : Proc → Proc}

/-- Nobody is created and nothing is counted. -/
theorem Counts.keep (h : Counts s) (hproc : ∀ q, (t.proc q).syscallCount = (s.proc q).syscallCount ∧
      ((t.proc q).state ≠ .unused → (s.proc q).state ≠ .unused))
    (hserial : t.serial = s.serial) (hcalls : t.calls = s.calls) (hallocs : t.allocs = s.allocs) :
    Counts t where
  counted := fun q hq n => by rw [(hproc q).1, hserial, hcalls, h.counted q ((hproc q).2 hq)]
  old := by
    rw [hcalls, hallocs]
    exact h.old

theorem Counts.upd (h : Counts s) (hcount : (f (s.proc i)).syscallCount = (s.proc i).syscallCount)
    (hstate : (f (s.proc i)).state ≠ .unused → (s.proc i).state ≠ .unused) :
    Counts (s.upd i f) := by
  refine h.keep (fun q => ?_) rfl rfl rfl
  by_cases hq : q = i
  · rw [hq, State.upd_self]
    exact ⟨hcount, hstate⟩
  · rw [State.upd_of_ne hq]
    exact ⟨rfl, id⟩

/-- A process is created, with all its counters zero. Nobody has called anything in its name. -/
theorem Counts.fork {np : Slot} (h : Counts s) (hnew : Created s np t) : Counts t := by
  refine ⟨fun q hq n => ?_, fun c hc => ?_⟩
  · rw [hnew.serial, hnew.calls]
    by_cases hqn : q = np
    · subst hqn
      rw [(hnew.fresh.2 hq).1, Function.update_self, List.count_eq_zero.mpr]
      · rfl
      · exact fun hc => absurd (h.old _ hc) (Nat.lt_irrefl _)
    · rw [hnew.other q hqn] at hq ⊢
      rw [Function.update_of_ne hqn]
      exact h.counted q hq n
  · rw [hnew.calls] at hc
    rw [hnew.allocs]
    exact Nat.lt_succ_of_lt (h.old c hc)

/-- A call is counted in process `r`, and in nobody else. -/
theorem Counts.add (h : Counts s) {n : ℕ} (hr : (s.proc r).state ≠ .unused)
    (hinj : ∀ q, (s.proc q).state ≠ .unused → s.serial r = s.serial q → q = r)
    (hlt : s.serial r < s.allocs) (hother : ∀ q, q ≠ r → t.proc q = s.proc q)
    (hself : (t.proc r).syscallCount =
      Function.update (s.proc r).syscallCount n ((s.proc r).syscallCount n + 1))
    (hcalls : t.calls = (s.serial r, n) :: s.calls) (hserial : t.serial = s.serial)
    (hallocs : t.allocs = s.allocs) : Counts t := by
  refine ⟨fun q hq m => ?_, fun c hc => ?_⟩
  · rw [hcalls, hserial]
    by_cases hqr : q = r
    · subst hqr
      rw [hself]
      by_cases hm : m = n
      · rw [hm, Function.update_self, List.count_cons_self, h.counted q hr, BitVec.ofNat_add]
        rfl
      · rw [Function.update_of_ne hm, List.count_cons_of_ne, h.counted q hr]
        exact fun he => hm (Prod.mk.inj he).2.symm
    · rw [hother q hqr] at hq ⊢
      rw [List.count_cons_of_ne, h.counted q hq]
      exact fun he => hqr (hinj q hq (Prod.mk.inj he).1)
  · rw [hcalls] at hc
    rw [hallocs]
    rcases List.mem_cons.mp hc with rfl | hc
    · exact hlt
    · exact h.old c hc

theorem Counts.count (h : Counts s) (hf : s.Family) (num : ℤ) : Counts (count s p num) := by
  rw [Tree.count]
  split_ifs with hknown
  · split
    · exact h
    · -- two processes have different numbers, and the parent is who it was
      rename_i r hr
      have hpresent {q : Slot} (hq : (s.proc q).state ≠ .unused) : s.forest.phase q ≠ .absent :=
        fun ha => hq (phaseOf_eq_absent.mp ha)
      have hparent : (s.proc r).state ≠ .unused := fun he => by
        have halive : phaseOf (s.proc r) = .alive := hf.ok.parent_alive p r hr
        rw [phaseOf_eq_absent.mpr he] at halive
        cases halive
      refine h.add (n := num.toNat) hparent (fun q hq he => ?_) (hf.ok.age_lt r (hpresent hparent))
        (fun q hq => Function.update_of_ne hq _ _) ?_ ?_ rfl rfl
      · exact (hf.ok.age_inj r q (hpresent hparent) (hpresent hq) he).symm
      · simp [State.upd]
      · exact congrArg (fun k => (k, num.toNat) :: s.calls) (hf.ok.kin_eq p r hr)
  · exact h

theorem step_counts {e : Event} (hf : s.Family) (h : Counts s) (ht : step s e = some t) :
    Counts t := by
  cases step_change hf ht with
  | keeps hk =>
    exact h.keep (fun q => ⟨(hk.proc q).count, (hk.proc q).used⟩) hk.serial hk.calls hk.allocs
  | fork hnew => exact h.fork hnew
  | @die p _ status hp =>
    have hupd :=
      h.upd (f := fun x => { x with xstate := status, state := .zombie, etime := s.ticks })
      rfl fun _ => hp
    exact ⟨hupd.counted, hupd.old⟩
  | syscall => exact h.count hf _
  | charge hk hs =>
    have hupd := h.upd (i := ⟨_, hk⟩) (charge_syscallCount _) (by simp)
    exact ⟨hupd.counted, hupd.old⟩
  | clockintr | swept => exact ⟨h.counted, h.old⟩

end Counts

theorem counts_boot (f : Fresh) : Counts (boot f) := by
  refine ⟨fun p hp n => ?_, nofun⟩
  by_cases hp : p = initproc <;> simp [boot, hp, Proc.zero, Proc.allocInit]

/-- **System calls are counted exactly.** A counter of a process is the number of calls that its
children have made, modulo `2 ^ 32`. A call is recorded with the process that is the parent of the
caller, and a call with an unknown number changes no counter. -/
theorem syscall_counts_exact (f : Fresh) (es : List Event) {s : State}
    (hrun : runEvents step (boot f) es = some s) :
    (∀ p, (s.proc p).state ≠ .unused → ∀ num, Known num →
        (s.proc p).syscallCount num.toNat =
          BitVec.ofNat 32 (s.calls.count (s.serial p, num.toNat))) ∧
      (∀ p num t, Known num → step s (.syscall p num) = some t →
        t.calls = ((s.proc p).parent.map fun r => (s.serial r, num.toNat)).toList ++ s.calls) ∧
      ∀ p num t, ¬ Known num → step s (.syscall p num) = some t →
        ∀ q, (t.proc q).syscallCount = (s.proc q).syscallCount := by
  have h : s.Family ∧ Counts s := runEvents_invariant (I := fun s => s.Family ∧ Counts s)
    (fun _ _ _ hs ht => ⟨step_family hs.1 ht, step_counts hs.1 hs.2 ht⟩)
    ⟨family_boot f, counts_boot f⟩ hrun
  refine ⟨fun p hp num _ => h.2.counted p hp _, fun p num t hknown ht => ?_,
    fun p num t hknown ht q => ?_⟩
  · rw [step] at ht
    split_ifs at ht
    cases ht
    rw [count, if_pos hknown]
    cases hp : (s.proc p).parent with
    | none => rfl
    | some r =>
      have hkin : s.kin p = s.serial r := h.1.ok.kin_eq p r hp
      simp [hkin]
  · rw [step] at ht
    split_ifs at ht
    cases ht
    rw [count, if_neg hknown]

/-- A child of `initproc` calls `getpid` twice, and something that does not exist. -/
def callTwice : List Event :=
  [.dispatch 0, .fork 0 1 (.ok ⟨5, 6, 1⟩), .run 0 true, .run 0 true, .dispatch 1, .syscall 1 11,
    .syscall 1 99, .syscall 1 11]

theorem syscall_counts_exact_callTwice :
    ∃ s, runEvents step (boot ⟨1, 2, 0⟩) callTwice = some s ∧ s.calls = [(0, 11), (0, 11)] ∧
      (s.proc 0).syscallCount 11 = BitVec.ofNat 32 (s.calls.count (s.serial 0, 11)) := by
  obtain ⟨s, hs, hcalls, hstate⟩ : ∃ s, runEvents step (boot ⟨1, 2, 0⟩) callTwice = some s ∧
      s.calls = [(0, 11), (0, 11)] ∧ (s.proc 0).state ≠ .unused := by decide +kernel
  exact ⟨s, hs, hcalls, (syscall_counts_exact ⟨1, 2, 0⟩ callTwice hs).1 0 hstate 11 (by decide)⟩

end Xv6.Tree
