import Xv6.Lib.Fifo
import Xv6.Pipe.Basic

/-!
# Pipes are byte streams

What comes out of a pipe is what has been put into it, in the same order, and never more than
`PIPESIZE` bytes behind. A byte that `piperead` has taken out and cannot copy to the caller is lost,
so this is for runs in which all copies succeed.
-/

namespace Xv6.Pipe

variable {N : ℕ} {s t : State N} {j : Fin N}

/-- The pipe holds what has been stored and not been delivered. -/
def State.Fifo (s : State N) : Prop :=
  Xv6.Fifo PIPESIZE s.data s.nread s.nwrite s.stored s.delivered

/-- The user's buffer is mapped. -/
def Event.Mapped : Event N → Prop
  | .run _ copy => copy ≠ none
  | _ => True

instance : DecidablePred (Event.Mapped (N := N))
  | .run _ copy => inferInstanceAs (Decidable (copy ≠ none))
  | .pipewrite _ _ | .piperead _ _ | .pipeclose _ _ | .kill _ | .replace _ =>
    inferInstanceAs (Decidable True)

/-- No byte is taken in this step whose copy then fails. -/
def Event.Delivers (s : State N) : Event N → Prop
  | .run j copy =>
    match s.pc j with
    | .readCopy i n => i < n → s.nread ≠ s.nwrite → copy ≠ none
    | _ => True
  | _ => True

instance (s : State N) (e : Event N) : Decidable (e.Delivers s) :=
  match e with
  | .run j copy =>
    match hpc : s.pc j with
    | .readCopy i n => decidable_of_iff (i < n → s.nread ≠ s.nwrite → copy ≠ none) (by
        rw [Event.Delivers, hpc])
    | .idle | .pipewrite _ | .writeLoop _ _ | .piperead _ | .readWait _ | .pipeclose _ | .close _
    | .waking _ _ _ | .sleeping _ => isTrue (by rw [Event.Delivers, hpc]; trivial)
  | .pipewrite _ _ | .piperead _ _ | .pipeclose _ _ | .kill _ | .replace _ => isTrue trivial

theorem Event.Mapped.delivers {e : Event N} (h : e.Mapped) (s : State N) : e.Delivers s := by
  cases e with
  | run j copy =>
    rw [Event.Delivers]
    split
    · exact fun _ _ => h
    · trivial
  | _ => trivial

theorem pipesize_dvd : PIPESIZE ∣ 2 ^ 32 := by decide

/-! ### The steps that do not copy -/

theorem fifo_acquire (h : s.Fifo) {pc : Pc} (ht : acquire s j pc = some t) : t.Fifo := by
  unfold acquire at ht
  split at ht
  · cases ht
    exact h
  · cases ht

theorem fifo_wakeup (h : s.Fifo) {c : Chan} {k : ℕ} {next : Next}
    (ht : wakeup s j c k next = some t) : t.Fifo := by
  unfold wakeup at ht
  split at ht
  · obtain ⟨status, -, rfl⟩ := Option.map_eq_some_iff.mp ht
    exact h
  · cases next <;> cases ht <;> exact h

theorem fifo_sleeping (h : s.Fifo) {w : Waiter} (ht : sleeping s j w = some t) : t.Fifo := by
  unfold sleeping at ht
  split at ht
  · cases ht
    exact h
  · cases ht
  · exact fifo_acquire h ht

theorem fifo_readWait (h : s.Fifo) (n : ℤ) : (readWait s j n).Fifo := by
  unfold readWait
  split_ifs <;> exact h

theorem fifo_close (h : s.Fifo) (writable : Bool) : (close s j writable).Fifo := by
  unfold close
  split_ifs <;> exact h

/-! ### The steps that copy a byte -/

theorem fifo_writeLoop (h : s.Fifo) (i : ℕ) (n : ℤ) (copyin : Option (BitVec 8)) :
    (writeLoop s j i n copyin).Fifo := by
  unfold writeLoop
  split_ifs with hin hexit hfull
  · exact h
  · exact h
  · cases copyin with
    | none => exact h
    | some ch => exact Xv6.Fifo.push h pipesize_dvd hfull ch
  · exact h

theorem fifo_readCopy (h : s.Fifo) (i : ℕ) (n : ℤ) {copyout : Bool}
    (hcopy : i < n → s.nread ≠ s.nwrite → copyout = true) : (readCopy s j i n copyout).Fifo := by
  unfold readCopy
  split_ifs with hin hempty hok
  · exact h
  · exact Xv6.Fifo.pop h pipesize_dvd hempty
  · exact absurd (hcopy hin hempty) hok
  · exact h

theorem fifo_run (h : s.Fifo) {copy : Option (BitVec 8)} (hcopy : (Event.run j copy).Delivers s)
    (ht : run s j copy = some t) : t.Fifo := by
  rw [Event.Delivers] at hcopy
  unfold run at ht
  split at ht
  case h_1 => cases ht
  case h_2 => exact fifo_acquire h ht
  case h_3 =>
    cases ht
    exact fifo_writeLoop h _ _ copy
  case h_4 => exact fifo_acquire h ht
  case h_5 =>
    cases ht
    exact fifo_readWait h _
  case h_6 i n hpc =>
    cases ht
    rw [hpc] at hcopy
    exact fifo_readCopy h i n fun hi he => Option.isSome_iff_ne_none.mpr (hcopy hi he)
  case h_7 => exact fifo_acquire h ht
  case h_8 =>
    cases ht
    exact fifo_close h _
  case h_9 => exact fifo_wakeup h ht
  case h_10 => exact fifo_sleeping h ht

/-! ### Runs -/

theorem fifo_call (h : s.Fifo) {pc : Pc} (ht : s.call j pc = some t) : t.Fifo := by
  unfold State.call at ht
  split at ht
  · cases ht
    exact h
  · cases ht

theorem step_fifo {e : Event N} (he : e.Delivers s) (h : s.Fifo) (ht : step s e = some t) :
    t.Fifo := by
  cases e with
  | pipewrite j n => exact fifo_call h ht
  | piperead j n => exact fifo_call h ht
  | pipeclose j writable => exact fifo_call h ht
  | run j copy => exact fifo_run h he ht
  | kill j =>
    obtain ⟨st, -, rfl⟩ := Option.map_eq_some_iff.mp ht
    exact h
  | replace j =>
    simp only [step] at ht
    split at ht
    · cases ht
      exact h
    · cases ht

/-- **Pipes are byte streams.** What has been delivered is the beginning of what has been stored,
and at most `PIPESIZE` bytes are missing. -/
theorem pipe_fifo (data : ℕ → BitVec 8) (es : List (Event N)) (hmapped : ∀ e ∈ es, e.Mapped)
    (hrun : runEvents step (pipealloc N data) es = some s) :
    s.delivered <+: s.stored ∧ s.stored.length ≤ s.delivered.length + PIPESIZE := by
  have hinit : (pipealloc N data).Fifo := Xv6.Fifo.empty PIPESIZE data
  have h : s.Fifo := runEvents_invariant_of (I := State.Fifo)
    (fun s _ _ he => step_fifo (he.delivers s)) hmapped hinit hrun
  exact ⟨h.isPrefix, h.near⟩

/-- Two writers and two readers, one of which asks for more than there is. -/
def twoAndTwo : List (Event 4) :=
  [.pipewrite 0 2, .pipewrite 1 1, .piperead 2 1, .piperead 3 5] ++
    List.replicate 9 (.run 0 (some 7)) ++ List.replicate 8 (.run 1 (some 9)) ++
    List.replicate 9 (.run 2 (some 0)) ++ List.replicate 10 (.run 3 (some 0))

theorem pipe_fifo_twoAndTwo :
    ∃ s : State 4, runEvents step (pipealloc 4 fun _ => 0) twoAndTwo = some s ∧
      (∀ e ∈ twoAndTwo, e.Mapped) ∧ s.stored = [7, 7, 9] ∧ s.delivered = [7, 7, 9] ∧
      s.delivered <+: s.stored ∧ s.stored.length ≤ s.delivered.length + PIPESIZE := by
  obtain ⟨s, hs, hstored, hdelivered⟩ : ∃ s, runEvents step (pipealloc 4 fun _ => 0) twoAndTwo =
      some s ∧ s.stored = [7, 7, 9] ∧ s.delivered = [7, 7, 9] := by decide +kernel
  have hmapped : ∀ e ∈ twoAndTwo, e.Mapped := by decide
  exact ⟨s, hs, hmapped, hstored, hdelivered, pipe_fifo (fun _ => 0) twoAndTwo hmapped hs⟩

end Xv6.Pipe
