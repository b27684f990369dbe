import Xv6.Alarm.Refine

/-!
# Frames saved for alarms

`usertrap` takes a page for every timer tick that it counts, and `sys_sigreturn` frees the page it
finds in `alarm_tf`. Nothing else frees such a page, and nothing checks that there is one. So the
pages are in order exactly as long as the processes keep to `Mark.inTurn`: a process whose tick has
been counted calls `sigreturn` before the next one is counted and before it exits, and calls it at
no other time.
-/

namespace Xv6

/-- Every process has at most one saved frame, and none is left of a process that is gone. -/
structure Kernel.FramesOwned (s : Kernel) : Prop where
  one : ∀ i p q, s.owner p = .alarm i → s.owner q = .alarm i → p = q
  reaped : ∀ i, (s.proc i).state = .unused → ∀ p, s.owner p ≠ .alarm i

/-- If the event is a `sigreturn`, it reads and frees a page that is a saved frame of the caller. -/
def Kernel.ReturnsOwn (s : Kernel) (e : Event) : Prop :=
  ∀ i, .restore i ∈ s.marks e →
    (s.proc i).alarmTf ≠ 0 ∧ s.owner (s.proc i).alarmTf = .alarm i

theorem Ledger.Tidy.framesOwned {s : Kernel} {O : Slot → Bool} (h : s.ledger.Tidy O) :
    s.FramesOwned where
  one i p q hp hq := ((h.owner p i).1 hp).2.trans ((h.owner q i).1 hq).2.symm
  reaped i hi p hp := by
    have hO := h.live i (Proc.inUse_eq_false.2 hi)
    exact Bool.false_ne_true (hO.symm.trans ((h.owner p i).1 hp).1)

/-- Before the first process, no frame is saved. -/
theorem boot_tidy (m : Kmem) (l : List ℕ) : (boot m l).ledger.Tidy fun _ => false where
  owner p i := by
    simp only [Kernel.ledger, boot]
    split_ifs <;> simp
  live _ _ := rfl

/-- **Alarm frames stay owned** in every run in which frames are saved and restored in turn. -/
theorem alarm_frames_owned {m : Kmem} {l : List ℕ} {es : List Event} {s : Kernel} (hm : m.Free l)
    (hrun : runEvents step (boot m l) es = some s)
    (hturn : Mark.inTurn.Follows (fun _ => false) ((boot m l).runMarks es)) :
    s.FramesOwned ∧ ∀ e,
      Mark.inTurn.Follows (fun _ => false) ((boot m l).runMarks (es ++ [e])) → s.ReturnsOwn e := by
  obtain ⟨⟨l', hl'⟩, htidy⟩ :=
    run_protected Ledger.inTurn_protects (boot_wf hm) (boot_tidy m l) hturn hrun
  refine ⟨htidy.framesOwned, fun e he i hi => ?_⟩
  rw [Kernel.runMarks_append hrun, Rule.follows_append, Kernel.runMarks_singleton,
    Kernel.marks_of_restore hi] at he
  have hown : s.owner (s.proc i).alarmTf = .alarm i :=
    Ledger.inTurn_protects.owns _ _ i htidy he.2.1
  have hr := hl'.range (s.proc i).alarmTf (by simp [hown]) (by simp [hown])
  have hpos := hl'.free.first_pos
  exact ⟨by omega, hown⟩

theorem alarm_frames_owned_inHandler :
    ∃ s, runEvents step (boot fewPages fewFree) (alarmEvery 1 ++ tick 0) = some s ∧
      .restore 0 ∈ s.marks (sigreturnBy 0) ∧ s.FramesOwned ∧ s.ReturnsOwn (sigreturnBy 0) := by
  obtain ⟨s, hs, hq⟩ : ∃ s, runEvents step (boot fewPages fewFree) (alarmEvery 1 ++ tick 0) =
      some s ∧ .restore 0 ∈ s.marks (sigreturnBy 0) := by decide +kernel
  obtain ⟨howned, hreturn⟩ := alarm_frames_owned fewPages_free hs (by decide +kernel)
  exact ⟨s, hs, hq, howned, hreturn _ (by decide +kernel)⟩

/-- The first process has a child that dies in its handler, and waits for it. -/
def diesInHandler : List Event :=
  [.userinit 1, .dispatch 0, .trap 0 (callRegs 1 0 0) (.syscall { fork := .ok 2 }), .dispatch 1,
    .trap 1 (callRegs 24 1 0x1000) (.syscall {})] ++ tick 1 ++
  [.trap 1 (callRegs 2 0 0) (.syscall {}), .trap 0 (callRegs 3 0 0) (.syscall {})]

/-- **Frames lost and frames not owned.** With `sigalarm(2, h)` a process has two saved frames after
two ticks. A process that never had an alarm returns through the null pointer, and one that returns
twice reads and frees a free page. The frame of a process that exits in its handler is still
allocated when the process is gone. -/
theorem alarm_frames_lost :
    (∃ s, runEvents step (boot fewPages fewFree) (alarmEvery 2 ++ tick 0 ++ tick 0) = some s ∧
      ∃ p q, p ≠ q ∧ s.owner p = .alarm 0 ∧ s.owner q = .alarm 0) ∧
    (∃ s, runEvents step (boot fewPages fewFree) [.userinit 1, .dispatch 0] = some s ∧
      .restore 0 ∈ s.marks (sigreturnBy 0) ∧ (s.proc 0).alarmTf = 0) ∧
    (∃ s, runEvents step (boot fewPages fewFree) (alarmEvery 1 ++ tick 0 ++ [sigreturnBy 0]) =
        some s ∧
      .restore 0 ∈ s.marks (sigreturnBy 0) ∧ s.owner (s.proc 0).alarmTf = .free) ∧
    ∃ s, runEvents step (boot fewPages fewFree) diesInHandler = some s ∧
      (s.proc 1).state = .unused ∧ ∃ p, s.owner p = .alarm 1 := by
  obtain ⟨s₁, hs₁, hq₁⟩ : ∃ s, runEvents step (boot fewPages fewFree)
      (alarmEvery 2 ++ tick 0 ++ tick 0) = some s ∧ s.owner 0x87ffb = .alarm 0 ∧
      s.owner 0x87ffc = .alarm 0 := by
    decide +kernel
  obtain ⟨s₄, hs₄, hunused, hq₄⟩ : ∃ s, runEvents step (boot fewPages fewFree) diesInHandler =
      some s ∧ (s.proc 1).state = .unused ∧ s.owner 0x87ffc = .alarm 1 := by
    decide +kernel
  exact ⟨⟨s₁, hs₁, 0x87ffb, 0x87ffc, by decide, hq₁⟩, by decide +kernel, by decide +kernel,
    s₄, hs₄, hunused, _, hq₄⟩

end Xv6
