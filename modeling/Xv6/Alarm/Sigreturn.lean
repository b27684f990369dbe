import Xv6.Alarm.Refine
import Xv6.Proc.Slots

/-!
# `sigreturn` undoes the delivery of an alarm

A timer trap that enters the handler saves the trapframe first. Until the process calls `sigreturn`,
its flag `hlp` is `0`, so that no other timer trap of the process is counted and the saved frame
stays as it is; `sigreturn` copies it back, and returns the saved `a0`, which `syscall` stores where
it was. The page of the saved frame could be lost only by a `sigreturn` that frees a page of another
process, which the rule `Mark.oncePerEntry` excludes.
-/

namespace Xv6

namespace Kernel

variable {s t : Kernel} {i : Slot} {u pg : Page}

/-- A timer trap enters the handler if the process has an active alarm and is not in its handler, if
its tick is due, and if there is a page for the frame. -/
theorem enter_mem_marks : .enter i ∈ s.marks (.trap i u .timer) ↔
    (s.proc i).killed = 0 ∧ counts (s.proc i) ∧ s.kmem.freelist ≠ 0 ∧ enters (s.proc i) := by
  change .enter i ∈ (if (s.proc i).killed ≠ 0 then [] else (s.enterKernel i u).tickMarks i) ↔ _
  have htick : (s.enterKernel i u).tickMarks i = s.tickMarks i := rfl
  rw [htick, tickMarks]
  split_ifs <;> simp_all

/-- A system call is a `sigreturn` if its number says so, and the caller is not killed first. -/
theorem restore_mem_marks {r : Outcome} :
    .restore i ∈ s.marks (.trap i u (.syscall r)) ↔ (s.proc i).killed = 0 ∧ sysno u = 25 := by
  simp only [marks, trapMarks, syscallMarks, sysno_frame]
  have hproc : (s.enterKernel i u).proc = s.proc := rfl
  rw [hproc]
  split_ifs with hk hnum
  · simp [hk]
  · rw [restore_mem_callMarks]
    have : (sysno u).toNat = 25 ↔ sysno u = 25 := by omega
    simp [this, not_not.1 hk]
  · have : sysno u ≠ 25 := by omega
    simp [this]

/-! ### Delivery -/

theorem hlp_of_saved (hs : s.ledger.Saved i pg) : (s.proc i).hlp = 0 := by
  have hflag : (s.proc i).flag = 0 := hs.hlp
  have hlive : (s.proc i).inUse = true := hs.live
  rwa [Proc.flag, if_pos hlive] at hflag

theorem saved_setState (hs : s.ledger.Saved i pg) :
    (s.upd i fun p => p.setState .runnable).ledger.Saved i pg where
  live := by simp [ledger, upd, Proc.inUse]
  hlp := by simp [ledger, upd, Proc.flag, Proc.inUse, hlp_of_saved hs]
  owner := by simpa [ledger, upd] using hs.owner
  mem := by simpa [ledger, upd] using hs.mem

/-- Saving the frame in a page of the process and entering the handler. -/
theorem enterHandler_saved {p : ℕ} (hi : s.Live i) (hp : p ≠ (s.proc i).trapframe)
    (hown : s.owner p = .alarm i) :
    ((s.saveFrame i p).enterHandler i).ledger.Saved i (s.frame i) := by
  have hlive : (((s.saveFrame i p).enterHandler i).proc i).inUse := by
    simpa [enterHandler, saveFrame, upd, write, Proc.inUse] using hi
  have hhlp : (((s.saveFrame i p).enterHandler i).proc i).hlp = 0 := by
    simp [enterHandler, upd]
  have htf : (((s.saveFrame i p).enterHandler i).proc i).alarmTf = p := by
    simp [enterHandler, saveFrame, upd]
  refine ⟨hlive, ?_, ?_, ?_⟩
  · simp only [ledger, Proc.flag, hlive, if_true, hhlp]
  · simp only [ledger, htf]
    exact hown
  · simp only [ledger, htf]
    simp [enterHandler, saveFrame, upd, setReg, setFrame, write, frame, Kmem.write_mem_of_ne, hp]

/-- A timer trap that enters the handler leaves the interrupted frame saved. -/
theorem alarmTick_saved {l : List ℕ} (hl : s.Wf l) (hi : s.Live i) (hc : counts (s.proc i))
    (hne : s.kmem.freelist ≠ 0) (he : enters (s.proc i)) :
    (s.alarmTick i).ledger.Saved i (s.frame i) := by
  obtain ⟨-, -, -, -, hown, -, hmem⟩ := hl.kalloc hne
  have htf : s.kmem.freelist ≠ (s.proc i).trapframe := by
    intro h
    have := hl.frame i hi
    rw [← h, hown] at this
    cases this
  have hk := kalloc_eq hne (.alarm i)
  have hframe : (s.kalloc (.alarm i)).2.frame i = s.frame i := by
    rw [hk]
    exact hmem _ htf.symm
  have htick : s.alarmTick i =
      ((s.kalloc (.alarm i)).2.saveFrame i s.kmem.freelist).enterHandler i := by
    have hk₁ : (s.kalloc (.alarm i)).1 = s.kmem.freelist := by rw [hk]
    simp only [Kernel.alarmTick, hc, he, hk₁, hne, if_true, if_false]
  rw [htick, ← hframe]
  apply enterHandler_saved
  · simpa using hi
  · simpa using htf
  · simp [hk]

theorem timer_saved {l : List ℕ} (hl : s.Wf l) (hent : .enter i ∈ s.marks (.trap i u .timer))
    (h : step s (.trap i u .timer) = some t) :
    t.ledger.Saved i (saveUser (s.frame i) u) := by
  obtain ⟨hkilled, hc, hne, he⟩ := enter_mem_marks.1 hent
  obtain ⟨-, h⟩ := stepEvent_of_step h
  simp only [stepEvent] at h
  split_ifs at h with hrun
  have hi : s.Live i := by simp [Live, hrun]
  have henter : (s.enterKernel i u).Wf l :=
    hl.write (by simp [hl.frame i hi]) _
  have hsaved := alarmTick_saved henter hi hc hne he
  rw [enterKernel, frame_setFrame] at hsaved
  have hk : ((s.enterKernel i u).proc i).killed = 0 := hkilled
  simp only [usertrap, hk, ne_eq, not_true_eq_false, if_false] at h
  cases h
  exact saved_setState hsaved

/-! ### Return -/

theorem restoreFrame_frame {p : ℕ} (hp : p ≠ (s.proc i).trapframe)
    (hr : s.kmem.first ≤ p ∧ p < PHYSTOPPG) : (s.restoreFrame i p).frame i = s.kmem.mem p := by
  have hr' : (s.setFrame i (s.kmem.mem p)).kmem.first ≤ p ∧ p < PHYSTOPPG := hr
  rw [restoreFrame, frame_upd _ _ _ (by simp), kfree_eq hr', frame]
  simp [setFrame, write, Kmem.putFree_mem_of_ne _ hp.symm]

/-- `sigreturn` returns the saved `a0`, so that storing it changes nothing. -/
theorem sigreturn_setReg (h₀ : (s.proc i).alarmTf ≠ 0)
    (hp : (s.proc i).alarmTf ≠ (s.proc i).trapframe)
    (hr : s.kmem.first ≤ (s.proc i).alarmTf ∧ (s.proc i).alarmTf < PHYSTOPPG) :
    ((s.sigreturn i).2.setReg i Tf.a0 (s.sigreturn i).1).frame i =
      s.kmem.mem (s.proc i).alarmTf := by
  rw [Kernel.sigreturn, if_neg h₀, setReg, frame_setFrame, Function.update_eq_self,
    restoreFrame_frame hp hr]

/-- The saved frame is the trapframe again after `sigreturn`. -/
theorem sigreturn_frame {r : Outcome} {l : List ℕ} (hl : s.Wf l) (hs : s.ledger.Saved i pg)
    (hsig : .restore i ∈ s.marks (.trap i u (.syscall r)))
    (h : step s (.trap i u (.syscall r)) = some t) : t.frame i = pg := by
  obtain ⟨hkilled, hnum⟩ := restore_mem_marks.1 hsig
  obtain ⟨-, h⟩ := stepEvent_of_step h
  simp only [stepEvent] at h
  split_ifs at h with hrun
  have hown : s.owner (s.proc i).alarmTf = .alarm i := hs.owner
  have hframe := hl.frame i (by simp [hrun])
  have hne : (s.proc i).alarmTf ≠ (s.proc i).trapframe := by
    intro he
    rw [he, hframe] at hown
    cases hown
  have hr := hl.range (s.proc i).alarmTf (by simp [hown]) (by simp [hown])
  have hpos := hl.free.first_pos
  have hk : ((s.enterKernel i u).proc i).killed = 0 := hkilled
  simp only [usertrap, hk, ne_eq, not_true_eq_false, if_false, syscall, sysno_frame, hnum] at h
  generalize hs' : (s.enterKernel i u).setReg i Tf.epc ((s.enterKernel i u).frame i Tf.epc + 4) = s'
    at h
  have hproc' : s'.proc = s.proc := hs' ▸ rfl
  have hfirst : s'.kmem.first = s.kmem.first := hs' ▸ rfl
  have hmem : s'.kmem.mem (s.proc i).alarmTf = pg := by
    rw [← hs', ← hs.mem]
    simp [setReg, setFrame, write, enterKernel, Kmem.write_mem_of_ne, hne, ledger]
  obtain ⟨hproc, hkmem, -⟩ := countCall_eq s' i 25
  obtain ⟨-, htf, ha, -⟩ := hproc i
  rw [hproc'] at htf ha
  have hcall : (s'.countCall i 25).call i r 25 = some ((s'.countCall i 25).sigreturn i) := rfl
  rw [if_pos (by decide), if_neg (by decide)] at h
  simp only [Int.reduceToNat, hcall, Option.map_some] at h
  cases h
  rw [frame_checkKilled, sigreturn_setReg, ha, hkmem, hmem]
  · rw [ha]
    omega
  · rw [ha, htf]
    exact hne
  · rw [ha, hkmem, hfirst]
    exact hr

end Kernel

/-- Before the first process, nobody is in a handler. -/
theorem boot_handled (m : Kmem) (l : List ℕ) : (boot m l).ledger.Handled fun _ => false :=
  fun _ h => absurd h Bool.false_ne_true

/-- **`sigreturn` undoes the delivery of an alarm.** A timer trap of the process in slot `i`, which
it takes with registers `u`, enters the handler. Until its next `sigreturn`, timer traps do not send
the process anywhere, and after it the registers and the program counter are `u` again. -/
theorem sigreturn_restores {m : Kmem} {l : List ℕ} {es fs : List Event} {s₀ s₁ s₂ s₃ : Kernel}
    {i : Slot} {u u' : Page} {r : Outcome} (hm : m.Free l)
    (hbefore : runEvents step (boot m l) es = some s₀)
    (hent : .enter i ∈ s₀.marks (.trap i u .timer))
    (htick : step s₀ (.trap i u .timer) = some s₁)
    (hhandler : runEvents step s₁ fs = some s₂) (hnot : .restore i ∉ s₁.runMarks fs)
    (hlive : .reap i ∉ s₁.runMarks fs)
    (hsig : .restore i ∈ s₂.marks (.trap i u' (.syscall r)))
    (hret : step s₂ (.trap i u' (.syscall r)) = some s₃)
    (honce : Mark.oncePerEntry.Follows (fun _ => false)
      ((boot m l).runMarks (es ++ .trap i u .timer :: fs))) :
    (∀ fs₁ v fs₂ w w', fs = fs₁ ++ .trap i v .timer :: fs₂ → runEvents step s₁ fs₁ = some w →
      step w (.trap i v .timer) = some w' → ∀ k, Tf.isUser k → w'.frame i k = v k) ∧
    ∀ k, Tf.isUser k → s₃.frame i k = u k := by
  have hafter : runEvents step (boot m l) (es ++ [.trap i u .timer]) = some s₁ := by
    rw [runEvents_append, hbefore]
    simpa using htick
  rw [List.append_cons, Kernel.runMarks_append hafter, Rule.follows_append] at honce
  obtain ⟨honce₁, honce₂⟩ := honce
  obtain ⟨⟨l₁, hl₁⟩, hH₁⟩ :=
    run_protected Ledger.oncePerEntry_protects (boot_wf hm) (boot_handled m l) honce₁ hafter
  rw [Kernel.runMarks_append hbefore, Rule.follows_append] at honce₁
  obtain ⟨⟨l₀, hl₀⟩, -⟩ :=
    run_protected Ledger.oncePerEntry_protects (boot_wf hm) (boot_handled m l) honce₁.1 hbefore
  have hsaved := Kernel.timer_saved hl₀ hent htick
  -- from the delivery on, the ledger keeps the frame
  have hrest {fs₁ fs₂ : List Event} {w : Kernel} (hfs : fs = fs₁ ++ fs₂)
      (hw : runEvents step s₁ fs₁ = some w) :
      (∃ l, w.Wf l) ∧ w.ledger.Saved i (saveUser (s₀.frame i) u) := by
    rw [hfs, Kernel.runMarks_append hw] at hnot hlive honce₂
    rw [Rule.follows_append] at honce₂
    obtain ⟨l', as, hl', hrun, hms⟩ :=
      run_sim Ledger.oncePerEntry_protects hH₁ honce₂.1 hw l₁ hl₁
    rw [List.mem_append, not_or, ← hms] at hnot hlive
    exact ⟨⟨l', hl'⟩, Ledger.run_saved hsaved hnot.1 hlive.1 hrun⟩
  refine ⟨fun fs₁ v fs₂ w w' hfs hw hw' k hk => ?_, fun k hk => ?_⟩
  · have hc : Kernel.counts (w.proc i) = false := by
      simp [Kernel.counts, Kernel.hlp_of_saved (hrest hfs hw).2]
    exact timer_uncounted hc hw' hk
  · obtain ⟨⟨l₂, hl₂⟩, hsaved₂⟩ := hrest (List.append_nil fs).symm hhandler
    rw [Kernel.sigreturn_frame hl₂ hsaved₂ hsig hret, saveUser, if_pos hk]

/-- In the handler: another tick, and a call of `getpid`. -/
def inHandler : List Event :=
  .dispatch 0 :: tick 0 ++ [.trap 0 (callRegs 11 0 0) (.syscall {})]

theorem sigreturn_restores_afterTick :
    ∃ s₀ s₁ s₂ s₃, runEvents step (boot fewPages fewFree) (alarmEvery 1) = some s₀ ∧
      step s₀ (.trap 0 (callRegs 1 2 3) .timer) = some s₁ ∧
      runEvents step s₁ inHandler = some s₂ ∧
      step s₂ (sigreturnBy 0) = some s₃ ∧
      ∀ k, Tf.isUser k → s₃.frame 0 k = callRegs 1 2 3 k := by
  obtain ⟨s₀, h₀, s₁, h₁, s₂, h₂, s₃, h₃, hent, hnot, hlive, hsig⟩ :
      ∃ s₀, runEvents step (boot fewPages fewFree) (alarmEvery 1) = some s₀ ∧
      ∃ s₁, step s₀ (.trap 0 (callRegs 1 2 3) .timer) = some s₁ ∧
      ∃ s₂, runEvents step s₁ inHandler = some s₂ ∧ ∃ s₃, step s₂ (sigreturnBy 0) = some s₃ ∧
        .enter 0 ∈ s₀.marks (.trap 0 (callRegs 1 2 3) .timer) ∧
        .restore 0 ∉ s₁.runMarks inHandler ∧ .reap 0 ∉ s₁.runMarks inHandler ∧
        .restore 0 ∈ s₂.marks (sigreturnBy 0) := by
    decide +kernel
  exact ⟨s₀, s₁, s₂, s₃, h₀, h₁, h₂, h₃,
    (sigreturn_restores fewPages_free h₀ hent h₁ h₂ hnot hlive hsig h₃ (by decide +kernel)).2⟩

end Xv6
