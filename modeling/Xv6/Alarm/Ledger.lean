import Xv6.Proc.Kernel

/-!
# Who owns which page

An abstract machine for the pages that hold trapframes and saved alarm frames. It forgets how free
pages are found and what the processes do otherwise: a page is free, or it is used by the rest of
the kernel, as the trapframe of a slot, or as a frame that the alarm code saved for a slot. An
action is possible only if the page it concerns has the right owner, so the machine says what it
means for the kernel to keep to its own pages. `Xv6.Alarm.Refine` shows that the kernel does, as
long as `sigreturn` does.
-/

namespace Xv6

open Function (update update_of_ne)

/-- Pages, and the pages and the flag `hlp` of every slot. The flag of a free slot is `1`. -/
structure Ledger where
  mem : ℕ → Page
  owner : ℕ → Owner
  live : Slot → Bool
  trapframe : Slot → ℕ
  alarmTf : Slot → ℕ
  hlp : Slot → ℤ

/-- What can happen to pages. Where an action leaves a page with contents that do not matter, it
names them. -/
inductive Act
  /-- Write a page of the rest of the kernel, or a trapframe. -/
  | write (p : ℕ) (pg : Page)
  /-- The rest of the kernel takes a page. -/
  | take (p : ℕ) (pg : Page)
  /-- The rest of the kernel frees a page. -/
  | give (p : ℕ) (pg : Page)
  /-- Slot `i` gets a process, with its trapframe in page `p`. -/
  | spawn (i : Slot) (p : ℕ) (pg : Page)
  /-- The process in slot `i` is freed. -/
  | reap (i : Slot) (pg : Page)
  /-- The trapframe of slot `i` is saved in page `p`. -/
  | save (i : Slot) (p : ℕ)
  /-- The process in slot `i` enters its handler, after its trapframe has been saved. -/
  | enter (i : Slot)
  /-- The saved frame of slot `i` is restored and freed. -/
  | restore (i : Slot) (pg : Page)

/-- The actions that concern the alarm of a process, or its life. -/
inductive Mark
  | spawn (i : Slot)
  | reap (i : Slot)
  | save (i : Slot)
  | enter (i : Slot)
  | restore (i : Slot)
  deriving DecidableEq, Repr

/-- What an action is, without its pages. -/
def Act.mark : Act → Option Mark
  | .write _ _ | .take _ _ | .give _ _ => none
  | .spawn i _ _ => some (.spawn i)
  | .reap i _ => some (.reap i)
  | .save i _ => some (.save i)
  | .enter i => some (.enter i)
  | .restore i _ => some (.restore i)

/-- Whether a page may be written in place. -/
def Owner.writable : Owner → Bool
  | .other => true
  | .frame _ => true
  | _ => false

namespace Ledger

/-- Give page `p` the owner `o` and the contents `pg`. -/
def assign (L : Ledger) (p : ℕ) (o : Owner) (pg : Page) : Ledger :=
  { L with mem := update L.mem p pg, owner := update L.owner p o }

/-- One action. -/
def step (L : Ledger) : Act → Option Ledger
  | .write p pg =>
    if (L.owner p).writable then some { L with mem := update L.mem p pg } else none
  | .take p pg => if L.owner p = .free then some (L.assign p .other pg) else none
  | .give p pg => if L.owner p = .other then some (L.assign p .free pg) else none
  | .spawn i p pg =>
    if L.live i = false ∧ L.owner p = .free then
      some { L.assign p (.frame i) pg with
        live := update L.live i true
        trapframe := update L.trapframe i p
        hlp := update L.hlp i 1 }
    else none
  | .reap i pg =>
    if L.live i ∧ L.owner (L.trapframe i) = .frame i then
      some { L.assign (L.trapframe i) .free pg with
        live := update L.live i false
        trapframe := update L.trapframe i 0
        hlp := update L.hlp i 1 }
    else none
  | .save i p =>
    if L.live i ∧ L.hlp i = 1 ∧ L.owner p = .free then
      some { L.assign p (.alarm i) (L.mem (L.trapframe i)) with
        alarmTf := update L.alarmTf i p }
    else none
  | .enter i =>
    if L.live i ∧ L.owner (L.alarmTf i) = .alarm i then
      some { L with hlp := update L.hlp i 0 }
    else none
  | .restore i pg =>
    if L.live i ∧ L.owner (L.trapframe i) = .frame i ∧ L.owner (L.alarmTf i) = .alarm i then
      some { L.assign (L.alarmTf i) .free pg with
        mem := update (update L.mem (L.trapframe i) (L.mem (L.alarmTf i)))
          (L.alarmTf i) pg
        hlp := update L.hlp i 1 }
    else none

/-! ### Frames are accounted for -/

/-- The pages with saved frames are those that the slots in `O` point to, one for each. -/
structure Tidy (L : Ledger) (O : Slot → Bool) : Prop where
  owner : ∀ p i, L.owner p = .alarm i ↔ O i = true ∧ p = L.alarmTf i
  live : ∀ i, L.live i = false → O i = false

end Ledger

namespace Mark

/-- Frames are saved and restored in turn: a frame is saved only if there is none yet, restored only
if there is one, and a process is freed only if it has none. The rule remembers which slots have a
frame. -/
def inTurn : Rule (Slot → Bool) Mark where
  Fits O
    | .save i => O i = false
    | .restore i => O i = true
    | .reap i => O i = false
    | _ => True
  after O
    | .save i => update O i true
    | .restore i => update O i false
    | _ => O

instance : ∀ O m, Decidable (inTurn.Fits O m)
  | O, .save i => inferInstanceAs (Decidable (O i = false))
  | O, .restore i => inferInstanceAs (Decidable (O i = true))
  | O, .reap i => inferInstanceAs (Decidable (O i = false))
  | _, .spawn _ | _, .enter _ => isTrue trivial

/-- Frames are restored at most once for each time the handler is entered. The rule remembers which
processes are in their handlers. -/
def oncePerEntry : Rule (Slot → Bool) Mark where
  Fits H
    | .restore i => H i = true
    | _ => True
  after H
    | .enter i => update H i true
    | .restore i | .reap i => update H i false
    | _ => H

instance : ∀ H m, Decidable (oncePerEntry.Fits H m)
  | H, .restore i => inferInstanceAs (Decidable (H i = true))
  | _, .spawn _ | _, .reap _ | _, .save _ | _, .enter _ => isTrue trivial

end Mark

namespace Ledger

variable {L L' : Ledger} {O : Slot → Bool}

/-- An action on a page that is no saved frame, before or after. -/
theorem Tidy.of_owner {p : ℕ} {o : Owner} (h : L.Tidy O) (hp : ∀ i, L.owner p ≠ .alarm i)
    (ho : ∀ i, o ≠ .alarm i) (hL : L'.owner = update L.owner p o)
    (ha : L'.alarmTf = L.alarmTf) (hl : ∀ i, L'.live i = false → O i = false) : L'.Tidy O where
  owner q i := by
    rw [hL, ha, ← h.owner q i]
    by_cases hq : q = p
    · subst hq
      simp [hp i, ho i]
    · simp [hq]
  live := hl

theorem Tidy.save {i : Slot} {p : ℕ} {pg : Page} (h : L.Tidy O) (hO : O i = false)
    (hlive : L.live i = true) (hp : L.owner p = .free) :
    Tidy { L.assign p (.alarm i) pg with alarmTf := update L.alarmTf i p }
      (update O i true) where
  owner q j := by
    by_cases hj : j = i
    · subst hj
      by_cases hq : q = p
      · simp [assign, hq]
      · simp [assign, hq, h.owner q j, hO]
    · by_cases hq : q = p
      · -- the page was free, so no other slot points to it
        have hne : ¬ (O j = true ∧ p = L.alarmTf j) := by
          rw [← h.owner p j, hp]
          simp
        simp only [assign, hq, Function.update_self, Owner.alarm.injEq, update_of_ne hj]
        exact iff_of_false (Ne.symm hj) hne
      · simpa [assign, hq, hj] using h.owner q j
  live j hj := by
    have hne : j ≠ i := by
      rintro rfl
      simp [assign, hlive] at hj
    simpa [hne] using h.live j hj

theorem Tidy.restore {i : Slot} {pg : Page} {mem : ℕ → Page} {hlp : Slot → ℤ} (h : L.Tidy O)
    (hp : L.owner (L.alarmTf i) = .alarm i) :
    Tidy { L.assign (L.alarmTf i) .free pg with mem := mem, hlp := hlp }
      (update O i false) where
  owner q j := by
    by_cases hij : j = i
    · subst hij
      by_cases hq : q = L.alarmTf j
      · simp [assign, hq]
      · simp [assign, hq, h.owner q j]
    · by_cases hq : q = L.alarmTf i
      · -- the freed page would be the saved frame of two slots
        have hne : ¬ (O j = true ∧ L.alarmTf i = L.alarmTf j) := by
          rw [← h.owner (L.alarmTf i) j, hp]
          simp [Ne.symm hij]
        simpa [assign, hq, hij] using hne
      · simpa [assign, hq, hij] using h.owner q j
  live j hj := by
    by_cases hij : j = i
    · simp [hij]
    · simpa [hij] using h.live j hj

theorem step_tidy {a : Act} (h : L.Tidy O) (ha : ∀ m, a.mark = some m → Mark.inTurn.Fits O m)
    (hs : L.step a = some L') : L'.Tidy (a.mark.elim O (Mark.inTurn.after O)) := by
  cases a with
  | write p pg | enter i =>
    simp only [step] at hs
    split_ifs at hs
    cases hs
    exact ⟨h.owner, h.live⟩
  | take p pg | give p pg =>
    simp only [step] at hs
    split_ifs at hs with hp
    cases hs
    exact h.of_owner (by simp [hp]) (by simp) rfl rfl h.live
  | spawn i p pg =>
    simp only [step] at hs
    split_ifs at hs with hp
    cases hs
    refine h.of_owner (by simp [hp.2]) (by simp) rfl rfl fun j hj => h.live j ?_
    by_cases hij : j = i
    · simp [hij] at hj
    · simpa [hij] using hj
  | reap i pg =>
    simp only [step] at hs
    split_ifs at hs with hp
    cases hs
    refine h.of_owner (by simp [hp.2]) (by simp) rfl rfl fun j hj => ?_
    by_cases hij : j = i
    · exact hij ▸ ha _ rfl
    · exact h.live j (by simpa [hij] using hj)
  | save i p =>
    simp only [step] at hs
    split_ifs at hs with hp
    cases hs
    exact h.save (ha _ rfl) hp.1 hp.2.2
  | restore i pg =>
    simp only [step] at hs
    split_ifs at hs with hp
    cases hs
    exact h.restore hp.2.2

/-! ### A saved frame stays as it is -/

/-- The process in slot `i` is in its handler, and its saved frame is `pg`. -/
structure Saved (L : Ledger) (i : Slot) (pg : Page) : Prop where
  live : L.live i = true
  hlp : L.hlp i = 0
  owner : L.owner (L.alarmTf i) = .alarm i
  mem : L.mem (L.alarmTf i) = pg

variable {i : Slot} {pg : Page}

/-- An action that leaves the slot and the page of the saved frame alone. -/
theorem Saved.congr (h : L.Saved i pg) (hlive : L'.live i = L.live i) (hhlp : L'.hlp i = L.hlp i)
    (ha : L'.alarmTf i = L.alarmTf i) (ho : L'.owner (L.alarmTf i) = L.owner (L.alarmTf i))
    (hm : L'.mem (L.alarmTf i) = L.mem (L.alarmTf i)) : L'.Saved i pg where
  live := hlive.trans h.live
  hlp := hhlp.trans h.hlp
  owner := by rw [ha, ho, h.owner]
  mem := by rw [ha, hm, h.mem]

theorem step_saved {a : Act} (h : L.Saved i pg) (hr : a.mark ≠ some (.restore i))
    (hf : a.mark ≠ some (.reap i)) (hs : L.step a = some L') : L'.Saved i pg := by
  -- the saved frame is not a page with another owner
  have hne {p : ℕ} (hp : L.owner p ≠ .alarm i) : L.alarmTf i ≠ p := fun he => hp (he ▸ h.owner)
  cases a with
  | write p pg =>
    simp only [step] at hs
    split_ifs at hs with hp
    cases hs
    have := hne (p := p) fun he => by simp [he, Owner.writable] at hp
    exact h.congr rfl rfl rfl rfl (by simp [this])
  | take p pg | give p pg =>
    simp only [step] at hs
    split_ifs at hs with hp
    cases hs
    have := hne (p := p) (by simp [hp])
    exact h.congr rfl rfl rfl (by simp [assign, this]) (by simp [assign, this])
  | spawn j p pg =>
    simp only [step] at hs
    split_ifs at hs with hp
    cases hs
    have hij : i ≠ j := by
      rintro rfl
      simp [h.live] at hp
    have := hne (p := p) (by simp [hp.2])
    exact h.congr (by simp [hij]) (by simp [hij]) rfl (by simp [assign, this])
      (by simp [assign, this])
  | reap j pg =>
    simp only [step] at hs
    split_ifs at hs with hp
    cases hs
    have hij : i ≠ j := fun he => hf (by simp [Act.mark, he])
    have := hne (p := L.trapframe j) (by simp [hp.2])
    exact h.congr (by simp [hij]) (by simp [hij]) rfl (by simp [assign, this])
      (by simp [assign, this])
  | save j p =>
    simp only [step] at hs
    split_ifs at hs with hp
    cases hs
    have hij : i ≠ j := by
      rintro rfl
      have := h.hlp
      omega
    have := hne (p := p) (by simp [hp.2.2])
    exact h.congr rfl rfl (by simp [hij]) (by simp [assign, this]) (by simp [assign, this])
  | enter j =>
    simp only [step] at hs
    split_ifs at hs
    cases hs
    refine h.congr rfl ?_ rfl rfl rfl
    by_cases hij : i = j
    · simp [← hij, h.hlp]
    · simp [hij]
  | restore j pg =>
    simp only [step] at hs
    split_ifs at hs with hp
    cases hs
    have hij : i ≠ j := fun he => hr (by simp [Act.mark, he])
    have h₁ := hne (p := L.alarmTf j) (by simp [hp.2.2, Ne.symm hij])
    have h₂ := hne (p := L.trapframe j) (by simp [hp.2.1])
    exact h.congr rfl (by simp [hij]) rfl (by simp [assign, h₁]) (by simp [h₁, h₂])

/-- A saved frame stays as it is until it is restored. -/
theorem run_saved {as : List Act} (h : L.Saved i pg)
    (hr : Mark.restore i ∉ as.filterMap Act.mark) (hf : Mark.reap i ∉ as.filterMap Act.mark)
    (hrun : runEvents step L as = some L') : L'.Saved i pg := by
  refine runEvents_invariant_of (I := fun L => L.Saved i pg)
    (P := fun a => a.mark ≠ some (.restore i) ∧ a.mark ≠ some (.reap i))
    (fun _ _ _ ha hL hs => step_saved hL ha.1 ha.2 hs)
    (fun a ha => ⟨fun he => hr ?_, fun he => hf ?_⟩) h hrun
  · exact List.mem_filterMap.2 ⟨a, ha, he⟩
  · exact List.mem_filterMap.2 ⟨a, ha, he⟩

/-- The processes in `H` are in their handlers. -/
def Handled (L : Ledger) (H : Slot → Bool) : Prop := ∀ i, H i = true → ∃ pg, L.Saved i pg

theorem step_handled {a : Act} {H : Slot → Bool} (h : L.Handled H)
    (hs : L.step a = some L') : L'.Handled (a.mark.elim H (Mark.oncePerEntry.after H)) := by
  -- processes that were in their handlers, and are so still
  have hold {i : Slot} (hi : H i = true) (hr : a.mark ≠ some (.restore i))
      (hf : a.mark ≠ some (.reap i)) : ∃ pg, L'.Saved i pg :=
    (h i hi).imp fun pg hpg => step_saved hpg hr hf hs
  cases a with
  | write | take | give | spawn | save =>
    exact fun i hi => hold hi (by simp [Act.mark]) (by simp [Act.mark])
  | reap j | restore j =>
    intro i hi
    by_cases hij : i = j
    · simp [Act.mark, Mark.oncePerEntry, hij] at hi
    · simp only [Act.mark, Mark.oncePerEntry, Option.elim_some, update_of_ne hij] at hi
      exact hold hi (by simp [Act.mark, Ne.symm hij]) (by simp [Act.mark, Ne.symm hij])
  | enter j =>
    intro i hi
    by_cases hij : i = j
    · subst hij
      simp only [step] at hs
      split_ifs at hs with hp
      cases hs
      exact ⟨_, hp.1, by simp, hp.2, rfl⟩
    · simp only [Act.mark, Mark.oncePerEntry, Option.elim_some, update_of_ne hij] at hi
      exact hold hi (by simp [Act.mark]) (by simp [Act.mark])

/-! ### Rules that protect frames -/

/-- A rule under which a process restores only frames of its own, by an invariant `I`. -/
structure Protects {γ : Type*} (R : Rule γ Mark) (I : Ledger → γ → Prop) : Prop where
  step : ∀ L a L' g, I L g → (∀ m, a.mark = some m → R.Fits g m) → L.step a = some L' →
    I L' (a.mark.elim g (R.after g))
  owns : ∀ L g i, I L g → R.Fits g (.restore i) → L.owner (L.alarmTf i) = .alarm i

theorem inTurn_protects : Protects Mark.inTurn Tidy where
  step _ _ _ _ := step_tidy
  owns _ _ _ h hO := (h.owner _ _).2 ⟨hO, rfl⟩

theorem oncePerEntry_protects : Protects Mark.oncePerEntry Handled where
  step _ _ _ _ h _ := step_handled h
  owns _ _ i h hH := (h i hH).elim fun _ hpg => hpg.owner

end Ledger

end Xv6
