import Xv6.Vm.Invariant

/-!
# `exec` on the address spaces of processes

`exec` gives up, and then memory is as it was, or it replaces the image of the process. It builds
the new image in pages that were free and puts it in place only when nothing can fail any more, so
all that matters on the way is what is confined to the new address space.
-/

namespace Xv6

open Function (update update_self)

open Vm

/-- The page is a page-table page of the address space with root `r`, or one that it maps for the
user. -/
def Kmem.InImage (m : Kmem) (r p : ℕ) : Prop :=
  p = r ∨ (∃ k, m.child r k = some p) ∨
    (∃ k q, m.child r k = some q ∧ ∃ k', m.child q k' = some p) ∨
    ∃ v < vpnLimit, IsUser v ∧ m.pte r v ≠ 0 ∧ pte2pa (m.pte r v) = p

namespace Vm

/-! ### The pages of an image -/

theorem Store.child_eq {w : Store} {r p q level pre : ℕ} {k : Fin 512}
    (hp : w.use p = .table r (level + 1) pre) (hq : w.kmem.child p k = some q) :
    w.use q = .table r level (pre * 512 + k) := by
  rcases w.child_cases hp k with ⟨-, h₀⟩ | ⟨q', hq', hu⟩
  · rw [h₀] at hq
    exact absurd hq (by simp)
  · rw [hq'] at hq
    exact Option.some.inj hq ▸ hu

/-- The pages of an address space are those with its label. -/
theorem Store.inImage_iff {w : Store} {r p : ℕ} (hr : w.IsRoot r) :
    w.kmem.InImage r p ↔ (w.use p).Of r := by
  constructor
  · rintro (rfl | ⟨k, hk⟩ | ⟨k, q, hq, k', hk'⟩ | ⟨v, hv, hu, hne, rfl⟩)
    · rw [hr]
      rfl
    · rw [Store.child_eq hr hk]
      rfl
    · rw [Store.child_eq (Store.child_eq hr hq) hk']
      rfl
    · have huse := ((Store.pte_ok hr hv).resolve_left hne).2 hu
      change (w.use (pte2pa (w.pte r v))).Of r
      rw [huse]
      rfl
  · intro h
    match hp : w.use p with
    | .none | .frame _ =>
      rw [hp] at h
      exact h.elim
    | .table r' level pre =>
      rw [hp] at h
      obtain rfl : r' = r := h
      have hle := w.tidy.level p r' level pre hp
      obtain rfl | rfl | rfl : level = 2 ∨ level = 1 ∨ level = 0 := by omega
      · exact .inl (w.tidy.root p r' pre hp).1
      · rw [eq_prefix_add pre] at hp
        obtain ⟨q, hq, hk⟩ := Store.child_of_table (by decide) hp
        rw [(w.tidy.root q r' _ hq).1] at hk
        exact .inr (.inl ⟨_, hk⟩)
      · rw [eq_prefix_add pre] at hp
        obtain ⟨q, hq, hk⟩ := Store.child_of_table (by decide) hp
        rw [eq_prefix_add (pre / 512)] at hq
        obtain ⟨q', hq', hk'⟩ := Store.child_of_table (by decide) hq
        rw [(w.tidy.root q' r' _ hq').1] at hk'
        exact .inr (.inr (.inl ⟨_, q, hk', _, hk⟩))
    | .user r' v =>
      rw [hp] at h
      obtain rfl : r' = r := h
      have hv : v < vpnLimit := by
        have hp' := hp
        rw [eq_prefix_add v] at hp'
        obtain ⟨-, t, ht, -⟩ := w.mapped p r' _ _ hp'
        have := Store.lt_of_table ht
        change v < 2 ^ 27
        omega
      obtain ⟨hne, hpa⟩ := Store.pte_of_user hr hv hp
      exact .inr (.inr (.inr ⟨v, hv, Store.isUser hp, hne, hpa⟩))

/-! ### What is left -/

/-- An address space has come and gone. -/
theorem Confined.untouched {w w' : Store} {r : ℕ} (h : Confined r [] [] w w') (hr : ¬ w.IsRoot r)
    (hr' : ¬ w'.IsRoot r) (p : ℕ) :
    (p ∈ w'.list ↔ p ∈ w.list) ∧ (p ∉ w.list → w'.kmem.mem p = w.kmem.mem p) := by
  have hof : ¬ (w.use p).Of r := fun h => hr (Store.isRoot_of h)
  have hof' : ¬ (w'.use p).Of r := fun h => hr' (Store.isRoot_of h)
  refine ⟨?_, fun hp => (h.same p (Store.not_owns hp hof)).2⟩
  have := h.owns p
  simpa only [Store.Owns, hof, hof', List.not_mem_nil, or_false] using this

/-- A new address space has its root in a page that was free. -/
theorem Others.mem_list {w w' : Store} {r : ℕ} (h : Others r w w') (hr : ¬ w.IsRoot r)
    (hr' : w'.IsRoot r) : r ∈ w.list := by
  have hof : ¬ (w.use r).Of r := fun h => hr (Store.isRoot_of h)
  have hof' : (w'.use r).Of r := by
    rw [hr']
    rfl
  have := h.confined.owns r
  simpa only [Store.Owns, hof, hof', List.not_mem_nil, or_false, or_true, true_iff] using this

/-- `exec` has given up: processes, their memory and the free pages are as before. -/
structure Untouched (s t : Machine) : Prop where
  proc : t.proc = s.proc
  free : ∀ p, t.phys.kmem.IsFree p ↔ s.phys.kmem.IsFree p
  mem : ∀ p, ¬ s.phys.kmem.IsFree p → t.phys.kmem.mem p = s.phys.kmem.mem p

/-- `exec` has put the program `x` in place of the image of the process in slot `i`, with `sp` as
its stack pointer. -/
structure Installed (i : Slot) (x : Program) (sp : ℕ) (s t : Machine) : Prop where
  proc : t.proc = update s.proc i { s.proc i with
    name := execName x.path, pagetable := (t.proc i).pagetable, sz := (t.proc i).sz }
  /-- The new page table is a page of its own. -/
  fresh : s.phys.kmem.IsFree (t.proc i).pagetable
  frame : t.phys.kmem.mem (s.proc i).trapframe =
    update (update (update (s.phys.kmem.mem (s.proc i).trapframe)
      regA1 sp) regEpc x.entry) regSp sp
  /-- All pages of the old image are free. -/
  freed : ∀ p, s.phys.kmem.InImage (s.proc i).pagetable p → t.phys.kmem.IsFree p
  /-- No page is lost. -/
  pages : ∀ p, t.phys.kmem.IsFree p ∨ t.phys.kmem.InImage (t.proc i).pagetable p ↔
    s.phys.kmem.IsFree p ∨ s.phys.kmem.InImage (s.proc i).pagetable p
  mem : ∀ p, ¬ s.phys.kmem.IsFree p → ¬ s.phys.kmem.InImage (s.proc i).pagetable p →
    p ≠ (s.proc i).trapframe → t.phys.kmem.mem p = s.phys.kmem.mem p

/-! ### The trapframe -/

/-- The trapframe in page `tf` becomes `pg`. -/
structure SetsFrame (tf : ℕ) (pg : Page) (w w' : Store) : Prop where
  grows : Grows w w'
  use : w'.use = w.use
  list : w'.list = w.list
  kmem : w'.kmem = w.kmem.write tf pg

theorem SetsFrame.trans {w w' w'' : Store} {tf : ℕ} {pg pg' : Page} (h : SetsFrame tf pg w w')
    (h' : SetsFrame tf pg' w' w'') : SetsFrame tf pg' w w'' where
  grows := h.grows.trans h'.grows
  use := h'.use.trans h.use
  list := h'.list.trans h.list
  kmem := by
    rw [h'.kmem, h.kmem, Kmem.write, Kmem.write, Kmem.write]
    dsimp only
    rw [Function.update_idem]

theorem setReg_spec {w : Store} {j : Slot} {tf : ℕ} (htf : w.use tf = .frame j) (k : Fin 512)
    (x : Word) : Does w (setReg tf k x) fun _ w' =>
      SetsFrame tf (update (w.kmem.mem tf) k x) w w' := by
  have ht : ¬ (w.use tf).IsTable := by simp [htf, Use.IsTable]
  refine readPage_bind ((writePage_spec (w.tidy.notMem (by simp [htf])) ht _).mono ?_)
  rintro - w' ⟨hg, hk, huse, hlist⟩
  exact ⟨hg, huse, hlist, hk⟩

/-- The memory of users is elsewhere. -/
theorem SetsFrame.userMem {w w' : Store} {j : Slot} {r n tf : ℕ} {a b : Word} {pg : Page}
    (h : SetsFrame tf pg w w') (htf : w.use tf = .frame j) (hs : Space w r n a b) :
    w'.kmem.userMem r = w.kmem.userMem r := by
  refine hs.userMem_congr (fun v hv => h.grows.pte r v hs.root hv) fun p v hp => ?_
  have hne : p ≠ tf := by
    rintro rfl
    simp [htf] at hp
  rw [h.kmem, Kmem.write_mem_of_ne _ _ hne]

/-! ### `exec` -/

theorem Guarded.stackbase {u : UserMem} {sz : ℕ} (h : Guarded u sz) :
    (sz + 2 ^ 64 - PGSIZE) % 2 ^ 64 = sz - PGSIZE := by
  have hpos : 4096 ≤ sz - 4096 := h.stack.pos
  have hlt : sz - 4096 < 2 ^ 38 := h.stack.lt
  change (sz + 2 ^ 64 - 4096) % 2 ^ 64 = sz - 4096
  omega

/-- The first part of `exec`: whether the program has been loaded and has a stack. -/
def imageLoaded (i : Slot) (x : Program) : ProcM Bool := do
  match x.headers with
  | none => pure false
  | some phs =>
    let p ← ProcM.slot i
    let pagetable ← ProcM.onPhys (procPagetable (← get).trampoline p.trapframe)
    if pagetable = 0 then pure false
    else
      let (ok, _) ← ProcM.onPhys (loadImage pagetable phs)
      pure ok

/-- What `exec` has done when it returns `n`. -/
structure Executed (i : Slot) (x : Program) (s : Machine) (n : ℤ) (t : Machine) : Prop where
  keeps : (∃ w, Spaces (fun _ => True) t w) ∧ Spares (fun j => j = i ∧ n ≠ -1) s t
  /-- The page table is that of the image that has been loaded. -/
  image : n ≠ -1 → ∃ pt t₁ loaded t', (ProcM.onPhys (procPagetable s.trampoline
    (s.proc i).trapframe)).run s = .ok (pt, t₁) ∧ (imageLoaded i x).run s = .ok (loaded, t') ∧
      ∀ v < vpnLimit, t.pte i v = t'.phys.kmem.pte pt v
  /-- The program is loaded or not, and the arguments are pushed on the stack that it has then. -/
  cases : ∃ loaded t', (imageLoaded i x).run s = .ok (loaded, t') ∧
    (n = -1 ∧ Untouched s t ∧ (loaded = true → ∃ u sz, Guarded u sz ∧
        (UserMem.pushArgs (sz - PGSIZE) u x.argv [] sz).1 = none) ∨
      n = x.argv.length ∧ loaded = true ∧ ∃ sp u, Installed i x sp s t ∧
        Guarded u (t.proc i).sz ∧ (some sp, t.phys.kmem.userMem (t.proc i).pagetable) =
          UserMem.pushArgs ((t.proc i).sz - PGSIZE) u x.argv [] (t.proc i).sz)

section Exec

variable {s : Machine} {w : Store} {i : Slot}

theorem Spaces.isFree_iff {D : Slot → Prop} (h : Spaces D s w) (p : ℕ) :
    s.phys.kmem.IsFree p ↔ p ∈ w.list := by
  rw [h.kmem]
  exact w.tidy.free.isFree_iff

theorem Spaces.inImage_iff {D : Slot → Prop} (h : Spaces D s w) {r : ℕ} (hr : w.IsRoot r) (p : ℕ) :
    s.phys.kmem.InImage r p ↔ (w.use p).Of r := by
  rw [h.kmem]
  exact Store.inImage_iff hr

/-- Everything is as it was once the new address space is gone again. -/
theorem untouched {t : Machine} {w' : Store} {r : ℕ} (h : Spaces (fun _ => True) s w)
    (h' : Spaces (fun _ => True) t w') (hproc : t.proc = s.proc) (ho : Others r w w')
    (hr : ¬ w.IsRoot r) (hr' : ¬ w'.IsRoot r) : Untouched s t where
  proc := hproc
  free p := by
    rw [h.isFree_iff, h'.isFree_iff]
    exact (ho.confined.untouched hr hr' p).1
  mem p hp := by
    rw [h.isFree_iff] at hp
    rw [h.kmem, h'.kmem]
    exact (ho.confined.untouched hr hr' p).2 hp

/-- A new address space has been built, the trapframe has been set, and the old address space has
been freed. -/
theorem replaced {r pt tf p : ℕ} {pg : Page} {w₁ w₂ w₃ : Store} (hr : w.IsRoot r)
    (hpt : ¬ w.IsRoot pt) (htf : ∃ j, w.use tf = .frame j) (h₁ : Others pt w w₁)
    (h₂ : SetsFrame tf pg w₁ w₂) (h₃ : Others r w₂ w₃) (hr₃ : ¬ w₃.IsRoot r) :
    ((w.use p).Of r → p ∈ w₃.list) ∧
      (p ∈ w₃.list ∨ (w₃.use p).Of pt ↔ p ∈ w.list ∨ (w.use p).Of r) ∧
      (p ∉ w.list → ¬ (w.use p).Of r → p ≠ tf → w₃.kmem.mem p = w.kmem.mem p) ∧
      w₃.kmem.mem tf = pg := by
  have hne : r ≠ pt := by
    rintro rfl
    exact hpt hr
  have hof : ¬ (w.use p).Of pt := fun h => hpt (Store.isRoot_of h)
  have hof₃ : ¬ (w₃.use p).Of r := fun h => hr₃ (Store.isRoot_of h)
  -- what is free while both address spaces are there, and after the old one has gone
  have hfree₁ : p ∈ w₁.list ∨ (w₁.use p).Of pt ↔ p ∈ w.list := by
    have := h₁.confined.owns p
    simpa only [Store.Owns, hof, List.not_mem_nil, or_false] using this
  have hfree₃ : p ∈ w₃.list ↔ p ∈ w₁.list ∨ (w₁.use p).Of r := by
    have := h₃.confined.owns p
    simpa only [Store.Owns, hof₃, h₂.use, h₂.list, List.not_mem_nil, or_false] using this
  have hold : (w₁.use p).Of r ↔ (w.use p).Of r := h₁.of_iff hne
  have hnew : (w₃.use p).Of pt ↔ (w₁.use p).Of pt := by
    rw [h₃.of_iff hne.symm, h₂.use]
  refine ⟨fun h => hfree₃.2 (.inr (hold.2 h)), ?_, fun hp hu hptf => ?_, ?_⟩
  · rw [hfree₃, hnew, hold, ← hfree₁, or_right_comm]
  · obtain ⟨hp₁, hu₁⟩ := h₁.keep p hp hof
    rw [h₃.mem (h₂.list ▸ hp₁) (by rwa [h₂.use, hu₁]), h₂.kmem, Kmem.write_mem_of_ne _ _ hptf,
      h₁.mem hp hof]
  · obtain ⟨j, hj⟩ := htf
    have hl : tf ∉ w.list := w.tidy.notMem (by simp [hj])
    obtain ⟨hl₁, hu₁⟩ := h₁.keep tf hl (by simp [hj, Use.Of])
    rw [h₃.mem (h₂.list ▸ hl₁) (by simp [h₂.use, hu₁, hj, Use.Of]), h₂.kmem, Kmem.write_mem_self]

/-- The new image is in place, once the trapframe has been set and the old image has been freed. -/
theorem commit_spec {x : Program} {pt sz sp : ℕ} {t : Machine} {w' : Store}
    (h : Spaces (fun _ => True) s w) (hi : (s.proc i).state ≠ .unused) (hpt : ¬ w.IsRoot pt)
    (ho : Others pt w w') (hc : Changes s t s.proc w')
    (hs : Space w' pt (pages sz) (frameEntry (s.proc i).trapframe) (trampolineEntry s.trampoline)) :
    Runs (do
      ProcM.onPhys (setReg (s.proc i).trapframe regA1 sp)
      ProcM.update i fun p => { p with name := execName x.path, pagetable := pt, sz := sz }
      ProcM.onPhys (setReg (s.proc i).trapframe regEpc x.entry)
      ProcM.onPhys (setReg (s.proc i).trapframe regSp sp)
      ProcM.onPhys (procFreepagetable (s.proc i).pagetable (s.proc i).sz)
      pure (x.argv.length : ℤ)) t fun n t' => n = x.argv.length ∧
        ((∃ w, Spaces (fun _ => True) t' w) ∧ Spares (· = i) s t') ∧ Installed i x sp s t' ∧
        (t'.proc i).pagetable = pt ∧
        (t'.proc i).sz = sz ∧ t'.phys.kmem.userMem pt = w'.kmem.userMem pt ∧
        ∀ v < vpnLimit, t'.pte i v = w'.pte pt v := by
  have hne (j : Slot) (_ : True) (hu : (s.proc j).state ≠ .unused) : (s.proc j).pagetable ≠ pt := by
    rintro rfl
    exact hpt (h.isRoot trivial hu)
  have hroot := h.isRoot trivial hi
  have hframe := (h.holds i trivial hi).frame
  have hh := (h.holds i trivial hi).of_others ho (hne i trivial hi)
  have h' := h.of_others ho hne hc
  refine (onPhys_spec (setReg_spec hh.frame regA1 sp) hc.kmem).bind ?_
  rintro - t₁ ⟨w₁, hf₁, hc₁⟩
  have h₁ := h'.of_grows hf₁.grows hc₁
  have hproc₁ : t₁.proc = s.proc := hc₁.proc.trans hc.proc
  have htr₁ : t₁.trampoline = s.trampoline := hc₁.trampoline.trans hc.trampoline
  refine (update_spec i _ h₁.kmem).bind fun _ t₂ hc₂ => ?_
  rw [hproc₁] at hc₂
  have hframe₁ : w₁.use (s.proc i).trapframe = .frame i := by rw [hf₁.use, hh.frame]
  have h₂ : Spaces (fun _ => True) t₂ w₁ := by
    refine (h₁.leave_self i).join (p := { s.proc i with
      name := execName x.path, pagetable := pt, sz := sz }) (fun hu => absurd hu hi)
      (fun _ => ⟨?_, hframe₁⟩) (fun j _ _ hu => ?_) ⟨?_, hc₂.trampoline, hc₂.kmem⟩
    · rw [htr₁]
      exact hs.of_grows hf₁.grows
    · rw [hproc₁] at hu ⊢
      exact hne j trivial hu
    · rw [hc₂.proc, hproc₁]
  refine (onPhys_spec (setReg_spec hframe₁ regEpc x.entry) h₂.kmem).bind ?_
  rintro - t₃ ⟨w₂, hf₂, hc₃⟩
  have hframe₂ : w₂.use (s.proc i).trapframe = .frame i := by rw [hf₂.use, hframe₁]
  have h₃ := h₂.of_grows hf₂.grows hc₃
  refine (onPhys_spec (setReg_spec hframe₂ regSp sp) h₃.kmem).bind ?_
  rintro - t₄ ⟨w₃, hf₃, hc₄⟩
  have h₄ := h₃.of_grows hf₃.grows hc₄
  have hf := (hf₁.trans hf₂).trans hf₃
  refine (onPhys_spec (procFreepagetable_spec (hh.space.of_grows hf.grows) (frameEntry_ne_zero _)
    (trampolineEntry_ne_zero _)) h₄.kmem).bind ?_
  rintro - t₅ ⟨w₄, ⟨ho₅, hroot₅⟩, hc₅⟩
  have hproc₅ : t₅.proc = update s.proc i { s.proc i with
      name := execName x.path, pagetable := pt, sz := sz } := by
    rw [hc₅.proc, hc₄.proc, hc₃.proc, hc₂.proc]
  have hpt₅ : (t₅.proc i).pagetable = pt := by rw [hproc₅, update_self]
  have hsz₅ : (t₅.proc i).sz = sz := by rw [hproc₅, update_self]
  have hne₄ (j : Slot) (_ : True) (hu : t₄.Live j) :
      (t₄.proc j).pagetable ≠ (s.proc i).pagetable := by
    rw [Machine.Live, hc₄.proc, hc₃.proc, hc₂.proc] at hu
    rw [hc₄.proc, hc₃.proc, hc₂.proc]
    by_cases hj : j = i
    · rw [hj, update_self]
      exact (hne i trivial hi).symm
    · rw [Function.update_of_ne hj] at hu ⊢
      exact h.ne_of_ne hi j hj hu
  have h₅ : Spaces (fun _ => True) t₅ w₄ := h₄.of_others ho₅ hne₄ hc₅
  -- of another process, neither the new address space nor the trapframe nor the old one is
  have hspares : Spares (· = i) s t₅ := fun j hj hu => by
    have hproc₄ : t₄.proc j = t.proc j := by
      rw [hc₄.proc, hc₃.proc, hc₂.proc, Function.update_of_ne hj, hc.proc]
    have hu' : t.Live j := by rwa [Machine.Live, hc.proc]
    have hu₄ : t₄.Live j := by rwa [Machine.Live, hproc₄]
    refine (h.sameUser_of_others trivial hu (by rw [hc.proc]) hc.kmem ho (hne j trivial hu)).trans
      ((h'.sameUser trivial hu' hproc₄ hc₄.kmem (fun v hv => ?_) fun p v hp => ?_).trans
        (h₄.sameUser_of_others trivial hu₄ (by rw [hc₅.proc]) hc₅.kmem ho₅ (hne₄ j trivial hu₄)))
    · exact hf.grows.pte _ v (h'.isRoot trivial hu') hv
    · rw [hf.kmem, Kmem.write_mem_of_ne]
      rintro rfl
      simp [hh.frame] at hp
  have hnew : w₄.IsRoot pt := by
    rw [← hpt₅]
    refine h₅.isRoot trivial ?_
    rwa [hproc₅, update_self]
  have hrep (p : ℕ) := replaced (p := p) hroot hpt ⟨i, hframe⟩ ho hf ho₅ hroot₅
  refine .pure ⟨rfl, ⟨⟨w₄, h₅⟩, hspares⟩,
    ⟨?_, ?_, ?_, fun p hp => ?_, fun p => ?_, fun p hp hp' htf => ?_⟩,
    hpt₅, hsz₅, ?_, fun v hv => ?_⟩
  · rw [hpt₅, hsz₅, hproc₅]
  · rw [h.isFree_iff, hpt₅]
    exact ho.mem_list hpt hs.root
  · have htf : w'.kmem.mem (s.proc i).trapframe = w.kmem.mem (s.proc i).trapframe :=
      ho.mem (w.tidy.notMem (by simp [hframe])) (by simp [hframe, Use.Of])
    rw [h₅.kmem, (hrep 0).2.2.2, hf₂.kmem, Kmem.write_mem_self, hf₁.kmem, Kmem.write_mem_self, htf,
      h.kmem]
  · rw [h.inImage_iff hroot] at hp
    exact (h₅.isFree_iff p).2 ((hrep p).1 hp)
  · rw [hpt₅, h₅.isFree_iff, h₅.inImage_iff hnew, h.isFree_iff, h.inImage_iff hroot]
    exact (hrep p).2.1
  · rw [h.isFree_iff] at hp
    rw [h.inImage_iff hroot] at hp'
    rw [h₅.kmem, h.kmem]
    exact (hrep p).2.2.1 hp hp' htf
  · rw [h₅.kmem, ho₅.userMem (hs.of_grows hf.grows) (hne i trivial hi).symm, hf.userMem hh.frame hs]
  · rw [Machine.pte, hpt₅, h₅.kmem]
    exact (ho₅.pte pt v (hf.grows.isRoot hs.root) (hne i trivial hi).symm hv).trans
      (hf.grows.pte pt v hs.root hv)

theorem exec_spec (h : Spaces (fun _ => True) s w) (hi : (s.proc i).state ≠ .unused)
    (x : Program) : Runs (exec i x) s (Executed i x s) := by
  have hh := h.holds i trivial hi
  cases hx : x.headers with
  | none =>
    have hload : (imageLoaded i x).run s = .ok (false, s) := by
      rw [imageLoaded, hx]
      rfl
    rw [exec, hx]
    exact .pure ⟨⟨⟨w, h⟩, .refl _ s⟩, fun hn => absurd rfl hn, false, s, hload,
      .inl ⟨rfl, ⟨rfl, fun _ => Iff.rfl, fun _ _ => rfl⟩, nofun⟩⟩
  | some phs =>
    have hlt : (s.proc i).trapframe < 2 ^ 44 := w.tidy.lt (by simp [hh.frame])
    obtain ⟨pt, t₁, hrun₁, w₁, ⟨q, hq, ho₁, hfail₁, hspace₁⟩, hc₁⟩ :=
      onPhys_spec (procPagetable_spec h.trampoline hlt) h.kmem
    have hne₁ (i : Slot) (_ : True) (hu : (s.proc i).state ≠ .unused) :
        (s.proc i).pagetable ≠ q := by
      rintro rfl
      exact hq (h.isRoot trivial hu)
    have h₁ := h.of_others ho₁ hne₁ hc₁
    have hfail {t : Machine} {w' : Store} {X : Slot → Prop} (ho : Others q w w')
        (hc : Changes s t s.proc w') : (∃ w, Spaces (fun _ => True) t w) ∧ Spares X s t :=
      ⟨⟨w', h.of_others ho hne₁ hc⟩, fun j _ hu =>
        h.sameUser_of_others trivial hu (by rw [hc.proc]) hc.kmem ho (hne₁ j trivial hu)⟩
    -- the first part of `exec`, which `imageLoaded` has in common with it
    have hload {b : Bool} {t : Machine} (hrun : Runs (if pt = 0 then pure false else do
        let (ok, _) ← ProcM.onPhys (loadImage pt phs)
        pure ok : ProcM Bool) t₁ fun b' t' => b' = b ∧ t' = t) :
        (imageLoaded i x).run s = .ok (b, t) := by
      have hruns : Runs (imageLoaded i x) s fun b' t' => b' = b ∧ t' = t := by
        rw [imageLoaded, hx]
        exact slot_bind (get_bind (.bind_run hrun₁ hrun))
      obtain ⟨b, t, hrun', rfl, rfl⟩ := hruns
      exact hrun'
    rw [exec, hx]
    refine slot_bind (get_bind (.bind_run hrun₁ ?_))
    by_cases h₀ : pt = 0
    · rw [if_pos h₀] at hload ⊢
      exact .pure ⟨hfail ho₁ hc₁, fun hn => absurd rfl hn, false, t₁, hload (.pure ⟨rfl, rfl⟩),
        .inl ⟨rfl, untouched h h₁ hc₁.proc ho₁ hq (hfail₁ h₀), nofun⟩⟩
    rw [if_neg h₀] at hload ⊢
    obtain ⟨rfl, hs₁⟩ := hspace₁ h₀
    obtain ⟨⟨ok, sz⟩, t₂, hrun₂, w₂, ⟨ho₂, hs₂, hguard₂⟩, hc₂⟩ :=
      onPhys_spec (loadImage_spec hs₁) h₁.kmem
    have hload₂ := hload (.bind_run hrun₂ (.pure ⟨rfl, rfl⟩))
    refine .bind_run hrun₂ ?_
    have hpush : Does w₂ (if ok then pushArgs pt ((sz + 2 ^ 64 - PGSIZE) % 2 ^ 64) x.argv [] sz
        else pure none) fun o w' => Grows w₂ w' ∧ Confined pt [] [] w₂ w' ∧
          (ok = false → o = none) ∧ (ok = true → (o, w'.kmem.userMem pt) =
            UserMem.pushArgs (sz - PGSIZE) (w₂.kmem.userMem pt) x.argv [] sz) := by
      cases ok with
      | false => exact .pure ⟨.refl w₂, .refl pt [] w₂, fun _ => rfl, nofun⟩
      | true =>
        rw [if_pos rfl, (hguard₂ rfl).stackbase]
        exact (pushArgs_spec hs₂).mono fun o w' ⟨hg, hc, hu⟩ => ⟨hg, hc, nofun, fun _ => hu⟩
    have h₂ := h₁.of_others ho₂ (hc₁.proc ▸ hne₁) hc₂
    refine (onPhys_spec hpush h₂.kmem).bind ?_
    rintro o t₃ ⟨w₃, ⟨hg₃, hcon₃, hnone, hsome⟩, hc₃⟩
    have ho₃ := (ho₁.trans ho₂).trans (.of_grows hg₃ hcon₃)
    have hs₃ := hs₂.of_grows hg₃
    have hc : Changes s t₃ s.proc w₃ :=
      ⟨hc₃.proc.trans (hc₂.proc.trans hc₁.proc),
        hc₃.trampoline.trans (hc₂.trampoline.trans hc₁.trampoline), hc₃.kmem⟩
    cases o with
    | none =>
      refine (onPhys_spec (procFreepagetable_spec hs₃ (frameEntry_ne_zero _)
        (trampolineEntry_ne_zero _)) hc.kmem).bind ?_
      rintro - t₄ ⟨w₄, ⟨ho₄, hroot₄⟩, hc₄⟩
      have ho := ho₃.trans ho₄
      have hc₄' : Changes s t₄ s.proc w₄ :=
        ⟨hc₄.proc.trans hc.proc, hc₄.trampoline.trans hc.trampoline, hc₄.kmem⟩
      have h₄ := h.of_others ho hne₁ hc₄'
      refine .pure ⟨hfail ho hc₄', fun hn => absurd rfl hn, ok, t₂, hload₂,
        .inl ⟨rfl, ?_, fun hok => ?_⟩⟩
      · exact untouched h h₄ (hc₄.proc.trans hc.proc) ho hq hroot₄
      · exact ⟨_, sz, hguard₂ hok, (congrArg Prod.fst (hsome hok)).symm⟩
    | some sp =>
      have hok : ok = true := by
        by_contra hok
        exact absurd (hnone (Bool.eq_false_iff.2 hok)) (by simp)
      refine (commit_spec h hi hq ho₃ hc hs₃).mono ?_
      rintro n t₄ ⟨rfl, ⟨hspaces, hspares⟩, hinst, rfl, rfl, huser, hpte⟩
      refine ⟨⟨hspaces, fun j hj hu => hspares j (fun he => hj ⟨he, by simp⟩) hu⟩,
        fun _ => ⟨_, t₁, ok, t₂, hrun₁, hload₂, fun v hv => ?_⟩, ok, t₂, hload₂,
        .inr ⟨rfl, hok, sp, _, hinst, hguard₂ hok, ?_⟩⟩
      · rw [hpte v hv, hg₃.pte _ v hs₂.root hv, hc₂.kmem]
        rfl
      · rw [huser]
        exact hsome hok

end Exec

end Vm

end Xv6
