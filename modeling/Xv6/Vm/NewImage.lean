import Xv6.Vm.AddressSpace
import Xv6.Vm.Elf

/-!
# What a call of `exec` leaves

`sys_exec` copies the arguments to pages of its own and calls `exec`. In every state in which it can
do that, for every file and however many allocations fail, `exec` returns. Either nothing has
happened, or the process has the new image and all pages of the old one are free. In the second case
the arguments are on the stack of the new image, and this is so whenever there is a place for them
on one page.
-/

namespace Xv6.Vm

/-- The pages that `sys_exec` allocates for up to `k` arguments before it calls `exec`: whether
there have been so many. -/
def argPages : ℕ → PhysM Bool
  | 0 => pure true
  | k + 1 => do
    if (← kalloc) = 0 then pure false else argPages k

/-- The same machine, on which the allocations listed in `denied` fail. -/
def Machine.deny (s : Machine) (denied : List Bool) : Machine :=
  { s with phys := { s.phys with denied := denied } }

/-- A register in the trapframe of the process in slot `i`. -/
def Machine.reg (s : Machine) (i : Slot) (k : Fin 512) : ℕ :=
  (s.phys.kmem.mem (s.proc i).trapframe k).toNat

/-! ### The states in which `exec` is called -/

theorem argPages_spec {w : Store} (k : ℕ) : Does w (argPages k) fun _ w' => Grows w w' := by
  induction k generalizing w with
  | zero => exact .pure (.refl w)
  | succ k ih =>
    rw [argPages]
    refine kalloc_spec.bind fun p w₁ ⟨hg, _⟩ => ?_
    by_cases h₀ : p = 0
    · rw [if_pos h₀]
      exact .pure hg
    · rw [if_neg h₀]
      exact ih.mono fun _ w₂ hg₂ => hg.trans hg₂

section Calls

variable {m : Kmem} {l : List ℕ} {trampoline : ℕ} {code : Page} {s₀ s s' : Machine}
  {es : List Event} {i : Slot} {k : ℕ} {ok : Bool}

/-- The invariant holds when `exec` is called. -/
theorem spaces_of_run (hm : m.Free l) (htr : trampoline < 2 ^ 44)
    (hinit : (userinit code).run (boot m trampoline) = .ok (true, s₀))
    (hrun : runEvents step s₀ es = some s)
    (hargs : (ProcM.onPhys (argPages k)).run s = .ok (ok, s')) (denied : List Bool) :
    s'.proc = s.proc ∧ ∃ w, Spaces (fun _ => True) (s'.deny denied) w := by
  obtain ⟨w, h⟩ := run_spaces hm htr hinit hrun
  obtain ⟨w', hg, hc⟩ := (onPhys_spec (argPages_spec k) h.kmem).elim hargs
  exact ⟨hc.proc, w', (h.of_grows hg hc).congr rfl rfl fun _ => ⟨Iff.rfl, rfl, rfl, rfl⟩⟩

/-! ### The arguments -/

section Args

variable {u : UserMem} {sz sp : ℕ} {argv : List (List (BitVec 8))}

theorem need_nil (argv : List (List (BitVec 8))) : UserMem.need argv [] = stackSize argv := by
  rw [UserMem.need, stackSize, List.length_nil, Nat.zero_add]

theorem Guarded.sub_add (h : Guarded u sz) : sz - PGSIZE + PGSIZE = sz := by
  have hpos : 4096 ≤ sz - 4096 := h.stack.pos
  change sz - 4096 + 4096 = sz
  omega

theorem Guarded.mod (h : Guarded u sz) : sz % 16 = 0 := by
  have hmod : (sz - 4096) % 4096 = 0 := h.stack.aligned
  have hpos : 4096 ≤ sz - 4096 := h.stack.pos
  omega

/-- The arguments are pushed if there is a place for them on a page. -/
theorem Guarded.pushArgs_eq_none (h : Guarded u sz) (hargc : argv.length < MAXARG)
    (hlen : ∀ a ∈ argv, a.length + 1 < 2 ^ 31) :
    (UserMem.pushArgs (sz - PGSIZE) u argv [] sz).1 = none ↔
      ¬ ∃ a1 ps, UserMem.Layout 0 a1 argv ps := by
  have hsz := h.sub_add
  have hargc' : ([] : List ℕ).length + argv.length < MAXARG := by
    rwa [List.length_nil, Nat.zero_add]
  by_cases hfits : stackSize argv ≤ PGSIZE
  · refine iff_of_false ?_ (not_not.2 ⟨_, _, UserMem.layout_pointers rfl hfits⟩)
    rw [UserMem.pushArgs_eq h.stack h.mod (Nat.sub_le _ _) hsz.ge hargc'
      (by rw [need_nil]; omega)]
    simp
  · refine iff_of_true ?_ fun ⟨a1, ps, hlay⟩ => hfits (hlay.stackSize_le rfl)
    exact UserMem.pushArgs_none h.stack h.mod (Nat.sub_le _ _) hsz.ge hargc' hlen
      (by rw [need_nil]; omega)

/-- Arguments that have been pushed are on the stack. -/
theorem Guarded.passed {u' : UserMem} (h : Guarded u sz) (hargc : argv.length < MAXARG)
    (hlen : ∀ a ∈ argv, a.length + 1 < 2 ^ 31)
    (hpush : (some sp, u') = UserMem.pushArgs (sz - PGSIZE) u argv [] sz) :
    Guarded u' sz ∧ ∃ ps, u'.Passed (sz - PGSIZE) sp argv ps := by
  have hsz := h.sub_add
  have hargc' : ([] : List ℕ).length + argv.length < MAXARG := by
    rwa [List.length_nil, Nat.zero_add]
  have hfits : stackSize argv ≤ PGSIZE := by
    by_contra hfits
    have hnone := UserMem.pushArgs_none h.stack h.mod (Nat.sub_le _ _) hsz.ge hargc' hlen
      (by rw [need_nil]; omega)
    rw [← hpush] at hnone
    exact absurd hnone (by simp)
  have heq := UserMem.pushArgs_eq h.stack h.mod (Nat.sub_le _ _) hsz.ge hargc'
    (by rw [need_nil]; omega)
  rw [← hpush, need_nil, List.nil_append] at heq
  obtain ⟨hsp, rfl⟩ := Prod.mk.inj heq
  cases hsp
  have hp := UserMem.passed_pushed h.stack hfits
  rw [hsz] at hp
  refine ⟨⟨⟨h.stack.aligned, h.stack.pos, h.stack.lt, ?_, ?_⟩, ?_⟩, _, hp⟩
  · rw [UserMem.write_mapped, UserMem.pushed_mapped]
    exact h.stack.mapped
  · rw [UserMem.write_mapped, UserMem.pushed_mapped]
    exact h.stack.above
  · rw [UserMem.write_mapped, UserMem.pushed_mapped]
    exact h.guard

end Args

/-! ### What `exec` returns -/

/-- Once the image is loaded, `exec` fails only if there is no place for the arguments on a page. -/
theorem Executed.eq_neg_one_iff {x : Program} {n : ℤ} {t t' : Machine} (h : Executed i x s n t)
    (hload : (imageLoaded i x).run s = .ok (true, t')) (hargc : x.argv.length < MAXARG)
    (hlen : ∀ a ∈ x.argv, a.length + 1 < 2 ^ 31) :
    n = -1 ↔ ¬ ∃ a1 ps, UserMem.Layout 0 a1 x.argv ps := by
  obtain ⟨-, -, loaded, t'', hload', hcases⟩ := h
  obtain ⟨rfl, -⟩ := Prod.mk.inj (Except.ok.inj (hload'.symm.trans hload))
  rcases hcases with ⟨rfl, -, hnone⟩ | ⟨rfl, -, sp, u, -, hguard, hpush⟩
  · obtain ⟨u, sz, hguard, hu⟩ := hnone rfl
    exact iff_of_true rfl ((hguard.pushArgs_eq_none hargc hlen).1 hu)
  · refine iff_of_false (by omega) ?_
    rw [← hguard.pushArgs_eq_none hargc hlen]
    intro hnone
    exact absurd ((congrArg Prod.fst hpush).trans hnone) (by simp)

/-- The registers that `exec` sets. -/
theorem Installed.reg_eq {x : Program} {sp : ℕ} {s t : Machine} (h : Installed i x sp s t)
    (hsp : sp < 2 ^ 64) :
    t.reg i regA1 = sp ∧ t.reg i regSp = sp ∧ t.reg i regEpc = x.entry.toNat := by
  have htf : (t.proc i).trapframe = (s.proc i).trapframe := by
    rw [h.proc, Function.update_self]
  have hcast : (sp : Word).toNat = sp := (BitVec.toNat_ofNat sp 64).trans (Nat.mod_eq_of_lt hsp)
  rw [Machine.reg, Machine.reg, Machine.reg, htf, h.frame]
  refine ⟨?_, ?_, ?_⟩
  · rw [Function.update_of_ne (by decide), Function.update_of_ne (by decide), Function.update_self,
      hcast]
  · rw [Function.update_self, hcast]
  · rw [Function.update_of_ne (by decide), Function.update_self]

/-! ### A small program -/

/-- A file with one segment, of eight bytes in a hundred. -/
def echoFile : File where
  size := 128
  byte k :=
    match k with
    | 0 => 0x7f
    | 1 => 0x45
    | 2 => 0x4c
    | 3 => 0x46
    | 24 => 4
    | 32 => 64
    | 56 => 1
    | 64 => 1
    | 68 => 5
    | 72 => 120
    | 96 => 8
    | 104 => 100
    | 120 => 0x13
    | _ => 0

/-- A call with two arguments. -/
def echo : Program :=
  .ofFile ['/', 'e', 'c', 'h', 'o'] (some echoFile) [[0x65, 0x63, 0x68, 0x6f], [0x68, 0x69]]

theorem echo_layout : ∃ a1 ps, UserMem.Layout 0 a1 echo.argv ps :=
  ⟨_, _, UserMem.layout_pointers rfl (by decide)⟩

/-- The first process can call `exec`: the program is loaded, or the first allocation fails. -/
theorem echo_runs : ∃ s₀ s' t t',
    (userinit (fill 0)).run (boot somePages 0x80007) = .ok (true, s₀) ∧ s₀.Live 0 ∧
      (ProcM.onPhys (argPages 2)).run s₀ = .ok (true, s') ∧
      (imageLoaded 0 echo).run (s'.deny []) = .ok (true, t) ∧
      (exec 0 echo).run (s'.deny [true]) = .ok (-1, t') := by
  obtain ⟨s₀, hinit, hlive, s', hargs, ⟨t, hload, -⟩, t', hexec', -⟩ :
      ∃ s₀, (userinit (fill 0)).run (boot somePages 0x80007) = .ok (true, s₀) ∧ s₀.Live 0 ∧
      ∃ s', (ProcM.onPhys (argPages 2)).run s₀ = .ok (true, s') ∧
      (∃ t, (imageLoaded 0 echo).run (s'.deny []) = .ok (true, t) ∧ True) ∧
      ∃ t', (exec 0 echo).run (s'.deny [true]) = .ok (-1, t') ∧ True := by decide +kernel
  exact ⟨s₀, s', t, t', hinit, hlive, hargs, hload, hexec'⟩

/-! ### Every call -/

/-- **`exec` passes the arguments.** If it succeeds, both `a1` and the stack pointer hold the
address of an array of pointers to copies of the arguments, with a null pointer at the end. All of
this is at multiples of 16, apart from each other, on the last page of the image, and the page below
it is not for the user. A program that follows the pointers reads the arguments. Once the image is
loaded, `exec` fails only if there is no place for the arguments on a page. -/
theorem exec_passes_arguments (hm : m.Free l) (htr : trampoline < 2 ^ 44)
    (hinit : (userinit code).run (boot m trampoline) = .ok (true, s₀))
    (hrun : runEvents step s₀ es = some s) (hi : s.Live i)
    (hargs : (ProcM.onPhys (argPages k)).run s = .ok (ok, s')) (path : List Char)
    (file : Option File) {argv : List (List (BitVec 8))} (hargc : argv.length < MAXARG)
    (hnul : ∀ a ∈ argv, 0 ∉ a) (hlen : ∀ a ∈ argv, a.length + 1 < 2 ^ 31) (denied : List Bool) :
    ∃ n t loaded t', (exec i (.ofFile path file argv)).run (s'.deny denied) = .ok (n, t) ∧
      (imageLoaded i (.ofFile path file argv)).run (s'.deny denied) = .ok (loaded, t') ∧
      (n ≠ -1 → n = argv.length ∧ t.reg i regSp = t.reg i regA1 ∧
        Guarded (t.userMem i) (t.proc i).sz ∧
        (∃ ps, (t.userMem i).Passed ((t.proc i).sz - PGSIZE) (t.reg i regA1) argv ps) ∧
        (t.userMem i).readArgv (t.reg i regA1) = argv) ∧
      (loaded = true → (n = -1 ↔ ¬ ∃ a1 ps, UserMem.Layout 0 a1 argv ps)) := by
  obtain ⟨hproc, w, h⟩ := spaces_of_run hm htr hinit hrun hargs denied
  have hi' : s'.Live i := by rwa [Machine.Live, hproc]
  obtain ⟨n, t, hexec, hx⟩ := exec_spec h hi' (.ofFile path file argv)
  obtain ⟨-, -, loaded, t', hload, hcases⟩ := id hx
  refine ⟨n, t, loaded, t', hexec, hload, fun hne => ?_, fun hl => ?_⟩
  · obtain ⟨rfl, -, sp, u, hinst, hguard, hpush⟩ := hcases.resolve_left fun h => hne h.1
    obtain ⟨hguard', ps, hpassed⟩ := hguard.passed hargc hlen hpush
    have hsp : sp < 2 ^ 64 := by
      have hin := (hpassed.layout.inside _ List.mem_cons_self).2
      have hlt : (t.proc i).sz - 4096 < 2 ^ 38 := hguard.stack.lt
      change sp + _ ≤ (t.proc i).sz - 4096 + 4096 at hin
      omega
    obtain ⟨ha1, hsp', -⟩ := hinst.reg_eq hsp
    rw [ha1, hsp']
    refine ⟨rfl, rfl, hguard', ⟨ps, hpassed⟩, hpassed.readArgv_eq ?_ hargc hnul⟩
    exact lt_of_lt_of_le (by decide) hguard.stack.pos
  · subst hl
    exact hx.eq_neg_one_iff hload hargc hlen

theorem exec_passes_arguments_echo : ∃ s' t : Machine, (exec 0 echo).run (s'.deny []) = .ok (2, t) ∧
    (t.userMem 0).readArgv (t.reg 0 regA1) = [[0x65, 0x63, 0x68, 0x6f], [0x68, 0x69]] := by
  obtain ⟨s₀, s', t', -, hinit, hlive, hargs, hload, -⟩ := echo_runs
  obtain ⟨n, t, loaded, _, hexec, hload', hargv, hn⟩ := exec_passes_arguments somePages_free
    (by decide) hinit (runEvents_nil s₀) hlive hargs ['/', 'e', 'c', 'h', 'o'] (some echoFile)
    (show echo.argv.length < MAXARG by decide) (by decide) (by decide) []
  obtain ⟨rfl, -⟩ := Prod.mk.inj (Except.ok.inj (hload'.symm.trans hload))
  have hne : n ≠ -1 := fun h => (hn rfl).1 h echo_layout
  obtain ⟨rfl, -, -, -, hread⟩ := hargv hne
  exact ⟨s', t, hexec, hread⟩

end Calls

end Xv6.Vm
