import Xv6.Pipe.Fifo
import Xv6.Vm.UserMem

/-!
# What a read takes from a pipe

`piperead` takes a byte out of the ring and then copies it to its caller. Where the copy fails, the
byte is gone, and it is not counted in what `piperead` returns. Without such a copy, what a call
takes is what it stores at its destination and what it returns, and over any run nothing leaves the
pipe that has not been delivered.

The lock of the pipe is held over the copy loop, so the loop is one function here, with the memory
of the caller in place of an answer from outside. Its rounds are those of the system, `readCopy`.
-/

namespace Xv6.Pipe

open Vm (PGSIZE)

variable {N : ℕ} {s s' : State N} {j : Fin N} {u u' : UserMem} {addr i c : ℕ} {n : ℤ}

/-! ### The copy loop -/

/-- The address of byte `i` of a buffer at `addr`, as a `uint64`. -/
def byteAddr (addr i : ℕ) : ℕ := (addr + i) % 2 ^ 64

/-- How many bytes there are in the pipe. -/
def State.buffered (s : State N) : ℕ := (s.nwrite - s.nread).toNat

/-- The byte that is taken after `k` others. -/
def State.byteAt (s : State N) (k : ℕ) : BitVec 8 :=
  s.data ((s.nread + BitVec.ofNat 32 k).toNat % PIPESIZE)

/-- The second loop of `piperead` from round `i` on: what is returned, and the pipe and the memory
of the caller then. -/
def copyRounds (j : Fin N) (addr : ℕ) (n : ℤ) : ℕ → ℕ → State N → UserMem → ℕ × State N × UserMem
  | 0, i, s, u => (i, s, u)
  | fuel + 1, i, s, u =>
    if i < n ∧ s.nread ≠ s.nwrite then
      let r := u.copyout (byteAddr addr i) [s.data (s.nread.toNat % PIPESIZE)]
      let s' := readCopy s j i n r.1
      if r.1 then copyRounds j addr n fuel (i + 1) s' r.2 else (i, s', r.2)
    else (i, readCopy s j i n true, u)

/-- The second loop of `piperead`. There is a round for each byte and one that ends the loop. -/
def copyOut (s : State N) (j : Fin N) (u : UserMem) (addr : ℕ) (n : ℤ) : ℕ × State N × UserMem :=
  copyRounds j addr n (n.toNat + 1) 0 s u

/-! ### What has been taken -/

/-- From round `i` on, `c` bytes have gone from the pipe to memory, and nothing else has changed
there. -/
structure Took (addr i c : ℕ) (s s' : State N) (u u' : UserMem) : Prop where
  nread : s'.nread = s.nread + BitVec.ofNat 32 c
  stored : ∀ k < c, u'.mem (byteAddr addr (i + k)) = s.byteAt k
  other : ∀ a, (∀ k < c, a ≠ byteAddr addr (i + k)) → u'.mem a = u.mem a
  delivered : s'.delivered = s.delivered ++ (List.range c).map s.byteAt

theorem Took.zero (hread : s'.nread = s.nread) (hdel : s'.delivered = s.delivered) :
    Took addr i 0 s s' u u where
  nread := by rw [hread, BitVec.add_zero]
  stored k hk := absurd hk (Nat.not_lt_zero k)
  other _ _ := rfl
  delivered := by rw [hdel, List.range_zero, List.map_nil, List.append_nil]

theorem add_one_add_ofNat (x : BitVec 32) (k : ℕ) :
    x + 1 + BitVec.ofNat 32 k = x + BitVec.ofNat 32 (k + 1) := by
  rw [BitVec.add_assoc, BitVec.ofNat_add, BitVec.add_comm (BitVec.ofNat 32 k)]
  rfl

/-- One byte goes, and then `c` others. -/
theorem Took.succ {s₁ : State N} {b : BitVec 8} (hc : c < 2 ^ 32) (hdata : s₁.data = s.data)
    (hread : s₁.nread = s.nread + 1) (hdel : s₁.delivered = s.delivered ++ [s.byteAt 0])
    (hb : b = s.byteAt 0) (h : Took addr (i + 1) c s₁ s' (u.write (byteAddr addr i) [b]) u') :
    Took addr i (c + 1) s s' u u' := by
  have hnext (k : ℕ) : s₁.byteAt k = s.byteAt (k + 1) := by
    rw [State.byteAt, State.byteAt, hdata, hread, add_one_add_ofNat]
  have hne (k : ℕ) (hk : k < c) : byteAddr addr i ≠ byteAddr addr (i + 1 + k) := by
    rw [byteAddr, byteAddr]
    omega
  have hwrite (a : ℕ) : (u.write (byteAddr addr i) [b]).mem a =
      if a = byteAddr addr i then b else u.mem a := by
    change (if byteAddr addr i ≤ a then [b].getD (a - byteAddr addr i) (u.mem a) else u.mem a) = _
    by_cases ha : a = byteAddr addr i
    · rw [if_pos ha, ha, if_pos le_rfl, Nat.sub_self]
      rfl
    · rw [if_neg ha]
      split_ifs with hle
      · exact List.getD_eq_default _ _ (by rw [List.length_singleton]; omega)
      · rfl
  refine ⟨?_, fun k hk => ?_, fun a ha => ?_, ?_⟩
  · rw [h.nread, hread, add_one_add_ofNat]
  · cases k with
    | zero =>
      rw [Nat.add_zero, h.other _ hne, hwrite, if_pos rfl, hb]
    | succ k =>
      rw [← hnext, ← h.stored k (Nat.lt_of_succ_lt_succ hk), Nat.add_assoc, Nat.add_comm 1]
  · have hrest (k : ℕ) (hk : k < c) : a ≠ byteAddr addr (i + 1 + k) := by
      rw [Nat.add_assoc, Nat.add_comm 1]
      exact ha (k + 1) (Nat.succ_lt_succ hk)
    rw [h.other a hrest, hwrite]
    exact if_neg (ha 0 (Nat.succ_pos c))
  · have htail : (List.range c).map s₁.byteAt = (List.range c).map (s.byteAt ∘ Nat.succ) :=
      List.map_congr_left fun k _ => hnext k
    rw [h.delivered, hdel, htail, List.append_assoc, List.range_succ_eq_map, List.map_cons,
      List.map_map, List.singleton_append]

/-- A round that takes a byte and delivers it. -/
theorem readCopy_true (hi : i < n) (he : s.nread ≠ s.nwrite) :
    (readCopy s j i n true).data = s.data ∧ (readCopy s j i n true).nwrite = s.nwrite ∧
      (readCopy s j i n true).nread = s.nread + 1 ∧
      (readCopy s j i n true).delivered = s.delivered ++ [s.byteAt 0] := by
  have hbyte : s.data (s.nread.toNat % PIPESIZE) = s.byteAt 0 := by
    rw [State.byteAt, BitVec.add_zero]
  rw [readCopy, if_pos hi, if_neg he, if_pos rfl, hbyte]
  exact ⟨rfl, rfl, rfl, rfl⟩

/-- The loop goes on: a byte is there, and one less is to come. -/
theorem min_buffered_succ (hi : i < n) (he : s.nread ≠ s.nwrite) :
    min (n - i).toNat s.buffered =
      min (n - (i + 1 : ℕ)).toNat (readCopy s j i n true).buffered + 1 := by
  obtain ⟨-, hwrite, hread, -⟩ := readCopy_true (j := j) hi he
  have hbuf : (readCopy s j i n true).buffered + 1 = s.buffered := by
    rw [State.buffered, State.buffered, hwrite, hread]
    bv_omega
  omega

/-- The loop ends: nothing more is there, or asked for. -/
theorem min_buffered_eq_zero (h : ¬ (i < n ∧ s.nread ≠ s.nwrite)) :
    min (n - i).toNat s.buffered = 0 := by
  by_cases hi : i < n
  · have he : s.nread = s.nwrite := by_contra fun he => h ⟨hi, he⟩
    rw [State.buffered, he, BitVec.sub_self]
    exact Nat.min_zero _
  · omega

theorem mapped_singleton {va : ℕ} {b : BitVec 8} :
    u.Mapped va [b].length ↔ u.mapped (va / PGSIZE) = true := by
  simp [UserMem.Mapped]

/-- Where the destination is mapped, the loop takes as many bytes as are there and asked for. -/
theorem copyRounds_spec (fuel : ℕ) (hfuel : (n - i).toNat < fuel)
    (hmap : ∀ k < min (n - i).toNat s.buffered,
      u.mapped (byteAddr addr (i + k) / PGSIZE) = true) :
    ∃ s' u', copyRounds j addr n fuel i s u = (i + min (n - i).toNat s.buffered, s', u') ∧
      Took addr i (min (n - i).toNat s.buffered) s s' u u' := by
  induction fuel generalizing i s u with
  | zero => exact absurd hfuel (Nat.not_lt_zero _)
  | succ fuel ih =>
    rw [copyRounds]
    by_cases hgo : i < n ∧ s.nread ≠ s.nwrite
    · have hmin := min_buffered_succ (j := j) hgo.1 hgo.2
      have hmapped : u.Mapped (byteAddr addr i) [s.data (s.nread.toNat % PIPESIZE)].length :=
        mapped_singleton.2 (hmap 0 (by omega))
      rw [if_pos hgo, UserMem.copyout_of_mapped hmapped]
      dsimp only
      rw [if_pos rfl]
      obtain ⟨hdata, -, hread, hdel⟩ := readCopy_true (j := j) hgo.1 hgo.2
      generalize readCopy s j i n true = s₁ at hdata hread hdel hmin
      have hlt : min (n - (i + 1 : ℕ)).toNat s₁.buffered < 2 ^ 32 :=
        lt_of_le_of_lt (Nat.min_le_right _ _) (BitVec.isLt _)
      obtain ⟨s', u', heq, htook⟩ := ih (i := i + 1) (s := s₁)
        (u := u.write (byteAddr addr i) [s.data (s.nread.toNat % PIPESIZE)]) (by omega)
        fun k hk => by
          rw [UserMem.write_mapped, Nat.add_assoc, Nat.add_comm 1]
          exact hmap (k + 1) (by omega)
      refine ⟨s', u', ?_, ?_⟩
      · rw [heq, hmin, Nat.add_assoc, Nat.add_comm 1]
      · rw [hmin]
        refine .succ hlt hdata hread hdel ?_ htook
        rw [State.byteAt, BitVec.add_zero]
    · have hread : readCopy s j i n true = s.goto j (.waking .nwrite 0 .done) := by
        rw [readCopy]
        by_cases hi : i < n
        · rw [if_pos hi, if_pos (by_contra fun h => hgo ⟨hi, h⟩)]
        · rw [if_neg hi]
      rw [if_neg hgo, min_buffered_eq_zero hgo, hread]
      exact ⟨_, u, rfl, .zero rfl rfl⟩

/-- Where as many bytes have been taken as are returned, the destination is mapped: a copy that
fails comes after its byte has been taken. -/
theorem mapped_of_copyRounds (fuel : ℕ) (hfuel : (n - i).toNat < fuel) {i' : ℕ}
    (h : copyRounds j addr n fuel i s u = (i', s', u')) : i ≤ i' ∧
      (s'.nread = s.nread + BitVec.ofNat 32 (i' - i) → ∀ k < min (n - i).toNat s.buffered,
        u.mapped (byteAddr addr (i + k) / PGSIZE) = true) := by
  induction fuel generalizing i s u with
  | zero => exact absurd hfuel (Nat.not_lt_zero _)
  | succ fuel ih =>
    rw [copyRounds] at h
    by_cases hgo : i < n ∧ s.nread ≠ s.nwrite
    · rw [if_pos hgo] at h
      dsimp only at h
      split_ifs at h with hok
      · have hmapped := UserMem.copyout_fst.1 hok
        obtain ⟨hle, htail⟩ := ih (by omega) h
        refine ⟨by omega, fun hread k hk => ?_⟩
        cases k with
        | zero => exact mapped_singleton.1 hmapped
        | succ k =>
          rw [min_buffered_succ (j := j) hgo.1 hgo.2] at hk
          rw [hok, (readCopy_true hgo.1 hgo.2).2.2.1, UserMem.copyout_of_mapped hmapped] at htail
          rw [Nat.add_comm k, ← Nat.add_assoc]
          refine htail ?_ k (by omega)
          rw [hread, add_one_add_ofNat, ← Nat.sub_sub, Nat.sub_add_cancel (by omega)]
      · cases h
        refine ⟨le_rfl, fun hread => ?_⟩
        rw [Bool.eq_false_of_not_eq_true hok, readCopy, if_pos hgo.1, if_neg hgo.2,
          if_neg (by decide), Nat.sub_self] at hread
        change s.nread + 1 = s.nread + 0 at hread
        bv_omega
    · cases h.symm.trans (if_neg hgo)
      refine ⟨le_rfl, fun _ k hk => ?_⟩
      rw [min_buffered_eq_zero hgo] at hk
      exact absurd hk (Nat.not_lt_zero k)

/-! ### Every call and every run -/

/-- **A read consumes what it delivers** if and only if its destination is mapped. The first part is
about one call, in any state of the pipe: what it returns is what it takes out of the pipe and
stores at its destination, and nothing is stored anywhere else, if and only if every byte has a page
to go to. It returns then how many bytes there are of those asked for. The second part is about
every run in which no copy of a read fails: all that has left the pipe has been delivered, in the
order in which it was stored. -/
theorem piperead_delivers :
    (∀ (s : State N) (j : Fin N) (u : UserMem) (addr : ℕ) (n : ℤ),
      ((∃ i s' u', copyOut s j u addr n = (i, s', u') ∧ Took addr 0 i s s' u u') ↔
        ∀ k < min n.toNat s.buffered, u.mapped (byteAddr addr k / PGSIZE) = true) ∧
      ∀ i s' u', copyOut s j u addr n = (i, s', u') → Took addr 0 i s s' u u' →
        i = min n.toNat s.buffered) ∧
    ∀ (data : ℕ → BitVec 8) (es : List (Event N)) (s : State N),
      runEvents (restrict (fun s e => e.Delivers s) step) (pipealloc N data) es = some s →
      s.nread = BitVec.ofNat 32 s.delivered.length ∧ s.delivered <+: s.stored := by
  refine ⟨fun s j u addr n => ?_, fun data es s hrun => ?_⟩
  · have h₀ : (n - (0 : ℕ)).toNat = n.toNat := by omega
    have hspec (hmap : ∀ k < min (n - (0 : ℕ)).toNat s.buffered,
        u.mapped (byteAddr addr (0 + k) / PGSIZE) = true) :=
      copyRounds_spec (j := j) (n.toNat + 1) (by omega) hmap
    have hconv {i : ℕ} {s' : State N} {u' : UserMem} (heq : copyOut s j u addr n = (i, s', u'))
        (htook : Took addr 0 i s s' u u') := (mapped_of_copyRounds (n.toNat + 1) (by omega) heq).2
      (by rw [Nat.sub_zero]; exact htook.nread)
    simp only [h₀, Nat.zero_add] at hspec hconv
    refine ⟨⟨fun ⟨i, s', u', heq, htook⟩ => hconv heq htook, fun hmap => ?_⟩,
      fun i s' u' heq htook => ?_⟩
    · obtain ⟨s', u', heq, htook⟩ := hspec hmap
      exact ⟨_, s', u', heq, htook⟩
    · obtain ⟨s₁, u₁, heq₁, -⟩ := hspec (hconv heq htook)
      exact congrArg Prod.fst (heq.symm.trans heq₁)
  · have h : s.Fifo := by
      have hinit : (pipealloc N data).Fifo := Xv6.Fifo.empty PIPESIZE data
      refine runEvents_invariant (I := State.Fifo) (fun s e t hs ht => ?_) hinit hrun
      obtain ⟨he, ht⟩ := restrict_eq_some.mp ht
      exact step_fifo he hs ht
    exact ⟨h.read, h.isPrefix⟩

/-- A pipe with one byte, and a reader that has come to its copy loop. -/
def oneByte : List (Event 2) :=
  [.pipewrite 0 1, .run 0 none, .run 0 (some 7), .run 0 none, .run 0 none, .run 0 none, .run 0 none,
    .piperead 1 1, .run 1 none, .run 1 none]

/-- Memory with its first page only. -/
def firstPage : UserMem := ⟨fun v => decide (v = 0), fun _ => 0⟩

theorem piperead_delivers_oneByte : ∃ s : State 2,
    runEvents (restrict (fun s e => e.Delivers s) step) (pipealloc 2 fun _ => 0) oneByte = some s ∧
      s.nread = BitVec.ofNat 32 s.delivered.length ∧ s.delivered <+: s.stored ∧
      ∃ i s' u', copyOut s 1 firstPage 100 1 = (i, s', u') ∧ i = 1 ∧
      Took 100 0 i s s' firstPage u' := by
  obtain ⟨s, hs, hbuf⟩ : ∃ s, runEvents (restrict (fun s e => e.Delivers s) step)
      (pipealloc 2 fun _ => 0) oneByte = some s ∧ s.buffered = 1 := by decide +kernel
  obtain ⟨hcall, hruns⟩ := piperead_delivers (N := 2)
  obtain ⟨hread, hpre⟩ := hruns _ _ s hs
  obtain ⟨hiff, hret⟩ := hcall s 1 firstPage 100 1
  rw [hbuf] at hiff hret
  obtain ⟨i, s', u', heq, htook⟩ := hiff.2 (by decide)
  exact ⟨s, hs, hread, hpre, i, s', u', heq, hret i s' u' heq htook, htook⟩

/-- **A read that loses a byte.** The byte is taken out of the pipe and the copy fails. The read
returns 0, and nobody will ever get the byte. -/
theorem piperead_loses : ∃ s s' : State 2,
    runEvents step (pipealloc 2 fun _ => 0) oneByte = some s ∧ s.pc 1 = .readCopy 0 1 ∧
      copyOut s 1 firstPage 5000 1 = (0, s', firstPage) ∧ s'.nread = s.nread + 1 ∧
      s'.nread = s'.nwrite ∧ s'.stored = [7] ∧ s'.delivered = [] := by
  obtain ⟨s, hs, hpc, hread, hwrite, hstored, hdel⟩ : ∃ s, runEvents step (pipealloc 2 fun _ => 0)
    oneByte = some s ∧ s.pc 1 = .readCopy 0 1 ∧ s.nread = 0 ∧ s.nwrite = 1 ∧ s.stored = [7] ∧
    s.delivered = [] := by decide +kernel
  have hgo : ((0 : ℕ) : ℤ) < 1 ∧ s.nread ≠ s.nwrite := by
    rw [hread, hwrite]
    decide
  have hcopy : firstPage.copyout (byteAddr 5000 0) [s.data (s.nread.toNat % PIPESIZE)] =
      (false, firstPage) := UserMem.copyout_of_not_mapped (by simp) (by decide)
  have heq : copyOut s 1 firstPage 5000 1 = (0, readCopy s 1 0 1 false, firstPage) := by
    rw [copyOut, copyRounds, if_pos hgo, hcopy]
    rfl
  refine ⟨s, _, hs, hpc, heq, ?_⟩
  rw [readCopy, if_pos hgo.1, if_neg hgo.2, if_neg (by decide)]
  refine ⟨rfl, ?_, hstored, hdel⟩
  change s.nread + 1 = s.nwrite
  rw [hread, hwrite]
  rfl

end Xv6.Pipe
