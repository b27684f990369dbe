import Xv6.Disk.Virtio
import Xv6.Lib.Wp

/-!
# What holds between the virtio driver and the device

A process that waits for the device has a chain of three descriptors. The chains of different
processes have no descriptor in common, and a descriptor that is not free is in one of them. The
heads of the chains whose request has not been seen to be complete are in three places: published
and not taken by the device, taken and not completed, completed and not seen by the interrupt
handler. Every such head is in one of the places, once.

There are eight descriptors, so there are never more than two chains. This is why the rings, of
eight places, do not overflow, and why positions of 16 bits do.
-/

namespace Xv6.Virtio

open Function (update update_self update_of_ne update_apply)

variable {P B : Type}

/-- The descriptors of a chain. -/
def Chain.list (c : Chain) : List ℕ := [c.i₀, c.i₁, c.i₂]

/-- The request that a process has with the device. -/
def Pc.claim : Pc B → Option (B × Chain)
  | .wait b idx _ => some (b, idx)
  | _ => none

/-- The buffer that a process is in `virtio_disk_rw` for. -/
def Pc.buf : Pc B → Option B
  | .out => none
  | .alloc b _ _ _ | .wait b _ _ => some b

/-- The heads that have been published, and not yet taken by the device. -/
def State.pending (s : State P B) : List ℕ :=
  (window NUM s.disk.avail.ring s.device.availIdx s.disk.avail.idx).map BitVec.toNat

/-- The heads that the device has completed, and the interrupt handler has not seen. -/
def State.completed (s : State P B) : List ℕ :=
  (window NUM s.disk.used.ring s.disk.usedIdx s.disk.used.idx).map BitVec.toNat

/-- The heads of requests that are on their way. -/
def State.heads (s : State P B) : List ℕ := s.pending ++ s.device.taken ++ s.completed

/-- The descriptors are in use, and linked. -/
structure Linked (d : Disk B) (c : Chain) : Prop where
  nodup : c.list.Nodup
  lt : ∀ i ∈ c.list, i < NUM
  taken : ∀ i ∈ c.list, d.free i = false
  first : (d.desc c.i₀).flags &&& VRING_DESC_F_NEXT ≠ 0 ∧ (d.desc c.i₀).next.toNat = c.i₁
  second : (d.desc c.i₁).flags &&& VRING_DESC_F_NEXT ≠ 0 ∧ (d.desc c.i₁).next.toNat = c.i₂
  last : (d.desc c.i₂).flags &&& VRING_DESC_F_NEXT = 0 ∧ (d.desc c.i₂).addr = .status c.i₀

/-- The chain is set up for a request for the buffer `b`. -/
structure Formatted (d : Disk B) (b : B) (c : Chain) : Prop extends Linked d c where
  info : (d.info c.i₀).b = some b

/-- The invariant. -/
structure Inv (s : State P B) : Prop where
  lock : ∀ p b, (s.pc p).buf = some b → s.lock b = some p
  chain : ∀ p b c, (s.pc p).claim = some (b, c) → Formatted s.disk b c
  disjoint : ∀ p q b c b' c', (s.pc p).claim = some (b, c) → (s.pc q).claim = some (b', c') →
    p ≠ q → c.list.Disjoint c'.list
  cover : ∀ i < NUM, s.disk.free i = false → ∃ p b c, (s.pc p).claim = some (b, c) ∧ i ∈ c.list
  nodup : s.heads.Nodup
  heads : ∀ i, i ∈ s.heads ↔ ∃ p b c, (s.pc p).claim = some (b, c) ∧ c.i₀ = i ∧ s.busy b = 1
  status : ∀ i ∈ s.completed, (s.disk.info i).status = 0

theorem Pc.buf_of_claim {pc : Pc B} {b : B} {c : Chain} (h : pc.claim = some (b, c)) :
    pc.buf = some b := by
  cases pc with
  | out => cases h
  | alloc => cases h
  | wait b' idx asleep =>
    obtain ⟨rfl, -⟩ := Prod.mk.inj (Option.some.inj h)
    rfl

@[simp] theorem Pc.claim_wakeFree (pc : Pc B) : pc.wakeFree.claim = pc.claim := by
  cases pc <;> rfl

@[simp] theorem Pc.buf_wakeFree (pc : Pc B) : pc.wakeFree.buf = pc.buf := by
  cases pc <;> rfl

section Wake

variable [DecidableEq B]

@[simp] theorem Pc.claim_wakeBuf (b : B) (pc : Pc B) : (pc.wakeBuf b).claim = pc.claim := by
  cases pc <;> rfl

@[simp] theorem Pc.buf_wakeBuf (b : B) (pc : Pc B) : (pc.wakeBuf b).buf = pc.buf := by
  cases pc <;> rfl

end Wake

theorem Chain.mem_list {c : Chain} {i : ℕ} : i ∈ c.list ↔ i = c.i₀ ∨ i = c.i₁ ∨ i = c.i₂ := by
  simp [Chain.list]

theorem Chain.head_mem (c : Chain) : c.i₀ ∈ c.list := List.mem_cons_self

/-! ### There are at most two chains -/

/-- The descriptors that the device finds from a head on. -/
def Disk.chainFrom (d : Disk B) (i : ℕ) : List ℕ :=
  [i, (d.desc i).next.toNat, (d.desc (d.desc i).next.toNat).next.toNat]

theorem Formatted.chainFrom {d : Disk B} {b : B} {c : Chain} (h : Formatted d b c) :
    d.chainFrom c.i₀ = c.list := by
  rw [Disk.chainFrom, h.first.2, h.second.2, Chain.list]

theorem Formatted.statusAddr {d : Disk B} {b : B} {c : Chain} (h : Formatted d b c) :
    d.statusAddr c.i₀ = .status c.i₀ := by
  rw [Disk.statusAddr, h.first.2, h.second.2, h.last.2]

namespace Inv

variable {s t : State P B}

/-- A head is the head of one chain. -/
theorem claim_unique (h : Inv s) {p q : P} {b b' : B} {c c' : Chain}
    (hp : (s.pc p).claim = some (b, c)) (hq : (s.pc q).claim = some (b', c')) {i : ℕ}
    (hi : i ∈ c.list) (hi' : i ∈ c'.list) : p = q ∧ b = b' ∧ c = c' := by
  by_cases hpq : p = q
  · subst hpq
    obtain ⟨rfl, rfl⟩ := Prod.mk.inj (Option.some.inj (hp.symm.trans hq))
    exact ⟨rfl, rfl, rfl⟩
  · exact absurd hi' (h.disjoint p q b c b' c' hp hq hpq hi)

/-- The chains of the heads that are on their way have no descriptor in common. -/
theorem nodup_chains (h : Inv s) : (s.heads.flatMap s.disk.chainFrom).Nodup := by
  refine List.nodup_flatMap.2 ⟨fun i hi => ?_, h.nodup.imp_of_mem fun {i j} hi hj hij => ?_⟩
  · obtain ⟨p, b, c, hp, rfl, -⟩ := (h.heads i).1 hi
    rw [(h.chain p b c hp).chainFrom]
    exact (h.chain p b c hp).nodup
  · obtain ⟨p, b, c, hp, rfl, -⟩ := (h.heads i).1 hi
    obtain ⟨q, b', c', hq, rfl, -⟩ := (h.heads j).1 hj
    rw [Function.onFun, (h.chain p b c hp).chainFrom, (h.chain q b' c' hq).chainFrom]
    refine h.disjoint p q b c b' c' hp hq ?_
    rintro rfl
    obtain ⟨-, rfl⟩ := Prod.mk.inj (Option.some.inj (hp.symm.trans hq))
    exact hij rfl

/-- There are eight descriptors, and a chain has three. -/
theorem length_heads (h : Inv s) : s.heads.length ≤ 2 := by
  have hsub : s.heads.flatMap s.disk.chainFrom ⊆ List.range NUM := by
    intro j hj
    obtain ⟨i, hi, hj⟩ := List.mem_flatMap.1 hj
    obtain ⟨p, b, c, hp, rfl, -⟩ := (h.heads i).1 hi
    rw [(h.chain p b c hp).chainFrom] at hj
    exact List.mem_range.2 ((h.chain p b c hp).lt j hj)
  have hle := (h.nodup_chains.subperm hsub).length_le
  have hlen (l : List ℕ) : (l.flatMap s.disk.chainFrom).length = 3 * l.length := by
    induction l with
    | nil => rfl
    | cons i l ih =>
      rw [List.flatMap_cons, List.length_append, ih, List.length_cons]
      change 3 + _ = _
      omega
  rw [hlen, List.length_range] at hle
  change _ ≤ 8 at hle
  omega

theorem length_pending (h : Inv s) :
    (s.disk.avail.idx - s.device.availIdx).toNat < NUM := by
  have hlen := h.length_heads
  rw [State.heads, List.length_append, List.length_append, State.pending, List.length_map,
    length_window] at hlen
  change _ < 8
  omega

theorem length_completed (h : Inv s) : (s.disk.used.idx - s.disk.usedIdx).toNat < NUM := by
  have hlen := h.length_heads
  rw [State.heads, List.length_append, List.length_append, State.completed, List.length_map,
    length_window] at hlen
  change _ < 8
  omega

end Inv

/-! ### Steps that leave the chains alone -/

theorem Formatted.congr {d d' : Disk B} {b : B} {c : Chain} (h : Formatted d b c)
    (hfree : ∀ i ∈ c.list, d'.free i = false) (hdesc : ∀ i ∈ c.list, d'.desc i = d.desc i)
    (hinfo : (d'.info c.i₀).b = (d.info c.i₀).b) : Formatted d' b c := by
  have h₀ := hdesc c.i₀ (by simp [Chain.list])
  have h₁ := hdesc c.i₁ (by simp [Chain.list])
  have h₂ := hdesc c.i₂ (by simp [Chain.list])
  exact ⟨⟨h.nodup, h.lt, hfree, h₀ ▸ h.first, h₁ ▸ h.second, h₂ ▸ h.last⟩, hinfo.trans h.info⟩

namespace Inv

variable {s t : State P B}

/-- Heads move from one place to another, free descriptors are changed, and processes that have no
request do something. -/
theorem frame (h : Inv s) (hclaim : ∀ p, (t.pc p).claim = (s.pc p).claim)
    (hlock : ∀ p b, (t.pc p).buf = some b → t.lock b = some p)
    (hfree : t.disk.free = s.disk.free)
    (hdesc : ∀ i, s.disk.free i = false → t.disk.desc i = s.disk.desc i)
    (hinfo : ∀ i, (t.disk.info i).b = (s.disk.info i).b) (hbusy : t.busy = s.busy)
    (hheads : t.heads.Perm s.heads) (hstatus : ∀ i ∈ t.completed, (t.disk.info i).status = 0) :
    Inv t where
  lock := hlock
  chain p b c hp := by
    have hf := h.chain p b c (hclaim p ▸ hp)
    refine hf.congr (fun i hi => ?_) (fun i hi => hdesc i (hf.taken i hi)) (hinfo _)
    rw [hfree]
    exact hf.taken i hi
  disjoint p q b c b' c' hp hq := h.disjoint p q b c b' c' (hclaim p ▸ hp) (hclaim q ▸ hq)
  cover i hi hf := by
    obtain ⟨p, b, c, hp, hc⟩ := h.cover i hi (hfree ▸ hf)
    exact ⟨p, b, c, (hclaim p).trans hp, hc⟩
  nodup := hheads.nodup_iff.2 h.nodup
  heads i := by
    rw [hheads.mem_iff, h.heads, hbusy]
    simp only [hclaim]
  status := hstatus

/-- The device takes a head. -/
theorem take (h : Inv s) (he : s.device.availIdx ≠ s.disk.avail.idx) : Inv s.take := by
  refine h.frame (fun _ => rfl) h.lock rfl (fun _ _ => rfl) (fun _ => rfl) rfl ?_ h.status
  have hpop := window_pop (n := NUM) s.disk.avail.ring (by decide) he
  rw [State.heads, State.heads, State.pending, State.pending, hpop, List.map_cons]
  dsimp only [State.completed, State.take]
  rw [List.cons_append, List.cons_append, ← List.append_assoc, List.append_assoc,
    List.singleton_append]
  exact List.perm_middle

theorem completed_complete (h : Inv s) {i : ℕ} (hi : i < NUM)
    (haddr : s.disk.statusAddr i = .status i) : (s.complete i).completed = s.completed ++ [i] := by
  have hlt : i < 8 := hi
  have hpush := window_push (w := 16) (n := NUM) s.disk.used.ring (by decide) (by decide)
    h.length_completed (BitVec.ofNat 32 i)
  have hnum : (BitVec.ofNat 32 i).toNat = i := by
    rw [BitVec.toNat_ofNat, Nat.mod_eq_of_lt (by omega)]
  rw [State.completed, State.complete, haddr]
  dsimp only [Disk.putStatus]
  rw [hpush, List.map_append, List.map_singleton, hnum, State.completed]

/-- The device completes a chain. -/
theorem complete (h : Inv s) {i : ℕ} (hi : i ∈ s.device.taken) : Inv (s.complete i) := by
  have hmem : i ∈ s.heads := List.mem_append_left _ (List.mem_append_right _ hi)
  obtain ⟨p, b, c, hp, rfl, -⟩ := (h.heads i).1 hmem
  have hf := h.chain p b c hp
  have hcompleted := h.completed_complete (hf.lt _ c.head_mem) hf.statusAddr
  have hinfo : (s.complete c.i₀).disk.info =
      update s.disk.info c.i₀ { s.disk.info c.i₀ with status := 0 } := by
    rw [State.complete, hf.statusAddr]
    rfl
  have hdesc : (s.complete c.i₀).disk.desc = s.disk.desc := by
    rw [State.complete, hf.statusAddr]
    rfl
  have hfree : (s.complete c.i₀).disk.free = s.disk.free := by
    rw [State.complete, hf.statusAddr]
    rfl
  have hpending : (s.complete c.i₀).pending = s.pending := by
    rw [State.pending, State.complete, hf.statusAddr]
    rfl
  refine h.frame (fun _ => rfl) h.lock hfree (fun j _ => congrFun hdesc j) (fun j => ?_) rfl ?_
    fun j hj => ?_
  · rw [hinfo]
    by_cases hj : j = c.i₀
    · subst hj
      rw [update_self]
    · rw [update_of_ne hj]
  · rw [State.heads, State.heads, hcompleted, hpending, ← List.append_assoc]
    refine (List.perm_append_singleton _ _).trans ?_
    refine List.Perm.trans ?_
      (((List.perm_cons_erase hi).symm.append_left s.pending).append_right _)
    rw [List.append_assoc, List.append_assoc]
    exact List.perm_middle.symm
  · rw [hcompleted, List.mem_append, List.mem_singleton] at hj
    rw [hinfo]
    by_cases hjc : j = c.i₀
    · subst hjc
      rw [update_self]
    · rw [update_of_ne hjc]
      exact h.status j (hj.resolve_right hjc)

end Inv

/-! ### The interrupt handler -/

section Seen

variable [DecidableEq B] {s : State P B}

/-- The interrupt handler has seen that the request for `b` is complete. -/
def State.seen (s : State P B) (b : B) : State P B := { s with
  disk := { s.disk with usedIdx := s.disk.usedIdx + 1 }
  busy := update s.busy b 0
  pc := fun p => (s.pc p).wakeBuf b }

theorem completed_eq (hne : s.disk.usedIdx ≠ s.disk.used.idx) (b : B) : s.completed =
    (s.disk.used.ring (s.disk.usedIdx.toNat % NUM)).toNat :: (s.seen b).completed := by
  rw [State.completed, window_pop _ (by decide) hne, List.map_cons]
  rfl

theorem Inv.seen (h : Inv s) (hne : s.disk.usedIdx ≠ s.disk.used.idx) {p : P} {b : B} {c : Chain}
    (hp : (s.pc p).claim = some (b, c))
    (hc : c.i₀ = (s.disk.used.ring (s.disk.usedIdx.toNat % NUM)).toNat) : Inv (s.seen b) := by
  have hcompleted := completed_eq hne b
  rw [← hc] at hcompleted
  have hheads : s.heads.Perm (c.i₀ :: (s.seen b).heads) := by
    rw [State.heads, hcompleted]
    exact List.perm_middle
  have hnodup := List.nodup_cons.1 (hheads.nodup_iff.1 h.nodup)
  have hclaim (q : P) : ((s.seen b).pc q).claim = (s.pc q).claim := Pc.claim_wakeBuf b _
  refine ⟨fun q b' hq => h.lock q b' ?_, fun q b' c' hq => ?_, fun q r b₁ c₁ b₂ c₂ hq hr => ?_,
    fun i hi hf => ?_, hnodup.2, fun i => ?_, fun i hi => h.status i ?_⟩
  · rw [← hq]
    exact (Pc.buf_wakeBuf b _).symm
  · exact (h.chain q b' c' (hclaim q ▸ hq)).congr (h.chain q b' c' (hclaim q ▸ hq)).taken
      (fun _ _ => rfl) rfl
  · exact h.disjoint q r b₁ c₁ b₂ c₂ (hclaim q ▸ hq) (hclaim r ▸ hr)
  · obtain ⟨q, b', c', hq, hi'⟩ := h.cover i hi hf
    exact ⟨q, b', c', (hclaim q).trans hq, hi'⟩
  · -- the requests that are still on their way are those with another head
    have hmem : i ∈ (s.seen b).heads ↔ i ∈ s.heads ∧ i ≠ c.i₀ := by
      rw [hheads.mem_iff, List.mem_cons]
      constructor
      · intro hi
        exact ⟨.inr hi, fun he => hnodup.1 (he ▸ hi)⟩
      · rintro ⟨hi, hne⟩
        exact hi.resolve_left hne
    rw [hmem, h.heads]
    constructor
    · rintro ⟨⟨q, b', c', hq, rfl, hb'⟩, hne⟩
      refine ⟨q, b', c', (hclaim q).trans hq, rfl, ?_⟩
      have hbb : b' ≠ b := by
        rintro rfl
        have hpq := (h.lock q b' (Pc.buf_of_claim hq)).symm.trans (h.lock p b' (Pc.buf_of_claim hp))
        cases hpq
        obtain ⟨-, rfl⟩ := Prod.mk.inj (Option.some.inj (hq.symm.trans hp))
        exact hne rfl
      exact (update_of_ne hbb _ _).trans hb'
    · rintro ⟨q, b', c', hq, rfl, hb'⟩
      have hq' := hclaim q ▸ hq
      have hbb : b' ≠ b := by
        rintro rfl
        change update s.busy b' 0 b' = 1 at hb'
        rw [update_self] at hb'
        exact absurd hb' (by decide)
      refine ⟨⟨q, b', c', hq', rfl, (update_of_ne hbb _ _).symm.trans hb'⟩, fun he => ?_⟩
      obtain ⟨-, hbb', -⟩ := h.claim_unique hq' hp c'.head_mem (he ▸ c.head_mem)
      exact hbb hbb'
  · rw [hcompleted]
    exact List.mem_cons_of_mem _ hi

/-- A round of the interrupt handler clears the flag of the buffer that the request was for. -/
theorem Inv.round (h : Inv s) (hne : s.disk.usedIdx ≠ s.disk.used.idx) :
    Runs (virtioDiskIntr : DiskM P B Unit) s fun _ t => Inv t ∧ ∃ p b c,
      (s.pc p).claim = some (b, c) ∧
      c.i₀ = (s.disk.used.ring (s.disk.usedIdx.toNat % NUM)).toNat ∧ s.busy b = 1 ∧
      t = s.seen b := by
  have hmem : (s.disk.used.ring (s.disk.usedIdx.toNat % NUM)).toNat ∈ s.completed := by
    rw [State.completed, window_pop _ (by decide) hne, List.map_cons]
    exact List.mem_cons_self
  have hstatus := h.status _ hmem
  obtain ⟨p, b, c, hp, hc, hb⟩ := (h.heads _).1 (List.mem_append_right _ hmem)
  have hinfo := (h.chain p b c hp).info
  refine .of_eq (a := ()) (t := s.seen b) ?_ ⟨h.seen hne hp hc, p, b, c, hp, hc, hb, rfl⟩
  rw [hc] at hinfo
  rw [virtioDiskIntr, StateT.run_bind, StateT.run_get, pure_bind]
  dsimp only
  rw [if_neg (not_not.2 hstatus), hinfo]
  rfl

end Seen

/-! ### Descriptors -/

section Descriptors

variable {s : State P B} {i : ℕ}

/-- A descriptor has been allocated. -/
def State.reserve (s : State P B) (i : ℕ) : State P B :=
  { s with disk := { s.disk with free := update s.disk.free i false } }

/-- A descriptor has been freed. -/
def State.freed (s : State P B) (i : ℕ) : State P B := { s with
  disk := { s.disk with
    desc := update s.disk.desc i .zero
    free := update s.disk.free i true }
  pc := fun p => (s.pc p).wakeFree }

theorem allocDesc_spec (s : State P B) : Runs (allocDesc : DiskM P B (Option ℕ)) s fun o t =>
    o = none ∧ t = s ∨ ∃ i < NUM, s.disk.free i = true ∧ o = some i ∧ t = s.reserve i := by
  cases hfind : (List.range NUM).find? s.disk.free with
  | none =>
    refine .of_eq (a := none) (t := s) ?_ (.inl ⟨rfl, rfl⟩)
    rw [allocDesc, StateT.run_bind, StateT.run_get, pure_bind, hfind]
    rfl
  | some i =>
    refine .of_eq (a := some i) (t := s.reserve i) ?_ (.inr ⟨i, ?_, ?_, rfl, rfl⟩)
    · rw [allocDesc, StateT.run_bind, StateT.run_get, pure_bind, hfind]
      rfl
    · exact List.mem_range.1 (List.mem_of_find?_eq_some hfind)
    · exact List.find?_some hfind

theorem freeDesc_spec (hi : i < NUM) (hf : s.disk.free i = false) :
    Runs (freeDesc i : DiskM P B Unit) s fun _ t => t = s.freed i := by
  refine .of_eq (a := ()) (t := s.freed i) ?_ rfl
  rw [freeDesc, if_neg (not_le.2 hi)]
  change (if s.disk.free i = true then _ else _ : DiskM P B Unit).run s = _
  rw [hf, if_neg Bool.false_ne_true]
  rfl

/-- What a failed allocation leaves behind: free descriptors have been cleared, and processes that
wait for descriptors have been woken. -/
def Idle (s t : State P B) : Prop :=
  ∃ desc pc, t = { s with disk := { s.disk with desc := desc }, pc := pc } ∧
    (∀ i, s.disk.free i = false → desc i = s.disk.desc i) ∧
    ∀ p, (pc p).claim = (s.pc p).claim ∧ (pc p).buf = (s.pc p).buf

theorem Idle.refl (s : State P B) : Idle s s := ⟨_, _, rfl, fun _ _ => rfl, fun _ => ⟨rfl, rfl⟩⟩

theorem Idle.of_free {t : State P B} (h : Idle s t) (hf : s.disk.free i = true) :
    Idle s ((t.reserve i).freed i) := by
  obtain ⟨desc, pc, rfl, hdesc, hpc⟩ := h
  refine ⟨update desc i .zero, fun p => (pc p).wakeFree, ?_, fun j hj => ?_, fun p => ?_⟩
  · dsimp only [State.reserve, State.freed]
    rw [Function.update_idem, ← hf, Function.update_eq_self]
  · rw [update_of_ne, hdesc j hj]
    rintro rfl
    exact absurd (hj.symm.trans hf) Bool.false_ne_true
  · rw [Pc.claim_wakeFree, Pc.buf_wakeFree]
    exact hpc p

theorem freed_reserve {j : ℕ} (hij : i ≠ j) : (s.reserve j).freed i = (s.freed i).reserve j := by
  dsimp only [State.reserve, State.freed]
  rw [Function.update_comm hij]

theorem alloc3Desc_spec (s : State P B) :
    Runs (alloc3Desc : DiskM P B (Option Chain)) s fun o t => match o with
      | none => Idle s t
      | some c => c.list.Nodup ∧ (∀ i ∈ c.list, i < NUM ∧ s.disk.free i = true) ∧
        t = ((s.reserve c.i₀).reserve c.i₁).reserve c.i₂ := by
  have hself (s : State P B) (i : ℕ) : (s.reserve i).disk.free i = false := update_self _ _ _
  have hother {s : State P B} {i j : ℕ} (hj : (s.reserve i).disk.free j = true) :
      j ≠ i ∧ s.disk.free j = true := by
    have hji : j ≠ i := by
      rintro rfl
      exact absurd ((hself s j).symm.trans hj) Bool.false_ne_true
    exact ⟨hji, (update_of_ne hji _ _).symm.trans hj⟩
  refine (allocDesc_spec s).bind fun o t h₀ => ?_
  obtain ⟨rfl, rfl⟩ | ⟨i₀, hlt₀, hf₀, rfl, rfl⟩ := h₀
  · exact .pure (.refl t)
  refine (allocDesc_spec _).bind fun o t h₁ => ?_
  obtain ⟨rfl, rfl⟩ | ⟨i₁, hlt₁, hf₁, rfl, rfl⟩ := h₁
  · refine (freeDesc_spec hlt₀ (hself s i₀)).bind fun _ t ht => .pure ?_
    subst ht
    exact (Idle.refl s).of_free hf₀
  obtain ⟨hne₁, hf₁⟩ := hother hf₁
  refine (allocDesc_spec _).bind fun o t h₂ => ?_
  obtain ⟨rfl, rfl⟩ | ⟨i₂, hlt₂, hf₂, rfl, rfl⟩ := h₂
  · have hfree₀ : ((s.reserve i₀).reserve i₁).disk.free i₀ = false :=
      (update_of_ne hne₁.symm _ _).trans (hself s i₀)
    refine (freeDesc_spec hlt₀ hfree₀).bind fun _ t ht => ?_
    rw [freed_reserve hne₁.symm] at ht
    subst ht
    refine (freeDesc_spec hlt₁ (hself _ i₁)).bind fun _ t ht => .pure ?_
    subst ht
    exact ((Idle.refl s).of_free hf₀).of_free hf₁
  · obtain ⟨hne₂, hf₂⟩ := hother hf₂
    obtain ⟨hne₂', hf₂⟩ := hother hf₂
    refine .pure ⟨?_, ?_, rfl⟩
    · simp [Chain.list, hne₁.symm, hne₂.symm, hne₂'.symm]
    · simp [Chain.list, hlt₀, hlt₁, hlt₂, hf₀, hf₁, hf₂]

theorem freeChain_spec {c : Chain} (h : Linked s.disk c) :
    Runs (freeChain (NUM + 1) c.i₀ : DiskM P B Unit) s
    fun _ t => t = ((s.freed c.i₀).freed c.i₁).freed c.i₂ := by
  obtain ⟨h₀₁, h₀₂, h₁₂⟩ : c.i₀ ≠ c.i₁ ∧ c.i₀ ≠ c.i₂ ∧ c.i₁ ≠ c.i₂ := by
    simpa [Chain.list, and_assoc] using h.nodup
  have hm₀ : c.i₀ ∈ c.list := by simp [Chain.list]
  have hm₁ : c.i₁ ∈ c.list := by simp [Chain.list]
  have hm₂ : c.i₂ ∈ c.list := by simp [Chain.list]
  have hfree (s : State P B) {i j : ℕ} (hij : j ≠ i) : (s.freed i).disk.free j = s.disk.free j :=
    update_of_ne hij _ _
  have hdesc (s : State P B) {i j : ℕ} (hij : j ≠ i) : (s.freed i).disk.desc j = s.disk.desc j :=
    update_of_ne hij _ _
  -- one round, which goes on with `freeChain rounds (next)` or stops
  have hround {s : State P B} {i : ℕ} (rounds : ℕ) (hi : i < NUM) (hf : s.disk.free i = false)
      {Q : Unit → State P B → Prop} (hQ : Runs (if (s.disk.desc i).flags &&& VRING_DESC_F_NEXT ≠ 0
        then freeChain rounds (s.disk.desc i).next.toNat else pure ()) (s.freed i) Q) :
      Runs (freeChain (rounds + 1) i) s Q := by
    refine Runs.bind (R := fun a t => a = s ∧ t = s) (.get ⟨rfl, rfl⟩) ?_
    rintro _ _ ⟨rfl, rfl⟩
    refine (freeDesc_spec hi hf).bind fun _ t ht => ?_
    subst ht
    exact hQ
  refine hround _ (h.lt _ hm₀) (h.taken _ hm₀) ?_
  rw [if_pos h.first.1, h.first.2]
  have hf₁ := (hfree s h₀₁.symm).trans (h.taken _ hm₁)
  refine hround _ (h.lt _ hm₁) hf₁ ?_
  rw [hdesc s h₀₁.symm, if_pos h.second.1, h.second.2]
  have hf₂ := (hfree (s.freed c.i₀) h₁₂.symm).trans ((hfree s h₀₂.symm).trans (h.taken _ hm₂))
  refine hround _ (h.lt _ hm₂) hf₂ ?_
  rw [hdesc _ h₁₂.symm, hdesc s h₀₂.symm, if_neg (not_not.2 h.last.1)]
  exact .pure rfl

end Descriptors

/-! ### Requests -/

section Requests

variable [DecidableEq P] {s : State P B} {p : P} {b : B} {c : Chain}

/-- The allocation has failed, and the process goes to sleep. -/
theorem Inv.idle (h : Inv s) {t : State P B} (ht : Idle s t) (hlock : s.lock b = some p)
    (hp : (s.pc p).claim = none) {pc : Pc B} (hclaim : pc.claim = none) (hbuf : pc.buf = some b) :
    Inv { t with pc := update t.pc p pc } := by
  obtain ⟨desc, pc', rfl, hdesc, hpc⟩ := ht
  refine h.frame (fun q => ?_) (fun q b' hq => ?_) rfl hdesc (fun _ => rfl) rfl (.refl _) h.status
  · dsimp only
    by_cases hqp : q = p
    · subst hqp
      rw [update_self, hclaim, hp]
    · rw [update_of_ne hqp]
      exact (hpc q).1
  · dsimp only at hq ⊢
    by_cases hqp : q = p
    · subst hqp
      rw [update_self, hbuf] at hq
      rwa [← Option.some.inj hq]
    · rw [update_of_ne hqp, (hpc q).2] at hq
      exact h.lock q b' hq

variable [DecidableEq B]

/-- The request of `p` for `b` has been published, with the descriptors `c`. -/
def State.submit (s : State P B) (p : P) (b : B) (write : Bool) (sector : BitVec 64) (c : Chain) :
    State P B := { s with
  disk := (({ s.disk with free := update (update (update s.disk.free
    c.i₀ false) c.i₁ false) c.i₂ false }).format b write sector c).publish c.i₀
  busy := update s.busy b 1
  pc := update s.pc p (.wait b c true) }

theorem submit_free (write : Bool) (sector : BitVec 64) (i : ℕ) :
    (s.submit p b write sector c).disk.free i = false ↔ i ∈ c.list ∨ s.disk.free i = false := by
  change update (update (update s.disk.free c.i₀ false) c.i₁ false) c.i₂
    false i = false ↔ _
  simp only [update_apply, Chain.mem_list]
  split_ifs <;> simp_all

theorem submit_desc (write : Bool) (sector : BitVec 64) {i : ℕ} (hi : i ∉ c.list) :
    (s.submit p b write sector c).disk.desc i = s.disk.desc i := by
  rw [Chain.mem_list, not_or, not_or] at hi
  exact (update_of_ne hi.2.2 _ _).trans
    ((update_of_ne hi.2.1 _ _).trans (update_of_ne hi.1 _ _))

theorem submit_formatted (hc : c.list.Nodup) (hlt : ∀ i ∈ c.list, i < NUM) (write : Bool)
    (sector : BitVec 64) : Formatted (s.submit p b write sector c).disk b c := by
  obtain ⟨h₀₁, h₀₂, h₁₂⟩ : c.i₀ ≠ c.i₁ ∧ c.i₀ ≠ c.i₂ ∧ c.i₁ ≠ c.i₂ := by
    simpa [Chain.list, and_assoc] using hc
  have hnum {i : ℕ} (hi : i ∈ c.list) : (BitVec.ofNat 16 i).toNat = i := by
    have : i < 8 := hlt i hi
    rw [BitVec.toNat_ofNat, Nat.mod_eq_of_lt (by omega)]
  have hd₀ : (s.submit p b write sector c).disk.desc c.i₀ =
      ⟨.ops c.i₀, 16, VRING_DESC_F_NEXT, BitVec.ofNat 16 c.i₁⟩ :=
    (update_of_ne h₀₂ _ _).trans
      ((update_of_ne h₀₁ _ _).trans (update_self _ _ _))
  have hd₁ : (s.submit p b write sector c).disk.desc c.i₁ = ⟨.data b, 1024,
      (if write then 0 else VRING_DESC_F_WRITE) ||| VRING_DESC_F_NEXT, BitVec.ofNat 16 c.i₂⟩ :=
    (update_of_ne h₁₂ _ _).trans (update_self _ _ _)
  have hd₂ : (s.submit p b write sector c).disk.desc c.i₂ =
      ⟨.status c.i₀, 1, VRING_DESC_F_WRITE, 0⟩ := update_self _ _ _
  refine ⟨⟨hc, hlt, fun i hi => (submit_free write sector i).2 (.inl hi), ?_, ?_, ?_⟩, ?_⟩
  · rw [hd₀]
    exact ⟨by dsimp only; decide, hnum (by simp [Chain.list])⟩
  · rw [hd₁]
    exact ⟨by cases write <;> dsimp only <;> decide, hnum (by simp [Chain.list])⟩
  · rw [hd₂]
    exact ⟨by dsimp only; decide, rfl⟩
  · exact congrArg Info.b (update_self c.i₀ (⟨some b, 0xff⟩ : Info B) s.disk.info)

theorem Inv.submit_pending (h : Inv s) (hlt : c.i₀ < NUM) (write : Bool) (sector : BitVec 64) :
    (s.submit p b write sector c).pending = s.pending ++ [c.i₀] := by
  have hpush := window_push (w := 16) (n := NUM) s.disk.avail.ring (by decide) (by decide)
    h.length_pending (BitVec.ofNat 16 c.i₀)
  have hnum : (BitVec.ofNat 16 c.i₀).toNat = c.i₀ := by
    have : c.i₀ < 8 := hlt
    rw [BitVec.toNat_ofNat, Nat.mod_eq_of_lt (by omega)]
  refine (congrArg (List.map BitVec.toNat) hpush).trans ?_
  rw [List.map_append, List.map_singleton, hnum, State.pending]

/-- The request is published. -/
theorem Inv.submit (h : Inv s) (hlock : s.lock b = some p) (hp : (s.pc p).claim = none)
    (hc : c.list.Nodup) (hfree : ∀ i ∈ c.list, i < NUM ∧ s.disk.free i = true) (write : Bool)
    (sector : BitVec 64) : Inv (s.submit p b write sector c) := by
  have hformat : Formatted (s.submit p b write sector c).disk b c :=
    submit_formatted hc (fun i hi => (hfree i hi).1) write sector
  have hself : ((s.submit p b write sector c).pc p).claim = some (b, c) := by
    change (update s.pc p (.wait b c true) p).claim = _
    rw [update_self]
    rfl
  have hother {q : P} (hq : q ≠ p) : (s.submit p b write sector c).pc q = s.pc q :=
    update_of_ne hq _ _
  -- the new chain was free, so it has nothing in common with the others
  have hdisj {q : P} {b' : B} {c' : Chain} (hq : (s.pc q).claim = some (b', c')) :
      c'.list.Disjoint c.list := fun i hi hi' =>
    absurd (((h.chain q b' c' hq).taken i hi).symm.trans (hfree i hi').2) Bool.false_ne_true
  have hbuf {q : P} {b' : B} {c' : Chain} (hq : (s.pc q).claim = some (b', c')) (hqp : q ≠ p) :
      b' ≠ b := by
    rintro rfl
    exact hqp (Option.some.inj ((h.lock q b' (Pc.buf_of_claim hq)).symm.trans hlock))
  have hpne {q : P} {b' : B} {c' : Chain} (hq : (s.pc q).claim = some (b', c')) : q ≠ p := by
    rintro rfl
    cases hp.symm.trans hq
  have hheads : (s.submit p b write sector c).heads.Perm (c.i₀ :: s.heads) := by
    rw [State.heads, h.submit_pending (hfree _ c.head_mem).1]
    change (s.pending ++ [c.i₀] ++ s.device.taken ++ s.completed).Perm _
    rw [List.append_assoc, List.append_assoc, List.singleton_append]
    refine List.perm_middle.trans ?_
    rw [State.heads, List.append_assoc]
  have hnew : c.i₀ ∉ s.heads := fun hi => by
    obtain ⟨q, b', c', hq, he, -⟩ := (h.heads c.i₀).1 hi
    exact hdisj hq (he ▸ c'.head_mem) c.head_mem
  refine ⟨fun q b' hq => ?_, fun q b' c' hq => ?_, fun q r b₁ c₁ b₂ c₂ hq hr hqr => ?_,
    fun i hi hf => ?_, ?_, fun i => ?_, fun i hi => ?_⟩
  · by_cases hqp : q = p
    · subst hqp
      rw [Pc.buf_of_claim hself] at hq
      rwa [← Option.some.inj hq]
    · exact h.lock q b' (hother hqp ▸ hq)
  · by_cases hqp : q = p
    · subst hqp
      obtain ⟨rfl, rfl⟩ := Prod.mk.inj (Option.some.inj (hself.symm.trans hq))
      exact hformat
    · rw [hother hqp] at hq
      have hf := h.chain q b' c' hq
      refine hf.congr (fun i hi => (submit_free write sector i).2 (.inr (hf.taken i hi)))
        (fun i hi => submit_desc write sector (hdisj hq hi)) ?_
      have hne : c'.i₀ ≠ c.i₀ := fun he => hdisj hq c'.head_mem (he ▸ c.head_mem)
      exact congrArg Info.b (update_of_ne hne _ _)
  · by_cases hqp : q = p
    · subst hqp
      rw [hother hqr.symm] at hr
      obtain ⟨rfl, rfl⟩ := Prod.mk.inj (Option.some.inj (hself.symm.trans hq))
      exact fun i hi hi' => hdisj hr hi' hi
    · rw [hother hqp] at hq
      by_cases hrp : r = p
      · subst hrp
        obtain ⟨rfl, rfl⟩ := Prod.mk.inj (Option.some.inj (hself.symm.trans hr))
        exact hdisj hq
      · exact h.disjoint q r b₁ c₁ b₂ c₂ hq (hother hrp ▸ hr) hqr
  · obtain hi' | hf := (submit_free write sector i).1 hf
    · exact ⟨p, b, c, hself, hi'⟩
    · obtain ⟨q, b', c', hq, hi'⟩ := h.cover i hi hf
      exact ⟨q, b', c', hother (hpne hq) ▸ hq, hi'⟩
  · exact hheads.nodup_iff.2 (List.nodup_cons.2 ⟨hnew, h.nodup⟩)
  · rw [hheads.mem_iff, List.mem_cons, h.heads]
    constructor
    · rintro (rfl | ⟨q, b', c', hq, rfl, hb'⟩)
      · exact ⟨p, b, c, hself, rfl, update_self _ _ _⟩
      · refine ⟨q, b', c', hother (hpne hq) ▸ hq, rfl, ?_⟩
        exact (update_of_ne (hbuf hq (hpne hq)) _ _).trans hb'
    · rintro ⟨q, b', c', hq, rfl, hb'⟩
      by_cases hqp : q = p
      · subst hqp
        obtain ⟨rfl, rfl⟩ := Prod.mk.inj (Option.some.inj (hself.symm.trans hq))
        exact .inl rfl
      · rw [hother hqp] at hq
        exact .inr ⟨q, b', c', hq, rfl, (update_of_ne (hbuf hq hqp) _ _).symm.trans hb'⟩
  · have hne : i ≠ c.i₀ := by
      rintro rfl
      exact hnew (List.mem_append_right _ hi)
    exact (congrArg Info.status (update_of_ne hne _ _)).trans (h.status i hi)

theorem request_spec (h : Inv s) (hlock : s.lock b = some p) (hp : (s.pc p).claim = none)
    (write : Bool) (sector : BitVec 64) :
    Runs (request p b write sector) s fun _ t => Inv t ∧ (t.busy = s.busy ∧
      t.disk.avail = s.disk.avail ∨ ∃ c, t = s.submit p b write sector c) := by
  refine (alloc3Desc_spec s).bind fun o t ht => ?_
  cases o with
  | none =>
    refine .modify ⟨h.idle ht hlock hp rfl rfl, .inl ?_⟩
    obtain ⟨desc, pc, rfl, -⟩ := ht
    exact ⟨rfl, rfl⟩
  | some c =>
    obtain ⟨hnodup, hfree, rfl⟩ := ht
    exact .of_eq (a := ()) (t := s.submit p b write sector c) rfl
      ⟨h.submit hlock hp hnodup hfree write sector, .inr ⟨c, rfl⟩⟩

/-- The driver forgets for which buffer the request was. -/
def State.forget (s : State P B) (c : Chain) : State P B := { s with disk := { s.disk with
  info := update s.disk.info c.i₀ { s.disk.info c.i₀ with b := none } } }

/-- The request of `p` for `b` is over. -/
def State.retire (s : State P B) (p : P) (b : B) (c : Chain) : State P B :=
  let t := (((s.forget c).freed c.i₀).freed c.i₁).freed c.i₂
  { t with pc := update t.pc p .out, lock := update t.lock b none }

theorem retire_free (i : ℕ) :
    (s.retire p b c).disk.free i = false ↔ i ∉ c.list ∧ s.disk.free i = false := by
  change update (update (update s.disk.free c.i₀ true) c.i₁ true) c.i₂
    true i = false ↔ _
  simp only [update_apply, Chain.mem_list]
  split_ifs <;> simp_all

theorem retire_desc {i : ℕ} (hi : i ∉ c.list) :
    (s.retire p b c).disk.desc i = s.disk.desc i := by
  rw [Chain.mem_list, not_or, not_or] at hi
  exact (update_of_ne hi.2.2 _ _).trans
    ((update_of_ne hi.2.1 _ _).trans (update_of_ne hi.1 _ _))

/-- The chain is freed, and the process leaves. -/
theorem Inv.retire (h : Inv s) (hp : (s.pc p).claim = some (b, c)) (hb : s.busy b ≠ 1) :
    Inv (s.retire p b c) := by
  have hself : (s.retire p b c).pc p = .out := update_self _ _ _
  have hother {q : P} (hq : q ≠ p) : ((s.retire p b c).pc q).claim = (s.pc q).claim ∧
      ((s.retire p b c).pc q).buf = (s.pc q).buf := by
    have hpc : (s.retire p b c).pc q = (s.pc q).wakeFree.wakeFree.wakeFree :=
      update_of_ne hq _ _
    rw [hpc]
    simp
  have hpne {q : P} {b' : B} {c' : Chain} (hq : ((s.retire p b c).pc q).claim = some (b', c')) :
      q ≠ p ∧ (s.pc q).claim = some (b', c') := by
    have hqp : q ≠ p := by
      rintro rfl
      rw [hself] at hq
      cases hq
    exact ⟨hqp, (hother hqp).1.symm.trans hq⟩
  have hheads (i : ℕ) (hi : i ∈ s.heads) : i ∉ c.list := by
    intro hic
    obtain ⟨q, b', c', hq, rfl, hb'⟩ := (h.heads i).1 hi
    obtain ⟨-, rfl, -⟩ := h.claim_unique hq hp c'.head_mem hic
    exact hb hb'
  refine ⟨fun q b' hq => ?_, fun q b' c' hq => ?_, fun q r b₁ c₁ b₂ c₂ hq hr => ?_,
    fun i hi hf => ?_, h.nodup, fun i => ?_, fun i hi => ?_⟩
  · have hqp : q ≠ p := by
      rintro rfl
      rw [hself] at hq
      cases hq
    have hlock := h.lock q b' ((hother hqp).2.symm.trans hq)
    have hbb : b' ≠ b := by
      rintro rfl
      exact hqp (Option.some.inj (hlock.symm.trans (h.lock p b' (Pc.buf_of_claim hp))))
    exact (update_of_ne hbb _ _).trans hlock
  · obtain ⟨hqp, hq⟩ := hpne hq
    have hdisj := h.disjoint q p b' c' b c hq hp hqp
    have hf := h.chain q b' c' hq
    refine hf.congr (fun i hi => (retire_free i).2 ⟨hdisj hi, hf.taken i hi⟩)
      (fun i hi => retire_desc (hdisj hi)) ?_
    have hne : c'.i₀ ≠ c.i₀ := fun he => hdisj c'.head_mem (he ▸ c.head_mem)
    exact congrArg Info.b (update_of_ne hne _ _)
  · exact h.disjoint q r b₁ c₁ b₂ c₂ (hpne hq).2 (hpne hr).2
  · obtain ⟨hic, hf⟩ := (retire_free i).1 hf
    obtain ⟨q, b', c', hq, hi'⟩ := h.cover i hi hf
    have hqp : q ≠ p := by
      rintro rfl
      obtain ⟨-, rfl⟩ := Prod.mk.inj (Option.some.inj (hq.symm.trans hp))
      exact hic hi'
    exact ⟨q, b', c', (hother hqp).1.trans hq, hi'⟩
  · change i ∈ s.heads ↔ _
    rw [h.heads]
    constructor
    · rintro ⟨q, b', c', hq, rfl, hb'⟩
      have hqp : q ≠ p := by
        rintro rfl
        obtain ⟨rfl, -⟩ := Prod.mk.inj (Option.some.inj (hq.symm.trans hp))
        exact hb hb'
      exact ⟨q, b', c', (hother hqp).1.trans hq, rfl, hb'⟩
    · rintro ⟨q, b', c', hq, rfl, hb'⟩
      exact ⟨q, b', c', (hpne hq).2, rfl, hb'⟩
  · have hne : i ≠ c.i₀ := by
      rintro rfl
      exact hheads _ (List.mem_append_right _ hi) c.head_mem
    exact (congrArg Info.status (update_of_ne hne _ _)).trans (h.status i hi)

/-- A process that waits for the device goes on. -/
theorem finish_spec (h : Inv s) (hp : (s.pc p).claim = some (b, c)) :
    Runs (finish p b c) s fun _ t => Inv t ∧ t.busy = s.busy ∧ t.disk.avail = s.disk.avail := by
  refine Runs.bind (R := fun a t => a = s ∧ t = s) (.get ⟨rfl, rfl⟩) fun a t ⟨ha, ht⟩ => ?_
  rw [ha, ht]
  by_cases hb : s.busy b = 1
  · rw [if_pos hb]
    have hclaim (q : P) : (update s.pc p (.wait b c true) q).claim = (s.pc q).claim ∧
        (update s.pc p (.wait b c true) q).buf = (s.pc q).buf := by
      by_cases hqp : q = p
      · subst hqp
        rw [update_self, hp, Pc.buf_of_claim hp]
        exact ⟨rfl, rfl⟩
      · rw [update_of_ne hqp]
        exact ⟨rfl, rfl⟩
    refine .modify ⟨h.frame (fun q => (hclaim q).1) (fun q b' hq => ?_) rfl (fun _ _ => rfl)
      (fun _ => rfl) rfl (.refl _) h.status, rfl, rfl⟩
    exact h.lock q b' ((hclaim q).2.symm.trans hq)
  · rw [if_neg hb]
    have hlinked := (h.chain p b c hp).toLinked
    refine Runs.bind (R := fun _ t => t = s.forget c) (.modify rfl) fun _ t ht => ?_
    subst ht
    have hforget : Linked (s.forget c).disk c := ⟨hlinked.nodup, hlinked.lt, hlinked.taken,
      hlinked.first, hlinked.second, hlinked.last⟩
    refine (freeChain_spec hforget).bind fun _ t ht => ?_
    subst ht
    exact .of_eq (a := ()) (t := s.retire p b c) rfl ⟨h.retire hp hb, rfl, rfl⟩

end Requests

end Xv6.Virtio
