import Xv6.Disk.VirtioInv

/-!
# The virtio driver keeps to the protocol

Any number of processes are in `virtio_disk_rw`, and the device completes requests in any order. In
every state that can be reached, chains in flight have no descriptor in common, the device finds in
the avail ring what was written there for it, every completion is for the request that it belongs
to, and nothing panics.

A place of the avail ring is written again as soon as eight more requests have been published. The
device may by then have completed the later ones and not the first, so this may happen while the
chain is still in flight; but the device has taken its head from the ring.
-/

namespace Xv6.Virtio

variable {P B : Type} {s t : State P B} {e : Event P B}

theorem heads_init : (init : State P B).heads = [] := by
  have hpending : (init : State P B).pending = [] :=
    congrArg (List.map BitVec.toNat) (window_self NUM _ (0 : BitVec 16))
  have hcompleted : (init : State P B).completed = [] :=
    congrArg (List.map BitVec.toNat) (window_self NUM _ (0 : BitVec 16))
  rw [State.heads, hpending, hcompleted]
  rfl

theorem inv_init : Inv (init : State P B) where
  lock _ _ h := nomatch h
  chain _ _ _ h := nomatch h
  disjoint _ _ _ _ _ _ h := nomatch h
  cover _ _ h := nomatch h
  nodup := by
    rw [heads_init]
    exact List.nodup_nil
  heads i := by
    rw [heads_init]
    constructor
    · exact fun h => nomatch h
    · rintro ⟨p, b, c, h, -⟩
      cases h
  status i hi := by
    have hmem : i ∈ (init : State P B).heads := List.mem_append_right _ hi
    rw [heads_init] at hmem
    cases hmem

/-- What an event does to the avail ring and to the flags of buffers. -/
structure Orderly [DecidableEq B] (s : State P B) (e : Event P B) (t : State P B) : Prop where
  /-- Places of the ring that the device has not read are left alone. -/
  avail : ∀ j < (s.disk.avail.idx - s.device.availIdx).toNat,
    t.disk.avail.ring ((s.device.availIdx.toNat + j) % NUM) =
      s.disk.avail.ring ((s.device.availIdx.toNat + j) % NUM)
  /-- A round of the interrupt handler clears the flag of the buffer that the completed chain was
  submitted for, and no other. -/
  round : e = .round → ∃ p b c, (s.pc p).claim = some (b, c) ∧
    c.i₀ = (s.disk.used.ring (s.disk.usedIdx.toNat % NUM)).toNat ∧ s.busy b = 1 ∧
    t.busy = Function.update s.busy b 0
  /-- Nothing else clears a flag. -/
  busy : e ≠ .round → ∀ b, s.busy b = 1 → t.busy b = 1

variable [DecidableEq B]

/-- An event that leaves flags and ring alone. -/
theorem Orderly.of_eq (he : e ≠ .round) (hbusy : t.busy = s.busy)
    (havail : t.disk.avail = s.disk.avail) : Orderly s e t where
  avail j _ := by rw [havail]
  round h := absurd h he
  busy _ b hb := by rwa [hbusy]

variable [DecidableEq P]

theorem Orderly.of_submit (h : Inv s) (he : e ≠ .round) {p : P} {b : B} {c : Chain} {write : Bool}
    {sector : BitVec 64} (hbusy : t.busy = (s.submit p b write sector c).busy)
    (havail : t.disk.avail = (s.submit p b write sector c).disk.avail) : Orderly s e t where
  avail j hj := by
    rw [havail]
    exact ring_update_of_lt (by decide) h.length_pending hj _
  round h := absurd h he
  busy _ b' hb' := by
    rw [hbusy]
    change Function.update s.busy b 1 b' = 1
    by_cases hbb : b' = b
    · rw [hbb, Function.update_self]
    · rwa [Function.update_of_ne hbb]

/-- An event that can happen does not panic. -/
theorem exec_spec (h : Inv s) (he : Enabled s e) :
    Runs (exec e) s fun _ t => Inv t ∧ Orderly s e t := by
  cases e with
  | rw p b write blockno =>
    obtain ⟨-, hout, hlock⟩ := he
    -- nobody else is at work on the buffer
    have h' : Inv { s with lock := Function.update s.lock b (some p) } := by
      refine h.frame (fun _ => rfl) (fun q b' hq => ?_) rfl (fun _ _ => rfl) (fun _ => rfl) rfl
        (.refl _) h.status
      have hq' := h.lock q b' hq
      have hbb : b' ≠ b := by
        rintro rfl
        cases hq'.symm.trans hlock
      exact (Function.update_of_ne hbb _ _).trans hq'
    have hclaim : (s.pc p).claim = none := by rw [hout]; rfl
    refine Runs.bind (R := fun _ t => t = { s with lock := Function.update s.lock b (some p) })
      (.modify rfl) fun _ t ht => ?_
    subst ht
    refine (request_spec h' (Function.update_self _ _ _) hclaim write _).mono fun _ t ht => ?_
    obtain ⟨hinv, ⟨hbusy, havail⟩ | ⟨c, rfl⟩⟩ := ht
    · exact ⟨hinv, .of_eq nofun hbusy havail⟩
    · exact ⟨hinv, .of_submit (p := p) h nofun rfl rfl⟩
  | run p =>
    refine Runs.bind (R := fun a t => a = s ∧ t = s) (.get ⟨rfl, rfl⟩) fun a t ⟨ha, ht⟩ => ?_
    rw [ha, ht]
    cases hpc : s.pc p with
    | out =>
      have := he.2
      rw [hpc] at this
      exact this.elim
    | alloc b write sector asleep =>
      have hlock := h.lock p b (by rw [hpc]; rfl)
      have hclaim : (s.pc p).claim = none := by rw [hpc]; rfl
      refine (request_spec h hlock hclaim write sector).mono fun _ t ht => ?_
      obtain ⟨hinv, ⟨hbusy, havail⟩ | ⟨c, rfl⟩⟩ := ht
      · exact ⟨hinv, .of_eq nofun hbusy havail⟩
      · exact ⟨hinv, .of_submit h nofun rfl rfl⟩
    | wait b c asleep =>
      have hclaim : (s.pc p).claim = some (b, c) := by rw [hpc]; rfl
      refine (finish_spec h hclaim).mono fun _ t ⟨hinv, hbusy, havail⟩ => ?_
      exact ⟨hinv, .of_eq nofun hbusy havail⟩
  | intr =>
    exact .modify ⟨h.frame (fun _ => rfl) h.lock rfl (fun _ _ => rfl) (fun _ => rfl) rfl (.refl _)
      h.status, .of_eq nofun rfl rfl⟩
  | round =>
    refine (h.round he.2).mono fun _ t ⟨hinv, p, b, c, hp, hc, hb, ht⟩ => ⟨hinv, ?_⟩
    subst ht
    exact ⟨fun _ _ => rfl, fun _ => ⟨p, b, c, hp, hc, hb, rfl⟩, fun hne => absurd rfl hne⟩
  | done =>
    exact .modify ⟨h.frame (fun _ => rfl) h.lock rfl (fun _ _ => rfl) (fun _ => rfl) rfl (.refl _)
      h.status, .of_eq nofun rfl rfl⟩
  | take => exact .modify ⟨h.take he, .of_eq nofun rfl rfl⟩
  | complete i =>
    refine .modify ⟨h.complete he, .of_eq nofun rfl ?_⟩
    have hmem : i ∈ s.heads := List.mem_append_left _ (List.mem_append_right _ he)
    obtain ⟨p, b, c, hp, rfl, -⟩ := (h.heads i).1 hmem
    rw [State.complete, (h.chain p b c hp).statusAddr]
    rfl

theorem step_spec (h : Inv s) (he : Enabled s e) : ∃ t, step s e = some t ∧ Orderly s e t := by
  obtain ⟨_, t, hrun, -, ht⟩ := exec_spec h he
  refine ⟨t, ?_, ht⟩
  rw [step, if_pos he, hrun]

theorem step_inv (h : Inv s) (hstep : step s e = some t) : Inv t := by
  rw [step] at hstep
  split_ifs at hstep with he
  obtain ⟨_, u, hrun, hu, -⟩ := exec_spec h he
  rw [hrun] at hstep
  cases hstep
  exact hu

/-- **The driver keeps to the protocol.** In every state that can be reached: the descriptors of a
chain in flight are in use, and chains of different processes have none in common; the heads that
the device has still to take from the ring are heads of chains in flight; when no chain is in
flight, all descriptors are free; and every event that can happen does so without a panic, leaves
the places of the avail ring alone that the device has not read, and clears no flag but that of the
buffer whose chain has been completed. -/
theorem virtio_protocol {es : List (Event P B)} (hrun : runEvents step init es = some s) :
    (∀ p b c, (s.pc p).claim = some (b, c) →
      c.list.Nodup ∧ ∀ i ∈ c.list, i < NUM ∧ s.disk.free i = false) ∧
    (∀ p q b c b' c', (s.pc p).claim = some (b, c) → (s.pc q).claim = some (b', c') → p ≠ q →
      c.list.Disjoint c'.list) ∧
    (∀ i ∈ s.pending, ∃ p b c, (s.pc p).claim = some (b, c) ∧ c.i₀ = i) ∧
    ((∀ p, (s.pc p).claim = none) → ∀ i < NUM, s.disk.free i = true) ∧
    ∀ e, Enabled s e → ∃ t, step s e = some t ∧ Orderly s e t := by
  have h := runEvents_invariant (I := Inv) (fun _ _ _ => step_inv) inv_init hrun
  refine ⟨fun p b c hp => ?_, h.disjoint, fun i hi => ?_, fun hnone i hi => ?_,
    fun e he => step_spec h he⟩
  · exact ⟨(h.chain p b c hp).nodup,
      fun i hi => ⟨(h.chain p b c hp).lt i hi, (h.chain p b c hp).taken i hi⟩⟩
  · obtain ⟨p, b, c, hp, hc, -⟩ :=
      (h.heads i).1 (List.mem_append_left _ (List.mem_append_left _ hi))
    exact ⟨p, b, c, hp, hc⟩
  · by_contra hf
    obtain ⟨p, b, c, hp, -⟩ := h.cover i hi (Bool.eq_false_iff.2 hf)
    rw [hnone p] at hp
    cases hp

/-- Two processes make requests, one after the other. -/
def twoRequests : List (Event (Fin 2) (Fin 2)) := [.rw 0 0 false 7, .rw 1 1 true 5]

/-- The chains of two requests in flight have no descriptor in common. -/
theorem virtio_protocol_twoRequests : ∃ s, runEvents step init twoRequests = some s ∧
    (s.pc 0).claim = some (0, ⟨0, 1, 2⟩) ∧ (s.pc 1).claim = some (1, ⟨3, 4, 5⟩) ∧
    [0, 1, 2].Disjoint [3, 4, 5] ∧ ∃ t, step s .take = some t := by
  obtain ⟨s, hrun, h₀, h₁, he⟩ : ∃ s, runEvents step (init : State (Fin 2) (Fin 2)) twoRequests =
      some s ∧ (s.pc 0).claim = some (0, ⟨0, 1, 2⟩) ∧ (s.pc 1).claim = some (1, ⟨3, 4, 5⟩) ∧
      Enabled s .take := by decide +kernel
  obtain ⟨-, hdisj, -, -, hstep⟩ := virtio_protocol hrun
  obtain ⟨t, ht, -⟩ := hstep .take he
  exact ⟨s, hrun, h₀, h₁, hdisj 0 1 _ _ _ _ h₀ h₁ (by decide), t, ht⟩

/-- A request of the second process, from the call to the return, with the descriptors that are free
when the first process has a request. -/
def oneRequest : List (Event (Fin 2) (Fin 2)) :=
  [.rw 1 1 false 5, .take, .complete 3, .intr, .round, .done, .run 1]

/-- **A place of the avail ring is written again while its chain is in flight.** The first process
publishes head `0` in place `0`, and the device takes it. Before it completes the request, the other
process makes eight requests, which the device completes. The last of them is published in
place `0`. -/
theorem avail_overwritten : ∃ s₁ s t,
    runEvents step init [.rw 0 0 false 7, .take] = some s₁ ∧ s₁.disk.avail.ring 0 = 0 ∧
    runEvents step s₁ (List.replicate 7 oneRequest).flatten = some s ∧
    step s (.rw 1 1 false 5) = some t ∧
    (∀ u ∈ [s₁, s, t], (u.pc 0).claim = some (0, ⟨0, 1, 2⟩) ∧ u.busy 0 = 1) ∧
    t.disk.avail.ring 0 = 3 := by
  obtain ⟨s₁, h₁, hring, s, h₂, t, h⟩ :
      ∃ s₁, runEvents step (init : State (Fin 2) (Fin 2)) [.rw 0 0 false 7, .take] = some s₁ ∧
      s₁.disk.avail.ring 0 = 0 ∧
      ∃ s, runEvents step s₁ (List.replicate 7 oneRequest).flatten = some s ∧
      ∃ t, step s (.rw 1 1 false 5) = some t ∧
        (∀ u ∈ [s₁, s, t], (u.pc 0).claim = some (0, ⟨0, 1, 2⟩) ∧ u.busy 0 = 1) ∧
        t.disk.avail.ring 0 = 3 := by decide +kernel
  exact ⟨s₁, s, t, h₁, hring, h₂, h⟩

end Xv6.Virtio
