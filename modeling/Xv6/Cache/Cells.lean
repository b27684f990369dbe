import Xv6.Cache.Bio
import Xv6.Lib.Holders

/-!
# The list of buffers, and who refers to them

The links are at all times those of a list of all buffers. A reference count is the number of
processes that have a reference to the buffer, and one more if `log_write` has pinned it and
`install_trans` has not unpinned it yet. Buffers that nobody refers to are in the list in the order
in which they were released, the last one first, so that the one that is recycled is the one that
was released first.

The actions on the cache are taken one by one; what the callers do with it is in `Xv6.Cache.Pins`.
-/

namespace Xv6.Bio

open Function (update update_self update_of_ne)

/-! ### References -/

/-- The process has a reference. -/
def Stage.ref : Stage → Option Unit
  | .none => Option.none
  | _ => some ()

/-- The process has the sleep lock. -/
def Stage.locks : Stage → Bool
  | .locked | .ready _ => true
  | _ => false

theorem ref_of_locks {h : Stage} (hl : h.locks = true) : h.ref = some () := by
  cases h with
  | none => exact absurd hl Bool.false_ne_true
  | _ => rfl

section References

variable {P : Type} {s t : State P} {p : P} {i j : Fin NBUF} {h : Stage}

theorem has_iff : s.has p i = true ↔ ∃ d, s.hold p i = .ready d := by
  rw [State.has]
  cases s.hold p i <;> simp

theorem locks_of_has (h : s.has p i = true) : (s.hold p i).locks = true := by
  obtain ⟨d, hd⟩ := has_iff.1 h
  rw [hd]
  rfl

theorem isFor_iff {d b : ℕ} :
    s.isFor i d b = true ↔ (s.buf i).dev = d ∧ (s.buf i).blockno = b := by
  simp [State.isFor]

@[simp] theorem upd_hold (f : Buf P → Buf P) : (s.upd i f).hold = s.hold := rfl

@[simp] theorem upd_buf_self (f : Buf P → Buf P) : (s.upd i f).buf i = f (s.buf i) :=
  update_self _ _ _

theorem upd_buf_of_ne (f : Buf P → Buf P) (hj : j ≠ i) : (s.upd i f).buf j = s.buf j :=
  update_of_ne hj _ _

theorem upd_key {f : Buf P → Buf P} (hf : ∀ b, (f b).dev = b.dev ∧ (f b).blockno = b.blockno)
    (j : Fin NBUF) : ((s.upd i f).buf j).dev = (s.buf j).dev ∧
      ((s.upd i f).buf j).blockno = (s.buf j).blockno := by
  by_cases hj : j = i
  · subst hj
    rw [upd_buf_self]
    exact hf _
  · rw [upd_buf_of_ne f hj]
    exact ⟨rfl, rfl⟩

theorem upd_lock {f : Buf P → Buf P} (hf : ∀ b, (f b).lock = b.lock) (j : Fin NBUF) :
    ((s.upd i f).buf j).lock = (s.buf j).lock := by
  by_cases hj : j = i
  · subst hj
    rw [upd_buf_self]
    exact hf _
  · rw [upd_buf_of_ne f hj]

section Count

variable [Fintype P]

/-- The number of processes that have a reference to a buffer. -/
def State.refs (s : State P) (i : Fin NBUF) : ℕ := holders (fun p => (s.hold p i).ref) ()

theorem refs_congr (h : ∀ p, (t.hold p i).ref = (s.hold p i).ref) : t.refs i = s.refs i := by
  rw [State.refs, State.refs]
  exact congrArg (fun g => holders g ()) (funext h)

theorem refs_pos (h : s.hold p i ≠ .none) : 0 < s.refs i := by
  refine holders_pos (x := p) ?_
  cases hp : s.hold p i with
  | none => exact absurd hp h
  | _ => rfl

end Count

variable [DecidableEq P]

@[simp] theorem setHold_hold_self : (s.setHold p i h).hold p i = h := by
  simp [State.setHold]

theorem setHold_hold_of_ne {q : P} (hne : q ≠ p ∨ j ≠ i) :
    (s.setHold p i h).hold q j = s.hold q j := by
  by_cases hq : q = p
  · subst hq
    simp [State.setHold, hne.resolve_left (not_not.2 rfl)]
  · simp [State.setHold, hq]

@[simp] theorem setHold_buf : (s.setHold p i h).buf = s.buf := rfl

variable [Fintype P]

theorem refs_setHold_of_ne (hj : j ≠ i) : (s.setHold p i h).refs j = s.refs j :=
  refs_congr fun _ => congrArg Stage.ref (setHold_hold_of_ne (.inr hj))

theorem refs_setHold_self :
    (s.setHold p i h).refs i + (if (s.hold p i).ref = some () then 1 else 0) =
      s.refs i + if h.ref = some () then 1 else 0 := by
  have heq : (fun q => ((s.setHold p i h).hold q i).ref) =
      update (fun q => (s.hold q i).ref) p h.ref := by
    funext q
    by_cases hq : q = p
    · subst hq
      rw [setHold_hold_self, update_self]
    · rw [setHold_hold_of_ne (.inl hq), update_of_ne hq]
  rw [State.refs, heq]
  exact holders_update _ p h.ref ()

/-- The process gets a reference. -/
theorem refs_enter (hold : s.hold p i = .none) (hnew : h.ref = some ()) :
    (s.setHold p i h).refs i = s.refs i + 1 := by
  have := refs_setHold_self (s := s) (p := p) (i := i) (h := h)
  rwa [hold, if_neg nofun, if_pos hnew] at this

/-- The process gives up its reference. -/
theorem refs_leave (hold : (s.hold p i).ref = some ()) :
    (s.setHold p i .none).refs i + 1 = s.refs i := by
  have := refs_setHold_self (s := s) (p := p) (i := i) (h := .none)
  rwa [if_pos hold, if_neg nofun] at this

/-- The process goes on with a buffer that it has a reference to. -/
theorem refs_setHold (hold : (s.hold p i).ref = some ()) (hnew : h.ref = some ()) (j : Fin NBUF) :
    (s.setHold p i h).refs j = s.refs j := by
  by_cases hj : j = i
  · subst hj
    have := refs_setHold_self (s := s) (p := p) (i := j) (h := h)
    rw [if_pos hold, if_pos hnew] at this
    omega
  · exact refs_setHold_of_ne hj

end References

/-! ### The invariants -/

section Invariants

variable {P : Type}

/-- Buffer `i` is pinned. -/
def Pinned (dev : ℕ) (s : State P) (pins : List ℕ) (i : Fin NBUF) : Prop :=
  (s.buf i).dev = dev ∧ (s.buf i).blockno ∈ pins

instance (dev : ℕ) (s : State P) (pins : List ℕ) (i : Fin NBUF) : Decidable (Pinned dev s pins i) :=
  inferInstanceAs (Decidable (_ ∧ _))

theorem pinned_congr {dev : ℕ} {s t : State P} {pins : List ℕ} {i : Fin NBUF}
    (h : (t.buf i).dev = (s.buf i).dev ∧ (t.buf i).blockno = (s.buf i).blockno) :
    Pinned dev t pins i ↔ Pinned dev s pins i := by
  rw [Pinned, Pinned, h.1, h.2]

/-- The list of buffers is `l`, and references are counted. -/
structure Cells [Fintype P] (dev : ℕ) (s : State P) (pins : List ℕ) (released : Fin NBUF → ℕ)
    (clock : ℕ) (l : List (Fin NBUF)) : Prop where
  circular : IsCircular none s.links.next s.links.prev (l.map some)
  perm : l.Perm (List.finRange NBUF)
  unique : ∀ i j, (s.buf i).dev ≠ 0 → (s.buf j).dev = (s.buf i).dev →
    (s.buf j).blockno = (s.buf i).blockno → j = i
  order : l.Pairwise fun i j => (s.buf i).refcnt = 0 → (s.buf j).refcnt = 0 →
    released j ≤ released i
  past : ∀ i, released i ≤ clock
  count : ∀ i, (s.buf i).refcnt = s.refs i + if Pinned dev s pins i then 1 else 0
  cached : ∀ b ∈ pins, ∃ i, (s.buf i).dev = dev ∧ (s.buf i).blockno = b
  nodup : pins.Nodup
  lock : ∀ p i, (s.hold p i).locks = true → (s.buf i).lock = some p

end Invariants

/-! ### What `bget` finds -/

namespace Cells

variable {P : Type} [Fintype P] {dev : ℕ} {s t : State P} {pins : List ℕ} {released : Fin NBUF → ℕ}
  {clock : ℕ} {l : List (Fin NBUF)} {i j : Fin NBUF}

theorem mem (h : Cells dev s pins released clock l) (i : Fin NBUF) : i ∈ l :=
  h.perm.mem_iff.2 (List.mem_finRange i)

theorem length (h : Cells dev s pins released clock l) : (l.map some).length < NBUF + 1 := by
  rw [List.length_map, h.perm.length_eq, List.length_finRange]
  exact Nat.lt_succ_self _

theorem lookup_eq (h : Cells dev s pins released clock l) (d b : ℕ) :
    s.lookup d b = (l.find? fun i => s.isFor i d b).map some := by
  rw [State.lookup, h.circular.scan_eq _ h.length, List.find?_map]
  rfl

theorem victim_eq (h : Cells dev s pins released clock l) :
    s.victim = (l.reverse.find? fun i => decide ((s.buf i).refcnt = 0)).map some := by
  have hlen : (l.map some).reverse.length < NBUF + 1 := by
    rw [List.length_reverse]
    exact h.length
  rw [State.victim, h.circular.reverse.scan_eq _ hlen, ← List.map_reverse, List.find?_map]
  rfl

variable {d b clock' : ℕ}

theorem lookup_some (h : Cells dev s pins released clock l)
    (hl : s.lookup d b = some (some i)) : (s.buf i).dev = d ∧ (s.buf i).blockno = b := by
  rw [h.lookup_eq] at hl
  obtain ⟨j, hj, he⟩ := Option.map_eq_some_iff.1 hl
  obtain rfl := Option.some.inj he
  have hfor := List.find?_some hj
  exact isFor_iff.1 hfor

theorem lookup_none (h : Cells dev s pins released clock l)
    (hl : ∀ i, s.lookup d b ≠ some (some i)) (i : Fin NBUF) :
    ¬ ((s.buf i).dev = d ∧ (s.buf i).blockno = b) := by
  intro hi
  rw [h.lookup_eq] at hl
  cases hf : l.find? fun i => s.isFor i d b with
  | none => exact absurd (isFor_iff.2 hi) (by simpa using List.find?_eq_none.1 hf i (h.mem i))
  | some j => exact hl j (by rw [hf]; rfl)

/-- The buffer that is recycled: nobody refers to it, and of the buffers that nobody refers to it
was released first. -/
theorem victim_some (h : Cells dev s pins released clock l) (hv : s.victim = some (some i)) :
    (s.buf i).refcnt = 0 ∧ ∀ j, (s.buf j).refcnt = 0 → released i ≤ released j := by
  rw [h.victim_eq] at hv
  obtain ⟨k, hk, he⟩ := Option.map_eq_some_iff.1 hv
  obtain rfl := Option.some.inj he
  obtain ⟨hzero, as, bs, hsplit, has⟩ := List.find?_eq_some_iff_append.1 hk
  have hzero : (s.buf k).refcnt = 0 := of_decide_eq_true hzero
  refine ⟨hzero, fun j hj => ?_⟩
  have hl : l = bs.reverse ++ k :: as.reverse := by
    rw [← List.reverse_reverse l, hsplit]
    simp
  have hmem := h.mem j
  have horder := h.order
  rw [hl] at hmem horder
  obtain hb | hb := List.mem_append.1 hmem
  · exact (List.pairwise_append.1 horder).2.2 j hb k List.mem_cons_self hj hzero
  · obtain rfl | ha := List.mem_cons.1 hb
    · exact le_rfl
    · have := has j (List.mem_reverse.1 ha)
      simp [hj] at this

/-- Nobody has a reference to a buffer with count `0`, and it is not pinned. -/
theorem of_refcnt_zero (h : Cells dev s pins released clock l) (hi : (s.buf i).refcnt = 0) :
    (∀ p, s.hold p i = .none) ∧ ¬ Pinned dev s pins i := by
  have hc := h.count i
  rw [hi] at hc
  refine ⟨fun p => ?_, fun hp => ?_⟩
  · by_contra hne
    have := refs_pos hne
    omega
  · rw [if_pos hp] at hc
    omega

variable {pins' : List ℕ}

/-- No buffer is used for another block. -/
theorem relist (h : Cells dev s pins released clock l) {released' : Fin NBUF → ℕ}
    {l' : List (Fin NBUF)} (hcirc : IsCircular none t.links.next t.links.prev (l'.map some))
    (hperm : l'.Perm (List.finRange NBUF))
    (hkey : ∀ i, (t.buf i).dev = (s.buf i).dev ∧ (t.buf i).blockno = (s.buf i).blockno)
    (horder : l'.Pairwise fun i j => (t.buf i).refcnt = 0 → (t.buf j).refcnt = 0 →
      released' j ≤ released' i)
    (hpast : ∀ i, released' i ≤ clock')
    (hcount : ∀ i, (t.buf i).refcnt = t.refs i + if Pinned dev s pins' i then 1 else 0)
    (hcached : ∀ b ∈ pins', ∃ i, (s.buf i).dev = dev ∧ (s.buf i).blockno = b)
    (hnodup : pins'.Nodup) (hlock : ∀ p i, (t.hold p i).locks = true → (t.buf i).lock = some p) :
    Cells dev t pins' released' clock' l' where
  circular := hcirc
  perm := hperm
  unique i j := by
    rw [(hkey i).1, (hkey i).2, (hkey j).1, (hkey j).2]
    exact h.unique i j
  order := horder
  past := hpast
  count i := by
    rw [if_congr (pinned_congr (hkey i)) rfl rfl]
    exact hcount i
  cached b hb := by
    obtain ⟨i, hi⟩ := hcached b hb
    exact ⟨i, (hkey i).1.trans hi.1, (hkey i).2.trans hi.2⟩
  nodup := hnodup
  lock := hlock

/-- Nothing happens to the list and to reference counts. -/
theorem keep (h : Cells dev s pins released clock l) (hlinks : t.links = s.links)
    (hbuf : ∀ i, ((t.buf i).dev = (s.buf i).dev ∧ (t.buf i).blockno = (s.buf i).blockno) ∧
      (t.buf i).refcnt = (s.buf i).refcnt) (hrefs : ∀ i, t.refs i = s.refs i)
    (hlock : ∀ p i, (t.hold p i).locks = true → (t.buf i).lock = some p) :
    Cells dev t pins released clock l := by
  refine h.relist (hlinks ▸ h.circular) h.perm (fun i => (hbuf i).1)
    (h.order.imp fun {i j} hij => ?_) h.past (fun i => ?_) h.cached h.nodup hlock
  · rw [(hbuf i).2, (hbuf j).2]
    exact hij
  · rw [(hbuf i).2, hrefs, h.count i]

theorem congr (h : Cells dev s pins released clock l) (hbuf : t.buf = s.buf)
    (hlinks : t.links = s.links) (hhold : t.hold = s.hold) : Cells dev t pins released clock l := by
  refine h.keep hlinks (fun i => ?_) (fun i => refs_congr fun p => by rw [hhold]) fun p i hp => ?_
  · rw [hbuf]
    exact ⟨⟨rfl, rfl⟩, rfl⟩
  · rw [hbuf]
    exact h.lock p i (hhold ▸ hp)

/-- Only the count of one buffer changes. -/
theorem count_of (h : Cells dev s pins released clock l) {i : Fin NBUF}
    (hi : (t.buf i).refcnt = t.refs i + if Pinned dev s pins' i then 1 else 0)
    (hne : ∀ j, j ≠ i → (t.buf j).refcnt = (s.buf j).refcnt ∧ t.refs j = s.refs j ∧
      (Pinned dev s pins' j ↔ Pinned dev s pins j)) (j : Fin NBUF) :
    (t.buf j).refcnt = t.refs j + if Pinned dev s pins' j then 1 else 0 := by
  by_cases hji : j = i
  · rw [hji]
    exact hi
  · obtain ⟨hr, href, hpin⟩ := hne j hji
    rw [hr, href, if_congr hpin rfl rfl]
    exact h.count j

/-- The count of one buffer changes, and does not become `0`. -/
theorem recount (h : Cells dev s pins released clock l)
    {released' : Fin NBUF → ℕ} (i : Fin NBUF) (hlinks : t.links = s.links)
    (hkey : ∀ j, (t.buf j).dev = (s.buf j).dev ∧ (t.buf j).blockno = (s.buf j).blockno)
    (hpos : 0 < (t.buf i).refcnt)
    (hi : (t.buf i).refcnt = t.refs i + if Pinned dev s pins' i then 1 else 0)
    (hne : ∀ j, j ≠ i → (t.buf j).refcnt = (s.buf j).refcnt ∧ t.refs j = s.refs j ∧
      (Pinned dev s pins' j ↔ Pinned dev s pins j))
    (hrel : ∀ j, j ≠ i → released' j = released j) (hpast : ∀ j, released' j ≤ clock')
    (hcached : ∀ b ∈ pins', ∃ i, (s.buf i).dev = dev ∧ (s.buf i).blockno = b)
    (hnodup : pins'.Nodup) (hlock : ∀ p i, (t.hold p i).locks = true → (t.buf i).lock = some p) :
    Cells dev t pins' released' clock' l := by
  refine h.relist (hlinks ▸ h.circular) h.perm hkey (h.order.imp fun {j k} hjk hj hk => ?_) hpast
    (h.count_of hi hne) hcached hnodup hlock
  have hji : j ≠ i := fun he => absurd (he ▸ hj) hpos.ne'
  have hki : k ≠ i := fun he => absurd (he ▸ hk) hpos.ne'
  rw [hrel j hji, hrel k hki]
  exact hjk ((hne j hji).1 ▸ hj) ((hne k hki).1 ▸ hk)

/-- `bpin`, for a block that is not pinned. -/
theorem bpin (h : Cells dev s pins released clock l) (hdev : dev ≠ 0) (hi : (s.buf i).dev = dev)
    (hnew : (s.buf i).blockno ∉ pins) :
    Cells dev (s.upd i fun b => { b with refcnt := b.refcnt + 1 }) (pins ++ [(s.buf i).blockno])
      released clock l := by
  have hself : ((s.upd i fun b => { b with refcnt := b.refcnt + 1 }).buf i).refcnt =
      (s.buf i).refcnt + 1 := by
    rw [upd_buf_self]
  refine h.recount i rfl (upd_key fun b => by exact ⟨rfl, rfl⟩) (hself ▸ Nat.succ_pos _) ?_
    (fun j hj => ⟨?_, rfl, ?_⟩) (fun _ _ => rfl) h.past (fun b hb => ?_) ?_ fun q j hq => ?_
  · have hold : ¬ Pinned dev s pins i := fun hp => hnew hp.2
    rw [hself, h.count i, if_neg hold,
      if_pos ⟨hi, List.mem_append_right _ (List.mem_singleton.2 rfl)⟩]
    rfl
  · rw [upd_buf_of_ne _ hj]
  · refine ⟨fun hp => ⟨hp.1, ?_⟩, fun hp => ⟨hp.1, List.mem_append_left _ hp.2⟩⟩
    obtain hb | hb := List.mem_append.1 hp.2
    · exact hb
    · exact absurd (h.unique i j (hi ▸ hdev) (hp.1.trans hi.symm) (List.mem_singleton.1 hb)) hj
  · obtain hb | hb := List.mem_append.1 hb
    · exact h.cached b hb
    · exact ⟨i, hi, (List.mem_singleton.1 hb).symm⟩
  · rw [← List.concat_eq_append]
    exact h.nodup.concat hnew
  · rw [upd_lock fun b => by rfl]
    exact h.lock q j hq

/-- `bunpin`, by a process that has the buffer. -/
theorem bunpin (h : Cells dev s pins released clock l) (hdev : dev ≠ 0) (hpin : Pinned dev s pins i)
    {p : P} (hold : s.hold p i ≠ .none) :
    Cells dev (s.upd i fun b => { b with refcnt := b.refcnt - 1 }) (pins.erase (s.buf i).blockno)
      released clock l := by
  have hself : ((s.upd i fun b => { b with refcnt := b.refcnt - 1 }).buf i).refcnt = s.refs i := by
    rw [upd_buf_self]
    change (s.buf i).refcnt - 1 = _
    rw [h.count i, if_pos hpin]
    rfl
  refine h.recount i rfl (upd_key fun b => by exact ⟨rfl, rfl⟩) (hself ▸ refs_pos hold) ?_
    (fun j hj => ⟨?_, rfl, ?_⟩) (fun _ _ => rfl) h.past
    (fun b hb => h.cached b (List.mem_of_mem_erase hb))
    (h.nodup.erase _) fun q j hq => ?_
  · have hgone : ¬ Pinned dev s (pins.erase (s.buf i).blockno) i :=
      fun hp => h.nodup.not_mem_erase hp.2
    rw [hself, if_neg hgone]
    rfl
  · rw [upd_buf_of_ne _ hj]
  · refine ⟨fun hp => ⟨hp.1, List.mem_of_mem_erase hp.2⟩, fun hp => ⟨hp.1, ?_⟩⟩
    refine (List.mem_erase_of_ne fun hb => hj ?_).2 hp.2
    exact h.unique i j (hpin.1 ▸ hdev) (hp.1.trans hpin.1.symm) hb
  · rw [upd_lock fun b => by rfl]
    exact h.lock q j hq

variable [DecidableEq P] {p : P}

/-- A process goes on with a buffer that it has a reference to: it may get the lock, and keep it or
give it up. -/
theorem goOn (h : Cells dev s pins released clock l) (f : Buf P → Buf P) {st : Stage}
    (hf : ∀ b, ((f b).dev = b.dev ∧ (f b).blockno = b.blockno) ∧ (f b).refcnt = b.refcnt)
    (hold : (s.hold p i).ref = some ()) (hst : st.ref = some ())
    (hfree : (s.hold p i).locks = true ∨ (s.buf i).lock = none)
    (hlock : st.locks = true → (f (s.buf i)).lock = some p) :
    Cells dev ((s.upd i f).setHold p i st) pins released clock l := by
  refine h.keep rfl (fun j => ?_) (fun j => ?_) fun q j hq => ?_
  · rw [setHold_buf]
    by_cases hj : j = i
    · subst hj
      rw [upd_buf_self]
      exact hf _
    · rw [upd_buf_of_ne f hj]
      exact ⟨⟨rfl, rfl⟩, rfl⟩
  · exact refs_setHold (s := s.upd i f) hold hst j
  · rw [setHold_buf]
    by_cases hj : j = i
    · subst hj
      rw [upd_buf_self]
      by_cases hqp : q = p
      · subst hqp
        rw [setHold_hold_self] at hq
        exact hlock hq
      · -- nobody else has the lock
        rw [setHold_hold_of_ne (.inl hqp), upd_hold] at hq
        have hq' := h.lock q j hq
        obtain hp | hp := hfree
        · exact absurd (Option.some.inj (hq'.symm.trans (h.lock p j hp))) hqp
        · cases hq'.symm.trans hp
    · rw [upd_buf_of_ne f hj]
      rw [setHold_hold_of_ne (.inr hj), upd_hold] at hq
      exact h.lock q j hq

theorem lock_setHold (h : Cells dev s pins released clock l) (st : Stage)
    (hst : st.locks = true → (s.hold p i).locks = true) {q : P}
    (hq : ((s.setHold p i st).hold q j).locks = true) : (s.buf j).lock = some q := by
  by_cases hqj : q = p ∧ j = i
  · obtain ⟨rfl, rfl⟩ := hqj
    rw [setHold_hold_self] at hq
    exact h.lock q j (hst hq)
  · rw [setHold_hold_of_ne (Decidable.not_and_iff_or_not.1 hqj)] at hq
    exact h.lock q j hq

/-- The block is cached. -/
theorem hit (h : Cells dev s pins released clock l) (hold : s.hold p i = .none) :
    Cells dev (s.hit p i) pins released clock l := by
  have hself : ((s.hit p i).buf i).refcnt = (s.buf i).refcnt + 1 := by
    rw [State.hit, setHold_buf, upd_buf_self]
  have hrefs : (s.hit p i).refs i = s.refs i + 1 :=
    refs_enter (s := s.upd i fun b => { b with refcnt := b.refcnt + 1 }) hold rfl
  refine h.recount i rfl (fun j => ?_) (hself ▸ Nat.succ_pos _) ?_ (fun j hj => ⟨?_, ?_, Iff.rfl⟩)
    (fun _ _ => rfl) h.past h.cached h.nodup fun q j hq => ?_
  · rw [State.hit, setHold_buf]
    exact upd_key (fun b => by exact ⟨rfl, rfl⟩) j
  · rw [hself, hrefs, h.count i]
    omega
  · rw [State.hit, setHold_buf, upd_buf_of_ne _ hj]
  · exact refs_setHold_of_ne hj
  · rw [State.hit, setHold_buf]
    refine (upd_lock (fun b => by rfl) j).trans (h.lock_setHold (p := p) (i := i) .waiting nofun ?_)
    exact hq

/-- A buffer is recycled. -/
theorem recycle (h : Cells dev s pins released clock l) (hi : (s.buf i).refcnt = 0)
    (hnone : ∀ j, ¬ ((s.buf j).dev = d ∧ (s.buf j).blockno = b)) :
    Cells dev (s.recycle p i d b) pins released clock l := by
  obtain ⟨hhold, hpin⟩ := h.of_refcnt_zero hi
  have hself : (s.recycle p i d b).buf i =
      { s.buf i with dev := d, blockno := b, valid := false, refcnt := 1 } := by
    rw [State.recycle, setHold_buf, upd_buf_self]
  have hother {j : Fin NBUF} (hj : j ≠ i) : (s.recycle p i d b).buf j = s.buf j := by
    rw [State.recycle, setHold_buf, upd_buf_of_ne _ hj]
  refine ⟨h.circular, h.perm, fun j k hj hd hb => ?_, ?_, h.past, fun j => ?_, fun c hc => ?_,
    h.nodup, fun q j hq => ?_⟩
  · by_cases hji : j = i <;> by_cases hki : k = i
    · rw [hji, hki]
    · rw [hji, hself, hother hki] at hd hb
      exact absurd ⟨hd, hb⟩ (hnone k)
    · rw [hki, hself, hother hji] at hd hb
      exact absurd ⟨hd.symm, hb.symm⟩ (hnone j)
    · rw [hother hji, hother hki] at hd hb
      rw [hother hji] at hj
      exact h.unique j k hj hd hb
  · refine h.order.imp fun {j k} hjk hj hk => ?_
    have hji : j ≠ i := by
      rintro rfl
      rw [hself] at hj
      exact absurd hj one_ne_zero
    have hki : k ≠ i := by
      rintro rfl
      rw [hself] at hk
      exact absurd hk one_ne_zero
    rw [hother hji] at hj
    rw [hother hki] at hk
    exact hjk hj hk
  · by_cases hji : j = i
    · subst hji
      have hnew : ¬ Pinned dev (s.recycle p j d b) pins j := by
        rintro ⟨hd, hb⟩
        rw [hself] at hd hb
        obtain ⟨k, hk⟩ := h.cached b hb
        exact hnone k ⟨hk.1.trans hd.symm, hk.2⟩
      have hrefs : (s.recycle p j d b).refs j = s.refs j + 1 :=
        refs_enter (s := s.upd j fun bf =>
          { bf with dev := d, blockno := b, valid := false, refcnt := 1 }) (hhold p) rfl
      have hcount := h.count j
      rw [if_neg hnew, hself, hrefs]
      change 1 = s.refs j + 1 + 0
      omega
    · have href : (s.recycle p i d b).refs j = s.refs j := refs_setHold_of_ne hji
      rw [href, if_congr (pinned_congr (s := s) (by rw [hother hji]; exact ⟨rfl, rfl⟩)) rfl rfl,
        hother hji]
      exact h.count j
  · obtain ⟨k, hk⟩ := h.cached c hc
    have hki : k ≠ i := fun he => hpin (he ▸ ⟨hk.1, hk.2 ▸ hc⟩)
    exact ⟨k, by rw [hother hki]; exact hk⟩
  · rw [State.recycle, setHold_buf]
    refine (upd_lock (fun b => by rfl) j).trans (h.lock_setHold (p := p) (i := i) .waiting nofun ?_)
    exact hq

theorem setHold (h : Cells dev s pins released clock l) (st : Stage)
    (hold : (s.hold p i).locks = true) (hst : st.ref = some ()) :
    Cells dev (s.setHold p i st) pins released clock l :=
  h.keep rfl (fun _ => ⟨⟨rfl, rfl⟩, rfl⟩) (fun j => refs_setHold (ref_of_locks hold) hst j)
    fun _ _ hq => h.lock_setHold st (fun _ => hold) hq

/-- The end of `brelse`. -/
theorem unref (h : Cells dev s pins released clock l) (hold : s.hold p i = .leaving) :
    ∃ l', Cells dev (s.unref p i) pins (update released i (clock + 1)) (clock + 1) l' := by
  have href : (s.hold p i).ref = some () := by rw [hold]; rfl
  let t := (s.upd i fun b => { b with refcnt := b.refcnt - 1 }).setHold p i .none
  have hself : (t.buf i).refcnt = (s.buf i).refcnt - 1 := by
    rw [setHold_buf, upd_buf_self]
  have hrefs : t.refs i + 1 = s.refs i :=
    refs_leave (s := s.upd i fun b => { b with refcnt := b.refcnt - 1 }) href
  have hkey (j : Fin NBUF) : (t.buf j).dev = (s.buf j).dev ∧
      (t.buf j).blockno = (s.buf j).blockno := by
    rw [setHold_buf]
    exact upd_key (fun b => by exact ⟨rfl, rfl⟩) j
  have hne (j : Fin NBUF) (hj : j ≠ i) : (t.buf j).refcnt = (s.buf j).refcnt ∧ t.refs j = s.refs j ∧
      (Pinned dev s pins j ↔ Pinned dev s pins j) :=
    ⟨by rw [setHold_buf, upd_buf_of_ne _ hj], refs_setHold_of_ne hj, Iff.rfl⟩
  have hcount : (t.buf i).refcnt = t.refs i + if Pinned dev s pins i then 1 else 0 := by
    rw [hself, h.count i]
    omega
  have hlock (q : P) (j : Fin NBUF) (hq : (t.hold q j).locks = true) : (t.buf j).lock = some q := by
    rw [setHold_buf]
    refine (upd_lock (fun b => by rfl) j).trans (h.lock_setHold (p := p) (i := i) .none nofun ?_)
    exact hq
  have hpast (j : Fin NBUF) : update released i (clock + 1) j ≤ clock + 1 := by
    by_cases hj : j = i
    · rw [hj, update_self]
    · rw [update_of_ne hj]
      exact (h.past j).trans (Nat.le_succ _)
  rw [State.unref]
  split_ifs with hzero
  · -- nobody refers to the buffer any more: it moves to the front
    have hnodup : l.Nodup := h.perm.nodup_iff.2 (List.nodup_finRange _)
    obtain ⟨l₁, l₂, rfl⟩ := List.append_of_mem (h.mem i)
    have hmem {j : Fin NBUF} (hj : j ∈ l₁ ++ l₂) : j ≠ i :=
      fun he => (List.nodup_middle.1 hnodup).notMem (he ▸ hj)
    have hcirc := h.circular
    rw [List.map_append, List.map_cons] at hcirc
    have hmove := hcirc.unlink_push
    rw [← List.map_append, ← List.map_cons] at hmove
    refine ⟨i :: (l₁ ++ l₂), h.relist hmove (List.perm_middle.symm.trans h.perm) hkey ?_ hpast
      (h.count_of hcount hne) h.cached h.nodup hlock⟩
    refine List.pairwise_cons.2 ⟨fun j hj _ _ => ?_, ?_⟩
    · rw [update_self]
      exact hpast j
    · have hsub : (l₁ ++ l₂).Sublist (l₁ ++ i :: l₂) :=
        (List.Sublist.refl l₁).append (List.sublist_cons_self i l₂)
      refine (h.order.sublist hsub).imp_of_mem fun {j k} hj hk hjk hzj hzk => ?_
      rw [update_of_ne (hmem hj), update_of_ne (hmem hk)]
      exact hjk ((hne j (hmem hj)).1 ▸ hzj) ((hne k (hmem hk)).1 ▸ hzk)
  · exact ⟨l, h.recount i rfl hkey (hself ▸ Nat.pos_of_ne_zero hzero) hcount hne
      (fun j hj => update_of_ne hj _ _) hpast h.cached h.nodup hlock⟩

end Cells

/-! ### After `binit` -/

theorem isCircular_foldl_push (xs l : List (Fin NBUF)) (k : Links)
    (h : IsCircular none k.next k.prev (l.map some)) (hnodup : (xs ++ l).Nodup) :
    IsCircular none (xs.foldl Links.push k).next (xs.foldl Links.push k).prev
      ((xs.reverse ++ l).map some) := by
  induction xs generalizing l k with
  | nil => exact h
  | cons i xs ih =>
    obtain ⟨hi, hxs⟩ := List.nodup_cons.1 hnodup
    have hil : some i ∉ l.map some := fun hm => by
      obtain ⟨j, hj, he⟩ := List.mem_map.1 hm
      exact hi (List.mem_append_right _ (Option.some.inj he ▸ hj))
    have := ih (i :: l) (k.push i) (h.push hil (Option.some_ne_none i))
      (List.nodup_middle.2 (List.nodup_cons.2 ⟨hi, hxs⟩))
    rw [List.reverse_cons, List.append_assoc]
    exact this

theorem cells_init {P : Type} [Fintype P] (dev : ℕ) (disk : ℕ → ℕ → Block) :
    Cells dev (init disk : State P) [] (fun _ => 0) 0 (List.finRange NBUF).reverse where
  circular := by
    have h := isCircular_foldl_push (List.finRange NBUF) [] ⟨fun _ => none, fun _ => none⟩
      ⟨List.nodup_singleton _, List.isChain_cons_cons.2 ⟨⟨rfl, rfl⟩, List.isChain_singleton _⟩⟩
      (by rw [List.append_nil]; exact List.nodup_finRange _)
    rwa [List.append_nil] at h
  perm := List.reverse_perm _
  unique _ _ h := absurd rfl h
  order := List.pairwise_of_forall fun _ _ _ _ => le_rfl
  past _ := le_rfl
  count i := by
    rw [if_neg fun h => List.not_mem_nil h.2]
    exact (holders_eq_zero (fun _ => rfl) ()).symm
  cached _ hb := absurd hb List.not_mem_nil
  nodup := List.nodup_nil
  lock _ _ h := absurd h Bool.false_ne_true

end Xv6.Bio
