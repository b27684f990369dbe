import Xv6.Cache.Clean

/-!
# The buffer cache returns the latest contents

A block whose contents are not on the disk is in the cache: somebody is changing its buffer, or the
buffer is pinned. So a buffer may be recycled without being written, and what is read from the disk
later is the latest contents of the block.

This depends on the callers. A buffer that has been changed is passed to `log_write` or `bwrite`
before it is released, contents are changed in a transaction and so not during `commit`, and blocks
of the log itself are not logged. Of `commit` nothing is assumed. It must not bring back older
contents: what `install_trans` copies home is what `write_log` has copied from there, and nobody has
changed it since.
-/

namespace Xv6.Bio

/-- What the file system does: it changes contents while nobody commits, it logs blocks outside the
log, and it releases a buffer only after it has passed on what it has changed. -/
def Disciplined {P : Type} (L : LogArea) (s : State P) (e : P × Act) : Prop :=
  match e.2 with
  | .write _ _ => s.committing = false
  | .logWrite i => L.IsHome (s.buf i).blockno
  | .release i => s.code e.1 = [] → s.hold e.1 i ≠ .ready true
  | _ => True

instance {P : Type} (L : LogArea) (s : State P) (e : P × Act) : Decidable (Disciplined L s e) :=
  match e with
  | (_, .write _ _) => inferInstanceAs (Decidable (_ = _))
  | (_, .logWrite _) => inferInstanceAs (Decidable (L.IsHome _))
  | (p, .release i) => inferInstanceAs (Decidable (s.code p = [] → s.hold p i ≠ .ready true))
  | (_, .bget _ _) | (_, .acquire _) | (_, .read _) | (_, .bwrite _) | (_, .bunpin _)
  | (_, .unref _) | (_, .beginOp) | (_, .endOp) | (_, .copy _ _) | (_, .head _) | (_, .clear)
  | (_, .finish) => inferInstanceAs (Decidable True)

section Contents

variable {P : Type}

/-- Somebody has changed the buffer, and not passed it on yet. -/
def Dirty (s : State P) (i : Fin NBUF) : Prop := ∃ p, s.hold p i = .ready true

/-- Where the latest contents of blocks are. -/
structure Coherent (dev : ℕ) (s : State P) (pins : List ℕ) (latest : ℕ → ℕ → Block) : Prop where
  fresh : ∀ i, (s.buf i).dev ≠ 0 → (s.buf i).valid = true →
    (s.buf i).data = latest (s.buf i).dev (s.buf i).blockno
  stored : ∀ i, (s.buf i).dev ≠ 0 → (s.buf i).valid = true →
    s.disk (s.buf i).dev (s.buf i).blockno = (s.buf i).data ∨ Pinned dev s pins i ∨ Dirty s i
  uncached : ∀ d b, d ≠ 0 →
    (∀ i, (s.buf i).valid = true → ¬ ((s.buf i).dev = d ∧ (s.buf i).blockno = b)) →
    s.disk d b = latest d b
  ready : ∀ p i, s.has p i = true → (s.buf i).valid = true

/-- Buffers are for the same blocks, with the same contents. -/
def SameContents (s t : State P) : Prop := ∀ i,
  ((t.buf i).dev = (s.buf i).dev ∧ (t.buf i).blockno = (s.buf i).blockno) ∧
    (t.buf i).valid = (s.buf i).valid ∧ (t.buf i).data = (s.buf i).data

theorem SameContents.refl (s : State P) : SameContents s s := fun _ => ⟨⟨rfl, rfl⟩, rfl, rfl⟩

variable {L : LogArea} {dev : ℕ} {s t : State P} {p : P} {i j : Fin NBUF} {pins pins' : List ℕ}
  {latest latest' : ℕ → ℕ → Block}

theorem sameContents_upd {f : Buf P → Buf P} (hf : ∀ b, ((f b).dev = b.dev ∧
    (f b).blockno = b.blockno) ∧ (f b).valid = b.valid ∧ (f b).data = b.data) :
    SameContents s (s.upd i f) := fun j => by
  by_cases hj : j = i
  · subst hj
    rw [upd_buf_self]
    exact hf _
  · rw [upd_buf_of_ne f hj]
    exact ⟨⟨rfl, rfl⟩, rfl, rfl⟩

/-- No contents are changed, in the cache and on the disk. -/
theorem Coherent.calm (h : Coherent dev s pins latest) (hbuf : SameContents s t)
    (hdisk : t.disk = s.disk) (hhas : ∀ p i, t.has p i = true → s.has p i = true)
    (hstored : ∀ i, Pinned dev s pins i ∨ Dirty s i →
      s.disk (s.buf i).dev (s.buf i).blockno = (s.buf i).data ∨ Pinned dev s pins' i ∨ Dirty t i) :
    Coherent dev t pins' latest where
  fresh i := by
    obtain ⟨⟨hd, hb⟩, hv, hdata⟩ := hbuf i
    rw [hd, hb, hv, hdata]
    exact h.fresh i
  stored i := by
    obtain ⟨⟨hd, hb⟩, hv, hdata⟩ := hbuf i
    rw [hd, hb, hv, hdata, hdisk, pinned_congr ⟨hd, hb⟩]
    exact fun hne hvalid => (h.stored i hne hvalid).elim .inl (hstored i)
  uncached d b hd hno := by
    rw [hdisk]
    refine h.uncached d b hd fun i hv => ?_
    obtain ⟨⟨hd', hb'⟩, hv', -⟩ := hbuf i
    have := hno i (hv'.trans hv)
    rwa [hd', hb'] at this
  ready p i hp := (hbuf i).2.1.trans (h.ready p i (hhas p i hp))

section Home

variable [Fintype P] {released : Fin NBUF → ℕ} {clock : ℕ} {l : List (Fin NBUF)}

/-- `bunpin`: the buffer has been written home. -/
theorem Coherent.bunpin (h : Coherent dev s pins latest) (hc : Cells dev s pins released clock l)
    (hdev : dev ≠ 0) (hd : (s.buf i).dev = dev)
    (hhome : s.disk (s.buf i).dev (s.buf i).blockno = (s.buf i).data) :
    Coherent dev (s.upd i fun b => { b with refcnt := b.refcnt - 1 })
      (pinsAfter s pins (.bunpin i)) latest := by
  refine h.calm (sameContents_upd fun _ => ⟨⟨rfl, rfl⟩, rfl, rfl⟩) rfl (fun _ _ hq => hq)
    fun j hj => ?_
  by_cases hji : j = i
  · exact .inl (hji ▸ hhome)
  · refine .inr (hj.imp_left fun hp => ⟨hp.1, (List.mem_erase_of_ne fun hb => hji ?_).2 hp.2⟩)
    exact hc.unique i j (hd ▸ hdev) (hp.1.trans hd.symm) hb

end Home

section Holds

variable [DecidableEq P] {st : Stage}

theorem dirty_setHold (hp : s.hold p i ≠ .ready true) (h : Dirty s j) :
    Dirty (s.setHold p i st) j := by
  obtain ⟨q, hq⟩ := h
  refine ⟨q, ?_⟩
  by_cases hqj : q = p ∧ j = i
  · exact absurd (hqj.1 ▸ hqj.2 ▸ hq) hp
  · rw [setHold_hold_of_ne (Decidable.not_and_iff_or_not.1 hqj)]
    exact hq

theorem has_of_setHold {q : P} (hst : (∃ d, st = .ready d) → s.has p i = true)
    (h : (s.setHold p i st).has q j = true) : s.has q j = true := by
  by_cases hqj : q = p ∧ j = i
  · obtain ⟨rfl, rfl⟩ := hqj
    obtain ⟨d, hd⟩ := has_iff.1 h
    rw [setHold_hold_self] at hd
    exact hst ⟨d, hd⟩
  · rw [State.has, setHold_hold_of_ne (Decidable.not_and_iff_or_not.1 hqj)] at h
    exact h

/-- A process goes on with a buffer that is not dirty, and does not change it. -/
theorem Coherent.goOn (h : Coherent dev s pins latest) {f : Buf P → Buf P} (st : Stage)
    (hf : ∀ b, ((f b).dev = b.dev ∧ (f b).blockno = b.blockno) ∧ (f b).valid = b.valid ∧
      (f b).data = b.data) (hp : s.hold p i ≠ .ready true) (hst : ∀ d, st ≠ .ready d) :
    Coherent dev ((s.upd i f).setHold p i st) pins latest := by
  refine h.calm (t := (s.upd i f).setHold p i st) (sameContents_upd hf) rfl (fun q j hq => ?_)
    fun j hj => .inr (hj.imp_right fun hd => ?_)
  · exact has_of_setHold (s := s.upd i f) (fun ⟨d, hd⟩ => absurd hd (hst d)) hq
  · exact dirty_setHold (s := s.upd i f) hp hd

/-- `log_write`: the buffer is pinned, if it was not before. -/
theorem Coherent.record (h : Coherent dev s pins latest) (hhas : s.has p i = true)
    (hd : (s.buf i).dev = dev) (hpins : pins = s.lh) :
    Coherent dev (s.record p i) (pinsAfter s pins (.logWrite i)) latest := by
  have hsame : SameContents s (s.record p i) := by
    rw [State.record]
    split_ifs
    · exact .refl s
    · exact sameContents_upd (s := s) (i := i) (f := fun b => { b with refcnt := b.refcnt + 1 })
        fun _ => ⟨⟨rfl, rfl⟩, rfl, rfl⟩
  have hhold : (s.record p i).hold = (s.setHold p i (.ready false)).hold := by
    rw [State.record]
    split_ifs <;> rfl
  have hdisk : (s.record p i).disk = s.disk := by
    rw [State.record]
    split_ifs <;> rfl
  have hmem {c : ℕ} (hb : c ∈ pins ∨ c = (s.buf i).blockno) :
      c ∈ pinsAfter s pins (.logWrite i) := by
    rw [pinsAfter]
    split_ifs with hin
    · exact hb.elim id fun he => he ▸ hpins ▸ hin
    · exact List.mem_append.2 (hb.imp_right List.mem_singleton.2)
  refine h.calm hsame hdisk (fun q j hq => ?_) fun j hj => .inr ?_
  · rw [State.has, hhold] at hq
    exact has_of_setHold (fun _ => hhas) hq
  · by_cases hji : j = i
    · exact .inl ⟨hji ▸ hd, hmem (.inr (by rw [hji]))⟩
    · obtain hp | ⟨q, hq⟩ := hj
      · exact .inl ⟨hp.1, hmem (.inl hp.2)⟩
      · refine .inr ⟨q, ?_⟩
        rw [hhold, setHold_hold_of_ne (.inr hji)]
        exact hq

variable [Fintype P] {released : Fin NBUF → ℕ} {clock : ℕ} {l : List (Fin NBUF)} {d b : ℕ}

/-- A buffer is recycled: the contents of its old block are on the disk. -/
theorem Coherent.recycle (h : Coherent dev s pins latest) (hc : Cells dev s pins released clock l)
    (hi : (s.buf i).refcnt = 0) : Coherent dev (s.recycle p i d b) pins latest := by
  obtain ⟨hhold, hpin⟩ := hc.of_refcnt_zero hi
  have hself : (s.recycle p i d b).buf i =
      { s.buf i with dev := d, blockno := b, valid := false, refcnt := 1 } := by
    rw [State.recycle, setHold_buf, upd_buf_self]
  have hother {j : Fin NBUF} (hj : j ≠ i) : (s.recycle p i d b).buf j = s.buf j := by
    rw [State.recycle, setHold_buf, upd_buf_of_ne _ hj]
  have hvalid {j : Fin NBUF} (hj : ((s.recycle p i d b).buf j).valid = true) : j ≠ i := by
    rintro rfl
    rw [hself] at hj
    exact absurd hj Bool.false_ne_true
  refine ⟨fun j hd hv => ?_, fun j hd hv => ?_, fun d' b' hd' hno => ?_, fun q j hq => ?_⟩
  · have hj := hvalid hv
    rw [hother hj] at hd hv ⊢
    exact h.fresh j hd hv
  · have hj := hvalid hv
    rw [hother hj] at hd hv ⊢
    refine (h.stored j hd hv).imp_right (Or.imp ?_ ?_)
    · exact (pinned_congr (by rw [hother hj]; exact ⟨rfl, rfl⟩)).2
    · exact dirty_setHold (s := s.upd i _) (by rw [upd_hold, hhold p]; simp)
  · by_cases hkey : (s.buf i).valid = true ∧ (s.buf i).dev = d' ∧ (s.buf i).blockno = b'
    · -- the block that the buffer was for
      obtain ⟨hv, rfl, rfl⟩ := hkey
      have hclean : ¬ ∃ q, s.hold q i = .ready true := by
        rintro ⟨q, hq⟩
        cases (hhold q).symm.trans hq
      have hdisk := (h.stored i hd' hv).resolve_right (not_or.2 ⟨hpin, hclean⟩)
      exact hdisk.trans (h.fresh i hd' hv)
    · refine h.uncached d' b' hd' fun j hv hk => ?_
      have hj : j ≠ i := fun he => hkey (he ▸ ⟨hv, hk⟩)
      exact hno j (by rw [hother hj]; exact hv) (by rw [hother hj]; exact hk)
  · have hq' : s.has q j = true := has_of_setHold (s := s.upd i _) (by simp) hq
    have hj : j ≠ i := by
      rintro rfl
      obtain ⟨r, hr⟩ := has_iff.1 hq'
      cases (hhold q).symm.trans hr
    rw [hother hj]
    exact h.ready q j hq'

/-- What is missing is read from the disk. -/
theorem Coherent.read (h : Coherent dev s pins latest) (hc : Cells dev s pins released clock l)
    (hhold : s.hold p i = .locked) : Coherent dev (s.read p i) pins latest := by
  cases hv : (s.buf i).valid with
  | true =>
    have hread : s.read p i = s.setHold p i (.ready false) := by
      have hself : (if (s.buf i).valid then s.buf i
          else { s.buf i with data := s.disk (s.buf i).dev (s.buf i).blockno, valid := true }) =
          s.buf i := if_pos hv
      rw [State.read, State.upd, hself, Function.update_eq_self]
    rw [hread]
    have hne : s.hold p i ≠ .ready true := by rw [hhold]; simp
    refine ⟨h.fresh, fun j hd hv => ?_, h.uncached, fun q j hq => ?_⟩
    · exact (h.stored j hd hv).imp_right (Or.imp_right (dirty_setHold hne))
    · by_cases hj : j = i
      · exact hj ▸ hv
      · rw [State.has, setHold_hold_of_ne (.inr hj)] at hq
        exact h.ready q j hq
  | false =>
    have hself : (s.read p i).buf i =
        { s.buf i with data := s.disk (s.buf i).dev (s.buf i).blockno, valid := true } := by
      rw [State.read, setHold_buf, upd_buf_self, if_neg (by rw [hv]; exact Bool.false_ne_true)]
    have hother {j : Fin NBUF} (hj : j ≠ i) : (s.read p i).buf j = s.buf j := by
      rw [State.read, setHold_buf, upd_buf_of_ne _ hj]
    refine ⟨fun j hd hvj => ?_, fun j hd hvj => ?_, fun d b hd hno => ?_, fun q j hq => ?_⟩
    · by_cases hj : j = i
      · subst hj
        rw [hself] at hd ⊢
        -- no other buffer is for this block
        refine h.uncached _ _ hd fun k hk hkey => ?_
        obtain rfl := hc.unique j k hd hkey.1 hkey.2
        exact absurd (hk.symm.trans hv) (by simp)
      · rw [hother hj] at hd hvj ⊢
        exact h.fresh j hd hvj
    · by_cases hj : j = i
      · subst hj
        rw [hself]
        exact .inl rfl
      · rw [hother hj] at hd hvj ⊢
        refine (h.stored j hd hvj).imp_right (Or.imp ?_ ?_)
        · exact (pinned_congr (by rw [hother hj]; exact ⟨rfl, rfl⟩)).2
        · exact dirty_setHold (s := s.upd i _) (by rw [upd_hold, hhold]; simp)
    · refine h.uncached d b hd fun j hvj hk => ?_
      have hj : j ≠ i := by
        rintro rfl
        exact absurd (hvj.symm.trans hv) (by simp)
      exact hno j (by rw [hother hj]; exact hvj) (by rw [hother hj]; exact hk)
    · by_cases hj : j = i
      · rw [hj, hself]
      · rw [hother hj]
        rw [State.has, State.read, setHold_hold_of_ne (.inr hj)] at hq
        exact h.ready q j hq

/-- The contents of a buffer are changed, and so are those of its block. -/
theorem Coherent.put (h : Coherent dev s pins latest) (hc : Cells dev s pins released clock l)
    (hhas : s.has p i = true) {v : Block} (hv : latest' (s.buf i).dev (s.buf i).blockno = v)
    (hlatest : ∀ d b, ¬ ((s.buf i).dev = d ∧ (s.buf i).blockno = b) → latest' d b = latest d b) :
    Coherent dev (s.put p i v) pins latest' := by
  have hself : (s.put p i v).buf i = { s.buf i with data := v } := by
    rw [State.put, setHold_buf, upd_buf_self]
  have hother {j : Fin NBUF} (hj : j ≠ i) : (s.put p i v).buf j = s.buf j := by
    rw [State.put, setHold_buf, upd_buf_of_ne _ hj]
  have hkey {j : Fin NBUF} (hj : j ≠ i) (hd : (s.buf j).dev ≠ 0) :
      ¬ ((s.buf i).dev = (s.buf j).dev ∧ (s.buf i).blockno = (s.buf j).blockno) :=
    fun hk => hj (hc.unique j i hd hk.1 hk.2).symm
  refine ⟨fun j hd hvj => ?_, fun j hd hvj => ?_, fun d b hd hno => ?_, fun q j hq => ?_⟩
  · by_cases hj : j = i
    · rw [hj, hself]
      exact hv.symm
    · rw [hother hj] at hd hvj ⊢
      rw [hlatest _ _ (hkey hj hd)]
      exact h.fresh j hd hvj
  · by_cases hj : j = i
    · exact .inr (.inr ⟨p, hj ▸ setHold_hold_self⟩)
    · rw [hother hj] at hd hvj ⊢
      refine (h.stored j hd hvj).imp_right (Or.imp ?_ (Exists.imp fun q hq => ?_))
      · exact (pinned_congr (by rw [hother hj]; exact ⟨rfl, rfl⟩)).2
      · rw [State.put, setHold_hold_of_ne (.inr hj)]
        exact hq
  · have hi : ¬ ((s.buf i).dev = d ∧ (s.buf i).blockno = b) := by
      have := hno i (by rw [hself]; exact h.ready p i hhas)
      rwa [hself] at this
    rw [hlatest d b hi]
    refine h.uncached d b hd fun j hvj hk => ?_
    have hj : j ≠ i := fun he => hi (he ▸ hk)
    exact hno j (by rw [hother hj]; exact hvj) (by rw [hother hj]; exact hk)
  · have hq' : s.has q j = true := has_of_setHold (s := s.upd i _) (fun _ => hhas) hq
    by_cases hj : j = i
    · rw [hj, hself]
      exact hj ▸ h.ready q j hq'
    · rw [hother hj]
      exact h.ready q j hq'

/-- The contents of a buffer are written to the disk. -/
theorem Coherent.bwrite (h : Coherent dev s pins latest) (hc : Cells dev s pins released clock l)
    (hhas : s.has p i = true) : Coherent dev (s.bwrite p i) pins latest := by
  refine ⟨h.fresh, fun j hd hv => ?_, fun d b hd hno => ?_, fun q j hq => ?_⟩
  · by_cases hj : j = i
    · subst hj
      exact .inl give_self
    · have hkey : ¬ ((s.buf i).dev = (s.buf j).dev ∧ (s.buf i).blockno = (s.buf j).blockno) :=
        fun hk => hj (hc.unique j i hd hk.1 hk.2).symm
      refine (h.stored j hd hv).imp (give_of_ne hkey).trans (Or.imp_right fun ⟨q, hq⟩ => ⟨q, ?_⟩)
      rw [State.bwrite, setHold_hold_of_ne (.inr hj)]
      exact hq
  · exact (give_of_ne (s := s) (hno i (h.ready p i hhas))).trans (h.uncached d b hd hno)
  · exact h.ready q j (has_of_setHold (s := s) (fun _ => hhas) hq)

end Holds

/-! ### During `commit` -/

/-- What is still to be copied home is what was there when it was copied to the log. -/
def Synced (L : LogArea) (dev : ℕ) (latest : ℕ → ℕ → Block) (c : List Instr) : Prop :=
  ∀ b k, L.IsHome b → k + 1 < L.size → .copy (L.start + k + 1) b ∈ c →
    .copy b (L.start + k + 1) ∉ c → latest dev (L.start + k + 1) = latest dev b

/-- The blocks in the header are not those of the log, and neither are those that are committed. -/
structure Plan (L : LogArea) (dev : ℕ) (s : State P) (latest : ℕ → ℕ → Block) : Prop where
  home : ∀ b ∈ s.lh, L.IsHome b
  room : s.lh.length < L.size
  synced : ∀ p, s.code p ≠ [] → ∃ lh, s.code p <:+ commit L lh ∧ (∀ b ∈ lh, L.IsHome b) ∧
    lh.length < L.size ∧ Synced L dev latest (s.code p)

variable {k : ℕ}

theorem not_isHome_log (hk : k + 1 < L.size) : ¬ L.IsHome (L.start + k + 1) :=
  fun h => by
    obtain ⟨-, h | h⟩ := h <;> omega

variable {lh : List ℕ}

/-- `write_log` copies to the log, and `install_trans` copies back. -/
theorem copy_mem_commit {x y : ℕ} (h : .copy x y ∈ commit L lh) :
    ∃ b k, lh[k]? = some b ∧ (x = b ∧ y = L.start + k + 1 ∨ x = L.start + k + 1 ∧ y = b) := by
  have hmem : .copy x y ∈ writeLog L lh ∨ .copy x y ∈ installTrans L lh := by
    rw [commit] at h
    split_ifs at h with hlh
    · simp at h
    · simpa [writeHead] using h
  obtain h | h := hmem
  · obtain ⟨⟨b, k⟩, hz, hb⟩ := List.mem_flatMap.1 h
    refine ⟨b, k, List.mk_mem_zipIdx_iff_getElem?.1 hz, .inl ?_⟩
    simpa [logBlock] using hb
  · obtain ⟨⟨b, k⟩, hz, hb⟩ := List.mem_flatMap.1 h
    refine ⟨b, k, List.mk_mem_zipIdx_iff_getElem?.1 hz, .inr ?_⟩
    simpa [installBlock] using hb

theorem copy_log_mem_commit {b : ℕ} (hk : lh[k]? = some b) :
    .copy b (L.start + k + 1) ∈ commit L lh := by
  have hne : lh ≠ [] := List.ne_nil_of_mem (List.mem_of_getElem? hk)
  have : .copy b (L.start + k + 1) ∈ writeLog L lh :=
    List.mem_flatMap.2 ⟨(b, k), List.mk_mem_zipIdx_iff_getElem?.2 hk, by simp [logBlock]⟩
  rw [commit, if_neg hne]
  simp [this]

theorem isHome_of_getElem? {b : ℕ} (hhome : ∀ b ∈ lh, L.IsHome b)
    (hroom : lh.length < L.size) (hk : lh[k]? = some b) : L.IsHome b ∧ k + 1 < L.size := by
  obtain ⟨hlt, -⟩ := List.getElem?_eq_some_iff.1 hk
  exact ⟨hhome b (List.mem_of_getElem? hk), by omega⟩

/-- A block is copied home only from its place in the log. -/
theorem getElem?_of_copy_mem {b : ℕ} (hhome : ∀ b ∈ lh, L.IsHome b)
    (hroom : lh.length < L.size) (hb : L.IsHome b) (h : .copy (L.start + k + 1) b ∈ commit L lh) :
    lh[k]? = some b := by
  obtain ⟨b', k', hk', ⟨-, he⟩ | ⟨he, he'⟩⟩ := copy_mem_commit h
  · exact absurd (he ▸ hb) (not_isHome_log (isHome_of_getElem? hhome hroom hk').2)
  · rw [he', ← hk']
    congr 1
    omega

/-- Before anything has been copied. -/
theorem synced_commit (hhome : ∀ b ∈ lh, L.IsHome b) (hroom : lh.length < L.size) :
    Synced L dev latest (commit L lh) := fun _ _ hb _ hin hnot =>
  absurd (copy_log_mem_commit (getElem?_of_copy_mem hhome hroom hb hin)) hnot

/-- The next instruction is done. -/
theorem Synced.tail {x : Instr} {c : List Instr} (h : Synced L dev latest (x :: c))
    (hhome : ∀ b, L.IsHome b → latest' dev b = latest dev b)
    (hlog : ∀ b k, L.IsHome b → k + 1 < L.size → .copy (L.start + k + 1) b ∈ c →
      latest' dev (L.start + k + 1) =
        if x = .copy b (L.start + k + 1) then latest dev b else latest dev (L.start + k + 1)) :
    Synced L dev latest' c := by
  intro b k hb hk hin hnot
  rw [hlog b k hb hk hin, hhome b hb]
  split_ifs with hx
  · rfl
  · refine h b k hb hk (List.mem_cons_of_mem _ hin) fun hm => ?_
    exact (List.mem_cons.1 hm).elim (fun he => hx he.symm) hnot

/-- An instruction that copies nothing to the log. -/
theorem Synced.tail_of_ne {x : Instr} {c : List Instr} (h : Synced L dev latest (x :: c))
    (hx : ∀ b k, L.IsHome b → k + 1 < L.size → x ≠ .copy b (L.start + k + 1)) :
    Synced L dev latest c :=
  h.tail (fun _ _ => rfl) fun b k hb hk _ => (if_neg (hx b k hb hk)).symm

/-- When a block is copied home, nothing is copied to the log any more. -/
theorem copy_log_notMem {b : ℕ} {c : List Instr} (hhome : ∀ b ∈ lh, L.IsHome b)
    (hroom : lh.length < L.size) (hk : lh[k]? = some b)
    (h : .copy (L.start + k + 1) b :: c <:+ commit L lh) : .copy b (L.start + k + 1) ∉ c := by
  obtain ⟨hb, hlt⟩ := isHome_of_getElem? hhome hroom hk
  have hne : lh ≠ [] := List.ne_nil_of_mem (List.mem_of_getElem? hk)
  rw [commit, if_neg hne] at h
  simp only [List.append_assoc] at h
  have hwrite : .copy (L.start + k + 1) b ∉ writeLog L lh := fun hm => by
    obtain ⟨⟨b', k'⟩, hz, hm⟩ := List.mem_flatMap.1 hm
    have hm : L.start + k + 1 = b' ∧ b = L.start + k' + 1 := by simpa [logBlock] using hm
    have hk' := isHome_of_getElem? hhome hroom (List.mk_mem_zipIdx_iff_getElem?.1 hz)
    exact not_isHome_log hk'.2 (hm.2 ▸ hb)
  intro hin
  obtain ⟨r, hr⟩ := h
  have hrest : .copy b (L.start + k + 1) ∈
      writeHead L ++ (installTrans L lh ++ ([.clear] ++ (writeHead L ++ [.finish]))) := by
    obtain ⟨as, hA, hB⟩ | ⟨bs, -, hB⟩ := List.append_eq_append_iff.1 hr
    · cases as with
      | nil => exact hB ▸ List.mem_cons_of_mem _ hin
      | cons x as =>
        have hx : .copy (L.start + k + 1) b = x := (List.cons.inj hB).1
        exact absurd (hA ▸ hx ▸ List.mem_append_right _ List.mem_cons_self) hwrite
    · exact hB ▸ List.mem_append_right _ (List.mem_cons_of_mem _ hin)
  have hinstall : .copy b (L.start + k + 1) ∈ installTrans L lh := by
    simpa [writeHead] using hrest
  obtain ⟨⟨b', k'⟩, hz, hm⟩ := List.mem_flatMap.1 hinstall
  have hm : b = L.start + k' + 1 ∧ L.start + k + 1 = b' := by simpa [installBlock] using hm
  have hk' := isHome_of_getElem? hhome hroom (List.mk_mem_zipIdx_iff_getElem?.1 hz)
  exact not_isHome_log hlt (hm.2 ▸ hk'.1)

namespace Plan

theorem keep (h : Plan L dev s latest) (hlh : t.lh = s.lh) (hcode : t.code = s.code) :
    Plan L dev t latest := ⟨hlh ▸ h.home, hlh ▸ h.room, hcode ▸ h.synced⟩

/-- Nobody commits. -/
theorem idle (h : Plan L dev s latest) (hcode : ∀ p, t.code p = []) (hlh : t.lh = s.lh) :
    Plan L dev t latest' := ⟨hlh ▸ h.home, hlh ▸ h.room, fun p hp => absurd (hcode p) hp⟩

variable [DecidableEq P]

theorem pop (h : Plan L dev s latest)
    (hother : ∀ q, q ≠ p → s.code q ≠ [] → latest' = latest)
    (hp : ∀ x c lh, s.code p = x :: c → x :: c <:+ commit L lh → (∀ b ∈ lh, L.IsHome b) →
      lh.length < L.size → Synced L dev latest (x :: c) → Synced L dev latest' c) :
    Plan L dev (s.pop p) latest' := by
  refine ⟨h.home, h.room, fun q hq => ?_⟩
  by_cases hqp : q = p
  · subst hqp
    have hcode : (s.pop q).code q = (s.code q).tail := Function.update_self _ _ _
    rw [hcode] at hq ⊢
    cases hc : s.code q with
    | nil => exact absurd (by rw [hc]; rfl) hq
    | cons x c =>
      obtain ⟨lh, hsuf, hhome, hroom, hsync⟩ := h.synced q (hc ▸ List.cons_ne_nil x c)
      rw [hc] at hsuf hsync
      exact ⟨lh, (List.suffix_cons x c).trans hsuf, hhome, hroom,
        hp x c lh hc hsuf hhome hroom hsync⟩
  · have hcode : (s.pop p).code q = s.code q := Function.update_of_ne hqp _ _
    rw [hcode] at hq ⊢
    obtain ⟨lh, hsuf, hhome, hroom, hsync⟩ := h.synced q hq
    exact ⟨lh, hsuf, hhome, hroom, hother q hqp hq ▸ hsync⟩

/-- `log_write` of a block that is not one of the log. -/
theorem record (h : Plan L dev s latest) (hb : L.IsHome (s.buf i).blockno)
    (hroom : s.lh.length + 1 < L.size) : Plan L dev (s.record p i) latest := by
  rw [State.record]
  split_ifs
  · exact h.keep rfl rfl
  · refine ⟨fun b hm => ?_, ?_, h.synced⟩
    · exact (List.mem_append.1 hm).elim (h.home b) fun he => List.mem_singleton.1 he ▸ hb
    · change (s.lh ++ [(s.buf i).blockno]).length < L.size
      rw [List.length_append]
      exact hroom

/-- `commit` begins. -/
theorem start (h : Plan L dev s latest) (hcode : ∀ q, s.code q = []) {o : ℕ} {inOp : P → Bool} :
    Plan L dev { s with
      outstanding := o, inOp := inOp, committing := true
      code := Function.update s.code p (commit L s.lh) } latest := by
  refine ⟨h.home, h.room, fun q hq => ?_⟩
  change Function.update s.code p (commit L s.lh) q ≠ [] at hq
  by_cases hqp : q = p
  · subst hqp
    change ∃ lh, Function.update s.code q (commit L s.lh) q <:+ _ ∧ _ ∧ _ ∧
      Synced L dev latest (Function.update s.code q (commit L s.lh) q)
    rw [Function.update_self]
    exact ⟨s.lh, List.suffix_rfl, h.home, h.room, synced_commit h.home h.room⟩
  · rw [Function.update_of_ne hqp] at hq
    exact absurd (hcode q) hq

/-- An instruction that copies nothing, or an action of the file system. -/
theorem advance (h : Plan L dev s latest) {a : Act} (hf : s.follows L dev p a = true)
    (ha : ∀ i j, a ≠ .copy i j) (hlh : t.lh = s.lh) (hcode : t.code = s.code) :
    Plan L dev (t.pop p) latest := by
  refine (h.keep hlh hcode).pop (fun _ _ _ => rfl) fun x c _ hx _ _ _ hsync =>
    hsync.tail_of_ne fun b k _ _ he => ?_
  obtain ⟨i, j, hij, -⟩ :=
    follows_cons (x := .copy b (L.start + k + 1)) hf ((hcode ▸ hx).trans (by rw [he]))
  exact ha i j hij

/-- The header is cleared. -/
theorem clear (h : Plan L dev s latest) (hf : s.follows L dev p .clear = true) :
    Plan L dev (State.pop { s with lh := [] } p) latest := by
  have := h.advance (t := s) hf nofun rfl rfl
  exact ⟨fun _ hb => absurd hb List.not_mem_nil, L.pos, this.synced⟩

end Plan

section Step

variable [DecidableEq P] [Fintype P] {released : Fin NBUF → ℕ} {clock : ℕ} {l : List (Fin NBUF)}

/-- A block is copied, to the log or home. -/
theorem copy_coherent (hc : Cells dev s pins released clock l) (hl : LogInv L dev s pins)
    (hdev : dev ≠ 0) (h : Coherent dev s pins latest) (hp : Plan L dev s latest)
    (hf : s.follows L dev p (.copy i j) = true) (hi : s.has p i = true) (hj : s.has p j = true) :
    let latest' := latestAfter L s latest (.copy i j)
    Coherent dev ((s.put p j (s.buf i).data).pop p) pins latest' ∧
      Plan L dev ((s.put p j (s.buf i).data).pop p) latest' := by
  obtain ⟨b, b', c, hcode, hb, hb'⟩ := code_of_follows_copy hf
  obtain ⟨hdi, hbi⟩ := isFor_iff.1 hb
  obtain ⟨hdj, hbj⟩ := isFor_iff.1 hb'
  have hne : s.code p ≠ [] := hcode ▸ List.cons_ne_nil _ _
  have hdata : (s.buf i).data = latest dev b := by
    have := h.fresh i (hdi ▸ hdev) (h.ready p i hi)
    rwa [hdi, hbi] at this
  have hother {latest' : ℕ → ℕ → Block} (q : P) (hq : q ≠ p) (hne' : s.code q ≠ []) :
      latest' = latest := absurd ((hl.code p hne).1 q hne') hq
  obtain ⟨lh, hsuf, hhome, hroom, hsync⟩ := hp.synced p hne
  rw [hcode] at hsuf hsync
  obtain ⟨x, k, hk, hx⟩ := copy_mem_commit (hsuf.mem List.mem_cons_self)
  obtain ⟨hxhome, hklt⟩ := isHome_of_getElem? hhome hroom hk
  intro latest'
  obtain ⟨rfl, rfl⟩ | ⟨rfl, rfl⟩ := hx
  · -- `write_log`
    have hlatest : latest' = give s j (s.buf i).data latest :=
      if_neg (by rw [hbj]; exact not_isHome_log hklt)
    rw [hlatest]
    refine ⟨(h.put hc hj give_self fun d y hdy => give_of_ne hdy).calm (.refl _) rfl
      (fun _ _ hq => hq) fun _ hs => .inr hs, ?_⟩
    refine (hp.keep (t := s.put p j (s.buf i).data) rfl rfl).pop
      (fun q hq hne' => hother q hq hne') fun y c' lh' hy hsuf' hhome' hroom' hsync' => ?_
    obtain ⟨rfl, rfl⟩ := List.cons.inj (hcode.symm.trans hy)
    refine hsync'.tail (fun z hz => give_of_ne ?_) fun z m hz hm hin => ?_
    · rintro ⟨-, hz'⟩
      exact not_isHome_log hklt (hbj ▸ hz' ▸ hz)
    · have hz' := getElem?_of_copy_mem hhome' hroom' hz (hsuf'.mem (List.mem_cons_of_mem _ hin))
      by_cases hmk : m = k
      · have hx' : lh'[k]? = some b := by
          obtain ⟨x', k', hk', ⟨he, he'⟩ | ⟨-, he'⟩⟩ :=
            copy_mem_commit (hsuf'.mem List.mem_cons_self)
          · have : k' = k := by omega
            rw [← this, hk', he]
          · exact absurd (he' ▸ (isHome_of_getElem? hhome' hroom' hk').1) (not_isHome_log hklt)
        rw [hmk, hx'] at hz'
        rw [hmk, if_pos (by rw [Option.some.inj hz']), ← Option.some.inj hz', ← hdata, ← hdj, ← hbj]
        exact give_self
      · rw [if_neg fun he => hmk (by have := (Instr.copy.inj he).2; omega)]
        refine give_of_ne fun hz'' => hmk ?_
        have := hbj.symm.trans hz''.2
        omega
  · -- `install_trans`
    have hlatest : latest' = latest := if_pos (by rw [hbj]; exact hxhome)
    have hnot := copy_log_notMem hhome hroom hk hsuf
    have hsame : latest dev (L.start + k + 1) = latest dev b' :=
      hsync b' k hxhome hklt List.mem_cons_self fun hm => hnot <| (List.mem_cons.1 hm).resolve_left
        fun he => not_isHome_log hklt ((Instr.copy.inj he).1 ▸ hxhome)
    rw [hlatest]
    refine ⟨(h.put hc hj (by rw [hdj, hbj, ← hsame, hdata]) fun _ _ _ => rfl).calm (.refl _) rfl
      (fun _ _ hq => hq) fun _ hs => .inr hs, ?_⟩
    refine (hp.keep (t := s.put p j (s.buf i).data) rfl rfl).pop
      (fun _ _ _ => rfl) fun y c' lh' hy _ _ _ hsync' => hsync'.tail_of_ne fun z m hz hm he => ?_
    obtain ⟨rfl, rfl⟩ := List.cons.inj (hcode.symm.trans hy)
    exact not_isHome_log hm ((Instr.copy.inj he).2 ▸ hxhome)

/-- The header is stored in its buffer. -/
theorem head_coherent (hc : Cells dev s pins released clock l) (hl : LogInv L dev s pins)
    (h : Coherent dev s pins latest) (hp : Plan L dev s latest)
    (hf : s.follows L dev p (.head i) = true) (hi : s.has p i = true) :
    let v := encodeHead s.lh (s.buf i).data
    Coherent dev ((s.put p i v).pop p) pins (give s i v latest) ∧
      Plan L dev ((s.put p i v).pop p) (give s i v latest) := by
  obtain ⟨c, hcode, hfor⟩ := code_of_follows_head hf
  obtain ⟨-, hb⟩ := isFor_iff.1 hfor
  have hne : s.code p ≠ [] := hcode ▸ List.cons_ne_nil _ _
  refine ⟨(h.put hc hi give_self fun d y hdy => give_of_ne hdy).calm (.refl _) rfl
    (fun _ _ hq => hq) fun _ hs => .inr hs, ?_⟩
  refine (hp.keep (t := s.put p i (encodeHead s.lh (s.buf i).data)) rfl rfl).pop
    (fun q hq hne' => absurd ((hl.code p hne).1 q hne') hq) fun y c' lh' hy _ _ _ hsync => ?_
  obtain ⟨rfl, rfl⟩ := List.cons.inj (hcode.symm.trans hy)
  refine hsync.tail (fun z hz => give_of_ne ?_) fun z m _ _ _ => ?_
  · rintro ⟨-, rfl⟩
    obtain ⟨-, hz | hz⟩ := hz
    · omega
    · have := L.pos
      omega
  · rw [if_neg nofun]
    refine give_of_ne fun hz => ?_
    have := hb.symm.trans hz.2
    omega

variable {x y : Watched P}

/-- A disciplined action leaves the latest contents where they can be found. -/
theorem step_coherent {e : P × Act} (hdev : dev ≠ 0) (hinv : Inv L dev x)
    (hd : Disciplined L x.state e) (hstep : x.step L dev e = some y) (hclean : Clean dev x.state)
    (h : Coherent dev x.state x.pins x.latest) (hp : Plan L dev x.state x.latest) :
    Coherent dev y.state y.pins y.latest ∧ Plan L dev y.state y.latest := by
  obtain ⟨t, ht, rfl⟩ := Option.map_eq_some_iff.1 hstep
  obtain ⟨p, a⟩ := e
  obtain ⟨⟨l, hc⟩, hl⟩ := hinv
  rw [step] at ht
  split_ifs at ht with hf
  change act L dev x.state p a = some t at ht
  change x.state.follows L dev p a = true at hf
  have hpop {u : State P} {pins : List ℕ} {latest : ℕ → ℕ → Block}
      (hu : Coherent dev u pins latest) : Coherent dev (u.pop p) pins latest :=
    hu.calm (.refl _) rfl (fun _ _ hq => hq) fun _ hs => .inr hs
  cases a with
  | bget d b =>
    obtain ⟨i, -, hhold, rfl⟩ | ⟨i, ⟨hzero, -⟩, -, rfl⟩ := hc.bget_cases ht
    · exact ⟨h.goOn _ (fun _ => ⟨⟨rfl, rfl⟩, rfl, rfl⟩) (by rw [hhold]; simp) (by simp),
        hp.keep rfl rfl⟩
    · exact ⟨h.recycle hc hzero, hp.keep rfl rfl⟩
  | acquire i =>
    obtain ⟨⟨hhold, -⟩, ⟨⟩⟩ := Option.ite_none_right_eq_some.1 ht
    exact ⟨h.goOn _ (fun _ => ⟨⟨rfl, rfl⟩, rfl, rfl⟩) (by rw [hhold]; simp) (by simp),
      hp.keep rfl rfl⟩
  | read i =>
    obtain ⟨hhold, ⟨⟩⟩ := Option.ite_none_right_eq_some.1 ht
    exact ⟨hpop (h.read hc hhold), hp.advance hf (by simp) rfl rfl⟩
  | write i v =>
    obtain ⟨hhas, ⟨⟩⟩ := Option.ite_none_right_eq_some.1 ht
    exact ⟨h.put hc hhas give_self fun d b hdb => give_of_ne hdb, hp.idle (hl.idle hd).2 rfl⟩
  | bwrite i =>
    obtain ⟨hhas, ⟨⟩⟩ := Option.ite_none_right_eq_some.1 ht
    exact ⟨hpop (h.bwrite hc hhas), hp.advance hf (by simp) rfl rfl⟩
  | logWrite i =>
    obtain ⟨⟨hhas, -, hdi, hout, -, hroom⟩, ⟨⟩⟩ := Option.ite_none_right_eq_some.1 ht
    obtain ⟨hpins, -⟩ := hl.idle (hl.committing_eq_false hout)
    exact ⟨h.record hhas hdi hpins, hp.record hd hroom⟩
  | bunpin i =>
    obtain ⟨hhas, ⟨⟩⟩ := Option.ite_none_right_eq_some.1 ht
    obtain ⟨b, c, hcode, hfor⟩ := code_of_follows_bunpin hf
    obtain ⟨hdi, hbi⟩ := isFor_iff.1 hfor
    obtain ⟨j, hj, -, hdisk⟩ := hl.home p b c hcode
    obtain ⟨hdj, hbj⟩ := isFor_iff.1 hj
    obtain rfl := hc.unique i j (hdi ▸ hdev) (hdj.trans hdi.symm) (hbj.trans hbi.symm)
    exact ⟨hpop (h.bunpin hc hdev hdi (by rw [hdi, hbi]; exact hdisk)),
      hp.advance hf (by simp) rfl rfl⟩
  | release i =>
    obtain ⟨hhas, ⟨⟩⟩ := Option.ite_none_right_eq_some.1 ht
    have hnot : x.state.hold p i ≠ .ready true := by
      by_cases hcode : x.state.code p = []
      · exact hd hcode
      · exact hclean.release hf hcode
    exact ⟨h.goOn _ (fun _ => ⟨⟨rfl, rfl⟩, rfl, rfl⟩) hnot (by simp), hp.keep rfl rfl⟩
  | unref i =>
    obtain ⟨hhold, ⟨⟩⟩ := Option.ite_none_right_eq_some.1 ht
    have hu : Coherent dev (x.state.unref p i) x.pins x.latest := by
      have := h.goOn (f := fun b => { b with refcnt := b.refcnt - 1 }) (p := p) (i := i) .none
        (fun _ => ⟨⟨rfl, rfl⟩, rfl, rfl⟩) (by rw [hhold]; simp) (by simp)
      rw [State.unref]
      split_ifs
      · exact this.calm (.refl _) rfl (fun _ _ hq => hq) fun _ hs => .inr hs
      · exact this
    refine ⟨hpop hu, hp.advance hf (by simp) ?_ ?_⟩
    · rw [State.unref]
      split_ifs <;> rfl
    · rw [State.unref]
      split_ifs <;> rfl
  | beginOp =>
    obtain ⟨-, ⟨⟩⟩ := Option.ite_none_right_eq_some.1 ht
    exact ⟨h.calm (.refl _) rfl (fun _ _ hq => hq) fun _ hs => .inr hs, hp.keep rfl rfl⟩
  | endOp =>
    obtain ⟨⟨-, hcommitting⟩, ht⟩ := Option.ite_none_right_eq_some.1 ht
    split_ifs at ht with hlast
    · cases ht
      exact ⟨h.calm (.refl _) rfl (fun _ _ hq => hq) fun _ hs => .inr hs,
        hp.start (hl.idle hcommitting).2⟩
    · cases ht
      exact ⟨h.calm (.refl _) rfl (fun _ _ hq => hq) fun _ hs => .inr hs, hp.keep rfl rfl⟩
  | copy i j =>
    obtain ⟨⟨hi, hj⟩, ⟨⟩⟩ := Option.ite_none_right_eq_some.1 ht
    exact copy_coherent hc hl hdev h hp hf hi hj
  | head i =>
    obtain ⟨hhas, ⟨⟩⟩ := Option.ite_none_right_eq_some.1 ht
    exact head_coherent hc hl h hp hf hhas
  | clear =>
    cases ht
    exact ⟨h.calm (.refl _) rfl (fun _ _ hq => hq) fun _ hs => .inr hs, hp.clear hf⟩
  | finish =>
    cases ht
    exact ⟨h.calm (.refl _) rfl (fun _ _ hq => hq) fun _ hs => .inr hs,
      hp.advance hf (by simp) rfl rfl⟩

theorem step_clean {e : P × Act} (hdev : dev ≠ 0) (hinv : Inv L dev x)
    (hstep : x.step L dev e = some y) (h : Clean dev x.state) : Clean dev y.state := by
  obtain ⟨t, ht, rfl⟩ := Option.map_eq_some_iff.1 hstep
  obtain ⟨⟨l, hc⟩, hl⟩ := hinv
  rw [step] at ht
  split_ifs at ht with hf
  exact act_clean hdev hc (fun p hp => (hl.code p hp).2.2.1) h hf ht

theorem run_inv (hdev : dev ≠ 0) {disk : ℕ → ℕ → Block} {es : List (P × Act)}
    (hrun : runEvents (Watched.step L dev) (.init disk) es = some x) : Inv L dev x :=
  runEvents_invariant (I := Inv L dev) (fun _ _ _ h hs => step_inv hdev h hs)
    (inv_init L dev disk) hrun

/-- In a disciplined run the latest contents stay where they can be found. -/
theorem run_coherent (hdev : dev ≠ 0) {disk : ℕ → ℕ → Block} {es : List (P × Act)}
    (hrun : runEvents (restrict (fun x e => Disciplined L x.state e) (Watched.step L dev))
      (.init disk) es = some x) : Coherent dev x.state x.pins x.latest := by
  have h := runEvents_invariant (I := fun x => Inv L dev x ∧ Clean dev x.state ∧
    Coherent dev x.state x.pins x.latest ∧ Plan L dev x.state x.latest)
    (fun x e y ⟨hinv, hclean, hco, hplan⟩ hs => by
      obtain ⟨hd, hs⟩ := restrict_eq_some.1 hs
      exact ⟨step_inv hdev hinv hs, step_clean hdev hinv hs hclean,
        step_coherent hdev hinv hd hs hclean hco hplan⟩)
    ⟨inv_init L dev disk, fun _ _ => nofun, ?_, ?_⟩ hrun
  · exact h.2.2.1
  · exact ⟨nofun, nofun, fun _ _ _ _ => rfl, nofun⟩
  · exact ⟨nofun, L.pos, fun _ hp => absurd rfl hp⟩

/-- A block is unpinned only after it has been written home. -/
theorem LogInv.unpin {e : P × Act} {b : ℕ} (hl : LogInv L dev x.state x.pins)
    (hc : Cells dev x.state x.pins x.released x.clock l) (hdev : dev ≠ 0)
    (hd : (x.state.buf i).dev = dev) (hbi : (x.state.buf i).blockno = b) (hb : b ∈ x.pins)
    (hy : x.step L dev e = some y) (hout : b ∉ y.pins) :
    x.state.disk dev b = (x.state.buf i).data := by
  obtain ⟨t, ht, rfl⟩ := Option.map_eq_some_iff.1 hy
  obtain ⟨p, a⟩ := e
  rw [step] at ht
  split_ifs at ht with hf
  change b ∉ pinsAfter x.state x.pins a at hout
  cases a with
  | bunpin j =>
    obtain ⟨b', c, hcode, hfor⟩ := code_of_follows_bunpin hf
    obtain ⟨-, hbj⟩ := isFor_iff.1 hfor
    obtain ⟨k, hk, -, hdisk⟩ := hl.home p b' c hcode
    obtain ⟨hdk, hbk⟩ := isFor_iff.1 hk
    have hbb : b = b' := by
      by_contra hne
      exact hout ((List.mem_erase_of_ne (hbj ▸ hne)).2 hb)
    subst hbb
    obtain rfl := hc.unique i k (hd ▸ hdev) (hdk.trans hd.symm) (hbk.trans hbi.symm)
    exact hdisk
  | logWrite j =>
    rw [pinsAfter] at hout
    split_ifs at hout
    · exact absurd hb hout
    · exact absurd (List.mem_append_left _ hb) hout
  | _ => exact absurd hb hout

/-- **The buffer cache.** In every run of any processes and `commit`, the links are those of a list
of all buffers, no two buffers are for the same block, a buffer that becomes one of another block
was one that nobody refers to and of these the one that was released first, and the buffer of a
block that `log_write` has recorded is in the cache until `install_trans` has written it home. In a
run of disciplined callers, a buffer that `bread` has returned has the latest contents of its block.
-/
theorem buffer_cache (hdev : dev ≠ 0) {disk : ℕ → ℕ → Block} {es : List (P × Act)} {x : Watched P}
    (hrun : runEvents (Watched.step L dev) (.init disk) es = some x) :
    (∃ l : List (Fin NBUF), l.Perm (List.finRange NBUF) ∧
      IsCircular none x.state.links.next x.state.links.prev (l.map some)) ∧
    (∀ i j, (x.state.buf i).dev ≠ 0 → (x.state.buf j).dev = (x.state.buf i).dev →
      (x.state.buf j).blockno = (x.state.buf i).blockno → j = i) ∧
    (∀ e y, x.step L dev e = some y → ∀ i,
      ¬ ((y.state.buf i).dev = (x.state.buf i).dev ∧
        (y.state.buf i).blockno = (x.state.buf i).blockno) →
      (x.state.buf i).refcnt = 0 ∧
        ∀ j, (x.state.buf j).refcnt = 0 → x.released i ≤ x.released j) ∧
    (∀ b ∈ x.pins, ∃ i, (x.state.buf i).dev = dev ∧ (x.state.buf i).blockno = b ∧
      0 < (x.state.buf i).refcnt ∧ ∀ e y, x.step L dev e = some y → b ∉ y.pins →
        x.state.disk dev b = (x.state.buf i).data) ∧
    (∀ p i y, x.step L dev (p, .logWrite i) = some y → (x.state.buf i).blockno ∈ y.pins) ∧
    (runEvents (restrict (fun x e => Disciplined L x.state e) (Watched.step L dev)) (.init disk)
        es = some x →
      ∀ p i, x.state.has p i = true → (x.state.buf i).dev ≠ 0 →
        (x.state.buf i).data = x.latest (x.state.buf i).dev (x.state.buf i).blockno) := by
  obtain ⟨⟨l, hc⟩, hl⟩ := run_inv hdev hrun
  refine ⟨⟨l, hc.perm, hc.circular⟩, hc.unique, fun e y hy i hi => ?_, fun b hb => ?_,
    fun p i y hy => ?_, fun hrun p i hp hd => ?_⟩
  · obtain ⟨t, ht, rfl⟩ := Option.map_eq_some_iff.1 hy
    rw [step] at ht
    split_ifs at ht
    exact (act_key hc ht i).resolve_left hi
  · obtain ⟨i, hd, hbi⟩ := hc.cached b hb
    have hpin : Pinned dev x.state x.pins i := ⟨hd, hbi ▸ hb⟩
    refine ⟨i, hd, hbi, ?_, fun e y hy hout => ?_⟩
    · rw [hc.count i, if_pos hpin]
      exact Nat.succ_pos _
    · exact hl.unpin hc hdev hd hbi hb hy hout
  · exact logWrite_mem_pins hl hy
  · have h := run_coherent hdev hrun
    exact h.fresh i hd (h.ready p i hp)

/-- **Buffers are counted and locked.** In every run the count of a buffer is the number of
processes with a reference to it, and one more while it is pinned, and no two processes have the
same block. -/
theorem buffers_exclusive (hdev : dev ≠ 0) {disk : ℕ → ℕ → Block} {es : List (P × Act)}
    {x : Watched P} (hrun : runEvents (Watched.step L dev) (.init disk) es = some x) :
    (∀ i, (x.state.buf i).refcnt = x.state.refs i + if Pinned dev x.state x.pins i then 1 else 0) ∧
      ∀ p q i j, x.state.has p i = true → x.state.has q j = true → (x.state.buf i).dev ≠ 0 →
        (x.state.buf j).dev = (x.state.buf i).dev →
        (x.state.buf j).blockno = (x.state.buf i).blockno → q = p ∧ j = i := by
  obtain ⟨⟨l, hc⟩, -⟩ := run_inv hdev hrun
  refine ⟨hc.count, fun p q i j hp hq hd hdev hb => ?_⟩
  obtain rfl := hc.unique i j hd hdev hb
  have hlock := (hc.lock q j (locks_of_has hq)).symm.trans (hc.lock p j (locks_of_has hp))
  exact ⟨Option.some.inj hlock, rfl⟩

end Step

end Contents

/-! ### A run -/

/-- Process `0` changes block 40 and commits, and process `1` reads the block. -/
def commitRun : List (Fin 2 × Act) :=
  let bread (b : ℕ) (i : Fin NBUF) : List Act := [.bget 1 b, .acquire i, .read i]
  let brelse (i : Fin NBUF) : List Act := [.release i, .unref i]
  let op : List Act :=
    [.beginOp] ++ bread 40 0 ++ [.write 0 fun _ => 7, .logWrite 0] ++ brelse 0 ++ [.endOp]
  let writeLog : List Act :=
    bread 3 1 ++ bread 40 0 ++ [.copy 0 1, .bwrite 1] ++ brelse 0 ++ brelse 1
  let writeHead : List Act := bread 2 2 ++ [.head 2, .bwrite 2] ++ brelse 2
  let install : List Act :=
    bread 3 1 ++ bread 40 0 ++ [.copy 1 0, .bwrite 0, .bunpin 0] ++ brelse 1 ++ brelse 0
  (op ++ writeLog ++ writeHead ++ install ++ [Act.clear] ++ writeHead ++ [Act.finish]).map
    (Prod.mk 0) ++ (bread 40 0).map (Prod.mk 1)

/-- After the commit, process `1` has the contents that process `0` has given to the block. -/
theorem buffer_cache_commitRun : ∃ x : Watched (Fin 2),
    runEvents (Watched.step mkfsLog 1) (.init fun _ _ _ => 0) commitRun = some x ∧
      x.state.has 1 0 = true ∧ (x.state.buf 0).data = x.latest 1 40 ∧ x.latest 1 40 0 = 7 ∧
      ∃ l : List (Fin NBUF), l.Perm (List.finRange NBUF) ∧
        IsCircular none x.state.links.next x.state.links.prev (l.map some) := by
  obtain ⟨x, hx, hhas, hd, hb, hseven⟩ : ∃ x, runEvents (restrict (fun x e => Disciplined mkfsLog
      x.state e) (Watched.step mkfsLog 1)) (.init fun _ _ _ => 0) commitRun = some x ∧
      x.state.has 1 0 = true ∧ (x.state.buf 0).dev = 1 ∧ (x.state.buf 0).blockno = 40 ∧
        x.latest 1 40 0 = 7 := by decide +kernel
  have hrun : runEvents (Watched.step mkfsLog 1) (.init fun _ _ _ => 0) commitRun = some x :=
    runEvents_map id (fun _ _ _ hs => (restrict_eq_some.1 hs).2) hx
  obtain ⟨hlist, -, -, -, -, hlatest⟩ := buffer_cache (by decide) hrun
  have hdata := hlatest hx 1 0 hhas (by rw [hd]; decide)
  rw [hd, hb] at hdata
  exact ⟨x, hrun, hhas, hdata, hseven, hlist⟩

theorem buffers_exclusive_pinned : ∃ x : Watched (Fin 2),
    runEvents (Watched.step mkfsLog 1) (.init fun _ _ _ => 0) (commitRun.take 6) = some x ∧
      x.state.refs 0 + (if Pinned 1 x.state x.pins 0 then 1 else 0) = 2 ∧
      ∀ q, x.state.has q 0 = true → q = 0 := by
  obtain ⟨x, hx, hhas, hd, hr⟩ : ∃ x, runEvents (Watched.step mkfsLog 1) (.init fun _ _ _ => 0)
      (commitRun.take 6) = some x ∧ x.state.has 0 0 = true ∧ (x.state.buf 0).dev = 1 ∧
      (x.state.buf 0).refcnt = 2 := by decide +kernel
  obtain ⟨hcount, honly⟩ := buffers_exclusive (by decide) hx
  exact ⟨x, hx, hcount 0 ▸ hr, fun q hq => (honly 0 q 0 0 hhas hq (by simp [hd]) rfl rfl).1⟩

end Xv6.Bio
