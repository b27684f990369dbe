import Xv6.Cache.Pins

/-!
# What `commit` changes, it writes

The file system passes what it has changed to `log_write` or `bwrite` before it releases it.
`commit` does so because of its program: a copy is followed at once by a write, and a buffer is
released only after it has been read by `commit` itself, which cannot happen while the process still
has it from before.
-/

namespace Xv6.Bio

/-! ### The program of `commit` -/

/-- Before block `b` is released, it is read or written. -/
def Cleans (b : ℕ) : List Instr → Prop
  | [] => True
  | x :: c => x ≠ .brelse b ∧ (x = .bread b ∨ x = .bwrite b ∨ Cleans b c)

theorem cleans_append {b : ℕ} {c d : List Instr} (hc : Cleans b c) (hd : Cleans b d) :
    Cleans b (c ++ d) := by
  induction c with
  | nil => exact hd
  | cons x c ih => exact ⟨hc.1, hc.2.imp_right (Or.imp_right ih)⟩

theorem cleans_logBlock (L : LogArea) (b : ℕ) (x : ℕ × ℕ) : Cleans b (logBlock L x) := by
  by_cases h₁ : L.start + x.2 + 1 = b
  · simp [logBlock, Cleans, h₁]
  · by_cases h₂ : x.1 = b <;> simp [logBlock, Cleans, h₁, h₂]

theorem cleans_installBlock (L : LogArea) (b : ℕ) (x : ℕ × ℕ) : Cleans b (installBlock L x) := by
  by_cases h₁ : L.start + x.2 + 1 = b
  · simp [installBlock, Cleans, h₁]
  · by_cases h₂ : x.1 = b <;> simp [installBlock, Cleans, h₁, h₂]

theorem cleans_writeHead (L : LogArea) (b : ℕ) : Cleans b (writeHead L) := by
  by_cases h : L.start = b <;> simp [writeHead, Cleans, h]

theorem cleans_commit (L : LogArea) (lh : List ℕ) (b : ℕ) : Cleans b (commit L lh) :=
  commit_of_parts (R := Cleans b) trivial cleans_append (cleans_logBlock L b)
    (cleans_installBlock L b) (cleans_writeHead L b) (by simp [Cleans]) (by simp [Cleans]) lh

/-- The block that an instruction changes. -/
def Instr.dst (L : LogArea) : Instr → Option ℕ
  | .copy _ b => some b
  | .head => some L.start
  | _ => none

/-- A block that is changed is written at once. -/
def Copies (L : LogArea) : List Instr → Prop
  | [] => True
  | x :: c => (∀ b, x.dst L = some b → c.head? = some (.bwrite b)) ∧ Copies L c

theorem copies_append {L : LogArea} {c d : List Instr} (hc : Copies L c) (hd : Copies L d) :
    Copies L (c ++ d) := by
  induction c with
  | nil => exact hd
  | cons x c ih =>
    refine ⟨fun b hb => ?_, ih hc.2⟩
    change (c ++ d).head? = _
    rw [List.head?_append, hc.1 b hb]
    rfl

theorem copies_commit (L : LogArea) (lh : List ℕ) : Copies L (commit L lh) := by
  refine commit_of_parts (R := Copies L) trivial copies_append (fun x => ?_) (fun x => ?_)
    ?_ ?_ ?_ lh
  · simp [logBlock, Copies, Instr.dst]
  · simp [installBlock, Copies, Instr.dst]
  · simp [writeHead, Copies, Instr.dst]
  · simp [Copies, Instr.dst]
  · simp [Copies, Instr.dst]

theorem copies_of_suffix {L : LogArea} {c d : List Instr} (h : c <:+ d) (hd : Copies L d) :
    Copies L c := by
  obtain ⟨r, rfl⟩ := h
  induction r with
  | nil => exact hd
  | cons x r ih => exact ih hd.2

/-- After a block has been changed, it is written before it is released. -/
theorem Copies.cleans {L : LogArea} {x : Instr} {c : List Instr} {b : ℕ} (h : Copies L (x :: c))
    (hb : x.dst L = some b) : Cleans b c := by
  have hhead := h.1 b hb
  cases c with
  | nil => trivial
  | cons y c =>
    cases hhead
    exact ⟨nofun, .inr (.inl rfl)⟩

/-! ### Keys -/

section Keys

variable {P : Type} [DecidableEq P] {L : LogArea} {dev : ℕ} {s t : State P} {p : P} {a : Act}

theorem unref_key (i j : Fin NBUF) : ((s.unref p i).buf j).dev = (s.buf j).dev ∧
    ((s.unref p i).buf j).blockno = (s.buf j).blockno := by
  have h := upd_key (s := s) (i := i) (f := fun b => { b with refcnt := b.refcnt - 1 })
    (fun _ => ⟨rfl, rfl⟩) j
  rw [State.unref]
  split_ifs <;> exact h

theorem record_key (i j : Fin NBUF) : ((s.record p i).buf j).dev = (s.buf j).dev ∧
    ((s.record p i).buf j).blockno = (s.buf j).blockno := by
  have h := upd_key (s := s) (i := i) (f := fun b => { b with refcnt := b.refcnt + 1 })
    (fun _ => ⟨rfl, rfl⟩) j
  rw [State.record]
  split_ifs
  · exact ⟨rfl, rfl⟩
  · exact h

theorem read_key (i j : Fin NBUF) : ((s.read p i).buf j).dev = (s.buf j).dev ∧
    ((s.read p i).buf j).blockno = (s.buf j).blockno := by
  rw [State.read, setHold_buf]
  refine upd_key (fun b => ?_) j
  cases b.valid <;> exact ⟨rfl, rfl⟩

variable [Fintype P] {pins : List ℕ} {released : Fin NBUF → ℕ} {clock : ℕ} {l : List (Fin NBUF)}

/-- A buffer becomes one of another block only where `bget` recycles it: nobody refers to it, and of
the buffers that nobody refers to it was released first. -/
theorem act_key (hc : Cells dev s pins released clock l) (ht : act L dev s p a = some t)
    (i : Fin NBUF) : ((t.buf i).dev = (s.buf i).dev ∧ (t.buf i).blockno = (s.buf i).blockno) ∨
      (s.buf i).refcnt = 0 ∧ ∀ j, (s.buf j).refcnt = 0 → released i ≤ released j := by
  cases a with
  | bget d b =>
    obtain ⟨j, -, -, rfl⟩ | ⟨j, hj, -, rfl⟩ := hc.bget_cases ht
    · exact .inl (upd_key (f := fun b => { b with refcnt := b.refcnt + 1 }) (fun _ => ⟨rfl, rfl⟩) i)
    · by_cases hij : i = j
      · exact .inr (hij ▸ hj)
      · refine .inl ?_
        rw [State.recycle, setHold_buf, upd_buf_of_ne _ hij]
        exact ⟨rfl, rfl⟩
  | read j =>
    obtain ⟨-, ⟨⟩⟩ := Option.ite_none_right_eq_some.1 ht
    exact .inl (read_key (p := p) j i)
  | logWrite j =>
    obtain ⟨-, ⟨⟩⟩ := Option.ite_none_right_eq_some.1 ht
    exact .inl (record_key (p := p) j i)
  | unref j =>
    obtain ⟨-, ⟨⟩⟩ := Option.ite_none_right_eq_some.1 ht
    exact .inl (unref_key (p := p) j i)
  | acquire j | write j v | bunpin j | release j | copy k j | head j =>
    obtain ⟨-, ⟨⟩⟩ := Option.ite_none_right_eq_some.1 ht
    simp only [State.put, State.pop, setHold_buf]
    left
    apply upd_key
    exact fun _ => ⟨rfl, rfl⟩
  | bwrite j | beginOp =>
    obtain ⟨-, ⟨⟩⟩ := Option.ite_none_right_eq_some.1 ht
    exact .inl ⟨rfl, rfl⟩
  | endOp =>
    obtain ⟨-, ht⟩ := Option.ite_none_right_eq_some.1 ht
    split_ifs at ht <;> cases ht <;> exact .inl ⟨rfl, rfl⟩
  | clear | finish =>
    cases ht
    exact .inl ⟨rfl, rfl⟩

end Keys

/-! ### Actions -/

section Clean

variable {P : Type} {L : LogArea} {dev : ℕ} {s t : State P} {p : P} {a : Act} {i j : Fin NBUF}

/-- No process in `commit` is about to release a buffer that it has changed. -/
def Clean (dev : ℕ) (s : State P) : Prop :=
  ∀ p i, s.hold p i = .ready true → (s.buf i).dev = dev → Cleans (s.buf i).blockno (s.code p)

theorem Cleans.tail {b : ℕ} {x : Instr} {c : List Instr} (h : Cleans b (x :: c)) (hr : x ≠ .bread b)
    (hw : x ≠ .bwrite b) : Cleans b c := (h.2.resolve_left hr).resolve_left hw

/-- What is released in `commit` is not dirty. -/
theorem Clean.release (h : Clean dev s) (hf : s.follows L dev p (.release i) = true)
    (hne : s.code p ≠ []) : s.hold p i ≠ .ready true := by
  intro hi
  obtain ⟨b, c, hc, hfor⟩ : ∃ b c, s.code p = .brelse b :: c ∧ s.isFor i dev b = true := by
    cases hc : s.code p with
    | nil => exact absurd hc hne
    | cons x c =>
      have h := follows_cons hf hc
      cases x <;> simp_all [Instr.Allows]
  obtain ⟨hd, rfl⟩ := isFor_iff.1 hfor
  have := h p i hi hd
  rw [hc] at this
  exact this.1 rfl

variable [DecidableEq P]

/-- `bget` gives the process a buffer that it has still to lock. -/
theorem bget_hold {d b : ℕ} (ht : s.bget p d b = some t) :
    ∃ i, t.hold = (s.setHold p i .waiting).hold ∧ t.code = s.code := by
  rw [State.bget] at ht
  split at ht
  · split_ifs at ht
    cases ht
    exact ⟨_, rfl, rfl⟩
  · split at ht
    · cases ht
      exact ⟨_, rfl, rfl⟩
    · cases ht

/-- What a process has, and what it has still to do, changes only by its own actions. -/
theorem act_other (ht : act L dev s p a = some t) {q : P} (hq : q ≠ p) :
    t.hold q = s.hold q ∧ t.code q = s.code q := by
  have hhold (u : State P) (i : Fin NBUF) (st : Stage) : (u.setHold p i st).hold q = u.hold q :=
    setHold_hold_of_ne_left hq st
  have hpop (u : State P) : (u.pop p).code q = u.code q := Function.update_of_ne hq _ _
  cases a with
  | bget d b =>
    obtain ⟨i, hh, hcode⟩ := bget_hold ht
    exact ⟨hh ▸ hhold s i _, hcode ▸ rfl⟩
  | acquire i | write i v | release i =>
    obtain ⟨-, ⟨⟩⟩ := Option.ite_none_right_eq_some.1 ht
    exact ⟨hhold _ _ _, rfl⟩
  | read i | bwrite i | copy i j | head i =>
    obtain ⟨-, ⟨⟩⟩ := Option.ite_none_right_eq_some.1 ht
    exact ⟨hhold _ _ _, hpop _⟩
  | logWrite i =>
    obtain ⟨-, ⟨⟩⟩ := Option.ite_none_right_eq_some.1 ht
    rw [State.record]
    split_ifs <;> exact ⟨hhold _ _ _, rfl⟩
  | unref i =>
    obtain ⟨-, ⟨⟩⟩ := Option.ite_none_right_eq_some.1 ht
    rw [State.unref]
    split_ifs <;> exact ⟨hhold _ _ _, hpop _⟩
  | bunpin i =>
    obtain ⟨-, ⟨⟩⟩ := Option.ite_none_right_eq_some.1 ht
    exact ⟨rfl, hpop _⟩
  | beginOp =>
    obtain ⟨-, ⟨⟩⟩ := Option.ite_none_right_eq_some.1 ht
    exact ⟨rfl, rfl⟩
  | endOp =>
    obtain ⟨-, ht⟩ := Option.ite_none_right_eq_some.1 ht
    split_ifs at ht
    · cases ht
      exact ⟨rfl, Function.update_of_ne hq _ _⟩
    · cases ht
      exact ⟨rfl, rfl⟩
  | clear | finish =>
    cases ht
    exact ⟨rfl, hpop _⟩

/-- The process has gone on with one buffer. -/
theorem dirty_of_setHold (j : Fin NBUF) (st : Stage) (he : t.hold = (s.setHold p j st).hold)
    (hi : t.hold p i = .ready true) : s.hold p i = .ready true ∨ i = j ∧ st = .ready true := by
  rw [he] at hi
  by_cases hij : i = j
  · subst hij
    rw [setHold_hold_self] at hi
    exact .inr ⟨rfl, hi⟩
  · rw [setHold_hold_of_ne (.inr hij)] at hi
    exact .inl hi

theorem dirty_of_setHold_of_ne (j : Fin NBUF) (st : Stage) (he : t.hold = (s.setHold p j st).hold)
    (hst : st ≠ .ready true) (hi : t.hold p i = .ready true) : s.hold p i = .ready true :=
  (dirty_of_setHold j st he hi).resolve_right fun h => hst h.2

theorem unref_hold : (s.unref p j).hold = (s.setHold p j .none).hold := by
  rw [State.unref]
  split_ifs <;> rfl

theorem record_hold : (s.record p j).hold = (s.setHold p j (.ready false)).hold := by
  rw [State.record]
  split_ifs <;> rfl

/-- How a buffer becomes dirty. -/
theorem act_dirty (ht : act L dev s p a = some t) (hi : t.hold p i = .ready true) :
    s.hold p i = .ready true ∨ s.has p i = true ∧
      ((∃ v, a = .write i v) ∨ (∃ j, a = .copy j i) ∨ a = .head i) := by
  cases a with
  | bget d b =>
    obtain ⟨j, hh, -⟩ := bget_hold ht
    exact .inl (dirty_of_setHold_of_ne j .waiting hh (by simp) hi)
  | acquire j =>
    obtain ⟨-, ⟨⟩⟩ := Option.ite_none_right_eq_some.1 ht
    exact .inl (dirty_of_setHold_of_ne j .locked rfl (by simp) hi)
  | release j =>
    obtain ⟨-, ⟨⟩⟩ := Option.ite_none_right_eq_some.1 ht
    exact .inl (dirty_of_setHold_of_ne j .leaving rfl (by simp) hi)
  | read j | bwrite j =>
    obtain ⟨-, ⟨⟩⟩ := Option.ite_none_right_eq_some.1 ht
    exact .inl (dirty_of_setHold_of_ne j (.ready false) rfl (by simp) hi)
  | write j v =>
    obtain ⟨hhas, ⟨⟩⟩ := Option.ite_none_right_eq_some.1 ht
    obtain h | ⟨rfl, -⟩ := dirty_of_setHold j (.ready true) rfl hi
    · exact .inl h
    · exact .inr ⟨hhas, .inl ⟨v, rfl⟩⟩
  | copy k j =>
    obtain ⟨⟨-, hhas⟩, ⟨⟩⟩ := Option.ite_none_right_eq_some.1 ht
    obtain h | ⟨rfl, -⟩ := dirty_of_setHold j (.ready true) rfl hi
    · exact .inl h
    · exact .inr ⟨hhas, .inr (.inl ⟨k, rfl⟩)⟩
  | head j =>
    obtain ⟨hhas, ⟨⟩⟩ := Option.ite_none_right_eq_some.1 ht
    obtain h | ⟨rfl, -⟩ := dirty_of_setHold j (.ready true) rfl hi
    · exact .inl h
    · exact .inr ⟨hhas, .inr (.inr rfl)⟩
  | logWrite j =>
    obtain ⟨-, ⟨⟩⟩ := Option.ite_none_right_eq_some.1 ht
    exact .inl (dirty_of_setHold_of_ne _ _ record_hold (by simp) hi)
  | unref j =>
    obtain ⟨-, ⟨⟩⟩ := Option.ite_none_right_eq_some.1 ht
    exact .inl (dirty_of_setHold_of_ne _ _ unref_hold (by simp) hi)
  | bunpin j | beginOp =>
    obtain ⟨-, ⟨⟩⟩ := Option.ite_none_right_eq_some.1 ht
    exact .inl hi
  | endOp =>
    obtain ⟨-, ht⟩ := Option.ite_none_right_eq_some.1 ht
    split_ifs at ht <;> cases ht <;> exact .inl hi
  | clear | finish =>
    cases ht
    exact .inl hi

/-- What is left of `commit` after an action. -/
theorem act_code (ht : act L dev s p a = some t) :
    t.code p = s.code p ∨ t.code p = commit L s.lh ∨
      t.code p = (s.code p).tail ∧ (∀ i, a ≠ .acquire i) ∧ ∀ d b, a ≠ .bget d b := by
  have hpop (u : State P) : (u.pop p).code p = (u.code p).tail := Function.update_self _ _ _
  cases a with
  | bget d b =>
    obtain ⟨-, -, hcode⟩ := bget_hold ht
    exact .inl (congrFun hcode p)
  | acquire i | write i v | release i | beginOp =>
    obtain ⟨-, ⟨⟩⟩ := Option.ite_none_right_eq_some.1 ht
    exact .inl rfl
  | read i | bwrite i | copy i j | head i | bunpin i =>
    obtain ⟨-, ⟨⟩⟩ := Option.ite_none_right_eq_some.1 ht
    exact .inr (.inr ⟨hpop _, by simp, by simp⟩)
  | logWrite i =>
    obtain ⟨-, ⟨⟩⟩ := Option.ite_none_right_eq_some.1 ht
    rw [State.record]
    split_ifs <;> exact .inl rfl
  | unref i =>
    obtain ⟨-, ⟨⟩⟩ := Option.ite_none_right_eq_some.1 ht
    rw [State.unref]
    split_ifs <;> exact .inr (.inr ⟨hpop _, by simp, by simp⟩)
  | endOp =>
    obtain ⟨-, ht⟩ := Option.ite_none_right_eq_some.1 ht
    split_ifs at ht
    · cases ht
      exact .inr (.inl (Function.update_self _ _ _))
    · cases ht
      exact .inl rfl
  | clear | finish =>
    cases ht
    exact .inr (.inr ⟨hpop _, by simp, by simp⟩)

/-- What has been read or written is not dirty. -/
theorem act_ready (ht : act L dev s p a = some t) (ha : a = .read j ∨ a = .bwrite j) :
    t.hold p j = .ready false := by
  obtain rfl | rfl := ha
  all_goals
    obtain ⟨-, ⟨⟩⟩ := Option.ite_none_right_eq_some.1 ht
    exact setHold_hold_self

variable [Fintype P] {pins : List ℕ} {released : Fin NBUF → ℕ} {clock : ℕ} {l : List (Fin NBUF)}

theorem act_clean (hdev : dev ≠ 0) (hc : Cells dev s pins released clock l)
    (hsuf : ∀ p, s.code p ≠ [] → ∃ lh, s.code p <:+ commit L lh) (h : Clean dev s)
    (hf : s.follows L dev p a = true) (ht : act L dev s p a = some t) : Clean dev t := by
  intro q i hi hd
  have hkey {q : P} (hq : s.hold q i ≠ .none) :=
    (act_key hc ht i).resolve_right fun hz => hq ((hc.of_refcnt_zero hz.1).1 q)
  by_cases hqp : q = p
  · subst hqp
    obtain hold | ⟨hhas, ha⟩ := act_dirty ht hi
    · -- the buffer was dirty before
      have hk := hkey (q := q) (by rw [hold]; nofun)
      have hd' : (s.buf i).dev = dev := hk.1.symm.trans hd
      have hs := h q i hold hd'
      rw [hk.2]
      obtain hcode | hcode | ⟨hcode, hacquire, hbget⟩ := act_code ht
      · rw [hcode]
        exact hs
      · rw [hcode]
        exact cleans_commit L s.lh _
      · rw [hcode]
        cases hcq : s.code q with
        | nil => trivial
        | cons x c =>
          rw [hcq] at hs
          have hsame {j : Fin NBUF} (hj : s.isFor j dev (s.buf i).blockno = true) : j = i := by
            obtain ⟨hdj, hbj⟩ := isFor_iff.1 hj
            exact hc.unique i j (hd' ▸ hdev) (hdj.trans hd'.symm) hbj
          have hread {j : Fin NBUF} (hj : a = .read j ∨ a = .bwrite j)
              (hfor : s.isFor j dev (s.buf i).blockno = true) : False := by
            cases (act_ready ht hj).symm.trans (hsame hfor ▸ hi)
          refine hs.tail (fun hx => ?_) fun hx => ?_
          · obtain ⟨d, b, hget⟩ | ⟨j, hj | hj, hfor⟩ :=
              follows_cons (x := .bread _) hf (hx ▸ hcq)
            · exact hbget d b hget
            · exact hacquire j hj
            · exact hread (.inl hj) hfor
          · obtain ⟨j, hj, hfor⟩ := follows_cons (x := .bwrite _) hf (hx ▸ hcq)
            exact hread (.inr hj) hfor
    · -- it has just been changed
      have hk := hkey (q := q) (by obtain ⟨r, hr⟩ := has_iff.1 hhas; rw [hr]; nofun)
      rw [hk.2]
      have htail {x : Instr} {c : List Instr} (hcq : s.code q = x :: c)
          (hx : x.dst L = some (s.buf i).blockno) : Cleans (s.buf i).blockno c := by
        obtain ⟨lh, hsuf⟩ := hsuf q (hcq ▸ List.cons_ne_nil x c)
        rw [hcq] at hsuf
        exact (copies_of_suffix hsuf (copies_commit L lh)).cleans hx
      obtain ⟨v, rfl⟩ | ⟨j, rfl⟩ | rfl := ha
      · have hnil : s.code q = [] := by
          cases hcq : s.code q with
          | nil => rfl
          | cons x c =>
            have h := follows_cons hf hcq
            cases x <;> simp_all [Instr.Allows]
        obtain ⟨-, ⟨⟩⟩ := Option.ite_none_right_eq_some.1 ht
        change Cleans _ (s.code q)
        rw [hnil]
        trivial
      · obtain ⟨b, b', c, hcq, -, hfor⟩ := code_of_follows_copy hf
        obtain ⟨-, ⟨⟩⟩ := Option.ite_none_right_eq_some.1 ht
        have htc : (State.pop (s.put q i (s.buf j).data) q).code q = (s.code q).tail :=
          Function.update_self _ _ _
        rw [htc, hcq]
        exact htail hcq (by rw [(isFor_iff.1 hfor).2]; rfl)
      · obtain ⟨c, hcq, hfor⟩ := code_of_follows_head hf
        obtain ⟨-, ⟨⟩⟩ := Option.ite_none_right_eq_some.1 ht
        have htc : (State.pop (s.put q i (encodeHead s.lh (s.buf i).data)) q).code q =
            (s.code q).tail := Function.update_self _ _ _
        rw [htc, hcq]
        exact htail hcq (by rw [(isFor_iff.1 hfor).2]; rfl)
  · obtain ⟨hhold, hcode⟩ := act_other ht hqp
    rw [hhold] at hi
    have hk := hkey (q := q) (by rw [hi]; nofun)
    rw [hk.2, hcode]
    exact h q i hi (hk.1.symm.trans hd)

end Clean

end Xv6.Bio
