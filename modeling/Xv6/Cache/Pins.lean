import Xv6.Cache.Cells

/-!
# Pinned buffers and the log

`log_write` pins the buffer of a block, and `install_trans` unpins it. While nobody commits, the
pinned blocks are those in the log header. In `commit`, they are those that the rest of its program
unpins: this part of the program says how far `install_trans` is, and an instruction that unpins a
block comes right after the one that writes it home.
-/

namespace Xv6.Bio

open Function (update update_self update_of_ne)

/-! ### The program of `commit` -/

/-- The blocks that a program unpins, in order. -/
def unpins (c : List Instr) : List ℕ := c.filterMap fun
  | .bunpin b => some b
  | _ => none

theorem unpins_append (c c' : List Instr) : unpins (c ++ c') = unpins c ++ unpins c' :=
  List.filterMap_append

theorem unpins_writeLog (L : LogArea) (lh : List ℕ) : unpins (writeLog L lh) = [] := by
  rw [unpins, writeLog, List.filterMap_flatMap, List.flatMap_eq_nil_iff]
  exact fun _ _ => rfl

theorem unpins_installTrans (L : LogArea) (lh : List ℕ) : unpins (installTrans L lh) = lh := by
  rw [unpins, installTrans, List.filterMap_flatMap]
  change (lh.zipIdx.flatMap fun x => [x.1]) = lh
  rw [← List.map_eq_flatMap, List.zipIdx_map_fst]

theorem unpins_commit (L : LogArea) (lh : List ℕ) : unpins (commit L lh) = lh := by
  rw [commit]
  split_ifs with h
  · rw [h]
    rfl
  · simp only [unpins_append, unpins_writeLog, unpins_installTrans]
    change [] ++ [] ++ lh ++ [] ++ [] ++ [] = lh
    simp

/-- What holds of each round of the two loops and of the other parts, and stays when programs are
put together, holds of `commit`. -/
theorem commit_of_parts {L : LogArea} {R : List Instr → Prop} (hnil : R [])
    (happend : ∀ {c d}, R c → R d → R (c ++ d)) (hlog : ∀ x, R (logBlock L x))
    (hinstall : ∀ x, R (installBlock L x)) (hhead : R (writeHead L)) (hclear : R [.clear])
    (hfinish : R [.finish]) (lh : List ℕ) : R (commit L lh) := by
  have hloop {f : ℕ × ℕ → List Instr} (hf : ∀ x, R (f x)) (l : List (ℕ × ℕ)) :
      R (l.flatMap f) := by
    induction l with
    | nil => exact hnil
    | cons x l ih => exact happend (hf x) ih
  rw [commit]
  split_ifs
  · exact hfinish
  · exact happend (happend (happend (happend (happend (hloop hlog _) hhead)
      (hloop hinstall _)) hclear) hhead) hfinish

/-- A block is unpinned only right after it has been written. -/
def Writes (a b : Instr) : Prop := ∀ x, b = .bunpin x → a = .bwrite x

theorem Writes.of_ne {a b : Instr} (h : ∀ x, b ≠ .bunpin x) : Writes a b :=
  fun x hx => absurd hx (h x)

/-- The program does not begin by unpinning. -/
def Starts (c : List Instr) : Prop := ∀ b c', c ≠ .bunpin b :: c'

theorem isChain_cons_of_starts {a : Instr} {c : List Instr} (h : List.IsChain Writes c)
    (hs : Starts c) : List.IsChain Writes (a :: c) := by
  cases c with
  | nil => exact List.isChain_singleton a
  | cons b c => exact List.isChain_cons_cons.2 ⟨.of_ne fun x hx => hs x c (by rw [hx]), h⟩

theorem starts_cons {a : Instr} {c : List Instr} (h : ∀ x, a ≠ .bunpin x) : Starts (a :: c) :=
  fun b _ he => h b (List.cons.inj he).1

/-- Programs that may be put in front of others. -/
def Prefixes (c : List Instr) : Prop := ∀ c', List.IsChain Writes c' → Starts c' →
  List.IsChain Writes (c ++ c') ∧ Starts (c ++ c')

theorem Prefixes.nil : Prefixes [] := fun _ hc hs => ⟨hc, hs⟩

theorem Prefixes.cons {a : Instr} {c : List Instr} (ha : ∀ x, a ≠ .bunpin x) (h : Prefixes c) :
    Prefixes (a :: c) := fun d hd hs =>
  ⟨isChain_cons_of_starts (h d hd hs).1 (h d hd hs).2, starts_cons ha⟩

/-- A block is written and then unpinned. -/
theorem Prefixes.unpin {b : ℕ} {c : List Instr} (h : Prefixes c) :
    Prefixes (.bwrite b :: .bunpin b :: c) := fun d hd hs =>
  ⟨List.isChain_cons_cons.2 ⟨fun y hy => by rw [Instr.bunpin.inj hy],
    isChain_cons_of_starts (h d hd hs).1 (h d hd hs).2⟩, starts_cons nofun⟩

theorem Prefixes.append {c c' : List Instr} (h : Prefixes c) (h' : Prefixes c') :
    Prefixes (c ++ c') := fun d hd hs => by
  rw [List.append_assoc]
  exact h _ (h' d hd hs).1 (h' d hd hs).2

theorem prefixes_writeHead (L : LogArea) : Prefixes (writeHead L) :=
  .cons nofun (.cons nofun (.cons nofun (.cons nofun .nil)))

theorem prefixes_logBlock (L : LogArea) (x : ℕ × ℕ) : Prefixes (logBlock L x) :=
  .cons nofun (.cons nofun (.cons nofun (.cons nofun (.cons nofun (.cons nofun .nil)))))

theorem prefixes_installBlock (L : LogArea) (x : ℕ × ℕ) : Prefixes (installBlock L x) :=
  .cons nofun (.cons nofun (.cons nofun (.unpin (.cons nofun (.cons nofun .nil)))))

theorem isChain_commit (L : LogArea) (lh : List ℕ) :
    List.IsChain Writes (commit L lh) ∧ Starts (commit L lh) := by
  have hcommit : Prefixes (commit L lh) :=
    commit_of_parts .nil .append (prefixes_logBlock L) (prefixes_installBlock L)
      (prefixes_writeHead L) (.cons nofun .nil) (.cons nofun .nil) lh
  have h := hcommit [] .nil (by simp [Starts])
  rwa [List.append_nil] at h

/-- `finish` comes last. -/
theorem eq_nil_of_finish_suffix {L : LogArea} {lh : List ℕ} {c : List Instr}
    (h : .finish :: c <:+ commit L lh) : c = [] := by
  rw [commit] at h
  cases c using List.reverseRecOn with
  | nil => rfl
  | append_singleton c x =>
    obtain ⟨r, hr⟩ := h
    rw [← List.cons_append, ← List.append_assoc] at hr
    have hm : Instr.finish ∈ r ++ .finish :: c := List.mem_append_right _ List.mem_cons_self
    rw [(List.append_inj' hr rfl).1] at hm
    split_ifs at hm with hlh
    · exact absurd hm List.not_mem_nil
    · simp [writeLog, writeHead, installTrans, logBlock, installBlock] at hm

/-! ### The record -/

/-- The cache, and a record of what happened: the contents that were given to each block last, when
each buffer was released last, and the blocks that are pinned. -/
structure Watched (P : Type) where
  state : State P
  latest : ℕ → ℕ → Block
  released : Fin NBUF → ℕ
  clock : ℕ
  pins : List ℕ

variable {P : Type}

/-- The block of buffer `i` gets new contents. -/
def give (s : State P) (i : Fin NBUF) (v : Block) (c : ℕ → ℕ → Block) : ℕ → ℕ → Block :=
  update c (s.buf i).dev (update (c (s.buf i).dev) (s.buf i).blockno v)

/-- The contents of blocks after an action. `install_trans` gives no block new contents. -/
def latestAfter (L : LogArea) (s : State P) (latest : ℕ → ℕ → Block) : Act → ℕ → ℕ → Block
  | .write i v => give s i v latest
  | .copy i j => if L.IsHome (s.buf j).blockno then latest else give s j (s.buf i).data latest
  | .head i => give s i (encodeHead s.lh (s.buf i).data) latest
  | _ => latest

/-- The pinned blocks after an action. -/
def pinsAfter (s : State P) (pins : List ℕ) : Act → List ℕ
  | .logWrite i => if (s.buf i).blockno ∈ s.lh then pins else pins ++ [(s.buf i).blockno]
  | .bunpin i => pins.erase (s.buf i).blockno
  | _ => pins

/-- The record goes on. -/
def Watched.step [DecidableEq P] (L : LogArea) (dev : ℕ) (x : Watched P) (e : P × Act) :
    Option (Watched P) :=
  (Bio.step L dev x.state e).map fun t =>
    { state := t
      latest := latestAfter L x.state x.latest e.2
      released := match e.2 with
        | .unref i => update x.released i (x.clock + 1)
        | _ => x.released
      clock := match e.2 with
        | .unref _ => x.clock + 1
        | _ => x.clock
      pins := pinsAfter x.state x.pins e.2 }

/-- The cache after `binit`. -/
def Watched.init (disk : ℕ → ℕ → Block) : Watched P := ⟨Bio.init disk, disk, fun _ => 0, 0, []⟩

theorem give_self {s : State P} {i : Fin NBUF} {v : Block} {c : ℕ → ℕ → Block} :
    give s i v c (s.buf i).dev (s.buf i).blockno = v := by
  rw [give, update_self, update_self]

theorem give_of_ne {s : State P} {i : Fin NBUF} {v : Block} {c : ℕ → ℕ → Block} {d b : ℕ}
    (h : ¬ ((s.buf i).dev = d ∧ (s.buf i).blockno = b)) : give s i v c d b = c d b := by
  rw [give]
  by_cases hd : d = (s.buf i).dev
  · subst hd
    rw [update_self, update_of_ne]
    exact fun hb => h ⟨rfl, hb.symm⟩
  · rw [update_of_ne hd]

/-! ### What is pinned -/

/-- What `commit` has still to do, and what is pinned for it. -/
structure LogInv (L : LogArea) (dev : ℕ) (s : State P) (pins : List ℕ) : Prop where
  idle : s.committing = false → pins = s.lh ∧ ∀ p, s.code p = []
  quiet : s.committing = true → s.outstanding = 0
  code : ∀ p, s.code p ≠ [] → (∀ q, s.code q ≠ [] → q = p) ∧ pins = unpins (s.code p) ∧
    (∃ lh, s.code p <:+ commit L lh) ∧ (.clear ∉ s.code p → s.lh = [])
  home : ∀ p b c, s.code p = .bunpin b :: c → ∃ i, s.isFor i dev b = true ∧ s.has p i = true ∧
    s.disk dev b = (s.buf i).data

variable {L : LogArea} {dev : ℕ} {s t : State P} {p : P} {i : Fin NBUF} {a : Act}
  {b : ℕ} {c : List Instr} {pins : List ℕ}

/-- An action of `p` does nothing to what other processes have. -/
structure Spares (s t : State P) (p : P) : Prop where
  hold : ∀ q, q ≠ p → t.hold q = s.hold q
  buf : ∀ q, q ≠ p → ∀ i, (s.hold q i).locks = true →
    ((t.buf i).dev = (s.buf i).dev ∧ (t.buf i).blockno = (s.buf i).blockno) ∧
      (t.buf i).data = (s.buf i).data
  disk : ∀ q, q ≠ p → ∀ i, (s.hold q i).locks = true → (s.buf i).dev ≠ 0 →
    t.disk (s.buf i).dev (s.buf i).blockno = s.disk (s.buf i).dev (s.buf i).blockno

/-! ### The next instruction -/

/-- The action is one of those that an instruction of `commit` consists of. -/
def Instr.Allows (L : LogArea) (dev : ℕ) (s : State P) (a : Act) : Instr → Prop
  | .bread b =>
    (∃ d b', a = .bget d b') ∨ ∃ i, (a = .acquire i ∨ a = .read i) ∧ s.isFor i dev b = true
  | .copy b b' => ∃ i j, a = .copy i j ∧ s.isFor i dev b = true ∧ s.isFor j dev b' = true
  | .head => ∃ i, a = .head i ∧ s.isFor i dev L.start = true
  | .bwrite b => ∃ i, a = .bwrite i ∧ s.isFor i dev b = true
  | .bunpin b => ∃ i, a = .bunpin i ∧ s.isFor i dev b = true
  | .brelse b => ∃ i, (a = .release i ∨ a = .unref i) ∧ s.isFor i dev b = true
  | .clear => a = .clear
  | .finish => a = .finish

/-- A process in `commit` does what its program says. -/
theorem follows_cons {x : Instr} (hf : s.follows L dev p a = true) (hc : s.code p = x :: c) :
    x.Allows L dev s a := by
  cases x <;> cases a <;> simp_all [State.follows, Instr.Allows]

/-- A process in the file system does none of this. -/
theorem follows_nil (hf : s.follows L dev p a = true) (hc : s.code p = []) :
    (∀ i, a ≠ .bunpin i) ∧ (∀ i j, a ≠ .copy i j) ∧ (∀ i, a ≠ .head i) ∧ a ≠ .clear ∧
      a ≠ .finish := by
  cases a <;> simp_all [State.follows]

theorem code_of_follows_bunpin (hf : s.follows L dev p (.bunpin i) = true) :
    ∃ b c, s.code p = .bunpin b :: c ∧ s.isFor i dev b = true := by
  cases hc : s.code p with
  | nil => exact absurd rfl ((follows_nil hf hc).1 i)
  | cons x c =>
    have h := follows_cons hf hc
    cases x <;> simp_all [Instr.Allows]

theorem code_of_follows_copy {j : Fin NBUF} (hf : s.follows L dev p (.copy i j) = true) :
    ∃ b b' c, s.code p = .copy b b' :: c ∧ s.isFor i dev b = true ∧ s.isFor j dev b' = true := by
  cases hc : s.code p with
  | nil => exact absurd rfl ((follows_nil hf hc).2.1 i j)
  | cons x c =>
    have h := follows_cons hf hc
    cases x <;> simp_all [Instr.Allows]

theorem code_of_follows_head (hf : s.follows L dev p (.head i) = true) :
    ∃ c, s.code p = .head :: c ∧ s.isFor i dev L.start = true := by
  cases hc : s.code p with
  | nil => exact absurd rfl ((follows_nil hf hc).2.2.1 i)
  | cons x c =>
    have h := follows_cons hf hc
    cases x <;> simp_all [Instr.Allows]

theorem code_of_follows_clear (hf : s.follows L dev p .clear = true) :
    ∃ c, s.code p = .clear :: c := by
  cases hc : s.code p with
  | nil => exact absurd rfl (follows_nil hf hc).2.2.2.1
  | cons x c =>
    have h := follows_cons hf hc
    cases x <;> simp_all [Instr.Allows]

theorem code_of_follows_finish (hf : s.follows L dev p .finish = true) :
    ∃ c, s.code p = .finish :: c := by
  cases hc : s.code p with
  | nil => exact absurd rfl (follows_nil hf hc).2.2.2.2
  | cons x c =>
    have h := follows_cons hf hc
    cases x <;> simp_all [Instr.Allows]

/-! ### Actions and `LogInv` -/

namespace LogInv

/-- While operations are outstanding, nobody commits. -/
theorem committing_eq_false (h : LogInv L dev s pins) (hout : 1 ≤ s.outstanding) :
    s.committing = false := by
  by_contra hne
  have := h.quiet (Bool.eq_true_of_not_eq_false hne)
  omega

/-- Nothing happens to the log. -/
theorem keep (h : LogInv L dev s pins) (hcommitting : t.committing = s.committing)
    (hout : t.outstanding = s.outstanding) (hlh : t.lh = s.lh) (hcode : t.code = s.code)
    (hhome : ∀ q b c, s.code q = .bunpin b :: c → ∃ i, t.isFor i dev b = true ∧ t.has q i = true ∧
      t.disk dev b = (t.buf i).data) : LogInv L dev t pins where
  idle := by
    rw [hcommitting, hlh, hcode]
    exact h.idle
  quiet := by
    rw [hcommitting, hout]
    exact h.quiet
  code := by
    rw [hlh, hcode]
    exact h.code
  home := by
    rw [hcode]
    exact hhome

/-- An action spares what has been written home by another process. -/
theorem home_of_spares (h : LogInv L dev s pins) (hdev : dev ≠ 0) (hs : Spares s t p)
    (hp : ∀ b c, s.code p ≠ .bunpin b :: c) (q : P) (b : ℕ) (c : List Instr)
    (hq : s.code q = .bunpin b :: c) : ∃ i, t.isFor i dev b = true ∧ t.has q i = true ∧
      t.disk dev b = (t.buf i).data := by
  have hqp : q ≠ p := fun he => hp b c (he ▸ hq)
  obtain ⟨i, hfor, hhas, hdisk⟩ := h.home q b c hq
  obtain ⟨hd, hb⟩ := isFor_iff.1 hfor
  have hlock := locks_of_has hhas
  obtain ⟨⟨hd', hb'⟩, hdata⟩ := hs.buf q hqp i hlock
  refine ⟨i, isFor_iff.2 ⟨hd'.trans hd, hb'.trans hb⟩, ?_, ?_⟩
  · rw [State.has, hs.hold q hqp]
    exact hhas
  · have := hs.disk q hqp i hlock (hd ▸ hdev)
    rw [hd, hb] at this
    rw [this, hdata, hdisk]

/-- An action that does nothing to the log. -/
theorem act (h : LogInv L dev s pins) (hdev : dev ≠ 0) (hs : Spares s t p)
    (hcommitting : t.committing = s.committing) (hout : t.outstanding = s.outstanding)
    (hlh : t.lh = s.lh) (hcode : t.code = s.code) (hf : s.follows L dev p a = true)
    (ha : ∀ i, a ≠ .bunpin i) : LogInv L dev t pins := by
  refine h.keep hcommitting hout hlh hcode (h.home_of_spares hdev hs fun b c hc => ?_)
  obtain ⟨i, hi, -⟩ := follows_cons hf hc
  exact ha i hi

/-- `begin_op`, and `end_op` where others are outstanding. -/
theorem setOps (h : LogInv L dev s pins) (hcommitting : s.committing = false) (o : ℕ)
    (inOp : P → Bool) : LogInv L dev { s with outstanding := o, inOp := inOp } pins := by
  obtain ⟨hpins, hcode⟩ := h.idle hcommitting
  exact ⟨fun _ => ⟨hpins, hcode⟩, fun ht => absurd (hcommitting.symm.trans ht) nofun,
    fun q hq => absurd (hcode q) hq, fun q b c hq => absurd ((hcode q).symm.trans hq) nofun⟩

variable [DecidableEq P]

theorem pop_eq_self (hc : s.code p = []) : s.pop p = s := by
  rw [State.pop, hc, List.tail_nil, ← hc, Function.update_eq_self]

/-- The next instruction of `commit` has been done. -/
theorem pop (h : LogInv L dev s pins) {x : Instr} {c : List Instr} {pins' : List ℕ}
    (hc : s.code p = x :: c) (hpins : pins' = unpins c)
    (hclear : x = .clear → s.lh = [])
    (hwrite : ∀ b, x = .bwrite b → ∃ i, s.isFor i dev b = true ∧ s.has p i = true ∧
      s.disk dev b = (s.buf i).data) : LogInv L dev (s.pop p) pins' := by
  have hne : s.code p ≠ [] := hc ▸ List.cons_ne_nil x c
  obtain ⟨honly, -, ⟨lh, hsuf⟩, hlh⟩ := h.code p hne
  have hcommitting : s.committing = true := by
    by_contra hf
    exact hne ((h.idle (Bool.eq_false_iff.2 hf)).2 p)
  have hself : (s.pop p).code p = c := by
    rw [State.pop, hc]
    exact update_self _ _ _
  have hother {q : P} (hq : (s.pop p).code q ≠ []) : q = p := by
    by_contra hqp
    have heq : (s.pop p).code q = s.code q := update_of_ne hqp _ _
    exact hqp (honly q (heq ▸ hq))
  refine ⟨fun hf => ?_, fun _ => h.quiet hcommitting, fun q hq => ?_, fun q b c' hq => ?_⟩
  · exact absurd (hcommitting.symm.trans hf) nofun
  · obtain rfl := hother hq
    rw [hself]
    refine ⟨fun q' hq' => hother hq', hpins, ⟨lh, ?_⟩, fun hm => ?_⟩
    · exact (List.suffix_cons x c).trans (hc ▸ hsuf)
    · by_cases hxc : x = .clear
      · exact hclear hxc
      · refine hlh fun hm' => hm ?_
        rw [hc] at hm'
        exact (List.mem_cons.1 hm').resolve_left (Ne.symm hxc)
  · have hqp : q = p := hother (by rw [hq]; exact List.cons_ne_nil _ _)
    subst hqp
    rw [hself] at hq
    -- a block is unpinned only right after it has been written
    obtain ⟨r, hr⟩ := hsuf
    have hchain := (isChain_commit L lh).1
    rw [← hr, hc, hq, List.isChain_append_cons_cons] at hchain
    exact hwrite b (hchain.2.1 b rfl)

/-- An action of `commit`, or of the file system. -/
theorem advance (h : LogInv L dev s pins) (hdev : dev ≠ 0) (hs : Spares s t p)
    (hcommitting : t.committing = s.committing) (hout : t.outstanding = s.outstanding)
    (hlh : t.lh = s.lh) (hcode : t.code = s.code) (hf : s.follows L dev p a = true)
    (ha : ∀ i, a ≠ .bunpin i) (hclear : a ≠ .clear)
    (hwrite : ∀ i b, a = .bwrite i → s.isFor i dev b = true → t.isFor i dev b = true ∧
      t.has p i = true ∧ t.disk dev b = (t.buf i).data) : LogInv L dev (t.pop p) pins := by
  have hunpin (b : ℕ) (c : List Instr) : s.code p ≠ .bunpin b :: c := fun hc => by
    obtain ⟨i, hi, -⟩ := follows_cons hf hc
    exact ha i hi
  have ht : LogInv L dev t pins :=
    h.keep hcommitting hout hlh hcode (h.home_of_spares hdev hs hunpin)
  cases hc : s.code p with
  | nil =>
    rw [pop_eq_self (hcode ▸ hc)]
    exact ht
  | cons x c =>
    refine ht.pop (hcode ▸ hc) ?_ (fun hx => ?_) fun b hx => ?_
    · have hp := (h.code p (hc ▸ List.cons_ne_nil x c)).2.1
      rw [hc] at hp
      cases x with
      | bunpin b => exact absurd hc (hunpin b c)
      | _ => exact hp
    · exact absurd (follows_cons (x := .clear) hf (hx ▸ hc)) hclear
    · obtain ⟨i, hi, hfor⟩ := follows_cons (x := .bwrite b) hf (hx ▸ hc)
      exact ⟨i, hwrite i b hi hfor⟩

/-- The last operation ends. -/
theorem start (h : LogInv L dev s pins) (hcommitting : s.committing = false) {o : ℕ} (ho : o = 0)
    (inOp : P → Bool) : LogInv L dev { s with
      outstanding := o, inOp := inOp, committing := true
      code := update s.code p (commit L s.lh) } pins := by
  obtain ⟨hpins, hcode⟩ := h.idle hcommitting
  have hother {q : P} (hq : update s.code p (commit L s.lh) q ≠ []) : q = p := by
    by_contra hqp
    rw [update_of_ne hqp] at hq
    exact hq (hcode q)
  refine ⟨nofun, fun _ => ho, fun q hq => ?_, fun q b c hq => ?_⟩
  · obtain rfl := hother hq
    change _ ∧ pins = unpins (update s.code q (commit L s.lh) q) ∧
      (∃ lh, update s.code q (commit L s.lh) q <:+ _) ∧
      (.clear ∉ update s.code q (commit L s.lh) q → _)
    rw [update_self, unpins_commit]
    refine ⟨fun _ => hother, hpins, ⟨s.lh, List.suffix_rfl⟩, fun hm => ?_⟩
    by_contra hne
    change s.lh ≠ [] at hne
    exact hm (by rw [commit, if_neg hne]; simp)
  · change update s.code p (commit L s.lh) q = _ at hq
    obtain rfl := hother (by rw [hq]; exact List.cons_ne_nil _ _)
    rw [update_self] at hq
    exact absurd hq ((isChain_commit L s.lh).2 b c)

/-- The header is cleared. -/
theorem clear (h : LogInv L dev s pins) (hf : s.follows L dev p .clear = true) :
    LogInv L dev (State.pop { s with lh := [] } p) pins := by
  obtain ⟨c, hcode⟩ := code_of_follows_clear hf
  have hne : s.code p ≠ [] := hcode ▸ List.cons_ne_nil _ _
  have hmid : LogInv L dev { s with lh := [] } pins := by
    refine ⟨fun hc => absurd ((h.idle hc).2 p) hne, h.quiet, fun q hq => ?_, h.home⟩
    obtain ⟨honly, hpins, hsuf, -⟩ := h.code q hq
    exact ⟨honly, hpins, hsuf, fun _ => rfl⟩
  refine hmid.pop hcode ?_ (fun _ => rfl) nofun
  have hpins := (h.code p hne).2.1
  rw [hcode] at hpins
  exact hpins

/-- The end of `commit`. -/
theorem finish (h : LogInv L dev s pins) (hf : s.follows L dev p .finish = true) :
    LogInv L dev (State.pop { s with committing := false } p) pins := by
  obtain ⟨c, hcode⟩ := code_of_follows_finish hf
  obtain ⟨honly, hpins, ⟨lh, hsuf⟩, hlh⟩ := h.code p (hcode ▸ List.cons_ne_nil _ _)
  rw [hcode] at hsuf hpins hlh
  obtain rfl := eq_nil_of_finish_suffix hsuf
  have hnil (q : P) : (State.pop { s with committing := false } p).code q = [] := by
    by_cases hqp : q = p
    · subst hqp
      change update s.code q (s.code q).tail q = []
      rw [hcode, update_self]
      rfl
    · by_contra hq
      change update s.code p _ q ≠ [] at hq
      rw [update_of_ne hqp] at hq
      exact hqp (honly q hq)
  exact ⟨fun _ => ⟨hpins.trans (hlh (by simp)).symm, hnil⟩, nofun, fun q hq => absurd (hnil q) hq,
    fun q b c hq => absurd ((hnil q).symm.trans hq) nofun⟩

end LogInv

/-- A recorded block is pinned. -/
theorem logWrite_mem_pins [DecidableEq P] {x y : Watched P} (hl : LogInv L dev x.state x.pins)
    (hy : x.step L dev (p, .logWrite i) = some y) : (x.state.buf i).blockno ∈ y.pins := by
  obtain ⟨t, ht, rfl⟩ := Option.map_eq_some_iff.1 hy
  rw [step] at ht
  split_ifs at ht
  obtain ⟨⟨-, -, -, hout, -⟩, -⟩ := Option.ite_none_right_eq_some.1 ht
  change _ ∈ pinsAfter x.state x.pins (.logWrite i)
  rw [pinsAfter]
  split_ifs with hmem
  · rw [(hl.idle (hl.committing_eq_false hout)).1]
    exact hmem
  · exact List.mem_append_right _ (List.mem_singleton.2 rfl)

/-! ### Actions spare the buffers of others -/

section Spare

section Lock

variable [Fintype P] {released : Fin NBUF → ℕ} {clock : ℕ} {l : List (Fin NBUF)}

/-- Nobody else has the lock. -/
theorem Cells.locks_eq_false (h : Cells dev s pins released clock l)
    (hi : (s.hold p i).locks = true ∨ (s.buf i).lock = none) (q : P) (hq : q ≠ p) :
    (s.hold q i).locks = false := by
  by_contra hl
  have hq' := h.lock q i (Bool.eq_true_of_not_eq_false hl)
  obtain hp | hp := hi
  · exact hq (Option.some.inj (hq'.symm.trans (h.lock p i hp)))
  · cases hq'.symm.trans hp

end Lock

variable [DecidableEq P]

theorem setHold_hold_of_ne_left {q : P} (hq : q ≠ p) (st : Stage) :
    (s.setHold p i st).hold q = s.hold q := funext fun _ => setHold_hold_of_ne (.inl hq)

/-- The buffer is changed in its count, or nobody else has it. -/
theorem spares_upd (f : Buf P → Buf P) (st : Stage)
    (hf : (∀ b, ((f b).dev = b.dev ∧ (f b).blockno = b.blockno) ∧ (f b).data = b.data) ∨
      ∀ q, q ≠ p → (s.hold q i).locks = false) : Spares s ((s.upd i f).setHold p i st) p where
  hold q hq := setHold_hold_of_ne_left hq st
  buf q hq j hj := by
    rw [setHold_buf]
    by_cases hji : j = i
    · subst hji
      rw [upd_buf_self]
      exact hf.elim (fun hf => hf _) fun hfree => absurd (hj.symm.trans (hfree q hq)) nofun
    · rw [upd_buf_of_ne f hji]
      exact ⟨⟨rfl, rfl⟩, rfl⟩
  disk _ _ _ _ _ := rfl

variable [Fintype P] {released : Fin NBUF → ℕ} {clock : ℕ} {l : List (Fin NBUF)}

theorem Cells.spares_bwrite (h : Cells dev s pins released clock l)
    (hi : (s.hold p i).locks = true) : Spares s (s.bwrite p i) p where
  hold q hq := setHold_hold_of_ne_left hq _
  buf _ _ _ _ := ⟨⟨rfl, rfl⟩, rfl⟩
  disk q hq j hj hd := by
    have hji : j ≠ i := by
      rintro rfl
      exact absurd (hj.symm.trans (h.locks_eq_false (.inl hi) q hq)) nofun
    -- another buffer is one of another block
    exact give_of_ne fun hk => hji (h.unique j i hd hk.1 hk.2).symm

/-- What `bget` does. -/
theorem Cells.bget_cases (h : Cells dev s pins released clock l) {d b : ℕ}
    (ht : s.bget p d b = some t) :
    (∃ i, ((s.buf i).dev = d ∧ (s.buf i).blockno = b) ∧ s.hold p i = .none ∧ t = s.hit p i) ∨
      ∃ i, ((s.buf i).refcnt = 0 ∧ ∀ j, (s.buf j).refcnt = 0 → released i ≤ released j) ∧
        (∀ j, ¬ ((s.buf j).dev = d ∧ (s.buf j).blockno = b)) ∧ t = s.recycle p i d b := by
  rw [State.bget] at ht
  split at ht
  · rename_i i hl
    split_ifs at ht with hhold
    exact .inl ⟨i, h.lookup_some hl, hhold, (Option.some.inj ht).symm⟩
  · rename_i hl
    split at ht
    · rename_i i hv
      exact .inr ⟨i, h.victim_some hv, h.lookup_none hl, (Option.some.inj ht).symm⟩
    · cases ht

end Spare

/-! ### The invariant -/

section Inv

variable [Fintype P] {released : Fin NBUF → ℕ} {clock : ℕ} {l : List (Fin NBUF)}

/-- The invariant of the cache and the log. -/
structure Inv (L : LogArea) (dev : ℕ) (x : Watched P) : Prop where
  cells : ∃ l, Cells dev x.state x.pins x.released x.clock l
  log : LogInv L dev x.state x.pins

theorem inv_init (L : LogArea) (dev : ℕ) (disk : ℕ → ℕ → Block) :
    Inv L dev (Watched.init disk : Watched P) where
  cells := ⟨_, cells_init dev disk⟩
  log := ⟨fun _ => ⟨rfl, fun _ => rfl⟩, nofun, fun _ h => absurd rfl h, nofun⟩

variable [DecidableEq P]

theorem bget_inv (hc : Cells dev s pins released clock l) (hl : LogInv L dev s pins)
    (hdev : dev ≠ 0) {d b : ℕ} (hf : s.follows L dev p (.bget d b) = true)
    (ht : s.bget p d b = some t) : Cells dev t pins released clock l ∧ LogInv L dev t pins := by
  obtain ⟨i, -, hhold, rfl⟩ | ⟨i, ⟨hzero, -⟩, hnone, rfl⟩ := hc.bget_cases ht
  · have hs : Spares s (s.hit p i) p := spares_upd _ _ (.inl fun _ => ⟨⟨rfl, rfl⟩, rfl⟩)
    exact ⟨hc.hit hhold, hl.act hdev hs rfl rfl rfl rfl hf nofun⟩
  · have hs : Spares s (s.recycle p i d b) p := spares_upd _ _ (.inr fun q _ => by
      rw [(hc.of_refcnt_zero hzero).1 q]
      rfl)
    exact ⟨hc.recycle hzero hnone, hl.act hdev hs rfl rfl rfl rfl hf nofun⟩

/-- The contents of a buffer are changed. -/
theorem put_inv (hc : Cells dev s pins released clock l) (hhas : s.has p i = true) (v : Block) :
    Cells dev (s.put p i v) pins released clock l ∧ Spares s (s.put p i v) p := by
  have hl := locks_of_has hhas
  refine ⟨hc.goOn _ (fun _ => ⟨⟨rfl, rfl⟩, rfl⟩) (ref_of_locks hl) rfl (.inl hl) fun _ => ?_,
    spares_upd _ _ (.inr (hc.locks_eq_false (.inl hl)))⟩
  exact hc.lock p i hl

/-- What is missing is read from the disk. -/
theorem read_inv (hc : Cells dev s pins released clock l) (hhold : s.hold p i = .locked) :
    Cells dev (s.read p i) pins released clock l ∧ Spares s (s.read p i) p := by
  have hl : (s.hold p i).locks = true := by rw [hhold]; rfl
  refine ⟨hc.goOn _ (fun b => ?_) (ref_of_locks hl) rfl (.inl hl) fun _ => ?_,
    spares_upd _ _ (.inr (hc.locks_eq_false (.inl hl)))⟩
  · cases b.valid <;> exact ⟨⟨rfl, rfl⟩, rfl⟩
  · rw [← hc.lock p i hl]
    cases (s.buf i).valid <;> rfl

theorem logWrite_inv (hc : Cells dev s pins released clock l) (hl : LogInv L dev s pins)
    (hdev : dev ≠ 0) (hf : s.follows L dev p (.logWrite i) = true) (hhas : s.has p i = true)
    (hd : (s.buf i).dev = dev) (hout : 1 ≤ s.outstanding) :
    Cells dev (s.record p i) (pinsAfter s pins (.logWrite i)) released clock l ∧
      LogInv L dev (s.record p i) (pinsAfter s pins (.logWrite i)) := by
  have hlock := locks_of_has hhas
  have hcommitting := hl.committing_eq_false hout
  obtain ⟨hpins, hcode⟩ := hl.idle hcommitting
  rw [State.record, pinsAfter]
  split_ifs with hmem
  · refine ⟨hc.setHold _ hlock rfl, hl.act hdev ?_ rfl rfl rfl rfl hf nofun⟩
    exact ⟨fun q hq => setHold_hold_of_ne_left hq _, fun _ _ _ _ => ⟨⟨rfl, rfl⟩, rfl⟩,
      fun _ _ _ _ _ => rfl⟩
  · refine ⟨((hc.bpin hdev hd (hpins ▸ hmem)).setHold _ hlock rfl).congr rfl rfl rfl, ?_⟩
    exact ⟨fun _ => ⟨congrArg (· ++ [(s.buf i).blockno]) hpins, hcode⟩,
      fun h => absurd (hcommitting.symm.trans h) nofun, fun q hq => absurd (hcode q) hq,
      fun q b c hq => absurd ((hcode q).symm.trans hq) nofun⟩

theorem bunpin_inv (hc : Cells dev s pins released clock l) (hl : LogInv L dev s pins)
    (hdev : dev ≠ 0) (hf : s.follows L dev p (.bunpin i) = true) (hhas : s.has p i = true) :
    let t := (s.upd i fun b => { b with refcnt := b.refcnt - 1 }).pop p
    Cells dev t (pinsAfter s pins (.bunpin i)) released clock l ∧
      LogInv L dev t (pinsAfter s pins (.bunpin i)) := by
  obtain ⟨b, c, hcode, hfor⟩ := code_of_follows_bunpin hf
  obtain ⟨hd, hb⟩ := isFor_iff.1 hfor
  have hpins : pins = b :: unpins c := by
    have := (hl.code p (hcode ▸ List.cons_ne_nil _ _)).2.1
    rw [hcode] at this
    exact this
  have hpin : Pinned dev s pins i := ⟨hd, hb ▸ hpins ▸ List.mem_cons_self⟩
  obtain ⟨r, hr⟩ := has_iff.1 hhas
  refine ⟨(hc.bunpin hdev hpin (p := p) (by rw [hr]; nofun)).congr rfl rfl rfl, ?_⟩
  have hmid : LogInv L dev (s.upd i fun b => { b with refcnt := b.refcnt - 1 }) pins := by
    refine hl.keep rfl rfl rfl rfl fun q b c hq => ?_
    obtain ⟨j, hj, hhas, hdisk⟩ := hl.home q b c hq
    have hkey := upd_key (s := s) (i := i) (f := fun b => { b with refcnt := b.refcnt - 1 })
      (fun b => ⟨rfl, rfl⟩) j
    refine ⟨j, ?_, hhas, hdisk.trans ?_⟩
    · rw [isFor_iff, hkey.1, hkey.2]
      exact isFor_iff.1 hj
    · by_cases hji : j = i
      · rw [hji, upd_buf_self]
      · rw [upd_buf_of_ne _ hji]
  refine hmid.pop hcode ?_ nofun nofun
  rw [pinsAfter, hb, hpins, List.erase_cons_head]

theorem unref_inv (hc : Cells dev s pins released clock l) (hl : LogInv L dev s pins)
    (hdev : dev ≠ 0) (hf : s.follows L dev p (.unref i) = true) (hhold : s.hold p i = .leaving) :
    (∃ l', Cells dev ((s.unref p i).pop p) pins (update released i (clock + 1)) (clock + 1)
      l') ∧ LogInv L dev ((s.unref p i).pop p) pins := by
  obtain ⟨l', hc'⟩ := hc.unref hhold
  refine ⟨⟨l', hc'.congr rfl rfl rfl⟩, ?_⟩
  have hs : Spares s ((s.upd i fun b => { b with refcnt := b.refcnt - 1 }).setHold p i .none) p :=
    spares_upd _ _ (.inl fun _ => ⟨⟨rfl, rfl⟩, rfl⟩)
  rw [State.unref]
  split_ifs
  · exact hl.advance hdev ⟨hs.hold, hs.buf, hs.disk⟩ rfl rfl rfl rfl hf (by simp) (by simp)
      (by simp)
  · exact hl.advance hdev hs rfl rfl rfl rfl hf (by simp) (by simp) (by simp)

theorem bwrite_inv (hc : Cells dev s pins released clock l) (hl : LogInv L dev s pins)
    (hdev : dev ≠ 0) (hf : s.follows L dev p (.bwrite i) = true) (hhas : s.has p i = true) :
    Cells dev ((s.bwrite p i).pop p) pins released clock l ∧
      LogInv L dev ((s.bwrite p i).pop p) pins := by
  have hlock := locks_of_has hhas
  refine ⟨(hc.setHold (.ready false) hlock rfl).congr rfl rfl rfl,
    hl.advance hdev (hc.spares_bwrite hlock) rfl rfl rfl rfl hf nofun nofun fun j b hj hfor => ?_⟩
  obtain rfl := Act.bwrite.inj hj
  obtain ⟨hd, hb⟩ := isFor_iff.1 hfor
  refine ⟨hfor, has_iff.2 ⟨false, setHold_hold_self⟩, ?_⟩
  rw [← hd, ← hb]
  exact give_self

/-- Every action keeps the invariant. -/
theorem step_inv {x y : Watched P} {e : P × Act} (hdev : dev ≠ 0) (h : Inv L dev x)
    (hstep : x.step L dev e = some y) : Inv L dev y := by
  obtain ⟨t, ht, rfl⟩ := Option.map_eq_some_iff.1 hstep
  obtain ⟨p, a⟩ := e
  obtain ⟨⟨l, hc⟩, hl⟩ := h
  rw [step] at ht
  split_ifs at ht with hf
  change act L dev x.state p a = some t at ht
  change x.state.follows L dev p a = true at hf
  cases a with
  | bget d b =>
    obtain ⟨hc', hl'⟩ := bget_inv hc hl hdev hf ht
    exact ⟨⟨l, hc'⟩, hl'⟩
  | acquire i =>
    obtain ⟨⟨hhold, hfree⟩, ⟨⟩⟩ := Option.ite_none_right_eq_some.1 ht
    have hs := spares_upd (s := x.state) (p := p) (i := i) (fun b => { b with lock := some p })
      .locked (.inl fun _ => ⟨⟨rfl, rfl⟩, rfl⟩)
    refine ⟨⟨l, hc.goOn _ (fun _ => ⟨⟨rfl, rfl⟩, rfl⟩) ?_ rfl (.inr hfree) fun _ => rfl⟩,
      hl.act hdev hs rfl rfl rfl rfl hf nofun⟩
    rw [hhold]
    rfl
  | read i =>
    obtain ⟨hhold, ⟨⟩⟩ := Option.ite_none_right_eq_some.1 ht
    obtain ⟨hc', hs⟩ := read_inv hc hhold
    exact ⟨⟨l, hc'.congr rfl rfl rfl⟩, hl.advance hdev hs rfl rfl rfl rfl hf nofun nofun nofun⟩
  | write i v =>
    obtain ⟨hhas, ⟨⟩⟩ := Option.ite_none_right_eq_some.1 ht
    obtain ⟨hc', hs⟩ := put_inv hc hhas v
    exact ⟨⟨l, hc'⟩, hl.act hdev hs rfl rfl rfl rfl hf nofun⟩
  | bwrite i =>
    obtain ⟨hhas, ⟨⟩⟩ := Option.ite_none_right_eq_some.1 ht
    obtain ⟨hc', hl'⟩ := bwrite_inv hc hl hdev hf hhas
    exact ⟨⟨l, hc'⟩, hl'⟩
  | logWrite i =>
    obtain ⟨⟨hhas, -, hd, hout, -, -⟩, ⟨⟩⟩ := Option.ite_none_right_eq_some.1 ht
    obtain ⟨hc', hl'⟩ := logWrite_inv hc hl hdev hf hhas hd hout
    exact ⟨⟨l, hc'⟩, hl'⟩
  | bunpin i =>
    obtain ⟨hhas, ⟨⟩⟩ := Option.ite_none_right_eq_some.1 ht
    obtain ⟨hc', hl'⟩ := bunpin_inv hc hl hdev hf hhas
    exact ⟨⟨l, hc'⟩, hl'⟩
  | release i =>
    obtain ⟨hhas, ⟨⟩⟩ := Option.ite_none_right_eq_some.1 ht
    have hlock := locks_of_has hhas
    have hs := spares_upd (s := x.state) (p := p) (i := i) (fun b => { b with lock := none })
      .leaving (.inl fun _ => ⟨⟨rfl, rfl⟩, rfl⟩)
    exact ⟨⟨l, hc.goOn _ (fun _ => ⟨⟨rfl, rfl⟩, rfl⟩) (ref_of_locks hlock) rfl (.inl hlock) nofun⟩,
      hl.act hdev hs rfl rfl rfl rfl hf nofun⟩
  | unref i =>
    obtain ⟨hhold, ⟨⟩⟩ := Option.ite_none_right_eq_some.1 ht
    obtain ⟨hc', hl'⟩ := unref_inv hc hl hdev hf hhold
    exact ⟨hc', hl'⟩
  | beginOp =>
    obtain ⟨⟨-, hcommitting, -⟩, ⟨⟩⟩ := Option.ite_none_right_eq_some.1 ht
    exact ⟨⟨l, hc.congr rfl rfl rfl⟩, hl.setOps hcommitting _ _⟩
  | endOp =>
    obtain ⟨⟨-, hcommitting⟩, ht⟩ := Option.ite_none_right_eq_some.1 ht
    split_ifs at ht with hlast
    · cases ht
      exact ⟨⟨l, hc.congr rfl rfl rfl⟩, hl.start hcommitting hlast _⟩
    · cases ht
      exact ⟨⟨l, hc.congr rfl rfl rfl⟩, hl.setOps hcommitting _ _⟩
  | copy i j =>
    obtain ⟨⟨-, hhas⟩, ⟨⟩⟩ := Option.ite_none_right_eq_some.1 ht
    obtain ⟨hc', hs⟩ := put_inv hc hhas (x.state.buf i).data
    exact ⟨⟨l, hc'.congr rfl rfl rfl⟩, hl.advance hdev hs rfl rfl rfl rfl hf nofun nofun nofun⟩
  | head i =>
    obtain ⟨hhas, ⟨⟩⟩ := Option.ite_none_right_eq_some.1 ht
    obtain ⟨hc', hs⟩ := put_inv hc hhas (encodeHead x.state.lh (x.state.buf i).data)
    exact ⟨⟨l, hc'.congr rfl rfl rfl⟩, hl.advance hdev hs rfl rfl rfl rfl hf nofun nofun nofun⟩
  | clear =>
    cases ht
    exact ⟨⟨l, hc.congr rfl rfl rfl⟩, hl.clear hf⟩
  | finish =>
    cases ht
    exact ⟨⟨l, hc.congr rfl rfl rfl⟩, hl.finish hf⟩

end Inv

end Xv6.Bio
