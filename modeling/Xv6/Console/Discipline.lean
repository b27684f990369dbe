import Xv6.Console.Readers

/-!
# The line discipline

In every run the readers of the console get what they would get from the editor. What the readers of
the editor get is what has been committed, in order and without the ends of file.
-/

namespace Xv6.Console

open Function (update_self update_of_ne)

variable {N : ℕ} {d : Editor} {k : Desk N} {j : Fin N} {c : Call} {bytes : List (BitVec 8)}
  {o : Outcome}

/-! ### What a reader has got -/

/-- The bytes that have been copied to a reader. -/
def Desk.copied (k : Desk N) (j : Fin N) : List (BitVec 8) :=
  (k.log.filter fun x => x.1 = j).map Prod.snd

/-- The bytes that the calls of a reader have returned. -/
def Desk.results (k : Desk N) (j : Fin N) : List (BitVec 8) :=
  (k.returned.filter fun t => t.reader = j).flatMap Return.bytes

/-- Every byte that has been copied to a reader is in what its calls have returned, or in the call
that it is in, and in the same order. -/
def Desk.Mine (k : Desk N) : Prop := ∀ j, k.copied j = k.results j ++ (k.reader j).got

namespace Desk

theorem mine_empty : (Desk.empty N).Mine := fun _ => rfl

theorem Mine.wakeup (h : k.Mine) : k.wakeup.Mine := fun i => by
  rw [Desk.wakeup, Reader.got_wake]
  exact h i

/-- One reader does something else, and has got what it had got. -/
theorem Mine.update {k' : Desk N} {r : Reader} (h : k.Mine) (hlog : k'.log = k.log)
    (hret : k'.returned = k.returned) (hk' : k'.reader = Function.update k.reader j r)
    (hr : r.got = (k.reader j).got) : k'.Mine := by
  intro i
  rw [copied, results, hlog, hret, hk']
  by_cases hij : i = j
  · rw [hij, update_self, hr]
    exact h j
  · rw [update_of_ne hij]
    exact h i

theorem copied_append (i : Fin N) :
    ((k.log ++ bytes.map (Prod.mk j)).filter fun x => x.1 = i).map Prod.snd =
      k.copied i ++ if j = i then bytes else [] := by
  rw [List.filter_append, List.map_append, copied]
  split_ifs with hij
  · simp [List.filter_map, Function.comp_def, hij]
  · simp [List.filter_map, Function.comp_def, hij]

theorem results_append (i : Fin N) (t : Return N) :
    ((k.returned ++ [t]).filter fun t => t.reader = i).flatMap Return.bytes =
      k.results i ++ if t.reader = i then t.bytes else [] := by
  rw [List.filter_append, List.flatMap_append, results]
  split_ifs with hij
  · simp [hij]
  · simp [hij]

theorem log_served : (k.served j c bytes o).log = k.log ++ bytes.map (Prod.mk j) := by
  cases o <;> rfl

theorem killed_served : (k.served j c bytes o).killed = k.killed := by
  cases o <;> rfl

theorem mem_returned_served {t : Return N} (ht : t ∈ (k.served j c bytes o).returned) :
    t ∈ k.returned ∨ ∃ v, o = .returns v ∧ t = ⟨j, c.arg, v, c.got ++ bytes⟩ := by
  cases o with
  | returns v => exact (List.mem_append.mp ht).imp_right fun h => ⟨v, rfl, List.mem_singleton.mp h⟩
  | sleeps n => exact .inl ht

theorem Mine.served (h : k.Mine) (hc : k.reader j = .ready c) : (k.served j c bytes o).Mine := by
  have hgot : (k.reader j).got = c.got := by rw [hc]; rfl
  intro i
  cases o with
  | returns v =>
    change List.map _ (List.filter _ (k.log ++ _)) =
      List.flatMap _ (List.filter _ (k.returned ++ _)) ++ (Function.update k.reader j .idle i).got
    rw [copied_append, results_append, h i]
    by_cases hij : i = j
    · subst hij
      rw [if_pos rfl, if_pos rfl, update_self, hgot, List.append_assoc, List.append_assoc]
      simp [Reader.got, Reader.call?]
    · rw [if_neg (Ne.symm hij), if_neg (Ne.symm hij), update_of_ne hij, List.append_nil,
        List.append_nil]
  | sleeps n =>
    change List.map _ (List.filter _ (k.log ++ _)) =
      k.results i ++ (Function.update k.reader j (.asleep _) i).got
    rw [copied_append, h i]
    by_cases hij : i = j
    · subst hij
      rw [if_pos rfl, update_self, hgot, List.append_assoc]
      rfl
    · rw [if_neg (Ne.symm hij), update_of_ne hij, List.append_nil]

end Desk

/-! ### Over the editor -/

/-- What holds of a call that has returned. -/
structure Return.Ok (k : Desk N) (t : Return N) : Prop where
  value : t.value = t.bytes.length ∨ t.value = -1 ∧ k.killed t.reader = true
  length_le : t.bytes.length ≤ t.arg.toNat
  oneLine : newline ∉ t.bytes.dropLast
  eof_notMem : ctrl 'D' ∉ t.bytes

/-- What has been read is what has been committed, up to some point and without the ends of file. -/
structure Kept (x : Editor × Desk N) : Prop where
  taken_le : x.1.taken ≤ x.1.committed.length
  log : x.2.log.map Prod.snd = (x.1.committed.take x.1.taken).filter (· ≠ ctrl 'D')
  calls : x.2.Calls Call.Ok
  returned : ∀ t ∈ x.2.returned, t.Ok x.2
  mine : x.2.Mine

theorem kept_empty : Kept ((.empty, .empty N) : Editor × Desk N) where
  taken_le := le_rfl
  log := rfl
  calls := nofun
  returned := nofun
  mine := Desk.mine_empty

/-- A character adds to what is committed, or leaves it as it is. -/
theorem Editor.intr_committed (c : BitVec 8) (d : Editor) :
    (d.intr c).1.taken = d.taken ∧ d.committed <+: (d.intr c).1.committed := by
  have hcommit (b : BitVec 8) : d.committed <+: (d.add b).commit.committed := List.prefix_append _ _
  unfold intr
  dsimp only
  split_ifs
  all_goals first
    | exact ⟨rfl, List.prefix_refl _⟩
    | exact ⟨rfl, hcommit _⟩

theorem Return.Ok.mono {k' : Desk N} {t : Return N} (h : t.Ok k)
    (hk : ∀ j, k.killed j = true → k'.killed j = true) : t.Ok k' :=
  ⟨h.value.imp_right fun hv => ⟨hv.1, hk _ hv.2⟩, h.length_le, h.oneLine, h.eof_notMem⟩

theorem Kept.intr (h : Kept (d, k)) (c : BitVec 8) {k' : Desk N} (hk' : k' = k ∨ k' = k.wakeup) :
    Kept ((d.intr c).1, k') := by
  obtain ⟨htaken, rest, hrest⟩ := d.intr_committed c
  have hle : d.taken ≤ d.committed.length := h.taken_le
  have htake : (d.intr c).1.committed.take (d.intr c).1.taken = d.committed.take d.taken := by
    rw [htaken, ← hrest, List.take_append_of_le_length hle]
  refine ⟨?_, ?_, ?_, ?_, ?_⟩
  · change (d.intr c).1.taken ≤ (d.intr c).1.committed.length
    rw [htaken, ← hrest, List.length_append]
    exact hle.trans (Nat.le_add_right _ _)
  · change k'.log.map Prod.snd = _
    rw [htake]
    rcases hk' with rfl | rfl <;> exact h.log
  all_goals rcases hk' with rfl | rfl
  · exact h.calls
  · exact h.calls.wakeup
  · exact h.returned
  · exact fun t ht => (h.returned t ht).mono fun _ hj => hj
  · exact h.mine
  · exact h.mine.wakeup

theorem Kept.enter {n : ℤ} {dst : ℕ → Bool} (h : Kept (d, k)) (hidle : k.reader j = .idle)
    (hvalid : ∀ i < n.toNat, dst i = true) : Kept (d, k.enter j n dst) where
  taken_le := h.taken_le
  log := h.log
  calls := h.calls.enter ⟨hvalid, Nat.zero_add _, List.not_mem_nil, List.not_mem_nil⟩
  returned t ht := (h.returned t ht).mono fun _ hj => hj
  mine := h.mine.update rfl rfl rfl (by rw [hidle]; rfl)

theorem Kept.kill (h : Kept (d, k)) (j : Fin N) : Kept (d, k.kill j) where
  taken_le := h.taken_le
  log := h.log
  calls := h.calls.kill
  returned t ht := (h.returned t ht).mono fun i hi => by
    by_cases hij : i = j
    · rw [hij]
      exact update_self j true k.killed
    · exact (update_of_ne hij true k.killed).trans hi
  mine := h.mine.update rfl rfl rfl (Reader.got_wake _)

/-- A reader is served. -/
theorem Kept.read (h : Kept (d, k)) (hc : k.reader j = .ready c) :
    Kept ((d.read c.target c.n (k.killed j)).1,
      k.served j c (d.read c.target c.n (k.killed j)).2.1
      (d.read c.target c.n (k.killed j)).2.2) := by
  have hok : c.Ok := h.calls j c (by rw [hc]; rfl)
  have hle : d.taken ≤ d.committed.length := h.taken_le
  rw [Editor.read]
  set r := serve (c.n == c.target) c.n d.unread with hr
  have hs : r.Ok c.n d.unread := serve_ok _ _ _
  have heof : ctrl 'D' ∉ c.got ++ r.bytes := by
    rw [List.mem_append, hs.bytes_eq, List.mem_filter]
    rintro (hmem | ⟨-, hmem⟩)
    · exact hok.eof_notMem hmem
    · simp at hmem
  refine ⟨?_, ?_, h.calls.served fun n hn => ?_, fun t ht => ?_, h.mine.served hc⟩
  · have heaten := hs.eaten_le
    rw [Editor.unread, List.length_drop] at heaten
    change d.taken + r.eaten ≤ d.committed.length
    omega
  · change (k.served j c r.bytes _).log.map Prod.snd =
      (d.committed.take (d.taken + r.eaten)).filter _
    have hlog : k.log.map Prod.snd = (d.committed.take d.taken).filter (· ≠ ctrl 'D') := h.log
    rw [Desk.log_served, List.map_append, List.map_map, hlog, List.take_add, List.filter_append,
      ← Editor.unread, ← hs.bytes_eq]
    exact congrArg _ (List.map_id _)
  · obtain ⟨hnl, hlen⟩ := hs.waits n (Served.left_of_sleeps hn)
    have hadd := hok.length_add
    refine ⟨hok.valid, ?_, fun hmem => ?_, heof⟩
    · change (c.got ++ r.bytes).length + n = c.target
      rw [List.length_append]
      omega
    · exact (List.mem_append.mp hmem).elim hok.newline_notMem hnl
  · rcases Desk.mem_returned_served ht with ht | ⟨v, hv, rfl⟩
    · exact (h.returned t ht).mono fun i hi => (congrFun Desk.killed_served i).trans hi
    have hadd := hok.length_add
    have hle := hs.length_le
    refine ⟨?_, ?_, fun hmem => ?_, heof⟩
    · rcases Served.of_returns hv with rfl | ⟨rfl, hkilled⟩
      · refine .inl ?_
        change (c.target : ℤ) - c.n + r.bytes.length = (c.got ++ r.bytes).length
        rw [List.length_append]
        omega
      · exact .inr ⟨rfl, (congrFun Desk.killed_served j).trans hkilled⟩
    · change (c.got ++ r.bytes).length ≤ c.target
      rw [List.length_append]
      omega
    · change newline ∈ (c.got ++ r.bytes).dropLast at hmem
      cases hb : r.bytes with
      | nil =>
        rw [hb, List.append_nil] at hmem
        exact hok.newline_notMem (List.dropLast_subset _ hmem)
      | cons b l =>
        rw [List.dropLast_append_of_ne_nil (by rw [hb]; exact List.cons_ne_nil b l)] at hmem
        exact (List.mem_append.mp hmem).elim hok.newline_notMem hs.oneLine

/-- A step over the editor keeps this. -/
theorem Kept.step {x y : Editor × Desk N} {e : Event N} (h : Kept x) (he : e.Valid)
    (hy : step editor x e = some y) : Kept y := by
  obtain ⟨d, k⟩ := x
  cases e with
  | intr c =>
    cases hy
    refine h.intr c ?_
    split_ifs
    · exact .inr rfl
    · exact .inl rfl
  | consoleread j n dst =>
    rw [Console.step] at hy
    split at hy
    · next hidle =>
      cases hy
      exact h.enter hidle he
    · cases hy
  | run j =>
    rw [Console.step] at hy
    split at hy
    · next c hc =>
      cases hy
      exact h.read hc
    · cases hy
  | kill j =>
    cases hy
    exact h.kill j

/-- **A run over the console is a run over the editor**, with the same readers at the same places.
-/
theorem runs_alike {s t : Cons × Desk N} {es : List (Event N)} (hvalid : ∀ e ∈ es, e.Valid)
    (hshows : Shows s.1 d) (hkept : Kept (d, s.2)) (hrun : runEvents (step console) s es = some t) :
    ∃ d', runEvents (step editor) (d, s.2) es = some (d', t.2) ∧ Shows t.1 d' ∧ Kept (d', t.2) := by
  induction es generalizing s d with
  | nil =>
    cases hrun
    exact ⟨d, rfl, hshows, hkept⟩
  | cons e es ih =>
    obtain ⟨u, hu, hrun⟩ := Option.bind_eq_some_iff.mp hrun
    obtain ⟨d₁, hstep, hshows₁⟩ := step_alike hshows hkept.calls hu
    have hkept₁ := hkept.step (hvalid e List.mem_cons_self) hstep
    obtain ⟨d', hes, hd'⟩ :=
      ih (fun e' he' => hvalid e' (List.mem_cons_of_mem e he')) hshows₁ hkept₁ hrun
    exact ⟨d', by rw [runEvents_cons, hstep]; exact hes, hd'⟩

/-! ### One call after another -/

/-- A call begins when no other call is open. -/
def Event.Alone (k : Desk N) : Event N → Prop
  | .consoleread _ _ _ => ∀ j, (k.reader j).call?.isNone
  | _ => True

instance (k : Desk N) (e : Event N) : Decidable (e.Alone k) :=
  match e with
  | .intr _ => isTrue trivial
  | .consoleread _ _ _ => inferInstanceAs (Decidable (∀ _, _))
  | .run _ => isTrue trivial
  | .kill _ => isTrue trivial

/-- No call is open but that of `j`, and the bytes that have been copied are those that have been
returned and then those of this call. -/
def Desk.Only (k : Desk N) (j : Fin N) : Prop :=
  (∀ i ≠ j, k.reader i = .idle) ∧
    k.log.map Prod.snd = k.returned.flatMap Return.bytes ++ (k.reader j).got

/-- No call is open, and the bytes that have been copied are those that have been returned. -/
def Desk.Closed (k : Desk N) : Prop :=
  (∀ i, k.reader i = .idle) ∧ k.log.map Prod.snd = k.returned.flatMap Return.bytes

namespace Desk

theorem Only.closed (h : k.Only j) (hj : k.reader j = .idle) : k.Closed := by
  refine ⟨fun i => ?_, ?_⟩
  · by_cases hij : i = j
    · exact hij ▸ hj
    · exact h.1 i hij
  · rw [h.2, hj]
    exact List.append_nil _

theorem Only.served (h : k.Only j) (hc : k.reader j = .ready c) :
    (k.served j c bytes o).Only j := by
  have hgot : (k.reader j).got = c.got := by rw [hc]; rfl
  have hlog : (k.log ++ bytes.map (Prod.mk j)).map Prod.snd =
      k.returned.flatMap Return.bytes ++ (c.got ++ bytes) := by
    rw [List.map_append, h.2, hgot, List.map_map, List.append_assoc]
    exact congrArg _ (congrArg _ (List.map_id _))
  cases o with
  | returns v =>
    refine ⟨fun i hi => (update_of_ne hi _ _).trans (h.1 i hi), ?_⟩
    change (k.log ++ _).map Prod.snd =
      (k.returned ++ _).flatMap Return.bytes ++ (Function.update k.reader j .idle j).got
    rw [hlog, update_self, List.flatMap_append]
    simp [Reader.got, Reader.call?]
  | sleeps n =>
    refine ⟨fun i hi => (update_of_ne hi _ _).trans (h.1 i hi), ?_⟩
    change (k.log ++ _).map Prod.snd =
      k.returned.flatMap Return.bytes ++ (Function.update k.reader j (.asleep _) j).got
    rw [hlog, update_self]
    rfl

/-- Readers are woken up. -/
theorem Closed.wake {k' : Desk N} (h : k.Closed)
    (hk' : ∀ i, k'.reader i = k.reader i ∨ k'.reader i = (k.reader i).wake)
    (hlog : k'.log = k.log) (hret : k'.returned = k.returned) : k'.Closed := by
  refine ⟨fun i => ?_, by rw [hlog, hret, h.2]⟩
  rcases hk' i with hi | hi
  · exact hi.trans (h.1 i)
  · exact hi.trans (congrArg Reader.wake (h.1 i))

theorem Only.wake {k' : Desk N} (h : k.Only j)
    (hk' : ∀ i, k'.reader i = k.reader i ∨ k'.reader i = (k.reader i).wake)
    (hlog : k'.log = k.log) (hret : k'.returned = k.returned) : k'.Only j := by
  refine ⟨fun i hij => ?_, ?_⟩
  · rcases hk' i with hi | hi
    · exact hi.trans (h.1 i hij)
    · exact hi.trans (congrArg Reader.wake (h.1 i hij))
  · rw [hlog, hret, h.2]
    rcases hk' j with hj | hj
    · rw [hj]
    · rw [hj, Reader.got_wake]

end Desk

/-- One call is open at most. -/
theorem step_inOrder {s t : Cons × Desk N} {e : Event N} (he : e.Alone s.2)
    (h : s.2.Closed ∨ ∃ j, s.2.Only j) (ht : step console s e = some t) :
    t.2.Closed ∨ ∃ j, t.2.Only j := by
  have hwoken {k' : Desk N}
      (hk' : ∀ i, k'.reader i = s.2.reader i ∨ k'.reader i = (s.2.reader i).wake)
      (hlog : k'.log = s.2.log) (hret : k'.returned = s.2.returned) :
      k'.Closed ∨ ∃ j, k'.Only j :=
    h.imp (fun h => h.wake hk' hlog hret) (.imp fun _ h => h.wake hk' hlog hret)
  cases e with
  | intr c =>
    cases ht
    dsimp only
    split_ifs
    · exact hwoken (fun _ => .inr rfl) rfl rfl
    · exact h
  | consoleread j n dst =>
    rw [Console.step] at ht
    split at ht
    · next hidle =>
      cases ht
      have hclosed : s.2.Closed := by
        rcases h with h | ⟨j', h⟩
        · exact h
        · refine h.closed ?_
          have hnone := he j'
          cases hj' : s.2.reader j' <;> simp_all [Reader.call?]
      refine .inr ⟨j, fun i hi => (update_of_ne hi _ _).trans (hclosed.1 i), ?_⟩
      change s.2.log.map Prod.snd = s.2.returned.flatMap Return.bytes ++
        (Function.update s.2.reader j _ j).got
      rw [hclosed.2, update_self]
      exact (List.append_nil _).symm
    · cases ht
  | run j =>
    rw [Console.step] at ht
    split at ht
    · next c hc =>
      cases ht
      rcases h with h | ⟨j', h⟩
      · exact absurd (hc.symm.trans (h.1 j)) (by simp)
      · have hj : j = j' := by
          by_contra hne
          exact absurd (hc.symm.trans (h.1 j hne)) (by simp)
        subst hj
        exact .inr ⟨j, h.served hc⟩
    · cases ht
  | kill j =>
    cases ht
    refine hwoken (fun i => ?_) rfl rfl
    by_cases hij : i = j
    · rw [hij]
      exact .inr (update_self _ _ _)
    · exact .inl (update_of_ne hij _ _)

/-! ### The discipline -/

/-- `r ≤ w ≤ e ≤ r + INPUT_BUF_SIZE`, modulo `2 ^ 32`. -/
def Cons.Ordered (s : Cons) : Prop :=
  (s.w - s.r).toNat ≤ (s.e - s.r).toNat ∧ (s.e - s.r).toNat ≤ INPUT_BUF_SIZE

/-- A read that comes to an end of file with room to spare returns what it has got up to there. The
end of file is used up if this is nothing. If not, it is kept, and the next read returns 0. -/
def Cons.EndsAtEof (s : Cons) : Prop :=
  ∀ (p q : List (BitVec 8)) (target n : ℕ) (dst : ℕ → Bool) (killed : Bool),
    s.unread = p ++ ctrl 'D' :: q → newline ∉ p → ctrl 'D' ∉ p → p.length < n → n ≤ target →
    (∀ i < target, dst i = true) →
    let t := readLoop target dst killed n s
    t.2 = (p, .returns (target - n + p.length)) ∧
      if p = [] ∧ n = target then t.1.unread = q
      else t.1.unread = ctrl 'D' :: q ∧
        ∀ (m : ℕ) (dst' : ℕ → Bool) (killed' : Bool), 0 < m → (∀ i < m, dst' i = true) →
          (readLoop m dst' killed' m t.1).2 = ([], .returns 0)

namespace Shows

variable {s : Cons}

theorem ordered (h : Shows s d) : s.Ordered := by
  rw [Cons.Ordered, h.w_sub_r, h.e_sub_r]
  exact ⟨Nat.le_add_right _ _, h.length_le⟩

theorem unread_prefix (h : Shows s d) (c : BitVec 8) :
    s.unread <+: (consoleintr c s).1.unread := by
  obtain ⟨htaken, rest, hrest⟩ := d.intr_committed c
  rw [h.unread_eq, (consoleintr_shows c h).1.unread_eq, Editor.unread, Editor.unread,
    htaken, ← hrest, List.drop_append_of_le_length h.taken_le]
  exact List.prefix_append _ _

theorem unread_edit {c : BitVec 8} (h : Shows s d) (hc : c = ctrl 'U' ∨ c = ctrl 'H' ∨ c = del) :
    (consoleintr c s).1.unread = s.unread := by
  rw [h.unread_eq, (consoleintr_shows c h).1.unread_eq]
  rcases hc with rfl | rfl | rfl <;> rfl

/-- What a read returns that comes to an end of file. -/
theorem read_eof {p q : List (BitVec 8)} {target n : ℕ} {dst : ℕ → Bool} (killed : Bool)
    (h : Shows s d) (hq : s.unread = p ++ ctrl 'D' :: q) (hnl : newline ∉ p) (hD : ctrl 'D' ∉ p)
    (hlen : p.length < n) (hn : n ≤ target) (hdst : ∀ i < target, dst i = true) :
    (readLoop target dst killed n s).2 = (p, .returns (target - n + p.length)) ∧
      ∃ d', Shows (readLoop target dst killed n s).1 d' ∧
        d'.unread = (p ++ ctrl 'D' :: q).drop (if p = [] ∧ n = target then 1 else p.length) := by
  obtain ⟨hshows, heq⟩ := readLoop_shows killed hdst hn h
  rw [h.unread_eq] at hq
  rw [Editor.read, hq, serve_eof q hnl hD hlen] at hshows heq
  refine ⟨heq, _, hshows, ?_⟩
  rw [Editor.unread, ← List.drop_drop, ← Editor.unread, hq]
  simp only [beq_iff_eq]

theorem endsAtEof (h : Shows s d) : s.EndsAtEof := by
  intro p q target n dst killed hq hnl hD hlen hn hdst
  obtain ⟨hret, d', hshows, hrest⟩ := h.read_eof killed hq hnl hD hlen hn hdst
  refine ⟨hret, ?_⟩
  split_ifs with hfresh
  · rw [hshows.unread_eq, hrest, if_pos hfresh, hfresh.1]
    rfl
  · have hkept : (readLoop target dst killed n s).1.unread = ctrl 'D' :: q := by
      rw [hshows.unread_eq, hrest, if_neg hfresh, List.drop_left]
    refine ⟨hkept, fun m dst' killed' hm hdst' => ?_⟩
    have hnext :=
      (hshows.read_eof (p := []) killed' hkept List.not_mem_nil List.not_mem_nil hm le_rfl hdst').1
    rw [hnext]
    simp

end Shows

/-- **The line discipline of the console.** Any number of readers call `consoleread` with any `n`
and valid destinations while characters come in. The indices keep their order through any
wraparound. What is committed stays, whatever is typed, and editing adds nothing to it. The readers
get what they would get from the reference editor, at every step: all the committed bytes in order,
but for the ends of file. Each call returns one line at most, and stops at an end of file. Where one
call is made after another, what they return, put together, is what has been committed. -/
theorem console_line_discipline (buf : ℕ → BitVec 8) :
    (∀ (es : List (Event N)) (s : Cons × Desk N), (∀ e ∈ es, e.Valid) →
      runEvents (step console) (⟨buf, 0, 0, 0⟩, .empty N) es = some s →
      s.1.Ordered ∧
      (∀ c, s.1.unread <+: (consoleintr c s.1).1.unread) ∧
      (∀ c, c = ctrl 'U' ∨ c = ctrl 'H' ∨ c = del → (consoleintr c s.1).1.unread = s.1.unread) ∧
      (∃ d, runEvents (step editor) (.empty, .empty N) es = some (d, s.2) ∧ s.1.unread = d.unread ∧
        s.2.log.map Prod.snd = (d.committed.take d.taken).filter (· ≠ ctrl 'D')) ∧
      (∀ j, s.2.copied j = s.2.results j ++ (s.2.reader j).got) ∧
      (∀ t ∈ s.2.returned, t.Ok s.2) ∧
      s.1.EndsAtEof) ∧
    ∀ (es : List (Event N)) (s : Cons × Desk N), (∀ e ∈ es, e.Valid) →
      runEvents (restrict (fun s e => e.Alone s.2) (step console)) (⟨buf, 0, 0, 0⟩, .empty N) es =
        some s →
      (∀ j, s.2.reader j = .idle) →
      ∃ d, runEvents (step editor) (.empty, .empty N) es = some (d, s.2) ∧
        s.2.returned.flatMap Return.bytes = (d.committed.take d.taken).filter (· ≠ ctrl 'D') := by
  refine ⟨fun es s hvalid hrun => ?_, fun es s hvalid hrun hidle => ?_⟩
  · obtain ⟨d, hd, hshows, hkept⟩ := runs_alike hvalid (Shows.empty buf) kept_empty hrun
    exact ⟨hshows.ordered, hshows.unread_prefix, fun c hc => hshows.unread_edit hc,
      ⟨d, hd, hshows.unread_eq, hkept.log⟩, hkept.mine, hkept.returned, hshows.endsAtEof⟩
  · have hplain : runEvents (step console) (⟨buf, 0, 0, 0⟩, .empty N) es = some s :=
      runEvents_map id (fun _ _ _ ht => (restrict_eq_some.mp ht).2) hrun
    obtain ⟨d, hd, -, hkept⟩ := runs_alike hvalid (Shows.empty buf) kept_empty hplain
    have hinit : (Desk.empty N).Closed := ⟨fun _ => rfl, rfl⟩
    have horder : s.2.Closed ∨ ∃ j, s.2.Only j := by
      refine runEvents_invariant (I := fun s : Cons × Desk N => s.2.Closed ∨ ∃ j, s.2.Only j)
        (fun s e t hs ht => ?_) (.inl hinit) hrun
      obtain ⟨he, ht⟩ := restrict_eq_some.mp ht
      exact step_inOrder he hs ht
    have hclosed : s.2.Closed := horder.elim id fun ⟨j, h⟩ => h.closed (hidle j)
    exact ⟨d, hd, hclosed.2.symm.trans hkept.log⟩

/-- `hi`, with a character that is rubbed out, and then an end of file after `x`. There are three
reads. -/
def typing : List (Event 1) :=
  [.intr 104, .intr 97, .intr (ctrl 'H'), .consoleread 0 5 fun _ => true, .run 0, .intr 105,
    .intr 13, .run 0, .intr 120, .intr (ctrl 'D'), .consoleread 0 5 fun _ => true, .run 0,
    .consoleread 0 5 fun _ => true, .run 0]

theorem console_line_discipline_typing : ∃ (s : Cons × Desk 1) (d : Editor),
    runEvents (step console) (⟨fun _ => 0, 0, 0, 0⟩, .empty 1) typing = some s ∧ s.1.Ordered ∧
      s.2.returned = [⟨0, 5, 3, [104, 105, 10]⟩, ⟨0, 5, 1, [120]⟩, ⟨0, 5, 0, []⟩] ∧
      runEvents (step editor) (.empty, .empty 1) typing = some (d, s.2) ∧
      s.2.returned.flatMap Return.bytes = (d.committed.take d.taken).filter (· ≠ ctrl 'D') := by
  obtain ⟨s, hs, hret, hnone⟩ : ∃ s, runEvents (restrict (fun s e => e.Alone s.2) (step console))
      (⟨fun _ => 0, 0, 0, 0⟩, .empty 1) typing = some s ∧
        s.2.returned = [⟨0, 5, 3, [104, 105, 10]⟩, ⟨0, 5, 1, [120]⟩, ⟨0, 5, 0, []⟩] ∧
          (s.2.reader 0).call?.isNone := by decide +kernel
  have hvalid : ∀ e ∈ typing, e.Valid := by
    simp [typing, Event.Valid]
  have hplain : runEvents (step console) (⟨fun _ => 0, 0, 0, 0⟩, .empty 1) typing = some s :=
    runEvents_map id (fun _ _ _ ht => (restrict_eq_some.mp ht).2) hs
  have hidle (j : Fin 1) : s.2.reader j = .idle := by
    rw [Subsingleton.elim j 0]
    cases hj : s.2.reader 0 <;> simp_all [Reader.call?]
  obtain ⟨hall, hseq⟩ := console_line_discipline (N := 1) fun _ => 0
  obtain ⟨d, hd, hbytes⟩ := hseq _ s hvalid hs hidle
  exact ⟨s, d, hplain, (hall _ s hvalid hplain).1, hret, hd, hbytes⟩

end Xv6.Console
