import Mathlib.Data.List.Basic
import Xv6.Console.Cons
import Xv6.Lib.Fifo

/-!
# The line editor

What the console is for, without a buffer and without indices. The editor has the line that is being
typed and all that has been committed so far, in order, and it knows how much of that has been read.
A line is committed when it ends, and when there is no room for more.

The console does what the editor does. Its buffer is a ring that holds the bytes that are committed
and not read, and then the line.
-/

namespace Xv6.Console

variable {s : Cons} {c : BitVec 8} {target n : ℕ} {dst : ℕ → Bool}

/-! ### The reference -/

/-- A line editor. -/
structure Editor where
  /-- All that has ever been committed. -/
  committed : List (BitVec 8)
  /-- How much of it has been read. -/
  taken : ℕ
  /-- What has been typed and not been committed. -/
  line : List (BitVec 8)

namespace Editor

variable {d : Editor}

/-- Nothing has been typed. -/
def empty : Editor := ⟨[], 0, []⟩

/-- What has been committed and not been read. -/
def unread (d : Editor) : List (BitVec 8) := d.committed.drop d.taken

/-- The line is committed. -/
def commit (d : Editor) : Editor := { d with committed := d.committed ++ d.line, line := [] }

/-- A character is added to the line. -/
def add (c : BitVec 8) (d : Editor) : Editor := { d with line := d.line ++ [c] }

/-- The editor has as much as it can hold. -/
def Full (d : Editor) : Prop := INPUT_BUF_SIZE ≤ d.unread.length + d.line.length

instance (d : Editor) : Decidable d.Full := inferInstanceAs (Decidable (_ ≤ _))

/-- The editor after a character, and whether something has been committed. -/
def intr (c : BitVec 8) (d : Editor) : Editor × Bool :=
  if c = ctrl 'P' then (d, false)
  else if c = ctrl 'U' then ({ d with line := [] }, false)
  else if c = ctrl 'H' ∨ c = del then ({ d with line := d.line.dropLast }, false)
  else if c = 0 ∨ d.Full then (d, false)
  else
    let c := if c = carriageReturn then newline else c
    if c = newline ∨ c = ctrl 'D' ∨ (d.add c).Full then ((d.add c).commit, true)
    else (d.add c, false)

end Editor

/-- What a reader gets. -/
structure Served where
  bytes : List (BitVec 8)
  /-- How much is used up. -/
  eaten : ℕ
  /-- The room that is left, where the reader has to wait for more. -/
  left : Option ℕ
  deriving DecidableEq, Repr

/-- What a reader with room for `n` bytes gets from `q`. It gets one line at most, and nothing from
an end of file on. An end of file is used up by a reader that is `fresh`, which has got nothing yet.
-/
def serve (fresh : Bool) : ℕ → List (BitVec 8) → Served
  | 0, _ => ⟨[], 0, none⟩
  | n + 1, [] => ⟨[], 0, some (n + 1)⟩
  | n + 1, b :: q =>
    if b = ctrl 'D' then ⟨[], if fresh then 1 else 0, none⟩
    else if b = newline then ⟨[b], 1, none⟩
    else
      let r := serve false n q
      ⟨b :: r.bytes, r.eaten + 1, r.left⟩

/-- How the read ends. -/
def Served.outcome (target n : ℕ) (killed : Bool) (r : Served) : Outcome :=
  match r.left with
  | none => .returns (target - n + r.bytes.length)
  | some n' => if killed then .returns (-1) else .sleeps n'

theorem Served.left_of_sleeps {killed : Bool} {n' : ℕ} {r : Served}
    (h : r.outcome target n killed = .sleeps n') : r.left = some n' := by
  unfold outcome at h
  split at h
  · cases h
  · next hleft =>
    split_ifs at h
    cases h
    exact hleft

theorem Served.of_returns {killed : Bool} {v : ℤ} {r : Served}
    (h : r.outcome target n killed = .returns v) :
    v = target - n + r.bytes.length ∨ v = -1 ∧ killed = true := by
  unfold outcome at h
  split at h
  · cases h
    exact .inl rfl
  · split_ifs at h with hk
    cases h
    exact .inr ⟨rfl, hk⟩

/-- A reader takes what it can get. -/
def Editor.read (target n : ℕ) (killed : Bool) (d : Editor) :
    Editor × List (BitVec 8) × Outcome :=
  let r := serve (n == target) n d.unread
  ({ d with taken := d.taken + r.eaten }, r.bytes, r.outcome target n killed)

/-- What a reader gets is what it uses up, without an end of file. It is one line at most, and where
the reader has to wait, it has not come to the end of a line. -/
structure Served.Ok (n : ℕ) (q : List (BitVec 8)) (r : Served) : Prop where
  eaten_le : r.eaten ≤ q.length
  bytes_eq : r.bytes = (q.take r.eaten).filter (· ≠ ctrl 'D')
  length_le : r.bytes.length ≤ n
  oneLine : newline ∉ r.bytes.dropLast
  waits : ∀ n', r.left = some n' → newline ∉ r.bytes ∧ r.bytes.length + n' = n

theorem serve_ok (fresh : Bool) (n : ℕ) (q : List (BitVec 8)) : (serve fresh n q).Ok n q := by
  induction n generalizing fresh q with
  | zero =>
    rw [serve]
    exact ⟨Nat.zero_le _, rfl, le_rfl, List.not_mem_nil, nofun⟩
  | succ n ih =>
    cases q with
    | nil => exact ⟨le_rfl, rfl, Nat.zero_le _, List.not_mem_nil, fun n' hn' => by
        cases hn'
        exact ⟨List.not_mem_nil, Nat.zero_add _⟩⟩
    | cons b q =>
      rw [serve]
      split_ifs with hD hfresh hnl
      · exact ⟨Nat.le_add_left _ _, by simp [hD], Nat.zero_le _, List.not_mem_nil, nofun⟩
      · exact ⟨Nat.zero_le _, rfl, Nat.zero_le _, List.not_mem_nil, nofun⟩
      · exact ⟨Nat.le_add_left _ _, by simp [hD], Nat.le_add_left _ _, List.not_mem_nil, nofun⟩
      · have h := ih false q
        refine ⟨Nat.succ_le_succ h.eaten_le, ?_, Nat.succ_le_succ h.length_le, fun hmem => ?_,
          fun n' hn' => ?_⟩
        · rw [List.take_succ_cons, List.filter_cons_of_pos (by simpa using hD), ← h.bytes_eq]
        · cases hb : (serve false n q).bytes with
          | nil => simp [hb] at hmem
          | cons a l =>
            dsimp only at hmem
            rw [hb, List.dropLast_cons_cons] at hmem
            rcases List.mem_cons.mp hmem with hmem | hmem
            · exact hnl hmem.symm
            · exact h.oneLine (hb ▸ hmem)
        · obtain ⟨hno, hlen⟩ := h.waits n' hn'
          refine ⟨fun hmem => ?_, by rw [List.length_cons]; omega⟩
          rcases List.mem_cons.mp hmem with hmem | hmem
          · exact hnl hmem.symm
          · exact hno hmem

/-- What a reader gets up to an end of file. -/
theorem serve_eof {p : List (BitVec 8)} (q : List (BitVec 8)) {fresh : Bool}
    (hnl : newline ∉ p) (hD : ctrl 'D' ∉ p) (hlen : p.length < n) :
    serve fresh n (p ++ ctrl 'D' :: q) =
      ⟨p, if p = [] ∧ fresh then 1 else p.length, none⟩ := by
  induction p generalizing fresh n with
  | nil =>
    cases n with
    | zero => exact absurd hlen (Nat.not_lt_zero _)
    | succ n =>
      rw [List.nil_append, serve, if_pos rfl]
      simp
  | cons b p ih =>
    cases n with
    | zero => exact absurd hlen (Nat.not_lt_zero _)
    | succ n =>
      rw [List.mem_cons, not_or] at hnl hD
      rw [List.cons_append, serve, if_neg (Ne.symm hD.1), if_neg (Ne.symm hnl.1),
        ih hnl.2 hD.2 (Nat.lt_of_succ_lt_succ hlen)]
      simp

/-! ### The ring -/

/-- The console holds what the editor has. -/
structure Shows (s : Cons) (d : Editor) : Prop where
  ring : Fifo INPUT_BUF_SIZE s.buf s.r s.e (d.committed ++ d.line) (d.committed.take d.taken)
  w : s.w = BitVec.ofNat 32 d.committed.length
  taken_le : d.taken ≤ d.committed.length
  newline_notMem : newline ∉ d.line

/-- What is between the read index and the write index. -/
def Cons.unread (s : Cons) : List (BitVec 8) :=
  (List.range (s.w - s.r).toNat).map fun i =>
    s.buf ((s.r + BitVec.ofNat 32 i).toNat % INPUT_BUF_SIZE)

theorem size_dvd : INPUT_BUF_SIZE ∣ 2 ^ 32 := ⟨2 ^ 25, rfl⟩

namespace Shows

variable {d : Editor}

theorem empty (buf : ℕ → BitVec 8) : Shows ⟨buf, 0, 0, 0⟩ .empty where
  ring := Fifo.empty INPUT_BUF_SIZE buf
  w := rfl
  taken_le := le_rfl
  newline_notMem := List.not_mem_nil

theorem length_unread (h : Shows s d) : d.unread.length + d.taken = d.committed.length := by
  rw [Editor.unread, List.length_drop]
  exact Nat.sub_add_cancel h.taken_le

/-- There is never more than fits. -/
theorem length_le (h : Shows s d) : d.unread.length + d.line.length ≤ INPUT_BUF_SIZE := by
  have hnear := h.ring.near
  have hunread := h.length_unread
  rw [List.length_append, List.length_take_of_le h.taken_le] at hnear
  omega

theorem r_eq (h : Shows s d) : s.r = BitVec.ofNat 32 d.taken := by
  rw [h.ring.read, List.length_take_of_le h.taken_le]

theorem e_eq (h : Shows s d) : s.e = BitVec.ofNat 32 (d.committed.length + d.line.length) := by
  rw [h.ring.written, List.length_append]

theorem length_lt (h : Shows s d) : d.unread.length + d.line.length < 2 ^ 32 :=
  h.length_le.trans_lt (by decide)

theorem w_sub_r (h : Shows s d) : (s.w - s.r).toNat = d.unread.length := by
  rw [h.w, h.r_eq, ← h.length_unread, Nat.add_comm]
  exact toNat_ofNat_add_sub (lt_of_le_of_lt (Nat.le_add_right _ _) h.length_lt)

theorem e_sub_r (h : Shows s d) : (s.e - s.r).toNat = d.unread.length + d.line.length := by
  rw [h.e_eq, h.r_eq, ← h.length_unread, Nat.add_right_comm, Nat.add_comm]
  exact toNat_ofNat_add_sub h.length_lt

theorem e_sub_w (h : Shows s d) : (s.e - s.w).toNat = d.line.length := by
  rw [h.e_eq, h.w]
  exact toNat_ofNat_add_sub (lt_of_le_of_lt (Nat.le_add_left _ _) h.length_lt)

theorem e_eq_w_iff (h : Shows s d) : s.e = s.w ↔ d.line = [] := by
  rw [← List.length_eq_zero_iff, ← h.e_sub_w]
  bv_omega

theorem r_eq_w_iff (h : Shows s d) : s.r = s.w ↔ d.unread = [] := by
  rw [← List.length_eq_zero_iff, ← h.w_sub_r]
  bv_omega

theorem unread_eq (h : Shows s d) : s.unread = d.unread := by
  rw [Cons.unread, h.w_sub_r]
  refine List.ext_getElem (by rw [List.length_map, List.length_range]) fun i hi hi' => ?_
  have hlen := h.length_unread
  have hlt : d.taken + i < d.committed.length := by omega
  have hplace := h.ring.places (d.taken + i) (by rw [List.length_append]; omega)
    (by rw [List.length_take_of_le h.taken_le]; exact Nat.le_add_right _ _)
  rw [List.getElem_map, List.getElem_range, h.r_eq, ← BitVec.ofNat_add, toNat_ofNat_mod size_dvd,
    hplace]
  simp [Editor.unread, List.getElem_append_left hlt]

/-- There is nothing in the line, or its last character can be taken back. -/
theorem line_cases (h : Shows s d) :
    s.e = s.w ∧ d.line = [] ∨
      ∃ l a, d.line = l ++ [a] ∧ s.e ≠ s.w ∧ s.buf ((s.e - 1).toNat % INPUT_BUF_SIZE) ≠ newline ∧
        Shows { s with e := s.e - 1 } { d with line := l } := by
  rcases List.eq_nil_or_concat' d.line with hnil | ⟨l, a, hl⟩
  · exact .inl ⟨h.e_eq_w_iff.mpr hnil, hnil⟩
  have hout : d.committed.take d.taken <+: d.committed ++ l :=
    (List.take_prefix _ _).trans (List.prefix_append _ _)
  have hring := h.ring
  rw [hl, ← List.append_assoc] at hring
  have hmem : newline ∉ l ++ [a] := hl ▸ h.newline_notMem
  refine .inr ⟨l, a, hl, fun he => ?_, fun hlast => hmem ?_,
    ⟨hring.unpush hout, h.w, h.taken_le, fun hin => hmem (List.mem_append_left _ hin)⟩⟩
  · rw [h.e_eq_w_iff, hl] at he
    exact List.concat_ne_nil a l he
  · rw [hring.last size_dvd hout] at hlast
    rw [hlast]
    exact List.mem_append_right _ (List.mem_singleton_self _)

theorem full_iff (h : Shows s d) : d.Full ↔ (s.e - s.r).toNat = INPUT_BUF_SIZE := by
  rw [h.e_sub_r, Editor.Full]
  exact ⟨fun hf => le_antisymm h.length_le hf, fun he => he.ge⟩

/-- A character is put into the buffer. -/
theorem ring_add (h : Shows s d) (hfull : ¬ d.Full) (c : BitVec 8) :
    Fifo INPUT_BUF_SIZE (Function.update s.buf (s.e.toNat % INPUT_BUF_SIZE) c) s.r (s.e + 1)
      (d.committed ++ (d.line ++ [c])) (d.committed.take d.taken) := by
  rw [← List.append_assoc]
  refine h.ring.push size_dvd (fun he => hfull (h.full_iff.mpr ?_)) c
  rw [he, BitVec.add_comm, BitVec.add_sub_cancel]
  rfl

/-- The character stays in the line. -/
theorem add (h : Shows s d) (hfull : ¬ d.Full) (hc : c ≠ newline) :
    Shows { s with buf := Function.update s.buf (s.e.toNat % INPUT_BUF_SIZE) c, e := s.e + 1 }
      (d.add c) := by
  refine ⟨h.ring_add hfull c, h.w, h.taken_le, fun hmem => ?_⟩
  rcases List.mem_append.mp hmem with hmem | hmem
  · exact h.newline_notMem hmem
  · exact hc (List.mem_singleton.mp hmem).symm

/-- The line is committed with the character. -/
theorem add_commit (h : Shows s d) (hfull : ¬ d.Full) (c : BitVec 8) :
    Shows { buf := Function.update s.buf (s.e.toNat % INPUT_BUF_SIZE) c, r := s.r, w := s.e + 1,
            e := s.e + 1 } (d.add c).commit := by
  have hring := h.ring_add hfull c
  refine ⟨?_, hring.written, ?_, List.not_mem_nil⟩
  · rw [Editor.commit, Editor.add, List.append_nil, List.take_append_of_le_length h.taken_le]
    exact hring
  · exact h.taken_le.trans (List.prefix_append _ _).length_le

/-- A byte is read. -/
theorem pop {b : BitVec 8} {q : List (BitVec 8)} (h : Shows s d) (hq : d.unread = b :: q) :
    s.buf (s.r.toNat % INPUT_BUF_SIZE) = b ∧
      Shows { s with r := s.r + 1 } { d with taken := d.taken + 1 } := by
  have hcommitted : d.committed = d.committed.take d.taken ++ b :: q := by
    rw [← hq, Editor.unread, List.take_append_drop]
  have htake : d.committed.take (d.taken + 1) = d.committed.take d.taken ++ [b] := by
    conv_lhs => rw [hcommitted]
    rw [List.take_append, List.length_take_of_le h.taken_le, Nat.add_sub_cancel_left,
      List.take_of_length_le (by rw [List.length_take_of_le h.taken_le]; exact Nat.le_succ _)]
    rfl
  have hne : s.r ≠ s.e := by
    intro he
    have hsub := h.e_sub_r
    rw [he, BitVec.sub_self, hq] at hsub
    exact absurd hsub (by simp; omega)
  have hring := h.ring.pop size_dvd hne
  have hb : s.buf (s.r.toNat % INPUT_BUF_SIZE) = b := by
    have hpre := hring.isPrefix
    conv at hpre => rhs; rw [hcommitted, List.append_assoc]
    rw [List.prefix_append_right_inj] at hpre
    exact (List.cons_prefix_cons.mp hpre).1
  refine ⟨hb, ?_, h.w, ?_, h.newline_notMem⟩
  · rw [hb, ← htake] at hring
    exact hring
  · have hlen := h.length_unread
    rw [hq, List.length_cons] at hlen
    change d.taken + 1 ≤ d.committed.length
    omega

end Shows

/-! ### The console does what the editor does -/

theorem killLine_shows {d : Editor} (fuel : ℕ) (hfuel : d.line.length ≤ fuel) (h : Shows s d) :
    Shows (killLine fuel s) { d with line := [] } := by
  induction fuel generalizing s d with
  | zero =>
    have hnil : d.line = [] := List.length_eq_zero_iff.mp (Nat.le_zero.mp hfuel)
    rw [← hnil]
    exact h
  | succ fuel ih =>
    rw [killLine]
    rcases h.line_cases with ⟨he, hnil⟩ | ⟨l, a, hl, he, hlast, herase⟩
    · rw [if_neg fun hgo => hgo.1 he, ← hnil]
      exact h
    · rw [if_pos ⟨he, hlast⟩]
      refine ih (d := { d with line := l }) ?_ herase
      rw [hl, List.length_append] at hfuel
      exact Nat.le_of_succ_le_succ hfuel

/-- **A character does to the console what it does to the editor.** -/
theorem consoleintr_shows {d : Editor} (c : BitVec 8) (h : Shows s d) :
    Shows (consoleintr c s).1 (d.intr c).1 ∧ (consoleintr c s).2 = (d.intr c).2 := by
  unfold consoleintr Editor.intr
  by_cases hP : c = ctrl 'P'
  · rw [if_pos hP, if_pos hP]
    exact ⟨h, rfl⟩
  rw [if_neg hP, if_neg hP]
  by_cases hU : c = ctrl 'U'
  · rw [if_pos hU, if_pos hU]
    exact ⟨killLine_shows _ h.e_sub_w.ge h, rfl⟩
  rw [if_neg hU, if_neg hU]
  by_cases hH : c = ctrl 'H' ∨ c = del
  · rw [if_pos hH, if_pos hH]
    refine ⟨?_, rfl⟩
    rcases h.line_cases with ⟨he, hnil⟩ | ⟨l, a, hl, he, -, herase⟩
    · rw [if_neg (not_not_intro he), hnil, List.dropLast_nil, ← hnil]
      exact h
    · rw [if_pos he, hl, List.dropLast_concat]
      exact herase
  rw [if_neg hH, if_neg hH]
  by_cases hdrop : c = 0 ∨ d.Full
  · rw [if_pos hdrop, if_neg]
    · exact ⟨h, rfl⟩
    · rintro ⟨hc, hlt⟩
      exact hlt.ne (h.full_iff.mp (hdrop.resolve_left hc))
  rw [if_neg hdrop]
  obtain ⟨hc, hfull⟩ := not_or.mp hdrop
  have hroom : (s.e - s.r).toNat < INPUT_BUF_SIZE := by
    rw [h.e_sub_r]
    exact not_le.mp hfull
  rw [if_pos ⟨hc, hroom⟩]
  set b := if c = carriageReturn then newline else c
  have hadd : (s.e + 1 - s.r).toNat = INPUT_BUF_SIZE ↔ (d.add b).Full := by
    have hnext : (s.e + 1 - s.r).toNat = (s.e - s.r).toNat + 1 := by
      have hlt : (s.e - s.r).toNat < 128 := hroom
      bv_omega
    rw [hnext, h.e_sub_r, Editor.Full, Editor.add, List.length_append, List.length_singleton]
    rw [h.e_sub_r] at hroom
    exact ⟨fun he => he.ge, fun hle => le_antisymm hroom hle⟩
  dsimp only
  by_cases hcommit : b = newline ∨ b = ctrl 'D' ∨ (d.add b).Full
  · rw [if_pos hcommit, if_pos (by rwa [hadd])]
    exact ⟨h.add_commit hfull b, rfl⟩
  · rw [if_neg hcommit, if_neg (by rwa [hadd])]
    exact ⟨h.add hfull fun hb => hcommit (.inl hb), rfl⟩

/-- **A read takes from the console what it takes from the editor**, where its destination is
valid. -/
theorem readLoop_shows {d : Editor} (killed : Bool) (hdst : ∀ i < target, dst i = true)
    (hn : n ≤ target) (h : Shows s d) :
    Shows (readLoop target dst killed n s).1 (d.read target n killed).1 ∧
      (readLoop target dst killed n s).2 = (d.read target n killed).2 := by
  induction n generalizing s d with
  | zero => exact ⟨h, by simp [readLoop, Editor.read, serve, Served.outcome]⟩
  | succ n ih =>
    rw [readLoop, Editor.read]
    cases hq : d.unread with
    | nil =>
      rw [if_pos (h.r_eq_w_iff.mpr hq)]
      exact ⟨h, rfl⟩
    | cons b q =>
      have hne : s.r ≠ s.w := fun he => List.cons_ne_nil b q (hq ▸ h.r_eq_w_iff.mp he)
      obtain ⟨hb, hpop⟩ := h.pop hq
      rw [if_neg hne, hb, serve]
      dsimp only
      by_cases hD : b = ctrl 'D'
      · rw [if_pos hD, if_pos hD]
        refine ⟨?_, by simp [Served.outcome]⟩
        by_cases hlt : n + 1 < target
        · rw [if_pos hlt, beq_false_of_ne hlt.ne, BitVec.add_sub_cancel]
          exact h
        · rw [if_neg hlt, beq_iff_eq.mpr (le_antisymm hn (not_lt.mp hlt))]
          exact hpop
      rw [if_neg hD, if_neg hD, if_pos (hdst _ (by omega))]
      by_cases hnl : b = newline
      · rw [if_pos hnl, if_pos hnl]
        refine ⟨hpop, ?_⟩
        simp [Served.outcome]
        omega
      rw [if_neg hnl, if_neg hnl]
      obtain ⟨hshows, heq⟩ := ih (Nat.le_of_succ_le hn) hpop
      have hrest : Editor.unread { d with taken := d.taken + 1 } = q := by
        rw [Editor.unread, ← List.drop_drop, ← Editor.unread, hq]
        rfl
      rw [Editor.read, hrest, beq_false_of_ne (Nat.lt_of_succ_le hn).ne] at hshows heq
      refine ⟨?_, ?_⟩
      · rw [Nat.add_comm _ 1, ← Nat.add_assoc]
        exact hshows
      · rw [heq]
        refine congrArg (Prod.mk _) ?_
        rw [Served.outcome, Served.outcome]
        cases (serve false n q).left with
        | none =>
          refine congrArg Outcome.returns ?_
          rw [List.length_cons]
          omega
        | some n' => rfl

end Xv6.Console
