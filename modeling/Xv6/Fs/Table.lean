import Xv6.Fs.Inode
import Xv6.Lib.Wp

/-!
# References to inodes

What `iget` and `iput` do to the table of inodes in memory. `iget` fails only when every slot is in
use. A reference that `iget` has just taken can be dropped again by `iput`, and nothing is freed:
the slot has another reference, or it has not been read from the disk.
-/

namespace Xv6.Fs

open Function (update update_self update_of_ne update_eq_self)

variable {s t u : State} {i j : Fin NINODE} {x : ℕ}

/-- `iget` panics because every slot is in use. -/
def NoInodes (s : State) (e : Stop) : Prop :=
  e = .panic .igetNoInodes ∧ ∀ i, (s.itable i).ref ≠ 0

theorem State.updInode_self (s : State) (i : Fin NINODE) (f : Inode → Inode) :
    (s.updInode i f).itable i = f (s.itable i) := update_self _ _ _

theorem State.updInode_of_ne (f : Inode → Inode) (h : j ≠ i) :
    (s.updInode i f).itable j = s.itable j := update_of_ne h _ _

theorem State.setView_view (s : State) (i : Fin NINODE) : s.setView i (s.view i) = s := by
  change { s with itable := update s.itable i (s.itable i) } = s
  rw [update_eq_self]

/-- A reference to inode `x` has been taken, in slot `i`. -/
structure Got (x : ℕ) (i : Fin NINODE) (s t : State) : Prop where
  disk : t.disk = s.disk
  inum : (t.itable i).inum = x
  ref : (t.itable i).ref = (s.itable i).ref + 1
  other : ∀ j, j ≠ i → t.itable j = s.itable j
  held : 0 < (s.itable i).ref → t.itable i = { s.itable i with ref := (s.itable i).ref + 1 }
  fresh : ¬ 0 < (s.itable i).ref → (s.itable i).ref = 0 ∧ (t.itable i).valid = false ∧
    (t.itable i).locked = (s.itable i).locked ∧ ∀ j, 0 < (s.itable j).ref → (s.itable j).inum ≠ x

/-- The references are as they were, and so is every slot that is in use. -/
structure Back (s t : State) : Prop where
  disk : t.disk = s.disk
  ref : ∀ j, (t.itable j).ref = (s.itable j).ref
  held : ∀ j, 0 < (s.itable j).ref → t.itable j = s.itable j

theorem iget_ends (x : ℕ) (s : State) : Ends (NoInodes s) (iget x) s fun i t => Got x i s t := by
  cases hfind : (List.finRange NINODE).find?
      fun i => 0 < (s.itable i).ref ∧ (s.itable i).inum = x with
  | some i =>
    have hi := List.find?_some hfind
    obtain ⟨href, hinum⟩ := of_decide_eq_true hi
    have hrun : (iget x).run s = .ok (i, s.updInode i fun ip => { ip with ref := ip.ref + 1 }) := by
      change iget x s = _
      rw [iget, hfind]
    have hself := s.updInode_self i fun ip => { ip with ref := ip.ref + 1 }
    refine .of_ok hrun ⟨rfl, ?_, ?_, fun j hj => State.updInode_of_ne _ hj, fun _ => hself,
      fun h => absurd href h⟩
    · rw [hself]
      exact hinum
    · rw [hself]
  | none =>
    cases hfree : (List.finRange NINODE).find? fun i => (s.itable i).ref = 0 with
    | some i =>
      have hi := List.find?_some hfree
      have hi : (s.itable i).ref = 0 := of_decide_eq_true hi
      have hrun : (iget x).run s =
          .ok (i, s.updInode i fun ip => { ip with inum := x, ref := 1, valid := false }) := by
        change iget x s = _
        rw [iget, hfind]
        dsimp only
        rw [hfree]
      have hself := s.updInode_self i fun ip => { ip with inum := x, ref := 1, valid := false }
      refine .of_ok hrun ⟨rfl, ?_, ?_, fun j hj => State.updInode_of_ne _ hj, fun h => ?_,
        fun _ => ⟨hi, ?_, ?_, fun j hj hx => ?_⟩⟩
      · rw [hself]
      · rw [hself, hi]
        rfl
      · exact absurd h (by rw [hi]; decide)
      · rw [hself]
      · rw [hself]
      · exact List.find?_eq_none.mp hfind j (List.mem_finRange j) (decide_eq_true ⟨hj, hx⟩)
    | none =>
      have hrun : (iget x).run s = .error (.panic .igetNoInodes) := by
        change iget x s = _
        rw [iget, hfind]
        dsimp only
        rw [hfree]
      refine .of_error hrun ⟨rfl, fun i hi => ?_⟩
      exact List.find?_eq_none.mp hfree i (List.mem_finRange i) (decide_eq_true hi)

/-- A reference to the inode in slot `i` has been dropped. -/
structure Dropped (i : Fin NINODE) (s t : State) : Prop where
  disk : t.disk = s.disk
  self : t.itable i = { s.itable i with ref := (s.itable i).ref - 1 }
  other : ∀ j, j ≠ i → t.itable j = s.itable j

/-- `iput` drops a reference, where nothing is to be freed. -/
theorem iput_runs (h : ¬ ((s.itable i).ref = 1 ∧ (s.itable i).valid ∧ (s.itable i).din.nlink = 0)) :
    Runs (iput i) s fun _ t => Dropped i s t := by
  have hrun : (iput i).run s = .ok ((), s.updInode i fun ip => { ip with ref := ip.ref - 1 }) := by
    change iput i s = _
    rw [iput, if_neg h]
  exact .of_eq hrun ⟨rfl, s.updInode_self i _, fun j hj => State.updInode_of_ne _ hj⟩

/-- A reference is taken and dropped. -/
theorem Got.dropped (h : Got x i s t) (hd : Dropped i t u) : Back s u := by
  refine ⟨hd.disk.trans h.disk, fun j => ?_, fun j hj => ?_⟩
  · by_cases hij : j = i
    · subst hij
      rw [hd.self]
      have := h.ref
      change (t.itable j).ref - 1 = _
      omega
    · rw [hd.other j hij, h.other j hij]
  · by_cases hij : j = i
    · subst hij
      rw [hd.self, h.held hj]
      change { s.itable j with ref := (s.itable j).ref + 1 - 1 } = _
      rw [Int.add_sub_cancel]
    · rw [hd.other j hij, h.other j hij]

theorem Got.iput (h : Got x i s t) : Runs (iput i) t fun _ u => Back s u := by
  refine .mono (iput_runs ?_) fun _ u hd => h.dropped hd
  rintro ⟨href, hvalid, -⟩
  by_cases hi : 0 < (s.itable i).ref
  · have := h.ref
    omega
  · rw [(h.fresh hi).2.1] at hvalid
    cases hvalid

/-! ### References on the way -/

/-- From `s` to `t`, slot `j` has got `extra j` references. The disk is as it was, and so is the
inode that a slot is in use for. The copies in memory are those on the disk, and the slots that are
locked are those of `lock`. -/
structure Shares (s : State) (extra : Fin NINODE → ℤ) (lock : Fin NINODE → Bool) (t : State) :
    Prop where
  nonneg : ∀ j, 0 ≤ extra j
  disk : t.disk = s.disk
  ref : ∀ j, (t.itable j).ref = (s.itable j).ref + extra j
  locked : ∀ j, (t.itable j).locked = lock j
  sync : ∀ j, 0 < (t.itable j).ref → (t.itable j).valid = true →
    s.disk.dinode (t.itable j).inum = (t.itable j).din
  kept : ∀ j, 0 < (s.itable j).ref → (t.itable j).inum = (s.itable j).inum

variable {extra : Fin NINODE → ℤ} {lock : Fin NINODE → Bool}

/-- A slot is changed in a way that keeps its inode number. -/
theorem Shares.updInode {lock' : Fin NINODE → Bool} {f : Inode → Inode} {n : ℤ}
    (h : Shares s extra lock t) (hn : 0 ≤ extra i + n)
    (hinum : (f (t.itable i)).inum = (t.itable i).inum)
    (href : (f (t.itable i)).ref = (t.itable i).ref + n)
    (hlock : lock' = update lock i (f (t.itable i)).locked)
    (hsync : 0 < (f (t.itable i)).ref → (f (t.itable i)).valid = true →
      s.disk.dinode (t.itable i).inum = (f (t.itable i)).din) :
    Shares s (update extra i (extra i + n)) lock' (t.updInode i f) := by
  subst hlock
  have hself := t.updInode_self i f
  refine ⟨fun j => ?_, h.disk, fun j => ?_, fun j => ?_, fun j => ?_, fun j hj => ?_⟩ <;>
    by_cases hij : j = i
  · rw [hij, update_self]
    exact hn
  · rw [update_of_ne hij]
    exact h.nonneg j
  · rw [hij, hself, href, h.ref, update_self, Int.add_assoc]
  · rw [State.updInode_of_ne f hij, update_of_ne hij]
    exact h.ref j
  · rw [hij, hself, update_self]
  · rw [State.updInode_of_ne f hij, update_of_ne hij]
    exact h.locked j
  · rw [hij, hself, hinum]
    exact hsync
  · rw [State.updInode_of_ne f hij]
    exact h.sync j
  · rw [hij, hself, hinum]
    exact h.kept i (hij ▸ hj)
  · rw [State.updInode_of_ne f hij]
    exact h.kept j hj

theorem Shares.got (h : Shares s extra lock t) (hg : Got x i t u) :
    Shares s (update extra i (extra i + 1)) lock u := by
  have hi := h.nonneg i
  have hlock : (u.itable i).locked = (t.itable i).locked := by
    by_cases hheld : 0 < (t.itable i).ref
    · rw [hg.held hheld]
    · exact (hg.fresh hheld).2.2.1
  refine ⟨fun j => ?_, hg.disk.trans h.disk, fun j => ?_, fun j => ?_, fun j hj hv => ?_,
    fun j hj => ?_⟩ <;>
    by_cases hij : j = i
  · rw [hij, update_self]
    omega
  · rw [update_of_ne hij]
    exact h.nonneg j
  · rw [hij, hg.ref, h.ref, update_self, Int.add_assoc]
  · rw [hg.other j hij, update_of_ne hij]
    exact h.ref j
  · rw [hij, hlock]
    exact h.locked i
  · rw [hg.other j hij]
    exact h.locked j
  · rw [hij] at hv ⊢
    by_cases hheld : 0 < (t.itable i).ref
    · rw [hg.held hheld] at hv ⊢
      exact h.sync i hheld hv
    · rw [(hg.fresh hheld).2.1] at hv
      cases hv
  · rw [hg.other j hij] at hj hv ⊢
    exact h.sync j hj hv
  · rw [hij] at hj ⊢
    have hheld : 0 < (t.itable i).ref := by
      rw [h.ref]
      omega
    rw [hg.held hheld]
    exact h.kept i hj
  · rw [hg.other j hij]
    exact h.kept j hj

/-- The slot is locked, and holds the inode as it is on the disk. -/
theorem Shares.ilock (h : Shares s extra lock t) (hi : lock i = false) (href : 0 < (t.itable i).ref)
    (htype : (s.disk.dinode (t.itable i).inum).type ≠ .free) :
    Runs (ilock i) t fun _ u => Shares s extra (update lock i true) u ∧
      (∀ j, (u.itable j).inum = (t.itable j).inum) ∧
      (u.itable i).din = s.disk.dinode (t.itable i).inum := by
  have hlocked : ¬ (t.itable i).locked = true := by
    rw [h.locked, hi]
    decide
  have hextra : update extra i (extra i + 0) = extra := by
    rw [Int.add_zero, update_eq_self]
  have hnum {f : Inode → Inode} (hf : (f (t.itable i)).inum = (t.itable i).inum) (j : Fin NINODE) :
      ((t.updInode i f).itable j).inum = (t.itable j).inum := by
    by_cases hij : j = i
    · rw [hij, t.updInode_self, hf]
    · rw [State.updInode_of_ne f hij]
  have hpos : ¬ (t.itable i).ref < 1 := by omega
  by_cases hvalid : (t.itable i).valid = true
  · have hrun : (Fs.ilock i).run t =
        .ok ((), t.updInode i fun ip => { ip with locked := true }) := by
      change Fs.ilock i t = _
      rw [Fs.ilock, if_neg hpos, if_neg hlocked, if_pos hvalid]
    refine .of_eq hrun ⟨?_, hnum rfl, ?_⟩
    · rw [← hextra]
      exact h.updInode (by rw [Int.add_zero]; exact h.nonneg i) rfl (Int.add_zero _).symm rfl
        (h.sync i)
    · rw [t.updInode_self]
      exact (h.sync i href hvalid).symm
  · have hrun : (Fs.ilock i).run t = .ok ((), t.updInode i fun ip =>
        { ip with locked := true, valid := true, din := t.disk.dinode (t.itable i).inum }) := by
      change Fs.ilock i t = _
      rw [Fs.ilock, if_neg hpos, if_neg hlocked, if_neg hvalid]
      exact if_neg (h.disk ▸ htype)
    refine .of_eq hrun ⟨?_, hnum rfl, ?_⟩
    · rw [← hextra]
      refine h.updInode (by rw [Int.add_zero]; exact h.nonneg i) rfl (Int.add_zero _).symm rfl
        fun _ _ => ?_
      rw [h.disk]
    · rw [t.updInode_self, h.disk]

theorem Shares.iunlock (h : Shares s extra lock t) (hi : lock i = true)
    (href : 0 < (t.itable i).ref) :
    Runs (iunlock i) t fun _ u => Shares s extra (update lock i false) u ∧
      u = t.updInode i fun ip => { ip with locked := false } := by
  have hrun : (Fs.iunlock i).run t =
      .ok ((), t.updInode i fun ip => { ip with locked := false }) := by
    change Fs.iunlock i t = _
    rw [Fs.iunlock, if_neg]
    rintro (hlock | hpos)
    · rw [h.locked, hi] at hlock
      cases hlock
    · omega
  refine .of_eq hrun ⟨?_, rfl⟩
  have hextra : update extra i (extra i + 0) = extra := by
    rw [Int.add_zero, update_eq_self]
  rw [← hextra]
  exact h.updInode (by rw [Int.add_zero]; exact h.nonneg i) rfl (Int.add_zero _).symm rfl (h.sync i)

/-- A reference that has been taken is dropped. Nothing is freed if the slot was in use before, or
if its inode has links. -/
theorem Shares.iput (h : Shares s extra lock t) (hi : 0 < extra i)
    (hlast : ¬ 0 < (s.itable i).ref → (t.itable i).valid = true → (t.itable i).din.nlink ≠ 0) :
    Runs (iput i) t fun _ u => Shares s (update extra i (extra i - 1)) lock u ∧
      u = t.updInode i fun ip => { ip with ref := ip.ref - 1 } := by
  have hrun : (Fs.iput i).run t =
      .ok ((), t.updInode i fun ip => { ip with ref := ip.ref - 1 }) := by
    change Fs.iput i t = _
    rw [Fs.iput, if_neg]
    rintro ⟨href, hvalid, hlink⟩
    refine hlast (fun hheld => ?_) hvalid hlink
    rw [h.ref] at href
    omega
  have hlock : lock = update lock i (t.itable i).locked := by
    rw [h.locked, update_eq_self]
  refine .of_eq hrun ⟨h.updInode (n := -1) (by omega) rfl rfl hlock fun href => h.sync i ?_, rfl⟩
  have href : 0 < (t.itable i).ref - 1 := href
  omega

/-- A slot that has been locked is unlocked, and the reference is dropped. -/
theorem Shares.iunlockput (h : Shares s extra lock t) (hlock : lock i = true) (hi : 0 < extra i)
    (href : 0 < (t.itable i).ref)
    (hlast : ¬ 0 < (s.itable i).ref → (t.itable i).din.nlink ≠ 0) :
    Runs (iunlockput i) t fun _ u =>
      Shares s (update extra i (extra i - 1)) (update lock i false) u ∧
      ∀ j, (u.itable j).inum = (t.itable j).inum := by
  rw [Fs.iunlockput]
  refine .bind (h.iunlock hlock href) ?_
  rintro _ _ ⟨hu, rfl⟩
  refine .mono (hu.iput hi fun hheld _ => ?_) ?_
  · rw [State.updInode_self]
    exact hlast hheld
  · rintro _ _ ⟨hw, rfl⟩
    refine ⟨hw, fun j => ?_⟩
    by_cases hij : j = i
    · rw [hij, State.updInode_self, State.updInode_self]
    · rw [State.updInode_of_ne _ hij, State.updInode_of_ne _ hij]

end Xv6.Fs
