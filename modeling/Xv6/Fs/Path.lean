import Xv6.Fs.DirMap
import Xv6.Fs.Elements

/-!
# The resolution of paths

`namex` goes from directory to directory with one reference in hand: it locks the directory, looks
for the element, and drops the directory once it has a reference to the next inode. Seen from
outside, `namei` is a fold of lookups over the elements of the path, and `nameiparent` is the same
fold stopped one element early.

What is asked of the disk is that the entries of directories name inodes that are allocated. Such an
inode must have a link or be in use, because otherwise `namex` would free it when it goes on. The
inode table may fill up on the way, and `iget` panics then.
-/

namespace Xv6.Fs

open Function (update update_self update_of_ne)

variable {sb : Superblock} {d : Disk} {s t u : State} {i j ip cwd : Fin NINODE} {x y : ℕ}

/-! ### The fold -/

/-- What an inode has under a key. It has nothing if it is not a directory. -/
def Disk.lookup (sb : Superblock) (d : Disk) (x : ℕ) (key : List Byte) : Option ℕ :=
  if (d.dinode x).type = .dir then d.dirMap sb x key else none

/-- The inode at the end of a list of keys, from inode `x` on. -/
def Disk.resolve (sb : Superblock) (d : Disk) (x : ℕ) (keys : List (List Byte)) : Option ℕ :=
  keys.foldl (fun o key => o.bind fun y => d.lookup sb y key) (some x)

theorem Disk.foldl_lookup (o : Option ℕ) (keys : List (List Byte)) :
    keys.foldl (fun o key => o.bind fun y => d.lookup sb y key) o =
    o.bind (d.resolve sb · keys) := by
  cases o with
  | some x => rfl
  | none =>
    induction keys with
    | nil => rfl
    | cons key keys ih => exact ih

theorem Disk.resolve_cons (x : ℕ) (key : List Byte) (keys : List (List Byte)) :
    d.resolve sb x (key :: keys) = (d.lookup sb x key).bind (d.resolve sb · keys) :=
  Disk.foldl_lookup (d.lookup sb x key) keys

/-- Where the loop of `namex` ends on the disk, and with which name. -/
def Disk.target (sb : Superblock) (d : Disk) (parent : Bool) :
    ℕ → List (List Byte) → Option (ℕ × List Byte)
  | x, [] => if parent then none else some (x, [])
  | x, name :: rest =>
    if (d.dinode x).type ≠ .dir then none
    else if parent ∧ rest = [] then some (x, name)
    else (d.dirMap sb x (cut DIRSIZ name)).bind fun y => target sb d parent y rest

/-- The loop of `namei` goes all the way. -/
theorem Disk.target_false (x : ℕ) (names : List (List Byte)) :
    d.target sb false x names = (d.resolve sb x (names.map (cut DIRSIZ))).map fun y => (y, []) := by
  induction names generalizing x with
  | nil => rfl
  | cons name rest ih =>
    rw [Disk.target, List.map_cons, Disk.resolve_cons, Disk.lookup]
    by_cases htype : (d.dinode x).type = .dir
    · rw [if_neg (not_not_intro htype), if_neg (by simp), if_pos htype]
      cases d.dirMap sb x (cut DIRSIZ name) with
      | none => rfl
      | some y => exact ih y
    · rw [if_pos htype, if_neg htype]
      rfl

/-- The loop of `nameiparent` stops before the last step. -/
theorem Disk.target_true {names : List (List Byte)} {name : List Byte}
    (h : d.target sb true x names = some (y, name)) :
    (d.dinode y).type = .dir ∧
      d.resolve sb x (names.map (cut DIRSIZ)) = d.dirMap sb y (cut DIRSIZ name) := by
  induction names generalizing x with
  | nil => cases h
  | cons el rest ih =>
    rw [Disk.target] at h
    split_ifs at h with htype hlast
    · have htype : (d.dinode x).type = .dir := not_not.mp htype
      obtain ⟨rfl, rfl⟩ := Prod.mk.inj (Option.some.inj h)
      rw [hlast.2]
      refine ⟨htype, ?_⟩
      rw [List.map_cons, Disk.resolve_cons, Disk.lookup, if_pos htype]
      exact Option.bind_fun_some _
    · have htype : (d.dinode x).type = .dir := not_not.mp htype
      obtain ⟨z, hz, hrest⟩ := Option.bind_eq_some_iff.mp h
      rw [List.map_cons, Disk.resolve_cons, Disk.lookup, if_pos htype, hz]
      exact ih hrest

/-! ### A reference in hand -/

/-- Inode `x` is allocated, and would not be freed by who uses it for a while. -/
def State.Live (sb : Superblock) (s : State) (x : ℕ) : Prop :=
  s.disk.Allocated sb x ∧
    ((s.disk.dinode x).nlink ≠ 0 ∨ ∃ i, 0 < (s.itable i).ref ∧ (s.itable i).inum = x)

/-- The directories are whole and their entries name inodes that are there. No inode is locked, and
the copies in memory are those on the disk. -/
structure Tree (sb : Superblock) (s : State) : Prop where
  wf : s.disk.Wf sb
  root : s.Live sb ROOTINO
  whole : ∀ x, s.disk.Allocated sb x → (s.disk.dinode x).type = .dir →
    (s.disk.dinode x).size % DIRENT = 0
  entry : ∀ x, s.disk.Allocated sb x → (s.disk.dinode x).type = .dir →
    ∀ k < s.disk.count x, ∀ key y, s.disk.entry sb x k = some (key, y) → s.Live sb y
  unlocked : ∀ i, (s.itable i).locked = false
  sync : ∀ i, 0 < (s.itable i).ref → (s.itable i).valid = true →
    s.disk.dinode (s.itable i).inum = (s.itable i).din

/-- One reference, to slot `i`. -/
def one (i : Fin NINODE) : Fin NINODE → ℤ := update (fun _ => 0) i 1

theorem one_self (i : Fin NINODE) : one i i = 1 := update_self _ _ _

theorem one_of_ne (h : j ≠ i) : one i j = 0 := update_of_ne h _ _

/-- A reference to slot `j` is taken, and the one to slot `i` is dropped. -/
theorem one_pass (i j : Fin NINODE) :
    update (update (one i) j (one i j + 1)) i (update (one i) j (one i j + 1) i - 1) = one j := by
  funext k
  by_cases hki : k = i
  · subst hki
    rw [update_self]
    by_cases hkj : k = j
    · subst hkj
      rw [update_self, one_self]
      rfl
    · rw [update_of_ne hkj, one_self, one_of_ne hkj]
      rfl
  · rw [update_of_ne hki]
    by_cases hkj : k = j
    · subst hkj
      rw [update_self, one_of_ne hki, one_self]
      rfl
    · rw [update_of_ne hkj, one_of_ne hki, one_of_ne hkj]

/-- `namex` has one reference in hand, to slot `i`. -/
structure Held (sb : Superblock) (s : State) (i : Fin NINODE) (t : State) : Prop where
  shares : Shares s (one i) (fun _ => false) t
  nonneg : 0 ≤ (s.itable i).ref
  live : s.Live sb (t.itable i).inum
  last : ¬ 0 < (s.itable i).ref → (s.disk.dinode (t.itable i).inum).nlink ≠ 0

/-- The inode table has at most one slot that is not in use, and `iget` panics. -/
def TableFull (s : State) (e : Stop) : Prop :=
  e = .panic .igetNoInodes ∧ ∃ i, ∀ j, j ≠ i → (s.itable j).ref ≠ 0

theorem Tree.shares (h : Tree sb s) : Shares s (fun _ => 0) (fun _ => false) s :=
  ⟨fun _ => Int.le_refl 0, rfl, fun _ => (Int.add_zero _).symm, h.unlocked, h.sync, fun _ _ => rfl⟩

/-- A reference has been taken in a state that has some, to an inode that is there. -/
theorem Shares.last_of_got {extra : Fin NINODE → ℤ} {lock : Fin NINODE → Bool}
    (h : Shares s extra lock t) (hx : s.Live sb x) (hg : Got x i t u)
    (hi : ¬ 0 < (t.itable i).ref) : (s.disk.dinode x).nlink ≠ 0 := by
  obtain hlink | ⟨j, hj, hinum⟩ := hx.2
  · exact hlink
  · have hj' : 0 < (t.itable j).ref := by
      have := h.nonneg j
      rw [h.ref]
      omega
    exact absurd ((h.kept j hj).trans hinum) ((hg.fresh hi).2.2.2 j hj')

theorem Got.nonneg (h : Got x i s t) : 0 ≤ (s.itable i).ref := by
  by_cases hi : 0 < (s.itable i).ref
  · exact Int.le_of_lt hi
  · rw [(h.fresh hi).1]

/-- The first reference. -/
theorem Tree.held (h : Tree sb s) (hx : s.Live sb x) (hg : Got x i s t) : Held sb s i t := by
  refine ⟨h.shares.got hg, hg.nonneg, hg.inum.symm ▸ hx, fun hfree => ?_⟩
  rw [hg.inum]
  exact h.shares.last_of_got hx hg hfree

theorem Held.pos (h : Held sb s i t) : 0 < (t.itable i).ref := by
  have := h.nonneg
  rw [h.shares.ref, one_self]
  omega

theorem Held.full (h : Shares s (one i) lock t) {e : Stop} (he : NoInodes t e) : TableFull s e := by
  refine ⟨he.1, i, fun j hj => ?_⟩
  have hj' := he.2 j
  rwa [h.ref, one_of_ne hj, Int.add_zero] at hj'

/-- Only slot `i` is locked. -/
def lockAt (i : Fin NINODE) : Fin NINODE → Bool := update (fun _ => false) i true

theorem lockAt_self (i : Fin NINODE) : lockAt i i = true := update_self _ _ _

theorem lockAt_release (i : Fin NINODE) : update (lockAt i) i false = fun _ => false := by
  rw [lockAt, Function.update_idem]
  exact Function.update_eq_self i _

/-- The directory in hand is locked. -/
theorem Held.ilock (h : Held sb s i t) : Runs (ilock i) t fun _ u =>
    Shares s (one i) (lockAt i) u ∧
    (∀ j, (u.itable j).inum = (t.itable j).inum) ∧ (u.itable i).din =
    s.disk.dinode (t.itable i).inum :=
  h.shares.ilock rfl h.pos h.live.1.2

/-- A directory that is locked can be read. -/
theorem Tree.dirAt (hs : Tree sb s) (h : Held sb s i t)
    (hu : Shares s (one i) (lockAt i) u)
    (hinum : (u.itable i).inum = (t.itable i).inum)
    (hdin : (u.itable i).din = s.disk.dinode (t.itable i).inum)
    (htype : (s.disk.dinode (t.itable i).inum).type = .dir) : DirAt sb i u := by
  have hsync : u.disk.dinode (u.itable i).inum = (u.itable i).din := by rw [hu.disk, hinum, hdin]
  have hpos : 0 < (u.itable i).ref := by
    have := h.nonneg
    rw [hu.ref, one_self]
    omega
  refine ⟨hpos, ⟨?_, ?_, ?_⟩, hsync, ?_, ?_⟩
  · change (u.itable i).inum < _
    rw [hinum]
    exact h.live.1.1
  · change (u.itable i).din.type ≠ _
    rw [hdin]
    exact h.live.1.2
  · rw [View.flush_of_sync hsync]
    change u.disk.Wf sb
    rw [hu.disk]
    exact hs.wf
  · rw [hdin, htype]
  · rw [hdin]
    exact hs.whole _ h.live.1 htype

/-- The reference in hand is passed on: a reference to the next inode has been taken, and the one to
the directory is dropped. -/
theorem Held.pass {next : Fin NINODE} {w : State} (h : Held sb s i t)
    (hu : Shares s (one i) (lockAt i) u) (hinum : (u.itable i).inum = (t.itable i).inum)
    (hdin : (u.itable i).din = s.disk.dinode (t.itable i).inum) (hy : s.Live sb y)
    (hg : Got y next u w) :
    Runs (iunlockput i) w fun _ v => (v.itable next).inum = y ∧ Held sb s next v := by
  have hpos : 0 < (u.itable i).ref := by
    have := h.nonneg
    rw [hu.ref, one_self]
    omega
  -- the slot of the directory, which may be the next one too, has kept its inode
  have hslot : (w.itable i).din = (u.itable i).din ∧ 0 < (w.itable i).ref := by
    by_cases hi : i = next
    · subst hi
      rw [hg.held hpos]
      exact ⟨rfl, Int.lt_add_one_of_le (Int.le_of_lt hpos)⟩
    · rw [hg.other i hi]
      exact ⟨rfl, hpos⟩
  have hextra : 0 < update (one i) next (one i next + 1) i := by
    by_cases hi : i = next
    · subst hi
      rw [update_self, one_self]
      decide
    · rw [update_of_ne hi, one_self]
      decide
  have hother (hn : next ≠ i) : (u.itable next).ref = (s.itable next).ref := by
    rw [hu.ref, one_of_ne hn, Int.add_zero]
  refine .mono ((hu.got hg).iunlockput (lockAt_self i) hextra hslot.2 fun hfree => ?_)
    fun _ v ⟨hv, hnum⟩ => ?_
  · rw [hslot.1, hdin]
    exact h.last hfree
  · rw [one_pass, lockAt_release] at hv
    have hnext : (v.itable next).inum = y := (hnum next).trans hg.inum
    refine ⟨hnext, hv, ?_, hnext.symm ▸ hy, fun hfree => ?_⟩
    · by_cases hn : next = i
      · rw [hn]
        exact h.nonneg
      · rw [← hother hn]
        exact hg.nonneg
    · rw [hnext]
      by_cases hused : 0 < (u.itable next).ref
      · -- the next inode is the directory itself
        have hn : next = i := by
          by_contra hn
          exact hfree (hother hn ▸ hused)
        subst hn
        have hsame : y = (t.itable next).inum := by
          rw [← hg.inum, hg.held hused]
          exact hinum
        rw [hsame]
        exact h.last hfree
      · exact hu.last_of_got hy hg hused

/-! ### The loop -/

/-- What the loop has found, with the reference in hand, or without one. -/
def Walked (sb : Superblock) (s : State) (parent : Bool) (x : ℕ) (names : List (List Byte))
    (r : Option (Fin NINODE × List Byte)) (t : State) : Prop :=
  match r with
  | none => s.disk.target sb parent x names = none
  | some (i, name) => s.disk.target sb parent x names = some ((t.itable i).inum, name) ∧
    Held sb s i t

theorem namexLoop_ends (hs : Tree sb s) (parent : Bool) (names : List (List Byte))
    (h : Held sb s ip t) :
    Ends (TableFull s) (namexLoop sb parent ip names) t
      (Walked sb s parent (t.itable ip).inum names) := by
  induction names generalizing ip t with
  | nil =>
    rw [namexLoop]
    cases parent with
    | false => exact .pure ⟨rfl, h⟩
    | true =>
      refine .bind (h.shares.iput ?_ fun hfree hvalid => ?_).ends fun _ u _ => .pure rfl
      · rw [one_self]
        decide
      · rw [← h.shares.sync ip h.pos hvalid]
        exact h.last hfree
  | cons name rest ih =>
    rw [namexLoop]
    refine .bind h.ilock.ends ?_
    rintro _ u ⟨hu, hinum, hdin⟩
    have hpos : 0 < (u.itable ip).ref := by
      have := h.nonneg
      rw [hu.ref, one_self]
      omega
    have hdrop : Runs (iunlockput ip) u fun _ _ => True := by
      refine .mono (hu.iunlockput (lockAt_self ip) ?_ hpos fun hfree => ?_) fun _ _ _ => trivial
      · rw [one_self]
        decide
      · rw [hdin]
        exact h.last hfree
    have hread : Runs (dinode ip) u fun din v =>
        din.type = (s.disk.dinode (t.itable ip).inum).type ∧ u = v :=
      .of_eq rfl ⟨by rw [hdin], rfl⟩
    refine .bind hread.ends ?_
    rintro din _ ⟨htype, rfl⟩
    rw [htype]
    by_cases hdir : (s.disk.dinode (t.itable ip).inum).type = .dir
    · rw [if_neg (not_not_intro hdir)]
      by_cases hlast : parent = true ∧ rest = []
      · rw [if_pos hlast]
        refine .bind (hu.iunlock (lockAt_self ip) hpos).ends ?_
        rintro _ _ ⟨hv, rfl⟩
        rw [lockAt_release] at hv
        have hsame : ((u.updInode ip fun ip => { ip with locked := false }).itable ip).inum =
            (t.itable ip).inum := by
          rw [State.updInode_self]
          exact hinum ip
        refine .pure ⟨?_, hv, h.nonneg, ?_, ?_⟩
        · rw [hsame]
          exact (if_neg (not_not_intro hdir)).trans (if_pos hlast)
        · rw [hsame]
          exact h.live
        · rw [hsame]
          exact h.last
      · rw [if_neg hlast]
        refine .bind ((dirlookup_ends (hs.dirAt h hu (hinum ip) hdin hdir) name).weaken fun e he =>
          Held.full hu he) fun r w hlook => ?_
        have hmap : u.dirMap sb ip = s.disk.dirMap sb (t.itable ip).inum := by
          rw [State.dirMap, hu.disk, hinum]
        have htarget : s.disk.target sb parent (t.itable ip).inum (name :: rest) =
            (u.dirMap sb ip (cut DIRSIZ name)).bind fun y => s.disk.target sb parent y rest := by
          rw [hmap]
          exact (if_neg (not_not_intro hdir)).trans (if_neg hlast)
        cases r with
        | none =>
          obtain ⟨hw, hnone⟩ := hlook
          rw [hw]
          refine .bind hdrop.ends fun _ v _ => .pure ?_
          rw [Walked, htarget, hnone]
          rfl
        | some found =>
          obtain ⟨y, k, -, hk, hentry, hsome, hgot⟩ := hlook
          rw [hu.disk, hinum] at hk hentry
          have hy := hs.entry _ h.live.1 hdir k hk _ y hentry
          refine .bind (h.pass hu (hinum ip) hdin hy hgot).ends ?_
          rintro _ v ⟨hnext, hv⟩
          refine .mono (ih hv) fun r z hz => ?_
          rw [hnext] at hz
          rw [Walked.eq_def, htarget, hsome]
          exact hz
    · rw [if_pos hdir]
      refine .bind hdrop.ends fun _ v _ => .pure ?_
      exact if_pos hdir

/-- Where a path starts. -/
def State.start (s : State) (cwd : Fin NINODE) (path : List Byte) : ℕ :=
  if path.head? = some 47 then ROOTINO else (s.itable cwd).inum

theorem namex_ends (hs : Tree sb s) (hcwd : 0 < (s.itable cwd).ref)
    (halloc : s.disk.Allocated sb (s.itable cwd).inum) (path : List Byte) (parent : Bool) :
    Ends (TableFull s) (namex sb cwd path parent) s
      (Walked sb s parent (s.start cwd path) (components path)) := by
  rw [namex, State.start, elems_eq_components (Nat.le_refl _)]
  by_cases hroot : path.head? = some 47
  · rw [if_pos hroot, if_pos hroot]
    have hget := (iget_ends ROOTINO s).weaken fun e he =>
      (⟨he.1, 0, fun j _ => he.2 j⟩ : TableFull s e)
    refine .bind hget fun i t hgot => ?_
    have hloop := namexLoop_ends hs parent (components path) (hs.held hs.root hgot)
    rwa [hgot.inum] at hloop
  · rw [if_neg hroot, if_neg hroot]
    have hself := s.updInode_self cwd fun ip => { ip with ref := ip.ref + 1 }
    have hdup : Runs (idup cwd) s fun _ t => Got (s.itable cwd).inum cwd s t := by
      refine .of_eq rfl ⟨rfl, ?_, ?_, fun j hj => State.updInode_of_ne _ hj, fun _ => hself,
        fun hfree => absurd hcwd hfree⟩
      · rw [hself]
      · rw [hself]
    refine .bind hdup.ends fun _ t hgot => ?_
    have hloop := namexLoop_ends hs parent (components path)
      (hs.held ⟨halloc, .inr ⟨cwd, hcwd, rfl⟩⟩ hgot)
    rwa [hgot.inum] at hloop

/-- The directory in hand, looked into. -/
theorem Held.dirlookup (hs : Tree sb s) (h : Held sb s i t)
    (htype : (s.disk.dinode (t.itable i).inum).type = .dir) (name : List Byte) :
    Ends (TableFull s) (do Fs.ilock i; Fs.dirlookup sb i name) t fun r u =>
      (r.map fun e => (u.itable e.1).inum) = s.disk.dirMap sb (t.itable i).inum
        (cut DIRSIZ name) := by
  refine .bind h.ilock.ends ?_
  rintro _ u ⟨hu, hinum, hdin⟩
  refine .mono ((dirlookup_ends (hs.dirAt h hu (hinum i) hdin htype) name).weaken fun e he =>
    Held.full hu he) fun r w hlook => ?_
  have hmap : u.dirMap sb i = s.disk.dirMap sb (t.itable i).inum := by
    rw [State.dirMap, hu.disk, hinum]
  rw [← hmap]
  cases r with
  | none => exact hlook.2.symm
  | some found =>
    obtain ⟨y, k, -, -, -, hsome, hgot⟩ := hlook
    rw [hsome, ← hgot.inum]
    rfl

/-- **Path resolution.** The string `path` stands in memory at `p`, and `name` is any buffer. Calls
of `skipelem`, one after another, end, and put the elements of the path into the buffer in order,
without writing after its end; the loops of the model are over these elements. `namei` gives the
inode that the fold of lookups over the elements gives, from the root or the current directory. If
`nameiparent` returns a directory and a name, the path has an element, and `dirlookup` of the name
in this directory gives the inode of the same fold. The calls stop only when `iget` needs a slot and
there is none. -/
theorem path_resolution {mem : ℕ → Byte} {p : ℕ} {path : List Byte} (hs : Tree sb s)
    (hcwd : 0 < (s.itable cwd).ref) (halloc : s.disk.Allocated sb (s.itable cwd).inum)
    (hpath : CString mem p path) (name : ℕ → Byte) :
    (∀ fuel, path.length < fuel → ∃ l, elemsAt mem fuel fuel p name = some l ∧
      l.map (fun e => cut DIRSIZ (buffer e.2)) = components path ∧
      ∀ e ∈ l, ∀ i, DIRSIZ ≤ i → e.2 i = name i) ∧
    elems path.length path = components path ∧
    Ends (TableFull s) (namei sb cwd path) s (fun r t =>
      (r.map fun i => (t.itable i).inum) = s.disk.resolve sb (s.start cwd path) (components path)) ∧
    Ends (TableFull s) (nameiparent sb cwd path) s fun r t => ∀ dp el, r = some (dp, el) →
      components path ≠ [] ∧ Ends (TableFull s) (do ilock dp; dirlookup sb dp el) t fun r u =>
        (r.map fun e => (u.itable e.1).inum) = s.disk.resolve sb (s.start cwd path)
          (components path) := by
  have hkey := components_key hpath
  refine ⟨fun fuel hfuel => ?_, elems_eq_components (Nat.le_refl _), ?_, ?_⟩
  · obtain ⟨l, hl, hmap, hout, -⟩ := elemsAt_spec hpath hfuel hfuel name
    exact ⟨l, hl, hmap, hout⟩
  · refine .bind (namex_ends hs hcwd halloc path false) fun r t hr => .pure ?_
    match r, hr with
    | none, hnone =>
      rw [Walked, Disk.target_false, hkey, Option.map_eq_none_iff] at hnone
      exact hnone.symm
    | some (i, el), ⟨htarget, _⟩ =>
      rw [Disk.target_false, hkey] at htarget
      obtain ⟨y, hy, heq⟩ := Option.map_eq_some_iff.mp htarget
      rw [hy, (Prod.mk.inj heq).1]
      rfl
  · refine .mono (namex_ends hs hcwd halloc path true) ?_
    rintro r t hr dp el rfl
    obtain ⟨htarget, hheld⟩ := hr
    obtain ⟨htype, hresolve⟩ := Disk.target_true htarget
    rw [hkey] at hresolve
    refine ⟨fun hnil => ?_, ?_⟩
    · rw [hnil] at htarget
      cases htarget
    · rw [hresolve]
      exact Held.dirlookup hs hheld htype el

/-- A root directory whose only entry, `a`, is the root directory itself. -/
theorem exists_tree : ∃ s, Tree smallDisk s ∧ 0 < (s.itable 0).ref ∧
    s.disk.Allocated smallDisk (s.itable 0).inum ∧
    s.disk.resolve smallDisk ROOTINO [[97]] = some ROOTINO := by
  obtain ⟨t, hrun, hinum, hfree, hlocked⟩ :
      ∃ t, (dirlink smallDisk 0 [97] ROOTINO).run emptyDirState = .ok (true, t) ∧
        (t.itable 0).inum = ROOTINO ∧ (t.disk.dinode 0).type = .free ∧
        ∀ i, i ≠ 0 → (t.itable i).locked = false := by
    decide +kernel
  obtain ⟨-, hok, href, hmap⟩ :=
    (dirlink_ends dirOk_emptyDirState [97] (by decide) (by decide)).of_run hrun
  rw [if_pos rfl] at hmap
  have hwf : t.disk.Wf smallDisk := hok.flush ▸ hok.wf.disk
  have halloc : t.disk.Allocated smallDisk (t.itable 0).inum := hok.flush ▸ hok.wf.allocated
  have honly (x : ℕ) (hx : t.disk.Allocated smallDisk x) : x = ROOTINO := by
    obtain ⟨hlt, htype⟩ := hx
    have hlt : x < 2 := hlt
    have hne : x ≠ 0 := fun h0 => htype (h0 ▸ hfree)
    change x = 1
    omega
  have hempty (key : List Byte) : emptyDirState.dirMap smallDisk 0 key = none := by
    rw [State.dirMap, Disk.dirMap, slotMap_eq_none_iff]
    exact fun k hk => absurd hk (Nat.not_lt_zero k)
  have hself := t.updInode_self 0 fun ip => { ip with locked := false }
  have hpos : 0 < (t.itable 0).ref := by
    rw [href]
    decide
  have hlive : (t.updInode 0 fun ip => { ip with locked := false }).Live smallDisk ROOTINO := by
    refine ⟨hinum ▸ halloc, .inr ⟨0, ?_, ?_⟩⟩
    · rw [hself]
      exact hpos
    · rw [hself]
      exact hinum
  -- the directory is unlocked
  refine ⟨t.updInode 0 fun ip => { ip with locked := false },
    ⟨hwf, hlive, fun x hx _ => ?_, fun x hx _ k hk key y hentry => ?_, fun i => ?_, fun i hi => ?_⟩,
    ?_, ?_, ?_⟩
  · change (t.disk.dinode x).size % DIRENT = 0
    rw [honly x hx, ← hinum, hok.sync]
    exact hok.whole
  · rw [honly x hx, ← hinum] at hk hentry
    have hkey : t.dirMap smallDisk 0 key = some y :=
      (slotMap_eq_some_iff hok.distinct).mpr ⟨k, hk, hentry⟩
    rw [hmap] at hkey
    by_cases ha : key = cut DIRSIZ [97]
    · rw [ha, update_self] at hkey
      rw [← Option.some.inj hkey]
      exact hlive
    · rw [update_of_ne ha, hempty] at hkey
      cases hkey
  · by_cases hi : i = 0
    · rw [hi, hself]
    · rw [State.updInode_of_ne _ hi]
      exact hlocked i hi
  · by_cases h0 : i = 0
    · rw [h0, hself]
      exact fun _ => hok.sync
    · rw [State.updInode_of_ne _ h0, href] at hi
      change 0 < (if i = 0 then _ else _ : Inode).ref at hi
      rw [if_neg h0] at hi
      exact absurd hi (by decide)
  · rw [hself]
    exact hpos
  · rw [hself]
    exact halloc
  · have hdir : (t.disk.dinode ROOTINO).type = .dir := by
      rw [← hinum, hok.sync]
      exact hok.type
    have hlook : t.disk.dirMap smallDisk ROOTINO [97] = some ROOTINO := by
      have hself : t.dirMap smallDisk 0 (cut DIRSIZ [97]) = some ROOTINO := by
        rw [hmap, update_self]
      rwa [State.dirMap, hinum] at hself
    rw [Disk.resolve_cons, Disk.lookup]
    change ((if (t.disk.dinode ROOTINO).type = .dir then t.disk.dirMap smallDisk ROOTINO [97]
      else none).bind fun y => some y) = _
    rw [if_pos hdir, hlook]
    rfl

/-- The path `//a/` -/
def slashes : List Byte := [47, 47, 97, 47]

theorem path_resolution_slashes : ∃ s, Tree smallDisk s ∧ components slashes = [[97]] ∧
    Ends (TableFull s) (namei smallDisk 0 slashes) s fun r t =>
      (r.map fun i => (t.itable i).inum) = some ROOTINO := by
  obtain ⟨s, hs, hcwd, halloc, hroot⟩ := exists_tree
  have hpath : CString (fun i => slashes.getD i 0) 0 slashes := by
    simp [CString, slashes]
  have hcomp : components slashes = [[97]] := by decide
  have hall := (path_resolution hs hcwd halloc hpath fun _ => 0).2.2.1
  rw [hcomp, State.start, if_pos (show slashes.head? = some 47 from rfl), hroot] at hall
  exact ⟨s, hs, hcomp, hall⟩

end Xv6.Fs
