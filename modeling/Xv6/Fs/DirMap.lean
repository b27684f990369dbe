import Xv6.Fs.Arrays
import Xv6.Fs.Directory
import Xv6.Fs.Table
import Xv6.Lib.SlotTable

/-!
# Directories as finite maps

The entries of a directory are a table with holes: an entry with inode number 0 is empty, and the
others hold a name, which counts up to `DIRSIZ` characters, and an inode number. `dirlink` fills the
first hole, or adds an entry at the end. `sys_unlink` clears the entry that `dirlookup` has found.

All this runs on a slot of the inode table that the caller has a reference to. `dirlookup` takes a
reference to the inode that it has found, which may find the table full.
-/

namespace Xv6.Fs

variable {sb : Superblock} {d d' : Disk} {s t u : State} {dp : Fin NINODE} {x y k n : ℕ}

/-! ### The map of a directory -/

/-- The key and the inode number in entry `k` of directory `x`. -/
def Disk.entry (sb : Superblock) (d : Disk) (x k : ℕ) : Option (List Byte × ℕ) :=
  if (d.dirent sb x k).inum = 0 then none
  else some ((d.dirent sb x k).key, (d.dirent sb x k).inum)

/-- How many entries directory `x` has room for. -/
def Disk.count (d : Disk) (x : ℕ) : ℕ := (d.dinode x).size / DIRENT

/-- The inode number that directory `x` has under a key. -/
def Disk.dirMap (sb : Superblock) (d : Disk) (x : ℕ) : List Byte → Option ℕ :=
  slotMap (d.count x) (d.entry sb x)

theorem Disk.lt_count (h : (d.dinode x).size % DIRENT = 0) :
    k < d.count x ↔ DIRENT * k + DIRENT ≤ (d.dinode x).size := by
  rw [Disk.count, dirent_eq] at *
  omega

/-- Entries are what they are written as. -/
theorem Disk.entry_eq {de : Dirent} (h : d.dirent sb x k = de) :
    d.entry sb x k = if de.inum = 0 then none else some (de.key, de.inum) := by
  rw [Disk.entry, h]

theorem Disk.entry_congr (h : d'.dirent sb x k = d.dirent sb x k) :
    d'.entry sb x k = d.entry sb x k := by
  rw [Disk.entry, Disk.entry, h]

/-- A test for a name finds the entry with its key. -/
theorem Disk.entry_eq_some_iff {name : List Byte} : d.entry sb x k = some (cut DIRSIZ name, y) ↔
    (d.dirent sb x k).inum ≠ 0 ∧ namecmp name (d.dirent sb x k).name = 0 ∧
      (d.dirent sb x k).inum = y := by
  rw [Disk.entry, namecmp_eq_zero_iff, Dirent.key]
  split_ifs with h
  · exact iff_of_false nofun fun hc => hc.1 h
  · rw [Option.some.injEq, Prod.mk.injEq]
    exact ⟨fun ⟨hk, hy⟩ => ⟨h, hk.symm, hy⟩, fun ⟨_, hk, hy⟩ => ⟨hk.symm, hy⟩⟩

/-- Slot `dp` of the table is in use for a directory, the copy in memory is the one on the disk, and
the last entry is whole. -/
structure DirAt (sb : Superblock) (dp : Fin NINODE) (s : State) : Prop where
  held : 0 < (s.itable dp).ref
  wf : (s.view dp).Wf sb
  sync : s.disk.dinode (s.itable dp).inum = (s.itable dp).din
  type : (s.itable dp).din.type = .dir
  whole : (s.itable dp).din.size % DIRENT = 0

/-- The map of the directory in slot `dp`. -/
def State.dirMap (sb : Superblock) (dp : Fin NINODE) (s : State) : List Byte → Option ℕ :=
  s.disk.dirMap sb (s.itable dp).inum

/-- And no key stands in two entries. -/
structure DirOk (sb : Superblock) (dp : Fin NINODE) (s : State) : Prop extends DirAt sb dp s where
  distinct : DistinctKeys (s.disk.count (s.itable dp).inum) (s.disk.entry sb (s.itable dp).inum)

theorem DirAt.flush (h : DirAt sb dp s) : (s.view dp).flush = s.disk := View.flush_of_sync h.sync

/-- The slot differs in what is no part of the directory. -/
theorem DirAt.congr (h : DirAt sb dp s) (hdisk : t.disk = s.disk)
    (hinum : (t.itable dp).inum = (s.itable dp).inum) (hdin : (t.itable dp).din = (s.itable dp).din)
    (href : 0 < (t.itable dp).ref) : DirAt sb dp t := by
  have hview : t.view dp = s.view dp := by rw [State.view, State.view, hinum, hdin, hdisk]
  refine ⟨href, hview ▸ h.wf, ?_, ?_, ?_⟩
  · rw [hinum, hdin, hdisk]
    exact h.sync
  · rw [hdin]
    exact h.type
  · rw [hdin]
    exact h.whole

theorem DirOk.congr (h : DirOk sb dp s) (hdisk : t.disk = s.disk)
    (hinum : (t.itable dp).inum = (s.itable dp).inum) (hdin : (t.itable dp).din = (s.itable dp).din)
    (href : 0 < (t.itable dp).ref) : DirOk sb dp t ∧ t.dirMap sb dp = s.dirMap sb dp := by
  refine ⟨⟨h.toDirAt.congr hdisk hinum hdin href, ?_⟩, ?_⟩
  · rw [hinum, hdisk]
    exact h.distinct
  · rw [State.dirMap, State.dirMap, hinum, hdisk]

theorem DirOk.back (h : DirOk sb dp s) (hb : Back s t) :
    DirOk sb dp t ∧ t.dirMap sb dp = s.dirMap sb dp := by
  have hslot := hb.held dp h.held
  exact h.congr hb.disk (by rw [hslot]) (by rw [hslot]) (by rw [hslot]; exact h.held)

/-- A reference has been taken. -/
theorem DirOk.got {i : Fin NINODE} (h : DirOk sb dp s) (hg : Got x i s t) :
    DirOk sb dp t ∧ t.dirMap sb dp = s.dirMap sb dp := by
  by_cases hi : dp = i
  · subst hi
    have hslot := hg.held h.held
    refine h.congr hg.disk (by rw [hslot]) (by rw [hslot]) ?_
    rw [hslot]
    exact Int.lt_add_one_of_le (Int.le_of_lt h.held)
  · have hslot := hg.other dp hi
    exact h.congr hg.disk (by rw [hslot]) (by rw [hslot]) (by rw [hslot]; exact h.held)

/-! ### Looking for an entry -/

/-- A scan of the directory. -/
theorem DirAt.scan (h : DirAt sb dp s) (why : Panic) (test : Dirent → Bool) :
    ∃ k de, (withInode dp fun v => dirscan sb why test v.ip.size 0 v).run s =
    .ok ((DIRENT * k, de), s) ∧
      Scanned sb s.disk (s.itable dp).inum test 0 k de := by
  obtain ⟨-, hodd⟩ | ⟨k, de, hrun, hscan⟩ := dirscan_spec h.wf why test (s.view dp).ip.size 0 (by
    rw [dirent_eq]
    omega)
  · exact absurd h.whole hodd
  · rw [h.flush] at hscan
    refine ⟨k, de, ?_, hscan⟩
    change withInode dp _ s = _
    rw [withInode]
    rw [Nat.mul_zero] at hrun
    rw [hrun]
    dsimp only
    rw [s.setView_view]

/-- What `dirlookup` has found: nothing, or an entry with the name, at its offset. -/
def Looked (sb : Superblock) (dp : Fin NINODE) (name : List Byte) (s : State)
    (r : Option (Fin NINODE × ℕ)) (t : State) : Prop :=
  match r with
  | none => t = s ∧ s.dirMap sb dp (cut DIRSIZ name) = none
  | some (i, off) => ∃ y k, off = DIRENT * k ∧ k < s.disk.count (s.itable dp).inum ∧
      s.disk.entry sb (s.itable dp).inum k = some (cut DIRSIZ name, y) ∧
      s.dirMap sb dp (cut DIRSIZ name) = some y ∧ Got y i s t

theorem DirAt.lt_count (h : DirAt sb dp s) : k < s.disk.count (s.itable dp).inum ↔
    DIRENT * k + DIRENT ≤ (s.disk.dinode (s.itable dp).inum).size :=
  Disk.lt_count (by rw [h.sync]; exact h.whole)

theorem dirlookup_ends (h : DirAt sb dp s) (name : List Byte) :
    Ends (NoInodes s) (dirlookup sb dp name) s (Looked sb dp name s) := by
  obtain ⟨k, de, hrun, hscan⟩ := h.scan .dirlookupRead
    fun de => de.inum ≠ 0 ∧ namecmp name de.name = 0
  have hdin : Runs (dinode dp) s fun din t => din.type = .dir ∧ t = s := .of_eq rfl ⟨h.type, rfl⟩
  have hscanned : Runs (withInode dp fun v => dirscan sb .dirlookupRead
      (fun de => de.inum ≠ 0 ∧ namecmp name de.name = 0) v.ip.size 0 v) s
      fun r t => r = (DIRENT * k, de) ∧ t = s := .of_eq hrun ⟨rfl, rfl⟩
  rw [dirlookup]
  refine .bind hdin.ends ?_
  rintro din _ ⟨htype, rfl⟩
  rw [if_neg (not_not_intro htype)]
  refine .bind hscanned.ends ?_
  rintro _ _ ⟨rfl, rfl⟩
  cases de with
  | none =>
    refine .pure ⟨rfl, slotMap_eq_none_iff.mpr fun j hj y hy => ?_⟩
    have hj := h.lt_count.mp hj
    have hend := hscan.ended rfl
    obtain ⟨-, htest⟩ := hscan.before j (Nat.zero_le j) (by rw [dirent_eq] at *; omega)
    obtain ⟨hused, hname, -⟩ := Disk.entry_eq_some_iff.mp hy
    exact of_decide_eq_false htest ⟨hused, hname⟩
  | some de =>
    obtain ⟨hk, rfl, htest⟩ := hscan.found de rfl
    obtain ⟨hused, hname⟩ := of_decide_eq_true htest
    have hentry := Disk.entry_eq_some_iff.mpr ⟨hused, hname, rfl⟩
    refine .bind (iget_ends _ _) fun i t hgot =>
      .pure ⟨_, k, rfl, h.lt_count.mpr hk, hentry, ?_, hgot⟩
    refine slotMap_of_first (h.lt_count.mpr hk) hentry fun j hj y hy => ?_
    obtain ⟨-, hpassed⟩ := hscan.before j (Nat.zero_le j) hj
    obtain ⟨hused, hname, -⟩ := Disk.entry_eq_some_iff.mp hy
    exact of_decide_eq_false hpassed ⟨hused, hname⟩

/-! ### Writing an entry -/

/-- Entry `k` has been written, or nothing has changed. -/
structure EntryWritten (sb : Superblock) (dp : Fin NINODE) (k : ℕ) (de : Dirent) (s : State)
    (r : Bool) (t : State) : Prop where
  dir : DirAt sb dp t
  inum : (t.itable dp).inum = (s.itable dp).inum
  ref : ∀ j, (t.itable j).ref = (s.itable j).ref
  other : ∀ j, j ≠ dp → t.itable j = s.itable j
  inside : k < s.disk.count (s.itable dp).inum → r = true
  failed : r = false → t.disk.count (s.itable dp).inum = s.disk.count (s.itable dp).inum ∧
    ∀ j < s.disk.count (s.itable dp).inum,
      t.disk.entry sb (s.itable dp).inum j = s.disk.entry sb (s.itable dp).inum j
  done : r = true →
    t.disk.count (s.itable dp).inum = max (s.disk.count (s.itable dp).inum) (k + 1) ∧
    t.disk.dirent sb (s.itable dp).inum k = de ∧
    ∀ j < s.disk.count (s.itable dp).inum, j ≠ k →
      t.disk.entry sb (s.itable dp).inum j = s.disk.entry sb (s.itable dp).inum j

theorem DirAt.setView {v : View} {A : ℕ → Prop} (h : DirAt sb dp s)
    (hupd : (s.view dp).Updated sb A v) (hwhole : v.ip.size % DIRENT = 0) :
    DirAt sb dp (s.setView dp v) := by
  have hself : (s.setView dp v).itable dp = { s.itable dp with din := v.ip } :=
    Function.update_self _ _ _
  have hinum : v.inum = (s.itable dp).inum := hupd.inum
  have htype : v.ip.type = .dir := by
    rw [hupd.head]
    exact h.type
  refine ⟨?_, ⟨?_, ?_, ?_⟩, ?_, ?_, ?_⟩
  · rw [hself]
    exact h.held
  · rw [State.view, hself]
    exact h.wf.lt
  · rw [State.view, hself]
    change v.ip.type ≠ .free
    rw [htype]
    decide
  · rw [State.view, hself, View.flush_of_sync]
    · exact hupd.wf
    · exact hupd.sync
  · rw [hself]
    exact hupd.sync
  · rw [hself]
    exact htype
  · rw [hself]
    exact hwhole

theorem writeDirent_runs (de : Dirent) (h : DirAt sb dp s) (hinum : de.inum < 256 ^ 2)
    (hname : de.name.length = DIRSIZ) (hk : k ≤ s.disk.count (s.itable dp).inum) :
    Runs (writeDirent sb dp de (DIRENT * k)) s fun r t => EntryWritten sb dp k de s r t := by
  have hsize : (s.disk.dinode (s.itable dp).inum).size = (s.itable dp).din.size := by rw [h.sync]
  have hwhole := h.whole
  have hle : DIRENT * k ≤ (s.view dp).ip.size := by
    rw [Disk.count, hsize, dirent_eq] at hk
    rw [dirent_eq]
    change 16 * k ≤ (s.itable dp).din.size
    omega
  have halloc : s.disk.Allocated sb (s.itable dp).inum := by
    have halloc := h.wf.allocated
    rwa [h.flush] at halloc
  have hwf : s.disk.Wf sb := by
    have hwf := h.wf.disk
    rwa [h.flush] at hwf
  obtain ⟨r, v, hrun, hcases⟩ := writei_dirent h.wf h.sync hinum hname hle
  have hres : (writeDirent sb dp de (DIRENT * k)).run s =
      .ok (decide (r = DIRENT), s.setView dp v) := by
    have hwith : (withInode dp fun v => writei sb v (fun i => some (de.encode i)) (DIRENT * k)
        DIRENT).run s = .ok (r, s.setView dp v) := by
      change withInode dp _ s = _
      rw [withInode, hrun]
    rw [writeDirent, run_bind hwith]
    rfl
  have hself : (s.setView dp v).itable dp = { s.itable dp with din := v.ip } :=
    Function.update_self _ _ _
  have hother (j : Fin NINODE) (hj : j ≠ dp) : (s.setView dp v).itable j = s.itable j :=
    Function.update_of_ne hj _ _
  have href (j : Fin NINODE) : ((s.setView dp v).itable j).ref = (s.itable j).ref := by
    by_cases hj : j = dp
    · rw [hj, hself]
    · rw [hother j hj]
  -- an entry inside the directory has its block
  have hinside (hk : k < s.disk.count (s.itable dp).inum) : decide (r = DIRENT) = true := by
    have hle' : DIRENT * k + DIRENT ≤ (s.view dp).ip.size := hsize ▸ h.lt_count.mp hk
    have hmax := hwf.size_le _ halloc
    rw [hsize] at hmax
    obtain ⟨v', hfull, -⟩ := writei_full h.wf de.encode hle (Nat.le_trans hle' hmax)
      (h.wf.enough_inside hle')
    rw [hrun] at hfull
    exact decide_eq_true (Prod.mk.inj (Except.ok.inj hfull)).1
  refine .of_eq hres ?_
  obtain ⟨hr, hsz, hupd⟩ | ⟨hr, hsz, hde, hupd⟩ := hcases
  · have hsync : v.disk.dinode (s.itable dp).inum = v.ip := hupd.sync
    refine ⟨h.setView hupd (by rw [hsz]; exact hwhole), by rw [hself], href, hother, hinside,
      fun _ => ⟨?_, ?_⟩,
      fun hd => absurd (of_decide_eq_true hd) hr⟩
    · change (v.disk.dinode _).size / DIRENT = _
      rw [hsync, hsz, Disk.count, hsize]
      rfl
    · intro j hj
      exact Disk.entry_congr (hupd.keeps.dirent hwf halloc (h.lt_count.mp hj) fun _ _ _ =>
        not_false)
  · have hsync : v.disk.dinode (s.itable dp).inum = v.ip := hupd.sync
    have hmax : v.ip.size = max (s.itable dp).din.size (DIRENT * k + DIRENT) := hsz
    refine ⟨h.setView hupd ?_, by rw [hself], href, hother, hinside,
      fun hd => absurd hr (of_decide_eq_false hd), fun _ => ⟨?_, hde, ?_⟩⟩
    · rw [hmax, dirent_eq] at *
      omega
    · change (v.disk.dinode _).size / DIRENT = _
      rw [hsync, hmax, Disk.count, hsize, dirent_eq] at *
      omega
    · intro j hj hjk
      refine Disk.entry_congr (hupd.keeps.dirent hwf halloc (h.lt_count.mp hj) fun _ i hi hA => ?_)
      rw [dirent_eq] at *
      omega

/-! ### The calls -/

/-- What a call has made of the directory: its map is `m` now. -/
structure DirStep (sb : Superblock) (dp : Fin NINODE) (m : List Byte → Option ℕ) (s t : State) :
    Prop where
  ok : DirOk sb dp t
  ref : ∀ j, (t.itable j).ref = (s.itable j).ref
  map : t.dirMap sb dp = m

/-- What `sys_unlink` does to the directory: the entry is looked for, and it is cleared. The
reference to the inode is dropped. -/
def removeEntry (sb : Superblock) (dp : Fin NINODE) (name : List Byte) : FsM Bool := do
  match ← dirlookup sb dp name with
  | none => return false
  | some (ip, off) =>
    if ← writeDirent sb dp ⟨0, List.replicate DIRSIZ 0⟩ off then
      iput ip
      return true
    else throw (.panic .unlinkWritei)

/-- The first entry that is free, or the end. -/
theorem DirAt.scan_free (h : DirAt sb dp s) : ∃ k de,
    (withInode dp fun v => dirscan sb .dirlinkRead (fun de => de.inum = 0) v.ip.size 0 v).run s =
      .ok ((DIRENT * k, de), s) ∧ k ≤ s.disk.count (s.itable dp).inum ∧
      (k < s.disk.count (s.itable dp).inum → s.disk.entry sb (s.itable dp).inum k = none) := by
  obtain ⟨k, de, hrun, hscan⟩ := h.scan .dirlinkRead fun de => de.inum = 0
  refine ⟨k, de, hrun, ?_, fun hk => ?_⟩
  · cases k with
    | zero => exact Nat.zero_le _
    | succ j => exact h.lt_count.mpr (hscan.before j (Nat.zero_le j) (Nat.lt_succ_self j)).1
  · cases de with
    | none =>
      have hend := hscan.ended rfl
      have hk := h.lt_count.mp hk
      rw [dirent_eq] at *
      omega
    | some de =>
      obtain ⟨-, rfl, htest⟩ := hscan.found de rfl
      rw [Disk.entry, if_pos (of_decide_eq_true htest)]

/-- **`dirlink` binds a name that is not there, or changes nothing.** -/
theorem dirlink_ends (h : DirOk sb dp s) (name : List Byte) (hpos : 0 < y) (hy : y < 256 ^ 2) :
    Ends (NoInodes s) (dirlink sb dp name y) s fun r t =>
      (r = true → s.dirMap sb dp (cut DIRSIZ name) = none) ∧
      DirStep sb dp (if r then Function.update (s.dirMap sb dp) (cut DIRSIZ name) (some y)
        else s.dirMap sb dp) s t := by
  rw [dirlink]
  refine .bind (dirlookup_ends h.toDirAt name) fun r t hlook => ?_
  match r, hlook with
  | some (i, off), ⟨_, _, _, _, _, _, hgot⟩ =>
    refine .bind hgot.iput.ends fun _ u hback => .pure ⟨nofun, ?_⟩
    obtain ⟨hok, hmap⟩ := h.back hback
    exact ⟨hok, hback.ref, hmap⟩
  | none, ⟨ht, hnew⟩ =>
    subst ht
    obtain ⟨k, de, hrun, hk, hempty⟩ := h.toDirAt.scan_free
    have hscan :
        Runs (withInode dp fun v => dirscan sb .dirlinkRead (fun de => de.inum = 0) v.ip.size 0 v)
        t fun r u => r = (DIRENT * k, de) ∧ u = t := .of_eq hrun ⟨rfl, rfl⟩
    refine .bind hscan.ends ?_
    rintro _ w ⟨rfl, hw⟩
    rw [hw]
    refine .mono (writeDirent_runs _ h.toDirAt hy (length_strncpy _ _) hk).ends fun r u hw => ?_
    have hmap : u.dirMap sb dp = u.disk.dirMap sb (t.itable dp).inum := by
      rw [State.dirMap, hw.inum]
    cases r with
    | false =>
      obtain ⟨hcount, hsame⟩ := hw.failed rfl
      obtain ⟨hdist, hsame⟩ := slotMap_same h.distinct hcount hsame
      refine ⟨nofun, ⟨hw.dir, by rw [hw.inum]; exact hdist⟩, hw.ref, ?_⟩
      rw [hmap]
      exact hsame
    | true =>
      obtain ⟨hcount, hself, hsame⟩ := hw.done rfl
      have hentry : u.disk.entry sb (t.itable dp).inum k = some (cut DIRSIZ name, y) := by
        rw [Disk.entry_eq hself, if_neg hpos.ne', Dirent.key, cut_strncpy]
      obtain ⟨hdist, hfill⟩ := slotMap_fill h.distinct hempty hcount hk hentry hsame hnew
      refine ⟨fun _ => hnew, ⟨hw.dir, by rw [hw.inum]; exact hdist⟩, hw.ref, ?_⟩
      rw [hmap]
      exact hfill

/-- **A removal unbinds the name**, if it is there. -/
theorem removeEntry_ends (h : DirOk sb dp s) (name : List Byte) :
    Ends (NoInodes s) (removeEntry sb dp name) s fun r t =>
      r = (s.dirMap sb dp (cut DIRSIZ name)).isSome ∧
      DirStep sb dp (Function.update (s.dirMap sb dp) (cut DIRSIZ name) none) s t := by
  rw [removeEntry]
  refine .bind (dirlookup_ends h.toDirAt name) fun r t hlook => ?_
  match r, hlook with
  | none, ⟨ht, hnone⟩ =>
    subst ht
    refine .pure ⟨by rw [hnone]; rfl, h, fun _ => rfl, ?_⟩
    rw [← hnone, Function.update_eq_self]
  | some (i, off), ⟨z, k, hoff, hk, hentry, hmap, hgot⟩ =>
    subst hoff
    obtain ⟨ht, htmap⟩ := h.got hgot
    have hinum : (t.itable dp).inum = (s.itable dp).inum := by
      by_cases hi : dp = i
      · subst hi
        rw [hgot.held h.held]
      · rw [hgot.other dp hi]
    have hdisk := hgot.disk
    rw [← hinum, ← hdisk] at hk hentry
    have hwrite := writeDirent_runs ⟨0, List.replicate DIRSIZ 0⟩ ht.toDirAt (by decide)
      List.length_replicate (Nat.le_of_lt hk)
    refine .bind hwrite.ends fun r u hw => ?_
    obtain rfl := hw.inside hk
    rw [if_pos rfl]
    obtain ⟨hcount, hself, hsame⟩ := hw.done rfl
    rw [Nat.max_eq_left hk] at hcount
    obtain ⟨hdist, hclear⟩ := slotMap_clear ht.distinct hk hentry (Disk.entry_eq hself) hsame
    have hrefi : (u.itable i).ref = (s.itable i).ref + 1 := (hw.ref i).trans hgot.ref
    have hkeep : ¬ ((u.itable i).ref = 1 ∧ (u.itable i).valid ∧ (u.itable i).din.nlink = 0) := by
      rintro ⟨href, hvalid, -⟩
      have hi : ¬ 0 < (s.itable i).ref := by omega
      have hne : i ≠ dp := by
        rintro rfl
        exact hi h.held
      rw [hw.other i hne, (hgot.fresh hi).2.1] at hvalid
      cases hvalid
    refine .bind (iput_runs hkeep).ends fun _ w hd => ?_
    have href (j : Fin NINODE) : (w.itable j).ref = (s.itable j).ref := by
      by_cases hij : j = i
      · subst hij
        rw [hd.self]
        change (u.itable j).ref - 1 = _
        omega
      · rw [hd.other j hij, hw.ref, hgot.other j hij]
    have hslot : (w.itable dp).inum = (u.itable dp).inum ∧
        (w.itable dp).din = (u.itable dp).din := by
      by_cases hi : dp = i
      · subst hi
        rw [hd.self]
        exact ⟨rfl, rfl⟩
      · rw [hd.other dp hi]
        exact ⟨rfl, rfl⟩
    rw [← hcount] at hdist hclear
    have hu : DirOk sb dp u := ⟨hw.dir, by rw [hw.inum]; exact hdist⟩
    obtain ⟨hok, hwmap⟩ := hu.congr hd.disk hslot.1 hslot.2 (by rw [href]; exact h.held)
    refine .pure ⟨by rw [hmap]; rfl, hok, href, ?_⟩
    rw [hwmap, State.dirMap, hw.inum, ← htmap]
    refine hclear.trans ?_
    rw [hcount]
    rfl

/-! ### Sequences of calls -/

/-- A call on a directory. -/
inductive DirCall
  | link (name : List Byte) (inum : ℕ)
  | remove (name : List Byte)

/-- The inode numbers that a directory entry can hold. -/
def DirCall.Ok : DirCall → Prop
  | .link _ y => 0 < y ∧ y < 65536
  | .remove _ => True

/-- The code of a call. -/
def DirCall.run (sb : Superblock) (dp : Fin NINODE) : DirCall → FsM Bool
  | .link name y => dirlink sb dp name y
  | .remove name => removeEntry sb dp name

/-- Calls, one after another, and what they return. -/
def runCalls (sb : Superblock) (dp : Fin NINODE) : List DirCall → FsM (List Bool)
  | [] => return []
  | c :: cs => do
    let r ← c.run sb dp
    let rs ← runCalls sb dp cs
    return r :: rs

/-- What a call that returns `r` does to a finite map, and when it may return `r`. -/
def DirCall.Steps (m : List Byte → Option ℕ) (r : Bool) (m' : List Byte → Option ℕ) : DirCall → Prop
  | .link name y =>
    if r then m (cut DIRSIZ name) = none ∧ m' = Function.update m (cut DIRSIZ name) (some y)
    else m' = m
  | .remove name =>
    r = (m (cut DIRSIZ name)).isSome ∧ m' = Function.update m (cut DIRSIZ name) none

/-- The calls take the map `m` to `m'`. -/
def MapRun : (List Byte → Option ℕ) → List DirCall → List Bool → (List Byte → Option ℕ) → Prop
  | m, [], rs, m' => rs = [] ∧ m' = m
  | m, c :: cs, rs, m' => ∃ r rs' m₁, rs = r :: rs' ∧ c.Steps m r m₁ ∧ MapRun m₁ cs rs' m'

theorem DirCall.ends {c : DirCall} (h : DirOk sb dp s) (hc : c.Ok) :
    Ends (NoInodes s) (c.run sb dp) s fun r t => DirOk sb dp t ∧
      (∀ j, (t.itable j).ref = (s.itable j).ref) ∧ c.Steps (s.dirMap sb dp) r (t.dirMap sb dp) := by
  cases c with
  | link name y =>
    refine .mono (dirlink_ends h name hc.1 hc.2) fun r t ht => ⟨ht.2.ok, ht.2.ref, ?_⟩
    cases r with
    | false => exact ht.2.map
    | true => exact ⟨ht.1 rfl, ht.2.map⟩
  | remove name =>
    exact .mono (removeEntry_ends h name) fun r t ht => ⟨ht.2.ok, ht.2.ref, ht.1, ht.2.map⟩

/-- Every sequence of calls is one of the map. -/
theorem runCalls_ends {cs : List DirCall} (h : DirOk sb dp s) (hcs : ∀ c ∈ cs, c.Ok) :
    Ends (NoInodes s) (runCalls sb dp cs) s fun rs t => DirOk sb dp t ∧
      MapRun (s.dirMap sb dp) cs rs (t.dirMap sb dp) := by
  induction cs generalizing s with
  | nil => exact .pure ⟨h, rfl, rfl⟩
  | cons c cs ih =>
    rw [runCalls]
    refine .bind (DirCall.ends h (hcs c List.mem_cons_self)) fun r t ⟨ht, href, hstep⟩ => ?_
    have hrest := ih ht fun c' hc' => hcs c' (List.mem_cons_of_mem c hc')
    refine .bind (hrest.weaken fun e he => ⟨he.1, fun i => href i ▸ he.2 i⟩)
      fun rs u ⟨hu, hrun⟩ => ?_
    exact .pure ⟨hu, r, rs, _, rfl, hstep, hrun⟩

/-- **A directory is a finite map** from names cut to `DIRSIZ` characters to inode numbers. Any
sequence of calls of `dirlink` and removals does to the directory what it does to the map, and after
it no two entries that are used have names that compare equal. `dirlookup` finds what the map has,
in an inode slot for that number, and the offset of its entry. A call stops only when `iget` needs a
slot and there is none. -/
theorem directory_refines_map {cs : List DirCall} (h : DirOk sb dp s) (hcs : ∀ c ∈ cs, c.Ok) :
    Ends (NoInodes s) (runCalls sb dp cs) s fun rs t =>
      MapRun (s.dirMap sb dp) cs rs (t.dirMap sb dp) ∧
      (∀ j < t.disk.count (t.itable dp).inum, ∀ k < t.disk.count (t.itable dp).inum,
        (t.disk.dirent sb (t.itable dp).inum j).inum ≠ 0 →
        (t.disk.dirent sb (t.itable dp).inum k).inum ≠ 0 →
        namecmp (t.disk.dirent sb (t.itable dp).inum j).name
          (t.disk.dirent sb (t.itable dp).inum k).name = 0 → j = k) ∧
      ∀ name, Ends (NoInodes t) (dirlookup sb dp name) t fun r u =>
        match r with
        | none => t.dirMap sb dp (cut DIRSIZ name) = none
        | some (i, off) => t.dirMap sb dp (cut DIRSIZ name) = some (u.itable i).inum ∧
            ∃ k < t.disk.count (t.itable dp).inum, off = DIRENT * k ∧
              (t.disk.dirent sb (t.itable dp).inum k).inum = (u.itable i).inum ∧
              namecmp name (t.disk.dirent sb (t.itable dp).inum k).name = 0 := by
  refine .mono (runCalls_ends h hcs) fun rs t ⟨ht, hrun⟩ =>
    ⟨hrun, fun j hj k hk hju hku hname => ?_, fun name => ?_⟩
  · have hkey : (t.disk.dirent sb (t.itable dp).inum j).key =
        (t.disk.dirent sb (t.itable dp).inum k).key :=
      (namecmp_eq_zero_iff _ _).mp hname
    have hj' : t.disk.entry sb (t.itable dp).inum j = _ := if_neg hju
    have hk' : t.disk.entry sb (t.itable dp).inum k = _ := if_neg hku
    rw [hkey] at hj'
    exact ht.distinct j hj k hk _ _ _ hj' hk'
  · refine .mono (dirlookup_ends ht.toDirAt name) fun r u hlook => ?_
    match r, hlook with
    | none, ⟨_, hnone⟩ => exact hnone
    | some (i, off), ⟨y, k, hoff, hk, hentry, hmap, hgot⟩ =>
      obtain ⟨-, hname, hinum⟩ := Disk.entry_eq_some_iff.mp hentry
      have hi : (u.itable i).inum = y := hgot.inum
      exact ⟨hi ▸ hmap, k, hk, hoff, hi ▸ hinum, hname⟩

/-- An inode of a directory without entries. -/
def emptyDir : Dinode := ⟨.dir, 0, 0, 1, 0, fun _ => 0⟩

/-- A disk with this inode and no other, which is in the first slot of the table. -/
def emptyDirState : State where
  disk := ⟨fun b => decide (b < 4), fun x => if x = 1 then emptyDir else .zero, fun _ _ => 0⟩
  itable i := if i = 0 then ⟨1, 1, true, true, emptyDir⟩ else ⟨0, 0, false, false, .zero⟩
  ftable _ := ⟨.none, 0, false, false, 0, 0, 0⟩
  proc _ := ⟨none, fun _ => none⟩

theorem emptyDirState_ref : emptyDirState.disk.ref smallDisk = fun _ => 0 := by
  funext ⟨x, k⟩
  by_cases hx : emptyDirState.disk.Allocated smallDisk x
  · rw [Disk.ref_of_allocated hx]
    have haddrs : (emptyDirState.disk.dinode x).addrs = fun _ => 0 := by
      change (if x = 1 then emptyDir else .zero).addrs = _
      split_ifs <;> rfl
    rw [Dinode.ref, haddrs]
    split_ifs with hk hk'
    · rfl
    · exact absurd rfl hk'.2
    · rfl
  · exact Disk.ref_of_not_allocated hx k

theorem dirOk_emptyDirState : DirOk smallDisk 0 emptyDirState := by
  have hsize (x : ℕ) : (emptyDirState.disk.dinode x).size = 0 := by
    change (if x = 1 then emptyDir else .zero).size = _
    split_ifs <;> rfl
  have hwf : emptyDirState.disk.Wf smallDisk := by
    refine ⟨?_, fun x _ bn hbn => ?_, fun x _ => ?_⟩
    · rw [emptyDirState_ref]
      refine ⟨by decide, fun b hb => decide_eq_true hb, fun _ _ h => absurd rfl h,
        fun _ h => absurd rfl h, fun b hb => ?_⟩
      have hb : 4 ≤ b := hb
      refine iff_of_false (fun hused => ?_) ?_
      · exact absurd (of_decide_eq_true hused) (by omega)
      · rintro ⟨-, h⟩
        omega
    · rw [hsize] at hbn
      exact absurd hbn (Nat.not_lt_zero _)
    · rw [hsize]
      exact Nat.zero_le _
  have hflush : (emptyDirState.view 0).flush = emptyDirState.disk := View.flush_of_sync rfl
  refine ⟨⟨by decide, ⟨by decide, by decide, hflush ▸ hwf⟩, rfl, rfl, rfl⟩, fun j hj => ?_⟩
  rw [Disk.count, hsize] at hj
  exact absurd hj (Nat.not_lt_zero _)

/-- A name of sixteen characters is bound, then the name cut to fourteen, and then it is removed. -/
def linkTwice : List DirCall :=
  [.link (List.replicate 16 97) 5, .link (List.replicate 14 97) 6, .remove (List.replicate 15 97)]

theorem directory_refines_map_linkTwice : ∃ rs t,
    (runCalls smallDisk 0 linkTwice).run emptyDirState = .ok (rs, t) ∧ rs = [true, false, true] ∧
      MapRun (emptyDirState.dirMap smallDisk 0) linkTwice rs (t.dirMap smallDisk 0) := by
  have hcs : ∀ c ∈ linkTwice, c.Ok := by
    simp [linkTwice, DirCall.Ok]
  obtain ⟨t, hrun, -⟩ : ∃ t, (runCalls smallDisk 0 linkTwice).run emptyDirState =
      .ok ([true, false, true], t) ∧ True := by decide +kernel
  have hall := directory_refines_map dirOk_emptyDirState hcs
  exact ⟨_, t, hrun, rfl, (hall.of_run hrun).1⟩

end Xv6.Fs
