import Xv6.Mkfs.Refine

/-!
# Files that grow

What `iappend` does to the files of an image, in terms of their bytes, and what `balloc` does to the
image: it becomes the disk that it has stood for.
-/

namespace Xv6.Fs.Mkfs

variable {w w' : Work} {x y inum off n : ℕ} {p : List Byte}

/-! ### A file after `iappend` -/

/-- The bytes `p` have been added at the end of file `inum`. -/
structure Appended (inum : ℕ) (p : List Byte) (w w' : Work) : Prop where
  sound : Sound w'
  freeinode : w'.freeinode = w.freeinode
  wf : w'.disk.Wf superblock
  keeps : Keeps superblock inum (fun pos => (w.disk.dinode inum).size ≤ pos ∧
    pos < (w.disk.dinode inum).size + p.length) w.disk w'.disk
  other : ∀ y, y ≠ inum → w'.disk.dinode y = w.disk.dinode y
  type : (w'.disk.dinode inum).type = (w.disk.dinode inum).type
  size : (w'.disk.dinode inum).size = (w.disk.dinode inum).size + p.length
  addrs : ∀ k < NDIRECT, (w.disk.dinode inum).size + p.length ≤ k * BSIZE →
    (w'.disk.dinode inum).addrs k = (w.disk.dinode inum).addrs k
  stored : ∀ i < p.length, w'.disk.content superblock inum ((w.disk.dinode inum).size + i) =
    p.getD i 0

/-- A write gives the inode no block beyond its range. -/
theorem writeiLoop_addrs {sb : Superblock} {src : ℕ → Option Byte} {v v' : View} {r : ℕ × ℕ}
    {n fuel tot off k : ℕ} (hrun : writeiLoop sb src n fuel tot off v = .ok (r, v'))
    (hk : k < NDIRECT) (hle : off + (n - tot) ≤ k * BSIZE) : v'.ip.addrs k = v.ip.addrs k := by
  induction fuel generalizing tot off v with
  | zero =>
    cases hrun
    rfl
  | succ fuel ih =>
    rw [writeiLoop] at hrun
    split at hrun
    case isTrue hlt =>
      cases hbmap : bmap sb v (off / BSIZE) with
      | error e =>
        rw [hbmap] at hrun
        cases hrun
      | ok q =>
        obtain ⟨a, v₁⟩ := q
        have haddrs := bmap_addrs hbmap (Nat.ne_of_lt hk) fun _ heq => by
          have hdiv := Nat.div_mul_le_self off BSIZE
          rw [← heq] at hdiv
          omega
        rw [hbmap] at hrun
        change (if a = 0 then _ else if _ then _ else _ : Except Stop _) = _ at hrun
        split_ifs at hrun
        · cases hrun
          exact haddrs
        · exact (ih hrun (by omega)).trans haddrs
        · cases hrun
          exact haddrs
    case isFalse =>
      cases hrun
      rfl

theorem writei_addrs {sb : Superblock} {src : ℕ → Option Byte} {v v' : View} {r : ℤ} {n off k : ℕ}
    (hrun : writei sb v src off n = .ok (r, v')) (hk : k < NDIRECT) (hle : off + n ≤ k * BSIZE) :
    v'.ip.addrs k = v.ip.addrs k := by
  rw [writei] at hrun
  split_ifs at hrun
  · cases hrun
    rfl
  · cases hrun
    rfl
  · cases hloop : writeiLoop sb src n n 0 off v with
    | error e =>
      rw [hloop] at hrun
      cases hrun
    | ok q =>
      obtain ⟨q, v₁⟩ := q
      rw [hloop] at hrun
      cases hrun
      change v₁.ip.addrs k = _
      exact writeiLoop_addrs hloop hk (by rwa [Nat.sub_zero])

theorem iappend_appended (h : Sound w) (hwf : w.disk.Wf superblock)
    (hx : w.disk.Allocated superblock inum)
    (p : List Byte) : Leaves (iappend inum p) w fun _ => Appended inum p w := by
  intro _ w' hrun
  obtain ⟨v', heq, hreach⟩ := (iappend_ends h hwf hx p).of_run hrun
  have hview := wf_view hwf hx
  obtain hfail | ⟨-, k, t, v₁, hok, ht, hwrote, hwf₁, hends, -⟩ :=
    writei_spec hview (fun i => p[i]?) (w.disk.dinode inum).size p.length
  · have := (Prod.mk.inj (Except.ok.inj (heq.symm.trans hfail))).1
    omega
  · obtain ⟨hk, rfl⟩ := Prod.mk.inj (Except.ok.inj (heq.symm.trans hok))
    obtain rfl : p.length = k := Int.ofNat.inj hk
    obtain rfl : t = p.length := Nat.le_antisymm ht hends.le
    have hlast : max (w.view inum).ip.size ((w.disk.dinode inum).size + p.length) =
        (w.disk.dinode inum).size + p.length := Nat.max_eq_right (Nat.le_add_right _ _)
    rw [hlast] at hwf₁ hreach
    have hup : (w.view inum).Updated superblock (fun pos => (w.disk.dinode inum).size ≤ pos ∧
        pos < (w.disk.dinode inum).size + p.length)
        (iupdate (v₁.setSize ((w.disk.dinode inum).size + p.length))) :=
      View.Grows.updated (hwrote.grows.mono fun pos hpos => ⟨hpos.1, by omega⟩) rfl hwf₁
    obtain ⟨hsound, hdisk, hfree⟩ := hreach
    generalize hd : (iupdate (v₁.setSize ((w.disk.dinode inum).size + p.length))).disk = d at *
    subst hdisk
    have hdin : w'.disk.dinode inum =
      (iupdate (v₁.setSize ((w.disk.dinode inum).size + p.length))).ip := hd ▸ hup.sync
    refine ⟨hsound, hfree, hd ▸ hup.wf, hd ▸ hup.keeps, fun y hy => hd ▸ hup.other y hy, ?_, ?_,
      fun k hk hle => ?_, fun i hi => ?_⟩
    · rw [hdin, hup.head]
      rfl
    · rw [hdin]
      rfl
    · rw [hdin, ← hlast]
      exact writei_addrs hok hk hle
    · -- the size is written after the bytes
      have hkept := (hwrote.grows.wf.keeps_setSize ((w.disk.dinode inum).size + p.length)
        fun _ => False).content inum ((w.disk.dinode inum).size + i)
          (hwrote.full _ (Nat.lt_of_le_of_lt (Nat.div_mul_le_self _ _) (Nat.add_lt_add_left hi _)))
          fun _ => not_false
      have hstored := hwrote.stored i hi
      rw [← hd]
      refine hkept.trans (hstored.trans ?_)
      rw [Nat.zero_add, List.getD_eq_getElem?_getD]

/-- What is beyond the end of a file stays empty. -/
theorem Appended.blank (h : Appended inum p w w') {pos : ℕ}
    (hpos : y = inum → (w.disk.dinode inum).size + p.length ≤ pos)
    (hblank : w.disk.ref superblock (y, place (pos / BSIZE)) ≠ 0 →
      w.disk.content superblock y pos = 0)
    (href : w'.disk.ref superblock (y, place (pos / BSIZE)) ≠ 0) :
    w'.disk.content superblock y pos = 0 := by
  have hout : y = inum → ¬ ((w.disk.dinode inum).size ≤ pos ∧
      pos < (w.disk.dinode inum).size + p.length) :=
    fun hy hA => Nat.not_lt.mpr (hpos hy) hA.2
  by_cases hr : w.disk.ref superblock (y, place (pos / BSIZE)) = 0
  · exact h.keeps.fresh y pos hr href hout
  · rw [h.keeps.content y pos hr hout]
    exact hblank hr

theorem Appended.dinode_type (h : Appended inum p w w') (y : ℕ) :
    (w'.disk.dinode y).type = (w.disk.dinode y).type := by
  by_cases hy : y = inum
  · rw [hy, h.type]
  · rw [h.other y hy]

/-! ### The bitmap -/

/-- The bits that `balloc` sets. -/
theorem getLsbD_bits (used b : ℕ) : (bits used (b / 8)).getLsbD (b % 8) = decide (b < used) := by
  induction used with
  | zero => exact BitVec.getLsbD_zero
  | succ used ih =>
    rw [bits, List.range_succ, List.foldl_append, List.foldl_cons, List.foldl_nil]
    change (Function.update (bits used) (used / 8) _ (b / 8)).getLsbD (b % 8) = _
    by_cases hdiv : b / 8 = used / 8
    · rw [hdiv, Function.update_self, ← hdiv, BitVec.getLsbD_or]
      change ((bits used (b / 8)).getLsbD (b % 8) || _) = _
      rw [ih, BitVec.getLsbD_shiftLeft, BitVec.getLsbD_one, Bool.eq_iff_iff]
      simp only [Bool.or_eq_true, Bool.and_eq_true, Bool.not_eq_true', decide_eq_true_eq,
        decide_eq_false_iff_not]
      omega
    · rw [Function.update_of_ne hdiv, ih]
      exact decide_eq_decide.mpr (by omega)

theorem balloc_runs (h : Sound w) :
    Runs (balloc w.freeblock) w fun _ w' => w' = w.write bmapstart (bits w.freeblock) := by
  rw [balloc, if_pos (Nat.lt_of_le_of_lt h.hi (by decide))]
  exact wsect_runs h.len (by decide) _

theorem bitOf_write (w : Work) (used : ℕ) {b : ℕ} (hb : b < FSSIZE) :
    bitOf (w.write bmapstart (bits used)).img b = decide (b < used) := by
  have hb : b < 2000 := hb
  have hdiv : b / BPB = 0 := Nat.div_eq_of_lt (Nat.lt_trans hb (by decide))
  have hmod : b % BPB = b := Nat.mod_eq_of_lt (Nat.lt_trans hb (by decide))
  rw [bitOf, hdiv, hmod, Nat.zero_add, w.write_self, getLsbD_bits]

/-- With the bitmap, the image is the disk. -/
theorem mount_write (h : Sound w) : mount (w.write bmapstart (bits w.freeblock)).img = w.disk := by
  have hbit : (mount (w.write bmapstart (bits w.freeblock)).img).bitmap = w.disk.bitmap := by
    funext b
    change (decide (b < FSSIZE) && bitOf _ b) = decide (b < w.freeblock)
    by_cases hb : b < FSSIZE
    · rw [decide_eq_true hb, bitOf_write w _ hb, Bool.true_and]
    · rw [decide_eq_false hb, Bool.false_and]
      exact (decide_eq_false fun hlt => hb (Nat.lt_of_lt_of_le hlt h.hi)).symm
  have hdin := w.dinode_write (Nat.le_refl _) (bits w.freeblock)
  have hdata := w.data_write (show bmapstart < nmeta by decide) (bits w.freeblock)
  exact (congr (congr (congrArg Disk.mk hbit) hdin) hdata :)

/-! ### Files as lists of bytes -/

/-- The bytes of file `x`. -/
def Work.bytes (w : Work) (x : ℕ) : List Byte := w.disk.bytes superblock x 0 (w.disk.dinode x).size

theorem Work.length_bytes (w : Work) (x : ℕ) : (w.bytes x).length = (w.disk.dinode x).size := by
  rw [Work.bytes, Disk.bytes, List.length_map, List.length_range]

theorem Appended.allocated (h : Appended inum p w w') (hy : w.disk.Allocated superblock y) :
    w'.disk.Allocated superblock y := by
  rwa [Disk.Allocated, h.dinode_type]

/-- The bytes that were there are there. -/
theorem Appended.bytes_kept (h : Appended inum p w w') (hwf : w.disk.Wf superblock)
    (hy : w.disk.Allocated superblock y) :
    w'.disk.bytes superblock y 0 (w.disk.dinode y).size = w.bytes y := by
  refine List.map_congr_left fun i hi => ?_
  have hi := List.mem_range.mp hi
  rw [Nat.zero_add]
  refine h.keeps.content y i (hwf.full y hy _ (Nat.lt_of_le_of_lt (Nat.div_mul_le_self _ _) hi))
    fun hyx hA => ?_
  rw [← hyx] at hA
  omega

/-- **The bytes are added to the file, and no other file is changed.** -/
theorem Appended.bytes (h : Appended inum p w w') (hwf : w.disk.Wf superblock)
    (hy : w.disk.Allocated superblock y) :
    w'.bytes y = w.bytes y ++ if inum = y then p else [] := by
  have hkept := h.bytes_kept hwf hy
  by_cases hyx : inum = y
  · subst hyx
    have hnew : w'.disk.bytes superblock inum (w.disk.dinode inum).size p.length = p := by
      refine List.ext_getElem ?_ fun i hi₁ hi₂ => ?_
      · rw [Disk.bytes, List.length_map, List.length_range]
      · simp only [Disk.bytes, List.getElem_map, List.getElem_range]
        rw [h.stored i hi₂, List.getD_eq_getElem?_getD, List.getElem?_eq_getElem hi₂,
          Option.getD_some]
    rw [if_pos rfl, Work.bytes, h.size, Disk.bytes_add, hkept, Nat.zero_add, hnew]
  · rw [if_neg hyx, List.append_nil, ← hkept, Work.bytes, h.other y (Ne.symm hyx)]

end Xv6.Fs.Mkfs
