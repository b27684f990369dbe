import Xv6.Mkfs.Contents

/-!
# Images that the kernel can trust

What an image has to be for the kernel: blocks are owned as the bitmap says and files have no holes,
inode numbers are in range, and a name is in the root directory only once. `mkfs` does not look
after all of it. Three things about the list of files decide:

* the inodes are numbered one after the other, and nothing stops at `NINODES`;
* the size of the root directory is rounded up to the next whole block even if it is one already,
  and then the last block is missing;
* names are not compared, so a file that is listed twice has two entries.

## Main results

* `Built.iappend`, `Built.iappend_root`, `Built.addFile` — how the image grows
* `mkfs_trusted` — the kernel can trust the image if and only if the list of files is fine
* `mkfs_not_trusted` — a list that is not fine, for each part of the condition
-/

namespace Xv6.Fs.Mkfs

variable {w w' : Work} {x y inum : ℕ} {p : List Byte} {es : List Dirent}

/-! ### The image while files are added -/

/-- The image while files are added: the inodes below `freeinode` are in use, and the entries of the
root directory are `es`, with nothing after them. -/
structure Built (w : Work) (es : List Dirent) : Prop where
  sound : Sound w
  wf : w.disk.Wf superblock
  le : w.freeinode ≤ NINODES
  allocated : ∀ x, w.disk.Allocated superblock x ↔ 0 < x ∧ x < w.freeinode
  size : (w.disk.dinode ROOTINO).size = DIRENT * es.length
  entries : ∀ k (hk : k < es.length), w.disk.dirent superblock ROOTINO k = es[k]
  blank : ∀ pos, DIRENT * es.length ≤ pos →
    w.disk.ref superblock (ROOTINO, place (pos / BSIZE)) ≠ 0 →
    w.disk.content superblock ROOTINO pos = 0
  tight : ∀ k < NDIRECT, DIRENT * es.length ≤ k * BSIZE → (w.disk.dinode ROOTINO).addrs k = 0

theorem Appended.allocated_iff (h : Appended inum p w w') (hb : Built w es) (x : ℕ) :
    w'.disk.Allocated superblock x ↔ 0 < x ∧ x < w'.freeinode := by
  rw [h.freeinode, ← hb.allocated x, Disk.Allocated, Disk.Allocated, h.dinode_type]

/-- The entries of the root directory are kept. -/
theorem Appended.entry (h : Appended inum p w w') (hb : Built w es) (hroot : ROOTINO < w.freeinode)
    {k : ℕ} (hk : k < es.length) : w'.disk.dirent superblock ROOTINO k = es[k] := by
  have hend : DIRENT * k + DIRENT ≤ (w.disk.dinode ROOTINO).size := by
    rw [hb.size, ← Nat.mul_succ]
    exact Nat.mul_le_mul_left _ hk
  rw [h.keeps.dirent hb.wf ((hb.allocated _).mpr ⟨by decide, hroot⟩) hend, hb.entries k hk]
  intro hy i hi hA
  rw [← hy] at hA
  omega

/-- A file other than the root directory grows. -/
theorem Built.iappend (h : Built w es) (hroot : ROOTINO < w.freeinode) (hinum : inum < w.freeinode)
    (hlt : ROOTINO < inum) (p : List Byte) :
    Leaves (iappend inum p) w fun _ w' => Built w' es ∧ w'.freeinode = w.freeinode := by
  have hx : w.disk.Allocated superblock inum :=
    (h.allocated inum).mpr ⟨Nat.zero_lt_of_lt hlt, hinum⟩
  have hne : ROOTINO ≠ inum := Nat.ne_of_lt hlt
  intro _ w' hrun
  have hadd := iappend_appended h.sound h.wf hx p _ w' hrun
  refine ⟨⟨hadd.sound, hadd.wf, hadd.freeinode ▸ h.le, hadd.allocated_iff h, ?_,
    fun k hk => hadd.entry h hroot hk, fun pos hpos => ?_, ?_⟩, hadd.freeinode⟩
  · rw [hadd.other _ hne, h.size]
  · exact hadd.blank (fun hy => absurd hy hne) (h.blank pos hpos)
  · rw [hadd.other _ hne]
    exact h.tight

theorem length_direntBytes (i : ℕ) (name : List Byte) : (direntBytes i name).length = DIRENT := by
  rw [direntBytes, List.length_map, List.length_range]

/-- An entry is added to the root directory. -/
theorem Built.iappend_root (h : Built w es) (hroot : ROOTINO < w.freeinode) {i : ℕ}
    (hi : i < NINODES)
    (name : List Byte) : Leaves (Mkfs.iappend ROOTINO (direntBytes i name)) w fun _ w' =>
      Built w' (es ++ [⟨i, strncpy DIRSIZ name⟩]) ∧ w'.freeinode = w.freeinode := by
  have hx : w.disk.Allocated superblock ROOTINO := (h.allocated _).mpr ⟨by decide, hroot⟩
  intro _ w' hrun
  have hadd := iappend_appended h.sound h.wf hx _ _ w' hrun
  have hlen : DIRENT * (es ++ [(⟨i, strncpy DIRSIZ name⟩ : Dirent)]).length =
      (w.disk.dinode ROOTINO).size + (direntBytes i name).length := by
    rw [List.length_append, List.length_singleton, Nat.mul_succ, h.size, length_direntBytes]
  refine ⟨⟨hadd.sound, hadd.wf, hadd.freeinode ▸ h.le, hadd.allocated_iff h, ?_, fun k hk => ?_,
    fun pos hpos => ?_, fun k hk hle => ?_⟩, hadd.freeinode⟩
  · rw [hadd.size, hlen]
  · by_cases hlt : k < es.length
    · rw [hadd.entry h hroot hlt, List.getElem_append_left hlt]
    · -- the entry that has been added
      have hkeq : k = es.length := by
        rw [List.length_append, List.length_singleton] at hk
        omega
      subst hkeq
      have hmod : i % 2 ^ 16 = i := Nat.mod_eq_of_lt (Nat.lt_trans hi (by decide))
      rw [List.getElem_concat_length rfl, Disk.dirent, Disk.bytes, ← h.size,
        ← Dirent.decode_encode (show (⟨i, strncpy DIRSIZ name⟩ : Dirent).inum < 256 ^ 2 from
          Nat.lt_trans hi (by decide)) (length_strncpy ..)]
      congr 1
      refine List.map_congr_left fun j hj => ?_
      have hj := List.mem_range.mp hj
      rw [hadd.stored j (by rwa [length_direntBytes]), direntBytes, hmod,
        List.getD_eq_getElem?_getD, List.getElem?_map, List.getElem?_range hj]
      rfl
  · rw [hlen] at hpos
    exact hadd.blank (fun _ => hpos) (h.blank pos (h.size ▸ Nat.le_of_add_right_le hpos))
  · rw [hlen] at hle
    rw [hadd.addrs k hk hle, h.tight k hk (h.size ▸ Nat.le_of_add_right_le hle)]

/-! ### New inodes -/

/-- An inode as `ialloc` writes it. -/
def freshInode (type : FileType) : Dinode := { Dinode.zero with type := type, nlink := 1 }

theorem fits_freshInode (type : FileType) : Fits (freshInode type) :=
  ⟨show 0 < 256 ^ 4 by decide, fun _ => show 0 < 256 ^ 4 by decide, fun _ _ => rfl⟩

theorem ref_freshInode (type : FileType) (data : ℕ → Block) (k : ℕ) :
    (freshInode type).ref data k = 0 := by
  by_cases hk : k ≤ NDIRECT
  · exact if_pos hk
  · exact Dinode.ref_of_addr_eq_zero rfl (Nat.le_of_not_le hk)

/-- A new inode refers to nothing, like one that is free. -/
theorem ref_put_freshInode {d : Disk} {type : FileType} (hx : ¬ d.Allocated superblock x)
    (hlt : x < NINODES) (ht : type ≠ .free) :
    (d.put x (freshInode type)).ref superblock = d.ref superblock := by
  funext ⟨y, k⟩
  by_cases hy : y = x
  · have ht : (freshInode type).type ≠ .free := ht
    rw [hy, Disk.ref_put_self hlt ht, ref_freshInode, Disk.ref_of_not_allocated hx]
  · exact Disk.ref_put_of_ne hy

theorem Built.ialloc (h : Built w es) (type : FileType) (ht : type ≠ .free) (hpos : 0 < w.freeinode)
    (hlt : w.freeinode < NINODES) (hes : w.freeinode = ROOTINO → es = []) :
    Leaves (ialloc type) w fun r w' => r = w.freeinode ∧ Built w' es ∧
    w'.freeinode = w.freeinode + 1 := by
  refine Leaves.bind (Runs.get (Q := fun a w₁ => a = w ∧ w₁ = w) ⟨rfl, rfl⟩).leaves fun _ w₁ => ?_
  rintro ⟨rfl, rfl⟩
  refine Leaves.bind (Runs.modify (Q := fun _ w₂ => w₂ = { w₁ with freeinode := w₁.freeinode + 1 })
    rfl).leaves fun _ w₂ => ?_
  rintro rfl
  generalize hw₂ : { w₁ with freeinode := w₁.freeinode + 1 } = w₂
  have hfree₂ : w₂.freeinode = w₁.freeinode + 1 := by rw [← hw₂]
  have hdisk₂ : w₂.disk = w₁.disk := by rw [← hw₂, Work.disk, Work.disk]
  have hsound₂ : Sound w₂ := by
    rw [← hw₂]
    exact ⟨h.sound.len, h.sound.lo, h.sound.hi, h.sound.zero, h.sound.super⟩
  refine Leaves.bind (winode_runs hsound₂ hlt (fits_freshInode type)).leaves fun _ w' => ?_
  rintro ⟨hsound, hdisk, hfree⟩
  have hx : ¬ w₁.disk.Allocated superblock w₁.freeinode := fun hx =>
    Nat.lt_irrefl _ ((h.allocated _).mp hx).2
  replace hdisk : w'.disk = w₁.disk.put w₁.freeinode (freshInode type) := hdisk₂ ▸ hdisk
  have href := ref_put_freshInode hx hlt ht
  rw [← hdisk] at href
  have hcontent (y pos : ℕ) : w'.disk.content superblock y pos =
      w₁.disk.content superblock y pos := by
    rw [Disk.content, Disk.content, href, hdisk]
    rfl
  refine (Runs.pure ⟨rfl, ⟨hsound, ?_, ?_, fun y => ?_, ?_, fun k hk => ?_, fun pos hpos hr => ?_,
    fun k hk hle => ?_⟩, hfree.trans hfree₂⟩).leaves
  · rw [hdisk] at href ⊢
    refine h.wf.put (fun k => congrFun href _) (fun bn hbn => ?_) (Nat.zero_le _)
    exact absurd hbn (Nat.not_lt_zero _)
  · rw [hfree, hfree₂]
    exact hlt
  · rw [hfree, hfree₂, hdisk]
    by_cases hy : y = w₁.freeinode
    · rw [hy, Disk.allocated_put_self]
      exact ⟨fun _ => ⟨hpos, Nat.lt_succ_self _⟩, fun _ => ⟨hlt, ht⟩⟩
    · rw [Disk.allocated_put_of_ne hy, h.allocated y]
      omega
  · rw [hdisk]
    by_cases hy : ROOTINO = w₁.freeinode
    · rw [← hy, Disk.put_self, hes hy.symm]
      rfl
    · rw [Disk.put_of_ne hy, h.size]
  · rw [← h.entries k hk, Disk.dirent, Disk.dirent, Disk.bytes, Disk.bytes]
    simp only [hcontent]
  · rw [hcontent]
    exact h.blank pos hpos (href ▸ hr)
  · rw [hdisk]
    by_cases hy : ROOTINO = w₁.freeinode
    · rw [← hy, Disk.put_self]
      rfl
    · rw [Disk.put_of_ne hy, h.tight k hk hle]

/-! ### The files -/

/-- The entries of files whose inodes are numbered from `i` on. -/
def entriesFrom : ℕ → List Input → List Dirent
  | _, [] => []
  | i, f :: fs => ⟨i, strncpy DIRSIZ f.name⟩ :: entriesFrom (i + 1) fs

/-- The bytes that are read from a file are added to it. -/
theorem Built.reads (h : Built w es) (hroot : ROOTINO < w.freeinode) (hinum : inum < w.freeinode)
    (hlt : ROOTINO < inum) (reads : List (List Byte)) :
    Leaves (reads.forM (Mkfs.iappend inum)) w fun _ w' => Built w' es ∧
    w'.freeinode = w.freeinode := by
  induction reads generalizing w with
  | nil => exact (Runs.pure ⟨h, rfl⟩).leaves
  | cons p reads ih =>
    refine Leaves.bind (h.iappend hroot hinum hlt p) fun _ w₁ => ?_
    rintro ⟨h₁, hfree⟩
    rw [← hfree] at hroot hinum ⊢
    exact ih h₁ hroot hinum

theorem Built.addFile (h : Built w es) (hroot : ROOTINO < w.freeinode) (hlt : w.freeinode < NINODES)
    (f : Input) : Leaves (addFile f) w fun _ w' =>
      Built w' (es ++ [⟨w.freeinode, strncpy DIRSIZ f.name⟩]) ∧ w'.freeinode = w.freeinode + 1 := by
  rw [Mkfs.addFile]
  split
  · exact Leaves.throw _
  · split
    · exact Leaves.throw _
    · rename_i reads _
      refine Leaves.bind (h.ialloc .file nofun (Nat.zero_lt_of_lt hroot) hlt
        fun heq => absurd heq (Nat.ne_of_gt hroot)) fun inum w₁ => ?_
      rintro ⟨rfl, h₁, hfree₁⟩
      refine Leaves.bind (h₁.iappend_root (by omega) hlt f.name) fun _ w₂ => ?_
      rintro ⟨h₂, hfree₂⟩
      rw [← hfree₁, ← hfree₂]
      exact h₂.reads (by omega) (by omega) hroot reads

theorem Built.files (h : Built w es) (hroot : ROOTINO < w.freeinode) (files : List Input)
    (hle : w.freeinode + files.length ≤ NINODES) : Leaves (files.forM Mkfs.addFile) w fun _ w' =>
      Built w' (es ++ entriesFrom w.freeinode files) ∧
        w'.freeinode = w.freeinode + files.length := by
  induction files generalizing w es with
  | nil =>
    rw [entriesFrom, List.append_nil]
    exact (Runs.pure ⟨h, rfl⟩).leaves
  | cons f files ih =>
    rw [List.length_cons] at hle
    refine Leaves.bind (h.addFile hroot (by omega) f) fun _ w₁ => ?_
    rintro ⟨h₁, hfree⟩
    have hrest := ih h₁ (by omega) (by omega)
    rw [hfree, List.append_assoc, List.singleton_append] at hrest
    rw [List.length_cons, ← Nat.add_assoc, Nat.add_right_comm]
    exact hrest

/-! ### The start -/

theorem foldl_max_range (n : ℕ) : (List.range n).foldl (fun m i => max m (i + 1)) 0 = n := by
  induction n with
  | zero => rfl
  | succ n ih =>
    rw [List.range_succ, List.foldl_append, ih]
    exact Nat.max_eq_right (Nat.le_succ n)

/-- Zeroing sectors of an image of zeroes makes it longer. -/
theorem zeroes_leaves (l : List ℕ) (hl : ∀ i ∈ l, i < FSSIZE) (hw : w.img = fun _ _ => 0) :
    Leaves (l.forM fun i => wsect i fun _ => 0) w fun _ w' =>
      w' = { w with len := l.foldl (fun m i => max m (i + 1)) w.len } := by
  induction l generalizing w with
  | nil =>
    exact (Runs.pure (Q := fun _ w' => w' = w) rfl).leaves
  | cons i l ih =>
    have hi : sector i = i := sector_of_le (Nat.le_of_lt (hl i List.mem_cons_self))
    refine Leaves.bind (R := fun _ w₁ => w₁ = { w with len := max w.len (i + 1) })
      (fun _ w₁ hrun => ?_) fun _ w₁ hw₁ => ?_
    · cases hrun
      rw [hi, hw]
      congr 1
      exact Function.update_eq_self i fun _ _ => 0
    · subst hw₁
      exact ih (fun j hj => hl j (List.mem_cons_of_mem i hj)) hw

/-- The image when the superblock has been written. -/
def blankImage : Work := ⟨Function.update (fun _ _ => 0) 1 superblockBytes, FSSIZE, 1, nmeta⟩

theorem img_blankImage {b : ℕ} (hb : b ≠ 1) : blankImage.img b = fun _ => 0 := by
  rw [show blankImage.img = Function.update (fun _ _ => 0) 1 superblockBytes from rfl,
    Function.update_of_ne hb]

theorem dinode_blankImage (x : ℕ) :
    blankImage.disk.dinode x = dinodeOf (fun _ => 0) ∨ blankImage.disk.dinode x = .zero := by
  by_cases hx : x < NINODES
  · have hne : IBLOCK x ≠ 1 := Nat.ne_of_gt (Nat.lt_of_lt_of_le (by decide) (IBLOCK_lt hx).1)
    refine .inl ((if_pos hx).trans ?_)
    rw [inodeOf, img_blankImage hne]
    rfl
  · exact .inr (if_neg hx)

theorem built_blankImage : Built blankImage [] := by
  have hfree (x : ℕ) : ¬ blankImage.disk.Allocated superblock x := fun hx => by
    obtain hd | hd := dinode_blankImage x <;> exact hx.2 (hd ▸ rfl)
  have href : blankImage.disk.ref superblock = fun _ => 0 :=
    funext fun e => Disk.ref_of_not_allocated (hfree e.1) e.2
  refine ⟨⟨rfl, Nat.le_refl _, by decide, fun b hb => ?_, rfl⟩,
    ⟨?_, fun x hx => absurd hx (hfree x), fun x hx => absurd hx (hfree x)⟩, by decide,
    fun x => ?_, ?_, fun k hk => absurd hk (Nat.not_lt_zero k),
    fun pos _ hr => absurd (congrFun href _) hr,
    fun k hk _ => ?_⟩
  · exact img_blankImage (Nat.ne_of_gt (Nat.lt_of_lt_of_le (show 1 < nmeta by decide) hb))
  · rw [href, firstData_superblock]
    refine ⟨by decide, fun b hb => decide_eq_true hb, fun _ _ h => absurd rfl h,
      fun _ h => absurd rfl h, fun b hb => iff_of_false (fun hused => ?_) ?_⟩
    · exact absurd (of_decide_eq_true hused) (Nat.not_lt.mpr hb)
    · rintro ⟨-, rfl⟩
      exact absurd hb (by decide)
  · refine iff_of_false (hfree x) fun hx => ?_
    have hlt : x < 1 := hx.2
    omega
  · obtain hd | hd := dinode_blankImage ROOTINO <;> rw [hd] <;> rfl
  · obtain hd | hd := dinode_blankImage ROOTINO
    · rw [hd, dinodeOf_addrs, if_pos (Nat.le_of_lt hk)]
      rfl
    · rw [hd]
      rfl

/-! ### The end -/

/-- The size that is written at the end. -/
def Work.rounded (w : Work) : Dinode :=
  { w.disk.dinode ROOTINO with size := ((w.disk.dinode ROOTINO).size / BSIZE + 1) * BSIZE }

/-- `w'` is the image when everything has been written, and `w` the one before the size of the root
directory is rounded. -/
structure Completed (w w' : Work) : Prop where
  super : w'.img 1 = superblockBytes
  freeinode : w'.freeinode = w.freeinode
  disk : mount w'.img = w.disk.put ROOTINO w.rounded

theorem Completed.size (hc : Completed w w') :
    ((mount w'.img).dinode ROOTINO).size = ((w.disk.dinode ROOTINO).size / BSIZE + 1) * BSIZE := by
  rw [hc.disk, Disk.put_self]
  rfl

/-- The end of `main`: the size of the root directory, and the bitmap. -/
theorem Built.complete (h : Built w es) (hroot : ROOTINO < w.freeinode) : Leaves (do
      let din ← rinode ROOTINO
      winode ROOTINO { din with size := (din.size / BSIZE + 1) * BSIZE }
      balloc (← get).freeblock) w fun _ => Completed w := by
  have hx : w.disk.Allocated superblock ROOTINO := (h.allocated _).mpr ⟨by decide, hroot⟩
  have hview := wf_view h.wf hx
  have hsize : (w.disk.dinode ROOTINO).size ≤ MAXFILE * BSIZE := h.wf.size_le _ hx
  have hlt : ((w.disk.dinode ROOTINO).size / BSIZE + 1) * BSIZE < 256 ^ 4 := by
    have hdiv := Nat.div_mul_le_self (w.disk.dinode ROOTINO).size BSIZE
    rw [Nat.succ_mul]
    exact Nat.lt_of_le_of_lt (Nat.add_le_add_right (Nat.le_trans hdiv hsize) _) (by decide)
  refine Leaves.bind (rinode_runs h.sound hx.1).leaves fun din w₁ => ?_
  rintro ⟨rfl, rfl⟩
  have hfits := (fits_of_wf hview h.sound (tailless_dinode w₁ ROOTINO)).setSize hlt
  refine Leaves.bind (winode_runs h.sound hx.1 hfits).leaves fun _ w₂ => ?_
  rintro ⟨hsound, hdisk, hfree⟩
  refine Leaves.bind (Runs.get (Q := fun a w₃ => a = w₂ ∧ w₃ = w₂) ⟨rfl, rfl⟩).leaves fun _ w₃ => ?_
  rintro ⟨rfl, rfl⟩
  intro _ w' hrun
  rw [(balloc_runs hsound).elim hrun]
  refine ⟨(hsound.write (by decide) (Nat.lt_of_lt_of_le (by decide) hsound.lo) _).super, hfree, ?_⟩
  rw [mount_write hsound, hdisk]
  rfl

/-- The entries of the root directory. -/
def rootEntries (files : List Input) : List Dirent :=
  ⟨ROOTINO, strncpy DIRSIZ [46]⟩ :: ⟨ROOTINO, strncpy DIRSIZ [46, 46]⟩ :: entriesFrom 2 files

theorem main_leaves (files : List Input) (hle : files.length + 2 ≤ NINODES) :
    Leaves (main files) ⟨fun _ _ => 0, 0, 1, nmeta⟩ fun _ w' =>
      ∃ w, Built w (rootEntries files) ∧ w.freeinode = files.length + 2 ∧ Completed w w' := by
  refine Leaves.bind (zeroes_leaves (List.range FSSIZE) (fun i hi => List.mem_range.mp hi) rfl)
    fun _ w₁ => ?_
  rintro rfl
  rw [foldl_max_range]
  refine Leaves.bind (R := fun _ w₂ => w₂ = blankImage) (wsect_runs rfl (by decide) _).leaves
    fun _ w₂ => ?_
  rintro rfl
  refine Leaves.bind (built_blankImage.ialloc .dir nofun (by decide) (by decide) fun _ => rfl)
    fun inum w₁ => ?_
  rintro ⟨rfl, h₁, hfree₁⟩
  have hfree₁ : w₁.freeinode = 2 := hfree₁
  have hroot : ROOTINO = 1 := rfl
  rw [if_neg (show ¬ blankImage.freeinode ≠ ROOTINO from not_not_intro rfl)]
  refine Leaves.bind (h₁.iappend_root (by omega) (by decide) [46]) fun _ w₂ => ?_
  rintro ⟨h₂, hfree₂⟩
  refine Leaves.bind (h₂.iappend_root (by omega) (by decide) [46, 46]) fun _ w₃ => ?_
  rintro ⟨h₃, hfree₃⟩
  have hfree₃ : w₃.freeinode = 2 := by omega
  refine Leaves.bind (h₃.files (by omega) files (by omega)) fun _ w => ?_
  rintro ⟨h, hfree⟩
  rw [hfree₃] at h hfree
  intro a w' hrun
  exact ⟨w, h, by omega, h.complete (by omega) a w' hrun⟩

/-! ### What the kernel assumes -/

/-- The names in the root directory. -/
def rootNames (files : List Input) : List (List Byte) := [46] :: [46, 46] :: files.map Input.name

/-- There are inodes for all the files, the entries do not fill the last block of the root
directory, and no two names are equal to the kernel. -/
def Fine (files : List Input) : Prop :=
  files.length + 2 ≤ NINODES ∧ DIRENT * (files.length + 2) % BSIZE ≠ 0 ∧
    (rootNames files).Pairwise fun s t => namecmp s t ≠ 0

instance (files : List Input) : Decidable (Fine files) := inferInstanceAs (Decidable (_ ∧ _ ∧ _))

/-- Entry `k` of the root directory is there, and is used. -/
def RootEntry (d : Disk) (k : ℕ) : Prop :=
  DIRENT * k + DIRENT ≤ (d.dinode ROOTINO).size ∧ (d.dirent superblock ROOTINO k).inum ≠ 0

/-- What the kernel assumes of an image. -/
structure Trusted (w : Work) : Prop where
  /-- The superblock says what `superblock` does. -/
  super : readLe 4 (w.img 1) 4 = superblock.size ∧ readLe 4 (w.img 1) 8 = superblock.nblocks ∧
    readLe 4 (w.img 1) 12 = superblock.ninodes
  full : ∀ x, (mount w.img).Allocated superblock x →
    ∀ bn, bn * BSIZE < ((mount w.img).dinode x).size →
    (mount w.img).ref superblock (x, place bn) ≠ 0
  range : ∀ e, (mount w.img).ref superblock e ≠ 0 →
    nmeta ≤ (mount w.img).ref superblock e ∧ (mount w.img).ref superblock e < superblock.size
  once : ∀ e e', (mount w.img).ref superblock e ≠ 0 →
    (mount w.img).ref superblock e = (mount w.img).ref superblock e' → e = e'
  marked : ∀ e, (mount w.img).ref superblock e ≠ 0 →
    bitOf w.img ((mount w.img).ref superblock e) = true
  /-- The inode numbers that have been handed out, and those in the root directory. -/
  inums : w.freeinode ≤ superblock.ninodes ∧ ∀ k, RootEntry (mount w.img) k →
    ((mount w.img).dirent superblock ROOTINO k).inum < superblock.ninodes
  names : ∀ j k, RootEntry (mount w.img) j → RootEntry (mount w.img) k →
    namecmp ((mount w.img).dirent superblock ROOTINO j).name
      ((mount w.img).dirent superblock ROOTINO k).name = 0 → j = k

theorem mem_entriesFrom {e : Dirent} {i : ℕ} {files : List Input} (h : e ∈ entriesFrom i files) :
    i ≤ e.inum ∧ e.inum < i + files.length := by
  induction files generalizing i with
  | nil => cases h
  | cons f files ih =>
    rw [List.length_cons]
    obtain rfl | h := List.mem_cons.mp h
    · exact ⟨Nat.le_refl i, by change i < _; omega⟩
    · have := ih h
      omega

theorem mem_rootEntries {e : Dirent} {files : List Input} (h : e ∈ rootEntries files) :
    0 < e.inum ∧ e.inum < files.length + 2 := by
  obtain rfl | h := List.mem_cons.mp h
  · exact ⟨by decide, by change 1 < _; omega⟩
  obtain rfl | h := List.mem_cons.mp h
  · exact ⟨by decide, by change 1 < _; omega⟩
  · have := mem_entriesFrom h
    omega

theorem map_name_entriesFrom (i : ℕ) (files : List Input) :
    (entriesFrom i files).map Dirent.name = files.map fun f => strncpy DIRSIZ f.name := by
  induction files generalizing i with
  | nil => rfl
  | cons f files ih => rw [entriesFrom, List.map_cons, List.map_cons, ih]

theorem map_name_rootEntries (files : List Input) :
    (rootEntries files).map Dirent.name = (rootNames files).map (strncpy DIRSIZ) := by
  rw [rootEntries, rootNames, List.map_cons, List.map_cons, List.map_cons, List.map_cons,
    map_name_entriesFrom, List.map_map]
  rfl

theorem length_rootEntries (files : List Input) :
    (rootEntries files).length = files.length + 2 := by
  have h := congrArg List.length (map_name_rootEntries files)
  rwa [List.length_map, List.length_map, rootNames, List.length_cons, List.length_cons,
    List.length_map] at h

/-- The names are told apart by the kernel if no two entries have equal ones. -/
theorem pairwise_rootNames_iff (files : List Input) :
    ((rootNames files).Pairwise fun s t => namecmp s t ≠ 0) ↔
      ∀ j k (hj : j < (rootEntries files).length) (hk : k < (rootEntries files).length),
        namecmp (rootEntries files)[j].name (rootEntries files)[k].name = 0 → j = k := by
  have hkeys : (rootEntries files).map Dirent.key = (rootNames files).map (cut DIRSIZ) := by
    rw [show Dirent.key = cut DIRSIZ ∘ Dirent.name from rfl, ← List.map_map, map_name_rootEntries,
      List.map_map]
    exact List.map_congr_left fun s _ => cut_strncpy DIRSIZ s
  have hnodup : ((rootNames files).Pairwise fun s t => namecmp s t ≠ 0) ↔
      ((rootEntries files).map Dirent.key).Nodup := by
    rw [hkeys, List.Nodup, List.pairwise_map]
    simp only [ne_eq, namecmp_eq_zero_iff]
  rw [hnodup, List.nodup_iff_injective_getElem]
  refine ⟨fun hinj j k hj hk heq => ?_, fun hsame j k heq => ?_⟩
  · have hj' : j < ((rootEntries files).map Dirent.key).length := by rwa [List.length_map]
    have hk' : k < ((rootEntries files).map Dirent.key).length := by rwa [List.length_map]
    refine congrArg Fin.val (@hinj ⟨j, hj'⟩ ⟨k, hk'⟩ ?_)
    simp only [List.getElem_map]
    exact (namecmp_eq_zero_iff _ _).mp heq
  · have hj := j.isLt
    have hk := k.isLt
    simp only [List.length_map] at hj hk
    simp only [List.getElem_map] at heq
    exact Fin.ext (hsame j k hj hk ((namecmp_eq_zero_iff _ _).mpr heq))

/-! ### The finished image -/

section Completed

variable {files : List Input} (h : Built w (rootEntries files))
  (hfree : w.freeinode = files.length + 2)
include h hfree

theorem Built.allocated_root : w.disk.Allocated superblock ROOTINO :=
  (h.allocated _).mpr ⟨by decide, hfree ▸ Nat.le_add_left 2 _⟩

variable (hc : Completed w w')
include hc

/-- The size is no part of the references. -/
theorem Completed.ref_eq : (mount w'.img).ref superblock = w.disk.ref superblock := by
  have hx := h.allocated_root hfree
  rw [hc.disk]
  funext ⟨y, k⟩
  by_cases hy : y = ROOTINO
  · have ht : w.rounded.type ≠ .free := hx.2
    rw [hy, Disk.ref_put_self hx.1 ht, Disk.ref_of_allocated hx]
    rfl
  · exact Disk.ref_put_of_ne hy

theorem Completed.content_eq (x pos : ℕ) :
    (mount w'.img).content superblock x pos = w.disk.content superblock x pos := by
  rw [Disk.content, Disk.content, hc.ref_eq h hfree, hc.disk]
  rfl

theorem Completed.dirent_eq (x k : ℕ) :
    (mount w'.img).dirent superblock x k = w.disk.dirent superblock x k := by
  rw [Disk.dirent, Disk.dirent, Disk.bytes, Disk.bytes]
  simp only [hc.content_eq h hfree]

/-- The entries of the files are there. -/
theorem Completed.rootEntry_of_lt {k : ℕ} (hk : k < (rootEntries files).length) :
    RootEntry (mount w'.img) k ∧ (mount w'.img).dirent superblock ROOTINO k =
    (rootEntries files)[k] := by
  have hde : (mount w'.img).dirent superblock ROOTINO k = (rootEntries files)[k] := by
    rw [hc.dirent_eq h hfree, h.entries k hk]
  refine ⟨⟨?_, ?_⟩, hde⟩
  · have hsize := hc.size
    have hend := Nat.mul_le_mul_left DIRENT (Nat.succ_le_of_lt hk)
    have hdiv := Nat.div_add_mod' (w.disk.dinode ROOTINO).size BSIZE
    have hmod := Nat.mod_lt (w.disk.dinode ROOTINO).size (show 0 < BSIZE by decide)
    rw [← h.size, Nat.mul_succ] at hend
    rw [hsize, Nat.succ_mul]
    omega
  · rw [hde]
    exact Nat.ne_of_gt (mem_rootEntries (List.getElem_mem hk)).1

theorem Completed.wf (hrest : DIRENT * (files.length + 2) % BSIZE ≠ 0) :
    (mount w'.img).Wf superblock := by
  have hx := h.allocated_root hfree
  have hsize : (w.disk.dinode ROOTINO).size = DIRENT * (files.length + 2) := by
    rw [h.size, length_rootEntries]
  have hle : (w.disk.dinode ROOTINO).size ≤ MAXFILE * BSIZE := h.wf.size_le _ hx
  have href := hc.ref_eq h hfree
  rw [hc.disk] at href ⊢
  rw [← hsize] at hrest
  have hdiv := Nat.div_add_mod' (w.disk.dinode ROOTINO).size BSIZE
  refine h.wf.put (fun k => congrFun href _) (fun bn hbn => h.wf.full _ hx bn ?_) ?_
  · -- the last block has entries
    have hbn : bn ≤ (w.disk.dinode ROOTINO).size / BSIZE :=
      Nat.le_of_lt_succ (Nat.lt_of_mul_lt_mul_right hbn)
    have := Nat.mul_le_mul_right BSIZE hbn
    omega
  · have hlt : (w.disk.dinode ROOTINO).size / BSIZE < MAXFILE := by
      refine Nat.div_lt_of_lt_mul ?_
      rw [Nat.mul_comm]
      refine Nat.lt_of_le_of_ne hle fun heq => hrest ?_
      rw [heq, Nat.mul_mod_left]
    exact Nat.mul_le_mul_right BSIZE hlt

/-- The entries that are used are those of the files. -/
theorem Completed.rootEntry (hrest : DIRENT * (files.length + 2) % BSIZE ≠ 0) {k : ℕ}
    (hk : RootEntry (mount w'.img) k) :
    ∃ hlt : k < (rootEntries files).length, (mount w'.img).dirent superblock ROOTINO k =
    (rootEntries files)[k] := by
  by_cases hlt : k < (rootEntries files).length
  · exact ⟨hlt, by rw [hc.dirent_eq h hfree, h.entries k hlt]⟩
  · -- nothing has been written there
    refine absurd ?_ hk.2
    have hx := h.allocated_root hfree
    have hx' : (mount w'.img).Allocated superblock ROOTINO := by
      rw [hc.disk]
      exact Disk.allocated_put_self.mpr hx
    have hzero : (mount w'.img).bytes superblock ROOTINO (DIRENT * k) DIRENT =
        (List.range DIRENT).map fun _ => 0 := by
      refine List.map_congr_left fun i hi => ?_
      have hi := List.mem_range.mp hi
      have hk := hk.1
      rw [hc.content_eq h hfree]
      refine h.blank _ ?_ (hc.ref_eq h hfree ▸ (hc.wf h hfree hrest).full _ hx' _ ?_)
      · exact Nat.le_trans (Nat.mul_le_mul_left _ (Nat.le_of_not_lt hlt)) (Nat.le_add_right _ _)
      · exact Nat.lt_of_le_of_lt (Nat.div_mul_le_self _ _) (by omega)
    rw [Disk.dirent, hzero]
    rfl

/-- The block that the size of the root directory is rounded up to. -/
theorem Completed.rest_of_full (hle : files.length + 2 ≤ NINODES)
    (hfull : ∀ bn, bn * BSIZE < ((mount w'.img).dinode ROOTINO).size →
      (mount w'.img).ref superblock (ROOTINO, place bn) ≠ 0) :
    DIRENT * (files.length + 2) % BSIZE ≠ 0 := by
  intro hrest
  have hx := h.allocated_root hfree
  have hlen := length_rootEntries files
  have hmul := Nat.div_mul_cancel (Nat.dvd_of_mod_eq_zero hrest)
  generalize hbn : DIRENT * (files.length + 2) / BSIZE = bn at hmul
  have hlt : bn < NDIRECT := by
    have hle := Nat.mul_le_mul_left DIRENT hle
    rw [← hbn]
    exact Nat.lt_of_le_of_lt (Nat.div_le_div_right hle) (by decide)
  refine hfull bn ?_ ?_
  · rw [hc.size, h.size, hlen, hbn]
    exact Nat.mul_lt_mul_of_pos_right (Nat.lt_succ_self _) (by decide)
  · rw [hc.ref_eq h hfree, Disk.ref_of_allocated hx, Dinode.ref_direct hlt]
    exact h.tight bn hlt (by rw [hlen, hmul])

theorem Completed.trusted_iff (hle : files.length + 2 ≤ NINODES) : Trusted w' ↔ Fine files := by
  constructor
  · intro ht
    have hx : (mount w'.img).Allocated superblock ROOTINO := by
      rw [hc.disk]
      exact Disk.allocated_put_self.mpr (h.allocated_root hfree)
    refine ⟨hle, hc.rest_of_full h hfree hle (ht.full _ hx), ?_⟩
    refine (pairwise_rootNames_iff files).mpr fun j k hj hk heq => ?_
    obtain ⟨hj', hjde⟩ := hc.rootEntry_of_lt h hfree hj
    obtain ⟨hk', hkde⟩ := hc.rootEntry_of_lt h hfree hk
    exact ht.names j k hj' hk' (by rwa [hjde, hkde])
  rintro ⟨-, hrest, hnames⟩
  have hwf := hc.wf h hfree hrest
  refine ⟨?_, hwf.full, fun e he => ?_, hwf.owns.inj, fun e he => ?_, ⟨?_, fun k hk => ?_⟩,
    fun j k hj hk heq => ?_⟩
  · rw [hc.super]
    decide
  · have hrange := hwf.owns.range e he
    rwa [firstData_superblock] at hrange
  · exact (Bool.and_eq_true_iff.mp (hwf.owns.used_of_ref he)).2
  · rw [hc.freeinode, hfree]
    exact hle
  · obtain ⟨hlt, hde⟩ := hc.rootEntry h hfree hrest hk
    rw [hde]
    exact Nat.lt_of_lt_of_le (mem_rootEntries (List.getElem_mem hlt)).2 hle
  · obtain ⟨hjlt, hjde⟩ := hc.rootEntry h hfree hrest hj
    obtain ⟨hklt, hkde⟩ := hc.rootEntry h hfree hrest hk
    rw [hjde, hkde] at heq
    exact (pairwise_rootNames_iff files).mp hnames j k hjlt hklt heq

end Completed

/-! ### Inode numbers -/

/-- The program hands out `n` inode numbers. -/
def Counts {α : Type} (n : ℕ) (x : MkM α) : Prop :=
  ∀ w, Leaves x w fun _ w' => w'.freeinode = w.freeinode + n

namespace Counts

variable {α β : Type} {x : MkM α} {f : α → MkM β} {m n : ℕ}

theorem pure (a : α) : Counts 0 (pure a : MkM α) := fun w =>
  (Runs.pure (Q := fun _ (w' : Work) => w'.freeinode = w.freeinode) rfl).leaves

theorem throw (e : Failure) : Counts n (throw e : MkM α) := fun _ => Leaves.throw e

theorem bind (hx : Counts m x) (hf : ∀ a, Counts n (f a)) : Counts (m + n) (x >>= f) := fun w =>
  Leaves.bind (hx w) fun a w₁ h₁ b w' hrun => by rw [hf a w₁ b w' hrun, h₁, Nat.add_assoc]

theorem bind_zero (hx : Counts 0 x) (hf : ∀ a, Counts n (f a)) : Counts n (x >>= f) := by
  rw [← Nat.zero_add n]
  exact hx.bind hf

theorem forM {l : List α} {f : α → MkM Unit} (hf : ∀ a, Counts n (f a)) :
    Counts (l.length * n) (l.forM f) := by
  induction l with
  | nil =>
    rw [List.length_nil, Nat.zero_mul]
    exact .pure _
  | cons a l ih =>
    rw [List.length_cons, Nat.succ_mul, Nat.add_comm]
    exact (hf a).bind fun _ => ih

theorem rsect (sec : ℕ) : Counts 0 (rsect sec) := by
  intro w a w' hrun
  change (if sector sec < w.len then _ else _ : Except Failure _) = _ at hrun
  split_ifs at hrun
  cases hrun
  rfl

theorem wsect (sec : ℕ) (buf : Block) : Counts 0 (wsect sec buf) := by
  intro w a w' hrun
  cases hrun
  rfl

theorem rinode (inum : ℕ) : Counts 0 (rinode inum) := (rsect _).bind_zero fun _ => .pure _

theorem winode (inum : ℕ) (ip : Dinode) : Counts 0 (winode inum ip) :=
  (rsect _).bind_zero fun _ => wsect _ _

theorem get : Counts 0 (get : MkM Work) := fun w =>
  (Runs.get (Q := fun _ (w' : Work) => w'.freeinode = w.freeinode) rfl).leaves

theorem ialloc (type : FileType) : Counts 1 (ialloc type) := by
  have hmodify : Counts 1 (modify fun w => { w with freeinode := w.freeinode + 1 }) := fun w =>
    (Runs.modify (Q := fun _ (w' : Work) => w'.freeinode = w.freeinode + 1) rfl).leaves
  exact get.bind_zero fun _ => hmodify.bind fun _ => (winode _ _).bind_zero fun _ => .pure _

theorem nextBlock : Counts 0 nextBlock := by
  intro w b w' hrun
  rw [(nextBlock_runs.elim hrun).2]
  rfl

theorem fileBlock (din : Dinode) (fbn : ℕ) : Counts 0 (fileBlock din fbn) := by
  rw [Mkfs.fileBlock]
  split
  · split
    · exact nextBlock.bind_zero fun _ => .pure _
    · exact .pure _
  · extract_lets rest
    -- what is done when there is an indirect block
    have hrest (din : Dinode) : Counts 0 (rest din) := by
      refine (rsect _).bind_zero fun indirect => ?_
      split
      · exact nextBlock.bind_zero fun _ => (wsect _ _).bind_zero fun _ => .pure _
      · exact .pure _
    split
    · exact nextBlock.bind_zero fun _ => (Counts.pure _).bind_zero hrest
    · exact (Counts.pure _).bind_zero hrest

theorem iappendLoop (fuel : ℕ) (p : List Byte) (off : ℕ) (din : Dinode) :
    Counts 0 (iappendLoop fuel p off din) := by
  induction fuel generalizing p off din with
  | zero => exact .pure _
  | succ fuel ih =>
    rw [Mkfs.iappendLoop]
    split
    · exact .pure _
    dsimp only
    split
    · exact (fileBlock din _).bind_zero fun r => (rsect _).bind_zero fun _ =>
        (wsect _ _).bind_zero fun _ => ih _ _ _
    · exact .throw _

theorem iappend (inum : ℕ) (p : List Byte) : Counts 0 (iappend inum p) :=
  (rinode inum).bind_zero fun din => (iappendLoop _ _ _ din).bind_zero fun _ => winode _ _

theorem addFile (f : Input) : Counts 1 (addFile f) := by
  rw [Mkfs.addFile]
  split
  · exact .throw _
  · split
    · exact .throw _
    · exact (ialloc .file).bind fun inum => (iappend _ _).bind_zero fun _ => forM (iappend inum)

theorem main (files : List Input) : Counts (1 + files.length) (main files) := by
  refine (forM (n := 0) fun i => wsect i _).bind_zero fun _ => (wsect _ _).bind_zero fun _ =>
    (ialloc .dir).bind fun rootino => ?_
  split
  · exact .throw _
  · refine (iappend _ _).bind_zero fun _ => (iappend _ _).bind_zero fun _ => ?_
    rw [← Nat.add_zero files.length]
    refine (Nat.mul_one files.length ▸ forM addFile).bind fun _ => (rinode _).bind_zero fun din =>
      (winode _ _).bind_zero fun _ => get.bind_zero fun w => ?_
    rw [balloc]
    split
    · exact wsect _ _
    · exact .throw _

end Counts

/-- A run of `mkfs` that finishes. -/
theorem main_of_mkfs {files : List Input} (hrun : mkfs files = .ok w) :
    ∃ a, (main files).run ⟨fun _ _ => 0, 0, 1, nmeta⟩ = .ok (a, w) := by
  rw [mkfs] at hrun
  cases hmain : main files ⟨fun _ _ => 0, 0, 1, nmeta⟩ with
  | error e =>
    rw [hmain] at hrun
    cases hrun
  | ok r =>
    rw [hmain] at hrun
    cases hrun
    exact ⟨r.1, hmain⟩

theorem mkfs_completed (files : List Input) (hle : files.length + 2 ≤ NINODES)
    (hrun : mkfs files = .ok w') :
    ∃ w, Built w (rootEntries files) ∧ w.freeinode = files.length + 2 ∧ Completed w w' := by
  obtain ⟨a, hmain⟩ := main_of_mkfs hrun
  exact main_leaves files hle a w' hmain

/-- **When the kernel can trust an image**: if and only if the list of files is fine. -/
theorem mkfs_trusted {files : List Input} (hrun : mkfs files = .ok w) : Trusted w ↔ Fine files := by
  by_cases hle : files.length + 2 ≤ NINODES
  · obtain ⟨w₀, h, hfree, hc⟩ := mkfs_completed files hle hrun
    exact hc.trusted_iff h hfree hle
  · refine iff_of_false (fun ht => hle ?_) fun hfine => hle hfine.1
    obtain ⟨a, hmain⟩ := main_of_mkfs hrun
    have hfree : w.freeinode = 1 + (1 + files.length) := Counts.main files _ a w hmain
    have hlast : w.freeinode ≤ NINODES := ht.inums.1
    omega

/-! ### Lists of files -/

/-- The bytes of a name. -/
def ascii (s : String) : List Byte := s.toList.map fun c => BitVec.ofNat 8 c.toNat

/-- `n` files with different names and one byte each. -/
def numbered (n : ℕ) : List Input :=
  (List.range n).map fun i => ⟨[BitVec.ofNat 8 (65 + i / 26), BitVec.ofNat 8 (97 + i % 26)],
    some [[1]]⟩

/-- What the `Makefile` gives to `mkfs`: `README` and `UPROGS`, with one byte for the contents. -/
def fsImg : List Input :=
  ["README", "user/_cat", "user/_echo", "user/_forktest", "user/_grep", "user/_init", "user/_kill",
    "user/_ln", "user/_ls", "user/_mkdir", "user/_rm", "user/_sh", "user/_stressfs",
    "user/_usertests",
    "user/_grind", "user/_wc", "user/_zombie", "user/_schedulertest", "user/_syscount",
    "user/_alarmtest",
    "user/_usertests"].map fun path => ⟨ascii path, some [[1]]⟩

set_option maxRecDepth 100000 in
theorem mkfs_trusted_numbered : Fine (numbered 3) ∧ ∃ w, mkfs (numbered 3) = .ok w ∧ Trusted w := by
  have hfine : Fine (numbered 3) := by decide +kernel
  obtain ⟨w, hrun, -⟩ : ∃ w, mkfs (numbered 3) = .ok w ∧ True := by decide +kernel
  exact ⟨hfine, w, hrun, (mkfs_trusted hrun).mpr hfine⟩

set_option maxRecDepth 100000 in
/-- **Each part of the condition is needed.** The `Makefile` lists `usertests` twice, and both
entries are in the root directory. With 62 files the entries fill a block, and the root directory
has a second block that is not there. With 199 files an inode number is out of range. -/
theorem mkfs_not_trusted :
    (∃ w, mkfs fsImg = .ok w ∧ ¬ Trusted w ∧ RootEntry (mount w.img) 15 ∧
      RootEntry (mount w.img) 22 ∧
      namecmp ((mount w.img).dirent superblock ROOTINO 15).name
        ((mount w.img).dirent superblock ROOTINO 22).name = 0) ∧
    (∃ w, mkfs (numbered 62) = .ok w ∧ ¬ Trusted w ∧
      ((mount w.img).dinode ROOTINO).size = 2 * BSIZE ∧
      (mount w.img).ref superblock (ROOTINO, place 1) = 0) ∧
    ∃ w, mkfs (numbered 199) = .ok w ∧ ¬ Trusted w ∧ w.freeinode - 1 = superblock.ninodes := by
  refine ⟨?_, ?_, ?_⟩
  · obtain ⟨w, hrun, -⟩ : ∃ w, mkfs fsImg = .ok w ∧ True := by decide +kernel
    obtain ⟨w₀, h, hfree, hc⟩ := mkfs_completed fsImg (by decide) hrun
    obtain ⟨h₁, hde₁⟩ := hc.rootEntry_of_lt h hfree (k := 15) (by decide)
    obtain ⟨h₂, hde₂⟩ := hc.rootEntry_of_lt h hfree (k := 22) (by decide)
    have heq : namecmp ((mount w.img).dirent superblock ROOTINO 15).name
        ((mount w.img).dirent superblock ROOTINO 22).name = 0 := by
      rw [hde₁, hde₂]
      decide +kernel
    exact ⟨w, hrun, fun ht => absurd (ht.names 15 22 h₁ h₂ heq) (by decide), h₁, h₂, heq⟩
  · obtain ⟨w, hrun, hx, hsize, href⟩ : ∃ w, mkfs (numbered 62) = .ok w ∧
        (mount w.img).Allocated superblock ROOTINO ∧
        ((mount w.img).dinode ROOTINO).size = 2 * BSIZE ∧
        (mount w.img).ref superblock (ROOTINO, place 1) = 0 := by decide +kernel
    exact ⟨w, hrun, fun ht => ht.full ROOTINO hx 1 (hsize ▸ by decide) href, hsize, href⟩
  · obtain ⟨w, hrun, hw⟩ : ∃ w, mkfs (numbered 199) = .ok w ∧
        w.freeinode = superblock.ninodes + 1 := by decide +kernel
    refine ⟨w, hrun, fun ht => ?_, by rw [hw]; rfl⟩
    have := ht.inums.1
    omega

end Xv6.Fs.Mkfs
