import Xv6.Mkfs.Image

/-!
# `mkfs` does what the kernel would do

`mkfs` keeps no bitmap while it works: the blocks below `freeblock` are in use, and those above are
zero. With that for the bitmap, the image is a disk of the kernel at every moment, and what `mkfs`
does to it is what the kernel would do: `winode` is `iupdate`, taking the next block is `balloc`,
`fileBlock` is `bmap`, and `iappend` is a `writei` at the end of the file. The facts about ownership
and contents that hold of `writei` therefore hold of `iappend`.

They differ when a file does not fit. `mkfs` hands out the block number `FSSIZE` when the disk is
full, and the read of that sector, which always follows, ends the program; the kernel writes as much
as it can and says how much. A file that is too long is refused by the kernel before anything is
written, and by `mkfs` when it comes to the block.
-/

namespace Xv6.Fs.Mkfs

open Function (update update_self update_of_ne)

variable {w w' : Work} {x y sec inum fbn : ℕ} {ip din : Dinode} {buf : Block}

/-! ### Inodes as bytes -/

/-- An inode that its bytes can hold. -/
structure Fits (ip : Dinode) : Prop where
  size : ip.size < 256 ^ 4
  addrs : ∀ i, ip.addrs i < 256 ^ 4
  tail : ∀ i, NDIRECT < i → ip.addrs i = 0

theorem Fits.setSize (h : Fits ip) {n : ℕ} (hn : n < 256 ^ 4) : Fits { ip with size := n } :=
  ⟨hn, h.addrs, h.tail⟩

/-- Only the bytes of the inode count. -/
theorem dinodeOf_congr {m m' : ℕ → Byte} (h : ∀ i < DINODE, m i = m' i) :
    dinodeOf m = dinodeOf m' := by
  have hread {n a : ℕ} (ha : a + n ≤ DINODE) : readLe n m a = readLe n m' a :=
    readLe_congr fun i _ hi => h i (Nat.lt_of_lt_of_le hi ha)
  have haddrs : ((List.range (NDIRECT + 1)).map fun i => readLe 4 m (12 + 4 * i)) =
      (List.range (NDIRECT + 1)).map fun i => readLe 4 m' (12 + 4 * i) := by
    refine List.map_congr_left fun i hi => hread ?_
    have hi : i < 13 := List.mem_range.mp hi
    change 12 + 4 * i + 4 ≤ 64
    omega
  rw [dinodeOf, dinodeOf, haddrs, hread (by decide), hread (by decide), hread (by decide),
    hread (by decide), hread (by decide)]

theorem typeOf_typeCode (t : FileType) : typeOf (typeCode t) = t := by cases t <;> rfl

theorem typeCode_lt (t : FileType) : typeCode t < 256 ^ 2 := by cases t <;> decide

theorem ofNat_readLe_writeLe (m : ℕ → Byte) (a : ℕ) (v : BitVec 16) :
    BitVec.ofNat 16 (readLe 2 (writeLe 2 m a v.toNat) a) = v := by
  rw [readLe_writeLe v.isLt, BitVec.ofNat_toNat, BitVec.setWidth_eq]

theorem dinodeOf_addrs (m : ℕ → Byte) (i : ℕ) :
    (dinodeOf m).addrs i = if i ≤ NDIRECT then readLe 4 m (12 + 4 * i) else 0 := by
  change ((List.range (NDIRECT + 1)).map _).getD i 0 = _
  rw [List.getD_eq_getElem?_getD, List.getElem?_map]
  by_cases hi : i ≤ NDIRECT
  · rw [if_pos hi, List.getElem?_range (Nat.lt_succ_of_le hi)]
    rfl
  · rw [if_neg hi, List.getElem?_eq_none]
    · rfl
    · rw [List.length_range]
      exact Nat.lt_of_not_le hi

/-- **An inode is read as it has been written.** -/
theorem dinodeOf_dinodeBytes (h : Fits ip) : dinodeOf (dinodeBytes ip) = ip := by
  have haddrs : (dinodeOf (dinodeBytes ip)).addrs = ip.addrs := by
    funext i
    rw [dinodeOf_addrs]
    by_cases hi : i ≤ NDIRECT
    · rw [if_pos hi, dinodeBytes]
      simp (disch := omega) only [readLe_writeLe_of_disjoint]
      refine readLe_digits (h.addrs i) fun j hj => ?_
      rw [show (12 + 4 * i + j - 12) / 4 = i by omega, show (12 + 4 * i + j - 12) % 4 = j by omega]
    · rw [if_neg hi, h.tail i (Nat.lt_of_not_le hi)]
  have htype : (dinodeOf (dinodeBytes ip)).type = ip.type := by
    change typeOf (readLe 2 (dinodeBytes ip) 0) = _
    rw [dinodeBytes, readLe_writeLe (typeCode_lt _), typeOf_typeCode]
  have hmajor : (dinodeOf (dinodeBytes ip)).major = ip.major := by
    change BitVec.ofNat 16 (readLe 2 (dinodeBytes ip) 2) = _
    rw [dinodeBytes]
    simp (disch := omega) only [readLe_writeLe_of_disjoint]
    rw [ofNat_readLe_writeLe]
  have hminor : (dinodeOf (dinodeBytes ip)).minor = ip.minor := by
    change BitVec.ofNat 16 (readLe 2 (dinodeBytes ip) 4) = _
    rw [dinodeBytes]
    simp (disch := omega) only [readLe_writeLe_of_disjoint]
    rw [ofNat_readLe_writeLe]
  have hnlink : (dinodeOf (dinodeBytes ip)).nlink = ip.nlink := by
    change BitVec.ofNat 16 (readLe 2 (dinodeBytes ip) 6) = _
    rw [dinodeBytes]
    simp (disch := omega) only [readLe_writeLe_of_disjoint]
    rw [ofNat_readLe_writeLe]
  have hsize : (dinodeOf (dinodeBytes ip)).size = ip.size := by
    change readLe 4 (dinodeBytes ip) 8 = _
    rw [dinodeBytes]
    simp (disch := omega) only [readLe_writeLe_of_disjoint]
    rw [readLe_writeLe h.size]
  generalize dinodeOf (dinodeBytes ip) = ip' at *
  cases ip
  cases ip'
  simp_all

theorem slot_setSlot (buf : Block) (k : ℕ) (bytes : ℕ → Byte) {i : ℕ} (hi : i < DINODE) :
    slot (setSlot buf k bytes) k i = bytes i := by
  rw [slot, setSlot, if_pos ⟨Nat.le_add_right _ _, Nat.add_lt_add_left hi _⟩,
    Nat.add_sub_cancel_left]

theorem slot_setSlot_of_ne {k j : ℕ} {bytes : ℕ → Byte} (h : j ≠ k) {i : ℕ} (hi : i < DINODE) :
    slot (setSlot buf k bytes) j i = slot buf j i := by
  have hi : i < 64 := hi
  rw [slot, setSlot, if_neg, slot]
  change ¬ (64 * k ≤ 64 * j + i ∧ 64 * j + i < 64 * k + 64)
  omega

/-! ### The image as a disk -/

/-- The image as a disk, with the bitmap as it will be. -/
def Work.disk (w : Work) : Disk := { mount w.img with bitmap := fun b => decide (b < w.freeblock) }

/-- The image with other bytes in a sector. -/
def Work.write (w : Work) (sec : ℕ) (buf : Block) : Work :=
  { w with img := update w.img sec buf }

theorem Work.write_self (w : Work) (sec : ℕ) (buf : Block) : (w.write sec buf).img sec = buf :=
  update_self _ _ _

theorem Work.write_of_ne (w : Work) {b : ℕ} (h : b ≠ sec) (buf : Block) :
    (w.write sec buf).img b = w.img b := update_of_ne h _ _

/-- What is true of the image between two steps. -/
structure Sound (w : Work) : Prop where
  len : w.len = FSSIZE
  lo : nmeta ≤ w.freeblock
  hi : w.freeblock ≤ FSSIZE
  zero : ∀ b, w.freeblock ≤ b → w.img b = fun _ => 0
  super : w.img 1 = superblockBytes

/-- A step that leaves the disk `d`, and has allocated no inode. -/
structure Reaches (w : Work) (d : Disk) (w' : Work) : Prop where
  sound : Sound w'
  disk : w'.disk = d
  freeinode : w'.freeinode = w.freeinode

theorem Sound.reaches (h : Sound w) : Reaches w w.disk w := ⟨h, rfl, rfl⟩

theorem sector_of_le (h : sec ≤ FSSIZE) : sector sec = sec := by
  have h : sec ≤ 2000 := h
  change sec * 1024 % 2 ^ 32 / 1024 = sec
  omega

theorem rsect_runs (hlen : w.len = FSSIZE) (hsec : sec < FSSIZE) :
    Runs (rsect sec) w fun buf w' => buf = w.img sec ∧ w' = w := by
  refine .of_eq (a := w.img sec) (t := w) ?_ ⟨rfl, rfl⟩
  change (if sector sec < w.len then _ else _) = _
  rw [sector_of_le (Nat.le_of_lt hsec), hlen, if_pos hsec]

/-- The sector behind the last one cannot be read. -/
theorem rsect_end (hlen : w.len = FSSIZE) : (rsect FSSIZE).run w = .error .read := by
  change (if sector FSSIZE < w.len then _ else _) = _
  rw [sector_of_le (Nat.le_refl _), hlen, if_neg (Nat.lt_irrefl _)]

theorem wsect_runs (hlen : w.len = FSSIZE) (hsec : sec < FSSIZE) (buf : Block) :
    Runs (wsect sec buf) w fun _ w' => w' = w.write sec buf := by
  refine .of_eq (a := ()) rfl ?_
  rw [sector_of_le (Nat.le_of_lt hsec), hlen, Nat.max_eq_left hsec, Work.write, hlen]

/-- The inode area is below the bitmap. -/
theorem IBLOCK_lt (hx : x < NINODES) : inodestart ≤ IBLOCK x ∧ IBLOCK x < bmapstart := by
  have hx : x < 200 := hx
  change 32 ≤ x / 16 + 32 ∧ x / 16 + 32 < 45
  omega

theorem Work.disk_dinode (w : Work) (hx : x < NINODES) : w.disk.dinode x = inodeOf w.img x :=
  if_pos hx

theorem Work.disk_data (w : Work) {b : ℕ} (hb : nmeta ≤ b) : w.disk.data b = w.img b := if_pos hb

/-- Sectors outside the inode area are no inodes. -/
theorem Work.dinode_write (w : Work) (hsec : bmapstart ≤ sec) (buf : Block) :
    (w.write sec buf).disk.dinode = w.disk.dinode := by
  funext x
  by_cases hx : x < NINODES
  · rw [Work.disk_dinode _ hx, Work.disk_dinode _ hx, inodeOf, inodeOf,
      w.write_of_ne (Nat.ne_of_lt (Nat.lt_of_lt_of_le (IBLOCK_lt hx).2 hsec))]
  · exact (if_neg hx).trans (if_neg hx).symm

theorem Work.data_write (w : Work) (hsec : sec < nmeta) (buf : Block) :
    (w.write sec buf).disk.data = w.disk.data := by
  funext b
  by_cases hb : nmeta ≤ b
  · rw [Work.disk_data _ hb, Work.disk_data _ hb,
      w.write_of_ne (Nat.ne_of_gt (Nat.lt_of_lt_of_le hsec hb))]
  · exact (if_neg hb).trans (if_neg hb).symm

/-- A sector that is in use is written, other than the superblock. -/
theorem Sound.write (h : Sound w) (hone : sec ≠ 1) (hsec : sec < w.freeblock) (buf : Block) :
    Sound (w.write sec buf) where
  len := h.len
  lo := h.lo
  hi := h.hi
  zero b hb := by
    rw [w.write_of_ne (Nat.ne_of_gt (Nat.lt_of_lt_of_le hsec hb))]
    exact h.zero b hb
  super := by
    rw [w.write_of_ne hone.symm]
    exact h.super

/-- A data block is written. -/
theorem Sound.write_data (h : Sound w) (hlo : nmeta ≤ sec) (hsec : sec < w.freeblock)
    (buf : Block) : Reaches w (w.disk.setData sec buf) (w.write sec buf) := by
  refine ⟨h.write (Nat.ne_of_gt (Nat.lt_of_lt_of_le (by decide) hlo)) hsec buf, ?_, rfl⟩
  have hdata : (w.write sec buf).disk.data = update w.disk.data sec buf := by
    funext b
    by_cases hb : b = sec
    · rw [hb, Work.disk_data _ hlo, w.write_self, update_self]
    · rw [update_of_ne hb]
      by_cases hlo : nmeta ≤ b
      · rw [Work.disk_data _ hlo, Work.disk_data _ hlo, w.write_of_ne hb]
      · exact (if_neg hlo).trans (if_neg hlo).symm
  rw [Disk.setData, ← hdata, ← w.dinode_write (Nat.le_trans (by decide) hlo) buf]
  rfl

theorem rinode_runs (h : Sound w) (hx : x < NINODES) :
    Runs (rinode x) w fun din w' => w' = w ∧ din = w.disk.dinode x := by
  have hlt : IBLOCK x < FSSIZE := Nat.lt_trans (IBLOCK_lt hx).2 (by decide)
  refine Runs.bind (rsect_runs h.len hlt) fun buf w' => ?_
  rintro ⟨rfl, rfl⟩
  exact Runs.pure ⟨rfl, (w'.disk_dinode hx).symm⟩

theorem winode_runs (h : Sound w) (hx : x < NINODES) (hip : Fits ip) :
    Runs (winode x ip) w fun _ => Reaches w (w.disk.put x ip) := by
  obtain ⟨hlo, hhi⟩ := IBLOCK_lt hx
  have hmeta : IBLOCK x < nmeta := Nat.lt_trans hhi (by decide)
  have hlt : IBLOCK x < FSSIZE := Nat.lt_trans hhi (by decide)
  refine Runs.bind (rsect_runs h.len hlt) fun buf w₁ => ?_
  rintro ⟨rfl, rfl⟩
  refine (wsect_runs h.len hlt _).mono fun _ w' => ?_
  rintro rfl
  refine ⟨h.write (Nat.ne_of_gt (Nat.lt_of_lt_of_le (by decide) hlo))
    (Nat.lt_of_lt_of_le hmeta h.lo) _, ?_, rfl⟩
  generalize hw : w₁.write (IBLOCK x) (setSlot (w₁.img (IBLOCK x)) (x % IPB) (dinodeBytes ip)) = w₂
  have himg : w₂.img (IBLOCK x) = setSlot (w₁.img (IBLOCK x)) (x % IPB) (dinodeBytes ip) := by
    rw [← hw, w₁.write_self]
  have hdin : w₂.disk.dinode = update w₁.disk.dinode x ip := by
    funext y
    by_cases hyx : y = x
    · rw [hyx, update_self, Work.disk_dinode _ hx, inodeOf, himg]
      exact (dinodeOf_congr fun i hi => slot_setSlot _ _ _ hi).trans (dinodeOf_dinodeBytes hip)
    · rw [update_of_ne hyx]
      by_cases hy : y < NINODES
      · rw [Work.disk_dinode _ hy, Work.disk_dinode _ hy, inodeOf, inodeOf]
        by_cases hblk : IBLOCK y = IBLOCK x
        · -- another slot of the same block
          have hslot : y % IPB ≠ x % IPB := by
            have hblk : y / 16 + 32 = x / 16 + 32 := hblk
            change y % 16 ≠ x % 16
            omega
          rw [hblk, himg]
          exact dinodeOf_congr fun i hi => slot_setSlot_of_ne hslot hi
        · rw [← hw, w₁.write_of_ne hblk]
      · exact (if_neg hy).trans (if_neg hy).symm
  rw [Disk.put, ← hdin, ← w₁.data_write hmeta
    (setSlot (w₁.img (IBLOCK x)) (x % IPB) (dinodeBytes ip)), hw, ← hw]
  rfl

/-! ### Blocks -/

/-- The image when one more block is in use. -/
def Work.bump (w : Work) : Work := { w with freeblock := w.freeblock + 1 }

theorem nextBlock_runs : Runs nextBlock w fun b w' => b = w.freeblock ∧ w' = w.bump :=
  .of_eq rfl ⟨rfl, rfl⟩

/-- The kernel would take the same block. -/
theorem balloc_disk (hlt : w.freeblock < FSSIZE) :
    Fs.balloc superblock w.disk = (w.freeblock, w.disk.claim w.freeblock) := by
  have hfind : (List.range superblock.size).find? (fun b => !w.disk.bitmap b) =
      some w.freeblock := by
    refine List.find?_range_eq_some.mpr ⟨?_, List.mem_range.mpr hlt, fun b hb => ?_⟩
    · exact congrArg not (decide_eq_false (Nat.lt_irrefl _))
    · exact congrArg (fun c => !(!c)) (decide_eq_true hb)
  rw [Fs.balloc, hfind]

/-- The kernel would find the disk full. -/
theorem balloc_disk_full (hlt : ¬ w.freeblock < FSSIZE) :
    Fs.balloc superblock w.disk = (0, w.disk) := by
  have hfind : (List.range superblock.size).find? (fun b => !w.disk.bitmap b) = none := by
    refine List.find?_eq_none.mpr fun b hb => ?_
    have hb : b < FSSIZE := List.mem_range.mp hb
    have hmark : w.disk.bitmap b = true :=
      decide_eq_true (Nat.lt_of_lt_of_le hb (Nat.le_of_not_lt hlt))
    rw [hmark]
    exact Bool.false_ne_true
  rw [Fs.balloc, hfind]

theorem Sound.freeblock_ne (h : Sound w) : w.freeblock ≠ 0 :=
  Nat.ne_of_gt (Nat.lt_of_lt_of_le (by decide) h.lo)

theorem Sound.bump (h : Sound w) (hlt : w.freeblock < FSSIZE) :
    Reaches w (w.disk.claim w.freeblock) w.bump := by
  refine ⟨⟨h.len, Nat.le_succ_of_le h.lo, hlt, fun b hb => h.zero b (Nat.le_of_succ_le hb),
    h.super⟩, ?_, rfl⟩
  have hbit : w.bump.disk.bitmap = update w.disk.bitmap w.freeblock true := by
    funext b
    by_cases hb : b = w.freeblock
    · rw [hb, update_self]
      exact decide_eq_true (Nat.lt_succ_self _)
    · rw [update_of_ne hb]
      exact decide_eq_decide.mpr (by change b < w.freeblock + 1 ↔ _; omega)
  have hdata : update w.disk.data w.freeblock (fun _ => 0) = w.disk.data := by
    refine Function.update_eq_self_iff.mpr ?_
    rw [w.disk_data h.lo, h.zero _ (Nat.le_refl _)]
  rw [Disk.claim, Disk.setData, hdata, ← hbit]
  rfl

theorem Sound.freeblock_eq (h : Sound w) (hlt : ¬ w.freeblock < FSSIZE) : w.freeblock = FSSIZE :=
  Nat.le_antisymm h.hi (Nat.le_of_not_lt hlt)

theorem Sound.full (h : Sound w) (hlt : ¬ w.freeblock < FSSIZE) :
    ∀ b < FSSIZE, w.disk.bitmap b = true :=
  fun _ hb => decide_eq_true (h.freeblock_eq hlt ▸ hb)

/-- The kernel has found no block, and there is none. -/
def NoBlock (k : ℕ × View) : Prop := k.1 = 0 ∧ ∀ b < FSSIZE, k.2.disk.bitmap b = true

/-- `k` is what the kernel returns, and `r` with `w'` what `mkfs` does: the same block, or the
number behind the last block if there is none. -/
def Agrees (w : Work) (inum : ℕ) (k : ℕ × View) (r : ℕ × Dinode) (w' : Work) : Prop :=
  w'.len = FSSIZE ∧ ((r.1 < FSSIZE ∧ r.1 ≠ 0 ∧ ∃ d, k = (r.1, ⟨d, inum, r.2⟩) ∧ Reaches w d w') ∨
    (r.1 = FSSIZE ∧ NoBlock k))

theorem Agrees.of_reaches {w₁ : Work} {k : ℕ × View} {r : ℕ × Dinode} {d : Disk}
    (h : Agrees w₁ inum k r w') (h₁ : Reaches w d w₁) : Agrees w inum k r w' := by
  obtain ⟨hlen, ⟨hlt, hne, d', hk, hreach⟩ | hfull⟩ := h
  · exact ⟨hlen, .inl ⟨hlt, hne, d', hk, hreach.sound, hreach.disk,
      hreach.freeinode.trans h₁.freeinode⟩⟩
  · exact ⟨hlen, .inr hfull⟩

theorem firstData_superblock : superblock.firstData = nmeta := by decide

section View

variable (hwf : View.Wf superblock ⟨w.disk, inum, din⟩)
include hwf

/-- The blocks of the inode in memory are data blocks in use. -/
theorem ref_range {e : ℕ × ℕ} (hr : (View.mk w.disk inum din).flush.ref superblock e ≠ 0) :
    nmeta ≤ (View.mk w.disk inum din).flush.ref superblock e ∧
      (View.mk w.disk inum din).flush.ref superblock e < w.freeblock := by
  have hrange := hwf.disk.owns.range e hr
  rw [firstData_superblock] at hrange
  exact ⟨hrange.1, of_decide_eq_true (hwf.disk.owns.used_of_ref hr)⟩

theorem addrs_range {k : ℕ} (hk : k ≤ NDIRECT) (hne : din.addrs k ≠ 0) :
    nmeta ≤ din.addrs k ∧ din.addrs k < w.freeblock := by
  have href : (View.mk w.disk inum din).flush.ref superblock (inum, k) = din.addrs k := by
    rw [Disk.ref_of_le hwf.allocated hk, View.flush_dinode ⟨w.disk, inum, din⟩]
  rw [← href] at hne ⊢
  exact ref_range hwf hne

theorem fits_of_wf (h : Sound w) (htail : ∀ i, NDIRECT < i → din.addrs i = 0) : Fits din := by
  refine ⟨?_, fun i => ?_, htail⟩
  · have hle := hwf.disk.size_le inum hwf.allocated
    rw [View.flush_dinode ⟨w.disk, inum, din⟩] at hle
    exact Nat.lt_of_le_of_lt hle (by decide)
  · by_cases hi : i ≤ NDIRECT
    · by_cases hne : din.addrs i = 0
      · rw [hne]
        decide
      · have hlt := (addrs_range hwf hi hne).2
        have hhi := h.hi
        exact Nat.lt_of_lt_of_le (Nat.lt_of_lt_of_le hlt hhi) (by decide)
    · rw [htail i (Nat.lt_of_not_le hi)]
      decide

/-- The second half of `fileBlock`, for an indirect block that is there. -/
theorem indirect_runs (h : Sound w) {j : ℕ} (hind : din.addrs NDIRECT ≠ 0) (hj : j < NINDIRECT) :
    Runs (do
      let indirect ← rsect (din.addrs NDIRECT)
      if word indirect j = 0 then
        let b ← nextBlock
        wsect (din.addrs NDIRECT) (writeLe 4 indirect (4 * j) b)
        return (b, din)
      else return (word indirect j, din)) w
      (Agrees w inum (bmapIndirect superblock ⟨w.disk, inum, din⟩ (din.addrs NDIRECT) j)) := by
  obtain ⟨hlo, hused⟩ := addrs_range hwf (Nat.le_refl _) hind
  have hhi := Nat.lt_of_lt_of_le hused h.hi
  have hdata : w.disk.data (din.addrs NDIRECT) = w.img (din.addrs NDIRECT) := w.disk_data hlo
  refine Runs.bind (rsect_runs h.len hhi) fun buf w₁ => ?_
  rintro ⟨rfl, rfl⟩
  by_cases hw : word (w₁.img (din.addrs NDIRECT)) j = 0
  · rw [if_pos hw, bmapIndirect, hdata, if_pos hw]
    refine Runs.bind nextBlock_runs fun b w₂ => ?_
    rintro ⟨rfl, rfl⟩
    refine Runs.bind (wsect_runs (w := w₁.bump) h.len hhi _) fun _ w₃ => ?_
    rintro rfl
    by_cases hlt : w₁.freeblock < FSSIZE
    · rw [balloc_disk hlt]
      refine Runs.pure ⟨h.len, .inl ⟨hlt, h.freeblock_ne, _, if_neg h.freeblock_ne, ?_⟩⟩
      have hbump := h.bump hlt
      have hwrite := hbump.sound.write_data hlo (Nat.lt_succ_of_lt hused)
        (writeLe 4 (w₁.img (din.addrs NDIRECT)) (4 * j) w₁.freeblock)
      rw [hbump.disk] at hwrite
      exact ⟨hwrite.sound, hwrite.disk, rfl⟩
    · rw [balloc_disk_full hlt]
      exact Runs.pure ⟨h.len, .inr ⟨h.freeblock_eq hlt, rfl, h.full hlt⟩⟩
  · have href := hwf.ref_indirect hind hj
    have hlt := ref_range hwf (e := (inum, place (NDIRECT + j))) (by
      rw [href, hdata]
      exact hw)
    rw [href, hdata] at hlt
    rw [if_neg hw, bmapIndirect, hdata, if_neg hw]
    exact Runs.pure ⟨h.len, .inl ⟨Nat.lt_of_lt_of_le hlt.2 h.hi, hw, _, rfl, h.reaches⟩⟩

/-- **`fileBlock` is `bmap`**, and fails only if the disk is full. -/
theorem fileBlock_ends (h : Sound w) (hfbn : fbn < MAXFILE) :
    ∃ k, bmap superblock ⟨w.disk, inum, din⟩ fbn = .ok k ∧
      Ends (fun _ => NoBlock k) (fileBlock din fbn) w (Agrees w inum k) := by
  rw [fileBlock, bmap]
  by_cases hd : fbn < NDIRECT
  · rw [if_pos hd, if_pos hd]
    by_cases ha : din.addrs fbn = 0
    · rw [if_pos ha, if_pos ha]
      by_cases hlt : w.freeblock < FSSIZE
      · rw [balloc_disk hlt]
        refine ⟨_, if_neg h.freeblock_ne, Ends.bind nextBlock_runs.ends fun b w₁ => ?_⟩
        rintro ⟨rfl, rfl⟩
        exact Ends.pure ⟨h.len, .inl ⟨hlt, h.freeblock_ne, _, rfl, h.bump hlt⟩⟩
      · rw [balloc_disk_full hlt]
        refine ⟨_, rfl, Ends.bind nextBlock_runs.ends fun b w₁ => ?_⟩
        rintro ⟨rfl, rfl⟩
        exact Ends.pure ⟨h.len, .inr ⟨h.freeblock_eq hlt, rfl, h.full hlt⟩⟩
    · rw [if_neg ha, if_neg ha]
      have hlt := Nat.lt_of_lt_of_le (addrs_range hwf (Nat.le_of_lt hd) ha).2 h.hi
      exact ⟨_, rfl, Ends.pure ⟨h.len, .inl ⟨hlt, ha, _, rfl, h.reaches⟩⟩⟩
  · obtain ⟨j, rfl⟩ := Nat.exists_eq_add_of_le (Nat.le_of_not_lt hd)
    have hj : j < NINDIRECT := Nat.lt_of_add_lt_add_left hfbn
    rw [if_neg hd, if_neg hd, Nat.add_sub_cancel_left, if_pos hj]
    by_cases ha : din.addrs NDIRECT = 0
    · rw [if_pos ha, if_pos ha]
      have hself : (din.setAddr NDIRECT w.freeblock).addrs NDIRECT = w.freeblock :=
        Dinode.setAddr_self ..
      by_cases hlt : w.freeblock < FSSIZE
      · have hbump := h.bump hlt
        have hwf₁ := (hwf.grow_setAddr (Nat.le_refl _) ha (decide_eq_false (Nat.lt_irrefl _)) hlt
          fun _ => False).wf
        rw [← hbump.disk] at hwf₁
        rw [balloc_disk hlt, ← hbump.disk]
        refine ⟨_, if_neg h.freeblock_ne, Ends.bind nextBlock_runs.ends fun b w₁ => ?_⟩
        rintro ⟨rfl, rfl⟩
        rw [pure_bind]
        refine (indirect_runs hwf₁ hbump.sound (hself ▸ h.freeblock_ne) hj).ends.mono
          fun r w' hr => ?_
        rw [hself] at hr
        exact hr.of_reaches hbump
      · rw [balloc_disk_full hlt]
        refine ⟨_, rfl, Ends.bind nextBlock_runs.ends fun b w₁ => ?_⟩
        rintro ⟨rfl, rfl⟩
        -- the number is behind the last sector
        rw [pure_bind]
        refine Ends.bind (R := fun _ _ => False) (Ends.of_error (e := .read) ?_ ⟨rfl, h.full hlt⟩)
          fun _ _ hfalse => hfalse.elim
        rw [hself, h.freeblock_eq hlt]
        exact rsect_end (w := w.bump) h.len
    · rw [if_neg ha, if_neg ha]
      exact ⟨_, rfl, (indirect_runs hwf h ha hj).ends⟩

end View

/-- There are no block numbers after the indirect block. -/
def Tailless (din : Dinode) : Prop := ∀ i, NDIRECT < i → din.addrs i = 0

theorem bmapIndirect_ip (sb : Superblock) (v : View) (ind j : ℕ) :
    (bmapIndirect sb v ind j).2.ip = v.ip := by
  rw [bmapIndirect]
  split
  · dsimp only
    split <;> rfl
  · rfl

/-- Of the blocks of an inode, `bmap` adds the one that it is asked for, and the indirect block. -/
theorem bmap_addrs {sb : Superblock} {v v' : View} {a k : ℕ} (hrun : bmap sb v fbn = .ok (a, v'))
    (hk : k ≠ NDIRECT) (hne : k < NDIRECT → k ≠ fbn) : v'.ip.addrs k = v.ip.addrs k := by
  rw [Fs.bmap] at hrun
  by_cases hd : fbn < NDIRECT
  · rw [if_pos hd] at hrun
    split at hrun
    · dsimp only at hrun
      split at hrun <;> cases hrun
      · rfl
      · exact Dinode.setAddr_of_ne fun heq => hne (heq ▸ hd) heq
    · cases hrun
      rfl
  · rw [if_neg hd] at hrun
    split at hrun
    · split at hrun
      · dsimp only at hrun
        split at hrun
        · cases hrun
          rfl
        · have hip := congrArg (fun r => r.2.ip) (Except.ok.inj hrun)
          rw [← hip, bmapIndirect_ip]
          exact Dinode.setAddr_of_ne hk
      · have hip := congrArg (fun r => r.2.ip) (Except.ok.inj hrun)
        rw [← hip, bmapIndirect_ip]
    · cases hrun

theorem Tailless.bmap {sb : Superblock} {v v' : View} {a : ℕ} (h : Tailless v.ip)
    (hrun : bmap sb v fbn = .ok (a, v')) : Tailless v'.ip := fun i hi =>
  (bmap_addrs hrun (Nat.ne_of_gt hi) fun hlt => absurd hlt (Nat.lt_asymm hi)).trans (h i hi)

/-! ### Appending -/

variable {P : List Byte} {tot off fuel : ℕ}

/-- The bytes that are left stand where the kernel has counted to. -/
theorem copyin_drop (blk : Block) (o : ℕ) (P : List Byte) (tot m : ℕ) :
    copyin blk o (fun i => (P.drop tot)[i]?) 0 m = copyin blk o (fun i => P[i]?) tot m := by
  have hmapped : mapped (fun i => (P.drop tot)[i]?) 0 m = mapped (fun i => P[i]?) tot m := by
    simp only [mapped, List.getElem?_drop, Nat.zero_add]
  funext i
  rw [copyin, copyin, hmapped, Nat.zero_add, List.getElem?_drop]

theorem mapped_getElem? {m : ℕ} (h : tot + m ≤ P.length) : mapped (fun i => P[i]?) tot m = m := by
  have hall : ∀ i ∈ List.range m, (P[tot + i]?).isSome = true := fun i hi => by
    have hi := List.mem_range.mp hi
    rw [List.getElem?_eq_getElem (by omega)]
    rfl
  rw [mapped, List.takeWhile_eq_self_iff.mpr hall, List.length_range]

section Rounds

variable {sb : Superblock} {src : ℕ → Option Byte} {n a : ℕ} {v v₁ : View}

/-- The kernel's loop finds no block. -/
theorem writeiLoop_none (hlt : tot < n) (hbmap : bmap sb v (off / BSIZE) = .ok (0, v₁)) :
    writeiLoop sb src n (fuel + 1) tot off v = .ok ((tot, off), v₁) := by
  rw [writeiLoop, if_pos hlt, hbmap]
  rfl

/-- The kernel's loop goes on with the next block. -/
theorem writeiLoop_round {m : ℕ} (fuel : ℕ) (hlt : tot < n)
    (hbmap : bmap sb v (off / BSIZE) = .ok (a, v₁)) (ha : a ≠ 0)
    (hm : min (n - tot) (BSIZE - off % BSIZE) = m) (hmapped : mapped src tot m = m) :
    writeiLoop sb src n (fuel + 1) tot off v = writeiLoop sb src n fuel (tot + m) (off + m)
      (v₁.store a (copyin (v₁.disk.data a) (off % BSIZE) src tot m)) := by
  subst hm
  rw [writeiLoop, if_pos hlt, hbmap]
  exact (if_neg ha).trans (if_pos hmapped)

end Rounds

/-- The kernel's loop stops before the end, because no block is left. -/
def Short (n : ℕ) (k : (ℕ × ℕ) × View) : Prop := k.1.1 < n ∧ ∀ b < FSSIZE, k.2.disk.bitmap b = true

/-- **The loop of `iappend` is the loop of `writei`.** It fails only if the file is too long, or if
the kernel's loop stops because the disk is full. -/
theorem iappendLoop_ends (h : Sound w) (hwf : View.Wf superblock ⟨w.disk, inum, din⟩)
    (htail : Tailless din)
    (tot off : ℕ) (hfuel : P.length - tot ≤ fuel) (htot : tot ≤ P.length)
    (hoff : off ≤ MAXFILE * BSIZE) :
    Ends (fun _ => MAXFILE * BSIZE < off + (P.length - tot) ∨
        ∃ k, writeiLoop superblock (fun i => P[i]?) P.length fuel tot off ⟨w.disk, inum, din⟩ =
          .ok k ∧ Short P.length k)
      (iappendLoop fuel (P.drop tot) off din) w fun r w' =>
      r.1 = off + (P.length - tot) ∧ r.1 ≤ MAXFILE * BSIZE ∧ Tailless r.2 ∧ r.2.size = din.size ∧
      ∃ d, Reaches w d w' ∧ View.Wf superblock ⟨d, inum, r.2⟩ ∧
        writeiLoop superblock (fun i => P[i]?) P.length fuel tot off ⟨w.disk, inum, din⟩ =
          .ok ((P.length, r.1), ⟨d, inum, r.2⟩) := by
  induction fuel generalizing w din tot off with
  | zero =>
    have heq : tot = P.length := by omega
    refine Ends.pure ⟨by omega, hoff, htail, rfl, _, h.reaches, hwf, ?_⟩
    rw [heq]
    rfl
  | succ fuel ih =>
    rw [iappendLoop]
    by_cases hlt : tot < P.length
    · have hne : P.drop tot ≠ [] := fun hnil => by
        have := List.drop_eq_nil_iff.mp hnil
        omega
      rw [if_neg hne]
      by_cases hfbn : off / BSIZE < MAXFILE
      · simp only [if_pos hfbn]
        obtain ⟨⟨a, v₁⟩, hbmap, hends⟩ := fileBlock_ends hwf h hfbn
        have hnone (hk : NoBlock (a, v₁)) : MAXFILE * BSIZE < off + (P.length - tot) ∨
            ∃ k, writeiLoop superblock (fun i => P[i]?) P.length (fuel + 1) tot off
            ⟨w.disk, inum, din⟩ = .ok k ∧
              Short P.length k := by
          obtain ⟨rfl, hfull⟩ := hk
          exact .inr ⟨_, writeiLoop_none hlt hbmap, hlt, hfull⟩
        refine Ends.bind (hends.weaken fun _ => hnone) fun r w₁ hr => ?_
        obtain ⟨x, din₁⟩ := r
        obtain ⟨hlen, ⟨hx, hx₀, d, hk, hreach⟩ | ⟨hx, hk⟩⟩ := hr
        · obtain ⟨rfl, rfl⟩ := Prod.mk.inj hk
          obtain ⟨_, _, hb, hgrows, href⟩ := bmap_spec hwf hfbn fun _ => False
          rw [hbmap] at hb
          cases hb
          have hwf₁ := hgrows.wf
          rw [← hreach.disk] at hwf₁ href hbmap
          have hrange := ref_range hwf₁ (e := (inum, place (off / BSIZE))) (href hx₀ ▸ hx₀)
          rw [href hx₀] at hrange
          have hdiv := Nat.div_add_mod' off BSIZE
          have hmod := Nat.mod_lt off (show 0 < BSIZE by decide)
          have hblock : (off / BSIZE + 1) * BSIZE = off / BSIZE * BSIZE + BSIZE := Nat.succ_mul ..
          generalize hm : min (P.length - tot) (BSIZE - off % BSIZE) = m
          have hn1 : min (P.drop tot).length ((off / BSIZE + 1) * BSIZE - off) = m := by
            rw [List.length_drop]
            omega
          have ho : off - off / BSIZE * BSIZE = off % BSIZE := by omega
          have hround := writeiLoop_round fuel hlt hbmap hx₀ hm
            (mapped_getElem? (P := P) (by omega))
          refine Ends.bind (rsect_runs hlen hx).ends fun buf w₂ => ?_
          rintro ⟨rfl, rfl⟩
          rw [hn1, ho, copyin_drop, List.drop_drop, ← w₂.disk_data hrange.1]
          generalize copyin (w₂.disk.data a) (off % BSIZE) (fun i => P[i]?) tot m = blk at hround ⊢
          refine Ends.bind (wsect_runs hlen hx _).ends fun _ w₃ => ?_
          rintro rfl
          have hwrite := hreach.sound.write_data hrange.1 hrange.2 blk
          have hwf₂ :=
            (hwf₁.setData (A := fun _ => True) (off / BSIZE) blk fun _ _ hA => absurd trivial hA).wf
          rw [href hx₀] at hwf₂
          have hmax : off + m ≤ MAXFILE * BSIZE := by
            have := Nat.mul_le_mul_right BSIZE (show off / BSIZE + 1 ≤ MAXFILE from hfbn)
            omega
          have hsize₁ : din₁.size = din.size := (congrArg Dinode.size hgrows.same.head :)
          have hview : View.mk (w₂.write a blk).disk inum din₁ = (View.mk w₂.disk inum din₁).store a
              blk := by
            rw [hwrite.disk]
            rfl
          have hnext := ih (w := w₂.write a blk) hwrite.sound (hview ▸ hwf₂) (htail.bmap hbmap)
            (tot + m) (off + m) (by omega) (by omega) hmax
          rw [hview, ← hround] at hnext
          refine (hnext.weaken fun _ => Or.imp_left fun hbig => by omega).mono fun r w' => ?_
          rintro ⟨hr, hrmax, hrtail, hsize, d', hreach', hwf', heq⟩
          exact ⟨by omega, hrmax, hrtail, hsize.trans hsize₁, d', ⟨hreach'.sound, hreach'.disk,
            hreach'.freeinode.trans (hwrite.freeinode.trans hreach.freeinode)⟩, hwf', heq⟩
        · -- the sector cannot be read
          obtain rfl : x = FSSIZE := hx
          exact Ends.bind (R := fun _ _ => False) (Ends.of_error (rsect_end hlen) (hnone hk))
            fun _ _ hfalse => hfalse.elim
      · simp only [if_neg hfbn]
        refine Ends.throw (.inl ?_)
        have := Nat.mul_le_of_le_div _ _ _ (Nat.le_of_not_lt hfbn)
        omega
    · have heq : tot = P.length := by omega
      rw [if_pos (List.drop_eq_nil_iff.mpr (Nat.le_of_eq heq.symm)), writeiLoop, if_neg hlt]
      refine Ends.pure ⟨by omega, hoff, htail, rfl, _, h.reaches, hwf, ?_⟩
      rw [heq]

theorem tailless_dinode (w : Work) (x : ℕ) : Tailless (w.disk.dinode x) := by
  intro i hi
  by_cases hx : x < NINODES
  · rw [w.disk_dinode hx, inodeOf, dinodeOf_addrs, if_neg (Nat.not_le.mpr hi)]
  · exact congrArg (fun ip => Dinode.addrs ip i) (if_neg hx)

/-- An inode that is on the disk, as the kernel would have it in memory. -/
def Work.view (w : Work) (inum : ℕ) : View := ⟨w.disk, inum, w.disk.dinode inum⟩

theorem wf_view (hwf : w.disk.Wf superblock) (hx : w.disk.Allocated superblock inum) :
    (w.view inum).Wf superblock := by
  have hflush : (w.view inum).flush = w.disk := View.flush_of_sync rfl
  exact ⟨hx.1, hx.2, hflush ▸ hwf⟩

/-- **`iappend` is a `writei` at the end of the file.** If it succeeds, `writei` writes everything,
and the disks are the same. It fails only if the file is too long, or if `writei` would stop because
the disk is full. -/
theorem iappend_ends (h : Sound w) (hwf : w.disk.Wf superblock)
    (hx : w.disk.Allocated superblock inum) (p : List Byte) :
    Ends (fun _ => MAXFILE * BSIZE < (w.disk.dinode inum).size + p.length ∨ ∃ k < p.length, ∃ v',
        writei superblock (w.view inum) (fun i => p[i]?) (w.disk.dinode inum).size p.length =
        .ok (↑k, v') ∧
          ∀ b < FSSIZE, v'.disk.bitmap b = true)
      (iappend inum p) w fun _ w' => ∃ v',
        writei superblock (w.view inum) (fun i => p[i]?) (w.disk.dinode inum).size p.length =
          .ok (↑p.length, v') ∧ Reaches w v'.disk w' := by
  have hview := wf_view hwf hx
  have hsize : (w.disk.dinode inum).size ≤ MAXFILE * BSIZE := hwf.size_le inum hx
  have hwritei (hbig : ¬ MAXFILE * BSIZE < (w.disk.dinode inum).size + p.length)
      {r : (ℕ × ℕ) × View} (hloop : writeiLoop superblock (fun i => p[i]?) p.length p.length 0
        (w.disk.dinode inum).size ⟨w.disk, inum, w.disk.dinode inum⟩ = .ok r) :
      writei superblock (w.view inum) (fun i => p[i]?) (w.disk.dinode inum).size p.length =
        .ok (↑r.1.1, iupdate (r.2.setSize (max r.2.ip.size r.1.2))) := by
    have hout : ¬ ((w.disk.dinode inum).size < (w.disk.dinode inum).size ∨
        ((w.disk.dinode inum).size + p.length) % 2 ^ 32 < (w.disk.dinode inum).size) := by
      have : (w.disk.dinode inum).size + p.length < 2 ^ 32 :=
        Nat.lt_of_le_of_lt (Nat.le_of_not_lt hbig) (by decide)
      rw [Nat.mod_eq_of_lt this]
      omega
    rw [writei]
    refine (if_neg hout).trans ((if_neg hbig).trans ?_)
    rw [Work.view, hloop]
    rfl
  refine Ends.bind (rinode_runs h hx.1).ends fun din w₁ => ?_
  rintro ⟨rfl, rfl⟩
  have hloop := iappendLoop_ends (P := p) h hview (tailless_dinode w₁ inum) 0 _ (Nat.le_refl _)
    (Nat.zero_le _) hsize
  refine Ends.bind (hloop.weaken fun _ hfail => ?_) fun r w₂ => ?_
  · by_cases hbig : MAXFILE * BSIZE < (w₁.disk.dinode inum).size + p.length
    · exact .inl hbig
    · obtain hlong | ⟨⟨⟨k, off⟩, v⟩, heq, hk, hfull⟩ := hfail
      · exact .inl hlong
      · exact .inr ⟨k, hk, _, hwritei hbig heq, hfull⟩
  · rintro ⟨hr, hmax, htail, hsame, d, ⟨hsound, rfl, hfree⟩, hwf', heq⟩
    obtain ⟨off, din⟩ := r
    have hr : off = (w₁.disk.dinode inum).size + p.length := hr
    have hmax : off ≤ MAXFILE * BSIZE := hmax
    have hfits := (fits_of_wf hwf' hsound htail).setSize (Nat.lt_of_le_of_lt hmax (by decide))
    refine (winode_runs hsound hx.1 hfits).ends.mono fun _ w' => ?_
    rintro ⟨hsound', hdisk, hfree'⟩
    refine ⟨_, hwritei (hr ▸ Nat.not_lt.mpr hmax) heq, hsound', ?_, hfree'.trans hfree⟩
    have hlast : max din.size off = off := Nat.max_eq_right (by change din.size = _ at hsame; omega)
    change _ = (iupdate (View.setSize ⟨w₂.disk, inum, din⟩ (max din.size off))).disk
    rw [hlast, hdisk]
    rfl

end Xv6.Fs.Mkfs
