import Xv6.Fs.Disk
import Xv6.Lib.Own

/-!
# Block ownership

An allocated inode refers to blocks from numbered places: its direct blocks, its indirect block, and
the entries of the indirect block. `Disk.Wf` says that these references and the bitmap agree in the
sense of `Owns`, and that a file has no holes. The functions of `Xv6.Fs.Disk` that allocate and free
blocks are shown to keep it, for the disk as it will be once the inode in memory is written back.
-/

namespace Xv6.Fs

open Function (update update_self update_of_ne)

variable {sb : Superblock} {d d' : Disk} {v : View} {x y k b bn : ℕ}

/-! ### References -/

/-- The block an inode refers to from place `k`: a direct block, at `NDIRECT` the indirect block,
and after it the entries of the indirect block. -/
def Dinode.ref (ip : Dinode) (data : ℕ → Block) (k : ℕ) : ℕ :=
  if k ≤ NDIRECT then ip.addrs k
  else if k ≤ MAXFILE ∧ ip.addrs NDIRECT ≠ 0 then
    word (data (ip.addrs NDIRECT)) (k - (NDIRECT + 1))
  else 0

/-- The place that holds block `bn` of a file. -/
def place (bn : ℕ) : ℕ := if bn < NDIRECT then bn else bn + 1

theorem place_ne (bn : ℕ) : place bn ≠ NDIRECT := by
  rw [place]
  split <;> omega

theorem place_injective {bn bn' : ℕ} (h : place bn = place bn') : bn = bn' := by
  rw [place, place] at h
  split at h <;> split at h <;> omega

/-- Inode `x` is in use. -/
def Disk.Allocated (sb : Superblock) (d : Disk) (x : ℕ) : Prop :=
  x < sb.ninodes ∧ (d.dinode x).type ≠ .free

instance (sb : Superblock) (d : Disk) (x : ℕ) : Decidable (d.Allocated sb x) :=
  inferInstanceAs (Decidable (_ ∧ _))

/-- The block that an allocated inode refers to from a place. -/
def Disk.ref (sb : Superblock) (d : Disk) (e : ℕ × ℕ) : ℕ :=
  if d.Allocated sb e.1 then (d.dinode e.1).ref d.data e.2 else 0

theorem Disk.ref_of_allocated (h : d.Allocated sb x) (k : ℕ) :
    d.ref sb (x, k) = (d.dinode x).ref d.data k := if_pos h

theorem Disk.ref_of_not_allocated (h : ¬ d.Allocated sb x) (k : ℕ) : d.ref sb (x, k) = 0 := if_neg h

theorem Disk.ref_of_le (h : d.Allocated sb x) (hk : k ≤ NDIRECT) :
    d.ref sb (x, k) = (d.dinode x).addrs k := by
  rw [Disk.ref_of_allocated h, Dinode.ref, if_pos hk]

/-- Ownership of blocks: the bitmap and the references agree, and a file has no holes. -/
structure Disk.Wf (sb : Superblock) (d : Disk) : Prop where
  owns : Owns sb.firstData sb.size (d.ref sb) d.bitmap
  full : ∀ x, d.Allocated sb x → ∀ bn, bn * BSIZE < (d.dinode x).size → d.ref sb (x, place bn) ≠ 0
  size_le : ∀ x, d.Allocated sb x → (d.dinode x).size ≤ MAXFILE * BSIZE

variable {ip : Dinode} {data : ℕ → Block}

/-- The references of an inode depend on its indirect block only. -/
theorem Dinode.ref_congr {data' : ℕ → Block}
    (h : ip.addrs NDIRECT ≠ 0 → data' (ip.addrs NDIRECT) = data (ip.addrs NDIRECT)) (k : ℕ) :
    ip.ref data' k = ip.ref data k := by
  rw [Dinode.ref, Dinode.ref]
  by_cases hi : ip.addrs NDIRECT = 0
  · have hk : ¬ (k ≤ MAXFILE ∧ ip.addrs NDIRECT ≠ 0) := fun hk => hk.2 hi
    rw [if_neg hk, if_neg hk]
  · rw [h hi]

/-- Bytes of a block that is not an indirect block are no references. -/
theorem Disk.ref_setData {blk : Block}
    (h : ∀ x, d.ref sb (x, NDIRECT) ≠ 0 → d.ref sb (x, NDIRECT) ≠ b) :
    (d.setData b blk).ref sb = d.ref sb := by
  funext ⟨x, k⟩
  by_cases hx : d.Allocated sb x
  · rw [Disk.ref_of_allocated hx,
      Disk.ref_of_allocated (show (d.setData b blk).Allocated sb x from hx)]
    refine Dinode.ref_congr (fun hi => ?_) k
    have hb := h x
    rw [Disk.ref_of_le hx (Nat.le_refl _)] at hb
    exact update_of_ne (hb hi) _ _
  · rw [Disk.ref_of_not_allocated hx, Disk.ref_of_not_allocated
      (show ¬ (d.setData b blk).Allocated sb x from hx)]

theorem Disk.put_self (d : Disk) (x : ℕ) (ip : Dinode) : (d.put x ip).dinode x = ip :=
  update_self _ _ _

theorem Disk.put_of_ne (h : y ≠ x) : (d.put x ip).dinode y = d.dinode y :=
  update_of_ne h _ _

theorem Disk.put_put (d : Disk) (x : ℕ) (ip ip' : Dinode) :
    (d.put x ip).put x ip' = d.put x ip' := by
  rw [Disk.put, Disk.put, Disk.put, Function.update_idem]

theorem Disk.allocated_put_of_ne (h : y ≠ x) :
    (d.put x ip).Allocated sb y ↔ d.Allocated sb y := by
  rw [Disk.Allocated, Disk.Allocated, Disk.put_of_ne h]

theorem Disk.allocated_put_self :
    (d.put x ip).Allocated sb x ↔ x < sb.ninodes ∧ ip.type ≠ .free := by
  rw [Disk.Allocated, Disk.put_self]

theorem Disk.ref_put_of_ne (h : y ≠ x) :
    (d.put x ip).ref sb (y, k) = d.ref sb (y, k) := by
  by_cases hy : d.Allocated sb y
  · rw [Disk.ref_of_allocated hy, Disk.ref_of_allocated ((Disk.allocated_put_of_ne h).mpr hy),
      Disk.put_of_ne h]
    rfl
  · rw [Disk.ref_of_not_allocated hy,
      Disk.ref_of_not_allocated (mt (Disk.allocated_put_of_ne h).mp hy)]

theorem Disk.ref_put_self (hx : x < sb.ninodes) (ht : ip.type ≠ .free) :
    (d.put x ip).ref sb (x, k) = ip.ref d.data k := by
  rw [Disk.ref_of_allocated (Disk.allocated_put_self.mpr ⟨hx, ht⟩), Disk.put_self]
  rfl

/-- The references after a change at one place of an inode. -/
theorem Disk.ref_put (hx : d.Allocated sb x) (ht : ip.type ≠ .free)
    (hself : ∀ j, j ≠ k → ip.ref d.data j = (d.dinode x).ref d.data j) :
    (d.put x ip).ref sb = update (d.ref sb) (x, k) (ip.ref d.data k) := by
  funext ⟨y, j⟩
  by_cases hy : y = x
  · rw [hy, Disk.ref_put_self hx.1 ht]
    by_cases hj : j = k
    · rw [hj, update_self]
    · rw [update_of_ne (fun h => hj (Prod.mk.inj h).2), Disk.ref_of_allocated hx]
      exact hself j hj
  · rw [Disk.ref_put_of_ne hy, update_of_ne (fun h => hy (Prod.mk.inj h).1)]

theorem Dinode.setAddr_self (ip : Dinode) (i b : ℕ) : (ip.setAddr i b).addrs i = b :=
  update_self _ _ _

theorem Dinode.setAddr_of_ne {i j : ℕ} (h : j ≠ i) :
    (ip.setAddr i b).addrs j = ip.addrs j := update_of_ne h _ _

theorem Dinode.ref_setAddr_self (ip : Dinode) (data : ℕ → Block) (hk : k ≤ NDIRECT) :
    (ip.setAddr k b).ref data k = b := by
  rw [Dinode.ref, if_pos hk, Dinode.setAddr_self]

theorem Dinode.ref_setAddr_direct (hk : k < NDIRECT) {j : ℕ}
    (hj : j ≠ k) : (ip.setAddr k b).ref data j = ip.ref data j := by
  rw [Dinode.ref, Dinode.ref, Dinode.setAddr_of_ne hj, Dinode.setAddr_of_ne (Nat.ne_of_gt hk)]

theorem word_zero (j : ℕ) : word (fun _ => 0) j = 0 := readLe_zero 4 _

/-- A new indirect block holds no references. -/
theorem Dinode.ref_setAddr_indirect (hi : ip.addrs NDIRECT = 0)
    (hb : data b = fun _ => 0) {j : ℕ} (hj : j ≠ NDIRECT) :
    (ip.setAddr NDIRECT b).ref data j = ip.ref data j := by
  rw [Dinode.ref, Dinode.ref, Dinode.setAddr_of_ne hj, Dinode.setAddr_self, hb, word_zero, ite_self,
    if_neg fun h : j ≤ MAXFILE ∧ ip.addrs NDIRECT ≠ 0 => h.2 hi]

/-- A block number is written to the indirect block of inode `x`, which no other inode has. -/
theorem Disk.ref_setWord {ind j : ℕ} (hx : d.Allocated sb x)
    (hind : (d.dinode x).addrs NDIRECT = ind)
    (hind₀ : ind ≠ 0) (hother : ∀ y, d.ref sb (y, NDIRECT) = ind → y = x) (hj : j < NINDIRECT)
    (hb : b < 256 ^ 4) :
    (d.setData ind (writeLe 4 (d.data ind) (4 * j) b)).ref sb =
      update (d.ref sb) (x, NDIRECT + 1 + j) b := by
  generalize hd' : d.setData ind (writeLe 4 (d.data ind) (4 * j) b) = d'
  have hdin : d'.dinode = d.dinode := by rw [← hd', Disk.setData]
  have hdata : d'.data ind = writeLe 4 (d.data ind) (4 * j) b := by
    rw [← hd']
    exact update_self _ _ _
  have hdata' {c : ℕ} (hc : c ≠ ind) : d'.data c = d.data c := by
    rw [← hd']
    exact update_of_ne hc _ _
  funext ⟨y, k⟩
  by_cases hy : d.Allocated sb y
  · have hy' : d'.Allocated sb y := by rwa [Disk.Allocated, hdin]
    by_cases hyx : y = x
    · subst hyx
      by_cases hk : k = NDIRECT + 1 + j
      · have hle : NDIRECT + 1 + j ≤ MAXFILE := by
          rw [Nat.add_assoc, Nat.add_comm 1]
          exact Nat.add_le_add_left hj _
        rw [hk, update_self, Disk.ref_of_allocated hy', Dinode.ref, hdin, hind,
          if_neg (by omega), if_pos ⟨hle, hind₀⟩, hdata, word, Nat.add_sub_cancel_left]
        exact readLe_writeLe hb
      · rw [update_of_ne (fun h => hk (Prod.mk.inj h).2), Disk.ref_of_allocated hy',
          Disk.ref_of_allocated hy, Dinode.ref, Dinode.ref, hdin, hind, hdata, word, word]
        by_cases hkd : k ≤ NDIRECT
        · rw [if_pos hkd, if_pos hkd]
        · rw [readLe_writeLe_of_disjoint (by omega)]
    · rw [update_of_ne (fun h => hyx (Prod.mk.inj h).1), Disk.ref_of_allocated hy',
        Disk.ref_of_allocated hy, hdin]
      refine Dinode.ref_congr (fun _ => hdata' fun h => hyx (hother y ?_)) k
      rwa [Disk.ref_of_le hy (Nat.le_refl _)]
  · have hy' : ¬ d'.Allocated sb y := by rwa [Disk.Allocated, hdin]
    rw [Disk.ref_of_not_allocated hy', update_of_ne, Disk.ref_of_not_allocated hy]
    exact fun h => hy ((Prod.mk.inj h).1 ▸ hx)

/-! ### Ownership is kept -/

/-- A free block is given to an empty place. -/
theorem Disk.Wf.take {e : ℕ × ℕ} (h : d.Wf sb) (hempty : d.ref sb e = 0) (hb : d.bitmap b = false)
    (hlt : b < sb.size) (hbit : d'.bitmap = update d.bitmap b true)
    (href : d'.ref sb = update (d.ref sb) e b)
    (hhead : ∀ x, (d'.dinode x).type = (d.dinode x).type ∧ (d'.dinode x).size = (d.dinode x).size) :
    d'.Wf sb := by
  have hb₀ : b ≠ 0 := Nat.ne_of_gt (Nat.lt_of_lt_of_le h.owns.lo_pos (h.owns.le_of_free hb))
  have halloc {x : ℕ} (hx : d'.Allocated sb x) : d.Allocated sb x := by
    rwa [Disk.Allocated, (hhead x).1] at hx
  refine ⟨?_, fun x hx bn hbn => ?_, fun x hx => ?_⟩
  · rw [hbit, href]
    exact h.owns.take hempty hb hlt
  · rw [href]
    by_cases he : (x, place bn) = e
    · rwa [he, update_self]
    · rw [update_of_ne he]
      exact h.full x (halloc hx) bn ((hhead x).2 ▸ hbn)
  · rw [(hhead x).2]
    exact h.size_le x (halloc hx)

/-- Bytes of a data block are written. -/
theorem Disk.Wf.setData {blk : Block} (h : d.Wf sb)
    (hb : ∀ x, d.ref sb (x, NDIRECT) ≠ 0 → d.ref sb (x, NDIRECT) ≠ b) :
    (d.setData b blk).Wf sb where
  owns := by
    rw [Disk.ref_setData hb]
    exact h.owns
  full := by
    rw [Disk.ref_setData hb]
    exact h.full
  size_le := h.size_le

/-- Another inode is put at number `x`, which refers to the same blocks. -/
theorem Disk.Wf.put (h : d.Wf sb)
    (href : ∀ k, (d.put x ip).ref sb (x, k) = d.ref sb (x, k))
    (hfull : ∀ bn, bn * BSIZE < ip.size → d.ref sb (x, place bn) ≠ 0)
    (hmax : ip.size ≤ MAXFILE * BSIZE) : (d.put x ip).Wf sb := by
  have heq : (d.put x ip).ref sb = d.ref sb := by
    funext ⟨y, k⟩
    by_cases hy : y = x
    · rw [hy, href]
    · exact Disk.ref_put_of_ne hy
  refine ⟨heq ▸ h.owns, fun y hy bn hbn => ?_, fun y hy => ?_⟩
  · rw [heq]
    by_cases hyx : y = x
    · rw [hyx, Disk.put_self] at hbn
      exact hyx ▸ hfull bn hbn
    · rw [Disk.put_of_ne hyx] at hbn
      exact h.full y ((Disk.allocated_put_of_ne hyx).mp hy) bn hbn
  · by_cases hyx : y = x
    · rwa [hyx, Disk.put_self]
    · rw [Disk.put_of_ne hyx]
      exact h.size_le y ((Disk.allocated_put_of_ne hyx).mp hy)

/-! ### Contents -/

/-- The byte at position `pos` of file `x`. -/
def Disk.content (sb : Superblock) (d : Disk) (x pos : ℕ) : Byte :=
  d.data (d.ref sb (x, place (pos / BSIZE))) (pos % BSIZE)

/-- What is allocated stays allocated, and holds the same bytes but for those of file `x` at the
positions of `A`. There, and nowhere else, may the blocks that are new hold something. -/
structure Keeps (sb : Superblock) (x : ℕ) (A : ℕ → Prop) (d d' : Disk) : Prop where
  ref : ∀ e, d.ref sb e ≠ 0 → d'.ref sb e = d.ref sb e
  content : ∀ y pos, d.ref sb (y, place (pos / BSIZE)) ≠ 0 → (y = x → ¬ A pos) →
    d'.content sb y pos = d.content sb y pos
  fresh : ∀ y pos, d.ref sb (y, place (pos / BSIZE)) = 0 →
    d'.ref sb (y, place (pos / BSIZE)) ≠ 0 → (y = x → ¬ A pos) → d'.content sb y pos = 0

namespace Keeps

variable {A B : ℕ → Prop} {d'' : Disk}

theorem refl (sb : Superblock) (x : ℕ) (A : ℕ → Prop) (d : Disk) : Keeps sb x A d d :=
  ⟨fun _ _ => rfl, fun _ _ _ _ => rfl, fun _ _ h h' => absurd h h'⟩

theorem mono (h : Keeps sb x A d d') (hAB : ∀ pos, A pos → B pos) : Keeps sb x B d d' :=
  ⟨h.ref, fun y pos hr hB => h.content y pos hr fun hy hA => hB hy (hAB pos hA),
    fun y pos hr hr' hB => h.fresh y pos hr hr' fun hy hA => hB hy (hAB pos hA)⟩

theorem trans (h : Keeps sb x A d d') (h' : Keeps sb x A d' d'') : Keeps sb x A d d'' where
  ref e he := by
    have h₁ := h.ref e he
    rw [← h₁] at he
    rw [h'.ref e he, h₁]
  content y pos hr hA := by
    have hr' := hr
    rw [← h.ref _ hr] at hr'
    rw [h'.content y pos hr' hA, h.content y pos hr hA]
  fresh y pos hr hr'' hA := by
    by_cases hr' : d'.ref sb (y, place (pos / BSIZE)) = 0
    · exact h'.fresh y pos hr' hr'' hA
    · rw [h'.content y pos hr' hA, h.fresh y pos hr hr' hA]

end Keeps

/-! ### An inode in memory -/

/-- The disk once the copy in memory is written back. -/
def View.flush (v : View) : Disk := v.disk.put v.inum v.ip

/-- The inode in memory is allocated, and ownership holds once it is written back. -/
structure View.Wf (sb : Superblock) (v : View) : Prop where
  lt : v.inum < sb.ninodes
  type_ne : v.ip.type ≠ .free
  disk : v.flush.Wf sb

theorem View.flush_dinode (v : View) : v.flush.dinode v.inum = v.ip := Disk.put_self _ _ _

theorem View.Wf.allocated (h : v.Wf sb) : v.flush.Allocated sb v.inum :=
  ⟨h.lt, by
    rw [v.flush_dinode]
    exact h.type_ne⟩

theorem View.setSize_flush (v : View) (n : ℕ) :
    (v.setSize n).flush = v.flush.put v.inum { v.ip with size := n } := (Disk.put_put ..).symm

theorem View.Wf.ref_setSize (h : v.Wf sb) (n k : ℕ) :
    (v.setSize n).flush.ref sb (v.inum, k) = v.flush.ref sb (v.inum, k) := by
  have ht : { v.ip with size := n }.type ≠ .free := h.type_ne
  rw [v.setSize_flush, Disk.ref_put_self h.lt ht, Disk.ref_of_allocated h.allocated, v.flush_dinode]
  rfl

/-- Ownership depends on the size by holes only. -/
theorem View.Wf.setSize {n : ℕ} (h : v.Wf sb) (hmax : n ≤ MAXFILE * BSIZE)
    (hfull : ∀ bn, bn * BSIZE < n → v.flush.ref sb (v.inum, place bn) ≠ 0) :
    (v.setSize n).Wf sb := by
  refine ⟨h.lt, h.type_ne, ?_⟩
  rw [v.setSize_flush]
  exact h.disk.put (fun k => v.setSize_flush n ▸ h.ref_setSize n k) hfull hmax

/-- The size is no part of the contents. -/
theorem View.Wf.keeps_setSize (h : v.Wf sb) (n : ℕ) (A : ℕ → Prop) :
    Keeps sb v.inum A v.flush (v.setSize n).flush := by
  have href (e : ℕ × ℕ) : (v.setSize n).flush.ref sb e = v.flush.ref sb e := by
    obtain ⟨y, k⟩ := e
    by_cases hy : y = v.inum
    · rw [hy, h.ref_setSize]
    · rw [v.setSize_flush, Disk.ref_put_of_ne hy]
  refine ⟨fun e _ => href e, fun y pos _ _ => ?_, fun y pos hr hr' _ => absurd (href _ ▸ hr) hr'⟩
  rw [Disk.content, Disk.content, href]
  rfl

/-- Nothing but block numbers of the inode in memory, the bitmap and the data blocks differ. -/
structure View.SameHead (v v' : View) : Prop where
  inum : v'.inum = v.inum
  head : v'.ip = { v.ip with addrs := v'.ip.addrs }
  dinode : v'.disk.dinode = v.disk.dinode

theorem View.SameHead.flush_dinode {v' : View} (h : v.SameHead v') (y : ℕ) :
    v'.flush.dinode y = { v.flush.dinode y with addrs := (v'.flush.dinode y).addrs } := by
  by_cases hy : y = v.inum
  · rw [hy, v.flush_dinode, ← h.inum, v'.flush_dinode]
    exact h.head
  · rw [View.flush, View.flush, h.inum, Disk.put_of_ne hy, Disk.put_of_ne hy, h.dinode]

theorem View.SameHead.trans {v' v'' : View} (h : v.SameHead v') (h' : v'.SameHead v'') :
    v.SameHead v'' where
  inum := h'.inum.trans h.inum
  head := by rw [h'.head, h.head]
  dinode := h'.dinode.trans h.dinode

/-- `v'` comes from `v` by allocating blocks for the inode, and by writing its contents at the
positions of `A`. -/
structure View.Grows (sb : Superblock) (A : ℕ → Prop) (v v' : View) : Prop where
  same : v.SameHead v'
  keeps : Keeps sb v.inum A v.flush v'.flush
  wf : v'.Wf sb

namespace View.Grows

variable {A B : ℕ → Prop} {v' v'' : View}

theorem refl (h : v.Wf sb) : Grows sb A v v := ⟨⟨rfl, rfl, rfl⟩, .refl .., h⟩

theorem mono (h : Grows sb A v v') (hAB : ∀ pos, A pos → B pos) : Grows sb B v v' :=
  ⟨h.same, h.keeps.mono hAB, h.wf⟩

theorem trans (h : Grows sb A v v') (h' : Grows sb A v' v'') : Grows sb A v v'' :=
  ⟨h.same.trans h'.same, h.keeps.trans (h.same.inum ▸ h'.keeps), h'.wf⟩

end View.Grows

/-! ### Allocation -/

/-- `balloc` finds the disk full, or a block that nobody has. -/
theorem View.Wf.balloc_cases (h : v.Wf sb) :
    balloc sb v.disk = (0, v.disk) ∨ ∃ b, b ≠ 0 ∧ v.disk.bitmap b = false ∧ b < sb.size ∧
      balloc sb v.disk = (b, v.disk.claim b) := by
  rw [balloc]
  match hfind : (List.range sb.size).find? fun b => !v.disk.bitmap b with
  | none => exact .inl rfl
  | some b =>
    have hfree : v.disk.bitmap b = false := by
      rw [← Bool.not_eq_true']
      exact List.find?_some (p := fun b => !v.disk.bitmap b) hfind
    have hlo := Nat.lt_of_lt_of_le h.disk.owns.lo_pos (h.disk.owns.le_of_free hfree)
    exact .inr ⟨b, Nat.ne_of_gt hlo, hfree,
      List.mem_range.mp (List.mem_of_find?_eq_some hfind), rfl⟩

/-- The free block `b` is given to the empty place `k` of the inode. -/
structure View.Takes (sb : Superblock) (k b : ℕ) (v v' : View) : Prop where
  empty : v.flush.ref sb (v.inum, k) = 0
  free : v.disk.bitmap b = false
  lt : b < sb.size
  same : v.SameHead v'
  bitmap : v'.disk.bitmap = update v.disk.bitmap b true
  ref : v'.flush.ref sb = update (v.flush.ref sb) (v.inum, k) b

/-- A block is taken, and no data block in use is written. -/
theorem View.Takes.grows {v' : View} (ht : v.Takes sb k b v') (h : v.Wf sb)
    (hdata : ∀ e, v.flush.ref sb e ≠ 0 → e.2 ≠ NDIRECT →
      v'.disk.data (v.flush.ref sb e) = v.disk.data (v.flush.ref sb e))
    (hzero : k ≠ NDIRECT → v'.disk.data b = fun _ => 0) (A : ℕ → Prop) : v.Grows sb A v' := by
  have hkeep {e : ℕ × ℕ} (he : v.flush.ref sb e ≠ 0) : v'.flush.ref sb e = v.flush.ref sb e := by
    rw [ht.ref, update_of_ne]
    rintro rfl
    exact he ht.empty
  refine ⟨ht.same, ⟨fun e he => hkeep he, fun y pos hr _ => ?_, fun y pos hr hr' _ => ?_⟩,
    ?_, ?_, ?_⟩
  · rw [Disk.content, Disk.content, hkeep hr]
    exact congrFun (hdata _ hr (place_ne _)) _
  · -- the place that is new is the one that was given
    have he : (y, place (pos / BSIZE)) = (v.inum, k) := by
      by_contra hne
      rw [ht.ref, update_of_ne hne] at hr'
      exact hr' hr
    rw [Disk.content, ht.ref, he, update_self]
    exact congrFun (hzero ((Prod.mk.inj he).2 ▸ place_ne _)) _
  · rw [ht.same.inum]
    exact h.lt
  · rw [ht.same.head]
    exact h.type_ne
  · refine h.disk.take ht.empty ht.free ht.lt ht.bitmap ht.ref fun y => ?_
    rw [ht.same.flush_dinode y]
    exact ⟨rfl, rfl⟩

/-- A free block is no indirect block. -/
theorem Disk.Wf.ref_ne (h : d.Wf sb) (hb : d.bitmap b = false) (e : ℕ × ℕ) : d.ref sb e ≠ b :=
  h.owns.ref_ne_of_free hb e

theorem Disk.Wf.ref_claim (h : d.Wf sb) (hb : d.bitmap b = false) :
    (d.claim b).ref sb = d.ref sb :=
  Disk.ref_setData (d := { d with bitmap := update d.bitmap b true })
    fun x _ => h.ref_ne hb (x, NDIRECT)

theorem Disk.claim_data_of_ne {c : ℕ} (h : c ≠ b) : (d.claim b).data c = d.data c :=
  update_of_ne h _ _

/-- The inode takes the free block `b` at place `k` of its own. -/
theorem View.Wf.takes_setAddr (h : v.Wf sb) (hk : k ≤ NDIRECT) (hempty : v.ip.addrs k = 0)
    (hb : v.disk.bitmap b = false) (hlt : b < sb.size) :
    v.Takes sb k b { v with disk := v.disk.claim b, ip := v.ip.setAddr k b } := by
  have hx := h.allocated
  have hflush : View.flush { v with disk := v.disk.claim b, ip := v.ip.setAddr k b } =
      (v.flush.claim b).put v.inum (v.ip.setAddr k b) :=
    (Disk.put_put (v.disk.claim b) v.inum v.ip (v.ip.setAddr k b)).symm
  have hself : ∀ j, j ≠ k → (v.ip.setAddr k b).ref (v.flush.claim b).data j =
      ((v.flush.claim b).dinode v.inum).ref (v.flush.claim b).data j := fun j hj => by
    rw [show (v.flush.claim b).dinode v.inum = v.ip from v.flush_dinode]
    by_cases hkd : k = NDIRECT
    · subst hkd
      exact Dinode.ref_setAddr_indirect hempty (update_self _ _ _) hj
    · exact Dinode.ref_setAddr_direct (Nat.lt_of_le_of_ne hk hkd) hj
  refine ⟨?_, hb, hlt, ⟨rfl, rfl, rfl⟩, rfl, ?_⟩
  · rw [Disk.ref_of_le hx hk, v.flush_dinode]
    exact hempty
  · have ht : (v.ip.setAddr k b).type ≠ .free := h.type_ne
    rw [hflush, Disk.ref_put (d := v.flush.claim b) hx ht hself, h.disk.ref_claim hb,
      Dinode.ref_setAddr_self _ _ hk]

theorem View.Wf.grow_setAddr (h : v.Wf sb) (hk : k ≤ NDIRECT) (hempty : v.ip.addrs k = 0)
    (hb : v.disk.bitmap b = false) (hlt : b < sb.size) (A : ℕ → Prop) :
    v.Grows sb A { v with disk := v.disk.claim b, ip := v.ip.setAddr k b } :=
  (h.takes_setAddr hk hempty hb hlt).grows h
    (fun e _ _ => Disk.claim_data_of_ne (h.disk.ref_ne hb e)) (fun _ => update_self _ _ _) A

variable {ind j : ℕ}

/-- The inode takes the free block `b` at place `j` of its indirect block. -/
theorem View.Wf.takes_setWord (h : v.Wf sb) (hi : v.ip.addrs NDIRECT = ind) (hind : ind ≠ 0)
    (hj : j < NINDIRECT) (hempty : word (v.disk.data ind) j = 0) (hb : v.disk.bitmap b = false)
    (hlt : b < sb.size) : v.Takes sb (NDIRECT + 1 + j) b
      { v with disk := (v.disk.claim b).setData ind (writeLe 4 (v.disk.data ind) (4 * j) b) } := by
  have hx := h.allocated
  have hle : NDIRECT + 1 + j ≤ MAXFILE := by
    rw [Nat.add_assoc, Nat.add_comm 1]
    exact Nat.add_le_add_left hj _
  have href : v.flush.ref sb (v.inum, NDIRECT) = ind := by
    rw [Disk.ref_of_le hx (Nat.le_refl _), v.flush_dinode, hi]
  have hindb : ind ≠ b := href ▸ h.disk.ref_ne hb _
  have hclaim : (v.flush.claim b).data ind = v.disk.data ind := Disk.claim_data_of_ne hindb
  refine ⟨?_, hb, hlt, ⟨rfl, rfl, rfl⟩, rfl, ?_⟩
  · rw [Disk.ref_of_allocated hx, v.flush_dinode, Dinode.ref, if_neg (by omega), hi,
      if_pos ⟨hle, hind⟩, Nat.add_sub_cancel_left]
    exact hempty
  · have hother (y : ℕ) (hy : (v.flush.claim b).ref sb (y, NDIRECT) = ind) : y = v.inum := by
      rw [h.disk.ref_claim hb] at hy
      exact (Prod.mk.inj (h.disk.owns.inj _ _ (hy ▸ hind) (hy.trans href.symm))).1
    rw [← h.disk.ref_claim hb, ← Disk.ref_setWord (d := v.flush.claim b) hx
      (v.flush_dinode ▸ hi) hind hother hj (Nat.lt_of_lt_of_le hlt sb.size_le), hclaim]
    rfl

theorem View.Wf.grow_setWord (h : v.Wf sb) (hi : v.ip.addrs NDIRECT = ind) (hind : ind ≠ 0)
    (hj : j < NINDIRECT) (hempty : word (v.disk.data ind) j = 0) (hb : v.disk.bitmap b = false)
    (hlt : b < sb.size) (A : ℕ → Prop) : v.Grows sb A
      { v with disk := (v.disk.claim b).setData ind (writeLe 4 (v.disk.data ind) (4 * j) b) } := by
  have href : v.flush.ref sb (v.inum, NDIRECT) = ind := by
    rw [Disk.ref_of_le h.allocated (Nat.le_refl _), v.flush_dinode, hi]
  have hindb : ind ≠ b := href ▸ h.disk.ref_ne hb _
  refine (h.takes_setWord hi hind hj hempty hb hlt).grows h (fun e he hne => ?_) (fun _ => ?_) A
  · have hei : v.flush.ref sb e ≠ ind := fun heq =>
      hne (Prod.mk.inj (h.disk.owns.inj e (v.inum, NDIRECT) he (heq.trans href.symm))).2
    rw [← Disk.claim_data_of_ne (d := v.disk) (h.disk.ref_ne hb e)]
    exact update_of_ne hei _ _
  · exact (update_of_ne hindb.symm _ _).trans (update_self _ _ _)

variable {ip : Dinode} {data : ℕ → Block}

theorem Dinode.ref_direct (hbn : bn < NDIRECT) :
    ip.ref data (place bn) = ip.addrs bn := by
  rw [place, if_pos hbn, Dinode.ref, if_pos (Nat.le_of_lt hbn)]

/-- The place of an indirect block's entry. -/
theorem Dinode.ref_indirect (hj : j < NINDIRECT) :
    ip.ref data (place (NDIRECT + j)) =
      if ip.addrs NDIRECT ≠ 0 then word (data (ip.addrs NDIRECT)) j else 0 := by
  have hplace : place (NDIRECT + j) = NDIRECT + 1 + j := by
    rw [place, if_neg (by omega)]
    omega
  have hle : NDIRECT + 1 + j ≤ MAXFILE := by
    rw [Nat.add_assoc, Nat.add_comm 1]
    exact Nat.add_le_add_left hj _
  rw [hplace, Dinode.ref, if_neg (by omega), Nat.add_sub_cancel_left]
  exact if_congr (and_iff_right hle) rfl rfl

theorem View.Wf.ref_eq (h : v.Wf sb) (k : ℕ) :
    v.flush.ref sb (v.inum, k) = v.ip.ref v.disk.data k := by
  rw [Disk.ref_of_allocated h.allocated, v.flush_dinode]
  rfl

theorem View.Wf.ref_indirect (h : v.Wf sb) (hind : v.ip.addrs NDIRECT ≠ 0) (hj : j < NINDIRECT) :
    v.flush.ref sb (v.inum, place (NDIRECT + j)) = word (v.disk.data (v.ip.addrs NDIRECT)) j := by
  rw [h.ref_eq, Dinode.ref_indirect hj, if_pos hind]

theorem View.Wf.ref_direct (h : v.Wf sb) (hbn : bn < NDIRECT) :
    v.flush.ref sb (v.inum, place bn) = v.ip.addrs bn := by
  rw [h.ref_eq, Dinode.ref_direct hbn]

theorem bmapIndirect_spec (h : v.Wf sb) (hi : v.ip.addrs NDIRECT = ind) (hind : ind ≠ 0)
    (hj : j < NINDIRECT) (A : ℕ → Prop) : ∃ a v', bmapIndirect sb v ind j = (a, v') ∧
      v.Grows sb A v' ∧ (a ≠ 0 → v'.flush.ref sb (v'.inum, place (NDIRECT + j)) = a) := by
  rw [bmapIndirect]
  by_cases hw : word (v.disk.data ind) j = 0
  · rw [if_pos hw]
    obtain hfull | ⟨b, hb₀, hb, hlt, hb'⟩ := h.balloc_cases
    · rw [hfull]
      exact ⟨0, v, rfl, .refl h, fun h₀ => absurd rfl h₀⟩
    · have hgrow := h.grow_setWord hi hind hj hw hb hlt A
      rw [hb']
      refine ⟨b, _, if_neg hb₀, hgrow, fun _ => ?_⟩
      rw [hgrow.wf.ref_indirect (hi ▸ hind) hj]
      have hself : ((v.disk.claim b).setData ind (writeLe 4 (v.disk.data ind) (4 * j) b)).data
          (v.ip.addrs NDIRECT) = writeLe 4 (v.disk.data ind) (4 * j) b := by
        rw [hi]
        exact update_self _ _ _
      rw [hself]
      exact readLe_writeLe (Nat.lt_of_lt_of_le hlt sb.size_le)
  · rw [if_neg hw]
    refine ⟨_, v, rfl, .refl h, fun _ => ?_⟩
    rw [h.ref_indirect (hi ▸ hind) hj, hi]

/-- **`bmap` allocates at most what is asked for.** It does not panic on a block number in range,
and a result other than `0` is the block the inode now has there. -/
theorem bmap_spec (h : v.Wf sb) (hbn : bn < MAXFILE) (A : ℕ → Prop) :
    ∃ a v', bmap sb v bn = .ok (a, v') ∧ v.Grows sb A v' ∧
      (a ≠ 0 → v'.flush.ref sb (v'.inum, place bn) = a) := by
  rw [bmap]
  by_cases hd : bn < NDIRECT
  · rw [if_pos hd]
    by_cases ha : v.ip.addrs bn = 0
    · rw [if_pos ha]
      obtain hfull | ⟨b, hb₀, hb, hlt, hb'⟩ := h.balloc_cases
      · rw [hfull]
        exact ⟨0, v, rfl, .refl h, fun h₀ => absurd rfl h₀⟩
      · have hgrow := h.grow_setAddr (Nat.le_of_lt hd) ha hb hlt A
        rw [hb']
        refine ⟨b, _, if_neg hb₀, hgrow, fun _ => ?_⟩
        rw [hgrow.wf.ref_direct hd]
        exact Dinode.setAddr_self _ _ _
    · rw [if_neg ha]
      exact ⟨_, v, rfl, .refl h, fun _ => h.ref_direct hd⟩
  · obtain ⟨j, rfl⟩ := Nat.exists_eq_add_of_le (Nat.le_of_not_lt hd)
    have hj : j < NINDIRECT := Nat.lt_of_add_lt_add_left hbn
    rw [if_neg hd, Nat.add_sub_cancel_left, if_pos hj]
    by_cases ha : v.ip.addrs NDIRECT = 0
    · rw [if_pos ha]
      obtain hfull | ⟨b, hb₀, hb, hlt, hb'⟩ := h.balloc_cases
      · rw [hfull]
        exact ⟨0, v, rfl, .refl h, fun h₀ => absurd rfl h₀⟩
      · have hgrow := h.grow_setAddr (Nat.le_refl _) ha hb hlt A
        obtain ⟨a, v', heq, hgrow', href⟩ :=
          bmapIndirect_spec hgrow.wf (Dinode.setAddr_self _ _ _) hb₀ hj A
        rw [hb']
        exact ⟨a, v', (if_neg hb₀).trans (congrArg _ heq), hgrow.trans hgrow', href⟩
    · rw [if_neg ha]
      obtain ⟨a, v', heq, hgrow, href⟩ := bmapIndirect_spec h rfl ha hj A
      exact ⟨a, v', congrArg _ heq, hgrow, href⟩

/-- A block that is there is found, and nothing is changed. -/
theorem bmap_of_present (hbn : bn < MAXFILE) (hr : v.ip.ref v.disk.data (place bn) ≠ 0) :
    bmap sb v bn = .ok (v.ip.ref v.disk.data (place bn), v) := by
  rw [bmap]
  by_cases hd : bn < NDIRECT
  · rw [Dinode.ref_direct hd] at hr ⊢
    rw [if_pos hd, if_neg hr]
  · obtain ⟨j, rfl⟩ := Nat.exists_eq_add_of_le (Nat.le_of_not_lt hd)
    have hj : j < NINDIRECT := Nat.lt_of_add_lt_add_left hbn
    rw [Dinode.ref_indirect hj] at hr ⊢
    have ha : v.ip.addrs NDIRECT ≠ 0 := fun ha => hr (if_neg (not_not_intro ha))
    rw [if_pos ha] at hr ⊢
    rw [if_neg hd, Nat.add_sub_cancel_left, if_pos hj, if_neg ha, bmapIndirect, if_neg hr]

theorem bmap_of_ref_ne (h : v.Wf sb) (hbn : bn < MAXFILE)
    (hr : v.flush.ref sb (v.inum, place bn) ≠ 0) :
    bmap sb v bn = .ok (v.flush.ref sb (v.inum, place bn), v) := by
  rw [h.ref_eq] at hr ⊢
  exact bmap_of_present hbn hr

/-! ### Truncation -/

theorem bfree_of_marked (h : d.bitmap b = true) :
    bfree d b = .ok { d with bitmap := update d.bitmap b false } := if_pos h

/-- The blocks of some places are given back. -/
theorem bfreeAll_spec {lo hi : ℕ} {f : ℕ × ℕ → ℕ} {places : List (ℕ × ℕ)} (hnodup : places.Nodup)
    (h : Owns lo hi f d.bitmap) : ∃ bits, bfreeAll (places.map f) d =
    .ok { d with bitmap := bits } ∧
      Owns lo hi (fun e => if e ∈ places then 0 else f e) bits := by
  induction places generalizing f d with
  | nil => exact ⟨d.bitmap, rfl, h⟩
  | cons p ps ih =>
    obtain ⟨hp, hps⟩ := List.nodup_cons.mp hnodup
    rw [List.map_cons, bfreeAll]
    by_cases hr : f p = 0
    · obtain ⟨bits, hok, howns⟩ := ih hps h
      have heq : (fun e => if e ∈ p :: ps then 0 else f e) = fun e =>
          if e ∈ ps then 0 else f e := by
        funext e
        by_cases he : e = p
        · rw [he, hr, ite_self, ite_self]
        · simp only [List.mem_cons, he, false_or]
      rw [if_pos hr, heq]
      exact ⟨bits, hok, howns⟩
    · obtain ⟨bits, hok, howns⟩ := ih (f := update f p 0) hps
        (d := { d with bitmap := update d.bitmap (f p) false }) (h.drop hr)
      have hmap : ps.map (update f p 0) = ps.map f :=
        List.map_congr_left fun e he => update_of_ne (ne_of_mem_of_not_mem he hp) _ _
      have heq : (fun e => if e ∈ p :: ps then 0 else f e) =
          fun e => if e ∈ ps then 0 else update f p 0 e := by
        funext e
        by_cases he : e = p
        · rw [he, if_pos List.mem_cons_self, update_self, ite_self]
        · simp only [List.mem_cons, he, false_or, update_of_ne he]
      rw [if_neg hr, bfree_of_marked (h.used_of_ref hr), heq]
      rw [hmap] at hok
      exact ⟨bits, hok, howns⟩

/-- The places of inode `x` that `itrunc` empties, in the order of its loops. -/
def directPlaces (x : ℕ) : List (ℕ × ℕ) := (List.range NDIRECT).map fun i => (x, i)

/-- The places in the indirect block of inode `x`. -/
def indirectPlaces (x : ℕ) : List (ℕ × ℕ) :=
  (List.range NINDIRECT).map fun j => (x, NDIRECT + 1 + j)

theorem directPlaces_nodup (x : ℕ) : (directPlaces x).Nodup :=
  List.Nodup.map (fun _ _ h => (Prod.mk.inj h).2) List.nodup_range

theorem indirectPlaces_nodup (x : ℕ) : (indirectPlaces x).Nodup :=
  List.Nodup.map (fun _ _ h => Nat.add_left_cancel (Prod.mk.inj h).2) List.nodup_range

theorem mem_directPlaces {e : ℕ × ℕ} : e ∈ directPlaces x ↔ e.1 = x ∧ e.2 < NDIRECT := by
  rw [directPlaces, List.mem_map]
  refine ⟨?_, fun ⟨hx, hk⟩ => ⟨e.2, List.mem_range.mpr hk, by rw [← hx]⟩⟩
  rintro ⟨i, hi, rfl⟩
  exact ⟨rfl, List.mem_range.mp hi⟩

theorem maxfile_eq : MAXFILE = NDIRECT + NINDIRECT := rfl

theorem mem_indirectPlaces {e : ℕ × ℕ} :
    e ∈ indirectPlaces x ↔ e.1 = x ∧ NDIRECT < e.2 ∧ e.2 ≤ MAXFILE := by
  rw [indirectPlaces, List.mem_map]
  constructor
  · rintro ⟨j, hj, rfl⟩
    have hj : j < NINDIRECT := List.mem_range.mp hj
    rw [maxfile_eq]
    exact ⟨rfl, by omega, by omega⟩
  · rintro ⟨hx, hlo, hhi⟩
    rw [maxfile_eq] at hhi
    refine ⟨e.2 - (NDIRECT + 1), List.mem_range.mpr (by omega), ?_⟩
    rw [← hx, Nat.add_sub_cancel' hlo]

theorem Dinode.ref_of_addr_eq_zero (h : ip.addrs NDIRECT = 0)
    (hk : NDIRECT ≤ k) : ip.ref data k = 0 := by
  rw [Dinode.ref]
  by_cases hk' : k ≤ NDIRECT
  · rw [if_pos hk', Nat.le_antisymm hk' hk, h]
  · rw [if_neg hk', if_neg fun hc => hc.2 h]

theorem Dinode.ref_of_lt (hk : MAXFILE < k) : ip.ref data k = 0 := by
  have hd : ¬ k ≤ NDIRECT := Nat.not_le.mpr (Nat.lt_of_le_of_lt (Nat.le_add_right _ _) hk)
  rw [Dinode.ref, if_neg hd, if_neg fun hc => Nat.not_lt.mpr hc.1 hk]

/-- The inode is left empty, and the bitmap is `bits`. -/
def View.truncated (v : View) (bits : ℕ → Bool) : View :=
  iupdate { v with disk := { v.disk with bitmap := bits }, ip := v.ip.emptied }

/-- The loops of `itrunc` give back every block of the inode. -/
theorem itrunc_eq (h : v.Wf sb) : ∃ bits, itrunc v = .ok (v.truncated bits) ∧
    Owns sb.firstData sb.size (fun e => if e.1 = v.inum then 0 else v.flush.ref sb e) bits := by
  have hx := h.allocated
  have hdirect : (List.range NDIRECT).map v.ip.addrs = (directPlaces v.inum).map
      (v.flush.ref sb) := by
    rw [directPlaces, List.map_map]
    refine List.map_congr_left fun i hi => ?_
    rw [Function.comp_apply, Disk.ref_of_le hx (Nat.le_of_lt (List.mem_range.mp hi)),
      v.flush_dinode]
  have hind : v.flush.ref sb (v.inum, NDIRECT) = v.ip.addrs NDIRECT := by
    rw [Disk.ref_of_le hx (Nat.le_refl _), v.flush_dinode]
  obtain ⟨bits, hok, howns⟩ := bfreeAll_spec (d := v.disk) (directPlaces_nodup v.inum) h.disk.owns
  rw [itrunc, hdirect, hok]
  by_cases hi : v.ip.addrs NDIRECT = 0
  · refine ⟨bits, ?_, ?_⟩
    · change (if v.ip.addrs NDIRECT = 0 then _ else _ : Except Stop View) = _
      rw [if_pos hi]
      rfl
    · have heq : (fun e => if e ∈ directPlaces v.inum then 0 else v.flush.ref sb e) =
          fun e => if e.1 = v.inum then 0 else v.flush.ref sb e := by
        funext ⟨y, k⟩
        by_cases hy : y = v.inum
        · rw [if_pos hy, hy]
          by_cases hk : k < NDIRECT
          · exact if_pos (mem_directPlaces.mpr ⟨rfl, hk⟩)
          · rw [Disk.ref_of_allocated hx, v.flush_dinode,
              Dinode.ref_of_addr_eq_zero hi (Nat.le_of_not_lt hk), ite_self]
        · rw [if_neg hy, if_neg fun hm => hy (mem_directPlaces.mp hm).1]
      rwa [heq] at howns
  · have hne (j : ℕ) : (v.inum, NDIRECT + 1 + j) ∉ directPlaces v.inum := fun hm => by
      have := (mem_directPlaces.mp hm).2
      omega
    have hentries : (List.range NINDIRECT).map (word (v.disk.data (v.ip.addrs NDIRECT))) =
        (indirectPlaces v.inum).map fun e =>
          if e ∈ directPlaces v.inum then 0 else v.flush.ref sb e := by
      rw [indirectPlaces, List.map_map]
      refine List.map_congr_left fun j hj => ?_
      rw [Function.comp_apply, if_neg (hne j), ← h.ref_indirect hi (List.mem_range.mp hj), place,
        if_neg (by omega), Nat.add_right_comm]
    obtain ⟨bits₂, hok₂, howns₂⟩ :=
      bfreeAll_spec (d := { v.disk with bitmap := bits }) (indirectPlaces_nodup v.inum) howns
    rw [← hentries] at hok₂
    have hplace : (if (v.inum, NDIRECT) ∈ indirectPlaces v.inum then 0 else
        if (v.inum, NDIRECT) ∈ directPlaces v.inum then 0 else v.flush.ref sb (v.inum, NDIRECT)) =
        v.ip.addrs NDIRECT := by
      rw [if_neg fun hm => Nat.lt_irrefl _ (mem_indirectPlaces.mp hm).2.1,
        if_neg fun hm => Nat.lt_irrefl _ (mem_directPlaces.mp hm).2, hind]
    have hmark : bits₂ (v.ip.addrs NDIRECT) = true := by
      rw [← hplace]
      exact howns₂.used_of_ref (i := (v.inum, NDIRECT)) (by rwa [hplace])
    have hdrop := howns₂.drop (i := (v.inum, NDIRECT)) (by rwa [hplace])
    rw [hplace] at hdrop
    refine ⟨update bits₂ (v.ip.addrs NDIRECT) false, ?_, ?_⟩
    · change (if v.ip.addrs NDIRECT = 0 then _ else _ : Except Stop View) = _
      rw [if_neg hi]
      have hbfree := bfree_of_marked (d := { v.disk with bitmap := bits₂ }) hmark
      rw [hok₂]
      change (bfree { v.disk with bitmap := bits₂ } (v.ip.addrs NDIRECT) >>= _) = _
      rw [hbfree]
      rfl
    · have heq : update (fun e => if e ∈ indirectPlaces v.inum then 0 else
          if e ∈ directPlaces v.inum then 0 else v.flush.ref sb e) (v.inum, NDIRECT) 0 =
          fun e => if e.1 = v.inum then 0 else v.flush.ref sb e := by
        funext ⟨y, k⟩
        by_cases hy : y = v.inum
        · subst hy
          rw [if_pos rfl]
          by_cases hk : k = NDIRECT
          · rw [hk, update_self]
          rw [update_of_ne fun he => hk (Prod.mk.inj he).2]
          by_cases hin : (v.inum, k) ∈ indirectPlaces v.inum
          · rw [if_pos hin]
          by_cases hdir : (v.inum, k) ∈ directPlaces v.inum
          · rw [if_neg hin, if_pos hdir]
          have hlt : MAXFILE < k := by
            rw [mem_indirectPlaces] at hin
            rw [mem_directPlaces] at hdir
            by_contra hle
            exact hin ⟨rfl, by omega, by omega⟩
          rw [if_neg hin, if_neg hdir, Disk.ref_of_allocated hx, Dinode.ref_of_lt hlt]
        · rw [if_neg hy, update_of_ne fun he => hy (Prod.mk.inj he).1,
            if_neg fun hm => hy (mem_indirectPlaces.mp hm).1,
            if_neg fun hm => hy (mem_directPlaces.mp hm).1]
      rwa [heq] at hdrop

theorem View.truncated_flush (v : View) (bits : ℕ → Bool) :
    (v.truncated bits).flush = (v.truncated bits).disk := Disk.put_put ..

theorem View.truncated_dinode_of_ne {bits : ℕ → Bool} (h : y ≠ v.inum) :
    (v.truncated bits).disk.dinode y = v.flush.dinode y :=
  (Disk.put_of_ne h).trans (Disk.put_of_ne h).symm

theorem Dinode.ref_emptied (ip : Dinode) (data : ℕ → Block) (k : ℕ) :
    ip.emptied.ref data k = 0 := by
  by_cases hk : k ≤ NDIRECT
  · rw [Dinode.ref, if_pos hk]
    exact if_pos hk
  · exact Dinode.ref_of_addr_eq_zero rfl (Nat.le_of_not_le hk)

/-- An inode that has been truncated refers to no block, and the others to what they did. -/
theorem View.Wf.ref_truncated (h : v.Wf sb) (bits : ℕ → Bool) (e : ℕ × ℕ) :
    (v.truncated bits).disk.ref sb e = if e.1 = v.inum then 0 else v.flush.ref sb e := by
  obtain ⟨y, k⟩ := e
  by_cases hy : y = v.inum
  · have ht : v.ip.emptied.type ≠ .free := h.type_ne
    rw [if_pos hy, hy, ← v.ip.ref_emptied v.disk.data k]
    exact Disk.ref_put_self h.lt ht
  · rw [if_neg hy, View.flush, Disk.ref_put_of_ne hy]
    exact Disk.ref_put_of_ne hy

/-- **`itrunc` gives every block back.** It does not panic, and ownership holds after it. -/
theorem itrunc_spec (h : v.Wf sb) :
    ∃ bits, itrunc v = .ok (v.truncated bits) ∧ (v.truncated bits).Wf sb := by
  obtain ⟨bits, hok, howns⟩ := itrunc_eq h
  have hfl := v.truncated_flush bits
  have hdin : (v.truncated bits).disk.dinode v.inum = v.ip.emptied := Disk.put_self ..
  refine ⟨bits, hok, h.lt, h.type_ne, ?_⟩
  rw [hfl]
  refine ⟨?_, fun y hy bn hbn => ?_, fun y hy => ?_⟩
  · rw [funext (h.ref_truncated bits)]
    exact howns
  · by_cases hyx : y = v.inum
    · rw [hyx, hdin] at hbn
      exact absurd hbn (Nat.not_lt_zero _)
    · rw [Disk.Allocated, View.truncated_dinode_of_ne hyx] at hy
      rw [View.truncated_dinode_of_ne hyx] at hbn
      rw [h.ref_truncated, if_neg hyx]
      exact h.disk.full y hy bn hbn
  · by_cases hyx : y = v.inum
    · rw [hyx, hdin]
      exact Nat.zero_le _
    · rw [Disk.Allocated, View.truncated_dinode_of_ne hyx] at hy
      rw [View.truncated_dinode_of_ne hyx]
      exact h.disk.size_le y hy

end Xv6.Fs
