import Xv6.Fs.Content

/-!
# Inodes as byte arrays

`writei`, `readi` and `itrunc` on any inodes, in any order. The caller has the inode locked, and the
copy of it in memory is the one on the disk, as it is after `ilock`. The buffers are valid.

A write needs a free block for each place that it fills: those of its data blocks that are not
there, and that of the indirect block. If there are as many, nothing fails. Each inode is then a
list of bytes, and an operation on one inode changes no other.
-/

namespace Xv6.Fs

open Function (update update_self update_of_ne)

variable {sb : Superblock} {d d' : Disk} {v v' : View} {x y k b bn n off tot fuel : ℕ}

/-! ### Enough blocks -/

/-- There are as many free blocks as there are empty places in `P`. -/
def View.Enough (sb : Superblock) (P : Finset (ℕ × ℕ)) (v : View) : Prop :=
  emptyCount (v.flush.ref sb) P ≤ freeCount v.disk.bitmap sb.size

section

variable {P : Finset (ℕ × ℕ)}

/-- An empty place is filled. -/
theorem View.Takes.enough (ht : v.Takes sb k b v') (hb : b ≠ 0) (hk : (v.inum, k) ∈ P)
    (h : v.Enough sb P) : v'.Enough sb P := by
  have hempty := emptyCount_take hk ht.empty hb
  have hfree := freeCount_take ht.free ht.lt
  rw [View.Enough] at h ⊢
  rw [ht.ref, ht.bitmap]
  omega

theorem View.Wf.balloc_of_enough (h : v.Wf sb) (hP : v.Enough sb P) (hk : (v.inum, k) ∈ P)
    (hempty : v.flush.ref sb (v.inum, k) = 0) : ∃ b, b ≠ 0 ∧ v.disk.bitmap b = false ∧ b < sb.size ∧
      balloc sb v.disk = (b, v.disk.claim b) := by
  have hpos : 0 < freeCount v.disk.bitmap sb.size := (emptyCount_pos hk hempty).trans_le hP
  obtain hfull | hb := h.balloc_cases
  · rw [balloc] at hfull
    cases hfind : (List.range sb.size).find? fun b => !v.disk.bitmap b with
    | none =>
      rw [List.find?_eq_none] at hfind
      refine absurd (freeCount_eq_zero.mpr fun b hb => ?_) hpos.ne'
      have hb := hfind b (List.mem_range.mpr hb)
      rwa [Bool.not_eq_true', Bool.not_eq_false] at hb
    | some b =>
      rw [hfind] at hfull
      have hb : b = 0 := (Prod.mk.inj hfull).1
      have hfree := List.find?_some (p := fun b => !v.disk.bitmap b) hfind
      have hused : v.disk.bitmap 0 = true := h.disk.owns.low 0 h.disk.owns.lo_pos
      rw [hb, hused] at hfree
      cases hfree
  · exact hb

theorem bmapIndirect_enough {ind j : ℕ} (h : v.Wf sb) (hi : v.ip.addrs NDIRECT = ind)
    (hind : ind ≠ 0)
    (hj : j < NINDIRECT) (hP : v.Enough sb P) (hk : (v.inum, place (NDIRECT + j)) ∈ P) :
    ∃ a v', bmapIndirect sb v ind j = (a, v') ∧ a ≠ 0 ∧ v'.Enough sb P := by
  have href := h.ref_indirect (hi ▸ hind) hj
  have hplace : place (NDIRECT + j) = NDIRECT + 1 + j := by
    rw [place, if_neg (by omega)]
    omega
  rw [bmapIndirect]
  by_cases hw : word (v.disk.data ind) j = 0
  · obtain ⟨b, hb₀, hb, hlt, hb'⟩ := h.balloc_of_enough hP hk (by rw [href, hi, hw])
    rw [if_pos hw, hb']
    refine ⟨b, _, if_neg hb₀, hb₀, ?_⟩
    exact (h.takes_setWord hi hind hj hw hb hlt).enough hb₀ (hplace ▸ hk) hP
  · rw [if_neg hw]
    exact ⟨_, v, rfl, hw, hP⟩

/-- With enough free blocks, `bmap` gives a block. -/
theorem bmap_enough (h : v.Wf sb) (hbn : bn < MAXFILE) (hP : v.Enough sb P)
    (hk : (v.inum, place bn) ∈ P) (hind : NDIRECT ≤ bn → (v.inum, NDIRECT) ∈ P) :
    ∃ a v', bmap sb v bn = .ok (a, v') ∧ a ≠ 0 ∧ v'.Enough sb P := by
  rw [bmap]
  by_cases hd : bn < NDIRECT
  · rw [if_pos hd]
    by_cases ha : v.ip.addrs bn = 0
    · obtain ⟨b, hb₀, hb, hlt, hb'⟩ := h.balloc_of_enough hP hk (by rw [h.ref_direct hd, ha])
      have hplace : place bn = bn := if_pos hd
      rw [if_pos ha, hb']
      refine ⟨b, _, if_neg hb₀, hb₀, ?_⟩
      exact (h.takes_setAddr (Nat.le_of_lt hd) ha hb hlt).enough hb₀ (hplace ▸ hk) hP
    · rw [if_neg ha]
      exact ⟨_, v, rfl, ha, hP⟩
  · obtain ⟨j, rfl⟩ := Nat.exists_eq_add_of_le (Nat.le_of_not_lt hd)
    have hj : j < NINDIRECT := Nat.lt_of_add_lt_add_left hbn
    rw [if_neg hd, Nat.add_sub_cancel_left, if_pos hj]
    by_cases ha : v.ip.addrs NDIRECT = 0
    · have hN := hind (Nat.le_add_right _ _)
      obtain ⟨b, hb₀, hb, hlt, hb'⟩ := h.balloc_of_enough hP hN (by
        rw [Disk.ref_of_le h.allocated (Nat.le_refl _), v.flush_dinode, ha])
      have ht := h.takes_setAddr (Nat.le_refl _) ha hb hlt
      obtain ⟨a, v', heq, ha', hP'⟩ := bmapIndirect_enough
        (h.grow_setAddr (Nat.le_refl _) ha hb hlt fun _ => False).wf (Dinode.setAddr_self _ _ _)
        hb₀ hj (ht.enough hb₀ hN hP) hk
      rw [if_pos ha, hb']
      exact ⟨a, v', (if_neg hb₀).trans (congrArg _ heq), ha', hP'⟩
    · obtain ⟨a, v', heq, ha', hP'⟩ := bmapIndirect_enough h rfl ha hj hP hk
      rw [if_neg ha]
      exact ⟨a, v', congrArg _ heq, ha', hP'⟩

/-- With enough free blocks, the loop of `writei` goes through. -/
theorem writeiLoop_full (h : v.Wf sb) (src : ℕ → Byte) (tot off : ℕ) (hfuel : n - tot ≤ fuel)
    (htot : tot ≤ n) (hmax : off + (n - tot) ≤ MAXFILE * BSIZE) (hP : v.Enough sb P)
    (hrange : ∀ bn, off / BSIZE ≤ bn → bn * BSIZE < off + (n - tot) → tot < n →
      (v.inum, place bn) ∈ P ∧ (NDIRECT ≤ bn → (v.inum, NDIRECT) ∈ P)) :
    ∃ v', writeiLoop sb (fun i => some (src i)) n fuel tot off v =
    .ok ((n, off + (n - tot)), v') := by
  induction fuel generalizing tot off v with
  | zero =>
    obtain rfl : tot = n := by omega
    rw [Nat.sub_self]
    exact ⟨v, rfl⟩
  | succ fuel ih =>
    rw [writeiLoop]
    by_cases hlt : tot < n
    · have hdiv : off / BSIZE < MAXFILE := Nat.div_lt_of_lt_mul (by rw [Nat.mul_comm]; omega)
      have hle : off / BSIZE * BSIZE < off + (n - tot) := by
        have := Nat.div_mul_le_self off BSIZE
        omega
      obtain ⟨hk, hind⟩ := hrange _ (Nat.le_refl _) hle hlt
      obtain ⟨a, v₁, hbmap, ha, hP₁⟩ := bmap_enough h hdiv hP hk hind
      obtain ⟨a', v₁', hbmap', hgrows, href⟩ := bmap_spec h hdiv fun _ => False
      obtain ⟨rfl, rfl⟩ : a = a' ∧ v₁ = v₁' := by
        rw [hbmap] at hbmap'
        exact Prod.mk.inj (Except.ok.inj hbmap')
      generalize hm : min (n - tot) (BSIZE - off % BSIZE) = m
      have hmod := Nat.mod_lt off (show 0 < BSIZE by decide)
      have hsum : off + m + (n - (tot + m)) = off + (n - tot) := by omega
      have hstore := hgrows.wf.setData (A := fun _ => True) (off / BSIZE)
        (copyin (v₁.disk.data a) (off % BSIZE) (fun i => some (src i)) tot m)
        fun pos _ hA => absurd trivial hA
      rw [href ha] at hstore
      have hinum : v₁.inum = v.inum := hgrows.same.inum
      have hP₂ : View.Enough sb P (v₁.store a (copyin (v₁.disk.data a) (off % BSIZE)
          (fun i => some (src i)) tot m)) := by
        refine Nat.le_trans (emptyCount_mono fun e he => ?_) hP₁
        rwa [hstore.keeps.ref e he]
      obtain ⟨v', hv'⟩ := ih hstore.wf (tot + m) (off + m) (by omega) (by omega) (by omega) hP₂
        fun bn hbn hlt' htot' => by
          rw [show (v₁.store a _).inum = v.inum from hinum]
          refine hrange bn (Nat.le_trans (Nat.div_le_div_right (Nat.le_add_right _ _)) hbn) ?_ hlt
          rwa [hsum] at hlt'
      rw [if_pos hlt, hbmap]
      refine ⟨v', ?_⟩
      change (if a = 0 then _ else _ : Except Stop _) = _
      rw [if_neg ha, if_pos (mapped_of_total (fun _ => rfl) tot m), hv', hsum]
    · obtain rfl : tot = n := by omega
      rw [if_neg hlt, Nat.sub_self]
      exact ⟨v, rfl⟩

end

/-- The places that a write of `n` bytes at `off` fills: those of its blocks, and that of the
indirect block if there is a block beyond the direct ones. -/
def writePlaces (x off n : ℕ) : Finset (ℕ × ℕ) :=
  if n = 0 then ∅
  else
    (((Finset.range MAXFILE).filter fun bn => off / BSIZE ≤ bn ∧ bn * BSIZE < off + n).image
        fun bn => (x, place bn)) ∪
      if NDIRECT * BSIZE < off + n then {(x, NDIRECT)} else ∅

theorem mem_writePlaces (hlo : off / BSIZE ≤ bn) (hlt : bn * BSIZE < off + n) (hn : 0 < n)
    (hmax : off + n ≤ MAXFILE * BSIZE) :
    (x, place bn) ∈ writePlaces x off n ∧ (NDIRECT ≤ bn → (x, NDIRECT) ∈ writePlaces x off n) := by
  have hbn : bn < MAXFILE := Nat.lt_of_mul_lt_mul_right (Nat.lt_of_lt_of_le hlt hmax)
  rw [writePlaces, if_neg hn.ne']
  refine ⟨Finset.mem_union_left _ (Finset.mem_image.mpr ⟨bn, ?_, rfl⟩), fun hle => ?_⟩
  · exact Finset.mem_filter.mpr ⟨Finset.mem_range.mpr hbn, hlo, hlt⟩
  · have hle := Nat.mul_le_mul_right BSIZE hle
    rw [if_pos (Nat.lt_of_le_of_lt hle hlt)]
    exact Finset.mem_union_right _ (Finset.mem_singleton_self _)

/-- **With enough free blocks all is written.** -/
theorem writei_full (h : v.Wf sb) (src : ℕ → Byte) (hoff : off ≤ v.ip.size)
    (hmax : off + n ≤ MAXFILE * BSIZE) (hP : v.Enough sb (writePlaces v.inum off n)) :
    ∃ v', writei sb v (fun i => some (src i)) off n =
        .ok (↑n, iupdate (v'.setSize (max v.ip.size (off + n)))) ∧
      Wrote sb (fun i => some (src i)) 0 off n v v' ∧
      (v'.setSize (max v.ip.size (off + n))).Wf sb := by
  have hwrap : off + n < 2 ^ 32 := Nat.lt_of_le_of_lt hmax (by decide)
  have hin : ¬ (v.ip.size < off ∨ (off + n) % 2 ^ 32 < off) := by
    rw [Nat.mod_eq_of_lt hwrap]
    omega
  obtain ⟨v', hloop⟩ := writeiLoop_full h src 0 off (Nat.le_refl n) (Nat.zero_le n) hmax hP
    fun bn hlo hlt hn => mem_writePlaces hlo hlt hn hmax
  have hwritei : ∃ v'', writei sb v (fun i => some (src i)) off n = .ok (↑n, v'') := by
    rw [writei, if_neg hin, if_neg (Nat.not_lt.mpr hmax), hloop]
    exact ⟨_, rfl⟩
  obtain ⟨v'', hwritei⟩ := hwritei
  obtain heq | ⟨-, k, t, v₁, heq, -, hwrote, hwf, hends, -⟩ :=
    writei_spec h (fun i => some (src i)) off n
  · rw [heq] at hwritei
    have hneg := (Prod.mk.inj (Except.ok.inj hwritei)).1
    omega
  · have hk : k = n := by
      rw [heq] at hwritei
      exact Int.ofNat_inj.mp (Prod.mk.inj (Except.ok.inj hwritei)).1
    subst hk
    obtain rfl := hends.of_total fun _ => rfl
    exact ⟨v₁, heq, hwrote, hwf⟩

/-- A write inside the file needs no block. -/
theorem View.Wf.enough_inside (h : v.Wf sb) (hle : off + n ≤ v.ip.size) :
    v.Enough sb (writePlaces v.inum off n) := by
  have hfull (bn : ℕ) (hbn : bn * BSIZE < off + n) : v.flush.ref sb (v.inum, place bn) ≠ 0 :=
    h.disk.full v.inum h.allocated bn (by rw [v.flush_dinode]; exact Nat.lt_of_lt_of_le hbn hle)
  have hzero : emptyCount (v.flush.ref sb) (writePlaces v.inum off n) = 0 := by
    rw [emptyCount, Finset.card_eq_zero, Finset.filter_eq_empty_iff]
    intro e he
    rw [writePlaces] at he
    split_ifs at he with hn hind
    · exact absurd he (Finset.notMem_empty e)
    · rcases Finset.mem_union.mp he with he | he
      · obtain ⟨bn, hbn, rfl⟩ := Finset.mem_image.mp he
        exact hfull bn (Finset.mem_filter.mp hbn).2.2
      · rw [Finset.mem_singleton.mp he, h.ref_eq]
        have hr := hfull NDIRECT hind
        rw [h.ref_eq, show place NDIRECT = place (NDIRECT + 0) from rfl,
          Dinode.ref_indirect (by decide)] at hr
        intro ha
        rw [Dinode.ref, if_pos (Nat.le_refl _)] at ha
        exact hr (if_neg (not_not_intro ha))
    · rw [Finset.union_empty] at he
      obtain ⟨bn, hbn, rfl⟩ := Finset.mem_image.mp he
      exact hfull bn (Finset.mem_filter.mp hbn).2.2
  rw [View.Enough, hzero]
  exact Nat.zero_le _

/-! ### The operations -/

/-- An operation on an inode. The buffer of a write is given by its bytes. -/
inductive Op
  | write (x : ℕ) (off n : BitVec 32) (src : ℕ → Byte)
  | read (x : ℕ) (off n : BitVec 32)
  | trunc (x : ℕ)

/-- The inode that an operation is on. -/
def Op.inum : Op → ℕ
  | .write x _ _ _ => x
  | .read x _ _ => x
  | .trunc x => x

/-- The disk, and the copies of inodes in memory. -/
structure Inodes where
  disk : Disk
  ip : ℕ → Dinode

namespace Inodes

/-- The inode `x` is worked on. -/
def view (s : Inodes) (x : ℕ) : View := ⟨s.disk, x, s.ip x⟩

/-- The inode has been worked on. -/
def put (s : Inodes) (x : ℕ) (v : View) : Inodes := ⟨v.disk, update s.ip x v.ip⟩

end Inodes

/-- What an operation returns, and the bytes that it delivers. -/
abbrev Reply := ℤ × List Byte

/-- An operation, as the code does it. -/
def Op.run (sb : Superblock) (s : Inodes) : Op → Except Stop (Reply × Inodes)
  | .write x off n src => do
    let (r, v) ← writei sb (s.view x) (fun i => some (src i)) off.toNat n.toNat
    return ((r, []), s.put x v)
  | .read x off n => do
    let (r, v) ← readi sb (s.view x) (fun _ => true) off.toNat n.toNat
    return (r, s.put x v)
  | .trunc x => do
    let v ← itrunc (s.view x)
    return ((0, []), s.put x v)

/-- The operations of a list, one after another. -/
def runOps (sb : Superblock) : Inodes → List Op → Except Stop (List Reply × Inodes)
  | s, [] => .ok ([], s)
  | s, op :: ops => do
    let (r, s) ← op.run sb s
    let (rs, s) ← runOps sb s ops
    return (r :: rs, s)

/-- An operation on byte arrays. -/
def Op.spec (a : ℕ → List Byte) : Op → Reply × (ℕ → List Byte)
  | .write x off n src =>
    if off.toNat ≤ (a x).length ∧ off.toNat + n.toNat ≤ MAXFILE * BSIZE then
      ((n.toNat, []), update a x ((a x).take off.toNat ++ (List.range n.toNat).map src ++
        (a x).drop (off.toNat + n.toNat)))
    else ((-1, []), a)
  | .read x off n =>
    if off.toNat ≤ (a x).length ∧ off.toNat + n.toNat < 2 ^ 32 then
      let bytes := ((a x).drop off.toNat).take n.toNat
      ((bytes.length, bytes), a)
    else ((0, []), a)
  | .trunc x => ((0, []), update a x [])

/-- Operations on byte arrays, one after another. -/
def specOps : (ℕ → List Byte) → List Op → List Reply × (ℕ → List Byte)
  | a, [] => ([], a)
  | a, op :: ops =>
    let (r, a) := op.spec a
    let (rs, a) := specOps a ops
    (r :: rs, a)

/-! ### The array of an inode -/

/-- The bytes of inode `x`. -/
def Disk.array (sb : Superblock) (d : Disk) (x : ℕ) : List Byte :=
  if d.Allocated sb x then d.bytes sb x 0 (d.dinode x).size else []

theorem Disk.array_of_allocated (h : d.Allocated sb x) :
    d.array sb x = d.bytes sb x 0 (d.dinode x).size := if_pos h

theorem Disk.length_bytes : (d.bytes sb x off n).length = n := by
  rw [Disk.bytes, List.length_map, List.length_range]

theorem Disk.length_array (h : d.Allocated sb x) : (d.array sb x).length = (d.dinode x).size := by
  rw [Disk.array_of_allocated h, Disk.length_bytes]

theorem Disk.take_bytes (hn : off ≤ n) : (d.bytes sb x 0 n).take off = d.bytes sb x 0 off := by
  obtain ⟨m, rfl⟩ := Nat.exists_eq_add_of_le hn
  rw [Disk.bytes_add, List.take_left' Disk.length_bytes]

theorem Disk.drop_bytes : (d.bytes sb x 0 n).drop off = d.bytes sb x off (n - off) := by
  by_cases hn : off ≤ n
  · obtain ⟨m, rfl⟩ := Nat.exists_eq_add_of_le hn
    rw [Disk.bytes_add, List.drop_left' Disk.length_bytes, Nat.zero_add, Nat.add_sub_cancel_left]
  · rw [Nat.sub_eq_zero_of_le (Nat.le_of_not_le hn)]
    exact List.drop_eq_nil_of_le (by rw [Disk.length_bytes]; exact Nat.le_of_not_le hn)

theorem Disk.bytes_congr (h : ∀ i < n, d'.content sb x (off + i) = d.content sb x (off + i)) :
    d'.bytes sb x off n = d.bytes sb x off n :=
  List.map_congr_left fun i hi => h i (List.mem_range.mp hi)

/-- Another disk on which an inode has the same size and the same bytes. -/
theorem Disk.array_congr (htype : (d'.dinode x).type = (d.dinode x).type)
    (hsize : (d'.dinode x).size = (d.dinode x).size)
    (hbytes : d.Allocated sb x →
      ∀ pos < (d.dinode x).size, d'.content sb x pos = d.content sb x pos) :
    d'.array sb x = d.array sb x := by
  by_cases hx : d.Allocated sb x
  · have hx' : d'.Allocated sb x := ⟨hx.1, htype ▸ hx.2⟩
    rw [Disk.array_of_allocated hx, Disk.array_of_allocated hx', hsize]
    exact Disk.bytes_congr fun i hi => by
      rw [Nat.zero_add]
      exact hbytes hx i hi
  · have hx' : ¬ d'.Allocated sb x := fun h => hx ⟨h.1, htype ▸ h.2⟩
    rw [Disk.array, if_neg hx', Disk.array, if_neg hx]

/-! ### Each operation does what it does to the arrays -/

/-- Ownership holds, and the copies in memory are those on the disk. -/
structure Inodes.Ok (sb : Superblock) (s : Inodes) : Prop where
  wf : s.disk.Wf sb
  sync : ∀ x, s.ip x = s.disk.dinode x

/-- There are enough free blocks for an operation. Only a write that is not refused needs any. -/
def Op.Fits (sb : Superblock) (s : Inodes) : Op → Prop
  | .write x off n _ =>
    off.toNat ≤ (s.disk.dinode x).size → off.toNat + n.toNat ≤ MAXFILE * BSIZE →
      emptyCount (s.disk.ref sb) (writePlaces x off.toNat n.toNat) ≤ freeCount s.disk.bitmap sb.size
  | _ => True

/-- `s'` comes from `s` by an operation that returns `r`. -/
structure Op.Does (sb : Superblock) (op : Op) (s s' : Inodes) (r : Reply) : Prop where
  run : op.run sb s = .ok (r, s')
  ok : s'.Ok sb
  type : ∀ y, (s'.disk.dinode y).type = (s.disk.dinode y).type
  spec : op.spec (s.disk.array sb) = (r, s'.disk.array sb)

namespace Inodes.Ok

variable {s : Inodes}

theorem view_wf (h : s.Ok sb) (hx : s.disk.Allocated sb x) : (s.view x).Wf sb := by
  refine ⟨hx.1, ?_, ?_⟩
  · change (s.ip x).type ≠ _
    rw [h.sync]
    exact hx.2
  · rw [View.flush_of_sync (h.sync x).symm]
    exact h.wf

theorem flush_view (h : s.Ok sb) : (s.view x).flush = s.disk := View.flush_of_sync (h.sync x).symm

theorem put_view : s.put x (s.view x) = s := by
  rw [Inodes.put, Inodes.view, Function.update_eq_self]

/-- The inode is written. -/
theorem put {A : ℕ → Prop} (h : s.Ok sb) (hupd : (s.view x).Updated sb A v') :
    (s.put x v').Ok sb where
  wf := hupd.wf
  sync y := by
    by_cases hy : y = x
    · subst hy
      exact (update_self _ _ _).trans hupd.sync.symm
    · exact (update_of_ne hy _ _).trans ((h.sync y).trans (hupd.other y hy).symm)

theorem type_put {A : ℕ → Prop} (h : s.Ok sb) (hupd : (s.view x).Updated sb A v') (y : ℕ) :
    (v'.disk.dinode y).type = (s.disk.dinode y).type := by
  by_cases hy : y = x
  · subst hy
    have hsync : v'.disk.dinode y = v'.ip := hupd.sync
    rw [hsync, hupd.head, ← h.sync]
    rfl
  · exact congrArg Dinode.type (hupd.other y hy)

/-- The other inodes keep their bytes. -/
theorem array_put_of_ne {A : ℕ → Prop} (h : s.Ok sb) (hupd : (s.view x).Updated sb A v')
    (hy : y ≠ x) : v'.disk.array sb y = s.disk.array sb y := by
  have hdin : v'.disk.dinode y = s.disk.dinode y := hupd.other y hy
  refine Disk.array_congr (by rw [hdin]) (by rw [hdin]) fun halloc pos hpos => ?_
  refine hupd.keeps.content y pos ?_ fun hyx => absurd hyx hy
  exact h.wf.full y halloc _ (Nat.lt_of_le_of_lt (Nat.div_mul_le_self _ _) hpos)

/-- The bytes after a write. -/
theorem array_write {src : ℕ → Byte} (h : s.Ok sb) (hx : s.disk.Allocated sb x)
    (hoff : off ≤ (s.disk.dinode x).size)
    (hwrote : Wrote sb (fun i => some (src i)) 0 off n (s.view x) v')
    (hwf : (v'.setSize (max (s.disk.dinode x).size (off + n))).Wf sb) :
    (iupdate (v'.setSize (max (s.disk.dinode x).size (off + n)))).disk.array sb x =
      (s.disk.array sb x).take off ++ (List.range n).map src ++ (s.disk.array sb x).drop
      (off + n) := by
  have hinum : v'.inum = x := hwrote.grows.same.inum
  generalize hd' : (iupdate (v'.setSize (max (s.disk.dinode x).size (off + n)))).disk = d'
  have hflush : (v'.setSize (max (s.disk.dinode x).size (off + n))).flush = d' := hd'
  have hdin : (d'.dinode x).size = max (s.disk.dinode x).size (off + n) := by
    rw [← hflush, ← hinum]
    exact congrArg Dinode.size (View.flush_dinode _)
  have hx' : d'.Allocated sb x := by
    have halloc : d'.Allocated sb v'.inum := hflush ▸ hwf.allocated
    rwa [hinum] at halloc
  have hsize := hwrote.grows.wf.keeps_setSize (max (s.disk.dinode x).size (off + n)) fun _ => False
  rw [hflush] at hsize
  have hcontent (pos : ℕ) (hr : v'.flush.ref sb (x, place (pos / BSIZE)) ≠ 0) :
      d'.content sb x pos = v'.flush.content sb x pos :=
    hsize.content x pos hr fun _ => not_false
  have hnew (i : ℕ) (hi : i < n) : d'.content sb x (off + i) = src i := by
    have hr := hwrote.full ((off + i) / BSIZE)
      (Nat.lt_of_le_of_lt (Nat.div_mul_le_self _ _) (Nat.add_lt_add_left hi off))
    rw [hcontent _ hr]
    refine (hwrote.stored i hi).trans ?_
    rw [Nat.zero_add]
    rfl
  have hold (pos : ℕ) (hpos : pos < (s.disk.dinode x).size) (hout : ¬ (off ≤ pos ∧ pos < off + n)) :
      d'.content sb x pos = s.disk.content sb x pos := by
    have hr := h.wf.full x hx _ (Nat.lt_of_le_of_lt (Nat.div_mul_le_self _ _) hpos)
    rw [← h.flush_view (x := x)] at hr ⊢
    have hkeep := hwrote.grows.keeps.ref _ hr
    rw [hcontent pos (by rw [hkeep]; exact hr)]
    exact hwrote.grows.keeps.content x pos hr fun _ => hout
  rw [Disk.array_of_allocated hx', Disk.array_of_allocated hx, hdin, Disk.take_bytes hoff,
    Disk.drop_bytes,
    show max (s.disk.dinode x).size (off + n) =
      off + n + ((s.disk.dinode x).size - (off + n)) by omega,
    Disk.bytes_add, Disk.bytes_add, Nat.zero_add, Nat.zero_add]
  congr 1
  · congr 1
    · exact Disk.bytes_congr fun i hi => hold _ (by omega) (by omega)
    · exact List.map_congr_left fun i hi => hnew i (List.mem_range.mp hi)
  · exact Disk.bytes_congr fun i hi => hold _ (by omega) (by omega)

end Inodes.Ok

section

variable {s : Inodes}

theorem write_does {off n : BitVec 32} (h : s.Ok sb) (hx : s.disk.Allocated sb x) (src : ℕ → Byte)
    (hfits : (Op.write x off n src).Fits sb s) : ∃ r s', (Op.write x off n src).Does sb s s' r := by
  have hwf := h.view_wf hx
  have hsize : (s.view x).ip.size = (s.disk.dinode x).size := congrArg Dinode.size (h.sync x)
  have hlen := Disk.length_array hx
  by_cases hok : off.toNat ≤ (s.disk.dinode x).size ∧ off.toNat + n.toNat ≤ MAXFILE * BSIZE
  · have henough : (s.view x).Enough sb (writePlaces x off.toNat n.toNat) := by
      rw [View.Enough, h.flush_view]
      exact hfits hok.1 hok.2
    obtain ⟨v', hrun, hwrote, hwf'⟩ := writei_full hwf src (hsize ▸ hok.1) hok.2 henough
    rw [hsize] at hrun hwf'
    have hupd := hwrote.grows.updated (h.sync x).symm hwf'
    refine ⟨(n.toNat, []), _, ?_, h.put hupd, h.type_put hupd, ?_⟩
    · rw [Op.run, hrun]
      rfl
    · rw [Op.spec, hlen, if_pos hok]
      refine Prod.ext rfl (funext fun y => ?_)
      by_cases hy : y = x
      · subst hy
        exact (update_self _ _ _).trans (h.array_write hx hok.1 hwrote hwf').symm
      · exact (update_of_ne hy _ _).trans (h.array_put_of_ne hupd hy).symm
  · have hrefuse : writei sb (s.view x) (fun i => some (src i)) off.toNat n.toNat =
        .ok (-1, s.view x) := by
      have hmax : MAXFILE * BSIZE = 274432 := rfl
      rw [hmax] at hok
      rw [writei, hsize, hmax]
      by_cases hout : (s.disk.dinode x).size < off.toNat ∨
        (off.toNat + n.toNat) % 2 ^ 32 < off.toNat
      · rw [if_pos hout]
      · rw [if_neg hout, if_pos (by omega)]
    refine ⟨(-1, []), s, ?_, h, fun _ => rfl, ?_⟩
    · rw [Op.run, hrefuse]
      exact congrArg (fun t => Except.ok (((-1, []) : Reply), t)) Inodes.Ok.put_view
    · rw [Op.spec, hlen, if_neg hok]

theorem read_does {off n : BitVec 32} (h : s.Ok sb) (hx : s.disk.Allocated sb x) :
    ∃ r s', (Op.read x off n).Does sb s s' r := by
  have hwf := h.view_wf hx
  have hsize : (s.view x).ip.size = (s.disk.dinode x).size := congrArg Dinode.size (h.sync x)
  have hlen := Disk.length_array hx
  by_cases hok : off.toNat ≤ (s.disk.dinode x).size ∧ off.toNat + n.toNat < 2 ^ 32
  · have hrun := readi_kernel (n := n.toNat) hwf (hsize ▸ hok.1) hok.2
    rw [hsize, h.flush_view] at hrun
    generalize hm : min n.toNat ((s.disk.dinode x).size - off.toNat) = m at hrun
    refine ⟨(m, s.disk.bytes sb x off.toNat m), s, ?_, h, fun _ => rfl, ?_⟩
    · rw [Op.run, hrun]
      exact congrArg (fun t => Except.ok (((m : ℤ), s.disk.bytes sb x off.toNat m), t))
        Inodes.Ok.put_view
    · have hbytes : ((s.disk.array sb x).drop off.toNat).take n.toNat =
          s.disk.bytes sb x off.toNat m := by
        rw [Disk.array_of_allocated hx, Disk.drop_bytes, Disk.bytes, Disk.bytes, ← List.map_take,
          List.take_range, hm]
      rw [Op.spec, hlen, if_pos hok, hbytes]
      dsimp only
      rw [Disk.length_bytes]
  · have hrefuse : readi sb (s.view x) (fun _ => true) off.toNat n.toNat =
        .ok ((0, []), s.view x) := by
      have hoff := off.isLt
      have hn := n.isLt
      rw [readi, hsize, if_pos (by omega)]
    refine ⟨(0, []), s, ?_, h, fun _ => rfl, ?_⟩
    · rw [Op.run, hrefuse]
      exact congrArg (fun t => Except.ok (((0, []) : Reply), t)) Inodes.Ok.put_view
    · rw [Op.spec, hlen, if_neg hok]

theorem trunc_does (h : s.Ok sb) (hx : s.disk.Allocated sb x) :
    ∃ r s', (Op.trunc x).Does sb s s' r := by
  have hwf := h.view_wf hx
  obtain ⟨bits, hrun, hwf'⟩ := itrunc_spec hwf
  have hself : ((s.view x).truncated bits).disk.dinode x = (s.ip x).emptied := Disk.put_self ..
  have hother {y : ℕ} (hy : y ≠ x) :
      ((s.view x).truncated bits).disk.dinode y = s.disk.dinode y := Disk.put_of_ne hy
  have htype (y : ℕ) : (((s.view x).truncated bits).disk.dinode y).type =
      (s.disk.dinode y).type := by
    by_cases hy : y = x
    · rw [hy, hself, h.sync]
      rfl
    · rw [hother hy]
  refine ⟨(0, []), s.put x ((s.view x).truncated bits), ?_, ⟨?_, fun y => ?_⟩, htype, ?_⟩
  · rw [Op.run, hrun]
    rfl
  · have hdisk := hwf'.disk
    rwa [View.truncated_flush] at hdisk
  · by_cases hy : y = x
    · subst hy
      exact (update_self _ _ _).trans hself.symm
    · exact (update_of_ne hy _ _).trans ((h.sync y).trans (hother hy).symm)
  · refine Prod.ext rfl (funext fun y => ?_)
    change update (s.disk.array sb) x [] y = ((s.view x).truncated bits).disk.array sb y
    by_cases hy : y = x
    · subst hy
      have hx' : ((s.view y).truncated bits).disk.Allocated sb y :=
        ⟨hx.1, by rw [htype]; exact hx.2⟩
      rw [update_self, Disk.array_of_allocated hx', hself]
      rfl
    · rw [update_of_ne hy]
      refine (Disk.array_congr (by rw [hother hy]) (by rw [hother hy])
        fun halloc pos hpos => ?_).symm
      have href := (hwf.ref_truncated bits (y, place (pos / BSIZE))).trans (if_neg hy)
      rw [h.flush_view] at href
      rw [Disk.content, Disk.content, href]
      rfl

/-- Every operation on an allocated inode goes through. -/
theorem Op.does {op : Op} (h : s.Ok sb) (hx : s.disk.Allocated sb op.inum) (hfits : op.Fits sb s) :
    ∃ r s', op.Does sb s s' r := by
  cases op with
  | write x off n src => exact write_does h hx src hfits
  | read x off n => exact read_does h hx
  | trunc x => exact trunc_does h hx

end

/-! ### Sequences of operations -/

/-- There are enough free blocks for every operation when its turn comes. -/
def Enough (sb : Superblock) : Inodes → List Op → Prop
  | _, [] => True
  | s, op :: ops => op.Fits sb s ∧ ∀ r s', op.run sb s = .ok (r, s') → Enough sb s' ops

/-- **Inodes are byte arrays.** Any operations on any allocated inodes, for which there are enough
free blocks, return and deliver what the operations on byte arrays do, and leave each inode with the
bytes that these leave. -/
theorem inode_contents_refine {s : Inodes} {ops : List Op} (hwf : s.disk.Wf sb)
    (hsync : ∀ x, s.ip x = s.disk.dinode x) (halloc : ∀ op ∈ ops, s.disk.Allocated sb op.inum)
    (henough : Enough sb s ops) : ∃ rs s', runOps sb s ops = .ok (rs, s') ∧
      specOps (s.disk.array sb) ops = (rs, s'.disk.array sb) ∧
      s'.disk.Wf sb ∧ ∀ x, s'.ip x = s'.disk.dinode x := by
  induction ops generalizing s with
  | nil => exact ⟨[], s, rfl, rfl, hwf, hsync⟩
  | cons op ops ih =>
    obtain ⟨hfits, hrest⟩ := henough
    obtain ⟨r, s₁, hdoes⟩ := Op.does ⟨hwf, hsync⟩ (halloc op List.mem_cons_self) hfits
    have halloc₁ : ∀ op' ∈ ops, s₁.disk.Allocated sb op'.inum := fun op' hop' => by
      have hx := halloc op' (List.mem_cons_of_mem op hop')
      exact ⟨hx.1, by rw [hdoes.type]; exact hx.2⟩
    obtain ⟨rs, s', hrun, hspec, hok⟩ := ih hdoes.ok.wf hdoes.ok.sync halloc₁ (hrest r s₁ hdoes.run)
    refine ⟨r :: rs, s', ?_, ?_, hok⟩
    · rw [runOps, hdoes.run]
      change (runOps sb s₁ ops >>= _) = _
      rw [hrun]
      rfl
    · rw [specOps, hdoes.spec]
      dsimp only
      rw [hspec]

/-- The file of two bytes, with its copy in memory. -/
def smallInodes : Inodes := ⟨smallFile.disk, smallFile.disk.dinode⟩

/-- Two bytes are written at offset 1, five are asked for, and all are discarded. -/
def smallOps : List Op := [.write 1 1 2 fun _ => 9, .read 1 0 5, .trunc 1]

theorem inode_contents_refine_smallOps :
    ∃ rs s', runOps smallDisk smallInodes smallOps = .ok (rs, s') ∧
      rs = [(2, []), (3, [1, 9, 9]), (0, [])] ∧
      specOps (smallInodes.disk.array smallDisk) smallOps = (rs, s'.disk.array smallDisk) := by
  have hwf : smallInodes.disk.Wf smallDisk := by
    have hwf := wf_smallFile.disk
    rwa [View.flush_of_sync rfl] at hwf
  have halloc : smallInodes.disk.Allocated smallDisk 1 := ⟨by decide, by decide⟩
  have hfits : emptyCount (smallInodes.disk.ref smallDisk) (writePlaces 1 1 2) ≤
      freeCount smallInodes.disk.bitmap smallDisk.size := by decide +kernel
  have henough : Enough smallDisk smallInodes smallOps :=
    ⟨fun _ _ => hfits, fun _ _ _ => ⟨trivial, fun _ _ _ => ⟨trivial, fun _ _ _ => trivial⟩⟩⟩
  obtain ⟨rs, s', hrun, hspec, -⟩ := inode_contents_refine hwf (fun _ => rfl)
    (by
      intro op hop
      simp only [smallOps, List.mem_cons, List.not_mem_nil, or_false] at hop
      rcases hop with rfl | rfl | rfl <;> exact halloc) henough
  refine ⟨rs, s', hrun, ?_, hspec⟩
  have hrs : rs = (specOps (smallInodes.disk.array smallDisk) smallOps).1 := by rw [hspec]
  rw [hrs]
  decide +kernel

end Xv6.Fs
