import Xv6.Mkfs.Image

/-!
# The blocks of a transaction

`filewrite` writes a few blocks at a time, each time between a `begin_op` and an `end_op`, which
reserve `MAXOPBLOCKS` blocks of the log. Here is what `writei` logs: the data blocks, the blocks of
the bitmap in which a block is marked, the indirect block, and the block of the inode.

A file without holes has the block in which a write begins, unless it begins at the start of a
block. So only whole blocks are allocated, and there are no more of them than a chunk has. The
indirect block is allocated once at most.
-/

namespace Xv6.Fs

open Mkfs (IPB BPB)

variable {sb : Superblock} {v v' : View} {bn off n : ℕ}

/-! ### What is logged -/

/-- Where the inodes and the bitmap are. -/
structure Layout where
  inodestart : ℕ
  bmapstart : ℕ

/-- Block containing inode `i`. -/
def Layout.iblock (L : Layout) (i : ℕ) : ℕ := i / IPB + L.inodestart

/-- Block of free map containing bit for block `b`. -/
def Layout.bblock (L : Layout) (b : ℕ) : ℕ := b / BPB + L.bmapstart

section

variable (sb : Superblock) (L : Layout)

/-- `balloc` logs the block of the bitmap, and `bzero` the block it has found. -/
def ballocLog (d : Disk) : List ℕ :=
  match (List.range sb.size).find? fun b => !d.bitmap b with
  | some b => [L.bblock b, b]
  | none => []

/-- What `bmap` logs for a block beyond the direct ones. -/
def bmapIndirectLog (v : View) (ind bn : ℕ) : List ℕ :=
  if word (v.disk.data ind) bn = 0 then
    ballocLog sb L v.disk ++ if (balloc sb v.disk).1 = 0 then [] else [ind]
  else []

/-- What `bmap` logs. -/
def bmapLog (v : View) (bn : ℕ) : List ℕ :=
  if bn < NDIRECT then
    if v.ip.addrs bn = 0 then ballocLog sb L v.disk else []
  else if bn - NDIRECT < NINDIRECT then
    if v.ip.addrs NDIRECT = 0 then
      let (addr, d) := balloc sb v.disk
      ballocLog sb L v.disk ++
        if addr = 0 then []
        else
          let v := { v with disk := d, ip := v.ip.setAddr NDIRECT addr }
          bmapIndirectLog sb L v addr (bn - NDIRECT)
    else bmapIndirectLog sb L v (v.ip.addrs NDIRECT) (bn - NDIRECT)
  else []

/-- The loop of `writei`. A block is logged when all of its part has been copied. -/
def writeiLoopLog (src : ℕ → Option Byte) (n : ℕ) : ℕ → ℕ → ℕ → View → List ℕ
  | 0, _, _, _ => []
  | fuel + 1, tot, off, v =>
    if tot < n then
      bmapLog sb L v (off / BSIZE) ++
        match bmap sb v (off / BSIZE) with
        | .error _ => []
        | .ok (addr, v) =>
          if addr = 0 then []
          else
            let m := min (n - tot) (BSIZE - off % BSIZE)
            let v := v.store addr (copyin (v.disk.data addr) (off % BSIZE) src tot m)
            if mapped src tot m = m then addr :: writeiLoopLog src n fuel (tot + m) (off + m) v
            else []
    else []

/-- The blocks that `writei` logs. The last is that of the inode. -/
def writeiLog (v : View) (src : ℕ → Option Byte) (off n : ℕ) : List ℕ :=
  if v.ip.size < off ∨ (off + n) % 2 ^ 32 < off then []
  else if MAXFILE * BSIZE < off + n then []
  else writeiLoopLog sb L src n n 0 off v ++ [L.iblock v.inum]

/-- The blocks that are logged in each transaction of the loop of `filewrite`, which has written `i`
of `n` bytes. -/
def filewriteLogs (src : ℕ → Option Byte) (n : ℕ) : ℕ → ℕ → ℕ → View → List (List ℕ)
  | 0, _, _, _ => []
  | fuel + 1, i, off, v =>
    if i < n then
      let n₁ := min (n - i) maxChunk
      writeiLog sb L v (fun j => src (i + j)) off n₁ ::
        match writei sb v (fun j => src (i + j)) off n₁ with
        | .error _ => []
        | .ok (r, v) =>
          if r ≠ n₁ then [] else filewriteLogs src n fuel (i + n₁) (off + n₁) v
    else []

end

/-! ### Blocks that are there -/

/-- Every block up to the end of the file is there. -/
def View.NoHole (v : View) : Prop :=
  ∀ bn, bn * BSIZE < v.ip.size → v.ip.ref v.disk.data (place bn) ≠ 0

theorem View.Wf.noHole (h : v.Wf sb) : v.NoHole := by
  intro bn hbn
  have hr := h.disk.full v.inum h.allocated bn (by rwa [v.flush_dinode])
  rwa [h.ref_eq] at hr

/-- Nothing is logged for a block that is there. -/
theorem bmapLog_of_present {L : Layout} (hbn : bn < MAXFILE)
    (hr : v.ip.ref v.disk.data (place bn) ≠ 0) : bmapLog sb L v bn = [] := by
  rw [bmapLog]
  by_cases hd : bn < NDIRECT
  · rw [Dinode.ref_direct hd] at hr
    rw [if_pos hd, if_neg hr]
  · obtain ⟨j, rfl⟩ := Nat.exists_eq_add_of_le (Nat.le_of_not_lt hd)
    have hj : j < NINDIRECT := Nat.lt_of_add_lt_add_left hbn
    rw [Dinode.ref_indirect hj] at hr
    have ha : v.ip.addrs NDIRECT ≠ 0 := fun ha => hr (if_neg (not_not_intro ha))
    rw [if_pos ha] at hr
    rw [if_neg hd, Nat.add_sub_cancel_left, if_pos hj, if_neg ha, bmapIndirectLog, if_neg hr]

/-! ### How much is logged -/

section

variable (sb) (L : Layout)

/-- What is logged for the indirect block, if its number goes from `i` to `i'`. -/
def indirectBlocks (L : Layout) (i i' : ℕ) : Finset ℕ :=
  if i' = 0 then ∅ else if i = 0 then {L.bblock i', i'} else {i'}

theorem card_indirectBlocks_le (i i' : ℕ) : (indirectBlocks L i i').card ≤ 2 := by
  rw [indirectBlocks]
  split_ifs
  · exact Nat.zero_le _
  · exact Finset.card_le_two
  · exact Nat.le_succ _

/-- What is logged in two steps for the indirect block. -/
theorem indirectBlocks_union_subset {i i' i'' : ℕ} (h : i ≠ 0 → i' = i) (h' : i' ≠ 0 → i'' = i') :
    indirectBlocks L i i' ∪ indirectBlocks L i' i'' ⊆ indirectBlocks L i i'' := by
  rw [indirectBlocks, indirectBlocks, indirectBlocks]
  by_cases hi' : i' = 0
  · have hi : i = 0 := by_contra fun hi => hi ((h hi).symm.trans hi')
    rw [if_pos hi', if_pos hi', if_pos hi, Finset.empty_union]
  · rw [h' hi', if_neg hi', if_neg hi', if_neg hi']
    split_ifs
    · exact Finset.union_subset (Finset.Subset.refl _) (by simp)
    · exact Finset.union_subset (Finset.Subset.refl _) (Finset.Subset.refl _)

/-- `balloc` logs two blocks at most, of which one is the block that it returns. -/
theorem ballocLog_cases (d : Disk) :
    (∃ b, balloc sb d = (b, d.claim b) ∧ ballocLog sb L d = [L.bblock b, b]) ∨
      balloc sb d = (0, d) ∧ ballocLog sb L d = [] := by
  rw [balloc, ballocLog]
  cases (List.range sb.size).find? fun b => !d.bitmap b with
  | none => exact .inr ⟨rfl, rfl⟩
  | some b => exact .inl ⟨b, rfl, rfl⟩

/-- The blocks that are logged for block `b`. -/
def blockPair (L : Layout) (b : ℕ) : Finset ℕ := {L.bblock b, b}

theorem card_blockPair_le (b : ℕ) : (blockPair L b).card ≤ 2 := Finset.card_le_two

theorem mem_blockPair (b : ℕ) : b ∈ blockPair L b :=
  Finset.mem_insert_of_mem (Finset.mem_singleton_self b)

theorem ballocLog_subset (d : Disk) :
    (ballocLog sb L d).toFinset ⊆ blockPair L (balloc sb d).1 := by
  rcases ballocLog_cases sb L d with ⟨b, hb, hlog⟩ | ⟨-, hlog⟩
  · rw [hb, hlog, blockPair]
    simp
  · rw [hlog]
    exact Finset.empty_subset _

theorem bmapIndirectLog_subset (v : View) (ind j : ℕ) : ∃ a v' b,
    bmapIndirect sb v ind j = (a, v') ∧ v'.ip = v.ip ∧ (a ≠ 0 → a = b) ∧
      (bmapIndirectLog sb L v ind j).toFinset ⊆ blockPair L b ∪ {ind} := by
  rw [bmapIndirect, bmapIndirectLog]
  by_cases hw : word (v.disk.data ind) j = 0
  · rw [if_pos hw, if_pos hw, List.toFinset_append]
    have hsub : (if (balloc sb v.disk).1 = 0 then [] else [ind]).toFinset ⊆ {ind} := by
      split_ifs <;> simp
    have hlog := Finset.union_subset_union (ballocLog_subset sb L v.disk) hsub
    generalize balloc sb v.disk = r at hlog ⊢
    obtain ⟨addr, d⟩ := r
    by_cases ha : addr = 0
    · exact ⟨0, v, addr, if_pos ha, rfl, fun h => absurd rfl h, hlog⟩
    · exact ⟨addr, _, addr, if_neg ha, rfl, fun _ => rfl, hlog⟩
  · rw [if_neg hw, if_neg hw]
    exact ⟨_, v, _, rfl, rfl, fun _ => rfl, Finset.empty_subset _⟩

/-- What is logged for one block of a file: the block that is found, the block of the bitmap, and
what there is for the indirect block. -/
theorem bmapLog_subset (v : View) (hbn : bn < MAXFILE) : ∃ a v' b, bmap sb v bn = .ok (a, v') ∧
    (v.ip.addrs NDIRECT ≠ 0 → v'.ip.addrs NDIRECT = v.ip.addrs NDIRECT) ∧ (a ≠ 0 → a = b) ∧
    (bmapLog sb L v bn).toFinset ⊆
      blockPair L b ∪ indirectBlocks L (v.ip.addrs NDIRECT) (v'.ip.addrs NDIRECT) := by
  rw [bmap, bmapLog]
  have halloc := ballocLog_subset sb L v.disk
  by_cases hd : bn < NDIRECT
  · rw [if_pos hd, if_pos hd]
    by_cases ha : v.ip.addrs bn = 0
    · rw [if_pos ha, if_pos ha]
      generalize balloc sb v.disk = r at halloc ⊢
      obtain ⟨addr, d⟩ := r
      by_cases ha₀ : addr = 0
      · exact ⟨0, v, addr, if_pos ha₀, fun _ => rfl, fun h => absurd rfl h,
          halloc.trans Finset.subset_union_left⟩
      · refine ⟨addr, _, addr, if_neg ha₀, fun _ => ?_, fun _ => rfl,
          halloc.trans Finset.subset_union_left⟩
        exact Dinode.setAddr_of_ne (Nat.ne_of_gt hd)
    · rw [if_neg ha, if_neg ha]
      exact ⟨_, v, _, rfl, fun _ => rfl, fun _ => rfl, Finset.empty_subset _⟩
  · have hj : bn - NDIRECT < NINDIRECT := by
      rw [maxfile_eq] at hbn
      omega
    rw [if_neg hd, if_neg hd, if_pos hj, if_pos hj]
    by_cases ha : v.ip.addrs NDIRECT = 0
    · rw [if_pos ha, if_pos ha]
      generalize balloc sb v.disk = r at halloc ⊢
      obtain ⟨addr, d⟩ := r
      dsimp only at halloc ⊢
      by_cases ha₀ : addr = 0
      · rw [if_pos ha₀, if_pos ha₀, List.append_nil]
        exact ⟨0, v, addr, rfl, fun _ => rfl, fun h => absurd rfl h,
          halloc.trans Finset.subset_union_left⟩
      · rw [if_neg ha₀, if_neg ha₀]
        obtain ⟨a, v', b, heq, hip, hab, hlog⟩ := bmapIndirectLog_subset sb L
          { v with disk := d, ip := v.ip.setAddr NDIRECT addr } addr (bn - NDIRECT)
        refine ⟨a, v', b, congrArg Except.ok heq, fun h => absurd ha h, hab, ?_⟩
        rw [hip, ha, indirectBlocks, Dinode.setAddr_self, if_neg ha₀, if_pos rfl,
          List.toFinset_append]
        refine Finset.union_subset (halloc.trans Finset.subset_union_right) (hlog.trans ?_)
        refine Finset.union_subset_union (Finset.Subset.refl _) ?_
        exact Finset.singleton_subset_iff.mpr (mem_blockPair L addr)
    · rw [if_neg ha, if_neg ha]
      obtain ⟨a, v', b, heq, hip, hab, hlog⟩ := bmapIndirectLog_subset sb L v
        (v.ip.addrs NDIRECT) (bn - NDIRECT)
      refine ⟨a, v', b, congrArg Except.ok heq, fun _ => by rw [hip], hab, ?_⟩
      rw [hip, indirectBlocks, if_neg ha, if_neg ha]
      exact hlog

/-- The parts of one round and of the rest, put together. -/
theorem union_subset_of_parts {S T P A I I' J : Finset ℕ} (hS : S ⊆ P ∪ I) (hT : T ⊆ P ∪ (A ∪ I'))
    (hJ : I ∪ I' ⊆ J) : S ∪ T ⊆ P ∪ A ∪ J := by
  have hI : I ⊆ J := Finset.subset_union_left.trans hJ
  have hI' : I' ⊆ J := Finset.subset_union_right.trans hJ
  refine Finset.union_subset (hS.trans ?_) (hT.trans ?_)
  · exact Finset.union_subset_union Finset.subset_union_left hI
  · rw [← Finset.union_assoc]
    exact Finset.union_subset_union (Finset.Subset.refl _) hI'

/-- The loop of `writei` from the start of a block on logs two blocks for each block of the file,
and what there is for the indirect block. -/
theorem writeiLoopLog_subset (src : ℕ → Option Byte) (fuel tot off : ℕ) (v : View)
    (hmax : off + (n - tot) ≤ MAXFILE * BSIZE) (hstart : tot < n → off % BSIZE = 0) :
    ∃ i' A, (v.ip.addrs NDIRECT ≠ 0 → i' = v.ip.addrs NDIRECT) ∧
      A.card ≤ 2 * ((n - tot + (BSIZE - 1)) / BSIZE) ∧
      (writeiLoopLog sb L src n fuel tot off v).toFinset ⊆
        A ∪ indirectBlocks L (v.ip.addrs NDIRECT) i' := by
  induction fuel generalizing tot off v with
  | zero => exact ⟨_, ∅, fun _ => rfl, Nat.zero_le _, Finset.empty_subset _⟩
  | succ fuel ih =>
    rw [writeiLoopLog]
    by_cases hlt : tot < n
    · have hdiv : off / BSIZE < MAXFILE := Nat.div_lt_of_lt_mul (by rw [Nat.mul_comm]; omega)
      obtain ⟨a, v', b, heq, hind, hab, hlog⟩ := bmapLog_subset sb L v hdiv
      have hone : 2 ≤ 2 * ((n - tot + (BSIZE - 1)) / BSIZE) := by
        rw [show BSIZE = 1024 from rfl]
        omega
      have hcard := (card_blockPair_le L b).trans hone
      rw [if_pos hlt, heq, List.toFinset_append]
      dsimp only
      by_cases ha : a = 0
      · rw [if_pos ha]
        exact ⟨_, _, hind, hcard, Finset.union_subset hlog (Finset.empty_subset _)⟩
      rw [if_neg ha]
      split_ifs with hm
      · -- the round is whole, so the next one starts a block
        generalize hm' : min (n - tot) (BSIZE - off % BSIZE) = m at *
        rw [hstart hlt, show BSIZE = 1024 from rfl] at hm'
        obtain ⟨i', A, hi', hA, hrest⟩ := ih (tot + m) (off + m)
          (v'.store a (copyin (v'.disk.data a) (off % BSIZE) src tot m)) (by omega) (by
            have := hstart hlt
            rw [show BSIZE = 1024 from rfl] at *
            omega)
        refine ⟨i', blockPair L b ∪ A,
          fun h => (hi' (by rwa [← hind h] at h)).trans (hind h), ?_, ?_⟩
        · refine (Finset.card_union_le _ _).trans
            ((Nat.add_le_add (card_blockPair_le L b) hA).trans ?_)
          rw [show BSIZE = 1024 from rfl]
          omega
        · have htail : (a :: writeiLoopLog sb L src n fuel (tot + m) (off + m)
              (v'.store a (copyin (v'.disk.data a) (off % BSIZE) src tot m))).toFinset ⊆
              blockPair L b ∪ (A ∪ indirectBlocks L (v'.ip.addrs NDIRECT) i') := by
            rw [List.toFinset_cons]
            rw [hab ha]
            refine Finset.insert_subset (Finset.mem_union_left _ (mem_blockPair L b)) ?_
            rw [← hab ha]
            exact hrest.trans Finset.subset_union_right
          exact union_subset_of_parts hlog htail (indirectBlocks_union_subset L hind hi')
      · exact ⟨_, _, hind, hcard, Finset.union_subset hlog (Finset.empty_subset _)⟩
    · rw [if_neg hlt]
      exact ⟨_, ∅, fun _ => rfl, Nat.zero_le _, Finset.empty_subset _⟩

/-- A chunk that starts in the middle of a block finds that block there, and one block is logged for
it. The rest starts a block and is less than a chunk. -/
theorem writeiLoopLog_chunk (hfull : v.NoHole) (src : ℕ → Option Byte) (hoff : off ≤ v.ip.size)
    (hmax : off + n ≤ MAXFILE * BSIZE) (hn : n ≤ maxChunk) :
    ∃ i' A, A.card ≤ 7 ∧ (writeiLoopLog sb L src n n 0 off v).toFinset ⊆
      A ∪ indirectBlocks L (v.ip.addrs NDIRECT) i' := by
  have hn : n ≤ 3072 := hn
  by_cases hstart : off % BSIZE = 0
  · obtain ⟨i', A, -, hA, hlog⟩ :=
      writeiLoopLog_subset sb L src n 0 off v hmax fun _ => hstart
    refine ⟨i', A, hA.trans ?_, hlog⟩
    rw [show BSIZE = 1024 from rfl]
    omega
  cases hn' : n with
  | zero => exact ⟨0, ∅, Nat.zero_le _, Finset.empty_subset _⟩
  | succ k =>
    have hdiv : off / BSIZE < MAXFILE := Nat.div_lt_of_lt_mul (by rw [Nat.mul_comm]; omega)
    have hlt : off / BSIZE * BSIZE < v.ip.size := by
      have := Nat.div_add_mod' off BSIZE
      omega
    have hr := hfull _ hlt
    rw [← hn', hn', writeiLoopLog, ← hn', if_pos (by omega), bmapLog_of_present hdiv hr,
      bmap_of_present hdiv hr, List.nil_append]
    dsimp only
    rw [if_neg hr]
    split_ifs with hm
    · generalize hm' : min (n - 0) (BSIZE - off % BSIZE) = m at *
      have hmod : (n - (0 + m)) + 1 ≤ 3072 ∧ (0 + m < n → (off + m) % BSIZE = 0) := by
        rw [show BSIZE = 1024 from rfl] at *
        omega
      obtain ⟨i', A, -, hA, hrest⟩ := writeiLoopLog_subset sb L (n := n) src k (0 + m)
        (off + m) (v.store (v.ip.ref v.disk.data (place (off / BSIZE)))
          (copyin (v.disk.data (v.ip.ref v.disk.data (place (off / BSIZE)))) (off % BSIZE) src 0 m))
        (by omega) hmod.2
      refine ⟨i', insert (v.ip.ref v.disk.data (place (off / BSIZE))) A, ?_, ?_⟩
      · refine (Finset.card_insert_le _ _).trans (Nat.succ_le_succ (hA.trans ?_))
        rw [show BSIZE = 1024 from rfl]
        omega
      · rw [List.toFinset_cons, Finset.insert_union]
        exact Finset.insert_subset_insert _ hrest
    · exact ⟨0, ∅, Nat.zero_le _, Finset.empty_subset _⟩

theorem writeiLog_card_le (hfull : v.NoHole) (src : ℕ → Option Byte) (off : ℕ) (hn : n ≤ maxChunk) :
    (writeiLog sb L v src off n).toFinset.card ≤ MAXOPBLOCKS := by
  rw [writeiLog]
  by_cases hout : v.ip.size < off ∨ (off + n) % 2 ^ 32 < off
  · rw [if_pos hout]
    exact Nat.zero_le _
  rw [if_neg hout]
  by_cases hbig : MAXFILE * BSIZE < off + n
  · rw [if_pos hbig]
    exact Nat.zero_le _
  rw [if_neg hbig]
  obtain ⟨i', A, hA, hlog⟩ := writeiLoopLog_chunk sb L hfull src (by omega)
    (Nat.le_of_not_lt hbig) hn
  have hI := card_indirectBlocks_le L (v.ip.addrs NDIRECT) i'
  rw [List.toFinset_append]
  calc ((writeiLoopLog sb L src n n 0 off v).toFinset ∪ [L.iblock v.inum].toFinset).card
      ≤ (writeiLoopLog sb L src n n 0 off v).toFinset.card + 1 := Finset.card_union_le _ _
    _ ≤ (A ∪ indirectBlocks L (v.ip.addrs NDIRECT) i').card + 1 :=
        Nat.succ_le_succ (Finset.card_le_card hlog)
    _ ≤ A.card + (indirectBlocks L (v.ip.addrs NDIRECT) i').card + 1 :=
        Nat.succ_le_succ (Finset.card_union_le _ _)
    _ ≤ MAXOPBLOCKS := by
        change _ ≤ 10
        omega

/-- A write keeps ownership, so the next chunk finds a file without holes. -/
theorem filewriteLogs_card_le (src : ℕ → Option Byte) (fuel i off : ℕ) (h : v.Wf sb) :
    ∀ log ∈ filewriteLogs sb L src n fuel i off v, log.toFinset.card ≤ MAXOPBLOCKS := by
  induction fuel generalizing i off v with
  | zero => nofun
  | succ fuel ih =>
    rw [filewriteLogs]
    split_ifs
    · intro log hlog
      rcases List.mem_cons.mp hlog with rfl | hlog
      · exact writeiLog_card_le sb L h.noHole _ off (Nat.min_le_right _ _)
      · obtain heq | ⟨-, k, t, v', heq, -, -, hwf, -⟩ :=
          writei_spec h (fun j => src (i + j)) off (min (n - i) maxChunk)
        · rw [heq] at hlog
          dsimp only at hlog
          split_ifs at hlog
          · cases hlog
          · exact ih _ _ h log hlog
        · rw [heq] at hlog
          dsimp only at hlog
          split_ifs at hlog
          · cases hlog
          · exact ih _ _ hwf.iupdate log hlog
    · nofun

/-- **A transaction of `filewrite` fits its reservation.** The file may be any file without holes,
and the free blocks may be anywhere. So it is with every transaction of a call, from any file on a
disk where ownership holds. -/
theorem filewrite_fits (sb : Superblock) (L : Layout) (v : View) (src : ℕ → Option Byte)
    (off n : ℕ) :
    (v.NoHole → ∀ i < n,
      (writeiLog sb L v (fun j => src (i + j)) off (min (n - i) maxChunk)).toFinset.card
      ≤ MAXOPBLOCKS) ∧
    (v.Wf sb → ∀ log ∈ filewriteLogs sb L src n n 0 off v, log.toFinset.card ≤ MAXOPBLOCKS) :=
  ⟨fun h _ _ => writeiLog_card_le sb L h _ off (Nat.min_le_right _ _),
    fun h => filewriteLogs_card_le sb L src n 0 off h⟩

theorem filewrite_fits_smallFile :
    (writeiLog smallDisk ⟨2, 3⟩ smallFile (fun _ => some 7) 1
      (min (5000 - 0) maxChunk)).toFinset.card ≤
        MAXOPBLOCKS ∧
      ∀ log ∈ filewriteLogs smallDisk ⟨2, 3⟩ (fun _ => some 7) 5000 5000 0 1 smallFile,
        log.toFinset.card ≤ MAXOPBLOCKS := by
  obtain ⟨hone, hall⟩ := filewrite_fits smallDisk ⟨2, 3⟩ smallFile (fun _ => some 7) 1 5000
  exact ⟨hone wf_smallFile.noHole 0 (by decide), hall wf_smallFile⟩

end

end Xv6.Fs
