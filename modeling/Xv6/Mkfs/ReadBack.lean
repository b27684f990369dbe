import Xv6.Mkfs.Trust

/-!
# The kernel reads what `mkfs` has written

Chunks of bytes are appended to files, in any order, and the bitmap is written. On the image that
this leaves, the kernel finds an inode by its number, follows its block numbers, and reads. What it
reads is what has been appended to that file, one chunk after the other.

`readi` takes an offset and a length that are `uint`, and so is their sum. If the sum wraps around,
nothing is read, even if the file has bytes at the offset.
-/

namespace Xv6.Fs.Mkfs

variable {w w' : Work} {x inum off n : ℕ} {p : List Byte}

/-! ### Chunks -/

/-- Chunks are appended, each to its file. -/
def appendAll (chunks : List (ℕ × List Byte)) : MkM Unit := chunks.forM fun c => iappend c.1 c.2

/-- The chunks of file `x`, one after the other. -/
def appendedTo (x : ℕ) (chunks : List (ℕ × List Byte)) : List Byte :=
  chunks.flatMap fun c => if c.1 = x then c.2 else []

/-- The disk is full: after some of the chunks, the next one needs more blocks than there are. -/
def DiskFull (w : Work) (chunks : List (ℕ × List Byte)) : Prop :=
  ∃ done inum p rest w₁, chunks = done ++ (inum, p) :: rest ∧
    (appendAll done).run w = .ok ((), w₁) ∧
    ∃ k : ℕ, k < p.length ∧ ∃ v', writei superblock (w₁.view inum) (fun i => p[i]?)
      (w₁.disk.dinode inum).size p.length = .ok (↑k, v') ∧ ∀ b < FSSIZE, v'.disk.bitmap b = true

theorem DiskFull.cons {chunks : List (ℕ × List Byte)} (hrun : (iappend inum p).run w = .ok ((), w'))
    (h : DiskFull w' chunks) : DiskFull w ((inum, p) :: chunks) := by
  obtain ⟨done, x, q, rest, w₁, rfl, hdone, hk⟩ := h
  refine ⟨(inum, p) :: done, x, q, rest, w₁, rfl, ?_, hk⟩
  change ((iappend inum p).run w).bind (fun r => (appendAll done).run r.2) = _
  rw [hrun]
  exact hdone

/-- Appending fails only if a file is too long or the disk is full. -/
theorem appendAll_ends (chunks : List (ℕ × List Byte)) (h : Sound w) (hwf : w.disk.Wf superblock)
    (hx : ∀ c ∈ chunks, w.disk.Allocated superblock c.1) :
    Ends (fun _ => (∃ c ∈ chunks, MAXFILE * BSIZE < (w.bytes c.1 ++ appendedTo c.1 chunks).length) ∨
        DiskFull w chunks)
      (appendAll chunks) w fun _ w' => Sound w' ∧ w'.disk.Wf superblock ∧
        ∀ x, w.disk.Allocated superblock x → w'.disk.Allocated superblock x ∧
          w'.bytes x = w.bytes x ++ appendedTo x chunks := by
  induction chunks generalizing w with
  | nil => exact Ends.pure ⟨h, hwf, fun x hx => ⟨hx, (List.append_nil _).symm⟩⟩
  | cons c chunks ih =>
    obtain ⟨inum, p⟩ := c
    have hinum : w.disk.Allocated superblock inum := hx _ List.mem_cons_self
    have hfail : ∀ _ : Failure, (MAXFILE * BSIZE < (w.disk.dinode inum).size + p.length ∨
        ∃ k < p.length, ∃ v',
        writei superblock (w.view inum) (fun i => p[i]?) (w.disk.dinode inum).size p.length =
        .ok (↑k, v') ∧
          ∀ b < FSSIZE, v'.disk.bitmap b = true) →
        (∃ c ∈ (inum, p) :: chunks,
          MAXFILE * BSIZE < (w.bytes c.1 ++ appendedTo c.1 ((inum, p) :: chunks)).length) ∨
          DiskFull w ((inum, p) :: chunks) := by
      rintro - (hbig | hfull)
      · refine .inl ⟨(inum, p), List.mem_cons_self, ?_⟩
        rw [appendedTo, List.flatMap_cons, if_pos rfl, List.length_append, List.length_append,
          w.length_bytes, ← Nat.add_assoc]
        exact Nat.lt_of_lt_of_le hbig (Nat.le_add_right _ _)
      · exact .inr ⟨[], inum, p, chunks, w, rfl, rfl, hfull⟩
    refine Ends.bind (((iappend_ends h hwf hinum p).weaken hfail).with_run) fun _ w₁ hrun => ?_
    have hadd := iappend_appended h hwf hinum p _ _ hrun.1
    have hbytes {x : ℕ} (hx : w.disk.Allocated superblock x) :
        w₁.bytes x ++ appendedTo x chunks = w.bytes x ++ appendedTo x ((inum, p) :: chunks) := by
      rw [hadd.bytes hwf hx, List.append_assoc, appendedTo, appendedTo, List.flatMap_cons]
    refine ((ih hadd.sound hadd.wf fun c hc =>
      hadd.allocated (hx c (List.mem_cons_of_mem _ hc))).weaken fun _ => ?_).mono fun _ w' => ?_
    · rintro (⟨c, hc, hbig⟩ | hfull)
      · have hc := List.mem_cons_of_mem (inum, p) hc
        exact .inl ⟨c, hc, hbytes (hx c hc) ▸ hbig⟩
      · exact .inr (hfull.cons hrun.1)
    · rintro ⟨hs, hw, hall⟩
      refine ⟨hs, hw, fun x hx => ?_⟩
      obtain ⟨hx', hb⟩ := hall x (hadd.allocated hx)
      exact ⟨hx', hb.trans (hbytes hx)⟩

/-! ### Reading back -/

/-- Any part of a file, from the whole. -/
theorem bytes_eq_take_drop (d : Disk) (x size off n : ℕ) (hoff : off ≤ size) :
    d.bytes superblock x off (min n (size - off)) =
      ((d.bytes superblock x 0 size).drop off).take n := by
  have hsplit : d.bytes superblock x 0 size =
      d.bytes superblock x 0 off ++ d.bytes superblock x off (size - off) := by
    have hadd : d.bytes superblock x 0 (off + (size - off)) = _ := d.bytes_add x 0 off (size - off)
    rwa [Nat.add_sub_cancel' hoff, Nat.zero_add] at hadd
  have hlen : (d.bytes superblock x 0 off).length = off := by
    rw [Disk.bytes, List.length_map, List.length_range]
  rw [hsplit, List.drop_left' hlen, Disk.bytes, Disk.bytes, ← List.map_take, List.take_range]

/-- What `readi` is asked for: the bytes of a file from `off` on, at most `n`, and none if the sum
of the two wraps around. -/
def request (bytes : List Byte) (off n : ℕ) : List Byte :=
  if off + n < 2 ^ 32 then (bytes.drop off).take n else []

theorem readi_view {v : View} (hv : v.Wf superblock) (hoff : off < 2 ^ 32) (hn : n < 2 ^ 32) :
    readi superblock v (fun _ => true) off n =
      .ok ((↑(request (v.flush.bytes superblock v.inum 0 v.ip.size) off n).length,
        request (v.flush.bytes superblock v.inum 0 v.ip.size) off n), v) := by
  have hlen : (v.flush.bytes superblock v.inum 0 v.ip.size).length = v.ip.size := by
    rw [Disk.bytes, List.length_map, List.length_range]
  by_cases hwrap : off + n < 2 ^ 32
  · rw [request, if_pos hwrap]
    by_cases hle : off ≤ v.ip.size
    · have hcount : (v.flush.bytes superblock v.inum off (min n (v.ip.size - off))).length =
          min n (v.ip.size - off) := by rw [Disk.bytes, List.length_map, List.length_range]
      rw [← bytes_eq_take_drop _ _ _ _ _ hle, hcount]
      exact readi_kernel hv hle hwrap
    · have hnil : (v.flush.bytes superblock v.inum 0 v.ip.size).drop off = [] :=
        List.drop_eq_nil_of_le (Nat.le_trans (Nat.le_of_eq hlen) (Nat.le_of_not_le hle))
      rw [hnil, List.take_nil]
      exact if_pos (.inl (Nat.lt_of_not_le hle))
  · rw [request, if_neg hwrap]
    refine if_pos (.inr ?_)
    omega

/-- **The kernel reads what has been appended.** Chunks are appended to files of any image, and the
bitmap is written. If that fails, a file has become too long or the disk is full. -/
theorem readi_appendAll (chunks : List (ℕ × List Byte)) (h : Sound w) (hwf : w.disk.Wf superblock)
    (hx : ∀ c ∈ chunks, w.disk.Allocated superblock c.1) :
    Ends (fun _ => (∃ c ∈ chunks, MAXFILE * BSIZE < (w.bytes c.1 ++ appendedTo c.1 chunks).length) ∨
        DiskFull w chunks)
      (do
        appendAll chunks
        balloc (← get).freeblock) w fun _ w' =>
      ∀ x, w.disk.Allocated superblock x → ∀ off n, off < 2 ^ 32 → n < 2 ^ 32 →
        readi superblock ⟨mount w'.img, x, inodeOf w'.img x⟩ (fun _ => true) off n =
          .ok ((↑(request (w.bytes x ++ appendedTo x chunks) off n).length,
            request (w.bytes x ++ appendedTo x chunks) off n),
            ⟨mount w'.img, x, inodeOf w'.img x⟩) := by
  refine Ends.bind (appendAll_ends chunks h hwf hx) fun _ w₁ => ?_
  rintro ⟨hsound, hwf₁, hall⟩
  refine Ends.bind (Runs.get (Q := fun a w₂ => a = w₁ ∧ w₂ = w₁) ⟨rfl, rfl⟩).ends fun _ w₂ => ?_
  rintro ⟨rfl, rfl⟩
  refine (balloc_runs hsound).ends.mono fun _ w' => ?_
  rintro rfl
  intro x hx off n hoff hn
  obtain ⟨hx', hbytes⟩ := hall x hx
  have hmount := mount_write hsound
  have hdin : inodeOf (w₂.write bmapstart (bits w₂.freeblock)).img x = w₂.disk.dinode x := by
    rw [← hmount]
    exact (if_pos hx'.1).symm
  have hread := readi_view (wf_view hwf₁ hx') hoff hn
  have hflush : (w₂.view x).flush = w₂.disk := View.flush_of_sync rfl
  have hwhole : (w₂.view x).flush.bytes superblock (w₂.view x).inum 0 (w₂.view x).ip.size =
      w.bytes x ++ appendedTo x chunks := by
    rw [hflush, ← hbytes]
    rfl
  rw [hmount, hdin, ← hwhole]
  exact hread

/-- A directory and a file. -/
def twoFiles : MkM (ℕ × ℕ) := do
  let d ← ialloc .dir
  let f ← ialloc .file
  return (d, f)

theorem twoFiles_leaves : Leaves twoFiles blankImage fun r w =>
    r = (1, 2) ∧ Built w [] ∧ w.disk.Allocated superblock 1 ∧ w.disk.Allocated superblock 2 := by
  refine Leaves.bind (built_blankImage.ialloc .dir nofun (by decide) (by decide) fun _ => rfl)
    fun d w₁ => ?_
  rintro ⟨rfl, h₁, hfree₁⟩
  have hfree₁ : w₁.freeinode = 2 := hfree₁
  refine Leaves.bind (h₁.ialloc .file nofun (by omega) (hfree₁ ▸ by decide) fun _ => rfl)
    fun f w₂ => ?_
  rintro ⟨rfl, h₂, hfree₂⟩
  refine (Runs.pure ⟨?_, h₂, (h₂.allocated 1).mpr ?_, (h₂.allocated 2).mpr ?_⟩).leaves
  · rw [hfree₁]
    rfl
  · omega
  · omega

/-- Chunks for both, and the bitmap. -/
def someChunks : List (ℕ × List Byte) := [(2, [1]), (1, [7]), (2, [2, 3])]

/-- Append the chunks, then write the bitmap. -/
def storeChunks : MkM Unit := do
  appendAll someChunks
  balloc (← get).freeblock

set_option maxRecDepth 100000 in
theorem storeChunks_twoFiles : ∃ w w', twoFiles.run blankImage = .ok ((1, 2), w) ∧
    storeChunks.run w = .ok ((), w') ∧
    (inodeOf w.img 2).size = 0 ∧ (inodeOf w'.img 2).size = 3 := by
  obtain ⟨w, htwo, w', h⟩ : ∃ w, twoFiles.run blankImage = .ok ((1, 2), w) ∧
      ∃ w', storeChunks.run w = .ok ((), w') ∧
        (inodeOf w.img 2).size = 0 ∧ (inodeOf w'.img 2).size = 3 := by decide +kernel
  exact ⟨w, w', htwo, h⟩

theorem readi_appendAll_twoFiles : ∃ w w', twoFiles.run blankImage = .ok ((1, 2), w) ∧
    storeChunks.run w = .ok ((), w') ∧
      readi superblock ⟨mount w'.img, 2, inodeOf w'.img 2⟩ (fun _ => true) 1 5 =
        .ok ((2, [2, 3]), ⟨mount w'.img, 2, inodeOf w'.img 2⟩) := by
  obtain ⟨w, w', htwo, hstore, hsize, -⟩ := storeChunks_twoFiles
  obtain ⟨-, hbuilt, h₁, h₂⟩ := twoFiles_leaves _ _ htwo
  have hx : ∀ c ∈ someChunks, w.disk.Allocated superblock c.1 := by
    intro c hc
    simp only [someChunks, List.mem_cons, List.not_mem_nil, or_false] at hc
    obtain rfl | rfl | rfl := hc <;> assumption
  have hread := (readi_appendAll someChunks hbuilt.sound hbuilt.wf hx).of_run hstore 2 h₂ 1 5
    (by decide) (by decide)
  have hempty : w.bytes 2 = [] := by
    rw [Work.bytes, w.disk_dinode h₂.1, hsize]
    rfl
  rw [hempty] at hread
  exact ⟨w, w', htwo, hstore, hread⟩

/-- **A length for which nothing is read.** The file has three bytes, and a request for all that
follows the first one, of the largest length there is, returns none. -/
theorem readi_wraps : ∃ w w', twoFiles.run blankImage = .ok ((1, 2), w) ∧
    storeChunks.run w = .ok ((), w') ∧
    (inodeOf w'.img 2).size = 3 ∧ readi superblock ⟨mount w'.img, 2, inodeOf w'.img 2⟩
    (fun _ => true) 1 (2 ^ 32 - 1) =
      .ok ((0, []), ⟨mount w'.img, 2, inodeOf w'.img 2⟩) := by
  obtain ⟨w, w', htwo, hstore, -, hsize⟩ := storeChunks_twoFiles
  exact ⟨w, w', htwo, hstore, hsize, if_pos (.inr (by decide))⟩

end Xv6.Fs.Mkfs
