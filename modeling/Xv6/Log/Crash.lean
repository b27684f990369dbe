import Xv6.Log.Spec

/-!
# Crash atomicity of the log

A crash keeps the disk and loses everything else. Since the disk writes blocks one at a time and
in order, what a crash leaves is the effect of a prefix of the writes issued so far, and a crash
may come at any prefix, during recovery too.

## The disk invariant

`redone L d` is the disk that installing the log found on `d` would give. A write either keeps the
home blocks of `redone` as they are or is the header write that commits a transaction, in which
case they become the contents after that transaction. Log blocks are written while the on-disk
header is empty, so they do not matter yet. Home blocks are written while the header lists them,
so they are written again by recovery. This is all of crash safety: `redone_recover` is the part
that recovery and `install_trans` share, and `logTx_spec` adds the writes before the commit.
-/

namespace Xv6

variable {L : LogArea} {e : Recycle} {d : Disk} {s t : LogState}

/-! ### What recovery makes of a disk -/

/-- The number of blocks the on-disk header lists. -/
def headCount (L : LogArea) (d : Disk) : ℕ := (d L.start 0).toInt.toNat

/-- The home writes the on-disk log asks for. -/
def logged (L : LogArea) (d : Disk) : List (ℕ × Block) :=
  (List.range (headCount L d)).map fun i => ((d L.start (i + 1)).toNat, d (L.start + i + 1))

/-- The disk with the log installed. -/
def redone (L : LogArea) (d : Disk) : Disk := applyWrites (logged L d) d

/-- The on-disk header fits the log area and lists home blocks only. -/
structure DiskFits (L : LogArea) (d : Disk) : Prop where
  lt_size : headCount L d < L.size
  home : ∀ i < headCount L d, L.IsHome (d L.start (i + 1)).toNat

/-- Two disks agree outside the log area. -/
def HomeEq (L : LogArea) (d d' : Disk) : Prop := ∀ b, L.IsHome b → d b = d' b

theorem HomeEq.refl (L : LogArea) (d : Disk) : HomeEq L d d := fun _ _ => rfl

theorem HomeEq.trans {d' d'' : Disk} (h : HomeEq L d d') (h' : HomeEq L d' d'') :
    HomeEq L d d'' := fun b hb => (h b hb).trans (h' b hb)

/-- The same writes keep home blocks equal. -/
theorem HomeEq.applyWrites {d' : Disk} (h : HomeEq L d d') (ws : List (ℕ × Block)) :
    HomeEq L (applyWrites ws d) (applyWrites ws d') :=
  fun b hb => applyWrites_agree (Or.inr (h b hb))

/-- Writes into the log area change no home block. -/
theorem homeEq_applyWrites {ws : List (ℕ × Block)} (h : ∀ w ∈ ws, ¬L.IsHome w.1) :
    HomeEq L (applyWrites ws d) d :=
  fun _ hb => applyWrites_of_notMem fun w hw hwb => h w hw (hwb ▸ hb)

theorem not_isHome_start : ¬L.IsHome L.start := fun h => h.ne L.pos rfl

/-- The header block with `n` set to zero. -/
def emptyHead (h : Block) : Block := fun w => if w = 0 then 0 else h w

theorem encode_zero (block : ℕ → BitVec 32) (h : Block) :
    LogHeader.encode ⟨0, block⟩ h = emptyHead h := by
  funext w
  simp [LogHeader.encode, emptyHead]

/-- A disk whose header is empty needs no redoing. -/
theorem redone_of_headCount (h : headCount L d = 0) : redone L d = d := by
  simp [redone, logged, h]

theorem diskFits_of_headCount (h : headCount L d = 0) : DiskFits L d :=
  ⟨h ▸ L.pos, fun i hi => by omega⟩

/-- `redone` looks only at the header and at the log blocks. -/
theorem logged_congr {c : Disk} (hd : DiskFits L d)
    (h : ∀ i < L.size, c (L.start + i) = d (L.start + i)) :
    logged L c = logged L d ∧ DiskFits L c := by
  have h0 : c L.start = d L.start := h 0 L.pos
  have hc : headCount L c = headCount L d := by simp only [headCount, h0]
  refine ⟨?_, ⟨hc ▸ hd.lt_size, fun i hi => h0 ▸ hd.home i (hc ▸ hi)⟩⟩
  simp only [logged, hc, h0]
  refine List.map_congr_left fun i hi => ?_
  have hi : i < headCount L d := List.mem_range.mp hi
  have := hd.lt_size
  rw [Nat.add_assoc, h (i + 1) (by omega)]

/-! ### Recovery -/

/-- The writes a complete recovery issues. -/
def recoverWrites (L : LogArea) (d : Disk) : List (ℕ × Block) :=
  logged L d ++ [(L.start, emptyHead (d L.start))]

theorem logged_ne {i : ℕ} (hd : DiskFits L d) (hi : i < L.size) :
    ∀ w ∈ logged L d, w.1 ≠ L.start + i := by
  intro w hw
  obtain ⟨j, hj, rfl⟩ := List.mem_map.mp hw
  exact ((hd.home j (List.mem_range.mp hj)).ne hi).symm

/-- The disk after a complete recovery has an empty log and the redone home blocks. -/
theorem recoverWrites_done (L : LogArea) (d : Disk) :
    headCount L (applyWrites (recoverWrites L d) d) = 0 ∧
      HomeEq L (applyWrites (recoverWrites L d) d) (redone L d) := by
  rw [recoverWrites, applyWrites_append]
  refine ⟨by simp [headCount, emptyHead], ?_⟩
  exact homeEq_applyWrites fun w hw => by
    rw [List.mem_singleton.mp hw]; exact not_isHome_start

/-- **Recovery keeps `redone`.** Whatever prefix of its writes reaches the disk, recovering again
gives the same home blocks. -/
theorem redone_recover (hd : DiskFits L d) (k : ℕ) :
    DiskFits L (applyWrites ((recoverWrites L d).take k) d) ∧
      HomeEq L (redone L (applyWrites ((recoverWrites L d).take k) d)) (redone L d) := by
  by_cases hk : k ≤ (logged L d).length
  · -- the header is still there, and so are the log blocks: the installs so far are redone
    rw [recoverWrites, List.take_append_of_le_length hk]
    obtain ⟨hlog, hfit⟩ := logged_congr (c := applyWrites ((logged L d).take k) d) hd fun i hi =>
      applyWrites_of_notMem fun w hw => logged_ne hd hi w (List.mem_of_mem_take hw)
    refine ⟨hfit, ?_⟩
    rw [redone, hlog, applyWrites_take_self]
    exact HomeEq.refl L _
  · rw [List.take_of_length_le (by simp [recoverWrites]; omega)]
    obtain ⟨h0, hhome⟩ := recoverWrites_done L d
    exact ⟨diskFits_of_headCount h0, by rwa [redone_of_headCount h0]⟩

/-- The in-memory header is the one on the disk, and the cache agrees with the disk on the log
area: the situation in which `install_trans` starts. -/
structure HeadOnDisk (L : LogArea) (s : LogState) : Prop where
  coherent : s.bc.view.Coherent
  count : s.lh.n.toNat = headCount L s.bc.disk
  block : ∀ i < s.lh.n.toNat, s.lh.block i = s.bc.disk L.start (i + 1)
  data : ∀ i < L.size, s.bc.data (L.start + i) = s.bc.disk (L.start + i)
  diskFits : DiskFits L s.bc.disk

theorem HeadOnDisk.fits (h : HeadOnDisk L s) : s.lh.Fits L :=
  ⟨h.count ▸ h.diskFits.lt_size, fun i hi => by
    rw [h.block i hi]; exact h.diskFits.home i (h.count ▸ hi)⟩

theorem HeadOnDisk.homeWrites (h : HeadOnDisk L s) :
    s.homeWrites L s.lh.n.toNat = logged L s.bc.disk := by
  unfold LogState.homeWrites logged
  rw [← h.count]
  refine List.map_congr_left fun i hi => ?_
  have hi : i < s.lh.n.toNat := List.mem_range.mp hi
  have := h.fits.lt_size
  rw [h.block i hi, Nat.add_assoc, h.data (i + 1) (by omega)]

/-- Installing the log and clearing the header, in `commit` and in recovery alike. -/
theorem HeadOnDisk.install {r : Bool} (h : HeadOnDisk L s) :
    (((s.installTrans L e r).clearHead).writeHead L e).lh.n = 0 ∧
      (((s.installTrans L e r).clearHead).writeHead L e).bc.view =
        { s.bc.view.writes (recoverWrites L s.bc.disk) with
          refs := fun b => s.bc.refs b - if r then 0 else s.lh.blocks.count b } ∧
      (((s.installTrans L e r).clearHead).writeHead L e).bc.view.Coherent := by
  obtain ⟨-, hv⟩ := LogState.view_installTrans (e := e) (r := r) h.coherent h.fits
  rw [h.homeWrites] at hv
  have hcoh : (s.installTrans L e r).clearHead.bc.view.Coherent := by
    change (s.installTrans L e r).bc.view.Coherent
    rw [hv]
    refine h.coherent.unpin fun b hb => ?_
    cases r with
    | true => simp at hb
    | false =>
      rw [← h.homeWrites]
      obtain ⟨i, hi, hib⟩ := List.mem_map.mp (List.count_pos_iff.mp hb)
      exact ⟨_, List.mem_map.mpr ⟨i, hi, rfl⟩, hib⟩
  obtain ⟨hlh, hw⟩ := LogState.view_writeHead (L := L) (e := e) hcoh
  refine ⟨by rw [hlh]; rfl, ?_, by rw [hw]; exact hcoh.writes _⟩
  have hhead : (s.installTrans L e r).bc.data L.start = s.bc.disk L.start := by
    rw [← view_data, hv]
    refine (applyWrites_of_notMem (logged_ne h.diskFits L.pos)).trans ?_
    exact h.data 0 L.pos
  rw [hw, show (s.installTrans L e r).clearHead.bc = (s.installTrans L e r).bc from rfl, hhead,
    LogState.clearHead, encode_zero, hv, recoverWrites, View.writes_append]
  rfl

theorem headOnDisk_readHead (hd : DiskFits L d) :
    HeadOnDisk L ((LogState.boot d).readHead L e) ∧
      ((LogState.boot d).readHead L e).bc.view = ⟨d, fun _ => 0, d, []⟩ := by
  have hboot : (LogState.boot d).bc.view = ⟨d, fun _ => 0, d, []⟩ := rfl
  obtain ⟨hv, hn, hblock⟩ := LogState.view_readHead (L := L) (e := e) (s := LogState.boot d)
    (by rw [hboot]; exact fun _ _ => rfl)
  rw [hboot] at hv
  have hdisk : ((LogState.boot d).readHead L e).bc.disk = d := congrArg View.disk hv
  have hdata : ∀ b, ((LogState.boot d).readHead L e).bc.data b = d b := fun b =>
    congrFun (congrArg View.data hv) b
  refine ⟨⟨by rw [hv]; exact fun _ _ => rfl, ?_, fun i hi => ?_, fun i _ => ?_, ?_⟩, hv⟩
  · rw [hn, hdisk]; rfl
  · rw [hdisk, hblock i (hn ▸ hi)]; rfl
  · rw [hdata, hdisk]
  · rwa [hdisk]

/-- Recovery issues `recoverWrites`, and its disk is their effect. -/
theorem recoverFromLog_spec (hd : DiskFits L d) :
    ((LogState.boot d).recoverFromLog L e).bc.issued = recoverWrites L d ∧
      ((LogState.boot d).recoverFromLog L e).bc.disk = applyWrites (recoverWrites L d) d := by
  obtain ⟨hhead, hv⟩ := headOnDisk_readHead (e := e) hd
  have hw := (hhead.install (e := e) (r := true)).2.1
  rw [hv, show ((LogState.boot d).readHead L e).bc.disk = d from congrArg View.disk hv] at hw
  refine ⟨?_, congrArg View.disk hw⟩
  exact (congrArg View.issued hw).trans (List.nil_append _)

/-! ### Transactions -/

/-- Between transactions: nothing is logged, nothing is held, and the cache agrees with a disk
whose log is empty. -/
structure Idle (L : LogArea) (s : LogState) : Prop where
  lh : s.lh.n = 0
  view : s.bc.view = ⟨s.bc.disk, fun _ => 0, s.bc.disk, s.bc.issued⟩
  headCount : headCount L s.bc.disk = 0

theorem Idle.pending (h : Idle L s) (o : ℤ) :
    LogState.Pending L s.bc.disk s.bc.issued [] { s with outstanding := o } := by
  have hblocks : s.lh.blocks = [] := by simp [LogHeader.blocks, h.lh]
  refine ⟨?_, h.lh.ge, ⟨by simp [h.lh, L.pos], by simp [h.lh]⟩, ?_⟩
  · simpa [hblocks] using h.view
  · simp [hblocks]

/-- The header writes that commit a transaction, among a sequence of writes. -/
def commits (L : LogArea) (ws : List (ℕ × Block)) : ℕ :=
  ws.countP fun w => w.1 = L.start ∧ 0 < (w.2 0).toInt

theorem commits_append (ws vs : List (ℕ × Block)) :
    commits L (ws ++ vs) = commits L ws + commits L vs := List.countP_append

theorem commits_of_ne {ws : List (ℕ × Block)} (h : ∀ w ∈ ws, w.1 ≠ L.start) :
    commits L ws = 0 := by
  rw [commits, List.countP_eq_zero]
  intro w hw
  simp [h w hw]

theorem commits_recoverWrites (hd : DiskFits L d) : commits L (recoverWrites L d) = 0 := by
  rw [recoverWrites, commits_append, commits_of_ne (logged_ne hd L.pos)]
  simp [commits, emptyHead]

/-- What the writes `W` of a transaction that changes the blocks `ws` do to a disk `d` with an
empty log: after every prefix recovery finds either `d` or all of the transaction, depending on
whether the commit is in the prefix. -/
structure TxTrace (L : LogArea) (d : Disk) (ws W : List (ℕ × Block)) : Prop where
  fits : ∀ k, DiskFits L (applyWrites (W.take k) d)
  home : ∀ k, HomeEq L (redone L (applyWrites (W.take k) d))
    (if commits L (W.take k) = 0 then d else applyWrites ws d)
  once : commits L W = if ws = [] then 0 else 1
  done : headCount L (applyWrites W d) = 0

/-- The writes before the commit go to the log area of a disk whose header stays empty; from the
commit on, the rest of the transaction is what recovery would do. -/
theorem TxTrace.of_commit {ws W : List (ℕ × Block)} {h : Block} (hd : headCount L d = 0)
    (hws : ws ≠ []) (hW : ∀ w ∈ W, ¬L.IsHome w.1) (hW0 : ∀ w ∈ W, w.1 ≠ L.start)
    (hh : 0 < (h 0).toInt) (hfit : DiskFits L (applyWrites (W ++ [(L.start, h)]) d))
    (hred : HomeEq L (redone L (applyWrites (W ++ [(L.start, h)]) d)) (applyWrites ws d)) :
    TxTrace L d ws (W ++ [(L.start, h)] ++
      recoverWrites L (applyWrites (W ++ [(L.start, h)]) d)) := by
  generalize hd2 : applyWrites (W ++ [(L.start, h)]) d = d2 at hfit hred ⊢
  have hcommit : commits L (W ++ [(L.start, h)]) = 1 := by
    rw [commits_append, commits_of_ne hW0]
    simp [commits, hh]
  -- a prefix either stops before the commit or contains it
  have key : ∀ k, (k ≤ W.length ∧ (W ++ [(L.start, h)] ++ recoverWrites L d2).take k = W.take k) ∨
      ∃ j, (W ++ [(L.start, h)] ++ recoverWrites L d2).take k =
        W ++ [(L.start, h)] ++ (recoverWrites L d2).take j := by
    intro k
    by_cases hk : k ≤ W.length
    · left
      rw [List.append_assoc, List.take_append_of_le_length hk]
      exact ⟨hk, rfl⟩
    · right
      refine ⟨k - (W ++ [(L.start, h)]).length, ?_⟩
      rw [List.take_append, List.take_of_length_le (by simp; omega)]
  have hbefore : ∀ k, headCount L (applyWrites (W.take k) d) = 0 := fun k => by
    rw [headCount, applyWrites_of_notMem fun w hw => hW0 w (List.mem_of_mem_take hw)]
    exact hd
  refine ⟨fun k => ?_, fun k => ?_, ?_, ?_⟩
  · rcases key k with ⟨-, hk⟩ | ⟨j, hj⟩
    · rw [hk]; exact diskFits_of_headCount (hbefore k)
    · rw [hj, applyWrites_append, hd2]; exact (redone_recover hfit j).1
  · rcases key k with ⟨-, hk⟩ | ⟨j, hj⟩
    · rw [hk, commits_of_ne fun w hw => hW0 w (List.mem_of_mem_take hw), if_pos rfl,
        redone_of_headCount (hbefore k)]
      exact homeEq_applyWrites fun w hw => hW w (List.mem_of_mem_take hw)
    · rw [hj, commits_append, hcommit, if_neg (by omega), applyWrites_append, hd2]
      exact (redone_recover hfit j).2.trans hred
  · rw [commits_append, hcommit, commits_recoverWrites hfit, if_neg hws]
  · rw [applyWrites_append, hd2]
    exact (recoverWrites_done L d2).1

/-- The header block that commits: `n` and the listed blocks. -/
theorem encode_head {lh : LogHeader} {h : Block} (hn : 0 ≤ lh.n) (hfit : lh.Fits L) :
    (lh.encode h 0).toInt = lh.n ∧
      ∀ i < lh.n.toNat, lh.encode h (i + 1) = lh.block i := by
  have := hfit.lt_size
  have := L.fits
  refine ⟨?_, fun i hi => ?_⟩
  · rw [LogHeader.encode, if_pos rfl, BitVec.toInt_ofInt]
    exact Int.bmod_eq_of_le (by omega) (by omega)
  · rw [LogHeader.encode, if_neg (Nat.succ_ne_zero i), Nat.add_sub_cancel, if_pos hi]

section Commit

variable {iss ws : List (ℕ × Block)}

theorem LogState.Pending.data_of_not_isHome (hs : LogState.Pending L d iss ws s)
    (hws : ∀ w ∈ ws, L.IsHome w.1) {b : ℕ} (hb : ¬L.IsHome b) : s.bc.data b = d b := by
  rw [← view_data, hs.view]
  exact applyWrites_of_notMem fun w hw hwb => hb (hwb ▸ hws w hw)

/-- The two steps of `commit` up to the commit point. -/
theorem LogState.Pending.head (hs : LogState.Pending L d iss ws s) (hws : ∀ w ∈ ws, L.IsHome w.1) :
    ∃ h : Block, ((s.writeLog L e).writeHead L e).lh = s.lh ∧
      ((s.writeLog L e).writeHead L e).bc.view =
        s.bc.view.writes (s.logWrites L s.lh.n.toNat ++ [(L.start, s.lh.encode h)]) ∧
      HeadOnDisk L ((s.writeLog L e).writeHead L e) := by
  obtain ⟨hlh1, hv1⟩ := LogState.view_writeLog (e := e) hs.coherent hs.fits
  have hcoh1 : (s.writeLog L e).bc.view.Coherent := by rw [hv1]; exact hs.coherent.writes _
  obtain ⟨hlh2, hv2⟩ := LogState.view_writeHead (L := L) (e := e) hcoh1
  rw [hlh1, hv1, ← View.writes_append] at hv2
  generalize hh : (s.writeLog L e).bc.data L.start = h at hv2
  generalize (s.writeLog L e).writeHead L e = u at hlh2 hv2 ⊢
  rw [hlh1] at hlh2
  have hdisk : u.bc.disk =
      applyWrites (s.logWrites L s.lh.n.toNat ++ [(L.start, s.lh.encode h)]) d :=
    (congrArg View.disk hv2).trans (by rw [View.writes, hs.view])
  have hstart : u.bc.disk L.start = s.lh.encode h := by
    rw [hdisk, applyWrites_append]; simp
  obtain ⟨hn, hblock⟩ := encode_head (h := h) hs.nonneg hs.fits
  have hcount : headCount L u.bc.disk = s.lh.n.toNat := by rw [headCount, hstart, hn]
  refine ⟨h, hlh2, hv2, ?_, ?_, fun i hi => ?_, fun i hi => ?_, ?_, fun i hi => ?_⟩
  · rw [hv2]; exact hs.coherent.writes _
  · rw [hlh2, hcount]
  · rw [hlh2] at hi ⊢
    rw [hstart, hblock i hi]
  · -- on the log area the cache and the disk agreed before, and both got the same writes
    rw [← view_data, hv2, hdisk]
    refine applyWrites_agree (Or.inr ?_)
    exact hs.data_of_not_isHome hws fun hb => hb.ne hi rfl
  · rw [hcount]; exact hs.fits.lt_size
  · rw [hcount] at hi
    rw [hstart, hblock i hi]
    exact hs.fits.home i hi

/-- What the log blocks hold after `write_log`. -/
theorem applyWrites_logWrites {f : Disk} {i k : ℕ} (hi : i < k) :
    applyWrites (s.logWrites L k) f (L.start + i + 1) = s.bc.data (s.lh.block i).toNat := by
  have hval : ∀ w ∈ s.logWrites L k, w.2 = s.bc.data (s.lh.block (w.1 - L.start - 1)).toNat := by
    intro w hw
    obtain ⟨j, -, rfl⟩ := List.mem_map.mp hw
    simp only [Nat.add_sub_cancel_left, Nat.add_assoc, Nat.add_sub_cancel]
  rw [applyWrites_eq_of_forall (f := fun b => s.bc.data (s.lh.block (b - L.start - 1)).toNat) hval
    (Or.inl ⟨_, List.mem_map.mpr ⟨i, List.mem_range.mpr hi, rfl⟩, rfl⟩)]
  simp only [Nat.add_sub_cancel_left, Nat.add_assoc, Nat.add_sub_cancel]

/-- At the commit point the log holds the whole transaction. -/
theorem LogState.Pending.redone_head (hs : LogState.Pending L d iss ws s) {u : LogState} {h : Block}
    (hlh : u.lh = s.lh)
    (hv : u.bc.view =
      s.bc.view.writes (s.logWrites L s.lh.n.toNat ++ [(L.start, s.lh.encode h)]))
    (hu : HeadOnDisk L u) : HomeEq L (redone L u.bc.disk) (applyWrites ws d) := by
  have hval : ∀ w ∈ logged L u.bc.disk, w.2 = applyWrites ws d w.1 := by
    intro w hw
    rw [← hu.homeWrites, hlh] at hw
    obtain ⟨i, hi, rfl⟩ := List.mem_map.mp hw
    have hi : i < s.lh.n.toNat := List.mem_range.mp hi
    rw [← view_data, hv, hlh]
    simp only [View.writes, applyWrites_append, applyWrites_cons, applyWrites_nil]
    rw [Function.update_of_ne (by omega), applyWrites_logWrites hi, ← view_data, hs.view]
  intro b hb
  refine applyWrites_eq_of_forall hval ?_
  by_cases hmem : b ∈ s.lh.blocks
  · left
    rw [← hu.homeWrites, hlh]
    obtain ⟨i, hi, hib⟩ := List.mem_map.mp hmem
    exact ⟨_, List.mem_map.mpr ⟨i, hi, rfl⟩, by rw [hlh]; exact hib⟩
  · right
    rw [hs.mem_blocks] at hmem
    rw [applyWrites_of_notMem fun w hw hwb => hmem ⟨w, hw, hwb⟩,
      show u.bc.disk = _ from congrArg View.disk hv, View.writes, hs.view]
    refine applyWrites_of_notMem fun w hw => ?_
    rcases List.mem_append.mp hw with hw | hw
    · exact LogState.logWrites_ne hs.fits.lt_size hb w hw
    · rw [List.mem_singleton.mp hw]
      exact hb.ne L.pos

/-- A transaction that lists no block has changed none. -/
theorem LogState.Pending.eq_nil (hs : LogState.Pending L d iss ws s) (hn : s.lh.n = 0) :
    ws = [] := by
  refine List.eq_nil_iff_forall_not_mem.mpr fun w hw => ?_
  have := (hs.mem_blocks w.1).mpr ⟨w, hw, rfl⟩
  simp [LogHeader.blocks, hn] at this

/-- A transaction that lists a block has changed one. -/
theorem LogState.Pending.ne_nil (hs : LogState.Pending L d iss ws s) (hn : 0 < s.lh.n) :
    ws ≠ [] := by
  rintro rfl
  have h0 : (s.lh.block 0).toNat ∈ s.lh.blocks :=
    List.mem_map.mpr ⟨0, List.mem_range.mpr (by omega), rfl⟩
  simpa using (hs.mem_blocks _).mp h0

/-- **Committing an open transaction.** -/
theorem LogState.Pending.commit (hs : LogState.Pending L d iss ws s) (hd : headCount L d = 0)
    (hws : ∀ w ∈ ws, L.IsHome w.1) :
    ∃ W, TxTrace L d ws W ∧ (s.commit L e).bc.issued = iss ++ W ∧
      (s.commit L e).bc.disk = applyWrites W d ∧ Idle L (s.commit L e) := by
  by_cases hn : 0 < s.lh.n
  · obtain ⟨h, hlh, hv, hu⟩ := hs.head (e := e) hws
    have hred := hs.redone_head hlh hv hu
    obtain ⟨hn0, hfin, hcoh⟩ := hu.install (e := e) (r := false)
    rw [LogState.commit, if_pos hn]
    generalize (s.writeLog L e).writeHead L e = u at hlh hv hu hred hn0 hfin hcoh ⊢
    generalize ((u.installTrans L e false).clearHead).writeHead L e = t at hn0 hfin hcoh ⊢
    have hdisk : u.bc.disk =
        applyWrites (s.logWrites L s.lh.n.toNat ++ [(L.start, s.lh.encode h)]) d :=
      (congrArg View.disk hv).trans (by rw [View.writes, hs.view])
    have htrace : TxTrace L d ws (s.logWrites L s.lh.n.toNat ++ [(L.start, s.lh.encode h)] ++
        recoverWrites L u.bc.disk) := by
      rw [hdisk] at hred ⊢
      refine TxTrace.of_commit hd (hs.ne_nil hn) ?_ ?_ ?_ (hdisk ▸ hu.diskFits) hred
      · exact fun w hw hb => LogState.logWrites_ne hs.fits.lt_size hb w hw rfl
      · rintro w hw
        obtain ⟨i, -, rfl⟩ := List.mem_map.mp hw
        simp only
        omega
      · rwa [(encode_head hs.nonneg hs.fits).1]
    rw [hv, ← View.writes_append] at hfin
    generalize s.logWrites L s.lh.n.toNat ++ [(L.start, s.lh.encode h)] ++
      recoverWrites L u.bc.disk = W at htrace hfin
    have hissued : t.bc.issued = iss ++ W :=
      (congrArg View.issued hfin).trans (by rw [View.writes, hs.view])
    have hdisk' : t.bc.disk = applyWrites W d :=
      (congrArg View.disk hfin).trans (by rw [View.writes, hs.view])
    have hrefs : ∀ b, t.bc.view.refs b = 0 := fun b => by
      have hub : u.bc.refs b = s.lh.blocks.count b := by rw [← view_refs, hv, hs.view]; rfl
      rw [hfin]
      simp [hub, hlh]
    refine ⟨W, htrace, hissued, hdisk', hn0, ?_, by rw [hdisk']; exact htrace.done⟩
    exact View.ext (funext fun b => hcoh b (hrefs b)) (funext hrefs) rfl rfl
  · have hn0 : s.lh.n = 0 := le_antisymm (not_lt.mp hn) hs.nonneg
    obtain rfl := hs.eq_nil hn0
    have hdisk : s.bc.disk = d := congrArg View.disk hs.view
    have hissued : s.bc.issued = iss := congrArg View.issued hs.view
    rw [LogState.commit, if_neg hn]
    refine ⟨[], ⟨fun k => ?_, fun k => ?_, rfl, hd⟩, by simp [hissued], hdisk, hn0, ?_, hdisk ▸ hd⟩
    · simpa using diskFits_of_headCount hd
    · simpa [commits, redone_of_headCount hd] using HomeEq.refl L d
    · rw [hs.view, hdisk, hissued]
      simp [LogHeader.blocks, hn0]

end Commit

/-- **One transaction.** Unless the log panics, it issues a `TxTrace` and leaves the machine
idle. -/
theorem logTx_spec {ws : List (ℕ × Block)} (hs : Idle L s) (hws : ∀ w ∈ ws, L.IsHome w.1)
    (ht : s.logTx L e ws = .ok t) :
    ∃ W, TxTrace L s.bc.disk ws W ∧ t.bc.issued = s.bc.issued ++ W ∧
      t.bc.disk = applyWrites W s.bc.disk ∧ Idle L t := by
  simp only [LogState.logTx, bind, Except.bind, pure, Except.pure] at ht
  split at ht
  · cases ht
  · rename_i u hu
    cases ht
    have hp := (hs.pending (s.outstanding + 1)).updates hws hu
    exact LogState.Pending.commit (s := { u with outstanding := u.outstanding - 1 })
      ⟨hp.view, hp.nonneg, hp.fits, hp.mem_blocks⟩ hs.headCount hws

/-! ### Runs -/

/-- The contents after a sequence of transactions. -/
def applyTxs (txs : List (List (ℕ × Block))) (d : Disk) : Disk :=
  txs.foldl (fun d tx => applyWrites tx d) d

theorem HomeEq.applyTxs {d' : Disk} (h : HomeEq L d d') (txs : List (List (ℕ × Block))) :
    HomeEq L (applyTxs txs d) (applyTxs txs d') := by
  induction txs generalizing d d' with
  | nil => exact h
  | cons tx txs ih => exact ih (h.applyWrites tx)

/-- The transactions of a sequence that change a block at all: `commit` writes nothing for the
others. -/
def effective (txs : List (List (ℕ × Block))) : List (List (ℕ × Block)) :=
  txs.filter fun tx => !tx.isEmpty

/-- **Runs.** After every prefix of the writes of a run, recovery finds the contents after the
transactions whose commit is in the prefix. -/
theorem runTxs_spec {txs : List (List (ℕ × Block))} (hs : Idle L s)
    (htxs : ∀ tx ∈ txs, ∀ w ∈ tx, L.IsHome w.1) :
    ∃ W, (s.runTxs L e txs).bc.issued = s.bc.issued ++ W ∧
      ∀ k, DiskFits L (applyWrites (W.take k) s.bc.disk) ∧
        HomeEq L (redone L (applyWrites (W.take k) s.bc.disk))
          (applyTxs ((effective txs).take (commits L (W.take k))) s.bc.disk) := by
  induction txs generalizing s with
  | nil =>
    refine ⟨[], by simp [LogState.runTxs], fun k => ?_⟩
    simpa [effective, applyTxs, redone_of_headCount hs.headCount] using
      ⟨diskFits_of_headCount hs.headCount, HomeEq.refl L _⟩
  | cons tx txs ih =>
    rw [LogState.runTxs]
    cases ht : s.logTx L e tx with
    | error p =>
      refine ⟨[], by simp, fun k => ?_⟩
      simpa [commits, applyTxs, redone_of_headCount hs.headCount] using
        ⟨diskFits_of_headCount hs.headCount, HomeEq.refl L _⟩
    | ok t =>
      obtain ⟨V, hV, hiss, hdisk, hidle⟩ := logTx_spec hs (htxs tx List.mem_cons_self) ht
      obtain ⟨W, hW, hrun⟩ := ih hidle fun tx htx => htxs tx (List.mem_cons_of_mem _ htx)
      have hone := hV.once
      -- the transaction as a whole, and what it leaves to the transactions after it
      have hend : HomeEq L t.bc.disk (applyWrites tx s.bc.disk) := by
        have h := hV.home V.length
        rw [List.take_length, ← hdisk, redone_of_headCount hidle.headCount] at h
        by_cases htx : tx = []
        · rw [hone, if_pos htx, if_pos rfl] at h
          rwa [htx, applyWrites_nil]
        · rwa [hone, if_neg htx, if_neg one_ne_zero] at h
      refine ⟨V ++ W, by simp only [hW, hiss, List.append_assoc], fun k => ?_⟩
      by_cases hk : k ≤ V.length
      · rw [List.take_append_of_le_length hk]
        refine ⟨hV.fits k, ?_⟩
        have hle : commits L (V.take k) ≤ commits L V := (List.take_sublist k V).countP_le
        have hhome := hV.home k
        by_cases hc : commits L (V.take k) = 0
        · rw [if_pos hc] at hhome
          rw [hc]
          exact hhome
        · have htx : tx ≠ [] := by rintro rfl; rw [hone, if_pos rfl] at hle; omega
          rw [if_neg hc] at hhome
          rw [hone, if_neg htx] at hle
          rw [show commits L (V.take k) = 1 by omega]
          simpa [effective, htx, applyTxs] using hhome
      · rw [List.take_append, List.take_of_length_le (by omega), applyWrites_append, ← hdisk,
          commits_append, hone]
        obtain ⟨hfit, hhome⟩ := hrun (k - V.length)
        refine ⟨hfit, hhome.trans ((hend.applyTxs _).trans ?_)⟩
        by_cases htx : tx = []
        · simpa [htx, effective] using HomeEq.refl L _
        · simpa [htx, effective, Nat.add_comm 1, applyTxs] using HomeEq.refl L _

/-- The disk that is left when a recovery from disk `d` crashes after its first `k` writes. -/
def crashedRecovery (L : LogArea) (e : Recycle) (k : ℕ) (d : Disk) : Disk :=
  applyWrites (((LogState.boot d).recoverFromLog L e).bc.issued.take k) d

/-- Recoveries that crash keep what the next recovery will find. -/
theorem crashedRecovery_spec (hd : DiskFits L d) (rs : List (Recycle × ℕ)) :
    DiskFits L (rs.foldl (fun d r => crashedRecovery L r.1 r.2 d) d) ∧
      HomeEq L (redone L (rs.foldl (fun d r => crashedRecovery L r.1 r.2 d) d)) (redone L d) := by
  induction rs generalizing d with
  | nil => exact ⟨hd, HomeEq.refl L _⟩
  | cons r rs ih =>
    obtain ⟨hfit, hhome⟩ := redone_recover hd r.2
    rw [← (recoverFromLog_spec (e := r.1) hd).1] at hfit hhome
    obtain ⟨hfit', hhome'⟩ := ih hfit
    exact ⟨hfit', hhome'.trans hhome⟩

/-- The machine is idle once recovery has finished. -/
theorem idle_recoverFromLog (hd : DiskFits L d) :
    Idle L ((LogState.boot d).recoverFromLog L e) := by
  obtain ⟨hhead, hv⟩ := headOnDisk_readHead (e := e) hd
  obtain ⟨hn, hw, hcoh⟩ := hhead.install (e := e) (r := true)
  obtain ⟨-, hdisk⟩ := recoverFromLog_spec (e := e) hd
  have hrefs : ∀ b, ((LogState.boot d).recoverFromLog L e).bc.view.refs b = 0 := fun b => by
    rw [LogState.recoverFromLog, hw]
    exact congrFun (congrArg View.refs hv) b
  refine ⟨hn, ?_, by rw [hdisk]; exact (recoverWrites_done L d).1⟩
  exact View.ext (funext fun b => hcoh b (hrefs b)) (funext hrefs) rfl rfl

/-- Crashing at any point of a run that starts with recovery. -/
theorem crashed_run {txs : List (List (ℕ × Block))} (hd : DiskFits L d)
    (htxs : ∀ tx ∈ txs, ∀ w ∈ tx, L.IsHome w.1) (e₀ e₁ : Recycle) (k : ℕ) :
    let W := (((LogState.boot d).recoverFromLog L e₀).runTxs L e₁ txs).bc.issued.take k
    DiskFits L (applyWrites W d) ∧
      HomeEq L (redone L (applyWrites W d))
        (applyTxs ((effective txs).take (commits L W)) (redone L d)) := by
  intro W
  obtain ⟨hiss, hdisk⟩ := recoverFromLog_spec (e := e₀) hd
  obtain ⟨V, hV, hrun⟩ := runTxs_spec (e := e₁) (idle_recoverFromLog (e := e₀) hd) htxs
  have hW : W = (recoverWrites L d ++ V).take k := by rw [← hiss, ← hV]
  rw [hW]
  by_cases hk : k ≤ (recoverWrites L d).length
  · -- still in the first recovery, where nothing commits
    rw [List.take_append_of_le_length hk]
    obtain ⟨hfit, hhome⟩ := redone_recover hd k
    refine ⟨hfit, ?_⟩
    have hle : commits L ((recoverWrites L d).take k) ≤ commits L (recoverWrites L d) :=
      (List.take_sublist _ _).countP_le
    rw [commits_recoverWrites hd, Nat.le_zero] at hle
    rwa [hle]
  · rw [List.take_append, List.take_of_length_le (by omega), applyWrites_append, ← hdisk,
      commits_append, commits_recoverWrites hd, Nat.zero_add]
    obtain ⟨hfit, hhome⟩ := hrun (k - (recoverWrites L d).length)
    refine ⟨hfit, hhome.trans (HomeEq.applyTxs ?_ _)⟩
    rw [hdisk]
    exact (recoverWrites_done L d).2

/-- **Crash atomicity.** A machine boots on a disk `d`, recovers, and runs the transactions `txs`.
It crashes when some prefix `W` of the writes it issues has reached the disk, perhaps still in that
recovery, and again in any number of further recoveries, each after any number of writes. Once a
recovery completes, every home block holds what it holds after the first `commits L W`
transactions, counting those that change a block, and the log is empty.

The transactions start from `redone L d`, which is `d` itself when the log on `d` is empty. -/
theorem crash_atomicity (hd : DiskFits L d) {txs : List (List (ℕ × Block))}
    (htxs : ∀ tx ∈ txs, ∀ w ∈ tx, L.IsHome w.1) (e₀ e₁ : Recycle) (crash : ℕ)
    (reboots : List (Recycle × ℕ)) (e₂ : Recycle) :
    let W := (((LogState.boot d).recoverFromLog L e₀).runTxs L e₁ txs).bc.issued.take crash
    let d' := reboots.foldl (fun d r => crashedRecovery L r.1 r.2 d) (applyWrites W d)
    let final := ((LogState.boot d').recoverFromLog L e₂).bc.disk
    headCount L final = 0 ∧
      HomeEq L final (applyTxs ((effective txs).take (commits L W)) (redone L d)) := by
  intro W d' final
  obtain ⟨hfit, hhome⟩ := crashed_run hd htxs e₀ e₁ crash
  obtain ⟨hfit', hhome'⟩ := crashedRecovery_spec hfit reboots
  have hfinal : final = applyWrites (recoverWrites L d') d' := (recoverFromLog_spec hfit').2
  obtain ⟨h0, hdone⟩ := recoverWrites_done L d'
  rw [hfinal]
  exact ⟨h0, hdone.trans (hhome'.trans hhome)⟩

/-- Two blocks change in one transaction. The machine crashes after the first of them has been
installed, and recovery crashes before it installs the second. -/
theorem crash_atomicity_midInstall :
    let d : Disk := fun _ _ => 0
    let txs : List (List (ℕ × Block)) := [[(50, fun _ => 7), (51, fun _ => 8)]]
    let never : Recycle := fun _ _ => false
    let W :=
      (((LogState.boot d).recoverFromLog mkfsLog never).runTxs mkfsLog never txs).bc.issued.take 5
    let d' := [(never, 1)].foldl (fun d r => crashedRecovery mkfsLog r.1 r.2 d) (applyWrites W d)
    let final := ((LogState.boot d').recoverFromLog mkfsLog never).bc.disk
    DiskFits mkfsLog d ∧ (∀ tx ∈ txs, ∀ w ∈ tx, mkfsLog.IsHome w.1) ∧ commits mkfsLog W = 1 ∧
      headCount mkfsLog final = 0 ∧
      HomeEq mkfsLog final (applyTxs ((effective txs).take (commits mkfsLog W))
        (redone mkfsLog d)) := by
  intro d txs never W d' final
  have hd : DiskFits mkfsLog d := diskFits_of_headCount (by decide)
  have htxs : ∀ tx ∈ txs, ∀ w ∈ tx, mkfsLog.IsHome w.1 := by
    rintro tx htx w hw
    obtain rfl := List.mem_singleton.mp htx
    rcases List.mem_cons.mp hw with rfl | hw
    · decide
    · rw [List.mem_singleton.mp hw]; decide
  exact ⟨hd, htxs, by decide +kernel, crash_atomicity hd htxs never never 5 [(never, 1)] never⟩

end Xv6
