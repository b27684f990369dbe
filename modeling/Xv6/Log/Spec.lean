import Xv6.Log.Redo

/-!
# What each operation of the log writes

One lemma per operation of `Xv6.Log.Redo`, on the abstract cache: which blocks it writes, in which
order, and with which contents. Callers use these and never unfold the operations.
-/

namespace Xv6

/-! ### Write-through on the abstract cache -/

namespace View

variable {v : View} {b : ℕ}

/-- Blocks written through the cache to the disk, in order. -/
def writes (v : View) (ws : List (ℕ × Block)) : View :=
  { v with
    data := applyWrites ws v.data, disk := applyWrites ws v.disk, issued := v.issued ++ ws }

@[simp] theorem writes_nil (v : View) : v.writes [] = v := by simp [writes]

theorem writes_append (v : View) (ws vs : List (ℕ × Block)) :
    v.writes (ws ++ vs) = (v.writes ws).writes vs := by
  simp [writes, applyWrites_append]

@[simp] theorem writes_refs (v : View) (ws : List (ℕ × Block)) : (v.writes ws).refs = v.refs := rfl

theorem Coherent.writes (h : v.Coherent) (ws : List (ℕ × Block)) : (v.writes ws).Coherent :=
  fun b hb => applyWrites_agree (Or.inr (h b hb))

theorem Coherent.ref (h : v.Coherent) (b : ℕ) :
    View.Coherent { v with refs := Function.update v.refs b (v.refs b + 1) } := by
  intro x hx
  by_cases hxb : x = b
  · subst hxb; simp at hx
  · exact h x (by simpa [hxb] using hx)

/-- References may be dropped from blocks that have been written through. -/
theorem Coherent.unpin (h : v.Coherent) {ws : List (ℕ × Block)} {p : ℕ → ℕ}
    (hp : ∀ b, 0 < p b → ∃ w ∈ ws, w.1 = b) :
    View.Coherent { v.writes ws with refs := fun b => v.refs b - p b } := by
  intro b hb
  apply applyWrites_agree
  by_cases hpb : 0 < p b
  · exact Or.inl (hp b hpb)
  · exact Or.inr (h b (by simp only at hb; omega))

end View

/-- No block of the log area is a home block. -/
theorem LogArea.IsHome.ne {L : LogArea} {b i : ℕ} (h : L.IsHome b) (hi : i < L.size) :
    L.start + i ≠ b := by
  obtain ⟨-, h | h⟩ := h <;> omega

/-- The block numbers a header lists. -/
def LogHeader.blocks (lh : LogHeader) : List ℕ :=
  (List.range lh.n.toNat).map fun i => (lh.block i).toNat

/-- A header that fits the log area and lists home blocks only. -/
structure LogHeader.Fits (L : LogArea) (lh : LogHeader) : Prop where
  /-- Every listed block has its log block. -/
  lt_size : lh.n.toNat < L.size
  /-- Every listed block is outside the log area. -/
  home : ∀ i < lh.n.toNat, L.IsHome (lh.block i).toNat

namespace LogState

variable {L : LogArea} {e : Recycle} {s : LogState} {tail : ℕ}

/-! ### Copying one block -/

@[simp] theorem lh_logBlock : (s.logBlock L e tail).lh = s.lh := rfl

@[simp] theorem lh_installBlock {r : Bool} : (s.installBlock L e r tail).lh = s.lh := rfl

/-- Holding two buffers at once. -/
theorem view_bread_bread {c : Bcache} {a b : ℕ} (h : c.view.Coherent) (hne : a ≠ b) :
    ((c.bread e a).bread e b).view =
      { c.view with
        refs := Function.update (Function.update c.view.refs a (c.refs a + 1)) b
          (c.refs b + 1) } := by
  have h1 : (c.bread e a).view = _ := view_bread h
  have hc : (c.bread e a).view.Coherent := by rw [h1]; exact h.ref a
  have hb : (c.bread e a).refs b = c.refs b := by rw [← view_refs, h1]; simp [hne.symm]
  rw [view_bread hc, hb, h1]

/-- Overwrite the held buffer of `b` and write it out. -/
theorem view_overwrite {v : View} {c : Bcache} {r : ℕ → ℕ} {b : ℕ} {x : Block}
    (hc : c.view = { v with refs := r }) (hr : 0 < r b) :
    ((c.setData b x).bwrite b).view = { v.writes [(b, x)] with refs := r } := by
  have hrefs : c.refs b = r b := congrFun (congrArg View.refs hc) b
  have h1 : (c.setData b x).view = _ := view_setData (by omega)
  rw [view_bwrite (by rw [← view_refs, h1]; simp [hrefs, hr]), ← view_data, ← view_disk,
    ← view_issued, h1, hc]
  refine View.ext ?_ rfl ?_ ?_ <;> simp [View.writes]

/-- The common body of the two copy loops: overwrite the held buffer of `b` with the contents of
`a` and write it out. -/
theorem view_copy {v : View} {c : Bcache} {r : ℕ → ℕ} {a b : ℕ}
    (hc : c.view = { v with refs := r }) (hr : 0 < r b) :
    ((c.setData b (c.data a)).bwrite b).view = { v.writes [(b, v.data a)] with refs := r } := by
  have hd : c.data a = v.data a := congrFun (congrArg View.data hc) a
  rw [hd]
  exact view_overwrite hc hr

/-- Dropping a reference, when the count of the block is known. -/
theorem view_unref_update {v : View} {c : Bcache} {r : ℕ → ℕ} {b x : ℕ}
    (hc : c.view = { v with refs := Function.update r b x }) :
    (c.unref b).view = { v with refs := Function.update r b (x - 1) } := by
  have hb : c.refs b = x := by rw [← view_refs, hc]; simp
  rw [view_unref, hb, hc]
  exact View.ext rfl (by simp) rfl rfl

/-- Giving back the two buffers a copy held. -/
theorem view_release {v : View} {c : Bcache} {a b x : ℕ} (hne : a ≠ b)
    (hc : c.view = { v with
      refs := Function.update (Function.update v.refs a (v.refs a + 1)) b x }) :
    ((c.brelse a).brelse b).view = { v with refs := Function.update v.refs b (x - 1) } := by
  rw [Function.update_comm hne] at hc
  have h1 := view_unref_update hc
  rw [Nat.add_sub_cancel, Function.update_comm hne.symm, Function.update_eq_self] at h1
  exact view_unref_update h1

/-- One iteration of `write_log` writes log block `tail`. -/
theorem view_logBlock (h : s.bc.view.Coherent)
    (hne : L.start + tail + 1 ≠ (s.lh.block tail).toNat) :
    (s.logBlock L e tail).bc.view =
      s.bc.view.writes [(L.start + tail + 1, s.bc.data (s.lh.block tail).toNat)] := by
  have hcopy := view_copy (a := (s.lh.block tail).toNat) (b := L.start + tail + 1)
    (view_bread_bread (e := e) h hne) (by simp [hne])
  rw [Function.update_comm hne] at hcopy
  refine (view_release (v := s.bc.view.writes _) hne.symm hcopy).trans ?_
  exact View.ext rfl (by simp) rfl rfl

/-- One iteration of `install_trans` writes the home of log block `tail` and, outside recovery,
drops the pin that `log_write` took on it. -/
theorem view_installBlock {r : Bool} (h : s.bc.view.Coherent)
    (hne : L.start + tail + 1 ≠ (s.lh.block tail).toNat) :
    (s.installBlock L e r tail).bc.view =
      { s.bc.view.writes [((s.lh.block tail).toNat, s.bc.data (L.start + tail + 1))] with
        refs := Function.update s.bc.view.refs (s.lh.block tail).toNat
          (s.bc.refs (s.lh.block tail).toNat - if r then 0 else 1) } := by
  have hcopy := view_copy (a := L.start + tail + 1) (b := (s.lh.block tail).toNat)
    (view_bread_bread (e := e) h hne) (by simp)
  cases r with
  | true => exact (view_release (v := s.bc.view.writes _) hne hcopy).trans rfl
  | false =>
    exact (view_release (v := s.bc.view.writes _) hne (view_unref_update hcopy)).trans rfl

/-! ### The loops -/

/-- The writes of the first `k` iterations of `write_log`. -/
def logWrites (L : LogArea) (s : LogState) (k : ℕ) : List (ℕ × Block) :=
  (List.range k).map fun i => (L.start + i + 1, s.bc.data (s.lh.block i).toNat)

/-- The writes of the first `k` iterations of `install_trans`. -/
def homeWrites (L : LogArea) (s : LogState) (k : ℕ) : List (ℕ × Block) :=
  (List.range k).map fun i => ((s.lh.block i).toNat, s.bc.data (L.start + i + 1))

theorem logWrites_succ (s : LogState) (k : ℕ) :
    s.logWrites L (k + 1) =
      s.logWrites L k ++ [(L.start + k + 1, s.bc.data (s.lh.block k).toNat)] := by
  simp [logWrites, List.range_succ]

theorem homeWrites_succ (s : LogState) (k : ℕ) :
    s.homeWrites L (k + 1) =
      s.homeWrites L k ++ [((s.lh.block k).toNat, s.bc.data (L.start + k + 1))] := by
  simp [homeWrites, List.range_succ]

theorem logWrites_ne {k b : ℕ} (hk : k < L.size) (hb : L.IsHome b) :
    ∀ w ∈ s.logWrites L k, w.1 ≠ b := by
  intro w hw
  obtain ⟨i, hi, rfl⟩ := List.mem_map.mp hw
  have hi : i < k := List.mem_range.mp hi
  rw [Nat.add_assoc]
  exact hb.ne (by omega)

theorem homeWrites_ne {i k : ℕ} (hfit : s.lh.Fits L) (hk : k ≤ s.lh.n.toNat) (hi : i < L.size) :
    ∀ w ∈ s.homeWrites L k, w.1 ≠ L.start + i := by
  intro w hw
  obtain ⟨j, hj, rfl⟩ := List.mem_map.mp hw
  have hj : j < k := List.mem_range.mp hj
  exact ((hfit.home j (by omega)).ne hi).symm

/-- `write_log` copies the listed blocks, as the cache holds them, to the log blocks in order. -/
theorem view_writeLog (h : s.bc.view.Coherent) (hfit : s.lh.Fits L) :
    (s.writeLog L e).lh = s.lh ∧
      (s.writeLog L e).bc.view = s.bc.view.writes (s.logWrites L s.lh.n.toNat) := by
  have key : ∀ k ≤ s.lh.n.toNat,
      ((List.range k).foldl (fun s tail => s.logBlock L e tail) s).lh = s.lh ∧
        ((List.range k).foldl (fun s tail => s.logBlock L e tail) s).bc.view =
          s.bc.view.writes (s.logWrites L k) := by
    intro k
    induction k with
    | zero => intro _; exact ⟨rfl, by simp [logWrites]⟩
    | succ k ih =>
      intro hk
      obtain ⟨hlh, hv⟩ := ih (by omega)
      have hhome := hfit.home k (by omega)
      have hsize := hfit.lt_size
      rw [List.range_succ, List.foldl_append, List.foldl_cons, List.foldl_nil]
      refine ⟨by rw [lh_logBlock, hlh], ?_⟩
      -- the source block is a home block, so the log writes so far have not changed it
      have hsrc : ((List.range k).foldl (fun s tail => s.logBlock L e tail) s).bc.data
          (s.lh.block k).toNat = s.bc.data (s.lh.block k).toNat := by
        rw [← view_data, hv]
        exact applyWrites_of_notMem (logWrites_ne (by omega) hhome)
      rw [view_logBlock (by rw [hv]; exact h.writes _)
        (by rw [hlh, Nat.add_assoc]; exact hhome.ne (by omega)), hlh, hsrc, hv,
        logWrites_succ, View.writes_append]
  exact key _ le_rfl

/-- `install_trans` copies the log blocks home in order and, outside recovery, drops one pin for
each of them. -/
theorem view_installTrans {r : Bool} (h : s.bc.view.Coherent) (hfit : s.lh.Fits L) :
    (s.installTrans L e r).lh = s.lh ∧
      (s.installTrans L e r).bc.view =
        { s.bc.view.writes (s.homeWrites L s.lh.n.toNat) with
          refs := fun b => s.bc.refs b - if r then 0 else s.lh.blocks.count b } := by
  have key : ∀ k ≤ s.lh.n.toNat,
      ((List.range k).foldl (fun s tail => s.installBlock L e r tail) s).lh = s.lh ∧
        ((List.range k).foldl (fun s tail => s.installBlock L e r tail) s).bc.view =
          { s.bc.view.writes (s.homeWrites L k) with
            refs := fun b => s.bc.refs b -
              if r then 0 else ((List.range k).map fun i => (s.lh.block i).toNat).count b } := by
    intro k
    induction k with
    | zero => intro _; exact ⟨rfl, by cases r <;> exact View.ext rfl rfl rfl (by simp [homeWrites])⟩
    | succ k ih =>
      intro hk
      obtain ⟨hlh, hv⟩ := ih (by omega)
      have hhome := hfit.home k (by omega)
      have hsize := hfit.lt_size
      rw [List.range_succ, List.foldl_append, List.foldl_cons, List.foldl_nil]
      refine ⟨by rw [lh_installBlock, hlh], ?_⟩
      generalize (List.range k).foldl (fun s tail => s.installBlock L e r tail) s = t at hlh hv ⊢
      have hcoh : t.bc.view.Coherent := by
        rw [hv]
        refine h.unpin fun b hb => ?_
        cases r with
        | true => simp at hb
        | false =>
          obtain ⟨i, hi, hib⟩ := List.mem_map.mp (List.count_pos_iff.mp hb)
          exact ⟨_, List.mem_map.mpr ⟨i, hi, rfl⟩, hib⟩
      -- the log block is not a home block, so the installs so far have not changed it
      have hsrc : t.bc.data (L.start + k + 1) = s.bc.data (L.start + k + 1) := by
        rw [← view_data, hv]
        rw [Nat.add_assoc]
        exact applyWrites_of_notMem (homeWrites_ne hfit (by omega) (by omega))
      rw [view_installBlock hcoh (by rw [hlh, Nat.add_assoc]; exact hhome.ne (by omega)), hlh, hsrc,
        ← view_refs, hv, homeWrites_succ, View.writes_append]
      refine View.ext rfl (funext fun b => ?_) rfl rfl
      by_cases hb : b = (s.lh.block k).toNat
      · subst hb
        cases r <;> simp [List.count_append, Nat.sub_sub]
      · cases r <;> simp [List.count_append, hb, Ne.symm hb]
  exact key _ le_rfl

/-! ### The header -/

/-- `write_head` writes the header block. -/
theorem view_writeHead (h : s.bc.view.Coherent) :
    (s.writeHead L e).lh = s.lh ∧
      (s.writeHead L e).bc.view =
        s.bc.view.writes [(L.start, s.lh.encode (s.bc.data L.start))] := by
  have h1 := view_bread (e := e) (b := L.start) h
  have hd : (s.bc.bread e L.start).data L.start = s.bc.data L.start := by
    rw [← view_data, h1]; rfl
  have h2 := view_overwrite (b := L.start) (x := s.lh.encode (s.bc.data L.start)) h1 (by simp)
  refine ⟨rfl, ?_⟩
  rw [writeHead, hd, Bcache.brelse]
  refine (view_unref_update (v := s.bc.view.writes _) h2).trans ?_
  exact View.ext rfl (by simp) rfl rfl

/-- `read_head` changes nothing but the in-memory header. -/
theorem view_readHead (h : s.bc.view.Coherent) :
    (s.readHead L e).bc.view = s.bc.view ∧
      (s.readHead L e).lh.n = (s.bc.data L.start 0).toInt ∧
      ∀ i < (s.bc.data L.start 0).toInt.toNat,
        (s.readHead L e).lh.block i = s.bc.data L.start (i + 1) := by
  have h1 : (s.bc.bread e L.start).view = _ := view_bread h
  have hd : (s.bc.bread e L.start).data L.start = s.bc.data L.start := by
    rw [← view_data, h1]; rfl
  refine ⟨?_, ?_, fun i hi => ?_⟩
  · refine (view_unref_update h1).trans ?_
    exact View.ext rfl (by simp) rfl rfl
  · rw [readHead, hd]
  · rw [readHead, hd]
    exact if_pos hi

/-! ### Between two `log_write`s -/

theorem absorbIndex_le (lh : LogHeader) (b : ℕ) : absorbIndex lh b ≤ lh.n.toNat := by
  unfold absorbIndex
  cases hf : (List.range lh.n.toNat).find? fun i => lh.block i == BitVec.ofNat 32 b with
  | none => exact le_rfl
  | some i => exact (List.mem_range.mp (List.mem_of_find?_eq_some hf)).le

/-- When `log_write` stops before `n`, the slot already holds the block. -/
theorem block_absorbIndex {lh : LogHeader} {b : ℕ} (h : absorbIndex lh b < lh.n.toNat) :
    lh.block (absorbIndex lh b) = BitVec.ofNat 32 b := by
  unfold absorbIndex at h ⊢
  cases hf : (List.range lh.n.toNat).find? fun i => lh.block i == BitVec.ofNat 32 b with
  | none => simp [hf] at h
  | some i => simpa using List.find?_some hf

/-- What `log_write` does when it does not panic: it appends and pins a block that is not listed
yet, and leaves everything as it was for one that is. -/
theorem logWrite_cases {b : ℕ} {t : LogState} (h : s.logWrite L b = .ok t) :
    s.lh.n < (L.size : ℤ) - 1 ∧
      ((t = { s with
          bc := s.bc.bpin b
          lh := ⟨s.lh.n + 1, Function.update s.lh.block s.lh.n.toNat (BitVec.ofNat 32 b)⟩ }) ∨
        (∃ i < s.lh.n.toNat, s.lh.block i = BitVec.ofNat 32 b) ∧ t = s) := by
  unfold logWrite at h
  split at h
  · cases h
  rename_i hpanic
  push Not at hpanic
  split at h
  · cases h
  refine ⟨hpanic.2, ?_⟩
  dsimp only at h
  split at h
  · rename_i hi
    cases h
    exact Or.inl (by rw [hi])
  · rename_i hi
    cases h
    have hlt : absorbIndex s.lh b < s.lh.n.toNat := lt_of_le_of_ne (absorbIndex_le _ _) hi
    have hblock := block_absorbIndex hlt
    refine Or.inr ⟨⟨_, hlt, hblock⟩, ?_⟩
    rw [← hblock, Function.update_eq_self]

/-- The state of an open transaction that has changed the blocks `ws` since the machine was idle
with disk `d`: the disk is untouched, the cache holds the changes, and the header lists exactly
the changed blocks, each pinned once for each time it is listed. -/
structure Pending (L : LogArea) (d : Disk) (iss ws : List (ℕ × Block)) (s : LogState) : Prop where
  view : s.bc.view = ⟨applyWrites ws d, fun b => s.lh.blocks.count b, d, iss⟩
  nonneg : 0 ≤ s.lh.n
  fits : s.lh.Fits L
  mem_blocks : ∀ b, b ∈ s.lh.blocks ↔ ∃ w ∈ ws, w.1 = b

variable {d : Disk} {iss ws : List (ℕ × Block)}

theorem Pending.coherent (h : Pending L d iss ws s) : s.bc.view.Coherent := by
  intro b hb
  rw [h.view] at hb ⊢
  simp only [List.count_eq_zero, h.mem_blocks] at hb
  exact applyWrites_of_notMem fun w hw hwb => hb ⟨w, hw, hwb⟩

/-- The blocks listed after one more has been appended. -/
theorem blocks_append {lh : LogHeader} {b : ℕ} (hn : 0 ≤ lh.n) (hb : b < 2 ^ 32) :
    LogHeader.blocks ⟨lh.n + 1, Function.update lh.block lh.n.toNat (BitVec.ofNat 32 b)⟩ =
      lh.blocks ++ [b] := by
  have hsucc : (lh.n + 1).toNat = lh.n.toNat + 1 := by omega
  simp only [LogHeader.blocks, hsucc, List.range_succ, List.map_append, List.map_cons,
    List.map_nil, Function.update_self, BitVec.toNat_ofNat, Nat.mod_eq_of_lt hb]
  congr 1
  refine List.map_congr_left fun i hi => ?_
  rw [Function.update_of_ne (List.mem_range.mp hi).ne]

/-- Changing one more home block keeps the transaction open, unless the log panics. -/
theorem Pending.update {t : LogState} {w : ℕ × Block} (h : Pending L d iss ws s)
    (hw : L.IsHome w.1) (ht : s.update L e w = .ok t) : Pending L d iss (ws ++ [w]) t := by
  obtain ⟨b, x⟩ := w
  have hb : b < 2 ^ 32 := hw.1
  have hbv : (BitVec.ofNat 32 b).toNat = b := by rw [BitVec.toNat_ofNat, Nat.mod_eq_of_lt hb]
  -- the cache when `log_write` is called
  have hv : ((s.bc.bread e b).setData b x).view =
      ⟨applyWrites (ws ++ [(b, x)]) d,
        Function.update (fun b => s.lh.blocks.count b) b (s.lh.blocks.count b + 1), d, iss⟩ := by
    have h1 := view_bread (e := e) (b := b) h.coherent
    rw [← view_refs, h.view] at h1
    have hr : 0 < (s.bc.bread e b).refs b := by rw [← view_refs, h1]; simp
    rw [view_setData hr, h1, applyWrites_append]
    rfl
  have hr : ((s.bc.bread e b).setData b x).refs b = s.lh.blocks.count b + 1 := by
    rw [← view_refs, hv]; simp
  simp only [LogState.update, bind, Except.bind, pure, Except.pure] at ht
  split at ht
  · cases ht
  rename_i u hu
  cases ht
  obtain ⟨hsize, rfl | ⟨⟨i, hi, hblock⟩, rfl⟩⟩ := logWrite_cases hu
  · have happ := blocks_append h.nonneg hb
    refine ⟨?_, by have := h.nonneg; simp only; omega, ⟨?_, ?_⟩, fun c => ?_⟩
    · have hpin := view_bpin (b := b) (s := (s.bc.bread e b).setData b x) (by omega)
      rw [hv, hr] at hpin
      refine (view_unref_update hpin).trans (View.ext rfl (funext fun c => ?_) rfl rfl)
      rw [happ]
      by_cases hc : c = b
      · subst hc; simp
      · simp [hc, Ne.symm hc]
    · have := h.nonneg; simp only at hsize ⊢; omega
    · intro j hj
      by_cases hjn : j = s.lh.n.toNat
      · subst hjn
        simp only [Function.update_self, hbv]
        exact hw
      · simp only [Function.update_of_ne hjn]
        exact h.fits.home j (by have := h.nonneg; simp only at hj; omega)
    · rw [happ]
      simp [h.mem_blocks, or_and_right, exists_or, eq_comm]
  · have hmem : b ∈ s.lh.blocks :=
      List.mem_map.mpr ⟨i, List.mem_range.mpr hi, (congrArg BitVec.toNat hblock).trans hbv⟩
    refine ⟨?_, h.nonneg, h.fits, fun c => ?_⟩
    · refine (view_unref_update (v := ⟨_, 0, d, iss⟩) hv).trans (View.ext rfl ?_ rfl rfl)
      simp
    · rw [h.mem_blocks]
      constructor
      · rintro ⟨w, hwm, rfl⟩
        exact ⟨w, List.mem_append_left _ hwm, rfl⟩
      · rintro ⟨w, hwm, rfl⟩
        rcases List.mem_append.mp hwm with hwm | hwm
        · exact ⟨w, hwm, rfl⟩
        · rw [List.mem_singleton.mp hwm]
          exact (h.mem_blocks b).mp hmem

theorem Pending.updates {t : LogState} {vs : List (ℕ × Block)} (h : Pending L d iss ws s)
    (hvs : ∀ w ∈ vs, L.IsHome w.1) (ht : s.updates L e vs = .ok t) :
    Pending L d iss (ws ++ vs) t := by
  induction vs generalizing s ws with
  | nil => cases ht; simpa using h
  | cons w vs ih =>
    simp only [LogState.updates, bind, Except.bind] at ht
    split at ht
    · cases ht
    · rename_i u hu
      rw [List.append_cons]
      exact ih (h.update (hvs w List.mem_cons_self) hu)
        (fun v hv => hvs v (List.mem_cons_of_mem _ hv)) ht

end LogState

end Xv6
