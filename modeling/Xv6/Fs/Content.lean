import Xv6.Fs.Owner

/-!
# Reading and writing a file

What `readi` and `writei` do to the contents of a file, in terms of `Disk.content`. A file has no
holes, so reading allocates nothing. Writing keeps ownership in every case: when the disk is full,
when the source is not mapped, and when it succeeds.
-/

namespace Xv6.Fs

variable {sb : Superblock} {d d' : Disk} {v v' : View} {x y n off tot fuel : ℕ}

/-! ### Positions and blocks -/

/-- Positions that follow `off` in its block. -/
theorem pos_in_block {i : ℕ} (h : i < BSIZE - off % BSIZE) :
    (off + i) / BSIZE = off / BSIZE ∧ (off + i) % BSIZE = off % BSIZE + i := by
  have hdiv := Nat.div_add_mod off BSIZE
  have heq : off + i = BSIZE * (off / BSIZE) + (off % BSIZE + i) := by omega
  have hlt : off % BSIZE + i < BSIZE := by omega
  rw [heq]
  refine ⟨?_, ?_⟩
  · rw [Nat.mul_add_div (by decide), Nat.div_eq_of_lt hlt, Nat.add_zero]
  · rw [Nat.mul_add_mod, Nat.mod_eq_of_lt hlt]

/-- The blocks up to the end of a range that stays in the block of `off`. -/
theorem block_le {bn m : ℕ} (h : bn * BSIZE < off + m) (hm : off % BSIZE + m ≤ BSIZE) :
    bn ≤ off / BSIZE := by
  have hdiv := Nat.div_add_mod' off BSIZE
  refine Nat.le_of_lt_succ (Nat.lt_of_mul_lt_mul_right (a := BSIZE) ?_)
  rw [Nat.succ_mul]
  omega

theorem mul_lt_of_lt_div {bn : ℕ} (h : bn < off / BSIZE) : bn * BSIZE < off :=
  Nat.lt_of_lt_of_le (Nat.mul_lt_mul_of_pos_right h (by decide)) (Nat.div_mul_le_self _ _)

theorem Disk.content_eq {i : ℕ} (h : i < BSIZE - off % BSIZE) :
    d.content sb x (off + i) = d.data (d.ref sb (x, place (off / BSIZE))) (off % BSIZE + i) := by
  rw [Disk.content, (pos_in_block h).1, (pos_in_block h).2]

theorem mapped_le (src : ℕ → Option Byte) (p m : ℕ) : mapped src p m ≤ m := by
  rw [mapped]
  exact Nat.le_trans (List.takeWhile_sublist _).length_le (Nat.le_of_eq List.length_range)

/-! ### Reading -/

/-- The bytes of a file from `off` on. -/
def Disk.bytes (sb : Superblock) (d : Disk) (x off n : ℕ) : List Byte :=
  (List.range n).map fun i => d.content sb x (off + i)

theorem Disk.bytes_add (d : Disk) (x off m k : ℕ) :
    d.bytes sb x off (m + k) = d.bytes sb x off m ++ d.bytes sb x (off + m) k := by
  rw [Disk.bytes, Disk.bytes, Disk.bytes, List.range_add, List.map_append, List.map_map]
  simp only [Function.comp_def, Nat.add_assoc]

theorem View.Wf.ref_ne_of_lt (h : v.Wf sb) (hoff : off < v.ip.size) :
    v.flush.ref sb (v.inum, place (off / BSIZE)) ≠ 0 := by
  refine h.disk.full v.inum h.allocated _ ?_
  rw [v.flush_dinode]
  exact Nat.lt_of_le_of_lt (Nat.div_mul_le_self _ _) hoff

theorem View.Wf.div_lt (h : v.Wf sb) (hoff : off < v.ip.size) : off / BSIZE < MAXFILE := by
  have hle := h.disk.size_le v.inum h.allocated
  rw [v.flush_dinode] at hle
  exact Nat.div_lt_of_lt_mul (Nat.mul_comm .. ▸ Nat.lt_of_lt_of_le hoff hle)

theorem readiLoop_spec (h : v.Wf sb) (dst : ℕ → Bool) (tot off : ℕ) (out : List Byte)
    (hfuel : n - tot ≤ fuel) (htot : tot ≤ n) (hsize : off + (n - tot) ≤ v.ip.size) :
    ∃ r, readiLoop sb dst n fuel tot off out v = .ok (r, v) ∧
      (r = (↑n, out ++ v.flush.bytes sb v.inum off (n - tot)) ∨ r.1 = -1 ∧
        ∃ i < n, dst i = false) := by
  induction fuel generalizing tot off out with
  | zero =>
    have heq : tot = n := by omega
    refine ⟨_, rfl, .inl ?_⟩
    rw [heq, Nat.sub_self]
    exact (Prod.mk.injEq ..).mpr ⟨rfl, (List.append_nil out).symm⟩
  | succ fuel ih =>
    rw [readiLoop]
    by_cases hlt : tot < n
    · have hoff : off < v.ip.size := by omega
      rw [if_pos hlt, bmap_of_ref_ne h (h.div_lt hoff) (h.ref_ne_of_lt hoff)]
      have ha := h.ref_ne_of_lt hoff
      generalize hm : min (n - tot) (BSIZE - off % BSIZE) = m
      have hm₀ : 0 < m := by
        have := Nat.mod_lt off (show 0 < BSIZE by decide)
        omega
      have hbytes : (List.range m).map (fun i => v.disk.data (v.flush.ref sb
          (v.inum, place (off / BSIZE))) (off % BSIZE + i)) = v.flush.bytes sb v.inum off m := by
        refine List.map_congr_left fun i hi => ?_
        have hi := List.mem_range.mp hi
        rw [Disk.content_eq (by omega)]
        rfl
      change ∃ r, (if v.flush.ref sb (v.inum, place (off / BSIZE)) = 0 then _ else _) = _ ∧ _
      rw [if_neg ha]
      by_cases hdst : ((List.range m).all fun i => dst (tot + i)) = true
      · rw [if_pos hdst, hbytes]
        obtain ⟨r, hr, hcases⟩ := ih (tot + m) (off + m)
          (out ++ v.flush.bytes sb v.inum off m) (by omega) (by omega) (by omega)
        refine ⟨r, hr, hcases.imp_left fun hr => ?_⟩
        rw [hr, List.append_assoc, ← Disk.bytes_add, show m + (n - (tot + m)) = n - tot by omega]
      · rw [if_neg hdst]
        refine ⟨_, rfl, .inr ⟨rfl, ?_⟩⟩
        rw [Bool.not_eq_true, List.all_eq_false] at hdst
        obtain ⟨i, hi, hdst⟩ := hdst
        have hi := List.mem_range.mp hi
        exact ⟨tot + i, by omega, Bool.not_eq_true _ ▸ hdst⟩
    · have heq : tot = n := by omega
      refine ⟨_, if_neg hlt, .inl ?_⟩
      rw [heq, Nat.sub_self]
      exact (Prod.mk.injEq ..).mpr ⟨rfl, (List.append_nil out).symm⟩

/-- A read into the kernel delivers the bytes of the file up to its end. -/
theorem readi_kernel (h : v.Wf sb) (hoff : off ≤ v.ip.size) (hwrap : off + n < 2 ^ 32) :
    readi sb v (fun _ => true) off n =
      .ok ((↑(min n (v.ip.size - off)),
        v.flush.bytes sb v.inum off (min n (v.ip.size - off))), v) := by
  have hin : ¬ (v.ip.size < off ∨ (off + n) % 2 ^ 32 < off) := by
    rw [Nat.mod_eq_of_lt hwrap]
    omega
  have hmin : (if v.ip.size < off + n then v.ip.size - off else n) = min n (v.ip.size - off) := by
    split <;> omega
  obtain ⟨r, hr, hcases⟩ := readiLoop_spec h (fun _ => true) (n := min n (v.ip.size - off)) 0 off []
    (Nat.le_refl _) (Nat.zero_le _) (by omega)
  obtain rfl | ⟨-, _, _, hfalse⟩ := hcases
  · rw [readi, if_neg hin, hmin]
    exact hr
  · cases hfalse

/-! ### Writing -/

/-- Bytes are written to a data block of the inode. -/
theorem View.Wf.setData {A : ℕ → Prop} (h : v.Wf sb) (bn : ℕ) (blk : Block)
    (hA : ∀ pos, pos / BSIZE = bn → ¬ A pos →
      blk (pos % BSIZE) = v.disk.data (v.flush.ref sb (v.inum, place bn)) (pos % BSIZE)) :
    v.Grows sb A (v.store (v.flush.ref sb (v.inum, place bn)) blk) := by
  generalize hb : v.flush.ref sb (v.inum, place bn) = b at *
  have hne : ∀ x, v.flush.ref sb (x, NDIRECT) ≠ 0 → v.flush.ref sb (x, NDIRECT) ≠ b := by
    intro x hx heq
    exact place_ne bn (Prod.mk.inj (h.disk.owns.inj _ _ hx (heq.trans hb.symm))).2.symm
  have href : (v.flush.setData b blk).ref sb = v.flush.ref sb := Disk.ref_setData hne
  refine ⟨⟨rfl, rfl, rfl⟩, ⟨fun e _ => congrFun href e, fun y pos hy hnA => ?_,
    fun y pos hr hr' _ => absurd ((congrFun href _).trans hr) hr'⟩, h.lt, h.type_ne,
    h.disk.setData hne⟩
  change (v.flush.setData b blk).content sb y pos = _
  rw [Disk.content, Disk.content, href]
  by_cases heq : v.flush.ref sb (y, place (pos / BSIZE)) = b
  · -- the block is the one that is written, so it is the same place
    obtain ⟨rfl, hplace⟩ := Prod.mk.inj (h.disk.owns.inj _ _ hy (heq.trans hb.symm))
    rw [heq]
    refine (congrFun (Function.update_self _ _ _) _).trans ?_
    exact hA pos (place_injective hplace) (hnA rfl)
  · exact congrFun (Function.update_of_ne heq _ _) _

theorem mapped_succ (src : ℕ → Option Byte) (p m : ℕ) :
    mapped src p (m + 1) = if (src p).isSome then mapped src (p + 1) m + 1 else 0 := by
  rw [mapped, List.range_succ_eq_map, List.takeWhile_cons, Nat.add_zero]
  by_cases hp : (src p).isSome
  · rw [if_pos hp, if_pos hp, List.length_cons, List.takeWhile_map, List.length_map, mapped]
    simp only [Function.comp_def, Nat.succ_eq_add_one, Nat.add_assoc, Nat.add_comm 1]
  · rw [if_neg hp, if_neg hp, List.length_nil]

theorem isSome_of_lt_mapped {src : ℕ → Option Byte} {p m i : ℕ} (h : i < mapped src p m) :
    (src (p + i)).isSome := by
  induction m generalizing p i with
  | zero => exact absurd h (Nat.not_lt_zero i)
  | succ m ih =>
    rw [mapped_succ] at h
    split at h
    case isTrue hp =>
      cases i with
      | zero => exact hp
      | succ i =>
        rw [← Nat.add_assoc, Nat.add_right_comm]
        exact ih (Nat.lt_of_succ_lt_succ h)
    case isFalse => exact absurd h (Nat.not_lt_zero i)

theorem mapped_of_total {src : ℕ → Option Byte} (h : ∀ i, (src i).isSome) (p m : ℕ) :
    mapped src p m = m := by
  rw [mapped, List.takeWhile_eq_self_iff.mpr fun i _ => h (p + i), List.length_range]

theorem copyin_apply {blk : Block} {src : ℕ → Option Byte} {o p m i : ℕ} (h : i < mapped src p m) :
    copyin blk o src p m (o + i) = (src (p + i)).getD 0 := by
  rw [copyin, if_pos ⟨Nat.le_add_right o i, Nat.add_lt_add_left h o⟩, Nat.add_sub_cancel_left]

theorem copyin_of_not_mem {blk : Block} {src : ℕ → Option Byte} {o p m i : ℕ}
    (h : ¬ (o ≤ i ∧ i < o + mapped src p m)) : copyin blk o src p m i = blk i := if_neg h

theorem mapped_add {src : ℕ → Option Byte} {p m : ℕ} (h : mapped src p m = m) (l : ℕ) :
    mapped src p (m + l) = m + mapped src (p + m) l := by
  induction m generalizing p with
  | zero => rw [Nat.zero_add, Nat.zero_add, Nat.add_zero]
  | succ m ih =>
    rw [mapped_succ] at h
    split at h
    case isTrue hp =>
      rw [Nat.succ_add, mapped_succ, if_pos hp, ih (Nat.succ.inj h), Nat.add_right_comm m,
        Nat.add_assoc p, Nat.add_comm 1 m]
    case isFalse => cases h

theorem mapped_of_lt {src : ℕ → Option Byte} {p m l : ℕ} (h : mapped src p m < m) (hm : m ≤ l) :
    mapped src p l = mapped src p m := by
  induction m generalizing p l with
  | zero => exact absurd h (Nat.not_lt_zero _)
  | succ m ih =>
    obtain ⟨l, rfl⟩ := Nat.exists_eq_add_one.mpr (Nat.lt_of_lt_of_le (Nat.succ_pos m) hm)
    rw [mapped_succ] at h
    rw [mapped_succ, mapped_succ]
    split at h
    case isTrue hp =>
      rw [if_pos hp, if_pos hp, ih (Nat.lt_of_succ_lt_succ h) (Nat.le_of_succ_le_succ hm)]
    case isFalse hp => rw [if_neg hp, if_neg hp]

/-- The range that the loop of `writei` has been through. -/
structure Wrote (sb : Superblock) (src : ℕ → Option Byte) (tot off t : ℕ) (v v' : View) : Prop where
  grows : v.Grows sb (fun pos => off ≤ pos ∧ pos < off + t) v'
  full : ∀ bn, bn * BSIZE < off + t → v'.flush.ref sb (v.inum, place bn) ≠ 0
  stored : ∀ i < t, v'.flush.content sb v.inum (off + i) = (src (tot + i)).getD 0

namespace Wrote

variable {src : ℕ → Option Byte} {k t : ℕ} {v'' : View}

theorem refl (h : v.Wf sb)
    (hfull : ∀ bn, bn * BSIZE < off → v.flush.ref sb (v.inum, place bn) ≠ 0) :
    Wrote sb src tot off 0 v v :=
  ⟨.refl h, hfull, fun i hi => absurd hi (Nat.not_lt_zero i)⟩

theorem of_grows (h : v.Grows sb (fun _ => False) v') (h' : Wrote sb src tot off t v' v'') :
    Wrote sb src tot off t v v'' :=
  ⟨(h.mono fun _ => False.elim).trans h'.grows, h.same.inum ▸ h'.full, h.same.inum ▸ h'.stored⟩

theorem ref_ne (h : Wrote sb src tot off t v v') {i : ℕ} (hi : i < t) :
    v'.flush.ref sb (v.inum, place ((off + i) / BSIZE)) ≠ 0 :=
  h.full _ (Nat.lt_of_le_of_lt (Nat.div_mul_le_self _ _) (Nat.add_lt_add_left hi off))

theorem trans (h : Wrote sb src tot off k v v') (h' : Wrote sb src (tot + k) (off + k) t v' v'') :
    Wrote sb src tot off (k + t) v v'' where
  grows := (h.grows.mono fun pos hpos => ⟨hpos.1, by omega⟩).trans
    (h'.grows.mono fun pos hpos => ⟨by omega, by omega⟩)
  full bn hbn := by
    rw [← h.grows.same.inum]
    exact h'.full bn (by omega)
  stored i hi := by
    by_cases hik : i < k
    · -- a byte of the first part is kept by the second
      rw [h'.grows.keeps.content v.inum (off + i) (h.ref_ne hik) fun _ hpos => by omega,
        h.stored i hik]
    · obtain ⟨j, rfl⟩ := Nat.exists_eq_add_of_le (Nat.le_of_not_lt hik)
      rw [← h.grows.same.inum, ← Nat.add_assoc, h'.stored j (by omega), Nat.add_assoc]

end Wrote

/-- One round of the loop stores what can be copied. -/
theorem View.Wf.wrote_chunk {a m : ℕ} (h : v.Wf sb) (src : ℕ → Option Byte) (tot : ℕ)
    (hfull : ∀ bn, bn * BSIZE < off → v.flush.ref sb (v.inum, place bn) ≠ 0)
    (ha : v.flush.ref sb (v.inum, place (off / BSIZE)) = a) (ha₀ : a ≠ 0)
    (hm : m ≤ BSIZE - off % BSIZE) :
    Wrote sb src tot off (mapped src tot m) v
      (v.store a (copyin (v.disk.data a) (off % BSIZE) src tot m)) := by
  have hq := mapped_le src tot m
  generalize hblk : copyin (v.disk.data a) (off % BSIZE) src tot m = blk
  have hgrows := h.setData (A := fun pos => off ≤ pos ∧ pos < off + mapped src tot m) (off / BSIZE)
    blk fun pos hpos hnA => by
      rw [← hblk, ha]
      refine copyin_of_not_mem fun hin => hnA ?_
      have h₁ := Nat.div_add_mod pos BSIZE
      have h₂ := Nat.div_add_mod off BSIZE
      rw [hpos] at h₁
      omega
  have hkeep {bn : ℕ} (hr : v.flush.ref sb (v.inum, place bn) ≠ 0) :
      (v.store a blk).flush.ref sb (v.inum, place bn) = v.flush.ref sb (v.inum, place bn) := by
    rw [← ha]
    exact hgrows.keeps.ref _ hr
  have hbn {bn : ℕ} (hlt : bn * BSIZE < off + mapped src tot m) :
      v.flush.ref sb (v.inum, place bn) ≠ 0 := by
    by_cases heq : bn = off / BSIZE
    · rw [heq, ha]
      exact ha₀
    · have hmod := Nat.mod_lt off (show 0 < BSIZE by decide)
      have hle := block_le hlt (by omega)
      exact hfull bn (mul_lt_of_lt_div (Nat.lt_of_le_of_ne hle heq))
  rw [ha] at hgrows
  refine ⟨hgrows, fun bn hlt => ?_, fun i hi => ?_⟩
  · rw [hkeep (hbn hlt)]
    exact hbn hlt
  · rw [Disk.content_eq (by omega), hkeep (ha ▸ ha₀), ha, ← copyin_apply hi, hblk]
    exact congrFun (Function.update_self _ _ _) _

/-- `k` of `n` bytes from `off` on are whole blocks, as far as they are not all. -/
def Whole (off k n : ℕ) : Prop := k = 0 ∨ k = n ∨ (off + k) % BSIZE = 0

theorem Whole.add {k m : ℕ} (h : Whole (off + m) k (n - (tot + m)))
    (hm : m = min (n - tot) (BSIZE - off % BSIZE)) : Whole off (m + k) (n - tot) := by
  rw [show BSIZE = 1024 from rfl] at hm
  rw [Whole, show BSIZE = 1024 from rfl] at *
  omega

/-- The loop ends after it has counted `k` of `n` bytes and has touched `t`. Either it has touched
no more, and all is written or there is no block for the next byte; or the source ends at byte `t`,
in the round that began at byte `k`. -/
inductive LoopEnds (sb : Superblock) (src : ℕ → Option Byte) (tot off n : ℕ) (v : View) :
    ℕ → ℕ → Prop
  | written (k : ℕ) (hle : k ≤ mapped src tot n)
      (h : k = n ∨ v.flush.ref sb (v.inum, place ((off + k) / BSIZE)) = 0) :
      LoopEnds sb src tot off n v k k
  | unmapped (h : mapped src tot n < n) :
      LoopEnds sb src tot off n v (mapped src tot n - (off + mapped src tot n) % BSIZE)
      (mapped src tot n)

namespace LoopEnds

variable {src : ℕ → Option Byte} {k t m : ℕ}

theorem le (h : LoopEnds sb src tot off n v k t) : k ≤ t := by
  cases h with
  | written => exact Nat.le_refl _
  | unmapped => exact Nat.sub_le _ _

theorem le_mapped (h : LoopEnds sb src tot off n v k t) : t ≤ mapped src tot n := by
  cases h with
  | written hle => assumption
  | unmapped => exact Nat.le_refl _

theorem of_total (h : LoopEnds sb src tot off n v k t) (hsrc : ∀ i, (src i).isSome) : t = k := by
  cases h with
  | written => rfl
  | unmapped h => exact absurd (mapped_of_total hsrc tot n) (Nat.ne_of_lt h)

/-- The source ends in the first round. -/
theorem of_lt (hm : m ≤ BSIZE - off % BSIZE) (hmn : m ≤ n) (hlt : mapped src tot m < m) :
    LoopEnds sb src tot off n v 0 (mapped src tot m) := by
  have hmapped := mapped_of_lt hlt hmn
  have hzero : mapped src tot n - (off + mapped src tot n) % BSIZE = 0 := by
    rw [hmapped, (pos_in_block (by omega)).2]
    omega
  have h : LoopEnds sb src tot off n v _ _ := .unmapped (by omega)
  rwa [hzero, hmapped] at h

/-- A full round comes before. -/
theorem add (hm : m = min (n - tot) (BSIZE - off % BSIZE)) (hq : mapped src tot m = m)
    (href : ∀ e, v.flush.ref sb e ≠ 0 → v'.flush.ref sb e ≠ 0) (hinum : v'.inum = v.inum)
    (h : LoopEnds sb src (tot + m) (off + m) (n - (tot + m)) v' k t) :
    LoopEnds sb src tot off (n - tot) v (m + k) (m + t) := by
  have hadd := mapped_add hq (n - (tot + m))
  rw [show m + (n - (tot + m)) = n - tot by omega] at hadd
  cases h with
  | written _ hle h =>
    refine .written _ (by omega) (h.imp (fun h => by omega) fun h => ?_)
    rw [← Nat.add_assoc]
    exact by_contra fun hne => href _ hne (hinum ▸ h)
  | unmapped h =>
    -- the source goes on, so the next round begins a block
    have hstart : (off + m) % BSIZE = 0 := by
      rw [show BSIZE = 1024 from rfl] at hm ⊢
      omega
    generalize mapped src (tot + m) (n - (tot + m)) = f at *
    have hmod : (off + (m + f)) % BSIZE = f % BSIZE := by
      rw [← Nat.add_assoc, Nat.add_mod, hstart, Nat.zero_add, Nat.mod_mod]
    have hsub : m + (f - (off + m + f) % BSIZE) = m + f - (off + (m + f)) % BSIZE := by
      rw [Nat.add_assoc off, hmod, Nat.add_sub_assoc (Nat.mod_le _ _)]
    rw [hsub, ← hadd]
    exact .unmapped (by omega)

end LoopEnds

theorem writeiLoop_spec (h : v.Wf sb) (src : ℕ → Option Byte) (tot off : ℕ) (hfuel : n - tot ≤ fuel)
    (htot : tot ≤ n) (hmax : off + (n - tot) ≤ MAXFILE * BSIZE)
    (hfull : ∀ bn, bn * BSIZE < off → v.flush.ref sb (v.inum, place bn) ≠ 0) :
    ∃ k t v', writeiLoop sb src n fuel tot off v = .ok ((tot + k, off + k), v') ∧
      Wrote sb src tot off t v v' ∧ LoopEnds sb src tot off (n - tot) v k t ∧
      Whole off k (n - tot) := by
  induction fuel generalizing tot off v with
  | zero => exact ⟨0, 0, v, rfl, .refl h hfull, .written 0 (Nat.zero_le _) (.inl (by omega)),
    .inl rfl⟩
  | succ fuel ih =>
    rw [writeiLoop]
    by_cases hlt : tot < n
    · have hdiv : off / BSIZE < MAXFILE := Nat.div_lt_of_lt_mul (by rw [Nat.mul_comm]; omega)
      obtain ⟨a, v₁, hbmap, hgrows, href⟩ := bmap_spec h hdiv fun _ => False
      have hfull₁ : ∀ bn, bn * BSIZE < off → v₁.flush.ref sb (v₁.inum, place bn) ≠ 0 := by
        intro bn hbn
        rw [hgrows.same.inum, hgrows.keeps.ref _ (hfull bn hbn)]
        exact hfull bn hbn
      rw [if_pos hlt, hbmap]
      change ∃ k t v', (if a = 0 then _ else _ : Except Stop _) = _ ∧ _
      by_cases ha : a = 0
      · rw [if_pos ha]
        refine ⟨0, 0, v₁, rfl, .of_grows hgrows (.refl hgrows.wf hfull₁),
          .written 0 (Nat.zero_le _) (.inr (by_contra fun hne => ?_)), .inl rfl⟩
        -- a block that is there is found
        rw [bmap_of_ref_ne h hdiv hne] at hbmap
        exact hne ((Prod.mk.inj (Except.ok.inj hbmap)).1.trans ha)
      · rw [if_neg ha]
        generalize hm : min (n - tot) (BSIZE - off % BSIZE) = m
        have hchunk := hgrows.wf.wrote_chunk src tot hfull₁ (href ha) ha
          (show m ≤ BSIZE - off % BSIZE by omega)
        generalize hv₂ : v₁.store a (copyin (v₁.disk.data a) (off % BSIZE) src tot m) = v₂
        rw [hv₂] at hchunk
        by_cases hq : mapped src tot m = m
        · rw [hq] at hchunk
          have hm₀ : 0 < m := by
            have := Nat.mod_lt off (show 0 < BSIZE by decide)
            omega
          obtain ⟨k, t, v', heq, hwrote, hends, hwhole⟩ := ih hchunk.grows.wf (tot + m)
            (off + m) (by omega) (by omega) (by omega) (hchunk.grows.same.inum ▸ hchunk.full)
          have hwrote' : Wrote sb src tot off (m + t) v v' := .of_grows hgrows (hchunk.trans hwrote)
          refine ⟨m + k, m + t, v', ?_, hwrote', hends.add hm.symm hq (fun e he => ?_) ?_,
            hwhole.add hm.symm⟩
          · rw [← Nat.add_assoc, ← Nat.add_assoc, ← heq]
            exact if_pos hq
          · have he₁ := hgrows.keeps.ref e he
            rw [hchunk.grows.keeps.ref e (he₁ ▸ he), he₁]
            exact he
          · rw [hchunk.grows.same.inum, hgrows.same.inum]
        · have hle := mapped_le src tot m
          exact ⟨0, mapped src tot m, v₂, if_neg hq, .of_grows hgrows hchunk,
            .of_lt (by omega) (by omega) (Nat.lt_of_le_of_ne hle hq), .inl rfl⟩
    · rw [if_neg hlt]
      exact ⟨0, 0, v, rfl, .refl h hfull, .written 0 (Nat.zero_le _) (.inl (by omega)), .inl rfl⟩

/-- A write from beyond the end of the file, or beyond what a file can hold, is refused. -/
theorem writei_refused (h : v.ip.size < off ∨ MAXFILE * BSIZE < off + n) (src : ℕ → Option Byte) :
    writei sb v src off n = .ok (-1, v) := by
  rw [writei]
  by_cases hout : v.ip.size < off ∨ (off + n) % 2 ^ 32 < off
  · exact if_pos hout
  · rw [if_neg hout, if_pos (h.resolve_left fun h => hout (.inl h))]

theorem writei_within (h : v.Wf sb) (src : ℕ → Option Byte) (hoff : off ≤ v.ip.size)
    (hmax : off + n ≤ MAXFILE * BSIZE) : ∃ (k t : ℕ) (v' : View),
      writei sb v src off n = .ok (↑k, iupdate (v'.setSize (max v.ip.size (off + k)))) ∧
        t ≤ n ∧ Wrote sb src 0 off t v v' ∧ (v'.setSize (max v.ip.size (off + k))).Wf sb ∧
        LoopEnds sb src 0 off n v k t ∧ Whole off k n := by
  have hout : ¬ (v.ip.size < off ∨ (off + n) % 2 ^ 32 < off) := by
    have hwrap : off + n < 2 ^ 32 := Nat.lt_of_le_of_lt hmax (by decide)
    rw [Nat.mod_eq_of_lt hwrap]
    omega
  have hfull : ∀ bn, bn * BSIZE < v.ip.size → v.flush.ref sb (v.inum, place bn) ≠ 0 := fun bn hbn =>
    h.disk.full v.inum h.allocated bn (by rwa [v.flush_dinode])
  obtain ⟨k, t, v', heq, hwrote, hends, hwhole⟩ := writeiLoop_spec h src 0 off
    (show n - 0 ≤ n from Nat.le_refl n) (Nat.zero_le _) hmax
    fun bn hbn => hfull bn (Nat.lt_of_lt_of_le hbn hoff)
  have hsize : v'.ip.size = v.ip.size := by rw [hwrote.grows.same.head]
  have ht : t ≤ n := Nat.le_trans hends.le_mapped (mapped_le src 0 n)
  refine ⟨k, t, v', ?_, ht, hwrote, ?_, hends, hwhole⟩
  · rw [writei, if_neg hout, if_neg (Nat.not_lt.mpr hmax), heq, ← hsize, Nat.zero_add]
    rfl
  · have hk := hends.le
    refine hwrote.grows.wf.setSize ?_ fun bn hbn => ?_
    · have hle := h.disk.size_le v.inum h.allocated
      rw [v.flush_dinode] at hle
      omega
    · rw [hwrote.grows.same.inum]
      by_cases hk : bn * BSIZE < off + k
      · exact hwrote.full bn (by omega)
      · have hr := hfull bn (by omega)
        rwa [hwrote.grows.keeps.ref _ hr]

/-- **Writing keeps ownership**, whether or not it succeeds. What it counts is stored, and what is
outside the range is as it was. -/
theorem writei_spec (h : v.Wf sb) (src : ℕ → Option Byte) (off n : ℕ) :
    writei sb v src off n = .ok (-1, v) ∨ off ≤ v.ip.size ∧ ∃ (k t : ℕ) (v' : View),
      writei sb v src off n = .ok (↑k, iupdate (v'.setSize (max v.ip.size (off + k)))) ∧
        t ≤ n ∧ Wrote sb src 0 off t v v' ∧ (v'.setSize (max v.ip.size (off + k))).Wf sb ∧
        LoopEnds sb src 0 off n v k t ∧ Whole off k n := by
  by_cases hout : v.ip.size < off ∨ MAXFILE * BSIZE < off + n
  · exact .inl (writei_refused hout src)
  · have hoff : off ≤ v.ip.size := by omega
    exact .inr ⟨hoff, writei_within h src hoff (by omega)⟩

/-- The inode of `v` is on the disk as it is in memory. `v'` is after a write to it at the positions
of `A`, and the inode is on the disk again. -/
structure View.Updated (sb : Superblock) (A : ℕ → Prop) (v v' : View) : Prop where
  inum : v'.inum = v.inum
  sync : v'.disk.dinode v.inum = v'.ip
  head : v'.ip = { v.ip with size := v'.ip.size, addrs := v'.ip.addrs }
  other : ∀ y, y ≠ v.inum → v'.disk.dinode y = v.disk.dinode y
  wf : v'.disk.Wf sb
  keeps : Keeps sb v.inum A v.disk v'.disk

theorem View.flush_of_sync (h : v.disk.dinode v.inum = v.ip) : v.flush = v.disk := by
  rw [View.flush, Disk.put, ← h, Function.update_eq_self]

theorem View.Updated.refl (h : v.Wf sb) (hsync : v.disk.dinode v.inum = v.ip) (A : ℕ → Prop) :
    v.Updated sb A v :=
  ⟨rfl, hsync, rfl, fun _ _ => rfl, View.flush_of_sync hsync ▸ h.disk, .refl ..⟩

/-- The inode is given a size and written back. -/
theorem View.Grows.updated {A : ℕ → Prop} (h : v.Grows sb A v')
    (hsync : v.disk.dinode v.inum = v.ip)
    (hwf : (v'.setSize n).Wf sb) : v.Updated sb A (iupdate (v'.setSize n)) where
  inum := h.same.inum
  sync := by
    rw [← h.same.inum]
    exact Disk.put_self ..
  head := by
    change { v'.ip with size := n } = _
    rw [h.same.head]
    rfl
  other y hy := by
    rw [← h.same.dinode]
    exact Disk.put_of_ne (h.same.inum ▸ hy)
  wf := hwf.disk
  keeps := by
    rw [← View.flush_of_sync hsync]
    exact h.keeps.trans (h.same.inum ▸ h.wf.keeps_setSize n A)

/-- A write of any kind touches no more than its range. -/
theorem writei_updated (h : v.Wf sb) (hsync : v.disk.dinode v.inum = v.ip) (src : ℕ → Option Byte)
    (off n : ℕ) : ∃ r v', writei sb v src off n = .ok (r, v') ∧
      v.Updated sb (fun pos => off ≤ pos ∧ pos < off + n) v' := by
  obtain heq | ⟨-, k, t, v', heq, ht, hwrote, hwf, -, -⟩ := writei_spec h src off n
  · exact ⟨-1, v, heq, .refl h hsync _⟩
  · refine ⟨k, _, heq, View.Grows.updated (hwrote.grows.mono fun pos hpos => ?_) hsync hwf⟩
    exact ⟨hpos.1, by omega⟩

/-! ### What a write reports -/

/-- One byte is read. -/
theorem readi_byte (h : v.Wf sb) (pos : ℕ) (hpos : pos < v.ip.size) :
    readi sb v (fun _ => true) pos 1 = .ok ((1, [v.flush.content sb v.inum pos]), v) := by
  have hle := h.disk.size_le v.inum h.allocated
  rw [v.flush_dinode] at hle
  have hwrap : pos + 1 < 2 ^ 32 := Nat.lt_of_le_of_lt (Nat.le_trans hpos hle) (by decide)
  rw [readi_kernel h (Nat.le_of_lt hpos) hwrap, Nat.min_eq_left (Nat.sub_pos_of_lt hpos)]
  rfl

theorem View.iupdate_flush (v : View) : (iupdate v).flush = v.flush := Disk.put_put ..

theorem View.Wf.iupdate (h : v.Wf sb) : (Fs.iupdate v).Wf sb :=
  ⟨h.lt, h.type_ne, v.iupdate_flush ▸ h.disk⟩

/-- The result of a write says what has happened to the file: nothing, or the bytes from the end of
what has been reported on are what they were, as any read finds them. -/
def Reports (sb : Superblock) (off n : ℕ) (v : View) (r : ℤ) (v' : View) : Prop :=
  (r = -1 ∧ v' = v) ∨ ∃ tot : ℕ, r = tot ∧ tot ≤ n ∧ v'.ip.size = max v.ip.size (off + tot) ∧
    ∀ pos, off + tot ≤ pos → pos < v.ip.size → ∃ c,
      readi sb v (fun _ => true) pos 1 = .ok ((1, [c]), v) ∧
      readi sb v' (fun _ => true) pos 1 = .ok ((1, [c]), v')

/-- If the source ends early, the bytes that the last round copies before the end are beyond the end
of the file, or are what the file has at their place. -/
def Harmless (sb : Superblock) (v : View) (src : ℕ → Option Byte) (off n : ℕ) : Prop :=
  mapped src 0 n < n → ∀ i < mapped src 0 n, mapped src 0 n - (off + mapped src 0 n) % BSIZE ≤ i →
    off + i < v.ip.size → src i = some (v.flush.content sb v.inum (off + i))

section

variable {src : ℕ → Option Byte} {k t : ℕ}

/-- A byte of the file after a write, as a read finds it. -/
theorem Wrote.readi_byte (h : v.Wf sb) (hwrote : Wrote sb src 0 off t v v')
    (hwf : (v'.setSize (max v.ip.size k)).Wf sb) {i : ℕ} (hi : off + i < v.ip.size) :
    readi sb (iupdate (v'.setSize (max v.ip.size k))) (fun _ => true) (off + i) 1 =
      .ok ((1, [if i < t then (src i).getD 0 else v.flush.content sb v.inum (off + i)]),
        iupdate (v'.setSize (max v.ip.size k))) := by
  have hr := h.ref_ne_of_lt hi
  have hread := Fs.readi_byte hwf.iupdate (off + i) (Nat.lt_of_lt_of_le hi (Nat.le_max_left _ _))
  have hsize : (v'.setSize (max v.ip.size k)).flush.content sb v.inum (off + i) =
      v'.flush.content sb v.inum (off + i) := by
    refine (hwrote.grows.wf.keeps_setSize _ fun _ => False).content _ _ ?_ fun _ => not_false
    rwa [hwrote.grows.keeps.ref _ hr]
  rw [View.iupdate_flush, show (iupdate (v'.setSize (max v.ip.size k))).inum = v.inum from
    hwrote.grows.same.inum, hsize] at hread
  split
  case isTrue hlt => rw [hread, hwrote.stored i hlt, Nat.zero_add]
  case isFalse hge =>
    rw [hread, hwrote.grows.keeps.content v.inum _ hr fun _ hA => by omega]

/-- A write that has counted `k` bytes reports what it has done if the others that it has touched
are what they were. -/
theorem Wrote.reports_iff (h : v.Wf sb) (hwrote : Wrote sb src 0 off t v v') (hk : k ≤ n)
    (hwf : (v'.setSize (max v.ip.size (off + k))).Wf sb) :
    Reports sb off n v k (iupdate (v'.setSize (max v.ip.size (off + k)))) ↔
      ∀ i < t, k ≤ i → off + i < v.ip.size →
        (src i).getD 0 = v.flush.content sb v.inum (off + i) := by
  constructor
  · rintro (⟨hneg, -⟩ | ⟨tot, htot, -, -, hsame⟩) i hi hki hlt
    · omega
    · obtain rfl : k = tot := Int.ofNat.inj htot
      obtain ⟨c, hc, hc'⟩ := hsame (off + i) (by omega) hlt
      rw [Fs.readi_byte h _ hlt] at hc
      rw [hwrote.readi_byte h hwf hlt, if_pos hi] at hc'
      simp only [Except.ok.injEq, Prod.mk.injEq, List.cons.injEq, true_and, and_true] at hc hc'
      exact hc'.trans hc.symm
  · refine fun hsame => .inr ⟨k, rfl, hk, rfl, fun pos hpos hlt => ⟨_, Fs.readi_byte h pos hlt, ?_⟩⟩
    obtain ⟨i, rfl⟩ := Nat.exists_eq_add_of_le (show off ≤ pos by omega)
    rw [hwrote.readi_byte h hwf hlt]
    split
    case isTrue hi => rw [hsame i hi (by omega) hlt]
    case isFalse => rfl

theorem LoopEnds.harmless_iff (h : v.Wf sb) (hends : LoopEnds sb src 0 off n v k t)
    (hwhole : Whole off k n) :
    (∀ i < t, k ≤ i → off + i < v.ip.size → (src i).getD 0 = v.flush.content sb v.inum (off + i)) ↔
      Harmless sb v src off n := by
  cases hends with
  | written _ hle hend =>
    refine iff_of_true (fun i hi hki => absurd hki (Nat.not_le.mpr hi))
      fun hlt i hi hstart hsize => ?_
    -- the block that is missing is beyond the end of the file, and so are the bytes after it
    obtain rfl | hr := hend
    · omega
    · have hout : ¬ off + k < v.ip.size := fun hin => h.ref_ne_of_lt hin hr
      rw [Whole, show BSIZE = 1024 from rfl] at *
      omega
  | unmapped hlt =>
    refine ⟨fun hsame _ i hi hstart hsize => ?_, fun hsame i hi hstart hsize => ?_⟩
    · have hsome := isSome_of_lt_mapped hi
      rw [Nat.zero_add] at hsome
      obtain ⟨c, hc⟩ := Option.isSome_iff_exists.mp hsome
      have hget := hsame i hi hstart hsize
      rw [hc, Option.getD_some] at hget
      rw [hc, hget]
    · rw [hsame hlt i hi hstart hsize, Option.getD_some]

/-- **When a write changes nothing beyond what it reports.** A write that is refused changes
nothing. Any other reports what it has done just if what it copies in a round that fails is
harmless. -/
theorem writei_reports (h : v.Wf sb) (src : ℕ → Option Byte) (off n : ℕ) :
    ∃ r v', writei sb v src off n = .ok (r, v') ∧
      (Reports sb off n v r v' ↔ MAXFILE * BSIZE < off + n ∨ Harmless sb v src off n) := by
  by_cases hbig : MAXFILE * BSIZE < off + n
  · exact ⟨-1, v, writei_refused (.inr hbig) src, iff_of_true (.inl ⟨rfl, rfl⟩) (.inl hbig)⟩
  rw [or_iff_right hbig]
  by_cases hoff : off ≤ v.ip.size
  · obtain ⟨k, t, v', heq, ht, hwrote, hwf, hends, hwhole⟩ :=
      writei_within h src hoff (Nat.le_of_not_lt hbig)
    have hk : k ≤ n := Nat.le_trans hends.le ht
    exact ⟨k, _, heq, (hwrote.reports_iff h hk hwf).trans (hends.harmless_iff h hwhole)⟩
  · refine ⟨-1, v, writei_refused (.inl (by omega)) src, iff_of_true (.inl ⟨rfl, rfl⟩) ?_⟩
    intro _ i _ _ hlt
    omega

end

/-- A disk of eight blocks, of which the last four are for data. -/
def smallDisk : Superblock := ⟨8, 4, 2, by decide, by decide, by decide, by decide⟩

/-- An inode with two bytes in block 4. -/
def smallInode : Dinode := ⟨.file, 0, 0, 1, 2, fun i => if i = 0 then 4 else 0⟩

/-- A file of two bytes, which are both `1`. -/
def smallFile : View where
  disk := ⟨fun b => decide (b < 5), fun x => if x = 1 then smallInode else .zero,
    fun b i => if b = 4 ∧ i < 2 then 1 else 0⟩
  inum := 1
  ip := smallInode

theorem smallFile_ref : smallFile.disk.ref smallDisk = fun e => if e = (1, 0) then 4 else 0 := by
  funext ⟨x, k⟩
  by_cases hx : x = 1
  · have halloc : smallFile.disk.Allocated smallDisk 1 := ⟨by decide, by decide⟩
    have hdin : smallFile.disk.dinode 1 = smallInode := rfl
    rw [hx, Disk.ref_of_allocated halloc, hdin]
    by_cases hk : k ≤ NDIRECT
    · rw [Dinode.ref, if_pos hk]
      exact if_congr ⟨fun h => by rw [h], fun h => (Prod.mk.inj h).2⟩ rfl rfl
    · rw [Dinode.ref_of_addr_eq_zero rfl (Nat.le_of_not_le hk), if_neg]
      rintro h
      rw [(Prod.mk.inj h).2] at hk
      exact hk (Nat.zero_le _)
  · have hdin : smallFile.disk.dinode x = .zero := if_neg hx
    rw [Disk.ref_of_not_allocated fun h => h.2 (hdin ▸ rfl), if_neg fun h => hx (Prod.mk.inj h).1]

theorem wf_smallFile : smallFile.Wf smallDisk := by
  have hflush : smallFile.flush = smallFile.disk := View.flush_of_sync rfl
  have hone {x : ℕ} (hx : smallFile.disk.Allocated smallDisk x) : x = 1 := by
    by_contra hne
    exact hx.2 (congrArg Dinode.type (if_neg hne))
  refine ⟨by decide, by decide, ?_⟩
  rw [hflush]
  refine ⟨?_, fun x hx bn hbn => ?_, fun x hx => ?_⟩
  · rw [smallFile_ref]
    refine ⟨by decide, fun b hb => decide_eq_true (Nat.lt_succ_of_lt hb), fun i j hi hij => ?_,
      fun i hi => ?_, fun b hb => ?_⟩
    · have hi' : i = (1, 0) := by_contra fun hne => hi (if_neg hne)
      have hj' : j = (1, 0) := by
        by_contra hne
        rw [if_neg hne] at hij
        exact hi hij
      rw [hi', hj']
    · have hi' : i = (1, 0) := by_contra fun hne => hi (if_neg hne)
      rw [hi', if_pos rfl]
      decide
    · have hb : 4 ≤ b := hb
      refine ⟨fun hused => ⟨(1, 0), ?_⟩, ?_⟩
      · have := of_decide_eq_true hused
        rw [if_pos rfl]
        omega
      · rintro ⟨i, rfl⟩
        split at hb
        case isTrue hi => exact decide_eq_true (by rw [if_pos hi]; decide)
        case isFalse => exact absurd hb (by decide)
  · rw [hone hx] at hbn ⊢
    have hbn : bn * 1024 < 2 := hbn
    obtain rfl : bn = 0 := by omega
    rw [smallFile_ref]
    decide
  · rw [hone hx]
    decide

/-- As much is mapped as goes to the first block of a file. -/
def blockSource : ℕ → Option Byte := fun i => if i < BSIZE then some 9 else none

theorem writei_reports_blockSource :
    ∃ r v', writei smallDisk smallFile blockSource 0 (2 * BSIZE) = .ok (r, v') ∧
      Reports smallDisk 0 (2 * BSIZE) smallFile r v' := by
  obtain ⟨r, v', heq, hiff⟩ := writei_reports wf_smallFile blockSource 0 (2 * BSIZE)
  refine ⟨r, v', heq, hiff.mpr (.inr fun _ i hi hstart _ => ?_)⟩
  have hmapped : mapped blockSource 0 (2 * BSIZE) = BSIZE := by decide +kernel
  rw [hmapped] at hi hstart
  exact absurd hi (Nat.not_lt.mpr hstart)

/-- One byte is mapped, and the page after it is not. -/
def halfSource : ℕ → Option Byte := fun i => if i = 0 then some 9 else none

/-- **A write that reports nothing and changes a byte.** The copy stops in the middle of the block,
and what it has copied stays in the buffer. -/
theorem writei_half_copied : smallFile.Wf smallDisk ∧
    ∃ v', writei smallDisk smallFile halfSource 0 2 = .ok (0, v') ∧
    readi smallDisk smallFile (fun _ => true) 0 1 = .ok ((1, [1]), smallFile) ∧
    readi smallDisk v' (fun _ => true) 0 1 = .ok ((1, [9]), v') :=
  ⟨wf_smallFile, _, rfl, rfl, rfl⟩

end Xv6.Fs
