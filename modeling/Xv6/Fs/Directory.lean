import Xv6.Fs.Content
import Xv6.Fs.Inode

/-!
# The entries of a directory

A directory is a file of entries. `Disk.dirent` is the entry at an index, in terms of the contents
of the file, and the loops over directories and the writing of an entry are described by it. Names
are compared by their key, which is the name as a string cut to `DIRSIZ`.
-/

namespace Xv6.Fs

variable {sb : Superblock} {d d' : Disk} {v v' : View} {x y k n : ℕ}

/-! ### Names -/

/-- The string in a buffer of `n` characters. -/
def cut (n : ℕ) (l : List Byte) : List Byte := (l.take n).takeWhile (· ≠ 0)

theorem cut_succ (n : ℕ) (l : List Byte) :
    cut (n + 1) l = if hd l = 0 then [] else hd l :: cut n l.tail := by
  cases l with
  | nil => rfl
  | cons c cs =>
    rw [cut, List.take_succ_cons]
    by_cases hc : c = 0
    · rw [List.takeWhile_cons_of_neg (by simpa using hc)]
      exact (if_pos hc).symm
    · rw [List.takeWhile_cons_of_pos (by simpa using hc)]
      exact (if_neg hc).symm

theorem strncmp_eq_zero_iff (n : ℕ) (p q : List Byte) : strncmp n p q = 0 ↔ cut n p = cut n q := by
  induction n generalizing p q with
  | zero => exact iff_of_true rfl rfl
  | succ n ih =>
    rw [strncmp, cut_succ, cut_succ]
    by_cases hpq : hd p = hd q
    · by_cases hp : hd p = 0
      · rw [if_neg fun h => h.1 hp, if_pos hp, if_pos (hpq ▸ hp), hpq, Int.sub_self]
        exact iff_of_true rfl rfl
      · rw [if_pos ⟨hp, hpq⟩, if_neg hp, if_neg (hpq ▸ hp), hpq, List.cons_inj_right, ih]
    · rw [if_neg fun h => hpq h.2]
      refine iff_of_false (fun h => hpq (BitVec.eq_of_toNat_eq ?_)) fun h => hpq ?_
      · omega
      · split at h <;> split at h
        case isTrue.isTrue hp hq => rw [hp, hq]
        case isFalse.isFalse => exact (List.cons.inj h).1
        all_goals cases h

theorem cut_strncpy (n : ℕ) (t : List Byte) : cut n (strncpy n t) = cut n t := by
  induction n generalizing t with
  | zero => rfl
  | succ n ih =>
    rw [strncpy, cut_succ n t]
    by_cases ht : hd t = 0
    · rw [if_pos ht, if_pos ht, cut_succ]
      exact if_pos rfl
    · rw [if_neg ht, if_neg ht, cut_succ]
      refine (if_neg ht).trans ?_
      rw [List.tail_cons, ih]
      rfl

theorem length_strncpy (n : ℕ) (t : List Byte) : (strncpy n t).length = n := by
  induction n generalizing t with
  | zero => rfl
  | succ n ih =>
    rw [strncpy]
    split
    · exact List.length_replicate
    · rw [List.length_cons, ih]

/-- The name of an entry as a string. -/
def Dirent.key (de : Dirent) : List Byte := cut DIRSIZ de.name

theorem namecmp_eq_zero_iff (s t : List Byte) : namecmp s t = 0 ↔ cut DIRSIZ s = cut DIRSIZ t :=
  strncmp_eq_zero_iff DIRSIZ s t

/-! ### Entries -/

theorem dirent_eq : DIRENT = 16 := rfl

/-- An entry that fits its bytes is read as it has been written. -/
theorem Dirent.decode_encode {de : Dirent} (hinum : de.inum < 256 ^ 2)
    (hname : de.name.length = DIRSIZ) : Dirent.decode ((List.range DIRENT).map de.encode) = de := by
  have hbyte (i : ℕ) (hi : i < DIRENT) : ((List.range DIRENT).map de.encode).getD i 0 =
      de.encode i := by
    rw [List.getD_eq_getElem?_getD, List.getElem?_map, List.getElem?_range hi]
    rfl
  have hnum : readLe 2 (fun i => ((List.range DIRENT).map de.encode).getD i 0) 0 = de.inum := by
    rw [readLe_congr fun i _ hi => hbyte i (Nat.lt_of_lt_of_le hi (by decide))]
    exact readLe_writeLe hinum
  have htail : ((List.range DIRENT).map de.encode).drop 2 = de.name := by
    refine List.ext_getElem ?_ fun i hi _ => ?_
    · rw [List.length_drop, List.length_map, List.length_range, hname]
      rfl
    · rw [List.getElem_drop, List.getElem_map, List.getElem_range, Dirent.encode,
        writeLe_of_not_mem (by omega), Nat.add_sub_cancel_left, List.getD_eq_getElem?_getD,
        List.getElem?_eq_getElem, Option.getD_some]
  rw [Dirent.decode, hnum, htail]

/-- Entry `k` of directory `x`. -/
def Disk.dirent (sb : Superblock) (d : Disk) (x k : ℕ) : Dirent :=
  .decode (d.bytes sb x (DIRENT * k) DIRENT)

/-- Entries are kept where the contents are. -/
theorem Keeps.dirent {A : ℕ → Prop} (h : Keeps sb x A d d') (hwf : d.Wf sb) (hy : d.Allocated sb y)
    (hk : DIRENT * k + DIRENT ≤ (d.dinode y).size)
    (hA : y = x → ∀ i < DIRENT, ¬ A (DIRENT * k + i)) : d'.dirent sb y k = d.dirent sb y k := by
  rw [Disk.dirent, Disk.dirent, Disk.bytes, Disk.bytes]
  congr 1
  refine List.map_congr_left fun i hi => ?_
  have hi := List.mem_range.mp hi
  refine h.content y _ (hwf.full y hy _ ?_) fun hyx => hA hyx i hi
  exact Nat.lt_of_le_of_lt (Nat.div_mul_le_self _ _) (by omega)

/-- The entries from `k₀` on that a loop with a test has passed, up to index `k`, where it has
stopped. -/
structure Scanned (sb : Superblock) (d : Disk) (x : ℕ) (test : Dirent → Bool) (k₀ k : ℕ)
    (de : Option Dirent) : Prop where
  le : k₀ ≤ k
  before : ∀ j, k₀ ≤ j → j < k →
    DIRENT * j + DIRENT ≤ (d.dinode x).size ∧ test (d.dirent sb x j) = false
  found : ∀ e, de = some e →
    DIRENT * k + DIRENT ≤ (d.dinode x).size ∧ e = d.dirent sb x k ∧ test e = true
  ended : de = none → (d.dinode x).size ≤ DIRENT * k

/-- **The loops over a directory** change nothing, and find the first entry that passes the test.
They panic only where the last entry is not whole. -/
theorem dirscan_spec (h : v.Wf sb) (why : Panic) (test : Dirent → Bool) (fuel k₀ : ℕ)
    (hfuel : v.ip.size ≤ DIRENT * (k₀ + fuel)) :
    dirscan sb why test fuel (DIRENT * k₀) v = .error (.panic why) ∧ v.ip.size % DIRENT ≠ 0 ∨
      ∃ k de, dirscan sb why test fuel (DIRENT * k₀) v = .ok ((DIRENT * k, de), v) ∧
        Scanned sb v.flush v.inum test k₀ k de := by
  have hsize : (v.flush.dinode v.inum).size = v.ip.size := by rw [v.flush_dinode]
  have hmax := h.disk.size_le v.inum h.allocated
  rw [hsize, show MAXFILE * BSIZE = 274432 from rfl] at hmax
  induction fuel generalizing k₀ with
  | zero =>
    refine .inr ⟨k₀, none, rfl, Nat.le_refl _, fun j hj hj' => by omega, nofun, fun _ => ?_⟩
    rw [hsize]
    exact hfuel
  | succ fuel ih =>
    rw [dirscan]
    by_cases hlt : DIRENT * k₀ < v.ip.size
    · rw [if_pos hlt, readi_kernel h (Nat.le_of_lt hlt) (by rw [dirent_eq] at *; omega)]
      generalize hm : min DIRENT (v.ip.size - DIRENT * k₀) = m
      change (if (m : ℤ) ≠ DIRENT then _ else _ : Except Stop _) = _ ∧ _ ∨
        ∃ k de, (if (m : ℤ) ≠ DIRENT then _ else _ : Except Stop _) = _ ∧ _
      by_cases hshort : (m : ℤ) ≠ DIRENT
      · refine .inl ⟨if_pos hshort, ?_⟩
        rw [dirent_eq] at *
        omega
      · have hfull : DIRENT * k₀ + DIRENT ≤ v.ip.size := by
          rw [dirent_eq] at *
          omega
        have hm' : m = DIRENT := by omega
        rw [if_neg hshort, hm']
        by_cases htest : test (v.flush.dirent sb v.inum k₀) = true
        · refine .inr ⟨k₀, some (v.flush.dirent sb v.inum k₀), if_pos htest, Nat.le_refl _,
            fun j hj hj' => by omega, fun e he => ?_, nofun⟩
          cases he
          exact ⟨hsize ▸ hfull, rfl, htest⟩
        · obtain ⟨herr, hodd⟩ | ⟨k, de, hok, hscan⟩ :=
            ih (k₀ + 1) (by rw [Nat.succ_add_eq_add_succ]; exact hfuel)
          · exact .inl ⟨(if_neg htest).trans herr, hodd⟩
          · refine .inr ⟨k, de, (if_neg htest).trans hok, by have := hscan.le; omega,
              fun j hj hj' => ?_, hscan.found, hscan.ended⟩
            by_cases hjk : j = k₀
            · rw [hjk, hsize]
              exact ⟨hfull, Bool.not_eq_true _ ▸ htest⟩
            · exact hscan.before j (by omega) hj'
    · refine .inr ⟨k₀, none, if_neg hlt, Nat.le_refl _,
        fun j hj hj' => by omega, nofun, fun _ => ?_⟩
      rw [hsize]
      exact Nat.le_of_not_lt hlt

/-- **An entry is written as a whole or not at all.** -/
theorem writei_dirent {de : Dirent} (h : v.Wf sb) (hsync : v.disk.dinode v.inum = v.ip)
    (hinum : de.inum < 256 ^ 2) (hname : de.name.length = DIRSIZ) (hk : DIRENT * k ≤ v.ip.size) :
    ∃ r v', writei sb v (fun i => some (de.encode i)) (DIRENT * k) DIRENT = .ok (r, v') ∧
      (r ≠ DIRENT ∧ v'.ip.size = v.ip.size ∧ v.Updated sb (fun _ => False) v' ∨
        r = DIRENT ∧ v'.ip.size = max v.ip.size (DIRENT * k + DIRENT) ∧
        v'.disk.dirent sb v.inum k = de ∧
          v.Updated sb (fun pos => DIRENT * k ≤ pos ∧ pos < DIRENT * k + DIRENT) v') := by
  obtain heq | ⟨-, m, t, v', heq, ht, hwrote, hwf, hends, hwhole⟩ :=
    writei_spec h (fun i => some (de.encode i)) (DIRENT * k) DIRENT
  · exact ⟨-1, v, heq, .inl ⟨by decide, rfl, .refl h hsync _⟩⟩
  obtain rfl := hends.of_total fun _ => rfl
  -- an entry does not cross the end of a block
  have hall : t = 0 ∨ t = DIRENT := by
    rw [Whole, show BSIZE = 1024 from rfl, dirent_eq] at hwhole
    rw [dirent_eq] at ht ⊢
    omega
  refine ⟨t, _, heq, ?_⟩
  obtain rfl | rfl := hall
  · refine .inl
      ⟨by decide, Nat.max_eq_left (by omega), View.Grows.updated (hwrote.grows.mono ?_) hsync hwf⟩
    intro pos hpos
    omega
  · refine .inr ⟨rfl, rfl, ?_, hwrote.grows.updated hsync hwf⟩
    rw [← Dirent.decode_encode hinum hname, Disk.dirent, Disk.bytes]
    congr 1
    refine List.map_congr_left fun i hi => ?_
    have hi := List.mem_range.mp hi
    have hr := hwrote.full ((DIRENT * k + i) / BSIZE)
      (Nat.lt_of_le_of_lt (Nat.div_mul_le_self _ _) (Nat.add_lt_add_left hi _))
    have hsize := hwrote.grows.wf.keeps_setSize (max v.ip.size (DIRENT * k + DIRENT)) fun _ => False
    rw [hwrote.grows.same.inum] at hsize
    refine (hsize.content v.inum (DIRENT * k + i) hr fun _ => id).trans ?_
    rw [hwrote.stored i hi, Nat.zero_add]
    rfl

end Xv6.Fs
