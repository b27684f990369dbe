import Mathlib.Data.Nat.ModEq

/-!
# Ring buffers with counters that run on

A buffer of `k` places and two counters of `n` bits: how much has been put in, and how much has been
taken out. The counters run on beyond `k` and wrap, and a place is found by taking the counter
modulo `k`. This works when `k` divides `2 ^ n`.
-/

namespace Xv6

variable {α : Type*} {k n : ℕ} {data : ℕ → α} {r w : BitVec n} {ins outs : List α}

/-- `ins` has been put in and `outs` has been taken out. -/
structure Fifo (k : ℕ) (data : ℕ → α) (r w : BitVec n) (ins outs : List α) : Prop where
  read : r = BitVec.ofNat n outs.length
  written : w = BitVec.ofNat n ins.length
  isPrefix : outs <+: ins
  near : ins.length ≤ outs.length + k
  places : ∀ m (hm : m < ins.length), outs.length ≤ m → data (m % k) = ins.get ⟨m, hm⟩

theorem Fifo.empty (k : ℕ) (data : ℕ → α) : Fifo k data (0 : BitVec n) 0 [] [] where
  read := rfl
  written := rfl
  isPrefix := List.prefix_refl _
  near := Nat.zero_le _
  places := fun _ hm => absurd hm (Nat.not_lt_zero _)

/-- Wrapping does not change the place. -/
theorem toNat_ofNat_mod (hk : k ∣ 2 ^ n) (m : ℕ) : (BitVec.ofNat n m).toNat % k = m % k := by
  rw [BitVec.toNat_ofNat, Nat.mod_mod_of_dvd m hk]

/-- Wrapping does not change how far two counters are apart. -/
theorem toNat_ofNat_add_sub {m l : ℕ} (hl : l < 2 ^ n) :
    (BitVec.ofNat n (m + l) - BitVec.ofNat n m).toNat = l := by
  rw [BitVec.ofNat_add, BitVec.add_comm, BitVec.add_sub_cancel, BitVec.toNat_ofNat,
    Nat.mod_eq_of_lt hl]

/-- Within `k` of each other, different counts have different places. -/
theorem mod_ne_mod {m l : ℕ} (hml : m < l) (hl : l < m + k) : m % k ≠ l % k := by
  intro h
  have h₀ := Nat.sub_mod_eq_zero_of_mod_eq h.symm
  rw [Nat.mod_eq_of_lt (by omega)] at h₀
  omega

/-- There is room, and one more is put in. -/
theorem Fifo.push (h : Fifo k data r w ins outs) (hk : k ∣ 2 ^ n) (hfull : w ≠ r + BitVec.ofNat n k)
    (a : α) : Fifo k (Function.update data (w.toNat % k) a) r (w + 1) (ins ++ [a]) outs := by
  have hroom : ins.length < outs.length + k := by
    refine lt_of_le_of_ne h.near fun he => hfull ?_
    rw [h.written, h.read, he, BitVec.ofNat_add]
  refine ⟨h.read, ?_, h.isPrefix.trans (List.prefix_append _ _), ?_, fun m hm hout => ?_⟩
  · rw [h.written, List.length_append, BitVec.ofNat_add]
    rfl
  · rw [List.length_append, List.length_singleton]
    omega
  · rw [h.written, toNat_ofNat_mod hk]
    rw [List.length_append, List.length_singleton] at hm
    by_cases hlast : m = ins.length
    · subst hlast
      simp
    · have hin : m < ins.length := by omega
      rw [Function.update_of_ne (mod_ne_mod hin (by omega)), h.places m hin hout]
      simp [List.getElem_append_left hin]

/-- There is something to take, and it is taken. -/
theorem Fifo.pop (h : Fifo k data r w ins outs) (hk : k ∣ 2 ^ n) (hempty : r ≠ w) :
    Fifo k data (r + 1) w ins (outs ++ [data (r.toNat % k)]) := by
  have hlt : outs.length < ins.length := by
    refine lt_of_le_of_ne h.isPrefix.length_le fun he => hempty ?_
    rw [h.read, h.written, he]
  have hnext : data (r.toNat % k) = ins.get ⟨outs.length, hlt⟩ := by
    rw [h.read, toNat_ofNat_mod hk]
    exact h.places _ hlt le_rfl
  refine ⟨?_, h.written, ?_, ?_, fun m hm hout => h.places m hm ?_⟩
  · rw [h.read, List.length_append, BitVec.ofNat_add]
    rfl
  · obtain ⟨rest, rfl⟩ := h.isPrefix
    cases rest with
    | nil => simp at hlt
    | cons b rest =>
      have hb : data (r.toNat % k) = b := hnext.trans (by simp)
      exact ⟨rest, by rw [hb, List.append_assoc, List.singleton_append]⟩
  · have := h.near
    rw [List.length_append, List.length_singleton]
    omega
  · rw [List.length_append, List.length_singleton] at hout
    omega

/-- The last that has been put in is taken back. -/
theorem Fifo.unpush {a : α} (h : Fifo k data r w (ins ++ [a]) outs) (hout : outs <+: ins) :
    Fifo k data r (w - 1) ins outs := by
  refine ⟨h.read, ?_, hout, ?_, fun m hm hle => ?_⟩
  · rw [h.written, List.length_append, BitVec.ofNat_add]
    exact BitVec.add_sub_cancel _ _
  · have := h.near
    rw [List.length_append] at this
    omega
  · rw [h.places m (by rw [List.length_append]; omega) hle]
    simp [List.getElem_append_left hm]

/-- The place before the write counter holds what was put in last. -/
theorem Fifo.last {a : α} (h : Fifo k data r w (ins ++ [a]) outs) (hk : k ∣ 2 ^ n)
    (hout : outs <+: ins) : data ((w - 1).toNat % k) = a := by
  rw [(h.unpush hout).written, toNat_ofNat_mod hk,
    h.places ins.length (by rw [List.length_append]; exact Nat.lt_succ_self _) hout.length_le]
  simp

end Xv6
