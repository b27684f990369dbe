import Xv6.Fs.Content
import Xv6.Fs.Inode
import Xv6.Lib.Run

/-!
# Sharing an open file

`fileread` and `filewrite` of `kernel/file.c` on a file that several processes have open together,
through `fork` or `dup`. They read and move the offset `f->off` while they hold the lock of the
inode; `filewrite` gives the lock back after each chunk.

A step is one process going from one point of its call to the next: the test of the loop, taking the
lock, `readi` or `writei` with the offset as it is then, moving the offset, and giving the lock
back. Between any two of these steps other processes may run, and other files may be written. No
other open file has the inode. The copies from and to user memory succeed; the disk may be full. A
kernel panic stops everything.

The state has a record besides: the ranges of the file in the order in which the offset was moved
past them, each with the number of the turn, that is, of the holding of the lock, in which this was.
-/

namespace Xv6.Fs.Shared

open Function (update update_self update_of_ne)

/-- A call on the shared file. -/
inductive Call
  | read (n : BitVec 32)
  | write (src : ℕ → Byte) (n : BitVec 32)

/-- Whether the call is a `filewrite`. -/
def Call.isWrite : Call → Bool
  | .read _ => false
  | .write _ _ => true

/-- Where a process is in a call. -/
inductive Phase
  /-- The test of the loop of `filewrite`. -/
  | top
  /-- Before `ilock`. -/
  | lock
  /-- Before `readi` or `writei`. -/
  | locked
  /-- Before `f->off` moves: what has been returned, and the bytes. -/
  | accessed (r : ℤ) (bytes : List Byte)
  /-- Before `iunlock`. -/
  | unlock (r : ℤ)

/-- What a process does: in `filewrite`, `i` bytes have been written before this round. -/
inductive Pc
  | ready
  | inside (c : Call) (i : ℕ) (ph : Phase)
  | returned (c : Call) (ret : ℤ)

/-- A range of the file that has been read or written. -/
structure Range (ι : Type) where
  who : ι
  turn : ℕ
  write : Bool
  start : ℕ
  bytes : List Byte

/-- One file and its offset, the lock of its inode, and where the processes are, with a record of
what has been read and written. -/
structure State (ι : Type) where
  /-- The disk and the inode. -/
  view : View
  /-- `f->off` -/
  off : ℕ
  lock : Option ι
  pc : ι → Pc
  halted : Bool
  /-- How often the lock has been taken. -/
  turn : ℕ
  log : List (Range ι)
  /-- How much there was in the record when the process made its call. -/
  mark : ι → ℕ

/-- What can happen. -/
inductive Event (ι : Type)
  | call (p : ι) (c : Call)
  | run (p : ι)
  /-- Another file is written, with or without success. -/
  | other (y : ℕ) (src : ℕ → Option Byte) (off n : ℕ)

/-- Before the first call, with the offset anywhere in the file. -/
def init (ι : Type) (v : View) (off : ℕ) : State ι :=
  ⟨v, off, none, fun _ => .ready, false, 0, [], fun _ => 0⟩

/-- The number of bytes of the next chunk. -/
def chunk (n : BitVec 32) (i : ℕ) : ℕ := min (n.toInt.toNat - i) maxChunk

/-- `readi` or `writei`, and the bytes that it has read or written. -/
def access (sb : Superblock) (v : View) (off : ℕ) : Call → ℕ → Except Stop ((ℤ × List Byte) × View)
  | .read n, _ => readi sb v (fun _ => true) off n.toNat
  | .write src n, i =>
    match writei sb v (fun j => some (src (i + j))) off (chunk n i) with
    | .ok (r, v) => .ok ((r, (List.range r.toNat).map fun j => src (i + j)), v)
    | .error e => .error e

/-- What `filewrite` returns after its loop. -/
def finish (n : BitVec 32) (i : ℕ) : ℤ := if i = n.toInt then n.toInt else -1

/-- What follows the round in which `readi` or `writei` has returned `r`. -/
def after : Call → ℕ → ℤ → Pc
  | .read n, _, r => .returned (.read n) r
  | .write src n, i, r =>
    if r ≠ chunk n i then .returned (.write src n) (finish n i) else .inside (.write src n)
      (i + r.toNat) .top

variable {ι : Type} [DecidableEq ι]

/-- Process `p` goes on to `pc`. -/
def State.goto (s : State ι) (p : ι) (pc : Pc) : State ι := { s with pc := update s.pc p pc }

/-- What process `p` adds to the record when it moves the offset past some bytes. -/
def State.record (s : State ι) (p : ι) (c : Call) (bytes : List Byte) : Range ι :=
  ⟨p, s.turn, c.isWrite, s.off, bytes⟩

/-- One step of process `p` in its call. -/
def run (sb : Superblock) (s : State ι) (p : ι) : Pc → Option (State ι)
  | .inside (.write src n) i .top =>
    if i < n.toInt then some (s.goto p (.inside (.write src n) i .lock))
    else some (s.goto p (.returned (.write src n) (finish n i)))
  | .inside c i .lock =>
    if s.lock = none then
      some { s.goto p (.inside c i .locked) with lock := some p, turn := s.turn + 1 }
    else none
  | .inside c i .locked =>
    match access sb s.view s.off c i with
    | .ok ((r, bytes), v) => some { s.goto p (.inside c i (.accessed r bytes)) with view := v }
    | .error _ => some { s with halted := true }
  | .inside c i (.accessed r bytes) =>
    if 0 < r then some { s.goto p (.inside c i (.unlock r)) with
      off := s.off + r.toNat, log := s.log ++ [s.record p c bytes] }
    else some (s.goto p (.inside c i (.unlock r)))
  | .inside c i (.unlock r) => some { s.goto p (after c i r) with lock := none }
  | _ => none

/-- Where a call starts. -/
def Call.start : Call → Phase
  | .read _ => .lock
  | .write _ _ => .top

/-- Whether the process is in a call. -/
def Pc.isInside : Pc → Bool
  | .inside _ _ _ => true
  | _ => false

/-- One event. Nothing happens after a panic. -/
def step (sb : Superblock) (s : State ι) (e : Event ι) : Option (State ι) :=
  if s.halted then none
  else
    match e with
    | .call p c =>
      if (s.pc p).isInside then none
      else some { s.goto p (.inside c 0 c.start) with mark := update s.mark p s.log.length }
    | .run p => run sb s p (s.pc p)
    | .other y src off n =>
      if y ≠ s.view.inum ∧ s.view.disk.Allocated sb y then
        match writei sb ⟨s.view.disk, y, s.view.disk.dinode y⟩ src off n with
        | .ok (_, v) => some { s with view := { s.view with disk := v.disk } }
        | .error _ => some { s with halted := true }
      else none

/-! ### The record -/

/-- The ranges of the call that process `p` is in or was in last. -/
def State.mine (s : State ι) (p : ι) : List (Range ι) :=
  (s.log.drop (s.mark p)).filter fun r => r.who = p

/-- The bytes that a call has been given or has written. -/
def State.bytes (s : State ι) (p : ι) : List Byte := (s.mine p).flatMap Range.bytes

/-- The ranges follow each other from `o` to `e`. -/
def Consecutive : ℕ → List (Range ι) → ℕ → Prop
  | o, [], e => o = e
  | o, r :: l, e => r.start = o ∧ Consecutive (o + r.bytes.length) l e

omit [DecidableEq ι] in
theorem Consecutive.append {o e : ℕ} {l : List (Range ι)} (h : Consecutive o l e) {r : Range ι}
    (hr : r.start = e) : Consecutive o (l ++ [r]) (e + r.bytes.length) := by
  induction l generalizing o with
  | nil =>
    obtain rfl := h
    exact ⟨hr, rfl⟩
  | cons a l ih => exact ⟨h.1, ih h.2⟩

omit [DecidableEq ι] in
theorem Consecutive.le {o e : ℕ} {l : List (Range ι)} (h : Consecutive o l e) :
    o ≤ e ∧ ∀ r ∈ l, o ≤ r.start := by
  induction l generalizing o with
  | nil => exact ⟨Nat.le_of_eq h, fun r hr => by cases hr⟩
  | cons a l ih =>
    obtain ⟨h₁, h₂⟩ := h
    obtain ⟨hle, hall⟩ := ih h₂
    refine ⟨by omega, fun r hr => ?_⟩
    rcases List.mem_cons.mp hr with rfl | hr
    · exact Nat.le_of_eq h₁.symm
    · have := hall r hr
      omega

omit [DecidableEq ι] in
theorem Consecutive.end_le {o e : ℕ} {l : List (Range ι)} (h : Consecutive o l e) :
    ∀ r ∈ l, r.start + r.bytes.length ≤ e := by
  induction l generalizing o with
  | nil => exact fun r hr => by cases hr
  | cons a l ih =>
    obtain ⟨h₁, h₂⟩ := h
    intro r hr
    rcases List.mem_cons.mp hr with rfl | hr
    · rw [h₁]
      exact h₂.le.1
    · exact ih h₂ r hr

omit [DecidableEq ι] in
/-- Consecutive ranges do not overlap. -/
theorem Consecutive.disjoint {o e : ℕ} {l : List (Range ι)} (h : Consecutive o l e) :
    l.Pairwise fun a b => a.start + a.bytes.length ≤ b.start := by
  induction l generalizing o with
  | nil => exact .nil
  | cons a l ih =>
    obtain ⟨h₁, h₂⟩ := h
    refine .cons (fun b hb => ?_) (ih h₂)
    rw [h₁]
    exact h₂.le.2 b hb

/-! ### The file -/

/-- The bytes from `o` on are in the file. -/
structure Found (sb : Superblock) (v : View) (o : ℕ) (bytes : List Byte) : Prop where
  le : o + bytes.length ≤ v.ip.size
  eq : v.flush.bytes sb v.inum o bytes.length = bytes

variable {sb : Superblock} {v v' : View} {o off n : ℕ} {bytes : List Byte}

/-- What is in the file is what a read delivers. -/
theorem Found.readi (h : Found sb v o bytes) (hv : v.Wf sb) :
    readi sb v (fun _ => true) o bytes.length = .ok ((bytes.length, bytes), v) := by
  have hle := hv.disk.size_le v.inum hv.allocated
  rw [v.flush_dinode] at hle
  have hlen := h.le
  have hwrap : o + bytes.length < 2 ^ 32 :=
    Nat.lt_of_le_of_lt (Nat.le_trans hlen hle) (by decide)
  rw [readi_kernel hv (by omega) hwrap, Nat.min_eq_left (by omega), h.eq]

theorem Found.nil (h : o ≤ v.ip.size) : Found sb v o [] := ⟨h, rfl⟩

/-- The file keeps its bytes below `o`, and does not shrink. -/
structure KeepsBelow (sb : Superblock) (o : ℕ) (v v' : View) : Prop where
  inum : v'.inum = v.inum
  le : v.ip.size ≤ v'.ip.size
  content : ∀ pos < o, pos < v.ip.size →
    v'.flush.content sb v.inum pos = v.flush.content sb v.inum pos

theorem Found.keeps (h : Found sb v o bytes) {e : ℕ} (hk : KeepsBelow sb e v v')
    (he : o + bytes.length ≤ e) : Found sb v' o bytes := by
  have hle := h.le
  refine ⟨Nat.le_trans hle hk.le, Eq.trans ?_ h.eq⟩
  refine List.map_congr_left fun i hi => ?_
  have hi := List.mem_range.mp hi
  rw [hk.inum]
  exact hk.content (o + i) (by omega) (by omega)

/-- A write whose source is there writes what it counts, at its place, and nothing before. -/
theorem writei_found (h : v.Wf sb) (src : ℕ → Byte) (off n : ℕ) (hoff : off ≤ v.ip.size) :
    ∃ r v', writei sb v (fun j => some (src j)) off n = .ok (r, v') ∧ r.toNat ≤ n ∧ v'.Wf sb ∧
      (v.disk.dinode v.inum = v.ip → v'.disk.dinode v'.inum = v'.ip) ∧ KeepsBelow sb off v v' ∧
      Found sb v' off ((List.range r.toNat).map src) := by
  obtain heq | ⟨-, k, t, v₁, heq, ht, hwrote, hwf, hends, -⟩ :=
    writei_spec h (fun j => some (src j)) off n
  · refine ⟨-1, v, heq, Nat.zero_le _, h, id, ⟨rfl, Nat.le_refl _, fun _ _ _ => rfl⟩, .nil hoff⟩
  · obtain rfl := hends.of_total fun _ => rfl
    -- the size is set after the bytes have been stored
    have hsize : ∀ pos, v₁.flush.ref sb (v.inum, place (pos / BSIZE)) ≠ 0 →
        (v₁.setSize (max v.ip.size (off + t))).flush.content sb v.inum pos =
          v₁.flush.content sb v.inum pos := fun pos hr =>
      (hwrote.grows.wf.keeps_setSize _ fun _ => False).content v.inum pos hr fun _ => not_false
    refine ⟨t, _, heq, ht, hwf.iupdate, fun _ => Disk.put_self .., ⟨hwrote.grows.same.inum, ?_, ?_⟩,
      ?_, ?_⟩
    · exact Nat.le_max_left _ _
    · intro pos hpos hlt
      have hr := h.ref_ne_of_lt hlt
      rw [View.iupdate_flush, hsize pos (by rwa [hwrote.grows.keeps.ref _ hr])]
      exact hwrote.grows.keeps.content v.inum pos hr fun _ hA => by omega
    · rw [List.length_map, List.length_range]
      exact Nat.le_max_right _ _
    · rw [List.length_map, List.length_range, Int.toNat_natCast]
      refine List.map_congr_left fun i hi => ?_
      have hi := List.mem_range.mp hi
      have hr := hwrote.full ((off + i) / BSIZE)
        (Nat.lt_of_le_of_lt (Nat.div_mul_le_self _ _) (by omega))
      rw [View.iupdate_flush, show (iupdate (v₁.setSize (max v.ip.size (off + t)))).inum =
        v.inum from hwrote.grows.same.inum, hsize _ hr, hwrote.stored i hi, Nat.zero_add]
      rfl

/-- A read changes nothing, and delivers what is at its place. -/
theorem readi_found (h : v.Wf sb) (off : ℕ) (n : BitVec 32) (hoff : off ≤ v.ip.size) :
    ∃ bytes : List Byte, readi sb v (fun _ => true) off n.toNat = .ok ((bytes.length, bytes), v) ∧
      Found sb v off bytes := by
  by_cases hwrap : off + n.toNat < 2 ^ 32
  · have hlen : (v.flush.bytes sb v.inum off (min n.toNat (v.ip.size - off))).length =
        min n.toNat (v.ip.size - off) := by
      rw [Disk.bytes, List.length_map, List.length_range]
    refine ⟨v.flush.bytes sb v.inum off (min n.toNat (v.ip.size - off)), ?_, ?_, ?_⟩
    · rw [readi_kernel h hoff hwrap, hlen]
    · rw [hlen]
      omega
    · rw [hlen]
  · -- the sum of the offset and a length that is negative wraps, and `readi` gives up
    have hn := n.isLt
    refine ⟨[], ?_, .nil hoff⟩
    refine if_pos (.inr ?_)
    have hle := h.disk.size_le v.inum h.allocated
    rw [v.flush_dinode] at hle
    have : MAXFILE * BSIZE < 2 ^ 32 := by decide
    omega

/-- `readi` and `writei` do not panic, and what they count is in the file. -/
theorem access_found (h : v.Wf sb) (hoff : off ≤ v.ip.size) (c : Call) (i : ℕ) :
    ∃ r bytes v', access sb v off c i = .ok ((r, bytes), v') ∧ bytes.length = r.toNat ∧ v'.Wf sb ∧
      (v.disk.dinode v.inum = v.ip → v'.disk.dinode v'.inum = v'.ip) ∧ KeepsBelow sb off v v' ∧
      Found sb v' off bytes ∧
      ∀ src n, c = .write src n → r.toNat ≤ chunk n i ∧
        bytes = (List.range r.toNat).map fun j => src (i + j) := by
  cases c with
  | read n =>
    obtain ⟨bytes, heq, hfound⟩ := readi_found h off n hoff
    refine ⟨_, bytes, v, heq, (Int.toNat_natCast _).symm, h, id,
      ⟨rfl, Nat.le_refl _, fun _ _ _ => rfl⟩, hfound, fun _ _ hc => by cases hc⟩
  | write src n =>
    obtain ⟨r, v', heq, hle, hwf, hsync, hkeeps, hfound⟩ :=
      writei_found h (fun j => src (i + j)) off (chunk n i) hoff
    refine ⟨r, _, v', ?_, ?_, hwf, hsync, hkeeps, hfound, ?_⟩
    · rw [access, heq]
    · rw [List.length_map, List.length_range]
    · rintro _ _ ⟨⟩
      exact ⟨hle, rfl⟩

/-- Writing another file leaves this one alone, and does not panic. -/
theorem writei_other (h : v.Wf sb) (hsync : v.disk.dinode v.inum = v.ip) {y : ℕ} (hy : y ≠ v.inum)
    (hall : v.disk.Allocated sb y) (src : ℕ → Option Byte) (off n : ℕ) :
    ∃ r w, writei sb ⟨v.disk, y, v.disk.dinode y⟩ src off n = .ok (r, w) ∧
      ({ v with disk := w.disk } : View).Wf sb ∧ w.disk.dinode v.inum = v.ip ∧
      ∀ e, KeepsBelow sb e v { v with disk := w.disk } := by
  have hflush : v.flush = v.disk := View.flush_of_sync hsync
  have hyflush : (⟨v.disk, y, v.disk.dinode y⟩ : View).flush = v.disk := View.flush_of_sync rfl
  have hwfy : (⟨v.disk, y, v.disk.dinode y⟩ : View).Wf sb := by
    refine ⟨hall.1, hall.2, ?_⟩
    rw [hyflush, ← hflush]
    exact h.disk
  obtain ⟨r, w, heq, hup⟩ := writei_updated hwfy rfl src off n
  have hsync' : w.disk.dinode v.inum = v.ip := (hup.other v.inum hy.symm).trans hsync
  have hflush' : ({ v with disk := w.disk } : View).flush = w.disk := View.flush_of_sync hsync'
  refine ⟨r, w, heq, ⟨h.lt, h.type_ne, hflush'.symm ▸ hup.wf⟩, hsync',
    fun e => ⟨rfl, Nat.le_refl _, ?_⟩⟩
  intro pos _ hlt
  rw [hflush', hflush]
  exact hup.keeps.content v.inum pos (hflush ▸ h.ref_ne_of_lt hlt) fun he => absurd he.symm hy

/-! ### The invariant -/

/-- A process that holds the lock. -/
def Pc.holds : Pc → Bool
  | .inside _ _ .locked | .inside _ _ (.accessed _ _) | .inside _ _ (.unlock _) => true
  | _ => false

/-- A process that holds the lock and has not moved the offset. -/
def Pc.fresh : Pc → Bool
  | .inside _ _ .locked | .inside _ _ (.accessed _ _) => true
  | _ => false

/-- What `filewrite` has written of its source in the rounds before. -/
def Written (src : ℕ → Byte) (n : BitVec 32) (k : ℕ) (l : List (Range ι)) : Prop :=
  k ≤ n.toInt.toNat ∧ l.flatMap Range.bytes = (List.range k).map src

/-- How far a call is, by its ranges. -/
def Done (l : List (Range ι)) : Pc → Prop
  | .ready => True
  | .inside (.read _) _ ph =>
    match ph with
    | .unlock r => (l = [] ∧ r ≤ 0) ∨ ∃ a, l = [a] ∧ (a.bytes.length : ℤ) = r
    | _ => l = []
  | .inside (.write src n) i ph =>
    match ph with
    | .top => Written src n i l
    | .lock | .locked => i < n.toInt ∧ Written src n i l
    | .accessed r bytes => i < n.toInt ∧ Written src n i l ∧ r.toNat ≤ chunk n i ∧
        bytes = (List.range r.toNat).map fun j => src (i + j)
    | .unlock r => i < n.toInt ∧ r.toNat ≤ chunk n i ∧ Written src n (i + r.toNat) l
  | .returned (.read _) r => (l = [] ∧ r ≤ 0) ∨ ∃ a, l = [a] ∧ (a.bytes.length : ℤ) = r
  | .returned (.write src n) ret =>
    (ret = n.toInt ∨ ret = -1) ∧ ∃ k, Written src n k l ∧ (ret = n.toInt → k = n.toInt.toNat)

/-- What has been read or written is in the file before the offset moves past it. -/
def Acc (sb : Superblock) (v : View) (off : ℕ) : Pc → Prop
  | .inside _ _ (.accessed r bytes) => bytes.length = r.toNat ∧ Found sb v off bytes
  | _ => True

/-- What holds of process `p` at the place `pc`. -/
structure At (sb : Superblock) (s : State ι) (p : ι) (pc : Pc) : Prop where
  turn : pc.fresh = true → ∀ a ∈ s.log, a.turn < s.turn
  lock : pc.holds = true ↔ s.lock = some p
  done : Done (s.mine p) pc
  acc : Acc sb s.view s.off pc

/-- What holds between any two steps. -/
structure Inv (sb : Superblock) (o : ℕ) (s : State ι) : Prop where
  halted : s.halted = false
  wf : s.view.Wf sb
  sync : s.view.disk.dinode s.view.inum = s.view.ip
  off_le : s.off ≤ s.view.ip.size
  chain : Consecutive o s.log s.off
  found : ∀ a ∈ s.log, Found sb s.view a.start a.bytes
  pos : ∀ a ∈ s.log, 0 < a.bytes.length ∧ (a.write = true → a.bytes.length ≤ maxChunk)
  turns : s.log.Pairwise fun a b => a.turn < b.turn
  turn_le : ∀ a ∈ s.log, a.turn ≤ s.turn
  mark : ∀ p, s.mark p ≤ s.log.length
  procs : ∀ p, At sb s p (s.pc p)

variable {s t : State ι} {p : ι}

@[simp] theorem State.goto_self (s : State ι) (p : ι) (pc : Pc) : (s.goto p pc).pc p = pc :=
  update_self ..

theorem State.goto_of_ne (s : State ι) {p q : ι} (pc : Pc) (h : q ≠ p) :
    (s.goto p pc).pc q = s.pc q :=
  update_of_ne h ..

/-- What holds of all processes after one has moved. -/
theorem forall_goto {P : ι → Pc → Prop} {pc : Pc} (hp : P p pc) (h : ∀ q, q ≠ p → P q (s.pc q))
    (q : ι) : P q ((s.goto p pc).pc q) := by
  by_cases hq : q = p
  · rw [hq, State.goto_self]
    exact hp
  · rw [State.goto_of_ne s pc hq]
    exact h q hq

/-- Another range in the record. -/
theorem mine_append (h : s.mark p ≤ s.log.length) (a : Range ι) (ht : t.log = s.log ++ [a])
    (hm : t.mark = s.mark) : t.mine p = s.mine p ++ if a.who = p then [a] else [] := by
  rw [State.mine, State.mine, ht, hm, List.drop_append_of_le_length h, List.filter_append]
  by_cases ha : a.who = p <;> simp [ha]

theorem mine_of_eq (hl : t.log = s.log) (hm : t.mark p = s.mark p) : t.mine p = s.mine p := by
  rw [State.mine, State.mine, hl, hm]

/-- The view changes below no offset that a range has. -/
theorem Inv.found_keeps {o e : ℕ} (h : Inv sb o s) (hk : KeepsBelow sb e s.view v)
    (he : s.off ≤ e) : ∀ a ∈ s.log, Found sb v a.start a.bytes := by
  intro a ha
  refine (h.found a ha).keeps hk (Nat.le_trans ?_ he)
  exact h.chain.end_le a ha

theorem Pc.fresh_of_not_holds {pc : Pc} (h : pc.holds = false) : pc.fresh = false := by
  cases pc with
  | ready | returned c ret => rfl
  | inside c i ph => cases ph <;> first | rfl | cases h

theorem Acc.of_not_holds {pc : Pc} (h : pc.holds = false) : Acc sb v off pc := by
  cases pc with
  | ready | returned c ret => trivial
  | inside c i ph => cases ph <;> trivial

/-- Of a process without the lock only the record of its call matters. -/
theorem At.outside {pc : Pc} (hpc : pc.holds = false) (hlock : s.lock ≠ some p)
    (hdone : Done (s.mine p) pc) : At sb s p pc where
  turn hf := by
    rw [Pc.fresh_of_not_holds hpc] at hf
    cases hf
  lock := by
    rw [hpc]
    exact iff_of_false Bool.false_ne_true hlock
  done := hdone
  acc := .of_not_holds hpc

/-- Nobody has the lock but the process that has it. -/
theorem Inv.not_holds (h : Inv sb o s) {q : ι} (hq : s.lock ≠ some q) : (s.pc q).holds = false := by
  rwa [← Bool.not_eq_true, (h.procs q).lock]

theorem Inv.lock_ne (h : Inv sb o s) {pc : Pc} (hpc : s.pc p = pc) (hp : pc.holds = true) {q : ι}
    (hq : q ≠ p) : s.lock ≠ some q := by
  rw [(h.procs p).lock.mp (hpc ▸ hp)]
  exact fun he => hq (Option.some.inj he).symm

theorem Inv.goto {pc : Pc} (h : Inv sb o s) (hp : At sb s p pc) : Inv sb o (s.goto p pc) :=
  { h with
    procs := by
      refine forall_goto (P := At sb (s.goto p pc)) ⟨hp.turn, hp.lock, hp.done, hp.acc⟩
        fun q _ => ?_
      obtain ⟨h₁, h₂, h₃, h₄⟩ := h.procs q
      exact ⟨h₁, h₂, h₃, h₄⟩ }

theorem Inv.call (h : Inv sb o s) (hp : (s.pc p).isInside = false) (c : Call) :
    Inv sb o { s.goto p (.inside c 0 c.start) with
      mark := update s.mark p s.log.length } := by
  have hlock : s.lock ≠ some p := by
    rw [Ne, ← (h.procs p).lock]
    revert hp
    cases s.pc p <;> simp [Pc.isInside, Pc.holds]
  refine { h with mark := fun q => ?_, procs := forall_goto (.outside ?_ hlock ?_) fun q hq => ?_ }
  · change update s.mark p s.log.length q ≤ _
    by_cases hq : q = p
    · rw [hq, update_self]
      exact Nat.le_refl _
    · rw [update_of_ne hq]
      exact h.mark q
  · cases c <;> rfl
  · have hmine : State.mine { s.goto p (.inside c 0 c.start) with
        mark := update s.mark p s.log.length } p = [] := by
      rw [State.mine]
      simp [State.goto]
    rw [hmine]
    cases c with
    | read n => rfl
    | write src n => exact ⟨Nat.zero_le _, rfl⟩
  · obtain ⟨h₁, h₂, h₃, h₄⟩ := h.procs q
    have hmine : State.mine { s.goto p (.inside c 0 c.start) with
        mark := update s.mark p s.log.length } q = s.mine q :=
      mine_of_eq rfl (update_of_ne hq ..)
    exact ⟨h₁, h₂, hmine ▸ h₃, h₄⟩

theorem Inv.acquire {c : Call} {i : ℕ} (h : Inv sb o s) (hpc : s.pc p = .inside c i .lock)
    (hfree : s.lock = none) :
    Inv sb o { s.goto p (.inside c i .locked) with lock := some p, turn := s.turn + 1 } := by
  have hdone := (h.procs p).done
  rw [hpc] at hdone
  refine { h with
    turn_le := fun a ha => Nat.le_succ_of_le (h.turn_le a ha)
    procs := forall_goto ⟨fun _ a ha => Nat.lt_succ_of_le (h.turn_le a ha), iff_of_true rfl rfl, ?_,
      trivial⟩ fun q hq => .outside (h.not_holds ?_) ?_ (h.procs q).done }
  · cases c <;> exact hdone
  · rw [hfree]
    exact nofun
  · exact fun he => hq (Option.some.inj he).symm

theorem Inv.access {c : Call} {i : ℕ} {r : ℤ} (h : Inv sb o s)
    (hpc : s.pc p = .inside c i .locked) (heq : access sb s.view s.off c i = .ok ((r, bytes), v)) :
    Inv sb o { s.goto p (.inside c i (.accessed r bytes)) with view := v } := by
  obtain ⟨r', bytes', v', heq', hlen, hwf, hsync, hkeeps, hfound, hwrite⟩ :=
    access_found h.wf h.off_le c i
  obtain ⟨⟨rfl, rfl⟩, rfl⟩ : ((r' = r ∧ bytes' = bytes) ∧ v' = v) := by
    rw [heq'] at heq
    simpa using heq
  have hp := h.procs p
  rw [hpc] at hp
  refine { h with
    wf := hwf
    sync := hsync h.sync
    off_le := Nat.le_trans h.off_le hkeeps.le
    found := h.found_keeps hkeeps (Nat.le_refl _)
    procs := forall_goto ⟨hp.turn, hp.lock, ?_, hlen, hfound⟩ fun q hq => ?_ }
  · cases c with
    | read n => exact hp.done
    | write src n =>
      obtain ⟨hlt, hwritten⟩ := hp.done
      exact ⟨hlt, hwritten, hwrite src n rfl⟩
  · have hlock := h.lock_ne hpc rfl hq
    exact .outside (h.not_holds hlock) hlock (h.procs q).done

omit [DecidableEq ι] in
theorem Written.append {src : ℕ → Byte} {n : BitVec 32} {i k : ℕ} {l : List (Range ι)} {a : Range ι}
    (h : Written src n i l) (hk : k ≤ chunk n i)
    (ha : a.bytes = (List.range k).map fun j => src (i + j)) :
    Written src n (i + k) (l ++ [a]) := by
  have hle := h.1
  refine ⟨?_, ?_⟩
  · rw [chunk] at hk
    omega
  · rw [List.flatMap_append, h.2, List.flatMap_singleton, ha, List.range_add, List.map_append,
      List.map_map]
    rfl

theorem Inv.advance {c : Call} {i : ℕ} {r : ℤ} (h : Inv sb o s)
    (hpc : s.pc p = .inside c i (.accessed r bytes)) (hr : 0 < r)
    (ht : t = { s.goto p (.inside c i (.unlock r)) with
      off := s.off + r.toNat, log := s.log ++ [s.record p c bytes] }) : Inv sb o t := by
  have hp := h.procs p
  rw [hpc] at hp
  obtain ⟨hlen, hfound⟩ := hp.acc
  have hmem {P : Range ι → Prop} (h₁ : ∀ a ∈ s.log, P a) (h₂ : P (s.record p c bytes)) :
      ∀ a ∈ s.log ++ [s.record p c bytes], P a := by
    intro a ha
    rcases List.mem_append.mp ha with ha | ha
    · exact h₁ a ha
    · rw [List.mem_singleton.mp ha]
      exact h₂
  have hmine (q : ι) : t.mine q = s.mine q ++ if p = q then [s.record p c bytes] else [] :=
    mine_append (t := t) (h.mark q) (s.record p c bytes) (by rw [ht]) (by rw [ht]; rfl)
  subst ht
  refine { h with
    off_le := ?_
    chain := hlen ▸ h.chain.append rfl
    found := hmem h.found hfound
    pos := hmem h.pos ⟨?_, fun hw => ?_⟩
    turns := List.pairwise_append.mpr ⟨h.turns, List.pairwise_singleton .., fun a ha b hb => ?_⟩
    turn_le := hmem h.turn_le (Nat.le_refl _)
    mark := fun q => ?_
    procs := forall_goto ⟨nofun, hp.lock, ?_, trivial⟩ fun q hq => ?_ }
  · change s.off + r.toNat ≤ s.view.ip.size
    rw [← hlen]
    exact hfound.le
  · change 0 < bytes.length
    omega
  · -- only `filewrite` writes, in chunks
    cases c with
    | read n => cases hw
    | write src n =>
      have hle : r.toNat ≤ chunk n i := hp.done.2.2.1
      rw [chunk] at hle
      change bytes.length ≤ maxChunk
      omega
  · rw [List.mem_singleton.mp hb]
    exact hp.turn rfl a ha
  · rw [List.length_append]
    exact Nat.le_add_right_of_le (h.mark q)
  · rw [hmine, if_pos rfl]
    cases c with
    | read n =>
      have hnil : s.mine p = [] := hp.done
      rw [hnil]
      refine .inr ⟨_, rfl, ?_⟩
      change (bytes.length : ℤ) = r
      omega
    | write src n =>
      obtain ⟨hlt, hwritten, hle, hbytes⟩ := hp.done
      exact ⟨hlt, hle, hwritten.append hle hbytes⟩
  · have hlock := h.lock_ne hpc rfl hq
    refine .outside (h.not_holds hlock) hlock ?_
    rw [hmine, if_neg (Ne.symm hq), List.append_nil]
    exact (h.procs q).done

/-- Nothing has been read or written: the offset stays. -/
theorem Inv.stay {c : Call} {i : ℕ} {r : ℤ} (h : Inv sb o s)
    (hpc : s.pc p = .inside c i (.accessed r bytes)) (hr : ¬ 0 < r) :
    Inv sb o (s.goto p (.inside c i (.unlock r))) := by
  have hp := h.procs p
  rw [hpc] at hp
  refine h.goto ⟨nofun, hp.lock, ?_, trivial⟩
  cases c with
  | read n => exact .inl ⟨hp.done, by omega⟩
  | write src n =>
    obtain ⟨hlt, hwritten, hle, -⟩ := hp.done
    have hzero : r.toNat = 0 := by omega
    refine ⟨hlt, hle, ?_⟩
    rw [hzero]
    exact hwritten

theorem finish_cases (n : BitVec 32) (i : ℕ) : finish n i = n.toInt ∨ finish n i = -1 := by
  rw [finish]
  split_ifs
  · exact .inl rfl
  · exact .inr rfl

theorem Inv.release {c : Call} {i : ℕ} {r : ℤ} (h : Inv sb o s)
    (hpc : s.pc p = .inside c i (.unlock r)) :
    Inv sb o { s.goto p (after c i r) with lock := none } := by
  have hp := h.procs p
  rw [hpc] at hp
  refine { h with procs := forall_goto (.outside ?_ nofun ?_) fun q hq => ?_ }
  · cases c with
    | read n => rfl
    | write src n =>
      rw [after]
      split_ifs <;> rfl
  · cases c with
    | read n => exact hp.done
    | write src n =>
      obtain ⟨hlt, hle, hwritten⟩ := hp.done
      rw [after]
      split_ifs with hr
      · refine ⟨finish_cases n i, _, hwritten, ?_⟩
        rw [finish, if_neg (by omega)]
        omega
      · exact hwritten
  · exact .outside (h.not_holds (h.lock_ne hpc rfl hq)) nofun (h.procs q).done

theorem Inv.top {src : ℕ → Byte} {n : BitVec 32} {i : ℕ} (h : Inv sb o s)
    (hpc : s.pc p = .inside (.write src n) i .top) :
    Inv sb o (s.goto p (if i < n.toInt then .inside (.write src n) i .lock
      else .returned (.write src n) (finish n i))) := by
  have hp := h.procs p
  rw [hpc] at hp
  have hwritten : Written src n i (s.mine p) := hp.done
  have hlock : s.lock ≠ some p := mt hp.lock.mpr nofun
  split_ifs with hlt
  · exact h.goto (.outside rfl hlock ⟨hlt, hwritten⟩)
  · refine h.goto (.outside rfl hlock ⟨finish_cases n i, i, hwritten, fun _ => ?_⟩)
    have := hwritten.1
    omega

theorem Inv.other {y : ℕ} {w : View} {src : ℕ → Option Byte} {off' n : ℕ} {r : ℤ} (h : Inv sb o s)
    (hy : y ≠ s.view.inum) (hall : s.view.disk.Allocated sb y)
    (heq : writei sb ⟨s.view.disk, y, s.view.disk.dinode y⟩ src off' n = .ok (r, w)) :
    Inv sb o { s with view := { s.view with disk := w.disk } } := by
  obtain ⟨r', w', heq', hwf, hsync, hkeeps⟩ := writei_other h.wf h.sync hy hall src off' n
  obtain ⟨-, rfl⟩ : r' = r ∧ w' = w := by
    rw [heq'] at heq
    simpa using heq
  refine { h with
    wf := hwf
    sync := hsync
    found := h.found_keeps (hkeeps s.off) (Nat.le_refl _)
    procs := fun q => ?_ }
  obtain ⟨h₁, h₂, h₃, h₄⟩ := h.procs q
  refine ⟨h₁, h₂, h₃, ?_⟩
  change Acc sb s.view s.off (s.pc q) at h₄
  change Acc sb { s.view with disk := w'.disk } s.off (s.pc q)
  revert h₄
  cases s.pc q with
  | ready | returned c ret => exact fun _ => trivial
  | inside c i ph =>
    cases ph with
    | accessed r bytes => exact fun ⟨hlen, hfound⟩ =>
      ⟨hlen, hfound.keeps (hkeeps _) (Nat.le_refl _)⟩
    | _ => exact fun _ => trivial

theorem Inv.run (h : Inv sb o s) (ht : run sb s p (s.pc p) = some t) : Inv sb o t := by
  cases hpc : s.pc p with
  | ready | returned c ret =>
    rw [hpc] at ht
    cases ht
  | inside c i ph =>
    rw [hpc] at ht
    cases ph with
    | top =>
      cases c with
      | read n => cases ht
      | write src n =>
        have := h.top hpc
        rw [Shared.run] at ht
        split_ifs at ht this with hlt
        · exact Option.some.inj ht ▸ this
        · exact Option.some.inj ht ▸ this
    | lock =>
      rw [Shared.run] at ht
      split_ifs at ht with hfree
      exact Option.some.inj ht ▸ h.acquire hpc hfree
    | locked =>
      rw [Shared.run] at ht
      obtain ⟨r, bytes, v, heq, -⟩ := access_found h.wf h.off_le c i
      rw [heq] at ht
      exact Option.some.inj ht ▸ h.access hpc heq
    | accessed r bytes =>
      rw [Shared.run] at ht
      split_ifs at ht with hr
      · exact h.advance hpc hr (Option.some.inj ht).symm
      · exact Option.some.inj ht ▸ h.stay hpc hr
    | unlock r =>
      rw [Shared.run] at ht
      exact Option.some.inj ht ▸ h.release hpc

theorem Inv.step {e : Event ι} (h : Inv sb o s) (ht : step sb s e = some t) : Inv sb o t := by
  rw [Shared.step.eq_def, if_neg (Bool.eq_false_iff.mp h.halted)] at ht
  cases e with
  | call p c =>
    change (if (s.pc p).isInside = true then none else some _) = some t at ht
    split_ifs at ht with hin
    exact Option.some.inj ht ▸ h.call (Bool.not_eq_true _ ▸ hin) c
  | run p => exact h.run ht
  | other y src off' n =>
    change (if y ≠ s.view.inum ∧ s.view.disk.Allocated sb y then _ else none) = some t at ht
    split_ifs at ht with hy
    obtain ⟨r, w, heq, -⟩ := writei_other h.wf h.sync hy.1 hy.2 src off' n
    rw [heq] at ht
    exact Option.some.inj ht ▸ h.other hy.1 hy.2 heq

theorem inv_init (hv : v.Wf sb) (hsync : v.disk.dinode v.inum = v.ip) (hoff : off ≤ v.ip.size) :
    Inv sb off (init ι v off) where
  halted := rfl
  wf := hv
  sync := hsync
  off_le := hoff
  chain := rfl
  found _ ha := by cases ha
  pos _ ha := by cases ha
  turns := .nil
  turn_le _ ha := by cases ha
  mark _ := Nat.le_refl _
  procs _ := .outside rfl nofun trivial

/-- **Sharing an offset.** Start with the offset anywhere in a file, and let any number of processes
call `fileread` and `filewrite`, in any interleaving. Then, at all times: nothing panics; the ranges
that have been read and written follow each other without gap and overlap, in the order of the turns
at the lock, from where the offset was at first to where it is; chunks are no longer than
`filewrite` makes them; and what was read or written in a range is found there. A `filewrite` that
has returned its length has written its bytes, all of them and in order; otherwise it has returned
-1 and written the first ones; and a `fileread` that has returned a number has read a range of that
length. -/
theorem shared_offset (hv : v.Wf sb) (hsync : v.disk.dinode v.inum = v.ip) (hoff : off ≤ v.ip.size)
    {es : List (Event ι)} (h : runEvents (step sb) (init ι v off) es = some s) :
    s.halted = false ∧ Consecutive off s.log s.off ∧
      s.log.Pairwise (fun a b => a.start + a.bytes.length ≤ b.start) ∧
      s.log.Pairwise (fun a b => a.turn < b.turn) ∧
      (∀ a ∈ s.log, 0 < a.bytes.length ∧ (a.write = true → a.bytes.length ≤ maxChunk)) ∧
      (∀ a ∈ s.log, readi sb s.view (fun _ => true) a.start a.bytes.length =
        .ok ((a.bytes.length, a.bytes), s.view)) ∧
      (∀ p src n ret, s.pc p = .returned (.write src n) ret → (ret = n.toInt ∨ ret = -1) ∧
        ∃ k ≤ n.toInt.toNat, s.bytes p = (List.range k).map src ∧
        (ret = n.toInt → k = n.toInt.toNat)) ∧
      ∀ p n r, s.pc p = .returned (.read n) r → 0 < r →
        ∃ a, s.mine p = [a] ∧ (a.bytes.length : ℤ) = r := by
  have hinv : Inv sb off s :=
    runEvents_invariant (fun _ _ _ hs hst => hs.step hst) (inv_init hv hsync hoff) h
  refine ⟨hinv.halted, hinv.chain, hinv.chain.disjoint, hinv.turns, hinv.pos,
    fun a ha => (hinv.found a ha).readi hinv.wf, fun p src n ret hpc => ?_, fun p n r hpc hr => ?_⟩
  · have hdone := (hinv.procs p).done
    rw [hpc] at hdone
    obtain ⟨hret, k, ⟨hle, hbytes⟩, hall⟩ := hdone
    exact ⟨hret, k, hle, hbytes, hall⟩
  · have hdone := (hinv.procs p).done
    rw [hpc] at hdone
    obtain ⟨-, hneg⟩ | hone := hdone
    · omega
    · exact hone

/-- Two processes write two bytes each; the second waits for the lock. Then the first reads. -/
def twoWriters : List (Event (Fin 2)) :=
  [.call 0 (.write (fun _ => 7) 2), .call 1 (.write (fun _ => 9) 2), .run 0, .run 1, .run 1,
    .run 1, .run 1, .run 1, .run 0, .run 0, .run 0, .run 0, .run 0, .run 1, .call 0 (.read 5),
    .run 0, .run 0, .run 0, .run 0]

theorem shared_offset_twoWriters : ∃ s : State (Fin 2),
    runEvents (step smallDisk) (init (Fin 2) smallFile 0) twoWriters = some s ∧
      s.log.map (fun a => (a.who, a.start)) = [(1, 0), (0, 2)] ∧ s.off = 4 ∧
      Consecutive 0 s.log s.off ∧
      ∀ a ∈ s.log, readi smallDisk s.view (fun _ => true) a.start a.bytes.length =
        .ok ((a.bytes.length, a.bytes), s.view) := by
  obtain ⟨s, hs, hlog, hoff⟩ : ∃ s,
      runEvents (step smallDisk) (init (Fin 2) smallFile 0) twoWriters = some s ∧
      s.log.map (fun a => (a.who, a.start)) = [(1, 0), (0, 2)] ∧ s.off = 4 := by
    decide +kernel
  obtain ⟨-, hchain, -, -, -, hfound, -⟩ := shared_offset wf_smallFile rfl (Nat.zero_le _) hs
  exact ⟨s, hs, hlog, hoff, hchain, hfound⟩

end Xv6.Fs.Shared
