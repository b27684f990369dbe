import Xv6.Lib.Writes
import Xv6.Param

/-!
# The disk and the buffer cache under the log

`kernel/bio.c` as the log uses it: `bread`, `bwrite`, `brelse`, `bpin` and `bunpin` over one disk.
A block is its `BSIZE` bytes read as little-endian 32-bit words, so the log header is words and
copying a block is copying a function.

## Recycled buffers

`bget` may give the buffer of any block whose reference count is zero to another block, on behalf
of this process or of a reader on another CPU. The model does not follow the LRU list. Instead
every `bread` first drops the unreferenced buffers that an arbitrary oracle `e` names, and every
theorem is for all oracles.

## The abstract cache

`Bcache.view` forgets which blocks are cached. It keeps what a `bread` would return, how often each
block is referenced, and the disk. While an unreferenced block agrees with the disk (`Coherent`),
recycling a buffer cannot be seen through the view, and every operation acts on the view alone.
This is what the `view_` lemmas say, and the log is verified against them.
-/

namespace Xv6

open Function (update)

/-- The contents of a disk block, as little-endian 32-bit words. Words from `BSIZE / 4` on do not
exist and no operation looks at them. -/
abbrev Block := ℕ → BitVec 32

/-- The disk, by block number. -/
abbrev Disk := ℕ → Block

/-- A cached block: a `struct buf` with `valid` set. -/
structure Buf where
  /-- How many holders and pins the buffer has. -/
  refcnt : ℕ
  /-- The cached contents. -/
  data : Block

/-- The buffer cache, the disk under it, and the block writes issued so far, oldest first. -/
structure Bcache where
  disk : Disk
  buf : ℕ → Option Buf
  issued : List (ℕ × Block)
  /-- The number of `bread`s so far, which is what the recycling oracle is indexed by. -/
  clock : ℕ

/-- A recycling oracle: whether the buffer of a block is recycled just before the `n`-th `bread`,
should it be unreferenced. -/
abbrev Recycle := ℕ → ℕ → Bool

namespace Bcache

variable (e : Recycle) (b : ℕ) (s : Bcache)

/-- A machine that has just been switched on: nothing cached, nothing written. -/
def boot (d : Disk) : Bcache := ⟨d, fun _ => none, [], 0⟩

/-- Recycle the unreferenced buffers that the oracle names. -/
def recycle : Bcache :=
  { s with
    buf := fun x =>
      match s.buf x with
      | some bf => if bf.refcnt = 0 ∧ e s.clock x then none else some bf
      | none => none
    clock := s.clock + 1 }

/-- `bread`: find or load the buffer of block `b` and take a reference to it. -/
def bread : Bcache :=
  let s := s.recycle e
  match s.buf b with
  | some bf => { s with buf := update s.buf b (some { bf with refcnt := bf.refcnt + 1 }) }
  | none => { s with buf := update s.buf b (some ⟨1, s.disk b⟩) }

/-- Change the contents of the held buffer of block `b`. -/
def setData (v : Block) : Bcache :=
  { s with buf := update s.buf b ((s.buf b).map fun bf => { bf with data := v }) }

/-- `bwrite`: write the held buffer of block `b` to the disk. -/
def bwrite : Bcache :=
  match s.buf b with
  | some bf =>
    { s with disk := update s.disk b bf.data, issued := s.issued ++ [(b, bf.data)] }
  | none => s

/-- Drop one reference to the buffer of block `b`. -/
def unref : Bcache :=
  { s with
    buf := update s.buf b ((s.buf b).map fun bf => { bf with refcnt := bf.refcnt - 1 }) }

/-- `brelse`. Only the reference count matters here, not the place in the LRU list. -/
def brelse : Bcache := s.unref b

/-- `bunpin`. -/
def bunpin : Bcache := s.unref b

/-- `bpin`: one more reference to the buffer of block `b`. -/
def bpin : Bcache :=
  { s with
    buf := update s.buf b ((s.buf b).map fun bf => { bf with refcnt := bf.refcnt + 1 }) }

/-- The contents a `bread` of block `b` would return. -/
def data : Block :=
  match s.buf b with
  | some bf => bf.data
  | none => s.disk b

/-- The references to block `b`. -/
def refs : ℕ :=
  match s.buf b with
  | some bf => bf.refcnt
  | none => 0

end Bcache

/-! ### The abstract cache -/

/-- The cache without the question of what is cached. -/
@[ext] structure View where
  /-- The current contents of each block. -/
  data : Disk
  /-- The references to each block. -/
  refs : ℕ → ℕ
  disk : Disk
  issued : List (ℕ × Block)

/-- Blocks nobody refers to agree with the disk. -/
def View.Coherent (v : View) : Prop := ∀ b, v.refs b = 0 → v.data b = v.disk b

/-- The abstract state of a buffer cache. -/
def Bcache.view (s : Bcache) : View := ⟨fun b => s.data b, fun b => s.refs b, s.disk, s.issued⟩

section Refinement

variable {e : Recycle} {b : ℕ} {s : Bcache}

@[simp] theorem view_data : s.view.data b = s.data b := rfl

@[simp] theorem view_refs : s.view.refs b = s.refs b := rfl

@[simp] theorem view_disk : s.view.disk = s.disk := rfl

@[simp] theorem view_issued : s.view.issued = s.issued := rfl

/-- A referenced block is cached. -/
theorem Bcache.exists_buf_of_refs (h : 0 < s.refs b) : ∃ bf, s.buf b = some bf := by
  cases hb : s.buf b with
  | none => simp [Bcache.refs, hb] at h
  | some bf => exact ⟨bf, rfl⟩

/-- Recycling is invisible: only unreferenced buffers go, and they agree with the disk. -/
theorem view_recycle (h : s.view.Coherent) : (s.recycle e).view = s.view := by
  have key : ∀ x, (s.recycle e).data x = s.data x ∧ (s.recycle e).refs x = s.refs x := by
    intro x
    have hx := h x
    cases hb : s.buf x with
    | none => simp [Bcache.recycle, Bcache.data, Bcache.refs, hb]
    | some bf =>
      simp only [view_data, view_refs, view_disk, Bcache.data, Bcache.refs, hb] at hx
      by_cases hr : bf.refcnt = 0 ∧ e s.clock x
      · simp [Bcache.recycle, Bcache.data, Bcache.refs, hb, hr, hx hr.1]
      · simp [Bcache.recycle, Bcache.data, Bcache.refs, hb, hr]
  exact View.ext (funext fun x => (key x).1) (funext fun x => (key x).2) rfl rfl

/-- A `bread` takes one reference and changes no contents. -/
theorem view_bread (h : s.view.Coherent) :
    (s.bread e b).view = { s.view with refs := update s.view.refs b (s.refs b + 1) } := by
  have hr : s.refs b = (s.recycle e).refs b := congrFun (congrArg View.refs (view_recycle h)).symm b
  rw [← view_recycle (e := e) h, hr, Bcache.bread]
  generalize s.recycle e = t
  cases hb : t.buf b with
  | none =>
    refine View.ext (funext fun x => ?_) (funext fun x => ?_) rfl rfl
    · by_cases hx : x = b <;> simp [Bcache.view, Bcache.data, hb, hx]
    · by_cases hx : x = b <;> simp [Bcache.view, Bcache.refs, hb, hx]
  | some bf =>
    refine View.ext (funext fun x => ?_) (funext fun x => ?_) rfl rfl
    · by_cases hx : x = b <;> simp [Bcache.view, Bcache.data, hb, hx]
    · by_cases hx : x = b <;> simp [Bcache.view, Bcache.refs, hb, hx]

/-- Changing a held buffer changes the contents of that block. -/
theorem view_setData {v : Block} (h : 0 < s.refs b) :
    (s.setData b v).view = { s.view with data := update s.view.data b v } := by
  obtain ⟨bf, hb⟩ := Bcache.exists_buf_of_refs h
  refine View.ext (funext fun x => ?_) (funext fun x => ?_) rfl rfl
  · by_cases hx : x = b <;> simp [Bcache.view, Bcache.setData, Bcache.data, hb, hx]
  · by_cases hx : x = b <;> simp [Bcache.view, Bcache.setData, Bcache.refs, hb, hx]

/-- A `bwrite` of a held buffer copies its contents to the disk. -/
theorem view_bwrite (h : 0 < s.refs b) :
    (s.bwrite b).view =
      { s.view with
        disk := update s.disk b (s.data b), issued := s.issued ++ [(b, s.data b)] } := by
  obtain ⟨bf, hb⟩ := Bcache.exists_buf_of_refs h
  have hd : s.data b = bf.data := by simp [Bcache.data, hb]
  rw [Bcache.bwrite, hb, hd]
  refine View.ext (funext fun x => ?_) rfl rfl rfl
  by_cases hx : x = b
  · subst hx; simp [Bcache.view, Bcache.data, hb]
  · cases hbx : s.buf x <;> simp [Bcache.view, Bcache.data, hbx, hx]

/-- Dropping a reference changes no contents. -/
theorem view_unref :
    (s.unref b).view = { s.view with refs := update s.view.refs b (s.refs b - 1) } := by
  cases hb : s.buf b with
  | none =>
    refine View.ext (funext fun x => ?_) (funext fun x => ?_) rfl rfl
    · by_cases hx : x = b <;> simp [Bcache.view, Bcache.unref, Bcache.data, hb, hx]
    · by_cases hx : x = b <;> simp [Bcache.view, Bcache.unref, Bcache.refs, hb, hx]
  | some bf =>
    refine View.ext (funext fun x => ?_) (funext fun x => ?_) rfl rfl
    · by_cases hx : x = b <;> simp [Bcache.view, Bcache.unref, Bcache.data, hb, hx]
    · by_cases hx : x = b <;> simp [Bcache.view, Bcache.unref, Bcache.refs, hb, hx]

/-- Pinning a held buffer takes one more reference. -/
theorem view_bpin (h : 0 < s.refs b) :
    (s.bpin b).view = { s.view with refs := update s.view.refs b (s.refs b + 1) } := by
  obtain ⟨bf, hb⟩ := Bcache.exists_buf_of_refs h
  refine View.ext (funext fun x => ?_) (funext fun x => ?_) rfl rfl
  · by_cases hx : x = b <;> simp [Bcache.view, Bcache.bpin, Bcache.data, hb, hx]
  · by_cases hx : x = b <;> simp [Bcache.view, Bcache.bpin, Bcache.refs, hb, hx]

end Refinement

end Xv6
