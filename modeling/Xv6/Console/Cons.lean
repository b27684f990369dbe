import Mathlib

/-!
# The console

The input side of `console.c`. Characters come in through `consoleintr`, which is called from the
interrupt of the uart, and go out through `consoleread`. Both hold `cons.lock`, and `consoleread`
gives it up only in `sleep`. So each of the functions below is one step: `consoleintr`, and
`readLoop`, which is `consoleread` up to the point where it returns or goes to sleep.

The echo of the characters and the process list that `C('P')` prints are left out.
-/

namespace Xv6.Console

abbrev INPUT_BUF_SIZE : ℕ := 128

/-- `C(x)`, Control-x. -/
def ctrl (x : Char) : BitVec 8 := BitVec.ofNat 8 (x.toNat - '@'.toNat)

/-- The end of a line. -/
def newline : BitVec 8 := 10

/-- The enter key. -/
def carriageReturn : BitVec 8 := 13

/-- The delete key. -/
def del : BitVec 8 := 0x7f

/-- `struct cons`. The indices run on, and wrap. -/
structure Cons where
  buf : ℕ → BitVec 8
  /-- Read index. -/
  r : BitVec 32
  /-- Write index. -/
  w : BitVec 32
  /-- Edit index. -/
  e : BitVec 32

/-- The loop of `C('U')`. -/
def killLine : ℕ → Cons → Cons
  | 0, s => s
  | fuel + 1, s =>
    if s.e ≠ s.w ∧ s.buf ((s.e - 1).toNat % INPUT_BUF_SIZE) ≠ newline then
      killLine fuel { s with e := s.e - 1 }
    else s

/-- The console after a character, and whether `wakeup(&cons.r)` has been called. -/
def consoleintr (c : BitVec 8) (s : Cons) : Cons × Bool :=
  if c = ctrl 'P' then (s, false)
  else if c = ctrl 'U' then (killLine (s.e - s.w).toNat s, false)
  else if c = ctrl 'H' ∨ c = del then
    (if s.e ≠ s.w then { s with e := s.e - 1 } else s, false)
  else if c ≠ 0 ∧ (s.e - s.r).toNat < INPUT_BUF_SIZE then
    let c := if c = carriageReturn then newline else c
    let s := { s with
      buf := Function.update s.buf (s.e.toNat % INPUT_BUF_SIZE) c
      e := s.e + 1 }
    if c = newline ∨ c = ctrl 'D' ∨ (s.e - s.r).toNat = INPUT_BUF_SIZE then
      ({ s with w := s.e }, true)
    else (s, false)
  else (s, false)

/-- How `readLoop` ends. -/
inductive Outcome
  | returns (v : ℤ)
  /-- The reader sleeps on `&cons.r`, with room for `n` bytes. -/
  | sleeps (n : ℕ)
  deriving DecidableEq, Repr

/-- The loop of `consoleread` with room for `n` bytes left of `target`: the console then, the bytes
that have been copied out, and how it ends. The destination takes byte `i` if `dst i`. Where the
argument of `consoleread` is not positive, the loop is not entered and 0 is returned, as it is for
a `target` of 0. -/
def readLoop (target : ℕ) (dst : ℕ → Bool) (killed : Bool) :
    ℕ → Cons → Cons × List (BitVec 8) × Outcome
  | 0, s => (s, [], .returns target)
  | n + 1, s =>
    if s.r = s.w then (s, [], if killed then .returns (-1) else .sleeps (n + 1))
    else
      let c := s.buf (s.r.toNat % INPUT_BUF_SIZE)
      let s' := { s with r := s.r + 1 }
      if c = ctrl 'D' then
        -- The end of file is saved for next time where something has been copied.
        (if n + 1 < target then { s' with r := s'.r - 1 } else s', [], .returns (target - (n + 1)))
      else if dst (target - (n + 1)) then
        if c = newline then (s', [c], .returns (target - n))
        else
          let t := readLoop target dst killed n s'
          (t.1, c :: t.2.1, t.2.2)
      else (s', [], .returns (target - (n + 1)))

end Xv6.Console
