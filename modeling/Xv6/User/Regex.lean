import Mathlib.Data.List.Infix

/-!
# The matcher of `grep`

A pattern is a sequence of items: a character, `.` for any character, either of them with a star,
and `$` at the end for the end of the text. `matchhere` looks for a match at the start of a text,
and `matchRe` at every position, or only at the first one if the pattern starts with `^`.

A string is the list of its characters before the zero. A pointer into it is what is left of it.
-/

namespace Xv6

/-- A character. -/
def chr (c : Char) : BitVec 8 := .ofNat 8 c.toNat

/-- A string, without the zero at its end. -/
abbrev Str := List (BitVec 8)

namespace Grep

/-! ### The source -/

/-- `re[0]=='.' || re[0]==*text` -/
def fits (c t : BitVec 8) : Bool := c == chr '.' || c == t

/-- `matchstar`, with `matchhere(re, ·)` for the pattern after the star. -/
def matchstar (c : BitVec 8) (here : Str → Bool) : Str → Bool
  | [] => here []
  | t :: text => here (t :: text) || fits c t && matchstar c here text

/-- `matchhere`. -/
def matchhere : Str → Str → Bool
  | [], _ => true
  | [c], text => if c = chr '$' then text.isEmpty else text.head?.any (fits c)
  | c :: d :: re, text =>
    if d = chr '*' then matchstar c (fun rest => matchhere re rest) text
    else text.head?.any (fits c) && matchhere (d :: re) text.tail

/-- The loop of `match`. -/
def matchLoop (re : Str) : Str → Bool
  | [] => matchhere re []
  | t :: text => matchhere re (t :: text) || matchLoop re text

/-- `match`. -/
def matchRe (re text : Str) : Bool :=
  if re.head? = some (chr '^') then matchhere re.tail text else matchLoop re text

/-! ### What a pattern means -/

/-- A part of a pattern. -/
inductive Item
  /-- One character. -/
  | one (c : BitVec 8)
  /-- Zero or more characters. -/
  | star (c : BitVec 8)
  /-- The end of the text. -/
  | eot

/-- A pattern, read from left to right. -/
def items : Str → List Item
  | [] => []
  | [c] => if c = chr '$' then [.eot] else [.one c]
  | c :: d :: re => if d = chr '*' then .star c :: items re else .one c :: items (d :: re)

/-- The items match `u`, where `v` is the text after it. -/
def Matches : List Item → Str → Str → Prop
  | [], u, _ => u = []
  | .one c :: l, u, v => ∃ t u', u = t :: u' ∧ fits c t = true ∧ Matches l u' v
  | .star c :: l, u, v => ∃ ts u', u = ts ++ u' ∧ (∀ t ∈ ts, fits c t = true) ∧ Matches l u' v
  | .eot :: l, u, v => u = [] ∧ v = [] ∧ Matches l u v

/-- The text begins with something that the items match. -/
def Begins (l : List Item) (text : Str) : Prop := ∃ u v, text = u ++ v ∧ Matches l u v

theorem begins_nil (text : Str) : Begins [] text := ⟨[], text, rfl, rfl⟩

theorem begins_one {c : BitVec 8} {l : List Item} {text : Str} :
    Begins (.one c :: l) text ↔ text.head?.any (fits c) = true ∧ Begins l text.tail := by
  constructor
  · rintro ⟨_, v, rfl, t, u, rfl, ht, hm⟩
    exact ⟨ht, u, v, rfl, hm⟩
  · rintro ⟨ht, u, v, he, hm⟩
    cases text with
    | nil => cases ht
    | cons t text => exact ⟨t :: u, v, congrArg (t :: ·) he, t, u, rfl, ht, hm⟩

theorem begins_star {c : BitVec 8} {l : List Item} {text : Str} :
    Begins (.star c :: l) text ↔
      ∃ ts rest, text = ts ++ rest ∧ (∀ t ∈ ts, fits c t = true) ∧ Begins l rest := by
  constructor
  · rintro ⟨_, v, rfl, ts, u, rfl, ht, hm⟩
    exact ⟨ts, u ++ v, List.append_assoc ts u v, ht, u, v, rfl, hm⟩
  · rintro ⟨ts, _, rfl, ht, u, v, rfl, hm⟩
    exact ⟨ts ++ u, v, (List.append_assoc ts u v).symm, ts, u, rfl, ht, hm⟩

theorem begins_eot {text : Str} : Begins [.eot] text ↔ text = [] := by
  constructor
  · rintro ⟨_, _, rfl, rfl, rfl, -⟩
    rfl
  · rintro rfl
    exact ⟨[], [], rfl, rfl, rfl, rfl⟩

/-! ### The matcher -/

theorem matchstar_iff {c : BitVec 8} {here : Str → Bool} {text : Str} :
    matchstar c here text = true ↔
      ∃ ts rest, text = ts ++ rest ∧ (∀ t ∈ ts, fits c t = true) ∧ here rest = true := by
  induction text with
  | nil =>
    refine ⟨fun h => ⟨[], [], rfl, nofun, h⟩, ?_⟩
    rintro ⟨ts, rest, he, -, h⟩
    obtain ⟨-, rfl⟩ := List.append_eq_nil_iff.1 he.symm
    exact h
  | cons t text ih =>
    rw [matchstar, Bool.or_eq_true, Bool.and_eq_true, ih]
    constructor
    · rintro (h | ⟨ht, ts, rest, rfl, hts, h⟩)
      · exact ⟨[], t :: text, rfl, nofun, h⟩
      · exact ⟨t :: ts, rest, rfl, List.forall_mem_cons.2 ⟨ht, hts⟩, h⟩
    · rintro ⟨ts, rest, he, hts, h⟩
      cases ts with
      | nil =>
        obtain rfl : t :: text = rest := he
        exact .inl h
      | cons a ts =>
        obtain ⟨rfl, rfl⟩ := List.cons.inj he
        obtain ⟨ht, hts⟩ := List.forall_mem_cons.1 hts
        exact .inr ⟨ht, ts, rest, rfl, hts, h⟩

theorem matchhere_iff (re text : Str) : matchhere re text = true ↔ Begins (items re) text := by
  induction re, text using matchhere.induct with
  | case1 text => exact iff_of_true rfl (begins_nil text)
  | case2 text =>
    rw [matchhere, items, if_pos rfl, if_pos rfl, begins_eot, List.isEmpty_iff]
  | case3 c text hc =>
    rw [matchhere, items, if_neg hc, if_neg hc, begins_one]
    exact (and_iff_left (begins_nil _)).symm
  | case4 c re text ih =>
    rw [matchhere, items, if_pos rfl, if_pos rfl, begins_star, matchstar_iff]
    simp only [ih]
  | case5 c d re text hd ih =>
    rw [matchhere, items, if_neg hd, if_neg hd, begins_one, Bool.and_eq_true, ih]

theorem matchLoop_iff (re text : Str) :
    matchLoop re text = true ↔ ∃ rest, rest <:+ text ∧ matchhere re rest = true := by
  induction text with
  | nil => simp [matchLoop]
  | cons t text ih => simp [matchLoop, ih, List.suffix_cons_iff, or_and_right, exists_or]

/-- **The matcher is right**: it returns `1` if and only if a string that the pattern matches begins
at some position of the text, which is the first one if the pattern starts with `^`. -/
theorem matchRe_iff (re text : Str) : matchRe re text = true ↔
    if re.head? = some (chr '^') then Begins (items re.tail) text
    else ∃ rest, rest <:+ text ∧ Begins (items re) rest := by
  rw [matchRe]
  split_ifs with h
  · exact matchhere_iff re.tail text
  · simp only [matchLoop_iff, matchhere_iff]

example : matchRe [chr 'b', chr '*', chr 'c', chr '$'] [chr 'a', chr 'b', chr 'c'] = true := by
  decide

end Grep

end Xv6
