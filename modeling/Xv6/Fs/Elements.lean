import Xv6.Fs.Directory
import Xv6.Lib.CString

/-!
# The elements of a path

`skipelem` works on a string in memory that ends with a zero, and writes the element to the caller's
buffer of `DIRSIZ` characters, without a zero at the end if it is full. `skipelemAt` is this
function, and `elemsAt` the loop of `namex` around it. The functions `skipelem` and `elems` of
`Xv6.Fs.Inode`, on the characters of the string, give the same elements: the parts between slashes
that are not empty, cut to `DIRSIZ` characters.
-/

namespace Xv6.Fs

variable {mem name name' : ℕ → Byte} {path rest : List Byte} {p q fuel n : ℕ}

/-! ### Strings in memory -/

/-- `n` characters are copied from `src` to the buffer `name`. -/
def memmove (name mem : ℕ → Byte) (src n : ℕ) : ℕ → Byte := fun i =>
  if i < n then mem (src + i) else name i

/-- `skipelem` on a pointer: what it returns, and the buffer. The kernel's memory is smaller than
`2 ^ 31`, so that the length of an element fits an `int`. There is no result if a loop takes `fuel`
rounds. -/
def skipelemAt (mem : ℕ → Byte) (fuel path : ℕ) (name : ℕ → Byte) :
    Option (Option (ℕ × (ℕ → Byte))) := do
  let path ← skipWhile (· = 47) mem fuel path
  if mem path = 0 then return none
  else
    let s := path
    let path ← skipWhile (fun c => c ≠ 47 ∧ c ≠ 0) mem fuel path
    let len := path - s
    let name :=
      if DIRSIZ ≤ len then memmove name mem s DIRSIZ
      else Function.update (memmove name mem s len) len 0
    let path ← skipWhile (· = 47) mem fuel path
    return some (path, name)

/-- The pointers and buffers that `skipelem` gives when it is called again and again, as in the loop
of `namex`. -/
def elemsAt (mem : ℕ → Byte) (fuel : ℕ) : ℕ → ℕ → (ℕ → Byte) → Option (List (ℕ × (ℕ → Byte)))
  | 0, _, _ => none
  | n + 1, path, name => do
    match ← skipelemAt mem fuel path name with
    | none => return []
    | some (path, name) => return (path, name) :: (← elemsAt mem fuel n path name)

/-- The characters in the buffer. -/
def buffer (name : ℕ → Byte) : List Byte := (List.range DIRSIZ).map name

/-! ### The parts of a path -/

/-- The elements of a path: what stands between slashes and is not empty, cut to `DIRSIZ`. -/
def components (path : List Byte) : List (List Byte) :=
  ((path.splitOn 47).filter (· ≠ [])).map (List.take DIRSIZ)

theorem components_slash (path : List Byte) : components (47 :: path) = components path := by
  have hsplit : (47 :: path).splitOn 47 = [] :: path.splitOn 47 :=
    List.splitOn_append_cons_self_of_not_mem List.not_mem_nil path
  rw [components, hsplit]
  rfl

theorem components_dropWhile (path : List Byte) :
    components (path.dropWhile (· = 47)) = components path := by
  induction path with
  | nil => rfl
  | cons c cs ih =>
    by_cases hc : c = 47
    · rw [List.dropWhile_cons_of_pos (by simpa using hc), ih, hc, components_slash]
    · rw [List.dropWhile_cons_of_neg (by simpa using hc)]

/-- A word without slashes is an element, if the string ends after it or goes on with a slash. -/
theorem components_word {w : List Byte} (hw : w ≠ []) (hslash : 47 ∉ w)
    (hrest : rest = [] ∨ rest.head? = some 47) :
    components (w ++ rest) = w.take DIRSIZ :: components rest := by
  obtain rfl | hrest := hrest
  · rw [List.append_nil, components, List.splitOn_eq_singleton hslash,
      List.filter_cons_of_pos (by simpa using hw)]
    rfl
  · obtain ⟨tail, rfl⟩ := List.head?_eq_some_iff.mp hrest
    rw [components_slash, components, List.splitOn_append_cons_self_of_not_mem hslash,
      List.filter_cons_of_pos (by simpa using hw)]
    rfl

/-- What is left when a loop stops is empty, or starts with a character that has not passed. -/
theorem dropWhile_stop (test : Byte → Bool) (l : List Byte) :
    l.dropWhile test = [] ∨ ∃ c cs, l.dropWhile test = c :: cs ∧ test c = false := by
  cases h : l.dropWhile test with
  | nil => exact .inl rfl
  | cons c cs =>
    have hne : l.dropWhile test ≠ [] := by
      rw [h]
      exact List.cons_ne_nil c cs
    have hc := List.head_dropWhile_not test hne
    simp only [h, List.head_cons] at hc
    exact .inr ⟨c, cs, rfl, hc⟩

/-- The first word of a path that does not start with a slash, and what follows it. -/
theorem skipelem_word {c : Byte} (hc : c ≠ 47) (cs : List Byte) :
    ((c :: cs).takeWhile (· ≠ 47)) ≠ [] ∧ 47 ∉ (c :: cs).takeWhile (· ≠ 47) ∧
      ((c :: cs).dropWhile (· ≠ 47) = [] ∨ ((c :: cs).dropWhile (· ≠ 47)).head? = some 47) := by
  refine ⟨?_, fun hmem => ?_, ?_⟩
  · rw [List.takeWhile_cons_of_pos (by simpa using hc)]
    exact List.cons_ne_nil _ _
  · have := List.mem_takeWhile_imp hmem
    exact absurd rfl (of_decide_eq_true this)
  · obtain hnil | ⟨a, as, heq, ha⟩ := dropWhile_stop (· ≠ 47) (c :: cs)
    · exact .inl hnil
    · refine .inr ?_
      rw [heq]
      have ha : a = 47 := by simpa using ha
      rw [ha]
      rfl

/-- `skipelem` takes the first element off, and what is left is shorter. -/
theorem skipelem_spec (path : List Byte) :
    skipelem path = none ∧ components path = [] ∨
      ∃ el rest, skipelem path = some (el, rest) ∧ components path = el :: components rest ∧
        rest.length < path.length := by
  rw [skipelem, ← components_dropWhile path]
  obtain hnil | ⟨c, cs, heq, hc⟩ := dropWhile_stop (· = 47) path
  · rw [hnil]
    exact .inl ⟨rfl, rfl⟩
  · have hc : c ≠ 47 := by simpa using hc
    obtain ⟨hne, hslash, hstop⟩ := skipelem_word hc cs
    rw [heq]
    refine .inr ⟨_, _, rfl, ?_, ?_⟩
    · rw [components_dropWhile, ← components_word hne hslash hstop, List.takeWhile_append_dropWhile]
    · have hword := List.length_pos_of_ne_nil hne
      have hall :=
        congrArg List.length (List.takeWhile_append_dropWhile (p := (· ≠ 47)) (l := c :: cs))
      have hskip := (List.dropWhile_suffix (p := (· = 47)) (l := path)).length_le
      have hrest :=
        (List.dropWhile_suffix (p := (· = 47)) (l := (c :: cs).dropWhile (· ≠ 47))).length_le
      rw [heq] at hskip
      rw [List.length_append] at hall
      omega

/-- What `skipelem` leaves has an element unless it is empty. -/
theorem components_eq_nil_iff {el : List Byte} (h : skipelem path = some (el, rest)) :
    components rest = [] ↔ rest = [] := by
  refine ⟨fun hcomp => ?_, fun hrest => hrest ▸ rfl⟩
  have hdrop : ∃ l : List Byte, rest = l.dropWhile (· = 47) := by
    rw [skipelem] at h
    split at h
    · cases h
    · exact ⟨_, (Prod.mk.inj (Option.some.inj h)).2.symm⟩
  obtain ⟨l, rfl⟩ := hdrop
  obtain hnil | ⟨c, cs, heq, hc⟩ := dropWhile_stop (· = 47) l
  · exact hnil
  · obtain ⟨hne, hslash, hstop⟩ := skipelem_word (show c ≠ 47 by simpa using hc) cs
    rw [heq, ← List.takeWhile_append_dropWhile (p := (· ≠ 47)) (l := c :: cs),
      components_word hne hslash hstop] at hcomp
    exact absurd hcomp (List.cons_ne_nil _ _)

theorem elems_eq_components (h : path.length ≤ n) : elems n path = components path := by
  induction n generalizing path with
  | zero =>
    rw [List.eq_nil_of_length_eq_zero (Nat.le_zero.mp h)]
    rfl
  | succ n ih =>
    rw [elems]
    obtain ⟨hnone, hcomp⟩ | ⟨el, rest, hsome, hcomp, hlt⟩ := skipelem_spec path
    · rw [hnone, hcomp]
    · rw [hsome, hcomp]
      dsimp only
      rw [ih (by omega)]

/-! ### The buffer -/

theorem cut_of_ne_zero {l : List Byte} (h : ∀ c ∈ l, c ≠ 0) (n : ℕ) : cut n l = l.take n := by
  refine List.takeWhile_eq_self_iff.mpr fun c hc => ?_
  exact decide_eq_true (h c (List.mem_of_mem_take hc))

theorem cut_cut (n : ℕ) (l : List Byte) : cut n (cut n l) = cut n l := by
  have hzero : ∀ c ∈ cut n l, c ≠ 0 := by
    intro c hc
    have hpass := List.mem_takeWhile_imp hc
    exact of_decide_eq_true hpass
  rw [cut_of_ne_zero hzero, List.take_of_length_le]
  exact Nat.le_trans (List.takeWhile_prefix _).length_le (List.length_take_le n l)

/-- The characters of a string in memory. -/
theorem take_eq_map_range {str : List Byte} (h : CString mem p str) (hn : n ≤ str.length) :
    (List.range n).map (fun i => mem (p + i)) = str.take n := by
  refine List.ext_getElem? fun i => ?_
  by_cases hi : i < n
  · rw [List.getElem?_take_of_lt hi, h.getElem? (by omega), List.getElem?_map,
      List.getElem?_range hi]
    rfl
  · rw [List.getElem?_eq_none (by rw [List.length_map, List.length_range]; omega),
      List.getElem?_eq_none (by rw [List.length_take]; omega)]

/-- The buffer holds the element as a string, and nothing is written after its end. -/
theorem buffer_elem {str : List Byte} (name : ℕ → Byte) (h : CString mem p str)
    (hn : n ≤ str.length) (hname : name' = if DIRSIZ ≤ n then memmove name mem p DIRSIZ
      else Function.update (memmove name mem p n) n 0) :
    cut DIRSIZ (buffer name') = (str.take n).take DIRSIZ ∧ ∀ i, DIRSIZ ≤ i → name' i = name i := by
  have hzero : ∀ c ∈ str.take n, c ≠ 0 := fun c hc => h.ne_zero c (List.mem_of_mem_take hc)
  by_cases hlen : DIRSIZ ≤ n
  · rw [if_pos hlen] at hname
    subst hname
    refine ⟨?_, fun i hi => if_neg (Nat.not_lt_of_le hi)⟩
    have hbuf : buffer (memmove name mem p DIRSIZ) = str.take DIRSIZ := by
      rw [← take_eq_map_range h (Nat.le_trans hlen hn)]
      refine List.map_congr_left fun i hi => ?_
      exact if_pos (List.mem_range.mp hi)
    have htake : str.take DIRSIZ = (str.take n).take DIRSIZ := by
      rw [List.take_take, Nat.min_eq_left hlen]
    rw [hbuf, htake, cut_of_ne_zero fun c hc => hzero c (List.mem_of_mem_take hc), List.take_take,
      Nat.min_self]
  · rw [if_neg hlen] at hname
    subst hname
    have hlen : n < DIRSIZ := Nat.lt_of_not_le hlen
    refine ⟨?_, fun i hi => ?_⟩
    · obtain ⟨k, hk⟩ := Nat.exists_eq_add_of_lt hlen
      have hbuf : buffer (Function.update (memmove name mem p n) n 0) =
          str.take n ++ 0 :: (List.range k).map fun i => name (n + 1 + i) := by
        rw [buffer, hk, Nat.add_assoc, List.range_add, List.map_append, List.range_succ_eq_map,
          List.map_cons, List.map_cons, List.map_map, List.map_map, ← take_eq_map_range h hn]
        congr 1
        · refine List.map_congr_left fun i hi => ?_
          have hi := List.mem_range.mp hi
          rw [Function.update_of_ne (Nat.ne_of_lt hi)]
          exact if_pos hi
        · congr 1
          · exact Function.update_self _ _ _
          · refine List.map_congr_left fun i hi => ?_
            change Function.update _ _ _ (n + (i + 1)) = _
            rw [Function.update_of_ne (by omega), memmove, if_neg (by omega)]
            congr 1
            omega
      have hshort : (str.take n).length = n := by rw [List.length_take, Nat.min_eq_left hn]
      have hfull : (str.take n).take DIRSIZ = str.take n :=
        List.take_of_length_le (by rw [hshort]; exact Nat.le_of_lt hlen)
      rw [hbuf, hfull, cut, hk, Nat.add_assoc, List.take_append, List.takeWhile_append_of_pos,
        hshort]
      · rw [Nat.add_sub_cancel_left, List.take_succ_cons, List.takeWhile_cons_of_neg (by decide),
          List.append_nil, List.take_of_length_le (by rw [hshort]; omega)]
      · exact fun c hc => decide_eq_true (hzero c (List.mem_of_mem_take hc))
    · rw [Function.update_of_ne (by omega), memmove, if_neg (by omega)]

/-! ### The loop in memory -/

theorem while_congr {f g : Byte → Bool} (l : List Byte) (h : ∀ c ∈ l, f c = g c) :
    l.takeWhile f = l.takeWhile g ∧ l.dropWhile f = l.dropWhile g := by
  induction l with
  | nil => exact ⟨rfl, rfl⟩
  | cons c cs ih =>
    obtain ⟨htake, hdrop⟩ := ih fun a ha => h a (List.mem_cons_of_mem c ha)
    rw [List.takeWhile_cons, List.takeWhile_cons, List.dropWhile_cons, List.dropWhile_cons,
      h c List.mem_cons_self, htake, hdrop]
    exact ⟨rfl, rfl⟩

/-- **`skipelem` on a pointer** does what `skipelem` does on the characters. -/
theorem skipelemAt_spec (h : CString mem p path) (hfuel : path.length < fuel) (name : ℕ → Byte) :
    skipelem path = none ∧ skipelemAt mem fuel p name = some none ∨
      ∃ el rest q name', skipelem path = some (el, rest) ∧
        skipelemAt mem fuel p name = some (some (q, name')) ∧ CString mem q rest ∧
        cut DIRSIZ (buffer name') = el ∧ ∀ i, DIRSIZ ≤ i → name' i = name i := by
  obtain ⟨hrun, hstr⟩ := h.skipWhile (· = 47) rfl hfuel
  rw [skipelem, skipelemAt, hrun]
  generalize p + (path.takeWhile (· = 47)).length = p' at hstr
  have hshort : (path.dropWhile (· = 47)).length < fuel :=
    Nat.lt_of_le_of_lt (List.dropWhile_suffix _).length_le hfuel
  generalize path.dropWhile (· = 47) = str at hstr hshort
  cases str with
  | nil => exact .inl ⟨rfl, if_pos (hstr.eq_zero_iff.mpr rfl)⟩
  | cons c cs =>
    -- a string has no zero inside, so that both tests for the end of the word agree
    obtain ⟨htake, hdrop⟩ := while_congr (c :: cs) (f := fun c => c ≠ 47 ∧ c ≠ 0) (g := (· ≠ 47))
      fun a ha => decide_eq_decide.mpr ⟨And.left, fun hne => ⟨hne, hstr.ne_zero a ha⟩⟩
    obtain ⟨hword, hafter⟩ := hstr.skipWhile (fun c => c ≠ 47 ∧ c ≠ 0) rfl hshort
    rw [htake] at hword hafter
    rw [hdrop] at hafter
    have hshort' : ((c :: cs).dropWhile (· ≠ 47)).length < fuel :=
      Nat.lt_of_le_of_lt (List.dropWhile_suffix _).length_le hshort
    obtain ⟨hskip, hrest⟩ := hafter.skipWhile (· = 47) rfl hshort'
    obtain ⟨hbuf, hend⟩ := buffer_elem name hstr (List.takeWhile_prefix (· ≠ 47)).length_le rfl
    have hwhole : (c :: cs).takeWhile (· ≠ 47) = (c :: cs).take
        ((c :: cs).takeWhile (· ≠ 47)).length :=
      List.prefix_iff_eq_take.mp (List.takeWhile_prefix _)
    rw [← hwhole] at hbuf
    refine .inr ⟨_, _, _, _, rfl, ?_, hrest, hbuf, hend⟩
    refine (if_neg fun hz => List.cons_ne_nil c cs (hstr.eq_zero_iff.mp hz)).trans ?_
    rw [hword]
    change (skipWhile (· = 47) mem fuel _).bind _ = _
    rw [hskip, Nat.add_sub_cancel_left]
    rfl

/-- **The loop of `namex` on a pointer** ends. The buffers hold the elements of the path in order,
and the pointer is at the end of the string after the last one only. -/
theorem elemsAt_spec (h : CString mem p path) (hfuel : path.length < fuel) (hn : path.length < n)
    (name : ℕ → Byte) : ∃ l, elemsAt mem fuel n p name = some l ∧
      l.map (fun e => cut DIRSIZ (buffer e.2)) = components path ∧
      (∀ e ∈ l, ∀ i, DIRSIZ ≤ i → e.2 i = name i) ∧
      ∀ k e, l[k]? = some e → (mem e.1 = 0 ↔ k + 1 = l.length) := by
  induction n generalizing p path name with
  | zero => exact absurd hn (Nat.not_lt_zero _)
  | succ n ih =>
    rw [elemsAt]
    obtain ⟨hnone, hrun⟩ | ⟨el, rest, q, name', hsome, hrun, hrest, hbuf, hend⟩ :=
      skipelemAt_spec h hfuel name
    · obtain ⟨-, hcomp⟩ | ⟨_, _, hsome, -⟩ := skipelem_spec path
      · refine ⟨[], by rw [hrun]; rfl, hcomp.symm, fun e he => absurd he List.not_mem_nil, ?_⟩
        exact fun k e hk => absurd hk (by rw [List.getElem?_nil]; nofun)
      · exact absurd (hnone.symm.trans hsome) nofun
    · obtain ⟨hnone, -⟩ | ⟨_, _, hsome', hcomp, hlt⟩ := skipelem_spec path
      · exact absurd (hnone.symm.trans hsome) nofun
      obtain ⟨rfl, rfl⟩ := Prod.mk.inj (Option.some.inj (hsome.symm.trans hsome'))
      obtain ⟨l, hl, hmap, hout, hlast⟩ := ih hrest (by omega) (by omega) name'
      refine ⟨(q, name') :: l, ?_, ?_, ?_, ?_⟩
      · rw [hrun]
        change (elemsAt mem fuel n q name').bind _ = _
        rw [hl]
        rfl
      · rw [List.map_cons, hmap, hbuf, hcomp]
      · intro e he i hi
        obtain rfl | he := List.mem_cons.mp he
        · exact hend i hi
        · rw [hout e he i hi, hend i hi]
      · intro k e hk
        cases k with
        | zero =>
          cases hk
          rw [hrest.eq_zero_iff, ← components_eq_nil_iff hsome, ← hmap, List.map_eq_nil_iff,
            List.length_cons, Nat.add_right_cancel_iff, ← List.length_eq_zero_iff]
          exact eq_comm
        | succ k =>
          rw [List.length_cons, Nat.add_right_cancel_iff]
          exact hlast k e hk

/-- The elements of a string are compared as they are. -/
theorem components_key (h : CString mem p path) :
    (components path).map (cut DIRSIZ) = components path := by
  obtain ⟨l, -, hl, -⟩ := elemsAt_spec h (Nat.lt_succ_self _) (Nat.lt_succ_self _) fun _ => 0
  rw [← hl, List.map_map]
  exact List.map_congr_left fun e _ => cut_cut DIRSIZ _

end Xv6.Fs
