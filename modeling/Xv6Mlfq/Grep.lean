import Mathlib.Data.List.Basic

/-!
grep (user/grep.c): the Kernighan–Pike matcher `match`/`matchhere`/`matchstar`
and the line loop `grep`.

A C string is the list of its characters before the NUL.  `matchstar` takes
the `matchhere` of the rest of the pattern as a function, so that `matchhere`
is structurally recursive on the pattern and the mutual recursion of the
source terminates by construction.
-/

namespace Xv6Mlfq.Grep

/-! ### The matcher -/

/-- matchstar's do-while with `here` for `matchhere(re, ·)`: try the rest at
`text`, then step over one character equal to `c` (any, for '.'). -/
def matchstarWith (c : Char) (here : List Char → Bool) : List Char → Bool
  | [] => here []
  | t :: text => here (t :: text) || ((t == c || c == '.') && matchstarWith c here text)

/-- matchhere (grep.c): search for `re` at the beginning of `text`. -/
def matchhere : List Char → List Char → Bool
  | [], _ => true
  | c :: '*' :: re, text => matchstarWith c (matchhere re) text
  | ['$'], text => text.isEmpty
  | c :: re, t :: text => (c == '.' || c == t) && matchhere re text
  | _ :: _, [] => false

/-- matchstar (grep.c): search for `c*re` at the beginning of `text`. -/
def matchstar (c : Char) (re text : List Char) : Bool :=
  matchstarWith c (matchhere re) text

/-- match's do-while over the start positions, the empty suffix included. -/
def matchFrom (re : List Char) : List Char → Bool
  | [] => matchhere re []
  | t :: text => matchhere re (t :: text) || matchFrom re text

/-- match (grep.c). -/
def match' : List Char → List Char → Bool
  | '^' :: re, text => matchhere re text
  | re, text => matchFrom re text

/-! ### The patterns' language -/

/-- A pattern atom: a literal character, or '.'. -/
inductive Atom
  | lit (c : Char)
  | any
  deriving DecidableEq, Repr

/-- The characters an atom matches. -/
def Atom.Sat : Atom → Char → Prop
  | .lit c, x => x = c
  | .any, _ => True

instance (a : Atom) : DecidablePred a.Sat := fun x =>
  match a with
  | .lit c => inferInstanceAs (Decidable (x = c))
  | .any => inferInstanceAs (Decidable True)

/-- The atom a pattern character stands for. -/
def Atom.ofChar (c : Char) : Atom := if c = '.' then .any else .lit c

/-- A pattern read as a leading '^', a sequence of atoms each perhaps starred,
and a final '$'. -/
structure Pattern where
  start : Bool
  atoms : List (Atom × Bool)
  stop : Bool
  deriving DecidableEq, Repr

/-- The atoms and the final '$' of a pattern after its '^': a character
followed by '*' is a starred atom, a '$' ending the pattern is the anchor, and
every other character is an atom. -/
def parseBody : List Char → List (Atom × Bool) × Bool
  | [] => ([], false)
  | c :: '*' :: re => ((Atom.ofChar c, true) :: (parseBody re).1, (parseBody re).2)
  | ['$'] => ([], true)
  | c :: re => ((Atom.ofChar c, false) :: (parseBody re).1, (parseBody re).2)

/-- A pattern read as a regular expression: '^' only in front, '*' only
after an atom, '$' only at the end. -/
def parse : List Char → Pattern
  | '^' :: re => ⟨true, (parseBody re).1, (parseBody re).2⟩
  | re => ⟨false, (parseBody re).1, (parseBody re).2⟩

/-- The language of an atom sequence: an atom matches one character it is
satisfied by, a starred atom any run of such characters. -/
inductive Lang : List (Atom × Bool) → List Char → Prop
  | nil : Lang [] []
  | one {a : Atom} {c : Char} {is : List (Atom × Bool)} {w : List Char} :
      a.Sat c → Lang is w → Lang ((a, false) :: is) (c :: w)
  | star {a : Atom} {is : List (Atom × Bool)} {u w : List Char} :
      (∀ c ∈ u, a.Sat c) → Lang is w → Lang ((a, true) :: is) (u ++ w)

/-- `text` has a substring in the language of the pattern's atoms: a prefix if
the pattern starts with '^', a suffix if it ends with '$'. -/
def Pattern.Accepts (p : Pattern) (text : List Char) : Prop :=
  ∃ pre mid suf, text = pre ++ mid ++ suf ∧ Lang p.atoms mid ∧
    (p.start = true → pre = []) ∧ (p.stop = true → suf = [])

section Lang

variable {a : Atom} {is : List (Atom × Bool)} {w : List Char}

theorem sat_ofChar {c t : Char} : (Atom.ofChar c).Sat t ↔ t = c ∨ c = '.' := by
  unfold Atom.ofChar
  split_ifs with hc <;> simp [Atom.Sat, hc]

theorem lang_nil_iff : Lang [] w ↔ w = [] := by
  constructor
  · rintro ⟨⟩
    rfl
  · rintro rfl
    exact .nil

theorem lang_one_iff : Lang ((a, false) :: is) w ↔ ∃ c w', w = c :: w' ∧ a.Sat c ∧ Lang is w' := by
  constructor
  · rintro (_ | ⟨hc, hw⟩)
    exact ⟨_, _, rfl, hc, hw⟩
  · rintro ⟨c, w', rfl, hc, hw⟩
    exact .one hc hw

theorem lang_star_iff :
    Lang ((a, true) :: is) w ↔ ∃ u w', w = u ++ w' ∧ (∀ c ∈ u, a.Sat c) ∧ Lang is w' := by
  constructor
  · rintro (_ | _ | ⟨hu, hw⟩)
    exact ⟨_, _, rfl, hu, hw⟩
  · rintro ⟨u, w', rfl, hu, hw⟩
    exact .star hu hw

end Lang

/-! ### The matcher decides the language -/

/-- What `matchhere re` accepts: a prefix in the language of the atoms, the
whole text when the pattern ends in '$'. -/
def HereSpec (re text : List Char) : Prop :=
  ∃ mid suf, text = mid ++ suf ∧ Lang (parseBody re).1 mid ∧ ((parseBody re).2 = true → suf = [])

theorem matchstarWith_iff {c : Char} {here : List Char → Bool} (text : List Char) :
    matchstarWith c here text = true ↔
      ∃ u w, text = u ++ w ∧ (∀ x ∈ u, (Atom.ofChar c).Sat x) ∧ here w = true := by
  induction text with
  | nil =>
      simp only [matchstarWith, List.nil_eq_append_iff]
      constructor
      · intro h
        exact ⟨[], [], ⟨rfl, rfl⟩, by simp, h⟩
      · rintro ⟨u, w, ⟨rfl, rfl⟩, -, h⟩
        exact h
  | cons t text ih =>
      simp only [matchstarWith, Bool.or_eq_true, Bool.and_eq_true, beq_iff_eq, ih]
      constructor
      · rintro (h | ⟨ht, u, w, rfl, hu, h⟩)
        · exact ⟨[], t :: text, rfl, by simp, h⟩
        · refine ⟨t :: u, w, rfl, ?_, h⟩
          rintro x (_ | ⟨_, hx⟩)
          · exact sat_ofChar.mpr ht
          · exact hu x hx
      · rintro ⟨_ | ⟨x, u⟩, w, htext, hu, h⟩
        · left
          rw [htext]
          exact h
        · simp only [List.cons_append, List.cons.injEq] at htext
          obtain ⟨rfl, rfl⟩ := htext
          exact Or.inr ⟨sat_ofChar.mp (hu t List.mem_cons_self), u, w, rfl,
            fun y hy => hu y (List.mem_cons_of_mem _ hy), h⟩

theorem matchhere_iff (re : List Char) : ∀ text, matchhere re text = true ↔ HereSpec re text := by
  induction re using parseBody.induct with
  | case1 =>
      intro text
      simp only [matchhere, HereSpec, parseBody, lang_nil_iff, Bool.false_eq_true,
        false_implies, and_true, true_iff]
      exact ⟨[], text, rfl, rfl⟩
  | case2 c re ih =>
      intro text
      rw [matchhere, matchstarWith_iff]
      simp only [HereSpec, parseBody, lang_star_iff, ih]
      constructor
      · rintro ⟨u, w, rfl, hu, mid, suf, rfl, hmid, hsuf⟩
        exact ⟨u ++ mid, suf, (List.append_assoc _ _ _).symm, ⟨u, mid, rfl, hu, hmid⟩, hsuf⟩
      · rintro ⟨_, suf, rfl, ⟨u, mid, rfl, hu, hmid⟩, hsuf⟩
        exact ⟨u, mid ++ suf, List.append_assoc _ _ _, hu, mid, suf, rfl, hmid, hsuf⟩
  | case3 =>
      intro text
      simp only [matchhere, HereSpec, parseBody, lang_nil_iff, List.isEmpty_iff, forall_const]
      constructor
      · rintro rfl
        exact ⟨[], [], rfl, rfl, rfl⟩
      · rintro ⟨_, _, rfl, rfl, rfl⟩
        rfl
  | case4 c re hstar hdollar ih =>
      have hbody : parseBody (c :: re) =
          ((Atom.ofChar c, false) :: (parseBody re).1, (parseBody re).2) := by
        rw [parseBody.eq_4 c re hstar hdollar]
      intro text
      cases text with
      | nil =>
          rw [matchhere.eq_5 c re hstar hdollar]
          simp only [Bool.false_eq_true, false_iff, HereSpec, hbody, lang_one_iff]
          rintro ⟨_, _, htext, ⟨_, _, rfl, -⟩, -⟩
          simp at htext
      | cons t text =>
          rw [matchhere.eq_4 c re t text hstar hdollar]
          simp only [HereSpec, hbody, lang_one_iff, Bool.and_eq_true, Bool.or_eq_true, beq_iff_eq,
            ih]
          constructor
          · rintro ⟨ht, mid, suf, rfl, hmid, hsuf⟩
            refine ⟨t :: mid, suf, rfl, ⟨t, mid, rfl, sat_ofChar.mpr ?_, hmid⟩, hsuf⟩
            rcases ht with h | h
            · exact Or.inr h
            · exact Or.inl h.symm
          · rintro ⟨_, suf, htext, ⟨x, mid, rfl, hx, hmid⟩, hsuf⟩
            simp only [List.cons_append, List.cons.injEq] at htext
            obtain ⟨rfl, rfl⟩ := htext
            refine ⟨?_, mid, suf, rfl, hmid, hsuf⟩
            rcases sat_ofChar.mp hx with h | h
            · exact Or.inr h.symm
            · exact Or.inl h

theorem matchFrom_iff (re text : List Char) :
    matchFrom re text = true ↔ ∃ pre rest, text = pre ++ rest ∧ matchhere re rest = true := by
  induction text with
  | nil =>
      simp only [matchFrom, List.nil_eq_append_iff]
      constructor
      · intro h
        exact ⟨[], [], ⟨rfl, rfl⟩, h⟩
      · rintro ⟨_, _, ⟨rfl, rfl⟩, h⟩
        exact h
  | cons t text ih =>
      simp only [matchFrom, Bool.or_eq_true, ih]
      constructor
      · rintro (h | ⟨pre, rest, rfl, h⟩)
        · exact ⟨[], t :: text, rfl, h⟩
        · exact ⟨t :: pre, rest, rfl, h⟩
      · rintro ⟨_ | ⟨x, pre⟩, rest, htext, h⟩
        · left
          rw [htext]
          exact h
        · simp only [List.cons_append, List.cons.injEq] at htext
          obtain ⟨rfl, rfl⟩ := htext
          exact Or.inr ⟨pre, rest, rfl, h⟩

theorem match_decides_language (re text : List Char) :
    match' re text = true ↔ (parse re).Accepts text := by
  by_cases hre : ∃ re', re = '^' :: re'
  · obtain ⟨re, rfl⟩ := hre
    simp only [match', parse, Pattern.Accepts, matchhere_iff, HereSpec, forall_const]
    constructor
    · rintro ⟨mid, suf, rfl, hmid, hsuf⟩
      exact ⟨[], mid, suf, rfl, hmid, rfl, hsuf⟩
    · rintro ⟨_, mid, suf, rfl, hmid, rfl, hsuf⟩
      exact ⟨mid, suf, rfl, hmid, hsuf⟩
  · have hmatch : match' re text = matchFrom re text := by
      rcases re with _ | ⟨c, re⟩
      · rfl
      · rw [match'.eq_2]
        intro re' h
        exact hre ⟨re', h⟩
    have hparse : parse re = ⟨false, (parseBody re).1, (parseBody re).2⟩ := by
      rcases re with _ | ⟨c, re⟩
      · rfl
      · rw [parse.eq_2]
        intro re' h
        exact hre ⟨re', h⟩
    rw [hmatch, hparse, matchFrom_iff]
    simp only [matchhere_iff, HereSpec, Pattern.Accepts, Bool.false_eq_true, false_implies,
      true_and]
    constructor
    · rintro ⟨pre, _, rfl, mid, suf, rfl, hmid, hsuf⟩
      exact ⟨pre, mid, suf, (List.append_assoc _ _ _).symm, hmid, hsuf⟩
    · rintro ⟨pre, mid, suf, rfl, hmid, hsuf⟩
      exact ⟨pre, mid ++ suf, List.append_assoc _ _ _, mid, suf, rfl, hmid, hsuf⟩

example : match' "^a.*c$".toList "abbc".toList = true ∧ match' "b*$".toList "abc".toList = true ∧
    match' "a$b".toList "ab".toList = false := by
  decide

/-! ### The line loop -/

/-- The NUL byte. -/
def nul : Char := Char.ofNat 0

/-- strchr (ulib.c): the index of the first `c` before the string's NUL. -/
def strchr (c : Char) : List Char → Option Nat
  | [] => none
  | x :: s => if x = nul then none else if x = c then some 0 else (strchr c s).map (· + 1)

theorem strchr_some {c : Char} {b : List Char} {q : Nat} (h : strchr c b = some q) :
    ∃ l r, b = l ++ c :: r ∧ q = l.length ∧ c ∉ l := by
  induction b generalizing q with
  | nil => simp [strchr] at h
  | cons x b ih =>
      simp only [strchr] at h
      split_ifs at h with hnul hc
      · subst hc
        simp only [Option.some.injEq] at h
        exact ⟨[], b, rfl, h.symm, List.not_mem_nil⟩
      · obtain ⟨q', hq', rfl⟩ := Option.map_eq_some_iff.mp h
        obtain ⟨l, r, rfl, rfl, hl⟩ := ih hq'
        refine ⟨x :: l, r, rfl, rfl, ?_⟩
        rintro (_ | ⟨_, hm⟩)
        · exact hc rfl
        · exact hl hm

theorem strchr_none {c : Char} {b : List Char} (h : strchr c b = none) (hb : nul ∉ b) : c ∉ b := by
  induction b with
  | nil => exact List.not_mem_nil
  | cons x b ih =>
      have hx : x ≠ nul := fun hx => hb (hx ▸ List.mem_cons_self)
      simp only [strchr, if_neg hx] at h
      split_ifs at h with hc
      rintro (_ | ⟨_, hm⟩)
      · exact hc rfl
      · exact ih (Option.map_eq_none_iff.mp h) (fun hn => hb (List.mem_cons_of_mem _ hn)) hm

theorem strchr_eq_none {c : Char} {b : List Char} (h : c ∉ b) : strchr c b = none := by
  induction b with
  | nil => rfl
  | cons x b ih =>
      have hc : x ≠ c := fun hx => h (hx ▸ List.mem_cons_self)
      simp only [strchr, if_neg hc, ih (fun hm => h (List.mem_cons_of_mem _ hm)), Option.map_none,
        ite_self]

theorem strchr_lt {c : Char} {b : List Char} {q : Nat} (h : strchr c b = some q) : q < b.length := by
  obtain ⟨l, r, rfl, rfl, -⟩ := strchr_some h
  simp

/-- grep's inner loop over `buf[0..m)`: each line up to the first '\n' is
written with its '\n' when `match` accepts it; the result is what is written
and the buffer from `p` on. -/
def scanLines (pattern b : List Char) : List Char × List Char :=
  match _hq : strchr '\n' b with
  | none => ([], b)
  | some q =>
      let r := scanLines pattern (b.drop (q + 1))
      ((if match' pattern (b.take q) then b.take q ++ ['\n'] else []) ++ r.1, r.2)
termination_by b.length
decreasing_by
  have := strchr_lt _hq
  simp only [List.length_drop]
  omega

/-- How many bytes `read(fd, buf+m, req)` returns with `left` bytes of input
left: at most `req` and `left`, at least one where both allow it; `k` is how
many the file or pipe hands over. -/
def readSize (req left k : Nat) : Nat := min (max k 1) (min req left)

theorem readSize_le_left {req left k : Nat} : readSize req left k ≤ left := by
  unfold readSize
  omega

/-- grep's outer loop with `buf[0..m)` holding `buf`: reads of the sizes `ks`
asks for (as large as asked once `ks` runs out), each followed by the inner
loop and the move of the unfinished line to the front. -/
def grepLoop (pattern input : List Char) (ks : List Nat) (buf : List Char) : List Char :=
  let n := readSize (1024 - buf.length - 1) input.length (ks.headD (1024 - buf.length - 1))
  if _hn : n = 0 then []
  else
    let r := scanLines pattern (buf ++ input.take n)
    r.1 ++ grepLoop pattern (input.drop n) ks.tail r.2
termination_by input.length
decreasing_by
  have : readSize (1024 - buf.length - 1) input.length (ks.headD (1024 - buf.length - 1)) ≤
      input.length := readSize_le_left
  simp only [List.length_drop]
  omega

/-- grep (grep.c) on file contents `input` read in the chunks `ks`: what it
writes to fd 1. -/
def grep (pattern input : List Char) (ks : List Nat) : List Char := grepLoop pattern input ks []

/-- What grep is to write: every '\n'-terminated line of `input` that `match`
accepts, with its '\n', in order; `cur` is the part of the line read before
`input`. -/
def matchingLines (pattern : List Char) (cur : List Char) : List Char → List Char
  | [] => []
  | c :: input =>
      if c = '\n' then (if match' pattern cur then cur ++ ['\n'] else []) ++ matchingLines pattern [] input
      else matchingLines pattern (cur ++ [c]) input

/-- Every '\n'-terminated line of `input`, `cur` characters of the first one
read before it, is shorter than `bound`. -/
def LinesShorter (bound : Nat) : Nat → List Char → Prop
  | _, [] => True
  | cur, c :: input => if c = '\n' then cur < bound ∧ LinesShorter bound 0 input
      else LinesShorter bound (cur + 1) input

section Lines

variable {pattern cur s t : List Char} {bound k : Nat}

theorem matchingLines_append (hs : '\n' ∉ s) :
    matchingLines pattern cur (s ++ t) = matchingLines pattern (cur ++ s) t := by
  induction s generalizing cur with
  | nil => simp
  | cons c s ih =>
      have hc : c ≠ '\n' := fun h => hs (h ▸ List.mem_cons_self)
      rw [List.cons_append, matchingLines, if_neg hc, ih (fun h => hs (List.mem_cons_of_mem _ h)),
        List.append_assoc, List.singleton_append]

theorem matchingLines_of_not_mem (hs : '\n' ∉ s) : matchingLines pattern cur s = [] := by
  rw [← List.append_nil s, matchingLines_append hs, matchingLines]

theorem linesShorter_append (hs : '\n' ∉ s) :
    LinesShorter bound k (s ++ t) ↔ LinesShorter bound (k + s.length) t := by
  induction s generalizing k with
  | nil => simp
  | cons c s ih =>
      have hc : c ≠ '\n' := fun h => hs (h ▸ List.mem_cons_self)
      rw [List.cons_append, LinesShorter, if_neg hc, ih (fun h => hs (List.mem_cons_of_mem _ h)),
        List.length_cons, Nat.add_assoc, Nat.add_comm 1]

theorem linesShorter_after_newline {l : List Char} (h : LinesShorter bound k (l ++ '\n' :: t)) :
    LinesShorter bound 0 t := by
  induction l generalizing k with
  | nil =>
      simp only [List.nil_append, LinesShorter] at h
      exact h.2
  | cons c l ih =>
      rw [List.cons_append, LinesShorter] at h
      split_ifs at h
      · exact ih h.2
      · exact ih h

theorem not_mem_of_linesShorter (hk : bound ≤ k) (h : LinesShorter bound k s) : '\n' ∉ s := by
  induction s generalizing k with
  | nil => exact List.not_mem_nil
  | cons c s ih =>
      rw [LinesShorter] at h
      split_ifs at h with hc
      · omega
      · rintro (_ | ⟨_, hm⟩)
        · exact hc rfl
        · exact ih (by omega) h hm

end Lines

/-- The inner loop writes the buffer's complete lines that match and leaves its
unfinished line, on a buffer without NUL. -/
theorem scanLines_spec (pattern b : List Char) (hb : nul ∉ b) :
    '\n' ∉ (scanLines pattern b).2 ∧
      (b = (scanLines pattern b).2 ∨ ∃ l, b = l ++ '\n' :: (scanLines pattern b).2) ∧
      ∀ t, (scanLines pattern b).1 ++ matchingLines pattern (scanLines pattern b).2 t =
        matchingLines pattern [] (b ++ t) := by
  induction b using scanLines.induct pattern with
  | case1 b hnone =>
      rw [scanLines, hnone]
      refine ⟨strchr_none hnone hb, Or.inl rfl, fun t => ?_⟩
      rw [List.nil_append, matchingLines_append (strchr_none hnone hb), List.nil_append]
  | case2 b q hsome ih =>
      obtain ⟨l, r, rfl, rfl, hl⟩ := strchr_some hsome
      have htake : (l ++ '\n' :: r).take l.length = l := by simp
      have hdrop : (l ++ '\n' :: r).drop (l.length + 1) = r := by simp
      have hr : nul ∉ r := fun h => hb (by simp [h])
      rw [hdrop] at ih
      obtain ⟨hrest, hsplit, hout⟩ := ih hr
      rw [scanLines, hsome]
      simp only [htake, hdrop]
      refine ⟨hrest, Or.inr ?_, fun t => ?_⟩
      · rcases hsplit with h | ⟨l', h⟩
        · exact ⟨l, by rw [← h]⟩
        · exact ⟨l ++ '\n' :: l', by rw [List.append_assoc, List.cons_append, ← h]⟩
      · rw [List.append_assoc, hout, List.append_assoc, List.cons_append,
          matchingLines_append hl, List.nil_append, matchingLines, if_pos rfl]

theorem scanLines_of_not_mem {pattern b : List Char} (h : '\n' ∉ b) : scanLines pattern b = ([], b) := by
  rw [scanLines]
  split
  · rfl
  · next q hq => simp [strchr_eq_none h] at hq

theorem grepLoop_full {pattern input : List Char} {ks : List Nat} {buf : List Char}
    (h : 1023 ≤ buf.length) : grepLoop pattern input ks buf = [] := by
  rw [grepLoop, dif_pos]
  simp only [readSize]
  omega

/-- Reading on from `buf`, grep writes exactly the matching lines, as long as
no NUL is read and every complete line fits `buf` with its '\n'. -/
theorem grepLoop_eq (pattern input : List Char) (ks : List Nat) (buf : List Char)
    (hnul : nul ∉ buf ++ input) (hbuf : '\n' ∉ buf) (hlines : LinesShorter 1023 buf.length input) :
    grepLoop pattern input ks buf = matchingLines pattern buf input := by
  induction input, ks, buf using grepLoop.induct pattern with
  | case1 input ks buf n hn =>
      rw [grepLoop, dif_pos hn]
      simp only [n, readSize] at hn
      by_cases hin : input = []
      · subst hin
        rfl
      · have hfull : 1023 ≤ buf.length := by
          have : input.length ≠ 0 := by simpa using hin
          omega
        exact (matchingLines_of_not_mem (not_mem_of_linesShorter hfull hlines)).symm
  | case2 input ks buf n hn r ih =>
      have hb : nul ∉ buf ++ input.take n := fun h => hnul (by
        rw [← List.take_append_drop n input, ← List.append_assoc]
        exact List.mem_append_left _ h)
      obtain ⟨hrest, hsplit, hout⟩ := scanLines_spec pattern (buf ++ input.take n) hb
      have hall : buf ++ input = (buf ++ input.take n) ++ input.drop n := by
        rw [List.append_assoc, List.take_append_drop]
      have hshort : LinesShorter 1023 0 ((buf ++ input.take n) ++ input.drop n) := by
        rw [← hall, linesShorter_append hbuf, Nat.zero_add]
        exact hlines
      have hnul' : nul ∉ r.2 ++ input.drop n := by
        intro h
        apply hnul
        rw [hall]
        rcases hsplit with h' | ⟨l, h'⟩
        · rw [h']
          exact h
        · rw [h', List.append_assoc, List.cons_append]
          exact List.mem_append_right _ (List.mem_cons_of_mem _ h)
      have hshort' : LinesShorter 1023 r.2.length (input.drop n) := by
        rw [← Nat.zero_add r.2.length, ← linesShorter_append hrest]
        rcases hsplit with h' | ⟨l, h'⟩
        · rw [← h']
          exact hshort
        · rw [h', List.append_assoc, List.cons_append] at hshort
          exact linesShorter_after_newline hshort
      have hstep : grepLoop pattern input ks buf = r.1 ++ grepLoop pattern (input.drop n) ks.tail r.2 := by
        rw [grepLoop, dif_neg hn]
      have hrun : grepLoop pattern (input.drop n) ks.tail (scanLines pattern (buf ++ input.take n)).2 =
          matchingLines pattern (scanLines pattern (buf ++ input.take n)).2 (input.drop n) :=
        ih hnul' hrest hshort'
      rw [hstep, hrun, hout, ← hall, matchingLines_append hbuf, List.nil_append]

theorem grep_prints_matching_lines (pattern input : List Char) (ks : List Nat)
    (hnul : nul ∉ input) (hlines : LinesShorter 1023 0 input) :
    grep pattern input ks = matchingLines pattern [] input :=
  grepLoop_eq pattern input ks [] (by simpa using hnul) List.not_mem_nil hlines

theorem match_single_iff {c : Char} (hc : c ≠ '^') (hd : c ≠ '.') (hs : c ≠ '$') (text : List Char) :
    match' [c] text = true ↔ c ∈ text := by
  have hmatch : match' [c] text = matchFrom [c] text := by
    rw [match'.eq_2]
    intro re h
    exact hc (List.cons.inj h).1
  have hhere : ∀ rest, matchhere [c] rest = true ↔ ∃ rest', rest = c :: rest' := by
    intro rest
    cases rest with
    | nil => simp [matchhere.eq_5 c [] (fun _ h => nomatch h) (fun h => absurd h hs)]
    | cons t rest =>
        rw [matchhere.eq_4 c [] t rest (fun _ h => nomatch h) (fun h => absurd h hs),
          matchhere.eq_1]
        simp only [Bool.and_true, Bool.or_eq_true, beq_iff_eq, hd, false_or, List.cons.injEq,
          exists_and_left, exists_eq', and_true]
        exact eq_comm
  rw [hmatch, matchFrom_iff]
  simp only [hhere]
  constructor
  · rintro ⟨pre, _, rfl, rest', rfl⟩
    simp
  · intro h
    obtain ⟨pre, rest', rfl⟩ := List.append_of_mem h
    exact ⟨pre, c :: rest', rfl, rest', rfl⟩

/-- A line of 1023 'a's, then the line "b". -/
def longLineDemo : List Char := List.replicate 1023 'a' ++ ['\n', 'b', '\n']

theorem grep_prints_matching_lines_fails :
    matchingLines ['b'] [] longLineDemo = ['b', '\n'] ∧ grep ['b'] longLineDemo [] = [] := by
  have hnl : '\n' ∉ List.replicate 1023 'a' := fun h => absurd (List.eq_of_mem_replicate h) (by decide)
  have hb : match' ['b'] (List.replicate 1023 'a') = false := by
    rw [Bool.eq_false_iff, Ne, match_single_iff (by decide) (by decide) (by decide)]
    exact fun h => absurd (List.eq_of_mem_replicate h) (by decide)
  constructor
  · rw [longLineDemo, matchingLines_append hnl, List.nil_append, matchingLines, if_pos rfl, hb]
    rfl
  · have hlen : longLineDemo.length = 1026 := by
      rw [longLineDemo, List.length_append, List.length_replicate]
      rfl
    have htake : longLineDemo.take 1023 = List.replicate 1023 'a' := by
      rw [longLineDemo, List.take_left' List.length_replicate]
    have hread : readSize (1024 - ([] : List Char).length - 1) longLineDemo.length
        (([] : List Nat).headD (1024 - ([] : List Char).length - 1)) = 1023 := by
      rw [hlen]
      rfl
    rw [grep, grepLoop, dif_neg (by rw [hread]; decide)]
    simp only [hread]
    rw [htake, List.nil_append, scanLines_of_not_mem hnl, List.nil_append,
      grepLoop_full (Nat.le_of_eq List.length_replicate.symm)]

end Xv6Mlfq.Grep
