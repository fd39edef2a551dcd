import Mathlib.Data.List.GetD
import Mathlib.Tactic.SplitIfs

/-!
The shell's command-line parser (user/sh.c): gettoken and peek, the
recursive descent of parseline, parsepipe, parseexec, parseblock and
parseredirs, parsecmd with its leftovers check, and nulterminate.

The line is `buf`, the characters before its NUL: a pointer into it is an
index, `es` is `buf.length`, and `*s` at or past `es` is the NUL.  A `panic`
is an `Except.error` carrying its message.  The four mutually recursive
parsers are bounded by `fuel`, of which parsecmd gives them enough; their
loops are recursions on the characters left.

The token stream `lex` is gettoken applied until it returns 0; what the
parsers do is read off it through `gettoken_of_lex` and `peek_fst`.
-/

namespace Xv6Mlfq.Sh

/-- The NUL that ends a C string. -/
def nul : Char := '\x00'

/-- `*s`: the character at `s`, the NUL at `es` and past it. -/
def charAt (buf : List Char) (s : Nat) : Char := buf.getD s nul

/-- `whitespace[]`. -/
def whitespace : List Char := [' ', '\t', '\r', '\n', '\x0B']

/-- `symbols[]`. -/
def symbols : List Char := ['<', '|', '>', '&', ';', '(', ')']

/-- `MAXARGS`. -/
def maxargs : Nat := 10

/-- The open flags of kernel/fcntl.h. -/
def oRdonly : Nat := 0x000
def oWronly : Nat := 0x001
def oCreate : Nat := 0x200
def oTrunc : Nat := 0x400

theorem charAt_of_le {buf : List Char} {s : Nat} (h : buf.length ≤ s) : charAt buf s = nul :=
  List.getD_eq_default _ _ h

theorem lt_of_charAt_ne {buf : List Char} {s : Nat} (h : charAt buf s ≠ nul) : s < buf.length :=
  Nat.lt_of_not_le fun hs => h (charAt_of_le hs)

theorem charAt_ne_nul {buf : List Char} (hbuf : nul ∉ buf) {s : Nat} (h : s < buf.length) :
    charAt buf s ≠ nul := by
  rw [charAt, List.getD_eq_getElem _ _ h]
  exact fun he => hbuf (he ▸ List.getElem_mem h)

/-! ## The loops of gettoken and peek -/

/-- `while(s < es && p(*s)) s++`. -/
def skipWhile (p : Char → Bool) (buf : List Char) (s : Nat) : Nat :=
  if s < buf.length ∧ p (charAt buf s) then skipWhile p buf (s + 1) else s
termination_by buf.length - s

/-- `while(s < es && strchr(whitespace, *s)) s++`. -/
def skipWhitespace (buf : List Char) (s : Nat) : Nat :=
  skipWhile (fun c => decide (c ∈ whitespace)) buf s

/-- gettoken's loop over a word: `while(s < es && !strchr(whitespace, *s)
&& !strchr(symbols, *s)) s++`. -/
def skipWord (buf : List Char) (s : Nat) : Nat :=
  skipWhile (fun c => decide (c ∉ whitespace ∧ c ∉ symbols)) buf s

section SkipWhile

variable (p : Char → Bool) (buf : List Char)

theorem skipWhile_of_not {s : Nat} (h : ¬(s < buf.length ∧ p (charAt buf s))) :
    skipWhile p buf s = s := by
  rw [skipWhile, if_neg h]

theorem le_skipWhile (s : Nat) : s ≤ skipWhile p buf s := by
  induction s using skipWhile.induct p buf with
  | case1 s h ih =>
    rw [skipWhile, if_pos h]
    omega
  | case2 s h => exact Nat.le_of_eq (skipWhile_of_not p buf h).symm

theorem skipWhile_le (s : Nat) : skipWhile p buf s ≤ max s buf.length := by
  induction s using skipWhile.induct p buf with
  | case1 s h ih =>
    rw [skipWhile, if_pos h]
    omega
  | case2 s h =>
    rw [skipWhile_of_not p buf h]
    omega

theorem skipWhile_stop (s : Nat) :
    ¬(skipWhile p buf s < buf.length ∧ p (charAt buf (skipWhile p buf s))) := by
  induction s using skipWhile.induct p buf with
  | case1 s h ih =>
    rw [skipWhile, if_pos h]
    exact ih
  | case2 s h =>
    rw [skipWhile_of_not p buf h]
    exact h

theorem skipWhile_sat (s : Nat) :
    ∀ i, s ≤ i → i < skipWhile p buf s → i < buf.length ∧ p (charAt buf i) := by
  induction s using skipWhile.induct p buf with
  | case1 s h ih =>
    intro i hsi hi
    rw [skipWhile, if_pos h] at hi
    rcases Nat.eq_or_lt_of_le hsi with rfl | hlt
    · exact h
    · exact ih i hlt hi
  | case2 s h =>
    intro i hsi hi
    rw [skipWhile_of_not p buf h] at hi
    omega

theorem skipWhile_skipWhile (s : Nat) :
    skipWhile p buf (skipWhile p buf s) = skipWhile p buf s :=
  skipWhile_of_not p buf (skipWhile_stop p buf s)

theorem lt_skipWhile {s : Nat} (h : s < buf.length ∧ p (charAt buf s)) :
    s < skipWhile p buf s := by
  rw [skipWhile, if_pos h]
  exact Nat.lt_of_lt_of_le (Nat.lt_succ_self s) (le_skipWhile p buf (s + 1))

end SkipWhile

/-! ## gettoken and peek -/

/-- What gettoken gives back: its value, `*q`, `*eq` and the new `*ps`. -/
structure Gettoken where
  ret : Char
  q : Nat
  eq : Nat
  ps : Nat

/-- gettoken's switch on the token at `s`: the value it returns ('a' for a
word, '+' for ">>", 0 at the end) and where the token ends. -/
def scanToken (buf : List Char) (s : Nat) : Char × Nat :=
  let c := charAt buf s
  if c = nul then (nul, s)
  else if c ∈ ['|', '(', ')', ';', '&', '<'] then (c, s + 1)
  else if c = '>' then
    if charAt buf (s + 1) = '>' then ('+', s + 2) else ('>', s + 1)
  else ('a', skipWord buf s)

/-- gettoken (sh.c). -/
def gettoken (buf : List Char) (ps : Nat) : Gettoken :=
  let s := skipWhitespace buf ps
  let t := scanToken buf s
  ⟨t.1, s, t.2, skipWhitespace buf t.2⟩

/-- peek (sh.c): whether the next token starts with one of `toks`, and `*ps`
moved past the whitespace. -/
def peek (buf : List Char) (ps : Nat) (toks : List Char) : Bool × Nat :=
  let s := skipWhitespace buf ps
  (decide (charAt buf s ≠ nul ∧ charAt buf s ∈ toks), s)

/-- The character a token that gettoken returns `r` for starts with: '>'
for ">>", the operator itself otherwise. -/
def lead (r : Char) : Char := if r = '+' then '>' else r

section Gettoken

variable {buf : List Char}

theorem scanToken_cases (buf : List Char) (s : Nat) :
    (charAt buf s = nul ∧ scanToken buf s = (nul, s)) ∨
    (charAt buf s ∈ ['|', '(', ')', ';', '&', '<'] ∧ scanToken buf s = (charAt buf s, s + 1)) ∨
    (charAt buf s = '>' ∧ charAt buf (s + 1) = '>' ∧ scanToken buf s = ('+', s + 2)) ∨
    (charAt buf s = '>' ∧ charAt buf (s + 1) ≠ '>' ∧ scanToken buf s = ('>', s + 1)) ∨
    (charAt buf s ≠ nul ∧ charAt buf s ∉ symbols ∧ scanToken buf s = ('a', skipWord buf s)) := by
  by_cases h0 : charAt buf s = nul
  · exact .inl ⟨h0, by simp only [scanToken]; rw [if_pos h0]⟩
  by_cases h1 : charAt buf s ∈ ['|', '(', ')', ';', '&', '<']
  · exact .inr (.inl ⟨h1, by simp only [scanToken]; rw [if_neg h0, if_pos h1]⟩)
  by_cases h2 : charAt buf s = '>'
  · by_cases h3 : charAt buf (s + 1) = '>'
    · refine .inr (.inr (.inl ⟨h2, h3, ?_⟩))
      simp only [scanToken]
      rw [if_neg h0, if_neg h1, if_pos h2, if_pos h3]
    · refine .inr (.inr (.inr (.inl ⟨h2, h3, ?_⟩)))
      simp only [scanToken]
      rw [if_neg h0, if_neg h1, if_pos h2, if_neg h3]
  · refine .inr (.inr (.inr (.inr ⟨h0, ?_, ?_⟩)))
    · simp only [symbols, List.mem_cons, List.not_mem_nil] at h1 ⊢
      grind
    · simp only [scanToken]
      rw [if_neg h0, if_neg h1, if_neg h2]

theorem scanToken_fst_eq_nul {s : Nat} : (scanToken buf s).1 = nul ↔ charAt buf s = nul := by
  rcases scanToken_cases buf s with ⟨h, e⟩ | ⟨h, e⟩ | ⟨h, -, e⟩ | ⟨h, -, e⟩ | ⟨h, -, e⟩ <;>
    rw [e] <;> simp_all [nul]

theorem le_scanToken (s : Nat) : s ≤ (scanToken buf s).2 := by
  rcases scanToken_cases buf s with ⟨-, e⟩ | ⟨-, e⟩ | ⟨-, -, e⟩ | ⟨-, -, e⟩ | ⟨-, -, e⟩
  all_goals have he := congrArg Prod.snd e
  all_goals simp only at he
  any_goals omega
  calc s ≤ skipWord buf s := le_skipWhile _ buf s
    _ = (scanToken buf s).2 := he.symm

theorem scanToken_le (s : Nat) : (scanToken buf s).2 ≤ max s buf.length := by
  rcases scanToken_cases buf s with ⟨-, e⟩ | ⟨h, e⟩ | ⟨-, h, e⟩ | ⟨h, -, e⟩ | ⟨-, -, e⟩ <;>
    rw [e]
  · exact Nat.le_max_left s _
  · have := lt_of_charAt_ne (by grind [nul] : charAt buf s ≠ nul)
    simp only
    omega
  · have := lt_of_charAt_ne (h ▸ (by decide : '>' ≠ nul))
    simp only
    omega
  · have := lt_of_charAt_ne (h ▸ (by decide : '>' ≠ nul))
    simp only
    omega
  · exact skipWhile_le _ _ _

theorem scanToken_lead {s : Nat} (h0 : (scanToken buf s).1 ≠ nul) (ha : (scanToken buf s).1 ≠ 'a') :
    charAt buf s = lead (scanToken buf s).1 ∧ charAt buf s ∈ symbols := by
  rcases scanToken_cases buf s with ⟨-, e⟩ | ⟨h, e⟩ | ⟨h, -, e⟩ | ⟨h, -, e⟩ | ⟨-, -, e⟩
  all_goals rw [e] at h0 ha ⊢
  · exact absurd rfl h0
  · have hp : charAt buf s ≠ '+' := by grind
    refine ⟨(if_neg hp).symm, ?_⟩
    simp only [symbols, List.mem_cons, List.not_mem_nil] at h ⊢
    grind
  · simp [lead, symbols, h]
  · simp [lead, symbols, h]
  · exact absurd rfl ha

theorem scanToken_word {s : Nat} (ha : (scanToken buf s).1 = 'a') :
    charAt buf s ≠ nul ∧ charAt buf s ∉ symbols ∧ (scanToken buf s).2 = skipWord buf s := by
  rcases scanToken_cases buf s with ⟨-, e⟩ | ⟨h, e⟩ | ⟨-, -, e⟩ | ⟨-, -, e⟩ | ⟨h0, hs, e⟩ <;>
    rw [e] at ha ⊢ <;> simp_all [nul]

theorem lt_scanToken {s : Nat} (h0 : charAt buf s ≠ nul) (hw : charAt buf s ∉ whitespace) :
    s < (scanToken buf s).2 := by
  rcases scanToken_cases buf s with ⟨h, -⟩ | ⟨-, e⟩ | ⟨-, -, e⟩ | ⟨-, -, e⟩ | ⟨-, hs, e⟩
  · exact absurd h h0
  all_goals rw [e]
  · simp
  · simp
  · simp
  · apply lt_skipWhile
    refine ⟨lt_of_charAt_ne h0, ?_⟩
    simp only [decide_eq_true_eq]
    exact ⟨hw, hs⟩

theorem gettoken_skip (ps : Nat) : gettoken buf (skipWhitespace buf ps) = gettoken buf ps := by
  simp only [gettoken, skipWhitespace, skipWhile_skipWhile]

theorem le_gettoken_ps (ps : Nat) : ps ≤ (gettoken buf ps).ps :=
  calc ps ≤ skipWhitespace buf ps := le_skipWhile _ _ _
    _ ≤ (scanToken buf (skipWhitespace buf ps)).2 := le_scanToken _
    _ ≤ (gettoken buf ps).ps := le_skipWhile _ _ _

theorem gettoken_ps_le (ps : Nat) : (gettoken buf ps).ps ≤ max ps buf.length := by
  have h1 := skipWhile_le (fun c => decide (c ∈ whitespace)) buf ps
  have h2 : (scanToken buf (skipWhitespace buf ps)).2 ≤ max (skipWhitespace buf ps) buf.length :=
    scanToken_le _
  have h3 := skipWhile_le (fun c => decide (c ∈ whitespace)) buf (scanToken buf (skipWhitespace buf ps)).2
  simp only [gettoken, skipWhitespace] at *
  omega

theorem gettoken_progress {ps : Nat} (h : (gettoken buf ps).ret ≠ nul) :
    ps < (gettoken buf ps).ps ∧ ps < buf.length := by
  have h0 : charAt buf (skipWhitespace buf ps) ≠ nul := fun h' => h (scanToken_fst_eq_nul.mpr h')
  have hlt := lt_of_charAt_ne h0
  have hw : charAt buf (skipWhitespace buf ps) ∉ whitespace := by
    have := skipWhile_stop (fun c => decide (c ∈ whitespace)) buf ps
    simp only [decide_eq_true_eq] at this
    exact fun hw => this ⟨hlt, hw⟩
  have h1 := le_skipWhile (fun c => decide (c ∈ whitespace)) buf ps
  have h2 := lt_scanToken h0 hw
  have h3 := le_skipWhile (fun c => decide (c ∈ whitespace)) buf (scanToken buf (skipWhitespace buf ps)).2
  simp only [gettoken, skipWhitespace] at *
  omega

end Gettoken

/-! ## The token stream -/

/-- A token of the line: a word from `q` to `eq`, or an operator by the value
gettoken returns for it. -/
inductive Tok
  | word (q eq : Nat)
  | op (c : Char)
  deriving DecidableEq, Repr

/-- The token gettoken has read. -/
def Gettoken.tok (t : Gettoken) : Tok := if t.ret = 'a' then .word t.q t.eq else .op t.ret

/-- The tokens from `s` on: gettoken until it returns 0. -/
def lex (buf : List Char) (s : Nat) : List Tok :=
  if _h : (gettoken buf s).ret = nul then []
  else (gettoken buf s).tok :: lex buf (gettoken buf s).ps
termination_by buf.length - s
decreasing_by
  have := gettoken_progress _h
  omega

/-- What peek answers when the tokens left are `ts`. -/
def peekTok (toks : List Char) : List Tok → Bool
  | .op c :: _ => decide (lead c ∈ toks)
  | _ => false

section Lex

variable {buf : List Char}

theorem lex_of_ret_eq {ps : Nat} (h : (gettoken buf ps).ret = nul) : lex buf ps = [] := by
  rw [lex, dif_pos h]

theorem lex_of_ret_ne {ps : Nat} (h : (gettoken buf ps).ret ≠ nul) :
    lex buf ps = (gettoken buf ps).tok :: lex buf (gettoken buf ps).ps := by
  rw [lex, dif_neg h]

theorem gettoken_of_lex {ps : Nat} {t : Tok} {rest : List Tok} (h : lex buf ps = t :: rest) :
    (gettoken buf ps).ret ≠ nul ∧ (gettoken buf ps).tok = t ∧ lex buf (gettoken buf ps).ps = rest := by
  by_cases h0 : (gettoken buf ps).ret = nul
  · rw [lex_of_ret_eq h0] at h
    cases h
  · rw [lex_of_ret_ne h0, List.cons.injEq] at h
    exact ⟨h0, h⟩

theorem gettoken_of_lex_nil {ps : Nat} (h : lex buf ps = []) : (gettoken buf ps).ret = nul :=
  Decidable.byContradiction fun h0 => by
    rw [lex_of_ret_ne h0] at h
    cases h

theorem lex_skip (ps : Nat) : lex buf (skipWhitespace buf ps) = lex buf ps := by
  rw [lex.eq_1 buf (skipWhitespace buf ps), lex.eq_1 buf ps, gettoken_skip]

theorem length_lex_le (s : Nat) : (lex buf s).length ≤ buf.length - s := by
  induction s using lex.induct buf with
  | case1 s h => rw [lex_of_ret_eq h]; simp
  | case2 s h ih =>
    have := gettoken_progress h
    rw [lex_of_ret_ne h, List.length_cons]
    omega

theorem Gettoken.tok_eq_word {t : Gettoken} {q e : Nat} :
    t.tok = .word q e ↔ t.ret = 'a' ∧ t.q = q ∧ t.eq = e := by
  unfold Gettoken.tok
  split_ifs with h <;> simp [h]

theorem Gettoken.tok_eq_op {t : Gettoken} {c : Char} : t.tok = .op c ↔ t.ret ≠ 'a' ∧ t.ret = c := by
  unfold Gettoken.tok
  split_ifs with h <;> simp [h]

/-- peek, read off the tokens: for a set of operator characters it answers
whether the next token is an operator starting with one of them. -/
theorem peek_fst {toks : List Char} (htoks : ∀ c ∈ toks, c ∈ symbols) (ps : Nat) :
    (peek buf ps toks).1 = peekTok toks (lex buf ps) := by
  have hret : (gettoken buf ps).ret = (scanToken buf (skipWhitespace buf ps)).1 := rfl
  by_cases h0 : (gettoken buf ps).ret = nul
  · rw [lex_of_ret_eq h0]
    have hc := scanToken_fst_eq_nul.mp (hret ▸ h0)
    simp [peek, hc, peekTok]
  rw [lex_of_ret_ne h0]
  by_cases ha : (gettoken buf ps).ret = 'a'
  · obtain ⟨-, hs, -⟩ := scanToken_word (hret ▸ ha)
    have htok : (gettoken buf ps).tok = .word (gettoken buf ps).q (gettoken buf ps).eq :=
      Gettoken.tok_eq_word.mpr ⟨ha, rfl, rfl⟩
    rw [htok]
    simp only [peek, peekTok, decide_eq_false_iff_not, not_and]
    exact fun _ ht => hs (htoks _ ht)
  · obtain ⟨hc, -⟩ := scanToken_lead (hret ▸ h0) (hret ▸ ha)
    have htok : (gettoken buf ps).tok = .op (gettoken buf ps).ret := Gettoken.tok_eq_op.mpr ⟨ha, rfl⟩
    rw [htok]
    simp only [peek, peekTok, hc, ← hret]
    have : lead (gettoken buf ps).ret ≠ nul := by
      unfold lead
      split_ifs with h
      · decide
      · exact h0
    simp [this]

theorem peek_snd (ps : Nat) (toks : List Char) : (peek buf ps toks).2 = skipWhitespace buf ps := rfl

theorem le_of_peek {ps s : Nat} {toks : List Char} {b : Bool} (h : peek buf ps toks = (b, s)) :
    ps ≤ s := by
  have : (peek buf ps toks).2 = s := by rw [h]
  rw [← this]
  exact le_skipWhile _ _ _

theorem peek_progress {ps s : Nat} {toks : List Char} (h : peek buf ps toks = (true, s)) :
    ps < (gettoken buf s).ps ∧ ps < buf.length := by
  simp only [peek, Prod.mk.injEq, decide_eq_true_eq] at h
  obtain ⟨⟨hc, -⟩, rfl⟩ := h
  rw [gettoken_skip]
  exact gettoken_progress fun h0 => hc (scanToken_fst_eq_nul.mp h0)

/-- A word token is a non-empty run of characters outside `whitespace` and
`symbols`, ended by one of them or by the end of the line. -/
theorem mem_lex_word {s q e : Nat} (h : Tok.word q e ∈ lex buf s) :
    q < e ∧ (∀ i, q ≤ i → i < e → i < buf.length ∧ charAt buf i ∉ whitespace ∧ charAt buf i ∉ symbols) ∧
      (buf.length ≤ e ∨ charAt buf e ∈ whitespace ∨ charAt buf e ∈ symbols) := by
  induction s using lex.induct buf with
  | case1 s h0 =>
    rw [lex_of_ret_eq h0] at h
    cases h
  | case2 s h0 ih =>
    rw [lex_of_ret_ne h0, List.mem_cons] at h
    rcases h with h | h
    · obtain ⟨ha, rfl, rfl⟩ := Gettoken.tok_eq_word.mp h.symm
      obtain ⟨hn, -, he⟩ := scanToken_word ha
      have hlt := lt_of_charAt_ne hn
      have hw : charAt buf (skipWhitespace buf s) ∉ whitespace := by
        have := skipWhile_stop (fun c => decide (c ∈ whitespace)) buf s
        simp only [decide_eq_true_eq] at this
        exact fun hw => this ⟨hlt, hw⟩
      have hs := scanToken_word ha
      simp only [gettoken]
      rw [he]
      refine ⟨?_, ?_, ?_⟩
      · apply lt_skipWhile
        simp only [decide_eq_true_eq]
        exact ⟨hlt, hw, hs.2.1⟩
      · intro i hqi hie
        simpa only [decide_eq_true_eq] using skipWhile_sat _ buf _ i hqi hie
      · have := skipWhile_stop (fun c => decide (c ∉ whitespace ∧ c ∉ symbols)) buf
          (skipWhitespace buf s)
        simp only [decide_eq_true_eq, not_and, not_not] at this
        unfold skipWord
        by_cases hl : buf.length ≤ skipWhile (fun c => decide (c ∉ whitespace ∧ c ∉ symbols)) buf
          (skipWhitespace buf s)
        · exact .inl hl
        · by_cases hw2 : charAt buf (skipWhile (fun c => decide (c ∉ whitespace ∧ c ∉ symbols)) buf
            (skipWhitespace buf s)) ∈ whitespace
          · exact .inr (.inl hw2)
          · exact .inr (.inr (this (by omega) hw2))
    · exact ih h

end Lex

/-! ## The parser -/

/-- struct cmd: EXEC with each word's `argv[i]` and `eargv[i]`, REDIR, PIPE,
LIST and BACK. -/
inductive Cmd
  | exec (argv : List (Nat × Nat))
  | redir (cmd : Cmd) (file efile mode fd : Nat)
  | pipe (left right : Cmd)
  | list (left right : Cmd)
  | back (cmd : Cmd)
  deriving DecidableEq, Repr

/-- parseredirs' switch: the redircmd around `cmd` for the token `tok`, with
the file from `q` to `eq`. -/
def redirect (cmd : Cmd) (tok : Char) (q eq : Nat) : Cmd :=
  if tok = '<' then .redir cmd q eq oRdonly 0
  else if tok = '>' then .redir cmd q eq (oWronly ||| oCreate ||| oTrunc) 1
  else if tok = '+' then .redir cmd q eq (oWronly ||| oCreate) 1
  else cmd

/-- parseredirs (sh.c). -/
def parseredirs (buf : List Char) (cmd : Cmd) (ps : Nat) : Except String (Cmd × Nat) :=
  match _hp : peek buf ps ['<', '>'] with
  | (false, s) => .ok (cmd, s)
  | (true, s) =>
    let tok := gettoken buf s
    let file := gettoken buf tok.ps
    if file.ret ≠ 'a' then .error "missing file for redirection"
    else parseredirs buf (redirect cmd tok.ret file.q file.eq) file.ps
termination_by buf.length - ps
decreasing_by
  have h1 := peek_progress _hp
  have h2 : (gettoken buf s).ps ≤ (gettoken buf (gettoken buf s).ps).ps := le_gettoken_ps _
  omega

theorem parseredirs_le {buf : List Char} {cmd c : Cmd} {ps s : Nat}
    (h : parseredirs buf cmd ps = .ok (c, s)) : ps ≤ s := by
  revert h
  fun_induction parseredirs buf cmd ps with
  | case1 cmd ps s hp =>
    intro h
    cases h
    exact le_of_peek hp
  | case2 => intro h; cases h
  | case3 cmd ps s hp tok file hf ih =>
    intro h
    have h1 := peek_progress hp
    have h2 : (gettoken buf s).ps ≤ file.ps := le_gettoken_ps _
    have h3 := ih h
    omega

section Branches

variable {buf : List Char} {ps s : Nat}

/-! What each loop does on peek's answer, so that the proofs about it never
unfold it. -/

theorem parseredirs_of_peek_false {cmd : Cmd} (hp : peek buf ps ['<', '>'] = (false, s)) :
    parseredirs buf cmd ps = .ok (cmd, s) := by
  rw [parseredirs]
  split <;> rename_i s2 hp2 <;> rw [hp] at hp2 <;> cases hp2
  rfl

theorem parseredirs_of_peek_true {cmd : Cmd} (hp : peek buf ps ['<', '>'] = (true, s)) :
    parseredirs buf cmd ps =
      if (gettoken buf (gettoken buf s).ps).ret ≠ 'a' then .error "missing file for redirection"
      else parseredirs buf (redirect cmd (gettoken buf s).ret (gettoken buf (gettoken buf s).ps).q
        (gettoken buf (gettoken buf s).ps).eq) (gettoken buf (gettoken buf s).ps).ps := by
  rw [parseredirs]
  split <;> rename_i s2 hp2 <;> rw [hp] at hp2 <;> cases hp2
  rfl

end Branches

/-- parseexec's loop from `ps`, with the words `argv` read so far and `ret`
the command built so far: a word and the redirections after it, until one of
"|)&;" or the end of the line. -/
def execLoop (buf : List Char) (argv : List (Nat × Nat)) (ret : Cmd) (ps : Nat) :
    Except String (List (Nat × Nat) × Cmd × Nat) :=
  match _hp : peek buf ps ['|', ')', '&', ';'] with
  | (true, s) => .ok (argv, ret, s)
  | (false, s) =>
    let tok := gettoken buf s
    if _hn : tok.ret = nul then .ok (argv, ret, tok.ps)
    else if tok.ret ≠ 'a' then .error "syntax"
    else if argv.length + 1 ≥ maxargs then .error "too many args"
    else
      match _hr : parseredirs buf ret tok.ps with
      | .error e => .error e
      | .ok (cmd, s2) => execLoop buf (argv ++ [(tok.q, tok.eq)]) cmd s2
termination_by buf.length - ps
decreasing_by
  have h1 : ps ≤ s := le_of_peek _hp
  have h2 : s < (gettoken buf s).ps ∧ s < buf.length := gettoken_progress _hn
  have h3 : (gettoken buf s).ps ≤ s2 := parseredirs_le _hr
  omega

section Branches

variable {buf : List Char} {argv : List (Nat × Nat)} {ret : Cmd} {ps s : Nat}

theorem execLoop_of_peek_true (hp : peek buf ps ['|', ')', '&', ';'] = (true, s)) :
    execLoop buf argv ret ps = .ok (argv, ret, s) := by
  rw [execLoop]
  split <;> rename_i s2 hp2 <;> rw [hp] at hp2 <;> cases hp2
  rfl

theorem execLoop_of_nul (hp : peek buf ps ['|', ')', '&', ';'] = (false, s))
    (hn : (gettoken buf s).ret = nul) : execLoop buf argv ret ps = .ok (argv, ret, (gettoken buf s).ps) := by
  rw [execLoop]
  split <;> rename_i s2 hp2 <;> rw [hp] at hp2 <;> cases hp2
  exact dif_pos hn

theorem execLoop_of_word {cmd : Cmd} {s2 : Nat} (hp : peek buf ps ['|', ')', '&', ';'] = (false, s))
    (ha : (gettoken buf s).ret = 'a') (hlen : argv.length + 1 < maxargs)
    (hr : parseredirs buf ret (gettoken buf s).ps = .ok (cmd, s2)) :
    execLoop buf argv ret ps = execLoop buf (argv ++ [((gettoken buf s).q, (gettoken buf s).eq)]) cmd s2 := by
  rw [execLoop]
  split <;> rename_i s3 hp2 <;> rw [hp] at hp2 <;> cases hp2
  rw [dif_neg (by rw [ha]; decide), if_neg (by rw [ha]; simp), if_neg (by omega)]
  split
  · rename_i err hr2
    rw [hr] at hr2
    cases hr2
  · rename_i cmd2 s4 hr2
    rw [hr] at hr2
    cases hr2
    rfl

end Branches

/-- parseline's loop: a backcmd around `cmd` for each '&'. -/
def backLoop (buf : List Char) (cmd : Cmd) (ps : Nat) : Cmd × Nat :=
  match _hp : peek buf ps ['&'] with
  | (true, s) => backLoop buf (.back cmd) (gettoken buf s).ps
  | (false, s) => (cmd, s)
termination_by buf.length - ps
decreasing_by
  have := peek_progress _hp
  omega

theorem backLoop_of_peek_true {buf : List Char} {cmd : Cmd} {ps s : Nat} (hp : peek buf ps ['&'] = (true, s)) :
    backLoop buf cmd ps = backLoop buf (.back cmd) (gettoken buf s).ps := by
  rw [backLoop]
  split <;> rename_i s2 hp2 <;> rw [hp] at hp2 <;> cases hp2
  rfl

theorem backLoop_of_peek_false {buf : List Char} {cmd : Cmd} {ps s : Nat} (hp : peek buf ps ['&'] = (false, s)) :
    backLoop buf cmd ps = (cmd, s) := by
  rw [backLoop]
  split <;> rename_i s2 hp2 <;> rw [hp] at hp2 <;> cases hp2
  rfl

/-- `cmd->argv` filled in at the end of parseexec: the execcmd that its
redirections were built around. -/
def setArgv (argv : List (Nat × Nat)) : Cmd → Cmd
  | .exec _ => .exec argv
  | .redir cmd file efile mode fd => .redir (setArgv argv cmd) file efile mode fd
  | cmd => cmd

mutual

/-- parseline (sh.c). -/
def parseline (buf : List Char) : (fuel ps : Nat) → Except String (Cmd × Nat)
  | 0, _ => .error "out of fuel"
  | fuel + 1, ps => do
    let (cmd, s) ← parsepipe buf fuel ps
    let (cmd, s) := backLoop buf cmd s
    match peek buf s [';'] with
    | (true, s) =>
      let (right, s) ← parseline buf fuel (gettoken buf s).ps
      return (.list cmd right, s)
    | (false, s) => return (cmd, s)

/-- parsepipe (sh.c). -/
def parsepipe (buf : List Char) : (fuel ps : Nat) → Except String (Cmd × Nat)
  | 0, _ => .error "out of fuel"
  | fuel + 1, ps => do
    let (cmd, s) ← parseexec buf fuel ps
    match peek buf s ['|'] with
    | (true, s) =>
      let (right, s) ← parsepipe buf fuel (gettoken buf s).ps
      return (.pipe cmd right, s)
    | (false, s) => return (cmd, s)

/-- parseblock (sh.c). -/
def parseblock (buf : List Char) : (fuel ps : Nat) → Except String (Cmd × Nat)
  | 0, _ => .error "out of fuel"
  | fuel + 1, ps =>
    match peek buf ps ['('] with
    | (false, _) => .error "parseblock"
    | (true, s) => do
      let (cmd, s) ← parseline buf fuel (gettoken buf s).ps
      match peek buf s [')'] with
      | (false, _) => .error "syntax - missing )"
      | (true, s) => parseredirs buf cmd (gettoken buf s).ps

/-- parseexec (sh.c). -/
def parseexec (buf : List Char) : (fuel ps : Nat) → Except String (Cmd × Nat)
  | 0, _ => .error "out of fuel"
  | fuel + 1, ps =>
    match peek buf ps ['('] with
    | (true, s) => parseblock buf fuel s
    | (false, s) => do
      let (ret, s) ← parseredirs buf (.exec []) s
      let (argv, ret, s) ← execLoop buf [] ret s
      return (setArgv argv ret, s)

end

/-- nulterminate (sh.c): a NUL written at the end of every word of `cmd`. -/
def nulterminate : Cmd → List Char → List Char
  | .exec argv, buf => argv.foldl (fun b w => b.set w.2 nul) buf
  | .redir cmd _ efile _ _, buf => (nulterminate cmd buf).set efile nul
  | .pipe left right, buf => nulterminate right (nulterminate left buf)
  | .list left right, buf => nulterminate right (nulterminate left buf)
  | .back cmd, buf => nulterminate cmd buf

/-- parsecmd (sh.c): the command, and the line after nulterminate. -/
def parsecmd (buf : List Char) : Except String (Cmd × List Char) := do
  let (cmd, s) ← parseline buf (4 * buf.length + 4) 0
  if (peek buf s []).2 ≠ buf.length then .error "syntax"
  else return (cmd, nulterminate cmd buf)

/-- The C string at `q`: the characters before the first NUL. -/
def cstring (buf : List Char) (q : Nat) : List Char :=
  (buf.drop q).takeWhile fun c => c ≠ nul

/-- The words a command points to: its `(argv[i], eargv[i])` and its
redirections' `(file, efile)`. -/
def words : Cmd → List (Nat × Nat)
  | .exec argv => argv
  | .redir cmd file efile _ _ => words cmd ++ [(file, efile)]
  | .pipe left right => words left ++ words right
  | .list left right => words left ++ words right
  | .back cmd => words cmd

/-! ## nulterminate -/

theorem charAt_set_nul (buf : List Char) (j i : Nat) :
    charAt (buf.set j nul) i = if j = i then nul else charAt buf i := by
  simp only [charAt, List.getD_eq_getElem?_getD, List.getElem?_set]
  split_ifs <;> rfl

theorem charAt_foldl_set_nul (ws : List (Nat × Nat)) (buf : List Char) (i : Nat) :
    charAt (ws.foldl (fun b w => b.set w.2 nul) buf) i =
      if ∃ w ∈ ws, w.2 = i then nul else charAt buf i := by
  induction ws generalizing buf with
  | nil => simp
  | cons w ws ih =>
    rw [List.foldl_cons, ih, charAt_set_nul]
    by_cases h1 : ∃ v ∈ ws, v.2 = i
    · simp [h1]
    · by_cases h2 : w.2 = i <;> simp [h1, h2]

theorem nulterminate_eq (cmd : Cmd) (buf : List Char) :
    nulterminate cmd buf = (words cmd).foldl (fun b w => b.set w.2 nul) buf := by
  induction cmd generalizing buf with
  | exec argv => rfl
  | redir cmd file efile mode fd ih => simp [nulterminate, words, ih]
  | pipe left right ihl ihr => simp [nulterminate, words, ihl, ihr]
  | list left right ihl ihr => simp [nulterminate, words, ihl, ihr]
  | back cmd ih => simp [nulterminate, words, ih]

theorem cstring_of_eq {buf : List Char} {q : Nat} (h : charAt buf q = nul) : cstring buf q = [] := by
  unfold cstring
  by_cases hq : q < buf.length
  · rw [List.drop_eq_getElem_cons hq, List.takeWhile_cons]
    simp only [charAt, List.getD_eq_getElem _ _ hq] at h
    simp [h]
  · rw [List.drop_eq_nil_of_le (by omega)]
    rfl

theorem cstring_of_ne {buf : List Char} {q : Nat} (h : charAt buf q ≠ nul) :
    cstring buf q = charAt buf q :: cstring buf (q + 1) := by
  have hq := lt_of_charAt_ne h
  unfold cstring
  rw [List.drop_eq_getElem_cons hq, List.takeWhile_cons]
  simp only [charAt, List.getD_eq_getElem _ _ hq] at h ⊢
  simp [h]

theorem cstring_eq_text {buf b : List Char} {q e : Nat} (hq : q ≤ e) (he : e ≤ buf.length)
    (hqe : ∀ i, q ≤ i → i < e → charAt b i ≠ nul ∧ charAt b i = charAt buf i)
    (hnul : charAt b e = nul) : cstring b q = (buf.drop q).take (e - q) := by
  induction h : e - q generalizing q with
  | zero =>
    obtain rfl : e = q := by omega
    simp [cstring_of_eq hnul]
  | succ n ih =>
    obtain ⟨hne, hsame⟩ := hqe q (Nat.le_refl q) (by omega)
    have hq : q < buf.length := by omega
    rw [cstring_of_ne hne, ih (by omega) (fun i h1 h2 => hqe i (by omega) h2) (by omega),
      List.drop_eq_getElem_cons hq, List.take_succ_cons, hsame]
    simp only [charAt, List.getD_eq_getElem _ _ hq]

example : (parsecmd "ls | wc >> out &".toList).toOption =
    some (.back (.pipe (.exec [(0, 2)]) (.redir (.exec [(5, 7)]) 11 14 0x201 1)),
      "ls\x00| wc\x00>> out\x00&".toList) := by
  decide +kernel

end Xv6Mlfq.Sh
