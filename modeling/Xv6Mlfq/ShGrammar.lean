import Mathlib.Data.List.TakeWhile
import Xv6Mlfq.Sh

/-!
The grammar of the shell's command lines, and the parser of sh.c proved to
accept exactly it.

The grammar is over the tokens of the line (`tokens`): whitespace between
tokens is skipped, ">>" and each other symbol is a token, and a WORD is a
maximal non-empty run of characters outside whitespace and symbols.  A line
is

    line  := pipe '&'* (';' line)?
    pipe  := exec ('|' pipe)?
    exec  := '(' line ')' redirs | redirs (WORD redirs)*
    redirs := (('<' | '>' | '>>') WORD)*

with each derivation naming the command it builds.  gettoken, repeated,
reads exactly these tokens (`lex_eq_tokens`).  The parser is proved sound
(what it returns is derived from the tokens it read) by induction on its
fuel, and complete (a derivation followed by a token of the right follow set
is what it returns) by induction on the fuel and cases on the derivation;
the follow sets are the strings that sh.c peeks for.
-/

namespace Xv6Mlfq.Sh

/-- A redirection: the file from `file` to `efile`, the open mode and the fd. -/
structure Redir where
  file : Nat
  efile : Nat
  mode : Nat
  fd : Nat
  deriving DecidableEq, Repr

/-- `cmd` inside the redirections `rs`, the first innermost. -/
def wrap (cmd : Cmd) : List Redir → Cmd
  | [] => cmd
  | r :: rs => wrap (.redir cmd r.file r.efile r.mode r.fd) rs

/-- The redirection operators by the value gettoken returns for them ('+' is
">>"), with the mode and fd each opens its file with. -/
def redirOp : Char → Option (Nat × Nat)
  | '<' => some (oRdonly, 0)
  | '>' => some (oWronly ||| oCreate ||| oTrunc, 1)
  | '+' => some (oWronly ||| oCreate, 1)
  | _ => none

/-- `cmd` inside `k` BACKs. -/
def backs (cmd : Cmd) : Nat → Cmd
  | 0 => cmd
  | k + 1 => backs (.back cmd) k

/-- redirs := (('<' | '>' | '>>') WORD)* -/
inductive Redirs : List Tok → List Redir → Prop
  | nil : Redirs [] []
  | cons {c : Char} {q e mode fd : Nat} {ts : List Tok} {rs : List Redir} :
      redirOp c = some (mode, fd) → Redirs ts rs →
      Redirs (.op c :: .word q e :: ts) (⟨q, e, mode, fd⟩ :: rs)

/-- (WORD redirs)*: the words of a simple command and the redirections
between and after them. -/
inductive Args : List Tok → List (Nat × Nat) → List Redir → Prop
  | nil : Args [] [] []
  | cons {q e : Nat} {ts ts2 : List Tok} {rs rs2 : List Redir} {ws : List (Nat × Nat)} :
      Redirs ts rs → Args ts2 ws rs2 → Args (.word q e :: (ts ++ ts2)) ((q, e) :: ws) (rs ++ rs2)

mutual

/-- line := pipe '&'* (';' line)?, one BACK for each '&'. -/
inductive Line : List Tok → Cmd → Prop
  | backs {ts : List Tok} {c : Cmd} (k : Nat) :
      Pipe ts c → Line (ts ++ List.replicate k (.op '&')) (backs c k)
  | list {ts ts2 : List Tok} {c c2 : Cmd} (k : Nat) :
      Pipe ts c → Line ts2 c2 →
      Line (ts ++ List.replicate k (.op '&') ++ .op ';' :: ts2) (.list (backs c k) c2)

/-- pipe := exec ('|' pipe)? -/
inductive Pipe : List Tok → Cmd → Prop
  | exec {ts : List Tok} {c : Cmd} : Exec ts c → Pipe ts c
  | pipe {ts ts2 : List Tok} {c c2 : Cmd} : Exec ts c → Pipe ts2 c2 → Pipe (ts ++ .op '|' :: ts2) (.pipe c c2)

/-- exec := '(' line ')' redirs | redirs (WORD redirs)* -/
inductive Exec : List Tok → Cmd → Prop
  | block {ts ts2 : List Tok} {c : Cmd} {rs : List Redir} :
      Line ts c → Redirs ts2 rs → Exec (.op '(' :: (ts ++ .op ')' :: ts2)) (wrap c rs)
  | simple {ts ts2 : List Tok} {rs rs2 : List Redir} {ws : List (Nat × Nat)} :
      Redirs ts rs → Args ts2 ws rs2 → Exec (ts ++ ts2) (wrap (.exec ws) (rs ++ rs2))

end

/-- Every simple command of `cmd` has fewer than MAXARGS words. -/
def FewArgs : Cmd → Prop
  | .exec argv => argv.length < maxargs
  | .redir cmd .. => FewArgs cmd
  | .pipe left right => FewArgs left ∧ FewArgs right
  | .list left right => FewArgs left ∧ FewArgs right
  | .back cmd => FewArgs cmd

/-! ## The tokens of a line -/

/-- A character of a WORD: neither whitespace nor a symbol. -/
def wordChar (c : Char) : Bool := decide (c ∉ whitespace ∧ c ∉ symbols)

/-- The tokens of the characters `cs`, the first at position `pos` of the
line: whitespace between tokens is skipped, ">>" is one token (the '+'
gettoken returns for it) and every other symbol a token of its own, and a
WORD is a maximal non-empty run of word characters, from its first position
to just past its last. -/
def tokensFrom : List Char → Nat → List Tok
  | [], _ => []
  | c :: cs, pos =>
    if c ∈ whitespace then tokensFrom cs (pos + 1)
    else if c = '>' ∧ cs.head? = some '>' then .op '+' :: tokensFrom cs.tail (pos + 2)
    else if c ∈ symbols then .op c :: tokensFrom cs (pos + 1)
    else
      .word pos (pos + 1 + (cs.takeWhile wordChar).length) ::
        tokensFrom (cs.dropWhile wordChar) (pos + 1 + (cs.takeWhile wordChar).length)
termination_by cs _ => cs.length
decreasing_by
  all_goals simp only [List.length_cons]
  · omega
  · have := List.length_tail (l := cs); omega
  · omega
  · have := List.length_dropWhile_le wordChar cs; omega

/-- The tokens of a line. -/
def tokens (buf : List Char) : List Tok := tokensFrom buf 0

example : tokens "ls | wc >> out &".toList =
    [.word 0 2, .op '|', .word 5 7, .op '+', .word 11 14, .op '&'] := by decide +kernel

section Tokens

variable {buf : List Char}

theorem charAt_eq_getElem {s : Nat} (h : s < buf.length) : charAt buf s = buf[s] := by
  rw [charAt, List.getD_eq_getElem _ _ h]

theorem getElem_of_stop {p : Char → Bool} {s : Nat} (h : ¬(s < buf.length ∧ p (charAt buf s) = true))
    (hs : s < buf.length) : p buf[s] = false := by
  rw [charAt_eq_getElem hs] at h
  simpa [hs] using h

theorem skipWhile_eq_takeWhile (p : Char → Bool) (buf : List Char) (s : Nat) :
    skipWhile p buf s = s + ((buf.drop s).takeWhile p).length := by
  induction s using skipWhile.induct p buf with
  | case1 s h ih =>
    rw [skipWhile, if_pos h, ih, List.drop_eq_getElem_cons h.1, List.takeWhile_cons_of_pos]
    · simp only [List.length_cons]
      omega
    · exact charAt_eq_getElem h.1 ▸ h.2
  | case2 s h =>
    rw [skipWhile_of_not p buf h]
    by_cases hs : s < buf.length
    · rw [List.drop_eq_getElem_cons hs, List.takeWhile_cons_of_neg (by simp [getElem_of_stop h hs])]
      rfl
    · rw [List.drop_of_length_le (by omega)]
      rfl

theorem drop_skipWhile (p : Char → Bool) (buf : List Char) (s : Nat) :
    buf.drop (skipWhile p buf s) = (buf.drop s).dropWhile p := by
  induction s using skipWhile.induct p buf with
  | case1 s h ih =>
    rw [skipWhile, if_pos h, ih, List.drop_eq_getElem_cons h.1, List.dropWhile_cons_of_pos]
    exact charAt_eq_getElem h.1 ▸ h.2
  | case2 s h =>
    rw [skipWhile_of_not p buf h]
    by_cases hs : s < buf.length
    · rw [List.drop_eq_getElem_cons hs, List.dropWhile_cons_of_neg (by simp [getElem_of_stop h hs])]
    · rw [List.drop_of_length_le (by omega)]
      rfl

theorem tokensFrom_skip (s : Nat) :
    tokensFrom (buf.drop (skipWhitespace buf s)) (skipWhitespace buf s) = tokensFrom (buf.drop s) s := by
  unfold skipWhitespace
  induction s using skipWhile.induct (fun c => decide (c ∈ whitespace)) buf with
  | case1 s h ih =>
    rw [skipWhile, if_pos h, ih, List.drop_eq_getElem_cons h.1, tokensFrom,
      if_pos (by simpa [charAt_eq_getElem h.1] using h.2)]
  | case2 s h => rw [skipWhile_of_not _ buf h]

theorem skipWord_eq (s : Nat) : skipWord buf s = skipWhile wordChar buf s := rfl

/-- gettoken, repeated until it returns 0, reads the tokens of a line with no
NUL in it. -/
theorem lex_eq_tokensFrom (hbuf : nul ∉ buf) (s : Nat) : lex buf s = tokensFrom (buf.drop s) s := by
  induction s using lex.induct buf with
  | case1 s h0 =>
    rw [lex_of_ret_eq h0, ← tokensFrom_skip]
    have hend : buf.length ≤ skipWhitespace buf s := by
      by_contra hlt
      exact charAt_ne_nul hbuf (by omega) (scanToken_fst_eq_nul.mp h0)
    rw [List.drop_of_length_le hend, tokensFrom]
  | case2 s h0 ih =>
    set q := skipWhitespace buf s with hq
    have hc0 : charAt buf q ≠ nul := fun h => h0 (scanToken_fst_eq_nul.mpr h)
    have hlt := lt_of_charAt_ne hc0
    have hws : ¬charAt buf q ∈ whitespace := fun hw =>
      skipWhile_stop (fun c => decide (c ∈ whitespace)) buf s ⟨hlt, decide_eq_true hw⟩
    have hret : (gettoken buf s).ret = (scanToken buf q).1 := rfl
    have hps : (gettoken buf s).ps = skipWhitespace buf (scanToken buf q).2 := rfl
    rw [lex_of_ret_ne h0, ih, hps, tokensFrom_skip, ← tokensFrom_skip s, ← hq,
      List.drop_eq_getElem_cons hlt, tokensFrom, ← charAt_eq_getElem hlt, if_neg hws]
    rcases scanToken_cases buf q with ⟨h, -⟩ | ⟨hsym, he⟩ | ⟨h1, h2, he⟩ | ⟨h1, h2, he⟩ | ⟨-, hsym, he⟩
    · exact absurd h hc0
    · have hc : charAt buf q ≠ 'a' ∧ charAt buf q ≠ '>' ∧ charAt buf q ∈ symbols := by
        simp only [List.mem_cons, List.not_mem_nil, or_false] at hsym
        rcases hsym with h | h | h | h | h | h <;> rw [h] <;> decide
      have htok : (gettoken buf s).tok = .op (charAt buf q) :=
        Gettoken.tok_eq_op.mpr ⟨by rw [hret, he]; exact hc.1, by rw [hret, he]⟩
      rw [htok, he, if_neg (fun h => hc.2.1 h.1), if_pos hc.2.2]
    · have hlt' := lt_of_charAt_ne (by rw [h2]; decide : charAt buf (q + 1) ≠ nul)
      have htok : (gettoken buf s).tok = .op '+' :=
        Gettoken.tok_eq_op.mpr ⟨by rw [hret, he]; exact (by decide : '+' ≠ 'a'), by rw [hret, he]⟩
      rw [htok, he, if_pos ⟨h1, by rw [List.head?_drop, List.getElem?_eq_getElem hlt', ← charAt_eq_getElem hlt', h2]⟩,
        List.tail_drop]
    · have htok : (gettoken buf s).tok = .op '>' :=
        Gettoken.tok_eq_op.mpr ⟨by rw [hret, he]; exact (by decide : '>' ≠ 'a'), by rw [hret, he]⟩
      have hhead : (buf.drop (q + 1)).head? ≠ some '>' := by
        rw [List.head?_drop]
        intro hs
        apply h2
        rw [charAt, List.getD_eq_getElem?_getD, hs]
        rfl
      rw [htok, he, h1, if_neg (fun h => hhead h.2), if_pos (by decide)]
    · have hword : wordChar (charAt buf q) = true := by simp [wordChar, hws, hsym]
      have htok : (gettoken buf s).tok = .word q (skipWord buf q) :=
        Gettoken.tok_eq_word.mpr ⟨by rw [hret, he], rfl, by show (scanToken buf q).2 = _; rw [he]⟩
      have hskip : skipWord buf q = q + 1 + ((buf.drop (q + 1)).takeWhile wordChar).length := by
        rw [skipWord_eq, skipWhile, if_pos ⟨hlt, hword⟩, skipWhile_eq_takeWhile]
      have hdrop : buf.drop (skipWord buf q) = (buf.drop (q + 1)).dropWhile wordChar := by
        rw [skipWord_eq, skipWhile, if_pos ⟨hlt, hword⟩, drop_skipWhile]
      have hgt : ¬(charAt buf q = '>' ∧ (buf.drop (q + 1)).head? = some '>') := fun h =>
        hsym (by rw [h.1]; decide)
      rw [htok, he, if_neg hgt, if_neg hsym, hdrop, hskip]

theorem lex_eq_tokens (hbuf : nul ∉ buf) : lex buf 0 = tokens buf := by
  rw [lex_eq_tokensFrom hbuf, List.drop_zero]
  rfl

end Tokens

/-! ## Commands built by the parser -/

theorem wrap_append (cmd : Cmd) (rs rs2 : List Redir) : wrap cmd (rs ++ rs2) = wrap (wrap cmd rs) rs2 := by
  induction rs generalizing cmd with
  | nil => rfl
  | cons r rs ih => exact ih _

theorem setArgv_wrap (argv : List (Nat × Nat)) (cmd : Cmd) (rs : List Redir) :
    setArgv argv (wrap cmd rs) = wrap (setArgv argv cmd) rs := by
  induction rs generalizing cmd with
  | nil => rfl
  | cons r rs ih => exact ih _

@[simp] theorem fewArgs_wrap (cmd : Cmd) (rs : List Redir) : FewArgs (wrap cmd rs) ↔ FewArgs cmd := by
  induction rs generalizing cmd with
  | nil => rfl
  | cons r rs ih => exact ih _

@[simp] theorem fewArgs_backs (cmd : Cmd) (k : Nat) : FewArgs (backs cmd k) ↔ FewArgs cmd := by
  induction k generalizing cmd with
  | zero => rfl
  | succ k ih => exact ih _

theorem redirect_of_redirOp {c : Char} {mode fd : Nat} (h : redirOp c = some (mode, fd)) (cmd : Cmd) (q e : Nat) :
    redirect cmd c q e = .redir cmd q e mode fd := by
  unfold redirOp at h
  split at h <;> simp_all [redirect]

/-! ## Reading tokens -/

/-- A parser that started at `ps` and stopped at `s` read the tokens `pre`,
and did not move past the end of the line. -/
def Reads (buf : List Char) (ps s : Nat) (pre : List Tok) : Prop :=
  lex buf ps = pre ++ lex buf s ∧ s ≤ max ps buf.length

section Reads

variable {buf : List Char}

theorem Reads.trans {ps s1 s2 : Nat} {pre1 pre2 : List Tok} (h1 : Reads buf ps s1 pre1)
    (h2 : Reads buf s1 s2 pre2) : Reads buf ps s2 (pre1 ++ pre2) := by
  refine ⟨by rw [h1.1, h2.1, List.append_assoc], ?_⟩
  have := h1.2
  have := h2.2
  omega

theorem reads_skip (ps : Nat) : Reads buf ps (skipWhitespace buf ps) [] :=
  ⟨by rw [lex_skip, List.nil_append], skipWhile_le _ _ _⟩

theorem reads_peek {ps s : Nat} {toks : List Char} {b : Bool} (h : peek buf ps toks = (b, s)) :
    Reads buf ps s [] := by
  have : s = skipWhitespace buf ps := by rw [← peek_snd ps toks, h]
  exact this ▸ reads_skip ps

theorem reads_gettoken {ps : Nat} {t : Tok} {rest : List Tok} (h : lex buf ps = t :: rest) :
    Reads buf ps (gettoken buf ps).ps [t] :=
  ⟨by rw [h, (gettoken_of_lex h).2.2]; rfl, gettoken_ps_le ps⟩

theorem lex_of_reads_nil {ps s : Nat} (h : Reads buf ps s []) : lex buf s = lex buf ps := by
  rw [h.1, List.nil_append]

end Reads

/-! ## Peeking at tokens -/

theorem peekTok_eq_true {toks : List Char} {ts : List Tok} :
    peekTok toks ts = true ↔ ∃ c rest, ts = .op c :: rest ∧ lead c ∈ toks := by
  constructor
  · intro h
    match ts, h with
    | .op c :: rest, h => exact ⟨c, rest, rfl, by simpa [peekTok] using h⟩
  · rintro ⟨c, rest, rfl, h⟩
    simpa [peekTok] using h

/-- The tokens left may follow a nonterminal whose follow set sh.c peeks for
with `toks`: the end of the line, or an operator starting with one of `toks`. -/
def Follows (toks : List Char) (rest : List Tok) : Prop := rest = [] ∨ peekTok toks rest = true

theorem Follows.mono {toks toks2 : List Char} {rest : List Tok} (h : Follows toks rest)
    (hsub : ∀ c ∈ toks, c ∈ toks2) : Follows toks2 rest := by
  rcases h with h | h
  · exact .inl h
  · obtain ⟨c, rest, rfl, hc⟩ := peekTok_eq_true.mp h
    exact .inr (peekTok_eq_true.mpr ⟨c, rest, rfl, hsub _ hc⟩)

theorem Follows.peekTok_false {toks toks2 : List Char} {rest : List Tok} (h : Follows toks rest)
    (hdis : ∀ c ∈ toks, c ∉ toks2) : peekTok toks2 rest = false := by
  rcases h with rfl | h
  · rfl
  · obtain ⟨c, rest, rfl, hc⟩ := peekTok_eq_true.mp h
    simpa [peekTok] using hdis _ hc

theorem peek_eq {buf : List Char} {toks : List Char} (htoks : ∀ c ∈ toks, c ∈ symbols) (ps : Nat) :
    peek buf ps toks = (peekTok toks (lex buf ps), skipWhitespace buf ps) := by
  rw [← peek_fst htoks ps, ← peek_snd ps toks]

theorem op_of_peek {buf : List Char} {ps : Nat} {x : Char} (hx : x ≠ '>')
    (h : peekTok [x] (lex buf ps) = true) : ∃ rest, lex buf ps = .op x :: rest := by
  obtain ⟨c, rest, hl, hc⟩ := peekTok_eq_true.mp h
  refine ⟨rest, ?_⟩
  rw [hl, List.mem_singleton] at *
  unfold lead at hc
  split_ifs at hc with h1
  · exact absurd hc.symm hx
  · rw [hc]

theorem peek_eq_iff {buf : List Char} {toks : List Char} (htoks : ∀ c ∈ toks, c ∈ symbols)
    {ps s : Nat} {b : Bool} :
    peek buf ps toks = (b, s) ↔ peekTok toks (lex buf ps) = b ∧ s = skipWhitespace buf ps := by
  rw [peek_eq htoks, Prod.mk.injEq]
  exact ⟨fun h => ⟨h.1, h.2.symm⟩, fun h => ⟨h.1, h.2.symm⟩⟩

theorem peek_op {buf : List Char} {x : Char} (hx : x ∈ symbols) (hlead : lead x = x) {s : Nat}
    {rest : List Tok} (h : lex buf s = .op x :: rest) :
    peek buf s [x] = (true, skipWhitespace buf s) ∧ lex buf (gettoken buf (skipWhitespace buf s)).ps = rest := by
  refine ⟨(peek_eq_iff (by simpa using hx)).mpr ⟨?_, rfl⟩, ?_⟩
  · rw [h]
    simp [peekTok, hlead]
  · rw [gettoken_skip]
    exact (gettoken_of_lex h).2.2

section Steps

variable {buf : List Char}

theorem reads_of_ret_ne {ps : Nat} (h : (gettoken buf ps).ret ≠ nul) :
    Reads buf ps (gettoken buf ps).ps [(gettoken buf ps).tok] :=
  reads_gettoken (lex_of_ret_ne h)

theorem reads_of_ret_eq {ps : Nat} (h : (gettoken buf ps).ret = nul) :
    Reads buf ps (gettoken buf ps).ps [] := by
  have hc := scanToken_fst_eq_nul.mp h
  rcases scanToken_cases buf (skipWhitespace buf ps) with ⟨-, e⟩ | ⟨h1, -⟩ | ⟨h1, -⟩ | ⟨h1, -⟩ | ⟨h1, -⟩
  · have : (gettoken buf ps).ps = skipWhitespace buf ps := by
      show skipWhitespace buf (scanToken buf (skipWhitespace buf ps)).2 = skipWhitespace buf ps
      rw [e]
      exact skipWhile_skipWhile _ _ _
    rw [this]
    exact reads_skip ps
  all_goals simp_all [nul]

theorem redir_of_peek {ps s : Nat} (hp : peek buf ps ['<', '>'] = (true, s)) :
    ∃ mode fd, redirOp (gettoken buf s).ret = some (mode, fd) ∧
      Reads buf ps (gettoken buf s).ps [.op (gettoken buf s).ret] := by
  obtain ⟨hb, rfl⟩ := (peek_eq_iff (by simp [symbols])).mp hp
  obtain ⟨c, rest, hl, hc⟩ := peekTok_eq_true.mp hb
  obtain ⟨-, ht, -⟩ := gettoken_of_lex hl
  have hret : (gettoken buf ps).ret = c := (Gettoken.tok_eq_op.mp ht).2
  rw [gettoken_skip, hret]
  have hreads := reads_gettoken hl
  unfold lead at hc
  split_ifs at hc with h1
  · exact ⟨_, _, by rw [h1]; rfl, h1 ▸ hreads⟩
  · simp only [List.mem_cons, List.not_mem_nil, or_false] at hc
    rcases hc with rfl | rfl
    · exact ⟨_, _, rfl, hreads⟩
    · exact ⟨_, _, rfl, hreads⟩

theorem reads_word {ps : Nat} (h : (gettoken buf ps).ret = 'a') :
    Reads buf ps (gettoken buf ps).ps [.word (gettoken buf ps).q (gettoken buf ps).eq] := by
  have hne : (gettoken buf ps).ret ≠ nul := by rw [h]; decide
  have := reads_of_ret_ne hne
  rwa [Gettoken.tok_eq_word.mpr ⟨h, rfl, rfl⟩] at this

end Steps

/-! ## parseredirs -/

section Parseredirs

variable {buf : List Char}

theorem parseredirs_sound {cmd c : Cmd} {ps s : Nat} (h : parseredirs buf cmd ps = .ok (c, s)) :
    ∃ pre rs, Reads buf ps s pre ∧ Redirs pre rs ∧ c = wrap cmd rs := by
  revert h
  fun_induction parseredirs buf cmd ps with
  | case1 cmd ps s hp =>
    intro h
    cases h
    exact ⟨[], [], reads_peek hp, .nil, rfl⟩
  | case2 => intro h; cases h
  | case3 cmd ps s hp tok file hf ih =>
    intro h
    obtain ⟨pre, rs, hr, hd, rfl⟩ := ih h
    obtain ⟨mode, fd, hop, hr1⟩ := redir_of_peek hp
    have hr2 : Reads buf tok.ps file.ps [.word file.q file.eq] := reads_word (not_not.mp hf)
    refine ⟨[.op tok.ret, .word file.q file.eq] ++ pre, ⟨file.q, file.eq, mode, fd⟩ :: rs,
      (hr1.trans hr2).trans hr, .cons hop hd, ?_⟩
    rw [redirect_of_redirOp hop]
    rfl

theorem parseredirs_stop {cmd : Cmd} {ps : Nat} (h : peekTok ['<', '>'] (lex buf ps) = false) :
    parseredirs buf cmd ps = .ok (cmd, skipWhitespace buf ps) :=
  parseredirs_of_peek_false ((peek_eq_iff (by simp [symbols])).mpr ⟨h, rfl⟩)

theorem parseredirs_step {cmd : Cmd} {ps q e mode fd : Nat} {c : Char} {rest : List Tok}
    (h : lex buf ps = .op c :: .word q e :: rest) (hop : redirOp c = some (mode, fd)) :
    parseredirs buf cmd ps =
      parseredirs buf (.redir cmd q e mode fd) (gettoken buf (gettoken buf ps).ps).ps := by
  obtain ⟨-, ht1, hl1⟩ := gettoken_of_lex h
  obtain ⟨-, ht2, -⟩ := gettoken_of_lex hl1
  have hret := (Gettoken.tok_eq_op.mp ht1).2
  obtain ⟨ha, hq, he⟩ := Gettoken.tok_eq_word.mp ht2
  have hpk : peekTok ['<', '>'] (lex buf ps) = true := by
    rw [h]
    unfold redirOp at hop
    split at hop <;> simp_all [peekTok, lead]
  have hp : peek buf ps ['<', '>'] = (true, skipWhitespace buf ps) :=
    (peek_eq_iff (by simp [symbols])).mpr ⟨hpk, rfl⟩
  rw [parseredirs_of_peek_true hp]
  simp only [gettoken_skip, ha, ne_eq, not_true_eq_false, if_false, hret, hq, he, redirect_of_redirOp hop]

theorem parseredirs_complete {pre : List Tok} {rs : List Redir} (hd : Redirs pre rs) :
    ∀ (cmd : Cmd) {ps : Nat} {rest : List Tok}, lex buf ps = pre ++ rest →
      peekTok ['<', '>'] rest = false →
      ∃ s, parseredirs buf cmd ps = .ok (wrap cmd rs, s) ∧ lex buf s = rest := by
  induction hd with
  | nil =>
    intro cmd ps rest hl hstop
    rw [List.nil_append] at hl
    exact ⟨_, parseredirs_stop (hl ▸ hstop), by rw [lex_skip, hl]⟩
  | cons hop hd ih =>
    intro cmd ps rest hl hstop
    rw [List.cons_append, List.cons_append] at hl
    obtain ⟨-, -, hl1⟩ := gettoken_of_lex hl
    obtain ⟨-, -, hl2⟩ := gettoken_of_lex hl1
    obtain ⟨s, h1, h2⟩ := ih _ hl2 hstop
    exact ⟨s, by rw [parseredirs_step hl hop, h1]; rfl, h2⟩

end Parseredirs

/-! ## parseexec's loop -/

section ExecLoop

variable {buf : List Char}

theorem execLoop_sound {argv : List (Nat × Nat)} {ret : Cmd} {ps : Nat}
    {res : List (Nat × Nat) × Cmd × Nat} (h : execLoop buf argv ret ps = .ok res) :
    ∃ pre ws rs, Reads buf ps res.2.2 pre ∧ Args pre ws rs ∧ res.1 = argv ++ ws ∧
      res.2.1 = wrap ret rs ∧ (argv.length < maxargs → res.1.length < maxargs) := by
  revert h
  fun_induction execLoop buf argv ret ps with
  | case1 argv ret ps s hp =>
    intro h
    cases h
    exact ⟨[], [], [], reads_peek hp, .nil, by simp, rfl, id⟩
  | case2 argv ret ps s hp tok hn =>
    intro h
    cases h
    exact ⟨[], [], [], (reads_peek hp).trans (reads_of_ret_eq hn), .nil, by simp, rfl, id⟩
  | case3 => intro h; cases h
  | case4 => intro h; cases h
  | case5 => intro h; cases h
  | case6 argv ret ps s hp tok hn ha hlen cmd s2 hr ih =>
    intro h
    obtain ⟨pre, ws, rs, hreads, hargs, h1, h2, h3⟩ := ih h
    obtain ⟨pre1, rs1, hr1, hd1, rfl⟩ := parseredirs_sound hr
    have hw : Reads buf s tok.ps [.word tok.q tok.eq] := reads_word (not_not.mp ha)
    refine ⟨[.word tok.q tok.eq] ++ (pre1 ++ pre), (tok.q, tok.eq) :: ws, rs1 ++ rs,
      (reads_peek hp).trans (hw.trans (hr1.trans hreads)), .cons hd1 hargs, by simp [h1],
      by rw [h2, wrap_append], fun _ => h3 ?_⟩
    simp only [List.length_append, List.length_singleton]
    omega

theorem execLoop_stop {argv : List (Nat × Nat)} {ret : Cmd} {ps : Nat}
    (h : peekTok ['|', ')', '&', ';'] (lex buf ps) = true) :
    execLoop buf argv ret ps = .ok (argv, ret, skipWhitespace buf ps) :=
  execLoop_of_peek_true ((peek_eq_iff (by simp [symbols])).mpr ⟨h, rfl⟩)

theorem execLoop_end {argv : List (Nat × Nat)} {ret : Cmd} {ps : Nat} (h : lex buf ps = []) :
    ∃ s, execLoop buf argv ret ps = .ok (argv, ret, s) ∧ lex buf s = [] := by
  have hp : peek buf ps ['|', ')', '&', ';'] = (false, skipWhitespace buf ps) :=
    (peek_eq_iff (by simp [symbols])).mpr ⟨by rw [h]; rfl, rfl⟩
  have hn := gettoken_of_lex_nil h
  refine ⟨(gettoken buf ps).ps, ?_, by rw [lex_of_reads_nil (reads_of_ret_eq hn), h]⟩
  rw [execLoop_of_nul hp (by rw [gettoken_skip, hn]), gettoken_skip]

theorem execLoop_word {argv : List (Nat × Nat)} {ret cmd : Cmd} {ps q e s2 : Nat} {rest : List Tok}
    (h : lex buf ps = .word q e :: rest) (hlen : argv.length + 1 < maxargs)
    (hr : parseredirs buf ret (gettoken buf ps).ps = .ok (cmd, s2)) :
    execLoop buf argv ret ps = execLoop buf (argv ++ [(q, e)]) cmd s2 := by
  have hp : peek buf ps ['|', ')', '&', ';'] = (false, skipWhitespace buf ps) :=
    (peek_eq_iff (by simp [symbols])).mpr ⟨by rw [h]; rfl, rfl⟩
  obtain ⟨-, ht, -⟩ := gettoken_of_lex h
  obtain ⟨ha, hq, he⟩ := Gettoken.tok_eq_word.mp ht
  rw [execLoop_of_word hp (by rw [gettoken_skip, ha]) hlen (by rw [gettoken_skip, hr]), gettoken_skip, hq, he]

theorem peekTok_args_false {pre rest : List Tok} {ws : List (Nat × Nat)} {rs : List Redir}
    (hd : Args pre ws rs) (hf : Follows ['|', ')', '&', ';'] rest) :
    peekTok ['<', '>'] (pre ++ rest) = false := by
  cases hd with
  | nil => exact hf.peekTok_false (by simp)
  | cons => rfl

theorem execLoop_complete {pre : List Tok} {ws : List (Nat × Nat)} {rs : List Redir}
    (hd : Args pre ws rs) :
    ∀ (argv : List (Nat × Nat)) (ret : Cmd) {ps : Nat} {rest : List Tok},
      lex buf ps = pre ++ rest → Follows ['|', ')', '&', ';'] rest →
      argv.length + ws.length < maxargs →
      ∃ s, execLoop buf argv ret ps = .ok (argv ++ ws, wrap ret rs, s) ∧ lex buf s = rest := by
  induction hd with
  | nil =>
    intro argv ret ps rest hl hf hlen
    rw [List.nil_append] at hl
    rcases hf with rfl | hf
    · obtain ⟨s, h1, h2⟩ := @execLoop_end buf argv ret ps hl
      exact ⟨s, by rw [h1]; simp [wrap], h2⟩
    · exact ⟨skipWhitespace buf ps, by rw [execLoop_stop (hl ▸ hf)]; simp [wrap],
        by rw [lex_skip, hl]⟩
  | @cons q e ts ts2 rs rs2 ws hr hargs ih =>
    intro argv ret ps rest hl hf hlen
    rw [List.cons_append, List.append_assoc] at hl
    obtain ⟨-, -, hl1⟩ := gettoken_of_lex hl
    obtain ⟨s2, h1, h2⟩ := parseredirs_complete hr ret hl1 (peekTok_args_false hargs hf)
    simp only [List.length_cons] at hlen
    obtain ⟨s, h3, h4⟩ := ih (argv ++ [(q, e)]) (wrap ret rs) h2 hf
      (by simp only [List.length_append, List.length_singleton]; omega)
    refine ⟨s, ?_, h4⟩
    rw [execLoop_word hl (by omega) h1, h3, wrap_append]
    simp

end ExecLoop

/-! ## parseline's loop -/

section BackLoop

variable {buf : List Char}

theorem backLoop_sound {cmd c : Cmd} {ps s : Nat} (h : backLoop buf cmd ps = (c, s)) :
    ∃ k, Reads buf ps s (List.replicate k (.op '&')) ∧ c = backs cmd k := by
  revert h
  fun_induction backLoop buf cmd ps with
  | case1 cmd ps s hp ih =>
    intro h
    obtain ⟨k, hr, rfl⟩ := ih h
    obtain ⟨hb, rfl⟩ := (peek_eq_iff (by simp [symbols])).mp hp
    obtain ⟨rest, hl⟩ := op_of_peek (by simp) hb
    have h1 := reads_gettoken hl
    rw [← gettoken_skip] at h1
    exact ⟨k + 1, h1.trans hr, rfl⟩
  | case2 cmd ps s hp =>
    intro h
    cases h
    exact ⟨0, reads_peek hp, rfl⟩

theorem backLoop_complete (k : Nat) :
    ∀ (cmd : Cmd) {ps : Nat} {rest : List Tok}, lex buf ps = List.replicate k (.op '&') ++ rest →
      peekTok ['&'] rest = false → ∃ s, backLoop buf cmd ps = (backs cmd k, s) ∧ lex buf s = rest := by
  induction k with
  | zero =>
    intro cmd ps rest hl hstop
    rw [List.replicate_zero, List.nil_append] at hl
    have hp : peek buf ps ['&'] = (false, skipWhitespace buf ps) :=
      (peek_eq_iff (by simp [symbols])).mpr ⟨hl ▸ hstop, rfl⟩
    exact ⟨skipWhitespace buf ps, backLoop_of_peek_false hp, by rw [lex_skip, hl]⟩
  | succ k ih =>
    intro cmd ps rest hl hstop
    rw [List.replicate_succ, List.cons_append] at hl
    obtain ⟨hp, hl1⟩ := peek_op (by simp [symbols]) (by decide) hl
    obtain ⟨s, h1, h2⟩ := ih (.back cmd) hl1 hstop
    refine ⟨s, ?_, h2⟩
    rw [backLoop_of_peek_true hp, h1]
    rfl

end BackLoop

/-! ## Soundness -/

theorem bind_eq_ok {ε α β : Type} {x : Except ε α} {f : α → Except ε β} {b : β} :
    x >>= f = .ok b ↔ ∃ a, x = .ok a ∧ f a = .ok b := by
  cases x <;> simp [bind, Except.bind]

/-- A parser is sound for the nonterminal `G`: what it returns, `G` derives
from the tokens it read, with fewer than MAXARGS words in each simple command. -/
def Sound (buf : List Char) (parse : Nat → Except String (Cmd × Nat)) (G : List Tok → Cmd → Prop) :
    Prop :=
  ∀ {ps : Nat} {c : Cmd} {s : Nat}, parse ps = .ok (c, s) → ∃ pre, Reads buf ps s pre ∧ G pre c ∧ FewArgs c

section Sound

variable {buf : List Char} {n : Nat}

theorem reads_op_of_peek {ps s : Nat} {x : Char} (hx : x ≠ '>') (hsym : x ∈ symbols)
    (hp : peek buf ps [x] = (true, s)) : Reads buf ps (gettoken buf s).ps [.op x] := by
  obtain ⟨hb, rfl⟩ := (peek_eq_iff (by simpa using hsym)).mp hp
  obtain ⟨rest, hl⟩ := op_of_peek hx hb
  rw [gettoken_skip]
  exact reads_gettoken hl

theorem parseline_sound_succ (hpipe : Sound buf (parsepipe buf n) Pipe)
    (hline : Sound buf (parseline buf n) Line) : Sound buf (parseline buf (n + 1)) Line := by
  intro ps c s h
  simp only [parseline] at h
  obtain ⟨⟨c1, s1⟩, h1, h⟩ := bind_eq_ok.mp h
  obtain ⟨pre1, r1, d1, f1⟩ := hpipe h1
  rcases hb : backLoop buf c1 s1 with ⟨c2, s2⟩
  obtain ⟨k, r2, rfl⟩ := backLoop_sound hb
  simp only [hb] at h
  rcases hp : peek buf s2 [';'] with ⟨_ | _, s3⟩
  · simp only [hp, pure, Except.pure, Except.ok.injEq, Prod.mk.injEq] at h
    obtain ⟨rfl, rfl⟩ := h
    refine ⟨pre1 ++ (List.replicate k (.op '&') ++ []), r1.trans (r2.trans (reads_peek hp)), ?_,
      (fewArgs_backs c1 k).mpr f1⟩
    simpa using Line.backs k d1
  · simp only [hp] at h
    obtain ⟨⟨c4, s4⟩, h4, h⟩ := bind_eq_ok.mp h
    simp only [pure, Except.pure, Except.ok.injEq, Prod.mk.injEq] at h
    obtain ⟨rfl, rfl⟩ := h
    obtain ⟨pre4, r4, d4, f4⟩ := hline h4
    refine ⟨pre1 ++ (List.replicate k (.op '&') ++ ([.op ';'] ++ pre4)),
      r1.trans (r2.trans ((reads_op_of_peek (by simp) (by simp [symbols]) hp).trans r4)), ?_,
      ⟨(fewArgs_backs c1 k).mpr f1, f4⟩⟩
    simpa using Line.list k d1 d4

theorem parsepipe_sound_succ (hexec : Sound buf (parseexec buf n) Exec)
    (hpipe : Sound buf (parsepipe buf n) Pipe) : Sound buf (parsepipe buf (n + 1)) Pipe := by
  intro ps c s h
  simp only [parsepipe] at h
  obtain ⟨⟨c1, s1⟩, h1, h⟩ := bind_eq_ok.mp h
  obtain ⟨pre1, r1, d1, f1⟩ := hexec h1
  rcases hp : peek buf s1 ['|'] with ⟨_ | _, s3⟩
  · simp only [hp, pure, Except.pure, Except.ok.injEq, Prod.mk.injEq] at h
    obtain ⟨rfl, rfl⟩ := h
    exact ⟨pre1 ++ [], r1.trans (reads_peek hp), by simpa using Pipe.exec d1, f1⟩
  · simp only [hp] at h
    obtain ⟨⟨c4, s4⟩, h4, h⟩ := bind_eq_ok.mp h
    simp only [pure, Except.pure, Except.ok.injEq, Prod.mk.injEq] at h
    obtain ⟨rfl, rfl⟩ := h
    obtain ⟨pre4, r4, d4, f4⟩ := hpipe h4
    exact ⟨pre1 ++ ([.op '|'] ++ pre4), r1.trans ((reads_op_of_peek (by simp) (by simp [symbols]) hp).trans r4),
      by simpa using Pipe.pipe d1 d4, ⟨f1, f4⟩⟩

theorem parseblock_sound_succ (hline : Sound buf (parseline buf n) Line) :
    Sound buf (parseblock buf (n + 1)) Exec := by
  intro ps c s h
  simp only [parseblock] at h
  rcases hp : peek buf ps ['('] with ⟨_ | _, s1⟩
  · simp only [hp] at h
    cases h
  simp only [hp] at h
  obtain ⟨⟨c2, s2⟩, h2, h⟩ := bind_eq_ok.mp h
  obtain ⟨pre2, r2, d2, f2⟩ := hline h2
  rcases hq : peek buf s2 [')'] with ⟨_ | _, s3⟩
  · simp only [hq] at h
    cases h
  simp only [hq] at h
  obtain ⟨pre3, rs, r3, d3, rfl⟩ := parseredirs_sound h
  exact ⟨[.op '('] ++ (pre2 ++ ([.op ')'] ++ pre3)),
    (reads_op_of_peek (by simp) (by simp [symbols]) hp).trans
      (r2.trans ((reads_op_of_peek (by simp) (by simp [symbols]) hq).trans r3)),
    by simpa using Exec.block d2 d3, (fewArgs_wrap c2 rs).mpr f2⟩

theorem parseexec_sound_succ (hblock : Sound buf (parseblock buf n) Exec) :
    Sound buf (parseexec buf (n + 1)) Exec := by
  intro ps c s h
  simp only [parseexec] at h
  rcases hp : peek buf ps ['('] with ⟨_ | _, s1⟩
  · simp only [hp] at h
    obtain ⟨⟨c2, s2⟩, h2, h⟩ := bind_eq_ok.mp h
    obtain ⟨pre2, rs2, r2, d2, rfl⟩ := parseredirs_sound h2
    obtain ⟨⟨argv, c3, s3⟩, h3, h⟩ := bind_eq_ok.mp h
    obtain ⟨pre3, ws, rs3, r3, d3, rfl, rfl, hlen⟩ := execLoop_sound h3
    simp only [pure, Except.pure, Except.ok.injEq, Prod.mk.injEq] at h
    obtain ⟨rfl, rfl⟩ := h
    refine ⟨[] ++ (pre2 ++ pre3), (reads_peek hp).trans (r2.trans r3), ?_, ?_⟩
    · rw [List.nil_append, setArgv_wrap, setArgv_wrap, ← wrap_append]
      exact Exec.simple d2 d3
    · rw [setArgv_wrap, setArgv_wrap, fewArgs_wrap, fewArgs_wrap]
      exact hlen (by simp [maxargs])
  · simp only [hp] at h
    obtain ⟨pre, r, d, f⟩ := hblock h
    exact ⟨[] ++ pre, (reads_peek hp).trans r, d, f⟩

theorem parsers_sound (n : Nat) :
    Sound buf (parseline buf n) Line ∧ Sound buf (parsepipe buf n) Pipe ∧
      Sound buf (parseexec buf n) Exec ∧ Sound buf (parseblock buf n) Exec := by
  induction n with
  | zero =>
    refine ⟨?_, ?_, ?_, ?_⟩ <;> intro ps c s h <;> simp [parseline, parsepipe, parseexec, parseblock] at h
  | succ n ih =>
    obtain ⟨hl, hp, he, hb⟩ := ih
    exact ⟨parseline_sound_succ hp hl, parsepipe_sound_succ he hp, parseexec_sound_succ hb,
      parseblock_sound_succ hl⟩

end Sound

/-! ## Completeness -/

@[simp] theorem ok_bind {ε α β : Type} (a : α) (f : α → Except ε β) : (Except.ok a : Except ε α) >>= f = f a :=
  rfl

/-- The block alternative of exec: '(' line ')' redirs. -/
def Block (pre : List Tok) (c : Cmd) : Prop :=
  ∃ ts ts2 c1 rs, Line ts c1 ∧ Redirs ts2 rs ∧ pre = .op '(' :: (ts ++ .op ')' :: ts2) ∧ c = wrap c1 rs

/-- A parser is complete for the nonterminal `G` with the follow set `toks`,
given four units of fuel for each token left and `k` more: on tokens that `G`
derives, followed by tokens that may follow it, it returns the derived
command and stops where they start. -/
def Complete (buf : List Char) (n : Nat) (parse : Nat → Except String (Cmd × Nat))
    (G : List Tok → Cmd → Prop) (toks : List Char) (k : Nat) : Prop :=
  ∀ {ps : Nat} {pre rest : List Tok} {c : Cmd}, G pre c → FewArgs c → lex buf ps = pre ++ rest →
    Follows toks rest → 4 * (lex buf ps).length + k ≤ n →
    ∃ s, parse ps = .ok (c, s) ∧ lex buf s = rest

theorem peekTok_simple_false {ts ts2 rest : List Tok} {rs rs2 : List Redir} {ws : List (Nat × Nat)}
    (hr : Redirs ts rs) (ha : Args ts2 ws rs2) (hf : Follows ['|', ')', '&', ';'] rest) :
    peekTok ['('] (ts ++ ts2 ++ rest) = false := by
  cases hr with
  | nil =>
    cases ha with
    | nil => exact hf.peekTok_false (by simp)
    | cons => rfl
  | cons hop =>
    unfold redirOp at hop
    split at hop <;> simp_all [peekTok, lead]

section Complete

variable {buf : List Char} {n : Nat}

theorem parseline_complete_succ (hpipe : Complete buf n (parsepipe buf n) Pipe [')', '&', ';'] 3)
    (hline : Complete buf n (parseline buf n) Line [')'] 4) :
    Complete buf (n + 1) (parseline buf (n + 1)) Line [')'] 4 := by
  intro ps pre rest c hd hfew hl hfol hfuel
  cases hd with
  | @backs ts c1 k hp =>
    rw [List.append_assoc] at hl
    have hfol1 : Follows [')', '&', ';'] (List.replicate k (.op '&') ++ rest) := by
      cases k with
      | zero => exact hfol.mono (by simp)
      | succ k => exact .inr rfl
    obtain ⟨s1, h1, hl1⟩ := hpipe hp ((fewArgs_backs c1 k).mp hfew) hl hfol1 (by omega)
    obtain ⟨s2, h2, hl2⟩ := backLoop_complete k c1 hl1 (hfol.peekTok_false (by simp))
    have hp3 : peek buf s2 [';'] = (false, skipWhitespace buf s2) :=
      (peek_eq_iff (by simp [symbols])).mpr ⟨hl2 ▸ hfol.peekTok_false (by simp), rfl⟩
    refine ⟨skipWhitespace buf s2, ?_, by rw [lex_skip, hl2]⟩
    simp only [parseline, h1, ok_bind, h2, hp3]
    rfl
  | @list ts ts2 c1 c2 k hp hd2 =>
    simp only [List.append_assoc, List.cons_append] at hl
    have hfol1 : Follows [')', '&', ';'] (List.replicate k (.op '&') ++ .op ';' :: (ts2 ++ rest)) := by
      cases k with
      | zero => exact .inr rfl
      | succ k => exact .inr rfl
    have hlen : (lex buf ps).length = ts.length + k + 1 + (ts2 ++ rest).length := by
      rw [hl]
      simp only [List.length_append, List.length_replicate, List.length_cons]
      omega
    obtain ⟨s1, h1, hl1⟩ := hpipe hp ((fewArgs_backs c1 k).mp hfew.1) hl hfol1 (by omega)
    obtain ⟨s2, h2, hl2⟩ := backLoop_complete k c1 hl1 rfl
    obtain ⟨hp3, hl3⟩ := peek_op (by simp [symbols]) (by decide) hl2
    obtain ⟨s4, h4, hl4⟩ := hline hd2 hfew.2 hl3 hfol (by rw [hl3]; omega)
    refine ⟨s4, ?_, hl4⟩
    simp only [parseline, h1, ok_bind, h2, hp3, h4]
    rfl

theorem parsepipe_complete_succ (hexec : Complete buf n (parseexec buf n) Exec ['|', ')', '&', ';'] 2)
    (hpipe : Complete buf n (parsepipe buf n) Pipe [')', '&', ';'] 3) :
    Complete buf (n + 1) (parsepipe buf (n + 1)) Pipe [')', '&', ';'] 3 := by
  intro ps pre rest c hd hfew hl hfol hfuel
  cases hd with
  | exec he =>
    obtain ⟨s1, h1, hl1⟩ := hexec he hfew hl (hfol.mono (by simp)) (by omega)
    have hp3 : peek buf s1 ['|'] = (false, skipWhitespace buf s1) :=
      (peek_eq_iff (by simp [symbols])).mpr ⟨hl1 ▸ hfol.peekTok_false (by simp), rfl⟩
    refine ⟨skipWhitespace buf s1, ?_, by rw [lex_skip, hl1]⟩
    simp only [parsepipe, h1, ok_bind, hp3]
    rfl
  | @pipe ts ts2 c1 c2 he hp =>
    rw [List.append_assoc, List.cons_append] at hl
    have hlen : (lex buf ps).length = ts.length + 1 + (ts2 ++ rest).length := by
      rw [hl]
      simp only [List.length_append, List.length_cons]
      omega
    obtain ⟨s1, h1, hl1⟩ := hexec he hfew.1 hl (.inr rfl) (by omega)
    obtain ⟨hp3, hl3⟩ := peek_op (by simp [symbols]) (by decide) hl1
    obtain ⟨s4, h4, hl4⟩ := hpipe hp hfew.2 hl3 hfol (by rw [hl3]; omega)
    refine ⟨s4, ?_, hl4⟩
    simp only [parsepipe, h1, ok_bind, hp3, h4]
    rfl

theorem parseblock_complete_succ (hline : Complete buf n (parseline buf n) Line [')'] 4) :
    Complete buf (n + 1) (parseblock buf (n + 1)) Block ['|', ')', '&', ';'] 1 := by
  intro ps pre rest c hd hfew hl hfol hfuel
  obtain ⟨ts, ts2, c1, rs, hd1, hr, rfl, rfl⟩ := hd
  simp only [List.cons_append, List.append_assoc] at hl
  have hlen : (lex buf ps).length = ts.length + 2 + (ts2 ++ rest).length := by
    rw [hl]
    simp only [List.length_append, List.length_cons]
    omega
  obtain ⟨hp1, hl1⟩ := peek_op (by simp [symbols]) (by decide) hl
  obtain ⟨s2, h2, hl2⟩ := hline hd1 ((fewArgs_wrap c1 rs).mp hfew) hl1 (.inr rfl)
    (by rw [hl1]; simp only [List.length_append, List.length_cons] at hlen ⊢; omega)
  obtain ⟨hp2, hl3⟩ := peek_op (by simp [symbols]) (by decide) hl2
  obtain ⟨s, h3, hl4⟩ := parseredirs_complete hr c1 hl3 (hfol.peekTok_false (by simp))
  refine ⟨s, ?_, hl4⟩
  simp only [parseblock, hp1, h2, ok_bind, hp2, h3]

theorem parseexec_complete_succ (hblock : Complete buf n (parseblock buf n) Block ['|', ')', '&', ';'] 1) :
    Complete buf (n + 1) (parseexec buf (n + 1)) Exec ['|', ')', '&', ';'] 2 := by
  intro ps pre rest c hd hfew hl hfol hfuel
  cases hd with
  | @block ts ts2 c1 rs hd1 hr =>
    have hp1 : peek buf ps ['('] = (true, skipWhitespace buf ps) :=
      (peek_eq_iff (by simp [symbols])).mpr ⟨by rw [hl]; rfl, rfl⟩
    rw [← lex_skip] at hl
    obtain ⟨s, h1, hl1⟩ := hblock ⟨ts, ts2, c1, rs, hd1, hr, rfl, rfl⟩ hfew hl hfol
      (by rw [lex_skip]; omega)
    refine ⟨s, ?_, hl1⟩
    simp only [parseexec, hp1, h1]
  | @simple ts ts2 rs rs2 ws hr ha =>
    have hp1 : peek buf ps ['('] = (false, skipWhitespace buf ps) :=
      (peek_eq_iff (by simp [symbols])).mpr ⟨by rw [hl]; exact peekTok_simple_false hr ha hfol, rfl⟩
    rw [List.append_assoc, ← lex_skip] at hl
    obtain ⟨s1, h1, hl1⟩ := parseredirs_complete hr (.exec []) hl (peekTok_args_false ha hfol)
    have hfew1 : ws.length < maxargs := by simpa [FewArgs] using hfew
    obtain ⟨s2, h2, hl2⟩ := execLoop_complete ha [] (wrap (.exec []) rs) hl1 hfol
      (by simpa using hfew1)
    refine ⟨s2, ?_, hl2⟩
    simp only [parseexec, hp1, h1, ok_bind, h2, List.nil_append, setArgv_wrap, ← wrap_append]
    rfl

theorem parsers_complete (n : Nat) :
    Complete buf n (parseline buf n) Line [')'] 4 ∧
      Complete buf n (parsepipe buf n) Pipe [')', '&', ';'] 3 ∧
      Complete buf n (parseexec buf n) Exec ['|', ')', '&', ';'] 2 ∧
      Complete buf n (parseblock buf n) Block ['|', ')', '&', ';'] 1 := by
  induction n with
  | zero => refine ⟨?_, ?_, ?_, ?_⟩ <;> intro ps pre rest c _ _ _ _ hfuel <;> omega
  | succ n ih =>
    obtain ⟨hl, hp, he, hb⟩ := ih
    exact ⟨parseline_complete_succ hp hl, parsepipe_complete_succ he hp, parseexec_complete_succ hb,
      parseblock_complete_succ hl⟩

end Complete

/-! ## The words of a derivation -/

theorem words_wrap (c : Cmd) (rs : List Redir) :
    words (wrap c rs) = words c ++ rs.map fun r => (r.file, r.efile) := by
  induction rs generalizing c with
  | nil => simp [wrap]
  | cons r rs ih => simp [wrap, ih, words]

theorem words_backs (c : Cmd) (k : Nat) : words (backs c k) = words c := by
  induction k generalizing c with
  | zero => rfl
  | succ k ih => exact ih (.back c)

theorem Redirs.files_mem {ts : List Tok} {rs : List Redir} (h : Redirs ts rs) :
    ∀ r ∈ rs, Tok.word r.file r.efile ∈ ts := by
  induction h with
  | nil => simp
  | cons _ _ ih =>
    intro r hr
    rcases List.mem_cons.mp hr with rfl | hr
    · simp
    · simp [ih r hr]

theorem Args.words_mem {ts : List Tok} {ws : List (Nat × Nat)} {rs : List Redir} (h : Args ts ws rs) :
    (∀ w ∈ ws, Tok.word w.1 w.2 ∈ ts) ∧ ∀ r ∈ rs, Tok.word r.file r.efile ∈ ts := by
  induction h with
  | nil => simp
  | cons hr _ ih =>
    refine ⟨fun w hw => ?_, fun r hr2 => ?_⟩
    · rcases List.mem_cons.mp hw with rfl | hw
      · simp
      · simp [ih.1 w hw]
    · rcases List.mem_append.mp hr2 with hr2 | hr2
      · simp [hr.files_mem r hr2]
      · simp [ih.2 r hr2]

mutual

theorem Line.words_mem {ts : List Tok} {c : Cmd} (h : Line ts c) : ∀ w ∈ words c, Tok.word w.1 w.2 ∈ ts :=
  match h with
  | .backs _ hp => by
    intro w hw
    rw [words_backs] at hw
    simp [hp.words_mem w hw]
  | .list _ hp hl => by
    intro w hw
    rcases List.mem_append.mp hw with hw | hw
    · rw [words_backs] at hw
      simp [hp.words_mem w hw]
    · simp [hl.words_mem w hw]

theorem Pipe.words_mem {ts : List Tok} {c : Cmd} (h : Pipe ts c) : ∀ w ∈ words c, Tok.word w.1 w.2 ∈ ts :=
  match h with
  | .exec he => he.words_mem
  | .pipe he hp => by
    intro w hw
    rcases List.mem_append.mp hw with hw | hw
    · simp [he.words_mem w hw]
    · simp [hp.words_mem w hw]

theorem Exec.words_mem {ts : List Tok} {c : Cmd} (h : Exec ts c) : ∀ w ∈ words c, Tok.word w.1 w.2 ∈ ts :=
  match h with
  | .block hl hr => by
    intro w hw
    rw [words_wrap] at hw
    rcases List.mem_append.mp hw with hw | hw
    · simp [hl.words_mem w hw]
    · obtain ⟨r, hr2, rfl⟩ := List.mem_map.mp hw
      simp [hr.files_mem r hr2]
  | .simple hr ha => by
    intro w hw
    rw [words_wrap] at hw
    rcases List.mem_append.mp hw with hw | hw
    · simp [(ha.words_mem).1 w hw]
    · obtain ⟨r, hr2, rfl⟩ := List.mem_map.mp hw
      rcases List.mem_append.mp hr2 with hr2 | hr2
      · simp [hr.files_mem r hr2]
      · simp [(ha.words_mem).2 r hr2]

end

/-! ## parsecmd -/

theorem lex_eq_nil_of_end {buf : List Char} {s : Nat} (h : skipWhitespace buf s = buf.length) :
    lex buf s = [] := by
  apply lex_of_ret_eq
  apply scanToken_fst_eq_nul.mpr
  rw [h]
  exact charAt_of_le (Nat.le_refl _)

theorem end_of_lex_eq_nil {buf : List Char} (hbuf : nul ∉ buf) {s : Nat} (hs : s ≤ buf.length)
    (h : lex buf s = []) : skipWhitespace buf s = buf.length := by
  have hc := scanToken_fst_eq_nul.mp (gettoken_of_lex_nil h)
  have h1 := skipWhile_le (fun c => decide (c ∈ whitespace)) buf s
  have h2 : ¬skipWhitespace buf s < buf.length := fun hlt => charAt_ne_nul hbuf hlt hc
  simp only [skipWhitespace] at *
  omega

theorem parsecmd_eq_ok {buf b : List Char} {c : Cmd} :
    parsecmd buf = .ok (c, b) ↔ ∃ s, parseline buf (4 * buf.length + 4) 0 = .ok (c, s) ∧
      skipWhitespace buf s = buf.length ∧ b = nulterminate c buf := by
  simp only [parsecmd]
  constructor
  · intro h
    obtain ⟨⟨c1, s1⟩, h1, h⟩ := bind_eq_ok.mp h
    by_cases hend : (peek buf s1 []).2 = buf.length
    · rw [if_neg (not_not.mpr hend)] at h
      simp only [pure, Except.pure, Except.ok.injEq, Prod.mk.injEq] at h
      obtain ⟨rfl, rfl⟩ := h
      exact ⟨s1, h1, hend, rfl⟩
    · rw [if_pos hend] at h
      cases h
  · rintro ⟨s, h1, hend, rfl⟩
    simp only [h1, ok_bind, peek_snd, hend, ne_eq, not_true_eq_false, if_false]
    rfl

theorem parsecmd_accepts_grammar (buf : List Char) (hbuf : nul ∉ buf) (c : Cmd) :
    ((∃ b, parsecmd buf = .ok (c, b)) ↔ Line (tokens buf) c ∧ FewArgs c) ∧
      ∀ b, parsecmd buf = .ok (c, b) →
        ∀ w ∈ words c, cstring b w.1 = (buf.drop w.1).take (w.2 - w.1) := by
  rw [← lex_eq_tokens hbuf]
  refine ⟨⟨?_, ?_⟩, ?_⟩
  · rintro ⟨b, h⟩
    obtain ⟨s, h1, hend, -⟩ := parsecmd_eq_ok.mp h
    obtain ⟨pre, hr, hd, hf⟩ := (parsers_sound _).1 h1
    rw [hr.1, lex_eq_nil_of_end hend, List.append_nil]
    exact ⟨hd, hf⟩
  · rintro ⟨hd, hf⟩
    have hfuel : (lex buf 0).length ≤ buf.length - 0 := length_lex_le 0
    obtain ⟨s, h1, hl⟩ := (parsers_complete (4 * buf.length + 4)).1 hd hf (List.append_nil _).symm
      (.inl rfl) (by omega)
    obtain ⟨pre, hr, -, -⟩ := (parsers_sound _).1 h1
    have hs : s ≤ buf.length := by
      have := hr.2
      omega
    exact ⟨_, parsecmd_eq_ok.mpr ⟨s, h1, end_of_lex_eq_nil hbuf hs hl, rfl⟩⟩
  · intro b h w hw
    obtain ⟨s, h1, hend, rfl⟩ := parsecmd_eq_ok.mp h
    obtain ⟨pre, hr, hd, -⟩ := (parsers_sound _).1 h1
    have hlex : lex buf 0 = pre := by rw [hr.1, lex_eq_nil_of_end hend, List.append_nil]
    -- every word of the command is a word token of the line
    have hmem : ∀ v ∈ words c, Tok.word v.1 v.2 ∈ lex buf 0 := hlex ▸ hd.words_mem
    obtain ⟨hqe, hin, -⟩ := mem_lex_word (hmem w hw)
    have he : w.2 ≤ buf.length := by
      have := (hin (w.2 - 1) (by omega) (by omega)).1
      omega
    rw [nulterminate_eq]
    apply cstring_eq_text (Nat.le_of_lt hqe) he
    · -- no word ends inside another, so no NUL lands inside a word
      intro i h1 h2
      obtain ⟨hi, hws, hsym⟩ := hin i h1 h2
      rw [charAt_foldl_set_nul, if_neg]
      · exact ⟨charAt_ne_nul hbuf hi, rfl⟩
      · rintro ⟨v, hv, rfl⟩
        obtain ⟨-, -, hend3⟩ := mem_lex_word (hmem v hv)
        rcases hend3 with h3 | h3 | h3
        · omega
        · exact hws h3
        · exact hsym h3
    · rw [charAt_foldl_set_nul, if_pos ⟨w, hw, rfl⟩]

theorem parsecmd_accepts_grammar_pipe :
    nul ∉ "ls | wc >> out &".toList ∧
      (((∃ b, parsecmd "ls | wc >> out &".toList =
          .ok (.back (.pipe (.exec [(0, 2)]) (.redir (.exec [(5, 7)]) 11 14 0x201 1)), b)) ↔
        Line (tokens "ls | wc >> out &".toList)
          (.back (.pipe (.exec [(0, 2)]) (.redir (.exec [(5, 7)]) 11 14 0x201 1))) ∧
        FewArgs (.back (.pipe (.exec [(0, 2)]) (.redir (.exec [(5, 7)]) 11 14 0x201 1)))) ∧
      ∀ b, parsecmd "ls | wc >> out &".toList =
          .ok (.back (.pipe (.exec [(0, 2)]) (.redir (.exec [(5, 7)]) 11 14 0x201 1)), b) →
        ∀ w ∈ words (.back (.pipe (.exec [(0, 2)]) (.redir (.exec [(5, 7)]) 11 14 0x201 1))),
          cstring b w.1 = ("ls | wc >> out &".toList.drop w.1).take (w.2 - w.1)) :=
  ⟨by decide, parsecmd_accepts_grammar _ (by decide) _⟩

end Xv6Mlfq.Sh
