import Xv6Mlfq.Libc
import Xv6Mlfq.Sh

/-!
The format loops of printf (kernel/printf.c) and vprintf (user/printf.c), and
atoi (user/ulib.c).

A format is the characters before its NUL, read with `Sh.charAt`; its
characters are bytes, so `fmt[i] & 0xff` is `fmt[i]`.  The arguments are the
64-bit slots a va_list walks, `va_arg(ap, T)` reading the next slot as a `T`;
a `%s` argument is a pointer, and `str` gives the characters of the C string
at each non-null one.  The output is the characters that reach the console
(through consputc) or the file (through putc).

The two loops are written differently: the kernel's steps over a `%` and its
conversion inside one iteration, the user library's keeps a state across
iterations.  Both run the same if-chain on the characters after a `%`
(`pick`), and both read the same format language: a table of conversions
(`specs`), by which `parse` splits a format into pieces, and `interp` gives
the output of the pieces.  Each loop prints `interp` of `parse`, over its own
digit table and output routine.
-/

namespace Xv6Mlfq.Printf

open Libc

/-! ### The format language -/

/-- What a conversion reads from its slot and how it prints it. -/
inductive Conv
  | int
  | long
  | uint
  | ulong
  | hex
  | lhex
  | ptr
  | char
  | str
  deriving DecidableEq, Repr

/-- The conversions of both loops, by the characters after the `%`. -/
def specs : List (List Char × Conv) :=
  [(['d'], .int), (['l', 'd'], .long), (['l', 'l', 'd'], .long),
    (['u'], .uint), (['l', 'u'], .ulong), (['l', 'l', 'u'], .ulong),
    (['x'], .hex), (['l', 'x'], .lhex), (['l', 'l', 'x'], .lhex),
    (['p'], .ptr), (['c'], .char), (['s'], .str)]

/-- A piece of a format. -/
inductive Piece
  | lit (c : Char)
  | conv (k : Conv)
  | percent
  | unknown (c : Char)
  deriving DecidableEq, Repr

/-- The conversion `specs` names at the front of `r`, with the length of its name. -/
def lookupSpec (r : List Char) : Option (Conv × Nat) :=
  (specs.find? fun sp => sp.1.isPrefixOf r).map fun sp => (sp.2, sp.1.length)

/-- A format as pieces, up to its end or its NUL: a character other than `%`
is a literal; `%` followed by a name of `specs` is that conversion, by `%` a
percent, by another character an unknown conversion, and by nothing, nothing. -/
def parse : List Char → List Piece
  | [] => []
  | c :: r =>
    if c = Sh.nul then []
    else if c ≠ '%' then .lit c :: parse r
    else
      match lookupSpec r with
      | some (k, n) => .conv k :: parse (r.drop n)
      | none =>
        match r with
        | [] => []
        | c0 :: r0 =>
          if c0 = Sh.nul then [] else if c0 = '%' then .percent :: parse r0 else .unknown c0 :: parse r0
termination_by l => l.length
decreasing_by
  all_goals simp only [List.length_cons, List.length_drop]
  all_goals omega

section Interp

variable (digits : List Char) (putc : Nat → List Char) (str : BitVec 64 → List Char)

/-- What a conversion prints for the slot `w`: printint of the slot read as
the branch's `va_arg` type, printptr, putc of the character, or the string's
characters, each character through `putc`. -/
def Conv.render : Conv → BitVec 64 → Option (List Char)
  | .int, w => (printintWith digits ((w.setWidth 32).signExtend 64) 10 true).map (·.flatMap (putc ·.toNat))
  | .long, w => (printintWith digits w 10 true).map (·.flatMap (putc ·.toNat))
  | .uint, w => (printintWith digits ((w.setWidth 32).setWidth 64) 10 false).map (·.flatMap (putc ·.toNat))
  | .ulong, w => (printintWith digits w 10 false).map (·.flatMap (putc ·.toNat))
  | .hex, w => (printintWith digits ((w.setWidth 32).setWidth 64) 16 false).map (·.flatMap (putc ·.toNat))
  | .lhex, w => (printintWith digits w 16 false).map (·.flatMap (putc ·.toNat))
  | .ptr, w => some ((printptrWith digits w).flatMap (putc ·.toNat))
  | .char, w => some (putc (w.setWidth 32).toNat)
  | .str, w => some ((if w = 0 then "(null)".toList else str w).flatMap (putc ·.toNat))

/-- The output of the pieces `ps`, with the arguments from slot `a` on. -/
def interp (args : Nat → BitVec 64) : List Piece → Nat → Option (List Char)
  | [], _ => some []
  | .lit c :: ps, a => (interp args ps a).map (putc c.toNat ++ ·)
  | .conv k :: ps, a => (k.render digits putc str (args a)).bind fun out => (interp args ps (a + 1)).map (out ++ ·)
  | .percent :: ps, a => (interp args ps a).map (putc '%'.toNat ++ ·)
  | .unknown c :: ps, a => (interp args ps a).map (putc '%'.toNat ++ putc c.toNat ++ ·)

theorem Conv.render_isSome (k : Conv) (w : BitVec 64) : (k.render digits putc str w).isSome := by
  cases k <;> simp [Conv.render, printintWith_eq _ (Or.inl rfl), printintWith_eq _ (Or.inr rfl)]

theorem Conv.render_int (w : BitVec 64) :
    Conv.int.render digits putc str w =
      some ((Libc.render digits 10 (w.setWidth 32).toInt).flatMap (putc ·.toNat)) := by
  rw [Conv.render, printintWith_eq _ (Or.inl rfl), if_pos rfl, BitVec.toInt_signExtend_of_le (by decide),
    Option.map_some]

theorem Conv.render_long (w : BitVec 64) :
    Conv.long.render digits putc str w = some ((Libc.render digits 10 w.toInt).flatMap (putc ·.toNat)) := by
  rw [Conv.render, printintWith_eq _ (Or.inl rfl), if_pos rfl, Option.map_some]

theorem Conv.render_uint (w : BitVec 64) :
    Conv.uint.render digits putc str w =
      some ((Libc.render digits 10 (w.setWidth 32).toNat).flatMap (putc ·.toNat)) := by
  rw [Conv.render, printintWith_eq _ (Or.inl rfl), if_neg Bool.false_ne_true,
    BitVec.toNat_setWidth_of_le (by decide), Option.map_some]

theorem Conv.render_ulong (w : BitVec 64) :
    Conv.ulong.render digits putc str w = some ((Libc.render digits 10 w.toNat).flatMap (putc ·.toNat)) := by
  rw [Conv.render, printintWith_eq _ (Or.inl rfl), if_neg Bool.false_ne_true, Option.map_some]

theorem interp_isSome (args : Nat → BitVec 64) (ps : List Piece) (a : Nat) :
    (interp digits putc str args ps a).isSome := by
  induction ps generalizing a with
  | nil => rfl
  | cons p ps ih =>
    cases p with
    | conv k =>
      obtain ⟨out, hout⟩ := Option.isSome_iff_exists.mp (k.render_isSome digits putc str (args a))
      obtain ⟨rest, hrest⟩ := Option.isSome_iff_exists.mp (ih (a + 1))
      simp [interp, hout, hrest]
    | lit c => simpa [interp] using ih a
    | percent => simpa [interp] using ih a
    | unknown c => simpa [interp] using ih a

end Interp

/-! ### The two loops -/

/-- The if-chain both loops run on `c0`, `c1` and `c2` after a `%`, up to its
`%s` branch: the conversion of the branch taken and how many characters
more it steps over (`i += 1`, `i += 2`). -/
def pick (c0 c1 c2 : Char) : Option (Conv × Nat) :=
  if c0 = 'd' then some (.int, 0)
  else if c0 = 'l' ∧ c1 = 'd' then some (.long, 1)
  else if c0 = 'l' ∧ c1 = 'l' ∧ c2 = 'd' then some (.long, 2)
  else if c0 = 'u' then some (.uint, 0)
  else if c0 = 'l' ∧ c1 = 'u' then some (.ulong, 1)
  else if c0 = 'l' ∧ c1 = 'l' ∧ c2 = 'u' then some (.ulong, 2)
  else if c0 = 'x' then some (.hex, 0)
  else if c0 = 'l' ∧ c1 = 'x' then some (.lhex, 1)
  else if c0 = 'l' ∧ c1 = 'l' ∧ c2 = 'x' then some (.lhex, 2)
  else if c0 = 'p' then some (.ptr, 0)
  else if c0 = 'c' then some (.char, 0)
  else if c0 = 's' then some (.str, 0)
  else none

/-! ### The if-chain reads the table -/

theorem find?_cons_ite {α : Type} (p : α → Bool) (x : α) (l : List α) :
    (x :: l).find? p = if p x then some x else l.find? p := by
  cases h : p x <;> simp [h]

theorem isPrefixOf_cons_cons_eq {α : Type} [DecidableEq α] (x a : α) (xs r : List α) :
    (x :: xs).isPrefixOf (a :: r) = (decide (a = x) && xs.isPrefixOf r) := by
  rw [List.isPrefixOf_cons_cons, beq_eq_decide]
  exact congrArg (· && _) (decide_eq_decide.mpr eq_comm)

theorem lookupSpec_eq (r : List Char) :
    lookupSpec r = (pick (Sh.charAt r 0) (Sh.charAt r 1) (Sh.charAt r 2)).map fun p => (p.1, p.2 + 1) := by
  rcases r with _ | ⟨a, _ | ⟨b, _ | ⟨c, rest⟩⟩⟩ <;>
  simp only [lookupSpec, specs, pick, find?_cons_ite, isPrefixOf_cons_cons_eq, List.isPrefixOf_nil_left,
    List.isPrefixOf_cons_nil, Sh.charAt, List.getD_cons_zero, List.getD_cons_succ, List.getD_nil, Sh.nul,
    Bool.and_true, Bool.and_false, Bool.and_eq_true, decide_eq_true_eq, List.find?_nil,
    apply_ite (Option.map (fun sp : List Char × Conv => (sp.2, sp.1.length))),
    apply_ite (Option.map (fun p : Conv × Nat => (p.1, p.2 + 1))), Option.map_some, Option.map_none,
    List.length_cons, List.length_nil]
  all_goals simp +decide

theorem pick_guard (c0 x y : Char) :
    pick c0 (if c0 ≠ Sh.nul then x else Sh.nul)
        (if (if c0 ≠ Sh.nul then x else Sh.nul) ≠ Sh.nul then y else Sh.nul) =
      pick c0 x y := by
  by_cases h0 : c0 = Sh.nul
  · simp [h0, pick, Sh.nul]
  · by_cases hx : x = Sh.nul
    · simp [hx, pick, Sh.nul]
    · simp [h0, hx]

theorem charAt_drop (l : List Char) (i k : Nat) : Sh.charAt (l.drop i) k = Sh.charAt l (i + k) := by
  simp only [Sh.charAt, List.getD_eq_getElem?_getD, List.getElem?_drop]

theorem drop_eq_charAt_cons {l : List Char} {i : Nat} (h : Sh.charAt l i ≠ Sh.nul) :
    l.drop i = Sh.charAt l i :: l.drop (i + 1) := by
  have hi := Sh.lt_of_charAt_ne h
  rw [List.drop_eq_getElem_cons hi, Sh.charAt, List.getD_eq_getElem _ _ hi]

theorem lookupSpec_drop_of_pick {fmt : List Char} {j : Nat} {c0 c1 c2 : Char}
    (h0 : c0 = Sh.charAt fmt j) (h1 : c1 = if c0 ≠ Sh.nul then Sh.charAt fmt (j + 1) else Sh.nul)
    (h2 : c2 = if c1 ≠ Sh.nul then Sh.charAt fmt (j + 2) else Sh.nul) :
    lookupSpec (fmt.drop j) = (pick c0 c1 c2).map fun p => (p.1, p.2 + 1) := by
  subst h0 h1 h2
  rw [pick_guard, lookupSpec_eq, charAt_drop, charAt_drop, charAt_drop, Nat.add_zero]

/-! ### Parsing, piece by piece -/

theorem parse_of_charAt_nul {l : List Char} (h : Sh.charAt l 0 = Sh.nul) : parse l = [] := by
  cases l with
  | nil => rw [parse.eq_def]
  | cons c r =>
    rw [parse.eq_def]
    exact if_pos h

theorem parse_lit {c : Char} {r : List Char} (hc : c ≠ Sh.nul) (hp : c ≠ '%') :
    parse (c :: r) = .lit c :: parse r := by
  rw [parse.eq_def]
  dsimp only
  rw [if_neg hc, if_pos hp]

theorem parse_conv {r : List Char} {k : Conv} {n : Nat} (h : lookupSpec r = some (k, n)) :
    parse ('%' :: r) = .conv k :: parse (r.drop n) := by
  rw [parse.eq_def]
  dsimp only
  rw [if_neg (by decide), if_neg (by simp), h]

theorem lookupSpec_of_charAt_nul {r : List Char} (h : Sh.charAt r 0 = Sh.nul) : lookupSpec r = none := by
  rw [lookupSpec_eq, h]
  simp [pick, Sh.nul]

theorem parse_percent_none {r : List Char} (h : lookupSpec r = none) :
    parse ('%' :: r) =
      if Sh.charAt r 0 = Sh.nul then []
      else if Sh.charAt r 0 = '%' then .percent :: parse (r.drop 1)
      else .unknown (Sh.charAt r 0) :: parse (r.drop 1) := by
  rw [parse.eq_def]
  dsimp only
  rw [if_neg (by decide), if_neg (by simp), h]
  cases r with
  | nil => rfl
  | cons c0 r0 => rfl

namespace Kernel

/-- BACKSPACE (console.c). -/
def backspace : Nat := 0x100

/-- consputc (console.c), as what uartputc_sync sends: BACKSPACE as
backspace, space, backspace, and any other value as its low byte. -/
def consputc (c : Nat) : List Char :=
  if c = backspace then ['\x08', ' ', '\x08'] else [Char.ofNat (c % 256)]

/-- printf's loop (kernel/printf.c) from `fmt[i]`, with the va_list at slot
`a`; `none` where printint would overrun its buffer. -/
def printfFrom (fmt : List Char) (str : BitVec 64 → List Char) (args : Nat → BitVec 64) (i a : Nat) :
    Option (List Char) :=
  if _hcx : Sh.charAt fmt i = Sh.nul then some []
  else if Sh.charAt fmt i ≠ '%' then
    (printfFrom fmt str args (i + 1) a).map (consputc (Sh.charAt fmt i).toNat ++ ·)
  else
    -- `i++`, then the characters after the `%`, none read past a NUL
    let c0 := Sh.charAt fmt (i + 1)
    let c1 := if c0 ≠ Sh.nul then Sh.charAt fmt (i + 2) else Sh.nul
    let c2 := if c1 ≠ Sh.nul then Sh.charAt fmt (i + 3) else Sh.nul
    match pick c0 c1 c2 with
    | some (k, skip) =>
      (k.render Libc.Kernel.digits consputc str (args a)).bind fun out =>
        (printfFrom fmt str args (i + 2 + skip) (a + 1)).map (out ++ ·)
    | none =>
      if c0 = '%' then (printfFrom fmt str args (i + 2) a).map (consputc '%'.toNat ++ ·)
      else if c0 = Sh.nul then some []
      else (printfFrom fmt str args (i + 2) a).map (consputc '%'.toNat ++ consputc c0.toNat ++ ·)
termination_by fmt.length - i
decreasing_by
  all_goals
    have hlt := Sh.lt_of_charAt_ne _hcx
    omega

/-- printf (kernel/printf.c): what reaches the console. -/
def printf (fmt : List Char) (str : BitVec 64 → List Char) (args : Nat → BitVec 64) : Option (List Char) :=
  printfFrom fmt str args 0 0

/-- printf's loop from `fmt[i]` prints the pieces of the rest of the format. -/
theorem printfFrom_eq (fmt : List Char) (str : BitVec 64 → List Char) (args : Nat → BitVec 64)
    (i a : Nat) :
    printfFrom fmt str args i a = interp Libc.Kernel.digits consputc str args (parse (fmt.drop i)) a := by
  fun_induction printfFrom fmt str args i a with
  | case1 i a hcx =>
    rw [parse_of_charAt_nul (by rwa [charAt_drop])]
    rfl
  | case2 i a hcx hlit ih =>
    rw [ih, drop_eq_charAt_cons hcx, parse_lit hcx hlit]
    rfl
  | case3 i a hcx hpct c0 c1 c2 k n hpick ih =>
    have hspec : lookupSpec (fmt.drop (i + 1)) = some (k, n + 1) := by
      rw [@lookupSpec_drop_of_pick fmt (i + 1) c0 c1 c2 rfl rfl rfl, hpick, Option.map_some]
    rw [ih, drop_eq_charAt_cons hcx, of_not_not hpct, parse_conv hspec, List.drop_drop,
      show i + 1 + (n + 1) = i + 2 + n by omega]
    rfl
  | case4 i a hcx hpct c0 c1 c2 hpick hc0 ih =>
    have hspec : lookupSpec (fmt.drop (i + 1)) = none := by
      rw [@lookupSpec_drop_of_pick fmt (i + 1) c0 c1 c2 rfl rfl rfl, hpick, Option.map_none]
    have hc0' : Sh.charAt fmt (i + 1) = '%' := hc0
    rw [ih, drop_eq_charAt_cons hcx, of_not_not hpct, parse_percent_none hspec, charAt_drop,
      Nat.add_zero, hc0', if_neg (by decide), if_pos rfl, List.drop_drop]
    rfl
  | case5 i a hcx hpct c0 c1 c2 hpick hc0 hnul =>
    have hspec : lookupSpec (fmt.drop (i + 1)) = none := by
      rw [@lookupSpec_drop_of_pick fmt (i + 1) c0 c1 c2 rfl rfl rfl, hpick, Option.map_none]
    have hnul' : Sh.charAt fmt (i + 1) = Sh.nul := hnul
    rw [drop_eq_charAt_cons hcx, of_not_not hpct, parse_percent_none hspec, charAt_drop, Nat.add_zero,
      if_pos hnul']
    rfl
  | case6 i a hcx hpct c0 c1 c2 hpick hc0 hnul ih =>
    have hspec : lookupSpec (fmt.drop (i + 1)) = none := by
      rw [@lookupSpec_drop_of_pick fmt (i + 1) c0 c1 c2 rfl rfl rfl, hpick, Option.map_none]
    have hc0' : Sh.charAt fmt (i + 1) ≠ '%' := hc0
    have hnul' : Sh.charAt fmt (i + 1) ≠ Sh.nul := hnul
    rw [ih, drop_eq_charAt_cons hcx, of_not_not hpct, parse_percent_none hspec, charAt_drop, Nat.add_zero,
      if_neg hnul', if_neg hc0', List.drop_drop]
    rfl

end Kernel

namespace User

/-- putc (user/printf.c): `write(fd, &c, 1)` of `c` as a char. -/
def putc (c : Nat) : List Char := [Char.ofNat (c % 256)]

/-- vprintf's loop (user/printf.c) from `fmt[i]` in `state`, 0 or `'%'` after
a `%`, with the va_list at slot `a`; `none` where printint would overrun its
buffer. -/
def vprintfFrom (fmt : List Char) (str : BitVec 64 → List Char) (args : Nat → BitVec 64) (i a state : Nat) :
    Option (List Char) :=
  if _hc0 : Sh.charAt fmt i = Sh.nul then some []
  else if state = 0 then
    if Sh.charAt fmt i = '%' then vprintfFrom fmt str args (i + 1) a '%'.toNat
    else (vprintfFrom fmt str args (i + 1) a 0).map (putc (Sh.charAt fmt i).toNat ++ ·)
  else if state = '%'.toNat then
    let c0 := Sh.charAt fmt i
    let c1 := if c0 ≠ Sh.nul then Sh.charAt fmt (i + 1) else Sh.nul
    let c2 := if c1 ≠ Sh.nul then Sh.charAt fmt (i + 2) else Sh.nul
    match pick c0 c1 c2 with
    | some (k, skip) =>
      (k.render Libc.User.digits putc str (args a)).bind fun out =>
        (vprintfFrom fmt str args (i + 1 + skip) (a + 1) 0).map (out ++ ·)
    | none =>
      if c0 = '%' then (vprintfFrom fmt str args (i + 1) a 0).map (putc '%'.toNat ++ ·)
      else (vprintfFrom fmt str args (i + 1) a 0).map (putc '%'.toNat ++ putc c0.toNat ++ ·)
  else vprintfFrom fmt str args (i + 1) a state
termination_by fmt.length - i
decreasing_by
  all_goals
    have hlt := Sh.lt_of_charAt_ne _hc0
    omega

/-- vprintf (user/printf.c): what it writes to `fd`. -/
def vprintf (fmt : List Char) (str : BitVec 64 → List Char) (args : Nat → BitVec 64) : Option (List Char) :=
  vprintfFrom fmt str args 0 0 0

/-- vprintf's loop from `fmt[i]` prints the pieces of the rest of the format,
read after a `%` in state `'%'`. -/
theorem vprintfFrom_eq (fmt : List Char) (str : BitVec 64 → List Char) (args : Nat → BitVec 64)
    (i a state : Nat) :
    (state = 0 ∨ state = '%'.toNat) →
      vprintfFrom fmt str args i a state =
        interp Libc.User.digits putc str args
          (parse (if state = '%'.toNat then '%' :: fmt.drop i else fmt.drop i)) a := by
  have hpct : (0 : Nat) ≠ '%'.toNat := by decide
  fun_induction vprintfFrom fmt str args i a state with
  | case1 i a state hc0 =>
    rintro (rfl | rfl)
    · rw [if_neg hpct, parse_of_charAt_nul (by rwa [charAt_drop])]
      rfl
    · rw [if_pos rfl, parse_percent_none (lookupSpec_of_charAt_nul (by rwa [charAt_drop])), charAt_drop,
        Nat.add_zero, if_pos hc0]
      rfl
  | case2 i a hc0 hp ih =>
    intro _
    rw [ih (Or.inr rfl), if_pos rfl, if_neg hpct, drop_eq_charAt_cons hc0, hp]
  | case3 i a hc0 hp ih =>
    intro _
    rw [ih (Or.inl rfl), if_neg hpct, if_neg hpct, drop_eq_charAt_cons hc0, parse_lit hc0 hp]
    rfl
  | case4 i a hc0 c0 c1 c2 k n hpick _ ih =>
    intro _
    have hspec : lookupSpec (fmt.drop i) = some (k, n + 1) := by
      rw [@lookupSpec_drop_of_pick fmt i c0 c1 c2 rfl rfl rfl, hpick, Option.map_some]
    rw [ih (Or.inl rfl), if_pos rfl, if_neg hpct, parse_conv hspec, List.drop_drop,
      show i + (n + 1) = i + 1 + n by omega]
    rfl
  | case5 i a hc0 c0 c1 c2 hpick hp _ ih =>
    intro _
    have hspec : lookupSpec (fmt.drop i) = none := by
      rw [@lookupSpec_drop_of_pick fmt i c0 c1 c2 rfl rfl rfl, hpick, Option.map_none]
    have hp' : Sh.charAt fmt i = '%' := hp
    rw [ih (Or.inl rfl), if_pos rfl, if_neg hpct, parse_percent_none hspec, charAt_drop, Nat.add_zero i,
      if_neg hc0, if_pos hp', List.drop_drop]
    rfl
  | case6 i a hc0 c0 c1 c2 hpick hp _ ih =>
    intro _
    have hspec : lookupSpec (fmt.drop i) = none := by
      rw [@lookupSpec_drop_of_pick fmt i c0 c1 c2 rfl rfl rfl, hpick, Option.map_none]
    have hp' : Sh.charAt fmt i ≠ '%' := hp
    rw [ih (Or.inl rfl), if_pos rfl, if_neg hpct, parse_percent_none hspec, charAt_drop, Nat.add_zero i,
      if_neg hc0, if_neg hp', List.drop_drop]
    rfl
  | case7 i a state hc0 h0 hp _ =>
    -- vprintf is only ever in state 0 or `'%'`
    rintro (h | h) <;> contradiction

/-- atoi's loop (user/ulib.c): `n = n*10 + *s++ - '0'` while `*s` is a
digit, in int arithmetic. -/
def atoiLoop (n : BitVec 32) : List Char → BitVec 32
  | [] => n
  | c :: s =>
    if '0' ≤ c ∧ c ≤ '9' then atoiLoop (n * 10 + BitVec.ofNat 32 c.toNat - BitVec.ofNat 32 '0'.toNat) s else n

/-- atoi (user/ulib.c) of the C string with the characters `s`. -/
def atoi (s : List Char) : BitVec 32 := atoiLoop 0 s

/-! ### atoi reads back what printint writes -/

theorem digit_toNat {d : Nat} (hd : d < 10) : (digit Libc.User.digits d).toNat = 48 + d := by
  revert d
  decide

theorem digit_toNat_lt (d : Nat) : (digit Libc.User.digits d).toNat < 256 := by
  by_cases hd : d < 16
  · revert d
    decide
  · have hlen : Libc.User.digits.length = 16 := rfl
    rw [digit, List.getD_eq_default _ _ (by omega)]
    decide

theorem digit_isDigit {d : Nat} (hd : d < 10) :
    '0' ≤ digit Libc.User.digits d ∧ digit Libc.User.digits d ≤ '9' := by
  revert d
  decide

theorem atoiLoop_step (acc d : Nat) (hd : d < 10) :
    BitVec.ofNat 32 acc * 10 + BitVec.ofNat 32 (digit Libc.User.digits d).toNat -
        BitVec.ofNat 32 '0'.toNat = BitVec.ofNat 32 (acc * 10 + d) := by
  rw [digit_toNat hd]
  apply BitVec.eq_of_toNat_eq
  simp only [BitVec.toNat_sub, BitVec.toNat_add, BitVec.toNat_mul, BitVec.toNat_ofNat]
  have h48 : '0'.toNat = 48 := rfl
  have h10 : (10 : BitVec 32).toNat = 10 := rfl
  rw [h48, h10]
  omega

theorem atoiLoop_digits (ds : List Nat) (hds : ∀ d ∈ ds, d < 10) (acc : Nat) :
    atoiLoop (BitVec.ofNat 32 acc) (ds.map (digit Libc.User.digits)) =
      BitVec.ofNat 32 (ds.foldl (fun n d => n * 10 + d) acc) := by
  induction ds generalizing acc with
  | nil => rfl
  | cons d ds ih =>
    have hd := hds d (List.mem_cons_self ..)
    rw [List.map_cons, atoiLoop, if_pos (digit_isDigit hd), atoiLoop_step acc d hd,
      ih (fun d' hd' => hds d' (List.mem_cons_of_mem _ hd')), List.foldl_cons]

theorem foldl_canonicalDigits (n : Nat) :
    (canonicalDigits 10 n).foldl (fun m d => m * 10 + d) 0 = n := by
  have hfold : ∀ L : List Nat, L.foldr (fun d m => m * 10 + d) 0 = Nat.ofDigits 10 L := by
    intro L
    induction L with
    | nil => rfl
    | cons d L ih =>
      rw [List.foldr_cons, ih, Nat.ofDigits_cons]
      ring
  unfold canonicalDigits
  split_ifs with hn
  · rw [hn]
    rfl
  · rw [List.foldl_reverse, hfold, Nat.ofDigits_digits]

theorem canonicalDigits_lt (n : Nat) : ∀ d ∈ canonicalDigits 10 n, d < 10 := by
  intro d hd
  unfold canonicalDigits at hd
  split_ifs at hd
  · rw [List.mem_singleton.mp hd]
    decide
  · exact Nat.digits_lt_base (by decide) (List.mem_reverse.mp hd)

theorem flatMap_putc {s : List Char} (h : ∀ c ∈ s, c.toNat < 256) : s.flatMap (fun c => putc c.toNat) = s := by
  induction s with
  | nil => rfl
  | cons c s ih =>
    rw [List.flatMap_cons, ih (fun c' hc' => h c' (List.mem_cons_of_mem _ hc')), putc,
      Nat.mod_eq_of_lt (h c (List.mem_cons_self ..)), Char.ofNat_toNat]
    rfl

theorem atoi_render (v : Int) :
    atoi ((render Libc.User.digits 10 v).flatMap fun c => putc c.toNat) =
      if v < 0 then 0 else BitVec.ofNat 32 v.natAbs := by
  have hlt : ∀ c ∈ render Libc.User.digits 10 v, c.toNat < 256 := by
    intro c hc
    rw [render, List.mem_append, List.mem_map] at hc
    rcases hc with hc | ⟨d, -, rfl⟩
    · split_ifs at hc
      · rw [List.mem_singleton.mp hc]
        decide
      · simp at hc
    · exact digit_toNat_lt d
  rw [flatMap_putc hlt, render]
  split_ifs with hv
  · rfl
  · rw [List.nil_append, atoi, show (0 : BitVec 32) = BitVec.ofNat 32 0 from rfl,
      atoiLoop_digits _ (canonicalDigits_lt _), foldl_canonicalDigits]

end User

/-! ### What printf prints -/

theorem natAbs_toInt_of_nonneg {n : Nat} {x : BitVec n} (h : ¬ x.toInt < 0) : x.toInt.natAbs = x.toNat := by
  rw [BitVec.toInt_eq_toNat_cond] at h ⊢
  split_ifs at h ⊢ <;> omega

theorem printf_vprintf_interp (fmt : List Char) (str : BitVec 64 → List Char) (args : Nat → BitVec 64) :
    Kernel.printf fmt str args = interp Libc.Kernel.digits Kernel.consputc str args (parse fmt) 0 ∧
      User.vprintf fmt str args = interp Libc.User.digits User.putc str args (parse fmt) 0 ∧
      (Kernel.printf fmt str args).isSome ∧ (User.vprintf fmt str args).isSome := by
  have hk : Kernel.printf fmt str args = interp Libc.Kernel.digits Kernel.consputc str args (parse fmt) 0 := by
    rw [Kernel.printf, Kernel.printfFrom_eq, List.drop_zero]
  have hu : User.vprintf fmt str args = interp Libc.User.digits User.putc str args (parse fmt) 0 := by
    rw [User.vprintf, User.vprintfFrom_eq fmt str args 0 0 0 (Or.inl rfl), if_neg (by decide), List.drop_zero]
  exact ⟨hk, hu, hk ▸ interp_isSome _ _ _ _ _ _, hu ▸ interp_isSome _ _ _ _ _ _⟩

/-- atoi reads back what vprintf's decimal conversions print of a slot: its
low 32 bits, except that for a negative value of `%d` or `%ld` it stops at the
'-' and returns 0.  Past `2 ^ 31` atoi's int arithmetic wraps, as the value's
low 32 bits do. -/
theorem atoi_printint_decimal (str : BitVec 64 → List Char) (k : Conv)
    (hk : k = .int ∨ k = .long ∨ k = .uint ∨ k = .ulong) (w : BitVec 64) :
    ∃ out, k.render Libc.User.digits User.putc str w = some out ∧
      User.atoi out =
        if (k = .int ∧ (w.setWidth 32).toInt < 0) ∨ (k = .long ∧ w.toInt < 0) then 0 else w.setWidth 32 := by
  rcases hk with rfl | rfl | rfl | rfl
  · refine ⟨_, Conv.render_int _ _ _ w, ?_⟩
    rw [User.atoi_render]
    simp only [true_and, reduceCtorEq, false_and, or_false]
    split_ifs with hneg
    · rfl
    · rw [natAbs_toInt_of_nonneg hneg, BitVec.ofNat_toNat, BitVec.setWidth_eq]
  · refine ⟨_, Conv.render_long _ _ _ w, ?_⟩
    rw [User.atoi_render]
    simp only [true_and, reduceCtorEq, false_and, false_or]
    split_ifs with hneg
    · rfl
    · rw [natAbs_toInt_of_nonneg hneg, BitVec.ofNat_toNat]
  · refine ⟨_, Conv.render_uint _ _ _ w, ?_⟩
    rw [User.atoi_render, if_neg (by omega), if_neg (by simp), Int.natAbs_natCast, BitVec.ofNat_toNat,
      BitVec.setWidth_eq]
  · refine ⟨_, Conv.render_ulong _ _ _ w, ?_⟩
    rw [User.atoi_render, if_neg (by omega), if_neg (by simp), Int.natAbs_natCast, BitVec.ofNat_toNat]

theorem atoi_printint_uint_max :
    (Conv.uint = .int ∨ Conv.uint = .long ∨ Conv.uint = .uint ∨ Conv.uint = .ulong) ∧
      ∃ out, Conv.uint.render Libc.User.digits User.putc (fun _ => []) 0xFFFFFFFF = some out ∧
        User.atoi out =
          if (Conv.uint = .int ∧ ((0xFFFFFFFF : BitVec 64).setWidth 32).toInt < 0) ∨
              (Conv.uint = .long ∧ (0xFFFFFFFF : BitVec 64).toInt < 0) then 0
          else (0xFFFFFFFF : BitVec 64).setWidth 32 :=
  ⟨Or.inr (Or.inr (Or.inl rfl)), atoi_printint_decimal (fun _ => []) .uint (Or.inr (Or.inr (Or.inl rfl))) 0xFFFFFFFF⟩

end Xv6Mlfq.Printf
