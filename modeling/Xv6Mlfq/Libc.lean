import Mathlib.Data.Nat.Digits.Lemmas
import Xv6Mlfq.Library.ByteMem

/-!
The kernel's and the user library's `memmove` (string.c, ulib.c) and
`printint`/`printptr` (kernel/printf.c, user/printf.c).

Memory is `Nat → UInt8` with addresses as naturals: every array these
routines touch lies below `MAXVA`, so no pointer sum wraps.  A 64-bit
argument is a `BitVec 64`; `-xx` wraps as the RISC-V `neg` does.
-/

namespace Xv6Mlfq.Libc

open ByteMem

/-! ### memmove -/

/-- `while(n-- > 0) *d++ = *s++;` -/
def copyForward (m : Nat → UInt8) : (d s n : Nat) → Nat → UInt8
  | _, _, 0 => m
  | d, s, n + 1 => copyForward (write m d (m s)) (d + 1) (s + 1) n

/-- `s += n; d += n; while(n-- > 0) *--d = *--s;` -/
def copyBackward (m : Nat → UInt8) (d s : Nat) : Nat → Nat → UInt8
  | 0 => m
  | n + 1 => copyBackward (write m (d + n) (m (s + n))) d s n

theorem copyForward_eq {m : Nat → UInt8} {d s n : Nat} (h : d ≤ s ∨ s + n ≤ d) :
    copyForward m d s n = copy m d s n := by
  induction n generalizing m d s with
  | zero => simp [copyForward]
  | succ n ih =>
      rw [copyForward, ih (by omega), copy_succ_front (by omega)]

theorem copyBackward_eq {m : Nat → UInt8} {d s n : Nat} (h : s ≤ d ∨ d + n ≤ s) :
    copyBackward m d s n = copy m d s n := by
  induction n generalizing m with
  | zero => simp [copyBackward]
  | succ n ih =>
      rw [copyBackward, ih (by omega), copy_succ_back (by omega)]

namespace Kernel

/-- memmove (kernel/string.c). -/
def memmove (m : Nat → UInt8) (dst src n : Nat) : Nat → UInt8 :=
  if n = 0 then m
  else if src < dst ∧ src + n > dst then copyBackward m dst src n
  else copyForward m dst src n

theorem memmove_eq_copy (m : Nat → UInt8) (dst src n : Nat) :
    memmove m dst src n = copy m dst src n := by
  unfold memmove
  split_ifs with hn hover
  · subst hn
    simp
  · exact copyBackward_eq (by omega)
  · exact copyForward_eq (by omega)

end Kernel

namespace User

/-- memmove (user/ulib.c); `n` is the C `int`. -/
def memmove (m : Nat → UInt8) (vdst vsrc : Nat) (n : Int) : Nat → UInt8 :=
  if vsrc > vdst then copyForward m vdst vsrc n.toNat
  else copyBackward m vdst vsrc n.toNat

theorem memmove_eq_copy (m : Nat → UInt8) (dst src : Nat) (n : Nat) :
    memmove m dst src n = copy m dst src n := by
  unfold memmove
  split_ifs with hs
  · exact copyForward_eq (by omega)
  · exact copyBackward_eq (by omega)

end User

theorem memmove_overlap_safe (m : Nat → UInt8) (dst src n : Nat) :
    ∀ mv ∈ [Kernel.memmove m dst src n, User.memmove m dst src n],
      (∀ i < n, mv (dst + i) = m (src + i)) ∧
        ∀ x, x < dst ∨ dst + n ≤ x → mv x = m x := by
  intro mv hmv
  have hcopy : mv = copy m dst src n := by
    simp only [List.mem_cons, List.not_mem_nil, or_false] at hmv
    rcases hmv with rfl | rfl
    · exact Kernel.memmove_eq_copy m dst src n
    · exact User.memmove_eq_copy m dst src n
  subst hcopy
  refine ⟨fun i hi => ?_, fun x hx => copy_of_not_mem hx⟩
  rw [copy_of_mem (by omega) (by omega), Nat.add_sub_cancel_left]

theorem memmove_overlap_safe_shift :
    User.memmove Nat.toUInt8 1 0 2 ∈
        [Kernel.memmove Nat.toUInt8 1 0 2, User.memmove Nat.toUInt8 1 0 2] ∧
      (∀ i < 2, User.memmove Nat.toUInt8 1 0 2 (1 + i) = Nat.toUInt8 (0 + i)) ∧
        ∀ x, x < 1 ∨ 1 + 2 ≤ x → User.memmove Nat.toUInt8 1 0 2 x = Nat.toUInt8 x :=
  ⟨by simp, memmove_overlap_safe Nat.toUInt8 1 0 2 _ (by simp)⟩

/-! ### Digit strings -/

/-- The NUL that ends the C array of digits. -/
def nul : Char := Char.ofNat 0

/-- `digits[d]` of a digit table. -/
def digit (digits : List Char) (d : Nat) : Char := digits.getD d nul

/-- The canonical base-`b` digits of `n`, most significant first; `[0]` for zero. -/
def canonicalDigits (b n : Nat) : List Nat :=
  if n = 0 then [0] else (Nat.digits b n).reverse

/-- The `k` least significant base-`b` digits of `n`, most significant first. -/
def paddedDigits (b : Nat) : Nat → Nat → List Nat
  | 0, _ => []
  | k + 1, n => paddedDigits b k (n / b) ++ [n % b]

/-- The text of `v` in base `b` over a digit table: a '-' for a negative value,
then the canonical digits of its absolute value. -/
def render (digits : List Char) (b : Nat) (v : Int) : List Char :=
  (if v < 0 then ['-'] else []) ++ (canonicalDigits b v.natAbs).map (digit digits)

section Digits

variable {b k n : Nat}

theorem canonicalDigits_of_lt (h : n < b) : canonicalDigits b n = [n] := by
  unfold canonicalDigits
  split_ifs with hn
  · rw [hn]
  · rw [Nat.digits_of_lt b n hn h, List.reverse_singleton]

theorem canonicalDigits_of_le (hb : 1 < b) (h : b ≤ n) :
    canonicalDigits b n = canonicalDigits b (n / b) ++ [n % b] := by
  have hn : n ≠ 0 := by omega
  have hq : n / b ≠ 0 := by
    rw [Ne, Nat.div_eq_zero_iff]
    omega
  unfold canonicalDigits
  rw [if_neg hn, if_neg hq, Nat.digits_def' hb (by omega), List.reverse_cons]

theorem length_canonicalDigits_le (hb : 1 < b) (hk : 0 < k) (h : n < b ^ k) :
    (canonicalDigits b n).length ≤ k := by
  unfold canonicalDigits
  split_ifs with hn
  · simp only [List.length_singleton]
    omega
  · rw [List.length_reverse]
    exact (Nat.digits_length_le_iff hb n).mpr h

theorem canonicalDigits_ne_nil : canonicalDigits b n ≠ [] := by
  unfold canonicalDigits
  split_ifs with hn
  · simp
  · simpa using Nat.digits_ne_nil_iff_ne_zero.mpr hn

theorem paddedDigits_succ_front :
    paddedDigits b (k + 1) n = n / b ^ k % b :: paddedDigits b k n := by
  induction k generalizing n with
  | zero => simp [paddedDigits]
  | succ k ih =>
      rw [paddedDigits, ih, paddedDigits, Nat.div_div_eq_div_mul, ← Nat.pow_succ']
      rfl

theorem paddedDigits_mod : paddedDigits b k (n % b ^ k) = paddedDigits b k n := by
  induction k generalizing n with
  | zero => rfl
  | succ k ih =>
      rw [paddedDigits, paddedDigits, Nat.pow_succ', Nat.mod_mul_right_div_self, ih,
        Nat.mod_mul_right_mod]

theorem paddedDigits_zero : paddedDigits b k 0 = List.replicate k 0 := by
  induction k with
  | zero => rfl
  | succ k ih => rw [paddedDigits, Nat.zero_div, ih, Nat.zero_mod, List.replicate_succ']

theorem paddedDigits_eq (hb : 1 < b) (hk : 0 < k) (h : n < b ^ k) :
    paddedDigits b k n =
      List.replicate (k - (canonicalDigits b n).length) 0 ++ canonicalDigits b n := by
  induction k generalizing n with
  | zero => omega
  | succ k ih =>
      rw [paddedDigits]
      by_cases hn : n < b
      · rw [Nat.div_eq_of_lt hn, paddedDigits_zero, Nat.mod_eq_of_lt hn,
          canonicalDigits_of_lt hn]
        simp
      · have hk' : 0 < k := by
          rcases k with _ | k
          · simp at h; omega
          · omega
        have hq : n / b < b ^ k := by
          rw [Nat.div_lt_iff_lt_mul (by omega), ← Nat.pow_succ]
          exact h
        have hlen := length_canonicalDigits_le hb hk' hq
        rw [ih hk' hq, canonicalDigits_of_le (n := n) hb (by omega), List.length_append,
          List.length_singleton, List.append_assoc]
        congr 2
        omega

end Digits

/-! ### printint and printptr -/

/-- printint's do-while loop, `buf[i++] = digits[x % base]` until `x /= base`
is zero, with `room` bytes of `buf` left: the digits written, least significant
first, and the room left after them; `none` is a write past the end of `buf`. -/
def fillDigits (digits : List Char) (base : Nat) : (room x : Nat) → Option (List Char × Nat)
  | 0, _ => none
  | room + 1, x =>
      if x / base = 0 then some ([digit digits (x % base)], room)
      else (fillDigits digits base room (x / base)).map fun r => (digit digits (x % base) :: r.1, r.2)

/-- printint with its digit table: the characters it emits, or `none` where it
would write past its 20-byte `buf`. -/
def printintWith (digits : List Char) (xx : BitVec 64) (base : Nat) (sign : Bool) :
    Option (List Char) :=
  let neg := sign && decide (xx.toInt < 0)
  let x := if neg then (-xx).toNat else xx.toNat
  match fillDigits digits base 20 x with
  | none => none
  | some (buf, room) =>
      if neg then (if room = 0 then none else some ('-' :: buf.reverse))
      else some buf.reverse

/-- printptr's loop: `digits[x >> 60]`, then `x <<= 4`, `count` times. -/
def ptrDigits (digits : List Char) : (count : Nat) → BitVec 64 → List Char
  | 0, _ => []
  | count + 1, x => digit digits (x >>> 60).toNat :: ptrDigits digits count (x <<< 4)

/-- printptr with its digit table. -/
def printptrWith (digits : List Char) (x : BitVec 64) : List Char :=
  '0' :: 'x' :: ptrDigits digits 16 x

namespace Kernel

/-- `digits` of kernel/printf.c. -/
def digits : List Char := "0123456789abcdef".toList

/-- printint (kernel/printf.c): the characters passed to consputc. -/
def printint (xx : BitVec 64) (base : Nat) (sign : Bool) : Option (List Char) :=
  printintWith digits xx base sign

/-- printptr (kernel/printf.c). -/
def printptr (x : BitVec 64) : List Char := printptrWith digits x

theorem digit_eq_digitChar {d : Nat} (hd : d < 16) : digit digits d = Nat.digitChar d := by
  revert d
  decide

theorem canonicalDigits_map_digit {b : Nat} (hb : 1 < b) (hb' : b ≤ 16) (n : Nat) :
    (canonicalDigits b n).map (digit digits) = Nat.toDigits b n := by
  induction n using Nat.strong_induction_on with
  | _ n ih =>
      rw [Nat.toDigits_eq_if hb]
      split_ifs with hn
      · rw [canonicalDigits_of_lt hn, List.map_singleton, digit_eq_digitChar (by omega)]
      · have hq : n / b < n := Nat.div_lt_self (by omega) hb
        rw [canonicalDigits_of_le hb (by omega), List.map_append, ih _ hq, List.map_singleton,
          digit_eq_digitChar (by have := Nat.mod_lt n (by omega : b > 0); omega)]

end Kernel

namespace User

/-- `digits` of user/printf.c. -/
def digits : List Char := "0123456789ABCDEF".toList

/-- printint (user/printf.c): the characters passed to putc. -/
def printint (xx : BitVec 64) (base : Nat) (sgn : Bool) : Option (List Char) :=
  printintWith digits xx base sgn

/-- printptr (user/printf.c). -/
def printptr (x : BitVec 64) : List Char := printptrWith digits x

end User

section Printint

variable {digits : List Char} {base room x : Nat}

/-- With room for all of them, the loop writes the canonical digits, least
significant first. -/
theorem fillDigits_eq (hb : 1 < base) (h : (canonicalDigits base x).length ≤ room) :
    fillDigits digits base room x =
      some (((canonicalDigits base x).map (digit digits)).reverse,
        room - (canonicalDigits base x).length) := by
  induction room generalizing x with
  | zero =>
      have : (canonicalDigits base x).length ≠ 0 := by
        simpa using canonicalDigits_ne_nil
      omega
  | succ room ih =>
      rw [fillDigits]
      by_cases hx : x < base
      · rw [if_pos (Nat.div_eq_of_lt hx), canonicalDigits_of_lt hx, Nat.mod_eq_of_lt hx]
        rfl
      · have hq : x / base ≠ 0 := by
          rw [Ne, Nat.div_eq_zero_iff]
          omega
        have hsplit := canonicalDigits_of_le (n := x) hb (by omega)
        have hlen : (canonicalDigits base (x / base)).length ≤ room := by
          rw [hsplit, List.length_append, List.length_singleton] at h
          omega
        rw [if_neg hq, ih hlen, hsplit]
        simp only [Option.map_some, List.map_append, List.map_cons, List.map_nil,
          List.reverse_append, List.reverse_singleton, List.singleton_append,
          List.length_append, List.length_singleton]
        congr 2
        omega

theorem neg_toNat_eq_natAbs {xx : BitVec 64} (h : xx.toInt < 0) :
    (-xx).toNat = xx.toInt.natAbs := by
  rw [BitVec.toInt_eq_toNat_cond] at h ⊢
  have hlt := xx.isLt
  split_ifs at h ⊢ with hc
  · omega
  · rw [BitVec.toNat_neg, Nat.mod_eq_of_lt (by omega)]
    omega

theorem toInt_natAbs_le {xx : BitVec 64} (h : xx.toInt < 0) : xx.toInt.natAbs ≤ 2 ^ 63 := by
  have := BitVec.le_toInt xx
  omega

theorem toNat_eq_natAbs {xx : BitVec 64} (h : ¬ xx.toInt < 0) : xx.toNat = xx.toInt.natAbs := by
  rw [BitVec.toInt_eq_toNat_cond] at h ⊢
  split_ifs at h ⊢ <;> omega

/-- printint emits `render` of the value it is given, and its digits fit `buf`:
every value below `2 ^ 64` has at most 20 digits in base 10 and 16, and a
negative one at most 19, leaving room for the '-'. -/
theorem printintWith_eq (xx : BitVec 64) (hbase : base = 10 ∨ base = 16) (sign : Bool) :
    printintWith digits xx base sign =
      some (render digits base (if sign then xx.toInt else xx.toNat)) := by
  have hb : 1 < base := by omega
  have hpow : 2 ^ 64 ≤ base ^ 20 := by rcases hbase with rfl | rfl <;> decide
  have hpow' : 2 ^ 63 < base ^ 19 := by rcases hbase with rfl | rfl <;> decide
  unfold printintWith
  by_cases hneg : sign = true ∧ xx.toInt < 0
  · obtain ⟨rfl, hlt⟩ := hneg
    have habs := toInt_natAbs_le hlt
    have hlen := length_canonicalDigits_le (k := 19) hb (by omega) (by omega : xx.toInt.natAbs < base ^ 19)
    simp only [Bool.true_and, decide_eq_true hlt, if_true, neg_toNat_eq_natAbs hlt,
      fillDigits_eq hb (by omega : (canonicalDigits base xx.toInt.natAbs).length ≤ 20)]
    rw [if_neg (by omega), render, if_pos hlt, List.reverse_reverse]
    rfl
  · have hx : (if sign then xx.toInt else (xx.toNat : Int)).natAbs = xx.toNat := by
      split_ifs with hs
      · exact (toNat_eq_natAbs (by simp_all)).symm
      · rfl
    have hnn : ¬ (if sign then xx.toInt else (xx.toNat : Int)) < 0 := by
      split_ifs with hs
      · simp_all
      · omega
    have hlen := length_canonicalDigits_le (k := 20) hb (by omega)
      (lt_of_lt_of_le xx.isLt hpow : xx.toNat < base ^ 20)
    have hsign : (sign && decide (xx.toInt < 0)) = false := by
      cases sign <;> simp_all
    simp only [hsign, Bool.false_eq_true, if_false, fillDigits_eq hb hlen]
    rw [render, if_neg hnn, hx, List.nil_append, List.reverse_reverse]

theorem ptrDigits_eq {count : Nat} (hc : count ≤ 16) (x : BitVec 64) :
    ptrDigits digits count x =
      (paddedDigits 16 count (x.toNat / 16 ^ (16 - count))).map (digit digits) := by
  induction count generalizing x with
  | zero => rfl
  | succ count ih =>
      have hx := x.isLt
      have hfirst : (x >>> 60).toNat = x.toNat / 16 ^ (16 - (count + 1)) / 16 ^ count % 16 := by
        rw [Nat.div_div_eq_div_mul, ← Nat.pow_add, show 16 - (count + 1) + count = 15 by omega,
          BitVec.toNat_ushiftRight, Nat.shiftRight_eq_div_pow, Nat.mod_eq_of_lt]
        rw [Nat.div_lt_iff_lt_mul (by decide)]
        exact lt_of_lt_of_eq hx (by decide)
      have hrest : (x <<< 4).toNat / 16 ^ (16 - count) % 16 ^ count =
          x.toNat / 16 ^ (16 - (count + 1)) % 16 ^ count := by
        have h16 : (2 : Nat) ^ 64 = 16 ^ (16 - count) * 16 ^ count := by
          rw [← Nat.pow_add, show 16 - count + count = 16 by omega]
          rfl
        have hsplit : 16 ^ (16 - count) = 16 * 16 ^ (16 - (count + 1)) := by
          rw [show 16 - count = 16 - (count + 1) + 1 by omega, Nat.pow_succ, Nat.mul_comm]
        rw [BitVec.toNat_shiftLeft, Nat.shiftLeft_eq, h16, Nat.mod_mul_right_div_self,
          Nat.mod_mod, hsplit, show x.toNat * 2 ^ 4 = 16 * x.toNat by omega,
          Nat.mul_div_mul_left _ _ (by omega)]
      rw [ptrDigits, ih (by omega), ← paddedDigits_mod, hrest, paddedDigits_mod,
        paddedDigits_succ_front, List.map_cons, hfirst]

theorem printptrWith_eq (x : BitVec 64) :
    printptrWith digits x = '0' :: 'x' :: (paddedDigits 16 16 x.toNat).map (digit digits) := by
  rw [printptrWith, ptrDigits_eq le_rfl, Nat.sub_self, Nat.pow_zero, Nat.div_one]

end Printint

theorem printint_exact (xx : BitVec 64) (base : Nat) (hbase : base = 10 ∨ base = 16)
    (sign : Bool) (x : BitVec 64) :
    Kernel.printint xx base sign =
        some (render Kernel.digits base (if sign then xx.toInt else xx.toNat)) ∧
      User.printint xx base sign =
        some (render User.digits base (if sign then xx.toInt else xx.toNat)) ∧
      Kernel.printptr x = '0' :: 'x' :: (paddedDigits 16 16 x.toNat).map (digit Kernel.digits) ∧
      User.printptr x = '0' :: 'x' :: (paddedDigits 16 16 x.toNat).map (digit User.digits) :=
  ⟨printintWith_eq xx hbase sign, printintWith_eq xx hbase sign, printptrWith_eq x,
    printptrWith_eq x⟩

theorem printint_exact_min :
    (10 = 10 ∨ 10 = 16) ∧
      Kernel.printint (BitVec.intMin 64) 10 true =
        some (render Kernel.digits 10 (BitVec.intMin 64).toInt) :=
  ⟨Or.inl rfl, by simpa using (printint_exact (BitVec.intMin 64) 10 (Or.inl rfl) true 0).1⟩

example : Kernel.printint (BitVec.intMin 64) 10 true = some "-9223372036854775808".toList := by
  decide

example : User.printptr 0xBEEF = "0x000000000000BEEF".toList := by
  decide

end Xv6Mlfq.Libc
