import Mathlib.Data.List.GetD
import Mathlib.Data.Nat.Basic
import Mathlib.Algebra.GroupWithZero.Nat

/-!
Byte-addressed memory.  A memory is a function from addresses to bytes; a
word of `n` bytes is read and written little-endian, `fill` is `memset`,
`copy` is `memmove`, and `put` writes a buffer of bytes.  Each operation comes
with its same-range and disjoint-range lemmas, so that callers never unfold it.
-/

namespace ByteMem

/-- The little-endian value of the `n` bytes of `m` from address `a`. -/
def load (m : Nat → UInt8) (a : Nat) : Nat → Nat
  | 0 => 0
  | n + 1 => (m a).toNat + 256 * load m (a + 1) n

/-- `m` with the `n` bytes from `a` holding `v` little-endian. -/
def store (m : Nat → UInt8) (a n v : Nat) (x : Nat) : UInt8 :=
  if a ≤ x ∧ x < a + n then UInt8.ofNat (v / 256 ^ (x - a)) else m x

/-- `memset`: the `n` bytes from `a` set to `c`. -/
def fill (m : Nat → UInt8) (a n : Nat) (c : UInt8) (x : Nat) : UInt8 :=
  if a ≤ x ∧ x < a + n then c else m x

/-- `memmove`: the `n` bytes from `src` copied to `dst`, reading the old memory. -/
def copy (m : Nat → UInt8) (dst src n : Nat) (x : Nat) : UInt8 :=
  if dst ≤ x ∧ x < dst + n then m (src + (x - dst)) else m x

/-- One byte written at `a`. -/
def write (m : Nat → UInt8) (a : Nat) (b : UInt8) (x : Nat) : UInt8 :=
  if x = a then b else m x

/-- The buffer `bs` written from address `a`. -/
def put (m : Nat → UInt8) (a : Nat) (bs : List UInt8) (x : Nat) : UInt8 :=
  if a ≤ x ∧ x < a + bs.length then bs.getD (x - a) 0 else m x

/-- The `n` bytes of `m` from address `a`. -/
def bytes (m : Nat → UInt8) (a n : Nat) : List UInt8 :=
  (List.range n).map fun k => m (a + k)

/-- Two memories agree on the `n` bytes from `a`. -/
def Agree (m m' : Nat → UInt8) (a n : Nat) : Prop :=
  ∀ x, a ≤ x → x < a + n → m' x = m x

section Load

variable {m m' : Nat → UInt8} {a b n k v : Nat}

theorem load_congr (h : Agree m m' a n) : load m' a n = load m a n := by
  induction n generalizing a with
  | zero => rfl
  | succ n ih =>
    have hrest : Agree m m' (a + 1) n := fun x hx hx' => h x (by omega) (by omega)
    rw [load, load, h a le_rfl (by omega), ih hrest]

@[simp] theorem load_zero_fill (hb : a ≤ b) (hk : b + k ≤ a + n) :
    load (fill m a n 0) b k = 0 := by
  induction k generalizing b with
  | zero => rfl
  | succ k ih =>
    have hx : fill m a n 0 b = 0 := by simp [fill]; omega
    rw [load, hx, ih (by omega) (by omega)]
    rfl

end Load

section Store

variable {m : Nat → UInt8} {a b n k v x : Nat}

theorem store_of_lt (h : x < a) : store m a n v x = m x := by
  simp [store]; omega

theorem store_of_ge (h : a + n ≤ x) : store m a n v x = m x := by
  simp [store]; omega

theorem agree_store_succ :
    Agree (store m (a + 1) n (v / 256)) (store m a (n + 1) v) (a + 1) n := by
  intro x hx hx'
  have hsub : x - a = (x - (a + 1)) + 1 := by omega
  simp only [store, hsub, Nat.pow_succ', Nat.div_div_eq_div_mul]
  rw [if_pos (by omega), if_pos (by omega)]

@[simp] theorem load_store_self : load (store m a n v) a n = v % 256 ^ n := by
  induction n generalizing a v with
  | zero => simp [load, Nat.mod_one]
  | succ n ih =>
    have hfirst : (store m a (n + 1) v a).toNat = v % 256 := by simp [store]
    rw [load, hfirst, load_congr agree_store_succ, ih, Nat.pow_succ', Nat.mod_mul]

end Store

section Fill

variable {m : Nat → UInt8} {a b n k x : Nat} {c c' : UInt8}

theorem fill_of_lt (h : x < a) : fill m a n c x = m x := by
  simp [fill]; omega

theorem fill_of_ge (h : a + n ≤ x) : fill m a n c x = m x := by
  simp [fill]; omega

@[simp] theorem fill_fill_self : fill (fill m a n c) a n c' = fill m a n c' := by
  funext x
  simp only [fill]
  split_ifs <;> rfl

end Fill

section Copy

variable {m : Nat → UInt8} {d s n x : Nat}

theorem copy_of_mem (h : d ≤ x) (h' : x < d + n) : copy m d s n x = m (s + (x - d)) := by
  simp [copy]; omega

theorem copy_of_not_mem (h : x < d ∨ d + n ≤ x) : copy m d s n x = m x := by
  simp [copy]; omega

theorem copy_succ_front (h : d ≤ s ∨ s + n + 1 ≤ d) :
    copy (write m d (m s)) (d + 1) (s + 1) n = copy m d s (n + 1) := by
  funext x
  simp only [copy, write]
  split_ifs <;> first | rfl | (congr 1; omega)

theorem copy_succ_back (h : s ≤ d ∨ d + n + 1 ≤ s) :
    copy (write m (d + n) (m (s + n))) d s n = copy m d s (n + 1) := by
  funext x
  simp only [copy, write]
  split_ifs <;> first | rfl | (congr 1; omega)

@[simp] theorem copy_zero : copy m d s 0 = m := by
  funext x
  exact copy_of_not_mem (by omega)

end Copy

section Agree

variable {m m' m'' : Nat → UInt8} {a b n k v : Nat} {c : UInt8}

theorem Agree.refl (m : Nat → UInt8) (a n : Nat) : Agree m m a n := fun _ _ _ => rfl

theorem Agree.trans (h : Agree m m' a n) (h' : Agree m' m'' a n) : Agree m m'' a n :=
  fun x hx hx' => (h' x hx hx').trans (h x hx hx')

theorem Agree.mono (h : Agree m m' a n) (hb : a ≤ b) (hk : b + k ≤ a + n) : Agree m m' b k :=
  fun x hx hx' => h x (by omega) (by omega)

theorem agree_fill (h : b + k ≤ a ∨ a + n ≤ b) : Agree m (fill m a n c) b k := by
  intro x hx hx'
  rcases h with h | h
  · exact fill_of_lt (by omega)
  · exact fill_of_ge (by omega)

theorem agree_store (h : b + k ≤ a ∨ a + n ≤ b) : Agree m (store m a n v) b k := by
  intro x hx hx'
  rcases h with h | h
  · exact store_of_lt (by omega)
  · exact store_of_ge (by omega)

theorem agree_copy {src : Nat} (h : b + k ≤ a ∨ a + n ≤ b) : Agree m (copy m a src n) b k :=
  fun _ hx hx' => copy_of_not_mem (by omega)

end Agree

end ByteMem
