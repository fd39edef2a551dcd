import Mathlib.Data.List.Basic
import Mathlib.Data.Nat.ModEq
import Mathlib.Logic.Function.Basic

/-!
Ring buffers indexed by free-running counters.  A buffer of `N` cells is read
and written at counter values taken modulo `N`; the counters themselves are
32-bit and wrap around, and the distance between two of them is their unsigned
difference.  When `N` divides `2^32` a wrap of the counters is invisible to the
cells.  `window buf a k` is the contents of the `k` cells from counter value
`a` on, oldest first.
-/

namespace Ring

/-- The unsigned distance from counter `a` to counter `b`. -/
def dist (a b : UInt32) : Nat := (b - a).toNat

section Dist

variable {a b c : UInt32}

@[simp] theorem dist_self : dist a a = 0 := by simp [dist]

theorem dist_eq_zero : dist a b = 0 ↔ a = b := by
  constructor
  · intro h
    have ha := a.toNat_lt
    have hb := b.toNat_lt
    simp only [dist, UInt32.toNat_sub] at h
    apply UInt32.toNat_inj.mp
    omega
  · rintro rfl
    exact dist_self

theorem dist_add_one_right (h : dist a b + 1 < 2 ^ 32) : dist a (b + 1) = dist a b + 1 := by
  have ha := a.toNat_lt
  have hb := b.toNat_lt
  simp only [dist, UInt32.toNat_sub, UInt32.toNat_add, UInt32.toNat_one] at h ⊢
  omega

theorem dist_add_one_left (h : a ≠ b) : dist (a + 1) b + 1 = dist a b := by
  have hne : a.toNat ≠ b.toNat := fun h' => h (UInt32.toNat_inj.mp h')
  have ha := a.toNat_lt
  have hb := b.toNat_lt
  simp only [dist, UInt32.toNat_sub, UInt32.toNat_add, UInt32.toNat_one]
  omega

theorem dist_sub_one_right (h : a ≠ b) : dist a (b - 1) + 1 = dist a b := by
  have hne : a.toNat ≠ b.toNat := fun h' => h (UInt32.toNat_inj.mp h')
  have ha := a.toNat_lt
  have hb := b.toNat_lt
  simp only [dist, UInt32.toNat_sub, UInt32.toNat_one]
  omega

theorem dist_add (h : dist a b + dist b c < 2 ^ 32) : dist a c = dist a b + dist b c := by
  have ha := a.toNat_lt
  have hb := b.toNat_lt
  have hc := c.toNat_lt
  simp only [dist, UInt32.toNat_sub] at h ⊢
  omega

theorem dist_sub (h : dist a b ≤ dist a c) : dist b c = dist a c - dist a b := by
  have ha := a.toNat_lt
  have hb := b.toNat_lt
  have hc := c.toNat_lt
  simp only [dist, UInt32.toNat_sub] at h ⊢
  omega

theorem toNat_eq_add_dist : b.toNat = (a.toNat + dist a b) % 2 ^ 32 := by
  have ha := a.toNat_lt
  have hb := b.toNat_lt
  simp only [dist, UInt32.toNat_sub]
  omega

end Dist

theorem add_mod_ne {N a j d : Nat} (hj : j < d) (hd : d < N) : (a + j) % N ≠ (a + d) % N := by
  intro heq
  have hmod : j % N = d % N := Nat.ModEq.add_left_cancel' a heq
  rw [Nat.mod_eq_of_lt (Nat.lt_trans hj hd), Nat.mod_eq_of_lt hd] at hmod
  omega

theorem sub_mod_of_lt {M a i : Nat} (ha : a < M) (hi : i < M) :
    (i + M - a) % M = if a ≤ i then i - a else i + M - a := by
  split_ifs with h
  · rw [show i + M - a = i - a + M by omega, Nat.add_mod_right, Nat.mod_eq_of_lt (by omega)]
  · exact Nat.mod_eq_of_lt (by omega)

theorem succ_mod_of_lt {M i : Nat} (hi : i < M) : (i + 1) % M = if i + 1 < M then i + 1 else 0 := by
  split_ifs with h
  · exact Nat.mod_eq_of_lt h
  · rw [show i + 1 = M by omega, Nat.mod_self]

theorem add_sub_mod_mod {N M : Nat} (hNM : N ∣ M) {a i : Nat} (ha : a < M) (hi : i < M) :
    (a + (i + M - a) % M) % N = i % N := by
  obtain ⟨c, rfl⟩ := hNM
  rw [sub_mod_of_lt ha hi]
  split_ifs with h
  · rw [Nat.add_sub_cancel' h]
  · rw [show a + (i + N * c - a) = i + N * c by omega, Nat.add_mul_mod_self_left]

variable {α : Type*} {N : Nat} [NeZero N]

/-- The cell of counter value `i`: `buf[i % N]`. -/
def cell (buf : Fin N → α) (i : Nat) : α := buf ⟨i % N, Nat.mod_lt _ (Nat.pos_of_ne_zero (NeZero.ne N))⟩

/-- `buf[i % N] = x`. -/
def write (buf : Fin N → α) (i : Nat) (x : α) : Fin N → α :=
  Function.update buf ⟨i % N, Nat.mod_lt _ (Nat.pos_of_ne_zero (NeZero.ne N))⟩ x

/-- The `k` cells from counter value `a` on, oldest first. -/
def window (buf : Fin N → α) (a : Nat) : Nat → List α
  | 0 => []
  | k + 1 => window buf a k ++ [cell buf (a + k)]

section Cells

variable (buf : Fin N → α)

theorem cell_congr {i j : Nat} (h : i % N = j % N) : cell buf i = cell buf j := by
  simp only [cell, h]

theorem cell_mod_pow (hN : N ∣ 2 ^ 32) (i : Nat) : cell buf (i % 2 ^ 32) = cell buf i :=
  cell_congr buf (Nat.mod_mod_of_dvd i hN)

@[simp] theorem cell_write_self (i : Nat) (x : α) : cell (write buf i x) i = x := by
  simp [cell, write]

theorem cell_write_ne {i j : Nat} (x : α) (h : j % N ≠ i % N) :
    cell (write buf i x) j = cell buf j := by
  simp only [cell, write]
  apply Function.update_of_ne
  intro h'
  exact h (Fin.mk.inj h')

@[simp] theorem window_zero (a : Nat) : window buf a 0 = [] := rfl

theorem window_succ (a k : Nat) : window buf a (k + 1) = window buf a k ++ [cell buf (a + k)] := rfl

@[simp] theorem length_window (a k : Nat) : (window buf a k).length = k := by
  induction k with
  | zero => rfl
  | succ k ih => simp [window_succ, ih]

theorem window_congr {a b : Nat} (h : a % N = b % N) (k : Nat) : window buf a k = window buf b k := by
  induction k with
  | zero => rfl
  | succ k ih =>
      rw [window_succ, window_succ, ih]
      congr 2
      apply cell_congr
      rw [Nat.add_mod, h, ← Nat.add_mod]

theorem window_mod_pow (hN : N ∣ 2 ^ 32) (a k : Nat) : window buf (a % 2 ^ 32) k = window buf a k :=
  window_congr buf (Nat.mod_mod_of_dvd a hN) k

theorem window_dist (hN : N ∣ 2 ^ 32) (a b : UInt32) (k : Nat) :
    window buf (a.toNat + dist a b) k = window buf b.toNat k := by
  rw [toNat_eq_add_dist (a := a) (b := b), window_mod_pow buf hN]

theorem cell_dist (hN : N ∣ 2 ^ 32) (a b : UInt32) :
    cell buf (a.toNat + dist a b) = cell buf b.toNat := by
  rw [toNat_eq_add_dist (a := a) (b := b), cell_mod_pow buf hN]

theorem window_cons (a k : Nat) : window buf a (k + 1) = cell buf a :: window buf (a + 1) k := by
  induction k with
  | zero => rfl
  | succ k ih =>
      rw [window_succ, ih, window_succ, List.cons_append, Nat.add_right_comm a 1 k, Nat.add_assoc]

theorem window_add (a j k : Nat) : window buf a (j + k) = window buf a j ++ window buf (a + j) k := by
  induction k with
  | zero => simp
  | succ k ih =>
      rw [← Nat.add_assoc, window_succ, ih, window_succ, List.append_assoc, Nat.add_assoc]

theorem window_write_outside {a k i : Nat} (x : α) (h : ∀ j < k, (a + j) % N ≠ i % N) :
    window (write buf i x) a k = window buf a k := by
  induction k with
  | zero => rfl
  | succ k ih =>
      rw [window_succ, window_succ, ih fun j hj => h j (Nat.lt_succ_of_lt hj),
        cell_write_ne buf x (h k (Nat.lt_succ_self k))]

theorem write_congr {i j : Nat} (x : α) (h : i % N = j % N) : write buf i x = write buf j x := by
  simp only [write, h]

theorem window_write_push {a k : Nat} (x : α) (hk : k < N) :
    window (write buf (a + k) x) a (k + 1) = window buf a k ++ [x] := by
  rw [window_succ, cell_write_self]
  congr 1
  exact window_write_outside buf x fun j hj => add_mod_ne hj hk

section Counters

variable (hN : N ∣ 2 ^ 32)
include hN

theorem write_dist (a b : UInt32) (x : α) : write buf b.toNat x = write buf (a.toNat + dist a b) x :=
  write_congr buf x (by rw [toNat_eq_add_dist (a := a) (b := b), Nat.mod_mod_of_dvd _ hN])

theorem window_write_ahead {a b : UInt32} {k : Nat} (x : α) (hk : k ≤ dist a b) (hb : dist a b < N) :
    window (write buf b.toNat x) a.toNat k = window buf a.toNat k := by
  rw [write_dist buf hN a b]
  exact window_write_outside buf x fun j hj => add_mod_ne (Nat.lt_of_lt_of_le hj hk) hb

theorem window_write_next {a b : UInt32} (x : α) (hb : dist a b < N) :
    window (write buf b.toNat x) a.toNat (dist a b + 1) = window buf a.toNat (dist a b) ++ [x] := by
  rw [write_dist buf hN a b]
  exact window_write_push buf x hb

theorem window_push {a b : UInt32} (x : α) (hlt : N < 2 ^ 32) (hb : dist a b < N) :
    window (write buf b.toNat x) a.toNat (dist a (b + 1)) = window buf a.toNat (dist a b) ++ [x] := by
  rw [dist_add_one_right (Nat.lt_of_le_of_lt (Nat.succ_le_of_lt hb) hlt)]
  exact window_write_next buf hN x hb

theorem window_pop {a b : UInt32} (hne : a ≠ b) :
    window buf a.toNat (dist a b) = cell buf a.toNat :: window buf (a + 1).toNat (dist (a + 1) b) := by
  have hpop : dist (a + 1) b + 1 = dist a b := dist_add_one_left hne
  rw [← hpop, window_cons, UInt32.toNat_add, UInt32.toNat_one, window_mod_pow buf hN]

end Counters

section Modulo

/-! Counters kept as numbers below `M`, advanced by `(i + 1) % M`, where `N`
divides `M`: the 16-bit indices of a virtio ring. -/

variable {M : Nat}

theorem window_push_mod (hNM : N ∣ M) (hlt : N < M) {a i : Nat} (ha : a < M) (hi : i < M)
    (hk : (i + M - a) % M < N) (x : α) :
    window (write buf i x) a (((i + 1) % M + M - a) % M) = window buf a ((i + M - a) % M) ++ [x] := by
  have hsucc : ((i + 1) % M + M - a) % M = (i + M - a) % M + 1 := by
    -- the window is short of M, so advancing i does not bring it back to a
    have hk' := hk
    rw [sub_mod_of_lt ha hi] at hk'
    rw [succ_mod_of_lt hi, sub_mod_of_lt ha hi]
    by_cases h₁ : i + 1 < M
    · rw [if_pos h₁, sub_mod_of_lt ha h₁]
      split_ifs at hk' ⊢ <;> omega
    · rw [if_neg h₁, sub_mod_of_lt ha (by omega : 0 < M)]
      split_ifs at hk' ⊢ <;> omega
  rw [hsucc, write_congr buf x (add_sub_mod_mod hNM ha hi).symm]
  exact window_write_push buf x hk

theorem window_pop_mod (hNM : N ∣ M) {a i : Nat} (ha : a < M) (hi : i < M) (hne : a ≠ i) :
    window buf a ((i + M - a) % M) = cell buf a :: window buf ((a + 1) % M) ((i + M - (a + 1) % M) % M) := by
  have hpop : (i + M - (a + 1) % M) % M + 1 = (i + M - a) % M := by
    rw [succ_mod_of_lt ha, sub_mod_of_lt ha hi]
    by_cases h₁ : a + 1 < M
    · rw [if_pos h₁, sub_mod_of_lt h₁ hi]
      split_ifs <;> omega
    · rw [if_neg h₁, sub_mod_of_lt (by omega : 0 < M) hi]
      split_ifs <;> omega
  rw [← hpop, window_cons, window_congr buf (Nat.mod_mod_of_dvd _ hNM)]

end Modulo

end Cells

end Ring
