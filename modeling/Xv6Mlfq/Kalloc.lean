import Mathlib.Data.List.Nodup
import Mathlib.Data.List.Perm.Basic
import Mathlib.Algebra.GroupWithZero.Nat
import Xv6Mlfq.Library.StepSystem
import Xv6Mlfq.Vm

/-!
The page allocator of kalloc.c as a system: kinit frees every page from
`PGROUNDUP(end)` to PHYSTOP, and then the kernel calls kalloc and kfree in any
order, kfree only on a page kalloc handed out and that has not been freed
since.  Beside kmem the state keeps the pages handed out; every page of
physical memory above the kernel is then, at every point of every run, on the
free list or handed out, and never both.
-/

namespace Xv6Mlfq.Kalloc

open Vm StepSystem

/-! ### kinit and freerange -/

/-- The `n` pages from `a`, in address order. -/
def pagesFrom (a n : Nat) : List Nat := (List.range n).map fun k => a + k * pgsize

/-- freerange's loop from the page `p`: kfree each page that ends by `paEnd`. -/
def freerangeFrom (paEnd : Nat) (s : Phys) (p : Nat) : Option Phys :=
  if _h : p + pgsize ≤ paEnd then
    match kfree s p with
    | none => none
    | some s => freerangeFrom paEnd s (p + pgsize)
  else some s
termination_by paEnd - p
decreasing_by simp only [pgsize] at *; omega

/-- freerange (kalloc.c). -/
def freerange (s : Phys) (paStart paEnd : Nat) : Option Phys := freerangeFrom paEnd s (pgroundup paStart)

/-- kinit (kalloc.c): `freerange(end, PHYSTOP)`. -/
def kinit (s : Phys) : Option Phys := freerange s s.kend phystop

/-- The pages kinit frees: those from `PGROUNDUP(end)` that end by PHYSTOP. -/
def kernelPages (kend : Nat) : List Nat := pagesFrom (pgroundup kend) ((phystop - pgroundup kend) / pgsize)

theorem pagesFrom_succ (a n : Nat) : pagesFrom a (n + 1) = a :: pagesFrom (a + pgsize) n := by
  rw [pagesFrom, pagesFrom, List.range_succ_eq_map, List.map_cons, List.map_map]
  congr 1
  refine List.map_congr_left fun k _ => ?_
  simp only [Function.comp_apply, Nat.succ_mul]
  omega

theorem mem_pagesFrom {a n p : Nat} : p ∈ pagesFrom a n ↔ ∃ k < n, p = a + k * pgsize := by
  simp only [pagesFrom, List.mem_map, List.mem_range]
  constructor
  · rintro ⟨k, hk, rfl⟩
    exact ⟨k, hk, rfl⟩
  · rintro ⟨k, hk, rfl⟩
    exact ⟨k, hk, rfl⟩

theorem nodup_pagesFrom (a n : Nat) : (pagesFrom a n).Nodup := by
  refine List.Nodup.map_on (fun k _ j _ h => ?_) List.nodup_range
  have hps : pgsize = 4096 := rfl
  simp only [hps] at h
  omega

theorem freerangeFrom_stop {paEnd p : Nat} {s : Phys} (h : ¬ p + pgsize ≤ paEnd) :
    freerangeFrom paEnd s p = some s := by
  rw [freerangeFrom, dif_neg h]

theorem freerangeFrom_step {paEnd p : Nat} {s s' : Phys} (h : p + pgsize ≤ paEnd) (hf : kfree s p = some s') :
    freerangeFrom paEnd s p = freerangeFrom paEnd s' (p + pgsize) := by
  rw [freerangeFrom, dif_pos h, hf]

theorem freerangeFrom_spec {paEnd : Nat} (hend : paEnd ≤ phystop) (n : Nat) :
    ∀ (s : Phys) (p : Nat), p % pgsize = 0 → s.kend ≤ p → p + n * pgsize ≤ paEnd →
      paEnd < p + (n + 1) * pgsize →
      ∃ s', freerangeFrom paEnd s p = some s' ∧ s'.kend = s.kend ∧
        s'.freelist = (pagesFrom p n).reverse ++ s.freelist := by
  have hps : pgsize = 4096 := rfl
  induction n with
  | zero =>
    intro s p _ _ _ hlt
    refine ⟨s, freerangeFrom_stop (by omega), rfl, ?_⟩
    rw [pagesFrom, List.range_zero, List.map_nil, List.reverse_nil, List.nil_append]
  | succ n ih =>
    intro s p hal hk hle hlt
    have hkfree : kfree s p = some { s with mem := ByteMem.fill s.mem p pgsize 1, freelist := p :: s.freelist } := by
      rw [kfree, if_neg]
      simp only [hps] at *
      omega
    obtain ⟨s', hrun, hk', hfl⟩ := ih { s with mem := ByteMem.fill s.mem p pgsize 1, freelist := p :: s.freelist }
      (p + pgsize) (by simp only [hps] at *; omega) (by simp only [hps] at *; omega)
      (by simp only [hps] at *; rw [Nat.succ_mul] at hle; omega)
      (by simp only [hps] at *; rw [Nat.succ_mul] at hlt; omega)
    refine ⟨s', (freerangeFrom_step (by rw [Nat.succ_mul] at hle; omega) hkfree).trans hrun, hk', ?_⟩
    rw [hfl, pagesFrom_succ, List.reverse_cons, List.append_assoc, List.singleton_append]

theorem pgroundup_bounds {x : Nat} (hx : x ≤ phystop) :
    x ≤ pgroundup x ∧ pgroundup x % pgsize = 0 ∧ pgroundup x ≤ phystop := by
  have hps : pgsize = 4096 := rfl
  have hphys : phystop = 2281701376 := rfl
  simp only [pgroundup, pgrounddown, hps, hphys] at *
  omega

theorem kinit_spec {s : Phys} (hfree : s.freelist = []) (hkend : s.kend ≤ phystop) :
    ∃ s', kinit s = some s' ∧ s'.kend = s.kend ∧ s'.freelist = (kernelPages s.kend).reverse := by
  have hps : pgsize = 4096 := rfl
  have hphys : phystop = 2281701376 := rfl
  obtain ⟨hle, hal, hup⟩ := pgroundup_bounds hkend
  obtain ⟨s', hrun, hk, hfl⟩ := freerangeFrom_spec le_rfl ((phystop - pgroundup s.kend) / pgsize) s
    (pgroundup s.kend) hal hle (by simp only [hps, hphys] at *; omega) (by simp only [hps, hphys] at *; omega)
  exact ⟨s', hrun, hk, by rw [hfl, hfree, List.append_nil, kernelPages]⟩

/-! ### Runs of kalloc and kfree -/

/-- kmem, and the pages kalloc has handed out that kfree has not taken back. -/
structure Kmem where
  phys : Phys
  held : List Nat

/-- The calls into kalloc.c after kinit. -/
inductive KmemOp
  | kalloc
  | kfree (pa : Nat)
  deriving DecidableEq, Repr

/-- One call.  A kfree of a page that is not handed out is not a call the
kernel makes, and `none` as well. -/
def kmemStep (k : Kmem) : KmemOp → Option Kmem
  | .kalloc =>
    let r := kalloc k.phys
    some ⟨r.1, if r.2 = 0 then k.held else r.2 :: k.held⟩
  | .kfree pa => if pa ∈ k.held then (kfree k.phys pa).map fun s => ⟨s, k.held.erase pa⟩ else none

/-- `end` lies above 0 and by PHYSTOP, and every page of the kernel's range is
on the free list or handed out, exactly once. -/
structure Conserved (kend : Nat) (k : Kmem) : Prop where
  kend_pos : 0 < kend
  kend_le : kend ≤ phystop
  kend_eq : k.phys.kend = kend
  perm : (k.phys.freelist ++ k.held).Perm (kernelPages kend)

theorem kfree_of_kernelPages {s : Phys} {p : Nat} (hkend : s.kend ≤ phystop) (hp : p ∈ kernelPages s.kend) :
    kfree s p = some { s with mem := ByteMem.fill s.mem p pgsize 1, freelist := p :: s.freelist } := by
  have hps : pgsize = 4096 := rfl
  have hphys : phystop = 2281701376 := rfl
  obtain ⟨hle, hal, hup⟩ := pgroundup_bounds hkend
  obtain ⟨j, hj, rfl⟩ := mem_pagesFrom.mp hp
  have hj' := (Nat.lt_div_iff_mul_lt (by decide)).mp hj
  rw [kfree, if_neg]
  simp only [hps, hphys] at *
  omega

theorem ne_zero_of_kernelPages {kend p : Nat} (hpos : 0 < kend) (hle : kend ≤ phystop)
    (hp : p ∈ kernelPages kend) : p ≠ 0 := by
  obtain ⟨hge, -, -⟩ := pgroundup_bounds hle
  obtain ⟨j, -, rfl⟩ := mem_pagesFrom.mp hp
  omega

section Conserved

variable {kend : Nat} {k k' : Kmem}

theorem Conserved.nodup (h : Conserved kend k) : (k.phys.freelist ++ k.held).Nodup :=
  h.perm.nodup_iff.mpr (nodup_pagesFrom _ _)

theorem Conserved.mem {p : Nat} (h : Conserved kend k) (hp : p ∈ k.phys.freelist ++ k.held) :
    p ∈ kernelPages kend :=
  h.perm.subset hp

theorem Conserved.kalloc (h : Conserved kend k) (hs : kmemStep k .kalloc = some k') : Conserved kend k' := by
  rcases hfl : k.phys.freelist with _ | ⟨p, rest⟩
  · rw [kmemStep, kalloc_of_nil hfl] at hs
    obtain rfl := Option.some.inj hs
    exact h
  · have hp : p ≠ 0 := ne_zero_of_kernelPages h.kend_pos h.kend_le
      (h.mem (by rw [hfl]; exact List.mem_append_left _ List.mem_cons_self))
    rw [kmemStep, kalloc_of_cons hfl] at hs
    obtain rfl := Option.some.inj hs
    refine ⟨h.kend_pos, h.kend_le, h.kend_eq, ?_⟩
    dsimp only
    rw [if_neg hp]
    have hperm := h.perm
    rw [hfl] at hperm
    exact List.perm_middle.trans hperm

theorem Conserved.kfree (h : Conserved kend k) {pa : Nat} (hpa : pa ∈ k.held) :
    ∃ k', kmemStep k (.kfree pa) = some k' ∧ Conserved kend k' := by
  have hmem : pa ∈ kernelPages k.phys.kend := h.kend_eq ▸ h.mem (List.mem_append_right _ hpa)
  refine ⟨⟨{ k.phys with mem := ByteMem.fill k.phys.mem pa pgsize 1, freelist := pa :: k.phys.freelist },
    k.held.erase pa⟩, ?_, h.kend_pos, h.kend_le, h.kend_eq, ?_⟩
  · rw [kmemStep, if_pos hpa, kfree_of_kernelPages (h.kend_eq ▸ h.kend_le) hmem]
    rfl
  · exact (List.perm_middle.symm.trans ((List.perm_cons_erase hpa).symm.append_left _)).trans h.perm

theorem Conserved.step {op : KmemOp} (h : Conserved kend k) (hs : kmemStep k op = some k') :
    Conserved kend k' := by
  cases op with
  | kalloc => exact h.kalloc hs
  | kfree pa =>
    by_cases hpa : pa ∈ k.held
    · obtain ⟨k'', hk'', hc⟩ := h.kfree hpa
      rw [hk''] at hs
      obtain rfl := Option.some.inj hs
      exact hc
    · rw [kmemStep, if_neg hpa] at hs
      cases hs

theorem Conserved.kalloc_result (h : Conserved kend k) :
    ((Vm.kalloc k.phys).2 = 0 ↔ k.held.Perm (kernelPages kend)) ∧
      ((Vm.kalloc k.phys).2 ≠ 0 → (Vm.kalloc k.phys).2 ∈ kernelPages kend ∧ (Vm.kalloc k.phys).2 ∉ k.held) := by
  rcases hfl : k.phys.freelist with _ | ⟨p, rest⟩
  · have hperm := h.perm
    rw [hfl, List.nil_append] at hperm
    rw [kalloc_of_nil hfl]
    exact ⟨iff_of_true rfl hperm, fun h0 => absurd rfl h0⟩
  · have hin : p ∈ k.phys.freelist ++ k.held := by
      rw [hfl]
      exact List.mem_append_left _ List.mem_cons_self
    have hp : p ≠ 0 := ne_zero_of_kernelPages h.kend_pos h.kend_le (h.mem hin)
    rw [kalloc_of_cons hfl]
    refine ⟨iff_of_false hp fun hheld => ?_, fun _ => ⟨h.mem hin, fun hph => ?_⟩⟩
    · have hlen := (h.perm.trans hheld.symm).length_eq
      rw [List.length_append, hfl, List.length_cons] at hlen
      omega
    · have hnd := h.nodup
      rw [hfl] at hnd
      exact (List.nodup_append.mp hnd).2.2 p List.mem_cons_self p hph rfl

end Conserved

theorem kalloc_conserves_pages {s0 : Phys} (hboot : s0.freelist = []) (hpos : 0 < s0.kend)
    (hle : s0.kend ≤ phystop) :
    ∃ s1, kinit s0 = some s1 ∧ ∀ k, Reachable kmemStep ⟨s1, []⟩ k →
      (k.phys.freelist ++ k.held).Perm (kernelPages s0.kend) ∧
      (∀ pa ∈ k.held, ∃ k', kmemStep k (.kfree pa) = some k') ∧
      ((Vm.kalloc k.phys).2 = 0 ↔ k.held.Perm (kernelPages s0.kend)) ∧
      ((Vm.kalloc k.phys).2 ≠ 0 →
        (Vm.kalloc k.phys).2 ∈ kernelPages s0.kend ∧ (Vm.kalloc k.phys).2 ∉ k.held) := by
  obtain ⟨s1, hinit, hk, hfl⟩ := kinit_spec hboot hle
  have h0 : Conserved s0.kend ⟨s1, []⟩ := by
    refine ⟨hpos, hle, hk, ?_⟩
    rw [hfl, List.append_nil]
    exact List.reverse_perm _
  refine ⟨s1, hinit, fun k hreach => ?_⟩
  have hc : Conserved s0.kend k := Reachable.invariant h0 (fun _ _ _ _ hinv hs => hinv.step hs) hreach
  exact ⟨hc.perm, fun pa hpa => (hc.kfree hpa).imp fun _ h => h.1, hc.kalloc_result⟩

/-- The boot kmem of a machine whose kernel ends two pages below PHYSTOP. -/
def kmemBoot : Phys where
  mem := fun _ => 0
  freelist := []
  kend := 0x87ffe000

theorem kalloc_conserves_pages_boot :
    kernelPages kmemBoot.kend = [0x87ffe000, 0x87fff000] ∧
      ∃ s1, kinit kmemBoot = some s1 ∧ ∀ k, Reachable kmemStep ⟨s1, []⟩ k →
        (k.phys.freelist ++ k.held).Perm (kernelPages kmemBoot.kend) ∧
        (∀ pa ∈ k.held, ∃ k', kmemStep k (.kfree pa) = some k') ∧
        ((Vm.kalloc k.phys).2 = 0 ↔ k.held.Perm (kernelPages kmemBoot.kend)) ∧
        ((Vm.kalloc k.phys).2 ≠ 0 →
          (Vm.kalloc k.phys).2 ∈ kernelPages kmemBoot.kend ∧ (Vm.kalloc k.phys).2 ∉ k.held) :=
  ⟨by decide, kalloc_conserves_pages rfl (by decide) (by decide)⟩

end Xv6Mlfq.Kalloc
