import Mathlib.Data.Nat.Bitwise
import Xv6Mlfq.Library.ByteMem

/-!
The Sv39 page tables of vm.c and the page allocator of kalloc.c, over
byte-addressed physical memory.  A page-table page is 512 little-endian
64-bit entries; `walk` descends from the level-2 page through PX(2, va) and
PX(1, va), allocating a zeroed page where an entry is not valid if asked to,
and returns the address of the level-0 entry for `va`, or 0.  A panic is
`none`.  Addresses and entries are uint64 values kept as `Nat`; where a sum
can pass 2^64 the model takes it modulo 2^64.
-/

namespace Xv6Mlfq.Vm

open ByteMem

/-! ### riscv.h and memlayout.h -/

def pgsize : Nat := 4096

def pgshift : Nat := 12

/-- PGROUNDDOWN: `& ~(PGSIZE-1)` clears the offset within the page. -/
def pgrounddown (a : Nat) : Nat := a - a % pgsize

/-- PGROUNDUP, where `sz + PGSIZE - 1` is a uint64 sum. -/
def pgroundup (sz : Nat) : Nat := pgrounddown ((sz + pgsize - 1) % 2 ^ 64)

def pteV : Nat := 1 <<< 0

def pteR : Nat := 1 <<< 1

def pteW : Nat := 1 <<< 2

def pteX : Nat := 1 <<< 3

def pteU : Nat := 1 <<< 4

def pa2pte (pa : Nat) : Nat := (pa >>> 12) <<< 10

/-- PTE2PA, where the shift left drops the bits past 64. -/
def pte2pa (pte : Nat) : Nat := ((pte >>> 10) <<< 12) % 2 ^ 64

def pteFlags (pte : Nat) : Nat := pte &&& 0x3FF

def pxmask : Nat := 0x1FF

def pxshift (level : Nat) : Nat := pgshift + 9 * level

def px (level va : Nat) : Nat := (va >>> pxshift level) &&& pxmask

def maxva : Nat := 1 <<< (9 + 9 + 9 + 12 - 1)

def kernbase : Nat := 0x80000000

def phystop : Nat := kernbase + 128 * 1024 * 1024

def trampoline : Nat := maxva - pgsize

def trapframe : Nat := trampoline - pgsize

/-! ### Physical memory and kalloc.c -/

/-- Physical memory, kmem.freelist, and `end`, the first address after the
kernel.  kalloc.c threads the free list through the free pages themselves;
here it is the list of their addresses, head first. -/
structure Phys where
  mem : Nat → UInt8
  freelist : List Nat
  kend : Nat

/-- `*pte` for a pointer `a` to a page-table entry. -/
def pteAt (m : Nat → UInt8) (a : Nat) : Nat := load m a 8

/-- `*pte = v`. -/
def setPte (m : Nat → UInt8) (a v : Nat) : Nat → UInt8 := store m a 8 v

def kalloc (s : Phys) : Phys × Nat :=
  match s.freelist with
  | [] => (s, 0)
  | r :: rest => ({ s with mem := fill s.mem r pgsize 5, freelist := rest }, r)

def kfree (s : Phys) (pa : Nat) : Option Phys :=
  if pa % pgsize ≠ 0 ∨ pa < s.kend ∨ phystop ≤ pa then none
  else some { s with mem := fill s.mem pa pgsize 1, freelist := pa :: s.freelist }

theorem kalloc_of_nil {s : Phys} (h : s.freelist = []) : kalloc s = (s, 0) := by
  simp [kalloc, h]

theorem kalloc_of_cons {s : Phys} {p : Nat} {rest : List Nat} (h : s.freelist = p :: rest) :
    kalloc s = ({ s with mem := fill s.mem p pgsize 5, freelist := rest }, p) := by
  simp [kalloc, h]

/-! ### vm.c -/

/-- walk's loop from `level` down to 1 on the page at `pagetable`, then the
address of the level-0 entry; 0 when an entry is missing and `alloc` is false
or kalloc fails. -/
def walkFrom (va : Nat) (alloc : Bool) : Nat → Phys → Nat → Phys × Nat
  | 0, s, pagetable => (s, pagetable + 8 * px 0 va)
  | level + 1, s, pagetable =>
    let pte := pteAt s.mem (pagetable + 8 * px (level + 1) va)
    if pte &&& pteV ≠ 0 then walkFrom va alloc level s (pte2pa pte)
    else if !alloc then (s, 0)
    else
      let r := kalloc s
      if r.2 = 0 then (r.1, 0)
      else
        walkFrom va alloc level
          { r.1 with
            mem := setPte (fill r.1.mem r.2 pgsize 0) (pagetable + 8 * px (level + 1) va)
              (pa2pte r.2 ||| pteV) } r.2

def walk (s : Phys) (pagetable va : Nat) (alloc : Bool) : Option (Phys × Nat) :=
  if maxva ≤ va then none else some (walkFrom va alloc 2 s pagetable)

def walkaddr (s : Phys) (pagetable va : Nat) : Nat :=
  if maxva ≤ va then 0
  else
    match walk s pagetable va false with
    | none => 0
    | some (_, pte) =>
      if pte = 0 then 0
      else if pteAt s.mem pte &&& pteV = 0 then 0
      else if pteAt s.mem pte &&& pteU = 0 then 0
      else pte2pa (pteAt s.mem pte)

/-- mappages's loop from `a`, with `left` more pages after this one.  The test
`a == last` holds exactly when `left = 0`: `a` moves up by PGSIZE from `va`,
and when `va + size - PGSIZE` passes 2^64 walk panics at MAXVA first. -/
def mappagesFrom (pagetable perm : Nat) : Nat → Phys → Nat → Nat → Option (Phys × Int)
  | left, s, a, pa =>
    match walk s pagetable a true with
    | none => none
    | some (s, pte) =>
      if pte = 0 then some (s, -1)
      else if pteAt s.mem pte &&& pteV ≠ 0 then none
      else
        let s := { s with mem := setPte s.mem pte (pa2pte pa ||| perm ||| pteV) }
        match left with
        | 0 => some (s, 0)
        | left + 1 => mappagesFrom pagetable perm left s (a + pgsize) ((pa + pgsize) % 2 ^ 64)

def mappages (s : Phys) (pagetable va size pa perm : Nat) : Option (Phys × Int) :=
  if va % pgsize ≠ 0 then none
  else if size % pgsize ≠ 0 then none
  else if size = 0 then none
  else mappagesFrom pagetable perm (size / pgsize - 1) s va pa

/-- uvmcreate: a zeroed page from kalloc, or 0. -/
def uvmcreate (s : Phys) : Phys × Nat :=
  let r := kalloc s
  if r.2 = 0 then (r.1, 0) else ({ r.1 with mem := fill r.1.mem r.2 pgsize 0 }, r.2)

/-- uvmunmap's loop from `a` up to `bound`.  `a += PGSIZE` cannot wrap: the
loop only goes on once walk has not panicked, so `a < MAXVA`. -/
def uvmunmapFrom (pagetable bound : Nat) (doFree : Bool) (s : Phys) (a : Nat) : Option Phys :=
  if _h : a < bound then
    match walk s pagetable a false with
    | none => none
    | some (_, pte) =>
      if pte = 0 then uvmunmapFrom pagetable bound doFree s (a + pgsize)
      else if pteAt s.mem pte &&& pteV = 0 then uvmunmapFrom pagetable bound doFree s (a + pgsize)
      else
        match (if doFree then kfree s (pte2pa (pteAt s.mem pte)) else some s) with
        | none => none
        | some s' => uvmunmapFrom pagetable bound doFree { s' with mem := setPte s'.mem pte 0 }
            (a + pgsize)
  else some s
termination_by bound - a
decreasing_by all_goals (simp only [pgsize]; omega)

def uvmunmap (s : Phys) (pagetable va npages : Nat) (doFree : Bool) : Option Phys :=
  if va % pgsize ≠ 0 then none
  else uvmunmapFrom pagetable ((va + npages * pgsize) % 2 ^ 64) doFree s va

/-- uvmclear: `*pte &= ~PTE_U`, with `~PTE_U` as a 64-bit mask. -/
def uvmclear (s : Phys) (pagetable va : Nat) : Option Phys :=
  match walk s pagetable va false with
  | none => none
  | some (s, pte) =>
    if pte = 0 then none
    else some { s with mem := setPte s.mem pte (pteAt s.mem pte &&& (2 ^ 64 - 1 - pteU)) }

/-- One iteration of freewalk's loop over the entries of `pagetable`, with
`fw` the recursive call. -/
def freewalkEntry (fw : Phys → Nat → Option Phys) (pagetable : Nat) (s : Phys) (i : Nat) :
    Option Phys :=
  let pte := pteAt s.mem (pagetable + 8 * i)
  if pte &&& pteV ≠ 0 ∧ pte &&& (pteR ||| pteW ||| pteX) = 0 then
    match fw s (pte2pa pte) with
    | none => none
    | some s => some { s with mem := setPte s.mem (pagetable + 8 * i) 0 }
  else if pte &&& pteV ≠ 0 then none
  else some s

/-- The indices of a page-table page's 512 PTEs, in the order freewalk's loop
visits them.  Irreducible, so that unfolding freewalk never expands the list. -/
@[irreducible] def pteIndices : List Nat := List.range 512

theorem mem_pteIndices {i : Nat} : i ∈ pteIndices ↔ i < 512 := by
  unfold pteIndices
  exact List.mem_range

theorem nodup_pteIndices : pteIndices.Nodup := by
  unfold pteIndices
  exact List.nodup_range

/-- freewalk, with the depth of its recursion bounded by `fuel`: an Sv39 table
needs three levels, and a table whose entries lead round in a cycle would
recurse without end. -/
def freewalk : Nat → Phys → Nat → Option Phys
  | 0, _, _ => none
  | fuel + 1, s, pagetable =>
    match pteIndices.foldlM (freewalkEntry (freewalk fuel) pagetable) s with
    | none => none
    | some s => kfree s pagetable

/-- uvmfree (vm.c): unmap and free the user pages below `PGROUNDUP(sz)`, then
the page-table pages. -/
def uvmfree (s : Phys) (pagetable sz : Nat) : Option Phys :=
  match (if sz > 0 then uvmunmap s pagetable 0 (pgroundup sz / pgsize) true else some s) with
  | none => none
  | some s => freewalk 3 s pagetable

/-- ismapped, or `none` where its walk panics. -/
def ismapped (s : Phys) (pagetable va : Nat) : Option Bool :=
  match walk s pagetable va false with
  | none => none
  | some (_, pte) => some (pte ≠ 0 && pteAt s.mem pte &&& pteV ≠ 0)

/-! ### The macros on numbers -/

theorem px_eq (level va : Nat) : px level va = va / 2 ^ (12 + 9 * level) % 512 := by
  rw [px, pxmask, pxshift, pgshift, Nat.shiftRight_eq_div_pow,
    show (0x1FF : Nat) = 2 ^ 9 - 1 from rfl, Nat.and_two_pow_sub_one_eq_mod]

theorem px_lt (level va : Nat) : px level va < 512 := by
  rw [px_eq]
  exact Nat.mod_lt _ (by decide)

@[simp] theorem maxva_eq : maxva = 2 ^ 38 := by
  simp [maxva, Nat.shiftLeft_eq]

theorem px_two_lt (hva : va < maxva) : px 2 va < 256 := by
  simp only [px_eq, maxva_eq] at *
  omega

theorem pa2pte_or_eq (pa f : Nat) (hf : f < 2 ^ 10) : pa2pte pa ||| f = pa2pte pa + f := by
  rw [pa2pte, Nat.shiftLeft_add_eq_or_of_lt hf]

theorem pte2pa_pa2pte_or (hpa : pa % pgsize = 0) (hlt : pa < 2 ^ 64) (hf : f < 2 ^ 10) :
    pte2pa (pa2pte pa ||| f) = pa := by
  rw [pa2pte_or_eq pa f hf, pte2pa, pa2pte]
  simp only [Nat.shiftLeft_eq, Nat.shiftRight_eq_div_pow, pgsize] at *
  omega

theorem pteFlags_pa2pte_or (pa : Nat) (hf : f < 2 ^ 10) : pteFlags (pa2pte pa ||| f) = f := by
  rw [pa2pte_or_eq pa f hf, pteFlags, pa2pte,
    show (0x3FF : Nat) = 2 ^ 10 - 1 from rfl, Nat.and_two_pow_sub_one_eq_mod]
  simp only [Nat.shiftLeft_eq]
  omega

theorem pa2pte_lt (hlt : pa < 2 ^ 64) (hf : f < 2 ^ 10) : pa2pte pa ||| f < 2 ^ 64 := by
  rw [pa2pte_or_eq pa f hf, pa2pte]
  simp only [Nat.shiftLeft_eq, Nat.shiftRight_eq_div_pow]
  omega

theorem or_pteV_valid (x : Nat) : (x ||| pteV) &&& pteV ≠ 0 := by
  rw [pteV, Nat.shiftLeft_zero, Nat.and_one_is_mod]
  have h : (x ||| 1).testBit 0 = true := by simp
  rw [Nat.testBit_zero, decide_eq_true_eq] at h
  omega

theorem or_flags_lt (hf : f < 2 ^ 10) : f ||| pteV < 2 ^ 10 :=
  Nat.or_lt_two_pow hf (by decide)

theorem and_eq_mod_and {a b n : Nat} (hb : b < 2 ^ n) : a &&& b = a % 2 ^ n &&& b := by
  have h := Nat.and_lt_two_pow a hb
  rw [← Nat.mod_eq_of_lt h, Nat.and_mod_two_pow, Nat.mod_eq_of_lt hb]

theorem link_rwx (p : Nat) : (pa2pte p ||| pteV) &&& (pteR ||| pteW ||| pteX) = 0 := by
  have hmask : pteR ||| pteW ||| pteX = 14 := by decide
  have hlow : (pa2pte p ||| pteV) % 2 ^ 4 = 1 := by
    rw [pa2pte_or_eq p pteV (by decide), pa2pte]
    simp only [Nat.shiftLeft_eq, pteV]
    omega
  rw [hmask, and_eq_mod_and (show 14 < 2 ^ 4 by decide), hlow]
  decide

end Xv6Mlfq.Vm
