import Mathlib.Data.Nat.Basic
import Mathlib.Algebra.GroupWithZero.Nat
import Mathlib.Algebra.Group.Int.Defs

/-!
The user-space allocator (user/umalloc.c, after Kernighan and Ritchie) with
the `sbrk` it grows by (user/ulib.c, sys_sbrk and growproc).

A pointer is a byte address; a `Header *` moves in steps of `sizeof(Header)`.
The memory the allocator reads and writes is its headers, `hdr a` being the
header at address `a`.  The two loops of the source are bounded by `fuel`;
`none` is running out of it.
-/

namespace Xv6Mlfq.Umalloc

/-- A header: `s.ptr` and the `uint` `s.size`. -/
structure Header where
  ptr : Nat
  size : Nat
  deriving DecidableEq, Repr

/-- `sizeof(Header)`: a pointer and a `uint`, padded to the union's 16 bytes. -/
def hdrSize : Nat := 16

/-- `TRAPFRAME`: the top of the user address space that sys_sbrk grows to. -/
def trapframe : Nat := 2 ^ 38 - 2 * 4096

/-- The allocator's state in one process. -/
structure Heap where
  /-- the header at each address -/
  hdr : Nat → Header
  /-- `freep`; 0 is NULL -/
  freep : Nat
  /-- `&base` -/
  base : Nat
  /-- the break, `p->sz` -/
  brk : Nat
  /-- how far the kernel can grow the process: `TRAPFRAME`, or less when
  kalloc runs out -/
  limit : Nat

namespace Heap

/-- `a->s.ptr = v`. -/
def setPtr (h : Heap) (a v : Nat) : Heap :=
  { h with hdr := fun x => if x = a then { h.hdr a with ptr := v } else h.hdr x }

/-- `a->s.size = v`, as a `uint`. -/
def setSize (h : Heap) (a v : Nat) : Heap :=
  { h with hdr := fun x => if x = a then { h.hdr a with size := v % 2 ^ 32 } else h.hdr x }

@[simp] theorem setPtr_brk (h : Heap) (a v : Nat) : (h.setPtr a v).brk = h.brk := rfl
@[simp] theorem setSize_brk (h : Heap) (a v : Nat) : (h.setSize a v).brk = h.brk := rfl

end Heap

/-- The C `int` a `size_t` value is converted to: its low 32 bits, two's
complement. -/
def toInt32 (x : Nat) : Int :=
  if x % 2 ^ 32 < 2 ^ 31 then x % 2 ^ 32 else (x % 2 ^ 32 : Nat) - 2 ^ 32

example : toInt32 ((2 ^ 28 + 1) * hdrSize) = 16 := by
  decide

/-- `sbrk(n)` = sys_sbrk(n, SBRK_EAGER): the old break, or `none` for
`SBRK_ERROR`.  growproc grows by `n` below the limit, and for `n < 0` shrinks
unless `sz + n` wraps, when uvmdealloc leaves the size as it is. -/
def sbrk (h : Heap) (n : Int) : Option Nat × Heap :=
  if 0 < n then
    if h.brk + n.toNat ≤ h.limit then (some h.brk, { h with brk := h.brk + n.toNat })
    else (none, h)
  else if n.natAbs ≤ h.brk then (some h.brk, { h with brk := h.brk - n.natAbs })
  else (some h.brk, h)

/-- free's search loop: the free block `p` after which `bp` goes, at the
address order or at the wrap of the circular list. -/
def freeFind (h : Heap) (bp : Nat) : (fuel p : Nat) → Option Nat
  | 0, _ => none
  | fuel + 1, p =>
      if bp > p ∧ bp < (h.hdr p).ptr then some p
      else if p ≥ (h.hdr p).ptr ∧ (bp > p ∨ bp < (h.hdr p).ptr) then some p
      else freeFind h bp fuel (h.hdr p).ptr

/-- free (umalloc.c): insert the block before `ap` after `p`, joining it to
the block after it and to `p` where they touch. -/
def free (fuel : Nat) (h : Heap) (ap : Nat) : Option Heap :=
  let bp := ap - hdrSize
  (freeFind h bp fuel h.freep).map fun p =>
    let h :=
      if bp + hdrSize * (h.hdr bp).size = (h.hdr p).ptr then
        let h := h.setSize bp ((h.hdr bp).size + (h.hdr (h.hdr p).ptr).size)
        h.setPtr bp (h.hdr (h.hdr p).ptr).ptr
      else h.setPtr bp (h.hdr p).ptr
    let h :=
      if p + hdrSize * (h.hdr p).size = bp then
        let h := h.setSize p ((h.hdr p).size + (h.hdr bp).size)
        h.setPtr p (h.hdr bp).ptr
      else h.setPtr p bp
    { h with freep := p }

/-- morecore (umalloc.c): at least 4096 units from sbrk, handed to free; the
new `freep`, or 0 when sbrk fails. -/
def morecore (fuel : Nat) (h : Heap) (nu : Nat) : Option (Nat × Heap) :=
  let nu := if nu < 4096 then 4096 else nu
  match sbrk h (toInt32 (nu * hdrSize)) with
  | (none, h) => some (0, h)
  | (some p, h) => (free fuel (h.setSize p nu) (p + hdrSize)).map fun h => (h.freep, h)

/-- malloc's loop from `prevp` and `p = prevp->s.ptr`: take the first block
of at least `nunits`, whole or from its tail; at `freep` again, grow. -/
def mallocLoop (nunits : Nat) : (fuel : Nat) → Heap → (prevp p : Nat) → Option (Nat × Heap)
  | 0, _, _, _ => none
  | fuel + 1, h, prevp, p =>
      if (h.hdr p).size ≥ nunits then
        if (h.hdr p).size = nunits then
          some (p + hdrSize, { h.setPtr prevp (h.hdr p).ptr with freep := prevp })
        else
          let h := h.setSize p ((h.hdr p).size - nunits)
          let q := p + hdrSize * (h.hdr p).size
          some (q + hdrSize, { h.setSize q nunits with freep := prevp })
      else if p = h.freep then
        match morecore fuel h nunits with
        | none => none
        | some (0, h) => some (0, h)
        | some (q, h) => mallocLoop nunits fuel h q (h.hdr q).ptr
      else mallocLoop nunits fuel h p (h.hdr p).ptr

/-- malloc (umalloc.c): the pointer it returns (0 for NULL) and the heap after. -/
def malloc (fuel : Nat) (h : Heap) (nbytes : Nat) : Option (Nat × Heap) :=
  let nunits := ((nbytes + hdrSize - 1) / hdrSize + 1) % 2 ^ 32
  if h.freep = 0 then
    let h := { (h.setPtr h.base h.base).setSize h.base 0 with freep := h.base }
    mallocLoop nunits fuel h h.base (h.hdr h.base).ptr
  else mallocLoop nunits fuel h h.freep (h.hdr h.freep).ptr

/-- A process right after exec: `freep` NULL, `base` in the data segment, the
break at 0x4000 and room to grow to `TRAPFRAME`. -/
def freshHeap : Heap where
  hdr := fun _ => ⟨0, 0⟩
  freep := 0
  base := 0x1000
  brk := 0x4000
  limit := trapframe

theorem malloc_inside_break_fails :
    ∃ p h', malloc 4 freshHeap 0xFFFFFFFF = some (p, h') ∧ p ≠ 0 ∧ h'.brk < p + 0xFFFFFFFF := by
  have hrun : (malloc 4 freshHeap 0xFFFFFFFF).map (fun r => (r.1, r.2.brk)) = some (0x4010, 0x4010) := by
    decide
  rcases hm : malloc 4 freshHeap 0xFFFFFFFF with _ | ⟨p, h'⟩
  · rw [hm] at hrun
    cases hrun
  · rw [hm] at hrun
    simp only [Option.map_some, Option.some.injEq, Prod.mk.injEq] at hrun
    obtain ⟨rfl, hbrk⟩ := hrun
    exact ⟨0x4010, h', rfl, by decide, by omega⟩

end Xv6Mlfq.Umalloc
