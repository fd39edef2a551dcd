import Mathlib.Data.Fintype.Card
import Mathlib.Data.Fintype.Fin
import Mathlib.Algebra.GroupWithZero.Nat
import Xv6Mlfq.Library.DList
import Xv6Mlfq.Library.StepSystem

/-!
The buffer cache (`bio.c`).  The `NBUF` buffers are threaded through
`bcache.head` into a circular doubly linked list, most recently used first.
`bget` looks for a cached block from the front and recycles an unreferenced
buffer from the back; `brelse` moves a buffer whose last reference it drops to
the front; `bpin` and `bunpin` take and drop references for the log.  Each call
runs its `bcache.lock` critical section as one step.
-/

namespace Xv6Mlfq.Bio

open DList

/-- `NBUF`, that is `MAXOPBLOCKS * 3`. -/
def nbuf : Nat := 30

instance : NeZero nbuf := ⟨by decide⟩

/-- A `struct buf`, without its data, its sleep-lock and its links. -/
structure Buf where
  valid : Bool
  dev : Nat
  blockno : Nat
  refcnt : UInt32
  deriving DecidableEq

/-- `bcache`, without its lock: the buffers and their links through the head. -/
structure BCache where
  buf : Fin nbuf → Buf
  links : Links (Fin nbuf)

def BCache.setBuf (bc : BCache) (b : Fin nbuf) (x : Buf) : BCache :=
  { bc with buf := Function.update bc.buf b x }

def BCache.setRefcnt (bc : BCache) (b : Fin nbuf) (r : UInt32) : BCache :=
  bc.setBuf b { bc.buf b with refcnt := r }

/-- `binit`: the head linked to itself, then each buffer pushed at the front. -/
def binit (bc : BCache) : BCache :=
  let head : Links (Fin nbuf) :=
    ⟨Function.update bc.links.next none none, Function.update bc.links.prev none none⟩
  { bc with links := (List.finRange nbuf).foldl Links.pushFront head }

/-- The first loop of `bget`: a buffer holding the block, from `head.next` on. -/
def bgetLookup (bc : BCache) (dev blockno : Nat) : Option (Fin nbuf) :=
  scan bc.links.next (fun b => (bc.buf b).dev = dev ∧ (bc.buf b).blockno = blockno) nbuf
    (bc.links.next none)

/-- The second loop of `bget`: an unreferenced buffer, from `head.prev` back. -/
def bgetRecycle (bc : BCache) : Option (Fin nbuf) :=
  scan bc.links.prev (fun b => (bc.buf b).refcnt = 0) nbuf (bc.links.prev none)

/-- `bget`; `none` is the panic "bget: no buffers". -/
def bget (bc : BCache) (dev blockno : Nat) : Option (BCache × Fin nbuf) :=
  match bgetLookup bc dev blockno with
  | some b => some (bc.setRefcnt b ((bc.buf b).refcnt + 1), b)
  | none =>
      match bgetRecycle bc with
      | some b => some (bc.setBuf b { dev := dev, blockno := blockno, valid := false, refcnt := 1 }, b)
      | none => none

/-- `bread`: `bget`, and the block read from disk into a buffer that is not valid. -/
def bread (bc : BCache) (dev blockno : Nat) : Option (BCache × Fin nbuf) :=
  match bget bc dev blockno with
  | some (bc, b) => some (if (bc.buf b).valid then bc else bc.setBuf b { bc.buf b with valid := true }, b)
  | none => none

/-- `brelse`, once the caller has released the buffer's sleep-lock. -/
def brelse (bc : BCache) (b : Fin nbuf) : BCache :=
  let bc := bc.setRefcnt b ((bc.buf b).refcnt - 1)
  if (bc.buf b).refcnt = 0 then { bc with links := (bc.links.unlink b).pushFront b } else bc

def bpin (bc : BCache) (b : Fin nbuf) : BCache := bc.setRefcnt b ((bc.buf b).refcnt + 1)

def bunpin (bc : BCache) (b : Fin nbuf) : BCache := bc.setRefcnt b ((bc.buf b).refcnt - 1)

/-! ## The cache's calls -/

section Calls

variable {bc : BCache} {order : List (Fin nbuf)}

@[simp] theorem setBuf_links (bc : BCache) (b : Fin nbuf) (x : Buf) : (bc.setBuf b x).links = bc.links := rfl

@[simp] theorem setRefcnt_links (bc : BCache) (b : Fin nbuf) (r : UInt32) :
    (bc.setRefcnt b r).links = bc.links := rfl

theorem setBuf_buf (bc : BCache) (b : Fin nbuf) (x : Buf) (b' : Fin nbuf) :
    (bc.setBuf b x).buf b' = if b' = b then x else bc.buf b' := by
  simp [BCache.setBuf, Function.update_apply]

theorem setRefcnt_buf (bc : BCache) (b : Fin nbuf) (r : UInt32) (b' : Fin nbuf) :
    (bc.setRefcnt b r).buf b' = if b' = b then { bc.buf b with refcnt := r } else bc.buf b' :=
  setBuf_buf bc b _ b'

theorem length_le_nbuf (h : Linked bc.links order) : order.length ≤ nbuf := by
  have := h.nodup.length_le_card
  rwa [Fintype.card_fin] at this

theorem bgetLookup_eq (h : Linked bc.links order) (dev blockno : Nat) :
    bgetLookup bc dev blockno =
      order.find? (fun b => (bc.buf b).dev = dev ∧ (bc.buf b).blockno = blockno) := by
  rw [bgetLookup, scan_eq_find, h.walk_next (length_le_nbuf h)]

theorem bgetRecycle_eq (h : Linked bc.links order) :
    bgetRecycle bc = order.reverse.find? (fun b => (bc.buf b).refcnt = 0) := by
  rw [bgetRecycle, scan_eq_find, h.walk_prev (length_le_nbuf h)]

theorem bgetLookup_none (h : Linked bc.links order) (hall : ∀ b, b ∈ order) {dev blockno : Nat}
    (hnone : bgetLookup bc dev blockno = none) (b : Fin nbuf) :
    ¬ ((bc.buf b).dev = dev ∧ (bc.buf b).blockno = blockno) := by
  rw [bgetLookup_eq h, List.find?_eq_none] at hnone
  simpa using hnone b (hall b)

theorem bgetRecycle_free (h : Linked bc.links order) {b : Fin nbuf} (hb : bgetRecycle bc = some b) :
    (bc.buf b).refcnt = 0 := by
  rw [bgetRecycle_eq h] at hb
  simpa using List.find?_some hb

theorem bget_cases {dev blockno : Nat} {bc' : BCache} {b : Fin nbuf}
    (hget : bget bc dev blockno = some (bc', b)) :
    bc'.links = bc.links ∧
      ((bgetLookup bc dev blockno = some b ∧ bc' = bc.setRefcnt b ((bc.buf b).refcnt + 1)) ∨
        (bgetLookup bc dev blockno = none ∧ bgetRecycle bc = some b ∧
          bc' = bc.setBuf b { dev := dev, blockno := blockno, valid := false, refcnt := 1 })) := by
  unfold bget at hget
  split at hget
  · next b' hlook =>
      cases hget
      exact ⟨rfl, .inl ⟨hlook, rfl⟩⟩
  · next hlook =>
      split at hget
      · next b' hrec =>
          cases hget
          exact ⟨rfl, .inr ⟨hlook, hrec, rfl⟩⟩
      · cases hget

theorem bread_cases {dev blockno : Nat} {bc' : BCache} {b : Fin nbuf}
    (hread : bread bc dev blockno = some (bc', b)) :
    ∃ bc₁, bget bc dev blockno = some (bc₁, b) ∧
      bc' = (if (bc₁.buf b).valid then bc₁ else bc₁.setBuf b { bc₁.buf b with valid := true }) := by
  unfold bread at hread
  split at hread
  · next bc₁ b' hget =>
      cases hread
      exact ⟨bc₁, hget, rfl⟩
  · cases hread

@[simp] theorem setRefcnt_refcnt (bc : BCache) (b : Fin nbuf) (r : UInt32) :
    ((bc.setRefcnt b r).buf b).refcnt = r := by
  simp [setRefcnt_buf]

theorem brelse_links (bc : BCache) (b : Fin nbuf) :
    (brelse bc b).links = if (bc.buf b).refcnt - 1 = 0 then (bc.links.unlink b).pushFront b else bc.links := by
  unfold brelse
  dsimp only
  rw [setRefcnt_refcnt]
  split_ifs <;> rfl

theorem brelse_buf (bc : BCache) (b : Fin nbuf) :
    (brelse bc b).buf = (bc.setRefcnt b ((bc.buf b).refcnt - 1)).buf := by
  unfold brelse
  dsimp only
  split_ifs <;> rfl

end Calls

/-! ## The cache and its users -/

/-- The cache, and as ghost state for each buffer the `bget` results not yet
released, the `bpin`s and `bunpin`s made, whether `bget` ever gave it to a
block by recycling it, and when `brelse` last released it. -/
structure BioSys where
  cache : BCache
  held : Fin nbuf → Nat
  pins : Fin nbuf → Nat
  unpins : Fin nbuf → Nat
  assigned : Fin nbuf → Bool
  released : Fin nbuf → Option Nat
  clock : Nat

/-- A call of the cache: `bget`, `bread`, `brelse` of a buffer the caller holds,
`bpin` or `bunpin`. -/
inductive Action
  | get (dev blockno : Nat)
  | read (dev blockno : Nat)
  | release (b : Fin nbuf)
  | pin (b : Fin nbuf)
  | unpin (b : Fin nbuf)

/-- The cache after `binit`, from the zeroed `bcache`. -/
def BioSys.init : BioSys where
  cache := binit ⟨fun _ => ⟨false, 0, 0, 0⟩, ⟨fun _ => none, fun _ => none⟩⟩
  held := fun _ => 0
  pins := fun _ => 0
  unpins := fun _ => 0
  assigned := fun _ => false
  released := fun _ => none
  clock := 0

/-- A buffer handed out by `bget` or `bread`, marked assigned when it was recycled. -/
def BioSys.give (sys : BioSys) (bc : BCache) (b : Fin nbuf) (recycled : Bool) : BioSys :=
  { sys with
    cache := bc
    held := Function.update sys.held b (sys.held b + 1)
    assigned := if recycled then Function.update sys.assigned b true else sys.assigned }

def step (sys : BioSys) : Action → Option BioSys
  | .get dev blockno =>
      (bget sys.cache dev blockno).map fun r => sys.give r.1 r.2 (bgetLookup sys.cache dev blockno).isNone
  | .read dev blockno =>
      (bread sys.cache dev blockno).map fun r => sys.give r.1 r.2 (bgetLookup sys.cache dev blockno).isNone
  | .release b =>
      if 0 < sys.held b then
        some { sys with
          cache := brelse sys.cache b
          held := Function.update sys.held b (sys.held b - 1)
          released := Function.update sys.released b (some sys.clock)
          clock := sys.clock + 1 }
      else none
  | .pin b => some { sys with cache := bpin sys.cache b, pins := Function.update sys.pins b (sys.pins b + 1) }
  | .unpin b =>
      some { sys with cache := bunpin sys.cache b, unpins := Function.update sys.unpins b (sys.unpins b + 1) }

/-- The states of the cache reachable from `binit`. -/
def Reachable (sys : BioSys) : Prop := StepSystem.Reachable step BioSys.init sys

/-- The list through the head holds every buffer once; no two buffers `bget`
has assigned hold the same block; and each buffer's `refcnt` is, modulo `2^32`,
its `bget` results not yet released and its pins less its unpins. -/
structure BioOk (sys : BioSys) : Prop where
  linked : ∃ order, Linked sys.cache.links order ∧ ∀ b, b ∈ order
  blocks : ∀ b b', b ≠ b' → sys.assigned b = true → sys.assigned b' = true →
    ¬ ((sys.cache.buf b).dev = (sys.cache.buf b').dev ∧ (sys.cache.buf b).blockno = (sys.cache.buf b').blockno)
  refcnt : ∀ b, (sys.cache.buf b).refcnt + UInt32.ofNat (sys.unpins b) = UInt32.ofNat (sys.held b + sys.pins b)

section Counts

variable {r u : UInt32} {n k : Nat}

theorem refcnt_inc (h : r + u = UInt32.ofNat n) : (r + 1) + u = UInt32.ofNat (n + 1) := by
  have hr := r.toNat_lt
  have hu := u.toNat_lt
  have h' := congrArg UInt32.toNat h
  apply UInt32.toNat_inj.mp
  simp only [UInt32.toNat_add, UInt32.toNat_ofNat', UInt32.toNat_one] at h' ⊢
  omega

theorem refcnt_dec (hn : 0 < n) (h : r + u = UInt32.ofNat n) : (r - 1) + u = UInt32.ofNat (n - 1) := by
  have hr := r.toNat_lt
  have hu := u.toNat_lt
  have h' := congrArg UInt32.toNat h
  apply UInt32.toNat_inj.mp
  simp only [UInt32.toNat_add, UInt32.toNat_sub, UInt32.toNat_ofNat', UInt32.toNat_one] at h' ⊢
  omega

theorem refcnt_unpin (h : r + UInt32.ofNat k = UInt32.ofNat n) :
    (r - 1) + UInt32.ofNat (k + 1) = UInt32.ofNat n := by
  have hr := r.toNat_lt
  have h' := congrArg UInt32.toNat h
  apply UInt32.toNat_inj.mp
  simp only [UInt32.toNat_add, UInt32.toNat_sub, UInt32.toNat_ofNat', UInt32.toNat_one] at h' ⊢
  omega

end Counts

section Runs

variable {sys sys' : BioSys}

theorem setRefcnt_dev (bc : BCache) (b : Fin nbuf) (r : UInt32) (x : Fin nbuf) :
    ((bc.setRefcnt b r).buf x).dev = (bc.buf x).dev := by
  rw [setRefcnt_buf]
  split_ifs with hx
  · rw [hx]
  · rfl

theorem setRefcnt_blockno (bc : BCache) (b : Fin nbuf) (r : UInt32) (x : Fin nbuf) :
    ((bc.setRefcnt b r).buf x).blockno = (bc.buf x).blockno := by
  rw [setRefcnt_buf]
  split_ifs with hx
  · rw [hx]
  · rfl

theorem setRefcnt_other (bc : BCache) {b x : Fin nbuf} (r : UInt32) (hx : x ≠ b) :
    (bc.setRefcnt b r).buf x = bc.buf x := by
  rw [setRefcnt_buf, if_neg hx]

theorem BioOk.blocks_of_keys (h : BioOk sys) (hassigned : sys'.assigned = sys.assigned)
    (hdev : ∀ x, (sys'.cache.buf x).dev = (sys.cache.buf x).dev)
    (hblockno : ∀ x, (sys'.cache.buf x).blockno = (sys.cache.buf x).blockno) :
    ∀ b b', b ≠ b' → sys'.assigned b = true → sys'.assigned b' = true →
      ¬ ((sys'.cache.buf b).dev = (sys'.cache.buf b').dev ∧
        (sys'.cache.buf b).blockno = (sys'.cache.buf b').blockno) := by
  intro b b' hne hb hb'
  rw [hdev, hdev, hblockno, hblockno]
  rw [hassigned] at hb hb'
  exact h.blocks b b' hne hb hb'

theorem refcnt_update {f : Fin nbuf → UInt32} {unpins held pins : Fin nbuf → Nat} {b : Fin nbuf}
    (hb : f b + UInt32.ofNat (unpins b) = UInt32.ofNat (held b + pins b))
    (hother : ∀ x, x ≠ b → f x + UInt32.ofNat (unpins x) = UInt32.ofNat (held x + pins x)) :
    ∀ x, f x + UInt32.ofNat (unpins x) = UInt32.ofNat (held x + pins x) := by
  intro x
  by_cases hx : x = b
  · rw [hx]
    exact hb
  · exact hother x hx

theorem bioOk_init : BioOk BioSys.init where
  linked := by
    refine ⟨(List.finRange nbuf).reverse ++ [], ?_, fun b => by simp⟩
    apply Linked.foldl_pushFront (linked_nil (by simp) (by simp))
    simpa using List.nodup_finRange nbuf
  blocks := by
    intro b b' _ hb
    cases hb
  refcnt _ := rfl

/-- A buffer handed out by `bget`. -/
theorem BioOk.give (h : BioOk sys) {dev blockno : Nat} {bc : BCache} {b : Fin nbuf}
    (hget : bget sys.cache dev blockno = some (bc, b)) :
    BioOk (sys.give bc b (bgetLookup sys.cache dev blockno).isNone) := by
  obtain ⟨order, hlinked, hall⟩ := h.linked
  obtain ⟨hlinks, hhit | ⟨hnone, hrec, rfl⟩⟩ := bget_cases hget
  · obtain ⟨hlook, rfl⟩ := hhit
    refine ⟨⟨order, hlinks ▸ hlinked, hall⟩, ?_, ?_⟩
    · apply h.blocks_of_keys
      · simp [BioSys.give, hlook]
      · exact setRefcnt_dev _ _ _
      · exact setRefcnt_blockno _ _ _
    · apply refcnt_update (b := b)
      · have := refcnt_inc (h.refcnt b)
        rw [Nat.add_right_comm] at this
        simpa [BioSys.give] using this
      · intro x hx
        simpa [BioSys.give, setRefcnt_other _ _ hx, Function.update_of_ne hx] using h.refcnt x
  · have hfree := bgetRecycle_free hlinked hrec
    refine ⟨⟨order, hlinked, hall⟩, fun x y hxy hx hy => ?_, ?_⟩
    · simp only [BioSys.give, hnone, Option.isNone_none, if_true] at hx hy ⊢
      rw [setBuf_buf, setBuf_buf]
      by_cases hxb : x = b
      · subst hxb
        rw [if_pos rfl, if_neg (Ne.symm hxy)]
        intro hkey
        exact bgetLookup_none hlinked hall hnone y ⟨hkey.1.symm, hkey.2.symm⟩
      · by_cases hyb : y = b
        · subst hyb
          rw [if_neg hxb, if_pos rfl]
          exact bgetLookup_none hlinked hall hnone x
        · rw [if_neg hxb, if_neg hyb]
          rw [Function.update_of_ne hxb] at hx
          rw [Function.update_of_ne hyb] at hy
          exact h.blocks x y hxy hx hy
    · apply refcnt_update (b := b)
      · have := refcnt_inc (h.refcnt b)
        rw [hfree, Nat.add_right_comm] at this
        simpa [BioSys.give, setBuf_buf] using this
      · intro x hx
        simpa [BioSys.give, setBuf_buf, hx, Function.update_of_ne hx] using h.refcnt x

theorem BioOk.setValid (h : BioOk sys) (b : Fin nbuf) :
    BioOk { sys with cache := sys.cache.setBuf b { sys.cache.buf b with valid := true } } := by
  have hsame : ∀ x, (sys.cache.setBuf b { sys.cache.buf b with valid := true }).buf x =
      { sys.cache.buf x with valid := (sys.cache.setBuf b { sys.cache.buf b with valid := true }).buf x |>.valid } := by
    intro x
    rw [setBuf_buf]
    split_ifs with hx
    · rw [hx]
    · rfl
  refine ⟨h.linked, h.blocks_of_keys rfl (fun x => by rw [hsame]) (fun x => by rw [hsame]),
    fun x => ?_⟩
  rw [hsame]
  exact h.refcnt x

theorem BioOk.release (h : BioOk sys) {b : Fin nbuf} (hheld : 0 < sys.held b) :
    BioOk { sys with
      cache := brelse sys.cache b
      held := Function.update sys.held b (sys.held b - 1)
      released := Function.update sys.released b (some sys.clock)
      clock := sys.clock + 1 } := by
  obtain ⟨order, hlinked, hall⟩ := h.linked
  refine ⟨?_, ?_, ?_⟩
  · show ∃ order, Linked (brelse sys.cache b).links order ∧ ∀ x, x ∈ order
    rw [brelse_links]
    split_ifs
    · refine ⟨b :: order.erase b, hlinked.moveFront (hall b), fun x => ?_⟩
      by_cases hx : x = b
      · rw [hx]
        exact List.mem_cons_self
      · exact List.mem_cons_of_mem b ((List.mem_erase_of_ne hx).mpr (hall x))
    · exact ⟨order, hlinked, hall⟩
  · apply h.blocks_of_keys
    · rfl
    · intro x
      show ((brelse sys.cache b).buf x).dev = _
      rw [brelse_buf, setRefcnt_dev]
    · intro x
      show ((brelse sys.cache b).buf x).blockno = _
      rw [brelse_buf, setRefcnt_blockno]
  · apply refcnt_update (b := b)
    · have := refcnt_dec (by omega) (h.refcnt b)
      simpa [brelse_buf, Nat.sub_add_comm (Nat.succ_le_of_lt hheld)] using this
    · intro x hx
      simpa [brelse_buf, setRefcnt_other _ _ hx, Function.update_of_ne hx] using h.refcnt x

theorem BioOk.pin (h : BioOk sys) (b : Fin nbuf) :
    BioOk { sys with cache := bpin sys.cache b, pins := Function.update sys.pins b (sys.pins b + 1) } := by
  refine ⟨h.linked, h.blocks_of_keys rfl (setRefcnt_dev _ _ _) (setRefcnt_blockno _ _ _), ?_⟩
  apply refcnt_update (b := b)
  · have := refcnt_inc (h.refcnt b)
    simpa [bpin, Nat.add_assoc] using this
  · intro x hx
    simpa [bpin, setRefcnt_other _ _ hx, Function.update_of_ne hx] using h.refcnt x

theorem BioOk.unpin (h : BioOk sys) (b : Fin nbuf) :
    BioOk { sys with cache := bunpin sys.cache b, unpins := Function.update sys.unpins b (sys.unpins b + 1) } := by
  refine ⟨h.linked, h.blocks_of_keys rfl (setRefcnt_dev _ _ _) (setRefcnt_blockno _ _ _), ?_⟩
  apply refcnt_update (b := b)
  · simpa [bunpin] using refcnt_unpin (h.refcnt b)
  · intro x hx
    simpa [bunpin, setRefcnt_other _ _ hx, Function.update_of_ne hx] using h.refcnt x

theorem bioOk_step {a : Action} (h : BioOk sys) (hstep : step sys a = some sys') : BioOk sys' := by
  cases a with
  | get dev blockno =>
      obtain ⟨⟨bc, b⟩, hget, rfl⟩ := Option.map_eq_some_iff.mp hstep
      exact h.give hget
  | read dev blockno =>
      obtain ⟨⟨bc, b⟩, hread, rfl⟩ := Option.map_eq_some_iff.mp hstep
      obtain ⟨bc₁, hget, rfl⟩ := bread_cases hread
      split_ifs
      · exact h.give hget
      · exact (h.give hget).setValid b
  | release b =>
      simp only [step] at hstep
      split_ifs at hstep with hheld
      cases hstep
      exact h.release hheld
  | pin b =>
      cases hstep
      exact h.pin b
  | unpin b =>
      cases hstep
      exact h.unpin b

theorem reachable_bioOk (hs : Reachable sys) : BioOk sys :=
  StepSystem.Reachable.invariant bioOk_init (fun _ _ _ _ h hstep => bioOk_step h hstep) hs

end Runs

/-! ## The kernel's calls -/

section Kernel

variable {sys sys' : BioSys}

/-- The references a buffer has: `bget` results not yet released, and pins not
yet dropped. -/
def BioSys.refs (sys : BioSys) (b : Fin nbuf) : Nat := sys.held b + sys.pins b - sys.unpins b

/-- The calls the kernel makes. `install_trans` unpins a buffer that
`log_write` pinned and that it has just read with `bread` (log.c), so `bunpin`
drops a pin while the caller holds the buffer; and no `refcnt` is at
`2^32 - 1` when a reference is taken. -/
def Disciplined (sys : BioSys) : Action → Prop
  | .get _ _ => ∀ b, (sys.cache.buf b).refcnt ≠ 0xFFFFFFFF
  | .read _ _ => ∀ b, (sys.cache.buf b).refcnt ≠ 0xFFFFFFFF
  | .release _ => True
  | .pin b => (sys.cache.buf b).refcnt ≠ 0xFFFFFFFF
  | .unpin b => 0 < sys.held b ∧ sys.unpins b < sys.pins b

instance (sys : BioSys) : DecidablePred (Disciplined sys) := fun a =>
  match a with
  | .get _ _ => inferInstanceAs (Decidable (∀ _, _))
  | .read _ _ => inferInstanceAs (Decidable (∀ _, _))
  | .release _ => inferInstanceAs (Decidable True)
  | .pin _ => inferInstanceAs (Decidable (_ ≠ _))
  | .unpin _ => inferInstanceAs (Decidable (_ ∧ _))

def kernelStep (sys : BioSys) (a : Action) : Option BioSys :=
  if Disciplined sys a then step sys a else none

/-- The states of the cache that the kernel's calls reach from `binit`. -/
def KernelReachable (sys : BioSys) : Prop := StepSystem.Reachable kernelStep BioSys.init sys

/-- What the kernel's calls keep besides `BioOk`: no pin is dropped before it
is taken, no buffer has `2^32` references, release times lie before the clock,
and only buffers released after it stand before an unreferenced buffer in the
list. -/
structure KernelOk (sys : BioSys) : Prop extends BioOk sys where
  unpins_le : ∀ b, sys.unpins b ≤ sys.pins b
  refs_lt : ∀ b, sys.refs b < 2 ^ 32
  clock : ∀ b t, sys.released b = some t → t < sys.clock
  recency : ∀ order, Linked sys.cache.links order → ∀ x y, List.Sublist [x, y] order → sys.refs y = 0 →
    ∀ t', sys.released y = some t' → ∃ t, sys.released x = some t ∧ t' < t

theorem KernelOk.refcnt_toNat (h : KernelOk sys) (b : Fin nbuf) :
    (sys.cache.buf b).refcnt.toNat = sys.refs b := by
  have hr := (sys.cache.buf b).refcnt.toNat_lt
  have hc := congrArg UInt32.toNat (h.refcnt b)
  have hle := h.unpins_le b
  have hlt := h.refs_lt b
  simp only [UInt32.toNat_add, UInt32.toNat_ofNat'] at hc
  unfold BioSys.refs at hlt ⊢
  omega

theorem KernelOk.refcnt_eq_zero (h : KernelOk sys) (b : Fin nbuf) :
    (sys.cache.buf b).refcnt = 0 ↔ sys.refs b = 0 := by
  rw [← h.refcnt_toNat b, ← UInt32.toNat_inj, UInt32.toNat_zero]

theorem KernelOk.refs_succ_lt (h : KernelOk sys) {b : Fin nbuf} (hmax : (sys.cache.buf b).refcnt ≠ 0xFFFFFFFF) :
    sys.refs b + 1 < 2 ^ 32 := by
  have hne : (sys.cache.buf b).refcnt.toNat ≠ 2 ^ 32 - 1 := fun h' => hmax (UInt32.toNat_inj.mp h')
  have := h.refs_lt b
  rw [h.refcnt_toNat] at hne
  omega

theorem KernelOk.of_quiet (h : KernelOk sys) (hok : BioOk sys') (hlinks : sys'.cache.links = sys.cache.links)
    (hrel : sys'.released = sys.released) (hclock : sys'.clock = sys.clock)
    (hcount : ∀ y, sys'.unpins y ≤ sys'.pins y ∧ sys'.refs y < 2 ^ 32)
    (hfree : ∀ y, sys'.refs y = 0 → sys.refs y = 0) : KernelOk sys' where
  toBioOk := hok
  unpins_le y := (hcount y).1
  refs_lt y := (hcount y).2
  clock b t ht := by
    rw [hrel] at ht
    rw [hclock]
    exact h.clock b t ht
  recency order hl x y hxy hy t' ht' := by
    rw [hrel] at ht' ⊢
    exact h.recency order (hlinks ▸ hl) x y hxy (hfree y hy) t' ht'

theorem KernelOk.give (h : KernelOk sys) (hmax : ∀ b, (sys.cache.buf b).refcnt ≠ 0xFFFFFFFF)
    {bc : BCache} {b : Fin nbuf} {r : Bool} (hok : BioOk (sys.give bc b r)) (hlinks : bc.links = sys.cache.links) :
    KernelOk (sys.give bc b r) := by
  have hrefs : ∀ y, (sys.give bc b r).refs y = sys.refs y + if y = b then 1 else 0 := by
    intro y
    have := h.unpins_le y
    by_cases hy : y = b
    · subst hy
      simp only [BioSys.refs, BioSys.give, Function.update_self, if_true]
      omega
    · simp [BioSys.refs, BioSys.give, hy]
  refine h.of_quiet hok hlinks rfl rfl (fun y => ⟨h.unpins_le y, ?_⟩) (fun y hy => ?_)
  · rw [hrefs]
    split_ifs with hy
    · subst hy
      exact h.refs_succ_lt (hmax y)
    · simpa using h.refs_lt y
  · rw [hrefs] at hy
    omega

theorem KernelOk.pin (h : KernelOk sys) {b : Fin nbuf} (hmax : (sys.cache.buf b).refcnt ≠ 0xFFFFFFFF) :
    KernelOk { sys with cache := bpin sys.cache b, pins := Function.update sys.pins b (sys.pins b + 1) } := by
  refine h.of_quiet (h.toBioOk.pin b) rfl rfl rfl (fun y => ?_) (fun y hy => ?_)
  all_goals
    have := h.unpins_le y
    have := h.refs_lt y
    by_cases hy' : y = b
  · subst hy'
    have := h.refs_succ_lt hmax
    simp only [BioSys.refs, Function.update_self] at this ⊢
    omega
  · simp only [BioSys.refs, Function.update_of_ne hy'] at this ⊢
    omega
  · subst hy'
    simp only [BioSys.refs, Function.update_self] at hy
    omega
  · simpa only [BioSys.refs, Function.update_of_ne hy'] using hy

theorem KernelOk.unpin (h : KernelOk sys) {b : Fin nbuf} (hheld : 0 < sys.held b) (hpin : sys.unpins b < sys.pins b) :
    KernelOk { sys with cache := bunpin sys.cache b, unpins := Function.update sys.unpins b (sys.unpins b + 1) } := by
  refine h.of_quiet (h.toBioOk.unpin b) rfl rfl rfl (fun y => ?_) (fun y hy => ?_)
  all_goals
    have := h.unpins_le y
    have := h.refs_lt y
    by_cases hy' : y = b
  · subst hy'
    simp only [BioSys.refs, Function.update_self] at this ⊢
    omega
  · simp only [BioSys.refs, Function.update_of_ne hy'] at this ⊢
    omega
  · subst hy'
    simp only [BioSys.refs, Function.update_self] at hy
    omega
  · simpa only [BioSys.refs, Function.update_of_ne hy'] using hy

/-- `brelse` stamps the buffer with the clock, and moves it to the front
exactly when it drops the last reference. -/
theorem KernelOk.release (h : KernelOk sys) {b : Fin nbuf} (hheld : 0 < sys.held b) :
    KernelOk { sys with
      cache := brelse sys.cache b
      held := Function.update sys.held b (sys.held b - 1)
      released := Function.update sys.released b (some sys.clock)
      clock := sys.clock + 1 } := by
  set sys' : BioSys := { sys with
      cache := brelse sys.cache b
      held := Function.update sys.held b (sys.held b - 1)
      released := Function.update sys.released b (some sys.clock)
      clock := sys.clock + 1 }
  have hrefs : ∀ y, sys'.refs y = if y = b then sys.refs b - 1 else sys.refs y := by
    intro y
    have := h.unpins_le y
    by_cases hy : y = b
    · subst hy
      simp only [sys', BioSys.refs, Function.update_self, if_true]
      omega
    · simp [sys', BioSys.refs, hy]
  obtain ⟨order, hl, hall⟩ := h.linked
  -- the buffers before an unreferenced `y ≠ b` are those before it in the old
  -- list, and `b` itself, now the newest
  have hkey : ∀ x y, y ≠ b → (x ≠ b → List.Sublist [x, y] order) → sys'.refs y = 0 →
      ∀ t', sys'.released y = some t' → ∃ t, sys'.released x = some t ∧ t' < t := by
    intro x y hyb hxy hy t' ht'
    simp only [sys', Function.update_of_ne hyb] at ht'
    by_cases hxb : x = b
    · subst hxb
      exact ⟨sys.clock, by simp [sys'], h.clock y t' ht'⟩
    · rw [hrefs, if_neg hyb] at hy
      obtain ⟨t, ht, hlt⟩ := h.recency order hl x y (hxy hxb) hy t' ht'
      exact ⟨t, by simp [sys', Function.update_of_ne hxb, ht], hlt⟩
  refine ⟨h.toBioOk.release hheld, h.unpins_le, fun y => ?_, fun y t ht => ?_, ?_⟩
  · rw [hrefs]
    split_ifs
    · have := h.refs_lt b
      omega
    · exact h.refs_lt y
  · by_cases hy : y = b
    · subst hy
      simp only [sys', Function.update_self, Option.some.injEq] at ht
      simp [sys', ← ht]
    · simp only [sys', Function.update_of_ne hy] at ht
      have := h.clock y t ht
      simp only [sys']
      omega
  · intro order' hl' x y hxy hy t' ht'
    have hlinks : sys'.cache.links = _ := brelse_links sys.cache b
    have hb1 : 1 ≤ sys.refs b := by
      have := h.unpins_le b
      unfold BioSys.refs
      omega
    split_ifs at hlinks with hzero
    · have hmove := hl.moveFront (hall b)
      rw [← hlinks] at hmove
      rw [hl'.unique hmove] at hxy
      exact hkey x y (ne_of_moveFront hl.nodup hxy) (sublist_of_moveFront hxy) hy t' ht'
    · -- `b` keeps a reference, so it is not the unreferenced `y`
      have hyb : y ≠ b := by
        rintro rfl
        rw [hrefs, if_pos rfl] at hy
        have h1 : (sys.cache.buf y).refcnt.toNat = 1 := by rw [h.refcnt_toNat]; omega
        exact hzero (UInt32.toNat_inj.mp (by rw [UInt32.toNat_sub_of_le _ _ (by
          rw [UInt32.le_iff_toNat_le, h1]; decide), h1]; rfl))
      rw [hlinks] at hl'
      rw [hl'.unique hl] at hxy
      exact hkey x y hyb (fun _ => hxy) hy t' ht'

theorem KernelOk.of_step (h : KernelOk sys) {a : Action} (hd : Disciplined sys a) (hs : step sys a = some sys') :
    KernelOk sys' := by
  have hok := bioOk_step h.toBioOk hs
  cases a with
  | get dev blockno =>
      obtain ⟨⟨bc, b⟩, hget, rfl⟩ := Option.map_eq_some_iff.mp hs
      exact h.give hd hok (bget_cases hget).1
  | read dev blockno =>
      obtain ⟨⟨bc, b⟩, hread, rfl⟩ := Option.map_eq_some_iff.mp hs
      obtain ⟨bc₁, hget, rfl⟩ := bread_cases hread
      refine h.give hd hok ?_
      split_ifs
      · exact (bget_cases hget).1
      · exact (bget_cases hget).1
  | release b =>
      simp only [step] at hs
      split_ifs at hs with hheld
      cases hs
      exact h.release hheld
  | pin b =>
      cases hs
      exact h.pin hd
  | unpin b =>
      cases hs
      exact h.unpin hd.1 hd.2

theorem kernelOk_init : KernelOk BioSys.init where
  toBioOk := bioOk_init
  unpins_le _ := Nat.le_refl 0
  refs_lt _ := Nat.two_pow_pos 32
  clock _ _ ht := by cases ht
  recency _ _ _ _ _ _ _ ht := by cases ht

theorem KernelReachable.kernelOk (hs : KernelReachable sys) : KernelOk sys :=
  StepSystem.Reachable.invariant kernelOk_init
    (fun _ _ _ _ h hstep => by
      unfold kernelStep at hstep
      split_ifs at hstep with hd
      exact h.of_step hd hstep) hs

theorem KernelOk.recycle_least_recent (h : KernelOk sys) {b b' : Fin nbuf} (hrec : bgetRecycle sys.cache = some b)
    (hne : b' ≠ b) (hfree : (sys.cache.buf b').refcnt = 0) {t : Nat} (ht : sys.released b = some t) :
    ∃ t', sys.released b' = some t' ∧ t < t' := by
  obtain ⟨order, hl, hall⟩ := h.linked
  have hb := bgetRecycle_free hl hrec
  rw [bgetRecycle_eq hl] at hrec
  have hsub := sublist_of_find_reverse hrec (hall b') (decide_eq_true hfree) hne
  exact h.recency order hl b' b hsub ((h.refcnt_eq_zero b).mp hb) t ht

end Kernel

/-! ## What the cache keeps -/

section Contract

/-- `bget` recycles the unreferenced buffer released least recently: no
unreferenced buffer was released by `brelse` before the one it recycles. -/
def RecyclesLeastRecentlyReleased : Prop :=
  ∀ sys dev blockno b, Reachable sys → bgetLookup sys.cache dev blockno = none →
    bgetRecycle sys.cache = some b →
    ∀ b' t t', (sys.cache.buf b').refcnt = 0 → sys.released b = some t → sys.released b' = some t' → t ≤ t'

/-- Buffer 0 is pinned while it is held, as `log_write` pins it; buffer 1 is
released afterwards, first; then buffer 0 is released and unpinned with no
reference held, which leaves it unreferenced at the back of the list. -/
def staleUnpinRun : List Action :=
  [.get 1 10, .get 1 20, .release 1, .pin 0, .release 0, .unpin 0]

theorem recycles_least_recently_released_fails : ¬ RecyclesLeastRecentlyReleased := by
  intro hall
  have hrun : ∃ sys, Reachable sys ∧ bgetLookup sys.cache 1 30 = none ∧ bgetRecycle sys.cache = some 0 ∧
      (sys.cache.buf 1).refcnt = 0 ∧ sys.released 0 = some 1 ∧ sys.released 1 = some 0 :=
    StepSystem.exists_reachable_of_check .init staleUnpinRun _ (by decide +kernel)
  obtain ⟨sys, hs, hlook, hrec, hfree, h0, h1⟩ := hrun
  exact absurd (hall sys 1 30 0 hs hlook hrec 1 1 0 hfree h0 h1) (by decide)

theorem bio_contract (sys : BioSys) (hs : KernelReachable sys) :
    (∃ order, Linked sys.cache.links order ∧ ∀ b, b ∈ order) ∧
    (∀ b b', b ≠ b' → sys.assigned b = true → sys.assigned b' = true →
      ¬ ((sys.cache.buf b).dev = (sys.cache.buf b').dev ∧
        (sys.cache.buf b).blockno = (sys.cache.buf b').blockno)) ∧
    (∀ b, (sys.cache.buf b).refcnt.toNat = sys.held b + sys.pins b - sys.unpins b) ∧
    (∀ dev blockno bc b, bgetLookup sys.cache dev blockno = none → bget sys.cache dev blockno = some (bc, b) →
      (sys.cache.buf b).refcnt = 0 ∧
        ∀ b', b' ≠ b → (sys.cache.buf b').refcnt = 0 → ∀ t, sys.released b = some t →
          ∃ t', sys.released b' = some t' ∧ t < t') := by
  have h := hs.kernelOk
  refine ⟨h.linked, h.blocks, h.refcnt_toNat, fun dev blockno bc b hlook hget => ?_⟩
  obtain ⟨order, hl, -⟩ := h.linked
  obtain ⟨-, ⟨hhit, -⟩ | ⟨-, hrec, -⟩⟩ := bget_cases hget
  · rw [hlook] at hhit
    cases hhit
  · exact ⟨bgetRecycle_free hl hrec, fun b' hne hfree t ht => h.recycle_least_recent hrec hne hfree ht⟩

/-- Every buffer read, buffer 1 released; then the log's calls on buffer 0:
`log_write` pins it while it is held, and `install_trans` reads it again,
unpins it and releases it. -/
def installRun : List Action :=
  (List.range nbuf).map (.read 1) ++ [.release 1, .pin 0, .release 0, .read 1 0, .unpin 0, .release 0]

theorem bio_contract_installRun :
    ∃ sys bc, StepSystem.run kernelStep BioSys.init installRun = some sys ∧ bgetLookup sys.cache 1 100 = none ∧
      bget sys.cache 1 100 = some (bc, 1) ∧ sys.released 1 = some 0 ∧
      ∀ b', b' ≠ 1 → (sys.cache.buf b').refcnt = 0 → ∃ t', sys.released b' = some t' ∧ 0 < t' := by
  have hcheck : (StepSystem.run kernelStep BioSys.init installRun).map (fun s => decide
      (bgetLookup s.cache 1 100 = none ∧ (bget s.cache 1 100).map Prod.snd = some 1 ∧
        s.released 1 = some 0)) = some true := by
    decide +kernel
  obtain ⟨sys, hrun, hP⟩ := Option.map_eq_some_iff.mp hcheck
  obtain ⟨hlook, hget, hrel⟩ := of_decide_eq_true hP
  obtain ⟨⟨bc, b⟩, hget', rfl⟩ := Option.map_eq_some_iff.mp hget
  obtain ⟨-, -, -, hlru⟩ := bio_contract sys (StepSystem.reachable_of_run .init hrun)
  exact ⟨sys, bc, hrun, hlook, hget', hrel, fun b' hne hfree => (hlru 1 100 bc 1 hlook hget').2 b' hne hfree 0 hrel⟩

end Contract

end Xv6Mlfq.Bio
