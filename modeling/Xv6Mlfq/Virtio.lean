import Mathlib.Algebra.BigOperators.Ring.List
import Mathlib.Data.Fintype.Card
import Xv6Mlfq.Library.Ring
import Xv6Mlfq.Library.StepSystem
import Xv6Mlfq.ProcData
import Xv6Mlfq.Bio

/-!
The virtio block driver of virtio_disk.c together with the device it drives.
Each request takes three of the NUM descriptors (alloc3_desc, which gives back
what it took when it cannot get all three), links them head, data, status
through flags and next, and publishes the head on the avail ring; the caller
then sleeps until virtio_disk_intr has seen the head come back on the used
ring and cleared b->disk, and frees the chain by following its flags.

Everything the driver does under vdisk_lock between two sleeps is one step,
and so is each pass of virtio_disk_intr's loop. A process asleep on
&disk.free[0] may retry at any time, which is all a wakeup lets it do. The
device takes heads off the avail ring in order and returns each one once, in
any order, writing status 0 into the request's info entry. The rings' indices
are 16-bit counters that wrap. The descriptors' addr and len fields and
disk.ops (the buffers the device reads and writes) are left out.
-/

namespace Xv6Mlfq.Virtio

open StepSystem
open Ring (cell window)
open Xv6Mlfq.ProcData (Slot nproc)
open Xv6Mlfq.Bio (nbuf)

/-- NUM in virtio.h: the descriptors, and the entries of each ring. -/
def num : Nat := 8

instance : NeZero num := ⟨by decide⟩

def vringDescFNext : Nat := 1

def vringDescFWrite : Nat := 2

/-- A struct virtq_desc without its addr and len. -/
structure VirtqDesc where
  flags : Nat
  next : Nat
  deriving DecidableEq

/-- An entry of disk.info: the buffer of the request whose chain starts here,
and the status byte the device writes. -/
structure Info where
  b : Option (Fin nbuf)
  status : Nat
  deriving DecidableEq

/-- The avail and used rings: the index the next entry goes to, a 16-bit
counter, and the ring of chain heads. -/
structure Virtq where
  idx : Nat
  ring : Fin num → Fin num

/-- Where a process is in virtio_disk_rw: not in it, asleep in the
alloc3_desc loop on &disk.free[0], or asleep on b with its chain idx[0],
idx[1], idx[2] published. -/
inductive Pc
  | idle
  | allocating (b : Fin nbuf) (write : Bool)
  | waiting (b : Fin nbuf) (write : Bool) (i0 i1 i2 : Fin num)
  deriving DecidableEq

/-- The struct disk, the device's side of the queue (the avail entries it has
taken, and the heads it holds), each buffer's b->disk, and where each process
is in virtio_disk_rw. -/
@[ext] structure Disk where
  desc : Fin num → VirtqDesc
  free : Fin num → Bool
  usedIdx : Nat
  info : Fin num → Info
  avail : Virtq
  used : Virtq
  lastAvail : Nat
  inDevice : List (Fin num)
  bdisk : Fin nbuf → Bool
  pc : Slot → Pc

/-- After virtio_disk_init: the rings and descriptors zeroed, every descriptor
free, no request. -/
def init : Disk where
  desc _ := ⟨0, 0⟩
  free _ := true
  usedIdx := 0
  info _ := ⟨none, 0⟩
  avail := ⟨0, fun _ => 0⟩
  used := ⟨0, fun _ => 0⟩
  lastAvail := 0
  inDevice := []
  bdisk _ := false
  pc _ := .idle

/-- disk.free[i] = 0. -/
def Disk.taken (d : Disk) (i : Fin num) : Disk := { d with free := Function.update d.free i false }

/-- What free_desc does to descriptor i: zeroed, and disk.free[i] = 1. -/
def Disk.freed (d : Disk) (i : Fin num) : Disk :=
  { d with desc := Function.update d.desc i ⟨0, 0⟩, free := Function.update d.free i true }

/-- alloc_desc: the first free descriptor, marked in use; none is -1. -/
def allocDesc (d : Disk) : Disk × Option (Fin num) :=
  match (List.finRange num).find? fun i => d.free i with
  | some i => (d.taken i, some i)
  | none => (d, none)

/-- free_desc(i); none where it panics ("free_desc 1", "free_desc 2"). -/
def freeDesc (d : Disk) (i : Nat) : Option Disk :=
  if h : i < num then
    if d.free ⟨i, h⟩ then none else some (d.freed ⟨i, h⟩)
  else none

/-- disk.desc[i], which free_chain reads before free_desc checks i. -/
def Disk.descAt (d : Disk) (i : Nat) : VirtqDesc :=
  if h : i < num then d.desc ⟨i, h⟩ else ⟨0, 0⟩

/-- free_chain(i). Each pass frees a descriptor or panics, so num + 1 passes
are more than it ever makes; running out of them counts as a panic. -/
def freeChain : Nat → Disk → Nat → Option Disk
  | 0, _, _ => none
  | fuel + 1, d, i =>
      let flag := (d.descAt i).flags
      let nxt := (d.descAt i).next
      (freeDesc d i).bind fun d =>
        if flag &&& vringDescFNext ≠ 0 then freeChain fuel d nxt else some d

/-- alloc3_desc(idx): three descriptors, or -1 once those it took are freed;
none where a free_desc panics. -/
def alloc3Desc (d : Disk) : Option (Disk × Option (Fin num × Fin num × Fin num)) :=
  match allocDesc d with
  | (d, none) => some (d, none)
  | (d, some i0) =>
      match allocDesc d with
      | (d, none) => (freeDesc d i0).map fun d => (d, none)
      | (d, some i1) =>
          match allocDesc d with
          | (d, none) => ((freeDesc d i0).bind fun d => freeDesc d i1).map fun d => (d, none)
          | (d, some i2) => some (d, some (i0, i1, i2))

/-- virtio_disk_rw formatting the three descriptors, recording b in
info[idx[0]] and publishing idx[0] on the avail ring. -/
def submit (d : Disk) (b : Fin nbuf) (write : Bool) (i0 i1 i2 : Fin num) : Disk :=
  let desc := Function.update d.desc i0 ⟨vringDescFNext, i1⟩
  let desc := Function.update desc i1 ⟨(if write then 0 else vringDescFWrite) ||| vringDescFNext, i2⟩
  let desc := Function.update desc i2 ⟨vringDescFWrite, 0⟩
  { d with desc, info := Function.update d.info i0 ⟨some b, 0xff⟩,
           bdisk := Function.update d.bdisk b true,
           avail := ⟨(d.avail.idx + 1) % 2 ^ 16, Ring.write d.avail.ring d.avail.idx i0⟩ }

/-- virtio_disk_rw(b, write) by p up to its next sleep: alloc3_desc, then
either the request published and p asleep on b (b->disk is 1), or p asleep on
&disk.free[0]. -/
def rwAlloc (d : Disk) (p : Slot) (b : Fin nbuf) (write : Bool) : Option Disk :=
  (alloc3Desc d).map fun
    | (d, some (i0, i1, i2)) =>
        { submit d b write i0 i1 i2 with pc := Function.update d.pc p (.waiting b write i0 i1 i2) }
    | (d, none) => { d with pc := Function.update d.pc p (.allocating b write) }

/-- The end of virtio_disk_rw once b->disk is 0: info[idx[0]].b = 0 and
free_chain(idx[0]). -/
def rwFinish (d : Disk) (p : Slot) (i0 : Fin num) : Option Disk :=
  (freeChain (num + 1) { d with info := Function.update d.info i0 { d.info i0 with b := none } } i0).map
    fun d => { d with pc := Function.update d.pc p .idle }

/-- The device takes the next head off the avail ring. -/
def deviceTake (d : Disk) : Option Disk :=
  if d.lastAvail ≠ d.avail.idx then
    some { d with inDevice := d.inDevice ++ [cell d.avail.ring d.lastAvail],
                  lastAvail := (d.lastAvail + 1) % 2 ^ 16 }
  else none

/-- The device finishes the chain at h: status 0 through its last descriptor,
and h on the used ring. -/
def deviceDone (d : Disk) (h : Fin num) : Option Disk :=
  if h ∈ d.inDevice then
    some { d with info := Function.update d.info h { d.info h with status := 0 },
                  used := ⟨(d.used.idx + 1) % 2 ^ 16, Ring.write d.used.ring d.used.idx h⟩,
                  inDevice := d.inDevice.erase h }
  else none

/-- One pass of virtio_disk_intr's loop: the head id at disk.used_idx, its
status checked, b->disk = 0 for its buffer and wakeup(b); none where it panics
("virtio_disk_intr status") or b is null. -/
def intrStep (d : Disk) : Option Disk :=
  let id := cell d.used.ring d.usedIdx
  if (d.info id).status ≠ 0 then none
  else
    match (d.info id).b with
    | none => none
    | some b => some { d with bdisk := Function.update d.bdisk b false, usedIdx := (d.usedIdx + 1) % 2 ^ 16 }

/-- The buffer a process is in virtio_disk_rw with. -/
def Pc.buf : Pc → Option (Fin nbuf)
  | .idle => none
  | .allocating b _ => some b
  | .waiting b _ _ _ _ => some b

inductive Act
  | rw (p : Slot) (b : Fin nbuf) (write : Bool)
  | retry (p : Slot)
  | finish (p : Slot)
  | take
  | done (h : Fin num)
  | intr

def step (d : Disk) : Act → Option Disk
  | .rw p b write =>
      -- the caller holds b's sleep-lock (bread, bwrite), so no other process
      -- is in virtio_disk_rw with b
      if d.pc p = .idle ∧ ∀ q, (d.pc q).buf ≠ some b then rwAlloc d p b write else none
  | .retry p =>
      match d.pc p with
      | .allocating b write => rwAlloc d p b write
      | _ => none
  | .finish p =>
      match d.pc p with
      | .waiting b _ i0 _ _ => if d.bdisk b = false then rwFinish d p i0 else none
      | _ => none
  | .take => deviceTake d
  | .done h => deviceDone d h
  | .intr => if d.usedIdx ≠ d.used.idx then intrStep d else none

section Descriptors

variable {d d' : Disk}

@[simp] theorem taken_free (d : Disk) (i : Fin num) : (d.taken i).free = Function.update d.free i false := rfl

@[simp] theorem taken_desc (d : Disk) (i : Fin num) : (d.taken i).desc = d.desc := rfl

@[simp] theorem freed_free (d : Disk) (i : Fin num) : (d.freed i).free = Function.update d.free i true := rfl

@[simp] theorem freed_desc (d : Disk) (i : Fin num) :
    (d.freed i).desc = Function.update d.desc i ⟨0, 0⟩ := rfl

theorem allocDesc_some {i : Fin num} (h : allocDesc d = (d', some i)) : d.free i = true ∧ d' = d.taken i := by
  unfold allocDesc at h
  split at h
  · rename_i j hj
    simp only [Prod.mk.injEq, Option.some.injEq] at h
    obtain ⟨rfl, rfl⟩ := h
    exact ⟨List.find?_some hj, rfl⟩
  · simp at h

theorem allocDesc_none (h : allocDesc d = (d', none)) : d' = d ∧ ∀ i, d.free i = false := by
  unfold allocDesc at h
  split at h
  · simp at h
  · rename_i hj
    simp only [Prod.mk.injEq, and_true] at h
    refine ⟨h.symm, fun i => ?_⟩
    simpa using List.find?_eq_none.mp hj i (List.mem_finRange i)

theorem descAt_fin (d : Disk) (i : Fin num) : d.descAt i = d.desc i := by
  simp [Disk.descAt]

theorem freeDesc_fin (d : Disk) {i : Fin num} (h : d.free i = false) : freeDesc d i = some (d.freed i) := by
  simp [freeDesc, h]

theorem freed_taken {i : Fin num} (hz : d.desc i = ⟨0, 0⟩) (hf : d.free i = true) : (d.taken i).freed i = d := by
  have hdesc : Function.update d.desc i ⟨0, 0⟩ = d.desc := by rw [← hz, Function.update_eq_self]
  have hfree : Function.update (Function.update d.free i false) i true = d.free := by
    rw [Function.update_idem, ← hf, Function.update_eq_self]
  simp only [Disk.freed, Disk.taken, hdesc, hfree]

theorem freed_taken_two {i j : Fin num} (hzi : d.desc i = ⟨0, 0⟩) (hzj : d.desc j = ⟨0, 0⟩)
    (hfi : d.free i = true) (hfj : d.free j = true) : (((d.taken i).taken j).freed i).freed j = d := by
  ext k
  · simp only [freed_desc, taken_desc, Function.update_apply]
    split_ifs with hk₁ hk₀ <;> simp_all
  · simp only [freed_free, taken_free, Function.update_apply]
    split_ifs with hk₁ hk₀ <;> simp_all
  all_goals rfl

theorem alloc3Desc_spec (hz : ∀ i, d.free i = true → d.desc i = ⟨0, 0⟩) :
    alloc3Desc d = some (d, none) ∨
      ∃ i0 i1 i2, [i0, i1, i2].Nodup ∧ d.free i0 = true ∧ d.free i1 = true ∧ d.free i2 = true ∧
        alloc3Desc d = some (((d.taken i0).taken i1).taken i2, some (i0, i1, i2)) := by
  rcases h0 : allocDesc d with ⟨d1, _ | i0⟩
  · obtain ⟨rfl, -⟩ := allocDesc_none h0
    left
    simp [alloc3Desc, h0]
  obtain ⟨hf0, rfl⟩ := allocDesc_some h0
  rcases h1 : allocDesc (d.taken i0) with ⟨d2, _ | i1⟩
  · obtain ⟨rfl, -⟩ := allocDesc_none h1
    left
    simp [alloc3Desc, h0, h1, freeDesc_fin, freed_taken (hz i0 hf0) hf0]
  obtain ⟨hf1, rfl⟩ := allocDesc_some h1
  have h10 : i1 ≠ i0 := by
    rintro rfl
    simp at hf1
  have hf1' : d.free i1 = true := by simpa [h10] using hf1
  rcases h2 : allocDesc ((d.taken i0).taken i1) with ⟨d3, _ | i2⟩
  · obtain ⟨rfl, -⟩ := allocDesc_none h2
    left
    simp only [alloc3Desc, h0, h1, h2]
    rw [freeDesc_fin _ (by simp [Function.update_of_ne h10.symm]), Option.bind_some,
      freeDesc_fin _ (by simp [Function.update_of_ne h10]), freed_taken_two (hz i0 hf0) (hz i1 hf1') hf0 hf1']
    rfl
  obtain ⟨hf2, rfl⟩ := allocDesc_some h2
  have h20 : i2 ≠ i0 := by
    rintro rfl
    simp [h10.symm] at hf2
  have h21 : i2 ≠ i1 := by
    rintro rfl
    simp at hf2
  right
  refine ⟨i0, i1, i2, by simp [h10.symm, h20.symm, h21.symm], hf0, hf1',
    by simpa [h20, h21] using hf2, ?_⟩
  simp [alloc3Desc, h0, h1, h2]

theorem freeChain_next {fuel : Nat} {i : Fin num} (hf : d.free i = false)
    (hn : (d.desc i).flags &&& vringDescFNext ≠ 0) :
    freeChain (fuel + 1) d i = freeChain fuel (d.freed i) (d.desc i).next := by
  simp [freeChain, descAt_fin, freeDesc_fin _ hf, hn]

theorem freeChain_last {fuel : Nat} {i : Fin num} (hf : d.free i = false)
    (hn : (d.desc i).flags &&& vringDescFNext = 0) : freeChain (fuel + 1) d i = some (d.freed i) := by
  simp [freeChain, descAt_fin, freeDesc_fin _ hf, hn]

theorem freeChain_request {w : Bool} {i0 i1 i2 : Fin num} (hnd : [i0, i1, i2].Nodup)
    (h0 : d.desc i0 = ⟨vringDescFNext, i1⟩)
    (h1 : d.desc i1 = ⟨(if w then 0 else vringDescFWrite) ||| vringDescFNext, i2⟩)
    (h2 : d.desc i2 = ⟨vringDescFWrite, 0⟩)
    (hf0 : d.free i0 = false) (hf1 : d.free i1 = false) (hf2 : d.free i2 = false) :
    freeChain (num + 1) d i0 = some (((d.freed i0).freed i1).freed i2) := by
  simp only [List.nodup_cons, List.mem_cons, not_or, List.not_mem_nil, not_false_eq_true,
    List.nodup_nil, and_true] at hnd
  obtain ⟨⟨h01, h02⟩, h12⟩ := hnd
  have hflag : ((if w then 0 else vringDescFWrite) ||| vringDescFNext) &&& vringDescFNext ≠ 0 := by
    cases w <;> decide
  have hnext0 : (d.desc i0).flags &&& vringDescFNext ≠ 0 := by
    rw [h0]
    exact (by decide : vringDescFNext &&& vringDescFNext ≠ 0)
  have hlast : vringDescFWrite &&& vringDescFNext = 0 := by decide
  rw [show num + 1 = 6 + 1 + 1 + 1 from rfl, freeChain_next hf0 hnext0, h0]
  have hd1 : (d.freed i0).desc i1 = d.desc i1 := by simp [Ne.symm h01]
  rw [freeChain_next (by simp [Ne.symm h01, hf1]) (by rw [hd1, h1]; exact hflag), hd1, h1]
  have hd2 : ((d.freed i0).freed i1).desc i2 = d.desc i2 := by simp [Ne.symm h02, Ne.symm h12]
  rw [freeChain_last (by simp [Ne.symm h02, Ne.symm h12, hf2]) (by rw [hd2, h2]; exact hlast)]

end Descriptors

section Requests

/-- The descriptors a process's request holds. -/
def Pc.chain : Pc → List (Fin num)
  | .waiting _ _ i0 i1 i2 => [i0, i1, i2]
  | _ => []

/-- The head of a process's request. -/
def Pc.head : Pc → List (Fin num)
  | .waiting _ _ i0 _ _ => [i0]
  | _ => []

theorem Pc.length_chain (c : Pc) : c.chain.length = 3 * c.head.length := by
  cases c <;> rfl

theorem Pc.head_subset_chain {c : Pc} {h : Fin num} (hh : h ∈ c.head) : h ∈ c.chain := by
  cases c <;> simp_all [Pc.head, Pc.chain]

/-- The avail entries the device has not taken yet, oldest first. -/
def Disk.availWindow (d : Disk) : List (Fin num) :=
  window d.avail.ring d.lastAvail ((d.avail.idx + 2 ^ 16 - d.lastAvail) % 2 ^ 16)

/-- The used entries virtio_disk_intr has not seen yet, oldest first. -/
def Disk.usedWindow (d : Disk) : List (Fin num) :=
  window d.used.ring d.usedIdx ((d.used.idx + 2 ^ 16 - d.usedIdx) % 2 ^ 16)

/-- The heads on their way through the device: published, held by it, and
returned but not yet seen. -/
def Disk.inflight (d : Disk) : List (Fin num) := d.availWindow ++ d.inDevice ++ d.usedWindow

/-- What every reachable state keeps. Each request's three descriptors are
linked head, data, status, and its head records its buffer; a descriptor is in
use exactly when a request holds it, and no two requests share one or a
buffer; a free descriptor is zeroed. The heads in flight are distinct heads of
requests, and a request's b->disk is 1 exactly while its head is in flight, its
status 0xff until the device has finished it. -/
structure DiskOk (d : Disk) : Prop where
  counters : d.avail.idx < 2 ^ 16 ∧ d.lastAvail < 2 ^ 16 ∧ d.used.idx < 2 ^ 16 ∧ d.usedIdx < 2 ^ 16
  chain : ∀ p b w i0 i1 i2, d.pc p = .waiting b w i0 i1 i2 →
    [i0, i1, i2].Nodup ∧ d.desc i0 = ⟨vringDescFNext, i1⟩ ∧
      d.desc i1 = ⟨(if w then 0 else vringDescFWrite) ||| vringDescFNext, i2⟩ ∧
      d.desc i2 = ⟨vringDescFWrite, 0⟩ ∧ (d.info i0).b = some b
  owned : ∀ i, d.free i = false ↔ ∃ p, i ∈ (d.pc p).chain
  disjoint : ∀ p q, p ≠ q → ∀ i ∈ (d.pc p).chain, i ∉ (d.pc q).chain
  bufs : ∀ p q, p ≠ q → ∀ b, (d.pc p).buf = some b → (d.pc q).buf ≠ some b
  zeroed : ∀ i, d.free i = true → d.desc i = ⟨0, 0⟩
  nodup : d.inflight.Nodup
  heads : ∀ h ∈ d.inflight, ∃ p, h ∈ (d.pc p).head
  stage : ∀ p b w i0 i1 i2, d.pc p = .waiting b w i0 i1 i2 →
    (d.bdisk b = true ↔ i0 ∈ d.inflight) ∧
      (d.info i0).status = if i0 ∈ d.availWindow ++ d.inDevice then 0xff else 0
  bdisk : ∀ b, d.bdisk b = true → ∃ p w i0 i1 i2, d.pc p = .waiting b w i0 i1 i2

variable {d : Disk}

theorem DiskOk.chain_nodup (h : DiskOk d) (p : Slot) : (d.pc p).chain.Nodup := by
  cases hp : d.pc p with
  | waiting b w i0 i1 i2 => exact (h.chain p b w i0 i1 i2 hp).1
  | _ => exact List.nodup_nil

theorem DiskOk.length_inflight (h : DiskOk d) : d.inflight.length ≤ 2 := by
  have hall : ((List.finRange nproc).flatMap fun p => (d.pc p).chain).Nodup := by
    rw [List.nodup_flatMap]
    refine ⟨fun p _ => h.chain_nodup p, (List.nodup_finRange nproc).pairwise_of_forall_ne ?_⟩
    intro p _ q _ hpq i hp hq
    exact h.disjoint p q hpq i hp hq
  have hcard := hall.length_le_card
  have hthree : ((List.finRange nproc).flatMap fun p => (d.pc p).chain).length =
      3 * ((List.finRange nproc).flatMap fun p => (d.pc p).head).length := by
    simp only [List.length_flatMap, Pc.length_chain, List.sum_map_mul_left]
  have hsub : d.inflight ⊆ (List.finRange nproc).flatMap fun p => (d.pc p).head := by
    intro x hx
    obtain ⟨p, hp⟩ := h.heads x hx
    exact List.mem_flatMap.mpr ⟨p, List.mem_finRange p, hp⟩
  have hle := (h.nodup.subperm hsub).length_le
  simp only [Fintype.card_fin] at hcard
  rw [hthree] at hcard
  have : num = 8 := rfl
  omega

end Requests

section Preservation

variable {d : Disk}

theorem DiskOk.not_mem_chain (h : DiskOk d) {i : Fin num} (hf : d.free i = true) (q : Slot) :
    i ∉ (d.pc q).chain := fun hq => by
  have := (h.owned i).mpr ⟨q, hq⟩
  simp_all

theorem DiskOk.waiting_of_inflight (h : DiskOk d) {x : Fin num} (hx : x ∈ d.inflight) :
    ∃ q b w i1 i2, d.pc q = .waiting b w x i1 i2 := by
  obtain ⟨q, hq⟩ := h.heads x hx
  cases hc : d.pc q with
  | waiting b w i0 i1 i2 =>
      rw [hc] at hq
      simp only [Pc.head, List.mem_singleton] at hq
      exact ⟨q, b, w, i1, i2, hq ▸ hc⟩
  | _ => simp [hc, Pc.head] at hq

theorem DiskOk.not_free_of_inflight (h : DiskOk d) {x : Fin num} (hx : x ∈ d.inflight) : d.free x = false := by
  obtain ⟨q, b, w, i1, i2, hq⟩ := h.waiting_of_inflight hx
  exact (h.owned x).mpr ⟨q, by simp [hq, Pc.chain]⟩

theorem DiskOk.pending_avail_lt (h : DiskOk d) : (d.avail.idx + 2 ^ 16 - d.lastAvail) % 2 ^ 16 < num := by
  have hlen := h.length_inflight
  have : d.availWindow.length ≤ d.inflight.length := by simp [Disk.inflight]
  simp only [Disk.availWindow, Ring.length_window] at this
  have : num = 8 := rfl
  omega

theorem DiskOk.pending_used_lt (h : DiskOk d) : (d.used.idx + 2 ^ 16 - d.usedIdx) % 2 ^ 16 < num := by
  have hlen := h.length_inflight
  have : d.usedWindow.length ≤ d.inflight.length := by
    simp only [Disk.inflight, List.length_append]
    omega
  simp only [Disk.usedWindow, Ring.length_window] at this
  have : num = 8 := rfl
  omega

theorem update₃_of_not_mem {α β : Type*} [DecidableEq α] (f : α → β) {i0 i1 i2 j : α} (x y z : β)
    (hj : j ∉ [i0, i1, i2]) : Function.update (Function.update (Function.update f i0 x) i1 y) i2 z j = f j := by
  simp only [List.mem_cons, List.not_mem_nil, or_false, not_or] at hj
  rw [Function.update_of_ne hj.2.2, Function.update_of_ne hj.2.1, Function.update_of_ne hj.1]

theorem update₃_of_mem {α β : Type*} [DecidableEq α] (f : α → β) {i0 i1 i2 j : α} (x : β)
    (hj : j ∈ [i0, i1, i2]) : Function.update (Function.update (Function.update f i0 x) i1 x) i2 x j = x := by
  simp only [List.mem_cons, List.not_mem_nil, or_false] at hj
  rcases hj with rfl | rfl | rfl <;> simp [Function.update_apply]

theorem chain_update (pc : Slot → Pc) {p : Slot} (c : Pc) (q : Slot) :
    (Function.update pc p c q).chain = if q = p then c.chain else (pc q).chain := by
  by_cases hq : q = p
  · subst hq
    simp
  · simp [hq]

theorem buf_update (pc : Slot → Pc) {p : Slot} (c : Pc) (q : Slot) :
    (Function.update pc p c q).buf = if q = p then c.buf else (pc q).buf := by
  by_cases hq : q = p
  · subst hq
    simp
  · simp [hq]

theorem head_update (pc : Slot → Pc) {p : Slot} (c : Pc) (q : Slot) :
    (Function.update pc p c q).head = if q = p then c.head else (pc q).head := by
  by_cases hq : q = p
  · subst hq
    simp
  · simp [hq]

/-- p publishes a request on the three descriptors it has just taken. -/
theorem DiskOk.of_submit (h : DiskOk d) {p : Slot} {b : Fin nbuf} {w : Bool} {i0 i1 i2 : Fin num}
    (hp : (d.pc p).chain = []) (hb : ∀ q, q ≠ p → (d.pc q).buf ≠ some b)
    (hnd : [i0, i1, i2].Nodup) (hf0 : d.free i0 = true) (hf1 : d.free i1 = true) (hf2 : d.free i2 = true) :
    DiskOk { submit (((d.taken i0).taken i1).taken i2) b w i0 i1 i2 with
      pc := Function.update d.pc p (.waiting b w i0 i1 i2) } := by
  obtain ⟨d', hd'⟩ : ∃ d', d' = { submit (((d.taken i0).taken i1).taken i2) b w i0 i1 i2 with
      pc := Function.update d.pc p (.waiting b w i0 i1 i2) } := ⟨_, rfl⟩
  rw [← hd']
  have hpc : d'.pc = Function.update d.pc p (.waiting b w i0 i1 i2) := by rw [hd']
  have hfree : d'.free = Function.update (Function.update (Function.update d.free i0 false) i1 false) i2 false := by
    rw [hd']
    rfl
  have hdesc : d'.desc = Function.update (Function.update (Function.update d.desc i0 ⟨vringDescFNext, i1⟩)
      i1 ⟨(if w then 0 else vringDescFWrite) ||| vringDescFNext, i2⟩) i2 ⟨vringDescFWrite, 0⟩ := by
    rw [hd']
    rfl
  have hinfo : d'.info = Function.update d.info i0 ⟨some b, 0xff⟩ := by rw [hd']; rfl
  have hbdisk : d'.bdisk = Function.update d.bdisk b true := by rw [hd']; rfl
  obtain ⟨hai, hla, hui, hdi⟩ := h.counters
  simp only [List.nodup_cons, List.mem_cons, not_or, List.not_mem_nil, not_false_eq_true,
    List.nodup_nil, and_true] at hnd
  obtain ⟨⟨h01, h02⟩, h12⟩ := hnd
  -- the three descriptors were free, so no request held them and none is in flight
  have hnotin : ∀ q, ∀ j ∈ (d.pc q).chain, j ∉ [i0, i1, i2] := by
    intro q j hj hi
    simp only [List.mem_cons, List.not_mem_nil, or_false] at hi
    rcases hi with rfl | rfl | rfl
    · exact h.not_mem_chain hf0 q hj
    · exact h.not_mem_chain hf1 q hj
    · exact h.not_mem_chain hf2 q hj
  have hi0 : i0 ∉ d.inflight := fun hx => by simp [h.not_free_of_inflight hx] at hf0
  have hwin : d'.availWindow = d.availWindow ++ [i0] := by
    rw [hd']
    exact Ring.window_push_mod d.avail.ring (by decide) (by decide) hla hai h.pending_avail_lt i0
  have hinf : d'.inflight.Perm (i0 :: d.inflight) := by
    have hrest : d'.inDevice ++ d'.usedWindow = d.inDevice ++ d.usedWindow := by rw [hd']; rfl
    rw [Disk.inflight, List.append_assoc, hrest, hwin, List.append_assoc, List.singleton_append]
    exact List.perm_middle.trans (by simp [Disk.inflight])
  have hchain : ∀ q, (d'.pc q).chain = if q = p then [i0, i1, i2] else (d.pc q).chain := by
    intro q
    rw [hpc, chain_update]
    rfl
  refine ⟨?counters, ?chain, ?owned, ?disjoint, ?bufs, ?zeroed, ?nodup, ?heads, ?stage, ?bdisk⟩
  case counters =>
    rw [hd']
    exact ⟨Nat.mod_lt _ (by decide), hla, hui, hdi⟩
  case chain =>
    intro q b' w' j0 j1 j2 hq
    rw [hpc] at hq
    by_cases hqp : q = p
    · subst hqp
      rw [Function.update_self] at hq
      cases hq
      refine ⟨by simp [h01, h02, h12], ?_, ?_, ?_, ?_⟩
      · simp [hdesc, h01, h02]
      · simp [hdesc, h12]
      · simp [hdesc]
      · simp [hinfo]
    · rw [Function.update_of_ne hqp] at hq
      obtain ⟨hnd', h0', h1', h2', hb'⟩ := h.chain q b' w' j0 j1 j2 hq
      have hj : ∀ j ∈ [j0, j1, j2], j ∉ [i0, i1, i2] := by
        simpa only [hq, Pc.chain] using hnotin q
      refine ⟨hnd', ?_, ?_, ?_, ?_⟩
      · rw [hdesc, update₃_of_not_mem _ _ _ _ (hj j0 (by simp)), h0']
      · rw [hdesc, update₃_of_not_mem _ _ _ _ (hj j1 (by simp)), h1']
      · rw [hdesc, update₃_of_not_mem _ _ _ _ (hj j2 (by simp)), h2']
      · have : j0 ≠ i0 := fun he => hj j0 (by simp) (by simp [he])
        rw [hinfo, Function.update_of_ne this, hb']
  case owned =>
    intro i
    by_cases hi : i ∈ [i0, i1, i2]
    · rw [hfree, update₃_of_mem _ _ hi]
      exact iff_of_true rfl ⟨p, by rw [hchain, if_pos rfl]; exact hi⟩
    · rw [hfree, update₃_of_not_mem _ _ _ _ hi, h.owned]
      refine exists_congr fun q => ?_
      rw [hchain]
      split_ifs with hq
      · subst hq
        rw [hp]
        exact iff_of_false (by simp) hi
      · rfl
  case disjoint =>
    intro q r hqr i hiq hir
    rw [hchain] at hiq hir
    split_ifs at hiq hir with hq hr hr
    · exact hqr (hq.trans hr.symm)
    · exact hnotin r i hir hiq
    · exact hnotin q i hiq hir
    · exact h.disjoint q r hqr i hiq hir
  case bufs =>
    intro q r hqr b'' hq hr
    rw [hpc, buf_update] at hq hr
    split_ifs at hq hr with hqp hrp hrp
    · exact hqr (hqp.trans hrp.symm)
    · cases hq
      exact hb r hrp hr
    · cases hr
      exact hb q hqp hq
    · exact h.bufs q r hqr b'' hq hr
  case zeroed =>
    intro i hi
    by_cases hmem : i ∈ [i0, i1, i2]
    · rw [hfree, update₃_of_mem _ _ hmem] at hi
      cases hi
    · rw [hfree, update₃_of_not_mem _ _ _ _ hmem] at hi
      rw [hdesc, update₃_of_not_mem _ _ _ _ hmem, h.zeroed i hi]
  case nodup =>
    exact hinf.nodup_iff.mpr (List.nodup_cons.mpr ⟨hi0, h.nodup⟩)
  case heads =>
    intro x hx
    rcases List.mem_cons.mp (hinf.mem_iff.mp hx) with rfl | hx
    · exact ⟨p, by rw [hpc, head_update, if_pos rfl]; simp [Pc.head]⟩
    · obtain ⟨q, hq⟩ := h.heads x hx
      have hqp : q ≠ p := by
        rintro rfl
        have := Pc.head_subset_chain hq
        rw [hp] at this
        simp at this
      exact ⟨q, by rw [hpc, head_update, if_neg hqp]; exact hq⟩
  case stage =>
    have hdev : d'.inDevice = d.inDevice := by
      rw [hd']
      rfl
    intro q b' w' j0 j1 j2 hq
    rw [hpc] at hq
    by_cases hqp : q = p
    · subst hqp
      rw [Function.update_self] at hq
      cases hq
      refine ⟨iff_of_true (by simp [hbdisk]) (hinf.mem_iff.mpr List.mem_cons_self), ?_⟩
      rw [if_pos (by simp [hwin]), hinfo, Function.update_self]
    · rw [Function.update_of_ne hqp] at hq
      obtain ⟨hbusy, hstatus⟩ := h.stage q b' w' j0 j1 j2 hq
      have hbb : b' ≠ b := fun he => hb q hqp (by rw [hq, ← he]; rfl)
      have hj0 : j0 ≠ i0 := fun he => hnotin q j0 (by simp [hq, Pc.chain]) (by simp [he])
      refine ⟨?_, ?_⟩
      · rw [hbdisk, Function.update_of_ne hbb, hbusy, hinf.mem_iff, List.mem_cons, or_iff_right hj0]
      · rw [hinfo, Function.update_of_ne hj0, hstatus, hwin, hdev]
        simp [hj0]
  case bdisk =>
    intro b'' hb''
    rw [hbdisk] at hb''
    by_cases hbb : b'' = b
    · subst hbb
      exact ⟨p, w, i0, i1, i2, by rw [hpc, Function.update_self]⟩
    · rw [Function.update_of_ne hbb] at hb''
      obtain ⟨q, w', j0, j1, j2, hq⟩ := h.bdisk b'' hb''
      have hqp : q ≠ p := by
        rintro rfl
        simp [hq, Pc.chain] at hp
      exact ⟨q, w', j0, j1, j2, by rw [hpc, Function.update_of_ne hqp, hq]⟩

/-- p goes to sleep on &disk.free[0] holding no descriptor. -/
theorem DiskOk.of_sleep (h : DiskOk d) {p : Slot} {b : Fin nbuf} {w : Bool} (hp : (d.pc p).chain = [])
    (hb : ∀ q, q ≠ p → (d.pc q).buf ≠ some b) : DiskOk { d with pc := Function.update d.pc p (.allocating b w) } := by
  have hchain : ∀ q, (Function.update d.pc p (.allocating b w) q).chain = (d.pc q).chain := by
    intro q
    rw [chain_update]
    split_ifs with hq
    · subst hq
      rw [hp]
      rfl
    · rfl
  have hhead : ∀ q, (Function.update d.pc p (.allocating b w) q).head = (d.pc q).head := by
    intro q
    rw [head_update]
    split_ifs with hq
    · subst hq
      cases hc : d.pc q <;> simp_all [Pc.chain, Pc.head]
    · rfl
  have hwait : ∀ q b' w' j0 j1 j2, Function.update d.pc p (.allocating b w) q = .waiting b' w' j0 j1 j2 →
      d.pc q = .waiting b' w' j0 j1 j2 := by
    intro q b' w' j0 j1 j2 hq
    by_cases hqp : q = p
    · subst hqp
      simp at hq
    · rwa [Function.update_of_ne hqp] at hq
  refine ⟨h.counters, fun q b' w' j0 j1 j2 hq => h.chain q b' w' j0 j1 j2 (hwait q b' w' j0 j1 j2 hq),
    fun i => by simpa only [hchain] using h.owned i,
    fun q r hqr => by simpa only [hchain] using h.disjoint q r hqr, ?_, h.zeroed, h.nodup,
    fun x hx => by simpa only [hhead] using h.heads x hx,
    fun q b' w' j0 j1 j2 hq => h.stage q b' w' j0 j1 j2 (hwait q b' w' j0 j1 j2 hq), ?_⟩
  · intro q r hqr b'' hq hr
    simp only [buf_update] at hq hr
    split_ifs at hq hr with hqp hrp hrp
    · exact hqr (hqp.trans hrp.symm)
    · cases hq
      exact hb r hrp hr
    · cases hr
      exact hb q hqp hq
    · exact h.bufs q r hqr b'' hq hr
  · intro b'' hb''
    obtain ⟨q, w', j0, j1, j2, hq⟩ := h.bdisk b'' hb''
    have hqp : q ≠ p := by
      rintro rfl
      simp [hq, Pc.chain] at hp
    exact ⟨q, w', j0, j1, j2, by dsimp only; rw [Function.update_of_ne hqp, hq]⟩

theorem DiskOk.of_rwAlloc (h : DiskOk d) {p : Slot} {b : Fin nbuf} {w : Bool} (hp : (d.pc p).chain = [])
    (hb : ∀ q, q ≠ p → (d.pc q).buf ≠ some b) : ∃ d', rwAlloc d p b w = some d' ∧ DiskOk d' := by
  rcases alloc3Desc_spec h.zeroed with hnone | ⟨i0, i1, i2, hnd, hf0, hf1, hf2, hsome⟩
  · exact ⟨_, by simp [rwAlloc, hnone], h.of_sleep (w := w) hp hb⟩
  · exact ⟨_, by simp [rwAlloc, hsome]; rfl, h.of_submit (w := w) hp hb hnd hf0 hf1 hf2⟩

/-- p, woken with b->disk 0, frees its chain and leaves virtio_disk_rw: no
free_desc panics, its three descriptors are free again, and b->disk is 0. -/
theorem DiskOk.of_rwFinish (h : DiskOk d) {p : Slot} {b : Fin nbuf} {w : Bool} {i0 i1 i2 : Fin num}
    (hp : d.pc p = .waiting b w i0 i1 i2) (hdone : d.bdisk b = false) :
    ∃ d', rwFinish d p i0 = some d' ∧ DiskOk d' ∧ d'.free i0 = true ∧ d'.free i1 = true ∧
      d'.free i2 = true ∧ d'.pc p = .idle ∧ d'.bdisk b = false := by
  obtain ⟨hnd, h0, h1, h2, -⟩ := h.chain p b w i0 i1 i2 hp
  have hheld : ∀ j ∈ [i0, i1, i2], d.free j = false := fun j hj => (h.owned j).mpr ⟨p, by rw [hp]; exact hj⟩
  have hfc : freeChain (num + 1) { d with info := Function.update d.info i0 { d.info i0 with b := none } } i0 =
      some (((({ d with info := Function.update d.info i0 { d.info i0 with b := none } } : Disk).freed i0).freed
        i1).freed i2) :=
    freeChain_request hnd h0 h1 h2 (hheld i0 (by simp)) (hheld i1 (by simp)) (hheld i2 (by simp))
  obtain ⟨d', hd'⟩ : ∃ d', d' = { ((({ d with info := Function.update d.info i0 { d.info i0 with b := none } } :
      Disk).freed i0).freed i1).freed i2 with pc := Function.update d.pc p .idle } := ⟨_, rfl⟩
  have hrun : rwFinish d p i0 = some d' := by
    rw [hd', rwFinish, hfc]
    rfl
  have hpc : d'.pc = Function.update d.pc p .idle := by rw [hd']
  have hfree : d'.free = Function.update (Function.update (Function.update d.free i0 true) i1 true) i2 true := by
    rw [hd']
    rfl
  have hdesc : d'.desc = Function.update (Function.update (Function.update d.desc i0 ⟨0, 0⟩) i1 ⟨0, 0⟩) i2 ⟨0, 0⟩ := by
    rw [hd']
    rfl
  have hinfo : d'.info = Function.update d.info i0 { d.info i0 with b := none } := by rw [hd']; rfl
  have hbdisk : d'.bdisk = d.bdisk := by rw [hd']; rfl
  have hwin : d'.availWindow = d.availWindow ∧ d'.inDevice = d.inDevice ∧ d'.usedWindow = d.usedWindow := by
    rw [hd']
    exact ⟨rfl, rfl, rfl⟩
  have hinf : d'.inflight = d.inflight := by simp only [Disk.inflight, hwin]
  have hi0 : i0 ∉ d.inflight := fun hx => by simp [(h.stage p b w i0 i1 i2 hp).1.mpr hx] at hdone
  have hchain : ∀ q, (d'.pc q).chain = if q = p then [] else (d.pc q).chain := by
    intro q
    rw [hpc, chain_update]
    rfl
  have hothers : ∀ q, q ≠ p → ∀ j ∈ (d.pc q).chain, j ∉ [i0, i1, i2] := fun q hqp j hj hji =>
    h.disjoint p q (Ne.symm hqp) j (by rw [hp]; exact hji) hj
  have hwait : ∀ q b' w' j0 j1 j2, d'.pc q = .waiting b' w' j0 j1 j2 → q ≠ p ∧ d.pc q = .waiting b' w' j0 j1 j2 := by
    intro q b' w' j0 j1 j2 hq
    rw [hpc] at hq
    by_cases hqp : q = p
    · subst hqp
      simp at hq
    · rw [Function.update_of_ne hqp] at hq
      exact ⟨hqp, hq⟩
  refine ⟨d', hrun, ⟨?counters, ?chain, ?owned, ?disjoint, ?bufs, ?zeroed, ?nodup, ?heads, ?stage, ?bdisk⟩,
    by rw [hfree, update₃_of_mem _ _ (by simp)], by rw [hfree, update₃_of_mem _ _ (by simp)],
    by rw [hfree, update₃_of_mem _ _ (by simp)], by simp [hpc], by rw [hbdisk, hdone]⟩
  case counters =>
    rw [hd']
    exact h.counters
  case chain =>
    intro q b' w' j0 j1 j2 hq
    obtain ⟨hqp, hq⟩ := hwait q b' w' j0 j1 j2 hq
    obtain ⟨hnd', h0', h1', h2', hb'⟩ := h.chain q b' w' j0 j1 j2 hq
    have hj : ∀ j ∈ [j0, j1, j2], j ∉ [i0, i1, i2] := by
      simpa only [hq, Pc.chain] using hothers q hqp
    refine ⟨hnd', ?_, ?_, ?_, ?_⟩
    · rw [hdesc, update₃_of_not_mem _ _ _ _ (hj j0 (by simp)), h0']
    · rw [hdesc, update₃_of_not_mem _ _ _ _ (hj j1 (by simp)), h1']
    · rw [hdesc, update₃_of_not_mem _ _ _ _ (hj j2 (by simp)), h2']
    · have : j0 ≠ i0 := fun he => hj j0 (by simp) (by simp [he])
      rw [hinfo, Function.update_of_ne this, hb']
  case owned =>
    intro i
    by_cases hi : i ∈ [i0, i1, i2]
    · rw [hfree, update₃_of_mem _ _ hi]
      refine iff_of_false (by simp) ?_
      rintro ⟨q, hq⟩
      rw [hchain] at hq
      split_ifs at hq with hqp
      · simp at hq
      · exact hothers q hqp i hq hi
    · rw [hfree, update₃_of_not_mem _ _ _ _ hi, h.owned]
      refine exists_congr fun q => ?_
      rw [hchain]
      split_ifs with hq
      · subst hq
        rw [hp]
        exact iff_of_false hi (by simp)
      · rfl
  case disjoint =>
    intro q r hqr i hiq hir
    rw [hchain] at hiq hir
    split_ifs at hiq hir with hq hr
    all_goals first
      | simp at hiq
      | simp at hir
      | exact h.disjoint q r hqr i hiq hir
  case bufs =>
    intro q r hqr b'' hq hr
    rw [hpc, buf_update] at hq hr
    split_ifs at hq hr with hqp hrp
    all_goals first
      | cases hq
      | cases hr
      | exact h.bufs q r hqr b'' hq hr
  case zeroed =>
    intro i hi
    by_cases hmem : i ∈ [i0, i1, i2]
    · rw [hdesc, update₃_of_mem _ _ hmem]
    · rw [hfree, update₃_of_not_mem _ _ _ _ hmem] at hi
      rw [hdesc, update₃_of_not_mem _ _ _ _ hmem, h.zeroed i hi]
  case nodup =>
    rw [hinf]
    exact h.nodup
  case heads =>
    intro x hx
    rw [hinf] at hx
    obtain ⟨q, hq⟩ := h.heads x hx
    have hqp : q ≠ p := by
      rintro rfl
      simp only [hp, Pc.head, List.mem_singleton] at hq
      exact hi0 (hq ▸ hx)
    exact ⟨q, by rw [hpc, head_update, if_neg hqp]; exact hq⟩
  case stage =>
    intro q b' w' j0 j1 j2 hq
    obtain ⟨hqp, hq⟩ := hwait q b' w' j0 j1 j2 hq
    have hj0 : j0 ≠ i0 := fun he => hothers q hqp j0 (by simp [hq, Pc.chain]) (by simp [he])
    rw [hbdisk, hinf, hinfo, Function.update_of_ne hj0, hwin.1, hwin.2.1]
    exact h.stage q b' w' j0 j1 j2 hq
  case bdisk =>
    intro b'' hb''
    rw [hbdisk] at hb''
    obtain ⟨q, w', j0, j1, j2, hq⟩ := h.bdisk b'' hb''
    have hqp : q ≠ p := by
      rintro rfl
      rw [hp] at hq
      cases hq
      simp [hdone] at hb''
    exact ⟨q, w', j0, j1, j2, by rw [hpc, Function.update_of_ne hqp, hq]⟩

theorem DiskOk.of_frame (h : DiskOk d) {d' : Disk} (hdesc : d'.desc = d.desc) (hfree : d'.free = d.free)
    (hpc : d'.pc = d.pc) (hb : ∀ i, (d'.info i).b = (d.info i).b)
    (hcounters : d'.avail.idx < 2 ^ 16 ∧ d'.lastAvail < 2 ^ 16 ∧ d'.used.idx < 2 ^ 16 ∧ d'.usedIdx < 2 ^ 16)
    (hnodup : d'.inflight.Nodup) (hheads : ∀ x ∈ d'.inflight, x ∈ d.inflight)
    (hstage : ∀ p b w i0 i1 i2, d.pc p = .waiting b w i0 i1 i2 →
      (d'.bdisk b = true ↔ i0 ∈ d'.inflight) ∧
        (d'.info i0).status = if i0 ∈ d'.availWindow ++ d'.inDevice then 0xff else 0)
    (hbdisk : ∀ b, d'.bdisk b = true → d.bdisk b = true) : DiskOk d' where
  counters := hcounters
  chain p b w i0 i1 i2 hp := by
    rw [hpc] at hp
    rw [hdesc, hb]
    exact h.chain p b w i0 i1 i2 hp
  owned i := by simpa only [hfree, hpc] using h.owned i
  disjoint := by simpa only [hpc] using h.disjoint
  bufs := by simpa only [hpc] using h.bufs
  zeroed i hi := by
    rw [hfree] at hi
    rw [hdesc]
    exact h.zeroed i hi
  nodup := hnodup
  heads x hx := by simpa only [hpc] using h.heads x (hheads x hx)
  stage p b w i0 i1 i2 hp := hstage p b w i0 i1 i2 (by rwa [hpc] at hp)
  bdisk b hb' := by simpa only [hpc] using h.bdisk b (hbdisk b hb')

theorem DiskOk.of_deviceTake (h : DiskOk d) {d' : Disk} (hd : deviceTake d = some d') : DiskOk d' := by
  unfold deviceTake at hd
  split_ifs at hd with hne
  cases hd
  obtain ⟨hai, hla, hui, hdi⟩ := h.counters
  have hpop := Ring.window_pop_mod d.avail.ring (by decide : num ∣ 2 ^ 16) hla hai hne
  have hperm : (window d.avail.ring ((d.lastAvail + 1) % 2 ^ 16)
      ((d.avail.idx + 2 ^ 16 - (d.lastAvail + 1) % 2 ^ 16) % 2 ^ 16) ++
        (d.inDevice ++ [cell d.avail.ring d.lastAvail]) ++ d.usedWindow).Perm d.inflight := by
    rw [Disk.inflight, Disk.availWindow, hpop, List.append_assoc, List.append_assoc, List.append_assoc,
      List.singleton_append, ← List.append_assoc]
    exact List.perm_middle.trans (by simp)
  refine h.of_frame rfl rfl rfl (fun _ => rfl) ⟨hai, Nat.mod_lt _ (by decide), hui, hdi⟩
    (hperm.nodup_iff.mpr h.nodup) (fun x hx => hperm.mem_iff.mp hx) ?_ (fun _ hb => hb)
  intro p b w i0 i1 i2 hp
  obtain ⟨hbusy, hstatus⟩ := h.stage p b w i0 i1 i2 hp
  refine ⟨hbusy.trans hperm.mem_iff.symm, ?_⟩
  rw [hstatus, Disk.availWindow, hpop]
  simp only [Disk.availWindow, List.mem_append, List.mem_cons, List.not_mem_nil, false_or, or_assoc,
    or_comm]

/-- The device returns a head it holds on the used ring. -/
theorem DiskOk.of_deviceDone (h : DiskOk d) {x : Fin num} {d' : Disk} (hd : deviceDone d x = some d') :
    DiskOk d' := by
  unfold deviceDone at hd
  split_ifs at hd with hx
  cases hd
  obtain ⟨hai, hla, hui, hdi⟩ := h.counters
  have hpush := Ring.window_push_mod d.used.ring (by decide : num ∣ 2 ^ 16) (by decide) hdi hui h.pending_used_lt x
  have hnd := h.nodup
  rw [Disk.inflight, List.nodup_append, List.nodup_append] at hnd
  obtain ⟨⟨-, hdevnd, hawdev⟩, -, -⟩ := hnd
  have hxaw : x ∉ d.availWindow := fun hxa => hawdev x hxa x hx rfl
  have hperm : (d.availWindow ++ d.inDevice.erase x ++ (window (Ring.write d.used.ring d.used.idx x) d.usedIdx
      (((d.used.idx + 1) % 2 ^ 16 + 2 ^ 16 - d.usedIdx) % 2 ^ 16))).Perm d.inflight := by
    rw [hpush, Disk.inflight, List.append_assoc, List.append_assoc]
    refine List.Perm.append_left _ ?_
    rw [← List.append_assoc]
    exact (List.perm_append_singleton _ _).trans ((List.perm_cons_erase hx).symm.append_right _)
  refine h.of_frame rfl rfl rfl (fun i => ?_) ⟨hai, hla, Nat.mod_lt _ (by decide), hdi⟩
    (hperm.nodup_iff.mpr h.nodup) (fun y hy => hperm.mem_iff.mp hy) ?_ (fun _ hb => hb)
  · by_cases hi : i = x
    · subst hi
      simp
    · simp [Function.update_of_ne hi]
  · intro p b w i0 i1 i2 hp
    obtain ⟨hbusy, hstatus⟩ := h.stage p b w i0 i1 i2 hp
    refine ⟨hbusy.trans hperm.mem_iff.symm, ?_⟩
    by_cases hi : i0 = x
    · subst hi
      have hout : i0 ∉ d.availWindow ++ d.inDevice.erase i0 := by
        simp only [List.mem_append, not_or]
        exact ⟨hxaw, hdevnd.not_mem_erase⟩
      split_ifs with hin
      · exact absurd hin hout
      · simp
    · dsimp only
      rw [Function.update_of_ne hi, hstatus]
      simp [List.mem_erase_of_ne hi, Disk.availWindow]

/-- One pass of virtio_disk_intr never panics: the head it finds belongs to a
request whose status the device has set to 0, and it clears exactly that
request's b->disk. -/
theorem DiskOk.intr (h : DiskOk d) (hne : d.usedIdx ≠ d.used.idx) :
    ∃ q b w i1 i2, d.pc q = .waiting b w (cell d.used.ring d.usedIdx) i1 i2 ∧
      intrStep d = some { d with bdisk := Function.update d.bdisk b false, usedIdx := (d.usedIdx + 1) % 2 ^ 16 } ∧
      DiskOk { d with bdisk := Function.update d.bdisk b false, usedIdx := (d.usedIdx + 1) % 2 ^ 16 } := by
  obtain ⟨hai, hla, hui, hdi⟩ := h.counters
  have hpop := Ring.window_pop_mod d.used.ring (by decide : num ∣ 2 ^ 16) hdi hui hne
  set x := cell d.used.ring d.usedIdx with hx
  have hperm : d.inflight.Perm (x :: (d.availWindow ++ d.inDevice ++ window d.used.ring ((d.usedIdx + 1) % 2 ^ 16)
      ((d.used.idx + 2 ^ 16 - (d.usedIdx + 1) % 2 ^ 16) % 2 ^ 16))) := by
    rw [Disk.inflight, Disk.usedWindow, hpop]
    exact List.perm_middle
  have hxin : x ∈ d.inflight := hperm.mem_iff.mpr List.mem_cons_self
  have hnd' := hperm.nodup_iff.mp h.nodup
  obtain ⟨q, b, w, i1, i2, hq⟩ := h.waiting_of_inflight hxin
  obtain ⟨-, -, -, -, hb⟩ := h.chain q b w x i1 i2 hq
  -- x is on the used ring, so the device has finished with it
  have hstatus : (d.info x).status = 0 := by
    rw [(h.stage q b w x i1 i2 hq).2, if_neg]
    intro hmem
    have hnd := h.nodup
    rw [Disk.inflight, List.nodup_append] at hnd
    exact hnd.2.2 x hmem x (by rw [Disk.usedWindow, hpop]; exact List.mem_cons_self) rfl
  refine ⟨q, b, w, i1, i2, hq, by simp [intrStep, ← hx, hstatus, hb], ?_⟩
  refine h.of_frame rfl rfl rfl (fun _ => rfl) ⟨hai, hla, hui, Nat.mod_lt _ (by decide)⟩ (List.nodup_cons.mp hnd').2
    (fun y hy => hperm.mem_iff.mpr (List.mem_cons_of_mem _ hy)) ?_ ?_
  · intro r b' w' j0 j1 j2 hr
    obtain ⟨hbusy, hstat⟩ := h.stage r b' w' j0 j1 j2 hr
    refine ⟨?_, hstat⟩
    by_cases hrq : r = q
    · subst hrq
      rw [hq] at hr
      cases hr
      exact iff_of_false (by simp) (List.nodup_cons.mp hnd').1
    · have hbb : b' ≠ b := fun he => h.bufs q r (Ne.symm hrq) b (by rw [hq]; rfl) (by rw [hr, he]; rfl)
      have hjx : j0 ≠ x := fun he =>
        h.disjoint q r (Ne.symm hrq) x (by simp [hq, Pc.chain]) (by simp [hr, Pc.chain, he])
      dsimp only
      rw [Function.update_of_ne hbb, hbusy, hperm.mem_iff, List.mem_cons, or_iff_right hjx]
      rfl
  · intro b'' hb''
    by_cases hbb : b'' = b
    · subst hbb
      simp at hb''
    · simpa [Function.update_of_ne hbb] using hb''

theorem DiskOk.of_step (h : DiskOk d) {a : Act} {d' : Disk} (hs : step d a = some d') : DiskOk d' := by
  cases a with
  | rw p b w =>
      simp only [step] at hs
      split_ifs at hs with hg
      obtain ⟨hidle, hfree⟩ := hg
      obtain ⟨d'', hrw, hok⟩ := h.of_rwAlloc (w := w) (by rw [hidle]; rfl) (fun q _ => hfree q)
      rw [hrw] at hs
      cases hs
      exact hok
  | retry p =>
      simp only [step] at hs
      split at hs
      · -- asleep in the alloc3_desc loop, p holds b alone
        rename_i b w hp
        obtain ⟨d'', hrw, hok⟩ := h.of_rwAlloc (w := w) (by rw [hp]; rfl)
          (fun q hq => h.bufs p q (Ne.symm hq) b (by rw [hp]; rfl))
        rw [hrw] at hs
        cases hs
        exact hok
      · cases hs
  | finish p =>
      simp only [step] at hs
      split at hs
      · rename_i b w i0 i1 i2 hp
        split_ifs at hs with hdone
        obtain ⟨d'', hrun, hok, -⟩ := h.of_rwFinish hp hdone
        rw [hrun] at hs
        cases hs
        exact hok
      · cases hs
  | take => exact h.of_deviceTake hs
  | done x => exact h.of_deviceDone hs
  | intr =>
      simp only [step] at hs
      split_ifs at hs with hne
      obtain ⟨q, b, w, i1, i2, -, hstep, hok⟩ := h.intr hne
      rw [hstep] at hs
      cases hs
      exact hok

end Preservation

theorem diskOk_init : DiskOk init where
  counters := by simp [init]
  chain p b w i0 i1 i2 hp := by simp [init] at hp
  owned i := by simp [init, Pc.chain]
  disjoint p q _ i hi := by simp [init, Pc.chain] at hi
  bufs p q _ b hb := by simp [init, Pc.buf] at hb
  zeroed _ _ := rfl
  nodup := by simp [Disk.inflight, Disk.availWindow, Disk.usedWindow, init]
  heads x hx := by simp [Disk.inflight, Disk.availWindow, Disk.usedWindow, init] at hx
  stage p b w i0 i1 i2 hp := by simp [init] at hp
  bdisk b hb := by simp [init] at hb

theorem DiskOk.of_reachable {d : Disk} (h : Reachable step init d) : DiskOk d :=
  Reachable.invariant diskOk_init (fun _ _ _ _ hi hs => hi.of_step hs) h

theorem virtio_descriptors (d : Disk) (hd : Reachable step init d) :
    (∀ i, (d.free i = true ∧ ∀ p, i ∉ (d.pc p).chain) ∨
      (d.free i = false ∧ ∃ p, i ∈ (d.pc p).chain ∧ ∀ q, i ∈ (d.pc q).chain → q = p)) ∧
    (∀ p b w i0 i1 i2, d.pc p = .waiting b w i0 i1 i2 →
      [i0, i1, i2].Nodup ∧ d.desc i0 = ⟨vringDescFNext, i1⟩ ∧
        d.desc i1 = ⟨(if w then 0 else vringDescFWrite) ||| vringDescFNext, i2⟩ ∧
        d.desc i2 = ⟨vringDescFWrite, 0⟩) ∧
    (∀ p b w, d.pc p = .idle → (∀ q, (d.pc q).buf ≠ some b) → (step d (.rw p b w)).isSome) ∧
    (∀ p b w, d.pc p = .allocating b w → (step d (.retry p)).isSome) ∧
    (d.usedIdx ≠ d.used.idx → ∃ p b w i1 i2, d.pc p = .waiting b w (cell d.used.ring d.usedIdx) i1 i2 ∧
      (∀ q, (d.pc q).buf = some b → q = p) ∧
      step d .intr = some { d with bdisk := Function.update d.bdisk b false, usedIdx := (d.usedIdx + 1) % 2 ^ 16 }) ∧
    (∀ p b w i0 i1 i2, d.pc p = .waiting b w i0 i1 i2 → d.bdisk b = false →
      ∃ d', step d (.finish p) = some d' ∧ d'.pc p = .idle ∧ d'.free i0 = true ∧ d'.free i1 = true ∧
        d'.free i2 = true ∧ d'.bdisk b = false) := by
  have h := DiskOk.of_reachable hd
  refine ⟨fun i => ?_, fun p b w i0 i1 i2 hp => ?_, fun p b w hp hb => ?_, fun p b w hp => ?_,
    fun hne => ?_, fun p b w i0 i1 i2 hp hdone => ?_⟩
  · cases hf : d.free i
    · obtain ⟨p, hp⟩ := (h.owned i).mp hf
      refine .inr ⟨rfl, p, hp, fun q hq => ?_⟩
      by_contra hqp
      exact h.disjoint q p hqp i hq hp
    · exact .inl ⟨rfl, h.not_mem_chain hf⟩
  · obtain ⟨hnd, h0, h1, h2, -⟩ := h.chain p b w i0 i1 i2 hp
    exact ⟨hnd, h0, h1, h2⟩
  · obtain ⟨d', hrw, -⟩ := h.of_rwAlloc (w := w) (by rw [hp]; rfl) (fun q _ => hb q)
    simp [step, hp, hb, hrw]
  · obtain ⟨d', hrw, -⟩ := h.of_rwAlloc (w := w) (by rw [hp]; rfl)
      (fun q hq => h.bufs p q (Ne.symm hq) b (by rw [hp]; rfl))
    simp [step, hp, hrw]
  · obtain ⟨p, b, w, i1, i2, hp, hstep, -⟩ := h.intr hne
    refine ⟨p, b, w, i1, i2, hp, fun q hq => ?_, by simp [step, hne, hstep]⟩
    by_contra hqp
    exact h.bufs p q (Ne.symm hqp) b (by rw [hp]; rfl) hq
  · obtain ⟨d', hrun, -, hf0, hf1, hf2, hidle, hb⟩ := h.of_rwFinish hp hdone
    exact ⟨d', by simp [step, hp, hdone, hrun], hidle, hf0, hf1, hf2, hb⟩

/-- Processes 0 and 1 publish their requests, process 2 finds too few free
descriptors and sleeps on &disk.free[0], the device takes process 0's chain
and puts it on the used ring. -/
def inFlightRun : List Act := [.rw 0 0 false, .rw 1 1 true, .rw 2 2 false, .take, .done 0]

theorem virtio_descriptors_inFlight :
    ∃ d, run step init inFlightRun = some d ∧ d.pc 2 = .allocating 2 false ∧
      (step d (.retry 2)).isSome ∧ d.usedIdx ≠ d.used.idx ∧
      ∃ p b w i1 i2, d.pc p = .waiting b w (cell d.used.ring d.usedIdx) i1 i2 ∧
        (∀ q, (d.pc q).buf = some b → q = p) ∧
        step d .intr = some { d with bdisk := Function.update d.bdisk b false,
                                     usedIdx := (d.usedIdx + 1) % 2 ^ 16 } := by
  obtain ⟨d, hd⟩ := Option.isSome_iff_exists.mp (by decide : (run step init inFlightRun).isSome)
  obtain ⟨-, -, -, hretry, hintr, -⟩ := virtio_descriptors d (reachable_of_run .init hd)
  have hpc : (run step init inFlightRun).map (·.pc 2) = some (.allocating 2 false) := by decide
  have hidx : (run step init inFlightRun).map (fun d => (d.usedIdx, d.used.idx)) = some (0, 1) := by
    decide
  rw [hd, Option.map_some, Option.some.injEq] at hpc hidx
  have hne : d.usedIdx ≠ d.used.idx := by simp only [Prod.mk.injEq] at hidx; omega
  exact ⟨d, hd, hpc, hretry 2 2 false hpc, hne, hintr hne⟩

end Xv6Mlfq.Virtio
