import Mathlib.Data.List.Nodup
import Xv6Mlfq.FileView
import Xv6Mlfq.Library.StepSystem

/-!
The inode layer of fs.c: bfree and itrunc, which free a file's blocks;
ialloc, which takes a free inode on the disk; and the table of in-memory
inodes that iget, idup, ilock and iput keep.

itrunc of an inode whose map is sound frees exactly the blocks the inode
holds.  Along every run of calls into the table from iinit, over a disk whose
allocated inodes each hold a sound map and no block of another (`FsOk`), the
table keeps one entry for each referenced inode, a reference count equal to
the references its callers hold and a loaded copy equal to the disk inode;
the disk stays `FsOk`; and only iget and ilock can panic, iget when every
entry is referenced and ilock on a free disk inode.
-/

namespace Xv6Mlfq.Inodes

open Fs

/-! ### bfree and itrunc -/

/-- bfree(dev, b): clear b's bit in the free map; none is the panic
"freeing free block". -/
def bfree (img : FsImage) (b : Nat) : Option FsImage :=
  if img.bitmap b = false then none
  else some { img with bitmap := Function.update img.bitmap b false }

/-- bfree of each nonzero block number of a list in turn, as itrunc's loops
run over a file's slots, passing the empty ones. -/
def bfreeEach (img : FsImage) : List Nat → Option FsImage
  | [] => some img
  | b :: bs => if b ≠ 0 then (bfree img b).bind fun img => bfreeEach img bs else bfreeEach img bs

/-- itrunc(ip) on inode number `inum`: bfree the direct blocks, then the
blocks the indirect block lists and the indirect block; every address and the
size become 0, and iupdate writes the inode back. -/
def itrunc (img : FsImage) (inum : Nat) (ip : Dinode) : Option (Dinode × FsImage) := do
  let img ← bfreeEach img ((List.finRange ndirect).map fun i => ip.addrs i.castSucc)
  let ind := ip.addrs (Fin.last ndirect)
  let img ← if ind ≠ 0 then
      (bfreeEach img ((List.range nindirect).map (img.block ind).uint)).bind fun img => bfree img ind
    else some img
  let ip := { ip with addrs := fun _ => 0, size := 0 }
  pure (ip, { img with dinode := Function.update img.dinode inum ip })

/-- The inode's map holds block `a`. -/
def Owns (img : FsImage) (ip : Dinode) (a : Nat) : Prop := a ≠ 0 ∧ ∃ s, slotAddr img ip s = a

/-- The slots in itrunc's order: the direct ones, the entries of the
indirect block, the indirect block. -/
def slots : List Slot :=
  (List.range ndirect).map Slot.direct ++ (List.range nindirect).map Slot.entry ++ [Slot.indirect]

theorem bfree_eq {img : FsImage} {b : Nat} (h : img.bitmap b = true) :
    bfree img b = some { img with bitmap := Function.update img.bitmap b false } := by
  rw [bfree, if_neg (by rw [h]; decide)]

theorem bfreeEach_append (img : FsImage) (xs ys : List Nat) :
    bfreeEach img (xs ++ ys) = (bfreeEach img xs).bind fun img => bfreeEach img ys := by
  induction xs generalizing img with
  | nil => rfl
  | cons x xs ih =>
    rw [List.cons_append, bfreeEach, bfreeEach]
    split_ifs
    · simp only [ih, Option.bind_assoc]
    · exact ih img

theorem bfreeEach_fields {bs : List Nat} :
    ∀ {img img' : FsImage}, bfreeEach img bs = some img' →
      img'.sb = img.sb ∧ img'.dinode = img.dinode ∧ img'.block = img.block := by
  induction bs with
  | nil =>
    intro img img' h
    cases h
    exact ⟨rfl, rfl, rfl⟩
  | cons b bs ih =>
    intro img img' h
    rw [bfreeEach] at h
    split_ifs at h
    · obtain ⟨img₁, h₁, h⟩ := Option.bind_eq_some_iff.mp h
      rw [bfree] at h₁
      split_ifs at h₁
      cases h₁
      have := ih h
      exact this
    · exact ih h

/-- bfreeEach over distinct blocks in use clears exactly their bits. -/
theorem bfreeEach_eq {img : FsImage} {bs : List Nat} (hnd : (bs.filter (· ≠ 0)).Nodup)
    (hused : ∀ b ∈ bs, b ≠ 0 → img.bitmap b = true) :
    bfreeEach img bs =
      some { img with bitmap := fun a => if a ≠ 0 ∧ a ∈ bs then false else img.bitmap a } := by
  induction bs generalizing img with
  | nil => simp [bfreeEach]
  | cons b bs ih =>
    by_cases hb : b = 0
    · subst hb
      rw [List.filter_cons_of_neg (by simp)] at hnd
      rw [bfreeEach, if_neg (not_not.mpr rfl), ih hnd fun b' hb' => hused b' (.tail _ hb')]
      congr 2
      funext a
      by_cases ha : a = 0 <;> simp [ha]
    · rw [List.filter_cons_of_pos (by simpa using hb), List.nodup_cons] at hnd
      have hrest : ∀ b' ∈ bs, b' ≠ 0 → (Function.update img.bitmap b false) b' = true := by
        intro b' hb' h0
        have hne : b' ≠ b := fun h => hnd.1 (List.mem_filter.mpr ⟨h ▸ hb', by simpa using hb⟩)
        rw [Function.update_of_ne hne]
        exact hused b' (.tail _ hb') h0
      rw [bfreeEach, if_pos hb, bfree_eq (hused b (.head _) hb), Option.bind_some, ih hnd.2 hrest]
      congr 2
      funext a
      by_cases hab : a = b
      · subst hab
        simp [hb]
      · simp [hab]

theorem slots_nodup : slots.Nodup := by
  have hd : ((List.range ndirect).map Slot.direct).Nodup :=
    List.nodup_range.map fun _ _ h => Slot.direct.inj h
  have he : ((List.range nindirect).map Slot.entry).Nodup :=
    List.nodup_range.map fun _ _ h => Slot.entry.inj h
  refine (hd.append he ?_).append (List.nodup_singleton _) ?_
  · rintro _ hj he
    obtain ⟨j, -, rfl⟩ := List.mem_map.mp hj
    obtain ⟨e, -, he⟩ := List.mem_map.mp he
    cases he
  · rintro _ hs hi
    cases List.mem_singleton.mp hi
    rcases List.mem_append.mp hs with h | h <;> obtain ⟨_, -, h⟩ := List.mem_map.mp h <;> cases h

theorem bfreeEach_zeros (img : FsImage) {bs : List Nat} (h : ∀ b ∈ bs, b = 0) :
    bfreeEach img bs = some img := by
  induction bs with
  | nil => rfl
  | cons b bs ih =>
    rw [bfreeEach, if_neg (not_not.mpr (h b (.head _)))]
    exact ih fun b' hb' => h b' (.tail _ hb')

theorem bfreeEach_singleton (img : FsImage) {b : Nat} (hb : b ≠ 0) :
    bfreeEach img [b] = bfree img b := by
  rw [bfreeEach, if_pos hb]
  cases bfree img b <;> rfl

theorem finRange_addrs (img : FsImage) (ip : Dinode) :
    (List.finRange ndirect).map (fun i => ip.addrs i.castSucc) =
      (List.range ndirect).map (slotAddr img ip ∘ Slot.direct) := by
  apply List.ext_getElem (by simp)
  intro j h₁ h₂
  have hj : j < ndirect := by simpa using h₁
  simp [slotAddr, hj]

theorem range_entries {img img' : FsImage} {ip : Dinode} (hb : img'.block = img.block)
    (hind : ip.addrs (Fin.last ndirect) ≠ 0) :
    (List.range nindirect).map (img'.block (ip.addrs (Fin.last ndirect))).uint =
      (List.range nindirect).map (slotAddr img ip ∘ Slot.entry) := by
  apply List.map_congr_left
  intro e he
  simp [slotAddr, List.mem_range.mp he, hind, hb]

theorem itrunc_eq (img : FsImage) (inum : Nat) (ip : Dinode) :
    itrunc img inum ip = (bfreeEach img (slots.map (slotAddr img ip))).map fun img' =>
      ({ ip with addrs := fun _ => 0, size := 0 },
        { img' with dinode := Function.update img'.dinode inum { ip with addrs := fun _ => 0, size := 0 } }) := by
  rw [slots, List.map_append, List.map_append, bfreeEach_append, bfreeEach_append, itrunc,
    finRange_addrs img, List.map_map, List.map_map]
  cases hd : bfreeEach img ((List.range ndirect).map (slotAddr img ip ∘ Slot.direct)) with
  | none => rfl
  | some img₁ =>
    have hb : img₁.block = img.block := (bfreeEach_fields hd).2.2
    by_cases hind : ip.addrs (Fin.last ndirect) = 0
    · have hz : ∀ b ∈ (List.range nindirect).map (slotAddr img ip ∘ Slot.entry), b = 0 := by
        simp [slotAddr, hind]
      simp only [Option.bind_some, bfreeEach_zeros img₁ hz, List.map_singleton, hind]
      simp [slotAddr, hind, bfreeEach]
    · have hi : slotAddr img ip .indirect = ip.addrs (Fin.last ndirect) := rfl
      simp only [bind, Option.bind_some, if_pos hind, range_entries hb hind, List.map_cons,
        List.map_nil, hi, bfreeEach_singleton _ hind]
      cases bfreeEach img₁ ((List.range nindirect).map (slotAddr img ip ∘ Slot.entry)) with
      | none => rfl
      | some img₂ =>
        simp only [Option.bind_some]
        cases bfree img₂ (ip.addrs (Fin.last ndirect)) <;> rfl

theorem mem_slots_of_ne_zero {img : FsImage} {ip : Dinode} {s : Slot} (h : slotAddr img ip s ≠ 0) :
    s ∈ slots := by
  cases s with
  | direct j =>
    have hj : j < ndirect := by
      by_contra hj
      simp [slotAddr, hj] at h
    simp [slots, hj]
  | indirect => simp [slots]
  | entry e =>
    have he : e < nindirect := by
      by_contra he
      simp [slotAddr, he] at h
    simp [slots, he]

theorem owns_iff_mem {img : FsImage} {ip : Dinode} {a : Nat} :
    Owns img ip a ↔ a ≠ 0 ∧ a ∈ slots.map (slotAddr img ip) := by
  constructor
  · rintro ⟨ha, s, rfl⟩
    exact ⟨ha, List.mem_map_of_mem (mem_slots_of_ne_zero ha)⟩
  · rintro ⟨ha, hm⟩
    obtain ⟨s, -, rfl⟩ := List.mem_map.mp hm
    exact ⟨ha, s, rfl⟩

theorem nodup_slots_of_mapOk {img : FsImage} {ip : Dinode} (hok : MapOk img ip) :
    ((slots.map (slotAddr img ip)).filter (· ≠ 0)).Nodup := by
  rw [List.filter_map]
  refine (slots_nodup.filter _).map_on ?_
  intro s hs t _ hst
  have hs0 : slotAddr img ip s ≠ 0 := by simpa using (List.mem_filter.mp hs).2
  exact hok.inj s t hs0 hst

theorem itrunc_of_mapOk {img : FsImage} {ip : Dinode} (inum : Nat) (hok : MapOk img ip) :
    itrunc img inum ip = some ({ ip with addrs := fun _ => 0, size := 0 },
      { img with bitmap := fun a => if a ≠ 0 ∧ a ∈ slots.map (slotAddr img ip) then false else img.bitmap a,
                 dinode := Function.update img.dinode inum { ip with addrs := fun _ => 0, size := 0 } }) := by
  have hused : ∀ b ∈ slots.map (slotAddr img ip), b ≠ 0 → img.bitmap b = true := by
    intro b hb h0
    obtain ⟨s, -, rfl⟩ := List.mem_map.mp hb
    exact hok.used s h0
  rw [itrunc_eq, bfreeEach_eq (nodup_slots_of_mapOk hok) hused]
  rfl

theorem freed_bitmap_iff {img : FsImage} {ip : Dinode} (b : Nat → Bool) (a : Nat) :
    (if a ≠ 0 ∧ a ∈ slots.map (slotAddr img ip) then false else b a) = true ↔ b a = true ∧ ¬Owns img ip a := by
  rw [owns_iff_mem]
  by_cases h : a ≠ 0 ∧ a ∈ slots.map (slotAddr img ip)
  · rw [if_pos h]
    exact ⟨fun hf => absurd hf Bool.false_ne_true, fun hb => absurd h hb.2⟩
  · rw [if_neg h]
    exact ⟨fun hb => ⟨hb, h⟩, And.left⟩

theorem itrunc_frees_blocks {img : FsImage} {ip : Dinode} (inum : Nat) (hok : MapOk img ip) :
    ∃ img', itrunc img inum ip = some ({ ip with addrs := fun _ => 0, size := 0 }, img') ∧
      img'.sb = img.sb ∧ img'.block = img.block ∧
      img'.dinode = Function.update img.dinode inum { ip with addrs := fun _ => 0, size := 0 } ∧
      ∀ a, img'.bitmap a = true ↔ img.bitmap a = true ∧ ¬Owns img ip a := by
  rw [itrunc_of_mapOk inum hok]
  exact ⟨_, rfl, rfl, rfl, rfl, freed_bitmap_iff img.bitmap⟩

/-- A file of thirteen blocks: direct blocks 47 to 58, and block 60 listed in
its indirect block 59; allocated, with no links. -/
def fatFile : Dinode :=
  ⟨tFile, 0, 0, 0, 12 * bsize + 10, fun i => if i.val < ndirect then 47 + i.val else 59⟩

/-- The test disk with inode 1 that file, as a crash leaves a file unlinked
while it was still open: blocks 47 to 60 are in use. -/
def orphanDisk : FsImage where
  sb := testDisk.sb
  dinode := Function.update testDisk.dinode 1 fatFile
  bitmap b := decide (b < 61)
  block := Function.update testDisk.block 59 (zeroBlock.setUint 0 60)

theorem slotAddr_fatFile (s : Slot) :
    slotAddr orphanDisk fatFile s =
      match s with
      | .direct j => if j < ndirect then 47 + j else 0
      | .indirect => 59
      | .entry e => if e = 0 then 60 else 0 := by
  cases s with
  | direct j =>
    by_cases hj : j < ndirect
    · simp [slotAddr, fatFile, hj]
    · simp [slotAddr, hj]
  | indirect => rfl
  | entry e =>
    -- entry e reads the uint at e of the indirect block: 60 at 0, and 0 past it
    have hblk : orphanDisk.block 59 = zeroBlock.setUint 0 60 := rfl
    have hind : fatFile.addrs (Fin.last ndirect) = 59 := rfl
    simp only [slotAddr, hind]
    by_cases he : e = 0
    · subst he
      rw [if_pos ⟨by decide, by decide⟩, hblk, Block.uint_setUint_self _ _ (by decide)]
      rfl
    · rw [if_neg he]
      split_ifs
      · rw [hblk, Block.uint_setUint_of_ne _ _ (Ne.symm he)]
        rfl
      · rfl

theorem mapOk_fatFile : MapOk orphanDisk fatFile where
  inj s t hs hst := by
    rw [slotAddr_fatFile, slotAddr_fatFile] at hst
    rw [slotAddr_fatFile] at hs
    unfold ndirect at hs hst
    cases s <;> cases t <;> simp only [Slot.direct.injEq, Slot.entry.injEq, reduceCtorEq] at hs hst ⊢ <;>
      split_ifs at hs hst <;> omega
  used s _ := by
    have hlt : slotAddr orphanDisk fatFile s < 61 := by
      rw [slotAddr_fatFile]
      cases s with
      | direct j =>
        show (if j < ndirect then 47 + j else 0) < 61
        unfold ndirect
        split_ifs <;> omega
      | indirect => decide
      | entry e =>
        show (if e = 0 then 60 else 0) < 61
        split_ifs <;> decide
    simpa [orphanDisk] using hlt
  fits := by decide

theorem itrunc_frees_blocks_fatFile :
    ∃ img', itrunc orphanDisk 1 fatFile = some ({ fatFile with addrs := fun _ => 0, size := 0 }, img') ∧
      img'.sb = orphanDisk.sb ∧ img'.block = orphanDisk.block ∧
      img'.dinode = Function.update orphanDisk.dinode 1 { fatFile with addrs := fun _ => 0, size := 0 } ∧
      ∀ a, img'.bitmap a = true ↔ orphanDisk.bitmap a = true ∧ ¬Owns orphanDisk fatFile a :=
  itrunc_frees_blocks 1 mapOk_fatFile

/-! ### ialloc and the inode table -/

/-- NINODE, the number of entries of the inode table. -/
def ninode : Nat := 50

/-- ROOTDEV, the one disk of the model. -/
def rootdev : Nat := 1

/-- struct inode without its sleep-lock: the entry's device and inode number,
its reference count, whether it has read its copy of the disk inode, and the
copy. -/
structure Inode where
  dev : Nat
  inum : Nat
  ref : Int
  valid : Bool
  din : Dinode

/-- itable.inode[]. -/
abbrev Itable := Fin ninode → Inode

instance : NeZero ninode := ⟨by decide⟩

/-- iget's loop over the entries in order, with the first unreferenced entry
seen so far: a referenced entry for (dev, inum) takes one more reference;
past the last entry the remembered one is recycled for the inode, unread, and
none is the panic "iget: no inodes". -/
def igetScan (t : Itable) (dev inum : Nat) :
    List (Fin ninode) → Option (Fin ninode) → Option (Itable × Fin ninode)
  | i :: is, empty =>
    if (t i).ref > 0 ∧ (t i).dev = dev ∧ (t i).inum = inum then
      some (Function.update t i { (t i) with ref := (t i).ref + 1 }, i)
    else igetScan t dev inum is (if empty = none ∧ (t i).ref = 0 then some i else empty)
  | [], none => none
  | [], some e => some (Function.update t e { (t e) with dev := dev, inum := inum, ref := 1, valid := false }, e)

def iget (t : Itable) (dev inum : Nat) : Option (Itable × Fin ninode) :=
  igetScan t dev inum (List.finRange ninode) none

def idup (t : Itable) (i : Fin ninode) : Itable :=
  Function.update t i { (t i) with ref := (t i).ref + 1 }

/-- ilock(ip) without the sleep-lock: an entry not yet read reads its disk
inode; none is the panics "ilock" and "ilock: no type". -/
def ilock (t : Itable) (img : FsImage) (i : Fin ninode) : Option Itable :=
  if (t i).ref < 1 then none
  else if (t i).valid then some t
  else
    let ip := { (t i) with din := img.dinode (t i).inum, valid := true }
    if ip.din.type = 0 then none else some (Function.update t i ip)

/-- iupdate(ip): write the entry's copy to its disk inode. -/
def iupdate (img : FsImage) (ip : Inode) : FsImage :=
  { img with dinode := Function.update img.dinode ip.inum ip.din }

/-- iput(ip): the last reference to a read inode with no links truncates it
and frees it on the disk; every call drops one reference. -/
def iput (t : Itable) (img : FsImage) (i : Fin ninode) : Option (Itable × FsImage) :=
  let ip := t i
  if ip.ref = 1 ∧ ip.valid ∧ ip.din.nlink = 0 then
    match itrunc img ip.inum ip.din with
    | none => none
    | some (din, img) =>
      let ip := { ip with din := { din with type := 0 } }
      let img := iupdate img ip
      let ip := { ip with valid := false }
      some (Function.update t i { ip with ref := ip.ref - 1 }, img)
  else some (Function.update t i { ip with ref := ip.ref - 1 }, img)

/-- ialloc(dev, type): the first free disk inode from 1 below sb.ninodes,
zeroed and given the type, then iget of it; some (none, img) is "ialloc: no
inodes", where ialloc returns 0. -/
def ialloc (t : Itable) (img : FsImage) (dev type : Nat) :
    Option (Option (Itable × Fin ninode) × FsImage) :=
  match firstFree (fun inum => (img.dinode inum).type ≠ 0) 1 (img.sb.ninodes - 1) with
  | none => some (none, img)
  | some inum =>
    let img := { img with dinode := Function.update img.dinode inum ⟨type, 0, 0, 0, 0, fun _ => 0⟩ }
    (iget t dev inum).map fun r => (some r, img)

/-- The inode table and the disk, with the references the rest of the kernel
holds to each entry: the pointers iget, idup and ialloc gave out that iput has
not taken back. -/
structure Icache where
  itable : Itable
  img : FsImage
  held : Fin ninode → Nat

/-- The calls the rest of the kernel makes into the table; setNlink is a
caller's "ip->nlink = n; iupdate(ip)" on an inode it has locked, as in
sys_link, sys_unlink and create. -/
inductive Call where
  | iget (inum : Nat)
  | ialloc (type : Nat)
  | idup (i : Fin ninode)
  | ilock (i : Fin ninode)
  | setNlink (i : Fin ninode) (n : Nat)
  | iput (i : Fin ninode)

/-- A caller passes an entry only while it holds a reference to it, and sets
nlink only on an entry it has locked, so read. -/
def Call.allowed (c : Icache) : Call → Bool
  | .idup i | .ilock i | .iput i => decide (0 < c.held i)
  | .setNlink i _ => decide (0 < c.held i) && (c.itable i).valid
  | .iget _ | .ialloc _ => true

/-- One more reference held to entry i. -/
def hold (held : Fin ninode → Nat) (i : Fin ninode) : Fin ninode → Nat :=
  Function.update held i (held i + 1)

/-- A call into the table on the root disk; none is a panic. -/
def call (c : Icache) : Call → Option Icache
  | .iget inum => (iget c.itable rootdev inum).map fun r => ⟨r.1, c.img, hold c.held r.2⟩
  | .ialloc type => (ialloc c.itable c.img rootdev type).map fun r =>
      match r.1 with
      | none => { c with img := r.2 }
      | some (t, i) => ⟨t, r.2, hold c.held i⟩
  | .idup i => some { c with itable := idup c.itable i, held := hold c.held i }
  | .ilock i => (ilock c.itable c.img i).map fun t => { c with itable := t }
  | .setNlink i n =>
    let ip := { (c.itable i) with din := { (c.itable i).din with nlink := n } }
    some { c with itable := Function.update c.itable i ip, img := iupdate c.img ip }
  | .iput i => (iput c.itable c.img i).map fun r =>
      ⟨r.1, r.2, Function.update c.held i (c.held i - 1)⟩

/-- A step of the kernel: a call its callers' discipline allows. -/
def step (c : Icache) (a : Call) : Option Icache := if a.allowed c then call c a else none

/-- The table as the kernel starts with it, every entry zero, over a disk. -/
def iinit (img : FsImage) : Icache :=
  ⟨fun _ => ⟨0, 0, 0, false, ⟨0, 0, 0, 0, 0, fun _ => 0⟩⟩, img, fun _ => 0⟩

/-! ### iget -/

/-- The test iget makes of an entry: referenced, for the inode. -/
def isFor (dev inum : Nat) (ip : Inode) : Bool := decide (ip.ref > 0 ∧ ip.dev = dev ∧ ip.inum = inum)

def isFree (ip : Inode) : Bool := decide (ip.ref = 0)

theorem igetScan_eq (t : Itable) (dev inum : Nat) (l : List (Fin ninode)) (empty : Option (Fin ninode)) :
    igetScan t dev inum l empty =
      match l.find? fun j => isFor dev inum (t j) with
      | some i => some (Function.update t i { (t i) with ref := (t i).ref + 1 }, i)
      | none => (empty.or (l.find? fun j => isFree (t j))).map fun e =>
          (Function.update t e { (t e) with dev := dev, inum := inum, ref := 1, valid := false }, e) := by
  induction l generalizing empty with
  | nil => cases empty <;> rfl
  | cons i l ih =>
    rw [igetScan]
    by_cases hi : (t i).ref > 0 ∧ (t i).dev = dev ∧ (t i).inum = inum
    · rw [if_pos hi, List.find?_cons_of_pos (by simpa [isFor] using hi)]
    · have hempty : (if empty = none ∧ (t i).ref = 0 then some i else empty).or
            (l.find? fun j => isFree (t j)) = empty.or ((i :: l).find? fun j => isFree (t j)) := by
        cases empty with
        | some e => simp
        | none =>
          by_cases hz : (t i).ref = 0
          · simp [hz, isFree]
          · simp [hz, isFree, List.find?_cons_of_neg]
      rw [if_neg hi, ih, List.find?_cons_of_neg (by simpa [isFor] using hi), hempty]

theorem iget_of_found {t : Itable} {dev inum : Nat} {i : Fin ninode}
    (h : (List.finRange ninode).find? (fun j => isFor dev inum (t j)) = some i) :
    iget t dev inum = some (Function.update t i { (t i) with ref := (t i).ref + 1 }, i) := by
  rw [iget, igetScan_eq, h]

theorem iget_of_not_found {t : Itable} {dev inum : Nat}
    (h : (List.finRange ninode).find? (fun j => isFor dev inum (t j)) = none) :
    iget t dev inum = ((List.finRange ninode).find? fun j => isFree (t j)).map fun e =>
      (Function.update t e { (t e) with dev := dev, inum := inum, ref := 1, valid := false }, e) := by
  rw [iget, igetScan_eq, h]
  rfl

theorem iget_cases {t t' : Itable} {dev inum : Nat} {i : Fin ninode} (h : iget t dev inum = some (t', i)) :
    (isFor dev inum (t i) = true ∧ t' = Function.update t i { (t i) with ref := (t i).ref + 1 }) ∨
      ((∀ j, isFor dev inum (t j) = false) ∧ isFree (t i) = true ∧
        t' = Function.update t i { (t i) with dev := dev, inum := inum, ref := 1, valid := false }) := by
  cases hf : (List.finRange ninode).find? (fun j => isFor dev inum (t j)) with
  | some j =>
    rw [iget_of_found hf, Option.some.injEq, Prod.mk.injEq] at h
    obtain ⟨rfl, rfl⟩ := h
    have hj := List.find?_some hf
    exact .inl ⟨hj, rfl⟩
  | none =>
    rw [iget_of_not_found hf] at h
    obtain ⟨e, he, h⟩ := Option.map_eq_some_iff.mp h
    rw [Prod.mk.injEq] at h
    obtain ⟨rfl, rfl⟩ := h
    have he' := List.find?_some he
    exact .inr ⟨fun j => Bool.eq_false_iff.mpr (List.find?_eq_none.mp hf j (List.mem_finRange j)), he', rfl⟩

theorem iget_entry {t t' : Itable} {dev inum : Nat} {i : Fin ninode} (h : iget t dev inum = some (t', i)) :
    (t' i).inum = inum ∧ ∀ j, j ≠ i → t' j = t j := by
  rcases iget_cases h with ⟨hfor, rfl⟩ | ⟨-, -, rfl⟩
  · simp only [isFor, decide_eq_true_eq] at hfor
    exact ⟨by simp [hfor.2.2], fun j hj => Function.update_of_ne hj _ _⟩
  · exact ⟨by simp, fun j hj => Function.update_of_ne hj _ _⟩

theorem iget_isSome {t : Itable} (hfree : ∃ j, (t j).ref = 0) (dev inum : Nat) :
    (iget t dev inum).isSome := by
  cases hf : (List.finRange ninode).find? (fun j => isFor dev inum (t j)) with
  | some j =>
    rw [iget_of_found hf]
    rfl
  | none =>
    obtain ⟨j, hj⟩ := hfree
    rw [iget_of_not_found hf, Option.isSome_map]
    exact List.find?_isSome.mpr ⟨j, List.mem_finRange j, by simp [isFree, hj]⟩

/-- Every entry holds the references it held, and a referenced entry is as it
was: at most free entries have been recycled. -/
def KeepsRefs (t t' : Itable) : Prop := ∀ j, (t' j).ref = (t j).ref ∧ ((t j).ref ≠ 0 → t' j = t j)

theorem KeepsRefs.refl (t : Itable) : KeepsRefs t t := fun _ => ⟨rfl, fun _ => rfl⟩

theorem KeepsRefs.trans {t₁ t₂ t₃ : Itable} (h₁ : KeepsRefs t₁ t₂) (h₂ : KeepsRefs t₂ t₃) :
    KeepsRefs t₁ t₃ := fun j =>
  ⟨(h₂ j).1.trans (h₁ j).1, fun hj => ((h₂ j).2 (by rw [(h₁ j).1]; exact hj)).trans ((h₁ j).2 hj)⟩

theorem KeepsRefs.free {t t' : Itable} (h : KeepsRefs t t') (hfree : ∃ j, (t j).ref = 0) :
    ∃ j, (t' j).ref = 0 := by
  obtain ⟨j, hj⟩ := hfree
  exact ⟨j, (h j).1.trans hj⟩

theorem ilock_entry {t t' : Itable} {img : FsImage} {i : Fin ninode} (h : ilock t img i = some t') :
    (t' i).valid = true ∧ (t' i).inum = (t i).inum ∧ ∀ j, j ≠ i → t' j = t j := by
  unfold ilock at h
  dsimp only at h
  split_ifs at h with href hv
  · rw [Option.some.injEq] at h
    subst h
    exact ⟨hv, rfl, fun _ _ => rfl⟩
  · rw [Option.some.injEq] at h
    subst h
    exact ⟨by simp, by simp, fun j hj => Function.update_of_ne hj _ _⟩

/-! ### The disk invariant -/

/-- The disk's allocated inodes each hold a sound map, no two of them hold one
block, and block numbers fit a uint. -/
structure FsOk (img : FsImage) : Prop where
  mapOk : ∀ n, (img.dinode n).type ≠ 0 → MapOk img (img.dinode n)
  disjoint : ∀ m n a, m ≠ n → (img.dinode m).type ≠ 0 → (img.dinode n).type ≠ 0 →
    Owns img (img.dinode m) a → ¬Owns img (img.dinode n) a
  fits : img.sb.size ≤ 2 ^ 32

theorem mapOk_setDinode {img : FsImage} {ip : Dinode} (hok : MapOk img ip) (f : Nat → Dinode) :
    MapOk { img with dinode := f } ip :=
  ⟨hok.inj, hok.used, hok.fits⟩

theorem slotAddr_zero_addrs (img : FsImage) {ip : Dinode} (h : ip.addrs = fun _ => 0) (s : Slot) :
    slotAddr img ip s = 0 := by
  cases s <;> simp [slotAddr, h]

/-- A disk inode set to one whose map is sound and shares no block with
another allocated inode keeps the disk sound. -/
theorem FsOk.setDinode {img : FsImage} (hfs : FsOk img) (n : Nat) (d : Dinode)
    (hmap : d.type ≠ 0 → MapOk img d)
    (hdisj : d.type ≠ 0 → ∀ m, m ≠ n → (img.dinode m).type ≠ 0 → ∀ a, Owns img d a →
      ¬Owns img (img.dinode m) a) :
    FsOk { img with dinode := Function.update img.dinode n d } where
  mapOk m hm := by
    dsimp only at hm ⊢
    by_cases hmn : m = n
    · subst hmn
      rw [Function.update_self] at hm ⊢
      exact mapOk_setDinode (hmap hm) _
    · rw [Function.update_of_ne hmn] at hm ⊢
      exact mapOk_setDinode (hfs.mapOk m hm) _
  disjoint m m' a hne hm hm' := by
    dsimp only at hm hm' ⊢
    show Owns img _ a → ¬Owns img _ a
    by_cases hmn : m = n
    · subst hmn
      rw [Function.update_of_ne (Ne.symm hne)] at hm' ⊢
      rw [Function.update_self] at hm ⊢
      exact hdisj hm m' (Ne.symm hne) hm' a
    · rw [Function.update_of_ne hmn] at hm ⊢
      by_cases hmn' : m' = n
      · subst hmn'
        rw [Function.update_self] at hm' ⊢
        exact fun ha hd => hdisj hm' m hmn hm a hd ha
      · rw [Function.update_of_ne hmn'] at hm' ⊢
        exact hfs.disjoint m m' a hne hm hm'
  fits := hfs.fits

/-- Freeing allocated inode n with its blocks keeps the disk sound. -/
theorem FsOk.free {img img' : FsImage} (hfs : FsOk img) {n : Nat} (hn : (img.dinode n).type ≠ 0)
    {d : Dinode} (hd : d.type = 0) (hsb : img'.sb = img.sb) (hblk : img'.block = img.block)
    (hdin : img'.dinode = Function.update img.dinode n d)
    (hbm : ∀ a, img'.bitmap a = true ↔ img.bitmap a = true ∧ ¬Owns img (img.dinode n) a) :
    FsOk img' := by
  have hother : ∀ m, (img'.dinode m).type ≠ 0 →
      m ≠ n ∧ img'.dinode m = img.dinode m ∧ slotAddr img' (img.dinode m) = slotAddr img (img.dinode m) := by
    intro m hm
    have hmn : m ≠ n := by
      rintro rfl
      rw [hdin, Function.update_self, hd] at hm
      exact hm rfl
    rw [hdin, Function.update_of_ne hmn]
    exact ⟨hmn, rfl, slotAddr_of_addrs hblk rfl⟩
  refine ⟨fun m hm => ?_, fun m m' a hne hm hm' => ?_, hsb ▸ hfs.fits⟩
  · obtain ⟨hmn, hdm, hslot⟩ := hother m hm
    rw [hdm] at hm ⊢
    have hok := hfs.mapOk m hm
    refine ⟨fun s t => hslot ▸ hok.inj s t, fun s hs => ?_, hsb ▸ hok.fits⟩
    rw [hslot] at hs ⊢
    exact (hbm _).mpr ⟨hok.used s hs, hfs.disjoint m n _ hmn hm hn ⟨hs, s, rfl⟩⟩
  · obtain ⟨-, hdm, hslot⟩ := hother m hm
    obtain ⟨-, hdm', hslot'⟩ := hother m' hm'
    rw [hdm] at hm ⊢
    rw [hdm'] at hm' ⊢
    unfold Owns
    rw [hslot, hslot']
    exact hfs.disjoint m m' a hne hm hm'

theorem mapOk_zero_addrs {img : FsImage} {ip : Dinode} (h : ip.addrs = fun _ => 0)
    (hfits : img.sb.size ≤ 2 ^ 32) : MapOk img ip :=
  ⟨fun s _ hs => absurd (slotAddr_zero_addrs img h s) hs,
    fun s hs => absurd (slotAddr_zero_addrs img h s) hs, hfits⟩

theorem not_owns_zero_addrs {img : FsImage} {ip : Dinode} (h : ip.addrs = fun _ => 0) (a : Nat) :
    ¬Owns img ip a := by
  rintro ⟨ha, s, rfl⟩
  exact ha (slotAddr_zero_addrs img h s)

theorem fsOk_orphanDisk : FsOk orphanDisk where
  mapOk n hn := by
    by_cases h1 : n = 1
    · subst h1
      exact mapOk_fatFile
    · simp [orphanDisk, h1, testDisk] at hn
  disjoint m n _ hmn hm hn := by
    by_cases h1 : m = 1
    · subst h1
      simp [orphanDisk, Ne.symm hmn, testDisk] at hn
    · simp [orphanDisk, h1, testDisk] at hm
  fits := by decide

theorem owns_of_block {img img' : FsImage} {ip : Dinode} (h : img'.block = img.block) :
    Owns img' ip = Owns img ip := by
  unfold Owns
  rw [slotAddr_of_addrs h rfl]

theorem mapOk_setBlock_foreign {img : FsImage} {ip : Dinode} (hok : MapOk img ip) {a : Nat}
    (ha : ¬Owns img ip a) (blk : Block) :
    MapOk (img.setBlock a blk) ip ∧ slotAddr (img.setBlock a blk) ip = slotAddr img ip := by
  have hne : ∀ s, slotAddr img ip s ≠ 0 → slotAddr img ip s ≠ a := fun s hs he => ha ⟨he ▸ hs, s, he⟩
  have hslot : slotAddr (img.setBlock a blk) ip = slotAddr img ip :=
    slotAddr_congr fun hind => Function.update_of_ne (hne .indirect hind) _ _
  refine ⟨(hok.frame hslot (fun _ h => h) rfl fun bn hbn => ?_).1, hslot⟩
  exact Function.update_of_ne (hne _ hbn) _ _

/-- The layout mkfs gives the disk: the blocks before the data blocks, from
the boot block to the free map, are marked in use, and every block an
allocated inode holds is a data block, in [size - nblocks, size). -/
structure DataOk (img : FsImage) : Prop where
  used : ∀ b, b < img.sb.size - img.sb.nblocks → img.bitmap b = true
  data : ∀ n a, (img.dinode n).type ≠ 0 → Owns img (img.dinode n) a →
    img.sb.size - img.sb.nblocks ≤ a ∧ a < img.sb.size

theorem DataOk.of_owns {img img' : FsImage} (hd : DataOk img) (hsb : img'.sb = img.sb)
    (hused : ∀ b, b < img.sb.size - img.sb.nblocks → img'.bitmap b = img.bitmap b)
    (hown : ∀ n a, (img'.dinode n).type ≠ 0 → Owns img' (img'.dinode n) a →
      ∃ m, (img.dinode m).type ≠ 0 ∧ Owns img (img.dinode m) a) : DataOk img' where
  used b hb := by
    rw [hsb] at hb
    rw [hused b hb]
    exact hd.used b hb
  data n a hn ha := by
    obtain ⟨m, hm, ham⟩ := hown n a hn ha
    rw [hsb]
    exact hd.data m a hm ham

theorem DataOk.setDinode {img : FsImage} (hd : DataOk img) (n : Nat) (d : Dinode)
    (hown : d.type ≠ 0 → ∀ a, Owns img d a → (img.dinode n).type ≠ 0 ∧ Owns img (img.dinode n) a) :
    DataOk { img with dinode := Function.update img.dinode n d } := by
  refine hd.of_owns rfl (fun _ _ => rfl) fun m a hm ha => ?_
  dsimp only at hm ha
  by_cases hmn : m = n
  · subst hmn
    rw [Function.update_self] at hm ha
    exact ⟨m, hown hm a ha⟩
  · rw [Function.update_of_ne hmn] at hm ha
    exact ⟨m, hm, ha⟩

theorem dataOk_orphanDisk : DataOk orphanDisk where
  used b hb := by
    simp only [orphanDisk, decide_eq_true_eq]
    exact Nat.lt_trans hb (by decide)
  data n a hn ha := by
    by_cases h1 : n = 1
    · subst h1
      obtain ⟨ha0, s, rfl⟩ := ha
      change slotAddr orphanDisk fatFile s ≠ 0 at ha0
      change 47 ≤ slotAddr orphanDisk fatFile s ∧ slotAddr orphanDisk fatFile s < 2000
      rw [slotAddr_fatFile] at ha0 ⊢
      cases s with
      | direct j =>
        simp only at ha0 ⊢
        unfold ndirect at ha0 ⊢
        split_ifs at ha0 ⊢ <;> omega
      | indirect => decide
      | entry e =>
        simp only at ha0 ⊢
        split_ifs at ha0 ⊢ <;> first | decide | exact absurd rfl ha0
    · simp [orphanDisk, h1, testDisk] at hn

/-! ### The table invariant -/

/-- The table agrees with its callers and with the disk: each entry counts the
references held to it; a referenced entry is for an inode of the root disk, and
no other referenced entry is for the same inode; and a referenced entry that
has read its disk inode holds it as the disk does, allocated. -/
structure CacheOk (c : Icache) : Prop where
  ref_eq : ∀ i, (c.itable i).ref = c.held i
  dev_eq : ∀ i, 0 < c.held i → (c.itable i).dev = rootdev
  unique : ∀ i j, 0 < c.held i → 0 < c.held j → (c.itable i).inum = (c.itable j).inum → i = j
  loaded : ∀ i, 0 < c.held i → (c.itable i).valid = true →
    (c.itable i).din = c.img.dinode (c.itable i).inum ∧ (c.itable i).din.type ≠ 0
  fsOk : FsOk c.img

/-- Every call changes one entry, its references and the disk: the invariant
holds after it when the entry keeps it and the disk changes under no other
referenced entry that has read its inode. -/
theorem CacheOk.set {c : Icache} (hc : CacheOk c) (i : Fin ninode) (ip : Inode) (n : Nat)
    (img : FsImage) (href : ip.ref = n) (hdev : 0 < n → ip.dev = rootdev)
    (huniq : 0 < n → ∀ j, j ≠ i → 0 < c.held j → (c.itable j).inum ≠ ip.inum)
    (hload : 0 < n → ip.valid = true → ip.din = img.dinode ip.inum ∧ ip.din.type ≠ 0)
    (hframe : ∀ j, j ≠ i → 0 < c.held j → (c.itable j).valid = true →
      img.dinode (c.itable j).inum = c.img.dinode (c.itable j).inum)
    (hfs : FsOk img) :
    CacheOk ⟨Function.update c.itable i ip, img, Function.update c.held i n⟩ := by
  refine ⟨fun j => ?_, fun j hj => ?_, fun j k hj hk hjk => ?_, fun j hj hv => ?_, hfs⟩
  · dsimp only
    by_cases hji : j = i
    · subst hji
      rw [Function.update_self, Function.update_self, href]
    · rw [Function.update_of_ne hji, Function.update_of_ne hji, hc.ref_eq j]
  · dsimp only at hj ⊢
    by_cases hji : j = i
    · subst hji
      rw [Function.update_self] at hj ⊢
      exact hdev hj
    · rw [Function.update_of_ne hji] at hj ⊢
      exact hc.dev_eq j hj
  · dsimp only at hj hk hjk ⊢
    by_cases hji : j = i <;> by_cases hki : k = i
    · rw [hji, hki]
    · subst hji
      rw [Function.update_self, Function.update_of_ne hki] at hjk
      rw [Function.update_self] at hj
      rw [Function.update_of_ne hki] at hk
      exact absurd hjk.symm (huniq hj k hki hk)
    · subst hki
      rw [Function.update_self, Function.update_of_ne hji] at hjk
      rw [Function.update_self] at hk
      rw [Function.update_of_ne hji] at hj
      exact absurd hjk (huniq hk j hji hj)
    · rw [Function.update_of_ne hji, Function.update_of_ne hki] at hjk
      rw [Function.update_of_ne hji] at hj
      rw [Function.update_of_ne hki] at hk
      exact hc.unique j k hj hk hjk
  · dsimp only at hj hv ⊢
    by_cases hji : j = i
    · subst hji
      rw [Function.update_self] at hj hv ⊢
      exact hload hj hv
    · rw [Function.update_of_ne hji] at hj hv ⊢
      rw [hframe j hji hj hv]
      exact hc.loaded j hj hv

theorem CacheOk.setImg {c : Icache} (hc : CacheOk c) (img : FsImage)
    (hframe : ∀ j, 0 < c.held j → (c.itable j).valid = true →
      img.dinode (c.itable j).inum = c.img.dinode (c.itable j).inum)
    (hfs : FsOk img) : CacheOk { c with img := img } := by
  refine ⟨hc.ref_eq, hc.dev_eq, hc.unique, fun j hj hv => ?_, hfs⟩
  dsimp only
  rw [hframe j hj hv]
  exact hc.loaded j hj hv

theorem CacheOk.isFor_iff {c : Icache} (hc : CacheOk c) (inum : Nat) (j : Fin ninode) :
    isFor rootdev inum (c.itable j) = true ↔ 0 < c.held j ∧ (c.itable j).inum = inum := by
  simp only [isFor, decide_eq_true_eq, hc.ref_eq j, gt_iff_lt, Int.natCast_pos]
  constructor
  · rintro ⟨hj, -, h⟩
    exact ⟨hj, h⟩
  · rintro ⟨hj, h⟩
    exact ⟨hj, hc.dev_eq j hj, h⟩

theorem CacheOk.isFree_iff {c : Icache} (hc : CacheOk c) (j : Fin ninode) :
    isFree (c.itable j) = true ↔ c.held j = 0 := by
  simp [isFree, hc.ref_eq j]

theorem CacheOk.inum_ne {c : Icache} (hc : CacheOk c) {i : Fin ninode} (hi : 0 < c.held i) :
    ∀ j, j ≠ i → 0 < c.held j → (c.itable j).inum ≠ (c.itable i).inum :=
  fun j hji hj he => hji (hc.unique j i hj hi he)

theorem CacheOk.not_ref_lt_one {c : Icache} (hc : CacheOk c) {i : Fin ninode} (hi : 0 < c.held i) :
    ¬(c.itable i).ref < 1 := by
  rw [hc.ref_eq i]
  omega

theorem CacheOk.bump {c : Icache} (hc : CacheOk c) {j : Fin ninode} (hj : 0 < c.held j) :
    CacheOk ⟨Function.update c.itable j { (c.itable j) with ref := (c.itable j).ref + 1 }, c.img,
      hold c.held j⟩ := by
  refine hc.set j _ _ _ ?_ (fun _ => hc.dev_eq j hj) (fun _ => hc.inum_ne hj)
    (fun _ hv => hc.loaded j hj hv) (fun _ _ _ _ => rfl) hc.fsOk
  simp [hc.ref_eq j]

theorem CacheOk.iget {c : Icache} (hc : CacheOk c) {inum : Nat} {t : Itable} {i : Fin ninode}
    (h : iget c.itable rootdev inum = some (t, i)) : CacheOk ⟨t, c.img, hold c.held i⟩ := by
  cases hf : (List.finRange ninode).find? (fun j => isFor rootdev inum (c.itable j)) with
  | some j =>
    rw [iget_of_found hf, Option.some.injEq, Prod.mk.injEq] at h
    obtain ⟨rfl, rfl⟩ := h
    have hj := List.find?_some hf
    exact hc.bump ((hc.isFor_iff inum j).mp hj).1
  | none =>
    rw [iget_of_not_found hf] at h
    obtain ⟨e, he, h⟩ := Option.map_eq_some_iff.mp h
    rw [Prod.mk.injEq] at h
    obtain ⟨rfl, rfl⟩ := h
    have he' := List.find?_some he
    have he0 : c.held e = 0 := (hc.isFree_iff e).mp he'
    refine hc.set e _ _ _ (by simp [he0]) (fun _ => rfl) (fun _ k _ hk hke => ?_)
      (fun _ hv => absurd hv Bool.false_ne_true) (fun _ _ _ _ => rfl) hc.fsOk
    -- a referenced entry for the inode would have been taken
    exact List.find?_eq_none.mp hf k (List.mem_finRange k) ((hc.isFor_iff inum k).mpr ⟨hk, hke⟩)

theorem ialloc_of_none {t : Itable} {img : FsImage} {dev type : Nat}
    (h : firstFree (fun inum => (img.dinode inum).type ≠ 0) 1 (img.sb.ninodes - 1) = none) :
    ialloc t img dev type = some (none, img) := by
  rw [ialloc, h]

theorem ialloc_of_some {t : Itable} {img : FsImage} {dev type inum : Nat}
    (h : firstFree (fun inum => (img.dinode inum).type ≠ 0) 1 (img.sb.ninodes - 1) = some inum) :
    ialloc t img dev type = (iget t dev inum).map fun r =>
      (some r, { img with dinode := Function.update img.dinode inum ⟨type, 0, 0, 0, 0, fun _ => 0⟩ }) := by
  rw [ialloc, h]

theorem CacheOk.allocDinode {c : Icache} (hc : CacheOk c) {inum : Nat}
    (hfree : (c.img.dinode inum).type = 0) (type : Nat) :
    CacheOk { c with
      img := { c.img with dinode := Function.update c.img.dinode inum ⟨type, 0, 0, 0, 0, fun _ => 0⟩ } } := by
  refine hc.setImg _ (fun j hj hv => ?_) (hc.fsOk.setDinode inum _
    (fun _ => mapOk_zero_addrs rfl hc.fsOk.fits) fun _ _ _ _ a ha => absurd ha (not_owns_zero_addrs rfl a))
  -- an entry that has read its inode is for an allocated one, so not for this one
  have hne : (c.itable j).inum ≠ inum := by
    intro he
    apply (hc.loaded j hj hv).2
    rw [(hc.loaded j hj hv).1, he, hfree]
  exact Function.update_of_ne hne _ _

theorem CacheOk.ilock {c : Icache} (hc : CacheOk c) {i : Fin ninode} (hi : 0 < c.held i)
    {t : Itable} (h : ilock c.itable c.img i = some t) : CacheOk { c with itable := t } := by
  rw [Inodes.ilock, if_neg (hc.not_ref_lt_one hi)] at h
  by_cases hv : (c.itable i).valid = true
  · rw [if_pos hv, Option.some.injEq] at h
    subst h
    exact hc
  · rw [if_neg hv] at h
    dsimp only at h
    split_ifs at h with ht
    rw [Option.some.injEq] at h
    subst h
    rw [show c.held = Function.update c.held i (c.held i) from (Function.update_eq_self i c.held).symm]
    exact hc.set i _ (c.held i) c.img (hc.ref_eq i) (fun _ => hc.dev_eq i hi) (fun _ => hc.inum_ne hi)
      (fun _ _ => ⟨rfl, ht⟩) (fun _ _ _ _ => rfl) hc.fsOk

theorem CacheOk.iget_ilock {c : Icache} (hc : CacheOk c) {inum : Nat} {t : Itable} {i : Fin ninode}
    (h : Inodes.iget c.itable rootdev inum = some (t, i)) (hty : (c.img.dinode inum).type ≠ 0) :
    ∃ t', Inodes.ilock t c.img i = some t' ∧ CacheOk ⟨t', c.img, hold c.held i⟩ ∧
      (t' i).inum = inum ∧ (t' i).valid = true ∧ (t' i).din = c.img.dinode inum := by
  have hc₁ := hc.iget h
  have hi : 0 < hold c.held i i := by simp [hold]
  have hnum := (iget_entry h).1
  obtain ⟨t', hl⟩ : ∃ t', Inodes.ilock t c.img i = some t' := by
    have hr : ¬(t i).ref < 1 := hc₁.not_ref_lt_one hi
    rw [Inodes.ilock, if_neg hr]
    dsimp only
    split_ifs with hv h0
    · exact ⟨_, rfl⟩
    · exact absurd (hnum ▸ h0) hty
    · exact ⟨_, rfl⟩
  obtain ⟨hv, hnum', -⟩ := ilock_entry hl
  have hc₂ : CacheOk ⟨t', c.img, hold c.held i⟩ := hc₁.ilock hi hl
  refine ⟨t', hl, hc₂, hnum'.trans hnum, hv, ?_⟩
  rw [(hc₂.loaded i hi hv).1, hnum', hnum]

theorem CacheOk.held_eq_zero_of_iget {c : Icache} (hc : CacheOk c) {inum : Nat} {t : Itable}
    {i : Fin ninode} (h : Inodes.iget c.itable rootdev inum = some (t, i)) :
    c.held i = 0 ↔ ∀ j, 0 < c.held j → (c.itable j).inum ≠ inum := by
  rcases iget_cases h with ⟨hfor, -⟩ | ⟨hnone, hfree, -⟩
  · have hi := (hc.isFor_iff inum i).mp hfor
    exact ⟨fun h0 => absurd hi.1 (by omega), fun hall => absurd hi.2 (hall i hi.1)⟩
  · refine ⟨fun _ j hj he => ?_, fun _ => (hc.isFree_iff i).mp hfree⟩
    have := (hc.isFor_iff inum j).mpr ⟨hj, he⟩
    rw [hnone j] at this
    cases this

theorem CacheOk.ref_of_put {c : Icache} (hc : CacheOk c) {i : Fin ninode} {t t' : Itable}
    (ht : CacheOk ⟨t, c.img, hold c.held i⟩) (hi : (t' i).ref = (t i).ref - 1) (hj : ∀ j, j ≠ i → t' j = t j)
    (j : Fin ninode) : (t' j).ref = (c.itable j).ref := by
  rw [hc.ref_eq j]
  by_cases hji : j = i
  · subst hji
    rw [hi, ht.ref_eq]
    simp [hold]
  · rw [hj j hji, ht.ref_eq j]
    simp [hold, Function.update_of_ne hji]

theorem owns_of_addrs {img : FsImage} {ip ip' : Dinode} (h : ip'.addrs = ip.addrs) :
    Owns img ip' = Owns img ip := by
  unfold Owns
  rw [slotAddr_of_addrs rfl h]

theorem CacheOk.setNlink {c : Icache} (hc : CacheOk c) {i : Fin ninode} (hi : 0 < c.held i)
    (hv : (c.itable i).valid = true) (n : Nat) :
    CacheOk { c with
      itable := Function.update c.itable i { (c.itable i) with din := { (c.itable i).din with nlink := n } },
      img := iupdate c.img { (c.itable i) with din := { (c.itable i).din with nlink := n } } } := by
  obtain ⟨hdin, hty⟩ := hc.loaded i hi hv
  have hdisk : (c.img.dinode (c.itable i).inum).type ≠ 0 := hdin ▸ hty
  have hok : MapOk c.img (c.itable i).din := hdin ▸ hc.fsOk.mapOk _ hdisk
  have hown : Owns c.img { (c.itable i).din with nlink := n } = Owns c.img (c.img.dinode (c.itable i).inum) :=
    owns_of_addrs (by rw [hdin])
  have hfs : FsOk (iupdate c.img { (c.itable i) with din := { (c.itable i).din with nlink := n } }) :=
    hc.fsOk.setDinode _ _ (fun _ => (MapOk.of_addrs c.img { (c.itable i).din with nlink := n } hok rfl rfl rfl rfl).1)
      fun _ m hm hm' a ha => hc.fsOk.disjoint _ m a (Ne.symm hm) hdisk hm' (hown ▸ ha)
  rw [show c.held = Function.update c.held i (c.held i) from (Function.update_eq_self i c.held).symm]
  exact hc.set i _ (c.held i) _ (hc.ref_eq i) (fun _ => hc.dev_eq i hi) (fun _ => hc.inum_ne hi)
    (fun _ _ => ⟨by simp [iupdate], hty⟩)
    (fun j hji hj _ => Function.update_of_ne (hc.inum_ne hi j hji hj) _ _) hfs

theorem iput_of_last {t : Itable} {img img' : FsImage} {i : Fin ninode} {din : Dinode}
    (hlast : (t i).ref = 1 ∧ (t i).valid = true ∧ (t i).din.nlink = 0)
    (h : itrunc img (t i).inum (t i).din = some (din, img')) :
    iput t img i = some (Function.update t i
        { (t i) with din := { din with type := 0 }, valid := false, ref := (t i).ref - 1 },
      iupdate img' { (t i) with din := { din with type := 0 } }) := by
  rw [iput, if_pos hlast, h]

theorem iput_of_not_last {t : Itable} {img : FsImage} {i : Fin ninode}
    (h : ¬((t i).ref = 1 ∧ (t i).valid = true ∧ (t i).din.nlink = 0)) :
    iput t img i = some (Function.update t i { (t i) with ref := (t i).ref - 1 }, img) := by
  rw [iput, if_neg h]

theorem iput_spec {t : Itable} {img : FsImage} {i : Fin ninode} (hok : MapOk img (t i).din) :
    ∃ t' img', iput t img i = some (t', img') ∧ (t' i).ref = (t i).ref - 1 ∧ (∀ j, j ≠ i → t' j = t j) ∧
      img'.sb = img.sb ∧ img'.block = img.block ∧
      (∀ a, img.bitmap a = true → ¬Owns img (t i).din a → img'.bitmap a = true) ∧
      (∀ n, n ≠ (t i).inum → img'.dinode n = img.dinode n) ∧
      img'.dinode (t i).inum =
        if (t i).ref = 1 ∧ (t i).valid = true ∧ (t i).din.nlink = 0 then
          { (t i).din with type := 0, size := 0, addrs := fun _ => 0 }
        else img.dinode (t i).inum := by
  by_cases hlast : (t i).ref = 1 ∧ (t i).valid = true ∧ (t i).din.nlink = 0
  · rw [iput_of_last hlast (itrunc_of_mapOk (t i).inum hok), if_pos hlast]
    refine ⟨_, _, rfl, by simp, fun j hj => Function.update_of_ne hj _ _, rfl, rfl,
      fun a ha hn => (freed_bitmap_iff img.bitmap a).mpr ⟨ha, hn⟩, fun n hn => ?_, by simp [iupdate]⟩
    simp [iupdate, Function.update_of_ne hn]
  · rw [iput_of_not_last hlast, if_neg hlast]
    exact ⟨_, _, rfl, by simp, fun j hj => Function.update_of_ne hj _ _, rfl, rfl, fun a ha _ => ha,
      fun _ _ => rfl, rfl⟩

theorem iput_of_iget {t t' : Itable} {dev inum : Nat} {i : Fin ninode} (img : FsImage)
    (h : iget t dev inum = some (t', i)) : ∃ t'', iput t' img i = some (t'', img) ∧ KeepsRefs t t'' := by
  rcases iget_cases h with ⟨hfor, rfl⟩ | ⟨-, hfree, rfl⟩
  · have hpos : 0 < (t i).ref := by
      simp only [isFor, decide_eq_true_eq] at hfor
      exact hfor.1
    refine ⟨_, iput_of_not_last (by simp; omega), fun j => ?_⟩
    by_cases hj : j = i
    · subst hj
      simp
    · simp [Function.update_of_ne hj]
  · have h0 : (t i).ref = 0 := by simpa [isFree] using hfree
    refine ⟨_, iput_of_not_last (by simp), fun j => ?_⟩
    by_cases hj : j = i
    · subst hj
      simp [h0]
    · simp [Function.update_of_ne hj]

theorem CacheOk.iput_last {c : Icache} (hc : CacheOk c) {i : Fin ninode}
    (hlast : (c.itable i).ref = 1 ∧ (c.itable i).valid = true ∧ (c.itable i).din.nlink = 0) :
    ∃ img, itrunc c.img (c.itable i).inum (c.itable i).din =
        some ({ (c.itable i).din with addrs := fun _ => 0, size := 0 }, img) ∧
      img.sb = c.img.sb ∧ img.block = c.img.block ∧
      img.dinode = Function.update c.img.dinode (c.itable i).inum
        { (c.itable i).din with addrs := fun _ => 0, size := 0 } ∧
      ∀ a, img.bitmap a = true ↔ c.img.bitmap a = true ∧ ¬Owns c.img (c.itable i).din a := by
  have hheld : 0 < c.held i := by
    have := hc.ref_eq i
    omega
  obtain ⟨hdin, hty⟩ := hc.loaded i hheld hlast.2.1
  rw [itrunc_of_mapOk _ (hdin ▸ hc.fsOk.mapOk _ (hdin ▸ hty))]
  exact ⟨_, rfl, rfl, rfl, rfl, freed_bitmap_iff c.img.bitmap⟩

/-- iput of a referenced entry keeps the invariant. -/
theorem CacheOk.iput {c : Icache} (hc : CacheOk c) {i : Fin ninode} (hi : 0 < c.held i)
    {t : Itable} {img : FsImage} (h : iput c.itable c.img i = some (t, img)) :
    CacheOk ⟨t, img, Function.update c.held i (c.held i - 1)⟩ := by
  by_cases hlast : (c.itable i).ref = 1 ∧ (c.itable i).valid = true ∧ (c.itable i).din.nlink = 0
  · obtain ⟨img₁, hit, hsb, hblk, hdn, hbm⟩ := hc.iput_last hlast
    rw [iput_of_last hlast hit, Option.some.injEq, Prod.mk.injEq] at h
    obtain ⟨rfl, rfl⟩ := h
    obtain ⟨hdin, hty⟩ := hc.loaded i hi hlast.2.1
    have h1 : c.held i = 1 := by
      have := hc.ref_eq i
      omega
    refine hc.set i _ _ _ (by rw [hlast.1, h1]; rfl) (fun h => absurd h (by omega))
      (fun h => absurd h (by omega)) (fun h => absurd h (by omega)) (fun j hji hj _ => ?_)
      (hc.fsOk.free (hdin ▸ hty) (d := { { (c.itable i).din with addrs := fun _ => 0, size := 0 } with type := 0 })
        rfl hsb hblk ?_ ?_)
    · simp [iupdate, hdn, Function.update_of_ne (hc.inum_ne hi j hji hj)]
    · simp [iupdate, hdn, hdin]
    · rw [← hdin]
      exact hbm
  · rw [iput_of_not_last hlast, Option.some.injEq, Prod.mk.injEq] at h
    obtain ⟨rfl, rfl⟩ := h
    refine hc.set i _ _ _ ?_ (fun _ => hc.dev_eq i hi) (fun _ => hc.inum_ne hi)
      (fun _ hv => hc.loaded i hi hv) (fun _ _ _ _ => rfl) hc.fsOk
    have := hc.ref_eq i
    dsimp only
    omega

/-- Every step keeps the invariant. -/
theorem CacheOk.step {c c' : Icache} (hc : CacheOk c) {a : Call} (h : step c a = some c') :
    CacheOk c' := by
  unfold Inodes.step at h
  split_ifs at h with ha
  cases a with
  | iget inum =>
    obtain ⟨⟨t, i⟩, hget, rfl⟩ := Option.map_eq_some_iff.mp h
    exact hc.iget hget
  | ialloc type =>
    rw [call] at h
    cases hff : firstFree (fun inum => (c.img.dinode inum).type ≠ 0) 1 (c.img.sb.ninodes - 1) with
    | none =>
      rw [ialloc_of_none hff, Option.map_some, Option.some.injEq] at h
      subst h
      exact hc
    | some inum =>
      rw [ialloc_of_some hff, Option.map_map] at h
      obtain ⟨⟨t, i⟩, hget, rfl⟩ := Option.map_eq_some_iff.mp h
      have hfree : (c.img.dinode inum).type = 0 := by simpa using (firstFree_sound hff).1
      exact (hc.allocDinode hfree type).iget hget
  | idup i =>
    rw [call, Option.some.injEq] at h
    subst h
    exact hc.bump (by simpa [Call.allowed] using ha)
  | ilock i =>
    obtain ⟨t, hl, rfl⟩ := Option.map_eq_some_iff.mp h
    exact hc.ilock (by simpa [Call.allowed] using ha) hl
  | setNlink i n =>
    simp only [Call.allowed, Bool.and_eq_true, decide_eq_true_eq] at ha
    rw [call, Option.some.injEq] at h
    subst h
    exact hc.setNlink ha.1 ha.2 n
  | iput i =>
    obtain ⟨⟨t, img⟩, hp, rfl⟩ := Option.map_eq_some_iff.mp h
    exact hc.iput (by simpa [Call.allowed] using ha) hp

/-- iput keeps the layout: the blocks the inode it frees gives up are data
blocks, so the marks before them stay. -/
theorem CacheOk.dataOk_iput {c : Icache} (hc : CacheOk c) (hd : DataOk c.img) {i : Fin ninode}
    {t : Itable} {img : FsImage} (h : Inodes.iput c.itable c.img i = some (t, img)) : DataOk img := by
  by_cases hlast : (c.itable i).ref = 1 ∧ (c.itable i).valid = true ∧ (c.itable i).din.nlink = 0
  · obtain ⟨img₁, hit, hsb, hblk, hdn, hbm⟩ := hc.iput_last hlast
    rw [iput_of_last hlast hit, Option.some.injEq, Prod.mk.injEq] at h
    obtain ⟨-, rfl⟩ := h
    have hheld : 0 < c.held i := by
      have := hc.ref_eq i
      omega
    obtain ⟨hdin, hty⟩ := hc.loaded i hheld hlast.2.1
    refine hd.of_owns hsb (fun b hb => ?_) fun n a hn ha => ?_
    · have hnot : ¬Owns c.img (c.itable i).din b := fun hown =>
        absurd hb (Nat.not_lt.mpr (hd.data _ b (hdin ▸ hty) (hdin ▸ hown)).1)
      exact Bool.eq_iff_iff.mpr ((hbm b).trans (and_iff_left hnot))
    · change ((Function.update img₁.dinode (c.itable i).inum _) n).type ≠ 0 at hn
      change Owns img₁ ((Function.update img₁.dinode (c.itable i).inum _) n) a at ha
      by_cases hni : n = (c.itable i).inum
      · subst hni
        rw [Function.update_self] at hn
        exact absurd rfl hn
      · rw [Function.update_of_ne hni, hdn, Function.update_of_ne hni] at hn ha
        exact ⟨n, hn, (congrFun (owns_of_block hblk) a).mp ha⟩
  · rw [iput_of_not_last hlast, Option.some.injEq, Prod.mk.injEq] at h
    obtain ⟨-, rfl⟩ := h
    exact hd

/-- Every step keeps the layout. -/
theorem CacheOk.dataOk_step {c c' : Icache} (hc : CacheOk c) (hd : DataOk c.img) {a : Call}
    (h : Inodes.step c a = some c') : DataOk c'.img := by
  unfold Inodes.step at h
  split_ifs at h with ha
  cases a with
  | iget inum =>
    obtain ⟨⟨t, i⟩, -, rfl⟩ := Option.map_eq_some_iff.mp h
    exact hd
  | ialloc type =>
    rw [call] at h
    cases hff : firstFree (fun inum => (c.img.dinode inum).type ≠ 0) 1 (c.img.sb.ninodes - 1) with
    | none =>
      rw [ialloc_of_none hff, Option.map_some, Option.some.injEq] at h
      subst h
      exact hd
    | some inum =>
      rw [ialloc_of_some hff, Option.map_map] at h
      obtain ⟨⟨t, i⟩, -, rfl⟩ := Option.map_eq_some_iff.mp h
      exact hd.setDinode inum _ fun _ a ha => absurd ha (not_owns_zero_addrs rfl a)
  | idup i =>
    rw [call, Option.some.injEq] at h
    subst h
    exact hd
  | ilock i =>
    obtain ⟨t, -, rfl⟩ := Option.map_eq_some_iff.mp h
    exact hd
  | setNlink i n =>
    -- the inode written back holds the blocks of the disk inode it read
    simp only [Call.allowed, Bool.and_eq_true, decide_eq_true_eq] at ha
    rw [call, Option.some.injEq] at h
    subst h
    obtain ⟨hdin, hty⟩ := hc.loaded i ha.1 ha.2
    have haddrs : ({ (c.itable i).din with nlink := n } : Dinode).addrs =
        (c.img.dinode (c.itable i).inum).addrs := by
      rw [← hdin]
    exact hd.setDinode _ _ fun _ a hown => ⟨hdin ▸ hty, (congrFun (owns_of_addrs haddrs) a).mp hown⟩
  | iput i =>
    obtain ⟨⟨t, img⟩, hp, rfl⟩ := Option.map_eq_some_iff.mp h
    exact hc.dataOk_iput hd hp

theorem cacheOk_iinit {img : FsImage} (hfs : FsOk img) : CacheOk (iinit img) :=
  ⟨fun _ => rfl, fun _ h => absurd h (Nat.lt_irrefl 0), fun _ _ h => absurd h (Nat.lt_irrefl 0),
    fun _ h => absurd h (Nat.lt_irrefl 0), hfs⟩

theorem cacheOk_of_reachable {img : FsImage} (hfs : FsOk img) {c : Icache}
    (h : StepSystem.Reachable step (iinit img) c) : CacheOk c ∧ (DataOk img → DataOk c.img) :=
  @StepSystem.Reachable.invariant _ _ step _ (fun c => CacheOk c ∧ (DataOk img → DataOk c.img))
    ⟨cacheOk_iinit hfs, id⟩ (fun _ _ _ _ hc hs => ⟨hc.1.step hs, fun hd => hc.1.dataOk_step (hc.2 hd) hs⟩) _ h

/-- The orphan taken, read and put: its blocks are freed. -/
def reclaimRun : List Call := [.iget 1, .ilock 0, .iput 0]

theorem cacheOk_of_reachable_reclaimRun :
    ∃ c, StepSystem.run step (iinit orphanDisk) reclaimRun = some c ∧ CacheOk c ∧ DataOk c.img := by
  obtain ⟨c, hc⟩ := Option.isSome_iff_exists.mp
    (by decide +kernel : (StepSystem.run step (iinit orphanDisk) reclaimRun).isSome)
  obtain ⟨hok, hd⟩ := cacheOk_of_reachable fsOk_orphanDisk (StepSystem.reachable_of_run .init hc)
  exact ⟨c, hc, hok, hd dataOk_orphanDisk⟩

/-- Inode 1 of orphanDisk read by entry 0 and referenced once, as iget and
ilock leave the table. -/
def fileLocked : Icache :=
  ⟨Function.update (iinit orphanDisk).itable 0 ⟨rootdev, 1, 1, true, fatFile⟩,
    orphanDisk, Function.update (fun _ => 0) 0 1⟩

theorem cacheOk_fileLocked : CacheOk fileLocked := by
  have hheld : ∀ i, 0 < fileLocked.held i → i = 0 := by
    intro i hi
    by_contra h
    simp [fileLocked, h] at hi
  refine ⟨fun i => ?_, fun i hi => ?_, fun i j hi hj _ => (hheld i hi).trans (hheld j hj).symm,
    fun i hi _ => ?_, fsOk_orphanDisk⟩
  · by_cases h : i = 0 <;> simp [fileLocked, iinit, h]
  · rw [hheld i hi]
    rfl
  · rw [hheld i hi]
    exact ⟨rfl, by decide⟩

/-! ### Panics -/

/-- Every entry is referenced, and none for inode inum. -/
def Full (c : Icache) (inum : Nat) : Prop := ∀ i, 0 < c.held i ∧ (c.itable i).inum ≠ inum

/-- The calls allowed to callers that panic: iget, also within ialloc, on a
full table; ilock on an entry not yet read whose disk inode is free. -/
def Panics (c : Icache) : Call → Prop
  | .iget inum => Full c inum
  | .ialloc _ => ∃ inum,
      firstFree (fun inum => (c.img.dinode inum).type ≠ 0) 1 (c.img.sb.ninodes - 1) = some inum ∧
      Full c inum
  | .ilock i => (c.itable i).valid = false ∧ (c.img.dinode (c.itable i).inum).type = 0
  | .idup _ | .setNlink _ _ | .iput _ => False

theorem CacheOk.iget_eq_none_iff {c : Icache} (hc : CacheOk c) (inum : Nat) :
    Inodes.iget c.itable rootdev inum = none ↔ Full c inum := by
  cases hf : (List.finRange ninode).find? (fun j => isFor rootdev inum (c.itable j)) with
  | some j =>
    have hj := List.find?_some hf
    rw [iget_of_found hf]
    exact ⟨fun h => absurd h (Option.some_ne_none _), fun hfull => absurd ((hc.isFor_iff inum j).mp hj).2 (hfull j).2⟩
  | none =>
    have hno := List.find?_eq_none.mp hf
    rw [iget_of_not_found hf, Option.map_eq_none_iff, List.find?_eq_none]
    constructor
    · intro hfree j
      have hj : 0 < c.held j := Nat.pos_of_ne_zero fun h0 =>
        hfree j (List.mem_finRange j) ((hc.isFree_iff j).mpr h0)
      exact ⟨hj, fun he => hno j (List.mem_finRange j) ((hc.isFor_iff inum j).mpr ⟨hj, he⟩)⟩
    · intro hfull j _ hj
      exact Nat.pos_iff_ne_zero.mp (hfull j).1 ((hc.isFree_iff j).mp hj)

theorem CacheOk.ilock_eq_none_iff {c : Icache} (hc : CacheOk c) {i : Fin ninode} (hi : 0 < c.held i) :
    Inodes.ilock c.itable c.img i = none ↔
      (c.itable i).valid = false ∧ (c.img.dinode (c.itable i).inum).type = 0 := by
  rw [Inodes.ilock, if_neg (hc.not_ref_lt_one hi)]
  cases (c.itable i).valid <;> simp

theorem CacheOk.iput_ne_none {c : Icache} (hc : CacheOk c) (i : Fin ninode) :
    Inodes.iput c.itable c.img i ≠ none := by
  by_cases hlast : (c.itable i).ref = 1 ∧ (c.itable i).valid = true ∧ (c.itable i).din.nlink = 0
  · obtain ⟨img₁, hit, -⟩ := hc.iput_last hlast
    rw [iput_of_last hlast hit]
    exact Option.some_ne_none _
  · rw [iput_of_not_last hlast]
    exact Option.some_ne_none _

theorem step_panics_iff {c : Icache} (hc : CacheOk c) {a : Call} (ha : a.allowed c = true) :
    step c a = none ↔ Panics c a := by
  rw [step, if_pos ha]
  cases a with
  | iget inum =>
    rw [call, Option.map_eq_none_iff]
    exact hc.iget_eq_none_iff inum
  | ialloc type =>
    rw [call, Option.map_eq_none_iff]
    cases hff : firstFree (fun inum => (c.img.dinode inum).type ≠ 0) 1 (c.img.sb.ninodes - 1) with
    | none =>
      rw [ialloc_of_none hff]
      refine iff_of_false (Option.some_ne_none _) fun ⟨n, hn, _⟩ => ?_
      rw [hff] at hn
      cases hn
    | some inum =>
      -- ialloc panics when iget of the free inode it takes does
      rw [ialloc_of_some hff, Option.map_eq_none_iff, hc.iget_eq_none_iff inum]
      refine ⟨fun hfull => ⟨inum, hff, hfull⟩, fun ⟨n, hn, hfull⟩ => ?_⟩
      rw [hff, Option.some_inj] at hn
      exact hn ▸ hfull
  | idup i => simp [call, Panics]
  | ilock i =>
    rw [call, Option.map_eq_none_iff]
    exact hc.ilock_eq_none_iff (by simpa [Call.allowed] using ha)
  | setNlink i n => simp [call, Panics]
  | iput i =>
    rw [call, Option.map_eq_none_iff]
    exact iff_of_false (hc.iput_ne_none i) id

theorem step_panics_iff_fileLocked :
    CacheOk fileLocked ∧ (Call.ilock 0).allowed fileLocked = true ∧
      (step fileLocked (.ilock 0) = none ↔ Panics fileLocked (.ilock 0)) :=
  ⟨cacheOk_fileLocked, rfl, step_panics_iff cacheOk_fileLocked rfl⟩

/-! ### iput of the last reference -/

theorem iput_frees_inode {c : Icache} (hc : CacheOk c) {i : Fin ninode} (hi : c.held i = 1)
    (hv : (c.itable i).valid = true) (hnl : (c.itable i).din.nlink = 0) :
    ∃ c', step c (.iput i) = some c' ∧ c'.held i = 0 ∧ (c'.itable i).valid = false ∧
      c'.img.sb = c.img.sb ∧ c'.img.block = c.img.block ∧
      c'.img.dinode = Function.update c.img.dinode (c.itable i).inum
        { c.img.dinode (c.itable i).inum with type := 0, size := 0, addrs := fun _ => 0 } ∧
      ∀ a, c'.img.bitmap a = true ↔
        c.img.bitmap a = true ∧ ¬Owns c.img (c.img.dinode (c.itable i).inum) a := by
  have hlast : (c.itable i).ref = 1 ∧ (c.itable i).valid = true ∧ (c.itable i).din.nlink = 0 :=
    ⟨by rw [hc.ref_eq i, hi]; rfl, hv, hnl⟩
  obtain ⟨hdin, -⟩ := hc.loaded i (by omega) hv
  obtain ⟨img₁, hit, hsb, hblk, hdn, hbm⟩ := hc.iput_last hlast
  have hallowed : (Call.iput i).allowed c = true := by simp [Call.allowed, hi]
  rw [step, if_pos hallowed, call, iput_of_last hlast hit, Option.map_some]
  refine ⟨_, rfl, by simp [hi], by simp, hsb, hblk, ?_, ?_⟩
  · simp [iupdate, hdn, hdin]
  · rw [← hdin]
    exact hbm

theorem iput_frees_inode_fileLocked :
    ∃ c', step fileLocked (.iput 0) = some c' ∧ c'.held 0 = 0 ∧ (c'.itable 0).valid = false ∧
      c'.img.sb = fileLocked.img.sb ∧ c'.img.block = fileLocked.img.block ∧
      c'.img.dinode = Function.update fileLocked.img.dinode (fileLocked.itable 0).inum
        { fileLocked.img.dinode (fileLocked.itable 0).inum with type := 0, size := 0, addrs := fun _ => 0 } ∧
      ∀ a, c'.img.bitmap a = true ↔
        fileLocked.img.bitmap a = true ∧ ¬Owns fileLocked.img (fileLocked.img.dinode (fileLocked.itable 0).inum) a :=
  iput_frees_inode cacheOk_fileLocked rfl rfl rfl

/-! ### ireclaim -/

/-- ireclaim(dev)'s loop from inode number inum: an orphaned inode, allocated
with no links, is taken by iget, locked, unlocked and put, and so freed; none
is a panic in one of these. -/
def ireclaimLoop (dev : Nat) : (fuel : Nat) → Itable → FsImage → Nat → Option (Itable × FsImage)
  | 0, t, img, _ => some (t, img)
  | fuel + 1, t, img, inum =>
    if inum < img.sb.ninodes then
      if (img.dinode inum).type ≠ 0 ∧ (img.dinode inum).nlink = 0 then
        match iget t dev inum with
        | none => none
        | some (t, ip) =>
          match ilock t img ip with
          | none => none
          | some t =>
            match iput t img ip with
            | none => none
            | some (t, img) => ireclaimLoop dev fuel t img (inum + 1)
      else ireclaimLoop dev fuel t img (inum + 1)
    else some (t, img)

def ireclaim (t : Itable) (img : FsImage) (dev : Nat) : Option (Itable × FsImage) :=
  ireclaimLoop dev img.sb.ninodes t img 1

/-- An inode ireclaim frees: allocated, with no links, in the loop's range. -/
def Orphan (img : FsImage) (n : Nat) : Prop :=
  1 ≤ n ∧ n < img.sb.ninodes ∧ (img.dinode n).type ≠ 0 ∧ (img.dinode n).nlink = 0

theorem ilock_of_unread {t : Itable} {img : FsImage} {i : Fin ninode} (href : ¬(t i).ref < 1)
    (hv : (t i).valid = false) (hty : (img.dinode (t i).inum).type ≠ 0) :
    ilock t img i = some (Function.update t i { (t i) with din := img.dinode (t i).inum, valid := true }) := by
  rw [ilock, if_neg href, if_neg (by rw [hv]; decide)]
  exact if_neg hty

theorem CacheOk.iget_unheld {c : Icache} (hc : CacheOk c) (hfree : ∀ i, c.held i = 0) (inum : Nat) :
    ∃ e, Inodes.iget c.itable rootdev inum = some (Function.update c.itable e
      { (c.itable e) with dev := rootdev, inum := inum, ref := 1, valid := false }, e) := by
  have hno : (List.finRange ninode).find? (fun j => isFor rootdev inum (c.itable j)) = none :=
    List.find?_eq_none.mpr fun j _ hj => by
      have := ((hc.isFor_iff inum j).mp hj).1
      rw [hfree j] at this
      exact Nat.lt_irrefl 0 this
  have hsome : ((List.finRange ninode).find? fun j => isFree (c.itable j)).isSome :=
    List.find?_isSome.mpr ⟨⟨0, by decide⟩, List.mem_finRange _, (hc.isFree_iff _).mpr (hfree _)⟩
  obtain ⟨e, he⟩ := Option.isSome_iff_exists.mp hsome
  exact ⟨e, by rw [iget_of_not_found hno, he]; rfl⟩

theorem ireclaimLoop_orphan {dev fuel inum : Nat} {t t₁ t₂ t₃ : Itable} {img img' : FsImage}
    {e : Fin ninode} (hn : inum < img.sb.ninodes)
    (ho : (img.dinode inum).type ≠ 0 ∧ (img.dinode inum).nlink = 0)
    (hget : iget t dev inum = some (t₁, e)) (hlock : ilock t₁ img e = some t₂)
    (hput : iput t₂ img e = some (t₃, img')) :
    ireclaimLoop dev (fuel + 1) t img inum = ireclaimLoop dev fuel t₃ img' (inum + 1) := by
  rw [ireclaimLoop, if_pos hn, if_pos ho]
  simp only [hget, hlock, hput]

theorem ireclaimLoop_kept {dev fuel inum : Nat} {t : Itable} {img : FsImage}
    (hn : inum < img.sb.ninodes) (ho : ¬((img.dinode inum).type ≠ 0 ∧ (img.dinode inum).nlink = 0)) :
    ireclaimLoop dev (fuel + 1) t img inum = ireclaimLoop dev fuel t img (inum + 1) := by
  rw [ireclaimLoop, if_pos hn, if_neg ho]

/-- ireclaim's loop before inode k: the orphans below k are freed with their
blocks, the rest of the disk is as it was, and no entry is referenced. -/
structure Reclaimed (img₀ : FsImage) (k : Nat) (t : Itable) (img : FsImage) : Prop where
  cacheOk : CacheOk ⟨t, img, fun _ => 0⟩
  sb : img.sb = img₀.sb
  block : img.block = img₀.block
  freed : ∀ n, Orphan img₀ n → n < k →
    img.dinode n = { img₀.dinode n with type := 0, size := 0, addrs := fun _ => 0 }
  kept : ∀ n, ¬(Orphan img₀ n ∧ n < k) → img.dinode n = img₀.dinode n
  bitmap : ∀ a, img.bitmap a = true ↔
    img₀.bitmap a = true ∧ ∀ n, Orphan img₀ n → n < k → ¬Owns img₀ (img₀.dinode n) a

theorem Reclaimed.start {t : Itable} {img₀ : FsImage} (hc : CacheOk ⟨t, img₀, fun _ => 0⟩) :
    Reclaimed img₀ 1 t img₀ where
  cacheOk := hc
  sb := rfl
  block := rfl
  freed _ hn hlt := absurd hn.1 (by omega)
  kept _ _ := rfl
  bitmap a := ⟨fun h => ⟨h, fun _ hn hlt => absurd hn.1 (by omega)⟩, And.left⟩

theorem Reclaimed.skip {img₀ : FsImage} {k : Nat} {t : Itable} {img : FsImage}
    (h : Reclaimed img₀ k t img) (hk : ¬Orphan img₀ k) : Reclaimed img₀ (k + 1) t img := by
  have hlt : ∀ n, Orphan img₀ n → (n < k + 1 ↔ n < k) := fun n hn =>
    ⟨fun h' => Nat.lt_of_le_of_ne (Nat.le_of_lt_succ h') fun he => hk (he ▸ hn), Nat.lt_succ_of_lt⟩
  refine ⟨h.cacheOk, h.sb, h.block, fun n hn h' => h.freed n hn ((hlt n hn).mp h'),
    fun n hn => h.kept n fun ⟨ho, h'⟩ => hn ⟨ho, (hlt n ho).mpr h'⟩, fun a => ?_⟩
  rw [h.bitmap a]
  exact and_congr_right fun _ => forall₂_congr fun n hn => by rw [hlt n hn]

/-- An orphan: iget recycles an entry for it, ilock reads it, and iput of the
one reference frees it with its blocks. -/
theorem Reclaimed.orphan {img₀ : FsImage} {k : Nat} {t : Itable} {img : FsImage}
    (h : Reclaimed img₀ k t img) (hk : Orphan img₀ k) :
    ∃ t₁ e t₂ t₃ img', iget t rootdev k = some (t₁, e) ∧ ilock t₁ img e = some t₂ ∧
      iput t₂ img e = some (t₃, img') ∧ Reclaimed img₀ (k + 1) t₃ img' := by
  have hdk : img.dinode k = img₀.dinode k := h.kept k fun h' => Nat.lt_irrefl k h'.2
  obtain ⟨e, hget⟩ := h.cacheOk.iget_unheld (fun _ => rfl) k
  have hi : 0 < hold (fun _ => 0) e e := by simp [hold]
  obtain ⟨t₁, ht₁⟩ : ∃ t₁, t₁ = Function.update t e
      { (t e) with dev := rootdev, inum := k, ref := 1, valid := false } := ⟨_, rfl⟩
  rw [← ht₁] at hget
  have he₁ : t₁ e = { (t e) with dev := rootdev, inum := k, ref := 1, valid := false } := by
    rw [ht₁, Function.update_self]
  have hlock : ilock t₁ img e =
      some (Function.update t₁ e { (t₁ e) with din := img.dinode (t₁ e).inum, valid := true }) :=
    ilock_of_unread (by rw [he₁]; simp) (by rw [he₁]) (by rw [he₁]; exact hdk ▸ hk.2.2.1)
  obtain ⟨t₂, ht₂⟩ : ∃ t₂, t₂ = Function.update t₁ e
      { (t₁ e) with din := img.dinode (t₁ e).inum, valid := true } := ⟨_, rfl⟩
  rw [← ht₂] at hlock
  have he₂ : t₂ e = { (t₁ e) with din := img.dinode (t₁ e).inum, valid := true } := by
    rw [ht₂, Function.update_self]
  have hc₂ : CacheOk ⟨t₂, img, hold (fun _ => 0) e⟩ := (h.cacheOk.iget hget).ilock hi hlock
  have hlast : (t₂ e).ref = 1 ∧ (t₂ e).valid = true ∧ (t₂ e).din.nlink = 0 := by
    rw [he₂, he₁]
    exact ⟨rfl, rfl, hdk ▸ hk.2.2.2⟩
  have hinum : (t₂ e).inum = k := by rw [he₂, he₁]
  have hdin : (t₂ e).din = img₀.dinode k := by rw [he₂, he₁]; exact hdk
  obtain ⟨img₁, hit, hsb, hblk, hdn, hbm⟩ := hc₂.iput_last hlast
  have hput := iput_of_last hlast hit
  refine ⟨t₁, e, t₂, _, _, hget, hlock, hput, ⟨?_, ?_, ?_, fun n hn hlt => ?_, fun n hn => ?_, fun a => ?_⟩⟩
  · have hheld : Function.update (hold (fun _ => 0) e) e (hold (fun _ => 0) e e - 1) = fun _ => 0 := by
      simp [hold]
    rw [← hheld]
    exact hc₂.iput hi hput
  · simp only [iupdate]
    rw [hsb, h.sb]
  · simp only [iupdate]
    rw [hblk, h.block]
  · by_cases hnk : n = k
    · subst hnk
      simp [iupdate, hdn, hinum, hdin]
    · simp only [iupdate]
      rw [hdn, hinum, Function.update_of_ne hnk, Function.update_of_ne hnk]
      exact h.freed n hn (by omega)
  · have hnk : n ≠ k := by
      rintro rfl
      exact hn ⟨hk, Nat.lt_succ_self n⟩
    simp only [iupdate]
    rw [hdn, hinum, Function.update_of_ne hnk, Function.update_of_ne hnk]
    exact h.kept n fun ⟨ho, hlt⟩ => hn ⟨ho, Nat.lt_succ_of_lt hlt⟩
  · simp only [iupdate]
    rw [hbm, h.bitmap a, hdin, owns_of_block h.block]
    constructor
    · rintro ⟨⟨hb, hfree⟩, hown⟩
      refine ⟨hb, fun n hn hlt => ?_⟩
      rcases Nat.lt_succ_iff_lt_or_eq.mp hlt with hlt | rfl
      · exact hfree n hn hlt
      · exact hown
    · rintro ⟨hb, hfree⟩
      exact ⟨⟨hb, fun n hn hlt => hfree n hn (Nat.lt_succ_of_lt hlt)⟩, hfree k hk (Nat.lt_succ_self k)⟩

theorem Reclaimed.loop {img₀ : FsImage} (fuel : Nat) : ∀ {t : Itable} {img : FsImage} {k : Nat},
    Reclaimed img₀ k t img → 1 ≤ k → img₀.sb.ninodes ≤ k + fuel →
    ∃ t' img' k', ireclaimLoop rootdev fuel t img k = some (t', img') ∧ img₀.sb.ninodes ≤ k' ∧
      Reclaimed img₀ k' t' img' := by
  induction fuel with
  | zero =>
    intro t img k h _ hle
    exact ⟨t, img, k, rfl, by omega, h⟩
  | succ fuel ih =>
    intro t img k h hk1 hle
    by_cases hn : k < img.sb.ninodes
    · have hdk : img.dinode k = img₀.dinode k := h.kept k fun h' => Nat.lt_irrefl k h'.2
      by_cases ho : Orphan img₀ k
      · obtain ⟨t₁, e, t₂, t₃, img', hget, hlock, hput, h'⟩ := h.orphan ho
        rw [ireclaimLoop_orphan hn (by rw [hdk]; exact ho.2.2) hget hlock hput]
        exact ih h' (by omega) (by omega)
      · have hnot : ¬((img.dinode k).type ≠ 0 ∧ (img.dinode k).nlink = 0) := by
          rw [hdk]
          exact fun h' => ho ⟨hk1, h.sb ▸ hn, h'⟩
        rw [ireclaimLoop_kept hn hnot]
        exact ih (h.skip ho) (by omega) (by omega)
    · rw [ireclaimLoop, if_neg hn]
      exact ⟨t, img, k, rfl, by rw [← h.sb]; omega, h⟩

theorem ireclaim_frees_orphans {c : Icache} (hc : CacheOk c) (hfree : ∀ i, c.held i = 0) :
    ∃ t img, ireclaim c.itable c.img rootdev = some (t, img) ∧ CacheOk ⟨t, img, fun _ => 0⟩ ∧
      img.sb = c.img.sb ∧ img.block = c.img.block ∧
      (∀ n, Orphan c.img n →
        img.dinode n = { c.img.dinode n with type := 0, size := 0, addrs := fun _ => 0 }) ∧
      (∀ n, ¬Orphan c.img n → img.dinode n = c.img.dinode n) ∧
      ∀ a, img.bitmap a = true ↔
        c.img.bitmap a = true ∧ ∀ n, Orphan c.img n → ¬Owns c.img (c.img.dinode n) a := by
  have h₀ : CacheOk ⟨c.itable, c.img, fun _ => 0⟩ := by
    rw [← funext hfree]
    exact hc
  obtain ⟨t, img, k, hrun, hk, h⟩ :=
    Reclaimed.loop c.img.sb.ninodes (Reclaimed.start h₀) (Nat.le_refl 1) (by omega)
  have hlt : ∀ n, Orphan c.img n → n < k := fun n hn => Nat.lt_of_lt_of_le hn.2.1 hk
  refine ⟨t, img, hrun, h.cacheOk, h.sb, h.block, fun n hn => h.freed n hn (hlt n hn),
    fun n hn => h.kept n fun h' => hn h'.1, fun a => ?_⟩
  rw [h.bitmap a]
  exact and_congr_right fun _ => forall₂_congr fun n hn => by simp [hlt n hn]

theorem ireclaim_frees_orphans_orphanDisk :
    ∃ t img, ireclaim (iinit orphanDisk).itable orphanDisk rootdev = some (t, img) ∧
      CacheOk ⟨t, img, fun _ => 0⟩ ∧ img.sb = orphanDisk.sb ∧ img.block = orphanDisk.block ∧
      (∀ n, Orphan orphanDisk n →
        img.dinode n = { orphanDisk.dinode n with type := 0, size := 0, addrs := fun _ => 0 }) ∧
      (∀ n, ¬Orphan orphanDisk n → img.dinode n = orphanDisk.dinode n) ∧
      ∀ a, img.bitmap a = true ↔
        orphanDisk.bitmap a = true ∧ ∀ n, Orphan orphanDisk n → ¬Owns orphanDisk (orphanDisk.dinode n) a :=
  ireclaim_frees_orphans (cacheOk_iinit fsOk_orphanDisk) fun _ => rfl

end Xv6Mlfq.Inodes
