import Xv6Mlfq.Fs
import Xv6Mlfq.Log

/-!
mkfs, which builds the initial file system image: ialloc hands out inodes
in order, iappend appends bytes to an inode through its direct and indirect
blocks, taking blocks in order from freeblock, and main adds the root
directory, one entry and one inode for each file, and then rounds the root
directory's size up.
-/

namespace Xv6Mlfq.Mkfs

open Fs

/-- FSSIZE in param.h. -/
def fssize : Nat := 2000

/-- NINODES in mkfs.c. -/
def ninodes : Nat := 200

/-- IPB in fs.h: BSIZE / sizeof(struct dinode). -/
def ipb : Nat := bsize / 64

/-- BPB in fs.h: bitmap bits per block. -/
def bpb : Nat := bsize * 8

def nbitmap : Nat := fssize / bpb + 1

def ninodeblocks : Nat := ninodes / ipb + 1

/-- The log's header followed by LOGBLOCKS data blocks. -/
def nlog : Nat := Log.logBlocks + 1

/-- Boot block, superblock, log, inode blocks and bitmap. -/
def nmeta : Nat := 2 + nlog + ninodeblocks + nbitmap

def nblocks : Nat := fssize - nmeta

/-- The superblock mkfs writes to block 1. -/
def sb : Superblock where
  size := fssize
  nblocks := nblocks
  ninodes := ninodes
  nlog := nlog
  logstart := 2
  inodestart := 2 + nlog
  bmapstart := 2 + nlog + ninodeblocks

/-- An all-zero struct dinode: a free inode. -/
def zeroDinode : Dinode := ⟨0, 0, 0, 0, 0, fun _ => 0⟩

/-- mkfs's globals: the image behind fsfd, and the next inode and block it hands out. -/
structure State where
  img : FsImage
  freeinode : Nat
  freeblock : Nat

/-- winode(inum, din). -/
def State.winode (m : State) (inum : Nat) (din : Dinode) : State :=
  { m with img := { m.img with dinode := Function.update m.img.dinode inum din } }

/-- wsect(x, buf). -/
def State.wsect (m : State) (x : Nat) (buf : Block) : State :=
  { m with img := { m.img with block := Function.update m.img.block x buf } }

/-- freeblock++, whose value is the block taken. -/
def State.takeBlock (m : State) : State :=
  { m with freeblock := m.freeblock + 1 }

/-- ialloc(type): the next inode, with nlink 1 and size 0. -/
def ialloc (m : State) (type : Nat) : Nat × State :=
  (m.freeinode, ({ m with freeinode := m.freeinode + 1 } : State).winode m.freeinode
    { zeroDinode with type := type, nlink := 1 })

/-- The block x that iappend writes file block fbn to: din.addrs[fbn], or
the entry of the indirect block, each taken from freeblock when zero. -/
def appendBlock (m : State) (din : Dinode) (fbn : Nat) : State × Dinode × Nat :=
  if h : fbn < ndirect then
    let i : Fin (ndirect + 1) := ⟨fbn, Nat.lt_succ_of_lt h⟩
    if din.addrs i = 0 then (m.takeBlock, din.setAddr i m.freeblock, m.freeblock)
    else (m, din, din.addrs i)
  else
    let r : State × Dinode :=
      if din.addrs (Fin.last ndirect) = 0 then
        (m.takeBlock, din.setAddr (Fin.last ndirect) m.freeblock)
      else (m, din)
    let ind := r.2.addrs (Fin.last ndirect)
    let indirect := r.1.img.block ind
    if indirect.uint (fbn - ndirect) = 0 then
      (r.1.takeBlock.wsect ind (indirect.setUint (fbn - ndirect) r.1.freeblock), r.2, r.1.freeblock)
    else (r.1, r.2, indirect.uint (fbn - ndirect))

/-- iappend's while loop over the bytes left: none where assert(fbn < MAXFILE) fails. -/
def iappendLoop : Nat → State → Dinode → Nat → List UInt8 → Option (State × Dinode × Nat)
  | 0, m, din, off, _ => some (m, din, off)
  | fuel + 1, m, din, off, p =>
      if p = [] then some (m, din, off)
      else
        let fbn := off / bsize
        if fbn < maxfile then
          let r := appendBlock m din fbn
          let n1 := min p.length ((fbn + 1) * bsize - off)
          iappendLoop fuel (r.1.wsect r.2.2 ((r.1.img.block r.2.2).copyIn (off - fbn * bsize) (p.take n1)))
            r.2.1 (off + n1) (p.drop n1)
        else none

/-- iappend(inum, p, n). -/
def iappend (m : State) (inum : Nat) (p : List UInt8) : Option State :=
  let din := m.img.dinode inum
  (iappendLoop p.length m din din.size p).map fun r => r.1.winode inum { r.2.1 with size := r.2.2 }

/-- A struct dirent: the inode number as a little-endian ushort, then the
name strncpy'd into DIRSIZ bytes. -/
def direntBytes (inum : Nat) (name : List UInt8) : List UInt8 :=
  [UInt8.ofNat inum, UInt8.ofNat (inum / 256)] ++ name.take 14 ++ List.replicate (14 - name.length) 0

/-- The name mkfs gives an argument: without a leading "user/" and then
without a leading '_'; none where it contains '/' or is longer than DIRSIZ. -/
def shortname (arg : List UInt8) : Option (List UInt8) :=
  let s := if arg.take 5 = [117, 115, 101, 114, 47] then arg.drop 5 else arg
  if 47 ∈ s then none
  else
    let s := if s.head? = some 95 then s.drop 1 else s
    if s.length ≤ 14 then some s else none

/-- The 1024-byte reads of a file's contents. -/
def chunks : Nat → List UInt8 → List (List UInt8)
  | 0, _ => []
  | fuel + 1, bs => if bs = [] then [] else bs.take bsize :: chunks fuel (bs.drop bsize)

/-- One argument: a new inode, its entry in the root directory, and its contents. -/
def addFile (m : State) (arg : List UInt8 × List UInt8) : Option State := do
  let name ← shortname arg.1
  let (inum, m₁) := ialloc m tFile
  let m₂ ← iappend m₁ rootino (direntBytes inum name)
  (chunks arg.2.length arg.2).foldlM (fun m c => iappend m inum c) m₂

/-- The zeroed image with its superblock. -/
def blank : FsImage where
  sb := sb
  dinode := fun _ => zeroDinode
  bitmap := fun _ => false
  block := fun _ => zeroBlock

/-- mkfs fs.img files...: each file is its name and contents; none where an
assert fails. -/
def mkfs (args : List (List UInt8 × List UInt8)) : Option FsImage := do
  let (root, m₁) := ialloc ⟨blank, 1, nmeta⟩ tDir
  if root ≠ rootino then none
  let m₂ ← iappend m₁ root (direntBytes root [46])
  let m₃ ← iappend m₂ root (direntBytes root [46, 46])
  let m₄ ← args.foldlM addFile m₃
  -- fix size of root inode dir
  let din := m₄.img.dinode root
  let m₅ := m₄.winode root { din with size := (din.size / bsize + 1) * bsize }
  -- balloc(freeblock)
  if m₅.freeblock < bpb then some { m₅.img with bitmap := fun b => decide (b < m₅.freeblock) }
  else none

section Appends

@[simp] theorem winode_dinode (m : State) (inum : Nat) (din : Dinode) :
    (m.winode inum din).img.dinode = Function.update m.img.dinode inum din := rfl

@[simp] theorem winode_freeblock (m : State) (inum : Nat) (din : Dinode) :
    (m.winode inum din).freeblock = m.freeblock := rfl

@[simp] theorem winode_freeinode (m : State) (inum : Nat) (din : Dinode) :
    (m.winode inum din).freeinode = m.freeinode := rfl

@[simp] theorem wsect_dinode (m : State) (x : Nat) (buf : Block) :
    (m.wsect x buf).img.dinode = m.img.dinode := rfl

@[simp] theorem wsect_freeblock (m : State) (x : Nat) (buf : Block) :
    (m.wsect x buf).freeblock = m.freeblock := rfl

@[simp] theorem wsect_freeinode (m : State) (x : Nat) (buf : Block) :
    (m.wsect x buf).freeinode = m.freeinode := rfl

@[simp] theorem takeBlock_dinode (m : State) : m.takeBlock.img.dinode = m.img.dinode := rfl

@[simp] theorem takeBlock_freeblock (m : State) : m.takeBlock.freeblock = m.freeblock + 1 := rfl

@[simp] theorem takeBlock_freeinode (m : State) : m.takeBlock.freeinode = m.freeinode := rfl

theorem appendBlock_mono (m : State) (din : Dinode) (fbn : Nat) :
    (appendBlock m din fbn).1.img.dinode = m.img.dinode ∧
      (appendBlock m din fbn).1.freeinode = m.freeinode ∧
      m.freeblock ≤ (appendBlock m din fbn).1.freeblock := by
  unfold appendBlock
  dsimp only
  split_ifs <;> simp [Nat.le_succ_of_le]

theorem appendBlock_direct {m : State} {din : Dinode} {fbn : Nat} (h : fbn < ndirect) :
    appendBlock m din fbn =
      if din.addrs ⟨fbn, Nat.lt_succ_of_lt h⟩ = 0 then
        (m.takeBlock, din.setAddr ⟨fbn, Nat.lt_succ_of_lt h⟩ m.freeblock, m.freeblock)
      else (m, din, din.addrs ⟨fbn, Nat.lt_succ_of_lt h⟩) := by
  rw [appendBlock, dif_pos h]

theorem iappendLoop_mono {fuel : Nat} {m m' : State} {din din' : Dinode} {off off' : Nat}
    {p : List UInt8} (h : iappendLoop fuel m din off p = some (m', din', off')) :
    m'.img.dinode = m.img.dinode ∧ m'.freeinode = m.freeinode ∧ m.freeblock ≤ m'.freeblock := by
  induction fuel generalizing m din off p with
  | zero =>
      cases h
      exact ⟨rfl, rfl, Nat.le_refl _⟩
  | succ fuel ih =>
      rw [iappendLoop] at h
      dsimp only at h
      split at h
      · cases h
        exact ⟨rfl, rfl, Nat.le_refl _⟩
      · split at h
        · obtain ⟨hd, hi, hb⟩ := ih h
          obtain ⟨hd₁, hi₁, hb₁⟩ := appendBlock_mono m din (off / bsize)
          exact ⟨hd.trans hd₁, hi.trans hi₁, Nat.le_trans hb₁ hb⟩
        · cases h

theorem iappend_mono {m m' : State} {inum : Nat} {p : List UInt8} (h : iappend m inum p = some m') :
    (∀ j, j ≠ inum → m'.img.dinode j = m.img.dinode j) ∧ m'.freeinode = m.freeinode ∧
      m.freeblock ≤ m'.freeblock := by
  unfold iappend at h
  obtain ⟨⟨m₁, din₁, off₁⟩, hloop, rfl⟩ := Option.map_eq_some_iff.mp h
  obtain ⟨hd, hi, hb⟩ := iappendLoop_mono hloop
  refine ⟨fun j hj => ?_, hi, hb⟩
  rw [winode_dinode, Function.update_of_ne hj, hd]

theorem iappendLoop_fit (m : State) (din : Dinode) {off : Nat} {p : List UInt8}
    (hp : p ≠ []) (hdir : off / bsize < ndirect) (hfit : off % bsize + p.length ≤ bsize) :
    ∃ m', iappendLoop p.length m din off p =
        some (m', (appendBlock m din (off / bsize)).2.1, off + p.length) ∧
      m'.freeblock = (appendBlock m din (off / bsize)).1.freeblock := by
  have hmax : off / bsize < maxfile := Nat.lt_of_lt_of_le hdir (by unfold maxfile; omega)
  have hn1 : min p.length ((off / bsize + 1) * bsize - off) = p.length := by
    unfold bsize at hfit ⊢
    omega
  obtain ⟨n, hn⟩ := Nat.exists_eq_succ_of_ne_zero (Nat.pos_iff_ne_zero.mp (List.length_pos_iff.mpr hp))
  rw [hn, iappendLoop, if_neg hp, if_pos hmax]
  simp only [hn1, List.take_length, List.drop_length]
  rw [← hn]
  cases n <;> exact ⟨_, rfl, rfl⟩

theorem appendBlock_din {m : State} {din : Dinode} {fbn : Nat} (h : fbn < ndirect) :
    (appendBlock m din fbn).2.1 =
      if din.addrs ⟨fbn, Nat.lt_succ_of_lt h⟩ = 0 then din.setAddr ⟨fbn, Nat.lt_succ_of_lt h⟩ m.freeblock
      else din := by
  rw [appendBlock_direct h]
  split <;> rfl

theorem foldlM_iappend {inum : Nat} {cs : List (List UInt8)} {m m' : State}
    (h : cs.foldlM (fun m c => iappend m inum c) m = some m') :
    (∀ j, j ≠ inum → m'.img.dinode j = m.img.dinode j) ∧ m'.freeinode = m.freeinode ∧
      m.freeblock ≤ m'.freeblock := by
  induction cs generalizing m with
  | nil =>
      cases h
      exact ⟨fun _ _ => rfl, rfl, Nat.le_refl _⟩
  | cons c cs ih =>
      simp only [List.foldlM_cons, Option.bind_eq_bind, Option.bind_eq_some_iff] at h
      obtain ⟨m₁, h₁, h₂⟩ := h
      obtain ⟨hd₁, hi₁, hb₁⟩ := iappend_mono h₁
      obtain ⟨hd₂, hi₂, hb₂⟩ := ih h₂
      exact ⟨fun j hj => (hd₂ j hj).trans (hd₁ j hj), hi₂.trans hi₁, Nat.le_trans hb₁ hb₂⟩

theorem ialloc_snd (m : State) (type : Nat) :
    (ialloc m type).2.img.dinode = Function.update m.img.dinode m.freeinode
        { zeroDinode with type := type, nlink := 1 } ∧
      (ialloc m type).2.freeinode = m.freeinode + 1 ∧ (ialloc m type).2.freeblock = m.freeblock :=
  ⟨rfl, rfl, rfl⟩

end Appends

section Root

/-- A directory as mkfs builds it, holding k entries: its size is 16 k, and
exactly the direct blocks below its size are mapped. -/
structure DirShape (din : Dinode) (k : Nat) : Prop where
  size : din.size = 16 * k
  fits : 16 * k ≤ ndirect * bsize
  mapped : ∀ j (hj : j < ndirect), din.addrs ⟨j, Nat.lt_succ_of_lt hj⟩ ≠ 0 ↔ j * bsize < din.size

theorem length_direntBytes (inum : Nat) (name : List UInt8) : (direntBytes inum name).length = 16 := by
  simp only [direntBytes, List.length_append, List.length_cons, List.length_nil, List.length_take,
    List.length_replicate]
  omega

theorem dirShape_zero : DirShape { zeroDinode with type := tDir, nlink := 1 } 0 :=
  ⟨rfl, Nat.zero_le _, fun _ _ => by simp [zeroDinode]⟩

theorem lt_add_sixteen_iff {s j : Nat} (hs : s % 16 = 0) :
    j * bsize < s + 16 ↔ j * bsize < s ∨ j = s / bsize := by
  unfold bsize
  omega

/-- A 16-byte entry fits in the directory's last block or starts a new one. -/
theorem DirShape.append {din : Dinode} {k : Nat} (hd : DirShape din k) (hk : 16 * (k + 1) ≤ ndirect * bsize)
    {a : Nat} (ha : a ≠ 0) (hdir : din.size / bsize < ndirect) :
    DirShape { (if din.addrs ⟨din.size / bsize, Nat.lt_succ_of_lt hdir⟩ = 0 then
        din.setAddr ⟨din.size / bsize, Nat.lt_succ_of_lt hdir⟩ a else din) with size := din.size + 16 } (k + 1) := by
  obtain ⟨hsize, -, hmapped⟩ := hd
  have h16 : din.size % 16 = 0 := by omega
  refine ⟨by simp only; omega, hk, fun j hj => ?_⟩
  simp only
  rw [lt_add_sixteen_iff h16]
  split
  · rename_i hzero
    rcases eq_or_ne j (din.size / bsize) with rfl | hne
    · simp only [Dinode.setAddr, Function.update_self, ne_eq, ha, not_false_eq_true, or_true]
    · have hfin : (⟨j, Nat.lt_succ_of_lt hj⟩ : Fin (ndirect + 1)) ≠ ⟨din.size / bsize, Nat.lt_succ_of_lt hdir⟩ :=
        fun h => hne (Fin.mk.inj h)
      simp only [Dinode.setAddr]
      rw [Function.update_of_ne hfin, hmapped j hj, or_iff_left hne]
  · rename_i hmap
    have hfull := (hmapped _ hdir).mp hmap
    rw [hmapped j hj]
    constructor
    · exact .inl
    · rintro (hlt | rfl)
      · exact hlt
      · exact hfull

theorem iappend_dirent {m : State} {inum k : Nat} (hd : DirShape (m.img.dinode inum) k)
    (hk : 16 * (k + 1) ≤ ndirect * bsize) (hfree : 0 < m.freeblock) (x : Nat) (name : List UInt8) :
    ∃ m', iappend m inum (direntBytes x name) = some m' ∧ DirShape (m'.img.dinode inum) (k + 1) ∧
      0 < m'.freeblock := by
  have hlen := length_direntBytes x name
  have hsize := hd.size
  have hdir : (m.img.dinode inum).size / bsize < ndirect := by
    have := hd.fits
    unfold bsize ndirect at *
    omega
  have hfit : (m.img.dinode inum).size % bsize + (direntBytes x name).length ≤ bsize := by
    rw [hlen]
    unfold bsize
    omega
  obtain ⟨m₁, hloop, hfb⟩ :=
    iappendLoop_fit m (m.img.dinode inum) (List.ne_nil_of_length_pos (by omega)) hdir hfit
  refine ⟨_, by unfold iappend; dsimp only; rw [hloop]; rfl, ?_, ?_⟩
  · rw [winode_dinode, Function.update_self, appendBlock_din hdir, hlen]
    exact hd.append hk (Nat.pos_iff_ne_zero.mp hfree) hdir
  · rw [winode_freeblock, hfb]
    exact Nat.lt_of_lt_of_le hfree (appendBlock_mono _ _ _).2.2

theorem addFile_root {m m' : State} {arg : List UInt8 × List UInt8} {k : Nat}
    (h : addFile m arg = some m') (hroot : rootino < m.freeinode)
    (hd : DirShape (m.img.dinode rootino) k) (hk : 16 * (k + 1) ≤ ndirect * bsize)
    (hfree : 0 < m.freeblock) :
    DirShape (m'.img.dinode rootino) (k + 1) ∧ rootino < m'.freeinode ∧ 0 < m'.freeblock := by
  unfold addFile at h
  simp only [Option.bind_eq_bind, Option.bind_eq_some_iff] at h
  obtain ⟨name, -, m₂, h₂, h₃⟩ := h
  -- the new inode is not the root, so ialloc leaves the root directory as it was
  have hne : m.freeinode ≠ rootino := Nat.ne_of_gt hroot
  obtain ⟨hdin₁, hino₁, hblk₁⟩ := ialloc_snd m tFile
  have hd₁ : DirShape ((ialloc m tFile).2.img.dinode rootino) k := by
    rw [hdin₁, Function.update_of_ne hne.symm]
    exact hd
  obtain ⟨m₂', h₂', hd₂, hfree₂⟩ := iappend_dirent hd₁ hk (hblk₁ ▸ hfree) (ialloc m tFile).1 name
  obtain rfl : m₂' = m₂ := Option.some.inj (h₂'.symm.trans h₂)
  obtain ⟨hdin₃, hino₃, hblk₃⟩ := foldlM_iappend h₃
  refine ⟨hdin₃ rootino hne.symm ▸ hd₂, ?_, Nat.lt_of_lt_of_le hfree₂ hblk₃⟩
  rw [hino₃, (iappend_mono h₂).2.1, hino₁]
  exact Nat.lt_succ_of_lt hroot

theorem foldlM_addFile {args : List (List UInt8 × List UInt8)} {m m' : State} {k : Nat}
    (h : args.foldlM addFile m = some m') (hroot : rootino < m.freeinode)
    (hd : DirShape (m.img.dinode rootino) k) (hk : 16 * (k + args.length) ≤ ndirect * bsize)
    (hfree : 0 < m.freeblock) :
    DirShape (m'.img.dinode rootino) (k + args.length) ∧ rootino < m'.freeinode ∧
      0 < m'.freeblock := by
  induction args generalizing m k with
  | nil =>
      cases h
      exact ⟨hd, hroot, hfree⟩
  | cons a args ih =>
      simp only [List.foldlM_cons, Option.bind_eq_bind, Option.bind_eq_some_iff] at h
      obtain ⟨m₁, h₁, h₂⟩ := h
      rw [List.length_cons] at hk ⊢
      obtain ⟨hd₁, hroot₁, hfree₁⟩ := addFile_root h₁ hroot hd (by omega) hfree
      rw [← Nat.add_comm 1, ← Nat.add_assoc]
      exact ih h₂ hroot₁ hd₁ (by omega) hfree₁

theorem dirShape_root_ialloc : DirShape ((ialloc ⟨blank, 1, nmeta⟩ tDir).2.img.dinode rootino) 0 :=
  dirShape_zero

/-- The root directory mkfs writes: "." and "..", an entry per argument, and
its size then rounded up past the next block boundary; block 0 is marked in use. -/
theorem mkfs_root {args : List (List UInt8 × List UInt8)} {img : FsImage} (h : mkfs args = some img)
    (hk : 16 * (args.length + 2) ≤ ndirect * bsize) :
    (img.dinode rootino).size = (16 * (args.length + 2) / bsize + 1) * bsize ∧
      (∀ j (hj : j < ndirect), (img.dinode rootino).addrs ⟨j, Nat.lt_succ_of_lt hj⟩ ≠ 0 ↔
        j * bsize < 16 * (args.length + 2)) ∧
      img.bitmap 0 = true := by
  unfold mkfs at h
  rw [show ialloc ⟨blank, 1, nmeta⟩ tDir = (rootino, (ialloc ⟨blank, 1, nmeta⟩ tDir).2) from rfl] at h
  simp only [ne_eq, not_true_eq_false, ↓reduceIte, Option.bind_eq_bind, Option.bind_eq_some_iff] at h
  obtain ⟨m₂, h₂, m₃, h₃, m₄, h₄, h₅⟩ := h
  rw [Option.ite_none_right_eq_some] at h₅
  obtain ⟨-, h₅⟩ := h₅
  obtain ⟨m₂', h₂', hd₂, hfree₂⟩ :=
    iappend_dirent dirShape_root_ialloc (by unfold ndirect bsize; omega) (by decide) rootino [46]
  obtain rfl : m₂ = m₂' := Option.some.inj (h₂.symm.trans h₂')
  obtain ⟨m₃', h₃', hd₃, hfree₃⟩ :=
    iappend_dirent hd₂ (by unfold ndirect bsize; omega) hfree₂ rootino [46, 46]
  obtain rfl : m₃ = m₃' := Option.some.inj (h₃.symm.trans h₃')
  have hroot₃ : rootino < m₃.freeinode := by
    rw [(iappend_mono h₃).2.1, (iappend_mono h₂).2.1, (ialloc_snd _ _).2.1]
    decide
  obtain ⟨hd₄, -, hfree₄⟩ := foldlM_addFile h₄ hroot₃ hd₃ (by omega) hfree₃
  have hsize : (m₄.img.dinode rootino).size = 16 * (args.length + 2) := by
    rw [hd₄.size, Nat.add_comm 2]
  cases h₅
  simp only [winode_dinode, Function.update_self, winode_freeblock]
  refine ⟨by rw [hsize], fun j hj => ?_, decide_eq_true hfree₄⟩
  rw [← hsize]
  exact hd₄.mapped j hj

end Root

section Hole

/-- When the root's entries end on a block boundary, mkfs's rounding makes
the next block part of the directory without mapping it, so the first read
there (dirlookup's scan, a read of the directory) allocates it from the free
map; readi does not call iupdate, so the inode on disk still maps nothing there. -/
theorem mkfs_root_hole {args : List (List UInt8 × List UInt8)} {img : FsImage}
    (h : mkfs args = some img) (hfull : (args.length + 2) % 64 = 0)
    (hk : 16 * (args.length + 2) < ndirect * bsize) (hfree : ∃ b, b < img.sb.size ∧ img.bitmap b = false)
    (copyout : Nat → Nat → Bool) :
    (img.dinode rootino).size = 16 * (args.length + 2) + bsize ∧
      (∀ i : Fin (ndirect + 1), i.val = 16 * (args.length + 2) / bsize → (img.dinode rootino).addrs i = 0) ∧
      ∃ b r, readi copyout img (img.dinode rootino) (16 * (args.length + 2)) 16 = some r ∧
        img.bitmap b = false ∧ r.img.bitmap b = true ∧ r.img.dinode = img.dinode := by
  obtain ⟨hsize, hmapped, hzero⟩ := mkfs_root h (Nat.le_of_lt hk)
  have hdvd : 16 * (args.length + 2) / bsize * bsize = 16 * (args.length + 2) := by
    unfold bsize
    omega
  have hk' : 16 * (args.length + 2) < 12 * 1024 := hk
  have hbn : 16 * (args.length + 2) / bsize < ndirect := by
    unfold bsize ndirect
    omega
  -- the block after the entries is unmapped although the size now covers it
  have hz : (img.dinode rootino).addrs ⟨_, Nat.lt_succ_of_lt hbn⟩ = 0 := by
    by_contra hne
    exact Nat.lt_irrefl _ (hdvd ▸ (hmapped _ hbn).mp hne)
  -- balloc finds a clear bit, and not block 0, which mkfs marks in use
  obtain ⟨b₀, hb₀, hf₀⟩ := hfree
  obtain ⟨b, hb⟩ := firstFree_complete (Nat.zero_le b₀) (by omega : b₀ < 0 + img.sb.size) hf₀
  obtain ⟨hbf, -, -⟩ := firstFree_sound hb
  have hb0 : b ≠ 0 := by
    rintro rfl
    rw [hzero] at hbf
    cases hbf
  have hoff : 16 * (args.length + 2) % bsize = 0 := by
    unfold bsize
    omega
  obtain ⟨r, hr, -, himg⟩ := readi_unmapped copyout hbn hz (by decide : 0 < 16) (by rw [hsize, Nat.add_mul, hdvd]; unfold bsize; omega)
    (by rw [hoff]; decide) (by omega) (balloc_of_firstFree hb) hb0
  refine ⟨by rw [hsize, Nat.add_mul, hdvd, Nat.one_mul], fun i hi => ?_, b, r, hr, hbf, ?_, ?_⟩
  · obtain rfl : i = ⟨_, Nat.lt_succ_of_lt hbn⟩ := Fin.ext hi
    exact hz
  · rw [himg]
    exact Function.update_self _ _ _
  · rw [himg]

/-- Sixty-two files, each empty: with "." and ".." the root holds 64
entries, one full block. -/
def sixtyTwoFiles : List (List UInt8 × List UInt8) :=
  (List.range 62).map fun i => ([UInt8.ofNat (97 + i / 26), UInt8.ofNat (97 + i % 26)], [])

theorem mkfs_root_read_allocates_fails :
    ∃ img, mkfs sixtyTwoFiles = some img ∧ (img.dinode rootino).size = 2 * bsize ∧
      (img.dinode rootino).addrs 1 = 0 ∧
      ∃ b r, readi (fun _ _ => true) img (img.dinode rootino) bsize 16 = some r ∧
        img.bitmap b = false ∧ r.img.bitmap b = true ∧ r.img.dinode = img.dinode := by
  have hm : mkfs sixtyTwoFiles = some ((mkfs sixtyTwoFiles).getD blank) :=
    (Option.getD_of_ne_none (Option.ne_none_iff_isSome.mpr (by decide)) blank).symm
  have hfree : ∃ b, b < ((mkfs sixtyTwoFiles).getD blank).sb.size ∧
      ((mkfs sixtyTwoFiles).getD blank).bitmap b = false := ⟨1999, by decide, by decide⟩
  have hlen : 16 * (sixtyTwoFiles.length + 2) = bsize := by decide
  obtain ⟨hsize, hz, hread⟩ := mkfs_root_hole hm (by decide) (by decide) hfree (fun _ _ => true)
  rw [hlen] at hsize hz hread
  exact ⟨_, hm, by rw [hsize, Nat.two_mul], hz 1 (by decide), hread⟩

end Hole

end Xv6Mlfq.Mkfs
