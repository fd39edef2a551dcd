import Mathlib.Logic.Function.Basic
import Mathlib.Order.Basic
import Mathlib.Algebra.GroupWithZero.Nat

/-!
The block layer of fs.c over a disk laid out as mkfs lays it out: balloc's
scan of the free map, bmap's direct and indirect block maps, and readi and
writei, which walk a file block by block through bmap.  The disk is seen
through its structures: the superblock, the inode blocks as struct dinode[],
the free map as one bit per block, and the bytes of every other block.
-/

namespace Xv6Mlfq.Fs

/-- BSIZE in fs.h. -/
def bsize : Nat := 1024

/-- NDIRECT in fs.h. -/
def ndirect : Nat := 12

/-- NINDIRECT in fs.h: the uints an indirect block holds. -/
def nindirect : Nat := bsize / 4

/-- MAXFILE in fs.h, in blocks. -/
def maxfile : Nat := ndirect + nindirect

/-- ROOTINO in fs.h. -/
def rootino : Nat := 1

/-- T_DIR, T_FILE and T_DEVICE in stat.h. -/
def tDir : Nat := 1

def tFile : Nat := 2

/-- The contents of a disk block, byte by byte. -/
abbrev Block := Nat → UInt8

/-- A block of zeroes, as bzero leaves it. -/
def zeroBlock : Block := fun _ => 0

/-- The uint at index i of a block read as uint[], little-endian as on RISC-V. -/
def Block.uint (b : Block) (i : Nat) : Nat :=
  (b (4 * i)).toNat + 256 * (b (4 * i + 1)).toNat + 65536 * (b (4 * i + 2)).toNat +
    16777216 * (b (4 * i + 3)).toNat

/-- Store a uint at index i of a block read as uint[]. -/
def Block.setUint (b : Block) (i x : Nat) : Block := fun j =>
  if j = 4 * i then UInt8.ofNat x
  else if j = 4 * i + 1 then UInt8.ofNat (x / 256)
  else if j = 4 * i + 2 then UInt8.ofNat (x / 65536)
  else if j = 4 * i + 3 then UInt8.ofNat (x / 16777216)
  else b j

/-- The m bytes of a block from offset o. -/
def Block.bytes (b : Block) (o m : Nat) : List UInt8 :=
  (List.range m).map fun k => b (o + k)

/-- A block with bytes copied in at offset o. -/
def Block.copyIn (b : Block) (o : Nat) (p : List UInt8) : Block := fun j =>
  if o ≤ j ∧ j < o + p.length then p.getD (j - o) 0 else b j

/-- struct dinode: addrs holds NDIRECT direct block numbers and the indirect block's. -/
structure Dinode where
  type : Nat
  major : Nat
  minor : Nat
  nlink : Nat
  size : Nat
  addrs : Fin (ndirect + 1) → Nat

/-- ip->addrs[i] = a. -/
def Dinode.setAddr (ip : Dinode) (i : Fin (ndirect + 1)) (a : Nat) : Dinode :=
  { ip with addrs := Function.update ip.addrs i a }

/-- struct superblock, as mkfs writes it to block 1. -/
structure Superblock where
  size : Nat
  nblocks : Nat
  ninodes : Nat
  nlog : Nat
  logstart : Nat
  inodestart : Nat
  bmapstart : Nat

/-- The disk seen through the file system's structures. -/
structure FsImage where
  sb : Superblock
  dinode : Nat → Dinode
  bitmap : Nat → Bool
  block : Nat → Block

section Blocks

/-- The first clear bit of the free map among the k blocks from b. -/
def firstFree (bm : Nat → Bool) : Nat → Nat → Option Nat
  | _, 0 => none
  | b, k + 1 => if bm b then firstFree bm (b + 1) k else some b

/-- balloc: mark the first free block in use and zero it (bzero), scanning
the free map from block 0 to sb.size; 0 when out of blocks. -/
def balloc (img : FsImage) : Nat × FsImage :=
  match firstFree img.bitmap 0 img.sb.size with
  | none => (0, img)
  | some b =>
      (b, { img with bitmap := Function.update img.bitmap b true,
                     block := Function.update img.block b zeroBlock })

/-- bmap's indirect half: entry bn of indirect block ind, allocated if zero;
the entry is written back only when balloc succeeds. -/
def bmapIndirect (img : FsImage) (ind bn : Nat) : Nat × FsImage :=
  if (img.block ind).uint bn = 0 then
    match balloc img with
    | (0, img') => (0, img')
    | (a, img') => (a, { img' with block := Function.update img'.block ind ((img.block ind).setUint bn a) })
  else ((img.block ind).uint bn, img)

/-- bmap(ip, bn): the disk block holding block bn of the file, allocated if
there is none; 0 when out of disk space, none where it panics. -/
def bmap (img : FsImage) (ip : Dinode) (bn : Nat) : Option (Nat × Dinode × FsImage) :=
  if h : bn < ndirect then
    let i : Fin (ndirect + 1) := ⟨bn, Nat.lt_succ_of_lt h⟩
    if ip.addrs i = 0 then
      match balloc img with
      | (0, img') => some (0, ip, img')
      | (a, img') => some (a, ip.setAddr i a, img')
    else some (ip.addrs i, ip, img)
  else if bn - ndirect < nindirect then
    if ip.addrs (Fin.last ndirect) = 0 then
      match balloc img with
      | (0, img') => some (0, ip, img')
      | (a, img') =>
          let r := bmapIndirect img' a (bn - ndirect)
          some (r.1, ip.setAddr (Fin.last ndirect) a, r.2)
    else
      let r := bmapIndirect img (ip.addrs (Fin.last ndirect)) (bn - ndirect)
      some (r.1, ip, r.2)
  else none

theorem firstFree_sound {bm : Nat → Bool} {s k b : Nat} (h : firstFree bm s k = some b) :
    bm b = false ∧ s ≤ b ∧ b < s + k := by
  induction k generalizing s with
  | zero => cases h
  | succ k ih =>
      rw [firstFree] at h
      split at h
      · obtain ⟨hb, hs, hk⟩ := ih h
        exact ⟨hb, Nat.le_of_succ_le hs, by omega⟩
      · cases h
        exact ⟨by simpa using ‹¬bm b = true›, Nat.le_refl b, by omega⟩

theorem firstFree_complete {bm : Nat → Bool} {s k j : Nat} (hs : s ≤ j) (hk : j < s + k)
    (hj : bm j = false) : ∃ b, firstFree bm s k = some b := by
  induction k generalizing s with
  | zero => omega
  | succ k ih =>
      rw [firstFree]
      split
      · have hne : s ≠ j := by
          rintro rfl
          simp_all
        exact ih (by omega) (by omega)
      · exact ⟨s, rfl⟩

theorem balloc_of_firstFree {img : FsImage} {b : Nat} (h : firstFree img.bitmap 0 img.sb.size = some b) :
    balloc img = (b, { img with bitmap := Function.update img.bitmap b true,
                                block := Function.update img.block b zeroBlock }) := by
  rw [balloc, h]

theorem bmap_unmapped {img img' : FsImage} {ip : Dinode} {bn b : Nat} (hbn : bn < ndirect)
    (hz : ip.addrs ⟨bn, Nat.lt_succ_of_lt hbn⟩ = 0) (hb : balloc img = (b, img')) (hb0 : b ≠ 0) :
    bmap img ip bn = some (b, ip.setAddr ⟨bn, Nat.lt_succ_of_lt hbn⟩ b, img') := by
  rw [bmap, dif_pos hbn]
  dsimp only
  rw [if_pos hz, hb]
  split
  · rename_i h
    cases h
    exact absurd rfl hb0
  · rename_i h
    cases h
    rfl

end Blocks

section Read

/-- What readi returns: its count (-1 when a copy out fails), the bytes it
copied out, and the inode and disk as bmap left them. -/
structure ReadResult where
  ret : Int
  out : List UInt8
  ip : Dinode
  img : FsImage

/-- readi's loop: copy out block by block from off until tot reaches n or
bmap finds no block; `copyout tot m` says whether either_copyout of m
bytes to dst + tot succeeds. -/
def readiLoop (copyout : Nat → Nat → Bool) :
    Nat → FsImage → Dinode → Nat → Nat → Nat → List UInt8 → Option ReadResult
  | 0, img, ip, _, tot, _, acc => some ⟨tot, acc, ip, img⟩
  | fuel + 1, img, ip, off, tot, n, acc =>
      if tot < n then
        match bmap img ip (off / bsize) with
        | none => none
        | some (0, ip', img') => some ⟨tot, acc, ip', img'⟩
        | some (addr, ip', img') =>
            let m := min (n - tot) (bsize - off % bsize)
            if copyout tot m then
              readiLoop copyout fuel img' ip' (off + m) (tot + m) n
                (acc ++ (img'.block addr).bytes (off % bsize) m)
            else some ⟨-1, acc, ip', img'⟩
      else some ⟨tot, acc, ip, img⟩

/-- readi(ip, user_dst, dst, off, n), with off and n as uints. -/
def readi (copyout : Nat → Nat → Bool) (img : FsImage) (ip : Dinode) (off n : Nat) :
    Option ReadResult :=
  if off > ip.size ∨ (off + n) % 2 ^ 32 < off then some ⟨0, [], ip, img⟩
  else
    let n := if off + n > ip.size then ip.size - off else n
    readiLoop copyout n img ip off 0 n []

theorem readiLoop_stop (copyout : Nat → Nat → Bool) (fuel : Nat) (img : FsImage) (ip : Dinode)
    {off tot n : Nat} (acc : List UInt8) (h : ¬tot < n) :
    readiLoop copyout fuel img ip off tot n acc = some ⟨tot, acc, ip, img⟩ := by
  cases fuel with
  | zero => rfl
  | succ fuel => rw [readiLoop, if_neg h]

/-- A read of a block that lies inside the file but is unmapped allocates
it: bmap is reached from readi as from writei. -/
theorem readi_unmapped (copyout : Nat → Nat → Bool) {img img' : FsImage} {ip : Dinode}
    {off n b : Nat} (hbn : off / bsize < ndirect) (hz : ip.addrs ⟨off / bsize, Nat.lt_succ_of_lt hbn⟩ = 0)
    (hn : 0 < n) (hin : off + n ≤ ip.size) (hblk : off % bsize + n ≤ bsize) (hwrap : off + n < 2 ^ 32)
    (hb : balloc img = (b, img')) (hb0 : b ≠ 0) :
    ∃ r, readi copyout img ip off n = some r ∧
      r.ip = ip.setAddr ⟨off / bsize, Nat.lt_succ_of_lt hbn⟩ b ∧ r.img = img' := by
  have hcheck : ¬(off > ip.size ∨ (off + n) % 2 ^ 32 < off) := by
    rw [Nat.mod_eq_of_lt hwrap]
    omega
  have hm : min (n - 0) (bsize - off % bsize) = n := by omega
  obtain ⟨k, rfl⟩ := Nat.exists_eq_succ_of_ne_zero (Nat.pos_iff_ne_zero.mp hn)
  rw [readi, if_neg hcheck, if_neg (by omega), readiLoop, if_pos (Nat.succ_pos k),
    bmap_unmapped hbn hz hb hb0]
  split
  · rename_i h
    cases h
  · -- bmap's 0 means out of blocks; balloc found one
    rename_i h
    cases h
    exact absurd rfl hb0
  · rename_i h
    cases h
    rw [hm]
    dsimp only
    split
    · exact ⟨_, readiLoop_stop _ _ _ _ _ (by omega), rfl, rfl⟩
    · exact ⟨_, rfl, rfl, rfl⟩

end Read

section Write

/-- The disk with block a replaced, as log_write leaves it in the cache. -/
def FsImage.setBlock (img : FsImage) (a : Nat) (blk : Block) : FsImage :=
  { img with block := Function.update img.block a blk }

/-- writei's loop: copy in block by block from off until tot reaches n or
bmap finds no block. either_copyin of m bytes from src + tot moves
`copyin tot m` of them into bp->data, page by page, before it fails; the
bytes it moved stay in the cached block that brelse releases. The result is
tot, off and the inode and disk. -/
def writeiLoop (copyin : Nat → Nat → Nat) (src : List UInt8) :
    Nat → FsImage → Dinode → Nat → Nat → Nat → Option (Nat × Nat × Dinode × FsImage)
  | 0, img, ip, off, tot, _ => some (tot, off, ip, img)
  | fuel + 1, img, ip, off, tot, n =>
      if tot < n then
        match bmap img ip (off / bsize) with
        | none => none
        | some (0, ip', img') => some (tot, off, ip', img')
        | some (addr, ip', img') =>
            let m := min (n - tot) (bsize - off % bsize)
            let k := min (copyin tot m) m
            let img'' := img'.setBlock addr ((img'.block addr).copyIn (off % bsize) ((src.drop tot).take k))
            if k = m then writeiLoop copyin src fuel img'' ip' (off + m) (tot + m) n
            else some (tot, off, ip', img'')
      else some (tot, off, ip, img)

/-- writei(ip, user_src, src, off, n) on inode inum, src holding the n bytes;
the inode goes back to disk (iupdate) even when its size did not change. -/
def writei (copyin : Nat → Nat → Nat) (img : FsImage) (inum : Nat) (ip : Dinode) (off : Nat)
    (src : List UInt8) : Option (Int × Dinode × FsImage) :=
  if off > ip.size ∨ (off + src.length) % 2 ^ 32 < off then some (-1, ip, img)
  else if off + src.length > maxfile * bsize then some (-1, ip, img)
  else
    (writeiLoop copyin src src.length img ip off 0 src.length).map fun (tot, off, ip', img') =>
      let ip'' := if off > ip'.size then { ip' with size := off } else ip'
      (tot, ip'', { img' with dinode := Function.update img'.dinode inum ip'' })

end Write

section Alloc

theorem balloc_spec {img img' : FsImage} {b : Nat} (h : balloc img = (b, img')) :
    img'.sb = img.sb ∧ img'.dinode = img.dinode ∧
      (∀ a, a ≠ b → img'.block a = img.block a) ∧
      (∀ a, img.bitmap a = true → img'.bitmap a = true) ∧
      (b ≠ 0 → img.bitmap b = false ∧ b < img.sb.size ∧ img'.bitmap b = true ∧
        img'.block b = zeroBlock) := by
  unfold balloc at h
  split at h
  · cases h
    exact ⟨rfl, rfl, fun _ _ => rfl, fun _ ha => ha, fun h => absurd rfl h⟩
  · rename_i b₀ hb₀
    obtain ⟨rfl, rfl⟩ := Prod.mk.inj h
    obtain ⟨hfree, -, hlt⟩ := firstFree_sound hb₀
    refine ⟨rfl, rfl, fun a ha => Function.update_of_ne ha _ _, fun a ha => ?_,
      fun _ => ⟨hfree, by omega, Function.update_self _ _ _, Function.update_self _ _ _⟩⟩
    rcases eq_or_ne a b₀ with rfl | hab
    · exact Function.update_self _ _ _
    · exact (Function.update_of_ne hab _ _).trans ha

end Alloc

end Xv6Mlfq.Fs
