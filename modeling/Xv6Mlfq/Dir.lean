import Xv6Mlfq.Inodes
import Xv6Mlfq.Path

/-!
Directories (kernel/fs.c: namecmp, dirlookup, dirlink; kernel/sysfile.c:
isdirempty, sys_unlink) and the string routines they use (kernel/string.c:
strncmp, strncpy).

A directory is a file of 16-byte entries, struct dirent: a ushort inum,
little-endian, and DIRSIZ bytes of name; an entry whose inum is 0 is free.
dirlookup and dirlink read the entries with readi and dirlink writes one with
writei, as the kernel's own copies (user_dst and user_src 0), which cannot
fail.  dirlookup hands back the inode table's entry that iget returns for the
inum it finds, and its callers give it back with iput.  A C string is its
bytes, reading as NUL past the end of the list.

Over a directory whose map is sound and whose blocks below its size are all
mapped (`DirOk`), dirlookup reads the directory as a map from names, the
first entry in use under a name as `Path.cname` reads names; dirlink either
adds the name, when it is not there and the disk has room, or leaves every
lookup as it was; and sys_unlink takes the name out, leaving its inode one
link fewer, freed when that was its last link and last reference.
-/

namespace Xv6Mlfq.Dir

open Fs Inodes

/-! ### string.c -/

/-- `p[i]` of a C buffer: past the end of the list it reads as NUL. -/
def byteAt (p : List UInt8) (i : Nat) : UInt8 := p.getD i 0

/-- strncmp (string.c): step while `n > 0`, `*p` is not NUL and `*p == *q`;
0 if `n` ran out, otherwise the difference of the bytes it stopped at. -/
def strncmp : List UInt8 → List UInt8 → Nat → Int
  | _, _, 0 => 0
  | p, q, n + 1 =>
    if byteAt p 0 ≠ 0 ∧ byteAt p 0 = byteAt q 0 then strncmp p.tail q.tail n
    else (byteAt p 0).toNat - (byteAt q 0).toNat

/-- strncpy (string.c) into an `n`-byte buffer: the bytes of `t` up to its
NUL, the NUL included, then NULs to the end of the buffer. -/
def strncpy (t : List UInt8) : Nat → List UInt8
  | 0 => []
  | n + 1 => byteAt t 0 :: if byteAt t 0 ≠ 0 then strncpy t.tail n else List.replicate n 0

/-- The first `n` bytes of a buffer up to its NUL: what strncmp compares. -/
def prefixC (p : List UInt8) (n : Nat) : List UInt8 := (p.take n).takeWhile (· ≠ 0)

theorem prefixC_zero (p : List UInt8) : prefixC p 0 = [] := rfl

theorem prefixC_nil (n : Nat) : prefixC [] n = [] := by
  simp [prefixC]

theorem prefixC_cons (a : UInt8) (p : List UInt8) (n : Nat) :
    prefixC (a :: p) (n + 1) = if a ≠ 0 then a :: prefixC p n else [] := by
  by_cases ha : a = 0 <;> simp [prefixC, ha]

theorem toNat_eq_zero_iff (b : UInt8) : b.toNat = 0 ↔ b = 0 := by
  rw [← UInt8.toNat_inj]
  rfl

/-- strncmp is 0 exactly when the two buffers agree up to `n` bytes or up
to a NUL they share. -/
theorem strncmp_eq_zero_iff (p q : List UInt8) (n : Nat) :
    strncmp p q n = 0 ↔ prefixC p n = prefixC q n := by
  induction n generalizing p q with
  | zero => simp [strncmp, prefixC_zero]
  | succ n ih =>
    -- an empty buffer reads as a NUL
    rcases p with _ | ⟨a, p⟩ <;> rcases q with _ | ⟨b, q⟩
    · simp [strncmp, byteAt, prefixC_nil]
    · by_cases hb : b = 0 <;> simp [strncmp, byteAt, prefixC_nil, prefixC_cons, hb, toNat_eq_zero_iff]
    · by_cases ha : a = 0 <;> simp [strncmp, byteAt, prefixC_nil, prefixC_cons, ha, toNat_eq_zero_iff]
    · rw [strncmp, prefixC_cons, prefixC_cons]
      simp only [byteAt, List.getD_cons_zero, List.tail_cons]
      by_cases hab : a ≠ 0 ∧ a = b
      · obtain ⟨ha, rfl⟩ := hab
        rw [if_pos ⟨ha, rfl⟩, ih, if_pos ha, if_pos ha, List.cons.injEq]
        simp
      · rw [if_neg hab]
        by_cases heq : a = b
        · subst heq
          have ha : a = 0 := by simpa using hab
          simp [ha]
        · have hne : (a.toNat : Int) - b.toNat ≠ 0 := by
            intro h
            exact heq (UInt8.toNat_inj.mp (by omega))
          simp only [hne, false_iff]
          split_ifs <;> simp_all

theorem length_strncpy (t : List UInt8) (n : Nat) : (strncpy t n).length = n := by
  induction n generalizing t with
  | zero => rfl
  | succ n ih =>
    rw [strncpy]
    split_ifs <;> simp [ih]

theorem prefixC_strncpy (t : List UInt8) (n : Nat) : prefixC (strncpy t n) n = prefixC t n := by
  induction n generalizing t with
  | zero => rfl
  | succ n ih =>
    rcases t with _ | ⟨a, t⟩
    · simp [strncpy, byteAt, prefixC_nil, prefixC_cons]
    · rw [strncpy]
      simp only [byteAt, List.getD_cons_zero, List.tail_cons]
      rw [prefixC_cons, prefixC_cons]
      split_ifs
      · rw [ih]
      · rfl

/-! ### Directory entries -/

/-- namecmp (fs.c). -/
def namecmp (s t : List UInt8) : Int := strncmp s t Path.dirsiz

theorem namecmp_eq_zero_iff (s t : List UInt8) : namecmp s t = 0 ↔ Path.cname s = Path.cname t :=
  strncmp_eq_zero_iff s t Path.dirsiz

theorem cname_strncpy (t : List UInt8) : Path.cname (strncpy t Path.dirsiz) = Path.cname t :=
  prefixC_strncpy t Path.dirsiz

/-- `sizeof(struct dirent)`. -/
def direntSize : Nat := 16

/-- struct dirent (fs.h). -/
structure Dirent where
  inum : Nat
  name : List UInt8
  deriving DecidableEq, Repr

/-- The entry in a dirent's bytes: the ushort inum, little-endian, then the
DIRSIZ bytes of name. -/
def Dirent.ofBytes (b : List UInt8) : Dirent :=
  ⟨(byteAt b 0).toNat + 256 * (byteAt b 1).toNat, (b.drop 2).take Path.dirsiz⟩

/-- The bytes of a dirent. -/
def Dirent.toBytes (de : Dirent) : List UInt8 :=
  (de.inum % 256).toUInt8 :: (de.inum / 256 % 256).toUInt8 :: de.name

theorem Dirent.length_toBytes {de : Dirent} (hname : de.name.length = Path.dirsiz) :
    de.toBytes.length = direntSize := by
  simp [Dirent.toBytes, hname, Path.dirsiz, direntSize]

theorem Dirent.ofBytes_toBytes {de : Dirent} (hinum : de.inum < 2 ^ 16)
    (hname : de.name.length = Path.dirsiz) : Dirent.ofBytes de.toBytes = de := by
  obtain ⟨inum, name⟩ := de
  simp only [Dirent.ofBytes, Dirent.toBytes, byteAt, List.getD_cons_zero, List.getD_cons_succ,
    List.drop_succ_cons, List.drop_zero, Dirent.mk.injEq]
  refine ⟨?_, List.take_of_length_le (by rw [hname])⟩
  dsimp only at hinum
  simp only [Nat.toUInt8_eq, UInt8.toNat_ofNat']
  omega

/-! ### dirlookup and dirlink -/

/-- The kernel's own copies, either_copyout and either_copyin with user_dst
or user_src 0: a memmove, which cannot fail. -/
def kcopy : Nat → Nat → Bool := fun _ _ => true

def kcopyin : Nat → Nat → Nat := fun _ m => m

/-- The loop dirlookup, dirlink and isdirempty each run over a directory's
entries from byte `off`, with `fuel` iterations left: the first entry that
`stop` accepts, with its offset, or none with the offset where the loop
leaves the directory; the inode and disk come back as readi left them.
`none` is the panic of a short read, or the loop passing its bound. -/
def entryScan (stop : Dirent → Bool) :
    (fuel : Nat) → FsImage → Dinode → (off : Nat) → Option (Option Dirent × Nat × Dinode × FsImage)
  | 0, _, _, _ => none
  | fuel + 1, img, dp, off =>
    if off < dp.size then
      match readi kcopy img dp off direntSize with
      | none => none
      | some r =>
        if r.ret ≠ direntSize then none
        else if stop (Dirent.ofBytes r.out) then some (some (Dirent.ofBytes r.out), off, r.ip, r.img)
        else entryScan stop fuel r.img r.ip (off + direntSize)
    else some (none, off, dp, img)

/-- dirlookup's loop: it skips free entries and stops at the first whose
name namecmp matches, with its inum and offset. -/
def dirlookupLoop (name : List UInt8) (fuel : Nat) (img : FsImage) (dp : Dinode) (off : Nat) :
    Option (Option (Nat × Nat) × Dinode × FsImage) :=
  (entryScan (fun de => de.inum ≠ 0 ∧ namecmp name de.name = 0) fuel img dp off).map
    fun (de, off, dp, img) => (de.map fun de => (de.inum, off), dp, img)

/-- dirlookup(dp, name, poff) (fs.c) over the inode table: the entry iget
returns for the inum found, with the offset put in `*poff`, or none for the 0
dirlookup returns; `none` outside is a panic, among them iget's "iget: no
inodes". -/
def dirlookup (t : Itable) (img : FsImage) (dp : Dinode) (name : List UInt8) :
    Option (Option (Fin ninode × Nat) × Itable × Dinode × FsImage) :=
  if dp.type ≠ tDir then none
  else
    match dirlookupLoop name (dp.size + 1) img dp 0 with
    | none => none
    | some (none, dp, img) => some (none, t, dp, img)
    | some (some (inum, off), dp, img) => (iget t rootdev inum).map fun r => (some (r.2, off), r.1, dp, img)

/-- dirlink's search for an empty entry from `off`: the offset of the first
entry whose inum is 0, or the offset where the loop leaves the directory. -/
def dirlinkScan (fuel : Nat) (img : FsImage) (dp : Dinode) (off : Nat) : Option (Nat × Dinode × FsImage) :=
  (entryScan (fun de => de.inum = 0) fuel img dp off).map fun (_, off, dp, img) => (off, dp, img)

/-- dirlink(dp, name, inum) (fs.c) on the directory whose inode number is
`dpnum`: 0, or -1 when the name is there, after an iput of the entry
dirlookup returned, or when writei comes up short, with the table, inode and
disk after; `none` is a panic.  The entry written is the name as strncpy
leaves it in `de.name` and the inum as a ushort. -/
def dirlink (t : Itable) (img : FsImage) (dpnum : Nat) (dp : Dinode) (name : List UInt8) (inum : Nat) :
    Option (Int × Itable × Dinode × FsImage) :=
  match dirlookup t img dp name with
  | none => none
  | some (some (i, _), t, dp, img) => (iput t img i).map fun r => (-1, r.1, dp, r.2)
  | some (none, t, dp, img) =>
    match dirlinkScan (dp.size + 1) img dp 0 with
    | none => none
    | some (off, dp, img) =>
      let de : Dirent := ⟨inum % 2 ^ 16, strncpy name Path.dirsiz⟩
      (writei kcopyin img dpnum dp off de.toBytes).map fun (ret, dp, img) =>
        (if ret ≠ direntSize then -1 else 0, t, dp, img)

/-- isdirempty(dp) (sysfile.c): whether every entry after "." and ".." is
free, with the inode and disk readi leaves; `none` is a panic. -/
def isdirempty (img : FsImage) (dp : Dinode) : Option (Bool × Dinode × FsImage) :=
  (entryScan (fun de => de.inum ≠ 0) (dp.size + 1) img dp (2 * direntSize)).map
    fun (de, _, dp, img) => (de.isNone, dp, img)

/-- The names "." and "..". -/
def dot : List UInt8 := [46]

def dotdot : List UInt8 := [46, 46]

/-- The end of sys_unlink (sysfile.c), once its target, entry `i` of the inode
table, locked, may go: clear its entry at `off` of the parent, drop the links
the entry held, and iput the target. -/
def unlinkAt (t : Itable) (img : FsImage) (dpnum : Nat) (dp : Dinode) (off : Nat) (i : Fin ninode) :
    Option (Int × Itable × Dinode × FsImage) :=
  match writei kcopyin img dpnum dp off (List.replicate direntSize 0) with
  | none => none
  | some (ret, dp, img) =>
    -- "unlink: writei"
    if ret ≠ direntSize then none
    else
      -- a directory's ".." no longer links the parent
      let (dp, img) :=
        if (t i).din.type = tDir then
          let dp := { dp with nlink := dp.nlink - 1 }
          (dp, { img with dinode := Function.update img.dinode dpnum dp })
        else (dp, img)
      let ip := { (t i) with din := { (t i).din with nlink := (t i).din.nlink - 1 } }
      (iput (Function.update t i ip) (iupdate img ip) i).map fun r => (0, r.1, dp, r.2)

/-- sys_unlink (sysfile.c) over the inode table from where nameiparent has
returned the parent, inode number `dpnum`, locked, and the last element
`name`: 0 or -1, with the table, the parent inode and the disk after; `none`
is a panic.  isdirempty reads the target through readi, and the target's
entry keeps the inode as readi leaves it. -/
def sysUnlink (t : Itable) (img : FsImage) (dpnum : Nat) (dp : Dinode) (name : List UInt8) :
    Option (Int × Itable × Dinode × FsImage) :=
  if namecmp name dot = 0 ∨ namecmp name dotdot = 0 then some (-1, t, dp, img)
  else
    match dirlookup t img dp name with
    | none => none
    | some (none, t, dp, img) => some (-1, t, dp, img)
    | some (some (i, off), t, dp, img) =>
      match ilock t img i with
      | none => none
      | some t =>
        -- "unlink: nlink < 1"
        if (t i).din.nlink < 1 then none
        else
          match (if (t i).din.type = tDir then isdirempty img (t i).din else some (true, (t i).din, img)) with
          | none => none
          | some (false, ip, img) =>
            (iput (Function.update t i { (t i) with din := ip }) img i).map fun r => (-1, r.1, dp, r.2)
          | some (true, ip, img) => unlinkAt (Function.update t i { (t i) with din := ip }) img dpnum dp off i

/-! ### A directory as a map from names -/

/-- The entry at byte `off` of a directory, as its 16 bytes decode. -/
def entryAt (img : FsImage) (dp : Dinode) (off : Nat) : Dirent :=
  Dirent.ofBytes ((List.range direntSize).map fun j => fileByte img dp (off + j))

/-- A directory's entries, one for each 16 bytes of it. -/
def entries (img : FsImage) (dp : Dinode) : List Dirent :=
  (List.range (dp.size / direntSize)).map fun i => entryAt img dp (i * direntSize)

/-- The entry is in use under the name `c`, names read as namecmp reads them. -/
def Dirent.Names (de : Dirent) (c : List UInt8) : Prop := de.inum ≠ 0 ∧ Path.cname de.name = c

instance (de : Dirent) (c : List UInt8) : Decidable (de.Names c) :=
  inferInstanceAs (Decidable (_ ∧ _))

/-- Lookup in a directory's entries: the inum of the first entry in use
under the name `c`. -/
def find (es : List Dirent) (c : List UInt8) : Option Nat :=
  (es.find? fun de => decide (de.Names c)).map Dirent.inum

/-- The inum and byte offset of the first entry in use under the name `c`,
the entries counted from byte `off`: what dirlookup returns and puts in
`*poff`. -/
def findAt : List Dirent → List UInt8 → Nat → Option (Nat × Nat)
  | [], _, _ => none
  | de :: es, c, off => if de.Names c then some (de.inum, off) else findAt es c (off + direntSize)

/-- The first entry `stop` accepts, with its byte offset, the entries
counted from byte `off`; none, with the offset just past them, when it
accepts none. -/
def firstAt (stop : Dirent → Bool) : List Dirent → Nat → Option Dirent × Nat
  | [], off => (none, off)
  | de :: es, off => if stop de then (some de, off) else firstAt stop es (off + direntSize)

/-- The index of the first free entry, or the number of entries. -/
def freeSlot (es : List Dirent) : Nat := es.findIdx fun de => de.inum = 0

/-- A directory the file system keeps: its map sound, every block below its
size mapped, whole entries only, and within MAXFILE blocks. -/
structure DirOk (img : FsImage) (dp : Dinode) : Prop where
  dir : dp.type = tDir
  sound : MapOk img dp
  mapped : ∀ k, k < dp.size → slotAddr img dp (slotOf (k / bsize)) ≠ 0
  aligned : dp.size % direntSize = 0
  bound : dp.size ≤ maxfile * bsize

/-! ### Reading entries -/

/-- readi's loop over mapped blocks, with copies out that succeed: it reads
the file's bytes and changes nothing. -/
theorem readiLoop_mapped {copyout : Nat → Nat → Bool} (hcopy : ∀ a b, copyout a b = true)
    {img : FsImage} {ip : Dinode} {fuel off tot n : Nat} {acc : List UInt8} (htot : tot ≤ n)
    (hfuel : n - tot ≤ fuel)
    (hmapped : ∀ k, off ≤ k → k < off + (n - tot) → slotAddr img ip (slotOf (k / bsize)) ≠ 0) :
    readiLoop copyout fuel img ip off tot n acc =
      some ⟨n, acc ++ (List.range (n - tot)).map fun j => fileByte img ip (off + j), ip, img⟩ := by
  induction fuel generalizing off tot acc with
  | zero =>
    obtain rfl : tot = n := by omega
    simp [readiLoop]
  | succ fuel ih =>
    rw [readiLoop]
    by_cases hlt : tot < n
    · have hmap := hmapped off (Nat.le_refl _) (by omega)
      rw [if_pos hlt, bmap_mapped hmap]
      split
      · rename_i h
        cases h
      · rename_i h
        simp only [Option.some.injEq, Prod.mk.injEq] at h
        exact absurd h.1 hmap
      · rename_i addr ip' img' h
        simp only [Option.some.injEq, Prod.mk.injEq] at h
        obtain ⟨rfl, rfl, rfl⟩ := h
        dsimp only
        rw [if_pos (hcopy _ _)]
        have hpos : off % bsize < bsize := Nat.mod_lt _ (by decide)
        generalize hm : min (n - tot) (bsize - off % bsize) = m
        have hblock : img.block (slotAddr img ip (slotOf (off / bsize))) = fileBlock img ip (off / bsize) := by
          rw [fileBlock, if_neg hmap]
        rw [ih (by omega) (by omega) fun k hk hk' => hmapped k (by omega) (by omega), hblock,
          bytes_fileBlock img ip (by omega), List.append_assoc,
          show n - tot = m + (n - (tot + m)) by omega, List.range_add, List.map_append, List.map_map]
        congr 4
        refine List.map_congr_left fun j _ => ?_
        simp only [Function.comp_apply, Nat.add_assoc]
    · obtain rfl : tot = n := by omega
      rw [if_neg hlt]
      simp

theorem DirOk.readi_entry {img : FsImage} {dp : Dinode} (hd : DirOk img dp) {off : Nat}
    (hoff : off + direntSize ≤ dp.size) :
    readi kcopy img dp off direntSize =
      some ⟨direntSize, (List.range direntSize).map fun j => fileByte img dp (off + j), dp, img⟩ := by
  have hbound := hd.bound
  rw [maxfile_bsize] at hbound
  have hcheck : ¬(off > dp.size ∨ (off + direntSize) % 2 ^ 32 < off) := by
    rw [Nat.mod_eq_of_lt (by unfold direntSize at *; omega)]
    omega
  unfold readi
  rw [if_neg hcheck]
  dsimp only
  rw [if_neg (by omega), readiLoop_mapped (show ∀ a b, kcopy a b = true from fun _ _ => rfl)
    (Nat.zero_le _) (by omega) fun k hk hk' => hd.mapped k (by omega)]
  simp

theorem length_entries (img : FsImage) (dp : Dinode) :
    (entries img dp).length = dp.size / direntSize := by
  simp [entries]

theorem drop_entries {img : FsImage} {dp : Dinode} {i : Nat} (hi : i < dp.size / direntSize) :
    (entries img dp).drop i = entryAt img dp (i * direntSize) :: (entries img dp).drop (i + 1) := by
  rw [List.drop_eq_getElem_cons (by rwa [length_entries])]
  simp [entries]

theorem drop_entries_of_le {img : FsImage} {dp : Dinode} {i : Nat} (hi : dp.size / direntSize ≤ i) :
    (entries img dp).drop i = [] :=
  List.drop_of_length_le (by rw [length_entries]; exact hi)

theorem find_nil (c : List UInt8) : find [] c = none := rfl

theorem find_cons (de : Dirent) (es : List Dirent) (c : List UInt8) :
    find (de :: es) c = if de.Names c then some de.inum else find es c := by
  by_cases h : de.Names c <;> simp [find, h]

theorem findAt_cons (de : Dirent) (es : List Dirent) (c : List UInt8) (off : Nat) :
    findAt (de :: es) c off = if de.Names c then some (de.inum, off) else findAt es c (off + direntSize) :=
  rfl

theorem findAt_map_fst (es : List Dirent) (c : List UInt8) (off : Nat) :
    (findAt es c off).map Prod.fst = find es c := by
  induction es generalizing off with
  | nil => rfl
  | cons de es ih =>
    rw [findAt_cons, find_cons]
    split_ifs
    · rfl
    · exact ih _

theorem find_set_of_not_names {es : List Dirent} {i : Nat} {de : Dirent} {c : List UInt8}
    (hold : ∀ h : i < es.length, ¬ es[i].Names c) (hde : ¬ de.Names c) :
    find (es.set i de) c = find es c := by
  induction es generalizing i with
  | nil => rfl
  | cons e es ih =>
    cases i with
    | zero =>
      have he : ¬ e.Names c := hold (Nat.succ_pos _)
      rw [List.set_cons_zero, find_cons, find_cons, if_neg hde, if_neg he]
    | succ i =>
      rw [List.set_cons_succ, find_cons, find_cons,
        ih fun h => by simpa using hold (Nat.succ_lt_succ h)]

theorem find_set_of_none {es : List Dirent} {i : Nat} {de : Dirent} {c : List UInt8}
    (hnone : find es c = none) (hi : i < es.length) (hde : de.Names c) :
    find (es.set i de) c = some de.inum := by
  induction es generalizing i with
  | nil => simp at hi
  | cons e es ih =>
    rw [find_cons] at hnone
    split_ifs at hnone with he
    cases i with
    | zero => rw [List.set_cons_zero, find_cons, if_pos hde]
    | succ i => rw [List.set_cons_succ, find_cons, if_neg he, ih hnone (by simpa using hi)]

theorem find_append_singleton (es : List Dirent) (de : Dirent) (c : List UInt8) :
    find (es ++ [de]) c = (find es c).or (if de.Names c then some de.inum else none) := by
  induction es with
  | nil =>
    rw [List.nil_append, find_cons, find_nil, Option.none_or]
  | cons e es ih =>
    rw [List.cons_append, find_cons, find_cons, ih]
    split_ifs <;> rfl

theorem firstAt_cons (stop : Dirent → Bool) (de : Dirent) (es : List Dirent) (off : Nat) :
    firstAt stop (de :: es) off = if stop de then (some de, off) else firstAt stop es (off + direntSize) :=
  rfl

theorem findAt_of_firstAt {stop : Dirent → Bool} {c : List UInt8}
    (hstop : ∀ de, stop de = decide (de.Names c)) (es : List Dirent) (off : Nat) :
    (firstAt stop es off).1.map (fun de => (de.inum, (firstAt stop es off).2)) = findAt es c off := by
  induction es generalizing off with
  | nil => rfl
  | cons de es ih =>
    rw [firstAt_cons, findAt_cons, hstop]
    by_cases h : de.Names c
    · simp [h]
    · simp only [h, decide_false, Bool.false_eq_true, if_false]
      exact ih _

theorem firstAt_free_snd (es : List Dirent) (off : Nat) :
    (firstAt (fun de => de.inum = 0) es off).2 = off + freeSlot es * direntSize := by
  induction es generalizing off with
  | nil => simp [firstAt, freeSlot]
  | cons de es ih =>
    rw [firstAt_cons, freeSlot, List.findIdx_cons, ← freeSlot]
    by_cases h0 : de.inum = 0
    · simp [h0]
    · rw [if_neg (by simpa using h0), ih, decide_eq_false h0, cond_false, Nat.succ_mul]
      omega

theorem firstAt_used_isNone (es : List Dirent) (off : Nat) :
    (firstAt (fun de => de.inum ≠ 0) es off).1.isNone = decide (∀ de ∈ es, de.inum = 0) := by
  induction es generalizing off with
  | nil => simp [firstAt]
  | cons de es ih =>
    rw [firstAt_cons]
    by_cases h0 : de.inum = 0
    · rw [if_neg (by simp [h0]), ih]
      simp [h0]
    · simp [h0]

/-- The scan from entry `i` of a kept directory: the first entry from there
on that `stop` accepts, read without changing anything. -/
theorem DirOk.entryScan_eq {img : FsImage} {dp : Dinode} (hd : DirOk img dp) (stop : Dirent → Bool)
    {fuel i : Nat} (hi : i * direntSize ≤ dp.size) (hfuel : dp.size / direntSize - i < fuel) :
    entryScan stop fuel img dp (i * direntSize) =
      some ((firstAt stop ((entries img dp).drop i) (i * direntSize)).1,
        (firstAt stop ((entries img dp).drop i) (i * direntSize)).2, dp, img) := by
  have haligned := hd.aligned
  induction fuel generalizing i with
  | zero => omega
  | succ fuel ih =>
    rw [entryScan]
    by_cases hlt : i * direntSize < dp.size
    · have hi' : i < dp.size / direntSize := by unfold direntSize at *; omega
      have hnext : (i + 1) * direntSize = i * direntSize + direntSize := Nat.succ_mul i direntSize
      rw [if_pos hlt, hd.readi_entry (by unfold direntSize at *; omega)]
      dsimp only
      rw [if_neg (by simp), drop_entries hi', firstAt_cons]
      have hde : Dirent.ofBytes ((List.range direntSize).map fun j => fileByte img dp (i * direntSize + j)) =
          entryAt img dp (i * direntSize) := rfl
      rw [hde]
      by_cases hs : stop (entryAt img dp (i * direntSize)) = true
      · simp only [hs, if_true]
      · simp only [hs, Bool.false_eq_true, if_false]
        rw [← hnext]
        exact ih (by unfold direntSize at *; omega) (by omega)
    · have hend : dp.size / direntSize ≤ i := by unfold direntSize at *; omega
      rw [if_neg hlt, drop_entries_of_le hend]
      rfl

theorem DirOk.dirlookupLoop_eq {img : FsImage} {dp : Dinode} (hd : DirOk img dp) (name : List UInt8) :
    dirlookupLoop name (dp.size + 1) img dp 0 = some (findAt (entries img dp) (Path.cname name) 0, dp, img) := by
  have hscan := hd.entryScan_eq (fun de => de.inum ≠ 0 ∧ namecmp name de.name = 0)
    (show 0 * direntSize ≤ dp.size by omega)
    (show dp.size / direntSize - 0 < dp.size + 1 by have := Nat.div_le_self dp.size direntSize; omega)
  rw [Nat.zero_mul, List.drop_zero] at hscan
  have hstop : ∀ de : Dirent, decide (de.inum ≠ 0 ∧ namecmp name de.name = 0) =
      decide (de.Names (Path.cname name)) := fun de =>
    decide_eq_decide.mpr (and_congr_right fun _ => (namecmp_eq_zero_iff _ _).trans eq_comm)
  rw [dirlookupLoop, hscan, Option.map_some]
  dsimp only
  rw [findAt_of_firstAt hstop]

theorem DirOk.dirlookup_of_none {img : FsImage} {dp : Dinode} (hd : DirOk img dp) (t : Itable)
    {name : List UInt8} (h : findAt (entries img dp) (Path.cname name) 0 = none) :
    dirlookup t img dp name = some (none, t, dp, img) := by
  rw [dirlookup, if_neg (by rw [hd.dir]; exact not_not.mpr rfl), hd.dirlookupLoop_eq, h]

theorem DirOk.dirlookup_of_some {img : FsImage} {dp : Dinode} (hd : DirOk img dp) (t : Itable)
    {name : List UInt8} {inum off : Nat} (h : findAt (entries img dp) (Path.cname name) 0 = some (inum, off)) :
    dirlookup t img dp name = (iget t rootdev inum).map fun r => (some (r.2, off), r.1, dp, img) := by
  rw [dirlookup, if_neg (by rw [hd.dir]; exact not_not.mpr rfl), hd.dirlookupLoop_eq, h]

theorem DirOk.dirlinkScan_eq {img : FsImage} {dp : Dinode} (hd : DirOk img dp) :
    dirlinkScan (dp.size + 1) img dp 0 = some (freeSlot (entries img dp) * direntSize, dp, img) := by
  have hscan := hd.entryScan_eq (fun de => de.inum = 0) (show 0 * direntSize ≤ dp.size by omega)
    (show dp.size / direntSize - 0 < dp.size + 1 by have := Nat.div_le_self dp.size direntSize; omega)
  rw [Nat.zero_mul, List.drop_zero] at hscan
  rw [dirlinkScan, hscan, Option.map_some]
  dsimp only
  rw [firstAt_free_snd, Nat.zero_add]

/-! ### Writing an entry -/

theorem bmap_type {img img' : FsImage} {ip ip' : Dinode} {bn a : Nat}
    (h : bmap img ip bn = some (a, ip', img')) : ip'.type = ip.type := by
  unfold bmap at h
  dsimp only at h
  split_ifs at h
  all_goals try split at h
  all_goals
    simp only [Option.some.injEq, Prod.mk.injEq] at h
    obtain ⟨-, rfl, -⟩ := h
    rfl

theorem writeiLoop_type {copyin : Nat → Nat → Nat} {src : List UInt8} {fuel : Nat} {img img' : FsImage}
    {ip ip' : Dinode} {off off' tot tot' n : Nat}
    (h : writeiLoop copyin src fuel img ip off tot n = some (tot', off', ip', img')) : ip'.type = ip.type := by
  induction fuel generalizing img ip off tot with
  | zero =>
    cases h
    rfl
  | succ fuel ih =>
    rw [writeiLoop] at h
    split at h
    · split at h
      · cases h
      · rename_i hb
        cases h
        exact bmap_type hb
      · rename_i hb
        dsimp only at h
        split at h
        · exact (ih h).trans (bmap_type hb)
        · cases h
          exact bmap_type hb
    · cases h
      rfl

theorem writei_type {copyin : Nat → Nat → Nat} {img img' : FsImage} {inum off : Nat} {ip ip' : Dinode}
    {src : List UInt8} {ret : Int} (h : writei copyin img inum ip off src = some (ret, ip', img')) :
    ip'.type = ip.type := by
  unfold writei at h
  split_ifs at h
  · cases h
    rfl
  · cases h
    rfl
  · obtain ⟨⟨tot, off', ip₁, img₁⟩, hloop, hr⟩ := Option.map_eq_some_iff.mp h
    simp only [Prod.mk.injEq] at hr
    obtain ⟨-, rfl, -⟩ := hr
    split_ifs <;> exact (writeiLoop_type hloop : ip₁.type = ip.type)

theorem bmap_isSome {img : FsImage} {ip : Dinode} {bn : Nat} (h : bn < maxfile) : (bmap img ip bn).isSome := by
  unfold bmap maxfile at *
  dsimp only
  split_ifs
  all_goals try split
  all_goals first | rfl | omega

/-- A write that fits in one block is all or nothing: writei's loop writes
none of it, where bmap finds no block, or all of it, as it does where the
block is mapped already. -/
theorem writeiLoop_one_block {copyin : Nat → Nat → Nat} (hcopy : ∀ a b, b ≤ copyin a b)
    (src : List UInt8) (fuel : Nat) (img : FsImage) (ip : Dinode) {off n : Nat}
    (hblk : off % bsize + n ≤ bsize) (hbn : off / bsize < maxfile) :
    ∃ t off' ip' img', writeiLoop copyin src fuel img ip off 0 n = some (t, off', ip', img') ∧
      (t = 0 ∨ t = n) ∧ (0 < fuel → slotAddr img ip (slotOf (off / bsize)) ≠ 0 → t = n) := by
  cases fuel with
  | zero => exact ⟨_, _, _, _, rfl, .inl rfl, fun h => absurd h (Nat.lt_irrefl 0)⟩
  | succ fuel =>
    rw [writeiLoop]
    by_cases hn : 0 < n
    · have hsome : (bmap img ip (off / bsize)).isSome := bmap_isSome hbn
      obtain ⟨⟨a, ip₁, img₁⟩, hb⟩ := Option.isSome_iff_exists.mp hsome
      rw [if_pos hn, hb]
      by_cases ha : a = 0
      · -- bmap found no block, which it does not where one is mapped
        subst ha
        refine ⟨_, _, _, _, rfl, .inl rfl, fun _ hmap => ?_⟩
        rw [bmap_mapped hmap, Option.some.injEq, Prod.mk.injEq] at hb
        exact absurd hb.1 hmap
      · simp only
        rw [show min (n - 0) (bsize - off % bsize) = n by omega, if_pos (Nat.min_eq_right (hcopy _ _)),
          Nat.zero_add]
        -- the write fills what is left of it in this block, so the next iteration stops
        cases fuel with
        | zero => exact ⟨_, _, _, _, rfl, .inr rfl, fun _ _ => rfl⟩
        | succ fuel =>
          rw [writeiLoop, if_neg (by omega)]
          exact ⟨_, _, _, _, rfl, .inr rfl, fun _ _ => rfl⟩
    · rw [if_neg hn]
      exact ⟨_, _, _, _, rfl, .inl rfl, fun _ _ => by omega⟩

/-- writei of one aligned entry never panics, and returns -1, 0 or 16: 16
over an entry inside a file within MAXFILE blocks whose block is mapped. -/
theorem writei_entry_ret (img : FsImage) (inum : Nat) (ip : Dinode) {off : Nat} {src : List UInt8}
    (halign : off % direntSize = 0) (hlen : src.length = direntSize) :
    ∃ ret ip' img', writei kcopyin img inum ip off src = some (ret, ip', img') ∧
      (ret = -1 ∨ ret = 0 ∨ ret = direntSize) ∧
      (off + direntSize ≤ ip.size → ip.size ≤ maxfile * bsize →
        slotAddr img ip (slotOf (off / bsize)) ≠ 0 → ret = direntSize) := by
  have hmaxfile := maxfile_bsize
  unfold writei
  split_ifs with h₁ h₂
  · refine ⟨_, _, _, rfl, .inl rfl, fun hin hmax _ => ?_⟩
    rw [Nat.mod_eq_of_lt (by rw [hlen]; unfold direntSize at *; omega)] at h₁
    omega
  · exact ⟨_, _, _, rfl, .inl rfl, fun hin hmax _ => by rw [hlen] at h₂; omega⟩
  · have hblk : off % bsize + src.length ≤ bsize := by
      rw [hlen]
      unfold direntSize bsize at *
      omega
    have hbn : off / bsize < maxfile := by
      rw [hlen] at h₂
      unfold maxfile ndirect nindirect bsize direntSize at *
      omega
    obtain ⟨t, off', ip₁, img₁, hloop, ht, hmapped⟩ :=
      writeiLoop_one_block (show ∀ a b, b ≤ kcopyin a b from fun _ _ => Nat.le_refl _) src src.length img ip hblk hbn
    rw [hloop]
    refine ⟨_, _, _, rfl, ?_, fun _ _ hmap => ?_⟩
    · rcases ht with rfl | rfl
      · exact .inr (.inl rfl)
      · exact .inr (.inr (by rw [hlen]))
    · rw [hmapped (by rw [hlen]; decide) hmap, hlen]

theorem getElem_entries {img : FsImage} {dp : Dinode} {j : Nat} (hj : j < (entries img dp).length) :
    (entries img dp)[j] = entryAt img dp (j * direntSize) := by
  simp [entries]

theorem entryAt_of_written {img img' : FsImage} {dp dp' : Dinode} {off : Nat} {src : List UInt8}
    (halign : off % direntSize = 0) (hlen : src.length = direntSize)
    (hbytes : ∀ k, fileByte img' dp' k =
      if off ≤ k ∧ k < off + direntSize then src.getD (k - off) 0 else fileByte img dp k) (j : Nat) :
    entryAt img' dp' (j * direntSize) =
      if j * direntSize = off then Dirent.ofBytes src else entryAt img dp (j * direntSize) := by
  unfold entryAt
  split_ifs with hj
  · congr 1
    conv => rhs; rw [← map_range_getD src, hlen]
    refine List.map_congr_left fun x hx => ?_
    have hx' := List.mem_range.mp hx
    rw [hbytes, if_pos (by omega), hj, Nat.add_sub_cancel_left]
  · congr 1
    refine List.map_congr_left fun x hx => ?_
    have hx' := List.mem_range.mp hx
    rw [hbytes, if_neg (by unfold direntSize at *; omega)]

/-- The entries of a directory whose entry at `off` became `de`, every other
entry as it was: set in place below the old size, appended at its end. -/
theorem entries_of_entryAt {img img' : FsImage} {dp dp' : Dinode} {off : Nat} {de : Dirent}
    (haligned : dp.size % direntSize = 0) (halign : off % direntSize = 0) (hoff : off ≤ dp.size)
    (hsize : dp'.size = max dp.size (off + direntSize))
    (hent : ∀ j, entryAt img' dp' (j * direntSize) =
      if j * direntSize = off then de else entryAt img dp (j * direntSize)) :
    entries img' dp' =
      if off < dp.size then (entries img dp).set (off / direntSize) de else entries img dp ++ [de] := by
  by_cases hlt : off < dp.size
  · rw [if_pos hlt]
    apply List.ext_getElem
    · rw [length_entries, List.length_set, length_entries, hsize]
      unfold direntSize at *
      omega
    · intro j hj hj'
      rw [getElem_entries, hent, List.getElem_set]
      by_cases hjo : j * direntSize = off
      · rw [if_pos hjo, if_pos (by unfold direntSize at *; omega)]
      · rw [if_neg hjo, if_neg (by unfold direntSize at *; omega), getElem_entries]
  · rw [if_neg hlt]
    apply List.ext_getElem
    · rw [length_entries, List.length_append, length_entries, hsize, List.length_singleton]
      unfold direntSize at *
      omega
    · intro j hj hj'
      rw [getElem_entries, hent]
      by_cases hjo : j * direntSize = off
      · rw [if_pos hjo, List.getElem_append_right (by rw [length_entries]; unfold direntSize at *; omega)]
        simp
      · have hjlt : j < (entries img dp).length := by
          rw [length_entries]
          rw [List.length_append, length_entries, List.length_singleton] at hj'
          unfold direntSize at *
          omega
        rw [if_neg hjo, List.getElem_append_left hjlt, getElem_entries]

/-- writei of one entry at an aligned offset inside a kept directory or at
its end keeps it kept; it either leaves the entries as they were, returning
less than 16, or writes the entry there, in place or appended. -/
theorem DirOk.writei_entry {img img' : FsImage} {dp dp' : Dinode} {dpnum off : Nat} {src : List UInt8}
    {ret : Int} (hd : DirOk img dp) (hoff : off ≤ dp.size) (halign : off % direntSize = 0)
    (hlen : src.length = direntSize) (h : writei kcopyin img dpnum dp off src = some (ret, dp', img')) :
    DirOk img' dp' ∧
      ((ret ≠ direntSize ∧ entries img' dp' = entries img dp) ∨
        (ret = direntSize ∧ entries img' dp' =
          if off < dp.size then (entries img dp).set (off / direntSize) (Dirent.ofBytes src)
          else entries img dp ++ [Dirent.ofBytes src])) := by
  have htype := writei_type h
  have hret : ret = -1 ∨ ret = 0 ∨ ret = direntSize := by
    obtain ⟨_, _, _, h', hret, -⟩ := writei_entry_ret img dpnum dp halign hlen
    rw [h] at h'
    cases h'
    exact hret
  obtain ⟨hok', -, hcases⟩ := hd.sound.of_writei h
  rcases hcases with ⟨rfl, rfl, rfl, -⟩ | ⟨t, rfl, ht, -, hmax, hsize, -, hkeep, hnew, w, htw, -, hcut, hbytes⟩
  · exact ⟨hd, .inl ⟨by decide, rfl⟩⟩
  -- the kernel's copy moves every byte, so nothing lies past the count
  obtain rfl : t = w := by
    by_contra hne
    obtain ⟨m, hm⟩ := hcut (by omega)
    exact Nat.lt_irrefl m hm
  clear hcut
  have haligned := hd.aligned
  have hkept : ∀ k, k < dp.size → slotAddr img' dp' (slotOf (k / bsize)) ≠ 0 := fun k hk => by
    rw [hkeep _ (hd.mapped k hk)]
    exact hd.mapped k hk
  rcases hret with hneg | h0 | h16
  · omega
  · obtain rfl : t = 0 := by omega
    have hsame : dp'.size = dp.size := by omega
    have hview : fileByte img' dp' = fileByte img dp := funext fun k => by rw [hbytes, if_neg (by omega)]
    refine ⟨⟨by rw [htype, hd.dir], hok', fun k hk => hkept k (by omega), by rw [hsame]; exact haligned,
      by rw [hsame]; exact hd.bound⟩, .inl ⟨by decide, ?_⟩⟩
    unfold entries entryAt
    rw [hsame, hview]
  · obtain rfl : t = direntSize := by omega
    rw [hlen] at hmax
    have hbound := hd.bound
    have hd' : DirOk img' dp' := ⟨by rw [htype, hd.dir], hok', fun k hk => by
      by_cases hold : k < dp.size
      · exact hkept k hold
      · exact hnew k (by omega) (by omega), by unfold direntSize at *; omega, by omega⟩
    exact ⟨hd', .inr ⟨rfl, entries_of_entryAt haligned halign hoff hsize
      (entryAt_of_written halign hlen (by simpa using hbytes))⟩⟩

/-- writei of one entry over an entry inside a kept directory: the bytes go
into the directory's block in place, and the inode goes back as it was. -/
theorem DirOk.writei_in_place {img : FsImage} {dp : Dinode} (hd : DirOk img dp) (dpnum : Nat) {off : Nat}
    (hoff : off < dp.size) (halign : off % direntSize = 0) {src : List UInt8} (hlen : src.length = direntSize) :
    writei kcopyin img dpnum dp off src = some ((direntSize : Int), dp,
      { img.setBlock (slotAddr img dp (slotOf (off / bsize)))
          ((img.block (slotAddr img dp (slotOf (off / bsize)))).copyIn (off % bsize) src) with
        dinode := Function.update img.dinode dpnum dp }) := by
  have hsize := hd.aligned
  have hbound := hd.bound
  have hmaxfile := maxfile_bsize
  have ha := hd.mapped off hoff
  have hin : off + direntSize ≤ dp.size := by unfold direntSize at *; omega
  have hblk : off % bsize + direntSize ≤ bsize := by unfold direntSize bsize at *; omega
  generalize hA : slotAddr img dp (slotOf (off / bsize)) = a at ha ⊢
  obtain ⟨a', rfl⟩ := Nat.exists_eq_succ_of_ne_zero ha
  have hloop : writeiLoop kcopyin src src.length img dp off 0 src.length =
      some (direntSize, off + direntSize, dp,
        img.setBlock (a' + 1) ((img.block (a' + 1)).copyIn (off % bsize) src)) := by
    rw [hlen]
    unfold direntSize at *
    rw [writeiLoop, if_pos (by decide), bmap_mapped (hA ▸ ha), hA]
    split
    · rename_i h
      cases h
    · rename_i h
      simp at h
    · rename_i h
      simp only [Option.some.injEq, Prod.mk.injEq] at h
      obtain ⟨rfl, rfl, rfl⟩ := h
      have hm : min (16 - 0) (bsize - off % bsize) = 16 := by omega
      simp only [hm, show min (kcopyin 0 16) 16 = 16 from rfl, if_true, List.drop_zero, Nat.zero_add]
      rw [writeiLoop, if_neg (Nat.lt_irrefl 16), ← hlen, List.take_length]
  unfold writei
  rw [if_neg (by rw [hlen]; unfold direntSize at *; omega), if_neg (by rw [hlen]; omega), hloop,
    Option.map_some]
  dsimp only
  rw [if_neg (by omega)]
  rfl

/-! ### dirlookup's result -/

theorem findAt_eq_none_iff {es : List Dirent} {c : List UInt8} {off : Nat} :
    findAt es c off = none ↔ ∀ de ∈ es, ¬ de.Names c := by
  induction es generalizing off with
  | nil => simp [findAt]
  | cons de es ih =>
    rw [findAt_cons, List.forall_mem_cons]
    split_ifs with h
    · exact ⟨fun h' => h'.elim, fun hall => absurd h hall.1⟩
    · rw [ih]
      exact ⟨fun h' => ⟨h, h'⟩, fun h' => h'.2⟩

theorem findAt_eq_some {es : List Dirent} {c : List UInt8} {off inum o : Nat}
    (h : findAt es c off = some (inum, o)) :
    ∃ k, ∃ hk : k < es.length, o = off + k * direntSize ∧ es[k].Names c ∧ es[k].inum = inum ∧
      ∀ j (hj : j < es.length), j < k → ¬ es[j].Names c := by
  induction es generalizing off with
  | nil => cases h
  | cons de es ih =>
    rw [findAt_cons] at h
    split_ifs at h with hn
    · obtain ⟨rfl, rfl⟩ := Prod.mk.inj (Option.some.inj h)
      exact ⟨0, Nat.succ_pos _, by rw [Nat.zero_mul, Nat.add_zero], hn, rfl,
        fun j _ hj => absurd hj (Nat.not_lt_zero j)⟩
    · obtain ⟨k, hk, ho, hnk, hik, hfirst⟩ := ih h
      refine ⟨k + 1, Nat.succ_lt_succ hk, by rw [ho, Nat.succ_mul]; omega, hnk, hik, fun j hj hjk => ?_⟩
      cases j with
      | zero => exact hn
      | succ j => exact hfirst j (Nat.lt_of_succ_lt_succ hj) (Nat.lt_of_succ_lt_succ hjk)

theorem DirOk.entryAt_mem_entries {img : FsImage} {dp : Dinode} (hd : DirOk img dp) {off : Nat}
    (hoff : off < dp.size) (halign : off % direntSize = 0) : entryAt img dp off ∈ entries img dp := by
  have hk : off / direntSize < (entries img dp).length := by
    have := hd.aligned
    rw [length_entries]
    unfold direntSize at *
    omega
  have hoff' : off / direntSize * direntSize = off := Nat.div_mul_cancel (Nat.dvd_of_mod_eq_zero halign)
  rw [← hoff', ← getElem_entries hk]
  exact List.getElem_mem hk

theorem dirlookup_finds_entry (c : Icache) (dp : Dinode) (name : List UInt8) (hc : CacheOk c)
    (hd : DirOk c.img dp) :
    (dirlookup c.itable c.img dp name = some (none, c.itable, dp, c.img) ∧
        ∀ off, off < dp.size → off % direntSize = 0 → ¬ (entryAt c.img dp off).Names (Path.cname name)) ∨
      ∃ inum off, off % direntSize = 0 ∧ off < dp.size ∧ (entryAt c.img dp off).inum = inum ∧
        (entryAt c.img dp off).Names (Path.cname name) ∧
        (∀ off', off' < off → off' % direntSize = 0 → ¬ (entryAt c.img dp off').Names (Path.cname name)) ∧
        (dirlookup c.itable c.img dp name = none ↔ Full c inum) ∧
        ∀ r, dirlookup c.itable c.img dp name = some r →
          ∃ t i, r = (some (i, off), t, dp, c.img) ∧ (t i).inum = inum ∧ CacheOk ⟨t, c.img, hold c.held i⟩ := by
  rcases hfound : findAt (entries c.img dp) (Path.cname name) 0 with _ | ⟨inum, off⟩
  · exact .inl ⟨hd.dirlookup_of_none c.itable hfound, fun off hoff halign =>
      findAt_eq_none_iff.mp hfound _ (hd.entryAt_mem_entries hoff halign)⟩
  obtain ⟨k, hk, rfl, hnk, hik, hfirst⟩ := findAt_eq_some hfound
  have hsize := hd.aligned
  rw [length_entries] at hk
  rw [getElem_entries] at hnk hik
  have hlook := hd.dirlookup_of_some c.itable hfound
  refine .inr ⟨_, _, Nat.mul_mod_left _ _, by unfold direntSize at *; omega, hik, hnk,
    fun off' hlt halign hn => ?_, ?_, fun r hr => ?_⟩
  · have hoff' : off' / direntSize * direntSize = off' := Nat.div_mul_cancel (Nat.dvd_of_mod_eq_zero halign)
    have hj : off' / direntSize < k := by unfold direntSize at *; omega
    refine hfirst _ (by rw [length_entries]; omega) hj ?_
    rwa [getElem_entries, hoff']
  · rw [hlook, Option.map_eq_none_iff]
    exact hc.iget_eq_none_iff _
  · rw [hlook] at hr
    obtain ⟨⟨t, i⟩, hget, rfl⟩ := Option.map_eq_some_iff.mp hr
    exact ⟨t, i, by simp, (iget_entry hget).1, hc.iget hget⟩

/-- A root directory as mkfs leaves it with one file: ".", ".." and "a",
inode 2, in data block 47. -/
def rootDir : Dinode := { shortFile with type := tDir, size := 3 * direntSize }

def rootBlock : Block :=
  zeroBlock.copyIn 0 ((Dirent.toBytes ⟨1, strncpy dot Path.dirsiz⟩ ++
    Dirent.toBytes ⟨1, strncpy dotdot Path.dirsiz⟩) ++ Dirent.toBytes ⟨2, strncpy [97] Path.dirsiz⟩)

/-- The test disk with the root directory at inode 1 and "a", an empty file,
at inode 2. -/
def rootDisk : FsImage where
  sb := testDisk.sb
  dinode n := if n = 1 then rootDir else if n = 2 then emptyInode else testDisk.dinode n
  bitmap b := decide (b < 48)
  block := Function.update testDisk.block 47 rootBlock

theorem slotAddr_rootDir (s : Slot) : slotAddr rootDisk rootDir s = if s = .direct 0 then 47 else 0 := by
  rw [← slotAddr_shortFile rootDisk s]
  exact congrFun (slotAddr_of_addrs rfl rfl) s

theorem mapOk_rootDir : MapOk rootDisk rootDir where
  inj s t hs hst := by
    rw [slotAddr_rootDir, slotAddr_rootDir] at hst
    rw [slotAddr_rootDir] at hs
    split_ifs at hs hst <;> simp_all
  used s hs := by
    rw [slotAddr_rootDir] at hs ⊢
    split_ifs at hs ⊢
    · rfl
    · exact absurd rfl hs
  fits := by decide

theorem dirOk_rootDir : DirOk rootDisk rootDir where
  dir := rfl
  sound := mapOk_rootDir
  mapped k hk := by
    have hk' : k / bsize = 0 := Nat.div_eq_of_lt (Nat.lt_trans hk (by decide))
    rw [hk', slotAddr_rootDir]
    decide
  aligned := rfl
  bound := by decide

theorem fsOk_rootDisk : FsOk rootDisk where
  mapOk n hn := by
    by_cases h1 : n = 1
    · subst h1
      exact mapOk_rootDir
    by_cases h2 : n = 2
    · subst h2
      exact mapOk_zero_addrs rfl (by decide)
    · simp [rootDisk, h1, h2, testDisk] at hn
  disjoint m n a hmn hm hn := by
    -- of two allocated inodes one is "a", which holds no block
    have hmn' : (m = 1 ∧ n = 2) ∨ (m = 2 ∧ n = 1) := by
      by_cases h1 : m = 1 <;> by_cases h2 : m = 2 <;> by_cases h1' : n = 1 <;> by_cases h2' : n = 2 <;>
        simp_all [rootDisk, testDisk]
    have ha : ¬Owns rootDisk (rootDisk.dinode 2) a :=
      not_owns_zero_addrs (show (rootDisk.dinode 2).addrs = fun _ => 0 from rfl) a
    rcases hmn' with ⟨rfl, rfl⟩ | ⟨rfl, rfl⟩
    · exact fun _ => ha
    · exact fun h => absurd h ha
  fits := by decide

theorem dirlookup_finds_entry_rootDisk :
    CacheOk (iinit rootDisk) ∧ DirOk (iinit rootDisk).img rootDir ∧
      ((dirlookup (iinit rootDisk).itable (iinit rootDisk).img rootDir [97] =
            some (none, (iinit rootDisk).itable, rootDir, (iinit rootDisk).img) ∧
          ∀ off, off < rootDir.size → off % direntSize = 0 →
            ¬ (entryAt (iinit rootDisk).img rootDir off).Names (Path.cname [97])) ∨
        ∃ inum off, off % direntSize = 0 ∧ off < rootDir.size ∧
          (entryAt (iinit rootDisk).img rootDir off).inum = inum ∧
          (entryAt (iinit rootDisk).img rootDir off).Names (Path.cname [97]) ∧
          (∀ off', off' < off → off' % direntSize = 0 →
            ¬ (entryAt (iinit rootDisk).img rootDir off').Names (Path.cname [97])) ∧
          (dirlookup (iinit rootDisk).itable (iinit rootDisk).img rootDir [97] = none ↔
            Full (iinit rootDisk) inum) ∧
          ∀ r, dirlookup (iinit rootDisk).itable (iinit rootDisk).img rootDir [97] = some r →
            ∃ t i, r = (some (i, off), t, rootDir, (iinit rootDisk).img) ∧ (t i).inum = inum ∧
              CacheOk ⟨t, (iinit rootDisk).img, hold (iinit rootDisk).held i⟩) :=
  ⟨cacheOk_iinit fsOk_rootDisk, dirOk_rootDir,
    dirlookup_finds_entry (iinit rootDisk) rootDir [97] (cacheOk_iinit fsOk_rootDisk) dirOk_rootDir⟩

/-! ### dirlink, entry by entry -/

/-- Where dirlink puts a new entry: over the first free entry, or after the
last when none is free. -/
def place (es : List Dirent) (de : Dirent) : List Dirent :=
  if freeSlot es < es.length then es.set (freeSlot es) de else es ++ [de]

theorem ofBytes_linked (name : List UInt8) {inum : Nat} (hinum : inum < 2 ^ 16) :
    Dirent.ofBytes (Dirent.toBytes ⟨inum % 2 ^ 16, strncpy name Path.dirsiz⟩) =
      ⟨inum, strncpy name Path.dirsiz⟩ := by
  rw [Dirent.ofBytes_toBytes (Nat.mod_lt _ (by decide)) (length_strncpy _ _), Nat.mod_eq_of_lt hinum]

theorem names_linked (name : List UInt8) {inum : Nat} (hinum : 0 < inum) (c : List UInt8) :
    (⟨inum, strncpy name Path.dirsiz⟩ : Dirent).Names c ↔ c = Path.cname name := by
  simp only [Dirent.Names, cname_strncpy]
  constructor
  · exact fun h => h.2.symm
  · exact fun h => ⟨by omega, h.symm⟩

/-- dirlink on a kept directory, with a free entry in the inode table: it
stays kept, every reference to the table stays, and either the name was not
in use, dirlink returns 0 and the new entry takes its place, or dirlink
returns -1 with the entries as they were. -/
theorem DirOk.dirlink_cases {img : FsImage} {dp : Dinode} (hd : DirOk img dp) {t : Itable}
    (hroom : ∃ j, (t j).ref = 0) (dpnum : Nat) (name : List UInt8) {inum : Nat} (hinum : inum < 2 ^ 16) :
    ∃ ret t' dp' img', dirlink t img dpnum dp name inum = some (ret, t', dp', img') ∧ DirOk img' dp' ∧
      KeepsRefs t t' ∧
      ((ret = 0 ∧ find (entries img dp) (Path.cname name) = none ∧
          entries img' dp' = place (entries img dp) ⟨inum, strncpy name Path.dirsiz⟩) ∨
        (ret = -1 ∧ entries img' dp' = entries img dp)) := by
  have hr := findAt_map_fst (entries img dp) (Path.cname name) 0
  rcases hfound : findAt (entries img dp) (Path.cname name) 0 with _ | ⟨found, off₀⟩
  · have hnone : find (entries img dp) (Path.cname name) = none := by rw [← hr, hfound]; rfl
    have hfree : freeSlot (entries img dp) ≤ (entries img dp).length := List.findIdx_le_length
    rw [length_entries] at hfree
    have hscan := hd.dirlinkScan_eq
    set de : Dirent := ⟨inum % 2 ^ 16, strncpy name Path.dirsiz⟩ with hde
    have hlen : de.toBytes.length = direntSize := Dirent.length_toBytes (length_strncpy _ _)
    have halign : freeSlot (entries img dp) * direntSize % direntSize = 0 := Nat.mul_mod_left _ _
    have hoff : freeSlot (entries img dp) * direntSize ≤ dp.size := by
      have := hd.aligned
      unfold freeSlot direntSize at *
      omega
    obtain ⟨ret, dp', img', hw, -⟩ := writei_entry_ret img dpnum dp halign hlen
    obtain ⟨hd', hcases⟩ := hd.writei_entry hoff halign hlen hw
    have hlink : dirlink t img dpnum dp name inum =
        some (if ret ≠ direntSize then -1 else 0, t, dp', img') := by
      rw [dirlink, hd.dirlookup_of_none t hfound]
      dsimp only
      rw [hscan]
      dsimp only
      rw [hw]
      rfl
    refine ⟨_, _, _, _, hlink, hd', KeepsRefs.refl t, ?_⟩
    rcases hcases with ⟨hne, hsame⟩ | ⟨rfl, hwrote⟩
    · -- writei came up short: no block for the entry, nothing written
      exact .inr ⟨if_pos hne, hsame⟩
    · have hslot : freeSlot (entries img dp) * direntSize / direntSize = freeSlot (entries img dp) :=
        Nat.mul_div_cancel _ (by decide)
      have hin : freeSlot (entries img dp) * direntSize < dp.size ↔
          freeSlot (entries img dp) < (entries img dp).length := by
        have := hd.aligned
        rw [length_entries]
        unfold direntSize at *
        omega
      refine .inl ⟨if_neg (not_not.mpr rfl), hnone, ?_⟩
      simp only [hwrote, hslot, hde, ofBytes_linked name hinum, place, hin]
  · obtain ⟨⟨t₁, i⟩, hget⟩ := Option.isSome_iff_exists.mp (iget_isSome hroom rootdev found)
    obtain ⟨t₂, hput, hkeep⟩ := iput_of_iget img hget
    refine ⟨-1, t₂, dp, img, ?_, hd, hkeep, .inr ⟨rfl, rfl⟩⟩
    rw [dirlink, hd.dirlookup_of_some t hfound, hget, Option.map_some]
    dsimp only
    rw [hput]
    rfl

theorem find_place {es : List Dirent} {de : Dirent} {c₀ : List UInt8} (hnone : find es c₀ = none)
    (hde : ∀ c, de.Names c ↔ c = c₀) (c : List UInt8) :
    find (place es de) c = if c = c₀ then some de.inum else find es c := by
  unfold place
  split_ifs with hin hc hc
  · rw [hc, find_set_of_none hnone hin ((hde _).mpr rfl)]
  · refine find_set_of_not_names (fun h hn => hn.1 ?_) (mt (hde c).mp hc)
    exact of_decide_eq_true (List.findIdx_getElem (w := h))
  · rw [hc, find_append_singleton, hnone, if_pos ((hde _).mpr rfl)]
    rfl
  · rw [find_append_singleton, if_neg (mt (hde c).mp hc), Option.or_none]

theorem dirlink_updates_map (t : Itable) (img : FsImage) (dpnum : Nat) (dp : Dinode) (name : List UInt8)
    (inum : Nat) (hd : DirOk img dp) (hroom : ∃ j, (t j).ref = 0) (hinum : 0 < inum ∧ inum < 2 ^ 16) :
    ∃ ret t' dp' img', dirlink t img dpnum dp name inum = some (ret, t', dp', img') ∧ DirOk img' dp' ∧
      KeepsRefs t t' ∧
      ((ret = 0 ∧ find (entries img dp) (Path.cname name) = none ∧
          ∀ c, find (entries img' dp') c =
            if c = Path.cname name then some inum else find (entries img dp) c) ∨
        (ret = -1 ∧ ∀ c, find (entries img' dp') c = find (entries img dp) c)) := by
  obtain ⟨ret, t', dp', img', hlink, hd', hkeep, hcases⟩ := hd.dirlink_cases hroom dpnum name hinum.2
  refine ⟨ret, t', dp', img', hlink, hd', hkeep, ?_⟩
  rcases hcases with ⟨rfl, hnone, hent⟩ | ⟨rfl, hent⟩
  · exact .inl ⟨rfl, hnone, fun c => by rw [hent, find_place hnone (names_linked name hinum.1)]⟩
  · exact .inr ⟨rfl, fun c => by rw [hent]⟩

theorem dirlink_updates_map_rootDisk :
    DirOk rootDisk rootDir ∧ (∃ j, ((iinit rootDisk).itable j).ref = 0) ∧ (0 < 3 ∧ 3 < 2 ^ 16) ∧
      ∃ ret t' dp' img', dirlink (iinit rootDisk).itable rootDisk 1 rootDir [98] 3 = some (ret, t', dp', img') ∧
        DirOk img' dp' ∧ KeepsRefs (iinit rootDisk).itable t' ∧
        ((ret = 0 ∧ find (entries rootDisk rootDir) (Path.cname [98]) = none ∧
            ∀ c, find (entries img' dp') c =
              if c = Path.cname [98] then some 3 else find (entries rootDisk rootDir) c) ∨
          (ret = -1 ∧ ∀ c, find (entries img' dp') c = find (entries rootDisk rootDir) c)) :=
  ⟨dirOk_rootDir, ⟨0, rfl⟩, ⟨by decide, by decide⟩,
    dirlink_updates_map (iinit rootDisk).itable rootDisk 1 rootDir [98] 3 dirOk_rootDir ⟨0, rfl⟩
      ⟨by decide, by decide⟩⟩

/-! ### The names in use -/

/-- The names in use in a directory's entries, in order, as namecmp reads
them. -/
def names (es : List Dirent) : List (List UInt8) :=
  (es.filter fun de => de.inum ≠ 0).map fun de => Path.cname de.name

theorem names_nil : names [] = [] := rfl

theorem names_cons (de : Dirent) (es : List Dirent) :
    names (de :: es) = if de.inum ≠ 0 then Path.cname de.name :: names es else names es := by
  by_cases h : de.inum = 0 <;> simp [names, h]

theorem names_append (es es' : List Dirent) : names (es ++ es') = names es ++ names es' := by
  simp [names, List.filter_append]

theorem find_eq_none_iff {es : List Dirent} {c : List UInt8} : find es c = none ↔ c ∉ names es := by
  rw [find, Option.map_eq_none_iff, List.find?_eq_none, names, List.mem_map]
  constructor
  · rintro h ⟨de, hde, rfl⟩
    have hin := List.mem_filter.mp hde
    exact h de hin.1 (decide_eq_true ⟨of_decide_eq_true hin.2, rfl⟩)
  · intro h de hde hn
    have hn' := of_decide_eq_true hn
    exact h ⟨de, List.mem_filter.mpr ⟨hde, decide_eq_true hn'.1⟩, hn'.2⟩

theorem names_place {es : List Dirent} {de : Dirent} (hde : de.inum ≠ 0) :
    (names (place es de)).Perm (Path.cname de.name :: names es) := by
  unfold place
  split_ifs with hin
  · have hfree : es[freeSlot es].inum = 0 := of_decide_eq_true (List.findIdx_getElem (w := hin))
    rw [List.set_eq_take_append_cons_drop, if_pos hin]
    conv_rhs => rw [← List.take_append_drop (freeSlot es) es, List.drop_eq_getElem_cons hin]
    simp only [names_append, names_cons, if_pos hde, if_neg (not_not.mpr hfree)]
    exact List.perm_middle
  · rw [names_append, names_cons, if_pos hde, names_nil]
    exact List.perm_append_singleton _ _

/-! ### Runs of dirlink -/

/-- A dirlink request: a name, and an inode number as ialloc hands them out,
from 1, that fits the entry's ushort. -/
structure Link where
  name : List UInt8
  inum : Nat
  inum_pos : 0 < inum
  inum_lt : inum < 2 ^ 16

/-- What dirlinks into one directory change: the inode table, the disk and
the directory's inode. -/
structure DirState where
  itable : Itable
  img : FsImage
  dp : Dinode

/-- One dirlink into the directory whose inode number is `dpnum`. -/
def linkStep (dpnum : Nat) (s : DirState) (l : Link) : Option DirState :=
  (dirlink s.itable s.img dpnum s.dp l.name l.inum).map fun r => ⟨r.2.1, r.2.2.2, r.2.2.1⟩

/-- What a dirlink adds to the directory's map: its name and inum, when it
returns 0. -/
def linkLabel (dpnum : Nat) (s : DirState) (l : Link) : Option (List UInt8 × Nat) :=
  if (dirlink s.itable s.img dpnum s.dp l.name l.inum).map Prod.fst = some 0 then
    some (Path.cname l.name, l.inum)
  else none

/-- A directory as its lookups see it. -/
def view (s : DirState) : List UInt8 → Option Nat := find (entries s.img s.dp)

/-- The abstract directory, a partial map from names to inode numbers: a link
adds a name that is not in it. -/
def addName (m : List UInt8 → Option Nat) (l : List UInt8 × Nat) : Option (List UInt8 → Option Nat) :=
  if m l.1 = none then some (Function.update m l.1 (some l.2)) else none

/-- A kept directory in which no name is in use twice, and a free entry in
the inode table for dirlookup's iget. -/
structure LinkOk (s : DirState) : Prop where
  dirOk : DirOk s.img s.dp
  nodup : (names (entries s.img s.dp)).Nodup
  room : ∃ j, (s.itable j).ref = 0

open StepSystem in
/-- One dirlink from a kept directory with unique names: it does not panic,
keeps both and every reference to the table, and is the abstract link of its
label, or a stutter. -/
theorem LinkOk.linkStep (dpnum : Nat) {s : DirState} (hs : LinkOk s) (l : Link) :
    ∃ s', linkStep dpnum s l = some s' ∧ LinkOk s' ∧ KeepsRefs s.itable s'.itable ∧
      Simulates addName view (linkLabel dpnum s l) s s' := by
  obtain ⟨ret, t', dp', img', hlink, hd', hkeep, hcases⟩ :=
    hs.dirOk.dirlink_cases hs.room dpnum l.name l.inum_lt
  refine ⟨⟨t', img', dp'⟩, by rw [Dir.linkStep, hlink]; rfl, ?_⟩
  rcases hcases with ⟨rfl, hnone, hent⟩ | ⟨rfl, hent⟩
  · have hlab : linkLabel dpnum s l = some (Path.cname l.name, l.inum) := by
      rw [linkLabel, hlink]
      rfl
    have hnew : Path.cname (strncpy l.name Path.dirsiz) ∉ names (entries s.img s.dp) := by
      rw [cname_strncpy]
      exact find_eq_none_iff.mp hnone
    refine ⟨⟨hd', ?_, hkeep.free hs.room⟩, hkeep, ?_⟩
    · rw [hent]
      exact (names_place (Nat.pos_iff_ne_zero.mp l.inum_pos)).nodup_iff.mpr (List.nodup_cons.mpr ⟨hnew, hs.nodup⟩)
    · rw [hlab]
      show addName (view s) (Path.cname l.name, l.inum) = some (view ⟨t', img', dp'⟩)
      rw [addName]
      dsimp only
      rw [if_pos (show view s (Path.cname l.name) = none from hnone)]
      congr 1
      funext c
      show _ = find (entries img' dp') c
      rw [hent, find_place hnone (names_linked l.name l.inum_pos), Function.update_apply]
      rfl
  · have hlab : linkLabel dpnum s l = none := by
      rw [linkLabel, hlink]
      rfl
    refine ⟨⟨hd', by rw [hent]; exact hs.nodup, hkeep.free hs.room⟩, hkeep, ?_⟩
    rw [hlab]
    show view ⟨t', img', dp'⟩ = view s
    rw [view, hent]
    rfl

open StepSystem in
theorem dirlink_run_refines (dpnum : Nat) (s₀ : DirState) (ls : List Link) (hd : DirOk s₀.img s₀.dp)
    (hu : (names (entries s₀.img s₀.dp)).Nodup) (hroom : ∃ j, (s₀.itable j).ref = 0) :
    ∃ s, run (linkStep dpnum) s₀ ls = some s ∧ DirOk s.img s.dp ∧ (names (entries s.img s.dp)).Nodup ∧
      KeepsRefs s₀.itable s.itable ∧
      run addName (view s₀) (labels (linkStep dpnum) (linkLabel dpnum) s₀ ls) = some (view s) := by
  have h0 : LinkOk s₀ := ⟨hd, hu, hroom⟩
  obtain ⟨s, hrun, -⟩ := run_of_suffix_invariant (P := fun _ s => LinkOk s)
    (fun l _ s hs => (hs.linkStep dpnum l).imp fun _ h => ⟨h.1, h.2.1⟩) ls _ h0
  have hstep : ∀ s l s', LinkOk s ∧ KeepsRefs s₀.itable s.itable → Dir.linkStep dpnum s l = some s' →
      (LinkOk s' ∧ KeepsRefs s₀.itable s'.itable) ∧ Simulates addName view (linkLabel dpnum s l) s s' := by
    rintro s l s' ⟨hs, hkeep⟩ h
    obtain ⟨s'', h', hok, hkeep', hsim⟩ := hs.linkStep dpnum l
    rw [h] at h'
    cases h'
    exact ⟨⟨hok, hkeep.trans hkeep'⟩, hsim⟩
  obtain ⟨⟨hok, hkeep⟩, habs⟩ := run_simulates (fun s l s' hs h => (hstep s l s' hs h).1)
    (fun s l s' hs h => (hstep s l s' hs h).2) ⟨h0, KeepsRefs.refl _⟩ hrun
  exact ⟨s, hrun, hok.dirOk, hok.nodup, hkeep, habs⟩

theorem nodup_rootDir : (names (entries rootDisk rootDir)).Nodup := by decide +kernel

/-- Two links into the root directory: "b" is new, "a" is there already. -/
def linkRun : List Link := [⟨[98], 3, by decide, by decide⟩, ⟨[97], 4, by decide, by decide⟩]

open StepSystem in
theorem dirlink_run_refines_rootDisk :
    DirOk rootDisk rootDir ∧ (names (entries rootDisk rootDir)).Nodup ∧
      (∃ j, ((iinit rootDisk).itable j).ref = 0) ∧
      ∃ s, run (linkStep 1) ⟨(iinit rootDisk).itable, rootDisk, rootDir⟩ linkRun = some s ∧
        DirOk s.img s.dp ∧ (names (entries s.img s.dp)).Nodup ∧ KeepsRefs (iinit rootDisk).itable s.itable ∧
        run addName (view ⟨(iinit rootDisk).itable, rootDisk, rootDir⟩)
          (labels (linkStep 1) (linkLabel 1) ⟨(iinit rootDisk).itable, rootDisk, rootDir⟩ linkRun) =
            some (view s) :=
  ⟨dirOk_rootDir, nodup_rootDir, ⟨0, rfl⟩,
    dirlink_run_refines 1 ⟨(iinit rootDisk).itable, rootDisk, rootDir⟩ linkRun dirOk_rootDir nodup_rootDir
      ⟨0, rfl⟩⟩

/-! ### sys_unlink -/

theorem entries_congr {img img' : FsImage} {dp dp' : Dinode} (hblock : img'.block = img.block)
    (haddrs : dp'.addrs = dp.addrs) (hsize : dp'.size = dp.size) : entries img' dp' = entries img dp := by
  have hslot : slotAddr img' dp' = slotAddr img dp := by
    funext s
    cases s <;> simp [slotAddr, hblock, haddrs]
  simp only [entries, entryAt, fileByte, fileBlock, hslot, hblock, hsize]

theorem DirOk.congr {img img' : FsImage} {dp dp' : Dinode} (hd : DirOk img dp)
    (himg : img'.sb = img.sb ∧ img'.bitmap = img.bitmap ∧ img'.block = img.block)
    (hdp : dp'.type = dp.type ∧ dp'.size = dp.size ∧ dp'.addrs = dp.addrs) : DirOk img' dp' := by
  obtain ⟨hsb, hbitmap, hblock⟩ := himg
  obtain ⟨htype, hsize, haddrs⟩ := hdp
  have hslot : slotAddr img' dp' = slotAddr img dp := by
    funext s
    cases s <;> simp [slotAddr, hblock, haddrs]
  refine ⟨?_, ⟨?_, ?_, hsb ▸ hd.sound.fits⟩, ?_, hsize ▸ hd.aligned, hsize ▸ hd.bound⟩
  · rw [htype]
    exact hd.dir
  · rw [hslot]
    exact hd.sound.inj
  · rw [hslot, hbitmap]
    exact hd.sound.used
  · rw [hslot, hsize]
    exact hd.mapped

theorem DirOk.isdirempty_eq {img : FsImage} {dp : Dinode} (hd : DirOk img dp) :
    isdirempty img dp = some (decide (∀ de ∈ (entries img dp).drop 2, de.inum = 0), dp, img) := by
  by_cases hsmall : 2 * direntSize ≤ dp.size
  · have hscan := hd.entryScan_eq (fun de => de.inum ≠ 0) hsmall
      (show dp.size / direntSize - 2 < dp.size + 1 by have := Nat.div_le_self dp.size direntSize; omega)
    rw [isdirempty, hscan, Option.map_some]
    dsimp only
    rw [firstAt_used_isNone]
  · have hend : dp.size / direntSize ≤ 2 := by unfold direntSize at *; omega
    rw [isdirempty, entryScan, if_neg (by omega), Option.map_some, drop_entries_of_le hend]
    simp

/-- The inode an entry names, as sys_unlink needs it: allocated, linked, and
kept if it is a directory. -/
structure TargetOk (img : FsImage) (ip : Dinode) : Prop where
  typed : ip.type ≠ 0
  linked : 1 ≤ ip.nlink
  dirOk : ip.type = tDir → DirOk img ip

theorem TargetOk.check_eq {img : FsImage} {ip : Dinode} (h : TargetOk img ip) :
    (if ip.type = tDir then isdirempty img ip else some (true, ip, img)) =
      some (decide (ip.type = tDir → ∀ de ∈ (entries img ip).drop 2, de.inum = 0), ip, img) := by
  by_cases hdir : ip.type = tDir
  · rw [if_pos hdir, (h.dirOk hdir).isdirempty_eq]
    simp [hdir]
  · rw [if_neg hdir]
    simp [hdir]

theorem ofBytes_cleared : (Dirent.ofBytes (List.replicate direntSize 0)).inum = 0 := rfl

theorem DirOk.of_bitmap {img img' : FsImage} {dp : Dinode} (hd : DirOk img dp) (hsb : img'.sb = img.sb)
    (hblock : img'.block = img.block) (hbm : ∀ a, Owns img dp a → img'.bitmap a = true) : DirOk img' dp := by
  have hslot : slotAddr img' dp = slotAddr img dp := slotAddr_of_addrs hblock rfl
  refine ⟨hd.dir, ⟨?_, fun s hs => ?_, hsb ▸ hd.sound.fits⟩, ?_, hd.aligned, hd.bound⟩
  · rw [hslot]
    exact hd.sound.inj
  · rw [hslot] at hs ⊢
    exact hbm _ ⟨hs, s, rfl⟩
  · rw [hslot]
    exact hd.mapped

theorem DirOk.used_of_owns {img : FsImage} {dp : Dinode} (hd : DirOk img dp) {a : Nat} (ha : Owns img dp a) :
    img.bitmap a = true := by
  obtain ⟨ha0, s, rfl⟩ := ha
  exact hd.sound.used s ha0

/-- sys_unlink's last steps on its target, a read entry of the table whose
copy holds a sound map and no block of the kept directory: the target goes
back to the disk one link fewer and is put.  The directory stays kept with
its entries, and the target is freed when that was its last link and the
entry's last reference. -/
theorem DirOk.iput_target {img : FsImage} {dp : Dinode} (hd : DirOk img dp) {t : Itable} {i : Fin ninode}
    (hmap : MapOk img (t i).din) (hty : (t i).din.type ≠ 0) (hdisj : ∀ a, Owns img dp a → ¬Owns img (t i).din a) :
    ∃ t' img', iput (Function.update t i { (t i) with din := { (t i).din with nlink := (t i).din.nlink - 1 } })
        (iupdate img { (t i) with din := { (t i).din with nlink := (t i).din.nlink - 1 } }) i = some (t', img') ∧
      DirOk img' dp ∧ entries img' dp = entries img dp ∧
      (img'.dinode (t i).inum).nlink = (t i).din.nlink - 1 ∧
      ((img'.dinode (t i).inum).type = 0 ↔ (t i).ref = 1 ∧ (t i).valid = true ∧ (t i).din.nlink - 1 = 0) ∧
      (t' i).ref = (t i).ref - 1 ∧ ∀ j, j ≠ i → t' j = t j := by
  set e : Inode := { (t i) with din := { (t i).din with nlink := (t i).din.nlink - 1 } } with he
  have hti : (Function.update t i e) i = e := Function.update_self _ _ _
  have hmap₃ : MapOk (iupdate img e) ((Function.update t i e) i).din := by
    rw [hti]
    exact (MapOk.of_addrs (iupdate img e) e.din hmap rfl rfl rfl rfl).1
  obtain ⟨t', img', hput, href, hframe, hsb, hblock, hbm, -, hinum⟩ := iput_spec hmap₃
  rw [hti] at href hbm hinum
  have hslot : slotAddr (iupdate img e) e.din = slotAddr img (t i).din := slotAddr_of_addrs rfl rfl
  have hown : Owns (iupdate img e) e.din = Owns img (t i).din := by
    unfold Owns
    rw [hslot]
  refine ⟨t', img', hput, ?_, entries_congr hblock rfl rfl, ?_, ?_, href, fun j hj => ?_⟩
  · -- the directory's blocks are not the target's, so they stay marked
    refine hd.of_bitmap hsb hblock fun a ha => hbm a (hd.used_of_owns ha) ?_
    rw [hown]
    exact hdisj a ha
  · rw [hinum]
    split_ifs <;> simp [iupdate, he]
  · rw [hinum]
    split_ifs with hlast
    · exact ⟨fun _ => hlast, fun _ => rfl⟩
    · simp only [iupdate, Function.update_self]
      exact ⟨fun h => absurd h hty, fun h => absurd h hlast⟩
  · rw [hframe j hj]
    exact Function.update_of_ne hj _ _

/-- unlinkAt over entry `k` of a kept directory, its target a read entry of
the table for an allocated inode other than the directory, as the disk holds
it: it clears that entry, keeps the directory, leaves the target one link
fewer, and frees it when that was its last link and the entry's last
reference. -/
theorem DirOk.unlinkAt_eq {img : FsImage} {dp : Dinode} (hd : DirOk img dp) (hfs : FsOk img) {dpnum : Nat}
    (hdp : img.dinode dpnum = dp) {t : Itable} {i : Fin ninode} (hv : (t i).valid = true)
    (hdin : (t i).din = img.dinode (t i).inum) (hne : (t i).inum ≠ dpnum) (hty : (t i).din.type ≠ 0)
    {k : Nat} (hk : k < dp.size / direntSize) :
    ∃ t' dp' img', unlinkAt t img dpnum dp (k * direntSize) i = some (0, t', dp', img') ∧ DirOk img' dp' ∧
      entries img' dp' = (entries img dp).set k (Dirent.ofBytes (List.replicate direntSize 0)) ∧
      (img'.dinode (t i).inum).nlink = (t i).din.nlink - 1 ∧
      ((img'.dinode (t i).inum).type = 0 ↔ (t i).ref = 1 ∧ (t i).din.nlink - 1 = 0) ∧
      (t' i).ref = (t i).ref - 1 ∧ ∀ j, j ≠ i → t' j = t j := by
  have hsize := hd.aligned
  have hlt : k * direntSize < dp.size := by unfold direntSize at *; omega
  have halign : k * direntSize % direntSize = 0 := Nat.mul_mod_left _ _
  have hlen : (List.replicate direntSize (0 : UInt8)).length = direntSize := List.length_replicate
  have ha : slotAddr img dp (slotOf (k * direntSize / bsize)) ≠ 0 := hd.mapped _ hlt
  set a := slotAddr img dp (slotOf (k * direntSize / bsize))
  set blk := (img.block a).copyIn (k * direntSize % bsize) (List.replicate direntSize 0)
  have hw := hd.writei_in_place dpnum hlt halign hlen
  obtain ⟨hd₁, hcases⟩ := hd.writei_entry hlt.le halign hlen hw
  set img₁ : FsImage := { img.setBlock a blk with dinode := Function.update img.dinode dpnum dp }
  have hent₁ : entries img₁ dp = (entries img dp).set k (Dirent.ofBytes (List.replicate direntSize 0)) := by
    rcases hcases with ⟨hne, -⟩ | ⟨-, hent⟩
    · exact absurd rfl hne
    · rw [hent, if_pos hlt, Nat.mul_div_cancel _ (by decide)]
  -- the block written is one of the directory's, so none the target holds
  have hdisk : ∀ b, Owns img dp b → ¬Owns img (t i).din b := by
    intro b hb
    rw [hdin]
    refine hfs.disjoint dpnum _ b (Ne.symm hne) (by rw [hdp, hd.dir]; decide) (hdin ▸ hty) ?_
    rw [hdp]
    exact hb
  have hmap : MapOk img (t i).din := hdin ▸ hfs.mapOk _ (hdin ▸ hty)
  obtain ⟨hmap₁, hslot₁⟩ := mapOk_setBlock_foreign hmap (hdisk a ⟨ha, _, rfl⟩) blk
  have hslot : slotAddr img₁ dp = slotAddr img dp :=
    (slotAddr_of_addrs rfl rfl).trans (hd.sound.setBlock ha blk).2.2
  -- after any change of the inodes on top of img₁, the two still hold no block in common
  have hlast : ∀ (img₂ : FsImage) (dp₂ : Dinode), img₂.sb = img.sb → img₂.block = img₁.block →
      img₂.bitmap = img.bitmap → dp₂.addrs = dp.addrs → DirOk img₂ dp₂ →
      ∃ t' img', iput (Function.update t i { (t i) with din := { (t i).din with nlink := (t i).din.nlink - 1 } })
          (iupdate img₂ { (t i) with din := { (t i).din with nlink := (t i).din.nlink - 1 } }) i =
            some (t', img') ∧ DirOk img' dp₂ ∧ entries img' dp₂ = entries img₂ dp₂ ∧
        (img'.dinode (t i).inum).nlink = (t i).din.nlink - 1 ∧
        ((img'.dinode (t i).inum).type = 0 ↔ (t i).ref = 1 ∧ (t i).din.nlink - 1 = 0) ∧
        (t' i).ref = (t i).ref - 1 ∧ ∀ j, j ≠ i → t' j = t j := by
    intro img₂ dp₂ hsb hblock hbm haddrs hd₂
    have hmap₂ : MapOk img₂ (t i).din := (MapOk.of_addrs img₂ (t i).din hmap₁ hblock hbm hsb rfl).1
    have hslot₂ : slotAddr img₂ (t i).din = slotAddr img (t i).din := by
      rw [slotAddr_of_addrs hblock rfl, ← hslot₁]
      exact slotAddr_of_addrs rfl rfl
    have hdisj : ∀ b, Owns img₂ dp₂ b → ¬Owns img₂ (t i).din b := by
      intro b
      unfold Owns
      rw [hslot₂, slotAddr_of_addrs hblock haddrs, hslot]
      exact hdisk b
    obtain ⟨t', img', hput, hd', hent, hnl, htype, href, hframe⟩ := hd₂.iput_target hmap₂ hty hdisj
    exact ⟨t', img', hput, hd', hent, hnl, by rw [htype, hv]; simp, href, hframe⟩
  rw [unlinkAt, hw]
  dsimp only
  rw [if_neg (not_not.mpr rfl)]
  by_cases hdir : (t i).din.type = tDir
  · -- the parent loses the link the target's ".." held
    rw [if_pos hdir]
    set dp₂ : Dinode := { dp with nlink := dp.nlink - 1 }
    obtain ⟨t', img', hput, hd', hent, hrest⟩ :=
      hlast { img₁ with dinode := Function.update img₁.dinode dpnum dp₂ } dp₂ rfl rfl rfl rfl
        (hd₁.congr ⟨rfl, rfl, rfl⟩ ⟨rfl, rfl, rfl⟩)
    refine ⟨t', _, img', by rw [hput]; rfl, hd', ?_, hrest⟩
    rw [hent, ← hent₁]
    exact entries_congr rfl rfl rfl
  · rw [if_neg hdir]
    obtain ⟨t', img', hput, hd', hent, hrest⟩ := hlast img₁ dp rfl rfl rfl rfl hd₁
    exact ⟨t', _, img', by rw [hput]; rfl, hd', hent.trans hent₁, hrest⟩

theorem names_set_free {es : List Dirent} {k : Nat} (hk : k < es.length) (hused : es[k].inum ≠ 0)
    {de : Dirent} (hde : de.inum = 0) :
    (names es).Perm (Path.cname es[k].name :: names (es.set k de)) := by
  rw [List.set_eq_take_append_cons_drop, if_pos hk]
  conv_lhs => rw [← List.take_append_drop k es, List.drop_eq_getElem_cons hk]
  simp only [names_append, names_cons, if_pos hused, if_neg (not_not.mpr hde)]
  exact List.perm_middle

theorem find_set_free {es : List Dirent} {k : Nat} (hk : k < es.length) (hnd : (names es).Nodup)
    {c₀ : List UInt8} (hk₀ : es[k].Names c₀) {de : Dirent} (hde : de.inum = 0) (c : List UInt8) :
    find (es.set k de) c = if c = c₀ then none else find es c := by
  have hperm := names_set_free hk hk₀.1 hde
  rw [hk₀.2] at hperm
  split_ifs with hc
  · -- no other entry holds c₀, the names being unique
    rw [hc, find_eq_none_iff]
    exact (List.nodup_cons.mp (hperm.nodup_iff.mp hnd)).1
  · exact find_set_of_not_names (fun _ hn => hc (hn.2.symm.trans hk₀.2)) (fun hn => hn.1 hde)

/-- sys_unlink once dirlookup has found the name at `off`, naming an
allocated, linked inode that iget and ilock have read: isdirempty decides
between unlinkAt and putting the target back. -/
theorem DirOk.sysUnlink_of_found {img : FsImage} {dp : Dinode} (hd : DirOk img dp) {t : Itable}
    {name : List UInt8} (hdot : ¬(namecmp name dot = 0 ∨ namecmp name dotdot = 0)) {inum off : Nat}
    (hfound : findAt (entries img dp) (Path.cname name) 0 = some (inum, off))
    (ht : TargetOk img (img.dinode inum)) {t₁ t₂ : Itable} {i : Fin ninode}
    (hget : iget t rootdev inum = some (t₁, i)) (hlock : ilock t₁ img i = some t₂)
    (hdin : (t₂ i).din = img.dinode inum) {dpnum : Nat} :
    sysUnlink t img dpnum dp name =
      if (img.dinode inum).type = tDir → ∀ de ∈ (entries img (img.dinode inum)).drop 2, de.inum = 0 then
        unlinkAt t₂ img dpnum dp off i
      else (iput t₂ img i).map fun r => (-1, r.1, dp, r.2) := by
  have hnl : ¬(t₂ i).din.nlink < 1 := by
    have := ht.linked
    rw [hdin]
    omega
  have hsame : Function.update t₂ i { (t₂ i) with din := img.dinode inum } = t₂ := by
    rw [← hdin]
    exact Function.update_eq_self i t₂
  rw [sysUnlink, if_neg hdot, hd.dirlookup_of_some t hfound, hget, Option.map_some]
  dsimp only
  rw [hlock]
  dsimp only
  rw [if_neg hnl, hdin, ht.check_eq]
  split_ifs with hempty
  · rw [decide_eq_true hempty]
    dsimp only
    rw [hsame]
  · rw [decide_eq_false hempty]
    dsimp only
    rw [hsame]

theorem sysUnlink_removes_name (c : Icache) (dpnum : Nat) (dp : Dinode) (name : List UInt8)
    (hc : CacheOk c) (hroom : ∃ j, c.held j = 0) (hdp : c.img.dinode dpnum = dp) (hd : DirOk c.img dp)
    (hu : (names (entries c.img dp)).Nodup)
    (ht : ∀ inum, find (entries c.img dp) (Path.cname name) = some inum →
      inum ≠ dpnum ∧ TargetOk c.img (c.img.dinode inum)) :
    ∃ ret t' dp' img', sysUnlink c.itable c.img dpnum dp name = some (ret, t', dp', img') ∧
      (∀ j, (t' j).ref = (c.itable j).ref) ∧
      ((ret = -1 ∧ dp' = dp ∧ img' = c.img ∧
          (Path.cname name = Path.cname dot ∨ Path.cname name = Path.cname dotdot ∨
            find (entries c.img dp) (Path.cname name) = none ∨
            ∃ inum, find (entries c.img dp) (Path.cname name) = some inum ∧ (c.img.dinode inum).type = tDir ∧
              ∃ de ∈ (entries c.img (c.img.dinode inum)).drop 2, de.inum ≠ 0)) ∨
        (ret = 0 ∧ Path.cname name ≠ Path.cname dot ∧ Path.cname name ≠ Path.cname dotdot ∧
          DirOk img' dp' ∧ (names (entries img' dp')).Nodup ∧
          ∃ inum, find (entries c.img dp) (Path.cname name) = some inum ∧
            ((c.img.dinode inum).type = tDir →
              ∀ de ∈ (entries c.img (c.img.dinode inum)).drop 2, de.inum = 0) ∧
            (img'.dinode inum).nlink = (c.img.dinode inum).nlink - 1 ∧
            ((img'.dinode inum).type = 0 ↔
              (c.img.dinode inum).nlink = 1 ∧ ∀ j, 0 < c.held j → (c.itable j).inum ≠ inum) ∧
            ∀ n, find (entries img' dp') n = if n = Path.cname name then none else find (entries c.img dp) n)) := by
  by_cases hdot : namecmp name dot = 0 ∨ namecmp name dotdot = 0
  · refine ⟨-1, c.itable, dp, c.img, by rw [sysUnlink, if_pos hdot], fun _ => rfl, .inl ⟨rfl, rfl, rfl, ?_⟩⟩
    rcases hdot with h | h
    · exact .inl ((namecmp_eq_zero_iff _ _).mp h)
    · exact .inr (.inl ((namecmp_eq_zero_iff _ _).mp h))
  have hndot : Path.cname name ≠ Path.cname dot ∧ Path.cname name ≠ Path.cname dotdot := by
    rw [not_or, namecmp_eq_zero_iff, namecmp_eq_zero_iff] at hdot
    exact hdot
  have hr := findAt_map_fst (entries c.img dp) (Path.cname name) 0
  rcases hfound : findAt (entries c.img dp) (Path.cname name) 0 with _ | ⟨inum, off⟩
  · refine ⟨-1, c.itable, dp, c.img, by rw [sysUnlink, if_neg hdot, hd.dirlookup_of_none c.itable hfound],
      fun _ => rfl, .inl ⟨rfl, rfl, rfl, .inr (.inr (.inl (by rw [← hr, hfound]; rfl)))⟩⟩
  -- entry k holds it, naming inode inum; iget takes the inode and ilock reads it
  have hfind : find (entries c.img dp) (Path.cname name) = some inum := by rw [← hr, hfound]; rfl
  obtain ⟨k, hk, hoff, hnk, -, -⟩ := findAt_eq_some hfound
  rw [Nat.zero_add] at hoff
  subst hoff
  obtain ⟨hne, ht'⟩ := ht inum hfind
  have hfree : ∃ j, (c.itable j).ref = 0 := by
    obtain ⟨j, hj⟩ := hroom
    exact ⟨j, by rw [hc.ref_eq j, hj]; rfl⟩
  obtain ⟨⟨t₁, i⟩, hget⟩ := Option.isSome_iff_exists.mp (iget_isSome hfree rootdev inum)
  obtain ⟨t₂, hlock, hc₂, hnum, hv, hdin⟩ := hc.iget_ilock hget ht'.typed
  have href₂ : (t₂ i).ref = c.held i + 1 := by
    rw [hc₂.ref_eq i]
    simp [hold]
  rw [hd.sysUnlink_of_found hdot hfound ht' hget hlock hdin]
  by_cases hempty : (c.img.dinode inum).type = tDir →
      ∀ de ∈ (entries c.img (c.img.dinode inum)).drop 2, de.inum = 0
  · rw [if_pos hempty]
    obtain ⟨t', dp', img', hul, hd', hent, hnlink, htype, hi, hj⟩ :=
      hd.unlinkAt_eq hc.fsOk hdp hv (by rw [hnum]; exact hdin) (by rw [hnum]; exact hne)
        (by rw [hdin]; exact ht'.typed) (by rwa [length_entries] at hk)
    rw [hnum, hdin] at hnlink htype
    refine ⟨0, t', dp', img', hul, hc.ref_of_put hc₂ hi hj, .inr ⟨rfl, hndot.1, hndot.2, hd', ?_, inum, hfind,
      hempty, hnlink, ?_, fun n => ?_⟩⟩
    · rw [hent]
      have hperm := names_set_free hk hnk.1 ofBytes_cleared
      exact (List.nodup_cons.mp (hperm.nodup_iff.mp hu)).2
    · -- freed exactly when that was its last link and no one else held it
      rw [htype, href₂, ← hc.held_eq_zero_of_iget hget]
      have := ht'.linked
      omega
    · rw [hent, find_set_free hk hu hnk ofBytes_cleared]
  · rw [if_neg hempty, iput_of_not_last (by rw [hdin]; have := ht'.linked; omega), Option.map_some]
    refine ⟨-1, _, dp, c.img, rfl, hc.ref_of_put hc₂ (by simp) fun j hj => Function.update_of_ne hj _ _,
      .inl ⟨rfl, rfl, rfl, .inr (.inr (.inr ⟨inum, hfind, ?_⟩))⟩⟩
    obtain ⟨hdir, hne⟩ := Classical.not_imp.mp hempty
    obtain ⟨de, hde, hne⟩ := not_forall₂.mp hne
    exact ⟨hdir, de, hde, hne⟩

theorem find_rootDir : find (entries rootDisk rootDir) (Path.cname [97]) = some 2 := by decide +kernel

theorem targetOk_rootDisk : ∀ inum, find (entries rootDisk rootDir) (Path.cname [97]) = some inum →
    inum ≠ 1 ∧ TargetOk rootDisk (rootDisk.dinode inum) := by
  intro inum h
  rw [find_rootDir, Option.some.injEq] at h
  subst h
  exact ⟨by decide, ⟨by decide, by decide, fun h => absurd h (by decide)⟩⟩

theorem sysUnlink_removes_name_rootDisk :
    CacheOk (iinit rootDisk) ∧ (∃ j, (iinit rootDisk).held j = 0) ∧ (iinit rootDisk).img.dinode 1 = rootDir ∧
      DirOk (iinit rootDisk).img rootDir ∧ (names (entries (iinit rootDisk).img rootDir)).Nodup ∧
      (∀ inum, find (entries (iinit rootDisk).img rootDir) (Path.cname [97]) = some inum →
        inum ≠ 1 ∧ TargetOk (iinit rootDisk).img ((iinit rootDisk).img.dinode inum)) ∧
      ∃ ret t' dp' img', sysUnlink (iinit rootDisk).itable (iinit rootDisk).img 1 rootDir [97] =
          some (ret, t', dp', img') ∧
        (∀ j, (t' j).ref = ((iinit rootDisk).itable j).ref) ∧
        ((ret = -1 ∧ dp' = rootDir ∧ img' = (iinit rootDisk).img ∧
            (Path.cname [97] = Path.cname dot ∨ Path.cname [97] = Path.cname dotdot ∨
              find (entries (iinit rootDisk).img rootDir) (Path.cname [97]) = none ∨
              ∃ inum, find (entries (iinit rootDisk).img rootDir) (Path.cname [97]) = some inum ∧
                ((iinit rootDisk).img.dinode inum).type = tDir ∧
                ∃ de ∈ (entries (iinit rootDisk).img ((iinit rootDisk).img.dinode inum)).drop 2, de.inum ≠ 0)) ∨
          (ret = 0 ∧ Path.cname [97] ≠ Path.cname dot ∧ Path.cname [97] ≠ Path.cname dotdot ∧
            DirOk img' dp' ∧ (names (entries img' dp')).Nodup ∧
            ∃ inum, find (entries (iinit rootDisk).img rootDir) (Path.cname [97]) = some inum ∧
              (((iinit rootDisk).img.dinode inum).type = tDir →
                ∀ de ∈ (entries (iinit rootDisk).img ((iinit rootDisk).img.dinode inum)).drop 2, de.inum = 0) ∧
              (img'.dinode inum).nlink = ((iinit rootDisk).img.dinode inum).nlink - 1 ∧
              ((img'.dinode inum).type = 0 ↔ ((iinit rootDisk).img.dinode inum).nlink = 1 ∧
                ∀ j, 0 < (iinit rootDisk).held j → ((iinit rootDisk).itable j).inum ≠ inum) ∧
              ∀ n, find (entries img' dp') n =
                if n = Path.cname [97] then none else find (entries (iinit rootDisk).img rootDir) n)) :=
  ⟨cacheOk_iinit fsOk_rootDisk, ⟨0, rfl⟩, rfl, dirOk_rootDir, nodup_rootDir, targetOk_rootDisk,
    sysUnlink_removes_name (iinit rootDisk) 1 rootDir [97] (cacheOk_iinit fsOk_rootDisk) ⟨0, rfl⟩ rfl
      dirOk_rootDir nodup_rootDir targetOk_rootDisk⟩

/-! ### Path lookup -/

/-- A directory of the disk as a map from names: the inode number that the
entries of inode `inum` hold under the name. -/
def lookOn (img : FsImage) (inum : Nat) (n : List UInt8) : Option Nat := find (entries img (img.dinode inum)) n

theorem dirlookup_lookOn (t : Itable) (img : FsImage) (inum : Nat) (name : List UInt8)
    (hd : DirOk img (img.dinode inum)) {r : Option (Fin ninode × Nat) × Itable × Dinode × FsImage}
    (h : dirlookup t img (img.dinode inum) name = some r) :
    r.1.map (fun x => (r.2.1 x.1).inum) = lookOn img inum (Path.cname name) := by
  have hr := findAt_map_fst (entries img (img.dinode inum)) (Path.cname name) 0
  rw [lookOn, ← hr]
  rcases hfound : findAt (entries img (img.dinode inum)) (Path.cname name) 0 with _ | ⟨n, off⟩
  · rw [hd.dirlookup_of_none t hfound, Option.some.injEq] at h
    subst h
    rfl
  · rw [hd.dirlookup_of_some t hfound] at h
    obtain ⟨⟨t', i⟩, hget, rfl⟩ := Option.map_eq_some_iff.mp h
    exact congrArg some (iget_entry hget).1

/-- The test namex makes of an inode of the disk, ip->type == T_DIR. -/
def isDirOn (img : FsImage) (inum : Nat) : Bool := decide ((img.dinode inum).type = tDir)

/-- The lookup namex makes with dirlookup(ip, name, 0) over the inode table:
the inode number of the entry it returns; none where it panics or finds
nothing. -/
def dirLook (t : Itable) (img : FsImage) (inum : Nat) (name : List UInt8) : Option Nat :=
  (dirlookup t img (img.dinode inum) name).bind fun r => r.1.map fun x => (r.2.1 x.1).inum

theorem DirOk.dirLook_eq {img : FsImage} {inum : Nat} (hd : DirOk img (img.dinode inum)) {t : Itable}
    (hroom : ∃ j, (t j).ref = 0) (name : List UInt8) :
    dirLook t img inum name = lookOn img inum (Path.cname name) := by
  obtain ⟨r, hr⟩ : ∃ r, dirlookup t img (img.dinode inum) name = some r := by
    rcases hfound : findAt (entries img (img.dinode inum)) (Path.cname name) 0 with _ | ⟨n, off⟩
    · exact ⟨_, hd.dirlookup_of_none t hfound⟩
    · obtain ⟨x, hx⟩ := Option.isSome_iff_exists.mp (iget_isSome hroom rootdev n)
      exact ⟨_, by rw [hd.dirlookup_of_some t hfound, hx]; rfl⟩
  rw [dirLook, hr, Option.bind_some]
  exact dirlookup_lookOn t img inum name hd hr

/-- namei on a disk whose directories are kept, each lookup a dirlookup over
an inode table with a free entry: it resolves the path's components one
after another through the directories' entries. -/
theorem namei_dirlookup (t : Itable) (img : FsImage) (hroom : ∃ j, (t j).ref = 0)
    (hdirs : ∀ inum, isDirOn img inum = true → DirOk img (img.dinode inum)) (root cwd : Nat)
    (path : List UInt8) (hnul : 0 ∉ path) :
    Path.namei (isDirOn img) (dirLook t img) root cwd path =
      Path.resolve (isDirOn img) (fun inum n => lookOn img inum (Path.cname n))
        (if path.head? = some 47 then root else cwd) (Path.components path) := by
  rw [Path.namei, Path.namex, Path.namexLoop_false _ _ _ _ _ _ hnul (Nat.lt_succ_self _)]
  exact Path.resolve_congr _ _ (fun inum n hdir => (hdirs inum hdir).dirLook_eq hroom n) _ _

example : Path.namei (isDirOn rootDisk) (dirLook (iinit rootDisk).itable rootDisk) 1 1 [47, 97] = some 2 := by
  decide +kernel

end Xv6Mlfq.Dir
