import Mathlib.Algebra.BigOperators.Group.Finset.Piecewise
import Mathlib.Data.List.GetD
import Xv6Mlfq.FileView
import Xv6Mlfq.Log
import Xv6Mlfq.ProcData

/-!
One struct file of type FD_INODE shared by several processes, as fork and dup
leave it, under fileread and filewrite of file.c. f->off is read and advanced
only while the inode's sleeplock is held, so each readi and each writei chunk
is one step; filewrite takes the lock once per chunk of at most
((MAXOPBLOCKS-1-1-2)/2)*BSIZE bytes, and other processes' calls run between
its chunks.

Every read and every chunk starts where the one before it ended, the bytes the
calls moved form one stream laid down from the first offset, and reads return
bytes of the file as it was. When the shared offset starts at the end of the
file, reads return nothing, and once every filewrite has returned its n the
file has grown by the sum of the n's, its new bytes being the chunks in the
order the lock was taken.
-/

namespace Xv6Mlfq.File

open StepSystem
open Xv6Mlfq.Fs (FsImage Dinode MapOk fileByte)

/-- max in filewrite: ((MAXOPBLOCKS-1-1-2) / 2) * BSIZE, the most bytes one
transaction writes. -/
def maxChunk : Nat := ((Log.maxOpBlocks - 1 - 1 - 2) / 2) * Fs.bsize

/-- What happened to the shared file, in the order the inode lock was taken: a
readi by process p at offset off, a writei chunk of p at off, and the return of
p's filewrite of n bytes with ret, having written written bytes. -/
inductive Event
  | read (p : ProcData.Slot) (off : Nat) (bytes : List UInt8)
  | wrote (p : ProcData.Slot) (off : Nat) (bytes : List UInt8)
  | returned (p : ProcData.Slot) (n : Nat) (ret : Int) (written : Nat)
  deriving DecidableEq

/-- The shared file: the disk, the inode and its in-memory copy, f->off, and for
each process inside filewrite its source bytes and its i. -/
structure FileSys where
  img : FsImage
  inum : Nat
  ip : Dinode
  off : Nat
  calls : ProcData.Slot → Option (List UInt8 × Nat)
  events : List Event

/-- fileread(f, addr, n) by process p: readi at f->off under the inode lock,
and f->off += r when r > 0. -/
def fileread (s : FileSys) (p : ProcData.Slot) (n : Nat) (copyout : Nat → Nat → Bool) :
    Option FileSys :=
  if s.calls p = none then
    (Fs.readi copyout s.img s.ip s.off n).map fun r =>
      let t := if 0 < r.ret then r.ret.toNat else 0
      { s with img := r.img, ip := r.ip, off := s.off + t,
               events := s.events ++ [.read p s.off (r.out.take t)] }
  else none

/-- ret = (i == n ? n : -1) on leaving filewrite's loop. -/
def filewriteRet (n i : Nat) : Int := if i = n then n else -1

/-- filewrite by p returns ret for its n bytes, having written written. -/
def FileSys.finish (s : FileSys) (p : ProcData.Slot) (n : Nat) (ret : Int) (written : Nat) :
    FileSys :=
  { s with calls := Function.update s.calls p none,
           events := s.events ++ [.returned p n ret written] }

/-- filewrite(f, addr, n) entered by p with the n bytes src at addr: with
n == 0 the loop does not run and it returns at once. -/
def filewriteStart (s : FileSys) (p : ProcData.Slot) (src : List UInt8) : Option FileSys :=
  if s.calls p = none then
    if src.length = 0 then some (s.finish p 0 (filewriteRet 0 0) 0)
    else some { s with calls := Function.update s.calls p (some (src, 0)) }
  else none

/-- One pass of filewrite's loop by p, begin_op to end_op: writei of the next
n1 = min(n - i, max) bytes at f->off under the inode lock, f->off += r when
r > 0; then break when r != n1, or i += r and leave the loop when i reaches n. -/
def filewriteChunk (s : FileSys) (p : ProcData.Slot) (copyin : Nat → Nat → Nat) :
    Option FileSys :=
  match s.calls p with
  | none => none
  | some (src, i) =>
      let n1 := min (src.length - i) maxChunk
      (Fs.writei copyin s.img s.inum s.ip s.off ((src.drop i).take n1)).map fun (r, ip, img) =>
        let t := if 0 < r then r.toNat else 0
        let s := { s with img, ip, off := s.off + t,
                          events := s.events ++ [Event.wrote p s.off ((src.drop i).take t)] }
        if r ≠ n1 then s.finish p src.length (filewriteRet src.length i) (i + t)
        else
          let i := i + r.toNat
          if i < src.length then { s with calls := Function.update s.calls p (some (src, i)) }
          else s.finish p src.length (filewriteRet src.length i) i

inductive Act
  | read (p : ProcData.Slot) (n : Nat) (copyout : Nat → Nat → Bool)
  | writeStart (p : ProcData.Slot) (src : List UInt8)
  | writeChunk (p : ProcData.Slot) (copyin : Nat → Nat → Nat)

def step (s : FileSys) : Act → Option FileSys
  | .read p n copyout => fileread s p n copyout
  | .writeStart p src => filewriteStart s p src
  | .writeChunk p copyin => filewriteChunk s p copyin

section History

/-- The bytes a read or a chunk moved through the file. -/
def Event.bytes : Event → List UInt8
  | .read _ _ b => b
  | .wrote _ _ b => b
  | .returned .. => []

/-- The bytes a chunk wrote. -/
def Event.chunk : Event → List UInt8
  | .wrote _ _ b => b
  | _ => []

/-- What a returned filewrite reports as written, and the n it was asked for. -/
def Event.written : Event → Nat
  | .returned _ _ _ w => w
  | _ => 0

def Event.requested : Event → Nat
  | .returned _ n _ _ => n
  | _ => 0

@[simp] theorem Event.chunk_read (p : ProcData.Slot) (o : Nat) (b : List UInt8) :
    (Event.read p o b).chunk = [] := rfl

@[simp] theorem Event.chunk_wrote (p : ProcData.Slot) (o : Nat) (b : List UInt8) :
    (Event.wrote p o b).chunk = b := rfl

@[simp] theorem Event.chunk_returned (p : ProcData.Slot) (n : Nat) (r : Int) (w : Nat) :
    (Event.returned p n r w).chunk = [] := rfl

@[simp] theorem Event.written_read (p : ProcData.Slot) (o : Nat) (b : List UInt8) :
    (Event.read p o b).written = 0 := rfl

@[simp] theorem Event.written_wrote (p : ProcData.Slot) (o : Nat) (b : List UInt8) :
    (Event.wrote p o b).written = 0 := rfl

@[simp] theorem Event.written_returned (p : ProcData.Slot) (n : Nat) (r : Int) (w : Nat) :
    (Event.returned p n r w).written = w := rfl

/-- The bytes the calls moved through the file, in order. -/
def stream (es : List Event) : List UInt8 := es.flatMap Event.bytes

/-- Each read and each chunk of a history starts where the one before it ended,
the first at o. -/
def Placed : Nat → List Event → Prop
  | _, [] => True
  | o, .read _ o' b :: es => o' = o ∧ Placed (o + b.length) es
  | o, .wrote _ o' b :: es => o' = o ∧ Placed (o + b.length) es
  | o, .returned .. :: es => Placed o es

@[simp] theorem stream_nil : stream [] = [] := rfl

@[simp] theorem stream_append (es es' : List Event) : stream (es ++ es') = stream es ++ stream es' := by
  simp [stream]

@[simp] theorem stream_singleton (e : Event) : stream [e] = e.bytes := by
  simp [stream]

theorem Placed.snoc {o : Nat} {es : List Event} (h : Placed o es) (e : Event)
    (he : ∀ p o' b, (e = .read p o' b ∨ e = .wrote p o' b) → o' = o + (stream es).length) :
    Placed o (es ++ [e]) := by
  induction es generalizing o with
  | nil =>
      cases e with
      | read p o' b => exact ⟨by simpa using he p o' b (.inl rfl), trivial⟩
      | wrote p o' b => exact ⟨by simpa using he p o' b (.inr rfl), trivial⟩
      | returned => trivial
  | cons e' es ih =>
      cases e' with
      | read p o' b =>
          refine ⟨h.1, ih h.2 fun q o'' b' hq => ?_⟩
          rw [he q o'' b' hq]
          simp [stream, Event.bytes, Nat.add_assoc]
      | wrote p o' b =>
          refine ⟨h.1, ih h.2 fun q o'' b' hq => ?_⟩
          rw [he q o'' b' hq]
          simp [stream, Event.bytes, Nat.add_assoc]
      | returned => exact ih h fun q o'' b' hq => by simpa [stream, Event.bytes] using he q o'' b' hq

theorem stream_eq_chunks {es : List Event} (h : ∀ p o b, Event.read p o b ∈ es → b = []) :
    stream es = es.flatMap Event.chunk := by
  induction es with
  | nil => rfl
  | cons e es ih =>
      have ih := ih fun p o b hb => h p o b (List.mem_cons_of_mem _ hb)
      cases e with
      | read p o b => simp [stream, Event.bytes, Event.chunk, h p o b (by simp), ← ih]
      | wrote => simp [stream, Event.bytes, Event.chunk, ← ih]
      | returned => simp [stream, Event.bytes, Event.chunk, ← ih]

/-- A call in progress has written its i. -/
def pending (c : Option (List UInt8 × Nat)) : Nat := c.elim 0 Prod.snd

@[simp] theorem pending_none : pending none = 0 := rfl

@[simp] theorem pending_some (src : List UInt8) (i : Nat) : pending (some (src, i)) = i := rfl

theorem sum_pending_update (c : ProcData.Slot → Option (List UInt8 × Nat)) (p : ProcData.Slot)
    (x : Option (List UInt8 × Nat)) :
    ∑ q, pending (Function.update c p x q) + pending (c p) = ∑ q, pending (c q) + pending x := by
  have hupd : (fun q => pending (Function.update c p x q)) =
      Function.update (fun q => pending (c q)) p (pending x) := by
    funext q
    by_cases hq : q = p
    · subst hq
      simp
    · simp [hq]
  rw [hupd, Finset.sum_update_of_mem (Finset.mem_univ p), ← Finset.add_sum_erase _ _ (Finset.mem_univ p),
    Finset.sdiff_singleton_eq_erase]
  omega

end History

section Moves

theorem readi_moved {copyout : Nat → Nat → Bool} {img : FsImage} {ip : Dinode} {off n : Nat}
    {r : Fs.ReadResult} (hok : MapOk img ip) (h : Fs.readi copyout img ip off n = some r) :
    MapOk r.img r.ip ∧ fileByte r.img r.ip = fileByte img ip ∧ r.ip.size = ip.size ∧
      ∃ t, (if 0 < r.ret then r.ret.toNat else 0) = t ∧ (0 < t → off + t ≤ ip.size) ∧
        r.out.take t = (List.range t).map fun j => fileByte img ip (off + j) := by
  obtain ⟨hok', hblock, hsize, -, -, hret⟩ := hok.of_readi h
  have hbyte : fileByte r.img r.ip = fileByte img ip := by
    funext k
    simp only [fileByte, hblock]
  refine ⟨hok', hbyte, hsize, ?_⟩
  rcases hret with hret | ⟨t, hret, -, hfit, hout⟩
  · exact ⟨0, by simp [hret], by omega, by simp⟩
  · refine ⟨t, ?_, hfit, ?_⟩
    · rw [hret]
      rcases Nat.eq_zero_or_pos t with rfl | ht
      · simp
      · simp [ht]
    · rw [hout, List.take_of_length_le (by simp)]

theorem writei_moved {copyin : Nat → Nat → Nat} {img img' : FsImage} {inum : Nat} {ip ip' : Dinode}
    {off : Nat} {src : List UInt8} {r : Int} (hok : MapOk img ip) (hoff : off ≤ ip.size)
    (h : Fs.writei copyin img inum ip off src = some (r, ip', img')) :
    MapOk img' ip' ∧ ∃ t w, (if 0 < r then r.toNat else 0) = t ∧ t ≤ w ∧ w ≤ src.length ∧ (r = t ∨ r = -1) ∧
      ip'.size = max ip.size (off + t) ∧
      ∀ k, fileByte img' ip' k = if off ≤ k ∧ k < off + w then src.getD (k - off) 0 else fileByte img ip k := by
  obtain ⟨hok', -, hret⟩ := hok.of_writei h
  refine ⟨hok', ?_⟩
  rcases hret with ⟨rfl, rfl, rfl, -⟩ | ⟨t, rfl, -, -, -, hsize, -, -, -, w, htw, hw, -, hbytes⟩
  · refine ⟨0, 0, by simp, Nat.le_refl _, Nat.zero_le _, .inr rfl, by simp [hoff], fun k => ?_⟩
    rw [if_neg (by omega)]
  · refine ⟨t, w, ?_, htw, hw, .inl rfl, hsize, hbytes⟩
    rcases Nat.eq_zero_or_pos t with rfl | ht'
    · simp
    · simp [ht']

theorem getD_map_range {f : Nat → UInt8} {t j : Nat} (hj : j < t) :
    ((List.range t).map f).getD j 0 = f j := by
  simp [List.getD_eq_getElem?_getD, hj]

end Moves

section Invariant

/-- What every run from s₀ keeps of the file: f->off has moved by the stream,
the stream is laid down from s₀.off and is what the file holds below f->off,
reads start inside s₀'s file, and chunks are at most max bytes. -/
structure FileInv (s₀ s : FileSys) : Prop where
  mapOk : MapOk s.img s.ip
  off_le : s.off ≤ s.ip.size
  size_eq : s.ip.size = max s₀.ip.size s.off
  off_eq : s.off = s₀.off + (stream s.events).length
  placed : Placed s₀.off s.events
  bytes : ∀ k, k < s.off → fileByte s.img s.ip k =
    if s₀.off ≤ k then (stream s.events).getD (k - s₀.off) 0 else fileByte s₀.img s₀.ip k
  reads : ∀ p o b, Event.read p o b ∈ s.events → (b ≠ [] → o + b.length ≤ s₀.ip.size) ∧ s₀.off ≤ o
  chunks : ∀ p o b, Event.wrote p o b ∈ s.events → b.length ≤ maxChunk

/-- Every filewrite of a history returned its n. -/
def Whole (es : List Event) : Prop := ∀ p n r w, Event.returned p n r w ∈ es → r = n

theorem Whole.of_append {es es' : List Event} (h : Whole (es ++ es')) : Whole es :=
  fun p n r w he => h p n r w (List.mem_append_left _ he)

/-- The file above f->off is s₀'s, and every read returned s₀'s bytes. -/
structure Orig (s₀ s : FileSys) : Prop where
  above : ∀ k, s.off ≤ k → fileByte s.img s.ip k = fileByte s₀.img s₀.ip k
  reads : ∀ p o b, Event.read p o b ∈ s.events →
    b = (List.range b.length).map fun j => fileByte s₀.img s₀.ip (o + j)

/-- And of the calls: a filewrite returns -1 or its n, one in progress has i < n,
the chunks account for what the returned and the running calls have
written, and the file is s₀'s past the stream while every filewrite has
returned its n: only a copy in that fails leaves bytes past f->off. -/
structure Inv (s₀ s : FileSys) : Prop extends FileInv s₀ s where
  rets : ∀ p n r w, Event.returned p n r w ∈ s.events → r = -1 ∨ (r = n ∧ w = n)
  progress : ∀ p src i, s.calls p = some (src, i) → i < src.length
  account : (s.events.map fun e => e.chunk.length).sum =
    (s.events.map Event.written).sum + ∑ p, pending (s.calls p)
  orig : Whole s.events → Orig s₀ s

theorem Inv.init {s₀ : FileSys} (hok : MapOk s₀.img s₀.ip) (hoff : s₀.off ≤ s₀.ip.size)
    (hidle : ∀ p, s₀.calls p = none) (hev : s₀.events = []) : Inv s₀ s₀ where
  mapOk := hok
  off_le := hoff
  size_eq := (max_eq_left hoff).symm
  off_eq := by simp [hev]
  placed := by simp [hev, Placed]
  bytes k hk := by rw [if_neg (by omega)]
  reads := by simp [hev]
  chunks := by simp [hev]
  rets := by simp [hev]
  progress p src i h := by simp [hidle p] at h
  account := by simp [hev, hidle, pending]
  orig _ := ⟨fun _ _ => rfl, by simp [hev]⟩

theorem bytes_extend {s₀ : FileSys} {f g : Nat → UInt8} {es es' : List Event} {off off' : Nat}
    (m : List UInt8) (hoff : off = s₀.off + (stream es).length)
    (hf : ∀ k, k < off → f k = if s₀.off ≤ k then (stream es).getD (k - s₀.off) 0
      else fileByte s₀.img s₀.ip k)
    (hes : stream es' = stream es ++ m) (hoff' : off' = off + m.length)
    (hg : ∀ k, k < off' → g k = if off ≤ k then m.getD (k - off) 0 else f k) (k : Nat) (hk : k < off') :
    g k = if s₀.off ≤ k then (stream es').getD (k - s₀.off) 0 else fileByte s₀.img s₀.ip k := by
  subst hoff'
  rw [hg k hk, hes]
  by_cases hko : off ≤ k
  · rw [if_pos hko, if_pos (by omega), List.getD_append_right _ _ _ _ (by omega)]
    congr 1
    omega
  · rw [if_neg hko, hf k (by omega)]
    by_cases hk₀ : s₀.off ≤ k
    · rw [if_pos hk₀, if_pos hk₀, List.getD_append _ _ _ _ (by omega)]
    · rw [if_neg hk₀, if_neg hk₀]

theorem FileInv.read {s₀ s : FileSys} (hi : FileInv s₀ s) {copyout : Nat → Nat → Bool} {n : Nat}
    {r : Fs.ReadResult} (h : Fs.readi copyout s.img s.ip s.off n = some r) (p : ProcData.Slot) :
    FileInv s₀
      { s with img := r.img, ip := r.ip, off := s.off + (if 0 < r.ret then r.ret.toNat else 0),
               events := s.events ++ [.read p s.off (r.out.take (if 0 < r.ret then r.ret.toNat else 0))] } := by
  obtain ⟨hok, hbyte, hsize, t, ht, hfit, hout⟩ := readi_moved hi.mapOk h
  rw [ht, hout]
  have hlen : ((List.range t).map fun j => fileByte s.img s.ip (s.off + j)).length = t := by simp
  have hin : 0 < t → s.off + t ≤ s₀.ip.size := fun ht => by
    have := hfit ht
    have := hi.size_eq
    omega
  refine ⟨hok, ?_, ?_, ?_, ?_, ?_, ?_, ?_⟩
  · rcases Nat.eq_zero_or_pos t with rfl | htpos
    · simpa [hsize] using hi.off_le
    · simpa [hsize] using hfit htpos
  · rcases Nat.eq_zero_or_pos t with rfl | htpos
    · simpa [hsize] using hi.size_eq
    · have := hin htpos
      simp only [hsize, hi.size_eq]
      omega
  · simp only [stream_append, stream_singleton, Event.bytes, List.length_append, hlen]
    have := hi.off_eq
    omega
  · refine hi.placed.snoc _ fun q o b he => ?_
    rcases he with he | he <;> cases he
    exact hi.off_eq
  · intro k hk
    dsimp only at hk ⊢
    rw [hbyte]
    refine bytes_extend ((List.range t).map fun j => fileByte s.img s.ip (s.off + j)) hi.off_eq hi.bytes
      (by simp [Event.bytes]) (by rw [hlen]) (fun k _ => ?_) k hk
    split_ifs with hko
    · rw [getD_map_range (by omega), Nat.add_sub_cancel' hko]
    · rfl
  · intro q o b hb
    rcases List.mem_append.mp hb with hb | hb
    · exact hi.reads q o b hb
    · simp only [List.mem_singleton, Event.read.injEq] at hb
      obtain ⟨-, rfl, rfl⟩ := hb
      rw [hlen]
      refine ⟨fun hne => hin (Nat.pos_of_ne_zero fun h0 => hne (by simp [h0])), ?_⟩
      have := hi.off_eq
      omega
  · intro q o b hb
    rcases List.mem_append.mp hb with hb | hb
    · exact hi.chunks q o b hb
    · simp at hb

theorem Orig.read {s₀ s : FileSys} (ho : Orig s₀ s) (hok : MapOk s.img s.ip) {copyout : Nat → Nat → Bool}
    {n : Nat} {r : Fs.ReadResult} (h : Fs.readi copyout s.img s.ip s.off n = some r) (p : ProcData.Slot) :
    Orig s₀
      { s with img := r.img, ip := r.ip, off := s.off + (if 0 < r.ret then r.ret.toNat else 0),
               events := s.events ++ [.read p s.off (r.out.take (if 0 < r.ret then r.ret.toNat else 0))] } := by
  obtain ⟨-, hbyte, -, t, ht, -, hout⟩ := readi_moved hok h
  rw [ht, hout]
  refine ⟨fun k hk => ?_, fun q o b hb => ?_⟩
  · dsimp only at hk ⊢
    rw [hbyte]
    exact ho.above k (by omega)
  · rcases List.mem_append.mp hb with hb | hb
    · exact ho.reads q o b hb
    · simp only [List.mem_singleton, Event.read.injEq] at hb
      obtain ⟨-, rfl, rfl⟩ := hb
      simp only [List.length_map, List.length_range]
      exact List.map_congr_left fun j _ => ho.above _ (Nat.le_add_right _ _)

theorem FileInv.wrote {s₀ s : FileSys} (hi : FileInv s₀ s) {copyin : Nat → Nat → Nat} {d : List UInt8}
    {n1 : Nat} (hn1 : n1 ≤ maxChunk) {r : Int} {ip : Dinode} {img : FsImage}
    (h : Fs.writei copyin s.img s.inum s.ip s.off (d.take n1) = some (r, ip, img)) (p : ProcData.Slot) :
    FileInv s₀
      { s with img, ip, off := s.off + (if 0 < r then r.toNat else 0),
               events := s.events ++ [.wrote p s.off (d.take (if 0 < r then r.toNat else 0))] } := by
  obtain ⟨hok, t, w, ht, htw, hw, -, hsize, hbytes⟩ := writei_moved hi.mapOk hi.off_le h
  rw [ht]
  have htn : t ≤ n1 ∧ t ≤ d.length := by
    simp only [List.length_take] at hw
    omega
  have hlen : (d.take t).length = t := by simp [htn.2]
  refine ⟨hok, ?_, ?_, ?_, ?_, ?_, ?_, ?_⟩
  · simp only [hsize]
    omega
  · simp only [hsize, hi.size_eq]
    omega
  · simp only [stream_append, stream_singleton, Event.bytes, List.length_append, hlen]
    have := hi.off_eq
    omega
  · refine hi.placed.snoc _ fun q o b he => ?_
    rcases he with he | he <;> cases he
    exact hi.off_eq
  · intro k hk
    refine bytes_extend (d.take t) hi.off_eq hi.bytes (by simp [Event.bytes]) (by rw [hlen]) (fun k hk => ?_) k hk
    -- below the new f->off the chunk's own bytes, whatever a failed copy left past it
    dsimp only at hk
    rw [hbytes]
    by_cases hko : s.off ≤ k
    · rw [if_pos ⟨hko, by omega⟩, if_pos hko]
      simp [List.getD_eq_getElem?_getD, show k - s.off < t by omega, show k - s.off < n1 by omega]
    · rw [if_neg (by omega), if_neg hko]
  · intro q o b hb
    rcases List.mem_append.mp hb with hb | hb
    · exact hi.reads q o b hb
    · simp at hb
  · intro q o b hb
    rcases List.mem_append.mp hb with hb | hb
    · exact hi.chunks q o b hb
    · simp only [List.mem_singleton, Event.wrote.injEq] at hb
      obtain ⟨-, -, rfl⟩ := hb
      omega

theorem Orig.wrote {s₀ s : FileSys} (ho : Orig s₀ s) (hok : MapOk s.img s.ip) (hoff : s.off ≤ s.ip.size)
    {copyin : Nat → Nat → Nat} {d : List UInt8} {n1 : Nat} {r : Int} {ip : Dinode} {img : FsImage}
    (h : Fs.writei copyin s.img s.inum s.ip s.off (d.take n1) = some (r, ip, img))
    (hwhole : (if 0 < r then r.toNat else 0) = (d.take n1).length) (p : ProcData.Slot) :
    Orig s₀
      { s with img, ip, off := s.off + (if 0 < r then r.toNat else 0),
               events := s.events ++ [.wrote p s.off (d.take (if 0 < r then r.toNat else 0))] } := by
  obtain ⟨-, t, w, ht, htw, hw, -, -, hbytes⟩ := writei_moved hok hoff h
  rw [ht] at hwhole ⊢
  refine ⟨fun k hk => ?_, fun q o b hb => ?_⟩
  · dsimp only at hk ⊢
    rw [hbytes, if_neg (by omega)]
    exact ho.above k (by omega)
  · rcases List.mem_append.mp hb with hb | hb
    · exact ho.reads q o b hb
    · simp at hb

theorem FileInv.setCalls {s₀ s : FileSys} (hi : FileInv s₀ s) (c : ProcData.Slot → Option (List UInt8 × Nat)) :
    FileInv s₀ { s with calls := c } :=
  ⟨hi.mapOk, hi.off_le, hi.size_eq, hi.off_eq, hi.placed, hi.bytes, hi.reads, hi.chunks⟩

theorem FileInv.returned {s₀ s : FileSys} (hi : FileInv s₀ s) (c : ProcData.Slot → Option (List UInt8 × Nat))
    (p : ProcData.Slot) (n : Nat) (ret : Int) (w : Nat) :
    FileInv s₀ { s with calls := c, events := s.events ++ [.returned p n ret w] } := by
  have hstream : stream (s.events ++ [.returned p n ret w]) = stream s.events := by
    simp [Event.bytes]
  refine ⟨hi.mapOk, hi.off_le, hi.size_eq, ?_, hi.placed.snoc _ fun q o b he => ?_, ?_, ?_, ?_⟩
  · simpa only [hstream] using hi.off_eq
  · rcases he with he | he <;> cases he
  · simpa only [hstream] using hi.bytes
  · intro q o b hb
    rcases List.mem_append.mp hb with hb | hb
    · exact hi.reads q o b hb
    · simp at hb
  · intro q o b hb
    rcases List.mem_append.mp hb with hb | hb
    · exact hi.chunks q o b hb
    · simp at hb

theorem Orig.returned {s₀ s : FileSys} (ho : Orig s₀ s) (c : ProcData.Slot → Option (List UInt8 × Nat))
    (p : ProcData.Slot) (n : Nat) (ret : Int) (w : Nat) :
    Orig s₀ { s with calls := c, events := s.events ++ [.returned p n ret w] } :=
  ⟨ho.above, fun q o b hb => by
    rcases List.mem_append.mp hb with hb | hb
    · exact ho.reads q o b hb
    · simp at hb⟩

theorem account_update {es : List Event} {c : ProcData.Slot → Option (List UInt8 × Nat)}
    {p : ProcData.Slot} {x : Option (List UInt8 × Nat)}
    (h : (es.map fun e => e.chunk.length).sum + pending (c p) =
      (es.map Event.written).sum + ∑ q, pending (c q) + pending x) :
    (es.map fun e => e.chunk.length).sum = (es.map Event.written).sum + ∑ q, pending (Function.update c p x q) := by
  have := sum_pending_update c p x
  omega

theorem rets_snoc {es : List Event} {e : Event}
    (h : ∀ q n r w, Event.returned q n r w ∈ es → r = -1 ∨ (r = n ∧ w = n))
    (he : ∀ q n r w, e = .returned q n r w → r = -1 ∨ (r = n ∧ w = n)) :
    ∀ q n r w, Event.returned q n r w ∈ es ++ [e] → r = -1 ∨ (r = n ∧ w = n) := by
  intro q n r w hq
  rcases List.mem_append.mp hq with hq | hq
  · exact h q n r w hq
  · exact he q n r w (List.mem_singleton.mp hq).symm

section Calls

variable {s₀ s : FileSys} {p : ProcData.Slot}

theorem Inv.setCall (hf : FileInv s₀ s)
    (hrets : ∀ q n r w, Event.returned q n r w ∈ s.events → r = -1 ∨ (r = n ∧ w = n))
    (hprog : ∀ q src i, s.calls q = some (src, i) → i < src.length)
    (horig : Whole s.events → Orig s₀ s)
    {x : Option (List UInt8 × Nat)} (hx : ∀ src i, x = some (src, i) → i < src.length)
    (hacc : (s.events.map fun e => e.chunk.length).sum + pending (s.calls p) =
      (s.events.map Event.written).sum + ∑ q, pending (s.calls q) + pending x) :
    Inv s₀ { s with calls := Function.update s.calls p x } where
  toFileInv := hf.setCalls _
  rets := hrets
  progress q src i h := by
    by_cases hq : q = p
    · subst hq
      exact hx src i (by simpa using h)
    · exact hprog q src i (by simpa [hq] using h)
  account := account_update hacc
  orig hw := ⟨(horig hw).above, (horig hw).reads⟩

theorem Inv.finish (hf : FileInv s₀ s)
    (hrets : ∀ q n r w, Event.returned q n r w ∈ s.events → r = -1 ∨ (r = n ∧ w = n))
    (hprog : ∀ q src i, s.calls q = some (src, i) → i < src.length)
    {n : Nat} {ret : Int} {w : Nat} (hret : ret = -1 ∨ (ret = n ∧ w = n))
    (hacc : (s.events.map fun e => e.chunk.length).sum + pending (s.calls p) =
      (s.events.map Event.written).sum + ∑ q, pending (s.calls q) + w)
    (horig : Whole (s.events ++ [.returned p n ret w]) → Orig s₀ s) :
    Inv s₀ (s.finish p n ret w) where
  toFileInv := hf.returned _ p n ret w
  rets := rets_snoc hrets fun _ _ _ _ he => by
    cases he
    exact hret
  progress q src i h := by
    by_cases hq : q = p
    · subst hq
      simp [FileSys.finish] at h
    · exact hprog q src i (by simpa [FileSys.finish, hq] using h)
  account := by
    have := sum_pending_update s.calls p none
    simp only [FileSys.finish, List.map_append, List.sum_append, List.map_singleton, List.sum_singleton,
      Event.chunk_returned, Event.written_returned, List.length_nil, pending_none] at this ⊢
    omega
  orig hw := (horig hw).returned _ p n ret w

theorem Inv.of_fileread {s' : FileSys} (hi : Inv s₀ s) {n : Nat} {copyout : Nat → Nat → Bool}
    (h : fileread s p n copyout = some s') : Inv s₀ s' := by
  unfold fileread at h
  split_ifs at h
  obtain ⟨r, hr, rfl⟩ := Option.map_eq_some_iff.mp h
  refine ⟨hi.toFileInv.read hr p, rets_snoc hi.rets (by rintro _ _ _ _ ⟨⟩), hi.progress, ?_,
    fun hw => (hi.orig hw.of_append).read hi.mapOk hr p⟩
  simpa using hi.account

theorem Inv.of_filewriteStart {s' : FileSys} (hi : Inv s₀ s) {src : List UInt8}
    (h : filewriteStart s p src = some s') : Inv s₀ s' := by
  unfold filewriteStart at h
  split_ifs at h with hc hlen <;> cases h
  · exact Inv.finish hi.toFileInv hi.rets hi.progress (.inr ⟨by decide, rfl⟩) (by simp [hc, hi.account])
      fun hw => hi.orig hw.of_append
  · exact Inv.setCall hi.toFileInv hi.rets hi.progress hi.orig (fun _ _ h => by cases h; omega)
      (by simp [hc, hi.account])

theorem Inv.of_filewriteChunk {s' : FileSys} (hi : Inv s₀ s) {copyin : Nat → Nat → Nat}
    (h : filewriteChunk s p copyin = some s') : Inv s₀ s' := by
  unfold filewriteChunk at h
  split at h
  · cases h
  rename_i src i hc
  obtain ⟨⟨r, ip, img⟩, hw, rfl⟩ := Option.map_eq_some_iff.mp h
  obtain ⟨-, t, w, ht, htw, htlen, hr, -, -⟩ := writei_moved hi.mapOk hi.off_le hw
  have hfile := hi.toFileInv.wrote (min_le_right _ _) hw p
  have hlt := hi.progress p src i hc
  have htn : t ≤ src.length - i ∧ t ≤ maxChunk := by
    simp only [List.length_take, List.length_drop] at htlen
    omega
  have hchunk : ((src.drop i).take t).length = t := by
    simp only [List.length_take, List.length_drop]
    omega
  -- s₀'s bytes past f->off survive a chunk that wrote all it was given
  have horig : t = ((src.drop i).take (min (src.length - i) maxChunk)).length →
      Whole (s.events ++ [Event.wrote p s.off ((src.drop i).take t)]) →
      Orig s₀ { s with img := img, ip := ip, off := s.off + t,
                       events := s.events ++ [Event.wrote p s.off ((src.drop i).take t)] } := by
    intro hwhole hwh
    have ho := (hi.orig hwh.of_append).wrote hi.mapOk hi.off_le hw (by rw [ht]; exact hwhole) p
    rwa [ht] at ho
  dsimp only
  rw [ht] at hfile ⊢
  have hrets : ∀ q n r w, Event.returned q n r w ∈ s.events ++ [Event.wrote p s.off ((src.drop i).take t)] →
      r = -1 ∨ (r = n ∧ w = n) :=
    rets_snoc hi.rets (by rintro _ _ _ _ ⟨⟩)
  have hacc : ((s.events ++ [Event.wrote p s.off ((src.drop i).take t)]).map fun e => e.chunk.length).sum +
      pending (s.calls p) = ((s.events ++ [Event.wrote p s.off ((src.drop i).take t)]).map Event.written).sum +
        ∑ q, pending (s.calls q) + (i + t) := by
    simp only [List.map_append, List.sum_append, List.map_singleton, List.sum_singleton, Event.chunk_wrote,
      Event.written_wrote, hchunk, hc, pending_some, hi.account]
    omega
  split_ifs with hne hend
  · -- writei came back short: break with i < n, so ret = -1 and the history is no longer whole
    have hret : filewriteRet src.length i = -1 := by
      simp [filewriteRet]
      omega
    refine Inv.finish hfile hrets hi.progress (.inl hret) hacc fun hwh => ?_
    have := hwh p _ _ _ (List.mem_append_right _ (List.mem_singleton_self _))
    omega
  all_goals
    have hrt : r = t ∧ t = min (src.length - i) maxChunk := by
      rcases hr with rfl | rfl
      · exact ⟨rfl, by exact_mod_cast not_not.mp hne⟩
      · omega
    obtain ⟨rfl, hn1⟩ := hrt
    have hwhole : t = ((src.drop i).take (min (src.length - i) maxChunk)).length := by
      simp only [List.length_take, List.length_drop]
      omega
  · exact Inv.setCall hfile hrets hi.progress (horig hwhole) (fun _ _ h => by cases h; simpa using hend)
      (by simpa using hacc)
  · have hn : i + t = src.length := by omega
    exact Inv.finish hfile hrets hi.progress (.inr ⟨by simp [filewriteRet, hn], by simp [hn]⟩)
      (by simpa using hacc) fun hwh => horig hwhole hwh.of_append

theorem Inv.of_step {s' : FileSys} (hi : Inv s₀ s) {a : Act} (h : step s a = some s') : Inv s₀ s' := by
  cases a with
  | read p n copyout => exact hi.of_fileread h
  | writeStart p src => exact hi.of_filewriteStart h
  | writeChunk p copyin => exact hi.of_filewriteChunk h

end Calls

theorem Inv.of_reachable {s₀ s : FileSys} (hok : MapOk s₀.img s₀.ip) (hoff : s₀.off ≤ s₀.ip.size)
    (hidle : ∀ p, s₀.calls p = none) (hev : s₀.events = []) (h : Reachable step s₀ s) : Inv s₀ s :=
  Reachable.invariant (Inv.init hok hoff hidle hev) (fun _ _ _ _ hi hstep => hi.of_step hstep) h

end Invariant

section SharedOffset

theorem sum_written_eq_requested {es : List Event}
    (hrets : ∀ p n r w, Event.returned p n r w ∈ es → r = -1 ∨ (r = n ∧ w = n)) (hall : Whole es) :
    (es.map Event.written).sum = (es.map Event.requested).sum := by
  congr 1
  refine List.map_congr_left fun e he => ?_
  cases e with
  | read => rfl
  | wrote => rfl
  | returned p n r w =>
      rcases hrets p n r w he with hr | ⟨-, hw⟩
      · have := hall p n r w he
        omega
      · exact hw

theorem shared_offset_writes (s₀ : FileSys) (hok : MapOk s₀.img s₀.ip) (hoff : s₀.off ≤ s₀.ip.size)
    (hidle : ∀ p, s₀.calls p = none) (hev : s₀.events = []) {s : FileSys} (h : Reachable step s₀ s) :
    Placed s₀.off s.events ∧ (∀ p o b, Event.wrote p o b ∈ s.events → b.length ≤ maxChunk) ∧
      s.off = s₀.off + (stream s.events).length ∧ s.ip.size = max s₀.ip.size s.off ∧
      (∀ k, k < s.off → fileByte s.img s.ip k =
        if s₀.off ≤ k then (stream s.events).getD (k - s₀.off) 0 else fileByte s₀.img s₀.ip k) ∧
      (Whole s.events → (∀ k, s.off ≤ k → fileByte s.img s.ip k = fileByte s₀.img s₀.ip k) ∧
        ∀ p o b, Event.read p o b ∈ s.events → b = (List.range b.length).map fun j => fileByte s₀.img s₀.ip (o + j)) ∧
      (s₀.off = s₀.ip.size →
        (∀ p o b, Event.read p o b ∈ s.events → b = []) ∧ stream s.events = s.events.flatMap Event.chunk ∧
          ((∀ p, s.calls p = none) → Whole s.events →
            s.ip.size = s₀.ip.size + (s.events.map Event.requested).sum)) := by
  have hi := Inv.of_reachable hok hoff hidle hev h
  refine ⟨hi.placed, hi.chunks, hi.off_eq, hi.size_eq, hi.bytes,
    fun hw => ⟨(hi.orig hw).above, (hi.orig hw).reads⟩, fun hend => ?_⟩
  -- from the end of the file a read finds nothing: it would end inside s₀'s bytes
  have hnoread : ∀ p o b, Event.read p o b ∈ s.events → b = [] := by
    intro p o b hb
    obtain ⟨hin, hle⟩ := hi.reads p o b hb
    by_contra hne
    have := hin hne
    have := List.length_pos_of_ne_nil hne
    omega
  refine ⟨hnoread, stream_eq_chunks hnoread, fun hcalls hall => ?_⟩
  have hoffs := hi.off_eq
  calc s.ip.size = s.off := by rw [hi.size_eq]; omega
    _ = s₀.ip.size + (s.events.map fun e => e.chunk.length).sum := by
      rw [hi.off_eq, hend, stream_eq_chunks hnoread, List.length_flatMap]
    _ = s₀.ip.size + (s.events.map Event.requested).sum := by
      rw [hi.account, sum_written_eq_requested hi.rets hall]
      simp [hcalls]

/-- A new file on the test disk, open with f->off 0. -/
def appendDemo : FileSys := ⟨Fs.testDisk, 2, Fs.emptyInode, 0, fun _ => none, []⟩

/-- Two processes share it: p0 writes [1, 2], and p1 writes [3] between p0's
entry into filewrite and its chunk. -/
def twoWriters : List Act :=
  [.writeStart 0 [1, 2], .writeStart 1 [3], .writeChunk 1 fun _ m => m, .writeChunk 0 fun _ m => m]

theorem shared_offset_writes_two_writers :
    ∃ s, run step appendDemo twoWriters = some s ∧ Placed 0 s.events ∧ s.ip.size = (stream s.events).length := by
  obtain ⟨s, hs⟩ := Option.isSome_iff_exists.mp (by decide : (run step appendDemo twoWriters).isSome)
  obtain ⟨hplaced, -, hoff, hsize, -⟩ := shared_offset_writes appendDemo Fs.mapOk_emptyInode (Nat.le_refl _)
    (fun _ => rfl) rfl (reachable_of_run .init hs)
  refine ⟨s, hs, hplaced, ?_⟩
  rw [hsize, hoff]
  simp [appendDemo, Fs.emptyInode]

/-- The file after one byte was written to it, opened again: f->off is 0,
below its size. -/
def reopenDemo : FileSys :=
  match run step appendDemo [.writeStart 0 [7], .writeChunk 0 fun _ m => m] with
  | some s => { s with off := 0, events := [] }
  | none => appendDemo

theorem shared_offset_writes_fails :
    MapOk reopenDemo.img reopenDemo.ip ∧ reopenDemo.off < reopenDemo.ip.size ∧
      (run step reopenDemo [.writeStart 0 [9], .writeChunk 0 fun _ m => m]).map
          (fun s => (s.ip.size, s.events)) =
        some (reopenDemo.ip.size, [.wrote 0 0 [9], .returned 0 1 1 1]) ∧
      (run step reopenDemo [.writeStart 0 [9], .writeChunk 0 fun _ m => m]).map
          (fun s => decide (∀ p, s.calls p = none)) = some true := by
  obtain ⟨s, hs⟩ := Option.isSome_iff_exists.mp
    (by decide : (run step appendDemo [.writeStart 0 [7], .writeChunk 0 fun _ m => m]).isSome)
  have hi := Inv.of_reachable Fs.mapOk_emptyInode (Nat.le_refl _) (fun _ => rfl) rfl (reachable_of_run .init hs)
  have hreopen : reopenDemo = { s with off := 0, events := [] } := by
    simp only [reopenDemo, hs]
  refine ⟨by rw [hreopen]; exact hi.mapOk, by decide, by decide, by decide⟩

end SharedOffset

end Xv6Mlfq.File
