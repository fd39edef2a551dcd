import Xv6Mlfq.Library.Ring
import Xv6Mlfq.Library.StepSystem

/-!
Pipes (`pipe.c`).  A pipe is a ring of `PIPESIZE` bytes with two free-running
32-bit counters: the bytes from `nread` to `nwrite` are written and not yet
read.  `pipewrite` and `piperead` hold `pi->lock` throughout, except that a
writer finding the pipe full, or a reader finding it empty with its write end
open, sleeps and runs its loop again from the top when woken.  One hold of the
lock is one step here.
-/

namespace Xv6Mlfq.Pipes

open Ring

/-- `PIPESIZE`. -/
def pipeSize : Nat := 512

instance : NeZero pipeSize := ⟨by decide⟩

theorem pipeSize_dvd : pipeSize ∣ 2 ^ 32 := ⟨2 ^ 23, by decide⟩

theorem pipeSize_lt : pipeSize < 2 ^ 32 := by decide

theorem pipeSize_eq : pipeSize = 512 := rfl

/-- `struct pipe`, without its lock. -/
structure Pipe where
  data : Fin pipeSize → UInt8
  nread : UInt32
  nwrite : UInt32
  readopen : Bool
  writeopen : Bool

/-- A `pipewrite` call for `n` bytes, of which `i` are written; `src j` is what
`copyin` finds at `addr + j`, `none` where it fails. -/
structure Write where
  n : Nat
  i : Nat
  src : Nat → Option UInt8

/-- How a hold of `pi->lock` ends: the call returns, or it sleeps. -/
inductive Outcome
  | done (ret : Int)
  | asleep
  deriving DecidableEq

/-! ## `pipewrite`, `piperead` and `pipeclose` -/

/-- The loop of `pipewrite`, for at most `fuel` rounds, from an acquisition of
`pi->lock` to its release. -/
def pipewriteLoop (killed : Bool) : Nat → Pipe → Write → Pipe × Write × Outcome
  | 0, pi, w => (pi, w, .asleep)
  | fuel + 1, pi, w =>
      if w.i < w.n then
        if pi.readopen = false ∨ killed = true then (pi, w, .done (-1))
        else if pi.nwrite = pi.nread + UInt32.ofNat pipeSize then (pi, w, .asleep)
        else
          match w.src w.i with
          | none => (pi, w, .done w.i)
          | some ch =>
              pipewriteLoop killed fuel
                { pi with data := write pi.data pi.nwrite.toNat ch, nwrite := pi.nwrite + 1 }
                { w with i := w.i + 1 }
      else (pi, w, .done w.i)

/-- A hold of `pi->lock` by `pipewrite`: every round but the last writes a byte. -/
def pipewrite (killed : Bool) (pi : Pipe) (w : Write) : Pipe × Write × Outcome :=
  pipewriteLoop killed (w.n - w.i + 1) pi w

/-- The copy loop of `piperead` from `i`, for at most `fuel` rounds: the bytes
copied out and the return value.  `dst j` is whether `copyout` to `addr + j`
succeeds. -/
def pipereadCopy (n : Nat) (dst : Nat → Bool) : Nat → Nat → Pipe → Pipe × List UInt8 × Int
  | 0, i, pi => (pi, [], i)
  | fuel + 1, i, pi =>
      if i < n then
        if pi.nread = pi.nwrite then (pi, [], i)
        else if dst i = false then (pi, [], if i = 0 then -1 else i)
        else
          let res := pipereadCopy n dst fuel (i + 1) { pi with nread := pi.nread + 1 }
          (res.1, cell pi.data pi.nread.toNat :: res.2.1, res.2.2)
      else (pi, [], i)

/-- A hold of `pi->lock` by `piperead` of `n` bytes: it sleeps while the pipe is
empty and its write end open, and otherwise runs the copy loop. -/
def piperead (killed : Bool) (pi : Pipe) (n : Nat) (dst : Nat → Bool) : Pipe × List UInt8 × Outcome :=
  if pi.nread = pi.nwrite ∧ pi.writeopen = true then
    if killed = true then (pi, [], .done (-1)) else (pi, [], .asleep)
  else
    let res := pipereadCopy n dst n 0 pi
    (res.1, res.2.1, .done res.2.2)

def pipeclose (pi : Pipe) (writable : Bool) : Pipe :=
  if writable then { pi with writeopen := false } else { pi with readopen := false }

/-! ## The contents of a pipe -/

/-- The bytes written and not yet read, oldest first. -/
def Pipe.unread (pi : Pipe) : List UInt8 := window pi.data pi.nread.toNat (dist pi.nread pi.nwrite)

/-- `0 ≤ nwrite - nread ≤ PIPESIZE`, as an unsigned 32-bit difference. -/
def PipeOk (pi : Pipe) : Prop := dist pi.nread pi.nwrite ≤ pipeSize

/-- The bytes `src` gives from `i` on. -/
def Copied (src : Nat → Option UInt8) (i : Nat) (bytes : List UInt8) : Prop :=
  ∀ j < bytes.length, src (i + j) = bytes[j]?

section Contents

variable {pi : Pipe}

@[simp] theorem length_unread (pi : Pipe) : pi.unread.length = dist pi.nread pi.nwrite := by
  simp [Pipe.unread]

theorem full_iff (pi : Pipe) :
    pi.nwrite = pi.nread + UInt32.ofNat pipeSize ↔ pi.unread.length = pipeSize := by
  have ha := pi.nread.toNat_lt
  have hb := pi.nwrite.toNat_lt
  rw [length_unread, ← UInt32.toNat_inj]
  simp only [Ring.dist, UInt32.toNat_sub, UInt32.toNat_add, UInt32.toNat_ofNat', pipeSize_eq]
  omega

theorem unread_eq_nil_iff (pi : Pipe) : pi.unread = [] ↔ pi.nread = pi.nwrite := by
  rw [← List.length_eq_zero_iff, length_unread, dist_eq_zero]

theorem push_unread (h : PipeOk pi) (hfull : pi.nwrite ≠ pi.nread + UInt32.ofNat pipeSize) (ch : UInt8) :
    ({ pi with data := write pi.data pi.nwrite.toNat ch, nwrite := pi.nwrite + 1 } : Pipe).unread =
        pi.unread ++ [ch] ∧
      PipeOk { pi with data := write pi.data pi.nwrite.toNat ch, nwrite := pi.nwrite + 1 } := by
  have hroom : dist pi.nread pi.nwrite < pipeSize := by
    have hne : pi.unread.length ≠ pipeSize := fun heq => hfull ((full_iff pi).mpr heq)
    rw [length_unread] at hne
    exact Nat.lt_of_le_of_ne h hne
  have hnext : dist pi.nread (pi.nwrite + 1) = dist pi.nread pi.nwrite + 1 :=
    dist_add_one_right (Nat.lt_of_le_of_lt (Nat.succ_le_of_lt hroom) pipeSize_lt)
  constructor
  · exact window_push pi.data pipeSize_dvd ch pipeSize_lt hroom
  · show dist pi.nread (pi.nwrite + 1) ≤ pipeSize
    omega

theorem pop_unread (h : PipeOk pi) (hne : pi.nread ≠ pi.nwrite) :
    pi.unread = cell pi.data pi.nread.toNat :: ({ pi with nread := pi.nread + 1 } : Pipe).unread ∧
      PipeOk { pi with nread := pi.nread + 1 } := by
  have hpop : dist (pi.nread + 1) pi.nwrite + 1 = dist pi.nread pi.nwrite := dist_add_one_left hne
  constructor
  · exact window_pop pi.data pipeSize_dvd hne
  · show dist (pi.nread + 1) pi.nwrite ≤ pipeSize
    have : dist pi.nread pi.nwrite ≤ pipeSize := h
    omega

theorem pipeclose_unread (pi : Pipe) (writable : Bool) : (pipeclose pi writable).unread = pi.unread := by
  cases writable <;> rfl

theorem Copied.nil (src : Nat → Option UInt8) (i : Nat) : Copied src i [] := by
  intro j hj
  simp at hj

theorem Copied.cons {src : Nat → Option UInt8} {i : Nat} {ch : UInt8} {bytes : List UInt8}
    (h0 : src i = some ch) (h : Copied src (i + 1) bytes) : Copied src i (ch :: bytes) := by
  intro j hj
  cases j with
  | zero => simpa using h0
  | succ j =>
      rw [show i + (j + 1) = i + 1 + j by omega, List.getElem?_cons_succ]
      exact h j (by simpa using hj)

end Contents

/-! ## What a hold of the lock does -/

/-- A hold of `pi->lock` by `pipewrite` appends `new`, the next bytes of the
call's source, to the pipe, and changes nothing else. -/
structure WriteSplit (pi pi' : Pipe) (w w' : Write) (new : List UInt8) : Prop where
  unread : pi'.unread = pi.unread ++ new
  ok : PipeOk pi'
  frame : pi' = { pi with data := pi'.data, nwrite := pi'.nwrite }
  next : w' = { w with i := w.i + new.length }
  copied : Copied w.src w.i new

/-- How a hold of `pi->lock` by `pipewrite` ends: asleep only on a full pipe
with bytes left to write; -1 only when the read end is closed or the caller is
killed, with bytes left to write; otherwise the count of bytes written, when
the call has written them all or `copyin` fails. -/
def WriteEnds (readopen killed : Bool) (pi' : Pipe) (w' : Write) (o : Outcome) : Prop :=
  (o = .asleep → pi'.unread.length = pipeSize ∧ w'.i < w'.n ∧ readopen = true ∧ killed = false) ∧
    ∀ ret, o = .done ret →
      (ret = -1 ∧ (readopen = false ∨ killed = true) ∧ w'.i < w'.n) ∨
        (ret = w'.i ∧ (w'.n ≤ w'.i ∨ w'.src w'.i = none))

/-- A run of the copy loop of `piperead` takes `out` off the front of the pipe,
and changes nothing else. -/
structure ReadSplit (pi pi' : Pipe) (out : List UInt8) : Prop where
  unread : pi.unread = out ++ pi'.unread
  ok : PipeOk pi'
  frame : pi' = { pi with nread := pi'.nread }

/-- How the copy loop of `piperead` from `i` ends: -1 only when the first copy
fails on a non-empty pipe; otherwise the count copied, when `n` bytes are
copied, the pipe is empty, or a later copy fails. -/
def CopyEnds (n : Nat) (dst : Nat → Bool) (i : Nat) (pi' : Pipe) (out : List UInt8) (ret : Int) : Prop :=
  (ret = -1 ∧ i = 0 ∧ out = [] ∧ 0 < n ∧ pi'.unread ≠ [] ∧ dst 0 = false) ∨
    (ret = (i + out.length : Nat) ∧
      (n ≤ i + out.length ∨ pi'.unread = [] ∨ (dst (i + out.length) = false ∧ 0 < i + out.length)))

section Holds

variable {pi : Pipe}

theorem WriteSplit.stay (h : PipeOk pi) (w : Write) : WriteSplit pi pi w w [] :=
  ⟨by simp, h, rfl, by simp, Copied.nil _ _⟩

theorem ReadSplit.stay (h : PipeOk pi) : ReadSplit pi pi [] :=
  ⟨by simp, h, rfl⟩

/-- The loop of `pipewrite`, with more rounds than bytes left to write. -/
theorem pipewriteLoop_spec (killed : Bool) : ∀ fuel pi w, PipeOk pi → w.n - w.i < fuel →
    ∃ new, WriteSplit pi (pipewriteLoop killed fuel pi w).1 w (pipewriteLoop killed fuel pi w).2.1 new ∧
      WriteEnds pi.readopen killed (pipewriteLoop killed fuel pi w).1 (pipewriteLoop killed fuel pi w).2.1
        (pipewriteLoop killed fuel pi w).2.2 := by
  intro fuel
  induction fuel with
  | zero =>
      intro pi w _ hfuel
      omega
  | succ fuel ih =>
      intro pi w h hfuel
      rcases Nat.lt_or_ge w.i w.n with hi | hi
      · rw [pipewriteLoop, if_pos hi]
        by_cases hstop : pi.readopen = false ∨ killed = true
        · rw [if_pos hstop]
          exact ⟨[], .stay h w, by simp, fun ret hret => .inl ⟨by cases hret; rfl, hstop, hi⟩⟩
        rw [if_neg hstop]
        have hopen : pi.readopen = true ∧ killed = false := by simpa [not_or] using hstop
        by_cases hfull : pi.nwrite = pi.nread + UInt32.ofNat pipeSize
        · rw [if_pos hfull]
          exact ⟨[], .stay h w, fun _ => ⟨(full_iff pi).mp hfull, hi, hopen⟩, by simp⟩
        rw [if_neg hfull]
        cases hsrc : w.src w.i with
        | none =>
            -- `copyin` fails: return the count written
            exact ⟨[], .stay h w, by simp, fun ret hret => .inr ⟨by cases hret; rfl, .inr hsrc⟩⟩
        | some ch =>
            obtain ⟨hpush, hok⟩ := push_unread h hfull ch
            obtain ⟨new, hsplit, hends⟩ := ih _ { w with i := w.i + 1 } hok (by simp only; omega)
            refine ⟨ch :: new, ⟨?_, hsplit.ok, ?_, ?_, ?_⟩, hends⟩
            · rw [hsplit.unread, hpush, List.append_assoc, List.singleton_append]
            · rw [hsplit.frame]
            · rw [hsplit.next, List.length_cons, Nat.add_comm new.length 1, Nat.add_assoc]
            · exact Copied.cons hsrc hsplit.copied
      · have hres : pipewriteLoop killed (fuel + 1) pi w = (pi, w, .done w.i) := by
          simp [pipewriteLoop, Nat.not_lt.mpr hi]
        rw [hres]
        exact ⟨[], .stay h w, by simp, fun ret hret => .inr ⟨by cases hret; rfl, .inl hi⟩⟩

theorem pipewrite_spec (h : PipeOk pi) (killed : Bool) (w : Write) :
    ∃ new, WriteSplit pi (pipewrite killed pi w).1 w (pipewrite killed pi w).2.1 new ∧
      WriteEnds pi.readopen killed (pipewrite killed pi w).1 (pipewrite killed pi w).2.1
        (pipewrite killed pi w).2.2 :=
  pipewriteLoop_spec killed _ pi w h (Nat.lt_succ_self _)

/-- The copy loop of `piperead` from `i ≤ n`, with a round for each byte left to copy. -/
theorem pipereadCopy_spec (n : Nat) (dst : Nat → Bool) : ∀ fuel i pi, PipeOk pi → i ≤ n → n - i ≤ fuel →
    ReadSplit pi (pipereadCopy n dst fuel i pi).1 (pipereadCopy n dst fuel i pi).2.1 ∧
      i + (pipereadCopy n dst fuel i pi).2.1.length ≤ n ∧
      CopyEnds n dst i (pipereadCopy n dst fuel i pi).1 (pipereadCopy n dst fuel i pi).2.1
        (pipereadCopy n dst fuel i pi).2.2 := by
  intro fuel
  induction fuel with
  | zero =>
      intro i pi h hi hfuel
      have hres : pipereadCopy n dst 0 i pi = (pi, [], (i : Int)) := rfl
      rw [hres]
      exact ⟨.stay h, by simpa using hi, .inr ⟨by simp, .inl (by simp; omega)⟩⟩
  | succ fuel ih =>
      intro i pi h hi hfuel
      rcases Nat.lt_or_ge i n with hlt | hge
      · rw [pipereadCopy, if_pos hlt]
        by_cases hempty : pi.nread = pi.nwrite
        · rw [if_pos hempty]
          exact ⟨.stay h, by simpa using hi,
            .inr ⟨by simp, .inr (.inl ((unread_eq_nil_iff pi).mpr hempty))⟩⟩
        rw [if_neg hempty]
        by_cases hfail : dst i = false
        · -- `copyout` fails: -1 if it is the first copy
          rw [if_pos hfail]
          refine ⟨.stay h, by simpa using hi, ?_⟩
          by_cases hi0 : i = 0
          · subst hi0
            exact .inl ⟨by simp, rfl, rfl, hlt, fun hnil => hempty ((unread_eq_nil_iff pi).mp hnil), hfail⟩
          · exact .inr ⟨by simp [hi0], .inr (.inr ⟨by simpa using hfail, by simp; omega⟩)⟩
        rw [if_neg hfail]
        obtain ⟨hpop, hok⟩ := pop_unread h hempty
        obtain ⟨hsplit, hlen, hends⟩ := ih (i + 1) _ hok (by omega) (by omega)
        refine ⟨⟨?_, hsplit.ok, ?_⟩, ?_, ?_⟩
        · rw [hpop, hsplit.unread, List.cons_append]
        · rw [hsplit.frame]
        · simp only [List.length_cons]
          omega
        · rcases hends with ⟨-, hi0, -⟩ | ⟨hret, hstop⟩
          · omega
          · refine .inr ⟨?_, ?_⟩
            · simp only [List.length_cons]
              rw [hret]
              congr 1
              omega
            · simp only [List.length_cons]
              rw [show i + (_ + 1) = i + 1 + (pipereadCopy n dst fuel (i + 1)
                { pi with nread := pi.nread + 1 }).2.1.length by omega]
              exact hstop
      · have hres : pipereadCopy n dst (fuel + 1) i pi = (pi, [], (i : Int)) := by
          simp [pipereadCopy, Nat.not_lt.mpr hge]
        rw [hres]
        exact ⟨.stay h, by simp; omega, .inr ⟨by simp, .inl (by simp; omega)⟩⟩

theorem piperead_spec (h : PipeOk pi) (killed : Bool) (n : Nat) (dst : Nat → Bool) :
    ReadSplit pi (piperead killed pi n dst).1 (piperead killed pi n dst).2.1 ∧
      ((piperead killed pi n dst).2.2 = .asleep →
        pi.nread = pi.nwrite ∧ pi.writeopen = true ∧ killed = false) ∧
      ∀ ret, (piperead killed pi n dst).2.2 = .done ret →
        (ret = -1 ∧ (piperead killed pi n dst).2.1 = []) ∨
          (ret = (piperead killed pi n dst).2.1.length ∧
            CopyEnds n dst 0 (piperead killed pi n dst).1 (piperead killed pi n dst).2.1 ret) := by
  rw [piperead]
  by_cases hwait : pi.nread = pi.nwrite ∧ pi.writeopen = true
  · rw [if_pos hwait]
    cases killed with
    | true => exact ⟨.stay h, by simp, fun ret hret => .inl ⟨by cases hret; rfl, rfl⟩⟩
    | false => exact ⟨.stay h, fun _ => ⟨hwait.1, hwait.2, rfl⟩, by simp⟩
  · rw [if_neg hwait]
    obtain ⟨hsplit, -, hends⟩ := pipereadCopy_spec n dst n 0 pi h (Nat.zero_le n) (by omega)
    refine ⟨hsplit, by simp, fun ret hret => ?_⟩
    cases hret
    rcases hends with ⟨hret, -, hout, -⟩ | ⟨hret, hstop⟩
    · exact .inl ⟨hret, hout⟩
    · refine .inr ⟨by simpa using hret, .inr ⟨hret, hstop⟩⟩

theorem piperead_zero (h : PipeOk pi) (killed : Bool) {n : Nat} (hn : 0 < n) (dst : Nat → Bool)
    (hzero : (piperead killed pi n dst).2.2 = .done 0) :
    pi.nread = pi.nwrite ∧ pi.writeopen = false := by
  obtain ⟨hsplit, -, hends⟩ := piperead_spec h killed n dst
  rcases hends 0 hzero with ⟨hret, -⟩ | ⟨hret, hcopy⟩
  · omega
  · have hout : (piperead killed pi n dst).2.1 = [] := by
      rw [← List.length_eq_zero_iff]
      omega
    have hwait : ¬ (pi.nread = pi.nwrite ∧ pi.writeopen = true) := by
      intro hwait
      rw [piperead, if_pos hwait] at hzero
      cases killed <;> simp at hzero
    rcases hcopy with ⟨hneg, -⟩ | ⟨-, hstop⟩
    · omega
    · rw [hout, List.length_nil, Nat.zero_add] at hstop
      rcases hstop with hle | hnil | ⟨-, hpos⟩
      · omega
      · have hempty : pi.nread = pi.nwrite := by
          rw [← unread_eq_nil_iff, hsplit.unread, hout, hnil]
          rfl
        refine ⟨hempty, ?_⟩
        simpa [hempty] using hwait
      · omega

end Holds

/-! ## The calls on a pipe -/

/-- A pipe and the calls on it: the `pipewrite` and `piperead` of each process
asleep in its call, and as ghost state the bytes the pipe has accepted, the
bytes reads have returned, the sum of what write calls have returned, and the
bytes written by the write calls asleep. -/
structure PipeSys where
  pipe : Pipe
  writes : Nat → Option Write
  reads : Nat → Option (Nat × (Nat → Bool))
  accepted : List UInt8
  returned : List UInt8
  counted : Nat
  inflight : Nat

/-- A step on a pipe: a process `p` calling `pipewrite` or `piperead`, a call
asleep in one of them running again, or `pipeclose` of one end. -/
inductive Action
  | write (p n : Nat) (src : Nat → Option UInt8) (killed : Bool)
  | read (p n : Nat) (dst : Nat → Bool) (killed : Bool)
  | wakeWrite (p : Nat) (killed : Bool)
  | wakeRead (p : Nat) (killed : Bool)
  | close (writable : Bool)

/-- The pipe after `pipealloc`, in a page `kalloc` has filled with 5s. -/
def PipeSys.init : PipeSys where
  pipe := { data := fun _ => 5, nread := 0, nwrite := 0, readopen := true, writeopen := true }
  writes := fun _ => none
  reads := fun _ => none
  accepted := []
  returned := []
  counted := 0
  inflight := 0

/-- What a hold of the lock adds to the sum of what write calls return. -/
def reported : Outcome → Nat
  | .done ret => ret.toNat
  | .asleep => 0

/-- A hold of `pi->lock` by `p`'s write, recording the bytes the pipe accepts. -/
def PipeSys.runWrite (sys : PipeSys) (p : Nat) (w : Write) (killed : Bool) : PipeSys :=
  let res := pipewrite killed sys.pipe w
  { sys with
    pipe := res.1
    writes := fun q => if q = p then (if res.2.2 = .asleep then some res.2.1 else none) else sys.writes q
    accepted := sys.accepted ++ res.1.unread.drop sys.pipe.unread.length
    counted := sys.counted + reported res.2.2
    inflight := sys.inflight - w.i + (if res.2.2 = .asleep then res.2.1.i else 0) }

/-- A hold of `pi->lock` by `p`'s read, recording the bytes it returns. -/
def PipeSys.runRead (sys : PipeSys) (p n : Nat) (dst : Nat → Bool) (killed : Bool) : PipeSys :=
  let res := piperead killed sys.pipe n dst
  { sys with
    pipe := res.1
    reads := fun q => if q = p then (if res.2.2 = .asleep then some (n, dst) else none) else sys.reads q
    returned := sys.returned ++ res.2.1 }

/-- A call needs the end it uses open: the caller holds that end's file. -/
def step (sys : PipeSys) : Action → Option PipeSys
  | .write p n src killed =>
      if sys.writes p = none ∧ sys.pipe.writeopen = true then some (sys.runWrite p ⟨n, 0, src⟩ killed)
      else none
  | .read p n dst killed =>
      if sys.reads p = none ∧ sys.pipe.readopen = true then some (sys.runRead p n dst killed) else none
  | .wakeWrite p killed =>
      match sys.writes p with
      | some w => some (sys.runWrite p w killed)
      | none => none
  | .wakeRead p killed =>
      match sys.reads p with
      | some (n, dst) => some (sys.runRead p n dst killed)
      | none => none
  | .close writable =>
      if (if writable then sys.pipe.writeopen else sys.pipe.readopen) = true then
        some { sys with pipe := pipeclose sys.pipe writable }
      else none

/-- The states of a pipe reachable from `pipealloc`. -/
def Reachable (sys : PipeSys) : Prop := StepSystem.Reachable step PipeSys.init sys

/-- The counters stay within `PIPESIZE` of each other, and the bytes accepted
are those returned followed by those in the pipe. -/
structure SysOk (sys : PipeSys) : Prop where
  pipe : PipeOk sys.pipe
  fifo : sys.accepted = sys.returned ++ sys.pipe.unread

section Runs

variable {sys sys' : PipeSys}

theorem sysOk_init : SysOk PipeSys.init where
  pipe := by simp [PipeOk, PipeSys.init]
  fifo := rfl

theorem SysOk.runWrite (h : SysOk sys) (p : Nat) (w : Write) (killed : Bool) :
    SysOk (sys.runWrite p w killed) := by
  obtain ⟨new, hsplit, -⟩ := pipewrite_spec h.pipe killed w
  refine ⟨hsplit.ok, ?_⟩
  show sys.accepted ++ (pipewrite killed sys.pipe w).1.unread.drop sys.pipe.unread.length =
    sys.returned ++ (pipewrite killed sys.pipe w).1.unread
  rw [hsplit.unread, List.drop_left, h.fifo, List.append_assoc]

theorem SysOk.runRead (h : SysOk sys) (p n : Nat) (dst : Nat → Bool) (killed : Bool) :
    SysOk (sys.runRead p n dst killed) := by
  obtain ⟨hsplit, -⟩ := piperead_spec h.pipe killed n dst
  refine ⟨hsplit.ok, ?_⟩
  show sys.accepted = (sys.returned ++ (piperead killed sys.pipe n dst).2.1) ++
    (piperead killed sys.pipe n dst).1.unread
  rw [h.fifo, hsplit.unread, List.append_assoc]

theorem SysOk.close (h : SysOk sys) (writable : Bool) :
    SysOk { sys with pipe := pipeclose sys.pipe writable } := by
  have hok : PipeOk (pipeclose sys.pipe writable) := by
    cases writable
    · exact h.pipe
    · exact h.pipe
  exact ⟨hok, by rw [pipeclose_unread]; exact h.fifo⟩

theorem sysOk_step {a : Action} (h : SysOk sys) (hstep : step sys a = some sys') : SysOk sys' := by
  cases a with
  | write p n src killed =>
      simp only [step] at hstep
      split at hstep
      · cases hstep
        exact h.runWrite p _ killed
      · cases hstep
  | read p n dst killed =>
      simp only [step] at hstep
      split at hstep
      · cases hstep
        exact h.runRead p n dst killed
      · cases hstep
  | wakeWrite p killed =>
      simp only [step] at hstep
      split at hstep
      · cases hstep
        exact h.runWrite p _ killed
      · cases hstep
  | wakeRead p killed =>
      simp only [step] at hstep
      split at hstep
      · cases hstep
        exact h.runRead p _ _ killed
      · cases hstep
  | close writable =>
      simp only [step] at hstep
      split_ifs at hstep
      all_goals
        cases hstep
        exact h.close writable

theorem reachable_sysOk (hs : Reachable sys) : SysOk sys :=
  StepSystem.Reachable.invariant sysOk_init (fun _ _ _ _ h hstep => sysOk_step h hstep) hs

end Runs

/-! ## Pipes as FIFOs -/

section Contract

/-- Reads return no more bytes than write calls report writing, counting the
bytes of the write calls still asleep. -/
def WritesCountAccepted : Prop :=
  ∀ sys, Reachable sys → sys.returned.length ≤ sys.counted + sys.inflight

/-- A write of 513 bytes fills the pipe and sleeps; killed, it returns -1; a
read then returns the 512 bytes it wrote. -/
def killedWriteRun : List Action :=
  [.write 0 513 (fun _ => some 0) false, .wakeWrite 0 true, .read 1 512 (fun _ => true) false]

theorem writes_count_accepted_fails : ¬ WritesCountAccepted := by
  intro hall
  have hrun : ∃ sys, Reachable sys ∧ sys.counted + sys.inflight < sys.returned.length :=
    StepSystem.exists_reachable_of_check .init killedWriteRun _ (by decide +kernel)
  obtain ⟨sys, hs, hmore⟩ := hrun
  exact Nat.not_le.mpr hmore (hall sys hs)

/-- A pipe is a FIFO of the bytes it accepts: in every reachable state
`nwrite - nread` is at most `PIPESIZE` as an unsigned difference, and the bytes
accepted are those returned by reads followed by those in the pipe.  A hold of
the lock by `pipewrite` appends the call's next source bytes, and returns -1
(closed read end, or killed) or the count of bytes the call has written; a hold
by `piperead` returns the count of bytes it copies, or -1 having copied none;
and a read asking for bytes returns 0 only on an empty pipe whose write end is
closed. -/
theorem pipe_contract :
    (∀ sys, Reachable sys →
      dist sys.pipe.nread sys.pipe.nwrite ≤ pipeSize ∧ sys.accepted = sys.returned ++ sys.pipe.unread) ∧
    (∀ sys w killed, Reachable sys →
      ∃ new, WriteSplit sys.pipe (pipewrite killed sys.pipe w).1 w (pipewrite killed sys.pipe w).2.1 new ∧
        WriteEnds sys.pipe.readopen killed (pipewrite killed sys.pipe w).1
          (pipewrite killed sys.pipe w).2.1 (pipewrite killed sys.pipe w).2.2) ∧
    (∀ sys n dst killed, Reachable sys → ∀ ret, (piperead killed sys.pipe n dst).2.2 = .done ret →
      (ret = -1 ∧ (piperead killed sys.pipe n dst).2.1 = []) ∨
        ret = (piperead killed sys.pipe n dst).2.1.length) ∧
    (∀ sys n dst killed, Reachable sys → 0 < n → (piperead killed sys.pipe n dst).2.2 = .done 0 →
      sys.pipe.nread = sys.pipe.nwrite ∧ sys.pipe.writeopen = false) := by
  refine ⟨fun sys hs => ?_, fun sys w killed hs => pipewrite_spec (reachable_sysOk hs).pipe killed w,
    fun sys n dst killed hs ret hret => ?_,
    fun sys n dst killed hs hn hzero => piperead_zero (reachable_sysOk hs).pipe killed hn dst hzero⟩
  · have h := reachable_sysOk hs
    exact ⟨h.pipe, h.fifo⟩
  · rcases (piperead_spec (reachable_sysOk hs).pipe killed n dst).2.2 ret hret with hneg | ⟨hcount, -⟩
    · exact .inl hneg
    · exact .inr hcount

end Contract

end Xv6Mlfq.Pipes
