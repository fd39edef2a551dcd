import Mathlib.Data.List.Nodup
import Mathlib.Logic.Function.Basic
import Xv6Mlfq.Library.StepSystem

/-!
The write-ahead log of log.c over a disk whose block writes are atomic:
begin_op's admission, log_write's absorption, commit's write_log,
write_head, install_trans and clearing write_head one block write at a
time, and fsinit's recover_from_log after a crash.  Whatever prefix of the
block writes a crash leaves on the disk, recovery restores every block
outside the log to the buffer cache's contents at the last commit point.
-/

namespace Xv6Mlfq.Log

open StepSystem

/-- MAXOPBLOCKS in param.h. -/
def maxOpBlocks : Nat := 10

/-- LOGBLOCKS in param.h: the data blocks the on-disk log holds. -/
def logBlocks : Nat := maxOpBlocks * 3

/-- The disk: the contents of each block number. -/
abbrev Disk (α : Type) := Nat → α

/-- What the log is for: a store whose current contents become durable all
at once at a commit and fall back to the durable ones at a crash. -/
@[ext] structure TxStore (κ β : Type) where
  durable : κ → β
  current : κ → β

/-- A store whose durable and current contents are both `f`. -/
def TxStore.init {κ β : Type} (f : κ → β) : TxStore κ β := ⟨f, f⟩

/-- The store's operations. -/
inductive TxOp (κ β : Type)
  | write (k : κ) (v : β)
  | commit
  | crash

/-- A write changes only the current contents; a commit makes all of them
durable; a crash brings back the durable ones. -/
def TxStore.step {κ β : Type} [DecidableEq κ] (m : TxStore κ β) : TxOp κ β → Option (TxStore κ β)
  | .write k v => some { m with current := Function.update m.current k v }
  | .commit => some { m with durable := m.current }
  | .crash => some { m with current := m.durable }

/-- Where the log lies on the disk (sb.logstart), and the header block seen
through struct logheader: read_head's n and block[0..n) as a list, and
write_head's stores of them into the buffer. -/
structure LogDev (α : Type) where
  start : Nat
  head : α → List Nat
  setHead : α → List Nat → α
  head_setHead : ∀ a l, l.length ≤ logBlocks → head (setHead a l) = l

namespace LogDev

variable {α : Type} (dev : LogDev α)

/-- The log block after the header where write_log puts lh.block[tail]. -/
def slot (tail : Nat) : Nat := dev.start + tail + 1

/-- Blocks outside the log, whose header and LOGBLOCKS data blocks start at sb.logstart. -/
def Home (b : Nat) : Prop := b < dev.start ∨ dev.start + logBlocks < b

instance : DecidablePred dev.Home := fun _ => inferInstanceAs (Decidable (_ ∨ _))

variable {dev}

theorem ne_start {b : Nat} (hb : dev.Home b) : b ≠ dev.start := by
  unfold Home at hb
  omega

theorem ne_slot {b t : Nat} (hb : dev.Home b) (ht : t < logBlocks) : b ≠ dev.slot t := by
  unfold Home at hb
  unfold slot
  omega

theorem slot_ne_start (t : Nat) : dev.slot t ≠ dev.start := by
  unfold slot
  omega

theorem slot_inj {i j : Nat} (h : dev.slot i = dev.slot j) : i = j := by
  unfold slot at h
  omega

end LogDev

/-- Where the thread in commit() (log.committing = 1), or fsinit's
recover_from_log, stands; idle when neither runs. -/
inductive Phase
  | idle
  | writeLog (tail : Nat)
  | writeHead
  | install (tail : Nat)
  | clear
  | done
  | recover (tail : Nat)
  | recoverClear
  deriving DecidableEq, Repr

/-- The for loop over tail < n: its next iteration, or the code after it. -/
def Phase.next (loop : Nat → Phase) (after : Phase) (tail n : Nat) : Phase :=
  if tail + 1 < n then loop (tail + 1) else after

/-- Entering the for loop over tail < n. -/
def Phase.enter (loop : Nat → Phase) (after : Phase) (n : Nat) : Phase :=
  if 0 < n then loop 0 else after

/-- fsinit's recover_from_log is running. -/
def Phase.recovering : Phase → Bool
  | .recover _ | .recoverClear => true
  | _ => false

/-- The log with the disk under it.  The buffer cache is seen through what
bread returns for each block: log_write pins a logged buffer, so its changes
stay in the cache until install_trans writes it home. -/
structure LogSys (α : Type) where
  disk : Disk α
  cache : Disk α
  lh : List Nat
  outstanding : Nat
  phase : Phase

/-- A file-system call's begin_op, its change to one block's buffer followed
by log_write, its end_op; the committing thread's and recover_from_log's
next steps; a crash and reboot. -/
inductive Action (α : Type)
  | beginOp
  | write (b : Nat) (v : α)
  | endOp
  | commit
  | recover
  | crash

section Model

variable {α : Type} (dev : LogDev α)

/-- log_write's scan of log.lh.block[0..n): a logged block keeps its entry
(log absorption), a new one is appended. -/
def absorb (b : Nat) : List Nat → List Nat
  | [] => [b]
  | x :: xs => if x = b then x :: xs else x :: absorb b xs

/-- log_write(b), once the caller has changed b's buffer; none where it panics. -/
def logWrite (s : LogSys α) (b : Nat) : Option (LogSys α) :=
  if logBlocks ≤ s.lh.length then none
  else if s.outstanding < 1 then none
  else some { s with lh := absorb b s.lh }

/-- bwrite of a buffer holding `v`: the cache and the disk block agree. -/
def bwrite (s : LogSys α) (b : Nat) (v : α) : LogSys α :=
  { s with disk := Function.update s.disk b v, cache := Function.update s.cache b v }

/-- write_head(): the in-memory header stored into the header block. -/
def writeHead (s : LogSys α) : LogSys α :=
  bwrite s dev.start (dev.setHead (s.cache dev.start) s.lh)

/-- One iteration of write_log: log block tail gets the cached lh.block[tail]. -/
def writeLogAt (s : LogSys α) (tail : Nat) : Option (LogSys α) :=
  s.lh[tail]?.map fun b => bwrite s (dev.slot tail) (s.cache b)

/-- One iteration of install_trans: lh.block[tail] gets log block tail. -/
def installAt (s : LogSys α) (tail : Nat) : Option (LogSys α) :=
  s.lh[tail]?.map fun b => bwrite s b (s.cache (dev.slot tail))

/-- log.lh.n = 0; write_head(), which ends commit() and recover_from_log. -/
def clearHead (s : LogSys α) : LogSys α :=
  writeHead dev { s with lh := [] }

/-- The committing thread's next step: one block write of commit(), or
end_op's committing = 0 after it. -/
def commitStep (s : LogSys α) : Option (LogSys α) :=
  match s.phase with
  | .writeLog t =>
      (writeLogAt dev s t).map fun s' => { s' with phase := .next .writeLog .writeHead t s.lh.length }
  | .writeHead => some { writeHead dev s with phase := .enter .install .clear s.lh.length }
  | .install t =>
      (installAt dev s t).map fun s' => { s' with phase := .next .install .clear t s.lh.length }
  | .clear => some { clearHead dev s with phase := .done }
  | .done => some { s with phase := .idle }
  | _ => none

/-- recover_from_log's next block write: install_trans(1), then the clearing write_head. -/
def recoverStep (s : LogSys α) : Option (LogSys α) :=
  match s.phase with
  | .recover t =>
      (installAt dev s t).map fun s' => { s' with phase := .next .recover .recoverClear t s.lh.length }
  | .recoverClear => some { clearHead dev s with phase := .idle }
  | _ => none

/-- Boot on a disk: the buffer cache is empty and fsinit's recover_from_log
has run read_head. -/
def boot (d : Disk α) : LogSys α where
  disk := d
  cache := d
  lh := dev.head (d dev.start)
  outstanding := 0
  phase := .enter .recover .recoverClear (dev.head (d dev.start)).length

/-- The system's steps.  begin_op sleeps while committing or while the
transaction might overflow the log, and no file-system call starts before
fsinit's recovery; file-system calls log only blocks outside the log. -/
def step (s : LogSys α) : Action α → Option (LogSys α)
  | .beginOp =>
      if s.phase = .idle ∧ s.lh.length + (s.outstanding + 1) * maxOpBlocks ≤ logBlocks then
        some { s with outstanding := s.outstanding + 1 }
      else none
  | .write b v => if dev.Home b then logWrite { s with cache := Function.update s.cache b v } b else none
  | .endOp =>
      if s.outstanding = 0 ∨ s.phase ≠ .idle then none
      else if s.outstanding = 1 then
        some { s with outstanding := 0, phase := .enter .writeLog .done s.lh.length }
      else some { s with outstanding := s.outstanding - 1 }
  | .commit => commitStep dev s
  | .recover => recoverStep dev s
  | .crash => some (boot dev s.disk)

/-- install_trans on the disk itself: lh.block[tail] gets log block tail, for
each tail from the given one. -/
def installLoop : List Nat → Nat → Disk α → Disk α
  | [], _, d => d
  | b :: bs, tail, d => installLoop bs (tail + 1) (Function.update d b (d (dev.slot tail)))

/-- recover_from_log on a crashed disk: read_head, install_trans(1), and
the clearing write_head. -/
def recoverFromLog (d : Disk α) : Disk α :=
  let d' := installLoop dev (dev.head (d dev.start)) 0 d
  Function.update d' dev.start (dev.setHead (d' dev.start) [])

/-- The state fsinit's recover_from_log leaves: the log idle and empty, and
the buffer cache as the disk. -/
def idleOn (d : Disk α) : LogSys α where
  disk := d
  cache := d
  lh := []
  outstanding := 0
  phase := .idle

/-- The commit point: the committing thread's first write_head. -/
def isCommit (s : LogSys α) : Action α → Bool
  | .commit => s.phase = .writeHead
  | _ => false

/-- The contents as of the last commit point of a run: the buffer cache when
its write_head committed, or `d` if the run reaches none. -/
def lastCommit : LogSys α → List (Action α) → Disk α → Disk α
  | _, [], d => d
  | s, a :: as, d =>
      match step dev s a with
      | none => d
      | some s' => lastCommit s' as (if isCommit s a then s.cache else d)

/-- The store the log implements, on the blocks outside the log: durable is
what recovery would make of the disk, current is what bread returns or, while
fsinit recovers, what recovery will leave. -/
def toStore (s : LogSys α) : TxStore {b // dev.Home b} α where
  durable b := recoverFromLog dev s.disk b
  current b := if s.phase.recovering then recoverFromLog dev s.disk b else s.cache b

/-- The store operation a step is: a file-system call's write, the commit
point, or a crash; every other step is hidden. -/
def toOp (s : LogSys α) : Action α → Option (TxOp {b // dev.Home b} α)
  | .write b v => if h : dev.Home b then some (.write ⟨b, h⟩ v) else none
  | .commit => if s.phase = .writeHead then some .commit else none
  | .crash => some .crash
  | _ => none

end Model

section Lemmas

variable {α : Type} {dev : LogDev α}

@[simp] theorem bwrite_disk (s : LogSys α) (b : Nat) (v : α) :
    (bwrite s b v).disk = Function.update s.disk b v := rfl

@[simp] theorem bwrite_cache (s : LogSys α) (b : Nat) (v : α) :
    (bwrite s b v).cache = Function.update s.cache b v := rfl

@[simp] theorem bwrite_lh (s : LogSys α) (b : Nat) (v : α) : (bwrite s b v).lh = s.lh := rfl

@[simp] theorem bwrite_outstanding (s : LogSys α) (b : Nat) (v : α) :
    (bwrite s b v).outstanding = s.outstanding := rfl

@[simp] theorem bwrite_phase (s : LogSys α) (b : Nat) (v : α) : (bwrite s b v).phase = s.phase := rfl

@[simp] theorem writeHead_lh (s : LogSys α) : (writeHead dev s).lh = s.lh := rfl

@[simp] theorem writeHead_outstanding (s : LogSys α) :
    (writeHead dev s).outstanding = s.outstanding := rfl

theorem head_writeHead {s : LogSys α} (h : s.lh.length ≤ logBlocks) :
    dev.head ((writeHead dev s).disk dev.start) = s.lh := by
  simp [writeHead, dev.head_setHead _ _ h]

theorem writeHead_disk_of_ne {s : LogSys α} {b : Nat} (hb : b ≠ dev.start) :
    (writeHead dev s).disk b = s.disk b :=
  Function.update_of_ne hb _ _

theorem writeHead_cache_of_ne {s : LogSys α} {b : Nat} (hb : b ≠ dev.start) :
    (writeHead dev s).cache b = s.cache b :=
  Function.update_of_ne hb _ _

theorem absorb_of_mem {b : Nat} {l : List Nat} (h : b ∈ l) : absorb b l = l := by
  induction l with
  | nil => cases h
  | cons x xs ih =>
      rw [absorb]
      split
      · rfl
      · rename_i hx
        have hb : b ∈ xs := (List.mem_cons.mp h).resolve_left (Ne.symm hx)
        rw [ih hb]

theorem absorb_of_not_mem {b : Nat} {l : List Nat} (h : b ∉ l) : absorb b l = l ++ [b] := by
  induction l with
  | nil => rfl
  | cons x xs ih =>
      rw [List.mem_cons, not_or] at h
      rw [absorb, if_neg (Ne.symm h.1), ih h.2, List.cons_append]

theorem installLoop_of_not_mem {b : Nat} {l : List Nat} (hb : b ∉ l) (k : Nat) (d : Disk α) :
    installLoop dev l k d b = d b := by
  induction l generalizing k d with
  | nil => rfl
  | cons x xs ih =>
      rw [List.mem_cons, not_or] at hb
      rw [installLoop, ih hb.2, Function.update_of_ne hb.1]

end Lemmas

section Invariant

variable {α : Type} (dev : LogDev α)

/-- What log_write keeps of log.lh.block[0..n), and what a header written
from it holds: distinct blocks outside the log, at most LOGBLOCKS of them. -/
structure HeaderOk (l : List Nat) : Prop where
  nodup : l.Nodup
  home : ∀ b ∈ l, dev.Home b
  length_le : l.length ≤ logBlocks

/-- Every home block outside the transaction is cached as it is on disk. -/
def Clean (s : LogSys α) : Prop :=
  ∀ b, dev.Home b → b ∉ s.lh → s.cache b = s.disk b

/-- write_log has copied lh.block[i] for each i < t into log block i. -/
def Logged (s : LogSys α) (t : Nat) : Prop :=
  ∀ i b, s.lh[i]? = some b → i < t → s.disk (dev.slot i) = s.cache b ∧ s.cache (dev.slot i) = s.cache b

/-- install_trans(0) has written lh.block[i] home for each i < t. -/
def Installed (s : LogSys α) (t : Nat) : Prop :=
  ∀ i b, s.lh[i]? = some b → i < t → s.disk b = s.cache b

/-- recover_from_log has copied log block i home for each i < t. -/
def Recovered (s : LogSys α) (t : Nat) : Prop :=
  ∀ i b, s.lh[i]? = some b → i < t → s.disk b = s.disk (dev.slot i)

/-- What holds at each point of commit() and recover_from_log: the header on
disk is empty until the commit point and names the transaction from it until
the clearing write_head. -/
def PhaseOk (s : LogSys α) : Prop :=
  match s.phase with
  | .idle => dev.head (s.disk dev.start) = [] ∧ Clean dev s
  | .writeLog t =>
      dev.head (s.disk dev.start) = [] ∧ s.outstanding = 0 ∧ t < s.lh.length ∧ Clean dev s ∧
        Logged dev s t
  | .writeHead =>
      dev.head (s.disk dev.start) = [] ∧ s.outstanding = 0 ∧ Clean dev s ∧ Logged dev s s.lh.length
  | .install t =>
      dev.head (s.disk dev.start) = s.lh ∧ s.outstanding = 0 ∧ t < s.lh.length ∧ Clean dev s ∧
        Logged dev s s.lh.length ∧ Installed s t
  | .clear =>
      dev.head (s.disk dev.start) = s.lh ∧ s.outstanding = 0 ∧ Clean dev s ∧
        Logged dev s s.lh.length ∧ Installed s s.lh.length
  | .done => dev.head (s.disk dev.start) = [] ∧ s.outstanding = 0 ∧ s.lh = [] ∧ Clean dev s
  | .recover t =>
      dev.head (s.disk dev.start) = s.lh ∧ s.outstanding = 0 ∧ t < s.lh.length ∧
        s.cache = s.disk ∧ Recovered dev s t
  | .recoverClear =>
      dev.head (s.disk dev.start) = s.lh ∧ s.outstanding = 0 ∧ s.cache = s.disk ∧
        Recovered dev s s.lh.length

/-- The invariant of every reachable state. -/
structure LogOk (s : LogSys α) : Prop where
  header : HeaderOk dev s.lh
  phase : PhaseOk dev s

end Invariant

section Recovery

variable {α : Type} {dev : LogDev α}

theorem HeaderOk.nil : HeaderOk dev [] :=
  ⟨List.nodup_nil, fun _ h => (nomatch h), Nat.zero_le _⟩

theorem HeaderOk.absorb {l : List Nat} {b : Nat} (hl : HeaderOk dev l) (hb : dev.Home b)
    (hlen : l.length < logBlocks) : HeaderOk dev (absorb b l) := by
  rcases em (b ∈ l) with hmem | hmem
  · rw [absorb_of_mem hmem]
    exact hl
  · rw [absorb_of_not_mem hmem]
    refine ⟨?_, ?_, ?_⟩
    · exact List.nodup_append.mpr ⟨hl.nodup, List.nodup_singleton b,
        fun x hx y hy => by rw [List.mem_singleton.mp hy]; exact fun h => hmem (h ▸ hx)⟩
    · intro x hx
      rcases List.mem_append.mp hx with hx | hx
      · exact hl.home x hx
      · rw [List.mem_singleton.mp hx]
        exact hb
    · rw [List.length_append, List.length_singleton]
      omega

theorem HeaderOk.lt_logBlocks {l : List Nat} (hl : HeaderOk dev l) {i b : Nat} (hi : l[i]? = some b) :
    i < logBlocks :=
  Nat.lt_of_lt_of_le (List.getElem?_eq_some_iff.mp hi).1 hl.length_le

theorem HeaderOk.ne_slot {l : List Nat} (hl : HeaderOk dev l) {x i : Nat} (hx : x ∈ l)
    (hi : i < l.length) : x ≠ dev.slot i :=
  LogDev.ne_slot (hl.home x hx) (Nat.lt_of_lt_of_le hi hl.length_le)

theorem HeaderOk.index_inj {l : List Nat} (hl : HeaderOk dev l) {i j b : Nat} (hi : l[i]? = some b)
    (hj : l[j]? = some b) : i = j := by
  obtain ⟨hi, rfl⟩ := List.getElem?_eq_some_iff.mp hi
  obtain ⟨hj, hij⟩ := List.getElem?_eq_some_iff.mp hj
  exact (hl.nodup.getElem_inj_iff.mp hij).symm

theorem installLoop_of_getElem? {l : List Nat} (hnd : l.Nodup) (hhome : ∀ x ∈ l, dev.Home x)
    {k : Nat} (hlen : k + l.length ≤ logBlocks) {i b : Nat} (hi : l[i]? = some b) (d : Disk α) :
    installLoop dev l k d b = d (dev.slot (k + i)) := by
  induction l generalizing k i d with
  | nil => cases hi
  | cons x xs ih =>
      rw [installLoop]
      cases i with
      | zero =>
          have hxb : x = b := by simpa using hi
          subst hxb
          rw [installLoop_of_not_mem (List.nodup_cons.mp hnd).1, Function.update_self, Nat.add_zero]
      | succ i =>
          rw [List.getElem?_cons_succ] at hi
          have hlt : i < xs.length := (List.getElem?_eq_some_iff.mp hi).1
          rw [List.length_cons] at hlen
          rw [ih hnd.of_cons (fun y hy => hhome y (List.mem_cons_of_mem x hy)) (by omega) hi,
            Function.update_of_ne (LogDev.ne_slot (hhome x List.mem_cons_self) (by omega)).symm,
            Nat.add_right_comm, Nat.add_assoc]

theorem HeaderOk.installLoop {l : List Nat} (hl : HeaderOk dev l) {i b : Nat} (hi : l[i]? = some b)
    (d : Disk α) : installLoop dev l 0 d b = d (dev.slot i) := by
  rw [installLoop_of_getElem? hl.nodup hl.home (by rw [Nat.zero_add]; exact hl.length_le) hi,
    Nat.zero_add]

theorem recoverFromLog_home {b : Nat} (hb : dev.Home b) (d : Disk α) :
    recoverFromLog dev d b = installLoop dev (dev.head (d dev.start)) 0 d b :=
  Function.update_of_ne (LogDev.ne_start hb) _ _

theorem recoverFromLog_of_head_nil {d : Disk α} (h : dev.head (d dev.start) = []) {b : Nat}
    (hb : dev.Home b) : recoverFromLog dev d b = d b := by
  rw [recoverFromLog_home hb, h]
  rfl

theorem recoverFromLog_of_logged {d c : Disk α} {l : List Nat} (hl : HeaderOk dev l)
    (hh : dev.head (d dev.start) = l) (hlog : ∀ i x, l[i]? = some x → d (dev.slot i) = c x)
    {b : Nat} (hb : dev.Home b) : recoverFromLog dev d b = if b ∈ l then c b else d b := by
  rw [recoverFromLog_home hb, hh]
  split
  · rename_i hmem
    obtain ⟨i, hi⟩ := List.mem_iff_getElem?.mp hmem
    rw [hl.installLoop hi, hlog i b hi]
  · exact installLoop_of_not_mem ‹_› 0 d

theorem recoverFromLog_congr {d d' : Disk α} {l : List Nat} (hl : HeaderOk dev l)
    (hh : dev.head (d dev.start) = l) (hh' : dev.head (d' dev.start) = l)
    (hslot : ∀ i, i < l.length → d' (dev.slot i) = d (dev.slot i))
    (hout : ∀ b, dev.Home b → b ∉ l → d' b = d b) {b : Nat} (hb : dev.Home b) :
    recoverFromLog dev d' b = recoverFromLog dev d b := by
  rw [recoverFromLog_home hb, recoverFromLog_home hb, hh, hh']
  rcases em (b ∈ l) with hmem | hmem
  · obtain ⟨i, hi⟩ := List.mem_iff_getElem?.mp hmem
    rw [hl.installLoop hi, hl.installLoop hi]
    exact hslot i (List.getElem?_eq_some_iff.mp hi).1
  · rw [installLoop_of_not_mem hmem, installLoop_of_not_mem hmem]
    exact hout b hb hmem

end Recovery

section Steps

variable {α : Type} {dev : LogDev α} {s s' : LogSys α}

theorem step_beginOp (h : step dev s .beginOp = some s') :
    s.phase = .idle ∧ s' = { s with outstanding := s.outstanding + 1 } := by
  simp only [step] at h
  split at h
  · rename_i hc
    exact ⟨hc.1, (Option.some.inj h).symm⟩
  · cases h

theorem step_write {b : Nat} {v : α} (h : step dev s (.write b v) = some s') :
    dev.Home b ∧ s.lh.length < logBlocks ∧ 0 < s.outstanding ∧
      s' = { s with cache := Function.update s.cache b v, lh := absorb b s.lh } := by
  simp only [step, logWrite] at h
  split_ifs at h with hb hfull hout
  cases h
  exact ⟨hb, by omega, by omega, rfl⟩

theorem step_endOp (h : step dev s .endOp = some s') :
    s.phase = .idle ∧
      ((s.outstanding = 1 ∧ s' = { s with outstanding := 0, phase := .enter .writeLog .done s.lh.length }) ∨
        (1 < s.outstanding ∧ s' = { s with outstanding := s.outstanding - 1 })) := by
  simp only [step] at h
  split_ifs at h with hbad hone
  · cases h
    exact ⟨by simpa using (not_or.mp hbad).2, .inl ⟨hone, rfl⟩⟩
  · cases h
    obtain ⟨hzero, hidle⟩ := not_or.mp hbad
    exact ⟨by simpa using hidle, .inr ⟨by omega, rfl⟩⟩

/-- What one step of the committing thread can do. -/
theorem commitStep_cases (h : commitStep dev s = some s') :
    (∃ t b, s.phase = .writeLog t ∧ s.lh[t]? = some b ∧
        s' = { bwrite s (dev.slot t) (s.cache b) with phase := .next .writeLog .writeHead t s.lh.length }) ∨
      (s.phase = .writeHead ∧ s' = { writeHead dev s with phase := .enter .install .clear s.lh.length }) ∨
      (∃ t b, s.phase = .install t ∧ s.lh[t]? = some b ∧
        s' = { bwrite s b (s.cache (dev.slot t)) with phase := .next .install .clear t s.lh.length }) ∨
      (s.phase = .clear ∧ s' = { clearHead dev s with phase := .done }) ∨
      (s.phase = .done ∧ s' = { s with phase := .idle }) := by
  unfold commitStep at h
  split at h
  · rename_i t hp
    simp only [writeLogAt, Option.map_map, Option.map_eq_some_iff, Function.comp_def] at h
    obtain ⟨b, hb, rfl⟩ := h
    exact .inl ⟨t, b, hp, hb, rfl⟩
  · rename_i hp
    exact .inr (.inl ⟨hp, (Option.some.inj h).symm⟩)
  · rename_i t hp
    simp only [installAt, Option.map_map, Option.map_eq_some_iff, Function.comp_def] at h
    obtain ⟨b, hb, rfl⟩ := h
    exact .inr (.inr (.inl ⟨t, b, hp, hb, rfl⟩))
  · rename_i hp
    exact .inr (.inr (.inr (.inl ⟨hp, (Option.some.inj h).symm⟩)))
  · rename_i hp
    exact .inr (.inr (.inr (.inr ⟨hp, (Option.some.inj h).symm⟩)))
  · cases h

theorem recoverStep_cases (h : recoverStep dev s = some s') :
    (∃ t b, s.phase = .recover t ∧ s.lh[t]? = some b ∧
        s' = { bwrite s b (s.cache (dev.slot t)) with phase := .next .recover .recoverClear t s.lh.length }) ∨
      (s.phase = .recoverClear ∧ s' = { clearHead dev s with phase := .idle }) := by
  unfold recoverStep at h
  split at h
  · rename_i t hp
    simp only [installAt, Option.map_map, Option.map_eq_some_iff, Function.comp_def] at h
    obtain ⟨b, hb, rfl⟩ := h
    exact .inl ⟨t, b, hp, hb, rfl⟩
  · rename_i hp
    exact .inr ⟨hp, (Option.some.inj h).symm⟩
  · cases h

end Steps

section Preservation

variable {α : Type} {dev : LogDev α} {s s' : LogSys α}

theorem mem_absorb {b x : Nat} {l : List Nat} : x ∈ absorb b l ↔ x = b ∨ x ∈ l := by
  rcases em (b ∈ l) with h | h
  · rw [absorb_of_mem h]
    constructor
    · exact .inr
    · rintro (rfl | hx)
      · exact h
      · exact hx
  · rw [absorb_of_not_mem h, List.mem_append, List.mem_singleton, or_comm]

theorem Clean.write (h : Clean dev s) (b : Nat) (v : α) :
    Clean dev { s with cache := Function.update s.cache b v, lh := absorb b s.lh } := by
  intro x hx hxl
  obtain ⟨hxb, hxl⟩ := not_or.mp (mem_absorb.not.mp hxl)
  show Function.update s.cache b v x = s.disk x
  rw [Function.update_of_ne hxb]
  exact h x hx hxl

theorem Clean.bwrite (h : Clean dev s) {x : Nat} (hx : dev.Home x → x ∈ s.lh) (v : α) :
    Clean dev (bwrite s x v) := by
  intro b hb hbl
  have hne : b ≠ x := fun hbx => hbl (hbx ▸ hx (hbx ▸ hb))
  simp only [bwrite_cache, bwrite_disk, Function.update_of_ne hne]
  exact h b hb hbl

theorem Logged.writeLog (hl : HeaderOk dev s.lh) (h : Logged dev s t) {b : Nat} (hb : s.lh[t]? = some b) :
    Logged dev (bwrite s (dev.slot t) (s.cache b)) (t + 1) := by
  intro i c hi hit
  rw [bwrite_lh] at hi
  have hc : c ≠ dev.slot t := hl.ne_slot (List.mem_of_getElem? hi) (List.getElem?_eq_some_iff.mp hb).1
  simp only [bwrite_disk, bwrite_cache, Function.update_of_ne hc]
  rcases Nat.lt_succ_iff_lt_or_eq.mp hit with hit | rfl
  · have hne : dev.slot i ≠ dev.slot t := fun he => Nat.ne_of_lt hit (LogDev.slot_inj he)
    rw [Function.update_of_ne hne, Function.update_of_ne hne]
    exact h i c hi hit
  · rw [Option.some.inj (hi.symm.trans hb)]
    exact ⟨Function.update_self _ _ _, Function.update_self _ _ _⟩

theorem Logged.bwrite (h : Logged dev s n) {x : Nat} (hslot : ∀ i < n, x ≠ dev.slot i) (hx : x ∉ s.lh)
    (v : α) : Logged dev (bwrite s x v) n := by
  intro i c hi hin
  rw [bwrite_lh] at hi
  have hc : c ≠ x := fun hcx => hx (hcx ▸ List.mem_of_getElem? hi)
  simp only [bwrite_disk, bwrite_cache, Function.update_of_ne hc,
    Function.update_of_ne (hslot i hin).symm]
  exact h i c hi hin

theorem bwrite_install (hlog : Logged dev s s.lh.length) {t b : Nat} (hb : s.lh[t]? = some b) :
    bwrite s b (s.cache (dev.slot t)) = { s with disk := Function.update s.disk b (s.cache b) } := by
  rw [(hlog t b hb (List.getElem?_eq_some_iff.mp hb).1).2]
  simp [bwrite]

theorem PhaseOk.idle_of_pos (h : PhaseOk dev s) (hout : 0 < s.outstanding) : s.phase = .idle := by
  unfold PhaseOk at h
  split at h
  · assumption
  all_goals exact absurd h.2.1 (Nat.pos_iff_ne_zero.mp hout)

theorem PhaseOk.head_ok (hl : HeaderOk dev s.lh) (h : PhaseOk dev s) :
    HeaderOk dev (dev.head (s.disk dev.start)) := by
  unfold PhaseOk at h
  split at h
  all_goals first
    | rw [h.1]; exact .nil
    | rw [h.1]; exact hl

end Preservation

section Runs

variable {α : Type} {dev : LogDev α} {s s' : LogSys α}

theorem logOk_boot {d : Disk α} (hd : HeaderOk dev (dev.head (d dev.start))) : LogOk dev (boot dev d) := by
  refine ⟨hd, ?_⟩
  unfold boot Phase.enter
  split_ifs with hn
  · unfold PhaseOk
    exact ⟨rfl, rfl, hn, rfl, fun i _ _ hi => absurd hi (Nat.not_lt_zero i)⟩
  · unfold PhaseOk
    exact ⟨rfl, rfl, rfl, fun i _ _ hi => absurd (Nat.lt_of_lt_of_le hi (Nat.le_of_not_lt hn))
      (Nat.not_lt_zero i)⟩

theorem LogOk.beginOp (hs : LogOk dev s) (h : step dev s .beginOp = some s') : LogOk dev s' := by
  obtain ⟨hp, rfl⟩ := step_beginOp h
  refine ⟨hs.header, ?_⟩
  have hph := hs.phase
  simp only [PhaseOk, hp] at hph ⊢
  exact hph

theorem LogOk.write {b : Nat} {v : α} (hs : LogOk dev s) (h : step dev s (.write b v) = some s') :
    LogOk dev s' := by
  obtain ⟨hb, hlen, hout, rfl⟩ := step_write h
  refine ⟨hs.header.absorb hb hlen, ?_⟩
  -- a call in progress means that neither commit() nor recovery runs
  have hp : s.phase = .idle := hs.phase.idle_of_pos hout
  have hph := hs.phase
  simp only [PhaseOk, hp] at hph ⊢
  exact ⟨hph.1, hph.2.write b v⟩

theorem LogOk.endOp (hs : LogOk dev s) (h : step dev s .endOp = some s') : LogOk dev s' := by
  obtain ⟨hp, ⟨-, rfl⟩ | ⟨-, rfl⟩⟩ := step_endOp h
  all_goals
    refine ⟨hs.header, ?_⟩
    have hph := hs.phase
    simp only [PhaseOk, hp] at hph
  · unfold Phase.enter
    split_ifs with hn
    · unfold PhaseOk
      exact ⟨hph.1, rfl, hn, hph.2, fun i _ _ hi => absurd hi (Nat.not_lt_zero i)⟩
    · unfold PhaseOk
      exact ⟨hph.1, rfl, List.eq_nil_of_length_eq_zero (Nat.eq_zero_of_not_pos hn), hph.2⟩
  · simp only [PhaseOk, hp]
    exact hph

/-- install_trans(0)'s home write keeps the commit's invariant one entry further. -/
theorem LogOk.install {t b : Nat} (hl : HeaderOk dev s.lh) (hb : s.lh[t]? = some b)
    (hhead : dev.head (s.disk dev.start) = s.lh) (hclean : Clean dev s)
    (hlog : Logged dev s s.lh.length) (hinst : Installed s t) :
    let s₁ : LogSys α := { s with disk := Function.update s.disk b (s.cache b) }
    dev.head (s₁.disk dev.start) = s.lh ∧ Clean dev s₁ ∧ Logged dev s₁ s.lh.length ∧ Installed s₁ (t + 1) := by
  have hbmem : b ∈ s.lh := List.mem_of_getElem? hb
  have hbhome : dev.Home b := hl.home b hbmem
  refine ⟨?_, ?_, ?_, ?_⟩
  · show dev.head (Function.update s.disk b (s.cache b) dev.start) = s.lh
    rw [Function.update_of_ne (LogDev.ne_start hbhome).symm]
    exact hhead
  · intro x hx hxl
    show s.cache x = Function.update s.disk b (s.cache b) x
    have hxb : x ≠ b := fun hxb => hxl (hxb ▸ hbmem : x ∈ s.lh)
    rw [Function.update_of_ne hxb]
    exact hclean x hx hxl
  · intro i c hi hin
    show Function.update s.disk b (s.cache b) (dev.slot i) = s.cache c ∧ s.cache (dev.slot i) = s.cache c
    rw [Function.update_of_ne (hl.ne_slot hbmem hin).symm]
    exact hlog i c hi hin
  · intro i c hi hit
    show Function.update s.disk b (s.cache b) c = s.cache c
    rcases Nat.lt_succ_iff_lt_or_eq.mp hit with hit | rfl
    · have hcb : c ≠ b := fun hcb => Nat.ne_of_lt hit (hl.index_inj hi (hcb ▸ hb))
      rw [Function.update_of_ne hcb]
      exact hinst i c hi hit
    · rw [Option.some.inj (hi.symm.trans hb), Function.update_self]

theorem LogOk.commitStep (hs : LogOk dev s) (h : commitStep dev s = some s') : LogOk dev s' := by
  have hl := hs.header
  have hph := hs.phase
  rcases commitStep_cases h with ⟨t, b, hp, hb, rfl⟩ | ⟨hp, rfl⟩ | ⟨t, b, hp, hb, rfl⟩ | ⟨hp, rfl⟩ |
    ⟨hp, rfl⟩
  all_goals simp only [PhaseOk, hp] at hph
  · obtain ⟨hhead, hout, -, hclean, hlog⟩ := hph
    have hslot : ¬ dev.Home (dev.slot t) := fun h => LogDev.ne_slot h (hl.lt_logBlocks hb) rfl
    have hhead' : dev.head ((bwrite s (dev.slot t) (s.cache b)).disk dev.start) = [] := by
      rw [bwrite_disk, Function.update_of_ne (dev.slot_ne_start t).symm]
      exact hhead
    have hclean' := hclean.bwrite (fun h => absurd h hslot) (s.cache b)
    have hlog' := hlog.writeLog hl hb
    refine ⟨hl, ?_⟩
    unfold Phase.next
    split_ifs with hnext
    · unfold PhaseOk
      exact ⟨hhead', hout, hnext, hclean', hlog'⟩
    · unfold PhaseOk
      have hn : t + 1 = s.lh.length := by
        have := (List.getElem?_eq_some_iff.mp hb).1
        omega
      exact ⟨hhead', hout, hclean', hn ▸ hlog'⟩
  · -- write_head, the commit point
    obtain ⟨-, hout, hclean, hlog⟩ := hph
    have hstart : dev.start ∉ s.lh := fun h => LogDev.ne_start (hl.home _ h) rfl
    have hclean' : Clean dev (writeHead dev s) :=
      hclean.bwrite (fun h => absurd rfl (LogDev.ne_start h)) _
    have hlog' : Logged dev (writeHead dev s) s.lh.length :=
      hlog.bwrite (fun i _ => (dev.slot_ne_start i).symm) hstart _
    refine ⟨hl, ?_⟩
    unfold Phase.enter
    split_ifs with hn
    · unfold PhaseOk
      exact ⟨head_writeHead hl.length_le, hout, hn, hclean', hlog',
        fun i _ _ hi => absurd hi (Nat.not_lt_zero i)⟩
    · unfold PhaseOk
      exact ⟨head_writeHead hl.length_le, hout, hclean', hlog',
        fun i _ _ hi => absurd (Nat.lt_of_lt_of_le hi (Nat.le_of_not_lt hn)) (Nat.not_lt_zero i)⟩
  · obtain ⟨hhead, hout, -, hclean, hlog, hinst⟩ := hph
    obtain ⟨hhead', hclean', hlog', hinst'⟩ := LogOk.install hl hb hhead hclean hlog hinst
    rw [bwrite_install hlog hb]
    refine ⟨hl, ?_⟩
    unfold Phase.next
    split_ifs with hnext
    · unfold PhaseOk
      exact ⟨hhead', hout, hnext, hclean', hlog', hinst'⟩
    · unfold PhaseOk
      have hn : t + 1 = s.lh.length := by
        have := (List.getElem?_eq_some_iff.mp hb).1
        omega
      exact ⟨hhead', hout, hclean', hlog', hn ▸ hinst'⟩
  · obtain ⟨-, hout, hclean, -, hinst⟩ := hph
    refine ⟨HeaderOk.nil, ?_⟩
    unfold PhaseOk
    refine ⟨head_writeHead (Nat.zero_le _), hout, rfl, ?_⟩
    intro x hx _
    show (writeHead dev { s with lh := [] }).cache x = (writeHead dev { s with lh := [] }).disk x
    rw [writeHead_cache_of_ne (LogDev.ne_start hx), writeHead_disk_of_ne (LogDev.ne_start hx)]
    rcases em (x ∈ s.lh) with hmem | hmem
    · obtain ⟨i, hi⟩ := List.mem_iff_getElem?.mp hmem
      exact (hinst i x hi (List.getElem?_eq_some_iff.mp hi).1).symm
    · exact hclean x hx hmem
  · refine ⟨hl, ?_⟩
    unfold PhaseOk
    exact ⟨hph.1, hph.2.2.2⟩

theorem LogOk.recoverStep (hs : LogOk dev s) (h : recoverStep dev s = some s') : LogOk dev s' := by
  have hl := hs.header
  have hph := hs.phase
  rcases recoverStep_cases h with ⟨t, b, hp, hb, rfl⟩ | ⟨hp, rfl⟩
  all_goals simp only [PhaseOk, hp] at hph
  · obtain ⟨hhead, hout, -, hcoh, hrec⟩ := hph
    have hbmem : b ∈ s.lh := List.mem_of_getElem? hb
    have hhead' : dev.head ((bwrite s b (s.cache (dev.slot t))).disk dev.start) = s.lh := by
      rw [bwrite_disk, Function.update_of_ne (LogDev.ne_start (hl.home b hbmem)).symm]
      exact hhead
    have hcoh' : (bwrite s b (s.cache (dev.slot t))).cache = (bwrite s b (s.cache (dev.slot t))).disk := by
      rw [bwrite_cache, bwrite_disk, hcoh]
    have hrec' : Recovered dev (bwrite s b (s.cache (dev.slot t))) (t + 1) := by
      intro i c hi hit
      rw [bwrite_lh] at hi
      rw [bwrite_disk, Function.update_of_ne
        (hl.ne_slot hbmem (List.getElem?_eq_some_iff.mp hi).1).symm]
      rcases Nat.lt_succ_iff_lt_or_eq.mp hit with hit | rfl
      · have hcb : c ≠ b := fun hcb => Nat.ne_of_lt hit (hl.index_inj hi (hcb ▸ hb))
        rw [Function.update_of_ne hcb]
        exact hrec i c hi hit
      · rw [Option.some.inj (hi.symm.trans hb), Function.update_self, hcoh]
    refine ⟨hl, ?_⟩
    unfold Phase.next
    split_ifs with hnext
    · unfold PhaseOk
      exact ⟨hhead', hout, hnext, hcoh', hrec'⟩
    · unfold PhaseOk
      have hn : t + 1 = s.lh.length := by
        have := (List.getElem?_eq_some_iff.mp hb).1
        omega
      exact ⟨hhead', hout, hcoh', hn ▸ hrec'⟩
  · obtain ⟨-, -, hcoh, -⟩ := hph
    refine ⟨HeaderOk.nil, ?_⟩
    unfold PhaseOk
    refine ⟨head_writeHead (Nat.zero_le _), ?_⟩
    intro x hx _
    show (writeHead dev { s with lh := [] }).cache x = (writeHead dev { s with lh := [] }).disk x
    rw [writeHead_cache_of_ne (LogDev.ne_start hx), writeHead_disk_of_ne (LogDev.ne_start hx)]
    exact congrFun hcoh x

theorem logOk_step (hs : LogOk dev s) {a : Action α} (h : step dev s a = some s') : LogOk dev s' := by
  cases a with
  | beginOp => exact hs.beginOp h
  | write b v => exact hs.write h
  | endOp => exact hs.endOp h
  | commit => exact hs.commitStep h
  | recover => exact hs.recoverStep h
  | crash =>
      cases h
      exact logOk_boot (hs.phase.head_ok hs.header)

end Runs

section Durable

variable {α : Type} {dev : LogDev α} {s s' : LogSys α}

/-- Only the commit point changes what recovery would make of the disk: it
makes it the buffer cache's contents. -/
theorem recoverFromLog_commitStep (hs : LogOk dev s) (h : commitStep dev s = some s') {b : Nat}
    (hb : dev.Home b) :
    recoverFromLog dev s'.disk b =
      if s.phase = .writeHead then s.cache b else recoverFromLog dev s.disk b := by
  have hl := hs.header
  have hph := hs.phase
  rcases commitStep_cases h with ⟨t, c, hp, hc, rfl⟩ | ⟨hp, rfl⟩ | ⟨t, c, hp, hc, rfl⟩ | ⟨hp, rfl⟩ |
    ⟨hp, rfl⟩
  all_goals simp only [PhaseOk, hp] at hph
  all_goals simp only [hp, reduceCtorEq, if_true, if_false]
  · have hhead' : dev.head ((bwrite s (dev.slot t) (s.cache c)).disk dev.start) = [] := by
      rw [bwrite_disk, Function.update_of_ne (dev.slot_ne_start t).symm]
      exact hph.1
    rw [recoverFromLog_of_head_nil hhead' hb, recoverFromLog_of_head_nil hph.1 hb, bwrite_disk,
      Function.update_of_ne (LogDev.ne_slot hb (hl.lt_logBlocks hc))]
  · -- the header now names the transaction, whose log blocks hold its cached contents
    obtain ⟨-, -, hclean, hlog⟩ := hph
    have hlog' : ∀ i x, s.lh[i]? = some x → (writeHead dev s).disk (dev.slot i) = s.cache x :=
      fun i x hi => by
        rw [writeHead_disk_of_ne (dev.slot_ne_start i)]
        exact (hlog i x hi (List.getElem?_eq_some_iff.mp hi).1).1
    rw [recoverFromLog_of_logged hl (head_writeHead hl.length_le) hlog' hb]
    split
    · rfl
    · rw [writeHead_disk_of_ne (LogDev.ne_start hb)]
      exact (hclean b hb ‹_›).symm
  · obtain ⟨hhead, -, -, -, hlog, -⟩ := hph
    have hcmem : c ∈ s.lh := List.mem_of_getElem? hc
    rw [bwrite_install hlog hc]
    refine recoverFromLog_congr hl hhead ?_ (fun i hi => ?_) (fun x _ hx => ?_) hb
    · show dev.head (Function.update s.disk c (s.cache c) dev.start) = s.lh
      rw [Function.update_of_ne (LogDev.ne_start (hl.home c hcmem)).symm]
      exact hhead
    · exact Function.update_of_ne (hl.ne_slot hcmem hi).symm _ _
    · exact Function.update_of_ne (fun (hxc : x = c) => hx (hxc ▸ hcmem)) _ _
  · obtain ⟨hhead, -, -, hlog, hinst⟩ := hph
    have hlog' : ∀ i x, s.lh[i]? = some x → s.disk (dev.slot i) = s.cache x :=
      fun i x hi => (hlog i x hi (List.getElem?_eq_some_iff.mp hi).1).1
    rw [recoverFromLog_of_head_nil (head_writeHead (Nat.zero_le _)) hb,
      recoverFromLog_of_logged hl hhead hlog' hb]
    show (writeHead dev { s with lh := [] }).disk b = _
    rw [writeHead_disk_of_ne (LogDev.ne_start hb)]
    split
    · rename_i hmem
      obtain ⟨i, hi⟩ := List.mem_iff_getElem?.mp hmem
      exact hinst i b hi (List.getElem?_eq_some_iff.mp hi).1
    · rfl

theorem recoverFromLog_recoverStep (hs : LogOk dev s) (h : recoverStep dev s = some s') {b : Nat}
    (hb : dev.Home b) : recoverFromLog dev s'.disk b = recoverFromLog dev s.disk b := by
  have hl := hs.header
  have hph := hs.phase
  rcases recoverStep_cases h with ⟨t, c, hp, hc, rfl⟩ | ⟨hp, rfl⟩
  all_goals simp only [PhaseOk, hp] at hph
  · obtain ⟨hhead, -, -, -, -⟩ := hph
    have hcmem : c ∈ s.lh := List.mem_of_getElem? hc
    refine recoverFromLog_congr hl hhead ?_ (fun i hi => ?_) (fun x _ hx => ?_) hb
    · rw [bwrite_disk, Function.update_of_ne (LogDev.ne_start (hl.home c hcmem)).symm]
      exact hhead
    · exact Function.update_of_ne (hl.ne_slot hcmem hi).symm _ _
    · exact Function.update_of_ne (fun (hxc : x = c) => hx (hxc ▸ hcmem)) _ _
  · obtain ⟨hhead, -, -, hrec⟩ := hph
    have hrec' : ∀ i x, s.lh[i]? = some x → s.disk (dev.slot i) = s.disk x :=
      fun i x hi => (hrec i x hi (List.getElem?_eq_some_iff.mp hi).1).symm
    rw [recoverFromLog_of_head_nil (head_writeHead (Nat.zero_le _)) hb,
      recoverFromLog_of_logged hl hhead hrec' hb, ite_self]
    exact writeHead_disk_of_ne (LogDev.ne_start hb)

theorem recoverFromLog_step (hs : LogOk dev s) {a : Action α} (h : step dev s a = some s') {b : Nat}
    (hb : dev.Home b) :
    recoverFromLog dev s'.disk b = if isCommit s a then s.cache b else recoverFromLog dev s.disk b := by
  cases a with
  | beginOp =>
      obtain ⟨-, rfl⟩ := step_beginOp h
      rfl
  | write c v =>
      obtain ⟨-, -, -, rfl⟩ := step_write h
      rfl
  | endOp =>
      obtain ⟨-, ⟨-, rfl⟩ | ⟨-, rfl⟩⟩ := step_endOp h <;> rfl
  | commit =>
      rw [recoverFromLog_commitStep hs h hb]
      simp only [isCommit, decide_eq_true_eq]
  | recover =>
      rw [recoverFromLog_recoverStep hs h hb]
      rfl
  | crash =>
      cases h
      rfl

end Durable

section Refinement

variable {α : Type} {dev : LogDev α} {s s' : LogSys α}

theorem Phase.recovering_next (loop : Nat → Phase) (after : Phase) {r : Bool}
    (hl : ∀ t, (loop t).recovering = r) (ha : after.recovering = r) (t n : Nat) :
    (Phase.next loop after t n).recovering = r := by
  unfold Phase.next
  split
  · exact hl _
  · exact ha

theorem Phase.recovering_enter (loop : Nat → Phase) (after : Phase) {r : Bool}
    (hl : ∀ t, (loop t).recovering = r) (ha : after.recovering = r) (n : Nat) :
    (Phase.enter loop after n).recovering = r := by
  unfold Phase.enter
  split
  · exact hl _
  · exact ha

theorem toStore_current_of_running (h : s.phase.recovering = false) (x : {b // dev.Home b}) :
    (toStore dev s).current x = s.cache x := by
  simp [toStore, h]

theorem toStore_current_of_recovering (h : s.phase.recovering = true) (x : {b // dev.Home b}) :
    (toStore dev s).current x = recoverFromLog dev s.disk x := by
  simp [toStore, h]

theorem toStore_boot (d : Disk α) :
    toStore dev (boot dev d) = TxStore.init fun b : {b // dev.Home b} => recoverFromLog dev d b := by
  ext x
  · rfl
  · exact toStore_current_of_recovering (Phase.recovering_enter .recover .recoverClear (fun _ => rfl) rfl _) x

theorem LogOk.cache_eq (hs : LogOk dev s) (hp : s.phase = .idle) (hlh : s.lh = []) {x : Nat}
    (hx : dev.Home x) : s.cache x = recoverFromLog dev s.disk x := by
  have hph := hs.phase
  simp only [PhaseOk, hp] at hph
  rw [recoverFromLog_of_head_nil hph.1 hx]
  exact hph.2 x hx (by rw [hlh]; exact List.not_mem_nil)

theorem commitStep_cache (hs : LogOk dev s) (h : commitStep dev s = some s') {x : Nat}
    (hx : dev.Home x) : s'.cache x = s.cache x ∧ s.phase.recovering = false ∧ s'.phase.recovering = false := by
  have hl := hs.header
  have hph := hs.phase
  rcases commitStep_cases h with ⟨t, c, hp, hc, rfl⟩ | ⟨hp, rfl⟩ | ⟨t, c, hp, hc, rfl⟩ | ⟨hp, rfl⟩ |
    ⟨hp, rfl⟩
  all_goals simp only [PhaseOk, hp] at hph
  · refine ⟨Function.update_of_ne (LogDev.ne_slot hx (hl.lt_logBlocks hc)) _ _, by rw [hp]; rfl,
      Phase.recovering_next .writeLog .writeHead (fun _ => rfl) rfl _ _⟩
  · exact ⟨writeHead_cache_of_ne (LogDev.ne_start hx), by rw [hp]; rfl,
      Phase.recovering_enter .install .clear (fun _ => rfl) rfl _⟩
  · rw [bwrite_install hph.2.2.2.2.1 hc]
    exact ⟨rfl, by rw [hp]; rfl, Phase.recovering_next .install .clear (fun _ => rfl) rfl _ _⟩
  · exact ⟨writeHead_cache_of_ne (LogDev.ne_start hx), by rw [hp]; rfl, rfl⟩
  · exact ⟨rfl, by rw [hp]; rfl, rfl⟩

/-- Each step is the store operation `toOp` names, or leaves the store as it is. -/
theorem toStore_step (hs : LogOk dev s) {a : Action α} (h : step dev s a = some s') :
    Simulates TxStore.step (toStore dev) (toOp dev s a) s s' := by
  cases a with
  | beginOp =>
      obtain ⟨-, rfl⟩ := step_beginOp h
      rfl
  | write b v =>
      obtain ⟨hb, -, hout, rfl⟩ := step_write h
      have hp : s.phase.recovering = false := by rw [hs.phase.idle_of_pos hout]; rfl
      simp only [Simulates, toOp, dif_pos hb, TxStore.step, Option.some.injEq]
      ext x
      · rfl
      · simp [toStore, hp, Function.update_apply, Subtype.ext_iff]
  | endOp =>
      obtain ⟨hp, ⟨-, rfl⟩ | ⟨-, rfl⟩⟩ := step_endOp h
      · have hr : s.phase.recovering = false := by rw [hp]; rfl
        ext x
        · rfl
        · rw [toStore_current_of_running (Phase.recovering_enter .writeLog .done (fun _ => rfl) rfl _),
            toStore_current_of_running hr]
      · rfl
  | commit =>
      simp only [toOp]
      split_ifs with hp
      · -- the commit point makes the cached contents durable
        simp only [Simulates, TxStore.step, Option.some.injEq]
        ext x
        · obtain ⟨-, hr, -⟩ := commitStep_cache hs h x.2
          show (toStore dev s).current x = recoverFromLog dev s'.disk x
          rw [toStore_current_of_running hr, recoverFromLog_commitStep hs h x.2, if_pos hp]
        · obtain ⟨hcache, hr, hr'⟩ := commitStep_cache hs h x.2
          rw [toStore_current_of_running hr, toStore_current_of_running hr', hcache]
      · show toStore dev s' = toStore dev s
        ext x
        · show recoverFromLog dev s'.disk x = recoverFromLog dev s.disk x
          rw [recoverFromLog_commitStep hs h x.2, if_neg hp]
        · obtain ⟨hcache, hr, hr'⟩ := commitStep_cache hs h x.2
          rw [toStore_current_of_running hr, toStore_current_of_running hr', hcache]
  | recover =>
      show toStore dev s' = toStore dev s
      have hdur : ∀ x : {b // dev.Home b}, recoverFromLog dev s'.disk x = recoverFromLog dev s.disk x :=
        fun x => recoverFromLog_recoverStep hs h x.2
      ext x
      · exact hdur x
      · rcases recoverStep_cases h with ⟨t, c, hp, -, rfl⟩ | ⟨hp, rfl⟩
        · rw [toStore_current_of_recovering
            (Phase.recovering_next .recover .recoverClear (fun _ => rfl) rfl _ _),
            toStore_current_of_recovering (by rw [hp]; rfl)]
          exact hdur x
        · have hs' := hs.recoverStep h
          rw [toStore_current_of_running rfl, toStore_current_of_recovering (by rw [hp]; rfl),
            hs'.cache_eq rfl rfl x.2]
          exact hdur x
  | crash =>
      cases h
      simp only [Simulates, toOp, TxStore.step, Option.some.injEq]
      ext x
      · rfl
      · exact (toStore_current_of_recovering (s := boot dev s.disk)
          (Phase.recovering_enter .recover .recoverClear (fun _ => rfl) rfl _) x).symm

end Refinement


section Crash

variable {α : Type} {dev : LogDev α}

theorem step_recover_at {l : List Nat} {t b : Nat} (hb : l[t]? = some b) (d : Disk α) :
    step dev ⟨d, d, l, 0, .recover t⟩ .recover =
      some ⟨Function.update d b (d (dev.slot t)), Function.update d b (d (dev.slot t)), l, 0,
        .next .recover .recoverClear t l.length⟩ := by
  simp [step, recoverStep, installAt, hb, bwrite]

theorem step_recoverClear (l : List Nat) (d : Disk α) :
    step dev ⟨d, d, l, 0, .recoverClear⟩ .recover =
      some (idleOn (Function.update d dev.start (dev.setHead (d dev.start) []))) := rfl

/-- recover_from_log, from its iteration t on, runs to the end of its loop
and clears the header. -/
theorem run_recover_from (l : List Nat) :
    ∀ n t (d : Disk α), l.length = t + n + 1 →
      run (step dev) ⟨d, d, l, 0, .recover t⟩ (List.replicate (n + 2) .recover) =
        some (idleOn (Function.update (installLoop dev (l.drop t) t d) dev.start
          (dev.setHead (installLoop dev (l.drop t) t d dev.start) []))) := by
  intro n
  induction n with
  | zero =>
      intro t d hlen
      have ht : t < l.length := by omega
      have hnext : Phase.next .recover .recoverClear t l.length = .recoverClear := by
        simp [Phase.next, hlen]
      rw [List.drop_eq_getElem_cons ht, List.drop_eq_nil_of_le (by omega), List.replicate_succ,
        run_cons_of_step _ (step_recover_at (List.getElem?_eq_getElem ht) d), hnext, List.replicate_one,
        run_singleton, step_recoverClear]
      rfl
  | succ n ih =>
      intro t d hlen
      have ht : t < l.length := by omega
      have hnext : Phase.next .recover .recoverClear t l.length = .recover (t + 1) := by
        simp [Phase.next, hlen]
      rw [List.drop_eq_getElem_cons ht, List.replicate_succ,
        run_cons_of_step _ (step_recover_at (List.getElem?_eq_getElem ht) d), hnext,
        ih (t + 1) _ (by omega)]
      rfl

theorem run_boot_recover (d : Disk α) :
    run (step dev) (boot dev d) (List.replicate ((dev.head (d dev.start)).length + 1) .recover) =
      some (idleOn (recoverFromLog dev d)) := by
  rcases hl : dev.head (d dev.start) with _ | ⟨b, l⟩
  · have hboot : boot dev d = ⟨d, d, [], 0, .recoverClear⟩ := by
      simp [boot, hl, Phase.enter]
    rw [hboot, List.length_nil, List.replicate_one, run_singleton, step_recoverClear]
    simp [recoverFromLog, hl, installLoop]
  · have hboot : boot dev d = ⟨d, d, b :: l, 0, .recover 0⟩ := by
      simp [boot, hl, Phase.enter]
    rw [hboot, List.length_cons, run_recover_from (b :: l) l.length 0 d (by simp)]
    simp [recoverFromLog, hl]

theorem recoverFromLog_run {s t : LogSys α} (hs : LogOk dev s) {as : List (Action α)}
    (hrun : run (step dev) s as = some t) {acc : Disk α}
    (hacc : ∀ b, dev.Home b → recoverFromLog dev s.disk b = acc b) :
    LogOk dev t ∧ ∀ b, dev.Home b → recoverFromLog dev t.disk b = lastCommit dev s as acc b := by
  induction as generalizing s acc with
  | nil =>
      cases hrun
      exact ⟨hs, hacc⟩
  | cons a as ih =>
      rw [run_cons, Option.bind_eq_some_iff] at hrun
      obtain ⟨s', hstep, hrest⟩ := hrun
      rw [lastCommit, hstep]
      refine ih (logOk_step hs hstep) hrest (fun b hb => ?_)
      rw [recoverFromLog_step hs hstep hb, ite_apply]
      split_ifs
      · rfl
      · exact hacc b hb

theorem run_toStore {d₀ : Disk α} (hd₀ : HeaderOk dev (dev.head (d₀ dev.start))) {as : List (Action α)}
    {s : LogSys α} (hrun : run (step dev) (boot dev d₀) as = some s) :
    run TxStore.step (TxStore.init fun b : {b // dev.Home b} => recoverFromLog dev d₀ b)
      (labels (step dev) (toOp dev) (boot dev d₀) as) = some (toStore dev s) := by
  rw [← toStore_boot]
  exact (run_simulates (fun _ _ _ hs h => logOk_step hs h) (fun _ _ _ hs h => toStore_step hs h)
    (logOk_boot hd₀) hrun).2

theorem log_crash_atomicity (dev : LogDev α) (d₀ : Disk α) (hd₀ : HeaderOk dev (dev.head (d₀ dev.start)))
    (as : List (Action α)) (s : LogSys α) (hrun : run (step dev) (boot dev d₀) as = some s) :
    LogOk dev s ∧
      run (step dev) s (.crash :: List.replicate ((dev.head (s.disk dev.start)).length + 1) .recover) =
        some (idleOn (recoverFromLog dev s.disk)) ∧
      (∀ b, dev.Home b →
        recoverFromLog dev s.disk b = lastCommit dev (boot dev d₀) as (recoverFromLog dev d₀) b) ∧
      run TxStore.step (TxStore.init fun b : {b // dev.Home b} => recoverFromLog dev d₀ b)
        (labels (step dev) (toOp dev) (boot dev d₀) as) = some (toStore dev s) := by
  obtain ⟨hs, hlast⟩ := recoverFromLog_run (logOk_boot hd₀) hrun (fun _ _ => rfl)
  refine ⟨hs, ?_, hlast, run_toStore hd₀ hrun⟩
  rw [run_cons_of_step _ rfl]
  exact run_boot_recover s.disk

/-- A log whose header block holds the header alone. -/
def listDev : LogDev (List Nat) where
  start := 2
  head := id
  setHead := fun _ l => l
  head_setHead := fun _ _ _ => rfl

/-- A freshly made file system: every block zero, the log header empty. -/
def blankDisk : Disk (List Nat) := fun _ => []

/-- A transaction after the boot's recovery, writing [7] to block 40 and [8]
to block 41, committed and cut after its first install. -/
def cutInstall : List (Action (List Nat)) :=
  [.recover, .beginOp, .write 40 [7], .write 41 [8], .endOp, .commit, .commit, .commit, .commit]

/-- The same transaction run to its end, then a second one writing [9] to
block 40, cut after logging the block and before its commit point. -/
def cutCommit : List (Action (List Nat)) :=
  [.recover, .beginOp, .write 40 [7], .write 41 [8], .endOp] ++ List.replicate 7 .commit ++
    [.beginOp, .write 40 [9], .endOp, .commit]

theorem log_crash_atomicity_cuts :
    (∃ s, run (step listDev) (boot listDev blankDisk) cutInstall = some s ∧ LogOk listDev s ∧
      s.disk 41 = [] ∧ recoverFromLog listDev s.disk 40 = [7] ∧ recoverFromLog listDev s.disk 41 = [8]) ∧
    (∃ s, run (step listDev) (boot listDev blankDisk) cutCommit = some s ∧ LogOk listDev s ∧
      s.disk (listDev.slot 0) = [9] ∧ recoverFromLog listDev s.disk 40 = [7]) := by
  obtain ⟨s, hs⟩ := Option.isSome_iff_exists.mp
    (by decide : (run (step listDev) (boot listDev blankDisk) cutInstall).isSome)
  obtain ⟨t, ht⟩ := Option.isSome_iff_exists.mp
    (by decide : (run (step listDev) (boot listDev blankDisk) cutCommit).isSome)
  obtain ⟨hs_ok, -, hs_last, -⟩ := log_crash_atomicity listDev blankDisk HeaderOk.nil cutInstall s hs
  obtain ⟨ht_ok, -, ht_last, -⟩ := log_crash_atomicity listDev blankDisk HeaderOk.nil cutCommit t ht
  have hs41 : (run (step listDev) (boot listDev blankDisk) cutInstall).map (·.disk 41) = some [] := by
    decide
  have ht3 : (run (step listDev) (boot listDev blankDisk) cutCommit).map (·.disk (listDev.slot 0)) =
      some [9] := by
    decide
  rw [hs] at hs41
  rw [ht] at ht3
  refine ⟨⟨s, hs, hs_ok, Option.some.inj hs41, ?_, ?_⟩, ⟨t, ht, ht_ok, Option.some.inj ht3, ?_⟩⟩
  · rw [hs_last 40 (.inr (by decide))]
    decide
  · rw [hs_last 41 (.inr (by decide))]
    decide
  · rw [ht_last 40 (.inr (by decide))]
    decide

end Crash

end Xv6Mlfq.Log
