import Xv6Mlfq.ProcData

/-!
The state of the kernel the MLFQ scheduler runs in: the process table, the
four runqueues, the tick counters and statistics, the per-CPU records with
their timers, the spinlocks held across steps, and the control of every kernel
thread (one scheduler thread per CPU and one thread per process) as a stack of
resumption points.  Each resumption point stands between two critical sections
of the C code; the steps that leave them are in `Xv6Mlfq.Step`.
-/

namespace Xv6Mlfq.State

open Xv6Mlfq.ProcData

/-- A kernel thread: the scheduler loop of a CPU, or the kernel half of a process. -/
inductive Thread
  | scheduler (c : CpuId)
  | process (p : Slot)
  deriving DecidableEq, Repr

/-- A system call a process in user mode can make.  `sleepOn` and `wakeupOn`
stand for the other subsystems' use of `sleep` and `wakeup` (pipes, the log,
the console, sleep locks): `obj chan` guarded by the spinlock `obj lk`. -/
inductive Syscall
  | fork
  | exit (status : Int)
  | wait (addr : Nat)
  | kill (pid : Int)
  | boostproc (pid : Int)
  | pause (n : Int)
  | sleepOn (chan lk : Nat)
  | wakeupOn (chan lk : Nat)
  deriving DecidableEq, Repr

/-- The points between critical sections at which a kernel thread can stand. -/
inductive Frame
  | schedTop
  | schedBoosted
  | schedScan (level : Nat)
  | schedLock (level : Nat) (p : Slot)
  | schedSwtch (level : Nat) (p : Slot)
  | schedReturned (p : Slot)
  | boostClear
  | boostScan (i : Nat)
  | wakeupScan (chan : Option Chan) (i : Nat)
  | clockTicks
  | clockRelease
  | clockQuantum
  | clockRearm
  | usertrapTail (whichDev : Nat)
  | kerneltrapTail (whichDev : Nat)
  | sysret (v : Int)
  | forkAlloc (i : Nat)
  | forkParent (np : Slot) (pid : Int)
  | forkRunnable (np : Slot) (pid : Int)
  | exitStart (status : Int)
  | exitReparent (status : Int) (i : Nat)
  | exitZombie (status : Int)
  | waitStart (addr : Nat)
  | waitScan (addr : Nat) (i : Nat) (havekids : Bool)
  | killScan (pid : Int) (i : Nat)
  | boostprocScan (pid : Int) (i : Nat)
  | pauseStart (n : Int)
  | pauseLoop (ticks0 n : Nat)
  | acquireLock (lk : Lock)
  | releaseLock (lk : Lock)
  | sleepCall (chan : Chan) (lk : Lock)
  | sleepRelock (lk : Lock)
  deriving DecidableEq, Repr

/-- `struct cpu` (its `proc`) with the hart's `stimecmp` register. -/
structure Cpu where
  proc : Option Slot
  stimecmp : Nat
  deriving DecidableEq, Repr

/-- The process table and the runqueues: the data the queue operations use. -/
@[ext]
structure Table where
  proc : Slot → Proc
  runqueues : Nat → Runqueue

namespace Table

variable (tb : Table)

def setProc (p : Slot) (f : Proc → Proc) : Table :=
  { tb with proc := fun q => if q = p then f (tb.proc p) else tb.proc q }

def setRunqueue (level : Nat) (q : Runqueue) : Table :=
  { tb with runqueues := fun l => if l = level then q else tb.runqueues l }

@[simp] theorem setProc_proc (p q : Slot) (f : Proc → Proc) :
    (tb.setProc p f).proc q = if q = p then f (tb.proc q) else tb.proc q := by
  by_cases hq : q = p
  · subst hq
    simp [setProc]
  · simp [setProc, hq]

@[simp] theorem setProc_runqueues (p : Slot) (f : Proc → Proc) :
    (tb.setProc p f).runqueues = tb.runqueues := rfl

@[simp] theorem setRunqueue_runqueues (level l : Nat) (q : Runqueue) :
    (tb.setRunqueue level q).runqueues l = if l = level then q else tb.runqueues l := rfl

@[simp] theorem setRunqueue_proc (level : Nat) (q : Runqueue) :
    (tb.setRunqueue level q).proc = tb.proc := rfl

end Table

open Table

/-- `enqueue`: append `p` at the tail of `runqueues[p->queue_level]`. -/
def enqueue (tb : Table) (p : Slot) : Table :=
  let level := (tb.proc p).queueLevel
  match (tb.runqueues level).tail with
  | none =>
      (tb.setRunqueue level { head := some p, tail := some p }).setProc p
        fun q => { q with queueNext := none }
  | some t =>
      let tb1 := tb.setProc t fun q => { q with queueNext := some p }
      let tb2 := tb1.setRunqueue level { tb1.runqueues level with tail := some p }
      tb2.setProc p fun q => { q with queueNext := none }

/-- `dequeue`: unlink the head of `runqueues[level]`. -/
def dequeue (tb : Table) (level : Nat) : Option Slot × Table :=
  match (tb.runqueues level).head with
  | none => (none, tb)
  | some p =>
      let next := (tb.proc p).queueNext
      let tb1 := tb.setRunqueue level
        { head := next, tail := if next = none then none else (tb.runqueues level).tail }
      (some p, tb1.setProc p fun q => { q with queueNext := none })

/-- The body of `dequeue_specific`'s loop once `curr == p`, `prev` being the node before it:
unlink `p` from `runqueues[level]`. -/
def unlinkAt (tb : Table) (p : Slot) (level : Nat) (prev : Option Slot) : Table :=
  let tb1 := match prev with
    | none => tb.setRunqueue level { tb.runqueues level with head := (tb.proc p).queueNext }
    | some q => tb.setProc q fun r => { r with queueNext := (tb.proc p).queueNext }
  let tb2 := if (tb1.proc p).queueNext = none then
      tb1.setRunqueue level { tb1.runqueues level with tail := prev }
    else tb1
  tb2.setProc p fun r => { r with queueNext := none }

/-- The loop of `dequeue_specific(p)` over `runqueues[level]`, at `curr` with `prev` behind it,
for at most `fuel` more passes. -/
def dequeueSpecificLoop (p : Slot) (level : Nat) : Nat → Option Slot → Option Slot → Table → Table
  | 0, _, _, tb => tb
  | _ + 1, _, none, tb => tb
  | fuel + 1, prev, some c, tb =>
      if c = p then unlinkAt tb p level prev
      else dequeueSpecificLoop p level fuel (some c) (tb.proc c).queueNext tb

/-- `dequeue_specific(p)`: unlink `p` from `runqueues[p->queue_level]`, wherever it is on it.
A queue of the table's `NPROC` processes takes at most `NPROC + 1` passes of the loop. -/
def dequeueSpecific (tb : Table) (p : Slot) : Table :=
  let level := (tb.proc p).queueLevel
  dequeueSpecificLoop p level (nproc + 1) none (tb.runqueues level).head tb

/-- The queue-clearing loop of `priority_boost`. -/
def clearRunqueues (tb : Table) : Table :=
  { tb with runqueues := fun level =>
      if level < mlfqLevels then { head := none, tail := none } else tb.runqueues level }

/-- One iteration of `priority_boost`'s scan of the process table. -/
def boostIter (tb : Table) (p : Slot) : Table :=
  if (tb.proc p).state = .runnable then
    enqueue (tb.setProc p fun q => { q with queueLevel := 0, timeInQueue := 0 }) p
  else tb

/-- One iteration of `wakeup(chan)`'s scan, run by a thread whose `myproc()` is `me`. -/
def wakeupIter (chan : Option Chan) (me : Option Slot) (tb : Table) (p : Slot) : Table :=
  if me = some p then tb
  else if (tb.proc p).state = .sleeping ∧ (tb.proc p).chan = chan then
    enqueue (tb.setProc p fun q => { q with state := .runnable }) p
  else tb

/-- `wakeup(chan)` run on its own by a thread whose `myproc()` is `me`. -/
def wakeup (chan : Option Chan) (me : Option Slot) (tb : Table) : Table :=
  (List.finRange nproc).foldl (wakeupIter chan me) tb

section QueueOps

variable (tb : Table)

/-- The `queue_next` links after `enqueue(p)`: `p` ends the list, and the old
tail, if any, points to it. -/
def enqueueNext (p q : Slot) : Option Slot :=
  if q = p then none
  else if (tb.runqueues (tb.proc p).queueLevel).tail = some q then some p
  else (tb.proc q).queueNext

theorem enqueue_proc (p q : Slot) :
    (enqueue tb p).proc q = { tb.proc q with queueNext := enqueueNext tb p q } := by
  simp only [enqueue]
  split
  · next htail =>
      by_cases hq : q = p
      · subst hq
        simp [enqueueNext]
      · simp [enqueueNext, hq, htail]
  · next t htail =>
      by_cases hq : q = p
      · subst hq
        by_cases ht : q = t
        · subst ht
          simp [enqueueNext]
        · simp [enqueueNext, ht]
      · by_cases ht : q = t
        · subst ht
          simp [enqueueNext, hq, htail]
        · simp [enqueueNext, hq, ht, htail, Ne.symm ht]

theorem enqueue_runqueues (p : Slot) (l : Nat) :
    (enqueue tb p).runqueues l =
      if l = (tb.proc p).queueLevel then
        { head := if (tb.runqueues l).tail = none then some p else (tb.runqueues l).head,
          tail := some p }
      else tb.runqueues l := by
  simp only [enqueue]
  split
  · next htail =>
      by_cases hl : l = (tb.proc p).queueLevel
      · subst hl
        simp [htail]
      · simp [hl]
  · next t htail =>
      by_cases hl : l = (tb.proc p).queueLevel
      · subst hl
        simp [htail]
      · simp [hl]

@[simp] theorem dequeue_fst (level : Nat) : (dequeue tb level).1 = (tb.runqueues level).head := by
  simp only [dequeue]
  split <;> simp_all

theorem dequeue_proc (level : Nat) (q : Slot) :
    (dequeue tb level).2.proc q =
      { tb.proc q with
        queueNext := if (tb.runqueues level).head = some q then none else (tb.proc q).queueNext } := by
  simp only [dequeue]
  split
  · next hhead => simp [hhead]
  · next p hhead =>
      by_cases hq : q = p
      · subst hq
        simp [hhead]
      · simp [hhead, hq, Ne.symm hq]

theorem dequeue_runqueues (level l : Nat) :
    (dequeue tb level).2.runqueues l =
      match (tb.runqueues level).head with
      | none => tb.runqueues l
      | some p =>
          if l = level then
            { head := (tb.proc p).queueNext,
              tail := if (tb.proc p).queueNext = none then none else (tb.runqueues level).tail }
          else tb.runqueues l := by
  simp only [dequeue]
  split <;> simp

theorem unlinkAt_proc {p : Slot} {prev : Option Slot} (level : Nat) (hprev : prev ≠ some p)
    (q : Slot) :
    (unlinkAt tb p level prev).proc q =
      { tb.proc q with
        queueNext := if q = p then none
          else if prev = some q then (tb.proc p).queueNext else (tb.proc q).queueNext } := by
  cases prev with
  | none =>
      by_cases hq : q = p
      · subst hq
        by_cases hn : (tb.proc q).queueNext = none <;> simp [unlinkAt, hn]
      · by_cases hn : (tb.proc p).queueNext = none <;> simp [unlinkAt, hn, hq]
  | some r =>
      have hrp : p ≠ r := fun h => hprev (h ▸ rfl)
      by_cases hq : q = p
      · subst hq
        by_cases hn : (tb.proc q).queueNext = none <;> simp [unlinkAt, hn, hrp]
      · by_cases hqr : q = r
        · subst hqr
          by_cases hn : (tb.proc p).queueNext = none <;> simp [unlinkAt, hn, hq, hrp]
        · by_cases hn : (tb.proc p).queueNext = none <;> simp [unlinkAt, hn, hq, hqr, hrp, Ne.symm hqr]

theorem unlinkAt_runqueues {p : Slot} {prev : Option Slot} (level : Nat) (hprev : prev ≠ some p)
    (l : Nat) :
    (unlinkAt tb p level prev).runqueues l =
      if l = level then
        { head := if prev = none then (tb.proc p).queueNext else (tb.runqueues level).head,
          tail := if (tb.proc p).queueNext = none then prev else (tb.runqueues level).tail }
      else tb.runqueues l := by
  cases prev with
  | none =>
      by_cases hl : l = level
      · subst hl
        by_cases hn : (tb.proc p).queueNext = none <;> simp [unlinkAt, hn]
      · by_cases hn : (tb.proc p).queueNext = none <;> simp [unlinkAt, hn, hl]
  | some r =>
      have hrp : p ≠ r := fun h => hprev (h ▸ rfl)
      by_cases hl : l = level
      · subst hl
        by_cases hn : (tb.proc p).queueNext = none <;> simp [unlinkAt, hn, hrp]
      · by_cases hn : (tb.proc p).queueNext = none <;> simp [unlinkAt, hn, hl, hrp]

@[simp] theorem clearRunqueues_proc : (clearRunqueues tb).proc = tb.proc := rfl

theorem boostIter_proc (p q : Slot) :
    (boostIter tb p).proc q =
      if (tb.proc p).state = .runnable then
        if q = p then { tb.proc q with queueLevel := 0, timeInQueue := 0, queueNext := none }
        else { tb.proc q with
          queueNext := enqueueNext (tb.setProc p fun r => { r with queueLevel := 0, timeInQueue := 0 }) p q }
      else tb.proc q := by
  unfold boostIter
  split_ifs with hrun hq
  · subst hq
    simp [enqueue_proc, enqueueNext]
  · simp [enqueue_proc, hq]
  · rfl

theorem wakeupIter_proc (chan : Option Chan) (me : Option Slot) (p q : Slot) :
    (wakeupIter chan me tb p).proc q =
      if me ≠ some p ∧ (tb.proc p).state = .sleeping ∧ (tb.proc p).chan = chan then
        if q = p then { tb.proc q with state := .runnable, queueNext := none }
        else { tb.proc q with
          queueNext := enqueueNext (tb.setProc p fun r => { r with state := .runnable }) p q }
      else tb.proc q := by
  unfold wakeupIter
  by_cases hme : me = some p
  · simp [hme]
  · by_cases hsleep : (tb.proc p).state = .sleeping ∧ (tb.proc p).chan = chan
    · by_cases hq : q = p
      · subst hq
        simp [hme, hsleep, enqueue_proc, enqueueNext]
      · simp [hme, hsleep, enqueue_proc, hq]
    · simp only [hme, if_false, hsleep, and_false, ne_eq, not_false_eq_true]

end QueueOps

@[ext]
structure Kernel where
  table : Table
  ticks : Nat
  ticksSinceBoost : Nat
  schedulerStats : MlfqStats
  nextpid : Int
  initproc : Option Slot
  cpus : CpuId → Cpu
  time : Nat
  holder : Lock → Option Thread
  frames : Thread → List Frame

namespace Kernel

variable (s : Kernel)

def mapTable (f : Table → Table) : Kernel := { s with table := f s.table }

def setProc (p : Slot) (f : Proc → Proc) : Kernel := s.mapTable (·.setProc p f)

@[simp] theorem setProc_eq (p : Slot) (f : Proc → Proc) :
    s.setProc p f = s.mapTable (·.setProc p f) := rfl

def setFrames (t : Thread) (fs : List Frame) : Kernel :=
  { s with frames := fun u => if u = t then fs else s.frames u }

def setCpu (c : CpuId) (f : Cpu → Cpu) : Kernel :=
  { s with cpus := fun d => if d = c then f (s.cpus c) else s.cpus d }

def setHolder (lk : Lock) (t : Option Thread) : Kernel :=
  { s with holder := fun l => if l = lk then t else s.holder l }

def setStats (f : MlfqStats → MlfqStats) : Kernel :=
  { s with schedulerStats := f s.schedulerStats }

@[simp] theorem setFrames_frames (t u : Thread) (fs : List Frame) :
    (s.setFrames t fs).frames u = if u = t then fs else s.frames u := rfl

@[simp] theorem setCpu_cpus (c d : CpuId) (f : Cpu → Cpu) :
    (s.setCpu c f).cpus d = if d = c then f (s.cpus c) else s.cpus d := rfl

@[simp] theorem setHolder_holder (lk l : Lock) (t : Option Thread) :
    (s.setHolder lk t).holder l = if l = lk then t else s.holder l := rfl

section Frames

variable (t : Thread) (fs : List Frame)

@[simp] theorem setFrames_table : (s.setFrames t fs).table = s.table := rfl
@[simp] theorem setFrames_ticks : (s.setFrames t fs).ticks = s.ticks := rfl
@[simp] theorem setFrames_ticksSinceBoost :
    (s.setFrames t fs).ticksSinceBoost = s.ticksSinceBoost := rfl
@[simp] theorem setFrames_schedulerStats :
    (s.setFrames t fs).schedulerStats = s.schedulerStats := rfl
@[simp] theorem setFrames_nextpid : (s.setFrames t fs).nextpid = s.nextpid := rfl
@[simp] theorem setFrames_initproc : (s.setFrames t fs).initproc = s.initproc := rfl
@[simp] theorem setFrames_cpus : (s.setFrames t fs).cpus = s.cpus := rfl
@[simp] theorem setFrames_time : (s.setFrames t fs).time = s.time := rfl
@[simp] theorem setFrames_holder : (s.setFrames t fs).holder = s.holder := rfl

end Frames

section Holder

variable (lk : Lock) (t : Option Thread)

@[simp] theorem setHolder_table : (s.setHolder lk t).table = s.table := rfl
@[simp] theorem setHolder_ticks : (s.setHolder lk t).ticks = s.ticks := rfl
@[simp] theorem setHolder_ticksSinceBoost :
    (s.setHolder lk t).ticksSinceBoost = s.ticksSinceBoost := rfl
@[simp] theorem setHolder_schedulerStats :
    (s.setHolder lk t).schedulerStats = s.schedulerStats := rfl
@[simp] theorem setHolder_nextpid : (s.setHolder lk t).nextpid = s.nextpid := rfl
@[simp] theorem setHolder_initproc : (s.setHolder lk t).initproc = s.initproc := rfl
@[simp] theorem setHolder_cpus : (s.setHolder lk t).cpus = s.cpus := rfl
@[simp] theorem setHolder_time : (s.setHolder lk t).time = s.time := rfl
@[simp] theorem setHolder_frames : (s.setHolder lk t).frames = s.frames := rfl

end Holder

section Cpu

variable (c : CpuId) (f : Cpu → Cpu)

@[simp] theorem setCpu_table : (s.setCpu c f).table = s.table := rfl
@[simp] theorem setCpu_ticks : (s.setCpu c f).ticks = s.ticks := rfl
@[simp] theorem setCpu_ticksSinceBoost :
    (s.setCpu c f).ticksSinceBoost = s.ticksSinceBoost := rfl
@[simp] theorem setCpu_schedulerStats : (s.setCpu c f).schedulerStats = s.schedulerStats := rfl
@[simp] theorem setCpu_nextpid : (s.setCpu c f).nextpid = s.nextpid := rfl
@[simp] theorem setCpu_initproc : (s.setCpu c f).initproc = s.initproc := rfl
@[simp] theorem setCpu_time : (s.setCpu c f).time = s.time := rfl
@[simp] theorem setCpu_holder : (s.setCpu c f).holder = s.holder := rfl
@[simp] theorem setCpu_frames : (s.setCpu c f).frames = s.frames := rfl

end Cpu

section Stats

variable (f : MlfqStats → MlfqStats)

@[simp] theorem setStats_schedulerStats :
    (s.setStats f).schedulerStats = f s.schedulerStats := rfl
@[simp] theorem setStats_table : (s.setStats f).table = s.table := rfl
@[simp] theorem setStats_ticks : (s.setStats f).ticks = s.ticks := rfl
@[simp] theorem setStats_ticksSinceBoost :
    (s.setStats f).ticksSinceBoost = s.ticksSinceBoost := rfl
@[simp] theorem setStats_nextpid : (s.setStats f).nextpid = s.nextpid := rfl
@[simp] theorem setStats_initproc : (s.setStats f).initproc = s.initproc := rfl
@[simp] theorem setStats_cpus : (s.setStats f).cpus = s.cpus := rfl
@[simp] theorem setStats_time : (s.setStats f).time = s.time := rfl
@[simp] theorem setStats_holder : (s.setStats f).holder = s.holder := rfl
@[simp] theorem setStats_frames : (s.setStats f).frames = s.frames := rfl

end Stats

section Table

variable (f : Table → Table)

@[simp] theorem mapTable_table : (s.mapTable f).table = f s.table := rfl
@[simp] theorem mapTable_ticks : (s.mapTable f).ticks = s.ticks := rfl
@[simp] theorem mapTable_ticksSinceBoost :
    (s.mapTable f).ticksSinceBoost = s.ticksSinceBoost := rfl
@[simp] theorem mapTable_schedulerStats :
    (s.mapTable f).schedulerStats = s.schedulerStats := rfl
@[simp] theorem mapTable_nextpid : (s.mapTable f).nextpid = s.nextpid := rfl
@[simp] theorem mapTable_initproc : (s.mapTable f).initproc = s.initproc := rfl
@[simp] theorem mapTable_time : (s.mapTable f).time = s.time := rfl

@[simp] theorem mapTable_frames : (s.mapTable f).frames = s.frames := rfl
@[simp] theorem mapTable_cpus : (s.mapTable f).cpus = s.cpus := rfl
@[simp] theorem mapTable_holder : (s.mapTable f).holder = s.holder := rfl

end Table

/-- The thread CPU `c` executes: the process its scheduler has switched to, or
the scheduler itself. -/
def current (c : CpuId) : Thread :=
  match (s.frames (.scheduler c)).head? with
  | some (.schedSwtch _ p) => .process p
  | _ => .scheduler c

/-- `myproc()` on CPU `c`. -/
def myproc (c : CpuId) : Option Slot := (s.cpus c).proc

/-- `p->lock` is held across steps only between a process's `sched()` and its
scheduler's release after `swtch` returns. -/
def procLocked (p : Slot) : Bool :=
  (List.finRange activeCpus).any fun c =>
    decide ((s.frames (.scheduler c)).head? = some (.schedReturned p))

def holds (t : Thread) (lk : Lock) : Prop := s.holder lk = some t

instance (t : Thread) (lk : Lock) : Decidable (s.holds t lk) :=
  inferInstanceAs (Decidable (_ = _))

end Kernel

open Kernel

/-- `priority_boost` run on its own: clear the queues, re-enqueue every
`RUNNABLE` process at level 0 in table order, and reset `ticks_since_boost`. -/
def priorityBoost (s : Kernel) : Kernel :=
  { s.mapTable (fun tb => (List.finRange nproc).foldl boostIter (clearRunqueues tb)) with
    ticksSinceBoost := 0 }

/-- `allocpid` and the fields `allocproc` sets on the `UNUSED` entry `p`. -/
def allocprocFound (s : Kernel) (p : Slot) : Kernel :=
  { s.setProc p (allocprocFields s.nextpid) with nextpid := s.nextpid + 1 }

/-- `allocproc` run on its own, with every allocation succeeding: the first
`UNUSED` entry of the table. -/
def allocproc (s : Kernel) : Option (Slot × Kernel) :=
  ((List.finRange nproc).find? fun p => (s.table.proc p).state = .unused).map
    fun p => (p, allocprocFound s p)

/-- The table as `procinit` leaves it, before any CPU starts its scheduler:
every timer armed by `timerinit` at time 0. -/
def procinit : Kernel where
  table := { proc := fun _ => Proc.init, runqueues := fun _ => { head := none, tail := none } }
  ticks := 0
  ticksSinceBoost := 0
  schedulerStats :=
    { totalSchedules := 0, totalBoosts := 0, totalDemotions := 0,
      levelQueueCount := fun _ => 0, levelSchedules := fun _ => 0 }
  nextpid := 1
  initproc := none
  cpus := fun _ => { proc := none, stimecmp := timerInterval }
  time := 0
  holder := fun _ => none
  frames := fun
    | .scheduler _ => [.schedTop]
    | .process _ => []

/-- `userinit`: allocate the first process and make it `RUNNABLE`. -/
def userinit (s : Kernel) : Option Kernel :=
  (allocproc s).map fun (p, s') =>
    { s'.setProc p (fun q => { q with state := .runnable }) with initproc := some p }

/-- The state in which `main` starts the schedulers. -/
def boot : Kernel := (userinit procinit).getD procinit

end Xv6Mlfq.State
