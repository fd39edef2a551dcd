import Xv6Mlfq.Library.StepSystem
import Xv6Mlfq.State

/-!
One step of the kernel: a CPU runs the next critical section of the thread it
executes, a process in user mode traps with a system call, a CPU takes a timer
or device interrupt, or time passes.  Every loop over the process table that
takes a `p->lock` per entry (`priority_boost`, `wakeup`, `kkill`,
`sys_boostproc`, `allocproc`, `kwait`, `reparent`) advances one entry per step,
and the scheduler's `dequeue`, its locked test and dispatch, and its
re-enqueue after `swtch` returns are separate steps, since no lock protects
the runqueues.  A step whose `acquire` would spin is disabled; a `panic` has
no step.
-/

namespace Xv6Mlfq.Step

open Xv6Mlfq.ProcData
open Xv6Mlfq.State
open Xv6Mlfq.State.Kernel

/-- Whether a process thread has interrupts enabled at a resumption point: the
parts of system calls that hold no spinlock. -/
def intrOn : Frame → Bool
  | .usertrapTail 0 => true
  | .sysret _ => true
  | .forkAlloc _ | .forkParent _ _ | .forkRunnable _ _ => true
  | .exitStart _ | .waitStart _ => true
  | .killScan _ _ | .boostprocScan _ _ | .boostClear | .boostScan _ => true
  | .pauseStart _ | .acquireLock _ | .sleepRelock _ => true
  | _ => false

/-- The tails of `usertrap` and `kerneltrap` after a device or timer interrupt,
which run with interrupts off. -/
def inHandler : Frame → Bool
  | .usertrapTail 0 => false
  | .usertrapTail _ => true
  | .kerneltrapTail _ => true
  | _ => false

/-- `sched()` from process `p` on CPU `c`: the scheduler's `swtch` returns and
it holds `p->lock`; `p` resumes at `resume` when next dispatched. -/
def sched (s : Kernel) (c : CpuId) (p : Slot) (resume : List Frame) : Kernel :=
  (s.setFrames (.process p) resume).setFrames (.scheduler c)
    (.schedReturned p :: (s.frames (.scheduler c)).tail)

/-- `yield()`: acquire `p->lock`, mark `p` `RUNNABLE` and switch to the scheduler. -/
def yield (s : Kernel) (c : CpuId) (p : Slot) (resume : List Frame) : Option Kernel :=
  if s.procLocked p then none
  else some (sched (s.setProc p fun r => { r with state := .runnable }) c p resume)

/-- `sleep(chan, lk)`: acquire `p->lock`, release `lk`, record the channel and
the state, and switch to the scheduler; on resumption reacquire `lk`. -/
def sleep (s : Kernel) (c : CpuId) (p : Slot) (chan : Chan) (lk : Lock)
    (rest : List Frame) : Option Kernel :=
  if s.procLocked p then none
  else if s.holds (.process p) lk then
    some (sched ((s.setHolder lk none).setProc p fun r =>
      { r with chan := some chan, state := .sleeping }) c p (.sleepRelock lk :: rest))
  else none

def setA0 (s : Kernel) (p : Slot) (v : Int) : Kernel :=
  s.setProc p fun r => { r with a0 := v }

/-! ## The scheduler loop -/

def schedTopStep (s : Kernel) (t : Thread) (fs : List Frame) : Kernel :=
  let s1 := s.setStats fun st => { st with totalSchedules := st.totalSchedules + 1 }
  if boostInterval ≤ s1.ticksSinceBoost then
    s1.setFrames t (.boostClear :: .schedBoosted :: fs)
  else s1.setFrames t (.schedScan 0 :: fs)

def schedBoostedStep (s : Kernel) (t : Thread) (fs : List Frame) : Kernel :=
  (s.setStats fun st => { st with totalBoosts := st.totalBoosts + 1 }).setFrames t
    (.schedScan 0 :: fs)

def schedScanStep (s : Kernel) (t : Thread) (level : Nat) (fs : List Frame) : Kernel :=
  if level < mlfqLevels then
    match dequeue s.table level with
    | (none, tb) => { s with table := tb }.setFrames t (.schedScan (level + 1) :: fs)
    | (some p, tb) => { s with table := tb }.setFrames t (.schedLock level p :: fs)
  else s.setFrames t (.schedTop :: fs)

/-- Whether `p` resumes inside `sleep`, whose tidy-up clears `p->chan`. -/
def resumesInSleep (s : Kernel) (p : Slot) : Bool :=
  match (s.frames (.process p)).head? with
  | some (.sleepRelock _) => true
  | _ => false

/-- The dispatch of a `RUNNABLE` process: statistics, `RUNNING`, `c->proc`,
`swtch`, and the resumed thread's release of `p->lock`. -/
def dispatch (s : Kernel) (c : CpuId) (level : Nat) (p : Slot) : Kernel :=
  let count := s.schedulerStats.levelSchedules level + 1
  let s1 := s.setStats fun st =>
    { st with levelSchedules := fun l => if l = level then count else st.levelSchedules l }
  let s2 := s1.setProc p fun r =>
    { r with state := .running, enteredQueueTick := s.ticksSinceBoost,
             chan := if resumesInSleep s p then none else r.chan }
  (s2.setCpu c fun x => { x with proc := some p }).setFrames (.scheduler c)
    (.schedSwtch level p :: (s.frames (.scheduler c)).tail)

def schedLockStep (s : Kernel) (c : CpuId) (t : Thread) (level : Nat) (p : Slot)
    (fs : List Frame) : Option Kernel :=
  if s.procLocked p then none
  else if (s.table.proc p).state = .runnable then some (dispatch s c level p)
  else some (s.setFrames t (.schedScan (level + 1) :: fs))

def schedReturnedStep (s : Kernel) (c : CpuId) (t : Thread) (p : Slot)
    (fs : List Frame) : Kernel :=
  let s1 := s.setCpu c fun x => { x with proc := none }
  let s2 := if (s1.table.proc p).state = .runnable then s1.mapTable (enqueue · p) else s1
  s2.setFrames t (.schedTop :: fs)

/-! ## Table scans shared by several callers -/

def boostScanStep (s : Kernel) (t : Thread) (i : Nat) (fs : List Frame) : Option Kernel :=
  if h : i < nproc then
    if s.procLocked ⟨i, h⟩ then none
    else some ((s.mapTable (boostIter · ⟨i, h⟩)).setFrames t (.boostScan (i + 1) :: fs))
  else some ({ s with ticksSinceBoost := 0 }.setFrames t fs)

def wakeupScanStep (s : Kernel) (c : CpuId) (t : Thread) (chan : Option Chan) (i : Nat)
    (fs : List Frame) : Option Kernel :=
  if h : i < nproc then
    if s.myproc c ≠ some ⟨i, h⟩ ∧ s.procLocked ⟨i, h⟩ then none
    else some ((s.mapTable (wakeupIter chan (s.myproc c) · ⟨i, h⟩)).setFrames t
      (.wakeupScan chan (i + 1) :: fs))
  else some (s.setFrames t fs)

/-! ## Trap handling -/

def clockTicksStep (s : Kernel) (c : CpuId) (t : Thread) (fs : List Frame) :
    Option Kernel :=
  if c.val = 0 then
    if s.holder .tickslock = none then
      some (({ s with ticks := s.ticks + 1, ticksSinceBoost := s.ticksSinceBoost + 1 }.setHolder
        .tickslock (some t)).setFrames t
          (.wakeupScan (some .ticks) 0 :: .clockRelease :: .clockQuantum :: fs))
    else none
  else some (s.setFrames t (.clockQuantum :: fs))

def releaseStep (s : Kernel) (t : Thread) (lk : Lock) (fs : List Frame) : Option Kernel :=
  if s.holds t lk then some ((s.setHolder lk none).setFrames t fs) else none

def acquireStep (s : Kernel) (t : Thread) (lk : Lock) (fs : List Frame) : Option Kernel :=
  if s.holder lk = none then some ((s.setHolder lk (some t)).setFrames t fs) else none

/-- The MLFQ part of `clockintr`: charge a tick to the running process and, when
its quantum is used up, demote it (above the last level) and yield. -/
def clockQuantumStep (s : Kernel) (c : CpuId) (t : Thread) (fs : List Frame) :
    Option Kernel :=
  match s.myproc c with
  | some p =>
      if (s.table.proc p).state = .running then
        let time := (s.table.proc p).timeInQueue + 1
        if getQuantum (s.table.proc p).queueLevel ≤ time then
          if (s.table.proc p).queueLevel < mlfqLevels - 1 then
            let s1 := s.setProc p fun r =>
              { r with timeInQueue := 0, queueLevel := r.queueLevel + 1 }
            yield (s1.setStats fun st => { st with totalDemotions := st.totalDemotions + 1 })
              c p (.clockRearm :: fs)
          else yield (s.setProc p fun r => { r with timeInQueue := 0 }) c p (.clockRearm :: fs)
        else some ((s.setProc p fun r => { r with timeInQueue := time }).setFrames t
          (.clockRearm :: fs))
      else some (s.setFrames t (.clockRearm :: fs))
  | none => some (s.setFrames t (.clockRearm :: fs))

def clockRearmStep (s : Kernel) (c : CpuId) (t : Thread) (fs : List Frame) : Kernel :=
  (s.setCpu c fun x => { x with stimecmp := s.time + timerInterval }).setFrames t fs

/-- The end of `usertrap`: exit if killed, yield after a timer interrupt. -/
def usertrapTailStep (s : Kernel) (c : CpuId) (p : Slot) (whichDev : Nat)
    (fs : List Frame) : Option Kernel :=
  if s.procLocked p then none
  else if (s.table.proc p).killed then some (s.setFrames (.process p) [.exitStart (-1)])
  else if whichDev = 2 then yield s c p fs
  else some (s.setFrames (.process p) fs)

/-- The end of `kerneltrap`: yield after a timer interrupt if a process runs. -/
def kerneltrapTailStep (s : Kernel) (c : CpuId) (t : Thread) (whichDev : Nat)
    (fs : List Frame) : Option Kernel :=
  match s.myproc c with
  | some p => if whichDev = 2 then yield s c p fs else some (s.setFrames t fs)
  | none => some (s.setFrames t fs)

/-! ## System calls -/

/-- One entry of `allocproc`'s scan on behalf of `kfork`.  On an `UNUSED` entry
the rest of `allocproc` and `kfork`'s copying run under `np->lock`; when
`ok` is false one of their allocations fails and `freeproc` undoes the entry. -/
def forkAllocStep (s : Kernel) (p : Slot) (i : Nat) (ok : Bool) (fs : List Frame) :
    Option Kernel :=
  if h : i < nproc then
    if s.procLocked ⟨i, h⟩ then none
    else if (s.table.proc ⟨i, h⟩).state = .unused then
      let s1 := allocprocFound s ⟨i, h⟩
      if ok then
        some (((setA0 s1 ⟨i, h⟩ 0).setFrames (.process ⟨i, h⟩) []).setFrames (.process p)
          (.forkParent ⟨i, h⟩ s.nextpid :: fs))
      else some ((setA0 (s1.setProc ⟨i, h⟩ freeproc) p (-1)).setFrames (.process p) fs)
    else some (s.setFrames (.process p) (.forkAlloc (i + 1) :: fs))
  else some ((setA0 s p (-1)).setFrames (.process p) fs)

def forkParentStep (s : Kernel) (p np : Slot) (pid : Int) (fs : List Frame) :
    Option Kernel :=
  if s.holder .waitLock = none then
    some ((s.setProc np fun r => { r with parent := some p }).setFrames (.process p)
      (.forkRunnable np pid :: fs))
  else none

def forkRunnableStep (s : Kernel) (p np : Slot) (pid : Int) (fs : List Frame) :
    Option Kernel :=
  if s.procLocked np then none
  else some ((setA0 ((s.setProc np fun r => { r with state := .runnable }).mapTable
    (enqueue · np)) p
    pid).setFrames (.process p) fs)

def exitStartStep (s : Kernel) (p : Slot) (status : Int) (fs : List Frame) :
    Option Kernel :=
  if s.initproc = some p then none
  else acquireStep s (.process p) .waitLock (.exitReparent status 0 :: fs)

/-- One entry of `reparent`, then `wakeup(p->parent)`. -/
def exitReparentStep (s : Kernel) (p : Slot) (status : Int) (i : Nat) (fs : List Frame) :
    Kernel :=
  if h : i < nproc then
    if (s.table.proc ⟨i, h⟩).parent = some p then
      (s.setProc ⟨i, h⟩ fun r => { r with parent := s.initproc }).setFrames (.process p)
        (.wakeupScan (s.initproc.map .proc) 0 :: .exitReparent status (i + 1) :: fs)
    else s.setFrames (.process p) (.exitReparent status (i + 1) :: fs)
  else s.setFrames (.process p)
    (.wakeupScan ((s.table.proc p).parent.map .proc) 0 :: .exitZombie status :: fs)

def exitZombieStep (s : Kernel) (c : CpuId) (p : Slot) (status : Int) : Option Kernel :=
  if s.procLocked p then none
  else if s.holds (.process p) .waitLock then
    some (sched ((s.setHolder .waitLock none).setProc p fun r =>
      { r with xstate := status, state := .zombie }) c p [])
  else none

/-- `kwait`'s return with `wait_lock` released. -/
def waitReturn (s : Kernel) (p : Slot) (v : Int) (fs : List Frame) : Option Kernel :=
  (releaseStep s (.process p) .waitLock fs).map fun s' => setA0 s' p v

/-- One entry of `kwait`'s scan for exited children, or the end of the scan. -/
def waitScanStep (s : Kernel) (c : CpuId) (p : Slot) (addr i : Nat) (havekids ok : Bool)
    (fs : List Frame) : Option Kernel :=
  if h : i < nproc then
    if (s.table.proc ⟨i, h⟩).parent = some p then
      if s.procLocked ⟨i, h⟩ then none
      else if (s.table.proc ⟨i, h⟩).state = .zombie then
        if addr ≠ 0 ∧ ok = false then waitReturn s p (-1) fs
        else waitReturn (s.setProc ⟨i, h⟩ freeproc) p (s.table.proc ⟨i, h⟩).pid fs
      else some (s.setFrames (.process p) (.waitScan addr (i + 1) true :: fs))
    else some (s.setFrames (.process p) (.waitScan addr (i + 1) havekids :: fs))
  else if s.procLocked p then none
  else if havekids = false ∨ (s.table.proc p).killed then waitReturn s p (-1) fs
  else sleep s c p (.proc p) .waitLock (.waitScan addr 0 false :: fs)

def killScanStep (s : Kernel) (p : Slot) (pid : Int) (i : Nat) (fs : List Frame) :
    Option Kernel :=
  if h : i < nproc then
    if s.procLocked ⟨i, h⟩ then none
    else if (s.table.proc ⟨i, h⟩).pid = pid then
      let woken : Procstate → Procstate := fun st => if st = .sleeping then .runnable else st
      let s1 := s.setProc ⟨i, h⟩ fun r => { r with killed := true, state := woken r.state }
      some ((setA0 s1 p 0).setFrames (.process p) fs)
    else some (s.setFrames (.process p) (.killScan pid (i + 1) :: fs))
  else some ((setA0 s p (-1)).setFrames (.process p) fs)

def boostprocScanStep (s : Kernel) (p : Slot) (pid : Int) (i : Nat) (fs : List Frame) :
    Option Kernel :=
  if h : i < nproc then
    if s.procLocked ⟨i, h⟩ then none
    else if (s.table.proc ⟨i, h⟩).pid = pid then
      some ((setA0 (s.setProc ⟨i, h⟩ fun r => { r with queueLevel := 0, timeInQueue := 0 })
        p 0).setFrames (.process p) fs)
    else some (s.setFrames (.process p) (.boostprocScan pid (i + 1) :: fs))
  else some ((setA0 s p (-1)).setFrames (.process p) fs)

def pauseLoopStep (s : Kernel) (c : CpuId) (p : Slot) (ticks0 n : Nat) (fs : List Frame) :
    Option Kernel :=
  if s.ticks - ticks0 < n then
    if s.procLocked p then none
    else if (s.table.proc p).killed then
      (releaseStep s (.process p) .tickslock fs).map fun s' => setA0 s' p (-1)
    else sleep s c p .ticks .tickslock (.pauseLoop ticks0 n :: fs)
  else (releaseStep s (.process p) .tickslock fs).map fun s' => setA0 s' p 0

/-- The frames `usertrap` runs for a system call, ending in its common tail. -/
def syscallFrames : Syscall → List Frame
  | .fork => [.forkAlloc 0]
  | .exit status => [.exitStart status]
  | .wait addr => [.waitStart addr]
  | .kill pid => [.killScan pid 0]
  | .boostproc pid => if pid = 0 then [.boostClear, .sysret 0] else [.boostprocScan pid 0]
  | .pause n => [.pauseStart n]
  | .sleepOn chan lk =>
      [.acquireLock (.obj lk), .sleepCall (.obj chan) (.obj lk), .releaseLock (.obj lk), .sysret 0]
  | .wakeupOn chan lk =>
      [.acquireLock (.obj lk), .wakeupScan (some (.obj chan)) 0, .releaseLock (.obj lk),
        .sysret 0]

/-! ## The step function -/

/-- Run the code of a process thread from a resumption point only it reaches. -/
def onProcess (t : Thread) (k : Slot → Option Kernel) : Option Kernel :=
  match t with
  | .process p => k p
  | .scheduler _ => none

/-- The next critical section of thread `t`, executing on CPU `c` at frame `f`. -/
def execFrame (s : Kernel) (c : CpuId) (t : Thread) (ok : Bool) (f : Frame)
    (fs : List Frame) : Option Kernel :=
  match f with
  | .schedTop => some (schedTopStep s t fs)
  | .schedBoosted => some (schedBoostedStep s t fs)
  | .schedScan level => some (schedScanStep s t level fs)
  | .schedLock level p => schedLockStep s c t level p fs
  | .schedSwtch _ _ => none
  | .schedReturned p => some (schedReturnedStep s c t p fs)
  | .boostClear => some ((s.mapTable clearRunqueues).setFrames t (.boostScan 0 :: fs))
  | .boostScan i => boostScanStep s t i fs
  | .wakeupScan chan i => wakeupScanStep s c t chan i fs
  | .clockTicks => clockTicksStep s c t fs
  | .clockRelease => releaseStep s t .tickslock fs
  | .clockQuantum => clockQuantumStep s c t fs
  | .clockRearm => some (clockRearmStep s c t fs)
  | .usertrapTail whichDev => onProcess t fun p => usertrapTailStep s c p whichDev fs
  | .kerneltrapTail whichDev => kerneltrapTailStep s c t whichDev fs
  | .sysret v => onProcess t fun p => some ((setA0 s p v).setFrames t fs)
  | .forkAlloc i => onProcess t fun p => forkAllocStep s p i ok fs
  | .forkParent np pid => onProcess t fun p => forkParentStep s p np pid fs
  | .forkRunnable np pid => onProcess t fun p => forkRunnableStep s p np pid fs
  | .exitStart status => onProcess t fun p => exitStartStep s p status fs
  | .exitReparent status i => onProcess t fun p => some (exitReparentStep s p status i fs)
  | .exitZombie status => onProcess t fun p => exitZombieStep s c p status
  | .waitStart addr => acquireStep s t .waitLock (.waitScan addr 0 false :: fs)
  | .waitScan addr i havekids => onProcess t fun p => waitScanStep s c p addr i havekids ok fs
  | .killScan pid i => onProcess t fun p => killScanStep s p pid i fs
  | .boostprocScan pid i => onProcess t fun p => boostprocScanStep s p pid i fs
  | .pauseStart n => acquireStep s t .tickslock (.pauseLoop s.ticks n.toNat :: fs)
  | .pauseLoop ticks0 n => onProcess t fun p => pauseLoopStep s c p ticks0 n fs
  | .acquireLock lk => acquireStep s t lk fs
  | .releaseLock lk => releaseStep s t lk fs
  | .sleepCall chan lk => onProcess t fun p => sleep s c p chan lk fs
  | .sleepRelock lk => acquireStep s t lk fs

/-- Whether CPU `c` takes an interrupt now.  Its scheduler enables interrupts
only in the `intr_on()` window at the top of its loop (`priority_boost` runs
after `intr_off()`); a process, in user mode or at a point of a system call
that holds no spinlock and is not inside a trap handler. -/
def intrEnabled (s : Kernel) (c : CpuId) : Bool :=
  match s.current c with
  | .scheduler _ => decide ((s.frames (.scheduler c)).head? = some .schedTop)
  | .process p =>
      match s.frames (.process p) with
      | [] => true
      | f :: fs => intrOn f && (f :: fs).all fun g => !inHandler g

/-- A trap on CPU `c` running `handler`: from user mode `usertrap`, else `kerneltrap`. -/
def trap (s : Kernel) (c : CpuId) (handler : List Frame) (whichDev : Nat) : Kernel :=
  let t := s.current c
  match s.frames t with
  | [] => s.setFrames t (handler ++ [.usertrapTail whichDev])
  | fs => s.setFrames t (handler ++ .kerneltrapTail whichDev :: fs)

def usertrapSyscall (s : Kernel) (c : CpuId) (call : Syscall) : Option Kernel :=
  match s.current c with
  | .process p =>
      if s.frames (.process p) = [] ∧ ¬ s.procLocked p then
        if (s.table.proc p).killed then some (s.setFrames (.process p) [.exitStart (-1)])
        else some (s.setFrames (.process p) (syscallFrames call ++ [.usertrapTail 0]))
      else none
  | .scheduler _ => none

inductive Action
  | exec (c : CpuId) (ok : Bool)
  | syscall (c : CpuId) (call : Syscall)
  | timer (c : CpuId)
  | devintr (c : CpuId) (chan lk : Nat)
  | elapse (d : Nat)
  deriving DecidableEq, Repr

def step (s : Kernel) : Action → Option Kernel
  | .exec c ok =>
      match s.frames (s.current c) with
      | [] => none
      | f :: fs => execFrame s c (s.current c) ok f fs
  | .syscall c call => usertrapSyscall s c call
  | .timer c =>
      if (s.cpus c).stimecmp ≤ s.time ∧ intrEnabled s c = true then
        some (trap s c [.clockTicks] 2)
      else none
  | .devintr c chan lk =>
      if intrEnabled s c = true then
        some (trap s c [.acquireLock (.obj lk), .wakeupScan (some (.obj chan)) 0,
          .releaseLock (.obj lk)] 1)
      else none
  | .elapse d => some { s with time := s.time + d }

/-- The states the kernel reaches from `boot`. -/
def Reachable (s : Kernel) : Prop := StepSystem.Reachable step boot s

end Xv6Mlfq.Step
