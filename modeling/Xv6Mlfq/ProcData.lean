import Mathlib.Data.Fintype.Basic
import Mathlib.Algebra.GroupWithZero.Nat

/-!
The data of the MLFQ scheduler: the constants of `param.h`, `proc.h` and the
Makefile, the per-process record `struct proc` (the fields the scheduler, the
process life cycle and the statistics read or write), a runqueue, the
statistics record, and the record changes `allocproc` and `freeproc` make.
-/

namespace Xv6Mlfq.ProcData

/-- `NPROC`: the size of the process table. -/
def nproc : Nat := 64

/-- The harts the kernel runs on: the Makefile's `CPUS := 3`, passed to qemu as
`-smp $(CPUS)`; `cpus[NCPU]` has room for eight. -/
def activeCpus : Nat := 3

def mlfqLevels : Nat := 4

def quantumL0 : Nat := 2

def quantumL1 : Nat := 4

def quantumL2 : Nat := 8

def quantumL3 : Nat := 16

def boostInterval : Nat := 100

/-- The timer period written to `stimecmp` by `timerinit` and `clockintr`. -/
def timerInterval : Nat := 1000000

instance : NeZero nproc := ⟨by decide⟩

instance : NeZero activeCpus := ⟨by decide⟩

/-- A non-null `struct proc *`: an index into `proc[NPROC]`. -/
abbrev Slot := Fin nproc

abbrev CpuId := Fin activeCpus

inductive Procstate
  | unused
  | used
  | sleeping
  | runnable
  | running
  | zombie
  deriving DecidableEq, Repr

/-- The addresses processes sleep on.  `obj n` stands for the address of any
other kernel object (a pipe, the log, a buffer, the console, a sleep lock). -/
inductive Chan
  | ticks
  | proc (p : Slot)
  | obj (n : Nat)
  deriving DecidableEq, Repr

/-- The spinlocks a kernel thread can hold across steps, besides `p->lock`. -/
inductive Lock
  | tickslock
  | waitLock
  | obj (n : Nat)
  deriving DecidableEq, Repr

/-- `struct proc`, restricted to the fields the modelled code uses.  `a0` is
`p->trapframe->a0`, where `usertrap` stores a system call's result. -/
structure Proc where
  state : Procstate
  chan : Option Chan
  killed : Bool
  xstate : Int
  pid : Int
  parent : Option Slot
  queueLevel : Nat
  timeInQueue : Nat
  timeSlices : Nat
  enteredQueueTick : Nat
  queueNext : Option Slot
  a0 : Int
  deriving DecidableEq, Repr

structure Runqueue where
  head : Option Slot
  tail : Option Slot
  deriving DecidableEq, Repr

/-- `struct mlfq_stats`; the two arrays are indexed by queue level. -/
structure MlfqStats where
  totalSchedules : Nat
  totalBoosts : Nat
  totalDemotions : Nat
  levelQueueCount : Nat → Nat
  levelSchedules : Nat → Nat

/-- `struct procinfo`, as `sys_getprocinfo` fills it. -/
structure Procinfo where
  pid : Int
  state : Procstate
  queueLevel : Nat
  timeInQueue : Nat
  timeSlices : Nat
  deriving DecidableEq, Repr

def getQuantum : Nat → Nat
  | 0 => quantumL0
  | 1 => quantumL1
  | 2 => quantumL2
  | 3 => quantumL3
  | _ => quantumL3

theorem getQuantum_pos (level : Nat) : 0 < getQuantum level := by
  unfold getQuantum
  split <;> decide

/-- A process table entry as the zero-initialised `proc[]` and `procinit` leave it. -/
def Proc.init : Proc where
  state := .unused
  chan := none
  killed := false
  xstate := 0
  pid := 0
  parent := none
  queueLevel := 0
  timeInQueue := 0
  timeSlices := 0
  enteredQueueTick := 0
  queueNext := none
  a0 := 0

/-- The fields `freeproc` resets; the trapframe page holding `a0` is freed and
left as it was. -/
def freeproc (p : Proc) : Proc :=
  { p with
    pid := 0
    parent := none
    chan := none
    killed := false
    xstate := 0
    state := .unused
    queueLevel := 0
    timeInQueue := 0
    timeSlices := 0
    enteredQueueTick := 0
    queueNext := none }

/-- The fields `allocproc` sets on an `UNUSED` entry it claims, given the pid
`allocpid` returned.  `killed`, `parent` and `chan` are not touched. -/
def allocprocFields (pid : Int) (p : Proc) : Proc :=
  { p with
    pid := pid
    state := .used
    queueLevel := 0
    timeInQueue := 0
    timeSlices := 0
    enteredQueueTick := 0
    queueNext := none }

/-- `sys_getprocinfo`: the scheduling fields of the calling process. -/
def getprocinfo (p : Proc) : Procinfo where
  pid := p.pid
  state := p.state
  queueLevel := p.queueLevel
  timeInQueue := p.timeInQueue
  timeSlices := p.timeSlices

@[simp] theorem freeproc_state (p : Proc) : (freeproc p).state = .unused := rfl

@[simp] theorem freeproc_parent (p : Proc) : (freeproc p).parent = none := rfl

@[simp] theorem freeproc_queueLevel (p : Proc) : (freeproc p).queueLevel = 0 := rfl

@[simp] theorem freeproc_timeInQueue (p : Proc) : (freeproc p).timeInQueue = 0 := rfl

@[simp] theorem freeproc_queueNext (p : Proc) : (freeproc p).queueNext = none := rfl

@[simp] theorem freeproc_chan (p : Proc) : (freeproc p).chan = none := rfl

@[simp] theorem allocprocFields_state (pid : Int) (p : Proc) :
    (allocprocFields pid p).state = .used := rfl

@[simp] theorem allocprocFields_parent (pid : Int) (p : Proc) :
    (allocprocFields pid p).parent = p.parent := rfl

@[simp] theorem allocprocFields_queueLevel (pid : Int) (p : Proc) :
    (allocprocFields pid p).queueLevel = 0 := rfl

@[simp] theorem allocprocFields_timeInQueue (pid : Int) (p : Proc) :
    (allocprocFields pid p).timeInQueue = 0 := rfl

@[simp] theorem allocprocFields_queueNext (pid : Int) (p : Proc) :
    (allocprocFields pid p).queueNext = none := rfl

@[simp] theorem allocprocFields_pid (pid : Int) (p : Proc) :
    (allocprocFields pid p).pid = pid := rfl

end Xv6Mlfq.ProcData
