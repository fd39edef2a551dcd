import Xv6Mlfq.Inversion
import Xv6Mlfq.Scans

/-!
The control of every kernel thread.  A reachable stack of resumption points is
one the C code can be in: a process is in user mode, inside one system call
(or `kexit`) down to the tail of `usertrap`, or inside an interrupt handler
that returns to user mode or to a system call stopped with interrupts on; a
scheduler is at a point of its loop or inside a handler taken in its
`intr_on()` window.  Each CPU's `c->proc` is the process its scheduler has
switched to, or is switching back from, and that process is `RUNNING` while
it runs.  The process a `kfork` is creating stays `USED` and belongs to one
`kfork`.
-/

namespace Xv6Mlfq.Control

open Xv6Mlfq.ProcData
open Xv6Mlfq.State
open Xv6Mlfq.State.Kernel
open Xv6Mlfq.Step
open Xv6Mlfq.Inversion
open Xv6Mlfq.Scans

/-! ## The stacks a thread can have -/

/-- Where `kexit` runs down to: the tail of the system call, or nothing when
`usertrap` exits a killed process. -/
def ExitTail (t : List Frame) : Prop := t = [.usertrapTail 0] ∨ t = []

/-- The stack of a process inside a system call or `kexit`, from the point
reached down to the bottom. -/
inductive SyscallStack : List Frame → Prop
  | userret : SyscallStack [.usertrapTail 0]
  | sysret (v : Int) : SyscallStack [.sysret v, .usertrapTail 0]
  | forkAlloc (i : Nat) : SyscallStack [.forkAlloc i, .usertrapTail 0]
  | forkParent (np : Slot) (pid : Int) : SyscallStack [.forkParent np pid, .usertrapTail 0]
  | forkRunnable (np : Slot) (pid : Int) : SyscallStack [.forkRunnable np pid, .usertrapTail 0]
  | exitStart (status : Int) {t : List Frame} (ht : ExitTail t) :
      SyscallStack (.exitStart status :: t)
  | exitReparent (status : Int) (i : Nat) {t : List Frame} (ht : ExitTail t) :
      SyscallStack (.exitReparent status i :: t)
  | exitReparentWakeup (chan : Option Chan) (j : Nat) (status : Int) (i : Nat) {t : List Frame}
      (ht : ExitTail t) : SyscallStack (.wakeupScan chan j :: .exitReparent status i :: t)
  | exitParentWakeup (chan : Option Chan) (j : Nat) (status : Int) {t : List Frame}
      (ht : ExitTail t) : SyscallStack (.wakeupScan chan j :: .exitZombie status :: t)
  | exitZombie (status : Int) {t : List Frame} (ht : ExitTail t) :
      SyscallStack (.exitZombie status :: t)
  | waitStart (addr : Nat) : SyscallStack [.waitStart addr, .usertrapTail 0]
  | waitScan (addr i : Nat) (havekids : Bool) :
      SyscallStack [.waitScan addr i havekids, .usertrapTail 0]
  | waitSleep (addr : Nat) :
      SyscallStack [.sleepRelock .waitLock, .waitScan addr 0 false, .usertrapTail 0]
  | killScan (pid : Int) (i : Nat) : SyscallStack [.killScan pid i, .usertrapTail 0]
  | boostprocScan (pid : Int) (i : Nat) : SyscallStack [.boostprocScan pid i, .usertrapTail 0]
  | boostClear : SyscallStack [.boostClear, .sysret 0, .usertrapTail 0]
  | boostScan (i : Nat) : SyscallStack [.boostScan i, .sysret 0, .usertrapTail 0]
  | pauseStart (n : Int) : SyscallStack [.pauseStart n, .usertrapTail 0]
  | pauseLoop (ticks0 n : Nat) : SyscallStack [.pauseLoop ticks0 n, .usertrapTail 0]
  | pauseSleep (ticks0 n : Nat) :
      SyscallStack [.sleepRelock .tickslock, .pauseLoop ticks0 n, .usertrapTail 0]
  | sleepAcquire (chan lk : Nat) :
      SyscallStack [.acquireLock (.obj lk), .sleepCall (.obj chan) (.obj lk), .releaseLock (.obj lk),
        .sysret 0, .usertrapTail 0]
  | sleepCall (chan lk : Nat) :
      SyscallStack [.sleepCall (.obj chan) (.obj lk), .releaseLock (.obj lk), .sysret 0,
        .usertrapTail 0]
  | sleepRelock (lk : Nat) :
      SyscallStack [.sleepRelock (.obj lk), .releaseLock (.obj lk), .sysret 0, .usertrapTail 0]
  | lockRelease (lk : Nat) : SyscallStack [.releaseLock (.obj lk), .sysret 0, .usertrapTail 0]
  | wakeupAcquire (chan lk : Nat) :
      SyscallStack [.acquireLock (.obj lk), .wakeupScan (some (.obj chan)) 0, .releaseLock (.obj lk),
        .sysret 0, .usertrapTail 0]
  | wakeupScan (chan lk i : Nat) :
      SyscallStack [.wakeupScan (some (.obj chan)) i, .releaseLock (.obj lk), .sysret 0,
        .usertrapTail 0]

/-- Where an interrupt handler on thread `t` returns: to user mode, into a
system call stopped at a point with interrupts on, or to the top of the
scheduler loop. -/
inductive TrapReturn : Thread → List Frame → Prop
  | user (p : Slot) (w : Nat) (hw : w ≠ 0) : TrapReturn (.process p) [.usertrapTail w]
  | kernel (p : Slot) (w : Nat) {f : Frame} {fs : List Frame} (hf : intrOn f = true)
      (hs : SyscallStack (f :: fs)) : TrapReturn (.process p) (.kerneltrapTail w :: f :: fs)
  | sched (c : CpuId) (w : Nat) : TrapReturn (.scheduler c) [.kerneltrapTail w, .schedTop]

/-- The stack of thread `t` inside `clockintr` or a device interrupt. -/
inductive HandlerStack (t : Thread) : List Frame → Prop
  | ret {r : List Frame} (hr : TrapReturn t r) : HandlerStack t r
  | clockTicks {r : List Frame} (hr : TrapReturn t r) : HandlerStack t (.clockTicks :: r)
  | wakeupTicks (i : Nat) {r : List Frame} (hr : TrapReturn t r) :
      HandlerStack t (.wakeupScan (some .ticks) i :: .clockRelease :: .clockQuantum :: r)
  | clockRelease {r : List Frame} (hr : TrapReturn t r) :
      HandlerStack t (.clockRelease :: .clockQuantum :: r)
  | clockQuantum {r : List Frame} (hr : TrapReturn t r) : HandlerStack t (.clockQuantum :: r)
  | clockRearm {r : List Frame} (hr : TrapReturn t r) : HandlerStack t (.clockRearm :: r)
  | devAcquire (chan lk : Nat) {r : List Frame} (hr : TrapReturn t r) :
      HandlerStack t (.acquireLock (.obj lk) :: .wakeupScan (some (.obj chan)) 0 ::
        .releaseLock (.obj lk) :: r)
  | devWakeup (chan lk i : Nat) {r : List Frame} (hr : TrapReturn t r) :
      HandlerStack t (.wakeupScan (some (.obj chan)) i :: .releaseLock (.obj lk) :: r)
  | devRelease (lk : Nat) {r : List Frame} (hr : TrapReturn t r) :
      HandlerStack t (.releaseLock (.obj lk) :: r)

/-- The stack of a scheduler at a point of its loop. -/
inductive SchedLoop : List Frame → Prop
  | top : SchedLoop [.schedTop]
  | boosted : SchedLoop [.schedBoosted]
  | boostClear : SchedLoop [.boostClear, .schedBoosted]
  | boostScan (i : Nat) : SchedLoop [.boostScan i, .schedBoosted]
  | scan (level : Nat) : SchedLoop [.schedScan level]
  | lock (level : Nat) (p : Slot) : SchedLoop [.schedLock level p]
  | swtch (level : Nat) (p : Slot) : SchedLoop [.schedSwtch level p]
  | returned (p : Slot) : SchedLoop [.schedReturned p]

/-- The stacks thread `t` can have. -/
def StackOk : Thread → List Frame → Prop
  | .process p, fs => fs = [] ∨ SyscallStack fs ∨ HandlerStack (.process p) fs
  | .scheduler c, fs => SchedLoop fs ∨ HandlerStack (.scheduler c) fs

/-- Resumption points of system calls and `kexit` only. -/
def syscallOnly : Frame → Bool
  | .usertrapTail 0 | .sysret _ | .forkAlloc _ | .forkParent _ _ | .forkRunnable _ _ | .exitStart _
  | .exitReparent _ _ | .exitZombie _ | .waitStart _ | .waitScan _ _ _ | .killScan _ _
  | .boostprocScan _ _ | .pauseStart _ | .pauseLoop _ _ | .sleepCall _ _ | .sleepRelock _ => true
  | _ => false

/-- Resumption points of the scheduler loop only. -/
def loopOnly : Frame → Bool
  | .schedTop | .schedBoosted | .schedScan _ | .schedLock _ _ | .schedSwtch _ _
  | .schedReturned _ => true
  | _ => false

/-- Resumption points of interrupt handlers only. -/
def handlerOnly : Frame → Bool
  | .clockTicks | .clockRelease | .clockQuantum | .clockRearm | .kerneltrapTail _ => true
  | _ => false

theorem trapReturn_top {t : Thread} {f : Frame} {fs : List Frame} (h : TrapReturn t (f :: fs)) :
    syscallOnly f = false ∧ loopOnly f = false := by
  cases h with
  | user p w hw => simp [syscallOnly, loopOnly, hw]
  | kernel => simp [syscallOnly, loopOnly]
  | sched => simp [syscallOnly, loopOnly]

theorem handlerStack_top {t : Thread} {f : Frame} {fs : List Frame} (h : HandlerStack t (f :: fs)) :
    syscallOnly f = false ∧ loopOnly f = false := by
  cases h with
  | ret hr => exact trapReturn_top hr
  | _ => simp [syscallOnly, loopOnly]

theorem syscallStack_top {f : Frame} {fs : List Frame} (h : SyscallStack (f :: fs)) :
    loopOnly f = false ∧ handlerOnly f = false := by
  cases h <;> simp [loopOnly, handlerOnly]

theorem schedLoop_top {f : Frame} {fs : List Frame} (h : SchedLoop (f :: fs)) :
    syscallOnly f = false ∧ handlerOnly f = false := by
  cases h <;> simp [syscallOnly, handlerOnly]

theorem StackOk.syscall_of {t : Thread} {f : Frame} {fs : List Frame} (h : StackOk t (f :: fs))
    (hf : syscallOnly f = true) : ∃ p, t = .process p ∧ SyscallStack (f :: fs) := by
  cases t with
  | process p =>
      rcases h with h | h | h
      · cases h
      · exact ⟨p, rfl, h⟩
      · simp [(handlerStack_top h).1] at hf
  | scheduler c =>
      rcases h with h | h
      · simp [(schedLoop_top h).1] at hf
      · simp [(handlerStack_top h).1] at hf

theorem StackOk.loop_of {t : Thread} {f : Frame} {fs : List Frame} (h : StackOk t (f :: fs))
    (hf : loopOnly f = true) : ∃ c, t = .scheduler c ∧ SchedLoop (f :: fs) := by
  cases t with
  | process p =>
      rcases h with h | h | h
      · cases h
      · simp [(syscallStack_top h).1] at hf
      · simp [(handlerStack_top h).2] at hf
  | scheduler c =>
      rcases h with h | h
      · exact ⟨c, rfl, h⟩
      · simp [(handlerStack_top h).2] at hf

theorem StackOk.handler_of {t : Thread} {f : Frame} {fs : List Frame} (h : StackOk t (f :: fs))
    (hf : handlerOnly f = true) : HandlerStack t (f :: fs) := by
  cases t with
  | process p =>
      rcases h with h | h | h
      · cases h
      · simp [(syscallStack_top h).2] at hf
      · exact h
  | scheduler c =>
      rcases h with h | h
      · simp [(schedLoop_top h).2] at hf
      · exact h

theorem StackOk.of_syscall {p : Slot} {fs : List Frame} (h : SyscallStack fs) :
    StackOk (.process p) fs :=
  .inr (.inl h)

theorem StackOk.of_loop {c : CpuId} {fs : List Frame} (h : SchedLoop fs) :
    StackOk (.scheduler c) fs :=
  .inl h

theorem StackOk.of_handler {t : Thread} {fs : List Frame} (h : HandlerStack t fs) :
    StackOk t fs := by
  cases t with
  | process p => exact .inr (.inr h)
  | scheduler c => exact .inr h

/-! ## Frames shared by several kinds of stack -/

section Shared

variable {t : Thread} {fs : List Frame}

theorem StackOk.wakeupScan_next {chan : Option Chan} {i : Nat}
    (h : StackOk t (.wakeupScan chan i :: fs)) : StackOk t (.wakeupScan chan (i + 1) :: fs) := by
  have hh : HandlerStack t (.wakeupScan chan i :: fs) → HandlerStack t (.wakeupScan chan (i + 1) :: fs) := by
    intro hh
    cases hh with
    | ret hr => cases hr
    | wakeupTicks i hr => exact .wakeupTicks _ hr
    | devWakeup chan lk i hr => exact .devWakeup _ _ _ hr
  cases t with
  | process p =>
      rcases h with h | h | h
      · cases h
      · refine .of_syscall ?_
        cases h with
        | exitReparentWakeup _ _ _ _ ht => exact .exitReparentWakeup _ _ _ _ ht
        | exitParentWakeup _ _ _ ht => exact .exitParentWakeup _ _ _ ht
        | wakeupScan chan lk i => exact .wakeupScan _ _ _
      · exact .of_handler (hh h)
  | scheduler c =>
      rcases h with h | h
      · cases h
      · exact .of_handler (hh h)

theorem StackOk.wakeupScan_pop {chan : Option Chan} {i : Nat}
    (h : StackOk t (.wakeupScan chan i :: fs)) : StackOk t fs := by
  have hh : HandlerStack t (.wakeupScan chan i :: fs) → HandlerStack t fs := by
    intro hh
    cases hh with
    | ret hr => cases hr
    | wakeupTicks i hr => exact .clockRelease hr
    | devWakeup chan lk i hr => exact .devRelease _ hr
  cases t with
  | process p =>
      rcases h with h | h | h
      · cases h
      · refine .of_syscall ?_
        cases h with
        | exitReparentWakeup _ _ _ _ ht => exact .exitReparent _ _ ht
        | exitParentWakeup _ _ _ ht => exact .exitZombie _ ht
        | wakeupScan chan lk i => exact .lockRelease _
      · exact .of_handler (hh h)
  | scheduler c =>
      rcases h with h | h
      · cases h
      · exact .of_handler (hh h)

theorem StackOk.acquireLock_pop {lk : Lock} (h : StackOk t (.acquireLock lk :: fs)) :
    StackOk t fs := by
  have hh : HandlerStack t (.acquireLock lk :: fs) → HandlerStack t fs := by
    intro hh
    cases hh with
    | ret hr => cases hr
    | devAcquire chan lk hr => exact .devWakeup _ _ _ hr
  cases t with
  | process p =>
      rcases h with h | h | h
      · cases h
      · refine .of_syscall ?_
        cases h with
        | sleepAcquire chan lk => exact .sleepCall _ _
        | wakeupAcquire chan lk => exact .wakeupScan _ _ _
      · exact .of_handler (hh h)
  | scheduler c =>
      rcases h with h | h
      · cases h
      · exact .of_handler (hh h)

theorem StackOk.releaseLock_pop {lk : Lock} (h : StackOk t (.releaseLock lk :: fs)) :
    StackOk t fs := by
  have hh : HandlerStack t (.releaseLock lk :: fs) → HandlerStack t fs := by
    intro hh
    cases hh with
    | ret hr => cases hr
    | devRelease lk hr => exact .ret hr
  cases t with
  | process p =>
      rcases h with h | h | h
      · cases h
      · refine .of_syscall ?_
        cases h with
        | lockRelease lk => exact .sysret _
      · exact .of_handler (hh h)
  | scheduler c =>
      rcases h with h | h
      · cases h
      · exact .of_handler (hh h)

theorem StackOk.boostClear_next (h : StackOk t (.boostClear :: fs)) :
    StackOk t (.boostScan 0 :: fs) := by
  cases t with
  | process p =>
      rcases h with h | h | h
      · cases h
      · cases h
        exact .of_syscall (.boostScan 0)
      · cases h with
        | ret hr => cases hr
  | scheduler c =>
      rcases h with h | h
      · cases h
        exact .of_loop (.boostScan 0)
      · cases h with
        | ret hr => cases hr

theorem StackOk.boostScan_next {i : Nat} (h : StackOk t (.boostScan i :: fs)) :
    StackOk t (.boostScan (i + 1) :: fs) := by
  cases t with
  | process p =>
      rcases h with h | h | h
      · cases h
      · cases h
        exact .of_syscall (.boostScan _)
      · cases h with
        | ret hr => cases hr
  | scheduler c =>
      rcases h with h | h
      · cases h
        exact .of_loop (.boostScan _)
      · cases h with
        | ret hr => cases hr

theorem StackOk.boostScan_pop {i : Nat} (h : StackOk t (.boostScan i :: fs)) : StackOk t fs := by
  cases t with
  | process p =>
      rcases h with h | h | h
      · cases h
      · cases h
        exact .of_syscall (.sysret 0)
      · cases h with
        | ret hr => cases hr
  | scheduler c =>
      rcases h with h | h
      · cases h
        exact .of_loop .boosted
      · cases h with
        | ret hr => cases hr

theorem StackOk.usertrapTail {w : Nat} (h : StackOk t (.usertrapTail w :: fs)) :
    fs = [] ∧ ∃ p, t = .process p := by
  cases t with
  | process p =>
      rcases h with h | h | h
      · cases h
      · cases h
        exact ⟨rfl, p, rfl⟩
      · cases h with
        | ret hr =>
            cases hr
            exact ⟨rfl, p, rfl⟩
  | scheduler c =>
      rcases h with h | h
      · cases h
      · cases h with
        | ret hr => cases hr

theorem StackOk.kerneltrapTail_pop {w : Nat} (h : StackOk t (.kerneltrapTail w :: fs)) :
    StackOk t fs ∧ (∀ c, t = .scheduler c → fs = [.schedTop]) := by
  have hh := h.handler_of rfl
  cases hh with
  | ret hr =>
      cases hr with
      | kernel p w hf hs => exact ⟨.of_syscall hs, fun _ h => Thread.noConfusion h⟩
      | sched c w => exact ⟨.of_loop .top, fun _ _ => rfl⟩

end Shared

/-! ## CPUs and the processes being created -/

/-- Whether a scheduler resumption point has a process on its CPU: switched to
it, or switched back from it with its `p->lock` still held. -/
def holdsProc : Option Frame → Bool
  | some (.schedSwtch _ _) | some (.schedReturned _) => true
  | _ => false

/-- `c->proc` as the resumption point of CPU `c`'s scheduler fixes it. -/
def CpuBinding (s : Kernel) (c : CpuId) : Prop :=
  match (s.frames (.scheduler c)).head? with
  | some (.schedSwtch _ p) => s.myproc c = some p ∧ (s.table.proc p).state = .running
  | some (.schedReturned p) => s.myproc c = some p
  | _ => s.myproc c = none

/-- The stack of a `kfork` between `allocproc` of `np` and `np->state = RUNNABLE`. -/
def Creates (fs : List Frame) (np : Slot) : Prop :=
  ∃ pid, Frame.forkParent np pid ∈ fs ∨ Frame.forkRunnable np pid ∈ fs

/-- The control invariant: every stack is one the code can have, every
`c->proc` matches its scheduler, no process runs on two CPUs, and the process a
`kfork` creates is `USED` and created by that `kfork` alone. -/
structure ControlOk (s : Kernel) : Prop where
  stack : ∀ t, StackOk t (s.frames t)
  binding : ∀ c, CpuBinding s c
  swtchUnique : ∀ c d l l' p, (s.frames (.scheduler c)).head? = some (.schedSwtch l p) →
    (s.frames (.scheduler d)).head? = some (.schedSwtch l' p) → c = d
  creationUsed : ∀ P np, Creates (s.frames (.process P)) np → (s.table.proc np).state = .used
  creationUnique : ∀ P Q np, Creates (s.frames (.process P)) np →
    Creates (s.frames (.process Q)) np → P = Q

theorem boot_frames (t : Thread) : boot.frames t = procinit.frames t := rfl

theorem controlOk_boot : ControlOk boot where
  stack t := by
    cases t with
    | process p => exact .inl rfl
    | scheduler c => exact .of_loop .top
  binding c := by
    unfold CpuBinding
    rw [boot_frames]
    rfl
  swtchUnique c d l l' p h := by
    rw [boot_frames] at h
    simp [procinit] at h
  creationUsed P np h := by
    rw [boot_frames] at h
    simp [Creates, procinit] at h
  creationUnique P Q np h := by
    rw [boot_frames] at h
    simp [Creates, procinit] at h

/-! ## Preservation -/

section Preservation

variable {s s' : Kernel}

theorem cpuBinding_free {c : CpuId} (h : holdsProc (s.frames (.scheduler c)).head? = false) :
    CpuBinding s c ↔ s.myproc c = none := by
  unfold CpuBinding
  split <;> simp_all [holdsProc]

theorem CpuBinding.keep {c : CpuId} (hb : CpuBinding s c)
    (hframes : s'.frames (.scheduler c) = s.frames (.scheduler c)) (hcpu : s'.myproc c = s.myproc c)
    (hrun : ∀ q, (s.table.proc q).state = .running → (s'.table.proc q).state = .running) :
    CpuBinding s' c := by
  unfold CpuBinding at hb ⊢
  rw [hframes, hcpu]
  split at hb
  · exact ⟨hb.1, hrun _ hb.2⟩
  · exact hb
  · exact hb

/-- A step that changes only the stack of its own thread `t`, keeps every
`c->proc` and every `RUNNING` and `USED` process, starts no creation, and on a
scheduler neither leaves nor reaches a point that holds a process. -/
theorem ControlOk.of_local (hc : ControlOk s) (t : Thread)
    (hframes : ∀ u, u ≠ t → s'.frames u = s.frames u)
    (hstack : StackOk t (s'.frames t))
    (hfree : ∀ c, t = .scheduler c →
      holdsProc (s.frames t).head? = false ∧ holdsProc (s'.frames t).head? = false)
    (hcreates : ∀ P np, t = .process P → Creates (s'.frames t) np → Creates (s.frames t) np)
    (hcpu : ∀ c, s'.myproc c = s.myproc c)
    (hrun : ∀ q, (s.table.proc q).state = .running → (s'.table.proc q).state = .running)
    (hused : ∀ q, (s.table.proc q).state = .used → (s'.table.proc q).state = .used) :
    ControlOk s' := by
  have hcr : ∀ P np, Creates (s'.frames (.process P)) np → Creates (s.frames (.process P)) np := by
    intro P np h
    by_cases hP : Thread.process P = t
    · subst hP
      exact hcreates P np rfl h
    · rwa [hframes _ hP] at h
  have hsw : ∀ c l p, (s'.frames (.scheduler c)).head? = some (.schedSwtch l p) →
      (s.frames (.scheduler c)).head? = some (.schedSwtch l p) := by
    intro c l p h
    by_cases hct : Thread.scheduler c = t
    · subst hct
      have := (hfree c rfl).2
      rw [h] at this
      cases this
    · rwa [hframes _ hct] at h
  refine ⟨fun u => ?_, fun c => ?_, fun c d l l' p hc' hd => hc.swtchUnique c d l l' p (hsw c l p hc')
    (hsw d l' p hd), fun P np h => hused np (hc.creationUsed P np (hcr P np h)),
    fun P Q np hP hQ => hc.creationUnique P Q np (hcr P np hP) (hcr Q np hQ)⟩
  · by_cases hu : u = t
    · subst hu
      exact hstack
    · rw [hframes u hu]
      exact hc.stack u
  · by_cases hct : Thread.scheduler c = t
    · subst hct
      obtain ⟨hold, hnew⟩ := hfree c rfl
      rw [cpuBinding_free hnew, hcpu]
      exact (cpuBinding_free hold).mp (hc.binding c)
    · exact (hc.binding c).keep (hframes _ hct) (hcpu c) hrun

/-- No `RUNNING` process stops running and no `USED` process stops being `USED`. -/
def StateKept (tb tb' : Table) : Prop :=
  ∀ q, ((tb.proc q).state = .running → (tb'.proc q).state = .running) ∧
    ((tb.proc q).state = .used → (tb'.proc q).state = .used)

theorem StateKept.of_state_eq {tb tb' : Table} (h : ∀ q, (tb'.proc q).state = (tb.proc q).state) :
    StateKept tb tb' :=
  fun q => ⟨fun hq => (h q).trans hq, fun hq => (h q).trans hq⟩

theorem ControlOk.setFrames (hc : ControlOk s) {X : Kernel} {t : Thread} {fs' : List Frame}
    (hX : X.frames = s.frames) (hcpu : ∀ c, X.myproc c = s.myproc c)
    (hkept : StateKept s.table X.table) (hstack : StackOk t fs')
    (hfree : ∀ c, t = .scheduler c →
      holdsProc (s.frames t).head? = false ∧ holdsProc fs'.head? = false)
    (hcreates : ∀ P np, t = .process P → Creates fs' np → Creates (s.frames t) np) :
    ControlOk (X.setFrames t fs') := by
  refine hc.of_local t (fun u hu => ?_) (by simpa using hstack) (fun c hct => ?_)
    (fun P np hP h => ?_) (fun c => ?_) (fun q => (hkept q).1) (fun q => (hkept q).2)
  · simp [hu, hX]
  · simpa using hfree c hct
  · exact hcreates P np hP (by simpa using h)
  · simpa using hcpu c

theorem StackOk.sched_tail_free {c : CpuId} {f : Frame} {fs : List Frame}
    (h : StackOk (.scheduler c) (f :: fs)) : holdsProc fs.head? = false := by
  rcases h with h | h
  · cases h <;> rfl
  · cases h <;> rename_i hr <;> cases hr <;> rfl

theorem creates_of_cons {f : Frame} {fs : List Frame} {np : Slot} (h : Creates fs np) :
    Creates (f :: fs) np := by
  obtain ⟨pid, h | h⟩ := h
  · exact ⟨pid, .inl (List.mem_cons_of_mem f h)⟩
  · exact ⟨pid, .inr (List.mem_cons_of_mem f h)⟩

theorem creates_append_left {g xs : List Frame} {np : Slot}
    (hg : ∀ np pid, Frame.forkParent np pid ∉ g ∧ Frame.forkRunnable np pid ∉ g)
    (h : Creates (g ++ xs) np) : Creates xs np := by
  obtain ⟨pid, h | h⟩ := h
  · rcases List.mem_append.mp h with h | h
    · exact absurd h (hg np pid).1
    · exact ⟨pid, .inl h⟩
  · rcases List.mem_append.mp h with h | h
    · exact absurd h (hg np pid).2
    · exact ⟨pid, .inr h⟩

theorem creates_of_push {f : Frame} {g fs : List Frame} {np : Slot}
    (hg : ∀ np pid, Frame.forkParent np pid ∉ g ∧ Frame.forkRunnable np pid ∉ g)
    (h : Creates (g ++ fs) np) : Creates (f :: fs) np :=
  creates_of_cons (creates_append_left hg h)

theorem ControlOk.current_process (hc : ControlOk s) {c : CpuId} {p : Slot}
    (hcur : s.current c = .process p) :
    ∃ l, s.frames (.scheduler c) = [.schedSwtch l p] ∧ s.myproc c = some p ∧
      (s.table.proc p).state = .running := by
  rcases current_cases s c with ⟨hsc, -⟩ | ⟨l, q, hq, hhead⟩
  · rw [hcur] at hsc
    cases hsc
  · rw [hcur] at hq
    cases hq
    obtain ⟨fs, hfs⟩ := List.head?_eq_some_iff.mp hhead
    have hst := hc.stack (.scheduler c)
    rw [hfs] at hst
    obtain ⟨c', -, hl⟩ := hst.loop_of rfl
    cases hl
    have hb := hc.binding c
    unfold CpuBinding at hb
    rw [hfs] at hb
    exact ⟨l, hfs, hb⟩

/-- `sched()` from the process `p` running on CPU `c`, with `p` no longer
`RUNNING`: `p` resumes at `resume` and its scheduler returns from `swtch`. -/
theorem ControlOk.of_sched {s₁ : Kernel} {c : CpuId} {p : Slot} {resume : List Frame}
    (hc : ControlOk s) (hcur : s.current c = .process p) (hframes : s₁.frames = s.frames)
    (hcpus : s₁.cpus = s.cpus) (hstate : ∀ q, q ≠ p → (s₁.table.proc q).state = (s.table.proc q).state)
    (hp : (s₁.table.proc p).state ≠ .running) (hstack : StackOk (.process p) resume)
    (hcreates : ∀ np, Creates resume np → Creates (s.frames (.process p)) np) :
    ControlOk (Step.sched s₁ c p resume) := by
  obtain ⟨l, hsc, hme, hrun⟩ := hc.current_process hcur
  have hfr : ∀ u, (Step.sched s₁ c p resume).frames u =
      if u = .scheduler c then [.schedReturned p] else if u = .process p then resume
      else s.frames u := by
    intro u
    simp [Step.sched, hframes, hsc]
  have hme' : ∀ d, (Step.sched s₁ c p resume).myproc d = s.myproc d := by
    intro d
    simp [Step.sched, myproc, hcpus]
  -- a process other than `p` that runs on another CPU keeps its state
  have hother : ∀ d l' q, d ≠ c → (s.frames (.scheduler d)).head? = some (.schedSwtch l' q) → q ≠ p := by
    rintro d l' q hd hq rfl
    exact hd (hc.swtchUnique d c l' l q hq (by simp [hsc]))
  have hcr : ∀ P np, Creates ((Step.sched s₁ c p resume).frames (.process P)) np →
      Creates (s.frames (.process P)) np := by
    intro P np h
    by_cases hP : P = p
    · subst hP
      simp only [hfr, reduceCtorEq, if_false, if_true] at h
      exact hcreates np h
    · simpa [hfr, hP] using h
  have hnp : ∀ P np, Creates ((Step.sched s₁ c p resume).frames (.process P)) np → np ≠ p := by
    rintro P np h rfl
    have := hc.creationUsed P np (hcr P np h)
    rw [hrun] at this
    cases this
  refine ⟨fun u => ?_, fun d => ?_, fun d d' l₁ l₂ q h₁ h₂ => ?_, fun P np h => ?_,
    fun P Q np hP hQ => hc.creationUnique P Q np (hcr P np hP) (hcr Q np hQ)⟩
  · rw [hfr]
    split_ifs with hu hu'
    · subst hu
      exact .of_loop (.returned p)
    · subst hu'
      exact hstack
    · exact hc.stack u
  · by_cases hd : d = c
    · subst hd
      unfold CpuBinding
      rw [hfr, if_pos rfl, hme']
      exact hme
    · have hb := hc.binding d
      unfold CpuBinding at hb ⊢
      rw [hfr, if_neg (by simpa using hd), if_neg (by simp), hme']
      split at hb
      · next l' q hq => exact ⟨hb.1, by simp [Step.sched, hstate q (hother d l' q hd hq), hb.2]⟩
      · exact hb
      · exact hb
  · have hne : ∀ e, (Step.sched s₁ c p resume).frames (.scheduler e) ≠ [.schedReturned p] →
        (Step.sched s₁ c p resume).frames (.scheduler e) = s.frames (.scheduler e) := by
      intro e he
      rw [hfr] at he ⊢
      by_cases hec : Thread.scheduler e = .scheduler c
      · rw [if_pos hec] at he
        exact absurd rfl he
      · rw [if_neg hec, if_neg (by simp)]
    have hne₁ := hne d (fun h => by rw [h] at h₁; cases h₁)
    have hne₂ := hne d' (fun h => by rw [h] at h₂; cases h₂)
    exact hc.swtchUnique d d' l₁ l₂ q (hne₁ ▸ h₁) (hne₂ ▸ h₂)
  · have := hc.creationUsed P np (hcr P np h)
    simpa [Step.sched, hstate np (hnp P np h)] using this

/-- The scheduler of CPU `c` dispatches the `RUNNABLE` process `p` it has locked. -/
theorem ControlOk.of_dispatch (hc : ControlOk s) {c : CpuId} {level : Nat} {p : Slot}
    (hsc : s.frames (.scheduler c) = [.schedLock level p])
    (hp : (s.table.proc p).state = .runnable) : ControlOk (dispatch s c level p) := by
  have hfr : ∀ u, (dispatch s c level p).frames u =
      if u = .scheduler c then [.schedSwtch level p] else s.frames u := by
    intro u
    simp [dispatch, hsc]
  have hme : ∀ d, (dispatch s c level p).myproc d = if d = c then some p else s.myproc d := by
    intro d
    by_cases hd : d = c <;> simp [dispatch, myproc, hd]
  have hst : ∀ q, ((dispatch s c level p).table.proc q).state =
      if q = p then .running else (s.table.proc q).state := by
    intro q
    by_cases hq : q = p <;> simp [dispatch_table, hq]
  have hnot : ∀ d l', (s.frames (.scheduler d)).head? ≠ some (.schedSwtch l' p) := by
    intro d l' hd
    have hb := hc.binding d
    unfold CpuBinding at hb
    rw [hd] at hb
    rw [hb.2] at hp
    cases hp
  have hsw : ∀ d l' q, ((dispatch s c level p).frames (.scheduler d)).head? = some (.schedSwtch l' q) →
      d = c ∧ q = p ∨ d ≠ c ∧ (s.frames (.scheduler d)).head? = some (.schedSwtch l' q) := by
    intro d l' q h
    rw [hfr] at h
    by_cases hd : d = c
    · rw [if_pos (by rw [hd])] at h
      cases h
      exact .inl ⟨hd, rfl⟩
    · rw [if_neg (by simpa using hd)] at h
      exact .inr ⟨hd, h⟩
  have hcr : ∀ P np, Creates ((dispatch s c level p).frames (.process P)) np →
      Creates (s.frames (.process P)) np := by
    intro P np h
    simpa [hfr] using h
  refine ⟨fun u => ?_, fun d => ?_, fun d d' l₁ l₂ q h₁ h₂ => ?_, fun P np h => ?_,
    fun P Q np hP hQ => hc.creationUnique P Q np (hcr P np hP) (hcr Q np hQ)⟩
  · rw [hfr]
    split_ifs with hu
    · subst hu
      exact .of_loop (.swtch level p)
    · exact hc.stack u
  · by_cases hd : d = c
    · subst hd
      unfold CpuBinding
      rw [hfr, if_pos rfl, hme, if_pos rfl]
      refine ⟨rfl, ?_⟩
      rw [hst, if_pos rfl]
    · refine (hc.binding d).keep (by rw [hfr, if_neg (by simpa using hd)]) (by rw [hme, if_neg hd])
        (fun q hq => ?_)
      rw [hst, if_neg (fun hqp => by rw [hqp, hp] at hq; cases hq)]
      exact hq
  · rcases hsw d l₁ q h₁ with ⟨hd, hq⟩ | ⟨hd, h₁'⟩ <;>
      rcases hsw d' l₂ q h₂ with ⟨hd', hq'⟩ | ⟨hd', h₂'⟩
    · rw [hd, hd']
    · exact absurd (hq ▸ h₂') (hnot d' l₂)
    · exact absurd (hq' ▸ h₁') (hnot d l₁)
    · exact hc.swtchUnique d d' l₁ l₂ q h₁' h₂'
  · have hused := hc.creationUsed P np (hcr P np h)
    rw [hst, if_neg (fun hnp => by rw [hnp, hp] at hused; cases hused)]
    exact hused

/-- The scheduler of CPU `c` returns from `swtch`, clears `c->proc` and
releases the process it switched back from. -/
theorem ControlOk.of_schedReturned (hc : ControlOk s) {c : CpuId} {p : Slot}
    (hsc : s.frames (.scheduler c) = [.schedReturned p]) :
    ControlOk (schedReturnedStep s c (.scheduler c) p []) := by
  have hfr : ∀ u, (schedReturnedStep s c (.scheduler c) p []).frames u =
      if u = .scheduler c then [.schedTop] else s.frames u := by
    intro u
    simp only [schedReturnedStep]
    split_ifs <;> simp_all
  have hme : ∀ d, (schedReturnedStep s c (.scheduler c) p []).myproc d =
      if d = c then none else s.myproc d := by
    intro d
    simp only [schedReturnedStep]
    split_ifs <;> simp_all [myproc]
  have hst : ∀ q, ((schedReturnedStep s c (.scheduler c) p []).table.proc q).state =
      (s.table.proc q).state := by
    intro q
    rw [schedReturnedStep_table]
    split_ifs <;> simp [enqueue_proc]
  have hsw : ∀ d l' q,
      ((schedReturnedStep s c (.scheduler c) p []).frames (.scheduler d)).head? =
        some (.schedSwtch l' q) → (s.frames (.scheduler d)).head? = some (.schedSwtch l' q) := by
    intro d l' q h
    rw [hfr] at h
    split_ifs at h
    · cases h
    · exact h
  have hcr : ∀ P np, Creates ((schedReturnedStep s c (.scheduler c) p []).frames (.process P)) np →
      Creates (s.frames (.process P)) np := by
    intro P np h
    simpa [hfr] using h
  refine ⟨fun u => ?_, fun d => ?_, fun d d' l₁ l₂ q h₁ h₂ => hc.swtchUnique d d' l₁ l₂ q
    (hsw d l₁ q h₁) (hsw d' l₂ q h₂), fun P np h => ?_,
    fun P Q np hP hQ => hc.creationUnique P Q np (hcr P np hP) (hcr Q np hQ)⟩
  · rw [hfr]
    split_ifs with hu
    · subst hu
      exact .of_loop .top
    · exact hc.stack u
  · by_cases hd : d = c
    · subst hd
      unfold CpuBinding
      rw [hfr, if_pos rfl, hme, if_pos rfl]
      rfl
    · exact (hc.binding d).keep (by rw [hfr, if_neg (by simpa using hd)]) (by rw [hme, if_neg hd])
        (fun q hq => (hst q).trans hq)
  · exact (hst np).trans (hc.creationUsed P np (hcr P np h))

theorem creates_forkParent {np x : Slot} {pid : Int}
    (h : Creates [.forkParent np pid, .usertrapTail 0] x) : x = np := by
  obtain ⟨pid', h | h⟩ := h <;> simp at h
  exact h.1

/-- `allocproc` on behalf of the `kfork` of `P` takes the `UNUSED` entry `np`,
whose stack starts empty, and `kfork` goes on to set its parent. -/
theorem ControlOk.of_forkAlloc (hc : ControlOk s) {c : CpuId} {P np : Slot} {i : Nat} {pid : Int}
    (hcur : s.current c = .process P) (hP : s.frames (.process P) = [.forkAlloc i, .usertrapTail 0])
    (hnp : (s.table.proc np).state = .unused) :
    ControlOk (((setA0 (allocprocFound s np) np 0).setFrames (.process np) []).setFrames
      (.process P) [.forkParent np pid, .usertrapTail 0]) := by
  set s' := ((setA0 (allocprocFound s np) np 0).setFrames (.process np) []).setFrames
    (.process P) [.forkParent np pid, .usertrapTail 0] with hs'
  obtain ⟨-, -, -, hrunP⟩ := hc.current_process hcur
  have hne : np ≠ P := by
    rintro rfl
    rw [hrunP] at hnp
    cases hnp
  have hst : ∀ q, q ≠ np → (s'.table.proc q).state = (s.table.proc q).state := by
    intro q hq
    simp [hs', allocprocFound, hq]
  have hused : (s'.table.proc np).state = .used := by
    simp [hs', allocprocFound]
  have hcr : ∀ Q x, Creates (s'.frames (.process Q)) x →
      x = np ∧ Q = P ∨ Creates (s.frames (.process Q)) x := by
    intro Q x h
    by_cases hQ : Q = P
    · subst hQ
      simp only [hs', setFrames_frames, if_true] at h
      exact .inl ⟨creates_forkParent h, rfl⟩
    · by_cases hQn : Q = np
      · subst hQn
        simp [hs', hQ, Creates] at h
      · right
        simpa [hs', hQ, hQn, allocprocFound] using h
  have hfresh : ∀ Q, ¬ Creates (s.frames (.process Q)) np := by
    intro Q h
    rw [hc.creationUsed Q np h] at hnp
    cases hnp
  have hsched : ∀ d, s'.frames (.scheduler d) = s.frames (.scheduler d) := by
    intro d
    simp [hs', allocprocFound]
  refine ⟨fun u => ?_, fun d => ?_, fun d d' l₁ l₂ q h₁ h₂ => hc.swtchUnique d d' l₁ l₂ q
    (by rwa [hsched] at h₁) (by rwa [hsched] at h₂), fun Q x h => ?_, fun Q R x hQ hR => ?_⟩
  · by_cases hu : u = .process P
    · subst hu
      simpa [hs'] using StackOk.of_syscall (p := P) (.forkParent np pid)
    · by_cases hun : u = .process np
      · subst hun
        simp only [hs', setFrames_frames, hu, if_false, if_true]
        exact .inl rfl
      · simpa [hs', hu, hun, allocprocFound] using hc.stack u
  · refine (hc.binding d).keep (hsched d) (by simp [hs', myproc, allocprocFound]) (fun q hq => ?_)
    have hqn : q ≠ np := by
      rintro rfl
      rw [hq] at hnp
      cases hnp
    rw [hst q hqn]
    exact hq
  · rcases hcr Q x h with ⟨rfl, -⟩ | h
    · exact hused
    · rw [hst x (fun hx' => hfresh Q (hx' ▸ h))]
      exact hc.creationUsed Q x h
  · rcases hcr Q x hQ with ⟨rfl, rfl⟩ | hQ' <;> rcases hcr R x hR with ⟨hx, rfl⟩ | hR'
    · rfl
    · exact absurd hR' (hfresh R)
    · exact absurd (hx ▸ hQ') (hfresh Q)
    · exact hc.creationUnique Q R x hQ' hR'

/-- `kfork` of `P` makes the process it created `RUNNABLE` and returns. -/
theorem ControlOk.of_forkRunnable (hc : ControlOk s) {P np : Slot} {pid : Int}
    (hP : s.frames (.process P) = [.forkRunnable np pid, .usertrapTail 0]) :
    ControlOk ((setA0 ((s.setProc np fun r => { r with state := .runnable }).mapTable
      (enqueue · np)) P pid).setFrames (.process P) [.usertrapTail 0]) := by
  set s' := (setA0 ((s.setProc np fun r => { r with state := .runnable }).mapTable
      (enqueue · np)) P pid).setFrames (.process P) [.usertrapTail 0] with hs'
  have hcreates : Creates (s.frames (.process P)) np := ⟨pid, .inr (by simp [hP])⟩
  have hnp := hc.creationUsed P np hcreates
  have hst : ∀ q, q ≠ np → (s'.table.proc q).state = (s.table.proc q).state := by
    intro q hq
    simp [hs', enqueue_proc, hq, apply_ite Proc.state]
  have hcr : ∀ Q x, Creates (s'.frames (.process Q)) x → Q ≠ P ∧ Creates (s.frames (.process Q)) x := by
    intro Q x h
    by_cases hQ : Q = P
    · subst hQ
      simp [hs', Creates] at h
    · exact ⟨hQ, by simpa [hs', hQ] using h⟩
  have hsched : ∀ d, s'.frames (.scheduler d) = s.frames (.scheduler d) := by
    intro d
    simp [hs']
  refine ⟨fun u => ?_, fun d => ?_, fun d d' l₁ l₂ q h₁ h₂ => hc.swtchUnique d d' l₁ l₂ q
    (by rwa [hsched] at h₁) (by rwa [hsched] at h₂), fun Q x h => ?_,
    fun Q R x hQ hR => hc.creationUnique Q R x (hcr Q x hQ).2 (hcr R x hR).2⟩
  · by_cases hu : u = .process P
    · subst hu
      simpa [hs'] using StackOk.of_syscall (p := P) .userret
    · simpa [hs', hu] using hc.stack u
  · refine (hc.binding d).keep (hsched d) (by simp [hs', myproc]) (fun q hq => ?_)
    have hqn : q ≠ np := by
      rintro rfl
      rw [hq] at hnp
      cases hnp
    rw [hst q hqn]
    exact hq
  · obtain ⟨hQ, hold⟩ := hcr Q x h
    have hx : x ≠ np := by
      rintro rfl
      exact hQ (hc.creationUnique Q P x hold hcreates)
    rw [hst x hx]
    exact hc.creationUsed Q x hold

/-! ## Every step keeps the control invariant -/

theorem current_scheduler_eq {c c' : CpuId} (h : s.current c = .scheduler c') : c' = c := by
  rcases current_cases s c with ⟨hc, -⟩ | ⟨l, p, hp, -⟩
  · rw [hc] at h
    cases h
    rfl
  · rw [hp] at h
    cases h

theorem ControlOk.current_of_myproc (hc : ControlOk s) {c : CpuId} {p : Slot} {f : Frame}
    {fs : List Frame} (hm : s.myproc c = some p) (htop : s.frames (s.current c) = f :: fs)
    (hf : loopOnly f = false) : s.current c = .process p := by
  rcases current_cases s c with ⟨hcur, -⟩ | ⟨l, q, hcur, -⟩
  · have hb := hc.binding c
    rw [hcur] at htop
    unfold CpuBinding at hb
    rw [htop] at hb
    cases f <;> simp_all [loopOnly]
  · obtain ⟨-, -, hq, -⟩ := hc.current_process hcur
    rw [hm] at hq
    cases hq
    exact hcur

theorem TrapReturn.stackOk {t : Thread} {r : List Frame} (h : TrapReturn t r) : StackOk t r :=
  .of_handler (.ret h)

theorem syscallFrames_stack (call : Syscall) :
    SyscallStack (syscallFrames call ++ [.usertrapTail 0]) := by
  cases call with
  | fork => exact .forkAlloc 0
  | exit status => exact .exitStart status (.inl rfl)
  | wait addr => exact .waitStart addr
  | kill pid => exact .killScan pid 0
  | boostproc pid =>
      by_cases hpid : pid = 0
      · simp only [syscallFrames, hpid, if_true]
        exact .boostClear
      · simp only [syscallFrames, hpid, if_false]
        exact .boostprocScan pid 0
  | pause n => exact .pauseStart n
  | sleepOn chan lk => exact .sleepAcquire chan lk
  | wakeupOn chan lk => exact .wakeupAcquire chan lk

theorem HandlerStack.any_inHandler {t : Thread} {fs : List Frame} (h : HandlerStack t fs) :
    fs.any inHandler = true := by
  have hr : ∀ {r : List Frame}, TrapReturn t r → r.any inHandler = true := by
    intro r hr
    cases hr with
    | user p w hw => simp [inHandler]
    | kernel => simp [inHandler]
    | sched => simp [inHandler]
  cases h <;> simp_all

/-- A trap pushes the frames of its handler on the thread its CPU executes:
over an empty stack it returns to user mode, and otherwise to the system call or
scheduler point it interrupted. -/
theorem ControlOk.trap (hc : ControlOk s) {c : CpuId} {g : Frame} {gs : List Frame} {w : Nat}
    (hw : w ≠ 0) (hen : intrEnabled s c = true)
    (hhandler : ∀ t r, TrapReturn t r → HandlerStack t (g :: gs ++ r))
    (hfree : holdsProc (some g) = false)
    (hcreates : ∀ np pid, Frame.forkParent np pid ∉ g :: gs ∧ Frame.forkRunnable np pid ∉ g :: gs) :
    ControlOk (trap s c (g :: gs) w) := by
  rw [trap_eq]
  refine hc.setFrames rfl (fun _ => rfl) (.of_state_eq fun _ => rfl) ?_ ?_ ?_
  · rcases current_cases s c with ⟨hcur, -⟩ | ⟨l, p, hcur, -⟩
    · -- the scheduler takes interrupts only at the top of its loop
      have htop : s.frames (.scheduler c) = [.schedTop] := by
        unfold intrEnabled at hen
        rw [hcur] at hen
        obtain ⟨fs, hfs⟩ := List.head?_eq_some_iff.mp (of_decide_eq_true hen)
        have hst := hc.stack (.scheduler c)
        rw [hfs] at hst ⊢
        obtain ⟨-, -, hl⟩ := hst.loop_of rfl
        cases hl
        rfl
      rw [hcur, htop]
      exact .of_handler (hhandler _ _ (.sched c w))
    · rw [hcur]
      have hst := hc.stack (.process p)
      unfold intrEnabled at hen
      rw [hcur] at hen
      dsimp only at hen
      cases hfs : s.frames (.process p) with
      | nil => exact .of_handler (hhandler _ _ (.user p w hw))
      | cons f fs =>
          rw [hfs] at hen hst
          simp only [Bool.and_eq_true] at hen
          rcases hst with hst | hst | hst
          · cases hst
          · exact .of_handler (hhandler _ _ (.kernel p w hen.1 hst))
          · obtain ⟨f', hf', hin⟩ := List.any_eq_true.mp hst.any_inHandler
            have := List.all_eq_true.mp hen.2 f' hf'
            simp [hin] at this
  · intro c' hc'
    refine ⟨?_, by split <;> exact hfree⟩
    rw [hc']
    rcases current_cases s c with ⟨hcur, -⟩ | ⟨l, p, hcur, -⟩
    · rw [hcur] at hc'
      cases hc'
      unfold intrEnabled at hen
      rw [hcur] at hen
      rw [of_decide_eq_true hen]
      rfl
    · rw [hcur] at hc'
      cases hc'
  · intro P np hP h
    split at h
    · obtain ⟨pid, h' | h'⟩ := creates_append_left hcreates h <;> simp at h'
    · obtain ⟨pid, h' | h'⟩ := creates_append_left hcreates h <;> simp at h'
      · exact ⟨pid, .inl h'⟩
      · exact ⟨pid, .inr h'⟩

theorem ControlOk.exec_local (hc : ControlOk s) {t : Thread} {f : Frame} {fs fs' : List Frame}
    {X : Kernel} (htop : s.frames t = f :: fs) (hX : X.frames = s.frames)
    (hcpu : ∀ c, X.myproc c = s.myproc c) (hkept : StateKept s.table X.table)
    (hstack : StackOk t fs') (hf : holdsProc (some f) = false)
    (hnew : ∀ c, t = .scheduler c → holdsProc fs'.head? = false)
    (hcreates : ∀ P np, t = .process P → Creates fs' np → Creates (f :: fs) np) :
    ControlOk (X.setFrames t fs') :=
  hc.setFrames hX hcpu hkept hstack (fun c hct => ⟨by rw [htop]; exact hf, hnew c hct⟩)
    (fun P np hP h => htop ▸ hcreates P np hP h)

theorem ControlOk.loop_local (hc : ControlOk s) {c : CpuId} {f : Frame} {fs' : List Frame}
    {X : Kernel} (htop : s.frames (.scheduler c) = [f]) (hX : X.frames = s.frames)
    (hcpu : ∀ d, X.myproc d = s.myproc d) (hkept : StateKept s.table X.table)
    (hloop : SchedLoop fs') (hf : holdsProc (some f) = false) (hnew : holdsProc fs'.head? = false) :
    ControlOk (X.setFrames (.scheduler c) fs') :=
  hc.exec_local htop hX hcpu hkept (.of_loop hloop) hf (fun _ _ => hnew) (fun _ _ h => nomatch h)

theorem ControlOk.stack_of (hc : ControlOk s) {t : Thread} {fs : List Frame}
    (h : s.frames t = fs) : StackOk t fs :=
  h ▸ hc.stack t

theorem StackOk.pop_free {t : Thread} {f : Frame} {fs : List Frame} (h : StackOk t (f :: fs)) :
    ∀ c, t = .scheduler c → holdsProc fs.head? = false := by
  rintro c rfl
  exact h.sched_tail_free

theorem not_creates_nil (np : Slot) : ¬ Creates [] np := by
  rintro ⟨pid, h | h⟩ <;> simp at h

theorem creates_forkRunnable {np x : Slot} {pid : Int}
    (h : Creates [.forkRunnable np pid, .usertrapTail 0] x) : x = np := by
  obtain ⟨pid', h | h⟩ := h <;> simp at h
  exact h.1

theorem syscallFrames_no_fork (call : Syscall) (np : Slot) (pid : Int) :
    Frame.forkParent np pid ∉ syscallFrames call ∧ Frame.forkRunnable np pid ∉ syscallFrames call := by
  cases call with
  | boostproc pid' =>
      by_cases hpid : pid' = 0
      · simp [syscallFrames, hpid]
      · simp [syscallFrames, hpid]
  | _ => simp [syscallFrames]

/-! ## States kept by a step -/

theorem StateKept.refl (tb : Table) : StateKept tb tb :=
  .of_state_eq fun _ => rfl

theorem StateKept.trans {tb₁ tb₂ tb₃ : Table} (h₁ : StateKept tb₁ tb₂) (h₂ : StateKept tb₂ tb₃) :
    StateKept tb₁ tb₃ :=
  fun q => ⟨fun h => (h₂ q).1 ((h₁ q).1 h), fun h => (h₂ q).2 ((h₁ q).2 h)⟩

theorem StateKept.setProc {X : Kernel} {p : Slot} {f : Proc → Proc}
    (hrun : (X.table.proc p).state = .running → (f (X.table.proc p)).state = .running)
    (hused : (X.table.proc p).state = .used → (f (X.table.proc p)).state = .used) :
    StateKept X.table (X.setProc p f).table := by
  intro q
  by_cases hq : q = p
  · subst hq
    simpa using ⟨hrun, hused⟩
  · simp [hq]

theorem StateKept.setProc_same {X : Kernel} {p : Slot} {f : Proc → Proc}
    (h : ∀ r, (f r).state = r.state) : StateKept X.table (X.setProc p f).table :=
  .setProc (fun hp => (h _).trans hp) (fun hp => (h _).trans hp)

theorem StateKept.setProc_idle {X : Kernel} {p : Slot} {f : Proc → Proc}
    (hrun : (X.table.proc p).state ≠ .running) (hused : (X.table.proc p).state ≠ .used) :
    StateKept X.table (X.setProc p f).table :=
  .setProc (fun h => absurd h hrun) (fun h => absurd h hused)

theorem StateKept.enqueue (tb : Table) (p : Slot) : StateKept tb (enqueue tb p) :=
  .of_state_eq fun q => by simp [enqueue_proc]

theorem StateKept.dequeue (tb : Table) (level : Nat) : StateKept tb (dequeue tb level).2 :=
  .of_state_eq fun q => by simp [dequeue_proc]

theorem StateKept.boostIter (tb : Table) (p : Slot) : StateKept tb (boostIter tb p) :=
  .of_state_eq fun q => by
    rw [boostIter_proc]
    split_ifs <;> rfl

theorem StateKept.wakeupIter (chan : Option Chan) (me : Option Slot) (tb : Table) (p : Slot) :
    StateKept tb (wakeupIter chan me tb p) := by
  intro q
  rw [wakeupIter_proc]
  split_ifs with hw hq
  · subst hq
    simp [hw.2.1]
  · exact ⟨id, id⟩
  · exact ⟨id, id⟩

/-! ## Each critical section keeps the control invariant -/

section Sections

variable {t : Thread} {fs : List Frame}

theorem ControlOk.exec_schedTop (hc : ControlOk s) (htop : s.frames t = .schedTop :: fs) :
    ControlOk (schedTopStep s t fs) := by
  obtain ⟨c, rfl, hl⟩ := (hc.stack_of htop).loop_of rfl
  cases hl
  simp only [schedTopStep]
  split_ifs
  · exact hc.loop_local htop rfl (fun _ => rfl) (.refl _) .boostClear rfl rfl
  · exact hc.loop_local htop rfl (fun _ => rfl) (.refl _) (.scan 0) rfl rfl

theorem ControlOk.exec_schedBoosted (hc : ControlOk s) (htop : s.frames t = .schedBoosted :: fs) :
    ControlOk (schedBoostedStep s t fs) := by
  obtain ⟨c, rfl, hl⟩ := (hc.stack_of htop).loop_of rfl
  cases hl
  exact hc.loop_local htop rfl (fun _ => rfl) (.refl _) (.scan 0) rfl rfl

theorem ControlOk.exec_schedScan (hc : ControlOk s) {level : Nat}
    (htop : s.frames t = .schedScan level :: fs) : ControlOk (schedScanStep s t level fs) := by
  obtain ⟨c, rfl, hl⟩ := (hc.stack_of htop).loop_of rfl
  cases hl
  rcases schedScanStep_cases (s := s) (.scheduler c) level [] with
    ⟨-, -, h⟩ | ⟨p, -, -, h⟩ | ⟨-, h⟩ <;> rw [h]
  · exact hc.loop_local htop rfl (fun _ => rfl) (.dequeue _ _) (.scan _) rfl rfl
  · exact hc.loop_local htop rfl (fun _ => rfl) (.dequeue _ _) (.lock _ _) rfl rfl
  · exact hc.loop_local htop rfl (fun _ => rfl) (.refl _) .top rfl rfl

theorem ControlOk.exec_schedLock (hc : ControlOk s) {c : CpuId} {level : Nat} {p : Slot}
    (ht : s.current c = t) (htop : s.frames t = .schedLock level p :: fs)
    (h : schedLockStep s c t level p fs = some s') : ControlOk s' := by
  obtain ⟨c', rfl, hl⟩ := (hc.stack_of htop).loop_of rfl
  cases hl
  obtain rfl := current_scheduler_eq ht
  obtain ⟨-, ⟨hrun, rfl⟩ | ⟨-, rfl⟩⟩ := schedLockStep_inv h
  · exact hc.of_dispatch htop hrun
  · exact hc.loop_local htop rfl (fun _ => rfl) (.refl _) (.scan _) rfl rfl

theorem ControlOk.exec_schedReturned (hc : ControlOk s) {c : CpuId} {p : Slot}
    (ht : s.current c = t) (htop : s.frames t = .schedReturned p :: fs) :
    ControlOk (schedReturnedStep s c t p fs) := by
  obtain ⟨c', rfl, hl⟩ := (hc.stack_of htop).loop_of rfl
  cases hl
  obtain rfl := current_scheduler_eq ht
  exact hc.of_schedReturned htop

theorem ControlOk.exec_boostClear (hc : ControlOk s) (htop : s.frames t = .boostClear :: fs) :
    ControlOk ((s.mapTable clearRunqueues).setFrames t (.boostScan 0 :: fs)) :=
  hc.exec_local htop rfl (fun _ => rfl) (.refl _) (hc.stack_of htop).boostClear_next rfl
    (fun _ _ => rfl) (fun _ _ _ h => creates_of_push (g := [.boostScan 0]) (by simp) h)

theorem ControlOk.exec_boostScan (hc : ControlOk s) {i : Nat} (htop : s.frames t = .boostScan i :: fs)
    (h : boostScanStep s t i fs = some s') : ControlOk s' := by
  have hst := hc.stack_of htop
  rcases boostScanStep_inv h with ⟨hi, -, rfl⟩ | ⟨-, rfl⟩
  · exact hc.exec_local htop rfl (fun _ => rfl) (.boostIter _ _) hst.boostScan_next rfl
      (fun _ _ => rfl) (fun _ _ _ h => creates_of_push (g := [.boostScan (i + 1)]) (by simp) h)
  · exact hc.exec_local htop rfl (fun _ => rfl) (.refl _) hst.boostScan_pop rfl hst.pop_free
      (fun _ _ _ => creates_of_cons)

theorem ControlOk.exec_wakeupScan (hc : ControlOk s) {c : CpuId} {chan : Option Chan} {i : Nat}
    (htop : s.frames t = .wakeupScan chan i :: fs) (h : wakeupScanStep s c t chan i fs = some s') :
    ControlOk s' := by
  have hst := hc.stack_of htop
  rcases wakeupScanStep_inv h with ⟨hi, -, rfl⟩ | ⟨-, rfl⟩
  · exact hc.exec_local htop rfl (fun _ => rfl) (.wakeupIter _ _ _ _) hst.wakeupScan_next rfl
      (fun _ _ => rfl) (fun _ _ _ h => creates_of_push (g := [.wakeupScan chan (i + 1)]) (by simp) h)
  · exact hc.exec_local htop rfl (fun _ => rfl) (.refl _) hst.wakeupScan_pop rfl hst.pop_free
      (fun _ _ _ => creates_of_cons)

theorem ControlOk.exec_acquireLock (hc : ControlOk s) {lk : Lock}
    (htop : s.frames t = .acquireLock lk :: fs) (h : acquireStep s t lk fs = some s') :
    ControlOk s' := by
  have hst := hc.stack_of htop
  obtain ⟨-, rfl⟩ := acquireStep_inv h
  exact hc.exec_local htop rfl (fun _ => rfl) (.refl _) hst.acquireLock_pop rfl hst.pop_free
    (fun _ _ _ => creates_of_cons)

theorem ControlOk.exec_releaseLock (hc : ControlOk s) {lk : Lock}
    (htop : s.frames t = .releaseLock lk :: fs) (h : releaseStep s t lk fs = some s') :
    ControlOk s' := by
  have hst := hc.stack_of htop
  obtain ⟨-, rfl⟩ := releaseStep_inv h
  exact hc.exec_local htop rfl (fun _ => rfl) (.refl _) hst.releaseLock_pop rfl hst.pop_free
    (fun _ _ _ => creates_of_cons)

theorem ControlOk.of_yield (hc : ControlOk s) {X : Kernel} {c : CpuId} {p : Slot}
    {resume : List Frame} (hcur : s.current c = .process p) (hy : yield X c p resume = some s')
    (hX : X.frames = s.frames) (hcpus : X.cpus = s.cpus)
    (hstate : ∀ q, q ≠ p → (X.table.proc q).state = (s.table.proc q).state)
    (hstack : StackOk (.process p) resume)
    (hcreates : ∀ np, Creates resume np → Creates (s.frames (.process p)) np) : ControlOk s' := by
  obtain ⟨-, rfl⟩ := yield_inv hy
  exact hc.of_sched hcur hX hcpus (fun q hq => by simp [hq, hstate q hq]) (by simp) hstack hcreates

theorem ControlOk.of_sleep (hc : ControlOk s) {c : CpuId} {p : Slot} {chan : Chan} {lk : Lock}
    {rest : List Frame} (hcur : s.current c = .process p)
    (hsl : sleep s c p chan lk rest = some s') (hstack : StackOk (.process p) (.sleepRelock lk :: rest))
    (hcreates : ∀ np, Creates rest np → Creates (s.frames (.process p)) np) : ControlOk s' := by
  obtain ⟨-, -, rfl⟩ := sleep_inv hsl
  exact hc.of_sched hcur rfl rfl (fun q hq => by simp [hq]) (by simp) hstack
    (fun np h => hcreates np (creates_append_left (g := [.sleepRelock lk]) (by simp) h))

theorem ControlOk.exec_clockTicks (hc : ControlOk s) {c : CpuId}
    (htop : s.frames t = .clockTicks :: fs) (h : clockTicksStep s c t fs = some s') :
    ControlOk s' := by
  have hr : TrapReturn t fs := by
    cases (hc.stack_of htop).handler_of rfl with
    | ret hr => cases hr
    | clockTicks hr => exact hr
  rcases clockTicksStep_inv h with ⟨-, -, rfl⟩ | ⟨-, rfl⟩
  · exact hc.exec_local htop rfl (fun _ => rfl) (.refl _) (.of_handler (.wakeupTicks 0 hr)) rfl
      (fun _ _ => rfl) (fun _ _ _ h =>
        creates_of_push (g := [.wakeupScan (some .ticks) 0, .clockRelease, .clockQuantum]) (by simp) h)
  · exact hc.exec_local htop rfl (fun _ => rfl) (.refl _) (.of_handler (.clockQuantum hr)) rfl
      (fun _ _ => rfl) (fun _ _ _ h => creates_of_push (g := [.clockQuantum]) (by simp) h)

theorem ControlOk.exec_clockRelease (hc : ControlOk s) (htop : s.frames t = .clockRelease :: fs)
    (h : releaseStep s t .tickslock fs = some s') : ControlOk s' := by
  obtain ⟨r, rfl, hr⟩ : ∃ r, fs = .clockQuantum :: r ∧ TrapReturn t r := by
    cases (hc.stack_of htop).handler_of rfl with
    | ret hr => cases hr
    | clockRelease hr => exact ⟨_, rfl, hr⟩
  obtain ⟨-, rfl⟩ := releaseStep_inv h
  exact hc.exec_local htop rfl (fun _ => rfl) (.refl _) (.of_handler (.clockQuantum hr)) rfl
    (fun _ _ => rfl) (fun _ _ _ => creates_of_cons)

theorem ControlOk.exec_clockQuantum (hc : ControlOk s) {c : CpuId} (ht : s.current c = t)
    (htop : s.frames t = .clockQuantum :: fs) (h : clockQuantumStep s c t fs = some s') :
    ControlOk s' := by
  have hr : TrapReturn t fs := by
    cases (hc.stack_of htop).handler_of rfl with
    | ret hr => cases hr
    | clockQuantum hr => exact hr
  have hpush : ∀ np, Creates (.clockRearm :: fs) np → Creates (s.frames t) np :=
    fun np h => htop ▸ creates_of_push (g := [.clockRearm]) (by simp) h
  subst ht
  rcases clockQuantumStep_inv h with ⟨p, hme, -, -, -, hy⟩ | ⟨p, hme, -, -, -, hy⟩ |
    ⟨p, -, -, -, rfl⟩ | ⟨-, rfl⟩
  · have hcur := hc.current_of_myproc hme htop rfl
    rw [hcur] at hr hpush
    exact hc.of_yield hcur hy rfl rfl (fun q hq => by simp [hq]) (.of_handler (.clockRearm hr)) hpush
  · have hcur := hc.current_of_myproc hme htop rfl
    rw [hcur] at hr hpush
    exact hc.of_yield hcur hy rfl rfl (fun q hq => by simp [hq]) (.of_handler (.clockRearm hr)) hpush
  · exact hc.exec_local htop rfl (fun _ => rfl) (.setProc_same fun _ => rfl)
      (.of_handler (.clockRearm hr)) rfl (fun _ _ => rfl) (fun _ _ _ h => htop ▸ hpush _ h)
  · exact hc.exec_local htop rfl (fun _ => rfl) (.refl _) (.of_handler (.clockRearm hr)) rfl
      (fun _ _ => rfl) (fun _ _ _ h => htop ▸ hpush _ h)

theorem ControlOk.exec_clockRearm (hc : ControlOk s) {c : CpuId}
    (htop : s.frames t = .clockRearm :: fs) : ControlOk (clockRearmStep s c t fs) := by
  have hst := hc.stack_of htop
  have hr : TrapReturn t fs := by
    cases hst.handler_of rfl with
    | ret hr => cases hr
    | clockRearm hr => exact hr
  refine hc.exec_local htop rfl (fun d => ?_) (.refl _) hr.stackOk rfl hst.pop_free
    (fun _ _ _ => creates_of_cons)
  by_cases hd : d = c <;> simp [myproc, hd]

theorem ControlOk.exec_usertrapTail (hc : ControlOk s) {c : CpuId} {p : Slot} {w : Nat}
    (hcur : s.current c = .process p) (htop : s.frames (.process p) = .usertrapTail w :: fs)
    (h : usertrapTailStep s c p w fs = some s') : ControlOk s' := by
  obtain ⟨rfl, -⟩ := (hc.stack_of htop).usertrapTail
  rcases usertrapTailStep_inv h with ⟨-, ⟨-, rfl⟩ | ⟨-, -, hy⟩ | ⟨-, -, rfl⟩⟩
  · exact hc.exec_local htop rfl (fun _ => rfl) (.refl _) (.of_syscall (.exitStart _ (.inr rfl)))
      rfl (fun _ h => nomatch h) (fun _ _ _ h => absurd (creates_append_left (g := [.exitStart (-1)])
        (by simp) h) (not_creates_nil _))
  · exact hc.of_yield hcur hy rfl rfl (fun _ _ => rfl) (.inl rfl)
      (fun np h => absurd h (not_creates_nil np))
  · exact hc.exec_local htop rfl (fun _ => rfl) (.refl _) (.inl rfl) rfl (fun _ h => nomatch h)
      (fun _ np _ h => absurd h (not_creates_nil np))

theorem ControlOk.exec_kerneltrapTail (hc : ControlOk s) {c : CpuId} {w : Nat}
    (ht : s.current c = t) (htop : s.frames t = .kerneltrapTail w :: fs)
    (h : kerneltrapTailStep s c t w fs = some s') : ControlOk s' := by
  obtain ⟨hst, hsched⟩ := (hc.stack_of htop).kerneltrapTail_pop
  rcases kerneltrapTailStep_inv h with ⟨p, hme, -, hy⟩ | ⟨-, rfl⟩
  · subst ht
    have hcur := hc.current_of_myproc hme htop rfl
    rw [hcur] at htop hst
    exact hc.of_yield hcur hy rfl rfl (fun _ _ => rfl) hst (fun np h => htop ▸ creates_of_cons h)
  · exact hc.exec_local htop rfl (fun _ => rfl) (.refl _) hst rfl
      (fun c' hct => by rw [hsched c' hct]; rfl) (fun _ _ _ => creates_of_cons)

theorem ControlOk.exec_sysret (hc : ControlOk s) {p : Slot} {v : Int}
    (htop : s.frames (.process p) = .sysret v :: fs) :
    ControlOk ((setA0 s p v).setFrames (.process p) fs) := by
  obtain ⟨-, -, hs⟩ := (hc.stack_of htop).syscall_of rfl
  cases hs
  exact hc.exec_local htop rfl (fun _ => rfl) (.setProc_same fun _ => rfl) (.of_syscall .userret)
    rfl (fun _ h => nomatch h) (fun _ _ _ => creates_of_cons)

theorem ControlOk.exec_forkAlloc (hc : ControlOk s) {c : CpuId} {p : Slot} {i : Nat} {ok : Bool}
    (hcur : s.current c = .process p) (htop : s.frames (.process p) = .forkAlloc i :: fs)
    (h : forkAllocStep s p i ok fs = some s') : ControlOk s' := by
  obtain ⟨-, -, hs⟩ := (hc.stack_of htop).syscall_of rfl
  cases hs
  rcases forkAllocStep_inv h with ⟨hi, -, hunused, -, rfl⟩ | ⟨hi, -, hunused, -, rfl⟩ |
    ⟨hi, -, -, rfl⟩ | ⟨-, rfl⟩
  · exact hc.of_forkAlloc hcur htop hunused
  · have hkept : StateKept s.table
        (setA0 ((allocprocFound s ⟨i, hi⟩).setProc ⟨i, hi⟩ freeproc) p (-1)).table :=
      .of_state_eq fun q => by
        by_cases hq : q = ⟨i, hi⟩ <;>
          simp [allocprocFound, freeproc, hq, hunused, apply_ite Proc.state]
    exact hc.exec_local htop rfl (fun _ => rfl) hkept (.of_syscall .userret) rfl
      (fun _ h => nomatch h) (fun _ _ _ => creates_of_cons)
  · exact hc.exec_local htop rfl (fun _ => rfl) (.refl _) (.of_syscall (.forkAlloc _)) rfl
      (fun _ h => nomatch h) (fun _ _ _ h => creates_of_push (g := [.forkAlloc (i + 1)]) (by simp) h)
  · exact hc.exec_local htop rfl (fun _ => rfl) (.setProc_same fun _ => rfl)
      (.of_syscall .userret) rfl (fun _ h => nomatch h) (fun _ _ _ => creates_of_cons)

theorem ControlOk.exec_forkParent (hc : ControlOk s) {p np : Slot} {pid : Int}
    (htop : s.frames (.process p) = .forkParent np pid :: fs)
    (h : forkParentStep s p np pid fs = some s') : ControlOk s' := by
  obtain ⟨-, -, hs⟩ := (hc.stack_of htop).syscall_of rfl
  cases hs
  obtain ⟨-, rfl⟩ := forkParentStep_inv h
  exact hc.exec_local htop rfl (fun _ => rfl) (.setProc_same fun _ => rfl)
    (.of_syscall (.forkRunnable np pid)) rfl (fun _ h => nomatch h)
    (fun _ _ _ h => ⟨pid, .inl (by simp [creates_forkRunnable h])⟩)

theorem ControlOk.exec_forkRunnable (hc : ControlOk s) {p np : Slot} {pid : Int}
    (htop : s.frames (.process p) = .forkRunnable np pid :: fs)
    (h : forkRunnableStep s p np pid fs = some s') : ControlOk s' := by
  obtain ⟨-, -, hs⟩ := (hc.stack_of htop).syscall_of rfl
  cases hs
  obtain ⟨-, rfl⟩ := forkRunnableStep_inv h
  exact hc.of_forkRunnable htop

theorem ControlOk.exec_exitStart (hc : ControlOk s) {p : Slot} {status : Int}
    (htop : s.frames (.process p) = .exitStart status :: fs)
    (h : exitStartStep s p status fs = some s') : ControlOk s' := by
  obtain ⟨-, -, hs⟩ := (hc.stack_of htop).syscall_of rfl
  have ht : ExitTail fs := by
    cases hs
    assumption
  obtain ⟨-, -, rfl⟩ := exitStartStep_inv h
  exact hc.exec_local htop rfl (fun _ => rfl) (.refl _) (.of_syscall (.exitReparent status 0 ht))
    rfl (fun _ h => nomatch h)
    (fun _ _ _ h => creates_of_push (g := [.exitReparent status 0]) (by simp) h)

theorem ControlOk.exec_exitReparent (hc : ControlOk s) {p : Slot} {status : Int} {i : Nat}
    (htop : s.frames (.process p) = .exitReparent status i :: fs) :
    ControlOk (exitReparentStep s p status i fs) := by
  obtain ⟨-, -, hs⟩ := (hc.stack_of htop).syscall_of rfl
  have ht : ExitTail fs := by
    cases hs
    assumption
  rcases exitReparentStep_cases (s := s) p status i fs with ⟨hi, -, h⟩ | ⟨hi, -, h⟩ | ⟨-, h⟩ <;>
    rw [h]
  · exact hc.exec_local htop rfl (fun _ => rfl) (.setProc_same fun _ => rfl)
      (.of_syscall (.exitReparentWakeup _ 0 status (i + 1) ht)) rfl (fun _ h => nomatch h)
      (fun _ _ _ h => creates_of_push
        (g := [.wakeupScan (s.initproc.map .proc) 0, .exitReparent status (i + 1)]) (by simp) h)
  · exact hc.exec_local htop rfl (fun _ => rfl) (.refl _)
      (.of_syscall (.exitReparent status (i + 1) ht)) rfl (fun _ h => nomatch h)
      (fun _ _ _ h => creates_of_push (g := [.exitReparent status (i + 1)]) (by simp) h)
  · exact hc.exec_local htop rfl (fun _ => rfl) (.refl _)
      (.of_syscall (.exitParentWakeup _ 0 status ht)) rfl (fun _ h => nomatch h)
      (fun _ _ _ h => creates_of_push
        (g := [.wakeupScan ((s.table.proc p).parent.map .proc) 0, .exitZombie status]) (by simp) h)

theorem ControlOk.exec_exitZombie (hc : ControlOk s) {c : CpuId} {p : Slot} {status : Int}
    (hcur : s.current c = .process p) (h : exitZombieStep s c p status = some s') :
    ControlOk s' := by
  obtain ⟨-, -, rfl⟩ := exitZombieStep_inv h
  exact hc.of_sched hcur rfl rfl (fun q hq => by simp [hq]) (by simp) (.inl rfl)
    (fun np h => absurd h (not_creates_nil np))

theorem ControlOk.exec_waitReturn (hc : ControlOk s) {X : Kernel} {p : Slot} {addr i : Nat}
    {havekids : Bool} {v : Int}
    (htop : s.frames (.process p) = [.waitScan addr i havekids, .usertrapTail 0])
    (hw : waitReturn X p v [.usertrapTail 0] = some s') (hX : X.frames = s.frames)
    (hcpus : X.cpus = s.cpus) (hkept : StateKept s.table X.table) : ControlOk s' := by
  obtain ⟨-, rfl⟩ := waitReturn_inv hw
  exact hc.exec_local htop hX (fun d => by simp [myproc, hcpus]) (hkept.trans (.setProc_same fun _ => rfl))
    (.of_syscall .userret) rfl (fun _ h => nomatch h) (fun _ _ _ => creates_of_cons)

theorem ControlOk.exec_waitScan (hc : ControlOk s) {c : CpuId} {p : Slot} {addr i : Nat}
    {havekids ok : Bool} (hcur : s.current c = .process p)
    (htop : s.frames (.process p) = .waitScan addr i havekids :: fs)
    (h : waitScanStep s c p addr i havekids ok fs = some s') : ControlOk s' := by
  obtain ⟨-, -, hs⟩ := (hc.stack_of htop).syscall_of rfl
  cases hs
  rcases waitScanStep_inv h with ⟨hi, -, -, -, -, -, hw⟩ | ⟨hi, -, -, hzombie, -, hw⟩ |
    ⟨hi, -, -, -, rfl⟩ | ⟨hi, -, rfl⟩ | ⟨-, -, -, hw⟩ | ⟨-, -, -, hsl⟩
  · exact hc.exec_waitReturn htop hw rfl rfl (.refl _)
  · exact hc.exec_waitReturn htop hw rfl rfl
      (.setProc_idle (by rw [hzombie]; decide) (by rw [hzombie]; decide))
  · exact hc.exec_local htop rfl (fun _ => rfl) (.refl _) (.of_syscall (.waitScan addr (i + 1) true))
      rfl (fun _ h => nomatch h)
      (fun _ _ _ h => creates_of_push (g := [.waitScan addr (i + 1) true]) (by simp) h)
  · exact hc.exec_local htop rfl (fun _ => rfl) (.refl _)
      (.of_syscall (.waitScan addr (i + 1) havekids)) rfl (fun _ h => nomatch h)
      (fun _ _ _ h => creates_of_push (g := [.waitScan addr (i + 1) havekids]) (by simp) h)
  · exact hc.exec_waitReturn htop hw rfl rfl (.refl _)
  · exact hc.of_sleep hcur hsl (.of_syscall (.waitSleep addr))
      (fun np h => htop ▸ creates_of_push (g := [.waitScan addr 0 false]) (by simp) h)

theorem ControlOk.exec_killScan (hc : ControlOk s) {p : Slot} {pid : Int} {i : Nat}
    (htop : s.frames (.process p) = .killScan pid i :: fs)
    (h : killScanStep s p pid i fs = some s') : ControlOk s' := by
  obtain ⟨-, -, hs⟩ := (hc.stack_of htop).syscall_of rfl
  cases hs
  rcases killScanStep_inv h with ⟨hi, -, -, rfl⟩ | ⟨hi, -, -, rfl⟩ | ⟨-, rfl⟩
  · have hkept : StateKept s.table (s.setProc ⟨i, hi⟩ fun r =>
        { r with killed := true, state := if r.state = .sleeping then .runnable else r.state }).table :=
      .setProc (fun h => by simp [h]) (fun h => by simp [h])
    exact hc.exec_local htop rfl (fun _ => rfl) (hkept.trans (.setProc_same fun _ => rfl))
      (.of_syscall .userret) rfl (fun _ h => nomatch h) (fun _ _ _ => creates_of_cons)
  · exact hc.exec_local htop rfl (fun _ => rfl) (.refl _) (.of_syscall (.killScan pid (i + 1))) rfl
      (fun _ h => nomatch h) (fun _ _ _ h => creates_of_push (g := [.killScan pid (i + 1)]) (by simp) h)
  · exact hc.exec_local htop rfl (fun _ => rfl) (.setProc_same fun _ => rfl)
      (.of_syscall .userret) rfl (fun _ h => nomatch h) (fun _ _ _ => creates_of_cons)

theorem ControlOk.exec_boostprocScan (hc : ControlOk s) {p : Slot} {pid : Int} {i : Nat}
    (htop : s.frames (.process p) = .boostprocScan pid i :: fs)
    (h : boostprocScanStep s p pid i fs = some s') : ControlOk s' := by
  obtain ⟨-, -, hs⟩ := (hc.stack_of htop).syscall_of rfl
  cases hs
  rcases boostprocScanStep_inv h with ⟨hi, -, -, rfl⟩ | ⟨hi, -, -, rfl⟩ | ⟨-, rfl⟩
  · exact hc.exec_local htop rfl (fun _ => rfl)
      (.of_state_eq fun q => by simp [apply_ite Proc.state])
      (.of_syscall .userret) rfl (fun _ h => nomatch h) (fun _ _ _ => creates_of_cons)
  · exact hc.exec_local htop rfl (fun _ => rfl) (.refl _) (.of_syscall (.boostprocScan pid (i + 1)))
      rfl (fun _ h => nomatch h)
      (fun _ _ _ h => creates_of_push (g := [.boostprocScan pid (i + 1)]) (by simp) h)
  · exact hc.exec_local htop rfl (fun _ => rfl) (.setProc_same fun _ => rfl)
      (.of_syscall .userret) rfl (fun _ h => nomatch h) (fun _ _ _ => creates_of_cons)

theorem ControlOk.exec_acquireStart (hc : ControlOk s) {f g : Frame} {lk : Lock}
    (htop : s.frames t = f :: fs) (hf : syscallOnly f = true)
    (hstack : SyscallStack (f :: fs) → SyscallStack (g :: fs))
    (hg : ∀ np pid, Frame.forkParent np pid ≠ g ∧ Frame.forkRunnable np pid ≠ g)
    (h : acquireStep s t lk (g :: fs) = some s') : ControlOk s' := by
  obtain ⟨p, rfl, hs⟩ := (hc.stack_of htop).syscall_of hf
  obtain ⟨-, rfl⟩ := acquireStep_inv h
  refine hc.exec_local htop rfl (fun _ => rfl) (.refl _) (.of_syscall (hstack hs)) ?_
    (fun _ h => nomatch h) (fun _ _ _ h => creates_of_push (g := [g]) (by simpa using hg) h)
  cases f <;> simp_all [syscallOnly, holdsProc]

theorem ControlOk.exec_pauseLoop (hc : ControlOk s) {c : CpuId} {p : Slot} {ticks0 n : Nat}
    (hcur : s.current c = .process p) (htop : s.frames (.process p) = .pauseLoop ticks0 n :: fs)
    (h : pauseLoopStep s c p ticks0 n fs = some s') : ControlOk s' := by
  obtain ⟨-, -, hs⟩ := (hc.stack_of htop).syscall_of rfl
  cases hs
  rcases pauseLoopStep_inv h with ⟨-, -, -, -, rfl⟩ | ⟨-, -, -, hsl⟩ | ⟨-, -, rfl⟩
  · exact hc.exec_local htop rfl (fun _ => rfl) (.setProc_same fun _ => rfl)
      (.of_syscall .userret) rfl (fun _ h => nomatch h) (fun _ _ _ => creates_of_cons)
  · exact hc.of_sleep hcur hsl (.of_syscall (.pauseSleep ticks0 n))
      (fun np h => htop ▸ creates_of_push (g := [.pauseLoop ticks0 n]) (by simp) h)
  · exact hc.exec_local htop rfl (fun _ => rfl) (.setProc_same fun _ => rfl)
      (.of_syscall .userret) rfl (fun _ h => nomatch h) (fun _ _ _ => creates_of_cons)

theorem ControlOk.exec_sleepCall (hc : ControlOk s) {c : CpuId} {p : Slot} {chan : Chan}
    {lk : Lock} (hcur : s.current c = .process p)
    (htop : s.frames (.process p) = .sleepCall chan lk :: fs)
    (h : sleep s c p chan lk fs = some s') : ControlOk s' := by
  obtain ⟨-, -, hs⟩ := (hc.stack_of htop).syscall_of rfl
  cases hs
  exact hc.of_sleep hcur h (.of_syscall (.sleepRelock _)) (fun np h => htop ▸ creates_of_cons h)

theorem ControlOk.exec_sleepRelock (hc : ControlOk s) {lk : Lock}
    (htop : s.frames t = .sleepRelock lk :: fs) (h : acquireStep s t lk fs = some s') :
    ControlOk s' := by
  obtain ⟨p, rfl, hs⟩ := (hc.stack_of htop).syscall_of rfl
  -- `sleep` returns into `kwait`'s scan, `pause`'s loop or the caller of `sleep_on`
  have hst : StackOk (.process p) fs := by
    cases hs
    · exact .of_syscall (.waitScan _ 0 false)
    · exact .of_syscall (.pauseLoop _ _)
    · exact .of_syscall (.lockRelease _)
  obtain ⟨-, rfl⟩ := acquireStep_inv h
  exact hc.exec_local htop rfl (fun _ => rfl) (.refl _) hst rfl (fun _ h => nomatch h)
    (fun _ _ _ => creates_of_cons)

end Sections

/-! ## Every step keeps the control invariant -/

theorem ControlOk.exec (hc : ControlOk s) {c : CpuId} {ok : Bool}
    (h : step s (.exec c ok) = some s') : ControlOk s' := by
  obtain ⟨f, fs, htop, h⟩ := step_exec_inv h
  generalize ht : s.current c = t at htop h
  cases f with
  | schedTop =>
      cases h
      exact hc.exec_schedTop htop
  | schedBoosted =>
      cases h
      exact hc.exec_schedBoosted htop
  | schedScan level =>
      cases h
      exact hc.exec_schedScan htop
  | schedLock level p => exact hc.exec_schedLock ht htop h
  | schedSwtch => cases h
  | schedReturned p =>
      cases h
      exact hc.exec_schedReturned ht htop
  | boostClear =>
      cases h
      exact hc.exec_boostClear htop
  | boostScan i => exact hc.exec_boostScan htop h
  | wakeupScan chan i => exact hc.exec_wakeupScan htop h
  | clockTicks => exact hc.exec_clockTicks htop h
  | clockRelease => exact hc.exec_clockRelease htop h
  | clockQuantum => exact hc.exec_clockQuantum ht htop h
  | clockRearm =>
      cases h
      exact hc.exec_clockRearm htop
  | kerneltrapTail w => exact hc.exec_kerneltrapTail ht htop h
  | acquireLock lk => exact hc.exec_acquireLock htop h
  | releaseLock lk => exact hc.exec_releaseLock htop h
  | sleepRelock lk => exact hc.exec_sleepRelock htop h
  | waitStart addr =>
      exact hc.exec_acquireStart htop rfl (fun hs => by cases hs; exact .waitScan addr 0 false)
        (fun _ _ => by simp) h
  | pauseStart n =>
      exact hc.exec_acquireStart htop rfl (fun hs => by cases hs; exact .pauseLoop _ _)
        (fun _ _ => by simp) h
  | usertrapTail w =>
      obtain ⟨p, rfl, h⟩ := onProcess_inv h
      exact hc.exec_usertrapTail ht htop h
  | sysret v =>
      obtain ⟨p, rfl, h⟩ := onProcess_inv h
      cases h
      exact hc.exec_sysret htop
  | forkAlloc i =>
      obtain ⟨p, rfl, h⟩ := onProcess_inv h
      exact hc.exec_forkAlloc ht htop h
  | forkParent np pid =>
      obtain ⟨p, rfl, h⟩ := onProcess_inv h
      exact hc.exec_forkParent htop h
  | forkRunnable np pid =>
      obtain ⟨p, rfl, h⟩ := onProcess_inv h
      exact hc.exec_forkRunnable htop h
  | exitStart status =>
      obtain ⟨p, rfl, h⟩ := onProcess_inv h
      exact hc.exec_exitStart htop h
  | exitReparent status i =>
      obtain ⟨p, rfl, h⟩ := onProcess_inv h
      cases h
      exact hc.exec_exitReparent htop
  | exitZombie status =>
      obtain ⟨p, rfl, h⟩ := onProcess_inv h
      exact hc.exec_exitZombie ht h
  | waitScan addr i havekids =>
      obtain ⟨p, rfl, h⟩ := onProcess_inv h
      exact hc.exec_waitScan ht htop h
  | killScan pid i =>
      obtain ⟨p, rfl, h⟩ := onProcess_inv h
      exact hc.exec_killScan htop h
  | boostprocScan pid i =>
      obtain ⟨p, rfl, h⟩ := onProcess_inv h
      exact hc.exec_boostprocScan htop h
  | pauseLoop ticks0 n =>
      obtain ⟨p, rfl, h⟩ := onProcess_inv h
      exact hc.exec_pauseLoop ht htop h
  | sleepCall chan lk =>
      obtain ⟨p, rfl, h⟩ := onProcess_inv h
      exact hc.exec_sleepCall ht htop h

theorem ControlOk.syscall (hc : ControlOk s) {c : CpuId} {call : Syscall}
    (h : step s (.syscall c call) = some s') : ControlOk s' := by
  obtain ⟨p, -, hnil, -, ⟨-, rfl⟩ | ⟨-, rfl⟩⟩ := usertrapSyscall_inv h
  · refine hc.setFrames rfl (fun _ => rfl) (.refl _) (.of_syscall (.exitStart _ (.inr rfl)))
      (fun _ h => nomatch h) (fun _ np _ h => ?_)
    exact absurd (creates_append_left (g := [.exitStart (-1)]) (by simp) h) (not_creates_nil np)
  · refine hc.setFrames rfl (fun _ => rfl) (.refl _) (.of_syscall (syscallFrames_stack call))
      (fun _ h => nomatch h) (fun _ np _ h => ?_)
    have h' := creates_append_left (syscallFrames_no_fork call) h
    exact absurd (creates_append_left (g := [.usertrapTail 0]) (by simp) h') (not_creates_nil np)

theorem controlOk_step {a : Action} (hc : ControlOk s) (h : step s a = some s') : ControlOk s' := by
  cases a with
  | exec c ok => exact hc.exec h
  | syscall c call => exact hc.syscall h
  | timer c =>
      obtain ⟨-, hen, rfl⟩ := step_timer_inv h
      exact hc.trap (by decide) hen (fun _ _ hr => .clockTicks hr) rfl (by simp)
  | devintr c chan lk =>
      obtain ⟨hen, rfl⟩ := step_devintr_inv h
      exact hc.trap (by decide) hen (fun _ _ hr => .devAcquire chan lk hr) rfl (by simp)
  | elapse d =>
      obtain rfl := step_elapse_inv h
      exact ⟨hc.stack, hc.binding, hc.swtchUnique, hc.creationUsed, hc.creationUnique⟩

theorem reachable_controlOk (hs : Reachable s) : ControlOk s :=
  StepSystem.Reachable.invariant controlOk_boot (fun _ _ _ _ hc h => controlOk_step hc h) hs

end Preservation

end Xv6Mlfq.Control
