import Xv6Mlfq.Step

/-!
Inversion of the step function: for each critical section, what a step that
is enabled has found and what state it leaves.  Proofs of invariants take a
step apart with these lemmas and never unfold the step functions.
-/

namespace Xv6Mlfq.Inversion

open Xv6Mlfq.ProcData
open Xv6Mlfq.State
open Xv6Mlfq.State.Kernel
open Xv6Mlfq.Step

variable {s s' : Kernel}

/-! ## The table after a critical section -/

@[simp] theorem sched_table (c : CpuId) (p : Slot) (resume : List Frame) :
    (sched s c p resume).table = s.table := rfl

@[simp] theorem setA0_table (p : Slot) (v : Int) :
    (setA0 s p v).table = s.table.setProc p fun r => { r with a0 := v } := rfl

@[simp] theorem setA0_frames (p : Slot) (v : Int) : (setA0 s p v).frames = s.frames := rfl

@[simp] theorem setA0_cpus (p : Slot) (v : Int) : (setA0 s p v).cpus = s.cpus := rfl

@[simp] theorem setA0_holder (p : Slot) (v : Int) : (setA0 s p v).holder = s.holder := rfl

@[simp] theorem setA0_initproc (p : Slot) (v : Int) : (setA0 s p v).initproc = s.initproc := rfl

@[simp] theorem setA0_nextpid (p : Slot) (v : Int) : (setA0 s p v).nextpid = s.nextpid := rfl

@[simp] theorem allocprocFound_frames (p : Slot) : (allocprocFound s p).frames = s.frames := rfl

@[simp] theorem allocprocFound_holder (p : Slot) : (allocprocFound s p).holder = s.holder := rfl

@[simp] theorem allocprocFound_initproc (p : Slot) : (allocprocFound s p).initproc = s.initproc := rfl

@[simp] theorem schedTopStep_table (t : Thread) (fs : List Frame) :
    (schedTopStep s t fs).table = s.table := by
  simp only [schedTopStep]
  split_ifs <;> rfl

@[simp] theorem schedBoostedStep_table (t : Thread) (fs : List Frame) :
    (schedBoostedStep s t fs).table = s.table := rfl

theorem schedScanStep_table (t : Thread) (level : Nat) (fs : List Frame) :
    (schedScanStep s t level fs).table =
      if level < mlfqLevels then (dequeue s.table level).2 else s.table := by
  unfold schedScanStep
  split_ifs
  · split <;> simp_all
  · rfl

theorem schedScanStep_cases (t : Thread) (level : Nat) (fs : List Frame) :
    (level < mlfqLevels ∧ (s.table.runqueues level).head = none ∧
        schedScanStep s t level fs =
          { s with table := (dequeue s.table level).2 }.setFrames t (.schedScan (level + 1) :: fs)) ∨
      (∃ p, level < mlfqLevels ∧ (s.table.runqueues level).head = some p ∧
        schedScanStep s t level fs =
          { s with table := (dequeue s.table level).2 }.setFrames t (.schedLock level p :: fs)) ∨
      (¬ level < mlfqLevels ∧ schedScanStep s t level fs = s.setFrames t (.schedTop :: fs)) := by
  unfold schedScanStep
  split_ifs with hl
  · rw [← dequeue_fst]
    cases hd : dequeue s.table level with
    | mk x tb =>
        cases x with
        | none => exact .inl ⟨hl, rfl, rfl⟩
        | some p => exact .inr (.inl ⟨p, hl, rfl, rfl⟩)
  · exact .inr (.inr ⟨hl, rfl⟩)

theorem dispatch_table (c : CpuId) (level : Nat) (p : Slot) :
    (dispatch s c level p).table = s.table.setProc p fun r =>
      { r with state := .running, enteredQueueTick := s.ticksSinceBoost,
               chan := if resumesInSleep s p then none else r.chan } := rfl

theorem schedReturnedStep_table (c : CpuId) (t : Thread) (p : Slot) (fs : List Frame) :
    (schedReturnedStep s c t p fs).table =
      if (s.table.proc p).state = .runnable then enqueue s.table p else s.table := by
  simp only [schedReturnedStep]
  split_ifs <;> simp_all

@[simp] theorem clockRearmStep_table (c : CpuId) (t : Thread) (fs : List Frame) :
    (clockRearmStep s c t fs).table = s.table := rfl

theorem exitReparentStep_table (p : Slot) (status : Int) (i : Nat) (fs : List Frame) :
    (exitReparentStep s p status i fs).table =
      if h : i < nproc then
        if (s.table.proc ⟨i, h⟩).parent = some p then
          s.table.setProc ⟨i, h⟩ fun r => { r with parent := s.initproc }
        else s.table
      else s.table := by
  unfold exitReparentStep
  split_ifs <;> rfl

theorem exitReparentStep_cases (p : Slot) (status : Int) (i : Nat) (fs : List Frame) :
    (∃ hi : i < nproc, (s.table.proc ⟨i, hi⟩).parent = some p ∧
        exitReparentStep s p status i fs =
          (s.setProc ⟨i, hi⟩ fun r => { r with parent := s.initproc }).setFrames (.process p)
            (.wakeupScan (s.initproc.map .proc) 0 :: .exitReparent status (i + 1) :: fs)) ∨
      (∃ hi : i < nproc, (s.table.proc ⟨i, hi⟩).parent ≠ some p ∧
        exitReparentStep s p status i fs =
          s.setFrames (.process p) (.exitReparent status (i + 1) :: fs)) ∨
      (nproc ≤ i ∧ exitReparentStep s p status i fs = s.setFrames (.process p)
        (.wakeupScan ((s.table.proc p).parent.map .proc) 0 :: .exitZombie status :: fs)) := by
  unfold exitReparentStep
  split_ifs with hi hpar
  · exact .inl ⟨hi, hpar, rfl⟩
  · exact .inr (.inl ⟨hi, hpar, rfl⟩)
  · exact .inr (.inr ⟨Nat.le_of_not_lt hi, rfl⟩)

theorem yield_inv {c : CpuId} {p : Slot} {resume : List Frame} (h : yield s c p resume = some s') :
    s.procLocked p = false ∧
      s' = sched (s.setProc p fun r => { r with state := .runnable }) c p resume := by
  unfold yield at h
  split_ifs at h with hlocked
  exact ⟨by simpa using hlocked, (Option.some.inj h).symm⟩

theorem sleep_inv {c : CpuId} {p : Slot} {chan : Chan} {lk : Lock} {rest : List Frame}
    (h : sleep s c p chan lk rest = some s') :
    s.procLocked p = false ∧ s.holds (.process p) lk ∧
      s' = sched ((s.setHolder lk none).setProc p fun r =>
        { r with chan := some chan, state := .sleeping }) c p (.sleepRelock lk :: rest) := by
  unfold sleep at h
  split_ifs at h with hlocked hholds
  exact ⟨by simpa using hlocked, hholds, (Option.some.inj h).symm⟩

theorem schedLockStep_inv {c : CpuId} {t : Thread} {level : Nat} {p : Slot} {fs : List Frame}
    (h : schedLockStep s c t level p fs = some s') :
    s.procLocked p = false ∧
      ((s.table.proc p).state = .runnable ∧ s' = dispatch s c level p ∨
        (s.table.proc p).state ≠ .runnable ∧ s' = s.setFrames t (.schedScan (level + 1) :: fs)) := by
  unfold schedLockStep at h
  split_ifs at h with hlocked hrun
  · exact ⟨by simpa using hlocked, .inl ⟨hrun, (Option.some.inj h).symm⟩⟩
  · exact ⟨by simpa using hlocked, .inr ⟨hrun, (Option.some.inj h).symm⟩⟩

theorem boostScanStep_inv {t : Thread} {i : Nat} {fs : List Frame}
    (h : boostScanStep s t i fs = some s') :
    (∃ hi : i < nproc, s.procLocked ⟨i, hi⟩ = false ∧
        s' = (s.mapTable (boostIter · ⟨i, hi⟩)).setFrames t (.boostScan (i + 1) :: fs)) ∨
      (nproc ≤ i ∧ s' = { s with ticksSinceBoost := 0 }.setFrames t fs) := by
  unfold boostScanStep at h
  split_ifs at h with hi hlocked
  · exact .inl ⟨hi, by simpa using hlocked, (Option.some.inj h).symm⟩
  · exact .inr ⟨Nat.le_of_not_lt hi, (Option.some.inj h).symm⟩

theorem wakeupScanStep_inv {c : CpuId} {t : Thread} {chan : Option Chan} {i : Nat}
    {fs : List Frame} (h : wakeupScanStep s c t chan i fs = some s') :
    (∃ hi : i < nproc, (s.myproc c ≠ some ⟨i, hi⟩ → s.procLocked ⟨i, hi⟩ = false) ∧
        s' = (s.mapTable (wakeupIter chan (s.myproc c) · ⟨i, hi⟩)).setFrames t
          (.wakeupScan chan (i + 1) :: fs)) ∨
      (nproc ≤ i ∧ s' = s.setFrames t fs) := by
  unfold wakeupScanStep at h
  split_ifs at h with hi hguard
  · refine .inl ⟨hi, fun hme => ?_, (Option.some.inj h).symm⟩
    simpa [hme] using hguard
  · exact .inr ⟨Nat.le_of_not_lt hi, (Option.some.inj h).symm⟩

theorem clockTicksStep_inv {c : CpuId} {t : Thread} {fs : List Frame}
    (h : clockTicksStep s c t fs = some s') :
    (c.val = 0 ∧ s.holder .tickslock = none ∧
        s' = ({ s with ticks := s.ticks + 1, ticksSinceBoost := s.ticksSinceBoost + 1 }.setHolder
          .tickslock (some t)).setFrames t
            (.wakeupScan (some .ticks) 0 :: .clockRelease :: .clockQuantum :: fs)) ∨
      (c.val ≠ 0 ∧ s' = s.setFrames t (.clockQuantum :: fs)) := by
  unfold clockTicksStep at h
  split_ifs at h with hc hfree
  · exact .inl ⟨hc, hfree, (Option.some.inj h).symm⟩
  · exact .inr ⟨hc, (Option.some.inj h).symm⟩

theorem releaseStep_inv {t : Thread} {lk : Lock} {fs : List Frame}
    (h : releaseStep s t lk fs = some s') :
    s.holds t lk ∧ s' = (s.setHolder lk none).setFrames t fs := by
  unfold releaseStep at h
  split_ifs at h with hh
  exact ⟨hh, (Option.some.inj h).symm⟩

theorem acquireStep_inv {t : Thread} {lk : Lock} {fs : List Frame}
    (h : acquireStep s t lk fs = some s') :
    s.holder lk = none ∧ s' = (s.setHolder lk (some t)).setFrames t fs := by
  unfold acquireStep at h
  split_ifs at h with hh
  exact ⟨hh, (Option.some.inj h).symm⟩

/-- The cases of `clockintr`'s MLFQ part: a demotion, a quantum used up at the
last level, a tick charged below the quantum, or no running process. -/
theorem clockQuantumStep_inv {c : CpuId} {t : Thread} {fs : List Frame}
    (h : clockQuantumStep s c t fs = some s') :
    (∃ p, s.myproc c = some p ∧ (s.table.proc p).state = .running ∧
        getQuantum (s.table.proc p).queueLevel ≤ (s.table.proc p).timeInQueue + 1 ∧
        (s.table.proc p).queueLevel < mlfqLevels - 1 ∧
        yield ((s.setProc p fun r => { r with timeInQueue := 0, queueLevel := r.queueLevel + 1 }).setStats
          fun st => { st with totalDemotions := st.totalDemotions + 1 }) c p (.clockRearm :: fs) =
            some s') ∨
      (∃ p, s.myproc c = some p ∧ (s.table.proc p).state = .running ∧
        getQuantum (s.table.proc p).queueLevel ≤ (s.table.proc p).timeInQueue + 1 ∧
        ¬ (s.table.proc p).queueLevel < mlfqLevels - 1 ∧
        yield (s.setProc p fun r => { r with timeInQueue := 0 }) c p (.clockRearm :: fs) = some s') ∨
      (∃ p, s.myproc c = some p ∧ (s.table.proc p).state = .running ∧
        (s.table.proc p).timeInQueue + 1 < getQuantum (s.table.proc p).queueLevel ∧
        s' = (s.setProc p fun r => { r with timeInQueue := (s.table.proc p).timeInQueue + 1 }).setFrames
          t (.clockRearm :: fs)) ∨
      ((∀ p, s.myproc c = some p → (s.table.proc p).state ≠ .running) ∧
        s' = s.setFrames t (.clockRearm :: fs)) := by
  unfold clockQuantumStep at h
  split at h
  · next p hme =>
      by_cases hrun : (s.table.proc p).state = .running
      · by_cases hq : getQuantum (s.table.proc p).queueLevel ≤ (s.table.proc p).timeInQueue + 1
        · by_cases hl : (s.table.proc p).queueLevel < mlfqLevels - 1
          · simp only [hrun, hq, hl, if_true] at h
            exact .inl ⟨p, hme, hrun, hq, hl, h⟩
          · simp only [hrun, hq, hl, if_true, if_false] at h
            exact .inr (.inl ⟨p, hme, hrun, hq, hl, h⟩)
        · simp only [hrun, hq, if_true, if_false] at h
          exact .inr (.inr (.inl ⟨p, hme, hrun, Nat.lt_of_not_le hq, (Option.some.inj h).symm⟩))
      · simp only [hrun, if_false] at h
        refine .inr (.inr (.inr ⟨fun q hq' => ?_, (Option.some.inj h).symm⟩))
        rw [hme] at hq'
        cases hq'
        exact hrun
  · next hme =>
      refine .inr (.inr (.inr ⟨fun q hq' => ?_, (Option.some.inj h).symm⟩))
      rw [hme] at hq'
      cases hq'

theorem usertrapTailStep_inv {c : CpuId} {p : Slot} {whichDev : Nat} {fs : List Frame}
    (h : usertrapTailStep s c p whichDev fs = some s') :
    s.procLocked p = false ∧
      ((s.table.proc p).killed ∧ s' = s.setFrames (.process p) [.exitStart (-1)] ∨
        ¬ (s.table.proc p).killed ∧ whichDev = 2 ∧ yield s c p fs = some s' ∨
        ¬ (s.table.proc p).killed ∧ whichDev ≠ 2 ∧ s' = s.setFrames (.process p) fs) := by
  unfold usertrapTailStep at h
  split_ifs at h with hlocked hkilled hdev
  · exact ⟨by simpa using hlocked, .inl ⟨hkilled, (Option.some.inj h).symm⟩⟩
  · exact ⟨by simpa using hlocked, .inr (.inl ⟨hkilled, hdev, h⟩)⟩
  · exact ⟨by simpa using hlocked, .inr (.inr ⟨hkilled, hdev, (Option.some.inj h).symm⟩)⟩

theorem kerneltrapTailStep_inv {c : CpuId} {t : Thread} {whichDev : Nat} {fs : List Frame}
    (h : kerneltrapTailStep s c t whichDev fs = some s') :
    (∃ p, s.myproc c = some p ∧ whichDev = 2 ∧ yield s c p fs = some s') ∨
      ((∀ p, s.myproc c = some p → whichDev ≠ 2) ∧ s' = s.setFrames t fs) := by
  unfold kerneltrapTailStep at h
  split at h
  · next p hme =>
      split_ifs at h with hdev
      · exact .inl ⟨p, hme, hdev, h⟩
      · exact .inr ⟨fun _ _ => hdev, (Option.some.inj h).symm⟩
  · next hme =>
      refine .inr ⟨fun q hq => ?_, (Option.some.inj h).symm⟩
      rw [hme] at hq
      cases hq

theorem forkAllocStep_inv {p : Slot} {i : Nat} {ok : Bool} {fs : List Frame}
    (h : forkAllocStep s p i ok fs = some s') :
    (∃ hi : i < nproc, s.procLocked ⟨i, hi⟩ = false ∧ (s.table.proc ⟨i, hi⟩).state = .unused ∧
        ok = true ∧ s' = ((setA0 (allocprocFound s ⟨i, hi⟩) ⟨i, hi⟩ 0).setFrames (.process ⟨i, hi⟩)
          []).setFrames (.process p) (.forkParent ⟨i, hi⟩ s.nextpid :: fs)) ∨
      (∃ hi : i < nproc, s.procLocked ⟨i, hi⟩ = false ∧ (s.table.proc ⟨i, hi⟩).state = .unused ∧
        ok = false ∧ s' = (setA0 ((allocprocFound s ⟨i, hi⟩).setProc ⟨i, hi⟩ freeproc) p
          (-1)).setFrames (.process p) fs) ∨
      (∃ hi : i < nproc, s.procLocked ⟨i, hi⟩ = false ∧ (s.table.proc ⟨i, hi⟩).state ≠ .unused ∧
        s' = s.setFrames (.process p) (.forkAlloc (i + 1) :: fs)) ∨
      (nproc ≤ i ∧ s' = (setA0 s p (-1)).setFrames (.process p) fs) := by
  unfold forkAllocStep at h
  split_ifs at h with hi hlocked hunused hok
  · exact .inl ⟨hi, by simpa using hlocked, hunused, hok, (Option.some.inj h).symm⟩
  · exact .inr (.inl ⟨hi, by simpa using hlocked, hunused, by simpa using hok,
      (Option.some.inj h).symm⟩)
  · exact .inr (.inr (.inl ⟨hi, by simpa using hlocked, hunused, (Option.some.inj h).symm⟩))
  · exact .inr (.inr (.inr ⟨Nat.le_of_not_lt hi, (Option.some.inj h).symm⟩))

theorem forkParentStep_inv {p np : Slot} {pid : Int} {fs : List Frame}
    (h : forkParentStep s p np pid fs = some s') :
    s.holder .waitLock = none ∧ s' = (s.setProc np fun r => { r with parent := some p }).setFrames
      (.process p) (.forkRunnable np pid :: fs) := by
  unfold forkParentStep at h
  split_ifs at h with hfree
  exact ⟨hfree, (Option.some.inj h).symm⟩

theorem forkRunnableStep_inv {p np : Slot} {pid : Int} {fs : List Frame}
    (h : forkRunnableStep s p np pid fs = some s') :
    s.procLocked np = false ∧ s' = (setA0 ((s.setProc np fun r => { r with state := .runnable }).mapTable
      (enqueue · np)) p pid).setFrames (.process p) fs := by
  unfold forkRunnableStep at h
  split_ifs at h with hlocked
  exact ⟨by simpa using hlocked, (Option.some.inj h).symm⟩

theorem exitStartStep_inv {p : Slot} {status : Int} {fs : List Frame}
    (h : exitStartStep s p status fs = some s') :
    s.initproc ≠ some p ∧ s.holder .waitLock = none ∧
      s' = (s.setHolder .waitLock (some (.process p))).setFrames (.process p)
        (.exitReparent status 0 :: fs) := by
  unfold exitStartStep at h
  split_ifs at h with hinit
  exact ⟨hinit, acquireStep_inv h⟩

theorem exitZombieStep_inv {c : CpuId} {p : Slot} {status : Int}
    (h : exitZombieStep s c p status = some s') :
    s.procLocked p = false ∧ s.holds (.process p) .waitLock ∧
      s' = sched ((s.setHolder .waitLock none).setProc p fun r =>
        { r with xstate := status, state := .zombie }) c p [] := by
  unfold exitZombieStep at h
  split_ifs at h with hlocked hholds
  exact ⟨by simpa using hlocked, hholds, (Option.some.inj h).symm⟩

theorem waitReturn_inv {p : Slot} {v : Int} {fs : List Frame} (h : waitReturn s p v fs = some s') :
    s.holds (.process p) .waitLock ∧
      s' = (setA0 (s.setHolder .waitLock none) p v).setFrames (.process p) fs := by
  unfold waitReturn at h
  obtain ⟨s1, hrel, rfl⟩ := Option.map_eq_some_iff.mp h
  obtain ⟨hholds, rfl⟩ := releaseStep_inv hrel
  exact ⟨hholds, rfl⟩

/-- The cases of one step of `kwait`'s scan: the copyout of a zombie child's
status fails, the zombie child is reaped, another entry is passed over, or the
scan ends and `kwait` returns -1 or sleeps. -/
theorem waitScanStep_inv {c : CpuId} {p : Slot} {addr i : Nat} {havekids ok : Bool}
    {fs : List Frame} (h : waitScanStep s c p addr i havekids ok fs = some s') :
    (∃ hi : i < nproc, (s.table.proc ⟨i, hi⟩).parent = some p ∧ s.procLocked ⟨i, hi⟩ = false ∧
        (s.table.proc ⟨i, hi⟩).state = .zombie ∧ addr ≠ 0 ∧ ok = false ∧
        waitReturn s p (-1) fs = some s') ∨
      (∃ hi : i < nproc, (s.table.proc ⟨i, hi⟩).parent = some p ∧ s.procLocked ⟨i, hi⟩ = false ∧
        (s.table.proc ⟨i, hi⟩).state = .zombie ∧ ¬ (addr ≠ 0 ∧ ok = false) ∧
        waitReturn (s.setProc ⟨i, hi⟩ freeproc) p (s.table.proc ⟨i, hi⟩).pid fs = some s') ∨
      (∃ hi : i < nproc, (s.table.proc ⟨i, hi⟩).parent = some p ∧ s.procLocked ⟨i, hi⟩ = false ∧
        (s.table.proc ⟨i, hi⟩).state ≠ .zombie ∧
        s' = s.setFrames (.process p) (.waitScan addr (i + 1) true :: fs)) ∨
      (∃ hi : i < nproc, (s.table.proc ⟨i, hi⟩).parent ≠ some p ∧
        s' = s.setFrames (.process p) (.waitScan addr (i + 1) havekids :: fs)) ∨
      (nproc ≤ i ∧ s.procLocked p = false ∧ (havekids = false ∨ (s.table.proc p).killed) ∧
        waitReturn s p (-1) fs = some s') ∨
      (nproc ≤ i ∧ s.procLocked p = false ∧ ¬ (havekids = false ∨ (s.table.proc p).killed) ∧
        sleep s c p (.proc p) .waitLock (.waitScan addr 0 false :: fs) = some s') := by
  unfold waitScanStep at h
  split_ifs at h with hi hpar hlocked hzombie hfail hlocked' hnokids
  · exact .inl ⟨hi, hpar, by simpa using hlocked, hzombie, hfail.1, hfail.2, h⟩
  · exact .inr (.inl ⟨hi, hpar, by simpa using hlocked, hzombie, hfail, h⟩)
  · exact .inr (.inr (.inl ⟨hi, hpar, by simpa using hlocked, hzombie, (Option.some.inj h).symm⟩))
  · exact .inr (.inr (.inr (.inl ⟨hi, hpar, (Option.some.inj h).symm⟩)))
  · exact .inr (.inr (.inr (.inr (.inl ⟨Nat.le_of_not_lt hi, by simpa using hlocked', hnokids, h⟩))))
  · exact .inr (.inr (.inr (.inr (.inr ⟨Nat.le_of_not_lt hi, by simpa using hlocked', hnokids, h⟩))))

theorem killScanStep_inv {p : Slot} {pid : Int} {i : Nat} {fs : List Frame}
    (h : killScanStep s p pid i fs = some s') :
    (∃ hi : i < nproc, s.procLocked ⟨i, hi⟩ = false ∧ (s.table.proc ⟨i, hi⟩).pid = pid ∧
        s' = (setA0 (s.setProc ⟨i, hi⟩ fun r =>
          { r with killed := true, state := if r.state = .sleeping then .runnable else r.state })
          p 0).setFrames (.process p) fs) ∨
      (∃ hi : i < nproc, s.procLocked ⟨i, hi⟩ = false ∧ (s.table.proc ⟨i, hi⟩).pid ≠ pid ∧
        s' = s.setFrames (.process p) (.killScan pid (i + 1) :: fs)) ∨
      (nproc ≤ i ∧ s' = (setA0 s p (-1)).setFrames (.process p) fs) := by
  unfold killScanStep at h
  split_ifs at h with hi hlocked hpid
  · exact .inl ⟨hi, by simpa using hlocked, hpid, (Option.some.inj h).symm⟩
  · exact .inr (.inl ⟨hi, by simpa using hlocked, hpid, (Option.some.inj h).symm⟩)
  · exact .inr (.inr ⟨Nat.le_of_not_lt hi, (Option.some.inj h).symm⟩)

theorem boostprocScanStep_inv {p : Slot} {pid : Int} {i : Nat} {fs : List Frame}
    (h : boostprocScanStep s p pid i fs = some s') :
    (∃ hi : i < nproc, s.procLocked ⟨i, hi⟩ = false ∧ (s.table.proc ⟨i, hi⟩).pid = pid ∧
        s' = (setA0 (s.setProc ⟨i, hi⟩ fun r => { r with queueLevel := 0, timeInQueue := 0 })
          p 0).setFrames (.process p) fs) ∨
      (∃ hi : i < nproc, s.procLocked ⟨i, hi⟩ = false ∧ (s.table.proc ⟨i, hi⟩).pid ≠ pid ∧
        s' = s.setFrames (.process p) (.boostprocScan pid (i + 1) :: fs)) ∨
      (nproc ≤ i ∧ s' = (setA0 s p (-1)).setFrames (.process p) fs) := by
  unfold boostprocScanStep at h
  split_ifs at h with hi hlocked hpid
  · exact .inl ⟨hi, by simpa using hlocked, hpid, (Option.some.inj h).symm⟩
  · exact .inr (.inl ⟨hi, by simpa using hlocked, hpid, (Option.some.inj h).symm⟩)
  · exact .inr (.inr ⟨Nat.le_of_not_lt hi, (Option.some.inj h).symm⟩)

theorem pauseLoopStep_inv {c : CpuId} {p : Slot} {ticks0 n : Nat} {fs : List Frame}
    (h : pauseLoopStep s c p ticks0 n fs = some s') :
    (s.ticks - ticks0 < n ∧ s.procLocked p = false ∧ (s.table.proc p).killed ∧
        s.holds (.process p) .tickslock ∧
        s' = (setA0 (s.setHolder .tickslock none) p (-1)).setFrames (.process p) fs) ∨
      (s.ticks - ticks0 < n ∧ s.procLocked p = false ∧ ¬ (s.table.proc p).killed ∧
        sleep s c p .ticks .tickslock (.pauseLoop ticks0 n :: fs) = some s') ∨
      (¬ s.ticks - ticks0 < n ∧ s.holds (.process p) .tickslock ∧
        s' = (setA0 (s.setHolder .tickslock none) p 0).setFrames (.process p) fs) := by
  unfold pauseLoopStep at h
  split_ifs at h with hwait hlocked hkilled
  · obtain ⟨s1, hrel, rfl⟩ := Option.map_eq_some_iff.mp h
    obtain ⟨hholds, rfl⟩ := releaseStep_inv hrel
    exact .inl ⟨hwait, by simpa using hlocked, hkilled, hholds, rfl⟩
  · exact .inr (.inl ⟨hwait, by simpa using hlocked, hkilled, h⟩)
  · obtain ⟨s1, hrel, rfl⟩ := Option.map_eq_some_iff.mp h
    obtain ⟨hholds, rfl⟩ := releaseStep_inv hrel
    exact .inr (.inr ⟨hwait, hholds, rfl⟩)

theorem usertrapSyscall_inv {c : CpuId} {call : Syscall} (h : usertrapSyscall s c call = some s') :
    ∃ p, s.current c = .process p ∧ s.frames (.process p) = [] ∧ s.procLocked p = false ∧
      ((s.table.proc p).killed ∧ s' = s.setFrames (.process p) [.exitStart (-1)] ∨
        ¬ (s.table.proc p).killed ∧
          s' = s.setFrames (.process p) (syscallFrames call ++ [.usertrapTail 0])) := by
  unfold usertrapSyscall at h
  split at h
  · next p hcur =>
      split_ifs at h with huser hkilled
      · exact ⟨p, hcur, huser.1, by simpa using huser.2, .inl ⟨hkilled, (Option.some.inj h).symm⟩⟩
      · exact ⟨p, hcur, huser.1, by simpa using huser.2, .inr ⟨hkilled, (Option.some.inj h).symm⟩⟩
  · cases h

/-! ## Steps of the whole kernel -/

theorem step_exec_inv {c : CpuId} {ok : Bool} (h : step s (.exec c ok) = some s') :
    ∃ f fs, s.frames (s.current c) = f :: fs ∧ execFrame s c (s.current c) ok f fs = some s' := by
  simp only [step] at h
  split at h
  · cases h
  · next f fs hfs => exact ⟨f, fs, hfs, h⟩

theorem step_exec_top {c : CpuId} {ok : Bool} {t : Thread} {f : Frame} {fs : List Frame}
    (hcur : s.current c = t) (htop : s.frames t = f :: fs) (h : step s (.exec c ok) = some s') :
    execFrame s c t ok f fs = some s' := by
  obtain ⟨f', fs', htop', h⟩ := step_exec_inv h
  rw [hcur, htop] at htop'
  injection htop' with hf hfs
  rw [hcur, ← hf, ← hfs] at h
  exact h

theorem onProcess_inv {t : Thread} {k : Slot → Option Kernel} (h : onProcess t k = some s') :
    ∃ p, t = .process p ∧ k p = some s' := by
  cases t with
  | scheduler c => cases h
  | process p => exact ⟨p, rfl, h⟩

theorem trap_eq (c : CpuId) (handler : List Frame) (whichDev : Nat) :
    trap s c handler whichDev = s.setFrames (s.current c)
      (match s.frames (s.current c) with
        | [] => handler ++ [.usertrapTail whichDev]
        | fs => handler ++ .kerneltrapTail whichDev :: fs) := by
  simp only [trap]
  cases s.frames (s.current c) <;> rfl

@[simp] theorem trap_table (c : CpuId) (handler : List Frame) (whichDev : Nat) :
    (trap s c handler whichDev).table = s.table := by
  rw [trap_eq]
  rfl

theorem step_timer_inv {c : CpuId} (h : step s (.timer c) = some s') :
    (s.cpus c).stimecmp ≤ s.time ∧ intrEnabled s c = true ∧ s' = trap s c [.clockTicks] 2 := by
  simp only [step] at h
  split_ifs at h with hdue
  exact ⟨hdue.1, hdue.2, (Option.some.inj h).symm⟩

theorem step_devintr_inv {c : CpuId} {chan lk : Nat} (h : step s (.devintr c chan lk) = some s') :
    intrEnabled s c = true ∧ s' = trap s c [.acquireLock (.obj lk),
      .wakeupScan (some (.obj chan)) 0, .releaseLock (.obj lk)] 1 := by
  simp only [step] at h
  split_ifs at h with hen
  exact ⟨hen, (Option.some.inj h).symm⟩

theorem step_elapse_inv {d : Nat} (h : step s (.elapse d) = some s') :
    s' = { s with time := s.time + d } :=
  (Option.some.inj h).symm

end Xv6Mlfq.Inversion
