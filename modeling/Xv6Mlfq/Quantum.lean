import Xv6Mlfq.BootRun
import Xv6Mlfq.Inversion

/-!
Time slices and the MLFQ allotment.  `clockintr` charges every tick to the
running process's `time_in_queue` and, when `get_quantum` of its level is used
up, demotes it and yields; `usertrap` and `kerneltrap`, inherited from xv6,
also yield after every timer interrupt.
-/

namespace Xv6Mlfq.Quantum

open Xv6Mlfq.ProcData
open Xv6Mlfq.State
open Xv6Mlfq.State.Kernel
open Xv6Mlfq.Step
open Xv6Mlfq.BootRun
open Xv6Mlfq.Inversion
open StepSystem

/-- Quantum-length time slices: a `RUNNING` process is made `RUNNABLE` only by
the `clockintr` of its CPU that finds its `time_in_queue` reaching
`get_quantum` of its level. -/
def QuantumPreemption : Prop :=
  ∀ s a s' p, Reachable s → step s a = some s' → (s.table.proc p).state = .running →
    (s'.table.proc p).state = .runnable →
    ∃ c, (s.frames (s.current c)).head? = some .clockQuantum ∧ s.myproc c = some p ∧
      getQuantum (s.table.proc p).queueLevel ≤ (s.table.proc p).timeInQueue + 1

/-- CPU 1's scheduler boosts and runs the first process; its CPU's timer fires
in user mode and `clockintr` charges the first tick of its level-0 quantum of
two, after which `usertrap` stands at its timer `yield`. -/
def firstTickRun : List Action := execs 1 70 ++ [.timer 1] ++ execs 1 3

theorem quantum_preemption_fails : ¬ QuantumPreemption := by
  intro hall
  obtain ⟨s, s', hs, hrun, hrunning, hrunnable, hnoclock⟩ :=
    exists_reachable_of_runs (reachable_tickedBoot boostInterval) firstTickRun [.exec 1 true]
      (fun s s' => (s.table.proc 0).state = .running ∧ (s'.table.proc 0).state = .runnable ∧
        ∀ c, (s.frames (s.current c)).head? ≠ some .clockQuantum)
      (by decide +kernel)
  rw [run_singleton] at hrun
  obtain ⟨c, hclock, -, -⟩ := hall s _ s' 0 hs hrun hrunning hrunnable
  exact hnoclock c hclock

/-! ## The allotment -/

/-- How a process enters a level: `priority_boost` finds it `RUNNABLE`,
`sys_boostproc` finds its pid, `allocproc` takes its `UNUSED` entry, `kwait`'s
`freeproc` reaps it, or `clockintr` demotes it. -/
inductive LevelEntry
  | boost
  | boostproc
  | allocproc
  | freeproc
  | demotion
  deriving DecidableEq, Repr

/-- The step of `a` is a `clockintr` that finds `p` as its CPU's `myproc()` and
`RUNNING`, and so charges it a tick. -/
def clockHit (s : Kernel) (p : Slot) : Action → Bool
  | .exec c _ => decide ((s.frames (s.current c)).head? = some .clockQuantum ∧
      s.myproc c = some p ∧ (s.table.proc p).state = .running)
  | _ => false

/-- The way the step of `a` makes `p` enter a level, read off the resumption
point the acting thread stands at: one entry of a table scan, or the MLFQ part
of `clockintr` when the quantum is used up above the bottom level. -/
def levelEntry (s : Kernel) (p : Slot) : Action → Option LevelEntry
  | .exec c ok =>
      match (s.frames (s.current c)).head? with
      | some (.boostScan i) =>
          if i = p.val ∧ (s.table.proc p).state = .runnable then some .boost else none
      | some (.boostprocScan pid i) =>
          if i = p.val ∧ (s.table.proc p).pid = pid then some .boostproc else none
      | some (.forkAlloc i) =>
          if i = p.val ∧ (s.table.proc p).state = .unused then some .allocproc else none
      | some (.waitScan addr i _) =>
          if i = p.val ∧ (s.table.proc p).parent.map .process = some (s.current c) ∧
            (s.table.proc p).state = .zombie ∧ ¬ (addr ≠ 0 ∧ ok = false) then some .freeproc
          else none
      | some .clockQuantum =>
          if s.myproc c = some p ∧ (s.table.proc p).state = .running ∧
            getQuantum (s.table.proc p).queueLevel ≤ (s.table.proc p).timeInQueue + 1 ∧
            (s.table.proc p).queueLevel < mlfqLevels - 1 then some .demotion
          else none
      | _ => none
  | _ => none

/-- What a step does to `p`'s level and `time_in_queue`, from `r` to `r'`: a
demotion moves one level down, any other entry resets both to 0, a charged tick
counts up to the quantum and wraps to 0, and nothing else writes either. -/
def LevelTimeStep (s : Kernel) (a : Action) (p : Slot) (r r' : Proc) : Prop :=
  match levelEntry s p a with
  | some .demotion => r'.queueLevel = r.queueLevel + 1 ∧ r'.timeInQueue = 0
  | some _ => r'.queueLevel = 0 ∧ r'.timeInQueue = 0
  | none =>
      r'.queueLevel = r.queueLevel ∧
        r'.timeInQueue =
          if clockHit s p a then
            if getQuantum r.queueLevel ≤ r.timeInQueue + 1 then 0 else r.timeInQueue + 1
          else r.timeInQueue

/-- The resumption points whose critical sections write no level and no
`time_in_queue`. -/
def keepsAllotment : Frame → Bool
  | .boostScan _ | .boostprocScan _ _ | .forkAlloc _ | .waitScan _ _ _ | .clockQuantum => false
  | _ => true

variable {s s' : Kernel}

theorem levelTime_same {a : Action} {p : Slot} (hE : levelEntry s p a = none)
    (hH : clockHit s p a = false)
    (h : (s'.table.proc p).queueLevel = (s.table.proc p).queueLevel ∧
      (s'.table.proc p).timeInQueue = (s.table.proc p).timeInQueue) :
    LevelTimeStep s a p (s.table.proc p) (s'.table.proc p) := by
  simp [LevelTimeStep, hE, hH, h]

theorem levelTime_of_keeps {c : CpuId} {ok : Bool} {f : Frame} {p : Slot}
    (hhead : (s.frames (s.current c)).head? = some f) (hf : keepsAllotment f = true)
    (h : (s'.table.proc p).queueLevel = (s.table.proc p).queueLevel ∧
      (s'.table.proc p).timeInQueue = (s.table.proc p).timeInQueue) :
    LevelTimeStep s (.exec c ok) p (s.table.proc p) (s'.table.proc p) := by
  refine levelTime_same ?_ ?_ h
  · cases f <;> simp_all [levelEntry, keepsAllotment]
  · cases f <;> simp_all [clockHit, keepsAllotment]

theorem step_levelTime {a : Action} (h : step s a = some s') (p : Slot) :
    LevelTimeStep s a p (s.table.proc p) (s'.table.proc p) := by
  cases a with
  | exec c ok =>
      obtain ⟨f, fs, htop, h⟩ := step_exec_inv h
      have hhead : (s.frames (s.current c)).head? = some f := by simp [htop]
      cases f with
      | schedTop | schedBoosted | boostClear | clockRearm =>
          cases h
          exact levelTime_of_keeps hhead rfl (by simp)
      | schedSwtch => cases h
      | schedScan level =>
          cases h
          refine levelTime_of_keeps hhead rfl ?_
          rw [schedScanStep_table]
          split_ifs <;> simp [dequeue_proc]
      | schedLock level q =>
          obtain ⟨-, ⟨-, rfl⟩ | ⟨-, rfl⟩⟩ := schedLockStep_inv h <;>
            exact levelTime_of_keeps hhead rfl (by simp [dispatch_table, apply_ite Proc.queueLevel, apply_ite Proc.timeInQueue])
      | schedReturned q =>
          cases h
          refine levelTime_of_keeps hhead rfl ?_
          rw [schedReturnedStep_table]
          split_ifs <;> simp [enqueue_proc]
      | wakeupScan chan i =>
          rcases wakeupScanStep_inv h with ⟨hi, -, rfl⟩ | ⟨-, rfl⟩ <;>
            exact levelTime_of_keeps hhead rfl (by simp [wakeupIter_proc, apply_ite Proc.queueLevel, apply_ite Proc.timeInQueue])
      | clockTicks =>
          rcases clockTicksStep_inv h with ⟨-, -, rfl⟩ | ⟨-, rfl⟩ <;>
            exact levelTime_of_keeps hhead rfl (by simp)
      | clockRelease =>
          obtain ⟨-, rfl⟩ := releaseStep_inv h
          exact levelTime_of_keeps hhead rfl (by simp)
      | waitStart | pauseStart | acquireLock | sleepRelock =>
          obtain ⟨-, rfl⟩ := acquireStep_inv h
          exact levelTime_of_keeps hhead rfl (by simp)
      | releaseLock =>
          obtain ⟨-, rfl⟩ := releaseStep_inv h
          exact levelTime_of_keeps hhead rfl (by simp)
      | kerneltrapTail whichDev =>
          rcases kerneltrapTailStep_inv h with ⟨q, -, -, hy⟩ | ⟨-, rfl⟩
          · obtain ⟨-, rfl⟩ := yield_inv hy
            exact levelTime_of_keeps hhead rfl (by simp [apply_ite Proc.queueLevel, apply_ite Proc.timeInQueue])
          · exact levelTime_of_keeps hhead rfl (by simp)
      | usertrapTail whichDev =>
          obtain ⟨q, -, h⟩ := onProcess_inv h
          rcases usertrapTailStep_inv h with ⟨-, ⟨-, rfl⟩ | ⟨-, -, hy⟩ | ⟨-, -, rfl⟩⟩
          · exact levelTime_of_keeps hhead rfl (by simp)
          · obtain ⟨-, rfl⟩ := yield_inv hy
            exact levelTime_of_keeps hhead rfl (by simp [apply_ite Proc.queueLevel, apply_ite Proc.timeInQueue])
          · exact levelTime_of_keeps hhead rfl (by simp)
      | sysret v =>
          obtain ⟨q, -, h⟩ := onProcess_inv h
          cases h
          exact levelTime_of_keeps hhead rfl (by simp [apply_ite Proc.queueLevel, apply_ite Proc.timeInQueue])
      | forkParent np pid =>
          obtain ⟨q, -, h⟩ := onProcess_inv h
          obtain ⟨-, rfl⟩ := forkParentStep_inv h
          exact levelTime_of_keeps hhead rfl (by simp [apply_ite Proc.queueLevel, apply_ite Proc.timeInQueue])
      | forkRunnable np pid =>
          obtain ⟨q, -, h⟩ := onProcess_inv h
          obtain ⟨-, rfl⟩ := forkRunnableStep_inv h
          exact levelTime_of_keeps hhead rfl (by simp [enqueue_proc, apply_ite Proc.queueLevel, apply_ite Proc.timeInQueue])
      | exitStart status =>
          obtain ⟨q, -, h⟩ := onProcess_inv h
          obtain ⟨-, -, rfl⟩ := exitStartStep_inv h
          exact levelTime_of_keeps hhead rfl (by simp)
      | exitReparent status i =>
          obtain ⟨q, -, h⟩ := onProcess_inv h
          cases h
          refine levelTime_of_keeps hhead rfl ?_
          rw [exitReparentStep_table]
          split_ifs <;> simp [apply_ite Proc.queueLevel, apply_ite Proc.timeInQueue]
      | exitZombie status =>
          obtain ⟨q, -, h⟩ := onProcess_inv h
          obtain ⟨-, -, rfl⟩ := exitZombieStep_inv h
          exact levelTime_of_keeps hhead rfl (by simp [apply_ite Proc.queueLevel, apply_ite Proc.timeInQueue])
      | killScan pid i =>
          obtain ⟨q, -, h⟩ := onProcess_inv h
          rcases killScanStep_inv h with ⟨hi, -, -, rfl⟩ | ⟨hi, -, -, rfl⟩ | ⟨-, rfl⟩ <;>
            exact levelTime_of_keeps hhead rfl (by simp [apply_ite Proc.queueLevel, apply_ite Proc.timeInQueue])
      | pauseLoop ticks0 n =>
          obtain ⟨q, -, h⟩ := onProcess_inv h
          rcases pauseLoopStep_inv h with ⟨-, -, -, -, rfl⟩ | ⟨-, -, -, hsl⟩ | ⟨-, -, rfl⟩
          · exact levelTime_of_keeps hhead rfl (by simp [apply_ite Proc.queueLevel, apply_ite Proc.timeInQueue])
          · obtain ⟨-, -, rfl⟩ := sleep_inv hsl
            exact levelTime_of_keeps hhead rfl (by simp [apply_ite Proc.queueLevel, apply_ite Proc.timeInQueue])
          · exact levelTime_of_keeps hhead rfl (by simp [apply_ite Proc.queueLevel, apply_ite Proc.timeInQueue])
      | sleepCall chan lk =>
          obtain ⟨q, -, h⟩ := onProcess_inv h
          obtain ⟨-, -, rfl⟩ := sleep_inv h
          exact levelTime_of_keeps hhead rfl (by simp [apply_ite Proc.queueLevel, apply_ite Proc.timeInQueue])
      | clockQuantum =>
          rcases clockQuantumStep_inv h with ⟨q, hme, hrun, hq, hl, hy⟩ | ⟨q, hme, hrun, hq, hl, hy⟩ |
            ⟨q, hme, hrun, hq, rfl⟩ | ⟨hnone, rfl⟩
          · obtain ⟨-, rfl⟩ := yield_inv hy
            by_cases hp : p = q
            · subst hp
              simp [LevelTimeStep, levelEntry, hhead, hme, hrun, hq, hl]
            · refine levelTime_same ?_ ?_ (by simp [hp])
              · simp [levelEntry, hhead, hme, Ne.symm hp]
              · simp [clockHit, hhead, hme, Ne.symm hp]
          · obtain ⟨-, rfl⟩ := yield_inv hy
            by_cases hp : p = q
            · subst hp
              simp [LevelTimeStep, levelEntry, clockHit, hhead, hme, hrun, hq, hl]
            · refine levelTime_same ?_ ?_ (by simp [hp])
              · simp [levelEntry, hhead, hme, Ne.symm hp]
              · simp [clockHit, hhead, hme, Ne.symm hp]
          · by_cases hp : p = q
            · subst hp
              simp [LevelTimeStep, levelEntry, clockHit, hhead, hme, hrun, Nat.not_le.mpr hq]
            · refine levelTime_same ?_ ?_ (by simp [hp])
              · simp [levelEntry, hhead, hme, Ne.symm hp]
              · simp [clockHit, hhead, hme, Ne.symm hp]
          · refine levelTime_same ?_ ?_ (by simp)
            · simp only [levelEntry, hhead]
              split_ifs with hentry
              · exact absurd hentry.2.1 (hnone p hentry.1)
              · rfl
            · simpa [clockHit, hhead] using hnone p
      | boostScan i =>
          rcases boostScanStep_inv h with ⟨hi, -, rfl⟩ | ⟨hi, rfl⟩
          · by_cases hentry : i = p.val ∧ (s.table.proc p).state = .runnable
            · obtain ⟨rfl, hrun⟩ := hentry
              simp [LevelTimeStep, levelEntry, hhead, hrun, boostIter_proc]
            · refine levelTime_same (by simp [levelEntry, hhead, hentry]) (by simp [clockHit, hhead]) ?_
              by_cases hp : p = ⟨i, hi⟩
              · subst hp
                simp_all [boostIter_proc]
              · simp [boostIter_proc, hp, apply_ite Proc.queueLevel, apply_ite Proc.timeInQueue]
          · have hne : i ≠ p.val := by omega
            exact levelTime_same (by simp [levelEntry, hhead, hne]) (by simp [clockHit, hhead]) (by simp)
      | boostprocScan pid i =>
          obtain ⟨q, -, h⟩ := onProcess_inv h
          rcases boostprocScanStep_inv h with ⟨hi, -, hpid, rfl⟩ | ⟨hi, -, hpid, rfl⟩ | ⟨hi, rfl⟩
          · by_cases hp : p = ⟨i, hi⟩
            · subst hp
              simp [LevelTimeStep, levelEntry, hhead, hpid, apply_ite Proc.queueLevel, apply_ite Proc.timeInQueue]
            · have hne : i ≠ p.val := fun h => hp (Fin.ext h.symm)
              exact levelTime_same (by simp [levelEntry, hhead, hne]) (by simp [clockHit, hhead])
                (by simp [hp, apply_ite Proc.queueLevel, apply_ite Proc.timeInQueue])
          · refine levelTime_same ?_ (by simp [clockHit, hhead]) (by simp)
            by_cases hp : p = ⟨i, hi⟩
            · subst hp
              simp [levelEntry, hhead, hpid]
            · have hne : i ≠ p.val := fun h => hp (Fin.ext h.symm)
              simp [levelEntry, hhead, hne]
          · have hne : i ≠ p.val := by omega
            exact levelTime_same (by simp [levelEntry, hhead, hne]) (by simp [clockHit, hhead])
              (by simp [apply_ite Proc.queueLevel, apply_ite Proc.timeInQueue])
      | forkAlloc i =>
          obtain ⟨q, -, h⟩ := onProcess_inv h
          rcases forkAllocStep_inv h with ⟨hi, -, hunused, -, rfl⟩ | ⟨hi, -, hunused, -, rfl⟩ |
            ⟨hi, -, hunused, rfl⟩ | ⟨hi, rfl⟩
          · by_cases hp : p = ⟨i, hi⟩
            · subst hp
              simp [LevelTimeStep, levelEntry, hhead, hunused, allocprocFound]
            · have hne : i ≠ p.val := fun h => hp (Fin.ext h.symm)
              exact levelTime_same (by simp [levelEntry, hhead, hne]) (by simp [clockHit, hhead])
                (by simp [allocprocFound, hp])
          · by_cases hp : p = ⟨i, hi⟩
            · subst hp
              simp [LevelTimeStep, levelEntry, hhead, hunused, allocprocFound, apply_ite Proc.queueLevel,
                apply_ite Proc.timeInQueue]
            · have hne : i ≠ p.val := fun h => hp (Fin.ext h.symm)
              exact levelTime_same (by simp [levelEntry, hhead, hne]) (by simp [clockHit, hhead])
                (by simp [allocprocFound, hp, apply_ite Proc.queueLevel, apply_ite Proc.timeInQueue])
          · refine levelTime_same ?_ (by simp [clockHit, hhead]) (by simp)
            by_cases hp : p = ⟨i, hi⟩
            · subst hp
              simp [levelEntry, hhead, hunused]
            · have hne : i ≠ p.val := fun h => hp (Fin.ext h.symm)
              simp [levelEntry, hhead, hne]
          · have hne : i ≠ p.val := by omega
            exact levelTime_same (by simp [levelEntry, hhead, hne]) (by simp [clockHit, hhead])
              (by simp [apply_ite Proc.queueLevel, apply_ite Proc.timeInQueue])
      | waitScan addr i havekids =>
          obtain ⟨q, hq, h⟩ := onProcess_inv h
          rw [hq] at hhead
          rcases waitScanStep_inv h with ⟨hi, -, -, -, hfail, hok, hret⟩ |
            ⟨hi, hpar, -, hzombie, hcopy, hret⟩ | ⟨hi, -, -, hzombie, rfl⟩ | ⟨hi, hpar, rfl⟩ |
            ⟨hi, -, -, hret⟩ | ⟨hi, -, -, hsl⟩
          · obtain ⟨-, rfl⟩ := waitReturn_inv hret
            exact levelTime_same (by simp [levelEntry, hq, hhead, hfail, hok]) (by simp [clockHit, hq, hhead])
              (by simp [apply_ite Proc.queueLevel, apply_ite Proc.timeInQueue])
          · obtain ⟨-, rfl⟩ := waitReturn_inv hret
            by_cases hp : p = ⟨i, hi⟩
            · subst hp
              simp [LevelTimeStep, levelEntry, hq, hhead, hpar, hzombie, hcopy,
                apply_ite Proc.queueLevel, apply_ite Proc.timeInQueue]
            · have hne : i ≠ p.val := fun h => hp (Fin.ext h.symm)
              exact levelTime_same (by simp [levelEntry, hq, hhead, hne]) (by simp [clockHit, hq, hhead])
                (by simp [hp, apply_ite Proc.queueLevel, apply_ite Proc.timeInQueue])
          · refine levelTime_same ?_ (by simp [clockHit, hq, hhead]) (by simp)
            by_cases hp : p = ⟨i, hi⟩
            · subst hp
              simp [levelEntry, hq, hhead, hzombie]
            · have hne : i ≠ p.val := fun h => hp (Fin.ext h.symm)
              simp [levelEntry, hq, hhead, hne]
          · refine levelTime_same ?_ (by simp [clockHit, hq, hhead]) (by simp)
            by_cases hp : p = ⟨i, hi⟩
            · subst hp
              simp [levelEntry, hq, hhead, hpar]
            · have hne : i ≠ p.val := fun h => hp (Fin.ext h.symm)
              simp [levelEntry, hq, hhead, hne]
          · obtain ⟨-, rfl⟩ := waitReturn_inv hret
            have hne : i ≠ p.val := by omega
            exact levelTime_same (by simp [levelEntry, hq, hhead, hne]) (by simp [clockHit, hq, hhead])
              (by simp [apply_ite Proc.queueLevel, apply_ite Proc.timeInQueue])
          · obtain ⟨-, -, rfl⟩ := sleep_inv hsl
            have hne : i ≠ p.val := by omega
            exact levelTime_same (by simp [levelEntry, hq, hhead, hne]) (by simp [clockHit, hq, hhead])
              (by simp [apply_ite Proc.queueLevel, apply_ite Proc.timeInQueue])
  | syscall c call =>
      obtain ⟨q, -, -, -, ⟨-, rfl⟩ | ⟨-, rfl⟩⟩ := usertrapSyscall_inv h <;>
        exact levelTime_same rfl rfl (by simp)
  | timer c =>
      obtain ⟨-, -, rfl⟩ := step_timer_inv h
      exact levelTime_same rfl rfl (by simp)
  | devintr c chan lk =>
      obtain ⟨-, rfl⟩ := step_devintr_inv h
      exact levelTime_same rfl rfl (by simp)
  | elapse d =>
      cases step_elapse_inv h
      exact levelTime_same rfl rfl ⟨rfl, rfl⟩


/-! ## Bounds, counts and level changes -/

theorem levelEntry_demotion {a : Action} {p : Slot} (h : levelEntry s p a = some .demotion) :
    clockHit s p a = true ∧
      getQuantum (s.table.proc p).queueLevel ≤ (s.table.proc p).timeInQueue + 1 ∧
      (s.table.proc p).queueLevel < mlfqLevels - 1 := by
  cases a with
  | exec c ok =>
      cases hhead : (s.frames (s.current c)).head? with
      | none => simp [levelEntry, hhead] at h
      | some f =>
          cases f <;> simp [levelEntry, hhead] at h
          obtain ⟨hme, hrun, hq, hl⟩ := h
          exact ⟨by simp [clockHit, hhead, hme, hrun], hq, by omega⟩
  | _ => cases h

theorem levelEntry_of_clockHit {a : Action} {p : Slot} (h : clockHit s p a = true) :
    levelEntry s p a =
      if getQuantum (s.table.proc p).queueLevel ≤ (s.table.proc p).timeInQueue + 1 ∧
        (s.table.proc p).queueLevel < mlfqLevels - 1 then some .demotion else none := by
  cases a with
  | exec c ok =>
      simp only [clockHit, decide_eq_true_eq] at h
      obtain ⟨hhead, hme, hrun⟩ := h
      simp [levelEntry, hhead, hme, hrun]
  | _ => cases h

/-- Every entry's level is one of the `MLFQ_LEVELS` and its `time_in_queue` is
below the quantum of that level. -/
def AllotmentBounded (s : Kernel) : Prop :=
  ∀ p, (s.table.proc p).queueLevel < mlfqLevels ∧
    (s.table.proc p).timeInQueue < getQuantum (s.table.proc p).queueLevel

instance (s : Kernel) : Decidable (AllotmentBounded s) :=
  inferInstanceAs (Decidable (∀ p : Slot, (s.table.proc p).queueLevel < mlfqLevels ∧
    (s.table.proc p).timeInQueue < getQuantum (s.table.proc p).queueLevel))

theorem allotmentBounded_boot : AllotmentBounded boot := by
  decide

theorem allotmentBounded_step {a : Action} (h : step s a = some s') (hb : AllotmentBounded s) :
    AllotmentBounded s' := by
  intro p
  obtain ⟨hl, ht⟩ := hb p
  have hstep := step_levelTime h p
  unfold LevelTimeStep at hstep
  cases hE : levelEntry s p a with
  | some e =>
      cases e with
      | demotion =>
          obtain ⟨-, -, hdemote⟩ := levelEntry_demotion hE
          rw [hE] at hstep
          obtain ⟨hl', ht'⟩ := hstep
          exact ⟨by omega, by rw [ht']; exact getQuantum_pos _⟩
      | boost | boostproc | allocproc | freeproc =>
          rw [hE] at hstep
          obtain ⟨hl', ht'⟩ := hstep
          exact ⟨by rw [hl']; decide, by rw [ht']; exact getQuantum_pos _⟩
  | none =>
      rw [hE] at hstep
      obtain ⟨hl', ht'⟩ := hstep
      refine ⟨hl' ▸ hl, ?_⟩
      rw [hl', ht']
      split_ifs <;> first | exact getQuantum_pos _ | omega

theorem reachable_allotmentBounded {s : Kernel} (h : Reachable s) : AllotmentBounded s :=
  StepSystem.Reachable.invariant allotmentBounded_boot
    (fun _ _ _ _ hb hstep => allotmentBounded_step hstep hb) h

/-! ## Ticks charged since a level was entered -/

/-- One step of the count of `clockintr` calls that found `p` `RUNNING` since
`p` last entered a level. -/
def chargeStep (p : Slot) (n : Nat) (x : Kernel × Action) : Nat :=
  if (levelEntry x.1 p x.2).isSome then 0 else if clockHit x.1 p x.2 then n + 1 else n

/-- The ticks charged to `p` along an executed trace since it last entered a level. -/
def chargedTicks (p : Slot) (tr : List (Kernel × Action)) : Nat := tr.foldl (chargeStep p) 0

/-- `p`'s `time_in_queue` counts the `n` charged ticks, modulo the quantum at
the bottom level. -/
def CountedAt (s : Kernel) (p : Slot) (n : Nat) : Prop :=
  (s.table.proc p).timeInQueue =
    if (s.table.proc p).queueLevel = mlfqLevels - 1 then n % getQuantum (mlfqLevels - 1) else n

instance (s : Kernel) (p : Slot) (n : Nat) : Decidable (CountedAt s p n) :=
  inferInstanceAs (Decidable ((s.table.proc p).timeInQueue = _))

theorem countedAt_step {a : Action} {p : Slot} {n : Nat} (h : step s a = some s')
    (hl : (s.table.proc p).queueLevel < mlfqLevels) (hc : CountedAt s p n) :
    CountedAt s' p (chargeStep p n (s, a)) := by
  have hstep := step_levelTime h p
  unfold LevelTimeStep at hstep
  unfold CountedAt at hc ⊢
  cases hE : levelEntry s p a with
  | some e =>
      -- entering a level resets both the field and the count
      have ht' : (s'.table.proc p).timeInQueue = 0 := by
        cases e <;> rw [hE] at hstep <;> exact hstep.2
      simp [chargeStep, hE, ht']
  | none =>
      rw [hE] at hstep
      obtain ⟨hl', ht'⟩ := hstep
      rw [ht', hl']
      cases hH : clockHit s p a with
      | false => simpa [chargeStep, hE, hH] using hc
      | true =>
          simp only [chargeStep, hE, hH, Option.isSome_none, Bool.false_eq_true, if_false, if_true]
          by_cases hbottom : (s.table.proc p).queueLevel = mlfqLevels - 1
          · have hq3 : getQuantum (mlfqLevels - 1) = 16 := rfl
            rw [if_pos hbottom, hq3] at hc
            rw [if_pos hbottom, hbottom, hq3, hc]
            split_ifs <;> omega
          · -- above it the charged tick does not reach the quantum, or it would demote
            have hnodemote := levelEntry_of_clockHit hH
            rw [hE, eq_comm, ite_eq_right_iff] at hnodemote
            have hbelow : ¬ getQuantum (s.table.proc p).queueLevel ≤ (s.table.proc p).timeInQueue + 1 :=
              fun hq => nomatch hnodemote ⟨hq, by omega⟩
            rw [if_neg hbottom] at hc ⊢
            rw [if_neg hbelow, hc]

theorem countedAt_run {p : Slot} {as : List Action} {s₀ s : Kernel} {n : Nat}
    (hreach : Reachable s₀) (hrun : run step s₀ as = some s) (hc : CountedAt s₀ p n) :
    CountedAt s p ((trace step s₀ as).foldl (chargeStep p) n) := by
  induction as generalizing s₀ n with
  | nil =>
      cases hrun
      exact hc
  | cons a as ih =>
      rw [run_cons, Option.bind_eq_some_iff] at hrun
      obtain ⟨s₁, hstep, hrest⟩ := hrun
      have hc₁ := countedAt_step hstep (reachable_allotmentBounded hreach p).1 hc
      simpa [trace, hstep] using ih (.step a hreach hstep) hrest hc₁

theorem countedAt_boot (p : Slot) : CountedAt boot p 0 := by
  revert p
  decide

theorem countedAt_chargedTicks {as : List Action} {s : Kernel} (hrun : run step boot as = some s)
    (p : Slot) : CountedAt s p (chargedTicks p (trace step boot as)) :=
  countedAt_run .init hrun (countedAt_boot p)

/-- The MLFQ allotment law.  Every `RUNNABLE`, `RUNNING` or `SLEEPING` process
has a level below `MLFQ_LEVELS` and a `time_in_queue` below its quantum; along
every run, `time_in_queue` counts the `clockintr` calls that found the process
`RUNNING` since it last entered its level (modulo the bottom quantum at the
bottom level); and a step changes a level only by a demotion when that count
reaches the quantum, or to 0 by a boost or by `allocproc` or `freeproc`. -/
theorem allotment_law :
    (∀ s, Reachable s → ∀ p, ((s.table.proc p).state = .runnable ∨
        (s.table.proc p).state = .running ∨ (s.table.proc p).state = .sleeping) →
      (s.table.proc p).queueLevel < mlfqLevels ∧
        (s.table.proc p).timeInQueue < getQuantum (s.table.proc p).queueLevel) ∧
    (∀ as s, run step boot as = some s → ∀ p, CountedAt s p (chargedTicks p (trace step boot as))) ∧
    (∀ as s a s' p, run step boot as = some s → step s a = some s' →
      (s'.table.proc p).queueLevel ≠ (s.table.proc p).queueLevel →
      (clockHit s p a ∧ (s.table.proc p).queueLevel < mlfqLevels - 1 ∧
          chargedTicks p (trace step boot as) + 1 = getQuantum (s.table.proc p).queueLevel ∧
          (s'.table.proc p).queueLevel = (s.table.proc p).queueLevel + 1) ∨
        ((levelEntry s p a = some .boost ∨ levelEntry s p a = some .boostproc ∨
            levelEntry s p a = some .allocproc ∨ levelEntry s p a = some .freeproc) ∧
          (s'.table.proc p).queueLevel = 0)) := by
  refine ⟨fun s hs p _ => reachable_allotmentBounded hs p, fun as s hrun p =>
    countedAt_chargedTicks hrun p, ?_⟩
  intro as s a s' p hrun hstep hne
  have hstep' := step_levelTime hstep p
  unfold LevelTimeStep at hstep'
  cases hE : levelEntry s p a with
  | none =>
      rw [hE] at hstep'
      exact absurd hstep'.1 hne
  | some e =>
      rw [hE] at hstep'
      cases e with
      | demotion =>
          obtain ⟨hH, hq, hl⟩ := levelEntry_demotion hE
          have hb := (reachable_allotmentBounded (reachable_of_run .init hrun) p).2
          have hc := countedAt_chargedTicks hrun p
          rw [CountedAt, if_neg (by omega)] at hc
          exact .inl ⟨hH, hl, by omega, hstep'.1⟩
      | boost => exact .inr ⟨.inl rfl, hstep'.1⟩
      | boostproc => exact .inr ⟨.inr (.inl rfl), hstep'.1⟩
      | allocproc => exact .inr ⟨.inr (.inr (.inl rfl)), hstep'.1⟩
      | freeproc => exact .inr ⟨.inr (.inr (.inr rfl)), hstep'.1⟩

end Xv6Mlfq.Quantum
