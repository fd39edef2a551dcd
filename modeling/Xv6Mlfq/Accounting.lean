import Xv6Mlfq.Runqueues

/-!
The MLFQ accounting counters: `p->time_slices`, reported by `getprocinfo`, and
`scheduler_stats`, reported by `getschedulerstats`.
-/

namespace Xv6Mlfq.Accounting

open Xv6Mlfq.ProcData
open Xv6Mlfq.State
open Xv6Mlfq.Step
open Xv6Mlfq.BootRun
open Xv6Mlfq.Runqueues
open LinkedChain
open StepSystem

/-- `p->time_slices` counts dispatches: the step that makes `p` `RUNNING`, a
scheduler dispatching it, adds one to it. -/
def TimeSlicesCountDispatches : Prop :=
  ∀ s a s' p, Reachable s → step s a = some s' → (s.table.proc p).state ≠ .running →
    (s'.table.proc p).state = .running →
    (s'.table.proc p).timeSlices = (s.table.proc p).timeSlices + 1

/-- `level_queue_count[l]` is the length of `runqueues[l]`. -/
def QueueCountsExact (s : Kernel) : Prop :=
  ∀ l < mlfqLevels, ∀ xs, Chain (queueNext s) (s.table.runqueues l).head xs →
    s.schedulerStats.levelQueueCount l = xs.length

/-- CPU 1's scheduler runs `priority_boost`, which puts the first process on
`runqueues[0]`. -/
def boostedRun : List Action := execs 1 67

theorem accounting_counters_fail :
    ¬ TimeSlicesCountDispatches ∧ ¬ ∀ s, Reachable s → QueueCountsExact s := by
  constructor
  · intro hall
    obtain ⟨s, s', hs, hrun, hready, hrunning, hslices⟩ :=
      exists_reachable_of_runs (reachable_tickedBoot boostInterval) (boostedRun ++ execs 1 2)
        [.exec 1 true]
        (fun s s' => (s.table.proc 0).state = .runnable ∧ (s'.table.proc 0).state = .running ∧
          (s'.table.proc 0).timeSlices = (s.table.proc 0).timeSlices)
        (by decide +kernel)
    rw [run_singleton] at hrun
    have hcount := hall s _ s' 0 hs hrun (by rw [hready]; decide) hrunning
    omega
  · intro hall
    obtain ⟨s, hs, hhead, hnext, hcount⟩ := exists_reachable_of_run
      (reachable_tickedBoot boostInterval) boostedRun
      (fun s => (s.table.runqueues 0).head = some 0 ∧ queueNext s 0 = none ∧
        s.schedulerStats.levelQueueCount 0 = 0)
      (by decide +kernel)
    have hchain : Chain (queueNext s) (s.table.runqueues 0).head [0] := by
      rw [hhead]
      exact .cons (by rw [hnext]; exact .nil)
    have hlen := hall s hs 0 (by decide) [0] hchain
    rw [hcount] at hlen
    exact absurd hlen (by decide)

end Xv6Mlfq.Accounting
