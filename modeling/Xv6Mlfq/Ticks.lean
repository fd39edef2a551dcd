import Xv6Mlfq.BootRun

/-!
The tick counters.  CPU 0's `clockintr` counts a tick of `ticks` and
`ticks_since_boost` whenever it runs; each run is to consume one expiry of
CPU 0's timer, which `clockintr` re-arms with `w_stimecmp` at its end.
-/

namespace Xv6Mlfq.Ticks

open Xv6Mlfq.ProcData
open Xv6Mlfq.State
open Xv6Mlfq.Step
open Xv6Mlfq.BootRun
open StepSystem

/-- One tick per timer period: a run that counts two ticks has moved CPU 0's
deadline, since each tick consumes a deadline of its own. -/
def OneTickPerDeadline : Prop :=
  ∀ s as s', Reachable s → run step s as = some s' → s.ticks + 2 ≤ s'.ticks →
    (s.cpus 0).stimecmp < (s'.cpus 0).stimecmp

/-- CPU 0's scheduler boosts and runs the first process, which yields after
the first tick of its quantum; once redispatched, it reaches the next deadline
in user mode. -/
def quantumTickRun : List Action :=
  execs 0 70 ++ [.elapse timerInterval, .timer 0] ++ execs 0 74 ++ [.elapse timerInterval]

/-- The tick at that deadline uses up the quantum: `clockintr` yields before it
re-arms the timer, the scheduler re-enqueues the process, and in its
`intr_on()` window takes the still pending interrupt and counts a second tick. -/
def doubleTickRun : List Action := [.timer 0] ++ execs 0 69 ++ [.timer 0] ++ execs 0 1

theorem one_tick_per_deadline_fails : ¬ OneTickPerDeadline := by
  intro hall
  obtain ⟨s, s', hs, hrun, hticks, hdeadline⟩ :=
    exists_reachable_of_runs (reachable_tickedBoot boostInterval) quantumTickRun doubleTickRun
      (fun s s' => s.ticks + 2 ≤ s'.ticks ∧ (s'.cpus 0).stimecmp ≤ (s.cpus 0).stimecmp)
      (by decide +kernel)
  have hlt := hall s _ s' hs hrun hticks
  omega

end Xv6Mlfq.Ticks
