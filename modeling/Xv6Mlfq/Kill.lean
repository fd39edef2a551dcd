import Xv6Mlfq.BootRun

/-!
`kkill` and the `killed` flag.  `kkill(pid)` compares `pid` with the `pid` of
every entry of the table, `UNUSED` ones included, whose `pid` `freeproc` has set
to 0; and `allocproc` does not clear `killed` when it takes an entry into use.
-/

namespace Xv6Mlfq.Kill

open Xv6Mlfq.ProcData
open Xv6Mlfq.State
open Xv6Mlfq.Step
open Xv6Mlfq.BootRun
open StepSystem

/-- `kkill(pid)` returns 0 only when some process in use has that pid, at the
step where the scan of `P`'s `kill` system call returns. -/
def KillFindsLive : Prop :=
  ∀ s c ok P pid i fs s', Reachable s → s.current c = .process P →
    s.frames (.process P) = .killScan pid i :: fs → step s (.exec c ok) = some s' →
    s'.frames (.process P) = fs → (s'.table.proc P).a0 = 0 →
    ∃ q, (s.table.proc q).state ≠ .unused ∧ (s.table.proc q).pid = pid

/-- Every process starts with `killed == 0`: the step that takes an entry into
use leaves its `killed` flag clear. -/
def CreatedUnkilled : Prop :=
  ∀ s a s' q, Reachable s → step s a = some s' → (s.table.proc q).state = .unused →
    (s'.table.proc q).state ≠ .unused → (s'.table.proc q).killed = false

/-- The first process calls `kill(0)` on CPU 1; the scan passes its own entry
and stops at the `UNUSED` entry 1, whose pid is 0. -/
def killZeroRun : List Action :=
  execs 1 70 ++ [.syscall 1 (.kill 0)] ++ execs 1 1

/-- After `kill(0)` returns, the first process forks: `allocproc` takes entry 1,
still marked killed, and the child becomes `RUNNABLE` with `killed` set. -/
def forkKilledRun : List Action :=
  killZeroRun ++ execs 1 2 ++ [.syscall 1 .fork] ++ execs 1 1

theorem kill_names_live_fails : ¬ KillFindsLive ∧ ¬ CreatedUnkilled := by
  constructor
  · intro hall
    obtain ⟨s, s', hs, hrun, hcur, htop, hret, hzero, hnone⟩ :=
      exists_reachable_of_runs (reachable_tickedBoot boostInterval) killZeroRun [.exec 1 true]
        (fun s s' => s.current 1 = .process 0 ∧
          s.frames (.process 0) = [.killScan 0 1, .usertrapTail 0] ∧
          s'.frames (.process 0) = [.usertrapTail 0] ∧ (s'.table.proc 0).a0 = 0 ∧
          ∀ q, (s.table.proc q).state ≠ .unused → (s.table.proc q).pid ≠ 0)
        (by decide +kernel)
    rw [run_singleton] at hrun
    obtain ⟨q, hq, hpid⟩ := hall s 1 true 0 0 1 [.usertrapTail 0] s' hs hcur htop hrun hret hzero
    exact hnone q hq hpid
  · intro hall
    obtain ⟨s, s', hs, hrun, hunused, hused, hkilled⟩ :=
      exists_reachable_of_runs (reachable_tickedBoot boostInterval) forkKilledRun [.exec 1 true]
        (fun s s' => (s.table.proc 1).state = .unused ∧ (s'.table.proc 1).state = .used ∧
          (s'.table.proc 1).killed = true)
        (by decide +kernel)
    rw [run_singleton] at hrun
    have hclear := hall s _ s' 1 hs hrun hunused (by rw [hused]; decide)
    rw [hkilled] at hclear
    exact absurd hclear (by decide)

end Xv6Mlfq.Kill
