import Mathlib.Data.List.Pairwise
import Xv6Mlfq.Library.LinkedChain
import Xv6Mlfq.BootRun

/-!
The runqueues as lists: the chain `queue_next` links from each head, which
process a queue reaches, and which processes are held by a scheduler between
two of its steps.  The scheduler's view of the queues is stated here; that
`userinit` leaves the first process `RUNNABLE` on no queue is the first fact
about it.
-/

namespace Xv6Mlfq.Runqueues

open Xv6Mlfq.ProcData
open Xv6Mlfq.State
open Xv6Mlfq.Step
open Xv6Mlfq.BootRun
open LinkedChain
open StepSystem

/-- The `queue_next` link of every process. -/
def queueNext (s : Kernel) (p : Slot) : Option Slot := (s.table.proc p).queueNext

/-- Following `queue_next` from `runqueues[level].head` meets `p`. -/
def QueuedAt (s : Kernel) (level : Nat) (p : Slot) : Prop :=
  Reaches (queueNext s) (s.table.runqueues level).head p

/-- `p` is held by a CPU's scheduler: dequeued and not yet locked and
dispatched, or switched back from and not yet re-enqueued. -/
def inTransit (s : Kernel) (p : Slot) : Bool :=
  (List.finRange activeCpus).any fun c =>
    match (s.frames (.scheduler c)).head? with
    | some (.schedLock _ q) => decide (q = p)
    | some (.schedReturned q) => decide (q = p)
    | _ => false

/-- Every `RUNNABLE` process that no scheduler holds can be dispatched: it is on
the queue of its own level. -/
def RunnableQueued (s : Kernel) : Prop :=
  ∀ p, (s.table.proc p).state = .runnable → inTransit s p = false →
    QueuedAt s (s.table.proc p).queueLevel p

theorem boot_runqueue_head (level : Nat) : (boot.table.runqueues level).head = none := by
  rfl

theorem not_queuedAt_boot (level : Nat) (p : Slot) : ¬ QueuedAt boot level p := by
  unfold QueuedAt
  rw [boot_runqueue_head]
  exact not_reaches_none p

theorem initproc_runnable_unqueued :
    Reachable boot ∧ ¬ RunnableQueued boot ∧ boot.initproc = some 0 ∧
      (boot.table.proc 0).state = .runnable ∧ inTransit boot 0 = false := by
  refine ⟨.init, ?_, by decide, by decide, by decide⟩
  intro hqueued
  exact not_queuedAt_boot _ 0 (hqueued 0 (by decide) (by decide))

/-! ## Integrity of the lists -/

/-- Runqueue integrity: each of the `MLFQ_LEVELS` runqueues is a well-formed
singly linked list, no process is on two of them or twice on one, and every
queued process is `RUNNABLE`. -/
def RunqueuesIntact (s : Kernel) : Prop :=
  ∃ qs : Nat → List Slot,
    (∀ l < mlfqLevels,
      WellFormed (queueNext s) (s.table.runqueues l).head (s.table.runqueues l).tail (qs l)) ∧
    ((List.range mlfqLevels).flatMap qs).Nodup ∧
    ∀ l < mlfqLevels, ∀ p ∈ qs l, (s.table.proc p).state = .runnable

theorem mem_of_head {s : Kernel} {l : Nat} {p : Slot} {xs : List Slot}
    (hchain : Chain (queueNext s) (s.table.runqueues l).head xs)
    (hhead : (s.table.runqueues l).head = some p) : p ∈ xs := by
  apply (hchain.reaches_iff p).mp
  rw [hhead]
  exact .here p

theorem not_runqueuesIntact_of_heads {s : Kernel} {l m : Nat} {p : Slot} (hlm : l ≠ m)
    (hl : l < mlfqLevels) (hm : m < mlfqLevels)
    (hheadl : (s.table.runqueues l).head = some p) (hheadm : (s.table.runqueues m).head = some p) :
    ¬ RunqueuesIntact s := by
  rintro ⟨qs, hwf, hnodup, -⟩
  have hpl : p ∈ qs l := mem_of_head (hwf l hl).1 hheadl
  have hpm : p ∈ qs m := mem_of_head (hwf m hm).1 hheadm
  have : Std.Symm (Function.onFun List.Disjoint qs) := ⟨fun _ _ h => h.symm⟩
  have hdisj := (List.nodup_flatMap.mp hnodup).2.forall
    (List.mem_range.mpr hl) (List.mem_range.mpr hm) hlm
  exact List.disjoint_left.mp hdisj hpl hpm

/-- The first process, demoted to level 1 on CPU 1, yields while its child on
CPU 2 calls `boostproc(0)`: the boost clears the runqueues, CPU 1's scheduler
re-enqueues the process at level 1 after `swtch` returns, and the boost's scan
of its slot enqueues it once more, at level 0. -/
def boostRequeueRun : List Action :=
  execs 1 70 ++ [.syscall 1 .fork] ++ execs 1 5 ++ execs 2 3 ++ [.timer 1] ++ execs 1 8 ++
    [.elapse timerInterval, .timer 1] ++ execs 1 2 ++ [.syscall 2 (.boostproc 0)] ++ execs 2 1 ++
    execs 1 1 ++ execs 2 1

theorem runqueues_intact_fails : ¬ ∀ s, Reachable s → RunqueuesIntact s := by
  intro hall
  obtain ⟨s, hs, hheads⟩ := exists_reachable_of_run (reachable_tickedBoot boostInterval)
    boostRequeueRun
    (fun s => (s.table.runqueues 0).head = some 0 ∧ (s.table.runqueues 1).head = some 0)
    (by decide +kernel)
  exact not_runqueuesIntact_of_heads (by decide) (by decide) (by decide) hheads.1 hheads.2 (hall s hs)

/-! ## Levels of queued processes -/

/-- Queue/level consistency: every process on `runqueues[l]` has
`queue_level == l`. -/
def LevelsConsistent (s : Kernel) : Prop :=
  ∀ l p, QueuedAt s l p → (s.table.proc p).queueLevel = l

/-- The first process is demoted to level 1 on CPU 1 and re-enqueued there;
its child on CPU 2 then calls `boostproc(1)`, which returns 0 and leaves it on
`runqueues[1]` at level 0. -/
def boostprocRun : List Action :=
  execs 1 70 ++ [.syscall 1 .fork] ++ execs 1 5 ++ execs 2 3 ++ [.timer 1] ++ execs 1 8 ++
    [.elapse timerInterval, .timer 1] ++ execs 1 3 ++ [.syscall 2 (.boostproc 1)] ++ execs 2 1

theorem levels_consistent_fails : ¬ ∀ s, Reachable s → LevelsConsistent s := by
  intro hall
  obtain ⟨s, hs, hhead, hlevel⟩ := exists_reachable_of_run (reachable_tickedBoot boostInterval)
    boostprocRun
    (fun s => (s.table.runqueues 1).head = some 0 ∧ (s.table.proc 0).queueLevel = 0)
    (by decide +kernel)
  have hqueued : QueuedAt s 1 0 := by
    unfold QueuedAt
    rw [hhead]
    exact .here 0
  have hone := hall s hs 1 0 hqueued
  omega

/-! ## Strict priority -/

/-- The resumption points of one iteration's level scan. -/
def inLevelScan : Option Frame → Bool
  | some (.schedScan _) => true
  | some (.schedLock _ _) => true
  | _ => false

/-- Strict priority, with one iteration's level scan (from the loop over the
levels to the `swtch` it ends in) run by its CPU without interleaving: when the
scan dispatches from `runqueues[l]`, no runqueue of a lower number held a
`RUNNABLE` process at its start. -/
def StrictPriority : Prop :=
  ∀ s c k s' l p, Reachable s → (s.frames (.scheduler c)).head? = some (.schedScan 0) →
    run step s (execs c k) = some s' →
    (trace step s (execs c k)).all (fun x => inLevelScan (x.1.frames (.scheduler c)).head?) →
    (s'.frames (.scheduler c)).head? = some (.schedSwtch l p) →
    ∀ m < l, ∀ q, QueuedAt s m q → (s.table.proc q).state ≠ .runnable

/-- Three processes: the first runs on CPU 1, a child is demoted to level 1 on
CPU 2, and a second child on CPU 0 calls `boostproc(0)`.  The boost clears the
runqueues while the first child waits in CPU 2's scheduler to be re-enqueued at
level 1, and scans the first process's slot while CPU 1's scheduler has
dequeued it and not yet taken its lock; CPU 1 then dispatches it, and the scan
of the child's slot appends the child behind it on `runqueues[0]`.  CPU 2's
scheduler ends at the start of its level scan. -/
def staleHeadRun : List Action :=
  execs 1 70 ++ [.syscall 1 .fork] ++ execs 1 5 ++ [.syscall 1 .fork] ++ execs 1 6 ++
    execs 2 3 ++ execs 0 3 ++ [.timer 2] ++ execs 2 8 ++ [.elapse timerInterval, .timer 2] ++
    execs 2 2 ++ [.timer 1] ++ execs 1 7 ++ [.syscall 0 (.boostproc 0)] ++ execs 0 1 ++
    execs 2 1 ++ execs 0 1 ++ execs 1 1 ++ execs 0 66 ++ execs 2 1

theorem strict_priority_fails : ¬ StrictPriority := by
  intro hall
  obtain ⟨s, s', hs, hrun, hscan, htrace, hswtch, hhead, hnext, hstate⟩ :=
    exists_reachable_of_runs (reachable_tickedBoot boostInterval) staleHeadRun (execs 2 4)
      (fun s s' => (s.frames (.scheduler 2)).head? = some (.schedScan 0) ∧
        (trace step s (execs 2 4)).all
          (fun x => inLevelScan (x.1.frames (.scheduler 2)).head?) = true ∧
        (s'.frames (.scheduler 2)).head? = some (.schedSwtch 1 1) ∧
        (s.table.runqueues 0).head = some 0 ∧ (s.table.proc 0).queueNext = some 1 ∧
        (s.table.proc 1).state = .runnable)
      (by decide +kernel)
  -- the runnable child is second on `runqueues[0]`, behind the running process
  have hqueued : QueuedAt s 0 1 := by
    unfold QueuedAt
    rw [hhead]
    exact .later (by rw [queueNext, hnext]; exact .here 1)
  exact hall s 2 4 s' 1 1 hs hscan hrun htrace hswtch 0 Nat.zero_lt_one 1 hqueued hstate

end Xv6Mlfq.Runqueues
