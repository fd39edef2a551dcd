import Xv6Mlfq.Scans

/-!
The first ticks after boot.  `userinit` leaves the first process on no
runqueue, so every run of the kernel starts with the schedulers idling in
their `intr_on()` window while CPU 0's timer fires `BOOST_INTERVAL` times;
only the boost that follows lets any process run.  A timer period of an idle
CPU 0 is computed here once, for every state in which it can be taken, and
then iterated.
-/

namespace Xv6Mlfq.BootRun

open Xv6Mlfq.ProcData
open Xv6Mlfq.State
open Xv6Mlfq.State.Kernel
open Xv6Mlfq.Step
open Xv6Mlfq.Scans
open StepSystem

theorem foldl_wakeupIter_of_no_sleeper (chan : Option Chan) (me : Option Slot)
    (tb : Table) (hnone : ∀ p, ¬ ((tb.proc p).state = .sleeping ∧ (tb.proc p).chan = chan)) :
    ∀ ps : List Slot, ps.foldl (wakeupIter chan me) tb = tb := by
  intro ps
  induction ps with
  | nil => rfl
  | cons p ps ih =>
      have hstep : wakeupIter chan me tb p = tb := by
        unfold wakeupIter
        split_ifs with hme hsleep
        · rfl
        · exact absurd hsleep (hnone p)
        · rfl
      rw [List.foldl_cons, hstep, ih]

/-- One timer period on CPU 0 while its scheduler idles: time passes to the
deadline, the interrupt is taken in the scheduler's window, `clockintr` counts
the tick, `wakeup(&ticks)` scans the table, and the timer is re-armed. -/
def idleTick (d : Nat) : List Action :=
  [.elapse d, .timer 0] ++ List.replicate 70 (.exec 0 true)

/-- The kernel after an idle timer period of CPU 0 lasting `d`. -/
def tickIdle (s : Kernel) (d : Nat) : Kernel :=
  { s with time := s.time + d, ticks := s.ticks + 1,
           ticksSinceBoost := s.ticksSinceBoost + 1 }.setCpu 0
    fun x => { x with stimecmp := s.time + d + timerInterval }

/-- CPU 0's scheduler idles in its `intr_on()` window with its timer due within
`d`, no scheduler holds a `p->lock`, `tickslock` is free, and no process sleeps
on `&ticks`. -/
structure IdleCpu0 (s : Kernel) (d : Nat) : Prop where
  top : s.frames (.scheduler 0) = [.schedTop]
  noProc : s.myproc 0 = none
  ticksFree : s.holder .tickslock = none
  unlocked : ∀ p, s.procLocked p = false
  noSleeper : ∀ p, ¬ ((s.table.proc p).state = .sleeping ∧ (s.table.proc p).chan = some .ticks)
  due : (s.cpus 0).stimecmp ≤ s.time + d

theorem run_idleTick {s : Kernel} {d : Nat} (h : IdleCpu0 s d) :
    run step s (idleTick d) = some (tickIdle s d) := by
  have hnp : (s.cpus 0).proc = none := h.noProc
  have htrap : run step s [.elapse d, .timer 0] = some ({ s with time := s.time + d }.setFrames
      (.scheduler 0) [.clockTicks, .kerneltrapTail 2, .schedTop]) := by
    simp [run, step, trap, intrEnabled, current, h.top, h.due]
  rw [show idleTick d = [.elapse d, .timer 0] ++ (.exec 0 true ::
      (List.replicate (nproc + 1 - 0) (.exec 0 true) ++ List.replicate 4 (.exec 0 true))) from rfl,
    run_append_of_run htrap,
    run_cons_of_step _ (by
      rw [step_exec_scheduler .clockTicks [.kerneltrapTail 2, .schedTop] (by simp)
        (fun _ _ => Frame.noConfusion)]
      simp [execFrame, clockTicksStep, h.ticksFree]; rfl)]
  -- `wakeup(&ticks)` runs uninterrupted and finds no sleeper
  rw [run_append, run_wakeupScan true (Nat.zero_le _) ?htop ?hfree, Option.bind_some]
  case htop =>
    rw [current_eq_scheduler (f := .wakeupScan (some .ticks) 0) rfl (fun _ _ => Frame.noConfusion)]
    rfl
  case hfree =>
    intro p _
    have hs := h.unlocked p
    simp only [procLocked, List.any_eq_false, decide_eq_true_eq] at hs ⊢
    intro c hc
    by_cases hc0 : c = 0
    · subst hc0
      simp
    · simpa [hc0] using hs c hc
  rw [mapTable_eq_self (foldl_wakeupIter_of_no_sleeper _ _ _ h.noSleeper _),
    current_eq_scheduler (f := .wakeupScan (some .ticks) 0) rfl (fun _ _ => Frame.noConfusion),
    setFrames_setFrames,
    show List.replicate 4 (Action.exec 0 true) =
      [.exec 0 true, .exec 0 true, .exec 0 true, .exec 0 true] from rfl]
  rw [run_cons_of_step _ (by
      rw [step_exec_scheduler .clockRelease [.clockQuantum, .kerneltrapTail 2, .schedTop] (by simp)
        (fun _ _ => Frame.noConfusion)]
      simp [execFrame, releaseStep, holds]; rfl),
    run_cons_of_step _ (by
      rw [step_exec_scheduler .clockQuantum [.kerneltrapTail 2, .schedTop] (by simp)
        (fun _ _ => Frame.noConfusion)]
      simp [execFrame, clockQuantumStep, myproc, hnp]; rfl),
    run_cons_of_step _ (by
      rw [step_exec_scheduler .clockRearm [.kerneltrapTail 2, .schedTop] (by simp)
        (fun _ _ => Frame.noConfusion)]
      simp [execFrame, clockRearmStep]; rfl),
    run_cons_of_step _ (by
      rw [step_exec_scheduler (.kerneltrapTail 2) [.schedTop] (by simp)
        (fun _ _ => Frame.noConfusion)]
      simp [execFrame, kerneltrapTailStep, myproc, hnp]; rfl),
    run_nil, Option.some.injEq]
  refine Kernel.ext rfl rfl rfl rfl rfl rfl rfl rfl ?_ ?_
  · funext l
    by_cases hl : l = .tickslock
    · simp [tickIdle, hl, h.ticksFree]
    · simp [tickIdle, hl]
  · funext u
    by_cases hu : u = .scheduler 0
    · simp [tickIdle, hu, h.top]
    · simp [tickIdle, hu]

theorem IdleCpu0.tickIdle {s : Kernel} {d : Nat} (h : IdleCpu0 s d) :
    IdleCpu0 (tickIdle s d) timerInterval where
  top := h.top
  noProc := by simpa [BootRun.tickIdle, myproc] using h.noProc
  ticksFree := h.ticksFree
  unlocked := h.unlocked
  noSleeper := h.noSleeper
  due := by simp [BootRun.tickIdle]

/-- `k` idle timer periods of CPU 0, each of one `timerInterval`. -/
def idleTicks : Nat → List Action
  | 0 => []
  | k + 1 => idleTicks k ++ idleTick timerInterval

/-- The kernel after `k` idle timer periods of CPU 0 from `s`. -/
def tickIdleN (s : Kernel) : Nat → Kernel
  | 0 => s
  | k + 1 => tickIdle (tickIdleN s k) timerInterval

theorem run_idleTicks {s : Kernel} (h : IdleCpu0 s timerInterval) (k : Nat) :
    run step s (idleTicks k) = some (tickIdleN s k) ∧ IdleCpu0 (tickIdleN s k) timerInterval := by
  induction k with
  | zero => exact ⟨rfl, h⟩
  | succ k ih =>
      obtain ⟨hrun, hidle⟩ := ih
      exact ⟨by rw [idleTicks, run_append_of_run hrun, run_idleTick hidle]; rfl, hidle.tickIdle⟩

theorem idleCpu0_boot : IdleCpu0 boot timerInterval where
  top := rfl
  noProc := rfl
  ticksFree := rfl
  unlocked := by decide
  noSleeper := by decide
  due := by decide

/-- The kernel when CPU 0 has counted `k` ticks since boot, all idle. -/
def tickedBoot (k : Nat) : Kernel := tickIdleN boot k

theorem reachable_tickedBoot (k : Nat) : Reachable (tickedBoot k) :=
  reachable_of_run .init (run_idleTicks idleCpu0_boot k).1

/-! ## Runs from the boosted boot state

Counterexamples are runs from `tickedBoot BOOST_INTERVAL`, checked by
evaluating them: a run `pre` to a state `s` and a continuation `post` from `s`
to `s'`, with a decidable relation between the two. -/

/-- `n` steps of the thread CPU `c` executes. -/
def execs (c : CpuId) (n : Nat) : List Action := List.replicate n (.exec c true)

theorem exists_reachable_of_runs {s₀ : Kernel} (h₀ : Reachable s₀) (pre post : List Action)
    (Q : Kernel → Kernel → Prop) [∀ s s', Decidable (Q s s')]
    (h : (run step s₀ pre).bind (fun s => (run step s post).map fun s' => decide (Q s s')) =
      some true) :
    ∃ s s', Reachable s ∧ run step s post = some s' ∧ Q s s' := by
  obtain ⟨s, hpre, hpost⟩ := Option.bind_eq_some_iff.mp h
  obtain ⟨s', hrun, hQ⟩ := Option.map_eq_some_iff.mp hpost
  exact ⟨s, s', reachable_of_run h₀ hpre, hrun, of_decide_eq_true hQ⟩

theorem exists_reachable_of_run {s₀ : Kernel} (h₀ : Reachable s₀) (pre : List Action)
    (P : Kernel → Prop) [DecidablePred P]
    (h : (run step s₀ pre).map (fun s => decide (P s)) = some true) :
    ∃ s, Reachable s ∧ P s := by
  obtain ⟨s, hrun, hP⟩ := Option.map_eq_some_iff.mp h
  exact ⟨s, reachable_of_run h₀ hrun, of_decide_eq_true hP⟩

end Xv6Mlfq.BootRun
