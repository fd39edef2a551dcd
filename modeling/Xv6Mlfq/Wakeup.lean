import Xv6Mlfq.Control
import Xv6Mlfq.BootRun

/-!
`sleep` and `wakeup`.  `sleep(chan, lk)` marks its process `SLEEPING` on `chan`
and releases `lk` in one critical section, under `p->lock`; `wakeup(chan)`
visits every entry while its caller holds the `lk` the sleepers released.  So
a scan has woken every entry it has passed that slept on `chan` releasing
`lk`, and no such sleeper appears behind it while its caller holds `lk`.  The
enqueue `wakeup` performs for a process it wakes also rewrites the
`queue_next` of the old tail of that process's runqueue.
-/

namespace Xv6Mlfq.Wakeup

open Xv6Mlfq.ProcData
open Xv6Mlfq.State
open Xv6Mlfq.State.Kernel
open Xv6Mlfq.Step
open Xv6Mlfq.Inversion
open Xv6Mlfq.Scans
open Xv6Mlfq.Control
open Xv6Mlfq.BootRun
open StepSystem

/-! ## Sleepers and scans -/

/-- `p` sleeps on `ch` and reacquires `lk` when it resumes. -/
def SleepsOn (s : Kernel) (p : Slot) (ch : Chan) (lk : Lock) : Prop :=
  (s.table.proc p).state = .sleeping ∧ (s.table.proc p).chan = some ch ∧
    (s.frames (.process p)).head? = some (.sleepRelock lk)

/-- A thread in `wakeup(ch)` that holds `lk` has woken every entry it has
passed that slept on `ch` releasing `lk`. -/
def WakeupOk (s : Kernel) : Prop :=
  ∀ t ch i rest lk, s.frames t = .wakeupScan (some ch) i :: rest → s.holder lk = some t →
    ∀ p : Slot, p.val < i → ¬ SleepsOn s p ch lk

/-- A table update makes no entry `SLEEPING` and keeps the channel of every sleeper. -/
def NoNewSleeper (tb tb' : Table) : Prop :=
  ∀ p, (tb'.proc p).state = .sleeping →
    (tb.proc p).state = .sleeping ∧ (tb'.proc p).chan = (tb.proc p).chan

/-- A stack that does not resume in the middle of a `wakeup` scan. -/
def ScanFresh (fs : List Frame) : Prop :=
  ∀ ch i rest, fs = .wakeupScan (some ch) i :: rest → i = 0

section Kept

theorem NoNewSleeper.refl (tb : Table) : NoNewSleeper tb tb :=
  fun _ h => ⟨h, rfl⟩

theorem NoNewSleeper.trans {tb₁ tb₂ tb₃ : Table} (h₁ : NoNewSleeper tb₁ tb₂)
    (h₂ : NoNewSleeper tb₂ tb₃) : NoNewSleeper tb₁ tb₃ := by
  intro p hp
  obtain ⟨hp₂, hc₂⟩ := h₂ p hp
  obtain ⟨hp₁, hc₁⟩ := h₁ p hp₂
  exact ⟨hp₁, hc₂.trans hc₁⟩

theorem NoNewSleeper.of_cases {tb tb' : Table}
    (h : ∀ p, (tb'.proc p).state ≠ .sleeping ∨
      (tb'.proc p).state = (tb.proc p).state ∧ (tb'.proc p).chan = (tb.proc p).chan) :
    NoNewSleeper tb tb' := by
  intro p hp
  rcases h p with h | ⟨hst, hch⟩
  · exact absurd hp h
  · exact ⟨hst ▸ hp, hch⟩

theorem NoNewSleeper.setProc {tb : Table} {p : Slot} {f : Proc → Proc}
    (hf : (f (tb.proc p)).state ≠ .sleeping ∨
      (f (tb.proc p)).state = (tb.proc p).state ∧ (f (tb.proc p)).chan = (tb.proc p).chan) :
    NoNewSleeper tb (tb.setProc p f) := by
  refine .of_cases fun q => ?_
  by_cases hq : q = p
  · subst hq
    simpa using hf
  · simp [hq]

theorem NoNewSleeper.enqueue (tb : Table) (p : Slot) : NoNewSleeper tb (enqueue tb p) :=
  .of_cases fun _ => .inr (by simp [enqueue_proc])

theorem NoNewSleeper.dequeue (tb : Table) (level : Nat) : NoNewSleeper tb (dequeue tb level).2 :=
  .of_cases fun _ => .inr (by simp [dequeue_proc])

theorem NoNewSleeper.clearRunqueues (tb : Table) : NoNewSleeper tb (clearRunqueues tb) :=
  .of_cases fun _ => .inr (by simp)

theorem NoNewSleeper.boostIter (tb : Table) (p : Slot) : NoNewSleeper tb (boostIter tb p) := by
  refine .of_cases fun q => .inr ?_
  rw [boostIter_proc]
  split_ifs <;> simp

theorem NoNewSleeper.wakeupIter (chan : Option Chan) (me : Option Slot) (tb : Table) (p : Slot) :
    NoNewSleeper tb (wakeupIter chan me tb p) := by
  refine .of_cases fun q => ?_
  rw [wakeupIter_proc]
  split_ifs with hw hq
  · exact .inl (by simp)
  · exact .inr (by simp)
  · exact .inr ⟨rfl, rfl⟩

theorem NoNewSleeper.setProc_fields {X : Kernel} {p : Slot} {f : Proc → Proc}
    (h : ∀ r, (f r).state = r.state ∧ (f r).chan = r.chan) :
    NoNewSleeper X.table (X.setProc p f).table :=
  NoNewSleeper.setProc (.inr (h _))

theorem NoNewSleeper.setProc_awake {X : Kernel} {p : Slot} {f : Proc → Proc}
    (h : ∀ r, (f r).state ≠ .sleeping) : NoNewSleeper X.table (X.setProc p f).table :=
  NoNewSleeper.setProc (.inl (h _))

theorem NoNewSleeper.setA0 (X : Kernel) (p : Slot) (v : Int) :
    NoNewSleeper X.table (setA0 X p v).table :=
  .setProc_fields fun _ => ⟨rfl, rfl⟩

theorem holder_acquire {X : Kernel} {lk : Lock} {u : Thread} :
    ∀ lk' t, (X.setHolder lk (some u)).holder lk' = some t → t ≠ u → X.holder lk' = some t := by
  intro lk' t h htu
  by_cases hl : lk' = lk
  · subst hl
    simp only [setHolder_holder, if_true, Option.some.injEq] at h
    exact absurd h.symm htu
  · simpa [hl] using h

theorem holder_release {X : Kernel} {lk : Lock} :
    ∀ lk' t, (X.setHolder lk none).holder lk' = some t → X.holder lk' = some t := by
  intro lk' t h
  by_cases hl : lk' = lk
  · subst hl
    simp at h
  · simpa [hl] using h

theorem scanFresh_cons {f : Frame} (hf : ∀ ch i, f ≠ .wakeupScan (some ch) i) (fs : List Frame) :
    ScanFresh (f :: fs) := by
  intro ch i rest h
  injection h with hh
  exact absurd hh (hf ch i)

theorem scanFresh_start (chan : Option Chan) (fs : List Frame) :
    ScanFresh (.wakeupScan chan 0 :: fs) := by
  intro ch i rest h
  injection h with hh
  injection hh with _ hi
  exact hi.symm

theorem scanFresh_nil : ScanFresh [] := fun _ _ _ h => nomatch h

/-- In every stack, the frame above a `wakeup` scan is the `acquire` before it,
and the scan has not started. -/
theorem scanFresh_tail {t : Thread} {f : Frame} {fs : List Frame}
    (h : StackOk t (f :: fs)) : ScanFresh fs := by
  rintro ch i rest rfl
  have htrap : ∀ {r : List Frame}, TrapReturn t r → r ≠ .wakeupScan (some ch) i :: rest := by
    intro r hr
    cases hr <;> simp
  have hhandler : HandlerStack t (f :: .wakeupScan (some ch) i :: rest) → i = 0 := by
    intro hh
    cases hh with
    | ret hr =>
        cases hr with
        | kernel p w hon hs => simp [intrOn] at hon
    | devAcquire => rfl
    | clockTicks hr | clockQuantum hr | clockRearm hr | devRelease _ hr => exact absurd rfl (htrap hr)
  cases t with
  | process p =>
      rcases h with h | h | h
      · cases h
      · -- only `wakeup`'s acquire, or the start of `kexit` over no frames, sits above a scan
        cases h <;> first
          | rfl
          | (rename_i ht; rcases ht with h | h <;> simp at h)
      · exact hhandler h
  | scheduler c =>
      rcases h with h | h
      · cases h
      · exact hhandler h

theorem current_awake {s : Kernel} (hc : ControlOk s) {c : CpuId} {t : Thread}
    (ht : s.current c = t) : ∀ p, t = .process p → (s.table.proc p).state ≠ .sleeping := by
  rintro p rfl
  obtain ⟨-, -, -, hrun⟩ := hc.current_process ht
  rw [hrun]
  simp

end Kept

/-! ## One entry of the scan -/

section Visit

variable {tb : Table} {chan : Option Chan} {me : Option Slot} {p : Slot}

theorem wakeupIter_woken (hme : me ≠ some p) (hst : (tb.proc p).state = .sleeping)
    (hch : (tb.proc p).chan = chan) :
    ((wakeupIter chan me tb p).proc p).state = .runnable ∧
      ((wakeupIter chan me tb p).runqueues (tb.proc p).queueLevel).tail = some p := by
  constructor
  · rw [wakeupIter_proc, if_pos ⟨hme, hst, hch⟩, if_pos rfl]
  · unfold wakeupIter
    rw [if_neg hme, if_pos ⟨hst, hch⟩, enqueue_runqueues]
    simp

theorem wakeupIter_of_not_sleeping
    (h : ¬ (me ≠ some p ∧ (tb.proc p).state = .sleeping ∧ (tb.proc p).chan = chan)) :
    wakeupIter chan me tb p = tb := by
  unfold wakeupIter
  split_ifs with hme hsleep
  · rfl
  · exact absurd ⟨hme, hsleep⟩ h
  · rfl

theorem wakeupIter_other {q : Slot} (hq : q ≠ p) :
    (wakeupIter chan me tb p).proc q = tb.proc q ∨
      (me ≠ some p ∧ (tb.proc p).state = .sleeping ∧ (tb.proc p).chan = chan) ∧
        (tb.runqueues (tb.proc p).queueLevel).tail = some q ∧
        (wakeupIter chan me tb p).proc q = { tb.proc q with queueNext := some p } := by
  rw [wakeupIter_proc]
  split_ifs with hw
  · by_cases ht : (tb.runqueues (tb.proc p).queueLevel).tail = some q
    · exact .inr ⟨hw, ht, by simp [enqueueNext, hq, ht]⟩
    · exact .inl (by simp [enqueueNext, hq, ht])
  · exact .inl rfl

variable {s s' : Kernel} {c : CpuId} {ok : Bool} {t : Thread} {i : Nat} {rest : List Frame}

theorem myproc_ne_of_sleeping (hc : ControlOk s) (hcur : s.current c = t)
    (htop : s.frames t = .wakeupScan chan i :: rest) (hst : (s.table.proc p).state = .sleeping) :
    s.myproc c ≠ some p := by
  intro hme
  have hcur' := hc.current_of_myproc hme (hcur ▸ htop) rfl
  exact current_awake hc hcur' p rfl hst

theorem wakeupScan_table (hcur : s.current c = t) (htop : s.frames t = .wakeupScan chan i :: rest)
    (h : step s (.exec c ok) = some s') (hi : i < nproc) :
    s'.table = wakeupIter chan (s.myproc c) s.table ⟨i, hi⟩ := by
  rcases wakeupScanStep_inv (step_exec_top hcur htop h) with ⟨-, -, rfl⟩ | ⟨hge, -⟩
  · rfl
  · exact absurd hi (Nat.not_lt_of_le hge)

theorem wakeupScan_end (hcur : s.current c = t) (htop : s.frames t = .wakeupScan chan i :: rest)
    (h : step s (.exec c ok) = some s') (hi : nproc ≤ i) : s' = s.setFrames t rest := by
  rcases wakeupScanStep_inv (step_exec_top hcur htop h) with ⟨hlt, -⟩ | ⟨-, rfl⟩
  · exact absurd hlt (Nat.not_lt_of_le hi)
  · rfl

end Visit

/-! ## Steps that keep the scans sound -/

section Steps

variable {s s' : Kernel}

theorem WakeupOk.of_step (hw : WakeupOk s)
    (hsleep : ∀ q ch lk, SleepsOn s' q ch lk → SleepsOn s q ch lk ∨ s'.holder lk = none)
    (hscan : ∀ t ch i rest lk, s'.frames t = .wakeupScan (some ch) i :: rest →
      s'.holder lk = some t →
      i = 0 ∨ s.frames t = .wakeupScan (some ch) i :: rest ∧ s.holder lk = some t) :
    WakeupOk s' := by
  intro t ch i rest lk ht hl q hq hsl
  rcases hscan t ch i rest lk ht hl with rfl | ⟨ht₀, hl₀⟩
  · exact absurd hq (Nat.not_lt_zero _)
  · rcases hsleep q ch lk hsl with h | h
    · exact hw t ch i rest lk ht₀ hl₀ q hq h
    · rw [h] at hl
      cases hl

theorem SleepsOn.of_local {u : Thread} {fs' : List Frame} {X : Kernel} {q : Slot} {ch : Chan}
    {lk : Lock} (h : SleepsOn (X.setFrames u fs') q ch lk) (hX : X.frames = s.frames)
    (hkept : NoNewSleeper s.table X.table)
    (hu : ∀ p, u = .process p → (s.table.proc p).state ≠ .sleeping) : SleepsOn s q ch lk := by
  obtain ⟨hst, hch, hfr⟩ := h
  obtain ⟨hst₀, hch₀⟩ := hkept q hst
  refine ⟨hst₀, hch₀ ▸ hch, ?_⟩
  have hq : Thread.process q ≠ u := fun hq => hu q hq.symm hst₀
  simpa [hq, hX] using hfr

theorem WakeupOk.local (hw : WakeupOk s) {u : Thread} {fs' : List Frame} {X : Kernel}
    (hX : X.frames = s.frames) (hkept : NoNewSleeper s.table X.table)
    (hholder : ∀ lk t, X.holder lk = some t → t ≠ u → s.holder lk = some t)
    (hu : ∀ p, u = .process p → (s.table.proc p).state ≠ .sleeping) (hnew : ScanFresh fs') :
    WakeupOk (X.setFrames u fs') := by
  refine hw.of_step (fun q ch lk h => .inl (h.of_local hX hkept hu)) (fun t ch i rest lk ht hl => ?_)
  by_cases htu : t = u
  · subst htu
    simp only [setFrames_frames, if_true] at ht
    exact .inl (hnew ch i rest ht)
  · simp only [setFrames_frames, htu, if_false, hX] at ht
    exact .inr ⟨ht, hholder lk t (by simpa using hl) htu⟩

theorem WakeupOk.sched (hw : WakeupOk s) {X : Kernel} {c : CpuId} {p : Slot}
    {resume : List Frame} (hX : X.frames = s.frames) (hkept : NoNewSleeper s.table X.table)
    (hholder : ∀ lk t, X.holder lk = some t → s.holder lk = some t)
    (hp : (s.table.proc p).state ≠ .sleeping) (hresume : ScanFresh resume) :
    WakeupOk (Step.sched X c p resume) := by
  have hmid : WakeupOk (X.setFrames (.process p) resume) :=
    hw.local hX hkept (fun lk t h _ => hholder lk t h) (fun q hq => by cases hq; exact hp) hresume
  exact hmid.local rfl (.refl _) (fun _ _ h _ => h) (fun _ h => by cases h)
    (scanFresh_cons (by simp) _)

theorem WakeupOk.yield (hw : WakeupOk s) (hc : ControlOk s) {X : Kernel} {c : CpuId} {p : Slot}
    {resume : List Frame} (hcur : s.current c = .process p) (hy : Step.yield X c p resume = some s')
    (hX : X.frames = s.frames) (hkept : NoNewSleeper s.table X.table)
    (hholder : ∀ lk t, X.holder lk = some t → s.holder lk = some t) (hresume : ScanFresh resume) :
    WakeupOk s' := by
  obtain ⟨-, rfl⟩ := yield_inv hy
  exact hw.sched hX (hkept.trans (NoNewSleeper.setProc (f := fun r => { r with state := .runnable })
    (.inl (by simp)))) hholder (current_awake hc hcur p rfl) hresume

theorem WakeupOk.sleep (hw : WakeupOk s) {c : CpuId} {p : Slot} {chan : Chan} {lk : Lock}
    {rest : List Frame} (hsl : Step.sleep s c p chan lk rest = some s') : WakeupOk s' := by
  obtain ⟨-, -, rfl⟩ := sleep_inv hsl
  refine hw.of_step (fun q ch lk' ⟨hst, hch, hfr⟩ => ?_) (fun t ch i rest' lk' ht hl => ?_)
  · by_cases hq : q = p
    · -- the new sleeper reacquires `lk`, which the step released
      subst hq
      have hlk : lk' = lk := by simpa [Step.sched] using hfr.symm
      subst hlk
      exact .inr (by simp [Step.sched])
    · refine .inl ⟨by simpa [hq] using hst, by simpa [hq] using hch, ?_⟩
      simpa [Step.sched, hq] using hfr
  · refine .inr ⟨?_, ?_⟩
    · by_cases htp : t = .process p
      · subst htp
        simp [Step.sched] at ht
      · by_cases htc : t = .scheduler c
        · subst htc
          simp [Step.sched] at ht
        · simpa [Step.sched, htp, htc] using ht
    · by_cases hlk : lk' = lk
      · subst hlk
        simp [Step.sched] at hl
      · simpa [Step.sched, hlk] using hl

/-- The scan's own step: past entry `i`, which it has woken if it slept on the
scan's channel, since the process running the scan is awake. -/
theorem WakeupOk.exec_wakeupScan (hw : WakeupOk s) (hc : ControlOk s) {c : CpuId} {t : Thread}
    {chan : Option Chan} {i : Nat} {fs : List Frame} (hcur : s.current c = t)
    (htop : s.frames t = .wakeupScan chan i :: fs) (h : wakeupScanStep s c t chan i fs = some s') :
    WakeupOk s' := by
  have hu := current_awake hc hcur
  rcases wakeupScanStep_inv h with ⟨hi, -, rfl⟩ | ⟨-, rfl⟩
  · have hkept := NoNewSleeper.wakeupIter chan (s.myproc c) s.table ⟨i, hi⟩
    intro t' ch j rest lk ht hl q hq hsl
    have hsl₀ := hsl
    by_cases htt : t' = t
    · subst htt
      simp only [setFrames_frames, if_true, List.cons.injEq, Frame.wakeupScan.injEq] at ht
      obtain ⟨⟨rfl, rfl⟩, rfl⟩ := ht
      by_cases hqi : q.val < i
      · exact hw _ ch i fs lk htop hl q hqi (hsl.of_local rfl hkept hu)
      · -- the entry the step visited: `wakeup` made it `RUNNABLE` unless it runs the scan
        have hq' : q = ⟨i, hi⟩ := Fin.ext (show q.val = i by omega)
        subst hq'
        obtain ⟨hst, hch, -⟩ := hsl
        obtain ⟨hst₀, hch₀⟩ := hkept _ hst
        have hwoken := (wakeupIter_woken (myproc_ne_of_sleeping hc hcur htop hst₀) hst₀
          (hch₀ ▸ hch)).1
        simp [hwoken] at hst
    · simp only [setFrames_frames, htt, if_false] at ht
      exact hw t' ch j rest lk ht hl q hq (hsl₀.of_local rfl hkept hu)
  · exact hw.local rfl (.refl _) (fun _ _ h _ => h) hu (scanFresh_tail (hc.stack_of htop))

end Steps

/-! ## Every step keeps the scans sound -/

section Preservation

variable {s s' : Kernel} {c : CpuId} {t : Thread} {fs : List Frame}

theorem NoNewSleeper.awake {tb tb' : Table} (h : NoNewSleeper tb tb') {p : Slot}
    (hp : (tb.proc p).state ≠ .sleeping) : (tb'.proc p).state ≠ .sleeping :=
  fun h' => hp (h p h').1

theorem WakeupOk.exec_local (hw : WakeupOk s) (hc : ControlOk s) {fs' : List Frame} {X : Kernel}
    (hcur : s.current c = t) (hX : X.frames = s.frames) (hkept : NoNewSleeper s.table X.table)
    (hlock : X.holder = s.holder) (hnew : ScanFresh fs') : WakeupOk (X.setFrames t fs') :=
  hw.local hX hkept (fun lk t' h _ => by rwa [hlock] at h) (current_awake hc hcur) hnew

theorem WakeupOk.exec_acquire (hw : WakeupOk s) (hc : ControlOk s) {lk : Lock} {fs' : List Frame}
    (hcur : s.current c = t) (h : acquireStep s t lk fs' = some s') (hnew : ScanFresh fs') :
    WakeupOk s' := by
  obtain ⟨-, rfl⟩ := acquireStep_inv h
  exact hw.local rfl (.refl _) holder_acquire (current_awake hc hcur) hnew

theorem WakeupOk.exec_release (hw : WakeupOk s) (hc : ControlOk s) {lk : Lock} {fs' : List Frame}
    (hcur : s.current c = t) (h : releaseStep s t lk fs' = some s') (hnew : ScanFresh fs') :
    WakeupOk s' := by
  obtain ⟨-, rfl⟩ := releaseStep_inv h
  exact hw.local rfl (.refl _) (fun lk' t' h _ => holder_release lk' t' h) (current_awake hc hcur)
    hnew

theorem WakeupOk.release_a0 (hw : WakeupOk s) (hc : ControlOk s) {X : Kernel} {p : Slot}
    {lk : Lock} {v : Int} (hcur : s.current c = .process p) (hX : X.frames = s.frames)
    (hkept : NoNewSleeper s.table X.table) (hlock : X.holder = s.holder) (hnew : ScanFresh fs) :
    WakeupOk ((setA0 (X.setHolder lk none) p v).setFrames (.process p) fs) :=
  hw.local hX (hkept.trans (.setA0 _ _ _))
    (fun lk' t' h _ => by rw [← hlock]; exact holder_release lk' t' h) (current_awake hc hcur) hnew

theorem WakeupOk.exec_schedTop (hw : WakeupOk s) (hc : ControlOk s) (hcur : s.current c = t) :
    WakeupOk (schedTopStep s t fs) := by
  simp only [schedTopStep]
  split_ifs
  · exact hw.exec_local hc hcur rfl (.refl _) rfl (scanFresh_cons (by simp) _)
  · exact hw.exec_local hc hcur rfl (.refl _) rfl (scanFresh_cons (by simp) _)

theorem WakeupOk.exec_schedScan (hw : WakeupOk s) (hc : ControlOk s) {level : Nat}
    (hcur : s.current c = t) : WakeupOk (schedScanStep s t level fs) := by
  rcases schedScanStep_cases (s := s) t level fs with ⟨-, -, h⟩ | ⟨p, -, -, h⟩ | ⟨-, h⟩ <;> rw [h]
  · exact hw.exec_local hc hcur rfl (.dequeue _ _) rfl (scanFresh_cons (by simp) _)
  · exact hw.exec_local hc hcur rfl (.dequeue _ _) rfl (scanFresh_cons (by simp) _)
  · exact hw.exec_local hc hcur rfl (.refl _) rfl (scanFresh_cons (by simp) _)

theorem WakeupOk.exec_schedLock (hw : WakeupOk s) {level : Nat} {p : Slot}
    (hcur : s.current c = t) (h : schedLockStep s c t level p fs = some s') (hc : ControlOk s) :
    WakeupOk s' := by
  obtain ⟨-, ⟨-, rfl⟩ | ⟨-, rfl⟩⟩ := schedLockStep_inv h
  · have hkept : NoNewSleeper s.table (dispatch s c level p).table := by
      rw [dispatch_table]
      exact .setProc (.inl (by simp))
    exact hw.local rfl hkept (fun _ _ h _ => h) (fun _ h => by cases h) (scanFresh_cons (by simp) _)
  · exact hw.exec_local hc hcur rfl (.refl _) rfl (scanFresh_cons (by simp) _)

theorem WakeupOk.exec_schedReturned (hw : WakeupOk s) (hc : ControlOk s) {p : Slot}
    (hcur : s.current c = t) : WakeupOk (schedReturnedStep s c t p fs) := by
  simp only [schedReturnedStep]
  split_ifs
  · exact hw.exec_local hc hcur rfl (.enqueue _ _) rfl (scanFresh_cons (by simp) _)
  · exact hw.exec_local hc hcur rfl (.refl _) rfl (scanFresh_cons (by simp) _)

theorem WakeupOk.exec_boostScan (hw : WakeupOk s) (hc : ControlOk s) {i : Nat}
    (hcur : s.current c = t) (htop : s.frames t = .boostScan i :: fs)
    (h : boostScanStep s t i fs = some s') : WakeupOk s' := by
  rcases boostScanStep_inv h with ⟨hi, -, rfl⟩ | ⟨-, rfl⟩
  · exact hw.exec_local hc hcur rfl (.boostIter _ _) rfl (scanFresh_cons (by simp) _)
  · exact hw.exec_local hc hcur rfl (.refl _) rfl (scanFresh_tail (hc.stack_of htop))

theorem WakeupOk.exec_clockTicks (hw : WakeupOk s) (hc : ControlOk s) (hcur : s.current c = t)
    (h : clockTicksStep s c t fs = some s') : WakeupOk s' := by
  rcases clockTicksStep_inv h with ⟨-, -, rfl⟩ | ⟨-, rfl⟩
  · exact hw.local rfl (.refl _) holder_acquire (current_awake hc hcur) (scanFresh_start _ _)
  · exact hw.exec_local hc hcur rfl (.refl _) rfl (scanFresh_cons (by simp) _)

theorem WakeupOk.exec_clockQuantum (hw : WakeupOk s) (hc : ControlOk s) (hcur : s.current c = t)
    (htop : s.frames t = .clockQuantum :: fs) (h : clockQuantumStep s c t fs = some s') :
    WakeupOk s' := by
  have hfresh : ScanFresh (.clockRearm :: fs) := scanFresh_cons (by simp) _
  subst hcur
  rcases clockQuantumStep_inv h with ⟨p, hme, -, -, -, hy⟩ | ⟨p, hme, -, -, -, hy⟩ |
    ⟨p, -, -, -, rfl⟩ | ⟨-, rfl⟩
  · exact hw.yield hc (hc.current_of_myproc hme htop rfl) hy rfl
      (by simp only [setStats_table]; exact .setProc_fields fun _ => ⟨rfl, rfl⟩) (fun _ _ h => h)
      hfresh
  · exact hw.yield hc (hc.current_of_myproc hme htop rfl) hy rfl
      (.setProc_fields fun _ => ⟨rfl, rfl⟩) (fun _ _ h => h) hfresh
  · exact hw.exec_local hc rfl rfl (.setProc_fields fun _ => ⟨rfl, rfl⟩) rfl hfresh
  · exact hw.exec_local hc rfl rfl (.refl _) rfl hfresh

theorem WakeupOk.exec_kerneltrapTail (hw : WakeupOk s) (hc : ControlOk s) {w : Nat}
    (hcur : s.current c = t) (htop : s.frames t = .kerneltrapTail w :: fs)
    (h : kerneltrapTailStep s c t w fs = some s') : WakeupOk s' := by
  have hfresh := scanFresh_tail (hc.stack_of htop)
  rcases kerneltrapTailStep_inv h with ⟨p, hme, -, hy⟩ | ⟨-, rfl⟩
  · subst hcur
    exact hw.yield hc (hc.current_of_myproc hme htop rfl) hy rfl (.refl _) (fun _ _ h => h) hfresh
  · exact hw.exec_local hc hcur rfl (.refl _) rfl hfresh

theorem WakeupOk.exec_usertrapTail (hw : WakeupOk s) (hc : ControlOk s) {p : Slot} {w : Nat}
    (hcur : s.current c = .process p) (htop : s.frames (.process p) = .usertrapTail w :: fs)
    (h : usertrapTailStep s c p w fs = some s') : WakeupOk s' := by
  have hfresh := scanFresh_tail (hc.stack_of htop)
  rcases usertrapTailStep_inv h with ⟨-, ⟨-, rfl⟩ | ⟨-, -, hy⟩ | ⟨-, -, rfl⟩⟩
  · exact hw.exec_local hc hcur rfl (.refl _) rfl (scanFresh_cons (by simp) _)
  · exact hw.yield hc hcur hy rfl (.refl _) (fun _ _ h => h) hfresh
  · exact hw.exec_local hc hcur rfl (.refl _) rfl hfresh

theorem WakeupOk.exec_forkAlloc (hw : WakeupOk s) (hc : ControlOk s) {p : Slot} {i : Nat}
    {ok : Bool} (hcur : s.current c = .process p) (htop : s.frames (.process p) = .forkAlloc i :: fs)
    (h : forkAllocStep s p i ok fs = some s') : WakeupOk s' := by
  have hfresh := scanFresh_tail (hc.stack_of htop)
  rcases forkAllocStep_inv h with ⟨hi, -, hunused, -, rfl⟩ | ⟨hi, -, -, -, rfl⟩ |
    ⟨hi, -, -, rfl⟩ | ⟨-, rfl⟩
  · have hkept : NoNewSleeper s.table (setA0 (allocprocFound s ⟨i, hi⟩) ⟨i, hi⟩ 0).table :=
      (NoNewSleeper.setProc_awake fun _ => by simp).trans (.setA0 _ _ _)
    have hchild : WakeupOk ((setA0 (allocprocFound s ⟨i, hi⟩) ⟨i, hi⟩ 0).setFrames
        (.process ⟨i, hi⟩) []) := by
      refine hw.local rfl hkept (fun _ _ h _ => h) (fun q hq => ?_) scanFresh_nil
      injection hq with hq
      rw [← hq, hunused]
      simp
    exact hchild.local rfl (.refl _) (fun _ _ h _ => h)
      (fun q hq => hkept.awake (current_awake hc hcur q hq)) (scanFresh_cons (by simp) _)
  · have hkept : NoNewSleeper s.table
        (setA0 ((allocprocFound s ⟨i, hi⟩).setProc ⟨i, hi⟩ freeproc) p (-1)).table :=
      ((NoNewSleeper.setProc_awake fun _ => by simp).trans
        (NoNewSleeper.setProc_awake fun _ => by simp [freeproc])).trans (.setA0 _ _ _)
    exact hw.exec_local hc hcur rfl hkept rfl hfresh
  · exact hw.exec_local hc hcur rfl (.refl _) rfl (scanFresh_cons (by simp) _)
  · exact hw.exec_local hc hcur rfl (.setA0 _ _ _) rfl hfresh

theorem WakeupOk.exec_forkRunnable (hw : WakeupOk s) (hc : ControlOk s) {p np : Slot} {pid : Int}
    (hcur : s.current c = .process p) (htop : s.frames (.process p) = .forkRunnable np pid :: fs)
    (h : forkRunnableStep s p np pid fs = some s') : WakeupOk s' := by
  obtain ⟨-, rfl⟩ := forkRunnableStep_inv h
  have hkept : NoNewSleeper s.table (setA0 ((s.setProc np fun r => { r with state := .runnable }).mapTable
      (enqueue · np)) p pid).table :=
    ((NoNewSleeper.setProc_awake fun _ => by simp).trans (.enqueue _ np)).trans (.setA0 _ _ _)
  exact hw.exec_local hc hcur rfl hkept rfl (scanFresh_tail (hc.stack_of htop))

theorem WakeupOk.exec_exitReparent (hw : WakeupOk s) (hc : ControlOk s) {p : Slot} {status : Int}
    {i : Nat} (hcur : s.current c = .process p) : WakeupOk (exitReparentStep s p status i fs) := by
  rcases exitReparentStep_cases (s := s) p status i fs with ⟨hi, -, h⟩ | ⟨hi, -, h⟩ | ⟨-, h⟩ <;>
    rw [h]
  · exact hw.exec_local hc hcur rfl (.setProc_fields fun _ => ⟨rfl, rfl⟩) rfl (scanFresh_start _ _)
  · exact hw.exec_local hc hcur rfl (.refl _) rfl (scanFresh_cons (by simp) _)
  · exact hw.exec_local hc hcur rfl (.refl _) rfl (scanFresh_start _ _)

theorem WakeupOk.exec_exitZombie (hw : WakeupOk s) (hc : ControlOk s) {p : Slot} {status : Int}
    (hcur : s.current c = .process p) (h : exitZombieStep s c p status = some s') : WakeupOk s' := by
  obtain ⟨-, -, rfl⟩ := exitZombieStep_inv h
  exact hw.sched rfl (.setProc_awake fun _ => by simp) (fun lk t h => holder_release lk t h)
    (current_awake hc hcur p rfl) scanFresh_nil

theorem WakeupOk.exec_waitScan (hw : WakeupOk s) (hc : ControlOk s) {p : Slot} {addr i : Nat}
    {havekids ok : Bool} (hcur : s.current c = .process p)
    (htop : s.frames (.process p) = .waitScan addr i havekids :: fs)
    (h : waitScanStep s c p addr i havekids ok fs = some s') : WakeupOk s' := by
  have hfresh := scanFresh_tail (hc.stack_of htop)
  rcases waitScanStep_inv h with ⟨hi, -, -, -, -, -, hr⟩ | ⟨hi, -, -, -, -, hr⟩ |
    ⟨hi, -, -, -, rfl⟩ | ⟨hi, -, rfl⟩ | ⟨-, -, -, hr⟩ | ⟨-, -, -, hsl⟩
  · obtain ⟨-, rfl⟩ := waitReturn_inv hr
    exact hw.release_a0 hc hcur rfl (.refl _) rfl hfresh
  · obtain ⟨-, rfl⟩ := waitReturn_inv hr
    exact hw.release_a0 hc hcur rfl (.setProc_awake fun _ => by simp [freeproc]) rfl hfresh
  · exact hw.exec_local hc hcur rfl (.refl _) rfl (scanFresh_cons (by simp) _)
  · exact hw.exec_local hc hcur rfl (.refl _) rfl (scanFresh_cons (by simp) _)
  · obtain ⟨-, rfl⟩ := waitReturn_inv hr
    exact hw.release_a0 hc hcur rfl (.refl _) rfl hfresh
  · exact hw.sleep hsl

theorem WakeupOk.exec_killScan (hw : WakeupOk s) (hc : ControlOk s) {p : Slot} {pid : Int}
    {i : Nat} (hcur : s.current c = .process p) (htop : s.frames (.process p) = .killScan pid i :: fs)
    (h : killScanStep s p pid i fs = some s') : WakeupOk s' := by
  have hfresh := scanFresh_tail (hc.stack_of htop)
  rcases killScanStep_inv h with ⟨hi, -, -, rfl⟩ | ⟨hi, -, -, rfl⟩ | ⟨-, rfl⟩
  · have hwoken : NoNewSleeper s.table (s.table.setProc ⟨i, hi⟩ fun r =>
        { r with killed := true, state := if r.state = .sleeping then .runnable else r.state }) := by
      refine .setProc ?_
      by_cases hst : (s.table.proc ⟨i, hi⟩).state = .sleeping
      · exact .inl (by simp [hst])
      · exact .inr (by simp [hst])
    exact hw.exec_local hc hcur rfl (hwoken.trans (.setA0 _ _ _)) rfl hfresh
  · exact hw.exec_local hc hcur rfl (.refl _) rfl (scanFresh_cons (by simp) _)
  · exact hw.exec_local hc hcur rfl (.setA0 _ _ _) rfl hfresh

theorem WakeupOk.exec_boostprocScan (hw : WakeupOk s) (hc : ControlOk s) {p : Slot} {pid : Int}
    {i : Nat} (hcur : s.current c = .process p)
    (htop : s.frames (.process p) = .boostprocScan pid i :: fs)
    (h : boostprocScanStep s p pid i fs = some s') : WakeupOk s' := by
  have hfresh := scanFresh_tail (hc.stack_of htop)
  rcases boostprocScanStep_inv h with ⟨hi, -, -, rfl⟩ | ⟨hi, -, -, rfl⟩ | ⟨-, rfl⟩
  · have hkept : NoNewSleeper s.table
        (s.table.setProc ⟨i, hi⟩ fun r => { r with queueLevel := 0, timeInQueue := 0 }) :=
      .setProc (.inr ⟨rfl, rfl⟩)
    exact hw.exec_local hc hcur rfl (hkept.trans (.setA0 _ _ _)) rfl hfresh
  · exact hw.exec_local hc hcur rfl (.refl _) rfl (scanFresh_cons (by simp) _)
  · exact hw.exec_local hc hcur rfl (.setA0 _ _ _) rfl hfresh

theorem WakeupOk.exec_pauseLoop (hw : WakeupOk s) (hc : ControlOk s) {p : Slot} {ticks0 n : Nat}
    (hcur : s.current c = .process p) (htop : s.frames (.process p) = .pauseLoop ticks0 n :: fs)
    (h : pauseLoopStep s c p ticks0 n fs = some s') : WakeupOk s' := by
  have hfresh := scanFresh_tail (hc.stack_of htop)
  rcases pauseLoopStep_inv h with ⟨-, -, -, -, rfl⟩ | ⟨-, -, -, hsl⟩ | ⟨-, -, rfl⟩
  · exact hw.release_a0 hc hcur rfl (.refl _) rfl hfresh
  · exact hw.sleep hsl
  · exact hw.release_a0 hc hcur rfl (.refl _) rfl hfresh

/-- One critical section of the thread CPU `c` executes keeps every scan sound. -/
theorem WakeupOk.exec (hw : WakeupOk s) (hc : ControlOk s) {ok : Bool}
    (h : step s (.exec c ok) = some s') : WakeupOk s' := by
  obtain ⟨f, fs, htop, h⟩ := step_exec_inv h
  generalize hcur : s.current c = t at htop h
  have hpop : ScanFresh fs := scanFresh_tail (hc.stack_of htop)
  cases f with
  | schedTop =>
      cases h
      exact hw.exec_schedTop hc hcur
  | schedBoosted =>
      cases h
      exact hw.exec_local hc hcur rfl (.refl _) rfl (scanFresh_cons (by simp) _)
  | schedScan level =>
      cases h
      exact hw.exec_schedScan hc hcur
  | schedLock level p => exact hw.exec_schedLock hcur h hc
  | schedSwtch => cases h
  | schedReturned p =>
      cases h
      exact hw.exec_schedReturned hc hcur
  | boostClear =>
      cases h
      exact hw.exec_local hc hcur rfl (.clearRunqueues _) rfl (scanFresh_cons (by simp) _)
  | boostScan i => exact hw.exec_boostScan hc hcur htop h
  | wakeupScan chan i => exact hw.exec_wakeupScan hc hcur htop h
  | clockTicks => exact hw.exec_clockTicks hc hcur h
  | clockRelease => exact hw.exec_release hc hcur h hpop
  | clockQuantum => exact hw.exec_clockQuantum hc hcur htop h
  | clockRearm =>
      cases h
      exact hw.exec_local hc hcur rfl (.refl _) rfl hpop
  | kerneltrapTail w => exact hw.exec_kerneltrapTail hc hcur htop h
  | acquireLock lk => exact hw.exec_acquire hc hcur h hpop
  | releaseLock lk => exact hw.exec_release hc hcur h hpop
  | sleepRelock lk => exact hw.exec_acquire hc hcur h hpop
  | waitStart addr => exact hw.exec_acquire hc hcur h (scanFresh_cons (by simp) _)
  | pauseStart n => exact hw.exec_acquire hc hcur h (scanFresh_cons (by simp) _)
  | usertrapTail w =>
      obtain ⟨p, rfl, h⟩ := onProcess_inv h
      exact hw.exec_usertrapTail hc hcur htop h
  | sysret v =>
      obtain ⟨p, rfl, h⟩ := onProcess_inv h
      cases h
      exact hw.exec_local hc hcur rfl (.setA0 _ _ _) rfl hpop
  | forkAlloc i =>
      obtain ⟨p, rfl, h⟩ := onProcess_inv h
      exact hw.exec_forkAlloc hc hcur htop h
  | forkParent np pid =>
      obtain ⟨p, rfl, h⟩ := onProcess_inv h
      obtain ⟨-, rfl⟩ := forkParentStep_inv h
      exact hw.exec_local hc hcur rfl (.setProc_fields fun _ => ⟨rfl, rfl⟩) rfl
        (scanFresh_cons (by simp) _)
  | forkRunnable np pid =>
      obtain ⟨p, rfl, h⟩ := onProcess_inv h
      exact hw.exec_forkRunnable hc hcur htop h
  | exitStart status =>
      obtain ⟨p, rfl, h⟩ := onProcess_inv h
      obtain ⟨-, -, rfl⟩ := exitStartStep_inv h
      exact hw.local rfl (.refl _) holder_acquire (current_awake hc hcur) (scanFresh_cons (by simp) _)
  | exitReparent status i =>
      obtain ⟨p, rfl, h⟩ := onProcess_inv h
      cases h
      exact hw.exec_exitReparent hc hcur
  | exitZombie status =>
      obtain ⟨p, rfl, h⟩ := onProcess_inv h
      exact hw.exec_exitZombie hc hcur h
  | waitScan addr i havekids =>
      obtain ⟨p, rfl, h⟩ := onProcess_inv h
      exact hw.exec_waitScan hc hcur htop h
  | killScan pid i =>
      obtain ⟨p, rfl, h⟩ := onProcess_inv h
      exact hw.exec_killScan hc hcur htop h
  | boostprocScan pid i =>
      obtain ⟨p, rfl, h⟩ := onProcess_inv h
      exact hw.exec_boostprocScan hc hcur htop h
  | pauseLoop ticks0 n =>
      obtain ⟨p, rfl, h⟩ := onProcess_inv h
      exact hw.exec_pauseLoop hc hcur htop h
  | sleepCall chan lk =>
      obtain ⟨p, rfl, h⟩ := onProcess_inv h
      exact hw.sleep h

theorem syscallFrames_fresh (call : Syscall) : ScanFresh (syscallFrames call ++ [.usertrapTail 0]) := by
  intro ch i rest h
  cases call with
  | boostproc pid =>
      by_cases hpid : pid = 0
      · simp [syscallFrames, hpid] at h
      · simp [syscallFrames, hpid] at h
  | _ => simp [syscallFrames] at h

theorem WakeupOk.syscall (hw : WakeupOk s) (hc : ControlOk s) {call : Syscall}
    (h : step s (.syscall c call) = some s') : WakeupOk s' := by
  obtain ⟨p, hcur, -, -, ⟨-, rfl⟩ | ⟨-, rfl⟩⟩ := usertrapSyscall_inv h
  · exact hw.exec_local hc hcur rfl (.refl _) rfl (scanFresh_cons (by simp) _)
  · exact hw.exec_local hc hcur rfl (.refl _) rfl (syscallFrames_fresh call)

theorem WakeupOk.trap (hw : WakeupOk s) (hc : ControlOk s) {g : Frame} {gs : List Frame} {w : Nat}
    (hg : ∀ ch i, g ≠ .wakeupScan (some ch) i) : WakeupOk (trap s c (g :: gs) w) := by
  rw [trap_eq]
  split
  · exact hw.exec_local hc rfl rfl (.refl _) rfl (scanFresh_cons hg _)
  · exact hw.exec_local hc rfl rfl (.refl _) rfl (scanFresh_cons hg _)

theorem wakeupOk_step {a : Action} (hw : WakeupOk s) (hc : ControlOk s) (h : step s a = some s') :
    WakeupOk s' := by
  cases a with
  | exec c ok => exact hw.exec hc h
  | syscall c call => exact hw.syscall hc h
  | timer c =>
      obtain ⟨-, -, rfl⟩ := step_timer_inv h
      exact hw.trap hc (by simp)
  | devintr c chan lk =>
      obtain ⟨-, rfl⟩ := step_devintr_inv h
      exact hw.trap hc (by simp)
  | elapse d =>
      obtain rfl := step_elapse_inv h
      exact hw

theorem wakeupOk_boot : WakeupOk boot := by
  intro t ch i rest lk ht
  rw [boot_frames] at ht
  cases t <;> simp [procinit] at ht

theorem reachable_wakeupOk (hs : Reachable s) : WakeupOk s :=
  StepSystem.Reachable.invariant wakeupOk_boot
    (fun _ _ _ hr hw h => wakeupOk_step hw (reachable_controlOk hr) h) hs

end Preservation

/-! ## What `sleep` and `wakeup` guarantee -/

section Contract

variable {s : Kernel}

/-- `wakeup(chan)` leaves every entry that does not sleep on `chan` as it was,
at each step of its scan. -/
def WakeupTouchesOnlySleepers : Prop :=
  ∀ s c ok t chan i rest s' q, Reachable s → s.current c = t →
    s.frames t = .wakeupScan chan i :: rest → step s (.exec c ok) = some s' →
    ¬ ((s.table.proc q).state = .sleeping ∧ (s.table.proc q).chan = chan) →
    s'.table.proc q = s.table.proc q

/-- The first process forks twice, so that entries 1 and 2 wait in
`runqueues[0]`, and sleeps on channel 5 with lock 1; its first child, running
on the same CPU, calls `wakeup(5)` holding lock 1, whose first step enqueues
entry 0 behind entry 2. -/
def wakeupLinkRun : List Action :=
  execs 1 70 ++ [.syscall 1 .fork] ++ execs 1 5 ++ [.syscall 1 .fork] ++ execs 1 6 ++
    [.syscall 1 (.sleepOn 5 1)] ++ execs 1 6 ++ [.syscall 1 (.wakeupOn 5 1)] ++ execs 1 1

theorem wakeup_touches_only_sleepers_fails : ¬ WakeupTouchesOnlySleepers := by
  intro hall
  obtain ⟨s, s', hs, hrun, hcur, htop, hawake, hlink⟩ :=
    exists_reachable_of_runs (reachable_tickedBoot boostInterval) wakeupLinkRun [.exec 1 true]
      (fun s s' => s.current 1 = .process 1 ∧
        s.frames (.process 1) = [.wakeupScan (some (.obj 5)) 0, .releaseLock (.obj 1), .sysret 0,
          .usertrapTail 0] ∧
        (s.table.proc 2).state = .runnable ∧ (s'.table.proc 2).queueNext ≠ (s.table.proc 2).queueNext)
      (by decide +kernel)
  rw [run_singleton] at hrun
  -- entry 2 is `RUNNABLE`, yet the step changes its `queue_next`
  have hsame := hall s 1 true _ _ 0 _ s' 2 hs hcur htop hrun (fun h => by simp [hawake] at h)
  exact hlink (by rw [hsame])

/-- The contract of `sleep` and `wakeup`, in every reachable state: when a
`wakeup(chan)` whose caller holds `lk` returns, no process sleeps on `chan`
having released `lk`; each step of its scan makes the entry it visits, if
asleep on `chan`, `RUNNABLE` and the tail of the runqueue of its level; and an
entry that does not sleep on `chan` is left as it was, or it was the old tail
of that runqueue and only its `queue_next` changed, to the woken entry. -/
theorem wakeup_contract (hs : Reachable s) :
    (∀ c ok t ch rest lk s', s.current c = t → s.frames t = .wakeupScan (some ch) nproc :: rest →
      s.holder lk = some t → step s (.exec c ok) = some s' → ∀ P, ¬ SleepsOn s' P ch lk) ∧
    (∀ c ok t chan i rest s', s.current c = t → s.frames t = .wakeupScan chan i :: rest →
      step s (.exec c ok) = some s' →
      (∀ hi : i < nproc, (s.table.proc ⟨i, hi⟩).state = .sleeping →
        (s.table.proc ⟨i, hi⟩).chan = chan →
        (s'.table.proc ⟨i, hi⟩).state = .runnable ∧
          (s'.table.runqueues (s.table.proc ⟨i, hi⟩).queueLevel).tail = some ⟨i, hi⟩) ∧
      ∀ q, ¬ ((s.table.proc q).state = .sleeping ∧ (s.table.proc q).chan = chan) →
        s'.table.proc q = s.table.proc q ∨
          ∃ P, (s.table.proc P).state = .sleeping ∧ (s'.table.proc P).state = .runnable ∧
            (s.table.runqueues (s.table.proc P).queueLevel).tail = some q ∧
            s'.table.proc q = { s.table.proc q with queueNext := some P }) := by
  have hw := reachable_wakeupOk hs
  have hc := reachable_controlOk hs
  refine ⟨fun c ok t ch rest lk s' hcur htop hl h P hsl => ?_,
    fun c ok t chan i rest s' hcur htop h => ⟨fun hi hst hch => ?_, fun q hq => ?_⟩⟩
  · rw [wakeupScan_end hcur htop h le_rfl] at hsl
    exact hw t ch nproc rest lk htop hl P P.isLt (hsl.of_local rfl (.refl _) (current_awake hc hcur))
  · rw [wakeupScan_table hcur htop h hi]
    exact wakeupIter_woken (myproc_ne_of_sleeping hc hcur htop hst) hst hch
  · by_cases hi : i < nproc
    · rw [wakeupScan_table hcur htop h hi]
      by_cases hqi : q = ⟨i, hi⟩
      · subst hqi
        rw [wakeupIter_of_not_sleeping fun hw => hq hw.2]
        exact .inl rfl
      · rcases @wakeupIter_other s.table chan (s.myproc c) ⟨i, hi⟩ q hqi with
          hsame | ⟨⟨hme, hst, hch⟩, htail, hlink⟩
        · exact .inl hsame
        · exact .inr ⟨⟨i, hi⟩, hst, (wakeupIter_woken hme hst hch).1, htail, hlink⟩
    · rw [wakeupScan_end hcur htop h (Nat.le_of_not_lt hi)]
      exact .inl rfl

/-- The contract on the run of `wakeupLinkRun`: the first step of the child's
scan wakes entry 0, asleep on channel 5, and puts it at the tail of its
runqueue; 64 steps later the scan returns with no process asleep on channel 5
having released lock 1. -/
theorem wakeup_contract_linkRun :
    (∃ s s', Reachable s ∧ s.current 1 = .process 1 ∧
      s.frames (.process 1) = [.wakeupScan (some (.obj 5)) 0, .releaseLock (.obj 1), .sysret 0, .usertrapTail 0] ∧
      (s.table.proc ⟨0, by decide⟩).state = .sleeping ∧ (s.table.proc ⟨0, by decide⟩).chan = some (.obj 5) ∧
      step s (.exec 1 true) = some s' ∧ (s'.table.proc ⟨0, by decide⟩).state = .runnable ∧
      (s'.table.runqueues (s.table.proc ⟨0, by decide⟩).queueLevel).tail = some ⟨0, by decide⟩) ∧
    ∃ s s', Reachable s ∧ s.current 1 = .process 1 ∧
      s.frames (.process 1) = [.wakeupScan (some (.obj 5)) nproc, .releaseLock (.obj 1), .sysret 0, .usertrapTail 0] ∧
      s.holder (.obj 1) = some (.process 1) ∧ step s (.exec 1 true) = some s' ∧
      ∀ P, ¬ SleepsOn s' P (.obj 5) (.obj 1) := by
  constructor
  · obtain ⟨s, s', hs, hrun, hcur, htop, hsl, hch⟩ :=
      exists_reachable_of_runs (reachable_tickedBoot boostInterval) wakeupLinkRun [.exec 1 true]
        (fun s _ => s.current 1 = .process 1 ∧
          s.frames (.process 1) = [.wakeupScan (some (.obj 5)) 0, .releaseLock (.obj 1), .sysret 0,
            .usertrapTail 0] ∧
          (s.table.proc ⟨0, by decide⟩).state = .sleeping ∧ (s.table.proc ⟨0, by decide⟩).chan = some (.obj 5))
        (by decide +kernel)
    rw [run_singleton] at hrun
    obtain ⟨hwoken, -⟩ := (wakeup_contract hs).2 1 true _ _ 0 _ s' hcur htop hrun
    exact ⟨s, s', hs, hcur, htop, hsl, hch, hrun, hwoken (by decide) hsl hch⟩
  · obtain ⟨s, s', hs, hrun, hcur, htop, hl⟩ :=
      exists_reachable_of_runs (reachable_tickedBoot boostInterval) (wakeupLinkRun ++ execs 1 64) [.exec 1 true]
        (fun s _ => s.current 1 = .process 1 ∧
          s.frames (.process 1) = [.wakeupScan (some (.obj 5)) nproc, .releaseLock (.obj 1), .sysret 0,
            .usertrapTail 0] ∧ s.holder (.obj 1) = some (.process 1))
        (by decide +kernel)
    rw [run_singleton] at hrun
    exact ⟨s, s', hs, hcur, htop, hl, hrun, (wakeup_contract hs).1 1 true _ _ _ _ s' hcur htop hl hrun⟩

end Contract

end Xv6Mlfq.Wakeup
