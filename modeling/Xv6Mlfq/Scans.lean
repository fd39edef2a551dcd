import Xv6Mlfq.Step

/-!
Table scans run without interruption.  A thread standing at entry `i` of one of
the loops over the process table, whose entries are not locked by another CPU,
runs the rest of the loop in `nproc - i` steps of its CPU, and the table it
leaves is the sequential loop from `i`: `wakeup` and `priority_boost` as
`Xv6Mlfq.State` defines them.
-/

namespace Xv6Mlfq.Scans

open Xv6Mlfq.ProcData
open Xv6Mlfq.State
open Xv6Mlfq.State.Kernel
open Xv6Mlfq.Step
open StepSystem

variable {s : Kernel} {c : CpuId}

theorem current_cases (s : Kernel) (c : CpuId) :
    (s.current c = .scheduler c ∧
        ∀ l p, (s.frames (.scheduler c)).head? ≠ some (.schedSwtch l p)) ∨
      ∃ l p, s.current c = .process p ∧
        (s.frames (.scheduler c)).head? = some (.schedSwtch l p) := by
  unfold current
  split
  · next l p h => exact .inr ⟨l, p, rfl, h⟩
  · next h => exact .inl ⟨rfl, fun l p hsw => h l p hsw⟩

@[simp] theorem current_mapTable (f : Table → Table) :
    (s.mapTable f).current c = s.current c := rfl

@[simp] theorem procLocked_mapTable (f : Table → Table) (p : Slot) :
    (s.mapTable f).procLocked p = s.procLocked p := rfl

@[simp] theorem myproc_mapTable (f : Table → Table) : (s.mapTable f).myproc c = s.myproc c := rfl

@[simp] theorem myproc_setFrames (t : Thread) (fs : List Frame) :
    (s.setFrames t fs).myproc c = s.myproc c := rfl

theorem current_setFrames_current {f : Frame} (hf : ∀ l p, f ≠ .schedSwtch l p)
    (fs : List Frame) : (s.setFrames (s.current c) (f :: fs)).current c = s.current c := by
  rcases current_cases s c with ⟨hcur, _⟩ | ⟨l, p, hcur, hhead⟩
  · rw [hcur]
    unfold current
    simp only [setFrames_frames, if_true, List.head?_cons]
    split
    · next l p h => exact absurd (Option.some.inj h) (hf l p)
    · rfl
  · rw [hcur]
    unfold current
    simp [hhead]

theorem procLocked_setFrames {t : Thread} {fs : List Frame}
    (hold : ∀ q, (s.frames t).head? ≠ some (.schedReturned q))
    (hnew : ∀ q, fs.head? ≠ some (.schedReturned q)) (p : Slot) :
    (s.setFrames t fs).procLocked p = s.procLocked p := by
  unfold procLocked
  congr 1
  funext d
  simp only [setFrames_frames]
  split_ifs with h
  · subst h
    simp [hold p, hnew p]
  · rfl

theorem setFrames_self (t : Thread) : s.setFrames t (s.frames t) = s := by
  ext u
  · rfl
  all_goals first
    | rfl
    | simp only [setFrames_frames]; split_ifs with h <;> simp [h]

theorem setFrames_setFrames (t : Thread) (fs fs' : List Frame) :
    (s.setFrames t fs).setFrames t fs' = s.setFrames t fs' := by
  ext u
  · rfl
  all_goals first
    | rfl
    | simp only [setFrames_frames]; split_ifs <;> rfl

theorem mapTable_setFrames (f : Table → Table) (t : Thread) (fs : List Frame) :
    (s.setFrames t fs).mapTable f = (s.mapTable f).setFrames t fs := rfl

theorem mapTable_eq_self {f : Table → Table} (h : f s.table = s.table) : s.mapTable f = s := by
  unfold mapTable
  rw [h]

theorem mapTable_mapTable (f g : Table → Table) :
    (s.mapTable f).mapTable g = s.mapTable (g ∘ f) := rfl

theorem finRange_drop {i : Nat} (h : i < nproc) :
    (List.finRange nproc).drop i = ⟨i, h⟩ :: (List.finRange nproc).drop (i + 1) := by
  rw [List.drop_eq_getElem_cons (by simpa using h)]
  simp

/-- A loop over the process table that CPU `c` runs one entry per step, each
entry applying `iter` to the table and moving the top frame from `mk i` to
`mk (i + 1)`, computes the sequential loop from its current entry, as long as
the condition `P` under which an entry's step is enabled persists. -/
theorem run_scan (ok : Bool) (fs : List Frame) (mk : Nat → Frame)
    (iter : Table → Slot → Table) (finish : Kernel → Kernel) (P : Kernel → Prop)
    (hswtch : ∀ i l p, mk i ≠ .schedSwtch l p)
    (hstep : ∀ s i (h : i < nproc), P s → s.frames (s.current c) = mk i :: fs →
      step s (.exec c ok) =
        some ((s.mapTable (iter · ⟨i, h⟩)).setFrames (s.current c) (mk (i + 1) :: fs)))
    (hP : ∀ s i (h : i < nproc), P s → s.frames (s.current c) = mk i :: fs →
      P ((s.mapTable (iter · ⟨i, h⟩)).setFrames (s.current c) (mk (i + 1) :: fs)))
    (hend : ∀ s, s.frames (s.current c) = mk nproc :: fs →
      step s (.exec c ok) = some (finish s)) :
    ∀ k i s, nproc - i = k → i ≤ nproc → P s → s.frames (s.current c) = mk i :: fs →
      run step s (List.replicate (nproc + 1 - i) (.exec c ok)) =
        some (finish ((s.mapTable fun tb => ((List.finRange nproc).drop i).foldl iter tb).setFrames
          (s.current c) (mk nproc :: fs))) := by
  intro k
  induction k with
  | zero =>
      intro i s hk hi _ htop
      have hin : i = nproc := by omega
      subst hin
      have hlen : nproc + 1 - nproc = 1 := by omega
      rw [hlen, List.replicate_one, run_cons, hend s htop]
      have hdrop : (List.finRange nproc).drop nproc = [] := List.drop_of_length_le (by simp)
      simp only [Option.bind_some, run_nil, hdrop]
      rw [← htop, show (s.mapTable fun tb => ([] : List Slot).foldl iter tb) = s from rfl,
        setFrames_self]
  | succ k ih =>
      intro i s hk hi hPs htop
      have hlt : i < nproc := by omega
      have hlen : nproc + 1 - i = (nproc + 1 - (i + 1)) + 1 := by omega
      let s1 := (s.mapTable (iter · ⟨i, hlt⟩)).setFrames (s.current c) (mk (i + 1) :: fs)
      have hcur : s1.current c = s.current c := by
        simpa using current_setFrames_current (s := s.mapTable (iter · ⟨i, hlt⟩)) (c := c)
          (hswtch (i + 1)) fs
      have htop1 : s1.frames (s1.current c) = mk (i + 1) :: fs := by
        rw [hcur]
        simp [s1]
      rw [hlen, List.replicate_succ, run_cons_of_step _ (hstep s i hlt hPs htop),
        ih (i + 1) s1 (by omega) hlt (hP s i hlt hPs htop) htop1, hcur]
      congr 1
      simp only [s1, mapTable_setFrames, setFrames_setFrames, mapTable_mapTable]
      rw [finRange_drop hlt]
      rfl

theorem step_exec_of_top {ok : Bool} {f : Frame} {fs : List Frame}
    (htop : s.frames (s.current c) = f :: fs) :
    step s (.exec c ok) = execFrame s c (s.current c) ok f fs := by
  simp [step, htop]

theorem current_eq_scheduler {f : Frame} {fs : List Frame}
    (h : s.frames (.scheduler c) = f :: fs) (hf : ∀ l p, f ≠ .schedSwtch l p) :
    s.current c = .scheduler c := by
  unfold current
  rw [h]
  split
  · next l p heq => exact absurd (Option.some.inj heq) (hf l p)
  · rfl

theorem step_exec_scheduler {ok : Bool} (f : Frame) (fs : List Frame)
    (h : s.frames (.scheduler c) = f :: fs) (hf : ∀ l p, f ≠ .schedSwtch l p) :
    step s (.exec c ok) = execFrame s c (.scheduler c) ok f fs := by
  rw [step_exec_of_top (by rw [current_eq_scheduler h hf]; exact h), current_eq_scheduler h hf]

theorem setFrames_current_setFrames {t : Thread} (ht : s.current c = t) {f : Frame}
    (hf : ∀ l p, f ≠ .schedSwtch l p) (fs fs' : List Frame) :
    (s.setFrames t (f :: fs)).setFrames ((s.setFrames t (f :: fs)).current c) fs' =
      s.setFrames t fs' := by
  subst ht
  rw [current_setFrames_current hf, setFrames_setFrames]

/-- `wakeup(chan)` from entry `i`, run by CPU `c` while no other CPU holds the
lock of an entry it still has to visit. -/
theorem run_wakeupScan (ok : Bool) {chan : Option Chan} {fs : List Frame} {i : Nat}
    (hi : i ≤ nproc) (htop : s.frames (s.current c) = .wakeupScan chan i :: fs)
    (hfree : ∀ p : Slot, s.myproc c ≠ some p → s.procLocked p = false) :
    run step s (List.replicate (nproc + 1 - i) (.exec c ok)) =
      some ((s.mapTable fun tb =>
        ((List.finRange nproc).drop i).foldl (wakeupIter chan (s.myproc c)) tb).setFrames
          (s.current c) fs) := by
  have hscan := run_scan (c := c) ok fs (Frame.wakeupScan chan)
    (wakeupIter chan (s.myproc c)) (fun s' => s'.setFrames (s'.current c) fs)
    (fun s' => s'.myproc c = s.myproc c ∧
      ∀ p : Slot, s.myproc c ≠ some p → s'.procLocked p = false)
    (fun _ _ _ => Frame.noConfusion)
    (by
      rintro s' j h ⟨hme, hlock⟩ htop'
      rw [step_exec_of_top htop']
      simp only [execFrame, wakeupScanStep, h, dite_true, hme]
      rw [if_neg (fun hg => by simp [hlock _ hg.1] at hg)])
    (by
      rintro s' j h ⟨hme, hlock⟩ htop'
      refine ⟨by simpa using hme, fun p hp => ?_⟩
      rw [procLocked_setFrames (by simp [htop']) (by simp)]
      simpa using hlock p hp)
    (by
      intro s' htop'
      rw [step_exec_of_top htop']
      simp [execFrame, wakeupScanStep])
    (nproc - i) i s rfl hi ⟨rfl, hfree⟩ htop
  rw [hscan, setFrames_current_setFrames (current_mapTable _) (fun _ _ => Frame.noConfusion)]

/-- `priority_boost`'s scan from entry `i`, run by CPU `c` while no other CPU
holds the lock of an entry it still has to visit, ending with the reset of
`ticks_since_boost`. -/
theorem run_boostScan (ok : Bool) {fs : List Frame} {i : Nat} (hi : i ≤ nproc)
    (htop : s.frames (s.current c) = .boostScan i :: fs)
    (hfree : ∀ p : Slot, s.procLocked p = false) :
    run step s (List.replicate (nproc + 1 - i) (.exec c ok)) =
      some ({ s.mapTable (fun tb => ((List.finRange nproc).drop i).foldl boostIter tb) with
        ticksSinceBoost := 0 }.setFrames (s.current c) fs) := by
  have hscan := run_scan (c := c) ok fs Frame.boostScan boostIter
    (fun s' => { s' with ticksSinceBoost := 0 }.setFrames (s'.current c) fs)
    (fun s' => ∀ p : Slot, s'.procLocked p = false)
    (fun _ _ _ => Frame.noConfusion)
    (by
      intro s' j h hlock htop'
      rw [step_exec_of_top htop']
      simp [execFrame, boostScanStep, h, hlock])
    (by
      intro s' j h hlock htop' p
      rw [procLocked_setFrames (by simp [htop']) (by simp)]
      simpa using hlock p)
    (by
      intro s' htop'
      rw [step_exec_of_top htop']
      simp [execFrame, boostScanStep])
    (nproc - i) i s rfl hi hfree htop
  rw [hscan]
  congr 1
  exact setFrames_current_setFrames (s := { s.mapTable _ with ticksSinceBoost := 0 }) rfl
    (fun _ _ => Frame.noConfusion) _ fs

end Xv6Mlfq.Scans
