import Xv6Mlfq.Control
import Xv6Mlfq.BootRun
import Xv6Mlfq.Library.ProcTree

/-!
The process tree.  The stages of the process table's entries and their
`parent` pointers form a process tree rooted at `initproc`, and every step of
the kernel either leaves that tree alone or performs one of its operations:
`allocproc` allocates, `kfork` adopts and publishes, `reparent` hands a child
to `initproc`, `kexit` exits once `reparent` is done, and `kwait` reaps.  The
conditions of the operations come from what `kfork`, `kexit` and `kwait` have
done so far, which their resumption points record, and from `wait_lock`,
which serialises every change of a `parent` pointer.
-/

namespace Xv6Mlfq.ProcessTree

open ProcTree (Stage Tree Op WF)
open Xv6Mlfq.ProcData
open Xv6Mlfq.State
open Xv6Mlfq.State.Kernel
open Xv6Mlfq.Step
open Xv6Mlfq.Inversion
open Xv6Mlfq.Control
open Xv6Mlfq.BootRun

/-! ## The tree of a kernel state -/

/-- The stage of a `procstate` in the process tree. -/
def stage : Procstate → Stage
  | .unused => .free
  | .used => .embryo
  | .sleeping | .runnable | .running => .live
  | .zombie => .zombie

@[simp] theorem stage_eq_free (st : Procstate) : stage st = .free ↔ st = .unused := by
  cases st <;> simp [stage]

@[simp] theorem stage_eq_zombie (st : Procstate) : stage st = .zombie ↔ st = .zombie := by
  cases st <;> simp [stage]

def tree (s : Kernel) : ProcTree.Tree Slot where
  stage q := stage (s.table.proc q).state
  parent q := (s.table.proc q).parent

/-- The entry `userinit` gives the first process. -/
def initSlot : Slot := ⟨0, by decide⟩

/-! ## What `kfork`, `kexit` and `kwait` have done -/

def exitIndex : Frame → Option Nat
  | .exitReparent _ i => some i
  | .exitZombie _ => some nproc
  | _ => none

/-- How far the `kexit` a stack is in has got in `reparent`: the next entry it
looks at, or `nproc` once it is past `reparent`. -/
def exitPoint (fs : List Frame) : Option Nat := fs.findSome? exitIndex

/-- The point of `kwait`'s scan a stack is at: the next entry and `havekids`. -/
def waitPoint : List Frame → Option (Nat × Bool)
  | .waitScan _ i havekids :: _ => some (i, havekids)
  | _ => none

/-- The stack is in `kexit` or `kwait` between `acquire(&wait_lock)` and its release. -/
def HoldsWait (fs : List Frame) : Prop := exitPoint fs ≠ none ∨ waitPoint fs ≠ none

/-- What the stack `fs` of process `P` records of its work on the tree: the
child it is adopting has no parent yet, the child it has adopted has `P` as
parent, the entries `reparent` has passed are not its children, and neither
are those `kwait` has passed with `havekids` still 0; while it holds
`wait_lock`, it holds it alone. -/
structure FramesOk (s : Kernel) (P : Slot) (fs : List Frame) : Prop where
  adopting : ∀ np pid, Frame.forkParent np pid ∈ fs → (s.table.proc np).parent = none
  adopted : ∀ np pid, Frame.forkRunnable np pid ∈ fs → (s.table.proc np).parent = some P
  exiting : ∀ i, exitPoint fs = some i →
    P ≠ initSlot ∧ ∀ q : Slot, q.val < i → (s.table.proc q).parent ≠ some P
  scanned : ∀ i, waitPoint fs = some (i, false) →
    ∀ q : Slot, q.val < i → (s.table.proc q).parent ≠ some P
  waitLock : HoldsWait fs → s.holder .waitLock = some (.process P)

/-- What a stack records of the tree does not depend on the stacks. -/
@[simp] theorem framesOk_setFrames {X : Kernel} {t : Thread} {fs : List Frame} {P : Slot}
    {gs : List Frame} : FramesOk (X.setFrames t fs) P gs ↔ FramesOk X P gs :=
  ⟨fun h => ⟨h.adopting, h.adopted, h.exiting, h.scanned, h.waitLock⟩,
    fun h => ⟨h.adopting, h.adopted, h.exiting, h.scanned, h.waitLock⟩⟩

/-- The process-tree invariant. -/
structure TreeOk (s : Kernel) : Prop where
  wf : WF initSlot (tree s)
  initproc : s.initproc = some initSlot
  nextpid : 0 < s.nextpid
  pid : ∀ q, (s.table.proc q).state ≠ .unused → 0 < (s.table.proc q).pid
  frames : ∀ P, FramesOk s P (s.frames (.process P))

/-! ## Steps that leave the tree alone -/

/-- A step keeps every entry's stage and parent, and the pid of every entry in use. -/
def TreeKept (tb tb' : Table) : Prop :=
  ∀ q, stage (tb'.proc q).state = stage (tb.proc q).state ∧
    (tb'.proc q).parent = (tb.proc q).parent ∧
    ((tb.proc q).state ≠ .unused → (tb'.proc q).pid = (tb.proc q).pid)

section Kept

theorem TreeKept.refl (tb : Table) : TreeKept tb tb :=
  fun _ => ⟨rfl, rfl, fun _ => rfl⟩

theorem TreeKept.trans {tb₁ tb₂ tb₃ : Table} (h₁ : TreeKept tb₁ tb₂) (h₂ : TreeKept tb₂ tb₃) :
    TreeKept tb₁ tb₃ := by
  intro q
  obtain ⟨hs₁, hp₁, hd₁⟩ := h₁ q
  obtain ⟨hs₂, hp₂, hd₂⟩ := h₂ q
  refine ⟨hs₂.trans hs₁, hp₂.trans hp₁, fun hq => ?_⟩
  have hq₂ : (tb₂.proc q).state ≠ .unused := by
    rw [ne_eq, ← stage_eq_free, hs₁, stage_eq_free]
    exact hq
  exact (hd₂ hq₂).trans (hd₁ hq)

theorem TreeKept.table_setProc {tb : Table} {p : Slot} {f : Proc → Proc}
    (hst : stage (f (tb.proc p)).state = stage (tb.proc p).state)
    (hpar : (f (tb.proc p)).parent = (tb.proc p).parent)
    (hpid : (f (tb.proc p)).pid = (tb.proc p).pid) : TreeKept tb (tb.setProc p f) := by
  intro q
  by_cases hq : q = p
  · subst hq
    simp [hst, hpar, hpid]
  · simp [hq]

theorem TreeKept.setProc {X : Kernel} {p : Slot} {f : Proc → Proc}
    (hst : stage (f (X.table.proc p)).state = stage (X.table.proc p).state)
    (hpar : (f (X.table.proc p)).parent = (X.table.proc p).parent)
    (hpid : (f (X.table.proc p)).pid = (X.table.proc p).pid) :
    TreeKept X.table (X.setProc p f).table :=
  .table_setProc hst hpar hpid

theorem TreeKept.setProc_fields {X : Kernel} {p : Slot} {f : Proc → Proc}
    (h : ∀ r, (f r).state = r.state ∧ (f r).parent = r.parent ∧ (f r).pid = r.pid) :
    TreeKept X.table (X.setProc p f).table :=
  .setProc (by rw [(h _).1]) (h _).2.1 (h _).2.2

theorem TreeKept.of_eq {tb tb' : Table}
    (h : ∀ q, (tb'.proc q).state = (tb.proc q).state ∧ (tb'.proc q).parent = (tb.proc q).parent ∧
      (tb'.proc q).pid = (tb.proc q).pid) : TreeKept tb tb' :=
  fun q => ⟨by rw [(h q).1], (h q).2.1, fun _ => (h q).2.2⟩

theorem TreeKept.enqueue (tb : Table) (p : Slot) : TreeKept tb (enqueue tb p) :=
  .of_eq fun q => by simp [enqueue_proc]

theorem TreeKept.dequeue (tb : Table) (level : Nat) : TreeKept tb (dequeue tb level).2 :=
  .of_eq fun q => by simp [dequeue_proc]

theorem TreeKept.boostIter (tb : Table) (p : Slot) : TreeKept tb (boostIter tb p) :=
  .of_eq fun q => by
    rw [boostIter_proc]
    split_ifs <;> simp

theorem TreeKept.wakeupIter (chan : Option Chan) (me : Option Slot) (tb : Table) (p : Slot) :
    TreeKept tb (wakeupIter chan me tb p) := by
  intro q
  rw [wakeupIter_proc]
  split_ifs with hw hq
  · subst hq
    simp [hw.2.1, stage]
  · exact ⟨rfl, rfl, fun _ => rfl⟩
  · exact ⟨rfl, rfl, fun _ => rfl⟩

theorem tree_eq_of_kept {s s' : Kernel} (h : TreeKept s.table s'.table) : tree s' = tree s := by
  ext q
  · exact (h q).1
  · simp only [tree]
    rw [(h q).2.1]

end Kept

/-- A frame that takes no part in `kfork`'s, `kexit`'s or `kwait`'s work on the tree. -/
def neutral : Frame → Bool
  | .forkParent _ _ | .forkRunnable _ _ | .exitReparent _ _ | .exitZombie _ | .waitScan _ _ _ => false
  | _ => true

/-- A stack `fs'` replacing `fs` that adds no work on the tree and holds no
`wait_lock` that `fs` did not. -/
def Keeps (fs fs' : List Frame) : Prop :=
  (∀ np pid, Frame.forkParent np pid ∈ fs' → Frame.forkParent np pid ∈ fs) ∧
    (∀ np pid, Frame.forkRunnable np pid ∈ fs' → Frame.forkRunnable np pid ∈ fs) ∧
    exitPoint fs' = exitPoint fs ∧ waitPoint fs' = none

section Neutral

theorem exitPoint_cons_neutral {g : Frame} (hg : neutral g = true) (fs : List Frame) :
    exitPoint (g :: fs) = exitPoint fs := by
  cases g <;> simp_all [neutral, exitPoint, exitIndex, List.findSome?_cons]

theorem exitPoint_append_neutral {gs : List Frame} (hgs : ∀ g ∈ gs, neutral g = true)
    (fs : List Frame) : exitPoint (gs ++ fs) = exitPoint fs := by
  induction gs with
  | nil => rfl
  | cons g gs ih =>
      rw [List.cons_append, exitPoint_cons_neutral (hgs g (by simp))]
      exact ih fun g' hg' => hgs g' (by simp [hg'])

theorem waitPoint_cons {f : Frame} (hf : ∀ addr i havekids, f ≠ .waitScan addr i havekids)
    (fs : List Frame) : waitPoint (f :: fs) = none := by
  cases f with
  | waitScan addr i havekids => exact absurd rfl (hf addr i havekids)
  | _ => rfl

theorem waitPoint_cons_neutral {g : Frame} (hg : neutral g = true) (fs : List Frame) :
    waitPoint (g :: fs) = none :=
  waitPoint_cons (by rintro addr i havekids rfl; simp [neutral] at hg) fs

theorem mem_of_mem_append_neutral {g fs : List Frame} (hg : ∀ x ∈ g, neutral x = true)
    {y : Frame} (hy : neutral y = false) (h : y ∈ g ++ fs) : y ∈ fs := by
  rcases List.mem_append.mp h with h | h
  · simp [hg y h] at hy
  · exact h

theorem Keeps.replace {f : Frame} {g fs : List Frame} (hf : neutral f = true)
    (hg : ∀ x ∈ g, neutral x = true) (hw : waitPoint (g ++ fs) = none) :
    Keeps (f :: fs) (g ++ fs) :=
  ⟨fun _ _ h => List.mem_cons_of_mem f (mem_of_mem_append_neutral hg rfl h),
    fun _ _ h => List.mem_cons_of_mem f (mem_of_mem_append_neutral hg rfl h),
    by rw [exitPoint_append_neutral hg, exitPoint_cons_neutral hf], hw⟩

theorem Keeps.push {g : List Frame} (hg : ∀ x ∈ g, neutral x = true) (hne : g ≠ [])
    (fs : List Frame) : Keeps fs (g ++ fs) := by
  obtain ⟨x, g', rfl⟩ := List.exists_cons_of_ne_nil hne
  exact ⟨fun _ _ h => mem_of_mem_append_neutral hg rfl h,
    fun _ _ h => mem_of_mem_append_neutral hg rfl h, exitPoint_append_neutral hg fs,
    waitPoint_cons_neutral (hg x (by simp)) _⟩

/-- Below every frame but `sleep`'s reacquisition of `wait_lock` there is no
point of `kwait`'s scan. -/
theorem waitPoint_tail {t : Thread} {f : Frame} {fs : List Frame} (h : StackOk t (f :: fs))
    (hf : f ≠ .sleepRelock .waitLock) : waitPoint fs = none := by
  have htrap : ∀ {r : List Frame}, TrapReturn t r → waitPoint r = none := by
    intro r hr
    cases hr <;> rfl
  have hhandler : HandlerStack t (f :: fs) → waitPoint fs = none := by
    intro hh
    cases hh with
    | ret hr =>
        cases hr with
        | user => rfl
        | sched => rfl
        | kernel p w hon hs =>
            -- kwait's scan runs with interrupts off, so no trap frame sits on it
            exact waitPoint_cons (by rintro addr i havekids rfl; simp [intrOn] at hon) _
    | _ => first | exact htrap ‹_› | rfl
  cases t with
  | process p =>
      rcases h with h | h | h
      · cases h
      · cases h <;> first
          | rfl
          | exact absurd rfl hf
          | (rename_i ht; rcases ht with rfl | rfl <;> rfl)
      · exact hhandler h
  | scheduler c =>
      rcases h with h | h
      · cases h <;> rfl
      · exact hhandler h

theorem waitPoint_replace {t : Thread} {f : Frame} {g fs : List Frame}
    (h : StackOk t (f :: fs)) (hf : f ≠ .sleepRelock .waitLock) (hg : ∀ x ∈ g, neutral x = true) :
    waitPoint (g ++ fs) = none := by
  cases g with
  | nil => exact waitPoint_tail h hf
  | cons x g => exact waitPoint_cons_neutral (hg x (by simp)) _

end Neutral

theorem FramesOk.of_parents {s X : Kernel} {P : Slot} {fs : List Frame} (h : FramesOk s P fs)
    (hpar : ∀ q, (X.table.proc q).parent = (s.table.proc q).parent)
    (hlock : HoldsWait fs → X.holder .waitLock = s.holder .waitLock) : FramesOk X P fs where
  adopting np pid hm := (hpar np).trans (h.adopting np pid hm)
  adopted np pid hm := (hpar np).trans (h.adopted np pid hm)
  exiting i hi := ⟨(h.exiting i hi).1, fun q hq => by rw [hpar q]; exact (h.exiting i hi).2 q hq⟩
  scanned i hi q hq := by
    rw [hpar q]
    exact h.scanned i hi q hq
  waitLock hw := (hlock hw).trans (h.waitLock hw)

theorem FramesOk.keep {s X : Kernel} {P : Slot} {fs fs' : List Frame} (h : FramesOk s P fs)
    (hk : Keeps fs fs') (hpar : ∀ q, (X.table.proc q).parent = (s.table.proc q).parent)
    (hlock : HoldsWait fs' → X.holder .waitLock = s.holder .waitLock) : FramesOk X P fs' where
  adopting np pid hm := (hpar np).trans (h.adopting np pid (hk.1 np pid hm))
  adopted np pid hm := (hpar np).trans (h.adopted np pid (hk.2.1 np pid hm))
  exiting i hi := by
    rw [hk.2.2.1] at hi
    exact ⟨(h.exiting i hi).1, fun q hq => by rw [hpar q]; exact (h.exiting i hi).2 q hq⟩
  scanned i hi := by
    rw [hk.2.2.2] at hi
    cases hi
  waitLock hw := by
    refine (hlock hw).trans (h.waitLock ?_)
    rcases hw with hw | hw
    · exact .inl (hk.2.2.1 ▸ hw)
    · exact absurd hk.2.2.2 hw

/-- `kwait` of `P`, on the CPU that runs it, reaps its `ZOMBIE` child `q`: it
frees the entry and returns the child's pid to user mode. -/
def Reaps (s : Kernel) (q : Slot) (s' : Kernel) : Prop :=
  ∃ c P addr havekids, s.current c = .process P ∧
    s.frames (.process P) = [.waitScan addr q.val havekids, .usertrapTail 0] ∧
    (s.table.proc q).parent = some P ∧ (s.table.proc q).state = .zombie ∧
    s'.table.proc q = freeproc (s.table.proc q) ∧
    (s'.table.proc P).a0 = (s.table.proc q).pid ∧ s'.frames (.process P) = [.usertrapTail 0]

/-- How the tree changes in a step: not at all, by an operation that reaps
nothing, or by `kwait` reaping a zombie child. -/
inductive Effect (s s' : Kernel) : Prop
  | kept (h : TreeKept s.table s'.table)
  | op (h : Op initSlot (tree s) (tree s'))
      (hz : ∀ q, (s.table.proc q).state = .zombie → (s'.table.proc q).state = .zombie)
  | reap (q : Slot) (h : Reaps s q s') (htree : tree s' = (tree s).reap q)

/-! ## Steps that keep the tree -/

section Steps

variable {s s' : Kernel}

theorem TreeOk.of_kept (ht : TreeOk s) (hkept : TreeKept s.table s'.table)
    (hinit : s'.initproc = s.initproc) (hnext : s.nextpid ≤ s'.nextpid)
    (hframes : ∀ P, FramesOk s' P (s'.frames (.process P))) : TreeOk s' ∧ Effect s s' := by
  refine ⟨⟨tree_eq_of_kept hkept ▸ ht.wf, hinit.trans ht.initproc, by have := ht.nextpid; omega,
    fun q hq => ?_, hframes⟩, .kept hkept⟩
  have hq' : (s.table.proc q).state ≠ .unused := by
    rw [ne_eq, ← stage_eq_free, ← (hkept q).1, stage_eq_free]
    exact hq
  rw [(hkept q).2.2 hq']
  exact ht.pid q hq'

theorem TreeOk.kept (ht : TreeOk s) (hkept : TreeKept s.table s'.table)
    (hinit : s'.initproc = s.initproc) (hnext : s.nextpid ≤ s'.nextpid)
    (hframes : ∀ P, s'.frames (.process P) = s.frames (.process P) ∨
      Keeps (s.frames (.process P)) (s'.frames (.process P)))
    (hlock : ∀ P, HoldsWait (s'.frames (.process P)) → s'.holder .waitLock = s.holder .waitLock) :
    TreeOk s' ∧ Effect s s' := by
  have hpar : ∀ q, (s'.table.proc q).parent = (s.table.proc q).parent := fun q => (hkept q).2.1
  refine ht.of_kept hkept hinit hnext fun P => ?_
  rcases hframes P with h | h
  · rw [h]
    exact (ht.frames P).of_parents hpar fun hw => hlock P (h ▸ hw)
  · exact (ht.frames P).keep h hpar (hlock P)

theorem TreeOk.own (ht : TreeOk s) {P : Slot} {fs' : List Frame} {X : Kernel}
    (hX : X.frames = s.frames) (hkept : TreeKept s.table X.table) (hinit : X.initproc = s.initproc)
    (hnext : s.nextpid ≤ X.nextpid)
    (hlock : ∀ Q, Q ≠ P → HoldsWait (s.frames (.process Q)) → X.holder .waitLock = s.holder .waitLock)
    (hown : FramesOk X P fs') :
    TreeOk (X.setFrames (.process P) fs') ∧ Effect s (X.setFrames (.process P) fs') := by
  refine ht.of_kept hkept hinit hnext fun Q => ?_
  by_cases hQ : Q = P
  · subst hQ
    simpa using hown
  · simpa [hQ, hX] using (ht.frames Q).of_parents (fun q => (hkept q).2.1) (hlock Q hQ)

theorem frames_setFrames {X : Kernel} {t : Thread} {fs' : List Frame} (hX : X.frames = s.frames)
    (h : ∀ P, t = .process P → Keeps (s.frames t) fs') (P : Slot) :
    (X.setFrames t fs').frames (.process P) = s.frames (.process P) ∨
      Keeps (s.frames (.process P)) ((X.setFrames t fs').frames (.process P)) := by
  by_cases hP : Thread.process P = t
  · subst hP
    exact .inr (by simpa using h P rfl)
  · exact .inl (by simp [hP, hX])

theorem sched_frames_process (X : Kernel) (c : CpuId) (p : Slot) (resume : List Frame) (P : Slot) :
    (Step.sched X c p resume).frames (.process P) = if P = p then resume else X.frames (.process P) := by
  by_cases h : P = p <;> simp [Step.sched, h]

theorem TreeOk.local (ht : TreeOk s) {t : Thread} {fs' : List Frame} {X : Kernel}
    (hX : X.frames = s.frames) (hkept : TreeKept s.table X.table) (hinit : X.initproc = s.initproc)
    (hnext : s.nextpid ≤ X.nextpid) (hlock : X.holder .waitLock = s.holder .waitLock)
    (hkeeps : ∀ P, t = .process P → Keeps (s.frames t) fs') :
    TreeOk (X.setFrames t fs') ∧ Effect s (X.setFrames t fs') :=
  ht.kept hkept hinit hnext (frames_setFrames hX hkeeps) fun _ _ => hlock

theorem TreeOk.of_neutral (ht : TreeOk s) (hc : ControlOk s) {t : Thread} {f : Frame}
    {g fs : List Frame} {X : Kernel} (htop : s.frames t = f :: fs) (hX : X.frames = s.frames)
    (hkept : TreeKept s.table X.table) (hinit : X.initproc = s.initproc)
    (hnext : s.nextpid ≤ X.nextpid) (hlock : X.holder .waitLock = s.holder .waitLock)
    (hf : neutral f = true) (hf' : f ≠ .sleepRelock .waitLock) (hg : ∀ x ∈ g, neutral x = true) :
    TreeOk (X.setFrames t (g ++ fs)) ∧ Effect s (X.setFrames t (g ++ fs)) :=
  ht.local hX hkept hinit hnext hlock fun _ _ =>
    htop ▸ Keeps.replace hf hg (waitPoint_replace (hc.stack_of htop) hf' hg)

theorem TreeOk.sched (ht : TreeOk s) {X : Kernel} {c : CpuId} {p : Slot} {resume : List Frame}
    (hX : X.frames = s.frames) (hkept : TreeKept s.table X.table) (hinit : X.initproc = s.initproc)
    (hnext : s.nextpid ≤ X.nextpid)
    (hlock : ∀ P, HoldsWait ((Step.sched X c p resume).frames (.process P)) →
      X.holder .waitLock = s.holder .waitLock)
    (hkeeps : Keeps (s.frames (.process p)) resume) :
    TreeOk (Step.sched X c p resume) ∧ Effect s (Step.sched X c p resume) := by
  refine ht.kept hkept hinit hnext (fun P => ?_) hlock
  rw [sched_frames_process]
  split_ifs with hP
  · subst hP
    exact .inr hkeeps
  · exact .inl (by rw [hX])

theorem TreeKept.giveUp (hc : ControlOk s) {X : Kernel} {c : CpuId} {p : Slot} {st : Procstate}
    {f : Proc → Proc} (hcur : s.current c = .process p) (hkept : TreeKept s.table X.table)
    (hst : stage st = .live) (hf : ∀ r, (f r).parent = r.parent ∧ (f r).pid = r.pid ∧ (f r).state = st) :
    TreeKept s.table (X.setProc p f).table := by
  obtain ⟨-, -, -, hrun⟩ := hc.current_process hcur
  refine hkept.trans (.setProc ?_ (hf _).1 (hf _).2.1)
  rw [(hf _).2.2, hst, (hkept p).1, hrun]
  rfl

theorem TreeOk.yield (ht : TreeOk s) (hc : ControlOk s) {X : Kernel} {c : CpuId} {p : Slot}
    {resume : List Frame} (hcur : s.current c = .process p) (hy : Step.yield X c p resume = some s')
    (hX : X.frames = s.frames) (hkept : TreeKept s.table X.table) (hinit : X.initproc = s.initproc)
    (hnext : s.nextpid ≤ X.nextpid) (hlock : X.holder .waitLock = s.holder .waitLock)
    (hkeeps : Keeps (s.frames (.process p)) resume) : TreeOk s' ∧ Effect s s' := by
  obtain ⟨-, rfl⟩ := yield_inv hy
  exact ht.sched hX (.giveUp hc hcur hkept rfl fun _ => ⟨rfl, rfl, rfl⟩) hinit hnext
    (fun _ _ => hlock) hkeeps

theorem TreeOk.sleep (ht : TreeOk s) (hc : ControlOk s) {c : CpuId} {p : Slot} {chan : Chan}
    {lk : Lock} {rest : List Frame} (hcur : s.current c = .process p)
    (hsl : Step.sleep s c p chan lk rest = some s') (hlk : lk ≠ .waitLock)
    (hkeeps : Keeps (s.frames (.process p)) (.sleepRelock lk :: rest)) : TreeOk s' ∧ Effect s s' := by
  obtain ⟨-, -, rfl⟩ := sleep_inv hsl
  exact ht.sched rfl (.giveUp hc hcur (.refl _) rfl fun _ => ⟨rfl, rfl, rfl⟩) rfl le_rfl
    (fun _ _ => by simp [Ne.symm hlk]) hkeeps

end Steps

/-! ## The steps that work on the tree -/

section Work

variable {s s' : Kernel} {fs : List Frame}

theorem exitPoint_of_neutral {fs : List Frame} (h : ∀ x ∈ fs, neutral x = true) :
    exitPoint fs = none := by
  have := exitPoint_append_neutral h []
  rwa [List.append_nil] at this

theorem ExitTail.all_neutral {fs : List Frame} (h : ExitTail fs) : ∀ x ∈ fs, neutral x = true := by
  rcases h with rfl | rfl <;> simp [neutral]

theorem FramesOk.of_neutral {X : Kernel} {P : Slot} {fs : List Frame}
    (h : ∀ x ∈ fs, neutral x = true) : FramesOk X P fs := by
  have hexit := exitPoint_of_neutral h
  have hwait : waitPoint fs = none := by
    cases fs with
    | nil => rfl
    | cons x fs => exact waitPoint_cons_neutral (h x (by simp)) fs
  refine ⟨fun np pid hm => ?_, fun np pid hm => ?_, fun i hi => ?_, fun i hi => ?_, fun hw => ?_⟩
  · simpa [neutral] using h _ hm
  · simpa [neutral] using h _ hm
  · rw [hexit] at hi
    cases hi
  · rw [hwait] at hi
    cases hi
  · exact absurd hw (by simp [HoldsWait, hexit, hwait])

theorem FramesOk.of_unlocked {X : Kernel} {Q : Slot} {fs : List Frame} (hfree : ¬ HoldsWait fs)
    (hadopting : ∀ np pid, Frame.forkParent np pid ∈ fs → (X.table.proc np).parent = none)
    (hadopted : ∀ np pid, Frame.forkRunnable np pid ∈ fs → (X.table.proc np).parent = some Q) :
    FramesOk X Q fs where
  adopting := hadopting
  adopted := hadopted
  exiting i hi := absurd (.inl (by simp [hi])) hfree
  scanned i hi := absurd (.inr (by simp [hi])) hfree
  waitLock hw := absurd hw hfree

theorem TreeOk.not_holdsWait (ht : TreeOk s) {Q : Slot} (h : s.holder .waitLock ≠ some (.process Q)) :
    ¬ HoldsWait (s.frames (.process Q)) :=
  fun hw => h ((ht.frames Q).waitLock hw)

/-- While `P` holds `wait_lock`, no other process is inside `kexit` or `kwait`. -/
theorem TreeOk.others_not_holdsWait (ht : TreeOk s) {P : Slot} (hlock : s.holder .waitLock = some (.process P))
    (Q : Slot) (hQ : Q ≠ P) : ¬ HoldsWait (s.frames (.process Q)) :=
  ht.not_holdsWait (by rw [hlock]; simpa using Ne.symm hQ)

theorem TreeOk.of_op (ht : TreeOk s) (hop : Op initSlot (tree s) (tree s'))
    (hinit : s'.initproc = s.initproc) (hnext : s.nextpid ≤ s'.nextpid)
    (hpid : ∀ q, (s'.table.proc q).state ≠ .unused → 0 < (s'.table.proc q).pid)
    (hframes : ∀ P, FramesOk s' P (s'.frames (.process P)))
    (hz : ∀ q, (s.table.proc q).state = .zombie → (s'.table.proc q).state = .zombie) :
    TreeOk s' ∧ Effect s s' :=
  ⟨⟨ht.wf.op hop, hinit.trans ht.initproc, by have := ht.nextpid; omega, hpid, hframes⟩, .op hop hz⟩

/-- `allocproc` for `kfork` of `P` takes the `UNUSED` entry `np`. -/
theorem TreeOk.forkAlloc_found (ht : TreeOk s) {P np : Slot} {i : Nat}
    (htop : s.frames (.process P) = [.forkAlloc i, .usertrapTail 0])
    (hrun : (s.table.proc P).state = .running) (hnp : (s.table.proc np).state = .unused) :
    TreeOk (((setA0 (allocprocFound s np) np 0).setFrames (.process np) []).setFrames (.process P)
      [.forkParent np s.nextpid, .usertrapTail 0]) ∧
    Effect s (((setA0 (allocprocFound s np) np 0).setFrames (.process np) []).setFrames (.process P)
      [.forkParent np s.nextpid, .usertrapTail 0]) := by
  have hne : np ≠ P := by
    rintro rfl
    rw [hrun] at hnp
    cases hnp
  have hfree : (s.table.proc np).parent = none := ht.wf.free_parent np (by simp [tree, hnp])
  have hpar : ∀ q, ((setA0 (allocprocFound s np) np 0).table.proc q).parent =
      (s.table.proc q).parent := by
    intro q
    by_cases hq : q = np <;> simp [allocprocFound, hq]
  have htree : tree (((setA0 (allocprocFound s np) np 0).setFrames (.process np) []).setFrames
      (.process P) [.forkParent np s.nextpid, .usertrapTail 0]) = (tree s).setStage np .embryo := by
    ext q
    · by_cases hq : q = np <;> simp [tree, allocprocFound, hq, stage]
    · by_cases hq : q = np <;> simp [tree, allocprocFound, hq]
  refine ht.of_op (htree ▸ .alloc (by simp [tree, hnp])) rfl
    (show s.nextpid ≤ s.nextpid + 1 by omega) (fun q hq => ?_) (fun Q => ?_) (fun q hq => ?_)
  · by_cases hqn : q = np
    · subst hqn
      simpa [allocprocFound] using ht.nextpid
    · simp only [setFrames_table, setA0_table, Table.setProc_proc, hqn, if_false] at hq ⊢
      simp only [allocprocFound, setProc_eq, mapTable_table, Table.setProc_proc, hqn,
        if_false] at hq ⊢
      exact ht.pid q hq
  · by_cases hQ : Q = P
    · subst hQ
      refine ⟨fun np' pid hm => ?_, fun np' pid hm => by simp at hm, fun i hi => by simp [exitPoint,
        exitIndex, List.findSome?_cons] at hi, fun i hi => by simp [waitPoint] at hi, fun hw => ?_⟩
      · simp at hm
        rw [hm.1]
        exact (hpar np).trans hfree
      · exact absurd hw (by simp [HoldsWait, exitPoint, exitIndex, List.findSome?_cons, waitPoint])
    · by_cases hQn : Q = np
      · subst hQn
        simpa [hQ] using FramesOk.of_neutral (X := (setA0 (allocprocFound s Q) Q 0)) (P := Q)
          (show ∀ x ∈ ([] : List Frame), neutral x = true by simp)
      · simpa [hQ, hQn] using (ht.frames Q).of_parents (X := setA0 (allocprocFound s np) np 0)
          hpar fun _ => rfl
  · have hqn : q ≠ np := by
      rintro rfl
      rw [hnp] at hq
      cases hq
    simpa [allocprocFound, hqn] using hq

/-- `kfork` of `P` sets the parent of the entry it has allocated. -/
theorem TreeOk.exec_forkParent (ht : TreeOk s) (hc : ControlOk s) {c : CpuId} {P np : Slot}
    {pid : Int} (hcur : s.current c = .process P)
    (htop : s.frames (.process P) = .forkParent np pid :: fs)
    (h : forkParentStep s P np pid fs = some s') : TreeOk s' ∧ Effect s s' := by
  obtain ⟨-, -, hs⟩ := (hc.stack_of htop).syscall_of rfl
  cases hs
  obtain ⟨hfree, rfl⟩ := forkParentStep_inv h
  obtain ⟨-, -, -, hrun⟩ := hc.current_process hcur
  have hcreates : Creates (s.frames (.process P)) np := ⟨pid, .inl (by simp [htop])⟩
  have hnone := (ht.frames P).adopting np pid (by simp [htop])
  have hother : ∀ Q np', Q ≠ P → Creates (s.frames (.process Q)) np' → np' ≠ np := by
    rintro Q np' hQ hQc rfl
    exact hQ (hc.creationUnique Q P np' hQc hcreates)
  have htree : tree ((s.setProc np fun r => { r with parent := some P }).setFrames (.process P)
      [.forkRunnable np pid, .usertrapTail 0]) = (tree s).setParent np (some P) := by
    ext q
    · by_cases hq : q = np <;> simp [tree, hq]
    · by_cases hq : q = np <;> simp [tree, hq]
  refine ht.of_op (htree ▸ .adopt (by simp [tree, hc.creationUsed P np hcreates, stage]) hnone
    (by simp [tree, hrun, stage])) rfl le_rfl (fun q hq => ?_) (fun Q => ?_) (fun q hq => ?_)
  · by_cases hqn : q = np
    · subst hqn
      simpa using ht.pid q (by simpa using hq)
    · simpa [hqn] using ht.pid q (by simpa [hqn] using hq)
  · by_cases hQ : Q = P
    · subst hQ
      simp only [setFrames_frames, if_true, framesOk_setFrames]
      refine ⟨fun np' pid' hm => by simp at hm, fun np' pid' hm => ?_, fun i hi => by
        simp [exitPoint, exitIndex, List.findSome?_cons] at hi, fun i hi => by simp [waitPoint] at hi,
        fun hw => ?_⟩
      · simp at hm
        simp [hm.1]
      · exact absurd hw (by simp [HoldsWait, exitPoint, exitIndex, List.findSome?_cons, waitPoint])
    · -- `wait_lock` is free, so no other process is in `kexit` or `kwait`
      have hfr := ht.not_holdsWait (Q := Q) (by rw [hfree]; simp)
      simp only [setFrames_frames, Thread.process.injEq, hQ, if_false, framesOk_setFrames]
      refine FramesOk.of_unlocked hfr (fun np' pid' hm => ?_) (fun np' pid' hm => ?_)
      · have hne := hother Q np' hQ ⟨pid', .inl hm⟩
        simpa [hne] using (ht.frames Q).adopting np' pid' hm
      · have hne := hother Q np' hQ ⟨pid', .inr hm⟩
        simpa [hne] using (ht.frames Q).adopted np' pid' hm
  · have hqn : q ≠ np := by
      rintro rfl
      rw [hc.creationUsed P q hcreates] at hq
      cases hq
    simpa [hqn] using hq

/-- `kfork` of `P` publishes the entry it has created as `RUNNABLE`. -/
theorem TreeOk.exec_forkRunnable (ht : TreeOk s) (hc : ControlOk s) {P np : Slot} {pid : Int}
    (htop : s.frames (.process P) = .forkRunnable np pid :: fs)
    (h : forkRunnableStep s P np pid fs = some s') : TreeOk s' ∧ Effect s s' := by
  obtain ⟨-, -, hs⟩ := (hc.stack_of htop).syscall_of rfl
  cases hs
  obtain ⟨-, hs'⟩ := forkRunnableStep_inv h
  have hcreates : Creates (s.frames (.process P)) np := ⟨pid, .inr (by simp [htop])⟩
  have hused := hc.creationUsed P np hcreates
  have hparent := (ht.frames P).adopted np pid (by simp [htop])
  have hpar : ∀ q, (s'.table.proc q).parent = (s.table.proc q).parent := by
    intro q
    by_cases hq : q = np <;> simp [hs', enqueue_proc, hq, apply_ite Proc.parent]
  have hstate : ∀ q, (s'.table.proc q).state =
      if q = np then .runnable else (s.table.proc q).state := by
    intro q
    by_cases hq : q = np <;> simp [hs', enqueue_proc, hq, apply_ite Proc.state]
  have hpid : ∀ q, (s'.table.proc q).pid = (s.table.proc q).pid := by
    intro q
    by_cases hq : q = np <;> simp [hs', enqueue_proc, hq, apply_ite Proc.pid]
  have htree : tree s' = (tree s).setStage np .live := by
    ext q
    · by_cases hq : q = np
      · simp only [tree, hstate, hq, if_true, ProcTree.Tree.setStage_stage]
        rfl
      · simp [tree, hstate, hq]
    · simp [tree, hpar]
  refine ht.of_op (htree ▸ .publish (by simp only [tree, hused]; rfl) (by simp [tree, hparent]))
    (by rw [hs']; rfl) (by rw [hs']; rfl) (fun q hq => ?_) (fun Q => ?_) (fun q hq => ?_)
  · rw [hpid]
    by_cases hqn : q = np
    · subst hqn
      exact ht.pid q (by rw [hused]; simp)
    · exact ht.pid q (by simpa [hstate, hqn] using hq)
  · have hother : ∀ Q, Q ≠ P → s'.frames (.process Q) = s.frames (.process Q) := by
      intro Q hQ
      simp [hs', hQ]
    by_cases hQ : Q = P
    · subst hQ
      rw [show s'.frames (.process Q) = [.usertrapTail 0] by simp [hs']]
      exact .of_neutral (by simp [neutral])
    · rw [hother Q hQ]
      exact (ht.frames Q).of_parents hpar fun _ => by rw [hs']; rfl
  · have hqn : q ≠ np := by
      rintro rfl
      rw [hused] at hq
      cases hq
    simpa [hstate, hqn] using hq

/-- The stack of `kexit` while it holds `wait_lock`: neutral frames `g` over
the exit frame `e`, which records how far `reparent` has got. -/
theorem FramesOk.exit {X : Kernel} {P : Slot} {g fs : List Frame} {e : Frame} {i : Nat}
    (hg : ∀ x ∈ g, neutral x = true) (he : exitIndex e = some i) (htail : ExitTail fs)
    (hP : P ≠ initSlot) (hq : ∀ q : Slot, q.val < i → (X.table.proc q).parent ≠ some P)
    (hlock : X.holder .waitLock = some (.process P)) : FramesOk X P (g ++ e :: fs) := by
  have hexit : exitPoint (g ++ e :: fs) = some i := by
    rw [exitPoint_append_neutral hg]
    simp [exitPoint, he]
  have hnotfork : ∀ x ∈ g ++ e :: fs, exitIndex x = none → neutral x = true := by
    intro x hx hxe
    rcases List.mem_append.mp hx with hx | hx
    · exact hg x hx
    · rcases List.mem_cons.mp hx with rfl | hx
      · rw [he] at hxe
        cases hxe
      · exact ExitTail.all_neutral htail x hx
  have hwait : waitPoint (g ++ e :: fs) = none := by
    cases g with
    | nil => exact waitPoint_cons (by rintro addr j havekids rfl; simp [exitIndex] at he) fs
    | cons x g => exact waitPoint_cons_neutral (hg x (by simp)) _
  refine ⟨fun np pid hm => ?_, fun np pid hm => ?_, fun j hj => ?_, fun j hj => ?_, fun _ => hlock⟩
  · simpa [neutral] using hnotfork _ hm rfl
  · simpa [neutral] using hnotfork _ hm rfl
  · rw [hexit] at hj
    cases hj
    exact ⟨hP, hq⟩
  · rw [hwait] at hj
    cases hj

theorem FramesOk.waitScan {X : Kernel} {P : Slot} {addr i : Nat} {havekids : Bool}
    (hq : havekids = false → ∀ q : Slot, q.val < i → (X.table.proc q).parent ≠ some P)
    (hlock : X.holder .waitLock = some (.process P)) :
    FramesOk X P [.waitScan addr i havekids, .usertrapTail 0] := by
  refine ⟨fun np pid hm => by simp at hm, fun np pid hm => by simp at hm, fun j hj => by
    simp [exitPoint, exitIndex, List.findSome?_cons] at hj, fun j hj => ?_, fun _ => hlock⟩
  simp only [waitPoint, Option.some.injEq, Prod.mk.injEq] at hj
  obtain ⟨rfl, rfl⟩ := hj
  exact hq rfl

theorem TreeOk.exec_exitStart (ht : TreeOk s) (hc : ControlOk s) {P : Slot} {status : Int}
    (htop : s.frames (.process P) = .exitStart status :: fs)
    (h : exitStartStep s P status fs = some s') : TreeOk s' ∧ Effect s s' := by
  obtain ⟨-, -, hs⟩ := (hc.stack_of htop).syscall_of rfl
  have htail : ExitTail fs := by
    cases hs
    assumption
  obtain ⟨hinit, hfree, rfl⟩ := exitStartStep_inv h
  refine ht.own rfl (.refl _) rfl le_rfl
    (fun Q _ hw => absurd hw (ht.not_holdsWait (by rw [hfree]; simp))) ?_
  exact FramesOk.exit (g := []) (by simp) rfl htail (fun hP => hinit (by rw [ht.initproc, hP]))
    (fun q hq => absurd hq (Nat.not_lt_zero _)) (by simp)

theorem TreeOk.exec_exitReparent (ht : TreeOk s) (hc : ControlOk s) {P : Slot} {status : Int}
    {i : Nat} (htop : s.frames (.process P) = .exitReparent status i :: fs) :
    TreeOk (exitReparentStep s P status i fs) ∧ Effect s (exitReparentStep s P status i fs) := by
  obtain ⟨-, -, hs⟩ := (hc.stack_of htop).syscall_of rfl
  have htail : ExitTail fs := by
    cases hs
    assumption
  have hpoint : exitPoint (s.frames (.process P)) = some i := by
    simp [htop, exitPoint, exitIndex, List.findSome?_cons]
  obtain ⟨hP, hdone⟩ := (ht.frames P).exiting i hpoint
  have hlock := (ht.frames P).waitLock (.inl (by simp [hpoint]))
  have hothers := ht.others_not_holdsWait hlock
  have hbelow : ∀ (hi : i < nproc) (q : Slot), q.val < i + 1 → q ≠ ⟨i, hi⟩ → q.val < i := by
    intro hi q hq hne
    have : q.val ≠ i := fun h => hne (Fin.ext h)
    omega
  rcases exitReparentStep_cases (s := s) P status i fs with ⟨hi, hpar, h⟩ | ⟨hi, hpar, h⟩ | ⟨hi, h⟩ <;>
    rw [h]
  · set X := s.setProc ⟨i, hi⟩ fun r => { r with parent := s.initproc } with hX
    have hparX : ∀ q, (X.table.proc q).parent =
        if q = ⟨i, hi⟩ then some initSlot else (s.table.proc q).parent := by
      intro q
      by_cases hq : q = ⟨i, hi⟩ <;> simp [hX, hq, ht.initproc]
    have hfield : ∀ q, (X.table.proc q).state = (s.table.proc q).state ∧
        (X.table.proc q).pid = (s.table.proc q).pid := by
      intro q
      by_cases hq : q = ⟨i, hi⟩ <;> simp [hX, hq]
    have htree : tree (X.setFrames (.process P) (.wakeupScan (s.initproc.map .proc) 0 ::
        .exitReparent status (i + 1) :: fs)) = (tree s).setParent ⟨i, hi⟩ (some initSlot) := by
      ext q
      · simp [tree, (hfield q).1]
      · simp [tree, hparX]
    refine ht.of_op (htree ▸ .reparent hpar) rfl le_rfl (fun q hq => ?_) (fun Q => ?_)
      (fun q hq => by simpa [(hfield q).1] using hq)
    · rw [setFrames_table, (hfield q).2]
      exact ht.pid q (by simpa [(hfield q).1] using hq)
    · by_cases hQ : Q = P
      · subst hQ
        simp only [setFrames_frames, if_true, framesOk_setFrames]
        refine FramesOk.exit (g := [.wakeupScan _ 0]) (by simp [neutral]) rfl htail hP
          (fun q hq => ?_) (by simpa [hX] using hlock)
        rw [hparX]
        split_ifs with hqi
        · simpa using hP.symm
        · exact hdone q (hbelow hi q hq hqi)
      · simp only [setFrames_frames, Thread.process.injEq, hQ, if_false, framesOk_setFrames]
        refine FramesOk.of_unlocked (hothers Q hQ) (fun np pid hm => ?_) (fun np pid hm => ?_)
        · -- the child being adopted has no parent, so it is not `i`
          have hnone := (ht.frames Q).adopting np pid hm
          have hne : np ≠ ⟨i, hi⟩ := by
            rintro rfl
            rw [hpar] at hnone
            cases hnone
          simpa [hparX, hne] using hnone
        · have hsome := (ht.frames Q).adopted np pid hm
          have hne : np ≠ ⟨i, hi⟩ := by
            rintro rfl
            rw [hpar] at hsome
            exact hQ (Option.some.inj hsome).symm
          simpa [hparX, hne] using hsome
  · refine ht.own rfl (.refl _) rfl le_rfl (fun Q hQ hw => absurd hw (hothers Q hQ)) ?_
    exact FramesOk.exit (g := []) (by simp) rfl htail hP
      (fun q hq => if hqi : q = ⟨i, hi⟩ then hqi ▸ hpar else hdone q (hbelow hi q hq hqi)) hlock
  · refine ht.own rfl (.refl _) rfl le_rfl (fun Q hQ hw => absurd hw (hothers Q hQ)) ?_
    exact FramesOk.exit (g := [.wakeupScan _ 0]) (by simp [neutral]) rfl htail hP
      (fun q _ => hdone q (by omega)) hlock

/-- `kexit` of `P` makes it a `ZOMBIE` once `reparent` has handed over all its children. -/
theorem TreeOk.exec_exitZombie (ht : TreeOk s) (hc : ControlOk s) {c : CpuId} {P : Slot}
    {status : Int} (hcur : s.current c = .process P)
    (htop : s.frames (.process P) = .exitZombie status :: fs)
    (h : exitZombieStep s c P status = some s') : TreeOk s' ∧ Effect s s' := by
  obtain ⟨-, -, hs'⟩ := exitZombieStep_inv h
  obtain ⟨-, -, -, hrun⟩ := hc.current_process hcur
  have hpoint : exitPoint (s.frames (.process P)) = some nproc := by
    simp [htop, exitPoint, exitIndex, List.findSome?_cons]
  obtain ⟨hP, hdone⟩ := (ht.frames P).exiting nproc hpoint
  have hlock := (ht.frames P).waitLock (.inl (by simp [hpoint]))
  have hothers := ht.others_not_holdsWait hlock
  have hstate : ∀ q, (s'.table.proc q).state = if q = P then .zombie else (s.table.proc q).state := by
    intro q
    by_cases hq : q = P <;> simp [hs', hq]
  have hfield : ∀ q, (s'.table.proc q).parent = (s.table.proc q).parent ∧
      (s'.table.proc q).pid = (s.table.proc q).pid := by
    intro q
    by_cases hq : q = P <;> simp [hs', hq]
  have htree : tree s' = (tree s).setStage P .zombie := by
    ext q
    · by_cases hq : q = P <;> simp [tree, hstate, hq]
    · simp [tree, (hfield q).1]
  refine ht.of_op (htree ▸ .exit (by simp only [tree, hrun]; rfl) hP fun q => hdone q q.isLt)
    (by rw [hs']; rfl) (by rw [hs']; rfl) (fun q hq => ?_) (fun Q => ?_) (fun q hq => ?_)
  · rw [(hfield q).2]
    by_cases hqP : q = P
    · subst hqP
      exact ht.pid q (by rw [hrun]; simp)
    · exact ht.pid q (by simpa [hstate, hqP] using hq)
  · have hframes : s'.frames (.process Q) = if Q = P then [] else s.frames (.process Q) := by
      rw [hs', sched_frames_process]
      rfl
    rw [hframes]
    split_ifs with hQ
    · exact .of_neutral (by simp)
    · refine FramesOk.of_unlocked (hothers Q hQ) (fun np pid hm => ?_) (fun np pid hm => ?_)
      · rw [(hfield np).1]
        exact (ht.frames Q).adopting np pid hm
      · rw [(hfield np).1]
        exact (ht.frames Q).adopted np pid hm
  · have hqP : q ≠ P := by
      rintro rfl
      rw [hrun] at hq
      cases hq
    simpa [hstate, hqP] using hq

theorem TreeOk.waitAcquire (ht : TreeOk s) {P : Slot} {addr : Nat}
    (h : acquireStep s (.process P) .waitLock [.waitScan addr 0 false, .usertrapTail 0] = some s') :
    TreeOk s' ∧ Effect s s' := by
  obtain ⟨hfree, rfl⟩ := acquireStep_inv h
  refine ht.own rfl (.refl _) rfl le_rfl
    (fun Q _ hw => absurd hw (ht.not_holdsWait (by rw [hfree]; simp))) ?_
  exact FramesOk.waitScan (fun _ q hq => absurd hq (Nat.not_lt_zero _)) (by simp)

theorem TreeOk.waitReturn (ht : TreeOk s) {X : Kernel} {P : Slot} {v : Int}
    (hlock : s.holder .waitLock = some (.process P)) (hX : X.frames = s.frames)
    (hkept : TreeKept s.table X.table) (hinit : X.initproc = s.initproc)
    (hnext : X.nextpid = s.nextpid) (hw : Step.waitReturn X P v [.usertrapTail 0] = some s') :
    TreeOk s' ∧ Effect s s' := by
  obtain ⟨-, rfl⟩ := waitReturn_inv hw
  refine ht.own hX (hkept.trans (.setProc_fields fun _ => ⟨rfl, rfl, rfl⟩)) hinit hnext.ge
    (fun Q hQ hw => absurd hw (ht.not_holdsWait (by rw [hlock]; simpa using Ne.symm hQ)))
    (.of_neutral (by simp [neutral]))

/-- `kwait` of `P` reaps its `ZOMBIE` child `q`. -/
theorem TreeOk.reap (ht : TreeOk s) (hc : ControlOk s) {c : CpuId} {P q : Slot} {addr : Nat}
    {havekids : Bool} (hcur : s.current c = .process P)
    (htop : s.frames (.process P) = [.waitScan addr q.val havekids, .usertrapTail 0])
    (hpar : (s.table.proc q).parent = some P) (hz : (s.table.proc q).state = .zombie)
    (hw : Step.waitReturn (s.setProc q freeproc) P (s.table.proc q).pid [.usertrapTail 0] = some s') :
    TreeOk s' ∧ Effect s s' := by
  obtain ⟨-, hs'⟩ := waitReturn_inv hw
  obtain ⟨-, -, -, hrun⟩ := hc.current_process hcur
  have hqP : q ≠ P := by
    rintro rfl
    rw [hrun] at hz
    cases hz
  have hlock := (ht.frames P).waitLock (.inr (by simp [htop, waitPoint]))
  have hproc : ∀ x, s'.table.proc x =
      if x = P then { s.table.proc x with a0 := (s.table.proc q).pid }
      else if x = q then freeproc (s.table.proc x) else s.table.proc x := by
    intro x
    by_cases hxP : x = P
    · subst hxP
      simp [hs', hqP.symm]
    · simp [hs', hxP]
  have htree : tree s' = (tree s).reap q := by
    ext x
    · by_cases hxP : x = P
      · subst hxP
        simp [tree, hproc, ProcTree.Tree.reap, hqP.symm]
      · by_cases hxq : x = q <;> simp [tree, hproc, ProcTree.Tree.reap, hxP, hxq, hqP, freeproc_state]
    · by_cases hxP : x = P
      · subst hxP
        simp [tree, hproc, ProcTree.Tree.reap, hqP.symm]
      · by_cases hxq : x = q <;> simp [tree, hproc, ProcTree.Tree.reap, hxP, hxq, hqP, freeproc_parent]
  have hreaps : Reaps s q s' :=
    ⟨c, P, addr, havekids, hcur, htop, hpar, hz, by simp [hproc, hqP], by simp [hproc],
      by simp [hs']⟩
  refine ⟨⟨htree ▸ ht.wf.reap (by simp [tree, hz]), by rw [hs']; exact ht.initproc,
    by rw [hs']; exact ht.nextpid, fun x hx => ?_, fun Q => ?_⟩, .reap q hreaps htree⟩
  · by_cases hxP : x = P
    · subst hxP
      simpa [hproc] using ht.pid x (by rw [hrun]; simp)
    · by_cases hxq : x = q
      · subst hxq
        simp [hproc, hxP, freeproc_state] at hx
      · simp only [hproc, hxP, hxq, if_false] at hx ⊢
        exact ht.pid x hx
  · by_cases hQ : Q = P
    · subst hQ
      rw [show s'.frames (.process Q) = [.usertrapTail 0] by simp [hs']]
      exact .of_neutral (by simp [neutral])
    · rw [show s'.frames (.process Q) = s.frames (.process Q) by simp [hs', hQ]]
      have hparQ : ∀ x, x ≠ q → (s'.table.proc x).parent = (s.table.proc x).parent := by
        intro x hxq
        by_cases hxP : x = P <;> simp [hproc, hxP, hxq]
      refine FramesOk.of_unlocked (ht.not_holdsWait (by rw [hlock]; simpa using Ne.symm hQ))
        (fun np pid hm => ?_) (fun np pid hm => ?_)
      · by_cases hnq : np = q
        · subst hnq
          simp [hproc, hqP, freeproc_parent]
        · rw [hparQ np hnq]
          exact (ht.frames Q).adopting np pid hm
      · -- the reaped child's parent is `P`, so it is no child `Q` has adopted
        have hsome := (ht.frames Q).adopted np pid hm
        have hnq : np ≠ q := by
          rintro rfl
          rw [hpar] at hsome
          exact hQ (Option.some.inj hsome).symm
        rw [hparQ np hnq]
        exact hsome

theorem TreeOk.exec_waitScan (ht : TreeOk s) (hc : ControlOk s) {c : CpuId} {P : Slot}
    {addr i : Nat} {havekids ok : Bool} (hcur : s.current c = .process P)
    (htop : s.frames (.process P) = .waitScan addr i havekids :: fs)
    (h : waitScanStep s c P addr i havekids ok fs = some s') : TreeOk s' ∧ Effect s s' := by
  obtain ⟨-, -, hs⟩ := (hc.stack_of htop).syscall_of rfl
  cases hs
  have hpoint : waitPoint (s.frames (.process P)) = some (i, havekids) := by simp [htop, waitPoint]
  have hlock := (ht.frames P).waitLock (.inr (by simp [hpoint]))
  have hothers := ht.others_not_holdsWait hlock
  rcases waitScanStep_inv h with ⟨hi, -, -, -, -, -, hw⟩ | ⟨hi, hpar, -, hz, -, hw⟩ |
    ⟨hi, -, -, -, rfl⟩ | ⟨hi, hpar, rfl⟩ | ⟨-, -, -, hw⟩ | ⟨-, -, -, hsl⟩
  · exact ht.waitReturn hlock rfl (.refl _) rfl rfl hw
  · exact ht.reap hc hcur htop hpar hz hw
  · exact ht.own rfl (.refl _) rfl le_rfl (fun Q hQ hw => absurd hw (hothers Q hQ))
      (FramesOk.waitScan (fun h => nomatch h) hlock)
  · refine ht.own rfl (.refl _) rfl le_rfl (fun Q hQ hw => absurd hw (hothers Q hQ))
      (FramesOk.waitScan (fun hk q hq => ?_) hlock)
    by_cases hqi : q = ⟨i, hi⟩
    · rw [hqi]
      exact hpar
    · have : q.val ≠ i := fun h => hqi (Fin.ext h)
      exact (ht.frames P).scanned i (by rw [hpoint, hk]) q (by omega)
  · exact ht.waitReturn hlock rfl (.refl _) rfl rfl hw
  · obtain ⟨-, -, rfl⟩ := sleep_inv hsl
    refine ht.sched rfl (.giveUp hc hcur (.refl _) rfl fun _ => ⟨rfl, rfl, rfl⟩) rfl le_rfl
      (fun Q hw => ?_) ⟨by simp [htop], by simp [htop], by simp [htop, exitPoint, exitIndex,
        List.findSome?_cons], rfl⟩
    rw [sched_frames_process] at hw
    split_ifs at hw with hQ
    · exact absurd hw (by simp [HoldsWait, exitPoint, exitIndex, List.findSome?_cons, waitPoint])
    · exact absurd hw (hothers Q hQ)

end Work

/-! ## Each critical section keeps the process tree -/

section Sections

variable {s s' : Kernel} {t : Thread} {fs : List Frame}

theorem acquireLock_ne_waitLock {lk : Lock} (h : StackOk t (.acquireLock lk :: fs)) :
    lk ≠ .waitLock := by
  have hh : HandlerStack t (.acquireLock lk :: fs) → lk ≠ .waitLock := by
    intro hh
    cases hh with
    | ret hr => cases hr
    | devAcquire => simp
  cases t with
  | process p =>
      rcases h with h | h | h
      · cases h
      · cases h <;> simp
      · exact hh h
  | scheduler c =>
      rcases h with h | h
      · cases h
      · exact hh h

theorem releaseLock_ne_waitLock {lk : Lock} (h : StackOk t (.releaseLock lk :: fs)) :
    lk ≠ .waitLock := by
  have hh : HandlerStack t (.releaseLock lk :: fs) → lk ≠ .waitLock := by
    intro hh
    cases hh with
    | ret hr => cases hr
    | devRelease => simp
  cases t with
  | process p =>
      rcases h with h | h | h
      · cases h
      · cases h
        simp
      · exact hh h
  | scheduler c =>
      rcases h with h | h
      · cases h
      · exact hh h

theorem TreeOk.loop (ht : TreeOk s) {c : CpuId} {fs' : List Frame} {X : Kernel}
    (hX : X.frames = s.frames) (hkept : TreeKept s.table X.table) (hinit : X.initproc = s.initproc)
    (hnext : s.nextpid ≤ X.nextpid) (hlock : X.holder .waitLock = s.holder .waitLock) :
    TreeOk (X.setFrames (.scheduler c) fs') ∧ Effect s (X.setFrames (.scheduler c) fs') :=
  ht.local hX hkept hinit hnext hlock fun _ h => nomatch h

theorem TreeOk.exec_schedTop (ht : TreeOk s) (hc : ControlOk s) (htop : s.frames t = .schedTop :: fs) :
    TreeOk (schedTopStep s t fs) ∧ Effect s (schedTopStep s t fs) := by
  obtain ⟨c, rfl, -⟩ := (hc.stack_of htop).loop_of rfl
  simp only [schedTopStep]
  split_ifs
  · exact ht.loop rfl (.refl _) rfl le_rfl rfl
  · exact ht.loop rfl (.refl _) rfl le_rfl rfl

theorem TreeOk.exec_schedScan (ht : TreeOk s) (hc : ControlOk s) {level : Nat}
    (htop : s.frames t = .schedScan level :: fs) :
    TreeOk (schedScanStep s t level fs) ∧ Effect s (schedScanStep s t level fs) := by
  obtain ⟨c, rfl, -⟩ := (hc.stack_of htop).loop_of rfl
  rcases schedScanStep_cases (s := s) (.scheduler c) level fs with
    ⟨-, -, h⟩ | ⟨p, -, -, h⟩ | ⟨-, h⟩ <;> rw [h]
  · exact ht.loop rfl (.dequeue _ _) rfl le_rfl rfl
  · exact ht.loop rfl (.dequeue _ _) rfl le_rfl rfl
  · exact ht.loop rfl (.refl _) rfl le_rfl rfl

theorem TreeOk.exec_schedLock (ht : TreeOk s) (hc : ControlOk s) {c : CpuId} {level : Nat} {p : Slot}
    (htop : s.frames t = .schedLock level p :: fs) (h : schedLockStep s c t level p fs = some s') :
    TreeOk s' ∧ Effect s s' := by
  obtain ⟨c', rfl, -⟩ := (hc.stack_of htop).loop_of rfl
  obtain ⟨-, ⟨hrun, rfl⟩ | ⟨-, rfl⟩⟩ := schedLockStep_inv h
  · have hkept : TreeKept s.table (dispatch s c level p).table := by
      rw [dispatch_table]
      exact .table_setProc (by rw [hrun]; rfl) rfl rfl
    exact ht.loop rfl hkept rfl le_rfl rfl
  · exact ht.loop rfl (.refl _) rfl le_rfl rfl

theorem TreeOk.exec_schedReturned (ht : TreeOk s) (hc : ControlOk s) {c : CpuId} {p : Slot}
    (htop : s.frames t = .schedReturned p :: fs) :
    TreeOk (schedReturnedStep s c t p fs) ∧ Effect s (schedReturnedStep s c t p fs) := by
  obtain ⟨c', rfl, -⟩ := (hc.stack_of htop).loop_of rfl
  simp only [schedReturnedStep]
  split_ifs
  · exact ht.loop rfl (.enqueue _ _) rfl le_rfl rfl
  · exact ht.loop rfl (.refl _) rfl le_rfl rfl

theorem TreeOk.exec_boostClear (ht : TreeOk s) (hc : ControlOk s) (htop : s.frames t = .boostClear :: fs) :
    TreeOk ((s.mapTable clearRunqueues).setFrames t (.boostScan 0 :: fs)) ∧
      Effect s ((s.mapTable clearRunqueues).setFrames t (.boostScan 0 :: fs)) :=
  ht.of_neutral hc (g := [.boostScan 0]) htop rfl (.of_eq fun _ => ⟨rfl, rfl, rfl⟩) rfl le_rfl rfl rfl
    (by simp) (by simp [neutral])

theorem TreeOk.exec_boostScan (ht : TreeOk s) (hc : ControlOk s) {i : Nat}
    (htop : s.frames t = .boostScan i :: fs) (h : boostScanStep s t i fs = some s') :
    TreeOk s' ∧ Effect s s' := by
  rcases boostScanStep_inv h with ⟨hi, -, rfl⟩ | ⟨-, rfl⟩
  · exact ht.of_neutral hc (g := [.boostScan (i + 1)]) htop rfl (.boostIter _ _) rfl le_rfl rfl rfl
      (by simp) (by simp [neutral])
  · exact ht.of_neutral hc (g := []) htop rfl (.refl _) rfl le_rfl rfl rfl (by simp) (by simp)

theorem TreeOk.exec_wakeupScan (ht : TreeOk s) (hc : ControlOk s) {c : CpuId} {chan : Option Chan}
    {i : Nat} (htop : s.frames t = .wakeupScan chan i :: fs)
    (h : wakeupScanStep s c t chan i fs = some s') : TreeOk s' ∧ Effect s s' := by
  rcases wakeupScanStep_inv h with ⟨hi, -, rfl⟩ | ⟨-, rfl⟩
  · exact ht.of_neutral hc (g := [.wakeupScan chan (i + 1)]) htop rfl (.wakeupIter _ _ _ _) rfl le_rfl
      rfl rfl (by simp) (by simp [neutral])
  · exact ht.of_neutral hc (g := []) htop rfl (.refl _) rfl le_rfl rfl rfl (by simp) (by simp)

theorem TreeOk.exec_clockTicks (ht : TreeOk s) (hc : ControlOk s) {c : CpuId}
    (htop : s.frames t = .clockTicks :: fs) (h : clockTicksStep s c t fs = some s') :
    TreeOk s' ∧ Effect s s' := by
  rcases clockTicksStep_inv h with ⟨-, -, rfl⟩ | ⟨-, rfl⟩
  · exact ht.of_neutral hc (g := [.wakeupScan (some .ticks) 0, .clockRelease, .clockQuantum]) htop rfl
      (.refl _) rfl le_rfl (by simp) rfl (by simp) (by simp [neutral])
  · exact ht.of_neutral hc (g := [.clockQuantum]) htop rfl (.refl _) rfl le_rfl rfl rfl (by simp)
      (by simp [neutral])

theorem TreeOk.exec_acquire (ht : TreeOk s) (hc : ControlOk s) {f : Frame} {lk : Lock}
    {g : List Frame} (htop : s.frames t = f :: fs) (h : acquireStep s t lk (g ++ fs) = some s')
    (hlk : lk ≠ .waitLock) (hf : neutral f = true) (hf' : f ≠ .sleepRelock .waitLock)
    (hg : ∀ x ∈ g, neutral x = true) : TreeOk s' ∧ Effect s s' := by
  obtain ⟨-, rfl⟩ := acquireStep_inv h
  exact ht.of_neutral hc htop rfl (.refl _) rfl le_rfl (by simp [Ne.symm hlk]) hf hf' hg

theorem TreeOk.exec_release (ht : TreeOk s) (hc : ControlOk s) {f : Frame} {lk : Lock}
    (htop : s.frames t = f :: fs) (h : releaseStep s t lk fs = some s') (hlk : lk ≠ .waitLock)
    (hf : neutral f = true) (hf' : f ≠ .sleepRelock .waitLock) : TreeOk s' ∧ Effect s s' := by
  obtain ⟨-, rfl⟩ := releaseStep_inv h
  exact ht.of_neutral hc (g := []) htop rfl (.refl _) rfl le_rfl (by simp [Ne.symm hlk]) hf hf' (by simp)

theorem TreeOk.exec_sleepRelock (ht : TreeOk s) (hc : ControlOk s) {lk : Lock}
    (htop : s.frames t = .sleepRelock lk :: fs) (h : acquireStep s t lk fs = some s') :
    TreeOk s' ∧ Effect s s' := by
  obtain ⟨p, rfl, hs⟩ := (hc.stack_of htop).syscall_of rfl
  cases hs
  · exact ht.waitAcquire h
  · exact ht.exec_acquire hc (g := []) htop h (by simp) rfl (by simp) (by simp)
  · exact ht.exec_acquire hc (g := []) htop h (by simp) rfl (by simp) (by simp)

theorem TreeOk.exec_clockQuantum (ht : TreeOk s) (hc : ControlOk s) {c : CpuId}
    (ht' : s.current c = t) (htop : s.frames t = .clockQuantum :: fs)
    (h : clockQuantumStep s c t fs = some s') : TreeOk s' ∧ Effect s s' := by
  have hkeeps : Keeps (.clockQuantum :: fs) (.clockRearm :: fs) :=
    Keeps.replace (g := [.clockRearm]) rfl (by simp [neutral])
      (waitPoint_replace (hc.stack_of htop) (by simp) (by simp [neutral]))
  subst ht'
  rcases clockQuantumStep_inv h with ⟨p, hme, -, -, -, hy⟩ | ⟨p, hme, -, -, -, hy⟩ |
    ⟨p, -, -, -, rfl⟩ | ⟨-, rfl⟩
  · have hcur := hc.current_of_myproc hme htop rfl
    rw [hcur] at htop
    exact ht.yield hc hcur hy rfl
      (by simp only [setStats_table]; exact .setProc_fields fun _ => ⟨rfl, rfl, rfl⟩) rfl le_rfl rfl
      (htop ▸ hkeeps)
  · have hcur := hc.current_of_myproc hme htop rfl
    rw [hcur] at htop
    exact ht.yield hc hcur hy rfl (.setProc_fields fun _ => ⟨rfl, rfl, rfl⟩) rfl le_rfl rfl
      (htop ▸ hkeeps)
  · exact ht.local rfl (.setProc_fields fun _ => ⟨rfl, rfl, rfl⟩) rfl le_rfl rfl
      fun _ _ => htop ▸ hkeeps
  · exact ht.local rfl (.refl _) rfl le_rfl rfl fun _ _ => htop ▸ hkeeps

theorem TreeOk.exec_clockRearm (ht : TreeOk s) (hc : ControlOk s) {c : CpuId}
    (htop : s.frames t = .clockRearm :: fs) :
    TreeOk (clockRearmStep s c t fs) ∧ Effect s (clockRearmStep s c t fs) :=
  ht.of_neutral hc (g := []) htop rfl (.refl _) rfl le_rfl rfl rfl (by simp) (by simp)

theorem TreeOk.exec_usertrapTail (ht : TreeOk s) (hc : ControlOk s) {c : CpuId} {p : Slot} {w : Nat}
    (hcur : s.current c = .process p) (htop : s.frames (.process p) = .usertrapTail w :: fs)
    (h : usertrapTailStep s c p w fs = some s') : TreeOk s' ∧ Effect s s' := by
  obtain ⟨rfl, -⟩ := (hc.stack_of htop).usertrapTail
  have hkeeps : Keeps (.usertrapTail w :: []) ([] ++ []) := Keeps.replace rfl (by simp) rfl
  rcases usertrapTailStep_inv h with ⟨-, ⟨-, rfl⟩ | ⟨-, -, hy⟩ | ⟨-, -, rfl⟩⟩
  · exact ht.of_neutral hc (g := [.exitStart (-1)]) htop rfl (.refl _) rfl le_rfl rfl rfl (by simp)
      (by simp [neutral])
  · exact ht.yield hc hcur hy rfl (.refl _) rfl le_rfl rfl (htop ▸ hkeeps)
  · exact ht.local rfl (.refl _) rfl le_rfl rfl fun _ _ => htop ▸ hkeeps

theorem TreeOk.exec_kerneltrapTail (ht : TreeOk s) (hc : ControlOk s) {c : CpuId} {w : Nat}
    (ht' : s.current c = t) (htop : s.frames t = .kerneltrapTail w :: fs)
    (h : kerneltrapTailStep s c t w fs = some s') : TreeOk s' ∧ Effect s s' := by
  have hkeeps : Keeps (.kerneltrapTail w :: fs) ([] ++ fs) :=
    Keeps.replace rfl (by simp) (waitPoint_replace (hc.stack_of htop) (by simp) (by simp))
  rcases kerneltrapTailStep_inv h with ⟨p, hme, -, hy⟩ | ⟨-, rfl⟩
  · subst ht'
    have hcur := hc.current_of_myproc hme htop rfl
    rw [hcur] at htop
    exact ht.yield hc hcur hy rfl (.refl _) rfl le_rfl rfl (htop ▸ hkeeps)
  · exact ht.local rfl (.refl _) rfl le_rfl rfl fun _ _ => htop ▸ hkeeps

theorem TreeOk.exec_sysret (ht : TreeOk s) (hc : ControlOk s) {p : Slot} {v : Int}
    (htop : s.frames (.process p) = .sysret v :: fs) :
    TreeOk ((setA0 s p v).setFrames (.process p) fs) ∧
      Effect s ((setA0 s p v).setFrames (.process p) fs) :=
  ht.of_neutral hc (g := []) htop rfl (.setProc_fields fun _ => ⟨rfl, rfl, rfl⟩) rfl le_rfl rfl rfl
    (by simp) (by simp)

theorem TreeOk.exec_forkAlloc (ht : TreeOk s) (hc : ControlOk s) {c : CpuId} {p : Slot} {i : Nat}
    {ok : Bool} (hcur : s.current c = .process p)
    (htop : s.frames (.process p) = .forkAlloc i :: fs) (h : forkAllocStep s p i ok fs = some s') :
    TreeOk s' ∧ Effect s s' := by
  obtain ⟨-, -, hs⟩ := (hc.stack_of htop).syscall_of rfl
  cases hs
  obtain ⟨-, -, -, hrun⟩ := hc.current_process hcur
  rcases forkAllocStep_inv h with ⟨hi, -, hunused, -, rfl⟩ | ⟨hi, -, hunused, -, rfl⟩ |
    ⟨hi, -, -, rfl⟩ | ⟨-, rfl⟩
  · exact ht.forkAlloc_found htop hrun hunused
  · have hne : (⟨i, hi⟩ : Slot) ≠ p := by
      rintro rfl
      rw [hrun] at hunused
      cases hunused
    have hfree : (s.table.proc ⟨i, hi⟩).parent = none :=
      ht.wf.free_parent ⟨i, hi⟩ (by simp [tree, hunused])
    have hkept : TreeKept s.table
        (setA0 ((allocprocFound s ⟨i, hi⟩).setProc ⟨i, hi⟩ freeproc) p (-1)).table := by
      intro q
      by_cases hq : q = ⟨i, hi⟩
      · subst hq
        simp [allocprocFound, freeproc, hne, hunused, hfree, stage]
      · simp [allocprocFound, hq, apply_ite Proc.state, apply_ite Proc.parent, apply_ite Proc.pid]
    exact ht.of_neutral hc (g := []) htop rfl hkept rfl
      (show s.nextpid ≤ s.nextpid + 1 by omega) rfl rfl (by simp) (by simp)
  · exact ht.of_neutral hc (g := [.forkAlloc (i + 1)]) htop rfl (.refl _) rfl le_rfl rfl rfl (by simp)
      (by simp [neutral])
  · exact ht.of_neutral hc (g := []) htop rfl (.setProc_fields fun _ => ⟨rfl, rfl, rfl⟩) rfl le_rfl
      rfl rfl (by simp) (by simp)

theorem TreeOk.exec_killScan (ht : TreeOk s) (hc : ControlOk s) {p : Slot} {pid : Int} {i : Nat}
    (htop : s.frames (.process p) = .killScan pid i :: fs) (h : killScanStep s p pid i fs = some s') :
    TreeOk s' ∧ Effect s s' := by
  rcases killScanStep_inv h with ⟨hi, -, -, rfl⟩ | ⟨hi, -, -, rfl⟩ | ⟨-, rfl⟩
  · have hkept : TreeKept s.table (setA0 (s.setProc ⟨i, hi⟩ fun r =>
        { r with killed := true, state := if r.state = .sleeping then .runnable else r.state })
          p 0).table :=
      (TreeKept.setProc (by split_ifs with hs <;> simp [hs, stage]) rfl rfl).trans
        (.setProc_fields fun _ => ⟨rfl, rfl, rfl⟩)
    exact ht.of_neutral hc (g := []) htop rfl hkept rfl le_rfl rfl rfl (by simp) (by simp)
  · exact ht.of_neutral hc (g := [.killScan pid (i + 1)]) htop rfl (.refl _) rfl le_rfl rfl rfl
      (by simp) (by simp [neutral])
  · exact ht.of_neutral hc (g := []) htop rfl (.setProc_fields fun _ => ⟨rfl, rfl, rfl⟩) rfl le_rfl
      rfl rfl (by simp) (by simp)

theorem TreeOk.exec_boostprocScan (ht : TreeOk s) (hc : ControlOk s) {p : Slot} {pid : Int} {i : Nat}
    (htop : s.frames (.process p) = .boostprocScan pid i :: fs)
    (h : boostprocScanStep s p pid i fs = some s') : TreeOk s' ∧ Effect s s' := by
  rcases boostprocScanStep_inv h with ⟨hi, -, -, rfl⟩ | ⟨hi, -, -, rfl⟩ | ⟨-, rfl⟩
  · exact ht.of_neutral hc (g := []) htop rfl
      (.of_eq fun q => by simp [apply_ite Proc.state, apply_ite Proc.parent, apply_ite Proc.pid])
      rfl le_rfl rfl rfl (by simp) (by simp)
  · exact ht.of_neutral hc (g := [.boostprocScan pid (i + 1)]) htop rfl (.refl _) rfl le_rfl rfl rfl
      (by simp) (by simp [neutral])
  · exact ht.of_neutral hc (g := []) htop rfl (.setProc_fields fun _ => ⟨rfl, rfl, rfl⟩) rfl le_rfl
      rfl rfl (by simp) (by simp)

theorem TreeOk.exec_pauseLoop (ht : TreeOk s) (hc : ControlOk s) {c : CpuId} {p : Slot}
    {ticks0 n : Nat} (hcur : s.current c = .process p)
    (htop : s.frames (.process p) = .pauseLoop ticks0 n :: fs)
    (h : pauseLoopStep s c p ticks0 n fs = some s') : TreeOk s' ∧ Effect s s' := by
  rcases pauseLoopStep_inv h with ⟨-, -, -, -, rfl⟩ | ⟨-, -, -, hsl⟩ | ⟨-, -, rfl⟩
  · exact ht.of_neutral hc (g := []) htop rfl (.setProc_fields fun _ => ⟨rfl, rfl, rfl⟩) rfl le_rfl
      (by simp) rfl (by simp) (by simp)
  · refine ht.sleep hc hcur hsl (by simp) ?_
    rw [htop]
    exact Keeps.replace (g := [.sleepRelock .tickslock, .pauseLoop ticks0 n]) rfl (by simp [neutral]) rfl
  · exact ht.of_neutral hc (g := []) htop rfl (.setProc_fields fun _ => ⟨rfl, rfl, rfl⟩) rfl le_rfl
      (by simp) rfl (by simp) (by simp)

theorem TreeOk.exec_sleepCall (ht : TreeOk s) (hc : ControlOk s) {c : CpuId} {p : Slot} {chan : Chan}
    {lk : Lock} (hcur : s.current c = .process p)
    (htop : s.frames (.process p) = .sleepCall chan lk :: fs) (h : Step.sleep s c p chan lk fs = some s') :
    TreeOk s' ∧ Effect s s' := by
  obtain ⟨-, -, hs⟩ := (hc.stack_of htop).syscall_of rfl
  cases hs
  refine ht.sleep hc hcur h (by simp) ?_
  rw [htop]
  exact Keeps.replace (g := [.sleepRelock _]) rfl (by simp [neutral]) rfl

end Sections

/-! ## Every step keeps the process tree -/

section Preservation

variable {s s' : Kernel}

theorem TreeOk.exec (ht : TreeOk s) (hc : ControlOk s) {c : CpuId} {ok : Bool}
    (h : step s (.exec c ok) = some s') : TreeOk s' ∧ Effect s s' := by
  obtain ⟨f, fs, htop, h⟩ := step_exec_inv h
  generalize ht' : s.current c = t at htop h
  cases f with
  | schedTop =>
      cases h
      exact ht.exec_schedTop hc htop
  | schedBoosted =>
      cases h
      obtain ⟨c', rfl, -⟩ := (hc.stack_of htop).loop_of rfl
      exact ht.loop rfl (.refl _) rfl le_rfl rfl
  | schedScan level =>
      cases h
      exact ht.exec_schedScan hc htop
  | schedLock level p => exact ht.exec_schedLock hc htop h
  | schedSwtch => cases h
  | schedReturned p =>
      cases h
      exact ht.exec_schedReturned hc htop
  | boostClear =>
      cases h
      exact ht.exec_boostClear hc htop
  | boostScan i => exact ht.exec_boostScan hc htop h
  | wakeupScan chan i => exact ht.exec_wakeupScan hc htop h
  | clockTicks => exact ht.exec_clockTicks hc htop h
  | clockRelease => exact ht.exec_release hc htop h (by simp) rfl (by simp)
  | clockQuantum => exact ht.exec_clockQuantum hc ht' htop h
  | clockRearm =>
      cases h
      exact ht.exec_clockRearm hc htop
  | kerneltrapTail w => exact ht.exec_kerneltrapTail hc ht' htop h
  | acquireLock lk =>
      exact ht.exec_acquire hc (g := []) htop h (acquireLock_ne_waitLock (hc.stack_of htop)) rfl
        (by simp) (by simp)
  | releaseLock lk =>
      exact ht.exec_release hc htop h (releaseLock_ne_waitLock (hc.stack_of htop)) rfl (by simp)
  | sleepRelock lk => exact ht.exec_sleepRelock hc htop h
  | waitStart addr =>
      obtain ⟨p, rfl, hs⟩ := (hc.stack_of htop).syscall_of rfl
      cases hs
      exact ht.waitAcquire h
  | pauseStart n =>
      exact ht.exec_acquire hc (g := [.pauseLoop _ _]) htop h (by simp) rfl (by simp)
        (by simp [neutral])
  | usertrapTail w =>
      obtain ⟨p, rfl, h⟩ := onProcess_inv h
      exact ht.exec_usertrapTail hc ht' htop h
  | sysret v =>
      obtain ⟨p, rfl, h⟩ := onProcess_inv h
      cases h
      exact ht.exec_sysret hc htop
  | forkAlloc i =>
      obtain ⟨p, rfl, h⟩ := onProcess_inv h
      exact ht.exec_forkAlloc hc ht' htop h
  | forkParent np pid =>
      obtain ⟨p, rfl, h⟩ := onProcess_inv h
      exact ht.exec_forkParent hc ht' htop h
  | forkRunnable np pid =>
      obtain ⟨p, rfl, h⟩ := onProcess_inv h
      exact ht.exec_forkRunnable hc htop h
  | exitStart status =>
      obtain ⟨p, rfl, h⟩ := onProcess_inv h
      exact ht.exec_exitStart hc htop h
  | exitReparent status i =>
      obtain ⟨p, rfl, h⟩ := onProcess_inv h
      cases h
      exact ht.exec_exitReparent hc htop
  | exitZombie status =>
      obtain ⟨p, rfl, h⟩ := onProcess_inv h
      exact ht.exec_exitZombie hc ht' htop h
  | waitScan addr i havekids =>
      obtain ⟨p, rfl, h⟩ := onProcess_inv h
      exact ht.exec_waitScan hc ht' htop h
  | killScan pid i =>
      obtain ⟨p, rfl, h⟩ := onProcess_inv h
      exact ht.exec_killScan hc htop h
  | boostprocScan pid i =>
      obtain ⟨p, rfl, h⟩ := onProcess_inv h
      exact ht.exec_boostprocScan hc htop h
  | pauseLoop ticks0 n =>
      obtain ⟨p, rfl, h⟩ := onProcess_inv h
      exact ht.exec_pauseLoop hc ht' htop h
  | sleepCall chan lk =>
      obtain ⟨p, rfl, h⟩ := onProcess_inv h
      exact ht.exec_sleepCall hc ht' htop h

theorem syscallFrames_neutral (call : Syscall) :
    ∀ x ∈ syscallFrames call ++ [.usertrapTail 0], neutral x = true := by
  cases call with
  | boostproc pid =>
      by_cases hpid : pid = 0
      · simp [syscallFrames, hpid, neutral]
      · simp [syscallFrames, hpid, neutral]
  | _ => simp [syscallFrames, neutral]

theorem TreeOk.syscall (ht : TreeOk s) {c : CpuId} {call : Syscall}
    (h : step s (.syscall c call) = some s') : TreeOk s' ∧ Effect s s' := by
  obtain ⟨p, -, hnil, -, ⟨-, rfl⟩ | ⟨-, rfl⟩⟩ := usertrapSyscall_inv h
  · refine ht.local rfl (.refl _) rfl le_rfl rfl fun _ _ => ?_
    rw [hnil]
    exact Keeps.push (g := [.exitStart (-1)]) (by simp [neutral]) (by simp) []
  · refine ht.local rfl (.refl _) rfl le_rfl rfl fun _ _ => ?_
    rw [hnil]
    simpa using Keeps.push (syscallFrames_neutral call) (by simp) []

theorem TreeOk.trap (ht : TreeOk s) {c : CpuId} {g : Frame} {gs : List Frame} {w : Nat}
    (hg : ∀ x ∈ g :: gs, neutral x = true) :
    TreeOk (trap s c (g :: gs) w) ∧ Effect s (trap s c (g :: gs) w) := by
  rw [trap_eq]
  refine ht.local rfl (.refl _) rfl le_rfl rfl fun _ _ => ?_
  have hall : ∀ y, neutral y = true → ∀ x ∈ g :: gs ++ [y], neutral x = true := by
    intro y hy x hx
    rcases List.mem_append.mp hx with hx | hx
    · exact hg x hx
    · rw [List.mem_singleton.mp hx]
      exact hy
  split
  · rename_i hnil
    rw [hnil]
    simpa using Keeps.push (hall _ rfl) (by simp) []
  · simpa using Keeps.push (hall (.kerneltrapTail w) rfl) (by simp) _

theorem treeOk_step {a : Action} (ht : TreeOk s) (hc : ControlOk s) (h : step s a = some s') :
    TreeOk s' ∧ Effect s s' := by
  cases a with
  | exec c ok => exact ht.exec hc h
  | syscall c call => exact ht.syscall h
  | timer c =>
      obtain ⟨-, -, rfl⟩ := step_timer_inv h
      exact ht.trap (by simp [neutral])
  | devintr c chan lk =>
      obtain ⟨-, rfl⟩ := step_devintr_inv h
      exact ht.trap (by simp [neutral])
  | elapse d =>
      obtain rfl := step_elapse_inv h
      exact ht.kept (.refl _) rfl le_rfl (fun _ => .inl rfl) fun _ _ => rfl

theorem boot_parent (q : Slot) : (boot.table.proc q).parent = none := by
  revert q
  decide

theorem boot_state (q : Slot) :
    (boot.table.proc q).state = if q = initSlot then .runnable else .unused := by
  revert q
  decide

theorem treeOk_boot : TreeOk boot where
  wf :=
    { root_live := by simp [tree, boot_state, stage]
      root_parent := boot_parent initSlot
      free_parent := fun x _ => boot_parent x
      parent_live := fun x p h => by simp [tree, boot_parent] at h
      has_parent := fun x hx h => by simp [tree, boot_state, hx, stage] at h }
  initproc := by decide
  nextpid := by decide
  pid := by decide
  frames _ := .of_neutral (by simp [boot_frames, procinit])

theorem reachable_treeOk (hs : Reachable s) : TreeOk s :=
  StepSystem.Reachable.invariant treeOk_boot
    (fun _ _ _ hr ht h => (treeOk_step ht (reachable_controlOk hr) h).1) hs

theorem reachable_effect {a : Action} (hs : Reachable s) (h : step s a = some s') :
    Effect s s' :=
  (treeOk_step (reachable_treeOk hs) (reachable_controlOk hs) h).2

end Preservation

/-! ## What `kfork`, `kexit` and `kwait` guarantee -/

section Contract

variable {s s' : Kernel}

theorem stage_of_reap {r : Slot} (htree : tree s' = (tree s).reap r) (q : Slot) :
    stage (s'.table.proc q).state = if q = r then .free else stage (s.table.proc q).state := by
  have h := congrArg (fun T => T.stage q) htree
  by_cases hq : q = r <;> simpa [tree, ProcTree.Tree.reap, hq] using h

theorem parent_of_reap {r : Slot} (htree : tree s' = (tree s).reap r) (q : Slot) :
    (s'.table.proc q).parent = if q = r then none else (s.table.proc q).parent := by
  have h := congrArg (fun T => T.parent q) htree
  by_cases hq : q = r <;> simpa [tree, ProcTree.Tree.reap, hq] using h

theorem TreeOk.live_parent (ht : TreeOk s) {q : Slot} (hq : s.initproc ≠ some q)
    (hfree : (s.table.proc q).state ≠ .unused) (hused : (s.table.proc q).state ≠ .used) :
    ∃ r, (s.table.proc q).parent = some r ∧ stage (s.table.proc r).state = .live := by
  have hroot : q ≠ initSlot := by
    rintro rfl
    exact hq ht.initproc
  have hstage : stage (s.table.proc q).state = .live ∨ stage (s.table.proc q).state = .zombie := by
    cases h : (s.table.proc q).state <;> simp_all [stage]
  exact ht.wf.live_parent hroot hstage

theorem Effect.reaps_of_zombie (he : Effect s s') {q : Slot}
    (hz : (s.table.proc q).state = .zombie) (hz' : (s'.table.proc q).state ≠ .zombie) :
    Reaps s q s' := by
  cases he with
  | kept h =>
      have hst := (h q).1
      rw [hz] at hst
      exact absurd ((stage_eq_zombie _).mp hst) hz'
  | op _ hzz => exact absurd (hzz q hz) hz'
  | reap r h htree =>
      by_cases hqr : q = r
      · subst hqr
        exact h
      · have hst := stage_of_reap htree q
        rw [if_neg hqr, hz] at hst
        exact absurd ((stage_eq_zombie _).mp hst) hz'

theorem Effect.childless_of_zombie (he : Effect s s') {P : Slot}
    (hz : (s.table.proc P).state ≠ .zombie) (hz' : (s'.table.proc P).state = .zombie) :
    (∀ q, (s.table.proc q).parent ≠ some P) ∧ (∀ q, (s'.table.proc q).parent ≠ some P) := by
  cases he with
  | kept h =>
      have hst := (h P).1
      rw [hz'] at hst
      exact absurd ((stage_eq_zombie _).mp hst.symm) hz
  | op h _ => exact h.childless_of_zombie (by simpa [tree] using hz) (by simpa [tree] using hz')
  | reap r _ htree =>
      have hst := stage_of_reap htree P
      rw [hz'] at hst
      split_ifs at hst
      · simp [stage] at hst
      · exact absurd ((stage_eq_zombie _).mp hst.symm) hz

theorem Effect.parent_moved (ht : TreeOk s) (he : Effect s s') {x p : Slot}
    (hx : (s.table.proc x).parent = some p) (hx' : (s'.table.proc x).parent ≠ some p) :
    (s'.table.proc x).parent = s.initproc ∨ Reaps s x s' := by
  cases he with
  | kept h => exact absurd ((h x).2.1.trans hx) hx'
  | op h hz =>
      rcases h.parent_moved hx hx' with h' | ⟨hzx, htree⟩
      · exact .inl (h'.trans ht.initproc.symm)
      · -- an operation that reaps would free a zombie, which this step keeps
        have hfree := congrArg (fun T => T.stage x) htree
        simp only [tree, ProcTree.Tree.reap, ProcTree.Tree.setParent_stage,
          ProcTree.Tree.setStage_stage, if_pos] at hfree hzx
        exact absurd (hz x ((stage_eq_zombie _).mp hzx)) (by simp [(stage_eq_free _).mp hfree])
  | reap r h htree =>
      by_cases hxr : x = r
      · subst hxr
        exact .inr h
      · have hpar := parent_of_reap htree x
        rw [if_neg hxr, hx] at hpar
        exact absurd hpar hx'

/-- `kwait` of `P` returns -1 only when `P` has no children, when `P` is killed,
or when the copyout of a zombie child's status fails, which leaves the child as
it was. -/
theorem TreeOk.wait_fails (ht : TreeOk s) (hc : ControlOk s) {c : CpuId} {P : Slot}
    {addr i : Nat} {havekids ok : Bool} {fs : List Frame} (hcur : s.current c = .process P)
    (htop : s.frames (.process P) = .waitScan addr i havekids :: fs)
    (h : waitScanStep s c P addr i havekids ok fs = some s') (hret : s'.frames (.process P) = fs)
    (hv : (s'.table.proc P).a0 = -1) :
    (∀ q, (s.table.proc q).parent ≠ some P) ∨ (s.table.proc P).killed = true ∨
      ∃ q, (s.table.proc q).parent = some P ∧ (s.table.proc q).state = .zombie ∧
        s'.table.proc q = s.table.proc q ∧ addr ≠ 0 ∧ ok = false := by
  obtain ⟨-, -, -, hrun⟩ := hc.current_process hcur
  have hne : ∀ q : Slot, (s.table.proc q).state = .zombie → q ≠ P := by
    rintro q hz rfl
    rw [hrun] at hz
    cases hz
  rcases waitScanStep_inv h with ⟨hi, hpar, -, hz, haddr, hok, hw⟩ | ⟨hi, hpar, -, hz, -, hw⟩ |
    ⟨hi, -, -, -, rfl⟩ | ⟨hi, -, rfl⟩ | ⟨hi, -, hk, hw⟩ | ⟨-, -, -, hsl⟩
  · obtain ⟨-, rfl⟩ := waitReturn_inv hw
    exact .inr (.inr ⟨⟨i, hi⟩, hpar, hz, by simp [hne _ hz], haddr, hok⟩)
  · obtain ⟨-, rfl⟩ := waitReturn_inv hw
    have hpos := ht.pid ⟨i, hi⟩ (by simp [hz])
    simp at hv
    omega
  · simp at hret
  · simp at hret
  · rcases hk with hk | hk
    · subst hk
      exact .inl fun q => (ht.frames P).scanned i (by simp [htop, waitPoint]) q (by omega)
    · exact .inr (.inl hk)
  · obtain ⟨-, -, rfl⟩ := sleep_inv hsl
    have hlen := congrArg List.length hret
    simp [sched_frames_process] at hlen
    omega

/-- The process-tree contract of `kfork`, `kexit`, `kwait` and `freeproc`, in
every reachable state and at every step from it. -/
theorem process_tree_contract (hs : Reachable s) :
    (∀ q, s.initproc ≠ some q → (s.table.proc q).state ≠ .unused →
      (s.table.proc q).state ≠ .used →
      ∃ r, (s.table.proc q).parent = some r ∧ (s.table.proc r).state ≠ .unused) ∧
    (∀ a s' q, step s a = some s' → (s.table.proc q).state = .zombie →
      (s'.table.proc q).state ≠ .zombie → Reaps s q s') ∧
    (∀ c ok P addr i havekids fs s', s.current c = .process P →
      s.frames (.process P) = .waitScan addr i havekids :: fs →
      step s (.exec c ok) = some s' → s'.frames (.process P) = fs →
      (s'.table.proc P).a0 = -1 →
      (∀ q, (s.table.proc q).parent ≠ some P) ∨ (s.table.proc P).killed = true ∨
        ∃ q, (s.table.proc q).parent = some P ∧ (s.table.proc q).state = .zombie ∧
          s'.table.proc q = s.table.proc q ∧ addr ≠ 0 ∧ ok = false) ∧
    (∀ a s' P, step s a = some s' → (s.table.proc P).state ≠ .zombie →
      (s'.table.proc P).state = .zombie → ∀ q, (s.table.proc q).parent ≠ some P) ∧
    (∀ a s' x p, step s a = some s' → (s.table.proc x).parent = some p →
      (s'.table.proc x).parent ≠ some p →
      (s'.table.proc x).parent = s.initproc ∨ Reaps s x s') := by
  have ht := reachable_treeOk hs
  have hc := reachable_controlOk hs
  refine ⟨fun q hq hfree hused => ?_, fun a s' q h hz hz' => ?_,
    fun c ok P addr i havekids fs s' hcur htop h hret hv => ?_,
    fun a s' P h hz hz' => ?_, fun a s' x p h hx hx' => ?_⟩
  · obtain ⟨r, hr, hlive⟩ := ht.live_parent hq hfree hused
    refine ⟨r, hr, fun hr' => ?_⟩
    rw [hr'] at hlive
    cases hlive
  · exact (reachable_effect hs h).reaps_of_zombie hz hz'
  · exact ht.wait_fails hc hcur htop (step_exec_top hcur htop h) hret hv
  · exact ((reachable_effect hs h).childless_of_zombie hz hz').1
  · exact (reachable_effect hs h).parent_moved ht hx hx'

/-- The first process forks and waits; its child runs on the same CPU and
exits with status 3, which wakes the parent. -/
def forkExitRun : List Action :=
  execs 1 70 ++ [.syscall 1 .fork] ++ execs 1 5 ++ [.syscall 1 (.wait 0)] ++ execs 1 70 ++
    [.syscall 1 (.exit 3)] ++ execs 1 131

/-- The contract on that run: the child's last step of kexit makes it a zombie
with no children, under a live parent; the parent's kwait reaps it; and a
second kwait, with no child left, returns -1. -/
theorem process_tree_contract_forkExit :
    (∃ s s', Reachable s ∧ step s (.exec 1 true) = some s' ∧ (s.table.proc 1).state ≠ .zombie ∧
      (s'.table.proc 1).state = .zombie ∧ (∀ q, (s.table.proc q).parent ≠ some 1) ∧
      ∃ r, (s'.table.proc 1).parent = some r ∧ (s'.table.proc r).state ≠ .unused) ∧
    (∃ s s', Reachable s ∧ step s (.exec 1 true) = some s' ∧ (s.table.proc 1).state = .zombie ∧
      (s'.table.proc 1).state ≠ .zombie ∧ Reaps s 1 s') ∧
    ∃ s s', Reachable s ∧ s.current 1 = .process 0 ∧
      s.frames (.process 0) = [.waitScan 0 nproc false, .usertrapTail 0] ∧ step s (.exec 1 true) = some s' ∧
      s'.frames (.process 0) = [.usertrapTail 0] ∧ (s'.table.proc 0).a0 = -1 ∧
      ((∀ q, (s.table.proc q).parent ≠ some 0) ∨ (s.table.proc 0).killed = true) := by
  refine ⟨?_, ?_, ?_⟩
  · obtain ⟨s, s', hs, hrun, hz, hz', hinit⟩ :=
      exists_reachable_of_runs (reachable_tickedBoot boostInterval) forkExitRun [.exec 1 true]
        (fun s s' => (s.table.proc 1).state ≠ .zombie ∧ (s'.table.proc 1).state = .zombie ∧ s'.initproc ≠ some 1)
        (by decide +kernel)
    rw [StepSystem.run_singleton] at hrun
    have hs' : Reachable s' := StepSystem.Reachable.step _ hs hrun
    refine ⟨s, s', hs, hrun, hz, hz', (process_tree_contract hs).2.2.2.1 _ s' 1 hrun hz hz', ?_⟩
    exact (process_tree_contract hs').1 1 hinit (by rw [hz']; decide) (by rw [hz']; decide)
  · obtain ⟨s, s', hs, hrun, hz, hz'⟩ :=
      exists_reachable_of_runs (reachable_tickedBoot boostInterval) (forkExitRun ++ execs 1 7) [.exec 1 true]
        (fun s s' => (s.table.proc 1).state = .zombie ∧ (s'.table.proc 1).state ≠ .zombie) (by decide +kernel)
    rw [StepSystem.run_singleton] at hrun
    exact ⟨s, s', hs, hrun, hz, hz', (process_tree_contract hs).2.1 _ s' 1 hrun hz hz'⟩
  · obtain ⟨s, s', hs, hrun, hcur, htop, hfs, ha0⟩ :=
      exists_reachable_of_runs (reachable_tickedBoot boostInterval)
        (forkExitRun ++ execs 1 9 ++ [.syscall 1 (.wait 0)] ++ execs 1 65) [.exec 1 true]
        (fun s s' => s.current 1 = .process 0 ∧
          s.frames (.process 0) = [.waitScan 0 nproc false, .usertrapTail 0] ∧
          s'.frames (.process 0) = [.usertrapTail 0] ∧ (s'.table.proc 0).a0 = -1)
        (by decide +kernel)
    rw [StepSystem.run_singleton] at hrun
    refine ⟨s, s', hs, hcur, htop, hrun, hfs, ha0, ?_⟩
    -- the copy-out disjunct needs a nonzero address
    rcases (process_tree_contract hs).2.2.1 1 true 0 0 nproc false _ s' hcur htop hrun hfs ha0 with
      h | h | ⟨q, -, -, -, h0, -⟩
    · exact .inl h
    · exact .inr h
    · exact absurd rfl h0

end Contract

end Xv6Mlfq.ProcessTree
