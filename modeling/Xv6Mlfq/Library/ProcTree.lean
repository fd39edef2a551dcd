import Mathlib.Logic.Function.Basic

/-!
Process trees: slots of any type, each at a stage of its life cycle and with an
optional parent.  A free slot is allocated as an embryo, adopted by a live
parent and published as live; a live slot other than the root exits as a
zombie once it has no children, handing them to the root first; a zombie is
reaped back to a free slot.  A tree is well formed when the root is live and
has no parent, free slots have no parent, every parent is live, and every live
or zombie slot other than the root has a parent.  Every operation keeps a tree
well formed.
-/

namespace ProcTree

inductive Stage
  | free
  | embryo
  | live
  | zombie
  deriving DecidableEq, Repr

@[ext]
structure Tree (α : Type*) where
  stage : α → Stage
  parent : α → Option α

variable {α : Type*}

/-- A well-formed process tree with root `root`. -/
structure WF (root : α) (T : Tree α) : Prop where
  root_live : T.stage root = .live
  root_parent : T.parent root = none
  free_parent : ∀ x, T.stage x = .free → T.parent x = none
  parent_live : ∀ x p, T.parent x = some p → T.stage p = .live
  has_parent : ∀ x, x ≠ root → (T.stage x = .live ∨ T.stage x = .zombie) → T.parent x ≠ none

/-- No slot has `x` as its parent. -/
def Tree.Childless (T : Tree α) (x : α) : Prop := ∀ y, T.parent y ≠ some x

section Basic

variable {root : α} {T : Tree α}

theorem WF.childless (hwf : WF root T) {x : α} (hx : T.stage x ≠ .live) : T.Childless x :=
  fun y hy => hx (hwf.parent_live y x hy)

theorem WF.live_parent (hwf : WF root T) {x : α} (hroot : x ≠ root)
    (hx : T.stage x = .live ∨ T.stage x = .zombie) : ∃ p, T.parent x = some p ∧ T.stage p = .live := by
  obtain ⟨p, hp⟩ := Option.ne_none_iff_exists'.mp (hwf.has_parent x hroot hx)
  exact ⟨p, hp, hwf.parent_live x p hp⟩

theorem WF.ne_root (hwf : WF root T) {x : α} (hx : T.stage x ≠ .live) : x ≠ root := by
  rintro rfl
  exact hx hwf.root_live

end Basic

variable [DecidableEq α]

namespace Tree

variable (T : Tree α)

def setStage (x : α) (st : Stage) : Tree α :=
  { T with stage := Function.update T.stage x st }

def setParent (x : α) (p : Option α) : Tree α :=
  { T with parent := Function.update T.parent x p }

/-- The slot `x` back to free, with no parent. -/
def reap (x : α) : Tree α := (T.setStage x .free).setParent x none

@[simp] theorem setStage_stage (x y : α) (st : Stage) :
    (T.setStage x st).stage y = if y = x then st else T.stage y := by
  simp [setStage, Function.update_apply]

@[simp] theorem setStage_parent (x : α) (st : Stage) : (T.setStage x st).parent = T.parent := rfl

@[simp] theorem setParent_parent (x y : α) (p : Option α) :
    (T.setParent x p).parent y = if y = x then p else T.parent y := by
  simp [setParent, Function.update_apply]

@[simp] theorem setParent_stage (x : α) (p : Option α) : (T.setParent x p).stage = T.stage := rfl

end Tree

/-- The operations on a process tree whose root is `root`, each under the
condition its caller establishes. -/
inductive Op (root : α) : Tree α → Tree α → Prop
  | alloc {T : Tree α} {x : α} (hx : T.stage x = .free) : Op root T (T.setStage x .embryo)
  | adopt {T : Tree α} {x p : α} (hx : T.stage x = .embryo) (hnone : T.parent x = none)
      (hp : T.stage p = .live) : Op root T (T.setParent x (some p))
  | publish {T : Tree α} {x : α} (hx : T.stage x = .embryo) (hp : T.parent x ≠ none) :
      Op root T (T.setStage x .live)
  | reparent {T : Tree α} {x p : α} (hx : T.parent x = some p) :
      Op root T (T.setParent x (some root))
  | exit {T : Tree α} {p : α} (hp : T.stage p = .live) (hroot : p ≠ root) (hc : T.Childless p) :
      Op root T (T.setStage p .zombie)
  | reap {T : Tree α} {x : α} (hx : T.stage x = .zombie) : Op root T (T.reap x)

section WF

variable {root : α} {T : Tree α}

theorem WF.alloc (hwf : WF root T) {x : α} (hx : T.stage x = .free) :
    WF root (T.setStage x .embryo) := by
  have hxr := hwf.ne_root (x := x) (by simp [hx])
  refine ⟨by simp [Ne.symm hxr, hwf.root_live], hwf.root_parent, fun y hy => ?_, fun y p hy => ?_,
    fun y hyr hy => ?_⟩
  · by_cases hyx : y = x
    · simp [hyx] at hy
    · exact hwf.free_parent y (by simpa [hyx] using hy)
  · -- a free slot has no children, so none of `x`
    have hp := hwf.parent_live y p hy
    have hpx : p ≠ x := by
      rintro rfl
      rw [hx] at hp
      cases hp
    simpa [hpx] using hp
  · by_cases hyx : y = x
    · simp [hyx] at hy
    · exact hwf.has_parent y hyr (by simpa [hyx] using hy)

theorem WF.adopt (hwf : WF root T) {x p : α} (hx : T.stage x = .embryo) (hp : T.stage p = .live) :
    WF root (T.setParent x (some p)) := by
  have hxr := hwf.ne_root (x := x) (by simp [hx])
  refine ⟨hwf.root_live, by simp [Ne.symm hxr, hwf.root_parent], fun y hy => ?_, fun y q hy => ?_,
    fun y hyr hy => ?_⟩
  · have hy' : T.stage y = .free := hy
    have hyx : y ≠ x := by
      rintro rfl
      rw [hx] at hy'
      cases hy'
    simpa [hyx] using hwf.free_parent y hy'
  · by_cases hyx : y = x
    · simp only [hyx, Tree.setParent_parent, if_true, Option.some.injEq] at hy
      simpa [← hy] using hp
    · exact hwf.parent_live y q (by simpa [hyx] using hy)
  · by_cases hyx : y = x
    · simp [hyx]
    · simpa [hyx] using hwf.has_parent y hyr hy

theorem WF.publish (hwf : WF root T) {x : α} (hx : T.stage x = .embryo) (hp : T.parent x ≠ none) :
    WF root (T.setStage x .live) := by
  have hxr := hwf.ne_root (x := x) (by simp [hx])
  refine ⟨by simp [Ne.symm hxr, hwf.root_live], hwf.root_parent, fun y hy => ?_, fun y q hy => ?_,
    fun y hyr hy => ?_⟩
  · by_cases hyx : y = x
    · simp [hyx] at hy
    · exact hwf.free_parent y (by simpa [hyx] using hy)
  · by_cases hqx : q = x
    · simp [hqx]
    · simpa [hqx] using hwf.parent_live y q hy
  · by_cases hyx : y = x
    · simpa [hyx] using hp
    · exact hwf.has_parent y hyr (by simpa [hyx] using hy)

theorem WF.reparent (hwf : WF root T) {x p : α} (hx : T.parent x = some p) :
    WF root (T.setParent x (some root)) := by
  -- the root has no parent, so it is not the slot being handed over
  have hxr : x ≠ root := by
    rintro rfl
    rw [hwf.root_parent] at hx
    cases hx
  refine ⟨hwf.root_live, by simp [Ne.symm hxr, hwf.root_parent], fun y hy => ?_, fun y q hy => ?_,
    fun y hyr hy => ?_⟩
  · have hyx : y ≠ x := by
      rintro rfl
      rw [hwf.free_parent y hy] at hx
      cases hx
    simpa [hyx] using hwf.free_parent y hy
  · by_cases hyx : y = x
    · simp only [hyx, Tree.setParent_parent, if_true, Option.some.injEq] at hy
      simpa [← hy] using hwf.root_live
    · exact hwf.parent_live y q (by simpa [hyx] using hy)
  · by_cases hyx : y = x
    · simp [hyx]
    · simpa [hyx] using hwf.has_parent y hyr hy

theorem WF.exit (hwf : WF root T) {p : α} (hp : T.stage p = .live) (hroot : p ≠ root)
    (hc : T.Childless p) : WF root (T.setStage p .zombie) := by
  refine ⟨by simp [Ne.symm hroot, hwf.root_live], hwf.root_parent, fun y hy => ?_, fun y q hy => ?_,
    fun y hyr hy => ?_⟩
  · by_cases hyp : y = p
    · simp [hyp] at hy
    · exact hwf.free_parent y (by simpa [hyp] using hy)
  · have hqp : q ≠ p := by
      rintro rfl
      exact hc y hy
    simpa [hqp] using hwf.parent_live y q hy
  · by_cases hyp : y = p
    · subst hyp
      exact hwf.has_parent y hyr (.inl hp)
    · exact hwf.has_parent y hyr (by simpa [hyp] using hy)

theorem WF.reap (hwf : WF root T) {x : α} (hx : T.stage x = .zombie) : WF root (T.reap x) := by
  have hxr := hwf.ne_root (x := x) (by simp [hx])
  have hc := hwf.childless (x := x) (by simp [hx])
  refine ⟨by simp [Tree.reap, Ne.symm hxr, hwf.root_live], by simp [Tree.reap, Ne.symm hxr,
    hwf.root_parent], fun y hy => ?_, fun y q hy => ?_, fun y hyr hy => ?_⟩
  · by_cases hyx : y = x
    · simp [Tree.reap, hyx]
    · simpa [Tree.reap, hyx] using hwf.free_parent y (by simpa [Tree.reap, hyx] using hy)
  · by_cases hyx : y = x
    · simp [Tree.reap, hyx] at hy
    · -- `x` was a zombie, so it was nobody's parent
      have hy' : T.parent y = some q := by simpa [Tree.reap, hyx] using hy
      have hqx : q ≠ x := by
        rintro rfl
        exact hc y hy'
      simpa [Tree.reap, hqx] using hwf.parent_live y q hy'
  · by_cases hyx : y = x
    · simp [Tree.reap, hyx] at hy
    · simpa [Tree.reap, hyx] using hwf.has_parent y hyr (by simpa [Tree.reap, hyx] using hy)

theorem WF.op (hwf : WF root T) {T' : Tree α} (h : Op root T T') : WF root T' := by
  cases h with
  | alloc hx => exact hwf.alloc hx
  | adopt hx _ hp => exact hwf.adopt hx hp
  | publish hx hp => exact hwf.publish hx hp
  | reparent hx => exact hwf.reparent hx
  | exit hp hroot hc => exact hwf.exit hp hroot hc
  | reap hx => exact hwf.reap hx

end WF

section Moves

variable {root : α} {T T' : Tree α}

theorem Op.childless_of_zombie (h : Op root T T') {x : α} (hx : T.stage x ≠ .zombie)
    (hx' : T'.stage x = .zombie) : T.Childless x ∧ T'.Childless x := by
  cases h with
  | @alloc y _ => by_cases hxy : x = y <;> simp_all
  | @publish y _ _ => by_cases hxy : x = y <;> simp_all
  | adopt | reparent => simp_all
  | @reap y _ => by_cases hxy : x = y <;> simp_all [Tree.reap]
  | @exit p hp hroot hc =>
      by_cases hxp : x = p
      · subst hxp
        exact ⟨hc, hc⟩
      · simp_all

theorem Op.parent_moved (h : Op root T T') {x p : α} (hx : T.parent x = some p)
    (hx' : T'.parent x ≠ some p) :
    T'.parent x = some root ∨ T.stage x = .zombie ∧ T' = T.reap x := by
  cases h with
  | alloc | publish | exit => simp_all
  | @adopt y q _ hnone _ =>
      by_cases hxy : x = y
      · subst hxy
        rw [hnone] at hx
        cases hx
      · simp_all
  | @reparent y q _ =>
      by_cases hxy : x = y
      · subst hxy
        exact .inl (by simp)
      · simp_all
  | @reap y hy =>
      by_cases hxy : x = y
      · subst hxy
        exact .inr ⟨hy, rfl⟩
      · simp_all [Tree.reap]

end Moves

end ProcTree
