import Mathlib.Data.List.Nodup
import Mathlib.Logic.Function.Basic

/-!
Circular doubly linked lists through a head node, as intrusive lists in C are
built: every node carries `next` and `prev` links, and the head, here `none`,
closes the cycle.  `Linked l xs` says that the links `l` thread the nodes `xs`
in order from the head by `next`, and back by `prev`.  Walking the links from
the head meets exactly `xs`, or its reverse, and the two pointer operations of
such code, unlinking a node and pushing one at the front, keep the list linked.
-/

namespace DList

variable {ι : Type*}

/-- The nodes met following `f` from `start` up to the head, at most `fuel` of them. -/
def walk (f : Option ι → Option ι) : Nat → Option ι → List ι
  | 0, _ => []
  | _ + 1, none => []
  | fuel + 1, some c => c :: walk f fuel (f (some c))

/-- The loop `for(b = start; b != &head; b = f(b)) if(p(b)) return b;`, over at
most `fuel` nodes. -/
def scan (f : Option ι → Option ι) (p : ι → Bool) : Nat → Option ι → Option ι
  | 0, _ => none
  | _ + 1, none => none
  | fuel + 1, some c => if p c then some c else scan f p fuel (f (some c))

theorem scan_eq_find (f : Option ι → Option ι) (p : ι → Bool) :
    ∀ fuel start, scan f p fuel start = (walk f fuel start).find? p := by
  intro fuel
  induction fuel with
  | zero =>
      intro start
      rfl
  | succ fuel ih =>
      intro start
      cases start with
      | none => rfl
      | some c =>
          rw [scan, walk, List.find?_cons, ih]
          cases p c <;> rfl

theorem sublist_of_find_reverse {p : ι → Bool} {xs : List ι} {b c : ι} (h : xs.reverse.find? p = some b)
    (hc : c ∈ xs) (hpc : p c = true) (hne : c ≠ b) : List.Sublist [c, b] xs := by
  obtain ⟨-, as, bs, hrev, has⟩ := List.find?_eq_some_iff_append.mp h
  have hxs : xs = bs.reverse ++ b :: as.reverse := by
    rw [← List.reverse_reverse xs, hrev]
    simp
  -- `c` passes, so it is not among the nodes after `b`
  have hcbs : c ∈ bs.reverse := by
    rw [hxs] at hc
    rcases List.mem_append.mp hc with hc | hc
    · exact hc
    · rcases List.mem_cons.mp hc with rfl | hc
      · exact absurd rfl hne
      · have := has c (List.mem_reverse.mp hc)
        rw [hpc] at this
        exact absurd this (by decide)
  rw [hxs]
  exact (List.singleton_sublist.mpr hcbs).append (List.singleton_sublist.mpr List.mem_cons_self)

variable [DecidableEq ι]

/-- The node after the first `c` in `xs`; `none` when `c` is last or absent. -/
def after : List ι → ι → Option ι
  | [], _ => none
  | x :: xs, c => if x = c then xs.head? else after xs c

/-- The `next` and `prev` links of the nodes and of the head `none`. -/
structure Links (ι : Type*) where
  next : Option ι → Option ι
  prev : Option ι → Option ι

/-- `l` threads `xs` into a cycle through the head: `next` runs from the head
through `xs` in order and back to the head, and `prev` runs the other way. -/
structure Linked (l : Links ι) (xs : List ι) : Prop where
  nodup : xs.Nodup
  head_next : l.next none = xs.head?
  head_prev : l.prev none = xs.reverse.head?
  next : ∀ c ∈ xs, l.next (some c) = after xs c
  prev : ∀ c ∈ xs, l.prev (some c) = after xs.reverse c

/-- The same links, read the other way round. -/
def Links.swap (l : Links ι) : Links ι := ⟨l.prev, l.next⟩

/-- `b->next = head.next; b->prev = &head; head.next->prev = b; head.next = b;` -/
def Links.pushFront (l : Links ι) (b : ι) : Links ι :=
  let l₁ : Links ι := { l with next := Function.update l.next (some b) (l.next none) }
  let l₂ : Links ι := { l₁ with prev := Function.update l₁.prev (some b) none }
  let l₃ : Links ι := { l₂ with prev := Function.update l₂.prev (l₂.next none) (some b) }
  { l₃ with next := Function.update l₃.next none (some b) }

/-- `b->next->prev = b->prev; b->prev->next = b->next;` -/
def Links.unlink (l : Links ι) (b : ι) : Links ι :=
  let l₁ : Links ι := { l with prev := Function.update l.prev (l.next (some b)) (l.prev (some b)) }
  { l₁ with next := Function.update l₁.next (l₁.prev (some b)) (l₁.next (some b)) }

section After

variable {c x : ι} {xs ys zs : List ι}

@[simp] theorem after_cons_self (c : ι) (xs : List ι) : after (c :: xs) c = xs.head? := by
  simp [after]

theorem after_cons_of_ne (h : x ≠ c) (xs : List ι) : after (x :: xs) c = after xs c := by
  simp [after, h]

theorem after_append_right (hc : c ∉ ys) : after (ys ++ zs) c = after zs c := by
  induction ys with
  | nil => rfl
  | cons y ys ih =>
      simp only [List.mem_cons, not_or] at hc
      rw [List.cons_append, after_cons_of_ne (Ne.symm hc.1), ih hc.2]

theorem after_append_left (hc : c ∈ ys) (hlast : ys.getLast? ≠ some c) :
    after (ys ++ zs) c = after ys c := by
  induction ys with
  | nil => simp at hc
  | cons y ys ih =>
      have hys : ys ≠ [] := by
        rintro rfl
        simp only [List.mem_singleton] at hc
        subst hc
        simp at hlast
      by_cases hyc : y = c
      · subst hyc
        rw [List.cons_append, after_cons_self, after_cons_self, List.head?_append_of_ne_nil _ hys]
      · have hc' : c ∈ ys := (List.mem_cons.mp hc).resolve_left (Ne.symm hyc)
        have hlast' : ys.getLast? ≠ some c := by
          obtain ⟨y', ys', rfl⟩ := List.exists_cons_of_ne_nil hys
          rwa [List.getLast?_cons_cons] at hlast
        rw [List.cons_append, after_cons_of_ne hyc, after_cons_of_ne hyc, ih hc' hlast']

theorem after_append_getLast (hnd : (ys ++ zs).Nodup) (hlast : ys.getLast? = some c) :
    after (ys ++ zs) c = zs.head? := by
  obtain ⟨ys', rfl⟩ := List.getLast?_eq_some_iff.mp hlast
  have hc : c ∉ ys' := by
    have := (List.nodup_append.mp (List.nodup_append.mp hnd).1).2.2
    exact fun hc => this c hc c (List.mem_singleton_self c) rfl
  rw [List.append_assoc, List.singleton_append, after_append_right hc, after_cons_self]

end After

section Links

variable (l : Links ι) (b : ι)

theorem pushFront_next (a : Option ι) :
    (l.pushFront b).next a = if a = none then some b else if a = some b then l.next none else l.next a := by
  simp only [Links.pushFront, Function.update_apply]

theorem pushFront_prev (a : Option ι) :
    (l.pushFront b).prev a =
      if a = l.next none then some b else if a = some b then none else l.prev a := by
  simp only [Links.pushFront, Function.update_apply]
  split_ifs <;> simp_all

theorem unlink_next (a : Option ι) :
    (l.unlink b).next a = if a = l.prev (some b) then l.next (some b) else l.next a := by
  -- the first assignment leaves `b->prev` as it was
  have hprev : Function.update l.prev (l.next (some b)) (l.prev (some b)) (some b) = l.prev (some b) := by
    rw [Function.update_apply]
    split_ifs <;> rfl
  show Function.update l.next (Function.update l.prev (l.next (some b)) (l.prev (some b)) (some b))
    (l.next (some b)) a = _
  rw [hprev, Function.update_apply]

theorem unlink_prev (a : Option ι) :
    (l.unlink b).prev a = if a = l.next (some b) then l.prev (some b) else l.prev a := by
  simp only [Links.unlink, Function.update_apply]

theorem unlink_swap : (l.swap.unlink b).next = (l.unlink b).prev := by
  funext a
  rw [unlink_next, unlink_prev]
  rfl

end Links

section Linked

variable {l : Links ι} {xs : List ι} {b : ι}

theorem linked_nil (hn : l.next none = none) (hp : l.prev none = none) : Linked l [] :=
  ⟨List.nodup_nil, hn, hp, by simp, by simp⟩

theorem Linked.swap (h : Linked l xs) : Linked l.swap xs.reverse where
  nodup := List.nodup_reverse.mpr h.nodup
  head_next := h.head_prev
  head_prev := by
    rw [List.reverse_reverse]
    exact h.head_next
  next c hc := h.prev c (List.mem_reverse.mp hc)
  prev c hc := by
    rw [List.reverse_reverse]
    exact h.next c (List.mem_reverse.mp hc)

theorem Linked.walk_next (h : Linked l xs) {fuel : Nat} (hfuel : xs.length ≤ fuel) :
    walk l.next fuel (l.next none) = xs := by
  have hsuffix : ∀ zs ys fuel, xs = ys ++ zs → zs.length ≤ fuel → walk l.next fuel zs.head? = zs := by
    intro zs
    induction zs with
    | nil =>
        intro ys fuel _ _
        cases fuel <;> rfl
    | cons c zs ih =>
        intro ys fuel hxs hlen
        obtain ⟨fuel, rfl⟩ : ∃ k, fuel = k + 1 := ⟨fuel - 1, by simp at hlen; omega⟩
        have hc : c ∉ ys := by
          have := (List.nodup_append.mp (hxs ▸ h.nodup)).2.2
          intro hcy
          exact this c hcy c List.mem_cons_self rfl
        have hnext : l.next (some c) = zs.head? := by
          rw [h.next c (by rw [hxs]; simp), hxs, after_append_right hc, after_cons_self]
        rw [List.head?_cons, walk, hnext, ih (ys ++ [c]) fuel (by simp [hxs]) (by simpa using hlen)]
  rw [h.head_next]
  exact hsuffix xs [] fuel rfl hfuel

theorem Linked.walk_prev (h : Linked l xs) {fuel : Nat} (hfuel : xs.length ≤ fuel) :
    walk l.prev fuel (l.prev none) = xs.reverse :=
  h.swap.walk_next (by rwa [List.length_reverse])

theorem Linked.unique {ys : List ι} (hx : Linked l xs) (hy : Linked l ys) : xs = ys := by
  rw [← hx.walk_next (Nat.le_add_right xs.length ys.length),
    hy.walk_next (Nat.le_add_left ys.length xs.length)]

theorem Linked.pushFront (h : Linked l xs) (hb : b ∉ xs) : Linked (l.pushFront b) (b :: xs) where
  nodup := List.nodup_cons.mpr ⟨hb, h.nodup⟩
  head_next := by simp [pushFront_next]
  head_prev := by
    rw [pushFront_prev, h.head_next]
    cases xs with
    | nil => simp
    | cons x xs => simp [h.head_prev]
  next c hc := by
    rw [pushFront_next]
    by_cases hcb : c = b
    · subst hcb
      simp [h.head_next]
    · have hc' : c ∈ xs := (List.mem_cons.mp hc).resolve_left hcb
      simp [hcb, h.next c hc', after_cons_of_ne (Ne.symm hcb)]
  prev c hc := by
    rw [pushFront_prev, h.head_next, List.reverse_cons]
    by_cases hcb : c = b
    · subst hcb
      have hhead : xs.head? ≠ some c := fun hh => hb (List.mem_of_mem_head? hh)
      rw [after_append_right (by simpa using hb)]
      simp [Ne.symm hhead]
    · have hc' : c ∈ xs := (List.mem_cons.mp hc).resolve_left hcb
      by_cases hfirst : some c = xs.head?
      · have hlast : xs.reverse.getLast? = some c := by
          rw [List.getLast?_reverse]
          exact hfirst.symm
        have hnd : (xs.reverse ++ [b]).Nodup := by
          rw [← List.reverse_cons]
          exact List.nodup_reverse.mpr (List.nodup_cons.mpr ⟨hb, h.nodup⟩)
        rw [if_pos hfirst, after_append_getLast hnd hlast]
        rfl
      · have hlast : xs.reverse.getLast? ≠ some c := by
          rw [List.getLast?_reverse]
          exact Ne.symm hfirst
        rw [if_neg hfirst, if_neg (by simpa using hcb), h.prev c hc',
          after_append_left (List.mem_reverse.mpr hc') hlast]

/-- Unlinking `b` from `ys ++ b :: zs` mends `next` to run through `ys ++ zs`. -/
theorem Linked.unlink_next_eq {ys zs : List ι} (h : Linked l xs) (hxs : xs = ys ++ b :: zs) :
    (l.unlink b).next none = (ys ++ zs).head? ∧
      ∀ c ∈ ys ++ zs, (l.unlink b).next (some c) = after (ys ++ zs) c := by
  have hnd : (ys ++ b :: zs).Nodup := hxs ▸ h.nodup
  have hby : b ∉ ys := fun hb => (List.nodup_append.mp hnd).2.2 b hb b List.mem_cons_self rfl
  have hbz : b ∉ zs := (List.nodup_cons.mp (List.nodup_append.mp hnd).2.1).1
  have hnd' : (ys ++ zs).Nodup := by
    exact List.Nodup.sublist ((List.Sublist.refl ys).append (List.sublist_cons_self b zs)) hnd
  have hmem : b ∈ xs := by simp [hxs]
  have hN : l.next (some b) = zs.head? := by
    rw [h.next b hmem, hxs, after_append_right hby, after_cons_self]
  have hP : l.prev (some b) = ys.getLast? := by
    rw [h.prev b hmem, hxs, List.reverse_append, List.reverse_cons, List.append_assoc,
      List.singleton_append, after_append_right (by simpa using hbz), after_cons_self,
      List.head?_reverse]
  constructor
  · rw [unlink_next, hP]
    cases ys with
    | nil => simp [hN]
    | cons y ys =>
        have hne : (none : Option ι) ≠ (y :: ys).getLast? := by
          rw [List.getLast?_eq_some_getLast (List.cons_ne_nil y ys)]
          exact (Option.some_ne_none _).symm
        rw [if_neg hne, h.head_next, hxs]
        rfl
  · intro c hc
    rw [unlink_next, hP, hN]
    by_cases hlast : some c = ys.getLast?
    · rw [if_pos hlast, after_append_getLast hnd' hlast.symm]
    · rw [if_neg hlast, h.next c (by rw [hxs]; simp at hc ⊢; tauto), hxs]
      rcases List.mem_append.mp hc with hcy | hcz
      · rw [after_append_left hcy (Ne.symm hlast), after_append_left hcy (Ne.symm hlast)]
      · have hcy : c ∉ ys := fun hcy => (List.nodup_append.mp hnd').2.2 c hcy c hcz rfl
        have hcb : b ≠ c := fun hbc => hbz (hbc ▸ hcz)
        rw [after_append_right hcy, after_append_right hcy, after_cons_of_ne hcb]

theorem Linked.unlink (h : Linked l xs) (hb : b ∈ xs) : Linked (l.unlink b) (xs.erase b) := by
  obtain ⟨ys, zs, hxs⟩ := List.append_of_mem hb
  have hnd : (ys ++ b :: zs).Nodup := hxs ▸ h.nodup
  have hby : b ∉ ys := fun hb => (List.nodup_append.mp hnd).2.2 b hb b List.mem_cons_self rfl
  have herase : xs.erase b = ys ++ zs := by
    rw [hxs, List.erase_append_right _ hby, List.erase_cons_head]
  -- `prev` is mended as `next` is in the reversed list
  have hrev : xs.reverse = zs.reverse ++ b :: ys.reverse := by simp [hxs]
  obtain ⟨hn0, hn⟩ := h.unlink_next_eq hxs
  obtain ⟨hp0, hp⟩ := h.swap.unlink_next_eq hrev
  rw [unlink_swap] at hp0 hp
  rw [herase]
  refine ⟨?_, hn0, ?_, hn, fun c hc => ?_⟩
  · rw [← herase]
    exact h.nodup.erase b
  · rw [hp0, List.reverse_append]
  · rw [hp c (by simp at hc ⊢; tauto), List.reverse_append]

theorem Linked.moveFront (h : Linked l xs) (hb : b ∈ xs) :
    Linked ((l.unlink b).pushFront b) (b :: xs.erase b) :=
  (h.unlink hb).pushFront (h.nodup.not_mem_erase)

theorem sublist_of_moveFront {xs : List ι} {x y : ι} (h : List.Sublist [x, y] (b :: xs.erase b)) (hx : x ≠ b) :
    List.Sublist [x, y] xs := by
  rcases List.sublist_cons_iff.mp h with h | ⟨r, hr, -⟩
  · exact h.trans List.erase_sublist
  · exact absurd (List.cons.inj hr).1 hx

theorem ne_of_moveFront {xs : List ι} {x y : ι} (hnd : xs.Nodup) (h : List.Sublist [x, y] (b :: xs.erase b)) :
    y ≠ b := by
  rintro rfl
  have hy : y ∈ xs.erase y := by
    rcases List.sublist_cons_iff.mp h with h | ⟨r, hr, hsub⟩
    · exact h.subset (by simp)
    · obtain ⟨-, rfl⟩ := List.cons.inj hr
      exact hsub.subset (by simp)
  exact hnd.not_mem_erase hy

theorem Linked.foldl_pushFront (h : Linked l xs) :
    ∀ bs : List ι, (bs.reverse ++ xs).Nodup → Linked (bs.foldl Links.pushFront l) (bs.reverse ++ xs) := by
  intro bs
  induction bs generalizing l xs with
  | nil =>
      intro _
      simpa using h
  | cons b bs ih =>
      intro hnd
      have hnd' : (bs.reverse ++ b :: xs).Nodup := by simpa using hnd
      have hb : b ∉ xs := by
        intro hbx
        have := (List.nodup_append.mp hnd').2.1
        exact (List.nodup_cons.mp this).1 hbx
      have := ih (h.pushFront hb) hnd'
      simpa using this

end Linked

end DList
