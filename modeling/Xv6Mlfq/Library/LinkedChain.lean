import Mathlib.Data.List.Nodup
import Xv6Mlfq.Library.DList

/-!
Intrusive singly linked lists: nodes of any type carry a `next` link, `none`
being the null pointer.  A chain is the list of nodes met by following the
links from a start until the null link; a queue with head and tail pointers is
well formed when its chain has no repeated node and ends at the tail.  A
well-formed queue is read off its links by `DList.after`, and the three pointer
operations of a queue (append at the tail, unlink a node given the one before
it, and rewrite the links of other nodes) keep it well formed.
-/

namespace LinkedChain

variable {ι : Type*} (next : ι → Option ι)

/-- Following `next` from `start` meets exactly `xs`, in order, and then the null link. -/
inductive Chain : Option ι → List ι → Prop
  | nil : Chain none []
  | cons {i : ι} {xs : List ι} : Chain (next i) xs → Chain (some i) (i :: xs)

/-- The node `i` is met by following `next` from `start`. -/
inductive Reaches : Option ι → ι → Prop
  | here (i : ι) : Reaches (some i) i
  | later {i j : ι} : Reaches (next i) j → Reaches (some i) j

/-- A queue with `head` and `tail` pointers holding `xs`: the chain from the
head is `xs`, no node repeats, and the tail is its last node. -/
def WellFormed (head tail : Option ι) (xs : List ι) : Prop :=
  Chain next head xs ∧ xs.Nodup ∧ tail = xs.getLast?

variable {next}

theorem Chain.unique {start : Option ι} {xs ys : List ι} (hx : Chain next start xs)
    (hy : Chain next start ys) : xs = ys := by
  induction hx generalizing ys with
  | nil =>
      cases hy
      rfl
  | @cons i xs _ ih =>
      cases hy with
      | cons hy' => rw [ih hy']

theorem not_reaches_none (i : ι) : ¬ Reaches next none i := by
  intro h
  cases h

theorem Chain.reaches_iff {start : Option ι} {xs : List ι} (h : Chain next start xs) (j : ι) :
    Reaches next start j ↔ j ∈ xs := by
  induction h with
  | nil => simp [not_reaches_none]
  | @cons i xs _ ih =>
      constructor
      · intro hreach
        cases hreach with
        | here => exact List.mem_cons_self
        | later hnext => exact List.mem_cons_of_mem i (ih.mp hnext)
      · intro hmem
        rcases List.mem_cons.mp hmem with rfl | hmem
        · exact .here j
        · exact .later (ih.mpr hmem)

theorem Chain.head_eq_none_iff {start : Option ι} {xs : List ι} (h : Chain next start xs) :
    start = none ↔ xs = [] := by
  cases h <;> simp

theorem wellFormed_nil : WellFormed next none none [] :=
  ⟨.nil, List.nodup_nil, rfl⟩

section Queue

open DList

variable [DecidableEq ι] {next next' : ι → Option ι} {head tail : Option ι} {xs ys zs : List ι}

theorem chain_iff_after (hnd : xs.Nodup) {start : Option ι} :
    Chain next start xs ↔ start = xs.head? ∧ ∀ c ∈ xs, next c = after xs c := by
  induction xs generalizing start with
  | nil =>
      constructor
      · rintro ⟨⟩
        simp
      · rintro ⟨rfl, -⟩
        exact .nil
  | cons x xs ih =>
      have hx : x ∉ xs := (List.nodup_cons.mp hnd).1
      have hrest : Chain next (next x) xs ↔ next x = xs.head? ∧ ∀ c ∈ xs, next c = after xs c :=
        ih (List.nodup_cons.mp hnd).2
      constructor
      · rintro (_ | ⟨hchain⟩)
        obtain ⟨hnx, hlinks⟩ := hrest.mp hchain
        refine ⟨rfl, fun c hc => ?_⟩
        rcases List.mem_cons.mp hc with rfl | hc
        · rw [after_cons_self, hnx]
        · rw [after_cons_of_ne (by rintro rfl; exact hx hc), hlinks c hc]
      · rintro ⟨rfl, hlinks⟩
        refine .cons (hrest.mpr ⟨by simpa using hlinks x List.mem_cons_self, fun c hc => ?_⟩)
        rw [hlinks c (List.mem_cons_of_mem x hc), after_cons_of_ne (by rintro rfl; exact hx hc)]

theorem wellFormed_iff :
    WellFormed next head tail xs ↔
      xs.Nodup ∧ head = xs.head? ∧ tail = xs.getLast? ∧ ∀ c ∈ xs, next c = after xs c := by
  constructor
  · rintro ⟨hchain, hnd, htail⟩
    obtain ⟨hhead, hlinks⟩ := (chain_iff_after hnd).mp hchain
    exact ⟨hnd, hhead, htail, hlinks⟩
  · rintro ⟨hnd, hhead, htail, hlinks⟩
    exact ⟨(chain_iff_after hnd).mpr ⟨hhead, hlinks⟩, hnd, htail⟩

theorem WellFormed.frame (h : WellFormed next head tail xs) (hsame : ∀ c ∈ xs, next' c = next c) :
    WellFormed next' head tail xs := by
  obtain ⟨hnd, hhead, htail, hlinks⟩ := wellFormed_iff.mp h
  exact wellFormed_iff.mpr ⟨hnd, hhead, htail, fun c hc => (hsame c hc).trans (hlinks c hc)⟩

theorem WellFormed.head_eq_none_iff (h : WellFormed next head tail xs) :
    head = none ↔ tail = none := by
  obtain ⟨-, rfl, rfl, -⟩ := wellFormed_iff.mp h
  cases xs <;> simp

theorem WellFormed.next_tail (h : WellFormed next head tail xs) {t : ι} (ht : tail = some t) :
    next t = none := by
  obtain ⟨hnd, -, htail, hlinks⟩ := wellFormed_iff.mp h
  have hmem : t ∈ xs := List.mem_of_getLast? (htail ▸ ht)
  obtain ⟨ys, hys⟩ := List.getLast?_eq_some_iff.mp (htail ▸ ht)
  have hty : t ∉ ys := fun hty =>
    (List.nodup_append.mp (hys ▸ hnd)).2.2 t hty t (List.mem_singleton_self t) rfl
  rw [hlinks t hmem, hys, after_append_right hty, after_cons_self]
  rfl

theorem WellFormed.snoc (h : WellFormed next head tail xs) {p : ι} (hp : p ∉ xs)
    (hpnext : next' p = none) (hsame : ∀ c ∈ xs, next' c = if tail = some c then some p else next c) :
    WellFormed next' (if tail = none then some p else head) (some p) (xs ++ [p]) := by
  obtain ⟨hnd, hhead, htail, hlinks⟩ := wellFormed_iff.mp h
  have hnd' : (xs ++ [p]).Nodup := by
    refine List.nodup_append.mpr ⟨hnd, List.nodup_singleton p, ?_⟩
    rintro a ha b hb rfl
    obtain rfl := List.mem_singleton.mp hb
    exact hp ha
  refine wellFormed_iff.mpr ⟨hnd', ?_, by simp, fun c hc => ?_⟩
  · subst hhead htail
    cases xs <;> simp
  · rcases List.mem_append.mp hc with hc | hc
    · rw [hsame c hc]
      by_cases hlast : xs.getLast? = some c
      · rw [if_pos (htail.trans hlast), after_append_getLast hnd' hlast]
        rfl
      · rw [if_neg (htail ▸ hlast), hlinks c hc, after_append_left hc hlast]
    · obtain rfl := List.mem_singleton.mp hc
      rw [hpnext, after_append_right hp, after_cons_self]
      rfl

/-- Unlinking the node `p` from `ys ++ p :: zs`, the node before it now linking to the one after
it: the queue is `ys ++ zs`, the head moving on when `p` was first and the tail moving back when
it was last. -/
theorem WellFormed.unlink {p : ι} (h : WellFormed next head tail (ys ++ p :: zs))
    (hsame : ∀ c ∈ ys ++ zs, next' c = if ys.getLast? = some c then next p else next c) :
    WellFormed next' (if ys = [] then next p else head) (if next p = none then ys.getLast? else tail)
      (ys ++ zs) := by
  obtain ⟨hnd, hhead, htail, hlinks⟩ := wellFormed_iff.mp h
  have hpy : p ∉ ys := fun hp => (List.nodup_append.mp hnd).2.2 p hp p List.mem_cons_self rfl
  have hpz : p ∉ zs := (List.nodup_cons.mp (List.nodup_append.mp hnd).2.1).1
  have hnd' : (ys ++ zs).Nodup :=
    List.Nodup.sublist ((List.Sublist.refl ys).append (List.sublist_cons_self p zs)) hnd
  have hnp : next p = zs.head? := by
    rw [hlinks p (by simp), after_append_right hpy, after_cons_self]
  refine wellFormed_iff.mpr ⟨hnd', ?_, ?_, fun c hc => ?_⟩
  · rw [hnp, hhead]
    cases ys <;> simp
  · rw [hnp, htail]
    cases zs <;> simp [List.getLast?_append]
  · rw [hsame c hc, hnp]
    by_cases hlast : ys.getLast? = some c
    · rw [if_pos hlast, after_append_getLast hnd' hlast]
    · rw [if_neg hlast, hlinks c (by simp at hc ⊢; tauto)]
      rcases List.mem_append.mp hc with hcy | hcz
      · rw [after_append_left hcy hlast, after_append_left hcy hlast]
      · have hcy : c ∉ ys := fun hcy => (List.nodup_append.mp hnd').2.2 c hcy c hcz rfl
        rw [after_append_right hcy, after_append_right hcy,
          after_cons_of_ne (by rintro rfl; exact hpz hcz)]

end Queue

end LinkedChain
