import Mathlib.Data.Fintype.Card
import Xv6Mlfq.Library.LinkedChain
import Xv6Mlfq.Scans

/-!
The runqueues as FIFO queues.  The four intrusive lists that `enqueue`,
`dequeue` and `dequeue_specific` maintain through `queue_next` refine a map from
levels to lists of processes: appending at the back, taking the front and
removing one process.  `priority_boost`, run without interleaving, rebuilds
level 0 from the process table.
-/

namespace Xv6Mlfq.Queues

open Xv6Mlfq.ProcData
open Xv6Mlfq.State
open LinkedChain

/-- The `queue_next` link of every process of the table. -/
def links (tb : Table) (p : Slot) : Option Slot := (tb.proc p).queueNext

/-- The runqueues hold the FIFO queues `qs`: following `queue_next` from each head meets that
level's list and ends at its tail, and no process is on two lists. -/
structure QueuesOk (tb : Table) (qs : Nat → List Slot) : Prop where
  wf : ∀ l, WellFormed (links tb) (tb.runqueues l).head (tb.runqueues l).tail (qs l)
  disjoint : ∀ l m, l ≠ m → ∀ p ∈ qs l, p ∉ qs m

variable {tb : Table} {qs : Nat → List Slot}

theorem QueuesOk.tail_mem (h : QueuesOk tb qs) {l : Nat} {q : Slot}
    (ht : (tb.runqueues l).tail = some q) : q ∈ qs l :=
  List.mem_of_getLast? ((h.wf l).2.2 ▸ ht)

theorem QueuesOk.head_eq (h : QueuesOk tb qs) (l : Nat) : (tb.runqueues l).head = (qs l).head? :=
  (wellFormed_iff.mp (h.wf l)).2.1

theorem QueuesOk.nodup (h : QueuesOk tb qs) (l : Nat) : (qs l).Nodup := (h.wf l).2.1

theorem disjoint_update (h : QueuesOk tb qs) (L : Nat) {xs : List Slot}
    (hxs : ∀ p ∈ xs, p ∈ qs L ∨ ∀ l, p ∉ qs l) :
    ∀ l m, l ≠ m → ∀ p ∈ Function.update qs L xs l, p ∉ Function.update qs L xs m := by
  intro l m hlm p hl hm
  by_cases hlL : l = L
  · subst hlL
    rw [Function.update_self] at hl
    rw [Function.update_of_ne (Ne.symm hlm)] at hm
    rcases hxs p hl with hp | hp
    · exact h.disjoint l m hlm p hp hm
    · exact hp m hm
  · rw [Function.update_of_ne hlL] at hl
    by_cases hmL : m = L
    · subst hmL
      rw [Function.update_self] at hm
      rcases hxs p hm with hp | hp
      · exact h.disjoint l m hlm p hl hp
      · exact hp l hl
    · rw [Function.update_of_ne hmL] at hm
      exact h.disjoint l m hlm p hl hm

section Refinement

@[simp] theorem links_enqueue (p q : Slot) : links (enqueue tb p) q = enqueueNext tb p q := by
  simp [links, enqueue_proc]

theorem QueuesOk.of_enqueue (h : QueuesOk tb qs) (p : Slot) (hp : ∀ l, p ∉ qs l) :
    QueuesOk (enqueue tb p)
      (Function.update qs (tb.proc p).queueLevel (qs (tb.proc p).queueLevel ++ [p])) := by
  set L := (tb.proc p).queueLevel with hL
  refine ⟨fun l => ?_, disjoint_update h L fun q hq => ?_⟩
  · rw [enqueue_runqueues]
    by_cases hl : l = L
    · subst hl
      rw [if_pos rfl, Function.update_self]
      refine (h.wf _).snoc (hp _) (by simp [enqueueNext]) fun c hc => ?_
      have hcp : c ≠ p := fun hcp => hp _ (hcp ▸ hc)
      rw [links_enqueue]
      simp [enqueueNext, hcp, links, ← hL]
    · rw [if_neg hl, Function.update_of_ne hl]
      refine (h.wf l).frame fun c hc => ?_
      -- the old tail of level L is on L's list, so not on this one
      have hcp : c ≠ p := fun hcp => hp l (hcp ▸ hc)
      have htail : (tb.runqueues L).tail ≠ some c := fun ht =>
        h.disjoint l L hl c hc (h.tail_mem ht)
      rw [links_enqueue]
      simp [enqueueNext, hcp, htail, links, ← hL]
  · rcases List.mem_append.mp hq with hq | hq
    · exact .inl hq
    · exact .inr ((List.mem_singleton.mp hq) ▸ hp)

theorem links_dequeue (l : Nat) (q : Slot) :
    links (dequeue tb l).2 q = if (tb.runqueues l).head = some q then none else links tb q := by
  simp [links, dequeue_proc]

/-- `dequeue(l)` returns the front of level `l`'s list and leaves the rest of it. -/
theorem QueuesOk.of_dequeue (h : QueuesOk tb qs) (l : Nat) :
    (dequeue tb l).1 = (qs l).head? ∧
      QueuesOk (dequeue tb l).2 (Function.update qs l (qs l).tail) := by
  refine ⟨by rw [dequeue_fst, h.head_eq], ?_⟩
  have hhead := h.head_eq l
  cases hq : qs l with
  | nil =>
      rw [hq] at hhead
      have htb : (State.dequeue tb l).2 = tb := by simp [State.dequeue, hhead]
      rw [htb, List.tail_nil, ← hq, Function.update_eq_self]
      exact h
  | cons x xs =>
      rw [hq, List.head?_cons] at hhead
      refine ⟨fun m => ?_, disjoint_update h l fun q hq' => .inl (hq ▸ List.mem_cons_of_mem x hq')⟩
      rw [dequeue_runqueues, hhead]
      dsimp only
      by_cases hm : m = l
      · subst hm
        rw [if_pos rfl, Function.update_self, List.tail_cons]
        have hx : x ∉ xs := (List.nodup_cons.mp (hq ▸ h.nodup m)).1
        have hwf := h.wf m
        rw [hq, ← List.nil_append (x :: xs)] at hwf
        -- taking the front is unlinking it with nothing before it
        exact hwf.unlink fun c hc => by
          have hcx : x ≠ c := fun hxc => hx (hxc ▸ hc)
          simp [links_dequeue, hhead, hcx]
      · rw [if_neg hm, Function.update_of_ne hm]
        refine (h.wf m).frame fun c hc => ?_
        have hcx : x ≠ c := fun hxc => h.disjoint m l hm c hc (hq ▸ hxc ▸ List.mem_cons_self)
        rw [links_dequeue, hhead, if_neg (by simpa using hcx)]

theorem getLast?_or_cons (y : Slot) (ys : List Slot) (prev : Option Slot) :
    (y :: ys).getLast?.or prev = ys.getLast?.or (some y) := by
  cases ys with
  | nil => rfl
  | cons z zs =>
      rw [List.getLast?_cons_cons, List.getLast?_eq_some_getLast (List.cons_ne_nil z zs)]
      rfl

theorem dequeueSpecificLoop_found (p : Slot) (level : Nat) (zs : List Slot) :
    ∀ (ys : List Slot) (fuel : Nat) (prev curr : Option Slot),
      Chain (links tb) curr (ys ++ p :: zs) → p ∉ ys → ys.length < fuel →
      dequeueSpecificLoop p level fuel prev curr tb = unlinkAt tb p level (ys.getLast?.or prev) := by
  intro ys
  induction ys with
  | nil =>
      rintro (_ | fuel) prev curr hchain - hfuel
      · omega
      · cases hchain
        simp [dequeueSpecificLoop]
  | cons y ys ih =>
      rintro (_ | fuel) prev curr hchain hp hfuel
      · omega
      · cases hchain with
        | cons hrest =>
            have hyp : y ≠ p := fun hyp => hp (hyp ▸ List.mem_cons_self)
            rw [dequeueSpecificLoop, if_neg hyp]
            change dequeueSpecificLoop p level fuel (some y) (links tb y) tb = _
            rw [ih fuel (some y) _ hrest (fun h => hp (List.mem_cons_of_mem y h))
              (by simpa using hfuel), getLast?_or_cons]

theorem dequeueSpecificLoop_absent (p : Slot) (level : Nat) :
    ∀ (xs : List Slot) (fuel : Nat) (prev curr : Option Slot),
      Chain (links tb) curr xs → p ∉ xs → xs.length < fuel →
      dequeueSpecificLoop p level fuel prev curr tb = tb := by
  intro xs
  induction xs with
  | nil =>
      rintro (_ | fuel) prev curr hchain - hfuel
      · omega
      · cases hchain
        rfl
  | cons y ys ih =>
      rintro (_ | fuel) prev curr hchain hp hfuel
      · omega
      · cases hchain with
        | cons hrest =>
            have hyp : y ≠ p := fun hyp => hp (hyp ▸ List.mem_cons_self)
            rw [dequeueSpecificLoop, if_neg hyp]
            exact ih fuel (some y) _ hrest (fun h => hp (List.mem_cons_of_mem y h)) (by simpa using hfuel)

theorem length_lt_fuel {xs : List Slot} (hnd : xs.Nodup) : xs.length < nproc + 1 := by
  have hle := hnd.length_le_card
  rw [Fintype.card_fin] at hle
  omega

theorem links_unlinkAt {p : Slot} {prev : Option Slot} (level : Nat) (hprev : prev ≠ some p)
    (q : Slot) :
    links (unlinkAt tb p level prev) q =
      if q = p then none else if prev = some q then links tb p else links tb q := by
  simp [links, unlinkAt_proc _ level hprev]

/-- `dequeue_specific(p)` removes `p` from the list of its level, keeping the others in order,
and changes nothing when `p` is not on that list. -/
theorem QueuesOk.of_dequeueSpecific (h : QueuesOk tb qs) (p : Slot) :
    QueuesOk (dequeueSpecific tb p)
        (Function.update qs (tb.proc p).queueLevel ((qs (tb.proc p).queueLevel).erase p)) ∧
      (p ∉ qs (tb.proc p).queueLevel → dequeueSpecific tb p = tb) := by
  set L := (tb.proc p).queueLevel with hL
  have habsent : p ∉ qs L → dequeueSpecific tb p = tb := fun hp =>
    dequeueSpecificLoop_absent p L (qs L) _ none _ (h.wf L).1 hp (length_lt_fuel (h.nodup L))
  refine ⟨?_, habsent⟩
  by_cases hpL : p ∈ qs L
  · obtain ⟨ys, zs, hsplit⟩ := List.append_of_mem hpL
    have hnd := h.nodup L
    rw [hsplit] at hnd
    have hpy : p ∉ ys := fun hp => (List.nodup_append.mp hnd).2.2 p hp p List.mem_cons_self rfl
    have hprev : ys.getLast? ≠ some p := fun hl => hpy (List.mem_of_getLast? hl)
    have hrun : dequeueSpecific tb p = unlinkAt tb p L ys.getLast? := by
      have hchain := (h.wf L).1
      rw [hsplit] at hchain
      have hlen := length_lt_fuel (h.nodup L)
      rw [hsplit, List.length_append] at hlen
      have hfound := dequeueSpecificLoop_found p L zs ys (nproc + 1) none _ hchain hpy (by omega)
      rw [Option.or_none] at hfound
      exact hfound
    have herase : (qs L).erase p = ys ++ zs := by
      rw [hsplit, List.erase_append_right _ hpy, List.erase_cons_head]
    rw [hrun, herase]
    refine ⟨fun l => ?_, disjoint_update h L fun q hq => .inl ?_⟩
    · rw [unlinkAt_runqueues _ L hprev]
      by_cases hl : l = L
      · rw [hl, if_pos rfl, Function.update_self]
        simp only [List.getLast?_eq_none_iff]
        have hwf := h.wf L
        rw [hsplit] at hwf
        exact hwf.unlink fun c hc => by
          have hcp : c ≠ p := by
            rintro rfl
            rcases List.mem_append.mp hc with hcy | hcz
            · exact hpy hcy
            · exact (List.nodup_cons.mp (List.nodup_append.mp hnd).2.1).1 hcz
          rw [links_unlinkAt _ hprev, if_neg hcp]
      · rw [if_neg hl, Function.update_of_ne hl]
        refine (h.wf l).frame fun c hc => ?_
        have hcp : c ≠ p := fun hcp => h.disjoint l L hl c hc (hcp ▸ hpL)
        have hcprev : ys.getLast? ≠ some c := fun hlast =>
          h.disjoint l L hl c hc (hsplit ▸ List.mem_append_left _ (List.mem_of_getLast? hlast))
        rw [links_unlinkAt _ hprev, if_neg hcp, if_neg hcprev]
    · rw [← herase] at hq
      exact List.mem_of_mem_erase hq
  · rw [habsent hpL, List.erase_of_not_mem hpL, Function.update_eq_self]
    exact h

theorem queuesOk_empty (h : ∀ l, tb.runqueues l = ⟨none, none⟩) : QueuesOk tb fun _ => [] where
  wf l := by
    rw [h l]
    exact wellFormed_nil
  disjoint _ _ _ _ hp := absurd hp List.not_mem_nil

theorem queuesOk_boot : QueuesOk boot.table fun _ => [] :=
  queuesOk_empty fun _ => rfl

theorem runqueues_refine_fifo (tb : Table) (qs : Nat → List Slot) (h : QueuesOk tb qs) :
    (∀ p, (∀ l, p ∉ qs l) →
      QueuesOk (enqueue tb p)
        (Function.update qs (tb.proc p).queueLevel (qs (tb.proc p).queueLevel ++ [p]))) ∧
      (∀ l, (dequeue tb l).1 = (qs l).head? ∧
        QueuesOk (dequeue tb l).2 (Function.update qs l (qs l).tail)) ∧
      ∀ p, QueuesOk (dequeueSpecific tb p)
          (Function.update qs (tb.proc p).queueLevel ((qs (tb.proc p).queueLevel).erase p)) ∧
        (p ∉ qs (tb.proc p).queueLevel → dequeueSpecific tb p = tb) :=
  ⟨h.of_enqueue, h.of_dequeue, h.of_dequeueSpecific⟩

/-- Processes 0, 1 and 2 enqueued in turn at level 0 on the empty queues of boot. -/
def threeQueued : Table := enqueue (enqueue (enqueue boot.table 0) 1) 2

/-- The three-element queue: dequeue takes its head, and dequeue_specific of the middle
process keeps the others in order. -/
theorem runqueues_refine_fifo_three :
    QueuesOk threeQueued (Function.update (fun _ => []) 0 [0, 1, 2]) ∧
      (dequeue threeQueued 0).1 = some 0 ∧
      QueuesOk (dequeue threeQueued 0).2 (Function.update (fun _ => []) 0 [1, 2]) ∧
      QueuesOk (dequeueSpecific threeQueued 1) (Function.update (fun _ => []) 0 [0, 2]) := by
  have henq : ∀ tb xs p, QueuesOk tb (Function.update (fun _ => []) 0 xs) → (tb.proc p).queueLevel = 0 →
      p ∉ xs → QueuesOk (enqueue tb p) (Function.update (fun _ => []) 0 (xs ++ [p])) := by
    intro tb xs p h hl hp
    have h' := (runqueues_refine_fifo tb _ h).1 p fun l => by
      by_cases hl0 : l = 0
      · subst hl0
        simpa using hp
      · simp [hl0]
    rwa [hl, Function.update_self, Function.update_idem] at h'
  have h0 : QueuesOk boot.table (Function.update (fun _ => []) 0 []) := by
    rw [show Function.update (fun _ => ([] : List Slot)) 0 [] = fun _ => [] from Function.update_eq_self _ _]
    exact queuesOk_boot
  have h3 : QueuesOk threeQueued (Function.update (fun _ => []) 0 [0, 1, 2]) :=
    henq _ [0, 1] 2 (henq _ [0] 1 (henq _ [] 0 h0 rfl (by simp)) rfl (by decide)) rfl (by decide)
  obtain ⟨-, hdeq, hspec⟩ := runqueues_refine_fifo threeQueued _ h3
  have hlvl : (threeQueued.proc 1).queueLevel = 0 := rfl
  obtain ⟨hhead, hdeq'⟩ := hdeq 0
  have hspec' := (hspec 1).1
  rw [hlvl, Function.update_self, Function.update_idem] at hspec'
  rw [Function.update_self, Function.update_idem] at hdeq'
  exact ⟨h3, by rw [hhead]; rfl, hdeq', hspec'⟩

end Refinement

section Boost

/-- The fields `priority_boost` gives an entry it finds `RUNNABLE`; it leaves the others alone. -/
def boostedFields (p : Proc) : Proc :=
  if p.state = .runnable then { p with queueLevel := 0, timeInQueue := 0 } else p

/-- What `priority_boost`'s scan has built after visiting the entries `ps` of the table `tb₀`
whose queues it cleared: level 0 lists the `RUNNABLE` ones in the order visited, levels 1 to 3
stay empty, and every entry but its link is as `boostedFields` says for the visited ones and
as before for the others. -/
structure BoostInv (tb₀ tb : Table) (ps : List Slot) : Prop where
  wf : WellFormed (links tb) (tb.runqueues 0).head (tb.runqueues 0).tail
    (ps.filter fun q => (tb₀.proc q).state = .runnable)
  empty : ∀ l, 0 < l → l < mlfqLevels → tb.runqueues l = ⟨none, none⟩
  fields : ∀ q, ∃ n,
    tb.proc q = { (if q ∈ ps then boostedFields (tb₀.proc q) else tb₀.proc q) with queueNext := n }

theorem boostInv_clear (tb₀ : Table) : BoostInv tb₀ (clearRunqueues tb₀) [] where
  wf := by
    have h0 : (clearRunqueues tb₀).runqueues 0 = ⟨none, none⟩ := by simp [clearRunqueues, mlfqLevels]
    rw [h0]
    exact wellFormed_nil
  empty l _ hl := by simp [clearRunqueues, hl]
  fields q := ⟨(tb₀.proc q).queueNext, rfl⟩

/-- One iteration of the scan: a `RUNNABLE` entry is reset and appended to level 0. -/
theorem BoostInv.boostIter {tb₀ tb : Table} {ps : List Slot} (h : BoostInv tb₀ tb ps) {p : Slot}
    (hp : p ∉ ps) : BoostInv tb₀ (boostIter tb p) (ps ++ [p]) := by
  obtain ⟨n, hn⟩ := h.fields p
  rw [if_neg hp] at hn
  by_cases hr : (tb₀.proc p).state = .runnable
  · have hrun : (tb.proc p).state = .runnable := by rw [hn]; exact hr
    set tb1 := tb.setProc p fun q => { q with queueLevel := 0, timeInQueue := 0 } with htb1
    have hboost : State.boostIter tb p = enqueue tb1 p := by simp [State.boostIter, hrun, htb1]
    have hlevel : (tb1.proc p).queueLevel = 0 := by simp [htb1]
    have hlinks : links tb1 = links tb := by
      funext q
      by_cases hq : q = p
      · subst hq
        simp [links, htb1]
      · simp [links, htb1, hq]
    rw [hboost]
    refine ⟨?_, fun l hl hl' => ?_, fun q => ?_⟩
    · rw [enqueue_runqueues, hlevel, if_pos rfl, List.filter_append]
      simp only [hr, decide_true, List.filter_cons_of_pos, List.filter_nil]
      refine h.wf.snoc (fun hmem => hp (List.mem_filter.mp hmem).1) (by simp [enqueueNext]) ?_
      intro c hc
      have hcp : c ≠ p := fun hcp => hp (hcp ▸ (List.mem_filter.mp hc).1)
      rw [links_enqueue]
      simp [enqueueNext, hcp, htb1, links]
    · rw [enqueue_runqueues, hlevel, if_neg (by omega)]
      exact h.empty l hl hl'
    · rw [enqueue_proc]
      by_cases hq : q = p
      · subst hq
        refine ⟨enqueueNext tb1 q q, ?_⟩
        simp [htb1, hn, boostedFields, hr]
      · obtain ⟨m, hm⟩ := h.fields q
        refine ⟨enqueueNext tb1 p q, ?_⟩
        simp [htb1, hq, hm]
  · have hnot : (tb.proc p).state ≠ .runnable := by rw [hn]; exact hr
    have hboost : State.boostIter tb p = tb := by simp [State.boostIter, hnot]
    rw [hboost]
    refine ⟨?_, h.empty, fun q => ?_⟩
    · rw [List.filter_append]
      simpa [hr] using h.wf
    · by_cases hq : q = p
      · subst hq
        exact ⟨n, by simp [hn, boostedFields, hr]⟩
      · obtain ⟨m, hm⟩ := h.fields q
        exact ⟨m, by simp [hm, hq]⟩

theorem priorityBoost_table (s : Kernel) :
    (priorityBoost s).table = (List.finRange nproc).foldl State.boostIter (clearRunqueues s.table) := by
  simp only [priorityBoost, Kernel.mapTable]

theorem boostInv_foldl (tb₀ : Table) :
    ∀ ps : List Slot, ps.Nodup → BoostInv tb₀ (ps.foldl State.boostIter (clearRunqueues tb₀)) ps := by
  intro ps
  induction ps using List.reverseRecOn with
  | nil => exact fun _ => boostInv_clear tb₀
  | append_singleton ps p ih =>
      intro hnd
      have hsplit := List.nodup_append.mp hnd
      rw [List.foldl_append, List.foldl_cons, List.foldl_nil]
      exact (ih hsplit.1).boostIter fun hp => hsplit.2.2 p hp p (List.mem_singleton_self p) rfl

theorem priorityBoost_spec (s : Kernel) :
    WellFormed (links (priorityBoost s).table) ((priorityBoost s).table.runqueues 0).head
        ((priorityBoost s).table.runqueues 0).tail
        ((List.finRange nproc).filter fun p => (s.table.proc p).state = .runnable) ∧
      (∀ l, 0 < l → l < mlfqLevels → (priorityBoost s).table.runqueues l = ⟨none, none⟩) ∧
      (priorityBoost s).ticksSinceBoost = 0 ∧
      ∀ p, ∃ n, (priorityBoost s).table.proc p = { boostedFields (s.table.proc p) with queueNext := n } := by
  have h := boostInv_foldl s.table (List.finRange nproc) (List.nodup_finRange nproc)
  rw [priorityBoost_table]
  refine ⟨h.wf, h.empty, rfl, fun p => ?_⟩
  obtain ⟨n, hn⟩ := h.fields p
  rw [if_pos (List.mem_finRange p)] at hn
  exact ⟨n, hn⟩

theorem boostScan_setFrames (s : Kernel) (t : Thread) (fs : List Frame) (F : Table → Table) :
    { ((s.mapTable clearRunqueues).setFrames t fs).mapTable F with ticksSinceBoost := 0 } =
      { s.mapTable (fun tb => F (clearRunqueues tb)) with ticksSinceBoost := 0 }.setFrames t fs :=
  rfl

theorem run_priorityBoost (ok : Bool) {s : Kernel} {c : CpuId} {fs : List Frame}
    (htop : s.frames (s.current c) = .boostClear :: fs) (hfree : ∀ p : Slot, s.procLocked p = false) :
    StepSystem.run Step.step s (List.replicate (nproc + 2) (.exec c ok)) =
      some ((priorityBoost s).setFrames (s.current c) fs) := by
  set s1 := (s.mapTable clearRunqueues).setFrames (s.current c) (.boostScan 0 :: fs) with hs1
  have hstep : Step.step s (.exec c ok) = some s1 := by
    rw [Scans.step_exec_of_top htop]
    rfl
  have hcur : s1.current c = s.current c :=
    @Scans.current_setFrames_current (s.mapTable clearRunqueues) c (.boostScan 0)
      (fun _ _ => Frame.noConfusion) fs
  have htop1 : s1.frames (s1.current c) = .boostScan 0 :: fs := by
    rw [hcur, hs1]
    simp
  have hfree1 : ∀ p : Slot, s1.procLocked p = false := fun p => by
    rw [hs1, Scans.procLocked_setFrames (by simp [htop]) (by simp)]
    simpa using hfree p
  have hscan := Scans.run_boostScan ok (Nat.zero_le _) htop1 hfree1
  rw [Nat.sub_zero, List.drop_zero] at hscan
  rw [List.replicate_succ, StepSystem.run_cons_of_step _ hstep, hscan, hcur]
  rw [hs1, boostScan_setFrames, Scans.setFrames_setFrames]
  rfl

/-- A state a boost can meet: besides the boot state's first process, a process asleep at level 1
and one running at level 2 with 5 ticks used there; the runqueues are empty. -/
def boostDemo : Kernel :=
  boot.mapTable fun tb =>
    (tb.setProc 1 fun q => { q with state := .sleeping, queueLevel := 1, timeInQueue := 3 }).setProc 2
      fun q => { q with state := .running, queueLevel := 2, timeInQueue := 5 }

theorem priority_boost_resets_fails :
    QueuesOk boostDemo.table (fun _ => []) ∧
      (boostDemo.table.proc 1).state = .sleeping ∧
      ((priorityBoost boostDemo).table.proc 1).queueLevel = 1 ∧
      (boostDemo.table.proc 2).state = .running ∧
      ((priorityBoost boostDemo).table.proc 2).queueLevel = 2 ∧
      ((priorityBoost boostDemo).table.proc 2).timeInQueue = 5 := by
  obtain ⟨-, -, -, hfields⟩ := priorityBoost_spec boostDemo
  obtain ⟨n1, h1⟩ := hfields 1
  obtain ⟨n2, h2⟩ := hfields 2
  refine ⟨queuesOk_empty fun _ => rfl, rfl, ?_, rfl, ?_, ?_⟩
  · rw [h1]
    rfl
  · rw [h2]
    rfl
  · rw [h2]
    rfl

end Boost

end Xv6Mlfq.Queues
