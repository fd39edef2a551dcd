import Mathlib.Data.List.Nodup
import Xv6Mlfq.Library.StepSystem
import Xv6Mlfq.Vm

/-!
What a page table built by vm.c looks like in memory, and the finite map it
stands for.  The pages walk can reach from a root sit at positions: the root,
the level-1 page under a valid root entry, the level-0 page under a valid
level-1 entry.  `TableOk` says these pages are distinct pages that kalloc
handed out and that are not on the free list, that every valid entry of the
root and of the level-1 pages is an interior entry, and that the root entries
past MAXVA are empty.  `translate` is the map from virtual page numbers to
the physical address and flags of the valid leaf entry walk reaches.
-/

namespace Xv6Mlfq.PageTable

open ByteMem Vm

/-- The `i`-th entry of the page-table page at `pg`. -/
def entry (m : Nat → UInt8) (pg i : Nat) : Nat := pteAt m (pg + 8 * i)

/-- The test `*pte & PTE_V`. -/
def Valid (pte : Nat) : Prop := pte &&& pteV ≠ 0

instance : DecidablePred Valid := fun pte => inferInstanceAs (Decidable (pte &&& pteV ≠ 0))

/-- A page kfree takes without panicking. -/
def Freeable (s : Phys) (p : Nat) : Prop := p % pgsize = 0 ∧ s.kend ≤ p ∧ p < phystop

instance (s : Phys) : DecidablePred (Freeable s) := fun _ => inferInstanceAs (Decidable (_ ∧ _ ∧ _))

/-- The place of a page-table page under the root: the root itself, the
level-1 page under root entry `i`, or the level-0 page under its entry `j`. -/
inductive Pos
  | root
  | mid (i : Nat)
  | low (i j : Nat)
  deriving DecidableEq

namespace Pos

def page (m : Nat → UInt8) (r : Nat) : Pos → Nat
  | root => r
  | mid i => pte2pa (entry m r i)
  | low i j => pte2pa (entry m (pte2pa (entry m r i)) j)

/-- walk reaches the position: each entry on the way there is valid. -/
def Live (m : Nat → UInt8) (r : Nat) : Pos → Prop
  | root => True
  | mid i => i < 512 ∧ Valid (entry m r i)
  | low i j => i < 512 ∧ Valid (entry m r i) ∧ j < 512 ∧ Valid (entry m (pte2pa (entry m r i)) j)

instance (m : Nat → UInt8) (r : Nat) : DecidablePred (Live m r) := fun x =>
  match x with
  | root => inferInstanceAs (Decidable True)
  | mid _ => inferInstanceAs (Decidable (_ ∧ _))
  | low _ _ => inferInstanceAs (Decidable (_ ∧ _ ∧ _ ∧ _))

/-- The levels whose entries point at further page-table pages. -/
def Inner : Pos → Prop
  | low _ _ => False
  | _ => True

end Pos

/-- What walk(pagetable, va, 0) returns for `va < MAXVA`: the address of the
level-0 entry of `va`, or 0. -/
def slot (m : Nat → UInt8) (r va : Nat) : Nat :=
  if (Pos.low (px 2 va) (px 1 va)).Live m r then
    (Pos.low (px 2 va) (px 1 va)).page m r + 8 * px 0 va
  else 0

/-- The valid leaf entry of `va`, read through `slot` as walkaddr and
uvmunmap read it. -/
def leafAt (m : Nat → UInt8) (r va : Nat) : Option Nat :=
  if slot m r va ≠ 0 ∧ Valid (pteAt m (slot m r va)) then some (pteAt m (slot m r va)) else none

/-- M(pt): for a virtual page number, the physical address and the flags of
the valid leaf entry that walk(pt, va, 0) reaches. -/
def translate (s : Phys) (pagetable vpn : Nat) : Option (Nat × Nat) :=
  match walk s pagetable (vpn * pgsize) false with
  | some (_, pte) =>
    if pte ≠ 0 ∧ Valid (pteAt s.mem pte) then
      some (pte2pa (pteAt s.mem pte), pteFlags (pteAt s.mem pte))
    else none
  | none => none

/-- The shape of a page table that vm.c keeps. -/
structure TableOk (s : Phys) (r : Nat) : Prop where
  kend_pos : 0 < s.kend
  nodup : s.freelist.Nodup
  free : ∀ p ∈ s.freelist, Freeable s p
  live : ∀ x : Pos, x.Live s.mem r → Freeable s (x.page s.mem r) ∧ x.page s.mem r ∉ s.freelist
  inj : ∀ x y : Pos, x.Live s.mem r → y.Live s.mem r → x.page s.mem r = y.page s.mem r → x = y
  upper : ∀ i, 256 ≤ i → i < 512 → ¬ Valid (entry s.mem r i)
  inner : ∀ x : Pos, x.Live s.mem r → x.Inner → ∀ i < 512, Valid (entry s.mem (x.page s.mem r) i) →
    entry s.mem (x.page s.mem r) i &&& (pteR ||| pteW ||| pteX) = 0

/-! ### Entries of pages -/

section Entries

variable {m m' : Nat → UInt8} {p q i j v : Nat} {c : UInt8}

theorem entry_congr (h : Agree m m' p pgsize) (hi : i < 512) : entry m' p i = entry m p i :=
  load_congr (h.mono (by omega) (by simp only [pgsize]; omega))

theorem agree_fill_page (hp : p % pgsize = 0) (hq : q % pgsize = 0) (hne : p ≠ q) :
    Agree m (fill m p pgsize c) q pgsize :=
  agree_fill (by simp only [pgsize] at *; omega)

theorem agree_setPte_page (hp : p % pgsize = 0) (hq : q % pgsize = 0) (hne : p ≠ q)
    (hi : i < 512) : Agree m (setPte m (p + 8 * i) v) q pgsize :=
  agree_store (by simp only [pgsize] at *; omega)

theorem entry_setPte_self (hv : v < 2 ^ 64) : entry (setPte m (p + 8 * i) v) p i = v := by
  rw [entry, pteAt, setPte, load_store_self, Nat.mod_eq_of_lt (by simpa using hv)]

theorem entry_setPte_mod : entry (setPte m (p + 8 * i) v) p i = v % 2 ^ 64 := by
  rw [entry, pteAt, setPte, load_store_self]
  rfl

theorem entry_setPte_of_ne (hne : i ≠ j) : entry (setPte m (p + 8 * j) v) p i = entry m p i :=
  load_congr (agree_store (by omega))

theorem entry_fill_zero (hi : i < 512) : entry (fill m p pgsize 0) p i = 0 :=
  load_zero_fill (by omega) (by simp only [pgsize]; omega)

end Entries

theorem not_valid_zero : ¬ Valid 0 := by decide

theorem valid_link (p : Nat) : Valid (pa2pte p ||| pteV) := or_pteV_valid _

/-! ### walk, one level at a time -/

section WalkFrom

variable {va level pt : Nat} {alloc : Bool} {s : Phys}

theorem walkFrom_zero : walkFrom va alloc 0 s pt = (s, pt + 8 * px 0 va) := rfl

theorem walkFrom_valid (h : Valid (entry s.mem pt (px (level + 1) va))) :
    walkFrom va alloc (level + 1) s pt =
      walkFrom va alloc level s (pte2pa (entry s.mem pt (px (level + 1) va))) := by
  simp only [walkFrom]
  exact if_pos h

theorem walkFrom_invalid_false (h : ¬ Valid (entry s.mem pt (px (level + 1) va))) :
    walkFrom va false (level + 1) s pt = (s, 0) := by
  have h' : ¬ pteAt s.mem (pt + 8 * px (level + 1) va) &&& pteV ≠ 0 := h
  simp only [walkFrom]
  rw [if_neg h']
  rfl

theorem walkFrom_invalid_true (h : ¬ Valid (entry s.mem pt (px (level + 1) va))) :
    walkFrom va true (level + 1) s pt =
      if (kalloc s).2 = 0 then ((kalloc s).1, 0)
      else walkFrom va true level
        { (kalloc s).1 with
          mem := setPte (fill (kalloc s).1.mem (kalloc s).2 pgsize 0) (pt + 8 * px (level + 1) va)
            (pa2pte (kalloc s).2 ||| pteV) } (kalloc s).2 := by
  have h' : ¬ pteAt s.mem (pt + 8 * px (level + 1) va) &&& pteV ≠ 0 := h
  simp only [walkFrom]
  rw [if_neg h']
  rfl

end WalkFrom

/-! ### Linking a new page-table page -/

/-- The memory after walk links the zeroed page `p` under entry `i` of `parent`. -/
def link (m : Nat → UInt8) (parent i p : Nat) : Nat → UInt8 :=
  setPte (fill m p pgsize 0) (parent + 8 * i) (pa2pte p ||| pteV)

section Link

variable {m : Nat → UInt8} {parent i j p q : Nat}

theorem link_entry_self (hp : p < 2 ^ 64) : entry (link m parent i p) parent i = pa2pte p ||| pteV :=
  entry_setPte_self (pa2pte_lt (f := pteV) hp (by decide))

theorem link_entry_of_ne (hp : p % pgsize = 0) (hpar : parent % pgsize = 0) (hne : p ≠ parent)
    (hj : j < 512) (hji : j ≠ i) : entry (link m parent i p) parent j = entry m parent j := by
  rw [link, entry_setPte_of_ne hji, entry_congr (agree_fill_page hp hpar hne) hj]

theorem link_entry_new (hp : p % pgsize = 0) (hpar : parent % pgsize = 0) (hne : p ≠ parent)
    (hi : i < 512) (hj : j < 512) : entry (link m parent i p) p j = 0 := by
  rw [link, entry_congr (agree_setPte_page hpar hp (Ne.symm hne) hi) hj, entry_fill_zero hj]

theorem agree_link (hp : p % pgsize = 0) (hpar : parent % pgsize = 0) (hq : q % pgsize = 0)
    (hqp : q ≠ p) (hqpar : q ≠ parent) (hi : i < 512) : Agree m (link m parent i p) q pgsize :=
  (agree_fill_page hp hq (Ne.symm hqp)).trans (agree_setPte_page hpar hq (Ne.symm hqpar) hi)

theorem pte2pa_link (hp : p % pgsize = 0) (hlt : p < 2 ^ 64) : pte2pa (pa2pte p ||| pteV) = p :=
  pte2pa_pa2pte_or (f := pteV) hp hlt (by decide)

end Link

section Shape

variable {s s' : Phys} {r p : Nat}

theorem Freeable.lt (h : Freeable s p) : p < 2 ^ 64 := by
  have h3 : p < phystop := h.2.2
  have hps : phystop = 2281701376 := by decide
  omega

theorem Freeable.of_kend (h : Freeable s p) (hk : s'.kend = s.kend) : Freeable s' p := by
  obtain ⟨h1, h2, h3⟩ := h
  exact ⟨h1, hk ▸ h2, h3⟩

theorem TableOk.root (h : TableOk s r) : Freeable s r ∧ r ∉ s.freelist := h.live .root trivial

/-- Linking one page from the head of the free list at a position that was not
live keeps the shape, given the new entries keep the bounds of `upper` and
`inner`. -/
theorem TableOk.extend (h : TableOk s r) {n : Pos} {rest : List Nat}
    (hfree : s.freelist = p :: rest) (hfl : s'.freelist = rest) (hkend : s'.kend = s.kend)
    (hlive : ∀ x : Pos, x.Live s'.mem r ↔ x.Live s.mem r ∨ x = n)
    (hpage : ∀ x : Pos, x.Live s.mem r → x.page s'.mem r = x.page s.mem r)
    (hn : n.page s'.mem r = p)
    (hupper : ∀ i, 256 ≤ i → i < 512 → ¬ Valid (entry s'.mem r i))
    (hinner : ∀ x : Pos, x.Live s'.mem r → x.Inner → ∀ i < 512,
      Valid (entry s'.mem (x.page s'.mem r) i) →
        entry s'.mem (x.page s'.mem r) i &&& (pteR ||| pteW ||| pteX) = 0) :
    TableOk s' r := by
  have hnd : (p :: rest).Nodup := hfree ▸ h.nodup
  have hp : p ∉ rest := (List.nodup_cons.mp hnd).1
  have hpfree : Freeable s p := h.free p (by rw [hfree]; exact List.mem_cons_self)
  have hold : ∀ x : Pos, x.Live s.mem r → x.page s.mem r ≠ p := by
    intro x hx hxp
    have hmem : x.page s.mem r ∈ s.freelist := by rw [hxp, hfree]; exact List.mem_cons_self
    exact (h.live x hx).2 hmem
  refine ⟨hkend ▸ h.kend_pos, hfl ▸ (List.nodup_cons.mp hnd).2, ?_, ?_, ?_, hupper, hinner⟩
  · intro q hq
    rw [hfl] at hq
    exact (h.free q (by rw [hfree]; exact List.mem_cons_of_mem _ hq)).of_kend hkend
  · intro x hx
    rcases (hlive x).mp hx with hx | rfl
    · obtain ⟨hf, hnot⟩ := h.live x hx
      rw [hpage x hx, hfl]
      refine ⟨hf.of_kend hkend, fun hm => hnot ?_⟩
      rw [hfree]
      exact List.mem_cons_of_mem _ hm
    · rw [hn, hfl]
      exact ⟨hpfree.of_kend hkend, hp⟩
  · intro x y hx hy hxy
    rcases (hlive x).mp hx with hx | rfl <;> rcases (hlive y).mp hy with hy | rfl
    · rw [hpage x hx, hpage y hy] at hxy
      exact h.inj x y hx hy hxy
    · rw [hpage x hx, hn] at hxy
      exact absurd hxy (hold x hx)
    · rw [hpage y hy, hn] at hxy
      exact absurd hxy.symm (hold y hy)
    · rfl

end Shape

theorem walk_false (s : Phys) (r : Nat) (hva : va < maxva) :
    walk s r va false = some (s, slot s.mem r va) := by
  have h2 := px_lt 2 va
  have h1 := px_lt 1 va
  rw [walk, if_neg (by omega), slot]
  by_cases hv2 : Valid (entry s.mem r (px 2 va))
  · rw [walkFrom_valid hv2]
    by_cases hv1 : Valid (entry s.mem (pte2pa (entry s.mem r (px 2 va))) (px 1 va))
    · rw [walkFrom_valid hv1, walkFrom_zero, if_pos ⟨h2, hv2, h1, hv1⟩]
      rfl
    · rw [walkFrom_invalid_false hv1, if_neg (fun h => hv1 h.2.2.2)]
  · rw [walkFrom_invalid_false hv2, if_neg (fun h => hv2 h.2.1)]

/-! ### Leaves -/

section Leaves

variable {m m' : Nat → UInt8} {r va : Nat}

theorem slot_congr (hlive : (Pos.low (px 2 va) (px 1 va)).Live m' r ↔ (Pos.low (px 2 va) (px 1 va)).Live m r)
    (hpage : (Pos.low (px 2 va) (px 1 va)).Live m r →
      (Pos.low (px 2 va) (px 1 va)).page m' r = (Pos.low (px 2 va) (px 1 va)).page m r) :
    slot m' r va = slot m r va := by
  unfold slot
  by_cases h : (Pos.low (px 2 va) (px 1 va)).Live m r
  · rw [if_pos (hlive.mpr h), if_pos h, hpage h]
  · rw [if_neg (mt hlive.mp h), if_neg h]

theorem leafAt_congr
    (hlive : (Pos.low (px 2 va) (px 1 va)).Live m' r ↔ (Pos.low (px 2 va) (px 1 va)).Live m r)
    (hpage : (Pos.low (px 2 va) (px 1 va)).Live m r →
      (Pos.low (px 2 va) (px 1 va)).page m' r = (Pos.low (px 2 va) (px 1 va)).page m r)
    (hagree : (Pos.low (px 2 va) (px 1 va)).Live m r →
      Agree m m' ((Pos.low (px 2 va) (px 1 va)).page m r) pgsize) :
    leafAt m' r va = leafAt m r va := by
  unfold leafAt
  rw [slot_congr hlive hpage]
  by_cases h : (Pos.low (px 2 va) (px 1 va)).Live m r
  · have hpte : pteAt m' (slot m r va) = pteAt m (slot m r va) := by
      rw [slot, if_pos h]
      exact entry_congr (hagree h) (px_lt 0 va)
    rw [hpte]
  · have h0 : slot m r va = 0 := if_neg h
    simp [h0]

theorem leafAt_of_not_live (h : ¬ (Pos.low (px 2 va) (px 1 va)).Live m r) : leafAt m r va = none := by
  have h0 : slot m r va = 0 := if_neg h
  simp [leafAt, h0]

end Leaves

/-! ### Growing a table -/

/-- `s'` holds the table of `s` with perhaps more pages linked in from the free
list: every live page stays where it was, the pages taken off the free list
are live, and memory outside the table's pages is untouched. -/
structure Extends (s s' : Phys) (r : Nat) : Prop where
  kend : s'.kend = s.kend
  keep : ∀ x : Pos, x.Live s.mem r → x.Live s'.mem r ∧ x.page s'.mem r = x.page s.mem r
  taken : ∃ taken, s.freelist = taken ++ s'.freelist ∧
    ∀ p ∈ taken, ∃ x : Pos, x.Live s'.mem r ∧ x.page s'.mem r = p
  outside : ∀ y, (∀ x : Pos, x.Live s'.mem r → y < x.page s'.mem r ∨ x.page s'.mem r + pgsize ≤ y) →
    s'.mem y = s.mem y
  fresh : ∀ x : Pos, x.Live s'.mem r → x.Live s.mem r ∨ x.page s'.mem r ∈ s.freelist

/-- An extension that changes no leaf. -/
structure Grows (s s' : Phys) (r : Nat) : Prop extends Extends s s' r where
  leaves : ∀ va, leafAt s'.mem r va = leafAt s.mem r va

theorem Extends.refl (s : Phys) (r : Nat) : Extends s s r :=
  ⟨rfl, fun _ hx => ⟨hx, rfl⟩, ⟨[], rfl, by simp⟩, fun _ _ => rfl, fun _ hx => .inl hx⟩

theorem Extends.trans {s s' s'' : Phys} {r : Nat} (h : Extends s s' r) (h' : Extends s' s'' r) :
    Extends s s'' r := by
  obtain ⟨t, ht, htl⟩ := h.taken
  obtain ⟨t', ht', htl'⟩ := h'.taken
  refine ⟨h'.kend.trans h.kend, fun x hx => ?_, ⟨t ++ t', by rw [ht, ht', List.append_assoc], ?_⟩,
    fun y hy => ?_, fun x hx => ?_⟩
  · obtain ⟨hx', hp'⟩ := h.keep x hx
    obtain ⟨hx'', hp''⟩ := h'.keep x hx'
    exact ⟨hx'', hp''.trans hp'⟩
  · intro p hp
    rcases List.mem_append.mp hp with hp | hp
    · obtain ⟨x, hx, rfl⟩ := htl p hp
      obtain ⟨hx', hp'⟩ := h'.keep x hx
      exact ⟨x, hx', hp'⟩
    · exact htl' p hp
  · have hy' : ∀ x : Pos, x.Live s'.mem r → y < x.page s'.mem r ∨ x.page s'.mem r + pgsize ≤ y := by
      intro x hx
      obtain ⟨hx', hp'⟩ := h'.keep x hx
      rw [← hp']
      exact hy x hx'
    rw [h'.outside y hy, h.outside y hy']
  · rcases h'.fresh x hx with hx' | hfree
    · rw [(h'.keep x hx').2]
      exact h.fresh x hx'
    · exact .inr (by rw [ht]; exact List.mem_append_right _ hfree)

theorem Grows.refl (s : Phys) (r : Nat) : Grows s s r := ⟨Extends.refl s r, fun _ => rfl⟩

theorem Grows.trans {s s' s'' : Phys} {r : Nat} (h : Grows s s' r) (h' : Grows s' s'' r) :
    Grows s s'' r :=
  ⟨h.toExtends.trans h'.toExtends, fun va => (h'.leaves va).trans (h.leaves va)⟩

theorem link_of_outside {m : Nat → UInt8} {parent i p y : Nat}
    (hyp : y < p ∨ p + pgsize ≤ y) (hypar : y < parent ∨ parent + pgsize ≤ y) (hi : i < 512) :
    link m parent i p y = m y := by
  have hstore : link m parent i p y = fill m p pgsize 0 y := by
    rcases hypar with h | h
    · exact store_of_lt (by omega)
    · exact store_of_ge (by simp only [pgsize] at h; omega)
  rw [hstore]
  rcases hyp with h | h
  · exact fill_of_lt h
  · exact fill_of_ge h

section Link

variable {s s' : Phys} {r p i j : Nat} {rest : List Nat}

/-- walk links a new level-1 page under root entry `i`. -/
theorem TableOk.linkRoot (h : TableOk s r) (hi : i < 256) (hv : ¬ Valid (entry s.mem r i))
    (hfree : s.freelist = p :: rest)
    (hm : s'.mem = link s.mem r i p) (hfl : s'.freelist = rest) (hk : s'.kend = s.kend) :
    TableOk s' r ∧ Grows s s' r ∧ (Pos.mid i).Live s'.mem r ∧ (Pos.mid i).page s'.mem r = p ∧
      ∀ j < 512, entry s'.mem p j = 0 := by
  obtain ⟨hrF, hrfree⟩ := h.root
  have hpF : Freeable s p := h.free p (by rw [hfree]; exact List.mem_cons_self)
  have hpr : p ≠ r := fun e => hrfree (by rw [← e, hfree]; exact List.mem_cons_self)
  have hi' : i < 512 := by omega
  have hroot : ∀ j < 512, j ≠ i → entry s'.mem r j = entry s.mem r j := fun j hj hji => by
    rw [hm]; exact link_entry_of_ne hpF.1 hrF.1 hpr hj hji
  have hrooti : entry s'.mem r i = pa2pte p ||| pteV := by rw [hm]; exact link_entry_self hpF.lt
  have hmidi : (Pos.mid i).page s'.mem r = p := by
    simp only [Pos.page]; rw [hrooti]; exact pte2pa_link hpF.1 hpF.lt
  have hnew : ∀ j < 512, entry s'.mem p j = 0 := fun j hj => by
    rw [hm]; exact link_entry_new hpF.1 hrF.1 hpr hi' hj
  have hagree : ∀ x : Pos, x.Live s.mem r → x ≠ .root →
      Agree s.mem s'.mem (x.page s.mem r) pgsize := by
    intro x hx hxr
    obtain ⟨hxF, hxfree⟩ := h.live x hx
    rw [hm]
    refine agree_link hpF.1 hrF.1 hxF.1 ?_ ?_ hi'
    · intro e
      exact hxfree (by rw [e, hfree]; exact List.mem_cons_self)
    · intro e
      exact hxr (h.inj x .root hx trivial e)
  have hlive : ∀ x : Pos, x.Live s'.mem r ↔ x.Live s.mem r ∨ x = .mid i := by
    intro x
    cases x with
    | root => simp [Pos.Live]
    | mid j =>
      by_cases hji : j = i
      · subst hji
        simp only [Pos.Live, hrooti, or_true, iff_true]
        exact ⟨hi', valid_link p⟩
      · simp only [Pos.Live, Pos.mid.injEq, hji, or_false]
        constructor
        · rintro ⟨hj, hvj⟩
          exact ⟨hj, hroot j hj hji ▸ hvj⟩
        · rintro ⟨hj, hvj⟩
          exact ⟨hj, (hroot j hj hji).symm ▸ hvj⟩
    | low j k =>
      simp only [Pos.Live, reduceCtorEq, or_false]
      by_cases hji : j = i
      · subst hji
        simp only [hrooti, pte2pa_link hpF.1 hpF.lt]
        constructor
        · rintro ⟨-, -, hk, hvk⟩
          exact absurd (hnew k hk ▸ hvk) not_valid_zero
        · rintro ⟨-, hvj, -⟩
          exact absurd hvj hv
      · constructor
        · rintro ⟨hj, hvj, hk, hvk⟩
          rw [hroot j hj hji] at hvj hvk
          have hmid : (Pos.mid j).Live s.mem r := ⟨hj, hvj⟩
          rw [show pte2pa (entry s.mem r j) = (Pos.mid j).page s.mem r from rfl,
            entry_congr (hagree _ hmid (by simp)) hk] at hvk
          exact ⟨hj, hvj, hk, hvk⟩
        · rintro ⟨hj, hvj, hk, hvk⟩
          have hmid : (Pos.mid j).Live s.mem r := ⟨hj, hvj⟩
          rw [hroot j hj hji]
          refine ⟨hj, hvj, hk, ?_⟩
          rw [show pte2pa (entry s.mem r j) = (Pos.mid j).page s.mem r from rfl,
            entry_congr (hagree _ hmid (by simp)) hk]
          exact hvk
  have hpage : ∀ x : Pos, x.Live s.mem r → x.page s'.mem r = x.page s.mem r := by
    intro x hx
    cases x with
    | root => rfl
    | mid j =>
      have hji : j ≠ i := fun e => hv (e ▸ hx.2)
      simp only [Pos.page]
      rw [hroot j hx.1 hji]
    | low j k =>
      obtain ⟨hj, hvj, hk, -⟩ := hx
      have hji : j ≠ i := fun e => hv (e ▸ hvj)
      have hmid : (Pos.mid j).Live s.mem r := ⟨hj, hvj⟩
      simp only [Pos.page]
      rw [hroot j hj hji, show pte2pa (entry s.mem r j) = (Pos.mid j).page s.mem r from rfl,
        entry_congr (hagree _ hmid (by simp)) hk]
  have hok : TableOk s' r := by
    refine h.extend hfree hfl hk hlive hpage hmidi ?_ ?_
    · intro j hj hj'
      rw [hroot j hj' (by omega)]
      exact h.upper j hj hj'
    · intro x hx hin j hj hvj
      rcases (hlive x).mp hx with hx | rfl
      · cases x with
        | root =>
          by_cases hji : j = i
          · subst hji
            simp only [Pos.page, hrooti]
            exact link_rwx p
          · simp only [Pos.page] at hvj ⊢
            rw [hroot j hj hji] at hvj ⊢
            exact h.inner .root trivial trivial j hj hvj
        | mid k =>
          rw [hpage _ hx, entry_congr (hagree _ hx (by simp)) hj] at hvj ⊢
          exact h.inner _ hx trivial j hj hvj
        | low => exact hin.elim
      · rw [hmidi, hnew j hj] at hvj
        exact absurd hvj not_valid_zero
  refine ⟨hok, ⟨⟨hk, fun x hx => ⟨(hlive x).mpr (Or.inl hx), hpage x hx⟩,
    ⟨[p], by rw [hfree, hfl]; rfl, fun q hq => ⟨.mid i, (hlive _).mpr (Or.inr rfl), ?_⟩⟩, ?_,
    fun x hx => ((hlive x).mp hx).imp id fun e => by rw [e, hmidi, hfree]; exact List.mem_cons_self⟩, ?_⟩,
    (hlive _).mpr (Or.inr rfl), hmidi, hnew⟩
  · rw [List.mem_singleton.mp hq, hmidi]
  · intro y hy
    rw [hm]
    refine link_of_outside ?_ ?_ hi'
    · have := hy (.mid i) ((hlive _).mpr (Or.inr rfl))
      rwa [hmidi] at this
    · exact hy .root trivial
  · intro va
    refine leafAt_congr ?_ (hpage _) (fun hx => hagree _ hx (by simp))
    rw [hlive]
    simp

/-- walk links a new level-0 page under entry `j` of the level-1 page of
root entry `i`. -/
theorem TableOk.linkMid (h : TableOk s r) (hmid : (Pos.mid i).Live s.mem r) (hj : j < 512)
    (hv : ¬ Valid (entry s.mem ((Pos.mid i).page s.mem r) j)) (hfree : s.freelist = p :: rest)
    (hm : s'.mem = link s.mem ((Pos.mid i).page s.mem r) j p) (hfl : s'.freelist = rest)
    (hk : s'.kend = s.kend) :
    TableOk s' r ∧ Grows s s' r ∧ (Pos.low i j).Live s'.mem r ∧ (Pos.low i j).page s'.mem r = p ∧
      ∀ l < 512, entry s'.mem p l = 0 := by
  set q := (Pos.mid i).page s.mem r with hq
  obtain ⟨hrF, hrfree⟩ := h.root
  obtain ⟨hqF, hqfree⟩ := h.live _ hmid
  have hpF : Freeable s p := h.free p (by rw [hfree]; exact List.mem_cons_self)
  have hnotfree : ∀ x : Pos, x.Live s.mem r → x.page s.mem r ≠ p := fun x hx e =>
    (h.live x hx).2 (by rw [e, hfree]; exact List.mem_cons_self)
  have hpq : p ≠ q := fun e => hnotfree _ hmid e.symm
  have hrq : r ≠ q := fun e => by cases h.inj .root (.mid i) trivial hmid e
  have hpr : p ≠ r := fun e => hnotfree .root trivial e.symm
  have hrootE : ∀ k < 512, entry s'.mem r k = entry s.mem r k := fun k hk => by
    rw [hm]; exact entry_congr (agree_link hpF.1 hqF.1 hrF.1 hpr.symm hrq hj) hk
  have hparent : ∀ l < 512, l ≠ j → entry s'.mem q l = entry s.mem q l := fun l hl hlj => by
    rw [hm]; exact link_entry_of_ne hpF.1 hqF.1 hpq hl hlj
  have hparentj : entry s'.mem q j = pa2pte p ||| pteV := by rw [hm]; exact link_entry_self hpF.lt
  have hnew : ∀ l < 512, entry s'.mem p l = 0 := fun l hl => by
    rw [hm]; exact link_entry_new hpF.1 hqF.1 hpq hj hl
  have hagree : ∀ x : Pos, x.Live s.mem r → x ≠ .root → x ≠ .mid i →
      Agree s.mem s'.mem (x.page s.mem r) pgsize := by
    intro x hx hxr hxi
    rw [hm]
    refine agree_link hpF.1 hqF.1 (h.live x hx).1.1 (hnotfree x hx) (fun e => hxi ?_) hj
    exact h.inj x _ hx hmid e
  have hmidE : ∀ k < 512, (Pos.mid k).page s'.mem r = (Pos.mid k).page s.mem r := fun k hk => by
    simp only [Pos.page]; rw [hrootE k hk]
  have hmidi : (Pos.mid i).page s'.mem r = q := hmidE i hmid.1
  have hmidEntry : ∀ k l, (Pos.mid k).Live s.mem r → l < 512 → (k, l) ≠ (i, j) →
      entry s'.mem ((Pos.mid k).page s.mem r) l = entry s.mem ((Pos.mid k).page s.mem r) l := by
    intro k l hk hl hkl
    by_cases hki : k = i
    · subst hki
      exact hparent l hl (fun e => hkl (by rw [e]))
    · exact entry_congr (hagree _ hk (by simp) (by simp [hki])) hl
  have hlowij : (Pos.low i j).page s'.mem r = p := by
    show pte2pa (entry s'.mem ((Pos.mid i).page s'.mem r) j) = p
    rw [hmidi, hparentj, pte2pa_link hpF.1 hpF.lt]
  have hlive : ∀ x : Pos, x.Live s'.mem r ↔ x.Live s.mem r ∨ x = .low i j := by
    intro x
    cases x with
    | root => simp [Pos.Live]
    | mid k =>
      simp only [Pos.Live, reduceCtorEq, or_false]
      constructor
      · rintro ⟨hk, hvk⟩
        exact ⟨hk, hrootE k hk ▸ hvk⟩
      · rintro ⟨hk, hvk⟩
        exact ⟨hk, (hrootE k hk).symm ▸ hvk⟩
    | low k l =>
      show (k < 512 ∧ Valid (entry s'.mem r k) ∧ l < 512 ∧
          Valid (entry s'.mem ((Pos.mid k).page s'.mem r) l)) ↔
        (k < 512 ∧ Valid (entry s.mem r k) ∧ l < 512 ∧
          Valid (entry s.mem ((Pos.mid k).page s.mem r) l)) ∨ Pos.low k l = .low i j
      constructor
      · rintro ⟨hk, hvk, hl, hvl⟩
        rw [hrootE k hk] at hvk
        rw [hmidE k hk] at hvl
        by_cases hkl : (k, l) = (i, j)
        · obtain ⟨rfl, rfl⟩ := Prod.mk.injEq _ _ _ _ ▸ hkl
          exact Or.inr rfl
        · rw [hmidEntry k l ⟨hk, hvk⟩ hl hkl] at hvl
          exact Or.inl ⟨hk, hvk, hl, hvl⟩
      · rintro (⟨hk, hvk, hl, hvl⟩ | e)
        · have hkl : (k, l) ≠ (i, j) := by
            rintro e
            obtain ⟨rfl, rfl⟩ := Prod.mk.injEq _ _ _ _ ▸ e
            exact hv hvl
          rw [hrootE k hk, hmidE k hk, hmidEntry k l ⟨hk, hvk⟩ hl hkl]
          exact ⟨hk, hvk, hl, hvl⟩
        · obtain ⟨rfl, rfl⟩ := Pos.low.injEq _ _ _ _ ▸ e
          rw [hrootE _ hmid.1, hmidi, hparentj]
          exact ⟨hmid.1, hmid.2, hj, valid_link p⟩
  have hpage : ∀ x : Pos, x.Live s.mem r → x.page s'.mem r = x.page s.mem r := by
    intro x hx
    cases x with
    | root => rfl
    | mid k => exact hmidE k hx.1
    | low k l =>
      obtain ⟨hk, hvk, hl, hvl⟩ := hx
      have hkl : (k, l) ≠ (i, j) := by
        rintro e
        obtain ⟨rfl, rfl⟩ := Prod.mk.injEq _ _ _ _ ▸ e
        exact hv hvl
      show pte2pa (entry s'.mem ((Pos.mid k).page s'.mem r) l) =
        pte2pa (entry s.mem ((Pos.mid k).page s.mem r) l)
      rw [hmidE k hk, hmidEntry k l ⟨hk, hvk⟩ hl hkl]
  have hok : TableOk s' r := by
    refine h.extend hfree hfl hk hlive hpage hlowij ?_ ?_
    · intro k hk hk'
      rw [hrootE k hk']
      exact h.upper k hk hk'
    · intro x hx hin l hl hvl
      rcases (hlive x).mp hx with hx | rfl
      · cases x with
        | root =>
          simp only [Pos.page] at hvl ⊢
          rw [hrootE l hl] at hvl ⊢
          exact h.inner .root trivial trivial l hl hvl
        | mid k =>
          rw [hpage _ hx] at hvl ⊢
          by_cases hkl : (k, l) = (i, j)
          · obtain ⟨hki, hlj⟩ := Prod.mk.injEq _ _ _ _ ▸ hkl
            rw [hki, hlj, ← hq, hparentj]
            exact link_rwx p
          · rw [hmidEntry k l hx hl hkl] at hvl ⊢
            exact h.inner _ hx trivial l hl hvl
        | low => exact hin.elim
      · exact hin.elim
  refine ⟨hok, ⟨⟨hk, fun x hx => ⟨(hlive x).mpr (Or.inl hx), hpage x hx⟩,
    ⟨[p], by rw [hfree, hfl]; rfl, fun q' hq' => ⟨.low i j, (hlive _).mpr (Or.inr rfl), ?_⟩⟩, ?_,
    fun x hx => ((hlive x).mp hx).imp id fun e => by rw [e, hlowij, hfree]; exact List.mem_cons_self⟩, ?_⟩,
    (hlive _).mpr (Or.inr rfl), hlowij, hnew⟩
  · rw [List.mem_singleton.mp hq', hlowij]
  · intro y hy
    rw [hm]
    refine link_of_outside ?_ ?_ hj
    · have := hy (.low i j) ((hlive _).mpr (Or.inr rfl))
      rwa [hlowij] at this
    · have := hy (.mid i) ((hlive _).mpr (Or.inl hmid))
      rwa [hmidi] at this
  · intro va
    by_cases hva : (px 2 va, px 1 va) = (i, j)
    · obtain ⟨h2, h1⟩ := Prod.mk.injEq _ _ _ _ ▸ hva
      have hold : ¬ (Pos.low (px 2 va) (px 1 va)).Live s.mem r := by
        rw [h2, h1]; exact fun hx => hv hx.2.2.2
      rw [leafAt_of_not_live hold]
      have hslot : slot s'.mem r va = p + 8 * px 0 va := by
        rw [slot, h2, h1, if_pos ((hlive _).mpr (Or.inr rfl)), hlowij]
      simp [leafAt, hslot, show pteAt s'.mem (p + 8 * px 0 va) = 0 from hnew _ (px_lt 0 va),
        not_valid_zero]
    · have hne : Pos.low (px 2 va) (px 1 va) ≠ .low i j := fun e => hva (by
        obtain ⟨h2, h1⟩ := Pos.low.injEq _ _ _ _ ▸ e
        rw [h2, h1])
      refine leafAt_congr ?_ (hpage _) (fun hx => hagree _ hx (by simp) (by simp))
      rw [hlive]
      simp [hne]

end Link

/-! ### walk with allocation -/

section WalkAlloc

variable {s : Phys} {r va : Nat}

theorem TableOk.ne_zero_of_free (h : TableOk s r) {p : Nat} (hp : p ∈ s.freelist) : p ≠ 0 := by
  have := (h.free p hp).2.1
  have := h.kend_pos
  omega

theorem slot_of_live {m : Nat → UInt8}
    (hx : (Pos.low (px 2 va) (px 1 va)).Live m r) :
    slot m r va = (Pos.low (px 2 va) (px 1 va)).page m r + 8 * px 0 va := if_pos hx

theorem TableOk.walk_level1 (h : TableOk s r) (hmid : (Pos.mid (px 2 va)).Live s.mem r) :
    ∃ s' a, walkFrom va true 1 s ((Pos.mid (px 2 va)).page s.mem r) = (s', a) ∧ TableOk s' r ∧
      Grows s s' r ∧
      (a = 0 ∧ s'.freelist = [] ∨ (Pos.low (px 2 va) (px 1 va)).Live s'.mem r ∧ a = slot s'.mem r va) := by
  have h1 := px_lt 1 va
  by_cases hv : Valid (entry s.mem ((Pos.mid (px 2 va)).page s.mem r) (px 1 va))
  · have hlow : (Pos.low (px 2 va) (px 1 va)).Live s.mem r := ⟨hmid.1, hmid.2, h1, hv⟩
    refine ⟨s, _, by rw [walkFrom_valid hv, walkFrom_zero]; rfl, h, Grows.refl s r,
      Or.inr ⟨hlow, (slot_of_live hlow).symm⟩⟩
  · rw [walkFrom_invalid_true hv]
    rcases hfree : s.freelist with _ | ⟨p, rest⟩
    · refine ⟨s, 0, by rw [kalloc_of_nil hfree]; rfl, h, Grows.refl s r, Or.inl ⟨rfl, hfree⟩⟩
    · have hp0 : p ≠ 0 := h.ne_zero_of_free (by rw [hfree]; exact List.mem_cons_self)
      set q := (Pos.mid (px 2 va)).page s.mem r
      obtain ⟨hok, hgrow, hlive, hpage, -⟩ := h.linkMid hmid h1 hv hfree
        (show ({ s with mem := link s.mem q (px 1 va) p, freelist := rest } : Phys).mem =
          link s.mem q (px 1 va) p from rfl) rfl rfl
      refine ⟨_, p + 8 * px 0 va, ?_, hok, hgrow, Or.inr ⟨hlive, ?_⟩⟩
      · rw [kalloc_of_cons hfree, if_neg hp0, walkFrom_zero]
        simp only [fill_fill_self]
        rfl
      · rw [slot_of_live hlive, hpage]

theorem TableOk.walk_true (h : TableOk s r) (hva : va < maxva) :
    ∃ s' a, walk s r va true = some (s', a) ∧ TableOk s' r ∧ Grows s s' r ∧
      (a = 0 ∧ s'.freelist = [] ∨ (Pos.low (px 2 va) (px 1 va)).Live s'.mem r ∧ a = slot s'.mem r va) := by
  have h2 := px_two_lt hva
  rw [walk, if_neg (by omega)]
  by_cases hv : Valid (entry s.mem r (px 2 va))
  · obtain ⟨s', a, hw, hok, hgrow, ha⟩ :=
      h.walk_level1 (⟨by omega, hv⟩ : (Pos.mid (px 2 va)).Live s.mem r)
    exact ⟨s', a, by rw [walkFrom_valid hv]; exact congrArg some hw, hok, hgrow, ha⟩
  · rw [walkFrom_invalid_true hv]
    rcases hfree : s.freelist with _ | ⟨p, rest⟩
    · exact ⟨s, 0, by rw [kalloc_of_nil hfree]; rfl, h, Grows.refl s r, Or.inl ⟨rfl, hfree⟩⟩
    · have hp0 : p ≠ 0 := h.ne_zero_of_free (by rw [hfree]; exact List.mem_cons_self)
      obtain ⟨hok, hgrow, hlive, hpage, -⟩ := h.linkRoot h2 hv hfree
        (show ({ s with mem := link s.mem r (px 2 va) p, freelist := rest } : Phys).mem =
          link s.mem r (px 2 va) p from rfl) rfl rfl
      obtain ⟨s', a, hw, hok', hgrow', ha⟩ := hok.walk_level1 hlive
      refine ⟨s', a, ?_, hok', hgrow.trans hgrow', ha⟩
      rw [kalloc_of_cons hfree, if_neg hp0, ← hw, hpage]
      simp only [fill_fill_self]
      rfl

end WalkAlloc

/-! ### Memory changes away from the inner pages -/

/-- `m'` has the table pages of `m` at the same places. -/
def SameShape (m m' : Nat → UInt8) (r : Nat) : Prop :=
  ∀ x : Pos, (x.Live m' r ↔ x.Live m r) ∧ (x.Live m r → x.page m' r = x.page m r)

theorem SameShape.refl (m : Nat → UInt8) (r : Nat) : SameShape m m r := fun _ => ⟨Iff.rfl, fun _ => rfl⟩

theorem SameShape.trans {m m' m'' : Nat → UInt8} {r : Nat} (h : SameShape m m' r)
    (h' : SameShape m' m'' r) : SameShape m m'' r := fun x =>
  ⟨(h' x).1.trans (h x).1, fun hx => ((h' x).2 ((h x).1.mpr hx)).trans ((h x).2 hx)⟩

section Frame

variable {s s' : Phys} {m m' : Nat → UInt8} {r va : Nat}

/-- Where a page sits and whether walk reaches it is read off the root and the
level-1 pages only. -/
theorem live_page_congr (hagree : ∀ x : Pos, x.Live m r → x.Inner → Agree m m' (x.page m r) pgsize) :
    SameShape m m' r := by
  intro x
  have hroot : ∀ i < 512, entry m' r i = entry m r i := fun i hi =>
    entry_congr (hagree .root trivial trivial) hi
  cases x with
  | root => exact ⟨Iff.rfl, fun _ => rfl⟩
  | mid i =>
    refine ⟨⟨fun ⟨hi, hv⟩ => ⟨hi, hroot i hi ▸ hv⟩, fun ⟨hi, hv⟩ => ⟨hi, (hroot i hi).symm ▸ hv⟩⟩, ?_⟩
    rintro ⟨hi, -⟩
    show pte2pa (entry m' r i) = pte2pa (entry m r i)
    rw [hroot i hi]
  | low i j =>
    have hmid : ∀ (hi : i < 512) (hv : Valid (entry m r i)), j < 512 →
        entry m' (pte2pa (entry m' r i)) j = entry m (pte2pa (entry m r i)) j := by
      intro hi hv hj
      rw [hroot i hi]
      exact entry_congr (hagree (.mid i) ⟨hi, hv⟩ trivial) hj
    refine ⟨⟨fun ⟨hi, hv, hj, hw⟩ => ?_, fun ⟨hi, hv, hj, hw⟩ => ?_⟩, ?_⟩
    · rw [hroot i hi] at hv
      exact ⟨hi, hv, hj, hmid hi hv hj ▸ hw⟩
    · exact ⟨hi, (hroot i hi).symm ▸ hv, hj, (hmid hi hv hj).symm ▸ hw⟩
    · rintro ⟨hi, hv, hj, -⟩
      show pte2pa (entry m' (pte2pa (entry m' r i)) j) = pte2pa (entry m (pte2pa (entry m r i)) j)
      rw [hmid hi hv hj]

/-- A table keeps its shape under any change of memory away from the root and
the level-1 pages, and of the free list by pages that are not table pages. -/
theorem TableOk.of_agree (h : TableOk s r) (hk : s'.kend = s.kend) (hnd : s'.freelist.Nodup)
    (hfree : ∀ p ∈ s'.freelist, p ∈ s.freelist ∨ Freeable s p ∧ ∀ x : Pos, x.Live s.mem r → x.page s.mem r ≠ p)
    (hagree : ∀ x : Pos, x.Live s.mem r → x.Inner → Agree s.mem s'.mem (x.page s.mem r) pgsize) :
    TableOk s' r := by
  have hsame := live_page_congr hagree
  refine ⟨hk ▸ h.kend_pos, hnd, fun p hp => ?_, fun x hx => ?_, fun x y hx hy hxy => ?_, fun i hi hi' => ?_,
    fun x hx hin i hi hv => ?_⟩
  · rcases hfree p hp with hp | ⟨hpF, -⟩
    · exact (h.free p hp).of_kend hk
    · exact hpF.of_kend hk
  · have hx' := (hsame x).1.mp hx
    rw [(hsame x).2 hx']
    refine ⟨(h.live x hx').1.of_kend hk, fun hp => ?_⟩
    rcases hfree _ hp with hp | ⟨-, hne⟩
    · exact (h.live x hx').2 hp
    · exact hne x hx' rfl
  · have hx' := (hsame x).1.mp hx
    have hy' := (hsame y).1.mp hy
    rw [(hsame x).2 hx', (hsame y).2 hy'] at hxy
    exact h.inj x y hx' hy' hxy
  · have hroot : entry s'.mem r i = entry s.mem r i := entry_congr (hagree .root trivial trivial) hi'
    rw [hroot]
    exact h.upper i hi hi'
  · have hx' := (hsame x).1.mp hx
    rw [(hsame x).2 hx', entry_congr (hagree x hx' hin) hi] at hv ⊢
    exact h.inner x hx' hin i hi hv

theorem TableOk.agree_inner_of_low (h : TableOk s r) {i j : Nat} (hlow : (Pos.low i j).Live s.mem r)
    {k v : Nat} (hk : k < 512)
    (hstore : m' = setPte s.mem ((Pos.low i j).page s.mem r + 8 * k) v) :
    ∀ x : Pos, x.Live s.mem r → x.Inner → Agree s.mem m' (x.page s.mem r) pgsize := by
  intro x hx hin
  rw [hstore]
  refine agree_setPte_page (h.live _ hlow).1.1 (h.live x hx).1.1 (fun e => ?_) hk
  cases h.inj _ x hlow hx e
  exact hin

theorem TableOk.slot_ne_zero (h : TableOk s r) (hlive : (Pos.low (px 2 va) (px 1 va)).Live s.mem r) :
    slot s.mem r va ≠ 0 := by
  rw [slot_of_live hlive]
  have := (h.live _ hlive).1.2.1
  have := h.kend_pos
  omega

/-- The three indices of a virtual address, the level-0 one last. -/
def indices (va : Nat) : Nat × Nat × Nat := (px 2 va, px 1 va, px 0 va)

/-- Writing `v` into the leaf entry of `va`, in place: the shape is kept and
only the leaves with the indices of `va` change. -/
theorem TableOk.setSlot (h : TableOk s r) (hlive : (Pos.low (px 2 va) (px 1 va)).Live s.mem r)
    {v : Nat} (hm : s'.mem = setPte s.mem (slot s.mem r va) v)
    (hfl : s'.freelist = s.freelist) (hk : s'.kend = s.kend) :
    TableOk s' r ∧ Extends s s' r ∧ SameShape s.mem s'.mem r ∧
      ∀ va', leafAt s'.mem r va' =
        if indices va' = indices va then (if Valid (v % 2 ^ 64) then some (v % 2 ^ 64) else none)
        else leafAt s.mem r va' := by
  have hm' : s'.mem = setPte s.mem ((Pos.low (px 2 va) (px 1 va)).page s.mem r + 8 * px 0 va) v := by
    rw [hm, slot_of_live hlive]
  have hinner := h.agree_inner_of_low hlive (px_lt 0 va) hm'
  have hsame := live_page_congr hinner
  have hok : TableOk s' r := h.of_agree hk (hfl ▸ h.nodup) (fun p hp => Or.inl (hfl ▸ hp)) hinner
  set L := (Pos.low (px 2 va) (px 1 va)).page s.mem r with hL
  have hLF := (h.live _ hlive).1
  refine ⟨hok, ⟨hk, fun x hx => ⟨(hsame x).1.mpr hx, (hsame x).2 hx⟩, ⟨[], by rw [hfl]; rfl, by simp⟩,
    fun y hy => ?_, fun x hx => .inl ((hsame x).1.mp hx)⟩, hsame, fun va' => ?_⟩
  · have hyL := hy _ ((hsame _).1.mpr hlive)
    rw [(hsame _).2 hlive] at hyL
    rw [hm']
    rcases hyL with hyL | hyL
    · exact store_of_lt (by omega)
    · exact store_of_ge (by simp only [pgsize] at hyL; have := px_lt 0 va; omega)
  · by_cases hsame' : (px 2 va', px 1 va') = (px 2 va, px 1 va)
    · obtain ⟨h2, h1⟩ := Prod.mk.injEq _ _ _ _ ▸ hsame'
      have hlive' : (Pos.low (px 2 va') (px 1 va')).Live s'.mem r := by
        rw [h2, h1]; exact (hsame _).1.mpr hlive
      have hslot : slot s'.mem r va' = L + 8 * px 0 va' := by
        rw [slot_of_live hlive', h2, h1, (hsame _).2 hlive]
      have hne : slot s'.mem r va' ≠ 0 := hok.slot_ne_zero hlive'
      unfold leafAt
      rw [hslot] at hne ⊢
      by_cases h0 : px 0 va' = px 0 va
      · have hidx : indices va' = indices va := by simp [indices, h2, h1, h0]
        have hpte : pteAt s'.mem (L + 8 * px 0 va') = v % 2 ^ 64 := by
          rw [hm', h0]
          exact entry_setPte_mod
        simp only [hidx, if_true, hpte, ne_eq, hne, not_false_eq_true, true_and]
      · have hidx : indices va' ≠ indices va := by simp [indices, h0]
        have hpte : pteAt s'.mem (L + 8 * px 0 va') = pteAt s.mem (L + 8 * px 0 va') := by
          rw [hm']; exact entry_setPte_of_ne h0
        have hold : slot s.mem r va' = L + 8 * px 0 va' := by
          rw [slot_of_live (by rw [h2, h1]; exact hlive), h2, h1]
        rw [if_neg hidx, hpte, hold]
    · have hidx : indices va' ≠ indices va := fun e => hsame' (by
        simp only [indices, Prod.mk.injEq] at e
        rw [e.1, e.2.1])
      rw [if_neg hidx]
      refine leafAt_congr ((hsame _).1) ((hsame _).2) (fun hx => ?_)
      rw [hm']
      refine agree_setPte_page hLF.1 (h.live _ hx).1.1 (fun e => hsame' ?_) (px_lt 0 va)
      obtain ⟨h2, h1⟩ := Pos.low.injEq _ _ _ _ ▸ h.inj _ _ hlive hx e
      rw [h2, h1]

end Frame

/-! ### The map M -/

section Translate

variable {s s' : Phys} {r vpn va va' : Nat}

theorem translate_of_ge (h : maxva ≤ vpn * pgsize) : translate s r vpn = none := by
  simp only [translate, walk, if_pos h]

theorem translate_eq (h : vpn * pgsize < maxva) :
    translate s r vpn = (leafAt s.mem r (vpn * pgsize)).map fun pte => (pte2pa pte, pteFlags pte) := by
  rw [translate, walk_false s r h, leafAt]
  dsimp only
  split_ifs <;> rfl

theorem translate_congr_leaves (h : ∀ va, leafAt s'.mem r va = leafAt s.mem r va) :
    translate s' r = translate s r := by
  funext vpn
  by_cases hv : vpn * pgsize < maxva
  · rw [translate_eq hv, translate_eq hv, h]
  · rw [translate_of_ge (not_lt.mp hv), translate_of_ge (not_lt.mp hv)]

theorem indices_eq_iff (hva : va < maxva) (hva' : va' < maxva) :
    indices va' = indices va ↔ va' / pgsize = va / pgsize := by
  simp only [indices, Prod.mk.injEq, px_eq, pgsize, maxva_eq] at *
  omega

theorem leafAt_eq_none_iff {m : Nat → UInt8} :
    leafAt m r va = none ↔ ¬ (slot m r va ≠ 0 ∧ Valid (pteAt m (slot m r va))) := by
  unfold leafAt
  split_ifs with h <;> simp [h]

/-- What M holds for a leaf entry `v`. -/
def decode (v : Nat) : Option (Nat × Nat) := if Valid v then some (pte2pa v, pteFlags v) else none

theorem TableOk.setSlot_translate (h : TableOk s r) (hva : vpn * pgsize < maxva)
    (hlive : (Pos.low (px 2 (vpn * pgsize)) (px 1 (vpn * pgsize))).Live s.mem r)
    {v : Nat} (hm : s'.mem = setPte s.mem (slot s.mem r (vpn * pgsize)) v)
    (hfl : s'.freelist = s.freelist) (hk : s'.kend = s.kend) :
    TableOk s' r ∧ Extends s s' r ∧ SameShape s.mem s'.mem r ∧
      ∀ vpn', translate s' r vpn' = if vpn' = vpn then decode (v % 2 ^ 64) else translate s r vpn' := by
  obtain ⟨hok, hext, hshape, hleaf⟩ := h.setSlot hlive hm hfl hk
  refine ⟨hok, hext, hshape, fun vpn' => ?_⟩
  by_cases hv' : vpn' * pgsize < maxva
  · have hidx : indices (vpn' * pgsize) = indices (vpn * pgsize) ↔ vpn' = vpn := by
      rw [indices_eq_iff hva hv']
      simp [pgsize]
    rw [translate_eq hv', translate_eq hv', hleaf]
    by_cases he : vpn' = vpn
    · rw [if_pos (hidx.mpr he), if_pos he, decode]
      split_ifs <;> rfl
    · rw [if_neg (mt hidx.mp he), if_neg he]
  · have hne : vpn' ≠ vpn := fun e => hv' (e ▸ hva)
    rw [translate_of_ge (not_lt.mp hv'), translate_of_ge (not_lt.mp hv'), if_neg hne]

theorem Grows.translate (h : Grows s s' r) : translate s' r = translate s r :=
  translate_congr_leaves h.leaves

end Translate

/-! ### mappages -/

section Mappages

variable {r perm : Nat}

/-- The entry mappages writes for its `k`-th page, `PA2PTE(pa) | perm | PTE_V`
with `pa` moved up `k` pages as a uint64, as the eight bytes stored. -/
def mapEntry (pa perm k : Nat) : Nat := (pa2pte ((pa + k * pgsize) % 2 ^ 64) ||| perm ||| pteV) % 2 ^ 64

theorem mapEntry_succ (pa perm k : Nat) :
    mapEntry ((pa + pgsize) % 2 ^ 64) perm k = mapEntry pa perm (k + 1) := by
  have h : ((pa + pgsize) % 2 ^ 64 + k * pgsize) % 2 ^ 64 = (pa + (k + 1) * pgsize) % 2 ^ 64 := by
    rw [Nat.mod_add_mod, Nat.add_mul, Nat.one_mul, Nat.add_assoc, Nat.add_comm pgsize]
  rw [mapEntry, mapEntry, h]

/-- One pass of mappages's loop: walk, then the remap check, then the store;
after it the loop returns or goes on one page up. -/
theorem mappagesFrom_cases {s s' : Phys} {left vpn pa : Nat} {res : Int} (h : TableOk s r)
    (hres : mappagesFrom r perm left s (vpn * pgsize) pa = some (s', res)) :
    vpn * pgsize < maxva ∧ ∃ s1, TableOk s1 r ∧ Extends s s1 r ∧
      (res = -1 ∧ s' = s1 ∧ s1.freelist = [] ∧ translate s1 r = translate s r ∨
        translate s r vpn = none ∧ (∀ v, translate s1 r v =
          if v = vpn then decode ((pa2pte pa ||| perm ||| pteV) % 2 ^ 64) else translate s r v) ∧
        (left = 0 ∧ res = 0 ∧ s' = s1 ∨
          ∃ l, left = l + 1 ∧
            mappagesFrom r perm l s1 ((vpn + 1) * pgsize) ((pa + pgsize) % 2 ^ 64) = some (s', res))) := by
  have hva : vpn * pgsize < maxva := by
    by_contra hge
    rw [mappagesFrom, walk, if_pos (not_lt.mp hge)] at hres
    simp at hres
  obtain ⟨s1, a1, hw, hok1, hgrow1, ha1⟩ := h.walk_true hva
  rw [mappagesFrom, hw] at hres
  dsimp only at hres
  refine ⟨hva, ?_⟩
  rcases ha1 with ⟨rfl, hfl⟩ | ⟨hlive, rfl⟩
  · rw [if_pos rfl] at hres
    simp only [Option.some.injEq, Prod.mk.injEq] at hres
    obtain ⟨rfl, rfl⟩ := hres
    exact ⟨s1, hok1, hgrow1.toExtends, Or.inl ⟨rfl, rfl, hfl, hgrow1.translate⟩⟩
  · rw [if_neg (hok1.slot_ne_zero hlive)] at hres
    by_cases hvalid : pteAt s1.mem (slot s1.mem r (vpn * pgsize)) &&& pteV ≠ 0
    · rw [if_pos hvalid] at hres
      cases hres
    · rw [if_neg hvalid] at hres
      have hfresh : translate s r vpn = none := by
        rw [← hgrow1.translate, translate_eq hva, Option.map_eq_none_iff, leafAt_eq_none_iff]
        exact fun hl => hvalid hl.2
      obtain ⟨hok2, hext2, -, htr2⟩ := hok1.setSlot_translate hva hlive
        (show ({ s1 with mem := setPte s1.mem (slot s1.mem r (vpn * pgsize)) (pa2pte pa ||| perm ||| pteV) } :
          Phys).mem = setPte s1.mem (slot s1.mem r (vpn * pgsize)) (pa2pte pa ||| perm ||| pteV) from rfl)
        rfl rfl
      refine ⟨_, hok2, hgrow1.toExtends.trans hext2, Or.inr ⟨hfresh, fun v => ?_, ?_⟩⟩
      · rw [htr2, hgrow1.translate]
      · cases left with
        | zero =>
          simp only [Option.some.injEq, Prod.mk.injEq] at hres
          obtain ⟨rfl, rfl⟩ := hres
          exact Or.inl ⟨rfl, rfl, rfl⟩
        | succ l =>
          refine Or.inr ⟨l, rfl, ?_⟩
          rw [Nat.succ_mul]
          exact hres

/-- mappages's loop: it maps a prefix of its pages, none of them mapped
before, all of them when it returns 0, and returns -1 only when the free list
has run out. -/
theorem mappagesFrom_spec (left : Nat) :
    ∀ {s s' : Phys} {vpn pa : Nat} {res : Int}, TableOk s r → pa < 2 ^ 64 →
      mappagesFrom r perm left s (vpn * pgsize) pa = some (s', res) →
      TableOk s' r ∧ Extends s s' r ∧ ∃ n ≤ left + 1,
        (res = 0 ∧ n = left + 1 ∨ res = -1 ∧ s'.freelist = []) ∧
        (∀ v, vpn ≤ v → v < vpn + n → translate s r v = none) ∧
        ∀ v, translate s' r v =
          if vpn ≤ v ∧ v < vpn + n then decode (mapEntry pa perm (v - vpn)) else translate s r v := by
  induction left with
  | zero =>
    intro s s' vpn pa res h hpa hres
    obtain ⟨-, s1, hok1, hext1, hcase⟩ := mappagesFrom_cases h hres
    rcases hcase with ⟨rfl, rfl, hfl, htr⟩ | ⟨hfresh, htr, ⟨-, rfl, rfl⟩ | ⟨l, hl, -⟩⟩
    · refine ⟨hok1, hext1, 0, by omega, Or.inr ⟨rfl, hfl⟩, fun v _ hv => absurd hv (by omega), fun v => ?_⟩
      rw [htr, if_neg (by omega)]
    · refine ⟨hok1, hext1, 1, le_rfl, Or.inl ⟨rfl, rfl⟩, fun v hv hv' => ?_, fun v => ?_⟩
      · obtain rfl : v = vpn := by omega
        exact hfresh
      rw [htr]
      by_cases hv : v = vpn
      · subst hv
        rw [if_pos rfl, if_pos ⟨le_rfl, by omega⟩, Nat.sub_self, mapEntry, Nat.zero_mul, Nat.add_zero,
          Nat.mod_eq_of_lt hpa]
      · rw [if_neg hv, if_neg (by omega)]
    · exact absurd hl (by omega)
  | succ left ih =>
    intro s s' vpn pa res h hpa hres
    obtain ⟨-, s1, hok1, hext1, hcase⟩ := mappagesFrom_cases h hres
    rcases hcase with ⟨rfl, rfl, hfl, htr⟩ | ⟨hfresh, htr, ⟨hl, -⟩ | ⟨l, hl, hrest⟩⟩
    · refine ⟨hok1, hext1, 0, by omega, Or.inr ⟨rfl, hfl⟩, fun v _ hv => absurd hv (by omega), fun v => ?_⟩
      rw [htr, if_neg (by omega)]
    · exact absurd hl (by omega)
    · obtain rfl : l = left := by omega
      obtain ⟨hok, hext, n, hn, hres', hfresh', htr'⟩ := ih hok1 (Nat.mod_lt _ (by decide)) hrest
      refine ⟨hok, hext1.trans hext, n + 1, by omega, ?_, fun v hv hv' => ?_, fun v => ?_⟩
      · rcases hres' with ⟨rfl, rfl⟩ | hfail
        · exact Or.inl ⟨rfl, rfl⟩
        · exact Or.inr hfail
      · -- the first page was fresh in `s`, the others in `s1`, where only the first changed
        by_cases hv0 : v = vpn
        · rw [hv0]
          exact hfresh
        · have h1 := hfresh' v (by omega) (by omega)
          rwa [htr, if_neg hv0] at h1
      · rw [htr', htr]
        by_cases hv : v = vpn
        · subst hv
          rw [if_neg (by omega), if_pos rfl, if_pos ⟨le_rfl, by omega⟩, Nat.sub_self, mapEntry,
            Nat.zero_mul, Nat.add_zero, Nat.mod_eq_of_lt hpa]
        · by_cases hin : vpn + 1 ≤ v ∧ v < vpn + 1 + n
          · rw [if_pos hin, if_pos ⟨by omega, by omega⟩, mapEntry_succ]
            congr 2
            omega
          · rw [if_neg hin, if_neg hv, if_neg (by omega)]

theorem decode_mapEntry {pa perm k : Nat} (hpa : pa % pgsize = 0) (hperm : perm < 2 ^ 10)
    (hk : pa + (k + 1) * pgsize ≤ 2 ^ 64) :
    decode (mapEntry pa perm k) = some (pa + k * pgsize, perm ||| pteV) := by
  have hlt : pa + k * pgsize < 2 ^ 64 := by simp only [pgsize] at *; omega
  have hal : (pa + k * pgsize) % pgsize = 0 := by simp only [pgsize] at *; omega
  have hf := or_flags_lt hperm
  have hassoc : pa2pte (pa + k * pgsize) ||| perm ||| pteV = pa2pte (pa + k * pgsize) ||| (perm ||| pteV) :=
    Nat.lor_assoc _ _ _
  have hv : Valid (pa2pte (pa + k * pgsize) ||| perm ||| pteV) := or_pteV_valid _
  rw [mapEntry, Nat.mod_eq_of_lt hlt, hassoc, Nat.mod_eq_of_lt (pa2pte_lt hlt hf), decode]
  rw [hassoc] at hv
  rw [if_pos hv, pte2pa_pa2pte_or hal hlt hf, pteFlags_pa2pte_or _ hf]

end Mappages

/-! ### Freeing pages outside the table -/

section Free

variable {s : Phys} {r pa : Nat}

theorem same_of_agree {m m' : Nat → UInt8}
    (hagree : ∀ x : Pos, x.Live m r → Agree m m' (x.page m r) pgsize) :
    SameShape m m' r ∧ ∀ va, leafAt m' r va = leafAt m r va := by
  have hsame := live_page_congr (fun x hx _ => hagree x hx)
  exact ⟨hsame, fun va => leafAt_congr (hsame _).1 (hsame _).2 (hagree _)⟩

theorem agree_of_not_table (h : TableOk s r) (hpa : pa % pgsize = 0)
    (hnot : ∀ x : Pos, x.Live s.mem r → x.page s.mem r ≠ pa) {c : UInt8} :
    ∀ x : Pos, x.Live s.mem r → Agree s.mem (fill s.mem pa pgsize c) (x.page s.mem r) pgsize :=
  fun x hx => agree_fill_page hpa (h.live x hx).1.1 (fun e => hnot x hx e.symm)

theorem TableOk.kfree_data (h : TableOk s r) (hF : Freeable s pa) (hfree : pa ∉ s.freelist)
    (hnot : ∀ x : Pos, x.Live s.mem r → x.page s.mem r ≠ pa) :
    ∃ s', kfree s pa = some s' ∧ TableOk s' r ∧ s'.freelist = pa :: s.freelist ∧ s'.kend = s.kend ∧
      s'.mem = fill s.mem pa pgsize 1 ∧ SameShape s.mem s'.mem r ∧ translate s' r = translate s r := by
  have hk : kfree s pa = some { s with mem := fill s.mem pa pgsize 1, freelist := pa :: s.freelist } := by
    rw [kfree, if_neg]
    obtain ⟨h1, h2, h3⟩ := hF
    omega
  have hagree := agree_of_not_table h hF.1 hnot (c := 1)
  obtain ⟨hsame, hleaf⟩ := same_of_agree hagree
  refine ⟨_, hk, h.of_agree rfl (List.nodup_cons.mpr ⟨hfree, h.nodup⟩) ?_ (fun x hx _ => hagree x hx),
    rfl, rfl, rfl, ?_, ?_⟩
  · intro p hp
    rcases List.mem_cons.mp hp with rfl | hp
    · exact Or.inr ⟨hF, hnot⟩
    · exact Or.inl hp
  · exact hsame
  · exact translate_congr_leaves hleaf

end Free

/-! ### uvmunmap -/

section Uvmunmap

variable {r bound : Nat} {doFree : Bool}

theorem uvmunmapFrom_stop {s : Phys} {a : Nat} (h : ¬ a < bound) :
    uvmunmapFrom r bound doFree s a = some s := by
  rw [uvmunmapFrom, dif_neg h]

theorem uvmunmapFrom_step {s : Phys} {a : Nat} (h : a < bound) (hva : a < maxva) :
    uvmunmapFrom r bound doFree s a =
      if slot s.mem r a = 0 then uvmunmapFrom r bound doFree s (a + pgsize)
      else if pteAt s.mem (slot s.mem r a) &&& pteV = 0 then uvmunmapFrom r bound doFree s (a + pgsize)
      else
        match (if doFree then kfree s (pte2pa (pteAt s.mem (slot s.mem r a))) else some s) with
        | none => none
        | some s' => uvmunmapFrom r bound doFree
            { s' with mem := setPte s'.mem (slot s.mem r a) 0 } (a + pgsize) := by
  -- the statement's match is its own matcher: close by unfolding, not by syntax
  have e := uvmunmapFrom.eq_def r bound doFree s a
  rw [dif_pos h, walk_false s r hva] at e
  exact e

/-- The leaves of the pages `[lo, hi)` map distinct pages that kfree takes and
that are neither free nor table pages: what uvmunmap needs to free them. -/
def OwnsRange (s : Phys) (r lo hi : Nat) : Prop :=
  (∀ v, lo ≤ v → v < hi → ∀ e, translate s r v = some e →
    Freeable s e.1 ∧ e.1 ∉ s.freelist ∧ ∀ x : Pos, x.Live s.mem r → x.page s.mem r ≠ e.1) ∧
  ∀ v w, lo ≤ v → v < hi → lo ≤ w → w < hi → ∀ e f,
    translate s r v = some e → translate s r w = some f → e.1 = f.1 → v = w

/-- The physical pages of the leaves of `[lo, lo + n)`, in page order. -/
def mappedPages (s : Phys) (r lo n : Nat) : List Nat :=
  (List.range' lo n).filterMap fun v => (translate s r v).map Prod.fst

theorem mappedPages_succ (s : Phys) (r lo n : Nat) :
    mappedPages s r lo (n + 1) = ((translate s r lo).map Prod.fst).toList ++ mappedPages s r (lo + 1) n := by
  rw [mappedPages, List.range'_succ, List.filterMap_cons, mappedPages]
  cases translate s r lo <;> rfl

theorem mappedPages_congr {s s' : Phys} {lo n : Nat}
    (h : ∀ v, lo ≤ v → v < lo + n → translate s' r v = translate s r v) :
    mappedPages s' r lo n = mappedPages s r lo n := by
  induction n generalizing lo with
  | zero => simp only [mappedPages, List.range'_zero, List.filterMap_nil]
  | succ n ih =>
    rw [mappedPages_succ, mappedPages_succ, h lo le_rfl (by omega),
      ih fun v hv hv' => h v (by omega) (by omega)]

theorem OwnsRange.succ {s : Phys} {lo hi : Nat} (h : OwnsRange s r lo hi) : OwnsRange s r (lo + 1) hi :=
  ⟨fun v hv hv' => h.1 v (by omega) hv', fun v w hv hv' hw hw' => h.2 v w (by omega) hv' (by omega) hw'⟩

/-- The body of uvmunmap's loop at a page with a valid leaf: the kfree, when
asked for, then `*pte = 0`. -/
theorem TableOk.unmapOne {s : Phys} {vpn : Nat} (h : TableOk s r) (hva : vpn * pgsize < maxva)
    (hlive : (Pos.low (px 2 (vpn * pgsize)) (px 1 (vpn * pgsize))).Live s.mem r)
    (hown : doFree = true → OwnsRange s r vpn (vpn + 1))
    (hvalid : Valid (pteAt s.mem (slot s.mem r (vpn * pgsize)))) :
    ∃ s1, (if doFree then kfree s (pte2pa (pteAt s.mem (slot s.mem r (vpn * pgsize)))) else some s) =
        some s1 ∧
      let s2 : Phys := { s1 with mem := setPte s1.mem (slot s.mem r (vpn * pgsize)) 0 }
      TableOk s2 r ∧ s2.kend = s.kend ∧ SameShape s.mem s2.mem r ∧
      s2.freelist = (if doFree then [pte2pa (pteAt s.mem (slot s.mem r (vpn * pgsize)))] else []) ++
        s.freelist ∧
      ∀ v, translate s2 r v = if v = vpn then none else translate s r v := by
  set sl := slot s.mem r (vpn * pgsize) with hsl
  have hne : sl ≠ 0 := h.slot_ne_zero hlive
  have htr : translate s r vpn = some (pte2pa (pteAt s.mem sl), pteFlags (pteAt s.mem sl)) := by
    rw [translate_eq hva, leafAt, if_pos ⟨hne, hvalid⟩]
    rfl
  obtain ⟨s1, hs1, hok1, hfl1, hk1, hshape1, htr1⟩ : ∃ s1,
      (if doFree then kfree s (pte2pa (pteAt s.mem sl)) else some s) = some s1 ∧ TableOk s1 r ∧
      s1.freelist = (if doFree then [pte2pa (pteAt s.mem sl)] else []) ++ s.freelist ∧
      s1.kend = s.kend ∧ SameShape s.mem s1.mem r ∧ translate s1 r = translate s r := by
    cases doFree with
    | false => exact ⟨s, rfl, h, rfl, rfl, SameShape.refl _ _, rfl⟩
    | true =>
      obtain ⟨hF, hfree, hnot⟩ := (hown rfl).1 vpn le_rfl (by omega) _ htr
      obtain ⟨s1, hk, hok1, hfl1, hk1, -, hshape1, htr1⟩ := h.kfree_data hF hfree hnot
      -- select the branches first: matching them against hk by unfolding kfree is slow
      rw [if_pos rfl, if_pos rfl]
      exact ⟨s1, hk, hok1, hfl1, hk1, hshape1, htr1⟩
  refine ⟨s1, hs1, ?_⟩
  have hsl1 : slot s1.mem r (vpn * pgsize) = sl := slot_congr ((hshape1 _).1) ((hshape1 _).2)
  obtain ⟨hok2, -, hshape2, htr2⟩ := hok1.setSlot_translate hva ((hshape1 _).1.mpr hlive)
    (show ({ s1 with mem := setPte s1.mem sl 0 } : Phys).mem =
      setPte s1.mem (slot s1.mem r (vpn * pgsize)) 0 by rw [hsl1]) rfl rfl
  refine ⟨hok2, hk1, hshape1.trans hshape2, hfl1, fun v => ?_⟩
  rw [htr2, htr1]
  split_ifs <;> rfl

/-- uvmunmap's loop over `k` pages from `vpn`, with the range below MAXVA: it
does not panic, it clears exactly those leaves, and with do_free it puts the
pages they mapped on the free list, the last one first. -/
theorem uvmunmapFrom_spec (k : Nat) :
    ∀ {s : Phys} {vpn : Nat}, TableOk s r → (vpn + k) * pgsize ≤ maxva →
      (doFree = true → OwnsRange s r vpn (vpn + k)) →
      ∃ s', uvmunmapFrom r ((vpn + k) * pgsize) doFree s (vpn * pgsize) = some s' ∧ TableOk s' r ∧
        s'.kend = s.kend ∧ SameShape s.mem s'.mem r ∧
        s'.freelist = (if doFree then (mappedPages s r vpn k).reverse else []) ++ s.freelist ∧
        ∀ v, translate s' r v = if vpn ≤ v ∧ v < vpn + k then none else translate s r v := by
  induction k with
  | zero =>
    intro s vpn h _ _
    refine ⟨s, uvmunmapFrom_stop (by simp), h, rfl, SameShape.refl _ _, ?_, fun v => ?_⟩
    · cases doFree <;> simp [mappedPages]
    · rw [if_neg (by omega)]
  | succ k ih =>
    intro s vpn h hmax hown
    have hlt : vpn * pgsize < (vpn + (k + 1)) * pgsize := by simp only [pgsize]; omega
    have hva : vpn * pgsize < maxva := lt_of_lt_of_le hlt hmax
    have hbound : (vpn + (k + 1)) * pgsize = (vpn + 1 + k) * pgsize := by congr 1; omega
    have hnext : vpn * pgsize + pgsize = (vpn + 1) * pgsize := (Nat.succ_mul vpn pgsize).symm
    rw [uvmunmapFrom_step hlt hva, hbound, hnext]
    have hmax' : (vpn + 1 + k) * pgsize ≤ maxva := hbound ▸ hmax
    have hrange : vpn + (k + 1) = vpn + 1 + k := by omega
    by_cases hleaf : slot s.mem r (vpn * pgsize) ≠ 0 ∧ Valid (pteAt s.mem (slot s.mem r (vpn * pgsize)))
    · obtain ⟨hne, hvalid⟩ := hleaf
      have hlive : (Pos.low (px 2 (vpn * pgsize)) (px 1 (vpn * pgsize))).Live s.mem r :=
        by_contra fun hl => hne (if_neg hl)
      have hvalid' : ¬ pteAt s.mem (slot s.mem r (vpn * pgsize)) &&& pteV = 0 := hvalid
      rw [if_neg hne, if_neg hvalid']
      obtain ⟨s1, hs1, hok2, hk2, hshape2, hfl2, htr2⟩ := h.unmapOne hva hlive
        (fun hd => ⟨fun v hv hv' => (hown hd).1 v hv (by omega),
          fun v w hv hv' hw hw' => (hown hd).2 v w hv (by omega) hw (by omega)⟩) hvalid
      rw [hs1]
      set s2 : Phys := { s1 with mem := setPte s1.mem (slot s.mem r (vpn * pgsize)) 0 } with hs2
      set pa := pte2pa (pteAt s.mem (slot s.mem r (vpn * pgsize)))
      set fl := pteFlags (pteAt s.mem (slot s.mem r (vpn * pgsize)))
      have htr : translate s r vpn = some (pa, fl) := by
        rw [translate_eq hva, leafAt, if_pos ⟨hne, hvalid⟩]
        rfl
      have hsame : ∀ v, vpn + 1 ≤ v → translate s2 r v = translate s r v := fun v hv => by
        rw [htr2, if_neg (by omega)]
      obtain ⟨s', hrun, hok', hk', hshape', hfl', htr'⟩ := @ih _ (vpn + 1) hok2 hmax' (fun hd => by
        obtain ⟨hown1, hown2⟩ := hown hd
        refine ⟨fun v hv hv' e he => ?_, fun v w hv hv' hw hw' e f he hf hef => ?_⟩
        · rw [hsame v hv] at he
          obtain ⟨hF, hfree, hnot⟩ := hown1 v (by omega) (by omega) e he
          refine ⟨hF.of_kend hk2, fun hm => ?_, fun x hx => ?_⟩
          · rw [hfl2, hd] at hm
            rcases List.mem_cons.mp hm with hm | hm
            · have := hown2 v vpn (by omega) (by omega) le_rfl (by omega) e (pa, fl) he htr hm
              omega
            · exact hfree hm
          · rw [(hshape2 x).2 ((hshape2 x).1.mp hx)]
            exact hnot x ((hshape2 x).1.mp hx)
        · rw [hsame v hv] at he
          rw [hsame w hw] at hf
          exact hown2 v w (by omega) (by omega) (by omega) (by omega) e f he hf hef)
      refine ⟨s', hrun, hok', hk'.trans hk2, hshape2.trans hshape', ?_, fun v => ?_⟩
      · rw [hfl', hfl2, mappedPages_succ, htr, mappedPages_congr (fun v hv _ => hsame v hv)]
        cases doFree <;> simp
      · rw [htr', htr2]
        by_cases hv : v = vpn
        · subst hv
          rw [if_neg (by omega), if_pos rfl, if_pos (by omega)]
        · rw [if_neg hv]
          split_ifs <;> first | rfl | omega
    · have hnone : translate s r vpn = none := by
        rw [translate_eq hva, leafAt_eq_none_iff.mpr hleaf]
        rfl
      have hskip : ∀ X : Option Phys,
          (if slot s.mem r (vpn * pgsize) = 0 then
            uvmunmapFrom r ((vpn + 1 + k) * pgsize) doFree s ((vpn + 1) * pgsize)
          else if pteAt s.mem (slot s.mem r (vpn * pgsize)) &&& pteV = 0 then
            uvmunmapFrom r ((vpn + 1 + k) * pgsize) doFree s ((vpn + 1) * pgsize)
          else X) = uvmunmapFrom r ((vpn + 1 + k) * pgsize) doFree s ((vpn + 1) * pgsize) := by
        intro X
        by_cases h0 : slot s.mem r (vpn * pgsize) = 0
        · rw [if_pos h0]
        · have hinv : pteAt s.mem (slot s.mem r (vpn * pgsize)) &&& pteV = 0 :=
            Classical.not_not.mp fun hv => hleaf ⟨h0, hv⟩
          rw [if_neg h0, if_pos hinv]
      rw [hskip]
      obtain ⟨s', hrun, hok', hk', hshape', hfl', htr'⟩ := @ih _ (vpn + 1) h hmax' (fun hd =>
        ⟨fun v hv hv' => (hown hd).1 v (by omega) (by omega),
          fun v w hv hv' hw hw' => (hown hd).2 v w (by omega) (by omega) (by omega) (by omega)⟩)
      refine ⟨s', hrun, hok', hk', hshape', ?_, fun v => ?_⟩
      · rw [hfl', mappedPages_succ, hnone]
        rfl
      · rw [htr']
        by_cases hv : v = vpn
        · subst hv
          rw [if_neg (by omega), if_pos (by omega), hnone]
        · split_ifs <;> first | rfl | omega

end Uvmunmap

/-! ### freewalk -/

section Freewalk

/-- freewalk with `fuel` on the page `c`, from any state whose `end` is `kend`
and that holds `m0` on the pages of `F`, frees exactly the pages of `F`, the
last one first, and writes nothing outside them. -/
def FreesExactly (fuel : Nat) (m0 : Nat → UInt8) (kend c : Nat) (F : List Nat) : Prop :=
  ∀ u : Phys, u.kend = kend → (∀ p ∈ F, Agree m0 u.mem p pgsize) →
    ∃ u', freewalk fuel u c = some u' ∧ u'.kend = kend ∧ u'.freelist = F.reverse ++ u.freelist ∧
      ∀ y, (∀ p ∈ F, y < p ∨ p + pgsize ≤ y) → u'.mem y = u.mem y

/-- kfree's test passes. -/
def KfreeOk (kend q : Nat) : Prop := q % pgsize = 0 ∧ kend ≤ q ∧ q < phystop

theorem kfree_of_ok {u : Phys} {q : Nat} (h : KfreeOk u.kend q) :
    kfree u q = some { u with mem := fill u.mem q pgsize 1, freelist := q :: u.freelist } := by
  rw [kfree, if_neg]
  obtain ⟨h1, h2, h3⟩ := h
  omega

section Entry

variable {fw : Phys → Nat → Option Phys} {q i : Nat} {u : Phys}

theorem freewalkEntry_invalid (hv : ¬ Valid (entry u.mem q i)) : freewalkEntry fw q u i = some u := by
  have hv' : ¬ pteAt u.mem (q + 8 * i) &&& pteV ≠ 0 := hv
  simp only [freewalkEntry]
  rw [if_neg (fun h => hv' h.1), if_neg hv']

theorem freewalkEntry_inner {u1 : Phys} (hv : Valid (entry u.mem q i))
    (hin : entry u.mem q i &&& (pteR ||| pteW ||| pteX) = 0)
    (hfw : fw u (pte2pa (entry u.mem q i)) = some u1) :
    freewalkEntry fw q u i = some { u1 with mem := setPte u1.mem (q + 8 * i) 0 } := by
  have hv' : pteAt u.mem (q + 8 * i) &&& pteV ≠ 0 := hv
  have hfw' : fw u (pte2pa (pteAt u.mem (q + 8 * i))) = some u1 := hfw
  simp only [freewalkEntry]
  rw [if_pos ⟨hv', hin⟩, hfw']

end Entry

theorem page_disjoint {p q y : Nat} (hp : p % pgsize = 0) (hq : q % pgsize = 0) (hne : p ≠ q)
    (hy : p ≤ y ∧ y < p + pgsize) : y < q ∨ q + pgsize ≤ y := by
  simp only [pgsize] at *
  omega

theorem freewalk_succ {f q : Nat} {u t : Phys}
    (h : pteIndices.foldlM (freewalkEntry (freewalk f) q) u = some t) :
    freewalk (f + 1) u q = kfree t q := by
  rw [freewalk, h]

theorem freesExactly_leaf {m0 : Nat → UInt8} {kend q f : Nat} (hq : KfreeOk kend q)
    (hinv : ∀ j < 512, ¬ Valid (entry m0 q j)) : FreesExactly (f + 1) m0 kend q [q] := by
  intro u hk hagree
  have hq' := hagree q List.mem_cons_self
  have hfold : pteIndices.foldlM (freewalkEntry (freewalk f) q) u = some u := by
    rw [← StepSystem.run_eq_foldlM]
    obtain ⟨t, ht, rfl, -⟩ := @StepSystem.run_of_suffix_invariant _ _
      (freewalkEntry (freewalk f) q) (fun as v => v = u ∧ ∀ j ∈ as, j < 512)
      (fun j as v ⟨hv, hj⟩ => by
        subst hv
        have hj512 := hj j List.mem_cons_self
        refine ⟨v, freewalkEntry_invalid ?_, rfl, fun j' hj' => hj j' (List.mem_cons_of_mem _ hj')⟩
        rw [entry_congr hq' hj512]
        exact hinv j hj512)
      pteIndices u ⟨rfl, fun j hj => mem_pteIndices.mp hj⟩
    exact ht
  refine ⟨{ u with mem := fill u.mem q pgsize 1, freelist := q :: u.freelist }, ?_, hk, rfl,
    fun y hy => ?_⟩
  · rw [freewalk_succ hfold]
    exact kfree_of_ok (hk ▸ hq)
  · rcases hy q List.mem_cons_self with h | h
    · exact fill_of_lt h
    · exact fill_of_ge h

theorem outside_pages {p y : Nat} {L : List Nat} (hp : p % pgsize = 0) (hL : ∀ p' ∈ L, p' % pgsize = 0)
    (hnot : p ∉ L) (hy : p ≤ y ∧ y < p + pgsize) : ∀ p' ∈ L, y < p' ∨ p' + pgsize ≤ y :=
  fun p' hp' => page_disjoint hp (hL p' hp') (fun e => hnot (e ▸ hp')) hy

section Node

variable {m0 : Nat → UInt8} {kend q f : Nat} {G : Nat → List Nat}

/-- The children of the page `q` in `m0`: each valid entry is an interior entry
whose page freewalk frees with the pages `G j`; an invalid entry has none. -/
structure Children (m0 : Nat → UInt8) (kend q f : Nat) (G : Nat → List Nat) : Prop where
  inner : ∀ j < 512, Valid (entry m0 q j) → entry m0 q j &&& (pteR ||| pteW ||| pteX) = 0
  frees : ∀ j < 512, Valid (entry m0 q j) → FreesExactly f m0 kend (pte2pa (entry m0 q j)) (G j)
  none : ∀ j < 512, ¬ Valid (entry m0 q j) → G j = []
  align : ∀ j < 512, ∀ p ∈ G j, p % pgsize = 0

/-- freewalk's loop over the entries `is` of `q`: the pages of each valid
entry's child are freed in turn and the entry is cleared after, and nothing
outside those pages and `q` is written.  The entries still to come and their
children's pages are as in `m0`. -/
theorem freewalkLoop_frees (hc : Children m0 kend q f G) (hq : q % pgsize = 0) :
    ∀ (is : List Nat) (u : Phys), (∀ j ∈ is, j < 512) → is.Nodup → (is.flatMap G ++ [q]).Nodup →
      u.kend = kend → (∀ j ∈ is, ∀ p ∈ G j, Agree m0 u.mem p pgsize) →
      (∀ j ∈ is, entry u.mem q j = entry m0 q j) →
      ∃ u', is.foldlM (freewalkEntry (freewalk f) q) u = some u' ∧ u'.kend = kend ∧
        u'.freelist = (is.flatMap G).reverse ++ u.freelist ∧
        ∀ y, (∀ p ∈ is.flatMap G, y < p ∨ p + pgsize ≤ y) → (y < q ∨ q + pgsize ≤ y) → u'.mem y = u.mem y
  | [], u, _, _, _, hk, _, _ => ⟨u, rfl, hk, rfl, fun _ _ _ => rfl⟩
  | j :: is, u, hlt, hnd, hpages, hk, hagree, hentry => by
    have hj := hlt j List.mem_cons_self
    have hjis : j ∉ is := (List.nodup_cons.mp hnd).1
    rw [List.flatMap_cons, List.append_assoc] at hpages
    have hrest : (is.flatMap G ++ [q]).Nodup := (List.nodup_append.mp hpages).2.1
    have hGj : ∀ p ∈ G j, p ∉ is.flatMap G ++ [q] := fun p hp hin =>
      (List.nodup_append.mp hpages).2.2 p hp p hin rfl
    have hps : pgsize = 4096 := rfl
    have hqG : q ∉ G j := fun hqj => hGj q hqj (by simp)
    rw [List.foldlM_cons]
    by_cases hv : Valid (entry m0 q j)
    · obtain ⟨u1, hfw, hk1, hfl1, hmem1⟩ :=
        hc.frees j hj hv u hk (hagree j List.mem_cons_self)
      have hentry_j := hentry j List.mem_cons_self
      have hfw' : freewalk f u (pte2pa (entry u.mem q j)) = some u1 := by
        rw [hentry_j]
        exact hfw
      have hstep := freewalkEntry_inner (hentry_j ▸ hv) (hentry_j ▸ hc.inner j hj hv) hfw'
      rw [hstep, Option.bind_eq_bind, Option.bind_some]
      set u2 : Phys := { u1 with mem := setPte u1.mem (q + 8 * j) 0 }
      have hmem2 : ∀ y, (∀ p ∈ G j, y < p ∨ p + pgsize ≤ y) → (y < q + 8 * j ∨ q + 8 * j + 8 ≤ y) →
          u2.mem y = u.mem y := by
        intro y hy hyq
        show setPte u1.mem (q + 8 * j) 0 y = u.mem y
        rw [setPte]
        rcases hyq with hyq | hyq
        · rw [store_of_lt hyq, hmem1 y hy]
        · rw [store_of_ge hyq, hmem1 y hy]
      obtain ⟨u', hfold, hk', hfl', hmem'⟩ := freewalkLoop_frees hc hq is u2
        (fun k hk => hlt k (List.mem_cons_of_mem _ hk)) (List.nodup_cons.mp hnd).2 hrest hk1
        (fun k hk p hp x hx hx' => by
          have hpq : p ∉ G j := fun hpj => hGj p hpj (by simp; exact Or.inl ⟨k, hk, hp⟩)
          have hpal := hc.align k (hlt k (List.mem_cons_of_mem _ hk)) p hp
          have hpq' : p ≠ q := fun e => (List.nodup_append.mp hrest).2.2 p
            (List.mem_flatMap.mpr ⟨k, hk, hp⟩) q (by simp) e
          rw [hmem2 x (outside_pages hpal (hc.align j hj) hpq ⟨hx, hx'⟩) (by
            rcases page_disjoint hpal hq hpq' ⟨hx, hx'⟩ with h | h
            · exact Or.inl (by omega)
            · exact Or.inr (by omega))]
          exact hagree k (List.mem_cons_of_mem _ hk) p hp x hx hx')
        (fun k hk => by
          have hkj : k ≠ j := fun e => hjis (e ▸ hk)
          have hk512 := hlt k (List.mem_cons_of_mem _ hk)
          rw [← hentry k (List.mem_cons_of_mem _ hk)]
          show entry (setPte u1.mem (q + 8 * j) 0) q k = entry u.mem q k
          rw [entry_setPte_of_ne hkj]
          refine entry_congr (fun x hx hx' => hmem1 x ?_) hk512
          exact outside_pages hq (hc.align j hj) hqG ⟨hx, hx'⟩)
      refine ⟨u', hfold, hk', ?_, fun y hy hyq => ?_⟩
      · rw [hfl', hfl1, List.flatMap_cons, List.reverse_append, List.append_assoc]
      · rw [List.flatMap_cons] at hy
        rw [hmem' y (fun p hp => hy p (List.mem_append_right _ hp)) hyq]
        exact hmem2 y (fun p hp => hy p (List.mem_append_left _ hp)) (by omega)
    · have hnone := hc.none j hj hv
      have hstep : freewalkEntry (freewalk f) q u j = some u :=
        freewalkEntry_invalid (by rw [hentry j List.mem_cons_self]; exact hv)
      rw [hstep, Option.bind_eq_bind, Option.bind_some]
      rw [hnone, List.nil_append] at hpages
      obtain ⟨u', hfold, hk', hfl', hmem'⟩ := freewalkLoop_frees hc hq is u
        (fun k hk => hlt k (List.mem_cons_of_mem _ hk)) (List.nodup_cons.mp hnd).2 hpages hk
        (fun k hk => hagree k (List.mem_cons_of_mem _ hk)) (fun k hk => hentry k (List.mem_cons_of_mem _ hk))
      refine ⟨u', hfold, hk', ?_, fun y hy hyq => hmem' y ?_ hyq⟩
      · rw [hfl', List.flatMap_cons, hnone, List.nil_append]
      · rw [List.flatMap_cons, hnone, List.nil_append] at hy
        exact hy

theorem freesExactly_node (hc : Children m0 kend q f G) (hq : KfreeOk kend q)
    (hnd : (pteIndices.flatMap G ++ [q]).Nodup) :
    FreesExactly (f + 1) m0 kend q (pteIndices.flatMap G ++ [q]) := by
  intro u hk hagree
  have hq' := hagree q (by simp)
  obtain ⟨u', hfold, hk', hfl', hmem'⟩ := freewalkLoop_frees hc hq.1 pteIndices u
    (fun j hj => mem_pteIndices.mp hj) nodup_pteIndices hnd hk
    (fun j hj p hp => hagree p (List.mem_append_left _ (List.mem_flatMap.mpr ⟨j, hj, hp⟩)))
    (fun j hj => entry_congr hq' (mem_pteIndices.mp hj))
  refine ⟨{ u' with mem := fill u'.mem q pgsize 1, freelist := q :: u'.freelist }, ?_, hk', ?_,
    fun y hy => ?_⟩
  · rw [freewalk_succ hfold]
    exact kfree_of_ok (hk' ▸ hq)
  · rw [hfl', List.reverse_append, List.reverse_singleton, List.singleton_append, List.cons_append]
  · have hyq := hy q (by simp)
    show fill u'.mem q pgsize 1 y = u.mem y
    rcases hyq with h | h
    · rw [fill_of_lt h]
      exact hmem' y (fun p hp => hy p (List.mem_append_left _ hp)) (Or.inl h)
    · rw [fill_of_ge h]
      exact hmem' y (fun p hp => hy p (List.mem_append_left _ hp)) (Or.inr h)

end Node

/-! #### The positions of a table, in the order freewalk frees them -/

section Positions

variable {m : Nat → UInt8} {r i : Nat} {x : Pos}

/-- The level-0 positions under root entry `i` that walk reaches. -/
def lowPos (m : Nat → UInt8) (r i : Nat) : List Pos :=
  pteIndices.flatMap fun j => if (Pos.low i j).Live m r then [Pos.low i j] else []

/-- The positions under root entry `i`, its level-1 page last. -/
def subtree (m : Nat → UInt8) (r i : Nat) : List Pos :=
  if (Pos.mid i).Live m r then lowPos m r i ++ [Pos.mid i] else []

/-- Every position walk reaches, the root last. -/
def livePos (m : Nat → UInt8) (r : Nat) : List Pos := pteIndices.flatMap (subtree m r) ++ [Pos.root]

theorem mem_lowPos : x ∈ lowPos m r i ↔ ∃ j, x = Pos.low i j ∧ (Pos.low i j).Live m r := by
  simp only [lowPos, List.mem_flatMap, mem_pteIndices]
  constructor
  · rintro ⟨j, -, hx⟩
    split_ifs at hx with hl
    · exact ⟨j, List.mem_singleton.mp hx, hl⟩
    · cases hx
  · rintro ⟨j, rfl, hl⟩
    exact ⟨j, hl.2.2.1, by rw [if_pos hl]; exact List.mem_singleton_self _⟩

theorem mem_subtree :
    x ∈ subtree m r i ↔ (Pos.mid i).Live m r ∧ (x = Pos.mid i ∨ ∃ j, x = Pos.low i j ∧ (Pos.low i j).Live m r) := by
  unfold subtree
  split_ifs with hmid
  · simp only [List.mem_append, mem_lowPos, List.mem_singleton, hmid, true_and]
    exact Or.comm
  · simp [hmid]

theorem mem_livePos : x ∈ livePos m r ↔ x.Live m r := by
  simp only [livePos, List.mem_append, List.mem_flatMap, mem_pteIndices, mem_subtree, List.mem_singleton]
  cases x with
  | root => simp [Pos.Live]
  | mid i =>
    constructor
    · rintro (⟨i', -, hmid, he | ⟨j, he, -⟩⟩ | he) <;> cases he
      exact hmid
    · intro hmid
      exact Or.inl ⟨i, hmid.1, hmid, Or.inl rfl⟩
  | low i j =>
    constructor
    · rintro (⟨i', -, -, he | ⟨j', he, hl⟩⟩ | he) <;> cases he
      exact hl
    · intro hl
      exact Or.inl ⟨i, hl.1, ⟨hl.1, hl.2.1⟩, Or.inr ⟨j, rfl, hl⟩⟩

theorem nodup_lowPos : (lowPos m r i).Nodup := by
  refine List.nodup_flatMap.mpr ⟨fun j _ => ?_, nodup_pteIndices.pairwise_of_forall_ne fun a _ b _ hab => ?_⟩
  · split_ifs <;> simp
  · intro y hya hyb
    dsimp only at hya hyb
    split_ifs at hya hyb <;> simp_all

theorem nodup_subtree : (subtree m r i).Nodup := by
  unfold subtree
  split_ifs
  · refine List.nodup_append.mpr ⟨nodup_lowPos, List.nodup_singleton _, fun a ha b hb => ?_⟩
    obtain ⟨j, rfl, -⟩ := mem_lowPos.mp ha
    rw [List.mem_singleton.mp hb]
    exact Pos.noConfusion
  · exact List.nodup_nil

theorem nodup_livePos : (livePos m r).Nodup := by
  refine List.nodup_append.mpr ⟨List.nodup_flatMap.mpr ⟨fun i _ => nodup_subtree,
    nodup_pteIndices.pairwise_of_forall_ne fun a _ b _ hab => ?_⟩, List.nodup_singleton _, ?_⟩
  · intro y hya hyb
    obtain ⟨-, rfl | ⟨j, rfl, -⟩⟩ := mem_subtree.mp hya <;>
      obtain ⟨-, he | ⟨j', he, -⟩⟩ := mem_subtree.mp hyb <;> cases he <;> exact hab rfl
  · intro a ha b hb
    rw [List.mem_singleton.mp hb]
    obtain ⟨i, -, hai⟩ := List.mem_flatMap.mp ha
    obtain ⟨-, rfl | ⟨j, rfl, -⟩⟩ := mem_subtree.mp hai <;> exact Pos.noConfusion

/-- The pages of a table: those of the positions walk reaches. -/
def tablePages (m : Nat → UInt8) (r : Nat) : List Nat := (livePos m r).map fun x => x.page m r

theorem mem_tablePages {p : Nat} : p ∈ tablePages m r ↔ ∃ x : Pos, x.Live m r ∧ x.page m r = p := by
  simp only [tablePages, List.mem_map, mem_livePos]

theorem TableOk.nodup_tablePages {s : Phys} (h : TableOk s r) : (tablePages s.mem r).Nodup :=
  List.Nodup.map_on (fun x hx y hy => h.inj x y (mem_livePos.mp hx) (mem_livePos.mp hy)) nodup_livePos

end Positions

/-! #### freewalk on a table with no leaves -/

section Empty

variable {s : Phys} {r : Nat}

theorem TableOk.leaf_invalid (h : TableOk s r) (hempty : ∀ v, translate s r v = none) {i j k : Nat}
    (hx : (Pos.low i j).Live s.mem r) (hk : k < 512) :
    ¬ Valid (entry s.mem ((Pos.low i j).page s.mem r) k) := by
  have hi : i < 256 := Nat.lt_of_not_le fun hge => h.upper i hge hx.1 hx.2.1
  have hj := hx.2.2.1
  set vpn := i * 2 ^ 18 + j * 2 ^ 9 + k with hvpn
  have hva : vpn * pgsize < maxva := by
    simp only [maxva_eq, pgsize]
    omega
  have h2 : px 2 (vpn * pgsize) = i := by simp only [px_eq, pgsize]; omega
  have h1 : px 1 (vpn * pgsize) = j := by simp only [px_eq, pgsize]; omega
  have h0 : px 0 (vpn * pgsize) = k := by simp only [px_eq, pgsize]; omega
  have hlive : (Pos.low (px 2 (vpn * pgsize)) (px 1 (vpn * pgsize))).Live s.mem r := by
    rw [h2, h1]
    exact hx
  have hnone := hempty vpn
  rw [translate_eq hva, Option.map_eq_none_iff, leafAt_eq_none_iff] at hnone
  have hslot : slot s.mem r (vpn * pgsize) = (Pos.low i j).page s.mem r + 8 * k := by
    rw [slot_of_live hlive, h2, h1, h0]
  intro hv
  exact hnone ⟨h.slot_ne_zero hlive, by rw [hslot]; exact hv⟩

/-- The pages freewalk frees for the subtree under a live root entry `i`. -/
theorem TableOk.freesExactly_mid (h : TableOk s r) (hempty : ∀ v, translate s r v = none) {i : Nat}
    (hmid : (Pos.mid i).Live s.mem r) :
    FreesExactly 2 s.mem s.kend ((Pos.mid i).page s.mem r) ((subtree s.mem r i).map fun x => x.page s.mem r) := by
  set q := (Pos.mid i).page s.mem r with hq
  let G : Nat → List Nat := fun j =>
    (if (Pos.low i j).Live s.mem r then [Pos.low i j] else []).map fun x => x.page s.mem r
  have hlow : ∀ j < 512, Valid (entry s.mem q j) → (Pos.low i j).Live s.mem r :=
    fun j hj hv => ⟨hmid.1, hmid.2, hj, hv⟩
  have hc : Children s.mem s.kend q 1 G := by
    refine ⟨fun j hj hv => h.inner (.mid i) hmid trivial j hj hv, fun j hj hv => ?_, fun j _ hv => ?_,
      fun j _ p hp => ?_⟩
    · have hl := hlow j hj hv
      simp only [G, if_pos hl, List.map_cons, List.map_nil]
      exact freesExactly_leaf (h.live _ hl).1 fun k hk => h.leaf_invalid hempty hl hk
    · simp only [G, if_neg (fun hl : (Pos.low i j).Live s.mem r => hv hl.2.2.2), List.map_nil]
    · simp only [G] at hp
      split_ifs at hp with hl
      · rw [List.map_singleton, List.mem_singleton] at hp
        rw [hp]
        exact (h.live _ hl).1.1
      · cases hp
  have hF : pteIndices.flatMap G ++ [q] = (subtree s.mem r i).map fun x => x.page s.mem r := by
    simp only [subtree, if_pos hmid, lowPos, List.map_append, List.map_flatMap, List.map_singleton, G, hq]
  rw [← hF]
  refine freesExactly_node hc (h.live _ hmid).1 ?_
  rw [hF]
  refine List.Nodup.map_on (fun x hx y hy => h.inj x y ?_ ?_) nodup_subtree
  · obtain ⟨-, rfl | ⟨j, rfl, hl⟩⟩ := mem_subtree.mp hx
    · exact hmid
    · exact hl
  · obtain ⟨-, rfl | ⟨j, rfl, hl⟩⟩ := mem_subtree.mp hy
    · exact hmid
    · exact hl

theorem TableOk.freewalk_empty (h : TableOk s r) (hempty : ∀ v, translate s r v = none) :
    ∃ s', freewalk 3 s r = some s' ∧ s'.kend = s.kend ∧
      s'.freelist = (tablePages s.mem r).reverse ++ s.freelist ∧
      ∀ y, (∀ p ∈ tablePages s.mem r, y < p ∨ p + pgsize ≤ y) → s'.mem y = s.mem y := by
  let G : Nat → List Nat := fun i => (subtree s.mem r i).map fun x => x.page s.mem r
  have hc : Children s.mem s.kend r 2 G := by
    refine ⟨fun i hi hv => h.inner .root trivial trivial i hi hv, fun i hi hv => h.freesExactly_mid hempty ⟨hi, hv⟩,
      fun i _ hv => ?_, fun i _ p hp => ?_⟩
    · simp only [G, subtree, if_neg (fun hmid : (Pos.mid i).Live s.mem r => hv hmid.2), List.map_nil]
    · obtain ⟨x, hx, rfl⟩ := List.mem_map.mp hp
      obtain ⟨hmid, rfl | ⟨j, rfl, hl⟩⟩ := mem_subtree.mp hx
      · exact (h.live _ hmid).1.1
      · exact (h.live _ hl).1.1
  have hF : pteIndices.flatMap G ++ [r] = tablePages s.mem r := by
    simp only [tablePages, livePos, List.map_append, List.map_flatMap, List.map_singleton, G]
    rfl
  have hfree := freesExactly_node hc h.root.1 (hF ▸ h.nodup_tablePages)
  rw [hF] at hfree
  exact hfree s rfl fun _ _ => Agree.refl _ _ _

end Empty

end Freewalk

end Xv6Mlfq.PageTable
