import Xv6Mlfq.PageTable

/-!
A process's page table as a finite map, over every run of vm.c's operations
on it from uvmcreate.  The runs are those the kernel makes: its arguments are
uint64 values, uvmunmap stays below MAXVA, and uvmunmap with do_free frees
only pages that are mapped once and are neither free nor page-table pages.
On every such table `TableOk` holds, and M (`translate`) behaves as a map:
mappages adds its pages, uvmunmap removes its own, distinct pages have
distinct leaf entries, and an empty map is freed by freewalk page by page.
-/

namespace Xv6Mlfq.PageTable

open ByteMem Vm

/-! ### The numbers -/

theorem pteFlags_and_pteU (pte : Nat) : pteFlags pte &&& pteU = pte &&& pteU := by
  rw [pteFlags, Nat.land_assoc, show (0x3FF : Nat) &&& pteU = pteU by decide]

theorem or_pteV_and_pteU (perm : Nat) : (perm ||| pteV) &&& pteU = perm &&& pteU := by
  rw [Nat.and_or_distrib_right]
  simp [pteV, pteU]

theorem testBit_clearU (i : Nat) : (2 ^ 64 - 1 - pteU).testBit i = (decide (i < 64) && !decide (i = 4)) := by
  rw [show 2 ^ 64 - 1 - pteU = (2 ^ 64 - 1) ^^^ 2 ^ 4 by decide, Nat.testBit_xor, Nat.testBit_two_pow_sub_one,
    Nat.testBit_two_pow]
  by_cases hi : i = 4
  · subst hi
    rfl
  · simp [hi, Ne.symm hi]

theorem pte2pa_clearU (p : Nat) : pte2pa (p &&& (2 ^ 64 - 1 - pteU)) = pte2pa p := by
  apply Nat.eq_of_testBit_eq
  intro i
  simp only [pte2pa, Nat.testBit_mod_two_pow, Nat.testBit_shiftLeft, Nat.testBit_shiftRight, Nat.testBit_and,
    testBit_clearU]
  -- the address bits sit at 10 and above, away from bit 4
  by_cases hi : 12 ≤ i ∧ i < 64
  · have h1 : 10 + (i - 12) < 64 := by omega
    have h2 : 10 + (i - 12) ≠ 4 := by omega
    simp [hi.1, hi.2, h1, h2]
  · rcases not_and_or.mp hi with h | h <;> simp [h]

theorem valid_clearU (p : Nat) : Valid (p &&& (2 ^ 64 - 1 - pteU)) ↔ Valid p := by
  rw [Valid, Valid, Nat.land_assoc, show (2 ^ 64 - 1 - pteU) &&& pteV = pteV by decide]

theorem decode_clearU (p : Nat) :
    decode ((p &&& (2 ^ 64 - 1 - pteU)) % 2 ^ 64) = (decode p).map fun e => (e.1, e.2 &&& (2 ^ 64 - 1 - pteU)) := by
  rw [Nat.mod_eq_of_lt (Nat.and_lt_two_pow p (by decide)), decode, decode]
  by_cases hv : Valid p
  · rw [if_pos ((valid_clearU p).mpr hv), if_pos hv, Option.map_some, pte2pa_clearU, pteFlags, pteFlags,
      Nat.land_assoc, Nat.land_comm (2 ^ 64 - 1 - pteU), ← Nat.land_assoc]
  · rw [if_neg (mt (valid_clearU p).mp hv), if_neg hv, Option.map_none]

/-! ### walkaddr, uvmclear and the leaf slots -/

section Leaves

variable {s s' : Phys} {r : Nat}

theorem live_of_slot_ne_zero {m : Nat → UInt8} {va : Nat} (h : slot m r va ≠ 0) :
    (Pos.low (px 2 va) (px 1 va)).Live m r :=
  Decidable.byContradiction fun hl => h (if_neg hl)

theorem walkaddr_eq {vpn : Nat} (hva : vpn * pgsize < maxva) :
    walkaddr s r (vpn * pgsize) =
      match translate s r vpn with
      | some (pa, flags) => if flags &&& pteU = 0 then 0 else pa
      | none => 0 := by
  rw [walkaddr, if_neg (Nat.not_le.mpr hva), walk_false s r hva, translate_eq hva, leafAt]
  dsimp only
  by_cases h0 : slot s.mem r (vpn * pgsize) = 0
  · rw [if_pos h0, if_neg (fun h => h.1 h0)]
    rfl
  · by_cases hv : Valid (pteAt s.mem (slot s.mem r (vpn * pgsize)))
    · have hv' : ¬ pteAt s.mem (slot s.mem r (vpn * pgsize)) &&& pteV = 0 := hv
      rw [if_neg h0, if_neg hv', if_pos (And.intro h0 hv)]
      dsimp only [Option.map_some]
      rw [pteFlags_and_pteU]
    · have hv' : pteAt s.mem (slot s.mem r (vpn * pgsize)) &&& pteV = 0 := Decidable.of_not_not hv
      rw [if_neg h0, if_pos hv', if_neg (fun h => hv h.2)]
      rfl

theorem uvmclear_cases {va : Nat} (hs : uvmclear s r va = some s') :
    va < maxva ∧ slot s.mem r va ≠ 0 ∧
      s' = { s with mem := setPte s.mem (slot s.mem r va) (pteAt s.mem (slot s.mem r va) &&& (2 ^ 64 - 1 - pteU)) } := by
  by_cases hva : va < maxva
  · rw [Vm.uvmclear, walk_false s r hva] at hs
    dsimp only at hs
    by_cases h0 : slot s.mem r va = 0
    · rw [if_pos h0] at hs
      cases hs
    · rw [if_neg h0] at hs
      exact ⟨hva, h0, (Option.some.inj hs).symm⟩
  · rw [Vm.uvmclear, walk, if_pos (Nat.not_lt.mp hva)] at hs
    cases hs

theorem TableOk.of_uvmclear {va : Nat} (h : TableOk s r) (hs : uvmclear s r va = some s') : TableOk s' r := by
  obtain ⟨-, h0, hs'⟩ := uvmclear_cases hs
  exact (h.setSlot (live_of_slot_ne_zero h0) (by rw [hs']) (by rw [hs']) (by rw [hs'])).1

theorem leafAt_map_of_slot {m : Nat → UInt8} {va : Nat} (h0 : slot m r va ≠ 0) :
    (leafAt m r va).map (fun pte => (pte2pa pte, pteFlags pte)) = decode (pteAt m (slot m r va)) := by
  rw [leafAt, decode]
  by_cases hv : Valid (pteAt m (slot m r va))
  · rw [if_pos ⟨h0, hv⟩, if_pos hv]
    rfl
  · rw [if_neg (fun h => hv h.2), if_neg hv]
    rfl

theorem TableOk.uvmclear_translate {vpn : Nat} (h : TableOk s r) (hs : uvmclear s r (vpn * pgsize) = some s') :
    TableOk s' r ∧ ∀ v, translate s' r v = if v = vpn then
      (translate s r vpn).map (fun e => (e.1, e.2 &&& (2 ^ 64 - 1 - pteU))) else translate s r v := by
  obtain ⟨hva, h0, hs'⟩ := uvmclear_cases hs
  have hm : s'.mem = setPte s.mem (slot s.mem r (vpn * pgsize))
      (pteAt s.mem (slot s.mem r (vpn * pgsize)) &&& (2 ^ 64 - 1 - pteU)) := by
    rw [hs']
  obtain ⟨hok, -, -, htr⟩ := h.setSlot_translate hva (live_of_slot_ne_zero h0) hm (by rw [hs']) (by rw [hs'])
  refine ⟨hok, fun v => ?_⟩
  rw [htr v]
  split_ifs
  · rw [decode_clearU, translate_eq hva, leafAt_map_of_slot h0]
  · rfl

/-- No two pages below MAXVA share a leaf entry. -/
theorem TableOk.slot_ne_of_ne (h : TableOk s r) {v w : Nat} (hv : v * pgsize < maxva)
    (hw : w * pgsize < maxva) (hne : v ≠ w) (h0 : slot s.mem r (v * pgsize) ≠ 0) :
    slot s.mem r (v * pgsize) ≠ slot s.mem r (w * pgsize) := by
  by_cases hw0 : slot s.mem r (w * pgsize) = 0
  · rw [hw0]
    exact h0
  have hlv := live_of_slot_ne_zero h0
  have hlw := live_of_slot_ne_zero hw0
  have h0v := px_lt 0 (v * pgsize)
  have h0w := px_lt 0 (w * pgsize)
  have hps : pgsize = 4096 := rfl
  rw [slot_of_live hlv, slot_of_live hlw]
  by_cases hsame : Pos.low (px 2 (v * pgsize)) (px 1 (v * pgsize)) = Pos.low (px 2 (w * pgsize)) (px 1 (w * pgsize))
  · have hidx : indices (v * pgsize) ≠ indices (w * pgsize) := by
      rw [Ne, indices_eq_iff hw hv]
      simp only [hps] at *
      omega
    obtain ⟨h2, h1⟩ := Pos.low.injEq _ _ _ _ ▸ hsame
    have hx0 : px 0 (v * pgsize) ≠ px 0 (w * pgsize) := fun e => hidx (by simp [indices, h2, h1, e])
    rw [hsame]
    omega
  · have hpage : (Pos.low (px 2 (v * pgsize)) (px 1 (v * pgsize))).page s.mem r ≠
        (Pos.low (px 2 (w * pgsize)) (px 1 (w * pgsize))).page s.mem r := fun e => hsame (h.inj _ _ hlv hlw e)
    have hav := (h.live _ hlv).1.1
    have haw := (h.live _ hlw).1.1
    simp only [hps] at *
    omega

end Leaves

/-! ### mappages and uvmunmap in M -/

section Ops

variable {s s' : Phys} {r : Nat}

theorem mappages_eq {va size pa perm : Nat} {res : Int} (hres : mappages s r va size pa perm = some (s', res)) :
    va % pgsize = 0 ∧ size % pgsize = 0 ∧ 0 < size ∧
      mappagesFrom r perm (size / pgsize - 1) s (va / pgsize * pgsize) pa = some (s', res) := by
  unfold mappages at hres
  split_ifs at hres with h1 h2 h3
  have hva : va / pgsize * pgsize = va := Nat.div_mul_cancel (Nat.dvd_of_mod_eq_zero (Decidable.of_not_not h1))
  refine ⟨Decidable.of_not_not h1, Decidable.of_not_not h2, Nat.pos_of_ne_zero h3, ?_⟩
  rw [hva]
  exact hres

theorem TableOk.of_mappages {va size pa perm : Nat} {res : Int} (h : TableOk s r) (hpa : pa < 2 ^ 64)
    (hres : mappages s r va size pa perm = some (s', res)) : TableOk s' r :=
  (mappagesFrom_spec _ h hpa (mappages_eq hres).2.2.2).1

/-- mappages returning 0 found its pages unmapped, maps page `k` of the range
to `pa + k * PGSIZE` with `perm | PTE_V`, and leaves M alone elsewhere. -/
theorem TableOk.mappages_translate {va size pa perm : Nat} (h : TableOk s r) (hpa : pa % pgsize = 0)
    (hperm : perm < 2 ^ 10) (hfit : pa + size ≤ 2 ^ 64) (hres : mappages s r va size pa perm = some (s', 0)) :
    (∀ v, va / pgsize ≤ v → v < (va + size) / pgsize → translate s r v = none) ∧
    ∀ v, translate s' r v = if va / pgsize ≤ v ∧ v < (va + size) / pgsize
      then some (pa + (v - va / pgsize) * pgsize, perm ||| pteV) else translate s r v := by
  obtain ⟨hva, hsize, hpos, hfrom⟩ := mappages_eq hres
  have hps : pgsize = 4096 := rfl
  have hlt : pa < 2 ^ 64 := by omega
  obtain ⟨-, -, n, -, hn, hfresh, htr⟩ := mappagesFrom_spec _ h hlt hfrom
  have hn' : n = size / pgsize := by
    rcases hn with ⟨-, rfl⟩ | ⟨hne, -⟩
    · simp only [hps] at *
      omega
    · exact absurd hne (by decide)
  have hend : (va + size) / pgsize = va / pgsize + n := by
    simp only [hps, hn'] at *
    omega
  rw [hend]
  refine ⟨hfresh, fun v => ?_⟩
  rw [htr]
  split_ifs with hin
  · have hk : pa + (v - va / pgsize + 1) * pgsize ≤ 2 ^ 64 := by
      obtain ⟨h1, h2⟩ := hin
      simp only [hps, hn'] at *
      omega
    rw [decode_mapEntry hpa hperm hk]
  · rfl

theorem TableOk.uvmunmap_spec {va npages : Nat} {doFree : Bool} (h : TableOk s r) (hva : va % pgsize = 0)
    (hmax : va + npages * pgsize ≤ maxva)
    (hown : doFree = true → OwnsRange s r (va / pgsize) (va / pgsize + npages)) :
    ∃ s', uvmunmap s r va npages doFree = some s' ∧ TableOk s' r ∧ SameShape s.mem s'.mem r ∧
      s'.freelist = (if doFree then (mappedPages s r (va / pgsize) npages).reverse else []) ++ s.freelist ∧
      ∀ v, translate s' r v = if va / pgsize ≤ v ∧ v < va / pgsize + npages then none else translate s r v := by
  have hps : pgsize = 4096 := rfl
  have hvpn : va / pgsize * pgsize = va := Nat.div_mul_cancel (Nat.dvd_of_mod_eq_zero hva)
  have hbound : (va + npages * pgsize) % 2 ^ 64 = (va / pgsize + npages) * pgsize := by
    rw [Nat.mod_eq_of_lt (by simp only [maxva_eq] at hmax; omega), Nat.add_mul, hvpn]
  obtain ⟨s', hrun, hok, -, hshape, hfl, htr⟩ := uvmunmapFrom_spec npages h (by rw [← hbound]; omega) hown
  refine ⟨s', ?_, hok, hshape, hfl, htr⟩
  rw [uvmunmap, if_neg (by rw [hva]; decide), hbound]
  rw [hvpn] at hrun
  exact hrun

end Ops

/-! ### uvmfree -/

section Teardown

variable {s : Phys} {m m' : Nat → UInt8} {r : Nat}

theorem livePos_congr (h : SameShape m m' r) : livePos m' r = livePos m r := by
  have hl : ∀ x : Pos, x.Live m' r ↔ x.Live m r := fun x => (h x).1
  have hsub : subtree m' r = subtree m r := by
    funext i
    simp only [subtree, lowPos, hl]
  rw [livePos, livePos, hsub]

theorem tablePages_congr (h : SameShape m m' r) : tablePages m' r = tablePages m r := by
  rw [tablePages, tablePages, livePos_congr h]
  exact List.map_congr_left fun x hx => (h x).2 (mem_livePos.mp hx)

theorem mem_mappedPages {lo n p : Nat} :
    p ∈ mappedPages s r lo n ↔ ∃ v e, lo ≤ v ∧ v < lo + n ∧ translate s r v = some e ∧ e.1 = p := by
  simp only [mappedPages, List.mem_filterMap, List.mem_range'_1, Option.map_eq_some_iff]
  constructor
  · rintro ⟨v, ⟨h1, h2⟩, e, he, rfl⟩
    exact ⟨v, e, h1, h2, he, rfl⟩
  · rintro ⟨v, e, h1, h2, he, rfl⟩
    exact ⟨v, ⟨h1, h2⟩, e, he, rfl⟩

theorem OwnsRange.nodup_mappedPages {lo n : Nat} (h : OwnsRange s r lo (lo + n)) :
    (mappedPages s r lo n).Nodup := by
  induction n generalizing lo with
  | zero => simp [mappedPages]
  | succ n ih =>
    have h' : OwnsRange s r (lo + 1) (lo + 1 + n) := by
      rw [show lo + 1 + n = lo + (n + 1) by omega]
      exact h.succ
    rw [mappedPages_succ]
    refine List.nodup_append.mpr ⟨?_, ih h', fun a ha b hb hab => ?_⟩
    · cases translate s r lo <;> simp
    · obtain ⟨e, he, rfl⟩ := Option.map_eq_some_iff.mp (Option.mem_toList.mp ha)
      obtain ⟨w, f, hw1, hw2, hf, rfl⟩ := mem_mappedPages.mp hb
      have := h.2 lo w le_rfl (by omega) (by omega) (by omega) e f he hf hab
      omega

/-- uvmfree of a table whose leaves lie below `PGROUNDUP(sz)` and map pages it
owns: it frees the user pages in page order, then every page of the table. -/
theorem TableOk.uvmfree_spec {sz : Nat} (h : TableOk s r) (hsz : pgroundup sz ≤ maxva)
    (hbelow : ∀ v e, translate s r v = some e → v * pgsize < pgroundup sz)
    (hown : OwnsRange s r 0 (pgroundup sz / pgsize)) :
    ∃ s', uvmfree s r sz = some s' ∧
      s'.freelist = (mappedPages s r 0 (pgroundup sz / pgsize) ++ tablePages s.mem r).reverse ++ s.freelist := by
  have hps : pgsize = 4096 := rfl
  have hal : pgroundup sz % pgsize = 0 := by
    simp only [pgroundup, pgrounddown, hps]
    omega
  have hn : pgroundup sz / pgsize * pgsize = pgroundup sz := Nat.div_mul_cancel (Nat.dvd_of_mod_eq_zero hal)
  obtain ⟨s1, hs1, hok1, hshape, hfl, htr⟩ := h.uvmunmap_spec (show 0 % pgsize = 0 by decide)
    (show 0 + pgroundup sz / pgsize * pgsize ≤ maxva by omega)
    (fun (_ : true = true) => by rwa [Nat.zero_div, Nat.zero_add])
  -- uvmfree is the unmap, a no-op when `sz` is 0, and then freewalk
  have hu : uvmfree s r sz = freewalk 3 s1 r := by
    unfold uvmfree
    by_cases hsz0 : sz > 0
    · rw [if_pos hsz0, hs1]
    · obtain rfl : sz = 0 := by omega
      rw [show pgroundup 0 / pgsize = 0 by decide, uvmunmap, if_neg (by decide), uvmunmapFrom_stop (by decide)] at hs1
      rw [if_neg hsz0, ← Option.some.inj hs1]
  have hempty : ∀ v, translate s1 r v = none := by
    intro v
    rw [htr v]
    split_ifs with hv
    · rfl
    · rcases hv' : translate s r v with _ | e
      · rfl
      · have hlt := hbelow v e hv'
        rw [← hn] at hlt
        have hlt' := Nat.lt_of_mul_lt_mul_right hlt
        simp only [Nat.zero_div, Nat.zero_le, true_and, Nat.zero_add, not_lt] at hv
        omega
  obtain ⟨s', hw, -, hfl', -⟩ := hok1.freewalk_empty hempty
  refine ⟨s', hu.trans hw, ?_⟩
  rw [hfl', hfl, tablePages_congr hshape, if_pos rfl, Nat.zero_div, List.reverse_append, List.append_assoc]

end Teardown

end Xv6Mlfq.PageTable

namespace Xv6Mlfq.PageMap

open ByteMem Vm PageTable

/-! ### The runs from uvmcreate -/

/-- Physical memory as kinit leaves it: the free list holds distinct pages
that kfree takes, above the kernel's end. -/
structure KmemOk (s : Phys) : Prop where
  kend_pos : 0 < s.kend
  nodup : s.freelist.Nodup
  free : ∀ p ∈ s.freelist, Freeable s p

/-- The operations of vm.c on one page table, with their arguments. -/
inductive VmOp
  | walk (va : Nat)
  | mappages (va size pa perm : Nat)
  | uvmunmap (va npages : Nat) (doFree : Bool)
  | uvmclear (va : Nat)
  deriving DecidableEq, Repr

/-- One operation on the table at `r`; `none` is a panic. -/
def vmStep (r : Nat) (s : Phys) : VmOp → Option Phys
  | .walk va => (walk s r va true).map Prod.fst
  | .mappages va size pa perm => (mappages s r va size pa perm).map Prod.fst
  | .uvmunmap va npages doFree => uvmunmap s r va npages doFree
  | .uvmclear va => uvmclear s r va

/-- The calls the kernel makes: a uint64 physical address for mappages,
uvmunmap below MAXVA, and do_free only on pages mapped once that are neither
free nor page-table pages. -/
def Disciplined (r : Nat) (s : Phys) : VmOp → Prop
  | .walk _ => True
  | .mappages _ _ pa _ => pa < 2 ^ 64
  | .uvmunmap va npages doFree =>
      va + npages * pgsize ≤ maxva ∧ (doFree = true → OwnsRange s r (va / pgsize) (va / pgsize + npages))
  | .uvmclear _ => True

/-- The tables a run of disciplined operations reaches from uvmcreate. -/
inductive Reach (r : Nat) : Phys → Prop
  | create {s0 s : Phys} : KmemOk s0 → uvmcreate s0 = (s, r) → r ≠ 0 → Reach r s
  | step {s s' : Phys} (op : VmOp) : Reach r s → Disciplined r s op → vmStep r s op = some s' → Reach r s'

section Create

variable {s0 s : Phys} {r : Nat}

theorem uvmcreate_cases (hc : uvmcreate s0 = (s, r)) (hr : r ≠ 0) :
    ∃ rest, s0.freelist = r :: rest ∧ s = { s0 with mem := fill s0.mem r pgsize 0, freelist := rest } := by
  rcases hfree : s0.freelist with _ | ⟨p, rest⟩
  · rw [uvmcreate, kalloc_of_nil hfree] at hc
    exact absurd (congrArg Prod.snd hc).symm hr
  rw [uvmcreate, kalloc_of_cons hfree] at hc
  dsimp only at hc
  by_cases hp : p = 0
  · rw [if_pos hp] at hc
    exact absurd (congrArg Prod.snd hc).symm hr
  rw [if_neg hp] at hc
  simp only [Prod.mk.injEq, fill_fill_self] at hc
  obtain ⟨rfl, rfl⟩ := hc
  exact ⟨rest, rfl, rfl⟩

theorem uvmcreate_root_invalid (hc : uvmcreate s0 = (s, r)) (hr : r ≠ 0) {i : Nat} (hi : i < 512) :
    ¬ Valid (entry s.mem r i) := by
  obtain ⟨rest, -, rfl⟩ := uvmcreate_cases hc hr
  rw [entry_fill_zero hi]
  exact not_valid_zero

theorem tableOk_uvmcreate (h0 : KmemOk s0) (hc : uvmcreate s0 = (s, r)) (hr : r ≠ 0) : TableOk s r := by
  have hinv := fun i (hi : i < 512) => uvmcreate_root_invalid hc hr hi
  obtain ⟨rest, hfree, rfl⟩ := uvmcreate_cases hc hr
  have hnd : (r :: rest).Nodup := hfree ▸ h0.nodup
  have hF : ∀ q ∈ r :: rest, Freeable s0 q := hfree ▸ h0.free
  have hroot : ∀ x : Pos, x.Live (fill s0.mem r pgsize 0) r → x = .root := by
    intro x hx
    cases x with
    | root => rfl
    | mid i => exact absurd hx.2 (hinv i hx.1)
    | low i j => exact absurd hx.2.1 (hinv i hx.1)
  refine ⟨h0.kend_pos, (List.nodup_cons.mp hnd).2, fun q hq => hF q (List.mem_cons_of_mem _ hq),
    fun x hx => ?_, fun x y hx hy _ => (hroot x hx).trans (hroot y hy).symm,
    fun i _ hi => hinv i hi, fun x hx _ i hi hv => absurd hv ?_⟩
  · rw [hroot x hx]
    exact ⟨hF r List.mem_cons_self, (List.nodup_cons.mp hnd).1⟩
  · rw [hroot x hx]
    exact hinv i hi

theorem translate_uvmcreate (hc : uvmcreate s0 = (s, r)) (hr : r ≠ 0) (v : Nat) : translate s r v = none := by
  by_cases hv : v * pgsize < maxva
  · rw [translate_eq hv, Option.map_eq_none_iff, leafAt_eq_none_iff]
    rintro ⟨h0, -⟩
    apply h0
    rw [slot, if_neg]
    rintro ⟨hi, hv2, -⟩
    exact uvmcreate_root_invalid hc hr hi hv2
  · exact translate_of_ge (Nat.not_lt.mp hv)

end Create

/-- One disciplined operation keeps the table in shape. -/
theorem tableOk_of_vmStep {s s' : Phys} {r : Nat} {op : VmOp} (h : TableOk s r) (hd : Disciplined r s op)
    (hs : vmStep r s op = some s') : TableOk s' r := by
  cases op with
  | walk va =>
    obtain ⟨⟨s1, a⟩, hw, rfl⟩ := Option.map_eq_some_iff.mp hs
    by_cases hva : va < maxva
    · obtain ⟨s2, a2, hw2, hok, -⟩ := h.walk_true hva
      rw [hw] at hw2
      cases hw2
      exact hok
    · rw [walk, if_pos (Nat.not_lt.mp hva)] at hw
      cases hw
  | mappages va size pa perm =>
    obtain ⟨⟨s1, res⟩, hm, rfl⟩ := Option.map_eq_some_iff.mp hs
    exact h.of_mappages hd hm
  | uvmunmap va npages doFree =>
    have hva : va % pgsize = 0 := by
      by_contra hne
      simp only [vmStep, uvmunmap, if_pos hne] at hs
      cases hs
    obtain ⟨s2, hs2, hok, -⟩ := h.uvmunmap_spec hva hd.1 hd.2
    simp only [vmStep] at hs
    rw [hs2] at hs
    cases hs
    exact hok
  | uvmclear va => exact h.of_uvmclear hs

theorem Reach.tableOk {r : Nat} {s : Phys} (h : Reach r s) : TableOk s r := by
  induction h with
  | create h0 hc hr => exact tableOk_uvmcreate h0 hc hr
  | step op _ hd hs ih => exact tableOk_of_vmStep ih hd hs

/-! ### A table to run them on

Three free pages above the kernel: uvmcreate takes the first as the root, and
mapping page 0 takes the other two for the level-1 and level-0 pages. -/

def kmemDemo : Phys where
  mem := fun _ => 0
  freelist := [0x80003000, 0x80002000, 0x80001000]
  kend := 0x80000000

def tableDemo : Phys := (uvmcreate kmemDemo).1

def rootDemo : Nat := (uvmcreate kmemDemo).2

theorem reach_tableDemo : Reach rootDemo tableDemo :=
  .create (show KmemOk kmemDemo from ⟨by decide, by decide, by decide⟩) rfl (by decide)

/-- The demo table with pages 0 and 1 mapped, user-readable, to `0x80004000`
and `0x80005000`; the walk takes the two other free pages. -/
def mappedDemo : Phys :=
  ((mappages tableDemo rootDemo 0 (2 * pgsize) 0x80004000 (pteR ||| pteU)).getD (tableDemo, 0)).1

theorem mappages_tableDemo :
    mappages tableDemo rootDemo 0 (2 * pgsize) 0x80004000 (pteR ||| pteU) = some (mappedDemo, 0) :=
  rfl

theorem reach_mappedDemo : Reach rootDemo mappedDemo :=
  .step (.mappages 0 (2 * pgsize) 0x80004000 (pteR ||| pteU)) reach_tableDemo
    (show 0x80004000 < 2 ^ 64 by decide) (by rw [vmStep, mappages_tableDemo]; rfl)

theorem translate_mappedDemo (v : Nat) :
    translate mappedDemo rootDemo v =
      if v < 2 then some (0x80004000 + v * pgsize, pteR ||| pteU ||| pteV) else none := by
  have htr := (reach_tableDemo.tableOk.mappages_translate (by decide) (by decide) (by decide)
    mappages_tableDemo).2 v
  have hlo : 0 / pgsize = 0 := rfl
  have hhi : (0 + 2 * pgsize) / pgsize = 2 := rfl
  rw [htr, hlo, hhi, translate_uvmcreate (show uvmcreate kmemDemo = (tableDemo, rootDemo) from rfl)
    (by decide)]
  simp only [Nat.zero_le, true_and, Nat.sub_zero]

theorem tablePages_mappedDemo : tablePages mappedDemo.mem rootDemo = [0x80001000, 0x80002000, 0x80003000] := by
  decide +kernel

theorem ownsRange_mappedDemo : OwnsRange mappedDemo rootDemo 0 2 := by
  have hfree : mappedDemo.freelist = [] := rfl
  refine ⟨fun v _ hv e he => ?_, fun v w _ hv _ hw e f he hf hef => ?_⟩
  · rw [translate_mappedDemo, if_pos hv, Option.some.injEq] at he
    subst he
    have hmem : ∀ x : Pos, x.Live mappedDemo.mem rootDemo → x.page mappedDemo.mem rootDemo ∈
        [0x80001000, 0x80002000, 0x80003000] := fun x hx =>
      tablePages_mappedDemo ▸ mem_tablePages.mpr ⟨x, hx, rfl⟩
    rcases (by omega : v = 0 ∨ v = 1) with rfl | rfl
    all_goals
      refine ⟨by decide, by rw [hfree]; simp, fun x hx hpx => ?_⟩
      have hx' := hmem x hx
      rw [hpx] at hx'
      revert hx'
      decide
  · rw [translate_mappedDemo, if_pos hv] at he
    rw [translate_mappedDemo, if_pos hw] at hf
    cases he
    cases hf
    simp only [Nat.add_left_cancel_iff] at hef
    exact Nat.eq_of_mul_eq_mul_right (by decide) hef

/-! ### What holds of every reachable table -/

section Runs

variable {r : Nat} {s s' : Phys}

theorem reach_table_pages (h : Reach r s) :
    s.freelist.Nodup ∧ (∀ p ∈ s.freelist, Freeable s p) ∧ (tablePages s.mem r).Nodup ∧
      ∀ p ∈ tablePages s.mem r, Freeable s p ∧ p ∉ s.freelist := by
  have hok := h.tableOk
  refine ⟨hok.nodup, hok.free, hok.nodup_tablePages, fun p hp => ?_⟩
  obtain ⟨x, hx, rfl⟩ := mem_tablePages.mp hp
  exact hok.live x hx

theorem table_pages_mappedDemo :
    Reach rootDemo mappedDemo ∧ mappedDemo.freelist.Nodup ∧ (∀ p ∈ mappedDemo.freelist, Freeable mappedDemo p) ∧
      (tablePages mappedDemo.mem rootDemo).Nodup ∧
        ∀ p ∈ tablePages mappedDemo.mem rootDemo, Freeable mappedDemo p ∧ p ∉ mappedDemo.freelist :=
  ⟨reach_mappedDemo, reach_table_pages reach_mappedDemo⟩

/-- mappages returning 0 on a reachable table found its pages unmapped, maps
page `k` of the range to `pa + k * PGSIZE` with `perm | PTE_V`, leaves every
other page alone, and walkaddr then returns that address exactly when `perm`
has `PTE_U`. -/
theorem reach_mappages (h : Reach r s) {va size pa perm : Nat} (hpa : pa % pgsize = 0) (hperm : perm < 2 ^ 10)
    (hfit : pa + size ≤ 2 ^ 64) (hres : mappages s r va size pa perm = some (s', 0)) :
    Reach r s' ∧ (∀ v, va / pgsize ≤ v → v < (va + size) / pgsize → translate s r v = none) ∧
      (∀ v, translate s' r v = if va / pgsize ≤ v ∧ v < (va + size) / pgsize
        then some (pa + (v - va / pgsize) * pgsize, perm ||| pteV) else translate s r v) ∧
      ∀ v, v * pgsize < maxva → walkaddr s' r (v * pgsize) =
        if va / pgsize ≤ v ∧ v < (va + size) / pgsize then
          (if perm &&& pteU = 0 then 0 else pa + (v - va / pgsize) * pgsize)
        else walkaddr s r (v * pgsize) := by
  obtain ⟨-, -, hpos, -⟩ := mappages_eq hres
  obtain ⟨hfresh, htr⟩ := h.tableOk.mappages_translate hpa hperm hfit hres
  have hstep : vmStep r s (.mappages va size pa perm) = some s' := by
    rw [vmStep, hres]
    rfl
  refine ⟨.step (.mappages va size pa perm) h (show pa < 2 ^ 64 by omega) hstep, hfresh, htr, fun v hv => ?_⟩
  rw [walkaddr_eq hv, walkaddr_eq hv, htr v]
  by_cases hin : va / pgsize ≤ v ∧ v < (va + size) / pgsize
  · rw [if_pos hin, if_pos hin]
    simp only [or_pteV_and_pteU]
  · rw [if_neg hin, if_neg hin]

theorem mappages_demo_walkaddr :
    Reach rootDemo tableDemo ∧
      mappages tableDemo rootDemo 0 (2 * pgsize) 0x80004000 (pteR ||| pteU) = some (mappedDemo, 0) ∧
      walkaddr mappedDemo rootDemo (0 * pgsize) = 0x80004000 ∧
      walkaddr mappedDemo rootDemo (1 * pgsize) = 0x80005000 ∧
      walkaddr mappedDemo rootDemo (2 * pgsize) = 0 := by
  obtain ⟨-, -, -, hwalk⟩ := reach_mappages reach_tableDemo (by decide) (by decide) (by decide) mappages_tableDemo
  refine ⟨reach_tableDemo, mappages_tableDemo, ?_, ?_, ?_⟩
  · rw [hwalk 0 (by decide)]
    decide
  · rw [hwalk 1 (by decide)]
    decide
  · rw [hwalk 2 (by decide), if_neg (by decide)]
    decide

theorem reach_uvmunmap (h : Reach r s) {va npages : Nat} {doFree : Bool} (hva : va % pgsize = 0)
    (hmax : va + npages * pgsize ≤ maxva)
    (hown : doFree = true → OwnsRange s r (va / pgsize) (va / pgsize + npages)) :
    ∃ s', uvmunmap s r va npages doFree = some s' ∧ Reach r s' ∧
      (doFree = true → (mappedPages s r (va / pgsize) npages).Nodup) ∧
      s'.freelist = (if doFree then (mappedPages s r (va / pgsize) npages).reverse else []) ++ s.freelist ∧
      ∀ v, translate s' r v = if va / pgsize ≤ v ∧ v < va / pgsize + npages then none else translate s r v := by
  obtain ⟨s', hs, -, -, hfl, htr⟩ := h.tableOk.uvmunmap_spec hva hmax hown
  exact ⟨s', hs, .step (.uvmunmap va npages doFree) h ⟨hmax, hown⟩ hs,
    fun hd => (hown hd).nodup_mappedPages, hfl, htr⟩

theorem uvmunmap_demo :
    ∃ s', uvmunmap mappedDemo rootDemo 0 2 true = some s' ∧ Reach rootDemo s' ∧
      s'.freelist = [0x80005000, 0x80004000] ++ mappedDemo.freelist ∧
      translate s' rootDemo 0 = none ∧ translate s' rootDemo 1 = none := by
  obtain ⟨s', hs, hreach, -, hfl, htr⟩ :=
    reach_uvmunmap reach_mappedDemo (show 0 % pgsize = 0 by decide) (show 0 + 2 * pgsize ≤ maxva by decide)
      (fun _ => ownsRange_mappedDemo)
  have hpages : mappedPages mappedDemo rootDemo (0 / pgsize) 2 = [0x80004000, 0x80005000] := by
    simp [mappedPages, List.range', translate_mappedDemo, pgsize]
  refine ⟨s', hs, hreach, by rw [hfl, if_pos rfl, hpages]; rfl, ?_, ?_⟩
  · rw [htr 0, if_pos (by decide)]
  · rw [htr 1, if_pos (by decide)]

theorem reach_uvmclear (h : Reach r s) {vpn : Nat} (hs : uvmclear s r (vpn * pgsize) = some s') :
    Reach r s' ∧ walkaddr s' r (vpn * pgsize) = 0 ∧
      ∀ v, translate s' r v = if v = vpn then
        (translate s r vpn).map (fun e => (e.1, e.2 &&& (2 ^ 64 - 1 - pteU))) else translate s r v := by
  obtain ⟨hva, -, -⟩ := uvmclear_cases hs
  obtain ⟨-, htr⟩ := h.tableOk.uvmclear_translate hs
  refine ⟨.step (.uvmclear _) h trivial hs, ?_, htr⟩
  rw [walkaddr_eq hva, htr vpn, if_pos rfl]
  cases translate s r vpn with
  | none => rfl
  | some e =>
    simp only [Option.map_some]
    rw [if_pos (by rw [Nat.land_assoc, show (2 ^ 64 - 1 - pteU) &&& pteU = 0 by decide, Nat.and_zero])]

theorem uvmclear_demo :
    ∃ s', uvmclear mappedDemo rootDemo 0 = some s' ∧ Reach rootDemo s' ∧ walkaddr s' rootDemo 0 = 0 := by
  obtain ⟨s', hs⟩ : ∃ s', uvmclear mappedDemo rootDemo (0 * pgsize) = some s' := ⟨_, rfl⟩
  obtain ⟨hreach, hwalk, -⟩ := reach_uvmclear reach_mappedDemo hs
  exact ⟨s', hs, hreach, hwalk⟩

theorem reach_walk_slots_distinct (h : Reach r s) {v w : Nat} (hv : v * pgsize < maxva) (hw : w * pgsize < maxva)
    (hne : v ≠ w) :
    ∃ p q, walk s r (v * pgsize) false = some (s, p) ∧ walk s r (w * pgsize) false = some (s, q) ∧
      (p = 0 ∨ p ≠ q) := by
  refine ⟨_, _, walk_false s r hv, walk_false s r hw, ?_⟩
  by_cases h0 : slot s.mem r (v * pgsize) = 0
  · exact Or.inl h0
  · exact Or.inr (h.tableOk.slot_ne_of_ne hv hw hne h0)

theorem walk_slots_demo :
    ∃ p q, walk mappedDemo rootDemo (0 * pgsize) false = some (mappedDemo, p) ∧
      walk mappedDemo rootDemo (1 * pgsize) false = some (mappedDemo, q) ∧ (p = 0 ∨ p ≠ q) :=
  reach_walk_slots_distinct reach_mappedDemo (by decide) (by decide) (by decide)

theorem reach_uvmfree (h : Reach r s) {sz : Nat} (hsz : pgroundup sz ≤ maxva)
    (hbelow : ∀ v e, translate s r v = some e → v * pgsize < pgroundup sz)
    (hown : OwnsRange s r 0 (pgroundup sz / pgsize)) :
    ∃ s', uvmfree s r sz = some s' ∧
      (mappedPages s r 0 (pgroundup sz / pgsize) ++ tablePages s.mem r).Nodup ∧
      s'.freelist = (mappedPages s r 0 (pgroundup sz / pgsize) ++ tablePages s.mem r).reverse ++ s.freelist := by
  have hok := h.tableOk
  obtain ⟨s', hu, hfl⟩ := hok.uvmfree_spec hsz hbelow hown
  have hown' : OwnsRange s r 0 (0 + pgroundup sz / pgsize) := by rwa [Nat.zero_add]
  refine ⟨s', hu, List.nodup_append.mpr ⟨hown'.nodup_mappedPages, hok.nodup_tablePages, ?_⟩, hfl⟩
  intro a ha b hb hab
  obtain ⟨v, e, -, hv, he, rfl⟩ := mem_mappedPages.mp ha
  obtain ⟨x, hx, rfl⟩ := mem_tablePages.mp hb
  exact (hown.1 v (Nat.zero_le _) (by omega) e he).2.2 x hx hab.symm

theorem uvmfree_mappedDemo :
    ∃ s', uvmfree mappedDemo rootDemo (2 * pgsize) = some s' ∧
      s'.freelist = [0x80003000, 0x80002000, 0x80001000, 0x80005000, 0x80004000] ++ mappedDemo.freelist := by
  have hn : pgroundup (2 * pgsize) / pgsize = 2 := by decide
  have hpages : mappedPages mappedDemo rootDemo 0 2 = [0x80004000, 0x80005000] := by
    simp [mappedPages, List.range', translate_mappedDemo, pgsize]
  have hbelow : ∀ v e, translate mappedDemo rootDemo v = some e → v * pgsize < pgroundup (2 * pgsize) := by
    intro v e he
    rw [translate_mappedDemo] at he
    split_ifs at he with hv
    have hup : pgroundup (2 * pgsize) = 2 * pgsize := by decide
    rw [hup]
    exact Nat.mul_lt_mul_of_pos_right hv (by decide)
  obtain ⟨s', hu, -, hfl⟩ := reach_uvmfree reach_mappedDemo (by decide) hbelow (by rw [hn]; exact ownsRange_mappedDemo)
  refine ⟨s', hu, ?_⟩
  rw [hfl, hn, hpages, tablePages_mappedDemo]
  rfl

end Runs

end Xv6Mlfq.PageMap
