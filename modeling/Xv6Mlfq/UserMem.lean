import Xv6Mlfq.PageMap

/-!
User memory in vm.c: the lazy-allocation fault handler `vmfault`, the copies
`copyout`, `copyin` and `copyinstr`, and `uvmalloc`, `uvmdealloc` and
`uvmcopy`, over the physical memory and page tables of `Xv6Mlfq.Vm`.

`sz` stands for `myproc()->sz`, which vmfault reads.  A copy returns the
bytes it moved as a list, with the C return value.
-/

namespace Xv6Mlfq.UserMem

open ByteMem Vm PageTable PageMap

/-- vmfault (vm.c): map a zeroed page at `va` when it lies below `sz` and is
not mapped yet; the page, or 0.  `none` is a panic in walk or mappages. -/
def vmfault (s : Phys) (sz pagetable va : Nat) : Option (Phys × Nat) :=
  if sz ≤ va then some (s, 0)
  else
    let va := pgrounddown va
    match ismapped s pagetable va with
    | none => none
    | some true => some (s, 0)
    | some false =>
      let r := kalloc s
      if r.2 = 0 then some (r.1, 0)
      else
        let s := { r.1 with mem := fill r.1.mem r.2 pgsize 0 }
        match mappages s pagetable va pgsize r.2 (pteW ||| pteU ||| pteR) with
        | none => none
        | some (s, ret) =>
          if ret ≠ 0 then (kfree s r.2).map fun s => (s, 0) else some (s, r.2)

/-- copyin's loop: the bytes read from `srcva` on, and 0, or -1 where a page
is neither mapped nor mapped by vmfault. -/
def copyin (s : Phys) (sz pagetable srcva len : Nat) : Option (Phys × List UInt8 × Int) :=
  if _hlen : len = 0 then some (s, [], 0)
  else
    let va0 := pgrounddown srcva
    let pa0 := walkaddr s pagetable va0
    match (if pa0 = 0 then vmfault s sz pagetable va0 else some (s, pa0)) with
    | none => none
    | some (s, pa0) =>
      if pa0 = 0 then some (s, [], -1)
      else
        let n := min (pgsize - (srcva - va0)) len
        let bs := bytes s.mem (pa0 + (srcva - va0)) n
        (copyin s sz pagetable (va0 + pgsize) (len - n)).map fun r => (r.1, bs ++ r.2.1, r.2.2)
termination_by len
decreasing_by
  have : srcva - pgrounddown srcva < pgsize := by
    simp only [pgrounddown, pgsize]
    omega
  omega

/-- copyout's loop: the memory after writing `src` from `dstva` on, and 0,
or -1 at MAXVA, at a page that cannot be mapped, or at a read-only page. -/
def copyout (s : Phys) (sz pagetable dstva : Nat) (src : List UInt8) : Option (Phys × Int) :=
  if _hlen : src.length = 0 then some (s, 0)
  else
    let va0 := pgrounddown dstva
    if maxva ≤ va0 then some (s, -1)
    else
      let pa0 := walkaddr s pagetable va0
      match (if pa0 = 0 then vmfault s sz pagetable va0 else some (s, pa0)) with
      | none => none
      | some (s, pa0) =>
        if pa0 = 0 then some (s, -1)
        else
          match walk s pagetable va0 false with
          | none => none
          | some (_, pte) =>
            if pteAt s.mem pte &&& pteW = 0 then some (s, -1)
            else
              let n := min (pgsize - (dstva - va0)) src.length
              let s := { s with mem := put s.mem (pa0 + (dstva - va0)) (src.take n) }
              copyout s sz pagetable (va0 + pgsize) (src.drop n)
termination_by src.length
decreasing_by
  have : dstva - pgrounddown dstva < pgsize := by
    simp only [pgrounddown, pgsize]
    omega
  simp only [List.length_drop]
  omega

/-- copyinstr's inner loop over `n` bytes from `p`: the bytes copied to `dst`,
the NUL included, and whether it was found. -/
def copyStr (m : Nat → UInt8) (p : Nat) : Nat → List UInt8 × Bool
  | 0 => ([], false)
  | n + 1 =>
    if m p = 0 then ([0], true)
    else
      let r := copyStr m (p + 1) n
      (m p :: r.1, r.2)

/-- copyinstr (vm.c): the bytes copied and 0 once a NUL is copied, or -1 at
an unmapped page or after `max` bytes without one.  It never calls vmfault. -/
def copyinstr (s : Phys) (pagetable srcva max : Nat) : List UInt8 × Int :=
  if _hmax : max = 0 then ([], -1)
  else
    let va0 := pgrounddown srcva
    let pa0 := walkaddr s pagetable va0
    if pa0 = 0 then ([], -1)
    else
      let n := min (pgsize - (srcva - va0)) max
      let r := copyStr s.mem (pa0 + (srcva - va0)) n
      if r.2 then (r.1, 0)
      else
        let rest := copyinstr s pagetable (va0 + pgsize) (max - n)
        (r.1 ++ rest.1, rest.2)
termination_by max
decreasing_by
  have : srcva - pgrounddown srcva < pgsize := by
    simp only [pgrounddown, pgsize]
    omega
  omega

/-- The user view of the process at `va`: below `sz`, the byte of its mapped
user page, or 0 for a page sbrk has not yet had mapped. -/
def userView (s : Phys) (pagetable sz va : Nat) : Option UInt8 :=
  if sz ≤ va then none
  else
    let pa := walkaddr s pagetable (pgrounddown va)
    if pa = 0 then some 0 else some (s.mem (pa + (va - pgrounddown va)))

/-- A process whose first page is lazily allocated: `sz` is one page and its
page table, the zeroed page `0x80050000`, maps nothing. -/
def lazyDemo : Phys where
  mem := fun _ => 0
  freelist := [0x80060000, 0x80061000, 0x80062000]
  kend := 0x80040000

theorem copyinstr_user_view_fails :
    userView lazyDemo 0x80050000 4096 0 = some 0 ∧
      copyinstr lazyDemo 0x80050000 0 1 = ([], -1) ∧
      (copyin lazyDemo 4096 0x80050000 0 1).map (fun r => (r.2.1, r.2.2)) = some ([0], 0) := by
  have hwalk : walkaddr lazyDemo 0x80050000 0 = 0 := by decide
  refine ⟨by simp [userView, hwalk, pgrounddown], ?_, ?_⟩
  · rw [copyinstr, dif_neg (by decide)]
    simp [pgrounddown, hwalk]
  · have hfault : (vmfault lazyDemo 4096 0x80050000 0).map (fun r => (r.2, r.1.mem 0x80060000)) =
        some (0x80060000, 0) := by
      decide
    rcases hv : vmfault lazyDemo 4096 0x80050000 0 with _ | ⟨s1, pa⟩
    · rw [hv] at hfault
      cases hfault
    · rw [hv] at hfault
      simp only [Option.map_some, Option.some.injEq, Prod.mk.injEq] at hfault
      obtain ⟨rfl, hbyte⟩ := hfault
      rw [copyin, dif_neg (by decide)]
      simp only [pgrounddown, pgsize, Nat.zero_mod, Nat.sub_zero, hwalk, if_true, hv]
      rw [copyin, dif_pos (by decide)]
      simp [bytes, hbyte]

/-! ### Growing, shrinking and copying address spaces -/

/-- A count stored in an `int` and passed on as a `uint64`: its low 32 bits,
sign-extended. -/
def intToU64 (x : Nat) : Nat :=
  if x % 2 ^ 32 < 2 ^ 31 then x % 2 ^ 32 else x % 2 ^ 32 + (2 ^ 64 - 2 ^ 32)

/-- uvmdealloc (vm.c): unmap and free the pages from `PGROUNDUP(newsz)` up to
`PGROUNDUP(oldsz)`; the new size. -/
def uvmdealloc (s : Phys) (pagetable oldsz newsz : Nat) : Option (Phys × Nat) :=
  if oldsz ≤ newsz then some (s, oldsz)
  else if pgroundup newsz < pgroundup oldsz then
    let npages := intToU64 ((pgroundup oldsz - pgroundup newsz) / pgsize)
    (uvmunmap s pagetable (pgroundup newsz) npages true).map fun s => (s, newsz)
  else some (s, newsz)

/-- uvmalloc's loop from `a`: a zeroed page mapped at each page below
`newsz`; on a failed kalloc or mappages, back to `oldsz` (already rounded up)
and 0. -/
def uvmallocFrom (pagetable oldsz newsz xperm : Nat) (s : Phys) (a : Nat) : Option (Phys × Nat) :=
  if _h : a < newsz then
    let r := kalloc s
    if r.2 = 0 then (uvmdealloc r.1 pagetable a oldsz).map fun r => (r.1, 0)
    else
      let s := { r.1 with mem := fill r.1.mem r.2 pgsize 0 }
      match mappages s pagetable a pgsize r.2 (pteR ||| pteU ||| xperm) with
      | none => none
      | some (s, ret) =>
        if ret ≠ 0 then
          match kfree s r.2 with
          | none => none
          | some s => (uvmdealloc s pagetable a oldsz).map fun r => (r.1, 0)
        else uvmallocFrom pagetable oldsz newsz xperm s (a + pgsize)
  else some (s, newsz)
termination_by newsz - a
decreasing_by simp only [pgsize]; omega

/-- uvmalloc (vm.c): the new size, or 0. -/
def uvmalloc (s : Phys) (pagetable oldsz newsz xperm : Nat) : Option (Phys × Nat) :=
  if newsz < oldsz then some (s, oldsz)
  else uvmallocFrom pagetable (pgroundup oldsz) newsz xperm s (pgroundup oldsz)

section Copy

variable {old new sz k : Nat} {s₀ s s2 s3 s' : Phys}

theorem agree_copy_page {m : Nat → UInt8} {p q src : Nat} (hp : p % pgsize = 0) (hq : q % pgsize = 0)
    (hne : p ≠ q) : Agree m (copy m p src pgsize) q pgsize :=
  agree_copy (by simp only [pgsize] at *; omega)

theorem tableOk_kallocCopy {r p pa : Nat} {rest : List Nat} (h : TableOk s r) (hfree : s.freelist = p :: rest) :
    TableOk { s with mem := copy (fill s.mem p pgsize 5) p pa pgsize, freelist := rest } r ∧
      SameShape s.mem (copy (fill s.mem p pgsize 5) p pa pgsize) r ∧
      translate { s with mem := copy (fill s.mem p pgsize 5) p pa pgsize, freelist := rest } r = translate s r := by
  have hpF := h.free p (by rw [hfree]; exact List.mem_cons_self)
  have hagree : ∀ x : Pos, x.Live s.mem r →
      Agree s.mem (copy (fill s.mem p pgsize 5) p pa pgsize) (x.page s.mem r) pgsize := by
    intro x hx
    obtain ⟨hxF, hxfree⟩ := h.live x hx
    have hne : p ≠ x.page s.mem r := fun e => hxfree (by rw [← e, hfree]; exact List.mem_cons_self)
    exact (agree_fill_page hpF.1 hxF.1 hne).trans (agree_copy_page hpF.1 hxF.1 hne)
  obtain ⟨hsame, hleaf⟩ := same_of_agree hagree
  have hnd : rest.Nodup := (List.nodup_cons.mp (hfree ▸ h.nodup)).2
  exact ⟨h.of_agree rfl hnd (fun q hq => .inl (by rw [hfree]; exact List.mem_cons_of_mem _ hq))
    (fun x hx _ => hagree x hx), hsame, translate_congr_leaves hleaf⟩

/-- What uvmcopy's loop keeps of the child `new` from `s₀` on, up to page `k`:
the table in shape; its map from page `k` on as in `s₀`; the copies below `k`
owned by it; the free list only shrunk; and each page taken off it a page of
the child's table or a copy below `k`. -/
structure CopyOk (s₀ s : Phys) (new k : Nat) : Prop where
  table : TableOk s new
  above : ∀ v, k ≤ v → translate s new v = translate s₀ new v
  owns : OwnsRange s new 0 k
  kend : s.kend = s₀.kend
  sub : ∀ p ∈ s.freelist, p ∈ s₀.freelist
  taken : ∀ p ∈ s₀.freelist, p ∉ s.freelist →
    (∃ x : Pos, x.Live s.mem new ∧ x.page s.mem new = p) ∨ ∃ v < k, ∃ e, translate s new v = some e ∧ e.1 = p

theorem CopyOk.start (h : TableOk s₀ new) : CopyOk s₀ s₀ new 0 where
  table := h
  above _ _ := rfl
  owns := ⟨fun _ _ hv => absurd hv (Nat.not_lt_zero _), fun _ _ _ hv => absurd hv (Nat.not_lt_zero _)⟩
  kend := rfl
  sub _ hp := hp
  taken _ hp hnot := absurd hp hnot

theorem CopyOk.skip (h : CopyOk s₀ s new k) (hk : translate s new k = none) : CopyOk s₀ s new (k + 1) := by
  have hlt : ∀ v e, v < k + 1 → translate s new v = some e → v < k := fun v e hv he => by
    rcases Nat.lt_succ_iff_lt_or_eq.mp hv with hv | rfl
    · exact hv
    · rw [hk] at he
      cases he
  refine ⟨h.table, fun v hv => h.above v (by omega), ⟨fun v _ hv e he => ?_, fun v w _ hv _ hw e f he hf => ?_⟩,
    h.kend, h.sub, fun p hp hnot => ?_⟩
  · exact h.owns.1 v (Nat.zero_le _) (hlt v e hv he) e he
  · exact h.owns.2 v w (Nat.zero_le _) (hlt v e hv he) (Nat.zero_le _) (hlt w f hw hf) e f he hf
  · rcases h.taken p hp hnot with hx | ⟨v, hv, e, he, hep⟩
    · exact .inl hx
    · exact .inr ⟨v, by omega, e, he, hep⟩

theorem live_after_copy {r : Nat} (hsame : SameShape s.mem s2.mem r) (hext : Extends s2 s3 r) {x : Pos}
    (hx : x.Live s3.mem r) :
    (x.Live s.mem r ∧ x.page s3.mem r = x.page s.mem r) ∨ x.page s3.mem r ∈ s2.freelist := by
  rcases hext.fresh x hx with hx2 | hfree
  · rw [(hext.keep x hx2).2, (hsame x).2 ((hsame x).1.mp hx2)]
    exact .inl ⟨(hsame x).1.mp hx2, rfl⟩
  · exact .inr hfree

theorem live_keep_copy {r : Nat} (hsame : SameShape s.mem s2.mem r) (hext : Extends s2 s3 r) {x : Pos}
    (hx : x.Live s.mem r) : x.Live s3.mem r ∧ x.page s3.mem r = x.page s.mem r := by
  have hx2 := (hsame x).1.mpr hx
  exact ⟨(hext.keep x hx2).1, (hext.keep x hx2).2.trans ((hsame x).2 hx)⟩

/-- The copy mapped at page `k`: the child owns it from then on. -/
theorem CopyOk.copied (h : CopyOk s₀ s new k) {p pa flags : Nat} {rest : List Nat} (hfree : s.freelist = p :: rest)
    (hflags : flags < 2 ^ 10)
    (hmap : mappages { s with mem := copy (fill s.mem p pgsize 5) p pa pgsize, freelist := rest }
      new (k * pgsize) pgsize p flags = some (s3, 0)) :
    CopyOk s₀ s3 new (k + 1) := by
  set s2 : Phys := { s with mem := copy (fill s.mem p pgsize 5) p pa pgsize, freelist := rest } with hs2
  obtain ⟨hok2, hsame', htr2⟩ := @tableOk_kallocCopy _ _ _ pa _ h.table hfree
  have hsame : SameShape s.mem s2.mem new := hsame'
  have hpF := h.table.free p (by rw [hfree]; exact List.mem_cons_self)
  have hprest : p ∉ rest := (List.nodup_cons.mp (hfree ▸ h.table.nodup)).1
  have hrest : ∀ q ∈ rest, q ∈ s.freelist := fun q hq => by rw [hfree]; exact List.mem_cons_of_mem _ hq
  obtain ⟨-, -, -, hfrom⟩ := mappages_eq hmap
  obtain ⟨hok3, hext, -⟩ := mappagesFrom_spec _ hok2 hpF.lt (by simpa using hfrom)
  have htr3 : ∀ v, translate s3 new v = if v = k then some (p, flags ||| pteV) else translate s new v := by
    intro v
    have hfit : p + pgsize ≤ 2 ^ 64 := by
      have hlt : p < phystop := hpF.2.2
      have hps : phystop = 2281701376 := by decide
      simp only [pgsize]
      omega
    rw [(hok2.mappages_translate hpF.1 hflags hfit hmap).2 v, htr2]
    have hlo : k * pgsize / pgsize = k := Nat.mul_div_cancel k (by decide)
    have hhi : (k * pgsize + pgsize) / pgsize = k + 1 := by rw [← Nat.succ_mul]; exact Nat.mul_div_cancel _ (by decide)
    rw [hlo, hhi]
    by_cases hv : v = k
    · subst hv
      simp
    · rw [if_neg (by omega), if_neg hv]
  obtain ⟨t, ht, htl⟩ := hext.taken
  dsimp only at ht
  have hfl3 : ∀ q ∈ s3.freelist, q ∈ rest := fun q hq => by
    rw [ht]
    exact List.mem_append_right _ hq
  have hnot : ∀ q, q ∉ rest → (∀ x : Pos, x.Live s.mem new → x.page s.mem new ≠ q) →
      ∀ x : Pos, x.Live s3.mem new → x.page s3.mem new ≠ q := by
    intro q hq hq' x hx
    rcases live_after_copy hsame hext hx with ⟨hx', hpage⟩ | hmem
    · rw [hpage]
      exact hq' x hx'
    · exact fun e => hq (e ▸ hmem)
  have hpnot : ∀ x : Pos, x.Live s.mem new → x.page s.mem new ≠ p := fun x hx e =>
    (h.table.live x hx).2 (by rw [e, hfree]; exact List.mem_cons_self)
  have hkend : s3.kend = s.kend := hext.kend
  refine ⟨hok3, fun v hv => ?_, ⟨fun v _ hv e he => ?_, fun v w _ hv _ hw e f he hf hef => ?_⟩,
    hkend.trans h.kend, fun q hq => h.sub q (hrest q (hfl3 q hq)), fun q hq hq3 => ?_⟩
  · rw [htr3, if_neg (by omega)]
    exact h.above v (by omega)
  · rw [htr3] at he
    split_ifs at he with hvk
    · cases he
      exact ⟨hpF.of_kend hkend, fun hm => hprest (hfl3 p hm), hnot p hprest hpnot⟩
    · obtain ⟨hF, hfr, hn⟩ := h.owns.1 v (Nat.zero_le _) (by omega) e he
      exact ⟨hF.of_kend hkend, fun hm => hfr (hrest _ (hfl3 _ hm)),
        hnot _ (fun hm => hfr (hrest _ hm)) hn⟩
  · rw [htr3] at he hf
    split_ifs at he hf with hvk hwk hwk
    · omega
    · cases he
      exact absurd (by rw [hfree]; exact hef ▸ List.mem_cons_self) ((h.owns.1 w (Nat.zero_le _) (by omega) f hf).2.1)
    · cases hf
      exact absurd (by rw [hfree]; exact hef.symm ▸ List.mem_cons_self) ((h.owns.1 v (Nat.zero_le _) (by omega) e he).2.1)
    · exact h.owns.2 v w (Nat.zero_le _) (by omega) (Nat.zero_le _) (by omega) e f he hf hef
  · by_cases hqs : q ∈ s.freelist
    · rw [hfree] at hqs
      rcases List.mem_cons.mp hqs with rfl | hqr
      · exact .inr ⟨k, by omega, _, by rw [htr3, if_pos rfl], rfl⟩
      · have hqt : q ∈ t := by
          have hqr' : q ∈ t ++ s3.freelist := ht ▸ hqr
          rcases List.mem_append.mp hqr' with hqt | hq3'
          · exact hqt
          · exact absurd hq3' hq3
        exact .inl (htl q hqt)
    · rcases h.taken q hq hqs with ⟨x, hx, rfl⟩ | ⟨v, hv, e, he, hep⟩
      · exact .inl ⟨x, (live_keep_copy hsame hext hx).1, (live_keep_copy hsame hext hx).2⟩
      · exact .inr ⟨v, by omega, e, by rw [htr3, if_neg (by omega)]; exact he, hep⟩

end Copy

end Xv6Mlfq.UserMem
