import Mathlib.Data.List.Forall2
import Mathlib.Data.List.TakeWhile
/-!
Path names (kernel/fs.c: skipelem, namex). A path is the list of bytes of the C string before
its NUL; 47 is '/'. The specification of a path's meaning is the list of its components, the
maximal pieces between slashes that are not empty; skipelem peels them off one at a time, and
namex looks each one up in the directory reached so far.
-/

namespace Xv6Mlfq.Path

/-- DIRSIZ (kernel/fs.h), the size of a name in a directory entry. -/
def dirsiz : Nat := 14

/-- The name buffer after skipelem copies elem into it: DIRSIZ bytes when elem is that long,
otherwise elem and a NUL over the front of the old buffer. -/
def copyName (elem name : List UInt8) : List UInt8 :=
  if dirsiz ≤ elem.length then elem.take dirsiz else elem ++ [0] ++ name.drop (elem.length + 1)

/-- skipelem(path, name): none where it returns 0 (nothing but slashes left), otherwise the
rest of the path after the element and the slashes behind it, and the new name buffer. -/
def skipelem (path name : List UInt8) : Option (List UInt8 × List UInt8) :=
  let path := path.dropWhile (· = 47)
  if path = [] then none
  else
    let elem := path.takeWhile (· ≠ 47)
    some ((path.dropWhile (· ≠ 47)).dropWhile (· = 47), copyName elem name)

/-- The components of a path: the pieces between slashes, empty ones left out. -/
def components (path : List UInt8) : List (List UInt8) :=
  (path.splitOn 47).filter (· ≠ [])

example : components [97, 47, 47, 98, 98, 47] = [[97], [98, 98]] := by decide

/-- skipelem called again on what it returned, as namex does, until it returns 0: the name
buffer after each call. -/
def skipelems : Nat → List UInt8 → List UInt8 → List (List UInt8)
  | 0, _, _ => []
  | fuel + 1, path, name =>
      match skipelem path name with
      | none => []
      | some (rest, name) => name :: skipelems fuel rest name

/-- The buffer b holds the component c as skipelem leaves it there: its first DIRSIZ bytes, and
a NUL after it when it is shorter. -/
def HoldsName (c b : List UInt8) : Prop :=
  b.take (min c.length dirsiz) = c.take dirsiz ∧ (c.length < dirsiz → b[c.length]? = some 0)

/-- The name in a buffer as namecmp (strncmp over DIRSIZ bytes) reads it. -/
def cname (name : List UInt8) : List UInt8 :=
  (name.take dirsiz).takeWhile (· ≠ 0)

section Components

@[simp]
theorem components_nil : components [] = [] := by
  decide

@[simp]
theorem components_cons_slash (p : List UInt8) : components (47 :: p) = components p := by
  simp [components, List.splitOn_cons_eq_if_modifyHead]

theorem components_dropWhile_slash (p : List UInt8) :
    components (p.dropWhile (· = 47)) = components p := by
  induction p with
  | nil => rfl
  | cons x xs ih =>
      by_cases hx : x = 47
      · subst hx
        simp [ih]
      · simp [hx]

theorem head?_dropWhile_slash (p : List UInt8) : (p.dropWhile (· = 47)).head? ≠ some 47 := by
  induction p with
  | nil => simp
  | cons x xs ih =>
      by_cases hx : x = 47
      · simpa [hx] using ih
      · simp [hx]

theorem components_of_not_mem (e : List UInt8) (hnot : 47 ∉ e) (hee : e ≠ []) :
    components e = [e] := by
  simp [components, List.splitOn_eq_singleton hnot, hee]

theorem components_append_slash (e r : List UInt8) (hnot : 47 ∉ e) (hee : e ≠ []) :
    components (e ++ 47 :: r) = e :: components r := by
  rw [← components_cons_slash r, components, components,
    List.splitOn_append_cons_self_of_not_mem hnot, List.splitOn_cons_eq_if_modifyHead]
  simp [hee]

theorem components_of_head (p : List UInt8) (hne : p ≠ []) (hhead : p.head? ≠ some 47) :
    components p = p.takeWhile (· ≠ 47) :: components (p.dropWhile (· ≠ 47)) := by
  have hnot : 47 ∉ p.takeWhile (· ≠ 47) := fun h => by
    simpa using List.mem_takeWhile_imp h
  have hee : p.takeWhile (· ≠ 47) ≠ [] := by
    obtain ⟨x, xs, rfl⟩ := List.exists_cons_of_ne_nil hne
    have hx : x ≠ 47 := fun hx => hhead (by simp [hx])
    simp [hx]
  have hrest := List.head?_dropWhile_not (· ≠ 47) p
  obtain ⟨e, r, he, hr⟩ : ∃ e r, p.takeWhile (· ≠ 47) = e ∧ p.dropWhile (· ≠ 47) = r :=
    ⟨_, _, rfl, rfl⟩
  have hp : p = e ++ r := by rw [← he, ← hr, List.takeWhile_append_dropWhile]
  rw [he] at hnot hee ⊢
  rw [hr] at hrest ⊢
  rw [hp]
  cases r with
  | nil => simp [components_of_not_mem _ hnot hee]
  | cons y r =>
      have hy : y = 47 := by simpa using hrest
      subst hy
      rw [components_append_slash _ _ hnot hee, components_cons_slash]

theorem ne_nil_of_mem_components {p c : List UInt8} (h : c ∈ components p) : c ≠ [] := by
  simpa [components] using (List.mem_filter.mp h).2

theorem components_eq_nil_of_head (p : List UInt8) (hhead : p.head? ≠ some 47) :
    components p = [] ↔ p = [] := by
  constructor
  · intro h
    by_contra hne
    simp [components_of_head p hne hhead] at h
  · rintro rfl
    rfl

end Components

section Skipelem

theorem skipelem_eq_none_iff (path name : List UInt8) :
    skipelem path name = none ↔ components path = [] := by
  rw [← components_dropWhile_slash, components_eq_nil_of_head _ (head?_dropWhile_slash path)]
  simp only [skipelem]
  split
  · next hq => simp [hq]
  · next hq => simp [hq]

theorem skipelem_of_components {path c : List UInt8} {cs : List (List UInt8)} (name : List UInt8)
    (h : components path = c :: cs) :
    ∃ rest, skipelem path name = some (rest, copyName c name) ∧ components rest = cs ∧
      rest.head? ≠ some 47 ∧ (c ++ rest).Sublist path := by
  set q := path.dropWhile (· = 47) with hq
  have hqhead : q.head? ≠ some 47 := head?_dropWhile_slash path
  have hqne : q ≠ [] := by
    intro hnil
    have := components_dropWhile_slash path
    simp [← hq, hnil, h] at this
  have hsplit := components_of_head q hqne hqhead
  rw [components_dropWhile_slash, h, List.cons.injEq] at hsplit
  obtain ⟨hc, hcs⟩ := hsplit
  refine ⟨(q.dropWhile (· ≠ 47)).dropWhile (· = 47), ?_, ?_, head?_dropWhile_slash _, ?_⟩
  · simp [skipelem, ← hq, hqne, hc]
  · rw [components_dropWhile_slash, hcs]
  · have hq' : c ++ q.dropWhile (· ≠ 47) = q := by rw [hc, List.takeWhile_append_dropWhile]
    calc List.Sublist (c ++ (q.dropWhile (· ≠ 47)).dropWhile (· = 47)) (c ++ q.dropWhile (· ≠ 47)) :=
          (List.dropWhile_suffix _).sublist.append_left c
      _ = q := hq'
      List.Sublist _ path := (List.dropWhile_suffix _).sublist

theorem cname_copyName (c name : List UInt8) (hc : 0 ∉ c) :
    cname (copyName c name) = c.take dirsiz := by
  have hall : ∀ x ∈ c, decide (x ≠ 0) = true := fun x hx => by
    have hx0 : x ≠ 0 := fun h => hc (h ▸ hx)
    simpa using hx0
  unfold cname copyName
  split
  · rw [List.take_take, Nat.min_self, List.takeWhile_eq_self_iff]
    exact fun x hx => hall x (List.mem_of_mem_take hx)
  · have hlt : c.length < dirsiz := by omega
    rw [List.take_of_length_le (by omega : c.length ≤ dirsiz)]
    rw [List.append_assoc, List.take_append, List.take_of_length_le hlt.le,
      List.takeWhile_append_of_pos hall]
    simp

theorem holdsName_copyName (c name : List UInt8) : HoldsName c (copyName c name) := by
  unfold HoldsName copyName
  split
  · next hge =>
    refine ⟨?_, fun h => absurd h (by omega)⟩
    rw [Nat.min_eq_right hge, List.take_take, Nat.min_self]
  · have hlt : c.length < dirsiz := by omega
    refine ⟨?_, fun _ => ?_⟩
    · rw [Nat.min_eq_left hlt.le, List.take_of_length_le hlt.le, List.append_assoc,
        List.take_left' rfl]
    · simp

theorem skipelem_rest_head {path name rest name' : List UInt8}
    (h : skipelem path name = some (rest, name')) : rest.head? ≠ some 47 := by
  simp only [skipelem] at h
  split at h
  · cases h
  · obtain ⟨rfl, -⟩ := Prod.mk.inj (Option.some.inj h)
    exact head?_dropWhile_slash _

theorem rest_length_lt {c rest path : List UInt8} (hc : c ≠ []) (h : (c ++ rest).Sublist path) :
    rest.length < path.length := by
  have hle := h.length_le
  have hpos := List.length_pos_iff.mpr hc
  rw [List.length_append] at hle
  omega

/-- One skipelem on a path with no NUL whose first component is `c`: neither
`c` nor the rest holds a NUL, and the rest is shorter. -/
theorem skipelem_step {path c : List UInt8} {cs : List (List UInt8)} (name : List UInt8) (hnul : 0 ∉ path)
    (h : components path = c :: cs) :
    ∃ rest, skipelem path name = some (rest, copyName c name) ∧ components rest = cs ∧
      rest.head? ≠ some 47 ∧ 0 ∉ c ∧ 0 ∉ rest ∧ rest.length < path.length := by
  obtain ⟨rest, hskip, hrest, hhead, hsub⟩ := skipelem_of_components name h
  have hne : c ≠ [] := ne_nil_of_mem_components (h ▸ List.mem_cons_self)
  exact ⟨rest, hskip, hrest, hhead, fun h0 => hnul (hsub.subset (List.mem_append_left _ h0)),
    fun h0 => hnul (hsub.subset (List.mem_append_right _ h0)), rest_length_lt hne hsub⟩

theorem skipelems_forall₂ (fuel : Nat) (path name : List UInt8) (hfuel : path.length < fuel) :
    List.Forall₂ HoldsName (components path) (skipelems fuel path name) := by
  induction fuel generalizing path name with
  | zero => omega
  | succ fuel ih =>
      cases hc : components path with
      | nil => simp [skipelems, (skipelem_eq_none_iff path name).mpr hc]
      | cons c cs =>
          obtain ⟨rest, hskip, hrest, -, hsub⟩ := skipelem_of_components name hc
          have hne : c ≠ [] := ne_nil_of_mem_components (hc ▸ List.mem_cons_self)
          simp only [skipelems, hskip]
          refine List.Forall₂.cons (holdsName_copyName c name) ?_
          rw [← hrest]
          exact ih rest _ (by have := rest_length_lt hne hsub; omega)

end Skipelem

section Namex

variable {ι : Type} (isDir : ι → Bool) (look : ι → List UInt8 → Option ι)

/-- The loop of namex(path, nameiparent, name) from the inode ip, with the name buffer: none
where namex returns 0. isDir ip is ip->type == T_DIR, and look ip n is dirlookup(ip, name, 0),
which finds the entry whose name namecmp reads as n. -/
def namexLoop (nameiparent : Bool) : Nat → ι → List UInt8 → List UInt8 → Option ι × List UInt8
  | 0, _, _, name => (none, name)
  | fuel + 1, ip, path, name =>
      match skipelem path name with
      | none => (if nameiparent then none else some ip, name)
      | some (rest, name) =>
          if !isDir ip then (none, name)
          -- stop one level early
          else if nameiparent ∧ rest = [] then (some ip, name)
          else
            match look ip (cname name) with
            | none => (none, name)
            | some next => namexLoop nameiparent fuel next rest name

/-- namex(path, nameiparent, name): from the root when the path starts with '/', otherwise from
the current directory. Each pass of the loop takes at least one byte of the path. -/
def namex (root cwd : ι) (path : List UInt8) (nameiparent : Bool) (name : List UInt8) :
    Option ι × List UInt8 :=
  namexLoop isDir look nameiparent (path.length + 1) (if path.head? = some 47 then root else cwd)
    path name

/-- namei(path): namex with a name buffer of its own, whose contents do not matter. -/
def namei (root cwd : ι) (path : List UInt8) : Option ι :=
  (namex isDir look root cwd path false (List.replicate dirsiz 0)).1

/-- nameiparent(path, name). -/
def nameiparent (root cwd : ι) (path name : List UInt8) : Option ι × List UInt8 :=
  namex isDir look root cwd path true name

/-- The inode reached from ip by looking the names up one after another, each in a directory. -/
def resolve : ι → List (List UInt8) → Option ι
  | ip, [] => some ip
  | ip, c :: cs => if isDir ip then (look ip (c.take dirsiz)).bind fun next => resolve next cs else none

/-- What nameiparent is for: the directory that holds the last component, and that component as
a directory entry holds it; nothing for a path with no components. -/
def resolveParent (ip : ι) (cs : List (List UInt8)) : Option (ι × List UInt8) :=
  match cs.getLast? with
  | none => none
  | some c =>
      (resolve isDir look ip cs.dropLast).bind fun d => if isDir d then some (d, c.take dirsiz) else none

/-- The directory namex returns, with the name it leaves in the buffer. -/
def found (r : Option ι × List UInt8) : Option (ι × List UInt8) :=
  r.1.map fun d => (d, cname r.2)

theorem resolve_congr {look' : ι → List UInt8 → Option ι} (h : ∀ ip n, isDir ip = true → look ip n = look' ip n)
    (ip : ι) (cs : List (List UInt8)) : resolve isDir look ip cs = resolve isDir look' ip cs := by
  induction cs generalizing ip with
  | nil => rfl
  | cons c cs ih =>
    simp only [resolve]
    split_ifs with hd
    · rw [h ip _ hd]
      simp only [ih]
    · rfl

theorem resolveParent_singleton (ip : ι) (c : List UInt8) :
    resolveParent isDir look ip [c] = if isDir ip then some (ip, c.take dirsiz) else none := by
  simp [resolveParent, resolve]

theorem resolveParent_cons (ip : ι) (c : List UInt8) {cs : List (List UInt8)} (hcs : cs ≠ []) :
    resolveParent isDir look ip (c :: cs) =
      if isDir ip then (look ip (c.take dirsiz)).bind fun next => resolveParent isDir look next cs
      else none := by
  have hlast : (c :: cs).getLast? = some (cs.getLast hcs) := by
    rw [List.getLast?_eq_some_getLast (List.cons_ne_nil c cs), List.getLast_cons hcs]
  unfold resolveParent
  rw [hlast, List.getLast?_eq_some_getLast hcs, List.dropLast_cons_of_ne_nil hcs]
  cases hd : isDir ip with
  | false => simp [resolve, hd]
  | true => simp only [resolve, hd, if_true, Option.bind_assoc]

theorem namexLoop_false (fuel : Nat) (ip : ι) (path name : List UInt8) (hnul : 0 ∉ path)
    (hfuel : path.length < fuel) :
    (namexLoop isDir look false fuel ip path name).1 = resolve isDir look ip (components path) := by
  induction fuel generalizing ip path name with
  | zero => omega
  | succ fuel ih =>
      cases hc : components path with
      | nil => simp [namexLoop, (skipelem_eq_none_iff path name).mpr hc, resolve]
      | cons c cs =>
          obtain ⟨rest, hskip, hrest, -, hc0, hrest0, hlt⟩ := skipelem_step name hnul hc
          have hlen : rest.length < fuel := by omega
          simp only [namexLoop, hskip, resolve, cname_copyName c name hc0]
          cases hd : isDir ip with
          | false => simp
          | true =>
              cases hl : look ip (c.take dirsiz) with
              | none => simp
              | some next => simp [ih next rest _ hrest0 hlen, hrest]

/-- With nameiparent set, namex's loop stops at the directory that holds the last component and
leaves that component in the name buffer. -/
theorem namexLoop_true (fuel : Nat) (ip : ι) (path name : List UInt8) (hnul : 0 ∉ path)
    (hfuel : path.length < fuel) :
    found (namexLoop isDir look true fuel ip path name) =
      resolveParent isDir look ip (components path) := by
  induction fuel generalizing ip path name with
  | zero => omega
  | succ fuel ih =>
      cases hc : components path with
      | nil => simp [namexLoop, (skipelem_eq_none_iff path name).mpr hc, found, resolveParent]
      | cons c cs =>
          obtain ⟨rest, hskip, hrest, hhead, hc0, hrest0, hlt⟩ := skipelem_step name hnul hc
          have hlen : rest.length < fuel := by omega
          have hlast : rest = [] ↔ cs = [] := by
            rw [← hrest, components_eq_nil_of_head rest hhead]
          simp only [namexLoop, hskip, cname_copyName c name hc0]
          by_cases hcs : cs = []
          · subst hcs
            cases hd : isDir ip <;> simp [found, resolveParent_singleton, hd, hlast.mpr rfl,
              cname_copyName c name hc0]
          · rw [resolveParent_cons isDir look ip c hcs]
            cases hd : isDir ip with
            | false => simp [found]
            | true =>
                have hrne : rest ≠ [] := fun h => hcs (hlast.mp h)
                cases hl : look ip (c.take dirsiz) with
                | none => simp [found, hrne]
                | some next => simpa [hrne, hrest] using ih next rest _ hrest0 hlen

theorem namex_walks_components (root cwd : ι) (path name : List UInt8) (hnul : 0 ∉ path) :
    List.Forall₂ HoldsName (components path) (skipelems (path.length + 1) path name) ∧
      (skipelem path name = none ↔ components path = []) ∧
      (∀ rest name', skipelem path name = some (rest, name') → rest.head? ≠ some 47) ∧
      found (nameiparent isDir look root cwd path name) =
        resolveParent isDir look (if path.head? = some 47 then root else cwd) (components path) ∧
      namei isDir look root cwd path =
        resolve isDir look (if path.head? = some 47 then root else cwd) (components path) :=
  ⟨skipelems_forall₂ _ path name (Nat.lt_succ_self _), skipelem_eq_none_iff path name,
    fun _ _ => skipelem_rest_head, namexLoop_true isDir look _ _ path name hnul (Nat.lt_succ_self _),
    namexLoop_false isDir look _ _ path _ hnul (Nat.lt_succ_self _)⟩

end Namex

section Demo

/-- A small tree: the root 1 holds the directory "a" (2), which holds the file "b" (3). -/
def demoIsDir (ip : Nat) : Bool := ip < 3

def demoLook : Nat → List UInt8 → Option Nat
  | 1, [97] => some 2
  | 2, [98] => some 3
  | _, _ => none

theorem namex_walks_components_abs :
    namei demoIsDir demoLook 1 2 [47, 97, 47, 47, 98] = some 3 ∧
      found (nameiparent demoIsDir demoLook 1 2 [47, 97, 47, 47, 98] (List.replicate dirsiz 0)) =
        some (2, [98]) := by
  obtain ⟨-, -, -, hparent, hname⟩ := namex_walks_components demoIsDir demoLook 1 2
    [47, 97, 47, 47, 98] (List.replicate dirsiz 0) (by decide)
  exact ⟨hname.trans (by decide), hparent.trans (by decide)⟩

end Demo

end Xv6Mlfq.Path
