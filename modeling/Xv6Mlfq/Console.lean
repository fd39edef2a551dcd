import Xv6Mlfq.Library.Ring
import Xv6Mlfq.Library.StepSystem

/-!
The console's input line discipline (`console.c`).  `consoleintr` edits the
line being typed in `cons.buf` and commits it to readers; `consoleread` copies
committed input to a user buffer, a line at a time.  The indices `r`, `w` and
`e` are free-running 32-bit counters into a ring of `INPUT_BUF_SIZE` bytes:
the bytes from `r` to `w` are committed and unread, those from `w` to `e` are
the line being edited.  Every call holds `cons.lock` throughout, except that a
read finding no committed input sleeps, and runs again when woken.
-/

namespace Xv6Mlfq.Console

open Ring

/-- `INPUT_BUF_SIZE`. -/
def inputBufSize : Nat := 128

instance : NeZero inputBufSize := ⟨by decide⟩

theorem inputBufSize_dvd : inputBufSize ∣ 2 ^ 32 := ⟨2 ^ 25, by decide⟩

/-- `C(x)`: the control character of `x`. -/
def C (x : Char) : UInt8 := x.toUInt8 - '@'.toUInt8

/-- `cons`, without its lock. -/
structure Cons where
  buf : Fin inputBufSize → UInt8
  r : UInt32
  w : UInt32
  e : UInt32

/-! ## `consoleintr` -/

/-- `cons.buf[cons.e++ % INPUT_BUF_SIZE] = c`. -/
def Cons.store (s : Cons) (c : UInt8) : Cons := { s with buf := write s.buf s.e.toNat c, e := s.e + 1 }

/-- The kill-line loop of `consoleintr`, for at most `fuel` rounds:
`while(cons.e != cons.w && cons.buf[(cons.e-1) % INPUT_BUF_SIZE] != '\n') cons.e--;`. -/
def killLine (buf : Fin inputBufSize → UInt8) (w : UInt32) : Nat → UInt32 → UInt32
  | 0, e => e
  | fuel + 1, e =>
      if e ≠ w ∧ cell buf (e - 1).toNat ≠ '\n'.toUInt8 then killLine buf w fuel (e - 1) else e

/-- `consoleintr(c)`.  The echo by `consputc` and the process list of
`procdump` are output only; `wakeup(&cons.r)` is the step that lets sleeping
reads run again. -/
def consoleintr (c : UInt8) (s : Cons) : Cons :=
  if c = C 'P' then s
  else if c = C 'U' then { s with e := killLine s.buf s.w (dist s.w s.e) s.e }
  else if c = C 'H' ∨ c = 0x7f then
    if s.e ≠ s.w then { s with e := s.e - 1 } else s
  else if c ≠ 0 ∧ dist s.r s.e < inputBufSize then
    let c := if c = '\r'.toUInt8 then '\n'.toUInt8 else c
    let s := s.store c
    if c = '\n'.toUInt8 ∨ c = C 'D' ∨ dist s.r s.e = inputBufSize then { s with w := s.e } else s
  else s

/-! ## `consoleread` -/

/-- A `consoleread` under way: `target` bytes asked for, `n` still wanted, the
bytes copied to the user's buffer, and whether `either_copyout` can write the
byte at each offset of that buffer. -/
structure Read where
  target : Nat
  n : Nat
  copied : List UInt8
  mapped : Nat → Bool

/-- How a read's hold of `cons.lock` ends: it returns, or it sleeps on `&cons.r`. -/
inductive Outcome
  | done (ret : Int)
  | asleep
  deriving DecidableEq

/-- The loop of `consoleread` from `while(n > 0)` while the reader holds
`cons.lock`, for at most `fuel` rounds; `killed` is `killed(myproc())`. -/
def readLoop (killed : Bool) : Nat → Cons → Read → Cons × Read × Outcome
  | 0, s, rd => (s, rd, .asleep)
  | fuel + 1, s, rd =>
      if rd.n = 0 then (s, rd, .done (rd.target - rd.n : Nat))
      else if s.r = s.w then
        if killed then (s, rd, .done (-1)) else (s, rd, .asleep)
      else
        let c := cell s.buf s.r.toNat
        let s1 := { s with r := s.r + 1 }
        if c = C 'D' then
          ((if rd.n < rd.target then { s1 with r := s1.r - 1 } else s1), rd,
            .done (rd.target - rd.n : Nat))
        else if rd.mapped (rd.target - rd.n) then
          let rd1 := { rd with n := rd.n - 1, copied := rd.copied ++ [c] }
          if c = '\n'.toUInt8 then (s1, rd1, .done (rd1.target - rd1.n : Nat))
          else readLoop killed fuel s1 rd1
        else (s1, rd, .done (rd.target - rd.n : Nat))

/-- `consoleread` from taking `cons.lock`, or retaking it in `sleep`, until it
sleeps or returns: one round for each committed byte and one to stop. -/
def consoleread (killed : Bool) (s : Cons) (rd : Read) : Cons × Read × Outcome :=
  readLoop killed (dist s.r s.w + 1) s rd

/-! ## The line discipline the buffer holds -/

/-- The committed input not yet read. -/
def Cons.unread (s : Cons) : List UInt8 := window s.buf s.r.toNat (dist s.r s.w)

/-- The line being edited. -/
def Cons.edit (s : Cons) : List UInt8 := window s.buf s.w.toNat (dist s.w s.e)

/-- The indices are ordered `r ≤ w ≤ e ≤ r + INPUT_BUF_SIZE` as unsigned differences. -/
structure ConsOk (s : Cons) : Prop where
  w_le_e : dist s.r s.w ≤ dist s.r s.e
  e_le : dist s.r s.e ≤ inputBufSize

/-- The edited line with everything after its last newline erased. -/
def killTail (edit : List UInt8) : List UInt8 :=
  (edit.reverse.dropWhile (· ≠ '\n'.toUInt8)).reverse

/-- `consoleintr` on the committed input and the edited line. -/
def lineIntr (c : UInt8) (unread edit : List UInt8) : List UInt8 × List UInt8 :=
  if c = C 'P' then (unread, edit)
  else if c = C 'U' then (unread, killTail edit)
  else if c = C 'H' ∨ c = 0x7f then (unread, edit.dropLast)
  else if c ≠ 0 ∧ unread.length + edit.length < inputBufSize then
    let c := if c = '\r'.toUInt8 then '\n'.toUInt8 else c
    if c = '\n'.toUInt8 ∨ c = C 'D' ∨ unread.length + edit.length + 1 = inputBufSize then
      (unread ++ edit ++ [c], [])
    else (unread, edit ++ [c])
  else (unread, edit)

/-- `consoleread` on the committed input: take bytes from its front until the
read has enough, has copied a newline, meets a `^D` (left in place unless it
is the read's first byte) or fails a copy; with nothing committed, return -1
if killed and sleep otherwise. -/
def lineRead (killed : Bool) : List UInt8 → Read → List UInt8 × Read × Outcome
  | [], rd =>
      if rd.n = 0 then ([], rd, .done (rd.target - rd.n : Nat))
      else if killed then ([], rd, .done (-1)) else ([], rd, .asleep)
  | c :: rest, rd =>
      if rd.n = 0 then (c :: rest, rd, .done (rd.target - rd.n : Nat))
      else if c = C 'D' then
        ((if rd.n < rd.target then c :: rest else rest), rd, .done (rd.target - rd.n : Nat))
      else if rd.mapped (rd.target - rd.n) then
        let rd1 := { rd with n := rd.n - 1, copied := rd.copied ++ [c] }
        if c = '\n'.toUInt8 then (rest, rd1, .done (rd1.target - rd1.n : Nat))
        else lineRead killed rest rd1
      else (rest, rd, .done (rd.target - rd.n : Nat))

/-! ## `consoleintr` edits the line and commits it -/

section Intr

variable {s : Cons}

@[simp] theorem length_unread (s : Cons) : s.unread.length = dist s.r s.w := by
  simp [Cons.unread]

@[simp] theorem length_edit (s : Cons) : s.edit.length = dist s.w s.e := by
  simp [Cons.edit]

theorem ConsOk.dist_eq (h : ConsOk s) : dist s.r s.e = dist s.r s.w + dist s.w s.e := by
  rw [dist_sub h.w_le_e]
  have := h.w_le_e
  omega

theorem ConsOk.unread_append_edit (h : ConsOk s) :
    s.unread ++ s.edit = window s.buf s.r.toNat (dist s.r s.e) := by
  rw [h.dist_eq, window_add, window_dist s.buf inputBufSize_dvd]
  rfl

theorem killTail_nil : killTail [] = [] := rfl

theorem killTail_append_newline (xs : List UInt8) :
    killTail (xs ++ ['\n'.toUInt8]) = xs ++ ['\n'.toUInt8] := by
  simp [killTail]

theorem killTail_append_of_ne {x : UInt8} (xs : List UInt8) (hx : x ≠ '\n'.toUInt8) :
    killTail (xs ++ [x]) = killTail xs := by
  simp [killTail, hx]

/-- The kill-line loop, given a round for each byte of the line, erases the
line back to its last newline, and never past `w`. -/
theorem killLine_edit (buf : Fin inputBufSize → UInt8) (w : UInt32) :
    ∀ fuel e, dist w e = fuel →
      window buf w.toNat (dist w (killLine buf w fuel e)) = killTail (window buf w.toNat (dist w e)) ∧
        dist w (killLine buf w fuel e) ≤ dist w e := by
  intro fuel
  induction fuel with
  | zero =>
      intro e he
      simp [killLine, he, killTail_nil]
  | succ fuel ih =>
      intro e he
      have hne : e ≠ w := fun h => by simp [h] at he
      have hlast : dist w (e - 1) + 1 = dist w e := dist_sub_one_right hne.symm
      have hwin : window buf w.toNat (dist w e) =
          window buf w.toNat (dist w (e - 1)) ++ [cell buf (e - 1).toNat] := by
        rw [← hlast, window_succ, cell_dist buf inputBufSize_dvd]
      by_cases hnl : cell buf (e - 1).toNat = '\n'.toUInt8
      · have hstop : killLine buf w (fuel + 1) e = e := by simp [killLine, hnl]
        rw [hstop, hwin, hnl, killTail_append_newline]
        exact ⟨rfl, le_rfl⟩
      · have hgo : killLine buf w (fuel + 1) e = killLine buf w fuel (e - 1) := by
          simp [killLine, hne, hnl]
        obtain ⟨hedit, hle⟩ := ih (e - 1) (by omega)
        rw [hgo, hedit, hwin, killTail_append_of_ne _ hnl]
        exact ⟨rfl, by omega⟩

theorem store_dist (hroom : dist s.r s.e < inputBufSize) :
    dist s.r (s.e + 1) = dist s.r s.e + 1 :=
  dist_add_one_right (Nat.lt_trans (Nat.succ_lt_succ hroom) (by decide))

theorem store_unread (h : ConsOk s) (hroom : dist s.r s.e < inputBufSize) (x : UInt8) :
    (s.store x).unread = s.unread :=
  window_write_ahead s.buf inputBufSize_dvd x h.w_le_e hroom

theorem store_edit (h : ConsOk s) (hroom : dist s.r s.e < inputBufSize) (x : UInt8) :
    (s.store x).edit = s.edit ++ [x] := by
  have hwe : dist s.w s.e < inputBufSize := by
    have := h.dist_eq
    omega
  have hnext : dist s.w (s.e + 1) = dist s.w s.e + 1 :=
    dist_add_one_right (Nat.lt_trans (Nat.succ_lt_succ hwe) (by decide))
  simp only [Cons.edit, Cons.store]
  rw [hnext]
  exact window_write_next s.buf inputBufSize_dvd x hwe

theorem store_commit (h : ConsOk s) (hroom : dist s.r s.e < inputBufSize) (x : UInt8) :
    ({ s.store x with w := (s.store x).e } : Cons).unread = s.unread ++ s.edit ++ [x] ∧
      ({ s.store x with w := (s.store x).e } : Cons).edit = [] := by
  constructor
  · simp only [Cons.unread, Cons.store]
    rw [store_dist hroom, window_write_next s.buf inputBufSize_dvd x hroom, ← h.unread_append_edit]
    rfl
  · simp [Cons.edit]

theorem inputBufSize_eq : inputBufSize = 128 := rfl

theorem ConsOk.of_erase {s' : Cons} (h : ConsOk s) (hr : s'.r = s.r) (hw : s'.w = s.w)
    (hle : dist s.w s'.e ≤ dist s.w s.e) : ConsOk s' := by
  have hsum := h.dist_eq
  have he := h.e_le
  rw [inputBufSize_eq] at he
  have hsplit : dist s.r s'.e = dist s.r s.w + dist s.w s'.e := dist_add (by omega)
  constructor
  · rw [hr, hw, hsplit]
    omega
  · rw [hr, hsplit, inputBufSize_eq]
    omega

/-- `consoleintr` acts on the committed input and the edited line as
`lineIntr` does, and keeps the indices ordered. -/
theorem consoleintr_refines (h : ConsOk s) (c : UInt8) :
    (consoleintr c s).unread = (lineIntr c s.unread s.edit).1 ∧
      (consoleintr c s).edit = (lineIntr c s.unread s.edit).2 ∧ ConsOk (consoleintr c s) := by
  have hlen : s.unread.length + s.edit.length = dist s.r s.e := by simp [h.dist_eq]
  rw [consoleintr, lineIntr]
  by_cases hP : c = C 'P'
  · rw [if_pos hP, if_pos hP]
    exact ⟨rfl, rfl, h⟩
  rw [if_neg hP, if_neg hP]
  by_cases hU : c = C 'U'
  · rw [if_pos hU, if_pos hU]
    obtain ⟨hedit, hle⟩ := killLine_edit s.buf s.w _ s.e rfl
    exact ⟨rfl, hedit, h.of_erase rfl rfl hle⟩
  rw [if_neg hU, if_neg hU]
  by_cases hH : c = C 'H' ∨ c = 0x7f
  · rw [if_pos hH, if_pos hH]
    by_cases he : s.e ≠ s.w
    · have hlast : dist s.w (s.e - 1) + 1 = dist s.w s.e := dist_sub_one_right (Ne.symm he)
      have hedit : ({ s with e := s.e - 1 } : Cons).edit = s.edit.dropLast := by
        simp only [Cons.edit]
        rw [← hlast, window_succ, List.dropLast_concat]
      rw [if_pos he]
      exact ⟨rfl, hedit, h.of_erase rfl rfl (show dist s.w (s.e - 1) ≤ dist s.w s.e by omega)⟩
    · have hnil : s.edit = [] := by
        rw [not_not] at he
        simp [Cons.edit, he]
      rw [if_neg he]
      exact ⟨rfl, by rw [hnil]; rfl, h⟩
  rw [if_neg hH, if_neg hH, hlen]
  by_cases hroom : c ≠ 0 ∧ dist s.r s.e < inputBufSize
  · rw [if_pos hroom, if_pos hroom]
    have hnext : ∀ x, dist (s.store x).r (s.store x).e = dist s.r s.e + 1 := fun _ =>
      store_dist hroom.2
    generalize (if c = '\r'.toUInt8 then '\n'.toUInt8 else c) = x
    have hbound := hroom.2
    rw [inputBufSize_eq] at hbound
    by_cases hcommit : x = '\n'.toUInt8 ∨ x = C 'D' ∨ dist s.r s.e + 1 = inputBufSize
    · rw [if_pos (by rw [hnext]; exact hcommit), if_pos hcommit]
      obtain ⟨hunread, hedit⟩ := store_commit h hroom.2 x
      refine ⟨hunread, hedit, le_rfl, ?_⟩
      show dist s.r (s.e + 1) ≤ inputBufSize
      rw [store_dist hroom.2, inputBufSize_eq]
      omega
    · rw [if_neg (by rw [hnext]; exact hcommit), if_neg hcommit]
      refine ⟨store_unread h hroom.2 x, store_edit h hroom.2 x, ?_, ?_⟩
      · show dist s.r s.w ≤ dist s.r (s.e + 1)
        have := h.w_le_e
        rw [store_dist hroom.2]
        omega
      · show dist s.r (s.e + 1) ≤ inputBufSize
        rw [store_dist hroom.2, inputBufSize_eq]
        omega
  · rw [if_neg hroom, if_neg hroom]
    exact ⟨rfl, rfl, h⟩

theorem consoleintr_erase (s : Cons) {c : UInt8} (hc : c = C 'H' ∨ c = 0x7f ∨ c = C 'U') :
    (consoleintr c s).r = s.r ∧ (consoleintr c s).w = s.w ∧ (consoleintr c s).buf = s.buf ∧
      dist s.w (consoleintr c s).e ≤ dist s.w s.e := by
  have hP : c ≠ C 'P' := by
    rcases hc with rfl | rfl | rfl <;> decide
  rw [consoleintr, if_neg hP]
  by_cases hU : c = C 'U'
  · rw [if_pos hU]
    exact ⟨rfl, rfl, rfl, (killLine_edit s.buf s.w _ s.e rfl).2⟩
  have hH : c = C 'H' ∨ c = 0x7f := by
    rcases hc with h | h | h
    · exact .inl h
    · exact .inr h
    · exact absurd h hU
  rw [if_neg hU, if_pos hH]
  by_cases he : s.e ≠ s.w
  · rw [if_pos he]
    have hlast : dist s.w (s.e - 1) + 1 = dist s.w s.e := dist_sub_one_right (Ne.symm he)
    refine ⟨rfl, rfl, rfl, ?_⟩
    show dist s.w (s.e - 1) ≤ dist s.w s.e
    omega
  · rw [if_neg he]
    exact ⟨rfl, rfl, rfl, le_rfl⟩

end Intr

/-! ## `consoleread` takes committed input from the front -/

section Read

variable {s : Cons}

theorem newline_ne_D : '\n'.toUInt8 ≠ C 'D' := by decide

theorem unread_eq_nil (h : s.r = s.w) : s.unread = [] := by
  simp [Cons.unread, h]

theorem unread_pop (hne : s.r ≠ s.w) :
    s.unread = cell s.buf s.r.toNat :: ({ s with r := s.r + 1 } : Cons).unread := by
  have hpop : dist (s.r + 1) s.w + 1 = dist s.r s.w := dist_add_one_left hne
  simp only [Cons.unread]
  rw [← hpop, window_cons]
  congr 1
  rw [UInt32.toNat_add, UInt32.toNat_one, window_mod_pow s.buf inputBufSize_dvd]

theorem ConsOk.pop (h : ConsOk s) (hne : s.r ≠ s.w) : ConsOk { s with r := s.r + 1 } := by
  have hw : dist (s.r + 1) s.w + 1 = dist s.r s.w := dist_add_one_left hne
  have hre : s.r ≠ s.e := by
    intro hre
    have hle := h.w_le_e
    rw [← hre, dist_self] at hle
    exact hne (dist_eq_zero.mp (Nat.le_zero.mp hle))
  have he : dist (s.r + 1) s.e + 1 = dist s.r s.e := dist_add_one_left hre
  have hwe := h.w_le_e
  have hel := h.e_le
  exact ⟨by show dist (s.r + 1) s.w ≤ dist (s.r + 1) s.e; omega,
    by show dist (s.r + 1) s.e ≤ inputBufSize; omega⟩

/-- The loop of `consoleread`, with a round for each committed byte and one
more, takes from the committed input as `lineRead` does and changes nothing else. -/
theorem readLoop_refines (killed : Bool) :
    ∀ fuel (s : Cons) (rd : Read), ConsOk s → dist s.r s.w < fuel →
      (readLoop killed fuel s rd).1.unread = (lineRead killed s.unread rd).1 ∧
        (readLoop killed fuel s rd).2 = (lineRead killed s.unread rd).2 ∧
        (readLoop killed fuel s rd).1.buf = s.buf ∧ (readLoop killed fuel s rd).1.w = s.w ∧
        (readLoop killed fuel s rd).1.e = s.e ∧ ConsOk (readLoop killed fuel s rd).1 := by
  intro fuel
  induction fuel with
  | zero => exact fun s rd _ hlt => absurd hlt (Nat.not_lt_zero _)
  | succ fuel ih =>
      intro s rd h hlt
      by_cases hn : rd.n = 0
      · cases hu : s.unread <;> simp [readLoop, lineRead, hn, hu, h]
      by_cases hrw : s.r = s.w
      · cases killed <;> simp [readLoop, lineRead, hn, hrw, h, unread_eq_nil hrw]
      have hpop : dist (s.r + 1) s.w + 1 = dist s.r s.w := dist_add_one_left hrw
      have hok := h.pop hrw
      have hu := unread_pop hrw
      generalize hc : cell s.buf s.r.toNat = c at hu
      by_cases hD : c = C 'D'
      · -- `^D`: pushed back unless it is the read's first byte
        by_cases hfirst : rd.n < rd.target
        · simp [readLoop, lineRead, hn, hrw, hc, hD, hfirst, hu, h]
        · simp [readLoop, lineRead, hn, hrw, hc, hD, hfirst, hu, hok]
      by_cases hm : rd.mapped (rd.target - rd.n) = true
      · by_cases hnl : c = '\n'.toUInt8
        · simp [readLoop, lineRead, hn, hrw, hc, hm, hnl, hu, hok, newline_ne_D]
        · have hrest := ih { s with r := s.r + 1 } { rd with n := rd.n - 1, copied := rd.copied ++ [c] }
            hok (show dist (s.r + 1) s.w < fuel by omega)
          simp only [readLoop, lineRead, if_neg hn, if_neg hrw, hc, hD, hm, hnl, hu, if_false,
            if_true]
          exact hrest
      · simp [readLoop, lineRead, hn, hrw, hc, hD, hm, hu, hok]

theorem consoleread_refines (h : ConsOk s) (killed : Bool) (rd : Read) :
    (consoleread killed s rd).1.unread = (lineRead killed s.unread rd).1 ∧
      (consoleread killed s rd).2 = (lineRead killed s.unread rd).2 ∧
      (consoleread killed s rd).1.buf = s.buf ∧ (consoleread killed s rd).1.w = s.w ∧
      (consoleread killed s rd).1.e = s.e ∧ ConsOk (consoleread killed s rd).1 :=
  readLoop_refines killed _ s rd h (Nat.lt_succ_self _)

end Read

/-! ## What a read takes, copies and returns -/

section Takes

theorem take_consumed {u new extra rest : List UInt8} (hin : u = new ++ extra ++ rest) :
    u.take (u.length - rest.length) = new ++ extra := by
  have hlen : u.length - rest.length = (new ++ extra).length := by
    rw [hin, List.length_append, List.length_append]
    omega
  rw [hlen, hin]
  exact List.take_left

/-- A read's hold of `cons.lock` divides the committed input `u`: it copies
`new` from the front, then consumes `extra` without copying it, and leaves `rest`. -/
structure ReadSplit (rd rd' : Read) (u new extra rest : List UInt8) : Prop where
  copied : rd'.copied = rd.copied ++ new
  input : u = new ++ extra ++ rest
  target : rd'.target = rd.target
  mapped : rd'.mapped = rd.mapped
  count : rd'.n + new.length = rd.n

/-- The only bytes a read consumes without copying them: its own leading `^D`,
after which it returns 0, or a byte whose copy to the user failed. -/
def Uncopied (rd rd' : Read) (new extra : List UInt8) (o : Outcome) : Prop :=
  extra = [] ∨ (extra = [C 'D'] ∧ new = [] ∧ rd.n = rd.target ∧ o = .done 0) ∨
    ∃ b, extra = [b] ∧ b ≠ C 'D' ∧ rd.mapped (rd.target - rd'.n) = false

/-- How a hold of `cons.lock` ends: asleep only with nothing left to take and
no line copied; returning -1 only when killed with nothing left to take, and
otherwise returning the count of bytes the read has copied. -/
def Ends (killed : Bool) (rd rd' : Read) (new extra rest : List UInt8) (o : Outcome) : Prop :=
  (o = .asleep → rest = [] ∧ extra = [] ∧ '\n'.toUInt8 ∉ new ∧ 0 < rd'.n ∧ killed = false) ∧
    ∀ ret, o = .done ret →
      (ret = -1 ∧ killed = true ∧ rest = [] ∧ extra = []) ∨ ret = (rd.target - rd'.n : Nat)

theorem ReadSplit.keep (rd : Read) (u : List UInt8) : ReadSplit rd rd u [] [] u :=
  ⟨by simp, by simp, rfl, rfl, by simp⟩

theorem ReadSplit.drop (rd : Read) (x : UInt8) (u : List UInt8) : ReadSplit rd rd (x :: u) [] [x] u :=
  ⟨by simp, by simp, rfl, rfl, by simp⟩

theorem lineRead_spec (killed : Bool) : ∀ (u : List UInt8) (rd : Read), rd.n ≤ rd.target →
    ∃ new extra, ReadSplit rd (lineRead killed u rd).2.1 u new extra (lineRead killed u rd).1 ∧
      Uncopied rd (lineRead killed u rd).2.1 new extra (lineRead killed u rd).2.2 ∧
      Ends killed rd (lineRead killed u rd).2.1 new extra (lineRead killed u rd).1
        (lineRead killed u rd).2.2 ∧
      '\n'.toUInt8 ∉ new.dropLast ∧ C 'D' ∉ new := by
  intro u
  induction u with
  | nil =>
      intro rd _
      have hsame : (lineRead killed [] rd).2.1 = rd ∧ (lineRead killed [] rd).1 = [] := by
        by_cases hn : rd.n = 0 <;> cases killed <;> simp [lineRead, hn]
      rw [hsame.1, hsame.2]
      refine ⟨[], [], .keep rd [], .inl rfl, ?_, by simp, by simp⟩
      by_cases hn : rd.n = 0 <;> cases killed <;> simp [lineRead, hn, Ends, Nat.pos_of_ne_zero]
  | cons c rest ih =>
      intro rd hle
      by_cases hn : rd.n = 0
      · have hkeep : lineRead killed (c :: rest) rd = (c :: rest, rd, .done (rd.target - rd.n : Nat)) := by
          simp [lineRead, hn]
        rw [hkeep]
        exact ⟨[], [], .keep rd _, .inl rfl, by simp [Ends], by simp, by simp⟩
      by_cases hD : c = C 'D'
      · subst hD
        by_cases hfirst : rd.n < rd.target
        · -- a `^D` after copied bytes stays for the next read
          have hkeep : lineRead killed (C 'D' :: rest) rd =
              (C 'D' :: rest, rd, .done (rd.target - rd.n : Nat)) := by
            simp [lineRead, hn, hfirst]
          rw [hkeep]
          exact ⟨[], [], .keep rd _, .inl rfl, by simp [Ends], by simp, by simp⟩
        · have hall : rd.n = rd.target := by omega
          have ht0 : rd.target ≠ 0 := hall ▸ hn
          have hdrop : lineRead killed (C 'D' :: rest) rd = (rest, rd, .done 0) := by
            simp [lineRead, hall, ht0]
          rw [hdrop]
          exact ⟨[], [C 'D'], .drop rd _ rest, .inr (.inl ⟨rfl, rfl, hall, rfl⟩),
            by simp [Ends, hall], by simp, by simp⟩
      by_cases hm : rd.mapped (rd.target - rd.n) = true
      · by_cases hnl : c = '\n'.toUInt8
        · subst hnl
          have hline : lineRead killed ('\n'.toUInt8 :: rest) rd =
              (rest, { rd with n := rd.n - 1, copied := rd.copied ++ ['\n'.toUInt8] },
                .done (rd.target - (rd.n - 1) : Nat)) := by
            simp [lineRead, hn, hD, hm]
          rw [hline]
          refine ⟨['\n'.toUInt8], [], ⟨rfl, by simp, rfl, rfl, ?_⟩, .inl rfl, ?_, by simp,
            by simpa using Ne.symm newline_ne_D⟩
          · show rd.n - 1 + 1 = rd.n
            omega
          · simp [Ends]
        · obtain ⟨new, extra, hsplit, hunc, hends, hline, hnoD⟩ :=
            ih { rd with n := rd.n - 1, copied := rd.copied ++ [c] } (show rd.n - 1 ≤ rd.target by omega)
          have heq : lineRead killed (c :: rest) rd =
              lineRead killed rest { rd with n := rd.n - 1, copied := rd.copied ++ [c] } := by
            simp [lineRead, hn, hD, hm, hnl]
          rw [heq]
          refine ⟨c :: new, extra, ⟨?_, ?_, hsplit.target, hsplit.mapped, ?_⟩, ?_, ?_, ?_, ?_⟩
          · rw [hsplit.copied]
            simp
          · simp only [List.cons_append]
            exact congrArg (List.cons c) hsplit.input
          · have hcount := hsplit.count
            simp only at hcount
            simp only [List.length_cons]
            omega
          · rcases hunc with h | ⟨-, -, hall, -⟩ | ⟨b, h, hb, hfail⟩
            · exact .inl h
            · -- the loop went on, so the read had copied a byte before a `^D`
              simp only at hall
              omega
            · exact .inr (.inr ⟨b, h, hb, by rw [← hfail]⟩)
          · refine ⟨fun ho => ?_, fun ret ho => ?_⟩
            · obtain ⟨hr, hx, hnew, hpos, hk⟩ := hends.1 ho
              exact ⟨hr, hx, by simp [Ne.symm hnl, hnew], hpos, hk⟩
            · rcases hends.2 ret ho with h | h
              · exact .inl h
              · exact .inr h
          · cases new with
            | nil => simp
            | cons d ds => simpa [Ne.symm hnl] using hline
          · simp [Ne.symm hD, hnoD]
      · -- the copy fails: the byte is consumed and the read returns
        have hfail : lineRead killed (c :: rest) rd = (rest, rd, .done (rd.target - rd.n : Nat)) := by
          simp [lineRead, hn, hD, hm]
        rw [hfail]
        exact ⟨[], [c], .drop rd c rest, .inr (.inr ⟨c, rfl, hD, by simpa using hm⟩),
          by simp [Ends], by simp, by simp⟩

/-- A `^D` that is not the first byte of its read stays in the buffer, and the
read returns the bytes before it. -/
theorem lineRead_pushback (killed : Bool) : ∀ (pre post : List UInt8) (rd : Read),
    '\n'.toUInt8 ∉ pre → C 'D' ∉ pre → pre.length < rd.n → rd.n ≤ rd.target →
    (pre ≠ [] ∨ rd.n < rd.target) →
    (∀ j < pre.length, rd.mapped (rd.target - rd.n + j) = true) →
    lineRead killed (pre ++ C 'D' :: post) rd =
      (C 'D' :: post, { rd with n := rd.n - pre.length, copied := rd.copied ++ pre },
        .done (rd.target - rd.n + pre.length : Nat))
  | [], post, rd, _, _, hlt, _, hfirst, _ => by
      have hn : rd.n ≠ 0 := by
        simp only [List.length_nil] at hlt
        omega
      have hf : rd.n < rd.target := by simpa using hfirst
      simp [lineRead, hn, hf]
  | b :: pre, post, rd, hnl, hD, hlt, hle, _, hmap => by
      simp only [List.mem_cons, not_or] at hnl hD
      simp only [List.length_cons] at hlt hmap
      have hn : rd.n ≠ 0 := by omega
      have hm : rd.mapped (rd.target - rd.n) = true := by simpa using hmap 0 (by omega)
      have hstep : lineRead killed (b :: (pre ++ C 'D' :: post)) rd =
          lineRead killed (pre ++ C 'D' :: post) { rd with n := rd.n - 1, copied := rd.copied ++ [b] } := by
        simp [lineRead, hn, Ne.symm hD.1, hm, Ne.symm hnl.1]
      have hmap' : ∀ j < pre.length, rd.mapped (rd.target - (rd.n - 1) + j) = true := by
        intro j hj
        rw [show rd.target - (rd.n - 1) + j = rd.target - rd.n + (j + 1) by omega]
        exact hmap (j + 1) (by omega)
      rw [List.cons_append, hstep, lineRead_pushback killed pre post _ hnl.2 hD.2
        (show pre.length < rd.n - 1 by omega) (show rd.n - 1 ≤ rd.target by omega)
        (.inr (show rd.n - 1 < rd.target by omega)) hmap']
      simp only [List.append_assoc, List.singleton_append, List.length_cons]
      refine Prod.ext rfl (Prod.ext ?_ ?_)
      · show { rd with n := rd.n - 1 - pre.length, copied := rd.copied ++ b :: pre } =
          { rd with n := rd.n - (pre.length + 1), copied := rd.copied ++ b :: pre }
        rw [Nat.sub_sub, Nat.add_comm 1]
      · show Outcome.done (rd.target - (rd.n - 1) + pre.length : Nat) =
          .done (rd.target - rd.n + (pre.length + 1) : Nat)
        congr 2
        omega

theorem consoleread_pushback {s : Cons} (h : ConsOk s) (killed : Bool) {rd : Read}
    {pre post : List UInt8} (hu : s.unread = pre ++ C 'D' :: post) (hnl : '\n'.toUInt8 ∉ pre)
    (hD : C 'D' ∉ pre) (hlt : pre.length < rd.n) (hle : rd.n ≤ rd.target)
    (hfirst : pre ≠ [] ∨ rd.n < rd.target)
    (hmap : ∀ j < pre.length, rd.mapped (rd.target - rd.n + j) = true) :
    (consoleread killed s rd).1.unread = C 'D' :: post := by
  rw [(consoleread_refines h killed rd).1, hu,
    lineRead_pushback killed pre post rd hnl hD hlt hle hfirst hmap]

theorem consoleread_eof {s : Cons} (h : ConsOk s) (killed : Bool) (hD : s.unread.head? = some (C 'D'))
    {n : Nat} (hn : 0 < n) (mapped : Nat → Bool) :
    (consoleread killed s ⟨n, n, [], mapped⟩).2.2 = .done 0 := by
  obtain ⟨post, hu⟩ : ∃ post, s.unread = C 'D' :: post := by
    cases hs : s.unread with
    | nil => simp [hs] at hD
    | cons b post =>
        rw [hs, List.head?_cons, Option.some_inj] at hD
        exact ⟨post, by rw [hD]⟩
  rw [(consoleread_refines h killed _).2.1, hu]
  simp [lineRead, Nat.pos_iff_ne_zero.mp hn]

theorem consoleread_spec {s : Cons} (h : ConsOk s) (killed : Bool) (rd : Read) (hle : rd.n ≤ rd.target) :
    ∃ new extra,
      ReadSplit rd (consoleread killed s rd).2.1 s.unread new extra (consoleread killed s rd).1.unread ∧
      Uncopied rd (consoleread killed s rd).2.1 new extra (consoleread killed s rd).2.2 ∧
      Ends killed rd (consoleread killed s rd).2.1 new extra (consoleread killed s rd).1.unread
        (consoleread killed s rd).2.2 ∧
      '\n'.toUInt8 ∉ new.dropLast ∧ C 'D' ∉ new := by
  obtain ⟨hunread, hrd, -⟩ := consoleread_refines h killed rd
  rw [hunread, hrd]
  exact lineRead_spec killed s.unread rd hle

end Takes

/-! ## The console with its readers -/

/-- The console, the reads asleep in `consoleread` by process, and three
histories the kernel does not keep: the bytes committed to readers, the bytes
reads took from the buffer, and the bytes reads returned, each in order. -/
structure ConsoleSys where
  cons : Cons
  reads : Nat → Option Read
  committed : List UInt8
  taken : List UInt8
  returned : List UInt8

/-- A step of the console: `consoleintr(c)` for a byte from the UART, a process
`p` calling `consoleread` for `n` bytes, or a read asleep in `consoleread`
running again. -/
inductive Action
  | intr (c : UInt8)
  | read (p n : Nat) (mapped : Nat → Bool) (killed : Bool)
  | wake (p : Nat) (killed : Bool)

/-- The console after `consoleinit`. -/
def ConsoleSys.init : ConsoleSys where
  cons := { buf := fun _ => 0, r := 0, w := 0, e := 0 }
  reads := fun _ => none
  committed := []
  taken := []
  returned := []

/-- `consoleintr`, recording the bytes it commits. -/
def ConsoleSys.intr (sys : ConsoleSys) (c : UInt8) : ConsoleSys :=
  { sys with
    cons := consoleintr c sys.cons
    committed := sys.committed ++ (consoleintr c sys.cons).unread.drop sys.cons.unread.length }

/-- The bytes a read returns to its caller. -/
def returnedBytes (rd : Read) : Outcome → List UInt8
  | .done ret => if 0 ≤ ret then rd.copied else []
  | .asleep => []

/-- A hold of `cons.lock` by `p`'s read, recording the bytes it takes and returns. -/
def ConsoleSys.runRead (sys : ConsoleSys) (p : Nat) (rd : Read) (killed : Bool) : ConsoleSys :=
  let res := consoleread killed sys.cons rd
  { sys with
    cons := res.1
    reads := fun q => if q = p then (if res.2.2 = .asleep then some res.2.1 else none) else sys.reads q
    taken := sys.taken ++ sys.cons.unread.take (sys.cons.unread.length - res.1.unread.length)
    returned := sys.returned ++ returnedBytes res.2.1 res.2.2 }

def step (sys : ConsoleSys) : Action → Option ConsoleSys
  | .intr c => some (sys.intr c)
  | .read p n mapped killed =>
      match sys.reads p with
      | none => some (sys.runRead p ⟨n, n, [], mapped⟩ killed)
      | some _ => none
  | .wake p killed =>
      match sys.reads p with
      | some rd => some (sys.runRead p rd killed)
      | none => none

/-- The console states reachable from `consoleinit`. -/
def Reachable (sys : ConsoleSys) : Prop := StepSystem.Reachable step ConsoleSys.init sys

theorem step_read_inv {sys sys' : ConsoleSys} {p n : Nat} {mapped : Nat → Bool} {killed : Bool}
    (h : step sys (.read p n mapped killed) = some sys') :
    sys.reads p = none ∧ sys' = sys.runRead p ⟨n, n, [], mapped⟩ killed := by
  simp only [step] at h
  split at h
  · next hnone =>
      cases h
      exact ⟨hnone, rfl⟩
  · cases h

theorem step_wake_inv {sys sys' : ConsoleSys} {p : Nat} {killed : Bool}
    (h : step sys (.wake p killed) = some sys') :
    ∃ rd, sys.reads p = some rd ∧ sys' = sys.runRead p rd killed := by
  simp only [step] at h
  split at h
  · next rd hrd =>
      cases h
      exact ⟨rd, hrd, rfl⟩
  · cases h

/-! ## Invariants of every run -/

/-- A read asleep in `consoleread` has copied part of a line, with no `^D`, and
still wants bytes. -/
structure ReadOk (rd : Read) : Prop where
  count : rd.n + rd.copied.length = rd.target
  pos : 0 < rd.n
  noNewline : '\n'.toUInt8 ∉ rd.copied
  noD : C 'D' ∉ rd.copied

/-- The console invariant: ordered indices, a lossless queue from
`consoleintr` to the readers, and well-formed sleeping reads. -/
structure SysOk (sys : ConsoleSys) : Prop where
  cons : ConsOk sys.cons
  fifo : sys.committed = sys.taken ++ sys.cons.unread
  reads : ∀ p rd, sys.reads p = some rd → ReadOk rd

section Runs

variable {sys sys' : ConsoleSys}

theorem sysOk_init : SysOk ConsoleSys.init where
  cons := ⟨by decide, by decide⟩
  fifo := rfl
  reads := fun _ _ h => by cases h

theorem lineIntr_prefix (c : UInt8) (unread edit : List UInt8) :
    unread <+: (lineIntr c unread edit).1 := by
  unfold lineIntr
  dsimp only
  split_ifs <;> simp

theorem SysOk.intr (h : SysOk sys) (c : UInt8) : SysOk (sys.intr c) := by
  obtain ⟨hunread, -, hok⟩ := consoleintr_refines h.cons c
  have hpre : sys.cons.unread <+: (consoleintr c sys.cons).unread := by
    rw [hunread]
    exact lineIntr_prefix c _ _
  obtain ⟨added, hadded⟩ := hpre
  refine ⟨hok, ?_, h.reads⟩
  show sys.committed ++ (consoleintr c sys.cons).unread.drop sys.cons.unread.length =
    sys.taken ++ (consoleintr c sys.cons).unread
  rw [← hadded, List.drop_left, h.fifo, List.append_assoc]

theorem SysOk.runRead (h : SysOk sys) {p : Nat} {rd : Read} (killed : Bool)
    (hrd : rd.n + rd.copied.length = rd.target) (hnl : '\n'.toUInt8 ∉ rd.copied)
    (hD : C 'D' ∉ rd.copied) : SysOk (sys.runRead p rd killed) := by
  obtain ⟨-, -, -, -, -, hok⟩ := consoleread_refines h.cons killed rd
  obtain ⟨new, extra, hsplit, -, hends, hline, hnoD⟩ := consoleread_spec h.cons killed rd (by omega)
  refine ⟨hok, ?_, fun q rd'' hq => ?_⟩
  · show sys.committed = (sys.taken ++ sys.cons.unread.take
      (sys.cons.unread.length - (consoleread killed sys.cons rd).1.unread.length)) ++
        (consoleread killed sys.cons rd).1.unread
    rw [take_consumed hsplit.input, h.fifo, hsplit.input]
    simp only [List.append_assoc]
  · simp only [ConsoleSys.runRead] at hq
    by_cases hqp : q = p
    · rw [if_pos hqp] at hq
      by_cases hslept : (consoleread killed sys.cons rd).2.2 = .asleep
      · rw [if_pos hslept] at hq
        cases hq
        obtain ⟨-, -, hnew, hpos, -⟩ := hends.1 hslept
        have hcount := hsplit.count
        refine ⟨?_, hpos, ?_, ?_⟩
        · rw [hsplit.copied, hsplit.target, List.length_append]
          omega
        · rw [hsplit.copied]
          simp [hnl, hnew]
        · rw [hsplit.copied]
          simp [hD, hnoD]
      · rw [if_neg hslept] at hq
        cases hq
    · rw [if_neg hqp] at hq
      exact h.reads q rd'' hq

theorem sysOk_step {a : Action} (h : SysOk sys) (hstep : step sys a = some sys') : SysOk sys' := by
  cases a with
  | intr c =>
      cases hstep
      exact h.intr c
  | read p n mapped killed =>
      obtain ⟨-, rfl⟩ := step_read_inv hstep
      exact h.runRead killed (by simp) (by simp) (by simp)
  | wake p killed =>
      obtain ⟨rd, hrd, rfl⟩ := step_wake_inv hstep
      have hok := h.reads p rd hrd
      exact h.runRead killed hok.count hok.noNewline hok.noD

theorem reachable_sysOk (hs : Reachable sys) : SysOk sys :=
  StepSystem.Reachable.invariant sysOk_init (fun _ _ _ _ h hstep => sysOk_step h hstep) hs

theorem not_mem_dropLast_append {x : UInt8} {l l' : List UInt8} (h : x ∉ l) (h' : x ∉ l'.dropLast) :
    x ∉ (l ++ l').dropLast := by
  by_cases hl' : l' = []
  · subst hl'
    rw [List.append_nil]
    exact fun hx => h (List.dropLast_subset l hx)
  · rw [List.dropLast_append_of_ne_nil hl', List.mem_append, not_or]
    exact ⟨h, h'⟩

theorem SysOk.runRead_line (h : SysOk sys) {p : Nat} {rd : Read} (killed : Bool)
    (hrd : rd.n + rd.copied.length = rd.target) (hnl : '\n'.toUInt8 ∉ rd.copied) :
    ∃ chunk, (sys.runRead p rd killed).returned = sys.returned ++ chunk ∧
      '\n'.toUInt8 ∉ chunk.dropLast := by
  obtain ⟨new, extra, hsplit, -, -, hline, -⟩ := consoleread_spec h.cons killed rd (by omega)
  refine ⟨returnedBytes (consoleread killed sys.cons rd).2.1 (consoleread killed sys.cons rd).2.2,
    rfl, ?_⟩
  cases (consoleread killed sys.cons rd).2.2 with
  | asleep => simp [returnedBytes]
  | done ret =>
      by_cases hret : 0 ≤ ret
      · rw [returnedBytes, if_pos hret, hsplit.copied]
        exact not_mem_dropLast_append hnl hline
      · rw [returnedBytes, if_neg hret]
        simp

theorem step_returned_line {a : Action} (h : SysOk sys) (hstep : step sys a = some sys') :
    ∃ chunk, sys'.returned = sys.returned ++ chunk ∧ '\n'.toUInt8 ∉ chunk.dropLast := by
  cases a with
  | intr c =>
      cases hstep
      exact ⟨[], (List.append_nil _).symm, by simp⟩
  | read p n mapped killed =>
      obtain ⟨-, rfl⟩ := step_read_inv hstep
      exact h.runRead_line killed (by simp) (by simp)
  | wake p killed =>
      obtain ⟨rd, hrd, rfl⟩ := step_wake_inv hstep
      have hok := h.reads p rd hrd
      exact h.runRead_line killed hok.count hok.noNewline

end Runs

/-! ## One reader whose copies succeed -/

/-- The actions of a run in which only process 0 reads, every copy to its
buffer succeeds, and it is never killed. -/
def Action.orderly : Action → Action
  | .intr c => .intr c
  | .read _ n _ _ => .read 0 n (fun _ => true) false
  | .wake _ _ => .wake 0 false

def orderlyStep (sys : ConsoleSys) (a : Action) : Option ConsoleSys := step sys a.orderly

/-- The bytes the read of process 0 under way has copied. -/
def pending (sys : ConsoleSys) : List UInt8 := ((sys.reads 0).map Read.copied).getD []

/-- In an orderly run, the bytes taken from the buffer, less the `^D`s, are
the bytes returned and those the read under way holds. -/
structure OrderlyOk (sys : ConsoleSys) : Prop where
  ok : SysOk sys
  only : ∀ p, p ≠ 0 → sys.reads p = none
  copies : ∀ rd, sys.reads 0 = some rd → ∀ k, rd.mapped k = true
  stream : sys.taken.filter (· ≠ C 'D') = sys.returned ++ pending sys

section Orderly

variable {sys sys' : ConsoleSys}

theorem orderlyOk_init : OrderlyOk ConsoleSys.init where
  ok := sysOk_init
  only _ _ := rfl
  copies _ h := by cases h
  stream := rfl

theorem OrderlyOk.intr (h : OrderlyOk sys) (c : UInt8) : OrderlyOk (sys.intr c) :=
  ⟨h.ok.intr c, h.only, h.copies, h.stream⟩

theorem filter_notD {new : List UInt8} (h : C 'D' ∉ new) : new.filter (· ≠ C 'D') = new := by
  rw [List.filter_eq_self]
  intro x hx
  have : x ≠ C 'D' := fun hxD => h (hxD ▸ hx)
  simpa using this

/-- A hold of `cons.lock` by process 0's read, with every copy succeeding and
the reader not killed, takes only bytes it copies and `^D`s. -/
theorem OrderlyOk.runRead (h : OrderlyOk sys) {rd : Read} (hcopies : ∀ k, rd.mapped k = true)
    (hrd : rd.n + rd.copied.length = rd.target) (hnl : '\n'.toUInt8 ∉ rd.copied)
    (hD : C 'D' ∉ rd.copied) (hpend : pending sys = rd.copied) :
    OrderlyOk (sys.runRead 0 rd false) := by
  obtain ⟨new, extra, hsplit, hunc, hends, -, hnoD⟩ := consoleread_spec h.ok.cons false rd (by omega)
  have hextra : extra.filter (· ≠ C 'D') = [] := by
    rcases hunc with rfl | ⟨rfl, -⟩ | ⟨b, -, -, hfail⟩
    · rfl
    · simp
    · rw [hcopies] at hfail
      cases hfail
  refine ⟨h.ok.runRead false hrd hnl hD, fun p hp => ?_, fun rd' hrd'' k => ?_, ?_⟩
  · simp only [ConsoleSys.runRead, if_neg hp]
    exact h.only p hp
  · simp only [ConsoleSys.runRead, if_true] at hrd''
    by_cases hslept : (consoleread false sys.cons rd).2.2 = .asleep
    · rw [if_pos hslept] at hrd''
      cases hrd''
      rw [hsplit.mapped]
      exact hcopies k
    · rw [if_neg hslept] at hrd''
      cases hrd''
  · show (sys.taken ++ sys.cons.unread.take (sys.cons.unread.length -
        (consoleread false sys.cons rd).1.unread.length)).filter (· ≠ C 'D') =
      (sys.returned ++ returnedBytes (consoleread false sys.cons rd).2.1
        (consoleread false sys.cons rd).2.2) ++
        (((if (consoleread false sys.cons rd).2.2 = .asleep then
          some (consoleread false sys.cons rd).2.1 else none) : Option Read).map Read.copied).getD []
    rw [take_consumed hsplit.input, List.filter_append, List.filter_append, hextra, filter_notD hnoD, h.stream, hpend,
      List.append_nil]
    cases ho : (consoleread false sys.cons rd).2.2 with
    | asleep => simp [returnedBytes, hsplit.copied]
    | done ret =>
        rcases hends.2 ret ho with ⟨-, hk, -⟩ | hret
        · cases hk
        · simp [returnedBytes, hret, hsplit.copied]

theorem orderlyOk_step {a : Action} (h : OrderlyOk sys) (hstep : orderlyStep sys a = some sys') :
    OrderlyOk sys' := by
  cases a with
  | intr c =>
      cases hstep
      exact h.intr c
  | read p n mapped killed =>
      obtain ⟨hnone, rfl⟩ := step_read_inv hstep
      have hpend : pending sys = [] := by simp [pending, hnone]
      exact h.runRead (fun _ => rfl) (by simp) (by simp) (by simp) hpend
  | wake p killed =>
      obtain ⟨rd, hrd, rfl⟩ := step_wake_inv hstep
      have hok := h.ok.reads 0 rd hrd
      exact h.runRead (h.copies rd hrd) hok.count hok.noNewline hok.noD (by simp [pending, hrd])

theorem orderly_stream (hs : StepSystem.Reachable orderlyStep ConsoleSys.init sys) :
    sys.returned ++ pending sys ++ sys.cons.unread.filter (· ≠ C 'D') =
      sys.committed.filter (· ≠ C 'D') := by
  have h : OrderlyOk sys := StepSystem.Reachable.invariant orderlyOk_init
    (fun _ _ _ _ h hstep => orderlyOk_step h hstep) hs
  rw [h.ok.fifo, List.filter_append, h.stream]

theorem reachable_of_orderly (hs : StepSystem.Reachable orderlyStep ConsoleSys.init sys) :
    Reachable sys :=
  StepSystem.Reachable.of_relabel Action.orderly (fun _ _ => rfl) hs

end Orderly

/-! ## The line discipline -/

section Contract

/-- The reads return the committed input, less its `^D`s, in order and with
nothing lost: what they have returned is always a prefix of it. -/
def ReadsReturnCommitted : Prop :=
  ∀ sys, Reachable sys → sys.returned <+: sys.committed.filter (· ≠ C 'D')

/-- A line "a\r" is typed; a read whose first copy to user memory fails
consumes the "a" and returns 0, and the next read returns "\n". -/
def lostByteRun : List Action :=
  [.intr 'a'.toUInt8, .intr '\r'.toUInt8, .read 0 10 (fun _ => false) false,
    .read 0 10 (fun _ => true) false]

theorem reads_return_committed_fails : ¬ ReadsReturnCommitted := by
  intro hall
  have hrun : ∃ sys, Reachable sys ∧ ¬ sys.returned <+: sys.committed.filter (· ≠ C 'D') :=
    StepSystem.exists_reachable_of_check .init lostByteRun _ (by decide)
  obtain ⟨sys, hs, hlost⟩ := hrun
  exact hlost (hall sys hs)

/-- The line discipline: the indices stay ordered and within the buffer, and
the input taken by reads is the committed input in order; erase and kill move
only `e`, back towards `w`; each read returns at most one line; each hold of
`cons.lock` copies bytes from the front of the unread input and consumes at most
one more, a leading `^D` or a byte whose copy failed; a `^D` after copied bytes
is left as the next read's first byte, and that read returns 0; and when every
copy succeeds and no reader is killed, the reads return the committed input
less its `^D`s, exactly. -/
theorem console_contract :
    (∀ sys, Reachable sys → ConsOk sys.cons ∧ sys.committed = sys.taken ++ sys.cons.unread) ∧
    (∀ s c, (c = C 'H' ∨ c = 0x7f ∨ c = C 'U') →
      (consoleintr c s).r = s.r ∧ (consoleintr c s).w = s.w ∧ (consoleintr c s).buf = s.buf ∧
        dist s.w (consoleintr c s).e ≤ dist s.w s.e) ∧
    (∀ sys a sys', Reachable sys → step sys a = some sys' →
      ∃ chunk, sys'.returned = sys.returned ++ chunk ∧ '\n'.toUInt8 ∉ chunk.dropLast) ∧
    (∀ sys p rd killed, Reachable sys →
      (sys.reads p = some rd ∨ (sys.reads p = none ∧ rd.copied = [] ∧ rd.n = rd.target)) →
      ∃ new extra,
        ReadSplit rd (consoleread killed sys.cons rd).2.1 sys.cons.unread new extra
          (consoleread killed sys.cons rd).1.unread ∧
        Uncopied rd (consoleread killed sys.cons rd).2.1 new extra (consoleread killed sys.cons rd).2.2 ∧
        Ends killed rd (consoleread killed sys.cons rd).2.1 new extra
          (consoleread killed sys.cons rd).1.unread (consoleread killed sys.cons rd).2.2) ∧
    (∀ s rd killed pre post, ConsOk s → s.unread = pre ++ C 'D' :: post →
      '\n'.toUInt8 ∉ pre → C 'D' ∉ pre → pre.length < rd.n → rd.n ≤ rd.target →
      (pre ≠ [] ∨ rd.n < rd.target) → (∀ j < pre.length, rd.mapped (rd.target - rd.n + j) = true) →
      (consoleread killed s rd).1.unread = C 'D' :: post) ∧
    (∀ s n mapped killed, ConsOk s → s.unread.head? = some (C 'D') → 0 < n →
      (consoleread killed s ⟨n, n, [], mapped⟩).2.2 = .done 0) ∧
    (∀ sys, StepSystem.Reachable orderlyStep ConsoleSys.init sys → Reachable sys ∧
      sys.returned ++ pending sys ++ sys.cons.unread.filter (· ≠ C 'D') =
        sys.committed.filter (· ≠ C 'D')) := by
  refine ⟨fun sys hs => ?_, fun s c hc => consoleintr_erase s hc,
    fun sys a sys' hs hstep => step_returned_line (reachable_sysOk hs) hstep,
    fun sys p rd killed hs hrd => ?_,
    fun s rd killed pre post h hu hnl hD hlt hle hfirst hmap =>
      consoleread_pushback h killed hu hnl hD hlt hle hfirst hmap,
    fun s n mapped killed h hD hn => consoleread_eof h killed hD hn mapped,
    fun sys hs => ⟨reachable_of_orderly hs, orderly_stream hs⟩⟩
  · have h := reachable_sysOk hs
    exact ⟨h.cons, h.fifo⟩
  · -- a pending read has copied fewer bytes than it asked for; a fresh one none
    have h := reachable_sysOk hs
    have hle : rd.n ≤ rd.target := by
      rcases hrd with hrd | ⟨-, -, hfresh⟩
      · have := (h.reads p rd hrd).count
        omega
      · exact hfresh.le
    obtain ⟨new, extra, hsplit, hunc, hends, -⟩ := consoleread_spec h.cons killed rd hle
    exact ⟨new, extra, hsplit, hunc, hends⟩

end Contract

end Xv6Mlfq.Console
