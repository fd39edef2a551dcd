import Xv6Mlfq.Fs

/-!
What a file holds, as readi sees it: its bytes through the inode's block map,
a block the map does not hold reading as the zeroes balloc would give it. Over
an inode whose map is sound (its block numbers distinct and marked in use),
bmap never changes what the file holds, writei puts the written bytes at
[off, off + n) and leaves every other byte, and readi returns the bytes.
-/

namespace Xv6Mlfq.Fs

section View

/-- Where an inode's map holds a block number: addrs[j], addrs[NDIRECT] (the
indirect block) and entry e of the indirect block. -/
inductive Slot where
  | direct (j : Nat)
  | indirect
  | entry (e : Nat)
  deriving DecidableEq

/-- The block number held at a slot; 0 for a slot out of range or under an
unmapped indirect block. -/
def slotAddr (img : FsImage) (ip : Dinode) : Slot → Nat
  | .direct j => if h : j < ndirect then ip.addrs ⟨j, Nat.lt_succ_of_lt h⟩ else 0
  | .indirect => ip.addrs (Fin.last ndirect)
  | .entry e =>
      if e < nindirect ∧ ip.addrs (Fin.last ndirect) ≠ 0 then
        (img.block (ip.addrs (Fin.last ndirect))).uint e
      else 0

/-- The slot bmap looks in for block bn of a file. -/
def slotOf (bn : Nat) : Slot := if bn < ndirect then .direct bn else .entry (bn - ndirect)

/-- Block bn of the file as readi sees it: an unmapped block reads as the
zeroes balloc gives a new block. -/
def fileBlock (img : FsImage) (ip : Dinode) (bn : Nat) : Block :=
  if slotAddr img ip (slotOf bn) = 0 then zeroBlock else img.block (slotAddr img ip (slotOf bn))

/-- Byte k of the file. -/
def fileByte (img : FsImage) (ip : Dinode) (k : Nat) : UInt8 :=
  fileBlock img ip (k / bsize) (k % bsize)

/-- An inode's map is sound: the block numbers it holds are distinct and
marked in use, and every block number fits a uint. -/
structure MapOk (img : FsImage) (ip : Dinode) : Prop where
  inj : ∀ s t, slotAddr img ip s ≠ 0 → slotAddr img ip s = slotAddr img ip t → s = t
  used : ∀ s, slotAddr img ip s ≠ 0 → img.bitmap (slotAddr img ip s) = true
  fits : img.sb.size ≤ 2 ^ 32

theorem Block.uint_zero (i : Nat) : zeroBlock.uint i = 0 := rfl

theorem Block.uint_setUint_self (b : Block) (i : Nat) {x : Nat} (hx : x < 2 ^ 32) :
    (b.setUint i x).uint i = x := by
  simp (disch := omega) only [Block.uint, Block.setUint, if_neg, ↓reduceIte, UInt8.toNat_ofNat']
  omega

theorem Block.uint_setUint_of_ne (b : Block) {i j : Nat} (x : Nat) (h : i ≠ j) :
    (b.setUint i x).uint j = b.uint j := by
  simp (disch := omega) only [Block.uint, Block.setUint, if_neg]

theorem slotAddr_congr {img img' : FsImage} {ip : Dinode}
    (h : ip.addrs (Fin.last ndirect) ≠ 0 →
      img'.block (ip.addrs (Fin.last ndirect)) = img.block (ip.addrs (Fin.last ndirect))) :
    slotAddr img' ip = slotAddr img ip := by
  funext t
  cases t with
  | direct j => rfl
  | indirect => rfl
  | entry e =>
      simp only [slotAddr]
      split_ifs with he
      · rw [h he.2]
      · rfl

theorem slotOf_injective : Function.Injective slotOf := by
  intro bn bn' h
  unfold slotOf at h
  split_ifs at h <;> simp only [Slot.direct.injEq, Slot.entry.injEq] at h <;> omega

theorem slotOf_ne_indirect (bn : Nat) : slotOf bn ≠ .indirect := by
  unfold slotOf
  split_ifs <;> simp

/-- Every block number the map held it still holds: bmap only fills empty slots. -/
def Keeps (img : FsImage) (ip : Dinode) (img' : FsImage) (ip' : Dinode) : Prop :=
  ∀ s, slotAddr img ip s ≠ 0 → slotAddr img' ip' s = slotAddr img ip s

theorem Keeps.refl (img : FsImage) (ip : Dinode) : Keeps img ip img ip := fun _ _ => rfl

theorem Keeps.trans {img img₁ img₂ : FsImage} {ip ip₁ ip₂ : Dinode} (h₁ : Keeps img ip img₁ ip₁)
    (h₂ : Keeps img₁ ip₁ img₂ ip₂) : Keeps img ip img₂ ip₂ :=
  fun s hs => (h₂ s ((h₁ s hs).symm ▸ hs)).trans (h₁ s hs)

theorem Keeps.of_eq {img img' : FsImage} {ip ip' : Dinode} (h : slotAddr img' ip' = slotAddr img ip) :
    Keeps img ip img' ip' := fun s _ => congrFun h s

theorem Keeps.of_update {img img' : FsImage} {ip ip' : Dinode} {s : Slot} {b : Nat}
    (hs : slotAddr img ip s = 0) (h : slotAddr img' ip' = Function.update (slotAddr img ip) s b) :
    Keeps img ip img' ip' := fun t ht => by
  rw [h]
  refine Function.update_of_ne (fun hts => ht ?_) _ _
  rw [hts]
  exact hs

/-- Filling an empty slot with a fresh block, zeroed if it holds data, keeps
the map sound and the file's contents as they were. -/
theorem MapOk.fill {img img' : FsImage} {ip ip' : Dinode} {s : Slot} {b : Nat} (hok : MapOk img ip)
    (hs : slotAddr img ip s = 0) (hb : b ≠ 0) (hfree : img.bitmap b = false)
    (hslot : slotAddr img' ip' = Function.update (slotAddr img ip) s b)
    (hbm : ∀ a, img.bitmap a = true → img'.bitmap a = true) (hbb : img'.bitmap b = true)
    (hsb : img'.sb = img.sb)
    (hdata : ∀ bn, slotOf bn ≠ s → slotAddr img ip (slotOf bn) ≠ 0 →
      img'.block (slotAddr img ip (slotOf bn)) = img.block (slotAddr img ip (slotOf bn)))
    (hzero : ∀ bn, slotOf bn = s → img'.block b = zeroBlock) :
    MapOk img' ip' ∧ fileBlock img' ip' = fileBlock img ip := by
  -- b is no other slot's block: those are marked in use, b was not
  have hfresh : ∀ t, t ≠ s → slotAddr img ip t ≠ b := by
    intro t _ htb
    have := hok.used t (htb ▸ hb)
    rw [htb, hfree] at this
    cases this
  refine ⟨⟨fun t u ht htu => ?_, fun t ht => ?_, hsb ▸ hok.fits⟩, ?_⟩
  · rw [hslot] at ht htu
    rcases eq_or_ne t s with rfl | hts <;> rcases eq_or_ne u t with rfl | hut
    · rfl
    · rw [Function.update_self, Function.update_of_ne hut] at htu
      exact absurd htu.symm (hfresh u hut)
    · rfl
    · rcases eq_or_ne u s with rfl | hus
      · rw [Function.update_self, Function.update_of_ne hts] at htu
        exact absurd htu (hfresh t hts)
      · rw [Function.update_of_ne hts, Function.update_of_ne hus] at htu
        rw [Function.update_of_ne hts] at ht
        exact hok.inj t u ht htu
  · rw [hslot] at ht ⊢
    rcases eq_or_ne t s with rfl | hts
    · rw [Function.update_self]
      exact hbb
    · rw [Function.update_of_ne hts] at ht ⊢
      exact hbm _ (hok.used t ht)
  · funext bn
    unfold fileBlock
    rw [hslot]
    rcases eq_or_ne (slotOf bn) s with hbs | hbs
    · rw [hbs, Function.update_self, if_neg hb, hzero bn hbs, hs, if_pos rfl]
    · rw [Function.update_of_ne hbs]
      split_ifs with h0
      · rfl
      · exact hdata bn hbs h0

theorem MapOk.frame {img img' : FsImage} {ip ip' : Dinode} (hok : MapOk img ip)
    (hslot : slotAddr img' ip' = slotAddr img ip)
    (hbm : ∀ a, img.bitmap a = true → img'.bitmap a = true) (hsb : img'.sb = img.sb)
    (hdata : ∀ bn, slotAddr img ip (slotOf bn) ≠ 0 →
      img'.block (slotAddr img ip (slotOf bn)) = img.block (slotAddr img ip (slotOf bn))) :
    MapOk img' ip' ∧ fileBlock img' ip' = fileBlock img ip := by
  refine ⟨⟨fun t u => hslot ▸ hok.inj t u, fun t ht => ?_, hsb ▸ hok.fits⟩, ?_⟩
  · rw [hslot] at ht ⊢
    exact hbm _ (hok.used t ht)
  · funext bn
    unfold fileBlock
    rw [hslot]
    split_ifs with h0
    · rfl
    · exact hdata bn h0

theorem MapOk.balloc_zero {img img' : FsImage} {ip : Dinode} (hok : MapOk img ip)
    (h : balloc img = (0, img')) :
    MapOk img' ip ∧ fileBlock img' ip = fileBlock img ip ∧ slotAddr img' ip = slotAddr img ip := by
  obtain ⟨hsb, -, hblk, hbm, -⟩ := balloc_spec h
  have hslot : slotAddr img' ip = slotAddr img ip := slotAddr_congr fun hind => hblk _ hind
  exact ⟨(hok.frame hslot hbm hsb fun _ h0 => hblk _ h0).1,
    (hok.frame hslot hbm hsb fun _ h0 => hblk _ h0).2, hslot⟩

theorem MapOk.ne_fresh {img : FsImage} {ip : Dinode} (hok : MapOk img ip) {t : Slot} {b : Nat}
    (ht : slotAddr img ip t ≠ 0) (hfree : img.bitmap b = false) : slotAddr img ip t ≠ b := by
  intro htb
  have := hok.used t ht
  rw [htb, hfree] at this
  cases this

theorem slotAddr_setAddr_direct (img : FsImage) (ip : Dinode) {j : Nat} (hj : j < ndirect) (a : Nat) :
    slotAddr img (ip.setAddr ⟨j, Nat.lt_succ_of_lt hj⟩ a) =
      Function.update (slotAddr img ip) (.direct j) a := by
  have hlast : (Fin.last ndirect) ≠ ⟨j, Nat.lt_succ_of_lt hj⟩ := Fin.ne_of_val_ne (Nat.ne_of_gt hj)
  funext t
  cases t with
  | direct j' =>
      rcases eq_or_ne j' j with rfl | hne
      · simp only [slotAddr, Dinode.setAddr, dif_pos hj, Function.update_self]
      · rw [Function.update_of_ne (by simpa using hne)]
        simp only [slotAddr, Dinode.setAddr]
        split_ifs with h'
        · exact Function.update_of_ne (Fin.ne_of_val_ne hne) _ _
        · rfl
  | indirect =>
      rw [Function.update_of_ne (by simp)]
      exact Function.update_of_ne hlast _ _
  | entry e =>
      rw [Function.update_of_ne (by simp)]
      simp only [slotAddr, Dinode.setAddr, Function.update_of_ne hlast]

theorem slotAddr_setAddr_last {img : FsImage} {ip : Dinode} {b : Nat}
    (hz : ip.addrs (Fin.last ndirect) = 0) (hzero : img.block b = zeroBlock) :
    slotAddr img (ip.setAddr (Fin.last ndirect) b) = Function.update (slotAddr img ip) .indirect b := by
  funext t
  cases t with
  | direct j =>
      rw [Function.update_of_ne (by simp)]
      simp only [slotAddr, Dinode.setAddr]
      split_ifs with hj
      · exact Function.update_of_ne (Fin.ne_of_val_ne (Nat.ne_of_lt hj)) _ _
      · rfl
  | indirect => simp only [slotAddr, Dinode.setAddr, Function.update_self]
  | entry e =>
      rw [Function.update_of_ne (by simp)]
      simp only [slotAddr, Dinode.setAddr, Function.update_self, hz, hzero, Block.uint_zero, ne_eq,
        not_true_eq_false, and_false, ↓reduceIte, ite_self]

theorem slotAddr_setUint {img img' : FsImage} {ip : Dinode} {e x : Nat}
    (hind : ip.addrs (Fin.last ndirect) ≠ 0) (he : e < nindirect) (hx : x < 2 ^ 32)
    (hblk : img'.block (ip.addrs (Fin.last ndirect)) =
      (img.block (ip.addrs (Fin.last ndirect))).setUint e x) :
    slotAddr img' ip = Function.update (slotAddr img ip) (.entry e) x := by
  funext t
  cases t with
  | direct j =>
      rw [Function.update_of_ne (by simp)]
      rfl
  | indirect =>
      rw [Function.update_of_ne (by simp)]
      rfl
  | entry e' =>
      rcases eq_or_ne e' e with rfl | hne
      · simp only [slotAddr, Function.update_self, if_pos (And.intro he hind), hblk]
        exact Block.uint_setUint_self _ _ hx
      · rw [Function.update_of_ne (by simpa using hne)]
        simp only [slotAddr, hblk]
        split_ifs
        · exact Block.uint_setUint_of_ne _ _ (Ne.symm hne)
        · rfl

/-- bmap's indirect half keeps the map sound and the contents as they were,
and a block it returns is the one the entry now holds. -/
theorem MapOk.of_bmapIndirect {img img' : FsImage} {ip : Dinode} {e a : Nat} (hok : MapOk img ip)
    (hind : ip.addrs (Fin.last ndirect) ≠ 0) (he : e < nindirect)
    (h : bmapIndirect img (ip.addrs (Fin.last ndirect)) e = (a, img')) :
    MapOk img' ip ∧ fileBlock img' ip = fileBlock img ip ∧ (a ≠ 0 → slotAddr img' ip (.entry e) = a) ∧
      img'.sb = img.sb ∧ img'.dinode = img.dinode ∧ Keeps img ip img' ip := by
  have hentry : slotAddr img ip (.entry e) = (img.block (ip.addrs (Fin.last ndirect))).uint e := by
    simp only [slotAddr, if_pos (And.intro he hind)]
  unfold bmapIndirect at h
  split_ifs at h with hz
  · split at h
    · rename_i img₁ hbal
      obtain ⟨rfl, rfl⟩ := Prod.mk.inj h
      obtain ⟨hok', hview, hslot⟩ := hok.balloc_zero hbal
      obtain ⟨hsb, hdin, -⟩ := balloc_spec hbal
      exact ⟨hok', hview, fun h0 => absurd rfl h0, hsb, hdin, .of_eq hslot⟩
    · rename_i b img₁ hb hbal
      obtain ⟨rfl, rfl⟩ := Prod.mk.inj h
      obtain ⟨hsb, hdin, hblk, hbm, hnew⟩ := balloc_spec hbal
      obtain ⟨hfree, hlt, hbb, hzero⟩ := hnew hb
      have hindb : ip.addrs (Fin.last ndirect) ≠ b := hok.ne_fresh (t := .indirect) hind hfree
      have hslot : slotAddr (img₁.setBlock (ip.addrs (Fin.last ndirect))
          ((img.block (ip.addrs (Fin.last ndirect))).setUint e b)) ip =
          Function.update (slotAddr img ip) (.entry e) b :=
        slotAddr_setUint hind he (Nat.lt_of_lt_of_le hlt hok.fits) (Function.update_self _ _ _)
      -- the file's data blocks are neither the new block nor the indirect block
      have hdata : ∀ bn, slotOf bn ≠ .entry e → slotAddr img ip (slotOf bn) ≠ 0 →
          (img₁.setBlock (ip.addrs (Fin.last ndirect))
            ((img.block (ip.addrs (Fin.last ndirect))).setUint e b)).block (slotAddr img ip (slotOf bn)) =
            img.block (slotAddr img ip (slotOf bn)) := by
        intro bn _ h0
        have hne : slotAddr img ip (slotOf bn) ≠ ip.addrs (Fin.last ndirect) := fun heq =>
          slotOf_ne_indirect bn (hok.inj _ .indirect h0 heq)
        simp only [FsImage.setBlock, Function.update_of_ne hne]
        exact hblk _ (hok.ne_fresh h0 hfree)
      have hzero' : ∀ bn, slotOf bn = .entry e →
          (img₁.setBlock (ip.addrs (Fin.last ndirect))
            ((img.block (ip.addrs (Fin.last ndirect))).setUint e b)).block b = zeroBlock := by
        intro _ _
        simp only [FsImage.setBlock, Function.update_of_ne hindb.symm]
        exact hzero
      obtain ⟨hok', hview⟩ := hok.fill (hentry.trans hz) hb hfree hslot hbm hbb hsb hdata hzero'
      exact ⟨hok', hview, fun _ => (congrFun hslot _).trans (Function.update_self _ _ _), hsb, hdin,
        .of_update (hentry.trans hz) hslot⟩
  · obtain ⟨rfl, rfl⟩ := Prod.mk.inj h
    exact ⟨hok, rfl, fun _ => hentry, rfl, rfl, .refl img ip⟩

theorem slotOf_of_lt {bn : Nat} (h : bn < ndirect) : slotOf bn = .direct bn := if_pos h

theorem slotOf_of_ge {bn : Nat} (h : ¬bn < ndirect) : slotOf bn = .entry (bn - ndirect) := if_neg h

/-- bmap keeps the map sound and the file's contents as they were (a block it
allocates reads as the zeroes it read as before), and a block it returns is
the one the map now holds for bn. -/
theorem MapOk.of_bmap {img img' : FsImage} {ip ip' : Dinode} {bn a : Nat} (hok : MapOk img ip)
    (h : bmap img ip bn = some (a, ip', img')) :
    MapOk img' ip' ∧ fileBlock img' ip' = fileBlock img ip ∧
      (a ≠ 0 → slotAddr img' ip' (slotOf bn) = a) ∧ ip'.size = ip.size ∧ img'.sb = img.sb ∧
      img'.dinode = img.dinode ∧ Keeps img ip img' ip' := by
  unfold bmap at h
  dsimp only at h
  split_ifs at h with hbn hz hrange hind
  · have hs : slotAddr img ip (.direct bn) = 0 := by simp only [slotAddr, dif_pos hbn, hz]
    split at h <;> simp only [Option.some.injEq, Prod.mk.injEq] at h
    · rename_i img₁ hbal
      obtain ⟨rfl, rfl, rfl⟩ := h
      obtain ⟨hok', hview, hslot⟩ := hok.balloc_zero hbal
      obtain ⟨hsb, hdin, -⟩ := balloc_spec hbal
      exact ⟨hok', hview, fun h0 => absurd rfl h0, rfl, hsb, hdin, .of_eq hslot⟩
    · rename_i b img₁ hb hbal
      obtain ⟨rfl, rfl, rfl⟩ := h
      obtain ⟨hsb, hdin, hblk, hbm, hnew⟩ := balloc_spec hbal
      obtain ⟨hfree, -, hbb, hzero⟩ := hnew hb
      have hslot : slotAddr img₁ (ip.setAddr ⟨bn, Nat.lt_succ_of_lt hbn⟩ b) =
          Function.update (slotAddr img ip) (.direct bn) b := by
        have hlast : (ip.setAddr ⟨bn, Nat.lt_succ_of_lt hbn⟩ b).addrs (Fin.last ndirect) =
            ip.addrs (Fin.last ndirect) :=
          Function.update_of_ne (Fin.ne_of_val_ne (Nat.ne_of_gt hbn)) _ _
        have hcongr : slotAddr img₁ (ip.setAddr ⟨bn, Nat.lt_succ_of_lt hbn⟩ b) =
            slotAddr img (ip.setAddr ⟨bn, Nat.lt_succ_of_lt hbn⟩ b) := slotAddr_congr fun hind => by
          rw [hlast] at hind ⊢
          exact hblk _ (hok.ne_fresh (t := .indirect) hind hfree)
        rw [hcongr, slotAddr_setAddr_direct img ip hbn]
      obtain ⟨hok', hview⟩ := hok.fill hs hb hfree hslot hbm hbb hsb
        (fun _ _ h0 => hblk _ (hok.ne_fresh h0 hfree)) fun _ _ => hzero
      refine ⟨hok', hview, fun _ => ?_, rfl, hsb, hdin, .of_update hs hslot⟩
      rw [hslot, slotOf_of_lt hbn, Function.update_self]
  · simp only [Option.some.injEq, Prod.mk.injEq] at h
    obtain ⟨rfl, rfl, rfl⟩ := h
    refine ⟨hok, rfl, fun _ => ?_, rfl, rfl, rfl, .refl img ip⟩
    simp only [slotOf_of_lt hbn, slotAddr, dif_pos hbn]
  · split at h <;> simp only [Option.some.injEq, Prod.mk.injEq] at h
    · rename_i img₁ hbal
      obtain ⟨rfl, rfl, rfl⟩ := h
      obtain ⟨hok', hview, hslot⟩ := hok.balloc_zero hbal
      obtain ⟨hsb, hdin, -⟩ := balloc_spec hbal
      exact ⟨hok', hview, fun h0 => absurd rfl h0, rfl, hsb, hdin, .of_eq hslot⟩
    · rename_i b img₁ hb hbal
      obtain ⟨ha, rfl, himg⟩ := h
      obtain ⟨hsb, hdin, hblk, hbm, hnew⟩ := balloc_spec hbal
      obtain ⟨hfree, -, hbb, hzero⟩ := hnew hb
      have hslot : slotAddr img₁ (ip.setAddr (Fin.last ndirect) b) =
          Function.update (slotAddr img ip) .indirect b := by
        rw [slotAddr_setAddr_last hind hzero, slotAddr_congr fun h0 => absurd hind h0]
      obtain ⟨hok₁, hview₁⟩ := hok.fill (s := .indirect) hind hb hfree hslot hbm hbb hsb
        (fun _ _ h0 => hblk _ (hok.ne_fresh h0 hfree)) fun bn' h' => absurd h' (slotOf_ne_indirect bn')
      have hlast : (ip.setAddr (Fin.last ndirect) b).addrs (Fin.last ndirect) = b := by
        simp only [Dinode.setAddr, Function.update_self]
      have hr : bmapIndirect img₁ ((ip.setAddr (Fin.last ndirect) b).addrs (Fin.last ndirect))
          (bn - ndirect) = (a, img') := by
        rw [hlast]
        exact Prod.ext ha himg
      obtain ⟨hok', hview, hentry, hsb', hdin', hkeep⟩ := hok₁.of_bmapIndirect (hlast ▸ hb) hrange hr
      refine ⟨hok', hview.trans hview₁, fun h0 => ?_, rfl, hsb'.trans hsb, hdin'.trans hdin,
        (Keeps.of_update (s := .indirect) hind hslot).trans hkeep⟩
      rw [slotOf_of_ge hbn]
      exact hentry h0
  · simp only [Option.some.injEq, Prod.mk.injEq] at h
    obtain ⟨ha, rfl, himg⟩ := h
    obtain ⟨hok', hview, hentry, hsb, hdin, hkeep⟩ :=
      hok.of_bmapIndirect hind hrange (Prod.ext ha himg)
    refine ⟨hok', hview, fun h0 => ?_, rfl, hsb, hdin, hkeep⟩
    rw [slotOf_of_ge hbn]
    exact hentry h0

/-- Writing one of the file's blocks changes that block of the file and no other. -/
theorem MapOk.setBlock {img : FsImage} {ip : Dinode} {bn : Nat} (hok : MapOk img ip)
    (ha : slotAddr img ip (slotOf bn) ≠ 0) (blk : Block) :
    MapOk (img.setBlock (slotAddr img ip (slotOf bn)) blk) ip ∧
      fileBlock (img.setBlock (slotAddr img ip (slotOf bn)) blk) ip =
        Function.update (fileBlock img ip) bn blk ∧
      slotAddr (img.setBlock (slotAddr img ip (slotOf bn)) blk) ip = slotAddr img ip := by
  -- a data block is not the indirect block, so the map reads the same
  have hslot : slotAddr (img.setBlock (slotAddr img ip (slotOf bn)) blk) ip = slotAddr img ip :=
    slotAddr_congr fun hind => Function.update_of_ne (fun heq =>
      slotOf_ne_indirect bn (hok.inj _ .indirect ha heq.symm)) _ _
  refine ⟨⟨fun t u ht htu => ?_, fun t ht => ?_, hok.fits⟩, ?_, hslot⟩
  · rw [hslot] at ht htu
    exact hok.inj t u ht htu
  · rw [hslot] at ht ⊢
    exact hok.used t ht
  funext bn'
  unfold fileBlock
  rw [hslot]
  rcases eq_or_ne bn' bn with rfl | hne
  · rw [if_neg ha, Function.update_self]
    exact Function.update_self _ _ _
  · rw [Function.update_of_ne hne]
    split_ifs with h0
    · rfl
    · exact Function.update_of_ne (fun heq =>
        hne (slotOf_injective (hok.inj _ _ h0 heq))) _ _

theorem update_copyIn (f : Nat → Block) {off m : Nat} {p : List UInt8} (hm : off % bsize + m ≤ bsize)
    (hp : p.length = m) (k : Nat) :
    Function.update f (off / bsize) ((f (off / bsize)).copyIn (off % bsize) p) (k / bsize) (k % bsize) =
      if off ≤ k ∧ k < off + m then p.getD (k - off) 0 else f (k / bsize) (k % bsize) := by
  unfold bsize at *
  rcases eq_or_ne (k / 1024) (off / 1024) with hk | hk
  · rw [hk, Function.update_self]
    unfold Block.copyIn
    rw [hp]
    have hsub : k % 1024 - off % 1024 = k - off := by omega
    split_ifs with h₁ h₂ h₂
    · rw [hsub]
    · omega
    · omega
    · rfl
  · rw [Function.update_of_ne hk, if_neg]
    omega

theorem getD_take_drop (src : List UInt8) {tot m i : Nat} (hi : i < m) :
    ((src.drop tot).take m).getD i 0 = src.getD (tot + i) 0 := by
  simp only [List.getD_eq_getElem?_getD, List.getElem?_take, if_pos hi, List.getElem?_drop]

theorem MapOk.copyIn {img img' : FsImage} {ip : Dinode} {off a : Nat} {p : List UInt8} (hok : MapOk img ip)
    (ha : slotAddr img ip (slotOf (off / bsize)) = a) (ha0 : a ≠ 0) (hm : off % bsize + p.length ≤ bsize)
    (himg : img' = img.setBlock a ((img.block a).copyIn (off % bsize) p)) :
    MapOk img' ip ∧ slotAddr img' ip = slotAddr img ip ∧ img'.sb = img.sb ∧ img'.dinode = img.dinode ∧
      ∀ k, fileByte img' ip k =
        if off ≤ k ∧ k < off + p.length then p.getD (k - off) 0 else fileByte img ip k := by
  subst himg ha
  obtain ⟨hok', hview, hslot⟩ := hok.setBlock ha0 ((img.block _).copyIn (off % bsize) p)
  have hblock : img.block (slotAddr img ip (slotOf (off / bsize))) = fileBlock img ip (off / bsize) := by
    rw [fileBlock, if_neg ha0]
  refine ⟨hok', hslot, rfl, rfl, fun k => ?_⟩
  unfold fileByte
  rw [hview, hblock, update_copyIn _ hm rfl k]

/-- writei's loop over a sound map writes src's bytes from tot on at
[off, w), advancing off and tot together to off' ≤ w, and leaves every other
byte of the file, the map's soundness and the size as they were. Bytes past
off' are those an either_copyin moved before it failed. -/
theorem MapOk.of_writeiLoop {copyin : Nat → Nat → Nat} {src : List UInt8} {fuel : Nat}
    {img img' : FsImage} {ip ip' : Dinode} {off off' tot tot' n : Nat} (hok : MapOk img ip)
    (hn : n ≤ src.length) (htot : tot ≤ n)
    (h : writeiLoop copyin src fuel img ip off tot n = some (tot', off', ip', img')) :
    MapOk img' ip' ∧ tot ≤ tot' ∧ tot' ≤ n ∧ off' + tot = off + tot' ∧ ip'.size = ip.size ∧
      img'.sb = img.sb ∧ img'.dinode = img.dinode ∧ Keeps img ip img' ip' ∧
      (∀ k, off ≤ k → k < off' → slotAddr img' ip' (slotOf (k / bsize)) ≠ 0) ∧
      ∃ w, off' ≤ w ∧ w + tot ≤ off + n ∧ (off' < w → ∃ m, copyin tot' m < m) ∧
        ∀ k, fileByte img' ip' k =
          if off ≤ k ∧ k < w then src.getD (tot + (k - off)) 0 else fileByte img ip k := by
  induction fuel generalizing img ip off tot with
  | zero =>
      cases h
      exact ⟨hok, Nat.le_refl _, htot, rfl, rfl, rfl, rfl, .refl _ _, fun _ _ _ => by omega,
        _, Nat.le_refl _, by omega, fun h => absurd h (Nat.lt_irrefl _), fun k => by rw [if_neg (by omega)]⟩
  | succ fuel ih =>
      rw [writeiLoop] at h
      split at h
      · rename_i hlt
        split at h
        · cases h
        · rename_i ip₁ img₁ hbmap
          obtain ⟨hok₁, hview, -, hsize, hsb, hdin, hkeep₁⟩ := hok.of_bmap hbmap
          cases h
          refine ⟨hok₁, Nat.le_refl _, htot, rfl, hsize, hsb, hdin, hkeep₁, fun _ _ _ => by omega,
            _, Nat.le_refl _, by omega, fun h => absurd h (Nat.lt_irrefl _), fun k => ?_⟩
          rw [if_neg (by omega)]
          unfold fileByte
          rw [hview]
        · rename_i addr ip₁ img₁ haddr hbmap
          obtain ⟨hok₁, hview, hslot, hsize, hsb, hdin, hkeep₁⟩ := hok.of_bmap hbmap
          dsimp only at h
          generalize hm : min (n - tot) (bsize - off % bsize) = m at h
          generalize hk : min (copyin tot m) m = k at h
          have hkm : k ≤ m := by omega
          have hfit : off % bsize + m ≤ bsize := by
            unfold bsize at hm ⊢
            omega
          have hlen : ((src.drop tot).take k).length = k := by
            simp only [List.length_take, List.length_drop]
            omega
          obtain ⟨hok₂, hslot₂, hsb₂, hdin₂, hbytes₂⟩ :=
            hok₁.copyIn (hslot haddr) haddr (by omega) rfl (p := (src.drop tot).take k)
          generalize img₁.setBlock addr ((img₁.block addr).copyIn (off % bsize) ((src.drop tot).take k)) = img₂
            at h hok₂ hslot₂ hsb₂ hdin₂ hbytes₂
          have hpiece : ∀ j, fileByte img₂ ip₁ j =
              if off ≤ j ∧ j < off + k then src.getD (tot + (j - off)) 0 else fileByte img ip j := by
            intro j
            rw [hbytes₂, hlen]
            split_ifs with hj
            · exact getD_take_drop src (by omega)
            · unfold fileByte
              rw [hview]
          have hkeep₂ : Keeps img ip img₂ ip₁ := hkeep₁.trans (.of_eq hslot₂)
          split_ifs at h with hwhole
          · subst hwhole
            obtain ⟨hok', hle, hle', hoff, hsize', hsb', hdin', hkeep', hmapped', w, hw, hwn, hcut, hbytes⟩ :=
              ih hok₂ (by omega) h
            refine ⟨hok', by omega, hle', by omega, hsize'.trans hsize, hsb'.trans (hsb₂.trans hsb),
              hdin'.trans (hdin₂.trans hdin), hkeep₂.trans hkeep', fun j hj hj' => ?_,
              w, by omega, by omega, hcut, fun j => ?_⟩
            · by_cases hjk : j < off + k
              · have hdiv : j / bsize = off / bsize := by
                  unfold bsize at *
                  omega
                have haddr₂ : slotAddr img₂ ip₁ (slotOf (off / bsize)) ≠ 0 := by
                  rw [hslot₂, hslot haddr]
                  exact haddr
                rw [hdiv, hkeep' _ haddr₂, hslot₂, hslot haddr]
                exact haddr
              · exact hmapped' j (by omega) hj'
            rw [hbytes j, hpiece j]
            by_cases hj₁ : off ≤ j ∧ j < off + k
            · rw [if_neg (by omega), if_pos hj₁, if_pos (by omega)]
            · rw [if_neg hj₁]
              by_cases hj₂ : off + k ≤ j ∧ j < w
              · rw [if_pos hj₂, if_pos (by omega)]
                congr 1
                omega
              · rw [if_neg hj₂, if_neg (by omega)]
          · -- either_copyin failed after k of the m bytes: they stay in the block
            simp only [Option.some.injEq, Prod.mk.injEq] at h
            obtain ⟨rfl, rfl, rfl, rfl⟩ := h
            refine ⟨hok₂, Nat.le_refl _, htot, rfl, hsize, hsb₂.trans hsb, hdin₂.trans hdin, hkeep₂,
              fun _ _ _ => by omega, off + k, by omega, by omega, fun _ => ⟨m, by omega⟩, hpiece⟩
      · cases h
        exact ⟨hok, Nat.le_refl _, htot, rfl, rfl, rfl, rfl, .refl _ _, fun _ _ _ => by omega,
          _, Nat.le_refl _, by omega, fun h => absurd h (Nat.lt_irrefl _), fun k => by rw [if_neg (by omega)]⟩

theorem slotAddr_of_addrs {img img' : FsImage} {ip ip' : Dinode} (hb : img'.block = img.block)
    (ha : ip'.addrs = ip.addrs) : slotAddr img' ip' = slotAddr img ip := by
  funext t
  cases t <;> simp only [slotAddr, hb, ha]

theorem MapOk.of_addrs {img : FsImage} {ip : Dinode} (img' : FsImage) (ip' : Dinode) (hok : MapOk img ip)
    (hb : img'.block = img.block) (hbm : img'.bitmap = img.bitmap) (hsb : img'.sb = img.sb)
    (ha : ip'.addrs = ip.addrs) : MapOk img' ip' ∧ fileBlock img' ip' = fileBlock img ip :=
  hok.frame (slotAddr_of_addrs hb ha) (fun _ h => hbm ▸ h) hsb fun _ _ => by rw [hb]

/-- writei over a sound map: -1 with nothing changed when off is past the end,
off + n wraps, or the file would pass MAXFILE blocks; otherwise the count t of
bytes written, the size grown to cover them, and the inode written back. The
first w ≥ t bytes of src are at [off, off + w) and every other byte is as it
was; w passes t only where an either_copyin failed part-way. -/
theorem MapOk.of_writei {copyin : Nat → Nat → Nat} {img img' : FsImage} {inum : Nat} {ip ip' : Dinode}
    {off : Nat} {src : List UInt8} {ret : Int} (hok : MapOk img ip)
    (h : writei copyin img inum ip off src = some (ret, ip', img')) :
    MapOk img' ip' ∧ img'.sb = img.sb ∧
      ((ret = -1 ∧ ip' = ip ∧ img' = img ∧
          (ip.size < off ∨ (off + src.length) % 2 ^ 32 < off ∨ maxfile * bsize < off + src.length)) ∨
        ∃ t : Nat, ret = t ∧ t ≤ src.length ∧ off ≤ ip.size ∧ off + src.length ≤ maxfile * bsize ∧
          ip'.size = max ip.size (off + t) ∧ img'.dinode = Function.update img.dinode inum ip' ∧
          Keeps img ip img' ip' ∧ (∀ k, off ≤ k → k < off + t → slotAddr img' ip' (slotOf (k / bsize)) ≠ 0) ∧
          ∃ w, t ≤ w ∧ w ≤ src.length ∧ (t < w → ∃ m, copyin t m < m) ∧
            ∀ k, fileByte img' ip' k =
              if off ≤ k ∧ k < off + w then src.getD (k - off) 0 else fileByte img ip k) := by
  unfold writei at h
  split_ifs at h with h₁ h₂
  · simp only [Option.some.injEq, Prod.mk.injEq] at h
    obtain ⟨rfl, rfl, rfl⟩ := h
    exact ⟨hok, rfl, .inl ⟨rfl, rfl, rfl, by omega⟩⟩
  · simp only [Option.some.injEq, Prod.mk.injEq] at h
    obtain ⟨rfl, rfl, rfl⟩ := h
    exact ⟨hok, rfl, .inl ⟨rfl, rfl, rfl, by omega⟩⟩
  · obtain ⟨⟨tot, off', ip₁, img₁⟩, hloop, hr⟩ := Option.map_eq_some_iff.mp h
    obtain ⟨hok₁, -, hle, hoff, hsize, hsb, hdin, hkeep, hmapped, w, hw, hwn, hcut, hbytes⟩ :=
      hok.of_writeiLoop (Nat.le_refl _) (Nat.zero_le _) hloop
    simp only [Prod.mk.injEq] at hr
    obtain ⟨rfl, rfl, rfl⟩ := hr
    -- the size is the only field the written-back inode changes, and it is not in the map
    generalize hip : (if off' > ip₁.size then { ip₁ with size := off' } else ip₁) = ip''
    have haddrs : ip''.addrs = ip₁.addrs := by
      rw [← hip]
      split_ifs <;> rfl
    obtain ⟨hok', hview⟩ :=
      hok₁.of_addrs { img₁ with dinode := Function.update img₁.dinode inum ip'' } ip'' rfl rfl rfl haddrs
    have hslot : slotAddr { img₁ with dinode := Function.update img₁.dinode inum ip'' } ip'' =
        slotAddr img₁ ip₁ := slotAddr_of_addrs rfl haddrs
    refine ⟨hok', hsb, .inr ⟨tot, rfl, hle, by omega, by omega, ?_, by rw [hdin],
      hkeep.trans (.of_eq hslot), fun k hk hk' => ?_, w - off, by omega, by omega,
      fun hlt => hcut (by omega), fun k => ?_⟩⟩
    · rw [← hip]
      split_ifs with hgt
      · simp only
        omega
      · omega
    · rw [hslot]
      exact hmapped k hk (by omega)
    · rw [fileByte, hview, ← fileByte, hbytes k]
      simp only [Nat.zero_add]
      rw [show off + (w - off) = w by omega]

theorem bmap_mapped {img : FsImage} {ip : Dinode} {bn : Nat} (h : slotAddr img ip (slotOf bn) ≠ 0) :
    bmap img ip bn = some (slotAddr img ip (slotOf bn), ip, img) := by
  unfold bmap
  dsimp only
  by_cases hbn : bn < ndirect
  · rw [slotOf_of_lt hbn] at h ⊢
    simp only [slotAddr, dif_pos hbn] at h ⊢
    rw [if_neg h]
  · rw [slotOf_of_ge hbn] at h ⊢
    -- a nonzero entry lies under a mapped indirect block, within its range
    have hc : bn - ndirect < nindirect ∧ ip.addrs (Fin.last ndirect) ≠ 0 := by
      by_contra hc
      simp only [slotAddr, if_neg hc] at h
      exact h rfl
    have hentry : slotAddr img ip (.entry (bn - ndirect)) =
        (img.block (ip.addrs (Fin.last ndirect))).uint (bn - ndirect) := by
      simp only [slotAddr, if_pos hc]
    rw [hentry] at h ⊢
    rw [dif_neg hbn, if_pos hc.1, if_neg hc.2, bmapIndirect, if_neg h]

theorem bytes_fileBlock (img : FsImage) (ip : Dinode) {off m : Nat} (hm : off % bsize + m ≤ bsize) :
    (fileBlock img ip (off / bsize)).bytes (off % bsize) m =
      (List.range m).map fun j => fileByte img ip (off + j) := by
  unfold Block.bytes fileByte
  refine List.map_congr_left fun j hj => ?_
  have hj' := List.mem_range.mp hj
  unfold bsize at *
  have hdiv : (off + j) / 1024 = off / 1024 := by omega
  have hmod : (off + j) % 1024 = off % 1024 + j := by omega
  rw [hdiv, hmod]

/-- readi's loop over a sound map: bmap may allocate, which the file does not
show; unless a copy out fails it returns a count t and has appended the
file's bytes from off up to t. -/
theorem MapOk.of_readiLoop {copyout : Nat → Nat → Bool} {fuel : Nat} {img : FsImage} {ip : Dinode}
    {off tot n : Nat} {acc : List UInt8} {r : ReadResult} (hok : MapOk img ip) (htot : tot ≤ n)
    (h : readiLoop copyout fuel img ip off tot n acc = some r) :
    MapOk r.img r.ip ∧ fileBlock r.img r.ip = fileBlock img ip ∧ r.ip.size = ip.size ∧
      r.img.sb = img.sb ∧ r.img.dinode = img.dinode ∧
      (r.ret = -1 ∨ ∃ t : Nat, r.ret = t ∧ tot ≤ t ∧ t ≤ n ∧
        r.out = acc ++ (List.range (t - tot)).map fun j => fileByte img ip (off + j)) := by
  induction fuel generalizing img ip off tot acc with
  | zero =>
      cases h
      exact ⟨hok, rfl, rfl, rfl, rfl, .inr ⟨tot, rfl, Nat.le_refl _, htot, by simp⟩⟩
  | succ fuel ih =>
      rw [readiLoop] at h
      split at h
      · split at h
        · cases h
        · rename_i ip₁ img₁ hbmap
          obtain ⟨hok₁, hview, -, hsize, hsb, hdin, hkeep₁⟩ := hok.of_bmap hbmap
          cases h
          exact ⟨hok₁, hview, hsize, hsb, hdin, .inr ⟨tot, rfl, Nat.le_refl _, htot, by simp⟩⟩
        · rename_i addr ip₁ img₁ haddr hbmap
          obtain ⟨hok₁, hview, hslot, hsize, hsb, hdin, hkeep₁⟩ := hok.of_bmap hbmap
          dsimp only at h
          split at h
          · have hm : off % bsize + min (n - tot) (bsize - off % bsize) ≤ bsize := by
              unfold bsize
              omega
            have hblock : img₁.block addr = fileBlock img ip (off / bsize) := by
              rw [← hview, fileBlock, hslot haddr, if_neg haddr]
            obtain ⟨hok', hview', hsize', hsb', hdin', hret⟩ := ih hok₁ (by omega) h
            have hview₁ : fileByte img₁ ip₁ = fileByte img ip := by
              funext k
              unfold fileByte
              rw [hview]
            refine ⟨hok', hview'.trans hview, hsize'.trans hsize, hsb'.trans hsb, hdin'.trans hdin, ?_⟩
            rcases hret with hret | ⟨t, hret, hle, hle', hout⟩
            · exact .inl hret
            · refine .inr ⟨t, hret, by omega, hle', ?_⟩
              rw [hout, hblock, bytes_fileBlock img ip hm, hview₁, List.append_assoc,
                show t - tot = min (n - tot) (bsize - off % bsize) + (t - (tot + min (n - tot) (bsize - off % bsize)))
                  by omega, List.range_add, List.map_append, List.map_map]
              congr 3
              funext j
              simp only [Function.comp_apply, Nat.add_assoc]
          · cases h
            exact ⟨hok₁, hview, hsize, hsb, hdin, .inl rfl⟩
      · cases h
        exact ⟨hok, rfl, rfl, rfl, rfl, .inr ⟨tot, rfl, Nat.le_refl _, htot, by simp⟩⟩

theorem MapOk.of_readi {copyout : Nat → Nat → Bool} {img : FsImage} {ip : Dinode} {off n : Nat}
    {r : ReadResult} (hok : MapOk img ip) (h : readi copyout img ip off n = some r) :
    MapOk r.img r.ip ∧ fileBlock r.img r.ip = fileBlock img ip ∧ r.ip.size = ip.size ∧
      r.img.sb = img.sb ∧ r.img.dinode = img.dinode ∧
      (r.ret = -1 ∨ ∃ t : Nat, r.ret = t ∧ t ≤ n ∧ (0 < t → off + t ≤ ip.size) ∧
        r.out = (List.range t).map fun j => fileByte img ip (off + j)) := by
  unfold readi at h
  by_cases h₁ : off > ip.size ∨ (off + n) % 2 ^ 32 < off
  · rw [if_pos h₁] at h
    cases h
    exact ⟨hok, rfl, rfl, rfl, rfl, .inr ⟨0, rfl, Nat.zero_le _, by omega, rfl⟩⟩
  · rw [if_neg h₁] at h
    dsimp only at h
    generalize hn' : (if off + n > ip.size then ip.size - off else n) = n' at h
    have hle : n' ≤ n ∧ off + n' ≤ ip.size := by
      rw [← hn']
      split_ifs <;> omega
    obtain ⟨hok', hview, hsize, hsb, hdin, hret⟩ := hok.of_readiLoop (Nat.zero_le _) h
    refine ⟨hok', hview, hsize, hsb, hdin, ?_⟩
    rcases hret with hret | ⟨t, hret, -, ht, hout⟩
    · exact .inl hret
    · exact .inr ⟨t, hret, by omega, fun _ => by omega, by simpa using hout⟩

theorem map_range_getD (l : List UInt8) : (List.range l.length).map (fun j => l.getD j 0) = l := by
  apply List.ext_getElem
  · simp
  · intro j h₁ h₂
    simp [List.getD_eq_getElem?_getD, List.getElem?_eq_getElem h₂]

end View

section RoundTrip

theorem maxfile_bsize : maxfile * bsize = 274432 := rfl

/-- A disk laid out as mkfs lays it out for 200 inodes and 31 log blocks: the
boot block, the superblock, the log at 2..32, the inodes at 33..45 and the
free map at 46, then data from block 47; its blocks zeroed and [0, 47) in
use. -/
def testDisk : FsImage where
  sb := ⟨2000, 1953, 200, 31, 2, 33, 46⟩
  dinode := fun _ => ⟨0, 0, 0, 0, 0, fun _ => 0⟩
  bitmap := fun b => decide (b < 47)
  block := fun _ => zeroBlock

/-- A new file: no blocks, size 0. -/
def emptyInode : Dinode := ⟨tFile, 0, 0, 1, 0, fun _ => 0⟩

theorem slotAddr_emptyInode (img : FsImage) (s : Slot) : slotAddr img emptyInode s = 0 := by
  cases s <;> simp [slotAddr, emptyInode]

theorem mapOk_emptyInode : MapOk testDisk emptyInode where
  inj s _ h0 _ := absurd (slotAddr_emptyInode testDisk s) h0
  used s h0 := absurd (slotAddr_emptyInode testDisk s) h0
  fits := by decide

/-- A file of 1020 bytes, held in data block 47. -/
def shortFile : Dinode := ⟨tFile, 0, 0, 1, 1020, fun i => if i.val = 0 then 47 else 0⟩

theorem slotAddr_shortFile (img : FsImage) (s : Slot) :
    slotAddr img shortFile s = if s = .direct 0 then 47 else 0 := by
  cases s with
  | direct j =>
    by_cases hj0 : j = 0
    · subst hj0
      rfl
    · rw [if_neg (by simpa using hj0), slotAddr]
      split_ifs
      · exact if_neg hj0
      · rfl
  | indirect => rfl
  | entry e =>
    rw [slotAddr, if_neg fun h => h.2 rfl]
    rfl

end RoundTrip

end Xv6Mlfq.Fs
