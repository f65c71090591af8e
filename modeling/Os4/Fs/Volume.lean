import Os4.Fs.Alloc
import Os4.Lib.Ownership
/-!
# One partition as a set of files

| here | there |
| --- | --- |
| `dinodeAt` | the on-disk inode `IBLOCK(inum, sb)` / `inum%IPB` of a partition |
| `Loc`, `Dinode.block` | `addrs[j]`, or entry `j` of the indirect block `addrs[NDIRECT]` |
| `Dinode.fileBlock` | what `bmap` finds for block `bn` of the file, 0 for none |
| `Vol E p N disk T` | partition `p` is well formed for the inode table `T` |

The table is a parameter since an inode in use may be ahead of its copy on the disk. `N` is how many
bits of the bitmap count: `sb.nblocks`, or all `sb.size` that `balloc` looks at.
-/
namespace Os4.Fs

open Function (update update_apply update_of_ne update_self)

/-- The block that holds inode `i`. -/
abbrev inodeBlock (E : Env) (p : Int) (i : Nat) : Nat := E.offset p + 31 + i / IPB

def dinodeAt (E : Env) (disk : Disk) (p : Int) (i : Nat) : Dinode :=
  getDinode (disk (inodeBlock E p i)) (i % IPB)

/-- A place of an inode where a block number stands. -/
inductive Loc where
  | addr (j : Fin (NDIRECT + 1))
  | ind (j : Fin NINDIRECT)
deriving DecidableEq

def Dinode.indirect (d : Dinode) : Nat := d.addrs (Fin.last NDIRECT)

def Dinode.block (d : Dinode) (disk : Disk) : Loc → Nat
  | .addr j => d.addrs j
  | .ind j => if d.indirect = 0 then 0 else (disk d.indirect).getLE (4 * j.1) 4

/-- Where `bmap` looks for block `bn` of a file. -/
def fileLoc (bn : Nat) : Option Loc :=
  if h : bn < NDIRECT then some (.addr ⟨bn, Nat.lt_succ_of_lt h⟩)
  else if h : bn - NDIRECT < NINDIRECT then some (.ind ⟨bn - NDIRECT, h⟩)
  else none

def Dinode.fileBlock (d : Dinode) (disk : Disk) (bn : Nat) : Nat :=
  ((fileLoc bn).map (d.block disk)).getD 0

/-- Inode `i` is allocated. -/
def Live (T : Nat → Dinode) (i : Nat) : Prop := i < NINODES ∧ (T i).type ≠ 0

instance (T : Nat → Dinode) (i : Nat) : Decidable (Live T i) := inferInstanceAs (Decidable (_ ∧ _))

/-- The block numbers of the allocated inodes. -/
def ptr (disk : Disk) (T : Nat → Dinode) (x : Nat × Loc) : Nat :=
  if Live T x.1 then (T x.1).block disk x.2 else 0

structure Vol (E : Env) (p : Int) (N : Nat) (disk : Disk) (T : Nat → Dinode) : Prop where
  sb : getSuperblock (disk (E.offset p)) = Mkfs.superblock
  own : Owned (disk (bmBlock E p)).bit (E.offset p + 58) N (ptr disk T)
  size : ∀ i, Live T i → (T i).size ≤ MAXFILE * BSIZE
  /-- no holes -/
  solid : ∀ i bn, Live T i → bn * BSIZE < (T i).size → (T i).fileBlock disk bn ≠ 0
  inRange : ∀ i, i < NINODES → (T i).InRange

variable {E : Env} {p : Int} {N : Nat} {disk disk' : Disk} {T T' : Nat → Dinode}
  {i i' bn bn' m : Nat} {l l' : Loc}

/-! ## Places -/

theorem fileLoc_inj (h : fileLoc bn = some l) (h' : fileLoc bn' = some l) : bn = bn' := by
  unfold fileLoc at h h'
  split at h <;> split at h'
  · cases h; cases h'; rfl
  · cases h; split at h' <;> cases h'
  · cases h'; split at h <;> cases h
  · split at h <;> cases h
    split at h' <;> simp only [reduceCtorEq, Option.some.injEq, Loc.ind.injEq, Fin.mk.injEq] at h'
    simp only [NDIRECT] at *; omega

theorem fileLoc_ne_indirect : fileLoc bn ≠ some (.addr (Fin.last NDIRECT)) := by
  unfold fileLoc
  split
  · intro h
    simp only [Option.some.injEq, Loc.addr.injEq, Fin.ext_iff, Fin.val_last] at h
    omega
  · split <;> simp

variable {d : Dinode}

theorem fileBlock_of_loc (h : fileLoc bn = some l) : d.fileBlock disk bn = d.block disk l := by
  simp [Dinode.fileBlock, h]

theorem loc_of_fileBlock (h : d.fileBlock disk bn ≠ 0) :
    ∃ l, fileLoc bn = some l ∧ d.fileBlock disk bn = d.block disk l := by
  cases hl : fileLoc bn with
  | none => exact absurd (by simp [Dinode.fileBlock, hl]) h
  | some l => exact ⟨l, rfl, fileBlock_of_loc hl⟩

theorem block_congr (h : d.indirect ≠ 0 → disk' d.indirect = disk d.indirect) :
    d.block disk' l = d.block disk l := by
  cases l with
  | addr j => rfl
  | ind j =>
    by_cases hz : d.indirect = 0
    · simp [Dinode.block, hz]
    · simp [Dinode.block, hz, h hz]

theorem fileBlock_congr (h : d.indirect ≠ 0 → disk' d.indirect = disk d.indirect) :
    d.fileBlock disk' bn = d.fileBlock disk bn := by
  simp only [Dinode.fileBlock]
  congr 2
  funext l
  exact block_congr h

variable {d' : Dinode}

theorem block_addrs (h : d'.addrs = d.addrs) : d'.block disk l = d.block disk l := by
  have hind : d'.indirect = d.indirect := by rw [Dinode.indirect, h]; rfl
  cases l with
  | addr j => simp only [Dinode.block, h]
  | ind j => simp only [Dinode.block, hind]

theorem block_blank (h : d.addrs = fun _ => 0) : d.block disk l = 0 := by
  have hind : d.indirect = 0 := by rw [Dinode.indirect, h]
  cases l with
  | addr j => simp only [Dinode.block, h]
  | ind j => simp only [Dinode.block, hind, ↓reduceIte]

theorem fileBlock_addrs (h : d'.addrs = d.addrs) : d'.fileBlock disk bn = d.fileBlock disk bn := by
  simp only [Dinode.fileBlock, show d'.block disk = d.block disk from funext fun _ => block_addrs h]

theorem ptr_live (h : Live T i) : ptr disk T (i, l) = (T i).block disk l := if_pos h

/-! ## What ownership says about files -/

/-- The blocks of the inodes that are `live` lie between `lo` and `top`, each in one place. -/
structure Spread (live : Nat → Prop) (lo top : Nat) (disk : Disk) (T : Nat → Dinode) : Prop where
  range : ∀ {i l}, live i → (T i).block disk l ≠ 0 → lo ≤ (T i).block disk l ∧
    (T i).block disk l < top
  inj : ∀ {i i' l l'}, live i → live i' → (T i).block disk l ≠ 0 → (T i).block disk l =
    (T i').block disk l' → i = i' ∧ l = l'

variable {live : Nat → Prop} {lo top : Nat}

theorem spread_of_owned {bit : Nat → Bool} {ptr : Nat × Loc → Nat} (hO : Owned bit lo N ptr)
    (hptr : ∀ {i l}, live i → ptr (i, l) = (T i).block disk l) :
    Spread live lo (lo + N) disk T where
  range hi h := by
    rw [← hptr hi] at *
    exact hO.range _ h
  inj hi hi' h heq := by
    rw [← hptr hi, ← hptr hi'] at heq
    rw [← hptr hi] at h
    exact Prod.mk.inj (hO.inj _ _ h heq)

namespace Spread

variable (hS : Spread live lo top disk T) (hi : live i)
include hS hi

theorem fileBlock_range (h : (T i).fileBlock disk bn ≠ 0) :
    lo ≤ (T i).fileBlock disk bn ∧ (T i).fileBlock disk bn < top := by
  obtain ⟨l, -, hl⟩ := loc_of_fileBlock h
  rw [hl] at h ⊢
  exact hS.range hi h

/-- Two files have no block in common, and no file has a block twice. -/
theorem fileBlock_inj (hi' : live i') (h : (T i).fileBlock disk bn ≠ 0)
    (heq : (T i).fileBlock disk bn = (T i').fileBlock disk bn') : i = i' ∧ bn = bn' := by
  obtain ⟨l, hl, hb⟩ := loc_of_fileBlock h
  obtain ⟨l', hl', hb'⟩ := loc_of_fileBlock (heq ▸ h)
  rw [hb, hb'] at heq
  rw [hb] at h
  obtain ⟨rfl, rfl⟩ := hS.inj hi hi' h heq
  exact ⟨rfl, fileLoc_inj hl hl'⟩

theorem indirect_range (h : (T i).indirect ≠ 0) : lo ≤ (T i).indirect ∧ (T i).indirect < top :=
  hS.range (l := .addr (Fin.last NDIRECT)) hi h

theorem fileBlock_ne_indirect (hi' : live i') (h : (T i).fileBlock disk bn ≠ 0) :
    (T i).fileBlock disk bn ≠ (T i').indirect := by
  intro heq
  obtain ⟨l, hl, hb⟩ := loc_of_fileBlock h
  rw [hb] at heq h
  have heq' : (T i).block disk l = (T i').block disk (.addr (Fin.last NDIRECT)) := heq
  obtain ⟨-, rfl⟩ := hS.inj hi hi' h heq'
  exact fileLoc_ne_indirect hl

theorem indirect_inj (hi' : live i') (h : (T i).indirect ≠ 0)
    (heq : (T i).indirect = (T i').indirect) : i = i' := by
  have h' : (T i).block disk (.addr (Fin.last NDIRECT)) ≠ 0 := h
  have heq' : (T i).block disk (.addr (Fin.last NDIRECT)) =
      (T i').block disk (.addr (Fin.last NDIRECT)) := heq
  exact (hS.inj hi hi' h' heq').1

end Spread

namespace Vol

variable (hV : Vol E p N disk T)
include hV

theorem spread : Spread (Live T) (E.offset p + 58) (E.offset p + 58 + N) disk T :=
  spread_of_owned hV.own ptr_live

theorem ne_free (hm : (disk (bmBlock E p)).bit m = false) (hi : Live T i) :
    (T i).block disk l ≠ E.offset p + 58 + m := by
  rw [← ptr_live hi]
  exact hV.own.ne_of_clear hm _

/-! ## Changes -/

/-- Changes elsewhere than in the superblock, the bitmap and the indirect blocks. -/
theorem congr (hsb : disk' (E.offset p) = disk (E.offset p))
    (hbm : disk' (bmBlock E p) = disk (bmBlock E p))
    (hind : ∀ i, Live T i → (T i).indirect ≠ 0 → disk' (T i).indirect = disk (T i).indirect) :
    Vol E p N disk' T where
  sb := by rw [hsb]; exact hV.sb
  own := by
    rw [hbm]
    refine hV.own.congr (fun _ => rfl) fun x => ?_
    unfold ptr
    split
    · exact block_congr (hind x.1 ‹_›)
    · rfl
  size := hV.size
  solid i bn hi h := by
    rw [fileBlock_congr (hind i hi)]
    exact hV.solid i bn hi h
  inRange := hV.inRange

theorem mono {N' : Nat} (h : N ≤ N') : Vol E p N' disk T :=
  ⟨hV.sb, hV.own.mono h, hV.size, hV.solid, hV.inRange⟩

theorem write (hi : Live T i) (h : (T i).fileBlock disk bn ≠ 0) (x : Block) :
    Vol E p N (update disk ((T i).fileBlock disk bn) x) T := by
  have hr := hV.spread.fileBlock_range hi h
  refine hV.congr (update_of_ne (by omega) ..) (update_of_ne ?_ ..) fun i' hi' _ =>
    update_of_ne (hV.spread.fileBlock_ne_indirect hi hi' h).symm ..
  show E.offset p + 57 ≠ _
  omega

theorem place (hN : N ≤ 1000) (hi : Live T i) (hz : (T i).block disk l = 0) (hm : m < N)
    (hc : (disk (bmBlock E p)).bit m = false) (hsb : disk' (E.offset p) = disk (E.offset p))
    (hbm : disk' (bmBlock E p) = (disk (bmBlock E p)).setBit m)
    (hptr : ∀ x, ptr disk' T' x = update (ptr disk T) (i, l) (E.offset p + 58 + m) x)
    (htype : ∀ i, (T' i).type = (T i).type) (hsize : ∀ i, (T' i).size = (T i).size)
    (hrange : ∀ i, i < NINODES → (T' i).InRange) : Vol E p N disk' T' := by
  have hlive : ∀ i, Live T' i ↔ Live T i := fun i => by simp only [Live, htype]
  refine ⟨by rw [hsb]; exact hV.sb, ?_, fun i h => ?_, fun i' bn h hlt => ?_, hrange⟩
  · refine (hV.own.alloc (k := (i, l)) (by omega) hm hc (by rw [ptr_live hi]; exact hz)
      fun j => ?_).congr (fun _ => rfl) hptr
    rw [hbm, Bytes.bit_setBit _ _ (by simp only [BSIZE]; omega)]
  · rw [hsize]; exact hV.size i ((hlive i).1 h)
  · rw [hsize] at hlt
    obtain ⟨l', hl', hb⟩ := loc_of_fileBlock (hV.solid i' bn ((hlive i').1 h) hlt)
    have hne := hV.solid i' bn ((hlive i').1 h) hlt
    rw [hb, ← ptr_live ((hlive i').1 h)] at hne
    rw [fileBlock_of_loc hl', ← ptr_live h, hptr]
    by_cases hx : (i', l') = (i, l)
    · rw [hx, update_self]; omega
    · rw [update_of_ne hx]; exact hne

end Vol

/-- The disk after `balloc` found bit `m`. -/
def allocDisk (E : Env) (p : Int) (disk : Disk) (m : Nat) : Disk :=
  Function.update (Function.update disk (bmBlock E p) ((disk (bmBlock E p)).setBit m))
    (E.offset p + 58 + m) Bytes.zero

theorem allocDisk_bm : allocDisk E p disk m (bmBlock E p) = (disk (bmBlock E p)).setBit m := by
  rw [allocDisk, update_of_ne (by show E.offset p + 57 ≠ _; omega), update_self]

theorem allocDisk_of_ne {b : Nat} (h : b ≠ bmBlock E p) (h' : b ≠ E.offset p + 58 + m) :
    allocDisk E p disk m b = disk b := by
  rw [allocDisk, update_of_ne h', update_of_ne h]

/-- The inode table with `a` in `addrs[j]` of inode `i`. -/
def setAddr (T : Nat → Dinode) (i : Nat) (j : Fin (NDIRECT + 1)) (a : Nat) : Nat → Dinode :=
  Function.update T i ((T i).setAddr j a)

variable {j : Fin (NDIRECT + 1)}

theorem live_setAddr {a : Nat} : Live (setAddr T i j a) i' ↔ Live T i' := by
  unfold Live setAddr
  by_cases h : i' = i
  · rw [h, update_self, Dinode.setAddr_type]
  · rw [update_of_ne h]

theorem block_setAddr {a : Nat} (h : j = Fin.last NDIRECT → d.indirect = 0 ∧ disk a = Bytes.zero) :
    (d.setAddr j a).block disk l = if l = .addr j then a else d.block disk l := by
  cases l with
  | addr j' =>
    simp only [Dinode.block, Dinode.setAddr_addrs, update_apply, Loc.addr.injEq]
  | ind e =>
    rw [if_neg (by simp)]
    by_cases hj : j = Fin.last NDIRECT
    · obtain ⟨h0, hz⟩ := h hj
      have hind : (d.setAddr j a).indirect = a := by
        rw [Dinode.indirect, Dinode.setAddr_addrs, hj, update_self]
      simp [Dinode.block, h0, hind, hz]
    · have hind : (d.setAddr j a).indirect = d.indirect := by
        rw [Dinode.indirect, Dinode.setAddr_addrs, update_of_ne (Ne.symm hj)]
        rfl
      simp only [Dinode.block, hind]

variable {e : Fin NINDIRECT}

theorem block_putLE {a : Nat} (h : d.indirect ≠ 0) (ha : a < 2 ^ 32) :
    d.block (update disk d.indirect ((disk d.indirect).putLE (4 * e.1) 4 a)) l =
      if l = .ind e then a else d.block disk l := by
  cases l with
  | addr j => simp [Dinode.block]
  | ind e' =>
    simp only [Dinode.block, h, ↓reduceIte, update_self, Loc.ind.injEq]
    by_cases he : e' = e
    · have hlt := e.2
      rw [if_pos he, he, Bytes.getLE_putLE_same _ _ _ _
        (by simp only [BSIZE, NINDIRECT] at *; omega)]
      exact Nat.mod_eq_of_lt (by omega)
    · have hne : e'.1 ≠ e.1 := fun h => he (Fin.ext h)
      rw [if_neg he, Bytes.getLE_putLE_of_disjoint _ (by omega)]

namespace Vol

variable (hV : Vol E p N disk T)
include hV

theorem allocDisk_block (hm : (disk (bmBlock E p)).bit m = false) (hi : Live T i)
    (h : (T i).block disk l ≠ 0) :
    allocDisk E p disk m ((T i).block disk l) = disk ((T i).block disk l) := by
  have hr := hV.spread.range hi h
  exact allocDisk_of_ne (by show _ ≠ E.offset p + 57; omega) (hV.ne_free hm hi)

theorem allocDisk_indirect (hm : (disk (bmBlock E p)).bit m = false) (hi : Live T i)
    (h : (T i).indirect ≠ 0) :
    allocDisk E p disk m (T i).indirect = disk (T i).indirect :=
      hV.allocDisk_block (l := .addr (Fin.last NDIRECT)) hm hi h

theorem ptr_setAddr (hi : Live T i) (hz : (T i).addrs j = 0)
    (hm : (disk (bmBlock E p)).bit m = false) (x : Nat × Loc) :
    ptr (allocDisk E p disk m) (setAddr T i j (E.offset p + 58 + m)) x =
      update (ptr disk T) (i, .addr j) (E.offset p + 58 + m) x := by
  obtain ⟨i', l⟩ := x
  by_cases hii : i' = i
  · subst hii
    -- a new indirect block is all zeros
    rw [ptr_live (live_setAddr.2 hi), setAddr, update_self, block_setAddr fun hj => ?_,
      update_apply, ptr_live hi, block_congr (hV.allocDisk_indirect hm hi)]
    · simp only [Prod.mk.injEq, true_and]
    · subst hj
      exact ⟨hz, update_self ..⟩
  · rw [update_of_ne (by simp [hii])]
    unfold ptr
    have hT : setAddr T i j (E.offset p + 58 + m) i' = T i' := update_of_ne hii ..
    simp only [live_setAddr, hT]
    split
    · exact block_congr (hV.allocDisk_indirect hm ‹_›)
    · rfl

theorem placeAddr (hN : N ≤ 1000) (hoff : E.offset p + 1000 ≤ 2 ^ 28) (hi : Live T i)
    (hz : (T i).addrs j = 0) (hm : m < N) (hc : (disk (bmBlock E p)).bit m = false) :
    Vol E p N (allocDisk E p disk m) (setAddr T i j (E.offset p + 58 + m)) := by
  have hT : ∀ i', setAddr T i j (E.offset p + 58 + m) i' = T i' ∨
      (i' = i ∧ setAddr T i j (E.offset p + 58 + m) i' =
        (T i).setAddr j (E.offset p + 58 + m)) := by
    intro i'
    by_cases hii : i' = i
    · exact .inr ⟨hii, by rw [hii, setAddr, update_self]⟩
    · exact .inl (update_of_ne hii ..)
  refine hV.place hN hi (l := .addr j) hz hm hc
    (allocDisk_of_ne (by show _ ≠ E.offset p + 57; omega) (by omega))
    allocDisk_bm (hV.ptr_setAddr hi hz hc) (fun i' => ?_) (fun i' => ?_) fun i' hi' => ?_
  · rcases hT i' with h | ⟨rfl, h⟩ <;> simp [h]
  · rcases hT i' with h | ⟨rfl, h⟩ <;> simp [h]
  · rcases hT i' with h | ⟨rfl, h⟩
    · rw [h]; exact hV.inRange i' hi'
    · have hr := hV.inRange i' hi'
      rw [h]
      refine ⟨hr.type, hr.major, hr.minor, hr.nlink, hr.size, fun j' => ?_⟩
      rw [Dinode.setAddr_addrs]
      by_cases hj : j' = j
      · rw [hj, update_self]; omega
      · rw [update_of_ne hj]; exact hr.addrs j'

theorem ptr_setInd (hN : N ≤ 1000) (hoff : E.offset p + 1000 ≤ 2 ^ 28) (hi : Live T i)
    (ha : (T i).indirect ≠ 0) (hm : m < N)
    (hc : (disk (bmBlock E p)).bit m = false) (x : Nat × Loc) :
    ptr (update (allocDisk E p disk m) (T i).indirect
        ((disk (T i).indirect).putLE (4 * e.1) 4 (E.offset p + 58 + m))) T x =
      update (ptr disk T) (i, .ind e) (E.offset p + 58 + m) x := by
  obtain ⟨i', l⟩ := x
  by_cases hii : i' = i
  · subst hii
    rw [ptr_live hi, ← hV.allocDisk_indirect hc hi ha, block_putLE ha (by omega),
      update_apply, ptr_live hi, block_congr (hV.allocDisk_indirect hc hi)]
    simp only [Prod.mk.injEq, true_and]
  · rw [update_of_ne (by simp [hii])]
    unfold ptr
    split
    · refine block_congr fun h => ?_
      rw [update_of_ne fun heq => hii (hV.spread.indirect_inj ‹_› hi h heq)]
      exact hV.allocDisk_indirect hc ‹_› h
    · rfl

theorem placeInd (hN : N ≤ 1000) (hoff : E.offset p + 1000 ≤ 2 ^ 28) (hi : Live T i)
    (ha : (T i).indirect ≠ 0) (hz : (T i).block disk (.ind e) = 0) (hm : m < N)
    (hc : (disk (bmBlock E p)).bit m = false) :
    Vol E p N (update (allocDisk E p disk m) (T i).indirect
      ((disk (T i).indirect).putLE (4 * e.1) 4 (E.offset p + 58 + m))) T := by
  have hr := hV.spread.indirect_range hi ha
  refine hV.place hN hi (l := .ind e) hz hm hc ?_ ?_ (hV.ptr_setInd hN hoff hi ha hm hc)
    (fun _ => rfl) (fun _ => rfl)
    hV.inRange
  · rw [update_of_ne (by omega)]
    exact allocDisk_of_ne (by show _ ≠ E.offset p + 57; omega) (by omega)
  · rw [update_of_ne (by show E.offset p + 57 ≠ _; omega)]
    exact allocDisk_bm

end Vol

end Os4.Fs
