import Os4.Fs.MountTable
import Os4.Fs.Spelling
import Mathlib.Data.Fintype.Card
/-!
# The plain walk (fs.c:695-786)

| here | there |
| --- | --- |
| `components path` | the parts of a path between slashes, cut to `DIRSIZ` bytes |
| `lookup l name` | the inode that a directory with contents `l` has under `name` |
| `plainWalk` | `lookup` for one component after another, on the disk |
| `Tree` | directories are whole and their entries name inodes in use, with links |
| `Extra E s0 X B s` | besides what was referred to in `s0`, the slots of `X` are; of them `B` is locked |

Without mount points `namei` and `nameiparent` return what the plain walk finds, and leave no
reference behind. **`namex_plain`**
-/
namespace Os4.Fs

open Prog

variable {E : Env} {p q : Int} {k ip cwd : Fin NINODE} {i j : Nat} {s s0 s1 s' : FsState}
  {X : List (Fin NINODE)} {B : Option (Fin NINODE)} {path name rest l : List UInt8} {parent : Bool}
  {F : Panic → Prop}

/-! ## Components -/

def components (path : List UInt8) : List (List UInt8) :=
  ((path.splitOn slash).filter fun w => w ≠ []).map fun w => w.take DIRSIZ

theorem components_slash : components (slash :: path) = components path := by
  unfold components List.splitOn
  rw [List.splitOnP_cons_eq_if_modifyHead, if_pos (by decide), List.filter_cons_of_neg (by simp)]

theorem components_dropWhile : components (path.dropWhile (· == slash)) = components path := by
  induction path with
  | nil => rfl
  | cons a path ih =>
    rw [List.dropWhile_cons]
    split
    · rename_i ha
      rw [ih, beq_iff_eq.1 ha, components_slash]
    · rfl

theorem components_word {w : List UInt8} (hw : ∀ a ∈ w, a ≠ slash) (hne : w ≠ [])
    (hrest : ∀ a, rest.head? = some a → a = slash) :
    components (w ++ rest) = w.take DIRSIZ :: components rest := by
  have hsep : ∀ a ∈ w, (a == slash) = false := fun a ha => by simpa using hw a ha
  cases rest with
  | nil =>
    unfold components List.splitOn
    rw [List.append_nil, List.splitOnP_eq_singleton hsep]
    simp [hne]
  | cons a rest =>
    obtain rfl := hrest a rfl
    rw [components_slash]
    unfold components List.splitOn
    rw [List.splitOnP_append_cons_of_forall_mem hsep _ (by decide)]
    rw [List.filter_cons_of_pos (by simpa using hne), List.map_cons]

theorem elems_eq_components : ∀ {n : Nat} {path : List UInt8}, path.length < n →
    elems path = components path := by
  intro n
  induction n with
  | zero => intro path h; exact absurd h (Nat.not_lt_zero _)
  | succ n ih =>
    intro path hlen
    rw [← components_dropWhile]
    by_cases hnil : path.dropWhile (· == slash) = []
    · have hsk : skipelem path = none := by simp only [skipelem, hnil, ↓reduceIte]
      rw [elems_none hsk, hnil]
      rfl
    · generalize hpath : path.dropWhile (· == slash) = w at hnil ⊢
      have hsk : skipelem path = some ((w.takeWhile (· != slash)).take DIRSIZ,
          (w.dropWhile (· != slash)).dropWhile (· == slash)) := by
        simp only [skipelem, hpath, if_neg hnil]
      have hrest := skipelem_length hsk
      rw [elems_some hsk, ih (by omega), components_dropWhile]
      conv_rhs => rw [← List.takeWhile_append_dropWhile (p := (· != slash)) (l := w)]
      refine (components_word (fun a ha => ?_) ?_ fun a ha => ?_).symm
      · simpa using List.mem_takeWhile_imp ha
      · -- the first byte left is not a slash
        intro h0
        rw [List.takeWhile_eq_nil_iff] at h0
        have hpos : 0 < w.length := List.length_pos_iff.2 hnil
        have hns : ¬ (w.get ⟨0, hpos⟩ == slash) = true := by
          subst hpath
          exact List.dropWhile_get_zero_not _ _ hpos
        exact h0 hpos (by simpa [bne] using hns)
      · have := List.head?_dropWhile_not (· != slash) w
        rw [ha] at this
        simpa using this

/-! ## Directories -/

/-- A name as far as `namecmp` looks. -/
def nameOf (l : List UInt8) : List UInt8 := (l.take DIRSIZ).takeWhile (· ≠ 0)

theorem strncmp_eq_zero : ∀ {n : Nat} {a b : List UInt8},
    strncmp a b n = 0 ↔ (a.take n).takeWhile (· ≠ 0) = (b.take n).takeWhile (· ≠ 0) := by
  intro n
  induction n with
  | zero => intro a b; simp [strncmp]
  | succ n ih =>
    intro a b
    rw [strncmp_succ, ih]
    cases a with
    | nil =>
      cases b with
      | nil => simp
      | cons y b => by_cases hy : y = 0 <;> simp [hy, Ne.symm]
    | cons x a =>
      cases b with
      | nil => by_cases hx : x = 0 <;> simp [hx]
      | cons y b =>
        by_cases hx : x = 0
        · by_cases hy : y = 0 <;> simp [hx, hy, eq_comm (a := (0 : UInt8))]
        · by_cases hy : y = 0 <;> simp [hx, hy]

theorem namecmp_eq_zero {a b : List UInt8} : namecmp a b = 0 ↔ nameOf a = nameOf b :=
  strncmp_eq_zero

/-- The entries of a directory with contents `l`. -/
def entries (l : List UInt8) : List Dirent :=
  (List.range (l.length / 16)).map fun t => entryAt l (16 * t)

def lookup (l name : List UInt8) : Option Nat :=
  ((entries l).find? fun e => decide (e.inum ≠ 0 ∧ nameOf name = nameOf e.name)).map Dirent.inum

theorem findFrom_lookup : ∀ {fuel t : Nat}, l.length / 16 < fuel + t →
    (findFrom l name fuel (16 * t)).map Prod.snd =
    ((((List.range (l.length / 16)).drop t).map fun t => entryAt l (16 * t)).find?
      fun e => decide (e.inum ≠ 0 ∧ nameOf name = nameOf e.name)).map Dirent.inum := by
  intro fuel
  induction fuel with
  | zero =>
    intro t ht
    rw [List.drop_eq_nil_of_le (by rw [List.length_range]; omega)]
    rfl
  | succ fuel ih =>
    intro t ht
    unfold findFrom
    by_cases hle : 16 * t + 16 ≤ l.length
    · have hlt : t < (List.range (l.length / 16)).length := by rw [List.length_range]; omega
      rw [if_pos hle, List.drop_eq_getElem_cons hlt, List.getElem_range,
        List.map_cons, List.find?_cons]
      by_cases hc : (entryAt l (16 * t)).inum ≠ 0 ∧ namecmp name (entryAt l (16 * t)).name = 0
      · have hc' := hc
        rw [namecmp_eq_zero] at hc'
        rw [if_pos hc, decide_eq_true hc']
        rfl
      · have hc' := hc
        rw [namecmp_eq_zero] at hc'
        rw [if_neg hc, decide_eq_false hc', show 16 * t + 16 = 16 * (t + 1) by omega]
        exact ih (by omega)
    · rw [if_neg hle, List.drop_eq_nil_of_le (by rw [List.length_range]; omega)]
      rfl

theorem dirFind_lookup : (dirFind l name).map Prod.snd = lookup l name := by
  have h : (findFrom l name (l.length / 16 + 1) (16 * 0)).map Prod.snd = _ :=
    findFrom_lookup (by omega)
  exact h

/-- One step: the inode under `name` in a directory. -/
def lookupIn (E : Env) (s : FsState) (x : Int × Nat) (name : List UInt8) : Option (Int × Nat) :=
  if (dinodeAt E s.disk x.1 x.2).type = T_DIR then
    (lookup (fileOf E s x.1 x.2) name).map fun i => (x.1, i)
  else none

def plainWalk (E : Env) (s : FsState) (x : Int × Nat) (names : List (List UInt8)) :
    Option (Int × Nat) :=
  names.foldlM (lookupIn E s) x

/-- The directory in which the last name stands, and that name. -/
def plainParent (E : Env) (s : FsState) (x : Int × Nat) (names : List (List UInt8)) :
    Option ((Int × Nat) × List UInt8) :=
  match names.getLast? with
  | none => none
  | some name =>
    ((plainWalk E s x names.dropLast).filter fun y =>
      (dinodeAt E s.disk y.1 y.2).type = T_DIR).map fun y => (y, name)

/-! ## A state in which nothing is going on -/

structure Tree (E : Env) (s : FsState) : Prop where
  root : ∀ p, IsPart p → Live (dinodeAt E s.disk p) ROOTINO ∧
    (dinodeAt E s.disk p ROOTINO).nlink ≠ 0
  whole : ∀ p i, IsPart p → Live (dinodeAt E s.disk p) i → (dinodeAt E s.disk p i).type = T_DIR →
    (dinodeAt E s.disk p i).size % 16 = 0
  entry : ∀ p i, IsPart p → Live (dinodeAt E s.disk p) i → (dinodeAt E s.disk p i).type = T_DIR →
    ∀ t, 16 * t + 16 ≤ (dinodeAt E s.disk p i).size → (entryAt (fileOf E s p i) (16 * t)).inum ≠ 0 →
      Live (dinodeAt E s.disk p) (entryAt (fileOf E s p i) (16 * t)).inum ∧
      (dinodeAt E s.disk p (entryAt (fileOf E s p i) (16 * t)).inum).nlink ≠ 0

structure Calm (E : Env) (s : FsState) : Prop where
  consistent : Consistent E s
  tree : Tree E s
  refs : ∀ k, 0 ≤ (s.icache k).ref
  unlocked : ∀ k, 0 < (s.icache k).ref → (s.icache k).busy = false
  unmounted : ∀ e ∈ s.mounts, e = freeSlot

/-- How many slots nobody refers to. -/
def emptySlots (s : FsState) : Nat := (Finset.univ.filter fun k => (s.icache k).ref = 0).card

/-- Compared with `s0`, each slot has as many references more as `X` lists it, and `B` is the slot
that is locked. -/
structure Extra (E : Env) (s0 : FsState) (X : List (Fin NINODE)) (B : Option (Fin NINODE))
    (s : FsState) : Prop where
  disk : s.disk = s0.disk
  mounts : s.mounts = s0.mounts
  consistent : Consistent E s
  refs : ∀ k, (s.icache k).ref = (s0.icache k).ref + X.count k
  ident : ∀ k, 0 < (s0.icache k).ref → s.ident k = s0.ident k
  busy : ∀ k, 0 < (s.icache k).ref → ((s.icache k).busy = true ↔ B = some k)
  locked : ∀ k, B = some k → k ∈ X

theorem Calm.extra (h : Calm E s) : Extra E s [] none s where
  disk := rfl
  mounts := rfl
  consistent := h.consistent
  refs k := by simp
  ident k _ := rfl
  busy k hk := by simp [h.unlocked k hk]
  locked k hk := by cases hk

variable {X' : List (Fin NINODE)} {B' : Option (Fin NINODE)}

namespace Extra

variable (hX : Extra E s0 X B s)
include hX

theorem withInode {x : Inode}
    (hx : 0 < x.ref → Slot E s.disk x) (huniq : ∀ k', k' ≠ k → 0 < x.ref → 0 < (s.icache k').ref →
      s.ident k' ≠ x.ident)
    (hid : 0 < (s0.icache k).ref → x.ident = s0.ident k)
    (href : x.ref = (s0.icache k).ref + X'.count k)
    (hother : ∀ k', k' ≠ k → X'.count k' = X.count k')
    (hbusy : 0 < x.ref → (x.busy = true ↔ B' = some k))
    (hB : ∀ k', k' ≠ k → (B' = some k' ↔ B = some k')) (hin : ∀ k', B' = some k' → k' ∈ X') :
    Extra E s0 X' B' (s.withInode k x) := by
  refine ⟨hX.disk, hX.mounts, hX.consistent.withInode hx huniq, fun k' => ?_, fun k' hk' => ?_,
    fun k' hk' => ?_, hin⟩
  · by_cases h : k' = k
    · subst h; rw [withInode_self]; exact href
    · rw [withInode_ne h, hother k' h]; exact hX.refs k'
  · by_cases h : k' = k
    · subst h; rw [FsState.ident, withInode_self]; exact hid hk'
    · rw [FsState.ident, withInode_ne h]; exact hX.ident k' hk'
  · by_cases h : k' = k
    · subst h; rw [withInode_self] at hk' ⊢; exact hbusy hk'
    · rw [withInode_ne h] at hk' ⊢; rw [hB k' h]; exact hX.busy k' hk'

theorem withInode_same {x : Inode} (hk : 0 < (s.icache k).ref)
    (hx : 0 < x.ref → Slot E s.disk x) (hid : x.ident = s.ident k)
    (href : x.ref = (s0.icache k).ref + X'.count k)
    (hother : ∀ k', k' ≠ k → X'.count k' = X.count k')
    (hbusy : 0 < x.ref → (x.busy = true ↔ B' = some k))
    (hB : ∀ k', k' ≠ k → (B' = some k' ↔ B = some k')) (hin : ∀ k', B' = some k' → k' ∈ X') :
    Extra E s0 X' B' (s.withInode k x) := by
  refine hX.withInode hx (fun k' hne _ hk' heq => hne ?_) (fun h0 => hid.trans (hX.ident k h0)) href
    hother hbusy hB hin
  obtain ⟨h1, h2⟩ := Prod.mk.inj (heq.trans hid)
  exact hX.consistent.unique k' k hk' hk h1 h2

theorem full (h : s.emptySlot = none) : emptySlots s0 ≤ X.length := by
  have hsub : (Finset.univ.filter fun k => (s0.icache k).ref = 0) ⊆ X.toFinset := by
    intro k hk
    have h0 : (s0.icache k).ref = 0 := by simpa using hk
    have hne : (s.icache k).ref ≠ 0 := by simpa using List.find?_eq_none.1 h k (List.mem_finRange k)
    rw [hX.refs k, h0] at hne
    exact List.mem_toFinset.2 (List.count_pos_iff.1 (by omega))
  exact (Finset.card_le_card hsub).trans (List.toFinset_card_le X)

theorem ref_pos (hr : ∀ k, 0 ≤ (s0.icache k).ref) (hk : k ∈ X) : 0 < (s.icache k).ref := by
  have h1 := hX.refs k
  have h2 := List.count_pos_iff.2 hk
  have h3 := hr k
  omega

theorem taken (hk : 0 < (s.icache k).ref) :
    Extra E s0 (k :: X) B (s.withInode k { s.icache k with ref := (s.icache k).ref + 1 }) := by
  refine hX.withInode_same hk (fun _ => (hX.consistent.slot k hk).congr rfl id rfl) rfl ?_
    (fun k' h => by rw [List.count_cons_of_ne h.symm]) (fun _ => hX.busy k hk) (fun _ _ => Iff.rfl)
    fun k' h => List.mem_cons_of_mem _ (hX.locked k' h)
  show (s.icache k).ref + 1 = _
  rw [List.count_cons_self, hX.refs k]
  push_cast
  omega

theorem iget (hr : ∀ k, 0 ≤ (s0.icache k).ref) (hp : IsPart p) (hi : i < NINODES)
    (hfull : emptySlots s0 ≤ X.length → F .iget) {Q : Fin NINODE → FsState → Prop}
    (h : ∀ k s', Extra E s0 (k :: X) B s' → s'.ident k = (some p, i) →
      (∀ k' ∈ X, s'.ident k' = s.ident k') → Q k s') :
    (iget (some p) i).wp Q F s := by
  refine wp_iget (fun he => hfull (hX.full he)) (fun k hk hid => ?_) fun k hnew h0 => ?_
  · refine h k _ (hX.taken hk) (by rw [FsState.ident, withInode_self]; exact hid) fun k' _ => ?_
    by_cases hkk : k' = k
    · rw [hkk, FsState.ident, withInode_self]; rfl
    · rw [FsState.ident, withInode_ne hkk]; rfl
  · have hfree : k ∉ X := fun hk => absurd (hX.ref_pos hr hk) (by omega)
    have h00 : (s0.icache k).ref = 0 := by
      have := hX.refs k
      rw [List.count_eq_zero.2 hfree] at this
      omega
    refine h k _ (hX.withInode (fun _ => ⟨fun q hq => ?_, fun hv => Bool.noConfusion hv⟩)
      (fun k' _ _ hk' => hnew k' hk') (fun hpos => absurd hpos (by omega)) ?_
      (fun k' h => by rw [List.count_cons_of_ne h.symm]) (fun _ =>
        ⟨fun hb => Bool.noConfusion hb, fun hb => ?_⟩)
      (fun _ _ => Iff.rfl) fun k' h => List.mem_cons_of_mem _ (hX.locked k' h))
        (by rw [FsState.ident, withInode_self]; rfl)
      fun k' hk' => ?_
    · obtain rfl := Option.some.inj hq
      exact ⟨hp, hi⟩
    · rw [List.count_cons_self, List.count_eq_zero.2 hfree, h00]
      rfl
    · exact absurd (hX.locked k hb) hfree
    · have hkk : k' ≠ k := fun hkk => hfree (hkk ▸ hk')
      rw [FsState.ident, withInode_ne hkk]
      rfl

end Extra

variable {Q : Unit → FsState → Prop}

theorem Extra.ilock (hX : Extra E s0 X none s) (hr : ∀ k, 0 ≤ (s0.icache k).ref) (hk : k ∈ X)
    (hid : s.ident k = (some p, i)) (hlive : Live (dinodeAt E s0.disk p) i)
    (h : ∀ s', Extra E s0 X (some k) s' → s'.ident k = (some p, i) →
      (s'.icache k).valid = true → Q () s') :
    (ilock E k).wp Q F s := by
  have hpos := hX.ref_pos hr hk
  obtain ⟨hprt, hinum⟩ := Prod.mk.inj hid
  refine ilock_cases hX.consistent hpos (fun hn => ?_) (fun hb => ?_) (fun q hq hz => ?_)
    fun q x hun hidx href hprtx hbusy hvalid hslot _ => ?_
  · rw [show (s.icache k).prt = some p from hprt] at hn; cases hn
  · exact absurd ((hX.busy k hpos).1 hb) (by simp)
  · obtain rfl := Option.some.inj (hprt.symm.trans hq)
    rw [show (s.icache k).inum = i from hinum, hX.disk] at hz
    exact absurd hz hlive.2
  · refine h _ (hX.withInode_same hpos (fun _ => hslot) hidx ?_ (fun _ _ => rfl)
      (fun _ => by simp [hbusy])
      (fun k' hne => ?_) fun k' hk' => ?_) ?_ ?_
    · rw [href]; exact hX.refs k
    · simp [Ne.symm hne]
    · obtain rfl := Option.some.inj hk'
      exact hk
    · rw [FsState.ident, withInode_self, hidx]; exact hid
    · rw [withInode_self]; exact hvalid

theorem Extra.iunlock (hX : Extra E s0 X (some k) s) (hr : ∀ k, 0 ≤ (s0.icache k).ref)
    (h : ∀ s', Extra E s0 X none s' → (∀ k', s'.ident k' = s.ident k') → Q () s') :
    (iunlock k).wp Q F s := by
  have hpos := hX.ref_pos hr (hX.locked k rfl)
  unfold Fs.iunlock
  rw [wp_bind, wp_inode, if_neg (by simp [(hX.busy k hpos).2 rfl]; omega), wp_setInode]
  refine h _ (hX.withInode_same hpos (fun _ => (hX.consistent.slot k hpos).congr rfl id rfl) rfl
    (hX.refs k)
    (fun _ _ => rfl) (fun _ => by simp) (fun k' hne => by simp [Ne.symm hne]) fun k' hk' => by
      cases hk') fun k' => ?_
  by_cases hkk : k' = k
  · subst hkk; rw [FsState.ident, withInode_self]; rfl
  · rw [FsState.ident, withInode_ne hkk]; rfl

/-- An inode with links, or with another reference, is not freed. -/
theorem Extra.iput (hX : Extra E s0 (k :: X) none s) (hr : ∀ k, 0 ≤ (s0.icache k).ref)
    (hid : s.ident k = (some p, i))
    (hkeep : 0 < (s0.icache k).ref ∨ (dinodeAt E s0.disk p i).nlink ≠ 0)
    (h : ∀ s', Extra E s0 X none s' → (∀ k', s'.ident k' = s.ident k') → Q () s') :
    (iput E k).wp Q F s := by
  have hpos := hX.ref_pos hr (k := k) (by simp)
  have href := hX.refs k
  rw [List.count_cons_self] at href
  push_cast at href
  unfold Fs.iput reclaim
  rw [wp_bind, wp_bind, wp_inode, if_neg, wp_pure, wp_bind, wp_inode, wp_setInode]
  · refine h _ (hX.withInode_same hpos (fun _ =>
      (hX.consistent.slot k hpos).congr rfl id rfl) rfl ?_
      (fun k' hne => by rw [List.count_cons_of_ne hne.symm]) (fun hp' => hX.busy k hpos)
        (fun _ _ => Iff.rfl)
      fun k' hk' => by cases hk') fun k' => ?_
    · show (s.icache k).ref - 1 = _
      omega
    · by_cases hkk : k' = k
      · subst hkk; rw [FsState.ident, withInode_self]; rfl
      · rw [FsState.ident, withInode_ne hkk]; rfl
  · rintro ⟨hone, hv, hz⟩
    rcases hkeep with h0 | hn
    · omega
    · obtain ⟨hprt, hinum⟩ := Prod.mk.inj hid
      obtain ⟨-, -, hd⟩ := (hX.consistent.slot k hpos).live hprt hv
      rw [hd, show (s.icache k).inum = i from hinum, hX.disk] at hz
      exact hn hz

theorem unmounted_none (h : ∀ e ∈ s.mounts, e = freeSlot) :
    isInodeMounted s.mounts i (some p) = none := by
  unfold isInodeMounted
  rw [Option.map_eq_none_iff, List.find?_eq_none]
  intro e he
  rw [h e he]
  simp [freeSlot]

theorem unmounted_findMp (h : ∀ e ∈ s.mounts, e = freeSlot) (hne : path ≠ []) (hnul : 0 ∉ path) :
    findMp s.mounts path = none := by
  rw [findMp_none]
  intro e he h0
  rw [h e he, namecmp_freeSlot hnul] at h0
  exact hne h0

theorem Extra.dirlookup (hX : Extra E s0 X (some k) s) (hC : Calm E s0)
    (hid : s.ident k = (some p, i))
    (hv : (s.icache k).valid = true) (ht : (dinodeAt E s0.disk p i).type = T_DIR)
    (hfull : emptySlots s0 ≤ X.length → F .iget)
    {Q : Option (Fin NINODE × Nat) → FsState → Prop}
    (hnone : lookup (fileOf E s0 p i) name = none → Q none s)
    (hsome : ∀ j k' o s', lookup (fileOf E s0 p i) name = some j → Live (dinodeAt E s0.disk p) j →
      (dinodeAt E s0.disk p j).nlink ≠ 0 → Extra E s0 (k' :: X) (some k) s' →
      s'.ident k' = (some p, j) →
      s'.ident k = (some p, i) → Q (some (k', o)) s') : (dirlookup E k name).wp Q F s := by
  have hpos := hX.ref_pos hC.refs (hX.locked k rfl)
  have hLd : Loaded E s k p i := (hX.consistent.slot k hpos).loaded_of hid hv
  have hfile : fileOf E s p i = fileOf E s0 p i := by rw [fileOf, fileOf, hX.disk]
  have ht' : (dinodeAt E s.disk p i).type = T_DIR := by rw [hX.disk]; exact ht
  have hlive := hLd.live
  rw [hX.disk] at hlive
  unfold Fs.dirlookup
  rw [wp_bind, redirect_none hid (by rw [hX.mounts]; exact unmounted_none hC.unmounted)]
  unfold dirlookupIn
  rw [wp_bind, wp_inode, hLd.din, if_neg (not_not.2 ht'), wp_bind]
  refine dirScan_wp (hLd.readable hX.consistent (by rw [ht']; decide)) (fun hodd => ?_)
    _ 0 (by decide) ?_
  · rw [hX.disk] at hodd
    exact absurd (hC.tree.whole p i hLd.part hlive ht) hodd
  have hfind : findFrom (content s.disk (dinodeAt E s.disk p i)) name
    ((dinodeAt E s.disk p i).size / 16 + 1) 0 =
      dirFind (fileOf E s0 p i) name := by rw [← hfile, dirFind, fileOf, length_content]
  rw [hfind]
  have hl : (dirFind (fileOf E s0 p i) name).map Prod.snd = lookup (fileOf E s0 p i) name :=
    dirFind_lookup
  cases hf : dirFind (fileOf E s0 p i) name with
  | none =>
    rw [hf] at hl
    exact hnone hl.symm
  | some y =>
    obtain ⟨o, j⟩ := y
    rw [hf] at hl
    obtain ⟨hal, hle, hinum, hnz, -⟩ := findFrom_some (by decide) hf
    have hentry := hC.tree.entry p i hLd.part hlive ht (o / 16)
    rw [show 16 * (o / 16) = o by omega, hinum] at hentry
    rw [fileOf, length_content] at hle
    obtain ⟨hj, hn⟩ := hentry hle hnz
    have hprt : (s.icache k).prt = some p := (Prod.mk.inj hid).1
    simp only
    rw [wp_bind, hprt]
    refine hX.iget hC.refs hLd.part hj.1 hfull fun k' s' hX' hid' hkept => ?_
    rw [wp_pure]
    exact hsome j k' o s' hl.symm hj hn hX' hid' ((hkept k (hX.locked k rfl)).trans hid)

/-! ## The loop -/

variable {x : Int × Nat} {el : List UInt8}

theorem plainWalk_cons {els : List (List UInt8)} :
    plainWalk E s x (el :: els) = (lookupIn E s x el).bind fun y => plainWalk E s y els := by
  rw [plainWalk, List.foldlM_cons]
  rfl

theorem plainParent_last :
    plainParent E s x [el] = if (dinodeAt E s.disk x.1 x.2).type = T_DIR then some (x, el)
    else none := by
  unfold plainParent
  simp only [List.getLast?_singleton, List.dropLast_singleton]
  rw [show plainWalk E s x [] = some x from rfl]
  split
  · rename_i ht; simp [ht]
  · rename_i ht; simp [ht]

theorem plainParent_cons {els : List (List UInt8)} (h : els ≠ []) :
    plainParent E s x (el :: els) = (lookupIn E s x el).bind fun y => plainParent E s y els := by
  obtain ⟨el', els', rfl⟩ := List.exists_cons_of_ne_nil h
  unfold plainParent
  rw [List.getLast?_cons_cons, List.dropLast_cons_cons, plainWalk_cons]
  cases hl : lookupIn E s x el with
  | none =>
    simp only [Option.bind_none, Option.filter_none, Option.map_none]
    split <;> rfl
  | some y => rfl

/-- Where the loop ends: what the plain walk says. -/
structure Reached (E : Env) (s0 : FsState) (parent : Bool) (x : Int × Nat) (els : List (List UInt8))
    (r : Option (Fin NINODE × List UInt8)) (s : FsState) : Prop where
  extra : Extra E s0 (heldBy r) none s
  namei : parent = false → r.map (fun y => s.ident y.1) = (plainWalk E s0 x els).map fun z =>
    (some z.1, z.2)
  nameiparent : parent = true →
    r.map (fun y => (s.ident y.1, y.2)) = (plainParent E s0 x els).map fun z =>
      ((some z.1.1, z.1.2), z.2)

theorem namexElems_plain (hC : Calm E s0) (hfull : emptySlots s0 < 2 → F .iget) :
    ∀ {els : List (List UInt8)} {ip : Fin NINODE}
    {p : Int} {i : Nat} {name : List UInt8} {s : FsState}, Extra E s0 [ip] none s →
    s.ident ip = (some p, i) → IsPart p →
    Live (dinodeAt E s0.disk p) i → (0 < (s0.icache ip).ref ∨ (dinodeAt E s0.disk p i).nlink ≠ 0) →
    (namexElems E parent ip els name).wp (Reached E s0 parent (p, i) els) F s := by
  intro els
  induction els with
  | nil =>
    intro ip p i name s hX hid hp hlive hkeep
    unfold namexElems
    cases parent with
    | true =>
      simp only [↓reduceIte]
      rw [wp_bind]
      exact hX.iput hC.refs hid hkeep fun s' hX' _ => ⟨hX', fun h => (by cases h), fun _ => rfl⟩
    | false =>
      simp only [Bool.false_eq_true, ↓reduceIte]
      rw [wp_pure]
      exact ⟨hX, fun _ => congrArg some hid, fun h => by cases h⟩
  | cons el els ih =>
    intro ip p i name s hX hid hp hlive hkeep
    unfold namexElems
    rw [wp_bind]
    refine hX.ilock hC.refs (by simp) hid hlive fun s1 hX1 hid1 hv1 => ?_
    have hLd : Loaded E s1 ip p i :=
      (hX1.consistent.slot ip (hX1.ref_pos hC.refs (by simp))).loaded_of hid1 hv1
    rw [wp_bind, wp_inode, hLd.din, hX1.disk]
    -- give the inode back, unlocked
    have hdrop : ∀ {X : List (Fin NINODE)} {t : FsState} {Q : Unit → FsState → Prop},
      Extra E s0 (ip :: X) (some ip) t →
        t.ident ip = (some p, i) →
        (∀ t', Extra E s0 X none t' → (∀ k', t'.ident k' = t.ident k') → Q () t') →
        (iunlockput E ip).wp Q F t := by
      intro X t Q hXt hidt hQ
      unfold iunlockput
      rw [wp_bind]
      refine hXt.iunlock hC.refs fun t1 hX1 hids1 => ?_
      exact hX1.iput hC.refs ((hids1 ip).trans hidt) hkeep fun t' hX' hids' => hQ t' hX' fun k' =>
        (hids' k').trans (hids1 k')
    by_cases ht : (dinodeAt E s0.disk p i).type = T_DIR
    · rw [if_neg (not_not.2 ht)]
      have hin : ∀ {x : Option (Int × Nat)} ,
        (lookup (fileOf E s0 p i) el).map (fun j => (p, j)) = x → lookupIn E s0 (p, i) el = x := by
        rintro x rfl
        rw [lookupIn, if_pos ht]
      by_cases hlast : parent = true ∧ els = []
      · obtain ⟨rfl, rfl⟩ := hlast
        rw [if_pos ⟨rfl, rfl⟩, wp_bind,
          checkMounted_none hid1 (by rw [hX1.mounts]; exact unmounted_none hC.unmounted), wp_bind]
        refine hX1.iunlock hC.refs fun s' hX' hids => ⟨hX', fun h => (by cases h), fun _ => ?_⟩
        rw [plainParent_last, if_pos ht]
        show some (s'.ident ip, el) = _
        rw [hids, hid1]
        rfl
      · rw [if_neg hlast, wp_bind]
        refine hX1.dirlookup hC hid1 hv1 ht (fun h => hfull (Nat.lt_succ_of_le h)) (fun hnone => ?_)
          fun j next o s2 hsome hj hn hX2 hidn hid2 => ?_
        · simp only
          rw [wp_bind]
          have hno : lookupIn E s0 (p, i) el = none := hin (by rw [hnone]; rfl)
          refine hdrop hX1 hid1 fun s' hX' _ => ⟨hX', fun _ => ?_, fun hpar => ?_⟩
          · rw [plainWalk_cons, hno]; rfl
          · rw [plainParent_cons fun h => hlast ⟨hpar, h⟩, hno]; rfl
        · simp only
          rw [wp_bind]
          have hyes : lookupIn E s0 (p, i) el = some (p, j) := hin (by rw [hsome]; rfl)
          have hX2' : Extra E s0 (ip :: [next]) (some ip) s2 := by
            refine ⟨hX2.disk, hX2.mounts, hX2.consistent, fun k => ?_, hX2.ident,
              hX2.busy, fun k hk => ?_⟩
            · rw [hX2.refs k, List.Perm.count_eq (List.Perm.swap ip next [])]
            · obtain rfl := Option.some.inj hk
              simp
          refine hdrop hX2' hid2 fun s3 hX3 hids => ?_
          refine wp_mono (ih hX3 ((hids next).trans hidn) hp hj (.inr hn)) fun r s' hR =>
            ⟨hR.extra, fun hpar => ?_, fun hpar => ?_⟩
          · rw [plainWalk_cons, hyes]; exact hR.namei hpar
          · rw [plainParent_cons fun h => hlast ⟨hpar, h⟩, hyes]; exact hR.nameiparent hpar
    · rw [if_pos ht, wp_bind]
      have hno : lookupIn E s0 (p, i) el = none := if_neg ht
      refine hdrop hX1 hid1 fun s' hX' _ => ⟨hX', fun _ => ?_, fun _ => ?_⟩
      · rw [plainWalk_cons, hno]; rfl
      · cases els with
        | nil => rw [plainParent_last, if_neg ht]; rfl
        | cons el' els' => rw [plainParent_cons (by simp), hno]; rfl

/-! ## `namei` and `nameiparent` -/

/-- Where a walk starts: the root of the boot partition, or the current directory. -/
def walkStart (E : Env) (cwd : Int × Nat) (path : List UInt8) : Int × Nat :=
  if path.head? = some slash then (E.boot, ROOTINO) else cwd

section Names

variable {c : Int × Nat} (hC : Calm E s) (hboot : IsPart E.boot) (hcwd : 0 < (s.icache cwd).ref)
  (hid : s.ident cwd = (some c.1, c.2)) (hlive : Live (dinodeAt E s.disk c.1) c.2)
  (hne : path ≠ []) (hnul : 0 ∉ path)
include hC hboot hcwd hid hlive hne hnul

theorem namex_plain : (namex E cwd path parent).wp (Reached E s parent (walkStart E c path)
    (components path)) (fun e => e = .iget ∧ emptySlots s < 2) s := by
  have hfull : emptySlots s < 2 → (fun e => e = Panic.iget ∧ emptySlots s < 2) .iget := fun h =>
    ⟨rfl, h⟩
  unfold namex
  rw [wp_bind, wp_get, unmounted_findMp hC.unmounted hne hnul]
  simp only
  rw [wp_bind]
  unfold startInode walkStart
  by_cases habs : path.head? = some slash
  · rw [if_pos habs, if_pos habs]
    obtain ⟨hroot, hn⟩ := hC.tree.root E.boot hboot
    refine hC.extra.iget hC.refs hboot (by decide) (fun h =>
      hfull (Nat.lt_of_le_of_lt h Nat.two_pos)) fun k s1 hX hidk _ => ?_
    rw [namexLoop_elems (Nat.lt_succ_self _), elems_eq_components (Nat.lt_succ_self _)]
    exact namexElems_plain hC hfull hX hidk hboot hroot (.inr hn)
  · rw [if_neg habs, if_neg habs]
    unfold idup
    rw [wp_bind, wp_inode, wp_bind, wp_setInode, wp_pure]
    rw [namexLoop_elems (Nat.lt_succ_self _), elems_eq_components (Nat.lt_succ_self _)]
    have hprt : (s.icache cwd).prt = some c.1 := (Prod.mk.inj hid).1
    refine namexElems_plain hC hfull (hC.extra.taken hcwd) ?_
      ((hC.consistent.slot cwd hcwd).part c.1 hprt).1 hlive (.inl hcwd)
    rw [FsState.ident, withInode_self]
    exact hid

/-- **Without mount points `namei` and `nameiparent` return what the plain walk over the components
finds.** They stop only if the inode cache has fewer than two slots left. -/
theorem namei_plain :
    (namei E cwd path).wp (fun r s' => r.map s'.ident =
      (plainWalk E s (walkStart E c path) (components path)).map fun z => (some z.1, z.2))
      (fun e => e = .iget ∧ emptySlots s < 2) s ∧
    (nameiparent E cwd path).wp (fun r s' => r.map (fun y => (s'.ident y.1, y.2)) =
      (plainParent E s (walkStart E c path) (components path)).map fun z =>
        ((some z.1.1, z.1.2), z.2))
      (fun e => e = .iget ∧ emptySlots s < 2) s := by
  constructor
  · unfold namei
    rw [wp_bind]
    refine wp_mono (namex_plain hC hboot hcwd hid hlive hne hnul) fun r s' hR => ?_
    rw [wp_pure, Option.map_map]
    exact hR.namei rfl
  · exact wp_mono (namex_plain hC hboot hcwd hid hlive hne hnul) fun r s' hR => hR.nameiparent rfl

end Names

theorem calm_treeState : Calm demoEnv treeState := by
  have hroot : ∀ p, IsPart p → dinodeAt demoEnv treeState.disk p 1 = treeRoot p.toNat := fun p hp =>
    (dinodeAt_treeDisk hp (by decide)).trans (if_pos rfl)
  have hlive : ∀ p, IsPart p → Live (dinodeAt demoEnv treeState.disk p) 1 ∧
      (dinodeAt demoEnv treeState.disk p 1).nlink ≠ 0 :=
    fun p hp => by
      refine ⟨⟨by decide, ?_⟩, ?_⟩
      · rw [hroot p hp]; exact (by decide : T_DIR ≠ 0)
      · rw [hroot p hp]; exact Int.one_ne_zero
  refine ⟨inv_treeState.consistent, ⟨hlive, fun p i hp hi ht => ?_, fun p i hp hi ht t hlt _ => ?_⟩,
    fun k => ?_, fun k hk => ?_, fun e he => List.eq_of_mem_replicate he⟩
  · obtain ⟨-, hd⟩ := dir_treeDisk hp hi ht
    rw [show dinodeAt demoEnv treeState.disk p i = treeRoot p.toNat from hd]
    exact (by decide : 48 % 16 = 0)
  · obtain ⟨rfl, hd⟩ := dir_treeDisk hp hi ht
    rw [show dinodeAt demoEnv treeState.disk p 1 = treeRoot p.toNat from hd] at hlt
    have h48 : 16 * t + 16 ≤ 48 := hlt
    rw [entries_treeState hp t (by omega)]
    split
    · have hfile : dinodeAt demoEnv treeState.disk p 2 = demoInode :=
        dinodeAt_treeDisk hp (by decide)
      refine ⟨⟨by decide, ?_⟩, ?_⟩
      · rw [hfile]; decide
      · rw [hfile]; decide
    · exact hlive p hp
  · by_cases hk : k = 0
    · rw [hk]; decide
    · rw [show treeState.icache k = blankInode from
        Function.update_of_ne hk _ (fun _ => blankInode)]
      decide
  · rw [slot_treeState hk]
    rfl

/-- `namei("/x")` is the file of partition 0, and `nameiparent("/x")` its root. -/
theorem namei_plain_demo :
    (∃ k s', namei demoEnv 0 [slash, 120] treeState = .ok (some k, s') ∧ s'.ident k = (some 0, 2)) ∧
    ∃ k s', nameiparent demoEnv 0 [slash, 120] treeState = .ok (some (k, [120]), s') ∧
    s'.ident k = (some 0, 1) := by
  have hcwd : 0 < (treeState.icache 0).ref := by decide
  have hne : [slash, 120] ≠ [] := by decide
  obtain ⟨h1, h2⟩ := namei_plain (c := (0, 1)) calm_treeState (by decide) hcwd rfl
    (calm_treeState.tree.root 0 (by decide)).1 hne (by decide)
  have hempty : ¬ emptySlots treeState < 2 := by decide +kernel
  have hw : plainWalk demoEnv treeState (0, 1) [[120]] = some (0, 2) := by decide +kernel
  have hp : plainParent demoEnv treeState (0, 1) [[120]] = some ((0, 1), [120]) := by decide +kernel
  obtain ⟨r, s', hr, hres⟩ := wp_total.1 (wp_imp h1 (fun _ _ h => h) fun _ h => hempty h.2)
  obtain ⟨r', t', hr', hres'⟩ := wp_total.1 (wp_imp h2 (fun _ _ h => h) fun _ h => hempty h.2)
  refine ⟨?_, ?_⟩
  · obtain ⟨k, rfl, hk⟩ := Option.map_eq_some_iff.1 (hres.trans (congrArg _ hw))
    exact ⟨k, s', hr, hk⟩
  · obtain ⟨⟨k, nm⟩, rfl, hk⟩ := Option.map_eq_some_iff.1 (hres'.trans (congrArg _ hp))
    obtain ⟨h3, rfl⟩ := Prod.mk.inj hk
    exact ⟨k, t', hr', h3⟩

/-! ## Relative strings in the mount table -/

/-- Whenever `namex` takes the shortcut for a relative path that is stored whole, the plain walk
from the current directory of the process comes to the inode that was mounted over. -/
def CwdRespected (E : Env) (s : FsState) : Prop :=
  ∀ pid pr (c : Int × Nat) path, s.procs pid = some pr →
  s.ident pr.cwd = (some c.1, c.2) → 0 ∉ path → path.head? ≠ some slash → 1 ≤ path.length →
  path.length ≤ 13 → ∀ n e, findMp s.mounts path = some n → s.mounts[n]? = some e →
    (plainWalk E s c (components path)).map (fun z => (some z.1, z.2)) = some (e.oldPrt, e.oldI)

/-- A call of `mount`: the directory of the process, the string, the result, and the state before
it. -/
structure MountFrom where
  cwd : Fin NINODE
  path : List UInt8
  result : Int
  before : FsState

/-- A run of `mount` and `chdir`, with its calls of `mount`, the latest first. -/
inductive Wanders (E : Env) : List MountFrom → FsState → Prop
  | boot {s : FsState} : s.mounts = List.replicate MOUNT_POINTS_SIZE freeSlot → Wanders E [] s
  | mount {h : List MountFrom} {s s' : FsState} {pid : Fin NPROC} {pr : Proc}
      {path : List UInt8} {i r : Int} :
    Wanders E h s → 0 ∉ path → s.procs pid = some pr → mount E pr.cwd path i s = .ok (r, s') →
    Wanders E (⟨pr.cwd, path, r, s⟩ :: h) s'
  | chdir {h : List MountFrom} {s s' : FsState} {pid : Fin NPROC} {path : List UInt8} {r : Int} :
    Wanders E h s → sysChdir E pid path s = .ok (r, s') → Wanders E h s'

/-- `m` put the entry `e` in the table: it is of the inode that `namei` had found. -/
def MountFrom.Made (E : Env) (m : MountFrom) (e : MountPoint) : Prop :=
  m.result = 0 ∧ 0 ∉ m.path ∧ findMp m.before.mounts m.path = none ∧
  ∃ i k t, namei E m.cwd m.path m.before = .ok (some k, t) ∧
    e = mountEntry freeSlot m.path i (t.icache k).inum (t.icache k).prt

def SameMounts (s s' : FsState) : Prop := s'.mounts = s.mounts

theorem steps_mounts (E : Env) : RespectsAll E fun _ m => Steps SameMounts m where
  toRespects :=
    have hlocal : Local SameMounts :=
      ⟨fun _ => rfl, fun _ _ _ h1 h2 => Eq.trans h2 h1, fun _ _ _ => rfl, fun _ _ _ => rfl⟩
    steps_respects hlocal E
  setFile _ _ := Steps.modify fun _ => rfl
  setProc _ _ := Steps.modify fun _ => rfl
  beginOp := Steps.modify fun _ => rfl
  endOp := Steps.modify fun _ => rfl

theorem Wanders.made {h : List MountFrom} (hw : Wanders E h s) :
    ∀ {j : Nat} {e}, s.mounts[j]? = some e → e = freeSlot ∨ ∃ m ∈ h, m.Made E e := by
  induction hw with
  | boot hs => exact fun he => .inl (List.eq_of_mem_replicate (List.mem_of_getElem? (hs ▸ he)))
  | chdir _ hrun ih =>
    intro j e he
    have hs : SameMounts _ _ := (steps_mounts E).sysChdir _ _ _ _ _ hrun
    exact ih (hs ▸ he)
  | mount _ hp _ hrun ih =>
    intro j e he
    rcases mount_cases hrun with ⟨-, hs⟩ | ⟨rfl, hnone, n, k, t, ha, hnamei, hs⟩
    · rw [hs] at he
      exact (ih he).imp_right fun ⟨m, hm, hmade⟩ => ⟨m, List.mem_cons_of_mem _ hm, hmade⟩
    rw [hs] at he
    by_cases hj : j = n
    · -- the slot was free: what is taken is not offered
      subst hj
      obtain ⟨old, hold, htaken⟩ := mpalloc_some ha
      have hfree : old = freeSlot :=
        (ih hold).resolve_right fun ⟨m, _, _, _, _, i, k, t, _, he⟩ => by
        rw [he] at htaken
        cases htaken
      rw [List.getElem?_modify_eq, hold, hfree] at he
      exact .inr ⟨_, List.mem_cons_self, rfl, hp, hnone, _, k, t, hnamei, (Option.some.inj he).symm⟩
    · rw [List.getElem?_modify_ne _ _ (Ne.symm hj)] at he
      exact (ih he).imp_right fun ⟨m, hm, hmade⟩ => ⟨m, List.mem_cons_of_mem _ hm, hmade⟩

/-- The mount was made in a sound state and over no mounted directory. In `s` the directories it
searched are as they were, and every process is in the directory it was made in. -/
structure MountFrom.Stays (E : Env) (m : MountFrom) (s : FsState) : Prop where
  sound : ∃ first L, Laid E first ∧ Inv E L m.before ∧ m.cwd ∈ L
  walk : ∀ p i, m.before.ident m.cwd = (some p, i) →
    ∀ x ∈ visited E m.before false (m.path.length + 1) p i m.path,
    isInodeMounted m.before.mounts x.2 (some x.1) = none ∧
    (dinodeAt E s.disk x.1 x.2).type = T_DIR ∧ fileOf E s x.1 x.2 = fileOf E m.before x.1 x.2
  cwd : ∀ pid pr, s.procs pid = some pr → s.ident pr.cwd = m.before.ident m.cwd

/-- Where no directory is mounted over, the walk is the plain one, and stays it as long as the
directories do. -/
theorem resolve_plain {y : Option Int × Nat} {nm : List UInt8} :
    ∀ {fuel : Nat} {p : Int} {i : Nat} {path name : List UInt8},
    path.length < fuel → resolve E s false fuel p i path name = some (y, nm) →
    (∀ x ∈ visited E s false fuel p i path, isInodeMounted s.mounts x.2 (some x.1) = none ∧
      (dinodeAt E s'.disk x.1 x.2).type = T_DIR ∧ fileOf E s' x.1 x.2 = fileOf E s x.1 x.2) →
    (plainWalk E s' (p, i) (elems path)).map (fun z => (some z.1, z.2)) = some y := by
  intro fuel
  induction fuel with
  | zero => exact fun hlen => absurd hlen (Nat.not_lt_zero _)
  | succ fuel ih =>
    intro p i path name hlen hres hsame
    unfold resolve at hres
    unfold visited at hsame
    cases hsk : skipelem path with
    | none =>
      rw [hsk] at hres
      cases hres
      rw [elems_none hsk]
      rfl
    | some x =>
      obtain ⟨el, rest⟩ := x
      rw [hsk] at hres hsame
      simp only [Bool.false_eq_true, false_and, ↓reduceIte] at hres hsame
      split at hres
      · cases hres
      rename_i ht
      rw [if_neg ht] at hsame
      obtain ⟨hm, ht', hfile⟩ := hsame (p, i) (by split <;> first | simp | (split <;> simp))
      rw [show through s.mounts p i = (some p, i) by rw [through, hm]] at hres hsame
      simp only at hres hsame
      have hlook : (dirFind (fileOf E s p i) el).map Prod.snd = lookup (fileOf E s p i) el :=
        dirFind_lookup
      cases hf : dirFind (fileOf E s p i) el with
      | none =>
        rw [hf] at hres
        cases hres
      | some z =>
        obtain ⟨o, j⟩ := z
        rw [hf] at hres hsame hlook
        rw [elems_some hsk, plainWalk_cons, lookupIn, if_pos ht', hfile, ← hlook]
        have := skipelem_length hsk
        exact ih (by omega) hres fun x hx => hsame x (List.mem_cons_of_mem _ hx)

/-- **The shortcut respects the current directory as long as every process is where the mounts were
made.** -/
theorem cwd_respected {h : List MountFrom} (hboot : IsPart E.boot) (hw : Wanders E h s)
    (hstay : ∀ m ∈ h, m.result = 0 → m.path.head? ≠ some slash → m.path.length ≤ 13 → m.Stays E s) :
    CwdRespected E s := by
  intro pid pr c path hpr hid hnul hrel hpos hlen n e hfind he
  obtain ⟨⟨e', he', hmatch⟩, -⟩ := findMp_some.1 hfind
  obtain rfl := Option.some.inj (he.symm.trans he')
  rcases hw.made he with rfl | ⟨m, hmem, h0, hmnul, hnone, i, k, t, hnamei, rfl⟩
  · -- a slot that was never used holds the empty string
    rw [(namecmp_freeSlot hnul).1 hmatch] at hpos
    exact absurd hpos (by decide)
  · have htake := (namecmp_mountEntry hnul hmnul _ _ _).1 hmatch
    rw [List.take_of_length_le (show path.length ≤ DIRSIZ by simp only [DIRSIZ]; omega)] at htake
    have hpath : m.path = path := by
      have hl := congrArg List.length htake
      rw [List.length_take] at hl
      simp only [DIRSIZ] at hl
      rw [← htake, List.take_of_length_le (by simp only [DIRSIZ]; omega)]
    have hS := hstay m hmem h0 (hpath ▸ hrel) (hpath ▸ hlen)
    obtain ⟨first, L, hL, hI, hcwd⟩ := hS.sound
    have hcwd' : m.before.ident m.cwd = (some c.1, c.2) := (hS.cwd pid pr hpr).symm.trans hid
    have hstart : startIdent E m.before m.cwd m.path = (some c.1, c.2) := by
      rw [startIdent, hpath, if_neg hrel, hcwd']
    have hprt : (m.before.icache m.cwd).prt ≠ none := by
      rw [show (m.before.icache m.cwd).prt = some c.1 from (Prod.mk.inj hcwd').1]
      nofun
    have hpass : Passable E L m.before m.cwd m.path false := fun p i h x hx => by
      obtain ⟨h1, rfl⟩ := Prod.mk.inj (hstart.symm.trans h)
      obtain rfl := Option.some.inj h1
      exact rooted_of_none (hS.walk _ _ hcwd' x hx).1
    -- what `mount` recorded is where the walk ended
    have hwalk := namei_walk hL hI hboot hcwd hprt hpass (shortcut_none.2 hnone) hnamei
    rw [walkTo, hstart, Option.map_some] at hwalk
    obtain ⟨⟨y, nm⟩, hres, rfl⟩ := Option.map_eq_some_iff.1 hwalk.symm
    rw [← elems_eq_components (Nat.lt_succ_self _), ← hpath]
    exact resolve_plain (Nat.lt_succ_self _) hres (hS.walk _ _ hcwd')

/-- `mount("x", 1)` in the root of partition 0, then `chdir(".")`: the shortcut is taken for
`"x"`. -/
theorem cwd_respected_demo : ∃ s1 s2, mount demoEnv 0 [120] 1 treeState = .ok (0, s1) ∧
    sysChdir demoEnv 0 [46] s1 = .ok (0, s2) ∧
    findMp s2.mounts [120] = some 0 ∧ CwdRespected demoEnv s2 := by
  obtain ⟨x, s2, h, hx, hfind, hprocs, hwalk⟩ : ∃ x s2, (do
        let a ← mount demoEnv 0 [120] 1
        let b ← sysChdir demoEnv 0 [46]
        return (a, b) : FsM (Int × Int)) treeState = .ok (x, s2) ∧ x = (0, 0) ∧
          findMp s2.mounts [120] = some 0 ∧
      (∀ pid, ∀ y ∈ (s2.procs pid).map fun pr => s2.ident pr.cwd, y = (some 0, 1)) ∧
      ∀ x ∈ visited demoEnv treeState false 2 0 1 [120],
      isInodeMounted treeState.mounts x.2 (some x.1) = none ∧
        (dinodeAt demoEnv s2.disk x.1 x.2).type = T_DIR ∧ fileOf demoEnv s2 x.1 x.2 =
          fileOf demoEnv treeState x.1 x.2 :=
    wp_total.1 (by decide +kernel)
  obtain ⟨a, s1, h1, h⟩ := bind_ok h
  obtain ⟨b, t, h2, h⟩ := bind_ok h
  cases h
  obtain ⟨rfl, rfl⟩ := Prod.mk.inj hx
  have hpr : treeState.procs 0 = some ⟨0, fun _ => none⟩ := rfl
  refine ⟨s1, s2, h1, h2, hfind,
    cwd_respected (by decide) (.chdir (.mount (.boot rfl) (by decide) hpr h1) h2)
    fun m hm _ _ _ => ?_⟩
  obtain rfl := List.mem_singleton.1 hm
  refine ⟨⟨100, [0], laid_demoEnv, inv_treeState, by simp⟩, fun p i hid => ?_, fun pid pr hpr => ?_⟩
  · have h0 : treeState.ident 0 = (some 0, 1) := rfl
    obtain ⟨h3, rfl⟩ := Prod.mk.inj (h0.symm.trans hid)
    obtain rfl := Option.some.inj h3
    exact hwalk
  · exact hprocs pid _ (Option.mem_map.2 ⟨pr, hpr, rfl⟩)

/-- `mount("x", 1)` in the root of partition 0, then `chdir("x")`: the process is in the root of
partition 1, where `x` is another file, and the shortcut is still taken. -/
theorem cwd_not_respected : ∃ s1 s2, mount demoEnv 0 [120] 1 treeState = .ok (0, s1) ∧
    sysChdir demoEnv 0 [120] s1 = .ok (0, s2) ∧ ¬ CwdRespected demoEnv s2 := by
  obtain ⟨x, s2, h, hx, hproc, hentry, hfind, hwalk⟩ : ∃ x s2, (do
        let a ← mount demoEnv 0 [120] 1
        let b ← sysChdir demoEnv 0 [120]
        return (a, b) : FsM (Int × Int)) treeState = .ok (x, s2) ∧ x = (0, 0) ∧
      (s2.procs 0).map (fun pr => s2.ident pr.cwd) = some (some 1, 1) ∧
      (s2.mounts[0]?).map (fun e => (e.oldPrt, e.oldI)) = some (some 0, 2) ∧
      findMp s2.mounts [120] = some 0 ∧
      plainWalk demoEnv s2 (1, 1) [[120]] = some (1, 2) := wp_total.1 (by decide +kernel)
  obtain ⟨a, s1, h1, h⟩ := bind_ok h
  obtain ⟨b, t, h2, h⟩ := bind_ok h
  cases h
  obtain ⟨rfl, rfl⟩ := Prod.mk.inj hx
  obtain ⟨pr, hpr, hcwd⟩ := Option.map_eq_some_iff.1 hproc
  obtain ⟨e, he, hold⟩ := Option.map_eq_some_iff.1 hentry
  refine ⟨s1, s2, h1, h2, fun hR => ?_⟩
  have := hR 0 pr (1, 1) [120] hpr hcwd (by decide) (by decide) (by decide) (by decide) 0 e hfind he
  rw [hold, show components [120] = [[120]] by decide, hwalk] at this
  cases this

end Os4.Fs
