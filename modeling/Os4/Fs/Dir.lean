import Os4.Fs.Reclaim
/-!
# Directories (fs.c:607-690)

| here | there |
| --- | --- |
| `dirFind l name` | the entry that `dirlookup` finds in a directory with contents `l` |

A directory is an array of 16-byte entries; the loop of `dirlookup` reads one after another with
`readi`. `treeState` has one on each partition, for the runs of later modules.
-/
namespace Os4.Fs

open Prog

variable {E : Env} {first : Nat} {p : Int} {k : Fin NINODE} {i off inum : Nat} {s s' : FsState}
  {F : Panic → Prop} {d : Dinode} {name l : List UInt8} {L : List (Fin NINODE)}

/-! ## Names -/

theorem strncmp_succ {a b : List UInt8} {n : Nat} : strncmp a b (n + 1) = 0 ↔
    a.headD 0 = b.headD 0 ∧ (a.headD 0 ≠ 0 → strncmp a.tail b.tail n = 0) := by
  simp only [strncmp]
  by_cases hab : a.headD 0 = b.headD 0
  · by_cases h0 : a.headD 0 = 0
    · rw [if_neg (fun h => h.1 h0), ← hab, h0]
      simp
    · rw [if_pos ⟨h0, hab⟩]
      exact ⟨fun h => ⟨hab, fun _ => h⟩, fun h => h.2 h0⟩
  · rw [if_neg (fun h => hab h.2)]
    refine ⟨fun h => absurd (UInt8.toNat_inj.1 ?_) hab, fun h => absurd h.1 hab⟩
    omega

/-! ## Searching -/

/-- The search of `dirlookup` from `off` on. -/
def findFrom (l name : List UInt8) : Nat → Nat → Option (Nat × Nat)
  | 0, _ => none
  | fuel + 1, off =>
    if off + 16 ≤ l.length then
      if (entryAt l off).inum ≠ 0 ∧ namecmp name (entryAt l off).name = 0 then
        some (off, (entryAt l off).inum)
      else findFrom l name fuel (off + 16)
    else none

/-- Offset and inode number of the first entry called `name`. -/
def dirFind (l name : List UInt8) : Option (Nat × Nat) := findFrom l name (l.length / 16 + 1) 0

theorem findFrom_some {o j : Nat} :
    ∀ {fuel off : Nat}, off % 16 = 0 → findFrom l name fuel off = some (o, j) →
    o % 16 = 0 ∧ o + 16 ≤ l.length ∧ (entryAt l o).inum = j ∧ j ≠ 0 ∧
    namecmp name (entryAt l o).name = 0 := by
  intro fuel
  induction fuel with
  | zero => intro off _ h; cases h
  | succ fuel ih =>
    intro off hoff h
    unfold findFrom at h
    split at h
    · split at h
      · obtain ⟨rfl, rfl⟩ := Prod.mk.inj (Option.some.inj h)
        exact ⟨hoff, ‹_›, rfl, ‹_ ∧ _›.1, ‹_ ∧ _›.2⟩
      · exact ih (by omega) h
    · cases h

/-- A directory that is loaded, has no holes and can be read. -/
structure Readable (s : FsState) (k : Fin NINODE) (d : Dinode) : Prop where
  din : (s.icache k).din = d
  type : d.type ≠ T_DEV
  size : d.size ≤ MAXFILE * BSIZE
  solid : ∀ bn, bn * BSIZE < d.size → d.fileBlock s.disk bn ≠ 0

theorem readEntry (h : Readable s k d) (hoff : off < d.size) :
    readi E k off 16 s = .ok (((min 16 (d.size - off) : Nat),
      ((content s.disk d).drop off).take (min 16 (d.size - off))), s) := by
  have hsize := h.size
  simp only [MAXFILE, NDIRECT, NINDIRECT, BSIZE] at hsize
  exact readi_good (by decide) (by rw [h.din]; exact h.type) h.din h.solid
    (Nat.le_of_lt hoff) (by omega)

theorem dirScan_wp (h : Readable s k d) (hF : d.size % 16 ≠ 0 → F .dirlinkRead)
    {Q : Option (Nat × Nat) → FsState → Prop} :
    ∀ fuel off : Nat, off % 16 = 0 → Q (findFrom (content s.disk d) name fuel off) s →
    (dirScan E k name fuel off).wp Q F s := by
  intro fuel
  induction fuel with
  | zero => intro off _ hQ; exact hQ
  | succ fuel ih =>
    intro off hoff hQ
    unfold findFrom at hQ
    rw [length_content] at hQ
    unfold dirScan
    rw [wp_bind, wp_inode, h.din, wp_ite]
    refine ⟨fun hlt => ?_, fun hge => ?_⟩
    · rw [wp_bind, wp_run (readEntry h hlt)]
      by_cases hfull : off + 16 ≤ d.size
      · have hmin : min 16 (d.size - off) = 16 := by omega
        rw [if_pos hfull] at hQ
        simp only [hmin]
        rw [if_neg (by simp), wp_ite]
        refine ⟨fun hc => ?_, fun hc => ?_⟩
        · rw [entryAt, if_pos hc] at hQ
          exact hQ
        · rw [entryAt, if_neg hc] at hQ
          exact ih _ (by omega) hQ
      · dsimp only
        rw [if_pos (by omega)]
        exact hF (by omega)
    · rw [if_neg (by omega)] at hQ
      exact hQ

/-! ## Looking up -/

/-- Slot `k` holds inode `i` of `p`, loaded. -/
structure Loaded (E : Env) (s : FsState) (k : Fin NINODE) (p : Int) (i : Nat) : Prop where
  ident : s.ident k = (some p, i)
  part : IsPart p
  live : Live (dinodeAt E s.disk p) i
  din : (s.icache k).din = dinodeAt E s.disk p i

theorem Slot.loaded_of (h : Slot E s.disk (s.icache k)) (hid : s.ident k = (some p, i))
    (hv : (s.icache k).valid = true) : Loaded E s k p i := by
  obtain ⟨h1, h2⟩ := Prod.mk.inj hid
  obtain ⟨hp, hi, hd⟩ := h.live h1 hv
  rw [h2] at hi hd
  exact ⟨hid, hp, hi, hd⟩

theorem Loaded.readable (h : Loaded E s k p i) (hC : Consistent E s)
    (ht : (dinodeAt E s.disk p i).type ≠ T_DEV) :
    Readable s k (dinodeAt E s.disk p i) :=
  ⟨h.din, ht, (hC.vol p h.part).size i h.live, fun bn => (hC.vol p h.part).solid i bn h.live⟩

theorem Inv.inum_lt {o j : Nat} (hI : Inv E L s) (hp : IsPart p) (hi : Live (dinodeAt E s.disk p) i)
    (ht : (dinodeAt E s.disk p i).type = T_DIR) (h : dirFind (fileOf E s p i) name = some (o, j)) :
    j < NINODES := by
  obtain ⟨h1, h2, h3, -⟩ := findFrom_some (by decide) h
  rw [fileOf, length_content] at h2
  have := hI.dirs p i hp hi ht (o / 16) (by omega)
  rwa [show 16 * (o / 16) = o by omega, h3] at this

theorem dirlookupIn_wp (hI : Inv E L s) (hk : Loaded E s k p i)
    {Q : Option (Fin NINODE × Nat) → FsState → Prop}
    (hnone : (dinodeAt E s.disk p i).type = T_DIR → dirFind (fileOf E s p i) name = none → Q none s)
    (hsome : ∀ o j k' s', (dinodeAt E s.disk p i).type = T_DIR →
      dirFind (fileOf E s p i) name = some (o, j) →
      Got E L (some p, j) s k' s' → Q (some (k', o)) s') : (dirlookupIn E k name).wp Q Fine s := by
  unfold dirlookupIn
  rw [wp_bind, wp_inode, hk.din, wp_ite]
  refine ⟨fun _ h => Panic.noConfusion h, fun ht => ?_⟩
  have ht : (dinodeAt E s.disk p i).type = T_DIR := not_not.1 ht
  have hr := hk.readable hI.consistent (by rw [ht]; decide)
  rw [wp_bind]
  refine dirScan_wp hr (fun _ h => Panic.noConfusion h) _ 0 (by decide) ?_
  have hfind : findFrom (content s.disk (dinodeAt E s.disk p i)) name
    ((dinodeAt E s.disk p i).size / 16 + 1) 0 =
      dirFind (fileOf E s p i) name := by rw [dirFind, fileOf, length_content]
  rw [hfind]
  cases hf : dirFind (fileOf E s p i) name with
  | none => exact hnone ht hf
  | some x =>
    obtain ⟨o, j⟩ := x
    have hprt : (s.icache k).prt = some p := (Prod.mk.inj hk.ident).1
    simp only
    rw [wp_bind, hprt]
    refine iget_wp hI (fun q hq => ?_) fun k' s' hG => ?_
    · obtain rfl := Option.some.inj hq
      exact ⟨hk.part, hI.inum_lt hk.part hk.live ht hf⟩
    · rw [wp_pure]
      exact hsome o j k' s' ht hf hG

variable {Q : Fin NINODE → FsState → Prop}

/-- A directory that nothing is mounted over is searched itself. -/
theorem redirect_none (hid : s.ident k = (some p, i))
    (h : isInodeMounted s.mounts i (some p) = none) : (redirect k).wp Q F s ↔ Q k s := by
  obtain ⟨h1, h2⟩ := Prod.mk.inj hid
  unfold redirect
  rw [wp_bind, wp_get, h1, h2, h, wp_pure]

theorem redirect_some {prt : Option Int} (hid : s.ident k = (some p, i))
    (h : isInodeMounted s.mounts i (some p) = some prt) : (redirect k).wp Q F s ↔
    (iget prt ROOTINO).wp Q F s := by
  obtain ⟨h1, h2⟩ := Prod.mk.inj hid
  unfold redirect
  rw [wp_bind, wp_get, h1, h2, h]

/-! ## A file on each partition -/

/-- A directory with `.`, `..` and a file `x`, inode 2. -/
def dirBlock : Block :=
  Bytes.zero.splice 0 (direntBytes ⟨1, strncpy dot DIRSIZ⟩ ++
    direntBytes ⟨1, strncpy dotdot DIRSIZ⟩ ++ direntBytes ⟨2, strncpy [120] DIRSIZ⟩)

def treeRoot (p : Nat) : Dinode :=
  ⟨T_DIR, 0, 0, 1, 48, fun j => if j = 0 then 158 + 1000 * p else 0⟩

def treeDisk : Disk := fun b =>
  if b % 1000 = 100 then superblockBlock Mkfs.superblock
  else if b % 1000 = 131 then putDinode (putDinode Bytes.zero 1 (treeRoot (b / 1000))) 2 demoInode
  else if b % 1000 = 157 then Bytes.zero.setBit 0
  else if b % 1000 = 158 then dirBlock
  else Bytes.zero

/-- One process, in the root of partition 0. -/
def treeState : FsState := { idleState treeDisk with
  icache := Function.update (fun _ => blankInode) 0 ⟨1, 1, false, true, some 0, treeRoot 0⟩
  outstanding := 0
  procs := Function.update (fun _ => none) 0 (some ⟨0, fun _ => none⟩) }

section

variable (hp : IsPart p)
include hp

theorem inRange_treeRoot : (treeRoot p.toNat).InRange := by
  have h0 : toShort 0 = 0 := by decide
  refine ⟨show toShort T_DIR = T_DIR by decide, h0, h0, show toShort 1 = 1 by decide,
    show 48 < 2 ^ 32 by decide, fun j => ?_⟩
  show (if j = 0 then 158 + 1000 * p.toNat else 0) < _
  have : p.toNat < 4 := by have := hp.2; simp only [NPARTITIONS] at this; omega
  split
  · omega
  · decide

theorem dinodeAt_treeDisk (hi : i < NINODES) : dinodeAt demoEnv treeDisk p i =
    if i = 1 then treeRoot p.toNat else if i = 2 then demoInode
    else ⟨0, 0, 0, 0, 0, fun _ => 0⟩ := by
  have hp4 : p.toNat < 4 := by have := hp.2; simp only [NPARTITIONS] at this; omega
  simp only [NINODES] at hi
  unfold dinodeAt treeDisk
  rw [show inodeBlock demoEnv p i = 131 + 1000 * p.toNat +
    i / 8 by show 100 + 1000 * p.toNat + 31 + i / 8 = _; omega, if_neg (by omega)]
  split
  · rw [show (131 + 1000 * p.toNat + i / 8) / 1000 = p.toNat by omega]
    by_cases h2 : i = 2
    · rw [if_neg (by omega), if_pos h2, h2]
      exact getDinode_putDinode_same _ (by decide) inRange_demoInode
    · rw [getDinode_putDinode_ne _ _ (by show i % 8 ≠ 2; omega)]
      by_cases h1 : i = 1
      · rw [if_pos h1, h1]
        exact getDinode_putDinode_same _ (by decide) (inRange_treeRoot hp)
      · rw [if_neg h1, if_neg h2, getDinode_putDinode_ne _ _ (by show i % 8 ≠ 1; omega)]
        exact getDinode_zero _
  · rw [if_neg (by omega), if_neg (by omega), if_neg (by omega), if_neg (by omega)]
    exact getDinode_zero _

/-- The only block number in the inodes is that of the root's block. -/
theorem ptr_treeDisk (x : Nat × Loc) : ptr treeDisk (dinodeAt demoEnv treeDisk p) x =
    if x = (1, .addr 0) then 158 + 1000 * p.toNat else 0 := by
  obtain ⟨i, l⟩ := x
  by_cases hi : i < NINODES
  · by_cases h1 : i = 1
    · subst h1
      have hd := dinodeAt_treeDisk hp hi
      rw [if_pos rfl] at hd
      rw [ptr, if_pos ⟨hi, by rw [hd]; exact (by decide : T_DIR ≠ 0)⟩, hd]
      cases l with
      | addr j => simp [Dinode.block, treeRoot]
      | ind j => simp [Dinode.block, Dinode.indirect, treeRoot]
    · rw [if_neg (by simp [h1]), ptr]
      split
      · rw [dinodeAt_treeDisk hp hi, if_neg h1]
        split <;> exact block_blank rfl
      · rfl
  · rw [ptr, if_neg fun h => hi h.1, if_neg]
    rintro h
    obtain ⟨rfl, -⟩ := Prod.mk.inj h
    exact hi (by decide)

theorem live_treeDisk (hi : Live (dinodeAt demoEnv treeDisk p) i) : i = 1 ∨ i = 2 := by
  by_contra h
  obtain ⟨h1, h2⟩ := not_or.1 h
  exact hi.2 (by rw [dinodeAt_treeDisk hp hi.1, if_neg h1, if_neg h2])

theorem vol_treeDisk : Vol demoEnv p Mkfs.superblock.nblocks treeDisk
    (dinodeAt demoEnv treeDisk p) := by
  have hoff : demoEnv.offset p = 100 + 1000 * p.toNat := rfl
  have hbm : treeDisk (bmBlock demoEnv p) = Bytes.zero.setBit 0 := by
    unfold treeDisk
    rw [show bmBlock demoEnv p = 157 + 1000 * p.toNat by show 100 + 1000 * p.toNat + 57 = _; omega,
      if_neg (by omega), if_neg (by omega), if_pos (by omega)]
  refine ⟨?_, ⟨fun x hx => ?_, fun x y hx hxy => ?_, fun j => ?_⟩, fun i hi => ?_,
    fun i bn hi hlt => ?_, fun i _ => inRange_getDinode _ _⟩
  · rw [show treeDisk (demoEnv.offset p) = superblockBlock Mkfs.superblock from
      if_pos (by rw [hoff]; omega)]
    decide
  · rw [ptr_treeDisk hp] at hx ⊢
    split at hx
    · rw [if_pos ‹_›, hoff]
      show _ ∧ _ < _ + 942
      omega
    · exact absurd rfl hx
  · rw [ptr_treeDisk hp] at hx hxy
    rw [ptr_treeDisk hp] at hxy
    split at hx
    · rw [if_pos ‹_›] at hxy
      split at hxy
      · rw [‹x = _›, ‹y = _›]
      · omega
    · exact absurd rfl hx
  · rw [hbm, Bytes.bit_setBit _ _ (by decide), Bytes.bit_zero]
    simp only [ptr_treeDisk hp, hoff]
    constructor
    · intro h
      have hj : j = 0 := by simpa using h
      exact ⟨(1, .addr 0), by rw [if_pos rfl]; omega⟩
    · rintro ⟨x, hx⟩
      split at hx
      · have hj : j = 0 := by omega
        simp [hj]
      · omega
  · rcases live_treeDisk hp hi with rfl | rfl
    · rw [dinodeAt_treeDisk hp hi.1, if_pos rfl]
      exact (by decide : 48 ≤ MAXFILE * BSIZE)
    · rw [dinodeAt_treeDisk hp hi.1, if_neg (by decide), if_pos rfl]
      exact Nat.zero_le _
  · rcases live_treeDisk hp hi with rfl | rfl
    · rw [dinodeAt_treeDisk hp hi.1, if_pos rfl] at hlt ⊢
      have hbn : bn = 0 := by
        have : bn * 512 < 48 := hlt
        omega
      rw [hbn]
      show 158 + 1000 * p.toNat ≠ 0
      omega
    · rw [dinodeAt_treeDisk hp hi.1] at hlt
      exact absurd hlt (Nat.not_lt_zero _)

theorem part_cases : p = 0 ∨ p = 1 ∨ p = 2 ∨ p = 3 := by
  obtain ⟨h1, h2⟩ := hp
  simp only [NPARTITIONS] at h2
  omega

theorem entries_treeState : ∀ t < 3, (entryAt (fileOf demoEnv treeState p 1) (16 * t)).inum =
    if t = 2 then 2 else 1 := by
  rcases part_cases hp with rfl | rfl | rfl | rfl <;> decide +kernel

theorem dir_treeDisk (hi : Live (dinodeAt demoEnv treeDisk p) i)
    (ht : (dinodeAt demoEnv treeDisk p i).type = T_DIR) : i = 1 ∧ dinodeAt demoEnv treeDisk p i =
      treeRoot p.toNat := by
  rcases live_treeDisk hp hi with rfl | rfl
  · exact ⟨rfl, by rw [dinodeAt_treeDisk hp hi.1, if_pos rfl]⟩
  · rw [dinodeAt_treeDisk hp hi.1] at ht
    cases ht

end

theorem slot_treeState (hk : 0 < (treeState.icache k).ref) : k = 0 := by
  by_contra h
  have hblank : treeState.icache k = blankInode := Function.update_of_ne h _ (fun _ => blankInode)
  rw [hblank] at hk
  exact absurd hk (by decide)

theorem inv_treeState : Inv demoEnv [0] treeState := by
  refine ⟨⟨fun p hp => vol_treeDisk hp, fun k hk => ?_,
    fun k k' hk hk' _ _ => (slot_treeState hk).trans (slot_treeState hk').symm⟩,
    fun p i hp hi ht t hlt => ?_, fun k => ?_⟩
  · obtain rfl := slot_treeState hk
    refine ⟨fun p hp => ?_, fun _ => ⟨0, rfl, ?_, by decide⟩⟩
    · obtain rfl : 0 = p := Option.some.inj hp
      exact ⟨by decide, by decide⟩
    · exact (dinodeAt_treeDisk (p := 0) (i := 1) (by decide) (by decide)).symm
  · obtain ⟨rfl, hd⟩ := dir_treeDisk hp hi ht
    rw [show dinodeAt demoEnv treeState.disk p 1 = treeRoot p.toNat from hd] at hlt
    have h48 : 16 * t + 16 ≤ 48 := hlt
    rw [entries_treeState hp t (by omega)]
    split <;> decide
  · by_cases hk : k = 0
    · rw [hk]; decide
    · rw [List.count_eq_zero.2 (by simp [hk])]
      have hblank : treeState.icache k = blankInode :=
        Function.update_of_ne hk _ (fun _ => blankInode)
      rw [hblank]
      decide

end Os4.Fs
