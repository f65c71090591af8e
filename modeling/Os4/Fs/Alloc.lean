import Os4.Fs.State
/-!
# Block allocation on an image laid out by mkfs

mkfs puts the `NPARTITIONS` partitions of `FSSIZE` blocks one after another (mkfs.c:124-142).
Relative to its first block a partition has its superblock at 0, the log at 1, the inodes at 31, the
bitmap at 57 and the data blocks from 58 to 999. Bit `k` of the bitmap stands for data block
`58 + k`, but `balloc` looks at all bits below `sb.size = 1000`, of which only the first
`sb.nblocks = 942` have a block in the partition. When that matters says **`balloc_inside_iff`**.
-/
namespace Os4.Fs

open Prog (wp_bind wp_ok)

def IsPart (p : Int) : Prop := 0 ≤ p ∧ p < NPARTITIONS

instance (p : Int) : Decidable (IsPart p) := inferInstanceAs (Decidable (_ ∧ _))

/-- The partition table mkfs writes; block 0 is the MBR and the kernel comes before `first`. A block
number goes to the disk in 28 bits (ide.c:88-91). -/
structure Laid (E : Env) (first : Nat) : Prop where
  pos : 0 < first
  offset : ∀ p, IsPart p → E.offset p = first + FSSIZE * p.toNat
  bound : first + FSSIZE * NPARTITIONS ≤ 2 ^ 28

/-- `b` is a data block of partition `p`: `offset + nmeta .. offset + size - 1`. -/
def InData (E : Env) (p : Int) (b : Nat) : Prop :=
  E.offset p + Mkfs.nmeta ≤ b ∧ b < E.offset p + FSSIZE

instance (E : Env) (p : Int) (b : Nat) : Decidable (InData E p b) :=
  inferInstanceAs (Decidable (_ ∧ _))

/-- The superblocks are those mkfs wrote. -/
def SbOk (E : Env) (d : Disk) : Prop :=
  ∀ p, IsPart p → getSuperblock (d (E.offset p)) = Mkfs.superblock

/-- The bitmap block of partition `p`. -/
abbrev bmBlock (E : Env) (p : Int) : Nat := E.offset p + 57

/-- The superblock of partition `p` as `readsb` returns it. -/
def sbAt (off : Nat) : Superblock :=
  { Mkfs.superblock with
    logstart := Mkfs.superblock.logstart + off
    inodestart := Mkfs.superblock.inodestart + off
    bmapstart := Mkfs.superblock.bmapstart + off }

variable {E : Env} {first : Nat} {s s' : FsState} {p : Int}

theorem Laid.off_lt (h : Laid E first) (hp : IsPart p) : E.offset p + 1000 ≤ 2 ^ 28 := by
  have h1 := h.offset p hp
  have h2 := h.bound
  obtain ⟨h3, h4⟩ := hp
  simp only [FSSIZE, NPARTITIONS] at *
  omega

theorem Laid.disjoint (h : Laid E first) {q : Int} (hp : IsPart p) (hq : IsPart q) (hpq : p ≠ q) :
    E.offset p + 1000 ≤ E.offset q ∨ E.offset q + 1000 ≤ E.offset p := by
  have h1 := h.offset p hp
  have h2 := h.offset q hq
  obtain ⟨h3, h4⟩ := hp
  obtain ⟨h5, h6⟩ := hq
  simp only [FSSIZE, NPARTITIONS] at *
  omega

variable {b : Nat}

theorem inData_iff : InData E p b ↔ E.offset p + 58 ≤ b ∧ b < E.offset p + 1000 := Iff.rfl

/-! ## One call -/

/-- Block `b` changed to `x` and logged. -/
def FsState.put (s : FsState) (b : Nat) (x : Block) : FsState :=
  { s with disk := Function.update s.disk b x, logged := addLogged b s.logged }

@[simp] theorem put_disk (s : FsState) (b : Nat) (x : Block) :
    (s.put b x).disk = Function.update s.disk b x := rfl

@[simp] theorem put_outstanding (s : FsState) (b : Nat) (x : Block) :
    (s.put b x).outstanding = s.outstanding := rfl

variable {Q : Unit → FsState → Prop} {R : Nat → FsState → Prop} {F : Panic → Prop}

@[simp] theorem wp_bread (b : Nat) {T : Block → FsState → Prop} :
    (bread b).wp T F s ↔ T (s.disk b) s := Iff.rfl

theorem wp_logWrite (b : Nat) (x : Block) :
    (logWrite b x).wp Q F s ↔ (0 < s.outstanding → Q () (s.put b x)) ∧
    (s.outstanding = 0 → F .logOutside) := by
  simp only [logWrite, wp_bind, Prog.wp_get, Prog.wp_ite, Prog.wp_throw, Prog.wp_set, FsState.put]
  by_cases h : s.outstanding = 0
  · simp [h]
  · simp [h, Nat.pos_of_ne_zero h]

theorem readsb_wp (hs : getSuperblock (s.disk (E.offset p)) = Mkfs.superblock)
    {T : Superblock → FsState → Prop}
    (h : T (sbAt (E.offset p)) s) : (readsb E (some p)).wp T F s := by
  simp only [readsb, partOffset, wp_bind, Prog.wp_pure, wp_bread]
  rw [hs]
  exact h

variable {x : Block}

theorem clearFrom_some : ∀ {n bi k : Nat}, clearFrom x n bi = some k →
    bi ≤ k ∧ k < bi + n ∧ x.bit k = false ∧ ∀ j, bi ≤ j → j < k → x.bit j = true
  | 0, bi, k, h => by simp [clearFrom] at h
  | n + 1, bi, k, h => by
    rw [clearFrom] at h
    cases hb : x.bit bi with
    | false =>
      rw [hb] at h
      cases h
      exact ⟨Nat.le_refl _, by omega, hb, fun j h1 h2 => by omega⟩
    | true =>
      rw [hb] at h
      obtain ⟨h1, h2, h3, h4⟩ := clearFrom_some (show clearFrom x n (bi + 1) = some k from h)
      refine ⟨by omega, by omega, h3, fun j hj hjk => ?_⟩
      by_cases hji : j = bi
      · rw [hji]; exact hb
      · exact h4 j (by omega) hjk

theorem clearFrom_none : ∀ {n bi : Nat}, clearFrom x n bi = none → ∀ j, bi ≤ j →
    j < bi + n → x.bit j = true
  | 0, bi, _, j, h1, h2 => by omega
  | n + 1, bi, h, j, h1, h2 => by
    rw [clearFrom] at h
    cases hb : x.bit bi with
    | false => rw [hb] at h; simp at h
    | true =>
      rw [hb] at h
      by_cases hji : j = bi
      · rw [hji]; exact hb
      · exact clearFrom_none (show clearFrom x n (bi + 1) = none from h) j (by omega) (by omega)

theorem clearBelow_some {n k : Nat} (h : clearBelow x n = some k) :
    k < n ∧ x.bit k = false ∧ ∀ j, j < k → x.bit j = true := by
  obtain ⟨-, h2, h3, h4⟩ := clearFrom_some h
  exact ⟨by omega, h3, fun j hj => h4 j (Nat.zero_le _) hj⟩

theorem clearBelow_none {n : Nat} (h : clearBelow x n = none) : ∀ j, j < n → x.bit j = true :=
  fun j hj => clearFrom_none h j (Nat.zero_le _) (by omega)

/-- What `balloc` leaves after it found bit `k`. -/
def FsState.alloced (s : FsState) (E : Env) (p : Int) (k : Nat) : FsState :=
  (s.put (bmBlock E p) ((s.disk (bmBlock E p)).setBit k)).put (E.offset p + 58 + k) Bytes.zero

theorem balloc_wp (hs : getSuperblock (s.disk (E.offset p)) = Mkfs.superblock) {n : Nat}
    (hn : E.scan (sbAt (E.offset p)) = n) (hpos : 0 < n) (hle : n ≤ 1000)
    (hsome : ∀ k, clearBelow (s.disk (bmBlock E p)) n = some k → 0 < s.outstanding →
      R (E.offset p + 58 + k) (s.alloced E p k))
    (hnone : clearBelow (s.disk (bmBlock E p)) n = none → F .ballocOut)
    (hout : s.outstanding = 0 → F .logOutside) : (balloc E (some p)).wp R F s := by
  unfold balloc
  rw [wp_bind]
  refine readsb_wp hs ?_
  have hlist : (List.range ((E.scan (sbAt (E.offset p)) + BPB - 1) / BPB)).map (· * BPB) = [0] := by
    have : (E.scan (sbAt (E.offset p)) + BPB - 1) / BPB = 1 := by
      simp only [BPB, BSIZE, hn]; omega
    rw [this]; rfl
  have hbno : 0 / BPB + (sbAt (E.offset p)).bmapstart = bmBlock E p := by
    simp only [sbAt, Nat.zero_div, Nat.zero_add, bmBlock]
    exact Nat.add_comm _ _
  have hmin : min BPB (E.scan (sbAt (E.offset p)) - 0) = n := by simp only [BPB, BSIZE, hn]; omega
  rw [hlist]
  simp only [ballocFrom, wp_bind, wp_bread, hbno, hmin]
  cases hc : clearBelow (s.disk (bmBlock E p)) n with
  | none => exact hnone hc
  | some k =>
    have hr : (sbAt (E.offset p)).bmapstart + 1 + 0 + k = E.offset p + 58 + k := by
      show 57 + E.offset p + 1 + 0 + k = _
      omega
    simp only [wp_bind, wp_logWrite, bzero, Prog.wp_pure, put_outstanding, hr]
    exact ⟨fun ho => ⟨fun _ => hsome k hc ho, fun h0 => hout h0⟩, hout⟩

/-- `bfree` of a data block of the partition clears its bit, or finds it clear. -/
theorem bfree_wp (hs : getSuperblock (s.disk (E.offset p)) = Mkfs.superblock)
    (hoff : E.offset p + 1000 ≤ 2 ^ 28) (hb : InData E p b)
    (hset : (s.disk (bmBlock E p)).bit (b - (E.offset p + 58)) = true → 0 < s.outstanding →
      Q () (s.put (bmBlock E p) ((s.disk (bmBlock E p)).clearBit (b - (E.offset p + 58)))))
    (hclear : (s.disk (bmBlock E p)).bit (b - (E.offset p + 58)) = false → F .freeingFree)
    (hout : s.outstanding = 0 → F .logOutside) : (bfree E (some p) b).wp Q F s := by
  obtain ⟨h1, h2⟩ := inData_iff.1 hb
  have hbm : (sbAt (E.offset p)).bmapstart = E.offset p + 57 := by
    show 57 + E.offset p = _
    omega
  have hidx : (b + (2 ^ 32 - ((sbAt (E.offset p)).bmapstart + 1) % 2 ^ 32)) % 2 ^ 32 =
      b - (E.offset p + 58) := by
    rw [hbm, Nat.mod_eq_of_lt (by omega : E.offset p + 57 + 1 < 2 ^ 32)]; omega
  have hbno : (b - (E.offset p + 58)) / BPB + (sbAt (E.offset p)).bmapstart = bmBlock E p := by
    rw [hbm, Nat.div_eq_of_lt (by simp only [BPB, BSIZE]; omega), Nat.zero_add]
  have hbi : (b - (E.offset p + 58)) % BPB = b - (E.offset p + 58) :=
    Nat.mod_eq_of_lt (by simp only [BPB, BSIZE]; omega)
  unfold bfree
  rw [wp_bind]
  refine readsb_wp hs ?_
  simp only [wp_bind, wp_bread, hidx, hbno, hbi]
  cases hbit : (s.disk (bmBlock E p)).bit (b - (E.offset p + 58)) with
  | false => exact hclear hbit
  | true =>
    simp only [Bool.not_true, Bool.false_eq_true, ↓reduceIte, wp_logWrite]
    exact ⟨hset hbit, hout⟩

theorem SbOk.put (hs : SbOk E s.disk) (x : Block) (hb : ∀ q, IsPart q → b ≠ E.offset q) :
    SbOk E (s.put b x).disk := by
  intro q hq
  rw [put_disk, Function.update_of_ne (Ne.symm (hb q hq))]
  exact hs q hq

theorem not_superblock (hL : Laid E first) (hp : IsPart p) (h1 : E.offset p < b)
    (h2 : b < E.offset p + 1000) :
    ∀ q, IsPart q → b ≠ E.offset q := by
  rintro q hq rfl
  by_cases hpq : p = q
  · subst hpq; omega
  · have := hL.disjoint hp hq hpq; omega

/-! ## Sequences of calls -/

inductive Call where
  | balloc (p : Int)
  | bfree (p : Int) (b : Nat)

/-- The partition exists, and what is freed is one of its data blocks. -/
def Call.Ok (E : Env) : Call → Prop
  | .balloc p => IsPart p
  | .bfree p b => IsPart p ∧ InData E p b

/-- The blocks returned, each with the partition it was asked for. -/
def runCalls (E : Env) : List Call → FsM (List (Int × Nat))
  | [] => return []
  | .balloc p :: cs => do
    let b ← balloc E (some p)
    return (p, b) :: (← runCalls E cs)
  | .bfree p b :: cs => do
    bfree E (some p) b
    runCalls E cs

/-- Some data block of partition `p` is free. -/
def HasRoom (E : Env) (d : Disk) (p : Int) : Prop :=
  ∃ k, k < Mkfs.superblock.nblocks ∧ (d (bmBlock E p)).bit k = false

/-- Every `balloc` of the sequence is called while its partition has a free data block. -/
def RoomAtCalls (E : Env) : List Call → FsState → Prop
  | [], _ => True
  | .balloc p :: cs, s =>
    HasRoom E s.disk p ∧ ∀ b s', balloc E (some p) s = .ok (b, s') → RoomAtCalls E cs s'
  | .bfree p b :: cs, s => ∀ s', bfree E (some p) b s = .ok ((), s') → RoomAtCalls E cs s'

theorem offset_code (E : Env) : E.code.offset = E.offset := rfl

/-- One `balloc` of the code: the first clear bit, which has a block in the partition exactly if one
of the first 942 bits is clear. -/
theorem balloc_code (hL : Laid E first) (hs : SbOk E s.disk) (hp : IsPart p)
    (h : balloc E.code (some p) s = .ok (b, s')) :
    (InData E p b ↔ HasRoom E s.disk p) ∧ (InData E p b → SbOk E s'.disk) := by
  have hscan : E.code.scan (sbAt (E.code.offset p)) = 1000 := rfl
  refine wp_ok (Q := fun b s' => (InData E p b ↔ HasRoom E s.disk p) ∧
    (InData E p b → SbOk E s'.disk))
    (E := fun _ => True) (balloc_wp (E := E.code) (hs p hp) hscan (by omega) (Nat.le_refl _)
      (fun k hk _ => ?_) (fun _ => trivial)
      fun _ => trivial) h
  rw [offset_code] at *
  obtain ⟨hlt, hclear, hset⟩ := clearBelow_some hk
  have hnb : Mkfs.superblock.nblocks = 942 := rfl
  refine ⟨⟨fun hd => ⟨k, ?_, hclear⟩, fun ⟨j, hj, hjc⟩ => ?_⟩, fun hd => ?_⟩
  · rw [inData_iff] at hd; omega
  · have hkj : k ≤ j := by
      by_contra hlt'
      have : (s.disk (bmBlock E p)).bit j = true := hset j (by omega)
      rw [hjc] at this
      simp at this
    rw [inData_iff]; omega
  · rw [inData_iff] at hd
    refine SbOk.put (SbOk.put hs _ ?_) _ ?_
    · exact not_superblock hL hp (by show _ < E.offset p + 57; omega)
        (by show E.offset p + 57 < _; omega)
    · exact not_superblock hL hp (by show _ < E.offset p + 58 + k; omega)
        (by show E.offset p + 58 + k < _; omega)

theorem bfree_code (hL : Laid E first) (hs : SbOk E s.disk) (hp : IsPart p) (hb : InData E p b)
    (h : bfree E.code (some p) b s = .ok ((), s')) : SbOk E s'.disk := by
  refine wp_ok (Q := fun _ s' => SbOk E s'.disk) (E := fun _ => True)
    (bfree_wp (E := E.code) (hs p hp) (hL.off_lt hp) hb (fun _ _ => ?_) (fun _ => trivial)
      fun _ => trivial) h
  exact SbOk.put hs _ (not_superblock hL hp (by show _ < E.offset p + 57; omega)
    (by show E.offset p + 57 < _; omega))

/-- **Containment.** On an image laid out by mkfs, take any sequence of `balloc` and `bfree` calls
that returns, on any partitions, where what is freed are data blocks of the partition: every block
returned is a data block of the partition it was asked for exactly when every `balloc` was called
while one of the partition's `nblocks` data blocks was free. -/
theorem balloc_inside_iff (hL : Laid E first) :
    ∀ {cs : List Call} {s s' : FsState} {rs : List (Int × Nat)},
    SbOk E s.disk → (∀ c ∈ cs, c.Ok E) → runCalls E.code cs s = .ok (rs, s') →
    ((∀ r ∈ rs, InData E r.1 r.2) ↔ RoomAtCalls E.code cs s)
  | [], s, s', rs, _, _, h => by
    cases h; simp [RoomAtCalls]
  | .balloc p :: cs, s, s', rs, hs, hok, h => by
    have hp : IsPart p := hok (.balloc p) (by simp)
    obtain ⟨b, s1, hb, h⟩ := Prog.bind_ok h
    obtain ⟨rs', s2, hrs, h⟩ := Prog.bind_ok h
    cases h
    obtain ⟨hroom, hsb⟩ := balloc_code hL hs hp hb
    have hdet : ∀ b' s1', balloc E.code (some p) s = .ok (b', s1') → s1' = s1 := by
      intro b' s1' h'; rw [hb] at h'; cases h'; rfl
    have hrest : InData E p b → ((∀ r ∈ rs', InData E r.1 r.2) ↔ RoomAtCalls E.code cs s1) :=
      fun hd =>
      balloc_inside_iff hL (hsb hd) (fun c hc => hok c (by simp [hc])) hrs
    constructor
    · intro hall
      have hd := hall (p, b) (by simp)
      refine ⟨hroom.1 hd, fun b' s1' h' => hdet b' s1' h' ▸ (hrest hd).1 fun r hr =>
        hall r (by simp [hr])⟩
    · rintro ⟨hr, hnext⟩ r hmem
      have hd := hroom.2 hr
      rcases List.mem_cons.1 hmem with rfl | hmem
      · exact hd
      · exact (hrest hd).2 (hnext b s1 hb) r hmem
  | .bfree p b :: cs, s, s', rs, hs, hok, h => by
    obtain ⟨hp, hd⟩ : IsPart p ∧ InData E p b := hok (.bfree p b) (by simp)
    obtain ⟨⟨⟩, s1, hb, h⟩ := Prog.bind_ok h
    have hrest := balloc_inside_iff hL (bfree_code hL hs hp hd hb)
      (fun c hc => hok c (by simp [hc])) h
    rw [hrest]
    constructor
    · intro hr s1' h'; rw [hb] at h'; cases h'; exact hr
    · exact fun hr => hr s1 hb

/-! ## A full partition -/

/-- The first 942 bits set. -/
def fullBitmap : Block := fun i => if i.1 < 117 then 0xFF else if i.1 = 117 then 0x3F else 0

def demoEnv : Env where
  offset p := 100 + 1000 * p.toNat
  boot := 0
  scan := Superblock.size
  devRead _ := none
  devWrite _ := none

def blankInode : Inode := ⟨0, 0, false, false, none, ⟨0, 0, 0, 0, 0, fun _ => 0⟩⟩

/-- A disk in a transaction, with nothing cached, mounted or open. -/
def idleState (d : Disk) : FsState where
  disk := d
  icache _ := blankInode
  mounts := List.replicate MOUNT_POINTS_SIZE ⟨false, List.replicate DIRSIZ 0, none, 0, none⟩
  outstanding := 1
  logged := [[]]
  ftable _ := ⟨false, 0, false, false, 0, 0, false⟩
  procs _ := none

/-- All data blocks of partition 0 are in use. -/
def fullDisk : Disk := fun b =>
  if b % 1000 = 100 then superblockBlock Mkfs.superblock
  else if b = 157 then fullBitmap else Bytes.zero

theorem laid_demoEnv : Laid demoEnv 100 where
  pos := by decide
  offset _ _ := rfl
  bound := by decide

theorem sbOk_fullDisk : SbOk demoEnv fullDisk := by
  intro p hp
  have : fullDisk (demoEnv.offset p) = superblockBlock Mkfs.superblock := by
    exact if_pos (by show (100 + 1000 * p.toNat) % 1000 = 100; omega)
  rw [this]
  decide

theorem balloc_first (hs : SbOk E s.disk) (hp : IsPart p) {k : Nat} (ho : 0 < s.outstanding)
    (hk : clearBelow (s.disk (bmBlock E p)) 1000 = some k) :
    balloc E.code (some p) s = .ok (E.offset p + 58 + k, s.alloced E p k) := by
  obtain ⟨b, s', hb, rfl, rfl⟩ := Prog.wp_total.1 (balloc_wp (E := E.code) (s := s) (n := 1000)
    (R := fun b s' => b = E.offset p + 58 + k ∧ s' = s.alloced E p k)
    (F := fun _ => False) (hs p hp) rfl (by omega)
    (Nat.le_refl _) (fun j hj _ => by
      obtain rfl := Option.some.inj (hk.symm.trans hj)
      exact ⟨rfl, rfl⟩)
    (fun hn => absurd (hk.symm.trans hn) (by simp)) (fun h0 => by omega))
  exact hb

/-- `balloc` on partition 0 returns, and zeroes, the superblock of partition 1. -/
theorem balloc_outside : SbOk demoEnv (idleState fullDisk).disk ∧
    ∃ s', runCalls demoEnv.code [.balloc 0] (idleState fullDisk) =
      .ok ([(0, demoEnv.offset 1)], s') ∧
      ¬ InData demoEnv 0 (demoEnv.offset 1) ∧ s'.disk (demoEnv.offset 1) = Bytes.zero := by
  have hbm : (idleState fullDisk).disk (bmBlock demoEnv 0) = fullBitmap := rfl
  have hb := balloc_first (E := demoEnv) (s := idleState fullDisk) (p := 0)
    (k := 942) sbOk_fullDisk (by decide)
    (by decide) (by rw [hbm]; decide +kernel)
  have hz : ((idleState fullDisk).alloced demoEnv 0 942).disk (demoEnv.offset 0 + 58 + 942) =
      Bytes.zero := by
    rw [FsState.alloced, put_disk, Function.update_self]
  refine ⟨sbOk_fullDisk, (idleState fullDisk).alloced demoEnv 0 942, ?_, by decide, hz⟩
  simp only [runCalls, bind, StateT.bind, Except.bind, hb]
  rfl

/-- On an empty partition the first data block is returned. -/
theorem balloc_inside_iff_demo : ∃ s', runCalls demoEnv.code [.balloc 1] (idleState fullDisk) =
    .ok ([(1, 1158)], s') ∧ RoomAtCalls demoEnv.code [.balloc 1] (idleState fullDisk) := by
  have hbm : (idleState fullDisk).disk (bmBlock demoEnv 1) = Bytes.zero := rfl
  have hb := balloc_first (E := demoEnv) (s := idleState fullDisk) (p := 1)
    (k := 0) sbOk_fullDisk (by decide)
    (by decide) (by rw [hbm]; decide +kernel)
  have hrun : runCalls demoEnv.code [.balloc 1] (idleState fullDisk) =
      .ok ([(1, 1158)], (idleState fullDisk).alloced demoEnv 1 0) := by
    simp only [runCalls, bind, StateT.bind, Except.bind, hb]
    rfl
  exact ⟨_, hrun, (balloc_inside_iff laid_demoEnv sbOk_fullDisk
    (fun c hc => by rw [List.mem_singleton.1 hc]; exact (by decide : IsPart 1)) hrun).1 (by decide)⟩

end Os4.Fs
