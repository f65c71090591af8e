import Os4.Mkfs.Image
import Os4.Fs.Content
/-!
# What mkfs appends to a partition (mkfs.c:207-280)

Blocks are handed out one after another from `offset + nmeta` on, so at any time the blocks in use
are the first `used` of the data area. `Own` says that they belong to the inodes, each to one place;
`Busy` adds the counters and the superblock that a partition is filled with. A file has exactly the
blocks that its size needs (`Exact`), so `blocksOf` of the size is what it costs.

The effect of the loop of `iappend` is `Appended`, which composes block by block.
-/
namespace Os4.Fs.Mkfs

open Prog
open Function (update_of_ne update_self update_apply update)

/-- The inode blocks have room for more than `NINODES` inodes. -/
abbrev nslots : Nat := ninodeblocks * IPB

/-- Inode `i` of the partition at `o`. -/
def slot (o : Nat) (disk : Disk) (i : Nat) : Dinode := getDinode (disk (o + 31 + i / IPB)) (i % IPB)

/-- What an area of the partition at `o` consists of. -/
def Area.Inside (o : Nat) : Area → Nat → Prop
  | .whole, b => o ≤ b ∧ b < o + FSSIZE
  | .superblock, b => b = o
  | .inodes, b => o + 1 + nlog ≤ b ∧ b < o + 1 + nlog + ninodeblocks
  | .bitmap, b => b = o + 1 + nlog + ninodeblocks
  | .data, b => o + nmeta ≤ b ∧ b < o + FSSIZE

instance (o : Nat) (a : Area) (b : Nat) : Decidable (a.Inside o b) := by
  cases a <;> unfold Area.Inside <;> infer_instance

variable {o used i i' fbn bn off n e a : Nat} {disk disk' : Disk} {T T' : Nat → Dinode}
  {d d' : Dinode} {l l' : Loc}
  {st st' : State} {P : Write → Prop} {F : Stop → Prop} {x : Block} {src : List UInt8} {area : Area}

theorem inside_data : Area.data.Inside o n ↔ o + 58 ≤ n ∧ n < o + 1000 := Iff.rfl

theorem inside_inodes : Area.inodes.Inside o n ↔ o + 31 ≤ n ∧ n < o + 57 := Iff.rfl

/-! ## Sectors -/

theorem pos_of_lt (h : n < 2 ^ 23) : pos n = n := by
  simp only [pos, BSIZE]; omega

/-- The state after sector `b` was written. -/
def State.put (st : State) (a : Area) (b : Nat) (x : Block) : State :=
  { st with
    disk := Function.update st.disk b x
    len := max st.len (b + 1)
    writes := st.writes ++ [⟨st.phase, a, b⟩] }

@[simp] theorem wp_wsect {Q : Unit → State → Prop} :
    (wsect area n x).wp Q F st ↔ Q () (st.put area (pos n) x) := Iff.rfl

theorem wp_rsect {Q : Block → State → Prop} :
    (rsect n).wp Q F st ↔ (pos n < st.len → Q (st.disk (pos n)) st) ∧
    (st.len ≤ pos n → F .failed) := by
  simp only [rsect, wp_bind, wp_get, wp_ite, wp_pure, wp_throw, Nat.not_lt]

@[simp] theorem wp_nextBlock {Q : Nat → State → Prop} :
    nextBlock.wp Q F st ↔ Q st.freeblock { st with freeblock := st.freeblock + 1 } := Iff.rfl

/-! ## Places -/

variable {j : Fin (NDIRECT + 1)}

/-- The block numbers of the inodes of a partition. -/
def ptrs (disk : Disk) (T : Nat → Dinode) (x : Nat × Loc) : Nat :=
  if x.1 < nslots then (T x.1).block disk x.2 else 0

/-- The first `used` data blocks are in use, the others are as they were zeroed. -/
structure Own (o : Nat) (disk : Disk) (T : Nat → Dinode) (used : Nat) : Prop where
  own : Owned (fun j => decide (j < used)) (o + 58) used (ptrs disk T)
  fresh : ∀ b, o + 58 + used ≤ b → b < o + 1000 → disk b = Bytes.zero

theorem ptrs_slot (h : i < nslots) : ptrs disk T (i, l) = (T i).block disk l := if_pos h

namespace Own

variable (hO : Own o disk T used)
include hO

theorem spread : Spread (· < nslots) (o + 58) (o + 58 + used) disk T :=
  spread_of_owned hO.own ptrs_slot

section

variable (hi : i < nslots)
include hi

theorem place (hz : (T i).block disk l = 0)
    (hptr : ∀ y, ptrs disk' T' y = update (ptrs disk T) (i, l) (o + 58 + used) y)
    (hfresh : ∀ b, o + 58 + used < b → b < o + 1000 → disk' b = disk b) :
    Own o disk' T' (used + 1) where
  own := by
    refine ((hO.own.mono (Nat.le_succ used)).alloc (k := (i, l)) (by omega)
      (Nat.lt_succ_self used) (by simp)
      (by rw [ptrs_slot hi]; exact hz) fun j => rfl).congr (fun j => ?_) hptr
    rw [← Bool.decide_or]
    exact decide_eq_decide.2 (by omega)
  fresh b h1 h2 := by rw [hfresh b (by omega) h2]; exact hO.fresh b (by omega) h2

end

theorem ptrs_setAddr (hu : used < 942) (hi : i < nslots) (hz : (T i).addrs j = 0) (y : Nat × Loc) :
    ptrs disk (setAddr T i j (o + 58 + used)) y =
      update (ptrs disk T) (i, .addr j) (o + 58 + used) y := by
  obtain ⟨i', l⟩ := y
  by_cases hii : i' = i
  · subst hii
    rw [ptrs_slot hi, setAddr, update_self, block_setAddr fun hj => ?_, update_apply, ptrs_slot hi]
    · simp only [Prod.mk.injEq, true_and]
    · subst hj
      exact ⟨hz, hO.fresh _ (by omega) (by omega)⟩
  · rw [update_of_ne (by simp [hii]), ptrs, ptrs, setAddr, update_of_ne hii]

theorem setAddr (hu : used < 942) (hi : i < nslots) (hz : (T i).addrs j = 0) :
    Own o disk (Fs.setAddr T i j (o + 58 + used)) (used + 1) :=
  hO.place (l := .addr j) hi hz (hO.ptrs_setAddr hu hi hz) fun _ _ _ => rfl

theorem ptrs_putLE {e : Fin NINDIRECT} (ho : o + 1000 ≤ 2 ^ 32) (hu : used < 942) (hi : i < nslots)
    (ha : (T i).indirect ≠ 0) (y : Nat × Loc) :
    ptrs (update disk (T i).indirect
      ((disk (T i).indirect).putLE (4 * e.1) 4 (o + 58 + used))) T y =
      update (ptrs disk T) (i, .ind e) (o + 58 + used) y := by
  obtain ⟨i', l⟩ := y
  by_cases hii : i' = i
  · subst hii
    rw [ptrs_slot hi, block_putLE ha (by omega), update_apply, ptrs_slot hi]
    simp only [Prod.mk.injEq, true_and]
  · rw [update_of_ne (by simp [hii]), ptrs, ptrs]
    split
    · exact block_congr fun h =>
        update_of_ne (fun heq => hii (hO.spread.indirect_inj ‹_› hi h heq)) ..
    · rfl

theorem putLE {e : Fin NINDIRECT} (ho : o + 1000 ≤ 2 ^ 32) (hu : used < 942) (hi : i < nslots)
    (ha : (T i).indirect ≠ 0) (hz : (T i).block disk (.ind e) = 0) :
    Own o (update disk (T i).indirect ((disk (T i).indirect).putLE (4 * e.1) 4 (o + 58 + used)))
      T (used + 1) := by
  have hr := hO.spread.indirect_range hi ha
  exact hO.place (l := .ind e) hi hz (hO.ptrs_putLE ho hu hi ha) fun b h1 _ =>
    update_of_ne (by omega) ..

theorem congr (hind : ∀ i, i < nslots → (T i).indirect ≠ 0 → disk' (T i).indirect =
    disk (T i).indirect)
    (hfresh : ∀ b, o + 58 + used ≤ b → b < o + 1000 → disk' b = disk b) : Own o disk' T used where
  own := hO.own.congr (fun _ => rfl) fun y => by
    unfold ptrs
    split
    · exact block_congr (hind y.1 ‹_›)
    · rfl
  fresh b h1 h2 := by rw [hfresh b h1 h2]; exact hO.fresh b h1 h2

theorem write (hi : i < nslots) (h : (T i).fileBlock disk bn ≠ 0) (x : Block) :
    Own o (update disk ((T i).fileBlock disk bn) x) T used := by
  have hr := hO.spread.fileBlock_range hi h
  exact hO.congr (fun i' hi' _ => update_of_ne (hO.spread.fileBlock_ne_indirect hi hi' h).symm ..)
    fun b h1 _ => update_of_ne (by omega) ..

end Own

/-! ## A partition being filled -/

/-- `T` is the inode table, of which the inode at work may be ahead of the disk. Whatever is written
to its own area meets `P`. -/
structure Busy (o : Nat) (P : Write → Prop) (st : State) (T : Nat → Dinode) (used : Nat) :
    Prop where
  own : Own o st.disk T used
  le : used ≤ 942
  freeblock : st.freeblock = o + 58 + used
  len : st.len = o + 1000
  bound : o + 1000 ≤ 2 ^ 23
  inodestart : st.sb.inodestart = o + 31
  inRange : ∀ i, i < nslots → (T i).InRange
  writes : ∀ w ∈ st.writes, P w
  may : ∀ (a : Area) b, a.Inside o b → P ⟨st.phase, a, b⟩

/-- The data area and the counter of blocks are all that changed. -/
structure Kept (o : Nat) (st st' : State) : Prop where
  disk : ∀ b, b < o + 58 ∨ o + 1000 ≤ b → st'.disk b = st.disk b
  sb : st'.sb = st.sb
  freeinode : st'.freeinode = st.freeinode
  phase : st'.phase = st.phase

theorem Kept.refl (o : Nat) (st : State) : Kept o st st := ⟨fun _ _ => rfl, rfl, rfl, rfl⟩

variable {st1 : State}

theorem Kept.trans {st2 st3 : State} (h : Kept o st1 st2) (h' : Kept o st2 st3) : Kept o st1 st3 :=
  ⟨fun b hb => (h'.disk b hb).trans (h.disk b hb), h'.sb.trans h.sb, h'.freeinode.trans h.freeinode,
    h'.phase.trans h.phase⟩

theorem kept_put {b : Nat} (h : Area.data.Inside o b) : Kept o st (st.put area b x) := by
  rw [inside_data] at h
  exact ⟨fun b' hb' => update_of_ne (by omega) .., rfl, rfl, rfl⟩

theorem Busy.pos (hB : Busy o P st T used) (hn : n < o + 1000) : pos n = n :=
  pos_of_lt (Nat.lt_of_lt_of_le hn hB.bound)

theorem Busy.rsect (hB : Busy o P st T used) (hn : n < o + 1000) {Q : Block → State → Prop} :
    (Mkfs.rsect n).wp Q F st ↔ Q (st.disk n) st := by
  rw [wp_rsect, hB.pos hn, hB.len]
  exact ⟨fun h => h.1 hn, fun h => ⟨fun _ => h, fun h' => absurd hn (Nat.not_lt.2 h')⟩⟩

theorem Busy.put (hB : Busy o P st T used) {b : Nat} (ha : area.Inside o b) (hb : b < o + 1000)
    (hO : Own o (update st.disk b x) T used) : Busy o P (st.put area b x) T used where
  own := hO
  le := hB.le
  freeblock := hB.freeblock
  len := by show max st.len (b + 1) = _; rw [hB.len]; omega
  bound := hB.bound
  inodestart := hB.inodestart
  inRange := hB.inRange
  writes w hw := by
    rcases List.mem_append.1 hw with hw | hw
    · exact hB.writes w hw
    · rw [List.mem_singleton.1 hw]
      exact hB.may area b ha
  may := hB.may

theorem inRange_setAddr (h : d.InRange) (ha : a < 2 ^ 32) : (d.setAddr j a).InRange := by
  refine ⟨h.type, h.major, h.minor, h.nlink, h.size, fun j' => ?_⟩
  rw [Dinode.setAddr_addrs]
  by_cases hj : j' = j
  · rw [hj, update_self]; exact ha
  · rw [update_of_ne hj]; exact h.addrs j'

/-! ## The block to append to -/

/-- `x` is block `fbn` of inode `i`, and the other blocks of files are where they were. -/
structure Found (o : Nat) (P : Write → Prop) (i fbn : Nat) (st : State) (T : Nat → Dinode)
    (used : Nat) (x : Nat) (st' : State) (T' : Nat → Dinode) : Prop where
  busy : Busy o P st' T' (used + (T i).cost st.disk fbn)
  kept : Kept o st st'
  table : ∀ i', i' ≠ i → T' i' = T i'
  addrs : T' i = { T i with addrs := (T' i).addrs }
  block : ∀ i' bn, i' < nslots →
    (T' i').fileBlock st'.disk bn = if i' = i ∧ bn = fbn then x else (T i').fileBlock st.disk bn
  indirect : (T' i).indirect ≠ 0 ↔ (T i).indirect ≠ 0 ∨ NDIRECT ≤ fbn
  pos : x ≠ 0
  stay : (T i).fileBlock st.disk fbn ≠ 0 → x = (T i).fileBlock st.disk fbn
  same : ∀ i' bn, i' < nslots → (T i').fileBlock st.disk bn ≠ 0 →
    st'.disk ((T i').fileBlock st.disk bn) = st.disk ((T i').fileBlock st.disk bn)

/-- One block was put at place `l`. -/
structure Placed (o : Nat) (P : Write → Prop) (i : Nat) (l : Loc) (st : State) (T : Nat → Dinode)
    (used : Nat) (st' : State) (T' : Nat → Dinode) : Prop where
  busy : Busy o P st' T' (used + 1)
  kept : Kept o st st'
  table : ∀ i', i' ≠ i → T' i' = T i'
  addrs : T' i = { T i with addrs := (T' i).addrs }
  ptrs : ∀ y, ptrs st'.disk T' y = Function.update (ptrs st.disk T) (i, l) (o + 58 + used) y
  same : ∀ i' bn, i' < nslots → (T i').fileBlock st.disk bn ≠ 0 →
    st'.disk ((T i').fileBlock st.disk bn) = st.disk ((T i').fileBlock st.disk bn)

variable {T1 : Nat → Dinode}

namespace Placed

variable (hP : Placed o P i l st T used st' T')
include hP

theorem block (hi' : i' < nslots) : (T' i').block st'.disk l' =
    if i' = i ∧ l' = l then o + 58 + used else (T i').block st.disk l' := by
  rw [← ptrs_slot hi', hP.ptrs, update_apply, ptrs_slot hi']
  simp only [Prod.mk.injEq]

theorem fileBlock (hl : fileLoc bn = some l') (hi' : i' < nslots) :
    (T' i').fileBlock st'.disk bn = if i' = i ∧ l' = l then o + 58 + used
    else (T i').fileBlock st.disk bn := by
  rw [fileBlock_of_loc hl, hP.block hi', fileBlock_of_loc hl]

theorem fileBlock_indirect (hl : l = .addr (Fin.last NDIRECT)) (hi' : i' < nslots) :
    (T' i').fileBlock st'.disk bn = (T i').fileBlock st.disk bn := by
  cases hloc : fileLoc bn with
  | none => simp [Dinode.fileBlock, hloc]
  | some l' =>
    rw [hP.fileBlock hloc hi', if_neg]
    rintro ⟨-, rfl⟩
    exact fileLoc_ne_indirect (hloc.trans (by rw [hl]))

theorem indirect (hi : i < nslots) : (T' i).indirect =
    if l = .addr (Fin.last NDIRECT) then o + 58 + used else (T i).indirect := by
  have h : (T' i).block st'.disk (.addr (Fin.last NDIRECT)) = _ := hP.block hi
  simp only [true_and, eq_comm (b := l)] at h
  exact h

theorem found (hi : i < nslots) (hl : fileLoc fbn = some l) (h0 : (T i).fileBlock st.disk fbn = 0)
    (hind : NDIRECT ≤ fbn → (T i).indirect ≠ 0) :
    Found o P i fbn st T used (o + 58 + used) st' T' where
  busy := by
    have hcost : (T i).cost st.disk fbn = 1 := by
      rw [Dinode.cost, if_pos h0, if_neg fun h => hind h.1 h.2]
    rw [hcost]
    exact hP.busy
  kept := hP.kept
  table := hP.table
  addrs := hP.addrs
  block i' bn hi' := by
    cases hloc : fileLoc bn with
    | none =>
      rw [if_neg]
      · simp [Dinode.fileBlock, hloc]
      · rintro ⟨-, rfl⟩
        rw [hl] at hloc
        cases hloc
    | some l' =>
      rw [hP.fileBlock hloc hi']
      have : l' = l ↔ bn = fbn :=
        ⟨fun h => fileLoc_inj hloc (by rw [h]; exact hl),
          fun h => Option.some.inj (hloc.symm.trans (by rw [h]; exact hl))⟩
      simp only [this]
  indirect := by
    rw [hP.indirect hi, if_neg fun h => fileLoc_ne_indirect (hl.trans (by rw [h]))]
    exact ⟨.inl, fun h => h.elim id hind⟩
  pos := by omega
  stay h := absurd h0 h
  same := hP.same

omit hP in
theorem found_indirect (hA : Placed o P i (.addr (Fin.last NDIRECT)) st T used st1 T1)
    (hP : Placed o P i l st1 T1 (used + 1) st' T') (hi : i < nslots) (hl : fileLoc fbn = some l)
    (hfbn : NDIRECT ≤ fbn) (h0 : (T i).fileBlock st.disk fbn = 0) (ha : (T i).indirect = 0) :
    Found o P i fbn st T used (o + 58 + (used + 1)) st' T' := by
  have hblock : ∀ i' bn, i' < nslots → (T1 i').fileBlock st1.disk bn =
      (T i').fileBlock st.disk bn := fun i' bn hi' =>
    hA.fileBlock_indirect rfl hi'
  have hind : (T1 i).indirect ≠ 0 := by rw [hA.indirect hi, if_pos rfl]; omega
  have h0' : (T1 i).fileBlock st1.disk fbn = 0 := (hblock i fbn hi).trans h0
  have hF := hP.found hi hl h0' fun _ => hind
  have hcost : (T i).cost st.disk fbn = 2 := by rw [Dinode.cost, if_pos h0, if_pos ⟨hfbn, ha⟩]
  refine ⟨?_, hA.kept.trans hF.kept, fun i' h => (hF.table i' h).trans (hA.table i' h), ?_,
    fun i' bn hi' => ?_, ?_, hF.pos, fun h => absurd h0 h, fun i' bn hi' h => ?_⟩
  · rw [hcost]
    exact hP.busy
  · rw [hF.addrs, hA.addrs]
  · rw [hF.block i' bn hi', hblock i' bn hi']
  · rw [hF.indirect]
    simp [hfbn]
  · rw [← hblock i' bn hi'] at h ⊢
    rw [hF.same i' bn hi' h, hblock i' bn hi']
    rw [hblock i' bn hi'] at h
    exact hA.same i' bn hi' h

end Placed

section

variable (hB : Busy o P st T used)
include hB

theorem Busy.placeAddr (hu : used < 942) (hi : i < nslots)
    (hz : (T i).addrs j = 0) :
    Placed o P i (.addr j) st T used { st with freeblock := st.freeblock + 1 }
      (Fs.setAddr T i j st.freeblock) := by
  have hbound := hB.bound
  rw [hB.freeblock]
  refine ⟨⟨hB.own.setAddr hu hi hz, hu, rfl, hB.len, hB.bound, hB.inodestart, fun i' hi' => ?_,
    hB.writes, hB.may⟩,
    ⟨fun _ _ => rfl, rfl, rfl, rfl⟩, fun i' h => update_of_ne h .., ?_,
    hB.own.ptrs_setAddr hu hi hz, fun _ _ _ _ => rfl⟩
  · unfold Fs.setAddr
    by_cases h : i' = i
    · rw [h, update_self]
      exact inRange_setAddr (hB.inRange i hi) (by omega)
    · rw [update_of_ne h]
      exact hB.inRange i' hi'
  · rw [Fs.setAddr, update_self]
    rfl

theorem Busy.placeEntry {e : Fin NINDIRECT} (hu : used < 942) (hi : i < nslots)
    (ha : (T i).indirect ≠ 0) (hz : (T i).block st.disk (.ind e) = 0) :
    Placed o P i (.ind e) st T used (State.put { st with freeblock := st.freeblock + 1 }
      .data (T i).indirect
      ((st.disk (T i).indirect).putLE (4 * e.1) 4 st.freeblock)) T := by
  have hbound := hB.bound
  have hr := hB.own.spread.indirect_range hi ha
  rw [hB.freeblock]
  refine ⟨⟨hB.own.putLE (by omega) hu hi ha hz, hu, rfl, ?_, hB.bound, hB.inodestart, hB.inRange,
    fun w hw => ?_, hB.may⟩,
    ⟨fun b hb => update_of_ne (by omega) .., rfl, rfl, rfl⟩, fun _ _ => rfl, rfl,
    hB.own.ptrs_putLE (by omega) hu hi ha, fun i' bn hi' h => ?_⟩
  · show max st.len _ = _
    rw [hB.len]
    omega
  · rcases List.mem_append.1 hw with hw | hw
    · exact hB.writes w hw
    · rw [List.mem_singleton.1 hw]
      exact hB.may .data _ (inside_data.2 (by omega))
  · exact update_of_ne (hB.own.spread.fileBlock_ne_indirect hi' hi h) ..

/-- Without room the next block is past the end of the partition. -/
theorem entryFor_wp {e : Fin NINDIRECT} (hi : i < nslots) (ha : (T i).indirect ≠ 0)
    {Q : Nat → State → Prop} (hthere : (T i).block st.disk (.ind e) ≠ 0 →
      Q ((T i).block st.disk (.ind e)) st)
    (hnew : ∀ st', (T i).block st.disk (.ind e) = 0 → used < 942 →
      Placed o P i (.ind e) st T used st' T → Q (o + 58 + used) st')
    (hfull : ∀ st', (T i).block st.disk (.ind e) = 0 → used = 942 → st'.len = o + 1000 →
      Q (o + 1000) st') :
    (entryFor (T i).indirect e.1).wp Q F st := by
  have hr := hB.own.spread.indirect_range hi ha
  have hle := hB.le
  have hblock : (T i).block st.disk (.ind e) = (st.disk (T i).indirect).getLE (4 * e.1) 4 := by
    simp [Dinode.block, ha]
  unfold entryFor
  rw [wp_bind, hB.rsect (by omega), wp_ite, ← hblock]
  refine ⟨fun hz => ?_, fun hz => hthere hz⟩
  rw [wp_bind, wp_nextBlock, wp_bind, wp_wsect, wp_pure, hB.pos (by omega)]
  rcases Nat.lt_or_ge used 942 with hu | hu
  · have hP := hB.placeEntry hu hi ha hz
    rw [hB.freeblock] at *
    exact hnew _ hz hu hP
  · obtain rfl : used = 942 := by omega
    rw [hB.freeblock]
    refine hfull _ hz rfl ?_
    show max st.len _ = _
    rw [hB.len]
    omega

theorem Busy.found (h0 : (T i).fileBlock st.disk fbn ≠ 0) :
    Found o P i fbn st T used ((T i).fileBlock st.disk fbn) st T where
  busy := by
    have hcost : (T i).cost st.disk fbn = 0 := by
      rw [Dinode.cost, if_neg h0, if_neg fun h => indirect_of_fileBlock h0 h.1 h.2]
    rw [hcost]
    exact hB
  kept := Kept.refl o st
  table _ _ := rfl
  addrs := rfl
  block i' bn _ := by
    split
    · rename_i h
      rw [h.1, h.2]
    · rfl
  indirect := ⟨.inl, fun h => h.elim id (indirect_of_fileBlock h0)⟩
  pos := h0
  stay _ := rfl
  same _ _ _ _ := rfl

end

variable {Q : Dinode × Nat → State → Prop}

/-- Block `fbn` is there, or one or two new blocks are taken, until they are past the end of the
partition. -/
theorem blockFor_wp (hB : Busy o P st T used) (hi : i < nslots) (hbn : fbn < MAXFILE)
    (hgood : ∀ x st' T', Found o P i fbn st T used x st' T' → Q (T' i, x) st')
    (hfull : ∀ d' st', 942 < used + (T i).cost st.disk fbn → st'.len = o + 1000 →
      Q (d', o + 1000) st')
    (hF : 942 < used + (T i).cost st.disk fbn → o + 1000 < 2 ^ 23 ∧ F .failed) :
    (blockFor (T i) fbn).wp Q F st := by
  have hle := hB.le
  unfold blockFor
  by_cases h1 : fbn < NDIRECT
  · have hl := fileLoc_direct h1
    rw [dif_pos h1, addrFor, wp_bind, wp_ite]
    refine ⟨fun hz => ?_, fun hz => ?_⟩
    · have h0 : (T i).fileBlock st.disk fbn = 0 := by rw [fileBlock_of_loc hl]; exact hz
      rw [wp_bind, wp_nextBlock, wp_pure, wp_pure, Dinode.setAddr_addrs, update_self]
      rcases Nat.lt_or_ge used 942 with hu | hu
      · have hF := (hB.placeAddr hu hi hz).found hi hl h0 fun h => by omega
        rw [← hB.freeblock] at hF
        have hQ := hgood _ _ _ hF
        rwa [Fs.setAddr, update_self] at hQ
      · have hcost : (T i).cost st.disk fbn = 1 := by rw [Dinode.cost, if_pos h0, if_neg (by omega)]
        have hfree : st.freeblock = o + 1000 := by rw [hB.freeblock]; omega
        rw [hfree]
        exact hfull _ _ (by omega) hB.len
    · have hb : (T i).fileBlock st.disk fbn = _ := fileBlock_of_loc hl
      have h0 : (T i).fileBlock st.disk fbn ≠ 0 := by rw [hb]; exact hz
      have hQ := hgood _ _ _ (hB.found h0)
      rw [hb] at hQ
      exact hQ
  · have h2 : fbn - NDIRECT < NINDIRECT := by simp only [MAXFILE] at hbn; omega
    have hl := fileLoc_indirect h1 h2
    have hfbn : NDIRECT ≤ fbn := Nat.not_lt.1 h1
    have hb : ∀ disk, (T i).fileBlock disk fbn = _ := fun disk => fileBlock_of_loc hl
    rw [dif_neg h1, addrFor, wp_bind, wp_ite]
    refine ⟨fun ha => ?_, fun ha => ?_⟩
    · -- without an indirect block there is no entry
      have ha : (T i).indirect = 0 := ha
      have h0 : (T i).fileBlock st.disk fbn = 0 := by rw [hb]; simp [Dinode.block, ha]
      have hcost : (T i).cost st.disk fbn = 2 := by rw [Dinode.cost, if_pos h0, if_pos ⟨hfbn, ha⟩]
      rw [wp_bind, wp_nextBlock, wp_pure, wp_bind]
      rcases Nat.lt_or_ge used 942 with hu | hu
      · have hA := hB.placeAddr hu hi ha
        have hT : Fs.setAddr T i (Fin.last NDIRECT) st.freeblock i =
            (T i).setAddr (Fin.last NDIRECT) st.freeblock :=
          update_self ..
        rw [← hT]
        refine entryFor_wp (e := ⟨fbn - NDIRECT, h2⟩) hA.busy hi ?_ (fun hne => ?_)
          (fun st' hz hu' hP => ?_)
          fun st' hz hu' hlen => ?_
        · rw [hA.indirect hi, if_pos rfl]; omega
        · rw [hA.block hi, if_neg (by simp), ← hb] at hne
          exact absurd h0 hne
        · rw [wp_pure]
          exact hgood _ _ _ (Placed.found_indirect hA hP hi hl hfbn h0 ha)
        · rw [wp_pure]
          exact hfull _ _ (by omega) hlen
      · have hfree : st.freeblock = o + 1000 := by rw [hB.freeblock]; omega
        have hind : ((T i).setAddr (Fin.last NDIRECT) st.freeblock).indirect = o + 1000 := by
          rw [Dinode.indirect, Dinode.setAddr_addrs, update_self, hfree]
        obtain ⟨hbound, hfail⟩ := hF (by omega)
        rw [hind, entryFor, wp_bind, wp_rsect, pos_of_lt hbound]
        refine ⟨fun hlt => absurd hlt ?_, fun _ => hfail⟩
        rw [show _ = st.len from rfl, hB.len]
        exact Nat.lt_irrefl _
    · have ha : (T i).indirect ≠ 0 := ha
      rw [wp_pure, wp_bind]
      refine entryFor_wp (e := ⟨fbn - NDIRECT, h2⟩) hB hi ha (fun hne => ?_)
        (fun st' hz hu hP => ?_)
        fun st' hz hu hlen => ?_
      · rw [← hb, wp_pure]
        rw [← hb] at hne
        exact hgood _ _ _ (hB.found hne)
      · rw [wp_pure]
        exact hgood _ _ _ (hP.found hi hl ((hb _).trans hz) fun _ => ha)
      · have hcost : (T i).cost st.disk fbn = 1 := by
          rw [Dinode.cost, if_pos ((hb _).trans hz), if_neg fun h => ha h.2]
        rw [wp_pure]
        exact hfull _ _ (by omega) hlen

/-! ## The loop -/

/-- The file has the blocks of its first `size` bytes and no others. -/
structure Exact (disk : Disk) (d : Dinode) (size : Nat) : Prop where
  blocks : ∀ bn, d.fileBlock disk bn ≠ 0 ↔ bn * BSIZE < size
  indirect : d.indirect ≠ 0 ↔ NDIRECT * BSIZE < size

/-- How many blocks a file of `n` bytes takes, its indirect block included. -/
def blocksOf (n : Nat) : Nat := (n + BSIZE - 1) / BSIZE + if NDIRECT * BSIZE < n then 1 else 0

theorem blocksOf_mono {m : Nat} (h : m ≤ n) : blocksOf m ≤ blocksOf n := by
  unfold blocksOf
  refine Nat.add_le_add (Nat.div_le_div_right (by omega)) ?_
  split <;> split <;> omega

theorem Exact.cost (h : Exact disk d off) (hpos : 0 < n) (hfit : off % BSIZE + n ≤ BSIZE) :
    d.cost disk (off / BSIZE) + blocksOf off = blocksOf (off + n) := by
  have h0 : d.fileBlock disk (off / BSIZE) = 0 ↔ off % BSIZE = 0 := by
    rw [← not_iff_not, ← Ne, h.blocks]
    simp only [BSIZE]; omega
  have h1 : (NDIRECT ≤ off / BSIZE ∧ d.indirect = 0) ↔ off = NDIRECT * BSIZE := by
    have := not_iff_not.2 h.indirect
    rw [not_not] at this
    rw [this]
    simp only [BSIZE, NDIRECT]; omega
  simp only [Dinode.cost, blocksOf, h0, h1]
  simp only [BSIZE, NDIRECT] at *
  split <;> split <;> split <;> split <;> omega

theorem Exact.size_le (h : Exact disk d n) : n ≤ MAXFILE * BSIZE := by
  by_contra hlt
  have hnone : fileLoc MAXFILE = none := by decide
  exact (h.blocks MAXFILE).2 (by omega) (by simp [Dinode.fileBlock, hnone])

/-- `src` was appended to inode `i`, whose size was `off`. -/
structure Appended (o : Nat) (P : Write → Prop) (i off : Nat) (src : List UInt8) (st : State)
    (T : Nat → Dinode) (used : Nat) (st' : State) (T' : Nat → Dinode) (used' : Nat) : Prop where
  busy : Busy o P st' T' used'
  cost : used' + blocksOf off = used + blocksOf (off + src.length)
  kept : Kept o st st'
  table : ∀ i', i' ≠ i → T' i' = T i'
  addrs : T' i = { T i with addrs := (T' i).addrs }
  exact : Exact st'.disk (T' i) (off + src.length)
  bytes : ∀ q, q < off + src.length →
    byteAt st'.disk (T' i) q = if q < off then byteAt st.disk (T i) q else src.getD (q - off) 0
  other : ∀ i' bn, i' ≠ i → i' < nslots → (T i').fileBlock st'.disk bn =
    (T i').fileBlock st.disk bn ∧
    ((T i').fileBlock st.disk bn ≠ 0 → st'.disk ((T i').fileBlock st.disk bn) =
      st.disk ((T i').fileBlock st.disk bn))

theorem Appended.nil (hB : Busy o P st T used) (hE : Exact st.disk (T i) off) :
    Appended o P i off [] st T used st T used where
  busy := hB
  cost := rfl
  kept := Kept.refl o st
  table _ _ := rfl
  addrs := rfl
  exact := hE
  bytes q hq := by rw [if_pos (by simpa using hq)]
  other _ _ _ _ := ⟨rfl, fun _ => rfl⟩

theorem Appended.trans {src' : List UInt8} {used1 used' : Nat}
    (hA : Appended o P i off src st T used st1 T1 used1)
    (hB : Appended o P i (off + src.length) src' st1 T1 used1 st' T' used') :
    Appended o P i off (src ++ src') st T used st' T' used' where
  busy := hB.busy
  cost := by
    have h1 := hA.cost
    have h2 := hB.cost
    rw [List.length_append, ← Nat.add_assoc]
    omega
  kept := hA.kept.trans hB.kept
  table i' h := (hB.table i' h).trans (hA.table i' h)
  addrs := by rw [hB.addrs, hA.addrs]
  exact := by
    rw [List.length_append, ← Nat.add_assoc]
    exact hB.exact
  bytes q hq := by
    rw [List.length_append, ← Nat.add_assoc] at hq
    rw [hB.bytes q hq]
    by_cases h1 : q < off + src.length
    · rw [if_pos h1, hA.bytes q h1]
      by_cases h2 : q < off
      · rw [if_pos h2, if_pos h2]
      · rw [if_neg h2, if_neg h2, List.getD_append _ _ _ _ (by omega)]
    · rw [if_neg h1, if_neg (by omega), List.getD_append_right _ _ _ _ (by omega), Nat.sub_add_eq]
  other i' bn hne hi' := by
    obtain ⟨h1, h2⟩ := hA.other i' bn hne hi'
    obtain ⟨h3, h4⟩ := hB.other i' bn hne hi'
    rw [hA.table i' hne] at h3 h4
    rw [h1] at h3 h4
    exact ⟨h3, fun h => (h4 h).trans (h2 h)⟩

theorem Found.appended {y : Nat} (hF : Found o P i (off / BSIZE) st T used y st' T')
    (hE : Exact st.disk (T i) off)
    (hi : i < nslots) (hpos : 0 < src.length) (hfit : off % BSIZE + src.length ≤ BSIZE) :
    Appended o P i off src st T used (st'.put .data y ((st'.disk y).splice (off % BSIZE) src)) T'
      (used + (T i).cost st.disk (off / BSIZE)) := by
  have hy : (T' i).fileBlock st'.disk (off / BSIZE) = y := by
    rw [hF.block i _ hi, if_pos ⟨rfl, rfl⟩]
  have hy0 : (T' i).fileBlock st'.disk (off / BSIZE) ≠ 0 := hy ▸ hF.pos
  have hr := hF.busy.own.spread.fileBlock_range hi hy0
  have hle := hF.busy.le
  rw [hy] at hr
  have hin : Area.data.Inside o y := inside_data.2 (by omega)
  have hW := hF.busy.own.write hi hy0 ((st'.disk y).splice (off % BSIZE) src)
  -- the write moves no block
  have hsame : ∀ i' bn, i' < nslots → (T' i').fileBlock (update st'.disk y
      ((st'.disk y).splice (off % BSIZE) src)) bn = (T' i').fileBlock st'.disk bn :=
        fun i' bn hi' =>
    fileBlock_congr fun _ => update_of_ne
      (hy ▸ (hF.busy.own.spread.fileBlock_ne_indirect hi hi' hy0)).symm ..
  rw [hy] at hW
  refine ⟨hF.busy.put hin (by omega) hW, ?_, hF.kept.trans (kept_put hin), hF.table, hF.addrs,
    ⟨fun bn => ?_, ?_⟩, fun q hq => ?_, fun i' bn hne hi' => ?_⟩
  · have := hE.cost hpos hfit
    omega
  · show (T' i).fileBlock (update _ _ _) bn ≠ 0 ↔ _
    rw [hsame i bn hi, hF.block i bn hi]
    by_cases hbn : bn = off / BSIZE
    · rw [if_pos ⟨rfl, hbn⟩]
      refine ⟨fun _ => ?_, fun _ => hF.pos⟩
      simp only [BSIZE] at *; omega
    · rw [if_neg (by tauto), hE.blocks bn]
      simp only [BSIZE] at *; omega
  · rw [hF.indirect, hE.indirect]
    simp only [BSIZE, NDIRECT] at *; omega
  · rw [byteAt, show (st'.put .data y _).disk = update st'.disk y _ from rfl,
      hsame i _ hi, hF.block i _ hi]
    by_cases hb : q / BSIZE = off / BSIZE
    · rw [if_pos ⟨rfl, hb⟩, update_self, Bytes.get_splice _ _ _ _ (Nat.mod_lt _ (by decide))]
      by_cases hq' : q < off
      · -- the rest of the block was there
        have h0 : (T i).fileBlock st.disk (off / BSIZE) ≠ 0 :=
          (hE.blocks _).2 (by simp only [BSIZE] at *; omega)
        rw [if_neg (by simp only [BSIZE] at *; omega), if_pos hq', byteAt, hb, hF.stay h0,
          hF.same i _ hi h0]
      · rw [if_pos (by simp only [BSIZE] at *; omega), if_neg hq']
        congr 1
        simp only [BSIZE] at *; omega
    · have hq' : q < off := by simp only [BSIZE] at *; omega
      have h0 : (T i).fileBlock st.disk (q / BSIZE) ≠ 0 :=
        (hE.blocks _).2 (by simp only [BSIZE] at *; omega)
      rw [if_neg (by tauto), if_pos hq', update_of_ne, hF.same i _ hi h0, byteAt]
      intro heq
      have h1 : (T' i).fileBlock st'.disk (q / BSIZE) = (T i).fileBlock st.disk (q / BSIZE) := by
        rw [hF.block i _ hi, if_neg (by tauto)]
      exact hb (hF.busy.own.spread.fileBlock_inj hi hi (by rw [h1]; exact h0)
        (h1.trans (heq.trans hy.symm))).2
  · have h1 := hsame i' bn hi'
    rw [hF.table i' hne] at h1
    have h2 := hF.block i' bn hi'
    rw [if_neg (by tauto), hF.table i' hne] at h2
    refine ⟨h1.trans h2, fun h => ?_⟩
    rw [show (st'.put .data y _).disk = update st'.disk y _ from rfl, update_of_ne,
      hF.same i' bn hi' h]
    intro heq
    have h3 : (T' i').fileBlock st'.disk bn = (T i').fileBlock st.disk bn := by
      rw [hF.table i' hne, h2]
    exact hne (hF.busy.own.spread.fileBlock_inj hi' hi (by rw [h3]; exact h)
      (h3.trans (heq.trans hy.symm))).1

theorem iappendLoop_wp (hi : i < nslots) : ∀ {fuel off used : Nat} {src : List UInt8} {st : State}
    {T : Nat → Dinode}, src.length ≤ fuel → Busy o P st T used → Exact st.disk (T i) off →
    (off + src.length ≤ MAXFILE * BSIZE ∧ used + blocksOf (off + src.length) ≤ 942 + blocksOf off ∨
      o + 1000 < 2 ^ 23 ∧ ∀ e, F e) →
    (∀ st' T' used', Appended o P i off src st T used st' T' used' →
      Q (T' i, off + src.length) st') → (iappendLoop fuel (T i) off src).wp Q F st := by
  intro fuel
  induction fuel with
  | zero =>
    intro off used src st T hlen hB hE _ hQ
    obtain rfl : src = [] := List.length_eq_zero_iff.1 (by omega)
    exact hQ st T used (Appended.nil hB hE)
  | succ fuel ih =>
    intro off used src st T hlen hB hE hroom hQ
    unfold iappendLoop
    rw [wp_ite]
    refine ⟨fun h => ?_, fun hne => ?_⟩
    · subst h
      exact hQ st T used (Appended.nil hB hE)
    have hpos : 0 < src.length := List.length_pos_iff.2 hne
    rw [wp_ite]
    refine ⟨fun hmax => ?_, fun hmax => ?_⟩
    · -- the assertion fails only if the file gets too large
      refine (hroom.resolve_left fun h => ?_).2 .assertion
      simp only [MAXFILE, BSIZE, NDIRECT, NINDIRECT] at *
      omega
    have hn1 : min src.length ((off / BSIZE + 1) * BSIZE - off) =
        min src.length (BSIZE - off % BSIZE) := by
      simp only [BSIZE]; omega
    have hoff : off - off / BSIZE * BSIZE = off % BSIZE := by simp only [BSIZE]; omega
    rw [hn1, hoff]
    -- the bytes of this round
    have hm : (src.take (min src.length (BSIZE - off % BSIZE))).length =
        min src.length (BSIZE - off % BSIZE) := by
      rw [List.length_take]; omega
    generalize hmdef : min src.length (BSIZE - off % BSIZE) = m at *
    have hm0 : 0 < (src.take m).length := by rw [hm]; simp only [BSIZE] at *; omega
    have hfit : off % BSIZE + (src.take m).length ≤ BSIZE := by
      rw [hm]
      simp only [BSIZE] at *
      omega
    have hlens : (src.take m).length + (src.drop m).length = src.length := by
      rw [hm, List.length_drop]; omega
    have hcost := hE.cost hm0 hfit
    have hmono : blocksOf (off + (src.take m).length) ≤ blocksOf (off + src.length) :=
      blocksOf_mono (by omega)
    have hnofull : 942 < used + (T i).cost st.disk (off / BSIZE) → o + 1000 < 2 ^ 23 ∧
        F .failed := fun h => by
      obtain ⟨h1, h2⟩ := hroom.resolve_left fun h' => by omega
      exact ⟨h1, h2 _⟩
    rw [wp_bind]
    refine blockFor_wp hB hi (Nat.not_le.1 hmax) (fun y st' T' hF => ?_)
      (fun d' st' hfull hlen' => ?_) hnofull
    · have hA := hF.appended hE hi hm0 hfit
      have hy : (T' i).fileBlock st'.disk (off / BSIZE) = y := by
        rw [hF.block i _ hi, if_pos ⟨rfl, rfl⟩]
      have hy0 : (T' i).fileBlock st'.disk (off / BSIZE) ≠ 0 := by rw [hy]; exact hF.pos
      have hr := hF.busy.own.spread.fileBlock_range hi hy0
      have hle := hF.busy.le
      rw [hy] at hr
      rw [wp_bind, hF.busy.rsect (by omega), wp_bind, wp_wsect, hF.busy.pos (by omega)]
      have hE' := hA.exact
      rw [hm] at hE'
      refine ih (by rw [hm] at hlens; omega) hA.busy hE' ?_ fun st'' T'' used'' hA' => ?_
      · rw [hm] at hlens hcost
        refine hroom.imp_left fun h => ⟨by omega, ?_⟩
        rw [show off + m + (src.drop m).length = off + src.length by omega]
        omega
      · have hT := hA.trans (by rw [hm]; exact hA')
        rw [List.take_append_drop] at hT
        have := hQ st'' T'' used'' hT
        rwa [← hlens, hm, ← Nat.add_assoc] at this
    · obtain ⟨hbound, hfail⟩ := hnofull hfull
      rw [wp_bind, wp_rsect, pos_of_lt hbound, hlen']
      exact ⟨fun h => absurd h (Nat.lt_irrefl _), fun _ => hfail⟩

end Os4.Fs.Mkfs
