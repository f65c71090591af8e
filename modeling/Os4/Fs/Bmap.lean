import Os4.Fs.Respects
import Os4.Fs.Volume
/-!
# `bmap` on a well-formed partition (fs.c:466-496)

`Place` is what one allocation on behalf of a file does, `Bmap` what `bmap` does as a whole: nothing
if the block is there (`bmap_mapped`), else one or two such steps (`bmap_wp`).

Slot `k` holds inode `i` of partition `p`, and the table `T` is what the inodes of the partition are
now: for `i` the cached copy.
-/
namespace Os4.Fs

open Prog
open Function (update_self update_of_ne)

/-- The blocks logged so far in the section under way. -/
def FsState.curLog (s : FsState) : List Nat := s.logged.headD []

/-- Besides the disk and the log only the inode in slot `k` changed. -/
structure Touch (k : Fin NINODE) (s s' : FsState) : Prop where
  other : ∀ k', k' ≠ k → s'.icache k' = s.icache k'
  slot : s'.icache k = { s.icache k with din := (s'.icache k).din }
  framed : Framed s s'

theorem Touch.refl (k : Fin NINODE) (s : FsState) : Touch k s s :=
  ⟨fun _ _ => rfl, rfl, local_framed.refl s⟩

variable {s1 : FsState}

theorem Touch.trans {s2 s3 : FsState} (h : Touch k s1 s2) (h' : Touch k s2 s3) : Touch k s1 s3 where
  other k' hk := (h'.other k' hk).trans (h.other k' hk)
  slot := by rw [h'.slot, h.slot]
  framed := local_framed.trans _ _ _ h.framed h'.framed

/-- The state with the inode in slot `k` changed to `d`. -/
def FsState.withDin (s : FsState) (k : Fin NINODE) (d : Dinode) : FsState :=
  { s with icache := Function.update s.icache k { s.icache k with din := d } }

variable {E : Env} {p : Int} {N n : Nat} {k : Fin NINODE} {i bn : Nat} {s s' : FsState}
  {T T' : Nat → Dinode} {F : Panic → Prop} {x : Block} {b : Nat} {d : Dinode}

@[simp] theorem withDin_disk : (s.withDin k d).disk = s.disk := rfl

@[simp] theorem withDin_outstanding : (s.withDin k d).outstanding = s.outstanding := rfl

@[simp] theorem withDin_curLog : (s.withDin k d).curLog = s.curLog := rfl

@[simp] theorem withDin_self : (s.withDin k d).icache k = { s.icache k with din := d } :=
  update_self ..

@[simp] theorem put_icache : (s.put b x).icache = s.icache := rfl

@[simp] theorem put_curLog : (s.put b x).curLog = s.curLog.insert b := by
  obtain ⟨_, _, _, _, logged, _, _⟩ := s
  cases logged with
  | nil => rfl
  | cons l ls => rfl

theorem touch_put : Touch k s (s.put b x) := ⟨fun _ _ => rfl, rfl, local_framed.put s b x⟩

theorem touch_withDin : Touch k s (s.withDin k d) where
  other k' hk := update_of_ne hk ..
  slot := by rw [withDin_self]
  framed := local_framed.inode s k _

@[simp] theorem wp_inode {Q : Inode → FsState → Prop} : (inode k).wp Q F s ↔ Q (s.icache k) s :=
  Iff.rfl

@[simp] theorem wp_setDin {Q : Unit → FsState → Prop} :
    (setDin k d).wp Q F s ↔ Q () (s.withDin k d) := Iff.rfl

/-! ## Allocating -/

/-- Where an allocation takes its block from: `N` is within what `balloc` looks at, and there is a
free block, or the end of the search is an error that is allowed for. -/
structure Room (E : Env) (p : Int) (N : Nat) (disk : Disk) (F : Panic → Prop) (need : Nat) :
    Prop where
  le : N ≤ E.scan (sbAt (E.offset p))
  scan : 0 < E.scan (sbAt (E.offset p)) ∧ E.scan (sbAt (E.offset p)) ≤ 1000
  free : need ≤ clearCount (disk (bmBlock E p)).bit N ∨
    (E.scan (sbAt (E.offset p)) = N ∧ F .ballocOut)

variable {need : Nat}

theorem balloc_room (hV : Vol E p N s.disk T) (hR : Room E p N s.disk F (need + 1))
    (hout : s.outstanding = 0 → F .logOutside) {R : Nat → FsState → Prop}
    (h : ∀ m, m < N → (s.disk (bmBlock E p)).bit m = false →
      R (E.offset p + 58 + m) (s.alloced E p m)) :
    (balloc E (some p)).wp R F s := by
  refine balloc_wp hV.sb rfl hR.scan.1 hR.scan.2 (fun m hm _ => ?_) (fun hnone => ?_) hout
  · obtain ⟨hlt, hclear, hset⟩ := clearBelow_some hm
    refine h m ?_ hclear
    rcases hR.free with hfree | ⟨hN, -⟩
    · -- the first clear bit is not after one that counts
      obtain ⟨j, hj, hjc⟩ := exists_clear (Nat.lt_of_lt_of_le (Nat.succ_pos need) hfree)
      by_contra hmN
      have := hset j (by omega)
      rw [hjc] at this
      cases this
    · omega
  · rcases hR.free with hfree | ⟨-, hF⟩
    · obtain ⟨j, hj, hjc⟩ := exists_clear (Nat.lt_of_lt_of_le (Nat.succ_pos need) hfree)
      have hle := hR.le
      have := clearBelow_none hnone j (by omega)
      rw [hjc] at this
      cases this
    · exact hF

/-- Block `b`, free before, is now at place `l` of inode `i`. -/
structure Place (E : Env) (p : Int) (N : Nat) (k : Fin NINODE) (i : Nat) (l : Loc) (s : FsState)
    (T : Nat → Dinode) (b : Nat) (s' : FsState) (T' : Nat → Dinode) : Prop where
  vol : Vol E p N s'.disk T'
  touch : Touch k s s'
  din : (s'.icache k).din = T' i
  table : ∀ i', i' ≠ i → T' i' = T i'
  addrs : T' i = { T i with addrs := (T' i).addrs }
  empty : ptr s.disk T (i, l) = 0
  ptr : ∀ x, ptr s'.disk T' x = Function.update (ptr s.disk T) (i, l) b x
  fresh : ∃ m, m < N ∧ (s.disk (bmBlock E p)).bit m = false ∧ b = E.offset p + 58 + m
  disk : ∀ y, y ≠ bmBlock E p → y ≠ b → (∀ e, l = .ind e → y ≠ (T i).indirect) →
    s'.disk y = s.disk y
  room : clearCount (s'.disk (bmBlock E p)).bit N + 1 = clearCount (s.disk (bmBlock E p)).bit N
  logs : ∀ y, y ∈ s'.curLog ↔ y ∈ s.curLog ∨ y = bmBlock E p ∨ y = b ∨ ∃ e, l = .ind e ∧
    y = (T i).indirect

variable {m : Nat} {disk : Disk}

theorem clearCount_allocDisk (hN : N ≤ 1000) (hm : m < N)
    (hc : (disk (bmBlock E p)).bit m = false) :
    clearCount (allocDisk E p disk m (bmBlock E p)).bit N + 1 =
      clearCount (disk (bmBlock E p)).bit N := by
  refine clearCount_set hm hc fun j => ?_
  rw [allocDisk_bm, Bytes.bit_setBit _ _ (by simp only [BSIZE]; omega)]

variable {j : Fin (NDIRECT + 1)}

theorem place_addr (hV : Vol E p N s.disk T) (hN : N ≤ 1000)
    (hoff : E.offset p + 1000 ≤ 2 ^ 28) (hi : Live T i) (hd : (s.icache k).din = T i)
    (hz : (T i).addrs j = 0) (hm : m < N) (hc : (s.disk (bmBlock E p)).bit m = false) :
    Place E p N k i (.addr j) s T (E.offset p + 58 + m)
      ((s.alloced E p m).withDin k ((s.icache k).din.setAddr j (E.offset p + 58 + m)))
      (setAddr T i j (E.offset p + 58 + m)) where
  vol := hV.placeAddr hN hoff hi hz hm hc
  touch := (touch_put.trans touch_put).trans touch_withDin
  din := by rw [withDin_self, hd, setAddr, update_self]
  table i' h := update_of_ne h ..
  addrs := by rw [setAddr, update_self]; rfl
  empty := by rw [ptr_live hi]; exact hz
  ptr := hV.ptr_setAddr hi hz hc
  fresh := ⟨m, hm, hc, rfl⟩
  disk y h h' _ := allocDisk_of_ne h h'
  room := clearCount_allocDisk hN hm hc
  logs y := by
    rw [withDin_curLog, FsState.alloced, put_curLog, put_curLog, List.mem_insert_iff,
      List.mem_insert_iff]
    simp only [reduceCtorEq, false_and, exists_false, or_false]
    tauto

variable {e : Fin NINDIRECT}

theorem place_ind (hV : Vol E p N s.disk T) (hN : N ≤ 1000)
    (hoff : E.offset p + 1000 ≤ 2 ^ 28) (hi : Live T i) (hd : (s.icache k).din = T i)
    (ha : (T i).indirect ≠ 0)
    (hz : (T i).block s.disk (.ind e) = 0) (hm : m < N)
    (hc : (s.disk (bmBlock E p)).bit m = false) :
    Place E p N k i (.ind e) s T (E.offset p + 58 + m)
      ((s.alloced E p m).put (T i).indirect
        ((s.disk (T i).indirect).putLE (4 * e.1) 4 (E.offset p + 58 + m))) T where
  vol := hV.placeInd hN hoff hi ha hz hm hc
  touch := (touch_put.trans touch_put).trans touch_put
  din := hd
  table _ _ := rfl
  addrs := rfl
  empty := by rw [ptr_live hi]; exact hz
  ptr := hV.ptr_setInd hN hoff hi ha hm hc
  fresh := ⟨m, hm, hc, rfl⟩
  disk y h h' hind := by
    rw [put_disk, update_of_ne (hind e rfl)]
    exact allocDisk_of_ne h h'
  room := by
    have hr := hV.spread.indirect_range hi ha
    rw [put_disk, update_of_ne (by show E.offset p + 57 ≠ _; omega)]
    exact clearCount_allocDisk hN hm hc
  logs y := by
    rw [put_curLog, FsState.alloced, put_curLog, put_curLog, List.mem_insert_iff,
      List.mem_insert_iff, List.mem_insert_iff]
    simp only [Loc.ind.injEq, exists_eq_left']
    tauto

variable {Q : Nat → FsState → Prop}

theorem addrOrAlloc_wp (hV : Vol E p N s.disk T) (hN : N ≤ 1000)
    (hoff : E.offset p + 1000 ≤ 2 ^ 28) (hi : Live T i) (hk : (s.icache k).prt = some p)
    (hd : (s.icache k).din = T i) (hR : (T i).addrs j = 0 → Room E p N s.disk F (n + 1))
    (hout : s.outstanding = 0 → F .logOutside)
    (hthere : (T i).addrs j ≠ 0 → Q ((T i).addrs j) s)
    (hnew : ∀ b s' T', (T i).addrs j = 0 → b = (T' i).addrs j →
      Place E p N k i (.addr j) s T b s' T' → Q b s') :
    (addrOrAlloc E k j).wp Q F s := by
  unfold addrOrAlloc
  rw [wp_bind, wp_inode, wp_ite]
  rw [hd, hk]
  refine ⟨fun hz => ?_, fun hz => hthere hz⟩
  rw [wp_bind]
  refine balloc_room hV (hR hz) hout fun m hm hc => ?_
  rw [wp_bind, wp_setDin, wp_pure]
  have hpl := place_addr hV hN hoff hi hd hz hm hc
  refine hnew _ _ _ hz ?_ (hd ▸ hpl)
  rw [setAddr, update_self, Dinode.setAddr_addrs, update_self]

theorem entryOrAlloc_wp (hV : Vol E p N s.disk T) (hN : N ≤ 1000)
    (hoff : E.offset p + 1000 ≤ 2 ^ 28) (hi : Live T i) (hk : (s.icache k).prt = some p)
    (hd : (s.icache k).din = T i) (ha : (T i).indirect ≠ 0) (hz : (T i).block s.disk (.ind e) = 0)
    (hR : Room E p N s.disk F (n + 1)) (hout : s.outstanding = 0 → F .logOutside)
    (h : ∀ b s' T', Place E p N k i (.ind e) s T b s' T' → Q b s') :
    (entryOrAlloc E k (T i).indirect e.1).wp Q F s := by
  have hz' : (s.disk (T i).indirect).getLE (4 * e.1) 4 = 0 := by simpa [Dinode.block, ha] using hz
  unfold entryOrAlloc
  rw [wp_bind, wp_bread, if_pos hz', wp_bind, wp_inode, hk, wp_bind]
  refine balloc_room hV hR hout fun m hm hc => ?_
  rw [wp_bind, wp_logWrite]
  refine ⟨fun _ => ?_, hout⟩
  rw [wp_pure]
  exact h _ _ _ (place_ind hV hN hoff hi hd ha hz hm hc)

variable {i' : Nat}

namespace Place

variable {l : Loc} (hP : Place E p N k i l s T b s' T')
include hP

theorem live : Live T' i' ↔ Live T i' := by
  unfold Live
  by_cases h : i' = i
  · rw [h, hP.addrs]
  · rw [hP.table i' h]

theorem pos : b ≠ 0 := by
  obtain ⟨m, -, -, rfl⟩ := hP.fresh
  omega

theorem block (hi : Live T i) : (T' i).block s'.disk l = b := by
  rw [← ptr_live (hP.live.2 hi), hP.ptr, update_self]

theorem block_ne {l' : Loc} (hi : Live T i') (h : (i', l') ≠ (i, l)) :
    (T' i').block s'.disk l' = (T i').block s.disk l' := by
  rw [← ptr_live (hP.live.2 hi), hP.ptr, update_of_ne h, ptr_live hi]

theorem indirect (hi : Live T i) (h : l ≠ .addr (Fin.last NDIRECT)) :
    (T' i).indirect = (T i).indirect := by
  have hne : (i, Loc.addr (Fin.last NDIRECT)) ≠ (i, l) := fun heq => h (Prod.mk.inj heq).2.symm
  exact hP.block_ne hi hne

theorem same (hV : Vol E p N s.disk T) (hi : Live T i) (hi' : Live T i')
    (h : (T i').fileBlock s.disk bn ≠ 0) :
    (T' i').fileBlock s'.disk bn = (T i').fileBlock s.disk bn ∧
      s'.disk ((T i').fileBlock s.disk bn) = s.disk ((T i').fileBlock s.disk bn) := by
  have hr := hV.spread.fileBlock_range hi' h
  have hind := hV.spread.fileBlock_ne_indirect hi' hi h
  obtain ⟨l', hl', hb⟩ := loc_of_fileBlock h
  rw [fileBlock_of_loc hl']
  rw [hb] at hr hind h ⊢
  have hne : (i', l') ≠ (i, l) := fun heq => h (by rw [← ptr_live hi', heq]; exact hP.empty)
  refine ⟨hP.block_ne hi' hne, hP.disk _ (by show _ ≠ E.offset p + 57; omega) ?_ fun _ _ => hind⟩
  obtain ⟨m, -, hc, rfl⟩ := hP.fresh
  exact hV.ne_free hc hi'

theorem outside {y : Nat} (hV : Vol E p N s.disk T) (hi : Live T i) (hy : y ≠ bmBlock E p)
    (h : y < E.offset p + 58 ∨ E.offset p + 58 + N ≤ y) : s'.disk y = s.disk y := by
  obtain ⟨m, hm, -, hb⟩ := hP.fresh
  refine hP.disk y hy (by omega) fun e he hye => ?_
  subst he
  have ha : (T i).indirect ≠ 0 ∨ (T i).indirect = 0 := (Decidable.em _).symm
  rcases ha with ha | ha
  · have := hV.spread.indirect_range hi ha
    omega
  · -- without an indirect block there is no entry to put a block in
    have h1 := hP.block hi
    have h2 : (T' i).indirect = 0 := (hP.indirect hi (by simp)).trans ha
    simp only [Dinode.block, h2, ↓reduceIte] at h1
    exact hP.pos h1.symm

end Place

/-! ## `bmap` -/

/-- How many blocks `bmap` has to allocate for block `bn`. -/
def Dinode.cost (d : Dinode) (disk : Disk) (bn : Nat) : Nat :=
  (if d.fileBlock disk bn = 0 then 1 else 0) + if NDIRECT ≤ bn ∧ d.indirect = 0 then 1 else 0

structure Bmap (E : Env) (p : Int) (N : Nat) (k : Fin NINODE) (i bn : Nat) (s : FsState)
    (T : Nat → Dinode) (s' : FsState) (T' : Nat → Dinode) : Prop where
  vol : Vol E p N s'.disk T'
  touch : Touch k s s'
  din : (s'.icache k).din = T' i
  table : ∀ i', i' ≠ i → T' i' = T i'
  addrs : T' i = { T i with addrs := (T' i).addrs }
  mapped : (T' i).fileBlock s'.disk bn ≠ 0
  stay : (T i).fileBlock s.disk bn ≠ 0 → T' i = T i
  same : ∀ i' bn', Live T i' → (T i').fileBlock s.disk bn' ≠ 0 →
    (T' i').fileBlock s'.disk bn' = (T i').fileBlock s.disk bn' ∧
      s'.disk ((T i').fileBlock s.disk bn') = s.disk ((T i').fileBlock s.disk bn')
  zero : ∀ bn', bn' ≠ bn → (T i).fileBlock s.disk bn' = 0 → (T' i).fileBlock s'.disk bn' = 0
  indirect : (T' i).indirect = (T i).indirect ∨
    ((T i).indirect = 0 ∧ NDIRECT ≤ bn ∧ (T' i).indirect ≠ 0)
  indirect_pos : NDIRECT ≤ bn → (T' i).indirect ≠ 0
  outside : ∀ y, y ≠ bmBlock E p → y < E.offset p + 58 ∨ E.offset p + 58 + N ≤ y →
    s'.disk y = s.disk y
  room : clearCount (s'.disk (bmBlock E p)).bit N + (T i).cost s.disk bn =
    clearCount (s.disk (bmBlock E p)).bit N
  logs : ∀ y, y ∈ s'.curLog ↔ y ∈ s.curLog ∨ ((T i).fileBlock s.disk bn = 0 ∧
    (y = bmBlock E p ∨ y = (T' i).fileBlock s'.disk bn ∨ (NDIRECT ≤ bn ∧ y = (T' i).indirect)))

theorem Bmap.live (hB : Bmap E p N k i bn s T s' T') : Live T' i' ↔ Live T i' := by
  unfold Live
  by_cases h : i' = i
  · rw [h, hB.addrs]
  · rw [hB.table i' h]

theorem fileLoc_direct (h : bn < NDIRECT) : fileLoc bn = some (.addr ⟨bn, Nat.lt_succ_of_lt h⟩) :=
  dif_pos h

theorem fileLoc_indirect (h : ¬ bn < NDIRECT) (h' : bn - NDIRECT < NINDIRECT) :
    fileLoc bn = some (.ind ⟨bn - NDIRECT, h'⟩) := by rw [fileLoc, dif_neg h, dif_pos h']

theorem indirect_of_fileBlock (h : d.fileBlock disk bn ≠ 0) (hbn : NDIRECT ≤ bn) :
    d.indirect ≠ 0 := by
  obtain ⟨l, hl, hb⟩ := loc_of_fileBlock h
  rw [hb] at h
  have h1 : ¬ bn < NDIRECT := Nat.not_lt.2 hbn
  by_cases h2 : bn - NDIRECT < NINDIRECT
  · rw [fileLoc_indirect h1 h2] at hl
    obtain rfl := Option.some.inj hl
    exact fun h0 => h (by simp [Dinode.block, h0])
  · simp [fileLoc, h1, h2] at hl

/-- A block that is there is found, and nothing changes. -/
theorem bmap_mapped (hd : (s.icache k).din = d) (h : d.fileBlock s.disk bn ≠ 0) :
    (bmap E k bn).wp Q F s ↔ Q (d.fileBlock s.disk bn) s := by
  have hthere : ∀ {j : Fin (NDIRECT + 1)} {R : Nat → FsState → Prop}, d.addrs j ≠ 0 →
      ((addrOrAlloc E k j).wp R F s ↔ R (d.addrs j) s) := by
    intro j R hj
    unfold addrOrAlloc
    rw [wp_bind, wp_inode, hd, if_neg hj, wp_pure]
  unfold bmap
  by_cases h1 : bn < NDIRECT
  · rw [fileBlock_of_loc (fileLoc_direct h1)] at *
    rw [dif_pos h1]
    exact hthere h
  · rw [dif_neg h1]
    by_cases h2 : bn - NDIRECT < NINDIRECT
    · rw [fileBlock_of_loc (fileLoc_indirect h1 h2)] at *
      have ha : d.indirect ≠ 0 := fun h0 => h (by simp [Dinode.block, h0])
      simp only [Dinode.block, ha, ↓reduceIte] at h ⊢
      have haddr : d.addrs (Fin.last NDIRECT) = d.indirect := rfl
      rw [if_pos h2, wp_bind, hthere ha, haddr, entryOrAlloc, wp_bind, wp_bread, if_neg h, wp_pure]
    · exact absurd (by simp [Dinode.fileBlock, fileLoc, h1, h2]) h

theorem Room.sub {disk' : Disk} {c need' : Nat} (hR : Room E p N disk F need)
    (h : clearCount (disk' (bmBlock E p)).bit N + c = clearCount (disk (bmBlock E p)).bit N)
    (hn : need' + c ≤ need) :
    Room E p N disk' F need' :=
  ⟨hR.le, hR.scan, hR.free.imp_left fun hfree => by omega⟩

theorem Place.bmap (hP : Place E p N k i l s T b s' T') (hV : Vol E p N s.disk T) (hi : Live T i)
    (hl : fileLoc bn = some l) (hind : NDIRECT ≤ bn ↔ ∃ e, l = .ind e)
    (ha : NDIRECT ≤ bn → (T i).indirect ≠ 0) :
    b = (T' i).fileBlock s'.disk bn ∧ Bmap E p N k i bn s T s' T' := by
  have hb : (T' i).fileBlock s'.disk bn = b := by rw [fileBlock_of_loc hl]; exact hP.block hi
  have h0 : (T i).fileBlock s.disk bn = 0 := by
    rw [fileBlock_of_loc hl, ← ptr_live hi]
    exact hP.empty
  have hsame : (T' i).indirect = (T i).indirect :=
    hP.indirect hi fun h => fileLoc_ne_indirect (hl.trans (by rw [h]))
  have hmapped : (T' i).fileBlock s'.disk bn ≠ 0 := by rw [hb]; exact hP.pos
  have hpos : NDIRECT ≤ bn → (T' i).indirect ≠ 0 := by rw [hsame]; exact ha
  refine ⟨hb.symm, hP.vol, hP.touch, hP.din, hP.table, hP.addrs, hmapped, fun h => absurd h0 h,
    fun i' bn' => hP.same hV hi, ?_, .inl hsame, hpos, fun y => hP.outside hV hi, ?_, fun y => ?_⟩
  · intro bn' hne hz
    cases hl' : fileLoc bn' with
    | none => simp [Dinode.fileBlock, hl']
    | some l' =>
      rw [fileBlock_of_loc hl'] at hz ⊢
      rw [hP.block_ne hi fun h => hne (fileLoc_inj hl' (by rw [hl, (Prod.mk.inj h).2]))]
      exact hz
  · have hcost : (T i).cost s.disk bn = 1 := by
      rw [Dinode.cost, if_pos h0, if_neg fun h => ha h.1 h.2]
    rw [hcost]; exact hP.room
  · rw [hP.logs y, hb, hsame, hind]
    simp only [h0, true_and]
    constructor
    · rintro (h | h | h | ⟨e, he, hy⟩)
      · exact .inl h
      · exact .inr (.inl h)
      · exact .inr (.inr (.inl h))
      · exact .inr (.inr (.inr ⟨⟨e, he⟩, hy⟩))
    · rintro (h | h | h | ⟨⟨e, he⟩, hy⟩)
      · exact .inl h
      · exact .inr (.inl h)
      · exact .inr (.inr (.inl h))
      · exact .inr (.inr (.inr ⟨e, he, hy⟩))

/-- A new indirect block, then a block entered in it. -/
theorem Place.bmap_two {a : Nat} {T1 : Nat → Dinode}
    (hA : Place E p N k i (.addr (Fin.last NDIRECT)) s T a s1 T1)
    (hP : Place E p N k i (.ind e) s1 T1 b s' T')
    (hV : Vol E p N s.disk T) (hi : Live T i) (hl : fileLoc bn = some (.ind e))
    (hbn : NDIRECT ≤ bn) :
    b = (T' i).fileBlock s'.disk bn ∧ Bmap E p N k i bn s T s' T' := by
  have h0 : (T i).indirect = 0 := by
    have := hA.empty
    rw [ptr_live hi] at this
    exact this
  have hi1 : Live T1 i := hA.live.2 hi
  have ha : (T1 i).indirect = a := hA.block hi
  have hpos : (T1 i).indirect ≠ 0 := ha ▸ hA.pos
  have hf0 : (T i).fileBlock s.disk bn = 0 := by
    rw [fileBlock_of_loc hl]
    simp [Dinode.block, h0]
  obtain ⟨hb, hB⟩ := hP.bmap hA.vol hi1 hl ⟨fun _ => ⟨e, rfl⟩, fun _ => hbn⟩ fun _ => hpos
  have hind : (T' i).indirect = a := by
    rcases hB.indirect with h | ⟨h, -⟩
    · exact h.trans ha
    · exact absurd h hpos
  have hf1 : (T1 i).fileBlock s1.disk bn = 0 := by
    rw [fileBlock_of_loc hl, ← ptr_live hi1]
    exact hP.empty
  have hind0 : (T' i).indirect ≠ 0 := by rw [hind]; exact hA.pos
  refine ⟨hb, hB.vol, hA.touch.trans hB.touch, hB.din,
    fun i' h => (hB.table i' h).trans (hA.table i' h), ?_, hB.mapped,
    fun h => absurd hf0 h, ?_, ?_, .inr ⟨h0, hbn, hind0⟩, fun _ => hind0, ?_, ?_, fun y => ?_⟩
  · rw [hB.addrs, hA.addrs]
  · intro i' bn' hi' h
    obtain ⟨h1, h2⟩ := hA.same hV hi hi' h
    obtain ⟨h3, h4⟩ := hB.same i' bn' (hA.live.2 hi') (h1 ▸ h)
    rw [h1] at h3 h4
    exact ⟨h3, h4.trans h2⟩
  · intro bn' hne hz
    refine hB.zero bn' hne ?_
    cases hl' : fileLoc bn' with
    | none => simp [Dinode.fileBlock, hl']
    | some l' =>
      rw [fileBlock_of_loc hl'] at hz ⊢
      rw [hA.block_ne hi fun h => fileLoc_ne_indirect (hl'.trans (by rw [(Prod.mk.inj h).2]))]
      exact hz
  · exact fun y hy hout => (hB.outside y hy hout).trans (hA.outside hV hi hy hout)
  · have h1 := hA.room
    have h2 := hB.room
    have hc1 : (T1 i).cost s1.disk bn = 1 := by
      rw [Dinode.cost, if_pos hf1, if_neg fun h => hpos h.2]
    have hc : (T i).cost s.disk bn = 2 := by
      rw [Dinode.cost, if_pos hf0, if_pos ⟨hbn, h0⟩]
    omega
  · rw [hB.logs y, hA.logs y, hind, ← hb]
    simp only [hf0, hf1, hbn, reduceCtorEq, false_and, exists_false, or_false, true_and]
    tauto

/-- A block that is missing is allocated, and with it the indirect block if that is missing. -/
theorem bmap_wp (hV : Vol E p N s.disk T) (hN : N ≤ 1000)
    (hoff : E.offset p + 1000 ≤ 2 ^ 28) (hi : Live T i)
    (hk : (s.icache k).prt = some p) (hd : (s.icache k).din = T i) (hbn : bn < MAXFILE)
    (hR : Room E p N s.disk F ((T i).cost s.disk bn)) (hout : s.outstanding = 0 → F .logOutside)
    (h : ∀ s' T', Bmap E p N k i bn s T s' T' → Q ((T' i).fileBlock s'.disk bn) s') :
    (bmap E k bn).wp Q F s := by
  by_cases h0 : (T i).fileBlock s.disk bn = 0
  case neg =>
    rw [bmap_mapped hd h0]
    refine h s T ⟨hV, Touch.refl k s, hd, fun _ _ => rfl, rfl, h0, fun _ => rfl,
      fun _ _ _ _ => ⟨rfl, rfl⟩, fun _ _ hz => hz,
      .inl rfl, fun hbn' ha => h0 ?_, fun _ _ _ => rfl, ?_, fun y => ?_⟩
    · have h1 : ¬ bn < NDIRECT := by omega
      rw [fileBlock_of_loc (fileLoc_indirect h1 (by simp only [MAXFILE] at hbn; omega))]
      simp [Dinode.block, ha]
    · have : ¬ (NDIRECT ≤ bn ∧ (T i).indirect = 0) := by
        rintro ⟨h1, ha⟩
        refine h0 ?_
        rw [fileBlock_of_loc (fileLoc_indirect (by omega) (by simp only [MAXFILE] at hbn; omega))]
        simp [Dinode.block, ha]
      simp only [Dinode.cost, if_neg h0, if_neg this, Nat.add_zero]
    · simp [h0]
  unfold bmap
  by_cases h1 : bn < NDIRECT
  · rw [dif_pos h1]
    have hl := fileLoc_direct h1
    have hz : (T i).addrs ⟨bn, Nat.lt_succ_of_lt h1⟩ = 0 := by
      rw [fileBlock_of_loc hl] at h0
      exact h0
    have hcost : (T i).cost s.disk bn = 0 + 1 := by
      rw [Dinode.cost, if_pos h0, if_neg (by omega)]
    rw [hcost] at hR
    refine addrOrAlloc_wp hV hN hoff hi hk hd (fun _ => hR) hout (fun hne => absurd hz hne) ?_
    intro b s' T' _ _ hP
    obtain ⟨rfl, hB⟩ := hP.bmap hV hi hl ⟨fun h => by omega, by rintro ⟨e, he⟩; cases he⟩ fun h =>
      by omega
    exact h s' T' hB
  · have h2 : bn - NDIRECT < NINDIRECT := by simp only [MAXFILE] at hbn; omega
    have hl := fileLoc_indirect h1 h2
    rw [dif_neg h1, if_pos h2, wp_bind]
    rw [fileBlock_of_loc hl] at h0
    by_cases ha : (T i).indirect = 0
    · have hcost : (T i).cost s.disk bn = 1 + 1 := by
        rw [Dinode.cost, if_pos (by rw [fileBlock_of_loc hl]; exact h0), if_pos ⟨by omega, ha⟩]
      rw [hcost] at hR
      refine addrOrAlloc_wp hV hN hoff hi hk hd (fun _ => hR) hout (fun hne => absurd ha hne) ?_
      intro a s1 T1 _ hab hA
      obtain rfl : a = (T1 i).indirect := hab
      refine entryOrAlloc_wp (n := 0) (e := ⟨bn - NDIRECT, h2⟩) hA.vol hN hoff (hA.live.2 hi)
        (by rw [hA.touch.slot]; exact hk) hA.din hA.pos ?_ (hR.sub hA.room (Nat.le_refl _))
        (by rw [hA.touch.framed.outstanding]; exact hout) ?_
      · rw [hA.block_ne hi (by simp)]; exact h0
      · intro b s' T' hP
        obtain ⟨rfl, hB⟩ := hA.bmap_two hP hV hi hl (by omega)
        exact h s' T' hB
    · have hcost : (T i).cost s.disk bn = 0 + 1 := by
        rw [Dinode.cost, if_pos (by rw [fileBlock_of_loc hl]; exact h0), if_neg fun hc => ha hc.2]
      rw [hcost] at hR
      refine addrOrAlloc_wp (n := 0) hV hN hoff hi hk hd (fun hz => absurd hz ha) hout (fun _ => ?_)
        fun _ _ _ hz => absurd hz ha
      refine entryOrAlloc_wp (e := ⟨bn - NDIRECT, h2⟩) hV hN hoff hi hk hd ha h0 hR hout
        fun b s' T' hP => ?_
      obtain ⟨rfl, hB⟩ := hP.bmap hV hi hl ⟨fun _ => ⟨_, rfl⟩, fun _ => by omega⟩ fun _ => ha
      exact h s' T' hB

end Os4.Fs
