import Os4.Mkfs.Append
/-!
# What `init_partition` leaves (mkfs.c:344-445)

`Holds o P st cs`: while the partition at `o` is being filled it holds the files `cs`, inode `i + 1`
the file `cs[i]`. `ialloc` adds an empty file, `iappend` adds bytes to one, so that `root_handler`
turns a root directory into the tree of its arguments (`rootHandler_wp`). `Formatted` is what a
finished partition looks like.

A partition fails to be written only for want of room (`Fit`), unless an argument is bad.
-/
namespace Os4.Fs.Mkfs

open Prog
open Function (update_of_ne update_self update)
open List (length_append map_cons append_nil)

variable {o used i i' bn off n e a : Nat} {disk disk' : Disk} {T T' : Nat → Dinode}
  {d d' : Dinode} {l l' : Loc}
  {st st' : State} {P : Write → Prop} {F : Stop → Prop} {x : Block} {src : List UInt8} {area : Area}

/-! ## Inodes -/

theorem slot_put (hd : d.InRange) : slot o (update disk (o + 31 + i / IPB)
    (putDinode (disk (o + 31 + i / IPB)) (i % IPB) d)) i' = if i' = i then d
    else slot o disk i' := by
  have hlt : i % IPB < IPB := Nat.mod_lt _ (by decide)
  unfold slot
  by_cases hb : i' / IPB = i / IPB
  · rw [hb, update_self]
    by_cases hi : i' = i
    · rw [if_pos hi, hi, getDinode_putDinode_same _ hlt hd]
    · rw [if_neg hi, getDinode_putDinode_ne _ _ (fun h =>
        hi (by simp only [IPB, BSIZE] at *; omega))]
  · rw [update_of_ne (by omega), if_neg fun h => hb (by rw [h])]

theorem slot_congr (h : ∀ b, o + 31 ≤ b → b < o + 57 → disk' b = disk b) (hi : i < nslots) :
    slot o disk' i = slot o disk i := by
  have hi' : i < 208 := hi
  rw [slot, slot, h _ (Nat.le_add_right _ _) (by simp only [IPB, BSIZE]; omega)]

theorem Own.table (hO : Own o disk T used) (h : ∀ i, i < nslots → (T' i).addrs = (T i).addrs) :
    Own o disk T' used where
  own := hO.own.congr (fun _ => rfl) fun y => by
    unfold ptrs
    split
    · exact block_addrs (h y.1 ‹_›)
    · rfl
  fresh := hO.fresh

variable {size : Nat}

theorem Exact.addrs (hE : Exact disk d size) (h : d'.addrs = d.addrs) : Exact disk d' size where
  blocks bn := by rw [fileBlock_addrs h]; exact hE.blocks bn
  indirect := by rw [Dinode.indirect, h]; exact hE.indirect

/-- A file is where it was. -/
structure Unmoved (disk disk' : Disk) (d : Dinode) (size : Nat) : Prop where
  block : ∀ bn, d.fileBlock disk' bn = d.fileBlock disk bn
  data : ∀ bn, bn * BSIZE < size → disk' (d.fileBlock disk bn) = disk (d.fileBlock disk bn)

theorem Unmoved.byteAt {q : Nat} (h : Unmoved disk disk' d size) (hq : q < size) :
    Fs.byteAt disk' d q = Fs.byteAt disk d q := by
  rw [Fs.byteAt, Fs.byteAt, h.block, h.data _ (by simp only [BSIZE]; omega)]

theorem byteAt_addrs {q : Nat} (h : d'.addrs = d.addrs) : byteAt disk d' q = byteAt disk d q := by
  rw [byteAt, byteAt, fileBlock_addrs h]

/-! ## Files -/

/-- A file: its type and what is in it. -/
structure Node where
  type : Int
  bytes : List UInt8

/-- The blocks that files take. -/
def total (cs : List Node) : Nat := (cs.map fun c => blocksOf c.bytes.length).sum

abbrev blank : Dinode := ⟨0, 0, 0, 0, 0, fun _ => 0⟩

structure Holds (o : Nat) (P : Write → Prop) (st : State) (cs : List Node) : Prop where
  busy : Busy o P st (slot o st.disk) (total cs)
  exact : ∀ i, i < nslots → Exact st.disk (slot o st.disk i) (slot o st.disk i).size
  type : ∀ {i : Nat} {c : Node}, cs[i]? = some c → (slot o st.disk (i + 1)).type = c.type
  size : ∀ {i : Nat} {c : Node}, cs[i]? = some c → (slot o st.disk (i + 1)).size = c.bytes.length
  bytes : ∀ {i : Nat} {c : Node}, cs[i]? = some c → ∀ q, q < c.bytes.length →
    byteAt st.disk (slot o st.disk (i + 1)) q = c.bytes.getD q 0
  blank : ∀ i, i < nslots → i = 0 ∨ cs.length < i → slot o st.disk i = blank
  count : cs.length < nslots

/-- Inodes and data of the partition are all that changed. -/
structure Frame (o : Nat) (st st' : State) : Prop where
  disk : ∀ b, b < o + 31 ∨ b = o + 57 ∨ o + 1000 ≤ b → st'.disk b = st.disk b
  sb : st'.sb = st.sb
  phase : st'.phase = st.phase

theorem Frame.refl (o : Nat) (st : State) : Frame o st st := ⟨fun _ _ => rfl, rfl, rfl⟩

variable {st1 st2 st3 : State}

theorem Frame.trans (h : Frame o st1 st2) (h' : Frame o st2 st3) : Frame o st1 st3 :=
  ⟨fun b hb => (h'.disk b hb).trans (h.disk b hb), h'.sb.trans h.sb, h'.phase.trans h.phase⟩

theorem Kept.frame (h : Kept o st st') : Frame o st st' :=
  ⟨fun b hb => h.disk b (by omega), h.sb, h.phase⟩

theorem frame_put (hi : i < nslots) : Frame o st (st.put area (o + 31 + i / IPB) x) := by
  have hi' : i < 208 := hi
  refine ⟨fun b hb => update_of_ne ?_ .., rfl, rfl⟩
  simp only [IPB, BSIZE]
  omega

theorem total_set {cs : List Node} {c : Node} (c' : Node) (h : cs[i]? = some c) :
    total (cs.set i c') + blocksOf c.bytes.length = total cs + blocksOf c'.bytes.length := by
  induction cs generalizing i with
  | nil => simp at h
  | cons c0 cs ih =>
    cases i with
    | zero =>
      obtain rfl : c0 = c := by simpa using h
      simp only [total, List.set_cons_zero, map_cons, List.sum_cons]
      omega
    | succ i =>
      have := ih (i := i) (by simpa using h)
      simp only [total, List.set_cons_succ, map_cons, List.sum_cons] at *
      omega

theorem total_append {cs cs' : List Node} : total (cs ++ cs') = total cs + total cs' := by
  simp [total]

theorem Busy.inodeSector (hB : Busy o P st T used) (hi : i < nslots) :
    i / IPB + st.sb.inodestart = o + 31 + i / IPB ∧ Area.inodes.Inside o (o + 31 + i / IPB) ∧
    o + 31 + i / IPB < o + 1000 := by
  have hi' : i < 208 := hi
  rw [hB.inodestart, inside_inodes]
  simp only [IPB, BSIZE]
  omega

theorem rinode_wp (hB : Busy o P st T used) (hi : i < nslots) {Q : Dinode → State → Prop} :
    (rinode i).wp Q F st ↔ Q (slot o st.disk i) st := by
  obtain ⟨h1, -, h2⟩ := hB.inodeSector hi
  rw [rinode, wp_bind, wp_get, h1, wp_bind, hB.rsect h2, wp_pure]
  rfl

variable {Q : Unit → State → Prop}

theorem winode_wp (hB : Busy o P st T used) (hi : i < nslots) :
    (winode i d).wp Q F st ↔
      Q () (st.put .inodes (o + 31 + i / IPB)
        (putDinode (st.disk (o + 31 + i / IPB)) (i % IPB) d)) := by
  obtain ⟨h1, -, h2⟩ := hB.inodeSector hi
  rw [winode, wp_bind, wp_get, h1, wp_bind, hB.rsect h2, wp_wsect, hB.pos h2]

theorem Busy.putInode (hB : Busy o P st T used) (hi : i < nslots) (hd : d.InRange)
    (ha : d.addrs = (T i).addrs) (hT : ∀ i', i' < nslots → i' ≠ i → T i' = slot o st.disk i') :
    Busy o P (st.put .inodes (o + 31 + i / IPB)
      (putDinode (st.disk (o + 31 + i / IPB)) (i % IPB) d))
      (slot o (update st.disk (o + 31 + i / IPB)
        (putDinode (st.disk (o + 31 + i / IPB)) (i % IPB) d))) used := by
  obtain ⟨-, h1, h2⟩ := hB.inodeSector hi
  rw [inside_inodes] at h1
  have hO : Own o (update st.disk (o + 31 + i / IPB)
      (putDinode (st.disk (o + 31 + i / IPB)) (i % IPB) d)) T used := by
    refine hB.own.congr (fun i' hi' h => ?_) fun b hb _ => update_of_ne (by omega) ..
    have := hB.own.spread.indirect_range hi' h
    exact update_of_ne (by omega) ..
  have hput := hB.put (inside_inodes.2 h1) h2 hO
  refine { hput with
    own := hput.own.table fun i' hi' => ?_
    inRange := fun i' _ => inRange_getDinode _ _ }
  rw [slot_put hd]
  by_cases h : i' = i
  · rw [if_pos h, h, ha]
  · rw [if_neg h, hT i' hi' h]

/-! ## `ialloc` and `iappend` -/

theorem exact_blank : Exact disk blank 0 where
  blocks bn := by
    have : (blank).fileBlock disk bn = 0 := by
      cases h : fileLoc bn with
      | none => simp [Dinode.fileBlock, h]
      | some l => rw [fileBlock_of_loc h, block_blank rfl]
    simp [this]
  indirect := by simp [Dinode.indirect]

theorem Unmoved.exact (h : Unmoved disk disk' d size) (hE : Exact disk d size) :
    Exact disk' d size where
  blocks bn := by rw [h.block]; exact hE.blocks bn
  indirect := hE.indirect

theorem Unmoved.trans {disk1 disk2 disk3 : Disk} (h : Unmoved disk1 disk2 d n)
    (h' : Unmoved disk2 disk3 d n) :
    Unmoved disk1 disk3 d n where
  block bn := (h'.block bn).trans (h.block bn)
  data bn hbn := by
    have := h'.data bn hbn
    rw [h.block] at this
    exact this.trans (h.data bn hbn)

/-- Writing before the data area moves no file. -/
theorem Own.unmoved (hO : Own o disk T used) (hi : i < nslots) (hE : Exact disk (T i) n)
    (h : ∀ b, o + 58 ≤ b → disk' b = disk b) : Unmoved disk disk' (T i) n where
  block _ := fileBlock_congr fun hne => h _ (hO.spread.indirect_range hi hne).1
  data bn hbn := h _ (hO.spread.fileBlock_range hi ((hE.blocks bn).2 hbn)).1

theorem Busy.unmoved_inode (hB : Busy o P st T used) (hi : i < nslots) (hi' : i' < nslots)
    (hE : Exact st.disk (T i') n) :
    Unmoved st.disk (update st.disk (o + 31 + i / IPB) x) (T i') n := by
  obtain ⟨-, h1, -⟩ := hB.inodeSector hi
  rw [inside_inodes] at h1
  exact hB.own.unmoved hi' hE fun b hb => update_of_ne (by omega) ..

theorem winode_holds {cs : List Node} (hH : Holds o P st cs) (hi : i < nslots) (hr : d.InRange)
    (ha : d.addrs = (slot o st.disk i).addrs)
    (hQ : ∀ st', Busy o P st' (slot o st'.disk) (total cs) → Frame o st st' →
      st'.freeinode = st.freeinode →
      (∀ i', slot o st'.disk i' = if i' = i then d else slot o st.disk i') →
      (∀ i', i' < nslots → Unmoved st.disk st'.disk (slot o st.disk i') (slot o st.disk i').size) →
        Q () st') :
    (winode i d).wp Q F st := by
  rw [winode_wp hH.busy hi]
  exact hQ _ (hH.busy.putInode hi hr ha fun _ _ _ => rfl) (frame_put hi) rfl
    (fun _ => slot_put hr) fun i' hi' =>
    hH.busy.unmoved_inode hi hi' (hH.exact i' hi')

theorem ialloc_wp {cs : List Node} {type : Int} (hH : Holds o P st cs)
    (hfree : st.freeinode = cs.length + 1) (hn : cs.length + 1 < nslots) {Q : Nat → State → Prop}
    (hQ : ∀ st', Holds o P st' (cs ++ [⟨toShort type, []⟩]) → Frame o st st' →
      st'.freeinode = cs.length + 2 → Q (cs.length + 1) st') : (ialloc type).wp Q F st := by
  have hH' : Holds o P { st with freeinode := cs.length + 1 + 1 } cs :=
    ⟨{ hH.busy with }, hH.exact, hH.type, hH.size, hH.bytes, hH.blank, hH.count⟩
  have hr : (⟨toShort type, 0, 0, 1, 0, fun _ => 0⟩ : Dinode).InRange :=
    ⟨toShort_toShort type, rfl, rfl, rfl, Nat.two_pow_pos 32, fun _ => Nat.two_pow_pos 32⟩
  have hnew := hH.blank (cs.length + 1) hn (.inr (Nat.lt_succ_self _))
  have hold : ∀ {i : Nat} {c : Node}, (cs ++ [⟨toShort type, []⟩])[i]? = some c →
      (i < cs.length ∧ cs[i]? = some c) ∨ (i = cs.length ∧ c = ⟨toShort type, []⟩) := by
    intro i c h
    rcases Nat.lt_trichotomy i cs.length with hi | hi | hi
    · rw [List.getElem?_append_left hi] at h
      exact .inl ⟨hi, h⟩
    · subst hi
      exact .inr ⟨rfl, by simpa using h.symm⟩
    · rw [List.getElem?_eq_none (by simp; omega)] at h
      cases h
  unfold ialloc
  rw [wp_bind, wp_get, wp_bind, wp_set, wp_bind, hfree]
  refine winode_holds hH' hn hr (by rw [hnew]) fun st' hB hf hi' hslot hun => ?_
  rw [wp_pure]
  refine hQ _ ⟨?_, fun i' hi' => ?_, fun h => ?_, fun h => ?_, fun h q hq => ?_, fun i' hi' h => ?_,
    by simpa using hn⟩
    ⟨hf.disk, hf.sb, hf.phase⟩ hi'
  · have h0 : total [⟨toShort type, []⟩] = 0 := by simp [total, blocksOf]
    rw [total_append, h0]
    exact hB
  · rw [hslot]
    by_cases h : i' = cs.length + 1
    · rw [if_pos h]
      exact exact_blank.addrs rfl
    · rw [if_neg h]
      exact (hun i' hi').exact (hH.exact i' hi')
  · rw [hslot]
    rcases hold h with ⟨hi, h⟩ | ⟨rfl, rfl⟩
    · rw [if_neg (by omega)]
      exact hH.type h
    · rw [if_pos rfl]
  · rw [hslot]
    rcases hold h with ⟨hi, h⟩ | ⟨rfl, rfl⟩
    · rw [if_neg (by omega)]
      exact hH.size h
    · rw [if_pos rfl]
      rfl
  · rw [hslot]
    rcases hold h with ⟨hi, h⟩ | ⟨rfl, rfl⟩
    · rw [if_neg (by omega), (hun _ (by omega)).byteAt (by rw [hH'.size h]; exact hq)]
      exact hH.bytes h q hq
    · exact absurd hq (Nat.not_lt_zero q)
  · rw [length_append, List.length_singleton] at h
    rw [hslot, if_neg (by omega)]
    exact hH.blank i' hi' (by omega)

/-- The room for `src` after `c` when all files together take `m` blocks, or a failure that is
allowed for. -/
abbrev Room (o : Nat) (F : Stop → Prop) (size m : Nat) : Prop :=
  size ≤ MAXFILE * BSIZE ∧ m ≤ 942 ∨ o + 1000 < 2 ^ 23 ∧ ∀ e, F e

theorem iappend_wp {cs : List Node} {c : Node} (hH : Holds o P st cs) (hc : cs[i]? = some c)
    (hroom : Room o F (c.bytes ++ src).length (total (cs.set i { c with bytes := c.bytes ++ src })))
    {Q : Unit → State → Prop}
    (hQ : ∀ st', Holds o P st' (cs.set i { c with bytes := c.bytes ++ src }) → Frame o st st' →
      st'.freeinode = st.freeinode → Q () st') : (iappend (i + 1) src).wp Q F st := by
  have hlt : i < cs.length := by
    by_contra h
    rw [List.getElem?_eq_none (by omega)] at hc
    cases hc
  have hcount := hH.count
  have hi : i + 1 < nslots := by omega
  have hsize := hH.size hc
  have hE := hH.exact _ hi
  have htotal := total_set { c with bytes := c.bytes ++ src } hc
  simp only [length_append] at htotal hroom
  unfold iappend
  rw [wp_bind, rinode_wp hH.busy hi, wp_bind]
  refine iappendLoop_wp hi (Nat.le_refl _) hH.busy hE ?_ fun st' T' used' hA => ?_
  · rw [hsize]
    exact hroom.imp_left fun h => ⟨h.1, by omega⟩
  have hused : used' = total (cs.set i { c with bytes := c.bytes ++ src }) := by
    have := hA.cost
    rw [hsize] at this
    omega
  have hE' := hA.exact
  have hsmall : (slot o st.disk (i + 1)).size + src.length < 2 ^ 32 :=
    Nat.lt_of_le_of_lt hE'.size_le (by decide)
  have hr' := hA.busy.inRange _ hi
  have hr : ({ T' (i + 1) with size := (slot o st.disk (i + 1)).size + src.length } :
      Dinode).InRange :=
    ⟨hr'.type, hr'.major, hr'.minor, hr'.nlink, hsmall, hr'.addrs⟩
  have hslot' : ∀ i', i' < nslots → slot o st'.disk i' = slot o st.disk i' := fun i' hi' =>
    slot_congr (fun b _ _ => hA.kept.disk b (by omega)) hi'
  have hput := hA.busy.putInode hi hr rfl fun i' hi' h => (hA.table i' h).trans (hslot' i' hi').symm
  rw [winode_wp hA.busy hi]
  generalize hD : update st'.disk (o + 31 + (i + 1) / IPB)
    (putDinode (st'.disk (o + 31 + (i + 1) / IPB))
    ((i + 1) % IPB) { T' (i + 1) with size := (slot o st.disk (i + 1)).size + src.length }) =
      D at hput
  have hslot : ∀ i', i' < nslots → slot o D i' =
      if i' = i + 1 then { T' (i + 1) with size := (slot o st.disk (i + 1)).size + src.length }
      else slot o st.disk i' :=
    fun i' hi' => by rw [← hD, slot_put hr, hslot' i' hi']
  have hDdisk : (st'.put .inodes (o + 31 + (i + 1) / IPB)
    (putDinode (st'.disk (o + 31 + (i + 1) / IPB))
    ((i + 1) % IPB) { T' (i + 1) with size := (slot o st.disk (i + 1)).size + src.length })).disk =
      D := hD
  -- the other files
  have hun : ∀ i', i' ≠ i + 1 → i' < nslots →
      Unmoved st.disk D (slot o st.disk i') (slot o st.disk i').size := by
    intro i' hne hi'
    have h1 : Unmoved st.disk st'.disk (slot o st.disk i') (slot o st.disk i').size :=
      ⟨fun bn => (hA.other i' bn hne hi').1,
        fun bn hbn => (hA.other i' bn hne hi').2 (((hH.exact i' hi').blocks bn).2 hbn)⟩
    have h2 := hA.busy.unmoved_inode (x := putDinode (st'.disk (o + 31 + (i + 1) / IPB))
      ((i + 1) % IPB) { T' (i + 1) with size := (slot o st.disk (i + 1)).size + src.length }) hi hi'
      (by rw [hA.table i' hne]; exact h1.exact (hH.exact i' hi'))
    rw [hD, hA.table i' hne] at h2
    exact h1.trans h2
  have hself := hA.busy.unmoved_inode (x := putDinode (st'.disk (o + 31 + (i + 1) / IPB))
      ((i + 1) % IPB) { T' (i + 1) with size := (slot o st.disk (i + 1)).size + src.length })
        hi hi hE'
  rw [hD] at hself
  have hold : ∀ {j : Nat} {c' : Node}, (cs.set i { c with bytes := c.bytes ++ src })[j]? = some c' →
      (j = i ∧ c' = { c with bytes := c.bytes ++ src }) ∨ (j ≠ i ∧ cs[j]? = some c') := by
    intro j c' h
    by_cases hj : j = i
    · subst hj
      rw [List.getElem?_set_self hlt] at h
      exact .inl ⟨rfl, (Option.some.inj h).symm⟩
    · rw [List.getElem?_set_ne (Ne.symm hj)] at h
      exact .inr ⟨hj, h⟩
  have hlen : ∀ {j : Nat} {c' : Node}, (cs.set i { c with bytes := c.bytes ++ src })[j]? = some c' →
      j + 1 < nslots := by
    intro j c' h
    obtain ⟨h, -⟩ := List.getElem?_eq_some_iff.1 h
    rw [List.length_set] at h
    omega
  refine hQ _ ⟨?_, fun i' hi' => ?_, fun {j} c' h => ?_, fun {j} c' h => ?_,
    fun {j} c' h q hq => ?_, fun i' hi' h => ?_,
    by simpa using hcount⟩ (hA.kept.frame.trans (frame_put hi)) hA.kept.freeinode
  · rw [← hused, hDdisk]
    exact hput
  · rw [hDdisk, hslot i' hi']
    by_cases h : i' = i + 1
    · rw [if_pos h]
      exact (hself.exact hE').addrs rfl
    · rw [if_neg h]
      exact (hun i' h hi').exact (hH.exact i' hi')
  · rw [hDdisk, hslot (j + 1) (hlen h)]
    rcases hold h with ⟨rfl, rfl⟩ | ⟨hne, h⟩
    · rw [if_pos rfl, ← hH.type hc]
      show (T' (j + 1)).type = _
      rw [hA.addrs]
    · rw [if_neg (by omega), hH.type h]
  · rw [hDdisk, hslot (j + 1) (hlen h)]
    rcases hold h with ⟨rfl, rfl⟩ | ⟨hne, h⟩
    · rw [if_pos rfl, length_append, ← hsize]
    · rw [if_neg (by omega), hH.size h]
  · rw [hDdisk, hslot (j + 1) (hlen h)]
    have h0 := h
    rcases hold h with ⟨rfl, rfl⟩ | ⟨hne, h⟩
    · rw [length_append] at hq
      have haddr : byteAt D { T' (j + 1) with
          size := (slot o st.disk (j + 1)).size + src.length } q =
          byteAt D (T' (j + 1)) q := byteAt_addrs rfl
      rw [if_pos rfl, haddr, hself.byteAt (by rw [hsize]; exact hq),
        hA.bytes q (by rw [hsize]; exact hq), hsize]
      by_cases hlt : q < c.bytes.length
      · rw [if_pos hlt, hH.bytes hc q hlt, List.getD_append _ _ _ _ hlt]
      · rw [if_neg hlt, List.getD_append_right _ _ _ _ (by omega)]
    · rw [if_neg (by omega), (hun _ (by omega) (hlen h0)).byteAt (by rw [hH.size h]; exact hq),
        hH.bytes h q hq]
  · rw [List.length_set] at h
    rw [hDdisk, hslot i' hi', if_neg (by omega)]
    exact hH.blank i' hi' h

/-! ## `root_handler` -/

theorem flatten_readsFrom : ∀ {fuel : Nat} {l : List UInt8}, l.length ≤ fuel →
    (readsFrom fuel l).flatten = l
  | 0, l, h => by
    obtain rfl : l = [] := List.length_eq_zero_iff.1 (by omega)
    rfl
  | fuel + 1, l, h => by
    unfold readsFrom
    split
    · rename_i h0
      rw [h0]
      rfl
    · rename_i h0
      have hpos := List.length_pos_iff.2 h0
      rw [List.flatten_cons, flatten_readsFrom (by rw [List.length_drop]; simp only [BSIZE]; omega),
        List.take_append_drop]

/-- The calls of `read` return the file piece by piece. -/
theorem flatten_reads (l : List UInt8) : (reads l).flatten = l := flatten_readsFrom (Nat.le_refl _)

theorem appendAll_wp : ∀ {ls : List (List UInt8)} {st : State} {cs : List Node} {c : Node},
    Holds o P st cs → cs[i]? = some c →
    Room o F (c.bytes ++ ls.flatten).length
      (total (cs.set i { c with bytes := c.bytes ++ ls.flatten })) →
    (∀ st', Holds o P st' (cs.set i { c with bytes := c.bytes ++ ls.flatten }) → Frame o st st' →
      st'.freeinode = st.freeinode → Q () st') → (appendAll (i + 1) ls).wp Q F st
  | [], st, cs, c, hH, hc, _, hQ => by
    refine hQ st ?_ (Frame.refl o st) rfl
    obtain ⟨hlt, rfl⟩ := List.getElem?_eq_some_iff.1 hc
    rw [List.flatten_nil, append_nil, List.set_getElem_self hlt]
    exact hH
  | l :: ls, st, cs, c, hH, hc, hroom, hQ => by
    have hlt : i < cs.length := (List.getElem?_eq_some_iff.1 hc).1
    have hset : (cs.set i { c with bytes := c.bytes ++ l }).set i { c with
        bytes := c.bytes ++ l ++ ls.flatten } =
        cs.set i { c with bytes := c.bytes ++ (l :: ls).flatten } := by
      rw [List.set_set, List.flatten_cons, List.append_assoc]
    have hlen : (c.bytes ++ l).length ≤ (c.bytes ++ (l :: ls).flatten).length := by simp
    have h1 := total_set { c with bytes := c.bytes ++ l } hc
    have h2 := total_set { c with bytes := c.bytes ++ (l :: ls).flatten } hc
    have h3 := blocksOf_mono hlen
    unfold appendAll
    rw [wp_bind]
    refine iappend_wp hH hc (hroom.imp_left fun h => ⟨by omega, by simp only at *; omega⟩)
      fun st1 hH1 hf1 hi1 => ?_
    refine appendAll_wp hH1 (List.getElem?_set_self hlt) ?_ fun st' hH' hf' hi' => ?_
    · rw [hset, List.append_assoc, ← List.flatten_cons]
      exact hroom
    · rw [hset] at hH'
      exact hQ st' hH' (hf1.trans hf') (hi'.trans hi1)

/-- The entries that `root_handler` adds for its arguments, the first of which gets inode `n`. -/
def entriesFrom : Nat → List Arg → List UInt8
  | _, [] => []
  | n, a :: rest => direntBytes ⟨n, strncpy a.stored DIRSIZ⟩ ++ entriesFrom (n + 1) rest

def Arg.node (a : Arg) : Node := ⟨T_FILE, a.content.getD []⟩

/-- The argument names a file in the current directory. -/
def Arg.Plain (a : Arg) : Prop := 47 ∉ a.name ∧ a.content.isSome = true

theorem length_strncpy (l : List UInt8) (n : Nat) : (strncpy l n).length = n := by
  rw [strncpy, length_append, List.length_take, List.length_replicate]
  omega

theorem length_entry (n : Nat) (l : List UInt8) :
    (direntBytes ⟨n, strncpy l DIRSIZ⟩).length = 16 := by
  simp only [direntBytes, length_append, Bytes.length_natLe, length_strncpy, DIRSIZ]

theorem length_entriesFrom :
    ∀ (n : Nat) (args : List Arg), (entriesFrom n args).length = 16 * args.length
  | _, [] => rfl
  | n, a :: rest => by
    rw [entriesFrom, length_append, length_entry, length_entriesFrom (n + 1) rest, List.length_cons]
    omega

@[simp] theorem total_nil : total [] = 0 := rfl

theorem total_cons {c : Node} {cs : List Node} :
    total (c :: cs) = blocksOf c.bytes.length + total cs := by
  simp [total]

/-- The root directory has `rb` in it, and `files` are the other files. -/
theorem rootHandler_wp : ∀ {args : List Arg} {st : State} {rb : List UInt8} {files : List Node},
    Holds o P st (⟨T_DIR, rb⟩ :: files) → st.freeinode = files.length + 2 →
    files.length + args.length + 1 < nslots →
    ((∀ a ∈ args, a.Plain ∧ a.node.bytes.length ≤ MAXFILE * BSIZE) ∧
      rb.length + 16 * args.length ≤ MAXFILE * BSIZE ∧
        blocksOf (rb.length + 16 * args.length) + total (files ++ args.map Arg.node) ≤ 942 ∨
      o + 1000 < 2 ^ 23 ∧ ∀ e, F e) →
    (∀ st', Holds o P st' (⟨T_DIR, rb ++ entriesFrom (files.length + 2) args⟩ ::
      (files ++ args.map Arg.node)) →
      Frame o st st' → st'.freeinode = files.length + args.length + 2 →
        (∀ a ∈ args, a.Plain) → Q () st') → (rootHandler ROOTINO args).wp Q F st
  | [], st, rb, files, hH, hfree, _, _, hQ => by
    refine hQ st ?_ (Frame.refl o st) hfree (by simp)
    rw [entriesFrom, append_nil, List.map_nil, append_nil]
    exact hH
  | a :: rest, st, rb, files, hH, hfree, hn, hroom, hQ => by
    rw [List.length_cons] at hn hroom
    unfold rootHandler
    rw [wp_ite]
    refine ⟨fun hslash => ?_, fun hslash => ?_⟩
    · exact (hroom.resolve_left fun h => (h.1 a (by simp)).1.1 hslash).2 .assertion
    cases hcont : a.content with
    | none =>
      refine (hroom.resolve_left fun h => ?_).2 .failed
      have := (h.1 a (by simp)).1.2
      rw [hcont] at this
      cases this
    | some l =>
      have hnode : a.node = ⟨T_FILE, l⟩ := by rw [Arg.node, hcont]; rfl
      rw [map_cons, hnode] at hroom
      have hlist : (⟨T_DIR, rb⟩ :: files).length = files.length + 1 := rfl
      rw [wp_bind]
      refine ialloc_wp hH (by rw [hlist]; exact hfree) (by rw [hlist]; omega)
        fun st1 hH1 hf1 hi1 => ?_
      rw [hlist] at hi1 ⊢
      -- the entry for the new inode goes to the end of the root directory
      have hb1 := blocksOf_mono
        (show (rb ++ direntBytes ⟨files.length + 1 + 1, strncpy a.stored DIRSIZ⟩).length ≤
        rb.length + 16 * (rest.length + 1) by rw [length_append, length_entry]; omega)
      rw [wp_bind]
      refine iappend_wp (i := 0) hH1 rfl ?_ fun st2 hH2 hf2 hi2 => ?_
      · refine hroom.imp_left fun ⟨_, h2, h3⟩ => ⟨?_, ?_⟩
        · rw [length_append, length_entry]
          show rb.length + 16 ≤ _
          omega
        · simp only [List.cons_append, List.set_cons_zero, total_cons, total_append,
            total_nil] at h3 ⊢
          have h0 : blocksOf ([] : List UInt8).length = 0 := by simp [blocksOf]
          rw [h0]
          omega
      simp only [List.cons_append, List.set_cons_zero] at hH2
      -- and the file's bytes to the new inode
      have hget : (⟨T_DIR, rb ++ direntBytes ⟨files.length + 1 + 1, strncpy a.stored DIRSIZ⟩⟩ ::
          (files ++ [⟨toShort T_FILE, []⟩]))[files.length + 1]? = some ⟨toShort T_FILE, []⟩ := by
            simp
      have hset : (⟨T_DIR, rb ++ direntBytes ⟨files.length + 1 + 1, strncpy a.stored DIRSIZ⟩⟩ ::
          (files ++ [⟨toShort T_FILE, []⟩])).set (files.length + 1)
            ⟨toShort T_FILE, [] ++ (reads l).flatten⟩ =
          ⟨T_DIR, rb ++ direntBytes ⟨files.length + 1 + 1, strncpy a.stored DIRSIZ⟩⟩ ::
          (files ++ [⟨T_FILE, l⟩]) := by
        rw [List.set_cons_succ, List.set_append_right _ _ (Nat.le_refl _),
          Nat.sub_self, flatten_reads]
        rfl
      rw [wp_bind]
      refine appendAll_wp hH2 hget ?_ fun st3 hH3 hf3 hi3 => ?_
      · rw [hset]
        refine hroom.imp_left fun ⟨h1, h2, h3⟩ => ⟨?_, ?_⟩
        · have := (h1 a (by simp)).2
          rw [hnode] at this
          rw [flatten_reads]
          exact this
        · simp only [total_cons, total_append, total_nil] at h3 ⊢
          omega
      rw [hset] at hH3
      have hlen : (files ++ [(⟨T_FILE, l⟩ : Node)]).length = files.length + 1 := by simp
      have hrb : (rb ++ direntBytes ⟨files.length + 1 + 1, strncpy a.stored DIRSIZ⟩).length +
        16 * rest.length =
          rb.length + 16 * (rest.length + 1) := by rw [length_append, length_entry]; omega
      have happ : files ++ [⟨T_FILE, l⟩] ++ rest.map Arg.node = files ++ ⟨T_FILE, l⟩ ::
          rest.map Arg.node := by simp
      refine rootHandler_wp hH3 (by rw [hi3, hi2, hi1, hlen]) (by rw [hlen]; omega) ?_
        fun st' hH' hf' hi' hpl => ?_
      · rw [hrb, happ]
        exact hroom.imp_left fun ⟨h1, h2, h3⟩ => ⟨fun b hb => h1 b (by simp [hb]), h2, h3⟩
      · rw [happ, hlen, List.append_assoc] at hH'
        rw [hlen] at hi'
        refine hQ st' ?_ (((hf1.trans hf2).trans hf3).trans hf')
          (by rw [List.length_cons]; omega) fun b hb => ?_
        · rw [entriesFrom, map_cons, hnode]
          exact hH'
        · rcases List.mem_cons.1 hb with rfl | hb
          · exact ⟨hslash, by rw [hcont]; rfl⟩
          · exact hpl b hb

/-! ## A partition from beginning to end -/

/-- The sectors from `sec` to `sec + n - 1` were zeroed. -/
structure Zeroed (sec n : Nat) (st st' : State) : Prop where
  disk : ∀ b, st'.disk b = if sec ≤ b ∧ b < sec + n then Bytes.zero else st.disk b
  len : st'.len = if n = 0 then st.len else max st.len (sec + n)
  phase : st'.phase = st.phase
  writes : ∀ w ∈ st'.writes, w ∈ st.writes ∨ ∃ b, sec ≤ b ∧ b < sec + n ∧ w = ⟨st.phase, .whole, b⟩

theorem zeroSectors_wp : ∀ {n sec : Nat} {st : State}, sec + n ≤ 2 ^ 23 →
    (∀ st', Zeroed sec n st st' → Q () st') → (zeroSectors sec n).wp Q F st
  | 0, sec, st, _, hQ => hQ st ⟨fun b => by rw [if_neg (by omega)], rfl, rfl, fun w hw => .inl hw⟩
  | n + 1, sec, st, hn, hQ => by
    unfold zeroSectors
    rw [wp_bind, wp_wsect, pos_of_lt (by omega)]
    refine zeroSectors_wp (by omega) fun st' hZ =>
      hQ st' ⟨fun b => ?_, ?_, hZ.phase, fun w hw => ?_⟩
    · rw [hZ.disk b]
      show (if _ then _ else update st.disk sec Bytes.zero b) = _
      by_cases hb : b = sec
      · subst hb
        rw [if_neg (by omega), if_pos (by omega), update_self]
      · rw [update_of_ne hb]
        simp only [show (sec + 1 ≤ b ∧ b < sec + 1 + n) ↔ (sec ≤ b ∧ b < sec + (n + 1)) by omega]
    · rw [hZ.len, if_neg (Nat.succ_ne_zero n)]
      show (if n = 0 then max st.len (sec + 1) else max (max st.len (sec + 1)) (sec + 1 + n)) = _
      split <;> omega
    · rcases hZ.writes w hw with hw | ⟨b, h1, h2, rfl⟩
      · rcases List.mem_append.1 hw with hw | hw
        · exact .inl hw
        · exact .inr ⟨sec, by omega, by omega, List.mem_singleton.1 hw⟩
      · exact .inr ⟨b, by omega, by omega, rfl⟩

theorem slot_zero (h : ∀ b, o ≤ b → b < o + 1000 → disk b = Bytes.zero) (hi : i < nslots) :
    slot o disk i = blank := by
  have hi' : i < 208 := hi
  have hb : disk (o + 31 + i / IPB) = Bytes.zero :=
    h _ (by simp only [IPB, BSIZE]; omega) (by simp only [IPB, BSIZE]; omega)
  apply Dinode.ext' <;> simp [slot, hb, getDinode, Bytes.signed]

theorem holds_nil (hz : ∀ b, o ≤ b → b < o + 1000 → st.disk b = Bytes.zero)
    (hfree : st.freeblock = o + 58)
    (hlen : st.len = o + 1000) (hbound : o + 1000 ≤ 2 ^ 23) (hsb : st.sb.inodestart = o + 31)
    (hw : ∀ w ∈ st.writes, P w)
    (hmay : ∀ (a : Area) b, a.Inside o b → P ⟨st.phase, a, b⟩) : Holds o P st [] := by
  have hslot : ∀ i, i < nslots → slot o st.disk i = blank := fun i hi => slot_zero hz hi
  have hptr : ∀ y, ptrs st.disk (slot o st.disk) y = 0 := by
    intro y
    unfold ptrs
    split
    · rw [hslot _ ‹_›, block_blank rfl]
    · rfl
  have hno : ∀ {i : Nat} {c : Node}, ¬ ([] : List Node)[i]? = some c := by simp
  refine ⟨⟨⟨⟨fun y h => absurd (hptr y) h, fun y _ h => absurd (hptr y) h, fun j => ?_⟩,
    fun b h1 h2 => hz b (by omega) h2⟩,
    by decide, hfree, hlen, hbound, hsb, fun i _ => inRange_getDinode _ _, hw, hmay⟩,
    fun i hi => ?_, fun h => absurd h hno,
    fun h => absurd h hno, fun h => absurd h hno, fun i hi _ => hslot i hi, by decide⟩
  · simp only [total_nil, Nat.not_lt_zero, decide_false, Bool.false_eq_true, hptr,
      false_iff, not_exists]
    omega
  · rw [hslot i hi]
    exact exact_blank

/-- The entries `.` and `..` of the root. -/
def dots : List UInt8 :=
  direntBytes ⟨ROOTINO, strncpy dot DIRSIZ⟩ ++ direntBytes ⟨ROOTINO, strncpy dotdot DIRSIZ⟩

/-- The files of a partition. -/
def tree (args : List Arg) : List Node := ⟨T_DIR, dots ++ entriesFrom 2 args⟩ :: args.map Arg.node

/-- Only the partition at `o` changed. -/
structure Outside (o : Nat) (st st' : State) : Prop where
  disk : ∀ b, b < o ∨ o + 1000 ≤ b → st'.disk b = st.disk b
  phase : st'.phase = st.phase

theorem Outside.trans (h : Outside o st1 st2) (h' : Outside o st2 st3) : Outside o st1 st3 :=
  ⟨fun b hb => (h'.disk b hb).trans (h.disk b hb), h'.phase.trans h.phase⟩

theorem Frame.outside (h : Frame o st st') : Outside o st st' :=
  ⟨fun b hb => h.disk b (by omega), h.phase⟩

/-- The superblock with absolute starts. -/
def fullSb (o : Nat) : Superblock :=
  ⟨FSSIZE, FSSIZE - nmeta, NINODES, nlog, o + 1, o + 1 + nlog, o + 1 + nlog + ninodeblocks⟩

variable {part : Dpartition}

theorem openPartition_wp (ho : part.offset = o) (hs : part.size = FSSIZE) (hlen : st.len ≤ o + 1000)
    (hbound : o + 1000 ≤ 2 ^ 23)
    (hw : ∀ w ∈ st.writes, P w) (hmay : ∀ (a : Area) b, a.Inside o b → P ⟨st.phase, a, b⟩)
    {Q : Nat → State → Prop}
    (hQ : ∀ st', Holds o P st' [⟨T_DIR, dots⟩] → Outside o st st' → st'.sb = fullSb o →
      st'.freeinode = 2 → Q ROOTINO st') :
    (openPartition part).wp Q F st := by
  unfold openPartition
  rw [wp_bind, ho]
  refine zeroSectors_wp (by rw [hs]; exact hbound) fun st1 hZ => ?_
  rw [hs] at hZ ⊢
  rw [wp_bind, wp_modify, wp_bind]
  have hlen1 : st1.len = o + 1000 := by
    rw [hZ.len, if_neg (by decide)]
    exact Nat.max_eq_right hlen
  have hnil : Holds o P { st1 with sb := fullSb o, freeblock := o + nmeta, freeinode := 1 } [] := by
    refine holds_nil (fun b h1 h2 => ?_) rfl hlen1 hbound rfl (fun w hw' => ?_)
      (by rw [hZ.phase]; exact hmay)
    · show st1.disk b = _
      rw [hZ.disk b, if_pos ⟨h1, h2⟩]
    · rcases hZ.writes w hw' with hw' | ⟨b, h1, h2, rfl⟩
      · exact hw w hw'
      · exact hmay .whole b ⟨h1, h2⟩
  refine ialloc_wp hnil rfl (by decide) fun st2 hH2 hf2 hi2 => ?_
  rw [if_pos (show ([] : List Node).length + 1 = ROOTINO from rfl), wp_bind]
  have hsmall : ∀ {rb : List UInt8}, rb.length ≤ 32 →
      Room o F rb.length (total [⟨toShort T_DIR, rb⟩]) := by
    intro rb hrb
    have h1 := blocksOf_mono hrb
    have h2 : blocksOf 32 = 1 := by decide
    refine .inl ⟨by simp only [MAXFILE, BSIZE, NDIRECT, NINDIRECT]; omega, ?_⟩
    simp only [total_cons, total_nil]
    omega
  refine iappend_wp (i := 0) hH2 rfl (hsmall ?_) fun st3 hH3 hf3 hi3 => ?_
  · rw [length_append, length_entry]
    decide
  rw [wp_bind]
  refine iappend_wp (i := 0) hH3 rfl (hsmall ?_) fun st4 hH4 hf4 hi4 => ?_
  · rw [length_append, length_append, length_entry, length_entry]
    decide
  rw [wp_pure]
  have hf := ((hf2.trans hf3).trans hf4)
  refine hQ st4 hH4 ⟨fun b hb => (hf.disk b (by omega)).trans ?_, hf.phase.trans hZ.phase⟩ hf.sb
    (by rw [hi4, hi3, hi2]; rfl)
  show st1.disk b = _
  rw [hZ.disk b, if_neg (by show ¬ (o ≤ b ∧ b < o + 1000); omega)]

/-- The finished partition at `o` with the files `cs`. The size of the root directory is rounded up,
which may leave it with a block that it does not have. -/
structure Formatted (o : Nat) (disk : Disk) (cs : List Node) : Prop where
  superblock : getSuperblock (disk o) = Mkfs.superblock
  bitmap : disk (o + 57) = usedBits (total cs)
  le : total cs ≤ 942
  own : Owned (fun j => decide (j < total cs)) (o + 58) (total cs) (ptrs disk (slot o disk))
  type : ∀ {i : Nat} {c : Node}, cs[i]? = some c → (slot o disk (i + 1)).type = c.type
  size : ∀ {i : Nat} {c : Node}, cs[i]? = some c →
    (slot o disk (i + 1)).size = if i = 0 then (c.bytes.length / BSIZE + 1) * BSIZE
    else c.bytes.length
  mapped : ∀ {i : Nat} {c : Node}, cs[i]? = some c → ∀ bn, bn * BSIZE < c.bytes.length →
    (slot o disk (i + 1)).fileBlock disk bn ≠ 0
  only : ∀ {i : Nat} {c : Node}, cs[i]? = some c →
    ∀ bn, (slot o disk (i + 1)).fileBlock disk bn ≠ 0 → bn * BSIZE < c.bytes.length
  bytes : ∀ {i : Nat} {c : Node}, cs[i]? = some c → ∀ q, q < c.bytes.length →
    byteAt disk (slot o disk (i + 1)) q = c.bytes.getD q 0
  blank : ∀ i, i < nslots → i = 0 ∨ cs.length < i → slot o disk i = blank
  count : cs.length < nslots

theorem Formatted.congr {cs : List Node} (hF : Formatted o disk cs)
    (h : ∀ b, o ≤ b → b < o + 58 + total cs → disk' b = disk b) : Formatted o disk' cs := by
  have hslot : ∀ i, i < nslots → slot o disk' i = slot o disk i := fun i hi =>
    slot_congr (fun b h1 h2 => h b (by omega) (by omega)) hi
  have hnode : ∀ {i : Nat} {c : Node}, cs[i]? = some c → i + 1 < nslots := fun hc => by
    have := hF.count
    have := (List.getElem?_eq_some_iff.1 hc).1
    omega
  have hrange : ∀ {i : Nat} {l : Loc}, i < nslots → (slot o disk i).block disk l ≠ 0 →
      disk' ((slot o disk i).block disk l) = disk ((slot o disk i).block disk l) := by
    intro i l hi hne
    rw [← ptrs_slot (T := slot o disk) hi] at *
    have := hF.own.range _ hne
    exact h _ (by omega) (by omega)
  have hind : ∀ i, i < nslots → (slot o disk i).indirect ≠ 0 → disk' (slot o disk i).indirect =
      disk (slot o disk i).indirect :=
    fun i hi hne => hrange (l := .addr (Fin.last NDIRECT)) hi hne
  have hfile : ∀ i bn, i < nslots → (slot o disk i).fileBlock disk' bn =
      (slot o disk i).fileBlock disk bn :=
    fun i bn hi => fileBlock_congr (hind i hi)
  refine ⟨by rw [h o (by omega) (by omega)]; exact hF.superblock,
    by rw [h _ (by omega) (by omega)]; exact hF.bitmap, hF.le,
    hF.own.congr (fun _ => rfl) fun y => ?_, fun hc => by rw [hslot _ (hnode hc)]; exact hF.type hc,
    fun hc => by rw [hslot _ (hnode hc)]; exact hF.size hc, fun hc bn hbn => ?_,
    fun hc bn hbn => ?_, fun hc q hq => ?_,
    fun i hi hb => by rw [hslot i hi]; exact hF.blank i hi hb, hF.count⟩
  · unfold ptrs
    split
    · rw [hslot _ ‹_›]
      exact block_congr (hind _ ‹_›)
    · rfl
  · rw [hslot _ (hnode hc), hfile _ _ (hnode hc)]
    exact hF.mapped hc bn hbn
  · rw [hslot _ (hnode hc), hfile _ _ (hnode hc)] at hbn
    exact hF.only hc bn hbn
  · have hne := hF.mapped hc (q / BSIZE) (by simp only [BSIZE]; omega)
    rw [hslot _ (hnode hc), ← hF.bytes hc q hq, byteAt, byteAt, hfile _ _ (hnode hc)]
    obtain ⟨l, -, hl⟩ := loc_of_fileBlock hne
    rw [hl] at hne ⊢
    rw [hrange (hnode hc) hne]

/-- The root gets its size, the bitmap and the superblock are written. -/
theorem closePartition_wp {cs : List Node} {root : Node} (ho : part.offset = o)
    (hH : Holds o P st cs) (hroot : cs[0]? = some root) (hsb : st.sb = fullSb o)
    (hQ : ∀ st', Formatted o st'.disk cs → Outside o st st' → st'.len = o + 1000 →
      (∀ w ∈ st'.writes, P w) → Q () st') :
    (closePartition part ROOTINO).wp Q F st := by
  have h1 : ROOTINO < nslots := by decide
  have hsize := hH.size hroot
  have hle := hH.busy.le
  have hbound := hH.busy.bound
  have hmax := (hH.exact 1 h1).size_le
  have hr' : (slot o st.disk 1).InRange := inRange_getDinode _ _
  have hround : (root.bytes.length / BSIZE + 1) * BSIZE < 2 ^ 32 := by
    rw [hsize] at hmax
    simp only [MAXFILE, BSIZE, NDIRECT, NINDIRECT] at *
    omega
  have hr : ({ slot o st.disk 1 with size := (root.bytes.length / BSIZE + 1) * BSIZE } :
      Dinode).InRange :=
    ⟨hr'.type, hr'.major, hr'.minor, hr'.nlink, hround, hr'.addrs⟩
  unfold closePartition
  rw [wp_bind, rinode_wp hH.busy h1, wp_bind, hsize]
  refine winode_holds hH h1 hr rfl fun st1 hB hf _ hslot hun => ?_
  have hsb1 : st1.sb = fullSb o := hf.sb.trans hsb
  have hused : st1.freeblock - (o + nmeta) = total cs := by
    rw [hB.freeblock]
    exact Nat.add_sub_cancel_left _ _
  have hrel : { st1.sb with
      logstart := st1.sb.logstart - o
      inodestart := st1.sb.inodestart - o
      bmapstart := st1.sb.bmapstart - o } = Mkfs.superblock := by
    rw [hsb1]
    simp only [fullSb, Mkfs.superblock, Superblock.mk.injEq, true_and]
    omega
  have hbm : st1.sb.bmapstart = o + 57 := by rw [hsb1]; rfl
  rw [wp_bind, wp_get, ho, hused, hrel, wp_bind, balloc, wp_bind, wp_get,
    if_pos (by simp only [BSIZE]; omega), hbm, wp_wsect,
    wp_wsect, hB.pos (by omega), hB.pos (by omega)]
  -- neither the bitmap nor the superblock is part of a file
  have hdisk : ∀ b, o < b → b ≠ o + 57 → update (update st1.disk (o + 57) (usedBits (total cs)))
      o (superblockBlock Mkfs.superblock) b = st1.disk b := fun b h1 h2 => by
    rw [update_of_ne (by omega), update_of_ne h2]
  have hbm' : update (update st1.disk (o + 57) (usedBits (total cs))) o
    (superblockBlock Mkfs.superblock)
      (o + 57) = usedBits (total cs) := by rw [update_of_ne (by omega), update_self]
  have hsb' : update (update st1.disk (o + 57) (usedBits (total cs))) o
    (superblockBlock Mkfs.superblock) o =
      superblockBlock Mkfs.superblock := update_self ..
  have hout : ∀ b, b < o ∨ o + 1000 ≤ b → update (update st1.disk (o + 57) (usedBits (total cs)))
      o (superblockBlock Mkfs.superblock) b = st1.disk b := fun b hb => by
    rw [update_of_ne (by omega), update_of_ne (by omega)]
  have hlen : ((st1.put .bitmap (o + 57) (usedBits (total cs))).put .superblock o
    (superblockBlock Mkfs.superblock)).len =
      o + 1000 := by
    show max (max st1.len (o + 57 + 1)) (o + 1) = _
    rw [hB.len]
    omega
  have hw : ∀ w ∈ ((st1.put .bitmap (o + 57) (usedBits (total cs))).put .superblock o
      (superblockBlock Mkfs.superblock)).writes, P w := by
    intro w hw
    rcases List.mem_append.1 hw with hw | hw
    · rcases List.mem_append.1 hw with hw | hw
      · exact hB.writes w hw
      · rw [List.mem_singleton.1 hw]
        exact hB.may .bitmap _ rfl
    · rw [List.mem_singleton.1 hw]
      exact hB.may .superblock _ rfl
  have hst : ((st1.put .bitmap (o + 57) (usedBits (total cs))).put .superblock o
    (superblockBlock Mkfs.superblock)).disk =
      update (update st1.disk (o + 57) (usedBits (total cs))) o
        (superblockBlock Mkfs.superblock) := rfl
  generalize update (update st1.disk (o + 57) (usedBits (total cs))) o
    (superblockBlock Mkfs.superblock) = D
    at hdisk hbm' hsb' hout hst
  have hslot' : ∀ i, i < nslots → slot o D i =
      if i = 1 then { slot o st.disk 1 with size := (root.bytes.length / BSIZE + 1) * BSIZE }
      else slot o st.disk i :=
    fun i hi => by rw [slot_congr (fun b h1 h2 => hdisk b (by omega) (by omega)) hi, hslot]
  have haddrs : ∀ i, i < nslots → (slot o D i).addrs = (slot o st.disk i).addrs := fun i hi => by
    rw [hslot' i hi]
    split
    · rename_i h
      rw [h]
    · rfl
  have hO : Own o st1.disk (slot o st.disk) (total cs) := hB.own.table fun i hi => by
    rw [hslot]
    split
    · rename_i h
      rw [h]
    · rfl
  have hun' : ∀ i, i < nslots → Unmoved st.disk D (slot o st.disk i) (slot o st.disk i).size :=
    fun i hi =>
    (hun i hi).trans (hO.unmoved hi ((hun i hi).exact (hH.exact i hi)) fun b hb =>
      hdisk b (by omega) (by omega))
  have hcount := hH.count
  have hnode : ∀ {i : Nat} {c : Node}, cs[i]? = some c → i + 1 < nslots := fun hc => by
    have := (List.getElem?_eq_some_iff.1 hc).1
    omega
  have hblocks : ∀ {i : Nat} {c : Node}, cs[i]? = some c → ∀ bn, (slot o D (i + 1)).fileBlock D bn ≠
      0 ↔ bn * BSIZE < c.bytes.length :=
    fun hc bn => by
      rw [fileBlock_addrs (haddrs _ (hnode hc)), (hun' _ (hnode hc)).block,
        (hH.exact _ (hnode hc)).blocks bn, hH.size hc]
  refine hQ _ ⟨?_, ?_, hle, ?_, fun {i} c hc => ?_, fun {i} c hc => ?_, fun {i} c hc bn => ?_,
    fun {i} c hc bn => ?_, fun {i} c hc q hq => ?_,
    fun i hi hb => ?_, hH.count⟩ ⟨fun b hb => ?_, hf.phase⟩ hlen hw
  · rw [hst, hsb']
    decide
  · rw [hst, hbm']
  · rw [hst]
    have hO' : Own o D (slot o st1.disk) (total cs) := by
      refine hB.own.congr (fun i hi h => ?_) fun b h1 h2 => hdisk b (by omega) (by omega)
      have := hB.own.spread.indirect_range hi h
      exact hdisk _ (by omega) (by omega)
    exact (hO'.table fun i hi => by rw [hslot' i hi, hslot]).own
  · rw [hst, hslot' _ (hnode hc)]
    by_cases hi : i = 0
    · subst hi
      rw [if_pos rfl]
      exact hH.type hc
    · rw [if_neg (by omega)]
      exact hH.type hc
  · rw [hst, hslot' _ (hnode hc)]
    by_cases hi : i = 0
    · subst hi
      rw [if_pos rfl, if_pos rfl]
      obtain rfl := Option.some.inj (hroot.symm.trans hc)
      rfl
    · rw [if_neg (by omega), if_neg hi]
      exact hH.size hc
  · rw [hst]
    exact (hblocks hc bn).2
  · rw [hst]
    exact (hblocks hc bn).1
  · rw [hst, byteAt_addrs (haddrs _ (hnode hc)),
      (hun' _ (hnode hc)).byteAt (by rw [hH.size hc]; exact hq)]
    exact hH.bytes hc q hq
  · have h1 : i ≠ 1 := by
      have := (List.getElem?_eq_some_iff.1 hroot).1
      omega
    rw [hst, hslot' i hi, if_neg h1]
    exact hH.blank i hi hb
  · rw [hst, hout b hb]
    exact hf.outside.disk b hb

/-- The arguments can be written to a partition. -/
structure Fit (args : List Arg) : Prop where
  plain : ∀ a ∈ args, a.Plain
  size : ∀ a ∈ args, a.node.bytes.length ≤ MAXFILE * BSIZE
  blocks : total (tree args) ≤ 942

/-- **`init_partition`** writes the files of its arguments, or fails. -/
theorem initPartition_wp {args : List Arg} (ho : part.offset = o) (hs : part.size = FSSIZE)
    (hlen : st.len ≤ o + 1000)
    (hbound : o + 1000 ≤ 2 ^ 23) (hw : ∀ w ∈ st.writes, P w)
    (hmay : ∀ (a : Area) b, a.Inside o b → P ⟨st.phase, a, b⟩)
    (hn : args.length + 1 < nslots) (hroom : Fit args ∨ o + 1000 < 2 ^ 23 ∧ ∀ e, F e)
    (hQ : ∀ st', Formatted o st'.disk (tree args) → Fit args → Outside o st st' →
      st'.len = o + 1000 →
      (∀ w ∈ st'.writes, P w) → Q () st') : (initPartition part args).wp Q F st := by
  have hdots : dots.length = 32 := by decide
  unfold initPartition
  rw [wp_bind]
  refine openPartition_wp ho hs hlen hbound hw hmay fun st1 hH1 hout1 hsb1 hi1 => ?_
  rw [wp_bind]
  have hn' : args.length + 1 < 208 := hn
  refine rootHandler_wp hH1 hi1 (by simpa using hn) ?_ fun st2 hH2 hf2 hi2 hpl => ?_
  · refine hroom.imp_left fun h => ⟨fun a ha => ⟨h.plain a ha, h.size a ha⟩, ?_, ?_⟩
    · rw [hdots]
      simp only [MAXFILE, BSIZE, NDIRECT, NINDIRECT]
      omega
    · have := h.blocks
      rw [tree, total_cons, length_append, length_entriesFrom] at this
      exact this
  have hfit : Fit args := by
    refine ⟨hpl, fun a ha => ?_, hH2.busy.le⟩
    obtain ⟨j, hj, rfl⟩ := List.getElem_of_mem ha
    have hc : (⟨T_DIR, dots ++ entriesFrom 2 args⟩ :: args.map Arg.node)[j + 1]? =
        some args[j].node := by simp [hj]
    have hj' : j + 1 + 1 < nslots := by show j + 2 < 208; omega
    have := (hH2.exact _ hj').size_le
    rwa [hH2.size hc] at this
  exact closePartition_wp ho hH2 rfl (hf2.sb.trans hsb1) fun st' hF hout hlen' hw' =>
    hQ st' hF hfit ((hout1.trans hf2.outside).trans hout) hlen' hw'

end Os4.Fs.Mkfs
