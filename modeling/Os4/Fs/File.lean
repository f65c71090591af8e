import Os4.Fs.Content
/-!
# `writei` as a whole, and files as byte arrays (fs.c:303-322, 547-605)

| here | there |
| --- | --- |
| `Writei` | what a successful `writei` does to a partition |
| `Consistent` | all partitions are well formed and the cached inodes agree with the disk |
| `overwrite` | the file as an abstract byte array |

A `writei` that is not refused overwrites a byte list (`writei_writes`), on a consistent state with
enough free blocks and a log that has room; `Checked` says what the room of the log means.
-/
namespace Os4.Fs

open Prog
open Function (update_of_ne update_self)

variable {E : Env} {first : Nat} {p q : Int} {N : Nat} {k : Fin NINODE}
  {i j off n bn : Nat} {s s' : FsState}
  {T T' : Nat → Dinode} {F : Panic → Prop} {d : Dinode} {src : List UInt8} {disk disk' : Disk}

/-! ## Inodes on the disk -/

theorem Vol.retable (hV : Vol E p N disk T) (haddrs : ∀ i, (T' i).addrs = (T i).addrs)
    (htype : ∀ i, (T' i).type = 0 ↔ (T i).type = 0)
    (hsize : ∀ i, Live T i → (T' i).size ≤ MAXFILE * BSIZE)
    (hsolid : ∀ i bn, Live T i → bn * BSIZE < (T' i).size → (T i).fileBlock disk bn ≠ 0)
    (hrange : ∀ i, i < NINODES → (T' i).InRange) : Vol E p N disk T' := by
  have hlive : ∀ i, Live T' i ↔ Live T i := fun i => by simp only [Live, ne_eq, htype]
  refine ⟨hV.sb, hV.own.congr (fun _ => rfl) fun x => ?_, fun i h => hsize i ((hlive i).1 h),
    fun i bn h hlt => ?_, hrange⟩
  · simp only [ptr, hlive, block_addrs (haddrs x.1)]
  · rw [fileBlock_addrs (haddrs i)]
    exact hsolid i bn ((hlive i).1 h) hlt

/-- The disk after `iupdate` stored `d` as inode `i`. -/
def updateDisk (E : Env) (p : Int) (disk : Disk) (i : Nat) (d : Dinode) : Disk :=
  Function.update disk (inodeBlock E p i) (putDinode (disk (inodeBlock E p i)) (i % IPB) d)

theorem dinodeAt_update_self (hd : d.InRange) : dinodeAt E (updateDisk E p disk i d) p i = d := by
  rw [dinodeAt, updateDisk, update_self]
  exact getDinode_putDinode_same _ (Nat.mod_lt _ (by decide)) hd

theorem dinodeAt_update_ne (h : j ≠ i) :
    dinodeAt E (updateDisk E p disk i d) p j = dinodeAt E disk p j := by
  unfold dinodeAt updateDisk
  by_cases hb : inodeBlock E p j = inodeBlock E p i
  · have hmod : j % IPB ≠ i % IPB := by
      simp only [inodeBlock, IPB, BSIZE] at *; omega
    rw [hb, update_self, getDinode_putDinode_ne _ _ hmod]
  · rw [update_of_ne hb]

theorem inodeBlock_range (hi : i < NINODES) :
    E.offset p + 31 ≤ inodeBlock E p i ∧ inodeBlock E p i < E.offset p + 57 := by
  simp only [inodeBlock, IPB, BSIZE, NINODES] at *; omega

theorem Vol.update (hV : Vol E p N disk T) (hi : i < NINODES) (d : Dinode) :
    Vol E p N (updateDisk E p disk i d) T := by
  have hlt : E.offset p + 31 ≤ inodeBlock E p i ∧ inodeBlock E p i < E.offset p + 57 :=
    inodeBlock_range hi
  refine hV.congr (update_of_ne (by omega) ..)
    (update_of_ne (by show E.offset p + 57 ≠ _; omega) ..) fun i' hi' h =>
    update_of_ne ?_ ..
  have := hV.spread.indirect_range hi' h
  omega

theorem Vol.fileBlock_update (hV : Vol E p N disk T) (hi : i < NINODES)
    (d : Dinode) (hj : Live T j) :
    (T j).fileBlock (updateDisk E p disk i d) bn = (T j).fileBlock disk bn := by
  have := inodeBlock_range (E := E) (p := p) hi
  refine fileBlock_congr fun h => update_of_ne ?_ ..
  have := hV.spread.indirect_range hj h
  omega

theorem iupdate_wp {Q : Unit → FsState → Prop}
    (hsb : getSuperblock (s.disk (E.offset p)) = Mkfs.superblock)
    (hk : (s.icache k).prt = some p) (hout : s.outstanding = 0 → F .logOutside)
    (h : Q () (s.put (inodeBlock E p (s.icache k).inum)
      (putDinode (s.disk (inodeBlock E p (s.icache k).inum)) ((s.icache k).inum % IPB)
        (s.icache k).din))) :
    (iupdate E k).wp Q F s := by
  unfold iupdate
  rw [wp_bind, wp_inode, hk, wp_bind]
  refine readsb_wp hsb ?_
  have hbno : (s.icache k).inum / IPB + (sbAt (E.offset p)).inodestart =
      inodeBlock E p (s.icache k).inum := by
    show (s.icache k).inum / IPB + (31 + E.offset p) = E.offset p + 31 + (s.icache k).inum / IPB
    omega
  rw [wp_bind, wp_bread, hbno, wp_logWrite]
  exact ⟨fun _ => h, hout⟩

/-! ## `writei` -/

/-- `data` put over a byte list at `off`. -/
def overwrite (l : List UInt8) (off : Nat) (data : List UInt8) : List UInt8 :=
  l.take off ++ data ++ l.drop (off + data.length)

variable {d' : Dinode}

theorem content_eq_overwrite (hoff : off ≤ d.size) (hsize : d'.size = max d.size (off + src.length))
    (hbytes : ∀ j, j < d'.size → byteAt disk' d' j =
      if off ≤ j ∧ j < off + src.length then src.getD (j - off) 0 else byteAt disk d j) :
    content disk' d' = overwrite (content disk d) off src := by
  apply List.ext_getElem?
  intro j
  have hlen : (overwrite (content disk d) off src).length = d'.size := by
    simp only [overwrite, List.length_append, List.length_take, List.length_drop,
      length_content, hsize]
    omega
  by_cases hj : j < d'.size
  · rw [content, List.getElem?_map, List.getElem?_range hj, Option.map_some, hbytes j hj, overwrite,
      List.append_assoc]
    have htake : ((content disk d).take off).length = off := by
      rw [List.length_take, length_content]
      omega
    by_cases h1 : j < off
    · rw [if_neg (by omega), List.getElem?_append_left (by omega),
        List.getElem?_take_of_lt h1, content,
        List.getElem?_map, List.getElem?_range (by omega), Option.map_some]
    · rw [List.getElem?_append_right (by omega), htake]
      by_cases h2 : j < off + src.length
      · rw [if_pos ⟨by omega, h2⟩, List.getElem?_append_left (by omega), List.getD_eq_getElem?_getD,
          List.getElem?_eq_getElem (by omega)]
        rfl
      · rw [if_neg (by omega), List.getElem?_append_right (by omega), List.getElem?_drop, content,
          List.getElem?_map, List.getElem?_range (by omega), Option.map_some]
        congr 2
        omega
  · rw [List.getElem?_eq_none (by rw [length_content]; omega),
      List.getElem?_eq_none (by rw [hlen]; omega)]

theorem content_congr (hsolid : ∀ bn, bn * BSIZE < d.size → d.fileBlock disk bn ≠ 0)
    (hsame : ∀ bn, d.fileBlock disk bn ≠ 0 → d.fileBlock disk' bn = d.fileBlock disk bn ∧
      disk' (d.fileBlock disk bn) = disk (d.fileBlock disk bn)) :
      content disk' d = content disk d := by
  apply List.map_congr_left
  intro j hj
  rw [List.mem_range] at hj
  obtain ⟨h1, h2⟩ := hsame (j / BSIZE) (hsolid _ (by simp only [BSIZE]; omega))
  rw [byteAt, byteAt, h1, h2]

theorem Vol.content_update (hV : Vol E p N disk T) (hi : i < NINODES) (d : Dinode) (hj : Live T j) :
    content (updateDisk E p disk i d) (T j) = content disk (T j) := by
  have := inodeBlock_range (E := E) (p := p) hi
  refine content_congr (fun bn hbn => hV.solid j bn hj hbn) fun bn hbn =>
    ⟨hV.fileBlock_update hi d hj, update_of_ne ?_ ..⟩
  have := hV.spread.fileBlock_range hj hbn
  omega

structure Writei (E : Env) (p : Int) (N : Nat) (k : Fin NINODE) (i off : Nat)
    (src : List UInt8) (s : FsState)
    (T : Nat → Dinode) (s' : FsState) (T' : Nat → Dinode) : Prop where
  vol : Vol E p N s'.disk T'
  touch : Touch k s s'
  din : (s'.icache k).din = T' i
  table : ∀ i', i' ≠ i → T' i' = T i'
  fields : T' i = { T i with addrs := (T' i).addrs, size := max (T i).size (off + src.length) }
  content : content s'.disk (T' i) = overwrite (content s.disk (T i)) off src
  other : ∀ i', i' ≠ i → Live T i' → Os4.Fs.content s'.disk (T i') = Os4.Fs.content s.disk (T i')
  /-- the inode on the disk follows -/
  synced : dinodeAt E s.disk p i = T i → dinodeAt E s'.disk p i = T' i
  dinodes : ∀ j, j < NINODES → j ≠ i → dinodeAt E s'.disk p j = dinodeAt E s.disk p j
  outside : ∀ y, y < E.offset p + 31 ∨ E.offset p + 58 + N ≤ y → s'.disk y = s.disk y
  logs : ∀ y, y ∈ s'.curLog ↔ y ∈ s.curLog ∨
    (∃ bn ∈ touched off src.length, y = (T' i).fileBlock s'.disk bn) ∨
    (y = bmBlock E p ∧ ∃ bn ∈ touched off src.length, (T i).fileBlock s.disk bn = 0) ∨
    (y = (T' i).indirect ∧ ∃ bn ∈ touched off src.length, NDIRECT ≤ bn ∧
      (T i).fileBlock s.disk bn = 0) ∨ (y = inodeBlock E p i ∧ (T i).size < off + src.length)
  mapped : ∀ bn ∈ touched off src.length, (T' i).fileBlock s'.disk bn ≠ 0
  indirect_pos : ∀ bn ∈ touched off src.length, NDIRECT ≤ bn → (T' i).indirect ≠ 0

section

variable (hW : Wrote E p N k i off src s T s' T')
include hW

/-- The bytes of the file after the loop, before the size is set. -/
theorem Wrote.content_eq (hV : Vol E p N s.disk T) (hi : Live T i)
    (hoff : off ≤ (T i).size) (haddrs : d'.addrs = (T' i).addrs)
    (hsize : d'.size = max (T i).size (off + src.length)) :
    content s'.disk d' = overwrite (content s.disk (T i)) off src := by
  have hbyte : ∀ j, byteAt s'.disk d' j = byteAt s'.disk (T' i) j := by
    intro j
    rw [byteAt, byteAt, fileBlock_addrs haddrs]
  refine content_eq_overwrite hoff hsize fun j hj => ?_
  rw [hbyte, hW.bytes]
  by_cases hin : off ≤ j ∧ j < off + src.length
  · exact .inr hin
  · exact .inl (hV.solid i _ hi (by simp only [BSIZE]; omega))

theorem Wrote.other_content (hV : Vol E p N s.disk T) {i' : Nat}
    (hne : i' ≠ i) (hi' : Live T i') : content s'.disk (T i') = content s.disk (T i') :=
  content_congr (fun bn hbn => hV.solid i' bn hi' hbn) fun bn hbn => hW.other i' bn hne hi' hbn

theorem Wrote.dinodes (hj : j < NINODES) :
    dinodeAt E s'.disk p j = dinodeAt E s.disk p j := by
  have := inodeBlock_range (E := E) (p := p) hj
  rw [dinodeAt, dinodeAt, hW.outside _ (by show _ ≠ E.offset p + 57; omega) (.inl (by omega))]

/-- The write ended inside the file: `iupdate` is not called, and was not needed. -/
theorem Wrote.inside (hV : Vol E p N s.disk T) (hi : Live T i)
    (hoff : off ≤ (T i).size) (hend : off + src.length ≤ (T i).size) :
    Writei E p N k i off src s T s' T' := by
  have hstay : T' i = T i := hW.stay fun bn hbn =>
    hV.solid i bn hi (by rw [mem_touched] at hbn; simp only [BSIZE]; omega)
  have hsize : (T' i).size = max (T i).size (off + src.length) := by rw [hstay]; omega
  refine ⟨hW.vol, hW.touch, hW.din, hW.table, ?_, hW.content_eq hV hi hoff rfl hsize,
    fun i' => hW.other_content hV,
    fun h => ?_, fun j hj _ => hW.dinodes hj, fun y hy =>
      hW.outside y (by show _ ≠ E.offset p + 57; omega) (by omega),
    fun y => ?_, hW.mapped, hW.indirect_pos⟩
  · rw [hstay, Nat.max_eq_left hend]
  · rw [hW.dinodes hi.1, h, hstay]
  · rw [hW.logs y]
    have : ¬ (T i).size < off + src.length := by omega
    simp only [this, and_false, or_false]

end

/-- The inode table with the size of inode `i` set to `n`. -/
def setSize (T : Nat → Dinode) (i n : Nat) : Nat → Dinode :=
  Function.update T i { T i with size := n }

theorem setSize_self : setSize T i n i = { T i with size := n } := update_self ..

theorem setSize_ne (h : j ≠ i) : setSize T i n j = T j := update_of_ne h ..

theorem setSize_addrs : (setSize T i n j).addrs = (T j).addrs := by
  by_cases h : j = i
  · rw [h, setSize_self]
  · rw [setSize_ne h]

theorem setSize_type : (setSize T i n j).type = (T j).type := by
  by_cases h : j = i
  · rw [h, setSize_self]
  · rw [setSize_ne h]

theorem live_setSize : Live (setSize T i n) j ↔ Live T j := by
  simp only [Live, setSize_type]

theorem Vol.setSize (hV : Vol E p N disk T) (hmax : n ≤ MAXFILE * BSIZE)
    (hsolid : ∀ bn, bn * BSIZE < n → (T i).fileBlock disk bn ≠ 0) :
    Vol E p N disk (setSize T i n) := by
  refine hV.retable (fun j => setSize_addrs) (fun j => by rw [setSize_type]) (fun j hj => ?_)
    (fun j bn hj hlt => ?_)
    fun j hj => ?_
  · by_cases h : j = i
    · rw [h, setSize_self]; exact hmax
    · rw [setSize_ne h]; exact hV.size j hj
  · by_cases h : j = i
    · rw [h, setSize_self] at hlt; rw [h]; exact hsolid bn hlt
    · rw [setSize_ne h] at hlt; exact hV.solid j bn hj hlt
  · by_cases h : j = i
    · have hr := hV.inRange j hj
      rw [h] at hr
      rw [h, setSize_self]
      refine ⟨hr.type, hr.major, hr.minor, hr.nlink, ?_, hr.addrs⟩
      show n < 2 ^ 32
      simp only [MAXFILE, NDIRECT, NINDIRECT, BSIZE] at hmax
      omega
    · rw [setSize_ne h]; exact hV.inRange j hj

/-- The write went past the end of the file: the size is set and the inode stored. -/
theorem Wrote.past (hW : Wrote E p N k i off src s T s' T')
    (hV : Vol E p N s.disk T) (hi : Live T i)
    (hoff : off ≤ (T i).size) (hend : (T i).size < off + src.length)
    (hmax : off + src.length ≤ MAXFILE * BSIZE) :
    Writei E p N k i off src s T
      ((s'.withDin k (setSize T' i (off + src.length) i)).put (inodeBlock E p i)
        (putDinode (s'.disk (inodeBlock E p i)) (i % IPB) (setSize T' i (off + src.length) i)))
      (setSize T' i (off + src.length)) := by
  have hvol : Vol E p N s'.disk (Os4.Fs.setSize T' i (off + src.length)) := by
    refine hW.vol.setSize hmax fun bn hlt => ?_
    -- the new part of the file was written, the old part had no holes
    by_cases hold : bn * BSIZE < (T i).size
    · rw [hW.keep bn (hV.solid i bn hi hold)]
      exact hV.solid i bn hi hold
    · refine hW.mapped bn (mem_touched.2 ?_)
      simp only [MAXFILE, NDIRECT, NINDIRECT, BSIZE] at *
      omega
  have hi' : Live (Os4.Fs.setSize T' i (off + src.length)) i := live_setSize.2 (hW.live.2 hi)
  have hb := inodeBlock_range (E := E) (p := p) hi.1
  have hfb : ∀ bn, (Os4.Fs.setSize T' i (off + src.length) i).fileBlock
      (updateDisk E p s'.disk i (Os4.Fs.setSize T' i (off + src.length) i)) bn =
        (T' i).fileBlock s'.disk bn :=
    fun bn => (hvol.fileBlock_update hi.1 _ hi').trans (fileBlock_addrs setSize_addrs)
  have hind : (Os4.Fs.setSize T' i (off + src.length) i).indirect = (T' i).indirect := by
    rw [Dinode.indirect, setSize_addrs]; rfl
  refine ⟨hvol.update hi.1 _, (hW.touch.trans touch_withDin).trans touch_put, ?_, fun i' h => ?_,
    ?_, ?_, ?_, fun _ => ?_, ?_, ?_, fun y => ?_, fun bn hbn => ?_, fun bn hbn hge => ?_⟩
  · rw [put_icache, withDin_self]
  · rw [setSize_ne h]; exact hW.table i' h
  · rw [setSize_self, Nat.max_eq_right (Nat.le_of_lt hend), hW.addrs]
  · refine (hvol.content_update hi.1 _ hi').trans (hW.content_eq hV hi hoff setSize_addrs ?_)
    rw [setSize_self]
    show off + src.length = _
    omega
  · intro i' hne hlive
    have h1 := hvol.content_update hi.1 (Os4.Fs.setSize T' i (off + src.length) i)
      (live_setSize.2 (hW.live.2 hlive))
    rw [setSize_ne hne, hW.table i' hne] at h1
    exact h1.trans (hW.other_content hV hne hlive)
  · exact dinodeAt_update_self (hvol.inRange i hi.1)
  · exact fun j hj hne => (dinodeAt_update_ne hne).trans (hW.dinodes hj)
  · intro y hy
    rw [put_disk, update_of_ne (by omega)]
    exact hW.outside y (by show _ ≠ E.offset p + 57; omega) (by omega)
  · rw [put_curLog, withDin_curLog, List.mem_insert_iff, hW.logs y, hind]
    show _ ↔ _ ∨ (∃ bn ∈ _, y =
      (Os4.Fs.setSize T' i (off + src.length) i).fileBlock (updateDisk E p s'.disk i _) bn) ∨ _
    simp only [hfb, hend, and_true]
    rw [or_comm]
    simp only [or_assoc]
  · exact (hfb bn).symm ▸ hW.mapped bn hbn
  · rw [hind]; exact hW.indirect_pos bn hbn hge

/-- `writei` with an offset and a length that the file can have. -/
theorem writei_wp (hV : Vol E p N s.disk T) (hN : N ≤ 1000)
    (hoffset : E.offset p + 1000 ≤ 2 ^ 28) (hi : Live T i)
    (hk : (s.icache k).prt = some p) (hinum : (s.icache k).inum = i) (hd : (s.icache k).din = T i)
    (ht : (T i).type ≠ T_DEV) (hoff : off ≤ (T i).size) (hmax : off + src.length ≤ MAXFILE * BSIZE)
    (hR : Room E p N s.disk F ((T i).need s.disk off src.length))
    (hout : s.outstanding = 0 → F .logOutside)
    {Q : Int → FsState → Prop} (h : ∀ s' T', Writei E p N k i off src s T s' T' → Q src.length s') :
    (writei E k src off).wp Q F s := by
  have hlt : off + src.length < 2 ^ 32 := by
    simp only [MAXFILE, NDIRECT, NINDIRECT, BSIZE] at hmax; omega
  unfold writei
  rw [wp_bind, wp_inode, hd, if_neg ht, if_neg (by omega), if_neg (by omega), wp_bind]
  refine writeLoop_wp hN hoffset (Nat.le_refl _) hmax hV hi hk hd hR hout fun s1 T1 hW => ?_
  have hsize : (T1 i).size = (T i).size := by rw [hW.addrs]
  rw [wp_bind, wp_inode, hW.din, hsize]
  by_cases hend : (T i).size < off + src.length
  · rw [if_pos ⟨by omega, hend⟩, wp_bind, wp_setDin, wp_bind]
    have hinum1 : (s1.icache k).inum = i := by rw [hW.touch.slot]; exact hinum
    refine iupdate_wp (p := p) hW.vol.sb ?_
      (by rw [withDin_outstanding, hW.touch.framed.outstanding]; exact hout) ?_
    · rw [withDin_self, hW.touch.slot]; exact hk
    · rw [wp_pure, withDin_self]
      simp only [hinum1]
      have hpast := hW.past hV hi hoff hend hmax
      rw [setSize_self] at hpast
      exact h _ _ hpast
  · rw [if_neg fun hc => hend hc.2, wp_pure]
    exact h _ _ (hW.inside hV hi hoff (by omega))

/-- What `writei` does with a write outside the file, past the largest size, or with an offset that
wraps around. -/
theorem refused (dev rest : FsM Int) (hoff : off < 2 ^ 32) (hn : n < 2 ^ 32) (ht : d.type ≠ T_DEV)
    (h : d.size < off ∨ 2 ^ 32 ≤ off + n ∨ MAXFILE * BSIZE < off + n) :
    (if d.type = T_DEV then dev else if d.size < off ∨ (off + n) % 2 ^ 32 < off then return -1
      else if MAXFILE * BSIZE < off + n then return -1 else rest) s = .ok (-1, s) := by
  rw [if_neg ht]
  by_cases hbad : d.size < off ∨ (off + n) % 2 ^ 32 < off
  · rw [if_pos hbad]
    rfl
  · rw [if_neg hbad, if_pos]
    · rfl
    · rw [wraps_iff hoff hn] at hbad
      omega

theorem writei_bad (hoff : off < 2 ^ 32) (hn : src.length < 2 ^ 32)
    (ht : (s.icache k).din.type ≠ T_DEV)
    (h : (s.icache k).din.size < off ∨ 2 ^ 32 ≤ off + src.length ∨ MAXFILE * BSIZE <
      off + src.length) :
    writei E k src off s = .ok (-1, s) :=
  refused _ _ hoff hn ht h

/-! ## All partitions -/

theorem Vol.table_congr (hV : Vol E p N disk T) (h : ∀ i, i < NINODES → T' i = T i) :
    Vol E p N disk T' := by
  have hlive : ∀ i, Live T' i ↔ Live T i := by
    intro i
    unfold Live
    constructor
    · rintro ⟨hi, ht⟩; rw [h i hi] at ht; exact ⟨hi, ht⟩
    · rintro ⟨hi, ht⟩; rw [← h i hi] at ht; exact ⟨hi, ht⟩
  refine ⟨hV.sb, hV.own.congr (fun _ => rfl) fun x => ?_, fun i hi => ?_,
    fun i bn hi hlt => ?_, fun i hi => ?_⟩
  · by_cases hx : Live T x.1
    · rw [ptr, ptr, if_pos hx, if_pos ((hlive _).2 hx), h _ hx.1]
    · rw [ptr, ptr, if_neg hx, if_neg (mt (hlive _).1 hx)]
  · rw [h i hi.1]; exact hV.size i ((hlive i).1 hi)
  · rw [h i hi.1] at hlt ⊢; exact hV.solid i bn ((hlive i).1 hi) hlt
  · rw [h i hi]; exact hV.inRange i hi

theorem Vol.frame (hV : Vol E q N disk T) (h : ∀ y, E.offset q ≤ y → y < E.offset q + 58 + N →
    disk' y = disk y) :
    Vol E q N disk' T :=
  hV.congr (h _ (Nat.le_refl _) (by omega))
    (h _ (Nat.le_add_right ..) (by show E.offset q + 57 < _; omega)) fun i hi ha => by
    have := hV.spread.indirect_range hi ha
    exact h _ (by omega) (by omega)

theorem Vol.frame_content (hV : Vol E q N disk T)
    (h : ∀ y, E.offset q ≤ y → y < E.offset q + 58 + N → disk' y = disk y)
    (hj : Live T j) : content disk' (T j) = content disk (T j) := by
  refine content_congr (fun bn hbn => hV.solid j bn hj hbn) fun bn hbn =>
    ⟨fileBlock_congr fun ha => ?_, ?_⟩
  · have := hV.spread.indirect_range hj ha
    exact h _ (by omega) (by omega)
  · have := hV.spread.fileBlock_range hj hbn
    exact h _ (by omega) (by omega)

theorem dinodeAt_frame (hj : j < NINODES)
    (h : ∀ y, E.offset q ≤ y → y < E.offset q + 58 → disk' y = disk y) :
    dinodeAt E disk' q j = dinodeAt E disk q j := by
  have := inodeBlock_range (E := E) (p := q) hj
  rw [dinodeAt, dinodeAt, h _ (by omega) (by omega)]

/-- What a slot of the cache that is in use holds: an inode of a partition or of none, and if it is
loaded, one of a partition as it is on the disk. -/
structure Slot (E : Env) (disk : Disk) (x : Inode) : Prop where
  part : ∀ p, x.prt = some p → IsPart p ∧ x.inum < NINODES
  loaded : x.valid = true → ∃ p, x.prt = some p ∧ x.din = dinodeAt E disk p x.inum ∧ x.din.type ≠ 0

/-- Every partition is well formed, and an inode in use is cached once and as it is on the disk. -/
structure Consistent (E : Env) (s : FsState) : Prop where
  vol : ∀ p, IsPart p → Vol E p Mkfs.superblock.nblocks s.disk (dinodeAt E s.disk p)
  slot : ∀ k, 0 < (s.icache k).ref → Slot E s.disk (s.icache k)
  unique : ∀ k k', 0 < (s.icache k).ref → 0 < (s.icache k').ref → (s.icache k).prt =
    (s.icache k').prt → (s.icache k).inum = (s.icache k').inum → k = k'

variable {E' : Env}

theorem dinodeAt_env (h : E'.offset = E.offset) : dinodeAt E' = dinodeAt E := by
  unfold dinodeAt inodeBlock
  rw [h]

theorem Vol.env (hV : Vol E p N disk T) (h : E'.offset = E.offset) : Vol E' p N disk T where
  sb := by rw [h]; exact hV.sb
  own := by
    show Owned (disk (E'.offset p + 57)).bit (E'.offset p + 58) N (ptr disk T)
    rw [h]
    exact hV.own
  size := hV.size
  solid := hV.solid
  inRange := hV.inRange

theorem Slot.live {x : Inode} (h : Slot E disk x) (hprt : x.prt = some p) (hv : x.valid = true) :
    IsPart p ∧ Live (dinodeAt E disk p) x.inum ∧ x.din = dinodeAt E disk p x.inum := by
  obtain ⟨hp, hi⟩ := h.part p hprt
  obtain ⟨q, hq, hd, ht⟩ := h.loaded hv
  obtain rfl : q = p := Option.some.inj (hq.symm.trans hprt)
  exact ⟨hp, ⟨hi, by rw [← hd]; exact ht⟩, hd⟩

theorem Consistent.env (hC : Consistent E s) (h : E'.offset = E.offset) : Consistent E' s where
  vol p hp := by rw [dinodeAt_env h]; exact (hC.vol p hp).env h
  slot k hk := ⟨(hC.slot k hk).part, by rw [dinodeAt_env h]; exact (hC.slot k hk).loaded⟩
  unique := hC.unique

/-- The contents of inode `i` of partition `p`. -/
def fileOf (E : Env) (s : FsState) (p : Int) (i : Nat) : List UInt8 :=
  content s.disk (dinodeAt E s.disk p i)

/-- The data blocks of `p` that are free. -/
def freeBlocks (E : Env) (s : FsState) (p : Int) : Nat :=
  clearCount (s.disk (bmBlock E p)).bit Mkfs.superblock.nblocks

/-- Inode `j` of `q` and its contents are as they were. -/
def SameFile (E : Env) (s s' : FsState) (q : Int) (j : Nat) : Prop :=
  dinodeAt E s'.disk q j = dinodeAt E s.disk q j ∧
  (Live (dinodeAt E s.disk q) j → fileOf E s' q j = fileOf E s q j)

/-- On the disk only inode `i` of `p` and its blocks changed. -/
structure Changed (E : Env) (p : Int) (i : Nat) (s s' : FsState) : Prop where
  vol : Vol E p Mkfs.superblock.nblocks s'.disk (dinodeAt E s'.disk p)
  outside : ∀ y, y < E.offset p ∨ E.offset p + 1000 ≤ y → s'.disk y = s.disk y
  dinodes : ∀ j, j < NINODES → j ≠ i → dinodeAt E s'.disk p j = dinodeAt E s.disk p j
  content : ∀ j, j ≠ i → Live (dinodeAt E s.disk p) j →
    content s'.disk (dinodeAt E s.disk p j) = content s.disk (dinodeAt E s.disk p j)

namespace Changed

variable (hL : Laid E first) (hC : Consistent E s) (hp : IsPart p) (h : Changed E p i s s')
include hL hC hp h

omit hC in
theorem frame (hq : IsPart q) (hne : q ≠ p) :
    ∀ y, E.offset q ≤ y → y < E.offset q + 58 + Mkfs.superblock.nblocks → s'.disk y = s.disk y := by
  intro y h1 h2
  have hnb : Mkfs.superblock.nblocks = 942 := rfl
  have := hL.disjoint hq hp hne
  exact h.outside y (by omega)

theorem sameFile (hq : IsPart q) (hj : j < NINODES) (hne : (q, j) ≠ (p, i)) :
    SameFile E s s' q j := by
  by_cases hqp : q = p
  · subst hqp
    have hji : j ≠ i := fun h => hne (by rw [h])
    have hd := h.dinodes j hj hji
    refine ⟨hd, fun hlive => ?_⟩
    rw [fileOf, fileOf, hd]
    exact h.content j hji hlive
  · have hd : dinodeAt E s'.disk q j = dinodeAt E s.disk q j :=
      dinodeAt_frame hj fun y h1 h2 => h.frame hL hp hq hqp y h1 (by omega)
    refine ⟨hd, fun hlive => ?_⟩
    rw [fileOf, fileOf, hd]
    exact (hC.vol q hq).frame_content (h.frame hL hp hq hqp) hlive

theorem slot {x : Inode} (hx : Slot E s.disk x) (hne : (x.prt, x.inum) ≠ (some p, i)) :
    Slot E s'.disk x := by
  refine ⟨hx.part, fun hv => ?_⟩
  obtain ⟨q, hq, hd, ht⟩ := hx.loaded hv
  obtain ⟨hpart, hj⟩ := hx.part q hq
  refine ⟨q, hq, ?_, ht⟩
  rw [(h.sameFile hL hC hp hpart hj fun heq => hne ?_).1]
  · exact hd
  · obtain ⟨rfl, rfl⟩ := Prod.mk.inj heq
    rw [hq]

theorem consistent
    (hslot : ∀ k, 0 < (s'.icache k).ref → Slot E s'.disk (s'.icache k))
    (huniq : ∀ k k', 0 < (s'.icache k).ref → 0 < (s'.icache k').ref → (s'.icache k).prt =
      (s'.icache k').prt →
      (s'.icache k).inum = (s'.icache k').inum → k = k') : Consistent E s' := by
  refine ⟨fun q hq => ?_, hslot, huniq⟩
  by_cases hqp : q = p
  · subst hqp; exact h.vol
  · exact ((hC.vol q hq).frame (h.frame hL hp hq hqp)).table_congr fun j hj =>
      (h.sameFile hL hC hp hq hj (by simp [hqp])).1

end Changed

/-- What a successful `writei` means for the file system. -/
structure Overwrote (E : Env) (p : Int) (k : Fin NINODE) (off : Nat) (data : List UInt8)
    (s s' : FsState) : Prop where
  consistent : Consistent E s'
  touch : Touch k s s'
  file : fileOf E s' p (s.icache k).inum = overwrite (fileOf E s p (s.icache k).inum) off data
  size : (dinodeAt E s'.disk p (s.icache k).inum).size =
    max (dinodeAt E s.disk p (s.icache k).inum).size (off + data.length)
  type : (dinodeAt E s'.disk p (s.icache k).inum).type =
    (dinodeAt E s.disk p (s.icache k).inum).type
  din : (s'.icache k).din = dinodeAt E s'.disk p (s.icache k).inum
  other : ∀ q j, IsPart q → j < NINODES → (q, j) ≠ (p, (s.icache k).inum) → SameFile E s s' q j

variable {data : List UInt8}

theorem Overwrote.env (hO : Overwrote E p k off data s s') (h : E'.offset = E.offset) :
    Overwrote E' p k off data s s' := by
  have hd := dinodeAt_env h
  refine ⟨hO.consistent.env h, hO.touch, ?_, ?_, ?_, ?_, ?_⟩
  · unfold fileOf; rw [hd]; exact hO.file
  · rw [hd]; exact hO.size
  · rw [hd]; exact hO.type
  · rw [hd]; exact hO.din
  · unfold SameFile fileOf; rw [hd]; exact hO.other

theorem vol_blank (hsb : getSuperblock (disk (E.offset p)) = Mkfs.superblock)
    (hbm : disk (bmBlock E p) = Bytes.zero)
    (hT : ∀ i, i < NINODES → (T i).addrs = (fun _ => 0) ∧ (T i).size = 0 ∧ (T i).InRange) :
    Vol E p N disk T := by
  have hzero : ∀ x, ptr disk T x = 0 := by
    rintro ⟨i, l⟩
    unfold ptr
    split
    · rename_i hi
      exact block_blank (hT i hi.1).1
    · rfl
  refine ⟨hsb, ⟨fun x hx => absurd (hzero x) hx, fun x _ hx => absurd (hzero x) hx, fun j => ?_⟩,
    fun i hi => ?_, fun i bn hi hlt => ?_, fun i hi => (hT i hi).2.2⟩
  · rw [hbm, Bytes.bit_zero]
    simp only [Bool.false_eq_true, hzero, false_iff, not_exists]
    omega
  · rw [(hT i hi.1).2.1]; exact Nat.zero_le _
  · rw [(hT i hi.1).2.1] at hlt; omega

/-- An empty file with one link. -/
def demoInode : Dinode := ⟨T_FILE, 0, 0, 1, 0, fun _ => 0⟩

/-- Four partitions on which only inode 1 of the first is in use. -/
def demoDisk : Disk := fun b =>
  if b % 1000 = 100 then superblockBlock Mkfs.superblock
  else if b = 131 then putDinode Bytes.zero 1 demoInode else Bytes.zero

/-- The inode is loaded in slot 0. -/
def demoState : FsState :=
  { idleState demoDisk with
    icache := Function.update (fun _ => blankInode) 0 ⟨1, 1, true, true, some 0, demoInode⟩ }

theorem inRange_demoInode : demoInode.InRange :=
  ⟨by decide, by decide, by decide, by decide, by decide, fun _ => Nat.two_pow_pos 32⟩

theorem getDinode_zero (k : Nat) : getDinode Bytes.zero k = ⟨0, 0, 0, 0, 0, fun _ => 0⟩ := by
  simp only [getDinode, Bytes.getLE_zero]
  rfl

theorem dinodeAt_demoDisk (i : Nat) (hi : i < NINODES) : dinodeAt demoEnv demoDisk p i = demoInode ∨
    dinodeAt demoEnv demoDisk p i = ⟨0, 0, 0, 0, 0, fun _ => 0⟩ := by
  have hb : inodeBlock demoEnv p i = 131 + 1000 * p.toNat + i / 8 := by
    show 100 + 1000 * p.toNat + 31 + i / 8 = _
    omega
  simp only [NINODES] at hi
  unfold dinodeAt demoDisk
  rw [hb, if_neg (by omega)]
  split
  · by_cases h1 : i % IPB = 1
    · left; rw [h1]; exact getDinode_putDinode_same _ (by decide) inRange_demoInode
    · right; rw [getDinode_putDinode_ne _ _ h1]; exact getDinode_zero _
  · right; exact getDinode_zero _

theorem dinodeAt_demoDisk_one : dinodeAt demoEnv demoDisk 0 1 = demoInode :=
  getDinode_putDinode_same _ (by decide) inRange_demoInode

theorem slot_demoState (hk : 0 < (demoState.icache k).ref) : k = 0 := by
  by_contra h
  have hblank : demoState.icache k = blankInode := update_of_ne h _ (fun _ => blankInode)
  rw [hblank] at hk
  exact absurd hk (by decide)

theorem freeBlocks_demoDisk :
    clearCount (demoDisk (bmBlock demoEnv 0)).bit Mkfs.superblock.nblocks = 942 := by
  have hbm : demoDisk (bmBlock demoEnv 0) = Bytes.zero := rfl
  simp [clearCount, hbm]
  rfl

theorem consistent_demoState : Consistent demoEnv demoState := by
  refine ⟨fun p hp => ?_, fun k hk => ?_,
    fun k k' hk hk' _ _ => (slot_demoState hk).trans (slot_demoState hk').symm⟩
  · have hsb : demoDisk (demoEnv.offset p) = superblockBlock Mkfs.superblock :=
      if_pos (by show (100 + 1000 * p.toNat) % 1000 = 100; omega)
    have hbm : demoDisk (bmBlock demoEnv p) = Bytes.zero := by
      unfold demoDisk
      rw [show bmBlock demoEnv p =
        157 + 1000 * p.toNat by show 100 + 1000 * p.toNat + 57 = _; omega,
        if_neg (by omega), if_neg (by omega)]
    refine vol_blank (by show getSuperblock (demoDisk (demoEnv.offset p)) = _; rw [hsb]; decide)
      hbm fun i hi => ?_
    rcases dinodeAt_demoDisk (p := p) i hi with h | h
    · show (dinodeAt demoEnv demoDisk p i).addrs = _ ∧ _
      rw [show dinodeAt demoEnv demoState.disk p i = demoInode from h, h]
      exact ⟨rfl, rfl, inRange_demoInode⟩
    · show (dinodeAt demoEnv demoDisk p i).addrs = _ ∧ (dinodeAt demoEnv demoDisk p i).size = 0 ∧
        (dinodeAt demoEnv demoDisk p i).InRange
      rw [h]
      exact ⟨rfl, rfl, by decide, by decide, by decide, by decide, by decide,
        fun _ => Nat.two_pow_pos 32⟩
  · obtain rfl := slot_demoState hk
    refine ⟨fun p hp => ?_, fun _ => ⟨0, rfl, dinodeAt_demoDisk_one.symm, by decide⟩⟩
    obtain rfl : 0 = p := Option.some.inj hp
    exact ⟨by decide, by decide⟩

theorem need_le (disk : Disk) : d.need disk off n ≤ MAXFILE + 1 := by
  have h1 : ((touched off n).filter fun bn => d.fileBlock disk bn = 0).card ≤ MAXFILE :=
    (Finset.card_filter_le _ _).trans
      ((Finset.card_filter_le _ _).trans (Nat.le_of_eq (Finset.card_range _)))
  unfold Dinode.need
  split <;> omega

end Os4.Fs
