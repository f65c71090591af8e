import Os4.Fs.Bmap
/-!
# The contents of files: `readi` and `writei` (fs.c:547-605)

`content` is the file as a list of bytes. `Wrote` is the effect of the loop of `writei`; it composes
(`Wrote.append`), so that the proof is about one block at a time.
-/
namespace Os4.Fs

open Prog
open Function (update_of_ne)

/-- Byte `j` of a file. -/
def byteAt (disk : Disk) (d : Dinode) (j : Nat) : UInt8 :=
  (disk (d.fileBlock disk (j / BSIZE))).get (j % BSIZE)

def content (disk : Disk) (d : Dinode) : List UInt8 := (List.range d.size).map (byteAt disk d)

/-- The blocks of a file in which the bytes `off .. off + n - 1` lie. -/
def touched (off n : Nat) : Finset Nat :=
  (Finset.range MAXFILE).filter fun bn => bn * BSIZE < off + n ∧ off < bn * BSIZE + BSIZE ∧ 0 < n

/-- How many blocks have to be allocated before the bytes `off .. off + n - 1` can be written. -/
def Dinode.need (d : Dinode) (disk : Disk) (off n : Nat) : Nat :=
  ((touched off n).filter fun bn => d.fileBlock disk bn = 0).card +
    if (∃ bn ∈ touched off n, NDIRECT ≤ bn) ∧ d.indirect = 0 then 1 else 0

variable {E : Env} {p : Int} {N : Nat} {k : Fin NINODE} {i off n bn j : Nat} {s s1 s' : FsState}
  {T T1 T' : Nat → Dinode} {F : Panic → Prop} {d : Dinode} {src src' : List UInt8}

theorem mem_touched : bn ∈ touched off n ↔ bn < MAXFILE ∧ bn * 512 < off + n ∧
    off < bn * 512 + 512 ∧ 0 < n := by
  simp [touched]

/-! ## Reading -/

variable {m : Nat} {disk : Disk}

theorem slice_eq_bytes (hm : off % BSIZE + m ≤ BSIZE) :
    (disk (d.fileBlock disk (off / BSIZE))).slice (off % BSIZE) m = (List.range m).map fun t =>
      byteAt disk d (off + t) := by
  apply List.map_congr_left
  intro t ht
  rw [List.mem_range] at ht
  simp only [BSIZE] at *
  rw [byteAt, show (off + t) / 512 = off / 512 by omega, show (off + t) % 512 =
    off % 512 + t by omega]

theorem readLoop_wp (hd : (s.icache k).din = d) {Q : List UInt8 → FsState → Prop} :
    ∀ fuel off n : Nat, n ≤ fuel →
    (∀ bn, off / BSIZE ≤ bn → bn * BSIZE < off + n → d.fileBlock s.disk bn ≠ 0) →
    ((readLoop E k fuel off n).wp Q F s ↔
      Q ((List.range n).map fun t => byteAt s.disk d (off + t)) s) := by
  intro fuel
  induction fuel generalizing Q with
  | zero =>
    intro off n hn _
    obtain rfl : n = 0 := by omega
    simp [readLoop]
  | succ fuel ih =>
    intro off n hn hmap
    unfold readLoop
    by_cases h0 : n = 0
    · subst h0; simp
    · have hm : min n (BSIZE - off % BSIZE) ≤ n := Nat.min_le_left _ _
      have hpos : 0 < min n (BSIZE - off % BSIZE) := by simp only [BSIZE]; omega
      have hblock : off % BSIZE + min n (BSIZE - off % BSIZE) ≤ BSIZE := by simp only [BSIZE]; omega
      have hfirst : d.fileBlock s.disk (off / BSIZE) ≠ 0 :=
        hmap _ (Nat.le_refl _) (by simp only [BSIZE]; omega)
      rw [if_neg h0, wp_bind, bmap_mapped hd hfirst, wp_bind, wp_bread, wp_bind,
        ih (off + min n (BSIZE - off % BSIZE)) (n - min n (BSIZE - off % BSIZE))
          (by omega) fun bn h1 h2 =>
          hmap bn (Nat.le_trans (Nat.div_le_div_right (by omega)) h1) (by omega), wp_pure,
            slice_eq_bytes hblock]
      have hsplit : n = min n (BSIZE - off % BSIZE) + (n - min n (BSIZE - off % BSIZE)) := by omega
      generalize min n (BSIZE - off % BSIZE) = m at *
      have hl : (List.range n).map (fun t => byteAt s.disk d (off + t)) =
          (List.range m).map (fun t => byteAt s.disk d (off + t)) ++
            (List.range (n - m)).map fun t => byteAt s.disk d (off + m + t) := by
        rw [hsplit, List.range_add, List.map_append, List.map_map]
        simp only [Function.comp_def, Nat.add_assoc, Nat.add_sub_cancel_left]
      rw [hl]

theorem length_content : (content disk d).length = d.size := by simp [content]

theorem bytes_eq_content (h : off + n ≤ d.size) :
    ((List.range n).map fun t => byteAt disk d (off + t)) = ((content disk d).drop off).take n := by
  apply List.ext_getElem?
  intro t
  by_cases ht : t < n
  · rw [List.getElem?_take_of_lt ht, List.getElem?_drop, content, List.getElem?_map,
      List.getElem?_map, List.getElem?_range ht, List.getElem?_range (by omega)]
    rfl
  · rw [List.getElem?_eq_none (by simpa using ht), List.getElem?_eq_none (by simp; omega)]

/-- `off + n` wraps around exactly if it is not below `2^32`. -/
theorem wraps_iff (hoff : off < 2 ^ 32) (hn : n < 2 ^ 32) :
    (off + n) % 2 ^ 32 < off ↔ 2 ^ 32 ≤ off + n := by
  omega

theorem readi_good (hn : n < 2 ^ 32) (ht : (s.icache k).din.type ≠ T_DEV)
    (hd : (s.icache k).din = d)
    (hsolid : ∀ bn, bn * BSIZE < d.size → d.fileBlock s.disk bn ≠ 0) (h : off ≤ d.size)
    (h' : off + n < 2 ^ 32) :
    readi E k off n s =
      .ok (((min n (d.size - off) : Nat),
        ((content s.disk d).drop off).take (min n (d.size - off))), s) := by
  subst hd
  obtain ⟨r, s', hr, rfl, rfl⟩ : ∃ r s', readi E k off n s = .ok (r, s') ∧
      r = (((min n ((s.icache k).din.size - off) : Nat) : Int),
        ((content s.disk (s.icache k).din).drop off).take (min n ((s.icache k).din.size - off))) ∧
        s' = s := by
    rw [← wp_total, readi, wp_bind, wp_inode, if_neg ht, if_neg (by omega)]
    have hlen : (if (s.icache k).din.size < off + n then (s.icache k).din.size - off else n) =
        min n ((s.icache k).din.size - off) := by
      split <;> omega
    rw [hlen, wp_bind, readLoop_wp rfl _ _ _ (Nat.le_refl _) fun bn _ hbn => hsolid bn (by omega),
      wp_pure, bytes_eq_content (by omega)]
    exact ⟨rfl, rfl⟩
  exact hr

/-! ## Writing -/

/-- What the loop of `writei` did: the bytes `src` are in the file at `off`. -/
structure Wrote (E : Env) (p : Int) (N : Nat) (k : Fin NINODE) (i off : Nat)
    (src : List UInt8) (s : FsState)
    (T : Nat → Dinode) (s' : FsState) (T' : Nat → Dinode) : Prop where
  vol : Vol E p N s'.disk T'
  touch : Touch k s s'
  din : (s'.icache k).din = T' i
  table : ∀ i', i' ≠ i → T' i' = T i'
  addrs : T' i = { T i with addrs := (T' i).addrs }
  bytes : ∀ j, (T i).fileBlock s.disk (j / BSIZE) ≠ 0 ∨ (off ≤ j ∧ j < off + src.length) →
    byteAt s'.disk (T' i) j = if off ≤ j ∧ j < off + src.length then src.getD (j - off) 0
    else byteAt s.disk (T i) j
  mapped : ∀ bn ∈ touched off src.length, (T' i).fileBlock s'.disk bn ≠ 0
  stay : (∀ bn ∈ touched off src.length, (T i).fileBlock s.disk bn ≠ 0) → T' i = T i
  keep : ∀ bn, (T i).fileBlock s.disk bn ≠ 0 → (T' i).fileBlock s'.disk bn =
    (T i).fileBlock s.disk bn
  zero : ∀ bn, bn ∉ touched off src.length → (T i).fileBlock s.disk bn = 0 →
    (T' i).fileBlock s'.disk bn = 0
  other : ∀ i' bn, i' ≠ i → Live T i' → (T i').fileBlock s.disk bn ≠ 0 →
    (T i').fileBlock s'.disk bn = (T i').fileBlock s.disk bn ∧
      s'.disk ((T i').fileBlock s.disk bn) = s.disk ((T i').fileBlock s.disk bn)
  indirect : (T i).indirect ≠ 0 → (T' i).indirect = (T i).indirect
  indirect_pos : ∀ bn ∈ touched off src.length, NDIRECT ≤ bn → (T' i).indirect ≠ 0
  outside : ∀ y, y ≠ bmBlock E p → y < E.offset p + 58 ∨ E.offset p + 58 + N ≤ y →
    s'.disk y = s.disk y
  logs : ∀ y, y ∈ s'.curLog ↔ y ∈ s.curLog ∨
    (∃ bn ∈ touched off src.length, y = (T' i).fileBlock s'.disk bn) ∨
    (y = bmBlock E p ∧ ∃ bn ∈ touched off src.length, (T i).fileBlock s.disk bn = 0) ∨
    (y = (T' i).indirect ∧ ∃ bn ∈ touched off src.length, NDIRECT ≤ bn ∧
      (T i).fileBlock s.disk bn = 0)

theorem Wrote.live (hW : Wrote E p N k i off src s T s' T') {i' : Nat} :
    Live T' i' ↔ Live T i' := by
  unfold Live
  by_cases h : i' = i
  · rw [h, hW.addrs]
  · rw [hW.table i' h]

theorem touched_zero : touched off 0 = ∅ := by
  ext bn
  simp [mem_touched]

theorem Wrote.nil (hV : Vol E p N s.disk T) (hd : (s.icache k).din = T i) :
    Wrote E p N k i off [] s T s T where
  vol := hV
  touch := Touch.refl k s
  din := hd
  table _ _ := rfl
  addrs := rfl
  bytes j _ := by rw [if_neg (by simp)]
  mapped bn h := by simp [touched_zero] at h
  stay _ := rfl
  keep _ _ := rfl
  zero _ _ h := h
  other _ _ _ _ _ := ⟨rfl, rfl⟩
  indirect _ := rfl
  indirect_pos bn h := by simp [touched_zero] at h
  outside _ _ _ := rfl
  logs y := by simp [touched_zero]

theorem Wrote.append (hA : Wrote E p N k i off src s T s1 T1)
    (hB : Wrote E p N k i (off + src.length) src' s1 T1 s' T')
    (hunion : ∀ bn, bn ∈ touched off (src ++ src').length ↔
      bn ∈ touched off src.length ∨ bn ∈ touched (off + src.length) src'.length)
    (hdis : ∀ bn, bn ∈ touched off src.length → bn ∉ touched (off + src.length) src'.length)
    (hin : ∀ j, off ≤ j → j < off + src.length → j / BSIZE ∈ touched off src.length) :
    Wrote E p N k i off (src ++ src') s T s' T' := by
  -- a block of the second write is mapped in between exactly if it was before
  have hbetween : ∀ bn ∈ touched (off + src.length) src'.length,
      (T1 i).fileBlock s1.disk bn = 0 ↔ (T i).fileBlock s.disk bn = 0 := by
    intro bn hbn
    constructor
    · intro h; by_contra hne; rw [hA.keep bn hne] at h; exact hne h
    · exact hA.zero bn fun h => hdis bn h hbn
  refine ⟨hB.vol, hA.touch.trans hB.touch, hB.din,
    fun i' h => (hB.table i' h).trans (hA.table i' h), ?_, ?_, ?_, ?_, ?_, ?_, ?_,
    ?_, ?_, fun y h1 h2 => (hB.outside y h1 h2).trans (hA.outside y h1 h2), fun y => ?_⟩
  · rw [hB.addrs, hA.addrs]
  · intro j hj
    rw [List.length_append] at *
    by_cases h1 : off ≤ j ∧ j < off + src.length
    · have hm : (T1 i).fileBlock s1.disk (j / BSIZE) ≠ 0 := hA.mapped _ (hin j h1.1 h1.2)
      rw [hB.bytes j (.inl hm), if_neg (by omega), hA.bytes j (.inr h1), if_pos h1,
        if_pos (by omega), List.getD_append _ _ _ _ (by omega)]
    · by_cases h2 : off + src.length ≤ j ∧ j < off + src.length + src'.length
      · rw [hB.bytes j (.inr h2), if_pos h2, if_pos (by omega),
          List.getD_append_right _ _ _ _ (by omega)]
        congr 1
        omega
      · have hm : (T i).fileBlock s.disk (j / BSIZE) ≠ 0 := hj.resolve_right (by omega)
        have hm1 : (T1 i).fileBlock s1.disk (j / BSIZE) ≠ 0 := by rw [hA.keep _ hm]; exact hm
        rw [hB.bytes j (.inl hm1), if_neg (by omega), hA.bytes j (.inl hm), if_neg h1,
          if_neg (by omega)]
  · intro bn hbn
    rcases (hunion bn).1 hbn with h | h
    · rw [hB.keep bn (hA.mapped bn h)]; exact hA.mapped bn h
    · exact hB.mapped bn h
  · intro h
    rw [hB.stay fun bn hbn => mt (hbetween bn hbn).1 (h bn ((hunion bn).2 (.inr hbn))),
      hA.stay fun bn hbn => h bn ((hunion bn).2 (.inl hbn))]
  · intro bn h
    have := hA.keep bn h
    rw [hB.keep bn (by rw [this]; exact h), this]
  · intro bn hbn h
    rw [hunion] at hbn
    exact hB.zero bn (fun h' => hbn (.inr h')) (hA.zero bn (fun h' => hbn (.inl h')) h)
  · intro i' bn hne hi' h
    obtain ⟨h1, h2⟩ := hA.other i' bn hne hi' h
    have hT : T1 i' = T i' := hA.table i' hne
    obtain ⟨h3, h4⟩ := hB.other i' bn hne (hA.live.2 hi') (by rw [hT, h1]; exact h)
    rw [hT, h1] at h3 h4
    exact ⟨h3, h4.trans h2⟩
  · intro h
    have := hA.indirect h
    rw [hB.indirect (by rw [this]; exact h), this]
  · intro bn hbn hge
    rcases (hunion bn).1 hbn with h | h
    · have := hA.indirect_pos bn h hge
      rw [hB.indirect this]; exact this
    · exact hB.indirect_pos bn h hge
  · rw [hB.logs y, hA.logs y]
    constructor
    · rintro ((h | ⟨bn, hbn, h⟩ | ⟨h, bn, hbn, h0⟩ | ⟨h, bn, hbn, hge, h0⟩) | ⟨bn, hbn, h⟩
        | ⟨h, bn, hbn, h0⟩ |
        ⟨h, bn, hbn, hge, h0⟩)
      · exact .inl h
      · exact .inr (.inl ⟨bn, (hunion bn).2 (.inl hbn),
          by rw [hB.keep bn (hA.mapped bn hbn)]; exact h⟩)
      · exact .inr (.inr (.inl ⟨h, bn, (hunion bn).2 (.inl hbn), h0⟩))
      · refine .inr (.inr (.inr ⟨?_, bn, (hunion bn).2 (.inl hbn), hge, h0⟩))
        rw [hB.indirect (hA.indirect_pos bn hbn hge)]; exact h
      · exact .inr (.inl ⟨bn, (hunion bn).2 (.inr hbn), h⟩)
      · exact .inr (.inr (.inl ⟨h, bn, (hunion bn).2 (.inr hbn), (hbetween bn hbn).1 h0⟩))
      · exact .inr (.inr (.inr ⟨h, bn, (hunion bn).2 (.inr hbn), hge, (hbetween bn hbn).1 h0⟩))
    · rintro (h | ⟨bn, hbn, h⟩ | ⟨h, bn, hbn, h0⟩ | ⟨h, bn, hbn, hge, h0⟩)
      · exact .inl (.inl h)
      · rcases (hunion bn).1 hbn with hbn | hbn
        · exact .inl (.inr (.inl ⟨bn, hbn, by rw [← hB.keep bn (hA.mapped bn hbn)]; exact h⟩))
        · exact .inr (.inl ⟨bn, hbn, h⟩)
      · rcases (hunion bn).1 hbn with hbn | hbn
        · exact .inl (.inr (.inr (.inl ⟨h, bn, hbn, h0⟩)))
        · exact .inr (.inr (.inl ⟨h, bn, hbn, (hbetween bn hbn).2 h0⟩))
      · rcases (hunion bn).1 hbn with hbn | hbn
        · refine .inl (.inr (.inr (.inr ⟨?_, bn, hbn, hge, h0⟩)))
          rw [← hB.indirect (hA.indirect_pos bn hbn hge)]; exact h
        · exact .inr (.inr (.inr ⟨h, bn, hbn, hge, (hbetween bn hbn).2 h0⟩))

/-- The bytes that fit in the block at `off` touch only that block. -/
theorem mem_touched_block (hm : 0 < m) (hfit : off % BSIZE + m ≤ BSIZE)
    (hmax : off + m ≤ MAXFILE * BSIZE) :
    bn ∈ touched off m ↔ bn = off / BSIZE := by
  rw [mem_touched]
  simp only [BSIZE, MAXFILE, NDIRECT, NINDIRECT] at *
  omega

/-- One round of the loop: `bmap`, then the bytes of one block. -/
theorem Bmap.wrote (hB : Bmap E p N k i (off / BSIZE) s T s1 T1) (src : List UInt8) (hi : Live T i)
    (hpos : 0 < src.length)
    (hfit : off % BSIZE + src.length ≤ BSIZE) (hmax : off + src.length ≤ MAXFILE * BSIZE) :
    Wrote E p N k i off src s T (s1.put ((T1 i).fileBlock s1.disk (off / BSIZE))
      ((s1.disk ((T1 i).fileBlock s1.disk (off / BSIZE))).splice (off % BSIZE) src)) T1 := by
  have hmem : ∀ bn, bn ∈ touched off src.length ↔ bn = off / BSIZE := fun bn =>
    mem_touched_block hpos hfit hmax
  have hi1 : Live T1 i := hB.live.2 hi
  have hr := hB.vol.spread.fileBlock_range hi1 hB.mapped
  -- no file is found elsewhere after the write
  have hsame : ∀ i' bn, Live T1 i' →
    (T1 i').fileBlock (Function.update s1.disk ((T1 i).fileBlock s1.disk (off / BSIZE))
      ((s1.disk ((T1 i).fileBlock s1.disk (off / BSIZE))).splice (off % BSIZE) src)) bn =
        (T1 i').fileBlock s1.disk bn :=
    fun i' bn hi' => fileBlock_congr fun _ =>
      update_of_ne (hB.vol.spread.fileBlock_ne_indirect hi1 hi' hB.mapped).symm ..
  refine ⟨hB.vol.write hi1 hB.mapped _, hB.touch.trans touch_put, hB.din, hB.table, hB.addrs,
    fun j hj => ?_, ?_,
    fun h => hB.stay (h _ ((hmem _).2 rfl)), ?_, ?_, ?_, ?_, ?_, ?_, fun y => ?_⟩
  · rw [byteAt, put_disk, hsame i _ hi1]
    by_cases hblock : j / BSIZE = off / BSIZE
    · rw [hblock, Function.update_self, Bytes.get_splice _ _ _ _ (Nat.mod_lt _ (by decide))]
      have hrange : (off % BSIZE ≤ j % BSIZE ∧ j % BSIZE < off % BSIZE + src.length) ↔
          (off ≤ j ∧ j < off + src.length) := by
        simp only [BSIZE] at *; omega
      by_cases hin : off ≤ j ∧ j < off + src.length
      · rw [if_pos (hrange.2 hin), if_pos hin]
        congr 1
        simp only [BSIZE] at *; omega
      · have hf : (T i).fileBlock s.disk (off / BSIZE) ≠ 0 := by
          rw [← hblock]
          exact hj.resolve_right hin
        obtain ⟨h1, h2⟩ := hB.same i _ hi hf
        rw [if_neg (mt hrange.1 hin), if_neg hin, h1, h2, byteAt, hblock]
    · have hnot : ¬ (off ≤ j ∧ j < off + src.length) := by simp only [BSIZE] at *; omega
      have hf := hj.resolve_right hnot
      obtain ⟨h1, h2⟩ := hB.same i _ hi hf
      rw [if_neg hnot, byteAt, update_of_ne, h1, h2]
      intro heq
      exact hblock (hB.vol.spread.fileBlock_inj hi1 hi1 (by rw [h1]; exact hf) heq).2
  · intro bn hbn
    rw [put_disk, hsame i _ hi1, (hmem bn).1 hbn]
    exact hB.mapped
  · intro bn h
    rw [put_disk, hsame i _ hi1]
    exact (hB.same i bn hi h).1
  · intro bn hbn h
    rw [put_disk, hsame i _ hi1]
    exact hB.zero bn (mt (hmem bn).2 hbn) h
  · intro i' bn hne hi' h
    obtain ⟨h1, h2⟩ := hB.same i' bn hi' h
    have h3 := hsame i' bn (hB.live.2 hi')
    have hT := hB.table i' hne
    rw [hT] at h1 h3
    rw [put_disk, h3, h1]
    refine ⟨rfl, ?_⟩
    rw [update_of_ne, h2]
    intro heq
    have hf : (T1 i').fileBlock s1.disk bn = (T i').fileBlock s.disk bn := by rw [hT, h1]
    exact hne (hB.vol.spread.fileBlock_inj (hB.live.2 hi') hi1
      (by rw [hf]; exact h) (hf.trans heq)).1
  · intro h
    exact hB.indirect.resolve_right fun h' => h h'.1
  · intro bn hbn hge
    exact hB.indirect_pos ((hmem bn).1 hbn ▸ hge)
  · intro y h1 h2
    rw [put_disk, update_of_ne (by omega)]
    exact hB.outside y h1 h2
  · rw [put_curLog, List.mem_insert_iff, hB.logs y, put_disk]
    simp only [hsame i _ hi1, hmem, exists_eq_left]
    tauto

theorem mem_touched_rest (hm : m = min n (BSIZE - off % BSIZE)) (hpos : 0 < n)
    (hmax : off + n ≤ MAXFILE * BSIZE) :
    bn ∈ touched off n ↔ bn = off / BSIZE ∨ bn ∈ touched (off + m) (n - m) := by
  rw [mem_touched, mem_touched]
  simp only [BSIZE, MAXFILE, NDIRECT, NINDIRECT] at *
  omega

theorem notMem_touched_rest (hm : m = min n (BSIZE - off % BSIZE)) :
    off / BSIZE ∉ touched (off + m) (n - m) := by
  rw [mem_touched]
  simp only [BSIZE] at *
  omega

theorem need_split {disk' : Disk} {d' : Dinode}
    (hm : m = min n (BSIZE - off % BSIZE)) (hpos : 0 < n) (hmax : off + n ≤ MAXFILE * BSIZE)
    (hzero : ∀ bn, bn ≠ off / BSIZE → (d'.fileBlock disk' bn = 0 ↔ d.fileBlock disk bn = 0))
    (hlow : off / BSIZE < NDIRECT → d'.indirect = d.indirect)
    (hhigh : NDIRECT ≤ off / BSIZE → d'.indirect ≠ 0) :
    d'.need disk' (off + m) (n - m) + d.cost disk (off / BSIZE) = d.need disk off n := by
  have hmem : ∀ bn, bn ∈ touched off n ↔ bn = off / BSIZE ∨ bn ∈ touched (off + m) (n - m) :=
    fun bn =>
    mem_touched_rest hm hpos hmax
  have hnot : off / BSIZE ∉ touched (off + m) (n - m) := notMem_touched_rest hm
  have hset : touched off n = insert (off / BSIZE) (touched (off + m) (n - m)) := by
    ext bn
    rw [hmem, Finset.mem_insert]
  have hfilter : ((touched (off + m) (n - m)).filter fun bn => d'.fileBlock disk' bn = 0) =
      (touched (off + m) (n - m)).filter fun bn => d.fileBlock disk bn = 0 := by
    apply Finset.filter_congr
    intro bn hbn
    exact hzero bn fun h => hnot (h ▸ hbn)
  have hcard : ((touched off n).filter fun bn => d.fileBlock disk bn = 0).card =
      ((touched (off + m) (n - m)).filter fun bn => d.fileBlock disk bn = 0).card +
        if d.fileBlock disk (off / BSIZE) = 0 then 1 else 0 := by
    rw [hset, Finset.filter_insert]
    split
    · rw [Finset.card_insert_of_notMem fun h => hnot (Finset.mem_filter.1 h).1]
    · rfl
  have hflag : (if (∃ bn ∈ touched (off + m) (n - m), NDIRECT ≤ bn) ∧ d'.indirect = 0 then 1
    else 0) + (if NDIRECT ≤ off / BSIZE ∧ d.indirect = 0 then 1 else 0) =
      if (∃ bn ∈ touched off n, NDIRECT ≤ bn) ∧ d.indirect = 0 then 1 else 0 := by
    by_cases hlt : off / BSIZE < NDIRECT
    · have hex : (∃ bn ∈ touched off n, NDIRECT ≤ bn) ↔ ∃ bn ∈ touched (off + m) (n - m),
          NDIRECT ≤ bn := by
        constructor
        · rintro ⟨bn, hbn, hge⟩
          exact ⟨bn, ((hmem bn).1 hbn).resolve_left (by omega), hge⟩
        · rintro ⟨bn, hbn, hge⟩
          exact ⟨bn, (hmem bn).2 (.inr hbn), hge⟩
      simp only [hex, hlow hlt, Nat.not_le.2 hlt, false_and, ↓reduceIte, Nat.add_zero]
    · have hex : ∃ bn ∈ touched off n, NDIRECT ≤ bn := ⟨_, (hmem _).2 (.inl rfl), by omega⟩
      simp only [hex, hhigh (by omega), Nat.not_lt.1 hlt, and_false, true_and,
        ↓reduceIte, Nat.zero_add]
  unfold Dinode.need Dinode.cost
  rw [hfilter, hcard]
  omega

theorem writeLoop_wp (hN : N ≤ 1000) (hoff : E.offset p + 1000 ≤ 2 ^ 28)
    {Q : Unit → FsState → Prop} :
    ∀ {fuel off : Nat} {src : List UInt8} {s : FsState} {T : Nat → Dinode}, src.length ≤ fuel →
    off + src.length ≤ MAXFILE * BSIZE → Vol E p N s.disk T → Live T i → (s.icache k).prt = some p →
    (s.icache k).din = T i → Room E p N s.disk F ((T i).need s.disk off src.length) →
    (s.outstanding = 0 → F .logOutside) → (∀ s' T', Wrote E p N k i off src s T s' T' → Q () s') →
    (writeLoop E k fuel off src).wp Q F s := by
  intro fuel
  induction fuel with
  | zero =>
    intro off src s T hlen _ hV _ _ hd _ _ h
    obtain rfl : src = [] := List.length_eq_zero_iff.1 (by omega)
    exact h s T (Wrote.nil hV hd)
  | succ fuel ih =>
    intro off src s T hlen hmax hV hi hk hd hR hout h
    unfold writeLoop
    by_cases h0 : src = []
    · subst h0
      rw [if_pos rfl, wp_pure]
      exact h s T (Wrote.nil hV hd)
    · have hpos : 0 < src.length := List.length_pos_iff.2 h0
      obtain ⟨m, hm⟩ : ∃ m, m = min src.length (BSIZE - off % BSIZE) := ⟨_, rfl⟩
      have hmpos : 0 < m := by simp only [BSIZE] at hm; omega
      have hmle : m ≤ src.length := by omega
      have hmfit : off % BSIZE + m ≤ BSIZE := by simp only [BSIZE] at *; omega
      have htake : (src.take m).length = m := by rw [List.length_take]; omega
      have hdrop : (src.drop m).length = src.length - m := List.length_drop
      have hbn : off / BSIZE < MAXFILE := by
        simp only [BSIZE, MAXFILE, NDIRECT, NINDIRECT] at *
        omega
      rw [if_neg h0, ← hm, wp_bind]
      refine bmap_wp hV hN hoff hi hk hd hbn (hR.sub (c := 0) rfl ?_) hout fun s1 T1 hB => ?_
      · rw [Nat.add_zero, Dinode.cost, Dinode.need]
        have hmem : off / BSIZE ∈ touched off src.length :=
          (mem_touched_rest hm hpos hmax).2 (.inl rfl)
        have hle : (if (T i).fileBlock s.disk (off / BSIZE) = 0 then 1 else 0) ≤
            ((touched off src.length).filter fun bn => (T i).fileBlock s.disk bn = 0).card := by
          split
          · exact Finset.card_pos.2 ⟨_, Finset.mem_filter.2 ⟨hmem, ‹_›⟩⟩
          · exact Nat.zero_le _
        have hle' : (if NDIRECT ≤ off / BSIZE ∧ (T i).indirect = 0 then 1 else 0) ≤
            if (∃ bn ∈ touched off src.length, NDIRECT ≤ bn) ∧ (T i).indirect = 0 then 1
            else 0 := by
          split
          · rw [if_pos ⟨⟨_, hmem, (‹_ ∧ _› : _ ∧ _).1⟩, (‹_ ∧ _› : _ ∧ _).2⟩]
          · exact Nat.zero_le _
        omega
      · rw [wp_bind, wp_bread, wp_bind, wp_logWrite]
        have hi1 : Live T1 i := hB.live.2 hi
        have hr := hB.vol.spread.fileBlock_range hi1 hB.mapped
        have hA := hB.wrote (src.take m) hi (by omega) (by rw [htake]; exact hmfit)
          (by rw [htake]; omega)
        have hzero : ∀ bn, bn ≠ off / BSIZE →
          ((T1 i).fileBlock (s1.put ((T1 i).fileBlock s1.disk (off / BSIZE))
            ((s1.disk ((T1 i).fileBlock s1.disk (off / BSIZE))).splice (off % BSIZE)
              (src.take m))).disk bn = 0 ↔ (T i).fileBlock s.disk bn = 0) := by
          intro bn hne
          constructor
          · intro hz; by_contra hnz; rw [hA.keep bn hnz] at hz; exact hnz hz
          · refine hA.zero bn fun hmem => hne ?_
            rw [htake] at hmem
            exact (mem_touched_block hmpos hmfit (by omega)).1 hmem
        have hneed := need_split hm hpos hmax hzero
          (fun hlt => hB.indirect.resolve_right fun hx => absurd hx.2.1 (by omega)) hB.indirect_pos
        refine ⟨fun _ => ?_, fun hz => hout (hB.touch.framed.outstanding ▸ hz)⟩
        refine ih (by omega) (by omega) hA.vol hi1 (by rw [hA.touch.slot]; exact hk) hA.din ?_
          (by rw [hA.touch.framed.outstanding]; exact hout) fun s' T' hW => h s' T' ?_
        · rw [hdrop]
          refine hR.sub ?_ (Nat.le_of_eq hneed)
          rw [put_disk, update_of_ne (by show E.offset p + 57 ≠ _; omega)]
          exact hB.room
        · rw [show off + m = off + (src.take m).length by rw [htake]] at hW
          have happ := hA.append hW (fun bn => ?_) (fun bn h1 => ?_) fun j h1 h2 => ?_
          · rw [List.take_append_drop] at happ; exact happ
          · rw [List.take_append_drop, htake, hdrop, mem_touched_block hmpos hmfit (by omega)]
            exact mem_touched_rest hm hpos hmax
          · rw [htake, mem_touched_block hmpos hmfit (by omega)] at h1
            rw [htake, hdrop, h1]
            exact notMem_touched_rest hm
          · rw [htake] at *
            rw [mem_touched_block hmpos hmfit (by omega)]
            simp only [BSIZE] at *; omega

end Os4.Fs
