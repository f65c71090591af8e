import Os4.Mkfs.Apart
/-!
# Holes in a new file system (mkfs.c:239-280, 388-397)

`iappend` takes a block for every `BSIZE` bytes that it appends, so that a file has blocks for its
size and no others (`Exact`). After the last entry is in the root directory, `init_partition` sets
its size to `(size / BSIZE + 1) * BSIZE`. That is the size rounded up unless the entries, of which
there are two more than arguments and 32 in a block, fill their last block. Then it is one block
more than the directory has: **`hole_free_iff`**.
-/
namespace Os4.Fs.Mkfs

variable {o i n : Nat} {disk : Disk} {args : List Arg} {st : State}

-- 1000 sectors are not to be unfolded
attribute [local irreducible] zeroSectors

/-- There is a block for every index below the size, and the size is one that a file can have. -/
def HoleFree (disk : Disk) (d : Dinode) : Prop :=
  (∀ bn, bn < (d.size + BSIZE - 1) / BSIZE → d.fileBlock disk bn ≠ 0) ∧ d.size ≤ MAXFILE * BSIZE

theorem lt_blocks {bn : Nat} : bn < (n + BSIZE - 1) / BSIZE ↔ bn * BSIZE < n := by
  simp only [BSIZE]
  omega

theorem length_root (args : List Arg) :
    (dots ++ entriesFrom 2 args).length = 16 * (args.length + 2) := by
  rw [List.length_append, length_entriesFrom]
  simp only [dots, List.length_append, length_entry]
  omega

/-- A file other than the root has just the blocks of its size. -/
theorem Formatted.hole_free {c : Node} (hF : Formatted o disk (tree args))
    (hc : (tree args)[i]? = some c) (h0 : i ≠ 0)
    (hsmall : c.bytes.length ≤ MAXFILE * BSIZE) : HoleFree disk (slot o disk (i + 1)) := by
  have hs := hF.size hc
  rw [if_neg h0] at hs
  refine ⟨fun bn hbn => hF.mapped hc bn ?_, hs ▸ hsmall⟩
  rw [← hs]
  exact lt_blocks.1 hbn

/-- The root directory has the blocks of its entries, and the size that it was given. -/
theorem Formatted.root (hF : Formatted o disk (tree args)) :
    (slot o disk ROOTINO).size = (16 * (args.length + 2) / BSIZE + 1) * BSIZE ∧
      ∀ bn, (slot o disk ROOTINO).fileBlock disk bn ≠ 0 ↔ bn * BSIZE < 16 * (args.length + 2) := by
  have hc : (tree args)[0]? = some ⟨T_DIR, dots ++ entriesFrom 2 args⟩ := rfl
  have hs := hF.size hc
  rw [if_pos rfl] at hs
  rw [← length_root args]
  exact ⟨hs, fun bn => ⟨hF.only hc bn, hF.mapped hc bn⟩⟩

theorem Formatted.root_hole_free_iff (hF : Formatted o disk (tree args)) (hn : args.length ≤ 206) :
    HoleFree disk (slot o disk ROOTINO) ↔ (args.length + 2) % 32 ≠ 0 := by
  obtain ⟨hs, hblocks⟩ := hF.root
  constructor
  · intro h h0
    -- the block behind the last entry
    have hbn := (hblocks _).1 (h.1 (16 * (args.length + 2) / BSIZE) (lt_blocks.2 (by
      rw [hs]
      simp only [BSIZE]
      omega)))
    simp only [BSIZE] at hbn
    omega
  · intro h0
    refine ⟨fun bn hbn => (hblocks bn).2 ?_, ?_⟩
    · replace hbn := lt_blocks.1 hbn
      rw [hs] at hbn
      simp only [BSIZE] at hbn ⊢
      omega
    · rw [hs]
      simp only [BSIZE, MAXFILE, NDIRECT, NINDIRECT]
      omega

/-- **Holes.** On a run of mkfs to `exit(0)` that keeps its blocks inside the partitions, every
inode of every partition has all its blocks, exactly if the entries of the root directory do not
fill their last block. -/
theorem hole_free_iff {stack : Stack} {bootblock kernel : List UInt8} {mbr : Mbr}
    (h : main stack (some bootblock) (some kernel) args start = .ok (mbr, st))
    (hA : Apart mbr.partitions st.writes) :
    (∀ q ∈ mbr.partitions, ∀ i, i < nslots → HoleFree st.disk (slot q.offset st.disk i)) ↔
    (args.length + 2) % 32 ≠ 0 := by
  obtain ⟨hn, hbound⟩ := hA.bounds h
  have hM := made_of_bounds h hn hbound
  have hfit : Fit args := Prog.wp_ok (Q := fun _ _ => Fit args) (E := fun _ => True)
    (main_wp (P := fun _ => True) (by show _ < 208; omega) hbound (fun _ _ _ _ => trivial)
      (fun _ => trivial) trivial
      (.inr fun _ => trivial) fun _ _ _ hfit => hfit) h
  constructor
  · intro hall
    obtain ⟨q, hq, ho, -⟩ := main_partition h (j := 0) (by decide)
    have hF := hM.formatted 0 (by decide)
    rw [← ho] at hF
    exact (hF.root_hole_free_iff hn).1 (hall q (List.mem_of_getElem? hq) ROOTINO (by decide))
  · intro h0 q hq i hi
    obtain ⟨j, hj⟩ := List.mem_iff_getElem?.1 hq
    have hF : Formatted q.offset st.disk (tree args) := by
      rw [(hM.parts hj).1]
      exact hM.formatted j (hM.length ▸ (List.getElem?_eq_some_iff.1 hj).1)
    by_cases hused : i = 0 ∨ (tree args).length < i
    · rw [hF.blank i hi hused]
      exact ⟨fun bn hbn => absurd hbn (by simp [BSIZE]), Nat.zero_le _⟩
    · obtain ⟨j, rfl⟩ : ∃ j, i = j + 1 := ⟨i - 1, by omega⟩
      have hc : (tree args)[j]? = some (tree args)[j] := List.getElem?_eq_getElem (by omega)
      rcases j with - | j
      · exact (hF.root_hole_free_iff hn).2 h0
      · refine hF.hole_free hc (by omega) ?_
        have hmem : (tree args)[j + 1] ∈ args.map Arg.node := List.getElem_mem ..
        obtain ⟨a, ha, hnode⟩ := List.mem_map.1 hmem
        rw [← hnode]
        exact hfit.size a ha

theorem main_empty (hn : n ≤ 206) : ∃ mbr st, main blankStack (some []) (some [])
    (List.replicate n emptyArg) start = .ok (mbr, st) ∧
    Apart mbr.partitions st.writes ∧
    Made (Tidy (firstSector [])) (firstSector []) [] (List.replicate n emptyArg) mbr st := by
  have hfit : Fit (List.replicate n emptyArg) := by
    refine ⟨fun a ha => ?_, fun a ha => ?_, ?_⟩
    · rw [List.eq_of_mem_replicate ha]
      exact ⟨by decide, rfl⟩
    · rw [List.eq_of_mem_replicate ha]
      decide
    · rw [tree, total_cons, total_empty, length_root, List.length_replicate]
      have := blocksOf_mono (show 16 * (n + 2) ≤ 16 * 208 by omega)
      have h208 : blocksOf (16 * 208) = 7 := by decide
      omega
  have hmain : (main blankStack (some []) (some []) (List.replicate n emptyArg)).wp
      (fun _ _ => True) (fun _ => False) start :=
    main_wp (P := fun _ => True) (by rw [List.length_replicate]; show _ < 208; omega) (by decide)
      (fun _ _ _ _ => trivial)
      (fun _ => trivial) trivial (.inl hfit) fun _ _ _ _ => trivial
  obtain ⟨mbr, st, hrun, -⟩ := Prog.wp_total.1 hmain
  have hlen : (List.replicate n emptyArg).length ≤ 206 := by rwa [List.length_replicate]
  exact ⟨mbr, st, hrun, apart_of_bounds hrun hlen (by decide), made_of_bounds hrun hlen (by decide)⟩

/-- One file, three entries in the root. -/
theorem one_file_hole_free : ∃ mbr st,
    main blankStack (some []) (some []) (List.replicate 1 emptyArg) start = .ok (mbr, st) ∧
    Apart mbr.partitions st.writes ∧
    ∀ q ∈ mbr.partitions, ∀ i, i < nslots → HoleFree st.disk (slot q.offset st.disk i) := by
  obtain ⟨mbr, st, hrun, hA, -⟩ := main_empty (n := 1) (by decide)
  exact ⟨mbr, st, hrun, hA, (hole_free_iff hrun hA).2 (by decide)⟩

/-- With 30 files the root directory gets the size of two blocks and has one. -/
theorem thirty_files_hole : ∃ mbr st q,
    main blankStack (some []) (some []) (List.replicate 30 emptyArg) start = .ok (mbr, st) ∧
    Apart mbr.partitions st.writes ∧ q ∈ mbr.partitions ∧
    (slot q.offset st.disk ROOTINO).size = 2 * BSIZE ∧
    (slot q.offset st.disk ROOTINO).fileBlock st.disk 1 = 0 := by
  obtain ⟨mbr, st, hrun, hA, hM⟩ := main_empty (n := 30) (by decide)
  obtain ⟨q, hq, ho, -⟩ := main_partition hrun (j := 0) (by decide)
  have hF := hM.formatted 0 (by decide)
  rw [← ho] at hF
  obtain ⟨hs, hblocks⟩ := hF.root
  rw [List.length_replicate] at hs hblocks
  exact ⟨mbr, st, q, hrun, hA, List.mem_of_getElem? hq, hs,
    by_contra fun hne => absurd ((hblocks 1).1 hne) (by decide)⟩

end Os4.Fs.Mkfs
