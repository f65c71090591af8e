import Os4.Mkfs.Apart
import Os4.Fs.Plain
/-!
# The kernel reads what mkfs wrote

| here | there |
| --- | --- |
| `mbrOffset` | `part[i].offset` as `readmbr` copies it from block 0 (fs.c:80-104) |
| `readNamed` | `iget`, `ilock` of the root of a partition, `dirlookup`, then `ilock` and `readi` of the file found |

mkfs and the kernel share only the declarations of `fs.h`. **`mkfs_readable`**: for arguments with
different names, none of them `.` or `..`, that fit a partition, a kernel that has just booted from
the image finds every one in the root of every partition that it can reach and reads it back, and
its bitmap marks the blocks that inodes refer to. An argument `_.` is stored as `.`, which the root
has twice then (`mkfs_dot_hidden`).

`idestart` panics for the blocks from `FSSIZE*4` on (ide.c:76-79), which `bread` leaves out. The
partitions lie behind the kernel's sectors, so the end of the last one is always there; a partition
counts only if what mkfs used of it lies below, and nothing read depends on what is above.
-/
namespace Os4.Fs.Mkfs

open Prog

variable {o i n : Nat} {disk : Disk} {d : Dinode} {args : List Arg} {E : Env} {p : Int}
  {k : Fin NINODE} {s : FsState} {name : List UInt8} {F : Panic → Prop}

/-! ## The bitmap -/

theorem bit_usedBits {j : Nat} : ∀ {n : Nat}, n ≤ 4096 → (usedBits n).bit j = decide (j < n)
  | 0, _ => by
    rw [usedBits, Bytes.bit_zero]
    simp
  | n + 1, h => by
    rw [usedBits, Bytes.bit_setBit _ _ (by simp only [BSIZE]; omega),
      bit_usedBits (by omega), ← Bool.decide_or]
    exact decide_eq_decide.2 (by omega)

theorem dinodeAt_eq_slot : dinodeAt E disk p i = slot (E.offset p) disk i := rfl

theorem type_tree {c : Node} (h : (tree args)[i]? = some c) : c.type = T_DIR ∨ c.type = T_FILE := by
  cases i with
  | zero =>
    obtain rfl := Option.some.inj h
    exact .inl rfl
  | succ i =>
    obtain ⟨a, -, rfl⟩ := List.mem_map.1 (List.mem_of_getElem? h)
    exact .inr rfl

theorem Formatted.live (hF : Formatted (E.offset p) disk (tree args)) (hi : i < nslots) :
    (dinodeAt E disk p i).type ≠ 0 ↔ 0 < i ∧ i ≤ (tree args).length := by
  rw [dinodeAt_eq_slot]
  constructor
  · intro h
    by_contra hn
    rw [hF.blank i hi (by omega)] at h
    exact h rfl
  · rintro ⟨h1, h2⟩
    have hc : (tree args)[i - 1]? = some (tree args)[i - 1] := List.getElem?_eq_getElem (by omega)
    have ht := hF.type hc
    rw [Nat.sub_add_cancel h1] at ht
    rw [ht]
    rcases type_tree hc with h | h <;> rw [h] <;> decide

theorem Formatted.owned (hF : Formatted (E.offset p) disk (tree args))
    (hn : args.length + 1 < NINODES) :
    Owned (disk (bmBlock E p)).bit (E.offset p + 58) 942 (ptr disk (dinodeAt E disk p)) := by
  have hle := hF.le
  have hlen : (tree args).length = args.length + 1 := by simp [tree]
  refine (hF.own.mono hle).congr (fun j => ?_) fun y => ?_
  · rw [show disk (bmBlock E p) = usedBits (total (tree args)) from hF.bitmap]
    exact bit_usedBits (by omega)
  · have hN : NINODES < nslots := by decide
    by_cases hy : y.1 < nslots
    · rw [ptrs, if_pos hy, ptr]
      by_cases hl : 0 < y.1 ∧ y.1 ≤ (tree args).length
      · rw [if_pos ⟨by omega, (hF.live hy).2 hl⟩]
        rfl
      · rw [if_neg fun h => hl ((hF.live hy).1 h.2), hF.blank _ hy (by omega), block_blank rfl]
    · rw [ptrs, if_neg hy, ptr, if_neg fun h => hy (by have := h.1; omega)]

/-! ## Names -/

theorem nameOf_strncpy (l : List UInt8) : nameOf (strncpy l DIRSIZ) = nameOf l := by
  have htake : (strncpy l DIRSIZ).take DIRSIZ =
      l.take DIRSIZ ++ List.replicate (DIRSIZ - l.length) 0 := by
    rw [strncpy, List.take_of_length_le]
    rw [List.length_append, List.length_take, List.length_replicate]
    omega
  rw [nameOf, nameOf, htake, List.takeWhile_append]
  have hz : (List.replicate (DIRSIZ - l.length) (0 : UInt8)).takeWhile (· ≠ 0) = [] := by
    rw [List.takeWhile_replicate]
    simp
  rw [hz, List.append_nil]
  split
  · rename_i h
    exact ((List.takeWhile_prefix _).eq_of_length h).symm
  · rfl

theorem getDirent_entry (n : Nat) (l : List UInt8) (hn : n < 2 ^ 16) :
    getDirent (direntBytes ⟨n, strncpy l DIRSIZ⟩) = ⟨n, strncpy l DIRSIZ⟩ := by
  have h1 : (direntBytes ⟨n, strncpy l DIRSIZ⟩).take 2 = Bytes.natLe 2 n :=
    List.take_left' (by simp)
  have h2 : ((direntBytes ⟨n, strncpy l DIRSIZ⟩).drop 2).take DIRSIZ = strncpy l DIRSIZ := by
    rw [direntBytes, List.drop_left' (by simp), List.take_of_length_le (by rw [length_strncpy])]
  rw [getDirent, h1, h2, Bytes.leNat_natLe, Nat.mod_eq_of_lt (by omega)]

/-- Number and name of every entry of the root. -/
def rootEntries (args : List Arg) : List (Nat × List UInt8) :=
  (ROOTINO, dot) :: (ROOTINO, dotdot) :: args.mapIdx fun j a => (j + 2, a.stored)

theorem entriesFrom_eq : ∀ (n : Nat) (args : List Arg),
    entriesFrom n args = (args.mapIdx fun j a => (j + n, a.stored)).flatMap fun e =>
      direntBytes ⟨e.1, strncpy e.2 DIRSIZ⟩
  | n, [] => rfl
  | n, a :: rest => by
    rw [entriesFrom, entriesFrom_eq (n + 1) rest, List.mapIdx_cons, List.flatMap_cons, Nat.zero_add]
    simp only [Nat.add_assoc, Nat.add_comm 1 n]

theorem root_bytes (args : List Arg) :
    dots ++ entriesFrom 2 args = (rootEntries args).flatMap fun e =>
      direntBytes ⟨e.1, strncpy e.2 DIRSIZ⟩ := by
  rw [rootEntries, List.flatMap_cons, List.flatMap_cons, entriesFrom_eq, dots, List.append_assoc]

/-! ## Reading -/

/-- A read of bytes that all have a block, of a file that may have holes further on. -/
theorem readi_inside {off n : Nat} (hd : (s.icache k).din = d) (ht : d.type ≠ T_DEV)
    (hn : off + n ≤ d.size) (h32 : d.size < 2 ^ 32)
    (hmap : ∀ bn, bn * BSIZE < off + n → d.fileBlock s.disk bn ≠ 0) :
    readi E k off n s = .ok (((n : Int), (List.range n).map fun t => byteAt s.disk d (off + t)),
      s) := by
  subst hd
  obtain ⟨r, s', hr, rfl, rfl⟩ : ∃ r s', readi E k off n s = .ok (r, s') ∧
      r = ((n : Int), (List.range n).map fun t => byteAt s.disk (s.icache k).din (off + t)) ∧
      s' = s := by
    rw [← wp_total, readi, wp_bind, wp_inode, if_neg ht, if_neg (by omega),
      if_neg (by omega), wp_bind,
      readLoop_wp rfl _ _ _ (Nat.le_refl _) fun bn _ hbn => hmap bn hbn, wp_pure]
    exact ⟨rfl, rfl⟩
  exact hr

/-- The directory has the entries `es` at its beginning, and blocks for them. -/
structure Lists (s : FsState) (k : Fin NINODE) (d : Dinode) (es : List (Nat × List UInt8)) :
    Prop where
  din : (s.icache k).din = d
  type : d.type ≠ T_DEV
  small : d.size < 2 ^ 32
  size : 16 * es.length ≤ d.size
  mapped : ∀ bn, bn * BSIZE < 16 * es.length → d.fileBlock s.disk bn ≠ 0
  inum : ∀ e ∈ es, e.1 < 2 ^ 16
  bytes : ∀ q, q < 16 * es.length → byteAt s.disk d q =
    (es.flatMap fun e => direntBytes ⟨e.1, strncpy e.2 DIRSIZ⟩).getD q 0

variable {t : Nat} {es : List (Nat × List UInt8)}

theorem Lists.read (hL : Lists s k d es) (ht : t < es.length) :
    readi E k (16 * t) 16 s = .ok ((16, direntBytes ⟨es[t].1, strncpy es[t].2 DIRSIZ⟩), s) := by
  have hfit : 16 * t + 16 ≤ 16 * es.length := by omega
  have hsize := hL.size
  rw [readi_inside hL.din hL.type (by omega) hL.small fun bn hbn => hL.mapped bn (by omega)]
  have hentry := take_drop_flatMap (f := fun e : Nat × List UInt8 =>
    direntBytes ⟨e.1, strncpy e.2 DIRSIZ⟩)
    (fun e => length_entry e.1 e.2) es t ht
  have hlen : (es.flatMap fun e => direntBytes ⟨e.1, strncpy e.2 DIRSIZ⟩).length =
      16 * es.length := by
    rw [List.length_flatMap]
    simp only [length_entry, List.map_const', List.sum_replicate, smul_eq_mul]
    omega
  congr 3
  rw [← hentry]
  apply List.ext_getElem?
  intro q
  by_cases hq : q < 16
  · rw [List.getElem?_map, List.getElem?_range hq, Option.map_some, hL.bytes _ (by omega),
      List.getElem?_take_of_lt hq,
      List.getElem?_drop, List.getD_eq_getElem?_getD,
      List.getElem?_eq_getElem (by omega), Option.getD_some]
  · rw [List.getElem?_eq_none (by simpa using hq),
      List.getElem?_eq_none (by rw [List.length_take]; omega)]

theorem Lists.dirScan (hL : Lists s k d es) (ht : t < es.length) (h0 : es[t].1 ≠ 0)
    (hname : nameOf name = nameOf es[t].2)
    (hfirst : ∀ (j : Nat) (hj : j < es.length), j < t → nameOf name ≠ nameOf es[j].2) :
    ∀ {fuel j : Nat}, j ≤ t → t < fuel + j →
    Fs.dirScan E k name fuel (16 * j) s = .ok (some (16 * t, es[t].1), s) := by
  intro fuel
  induction fuel with
  | zero => intro j h1 h2; omega
  | succ fuel ih =>
    intro j hj hfuel
    have hlt : j < es.length := by omega
    have hsize := hL.size
    have hcmp : ∀ (i : Nat) (hi : i < es.length),
        namecmp name (getDirent (direntBytes ⟨es[i].1, strncpy es[i].2 DIRSIZ⟩)).name = 0 ↔
        nameOf name = nameOf es[i].2 :=
      fun i hi => by
        rw [getDirent_entry _ _ (hL.inum _ (List.getElem_mem hi)), namecmp_eq_zero, nameOf_strncpy]
    unfold Fs.dirScan
    rw [inode_bind, hL.din, if_pos (by omega), bind_of_ok (hL.read hlt)]
    dsimp only
    rw [if_neg (by decide)]
    by_cases hjt : j = t
    · subst hjt
      have hde := getDirent_entry es[j].1 es[j].2 (hL.inum _ (List.getElem_mem hlt))
      rw [if_pos ⟨by rw [hde]; exact h0, (hcmp j hlt).2 hname⟩, hde]
      rfl
    · rw [if_neg fun h => hfirst j hlt (by omega) ((hcmp j hlt).1 h.2), show 16 * j + 16 =
        16 * (j + 1) by omega]
      exact ih (by omega) (by omega)

/-! ## A kernel that has just booted -/

def mbrOffset (x : Block) (i : Nat) : Nat := x.getLE (BOOTSTRAP + 16 * i + 8) 4

/-- The kernel took its partitions from the MBR of the image; nothing is cached or mounted yet. -/
structure Booted (E : Env) (disk : Disk) (s : FsState) : Prop where
  offset : ∀ p, IsPart p → E.offset p = mbrOffset (disk 0) p.toNat
  disk : s.disk = disk
  fresh : ∀ k, (s.icache k).ref = 0
  unmounted : ∀ it ∈ s.mounts, it.oldPrt = none

/-- Size and bytes of the file in slot `ip`. -/
def readWhole (E : Env) (ip : Fin NINODE) : FsM (Nat × List UInt8) := do
  ilock E ip
  let x ← inode ip
  let (_, l) ← readi E ip 0 x.din.size
  return (x.din.size, l)

/-- Size and bytes of the file called `name` in the root of partition `p`. -/
def readNamed (E : Env) (p : Int) (name : List UInt8) : FsM (Option (Nat × List UInt8)) := do
  let root ← iget (some p) ROOTINO
  ilock E root
  match ← dirlookup E root name with
  | none => return none
  | some (ip, _) =>
    iunlock root
    return some (← readWhole E ip)

theorem length_dpartitionBytes (q : Dpartition) : (dpartitionBytes q).length = 16 := by
  simp [dpartitionBytes]

/-- The offsets are read back from the MBR. -/
theorem mbrOffset_mbrBlock {mbr : Mbr} {q : Dpartition} (hlen : mbr.partitions.length = NPARTITIONS)
    (hq : mbr.partitions[i]? = some q) (ho : q.offset < 2 ^ 32) :
    mbrOffset (mbrBlock mbr) i = q.offset := by
  obtain ⟨hi, rfl⟩ := List.getElem?_eq_some_iff.1 hq
  have hi' : i < 4 := by rw [← show mbr.partitions.length = 4 from hlen]; exact hi
  have hbytes : (mbr.partitions.flatMap dpartitionBytes).length = 64 := by
    rw [List.length_flatMap]
    simp only [length_dpartitionBytes, List.map_const', List.sum_replicate, smul_eq_mul]
    rw [hlen]
    rfl
  rw [mbrOffset, mbrBlock, Bytes.getLE,
    Bytes.slice_splice_of_disjoint _ (.inl (by simp only [BOOTSTRAP]; omega)),
    Bytes.slice_splice_inside _ (by omega) (by rw [hbytes]; omega) (by rw [hbytes]; decide)]
  have hentry := take_drop_flatMap length_dpartitionBytes mbr.partitions i hi
  have hfield : ((mbr.partitions.flatMap dpartitionBytes).drop
    (BOOTSTRAP + 16 * i + 8 - BOOTSTRAP)).take 4 =
      ((dpartitionBytes mbr.partitions[i]).drop 8).take 4 := by
    rw [← hentry, List.drop_take, List.take_take, List.drop_drop,
      show BOOTSTRAP + 16 * i + 8 - BOOTSTRAP = 16 * i + 8 by omega]
    rfl
  rw [hfield, dpartitionBytes, List.append_assoc (Bytes.natLe 4 _ ++ Bytes.natLe 4 _),
    List.drop_left' (by simp), List.take_left' (by simp), Bytes.leNat_natLe]
  exact Nat.mod_eq_of_lt ho

/-- An inode that is not in the cache gets a slot that is free. -/
theorem iget_new {prt : Option Int} {inum : Nat} (hc : s.cachedAt prt inum = none)
    (he : ∃ k, (s.icache k).ref = 0) {Q : Fin NINODE → FsState → Prop}
    (hQ : ∀ k, (s.icache k).ref = 0 →
      Q k (s.withInode k { s.icache k with
        prt := prt, inum := inum, ref := 1, busy := false, valid := false })) :
    (iget prt inum).wp Q F s := by
  unfold iget
  rw [wp_bind, wp_get, hc]
  cases hk : s.emptySlot with
  | none =>
    obtain ⟨k, hk'⟩ := he
    have := List.find?_eq_none.1 hk k (List.mem_finRange k)
    simp [hk'] at this
  | some k =>
    have href : (s.icache k).ref = 0 := by simpa using List.find?_some hk
    exact hQ k href

variable {x : Inode} {Q : Unit → FsState → Prop}

theorem ilock_new (hx : s.icache k = x) (hprt : x.prt = some p) (href : x.ref = 1)
    (hbusy : x.busy = false)
    (hvalid : x.valid = false) (hsb : getSuperblock (s.disk (E.offset p)) = Mkfs.superblock)
    (ht : (dinodeAt E s.disk p x.inum).type ≠ 0)
    (hQ : Q () (s.withInode k { x with
      busy := true, valid := true, din := dinodeAt E s.disk p x.inum })) :
    (ilock E k).wp Q F s := by
  have hblock : x.inum / IPB + (sbAt (E.offset p)).inodestart = inodeBlock E p x.inum := by
    show x.inum / IPB + (31 + E.offset p) = E.offset p + 31 + x.inum / IPB
    omega
  unfold ilock
  rw [wp_bind, wp_inode, hx, if_neg (by rw [href]; decide), if_neg (by rw [hprt]; simp), hbusy,
    if_neg (by decide), wp_bind, wp_setInode, wp_bind, hprt]
  refine readsb_wp (by rw [withInode_disk]; exact hsb) ?_
  rw [hvalid, if_neg (by decide), wp_bind, wp_bread, hblock, wp_bind,
    wp_setInode, withInode_withInode, withInode_disk,
    show getDinode (s.disk (inodeBlock E p x.inum)) (x.inum % IPB) = dinodeAt E s.disk p x.inum from
      rfl, if_neg ht, wp_pure]
  simp only [hprt] at hQ
  exact hQ

theorem ilock_loaded (hx : s.icache k = x) (hprt : x.prt = some p) (href : 0 < x.ref)
    (hbusy : x.busy = false)
    (hvalid : x.valid = true) (hsb : getSuperblock (s.disk (E.offset p)) = Mkfs.superblock)
    (hQ : Q () (s.withInode k { x with busy := true })) : (ilock E k).wp Q F s := by
  unfold ilock
  rw [wp_bind, wp_inode, hx, if_neg (by omega), if_neg (by rw [hprt]; simp), hbusy,
    if_neg (by decide), wp_bind, wp_setInode, wp_bind, hprt]
  refine readsb_wp (by rw [withInode_disk]; exact hsb) ?_
  rw [hvalid, if_pos rfl, wp_pure]
  simp only [hprt, hvalid] at hQ
  exact hQ

/-- The slot of the root directory while it is locked. -/
def rootSlot (E : Env) (disk : Disk) (p : Int) : Inode :=
  { prt := some p, inum := ROOTINO, ref := 1, busy := true, valid := true,
    din := dinodeAt E disk p ROOTINO }

theorem lists_root (hF : Formatted (E.offset p) disk (tree args)) (hd : s.disk = disk)
    (hk : (s.icache k).din = dinodeAt E disk p ROOTINO) (hn : args.length + 1 < NINODES) :
    Lists s k (dinodeAt E disk p ROOTINO) (rootEntries args) := by
  have hroot : (tree args)[0]? = some ⟨T_DIR, dots ++ entriesFrom 2 args⟩ := rfl
  have hlen : (dots ++ entriesFrom 2 args).length = 16 * (rootEntries args).length := by
    rw [List.length_append, length_entriesFrom, rootEntries, List.length_cons, List.length_cons,
      List.length_mapIdx]
    show 32 + 16 * args.length = _
    omega
  have hcount : (rootEntries args).length = args.length + 2 := by simp [rootEntries]
  have hsize := hF.size hroot
  have hmap := hF.mapped hroot
  have hbytes := hF.bytes hroot
  dsimp only at hsize hmap hbytes
  rw [hlen] at hsize hmap hbytes
  simp only [if_true] at hsize
  have hsize' : (dinodeAt E disk p ROOTINO).size =
      (16 * (rootEntries args).length / BSIZE + 1) * BSIZE := hsize
  have hN : args.length + 1 < 200 := hn
  simp only [BSIZE] at hsize'
  refine ⟨hk, ?_, by omega, by omega, fun bn hbn => by rw [hd]; exact hmap bn hbn,
    fun e he => ?_, fun q hq => ?_⟩
  · rw [show (dinodeAt E disk p ROOTINO).type = T_DIR from hF.type hroot]
    decide
  · rcases List.mem_cons.1 he with rfl | he
    · decide
    · rcases List.mem_cons.1 he with rfl | he
      · decide
      · obtain ⟨j, hj, rfl⟩ := List.mem_mapIdx.1 he
        show j + 2 < 2 ^ 16
        omega
  · rw [hd, ← root_bytes]
    exact hbytes q hq

/-- The walk up to the inode number: the first entry with the name decides. -/
theorem readNamed_wp (hB : Booted E disk s) (hF : Formatted (E.offset p) disk (tree args))
    (hn : args.length + 1 < NINODES)
    (ht : t < (rootEntries args).length) (h0 : (rootEntries args)[t].1 ≠ 0)
    (hname : nameOf name = nameOf (rootEntries args)[t].2)
    (hfirst : ∀ (j : Nat) (hj : j < (rootEntries args).length), j < t →
      nameOf name ≠ nameOf (rootEntries args)[j].2)
    {Q : Option (Nat × List UInt8) → FsState → Prop}
    (hQ : ∀ k, (iget (some p) (rootEntries args)[t].1).wp (fun ip =>
      (do iunlock k; return some (← readWhole E ip) : FsM _).wp Q F) F
      (s.withInode k (rootSlot E disk p))) : (readNamed E p name).wp Q F s := by
  have hcached : s.cachedAt (some p) ROOTINO = none := by
    rw [FsState.cachedAt, List.find?_eq_none]
    intro k _
    rw [hB.fresh k]
    simp
  have hsb : getSuperblock (s.disk (E.offset p)) = Mkfs.superblock := by
    rw [hB.disk]
    exact hF.superblock
  have hroot : (tree args)[0]? = some ⟨T_DIR, dots ++ entriesFrom 2 args⟩ := rfl
  have htype : (dinodeAt E disk p ROOTINO).type = T_DIR := hF.type hroot
  have hmounts : isInodeMounted s.mounts ROOTINO (some p) = none := by
    rw [isInodeMounted, Option.map_eq_none_iff, List.find?_eq_none]
    intro it hit
    rw [hB.unmounted it hit]
    simp
  unfold readNamed
  rw [wp_bind]
  refine iget_new hcached ⟨0, hB.fresh 0⟩ fun k hk => ?_
  rw [wp_bind]
  refine ilock_new withInode_self rfl rfl rfl rfl hsb
    (by rw [withInode_disk, hB.disk]; exact htype ▸ by decide) ?_
  rw [withInode_withInode, withInode_disk, hB.disk, wp_bind, dirlookup, wp_bind]
  have hslot : (s.withInode k (rootSlot E disk p)).icache k = rootSlot E disk p := withInode_self
  have hid : (s.withInode k (rootSlot E disk p)).ident k = (some p, ROOTINO) := by
    rw [FsState.ident, hslot]
    rfl
  refine (redirect_none hid hmounts).2 ?_
  have hL : Lists (s.withInode k (rootSlot E disk p)) k (dinodeAt E disk p ROOTINO)
      (rootEntries args) :=
    lists_root hF hB.disk (by rw [hslot]; rfl) hn
  have hsize := hL.size
  have hscan : dirScan E k name ((dinodeAt E disk p ROOTINO).size / 16 + 1) (16 * 0)
      (s.withInode k (rootSlot E disk p)) = _ :=
    hL.dirScan ht h0 hname hfirst (Nat.zero_le t) (by omega)
  unfold dirlookupIn
  rw [wp_bind, wp_inode]
  show Prog.wp (if ((s.withInode k (rootSlot E disk p)).icache k).din.type ≠ T_DIR then _
    else _) _ F (s.withInode k (rootSlot E disk p))
  have htype' : (rootSlot E disk p).din.type = T_DIR := htype
  rw [hslot, if_neg (not_not.2 htype'), wp_bind]
  refine (wp_run hscan).2 ?_
  rw [wp_bind]
  exact wp_mono (hQ k) fun ip s' h => h

variable {l : List UInt8}

theorem map_range_getD {f : Nat → UInt8} (h : ∀ q, q < l.length → f q = l.getD q 0) :
    (List.range l.length).map (fun q => f (0 + q)) = l := by
  apply List.ext_getElem (by simp)
  intro q h1 h2
  rw [List.getElem_map, List.getElem_range, Nat.zero_add, h q h2, List.getD_eq_getElem?_getD,
    List.getElem?_eq_getElem h2]
  rfl

/-- A file that is not in the cache is read whole. -/
theorem readWhole_new (hx : s.icache k = x) (hprt : x.prt = some p) (href : x.ref = 1)
    (hbusy : x.busy = false) (hvalid : x.valid = false)
    (hsb : getSuperblock (s.disk (E.offset p)) = Mkfs.superblock)
    (hd : dinodeAt E s.disk p x.inum = d) (ht : d.type = T_FILE) (hsize : d.size = l.length)
    (h32 : l.length < 2 ^ 32)
    (hmap : ∀ bn, bn * BSIZE < l.length → d.fileBlock s.disk bn ≠ 0)
    (hbytes : ∀ q, q < l.length → byteAt s.disk d q = l.getD q 0)
    {Q : Nat × List UInt8 → FsState → Prop} (hQ : ∀ s', Q (l.length, l) s') :
    (readWhole E k).wp Q F s := by
  unfold readWhole
  rw [wp_bind]
  refine ilock_new hx hprt href hbusy hvalid hsb (by rw [hd, ht]; decide) ?_
  rw [wp_bind, wp_inode, withInode_self, hd]
  dsimp only
  have hread : readi E k 0 d.size
      (s.withInode k { x with busy := true, valid := true, din := d }) = _ :=
    readi_inside (by rw [withInode_self]) (by rw [ht]; decide) (by omega) (by omega) fun bn hbn =>
      hmap bn (by omega)
  rw [wp_bind, wp_run hread, hsize, withInode_disk, map_range_getD hbytes]
  exact hQ _

variable {a : Arg}

/-- An argument whose name no entry before it has is found and read back. -/
theorem readNamed_arg (hB : Booted E disk s) (hF : Formatted (E.offset p) disk (tree args))
    (hn : args.length + 1 < NINODES)
    (ha : args[i]? = some a) (hsmall : a.node.bytes.length ≤ MAXFILE * BSIZE)
    (hfirst : ∀ (j : Nat) (hj : j < (rootEntries args).length), j < i + 2 → nameOf a.stored ≠
      nameOf (rootEntries args)[j].2) :
    ∃ s', readNamed E p a.stored s = .ok (some (a.node.bytes.length, a.node.bytes), s') := by
  obtain ⟨hi, rfl⟩ := List.getElem?_eq_some_iff.1 ha
  have hlen : (rootEntries args).length = args.length + 2 := by simp [rootEntries]
  have ht : i + 2 < (rootEntries args).length := by omega
  have hentry : (rootEntries args)[i + 2] = (i + 2, args[i].stored) := by simp [rootEntries]
  have hnode : (tree args)[i + 1]? = some args[i].node := by simp [tree, hi]
  have hsize : (dinodeAt E disk p (i + 2)).size = args[i].node.bytes.length := hF.size hnode
  have htype : (dinodeAt E disk p (i + 2)).type = T_FILE := hF.type hnode
  obtain ⟨_, s', hrun, rfl⟩ : ∃ r s', readNamed E p args[i].stored s = .ok (r, s') ∧
      r = some (args[i].node.bytes.length, args[i].node.bytes) := by
    rw [← wp_total]
    refine readNamed_wp hB hF hn ht (by rw [hentry]; exact Nat.succ_ne_zero _) (by rw [hentry])
      hfirst fun k => ?_
    rw [hentry]
    have hslot : (s.withInode k (rootSlot E disk p)).icache k = rootSlot E disk p := withInode_self
    have hother : ∀ k', k' ≠ k → ((s.withInode k (rootSlot E disk p)).icache k').ref =
        0 := fun k' h => by
      rw [withInode_ne h]
      exact hB.fresh k'
    have hcached : (s.withInode k (rootSlot E disk p)).cachedAt (some p) (i + 2) = none := by
      rw [FsState.cachedAt, List.find?_eq_none]
      intro k' _
      by_cases h : k' = k
      · subst h
        rw [hslot]
        simp [rootSlot, ROOTINO]
      · rw [hother k' h]
        simp
    obtain ⟨k', hk'⟩ : ∃ k', k' ≠ k := exists_ne k
    refine iget_new hcached ⟨k', hother k' hk'⟩ fun ip hip => ?_
    have hne : k ≠ ip := by
      rintro rfl
      rw [hslot] at hip
      exact absurd hip (by simp [rootSlot])
    unfold iunlock
    rw [wp_bind, wp_bind, wp_inode, withInode_ne hne, hslot, if_neg (by simp [rootSlot]),
      wp_setInode, wp_bind]
    have hdisk : ∀ x y : Inode,
        (((s.withInode k (rootSlot E disk p)).withInode ip x).withInode k y).disk = disk :=
      fun _ _ => hB.disk
    refine readWhole_new ((withInode_ne hne.symm).trans withInode_self) rfl rfl rfl rfl ?_ rfl ?_ ?_
      ?_ ?_ ?_ fun s' => rfl
    · rw [hdisk]
      exact hF.superblock
    · rw [hdisk]
      exact htype
    · rw [hdisk]
      exact hsize
    · exact Nat.lt_of_le_of_lt hsmall (by decide)
    · rw [hdisk]
      exact hF.mapped hnode
    · rw [hdisk]
      exact hF.bytes hnode
  exact ⟨s', hrun⟩

/-! ## The format -/

-- 1000 sectors are not to be unfolded
attribute [local irreducible] zeroSectors

/-- The arguments have different names, and they fit a partition. -/
structure Listed (args : List Arg) : Prop where
  text : ∀ a ∈ args, 0 ∉ a.name
  fit : Fit args
  inodes : args.length + 1 < NINODES
  names : (args.map fun a => a.stored.take DIRSIZ).Nodup

theorem nameOf_stored (h : 0 ∉ a.name) : nameOf a.stored = a.stored.take DIRSIZ := by
  rw [nameOf, List.takeWhile_eq_self_iff]
  intro c hc
  have hmem : c ∈ a.name := by
    have := List.mem_of_mem_take hc
    unfold Arg.stored at this
    split at this
    · exact List.mem_of_mem_tail this
    · exact this
  rw [decide_eq_true_eq]
  rintro rfl
  exact h hmem

/-- An argument that is not `.` or `..` comes first among the entries with its name. -/
theorem Listed.first (hL : Listed args) (ha : args[i]? = some a) (hdot : a.stored.take DIRSIZ ≠ dot)
    (hdotdot : a.stored.take DIRSIZ ≠ dotdot) (j : Nat) (hj : j < (rootEntries args).length)
    (hji : j < i + 2) :
    nameOf a.stored ≠ nameOf (rootEntries args)[j].2 := by
  have hmem : a ∈ args := List.mem_of_getElem? ha
  rw [nameOf_stored (hL.text a hmem)]
  match j with
  | 0 => exact hdot
  | 1 => exact hdotdot
  | j + 2 =>
    have hj' : j < args.length := by simpa [rootEntries] using hj
    have hentry : (rootEntries args)[j + 2] = (j + 2, args[j].stored) := by simp [rootEntries]
    rw [hentry, nameOf_stored (hL.text _ (List.getElem_mem hj'))]
    intro heq
    have := List.nodup_iff_injective_getElem.1 hL.names
    obtain ⟨hi, rfl⟩ := List.getElem?_eq_some_iff.1 ha
    have hij := @this ⟨i, by simpa using hi⟩ ⟨j, by simpa using hj'⟩ (by simpa using heq)
    have := congrArg Fin.val hij
    dsimp only at this
    omega

theorem main_made (stack : Stack) (bootblock kernel : List UInt8) (hL : Listed args)
    (hbound : firstSector kernel + 4000 ≤ 2 ^ 23) :
    ∃ mbr st, main stack (some bootblock) (some kernel) args start = .ok (mbr, st) ∧
      Made (fun _ => True) (firstSector kernel) bootblock args mbr st := by
  rw [← wp_total]
  refine main_wp (P := fun _ => True) (Nat.lt_trans hL.inodes (by decide)) hbound
    (fun _ _ _ _ => trivial) (fun _ => trivial) trivial
    (.inl hL.fit) fun mbr st hM _ => hM

/-- The kernel looks for each partition where it is. -/
theorem Made.offset_at {P : Write → Prop} {first : Nat} {bootblock : List UInt8}
    {mbr : Mbr} {st : State}
    (hM : Made P first bootblock args mbr st) (hfirst : first + 4000 ≤ 2 ^ 23)
    (h0 : disk 0 = st.disk 0)
    (hB : Booted E disk s) (hp : IsPart p) : p.toNat < NPARTITIONS ∧
    E.offset p = first + FSSIZE * p.toNat := by
  have hlt : p.toNat < 4 := by
    have : p < 4 := hp.2
    omega
  obtain ⟨q, hq⟩ : ∃ q, mbr.partitions[p.toNat]? = some q :=
    ⟨_, List.getElem?_eq_getElem (by rw [hM.length]; exact hlt)⟩
  have hqo := (hM.parts hq).1
  rw [hB.offset p hp, h0, hM.sector, mbrOffset_mbrBlock hM.length hq (by omega)]
  exact ⟨hlt, hqo⟩

/-- **mkfs and the kernel agree on the format**, in the blocks below `FSSIZE*4`: `disk` is any disk
with those of the image. -/
theorem mkfs_readable (stack : Stack) (bootblock kernel : List UInt8) (hL : Listed args)
    (hdots : ∀ a ∈ args, a.stored.take DIRSIZ ≠ dot ∧ a.stored.take DIRSIZ ≠ dotdot)
    (hbound : firstSector kernel + FSSIZE * NPARTITIONS ≤ 2 ^ 23) :
    ∃ mbr st, main stack (some bootblock) (some kernel) args start = .ok (mbr, st) ∧
      ∀ p E disk s, IsPart p → (∀ b, b < FSSIZE * 4 → disk b = st.disk b) → Booted E disk s →
        firstSector kernel + FSSIZE * p.toNat + 58 + total (tree args) ≤ FSSIZE * 4 →
        (∀ a ∈ args, ∀ l, a.content = some l →
          ∃ s', readNamed E p a.stored s = .ok (some (l.length, l), s')) ∧
        ∃ sb, readsb E (some p) s = .ok (sb, s) ∧
          ∀ j, (s.disk sb.bmapstart).bit j = true ↔
            ∃ x, ptr s.disk (dinodeAt E s.disk p) x = sb.bmapstart + 1 + j := by
  obtain ⟨mbr, st, hrun, hM⟩ := main_made stack bootblock kernel hL hbound
  refine ⟨mbr, st, hrun, fun p E disk s hp hdisk hB hlow => ?_⟩
  obtain ⟨hlt, ho⟩ := hM.offset_at hbound (hdisk 0 (by decide)) hB hp
  have hF : Formatted (E.offset p) disk (tree args) := by
    rw [ho]
    exact (hM.formatted _ hlt).congr fun b _ hb => hdisk b (Nat.lt_of_lt_of_le hb hlow)
  constructor
  · intro a ha l hl
    obtain ⟨i, hi, rfl⟩ := List.getElem_of_mem ha
    have hat : args[i]? = some args[i] := List.getElem?_eq_getElem hi
    have hnode : args[i].node.bytes = l := by rw [Arg.node, hl]; rfl
    obtain ⟨s', hs'⟩ := readNamed_arg hB hF hL.inodes hat (hL.fit.size _ ha)
      (hL.first hat (hdots _ ha).1 (hdots _ ha).2)
    rw [hnode] at hs'
    exact ⟨s', hs'⟩
  · obtain ⟨sb, s', hsb, rfl, rfl⟩ : ∃ sb s', readsb E (some p) s = .ok (sb, s') ∧
        sb = sbAt (E.offset p) ∧ s' = s := by
      rw [← wp_total]
      exact readsb_wp (by rw [hB.disk]; exact hF.superblock) ⟨rfl, rfl⟩
    refine ⟨_, hsb, fun j => ?_⟩
    have hbm : (sbAt (E.offset p)).bmapstart = bmBlock E p := Nat.add_comm _ _
    rw [hbm, hB.disk]
    exact (hF.owned hL.inodes).marked j

/-- One file called `a`. -/
def oneFile : List Arg := [⟨[95, 97], some [7]⟩]

theorem listed_oneFile : Listed oneFile where
  text := by decide
  fit := ⟨by simp [oneFile, Arg.Plain], by decide, by decide⟩
  inodes := by decide
  names := by decide

/-- A kernel with the partitions of an image, idle. -/
def envOf (disk : Disk) : Env where
  offset p := mbrOffset (disk 0) p.toNat
  boot := 0
  scan := Superblock.size
  devRead _ := none
  devWrite _ := none

theorem booted_idle (disk : Disk) : Booted (envOf disk) disk (idleState disk) where
  offset _ _ := rfl
  disk := rfl
  fresh _ := rfl
  unmounted it hit := by rw [List.eq_of_mem_replicate hit]

theorem mkfs_readable_demo :
    ∃ mbr st, main blankStack (some []) (some []) oneFile start = .ok (mbr, st) ∧
    ∃ s', readNamed (envOf st.disk) 3 [97] (idleState st.disk) = .ok (some (1, [7]), s') := by
  obtain ⟨mbr, st, hrun, h⟩ := mkfs_readable blankStack [] [] listed_oneFile (by decide) (by decide)
  exact ⟨mbr, st, hrun, (h 3 _ _ _ (by decide) (fun _ _ => rfl) (booted_idle st.disk) (by decide)).1
    ⟨[95, 97], some [7]⟩ (by simp [oneFile]) [7] rfl⟩

/-! ## A file called dot -/

/-- The argument `_.`, an empty file. -/
def dotArg : Arg := ⟨[95, 46], some []⟩

theorem listed_dotArg : Listed [dotArg] where
  text := by decide
  fit := ⟨by simp [dotArg, Arg.Plain], by decide, by decide⟩
  inodes := by decide
  names := by decide

theorem readNamed_dot (hB : Booted E disk s) (hF : Formatted (E.offset p) disk (tree [dotArg])) :
    ∃ l s', readNamed E p dotArg.stored s = .ok (some (BSIZE, l), s') := by
  have hroot : (tree [dotArg])[0]? = some ⟨T_DIR, dots ++ entriesFrom 2 [dotArg]⟩ := rfl
  have htype : (dinodeAt E disk p ROOTINO).type = T_DIR := hF.type hroot
  have hsize : (dinodeAt E disk p ROOTINO).size = BSIZE := hF.size hroot
  obtain ⟨r, s', hrun, l, rfl⟩ : ∃ r s', readNamed E p dotArg.stored s = .ok (r, s') ∧
      ∃ l, r = some (BSIZE, l) := by
    rw [← wp_total]
    refine readNamed_wp hB hF (by decide)
      (t := 0) (by decide) (by decide) (by decide) (fun j _ hj => absurd hj (Nat.not_lt_zero j))
      fun k => ?_
    show (iget (some p) ROOTINO).wp _ _ _
    have hslot : (s.withInode k (rootSlot E disk p)).icache k = rootSlot E disk p := withInode_self
    have hcached : (s.withInode k (rootSlot E disk p)).cachedAt (some p) ROOTINO = some k := by
      cases hc : (s.withInode k (rootSlot E disk p)).cachedAt (some p) ROOTINO with
      | none =>
        have := List.find?_eq_none.1 hc k (List.mem_finRange k)
        rw [hslot] at this
        simp [rootSlot] at this
      | some k' =>
        by_contra hne
        have href := (cachedAt_some hc).1
        rw [withInode_ne fun h => hne (by rw [h]), hB.fresh k'] at href
        exact absurd href (by decide)
    have hsb : getSuperblock (s.disk (E.offset p)) = Mkfs.superblock := by
      rw [hB.disk]
      exact hF.superblock
    unfold iget iunlock
    rw [wp_bind, wp_get, hcached, wp_bind, wp_setInode, withInode_withInode, hslot, wp_pure,
      wp_bind, wp_bind, wp_inode,
      withInode_self, if_neg (by simp [rootSlot]), wp_setInode, withInode_withInode]
    show Prog.wp _ _ _ (s.withInode k { rootSlot E disk p with ref := 2, busy := false })
    rw [wp_bind, readWhole, wp_bind]
    refine ilock_loaded withInode_self rfl (show (0 : Int) < 2 by decide) rfl rfl hsb ?_
    rw [withInode_withInode, wp_bind, wp_inode, withInode_self]
    have hread : readi E k 0 (dinodeAt E disk p ROOTINO).size
        (s.withInode k { rootSlot E disk p with ref := 2, busy := true }) = _ :=
      readi_inside (d := dinodeAt E disk p ROOTINO) (by rw [withInode_self]; rfl)
        (by rw [htype]; decide) (by omega) (by rw [hsize]; decide)
        fun bn hbn => ?_
    · rw [wp_bind]
      refine (wp_run hread).2 ?_
      rw [wp_pure]
      exact ⟨_, congrArg (fun n => some (n, _)) hsize⟩
    · have h0 : bn = 0 := by
        rw [hsize] at hbn
        simp only [BSIZE] at hbn
        omega
      subst h0
      rw [withInode_disk, hB.disk]
      exact hF.mapped hroot 0 (by decide)
  exact ⟨l, s', hrun⟩

/-- mkfs stores the argument `_.` as `.`; looking it up finds the root directory. -/
theorem mkfs_dot_hidden : Listed [dotArg] ∧
    ∃ mbr st, main blankStack (some []) (some []) [dotArg] start = .ok (mbr, st) ∧
    ∃ E s, Booted E st.disk s ∧ ∀ p, IsPart p →
      ∀ s', readNamed E p dotArg.stored s ≠ .ok (some (0, []), s') := by
  obtain ⟨mbr, st, hrun, hM⟩ := main_made blankStack [] [] listed_dotArg (by decide)
  refine ⟨listed_dotArg, mbr, st, hrun, _, _, booted_idle st.disk, fun p hp s' hs' => ?_⟩
  obtain ⟨hlt, ho⟩ := hM.offset_at (by decide) rfl (booted_idle st.disk) hp
  obtain ⟨l, s'', h⟩ := readNamed_dot (booted_idle st.disk) (by rw [ho]; exact hM.formatted _ hlt)
  rw [h] at hs'
  have hr := congrArg Prod.fst (Except.ok.inj hs')
  exact absurd (congrArg Prod.fst (Option.some.inj hr)) (show BSIZE ≠ 0 by decide)

end Os4.Fs.Mkfs
