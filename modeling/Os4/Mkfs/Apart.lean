import Os4.Mkfs.Partition
/-!
# Does one partition spill into another? (mkfs.c:91-151)

**`mkfs_apart_iff`**: not with at most 206 arguments, in an image smaller than 4 GiB.

The data blocks cannot run over, since a sector that no step has written yet is past the end of the
file and cannot be read. The inodes can: `freeinode` is checked against nothing, and the 207th
argument gets inode 208, which is one past the inode blocks, in the bitmap block (`mkfs_spills`).
-/
namespace Os4.Fs.Mkfs

open Prog
open List (replicate length_replicate length_cons length_append)
open Function (update update_of_ne)

variable {o i n first : Nat} {st st' : State} {P : Write → Prop} {F : Stop → Prop} {args : List Arg}
  {part : Dpartition} {stack : Stack} {bootblock kernel : List UInt8} {mbr : Mbr}

-- 1000 sectors are not to be unfolded
attribute [local irreducible] zeroSectors

/-! ## The whole run -/

/-- The partitions from the one at `o` on are finished. -/
structure Initialised (P : Write → Prop) (o n : Nat) (args : List Arg) (st st' : State)
    (parts : List Dpartition) : Prop where
  length : parts.length = n
  parts : ∀ {j part}, parts[j]? = some part → part.offset = o + 1000 * j ∧ part.size = FSSIZE
  formatted : ∀ j, j < n → Formatted (o + 1000 * j) st'.disk (tree args)
  outside : ∀ b, b < o ∨ o + 1000 * n ≤ b → st'.disk b = st.disk b
  writes : ∀ w ∈ st'.writes, P w

theorem initPartitions_wp (hn : args.length + 1 < nslots)
    (hP : ∀ i (a : Area) b, a.Inside (first + 1000 * i) b → P ⟨.part i, a, b⟩) :
    ∀ {n i o : Nat} {part : Dpartition} {st : State}
    {Q : List Dpartition → State → Prop}, o = first + 1000 * i → o + 1000 * n ≤ 2 ^ 23 →
    st.len ≤ o + 1000 → (∀ w ∈ st.writes, P w) → (Fit args ∨ o + 1000 < 2 ^ 23 ∧ ∀ e, F e) →
    (∀ parts st', Initialised P o n args st st' parts → (0 < n → Fit args) → Q parts st') →
    (initPartitions args part o i n).wp Q F st := by
  intro n
  induction n with
  | zero =>
    intro i o part st Q _ _ _ hw _ hQ
    refine hQ [] st ⟨rfl, fun h => by simp at h, fun j hj => absurd hj (Nat.not_lt_zero j),
      fun _ _ => rfl, hw⟩
      fun h => absurd h (Nat.lt_irrefl 0)
  | succ n ih =>
    intro i o part st Q ho hbound hlen hw hroom hQ
    rw [Nat.mul_succ, ← Nat.add_assoc] at hbound
    have hb1 : o + 1000 ≤ 2 ^ 23 := by omega
    have hb2 : o + 1000 + 1000 * n ≤ 2 ^ 23 := by omega
    have ho' : o + 1000 = first + 1000 * (i + 1) := by rw [Nat.mul_succ, ← Nat.add_assoc]; omega
    obtain ⟨q, hq, hqo, hqs⟩ : ∃ q, createPartition part PART_BOOTABLE FS_INODE o FSSIZE = q ∧
        q.offset = o ∧ q.size = FSSIZE :=
      ⟨_, rfl, rfl, rfl⟩
    have hlen' : ({ st with phase := .part i } : State).len ≤ o + 1000 := hlen
    unfold initPartitions
    simp only [hq]
    rw [wp_bind, wp_modify, wp_bind]
    refine initPartition_wp hqo hqs hlen' hb1 hw (fun a b h => hP i a b (ho ▸ h)) hn hroom
      fun st1 hF1 hfit hout1 hlen1 hw1 => ?_
    have hnext : q.offset + q.size = o + 1000 := by rw [hqo, hqs]
    rw [wp_bind, hnext]
    refine ih ho' hb2 (by rw [hlen1]; exact Nat.le_add_right _ _) hw1 (.inl hfit)
      fun parts st' hI _ => ?_
    rw [wp_pure]
    refine hQ _ st' ⟨by rw [length_cons, hI.length], fun {j p} hj => ?_, fun j hj => ?_,
      fun b hb => ?_, hI.writes⟩
      fun _ => hfit
    · cases j with
      | zero =>
        obtain rfl := Option.some.inj hj
        exact ⟨hqo, hqs⟩
      | succ j =>
        obtain ⟨h1, h2⟩ := hI.parts hj
        exact ⟨by rw [Nat.mul_succ, ← Nat.add_assoc]; omega, h2⟩
    · cases j with
      | zero => exact hF1.congr fun b _ hb => hI.outside b (.inl (by have := hF1.le; omega))
      | succ j =>
        have := hI.formatted j (by omega)
        rwa [show o + 1000 + 1000 * j =
          o + 1000 * (j + 1) by rw [Nat.mul_succ, ← Nat.add_assoc]; omega] at this
    · rw [Nat.mul_succ, ← Nat.add_assoc] at hb
      rw [hI.outside b (by omega)]
      exact hout1.disk b (by omega)

/-- The sectors of the kernel are written one after another. -/
theorem writeKernel_wp {Q : Nat → State → Prop} :
    ∀ {ls : List (List UInt8)} {buf : Block} {i : Nat} {st : State},
    i + ls.length ≤ 2 ^ 23 → (∀ w ∈ st.writes, P w) → (∀ b, P ⟨st.phase, .whole, b⟩) →
    (∀ st', st'.len ≤ max st.len (i + ls.length) → (∀ w ∈ st'.writes, P w) → st'.phase = st.phase →
      Q (i + ls.length) st') → (writeKernel buf i ls).wp Q F st
  | [], buf, i, st, _, hw, _, hQ => hQ st (Nat.le_max_left _ _) hw rfl
  | l :: ls, buf, i, st, hn, hw, hP, hQ => by
    rw [length_cons] at hn hQ
    unfold writeKernel
    rw [wp_bind, wp_wsect, pos_of_lt (by omega)]
    refine writeKernel_wp (by omega) (fun w hw' => ?_) hP fun st' hlen hw' hph => ?_
    · rcases List.mem_append.1 hw' with hw' | hw'
      · exact hw w hw'
      · rw [List.mem_singleton.1 hw']
        exact hP i
    · rw [show i + 1 + ls.length = i + (ls.length + 1) by omega] at *
      refine hQ st' (Nat.le_trans hlen ?_) hw' hph
      show max (max st.len (i + 1)) (i + (ls.length + 1)) ≤ _
      omega

/-- Where the first partition starts. -/
def firstSector (kernel : List UInt8) : Nat := 1 + (reads kernel).length

/-- What mkfs leaves: the MBR and the finished partitions. -/
structure Made (P : Write → Prop) (first : Nat) (bootblock : List UInt8) (args : List Arg)
    (mbr : Mbr) (st : State) : Prop where
  length : mbr.partitions.length = NPARTITIONS
  parts : ∀ {j part}, mbr.partitions[j]? = some part → part.offset = first + 1000 * j ∧
    part.size = FSSIZE
  bootstrap : mbr.bootstrap = bootblock.take BOOTSTRAP
  sector : st.disk 0 = mbrBlock mbr
  formatted : ∀ j, j < NPARTITIONS → Formatted (first + 1000 * j) st.disk (tree args)
  writes : ∀ w ∈ st.writes, P w

theorem main_wp (hn : args.length + 1 < nslots)
    (hbound : firstSector kernel + 4000 ≤ 2 ^ 23)
    (hP : ∀ i (a : Area) b, a.Inside (firstSector kernel + 1000 * i) b → P ⟨.part i, a, b⟩)
    (hboot : ∀ b, P ⟨.boot, .whole, b⟩) (hmbr : P ⟨.mbr, .whole, 0⟩) (hroom : Fit args ∨ ∀ e, F e)
    {Q : Mbr → State → Prop}
    (hQ : ∀ mbr st, Made P (firstSector kernel) bootblock args mbr st → Fit args → Q mbr st) :
    (main stack (some bootblock) (some kernel) args).wp Q F start := by
  have hfirst : firstSector kernel = 1 + (reads kernel).length := rfl
  unfold main
  rw [wp_bind]
  refine zeroSectors_wp (by decide) fun st1 hZ => ?_
  have hlen1 : st1.len ≤ 1000 := by
    rw [hZ.len, if_neg (by decide)]
    decide
  rw [wp_bind]
  refine writeKernel_wp (P := P) (by omega) (fun w hw => ?_) (by rw [hZ.phase]; exact hboot)
    fun st2 hlen2 hw2 hph2 => ?_
  · rcases hZ.writes w hw with hw | ⟨b, -, -, rfl⟩
    · exact absurd hw (List.not_mem_nil)
    · exact hboot b
  rw [wp_bind, ← hfirst]
  refine initPartitions_wp hn hP rfl hbound (by omega) hw2 (hroom.imp_right fun h => ⟨by omega, h⟩)
    fun parts st3 hI hfit => ?_
  rw [wp_bind, wp_modify, wp_bind, wp_wsect, wp_pure]
  have h0 : pos 0 = 0 := rfl
  rw [h0]
  refine hQ _ _ ⟨hI.length, hI.parts, rfl, ?_, fun j hj => ?_, fun w hw => ?_⟩ (hfit (by decide))
  · show update st3.disk 0 _ 0 = _
    exact Function.update_self ..
  · refine (hI.formatted j hj).congr fun b h1 _ => update_of_ne ?_ ..
    omega
  · rcases List.mem_append.1 hw with hw | hw
    · exact hI.writes w hw
    · rw [List.mem_singleton.1 hw]
      exact hmbr

/-! ## What is written in any case -/

/-- Writes are never taken back; the superblock and the counter of inodes stay. -/
structure Keeps (s s' : State) : Prop where
  writes : ∀ w ∈ s.writes, w ∈ s'.writes
  phase : s'.phase = s.phase
  sb : s'.sb = s.sb
  freeinode : s'.freeinode = s.freeinode

theorem Keeps.refl (s : State) : Keeps s s := ⟨fun _ h => h, rfl, rfl, rfl⟩

theorem Keeps.trans (s1 s2 s3 : State) (h : Keeps s1 s2) (h' : Keeps s2 s3) : Keeps s1 s3 :=
  ⟨fun w hw => h'.writes w (h.writes w hw), h'.phase.trans h.phase, h'.sb.trans h.sb,
    h'.freeinode.trans h.freeinode⟩

theorem keeps_wsect (a : Area) (n : Nat) (x : Block) : Steps Keeps (wsect a n x) :=
  Steps.modify fun _ => ⟨fun _ hw => List.mem_append_left _ hw, rfl, rfl, rfl⟩

theorem keeps_rsect (n : Nat) : Steps Keeps (rsect n) :=
  Steps.read fun _ => Steps.ite (Steps.pure Keeps.refl _) (Steps.throw _)

theorem keeps_winode (n : Nat) (d : Dinode) : Steps Keeps (winode n d) :=
  Steps.read fun _ => Steps.bind Keeps.trans (keeps_rsect _) fun _ => keeps_wsect _ _ _

theorem keeps_rinode (n : Nat) : Steps Keeps (rinode n) :=
  Steps.read fun _ => Steps.bind Keeps.trans (keeps_rsect _) fun _ => Steps.pure Keeps.refl _

theorem keeps_nextBlock : Steps Keeps nextBlock := by
  intro s b s' h
  cases h
  exact ⟨fun _ hw => hw, rfl, rfl, rfl⟩

theorem keeps_blockFor (d : Dinode) (fbn : Nat) : Steps Keeps (blockFor d fbn) := by
  have haddr : ∀ j, Steps Keeps (addrFor d j) := fun j =>
    Steps.ite (Steps.bind Keeps.trans keeps_nextBlock fun _ => Steps.pure Keeps.refl _)
      (Steps.pure Keeps.refl _)
  have hentry : ∀ a e, Steps Keeps (entryFor a e) := fun a e =>
    Steps.bind Keeps.trans (keeps_rsect a) fun _ => Steps.ite
      (Steps.bind Keeps.trans keeps_nextBlock fun _ =>
        Steps.bind Keeps.trans (keeps_wsect _ _ _) fun _ => Steps.pure Keeps.refl _)
      (Steps.pure Keeps.refl _)
  unfold blockFor
  split
  · exact Steps.bind Keeps.trans (haddr _) fun _ => Steps.pure Keeps.refl _
  · exact Steps.bind Keeps.trans (haddr _) fun _ => Steps.bind Keeps.trans (hentry _ _) fun _ =>
      Steps.pure Keeps.refl _

theorem keeps_iappendLoop : ∀ (fuel : Nat) (d : Dinode) (off : Nat) (src : List UInt8),
    Steps Keeps (iappendLoop fuel d off src)
  | 0, _, _, _ => Steps.pure Keeps.refl _
  | fuel + 1, d, off, src => by
    unfold iappendLoop
    refine Steps.ite (Steps.pure Keeps.refl _) (Steps.ite (Steps.throw _) ?_)
    exact Steps.bind Keeps.trans (keeps_blockFor _ _) fun _ =>
      Steps.bind Keeps.trans (keeps_rsect _) fun _ =>
      Steps.bind Keeps.trans (keeps_wsect _ _ _) fun _ => keeps_iappendLoop fuel _ _ _

theorem keeps_iappend (n : Nat) (src : List UInt8) : Steps Keeps (iappend n src) :=
  Steps.bind Keeps.trans (keeps_rinode n) fun _ =>
    Steps.bind Keeps.trans (keeps_iappendLoop _ _ _ _) fun _ => keeps_winode _ _

theorem keeps_appendAll (n : Nat) : ∀ ls, Steps Keeps (appendAll n ls)
  | [] => Steps.pure Keeps.refl _
  | l :: ls => Steps.bind Keeps.trans (keeps_iappend n l) fun _ => keeps_appendAll n ls

/-- The inode is written where its number says, in the table or not. -/
theorem ialloc_writes {type : Int} {inum : Nat} (h : ialloc type st = .ok (inum, st')) :
    ⟨st.phase, .inodes, pos (st.freeinode / IPB + st.sb.inodestart)⟩ ∈ st'.writes ∧
    (∀ w ∈ st.writes, w ∈ st'.writes) ∧
      st'.phase = st.phase ∧ st'.sb = st.sb ∧ st'.freeinode = st.freeinode + 1 := by
  obtain ⟨_, _, hget, h⟩ := bind_ok h
  cases hget
  obtain ⟨_, _, hset, h⟩ := bind_ok h
  cases hset
  obtain ⟨⟨⟩, st1, hw, h⟩ := bind_ok h
  cases h
  have hk := keeps_winode _ _ _ _ _ hw
  refine ⟨?_, hk.writes, hk.phase, hk.sb, hk.freeinode⟩
  obtain ⟨_, _, hget, hw⟩ := bind_ok hw
  cases hget
  obtain ⟨x, st2, hr, hw⟩ := bind_ok hw
  have hk2 := keeps_rsect _ _ _ _ hr
  cases hw
  rw [← show st2.phase = st.phase from hk2.phase]
  exact List.mem_append_right _ (List.mem_singleton.2 rfl)

theorem rootHandler_writes {r : Nat} :
    ∀ {args : List Arg} {st st' : State}, rootHandler r args st = .ok ((), st') →
    (∀ j, j < args.length → ⟨st.phase, .inodes, pos ((st.freeinode + j) / IPB + st.sb.inodestart)⟩ ∈
      st'.writes) ∧ (∀ w ∈ st.writes, w ∈ st'.writes) ∧ st'.phase = st.phase
  | [], st, st', h => by
    cases h
    exact ⟨fun j hj => absurd hj (Nat.not_lt_zero j), fun _ hw => hw, rfl⟩
  | a :: rest, st, st', h => by
    unfold rootHandler at h
    by_cases hslash : 47 ∈ a.name
    · rw [if_pos hslash] at h
      cases h
    rw [if_neg hslash] at h
    cases hcont : a.content with
    | none =>
      rw [hcont] at h
      cases h
    | some l =>
    rw [hcont] at h
    obtain ⟨inum, st1, h1, h⟩ := bind_ok h
    obtain ⟨⟨⟩, st2, h2, h⟩ := bind_ok h
    obtain ⟨⟨⟩, st3, h3, h⟩ := bind_ok h
    obtain ⟨hw1, hsub1, hph1, hsb1, hfree1⟩ := ialloc_writes h1
    have hk := Keeps.trans _ _ _ (keeps_iappend _ _ _ _ _ h2) (keeps_appendAll _ _ _ _ _ h3)
    obtain ⟨hw, hsub, hph⟩ := rootHandler_writes h
    refine ⟨fun j hj => ?_, fun w hw => hsub w (hk.writes w (hsub1 w hw)),
      hph.trans (hk.phase.trans hph1)⟩
    cases j with
    | zero => exact hsub _ (hk.writes _ hw1)
    | succ j =>
      have := hw j (by simpa using hj)
      rwa [hk.phase, hph1, hk.freeinode, hfree1, hk.sb, hsb1, Nat.add_assoc,
        Nat.add_comm 1 j] at this

theorem zeroSectors_writes :
    ∀ {n sec : Nat} {st st' : State}, zeroSectors sec n st = .ok ((), st') →
    (∀ j, j < n → ⟨st.phase, .whole, pos (sec + j)⟩ ∈ st'.writes) ∧ Keeps st st'
  | 0, sec, st, st', h => by
    unfold zeroSectors at h
    cases h
    exact ⟨fun j hj => absurd hj (Nat.not_lt_zero j), Keeps.refl st⟩
  | n + 1, sec, st, st', h => by
    unfold zeroSectors at h
    obtain ⟨⟨⟩, st1, h1, h⟩ := bind_ok h
    have hk := keeps_wsect _ _ _ _ _ _ h1
    obtain ⟨hw, hk'⟩ := zeroSectors_writes h
    refine ⟨fun j hj => ?_, Keeps.trans _ _ _ hk hk'⟩
    cases j with
    | zero =>
      refine hk'.writes _ ?_
      cases h1
      exact List.mem_append_right _ (List.mem_singleton.2 rfl)
    | succ j =>
      have := hw j (by omega)
      rwa [hk.phase, Nat.add_assoc, Nat.add_comm 1 j] at this

theorem keeps_closePartition (r : Nat) : Steps Keeps (closePartition part r) := by
  have hballoc : ∀ n, Steps Keeps (balloc n) := fun n => Steps.read fun _ =>
    Steps.ite (keeps_wsect _ _ _) (Steps.throw _)
  exact Steps.bind Keeps.trans (keeps_rinode r) fun _ =>
    Steps.bind Keeps.trans (keeps_winode r _) fun _ => Steps.read fun _ =>
    Steps.bind Keeps.trans (hballoc _) fun _ => keeps_wsect _ _ _

/-- The zeroes that a partition starts with, and the inodes of its arguments. -/
structure Touched (ph : Phase) (o size : Nat) (args : List Arg) (ws : List Write) : Prop where
  zeroes : ∀ j, j < size → ⟨ph, .whole, pos (o + j)⟩ ∈ ws
  inodes : ∀ j, j < args.length → ⟨ph, .inodes, pos ((2 + j) / IPB + (o + 31))⟩ ∈ ws

theorem initPartition_writes (h : initPartition part args st = .ok ((), st')) :
    Touched st.phase part.offset part.size args st'.writes ∧ (∀ w ∈ st.writes, w ∈ st'.writes) ∧
    st'.phase = st.phase := by
  obtain ⟨r, st1, h1, h⟩ := bind_ok h
  obtain ⟨⟨⟩, st2, h2, h⟩ := bind_ok h
  -- up to the arguments
  obtain ⟨⟨⟩, s1, hz, h1⟩ := bind_ok h1
  obtain ⟨hzw, hzk⟩ := zeroSectors_writes hz
  obtain ⟨⟨⟩, s2, hm, h1⟩ := bind_ok h1
  cases hm
  obtain ⟨inum, s3, hi, h1⟩ := bind_ok h1
  obtain ⟨-, hsub3, hph3, hsb3, hfree3⟩ := ialloc_writes hi
  by_cases hr : inum = ROOTINO
  case neg =>
    rw [if_neg hr] at h1
    cases h1
  rw [if_pos hr] at h1
  obtain ⟨⟨⟩, s4, ha, h1⟩ := bind_ok h1
  obtain ⟨⟨⟩, s5, hb, h1⟩ := bind_ok h1
  cases h1
  have hk := Keeps.trans _ _ _ (keeps_iappend _ _ _ _ _ ha) (keeps_iappend _ _ _ _ _ hb)
  obtain ⟨hw2, hsub2, hph2⟩ := rootHandler_writes h2
  have hlast := keeps_closePartition _ _ _ _ h
  have hall : ∀ w ∈ s1.writes, w ∈ st'.writes := fun w hw =>
    hlast.writes w (hsub2 w (hk.writes w (hsub3 w hw)))
  have hph : st1.phase = st.phase := (hk.phase.trans hph3).trans hzk.phase
  refine ⟨⟨fun j hj => hall _ (hzw j hj), fun j hj => ?_⟩, fun w hw => hall w (hzk.writes w hw),
    hlast.phase.trans (hph2.trans hph)⟩
  have := hlast.writes _ (hw2 j hj)
  rwa [hph, hk.freeinode, hfree3, hk.sb, hsb3] at this

theorem initPartitions_writes :
    ∀ {n i o : Nat} {part : Dpartition} {st st' : State} {parts : List Dpartition},
    initPartitions args part o i n st = .ok (parts, st') →
    parts.length = n ∧ (∀ {j q}, parts[j]? = some q → q.offset = o + 1000 * j ∧ q.size = FSSIZE) ∧
      (∀ j, j < n → Touched (.part (i + j)) (o + 1000 * j) FSSIZE args st'.writes) ∧
      (∀ w ∈ st.writes, w ∈ st'.writes) := by
  intro n
  induction n with
  | zero =>
    intro i o part st st' parts h
    cases h
    exact ⟨rfl, fun h => by simp at h, fun j hj => absurd hj (Nat.not_lt_zero j), fun _ hw => hw⟩
  | succ n ih =>
    intro i o part st st' parts h
    obtain ⟨q, hq, hqo, hqs⟩ : ∃ q, createPartition part PART_BOOTABLE FS_INODE o FSSIZE = q ∧
        q.offset = o ∧ q.size = FSSIZE :=
      ⟨_, rfl, rfl, rfl⟩
    unfold initPartitions at h
    simp only [hq] at h
    obtain ⟨⟨⟩, s1, hm, h⟩ := bind_ok h
    cases hm
    obtain ⟨⟨⟩, s2, h₂, h⟩ := bind_ok h
    obtain ⟨rest, s3, h3, h⟩ := bind_ok h
    cases h
    obtain ⟨ht, hsub, -⟩ := initPartition_writes h₂
    have hnext : q.offset + q.size = o + 1000 := by rw [hqo, hqs]
    rw [hnext] at h3
    rw [hqo, hqs] at ht
    obtain ⟨hlen, hparts, htouch, hsub'⟩ := ih h3
    refine ⟨by rw [length_cons, hlen], fun {j p} hj => ?_, fun j hj => ?_,
      fun w hw => hsub' w (hsub w hw)⟩
    · cases j with
      | zero =>
        obtain rfl := Option.some.inj hj
        exact ⟨hqo, hqs⟩
      | succ j =>
        obtain ⟨h1, h2⟩ := hparts hj
        exact ⟨by rw [Nat.mul_succ, ← Nat.add_assoc]; omega, h2⟩
    · cases j with
      | zero => exact ⟨fun k hk => hsub' _ (ht.zeroes k hk), fun k hk => hsub' _ (ht.inodes k hk)⟩
      | succ j =>
        have := htouch j (by omega)
        rwa [Nat.add_assoc, Nat.add_comm 1 j, show o + 1000 + 1000 * j = o + 1000 * (j + 1) by
          rw [Nat.mul_succ, ← Nat.add_assoc]; omega] at this

theorem writeKernel_returns : ∀ {ls : List (List UInt8)} {buf : Block} {i r : Nat} {st st' : State},
    writeKernel buf i ls st = .ok (r, st') → r = i + ls.length
  | [], buf, i, r, st, st', h => by
    cases h
    rfl
  | l :: ls, buf, i, r, st, st', h => by
    obtain ⟨⟨⟩, s1, -, h⟩ := bind_ok h
    rw [writeKernel_returns h, length_cons]
    omega

theorem main_writes
    (h : main stack (some bootblock) (some kernel) args start = .ok (mbr, st)) :
    mbr.partitions.length = NPARTITIONS ∧
      (∀ {j q}, mbr.partitions[j]? = some q → q.offset = firstSector kernel + 1000 * j ∧
        q.size = FSSIZE) ∧
      ∀ j, j < NPARTITIONS → Touched (.part j) (firstSector kernel + 1000 * j) FSSIZE
        args st.writes := by
  unfold main at h
  obtain ⟨⟨⟩, s1, -, h⟩ := bind_ok h
  obtain ⟨r, s2, h2, h⟩ := bind_ok h
  obtain rfl : r = firstSector kernel := writeKernel_returns h2
  obtain ⟨parts, s3, h3, h⟩ := bind_ok h
  obtain ⟨⟨⟩, s4, hm, h⟩ := bind_ok h
  cases hm
  obtain ⟨⟨⟩, s5, h5, h⟩ := bind_ok h
  cases h
  have hk := keeps_wsect _ _ _ _ _ _ h5
  obtain ⟨hlen, hparts, htouch, -⟩ := initPartitions_writes h3
  refine ⟨hlen, hparts, fun j hj => ?_⟩
  have ht := htouch j hj
  rw [Nat.zero_add] at ht
  exact ⟨fun k hk' => hk.writes _ (ht.zeroes k hk'), fun k hk' => hk.writes _ (ht.inodes k hk')⟩

/-! ## Writes that stay in their areas -/

/-- The step comes after the initialisation of partition `i`. -/
def Phase.After : Phase → Nat → Prop
  | .boot, _ => False
  | .part j, i => i < j
  | .mbr, _ => True

/-- What is written for a partition lies in the area it is meant for, and a finished partition is
left alone. -/
structure Apart (parts : List Dpartition) (ws : List Write) : Prop where
  inside : ∀ w ∈ ws, ∀ i part, parts[i]? = some part → w.phase = .part i →
    w.area.Inside part.offset w.sector
  later : ∀ w ∈ ws, ∀ i part, parts[i]? = some part → w.phase.After i →
    ¬ (part.offset ≤ w.sector ∧ w.sector < part.offset + part.size)

/-- What the writes of a good run look like. -/
def Tidy (first : Nat) (w : Write) : Prop :=
  (∀ i, w.phase = .part i → w.area.Inside (first + 1000 * i) w.sector) ∧
  (w.phase = .mbr → w.sector = 0)

theorem Area.Inside.range {a : Area} (h : a.Inside o n) : o ≤ n ∧ n < o + 1000 := by
  cases a with
  | whole => exact h
  | superblock => obtain rfl : n = o := h; omega
  | inodes => rw [inside_inodes] at h; omega
  | bitmap => obtain rfl : n = o + 57 := h; omega
  | data => rw [inside_data] at h; omega

section
variable (h : main stack (some bootblock) (some kernel) args start = .ok (mbr, st))
include h

theorem main_partition {j : Nat} (hj : j < NPARTITIONS) : ∃ q, mbr.partitions[j]? = some q ∧
    q.offset = firstSector kernel + 1000 * j ∧ q.size = FSSIZE := by
  obtain ⟨hlen, hparts, -⟩ := main_writes h
  have hq : mbr.partitions[j]? = some (mbr.partitions[j]) :=
    List.getElem?_eq_getElem (by rw [hlen]; exact hj)
  exact ⟨_, hq, hparts hq⟩

/-- A run that keeps the partitions apart has few arguments and a small image. -/
theorem Apart.bounds (hA : Apart mbr.partitions st.writes) :
    args.length ≤ 206 ∧ firstSector kernel + FSSIZE * NPARTITIONS ≤ 2 ^ 23 := by
  obtain ⟨-, -, htouch⟩ := main_writes h
  refine ⟨?_, ?_⟩
  · -- the inode of argument 207 is not in an inode block
    by_contra hn
    obtain ⟨q, hq, hqo, -⟩ := main_partition h (j := 0) (by decide)
    have hin := hA.inside _ ((htouch 0 (by decide)).inodes 206 (by omega)) 0 q hq rfl
    rw [hqo, inside_inodes] at hin
    simp only [pos, BSIZE, IPB] at hin
    omega
  · -- the last sector of the last partition is where it should be
    obtain ⟨q, hq, hqo, -⟩ := main_partition h (j := 3) (by decide)
    have hin := hA.inside _ ((htouch 3 (by decide)).zeroes 999 (by decide)) 3 q hq rfl
    rw [hqo] at hin
    obtain ⟨h1, -⟩ := hin
    simp only [pos, BSIZE] at h1
    show firstSector kernel + 4000 ≤ 2 ^ 23
    omega

theorem made_of_bounds (hn : args.length ≤ 206)
    (hbound : firstSector kernel + FSSIZE * NPARTITIONS ≤ 2 ^ 23) :
    Made (Tidy (firstSector kernel)) (firstSector kernel) bootblock args mbr st := by
  refine wp_ok (Q := Made _ _ _ _)
    (E := fun _ => True) (main_wp (by show _ < 208; omega) hbound (fun i a b hin => ?_)
    (fun b => ?_) ?_ (.inr fun _ => trivial) fun _ _ hM _ => hM) h
  · exact ⟨fun j hj => by cases hj; exact hin, fun hm => by cases hm⟩
  · exact ⟨fun j hj => (by cases hj), fun hm => by cases hm⟩
  · exact ⟨fun j hj => (by cases hj), fun _ => rfl⟩

theorem apart_of_bounds (hn : args.length ≤ 206)
    (hbound : firstSector kernel + FSSIZE * NPARTITIONS ≤ 2 ^ 23) :
    Apart mbr.partitions st.writes := by
  have hM := made_of_bounds h hn hbound
  refine ⟨fun w hw i q hq hph => ?_, fun w hw i q hq hph => ?_⟩
  · rw [(hM.parts hq).1]
    exact (hM.writes w hw).1 i hph
  · obtain ⟨h1, h2⟩ := hM.parts hq
    obtain ⟨hin, hmbr⟩ := hM.writes w hw
    rw [h1, h2]
    cases hw' : w.phase with
    | boot =>
      rw [hw'] at hph
      exact absurd hph id
    | part j =>
      rw [hw'] at hph
      have hlt : i < j := hph
      have hr := (hin j hw').range
      have hmul : 1000 * i + 1000 ≤ 1000 * j := Nat.mul_le_mul_left 1000 hlt
      show ¬ (_ ∧ _ < _ + 1000)
      omega
    | mbr =>
      rw [hmbr hw']
      have : 0 < firstSector kernel := by unfold firstSector; omega
      omega

end

/-- **No spill.** For every boot block, kernel and list of arguments on which mkfs ends with
`exit(0)`, the partitions are kept apart exactly if there are at most 206 arguments and the four
partitions end within `2^23` sectors. -/
theorem mkfs_apart_iff (h : main stack (some bootblock) (some kernel) args start = .ok (mbr, st)) :
    Apart mbr.partitions st.writes ↔ args.length ≤ 206 ∧
      firstSector kernel + FSSIZE * NPARTITIONS ≤ 2 ^ 23 := by
  constructor
  · exact Apart.bounds h
  · rintro ⟨hn, hbound⟩
    exact apart_of_bounds h hn hbound

/-! ## 207 files -/

/-- Nothing in the files of a partition depends on its bitmap block. -/
theorem Holds.putBitmap {cs : List Node} {a : Area} {x : Block}
    (hH : Holds o (fun _ => True) st cs) :
    Holds o (fun _ => True) (st.put a (o + 57) x) cs := by
  have hB := hH.busy
  have hslot : ∀ i, i < nslots → slot o (update st.disk (o + 57) x) i = slot o st.disk i :=
    fun i hi =>
    slot_congr (fun b _ h => update_of_ne (by omega) ..) hi
  have hun : ∀ i, i < nslots →
      Unmoved st.disk (update st.disk (o + 57) x) (slot o st.disk i) (slot o st.disk i).size :=
    fun i hi => hB.own.unmoved hi (hH.exact i hi) fun b hb => update_of_ne (by omega) ..
  have hO : Own o (update st.disk (o + 57) x) (slot o (update st.disk (o + 57) x)) (total cs) := by
    refine (hB.own.congr (fun i hi h => ?_) fun b hb _ => update_of_ne (by omega) ..).table
      fun i hi => by rw [hslot i hi]
    have := hB.own.spread.indirect_range hi h
    exact update_of_ne (by omega) ..
  have hcount := hH.count
  have hnode : ∀ {i : Nat} {c : Node}, cs[i]? = some c → i + 1 < nslots := fun hc => by
    have := (List.getElem?_eq_some_iff.1 hc).1
    omega
  refine ⟨⟨hO, hB.le, hB.freeblock, ?_, hB.bound, hB.inodestart, fun i _ => inRange_getDinode _ _,
    fun _ _ => trivial,
    fun _ _ _ => trivial⟩, fun i hi => ?_, fun hc => ?_, fun hc => ?_, fun hc q hq => ?_,
    fun i hi hb => ?_, hH.count⟩
  · show max st.len _ = _
    rw [hB.len]
    omega
  · show Exact (update _ _ _) (slot o (update _ _ _) i) (slot o (update _ _ _) i).size
    rw [hslot i hi]
    exact (hun i hi).exact (hH.exact i hi)
  · show (slot o (update _ _ _) _).type = _
    rw [hslot _ (hnode hc)]
    exact hH.type hc
  · show (slot o (update _ _ _) _).size = _
    rw [hslot _ (hnode hc)]
    exact hH.size hc
  · show byteAt (update _ _ _) (slot o (update _ _ _) _) q = _
    rw [hslot _ (hnode hc), (hun _ (hnode hc)).byteAt (by rw [hH.size hc]; exact hq)]
    exact hH.bytes hc q hq
  · show slot o (update _ _ _) i = _
    rw [hslot i hi]
    exact hH.blank i hi hb

/-- An empty file called `a`. -/
def emptyArg : Arg := ⟨[97], some []⟩

theorem rootHandler_append {r : Nat} {Q : Unit → State → Prop} {a : Arg} :
    ∀ {args : List Arg} {st : State},
    (rootHandler r args).wp (fun _ st' => (rootHandler r [a]).wp Q F st') F st →
    (rootHandler r (args ++ [a])).wp Q F st
  | [], st, h => h
  | b :: rest, st, h => by
    rw [List.cons_append]
    unfold rootHandler at h ⊢
    rw [wp_ite] at h ⊢
    refine ⟨h.1, fun hs => ?_⟩
    have h := h.2 hs
    cases hc : b.content with
    | none =>
      rw [hc] at h
      exact h
    | some l =>
      rw [hc] at h
      simp only [wp_bind] at h ⊢
      exact wp_mono h fun _ _ h => wp_mono h fun _ _ h => wp_mono h fun _ _ h =>
        rootHandler_append h

theorem total_empty (n : Nat) : total ((replicate n emptyArg).map Arg.node) = 0 := by
  simp [total, blocksOf, emptyArg, Arg.node]

/-- One file more than there are inode slots: mkfs goes on. -/
theorem initPartition_over (ho : part.offset = o) (hs : part.size = FSSIZE)
    (hlen : st.len ≤ o + 1000) (hbound : o + 1000 ≤ 2 ^ 23) :
    (initPartition part (replicate 206 emptyArg ++ [emptyArg])).wp
      (fun _ st' => st'.len = o + 1000) F st := by
  have hdots : dots.length = 32 := by decide
  unfold initPartition
  rw [wp_bind]
  refine openPartition_wp (P := fun _ => True) ho hs hlen hbound (fun _ _ => trivial)
    (fun _ _ _ => trivial)
    fun st1 hH1 _ hsb1 hi1 => ?_
  rw [wp_bind]
  refine rootHandler_append (rootHandler_wp hH1 hi1 (by rw [length_replicate]; decide)
    (.inl ⟨fun a ha => ?_, ?_, ?_⟩)
    fun st2 hH2 hf2 hi2 _ => ?_)
  · obtain rfl := List.eq_of_mem_replicate ha
    exact ⟨⟨by decide, rfl⟩, Nat.zero_le _⟩
  · rw [length_replicate, hdots]
    decide
  · rw [List.nil_append, total_empty, length_replicate, hdots]
    decide
  rw [List.nil_append, List.length_nil, Nat.zero_add] at hH2
  rw [List.length_nil, length_replicate] at hi2
  unfold rootHandler
  have hplain : 47 ∉ emptyArg.name := by decide
  have hcont : emptyArg.content = some [] := rfl
  rw [if_neg hplain, hcont]
  -- inode 208 is written to the bitmap block
  have hB : Busy o (fun _ => True) { st2 with freeinode := 209 } (slot o st2.disk)
    (total (⟨T_DIR, dots ++ entriesFrom 2 (replicate 206 emptyArg)⟩ ::
      (replicate 206 emptyArg).map Arg.node)) :=
    { hH2.busy with }
  have hbm : 208 / IPB + st2.sb.inodestart = o + 57 := by
    rw [hB.inodestart]
    simp only [IPB, BSIZE]
    omega
  rw [wp_bind, ialloc, wp_bind, wp_get, wp_bind, wp_set, wp_bind, hi2, winode, wp_bind, wp_get, hbm,
    wp_bind, hB.rsect (by omega), wp_wsect, hB.pos (by omega), wp_pure, wp_bind]
  have hH3 := (show Holds o (fun _ => True) { st2 with freeinode := 209 } _ from
    ⟨hB, hH2.exact, hH2.type, hH2.size, hH2.bytes, hH2.blank, hH2.count⟩).putBitmap (a := .inodes)
      (x := putDinode (st2.disk (o + 57)) (208 % IPB) ⟨toShort T_FILE, 0, 0, 1, 0, fun _ => 0⟩)
  refine iappend_wp (i := 0) hH3 rfl (.inl ⟨?_, ?_⟩) fun st4 hH4 hf4 _ => ?_
  · rw [length_append, length_append, length_entriesFrom, length_entry, hdots, length_replicate]
    decide
  · rw [List.set_cons_zero, total_cons, total_empty, length_append, length_append,
      length_entriesFrom, length_entry, hdots, length_replicate]
    decide
  exact closePartition_wp ho hH4 rfl (hf4.sb.trans (hf2.sb.trans hsb1)) fun st' _ _ hlen' _ => hlen'

theorem main_over : (main stack (some []) (some []) (replicate 206 emptyArg ++ [emptyArg])).wp
    (fun _ _ => True) F start := by
  have hloop : ∀ {n i o : Nat} {part : Dpartition} {st : State}, o + 1000 * n ≤ 2 ^ 23 →
    st.len ≤ o + 1000 → ∀ {Q : List Dpartition → State → Prop}, (∀ parts st', Q parts st') →
      (initPartitions (replicate 206 emptyArg ++ [emptyArg]) part o i n).wp Q F st := by
    intro n
    induction n with
    | zero => exact fun _ _ _ hQ => hQ _ _
    | succ n ih =>
      intro i o part st hbound hlen Q hQ
      rw [Nat.mul_succ, ← Nat.add_assoc] at hbound
      obtain ⟨q, hq, hqo, hqs⟩ : ∃ q, createPartition part PART_BOOTABLE FS_INODE o FSSIZE =
        q ∧ q.offset = o ∧ q.size = FSSIZE := ⟨_, rfl, rfl, rfl⟩
      have hlen' : ({ st with phase := .part i } : State).len ≤ o + 1000 := hlen
      have hnext : q.offset + q.size = o + 1000 := by rw [hqo, hqs]
      unfold initPartitions
      simp only [hq]
      rw [wp_bind, wp_modify, wp_bind]
      refine wp_mono (initPartition_over hqo hqs hlen' (by omega)) fun _ st1 hlen1 => ?_
      rw [wp_bind, hnext]
      exact ih (by omega) (by rw [hlen1]; exact Nat.le_add_right _ _) fun _ _ => hQ _ _
  unfold main
  rw [wp_bind]
  refine zeroSectors_wp (by decide) fun st1 hZ => ?_
  have hlen1 : st1.len ≤ 1 + 1000 := by
    rw [hZ.len, if_neg (by decide)]
    decide
  rw [wp_bind]
  show (initPartitions _ _ 1 0 NPARTITIONS >>= _).wp _ _ st1
  rw [wp_bind]
  exact hloop (by decide) hlen1 fun _ _ => trivial

def blankStack : Stack := ⟨Bytes.zero, ⟨0, 0, 0, 0⟩⟩

/-- With 207 files mkfs ends with `exit(0)`, having stored an inode in the bitmap block. -/
theorem mkfs_spills : ∃ mbr st part,
    main blankStack (some []) (some []) (List.replicate 207 emptyArg) start = .ok (mbr, st) ∧
    mbr.partitions[0]? = some part ∧
    (∃ w ∈ st.writes, w.phase = .part 0 ∧ w.area = .inodes ∧ w.sector = part.offset + 57) ∧
    ¬ Apart mbr.partitions st.writes := by
  have hover : (main blankStack (some []) (some []) (List.replicate 206 emptyArg ++ [emptyArg])).wp
      _ (fun _ => False) start :=
    main_over
  obtain ⟨mbr, st, hrun, -⟩ := wp_total.1 hover
  rw [← List.replicate_succ'] at hrun
  obtain ⟨hlen, hparts, htouch⟩ := main_writes hrun
  obtain ⟨q, hq⟩ : ∃ q, mbr.partitions[0]? = some q :=
    ⟨_, List.getElem?_eq_getElem (by rw [hlen]; decide)⟩
  have hoff : q.offset = 1 := (hparts hq).1
  have hw := (htouch 0 (by decide)).inodes 206 (by rw [List.length_replicate]; decide)
  have hpos : pos ((2 + 206) / IPB + (firstSector [] + 1000 * 0 + 31)) = 58 := by decide
  rw [hpos] at hw
  refine ⟨mbr, st, _, hrun, hq, ⟨_, hw, rfl, rfl, by rw [hoff]⟩, fun hA => ?_⟩
  have hin := hA.inside _ hw 0 _ hq rfl
  rw [hoff] at hin
  exact absurd hin (by decide)

/-- Two files, `a` and `b`. -/
def twoFiles : List Arg := [⟨[95, 97], some [7]⟩, ⟨[98], some [8, 9]⟩]

/-- Written behind a kernel of one sector they keep the partitions apart. -/
theorem mkfs_apart_iff_demo :
    ∃ mbr st, main blankStack (some []) (some [1, 2, 3]) twoFiles start = .ok (mbr, st) ∧
    Apart mbr.partitions st.writes := by
  have hfit : Fit twoFiles := ⟨by simp [twoFiles, Arg.Plain], by decide, by decide⟩
  have hmain : (main blankStack (some []) (some [1, 2, 3]) twoFiles).wp (fun _ _ => True)
      (fun _ => False) start :=
    main_wp (P := fun _ => True) (by decide) (by decide) (fun _ _ _ _ => trivial) (fun _ => trivial)
      trivial (.inl hfit)
      fun _ _ _ _ => trivial
  obtain ⟨mbr, st, hrun, -⟩ := wp_total.1 hmain
  exact ⟨mbr, st, hrun, (mkfs_apart_iff hrun).2 (by decide)⟩

end Os4.Fs.Mkfs
