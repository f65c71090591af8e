import Os4.Fs.File
/-!
# The inode cache (fs.c:326-452)

| here | there |
| --- | --- |
| `Inv E L s` | the file system is sound, and each slot listed in `L` has a reference for each time it is |
| `Walked E L s s'` | inodes were looked at: no file changed, except that one without links may be gone |

`L` are the references somebody relies on: `iget` adds one, `iput` takes one off. A slot in `L`
keeps its inode, and its inode stays loaded.
-/
namespace Os4.Fs

open Prog

variable {E : Env} {first : Nat} {p q : Int} {k k' : Fin NINODE} {i j : Nat} {s s1 s' : FsState}
  {L L' : List (Fin NINODE)} {x : Inode} {prt : Option Int} {inum : Nat} {F : Panic → Prop}

/-- The panic that a sound file system does not run into. -/
def Fine (e : Panic) : Prop := e ≠ .freeingFree

/-! ## Slots -/

def FsState.withInode (s : FsState) (k : Fin NINODE) (x : Inode) : FsState :=
  { s with icache := Function.update s.icache k x }

@[simp] theorem withInode_disk : (s.withInode k x).disk = s.disk := rfl

@[simp] theorem withInode_self : (s.withInode k x).icache k = x := Function.update_self ..

theorem withInode_ne (h : k' ≠ k) : (s.withInode k x).icache k' = s.icache k' :=
  Function.update_of_ne h ..

variable {x' : Inode}

@[simp] theorem withInode_withInode : (s.withInode k x).withInode k x' = s.withInode k x' := by
  simp only [FsState.withInode, Function.update_idem]

variable {Q : Unit → FsState → Prop}

@[simp] theorem wp_setInode : (setInode k x).wp Q F s ↔ Q () (s.withInode k x) := Iff.rfl

/-- The inode a slot is for. -/
def Inode.ident (x : Inode) : Option Int × Nat := (x.prt, x.inum)

def FsState.ident (s : FsState) (k : Fin NINODE) : Option Int × Nat := (s.icache k).ident

theorem cachedAt_some (h : s.cachedAt prt inum = some k) :
    0 < (s.icache k).ref ∧ s.ident k = (prt, inum) := by
  have := List.find?_some h
  simp only [Bool.and_eq_true, decide_eq_true_eq, beq_iff_eq] at this
  exact ⟨this.1.1, by rw [FsState.ident, Inode.ident, this.1.2, this.2]⟩

theorem cachedAt_none (h : s.cachedAt prt inum = none) (hk : 0 < (s.icache k).ref) :
    s.ident k ≠ (prt, inum) := by
  intro heq
  obtain ⟨h1, h2⟩ := Prod.mk.inj heq
  have := List.find?_eq_none.1 h k (List.mem_finRange k)
  simp [hk, h1, h2] at this

theorem emptySlot_some (h : s.emptySlot = some k) : (s.icache k).ref = 0 := by
  simpa using List.find?_some h

theorem wp_iget {Q : Fin NINODE → FsState → Prop} {F : Panic → Prop}
    (hfull : s.emptySlot = none → F .iget)
    (hhit : ∀ k, 0 < (s.icache k).ref → s.ident k = (prt, inum) →
      Q k (s.withInode k { s.icache k with ref := (s.icache k).ref + 1 }))
    (hmiss : ∀ k, (∀ k', 0 < (s.icache k').ref → s.ident k' ≠ (prt, inum)) → (s.icache k).ref = 0 →
      Q k (s.withInode k { s.icache k with prt, inum, ref := 1, busy := false, valid := false })) :
      (iget prt inum).wp Q F s := by
  unfold iget
  rw [wp_bind, wp_get]
  cases hc : s.cachedAt prt inum with
  | some k =>
    rw [wp_bind, wp_setInode, wp_pure]
    exact hhit k (cachedAt_some hc).1 (cachedAt_some hc).2
  | none =>
    simp only
    cases he : s.emptySlot with
    | none => exact hfull he
    | some k =>
      rw [wp_bind, wp_setInode, wp_pure]
      exact hmiss k (fun _ => cachedAt_none hc) (emptySlot_some he)

/-! ## Soundness -/

/-- The directory entry at `off` in the contents of a directory. -/
def entryAt (l : List UInt8) (off : Nat) : Dirent := getDirent ((l.drop off).take 16)

/-- The entries of directories name inodes of their partition. -/
def Dirs (E : Env) (s : FsState) : Prop := ∀ p i, IsPart p → Live (dinodeAt E s.disk p) i →
  (dinodeAt E s.disk p i).type = T_DIR → ∀ t, 16 * t + 16 ≤ (dinodeAt E s.disk p i).size →
  (entryAt (fileOf E s p i) (16 * t)).inum < NINODES

structure Inv (E : Env) (L : List (Fin NINODE)) (s : FsState) : Prop where
  consistent : Consistent E s
  dirs : Dirs E s
  held : ∀ k, (L.count k : Int) ≤ (s.icache k).ref

theorem Inv.mono (h : Inv E L s) (hL : ∀ k, L'.count k ≤ L.count k) : Inv E L' s :=
  ⟨h.consistent, h.dirs, fun k => le_trans (Int.ofNat_le.2 (hL k)) (h.held k)⟩

theorem Inv.ref_pos (h : Inv E L s) (hk : k ∈ L) : 0 < (s.icache k).ref :=
  lt_of_lt_of_le (Int.natCast_pos.2 (List.count_pos_iff.2 hk)) (h.held k)

theorem Inv.slot (h : Inv E L s) (hk : k ∈ L) : Slot E s.disk (s.icache k) :=
  h.consistent.slot k (h.ref_pos hk)

/-- Slots in `L` keep their inodes, loaded ones stay loaded; files, processes and mounts are not
touched. -/
structure Kept (L : List (Fin NINODE)) (s s' : FsState) : Prop where
  ident : ∀ k ∈ L, s'.ident k = s.ident k
  loaded : ∀ k ∈ L, (s.icache k).valid = true →
    (s'.icache k).valid = true ∧ (s'.icache k).din.type = (s.icache k).din.type
  mounts : s'.mounts = s.mounts
  ftable : s'.ftable = s.ftable
  procs : s'.procs = s.procs

/-- No file changed, except that some may be gone. -/
def Later (E : Env) (s s' : FsState) : Prop :=
  ∀ p i, IsPart p → i < NINODES → SameFile E s s' p i ∨
    ((dinodeAt E s'.disk p i).type = 0 ∧
      (dinodeAt E s'.disk p i).nlink = (dinodeAt E s.disk p i).nlink)

structure Walked (E : Env) (L : List (Fin NINODE)) (s s' : FsState) : Prop extends Kept L s s' where
  later : Later E s s'

theorem Kept.refl : Kept L s s := ⟨fun _ _ => rfl, fun _ _ hv => ⟨hv, rfl⟩, rfl, rfl, rfl⟩

theorem Kept.trans (h : Kept L s s1) (h' : Kept L s1 s') : Kept L s s' where
  ident k hk := (h'.ident k hk).trans (h.ident k hk)
  loaded k hk hv := by
    obtain ⟨h1, h2⟩ := h.loaded k hk hv
    obtain ⟨h3, h4⟩ := h'.loaded k hk h1
    exact ⟨h3, h4.trans h2⟩
  mounts := h'.mounts.trans h.mounts
  ftable := h'.ftable.trans h.ftable
  procs := h'.procs.trans h.procs

theorem Kept.mono (h : Kept L s s') (hL : ∀ k ∈ L', k ∈ L) : Kept L' s s' :=
  ⟨fun k hk => h.ident k (hL k hk), fun k hk => h.loaded k (hL k hk), h.mounts, h.ftable, h.procs⟩

theorem SameFile.refl : SameFile E s s p i := ⟨rfl, fun _ => rfl⟩

theorem SameFile.trans (h : SameFile E s s1 p i) (h' : SameFile E s1 s' p i) :
    SameFile E s s' p i := by
  refine ⟨h'.1.trans h.1, fun hi => (h'.2 ?_).trans (h.2 hi)⟩
  exact ⟨hi.1, by rw [h.1]; exact hi.2⟩

theorem Later.of_disk (h : s'.disk = s.disk) : Later E s s' := by
  intro p i _ _
  left
  exact ⟨by rw [h], fun _ => by rw [fileOf, fileOf, h]⟩

theorem Later.trans (h : Later E s s1) (h' : Later E s1 s') : Later E s s' := by
  intro p i hp hi
  rcases h p i hp hi with h1 | ⟨h1, hn⟩
  · rcases h' p i hp hi with h2 | ⟨h2, hn'⟩
    · exact .inl (h1.trans h2)
    · exact .inr ⟨h2, by rw [hn', h1.1]⟩
  · rcases h' p i hp hi with h2 | ⟨h2, hn'⟩
    · exact .inr ⟨by rw [h2.1]; exact h1, by rw [h2.1, hn]⟩
    · exact .inr ⟨h2, hn'.trans hn⟩

theorem Walked.refl : Walked E L s s := ⟨Kept.refl, Later.of_disk rfl⟩

theorem Walked.trans (h : Walked E L s s1) (h' : Walked E L s1 s') : Walked E L s s' :=
  ⟨h.toKept.trans h'.toKept, h.later.trans h'.later⟩

theorem Walked.tail (h : Walked E (k :: L) s s') : Walked E L s s' :=
  ⟨h.toKept.mono fun _ => List.mem_cons_of_mem k, h.later⟩

theorem Dirs.later (hD : Dirs E s) (h : Later E s s') : Dirs E s' := by
  intro p i hp hi ht t hlt
  rcases h p i hp hi.1 with ⟨hd, hf⟩ | ⟨hz, -⟩
  · rw [hd] at ht hlt
    rw [hf ⟨hi.1, by rw [← hd]; exact hi.2⟩]
    exact hD p i hp ⟨hi.1, by rw [← hd]; exact hi.2⟩ ht t hlt
  · exact absurd hz hi.2

/-! ## Taking, locking and unlocking -/

theorem Consistent.withInode (hC : Consistent E s) (hx : 0 < x.ref → Slot E s.disk x)
    (huniq : ∀ k', k' ≠ k → 0 < x.ref → 0 < (s.icache k').ref → s.ident k' ≠ x.ident) :
    Consistent E (s.withInode k x) where
  vol := hC.vol
  slot k' hk' := by
    by_cases h : k' = k
    · subst h; rw [withInode_self] at hk' ⊢; exact hx hk'
    · rw [withInode_ne h] at hk' ⊢; exact hC.slot k' hk'
  unique k1 k2 h1 h2 hp hi := by
    by_cases e1 : k1 = k <;> by_cases e2 : k2 = k
    · rw [e1, e2]
    · subst e1
      rw [withInode_self] at h1 hp hi
      rw [withInode_ne e2] at h2 hp hi
      exact absurd (Prod.ext hp.symm hi.symm) (huniq k2 e2 h1 h2)
    · subst e2
      rw [withInode_self] at h2 hp hi
      rw [withInode_ne e1] at h1 hp hi
      exact absurd (Prod.ext hp hi) (huniq k1 e1 h2 h1)
    · rw [withInode_ne e1, withInode_ne e2] at *
      exact hC.unique k1 k2 h1 h2 hp hi

theorem Inv.congr (hI : Inv E L s) (hd : s'.disk = s.disk) (hc : s'.icache = s.icache) :
    Inv E L s' where
  consistent := ⟨by rw [hd]; exact hI.consistent.vol, by rw [hc, hd]; exact hI.consistent.slot,
    by rw [hc]; exact hI.consistent.unique⟩
  dirs := hI.dirs.later (Later.of_disk hd)
  held := by rw [hc]; exact hI.held

theorem Inv.env {E' : Env} (hI : Inv E L s) (h : E'.offset = E.offset) : Inv E' L s where
  consistent := hI.consistent.env h
  dirs := by
    unfold Dirs fileOf
    rw [dinodeAt_env h]
    exact hI.dirs
  held := hI.held

theorem Slot.congr {disk : Disk} (h : Slot E disk x) (hid : x'.ident = x.ident)
    (hv : x'.valid = true → x.valid = true) (hd : x'.din = x.din) : Slot E disk x' := by
  obtain ⟨h1, h2⟩ := Prod.mk.inj hid
  refine ⟨by rw [h1, h2]; exact h.part, fun hv' => ?_⟩
  rw [h1, h2, hd]
  exact h.loaded (hv hv')

theorem Inv.withInode (hI : Inv E L s) (hk : 0 < (s.icache k).ref) (hid : x.ident = s.ident k)
    (hx : 0 < x.ref → Slot E s.disk x) (hL : ∀ k', k' ≠ k → L'.count k' ≤ L.count k')
    (hheld : (L'.count k : Int) ≤ x.ref) :
    Inv E L' (s.withInode k x) where
  consistent := hI.consistent.withInode hx fun k' hne _ hk' heq => hne <| by
    obtain ⟨h1, h2⟩ := Prod.mk.inj (heq.trans hid)
    exact hI.consistent.unique k' k hk' hk h1 h2
  dirs := hI.dirs.later (Later.of_disk rfl)
  held k' := by
    by_cases h : k' = k
    · subst h; rw [withInode_self]; exact hheld
    · rw [withInode_ne h]
      exact le_trans (Int.ofNat_le.2 (hL k' h)) (hI.held k')

theorem Walked.withInode (hid : k ∈ L → x.ident = s.ident k)
    (hload : k ∈ L → (s.icache k).valid = true → x.valid = true ∧
      x.din.type = (s.icache k).din.type) :
    Walked E L s (s.withInode k x) where
  ident k' hk' := by
    by_cases h : k' = k
    · subst h; rw [FsState.ident, withInode_self]; exact hid hk'
    · rw [FsState.ident, withInode_ne h]; rfl
  loaded k' hk' hv := by
    by_cases h : k' = k
    · subst h; rw [withInode_self]; exact hload hk' hv
    · rw [withInode_ne h]; exact ⟨hv, rfl⟩
  mounts := rfl
  ftable := rfl
  procs := rfl
  later := Later.of_disk rfl

/-- What `iget` returns: a slot for the inode asked for, with one more reference. -/
structure Got (E : Env) (L : List (Fin NINODE)) (y : Option Int × Nat) (s : FsState)
    (k : Fin NINODE) (s' : FsState) :
    Prop where
  inv : Inv E (k :: L) s'
  walked : Walked E L s s'
  ident : s'.ident k = y
  disk : s'.disk = s.disk
  busy : ∀ k' ∈ L, (s'.icache k').busy = (s.icache k').busy

theorem Inv.got (hI : Inv E L s) (hk : 0 < (s.icache k).ref) :
    Got E L (s.ident k) s k (s.withInode k { s.icache k with ref := (s.icache k).ref + 1 }) := by
  refine ⟨hI.withInode hk rfl (fun _ => (hI.consistent.slot k hk).congr rfl id rfl)
    (fun k' hne => ?_) ?_,
    Walked.withInode (fun _ => rfl) (fun _ hv => ⟨hv, rfl⟩), ?_, rfl, fun k' _ => ?_⟩
  · rw [List.count_cons_of_ne hne.symm]
  · have := hI.held k
    rw [List.count_cons_self]
    push_cast
    omega
  · rw [FsState.ident, withInode_self]; rfl
  · by_cases hkk : k' = k
    · rw [hkk, withInode_self]
    · rw [withInode_ne hkk]

theorem iget_wp (hI : Inv E L s) (hp : ∀ p, prt = some p → IsPart p ∧ inum < NINODES)
    {Q : Fin NINODE → FsState → Prop} (h : ∀ k s', Got E L (prt, inum) s k s' → Q k s') :
    (iget prt inum).wp Q Fine s := by
  refine wp_iget (fun _ => nofun) (fun k hk hid => h k _ (hid ▸ hI.got hk)) fun k hnew h0 => ?_
  have hfree : k ∉ L := fun hkL => absurd (hI.ref_pos hkL) (by omega)
  refine h k _ ⟨⟨?_, hI.dirs.later (Later.of_disk rfl), fun k' => ?_⟩,
    Walked.withInode (fun hkL => absurd hkL hfree) (fun hkL => absurd hkL hfree), ?_,
    rfl, fun k' hk' => ?_⟩
  · exact hI.consistent.withInode (fun _ => ⟨hp, fun hv => Bool.noConfusion hv⟩) fun k' _ _ hk' =>
      hnew k' hk'
  · by_cases hkk : k' = k
    · rw [hkk, withInode_self, List.count_cons_self, List.count_eq_zero.2 hfree]
      exact le_refl _
    · rw [withInode_ne hkk, List.count_cons_of_ne (Ne.symm hkk)]
      exact hI.held k'
  · rw [FsState.ident, withInode_self]; rfl
  · have hkk : k' ≠ k := fun hkk => hfree (hkk ▸ hk')
    rw [withInode_ne hkk]

theorem idup_wp (hI : Inv E L s) (hk : k ∈ L) {Q : Fin NINODE → FsState → Prop}
    (h : ∀ s', Got E L (s.ident k) s k s' → Q k s') : (idup k).wp Q Fine s := by
  unfold idup
  rw [wp_bind, wp_inode, wp_bind, wp_setInode, wp_pure]
  exact h _ (hI.got (hI.ref_pos hk))

/-- `ilock` either panics or leaves slot `k` with its inode loaded and locked. -/
theorem ilock_cases (hC : Consistent E s) (hk : 0 < (s.icache k).ref)
    (hnone : (s.icache k).prt = none → F .ilockNoPartition)
    (hbusy : (s.icache k).busy = true → F .deadlock)
    (hzero : ∀ p, (s.icache k).prt = some p → (dinodeAt E s.disk p (s.icache k).inum).type =
      0 → F .ilockNoType)
    (h : ∀ p x, (s.icache k).busy = false → x.ident = s.ident k →
      x.ref = (s.icache k).ref → x.prt = some p → x.busy = true → x.valid = true → Slot E s.disk x →
      ((s.icache k).valid = true → x.din = (s.icache k).din) → Q () (s.withInode k x)) :
      (ilock E k).wp Q F s := by
  unfold ilock
  rw [wp_bind, wp_inode, if_neg (by omega), wp_ite]
  refine ⟨hnone, fun hprt => ?_⟩
  rw [wp_ite]
  refine ⟨hbusy, fun hbusy => ?_⟩
  obtain ⟨p, hprt⟩ := Option.ne_none_iff_exists'.1 hprt
  obtain ⟨hp, hi⟩ := (hC.slot k hk).part p hprt
  have hunlocked : (s.icache k).busy = false := by simpa using hbusy
  have hid : ((some p, (s.icache k).inum) : Option Int × Nat) = s.ident k := by
    rw [FsState.ident, Inode.ident, hprt]
  rw [wp_bind, wp_setInode, wp_bind, hprt]
  refine readsb_wp ?_ ?_
  · exact (hC.vol p hp).sb
  rw [wp_ite]
  refine ⟨fun hv => ?_, fun hv => ?_⟩
  · rw [wp_pure]
    exact h p _ hunlocked hid rfl rfl rfl hv ((hC.slot k hk).congr hid id rfl) fun _ => rfl
  · have hbno : (s.icache k).inum / IPB + (sbAt (E.offset p)).inodestart =
        inodeBlock E p (s.icache k).inum := by
      show (s.icache k).inum / IPB + (31 + E.offset p) = E.offset p + 31 + (s.icache k).inum / IPB
      omega
    rw [wp_bind, wp_bread, hbno, wp_bind, wp_setInode, wp_ite, withInode_withInode]
    refine ⟨hzero p hprt, fun htype => ?_⟩
    rw [wp_pure]
    refine h p _ hunlocked hid rfl rfl rfl rfl ⟨fun q hq => ?_, fun _ => ⟨p, rfl, rfl, htype⟩⟩
      fun hv' => absurd hv' hv
    exact (hC.slot k hk).part q (hprt.trans hq)

/-- What `ilock` leaves: the inode of slot `k` is loaded and the caller's. -/
structure Locked (E : Env) (L : List (Fin NINODE)) (p : Int) (s : FsState) (k : Fin NINODE)
    (s' : FsState) : Prop where
  inv : Inv E L s'
  walked : Walked E L s s'
  disk : s'.disk = s.disk
  other : ∀ k', k' ≠ k → s'.icache k' = s.icache k'
  unlocked : (s.icache k).busy = false
  prt : (s'.icache k).prt = some p
  busy : (s'.icache k).busy = true
  valid : (s'.icache k).valid = true

theorem ilock_wp (hI : Inv E L s) (hk : k ∈ L)
    (h : ∀ p s', Locked E L p s k s' → Q () s') : (ilock E k).wp Q Fine s := by
  refine ilock_cases hI.consistent (hI.ref_pos hk) (fun _ h => Panic.noConfusion h)
    (fun _ h => Panic.noConfusion h)
    (fun _ _ _ h => Panic.noConfusion h) fun p x hun hid href hprt hbusy hvalid hslot hdin =>
      h p _ ⟨?_, ?_, rfl,
    fun k' hne => withInode_ne hne, hun, by rw [withInode_self]; exact hprt,
    by rw [withInode_self]; exact hbusy, by rw [withInode_self]; exact hvalid⟩
  · exact hI.withInode (hI.ref_pos hk) hid (fun _ => hslot) (fun _ _ => le_refl _)
      (by rw [href]; exact hI.held k)
  · exact Walked.withInode (fun _ => hid) fun _ hv => ⟨hvalid, by rw [hdin hv]⟩

/-- What `iunlock` leaves: only flags of slots changed. -/
structure Unlocked (E : Env) (L : List (Fin NINODE)) (s : FsState) (k : Fin NINODE) (s' : FsState) :
    Prop where
  inv : Inv E L s'
  walked : Walked E L s s'
  disk : s'.disk = s.disk
  other : ∀ k', k' ≠ k → s'.icache k' = s.icache k'

theorem iunlock_wp (hI : Inv E L s) (hk : k ∈ L)
    (h : ∀ s', Unlocked E L s k s' → Q () s') : (iunlock k).wp Q Fine s := by
  unfold iunlock
  rw [wp_bind, wp_inode, wp_ite]
  refine ⟨fun _ h => Panic.noConfusion h, fun _ => ?_⟩
  rw [wp_setInode]
  exact h _ ⟨hI.withInode (hI.ref_pos hk) rfl (fun _ => (hI.slot hk).congr rfl id rfl)
    (fun _ _ => le_refl _) (hI.held k),
    Walked.withInode (fun _ => rfl) (fun _ hv => ⟨hv, rfl⟩), rfl, fun k' hne => withInode_ne hne⟩

end Os4.Fs
