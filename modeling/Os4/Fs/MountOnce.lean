import Os4.Fs.Accounting
import Os4.Fs.Every
import Os4.Fs.MountTable
/-!
# What the mount table records (fs.c:804-871)

| here | there |
| --- | --- |
| `Records e` | a call of `mount` has filled the entry (fs.c:861-865) |
| `Once m` | no two entries record the same inode, or the same string |
| `Unclaimed` | `is_mounted(path)` and `is_inode_mounted(in)` both answer no |
| `WellFormed e` | `prt` points into `partitions[]`, and `(old_prt, old_i)` is a directory |
| `mounter` | processes that call `sys_mount` (sysfile.c:287) and nothing else |

`mount` asks `is_mounted` for its string, takes a slot and fills it, and other calls run in between;
for the inode it does not ask at all. A call that has taken a slot holds a token for it, its number:
`Slots M m` says that the slots with tokens are those that are taken and not filled.

* **`mount_once`**: the table records an inode and a string once, as long as both are unclaimed when
  a slot is filled.
* `mounted_twice`: the directory under two spellings, and one string mounted by two processes.

`mount` does not look at its index, nor at the type of the inode. `sys_mount` has no transaction, so
as long as nothing else runs `log_write` panics and the disk stays as it is (`Unwritten`).

* **`mount_wellFormed`**: the entries are well formed as long as index and inode are when a slot is
  filled.
* `mounted_badly`: a file, and an index past the end of `partitions[]`.
-/
namespace Os4.Fs

open Prog
open Par (act)
open List (mem_of_getElem? replicate)

variable {E : Env} {M : Multiset Nat} {m : List MountPoint} {s : FsState} {path : List UInt8}
  {i : Int} {ip : Fin NINODE} {P : (Fin NPROC → Option Job) → Prop} {j : Nat}

def Records (e : MountPoint) : Prop := e.isTaken = true ∧ e.prt ≠ none

def Once (m : List MountPoint) : Prop :=
  ∀ (j j' : Nat) (e e' : MountPoint), m[j]? = some e → m[j']? = some e' → Records e → Records e' →
  (e.oldPrt = e'.oldPrt ∧ e.oldI = e'.oldI) ∨ e.path = e'.path → j = j'

/-- What is asked when a slot is filled. -/
def Unclaimed : Point → FsState → Prop
  | .fill path _ ip, s =>
    findMp s.mounts path = none ∧
      isInodeMounted s.mounts (s.icache ip).inum (s.icache ip).prt = none
  | _, _ => True

/-- A slot that `mpalloc` has returned. -/
def takenSlot : MountPoint := { freeSlot with isTaken := true }

/-- The slots in `M` are taken by calls that have not filled them yet. -/
structure Slots (M : Multiset Nat) (m : List MountPoint) : Prop where
  free : ∀ (j : Nat) (e : MountPoint), m[j]? = some e → e.isTaken = false → e = freeSlot
  mine : ∀ j ∈ M, m[j]? = some takenSlot
  claimed : ∀ (j : Nat) (e : MountPoint), m[j]? = some e → e.isTaken = true → e.prt = none → j ∈ M
  nodup : M.Nodup
  once : Once m

theorem slots_boot : Slots 0 (replicate MOUNT_POINTS_SIZE freeSlot) := by
  have hfree : ∀ (j : Nat) (e : MountPoint), (replicate MOUNT_POINTS_SIZE freeSlot)[j]? = some e →
      e = freeSlot := fun j e he =>
    List.eq_of_mem_replicate (mem_of_getElem? he)
  refine ⟨fun j e he _ => hfree j e he, fun j hj => absurd hj (Multiset.notMem_zero j),
    fun j e he ht => ?_, Multiset.nodup_zero, fun j j' e e' he _ hr => ?_⟩
  · rw [hfree j e he] at ht
    cases ht
  · rw [hfree j e he] at hr
    cases hr.1

variable {e : MountPoint} {f : MountPoint → MountPoint}

theorem modify_cases {e0 : MountPoint} {j' : Nat} (he0 : m[j]? = some e0)
    (he : (m.modify j f)[j']? = some e) : (j' = j ∧ e = f e0) ∨ (j' ≠ j ∧ m[j']? = some e) := by
  by_cases hne : j = j'
  · subst hne
    rw [List.getElem?_modify_eq, he0] at he
    cases he
    exact .inl ⟨rfl, rfl⟩
  · rw [List.getElem?_modify_ne _ _ hne] at he
    exact .inr ⟨Ne.symm hne, he⟩

theorem modify_other {j' : Nat} (hne : j ≠ j') (he : m[j']? = some e) :
    (m.modify j f)[j']? = some e := by
  rw [List.getElem?_modify_ne _ _ hne, he]

theorem Slots.take (h : Slots M m) (hj : mpalloc m = some j) :
    Slots (j ::ₘ M) (m.modify j fun old => { old with isTaken := true }) := by
  obtain ⟨e0, he0, hfree⟩ := mpalloc_some hj
  have he := h.free j e0 he0 hfree
  subst he
  have hnew : j ∉ M := fun hmem => by
    have := h.mine j hmem
    rw [he0] at this
    cases this
  refine ⟨fun j' e he hf => ?_, fun j' hj' => ?_, fun j' e he ht hp => ?_,
    Multiset.nodup_cons.2 ⟨hnew, h.nodup⟩, ?_⟩
  · rcases modify_cases he0 he with ⟨-, rfl⟩ | ⟨-, he⟩
    · cases hf
    · exact h.free j' e he hf
  · rcases Multiset.mem_cons.1 hj' with rfl | hj'
    · rw [List.getElem?_modify_eq, he0]
      rfl
    · exact modify_other (fun hne => hnew (hne ▸ hj')) (h.mine j' hj')
  · rcases modify_cases he0 he with ⟨rfl, -⟩ | ⟨-, he⟩
    · exact Multiset.mem_cons_self ..
    · exact Multiset.mem_cons_of_mem (h.claimed j' e he ht hp)
  · intro a b e e' he he' hr hr' hsame
    rcases modify_cases he0 he with ⟨-, rfl⟩ | ⟨-, he⟩
    · exact absurd rfl hr.2
    · rcases modify_cases he0 he' with ⟨-, rfl⟩ | ⟨-, he'⟩
      · exact absurd rfl hr'.2
      · exact h.once a b e e' he he' hr hr' hsame

theorem strncmp_cut (r : Nat) :
    ∀ (n : Nat) (p : List UInt8), strncmp p (p.take n ++ replicate r 0) n = 0 := by
  intro n
  induction n with
  | zero => intro p; rfl
  | succ n ih =>
    intro p
    cases p with
    | nil => cases r <;> simp [strncmp, List.replicate_succ]
    | cons x p =>
      have := ih p
      by_cases hx : x = 0
      · simp [strncmp, hx]
      · simpa [strncmp, hx] using this

theorem namecmp_stored (path : List UInt8) (i : Int) (inum : Nat) (prt : Option Int) :
    namecmp path (mountEntry takenSlot path i inum prt).path = 0 := by
  have hstored : (mountEntry takenSlot path i inum prt).path =
      path.take DIRSIZ ++ replicate (DIRSIZ - min DIRSIZ path.length) 0 := by
    simp only [mountEntry, takenSlot, freeSlot, List.drop_replicate]
  rw [namecmp, hstored]
  exact strncmp_cut _ _ _

theorem Slots.fill {inum : Nat} {prt : Option Int} (h : Slots (j ::ₘ M) m)
    (hpath : findMp m path = none)
    (hinode : isInodeMounted m inum prt = none) :
    Slots M (m.modify j fun old => mountEntry old path i inum prt) := by
  have he0 := h.mine j (Multiset.mem_cons_self ..)
  obtain ⟨hnew, hnodup⟩ := Multiset.nodup_cons.1 h.nodup
  -- no other entry has the inode or the string
  have hother : ∀ (j' : Nat) (e : MountPoint), m[j']? = some e →
      ¬ ((prt = e.oldPrt ∧ inum = e.oldI) ∨
        (mountEntry takenSlot path i inum prt).path = e.path) := by
    rintro j' e he (⟨hp, hi⟩ | hpe)
    · rw [isInodeMounted, Option.map_eq_none_iff, List.find?_eq_none] at hinode
      exact hinode e (mem_of_getElem? he) (by simp [hp, hi])
    · have := namecmp_stored path i inum prt
      rw [hpe] at this
      exact findMp_none.1 hpath e (mem_of_getElem? he) this
  refine ⟨fun j' e he hf => ?_, fun j' hj' => ?_, fun j' e he ht hp => ?_, hnodup, ?_⟩
  · rcases modify_cases he0 he with ⟨-, rfl⟩ | ⟨-, he⟩
    · cases hf
    · exact h.free j' e he hf
  · exact modify_other (fun hne => hnew (hne ▸ hj')) (h.mine j' (Multiset.mem_cons_of_mem hj'))
  · rcases modify_cases he0 he with ⟨-, rfl⟩ | ⟨hne, he⟩
    · cases hp
    · exact (Multiset.mem_cons.1 (h.claimed j' e he ht hp)).resolve_left hne
  · intro a b e e' he he' hr hr' hsame
    rcases modify_cases he0 he with ⟨rfl, rfl⟩ | ⟨hne, hold⟩
    · rcases modify_cases he0 he' with ⟨rfl, -⟩ | ⟨-, hold'⟩
      · rfl
      · exact absurd hsame (hother b e' hold')
    · rcases modify_cases he0 he' with ⟨rfl, rfl⟩ | ⟨-, hold'⟩
      · exact absurd (hsame.imp (fun h => ⟨h.1.symm, h.2.symm⟩) Eq.symm) (hother a e hold)
      · exact h.once a b e e' hold hold' hr hr' hsame

/-! ## Threads -/

def slotRules : Rules (Fin NPROC → Option Job) Nat FsState Panic Point where
  inv _ M s := Slots M s.mounts
  allowed := Unclaimed
  keeps _ _ _ := True
  fine _ _ := True

/-- The steps that leave the table alone. -/
def KeepsMounts (s s' : FsState) : Prop := s'.mounts = s.mounts

theorem local_keepsMounts : Local KeepsMounts where
  refl _ := rfl
  trans _ _ _ h h' := h'.trans h
  put _ _ _ := rfl
  inode _ _ _ := rfl

theorem respectsAll_keepsMounts (E : Env) : RespectsAll E fun _ m => Steps KeepsMounts m where
  toRespects := steps_respects local_keepsMounts E
  setFile _ _ := Steps.modify fun _ => rfl
  setProc _ _ := Steps.modify fun _ => rfl
  beginOp := Steps.modify fun _ => rfl
  endOp := Steps.modify fun _ => rfl

theorem safe_keepsMounts {α : Type} {t : Code α} {A : Multiset Nat}
    (ht : t.Each fun _ m => Steps KeepsMounts m) :
    Safe slotRules P t A fun _ B => B = A := by
  refine Safe.each ht (fun _ => rfl) fun β m hm l g M s hI =>
    wp_of_ok (fun a s' hr => ⟨trivial, ?_⟩) fun _ _ => trivial
  have hs : s'.mounts = s.mounts := hm s a s' hr
  show Slots M s'.mounts
  rw [hs]
  exact hI

theorem safe_takeSlot : Safe slotRules P (act Par.takeSlot) 0 fun o B => B = o.elim 0 ({·}) := by
  refine Safe.step fun g M s _ hI _ => ?_
  rw [Par.takeSlot, wp_bind, wp_get]
  rw [zero_add] at hI
  cases hj : mpalloc s.mounts with
  | none =>
    rw [wp_pure]
    exact ⟨trivial, 0, by rwa [zero_add], Rules.owed_due_le (fun _ => rfl) rfl, rfl⟩
  | some j =>
    rw [wp_bind, wp_set, wp_pure]
    exact ⟨trivial, {j}, Slots.take hI hj, Rules.owed_due_le (fun _ => rfl) rfl, rfl⟩

theorem safe_fillSlot : Safe slotRules P (.step (.fill path i ip) (Par.fillSlot j path i ip))
    {j} fun _ B => B = 0 := by
  refine Safe.step fun g M s _ hI hok => ?_
  rw [Par.fillSlot, wp_modify]
  refine ⟨trivial, 0, ?_, Rules.owed_due_le (fun _ => rfl) rfl, rfl⟩
  rw [zero_add]
  exact Slots.fill hI hok.1 hok.2

theorem safe_mount (cwd : Fin NINODE) :
    Safe slotRules P (Par.mount E cwd path i) 0 fun _ B => B = 0 := by
  have hR := (respectsAll_keepsMounts E).toRespects
  refine (safe_keepsMounts (hR.changes.namei cwd path)).next fun o => ?_
  cases o with
  | none => exact .ret rfl
  | some ip =>
    refine (safe_keepsMounts (hR.walk.mountedAt path)).next fun o => ?_
    cases o with
    | some _ => exact .ret rfl
    | none =>
      refine safe_takeSlot.next fun o => ?_
      cases o with
      | none => exact .ret rfl
      | some j =>
        refine safe_fillSlot.bind fun _ B hB => ?_
        exact .ret hB

theorem obeys_slotRules (E : Env) : Obeys (system E) slotRules fun _ B => B = 0 where
  body job B hB := by
    subst hB
    have hR := respectsAll_keepsMounts E
    cases job with
    | call c =>
      exact safe_keepsMounts (hR.transacts.call (n := 0) (fun _ => Steps.modify fun _ => rfl) c
        fun _ => hR.writes.reads)
    | mount p path i =>
      refine (safe_keepsMounts (hR.walk.proc _)).next fun pr => ?_
      exact safe_mount pr.cwd
  jobs _ _ _ _ _ _ _ h := h

/-- **Each inode and each string is recorded once**, and when no call is in progress every entry
that is taken records something. -/
theorem mount_once {c : System} (hs : s.mounts = List.replicate MOUNT_POINTS_SIZE freeSlot)
    (h : Pool.Reaches (system E) Unclaimed ⟨fun _ => none, s⟩ c) :
    Once c.state.mounts ∧ (c.Quiet → ∀ e ∈ c.state.mounts, e.isTaken = true → Records e) := by
  have hstart : Sound slotRules (fun _ B => B = 0) (⟨fun _ => none, s⟩ : System) := by
    refine ⟨fun _ => 0, ?_, fun i => ⟨rfl, le_rfl⟩⟩
    show Slots (∑ i, 0) s.mounts
    rw [Finset.sum_const_zero, hs]
    exact slots_boot
  obtain ⟨A, hI, hA⟩ := hstart.reaches (obeys_slotRules E) h
  refine ⟨hI.once, fun hq e he ht => ⟨ht, fun hp => ?_⟩⟩
  have hzero : ∀ i, A i = 0 := fun i => by
    have := hA i
    rw [hq i] at this
    exact this.1
  obtain ⟨j, hj⟩ := List.getElem?_of_mem he
  have hmem := hI.claimed j e hj ht hp
  rw [Finset.sum_congr rfl fun i _ => hzero i, Finset.sum_const_zero] at hmem
  exact Multiset.notMem_zero j hmem

instance (l : Point) (s : FsState) : Decidable (Unclaimed l s) :=
  match l with
  | .fill _ _ _ => inferInstanceAs (Decidable (_ ∧ _))
  | .plain | .balloc | .lookup _ | .store _ | .put _ => .isTrue trivial

/-- The system at boot, on a disk with a file `x` in the root directory. -/
def bootSystem : System := ⟨fun _ => none, bootState demoEnv treeDisk⟩

/-- `"/"` is mounted. -/
theorem mount_once_root : ∃ c : System, Pool.Reaches (system demoEnv) Unclaimed bootSystem c ∧
    (c.state.mounts.head?).map (·.isTaken) = some true ∧ Once c.state.mounts := by
  have hrun : (Pool.execAll (system demoEnv) (fun l s => decide (Unclaimed l s)) bootSystem
      (.start (.mount 0 [slash] 1) :: List.replicate 7 (.go 0))).map (fun c =>
        (c.state.mounts.head?).map (·.isTaken)) =
      some (some true) := by decide +kernel
  rw [Option.map_eq_some_iff] at hrun
  obtain ⟨c, hc, htaken⟩ := hrun
  have hreach := Pool.execAll_reaches (fun _ _ h => of_decide_eq_true h) hc
  exact ⟨c, hreach, htaken, (mount_once rfl hreach).1⟩

/-- Process 0 mounts `"/"` and then `"//"`. -/
def twoSpellings : List (Pool.Ev (Fin NPROC) Job) :=
  .start (.mount 0 [slash] 1) :: List.replicate 7 (.go 0) ++ .start (.mount 0 [slash, slash] 2) ::
  List.replicate 7 (.go 0)

/-- Process 0 and its child mount `"/"`; both find it unmounted before either has a slot. -/
def twoCalls : List (Pool.Ev (Fin NPROC) Job) :=
  .start (.call (.fork 0 (some 1))) :: List.replicate 4 (.go 0) ++
  .start (.mount 0 [slash] 1) :: List.replicate 4 (.go 0) ++ .start (.mount 1 [slash] 1) ::
  List.replicate 7 (.go 1) ++ List.replicate 3 (.go 0)

/-- No call is in progress, and the first two entries record something that `same` finds to be the
same. -/
def twice (same : MountPoint → MountPoint → Bool) (c : System) : Bool :=
  (List.finRange NPROC).all (fun i => (c.calls i).isNone) &&
  match c.state.mounts with
  | e :: e' :: _ => e.isTaken && e.prt.isSome && e'.isTaken && e'.prt.isSome && same e e'
  | _ => false

theorem twice_quiet {same : MountPoint → MountPoint → Bool} {c : System} (h : twice same c = true) :
    c.Quiet ∧ ∃ e e', c.state.mounts[0]? = some e ∧ c.state.mounts[1]? = some e' ∧ Records e ∧
      Records e' ∧ same e e' = true := by
  rw [twice, Bool.and_eq_true, List.all_eq_true] at h
  refine ⟨fun i => Option.isNone_iff_eq_none.1 (h.1 i (List.mem_finRange i)), ?_⟩
  rcases hm : c.state.mounts with _ | ⟨e, _ | ⟨e', m⟩⟩
  · simp [hm] at h
  · simp [hm] at h
  · rw [hm] at h
    simp only [Bool.and_eq_true] at h
    obtain ⟨-, ⟨⟨⟨ht, hp⟩, ht'⟩, hp'⟩, hsame⟩ := h
    exact ⟨e, e', rfl, rfl, ⟨ht, Option.isSome_iff_ne_none.1 hp⟩,
      ⟨ht', Option.isSome_iff_ne_none.1 hp'⟩, hsame⟩

/-- Two entries for the root directory, and two for `"/"`. -/
theorem mounted_twice :
    (∃ c : System, Pool.Reaches (system demoEnv) (fun _ _ => True) bootSystem c ∧ c.Quiet ∧
      ∃ e e', c.state.mounts[0]? = some e ∧ c.state.mounts[1]? = some e' ∧
        Records e ∧ Records e' ∧ e.oldPrt = e'.oldPrt ∧ e.oldI = e'.oldI) ∧
    ∃ c : System, Pool.Reaches (system demoEnv) (fun _ _ => True) bootSystem c ∧ c.Quiet ∧
      ∃ e e', c.state.mounts[0]? = some e ∧ c.state.mounts[1]? = some e' ∧
        Records e ∧ Records e' ∧ e.path = e'.path := by
  have hrun : (Pool.execAll (system demoEnv) (fun _ _ => true) bootSystem twoSpellings).map
      (twice fun e e' => decide (e.oldPrt = e'.oldPrt ∧ e.oldI = e'.oldI)) = some true := by
        decide +kernel
  have hrun' : (Pool.execAll (system demoEnv) (fun _ _ => true) bootSystem twoCalls).map
      (twice fun e e' => decide (e.path = e'.path)) = some true := by decide +kernel
  rw [Option.map_eq_some_iff] at hrun hrun'
  obtain ⟨c, hc, h⟩ := hrun
  obtain ⟨c', hc', h'⟩ := hrun'
  obtain ⟨hq, e, e1, he, he1, hr, hr1, hsame⟩ := twice_quiet h
  obtain ⟨hq', e', e1', he', he1', hr', hr1', hsame'⟩ := twice_quiet h'
  exact ⟨⟨c, Pool.execAll_reaches (fun _ _ _ => trivial) hc, hq, e, e1, he, he1, hr, hr1,
    of_decide_eq_true hsame⟩,
    c', Pool.execAll_reaches (fun _ _ _ => trivial) hc', hq', e', e1', he', he1', hr', hr1',
    of_decide_eq_true hsame'⟩

/-! ## Partitions and directories -/

def DirectoryAt (E : Env) (disk : Disk) : Option Int → Nat → Prop
  | some p, i => IsPart p ∧ i < NINODES ∧ (dinodeAt E disk p i).type = T_DIR
  | none, _ => False

instance (E : Env) (disk : Disk) :
    ∀ (prt : Option Int) (i : Nat), Decidable (DirectoryAt E disk prt i)
  | some _, _ => inferInstanceAs (Decidable (_ ∧ _ ∧ _))
  | none, _ => .isFalse id

def WellFormed (E : Env) (disk : Disk) (e : MountPoint) : Prop :=
  (∃ q, e.prt = some q ∧ IsPart q) ∧ DirectoryAt E disk e.oldPrt e.oldI

/-- What is asked when a slot is filled. -/
def Sensible (E : Env) : Point → FsState → Prop
  | .fill _ i ip, s => IsPart i ∧ DirectoryAt E s.disk (s.icache ip).prt (s.icache ip).inum
  | _, _ => True

instance (E : Env) (l : Point) (s : FsState) : Decidable (Sensible E l s) :=
  match l with
  | .fill _ _ _ => inferInstanceAs (Decidable (_ ∧ _))
  | .plain | .balloc | .lookup _ | .store _ | .put _ => .isTrue trivial

structure MountJob where
  proc : Fin NPROC
  path : List UInt8
  i : Int

def mounter (E : Env) : Machine (Fin NPROC) MountJob FsState Panic Point Int where
  owner := MountJob.proc
  body c := Par.sysMount E c.proc c.path c.i

abbrev Mounter := Pool (Fin NPROC) MountJob FsState Panic Point Int

/-- Without a transaction nothing is written. -/
def Unwritten (s s' : FsState) : Prop :=
  s.outstanding = 0 → s'.outstanding = 0 ∧ s'.disk = s.disk ∧ s'.mounts = s.mounts

theorem unwritten_refl (s : FsState) : Unwritten s s := fun h => ⟨h, rfl, rfl⟩

theorem unwritten_trans (a b c : FsState) (h : Unwritten a b) (h' : Unwritten b c) :
    Unwritten a c := fun h0 => by
  obtain ⟨hb, hdisk, hmounts⟩ := h h0
  obtain ⟨hc, hdisk', hmounts'⟩ := h' hb
  exact ⟨hc, hdisk'.trans hdisk, hmounts'.trans hmounts⟩

theorem unwritten_logWrite (b : Nat) (x : Block) : Steps Unwritten (logWrite b x) :=
  Steps.get fun s a s' h h0 => by
  rw [if_pos (by omega)] at h
  cases h

theorem respects_unwritten (E : Env) : Respects E fun _ m => Steps Unwritten m where
  toRespectsData := steps_respectsLog unwritten_refl unwritten_trans unwritten_logWrite
    (fun _ _ => Steps.modify fun _ h => ⟨h, rfl, rfl⟩) E
  setInode _ _ := Steps.modify fun _ h => ⟨h, rfl, rfl⟩

/-- There are no tokens. -/
def entryRules (E : Env) (disk : Disk) :
    Rules (Fin NPROC → Option MountJob) Empty FsState Panic Point where
  inv _ _ s := s.outstanding = 0 ∧ s.disk = disk ∧ ∀ e ∈ s.mounts, e.prt ≠ none →
    WellFormed E disk e
  allowed := Sensible E
  keeps _ _ _ := True
  fine _ _ := True

section Entries

variable {disk : Disk} {P : (Fin NPROC → Option MountJob) → Prop} {A : Multiset Empty}

theorem safe_unwritten {α : Type} {t : Code α} (ht : t.Each fun _ m => Steps Unwritten m) :
    Safe (entryRules E disk) P t A fun _ B => B = A := by
  refine Safe.each ht (fun _ => rfl) fun β m hm l g M s hI =>
    wp_of_ok (fun a s' hr => ⟨trivial, ?_⟩) fun _ _ => trivial
  obtain ⟨h0, hdisk, hentries⟩ := hI
  obtain ⟨h0', hdisk', hmounts⟩ := hm s a s' hr h0
  refine ⟨h0', hdisk'.trans hdisk, ?_⟩
  rw [hmounts]
  exact hentries

/-- An entry that is taken is as well formed as before. -/
theorem entries_takeSlot : Safe (entryRules E disk) P (act Par.takeSlot) A fun _ B => B = A := by
  refine Safe.step fun g M s _ hI _ => ?_
  obtain ⟨h0, hdisk, hentries⟩ := hI
  rw [Par.takeSlot, wp_bind, wp_get]
  cases hj : mpalloc s.mounts with
  | none =>
    rw [wp_pure]
    exact ⟨trivial, A, ⟨h0, hdisk, hentries⟩, Rules.owed_due_le (fun _ => rfl) rfl, rfl⟩
  | some j =>
    obtain ⟨e0, he0, -⟩ := mpalloc_some hj
    rw [wp_bind, wp_set, wp_pure]
    refine ⟨trivial, A, ⟨h0, hdisk, fun e he hp => ?_⟩, Rules.owed_due_le (fun _ => rfl) rfl, rfl⟩
    obtain ⟨j', hj'⟩ := List.getElem?_of_mem he
    rcases modify_cases he0 hj' with ⟨-, rfl⟩ | ⟨-, hold⟩
    · exact hentries e0 (mem_of_getElem? he0) hp
    · exact hentries e (mem_of_getElem? hold) hp

theorem entries_fillSlot : Safe (entryRules E disk) P (.step (.fill path i ip)
    (Par.fillSlot j path i ip)) A fun _ B => B = A := by
  refine Safe.step fun g M s _ hI hok => ?_
  obtain ⟨h0, hdisk, hentries⟩ := hI
  obtain ⟨hpart, hdir⟩ := hok
  rw [hdisk] at hdir
  rw [Par.fillSlot, wp_modify]
  refine ⟨trivial, A, ⟨h0, hdisk, fun e he hp => ?_⟩, Rules.owed_due_le (fun _ => rfl) rfl, rfl⟩
  obtain ⟨j', hj'⟩ := List.getElem?_of_mem he
  cases he0 : s.mounts[j]? with
  | none =>
    by_cases hne : j = j'
    · subst hne
      rw [List.getElem?_modify_eq, he0] at hj'
      cases hj'
    · rw [List.getElem?_modify_ne _ _ hne] at hj'
      exact hentries e (mem_of_getElem? hj') hp
  | some e0 =>
    rcases modify_cases he0 hj' with ⟨-, rfl⟩ | ⟨-, hold⟩
    · exact ⟨⟨i, rfl, hpart⟩, hdir⟩
    · exact hentries e (mem_of_getElem? hold) hp

theorem obeys_entryRules (E : Env) (disk : Disk) :
    Obeys (mounter E) (entryRules E disk) fun _ B => B = 0 where
  body c B hB := by
    subst hB
    have hR := respects_unwritten E
    have hproc : Steps Unwritten (proc c.proc) := Steps.read fun s => by
      split
      · exact Steps.pure unwritten_refl _
      · exact Steps.throw _
    refine (safe_unwritten (Thread.Each.step hproc)).next fun pr => ?_
    refine (safe_unwritten (hR.changes.namei pr.cwd c.path)).next fun o => ?_
    cases o with
    | none => exact .ret rfl
    | some ip =>
      refine (safe_unwritten (hR.walk.mountedAt c.path)).next fun o => ?_
      cases o with
      | some _ => exact .ret rfl
      | none =>
        refine entries_takeSlot.next fun o => ?_
        cases o with
        | none => exact .ret rfl
        | some j =>
          refine entries_fillSlot.bind fun _ B hB => ?_
          exact .ret hB
  jobs _ _ _ _ _ _ _ h := h

end Entries

/-- **What is mounted is a partition, and what is mounted over is a directory.** -/
theorem mount_wellFormed {c : Mounter} (hs : s.mounts = List.replicate MOUNT_POINTS_SIZE freeSlot)
    (hidle : s.outstanding = 0) (h : Pool.Reaches (mounter E) (Sensible E) ⟨fun _ => none, s⟩ c) :
    ∀ e ∈ c.state.mounts, Records e → WellFormed E c.state.disk e := by
  have hstart : Sound (entryRules E s.disk) (fun _ B => B = 0) (⟨fun _ => none, s⟩ : Mounter) := by
    refine ⟨fun _ => 0, ⟨hidle, rfl, fun e he hp => ?_⟩, fun i => ⟨rfl, le_rfl⟩⟩
    have he : e ∈ s.mounts := he
    rw [hs] at he
    exact absurd (congrArg MountPoint.prt (List.eq_of_mem_replicate he)) hp
  obtain ⟨A, ⟨-, hdisk, hentries⟩, -⟩ := hstart.reaches (obeys_entryRules E s.disk) h
  intro e he hr
  rw [hdisk]
  exact hentries e he hr.2

/-- The system at boot; processes mount. -/
def bootMounter : Mounter := ⟨fun _ => none, bootState demoEnv treeDisk⟩

theorem mount_wellFormed_root :
    ∃ c : Mounter, Pool.Reaches (mounter demoEnv) (Sensible demoEnv) bootMounter c ∧
    (c.state.mounts.head?).map (·.isTaken) = some true ∧
    ∀ e ∈ c.state.mounts, Records e → WellFormed demoEnv c.state.disk e := by
  have hrun : (Pool.execAll (mounter demoEnv) (fun l s => decide (Sensible demoEnv l s)) bootMounter
      (.start ⟨0, [slash], 1⟩ :: List.replicate 7 (.go 0))).map (fun c =>
        (c.state.mounts.head?).map (·.isTaken)) =
      some (some true) := by decide +kernel
  rw [Option.map_eq_some_iff] at hrun
  obtain ⟨c, hc, htaken⟩ := hrun
  have hreach := Pool.execAll_reaches (fun _ _ h => of_decide_eq_true h) hc
  exact ⟨c, hreach, htaken, mount_wellFormed rfl rfl hreach⟩

/-- The first entry records something that `bad` finds to be bad, after a call that is done. -/
def firstBad (bad : FsState → MountPoint → Bool) (c : Mounter) : Bool :=
  (List.finRange NPROC).all (fun i => (c.calls i).isNone) &&
  match c.state.mounts with
  | e :: _ => e.isTaken && e.prt.isSome && bad c.state e
  | [] => false

theorem firstBad_quiet {bad : FsState → MountPoint → Bool} {c : Mounter}
    (h : firstBad bad c = true) :
    c.Quiet ∧ ∃ e ∈ c.state.mounts, Records e ∧ bad c.state e = true := by
  rw [firstBad, Bool.and_eq_true, List.all_eq_true] at h
  refine ⟨fun i => Option.isNone_iff_eq_none.1 (h.1 i (List.mem_finRange i)), ?_⟩
  rcases hm : c.state.mounts with _ | ⟨e, m⟩
  · simp [hm] at h
  · rw [hm] at h
    simp only [Bool.and_eq_true] at h
    obtain ⟨-, ⟨ht, hp⟩, hbad⟩ := h
    exact ⟨e, List.mem_cons_self .., ⟨ht, Option.isSome_iff_ne_none.1 hp⟩, hbad⟩

/-- `mount("/x", 1)` records the file `x`, `mount("/", 4)` what comes after `partitions[3]`. -/
theorem mounted_badly :
    (∃ c : Mounter, Pool.Reaches (mounter demoEnv) (fun _ _ => True) bootMounter c ∧ c.Quiet ∧
      ∃ e ∈ c.state.mounts, Records e ∧ ¬ DirectoryAt demoEnv c.state.disk e.oldPrt e.oldI) ∧
    ∃ c : Mounter, Pool.Reaches (mounter demoEnv) (fun _ _ => True) bootMounter c ∧ c.Quiet ∧
      ∃ e ∈ c.state.mounts, Records e ∧ ¬ ∃ q, e.prt = some q ∧ IsPart q := by
  have hrun : (Pool.execAll (mounter demoEnv) (fun _ _ => true) bootMounter
      (.start ⟨0, [slash, 120], 1⟩ :: List.replicate 27 (.go 0))).map
      (firstBad fun s e => !decide (DirectoryAt demoEnv s.disk e.oldPrt e.oldI)) = some true := by
        decide +kernel
  have hrun' : (Pool.execAll (mounter demoEnv) (fun _ _ => true) bootMounter
      (.start ⟨0, [slash], 4⟩ :: List.replicate 7 (.go 0))).map
        (firstBad fun _ e => decide (e.prt = some 4)) = some true := by
    decide +kernel
  rw [Option.map_eq_some_iff] at hrun hrun'
  obtain ⟨c, hc, h⟩ := hrun
  obtain ⟨c', hc', h'⟩ := hrun'
  obtain ⟨hq, e, he, hr, hbad⟩ := firstBad_quiet h
  obtain ⟨hq', e', he', hr', hbad'⟩ := firstBad_quiet h'
  refine ⟨⟨c, Pool.execAll_reaches (fun _ _ _ => trivial) hc, hq, e, he, hr, ?_⟩,
    c', Pool.execAll_reaches (fun _ _ _ => trivial) hc', hq', e', he', hr', ?_⟩
  · simpa using hbad
  · rintro ⟨q, hq, hpart⟩
    rw [of_decide_eq_true hbad'] at hq
    cases hq
    exact absurd hpart (by decide)

end Os4.Fs
