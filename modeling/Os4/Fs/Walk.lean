import Os4.Fs.Dir
/-!
# Paths (fs.c:695-786)

| here | there |
| --- | --- |
| `through m p i` | the directory that `dirlookup` and `check_mounted` go to instead of inode `i` of `p` |
| `resolve` | where the loop of `namex` ends, read off the disk and the mount table |
| `visited` | the directories that the loop looks something up in |
| `Rooted L s p i` | the root that a lookup in inode `i` of `p` is sent to is loaded and held |

**`namexLoop_wp`**: if the roots it is sent to are loaded, the loop ends where `resolve` says.
-/
namespace Os4.Fs

open Prog

variable {E : Env} {first : Nat} {p q : Int} {k ip cwd : Fin NINODE} {i j : Nat}
  {s s0 s1 s' : FsState} {L : List (Fin NINODE)} {path name rest : List UInt8} {parent : Bool}

/-! ## What a path means -/

def through (m : List MountPoint) (p : Int) (i : Nat) : Option Int × Nat :=
  match isInodeMounted m i (some p) with
  | some prt => (prt, ROOTINO)
  | none => (some p, i)

/-- The inode that the loop returns and the name that goes with it. -/
def resolve (E : Env) (s : FsState) (parent : Bool) :
    Nat → Int → Nat → List UInt8 → List UInt8 → Option ((Option Int × Nat) × List UInt8)
  | 0, _, _, _, _ => none
  | fuel + 1, p, i, path, name =>
    match skipelem path with
    | none => if parent then none else some ((some p, i), name)
    | some (name, rest) =>
      if (dinodeAt E s.disk p i).type ≠ T_DIR then none
      else if parent ∧ rest = [] then some (through s.mounts p i, name)
      else
        match through s.mounts p i with
        | (none, _) => none
        | (some q, j) =>
          match dirFind (fileOf E s q j) name with
          | none => none
          | some (_, j) => resolve E s parent fuel q j rest name

def visited (E : Env) (s : FsState) (parent : Bool) :
    Nat → Int → Nat → List UInt8 → List (Int × Nat)
  | 0, _, _, _ => []
  | fuel + 1, p, i, path =>
    match skipelem path with
    | none => []
    | some (name, rest) =>
      if (dinodeAt E s.disk p i).type ≠ T_DIR then []
      else if parent ∧ rest = [] then []
      else
        match through s.mounts p i with
        | (none, _) => [(p, i)]
        | (some q, j) =>
          match dirFind (fileOf E s q j) name with
          | none => [(p, i)]
          | some (_, j) => (p, i) :: visited E s parent fuel q j rest

theorem skipelem_length (h : skipelem path = some (name, rest)) : rest.length < path.length := by
  unfold skipelem at h
  simp only at h
  split at h
  · cases h
  · rename_i hne
    obtain ⟨-, rfl⟩ := Prod.mk.inj (Option.some.inj h)
    have h1 : (path.dropWhile (· == slash)).length ≤ path.length :=
      (List.dropWhile_suffix _).length_le
    have h2 := (List.dropWhile_suffix (· == slash)
      (l := (path.dropWhile (· == slash)).dropWhile (· != slash))).length_le
    have h3 : ((path.dropWhile (· == slash)).dropWhile (· != slash)).length <
        (path.dropWhile (· == slash)).length := by
      -- the first byte left is not a slash
      cases hp : path.dropWhile (· == slash) with
      | nil => exact absurd hp hne
      | cons a l =>
        have ha : (a == slash) = false := by
          have := List.head?_dropWhile_not (· == slash) path
          rw [hp] at this
          simpa using this
        have : (a != slash) = true := by simp [bne, ha]
        rw [List.dropWhile_cons, if_pos this]
        exact Nat.lt_succ_of_le (List.dropWhile_suffix _).length_le
    omega

/-- The elements that `skipelem` takes off a path one after another. -/
def elemsFrom : Nat → List UInt8 → List (List UInt8)
  | 0, _ => []
  | fuel + 1, path =>
    match skipelem path with
    | none => []
    | some (name, rest) => name :: elemsFrom fuel rest

def elems (path : List UInt8) : List (List UInt8) := elemsFrom (path.length + 1) path

theorem elemsFrom_eq : ∀ {fuel fuel' : Nat} {path : List UInt8}, path.length < fuel →
    path.length < fuel' → elemsFrom fuel path = elemsFrom fuel' path := by
  intro fuel
  induction fuel with
  | zero => intro fuel' path h; exact absurd h (Nat.not_lt_zero _)
  | succ fuel ih =>
    intro fuel' path h h'
    obtain ⟨fuel', rfl⟩ : ∃ n, fuel' = n + 1 := ⟨fuel' - 1, by omega⟩
    unfold elemsFrom
    cases hsk : skipelem path with
    | none => rfl
    | some y =>
      obtain ⟨el, rest⟩ := y
      have := skipelem_length hsk
      exact congrArg (el :: ·) (ih (by omega) (by omega))

theorem elems_none (h : skipelem path = none) : elems path = [] := by
  rw [elems, elemsFrom, h]

theorem elems_some (h : skipelem path = some (name, rest)) : elems path = name :: elems rest := by
  rw [elems, elemsFrom, h]
  have := skipelem_length h
  exact congrArg _ (elemsFrom_eq (by omega) (Nat.lt_succ_self _))

/-! ## One step -/

/-- The reference that comes with a result. -/
def heldBy {β : Type} : Option (Fin NINODE × β) → List (Fin NINODE)
  | some y => [y.1]
  | none => []

def Rooted (L : List (Fin NINODE)) (s : FsState) (p : Int) (i : Nat) : Prop := ∀ prt,
  isInodeMounted s.mounts i (some p) = some prt →
  ∃ q k, prt = some q ∧ k ∈ L ∧ s.ident k = (some q, ROOTINO) ∧ (s.icache k).valid = true

theorem Rooted.kept (hR : Rooted L s p i) (h : Kept L s s') : Rooted L s' p i := by
  intro prt hm
  rw [h.mounts] at hm
  obtain ⟨q, k, h1, h2, h3, h4⟩ := hR prt hm
  exact ⟨q, k, h1, h2, (h.ident k h2).trans h3, (h.loaded k h2 h4).1⟩

theorem Rooted.mono (hR : Rooted L s p i) {L' : List (Fin NINODE)} (h : ∀ k ∈ L, k ∈ L') :
    Rooted L' s p i := by
  intro prt hm
  obtain ⟨q, k, h1, h2, h3⟩ := hR prt hm
  exact ⟨q, k, h1, h k h2, h3⟩

theorem rooted_of_none (h : isInodeMounted s.mounts i (some p) = none) : Rooted L s p i :=
  fun _ hm =>
  absurd (h.symm.trans hm) nofun

/-- What is mounted over an inode is a partition of the disk. -/
def OnDisk (m : List MountPoint) : Prop :=
  ∀ p i prt, isInodeMounted m i (some p) = some prt → ∃ q, prt = some q ∧ IsPart q

/-- Where `dirlookup` ends. -/
structure LookedUp (E : Env) (L : List (Fin NINODE)) (s : FsState) (p : Int) (i : Nat)
    (name : List UInt8) (r : Option (Fin NINODE × Nat)) (s' : FsState) : Prop where
  inv : Inv E (heldBy r ++ L) s'
  disk : s'.disk = s.disk
  busy : ∀ k ∈ L, (s'.icache k).busy = (s.icache k).busy
  walked : Walked E L s s'
  result : ∃ q j, through s.mounts p i = (some q, j) ∧ IsPart q ∧ Live (dinodeAt E s.disk q) j ∧
    (dinodeAt E s.disk q j).type = T_DIR ∧
    r.map (fun y => (s'.ident y.1, y.2)) = (dirFind (fileOf E s q j) name).map fun x =>
      ((some q, x.2), x.1)

theorem Got.loaded {y : Option Int × Nat} (hG : Got E L y s k s') {k0 : Fin NINODE} (hk0 : k0 ∈ L)
    (hid : s.ident k0 = y)
    (hv : (s.icache k0).valid = true) : k = k0 ∧ (s'.icache k).valid = true := by
  have hid' : s'.ident k0 = s'.ident k := (hG.walked.ident k0 hk0).trans (hid.trans hG.ident.symm)
  obtain ⟨h1, h2⟩ := Prod.mk.inj hid'
  obtain rfl := hG.inv.consistent.unique k0 k (hG.inv.ref_pos (List.mem_cons_of_mem _ hk0))
    (hG.inv.ref_pos (by simp)) h1 h2
  exact ⟨rfl, (hG.walked.loaded k0 hk0 hv).1⟩

theorem dirlookup_wp (hI : Inv E L s) (hk : Loaded E s k p i)
    (hroots : Rooted L s p i) {Q : Option (Fin NINODE × Nat) → FsState → Prop}
    (h : ∀ r s', LookedUp E L s p i name r s' → Q r s') : (dirlookup E k name).wp Q Fine s := by
  unfold dirlookup
  rw [wp_bind]
  cases hm : isInodeMounted s.mounts i (some p) with
  | none =>
    have hthrough : through s.mounts p i = (some p, i) := by rw [through, hm]
    rw [redirect_none hk.ident hm]
    refine dirlookupIn_wp hI hk (fun ht hf => ?_) fun o j k' s' ht hf hG => ?_
    · exact h none s ⟨hI, rfl, fun _ _ => rfl, Walked.refl, p, i, hthrough, hk.part, hk.live,
        ht, by rw [hf]; rfl⟩
    · refine h _ s' ⟨hG.inv, hG.disk, hG.busy, hG.walked, p, i, hthrough, hk.part, hk.live, ht, ?_⟩
      rw [hf, Option.map_some, Option.map_some, hG.ident]
  | some prt =>
    obtain ⟨q, k0, rfl, hk0, hid, hv⟩ := hroots prt hm
    have hthrough : through s.mounts p i = (some q, ROOTINO) := by rw [through, hm]
    rw [redirect_some hk.ident hm]
    refine iget_wp hI (fun q' hq' => ?_) fun k1 s1 hG => ?_
    · obtain rfl := Option.some.inj hq'
      have := (hI.slot hk0).part q (Prod.mk.inj hid).1
      rwa [show (s.icache k0).inum = ROOTINO from (Prod.mk.inj hid).2] at this
    obtain ⟨-, hv1⟩ := hG.loaded hk0 hid hv
    have hk1 : Loaded E s1 k1 q ROOTINO := (hG.inv.slot (by simp)).loaded_of hG.ident hv1
    have hI1 : Inv E L s1 := hG.inv.mono fun k => List.count_le_count_cons
    have hlive := hk1.live
    rw [hG.disk] at hlive
    have hfile : ∀ j, fileOf E s1 q j = fileOf E s q j := fun j => by rw [fileOf, fileOf, hG.disk]
    refine dirlookupIn_wp hI1 hk1 (fun ht hf => ?_) fun o j k' s' ht hf hG' => ?_
    · rw [hG.disk] at ht
      rw [hfile] at hf
      exact h none s1 ⟨hI1, hG.disk, hG.busy, hG.walked, q, ROOTINO, hthrough, hk1.part, hlive, ht,
        by rw [hf]; rfl⟩
    · rw [hG.disk] at ht
      rw [hfile] at hf
      refine h _ s' ⟨hG'.inv, hG'.disk.trans hG.disk,
        fun k hk => (hG'.busy k hk).trans (hG.busy k hk),
        hG.walked.trans hG'.walked, q, ROOTINO, hthrough, hk1.part, hlive, ht, ?_⟩
      rw [hf, Option.map_some, Option.map_some, hG'.ident]

/-! ## The loop -/

theorem Later.same (h : Later E s0 s) (hp : IsPart p) (hi : Live (dinodeAt E s.disk p) i) :
    dinodeAt E s.disk p i = dinodeAt E s0.disk p i ∧ fileOf E s p i = fileOf E s0 p i := by
  rcases h p i hp hi.1 with ⟨hd, hf⟩ | ⟨hz, -⟩
  · exact ⟨hd, hf ⟨hi.1, by rw [← hd]; exact hi.2⟩⟩
  · exact absurd hz hi.2

/-- Where `namex` ends: at what `res` says. -/
structure Arrived (E : Env) (L : List (Fin NINODE)) (s : FsState)
    (res : Option ((Option Int × Nat) × List UInt8))
    (r : Option (Fin NINODE × List UInt8)) (s' : FsState) : Prop where
  inv : Inv E (heldBy r ++ L) s'
  walked : Walked E L s s'
  result : r.map (fun y => (s'.ident y.1, y.2)) = res

variable {F : Panic → Prop} {Q : Option (Fin NINODE) → FsState → Prop}

/-- `check_mounted` where nothing is mounted, and where something is. -/
theorem checkMounted_none (hid : s.ident k = (some p, i))
    (h : isInodeMounted s.mounts i (some p) = none) : (checkMounted k).wp Q F s ↔ Q none s := by
  obtain ⟨h1, h2⟩ := Prod.mk.inj hid
  unfold checkMounted
  rw [wp_bind, wp_get, h1, h2, h, wp_pure]

theorem checkMounted_some {prt : Option Int}
    (hid : s.ident k = (some p, i)) (h : isInodeMounted s.mounts i (some p) = some prt) :
    (checkMounted k).wp Q F s ↔ (iget prt ROOTINO).wp (fun k => Q (some k)) F s := by
  obtain ⟨h1, h2⟩ := Prod.mk.inj hid
  unfold checkMounted
  rw [wp_bind, wp_get, h1, h2, h]
  simp only [wp_bind, wp_pure]

theorem namexLoop_wp (hL : Laid E first) (s0 : FsState) :
    ∀ (fuel : Nat) {ip : Fin NINODE} {p : Int} {i : Nat}
    {path name : List UInt8} {s : FsState}, path.length < fuel → Inv E (ip :: L) s →
    s.ident ip = (some p, i) →
    Later E s0 s → s.mounts = s0.mounts → (parent = true → OnDisk s0.mounts) →
    (∀ x ∈ visited E s0 parent fuel p i path, Rooted L s x.1 x.2) →
    (namexLoop E parent fuel ip path name).wp
      (Arrived E L s (resolve E s0 parent fuel p i path name)) Fine s := by
  intro fuel
  induction fuel with
  | zero => intro ip p i path name s hlen; exact absurd hlen (Nat.not_lt_zero _)
  | succ fuel ih =>
    intro ip p i path name s hlen hI hid hlater hmounts hparts hroots
    unfold namexLoop resolve
    unfold visited at hroots
    cases hsk : skipelem path with
    | none =>
      simp only
      cases parent with
      | true =>
        simp only [↓reduceIte]
        rw [wp_bind]
        exact iput_wp hL hI fun s' hI' hW => ⟨hI', hW, rfl⟩
      | false =>
        simp only [Bool.false_eq_true, ↓reduceIte]
        rw [wp_pure]
        refine ⟨hI, Walked.refl, ?_⟩
        rw [Option.map_some, hid]
    | some y =>
      obtain ⟨name, rest⟩ := y
      simp only
      rw [wp_bind]
      refine ilock_wp hI (by simp) fun p' s1 hK => ?_
      have hid1 : s1.ident ip = (some p, i) := (hK.walked.ident ip (by simp)).trans hid
      have hLd : Loaded E s1 ip p i := (hK.inv.slot (by simp)).loaded_of hid1 hK.valid
      have hlater1 : Later E s0 s1 := hlater.trans hK.walked.later
      have hm1 : s1.mounts = s0.mounts := hK.walked.mounts.trans hmounts
      obtain ⟨hd, -⟩ := hlater1.same hLd.part hLd.live
      rw [wp_bind, wp_inode, hLd.din, hd]
      by_cases ht : (dinodeAt E s0.disk p i).type ≠ T_DIR
      · rw [if_pos ht, if_pos ht, wp_bind]
        exact iunlockput_wp hL hK.inv fun s' hI' hW => ⟨hI', hK.walked.tail.trans hW, rfl⟩
      rw [if_neg ht, if_neg ht]
      rw [hsk] at hroots
      simp only [if_neg ht] at hroots
      by_cases hfin : parent = true ∧ rest = []
      · -- the last component: its directory, or what is mounted there
        rw [if_pos hfin, if_pos hfin, wp_bind]
        cases hmnt : isInodeMounted s0.mounts i (some p) with
        | none =>
          rw [checkMounted_none hid1 (by rw [hm1]; exact hmnt), wp_bind]
          refine iunlock_wp hK.inv (by simp) fun s' hU => ?_
          have hid' : s'.ident ip = (some p, i) := (hU.walked.ident ip (by simp)).trans hid1
          refine ⟨hU.inv, hK.walked.tail.trans hU.walked.tail, ?_⟩
          show some (s'.ident ip, name) = _
          rw [hid', through, hmnt]
        | some prt =>
          obtain ⟨q, rfl, hq⟩ := hparts hfin.1 p i prt hmnt
          rw [checkMounted_some hid1 (by rw [hm1]; exact hmnt)]
          refine iget_wp hK.inv (fun q' hq' => ?_) fun tmp s2 hG => ?_
          · obtain rfl := Option.some.inj hq'
            exact ⟨hq, by decide⟩
          rw [wp_bind]
          refine iunlock_wp hG.inv (by simp) fun s' hU => ?_
          have hid' : s'.ident tmp = (some q, ROOTINO) :=
            (hU.walked.ident tmp (by simp)).trans hG.ident
          -- the reference to the directory itself is kept
          refine ⟨hU.inv.mono fun k => ?_,
            (hK.walked.trans (hG.walked.trans hU.walked.tail)).tail, ?_⟩
          · show (tmp :: L).count k ≤ _
            simp only [List.count_cons]
            omega
          · show some (s'.ident tmp, name) = _
            rw [hid', through, hmnt]
      · rw [if_neg hfin] at hroots
        have hroots1 : Rooted L s1 p i := by
          refine (hroots (p, i) ?_).kept hK.walked.tail.toKept
          split
          · exact List.mem_singleton_self _
          · split
            · exact List.mem_singleton_self _
            · exact List.mem_cons_self
        rw [if_neg hfin, if_neg hfin, wp_bind]
        refine dirlookup_wp hK.inv hLd (hroots1.mono fun k hk =>
          List.mem_cons_of_mem _ hk) fun r s2 hU => ?_
        obtain ⟨q, j, hthrough, hq, hj, htq, hres⟩ := hU.result
        obtain ⟨-, hfq⟩ := hlater1.same hq hj
        have hW2 : Walked E L s s2 := (hK.walked.trans hU.walked).tail
        rw [hm1] at hthrough
        rw [hthrough]
        simp only
        rw [← hfq]
        cases hf : dirFind (fileOf E s1 q j) name with
        | none =>
          obtain rfl : r = none := Option.map_eq_none_iff.1 (hres.trans (by rw [hf]; rfl))
          simp only
          rw [wp_bind]
          exact iunlockput_wp hL hU.inv fun s' hI' hW => ⟨hI', hW2.trans hW, rfl⟩
        | some x =>
          obtain ⟨o, j'⟩ := x
          obtain ⟨⟨next, off⟩, rfl, hidn⟩ := Option.map_eq_some_iff.1 (hres.trans (by rw [hf]; rfl))
          simp only
          rw [wp_bind]
          have hI2 : Inv E (ip :: next :: L) s2 := hU.inv.mono fun k => by
            show _ ≤ (next :: ip :: L).count k
            simp only [List.count_cons]
            omega
          refine iunlockput_wp hL hI2 fun s3 hI3 hW3 => ?_
          have hid3 : s3.ident next = (some q, j') :=
            (hW3.ident next (by simp)).trans (Prod.mk.inj hidn).1
          have hall : Walked E L s s3 := hW2.trans hW3.tail
          rw [hthrough] at hroots
          simp only at hroots
          rw [← hfq, hf] at hroots
          refine wp_mono (ih (by have := skipelem_length hsk; omega) hI3 hid3
            (hlater.trans hall.later)
            (hall.mounts.trans hmounts) hparts fun x hx =>
              (hroots x (List.mem_cons_of_mem _ hx)).kept hall.toKept)
            fun r s' hA => ?_
          exact ⟨hA.inv, hall.trans hA.walked, hA.result⟩

/-! ## `namex` -/

/-- The inode at which the walk starts. -/
def startIdent (E : Env) (s : FsState) (cwd : Fin NINODE) (path : List UInt8) : Option Int × Nat :=
  if path.head? = some slash then (some E.boot, ROOTINO) else s.ident cwd

theorem startIdent_some (E : Env) (path : List UInt8) (hprt : (s.icache cwd).prt ≠ none) :
    ∃ p i, startIdent E s cwd path = (some p, i) := by
  obtain ⟨p, hp⟩ := Option.ne_none_iff_exists'.1 hprt
  unfold startIdent
  split
  · exact ⟨_, _, rfl⟩
  · exact ⟨p, (s.icache cwd).inum, by rw [FsState.ident, Inode.ident, hp]⟩

theorem startInode_wp (hI : Inv E L s) (hboot : IsPart E.boot) (hcwd : cwd ∈ L)
    {Q : Fin NINODE → FsState → Prop}
    (h : ∀ k s', Got E L (startIdent E s cwd path) s k s' → Q k s') :
    (startInode E cwd path).wp Q Fine s := by
  unfold startInode
  unfold startIdent at h
  split
  · rename_i hslash
    rw [if_pos hslash] at h
    refine iget_wp hI (fun p hp => ?_) h
    obtain rfl := Option.some.inj hp
    exact ⟨hboot, by decide⟩
  · rename_i hslash
    rw [if_neg hslash] at h
    exact idup_wp hI hcwd fun s' => h cwd s'

/-- The roots that the walk of a path is sent to are loaded. -/
def Passable (E : Env) (L : List (Fin NINODE)) (s : FsState) (cwd : Fin NINODE) (path : List UInt8)
    (parent : Bool) : Prop :=
  ∀ p i, startIdent E s cwd path = (some p, i) →
  ∀ x ∈ visited E s parent (path.length + 1) p i path, Rooted L s x.1 x.2

theorem namex_wp (hL : Laid E first) (hI : Inv E L s) (hboot : IsPart E.boot) (hcwd : cwd ∈ L)
    (hfind : findMp s.mounts path = none) (hstart : startIdent E s cwd path = (some p, i))
    (hparts : parent = true → OnDisk s.mounts)
    (hroots : ∀ x ∈ visited E s parent (path.length + 1) p i path, Rooted L s x.1 x.2) :
    (namex E cwd path parent).wp (Arrived E L s (resolve E s parent (path.length + 1) p i path []))
      Fine s := by
  unfold namex
  rw [wp_bind, wp_get, hfind]
  simp only
  rw [wp_bind]
  refine startInode_wp hI hboot hcwd fun k s1 hG => ?_
  refine wp_mono (namexLoop_wp hL s (path.length + 1) (Nat.lt_succ_self _) hG.inv
    (hG.ident.trans hstart) hG.walked.later
    hG.walked.mounts hparts fun x hx => (hroots x hx).kept hG.walked.toKept) fun r s' hA => ?_
  exact ⟨hA.inv, hG.walked.trans hA.walked, hA.result⟩

end Os4.Fs
