import Mathlib.Algebra.BigOperators.Fin
import Os4.Fs.Redirect
import Os4.Fs.Walk
/-!
# The references that name resolution takes and drops (fs.c:726-786)

| here | there |
| --- | --- |
| `refs s (prt, inum)` | the references to an inode, whatever slot they are counted in |
| `meets` | the loop of `namex` as far as the first directory that something is mounted over |
| `Balanced s r s'` | `+1` on the inode returned, `0` on every other |
| `failed_mount_iff` | fs.c:845, when it returns -1 |

`dirlookup` and `check_mounted` go on with an inode they `iget`, and that reference, or the one to
the directory it replaces, is never given back. Nothing here is assumed of the state: the disk may
be anything and the slots may hold anything. **`namei_balanced_iff`** says when the counts come out
even; in a sound state the directories that `meets` comes to are those on the disk (`meets_wp`).
`mount` never gives back the reference that `namei` took, also when it fails
(**`failed_mount_iff`**).
-/
namespace Os4.Fs

open Prog

variable {E : Env} {k k' ip cwd : Fin NINODE} {s s1 s' : FsState} {x : Inode}
  {prt : Option Int} {inum : Nat} {path name : List UInt8} {parent : Bool} {y : Option Int × Nat}

/-! ## Counting -/

def refs (s : FsState) (y : Option Int × Nat) : Int :=
  ∑ k, if s.ident k = y then (s.icache k).ref else 0

/-- One reference to `x`. -/
def one (x y : Option Int × Nat) : Int := if x = y then 1 else 0

theorem refs_withInode (y : Option Int × Nat) : refs (s.withInode k x) y =
    refs s y - (if s.ident k = y then (s.icache k).ref else 0) +
      (if x.ident = y then x.ref else 0) := by
  have hsplit : ∀ t : FsState, refs t y = (if t.ident k = y then (t.icache k).ref else 0) +
      ∑ k' ∈ Finset.univ.erase k, if t.ident k' = y then (t.icache k').ref else 0 :=
    fun t => (Finset.add_sum_erase _ _ (Finset.mem_univ k)).symm
  have hrest : (∑ k' ∈ Finset.univ.erase k, if (s.withInode k x).ident k' = y then
    ((s.withInode k x).icache k').ref else 0) =
      ∑ k' ∈ Finset.univ.erase k, if s.ident k' = y then (s.icache k').ref else 0 := by
    refine Finset.sum_congr rfl fun k' hk' => ?_
    rw [FsState.ident, FsState.ident, withInode_ne (Finset.ne_of_mem_erase hk')]
  rw [hsplit s, hsplit (s.withInode k x), hrest, FsState.ident, withInode_self]
  omega

theorem refs_withInode_same (h : x.ident = s.ident k) (y : Option Int × Nat) :
    refs (s.withInode k x) y = refs s y + (x.ref - (s.icache k).ref) * one (s.ident k) y := by
  rw [refs_withInode, h, one]
  split <;> omega

/-- The inode that comes back carries one reference. -/
def gained (s : FsState) : Option (Fin NINODE) → Option Int × Nat → Int
  | some k => one (s.ident k)
  | none => 0

def Balanced (s : FsState) (r : Option (Fin NINODE)) (s' : FsState) : Prop :=
  ∀ y, refs s' y = refs s y + gained s' r y

/-! ## One function at a time -/

/-- Every slot keeps its inode and its count, and the mount table stays. -/
structure SameRefs (s s' : FsState) : Prop where
  mounts : s'.mounts = s.mounts
  ref : ∀ k, (s'.icache k).ref = (s.icache k).ref
  ident : ∀ k, s'.ident k = s.ident k

theorem SameRefs.refs_eq (h : SameRefs s s') (y : Option Int × Nat) : refs s' y = refs s y :=
  Finset.sum_congr rfl fun k _ => by rw [h.ref, h.ident]

theorem SameRefs.refl : SameRefs s s := ⟨rfl, fun _ => rfl, fun _ => rfl⟩

theorem SameRefs.trans (h : SameRefs s s1) (h' : SameRefs s1 s') : SameRefs s s' :=
  ⟨h'.mounts.trans h.mounts, fun k => (h'.ref k).trans (h.ref k),
    fun k => (h'.ident k).trans (h.ident k)⟩

theorem SameRefs.withInode (hid : x.ident = s.ident k) (href : x.ref = (s.icache k).ref) :
    SameRefs s (s.withInode k x) where
  mounts := rfl
  ref k' := by
    by_cases h : k' = k
    · rw [h, withInode_self, href]
    · rw [withInode_ne h]
  ident k' := by
    by_cases h : k' = k
    · rw [h, FsState.ident, withInode_self, hid]
    · rw [FsState.ident, withInode_ne h]; rfl

theorem localData_sameRefs : LocalData SameRefs where
  refl _ := SameRefs.refl
  trans _ _ _ := SameRefs.trans
  put _ _ _ := ⟨rfl, fun _ => rfl, fun _ => rfl⟩
  din s k d := SameRefs.withInode (x := { s.icache k with din := d }) rfl rfl

/-- What `iget` and `idup` do: one more reference to `y`, and slots in use keep their inodes. -/
structure Took (s : FsState) (y : Option Int × Nat) (k : Fin NINODE) (s' : FsState) : Prop where
  mounts : s'.mounts = s.mounts
  refs : ∀ z, refs s' z = refs s z + one y z
  ident : s'.ident k = y
  stay : ∀ k', 0 < (s.icache k').ref → s'.ident k' = s.ident k' ∧ 0 < (s'.icache k').ref

theorem took_ref : Took s (s.ident k) k (s.withInode k { s.icache k with
    ref := (s.icache k).ref + 1 }) := by
  refine ⟨rfl, fun z => ?_, by rw [FsState.ident, withInode_self]; rfl, fun k' hk' => ?_⟩
  · refine (refs_withInode_same (x := { s.icache k with ref := (s.icache k).ref + 1 }) rfl
      z).trans ?_
    simp
  · by_cases h : k' = k
    · subst h
      rw [FsState.ident, withInode_self]
      exact ⟨rfl, show 0 < (s.icache k').ref + 1 by omega⟩
    · rw [FsState.ident, withInode_ne h]
      exact ⟨rfl, hk'⟩

theorem iget_took (h : iget prt inum s = .ok (k, s')) : Took s (prt, inum) k s' := by
  refine wp_ok (Q := Took s (prt, inum)) (E := fun _ => True) ?_ h
  refine wp_iget (fun _ => trivial) (fun k _ hid => hid ▸ took_ref) fun k _ h0 => ?_
  refine ⟨rfl, fun z => ?_, by rw [FsState.ident, withInode_self]; rfl, fun k' hk' => ?_⟩
  · rw [refs_withInode, h0]
    simp only [ite_self, sub_zero]
    rfl
  · have hne : k' ≠ k := fun h => by rw [h, h0] at hk'; exact absurd hk' (by decide)
    rw [FsState.ident, withInode_ne hne]
    exact ⟨rfl, hk'⟩

theorem startInode_took (h : startInode E cwd path s = .ok (k, s')) : ∃ y, Took s y k s' := by
  unfold startInode at h
  split at h
  · exact ⟨_, iget_took h⟩
  · refine wp_ok (Q := fun k s' => ∃ y, Took s y k s') (E := fun _ => True) ?_ h
    rw [idup, wp_bind, wp_inode, wp_bind, wp_setInode, wp_pure]
    exact ⟨_, took_ref⟩

/-- `ilock` needs a reference and takes none. -/
theorem ilock_sameRefs (h : ilock E k s = .ok ((), s')) : 0 < (s.icache k).ref ∧ SameRefs s s' := by
  refine wp_ok (Q := fun _ s' => 0 < (s.icache k).ref ∧ SameRefs s s') (E := fun _ => True) ?_ h
  have hdata := steps_respectsData localData_sameRefs E
  rw [ilock, wp_bind, wp_inode, wp_ite]
  refine ⟨fun _ => trivial, fun href => ?_⟩
  rw [wp_ite]
  refine ⟨fun _ => trivial, fun _ => ?_⟩
  rw [wp_ite]
  refine ⟨fun _ => trivial, fun _ => ?_⟩
  have hbusy : SameRefs s (s.withInode k { s.icache k with busy := true }) :=
    SameRefs.withInode rfl rfl
  rw [wp_bind, wp_setInode, wp_bind]
  refine wp_of_ok (fun sb t ht => ?_) fun _ _ => trivial
  have ht : SameRefs s t := hbusy.trans (hdata.readsb _ _ _ _ ht)
  rw [wp_ite]
  refine ⟨fun _ => ⟨by omega, ht⟩, fun _ => ?_⟩
  rw [wp_bind, wp_bread, wp_bind, wp_setInode, wp_ite]
  refine ⟨fun _ => trivial, fun _ => ⟨by omega, ht.trans (SameRefs.withInode ?_ ?_)⟩⟩
  · exact (ht.ident k).symm
  · exact (ht.ref k).symm

theorem iunlock_sameRefs (h : iunlock k s = .ok ((), s')) : SameRefs s s' := by
  refine wp_ok (Q := fun _ s' => SameRefs s s') (E := fun _ => True) ?_ h
  rw [iunlock, wp_bind, wp_inode, wp_ite]
  exact ⟨fun _ => trivial, fun _ => SameRefs.withInode rfl rfl⟩

/-- What `iput` does: one reference less, and every slot keeps its inode. -/
structure Dropped (s : FsState) (k : Fin NINODE) (s' : FsState) : Prop where
  mounts : s'.mounts = s.mounts
  refs : ∀ z, refs s' z = refs s z - one (s.ident k) z
  ident : ∀ k', s'.ident k' = s.ident k'

theorem iput_dropped (h : iput E k s = .ok ((), s')) : Dropped s k s' := by
  have hdata := steps_respectsData localData_sameRefs E
  obtain ⟨⟨⟩, s1, h1, h⟩ := bind_ok h
  have hsame : SameRefs s s1 := by
    refine wp_ok (Q := fun _ s' => SameRefs s s') (E := fun _ => True) ?_ h1
    rw [reclaim, wp_bind, wp_inode, wp_ite]
    refine ⟨fun _ => ?_, fun _ => SameRefs.refl⟩
    rw [wp_ite]
    refine ⟨fun _ => trivial, fun _ => ?_⟩
    have hbusy : SameRefs s (s.withInode k { s.icache k with busy := true }) :=
      SameRefs.withInode rfl rfl
    rw [wp_bind, wp_setInode, wp_bind]
    refine wp_of_ok (fun _ t ht => ?_) fun _ _ => trivial
    have ht : SameRefs s t := hbusy.trans (hdata.itrunc _ _ _ _ ht)
    rw [wp_bind, wp_inode, wp_bind, wp_setDin, wp_bind]
    refine wp_of_ok (fun _ t' ht' => ?_) fun _ _ => trivial
    have ht' : SameRefs s t' :=
      ht.trans ((localData_sameRefs.din t k _).trans (hdata.iupdate _ _ _ _ ht'))
    rw [wp_bind, wp_inode, wp_setInode]
    exact ht'.trans (SameRefs.withInode rfl rfl)
  obtain rfl : s' = s1.withInode k { s1.icache k with ref := (s1.icache k).ref - 1 } := by
    cases h
    rfl
  refine ⟨hsame.mounts, fun z => ?_, fun k' => ?_⟩
  · refine (refs_withInode_same (x := { s1.icache k with ref := (s1.icache k).ref - 1 }) rfl
      z).trans ?_
    rw [hsame.refs_eq, hsame.ident]
    simp
    rfl
  · rw [← hsame.ident k']
    by_cases hk : k' = k
    · rw [hk, FsState.ident, withInode_self]; rfl
    · rw [FsState.ident, withInode_ne hk]; rfl

theorem iunlockput_dropped (h : iunlockput E k s = .ok ((), s')) : Dropped s k s' := by
  obtain ⟨⟨⟩, s1, h1, h2⟩ := bind_ok h
  have hsame := iunlock_sameRefs h1
  have hd := iput_dropped h2
  exact ⟨hd.mounts.trans hsame.mounts, fun z => by rw [hd.refs, hsame.refs_eq, hsame.ident],
    fun k' => (hd.ident k').trans (hsame.ident k')⟩

/-! ## The walk -/

def meets (E : Env) (parent : Bool) : Nat → Fin NINODE → List UInt8 → FsM Bool
  | 0, _, _ => return false
  | fuel + 1, ip, path =>
    match skipelem path with
    | none => return false
    | some (name, path) => do
      ilock E ip
      let x ← inode ip
      let s ← get
      if x.din.type ≠ T_DIR then return false
      else if (isInodeMounted s.mounts x.inum x.prt).isSome then return true
      else if parent ∧ path = [] then return false
      else
        match ← dirlookupIn E ip name with
        | none => return false
        | some (next, _) =>
          iunlockput E ip
          meets E parent fuel next path

/-- The walk of `path` comes to a directory that something is mounted over. -/
def crossesMount (E : Env) (cwd : Fin NINODE) (path : List UInt8) (parent : Bool) : FsM Bool := do
  match findMp (← get).mounts path with
  | some _ => return false
  | none =>
    let ip ← startInode E cwd path
    meets E parent (path.length + 1) ip path

theorem dirlookupIn_refs {r : Option (Fin NINODE × Nat)}
    (h : dirlookupIn E k name s = .ok (r, s')) :
    s'.mounts = s.mounts ∧ (∀ z, refs s' z = refs s z + gained s' (r.map Prod.fst) z) ∧
      ∀ k', 0 < (s.icache k').ref → s'.ident k' = s.ident k' ∧ 0 < (s'.icache k').ref := by
  have hdata := steps_respectsData localData_sameRefs E
  obtain ⟨x, t, hx, h⟩ := bind_ok h
  cases hx
  split at h
  · cases h
  · obtain ⟨o, s1, h₁, h⟩ := bind_ok h
    have hsame : SameRefs s s1 := hdata.dirScan k name _ _ _ _ _ h₁
    cases o with
    | none =>
      cases h
      exact ⟨hsame.mounts, fun z => by rw [hsame.refs_eq]; exact (add_zero _).symm,
        fun k' hk' => ⟨hsame.ident k', by rw [hsame.ref]; exact hk'⟩⟩
    | some y =>
      obtain ⟨k1, s2, h₂, h⟩ := bind_ok h
      cases h
      have ht := iget_took h₂
      refine ⟨ht.mounts.trans hsame.mounts, fun z => ?_, fun k' hk' => ?_⟩
      · rw [ht.refs, hsame.refs_eq]
        show _ = _ + one (s'.ident k1) z
        rw [ht.ident]
      · obtain ⟨h1, h2⟩ := ht.stay k' (by rw [hsame.ref]; exact hk')
        exact ⟨h1.trans (hsame.ident k'), h2⟩

/-- What a walk from `x` that ended with `r` added to the counts besides the inode returned. -/
structure Surplus (s : FsState) (x : Option Int × Nat) (r : Option (Fin NINODE)) (s' : FsState)
    (crossed : Bool) : Prop where
  mounts : s'.mounts = s.mounts
  counts : ∃ e : Option Int × Nat → Int, (∀ z, refs s' z = refs s z - one x z + gained s' r z +
    e z) ∧ (∀ z, 0 ≤ e z) ∧ (crossed = false ↔ ∀ z, e z = 0)

theorem one_self (x : Option Int × Nat) : one x x = 1 := if_pos rfl

theorem Surplus.none {x : Option Int × Nat} {r : Option (Fin NINODE)} (hm : s'.mounts = s.mounts)
    (h : ∀ z, refs s' z = refs s z - one x z + gained s' r z) : Surplus s x r s' false :=
  ⟨hm, fun _ => 0, fun z => by rw [h, add_zero], fun _ => le_refl _, by simp⟩

theorem Surplus.some {x : Option Int × Nat} (x0 : Option Int × Nat) {r : Option (Fin NINODE)}
    {e : Option Int × Nat → Int}
    (hm : s'.mounts = s.mounts)
    (h : ∀ z, refs s' z = refs s z - one x z + gained s' r z + (one x0 z + e z))
    (he : ∀ z, 0 ≤ e z) : Surplus s x r s' true := by
  refine ⟨hm, fun z => one x0 z + e z, h,
    fun z => Int.add_nonneg (by unfold one; split <;> decide) (he z), ?_⟩
  simp only [Bool.true_eq_false, false_iff, not_forall]
  refine ⟨x0, ?_⟩
  rw [one_self]
  have := he x0
  omega

theorem checkMounted_eq_none
    (h : isInodeMounted s.mounts (s.icache k).inum (s.icache k).prt = none) :
    checkMounted k s = .ok (none, s) := by
  refine get_bind.trans ?_
  rw [h]
  rfl

theorem checkMounted_took {o : Option (Fin NINODE)}
    (hm : isInodeMounted s.mounts (s.icache k).inum (s.icache k).prt = some prt)
    (h : checkMounted k s = .ok (o, s')) : ∃ k', o = some k' ∧ Took s (prt, ROOTINO) k' s' := by
  replace h := get_bind.symm.trans h
  rw [hm] at h
  obtain ⟨k', t, hk', h⟩ := bind_ok h
  cases h
  exact ⟨k', rfl, iget_took hk'⟩

theorem redirect_eq_none (h : isInodeMounted s.mounts (s.icache k).inum (s.icache k).prt = none) :
    redirect k s = .ok (k, s) := by
  refine get_bind.trans ?_
  rw [h]
  rfl

theorem redirect_took (hm : isInodeMounted s.mounts (s.icache k).inum (s.icache k).prt = some prt)
    (h : redirect k s = .ok (k', s')) : Took s (prt, ROOTINO) k' s' := by
  replace h := get_bind.symm.trans h
  rw [hm] at h
  exact iget_took h

theorem namexLoop_refs : ∀ (fuel : Nat) {ip : Fin NINODE} {path name : List UInt8} {s s' : FsState}
    {r : Option (Fin NINODE × List UInt8)}, path.length < fuel →
    namexLoop E parent fuel ip path name s = .ok (r, s') →
    ∃ b t, meets E parent fuel ip path s = .ok (b, t) ∧
    Surplus s (s.ident ip) (r.map Prod.fst) s' b := by
  intro fuel
  induction fuel with
  | zero => intro ip path name s s' r hlen; exact absurd hlen (Nat.not_lt_zero _)
  | succ fuel ih =>
    intro ip path name s s' r hlen h
    unfold namexLoop at h
    unfold meets
    cases hsk : skipelem path with
    | none =>
      rw [hsk] at h
      refine ⟨false, s, rfl, ?_⟩
      simp only at h
      split at h
      · obtain ⟨⟨⟩, s1, h1, h⟩ := bind_ok h
        cases h
        have hd := iput_dropped h1
        exact Surplus.none hd.mounts fun z => by rw [hd.refs]; exact (add_zero _).symm
      · cases h
        refine Surplus.none rfl fun z => ?_
        show _ = _ + one (s.ident ip) z
        omega
    | some y =>
      obtain ⟨name, rest⟩ := y
      rw [hsk] at h
      simp only at h ⊢
      obtain ⟨⟨⟩, s1, h1, h⟩ := bind_ok h
      obtain ⟨href, hsame⟩ := ilock_sameRefs h1
      have href1 : 0 < (s1.icache ip).ref := by rw [hsame.ref]; exact href
      rw [bind_of_ok h1]
      obtain ⟨x, t, hx, h⟩ := bind_ok h
      cases hx
      -- the same tests on both sides
      show ∃ b t, (if (s1.icache ip).din.type ≠ T_DIR then _ else _ : FsM Bool) s1 = .ok (b, t) ∧ _
      by_cases ht : (s1.icache ip).din.type ≠ T_DIR
      · rw [if_pos ht] at h
        rw [if_pos ht]
        obtain ⟨⟨⟩, s2, h2, h⟩ := bind_ok h
        cases h
        have hd := iunlockput_dropped h2
        refine ⟨false, s1, rfl, Surplus.none (hd.mounts.trans hsame.mounts) fun z => ?_⟩
        rw [hd.refs, hsame.refs_eq, hsame.ident]
        exact (add_zero _).symm
      rw [if_neg ht] at h
      rw [if_neg ht]
      cases hm : isInodeMounted s1.mounts (s1.icache ip).inum (s1.icache ip).prt with
      | none =>
        rw [if_neg (by simp)]
        by_cases hfin : parent = true ∧ rest = []
        · rw [if_pos hfin] at h
          rw [if_pos hfin]
          refine ⟨false, s1, rfl, ?_⟩
          rw [bind_of_ok (checkMounted_eq_none hm)] at h
          obtain ⟨⟨⟩, s3, h3, h⟩ := bind_ok h
          cases h
          have hall := hsame.trans (iunlock_sameRefs h3)
          refine Surplus.none hall.mounts fun z => ?_
          rw [hall.refs_eq]
          show _ = _ + one (s'.ident ip) z
          rw [hall.ident]
          omega
        · rw [if_neg hfin] at h
          rw [if_neg hfin]
          have hdir : dirlookup E ip name s1 = dirlookupIn E ip name s1 :=
            bind_of_ok (redirect_eq_none hm)
          obtain ⟨o, s2, h2, h⟩ := bind_ok h
          rw [hdir] at h2
          rw [bind_of_ok h2]
          obtain ⟨hm2, hr2, hstay⟩ := dirlookupIn_refs h2
          have hip : s2.ident ip = s.ident ip := (hstay ip href1).1.trans (hsame.ident ip)
          cases o with
          | none =>
            obtain ⟨⟨⟩, s3, h3, h⟩ := bind_ok h
            cases h
            have hd := iunlockput_dropped h3
            refine ⟨false, s2, rfl, Surplus.none
              (hd.mounts.trans (hm2.trans hsame.mounts)) fun z => ?_⟩
            rw [hd.refs, hr2, hsame.refs_eq, hip]
            show refs s z + 0 - _ = _ - _ + 0
            omega
          | some y =>
            obtain ⟨next, off⟩ := y
            obtain ⟨⟨⟩, s3, h3, h⟩ := bind_ok h
            have hd := iunlockput_dropped h3
            obtain ⟨b, t, hb, hs⟩ := ih (by have := skipelem_length hsk; omega) h
            obtain ⟨e, he, hpos, hzero⟩ := hs.counts
            refine ⟨b, t, by simp only; rw [bind_of_ok h3]; exact hb,
              hs.mounts.trans (hd.mounts.trans (hm2.trans hsame.mounts)), e,
              fun z => ?_, hpos, hzero⟩
            rw [he, hd.refs, hr2, hsame.refs_eq, hip, hd.ident]
            show refs s z + one (s2.ident next) z - _ - _ + _ + _ = _
            omega
      | some prt =>
        rw [if_pos (by rfl)]
        refine ⟨true, s1, rfl, ?_⟩
        by_cases hfin : parent = true ∧ rest = []
        · -- the directory is replaced, and its reference stays
          rw [if_pos hfin] at h
          obtain ⟨tmp, s2, h2, h⟩ := bind_ok h
          obtain ⟨k1, hk1, ht⟩ := checkMounted_took hm h2
          obtain ⟨⟨⟩, s3, h3, h⟩ := bind_ok h
          subst hk1
          cases h
          have hs3 := iunlock_sameRefs h3
          refine Surplus.some (s.ident ip)
            (e := 0) (hs3.mounts.trans (ht.mounts.trans hsame.mounts)) (fun z => ?_)
            fun _ => le_refl _
          rw [hs3.refs_eq, ht.refs, hsame.refs_eq]
          show _ = _ + one (s'.ident k1) z + (_ + 0)
          rw [hs3.ident, ht.ident]
          omega
        · -- the root that is searched instead keeps a reference
          rw [if_neg hfin] at h
          obtain ⟨o, s2, h2, h⟩ := bind_ok h
          obtain ⟨k1, t1, hk1, h2⟩ := bind_ok h2
          have ht := redirect_took hm hk1
          obtain ⟨hm2, hr2, hstay⟩ := dirlookupIn_refs h2
          obtain ⟨h4, h5⟩ := ht.stay ip href1
          have hip : s2.ident ip = s.ident ip := (hstay ip h5).1.trans (h4.trans (hsame.ident ip))
          have hms : s2.mounts = s.mounts := hm2.trans (ht.mounts.trans hsame.mounts)
          cases o with
          | none =>
            obtain ⟨⟨⟩, s3, h3, h⟩ := bind_ok h
            cases h
            have hd := iunlockput_dropped h3
            refine Surplus.some (prt, ROOTINO) (e := 0) (hd.mounts.trans hms) (fun z => ?_) fun _ =>
              le_refl _
            rw [hd.refs, hr2, ht.refs, hsame.refs_eq, hip]
            show refs s z + _ + 0 - _ = _ - _ + 0 + (_ + 0)
            omega
          | some y =>
            obtain ⟨next, off⟩ := y
            obtain ⟨⟨⟩, s3, h3, h⟩ := bind_ok h
            have hd := iunlockput_dropped h3
            obtain ⟨b, t, -, hs⟩ := ih (by have := skipelem_length hsk; omega) h
            obtain ⟨e, he, hpos, -⟩ := hs.counts
            refine Surplus.some (prt, ROOTINO) (hs.mounts.trans (hd.mounts.trans hms))
              (fun z => ?_) hpos
            rw [he, hd.refs, hr2, ht.refs, hsame.refs_eq, hip, hd.ident]
            show refs s z + _ + one (s2.ident next) z - _ - _ + _ + _ = _
            omega

theorem namex_surplus {r : Option (Fin NINODE × List UInt8)}
    (h : namex E cwd path parent s = .ok (r, s')) :
    s'.mounts = s.mounts ∧ ∃ b t, crossesMount E cwd path parent s = .ok (b, t) ∧
      ∃ e : Option Int × Nat → Int, (∀ z, refs s' z = refs s z + gained s' (r.map Prod.fst) z +
        e z) ∧ (∀ z, 0 ≤ e z) ∧ (b = false ↔ ∀ z, e z = 0) := by
  replace h := get_bind.symm.trans h
  have hc : crossesMount E cwd path parent s = (match findMp s.mounts path with
      | some _ => return false
      | none => do
        let ip ← startInode E cwd path
        meets E parent (path.length + 1) ip path : FsM Bool) s := bind_of_ok rfl
  rw [hc]
  cases hf : findMp s.mounts path with
  | some i =>
    -- the shortcut takes one reference, and the loop ends at once
    rw [hf] at h
    obtain ⟨ip, s1, h1, h⟩ := bind_ok h
    have ht := iget_took h1
    have hsk : skipelem [slash] = none := by decide
    unfold namexLoop at h
    rw [hsk] at h
    simp only at h
    split at h
    · obtain ⟨⟨⟩, s2, h2, h⟩ := bind_ok h
      cases h
      have hd := iput_dropped h2
      refine ⟨hd.mounts.trans ht.mounts, false, s, rfl, 0, fun z => ?_, fun _ => Int.le_refl 0,
        iff_of_true rfl fun _ => rfl⟩
      rw [hd.refs, ht.refs, ht.ident]
      show _ = _ + 0 + 0
      omega
    · cases h
      refine ⟨ht.mounts, false, s, rfl, 0, fun z => ?_, fun _ => Int.le_refl 0,
        iff_of_true rfl fun _ => rfl⟩
      rw [ht.refs]
      show _ = _ + one (s'.ident ip) z + 0
      rw [ht.ident, add_zero]
  | none =>
    rw [hf] at h
    obtain ⟨ip, s1, h1, h⟩ := bind_ok h
    obtain ⟨y, ht⟩ := startInode_took h1
    obtain ⟨b, t, hb, hs⟩ := namexLoop_refs (path.length + 1) (Nat.lt_succ_self _) h
    obtain ⟨e, he, hpos, hzero⟩ := hs.counts
    refine ⟨hs.mounts.trans ht.mounts, b, t, (bind_of_ok h1).trans hb, e, fun z => ?_, hpos, hzero⟩
    rw [he, ht.refs, ht.ident]
    omega

theorem namex_balanced_iff {r : Option (Fin NINODE × List UInt8)}
    (h : namex E cwd path parent s = .ok (r, s')) :
    Balanced s (r.map Prod.fst) s' ↔ ∃ t, crossesMount E cwd path parent s = .ok (false, t) := by
  obtain ⟨-, b, t, hb, e, hcounts, -, hzero⟩ := namex_surplus h
  rw [hb]
  constructor
  · intro hbal
    have : b = false := hzero.2 fun z => by have := hbal z; have := hcounts z; omega
    exact ⟨t, by rw [this]⟩
  · rintro ⟨t', ht'⟩
    obtain ⟨rfl, -⟩ := Prod.mk.inj (Except.ok.inj ht')
    intro z
    rw [hcounts, hzero.1 rfl z, add_zero]

/-- **References of a path.** In any state, a call of `namei` or `nameiparent` that returns has
taken exactly one reference to the inode it returns, and none else, exactly when its path is one
that `find_mp` finds, or the walk comes to no directory that something is mounted over. -/
theorem namei_balanced_iff (E : Env) (cwd : Fin NINODE) (path : List UInt8) (s : FsState) :
    (∀ r s', namei E cwd path s = .ok (r, s') →
      (Balanced s r s' ↔ ∃ t, crossesMount E cwd path false s = .ok (false, t))) ∧
    (∀ r s', nameiparent E cwd path s = .ok (r, s') →
      (Balanced s (r.map Prod.fst) s' ↔ ∃ t, crossesMount E cwd path true s = .ok (false, t))) := by
  refine ⟨fun r s' h => ?_, fun r s' h => namex_balanced_iff h⟩
  obtain ⟨r', s1, h1, h⟩ := bind_ok h
  cases h
  exact namex_balanced_iff h1

/-! ## Read off the disk -/

/-- The walk from inode `i` of `p` comes to a directory that something is mounted over. -/
def crosses (E : Env) (s : FsState) (parent : Bool) : Nat → Int → Nat → List UInt8 → Bool
  | 0, _, _, _ => false
  | fuel + 1, p, i, path =>
    match skipelem path with
    | none => false
    | some (name, rest) =>
      if (dinodeAt E s.disk p i).type ≠ T_DIR then false
      else if (isInodeMounted s.mounts i (some p)).isSome then true
      else if parent ∧ rest = [] then false
      else
        match dirFind (fileOf E s p i) name with
        | none => false
        | some (_, j) => crosses E s parent fuel p j rest

/-- In a sound state `meets` depends on the contents of directories and the mount table only. -/
theorem meets_wp {first : Nat} {L : List (Fin NINODE)} (hL : Laid E first) (s0 : FsState) :
    ∀ (fuel : Nat) {ip : Fin NINODE}
    {p : Int} {i : Nat} {path : List UInt8} {s : FsState}, Inv E (ip :: L) s →
    s.ident ip = (some p, i) → Later E s0 s → s.mounts = s0.mounts →
    (meets E parent fuel ip path).wp (fun b _ => b = crosses E s0 parent fuel p i path) Fine s := by
  intro fuel
  induction fuel with
  | zero => intros; rfl
  | succ fuel ih =>
    intro ip p i path s hI hid hlater hmounts
    unfold meets crosses
    cases hsk : skipelem path with
    | none => rfl
    | some y =>
      obtain ⟨name, rest⟩ := y
      simp only
      rw [wp_bind]
      refine ilock_wp hI (by simp) fun _ s1 hK => ?_
      have hid1 : s1.ident ip = (some p, i) := (hK.walked.ident ip (by simp)).trans hid
      have hLd : Loaded E s1 ip p i := (hK.inv.slot (by simp)).loaded_of hid1 hK.valid
      have hlater1 : Later E s0 s1 := hlater.trans hK.walked.later
      have hm1 : s1.mounts = s0.mounts := hK.walked.mounts.trans hmounts
      obtain ⟨hd, hf⟩ := hlater1.same hLd.part hLd.live
      obtain ⟨hprt, hinum⟩ := Prod.mk.inj hid1
      rw [wp_bind, wp_inode, wp_bind, wp_get, hLd.din, hd, hm1, hprt, hinum]
      by_cases ht : (dinodeAt E s0.disk p i).type ≠ T_DIR
      · rw [if_pos ht, if_pos ht]; rfl
      rw [if_neg ht, if_neg ht]
      by_cases hm : (isInodeMounted s0.mounts i (some p)).isSome = true
      · rw [if_pos hm, if_pos hm]; rfl
      rw [if_neg hm, if_neg hm]
      by_cases hfin : parent = true ∧ rest = []
      · rw [if_pos hfin, if_pos hfin]; rfl
      rw [if_neg hfin, if_neg hfin, wp_bind, ← hf]
      refine dirlookupIn_wp hK.inv hLd (fun _ hnone => ?_) fun o j next s2 _ hsome hG => ?_
      · rw [hnone]; rfl
      · rw [hsome]
        simp only
        rw [wp_bind]
        have hI2 : Inv E (ip :: next :: L) s2 := hG.inv.mono fun k => by
          simp only [List.count_cons]
          omega
        refine iunlockput_wp hL hI2 fun s3 hI3 hW3 =>
          ih hI3 ((hW3.ident next (by simp)).trans hG.ident) ?_ ?_
        · exact hlater1.trans (hG.walked.later.trans hW3.later)
        · exact hW3.mounts.trans (hG.walked.mounts.trans hm1)

/-! ## A failed `mount` -/

theorem namex_of_findMp {i : Nat} {r : Option (Fin NINODE × List UInt8)}
    (hf : findMp s.mounts path = some i)
    (h : namex E cwd path false s = .ok (r, s')) : r ≠ none := by
  replace h := get_bind.symm.trans h
  rw [hf] at h
  obtain ⟨ip, s1, -, h⟩ := bind_ok h
  have hsk : skipelem [slash] = none := by decide
  unfold namexLoop at h
  rw [hsk] at h
  cases h
  exact Option.some_ne_none _

/-- How `mount` fails: the path names nothing; or it names something, and is in the table or the
table is full. -/
theorem mount_fails {i : Int} (h : mount E cwd path i s = .ok (-1, s')) :
    ∃ r, namex E cwd path false s = .ok (r, s') ∧
      (r ≠ none → (findMp s'.mounts path).isSome ∨ mpalloc s'.mounts = none) := by
  obtain ⟨o, s1, h1, h⟩ := bind_ok h
  obtain ⟨r, s2, h2, ho⟩ := bind_ok h1
  cases ho
  cases r with
  | none =>
    cases h
    exact ⟨none, h2, fun hr => absurd rfl hr⟩
  | some x =>
    replace h := get_bind.symm.trans h
    split at h
    case isTrue hf =>
      cases h
      exact ⟨some x, h2, fun _ => .inl hf⟩
    case isFalse hf =>
      cases hm : mpalloc s1.mounts with
      | none =>
        rw [hm] at h
        cases h
        exact ⟨some x, h2, fun _ => .inr hm⟩
      | some j =>
        rw [hm] at h
        obtain ⟨⟨⟩, s3, -, h⟩ := bind_ok h
        cases h

/-- **A failed `mount`** leaves the counts and the table as they were, exactly when the path is not
in the table, there is a free slot or the path names nothing, and the walk comes to no directory
that something is mounted over. -/
theorem failed_mount_iff {i : Int} (h : mount E cwd path i s = .ok (-1, s')) :
    (s'.mounts = s.mounts ∧ ∀ y, refs s' y = refs s y) ↔
      findMp s.mounts path = none ∧
      (mpalloc s.mounts ≠ none ∨ ∃ t, namei E cwd path s = .ok (none, t)) ∧
        ∃ t, crossesMount E cwd path false s = .ok (false, t) := by
  obtain ⟨r, hr, hfail⟩ := mount_fails h
  obtain ⟨hm, b, t, hb, e, hcounts, hpos, hzero⟩ := namex_surplus hr
  have hnamei : namei E cwd path s = .ok (r.map Prod.fst, s') := by
    unfold namei
    rw [bind_of_ok hr]
    rfl
  rw [hb, hnamei]
  cases r with
  | none =>
    have hf : findMp s.mounts path = none := by
      by_contra hne
      obtain ⟨j, hj⟩ := Option.ne_none_iff_exists'.1 hne
      exact namex_of_findMp hj hr rfl
    constructor
    · rintro ⟨-, hrefs⟩
      have : b = false := hzero.2 fun z => by
        have h1 := hrefs z
        have h2 := hcounts z
        rw [h1, show gained s' (Option.map Prod.fst none) z = 0 from rfl] at h2
        omega
      exact ⟨hf, .inr ⟨s', rfl⟩, t, by rw [this]⟩
    · rintro ⟨-, -, t', ht'⟩
      obtain ⟨rfl, -⟩ := Prod.mk.inj (Except.ok.inj ht')
      refine ⟨hm, fun z => ?_⟩
      rw [hcounts z, hzero.1 rfl z]
      show _ + 0 + 0 = _
      omega
  | some x =>
    -- the reference to the inode found is kept
    refine iff_of_false ?_ ?_
    · rintro ⟨-, hrefs⟩
      have h1 := hcounts (s'.ident x.1)
      rw [hrefs, show gained s' (Option.map Prod.fst (some x)) (s'.ident x.1) =
        1 from one_self _] at h1
      have h2 := hpos (s'.ident x.1)
      omega
    · rintro ⟨hf, hslot, -⟩
      rcases hfail (Option.some_ne_none x) with hfound | hfull
      · rw [hm, hf] at hfound
        cases hfound
      · rcases hslot with hslot | ⟨t', ht'⟩
        · exact hslot (hm ▸ hfull)
        · cases ht'

/-! ## A mounted root -/

/-- After `mount("/", 1)`, `nameiparent("/x")` returns the root of partition 1 and keeps one more
reference to the root of partition 0. -/
theorem nameiparent_unbalanced :
    ∃ s1 k s2, mount demoEnv.code 0 [slash] 1 (idleState rootDisk) = .ok (0, s1) ∧
    nameiparent demoEnv.code 0 [slash, 120] s1 = .ok (some (k, [120]), s2) ∧
    ¬ Balanced s1 (some k) s2 := by
  refine ⟨_, _, _, rfl, rfl, fun h => ?_⟩
  have := h (some 0, ROOTINO)
  revert this
  decide +kernel

/-- After `mount("/x", 1)` the walk of `"/y"` comes only to the root of partition 0, which nothing
is mounted over. -/
theorem nameiparent_balanced :
    ∃ s1 k s2, mount demoEnv.code 0 [slash, 120] 1 treeState = .ok (0, s1) ∧
    nameiparent demoEnv.code 0 [slash, 121] s1 = .ok (some (k, [121]), s2) ∧
    Balanced s1 (some k) s2 := by
  obtain ⟨r, s1, hs1, rfl, hret, hmeets⟩ : ∃ r s1, mount demoEnv.code 0 [slash, 120] 1 treeState =
    .ok (r, s1) ∧ r = 0 ∧
      (nameiparent demoEnv.code 0 [slash, 121]).wp (fun x _ => x.map Prod.snd = some [121])
        (fun _ => False) s1 ∧
      (crossesMount demoEnv.code 0 [slash, 121] true).wp (fun b _ => b = false)
        (fun _ => False) s1 :=
    wp_total.1 (by decide +kernel)
  obtain ⟨x, s2, hs2, hx⟩ := wp_total.1 hret
  obtain ⟨_, t, ht, rfl⟩ := wp_total.1 hmeets
  obtain ⟨⟨k, _⟩, rfl, rfl⟩ := Option.map_eq_some_iff.1 hx
  exact ⟨s1, k, s2, hs1, hs2,
    ((namei_balanced_iff demoEnv.code 0 [slash, 121] s1).2 _ _ hs2).2 ⟨t, ht⟩⟩

/-- `mount("/x", 1)` of a path that names nothing. -/
theorem failed_mount_clean :
    ∃ s', mount demoEnv.code 0 [slash, 120] 1 (idleState rootDisk) = .ok (-1, s') ∧
    s'.mounts = (idleState rootDisk).mounts ∧ ∀ y, refs s' y = refs (idleState rootDisk) y :=
  ⟨_, rfl, (failed_mount_iff (show mount demoEnv.code 0 [slash, 120] 1 (idleState rootDisk) =
    .ok (-1, _) from rfl)).2
    ⟨by decide +kernel, .inl (by decide +kernel), _, rfl⟩⟩

/-- The second `mount("/", 1)` fails, and keeps a reference to the root of partition 1. -/
theorem failed_mount_keeps :
    ∃ s1 s2, mount demoEnv.code 0 [slash] 1 (idleState rootDisk) = .ok (0, s1) ∧
    mount demoEnv.code 0 [slash] 1 s1 = .ok (-1, s2) ∧ refs s1 (some 1, ROOTINO) = 0 ∧
    refs s2 (some 1, ROOTINO) = 1 :=
  ⟨_, _, rfl, rfl, by decide +kernel, by decide +kernel⟩

end Os4.Fs
