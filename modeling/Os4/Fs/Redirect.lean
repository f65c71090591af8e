import Os4.Fs.Dir
/-!
# Lookups that a mount point redirects (fs.c:620-648)

| here | there |
| --- | --- |
| `slotFor s prt inum` | the slot that `iget` returns |
| `FindsRoot E s k q name` | `dirlookup` returns what the root directory of partition `q` on the disk has under `name` |

`dirlookup` searches the inode that `iget` returns for the mounted root without locking it: type,
size and block numbers are whatever the slot holds. **`dirlookup_mounted_iff`** says when that is
good enough.
-/
namespace Os4.Fs

open Prog

variable {E : Env} {q : Int} {k k' : Fin NINODE} {i off inum : Nat} {s s' : FsState} {d : Dinode}
  {name l : List UInt8} {prt : Option Int}

/-! ## The slot -/

theorem inode_bind {α : Type} {f : Inode → FsM α} : (inode k >>= f) s = f (s.icache k) s := rfl

def FsState.slotFor (s : FsState) (prt : Option Int) (inum : Nat) : Option (Fin NINODE) :=
  match s.cachedAt prt inum with
  | some k => some k
  | none => s.emptySlot

theorem iget_none (h : s.slotFor prt inum = none) : iget prt inum s = .error .iget := by
  unfold FsState.slotFor at h
  cases hc : s.cachedAt prt inum with
  | some k => rw [hc] at h; cases h
  | none =>
    rw [hc] at h
    refine get_bind.trans ?_
    rw [hc]
    simp only at h ⊢
    rw [h]
    rfl

theorem iget_slotFor (h : s.slotFor prt inum = some k) :
    ∃ x, iget prt inum s = .ok (k, s.withInode k x) ∧
    x.ident = (prt, inum) ∧ 0 < x.ref ∧ x.din = (s.icache k).din := by
  unfold FsState.slotFor at h
  have hrun : iget prt inum s = (match s.cachedAt prt inum with
      | some k => _
      | none => _ : FsM (Fin NINODE)) s := get_bind
  cases hc : s.cachedAt prt inum with
  | some k0 =>
    rw [hc] at h hrun
    obtain rfl := Option.some.inj h
    obtain ⟨hpos, hid⟩ := cachedAt_some hc
    exact ⟨{ s.icache k0 with ref := (s.icache k0).ref + 1 }, hrun, hid,
      by show 0 < (s.icache k0).ref + 1; omega, rfl⟩
  | none =>
    rw [hc] at h hrun
    simp only at h hrun
    rw [h] at hrun
    exact ⟨{ s.icache k with prt, inum, ref := 1, busy := false, valid := false }, hrun,
      rfl, Int.one_pos, rfl⟩

theorem slotFor_isSome : (s.slotFor prt inum).isSome ↔
    (∃ k, 0 < (s.icache k).ref ∧ s.ident k = (prt, inum)) ∨ ∃ k, (s.icache k).ref = 0 := by
  unfold FsState.slotFor
  cases hc : s.cachedAt prt inum with
  | some k => exact ⟨fun _ => .inl ⟨k, cachedAt_some hc⟩, fun _ => rfl⟩
  | none =>
    have hnone : ¬ ∃ k, 0 < (s.icache k).ref ∧ s.ident k = (prt, inum) := by
      rintro ⟨k, hk, hid⟩
      exact cachedAt_none hc hk hid
    simp only [hnone, false_or]
    unfold FsState.emptySlot
    rw [List.find?_isSome]
    simp

/-! ## The search -/

/-- The loop of `dirlookup` over a directory without holes: it ends at the entry, or at the end of
the directory, and panics there if an entry is cut off. -/
theorem dirScan_eq (h : Readable s k d) : ∀ fuel off : Nat, off % 16 = 0 → off ≤ d.size →
    d.size < off + 16 * fuel → dirScan E k name fuel off s =
      if findFrom (content s.disk d) name fuel off = none ∧ d.size % 16 ≠ 0 then .error .dirlinkRead
      else .ok (findFrom (content s.disk d) name fuel off, s) := by
  intro fuel
  induction fuel with
  | zero => intro off _ h1 h2; omega
  | succ fuel ih =>
    intro off hoff hle hfuel
    unfold dirScan findFrom
    rw [length_content]
    refine inode_bind.trans ?_
    rw [h.din]
    by_cases hlt : off < d.size
    · rw [if_pos hlt, bind_of_ok (readEntry h hlt)]
      by_cases hfull : off + 16 ≤ d.size
      · have hmin : min 16 (d.size - off) = 16 := by omega
        rw [if_pos hfull]
        simp only [hmin]
        rw [if_neg (by simp)]
        show (if (entryAt (content s.disk d) off).inum ≠ 0 ∧
          namecmp name (entryAt (content s.disk d) off).name = 0
          then _ else _ : FsM (Option (Nat × Nat))) s = _
        by_cases hc : (entryAt (content s.disk d) off).inum ≠ 0 ∧
          namecmp name (entryAt (content s.disk d) off).name = 0
        · rw [if_pos hc, if_pos hc, if_neg (by simp)]
          rfl
        · rw [if_neg hc, if_neg hc]
          exact ih (off + 16) (by omega) hfull (by omega)
      · rw [if_neg hfull, if_pos ⟨rfl, by omega⟩]
        dsimp only
        rw [if_pos (by omega)]
        rfl
    · rw [if_neg hlt, if_neg (by omega), if_neg (by omega)]
      rfl

def FindsRoot (E : Env) (s : FsState) (k : Fin NINODE) (q : Int) (name : List UInt8) : Prop :=
  ∃ r s', dirlookup E k name s = .ok (r, s') ∧
    r.map (fun y => s'.ident y.1) = (dirFind (fileOf E s q ROOTINO) name).map fun x => (some q, x.2)

/-- What slot `k'` holds is as good as the root directory of `q` for looking up `name`. -/
structure AsRoot (E : Env) (s : FsState) (k' : Fin NINODE) (q : Int) (name : List UInt8) :
    Prop where
  type : (s.icache k').din.type = T_DIR
  found : (dirFind (content s.disk (s.icache k').din) name).map Prod.snd =
    (dirFind (fileOf E s q ROOTINO) name).map Prod.snd
  /-- no entry is cut off at the end -/
  whole : dirFind (content s.disk (s.icache k').din) name = none → (s.icache k').din.size % 16 = 0
  /-- the inode found is cached or there is a slot for it -/
  slot : ∀ x, dirFind (content s.disk (s.icache k').din) name = some x → x.2 = ROOTINO ∨
    (∃ k, 0 < (s.icache k).ref ∧ s.ident k = (some q, x.2)) ∨ ∃ k, k ≠ k' ∧ (s.icache k).ref = 0

/-- The second `iget` of `dirlookup`, after slot `k'` was taken for the root. -/
theorem slotFor_after {x : Inode} (inum : Nat) (hk' : s.slotFor (some q) ROOTINO = some k')
    (hid : x.ident = (some q, ROOTINO))
    (hpos : 0 < x.ref) : ((s.withInode k' x).slotFor (some q) inum).isSome ↔
      inum = ROOTINO ∨ (∃ k, 0 < (s.icache k).ref ∧ s.ident k = (some q, inum)) ∨ ∃ k, k ≠ k' ∧
      (s.icache k).ref = 0 := by
  have hself : (s.withInode k' x).ident k' = (some q, ROOTINO) := by
    rw [FsState.ident, withInode_self, hid]
  have hother : ∀ {k}, k ≠ k' → (s.withInode k' x).ident k = s.ident k := fun h => by
    rw [FsState.ident, withInode_ne h]
    rfl
  rw [slotFor_isSome]
  constructor
  · rintro (⟨k, hk, hki⟩ | ⟨k, hk⟩)
    · by_cases h : k = k'
      · rw [h, hself] at hki
        exact .inl (Prod.mk.inj hki).2.symm
      · rw [withInode_ne h] at hk
        rw [hother h] at hki
        exact .inr (.inl ⟨k, hk, hki⟩)
    · by_cases h : k = k'
      · rw [h, withInode_self] at hk; omega
      · rw [withInode_ne h] at hk
        exact .inr (.inr ⟨k, h, hk⟩)
  · rintro (rfl | ⟨k, hk, hki⟩ | ⟨k, h, hk⟩)
    · exact .inl ⟨k', by rw [withInode_self]; exact hpos, hself⟩
    · by_cases h : k = k'
      · -- a slot in use that `iget` chose is the one of the root
        have hroot : s.ident k' = (some q, ROOTINO) := by
          unfold FsState.slotFor at hk'
          cases hc : s.cachedAt (some q) ROOTINO with
          | some k0 =>
            rw [hc] at hk'
            obtain rfl := Option.some.inj hk'
            exact (cachedAt_some hc).2
          | none =>
            rw [hc] at hk'
            have := emptySlot_some hk'
            rw [h, this] at hk
            exact absurd hk (by decide)
        exact .inl ⟨k', by rw [withInode_self]; exact hpos, by rw [hself, ← hroot, ← h, hki]⟩
      · exact .inl ⟨k, by rw [withInode_ne h]; exact hk, by rw [hother h]; exact hki⟩
    · exact .inr ⟨k, by rw [withInode_ne h]; exact hk⟩

theorem dirlookupIn_eq (h : Readable s k d) (ht : d.type = T_DIR) : dirlookupIn E k name s =
    match dirFind (content s.disk d) name with
    | none => if d.size % 16 ≠ 0 then .error .dirlinkRead else .ok (none, s)
    | some x =>
      (do return some (← iget (s.icache k).prt x.2, x.1) : FsM (Option (Fin NINODE × Nat))) s := by
  have hscan : dirScan E k name (d.size / 16 + 1) 0 s = _ :=
    dirScan_eq h (d.size / 16 + 1) 0 (by decide) (Nat.zero_le _) (by omega)
  have hfind : findFrom (content s.disk d) name (d.size / 16 + 1) 0 =
      dirFind (content s.disk d) name := by
    rw [dirFind, length_content]
  rw [hfind] at hscan
  unfold dirlookupIn
  refine inode_bind.trans ?_
  rw [h.din, if_neg (not_not.2 ht)]
  cases hf : dirFind (content s.disk d) name with
  | none =>
    rw [hf] at hscan
    by_cases hr : d.size % 16 ≠ 0
    · rw [if_pos ⟨rfl, hr⟩] at hscan
      simp only [bind, StateT.bind, Except.bind, hscan]
      rw [if_pos hr]
    · rw [if_neg fun h => hr h.2] at hscan
      rw [bind_of_ok hscan]
      simp only
      rw [if_neg hr]
      rfl
  | some x =>
    rw [hf, if_neg (by simp)] at hscan
    rw [bind_of_ok hscan]

theorem map_root_iff {a : Option (Nat × Nat)} {o : Option Nat} :
    o.map (fun j => ((some q, j) : Option Int × Nat)) = a.map (fun x => (some q, x.2)) ↔
    o = a.map Prod.snd := by
  cases o <;> cases a <;> simp

/-- **Lookup in a mounted directory.** Let `q` be mounted over the inode of slot `k`. `dirlookup`
returns the inode that the root directory of `q` on the disk has under `name` exactly when `iget`
has a slot for that root and what the slot holds, loaded or left there by another inode, gives the
same answer. The copy in the slot may be anything without holes. -/
theorem dirlookup_mounted_iff
    (hm : isInodeMounted s.mounts (s.icache k).inum (s.icache k).prt = some (some q))
    (hsize : ∀ k', s.slotFor (some q) ROOTINO = some k' → (s.icache k').din.size ≤ MAXFILE * BSIZE)
    (hsolid : ∀ k' bn, s.slotFor (some q) ROOTINO = some k' → bn * BSIZE < (s.icache k').din.size →
      (s.icache k').din.fileBlock s.disk bn ≠ 0) (name : List UInt8) :
    FindsRoot E s k q name ↔ ∃ k', s.slotFor (some q) ROOTINO = some k' ∧ AsRoot E s k' q name := by
  have hredirect : redirect k s = iget (some q) ROOTINO s := by
    refine get_bind.trans ?_
    rw [hm]
  cases hs : s.slotFor (some q) ROOTINO with
  | none =>
    refine ⟨fun ⟨r, s', h, _⟩ => ?_, fun ⟨k', h, _⟩ => by cases h⟩
    obtain ⟨k', s1, h1, -⟩ := bind_ok h
    rw [hredirect, iget_none hs] at h1
    cases h1
  | some k' =>
    obtain ⟨x, hget, hid, hpos, hdin⟩ := iget_slotFor hs
    have hrun : dirlookup E k name s = dirlookupIn E k' name (s.withInode k' x) :=
      bind_of_ok (hredirect.trans hget)
    have huniq : (∃ k1, some k' = some k1 ∧ AsRoot E s k1 q name) ↔ AsRoot E s k' q name :=
      ⟨fun ⟨k1, h, hA⟩ => Option.some.inj h ▸ hA, fun h => ⟨k', rfl, h⟩⟩
    rw [huniq, FindsRoot, hrun]
    have hd : ((s.withInode k' x).icache k').din = (s.icache k').din := by rw [withInode_self, hdin]
    by_cases ht : (s.icache k').din.type = T_DIR
    · have hr : Readable (s.withInode k' x) k' (s.icache k').din :=
        ⟨hd, by rw [ht]; decide, hsize k' hs, fun bn => hsolid k' bn hs⟩
      have hprt : ((s.withInode k' x).icache k').prt = some q := by
        rw [withInode_self]
        exact (Prod.mk.inj hid).1
      rw [dirlookupIn_eq hr ht, withInode_disk, hprt]
      cases hf : dirFind (content s.disk (s.icache k').din) name with
      | none =>
        simp only
        by_cases hw : (s.icache k').din.size % 16 ≠ 0
        · rw [if_pos hw]
          exact ⟨fun ⟨r, s', h, _⟩ => (by cases h), fun hA => absurd (hA.whole hf) hw⟩
        · rw [if_neg hw]
          constructor
          · rintro ⟨r, s', h, hres⟩
            obtain ⟨rfl, rfl⟩ := Prod.mk.inj (Except.ok.inj h)
            exact ⟨ht, by rw [hf]; exact (map_root_iff (o := none)).1 hres, fun _ => not_not.1 hw,
              fun x hx => by rw [hf] at hx; cases hx⟩
          · intro hA
            refine ⟨none, _, rfl, (map_root_iff (o := none)).2 ?_⟩
            rw [← hA.found, hf]
            rfl
      | some y =>
        simp only
        have hafter := slotFor_after y.2 hs hid hpos
        cases hs2 : (s.withInode k' x).slotFor (some q) y.2 with
        | none =>
          rw [hs2] at hafter
          constructor
          · rintro ⟨r, s', h, -⟩
            obtain ⟨k2, s2, h2, -⟩ := bind_ok h
            rw [iget_none hs2] at h2
            cases h2
          · intro hA
            exact absurd (hafter.2 (hA.slot y hf)) (by decide)
        | some k2 =>
          obtain ⟨x2, hget2, hid2, -, -⟩ := iget_slotFor hs2
          have hident : ((s.withInode k' x).withInode k2 x2).ident k2 = (some q, y.2) := by
            rw [FsState.ident, withInode_self, hid2]
          rw [bind_of_ok hget2]
          rw [hs2] at hafter
          constructor
          · rintro ⟨r, s', h, hres⟩
            cases h
            refine ⟨ht, ?_, fun h => absurd (hf.symm.trans h) (by simp), fun x hx => ?_⟩
            · rw [hf]
              exact map_root_iff.1 ((congrArg some hident).symm.trans hres)
            · obtain rfl := Option.some.inj (hf.symm.trans hx)
              exact hafter.1 rfl
          · intro hA
            refine ⟨_, _, rfl, ?_⟩
            rw [Option.map_some, hident]
            have := hA.found
            rw [hf] at this
            exact map_root_iff.2 this
    · constructor
      · rintro ⟨r, s', h, -⟩
        obtain ⟨x', t, hx', h⟩ := bind_ok h
        cases hx'
        rw [hd, if_pos ht] at h
        cases h
      · intro hA
        exact absurd hA.type ht

/-! ## A root that is not loaded -/

def rootInode : Dinode := ⟨T_DIR, 0, 0, 1, 0, fun _ => 0⟩

/-- Four partitions with an empty root directory each. -/
def rootDisk : Disk := fun b =>
  if b % 1000 = 100 then superblockBlock Mkfs.superblock
  else if b % 1000 = 131 then putDinode Bytes.zero 1 rootInode
  else Bytes.zero

/-- After `mount("/", 1)` the root of partition 1 is in no slot: a lookup in the root of partition
0, locked as callers have it, panics on the type of an unused slot, although the directory on the
disk has no such name. -/
theorem dirlookup_mounted_panics :
    ∃ s1 s2, mount demoEnv.code 0 [slash] 1 (idleState rootDisk) = .ok (0, s1) ∧
    ilock demoEnv.code 0 s1 = .ok ((), s2) ∧
    isInodeMounted s2.mounts (s2.icache 0).inum (s2.icache 0).prt = some (some 1) ∧
    dirlookup demoEnv.code 0 [120] s2 = .error .dirlookup ∧
    dirFind (fileOf demoEnv s2 1 ROOTINO) [120] = none ∧ ¬ FindsRoot demoEnv.code s2 0 1 [120] := by
  refine ⟨_, _, rfl, rfl, rfl, rfl, rfl, fun ⟨r, s', h, _⟩ => ?_⟩
  cases h

/-- With the root of partition 1 locked by somebody the lookup of `x` finds what that root has under
this name. -/
theorem dirlookup_mounted_demo :
    ∃ s1 s2 k s3 s4, mount demoEnv.code 0 [slash] 1 treeState = .ok (0, s1) ∧
    ilock demoEnv.code 0 s1 = .ok ((), s2) ∧ iget (some 1) ROOTINO s2 = .ok (k, s3) ∧
    ilock demoEnv.code k s3 = .ok ((), s4) ∧
    dirFind (fileOf demoEnv s4 1 ROOTINO) [120] = some (32, 2) ∧
    FindsRoot demoEnv.code s4 0 1 [120] := by
  refine ⟨_, _, 1, _, _, rfl, rfl, rfl, rfl, by decide +kernel,
    (dirlookup_mounted_iff rfl (fun k' hk' => ?_) (fun k' bn hk' hbn => ?_) [120]).2
      ⟨1, rfl, rfl, by decide +kernel, fun h => ?_, fun x _ => .inr (.inr ⟨2, by decide, rfl⟩)⟩⟩
  · cases hk'
    decide +kernel
  · cases hk'
    have hbn0 : bn = 0 := by
      have : bn * 512 < 48 := hbn
      omega
    rw [hbn0]
    decide +kernel
  · revert h
    decide +kernel

end Os4.Fs
