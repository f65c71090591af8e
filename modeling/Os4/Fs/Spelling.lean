import Os4.Fs.Balance
import Mathlib.Data.List.TakeWhile
/-!
# Spellings of a path (fs.c:695-769)

| here | there |
| --- | --- |
| `namexElems` | the `while` of `namex` over the elements that `skipelem` will take off the path |
| `shortcut m path` | the partition that `find_mp` sends the whole string to |
| `SameMeaning` | when two spellings of the same elements lead to one inode |

The loop sees of a path only its elements. `find_mp` sees the string, so that of two spellings one
may be sent to the root of a mounted partition and the other to the directory under it.
**`namei_spelling_iff`**
-/
namespace Os4.Fs

open Prog

variable {E : Env} {first : Nat} {p q : Int} {k ip cwd : Fin NINODE} {i j : Nat} {s s1 s' : FsState}
  {L : List (Fin NINODE)} {path a b name rest : List UInt8} {parent : Bool}

/-! ## The loop and the elements -/

def namexElems (E : Env) (parent : Bool) : Fin NINODE → List (List UInt8) → List UInt8 →
    FsM (Option (Fin NINODE × List UInt8))
  | ip, [], name =>
    if parent then do
      iput E ip
      return none
    else return some (ip, name)
  | ip, el :: els, _ => do
    ilock E ip
    if (← inode ip).din.type ≠ T_DIR then
      iunlockput E ip
      return none
    else if parent ∧ els = [] then
      let tmp ← checkMounted ip
      iunlock ip
      return some (tmp.getD ip, el)
    else
      match ← dirlookup E ip el with
      | none =>
        iunlockput E ip
        return none
      | some (next, _) =>
        iunlockput E ip
        namexElems E parent next els el

theorem elems_rest (h : skipelem path = some (name, rest)) : elems rest = [] ↔ rest = [] := by
  constructor
  · intro hnil
    by_contra hne
    have hsk : ∃ y, skipelem rest = some y := by
      unfold skipelem at h
      simp only at h
      split at h
      · cases h
      · obtain ⟨-, hrest⟩ := Prod.mk.inj (Option.some.inj h)
        have hdrop : rest.dropWhile (· == slash) = rest := by
          rw [← hrest]
          exact List.dropWhile_eq_self_iff.2 fun hl => List.dropWhile_get_zero_not _ _ hl
        unfold skipelem
        simp only [hdrop, if_neg hne]
        exact ⟨_, rfl⟩
    obtain ⟨⟨el, rest'⟩, hsk⟩ := hsk
    rw [elems_some hsk] at hnil
    cases hnil
  · rintro rfl
    exact elems_none rfl

theorem namexLoop_elems :
    ∀ {fuel : Nat} {ip : Fin NINODE} {path name : List UInt8}, path.length < fuel →
    namexLoop E parent fuel ip path name = namexElems E parent ip (elems path) name := by
  intro fuel
  induction fuel with
  | zero => intro ip path name h; exact absurd h (Nat.not_lt_zero _)
  | succ fuel ih =>
    intro ip path name hlen
    unfold namexLoop
    cases hsk : skipelem path with
    | none => rw [elems_none hsk]; rfl
    | some y =>
      obtain ⟨el, rest⟩ := y
      have hrest := skipelem_length hsk
      rw [elems_some hsk, namexElems]
      simp only [elems_rest hsk]
      congr 1
      funext _
      congr 1
      funext x
      split
      · rfl
      · split
        · rfl
        · congr 1
          funext r
          split
          · rfl
          · congr 1
            funext _
            exact ih (by omega)

/-- Spellings that `find_mp` does not know run alike. -/
theorem namex_congr (ha : findMp s.mounts a = none) (hb : findMp s.mounts b = none)
    (habs : a.head? = some slash ↔ b.head? = some slash) (helems : elems a = elems b) :
    namex E cwd a parent s = namex E cwd b parent s := by
  have hstart : startInode E cwd a = startInode E cwd b := by
    unfold startInode
    by_cases h : a.head? = some slash
    · rw [if_pos h, if_pos (habs.1 h)]
    · rw [if_neg h, if_neg fun h' => h (habs.2 h')]
  have hloop : ∀ ip, namexLoop E parent (a.length + 1) ip a [] =
      namexLoop E parent (b.length + 1) ip b [] := fun ip => by
    rw [namexLoop_elems (Nat.lt_succ_self _), namexLoop_elems (Nat.lt_succ_self _), helems]
  unfold namex
  refine get_bind.trans (Eq.trans ?_ get_bind.symm)
  rw [ha, hb]
  simp only [hstart, hloop]

/-! ## The string shortcut -/

def shortcut (m : List MountPoint) (path : List UInt8) : Option (Option Int) :=
  (findMp m path).map fun n => (m[n]?).bind (·.prt)

theorem shortcut_none : shortcut s.mounts path = none ↔ findMp s.mounts path = none :=
  Option.map_eq_none_iff

/-- Where the walk of the elements ends. -/
def walkTo (E : Env) (s : FsState) (cwd : Fin NINODE) (path : List UInt8) :
    Option (Option Int × Nat) :=
  match startIdent E s cwd path with
  | (none, _) => none
  | (some p, i) => (resolve E s false (path.length + 1) p i path []).map Prod.fst

/-- Neither spelling is a mounted string, or both are of one partition, or one is and the walk of
the other ends at the root of its partition. -/
def SameMeaning (E : Env) (s : FsState) (cwd : Fin NINODE) (a b : List UInt8) : Prop :=
  match shortcut s.mounts a, shortcut s.mounts b with
  | none, none => True
  | some x, some y => x = y
  | some x, none => walkTo E s cwd b = some (x, ROOTINO)
  | none, some y => walkTo E s cwd a = some (y, ROOTINO)

variable {r : Option (Fin NINODE)}

theorem namei_ok (h : namei E cwd path s = .ok (r, s')) :
    ∃ y, namex E cwd path false s = .ok (y, s') ∧ r = y.map Prod.fst := by
  obtain ⟨y, s1, h1, h⟩ := bind_ok h
  cases h
  exact ⟨y, h1, rfl⟩

theorem namei_shortcut {x : Option Int} (hx : shortcut s.mounts path = some x)
    (h : namei E cwd path s = .ok (r, s')) : r.map s'.ident = some (x, ROOTINO) := by
  obtain ⟨y, h0, rfl⟩ := namei_ok h
  obtain ⟨n, hn, hx⟩ := Option.map_eq_some_iff.1 hx
  replace h0 := get_bind.symm.trans h0
  rw [hn] at h0
  obtain ⟨ip, s1, h1, h2⟩ := bind_ok h0
  rw [hx] at h1
  have ht := iget_took h1
  have hsk : skipelem [slash] = none := by decide
  unfold namexLoop at h2
  rw [hsk] at h2
  cases h2
  exact congrArg some ht.ident

theorem namei_walk (hL : Laid E first) (hI : Inv E L s) (hboot : IsPart E.boot) (hcwd : cwd ∈ L)
    (hprt : (s.icache cwd).prt ≠ none) (hroots : Passable E L s cwd path false)
    (hfind : shortcut s.mounts path = none)
    (h : namei E cwd path s = .ok (r, s')) : r.map s'.ident = walkTo E s cwd path := by
  obtain ⟨y, h0, rfl⟩ := namei_ok h
  obtain ⟨p, i, hstart⟩ := startIdent_some E path hprt
  have hA := wp_ok (namex_wp hL hI hboot hcwd (shortcut_none.1 hfind) hstart
    (fun h => absurd h Bool.false_ne_true) (hroots p i hstart)) h0
  rw [walkTo, hstart]
  simp only
  rw [← hA.result, Option.map_map, Option.map_map]
  rfl

/-- **Two spellings of the same elements lead to one inode exactly if they have the same meaning.**
Where only one is a mounted string, the roots that the walk of the other is sent to are loaded. -/
theorem namei_spelling_iff (hL : Laid E first) (hI : Inv E L s)
    (hboot : IsPart E.boot) (hcwd : cwd ∈ L) (hprt : (s.icache cwd).prt ≠ none)
    (hpa : shortcut s.mounts a = none → shortcut s.mounts b ≠ none → Passable E L s cwd a false)
    (hpb : shortcut s.mounts b = none → shortcut s.mounts a ≠ none → Passable E L s cwd b false)
    (habs : a.head? = some slash ↔ b.head? = some slash) (helems : elems a = elems b)
    {ra rb : Option (Fin NINODE)} {sa sb : FsState}
    (ha : namei E cwd a s = .ok (ra, sa)) (hb : namei E cwd b s = .ok (rb, sb)) :
    ra.map sa.ident = rb.map sb.ident ↔ SameMeaning E s cwd a b := by
  unfold SameMeaning
  cases hma : shortcut s.mounts a with
  | none =>
    cases hmb : shortcut s.mounts b with
    | none =>
      -- one and the same run
      have hrun : namei E cwd a s = namei E cwd b s := by
        have h : namex E cwd a false s = namex E cwd b false s :=
          namex_congr (shortcut_none.1 hma) (shortcut_none.1 hmb) habs helems
        unfold namei
        simp only [bind, StateT.bind, h]
      obtain ⟨rfl, rfl⟩ := Prod.mk.inj (Except.ok.inj (ha.symm.trans (hrun.trans hb)))
      exact ⟨fun _ => trivial, fun _ => rfl⟩
    | some y =>
      rw [namei_walk hL hI hboot hcwd hprt (hpa hma (by rw [hmb]; nofun)) hma ha,
        namei_shortcut hmb hb]
  | some x =>
    cases hmb : shortcut s.mounts b with
    | none =>
      rw [namei_walk hL hI hboot hcwd hprt (hpb hmb (by rw [hma]; nofun)) hmb hb,
        namei_shortcut hma ha]
      exact eq_comm
    | some y =>
      rw [namei_shortcut hma ha, namei_shortcut hmb hb]
      exact ⟨fun h => (Prod.mk.inj (Option.some.inj h)).1, fun h => by rw [show x = y from h]⟩

/-- Partition 1 is mounted on `/x`. Its root is not loaded. -/
def overFile : FsState :=
  { treeState with
    mounts := treeState.mounts.modify 0 fun old => mountEntry old [slash, 120] 1 2 (some 0) }

/-- After `mount("/x", 1)` the paths `"/x/"` and `"/x//"` are one inode, and `"/x"` and `"//x"` are
two. -/
theorem namei_spelling_demo :
    (∃ s, mount demoEnv.code 0 [slash, 120] 1 treeState = .ok (0, s) ∧ s.mounts = overFile.mounts) ∧
    (∃ ra sa rb sb, namei demoEnv.code 0 [slash, 120, slash] overFile = .ok (ra, sa) ∧
      namei demoEnv.code 0 [slash, 120, slash, slash] overFile = .ok (rb, sb) ∧
      ra.map sa.ident = rb.map sb.ident) ∧
    ∃ ra sa rb sb, namei demoEnv.code 0 [slash, 120] overFile = .ok (ra, sa) ∧
      namei demoEnv.code 0 [slash, slash, 120] overFile = .ok (rb, sb) ∧
      ra.map sa.ident ≠ rb.map sb.ident := by
  obtain ⟨r, s, hs, rfl, hmounts⟩ : ∃ r s, mount demoEnv.code 0 [slash, 120] 1 treeState =
    .ok (r, s) ∧ r = 0 ∧ s.mounts = overFile.mounts := wp_total.1 (by decide +kernel)
  have hret : ∀ path ∈ [[slash, 120, slash], [slash, 120, slash, slash], [slash, 120],
    [slash, slash, 120]],
      (namei demoEnv.code 0 path).wp (fun _ _ => True) (fun _ => False) overFile := by
        decide +kernel
  simp only [List.forall_mem_cons] at hret
  obtain ⟨h1, h2, h3, h4, -⟩ := hret
  obtain ⟨ra, sa, ha, -⟩ := wp_total.1 h1
  obtain ⟨rb, sb, hb, -⟩ := wp_total.1 h2
  obtain ⟨rc, sc, hc, -⟩ := wp_total.1 h3
  obtain ⟨rd, sd, hd, -⟩ := wp_total.1 h4
  have hL : Laid demoEnv.code 100 := ⟨by decide, laid_demoEnv.offset, by decide⟩
  have hI : Inv demoEnv [0] overFile := inv_treeState.congr rfl rfl
  replace hI : Inv demoEnv.code [0] overFile := hI.env rfl
  have hprt : (overFile.icache 0).prt ≠ none := by decide
  have hsa : shortcut overFile.mounts [slash, 120, slash] = none := by decide +kernel
  have hsb : shortcut overFile.mounts [slash, 120, slash, slash] = none := by decide +kernel
  have hsc : shortcut overFile.mounts [slash, 120] = some (some 1) := by decide +kernel
  have hsd : shortcut overFile.mounts [slash, slash, 120] = none := by decide +kernel
  -- the walk of `"//x"` searches the root of partition 0 only, and nothing is mounted there
  have hpass : Passable demoEnv.code [0] overFile 0 [slash, slash, 120] false :=
    fun p i h x hx => by
    have h0 : startIdent demoEnv.code overFile 0 [slash, slash, 120] = (some 0, 1) := rfl
    obtain ⟨h1, rfl⟩ := Prod.mk.inj (h0.symm.trans h)
    obtain rfl := Option.some.inj h1
    have hone : visited demoEnv.code overFile false 4 0 1 [slash, slash, 120] = [(0, 1)] := by
      decide +kernel
    obtain rfl := List.mem_singleton.1 (hone ▸ hx)
    exact rooted_of_none (by decide +kernel)
  have hsame := namei_spelling_iff hL hI (by decide) (by simp) hprt (fun _ h => absurd hsb h)
    (fun _ h => absurd hsa h)
    (by decide) (by decide) ha hb
  have hapart := namei_spelling_iff hL hI (by decide) (by simp) hprt
    (fun h => absurd (hsc.symm.trans h) nofun)
    (fun _ _ => hpass) (by decide) (by decide) hc hd
  refine ⟨⟨s, hs, hmounts⟩, ⟨ra, sa, rb, sb, ha, hb, hsame.2 ?_⟩, rc, sc, rd, sd,
    hc, hd, fun h => ?_⟩
  · rw [SameMeaning, hsa, hsb]
    trivial
  · have hmeans := hapart.1 h
    rw [SameMeaning, hsc, hsd] at hmeans
    exact absurd hmeans (by decide +kernel)

/-- After `mount("/", 1)` the path `"/"` is the root of partition 1, and `"//"` that of partition
0. -/
theorem namei_spelled_apart :
    ∃ s k k' s1 s2, mount demoEnv.code 0 [slash] 1 treeState = .ok (0, s) ∧
    elems [slash] = elems [slash, slash] ∧ namei demoEnv.code 0 [slash] s = .ok (some k, s1) ∧
    namei demoEnv.code 0 [slash, slash] s = .ok (some k', s2) ∧ s1.ident k = (some 1, ROOTINO) ∧
    s2.ident k' = (some 0, ROOTINO) := by
  exact ⟨_, _, _, _, _, rfl, rfl, rfl, rfl, rfl, rfl⟩

end Os4.Fs
