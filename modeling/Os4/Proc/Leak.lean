import Os4.Proc.Copy
/-!
# What a failed `fork` or `exec` keeps

| here | there |
| --- | --- |
| `Loses` | what a stretch of code does to the frames |
| `loses_allocuvm` … `loses_build` | vm.c:219, exec.c:33-82 |
| `Call` | proc.c:127, exec.c:11 |

All that a page directory has comes back with `freevm`. What does not come back is a frame that is
in no directory: the page for which `mappages` found no table, in `copyuvm` and in `allocuvm`; and
when `setupkvm` fails half way, the directory itself, for then nobody knows it. Each time
`walkpgdir` has asked `kalloc` for a table and got none. So a failed call keeps a frame exactly if
that has happened (**`failed_call_leaks_iff`**).
-/
namespace Os4.Uvm

open Vm (Frame Layout Image npages pgroundup word NPTENTRIES NPDENTRIES)
open Prog Thread

variable {L : Layout} {s s' : St} {d : Frame} {F X : Set Frame} {E : Panic → Prop}

/-- The frames that are held may have become more, and have if not `c`. -/
def Loses (L : Layout) (d : Frame) (F X : Set Frame) (s' : St) (c : Prop) : Prop :=
  ∃ X', X ⊆ X' ∧ (c ↔ X' = X) ∧ Owns L d F X' s'

variable {c : Prop}

theorem Loses.nothing (h : Owns L d F X s) (hc : c) : Loses L d F X s c :=
  ⟨X, subset_rfl, iff_of_true hc rfl, h⟩

theorem Loses.then {X' : Set Frame} {c' : Prop} (hX : X ⊆ X') (hc : c ↔ X' = X)
    (h : Loses L d F X' s' c') :
    Loses L d F X s' (c ∧ c') := by
  obtain ⟨X'', hX', hc', ho⟩ := h
  refine ⟨X'', hX.trans hX', ?_, ho⟩
  rw [hc, hc']
  constructor
  · rintro ⟨rfl, h⟩
    exact h
  · rintro rfl
    have := Set.Subset.antisymm hX hX'
    exact ⟨this.symm, this⟩

theorem Loses.mono {c' : Prop} (h : Loses L d F X s c) (hc : c' ↔ c) : Loses L d F X s c' := by
  obtain ⟨X', h1, h2, h3⟩ := h
  exact ⟨X', h1, hc.trans h2, h3⟩

/-- No page at or above `n` is mapped. -/
def Free (d : Frame) (n : Nat) (s : St) : Prop :=
  ∀ w, n ≤ w → w < USERPAGES → (s.dirs d).page w = none

/-! ## The parts of `exec` -/

theorem loses_allocuvm {oldsz newsz : Nat} (h : Owns L d F X s) (hf : Free d (npages oldsz) s) :
    alone (Given .table) (allocuvm L d oldsz newsz)
      (fun r s' c => Loses L d F X s' c ∧ (r ≠ 0 → Free d (npages r) s')) E s := by
  by_cases hk : KERNBASE ≤ newsz
  · rw [allocuvm, if_pos hk]
    exact ⟨.nothing h trivial, fun h => absurd rfl h⟩
  · by_cases hlt : newsz < oldsz
    · rw [allocuvm, if_neg hk, if_pos hlt]
      exact ⟨.nothing h trivial, fun _ => hf⟩
    · refine alone_mono (alone_allocuvm (by decide) h (by omega) (by omega) hf) fun r s' c hc => ?_
      obtain ⟨X', hX, hcX, ⟨rfl, -, hg⟩ | ⟨rfl, -, hu⟩⟩ := hc
      · refine ⟨⟨X', hX, hcX rfl, hg.owns⟩, fun _ w hw hu => ?_⟩
        have := Vm.npages_mono (Nat.le_of_not_lt hlt)
        rw [hg.rest w (.inr hw)]
        exact hf w (by omega) hu
      · exact ⟨⟨X', hX, hcX rfl, hu.owns⟩, fun h => absurd rfl h⟩

/-- Nothing but the contents of pages has changed. -/
structure OnlyData (s s' : St) : Prop where
  freelist : s'.freelist = s.freelist
  dirs : s'.dirs = s.dirs

theorem OnlyData.trans {s'' : St} (h : OnlyData s s') (h' : OnlyData s' s'') : OnlyData s s'' :=
  ⟨h'.freelist.trans h.freelist, h'.dirs.trans h.dirs⟩

variable {sz addr offset fuel : Nat} {x : Image}

theorem alone_loadLoop {i : Nat} :
    alone (Given .table) (loadLoop d addr x offset sz fuel i) (fun _ s' c => c ∧ OnlyData s s')
      (fun _ => True) s := by
  induction fuel generalizing i s with
  | zero => exact ⟨trivial, rfl, rfl⟩
  | succ fuel ih =>
    unfold loadLoop
    split
    case isFalse => exact ⟨trivial, rfl, rfl⟩
    case isTrue =>
      rw [alone_bind, alone_look (by decide)]
      cases ((s.dirs d).tables ((addr + i) % 2 ^ 32 / PGSIZE / NPTENTRIES)).isSome with
      | false =>
        rw [if_neg Bool.false_ne_true, alone_act (by decide)]
        trivial
      | true =>
        rw [if_pos rfl, alone_bind, alone_act (by decide), wp_pte]
        -- what is stored is data
        have hrest : ∀ s1, OnlyData s s1 → alone (Given .table)
            (if (x.readi ((offset + i) % 2 ^ 32) (min (sz - i) PGSIZE)).1 ≠
              (min (sz - i) PGSIZE : Nat) then pure false
              else loadLoop d addr x offset sz fuel (i + PGSIZE)) (fun _ s' c => c ∧ OnlyData s s')
                (fun _ => True) s1 := by
          intro s1 h1
          split
          · exact ⟨trivial, h1⟩
          · exact alone_mono ih fun _ s2 c hc => ⟨hc.1, h1.trans hc.2⟩
        simp only []
        split
        · split
          · rw [alone_bind, alone_act (by decide)]
            trivial
          · rw [alone_bind, alone_act (by decide), store, wp_modify]
            refine alone_mono (hrest _ ⟨rfl, rfl⟩) fun _ s2 c hc => ?_
            simpa using hc
        · refine alone_mono (hrest s ⟨rfl, rfl⟩) fun _ s2 c hc => ?_
          simpa using hc

theorem alone_loaduvm :
    alone (Given .table) (loaduvm d addr x offset sz) (fun _ s' c => c ∧ OnlyData s s')
      (fun _ => True) s := by
  unfold loaduvm
  split
  · rw [alone_act (by decide)]
    trivial
  · exact alone_loadLoop

variable {null : Option Bool}

theorem alone_copyoutLoop {va : Nat} {buf : List UInt8} :
    alone (Given .table) (copyoutLoop d null fuel va buf) (fun _ s' c => c ∧ OnlyData s s')
      (fun _ => True) s := by
  induction fuel generalizing va buf s with
  | zero => exact ⟨trivial, rfl, rfl⟩
  | succ fuel ih =>
    unfold copyoutLoop
    split
    · exact ⟨trivial, rfl, rfl⟩
    · rw [alone_bind, alone_act (by decide)]
      -- `uva2ka` only looks
      have hlook : wp (uva2ka d (va / PGSIZE) null) (fun _ s' => s' = s) (fun _ => True) s := by
        unfold uva2ka
        rw [wp_bind, wp_dir]
        split
        · split <;> rfl
        · split <;> trivial
      refine wp_mono hlook fun r s1 hs => ?_
      subst hs
      cases r with
      | none => exact ⟨⟨trivial, trivial⟩, rfl, rfl⟩
      | some f =>
        simp only [alone_bind, alone_act (by decide : Site.table ≠ .plain), store,
          wp_modify, true_and]
        exact alone_mono ih fun _ s2 c hc => ⟨hc.1, hc.2.freelist, hc.2.dirs⟩

variable {args : List (List UInt8)}

theorem alone_pushArgs {ptrs : List Nat} {sp : Nat} :
    alone (Given .table) (pushArgs d null args ptrs sp) (fun _ s' c => c ∧ OnlyData s s')
      (fun _ => True) s := by
  induction args generalizing ptrs sp s with
  | nil => exact ⟨trivial, rfl, rfl⟩
  | cons arg args ih =>
    unfold pushArgs
    split
    · exact ⟨trivial, rfl, rfl⟩
    · simp only []
      rw [alone_bind, copyout]
      refine alone_mono alone_copyoutLoop fun b s1 c hc => ?_
      split
      · exact alone_mono ih fun _ s2 c' hc' => ⟨⟨hc.1, hc'.1⟩, hc.2.trans hc'.2⟩
      · exact ⟨⟨hc.1, trivial⟩, hc.2⟩

theorem Owns.onlyData (h : Owns L d F X s) (hd : OnlyData s s') : Owns L d F X s' :=
  h.congr hd.freelist (by rw [hd.dirs])

theorem Free.onlyData {n : Nat} (h : Free d n s) (hd : OnlyData s s') : Free d n s' := by
  unfold Free
  rw [hd.dirs]
  exact h

/-- `*pte &= ~PTE_U` leaves the frame where it is. -/
theorem Owns.hide {v : Nat} (h : Owns L d F X s) :
    Owns L d F X (s.withDir d ((s.dirs d).withPte v (((s.dirs d).ptes v).map fun e =>
      { e with u := false }))) := by
  have hat : ∀ r f, At d X (s.withDir d ((s.dirs d).withPte v (((s.dirs d).ptes v).map fun e =>
    { e with u := false }))) r f ↔ At d X s r f := by
    intro r f
    cases r with
    | free => exact Iff.rfl
    | held => exact Iff.rfl
    | dir => exact Iff.rfl
    | table i => simp only [At, withDir_dirs_same, withPte_tables]
    | page w =>
      simp only [At, withDir_dirs_same, page_eq_some, withPte_tables]
      by_cases hw : w = v
      · subst hw
        simp only [withPte_ptes_same]
        cases (s.dirs d).ptes w <;> simp
      · simp only [withPte_ptes_ne _ _ _ hw]
  exact ⟨fun f => (h.all f).trans (exists_congr fun r => (hat r f).symm),
    fun r r' f ha ha' => h.one r r' f ((hat r f).1 ha) ((hat r' f).1 ha'), h.nodup, h.range⟩

theorem alone_clearpteu {v : Nat} (h : Owns L d F X s) :
    alone (Given .table) (clearpteu d v) (fun _ s' c => c ∧ Owns L d F X s') (fun _ => True) s := by
  unfold clearpteu
  rw [alone_bind, alone_look (by decide)]
  split
  · rw [alone_act (by decide)]
    exact ⟨⟨trivial, trivial⟩, h.hide⟩
  · rw [alone_act (by decide)]
    trivial

theorem loses_loadSegments {n off : Nat} (h : Owns L d F X s) (hf : Free d (npages sz) s) :
    alone (Given .table) (loadSegments L d x n off sz)
      (fun r s' c => Loses L d F X s' c ∧ ∀ sz', r = some sz' →
        Free d (npages sz') s') (fun _ => True) s := by
  induction n generalizing off sz s X with
  | zero => exact ⟨.nothing h trivial, fun sz' hr => by cases hr; exact hf⟩
  | succ n ih =>
    have hbad : ∀ {s1 : St} {X1 : Set Frame}, Owns L d F X1 s1 → alone (Given .table)
      (pure none : Code (Option Nat))
        (fun r s' c => Loses L d F X1 s' c ∧ ∀ sz', r = some sz' →
          Free d (npages sz') s') (fun _ => True) s1 :=
      fun h1 => ⟨.nothing h1 trivial, fun _ hr => by cases hr⟩
    unfold loadSegments
    simp only []
    split
    · exact hbad h
    · split
      · exact ih h hf
      · split
        · exact hbad h
        · rw [alone_bind]
          refine alone_mono (loses_allocuvm h hf) fun r s1 c hc => ?_
          obtain ⟨⟨X', hX, hcX, ho⟩, hf1⟩ := hc
          split
          · exact alone_mono (hbad ho) fun _ _ _ h => ⟨h.1.then hX hcX, h.2⟩
          · rename_i hr
            rw [alone_bind]
            refine alone_mono alone_loaduvm fun b s2 c' hc' => ?_
            have ho2 := ho.onlyData hc'.2
            split
            · refine alone_mono (ih ho2 ((hf1 hr).onlyData hc'.2)) fun _ _ c'' h => ⟨?_, h.2⟩
              exact (h.1.then hX hcX).mono (by simp [hc'.1])
            · refine alone_mono (hbad ho2) fun _ _ c'' h => ⟨?_, h.2⟩
              exact (h.1.then hX hcX).mono (by simp [hc'.1])

theorem loses_pushStack (h : Owns L d F X s) (hf : Free d (npages sz) s) :
    alone (Given .table) (pushStack L d sz args null) (fun _ s' c => Loses L d F X s' c)
      (fun _ => True) s := by
  unfold pushStack
  rw [alone_bind]
  refine alone_mono (loses_allocuvm h hf) fun r s1 c hc => ?_
  obtain ⟨⟨X', hX, hcX, ho⟩, -⟩ := hc
  split
  · exact (Loses.nothing ho trivial).then hX hcX
  · rw [alone_bind]
    refine alone_mono (alone_clearpteu ho) fun _ s2 c2 hc2 => ?_
    rw [alone_bind]
    refine alone_mono alone_pushArgs fun r s3 c3 hc3 => ?_
    have ho3 := hc2.2.onlyData hc3.2
    cases r with
    | none => exact ((Loses.nothing ho3 trivial).then hX hcX).mono (by simp [hc2.1, hc3.1])
    | some r =>
      obtain ⟨ptrs, sp⟩ := r
      simp only []
      rw [alone_bind, copyout]
      refine alone_mono alone_copyoutLoop fun b s4 c4 hc4 => ?_
      have ho4 := ho3.onlyData hc4.2
      split <;> exact ((Loses.nothing ho4 trivial).then hX hcX).mono (by simp [hc2.1, hc3.1, hc4.1])

theorem le_npages_pgroundup (sz : Nat) : npages sz ≤ npages (pgroundup sz) := by
  unfold pgroundup
  simp only [npages, PGSIZE]
  omega

theorem loses_build {hdr : List UInt8} (h : Owns L d F X s)
    (hf : Free d 0 s) : alone (Given .table) (build L d x hdr args null)
      (fun _ s' c => Loses L d F X s' c) (fun _ => True) s := by
  unfold build
  rw [alone_bind]
  refine alone_mono (loses_loadSegments h fun w _ => hf w (Nat.zero_le w)) fun r s1 c hc => ?_
  obtain ⟨⟨X', hX, hcX, ho⟩, hf1⟩ := hc
  cases r with
  | none => exact (Loses.nothing ho trivial).then hX hcX
  | some sz =>
    have hfree : Free d (npages (pgroundup sz)) s1 := fun w hw =>
      hf1 sz rfl w (Nat.le_trans (le_npages_pgroundup sz) hw)
    exact alone_mono (loses_pushStack ho hfree) fun _ s2 c' h => h.then hX hcX

/-! ## The calls -/

variable {p : Fin NPROC}

/-- The free list as a set is as before, if it is not that `c` fails. -/
def LeaksUnless (s : St) (r : Int) (s' : St) (c : Prop) : Prop :=
  r = -1 → ((∀ f, f ∈ s'.freelist ↔ f ∈ s.freelist) ↔ c)

theorem LeaksUnless.same {r : Int} (h : s'.freelist = s.freelist) (hc : c) : LeaksUnless s r s' c :=
  fun _ =>
  iff_of_true (fun _ => by rw [h]) hc

theorem LeaksUnless.lost {r : Int} {f : Frame} (hf : f ∈ s.freelist) (hf' : f ∉ s'.freelist)
    (hc : ¬ c) : LeaksUnless s r s' c :=
  fun _ => iff_of_false (fun h => hf' ((h f).2 hf)) hc

theorem stock_start (hn : s.freelist.Nodup) (hr : ∀ f ∈ s.freelist, L.first ≤ f ∧ f < L.last) :
    Stock L { f | f ∈ s.freelist } ∅ s :=
  ⟨fun f => (or_iff_left (Set.notMem_empty f)).symm, fun f _ => Set.notMem_empty f, hn, hr⟩

theorem wp_proc : wp (proc p) (fun x s' => x = s.procs p ∧ s' = s) (fun _ => True) s := by
  unfold proc
  rw [wp_bind, wp_get]
  simp only []
  split
  · exact ⟨rfl, rfl⟩
  · trivial

theorem exec_leaks {path : List UInt8} {file : Option Image} (hn : s.freelist.Nodup)
    (hr : ∀ f ∈ s.freelist, L.first ≤ f ∧ f < L.last) :
    alone (Given .table) (exec L p path file args null) (LeaksUnless s) (fun _ => True) s := by
  unfold exec
  rw [alone_bind, alone_act (by decide)]
  refine wp_mono wp_proc fun _ s1 hs => ?_
  obtain ⟨-, rfl⟩ := hs
  cases file with
  | none => exact .same rfl ⟨trivial, trivial⟩
  | some x =>
    simp only []
    split
    · exact .same rfl ⟨trivial, trivial⟩
    · split
      · exact .same rfl ⟨trivial, trivial⟩
      · rw [alone_bind]
        refine alone_mono (alone_setupkvm (by decide) (stock_start hn hr)) fun r s2 c hc => ?_
        rcases hc with ⟨rfl, hc, rfl⟩ | ⟨d, hd, ho, hels, hnone, ⟨rfl, hc⟩ | ⟨rfl, hc⟩⟩
        · exact .same rfl ⟨trivial, hc rfl, trivial⟩
        · simp only []
          rw [alone_bind]
          refine alone_mono (loses_build ho fun w _ _ => hnone w) fun r s3 c' hc' => ?_
          obtain ⟨X', hX, hcX, ho'⟩ := hc'
          cases r with
          | none =>
            simp only []
            rw [alone_bind]
            refine alone_mono (ho'.freevm (by decide)) fun _ s4 c'' hc'' => ?_
            -- what is held is lost
            by_cases he : X' = ∅
            · refine fun _ => iff_of_true (fun f => ?_) ⟨trivial, hc rfl, hcX.2 he, hc''.1, trivial⟩
              rw [hc''.2 f, he]
              exact and_iff_left (Set.notMem_empty f)
            · obtain ⟨f, hf⟩ := Set.nonempty_iff_ne_empty.2 he
              exact .lost ((ho'.all f).2 ⟨.held, hf⟩) (fun h => ((hc''.2 f).1 h).2 hf) fun h =>
                he (hcX.1 h.2.2.1)
          | some r =>
            obtain ⟨sz, sp⟩ := r
            simp only []
            rw [alone_bind]
            refine alone_mono (alone_trivial _) fun old s4 c'' _ => ?_
            rw [alone_bind]
            exact alone_mono (alone_trivial _) fun _ s5 c5 _ h => absurd h (by decide)
        · refine .lost hd (fun h => ?_) fun h => hc rfl h.2.1
          cases ho.one .dir .free d rfl h

theorem alone_allocproc :
    alone (Given .table) allocproc
      (fun r s' c => c ∧ ((r = none ∧ s'.freelist = s.freelist) ∨ ∃ q f, r = some (q, f) ∧
        s.freelist = f :: s'.freelist)) E s := by
  unfold allocproc
  rw [alone_bind, alone_act (by decide), takeProc, wp_bind, wp_get]
  cases findUnused s with
  | none => exact ⟨⟨trivial, trivial⟩, .inl ⟨rfl, rfl⟩⟩
  | some q =>
    simp only [setProc, wp_bind, wp_modify, wp_pure, alone_bind, alone_step, newStack,
      wp_kalloc, wp_get]
    constructor
    · intro f fs _ hfs
      exact ⟨⟨trivial, fun h => (by cases h), trivial⟩, .inr ⟨q, f, rfl, hfs⟩⟩
    · intro _
      exact ⟨⟨trivial, fun h => (by cases h), trivial⟩, .inl ⟨rfl, rfl⟩⟩

theorem fork_leaks (hn : s.freelist.Nodup) (hr : ∀ f ∈ s.freelist, L.first ≤ f ∧ f < L.last)
    (hsz : (s.procs p).sz ≤ KERNBASE) :
    alone (Given .table) (fork L p) (LeaksUnless s) (fun _ => True) s := by
  unfold fork
  rw [alone_bind, alone_act (by decide)]
  refine wp_mono wp_proc fun x s1 hs => ?_
  obtain ⟨rfl, rfl⟩ := hs
  cases (s1.procs p).pgdir with
  | none =>
    refine (alone_act (by decide) _ _).2 ?_
    trivial
  | some src =>
    simp only []
    rw [alone_bind]
    refine alone_mono alone_allocproc fun r s2 c hc => ?_
    obtain ⟨hc, ⟨rfl, hsame⟩ | ⟨q, k, rfl, hfs⟩⟩ := hc
    · exact .same hsame ⟨trivial, hc, trivial⟩
    · -- the kernel stack is held while the pages are copied
      have hk : k ∈ s1.freelist := by rw [hfs]; exact List.mem_cons_self
      rw [hfs, List.nodup_cons] at hn
      have hst : Stock L { f | f ∈ s1.freelist } {k} s2 := by
        refine ⟨fun f => ?_, fun f hf he => hn.1 ((show f = k from he) ▸ hf), hn.2, hr⟩
        show f ∈ s1.freelist ↔ _
        rw [hfs, List.mem_cons, Set.mem_singleton_iff, or_comm]
      simp only []
      rw [alone_bind]
      refine alone_imp (alone_copyuvm hst hsz) (fun r s3 c' hc' => ?_) fun _ _ => trivial
      rcases hc' with ⟨d, -, rfl, -⟩ | ⟨rfl, hgave⟩
      · simp only []
        rw [alone_bind]
        refine alone_mono (alone_trivial _) fun _ s4 c'' _ => ?_
        rw [alone_bind]
        exact alone_mono (alone_trivial _) fun _ s5 c5 _ h => by omega
      · simp only [alone_bind, alone_act (by decide : Site.table ≠ .plain), wp_kfree, dropProc,
          setProc, wp_bind, wp_get, wp_modify]
        refine ⟨fun _ => ?_, fun h => absurd (hr k hk) h⟩
        rcases hgave with ⟨hc', hback⟩ | ⟨hc', f, hf, hlost⟩
        · refine fun _ => iff_of_true (fun f => ?_) ⟨trivial, hc, hc', trivial, trivial, trivial⟩
          show f ∈ k :: s3.freelist ↔ _
          rw [List.mem_cons, hback f, Set.mem_singleton_iff]
          by_cases hfk : f = k
          · exact iff_of_true (.inl hfk) (hfk ▸ hk)
          · exact ⟨fun h => (h.resolve_left hfk).1, fun h => .inr ⟨h, hfk⟩⟩
        · have hf1 : f ∈ s1.freelist := by rw [hfs]; exact List.mem_cons_of_mem _ hf
          refine .lost hf1 (fun h => ?_) fun h => hc' h.2.2.1
          rcases List.mem_cons.1 h with rfl | h
          · exact hn.1 hf
          · exact hlost h

inductive Call where
  | fork
  | exec (path : List UInt8) (file : Option Image) (args : List (List UInt8)) (null : Option Bool)

def Call.code (L : Layout) (p : Fin NPROC) : Call → Code Int
  | .fork => Uvm.fork L p
  | .exec path file args null => Uvm.exec L p path file args null

/-- **A failed call** gives back all that it took, exactly if `kalloc` had a frame each time
`walkpgdir` asked for a page table. -/
theorem failed_call_leaks_iff {call : Call} (hn : s.freelist.Nodup)
    (hr : ∀ f ∈ s.freelist, L.first ≤ f ∧ f < L.last)
    (hsz : (s.procs p).sz ≤ KERNBASE) (hrun : (call.code L p).run s = .ok (-1, s')) :
    (∀ f, f ∈ s'.freelist ↔ f ∈ s.freelist) ↔ (call.code L p).Meets (Given .table) s := by
  cases call with
  | fork => exact wp_ok (fork_leaks hn hr hsz) hrun rfl
  | exec path file args null => exact wp_ok (exec_leaks hn hr) hrun rfl

/-- Process 0 of one page, and room for others. -/
def forker (fl : List Frame) : St :=
  { onePager fl with
    procs := fun q =>
      ⟨if q = 0 then .live else .unused, none, some 1, PGSIZE, none, fun _ => none⟩ }

/-- There is a frame for the kernel stack and none for the page directory. -/
theorem fork_fails_clean : ∃ s', (Call.fork.code smallLayout 0).run (forker [4]) = .ok (-1, s') ∧
    ∀ f, f ∈ s'.freelist ↔ f ∈ (forker [4]).freelist := by
  have h : ((Call.fork.code smallLayout 0).run (forker [4])).toOption.map Prod.fst = some (-1) := by
    decide +kernel
  obtain ⟨⟨r, s'⟩, hr, rfl⟩ := ok_of_map h
  exact ⟨s', hr, (failed_call_leaks_iff (by decide) (by decide) (by decide) hr).2
    (by decide +kernel)⟩

/-- One frame more: it becomes the page directory, there is none for the first table, and nobody
frees it. -/
theorem fork_loses_directory :
    ∃ s', (Call.fork.code smallLayout 0).run (forker [4, 5]) = .ok (-1, s') ∧
    (forker [4, 5]).freelist = [4, 5] ∧ s'.freelist = [4] := by
  have h : ((Call.fork.code smallLayout 0).run (forker [4, 5])).toOption.map
      (fun r => (r.1, r.2.freelist)) = some (-1, [4]) := by
    decide +kernel
  obtain ⟨⟨r, s'⟩, hr, hp⟩ := ok_of_map h
  simp only [Prod.mk.injEq] at hp
  obtain ⟨rfl, hfl⟩ := hp
  exact ⟨s', hr, rfl, hfl⟩

end Os4.Uvm
