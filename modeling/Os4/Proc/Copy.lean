import Os4.Proc.Grow
/-!
# `setupkvm`, `freevm` and `copyuvm`

| here | there |
| --- | --- |
| `Stock` | the free list, before there is a page directory |
| `alone_setupkvm` | vm.c:128 |
| `Owns.freevm` | vm.c:278 |
| `PrivateCopy` | vm.c:307-308 |

`freevm` puts everything that the directory has on the free list; what the call holds stays away.
`copyuvm` takes new frames only, so the copy shares nothing with the original, and whatever it
writes it writes there (**`copyuvm_private_copy`**).
-/
namespace Os4.Uvm

open Vm (Frame Layout npages NPTENTRIES NPDENTRIES kernelTables)
open Prog Thread

variable {L : Layout} {s s' : St} {d : Frame} {F X : Set Frame} {l : Site} {E : Panic → Prop}

/-! ## `freevm` -/

/-- The frames `fs` have been given to `kfree`, one after the other. -/
structure Freed (fs : List Frame) (s s' : St) : Prop where
  freelist : s'.freelist = fs.reverse ++ s.freelist
  dirs : s'.dirs = s.dirs

variable {is : List Nat}

theorem alone_freeTables (hl : l ≠ .plain)
    (hr : ∀ i ∈ is, ∀ t, (s.dirs d).tables i = some t → L.first ≤ t ∧ t < L.last) :
    alone (Given l) (freeTables L d is) (fun _ s' c => c ∧
      Freed (is.filterMap (s.dirs d).tables) s s') E s := by
  induction is generalizing s with
  | nil => exact ⟨trivial, rfl, rfl⟩
  | cons i is ih =>
    unfold freeTables
    rw [alone_bind, alone_act hl, wp_dir]
    have hr' := fun j (hj : j ∈ is) => hr j (List.mem_cons_of_mem _ hj)
    cases ht : (s.dirs d).tables i with
    | none =>
      simp only [true_and, List.filterMap_cons_none ht]
      exact ih hr'
    | some t =>
      simp only [alone_bind, alone_act hl, wp_kfree, true_and, List.filterMap_cons_some ht]
      refine ⟨fun _ => ?_, fun h => absurd (hr i List.mem_cons_self t ht) h⟩
      refine alone_mono (ih hr') fun _ s' c hc => ?_
      refine ⟨hc.1, ?_, hc.2.dirs⟩
      rw [hc.2.freelist]
      simp

theorem Owns.freevm (hl : l ≠ .plain) (h : Owns L d F X s) :
    alone (Given l) (freevm L (some d)) (fun _ s' c => c ∧ ∀ f, f ∈ s'.freelist ↔
      f ∈ F ∧ f ∉ X) E s := by
  unfold Uvm.freevm
  rw [alone_bind]
  refine alone_mono (h.deallocuvm hl (show 0 < KERNBASE by decide) (Nat.le_refl KERNBASE))
    fun _ s1 c hc => ?_
  have ho := hc.2.2.1
  have hs := hc.2.2.2
  -- it starts at page 0 and comes to every page
  have hgone : ∀ v, v < USERPAGES → (s1.dirs d).page v = none := by
    intro v hv
    by_cases hm : v ∈ (s.dirs d).sweep KERNBASE 0
    · exact hs.page_of_mem hm
    · rw [hs.page_of_not_mem hm]
      have h0 : npages 0 = 0 := by decide +kernel
      have hk : npages KERNBASE = USERPAGES := by decide +kernel
      cases hp : (s.dirs d).page v with
      | none => rfl
      | some e => exact absurd (mem_sweep_of_page (fun w hw => by omega) ⟨by omega, by omega⟩ hp) hm
  have hmem : ∀ i, i ∈ List.range NPDENTRIES ↔ i < NPDENTRIES := fun i => List.mem_range
  generalize List.range NPDENTRIES = is at hmem ⊢
  have hrange : ∀ i ∈ is, ∀ t, (s1.dirs d).tables i = some t → L.first ≤ t ∧ t < L.last :=
    fun i hi t ht => ho.range t ((ho.all t).2 ⟨.table i, (hmem i).1 hi, ht⟩)
  rw [alone_bind]
  refine alone_mono (alone_freeTables hl hrange) fun _ s2 c' hc' => ?_
  have hfl := hc'.2.freelist
  rw [alone_act hl, wp_kfree]
  refine ⟨fun _ => ⟨⟨hc.1, hc'.1, trivial⟩, fun f => ?_⟩,
    fun hn => absurd (ho.range d ((ho.all d).2 ⟨.dir, rfl⟩)) hn⟩
  have hfree : f ∈ (s2.free d).freelist ↔ At d X s1 .dir f ∨ (∃ i, At d X s1 (.table i) f) ∨
      At d X s1 .free f := by
    simp only [free_freelist, hfl, List.mem_cons, List.mem_append, List.mem_reverse,
      List.mem_filterMap, hmem, At]
  rw [hfree]
  constructor
  · rintro (hf | ⟨i, hf⟩ | hf)
    · exact ⟨(ho.all f).2 ⟨_, hf⟩, fun hX => by cases ho.one .dir .held f hf hX⟩
    · exact ⟨(ho.all f).2 ⟨_, hf⟩, fun hX => by cases ho.one (.table i) .held f hf hX⟩
    · exact ⟨(ho.all f).2 ⟨_, hf⟩, fun hX => by cases ho.one .free .held f hf hX⟩
  · rintro ⟨hF, hX⟩
    obtain ⟨r, hr⟩ := (ho.all f).1 hF
    cases r with
    | free => exact .inr (.inr hr)
    | dir => exact .inl hr
    | table i => exact .inr (.inl ⟨i, hr⟩)
    | held => exact absurd hr hX
    | page v =>
      obtain ⟨hv, e, he, -⟩ := hr
      rw [hgone v hv] at he
      cases he

/-! ## `setupkvm` -/

/-- The frames `F` are on the free list or held. -/
structure Stock (L : Layout) (F X : Set Frame) (s : St) : Prop where
  all : ∀ f, f ∈ F ↔ f ∈ s.freelist ∨ f ∈ X
  apart : ∀ f ∈ s.freelist, f ∉ X
  nodup : s.freelist.Nodup
  range : ∀ f ∈ F, L.first ≤ f ∧ f < L.last

theorem alone_mapKernel (hl : l ≠ .plain) (hi : ∀ i ∈ is, i < NPDENTRIES) (h : Owns L d F X s) :
    alone (Given l) (mapKernel d is)
      (fun b s' c => Owns L d F X s' ∧ Extends d s s' ∧
        (∀ v, (s'.dirs d).page v = (s.dirs d).page v) ∧
        ((b = true ∧ c) ∨ (b = false ∧ (c ↔ l ≠ .table)))) E s := by
  induction is generalizing s with
  | nil => exact ⟨h, .refl d s, fun _ => rfl, .inl ⟨rfl, trivial⟩⟩
  | cons i is ih =>
    unfold mapKernel
    rw [alone_bind]
    have hdiv : i * NPTENTRIES / NPTENTRIES < NPDENTRIES := by
      rw [Nat.mul_div_cancel i (by decide)]
      exact hi i List.mem_cons_self
    refine alone_mono (alone_walkpgdir hl h hdiv) fun b s1 c hc => ?_
    rcases hc with ⟨rfl, hc, ho, hext, -, hpage, -⟩ | ⟨rfl, hc, rfl⟩
    · rw [if_pos rfl]
      refine alone_mono (ih (fun j hj => hi j (List.mem_cons_of_mem _ hj)) ho) fun b s2 c' hc' => ?_
      obtain ⟨ho', hext', hpage', hb⟩ := hc'
      refine ⟨ho', hext.trans hext', fun v => (hpage' v).trans (hpage v), ?_⟩
      rcases hb with ⟨rfl, hc'⟩ | ⟨rfl, hc'⟩
      · exact .inl ⟨rfl, hc, hc'⟩
      · exact .inr ⟨rfl, (and_iff_right hc).trans hc'⟩
    · rw [if_neg Bool.false_ne_true]
      exact ⟨h.congr rfl rfl, .missed d s, fun _ => rfl,
        .inr ⟨rfl, (and_iff_left trivial).trans hc⟩⟩

/-- A new directory in a frame `d` that was free. When a table is missing, `setupkvm` returns 0 and
`d` is lost. -/
theorem alone_setupkvm (hl : l ≠ .plain) (h : Stock L F X s) :
    alone (Given l) setupkvm
      (fun r s' c => (r = none ∧ (l = .table → c) ∧ s' = s.missed) ∨
        ∃ d ∈ s.freelist, Owns L d F X s' ∧ Elsewhere d s s' ∧ (∀ v, (s'.dirs d).page v = none) ∧
          ((r = some d ∧ (l = .table → c)) ∨ (r = none ∧ (l = .table → ¬ c)))) E s := by
  unfold setupkvm
  rw [alone_bind, alone_step]
  unfold newDir
  rw [wp_bind, wp_kalloc]
  constructor
  · intro d fs hgive hfs
    have hd : d ∈ s.freelist := by rw [hfs]; exact List.mem_cons_self
    have hn := h.nodup
    rw [hfs, List.nodup_cons] at hn
    have hown : Owns L d F X ((s.took fs).withDir d .empty) := by
      refine .new (by simp) hn.2 (fun f => ?_) (fun f hf => ⟨?_, ?_⟩) (h.apart d hd) h.range
      · rw [h.all f, hfs, List.mem_cons]
        exact ⟨fun h => by tauto, fun h => by tauto⟩
      · exact h.apart f (by rw [hfs]; exact List.mem_cons_of_mem _ hf)
      · exact fun he => hn.1 (he ▸ hf)
    have hels : Elsewhere d s ((s.took fs).withDir d .empty) :=
      ⟨fun d' hd' => withDir_dirs_ne _ _ _ hd', by rw [hfs]; exact List.suffix_cons d fs,
        fun _ _ => rfl, rfl, rfl, rfl⟩
    simp only [setDir, wp_bind, wp_modify, wp_pure, alone_bind]
    refine alone_mono (alone_mapKernel hl (by decide) hown) fun b s1 c hc => ?_
    obtain ⟨ho, hext, hpage, hb⟩ := hc
    have hnone : ∀ v, (s1.dirs d).page v = none := fun v => by
      rw [hpage v, withDir_dirs_same]
      rfl
    rcases hb with ⟨rfl, hc⟩ | ⟨rfl, hc⟩
    · rw [if_pos rfl]
      exact .inr ⟨d, hd, ho, hels.trans hext.toElsewhere, hnone,
        .inl ⟨rfl, fun _ => ⟨fun _ => hgive, hc, trivial⟩⟩⟩
    · rw [if_neg Bool.false_ne_true]
      exact .inr ⟨d, hd, ho, hels.trans hext.toElsewhere, hnone,
        .inr ⟨rfl, fun ht hc' => hc.1 hc'.2.1 ht⟩⟩
  · intro hno
    refine .inl ⟨rfl, ?_, rfl⟩
    rintro rfl
    exact ⟨fun h => (by cases h), trivial⟩

/-! ## `copyuvm` -/

/-- The first `n` pages of `src` are there, and neither they nor `src` are on the free list. -/
structure Readable (src : Frame) (n : Nat) (s : St) : Prop where
  dir : src ∉ s.freelist
  page : ∀ v, v < n → ∃ e, (s.dirs src).page v = some e ∧ e.frame ∉ s.freelist

/-- The first `v` pages of `d` are copies, in frames that were free. -/
def Copied (src d : Frame) (s0 s : St) (v : Nat) : Prop :=
  ∀ w, w < v → ∃ e f, (s0.dirs src).page w = some e ∧
    (s.dirs d).page w = some { e with frame := f } ∧ f ∈ s0.freelist ∧ s.data f = s0.data e.frame

variable {s0 : St} {src : Frame}

theorem Copied.put {v : Nat} {e : Pte} {f : Frame} {fs : List Frame} (h : Copied src d s0 s v)
    (ho : Owns L d F X s) (hv : v ≤ USERPAGES)
    (hfs : s.freelist = f :: fs) (hf0 : f ∈ s0.freelist) (hsrc : (s0.dirs src).page v = some e)
    (he : s.data e.frame = s0.data e.frame)
    (hput : Put d v { e with frame := f } ((s.took fs).withData f (s.data e.frame)) s') :
    Copied src d s0 s' (v + 1) := by
  have hf : f ∈ s.freelist := by rw [hfs]; exact List.mem_cons_self
  intro w hw
  by_cases hwv : w = v
  · subst hwv
    refine ⟨e, f, hsrc, hput.page, hf0, ?_⟩
    rw [hput.data, ← he]
    exact Function.update_self ..
  · obtain ⟨e', f', h1, h2, h3, h4⟩ := h w (by omega)
    refine ⟨e', f', h1, (hput.rest w hwv).trans h2, h3, ?_⟩
    have hne : f' ≠ f := by
      rintro rfl
      cases ho.one (.page w) .free f' ⟨by omega, _, h2, rfl⟩ hf
    rw [hput.data, ← h4]
    exact Function.update_of_ne hne _ _

theorem alone_copyLoop (hl : l ≠ .plain) {v n : Nat} (hd : d ∈ s0.freelist) (ho : Owns L d F X s)
    (hels : Elsewhere d s0 s)
    (hrest : ∀ w, v ≤ w → (s.dirs d).page w = none) (hn : v + n ≤ USERPAGES)
    (hcop : Readable src (v + n) s0 → Copied src d s0 s v) :
    alone (Given l) (copyLoop L d src (List.range' v n))
      (fun r s' c =>
        (r = some d ∧ (l = .table → c) ∧ Owns L d F X s' ∧ Elsewhere d s0 s' ∧
          (∀ w, v + n ≤ w → (s'.dirs d).page w = none) ∧
          (Readable src (v + n) s0 → Copied src d s0 s' (v + n))) ∨
        (r = none ∧ ∃ X', X ⊆ X' ∧ (∀ f ∈ X', f ∈ X ∨ f ∈ s0.freelist) ∧
          (l = .table → (c ↔ X' = X)) ∧ ∀ f, f ∈ s'.freelist ↔ f ∈ F ∧ f ∉ X'))
      (fun _ => ¬ Readable src (v + n) s0) s := by
  induction n generalizing v s with
  | zero => exact .inl ⟨rfl, fun _ => trivial, ho, hels, hrest, hcop⟩
  | succ n ih =>
    have hsrc : Readable src (v + (n + 1)) s0 → ∃ e, (s.dirs src).has (v / NPTENTRIES) ∧
      (s.dirs src).ptes v = some e ∧
        (s0.dirs src).page v = some e ∧ s.data e.frame = s0.data e.frame := by
      intro hr
      obtain ⟨e, he, hf⟩ := hr.page v (by omega)
      have hp := he
      rw [← hels.others src fun h => hr.dir (h ▸ hd)] at hp
      exact ⟨e, (page_eq_some.1 hp).1, (page_eq_some.1 hp).2, he, hels.data _ hf⟩
    rw [List.range'_succ]
    unfold copyLoop
    rw [alone_bind, alone_look hl]
    cases hhas : ((s.dirs src).tables (v / NPTENTRIES)).isSome with
    | false =>
      rw [if_neg Bool.false_ne_true, alone_act hl]
      intro hr
      obtain ⟨e, h, -⟩ := hsrc hr
      rw [Pgdir.has, hhas] at h
      cases h
    | true =>
      rw [if_pos rfl, alone_bind, alone_act hl, wp_pte]
      cases hp : (s.dirs src).ptes v with
      | none =>
        refine (alone_act hl _ _).2 fun hr => ?_
        obtain ⟨e, -, h, -⟩ := hsrc hr
        rw [hp] at h
        cases h
      | some e =>
        simp only []
        rw [alone_bind, alone_step, wp_kalloc]
        constructor
        · intro f fs hgive hfs
          have hf : f ∈ s.freelist := by rw [hfs]; exact List.mem_cons_self
          have hfX := ho.not_held hf
          have hown : Owns L d F (insert f X) ((s.took fs).withData f (s.data e.frame)) :=
            (ho.take hfs).congr rfl rfl
          have hext : Extends d s ((s.took fs).withData f (s.data e.frame)) := .filled hfs _
          simp only [alone_bind, alone_act hl, copyPage, wp_modify, took_data]
          refine alone_mono (alone_mappages hl hown (e := { e with frame := f })
            (Set.mem_insert f X)
            (by omega) (hrest v (Nat.le_refl v))) fun b s1 c hc => ?_
          rcases hc with ⟨rfl, hc, ho', hput⟩ | ⟨rfl, hc, rfl⟩
          · rw [Set.insert_sdiff_self_of_notMem hfX] at ho'
            rw [if_pos rfl]
            have hels' : Elsewhere d s0 s1 :=
              (hels.trans hext.toElsewhere).trans hput.extends_.toElsewhere
            have hrest' : ∀ w, v + 1 ≤ w → (s1.dirs d).page w = none := fun w hw =>
              (hput.rest w (by omega)).trans (hrest w (by omega))
            rw [show v + (n + 1) = v + 1 + n by omega] at hcop hsrc ⊢
            refine alone_mono (ih ho' hels' hrest' (by omega) fun hr => ?_) fun r s2 c' hc' => ?_
            · obtain ⟨e', -, h1, h2, h3⟩ := hsrc hr
              rw [hp] at h1
              cases h1
              exact (hcop hr).put ho (by omega) hfs (hels.free.subset hf) h2 h3 hput
            · rcases hc' with ⟨hr, h1, h2⟩ | ⟨hr, X', h1, h2, h3, h4⟩
              · exact .inl ⟨hr, fun h => by subst h; simpa [Given, hc] using h1 rfl, h2⟩
              · exact .inr ⟨hr, X', h1, h2, fun h => by subst h; simpa [Given, hc] using h3 rfl, h4⟩
          · rw [if_neg Bool.false_ne_true, alone_bind]
            have hown' : Owns L d F (insert f X) ((s.took fs).withData f (s.data e.frame)).missed :=
              hown.congr rfl rfl
            refine alone_mono (hown'.freevm hl) fun _ s2 c' hc' => ?_
            refine .inr ⟨rfl, insert f X, Set.subset_insert f X, fun g hg => ?_, fun h => ?_, hc'.2⟩
            · rcases Set.mem_insert_iff.1 hg with rfl | hg
              · exact .inr (hels.free.subset hf)
              · exact .inl hg
            · have hne : insert f X ≠ X := fun h => hfX (h ▸ Set.mem_insert f X)
              simp [hc, h, hne]
        · intro hno
          rw [alone_bind]
          have hown : Owns L d F X s.missed := ho.congr rfl rfl
          refine alone_mono (hown.freevm hl) fun _ s1 c hc => ?_
          refine .inr ⟨rfl, X, subset_rfl, fun g hg => .inl hg, fun h => ?_, hc.2⟩
          subst h
          exact iff_of_true ⟨trivial, trivial, fun h => (by cases h), hc.1, trivial⟩ rfl

/-- A call that started in `s` with the frames `F`, of which it holds `X`, has given the others
back; or, if not `c`, has lost one. -/
def GaveBack (F X : Set Frame) (s s' : St) (c : Prop) : Prop :=
  (c ∧ ∀ f, f ∈ s'.freelist ↔ f ∈ F ∧ f ∉ X) ∨ (¬ c ∧ ∃ f ∈ s.freelist, f ∉ s'.freelist)

theorem GaveBack.of_held {X' : Set Frame} {c : Prop} (hX : X ⊆ X')
    (hheld : ∀ f ∈ X', f ∈ X ∨ f ∈ s.freelist) (hc : c ↔ X' = X)
    (hf : ∀ f, f ∈ s'.freelist ↔ f ∈ F ∧ f ∉ X') : GaveBack F X s s' c := by
  by_cases he : X' = X
  · exact .inl ⟨hc.2 he, he ▸ hf⟩
  · obtain ⟨f, hf', hfX⟩ := Set.exists_of_ssubset (LE.le.ssubset_of_ne hX (Ne.symm he))
    exact .inr ⟨fun h => he (hc.1 h), f, (hheld f hf').resolve_left hfX,
      fun h => ((hf f).1 h).2 hf'⟩

/-- A directory, or none: then all frames are back unless there was none for a page table. -/
theorem alone_copyuvm {sz : Nat} (h : Stock L F X s) (hk : sz ≤ KERNBASE) :
    alone (Given .table) (copyuvm L src sz)
      (fun r s' c =>
        (∃ d ∈ s.freelist, r = some d ∧ Owns L d F X s' ∧ Elsewhere d s s' ∧
          (∀ w, npages sz ≤ w → (s'.dirs d).page w = none) ∧
          (Readable src (npages sz) s → Copied src d s s' (npages sz))) ∨
        (r = none ∧ GaveBack F X s s' c))
      (fun _ => ¬ Readable src (npages sz) s) s := by
  unfold copyuvm
  rw [alone_bind]
  refine alone_mono (alone_setupkvm (by decide) h) fun r s1 c hc => ?_
  rcases hc with ⟨rfl, hc, rfl⟩ | ⟨d, hd, ho, hels, hnone, ⟨rfl, hc⟩ | ⟨rfl, hc⟩⟩
  · refine .inr ⟨rfl, .inl ⟨⟨hc rfl, trivial⟩, fun f => ?_⟩⟩
    rw [h.all f]
    constructor
    · exact fun hf => ⟨.inl hf, h.apart f hf⟩
    · exact fun hf => hf.1.resolve_right hf.2
  · rw [List.range_eq_range']
    have hn : 0 + npages sz ≤ USERPAGES := by
      rw [Nat.zero_add]
      exact Vm.npages_le hk
    refine alone_imp (alone_copyLoop (by decide) hd ho hels (fun w _ => hnone w) hn fun _ w hw =>
      absurd hw (Nat.not_lt_zero w))
      (fun r s2 c' hc' => ?_) fun _ he => by rwa [Nat.zero_add] at he
    simp only [Nat.zero_add] at hc'
    rcases hc' with ⟨rfl, -, h1, h2, h3, h4⟩ | ⟨rfl, X', h1, h2, h3, h4⟩
    · exact .inl ⟨d, hd, rfl, h1, h2, h3, h4⟩
    · exact .inr ⟨rfl, .of_held h1 (fun f hf => h2 f hf)
        ((and_iff_right (hc rfl)).trans (h3 trivial)) h4⟩
  · refine .inr ⟨rfl, .inr ⟨fun hcc => hc rfl hcc.1, d, hd, fun hf => ?_⟩⟩
    cases ho.one .dir .free d rfl hf

/-- vm.c:307-308: `d` maps the pages below `sz` as `src` does, to copies in frames of its own, and
nothing else; `src` is as before. -/
structure PrivateCopy (src d : Frame) (sz : Nat) (s s' : St) : Prop where
  page : ∀ v, v < npages sz → ∃ e f, (s.dirs src).page v = some e ∧ (s'.dirs d).page v =
    some { e with frame := f } ∧ s'.data f = s.data e.frame
  distinct : (s'.dirs d).Distinct
  own : ∀ v w e e', v < USERPAGES → w < USERPAGES → (s'.dirs d).page v = some e →
    (s.dirs src).page w = some e' → e.frame ≠ e'.frame
  nothing : ∀ v, npages sz ≤ v → v < USERPAGES → (s'.dirs d).page v = none
  source : s'.dirs src = s.dirs src
  contents : ∀ v e, v < USERPAGES → (s.dirs src).page v = some e → s'.data e.frame = s.data e.frame

/-- **A private copy**: `copyuvm` does not panic, and the directory that it returns is one. -/
theorem copyuvm_private_copy {sz : Nat} (ho : Owned L src s) (hsz : sz < KERNBASE)
    (hp : ∀ v, v < npages sz → (s.dirs src).page v ≠ none) :
    ∃ r s', (copyuvm L src sz).run s = .ok (r, s') ∧
      ∀ d, r = some d → PrivateCopy src d sz s s' := by
  have hsrc : src ∉ s.freelist := fun h => by cases ho.one .dir .free src rfl h
  have hfree : ∀ v e, v < USERPAGES → (s.dirs src).page v = some e → e.frame ∉ s.freelist :=
    fun v e hv he hf => by
    cases ho.one (.page v) .free e.frame ⟨hv, e, he, rfl⟩ hf
  have hst : Stock L { f | f ∈ s.freelist } ∅ s :=
    ⟨fun f => (or_iff_left (Set.notMem_empty f)).symm, fun f _ => Set.notMem_empty f, ho.nodup,
      fun f hf => ho.range f ⟨.free, hf⟩⟩
  have hread : Readable src (npages sz) s := by
    refine ⟨hsrc, fun v hv => ?_⟩
    obtain ⟨e, he⟩ := Option.ne_none_iff_exists'.1 (hp v hv)
    exact ⟨e, he, hfree v e (Nat.lt_of_lt_of_le hv (Vm.npages_le hsz.le)) he⟩
  obtain ⟨r, s', hr, hres⟩ := wp_total.1
    (wp_imp (m := (copyuvm L src sz).run) (alone_copyuvm hst hsz.le) (fun _ _ h => h)
      fun _ he => he hread)
  refine ⟨r, s', hr, fun d hd => ?_⟩
  rcases hres with ⟨d', hd', rfl, how, hels, hnone, hcop⟩ | ⟨rfl, -⟩
  · cases hd
    have hcop := hcop hread
    constructor
    case page =>
      intro v hv
      obtain ⟨e, f, h1, h2, -, h4⟩ := hcop v hv
      exact ⟨e, f, h1, h2, h4⟩
    case distinct => exact how.distinct
    case own =>
      -- the frames of `d` were free, those of `src` were not
      intro v w e e' hv hw he he' hf
      by_cases hvn : v < npages sz
      · obtain ⟨e0, f, -, h2, h3, -⟩ := hcop v hvn
        rw [h2] at he
        cases he
        exact hfree w e' hw he' (hf ▸ h3)
      · rw [hnone v (by omega)] at he
        cases he
    case nothing => exact fun v hv _ => hnone v hv
    case source => exact hels.others src fun h => hsrc (h ▸ hd')
    case contents => exact fun v e hv he => hels.data _ (hfree v e hv he)
  · cases hd

/-- Frames 1 to 127. -/
def layout : Layout := ⟨1, 128, Nat.one_pos⟩

/-- The copy of a process of one page. -/
theorem copyuvm_one_page :
    ∃ s', (copyuvm layout 1 PGSIZE).run (onePager (List.range' 4 100)) = .ok (some 4, s') ∧
      PrivateCopy 1 4 PGSIZE (onePager (List.range' 4 100)) s' := by
  have hrun : ((copyuvm layout 1 PGSIZE).run (onePager (List.range' 4 100))).toOption.map Prod.fst =
      some (some 4) := by
    decide +kernel
  have ho : Owned layout 1 (onePager (List.range' 4 100)) :=
    owned_onePager (by decide +kernel) (by decide +kernel)
  obtain ⟨r, s', hr, h⟩ := copyuvm_private_copy ho (show PGSIZE < KERNBASE by decide)
    ((mapped_onePager (List.range' 4 100)).below (by decide +kernel))
  rw [hr] at hrun
  cases hrun
  exact ⟨s', hr, h 4 rfl⟩

end Os4.Uvm
