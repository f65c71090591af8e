import Os4.Proc.Places
/-!
# `allocuvm` and `growproc`

| here | there |
| --- | --- |
| `Grown` | the new pages, after some turns of the loop of vm.c:230-241 |
| `Undone` | when the loop has given up, vm.c:232-236 |
| `AllOrNothing` | vm.c:216-217 |
| `Exact` | proc.c:103-105 |

`allocuvm` does not look at what `mappages` returns, so when `kalloc` has no frame for a page table
the page stays unmapped and its frame is held for ever. This is the only way to lose a frame, and
the only way to return with a page missing (**`allocuvm_all_or_nothing_iff`**). For `growproc` that
matters only if the call then succeeds; but a size of 0 is taken for an error, and a size below 0
wraps around (**`growproc_exact_iff`**).
-/
namespace Os4.Uvm

open Vm (Frame Layout npages NPTENTRIES NPDENTRIES)
open Prog Thread

variable {L : Layout} {s s' : St} {d : Frame}

variable {v : Nat} {S : Pgdir}

section

variable {l : Site} {F X : Set Frame} {E : Panic → Prop}

/-! ## The loop of `allocuvm` -/

/-- The pages from `lo` up to `v` are new, but for those whose frames are held: the call came with
`X0` and holds `X` now. -/
structure Grown (L : Layout) (d : Frame) (F X0 X : Set Frame) (s0 s : St) (lo v : Nat) : Prop where
  owns : Owns L d F X s
  more : Extends d s0 s
  rest : ∀ w, w < lo ∨ v ≤ w → (s.dirs d).page w = (s0.dirs d).page w
  new : ∀ w, lo ≤ w → w < v → (s.dirs d).page w = none ∨
    ∃ f ∈ s0.freelist, (s.dirs d).page w = some ⟨f, true, true⟩ ∧ s.data f = .zero
  base : X0 ⊆ X
  held : ∀ f ∈ X, f ∈ X0 ∨ f ∈ s0.freelist
  missing : X ≠ X0 → ∃ w, lo ≤ w ∧ w < v ∧ (s.dirs d).page w = none
  complete : X = X0 → ∀ w, lo ≤ w → w < v → (s.dirs d).page w ≠ none

theorem Grown.start (h : Owns L d F X s0) (lo : Nat) : Grown L d F X X s0 s0 lo lo :=
  ⟨h, .refl d s0, fun _ _ => rfl, fun _ _ _ => by omega, subset_rfl, fun _ => .inl,
    fun hX => absurd rfl hX, fun _ _ _ _ => by omega⟩

/-- The call has given up; if there were no gaps below `lo`, the pages are as they were. -/
structure Undone (L : Layout) (d : Frame) (F X0 X : Set Frame) (s0 s : St) (lo : Nat) : Prop where
  owns : Owns L d F X s
  tables : ∀ i, (s0.dirs d).has i → (s.dirs d).tables i = (s0.dirs d).tables i
  others : ∀ d', d' ≠ d → s.dirs d' = s0.dirs d'
  pages : (∀ w, w < lo → (s0.dirs d).page w ≠ none) → ∀ w, (s.dirs d).page w = (s0.dirs d).page w
  data : ∀ f, f ∉ s0.freelist → s.data f = s0.data f
  held : ∀ f ∈ X, f ∈ X0 ∨ f ∈ s0.freelist
  procs : s.procs = s0.procs
  tasks : s.tasks = s0.tasks
  ftable : s.ftable = s0.ftable

/-- A present page below `KERNBASE` has a frame that `kfree` takes. -/
theorem Owns.takes {vs : List Nat} (h : Owns L d F X s)
    (hv : ∀ v ∈ vs, v < USERPAGES ∧ (s.dirs d).has (v / NPTENTRIES)) :
    Takes L (s.dirs d) vs := fun v hm e he =>
  h.range e.frame ((h.all _).2 ⟨.page v, (hv v hm).1, e, page_eq_some.2 ⟨(hv v hm).2, he⟩, rfl⟩)

/-- `deallocuvm` up to `KERNBASE` does not panic. -/
theorem Owns.deallocuvm (hl : l ≠ .plain) (h : Owns L d F X s) (hlt : newsz < oldsz)
    (hk : oldsz ≤ KERNBASE) :
    alone (Given l) (deallocuvm L d oldsz newsz)
      (fun r s' c => c ∧ r = newsz ∧ Owns L d F X s' ∧
        Swept d ((s.dirs d).sweep oldsz newsz) s s') E s := by
  have hv : ∀ v ∈ (s.dirs d).sweep oldsz newsz, v < USERPAGES ∧ (s.dirs d).has (v / NPTENTRIES) :=
    fun v hm =>
    ⟨Nat.lt_of_lt_of_le (mem_pgdir_sweep.1 hm).1.2 (Vm.npages_le hk), (mem_pgdir_sweep.1 hm).2.1⟩
  refine alone_imp (alone_deallocuvm hl hlt) (fun r s' c hc => ?_) fun _ he =>
    absurd (h.takes hv) he
  obtain ⟨hc, hr, -, hs⟩ := hc
  exact ⟨hc, hr, h.swept hs nodup_sweep hv, hs⟩

/-- Where there are no gaps before the range, the loop of `deallocuvm` comes to every page in it. -/
theorem mem_sweep_of_page {e : Pte} (hbelow : ∀ w, w < npages newsz → S.page w ≠ none)
    (hv : InRange newsz oldsz v) (he : S.page v = some e) : v ∈ S.sweep oldsz newsz := by
  have hhas := (page_eq_some.1 he).1
  refine mem_pgdir_sweep.2 ⟨hv, hhas, ?_⟩
  by_cases hb : npages newsz % NPTENTRIES = 0
  · refine ⟨v / NPTENTRIES - npages newsz / NPTENTRIES, ?_, ?_⟩
    · have := hv.1
      simp only [NPTENTRIES] at *
      omega
    · rw [Nat.add_sub_cancel' (Nat.div_le_div_right hv.1)]
      exact hhas
  · -- the page before has a table, and it is the same one
    refine ⟨0, by simpa using hv.1, ?_⟩
    obtain ⟨e', he'⟩ := Option.ne_none_iff_exists'.1
      (hbelow (npages newsz - 1) (by simp only [NPTENTRIES] at hb; omega))
    have := (page_eq_some.1 he').1
    rwa [show (npages newsz - 1) / NPTENTRIES = npages newsz / NPTENTRIES +
      0 by simp only [NPTENTRIES] at *; omega] at this

variable {X0 : Set Frame} {s0 : St}

theorem Grown.undo (hg : Grown L d F X0 X s0 s (npages oldsz) v)
    (hk : newsz ≤ KERNBASE) (hv : v < npages newsz)
    (habove : ∀ w, npages oldsz ≤ w → w < USERPAGES → (s0.dirs d).page w = none)
    (ho : Owns L d F X s')
    (hs : Swept d ((s.dirs d).sweep newsz oldsz) s.missed s') :
    Undone L d F X0 X s0 s' (npages oldsz) := by
  have hmem : ∀ w ∈ (s.dirs d).sweep newsz oldsz, ∀ e, (s.dirs d).ptes w = some e →
      InRange oldsz newsz w ∧ (s.dirs d).page w = some e := fun w hw e he =>
    ⟨(mem_pgdir_sweep.1 hw).1, page_eq_some.2 ⟨(mem_pgdir_sweep.1 hw).2.1, he⟩⟩
  have hin : ∀ w, InRange oldsz newsz w → (s0.dirs d).page w = none := fun w hw =>
    habove w hw.1 (Nat.lt_of_lt_of_le hw.2 (Vm.npages_le hk))
  constructor
  case owns => exact ho
  case tables =>
    intro i hi
    rw [hs.tables]
    exact hg.more.tables i hi
  case others => exact fun d' hd => (hs.others d' hd).trans (hg.more.others d' hd)
  case pages =>
    intro hbelow w
    by_cases hw : InRange oldsz newsz w
    · rw [hin w hw]
      by_cases hm : w ∈ (s.dirs d).sweep newsz oldsz
      · exact hs.page_of_mem hm
      · rw [hs.page_of_not_mem hm]
        cases hp : (s.missed.dirs d).page w with
        | none => rfl
        | some e =>
          have hb : ∀ w, w < npages oldsz → (s.dirs d).page w ≠ none := fun w hw => by
            rw [hg.rest w (.inl hw)]
            exact hbelow w hw
          exact absurd (mem_sweep_of_page hb hw hp) hm
    · rw [hs.page_of_not_mem fun hm => hw (mem_pgdir_sweep.1 hm).1]
      refine hg.rest w ?_
      unfold InRange at hw
      omega
  case data =>
    intro f hf
    rw [hs.data f fun hm => ?_]
    · exact hg.more.data f hf
    -- the frames that were freed are those of new pages
    obtain ⟨w, hw, e, he, rfl⟩ := mem_frames.1 hm
    obtain ⟨hr, hp⟩ := hmem w hw e he
    by_cases hwv : w < v
    · rcases hg.new w hr.1 hwv with hn | ⟨f', hf', hn, -⟩
      · rw [hn] at hp; cases hp
      · rw [hn] at hp; cases hp; exact hf hf'
    · have := hg.rest w (.inr (by omega))
      rw [hin w hr, hp] at this
      cases this
  case held => exact hg.held
  case procs => exact hs.procs.trans hg.more.procs
  case tasks => exact hs.tasks.trans hg.more.tasks
  case ftable => exact hs.ftable.trans hg.more.ftable

theorem Grown.put {lo : Nat} {f : Frame} (hg : Grown L d F X0 X s0 s lo v) (hlo : lo ≤ v)
    (hf : f ∈ s.freelist) (h1 : Extends d s s')
    (ho : Owns L d F X s') (hp : (s'.dirs d).page v = some ⟨f, true, true⟩)
    (hr : ∀ w, w ≠ v → (s'.dirs d).page w = (s.dirs d).page w) (hz : s'.data f = .zero)
    (hd : ∀ f', f' ≠ f → s'.data f' = s.data f') : Grown L d F X0 X s0 s' lo (v + 1) := by
  constructor
  case owns => exact ho
  case more => exact hg.more.trans h1
  case rest => exact fun w hw => (hr w (by omega)).trans (hg.rest w (by omega))
  case new =>
    intro w hw hwv
    by_cases hwe : w = v
    · subst hwe
      exact .inr ⟨f, hg.more.free.subset hf, hp, hz⟩
    · rw [hr w hwe]
      rcases hg.new w hw (by omega) with hn | ⟨f', hf', hn, hz'⟩
      · exact .inl hn
      · refine .inr ⟨f', hf', hn, ?_⟩
        by_cases hff : f' = f
        · rw [hff, hz]
        · rw [hd f' hff, hz']
  case base => exact hg.base
  case held => exact hg.held
  case missing =>
    intro hX
    obtain ⟨w, h1, h2, h3⟩ := hg.missing hX
    exact ⟨w, h1, by omega, by rw [hr w (by omega)]; exact h3⟩
  case complete =>
    intro hX w hw hwv
    by_cases hwe : w = v
    · subst hwe
      rw [hp]
      exact Option.some_ne_none _
    · rw [hr w hwe]
      exact hg.complete hX w hw (by omega)

theorem Grown.lose {lo : Nat} {f : Frame} (hg : Grown L d F X0 X s0 s lo v) (hlo : lo ≤ v)
    (hv : v < USERPAGES) (hf : f ∈ s.freelist) (h1 : Extends d s s')
    (ho : Owns L d F (insert f X) s') (hp : (s.dirs d).page v = none) (hr : s'.dirs d = s.dirs d)
    (hd : ∀ f', f' ≠ f → s'.data f' = s.data f') :
    Grown L d F X0 (insert f X) s0 s' lo (v + 1) := by
  constructor
  case owns => exact ho
  case more => exact hg.more.trans h1
  case rest =>
    intro w hw
    rw [hr]
    exact hg.rest w (by omega)
  case new =>
    intro w hw hwv
    rw [hr]
    by_cases hwe : w = v
    · exact .inl (hwe ▸ hp)
    · rcases hg.new w hw (by omega) with hn | ⟨f', hf', hn, hz'⟩
      · exact .inl hn
      · refine .inr ⟨f', hf', hn, ?_⟩
        have hne : f' ≠ f := by
          rintro rfl
          -- `f` is on the free list, not a page
          cases hg.owns.one (.page w) .free f' ⟨by omega, _, hn, rfl⟩ hf
        rw [hd f' hne, hz']
  case base => exact hg.base.trans (Set.subset_insert f X)
  case held =>
    intro g hgm
    rcases Set.mem_insert_iff.1 hgm with rfl | hgm
    · exact .inr (hg.more.free.subset hf)
    · exact hg.held g hgm
  case missing => exact fun _ => ⟨v, hlo, by omega, by rw [hr]; exact hp⟩
  case complete => exact fun hX => absurd (hX ▸ Set.mem_insert f X) fun hm =>
    hg.owns.not_held hf (hg.base hm)

theorem alone_allocLoop (hl : l ≠ .plain) {n : Nat} (hg : Grown L d F X0 X s0 s (npages oldsz) v)
    (hlo : npages oldsz ≤ v) (hn : v + n = npages newsz) (hk : newsz ≤ KERNBASE)
    (habove : ∀ w, npages oldsz ≤ w → w < USERPAGES → (s0.dirs d).page w = none) :
    alone (Given l) (allocLoop L d oldsz newsz (List.range' v n))
      (fun r s' c => ∃ X', X ⊆ X' ∧ (l = .table → (c ↔ X' = X)) ∧
        ((r = newsz ∧ (l = .page → c) ∧ Grown L d F X0 X' s0 s' (npages oldsz) (npages newsz)) ∨
          (r = 0 ∧ (l = .page → ¬ c) ∧ Undone L d F X0 X' s0 s' (npages oldsz)))) E s := by
  induction n generalizing v s X with
  | zero =>
    rw [Nat.add_zero] at hn
    exact ⟨X, subset_rfl, fun _ => ⟨fun _ => rfl, fun _ => trivial⟩,
      .inl ⟨rfl, fun _ => trivial, hn ▸ hg⟩⟩
  | succ n ih =>
    have hlast := Vm.npages_le hk
    have hv : v < USERPAGES := Nat.lt_of_lt_of_le (by omega) hlast
    have hpv : (s.dirs d).page v = none :=
      (hg.rest v (.inr (Nat.le_refl v))).trans (habove v hlo hv)
    rw [List.range'_succ]
    unfold allocLoop
    rw [alone_bind, alone_step, wp_kalloc]
    constructor
    · intro f fs hgive hfs
      have hf : f ∈ s.freelist := by rw [hfs]; exact List.mem_cons_self
      have hfX := hg.owns.not_held hf
      simp only [alone_bind, alone_act hl, fill, wp_modify]
      -- after `kalloc` and `memset`
      have hext : Extends d s ((s.took fs).withData f .zero) := .filled hfs .zero
      have hown : Owns L d F (insert f X) ((s.took fs).withData f .zero) :=
        (hg.owns.take hfs).congr rfl rfl
      refine alone_mono (alone_mappages hl hown (Set.mem_insert f X) hv hpv) fun b s1 c hc => ?_
      rcases hc with ⟨-, hc, ho, hput⟩ | ⟨-, hc, rfl⟩
      · rw [Set.insert_sdiff_self_of_notMem hfX] at ho
        have hg' : Grown L d F X0 X s0 s1 (npages oldsz) (v + 1) :=
          hg.put hlo hf (hext.trans hput.extends_) ho hput.page hput.rest
            (by rw [hput.data]; exact Function.update_self ..)
            fun f' hf' => by rw [hput.data]; exact Function.update_of_ne hf' _ _
        refine alone_mono (ih hg' (by omega) (by omega)) fun r s2 c' hc' => ?_
        obtain ⟨X', hsub, htab, hres⟩ := hc'
        have hc0 : (Given l .page s ∧ True ∧ c ∧ c') ↔ c' := by simp [Given, hgive, hc]
        exact ⟨X', hsub, fun h => hc0.trans (htab h), by simpa only [hc0] using hres⟩
      · have hg' : Grown L d F X0 (insert f X) s0 _ (npages oldsz) (v + 1) :=
          hg.lose hlo hv hf (hext.trans (.missed d _)) (hown.congr rfl rfl) hpv rfl fun f' hf' =>
            Function.update_of_ne hf' _ _
        refine alone_mono (ih hg' (by omega) (by omega)) fun r s2 c' hc' => ?_
        obtain ⟨X', hsub, htab, hres⟩ := hc'
        refine ⟨X', (Set.subset_insert f X).trans hsub, fun h => ?_, ?_⟩
        · have hne : X' ≠ X := fun he => hfX (he ▸ hsub (Set.mem_insert f X))
          simp [hc, h, hne]
        · have hc0 : l = .page → ((Given l .page s ∧ True ∧ c ∧ c') ↔ c') := by
            rintro rfl
            simp [Given, hgive, hc]
          rcases hres with ⟨hr, hp, hG⟩ | ⟨hr, hp, hU⟩
          · exact .inl ⟨hr, fun h => (hc0 h).2 (hp h), hG⟩
          · exact .inr ⟨hr, fun h hcc => hp h ((hc0 h).1 hcc), hU⟩
    · intro hno
      have hlt : oldsz < newsz := by
        by_contra hle
        have := Vm.npages_mono (Nat.le_of_not_lt hle)
        omega
      rw [alone_bind]
      have hown : Owns L d F X s.missed := hg.owns.congr rfl rfl
      refine alone_mono (hown.deallocuvm hl hlt hk) fun r s' c hc => ?_
      obtain ⟨hc, -, ho, hs⟩ := hc
      refine (alone_ret 0).2 ⟨X, subset_rfl, fun h => ?_,
        .inr ⟨rfl, fun h => ?_, hg.undo hk (by omega) habove ho hs⟩⟩
      · simp [Given, h, hc]
      · simp [Given, h, hno]

end

/-! ## All or nothing -/

/-- Each frame of the free list and of the directory `d` is at one place, and `kfree` takes it. -/
def Owned (L : Layout) (d : Frame) (s : St) : Prop := Owns L d { f | ∃ r, At d ∅ s r f } ∅ s

theorem Owns.owned (h : Owns L d F ∅ s) : Owned L d s := by
  have hF : { f | ∃ r, At d ∅ s r f } = F := Set.ext fun f => (h.all f).symm
  unfold Owned
  rw [hF]
  exact h

/-- The user pages below `n` are mapped, and no others. -/
def Pgdir.Mapped (S : Pgdir) (n : Nat) : Prop := ∀ v, v < USERPAGES → (S.page v ≠ none ↔ v < n)

theorem Pgdir.Mapped.below {n : Nat} (h : S.Mapped n) (hn : n ≤ USERPAGES) :
    ∀ w, w < n → S.page w ≠ none :=
  fun w hw => (h w (Nat.lt_of_lt_of_le hw hn)).2 hw

theorem Pgdir.Mapped.above {n : Nat} (h : S.Mapped n) :
    ∀ w, n ≤ w → w < USERPAGES → S.page w = none := fun w hw hu => by
  by_contra hp
  exact absurd ((h w hu).1 hp) (by omega)

/-- What vm.c:216-217 promises: either the pages are there, user-accessible, writable and cleared,
on frames that were free, or nothing has changed but for new page tables. -/
def AllOrNothing (d : Frame) (oldsz newsz : Nat) (s : St) (r : Nat) (s' : St) : Prop :=
  ((r = newsz ∧ newsz ≠ 0) ∧ (s'.dirs d).Distinct ∧
    ∀ v, InRange oldsz newsz v → ∃ f ∈ s.freelist, (s'.dirs d).page v = some ⟨f, true, true⟩ ∧
      s'.data f = .zero) ∨ (r = 0 ∧ (∀ v, v < USERPAGES → (s'.dirs d).page v = (s.dirs d).page v) ∧
    ∀ f ∈ s.freelist, f ∈ s'.freelist ∨ ∃ i < NPDENTRIES, (s.dirs d).tables i = none ∧
    (s'.dirs d).tables i = some f)

section

variable {F X X0 : Set Frame} {l : Site} {E : Panic → Prop} {oldsz newsz : Nat}

theorem alone_allocuvm (hl : l ≠ .plain) (h : Owns L d F X s) (hle : oldsz ≤ newsz)
    (hk : newsz < KERNBASE)
    (habove : ∀ w, npages oldsz ≤ w → w < USERPAGES → (s.dirs d).page w = none) :
    alone (Given l) (allocuvm L d oldsz newsz)
      (fun r s' c => ∃ X', X ⊆ X' ∧ (l = .table → (c ↔ X' = X)) ∧
        ((r = newsz ∧ (l = .page → c) ∧ Grown L d F X X' s s' (npages oldsz) (npages newsz)) ∨
          (r = 0 ∧ (l = .page → ¬ c) ∧ Undone L d F X X' s s' (npages oldsz)))) E s := by
  unfold allocuvm
  rw [if_neg (by omega), if_neg (by omega)]
  have := Vm.npages_mono hle
  exact alone_allocLoop hl (.start h _) (Nat.le_refl _) (by omega) hk.le habove

theorem Owns.distinct (h : Owns L d F X s) : (s.dirs d).Distinct := by
  intro v w e e' hv hw he he' hf
  cases h.one (.page v) (.page w) e.frame ⟨hv, e, he, rfl⟩ ⟨hw, e', he', hf.symm⟩
  rfl

/-- If nothing is held and the pages are as they were, a free frame is free again or a new table. -/
theorem Owned.accounted {f : Frame} (h : Owned L d s) (h' : Owns L d { f | ∃ r, At d ∅ s r f } ∅ s')
    (hp : ∀ v, v < USERPAGES → (s'.dirs d).page v = (s.dirs d).page v)
    (ht : ∀ i, (s.dirs d).has i → (s'.dirs d).tables i = (s.dirs d).tables i)
    (hf : f ∈ s.freelist) :
    f ∈ s'.freelist ∨ ∃ i < NPDENTRIES, (s.dirs d).tables i = none ∧
    (s'.dirs d).tables i = some f := by
  obtain ⟨r, hr⟩ := (h'.all f).1 ⟨.free, hf⟩
  cases r with
  | free => exact .inl hr
  | held => exact absurd hr (Set.notMem_empty f)
  | dir => cases h.one .free .dir f hf hr
  | page v =>
    obtain ⟨hv, e, he, hef⟩ := hr
    cases h.one .free (.page v) f hf ⟨hv, e, (hp v hv).symm.trans he, hef⟩
  | table i =>
    refine .inr ⟨i, hr.1, ?_, hr.2⟩
    by_contra hne
    have hi : (s.dirs d).has i := Option.isSome_iff_ne_none.2 hne
    cases h.one .free (.table i) f hf ⟨hr.1, (ht i hi).symm.trans hr.2⟩

theorem Owns.lost {f : Frame} (h : Owns L d F X s') (hf : f ∈ X) :
    ¬ (f ∈ s'.freelist ∨ ∃ i < NPDENTRIES, (s.dirs d).tables i = none ∧
      (s'.dirs d).tables i = some f) := by
  rintro (hfree | ⟨i, hi, -, ht⟩)
  · exact h.not_held hfree hf
  · cases h.one .held (.table i) f hf ⟨hi, ht⟩

/-- **All or nothing**, exactly if `kalloc` has a frame whenever `walkpgdir` asks for a page
table. -/
theorem allocuvm_all_or_nothing_iff (hle : oldsz ≤ newsz) (hk : newsz < KERNBASE) (ho : Owned L d s)
    (hm : (s.dirs d).Mapped (npages oldsz)) :
    (∃ r s', (allocuvm L d oldsz newsz).run s = .ok (r, s') ∧ AllOrNothing d oldsz newsz s r s') ↔
      (allocuvm L d oldsz newsz).Meets (Given .table) s := by
  have hold := Vm.npages_le (Nat.le_trans hle hk.le)
  obtain ⟨r, s', hrun, X, -, hX, hres⟩ :=
    wp_total.1 (alone_allocuvm (l := .table) (by decide) ho hle hk hm.above)
  rw [hX rfl]
  have hret : (∃ r s', (allocuvm L d oldsz newsz).run s = .ok (r, s') ∧
    AllOrNothing d oldsz newsz s r s') ↔ AllOrNothing d oldsz newsz s r s' := by
    constructor
    · rintro ⟨r1, s1, h1, h2⟩
      rw [hrun] at h1
      cases h1
      exact h2
    · exact fun h => ⟨r, s', hrun, h⟩
  rw [hret]
  rcases hres with ⟨rfl, -, hg⟩ | ⟨rfl, -, hu⟩
  · constructor
    · rintro (⟨-, -, hall⟩ | ⟨hz, -, hacc⟩)
      · -- a frame is held only if a page is missing
        by_contra hne
        obtain ⟨w, h1, h2, h3⟩ := hg.missing hne
        obtain ⟨f, -, hf, -⟩ := hall w ⟨h1, h2⟩
        rw [h3] at hf
        cases hf
      · by_contra hne
        obtain ⟨w, h1, h2, -⟩ := hg.missing hne
        have := Vm.npages_mono (n := oldsz) (m := r) (by omega)
        omega
    · rintro rfl
      by_cases hz : r = 0
      · have hsame : ∀ v, (s'.dirs d).page v = (s.dirs d).page v := by
          intro v
          have := Vm.npages_mono (n := oldsz) (m := r) (by omega)
          exact hg.rest v (by omega)
        exact .inr ⟨hz, fun v _ => hsame v,
          fun f hf => ho.accounted hg.owns (fun v _ => hsame v) hg.more.tables hf⟩
      · refine .inl ⟨⟨rfl, hz⟩, hg.owns.distinct, fun v hv => ?_⟩
        rcases hg.new v hv.1 hv.2 with hn | hn
        · exact absurd hn (hg.complete rfl v hv.1 hv.2)
        · exact hn
  · have hsame := hu.pages (hm.below hold)
    constructor
    · rintro (⟨⟨hz, hz'⟩, -⟩ | ⟨-, -, hacc⟩)
      · exact absurd hz.symm hz'
      · refine Set.eq_empty_of_forall_notMem fun f hf => ?_
        have hfree := (hu.held f hf).resolve_left (Set.notMem_empty f)
        exact hu.owns.lost hf (hacc f hfree)
    · rintro rfl
      exact .inr ⟨rfl, fun v _ => hsame v,
        fun f hf => ho.accounted hu.owns (fun v _ => hsame v) hu.tables hf⟩

end

/-- An empty directory in frame 1, and the frames 3 and 4. -/
def bare (plan : List Bool) : St := { quiet [3, 4] .empty with plan }

variable {fl : List Frame}

/-- An empty directory in frame 1. -/
theorem owns_quiet (plan : List Bool) (hn : (1 :: fl).Nodup)
    (hr : ∀ f ∈ 1 :: fl, L.first ≤ f ∧ f < L.last) :
    Owns L 1 { f | f ∈ fl ∨ f ∈ (∅ : Set Frame) ∨ f = 1 } ∅ { quiet fl .empty with plan } := by
  obtain ⟨h1, hn⟩ := List.nodup_cons.1 hn
  refine .new rfl hn (fun _ => Iff.rfl) (fun f hf => ⟨Set.notMem_empty f, fun he => h1 (he ▸ hf)⟩)
    (Set.notMem_empty 1) ?_
  rintro f (h | h | rfl)
  · exact hr f (List.mem_cons_of_mem _ h)
  · exact absurd h (Set.notMem_empty f)
  · exact hr 1 List.mem_cons_self

theorem owned_bare (plan : List Bool) : Owned smallLayout 1 (bare plan) :=
  (owns_quiet plan (show [1, 3, 4].Nodup by decide) (by decide)).owned

theorem mapped_empty : Pgdir.empty.Mapped (npages 0) := by
  intro v _
  have hp : Pgdir.empty.page v = none := rfl
  have hn : npages 0 = 0 := by decide +kernel
  simp [hp, hn]

/-- One page and its table. -/
theorem allocuvm_one_page : ∃ r s', (allocuvm smallLayout 1 0 1).run (bare []) = .ok (r, s') ∧
    AllOrNothing 1 0 1 (bare []) r s' :=
  (allocuvm_all_or_nothing_iff (by decide) (by decide) (owned_bare []) mapped_empty).2
    (by decide +kernel)

/-- There is a frame for the page and none for its table: the page is not mapped, its frame is lost,
and `allocuvm` returns as if all were well. -/
theorem allocuvm_ignores_mappages :
    (Owned smallLayout 1 (bare [true, false]) ∧ Pgdir.empty.Mapped (npages 0)) ∧
    ∃ s', (allocuvm smallLayout 1 0 1).run (bare [true, false]) = .ok (1, s') ∧
      InRange 0 1 0 ∧ (s'.dirs 1).page 0 = none ∧ 3 ∈ (bare [true, false]).freelist ∧
      s'.freelist = [4] := by
  refine ⟨⟨owned_bare _, mapped_empty⟩, ?_⟩
  have h : ((allocuvm smallLayout 1 0 1).run (bare [true, false])).toOption.map
      (fun r => (r.1, (r.2.dirs 1).page 0, r.2.freelist)) = some (1, none, [4]) := by decide +kernel
  obtain ⟨⟨r, s'⟩, hr, hp⟩ := ok_of_map h
  simp only [Prod.mk.injEq] at hp
  obtain ⟨rfl, hp, hfl⟩ := hp
  exact ⟨s', hr, by decide +kernel, hp, by decide, hfl⟩

/-! ## `growproc` -/

/-- proc.c:103-105: the size is `n` more and the pages below it are mapped, or nothing has
changed. -/
def Exact (p : Fin NPROC) (d : Frame) (n : Int) (s : St) (r : Int) (s' : St) : Prop :=
  (r = 0 ∧ ((s'.procs p).sz : Int) = (s.procs p).sz + n ∧ (s'.procs p).sz < KERNBASE ∧
    (s'.dirs d).Mapped (npages (s'.procs p).sz)) ∨
  (r = -1 ∧ (s'.procs p).sz = (s.procs p).sz ∧ ∀ v, v < USERPAGES →
    ((s'.dirs d).page v ≠ none ↔ (s.dirs d).page v ≠ none))

/-- `n` bytes more are asked for. If there is room, then unless the call of `kalloc` for a page
fails none for a table does. -/
def GrowsWell (L : Layout) (d : Frame) (sz newsz : Nat) (s : St) : Prop :=
  KERNBASE ≤ newsz ∨ (allocuvm L d sz newsz).Meets (Given .table) s ∨
  ¬ (allocuvm L d sz newsz).Meets (Given .page) s

section

variable {p : Fin NPROC} {n : Int} {oldsz newsz : Nat}

theorem allocuvm_outcome (hle : oldsz < newsz) (hk : newsz < KERNBASE) (ho : Owned L d s)
    (hm : (s.dirs d).Mapped (npages oldsz)) :
    ∃ r s', (allocuvm L d oldsz newsz).run s = .ok (r, s') ∧ s'.procs = s.procs ∧
      ((r = newsz ∧ (allocuvm L d oldsz newsz).Meets (Given .page) s ∧
          ((s'.dirs d).Mapped (npages newsz) ↔ (allocuvm L d oldsz newsz).Meets (Given .table) s)) ∨
        (r = 0 ∧ ¬ (allocuvm L d oldsz newsz).Meets (Given .page) s ∧ ∀ v, (s'.dirs d).page v =
          (s.dirs d).page v)) := by
  have hold := Vm.npages_le (Nat.le_trans hle.le hk.le)
  obtain ⟨r, s', hrun, X, -, hX, hres⟩ :=
    wp_total.1 (alone_allocuvm (l := .table) (by decide) ho hle.le hk hm.above)
  have hpage := wp_ok (alone_allocuvm (l := .page)
    (E := fun _ => True) (by decide) ho hle.le hk hm.above) hrun
  obtain ⟨_, -, -, hres'⟩ := hpage
  refine ⟨r, s', hrun, ?_⟩
  rcases hres with ⟨rfl, -, hg⟩ | ⟨rfl, -, hu⟩
  · refine ⟨hg.more.procs, .inl ⟨rfl, ?_, ?_⟩⟩
    · rcases hres' with ⟨-, hc, -⟩ | ⟨hz, -⟩
      · exact hc rfl
      · omega
    · rw [hX rfl]
      constructor
      · intro hmap
        by_contra hne
        obtain ⟨w, h1, h2, h3⟩ := hg.missing hne
        exact (hmap w (Nat.lt_of_lt_of_le h2 (Vm.npages_le hk.le))).2 h2 h3
      · intro he w hw
        by_cases hold' : w < npages oldsz
        · rw [hg.rest w (.inl hold'), hm w hw]
          have := Vm.npages_mono hle.le
          omega
        · by_cases hnew : w < npages r
          · exact iff_of_true (hg.complete he w (by omega) hnew) hnew
          · rw [hg.rest w (.inr (by omega)), hm.above w (by omega) hw]
            exact iff_of_false (fun h => h rfl) hnew
  · refine ⟨hu.procs, .inr ⟨rfl, ?_, hu.pages (hm.below hold)⟩⟩
    rcases hres' with ⟨hz, -⟩ | ⟨-, hc, -⟩
    · omega
    · exact hc rfl

theorem proc_run {x : Vm.Proc} (hx : s.procs p = x) (hlive : x.status = .live) :
    proc p s = .ok (x, s) := by
  subst hx
  simp [proc, hlive, get_bind]
  rfl

theorem setSize_run (hlive : (s.procs p).status = .live) (sz : Nat) :
    ∃ s', setSize p sz s = .ok ((), s') ∧ (s'.procs p).sz = sz ∧ s'.dirs = s.dirs := by
  refine ⟨s.withProc p { s.procs p with sz }, ?_, ?_, rfl⟩
  · unfold setSize
    rw [bind_of_ok (proc_run rfl hlive)]
    rfl
  · simp [St.withProc]

theorem grow_finish {t : Code Nat} {r : Nat} (hr : t.run s = .ok (r, s'))
    (hlive : (s'.procs p).status = .live) :
    (r = 0 → (t >>= fun sz => if sz = 0 then pure (-1)
      else do act (setSize p sz); pure (0 : Int)).run s = .ok (-1, s')) ∧
    (r ≠ 0 → ∃ s'', (t >>= fun sz => if sz = 0 then pure (-1)
      else do act (setSize p sz); pure (0 : Int)).run s = .ok (0, s'') ∧
      (s''.procs p).sz = r ∧ s''.dirs = s'.dirs) := by
  rw [run_bind, bind_of_ok hr]
  constructor
  · intro hz
    rw [if_pos hz]
    rfl
  · intro hz
    obtain ⟨s'', hs, h1, h2⟩ := setSize_run hlive r
    refine ⟨s'', ?_, h1, h2⟩
    rw [if_neg hz, act, run_bind, run_step, bind_of_ok hs]
    rfl

theorem growproc_run (hlive : (s.procs p).status = .live) (hd : (s.procs p).pgdir = some d) :
    (growproc L p n).run s = (if 0 < n then
        allocuvm L d (s.procs p).sz (((s.procs p).sz + n) % 2 ^ 32).toNat >>= fun sz =>
          if sz = 0 then pure (-1) else do act (setSize p sz); pure (0 : Int)
      else if n < 0 then
        deallocuvm L d (s.procs p).sz (((s.procs p).sz + n) % 2 ^ 32).toNat >>= fun sz =>
          if sz = 0 then pure (-1) else do act (setSize p sz); pure (0 : Int)
      else do act (setSize p (s.procs p).sz); pure (0 : Int)).run s := by
  unfold growproc
  rw [run_bind, act, run_step, bind_of_ok (proc_run rfl hlive)]
  simp only [hd]

theorem exists_run_iff {t : Code Int} {r : Int} {P : Int → St → Prop} (hr : t.run s = .ok (r, s')) :
    (∃ r s', t.run s = .ok (r, s') ∧ P r s') ↔ P r s' := by
  constructor
  · rintro ⟨r1, s1, h1, h2⟩
    rw [hr] at h1
    cases h1
    exact h2
  · exact fun h => ⟨r, s', hr, h⟩

section

variable (hlive : (s.procs p).status = .live) (hd : (s.procs p).pgdir = some d) (ho : Owned L d s)
  (hm : (s.dirs d).Mapped (npages (s.procs p).sz)) (hsz : (s.procs p).sz < KERNBASE)
include hlive hd hm

theorem growproc_zero (hsz : (s.procs p).sz < KERNBASE) :
    ∃ r s', (growproc L p 0).run s = .ok (r, s') ∧ Exact p d 0 s r s' := by
  obtain ⟨s', hs, h1, h2⟩ := setSize_run hlive (s.procs p).sz
  refine ⟨0, s', ?_, .inl ⟨rfl, by omega, by omega, ?_⟩⟩
  · rw [growproc_run hlive hd, if_neg (by omega), if_neg (by omega), act, run_bind,
      run_step, bind_of_ok hs]
    rfl
  · rw [h1, h2]
    exact hm

include ho hsz

/-- The size wraps around, or 0 is taken for an error. -/
theorem growproc_shrink (hn : n < 0) (hlow : -2 ^ 31 ≤ n) :
    (∃ r s', (growproc L p n).run s = .ok (r, s') ∧ Exact p d n s r s') ↔ (s.procs p).sz = 0 ∨
    0 < (s.procs p).sz + n := by
  have hrun := growproc_run (L := L) (n := n) hlive hd
  rw [if_neg (by omega), if_pos hn] at hrun
  simp only [KERNBASE] at hsz
  by_cases hneg : (s.procs p).sz + n < 0
  · -- `sz + n` is at least `KERNBASE`
    have hle : (s.procs p).sz ≤ (((s.procs p).sz + n) % 2 ^ 32).toNat := by omega
    have hde : (deallocuvm L d (s.procs p).sz (((s.procs p).sz + n) % 2 ^ 32).toNat).run s =
        .ok ((s.procs p).sz, s) := by
      rw [deallocuvm, if_pos hle]
      rfl
    obtain ⟨hz, hnz⟩ := grow_finish hde hlive
    by_cases h0 : (s.procs p).sz = 0
    · rw [exists_run_iff (hrun.trans (hz h0))]
      exact iff_of_true (.inr ⟨rfl, rfl, fun _ _ => Iff.rfl⟩) (.inl h0)
    · obtain ⟨s'', hr, h1, -⟩ := hnz h0
      rw [exists_run_iff (hrun.trans hr)]
      refine iff_of_false ?_ (by omega)
      rintro (⟨-, h, -⟩ | ⟨h, -⟩)
      · omega
      · omega
  · obtain ⟨newsz, hnew⟩ : ∃ newsz : Nat, (s.procs p).sz + n = newsz :=
      ⟨((s.procs p).sz + n).toNat, by omega⟩
    have hmod : (((s.procs p).sz + n) % 2 ^ 32).toNat = newsz := by omega
    rw [hmod] at hrun
    obtain ⟨r, s', hde, -, hrn, -, hs⟩ := wp_total.1 (ho.deallocuvm (l := .table) (by decide)
      (show newsz < (s.procs p).sz by omega) (by simp only [KERNBASE]; omega))
    rw [hrn] at hde
    have hbelow := hm.below (Vm.npages_le (by simp only [KERNBASE]; omega))
    have hpages : ∀ v, v < USERPAGES → ((s'.dirs d).page v ≠ none ↔ v < npages newsz) := by
      intro v hv
      have hmono := Vm.npages_mono (m := newsz) (n := (s.procs p).sz) (by omega)
      by_cases hvn : v < npages newsz
      · rw [hs.page_of_not_mem fun hmem => by have := (mem_pgdir_sweep.1 hmem).1.1; omega]
        exact iff_of_true (hbelow v (by omega)) hvn
      · refine iff_of_false (fun hp => hp ?_) hvn
        by_cases hmem : v ∈ (s.dirs d).sweep (s.procs p).sz newsz
        · exact hs.page_of_mem hmem
        · rw [hs.page_of_not_mem hmem]
          by_cases hvo : v < npages (s.procs p).sz
          · cases hp : (s.dirs d).page v with
            | none => rfl
            | some e =>
              exact absurd (mem_sweep_of_page (fun w hw => hbelow w (by omega))
                ⟨by omega, hvo⟩ hp) hmem
          · exact hm.above v (by omega) hv
    obtain ⟨hz, hnz⟩ := grow_finish hde (by rw [hs.procs]; exact hlive)
    by_cases h0 : newsz = 0
    · rw [exists_run_iff (hrun.trans (hz h0))]
      refine iff_of_false ?_ (by omega)
      -- page 0 is gone
      rintro (⟨h, -⟩ | ⟨-, -, h⟩)
      · omega
      · have hpos : 0 < npages (s.procs p).sz :=
          Nat.lt_of_le_of_lt (Nat.zero_le _) (Vm.lt_npages (a := 0) (by omega))
        have hzero : npages newsz = 0 := by rw [h0]; decide +kernel
        have := (hpages 0 (by decide)).1 ((h 0 (by decide)).2 (hbelow 0 hpos))
        omega
    · obtain ⟨s'', hr, h1, h2⟩ := hnz h0
      rw [exists_run_iff (hrun.trans hr)]
      refine iff_of_true (.inl ⟨rfl, by omega, by simp only [KERNBASE]; omega, ?_⟩) (by omega)
      rw [h1, h2]
      exact hpages

theorem growproc_grow (hn : 0 < n) (hhigh : n < 2 ^ 31) :
    (∃ r s', (growproc L p n).run s = .ok (r, s') ∧ Exact p d n s r s') ↔
      GrowsWell L d (s.procs p).sz ((s.procs p).sz + n).toNat s := by
  have hrun := growproc_run (L := L) (n := n) hlive hd
  rw [if_pos hn] at hrun
  simp only [KERNBASE] at hsz
  obtain ⟨newsz, hnew⟩ : ∃ newsz : Nat, (s.procs p).sz + n = newsz :=
    ⟨((s.procs p).sz + n).toNat, by omega⟩
  have hmod : (((s.procs p).sz + n) % 2 ^ 32).toNat = newsz := by omega
  rw [hmod] at hrun
  rw [hnew, Int.toNat_natCast]
  by_cases hk : KERNBASE ≤ newsz
  · have hal : (allocuvm L d (s.procs p).sz newsz).run s = .ok (0, s) := by
      rw [allocuvm, if_pos hk]
      rfl
    rw [exists_run_iff (hrun.trans ((grow_finish hal hlive).1 rfl))]
    exact iff_of_true (.inr ⟨rfl, rfl, fun _ _ => Iff.rfl⟩) (.inl hk)
  · obtain ⟨r, s', hal, hprocs, hres⟩ :=
      allocuvm_outcome (show (s.procs p).sz < newsz by omega) (by omega) ho hm
    obtain ⟨hz, hnz⟩ := grow_finish hal (by rw [hprocs]; exact hlive)
    unfold GrowsWell
    rw [or_iff_right hk]
    rcases hres with ⟨rfl, hpage, hmap⟩ | ⟨rfl, hpage, hsame⟩
    · obtain ⟨s'', hr, h1, h2⟩ := hnz (by omega)
      rw [exists_run_iff (hrun.trans hr), or_iff_left (not_not.2 hpage), ← hmap]
      constructor
      · rintro (⟨-, -, -, h⟩ | ⟨h, -⟩)
        · rwa [h1, h2] at h
        · omega
      · exact fun h => .inl ⟨rfl, by omega, by omega, by rw [h1, h2]; exact h⟩
    · rw [exists_run_iff (hrun.trans (hz rfl))]
      exact iff_of_true (.inr ⟨rfl, by rw [hprocs], fun v _ => by rw [hsame v]⟩) (.inr hpage)

end

/-- **`growproc` is exact** for 0, for a decrease that leaves something, for any decrease of an
empty process, and for an increase that goes well. -/
theorem growproc_exact_iff (hlive : (s.procs p).status = .live) (hd : (s.procs p).pgdir = some d)
    (ho : Owned L d s) (hm : (s.dirs d).Mapped (npages (s.procs p).sz))
    (hsz : (s.procs p).sz < KERNBASE) (hn : -2 ^ 31 ≤ n ∧ n < 2 ^ 31) :
    (∃ r s', (growproc L p n).run s = .ok (r, s') ∧ Exact p d n s r s') ↔
      n = 0 ∨ (n < 0 ∧ ((s.procs p).sz = 0 ∨ 0 < (s.procs p).sz + n)) ∨
        (0 < n ∧ GrowsWell L d (s.procs p).sz ((s.procs p).sz + n).toNat s) := by
  rcases lt_trichotomy n 0 with h | rfl | h
  · rw [growproc_shrink hlive hd ho hm hsz h hn.1]
    have h1 : ¬ n = 0 := by omega
    have h2 : ¬ 0 < n := by omega
    simp only [h, h1, h2, true_and, false_and, false_or, or_false]
  · exact iff_of_true (growproc_zero hlive hd hm hsz) (.inl rfl)
  · rw [growproc_grow hlive hd ho hm hsz h hn.2]
    have h1 : ¬ n = 0 := by omega
    have h2 : ¬ n < 0 := by omega
    simp only [h, h1, h2, true_and, false_and, false_or]

end

/-- Page 0 is in frame 3, its table in frame 2. -/
def onePage : Pgdir := (Pgdir.empty.withTable 0 2).withPte 0 (some ⟨3, true, true⟩)

/-- A process of one page. -/
def onePager (fl : List Frame) : St :=
  { quiet fl onePage with procs := fun _ => ⟨.live, some 15, some 1, PGSIZE, none, fun _ => none⟩ }

theorem owned_onePager (hn : (1 :: 2 :: 3 :: fl).Nodup)
    (hr : ∀ f ∈ 1 :: 2 :: 3 :: fl, L.first ≤ f ∧ f < L.last) :
    Owned L 1 (onePager fl) := by
  have h0 := owns_quiet [] hn hr
  -- frame 2 becomes the table, frame 3 the page
  have h1 := (h0.take rfl).table (i := 0) (Set.mem_insert 2 ∅) (by decide) rfl
  rw [Set.insert_sdiff_self_of_notMem (Set.notMem_empty _)] at h1
  have h2 := (h1.take rfl).map (v := 0) (w := true)
    (u := true) (Set.mem_insert 3 ∅) (by decide) rfl rfl
  rw [Set.insert_sdiff_self_of_notMem (Set.notMem_empty _)] at h2
  exact (show Owns L 1 _ ∅ (onePager fl) from h2.congr rfl rfl).owned

theorem mapped_onePager (fl : List Frame) :
    ((onePager fl).dirs 1).Mapped (npages ((onePager fl).procs 0).sz) := by
  intro v _
  have hn : npages ((onePager fl).procs 0).sz = 1 := by
    show npages PGSIZE = 1
    decide +kernel
  rw [hn]
  by_cases hv : v = 0
  · subst hv
    exact iff_of_true (fun h => by cases h) (by decide)
  · have hp : ((onePager fl).dirs 1).page v = none := by
      simp [onePager, quiet, onePage, Pgdir.page, Pgdir.withPte, Pgdir.withTable, Pgdir.empty, hv]
    exact iff_of_false (fun h => h hp) (by omega)

/-- One byte less. -/
theorem growproc_exact_less :
    ∃ r s', (growproc smallLayout 0 (-1)).run (onePager [4]) = .ok (r, s') ∧
    Exact 0 1 (-1) (onePager [4]) r s' :=
  (growproc_exact_iff rfl rfl (owned_onePager (by decide) (by decide)) (mapped_onePager [4])
    (by decide) (by decide)).2 (.inr (.inl (by decide)))

/-- One page less: the page is freed, and then its size of 0 is taken for an error. -/
theorem growproc_to_zero :
    (Owned smallLayout 1 (onePager [4]) ∧
    ((onePager [4]).dirs 1).Mapped (npages ((onePager [4]).procs 0).sz)) ∧
    ∃ s', (growproc smallLayout 0 (-4096)).run (onePager [4]) = .ok (-1, s') ∧
    (s'.procs 0).sz = 4096 ∧
      ((onePager [4]).dirs 1).page 0 = some ⟨3, true, true⟩ ∧ (s'.dirs 1).page 0 = none := by
  refine ⟨⟨owned_onePager (by decide) (by decide), mapped_onePager [4]⟩, ?_⟩
  have h : ((growproc smallLayout 0 (-4096)).run (onePager [4])).toOption.map
      (fun r => (r.1, (r.2.procs 0).sz, (r.2.dirs 1).page 0)) = some (-1, 4096, none) := by
        decide +kernel
  obtain ⟨⟨r, s'⟩, hr, hp⟩ := ok_of_map h
  simp only [Prod.mk.injEq] at hp
  obtain ⟨rfl, h1, h2⟩ := hp
  exact ⟨s', hr, h1, by decide, h2⟩

end Os4.Uvm
