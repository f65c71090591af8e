import Mathlib.Data.Set.Insert
import Os4.Proc.Sweep
/-!
# Where the frames of an address space are

| here | there |
| --- | --- |
| `Place`, `At` | what a frame is used for: kalloc.c:20, `pgdir`, `pgdir[i]`, `pgtab[i]` |
| `Owns` | the frames that a page directory, the free list and a call have between them |
| `alone_walkpgdir`, `alone_mappages` | vm.c:45, 70 |

Every operation moves frames from one place to another (`Owns.move`, `Owns.swept`); a frame that a
call has taken from the free list and put nowhere yet is *held*. `walkpgdir` and `mappages` fail
only if `kalloc` has no frame for a page table.
-/
namespace Os4.Uvm

open Vm (Frame Layout npages NPTENTRIES NPDENTRIES)
open Prog Thread

variable {L : Layout} {s s' : St} {d : Frame}

/-! ## Places -/

inductive Place where
  | free
  | held
  | dir
  | table (i : Nat)
  | page (v : Nat)
deriving DecidableEq

/-- The frame `f` is at the place, for the directory `d` and a call that holds the frames `X`. -/
def At (d : Frame) (X : Set Frame) (s : St) : Place → Frame → Prop
  | .free, f => f ∈ s.freelist
  | .held, f => f ∈ X
  | .dir, f => f = d
  | .table i, f => i < NPDENTRIES ∧ (s.dirs d).tables i = some f
  | .page v, f => v < USERPAGES ∧ ∃ e, (s.dirs d).page v = some e ∧ e.frame = f

/-- The frames `F` are on the free list, held, or in the directory `d`: each at one place, and of
those that `kfree` takes. -/
structure Owns (L : Layout) (d : Frame) (F X : Set Frame) (s : St) : Prop where
  all : ∀ f, f ∈ F ↔ ∃ r, At d X s r f
  one : ∀ r r' f, At d X s r f → At d X s r' f → r = r'
  nodup : s.freelist.Nodup
  range : ∀ f ∈ F, L.first ≤ f ∧ f < L.last

/-- What `kalloc` leaves when it takes a frame. -/
def St.took (s : St) (fs : List Frame) : St := { s with freelist := fs, plan := s.plan.tail }

/-- What `kalloc` leaves when it fails. -/
def St.missed (s : St) : St := { s with plan := s.plan.tail }

@[simp] theorem took_dirs (s : St) (fs : List Frame) : (s.took fs).dirs = s.dirs := rfl
@[simp] theorem took_data (s : St) (fs : List Frame) : (s.took fs).data = s.data := rfl

variable {v : Nat} {fs : List Frame}

section Owns

variable {F X X' : Set Frame} {f g : Frame}

theorem Owns.regroup {q : Place} {G : Set Frame} (h : Owns L d F X s) (hG : ∀ f ∈ G, f ∈ F)
    (hn : s'.freelist.Nodup)
    (hat : ∀ r f, At d X' s' r f ↔ (f ∈ G ∧ r = q) ∨ (f ∉ G ∧ At d X s r f)) :
    Owns L d F X' s' := by
  constructor
  case nodup => exact hn
  case range => exact h.range
  case all =>
    intro f
    constructor
    · intro hF
      by_cases hf : f ∈ G
      · exact ⟨q, (hat q f).2 (.inl ⟨hf, rfl⟩)⟩
      · obtain ⟨r, ha⟩ := (h.all f).1 hF
        exact ⟨r, (hat r f).2 (.inr ⟨hf, ha⟩)⟩
    · rintro ⟨r, ha⟩
      rcases (hat r f).1 ha with ⟨hf, -⟩ | ⟨-, ha⟩
      · exact hG f hf
      · exact (h.all f).2 ⟨r, ha⟩
  case one =>
    intro r r' f ha ha'
    rcases (hat r f).1 ha with ⟨hf, rfl⟩ | ⟨hf, ha⟩
    · rcases (hat r' f).1 ha' with ⟨-, rfl⟩ | ⟨hf', -⟩
      · rfl
      · exact absurd hf hf'
    · rcases (hat r' f).1 ha' with ⟨hf', -⟩ | ⟨-, ha'⟩
      · exact absurd hf' hf
      · exact h.one r r' f ha ha'

theorem Owns.move {p q : Place} (h : Owns L d F X s) (hg : At d X s p g) (hn : s'.freelist.Nodup)
    (hp : ∀ f, At d X' s' p f ↔ f ≠ g ∧ At d X s p f)
    (hq : ∀ f, At d X' s' q f ↔ f = g ∨ At d X s q f)
    (hr : ∀ r, r ≠ p → r ≠ q → ∀ f, At d X' s' r f ↔ At d X s r f) : Owns L d F X' s' := by
  refine h.regroup (q := q) (G := {g}) ?_ hn fun r f => ?_
  · rintro f rfl
    exact (h.all f).2 ⟨p, hg⟩
  rw [Set.mem_singleton_iff]
  by_cases h1 : r = p
  · subst h1
    rw [hp f]
    constructor
    · exact .inr
    · rintro (⟨rfl, rfl⟩ | hf)
      · exact absurd rfl ((hp f).1 ((hq f).2 (.inl rfl))).1
      · exact hf
  · have hne : At d X s r f → f ≠ g := fun ha he => h1 (h.one r p f ha (he ▸ hg))
    by_cases h2 : r = q
    · subst h2
      rw [hq f]
      constructor
      · rintro (rfl | ha)
        · exact .inl ⟨rfl, rfl⟩
        · exact .inr ⟨hne ha, ha⟩
      · rintro (⟨rfl, -⟩ | ⟨-, ha⟩)
        · exact .inl rfl
        · exact .inr ha
    · rw [hr r h1 h2 f]
      constructor
      · exact fun ha => .inr ⟨hne ha, ha⟩
      · rintro (⟨-, rfl⟩ | ⟨-, ha⟩)
        · exact absurd rfl h2
        · exact ha

theorem Owns.new (hd : s.dirs d = .empty) (hn : s.freelist.Nodup)
    (hF : ∀ f, f ∈ F ↔ f ∈ s.freelist ∨ f ∈ X ∨ f = d)
    (hfree : ∀ f ∈ s.freelist, f ∉ X ∧ f ≠ d) (hX : d ∉ X)
    (hr : ∀ f ∈ F, L.first ≤ f ∧ f < L.last) : Owns L d F X s := by
  -- there are three places
  have hat : ∀ r f, At d X s r f → (r = .free ∧ f ∈ s.freelist) ∨ (r = .held ∧ f ∈ X) ∨
      (r = .dir ∧ f = d) := by
    intro r f h
    cases r with
    | free => exact .inl ⟨rfl, h⟩
    | held => exact .inr (.inl ⟨rfl, h⟩)
    | dir => exact .inr (.inr ⟨rfl, h⟩)
    | table i =>
      have ht := h.2
      rw [hd] at ht
      cases ht
    | page v =>
      obtain ⟨-, e, he, -⟩ := h
      rw [hd] at he
      cases (page_eq_some.1 he).2
  constructor
  case all =>
    intro f
    rw [hF f]
    constructor
    · rintro (h | h | h)
      · exact ⟨.free, h⟩
      · exact ⟨.held, h⟩
      · exact ⟨.dir, h⟩
    · rintro ⟨r, h⟩
      rcases hat r f h with ⟨-, h⟩ | ⟨-, h⟩ | ⟨-, h⟩
      · exact .inl h
      · exact .inr (.inl h)
      · exact .inr (.inr h)
  case one =>
    intro r r' f h h'
    have hXd : f ∈ X → f ≠ d := fun h he => hX (he ▸ h)
    have := hfree f
    rcases hat r f h with ⟨rfl, h⟩ | ⟨rfl, h⟩ | ⟨rfl, h⟩ <;> rcases hat r' f h' with ⟨rfl, h'⟩
      | ⟨rfl, h'⟩ | ⟨rfl, h'⟩ <;> tauto
  case nodup => exact hn
  case range => exact hr

theorem Owns.take (h : Owns L d F X s) (hs : s.freelist = g :: fs) :
    Owns L d F (insert g X) (s.took fs) := by
  have hn := h.nodup
  rw [hs, List.nodup_cons] at hn
  refine h.move (p := .free)
    (q := .held) ?_ hn.2 (fun f => ?_) (fun f => Set.mem_insert_iff) fun r h1 h2 f => ?_
  · show g ∈ s.freelist
    rw [hs]
    exact List.mem_cons_self
  · simp only [At, hs, List.mem_cons]
    constructor
    · exact fun hf => ⟨fun he => hn.1 (he ▸ hf), .inr hf⟩
    · rintro ⟨hne, rfl | hf⟩
      · exact absurd rfl hne
      · exact hf
  · cases r <;> first | exact Iff.rfl | contradiction

theorem Owns.congr (h : Owns L d F X s) (hf : s'.freelist = s.freelist)
    (hd : s'.dirs d = s.dirs d) : Owns L d F X s' := by
  have hat : ∀ r f, At d X s' r f ↔ At d X s r f := by
    intro r f
    cases r <;> simp only [At, hf, hd]
  constructor
  case all => exact fun f => (h.all f).trans (exists_congr fun r => (hat r f).symm)
  case one => exact fun r r' f ha ha' => h.one r r' f ((hat r f).1 ha) ((hat r' f).1 ha')
  case nodup => rw [hf]; exact h.nodup
  case range => exact h.range

theorem Owns.map {w u : Bool} (h : Owns L d F X s) (hg : g ∈ X) (hv : v < USERPAGES)
    (ht : (s.dirs d).has (v / NPTENTRIES)) (hp : (s.dirs d).ptes v = none) :
    Owns L d F (X \ {g}) (s.withDir d ((s.dirs d).withPte v (some ⟨g, w, u⟩))) := by
  have hpage : ∀ v', v' ≠ v → ((s.dirs d).withPte v (some ⟨g, w, u⟩)).page v' =
      (s.dirs d).page v' := fun v' hne => by
    simp only [Pgdir.page, withPte_tables, withPte_ptes_ne _ _ _ hne]
  refine h.move (p := .held)
    (q := .page v) hg h.nodup (fun f => ?_) (fun f => ?_) fun r h1 h2 f => ?_
  · simp only [At, Set.mem_sdiff, Set.mem_singleton_iff, and_comm]
  · have hnone : (s.dirs d).page v = none := by rw [page_of_table ht, hp]
    have hnew : ((s.dirs d).withPte v (some ⟨g, w, u⟩)).page v = some ⟨g, w, u⟩ := by
      rw [page_of_table (by exact ht), withPte_ptes_same]
    simp only [At, withDir_dirs_same, hnew, hnone, hv, true_and, Option.some.injEq, reduceCtorEq,
      false_and, exists_false, or_false]
    constructor
    · rintro ⟨e, rfl, rfl⟩; rfl
    · rintro rfl; exact ⟨_, rfl, rfl⟩
  · cases r with
    | page v' => simp only [At, withDir_dirs_same, hpage v' fun hne => h2 (congrArg Place.page hne)]
    | table i => simp only [At, withDir_dirs_same, withPte_tables]
    | held => contradiction
    | free => exact Iff.rfl
    | dir => exact Iff.rfl

theorem page_withTable {S : Pgdir} {i : Nat} {t : Frame} (hi : S.tables i = none) (v : Nat) :
    (S.withTable i t).page v = S.page v := by
  by_cases hv : v / NPTENTRIES = i
  · subst hv
    simp [Pgdir.page, Pgdir.withTable, hi]
  · simp [Pgdir.page, Pgdir.withTable, hv]

theorem Owns.table {i : Nat} (h : Owns L d F X s) (hg : g ∈ X) (hi : i < NPDENTRIES)
    (ht : (s.dirs d).tables i = none) :
    Owns L d F (X \ {g}) (s.withDir d ((s.dirs d).withTable i g)) := by
  refine h.move (p := .held)
    (q := .table i) hg h.nodup (fun f => ?_) (fun f => ?_) fun r h1 h2 f => ?_
  · simp only [At, Set.mem_sdiff, Set.mem_singleton_iff, and_comm]
  · simp only [At, withDir_dirs_same, ht, hi, true_and, Pgdir.withTable, Function.update_self,
      Option.some.injEq, reduceCtorEq, or_false, eq_comm]
  · cases r with
    | page v' => simp only [At, withDir_dirs_same, page_withTable ht]
    | table j =>
      have hne : j ≠ i := fun hne => h2 (congrArg Place.table hne)
      simp only [At, withDir_dirs_same, Pgdir.withTable, Function.update_of_ne hne]
    | held => contradiction
    | free => exact Iff.rfl
    | dir => exact Iff.rfl

theorem Owns.swept {vs : List Nat} (h : Owns L d F X s) (hs : Swept d vs s s') (hn : vs.Nodup)
    (hv : ∀ v ∈ vs, v < USERPAGES ∧ (s.dirs d).has (v / NPTENTRIES)) : Owns L d F X s' := by
  have hfr : ∀ f, f ∈ (s.dirs d).frames vs ↔ ∃ v ∈ vs, At d X s (.page v) f := by
    intro f
    rw [mem_frames]
    constructor
    · rintro ⟨v, hm, e, he, hf⟩
      exact ⟨v, hm, (hv v hm).1, e, page_eq_some.2 ⟨(hv v hm).2, he⟩, hf⟩
    · rintro ⟨v, hm, -, e, he, hf⟩
      exact ⟨v, hm, e, (page_eq_some.1 he).2, hf⟩
  refine h.regroup (q := .free) (G := { f | f ∈ (s.dirs d).frames vs }) ?_ ?_ fun r f => ?_
  · intro f hf
    obtain ⟨v, -, hp⟩ := (hfr f).1 hf
    exact (h.all f).2 ⟨.page v, hp⟩
  · rw [hs.freelist, List.nodup_append]
    refine ⟨?_, h.nodup, ?_⟩
    · rw [List.nodup_reverse]
      refine nodup_frames hn fun v hvm w hwm e e' he he' hf => ?_
      have hat : At d X s (.page v) e.frame :=
        ⟨(hv v hvm).1, e, page_eq_some.2 ⟨(hv v hvm).2, he⟩, rfl⟩
      have hat' : At d X s (.page w) e.frame :=
        ⟨(hv w hwm).1, e', page_eq_some.2 ⟨(hv w hwm).2, he'⟩, hf.symm⟩
      cases h.one _ _ _ hat hat'
      rfl
    · rintro f hf g hg rfl
      obtain ⟨v, -, hp⟩ := (hfr f).1 (List.mem_reverse.1 hf)
      cases h.one .free (.page v) f hg hp
  · have hother : At d X s r f → (∀ v ∈ vs, r ≠ .page v) → f ∉ (s.dirs d).frames vs := by
      intro ha hr hm
      obtain ⟨v, hvs, hp⟩ := (hfr f).1 hm
      exact hr v hvs (h.one r (.page v) f ha hp)
    cases r with
    | free =>
      simp only [At, hs.freelist, List.mem_append, List.mem_reverse, and_true]
      constructor
      · rintro (hm | hf)
        · exact .inl hm
        · exact .inr ⟨hother hf (by simp), hf⟩
      · rintro (hm | ⟨-, hf⟩)
        · exact .inl hm
        · exact .inr hf
    | page v =>
      by_cases hm : v ∈ vs
      · constructor
        · rintro ⟨-, e, he, -⟩
          rw [hs.page_of_mem hm] at he
          cases he
        · rintro (⟨-, he⟩ | ⟨hf, ha⟩)
          · cases he
          · exact absurd ((hfr f).2 ⟨v, hm, ha⟩) hf
      · simp only [reduceCtorEq, and_false, false_or]
        have hsame : At d X s' (.page v) f ↔ At d X s (.page v) f := by
          simp only [At, hs.page_of_not_mem hm]
        rw [hsame]
        exact ⟨fun ha => ⟨hother ha fun w hw he => hm (by cases he; exact hw), ha⟩, fun ha => ha.2⟩
    | table i =>
      simp only [At, hs.tables, reduceCtorEq, and_false, false_or]
      exact ⟨fun ha => ⟨hother ha (by simp), ha⟩, fun ha => ha.2⟩
    | held =>
      simp only [reduceCtorEq, and_false, false_or]
      exact ⟨fun ha => ⟨hother ha (by simp), ha⟩, fun ha => ha.2⟩
    | dir =>
      simp only [reduceCtorEq, and_false, false_or]
      exact ⟨fun ha => ⟨hother ha (by simp), ha⟩, fun ha => ha.2⟩

theorem Owns.not_held (h : Owns L d F X s) (hf : f ∈ s.freelist) : f ∉ X := fun hm => by
  cases h.one .free .held f hf hm

end Owns

/-! ## A new page -/

/-- Outside `d` nothing has changed but for frames that were free. -/
structure Elsewhere (d : Frame) (s s' : St) : Prop where
  others : ∀ d', d' ≠ d → s'.dirs d' = s.dirs d'
  free : s'.freelist <:+ s.freelist
  data : ∀ f, f ∉ s.freelist → s'.data f = s.data f
  procs : s'.procs = s.procs
  tasks : s'.tasks = s.tasks
  ftable : s'.ftable = s.ftable

theorem Elsewhere.refl (d : Frame) (s : St) : Elsewhere d s s :=
  ⟨fun _ _ => rfl, List.suffix_rfl, fun _ _ => rfl, rfl, rfl, rfl⟩

theorem Elsewhere.trans {s'' : St} (h : Elsewhere d s s') (h' : Elsewhere d s' s'') :
    Elsewhere d s s'' where
  others d' hd := (h'.others d' hd).trans (h.others d' hd)
  free := h'.free.trans h.free
  data f hf := (h'.data f fun hf' => hf (h.free.subset hf')).trans (h.data f hf)
  procs := h'.procs.trans h.procs
  tasks := h'.tasks.trans h.tasks
  ftable := h'.ftable.trans h.ftable

/-- `d` has more tables besides. -/
structure Extends (d : Frame) (s s' : St) : Prop extends Elsewhere d s s' where
  tables : ∀ i, (s.dirs d).has i → (s'.dirs d).tables i = (s.dirs d).tables i

theorem Extends.refl (d : Frame) (s : St) : Extends d s s := ⟨.refl d s, fun _ _ => rfl⟩

theorem Extends.trans {s'' : St} (h : Extends d s s') (h' : Extends d s' s'') :
    Extends d s s'' := by
  refine ⟨h.toElsewhere.trans h'.toElsewhere, fun i hi => ?_⟩
  have h1 := h.tables i hi
  rw [h'.tables i (by unfold Pgdir.has; rw [h1]; exact hi), h1]

theorem Extends.missed (d : Frame) (s : St) : Extends d s s.missed :=
  ⟨⟨fun _ _ => rfl, List.suffix_rfl, fun _ _ => rfl, rfl, rfl, rfl⟩, fun _ _ => rfl⟩

theorem Extends.filled (hfs : s.freelist = f :: fs) (b : Page) :
    Extends d s ((s.took fs).withData f b) := by
  have hf : f ∈ s.freelist := by rw [hfs]; exact List.mem_cons_self
  refine ⟨⟨fun _ _ => rfl, ?_, fun g hg => ?_, rfl, rfl, rfl⟩, fun _ _ => rfl⟩
  · rw [hfs]
    exact List.suffix_cons f fs
  · exact Function.update_of_ne (fun he : g = f => hg (he ▸ hf)) _ _

section

variable {l : Site} {F X : Set Frame} {E : Panic → Prop}

theorem wp_kalloc (Q : Option Frame → St → Prop) :
    wp kalloc Q E s ↔ (∀ f fs, s.gives = true → s.freelist = f :: fs → Q (some f) (s.took fs)) ∧
      (s.gives = false → Q none s.missed) := by
  unfold kalloc St.gives
  rw [wp_bind, wp_get]
  cases s.plan.headD true <;> cases hf : s.freelist <;> simp [St.took, St.missed, hf]

/-- `walkpgdir` with `alloc` fails only if there is no frame for a table. -/
theorem alone_walkpgdir (hl : l ≠ .plain) (h : Owns L d F X s) (hv : v / NPTENTRIES < NPDENTRIES) :
    alone (Given l) (walkpgdir d v true)
      (fun b s' c => (b = true ∧ c ∧ Owns L d F X s' ∧ Extends d s s' ∧
        (s'.dirs d).has (v / NPTENTRIES) ∧
          (∀ w, (s'.dirs d).page w = (s.dirs d).page w) ∧ s'.data = s.data) ∨
        (b = false ∧ (c ↔ l ≠ .table) ∧ s' = s.missed)) E s := by
  unfold walkpgdir
  rw [alone_bind, alone_act hl]
  simp only [wp_dir]
  split
  case isTrue ht => exact .inl ⟨rfl, ⟨trivial, trivial⟩, h, .refl d s, ht, fun _ => rfl, rfl⟩
  case isFalse ht =>
    have hnone : (s.dirs d).tables (v / NPTENTRIES) = none := by simpa using ht
    rw [if_pos trivial, alone_step]
    unfold newTable
    rw [wp_bind, wp_kalloc]
    constructor
    · intro t fs hgive hfs
      refine .inl ⟨rfl, ⟨trivial, fun _ => hgive⟩, ?_, ?_, ?_, fun w => ?_, rfl⟩
      · have hown := (h.take hfs).table (Set.mem_insert t X) hv hnone
        have hX : insert t X \ {t} = X :=
          Set.insert_sdiff_self_of_notMem (h.not_held (by rw [hfs]; exact List.mem_cons_self))
        rwa [hX] at hown
      · refine ⟨⟨fun d' hd => ?_, ?_, fun _ _ => rfl, rfl, rfl, rfl⟩, fun i hi => ?_⟩
        · exact withDir_dirs_ne _ _ _ hd
        · rw [hfs]
          exact List.suffix_cons t fs
        · have hne : i ≠ v / NPTENTRIES := by
            rintro rfl
            rw [Pgdir.has, hnone] at hi
            cases hi
          simp [Pgdir.withTable, hne]
      · simp [Pgdir.has, Pgdir.withTable]
      · simp only [withDir_dirs_same, took_dirs, page_withTable hnone]
    · intro hno
      refine .inr ⟨rfl, ?_, rfl⟩
      simp only [Given, hno, Bool.false_eq_true, imp_false, true_and, ne_eq, eq_comm]

/-- Page `v` has become `e`. -/
structure Put (d : Frame) (v : Nat) (e : Pte) (s s' : St) : Prop where
  extends_ : Extends d s s'
  page : (s'.dirs d).page v = some e
  rest : ∀ w, w ≠ v → (s'.dirs d).page w = (s.dirs d).page w
  data : s'.data = s.data

/-- `mappages` of a held frame fails only if there is no frame for a table, and then the frame is
still held. -/
theorem alone_mappages (hl : l ≠ .plain) {e : Pte} (h : Owns L d F X s) (he : e.frame ∈ X)
    (hv : v < USERPAGES) (hp : (s.dirs d).page v = none) :
    alone (Given l) (mappages d v e)
      (fun b s' c => (b = true ∧ c ∧ Owns L d F (X \ {e.frame}) s' ∧ Put d v e s s') ∨
        (b = false ∧ (c ↔ l ≠ .table) ∧ s' = s.missed)) E s := by
  unfold mappages
  rw [alone_bind]
  have hdir : v / NPTENTRIES < NPDENTRIES := by
    simp only [USERPAGES, KERNBASE, PGSIZE, NPTENTRIES, NPDENTRIES] at *
    omega
  refine alone_mono (alone_walkpgdir hl h hdir) fun b s1 c hc => ?_
  rcases hc with ⟨rfl, hc, hown, hext, hhas, hpage, hdata⟩ | ⟨rfl, hc, rfl⟩
  · have hnone : (s1.dirs d).ptes v = none := by rw [← page_of_table hhas, hpage, hp]
    simp only [if_true, alone_bind, alone_act hl, putPte, wp_bind, wp_dir, hnone,
      Option.isSome_none, Bool.false_eq_true, if_false]
    refine .inl ⟨rfl, ⟨hc, trivial, trivial⟩, hown.map he hv hhas hnone, ?_⟩
    refine ⟨hext.trans ⟨⟨fun d' hd => withDir_dirs_ne _ _ _ hd, List.suffix_rfl, fun _ _ => rfl,
      rfl, rfl, rfl⟩, fun i _ => by simp⟩, ?_, fun w hw => ?_, hdata⟩
    · rw [withDir_dirs_same, page_of_table (by exact hhas), withPte_ptes_same]
    · rw [← hpage w]
      simp only [Pgdir.page, withDir_dirs_same, withPte_tables, withPte_ptes_ne _ _ _ hw]
  · rw [if_neg Bool.false_ne_true]
    exact .inr ⟨rfl, (and_iff_left trivial).trans hc, rfl⟩

end

end Os4.Uvm
