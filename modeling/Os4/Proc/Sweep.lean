import Os4.Proc.Uvm
/-!
# `deallocuvm`: which pages its loop looks at

| here | there |
| --- | --- |
| `sweep` | the values of `a` in the loop of vm.c:259-270 at which there is a page table |
| `Swept` | what the loop has done |
| `Cleared` | the whole range is gone: vm.c:245-248 |

Where `walkpgdir` finds no table the loop adds 4 MB to `a`, whatever `a` is. Unless `a` is a
multiple of 4 MB it comes down in the middle of the next table's part, and the pages before are
passed over. That can happen only before the first table, for from there on the loop goes page by
page and enters each table's part at its start (`mem_sweep`). So the range is cleared exactly if no
page is mapped before the loop comes down at its first table (**`deallocuvm_clears_iff`**).
-/
namespace Os4.Uvm

open Vm (Frame Layout npages NPTENTRIES)
open Prog Thread
open List (mem_cons_of_mem not_mem_nil mem_cons nodup_nil)

variable {L : Layout} {s s' : St} {d : Frame}

/-! ## Steps -/

variable {v' : Nat}

section Fields

variable (s : St) (d f : Frame) (S : Pgdir) (v : Nat) (e : Option Pte)

@[simp] theorem withDir_dirs_same : (s.withDir d S).dirs d = S := by simp [St.withDir]

theorem withDir_dirs_ne {d' : Frame} (h : d' ≠ d) : (s.withDir d S).dirs d' = s.dirs d' := by
  simp [St.withDir, h]

@[simp] theorem withDir_data : (s.withDir d S).data = s.data := rfl

@[simp] theorem free_dirs : (s.free f).dirs = s.dirs := rfl
@[simp] theorem free_freelist : (s.free f).freelist = f :: s.freelist := rfl

theorem free_data_ne {g : Frame} (h : g ≠ f) : (s.free f).data g = s.data g := by simp [St.free, h]

@[simp] theorem withPte_tables : (S.withPte v e).tables = S.tables := rfl
@[simp] theorem withPte_ptes_same : (S.withPte v e).ptes v = e := by simp [Pgdir.withPte]

theorem withPte_ptes_ne (h : v' ≠ v) : (S.withPte v e).ptes v' = S.ptes v' := by
  simp [Pgdir.withPte, h]

end Fields

theorem page_eq_some {S : Pgdir} {e : Pte} :
    S.page v = some e ↔ (S.tables (v / NPTENTRIES)).isSome ∧ S.ptes v = some e := by
  unfold Pgdir.page
  cases S.tables (v / NPTENTRIES) <;> simp

theorem page_of_table {S : Pgdir} (h : (S.tables (v / NPTENTRIES)).isSome) :
    S.page v = S.ptes v := by
  unfold Pgdir.page
  cases ht : S.tables (v / NPTENTRIES) with
  | none => rw [ht] at h; cases h
  | some t => rfl

section Steps

variable {α : Type} {l : Site} {E : Panic → Prop}

theorem alone_act (hl : l ≠ .plain) (m : M α) (Q : α → St → Prop → Prop) :
    alone (Given l) (act m) Q E s ↔ wp m (fun a s' => Q a s' True) E s := by
  rw [act, alone_step, show Given l .plain s = True from eq_true fun h => absurd h.symm hl]

@[simp] theorem wp_dir (Q : Pgdir → St → Prop) : wp (dir d) Q E s ↔ Q (s.dirs d) s := Iff.rfl

@[simp] theorem wp_pte (v : Nat) (Q : Option Pte → St → Prop) :
    wp (pte d v) Q E s ↔ Q ((s.dirs d).ptes v) s := Iff.rfl

@[simp] theorem wp_clearPte (v : Nat) (Q : Unit → St → Prop) :
    wp (clearPte d v) Q E s ↔ Q () (s.withDir d ((s.dirs d).withPte v none)) := Iff.rfl

theorem wp_kfree (f : Frame) (Q : Unit → St → Prop) :
    wp (kfree L f) Q E s ↔ (L.first ≤ f ∧ f < L.last → Q () (s.free f)) ∧
    (¬ (L.first ≤ f ∧ f < L.last) → E .kfree) := by
  have hno : (f < L.first ∨ L.last ≤ f) ↔ ¬ (L.first ≤ f ∧ f < L.last) := by
    rw [not_and_or, Nat.not_le, Nat.not_lt]
  unfold kfree
  rw [wp_ite, hno, not_not]
  exact and_comm

/-- `walkpgdir` without `alloc` only looks. -/
theorem alone_look (hl : l ≠ .plain) (v : Nat) (Q : Bool → St → Prop → Prop) :
    alone (Given l) (walkpgdir d v false) Q E s ↔
    Q ((s.dirs d).tables (v / NPTENTRIES)).isSome s True := by
  unfold walkpgdir
  rw [alone_bind, alone_act hl]
  simp only [wp_dir]
  cases ((s.dirs d).tables (v / NPTENTRIES)).isSome <;> simp

end Steps

/-! ## The loop -/

def sweep (has : Nat → Bool) (last : Nat) : Nat → Nat → List Nat
  | 0, _ => []
  | fuel + 1, v =>
    if v < last then
      if has (v / NPTENTRIES) then v :: sweep has last fuel (v + 1)
      else sweep has last fuel (v + NPTENTRIES)
    else []

variable {last fuel : Nat}

/-- Page `v` is looked at if there is a table for it and the loop has come down at a table at or
before `v`. -/
theorem mem_sweep {has : Nat → Bool} (hf : last ≤ v + fuel) :
    v' ∈ sweep has last fuel v ↔ v' < last ∧ has (v' / NPTENTRIES) ∧
      ∃ k, v + k * NPTENTRIES ≤ v' ∧ has (v / NPTENTRIES + k) := by
  induction fuel generalizing v with
  | zero =>
    simp only [sweep, not_mem_nil, false_iff]
    rintro ⟨h1, -, k, h2, -⟩
    omega
  | succ fuel ih =>
    unfold sweep
    split
    case isFalse hv =>
      simp only [not_mem_nil, false_iff]
      rintro ⟨h1, -, k, h2, -⟩
      omega
    case isTrue hv =>
      split
      case isTrue hh =>
        rw [mem_cons, ih (by omega)]
        constructor
        · rintro (rfl | ⟨h1, h2, k, h3, h4⟩)
          · exact ⟨hv, hh, 0, by omega, hh⟩
          · exact ⟨h1, h2, 0, by omega, hh⟩
        · rintro ⟨h1, h2, k, h3, h4⟩
          by_cases hvv : v' = v
          · exact .inl hvv
          · refine .inr ⟨h1, h2, ?_⟩
            by_cases hb : (v + 1) / NPTENTRIES = v / NPTENTRIES
            · exact ⟨0, by omega, by rw [hb]; exact hh⟩
            · -- the loop enters the next table's part, at its start
              refine ⟨v' / NPTENTRIES - (v + 1) / NPTENTRIES, ?_, ?_⟩
              · simp only [NPTENTRIES] at *
                omega
              · rw [Nat.add_sub_cancel' (Nat.div_le_div_right (by omega))]
                exact h2
      case isFalse hh =>
        rw [ih (by simp only [NPTENTRIES]; omega)]
        refine and_congr_right fun _ => and_congr_right fun _ => ?_
        constructor
        · rintro ⟨k, h3, h4⟩
          refine ⟨k + 1, by rw [Nat.add_mul]; omega, ?_⟩
          rwa [Nat.add_div_right _ (by decide), Nat.succ_add_eq_add_succ] at h4
        · rintro ⟨k, h3, h4⟩
          cases k with
          | zero => exact absurd h4 hh
          | succ k =>
            refine ⟨k, by rw [Nat.add_mul] at h3; omega, ?_⟩
            rwa [Nat.add_div_right _ (by decide), Nat.succ_add_eq_add_succ]

theorem le_of_mem_sweep {has : Nat → Bool} (h : v' ∈ sweep has last fuel v) : v ≤ v' := by
  induction fuel generalizing v with
  | zero => cases h
  | succ fuel ih =>
    unfold sweep at h
    split at h
    · split at h
      · rcases List.mem_cons.1 h with rfl | h
        · exact Nat.le_refl _
        · have := ih h; omega
      · have := ih h; omega
    · cases h

theorem nodup_sweep {has : Nat → Bool} : (sweep has last fuel v).Nodup := by
  induction fuel generalizing v with
  | zero => exact nodup_nil
  | succ fuel ih =>
    unfold sweep
    split
    · split
      · refine List.nodup_cons.2 ⟨fun h => ?_, ih⟩
        have := le_of_mem_sweep h
        omega
      · exact ih
    · exact nodup_nil

/-- The frames of the pages `vs`. -/
def Pgdir.frames (S : Pgdir) (vs : List Nat) : List Frame :=
  vs.filterMap fun v => (S.ptes v).map Pte.frame

variable {vs : List Nat}

theorem mem_frames {S : Pgdir} :
    f ∈ S.frames vs ↔ ∃ v ∈ vs, ∃ e, S.ptes v = some e ∧ e.frame = f := by
  simp [Pgdir.frames]

/-- The pages `vs` of `d`, all of which have a table, have been freed. -/
structure Swept (d : Frame) (vs : List Nat) (s s' : St) : Prop where
  tables : (s'.dirs d).tables = (s.dirs d).tables
  gone : ∀ v ∈ vs, (s'.dirs d).ptes v = none
  kept : ∀ v, v ∉ vs → (s'.dirs d).ptes v = (s.dirs d).ptes v
  others : ∀ d', d' ≠ d → s'.dirs d' = s.dirs d'
  freelist : s'.freelist = ((s.dirs d).frames vs).reverse ++ s.freelist
  data : ∀ f, f ∉ (s.dirs d).frames vs → s'.data f = s.data f
  plan : s'.plan = s.plan
  procs : s'.procs = s.procs
  tasks : s'.tasks = s.tasks
  ftable : s'.ftable = s.ftable

theorem Swept.nil (d : Frame) (s : St) : Swept d [] s s :=
  ⟨rfl, fun _ h => absurd h not_mem_nil, fun _ _ => rfl, fun _ _ => rfl, rfl, fun _ _ => rfl,
    rfl, rfl, rfl, rfl⟩

theorem Swept.skip (h : Swept d vs s s') (hv : (s.dirs d).ptes v = none) (hn : v ∉ vs) :
    Swept d (v :: vs) s s' := by
  have hfr : (s.dirs d).frames (v :: vs) = (s.dirs d).frames vs := by simp [Pgdir.frames, hv]
  constructor
  case gone =>
    intro w hw
    rcases List.mem_cons.1 hw with rfl | hw
    · rw [h.kept w hn, hv]
    · exact h.gone w hw
  case kept => exact fun w hw => h.kept w fun h' => hw (mem_cons_of_mem _ h')
  case freelist => rw [hfr]; exact h.freelist
  case data => rw [hfr]; exact h.data
  case tables => exact h.tables
  case others => exact h.others
  case plan => exact h.plan
  case procs => exact h.procs
  case tasks => exact h.tasks
  case ftable => exact h.ftable

theorem frames_withPte {S : Pgdir} (hn : v ∉ vs) :
    (S.withPte v e).frames vs = S.frames vs := by
  unfold Pgdir.frames
  refine List.filterMap_congr fun w hw => ?_
  rw [withPte_ptes_ne]
  rintro rfl
  exact hn hw

theorem Swept.cons {e : Pte} (hv : (s.dirs d).ptes v = some e) (hn : v ∉ vs)
    (h : Swept d vs ((s.free e.frame).withDir d ((s.dirs d).withPte v none)) s') :
    Swept d (v :: vs) s s' := by
  have hfr : (s.dirs d).frames (v :: vs) = e.frame :: (s.dirs d).frames vs := by
    simp [Pgdir.frames, hv]
  constructor
  case tables => simpa using h.tables
  case gone =>
    intro w hw
    rcases List.mem_cons.1 hw with rfl | hw
    · simpa using h.kept w hn
    · exact h.gone w hw
  case kept =>
    intro w hw
    rw [mem_cons, not_or] at hw
    have hk := h.kept w hw.2
    rwa [withDir_dirs_same, withPte_ptes_ne _ _ _ hw.1] at hk
  case others =>
    intro d' hd
    rw [h.others d' hd, withDir_dirs_ne _ _ _ hd, free_dirs]
  case freelist =>
    have hl := h.freelist
    rw [withDir_dirs_same, frames_withPte hn] at hl
    rw [hl, hfr, List.reverse_cons, List.append_assoc]
    rfl
  case data =>
    intro f hf
    rw [hfr, mem_cons, not_or] at hf
    have hd := h.data f (by rw [withDir_dirs_same, frames_withPte hn]; exact hf.2)
    rw [hd, withDir_data, free_data_ne _ _ hf.1]
  case plan => exact h.plan
  case procs => exact h.procs
  case tasks => exact h.tasks
  case ftable => exact h.ftable

/-- `kfree` takes the frames of the pages `vs`. -/
def Takes (L : Layout) (S : Pgdir) (vs : List Nat) : Prop :=
  ∀ v ∈ vs, ∀ e, S.ptes v = some e → L.first ≤ e.frame ∧ e.frame < L.last

/-- Which of the tables there are. -/
def Pgdir.has (S : Pgdir) (i : Nat) : Bool := (S.tables i).isSome

theorem alone_deallocLoop (hl : l ≠ .plain) :
    alone (Given l) (deallocLoop L d last fuel v)
      (fun _ s' c => c ∧ Takes L (s.dirs d) (sweep (s.dirs d).has last fuel v) ∧
        Swept d (sweep (s.dirs d).has last fuel v) s s')
      (fun _ => ¬ Takes L (s.dirs d) (sweep (s.dirs d).has last fuel v)) s := by
  induction fuel generalizing v s with
  | zero => exact ⟨trivial, fun _ h => absurd h not_mem_nil, .nil d s⟩
  | succ fuel ih =>
    unfold deallocLoop sweep
    split
    case isFalse hv => exact ⟨trivial, fun _ h => absurd h not_mem_nil, .nil d s⟩
    case isTrue hv =>
      rw [alone_bind, alone_look hl]
      cases hh : (s.dirs d).has (v / NPTENTRIES) with
      | false =>
        simp only [show ((s.dirs d).tables (v / NPTENTRIES)).isSome = false from hh,
          Bool.false_eq_true, if_false, true_and]
        exact ih
      | true =>
        simp only [show ((s.dirs d).tables (v / NPTENTRIES)).isSome = true from hh,
          if_true, true_and]
        have hn : v ∉ sweep (s.dirs d).has last fuel (v + 1) := fun h => by
            have := le_of_mem_sweep h
            omega
        rw [alone_bind, alone_act hl, wp_pte]
        cases hp : (s.dirs d).ptes v with
        | none =>
          refine alone_imp ih (fun _ s' c hc =>
            ⟨⟨trivial, hc.1⟩, ?_, hc.2.2.skip hp hn⟩) fun _ he ht => ?_
          · intro w hw
            rcases List.mem_cons.1 hw with rfl | hw
            · intro e he; rw [hp] at he; cases he
            · exact hc.2.1 w hw
          · exact he fun w hw => ht w (mem_cons_of_mem _ hw)
        | some e =>
          simp only [alone_bind, alone_act hl, wp_kfree, wp_clearPte, free_dirs, true_and]
          refine ⟨fun hok => ?_, fun hno ht => hno (ht v List.mem_cons_self e hp)⟩
          -- the rest runs from the state without `v`
          have hhas : ((s.free e.frame).withDir d ((s.dirs d).withPte v none)).dirs d =
              (s.dirs d).withPte v none := by simp
          have hrest : ∀ w ∈ sweep (s.dirs d).has last fuel (v + 1),
              ((s.dirs d).withPte v none).ptes w = (s.dirs d).ptes w :=
            fun w hw => withPte_ptes_ne _ _ _ fun h => hn (h ▸ hw)
          refine alone_imp ih (fun _ s' c hc => ?_) fun _ he ht => ?_
          · rw [hhas] at hc
            obtain ⟨hc1, hc2, hc3⟩ := hc
            refine ⟨hc1, ?_, hc3.cons hp hn⟩
            intro w hw
            rcases List.mem_cons.1 hw with rfl | hw
            · intro e' he'; rw [hp] at he'; cases he'; exact hok
            · intro e' he'; exact hc2 w hw e' (by rw [hrest w hw]; exact he')
          · rw [hhas] at he
            refine he fun w hw e' he' => ht w (mem_cons_of_mem _ hw) e' ?_
            rw [← hrest w hw]
            exact he'

/-! ## The whole range -/

/-- The pages that `deallocuvm(pgdir, oldsz, newsz)` looks at. -/
def Pgdir.sweep (S : Pgdir) (oldsz newsz : Nat) : List Nat :=
  Uvm.sweep S.has (npages oldsz) (npages oldsz - npages newsz) (npages newsz)

variable {oldsz newsz : Nat}

theorem alone_deallocuvm (hl : l ≠ .plain) (h : newsz < oldsz) :
    alone (Given l) (deallocuvm L d oldsz newsz)
      (fun r s' c => c ∧ r = newsz ∧ Takes L (s.dirs d) ((s.dirs d).sweep oldsz newsz) ∧
        Swept d ((s.dirs d).sweep oldsz newsz) s s')
      (fun _ => ¬ Takes L (s.dirs d) ((s.dirs d).sweep oldsz newsz)) s := by
  unfold deallocuvm
  rw [if_neg (by omega), alone_bind]
  exact alone_mono (alone_deallocLoop hl) fun _ s' c hc => ⟨⟨hc.1, trivial⟩, rfl, hc.2⟩

/-- Page `v` starts in `[PGROUNDUP(newsz), oldsz)`. -/
def InRange (newsz oldsz v : Nat) : Prop := npages newsz ≤ v ∧ v < npages oldsz

instance (newsz oldsz v : Nat) : Decidable (InRange newsz oldsz v) :=
  inferInstanceAs (Decidable (_ ∧ _))

/-- The loop comes down at a table at or before page `v`. -/
def Reached (S : Pgdir) (newsz v : Nat) : Prop :=
  ∃ k, npages newsz + k * NPTENTRIES ≤ v ∧ S.has (npages newsz / NPTENTRIES + k)

theorem mem_pgdir_sweep {S : Pgdir} :
    v ∈ S.sweep oldsz newsz ↔ InRange newsz oldsz v ∧ S.has (v / NPTENTRIES) ∧
    Reached S newsz v := by
  unfold Pgdir.sweep
  by_cases hle : npages oldsz ≤ npages newsz + (npages oldsz - npages newsz)
  · rw [mem_sweep hle]
    constructor
    · rintro ⟨h1, h2, k, h3, h4⟩
      exact ⟨⟨by omega, h1⟩, h2, k, h3, h4⟩
    · rintro ⟨h1, h2, h3⟩
      exact ⟨h1.2, h2, h3⟩
  · omega

/-- What vm.c:245-248 promises: the range is unmapped, each frame that was mapped there is on the
free list once more than before, and nothing else has changed. -/
structure Cleared (d : Frame) (newsz oldsz : Nat) (s s' : St) : Prop where
  gone : ∀ v, InRange newsz oldsz v → (s'.dirs d).page v = none
  freed : ∀ v e, InRange newsz oldsz v → (s.dirs d).page v = some e →
    s'.freelist.count e.frame = s.freelist.count e.frame + 1
  once : ∀ f, (∀ v e, InRange newsz oldsz v → (s.dirs d).page v = some e → e.frame ≠ f) →
    s'.freelist.count f = s.freelist.count f
  outside : ∀ v, ¬ InRange newsz oldsz v → (s'.dirs d).page v = (s.dirs d).page v
  others : ∀ d', d' ≠ d → s'.dirs d' = s.dirs d'

/-- No two user pages are in one frame. -/
def Pgdir.Distinct (S : Pgdir) : Prop :=
  ∀ v w e e', v < USERPAGES → w < USERPAGES → S.page v = some e → S.page w = some e' →
  e.frame = e'.frame → v = w

theorem nodup_frames {S : Pgdir} (hn : vs.Nodup)
    (hd : ∀ v ∈ vs, ∀ w ∈ vs, ∀ e e', S.ptes v = some e → S.ptes w = some e' →
      e.frame = e'.frame → v = w) :
    (S.frames vs).Nodup := by
  unfold Pgdir.frames
  induction vs with
  | nil => exact nodup_nil
  | cons v vs ih =>
    obtain ⟨hv, hn⟩ := List.nodup_cons.1 hn
    have ih := ih hn fun a ha b hb => hd a (mem_cons_of_mem _ ha) b (mem_cons_of_mem _ hb)
    cases hp : S.ptes v with
    | none => simpa [hp] using ih
    | some e =>
      rw [List.filterMap_cons_some (by rw [hp]; rfl)]
      refine List.nodup_cons.2 ⟨fun hm => ?_, ih⟩
      obtain ⟨w, hw, e', he', hf⟩ := mem_frames.1 hm
      have := hd v List.mem_cons_self w (mem_cons_of_mem _ hw) e e' hp he' hf.symm
      exact hv (this ▸ hw)

theorem Swept.page_of_not_mem (h : Swept d vs s s') (hv : v ∉ vs) :
    (s'.dirs d).page v = (s.dirs d).page v := by
  unfold Pgdir.page
  rw [h.tables, h.kept v hv]

theorem Swept.page_of_mem (h : Swept d vs s s') (hv : v ∈ vs) : (s'.dirs d).page v = none := by
  unfold Pgdir.page
  rw [h.gone v hv]
  cases (s'.dirs d).tables (v / NPTENTRIES) <;> rfl

/-- **The range is cleared** exactly if `kfree` takes the frames that are mapped there and each of
these pages is reached. -/
theorem deallocuvm_clears_iff {oldsz newsz : Nat} (hlt : newsz < oldsz) (hk : oldsz ≤ KERNBASE)
    (hd : (s.dirs d).Distinct) :
    (∃ s', (deallocuvm L d oldsz newsz).run s = .ok (newsz, s') ∧ Cleared d newsz oldsz s s') ↔
      ∀ v e, InRange newsz oldsz v → (s.dirs d).page v = some e →
        (L.first ≤ e.frame ∧ e.frame < L.last) ∧ Reached (s.dirs d) newsz v := by
  have hrun := alone_deallocuvm (L := L) (d := d) (s := s) (l := .table) (by decide) hlt
  constructor
  · rintro ⟨s', hr, hc⟩ v e hv he
    obtain ⟨-, -, ht, hs⟩ := wp_ok hrun hr
    -- a page that was passed over is still there
    have hm : v ∈ (s.dirs d).sweep oldsz newsz := by
      by_contra hm
      have := hs.page_of_not_mem hm
      rw [hc.gone v hv, he] at this
      cases this
    exact ⟨ht v hm e (page_eq_some.1 he).2, (mem_pgdir_sweep.1 hm).2.2⟩
  · intro h
    have hin : ∀ v e, v ∈ (s.dirs d).sweep oldsz newsz → (s.dirs d).ptes v = some e →
        InRange newsz oldsz v ∧ (s.dirs d).page v = some e := fun v e hv he =>
      ⟨(mem_pgdir_sweep.1 hv).1, page_eq_some.2 ⟨(mem_pgdir_sweep.1 hv).2.1, he⟩⟩
    have htakes : Takes L (s.dirs d) ((s.dirs d).sweep oldsz newsz) := fun v hv e he =>
      (h v e (hin v e hv he).1 (hin v e hv he).2).1
    have hall : ∀ v e, InRange newsz oldsz v → (s.dirs d).page v = some e →
        v ∈ (s.dirs d).sweep oldsz newsz := fun v e hv he =>
      mem_pgdir_sweep.2 ⟨hv, (page_eq_some.1 he).1, (h v e hv he).2⟩
    obtain ⟨r, s', hr, -, hrn, -, hs⟩ :=
      wp_total.1 (wp_imp hrun (fun _ _ hq => hq) fun _ he => he htakes)
    rw [hrn] at hr
    refine ⟨s', hr, ?_⟩
    have huser : ∀ v, InRange newsz oldsz v → v < USERPAGES := fun v hv =>
      Nat.lt_of_lt_of_le hv.2 (Vm.npages_le hk)
    have hnodup : ((s.dirs d).frames ((s.dirs d).sweep oldsz newsz)).Nodup := by
      refine nodup_frames nodup_sweep fun v hv w hw e e' he he' hf => ?_
      exact hd v w e e' (huser v (hin v e hv he).1) (huser w (hin w e' hw he').1) (hin v e hv he).2
        (hin w e' hw he').2 hf
    have hcount : ∀ f, s'.freelist.count f =
        ((s.dirs d).frames ((s.dirs d).sweep oldsz newsz)).count f + s.freelist.count f :=
          fun f => by
      rw [hs.freelist, List.count_append, List.count_reverse]
    constructor
    case gone =>
      intro v hv
      by_cases hm : v ∈ (s.dirs d).sweep oldsz newsz
      · exact hs.page_of_mem hm
      · rw [hs.page_of_not_mem hm]
        cases hp : (s.dirs d).page v with
        | none => rfl
        | some e => exact absurd (hall v e hv hp) hm
    case freed =>
      intro v e hv he
      have hm : e.frame ∈ (s.dirs d).frames ((s.dirs d).sweep oldsz newsz) :=
        mem_frames.2 ⟨v, hall v e hv he, e, (page_eq_some.1 he).2, rfl⟩
      rw [hcount, List.count_eq_one_of_mem hnodup hm, Nat.add_comm]
    case once =>
      intro f hf
      rw [hcount, List.count_eq_zero_of_not_mem, Nat.zero_add]
      intro hm
      obtain ⟨v, hv, e, he, hef⟩ := mem_frames.1 hm
      exact hf v e (hin v e hv he).1 (hin v e hv he).2 hef
    case outside => exact fun v hv => hs.page_of_not_mem fun hm => hv (mem_pgdir_sweep.1 hm).1
    case others => exact hs.others

/-- Frames 1 to 15. -/
def smallLayout : Layout := ⟨1, 16, Nat.one_pos⟩

/-- Page 1024 is mapped, and the first table is missing. -/
def gap : Pgdir :=
  ⟨fun i => if i = 1 then some 2 else none,
    fun v => if v = 1024 then some ⟨3, true, true⟩ else none⟩

def quiet (fl : List Frame) (S : Pgdir) : St :=
  ⟨fl, [], fun _ => .zero, fun _ => S, fun _ => ⟨.live, some 15, some 1, 0, none, fun _ => none⟩,
    fun _ => ⟨0, 0, []⟩, fun _ => ⟨0, .none⟩⟩

theorem page_gap {e : Pte} (h : gap.page v = some e) : v = 1024 ∧ e = ⟨3, true, true⟩ := by
  have hp := (page_eq_some.1 h).2
  unfold gap at hp
  simp only [Option.ite_none_right_eq_some, Option.some.injEq] at hp
  exact ⟨hp.1, hp.2.symm⟩

theorem distinct_gap : gap.Distinct :=
  fun _ _ _ _ _ _ hv hw _ => (page_gap hv).1.trans (page_gap hw).1.symm

/-- `freevm` starts at page 0: whatever is missing, it comes to every page. -/
theorem deallocuvm_clears_gap :
    ∃ s', (deallocuvm smallLayout 1 KERNBASE 0).run (quiet [] gap) = .ok (0, s') ∧
    Cleared 1 0 KERNBASE (quiet [] gap) s' := by
  refine (deallocuvm_clears_iff (by decide) (Nat.le_refl _) distinct_gap).2 fun v e _ he => ?_
  obtain ⟨rfl, rfl⟩ := page_gap he
  exact ⟨by decide, 1, by decide +kernel, by decide +kernel⟩

/-- From page 1 on it passes over page 1024. -/
theorem deallocuvm_passes_over : (gap.Distinct ∧ InRange PGSIZE (1025 * PGSIZE) 1024) ∧
    ∃ s', (deallocuvm smallLayout 1 (1025 * PGSIZE) PGSIZE).run (quiet [] gap) = .ok (PGSIZE, s') ∧
      (s'.dirs 1).page 1024 = some ⟨3, true, true⟩ := by
  refine ⟨⟨distinct_gap, by decide +kernel⟩, ?_⟩
  have h : ((deallocuvm smallLayout 1 (1025 * PGSIZE) PGSIZE).run (quiet [] gap)).toOption.map
      (fun r => (r.1, (r.2.dirs 1).page 1024)) = some (PGSIZE, some ⟨3, true, true⟩) := by
        decide +kernel
  obtain ⟨⟨r, s'⟩, hr, hp⟩ := ok_of_map h
  obtain ⟨rfl, hp⟩ := Prod.mk.injEq _ _ _ _ ▸ hp
  exact ⟨s', hr, hp⟩

end Os4.Uvm
