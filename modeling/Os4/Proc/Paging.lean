import Mathlib.Tactic.Abel
import Os4.Proc.Owners
/-!
# vm.c keeps the ledger

| here | there |
| --- | --- |
| `memory L strict` | the ledger, as rules for threads |
| `Fit S sz` | `S` maps the pages below `sz`, the last one perhaps not, and no others below `KERNBASE` |
| `safe_*` | what a function of kalloc.c or vm.c takes and leaves |

With `strict` the rules also say that a call of `exec` by a process that exists meets no `panic` and
that `loaduvm` stores to user pages only, as long as its steps are `Mild`. Without, every step is
allowed and every `panic`.
-/
namespace Os4.Vm

open Prog
open Multiset (singleton_add mem_cons_self cons_add cons_swap zero_le)

/-- What `exec` relies on. In the last case `uva2ka` does not check what `walkpgdir` returns. -/
def Mild (l : Caller × Point) (s : St) : Prop :=
  match l.2 with
  -- if there was no memory for the table of the page before, there is none for this page either
  | .page d v => l.1 = .exec → s.freelist ≠ [] → v = 0 ∨ ((s.dirs d).page (v - 1)).isSome
  -- with `filesz ≤ memsz` the end is so unless `addr + memsz` wraps around
  | .segment d addr memsz filesz => addr % PGSIZE = 0 ∧
    (filesz = 0 ∨ addr + filesz ≤ (addr + memsz) % 2 ^ 32 ∧
      ((s.dirs d).page ((addr + filesz - 1) / PGSIZE)).isSome)
  | .uva d v => l.1 = .exec → ((s.dirs d).tables (v / NPTENTRIES)).isSome
  | _ => True

instance (l : Caller × Point) (s : St) : Decidable (Mild l s) := by
  unfold Mild
  split <;> infer_instance

/-- The entry that a step clears. -/
def Point.clears : Point → Option Role
  | .clear d v => some (.page d v)
  | .unstack q => some (.kstack q)
  | _ => none

/-- It is clear. -/
def Point.Cleared : Point → St → Prop
  | .clear d v, s => (s.dirs d).page v = none
  | .unstack q, s => (s.procs q).kstack = none
  | _, _ => True

/-- `loaduvm` stores to a user page. -/
def InUser (l : Caller × Point) (s : St) : Prop :=
  match l.2 with
  | .load d va => va < KERNBASE ∧ ∃ f, (s.dirs d).page (va / PGSIZE) = some (f, true)
  | _ => True

def memory (L : Layout) (strict : Prop) :
    Rules (Fin NPROC → Option Job) Tok St Panic (Caller × Point) where
  inv _ M s := Ledger L M s
  allowed l s := strict → Mild l s
  keeps l s s' := (strict → InUser l s) ∧ l.2.Cleared s'
  fine l e := strict → l.1 = .exec → l.2 = .enter ∧ e = .disabled
  debt := Role
  fade := Tok.fading
  due l := l.2.clears.elim 0 ({·})

/-- The entries that are about to be cleared. -/
def fades (A : Multiset Tok) : Multiset Role := A.filterMap Tok.fading

variable {L : Layout} {strict : Prop} {P : (Fin NPROC → Option Job) → Prop} {w : Caller} {α : Type}
  {A B M : Multiset Tok}
  {Q : α → Multiset Tok → Prop} {s : St} {d f src : Frame} {S : Space} {h : Holder} {n v : Nat}
  {u : Bool} {E : Panic → Prop}

/-- The thread takes the tokens `A` and leaves what `Q` says. -/
abbrev Trades (L : Layout) (strict : Prop) (P : (Fin NPROC → Option Job) → Prop) (t : Code α)
    (A : Multiset Tok) (Q : α → Multiset Tok → Prop) : Prop := Safe (memory L strict) P t A Q

/-- It gives back what it takes. -/
abbrev Borrows (L : Layout) (strict : Prop) (P : (Fin NPROC → Option Job) → Prop) (t : Code α)
    (A : Multiset Tok) : Prop :=
  Trades L strict P t A fun _ B => B = A

variable {m : VmM α}

/-- A step that clears no entry. -/
theorem safe_point {x : Point} (hx : ∀ s s', InUser (w, x) s ∧ x.Cleared s') (hc : x.clears = none)
    (hm : ∀ M s, Ledger L (A + M) s →
    m.wp (fun a s' => ∃ B, Ledger L (B + M) s' ∧ Q a B ∧
      fades B ≤ fades A) (fun _ => strict → w ≠ .exec) s) :
    Trades L strict P (.step (w, x) m) A Q := by
  refine Safe.step fun _ M s _ hL _ => wp_imp (hm M s hL) (fun _ s' ⟨B, hB, hQ, hle⟩ =>
      ⟨⟨fun _ => (hx s s').1, (hx s s').2⟩, B, hB, ?_, hQ⟩)
    fun _ he hs hw => absurd hw (he hs)
  show fades B + x.clears.elim 0 _ ≤ _
  rw [hc, Option.elim_none, add_zero]
  exact hle

theorem safe_act (hm : ∀ M s, Ledger L (A + M) s →
    m.wp (fun a s' => ∃ B, Ledger L (B + M) s' ∧ Q a B ∧
      fades B ≤ fades A) (fun _ => strict → w ≠ .exec) s) :
    Trades L strict P (act w m) A Q := safe_point (fun _ _ => ⟨trivial, trivial⟩) rfl hm

theorem safe_one {k : Tok} (hm : ∀ M s, Ledger L (k ::ₘ M) s →
    m.wp (fun a s' => ∃ B, Ledger L (B + M) s' ∧ Q a B ∧
      fades B ≤ fades {k}) (fun _ => strict → w ≠ .exec) s) :
    Trades L strict P (act w m) {k} Q :=
  safe_act fun M s hL => hm M s (by rwa [singleton_add] at hL)

theorem trade (hA : ∀ M s, Ledger L (A + M) s → Ledger L (B + M) s) (hle : fades B ≤ fades A) :
    Entails (memory L strict) P A B :=
  ⟨fun _ M s _ hL => hA M s hL, hle⟩

theorem safe_read (hm : ∀ s, ∃ a, m s = .ok (a, s)) : Borrows L strict P (act w m) A := by
  refine safe_act fun M s hL => ?_
  obtain ⟨a, ha⟩ := hm s
  rw [wp_run ha]
  exact ⟨A, hL, rfl, le_rfl⟩

/-- Elsewhere than in `exec` a `panic` is not our concern. -/
theorem safe_throw {e : Panic} : Trades L strict P (act .other (throw e : VmM α)) A Q :=
  safe_act fun M s _ => by
    rw [wp_throw]
    exact fun _ hw => nomatch hw

/-! ## kalloc.c -/

theorem wp_kalloc {Q : Option Frame → St → Prop} (hL : Ledger L M s)
    (hnone : s.freelist = [] → Q none s)
    (hsome : ∀ f fs, s.freelist = f :: fs → Ledger L M (s.withFree fs) →
      Fresh L M (s.withFree fs) f → Q (some f) (s.withFree fs)) :
    kalloc.wp Q E s := by
  unfold kalloc
  rw [wp_bind, wp_get]
  cases hfl : s.freelist with
  | nil => exact hnone hfl
  | cons f fs =>
    obtain ⟨hL', hf⟩ := hL.pop hfl
    exact hsome f fs hfl hL' hf

theorem wp_kfree {Q : Unit → St → Prop} (hL : Ledger L M s) (hf : Fresh L M s f)
    (hQ : Ledger L M (s.withFree (f :: s.freelist)) → Q () (s.withFree (f :: s.freelist))) :
    (kfree L f).wp Q E s := by
  unfold kfree
  rw [if_neg (not_or.2 ⟨Nat.not_lt.2 hf.1.1, Nat.not_le.2 hf.1.2⟩), wp_modify]
  exact hQ (hL.push hf)

def heldOf : Option Frame → Multiset Tok
  | none => 0
  | some f => {.held f}

theorem safe_kalloc : Trades L strict P (act w kalloc) 0 fun r B => B = heldOf r := by
  refine safe_act fun M s hL => ?_
  rw [zero_add] at hL
  refine wp_kalloc hL (fun _ => ⟨0, by rwa [zero_add], rfl, zero_le _⟩) fun f fs _ hL' hf =>
    ⟨_, ?_, rfl, zero_le _⟩
  rw [heldOf, singleton_add]
  exact hL'.hold hf

theorem safe_kfree {x : Point} (hx : ∀ s s', InUser (w, x) s ∧ x.Cleared s')
    (hc : x.clears = none) :
    Trades L strict P (.step (w, x) (kfree L f)) {.held f} fun _ B => B = 0 := by
  refine safe_point hx hc fun M s hL => ?_
  rw [singleton_add] at hL
  obtain ⟨hL', hf⟩ := hL.unhold
  exact wp_kfree hL' hf fun hL'' => ⟨0, by rwa [zero_add], rfl, zero_le _⟩

/-! ## Page directories -/

theorem safe_dir : Trades L strict P (act w (dir d)) {.space d h S none} fun r B =>
    r = S ∧ B = {.space d h S none} := by
  refine safe_act fun M s hL => ⟨_, hL, ⟨?_, rfl⟩, le_rfl⟩
  rw [singleton_add] at hL
  exact (hL.spaces.space _ _ _ _ (mem_cons_self ..)).1

theorem safe_walk : Trades L strict P (walkpgdir w d v false) {.space d h S none} fun r B =>
    r = (S.tables (v / NPTENTRIES)).isSome ∧ B = {.space d h S none} := by
  refine safe_dir.bind fun S' B hS => ?_
  obtain ⟨rfl, rfl⟩ := hS
  split
  · rename_i ht
    exact .ret ⟨ht.symm, rfl⟩
  · rename_i ht
    exact .ret ⟨(Bool.eq_false_of_not_eq_true ht).symm, rfl⟩

theorem safe_walk_any : Borrows L strict P (walkpgdir w d v false) A := by
  refine (safe_read fun s => ⟨s.dirs d, rfl⟩).bind fun S' B hB => ?_
  subst hB
  split
  · exact .ret rfl
  · exact .ret rfl

theorem safe_walk_alloc : Trades L strict P (walkpgdir w d v true) {.space d h S none} fun r B =>
    ∃ S', B = {.space d h S' none} ∧ (∀ v', S'.page v' = S.page v') ∧
      (r = true → (S'.tables (v / NPTENTRIES)).isSome) := by
  refine safe_dir.bind fun S' B hS => ?_
  obtain ⟨rfl, rfl⟩ := hS
  split
  · rename_i ht
    exact .ret ⟨S', rfl, fun _ => rfl, fun _ => ht⟩
  · rename_i ht
    have hnone : S'.tables (v / NPTENTRIES) = none := by simpa using ht
    refine safe_one fun M s hL => ?_
    unfold newTable
    rw [wp_bind]
    refine wp_kalloc hL (fun _ => ?_) fun t fs _ hL' ht => ?_
    · rw [wp_pure]
      refine ⟨_, ?_, ⟨S', rfl, fun _ => rfl, nofun⟩, zero_le _⟩
      rw [singleton_add]
      exact hL
    · have hS := (hL'.spaces.space _ _ _ _ (mem_cons_self ..)).1
      simp only [dir, setDir, wp_bind, wp_get, wp_pure, wp_modify]
      rw [hS]
      refine ⟨{.space d h (S'.withTable (v / NPTENTRIES) t) none}, ?_,
        ⟨_, rfl, page_withTable hnone, fun _ => ?_⟩, zero_le _⟩
      · rw [singleton_add]
        exact hL'.addTable ht hnone
      · rw [withTable_self]
        rfl

/-- One page; a frame that is not mapped is lost. -/
theorem safe_mappages (hv : strict → w = .exec → S.page v = none) :
    Trades L strict P (mappages w d v f u) ({.space d h S none} + {.held f}) fun r B => ∃ S', B =
      {.space d h S' none} ∧
      (r = true → ∀ v', S'.page v' = if v' = v then some (f, u) else S.page v') ∧
      (r = false → ∀ v', S'.page v' = S.page v') := by
  refine safe_walk_alloc.seq rfl fun r B hB => ?_
  obtain ⟨S', rfl, hpages, htable⟩ := hB
  cases r with
  | false =>
    refine Safe.entails (.ret ⟨S', rfl, by simp, fun _ => hpages⟩)
      (trade (fun M s hL => ?_) (zero_le _))
    simp only [cons_add, singleton_add] at hL ⊢
    rw [cons_swap] at hL
    exact hL.unhold.1
  | true =>
    obtain ⟨t, ht⟩ := Option.isSome_iff_exists.1 (htable rfl)
    have hpte : ∀ v' e, (S'.withPte v e).page v' = if v' = v then e else S.page v' := fun v' e => by
      rw [page_withPte, ht, Option.bind_some, hpages]
    refine Safe.bind (Q := fun _ B => B = {.space d h (S'.withPte v (some (f, u))) none})
      (safe_act fun M s hL => ?_) fun _ B hB => ?_
    · simp only [cons_add, singleton_add] at hL
      rw [cons_swap] at hL
      obtain ⟨hL', hf⟩ := hL.unhold
      have hS := (hL'.spaces.space _ _ _ _ (mem_cons_self ..)).1
      unfold putPte
      simp only [dir, setDir, wp_bind, wp_get, wp_pure]
      rw [hS]
      split
      · rename_i hsome
        rw [wp_throw]
        intro hs hw
        have := hpages v
        rw [hv hs hw, Space.page, ht, Option.bind_some] at this
        rw [this] at hsome
        cases hsome
      · rw [wp_modify]
        refine ⟨_, ?_, rfl, zero_le _⟩
        rw [singleton_add]
        exact hL'.addPte hf
    · subst hB
      exact .ret ⟨_, rfl, fun _ v' => hpte v' _, by simp⟩

theorem safe_mapKernel : ∀ {is : List Nat} {S : Space}, Trades L strict P (mapKernel w d is)
    {.space d h S none} fun _ B =>
    ∃ S', B = {.space d h S' none} ∧ ∀ v, S'.page v = S.page v
  | [], S => .ret ⟨S, rfl, fun _ => rfl⟩
  | i :: is, S => by
    refine safe_walk_alloc.bind fun r B hB => ?_
    obtain ⟨S', rfl, hpages, -⟩ := hB
    cases r with
    | false => exact .ret ⟨S', rfl, hpages⟩
    | true =>
      refine safe_mapKernel.mono fun _ B hB => ?_
      obtain ⟨S'', rfl, hpages'⟩ := hB
      exact ⟨S'', rfl, fun v => (hpages' v).trans (hpages v)⟩

/-- A page directory that only the call has. -/
def newSpace (R : Space → Prop) : Option Frame → Multiset Tok → Prop
  | none, B => B = 0
  | some d, B => ∃ S, B = {.space d .call S none} ∧ R S

theorem safe_newDir : Trades L strict P (act w newDir) 0
    (newSpace fun S => ∀ v, S.page v = none) := by
  refine safe_act fun M s hL => ?_
  rw [zero_add] at hL
  unfold newDir
  rw [wp_bind]
  refine wp_kalloc hL (fun _ => ⟨0, by rwa [zero_add], rfl, zero_le _⟩) fun d fs _ hL' hd => ?_
  simp only [setDir, wp_bind, wp_modify, wp_pure]
  refine ⟨_, ?_, ⟨.empty, rfl, fun v => rfl⟩, zero_le _⟩
  rw [singleton_add]
  exact hL'.newSpace hd

theorem trade_leak : Entails (memory L strict) P {.space d .call S none} 0 :=
  trade (fun M s hL => by
  rw [singleton_add] at hL
  rw [zero_add]
  exact hL.leak) (zero_le _)

theorem safe_setupkvm : Trades L strict P (setupkvm w) 0
    (newSpace fun S => ∀ v, S.page v = none) := by
  refine safe_newDir.bind fun r B hB => ?_
  cases r with
  | none =>
    cases hB
    exact .ret rfl
  | some d =>
    obtain ⟨S, rfl, hclear⟩ := hB
    refine safe_mapKernel.bind fun ok B hB => ?_
    obtain ⟨S', rfl, hpages⟩ := hB
    cases ok with
    | false => exact Safe.entails (.ret rfl) trade_leak
    | true => exact .ret ⟨S', rfl, fun v => (hpages v).trans (hclear v)⟩

/-! ## Pages that go away -/

theorem safe_pte : Trades L strict P (act w (pte d v)) {.space d h S none} fun r B =>
    r = S.ptes v ∧ B = {.space d h S none} := by
  refine safe_act fun M s hL => ⟨_, hL, ⟨?_, rfl⟩, le_rfl⟩
  rw [singleton_add] at hL
  show (s.dirs d).ptes v = S.ptes v
  rw [(hL.spaces.space _ _ _ _ (mem_cons_self ..)).1]

theorem safe_clearPte : Trades L strict P (.step (w, .clear d v) (clearPte d v))
    {.space d h S (some v)} fun _ B =>
    B = {.space d h (S.withPte v none) none} := by
  refine Safe.step fun _ M s _ hL _ => ?_
  have hL : Ledger L ({.space d h S (some v)} + M) s := hL
  rw [singleton_add] at hL
  unfold clearPte
  simp only [dir, setDir, wp_bind, wp_get, wp_pure, wp_modify]
  rw [(hL.spaces.space _ _ _ _ (mem_cons_self ..)).1]
  refine ⟨⟨fun _ => trivial, ?_⟩, {.space d h (S.withPte v none) none}, ?_, le_rfl, rfl⟩
  · show ((s.withDir d (S.withPte v none)).dirs d).page v = none
    rw [withDir_self, page_withPte, if_pos rfl, Option.bind_fun_none]
  · show Ledger L ({.space d h (S.withPte v none) none} + M) _
    rw [singleton_add]
    exact hL.clearPte

/-- After `kfree(v)` the entry for `v` is cleared by the next step. -/
theorem safe_freePage (hf : S.page v = some (f, u)) : Trades L strict P (freePage L w d v f)
    {.space d h S none} fun _ B =>
    B = {.space d h (S.withPte v none) none} := by
  intro g M s hg hL _
  have hL : Ledger L ({.space d h S none} + M) s := hL
  rw [singleton_add] at hL
  obtain ⟨hL', hfree⟩ := hL.fade hf
  refine wp_kfree hL' hfree fun hL'' =>
    ⟨⟨fun _ => trivial, trivial⟩, {.space d h S (some v)}, ?_, le_rfl, safe_clearPte⟩
  show Ledger L ({.space d h S (some v)} + M) _
  rwa [singleton_add]

theorem safe_deallocLoop {last : Nat} :
    ∀ {fuel v : Nat} {S : Space}, Trades L strict P (deallocLoop L w d last fuel v)
    {.space d h S none} fun _ B => ∃ S', B = {.space d h S' none}
  | 0, _, S => .ret ⟨S, rfl⟩
  | fuel + 1, v, S => by
    unfold deallocLoop
    split
    · refine safe_walk.bind fun r B hB => ?_
      obtain ⟨hr, rfl⟩ := hB
      cases r with
      | false => exact safe_deallocLoop
      | true =>
        obtain ⟨t, ht⟩ := Option.isSome_iff_exists.1 hr.symm
        refine safe_pte.bind fun e B hB => ?_
        obtain ⟨rfl, rfl⟩ := hB
        cases hv : S.ptes v with
        | none => exact safe_deallocLoop
        | some e =>
          have hpage : S.page v = some (e.1, e.2) := by rw [Space.page, ht, Option.bind_some, hv]
          refine (safe_freePage hpage).next fun _ => ?_
          exact safe_deallocLoop
    · exact .ret ⟨S, rfl⟩

variable {oldsz newsz : Nat}

theorem safe_deallocuvm : Trades L strict P (deallocuvm L w d oldsz newsz)
    {.space d h S none} fun _ B =>
    ∃ S', B = {.space d h S' none} := by
  unfold deallocuvm
  split
  · exact .ret ⟨S, rfl⟩
  · exact safe_deallocLoop.bind fun _ B hB => .ret hB

theorem safe_freeTables : ∀ {k n : Nat}, Trades L strict P (freeTables L w d (List.range' n k))
    {.torn d S n} fun _ B =>
    B = {.torn d S (n + k)}
  | 0, n => .ret rfl
  | k + 1, n => by
    rw [List.range'_succ]
    refine Safe.bind (Q := fun r B => r = S ∧ B = {.torn d S n}) (safe_act fun M s hL =>
      ⟨_, hL, ⟨?_, rfl⟩, le_rfl⟩) fun r B hB => ?_
    · rw [singleton_add] at hL
      exact hL.spaces.torn _ _ _ (mem_cons_self ..)
    · obtain ⟨hr, rfl⟩ := hB
      have hnext : Trades L strict P (freeTables L w d (List.range' (n + 1) k))
        {.torn d S (n + 1)} fun _ B =>
          B = {.torn d S (n + (k + 1))} := by
        rw [show n + (k + 1) = n + 1 + k by omega]
        exact safe_freeTables
      rw [hr]
      cases ht : S.tables n with
      | none =>
        refine Safe.entails hnext (trade (fun M s hL => ?_) (zero_le _))
        rw [singleton_add] at hL ⊢
        exact hL.tearNext.1
      | some t =>
        refine Safe.bind (Q := fun _ B => B = {.torn d S (n + 1)})
          (safe_act fun M s hL => ?_) fun _ B hB => ?_
        · rw [singleton_add] at hL
          obtain ⟨hL', hfree⟩ := hL.tearNext
          exact wp_kfree hL' (hfree t ht) fun hL'' => ⟨_, by rwa [singleton_add], rfl, zero_le _⟩
        · subst hB
          exact hnext

/-- **`freevm` gives everything back.** -/
theorem safe_freevm : Trades L strict P (freevm L w (some d)) {.space d .call S none} fun _ B =>
    B = 0 := by
  unfold freevm
  generalize NPDENTRIES = n
  refine safe_deallocuvm.bind fun _ B hB => ?_
  obtain ⟨S', rfl⟩ := hB
  rw [List.range_eq_range']
  refine (Safe.entails (safe_freeTables (S := S') (n := 0))
    (trade (fun M s hL => ?_) (zero_le _))).next fun _ => ?_
  · rw [singleton_add] at hL ⊢
    exact hL.tear
  · refine safe_one fun M s hL => ?_
    obtain ⟨hL', hfree⟩ := hL.untorn
    exact wp_kfree hL' hfree fun hL'' => ⟨0, by rwa [zero_add], rfl, zero_le _⟩

/-! ## Pages that come -/

/-- The pages below `n` are there, the last one perhaps not, and no others. -/
def Filled (S : Space) (n : Nat) : Prop := ∀ v < 524288,
  (v < n → (v + 1 = n ∧ S.page v = none) ∨ ∃ f, S.page v = some (f, true)) ∧
  (n ≤ v → S.page v = none)

/-- If a page is there, so are those below it. -/
theorem Filled.below {t : Nat} (hS : Filled S n) (ht : t < 524288)
    (hpage : (S.page t).isSome) (hv : v ≤ t) :
    ∃ f, S.page v = some (f, true) := by
  have hlt : t < n := by
    by_contra hge
    rw [(hS t ht).2 (Nat.le_of_not_lt hge)] at hpage
    cases hpage
  rcases (hS v (by omega)).1 (by omega) with ⟨hlast, hnone⟩ | huser
  · rw [show v = t by omega] at hnone
    rw [hnone] at hpage
    cases hpage
  · exact huser

/-- One page more, if the last one is there. -/
theorem Filled.next {S' : Space} {e : Option (Frame × Bool)} (hS : Filled S v)
    (hlast : v = 0 ∨ (S.page (v - 1)).isSome)
    (he : e = none ∨ ∃ f, e = some (f, true)) (hpages : ∀ v', S'.page v' = if v' = v then e
      else S.page v') : Filled S' (v + 1) := by
  intro v' hv'
  rw [hpages]
  split
  · rename_i heq
    exact ⟨fun _ => he.imp_left fun hnone => ⟨by omega, hnone⟩, fun hge => by omega⟩
  · rename_i hne
    refine ⟨fun hlt => .inr ?_, fun hge => (hS v' hv').2 (by omega)⟩
    obtain ⟨hend, hnone⟩ | huser := (hS v' hv').1 (by omega)
    · rcases hlast with h0 | hlast
      · omega
      · rw [show v - 1 = v' by omega, hnone] at hlast
        cases hlast
    · exact huser

structure Fit (S : Space) (sz : Nat) : Prop where
  below : sz < KERNBASE
  filled : Filled S (npages sz)

/-- A page that `exec` gets is the next one. -/
theorem safe_nextPage : Trades L strict P (.step (w, .page d v) kalloc)
    {.space d h S none} fun r B =>
    B = {.space d h S none} + heldOf r ∧
      (strict → w = .exec → r ≠ none → v = 0 ∨ (S.page (v - 1)).isSome) := by
  refine Safe.step fun _ M s _ hL hmild => ?_
  have hL : Ledger L ({.space d h S none} + M) s := hL
  rw [singleton_add] at hL
  have hmild : strict → w = .exec → s.freelist ≠ [] → v = 0 ∨
      ((s.dirs d).page (v - 1)).isSome := hmild
  rw [(hL.spaces.space _ _ _ _ (mem_cons_self ..)).1] at hmild
  refine wp_kalloc hL (fun _ => ⟨⟨fun _ => trivial, trivial⟩, {.space d h S none} + 0, ?_,
    zero_le _, rfl, fun _ _ hne => absurd rfl hne⟩)
    fun f fs hfl hL' hf => ⟨⟨fun _ => trivial, trivial⟩, {.space d h S none} + {.held f}, ?_,
      zero_le _, rfl, fun hs hw _ => ?_⟩
  · show Ledger L _ s
    rwa [add_zero, singleton_add]
  · show Ledger L ({.space d h S none} + {.held f} + M) _
    rw [add_comm {Tok.space d h S none}, add_assoc, singleton_add, singleton_add]
    exact hL'.hold hf
  · exact hmild hs hw (by rw [hfl]; exact List.cons_ne_nil _ _)

theorem safe_allocLoop : ∀ {n v : Nat} {S : Space}, (strict → w = .exec →
    Filled S v ∧ v + n ≤ 524288) →
    Trades L strict P (allocLoop L w d oldsz newsz (List.range' v n)) {.space d h S none} fun r B =>
      ∃ S', B = {.space d h S' none} ∧ (strict → w = .exec → r ≠ 0 → r = newsz ∧ Filled S' (v + n))
  | 0, v, S, hS => .ret ⟨S, rfl, fun hs hw _ => ⟨rfl, (hS hs hw).1⟩⟩
  | n + 1, v, S, hS => by
    rw [List.range'_succ]
    refine safe_nextPage.bind fun r B hB => ?_
    obtain ⟨rfl, hprev⟩ := hB
    cases r with
    | none =>
      rw [heldOf, add_zero]
      refine safe_deallocuvm.bind fun _ B hB => ?_
      obtain ⟨S', rfl⟩ := hB
      exact .ret ⟨S', rfl, fun _ _ hne => absurd rfl hne⟩
    | some f =>
      have hclear : strict → w = .exec → S.page v = none := fun hs hw => by
        obtain ⟨hfill, hle⟩ := hS hs hw
        exact (hfill v (by omega)).2 (Nat.le_refl v)
      refine (safe_mappages hclear).bind fun ok B hB => ?_
      obtain ⟨S', rfl, hnew, hold⟩ := hB
      refine (safe_allocLoop fun hs hw => ?_).mono fun r B hB => ?_
      · obtain ⟨hfill, hle⟩ := hS hs hw
        refine ⟨?_, by omega⟩
        cases ok with
        | true => exact hfill.next (hprev hs hw nofun) (.inr ⟨f, rfl⟩) (hnew rfl)
        | false =>
          refine hfill.next (hprev hs hw nofun) (.inl rfl) fun v' => ?_
          rw [hold rfl]
          split
          · rename_i heq
            rw [heq, hclear hs hw]
          · rfl
      · obtain ⟨S'', rfl, hdone⟩ := hB
        refine ⟨S'', rfl, fun hs hw hr => ?_⟩
        rw [← Nat.add_assoc, Nat.add_right_comm]
        exact hdone hs hw hr

theorem safe_allocuvm (hfit : strict → w = .exec → newsz < KERNBASE → Fit S oldsz) :
    Trades L strict P (allocuvm L w d oldsz newsz) {.space d h S none} fun r B =>
      ∃ S', B = {.space d h S' none} ∧ (strict → w = .exec → r ≠ 0 → Fit S' r ∧ newsz ≤ r) := by
  unfold allocuvm
  split
  · exact .ret ⟨S, rfl, fun _ _ hr => absurd rfl hr⟩
  · rename_i hk
    have hk : newsz < KERNBASE := Nat.lt_of_not_le hk
    split
    · rename_i hlt
      exact .ret ⟨S, rfl, fun hs hw _ => ⟨hfit hs hw hk, hlt.le⟩⟩
    · rename_i hge
      have hle := npages_mono (Nat.le_of_not_lt hge)
      have hlast := npages_le hk.le
      have hend : npages oldsz + (npages newsz - npages oldsz) = npages newsz := by omega
      refine (safe_allocLoop fun hs hw => ⟨(hfit hs hw hk).filled, by omega⟩).mono fun r B hB => ?_
      obtain ⟨S', rfl, hdone⟩ := hB
      refine ⟨S', rfl, fun hs hw hr => ?_⟩
      obtain ⟨rfl, hfill⟩ := hdone hs hw hr
      exact ⟨⟨hk, hend ▸ hfill⟩, Nat.le_refl _⟩

theorem safe_copyLoop : ∀ {vs : List Nat} {S : Space},
    Trades L strict P (copyLoop L .other d src vs)
    {.space d .call S none} (newSpace fun _ => True)
  | [], S => .ret ⟨S, rfl, trivial⟩
  | v :: vs, S => by
    have hbad : ∀ {S : Space}, Trades L strict P (do freevm L .other (some d); return none)
      {.space d .call S none}
        (newSpace fun _ => True) := fun {S} => safe_freevm.bind fun _ B hB => .ret hB
    refine safe_walk_any.next fun r => ?_
    cases r with
    | false => exact safe_throw
    | true =>
      refine Safe.next (safe_read fun s => ⟨(s.dirs src).ptes v, rfl⟩) fun e => ?_
      cases e with
      | none => exact safe_throw
      | some e =>
        refine safe_kalloc.after (zero_add _).symm fun r => ?_
        cases r with
        | none =>
          rw [heldOf, zero_add]
          exact hbad
        | some f =>
          rw [heldOf, add_comm]
          refine (safe_mappages nofun).bind fun ok B hB => ?_
          obtain ⟨S', rfl, -⟩ := hB
          cases ok with
          | false => exact hbad
          | true => exact safe_copyLoop

theorem safe_copyuvm {sz : Nat} :
    Trades L strict P (copyuvm L .other src sz) 0 (newSpace fun _ => True) := by
  refine safe_setupkvm.bind fun r B hB => ?_
  cases r with
  | none => exact .ret hB
  | some d =>
    obtain ⟨S, rfl, -⟩ := hB
    exact safe_copyLoop

theorem safe_clearpteu (hv : strict → w = .exec → ∃ e, S.page v = some e) :
    Trades L strict P (clearpteu w d v) {.space d h S none} fun _ B => ∃ S', B =
      {.space d h S' none} := by
  refine safe_walk.bind fun r B hB => ?_
  obtain ⟨hr, rfl⟩ := hB
  cases r with
  | false =>
    refine safe_act fun M s _ => ?_
    rw [wp_throw]
    intro hs hw
    obtain ⟨e, he⟩ := hv hs hw
    obtain ⟨t, ht, -⟩ := Option.bind_eq_some_iff.1 he
    rw [ht] at hr
    cases hr
  | true =>
    refine safe_one fun M s hL => ?_
    unfold hidePte
    simp only [dir, setDir, wp_bind, wp_get, wp_pure, wp_modify]
    rw [(hL.spaces.space _ _ _ _ (mem_cons_self ..)).1]
    refine ⟨{.space d h (S.withPte v ((S.ptes v).map fun e => (e.1, false))) none}, ?_,
      ⟨_, rfl⟩, zero_le _⟩
    rw [singleton_add]
    exact hL.hidePte

theorem safe_copyoutLoop {null : Option Bool} :
    ∀ {fuel va len : Nat}, Borrows L strict P (copyoutLoop w d null fuel va len) A
  | 0, _, _ => .ret rfl
  | fuel + 1, va, len => by
    unfold copyoutLoop
    split
    · exact .ret rfl
    · refine Safe.bind (Q := fun _ B => B = A)
        (Safe.step fun _ M s _ hL hmild => ?_) fun r B hB => ?_
      · have hmild : strict → w = .exec →
            ((s.dirs d).tables (va / PGSIZE / NPTENTRIES)).isSome := hmild
        have hle : fades A + 0 ≤ fades A := (add_zero _).le
        unfold uva2ka
        simp only [dir, wp_bind, wp_get, wp_pure]
        split
        · split
          · exact ⟨⟨fun _ => trivial, trivial⟩, A, hL, hle, rfl⟩
          · exact ⟨⟨fun _ => trivial, trivial⟩, A, hL, hle, rfl⟩
        · rename_i hno
          split
          · exact ⟨⟨fun _ => trivial, trivial⟩, A, hL, hle, rfl⟩
          · rw [wp_throw]
            exact fun hs hw => absurd (hmild hs hw) hno
      · rw [hB]
        split
        · exact safe_copyoutLoop
        · exact .ret rfl

end Os4.Vm
