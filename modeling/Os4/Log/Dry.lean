import Mathlib.Data.Fintype.Card
import Os4.Log.Crash
/-!
# Does the buffer cache run dry? (bio.c:63-97)

`bget` recycles a buffer that is neither `B_BUSY` nor `B_DIRTY`. A logged block stays dirty until it
is installed, so `log.lh.n` buffers are pinned, and `NBUF` is just `LOGSIZE`: what is left is for
the buffers that operations hold and have not logged, and for the log blocks that `commit` reads.

**`dry_iff`**: in every run in which each `bread` of a block that is not cached comes when
`log.lh.n` and the number of held buffers of blocks that are not logged are together below `NBUF`,
and `commit` with `log.lh.n` below `NBUF`, no step ends in panic("bget: no buffers"); and a `bread`
that comes when they are not does. Three operations within their quotas that hold one buffer each
are enough (`runs_dry`).

The invariant is `Pins`: the busy buffers are those that are held, the dirty ones those of the
blocks that are logged and not yet installed.
-/
namespace Os4.Log.Crash

open Function (update update_self)
open Prog (wp_mono wp_imp wp_bind)

variable {g : Geom} {s s' : Sys} {d : Disk} {tr : List Ev} {A : Finset Nat} {p b k : Nat}
  {i : Fin NBUF} {e : Ev}

/-- The held buffers whose block is not logged. -/
def unlogged (s : Sys) : Finset (Fin NBUF) :=
  Finset.univ.filter fun i => (s.held i).isSome = true ∧ (s.bio.buf i).blockno ∉ s.log.block

/-- There is a buffer left for the step. -/
def Room (s : Sys) : Ev → Prop
  | .bread _ b => (∃ i, s.bio.Cached b i) ∨ s.log.block.length + (unlogged s).card < NBUF
  | .writeLog .. => s.log.block.length < NBUF
  | .writeHead _ => s.log.block.length < NBUF
  | .install .. => s.log.block.length < NBUF
  | _ => True

/-- `P` holds at every step of a run. -/
def Along (g : Geom) (d : Disk) (P : Sys → Ev → Prop) : List Ev → Prop
  | [] => True
  | e :: tr => (∀ s, run g d tr = .ok s → P s e) ∧ Along g d P tr

/-! ## What is pinned -/

/-- `install_trans` has come to block `k`. -/
def Installed (s : Sys) (k : Nat) : Prop :=
  (∃ p, s.log.pc p = .commit ∧ s.stage p = .install k) ∨
  k = 0 ∧ ∀ p, s.log.pc p = .commit → ∃ j, s.stage p = .writeLog j

structure Pins (g : Geom) (s : Sys) (A : Finset Nat) : Prop where
  excl : Excl s.log A
  wf : s.bio.WF s.own
  member : ∀ i p m, s.held i = some (p, m) → p ∈ A
  busy : ∀ i, (s.bio.buf i).busy = true ↔ (s.held i).isSome = true
  cached : ∀ i, (s.bio.buf i).busy = true ∨ (s.bio.buf i).dirty = true → ∃ b, s.bio.Cached b i
  out : ∀ b ∈ s.log.block, ¬ g.inLog b
  nodup : s.log.block.Nodup
  pinned : ∃ k, Installed s k ∧ ∀ b, b ∈ s.log.block.drop k ↔ ∃ i, s.bio.Cached b i ∧
    (s.bio.buf i).dirty = true

section

variable (h : Pins g s A)
include h

theorem Pins.idle (hp : s.log.pc p = .commit) : A = ∅ :=
  h.excl.idle (h.excl.commits p (by rw [hp]; rfl))

theorem Pins.no_commit (hp : p ∈ A) (q : Nat) : s.log.pc q ≠ .commit := by
  intro hq
  rw [h.idle hq] at hp
  cases hp

theorem Pins.not_held (hA : A = ∅) (i : Fin NBUF) : s.held i = none := by
  cases hi : s.held i with
  | none => rfl
  | some x =>
    have hmem := h.member i x.1 x.2 hi
    rw [hA] at hmem
    cases hmem

theorem Pins.not_busy (hA : A = ∅) (i : Fin NBUF) : (s.bio.buf i).busy = false := by
  by_contra hb
  have hheld := (h.busy i).1 (by simpa using hb)
  rw [h.not_held hA i] at hheld
  cases hheld

theorem Pins.quiet (hno : ∀ q, s.log.pc q ≠ .commit) (b : Nat) :
    b ∈ s.log.block ↔ ∃ i, s.bio.Cached b i ∧ (s.bio.buf i).dirty = true := by
  obtain ⟨k, ⟨q, hq, -⟩ | ⟨rfl, -⟩, hk⟩ := h.pinned
  · exact absurd hq (hno q)
  · exact hk b

theorem Pins.stage_install (hp : s.log.pc p = .commit) (hst : s.stage p = .install k) (b : Nat) :
    b ∈ s.log.block.drop k ↔ ∃ i, s.bio.Cached b i ∧ (s.bio.buf i).dirty = true := by
  obtain ⟨j, ⟨q, hq, hj⟩ | ⟨rfl, hall⟩, hk⟩ := h.pinned
  · obtain rfl : q = p := h.excl.one q p (by rw [hq]; rfl) (by rw [hp]; rfl)
    rw [hst] at hj
    cases hj
    exact hk b
  · obtain ⟨j, hj⟩ := hall p hp
    rw [hst] at hj
    cases hj

theorem Pins.stage_writeLog (hp : s.log.pc p = .commit) (hst : s.stage p = .writeLog k) (b : Nat) :
    b ∈ s.log.block ↔ ∃ i, s.bio.Cached b i ∧ (s.bio.buf i).dirty = true := by
  obtain ⟨j, ⟨q, hq, hj⟩ | ⟨rfl, -⟩, hk⟩ := h.pinned
  · obtain rfl : q = p := h.excl.one q p (by rw [hq]; rfl) (by rw [hp]; rfl)
    rw [hst] at hj
    cases hj
  · exact hk b

end

/-! ## How many buffers are taken -/

theorem card_dirty_le (hw : s.bio.WF s.own) {l : List Nat}
    (hl : ∀ i, (s.bio.buf i).dirty = true → (s.bio.buf i).blockno ∈ l)
    (hc : ∀ i, (s.bio.buf i).dirty = true → ∃ b, s.bio.Cached b i) :
    (Finset.univ.filter fun i => (s.bio.buf i).dirty = true).card ≤ l.length := by
  refine (Finset.card_le_card_of_injOn (t := l.toFinset) (fun i => (s.bio.buf i).blockno)
    (fun i hi => ?_) fun i hi j hj hij => ?_).trans
    (List.toFinset_card_le l)
  · simpa using hl i (by simpa using hi)
  · obtain ⟨b, hb⟩ := hc i (by simpa using hi)
    obtain ⟨c, hc'⟩ := hc j (by simpa using hj)
    obtain rfl : b = c := hb.2.symm.trans (hij.trans hc'.2)
    exact hw.uniq hb hc'

theorem Pins.logged (h : Pins g s A) (hd : (s.bio.buf i).dirty = true) :
    (s.bio.buf i).blockno ∈ s.log.block := by
  obtain ⟨b, hb⟩ := h.cached i (.inr hd)
  obtain ⟨k, -, hk⟩ := h.pinned
  rw [hb.2]
  exact List.mem_of_mem_drop ((hk b).2 ⟨i, hb, hd⟩)

theorem Pins.card_dirty (h : Pins g s A) :
    (Finset.univ.filter fun i => (s.bio.buf i).dirty = true).card ≤ s.log.block.length :=
  card_dirty_le h.wf (fun _ hd => h.logged hd) fun i hd => h.cached i (.inr hd)

/-- While nobody commits, a buffer is busy or dirty if it is dirty or it is held and its block is
not logged. -/
theorem Pins.taken_iff (h : Pins g s A) (hno : ∀ q, s.log.pc q ≠ .commit) (i : Fin NBUF) :
    ((s.bio.buf i).busy = true ∨ (s.bio.buf i).dirty = true) ↔ (s.bio.buf i).dirty = true ∨
    i ∈ unlogged s := by
  simp only [unlogged, Finset.mem_filter, Finset.mem_univ, true_and]
  constructor
  · rintro (hb | hd)
    · by_cases hd : (s.bio.buf i).dirty = true
      · exact .inl hd
      · refine .inr ⟨(h.busy i).1 hb, fun hmem => hd ?_⟩
        obtain ⟨j, hj, hdj⟩ := (h.quiet hno _).1 hmem
        obtain ⟨b, hi⟩ := h.cached i (.inl hb)
        rw [hi.2] at hj
        rwa [h.wf.uniq hi hj]
    · exact .inl hd
  · rintro (hd | ⟨hheld, -⟩)
    · exact .inr hd
    · exact .inl ((h.busy i).2 hheld)

theorem Pins.taken (h : Pins g s A) (hno : ∀ q, s.log.pc q ≠ .commit) :
    (∀ i, (s.bio.buf i).busy = true ∨ (s.bio.buf i).dirty = true) ↔
    NBUF ≤ s.log.block.length + (unlogged s).card := by
  have hdisj : Disjoint (Finset.univ.filter fun i => (s.bio.buf i).dirty = true) (unlogged s) := by
    refine Finset.disjoint_left.2 fun i hi hu => ?_
    exact (Finset.mem_filter.1 hu).2.2 (h.logged (by simpa using hi))
  have hcard : (Finset.univ.filter fun i => (s.bio.buf i).dirty = true).card =
      s.log.block.length := by
    refine Nat.le_antisymm h.card_dirty ?_
    rw [← List.toFinset_card_of_nodup h.nodup]
    refine (Finset.card_le_card fun b hb => ?_).trans
      (Finset.card_image_le (f := fun i => (s.bio.buf i).blockno))
    obtain ⟨i, hi, hd⟩ := (h.quiet hno b).1 (by simpa using hb)
    exact Finset.mem_image.2 ⟨i, by simpa using hd, hi.2⟩
  have hall : (∀ i, (s.bio.buf i).busy = true ∨ (s.bio.buf i).dirty = true) ↔
      (Finset.univ.filter fun i => (s.bio.buf i).dirty = true) ∪ unlogged s = Finset.univ := by
    simp only [Finset.eq_univ_iff_forall, Finset.mem_union, Finset.mem_filter, Finset.mem_univ,
      true_and, h.taken_iff hno]
  have hle := Finset.card_le_univ ((Finset.univ.filter fun i => (s.bio.buf i).dirty =
    true) ∪ unlogged s)
  rw [Finset.card_union_of_disjoint hdisj, hcard, Fintype.card_fin] at hle
  rw [hall, ← Finset.card_eq_iff_eq_univ, Finset.card_union_of_disjoint hdisj,
    hcard, Fintype.card_fin]
  exact ⟨fun heq => heq.ge, fun hge => Nat.le_antisymm hle hge⟩

theorem Pins.commit_free (h : Pins g s A) (hA : A = ∅) (hlt : s.log.block.length < NBUF) :
    ¬ ∀ i, (s.bio.buf i).busy = true ∨ (s.bio.buf i).dirty = true := by
  intro hall
  have hdirty : (Finset.univ.filter fun i => (s.bio.buf i).dirty = true) = Finset.univ := by
    refine Finset.filter_true_of_mem fun i _ => (hall i).resolve_left ?_
    rw [h.not_busy hA i]
    nofun
  have hcard := h.card_dirty
  rw [hdirty, Finset.card_univ, Fintype.card_fin] at hcard
  omega

/-! ## One step -/

variable {Q : Unit → Sys → Prop}

/-- `held` changes at `i`, and the buffer is not one that is being changed, before or after. -/
theorem own_update {x : Option (Nat × Bool)} {bio : Bio} {log : St} (hx : ∀ q, x ≠ some (q, true))
    (hi : ¬ s.own i) (j : Fin NBUF) :
    Sys.own { s with bio := bio, log := log, held := update s.held i x } j ↔ s.own j := by
  by_cases hj : j = i
  · subst hj
    refine ⟨fun ⟨q, hq⟩ => absurd (by simpa using hq) (hx q), fun h => absurd h hi⟩
  · simp [Sys.own, hj]

theorem pins_bread (h : Pins g s A) (hpc : s.log.pc p = .tx) (b : Nat) : (bread ROOTDEV b).wp
    (fun i bio' => Pins g { s with bio := bio', held := update s.held i (some (p, false)) } A)
    (fun e => e = .noBuffers → ¬ Room s (.bread p b)) s.bio := by
  have hp : p ∈ A := (h.excl.mem p).2 (by rw [hpc]; rfl)
  have hno := h.no_commit hp
  refine wp_imp (bread_wp h.wf b) (fun i bio' ⟨hw, hr⟩ => ?_) fun e he hdry => ?_
  · have hbuf : ∀ j, j ≠ i → bio'.buf j = s.bio.buf j := hr.frame
    refine ⟨h.excl, wf_congr hw (own_update (by simp) (hr.not_own h.wf)), fun j q m hj => ?_,
      fun j => ?_, fun j hj => ?_, h.out,
      h.nodup, 0, .inr ⟨rfl, fun q hq => absurd hq (hno q)⟩, fun c => ?_⟩
    · by_cases hji : j = i
      · subst hji
        obtain ⟨rfl, -⟩ : p = q ∧ false = m := by simpa using hj
        exact hp
      · exact h.member j q m (by simpa [hji] using hj)
    · by_cases hji : j = i
      · subst hji
        simp [hr.busy]
      · simpa [hji, hbuf j hji] using h.busy j
    · by_cases hji : j = i
      · subst hji
        exact ⟨b, hr.cached⟩
      · have hold := h.cached j
        simp only [Bio.Cached, hbuf j hji] at hj ⊢
        exact hold hj
    · show c ∈ s.log.block ↔ _
      rw [h.quiet hno c]
      constructor
      · rintro ⟨j, hc, hd⟩
        exact ⟨j, hr.stays hc hd⟩
      · rintro ⟨j, hc, hd⟩
        exact ⟨j, (hr.dirty_back hd).2 c hc, (hr.dirty_back hd).1⟩
  · rcases he with ⟨rfl, -⟩ | ⟨-, hn, hall⟩
    · cases hdry
    · rintro (⟨j, hj⟩ | hlt)
      · exact hn j hj
      · exact absurd ((h.taken hno).1 hall) (Nat.not_le.2 hlt)

theorem Pins.member_of_holds (h : Pins g s A) (hh : s.holds p i b) :
    p ∈ A ∧ (s.bio.buf i).busy = true := by
  rcases hh.1 with he | he
  · exact ⟨h.member i p _ he, (h.busy i).2 (by rw [he]; rfl)⟩
  · exact ⟨h.member i p _ he, (h.busy i).2 (by rw [he]; rfl)⟩

variable {l : St} {bio' : Bio}

section

variable (h : Pins g s A)
include h

/-- `p`, which holds buffer `i`, changes its contents or its `B_DIRTY`. -/
theorem Pins.hold {m : Bool} (hp : p ∈ A) (hx : Excl l A) (hno : ∀ q, l.pc q ≠ .commit)
    (hbi : (s.bio.buf i).busy = true)
    (hw : bio'.WF (Sys.own { s with bio := bio', log := l, held := update s.held i (some (p, m)) }))
    (hc : ∀ c j, bio'.Cached c j ↔ s.bio.Cached c j)
    (hb : ∀ j, (bio'.buf j).busy = (s.bio.buf j).busy)
    (hout : ∀ b ∈ l.block, ¬ g.inLog b) (hnd : l.block.Nodup)
    (hpin : ∀ c, c ∈ l.block ↔ ∃ j, s.bio.Cached c j ∧ (bio'.buf j).dirty = true)
    (hd : ∀ j, (bio'.buf j).dirty = true → (s.bio.buf j).busy = true ∨ (s.bio.buf j).dirty = true) :
    Pins g { s with bio := bio', log := l, held := update s.held i (some (p, m)) } A := by
  refine ⟨hx, hw, fun j q m' hj => ?_, fun j => ?_, fun j hj => ?_, hout, hnd, 0,
    .inr ⟨rfl, fun q hq => absurd hq (hno q)⟩, fun c => ?_⟩
  · by_cases hji : j = i
    · subst hji
      obtain ⟨rfl, -⟩ : p = q ∧ m = m' := by simpa using hj
      exact hp
    · exact h.member j q m' (by simpa [hji] using hj)
  · show (bio'.buf j).busy = true ↔ _
    rw [hb j]
    by_cases hji : j = i
    · subst hji
      simp [hbi]
    · simpa [hji] using h.busy j
  · obtain ⟨c, hcj⟩ := h.cached j (hj.elim (fun hbj => .inl (by rw [← hb j]; exact hbj)) (hd j))
    exact ⟨c, (hc c j).2 hcj⟩
  · show c ∈ l.block ↔ ∃ j, bio'.Cached c j ∧ _
    simp only [hc]
    exact hpin c

theorem pins_modify (hh : s.holds p i b) (x : Block) : (setData i x).wp
    (fun _ bio' => Pins g { s with bio := bio', held := update s.held i (some (p, true)) } A)
      (fun _ => False) s.bio := by
  obtain ⟨hp, hb⟩ := h.member_of_holds hh
  have hno := h.no_commit hp
  refine wp_mono (setData_spec h.wf hh.2.1 hb x) fun _ bio' ⟨hw, _, _, hc, hdb⟩ => ?_
  refine h.hold hp h.excl hno hb (wf_congr hw fun j => ?_) hc (fun j => (hdb j).2) h.out h.nodup
    (fun c => ?_) fun j hd =>
    .inr (by rw [← (hdb j).1]; exact hd)
  · by_cases hj : j = i
    · simp [Sys.own, hj]
    · simp [Sys.own, hj]
  · simp only [fun j => (hdb j).1]
    exact h.quiet hno c

theorem pins_append (hh : s.holds p i b) (hout : ¬ g.inLog b)
    (hl : logWriteAppend s.log p b = .ok l) :
    (setDirty i).wp (fun _ bio' =>
      Pins g { s with bio := bio', log := l, held := update s.held i (some (p, false)) } A)
      (fun _ => False) s.bio := by
  obtain ⟨hp, hb⟩ := h.member_of_holds hh
  have hno := h.no_commit hp
  obtain ⟨hpc, rfl⟩ := append_cases hl
  refine wp_mono (setDirty_spec h.wf hh.2.1) fun _ bio' ⟨hw, _, _, hc, hdj, hbj, hdi⟩ => ?_
  refine h.hold hp (excl_append h.excl hpc) (fun q hq => hno q (setPc_back (by simp) hq)) hb
    (wf_congr hw fun j => ?_) hc hbj
    (fun c hcm => ?_) (nodup_absorb h.nodup) (fun c => ?_) fun j hd => ?_
  · by_cases hj : j = i
    · simp [Sys.own, hj]
    · simp [Sys.own, hj]
  · rcases mem_absorb.1 hcm with rfl | hcm
    · exact hout
    · exact h.out c hcm
  · show c ∈ absorb s.log.block b ↔ _
    rw [mem_absorb, h.quiet hno c]
    constructor
    · rintro (rfl | ⟨j, hcj, hd⟩)
      · exact ⟨i, hh.2.1, hdi⟩
      · by_cases hj : j = i
        · subst hj
          exact ⟨j, hcj, hdi⟩
        · exact ⟨j, hcj, by rw [hdj j hj]; exact hd⟩
    · rintro ⟨j, hcj, hd⟩
      by_cases hj : j = i
      · subst hj
        exact .inl (hcj.2.symm.trans hh.2.1.2)
      · exact .inr ⟨j, hcj, by rw [← hdj j hj]; exact hd⟩
  · by_cases hj : j = i
    · subst hj
      exact .inl hb
    · exact .inr (by rw [← hdj j hj]; exact hd)

theorem pins_brelse (hh : s.held i = some (p, false)) (hc : s.bio.Cached b i) : (brelse i).wp
    (fun _ bio' => Pins g { s with bio := bio', held := update s.held i none } A)
      (fun _ => False) s.bio := by
  have hp := h.member i p false hh
  have hno := h.no_commit hp
  have hbi : (s.bio.buf i).busy = true := (h.busy i).2 (by rw [hh]; rfl)
  have ho : ¬ s.own i := by
    rintro ⟨q, hq⟩
    rw [hh] at hq
    cases hq
  obtain ⟨hw, -, hcc, hd, hbi', hbj⟩ := released_spec h.wf hc ho
  refine (wp_brelse hbi).2 ⟨h.excl, wf_congr hw (own_update (by simp) ho), fun j q m hj => ?_,
    fun j => ?_, fun j hj => ?_, h.out, h.nodup, 0,
    .inr ⟨rfl, fun q hq => absurd hq (hno q)⟩, fun c => ?_⟩
  · by_cases hji : j = i
    · subst hji
      simp at hj
    · exact h.member j q m (by simpa [hji] using hj)
  · show ((s.bio.released i).buf j).busy = true ↔ _
    by_cases hji : j = i
    · subst hji
      simp [hbi']
    · rw [hbj j hji]
      simpa [hji] using h.busy j
  · have hold : (s.bio.buf j).busy = true ∨ (s.bio.buf j).dirty = true := by
      rcases hj with hj | hj
      · by_cases hji : j = i
        · subst hji
          exact .inl hbi
        · exact .inl (by rw [← hbj j hji]; exact hj)
      · exact .inr (by rw [← hd j]; exact hj)
    obtain ⟨c, hcj⟩ := h.cached j hold
    exact ⟨c, (hcc c j).2 hcj⟩
  · show c ∈ s.log.block ↔ ∃ j, (s.bio.released i).Cached c j ∧
      ((s.bio.released i).buf j).dirty = true
    simp only [hcc, hd]
    exact h.quiet hno c

theorem Pins.admit {A' : Finset Nat} (hx : Excl l A') (hA : A ⊆ A') (hb : l.block = s.log.block)
    (hc : ∀ q, l.pc q = .commit ↔ s.log.pc q = .commit) : Pins g { s with log := l } A' := by
  obtain ⟨k, hk, hpin⟩ := h.pinned
  refine ⟨hx, h.wf, fun i p m hi => hA (h.member i p m hi), h.busy, h.cached, hb.symm ▸ h.out,
    hb.symm ▸ h.nodup, k, ?_, hb.symm ▸ hpin⟩
  rcases hk with ⟨q, hq, hst⟩ | ⟨rfl, hall⟩
  · exact .inl ⟨q, (hc q).2 hq, hst⟩
  · exact .inr ⟨rfl, fun q hq => hall q ((hc q).1 hq)⟩

theorem pins_begin (hb : beginOp s.log p = .ok l) : ∃ A', Pins g { s with log := l } A' := by
  obtain ⟨hp, hpc, hcases⟩ := begin_cases h.excl hb
  have hcommit : ∀ c, c ≠ .commit → ∀ q, (s.log.setPc p c).pc q = .commit ↔
      s.log.pc q = .commit := by
    intro c hc q
    refine ⟨setPc_back hc, fun hq => ?_⟩
    have hqp : q ≠ p := by
      rintro rfl
      rcases hpc with hpc | hpc <;> simp [hpc] at hq
    simpa [hqp] using hq
  rcases hcases with ⟨rfl, -⟩ | ⟨rfl, hcm, -⟩
  · exact ⟨A, h.admit (excl_asleep h.excl hp) subset_rfl rfl (hcommit _ (by simp))⟩
  · exact ⟨insert p A, h.admit (excl_enter h.excl hp hcm) (Finset.subset_insert p A) rfl
      (hcommit _ (by simp))⟩

theorem pins_check (hb : logWriteCheck g.size s.log p b = .ok l) :
    Pins g { s with log := l } A := by
  obtain ⟨hpc, -, rfl⟩ := check_cases hb
  refine h.admit (excl_check h.excl hpc) subset_rfl rfl fun q =>
    ⟨setPc_back (by simp), fun hq => ?_⟩
  have hqp : q ≠ p := by
    rintro rfl
    simp [hpc] at hq
  simpa [hqp] using hq

theorem pins_finish (hb : finish s.log p = .ok l) : Pins g { s with log := l } A := by
  obtain ⟨hpc, hx, hblock, -, hno⟩ := excl_finish h.excl hb
  refine h.admit hx subset_rfl hblock fun q => ⟨fun hq => absurd hq (hno q), fun hq => ?_⟩
  obtain rfl := h.excl.one q p (by rw [hq]; rfl) (by rw [hpc]; rfl)
  simp [hpc] at hq

theorem pins_endOp (hheld : ∀ i, s.held i ≠ some (p, false) ∧ s.held i ≠ some (p, true))
    (hb : endOp s.log p = .ok l) :
    Pins g { s with log := l, stage := update s.stage p (.writeLog 0) } (A.erase p) := by
  obtain ⟨hp, hx, hblock, -, hcommit⟩ := excl_endOp h.excl hb
  have hno := h.no_commit hp
  refine ⟨hx, h.wf, fun i q m hi => Finset.mem_erase.2 ⟨?_, h.member i q m hi⟩, h.busy, h.cached,
    hblock.symm ▸ h.out, hblock.symm ▸ h.nodup,
    0, .inr ⟨rfl, fun q hq => ⟨0, ?_⟩⟩, fun b => hblock.symm ▸ h.quiet hno b⟩
  · rintro rfl
    cases m
    · exact (hheld i).1 hi
    · exact (hheld i).2 hi
  · obtain rfl := hcommit q hq
    exact update_self ..

/-! ### Commit -/

/-- A step of `commit` that writes block `c`: from `k` blocks installed to `k'`. -/
theorem Pins.store {st : Nat → Stage} {c k' : Nat} {x : Block} (hA : A = ∅) (hw : bio'.WF s.own)
    (hs : s.bio.Store c x bio') (hpin : ∀ b, b ∈ s.log.block.drop k ↔ ∃ i, s.bio.Cached b i ∧
      (s.bio.buf i).dirty = true)
    (hk : Installed { s with bio := bio', stage := st } k')
    (hdrop : ∀ b, b ∈ s.log.block.drop k' ↔ b ∈ s.log.block.drop k ∧ b ≠ c) :
    Pins g { s with bio := bio', stage := st } A := by
  have hfree : ∀ j, (bio'.buf j).busy ≠ true := by
    intro j hj
    have hb := hs.busy j hj
    rw [h.not_busy hA j] at hb
    cases hb
  refine ⟨h.excl, hw, h.member, fun j => ⟨fun hj => absurd hj (hfree j), fun hj => ?_⟩,
    fun j hj => ?_, h.out, h.nodup, k', hk, fun b => ?_⟩
  · change (s.held j).isSome = true at hj
    rw [h.not_held hA j] at hj
    cases hj
  · have hd := hj.resolve_left (hfree j)
    obtain ⟨b, hb⟩ := h.cached j (.inr (hs.dirty j hd).1)
    exact ⟨b, hs.still j b hd hb⟩
  · show b ∈ s.log.block.drop k' ↔ ∃ j, bio'.Cached b j ∧ (bio'.buf j).dirty = true
    rw [hdrop b, hpin b]
    constructor
    · rintro ⟨⟨j, hb, hd⟩, hne⟩
      exact ⟨j, hs.keeps j b hb hne hd⟩
    · rintro ⟨j, hb, hd⟩
      obtain ⟨hd', hback⟩ := hs.dirty j hd
      exact ⟨⟨j, (hback b hb).1, hd'⟩, (hback b hb).2⟩

/-- The block of the log that belongs to a listed block is none of the listed blocks. -/
theorem Pins.ne_home (hsize : g.size = LOGSIZE) (hlt : s.log.block.length < NBUF)
    (hk : s.log.block[k]? = some b) {c : Nat} (hc : c ∈ s.log.block) : c ≠ g.start + k + 1 := by
  rintro rfl
  refine h.out _ hc (inLog_logBlock ?_ hk)
  have hnbuf : s.log.block.length < 30 := hlt
  have hlog : g.size = 30 := hsize
  omega

theorem Pins.not_starved (hA : A = ∅) (hlt : s.log.block.length < NBUF) {x y : Nat} {e : Stop}
    (hy : ∃ i, s.bio.Cached y i ∧ (s.bio.buf i).dirty = true) (he : Starved s.bio x y e) :
    e ≠ .noBuffers := by
  intro hdry
  rcases he.2 hdry with ⟨-, hall⟩ | hclean
  · exact h.commit_free hA hlt hall
  · obtain ⟨i, hi, hd⟩ := hy
    rw [hclean i hi] at hd
    cases hd

theorem pins_writeLog (hsize : g.size = LOGSIZE) (hlt : s.log.block.length < NBUF)
    (hp : s.log.pc p = .commit)
    (hst : s.stage p = .writeLog k) (hk : s.log.block[k]? = some b) :
    (logBlock ROOTDEV (g.start + k + 1) b).wp (fun _ bio' =>
      Pins g { s with bio := bio', stage := update s.stage p (.writeLog (k + 1)) } A)
        (· ≠ .noBuffers) s.bio := by
  have hA := h.idle hp
  have hpin := h.stage_writeLog hp hst
  have hmem := List.mem_of_getElem? hk
  refine wp_imp (logBlock_wp h.wf (h.ne_home hsize hlt hk hmem).symm)
    (fun _ bio' ⟨hw, hs⟩ => ?_) fun e he =>
    h.not_starved hA hlt ((hpin b).1 hmem) he
  refine h.store (k := 0) hA hw hs hpin (.inr ⟨rfl, fun q hq => ⟨k + 1, ?_⟩⟩) fun c => ?_
  · obtain rfl : q = p := h.excl.one q p (by rw [show s.log.pc q = .commit from hq]; rfl)
      (by rw [hp]; rfl)
    exact update_self ..
  · exact ⟨fun hc => ⟨hc, h.ne_home hsize hlt hk hc⟩, And.left⟩

theorem pins_writeHead (hlt : s.log.block.length < NBUF) (hp : s.log.pc p = .commit)
    (hst : s.stage p = .writeLog k) : (writeHead g s.log.block).wp (fun _ bio' =>
      Pins g { s with bio := bio', stage := update s.stage p (.install 0) } A)
        (· ≠ .noBuffers) s.bio := by
  have hA := h.idle hp
  have hpin := h.stage_writeLog hp hst
  refine wp_imp (update_wp h.wf (writeHeader · s.log.block))
    (fun _ bio' ⟨hw, hs⟩ => ?_) fun e he hdry =>
    h.commit_free hA hlt (he.2 hdry).2
  refine h.store (k := 0) hA hw hs hpin (.inl ⟨p, hp, update_self ..⟩) fun c => ?_
  refine ⟨fun hc => ⟨hc, ?_⟩, And.left⟩
  rintro rfl
  exact h.out _ hc (inLog_start g)

theorem pins_install (hsize : g.size = LOGSIZE) (hlt : s.log.block.length < NBUF)
    (hp : s.log.pc p = .commit)
    (hst : s.stage p = .install k) (hk : s.log.block[k]? = some b) :
    (installBlock ROOTDEV (g.start + k + 1) b).wp (fun _ bio' =>
      Pins g { s with bio := bio', stage := update s.stage p (.install (k + 1)) } A)
        (· ≠ .noBuffers) s.bio := by
  have hA := h.idle hp
  have hpin := h.stage_install hp hst
  have hcons : s.log.block.drop k = b :: s.log.block.drop (k + 1) := by
    obtain ⟨hlt, rfl⟩ := List.getElem?_eq_some_iff.1 hk
    exact List.drop_eq_getElem_cons hlt
  have hnd : b ∉ s.log.block.drop (k + 1) := by
    have hall := h.nodup.sublist (List.drop_sublist k _)
    rw [hcons] at hall
    exact (List.nodup_cons.1 hall).1
  refine wp_imp (installBlock_wp h.wf (h.ne_home hsize hlt hk (List.mem_of_getElem? hk)).symm)
    (fun _ bio' ⟨hw, hs⟩ => ?_) fun e he =>
    h.not_starved hA hlt ((hpin b).1 (by rw [hcons]; exact List.mem_cons_self ..)) he
  refine h.store hA hw hs hpin (.inl ⟨p, hp, update_self ..⟩) fun c => ?_
  rw [hcons, List.mem_cons]
  constructor
  · intro hc
    refine ⟨.inr hc, ?_⟩
    rintro rfl
    exact hnd hc
  · rintro ⟨rfl | hc, hne⟩
    · exact absurd rfl hne
    · exact hc

end

theorem pins_clean (hx : Excl s.log ∅) (hw : s.bio.WF s.own) (hheld : ∀ i, s.held i = none)
    (hb : ∀ i, (s.bio.buf i).busy = false)
    (hd : ∀ i, (s.bio.buf i).dirty = false) (hnil : s.log.block = [])
    (hno : ∀ q, s.log.pc q ≠ .commit) : Pins g s ∅ := by
  refine ⟨hx, hw, fun i p m hi => ?_, fun i => ?_, fun i hi => ?_, ?_, ?_, 0,
    .inr ⟨rfl, fun q hq => absurd hq (hno q)⟩, fun b => ?_⟩
  · rw [hheld i] at hi
    cases hi
  · simp [hb i, hheld i]
  · simp [hb i, hd i] at hi
  · simp [hnil]
  · simp [hnil]
  · simp [hnil, hd]

theorem Pins.clean (h : Pins g s A) (hp : s.log.pc p = .commit)
    (hst : s.stage p = .install s.log.block.length) (i : Fin NBUF) :
    (s.bio.buf i).dirty = false := by
  by_contra hd
  obtain ⟨b, hb⟩ := h.cached i (.inr (by simpa using hd))
  have hmem := (h.stage_install hp hst b).2 ⟨i, hb, by simpa using hd⟩
  simp at hmem

theorem pins_eraseHead (h : Pins g s A) (hp : s.log.pc p = .commit)
    (hst : s.stage p = .install s.log.block.length)
    (hl : commit s.log p = .ok l) :
    (writeHead g []).wp (fun _ bio' => Pins g { s with bio := bio', log := l } A) (· ≠ .noBuffers)
      s.bio := by
  obtain ⟨-, rfl, hl⟩ := commit_cases h.excl hl
  have hclean := h.clean hp hst
  refine wp_imp (update_wp h.wf (writeHeader · [])) (fun _ bio' ⟨hw, hs⟩ => ?_) fun e he hdry => ?_
  · refine pins_clean (hl ▸ excl_commit h.excl hp) hw (h.not_held rfl) (fun i => ?_)
      (fun i => ?_) (by rw [hl])
      fun q => Crash.no_commit h.excl hp hl q
    · by_contra hb
      have hold := hs.busy i (by simpa using hb)
      rw [h.not_busy rfl i] at hold
      cases hold
    · by_contra hd
      have hold := (hs.dirty i (by simpa using hd)).1
      rw [hclean i] at hold
      cases hold
  · rcases (he.2 hdry).2 0 with hb | hd
    · rw [h.not_busy rfl 0] at hb
      cases hb
    · rw [hclean 0] at hd
      cases hd

theorem pins_commitNone (h : Pins g s A) (hp : s.log.pc p = .commit) (hst : s.stage p = .writeLog k)
    (hnil : s.log.block = []) (hl : commit s.log p = .ok l) : Pins g { s with log := l } A := by
  obtain ⟨-, rfl, hl⟩ := commit_cases h.excl hl
  refine pins_clean (hl ▸ excl_commit h.excl hp) h.wf (h.not_held rfl) (h.not_busy rfl)
    (fun i => ?_) (by rw [hl])
    fun q => Crash.no_commit h.excl hp hl q
  by_contra hd
  obtain ⟨b, hb⟩ := h.cached i (.inr (by simpa using hd))
  have hmem := (h.stage_writeLog hp hst b).2 ⟨i, hb, by simpa using hd⟩
  rw [hnil] at hmem
  cases hmem

/-! ## Every run -/

/-- What holds of the cache, by what the machine is doing. -/
def Fits (g : Geom) (s : Sys) : Prop :=
  match s.mode with
  | .up => ∃ A, Pins g s A
  | _ => s.bio.Idle ∧ ∀ i, s.held i = none

theorem Fits.up (h : Fits g s) (hm : s.mode = .up) : ∃ A, Pins g s A := by
  unfold Fits at h
  rw [hm] at h
  exact h

theorem fits_of_up (hm : s.mode = .up) (h : Pins g s A) : Fits g s := by
  unfold Fits
  rw [hm]
  exact ⟨A, h⟩

theorem wp_onLog_total {f : St → Except Stop St} {E : Stop → Prop}
    (h : ∀ l, f s.log = .ok l → Q () { s with log := l })
    (he : ∀ e, f s.log = .error e → E e) : (onLog f).wp Q E s := by
  unfold Prog.wp onLog
  cases hf : f s.log with
  | ok l => exact h l hf
  | error e => exact he e hf

theorem log_not_dry (size : Nat) (e : Log.Ev) {x : Stop} (h : Log.step size l e = .error x) :
    x ≠ .noBuffers := by
  rintro rfl
  cases e with
  | begin p =>
    simp only [Log.step, beginOp] at h
    split_ifs at h
    cases h
  | check p b =>
    simp only [Log.step, logWriteCheck] at h
    split_ifs at h <;> cases h
  | append p b =>
    simp only [Log.step, logWriteAppend] at h
    split_ifs at h
    cases h
  | endOp p =>
    simp only [Log.step, endOp] at h
    split_ifs at h <;> cases h
  | commit p =>
    simp only [Log.step, Log.commit] at h
    split_ifs at h
    cases h
  | finish p =>
    simp only [Log.step, Log.finish] at h
    split_ifs at h
    cases h

theorem wp_require_not_dry (P : Sys → Prop) [DecidablePred P] :
    (require P).wp Q (· ≠ .noBuffers) s ↔ (P s → Q () s) := wp_require (by simp) P

/-- A block read while its buffer is held is waited for. -/
theorem same_wp {t : Bio} (h : t.Idle) (x : Nat) : (installBlock ROOTDEV x x).wp (fun _ _ => False)
    (· ≠ .noBuffers) t := by
  refine Prog.wp_seq (bread_wp h.wf x) (fun i t1 ⟨hw1, h1⟩ => ?_) fun e he => ?_
  · refine Prog.wp_seq (bread_wp hw1 x) (fun j t2 ⟨hw2, h2⟩ => ?_) fun e he => ?_
    · have hij : i ≠ j := by
        rintro rfl
        have hbusy := h1.busy
        rw [h2.was] at hbusy
        cases hbusy
      have hi : t2.Cached x i := by simpa only [Bio.Cached, h2.frame i hij] using h1.cached
      exact absurd (hw2.uniq hi h2.cached) hij
    · rcases he with ⟨rfl, -⟩ | ⟨-, hn, -⟩
      · simp
      · exact absurd h1.cached (hn i)
  · rcases he with ⟨rfl, -⟩ | ⟨-, -, hall⟩
    · simp
    · exact absurd ⟨0, hall 0⟩ h.not_pending

theorem fits_step (h : Fits g s) (hsize : g.size = LOGSIZE)
    (hout : ∀ b, e.target = some b → ¬ g.inLog b) (hroom : Room s e) :
    (step g e).wp (fun _ s' => Fits g s') (· ≠ .noBuffers) s := by
  cases e with
  | begin p =>
    simp only [step, wp_bind, wp_require_not_dry]
    intro hm
    obtain ⟨A, hu⟩ := h.up hm
    refine wp_onLog_total (fun l hl => ?_) fun _ => log_not_dry g.size (.begin p)
    obtain ⟨A', hu'⟩ := pins_begin hu hl
    exact fits_of_up hm hu'
  | bread p b =>
    simp only [step, wp_bind, wp_require_not_dry, wp_onBio, wp_setHeld]
    rintro ⟨hm, hpc⟩
    obtain ⟨A, hu⟩ := h.up hm
    exact wp_imp (pins_bread hu hpc b) (fun i bio' hu' => fits_of_up hm hu') fun e he hdry =>
      he hdry hroom
  | modify p i b f =>
    simp only [step, wp_bind, wp_require_not_dry, wp_onBio, wp_setHeld,
      Prog.wp_get]
    rintro ⟨hm, hpc, hh⟩
    obtain ⟨A, hu⟩ := h.up hm
    exact wp_imp (pins_modify hu hh _) (fun _ bio' hu' => fits_of_up hm hu') fun _ he => he.elim
  | check p i b =>
    simp only [step, wp_bind, wp_require_not_dry]
    rintro ⟨hm, -⟩
    obtain ⟨A, hu⟩ := h.up hm
    exact wp_onLog_total (fun l hl => fits_of_up hm (pins_check hu hl)) fun _ =>
      log_not_dry g.size (.check p b)
  | append p i b =>
    simp only [step, wp_bind, wp_require_not_dry]
    rintro ⟨hm, hh⟩
    obtain ⟨A, hu⟩ := h.up hm
    refine wp_onLog_total (fun l hl => ?_) fun _ => log_not_dry g.size (.append p b)
    simp only [wp_onBio, wp_setHeld]
    exact wp_imp (pins_append hu hh (hout b rfl) hl) (fun _ bio' hu' => fits_of_up hm hu')
      fun _ he => he.elim
  | brelse p i b =>
    simp only [step, wp_bind, wp_require_not_dry, wp_onBio, wp_setHeld]
    rintro ⟨hm, -, hh, hc⟩
    obtain ⟨A, hu⟩ := h.up hm
    exact wp_imp (pins_brelse hu hh hc) (fun _ bio' hu' => fits_of_up hm hu') fun _ he => he.elim
  | endOp p =>
    simp only [step, wp_bind, wp_require_not_dry]
    rintro ⟨hm, hheld⟩
    obtain ⟨A, hu⟩ := h.up hm
    refine wp_onLog_total (fun l hl => ?_) fun _ => log_not_dry g.size (.endOp p)
    have hu' := pins_endOp hu hheld hl
    exact fits_of_up hm hu'
  | writeLog p k b =>
    simp only [step, wp_bind, wp_require_not_dry, wp_onBio, wp_setStage]
    rintro ⟨hm, hpc, hst, hk⟩
    obtain ⟨A, hu⟩ := h.up hm
    exact wp_mono (pins_writeLog hu hsize hroom hpc hst hk) fun _ bio' hu' => fits_of_up hm hu'
  | writeHead p =>
    simp only [step, wp_bind, wp_require_not_dry, wp_onBio, wp_setStage,
      Prog.wp_get]
    rintro ⟨hm, hpc, -, hst⟩
    obtain ⟨A, hu⟩ := h.up hm
    exact wp_mono (pins_writeHead hu hroom hpc hst) fun _ bio' hu' => fits_of_up hm hu'
  | install p k b =>
    simp only [step, wp_bind, wp_require_not_dry, wp_onBio, wp_setStage]
    rintro ⟨hm, hpc, hst, hk⟩
    obtain ⟨A, hu⟩ := h.up hm
    exact wp_mono (pins_install hu hsize hroom hpc hst hk) fun _ bio' hu' => fits_of_up hm hu'
  | eraseHead p =>
    simp only [step, wp_bind, wp_require_not_dry, wp_onBio]
    rintro ⟨hm, hpc, hst⟩
    obtain ⟨A, hu⟩ := h.up hm
    have hl : commit s.log p = .ok { s.log.setPc p .finish with block := [] } := if_pos hpc
    refine wp_mono (pins_eraseHead hu hpc hst hl) fun _ bio' hu' =>
      wp_onLog_total (fun l hl' => ?_) fun _ => log_not_dry g.size (.commit p)
    obtain rfl := Except.ok.inj (hl.symm.trans hl')
    exact fits_of_up hm hu'
  | commitNone p =>
    simp only [step, wp_bind, wp_require_not_dry]
    rintro ⟨hm, hpc, hnil, hst⟩
    obtain ⟨A, hu⟩ := h.up hm
    exact wp_onLog_total (fun l hl => fits_of_up hm (pins_commitNone hu hpc hst hnil hl)) fun _ =>
      log_not_dry g.size (.commit p)
  | finish p =>
    simp only [step, wp_bind, wp_require_not_dry]
    intro hm
    obtain ⟨A, hu⟩ := h.up hm
    exact wp_onLog_total (fun l hl => fits_of_up hm (pins_finish hu hl)) fun _ =>
      log_not_dry g.size (.finish p)
  | crash => exact ⟨idle_binit _, fun _ => rfl⟩
  | boot =>
    simp only [step, wp_bind, wp_require_not_dry, wp_onBio]
    intro hm
    unfold Fits at h
    rw [hm] at h
    exact wp_imp (readHead_wp h.1) (fun _ _ hr => ⟨hr.2.1, h.2⟩) fun _ he => he.elim
  | recInstall k b =>
    simp only [step, wp_bind, wp_require_not_dry, wp_onBio, wp_setMode]
    rintro ⟨hm, hk⟩
    unfold Fits at h
    rw [hm] at h
    by_cases hne : g.start + k + 1 = b
    · rw [hne]
      exact wp_mono (same_wp h.1 b) fun _ _ he => he.elim
    · exact wp_imp (installBlock_wp h.1.wf hne)
        (fun _ _ hr => ⟨h.1.store hr.1 hr.2, h.2⟩) fun _ he =>
        absurd he.1 h.1.not_pending
  | recErase =>
    simp only [step, wp_bind, wp_require_not_dry, wp_onBio]
    intro hm
    unfold Fits at h
    rw [hm] at h
    refine wp_imp (update_wp h.1.wf (writeHeader · [])) (fun _ bio' hr => ?_) fun _ he =>
      absurd he.1 h.1.not_pending
    refine wp_onLog_total (fun l hl => ?_) (by simp)
    obtain rfl := Except.ok.inj hl
    rw [wp_setMode]
    have hi := h.1.store hr.1 hr.2
    refine fits_of_up rfl (pins_clean excl_init (wf_congr hi.wf fun i => ?_) h.2 hi.busy hi.dirty
      rfl (by simp [init]))
    refine ⟨fun hp => ?_, fun hf => hf.elim⟩
    have hnone := (h.2 i).symm.trans hp.choose_spec
    cases hnone

theorem fits_run (hsize : g.size = LOGSIZE) : ∀ {tr : List Ev} {s : Sys}, run g d tr = .ok s →
    (∀ e ∈ tr, ∀ b, e.target = some b → ¬ g.inLog b) → Along g d Room tr → Fits g s
  | [], _, h, _, _ => by
    cases h
    exact ⟨idle_binit d, fun _ => rfl⟩
  | e :: tr, s', h, hout, hroom => by
    obtain ⟨s, hs, hst⟩ := run_cons h
    have hfits := fits_run hsize hs (fun e he => hout e (List.mem_cons_of_mem _ he)) hroom.2
    have hwp := fits_step hfits hsize (hout e (List.mem_cons_self ..)) (hroom.1 s hs)
    rw [Prog.wp_run hst] at hwp
    exact hwp

theorem bread_dry {t : Bio} {own : Fin NBUF → Prop} (h : t.WF own) (hn : ∀ i, ¬ t.Cached b i)
    (hall : ∀ i, (t.buf i).busy = true ∨ (t.buf i).dirty = true) :
    bread ROOTDEV b t = .error .noBuffers := by
  have hwp := bread_wp h b
  cases hb : bread ROOTDEV b t with
  | error e =>
    rcases Prog.wp_error hwp hb with ⟨-, i, hi, -⟩ | ⟨rfl, -⟩
    · exact absurd hi (hn i)
    · rfl
  | ok r =>
    obtain ⟨i, t'⟩ := r
    obtain ⟨-, hr⟩ := Prog.wp_ok hwp hb
    have hd := (hall i).resolve_left (by rw [hr.was]; nofun)
    exact absurd (hr.dirty (hr.keeps hd)).1 (hn i)

/-- **When the cache runs dry.** In every run whose steps leave a buffer for each read, no step
panics for want of one; a `bread` for which none is left does. -/
theorem dry_iff (hsize : g.size = LOGSIZE) (h : run g d tr = .ok s)
    (hout : ∀ e ∈ tr, ∀ b, e.target = some b → ¬ g.inLog b) (hroom : Along g d Room tr) :
    (∀ e, (∀ b, e.target = some b → ¬ g.inLog b) → Room s e → step g e s ≠ .error .noBuffers) ∧
    ∀ p b, s.mode = .up → s.log.pc p = .tx → ¬ Room s (.bread p b) →
      step g (.bread p b) s = .error .noBuffers := by
  have hfits := fits_run hsize h hout hroom
  refine ⟨fun e he hr hdry => Prog.wp_error (fits_step hfits hsize he hr) hdry rfl,
    fun p b hm hpc hfull => ?_⟩
  obtain ⟨A, hu⟩ := hfits.up hm
  have hno := hu.no_commit ((hu.excl.mem p).2 (by rw [hpc]; rfl))
  simp only [Room, not_or, not_exists, Nat.not_lt] at hfull
  have hdry := bread_dry hu.wf hfull.1 ((hu.taken hno).2 hfull.2)
  have hreq : require (fun s => s.mode = .up ∧ s.log.pc p = .tx) s = .ok ((), s) :=
    congrFun (if_pos ⟨hm, hpc⟩) s
  simp only [step, bind, StateT.bind, Except.bind, hreq, onBio, hdry]

/-! ## A run to the last buffer -/

instance (s : Sys) (e : Ev) : Decidable (Room s e) :=
  match e with
  | .bread _ _ => inferInstanceAs (Decidable (_ ∨ _))
  | .writeLog .. | .writeHead _ | .install .. => inferInstanceAs (Decidable (_ < _))
  | .begin _ | .modify .. | .check .. | .append .. | .brelse .. | .endOp _ | .eraseHead _
      | .commitNone _ | .finish _ | .crash
  | .boot | .recInstall .. | .recErase => .isTrue trivial

/-- A run whose steps leave a buffer for each read. -/
def runIf (g : Geom) (d : Disk) : List Ev → Option Sys
  | [] => some (powerOff d)
  | e :: tr =>
    (runIf g d tr).bind fun s => if Room s e then (step g e s).toOption.map Prod.snd else none

theorem runIf_cons (h : runIf g d (e :: tr) = some s') :
    ∃ s, runIf g d tr = some s ∧ Room s e ∧ step g e s = .ok ((), s') := by
  obtain ⟨s, hs, h⟩ := Option.bind_eq_some_iff.1 h
  split at h
  · rename_i hroom
    cases hstep : step g e s with
    | error x => rw [hstep] at h; cases h
    | ok r => rw [hstep] at h; cases h; exact ⟨s, hs, hroom, hstep⟩
  · cases h

theorem runIf_run : ∀ {tr : List Ev} {s : Sys}, runIf g d tr = some s →
    run g d tr = .ok s ∧ Along g d Room tr
  | [], _, h => by cases h; exact ⟨rfl, trivial⟩
  | e :: tr, s', h => by
    obtain ⟨s, hs, hroom, hstep⟩ := runIf_cons h
    obtain ⟨hrun, halong⟩ := runIf_run hs
    refine ⟨by simp only [run, hrun, bind, Except.bind, hstep]; rfl, fun t ht => ?_, halong⟩
    obtain rfl : s = t := Except.ok.inj (hrun.symm.trans ht)
    exact hroom

/-- Three operations log the blocks 100 to 127. -/
def fill : List Ev := (List.range 28).reverse.flatMap fun j =>
  let i := Fin.ofNat NBUF (28 - j)
  [.brelse (j / 10) i (100 + j), .append (j / 10) i (100 + j), .check (j / 10) i (100 + j),
    .bread (j / 10) (100 + j)]

/-- One of them reads another block, -/
def lastOne : List Ev := .bread 1 200 :: fill ++ [.begin 2, .begin 1, .begin 0, .recErase, .boot]

/-- and a second one. -/
def lastTwo : List Ev := .bread 2 201 :: lastOne

/-- With 28 buffers dirty and one held there is one left to read a block, and after that none. -/
theorem dry_iff_lastTwo :
    (∃ s, run demoGeom (fun _ => Bytes.zero) lastOne = .ok s ∧ s.log.block.length = 28 ∧
      (unlogged s).card = 1 ∧ step demoGeom (.bread 2 201) s ≠ .error .noBuffers) ∧
    ∃ s, run demoGeom (fun _ => Bytes.zero) lastTwo = .ok s ∧
      step demoGeom (.bread 0 202) s = .error .noBuffers := by
  have hout : ∀ e ∈ lastTwo, ∀ b, e.target = some b → ¬ demoGeom.inLog b := by decide +kernel
  have hcount : (runIf demoGeom (fun _ => Bytes.zero) lastOne).map (fun s =>
    (s.log.block.length, (unlogged s).card)) =
      some (28, 1) := by decide +kernel
  have hend : (runIf demoGeom (fun _ => Bytes.zero) lastTwo).map (fun s =>
      decide (s.mode = .up ∧ s.log.pc 0 = .tx ∧ ¬ Room s (.bread 0 202))) = some true := by
        decide +kernel
  obtain ⟨s', hs', hfull⟩ := Option.map_eq_some_iff.1 hend
  obtain ⟨hm, hpc, hfull⟩ := of_decide_eq_true hfull
  obtain ⟨s, hs, hroom, -⟩ := runIf_cons hs'
  rw [hs] at hcount
  obtain ⟨hlog, hheld⟩ := Prod.mk.inj (Option.some.inj hcount)
  obtain ⟨hrun, halong⟩ := runIf_run hs
  obtain ⟨hrun', halong'⟩ := runIf_run hs'
  exact ⟨⟨s, hrun, hlog, hheld,
    (dry_iff rfl hrun (fun e he => hout e (List.mem_cons_of_mem _ he)) halong).1 _ nofun hroom⟩,
    s', hrun', (dry_iff rfl hrun' hout halong').2 0 202 hm hpc hfull⟩

/-! ## Operations within their limits -/

/-- The distinct blocks the operation `p` is in has logged. -/
def opBlocks (p : Nat) : List Ev → List Nat
  | [] => []
  | .begin q :: tr => if q = p then [] else opBlocks p tr
  | .append q _ b :: tr => if q = p then (opBlocks p tr).insert b else opBlocks p tr
  | _ :: tr => opBlocks p tr

/-- How many buffers `p` holds. -/
def holding (p : Nat) : List Ev → Nat
  | [] => 0
  | .bread q _ :: tr => if q = p then holding p tr + 1 else holding p tr
  | .brelse q _ _ :: tr => if q = p then holding p tr - 1 else holding p tr
  | _ :: tr => holding p tr

/-- No operation logs more than `MAXOPBLOCKS` blocks, and nobody holds more than two buffers. -/
def withinLimits : List Ev → Bool
  | [] => true
  | .check p _ b :: tr => ((opBlocks p tr).insert b).length ≤ MAXOPBLOCKS && withinLimits tr
  | .bread p _ :: tr => holding p tr < 2 && withinLimits tr
  | _ :: tr => withinLimits tr

/-- 28 buffers are dirty and two are held, for the third operation none is left. -/
theorem runs_dry : withinLimits (.bread 0 202 :: lastTwo) = true ∧
    ∃ s, run demoGeom (fun _ => Bytes.zero) lastTwo = .ok s ∧
    step demoGeom (.bread 0 202) s = .error .noBuffers := by
  refine ⟨by decide +kernel, ?_⟩
  have hrun : (run demoGeom (fun _ => Bytes.zero) lastTwo).toOption.map (fun s =>
      match step demoGeom (.bread 0 202) s with
      | .error x => some x
      | .ok _ => none) = some (some .noBuffers) := by decide +kernel
  obtain ⟨s, hs, hf⟩ := Prog.ok_of_map hrun
  refine ⟨s, hs, ?_⟩
  cases hst : step demoGeom (.bread 0 202) s with
  | error x =>
    rw [hst] at hf
    cases hf
    rfl
  | ok r =>
    rw [hst] at hf
    cases hf

end Os4.Log.Crash
