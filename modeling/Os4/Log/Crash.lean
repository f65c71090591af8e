import Os4.Log.Machine
/-!
# Crash atomicity of the log

The updates a run makes to the blocks outside the log are those of its operations, in the order they
are made, and a transaction holds all the operations that end in it. The proof follows the commit:
while the header is empty (`Quiet`) the disk outside the log is the committed one and the cache is
ahead of it by the updates under way; from the header write on (`Committed`) the log holds what the
cache has, and installing it, once or again after a crash, changes nothing that recovery would not
restore.

* **`crash_atomic`**: recovery yields exactly the updates of the committed operations.
* **`rest_durable`**: with no operation under way these are all updates.
-/
namespace Os4.Log.Crash

open Function (update update_of_ne update_self)
open Prog (wp_any wp_bind wp_get)

variable {g : Geom} {s s' : Sys} {d base : Disk} {tr : List Ev} {A : Finset Nat}
  {p b : Nat} {i : Fin NBUF}
variable {Q : Unit → Sys → Prop} {E : Stop → Prop}

theorem wp_require (hE : E .disabled) (P : Sys → Prop) [DecidablePred P] :
    (require P).wp Q E s ↔ (P s → Q () s) := by
  simp only [require, wp_bind, wp_get]
  rw [Prog.wp_ite]
  exact and_iff_left fun _ => hE

@[simp] theorem wp_onBio {α : Type} {R : α → Sys → Prop} (m : BioM α) :
    (onBio m).wp R E s ↔ m.wp (fun a bio => R a { s with bio }) E s.bio := by
  unfold Prog.wp onBio
  cases m s.bio with
  | ok r => rfl
  | error e => rfl

theorem wp_onLog {f : St → Except Stop St} (h : ∀ l, f s.log = .ok l → Q () { s with log := l }) :
    (onLog f).wp Q (fun _ => True) s := by
  unfold Prog.wp onLog
  cases hf : f s.log with
  | ok l => exact h l hf
  | error e => trivial

@[simp] theorem wp_setHeld (x : Option (Nat × Bool)) :
    (setHeld i x).wp Q E s ↔ Q () { s with held := update s.held i x } := Iff.rfl

@[simp] theorem wp_setStage (x : Stage) :
    (setStage p x).wp Q E s ↔ Q () { s with stage := update s.stage p x } := Iff.rfl

@[simp] theorem wp_setMode (x : Mode) : (setMode x).wp Q E s ↔ Q () { s with mode := x } := Iff.rfl

theorem applyAll_append (us : List Upd) (u : Upd) (d : Disk) :
    applyAll (us ++ [u]) d = applyUpd (applyAll us d) u := by simp [applyAll]

theorem applyAll_applyAll (us vs : List Upd) (d : Disk) :
    applyAll (us ++ vs) d = applyAll vs (applyAll us d) := by simp [applyAll]

/-! ## Operations are whole -/

/-- No operation has updates in two of the three parts of the history, and those still open are
new. -/
structure Whole (tr : List Ev) (A : Finset Nat) : Prop where
  bound : ∀ u, u ∈ (hist tr).done ∨ u ∈ (hist tr).cur ∨ u ∈ (hist tr).lost → u.op < tr.length
  opBound : ∀ p ∈ A, opOf p tr < tr.length
  fresh : ∀ p ∈ A, ∀ u, u ∈ (hist tr).done ∨ u ∈ (hist tr).lost → u.op ≠ opOf p tr
  doneCur : ∀ u ∈ (hist tr).done, ∀ v ∈ (hist tr).cur, u.op ≠ v.op
  doneLost : ∀ u ∈ (hist tr).done, ∀ v ∈ (hist tr).lost, u.op ≠ v.op
  curLost : ∀ u ∈ (hist tr).cur, ∀ v ∈ (hist tr).lost, u.op ≠ v.op

variable {e : Ev} {A' : Finset Nat}

theorem Whole.skip (h : Whole tr A) (hA : A' ⊆ A) (hh : hist (e :: tr) = hist tr)
    (ho : ∀ p, opOf p (e :: tr) = opOf p tr) : Whole (e :: tr) A' := by
  refine ⟨fun u hu => ?_, fun p hp => ?_, fun p hp u hu => ?_, ?_, ?_, ?_⟩
  · rw [hh] at hu; have := h.bound u hu; simp only [List.length_cons]; omega
  · rw [ho]; have := h.opBound p (hA hp); simp only [List.length_cons]; omega
  · rw [ho]; rw [hh] at hu; exact h.fresh p (hA hp) u hu
  · rw [hh]; exact h.doneCur
  · rw [hh]; exact h.doneLost
  · rw [hh]; exact h.curLost

theorem Whole.begin (h : Whole tr A) (hp : p ∉ A) (hA : A' ⊆ insert p A) :
    Whole (.begin p :: tr) A' := by
  have hne : ∀ q ∈ A', q ≠ p → opOf q (.begin p :: tr) = opOf q tr ∧ q ∈ A := by
    intro q hq hqp
    refine ⟨by simp [opOf, Ne.symm hqp], ?_⟩
    rcases Finset.mem_insert.1 (hA hq) with rfl | hq
    · exact absurd rfl hqp
    · exact hq
  have hself : opOf p (.begin p :: tr) = tr.length := by simp [opOf]
  refine ⟨fun u hu => Nat.lt_succ_of_lt (h.bound u hu), fun q hq => ?_, fun q hq u hu => ?_,
    h.doneCur, h.doneLost, h.curLost⟩
  · by_cases hqp : q = p
    · subst hqp; rw [hself]; simp
    · obtain ⟨e, hqA⟩ := hne q hq hqp
      rw [e]; exact Nat.lt_succ_of_lt (h.opBound q hqA)
  · by_cases hqp : q = p
    · subst hqp; rw [hself]; exact Nat.ne_of_lt (h.bound u (hu.imp_right Or.inr))
    · obtain ⟨e, hqA⟩ := hne q hq hqp
      rw [e]; exact h.fresh q hqA u hu

theorem Whole.modify {f : Block → Block} (h : Whole tr A) (hp : p ∈ A) :
    Whole (.modify p i b f :: tr) A := by
  refine ⟨fun u hu => ?_, fun q hq => Nat.lt_succ_of_lt (h.opBound q hq),
    fun q hq u hu => h.fresh q hq u hu, fun u hu v hv => ?_, h.doneLost, fun u hu v hv => ?_⟩
  · have hold := fun hu => Nat.lt_succ_of_lt (h.bound u hu)
    rcases hu with hu | hu | hu
    · exact hold (Or.inl hu)
    · rcases List.mem_append.1 hu with hu | hu
      · exact hold (Or.inr (Or.inl hu))
      · obtain rfl := List.mem_singleton.1 hu
        exact Nat.lt_succ_of_lt (h.opBound p hp)
    · exact hold (Or.inr (Or.inr hu))
  · rcases List.mem_append.1 hv with hv | hv
    · exact h.doneCur u hu v hv
    · obtain rfl := List.mem_singleton.1 hv
      exact h.fresh p hp u (Or.inl hu)
  · rcases List.mem_append.1 hu with hu | hu
    · exact h.curLost u hu v hv
    · obtain rfl := List.mem_singleton.1 hu
      exact (h.fresh p hp v (Or.inr hv)).symm

theorem Whole.writeHead (h : Whole tr A) : Whole (.writeHead p :: tr) ∅ := by
  refine ⟨fun u hu => ?_, by simp, by simp, by simp [hist], fun u hu v hv => ?_, by simp [hist]⟩
  · refine Nat.lt_succ_of_lt (h.bound u ?_)
    rcases hu with hu | hu | hu
    · exact (List.mem_append.1 hu).imp_right Or.inl
    · simp [hist] at hu
    · exact Or.inr (Or.inr hu)
  · rcases List.mem_append.1 hu with hu | hu
    · exact h.doneLost u hu v hv
    · exact h.curLost u hu v hv

theorem Whole.crash (h : Whole tr A) : Whole (.crash :: tr) ∅ := by
  refine ⟨fun u hu => ?_, by simp, by simp, by simp [hist], fun u hu v hv => ?_, by simp [hist]⟩
  · refine Nat.lt_succ_of_lt (h.bound u ?_)
    rcases hu with hu | hu | hu
    · exact Or.inl hu
    · simp [hist] at hu
    · exact Or.inr ((List.mem_append.1 hu).symm)
  · rcases List.mem_append.1 hv with hv | hv
    · exact h.doneLost u hu v hv
    · exact h.doneCur u hu v hv

/-! ## The invariant -/

/-- Nothing of the transaction is committed: the header is empty, the cache is `cur` ahead of the
disk. -/
structure Quiet (g : Geom) (base : Disk) (cur : List Upd) (s : Sys) : Prop where
  disk : Logged g s.bio.disk base []
  view : ∀ b, ¬ g.inLog b → s.bio.view b = applyAll cur base b
  dirty : ∀ i b, s.bio.Cached b i → (s.bio.buf i).dirty = true → b ∈ s.log.block
  /-- `write_log` has copied the blocks before `tail` -/
  copied : ∀ p, s.log.pc p = .commit → ∃ k, s.stage p = .writeLog k ∧
    ∀ j b, j < k → s.log.block[j]? = some b → s.bio.disk (g.start + j + 1) = s.bio.view b

/-- Everything is committed: the header lists the transaction, the cache is `base`. -/
structure Committed (g : Geom) (base : Disk) (cur : List Upd) (s : Sys) : Prop where
  cur : cur = []
  disk : Logged g s.bio.disk base s.log.block
  view : ∀ b, ¬ g.inLog b → s.bio.view b = base b
  /-- what `install_trans` has not come to yet is pinned -/
  stage : ∃ p k, s.log.pc p = .commit ∧ s.stage p = .install k ∧
    ∀ i b, s.bio.Cached b i → (s.bio.buf i).dirty = true → ∃ j, k ≤ j ∧ s.log.block[j]? = some b

/-- Changed by its holder and not yet logged. -/
def Sys.own (s : Sys) (i : Fin NBUF) : Prop := ∃ p, s.held i = some (p, true)

structure Up (g : Geom) (base : Disk) (cur : List Upd) (s : Sys) (A : Finset Nat) : Prop where
  excl : Excl s.log A
  wf : s.bio.WF s.own
  held : ∀ i p m, s.held i = some (p, m) → p ∈ A ∧ (s.bio.buf i).busy = true
  out : ∀ b ∈ s.log.block, ¬ g.inLog b ∧ b < 2 ^ 32
  len : s.log.block.length ≤ g.size - 1
  phase : Quiet g base cur s ∨ Committed g base cur s

variable {cur : List Upd}

theorem Up.idle (h : Up g base cur s A) (hp : s.log.pc p = .commit) : A = ∅ :=
  h.excl.idle (h.excl.commits p (by rw [hp]; rfl))

/-- While an operation is open nobody commits. -/
theorem Up.active (h : Up g base cur s A) (hp : p ∈ A) :
    (∀ q, s.log.pc q ≠ .commit) ∧ Quiet g base cur s := by
  have hno : ∀ q, s.log.pc q ≠ .commit := fun q hq => by rw [h.idle hq] at hp; simp at hp
  refine ⟨hno, h.phase.resolve_right fun hc => ?_⟩
  obtain ⟨q, k, hq, -⟩ := hc.stage
  exact hno q hq

theorem Up.not_own (h : Up g base cur s A) (hA : A = ∅) (i : Fin NBUF) : ¬ s.own i := by
  rintro ⟨p, hp⟩
  have := (h.held i p true hp).1
  simp [hA] at this

variable {l : St}

section

variable (h : Up g base cur s A)
include h

theorem Up.admit (hx : Excl l A') (hA : A ⊆ A')
    (hb : l.block = s.log.block) (hc : ∀ q, l.pc q = .commit ↔ s.log.pc q = .commit) :
    Up g base cur { s with log := l } A' := by
  refine ⟨hx, h.wf, fun i p m hi => ⟨hA (h.held i p m hi).1, (h.held i p m hi).2⟩, hb.symm ▸ h.out,
    hb.symm ▸ h.len, ?_⟩
  rcases h.phase with hq | hc'
  · exact Or.inl ⟨hq.disk, hq.view, fun i b => hb.symm ▸ hq.dirty i b,
      fun q hq' => hb.symm ▸ hq.copied q ((hc q).1 hq')⟩
  · obtain ⟨q, k, hq, hk⟩ := hc'.stage
    exact Or.inr ⟨hc'.cur, hb.symm ▸ hc'.disk, hc'.view, ⟨q, k, (hc q).2 hq, hb.symm ▸ hk⟩⟩

theorem up_begin (hb : beginOp s.log p = .ok l) :
    p ∉ A ∧ ∃ A', A' ⊆ insert p A ∧ Up g base cur { s with log := l } A' := by
  obtain ⟨hp, hpc, hcases⟩ := begin_cases h.excl hb
  have hcommit : ∀ c, c ≠ .commit → ∀ q, (s.log.setPc p c).pc q = .commit ↔
      s.log.pc q = .commit := by
    intro c hc q
    refine ⟨setPc_back hc, fun hq => ?_⟩
    have hqp : q ≠ p := by rintro rfl; rcases hpc with e | e <;> simp [e] at hq
    simpa [hqp] using hq
  refine ⟨hp, ?_⟩
  rcases hcases with ⟨rfl, -⟩ | ⟨rfl, hcm, -⟩
  · exact ⟨A, Finset.subset_insert p A,
      h.admit (excl_asleep h.excl hp) subset_rfl rfl (hcommit _ (by simp))⟩
  · exact ⟨insert p A, subset_rfl, h.admit (excl_enter h.excl hp hcm) (Finset.subset_insert p A) rfl
      (hcommit _ (by simp))⟩

theorem up_check (hb : logWriteCheck g.size s.log p b = .ok l) :
    Up g base cur { s with log := l } A := by
  obtain ⟨hpc, -, rfl⟩ := check_cases hb
  refine h.admit (excl_check h.excl hpc) subset_rfl rfl fun q =>
    ⟨setPc_back (by simp), fun hq => ?_⟩
  have hqp : q ≠ p := by rintro rfl; simp [hpc] at hq
  simpa [hqp] using hq

theorem up_finish (hb : finish s.log p = .ok l) :
    Up g base cur { s with log := l } A := by
  obtain ⟨hpc, hx, hblock, -, hno⟩ := excl_finish h.excl hb
  refine h.admit hx subset_rfl hblock fun q => ⟨fun hq => absurd hq (hno q), fun hq => ?_⟩
  have := h.excl.one q p (by rw [hq]; rfl) (by rw [hpc]; rfl)
  subst this
  simp [hpc] at hq

theorem up_endOp (hheld : ∀ i, s.held i ≠ some (p, false) ∧ s.held i ≠ some (p, true))
    (hb : endOp s.log p = .ok l) :
    Up g base cur { s with log := l, stage := update s.stage p (.writeLog 0) } (A.erase p) := by
  obtain ⟨hp, hx, hblock, -, hcommit⟩ := excl_endOp h.excl hb
  obtain ⟨-, hq⟩ := h.active hp
  refine ⟨hx, h.wf, fun i q m hi => ⟨Finset.mem_erase.2 ⟨?_, (h.held i q m hi).1⟩,
    (h.held i q m hi).2⟩, hblock.symm ▸ h.out, hblock.symm ▸ h.len,
    Or.inl ⟨hq.disk, hq.view, fun i b => hblock.symm ▸ hq.dirty i b, fun q hq' => ⟨0, ?_, by simp⟩⟩⟩
  · rintro rfl
    cases m
    · exact (hheld i).1 hi
    · exact (hheld i).2 hi
  · obtain rfl := hcommit q hq'
    simp

end

theorem wf_congr {t : Bio} {own own' : Fin NBUF → Prop} (h : t.WF own) (e : ∀ j, own' j ↔ own j) :
    t.WF own' :=
  (funext fun j => propext (e j) : own' = own) ▸ h

section

variable (h : Up g base cur s A)
include h

/-- The state after a step of an open operation on buffer `i`, which is `x` from then on. -/
theorem Up.touched {bio' : Bio} {x : Option (Nat × Bool)} {cur' : List Upd}
    (hp : p ∈ A) (hx : Excl l A) (hno : ∀ q, l.pc q ≠ .commit)
    (hsub : ∀ b ∈ s.log.block, b ∈ l.block) (hout : ∀ b ∈ l.block, ¬ g.inLog b ∧ b < 2 ^ 32)
    (hlen : l.block.length ≤ g.size - 1)
    (hwf : bio'.WF fun j => ((∃ q, x = some (q, true)) ∧ j = i) ∨ (s.own j ∧ j ≠ i))
    (hself : ∀ q m, x = some (q, m) → q = p ∧ (bio'.buf i).busy = true)
    (hbusy : ∀ j, j ≠ i → (s.bio.buf j).busy = true → (bio'.buf j).busy = true)
    (hdisk : bio'.disk = s.bio.disk) (hview : ∀ b, ¬ g.inLog b → bio'.view b = applyAll cur' base b)
    (hdirty : ∀ j b, bio'.Cached b j → (bio'.buf j).dirty = true →
      b ∈ l.block ∨ s.bio.Cached b j ∧ (s.bio.buf j).dirty = true) :
    Up g base cur' { s with bio := bio', log := l, held := update s.held i x } A := by
  obtain ⟨-, hq⟩ := h.active hp
  refine ⟨hx, wf_congr hwf fun j => ?_, fun j q m hj => ?_, hout, hlen,
    Or.inl ⟨hdisk.symm ▸ hq.disk, hview, fun j b hc hd => ?_, fun q hq' => absurd hq' (hno q)⟩⟩
  · by_cases hj : j = i
    · subst hj; simp [Sys.own]
    · simp [Sys.own, hj]
  · by_cases hji : j = i
    · subst hji
      obtain ⟨rfl, hb⟩ := hself q m (by simpa using hj)
      exact ⟨hp, hb⟩
    · have := h.held j q m (by simpa [hji] using hj)
      exact ⟨this.1, hbusy j hji this.2⟩
  · exact (hdirty j b hc hd).elim id fun ⟨hc', hd'⟩ => hsub b (hq.dirty j b hc' hd')

theorem mem_of_tx (hpc : s.log.pc p = .tx) : p ∈ A := by
  rw [h.excl.mem, hpc]; rfl

theorem up_bread (hpc : s.log.pc p = .tx) (b : Nat) : (bread ROOTDEV b).wp
    (fun i bio' => Up g base cur { s with
      bio := bio', held := update s.held i (some (p, false)) } A)
    (fun _ => True) s.bio := by
  have hp := mem_of_tx h hpc
  obtain ⟨hno, hq⟩ := h.active hp
  refine wp_any (bread_wp h.wf b) fun i bio' ⟨hw, hr⟩ => ?_
  have hni := hr.not_own h.wf
  refine h.touched hp h.excl hno (fun _ h => h) h.out h.len (wf_congr hw fun j => ?_)
    (fun q m hqm => ?_)
    (fun j hj hb => by rwa [hr.frame j hj]) hr.disk (fun c hc => by
      rw [hr.view]
      exact hq.view c hc)
    fun j c hc hd => Or.inr ⟨(hr.dirty_back hd).2 c hc, (hr.dirty_back hd).1⟩
  · constructor
    · rintro (⟨⟨q, hq⟩, -⟩ | ⟨ho, -⟩)
      · simp at hq
      · exact ho
    · exact fun ho => Or.inr ⟨ho, by rintro rfl; exact hni ho⟩
  · cases hqm; exact ⟨rfl, hr.busy⟩

theorem busy_of_holds (hh : s.holds p i b) : p ∈ A ∧ (s.bio.buf i).busy = true := by
  rcases hh.1 with e | e
  · exact h.held i p false e
  · exact h.held i p true e

theorem up_modify {u : Upd} (hh : s.holds p i u.block) (hout : ¬ g.inLog u.block) :
    (setData i (u.f (s.bio.buf i).data)).wp (fun _ bio' => Up g base (cur ++ [u])
      { s with bio := bio', held := update s.held i (some (p, true)) } A)
        (fun _ => True) s.bio := by
  obtain ⟨hp, hb⟩ := busy_of_holds h hh
  obtain ⟨hno, hq⟩ := h.active hp
  refine wp_any (setData_spec h.wf hh.2.1 hb _) fun _ bio' ⟨hw, hd, hv, hc, hdb⟩ => ?_
  refine h.touched hp h.excl hno (fun _ h => h) h.out h.len (wf_congr hw fun j => ?_)
    (fun q m hqm => ?_)
    (fun j hj hb => by rwa [(hdb j).2]) hd (fun c hcl => ?_)
    fun j c hcj hdj => Or.inr ⟨(hc c j).1 hcj, by rwa [(hdb j).1] at hdj⟩
  · by_cases hj : j = i
    · simp [hj]
    · simp [hj]
  · cases hqm; exact ⟨rfl, by rw [(hdb i).2]; exact hb⟩
  · rw [hv, applyAll_append, applyUpd, Function.update_apply, ← hq.view c hcl, ← hq.view _ hout,
      view_of_cached h.wf hh.2.1]

theorem up_append (hh : s.holds p i b) (hout : ¬ g.inLog b)
    (hb : logWriteAppend s.log p b = .ok l) (hlen : (absorb s.log.block b).length ≤ g.size - 1) :
    (setDirty i).wp (fun _ bio' => Up g base cur
      { s with bio := bio', log := l, held := update s.held i (some (p, false)) } A)
      (fun _ => True) s.bio := by
  obtain ⟨hp, hbusy⟩ := busy_of_holds h hh
  obtain ⟨hno, hq⟩ := h.active hp
  obtain ⟨hpc, rfl⟩ := append_cases hb
  refine wp_any (setDirty_spec h.wf hh.2.1) fun _ bio' ⟨hw, hd, hv, hc, hdj, hbj, _⟩ => ?_
  refine h.touched hp (excl_append h.excl hpc) (fun q hq' => hno q (setPc_back (by simp) hq'))
    (fun c hc => mem_absorb.2 (Or.inr hc)) (fun c hc => ?_) hlen (wf_congr hw fun j => ?_)
      (fun q m hqm => ?_)
    (fun j hj hb => by rwa [hbj]) hd (fun c hcl => by rw [hv]; exact hq.view c hcl)
      (fun j c hcj hdj' => ?_)
  · rcases mem_absorb.1 hc with rfl | hc
    · exact ⟨hout, hh.2.2⟩
    · exact h.out c hc
  · constructor
    · rintro (⟨⟨q, hq⟩, -⟩ | ho)
      · simp at hq
      · exact ho
    · exact Or.inr
  · cases hqm; exact ⟨rfl, by rw [hbj]; exact hbusy⟩
  · by_cases hji : j = i
    · subst hji
      left
      exact mem_absorb.2 (Or.inl (((hc c j).1 hcj).2.symm.trans hh.2.1.2))
    · exact Or.inr ⟨(hc c j).1 hcj, by rwa [hdj j hji] at hdj'⟩

theorem up_brelse (hh : s.held i = some (p, false)) (hc : s.bio.Cached b i) :
    (brelse i).wp (fun _ bio' => Up g base cur
      { s with bio := bio', held := update s.held i none } A) (fun _ => True) s.bio := by
  obtain ⟨hp, hb⟩ := h.held i p false hh
  obtain ⟨hno, hq⟩ := h.active hp
  have ho : ¬ s.own i := by rintro ⟨q, hq⟩; rw [hh] at hq; simp at hq
  obtain ⟨hw, hv, hcc, hd, hbi, hbj⟩ := released_spec h.wf hc ho
  refine (wp_brelse hb).2 (h.touched hp h.excl hno (fun _ h => h) h.out h.len
    (wf_congr hw fun j => ?_) (by simp)
    (fun j hj hb => by rwa [hbj j hj]) rfl (fun c hcl => by rw [hv]; exact hq.view c hcl)
    fun j c hcj hdj => Or.inr ⟨(hcc c j).1 hcj, by rwa [hd j] at hdj⟩)
  constructor
  · rintro (⟨⟨q, hq⟩, -⟩ | ⟨ho, -⟩)
    · simp at hq
    · exact ho
  · exact fun ho' => Or.inr ⟨ho', by rintro rfl; exact ho ho'⟩

end

/-! ### Commit -/

variable {k : Nat}

section

variable (h : Up g base cur s A)
include h

theorem Up.collecting (hp : s.log.pc p = .commit) (hst : s.stage p = .writeLog k) :
    Quiet g base cur s := by
  refine h.phase.resolve_right fun hc => ?_
  obtain ⟨q, j, hq, hj, -⟩ := hc.stage
  obtain rfl : q = p := h.excl.one q p (by rw [hq]; rfl) (by rw [hp]; rfl)
  rw [hst] at hj; simp at hj

theorem Up.installing (hp : s.log.pc p = .commit) (hst : s.stage p = .install k) :
    Committed g base cur s ∧
      ∀ i b, s.bio.Cached b i → (s.bio.buf i).dirty = true → ∃ j, k ≤ j ∧
      s.log.block[j]? = some b := by
  have hc : Committed g base cur s := h.phase.resolve_left fun hq => by
    obtain ⟨j, hj, -⟩ := hq.copied p hp
    rw [hst] at hj; simp at hj
  refine ⟨hc, ?_⟩
  obtain ⟨q, j, hq, hj, hdirty⟩ := hc.stage
  obtain rfl : q = p := h.excl.one q p (by rw [hq]; rfl) (by rw [hp]; rfl)
  obtain rfl : j = k := by rw [hst] at hj; simpa using hj.symm
  exact hdirty

theorem logBlock_ne_home (hk : s.log.block[k]? = some b) : g.start + k + 1 ≠ b := by
  rintro rfl
  exact (h.out _ (List.mem_of_getElem? hk)).1 (inLog_logBlock h.len hk)

theorem up_writeLog (hp : s.log.pc p = .commit) (hst : s.stage p = .writeLog k)
    (hk : s.log.block[k]? = some b) :
    (logBlock ROOTDEV (g.start + k + 1) b).wp (fun _ bio' => Up g base cur
      { s with bio := bio', stage := update s.stage p (.writeLog (k + 1)) } A)
        (fun _ => True) s.bio := by
  have hq := h.collecting hp hst
  have hA := h.idle hp
  have hklt : k < s.log.block.length := (List.getElem?_eq_some_iff.1 hk).1
  refine wp_any (logBlock_wp h.wf (logBlock_ne_home h hk)) fun _ bio' ⟨hw, hs⟩ => ?_
  have hview : ∀ c, ¬ g.inLog c → bio'.view c = s.bio.view c := by
    intro c hc
    rw [hs.view, if_neg]
    rintro rfl; exact hc (inLog_logBlock h.len hk)
  refine ⟨h.excl, hw, fun i q m hi => ?_, h.out, h.len,
    Or.inl ⟨?_, fun c hc => (hview c hc).trans (hq.view c hc),
    fun i c hc hd => ?_, fun q hq' => ⟨k + 1, ?_, fun j c hj hjc => ?_⟩⟩⟩
  · have := (h.held i q m hi).1; simp [hA] at this
  · rw [hs.disk]; exact hq.disk.writeLog (by have := h.len; omega)
  · obtain ⟨hd', hc'⟩ := hs.dirty i hd
    exact hq.dirty i c (hc' c hc).1 hd'
  · obtain rfl : q = p := h.excl.one q p (by rw [hq']; rfl) (by rw [hp]; rfl)
    simp
  · have hc := (h.out c (List.mem_of_getElem? hjc)).1
    obtain ⟨k', hk', hcopied⟩ := hq.copied p hp
    obtain rfl : k' = k := by rw [hst] at hk'; simpa using hk'.symm
    rw [hs.disk, hview c hc]
    by_cases hjk : j = k'
    · subst hjk
      obtain rfl : b = c := Option.some.inj (hk.symm.trans hjc)
      rw [update_self]
    · rw [update_of_ne (by omega)]
      exact hcopied j c (by omega) hjc

theorem up_writeHead (hp : s.log.pc p = .commit)
    (hst : s.stage p = .writeLog s.log.block.length) : (writeHead g s.log.block).wp (fun _ bio' =>
      Up g (applyAll cur base) [] { s with bio := bio', stage := update s.stage p (.install 0) } A)
      (fun _ => True) s.bio := by
  have hq := h.collecting hp hst
  have hA := h.idle hp
  refine wp_any (update_wp h.wf (writeHeader · s.log.block)) fun _ bio' ⟨hw, hs⟩ => ?_
  have hne : ∀ c, ¬ g.inLog c → c ≠ g.start := by rintro c hc rfl; exact hc (inLog_start g)
  obtain ⟨k, hk, hcopied⟩ := hq.copied p hp
  obtain rfl : k = s.log.block.length := by rw [hst] at hk; simpa using hk.symm
  refine ⟨h.excl, hw, fun i q m hi => ?_, h.out, h.len,
    Or.inr ⟨rfl, ⟨?_, h.len, fun c hc => (h.out c hc).1, ?_, ?_⟩,
    fun c hc => ?_, ⟨p, 0, hp, by simp, fun i c hc hd => ?_⟩⟩⟩
  · have := (h.held i q m hi).1; simp [hA] at this
  · rw [hs.disk, update_self]
    exact readHeader_writeHeader _ (by have := h.len; have := g.size_le; omega) fun c hc =>
      (h.out c hc).2
  · intro c hc hcb
    rw [hs.disk, update_of_ne (hne c hc), ← hq.view c hc]
    exact (view_eq_disk h.wf fun i hi => ⟨by
      by_contra hd
      exact hcb (hq.dirty i c hi (by simpa using hd)), h.not_own hA i⟩).symm
  · intro k c hk
    have hkl : k < s.log.block.length := (List.getElem?_eq_some_iff.1 hk).1
    rw [hs.disk, update_of_ne (by omega), hcopied k c hkl hk]
    exact hq.view c (h.out c (List.mem_of_getElem? hk)).1
  · rw [hs.view, if_neg (hne c hc)]; exact hq.view c hc
  · obtain ⟨hd', hc'⟩ := hs.dirty i hd
    obtain ⟨j, hj, rfl⟩ := List.getElem_of_mem (hq.dirty i c (hc' c hc).1 hd')
    exact ⟨j, Nat.zero_le _, by simp [hj]⟩

theorem up_install (hp : s.log.pc p = .commit) (hst : s.stage p = .install k)
    (hk : s.log.block[k]? = some b) :
    (installBlock ROOTDEV (g.start + k + 1) b).wp (fun _ bio' => Up g base cur
      { s with bio := bio', stage := update s.stage p (.install (k + 1)) } A)
        (fun _ => True) s.bio := by
  obtain ⟨hc, hdirty⟩ := h.installing hp hst
  have hA := h.idle hp
  -- a log block is never pinned, so the cache has what the disk has
  have hlog : s.bio.view (g.start + k + 1) = s.bio.disk (g.start + k + 1) :=
    view_eq_disk h.wf fun i hi => ⟨by
      by_contra hd
      obtain ⟨j, -, hj⟩ := hdirty i _ hi (by simpa using hd)
      exact (h.out _ (List.mem_of_getElem? hj)).1 (inLog_logBlock h.len hk), h.not_own hA i⟩
  refine wp_any (installBlock_wp h.wf (logBlock_ne_home h hk)) fun _ bio' ⟨hw, hs⟩ => ?_
  refine ⟨h.excl, hw, fun i q m hi => ?_, h.out, h.len, Or.inr ⟨hc.cur, ?_, fun c hcl => ?_,
    ⟨p, k + 1, hp, by simp, fun i c hci hd => ?_⟩⟩⟩
  · have := (h.held i q m hi).1; simp [hA] at this
  · rw [hs.disk, hlog]; exact hc.disk.install hk
  · rw [hs.view]
    split
    · next e => rw [hlog, e]; exact hc.disk.log k b hk
    · exact hc.view c hcl
  · obtain ⟨hd', hc'⟩ := hs.dirty i hd
    obtain ⟨j, hkj, hj⟩ := hdirty i c (hc' c hci).1 hd'
    refine ⟨j, Nat.lt_of_le_of_ne hkj ?_, hj⟩
    rintro rfl
    exact (hc' c hci).2 (Option.some.inj (hj.symm.trans hk))

end

theorem no_commit (hx : Excl s.log A) (hp : s.log.pc p = .commit)
    (hl : l = { s.log.setPc p .finish with block := [] }) :
    ∀ q, l.pc q ≠ .commit := by
  subst hl
  intro q hq
  have hq' : s.log.pc q = .commit := setPc_back (c := .finish) (by simp) hq
  obtain rfl : q = p := hx.one q p (by rw [hq']; rfl) (by rw [hp]; rfl)
  simp at hq

theorem up_eraseHead (h : Up g base cur s A) (hp : s.log.pc p = .commit)
    (hst : s.stage p = .install s.log.block.length) (hl : commit s.log p = .ok l) :
    (writeHead g []).wp (fun _ bio' => Up g base cur { s with bio := bio', log := l } A)
      (fun _ => True) s.bio := by
  obtain ⟨hc, hdirty⟩ := h.installing hp hst
  obtain ⟨-, hA, hl⟩ := commit_cases h.excl hl
  have hclean : ∀ i b, s.bio.Cached b i → (s.bio.buf i).dirty = false := by
    intro i b hi
    by_contra hd
    obtain ⟨j, hj, hjb⟩ := hdirty i b hi (by simpa using hd)
    rw [List.getElem?_eq_none hj] at hjb
    simp at hjb
  have hdisk : ∀ b, ¬ g.inLog b → s.bio.disk b = base b := fun b hb => by
    rw [← hc.view b hb]
    exact (view_eq_disk h.wf fun i hi => ⟨hclean i b hi, h.not_own hA i⟩).symm
  refine wp_any (update_wp h.wf (writeHeader · [])) fun _ bio' ⟨hw, hs⟩ => ?_
  refine ⟨hl ▸ excl_commit h.excl hp, hw, fun i q m hi => ?_, by simp [hl], by simp [hl],
    Or.inl ⟨?_, fun c hcl => ?_,
    fun i c hci hd => ?_, fun q hq => absurd hq (no_commit h.excl hp hl q)⟩⟩
  · have := (h.held i q m hi).1; simp [hA] at this
  · rw [hs.disk]; exact Logged.erase hdisk _
  · rw [hs.view, if_neg (by rintro rfl; exact hcl (inLog_start g)), hc.cur]; exact hc.view c hcl
  · obtain ⟨hd', hc'⟩ := hs.dirty i hd
    rw [hclean i c (hc' c hci).1] at hd'
    simp at hd'

theorem up_commitNone (h : Up g base cur s A) (hp : s.log.pc p = .commit)
    (hst : s.stage p = .writeLog 0)
    (hb : s.log.block = []) (hl : commit s.log p = .ok l) :
    Up g base cur { s with log := l } A := by
  have hq := h.collecting hp hst
  obtain ⟨-, hA, hl⟩ := commit_cases h.excl hl
  have hlb : l.block = s.log.block := by rw [hl, hb]
  exact ⟨hl ▸ excl_commit h.excl hp, h.wf, h.held, hlb.symm ▸ h.out, hlb.symm ▸ h.len,
    Or.inl ⟨hq.disk, hq.view, fun i c => hlb.symm ▸ hq.dirty i c,
      fun q hq' => absurd hq' (no_commit h.excl hp hl q)⟩⟩

/-! ## Every run -/

structure Down (tr : List Ev) (s : Sys) : Prop where
  idle : s.bio.Idle
  held : ∀ i, s.held i = none
  cur : (hist tr).cur = []
  tx : txBlocks tr = []

/-- What holds after the events `tr`, by what the machine is doing. -/
def Inv (g : Geom) (d : Disk) (tr : List Ev) (s : Sys) : Prop :=
  match s.mode with
  | .off => Whole tr ∅ ∧ Down tr s ∧ ∃ bl, Logged g s.bio.disk (applyAll (hist tr).done d) bl
  | .recovering k =>
    Whole tr ∅ ∧ Down tr s ∧ Logged g s.bio.disk (applyAll (hist tr).done d) s.log.block ∧
      ∀ j b, j < k → s.log.block[j]? = some b → s.bio.disk b = applyAll (hist tr).done d b
  | .up =>
    ∃ A, Whole tr A ∧ Up g (applyAll (hist tr).done d) (hist tr).cur s A ∧ s.log.block = txBlocks tr

theorem inv_init (h : readHeader (d g.start) = []) : Inv g d [] (powerOff d) :=
  ⟨by constructor <;> simp [hist], ⟨idle_binit d, fun _ => rfl, rfl, rfl⟩, [],
    ⟨h, by simp, by simp, fun _ _ _ => rfl, by simp⟩⟩

/-- Whatever the machine was doing, recovery finds a disk it can restore. -/
theorem Inv.logged (h : Inv g d tr s) :
    Whole tr ∅ ∧ ∃ bl, Logged g s.bio.disk (applyAll (hist tr).done d) bl := by
  unfold Inv at h
  split at h
  · exact ⟨h.1, h.2.2⟩
  · exact ⟨h.1, _, h.2.2.1⟩
  · obtain ⟨A, hw, hu, -⟩ := h
    refine ⟨⟨hw.bound, by simp, by simp, hw.doneCur, hw.doneLost, hw.curLost⟩, ?_⟩
    rcases hu.phase with hq | hc
    · exact ⟨_, hq.disk⟩
    · exact ⟨_, hc.disk⟩

theorem Inv.up (h : Inv g d tr s) (hm : s.mode = .up) :
    ∃ A, Whole tr A ∧ Up g (applyAll (hist tr).done d) (hist tr).cur s A ∧
    s.log.block = txBlocks tr := by
  unfold Inv at h; rw [hm] at h; exact h

theorem inv_of_up (hm : s.mode = .up) (hw : Whole (e :: tr) A)
    (hu : Up g (applyAll (hist (e :: tr)).done d) (hist (e :: tr)).cur s A)
    (hb : s.log.block = txBlocks (e :: tr)) :
    Inv g d (e :: tr) s := by
  unfold Inv; rw [hm]; exact ⟨A, hw, hu, hb⟩

theorem inv_step (h : Inv g d tr s) (hout : ∀ b, e.target = some b → ¬ g.inLog b)
    (hfit : (txBlocks (e :: tr)).length ≤ g.size - 1) :
    (step g e).wp (fun _ s' => Inv g d (e :: tr) s') (fun _ => True) s := by
  cases e with
  | begin p =>
    simp only [step, wp_bind, wp_require]
    intro hm
    obtain ⟨A, hw, hu, hb⟩ := h.up hm
    refine wp_onLog fun l hl => ?_
    obtain ⟨hp, A', hA, hu'⟩ := up_begin hu hl
    have hlb : l.block = s.log.block := by
      obtain ⟨-, -, ⟨rfl, -⟩ | ⟨rfl, -⟩⟩ := begin_cases hu.excl hl <;> rfl
    exact inv_of_up hm (hw.begin hp hA) hu' (hlb.trans hb)
  | bread p b =>
    simp only [step, wp_bind, wp_require, wp_onBio, wp_setHeld]
    rintro ⟨hm, hpc⟩
    obtain ⟨A, hw, hu, hb⟩ := h.up hm
    exact wp_any (up_bread hu hpc b)
      fun i bio' hu' => inv_of_up hm (hw.skip subset_rfl rfl fun _ => rfl) hu' hb
  | modify p i b f =>
    simp only [step, wp_bind, wp_require, wp_onBio, wp_setHeld, wp_get]
    rintro ⟨hm, hpc, hh⟩
    obtain ⟨A, hw, hu, hb⟩ := h.up hm
    exact wp_any (up_modify (u := ⟨opOf p tr, b, f⟩) hu hh (hout b rfl))
      fun _ bio' hu' => inv_of_up hm (hw.modify (mem_of_tx hu hpc)) hu' hb
  | check p i b =>
    simp only [step, wp_bind, wp_require]
    rintro ⟨hm, -⟩
    obtain ⟨A, hw, hu, hb⟩ := h.up hm
    refine wp_onLog fun l hl => ?_
    have hlb : l.block = s.log.block := by obtain ⟨-, -, rfl⟩ := check_cases hl; rfl
    exact inv_of_up hm (hw.skip subset_rfl rfl fun _ => rfl) (up_check hu hl) (hlb.trans hb)
  | append p i b =>
    simp only [step, wp_bind, wp_require]
    rintro ⟨hm, hh⟩
    obtain ⟨A, hw, hu, hb⟩ := h.up hm
    refine wp_onLog fun l hl => ?_
    simp only [wp_onBio, wp_setHeld]
    have hlb : l.block = absorb s.log.block b := by obtain ⟨-, rfl⟩ := append_cases hl; rfl
    rw [txBlocks, ← hb] at hfit
    exact wp_any (up_append hu hh (hout b rfl) hl hfit)
      fun _ bio' hu' => inv_of_up hm (hw.skip subset_rfl rfl fun _ => rfl) hu'
        (by rw [txBlocks, ← hb]; exact hlb)
  | brelse p i b =>
    simp only [step, wp_bind, wp_require, wp_onBio, wp_setHeld]
    rintro ⟨hm, -, hh, hc⟩
    obtain ⟨A, hw, hu, hb⟩ := h.up hm
    exact wp_any (up_brelse hu hh hc)
      fun _ bio' hu' => inv_of_up hm (hw.skip subset_rfl rfl fun _ => rfl) hu' hb
  | endOp p =>
    simp only [step, wp_bind, wp_require]
    rintro ⟨hm, hheld⟩
    obtain ⟨A, hw, hu, hb⟩ := h.up hm
    refine wp_onLog fun l hl => ?_
    obtain ⟨-, -, hlb, -⟩ := excl_endOp hu.excl hl
    have hu' := up_endOp hu hheld hl
    exact inv_of_up hm (hw.skip (Finset.erase_subset p A) rfl fun _ => rfl) hu' (hlb.trans hb)
  | writeLog p k b =>
    simp only [step, wp_bind, wp_require, wp_onBio, wp_setStage]
    rintro ⟨hm, hpc, hst, hk⟩
    obtain ⟨A, hw, hu, hb⟩ := h.up hm
    exact wp_any (up_writeLog hu hpc hst hk)
      fun _ bio' hu' => inv_of_up hm (hw.skip subset_rfl rfl fun _ => rfl) hu' hb
  | writeHead p =>
    simp only [step, wp_bind, wp_require, wp_onBio, wp_setStage, wp_get]
    rintro ⟨hm, hpc, -, hst⟩
    obtain ⟨A, hw, hu, hb⟩ := h.up hm
    obtain rfl := hu.idle hpc
    refine wp_any (up_writeHead hu hpc hst) fun _ bio' hu' => inv_of_up hm hw.writeHead ?_ hb
    rw [hist, applyAll_applyAll]
    exact hu'
  | install p k b =>
    simp only [step, wp_bind, wp_require, wp_onBio, wp_setStage]
    rintro ⟨hm, hpc, hst, hk⟩
    obtain ⟨A, hw, hu, hb⟩ := h.up hm
    exact wp_any (up_install hu hpc hst hk)
      fun _ bio' hu' => inv_of_up hm (hw.skip subset_rfl rfl fun _ => rfl) hu' hb
  | eraseHead p =>
    simp only [step, wp_bind, wp_require, wp_onBio]
    rintro ⟨hm, hpc, hst⟩
    obtain ⟨A, hw, hu, hb⟩ := h.up hm
    have hl : commit s.log p = .ok { s.log.setPc p .finish with block := [] } := if_pos hpc
    refine wp_any (up_eraseHead hu hpc hst hl) fun _ bio' hu' => wp_onLog fun l hl' => ?_
    obtain rfl := Except.ok.inj (hl.symm.trans hl')
    exact inv_of_up hm (hw.skip subset_rfl rfl fun _ => rfl) hu' rfl
  | commitNone p =>
    simp only [step, wp_bind, wp_require]
    rintro ⟨hm, hpc, hnil, hst⟩
    obtain ⟨A, hw, hu, hb⟩ := h.up hm
    refine wp_onLog fun l hl => ?_
    have hlb : l.block = s.log.block := by rw [(commit_cases hu.excl hl).2.2, hnil]
    exact inv_of_up hm (hw.skip subset_rfl rfl fun _ => rfl) (up_commitNone hu hpc hst hnil hl)
      (hlb.trans hb)
  | finish p =>
    simp only [step, wp_bind, wp_require]
    intro hm
    obtain ⟨A, hw, hu, hb⟩ := h.up hm
    refine wp_onLog fun l hl => ?_
    obtain ⟨-, -, hlb, -⟩ := excl_finish hu.excl hl
    exact inv_of_up hm (hw.skip subset_rfl rfl fun _ => rfl) (up_finish hu hl) (hlb.trans hb)
  | crash =>
    obtain ⟨hw, hbl⟩ := h.logged
    exact ⟨hw.crash, ⟨idle_binit _, fun _ => rfl, rfl, rfl⟩, hbl⟩
  | boot =>
    simp only [step, wp_bind, wp_require, wp_onBio]
    intro hm
    unfold Inv at h
    rw [hm] at h
    obtain ⟨hw, hd, bl, hl⟩ := h
    refine wp_any (readHead_wp hd.idle) fun bl' bio' hr => ?_
    obtain ⟨hbl, hi, hdisk⟩ := hr
    obtain rfl : bl' = bl := hbl.trans hl.header
    exact ⟨hw.skip subset_rfl rfl fun _ => rfl, ⟨hi, hd.held, hd.cur, hd.tx⟩,
      hdisk.symm ▸ hl, by simp⟩
  | recInstall k b =>
    simp only [step, wp_bind, wp_require, wp_onBio, wp_setMode]
    rintro ⟨hm, hk⟩
    unfold Inv at h
    rw [hm] at h
    obtain ⟨hw, hd, hl, hdone⟩ := h
    refine wp_any (installBlock_wp hd.idle.wf (hl.ne_home hk)) fun _ bio' hr => ?_
    obtain ⟨hwf, hs⟩ := hr
    have hdisk : bio'.disk = update s.bio.disk b (s.bio.disk (g.start + k + 1)) := by
      rw [hs.disk, hd.idle.view]
    exact ⟨hw.skip subset_rfl rfl fun _ => rfl, ⟨hd.idle.store hwf hs, hd.held, hd.cur, hd.tx⟩,
      hdisk.symm ▸ hl.install hk, hdisk.symm ▸ hl.installed hk hdone⟩
  | recErase =>
    simp only [step, wp_bind, wp_require, wp_onBio]
    intro hm
    unfold Inv at h
    rw [hm] at h
    obtain ⟨hw, hd, hl, hdone⟩ := h
    refine wp_any (update_wp hd.idle.wf (writeHeader · [])) fun _ bio' hr => ?_
    obtain ⟨hwf, hs⟩ := hr
    refine wp_onLog fun l hl' => ?_
    obtain rfl := Except.ok.inj hl'
    rw [wp_setMode]
    have hi := hd.idle.store hwf hs
    have hnone : ∀ (q : Prop) (i : Fin NBUF) (p : Nat) (m : Bool), s.held i = some (p, m) → q := by
      intro q i p m hi; rw [hd.held i] at hi; simp at hi
    refine inv_of_up rfl (hw.skip subset_rfl rfl fun _ => rfl) ⟨excl_init,
      wf_congr hi.wf fun i => ?_,
      fun i p m => hnone _ i p m, by simp [init], by simp [init],
        Or.inl ⟨?_, fun b hb => ?_, fun i b _ hdi => ?_, by simp [init]⟩⟩ hd.tx.symm
    · exact ⟨fun hp => hnone _ i _ true hp.choose_spec, fun h => h.elim⟩
    · rw [hs.disk]; exact Logged.erase (hl.all_installed hdone) _
    · rw [hi.view, hs.disk, update_of_ne (by rintro rfl; exact hb (inLog_start g)),
        hl.all_installed hdone b hb]
      show _ = applyAll (hist tr).cur _ b
      rw [hd.cur]
      rfl
    · have := hi.dirty i; rw [this] at hdi; simp at hdi

theorem run_cons (h : run g d (e :: tr) = .ok s') :
    ∃ s, run g d tr = .ok s ∧ step g e s = .ok ((), s') := by
  simp only [run, bind, Except.bind] at h
  split at h
  · simp at h
  · next s hs =>
    split at h
    · simp at h
    · next r hr => cases h; exact ⟨s, hs, hr⟩

theorem inv_run (hd : readHeader (d g.start) = []) :
    ∀ {tr : List Ev} {s : Sys}, run g d tr = .ok s →
    (∀ e ∈ tr, ∀ b, e.target = some b → ¬ g.inLog b) →
    (∀ t, t <:+ tr → (txBlocks t).length ≤ g.size - 1) → Inv g d tr s
  | [], s, h, _, _ => by cases h; exact inv_init hd
  | e :: tr, s', h, hout, hfit => by
    obtain ⟨s, hs, hstep⟩ := run_cons h
    have ih := inv_run hd hs (fun e' he' => hout e' (List.mem_cons_of_mem _ he'))
      fun t ht => hfit t (ht.trans (List.suffix_cons e tr))
    exact Prog.wp_ok (Q := fun _ s' => Inv g d (e :: tr) s')
      (inv_step ih (hout e List.mem_cons_self) (hfit _ List.suffix_rfl)) hstep

/-- **Crash atomicity.** Take any interleaving of operations, commits, crashes and recoveries from a
disk with an empty log, in which the operations change and log blocks outside the log only and no
transaction has more than `log.size - 1` distinct blocks. Running `recover_from_log` on the disk as
it is now returns, and outside the log the disk then is the initial one with the updates of the
committed operations applied; an operation with a committed update has no other. -/
theorem crash_atomic {s : Sys} (hd : readHeader (d g.start) = []) (hrun : run g d tr = .ok s)
    (hout : ∀ e ∈ tr, ∀ b, e.target = some b → ¬ g.inLog b)
    (hfit : ∀ t, t <:+ tr → (txBlocks t).length ≤ g.size - 1) :
    (∃ bio, recoverFromLog g (binit s.bio.disk) = .ok ((), bio) ∧
      ∀ b, ¬ g.inLog b → bio.disk b = applyAll (hist tr).done d b) ∧
    ∀ u ∈ (hist tr).done, ∀ v, v ∈ (hist tr).cur ∨ v ∈ (hist tr).lost → u.op ≠ v.op := by
  obtain ⟨hw, bl, hl⟩ := (inv_run hd hrun hout hfit).logged
  obtain ⟨⟨⟩, bio, hrec, -, hbase⟩ := Prog.wp_total.1 (recoverFromLog_wp hl)
  exact ⟨⟨bio, hrec, fun b hb => hbase.home b hb (by simp)⟩,
    fun u hu v hv => hv.elim (hw.doneCur u hu v) (hw.doneLost u hu v)⟩

/-- The log mkfs makes on the first partition: 30 blocks after its superblock. -/
def demoGeom : Geom := ⟨2, LOGSIZE, by decide, by decide⟩

/-- One operation changes block 60; the machine stops between its commit and the installation. -/
def demo : List Ev :=
  [.crash, .writeHead 0, .writeLog 0 0 60, .endOp 0, .brelse 0 28 60,
    .append 0 28 60, .check 0 28 60,
    .modify 0 28 60 (·.setByte 5 1), .bread 0 60, .begin 0, .recErase, .boot]

theorem crash_atomic_demo : ∃ s bio, run demoGeom (fun _ => Bytes.zero) demo = .ok s ∧
    recoverFromLog demoGeom (binit s.bio.disk) = .ok ((), bio) ∧
    bio.disk 60 = Bytes.zero.setByte 5 1 := by
  obtain ⟨s, hs⟩ : ∃ s, run demoGeom (fun _ => Bytes.zero) demo = .ok s := by
    cases h : run demoGeom (fun _ => Bytes.zero) demo with
    | ok s => exact ⟨s, rfl⟩
    | error e =>
      have hok : (run demoGeom (fun _ => Bytes.zero) demo).isOk = true := rfl
      rw [h] at hok; cases hok
  have hfit : ∀ t ∈ demo.tails, (txBlocks t).length ≤ demoGeom.size - 1 := by decide
  obtain ⟨⟨bio, hbio, hdisk⟩, -⟩ := crash_atomic (by simp [readHeader, Bytes.signed]) hs
    (by simp [demo, demoGeom, Ev.target, Geom.inLog, LOGSIZE, MAXOPBLOCKS]) fun t ht =>
      hfit t ((List.mem_tails t demo).2 ht)
  exact ⟨s, bio, hs, hbio, hdisk 60 (by decide)⟩

/-! ## At rest -/

theorem Up.settled (h : Up g base cur s ∅) (hn : s.log.block = []) (hb : ¬ g.inLog b) :
    s.bio.view b = base b := by
  rcases h.phase with hq | hc
  · -- what is dirty is in the list, and the list is empty
    have hclean : ∀ i, s.bio.Cached b i → (s.bio.buf i).dirty = false := fun i hi => by
      by_contra hd
      simpa [hn] using hq.dirty i b hi (by simpa using hd)
    rw [view_eq_disk h.wf fun i hi => ⟨hclean i hi, h.not_own rfl i⟩]
    exact hq.disk.home b hb (by simp)
  · exact hc.view b hb

/-- **At rest nothing is in memory only.** When no operation is under way and `log.lh.n` is 0,
recovery brings back every block outside the log as `bread` would return it now. -/
theorem rest_durable (hd : readHeader (d g.start) = []) (hrun : run g d tr = .ok s)
    (hout : ∀ e ∈ tr, ∀ b, e.target = some b → ¬ g.inLog b)
    (hfit : ∀ t, t <:+ tr → (txBlocks t).length ≤ g.size - 1)
    (hup : s.mode = .up) (hidle : s.log.outstanding = 0) (hn : s.log.block = []) :
    ∃ bio, recoverFromLog g (binit s.bio.disk) = .ok ((), bio) ∧
      ∀ b, ¬ g.inLog b → bio.disk b = s.bio.view b := by
  have hinv := inv_run hd hrun hout hfit
  obtain ⟨-, bl, hl⟩ := hinv.logged
  obtain ⟨A, -, hu, -⟩ := hinv.up hup
  obtain rfl : A = ∅ := by rw [← Finset.card_eq_zero, ← hu.excl.card, hidle]
  obtain ⟨⟨⟩, bio, hrec, -, hbase⟩ := Prog.wp_total.1 (recoverFromLog_wp hl)
  exact ⟨bio, hrec, fun b hb => (hbase.home b hb (by simp)).trans (hu.settled hn hb).symm⟩

/-- `demo`, up to the erased header. -/
theorem rest_durable_demo :
    ∃ s bio, run demoGeom (fun _ => Bytes.zero)
        (.eraseHead 0 :: .install 0 0 60 :: demo.tail) = .ok s ∧
    recoverFromLog demoGeom (binit s.bio.disk) = .ok ((), bio) ∧ bio.disk 60 = s.bio.view 60 := by
  have hfit : ∀ t ∈ (Ev.eraseHead 0 :: .install 0 0 60 :: demo.tail).tails,
      (txBlocks t).length ≤ 29 := by decide
  obtain ⟨bio, hbio, hdisk⟩ := rest_durable (g := demoGeom)
    (d := fun _ => Bytes.zero) (by simp [readHeader, Bytes.signed]) rfl
    (by simp [demo, demoGeom, Ev.target, Geom.inLog, LOGSIZE, MAXOPBLOCKS]) (fun t ht =>
      hfit t ((List.mem_tails t _).2 ht)) rfl rfl rfl
  exact ⟨_, bio, rfl, hbio, hdisk 60 (by decide)⟩

end Os4.Log.Crash
