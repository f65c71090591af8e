import Os4.Proc.Desk
/-!
# Open files are counted (sysfile.c, proc.c)

| here | there |
| --- | --- |
| `does_sysPipe` .. `does_sysOpen` | sysfile.c:433, 96, 57, 297 |
| `does_fork`, `does_exit`, `does_wait`, `does_boot` | proc.c:127, 171, 215, 79 |
| `Still c` | no call that opens, closes or copies descriptors is under way |

Every call leaves its desk empty on every way out (`filing_obeys`); **`open_files`** says what
follows.
-/
namespace Os4.Vm

open Prog
open Function (update_eq_self update_self update_of_ne update)
open Multiset (mem_add mem_singleton_self count_zero count)

variable {L : Layout} {P : (Fin NPROC → Option Job) → Prop} {α β : Type} {A B M : Multiset Tok}
  {s s' : St} {r : Record}
  {g : Fin NPROC → Option Job} {F F' : Fin NPROC → Desk} {d d' : Desk} {dir b : Frame}
  {p q i : Fin NPROC} {x y : Proc}
  {o : Fin NOFILE → Option (Fin NFILE)} {w : Option (Fin NOFILE × Fin NFILE)}
  {R : Multiset (Fin NFILE)} {fr : List (Fin NFILE)}
  {k k' f0 f1 : Fin NFILE} {fd : Fin NOFILE} {wr : Bool}

/-! ## sysfile.c -/

theorem does_sysPipe (hP : InCall P p) :
    Turns L P p (sysPipe L p) {.me p .plain} .away {.me p .plain} .away := by
  refine (does_proc hP).bind fun x A d hd => ?_
  obtain ⟨⟨dir, -, rfl⟩, rfl⟩ := hd
  generalize x.ofile = o
  refine (does_pipealloc hP).bind fun a A d hd => ?_
  obtain ⟨rfl, hd⟩ := hd
  cases a with
  | none =>
    subst hd
    exact does_done
  | some e =>
    obtain ⟨rf, wf⟩ := e
    subst hd
    have hswap : ({wf, rf} : Multiset (Fin NFILE)) = rf ::ₘ wf ::ₘ 0 := Multiset.cons_swap ..
    have hbad : Turns L P p (do fileclose L rf; fileclose L wf; return (-1 : Int))
      {.me p (.busy dir)}
        (desk o none {wf, rf} []) {.me p .plain} .away := by
      rw [hswap]
      refine (does_fileclose hP).next fun _ => ?_
      refine (does_fileclose hP).next fun _ => ?_
      exact does_done
    refine (does_fdalloc hP).bind fun a A d hd => ?_
    obtain ⟨rfl, hd⟩ := hd
    cases a with
    | none =>
      subst hd
      exact hbad
    | some fd0 =>
      obtain ⟨hfd0, rfl⟩ := hd
      rw [hswap]
      refine does_count hP ((does_fdalloc hP).bind fun a A d hd => ?_)
      obtain ⟨rfl, hd⟩ := hd
      cases a with
      | none =>
        -- the first descriptor is taken back
        subst hd
        refine does_uncount hP (update_self ..) ((does_clearFd hP).next fun _ => ?_)
        rw [Function.update_idem, ← hfd0, update_eq_self, ← hswap]
        exact hbad
      | some fd1 =>
        obtain ⟨-, rfl⟩ := hd
        exact does_count hP does_done

theorem does_sysClose (hP : InCall P p) :
    Turns L P p (sysClose L p fd) {.me p .plain} .away {.me p .plain} .away := by
  refine (does_proc hP).bind fun x A d hd => ?_
  obtain ⟨⟨dir, -, rfl⟩, rfl⟩ := hd
  split
  · exact does_done
  · rename_i k hk
    refine does_uncount hP hk ((does_clearFd hP).next fun _ => ?_)
    refine (does_fileclose hP).next fun _ => ?_
    exact does_done

theorem slots_pos (h : o fd = some k) : slots o k ≠ 0 := by
  unfold slots
  rw [← Finset.add_sum_erase _ _ (Finset.mem_univ fd), if_pos h]
  omega

theorem does_sysDup (hP : InCall P p) :
    Turns L P p (sysDup p fd) {.me p .plain} .away {.me p .plain} .away := by
  refine (does_proc hP).bind fun x A d hd => ?_
  obtain ⟨⟨dir, -, rfl⟩, rfl⟩ := hd
  split
  · exact does_done
  · rename_i k hk
    refine (does_fdalloc hP).bind fun a A d hd => ?_
    obtain ⟨rfl, hd⟩ := hd
    cases a with
    | none =>
      subst hd
      exact does_done
    | some fd' =>
      obtain ⟨-, rfl⟩ := hd
      refine (does_filedup hP (Nat.ne_of_gt (Nat.add_pos_left (Nat.pos_of_ne_zero (slots_pos hk))
        _))).next fun _ => ?_
      exact does_count hP does_done

theorem does_sysOpen {found : Bool} (hP : InCall P p) :
    Turns L P p (sysOpen L p found) {.me p .plain} .away {.me p .plain} .away := by
  refine (does_proc hP).bind fun x A d hd => ?_
  obtain ⟨⟨dir, -, rfl⟩, rfl⟩ := hd
  split
  · refine (does_filealloc hP).bind fun a A d hd => ?_
    obtain ⟨rfl, hd⟩ := hd
    cases a with
    | none =>
      subst hd
      exact does_done
    | some k =>
      obtain ⟨-, rfl⟩ := hd
      refine (does_fdalloc hP).bind fun a A d hd => ?_
      obtain ⟨rfl, hd⟩ := hd
      cases a with
      | none =>
        subst hd
        refine (does_fileclose hP).next fun _ => ?_
        rw [show [k].filter (· ≠ k) = [] by simp]
        exact does_done
      | some fd =>
        obtain ⟨-, rfl⟩ := hd
        refine does_count hP ((does_fillInode hP).next fun _ => ?_)
        exact does_done
  · exact does_done

/-! ## proc.c -/

theorem does_same {m : VmM α} {Q0 : α → Multiset Tok → Prop}
    (hS : Trades L False P (act .other m) A Q0)
    (h : ∀ M s, Ledger L (A + M) s →
      m.wp (fun _ s' => Same s s') (fun e => e ≠ .filedup ∧ e ≠ .fileclose) s) :
    Does L P p (act .other m) A d fun a A' d' => Q0 a A' ∧ d' = d := by
  refine does_act (hS.frame d.lent) fun g F M s r _ hi _ hL hR hPages => ?_
  rw [add_assoc] at hL
  refine wp_mono (h _ s hL) fun a s' hs B hB => ?_
  obtain ⟨A', rfl, hQ⟩ := hB
  have hF : update F p d = F := by rw [← hi, update_eq_self]
  exact ⟨A', d, rfl, by rw [hF]; exact hR.same hs, by rw [hF]; exact hPages.same hs, hQ, rfl⟩

/-- The process that `i` sets up or takes apart is not alive. -/
theorem Ledger.work_not_live {reap dying : Bool} (hL : Ledger L M s)
    (hm : .me i (.work q x reap dying) ∈ M) :
    (s.procs q).status ≠ .live := by
  obtain ⟨hq, hst⟩ := hL.people.knows i _ q hm rfl
  intro hlive
  rw [hq] at hlive
  cases reap with
  | false =>
    have hst : x.status = .embryo := hst
    rw [hst] at hlive
    cases hlive
  | true =>
    have hst : x.status = .zombie ∧ _ := hst
    rw [hst.1] at hlive
    cases hlive

theorem leaves_takeProc : Leaves takeProc := by
  intro s
  unfold takeProc
  rw [wp_bind, wp_get]
  split
  · exact Same.refl s
  · rename_i q hq
    have hunused : (s.procs q).status = .unused := by
      have := List.find?_some hq
      simpa using this
    refine same_withProc rfl ⟨nofun, fun h => ?_⟩
    rw [hunused] at h
    cases h

theorem does_allocproc : Does L P p allocproc {.me p .plain} d fun a A' d' => (match a with
    | none => A' = {.me p .plain}
    | some q => ∃ y, A' = {.me p (.work q y false false)} ∧ y.kstack ≠ none) ∧ d' = d := by
  refine (does_basic safe_takeProc (Basic.act leaves_takeProc)).bind fun a A d' hd => ?_
  obtain ⟨hA, rfl⟩ := hd
  cases a with
  | none => exact .ret ⟨hA, rfl⟩
  | some q =>
    obtain ⟨y, rfl, -⟩ := hA
    refine (does_same safe_newStack fun M s hL => ?_).bind fun a A d hd => ?_
    · have hq : (s.procs q).status ≠ .live :=
        hL.work_not_live (mem_add.2 (.inl (mem_singleton_self _)))
      unfold newStack
      rw [wp_bind]
      refine wp_mono (leaves_kalloc s) fun r s' hs => ?_
      rw [wp_bind, wp_get]
      have hq' : (s'.procs q).status ≠ .live := fun h => hq ((hs.live q).1 h)
      cases r with
      | none => exact hs.trans (same_withProc rfl ⟨nofun, fun h => absurd h hq'⟩)
      | some f => exact hs.trans (same_withProc rfl Iff.rfl)
    · obtain ⟨hA, rfl⟩ := hd
      cases a with
      | false => exact .ret ⟨hA, rfl⟩
      | true => exact .ret ⟨hA, rfl⟩

theorem leaves_freeStack : Leaves (freeStack L q) := by
  refine Leaves.bind (fun s => Same.refl s) fun a => ?_
  cases a with
  | none => exact .throw ⟨nofun, nofun⟩
  | some f => exact leaves_kfree

theorem leaves_clearStack : Leaves (clearStack q) := fun _ => same_withProc rfl Iff.rfl

theorem basic_dropStack : Basic .other (dropStack L q) :=
  .bind (.act leaves_freeStack) fun _ => .point rfl leaves_clearStack

theorem does_dropProc : Turns L P p (act .other (dropProc q))
    {.me i (.work q x false false)} d {.me i .plain} d := by
  refine does_same safe_dropProc fun M s hL => ?_
  have hq : (s.procs q).status ≠ .live := hL.work_not_live (mem_add.2 (.inl (mem_singleton_self _)))
  exact same_withProc rfl ⟨nofun, fun h => absurd h hq⟩

theorem does_reapProc : Turns L P p (act .other (reapProc q))
    {.me i (.work q x true false)} d {.me i .plain} d := by
  refine does_same safe_reapProc fun M s hL => ?_
  have hq : (s.procs q).status ≠ .live := hL.work_not_live (mem_add.2 (.inl (mem_singleton_self _)))
  exact same_withProc rfl ⟨nofun, fun h => absurd h hq⟩

/-- References of the call become descriptors of the process `q`, which had none. -/
theorem Refs.start {o' : Fin NOFILE → Option (Fin NFILE)} (hR : Refs g F s)
    (hcalls : d = .away ∨ ∃ j, g p = some j ∧ j.onFiles = true)
    (hfds : d.fds = (F p).fds) (howing : d.owing = (F p).owing) (hfresh : d.fresh = [])
    (hrefs : ∀ k, d.refs.count k + slots o' k = (F p).refs.count k)
    (hq : (s.procs q).status ≠ .live) (hy : y.status = .live)
    (ho : y.ofile = o') : Refs g (update F p d) (s.withProc q y) := by
  have hfdsOf : ∀ i, (update F p d i).fds = (F i).fds ∧ (update F p d i).owing = (F i).owing :=
    fun i => by
    by_cases hip : i = p
    · rw [hip, update_self]
      exact ⟨hfds, howing⟩
    · rw [update_of_ne hip]
      exact ⟨rfl, rfl⟩
  have hqnone : (F q).fds = none := by
    cases h : (F q).fds with
    | none => rfl
    | some o => exact absurd (hR.sees q o h).live hq
  have hqhold : ∀ x k, (update F p d q).hold x k =
      slots x.ofile k + (update F p d q).refs.count k := fun x k => by
    unfold Desk.hold
    rw [(hfdsOf q).1, hqnone]
    rfl
  have hqoff : ∀ k, slots (s.procs q).ofile k = 0 := fun k => by
    rw [hR.off q hq]
    exact slots_none
  refine ⟨fun i => ?_, fun i o hi => ?_, fun i hi => ?_, fun k => ?_, hR.closed, fun i k hk => ?_⟩
  · by_cases hip : i = p
    · rwa [hip, update_self]
    · rw [update_of_ne hip]
      exact hR.calls i
  · rw [(hfdsOf i).1] at hi
    have hsees := hR.sees i o hi
    have hiq : i ≠ q := by
      rintro rfl
      exact hq hsees.live
    rw [withProc_ne hiq]
    refine ⟨hsees.live, ?_, fun fd k h => hsees.owing fd k ((hfdsOf i).2 ▸ h)⟩
    rw [hsees.table]
    unfold Desk.table
    rw [(hfdsOf i).2]
  · by_cases hiq : i = q
    · rw [hiq, withProc_self] at hi
      exact absurd hy hi
    · rw [withProc_ne hiq] at hi ⊢
      exact hR.off i hi
  · have hdesk : ∑ i, (update F p d i).hold (s.procs i) k + (F p).hold (s.procs p) k =
        ∑ i, (F i).hold (s.procs i) k + d.hold (s.procs p) k := total_update (fun _ _ => rfl) k
    have hproc : ∑ i, (update (update F p d) q (update F p d q) i).hold
      ((s.withProc q y).procs i) k +
        (update F p d q).hold (s.procs q) k = ∑ i, (update F p d i).hold (s.procs i) k +
        (update F p d q).hold ((s.withProc q y).procs q) k :=
          total_update (fun i hiq => by rw [withProc_ne hiq]) k
    rw [update_eq_self, hqhold, hqhold, hqoff, withProc_self, ho] at hproc
    have hp : d.hold (s.procs p) k + slots o' k = (F p).hold (s.procs p) k := by
      unfold Desk.hold
      rw [hfds, add_assoc, hrefs]
    have hk := hR.refs k
    show (s.ftable k).ref = _
    omega
  · by_cases hip : i = p
    · rw [hip, update_self, hfresh] at hk
      exact (List.not_mem_nil hk).elim
    · rw [update_of_ne hip] at hk ⊢
      obtain ⟨hone, htype, hpos⟩ := hR.fresh i k hk
      refine ⟨hone, htype, ?_⟩
      by_cases hiq : i = q
      · subst hiq
        have hold : (F i).hold (s.procs i) k = slots (s.procs i).ofile k + (F i).refs.count k := by
          unfold Desk.hold
          rw [hqnone]
          rfl
        rw [hold, hqoff] at hpos
        unfold Desk.hold
        omega
      · rwa [withProc_ne hiq]

theorem does_startProc {sz : Nat} {parent : Option (Fin NPROC)} {S : Space} (hk : y.kstack ≠ none)
    (hd : d.Plain) (hd' : d'.Plain)
    (hcalls : ∀ g, P g → d' = .away ∨ ∃ j, g p = some j ∧ j.onFiles = true) (hfds : d'.fds = d.fds)
    (howing : d'.owing = d.owing)
    (hfresh : d'.fresh = []) (hrefs : ∀ k, d'.refs.count k + slots o k = d.refs.count k) :
    Turns L P p (act .other (startProc q dir sz parent o)) ({.me i (.work q y false false)} +
      {.space dir .call S none}) d {.me i .plain} d' := by
  refine does_plain hd (safe_startProc hk) fun g F M s hg hi hL hR => ?_
  have hq : (s.procs q).status ≠ .live :=
    hL.work_not_live (mem_add.2 (.inl (mem_add.2 (.inl (mem_singleton_self _)))))
  refine ⟨⟨rfl, fun _ _ _ => Iff.rfl⟩, d', hd', ?_, rfl⟩
  exact hR.start (hcalls g hg) (by rw [hi, hfds]) (by rw [hi, howing]) hfresh
    (fun k => by rw [hi]; exact hrefs k) hq rfl rfl

/-- The child's references, one for each descriptor. -/
theorem count_filterMap (o : Fin NOFILE → Option (Fin NFILE)) (k : Fin NFILE)
    (l : List (Fin NOFILE)) :
    (l.filterMap o).count k = (l.map fun fd => if o fd = some k then 1 else 0).sum := by
  induction l with
  | nil => rfl
  | cons fd l ih =>
    rw [List.map_cons, List.sum_cons, ← ih]
    cases ho : o fd with
    | none => rw [List.filterMap_cons_none ho, if_neg nofun, zero_add]
    | some k' =>
      rw [List.filterMap_cons_some ho, List.count_cons, add_comm]
      simp

theorem slots_eq_count : count k ((List.finRange NOFILE).filterMap o : Multiset (Fin NFILE)) =
    slots o k := by
  rw [Multiset.coe_count, count_filterMap]
  exact (Fin.sum_univ_def _).symm

variable {fds : List (Fin NOFILE)}

theorem does_dupFiles (hP : InCall P p) (hx : x.ofile = o) :
    Turns L P p (dupFiles x fds) A (desk o none R []) A
      (desk o none (R + (fds.filterMap o : List (Fin NFILE))) []) := by
  induction fds generalizing R with
  | nil => exact .ret ⟨rfl, by rw [List.filterMap_nil, Multiset.coe_nil, add_zero]⟩
  | cons fd fds ih =>
    unfold dupFiles
    rw [hx]
    cases ho : o fd with
    | none =>
      rw [List.filterMap_cons_none ho]
      exact ih
    | some k =>
      refine (does_filedup hP (Nat.ne_of_gt (Nat.add_pos_left (Nat.pos_of_ne_zero (slots_pos ho))
        _))).next fun _ => ?_
      refine ih.mono fun _ A' d hd => ?_
      rw [List.filterMap_cons_some ho, ← Multiset.cons_coe, Multiset.add_cons, ← Multiset.cons_add]
      exact hd

theorem does_fork (hP : InCall P p) :
    Turns L P p (fork L p) {.me p .plain} .away {.me p .plain} .away := by
  refine (does_proc hP).bind fun x A d hd => ?_
  obtain ⟨⟨src, hsrc, rfl⟩, rfl⟩ := hd
  rw [hsrc]
  generalize ho : x.ofile = o
  have hdone : ∀ {r : Int}, Turns L P p (.ret r) {.me p .plain} (desk o none 0 []) {.me p .plain}
      .away := fun {r} => by
    refine does_restate desk_plain ⟨rfl, rfl, rfl⟩ (.ret ⟨rfl, rfl⟩) (fun _ _ hL => hL)
      fun g F s _ hi hR => ?_
    refine hR.restate (.inl rfl) nofun (fun k => ?_) fun _ hk => (List.not_mem_nil hk).elim
    obtain ⟨-, htable, -⟩ := hR.sees p o (by rw [hi]; rfl)
    rw [hi, away_hold, desk_hold, count_zero, add_zero, htable, hi]
    rfl
  refine does_restate desk_plain desk_plain (B := {.me p .plain}) ?_ (fun M s hL => ?_)
    fun g F s _ hi hR => by
    rwa [← hi, update_eq_self]
  rotate_left
  · rw [Multiset.singleton_add] at hL ⊢
    exact hL.rest rfl rfl
  refine does_allocproc.bind fun a A d hd => ?_
  obtain ⟨hA, rfl⟩ := hd
  cases a with
  | none =>
    subst hA
    exact hdone
  | some q =>
    obtain ⟨y, rfl, hk⟩ := hA
    refine (does_basic safe_copyuvm basic_copyuvm).seq (zero_add _).symm fun a A d hd => ?_
    obtain ⟨hA, rfl⟩ := hd
    cases a with
    | none =>
      cases hA
      rw [zero_add]
      refine (does_basic safe_dropStack_fork basic_dropStack).bind fun _ A d hd => ?_
      obtain ⟨⟨y, rfl⟩, rfl⟩ := hd
      refine does_dropProc.bind fun _ A d hd => ?_
      obtain ⟨rfl, rfl⟩ := hd
      exact hdone
    | some dir =>
      obtain ⟨S, rfl, -⟩ := hA
      refine (does_dupFiles hP ho).next fun _ => ?_
      rw [zero_add]
      have hcalls : ∀ g, P g → desk o none 0 [] = .away ∨ ∃ j, g p = some j ∧ j.onFiles = true :=
        fun g hg => .inr (hP g hg)
      rw [add_comm]
      refine Works.bind (does_startProc hk desk_plain desk_plain hcalls rfl rfl rfl fun k => ?_)
        fun _ A d hd => ?_
      · show count k 0 + slots o k =
          count k ((List.finRange NOFILE).filterMap o : Multiset (Fin NFILE))
        rw [slots_eq_count, count_zero, zero_add]
      · obtain ⟨rfl, rfl⟩ := hd
        exact hdone

theorem does_closeFiles (hP : InCall P p) :
    Turns L P p (closeFiles L p fds) {.me p (.busy dir)} (desk o none 0 []) {.me p (.busy dir)}
      (desk (fun fd => if fd ∈ fds then none else o fd) none 0 []) := by
  induction fds generalizing o with
  | nil => exact .ret ⟨rfl, by simp⟩
  | cons fd fds ih =>
    refine does_proc_again.bind fun x A d hd => ?_
    obtain ⟨rfl, hx, rfl⟩ := hd
    rw [hx]
    have hrest : ∀ fd', (if fd' ∈ fds then none else update o fd none fd') =
        if fd' ∈ fd :: fds then none else o fd' := fun fd' => by
      by_cases hfd : fd' = fd
      · subst hfd
        simp
      · simp [hfd]
    cases ho : o fd with
    | none =>
      refine ih.mono fun _ A' d hd =>
        ⟨hd.1, hd.2.trans (congrArg (desk · none 0 []) (funext fun fd' => ?_))⟩
      rw [← hrest, ← ho, update_eq_self]
    | some k =>
      refine does_uncount hP ho ((does_fileclose hP).next fun _ => ?_)
      refine (does_clearFd hP).next fun _ => ?_
      exact ih.mono fun _ A' d hd => ⟨hd.1, hd.2.trans (congrArg (desk · none 0 []) (funext hrest))⟩

theorem does_endProc : Turns L P p (act .other (endProc p)) {.me p (.busy dir)}
    (desk (fun _ => none) none 0 []) {.me p .plain} .away := by
  refine does_plain desk_plain safe_endProc fun g F M s _ hi _ hR => ?_
  obtain ⟨hlive, htable, -⟩ := hR.sees p _ (by rw [hi]; rfl)
  have htable : (s.procs p).ofile = fun _ => none := by
    rw [htable, hi]
    rfl
  unfold endProc proc
  rw [wp_bind, wp_bind, wp_get]
  dsimp only
  rw [if_pos hlive, wp_pure, wp_bind, wp_modify, wp_modify]
  generalize hs1 : ({ s with
    procs := fun q => if (s.procs q).parent = some p then { s.procs q with parent := some 0 }
    else s.procs q } :
    St) = s1
  have hsame : Same s s1 := by
    subst hs1
    refine ⟨rfl, rfl, fun q => ?_, fun q => ?_⟩
    · dsimp only
      split
      · rfl
      · rfl
    · dsimp only
      split
      · exact Iff.rfl
      · exact Iff.rfl
  have hR1 := hR.same hsame
  have htable1 : (s1.procs p).ofile = fun _ => none := (hsame.ofile p).trans htable
  refine ⟨⟨hsame.isopen, fun k b w => by rw [← hsame.ftable]; rfl⟩, .away, ⟨rfl, rfl, rfl⟩,
    hR1.turn (.inl rfl) (fun i hip => ?_)
    (fun _ => ?_) nofun (fun k => ?_) (fun _ _ _ => rfl) hR1.closed fun _ hk =>
      (List.not_mem_nil hk).elim, rfl⟩
  · rw [withProc_ne hip]
    exact ⟨Iff.rfl, rfl⟩
  · rw [withProc_self]
    exact htable1
  · have hzombie : ({ s1.procs p with status := .zombie } : Proc).ofile = fun _ => none := htable1
    rw [withProc_self, hi, away_hold, desk_hold, count_zero, add_zero, hzombie]
    rfl

theorem does_exit (hP : InCall P p) :
    Turns L P p (exit L p) {.me p .plain} .away {.me p .plain} .away := by
  refine (does_proc hP).bind fun x A d hd => ?_
  obtain ⟨⟨dir, -, rfl⟩, rfl⟩ := hd
  split
  · exact (does_basic (Q := fun _ _ => False) safe_throw
      (Basic.throw (e := .initExiting) ⟨nofun, nofun⟩)).mono fun _ _ _ h => h.1.elim
  · refine (does_closeFiles hP).next fun _ => ?_
    have hall : (fun fd => if fd ∈ List.finRange NOFILE then none else x.ofile fd) = fun _ =>
        none := funext fun fd =>
      if_pos (List.mem_finRange fd)
    rw [hall]
    exact does_endProc.bind fun _ A d hd => .ret hd

variable {killed : Bool}

theorem leaves_findZombie : Leaves (findZombie p killed) := by
  refine leaves_proc.bind fun _ s => ?_
  rw [wp_bind, wp_get]
  split
  · exact Same.refl s
  · split
    · exact Same.refl s
    · exact ⟨nofun, nofun⟩

theorem does_wait : Turns L P p (wait L p killed) {.me p .plain} d {.me p .plain} d := by
  refine (does_basic safe_findZombie (Basic.act leaves_findZombie)).bind fun a A d' hd => ?_
  obtain ⟨hA, rfl⟩ := hd
  cases a with
  | none => exact .ret ⟨hA, rfl⟩
  | some q =>
    obtain ⟨x, rfl⟩ := hA
    refine (does_basic safe_dropStack_wait basic_dropStack).bind fun _ A d hd => ?_
    obtain ⟨⟨dir, S, y, hd, rfl⟩, rfl⟩ := hd
    refine (does_basic (safe_pgdirOf hd) (Basic.act fun s => Same.refl s)).bind fun a A d hd => ?_
    obtain ⟨⟨rfl, rfl⟩, rfl⟩ := hd
    refine Works.seq (does_basic safe_freevm (basic_freevm _)) (add_comm _ _) fun _ A d hd => ?_
    obtain ⟨rfl, rfl⟩ := hd
    rw [zero_add]
    refine does_reapProc.bind fun _ A d hd => ?_
    exact .ret hd

theorem leaves_unbooted : Leaves unbooted := by
  intro s
  unfold unbooted
  rw [wp_bind, wp_get]
  split
  · exact ⟨nofun, nofun⟩
  · exact Same.refl s

theorem does_boot : Turns L P p boot {.me p .plain} .away {.me p .plain} .away := by
  have hthrow : ∀ {A}, Turns L P p (act .other (throw .noMemory : VmM Int)) A .away
      {.me p .plain} .away :=
    fun {A} => (does_basic (Q := fun _ _ => False) safe_throw
      (Basic.throw (e := .noMemory) ⟨by simp, by simp⟩)).mono fun _ _ _ h => h.1.elim
  refine (does_basic safe_unbooted (Basic.act leaves_unbooted)).next fun _ => ?_
  refine (does_basic safe_setupkvm basic_setupkvm).seq (zero_add _).symm fun a A d hd => ?_
  obtain ⟨hA, rfl⟩ := hd
  cases a with
  | none => exact hthrow
  | some k =>
    obtain ⟨S, rfl, -⟩ := hA
    refine (does_basic safe_setKpgdir (Basic.act fun _ =>
      ⟨rfl, rfl, fun _ => rfl, fun _ => Iff.rfl⟩)).seq rfl fun _ A d hd => ?_
    obtain ⟨rfl, rfl⟩ := hd
    rw [zero_add]
    refine does_allocproc.bind fun a A d hd => ?_
    obtain ⟨hA, rfl⟩ := hd
    cases a with
    | none => exact hthrow
    | some q =>
      obtain ⟨y, rfl, hk⟩ := hA
      refine (does_basic safe_setupkvm basic_setupkvm).seq (zero_add _).symm fun a A d hd => ?_
      obtain ⟨hA, rfl⟩ := hd
      cases a with
      | none => exact hthrow
      | some dir =>
        obtain ⟨S, rfl, -⟩ := hA
        refine (does_basic safe_kalloc (Basic.act leaves_kalloc)).seq (zero_add _).symm
          fun a A d hd => ?_
        obtain ⟨rfl, rfl⟩ := hd
        cases a with
        | none => exact hthrow
        | some f =>
          rw [heldOf, ← add_assoc, add_comm {Tok.held f}]
          refine (does_basic (safe_mappages (by simp)) basic_mappages).seq rfl fun _ A d hd => ?_
          obtain ⟨⟨S', rfl, -⟩, rfl⟩ := hd
          rw [add_comm]
          have hplain : Desk.away.Plain := ⟨rfl, rfl, rfl⟩
          refine (does_startProc hk hplain hplain (fun _ _ => .inl rfl) rfl rfl rfl
            fun k => ?_).bind fun _ A d hd => .ret hd
          rw [slots_none, add_zero]

/-! ## Runs -/

/-- **Every call keeps the count.** -/
theorem filing_obeys : Obeys (machine L).record ((memory L False).noted filing) fun p B =>
    B = kit (idle p) p .away := by
  refine obeys_noted (fun j => ?_) (fun _ _ _ _ _ hL => hL) fun g F i o s r hi hN => ?_
  · cases j with
    | boot => exact does_boot
    | fork p => exact does_fork fun g hg => ⟨_, hg, rfl⟩
    | exec p file lens null => exact does_basic safe_exec basic_exec
    | sbrk p n => exact does_basic safe_growproc basic_growproc
    | pipe p => exact does_sysPipe fun g hg => ⟨_, hg, rfl⟩
    | close p fd => exact does_sysClose fun g hg => ⟨_, hg, rfl⟩
    | dup p fd => exact does_sysDup fun g hg => ⟨_, hg, rfl⟩
    | openFile p found => exact does_sysOpen fun g hg => ⟨_, hg, rfl⟩
    | exit p => exact does_exit fun g hg => ⟨_, hg, rfl⟩
    | wait p killed => exact does_wait
  · obtain ⟨hR, hP⟩ := hN
    refine ⟨⟨fun i' => ?_, hR.sees, hR.off, hR.refs, hR.closed, hR.fresh⟩, hP⟩
    by_cases hii : i' = i
    · exact .inl (hii ▸ hi)
    · rw [update_of_ne hii]
      exact hR.calls i'

/-- No file is open. -/
structure NoFiles (s : St) : Prop where
  fds : ∀ p, (s.procs p).ofile = fun _ => none
  files : ∀ k, s.ftable k = ⟨0, .none⟩

theorem sound_noFiles (hs : Raw L s) (hf : NoFiles s) :
    Sound ((memory L False).noted filing) (fun p B => B = kit (idle p) p .away)
      ((⟨fun _ => none, s⟩ : System).record []) := by
  have hlent : ∑ _i : Fin NPROC, filing.lent .away = 0 := Finset.sum_eq_zero fun _ _ => rfl
  have hno : ∀ b w, ¬ Owned (fun _ => .away) s b w := by
    rintro b w (⟨k, hk⟩ | ⟨i, hi⟩)
    · rw [hf.files k] at hk
      cases hk
    · cases hi
  refine sound_noted (by rw [hlent, add_zero]; exact ledger_idle hs Finset.univ)
    ⟨⟨fun _ => .inl rfl, nofun, fun i _ => hf.fds i, fun k => ?_,
    fun k _ => by rw [hf.files k], fun i k hk => (List.not_mem_nil hk).elim⟩, fun b w w' h =>
      absurd h (hno b w'), fun b => ?_⟩
  · rw [hf.files k]
    refine (Finset.sum_eq_zero fun i _ => ?_).symm
    rw [away_hold, hf.fds i, slots_none]
  · rw [standing_gone fun ⟨w, hw⟩ => hno b w hw, Finset.sum_eq_zero fun i _ => if_neg nofun]
    rfl

def Still (c : System) : Prop := ∀ i j, c.jobs i = some j → j.onFiles = false

/-- A pipe is not set up again before its page is freed. -/
theorem standing_le (hL : Ledger L (M + ∑ i, (F i).lent) s) (b : Frame) : standing F s b ≤ 1 := by
  have hall : ∀ i, (F i).lent ≤ M + ∑ i, (F i).lent := fun i => by
    rw [sum_split (fun i => (F i).lent) i]
    exact (Multiset.le_add_right ..).trans (Multiset.le_add_left ..)
  by_cases hfree : ∃ i, (F i).free = some b
  · obtain ⟨i, hi⟩ := hfree
    have hgone : ¬ ∃ w, Owned F s b w :=
      hL.held_not_owned hall (Multiset.mem_of_le (hall i) (mem_lent_free hi))
    rw [standing_gone hgone, Finset.sum_eq_single i (fun i' _ hne => if_neg fun hi' => ?_) fun h =>
      absurd (Finset.mem_univ i) h, if_pos hi]
    have hmem : i' ∈ Finset.univ.erase i := Finset.mem_erase.2 ⟨hne, Finset.mem_univ i'⟩
    rw [sum_split (fun i => (F i).lent) i, ← add_assoc] at hL
    exact hL.apart_keys (mem_add.2 (.inr (mem_lent_free hi)))
      (Multiset.mem_sum.2 ⟨i', hmem, mem_lent_free hi'⟩) rfl
  · have hzero : (∑ i, if (F i).free = some b then 1 else 0) = 0 := Finset.sum_eq_zero fun i _ =>
      if_neg fun hi => hfree ⟨i, hi⟩
    unfold standing
    rw [hzero]
    split
    · exact Nat.le_refl 1
    · exact Nat.zero_le 1

/-- **Open files.** In every state that calls of any processes reach: if no call is on files, the
`ref` of a file is the number of descriptors that point to it; a file with `ref` 0 is `FD_NONE`; no
call is about to panic in `filedup` or `fileclose`. A page is set up as a pipe again only after it
has been freed; when it is freed no file has it any more, and while no call is on files a page has
been freed as often as it was set up, or once less and it is a pipe that a file has. -/
theorem open_files {c : System} (hs : Raw L s) (hf : NoFiles s)
    (h : Pool.Trace (machine L) (fun _ _ => True) ⟨fun _ => none, s⟩ r c) :
    (Still c → ∀ k, (c.state.ftable k).ref = ∑ p, slots (c.state.procs p).ofile k) ∧
    (∀ k, (c.state.ftable k).ref = 0 → (c.state.ftable k).type = .none) ∧
    (∀ i, c.fault i ≠ some .filedup ∧ c.fault i ≠ some .fileclose) ∧
    ∀ b, (frees b r ≤ fills b r ∧ fills b r ≤ frees b r + 1) ∧
      (∀ i c', Pool.Move i (.other, .freed b) c c' →
        (∀ k w, (c.state.ftable k).type ≠ .pipe b w) ∧ fills b r = frees b r + 1) ∧
      (Still c →
        fills b r = frees b r + if ∃ k w, (c.state.ftable k).type = .pipe b w then 1 else 0) := by
  have hS := (sound_noFiles hs hf).reaches filing_obeys
    (h.record.mono fun _ _ _ hfalse => hfalse.elim)
  obtain ⟨A, ⟨F, -, hL, hR, hP⟩, -⟩ := id hS
  have hL : Ledger L (_ + ∑ i, (F i).lent) c.state := hL
  have hR : Refs (c.record r).jobs F c.state := hR
  have hP : Pages F c.state r := hP
  have hjobs : ∀ i, (c.record r).jobs i = c.jobs i := fun i => by
    show ((c.calls i).map _).map _ = (c.calls i).map _
    rw [Option.map_map]
    rfl
  have haway : Still c → ∀ i, F i = .away := fun hstill i => by
    refine (hR.calls i).resolve_right ?_
    rintro ⟨j, hj, hon⟩
    rw [hjobs] at hj
    rw [hstill i j hj] at hon
    cases hon
  refine ⟨fun hstill k => ?_, hR.closed, fun i => ?_,
    fun b => ⟨?_, fun i c' hm => ?_, fun hstill => ?_⟩⟩
  · rw [hR.refs k]
    exact Finset.sum_congr rfl fun i _ => by rw [haway hstill i, away_hold]
  · have hfine : ∀ e, c.fault i = some e → e ≠ .filedup ∧ e ≠ .fileclose := fun e he => by
      unfold Pool.fault at he
      split at he
      · rename_i j β l m k hi
        split at he
        · rename_i e' hm
          cases he
          have hwp := hS.atom (Pool.record_calls hi) fun hfalse => hfalse.elim
          rw [wp_noted] at hwp
          have hfine : filing.fine l e := wp_error hwp hm
          exact hfine
        · cases he
      · cases he
    exact ⟨fun he => (hfine _ he).1 rfl, fun he => (hfine _ he).2 rfl⟩
  · have hle := standing_le hL b
    rw [hP.count b]
    omega
  · obtain ⟨hi, hm⟩ := hm
    have hwp := hS.atom (Pool.record_calls hi) fun hfalse => hfalse.elim
    rw [wp_noted] at hwp
    exact (wp_ok hwp hm).1 b rfl
  · have hiff : (∃ w, Owned F c.state b w) ↔ ∃ k w, (c.state.ftable k).type = .pipe b w := by
      constructor
      · rintro ⟨w, ⟨k, hk⟩ | ⟨i, hi⟩⟩
        · exact ⟨k, w, hk⟩
        · rw [haway hstill i] at hi
          cases hi
      · rintro ⟨k, w, hk⟩
        exact ⟨w, .inl ⟨k, hk⟩⟩
    have hzero : (∑ i, if (F i).free = some b then 1 else 0) = 0 := Finset.sum_eq_zero fun i _ =>
      if_neg fun hi => by
      rw [haway hstill i] at hi
      cases hi
    rw [hP.count b]
    by_cases hex : ∃ k w, (c.state.ftable k).type = .pipe b w
    · rw [if_pos hex, standing_owned (hiff.2 hex), hzero]
    · rw [if_neg hex, standing_gone fun h' => hex (hiff.1 h'), hzero]

/-- The system boots and the first process makes a pipe. -/
def piping : List (Pool.Ev (Fin NPROC) Job) :=
  .start .boot :: List.replicate 268 (.go 0) ++ .start (.pipe 0) :: List.replicate 8 (.go 0)

theorem open_files_pipe :
    ∃ r c, Pool.Trace (machine demoLayout) (fun _ _ => True) ⟨fun _ => none, allFree⟩ r c ∧
    Still c ∧ (c.state.ftable 1).type = .pipe 134 true ∧
    (c.state.ftable 1).ref = ∑ p, slots (c.state.procs p).ofile 1 := by
  have hrun : (Pool.execAll (machine demoLayout) (fun _ _ => true) ⟨fun _ => none, allFree⟩
    piping).map (fun c =>
      (decide (∀ i, c.jobs i = none), (c.state.ftable 1).type)) = some (true, .pipe 134 true) := by
        decide +kernel
  obtain ⟨c, hc, hstate⟩ := Option.map_eq_some_iff.1 hrun
  simp only [Prod.mk.injEq, decide_eq_true_eq] at hstate
  obtain ⟨hquiet, htype⟩ := hstate
  have hreach : Pool.Reaches (machine demoLayout) (fun _ _ => True) _ c :=
    Pool.execAll_reaches (fun _ _ _ => trivial) hc
  obtain ⟨r, hr⟩ := hreach.trace
  have hstill : Still c := fun i j hj => by
    rw [hquiet i] at hj
    cases hj
  exact ⟨r, c, hr, hstill, htype,
    (open_files raw_allFree ⟨fun _ => rfl, fun _ => rfl⟩ hr).1 hstill 1⟩

end Os4.Vm
