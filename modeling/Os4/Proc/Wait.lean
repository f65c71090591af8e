import Os4.Proc.Table
/-!
# Exit and wait (proc.c:171-253)

A slot of the table is used again and again, and pids wrap around, so a process is named here by the
number of the `allocproc` that made it. `life` keeps, beside a run, which process is in each slot,
who made it, who has become ZOMBIE and who has been returned by `wait`.

**`exit_wait`** says that `exit` may wake the parent before it becomes ZOMBIE: the lock is not free
before it has. It also needs that `exit` wakes `initproc` for the zombies among its own children
(`Left.woken`).

Numbers grow from parent to child: **`process_tree`**, **`pids_differ`**.
-/
namespace Os4.Ptable

open Function (update_of_ne update_self update_apply update)

structure Life where
  forks : Nat
  /-- which process is in the slot -/
  child : Slot → Nat
  /-- who called the `fork` that made it -/
  maker : Slot → Nat
  exited : List Nat
  waited : List Nat

def Life.note (l : Life) : Ev → Out → Life
  | .fork p, .made np => { l with
      forks := l.forks + 1
      child := Function.update l.child np (l.forks + 1)
      maker := Function.update l.maker np (l.child p) }
  | .exit p, _ => { l with exited := l.child p :: l.exited }
  | _, .reaped q _ => { l with waited := l.child q :: l.waited }
  | _, _ => l

/-- What has happened in a run; process 0 is `initproc`. -/
def life : List Ev → Life
  | [] => ⟨0, fun _ => 0, fun _ => 0, [], []⟩
  | e :: tr =>
    match run tr >>= (step · e) with
    | .ok (o, _) => (life tr).note e o
    | .error _ => life tr

variable {s s' : St} {e : Ev} {o : Out} {p q np : Slot} {tr : List Ev} {l : Life}

theorem life_cons (hs : run tr = .ok s) (h : step s e = .ok (o, s')) :
    life (e :: tr) = (life tr).note e o := by
  have hstep : (run tr >>= (step · e)) = .ok (o, s') := by
    rw [hs]
    exact h
  simp only [life, hstep]

/-! ## What is noted -/

theorem exit_step (h : step s (.exit p) = .ok (o, s')) :
    p ≠ initproc ∧ s.Enters p ∧ o = .none ∧ s' = exit s p := by
  simp only [step] at h
  split at h
  · cases h
  · next hn =>
    obtain ⟨hp, hr⟩ := guard_ok h
    cases hr
    exact ⟨fun hi => hn ⟨hp, hi⟩, hp, rfl, rfl⟩

/-- The results a step can have, and what they say. -/
inductive Result (s : St) (e : Ev) (o : Out) (s' : St) : Prop where
  | made (p np : Slot) (he : e = .fork p) (ho : o = .made np) (hnp : (s.proc np).state = .unused)
  | reaped (q : Slot) (ho : o = .reaped q (s.proc q).pid) (hq : (s.proc q).state = .zombie)
      (hq' : (s'.proc q).state = .unused)
      (he : ∀ p, e ≠ .exit p)
  | exit (p : Slot) (he : e = .exit p)
  | silent (hmade : ∀ np, o ≠ .made np) (hreaped : ∀ q pid, o ≠ .reaped q pid)
      (he : ∀ p, e ≠ .exit p)

/-- `s1` is `s`, perhaps with a channel cleared. -/
theorem result_wait {s1 : St} (hstate : ∀ q, (s1.proc q).state = (s.proc q).state)
    (hpid : ∀ q, (s1.proc q).pid = (s.proc q).pid)
    (p : Slot) (he : ∀ r, e ≠ .exit r) : Result s e (wait s1 p).1 (wait s1 p).2 := by
  rcases wait_cases s1 p with ⟨q, -, hz, h⟩ | h | ⟨-, h⟩ <;> rw [h]
  · refine .reaped q (by rw [hpid]) (by rw [← hstate, hz]) ?_ he
    show ((reap s1 q).proc q).state = .unused
    unfold reap
    rw [St.set_proc, if_pos rfl]
  · exact .silent nofun nofun he
  · exact .silent nofun nofun he

theorem result_resume (s : St) (p : Slot) (he : ∀ r, e ≠ .exit r) :
    Result s e (resume s p).1 (resume s p).2 := by
  unfold resume
  split
  · refine result_wait (fun q => ?_) (fun q => ?_) p he <;> rw [St.set_proc] <;> split
    · next h => rw [h]
    · rfl
    · next h => rw [h]
    · rfl
  · exact .silent nofun nofun he
  · exact .silent nofun nofun he

theorem result (h : step s e = .ok (o, s')) : Result s e o s' := by
  cases e with
  | acquire | dispatch r | release | yield r | sleep r n | wakeup n | trap r =>
    obtain ⟨-, ⟨⟩⟩ := guard_ok h
    exact .silent (by simp) (by simp) (by simp)
  | resume p =>
    obtain ⟨-, hr⟩ := guard_ok h
    rw [show o = (resume s p).1 from congrArg Prod.fst hr, show s' = (resume s p).2 from
      congrArg Prod.snd hr]
    exact result_resume s p (by simp)
  | fork p =>
    obtain ⟨-, hr⟩ := guard_ok h
    unfold allocproc at hr
    split at hr
    · cases hr
      exact .silent (by simp) (by simp) (by simp)
    · next np hnp =>
      cases hr
      exact .made p np rfl rfl (by simpa using List.find?_some hnp)
  | kalloc p ok | copyuvm p ok =>
    simp only [step] at h
    split at h
    · next np hpc =>
      obtain ⟨-, hr⟩ := guard_ok h
      cases ok <;> cases hr <;> exact .silent (by simp) (by simp) (by simp)
    · cases h
  | start p =>
    simp only [step] at h
    split at h
    · obtain ⟨-, ⟨⟩⟩ := guard_ok h
      exact .silent (by simp) (by simp) (by simp)
    · cases h
  | exit p => exact .exit p rfl
  | wait p =>
    obtain ⟨-, hr⟩ := guard_ok h
    rw [show o = (wait s p).1 from congrArg Prod.fst hr, show s' = (wait s p).2 from
      congrArg Prod.snd hr]
    exact result_wait (fun _ => rfl) (fun _ => rfl) p (by simp)
  | kill p pid =>
    obtain ⟨-, hr⟩ := guard_ok h
    unfold kill at hr
    split at hr <;> cases hr <;> exact .silent (by simp) (by simp) (by simp)

/-! ## The life of a process -/

/-- From one state to the next in slot `q`. -/
inductive Cycle (s : St) (e : Ev) (o : Out) (q : Slot) (x y : Procstate) : Prop where
  | same (h : y = x)
  /-- between SLEEPING, RUNNABLE and RUNNING -/
  | moves (hx : x.alive) (hy : y.alive)
  | made (ho : o = .made q) (hx : x = .unused) (hy : y = .embryo)
  | abandoned (hpc : ∃ r, s.pc r = .kstack q ∨ s.pc r = .copyuvm q) (hx : x = .embryo)
      (hy : y = .unused)
  | started (hpc : ∃ r, s.pc r = .start q) (hx : x = .embryo) (hy : y = .runnable)
  | exits (he : e = .exit q) (hx : x = .running) (hy : y = .zombie)
  | reaped (ho : ∃ pid, o = .reaped q pid) (hx : x = .zombie) (hy : y = .unused)

theorem cycle (hF : Forking s) (h : step s e = .ok (o, s')) (q : Slot) :
    Cycle s e o q (s.proc q).state (s'.proc q).state := by
  cases turn h q with
  | same hy => exact .same (by rw [hy])
  | moves hx hy => exact .moves hx hy
  | trap _ _ hy => exact .same (by rw [hy])
  | kill r pid _ _ hy =>
    rw [hy]
    by_cases hs : (s.proc q).state = .sleeping
    · exact .moves (by rw [hs]; rfl) (by rw [if_pos hs]; rfl)
    · exact .same (if_neg hs)
  | fork r _ ho hx _ hy => exact .made ho hx (by rw [hy])
  | giveUp r he hy =>
    refine .abandoned ⟨r, he.imp And.right And.right⟩ (hF.embryo (p := r) ?_) (by rw [hy])
    rcases he with ⟨-, hpc⟩ | ⟨-, hpc⟩ <;> rw [hpc] <;> rfl
  | link r _ _ hy => exact .same (by rw [hy])
  | start r _ hpc hy => exact .started ⟨r, hpc⟩ (hF.embryo (p := r) (by rw [hpc]; rfl)) (by rw [hy])
  | exit he hx hy => exact .exits he hx hy
  | abandon r _ _ hst =>
    rcases hst with hst | ⟨hx, hy⟩
    · exact .same hst
    · exact .moves (by rw [hx]; rfl) (by rw [hy]; rfl)
  | reap ho hx hy => exact .reaped ⟨_, ho⟩ hx (by rw [hy])

/-! ## Every process is returned once -/

/-- Numbers name processes. -/
structure Counted (s : St) (l : Life) : Prop where
  child_le : ∀ q, l.child q ≤ l.forks
  waited_le : ∀ c ∈ l.waited, c ≤ l.forks
  inj : ∀ {p q}, (s.proc p).state ≠ .unused → (s.proc q).state ≠ .unused →
    l.child p = l.child q → p = q
  here : ∀ {q}, (s.proc q).state ≠ .unused → l.child q ∉ l.waited
  zombie : ∀ {q}, (s.proc q).state = .zombie → l.child q ∈ l.exited
  waited : ∀ c ∈ l.waited, c ∈ l.exited
  nodup : l.waited.Nodup

theorem in_use (hF : Forking s) (h : step s e = .ok (o, s')) (hq : (s'.proc q).state ≠ .unused) :
    (s.proc q).state ≠ .unused ∨ o = .made q := by
  cases cycle hF h q with
  | same hy => exact .inl (by rwa [← hy])
  | moves hx => exact .inl fun hu => by rw [hu] at hx; cases hx
  | made ho => exact .inr ho
  | abandoned _ _ hy => exact absurd hy hq
  | started _ hx => exact .inl (by rw [hx]; decide)
  | exits _ hx => exact .inl (by rw [hx]; decide)
  | reaped _ _ hy => exact absurd hy hq

theorem zombie_turn (hF : Forking s) (h : step s e = .ok (o, s'))
    (hq : (s'.proc q).state = .zombie) :
    (s.proc q).state = .zombie ∨ e = .exit q := by
  cases cycle hF h q with
  | same hy => exact .inl (by rw [← hy, hq])
  | moves _ hy | made _ _ hy | abandoned _ _ hy | started _ _ hy | reaped _ _ hy =>
    rw [hq] at hy
    cases hy
  | exits he => exact .inr he

theorem alive_turn (hF : Forking s) (h : step s e = .ok (o, s')) (hp : (s.proc p).state.alive) :
    (s'.proc p).state.alive ∨ e = .exit p := by
  cases cycle hF h p with
  | same hy => exact .inl (by rwa [hy])
  | moves _ hy => exact .inl hy
  | made _ hx | abandoned _ hx | started _ hx | reaped _ hx =>
    rw [hx] at hp
    cases hp
  | exits he => exact .inr he

variable {pid : Int32}

theorem note_reaped (he : ∀ p, e ≠ .exit p) :
    l.note e (.reaped q pid) = { l with waited := l.child q :: l.waited } := by
  cases e with
  | exit p => exact absurd rfl (he p)
  | _ => rfl

theorem note_silent (hmade : ∀ np, o ≠ .made np) (hreaped : ∀ q pid, o ≠ .reaped q pid)
    (he : ∀ p, e ≠ .exit p) : l.note e o = l := by
  unfold Life.note
  split
  · next np => exact absurd rfl (hmade np)
  · next p => exact absurd rfl (he p)
  · next q pid _ => exact absurd rfl (hreaped q pid)
  · rfl

theorem Counted.made (hC : Counted s l) (hF : Forking s) (h : step s (.fork p) = .ok (.made np, s'))
    (hnp : (s.proc np).state = .unused) :
    Counted s' (l.note (.fork p) (.made np)) := by
  have hold : ∀ {q}, (s'.proc q).state ≠ .unused → q ≠ np → (s.proc q).state ≠ .unused := by
    intro q hq hne
    rcases in_use hF h hq with hq | ho
    · exact hq
    · cases ho
      exact absurd rfl hne
  have hchild := update_apply l.child np (l.forks + 1)
  have hle := hC.child_le
  refine ⟨?_, ?_, ?_, ?_, ?_, hC.waited, hC.nodup⟩ <;> simp only [Life.note, hchild]
  · grind
  · exact fun c hc => Nat.le_succ_of_le (hC.waited_le c hc)
  · intro q r hq hr hqr
    have hinj : q ≠ np → r ≠ np → l.child q = l.child r → q = r := fun h1 h2 =>
      hC.inj (hold hq h1) (hold hr h2)
    have hleq := hle q
    have hler := hle r
    grind
  · intro q hq
    split
    · intro hmem
      have hbound := hC.waited_le _ hmem
      omega
    · next hne => exact hC.here (hold hq hne)
  · intro q hq
    have hz : (s.proc q).state = .zombie := (zombie_turn hF h hq).resolve_right nofun
    rw [if_neg]
    · exact hC.zombie hz
    · rintro rfl
      rw [hnp] at hz
      cases hz

theorem Counted.reaped (hC : Counted s l) (hF : Forking s) (h : step s e = .ok (.reaped q pid, s'))
    (hq : (s.proc q).state = .zombie) (hq' : (s'.proc q).state = .unused) (he : ∀ p, e ≠ .exit p) :
    Counted s' (l.note e (.reaped q pid)) := by
  have hold : ∀ {r}, (s'.proc r).state ≠ .unused → (s.proc r).state ≠ .unused := fun hr =>
    (in_use hF h hr).resolve_right nofun
  have hused : (s.proc q).state ≠ .unused := by
    rw [hq]
    decide
  rw [note_reaped he]
  refine ⟨hC.child_le, ?_, fun hp hr => hC.inj (hold hp) (hold hr), fun {r} hr => ?_,
    fun {r} hr => ?_, ?_, ?_⟩
  · simpa using ⟨hC.child_le q, hC.waited_le⟩
  · refine List.not_mem_cons_of_ne_of_not_mem (fun heq => ?_) (hC.here (hold hr))
    rw [hC.inj (hold hr) hused heq] at hr
    exact hr hq'
  · exact hC.zombie ((zombie_turn hF h hr).resolve_right (he r))
  · simpa using ⟨hC.zombie hq, hC.waited⟩
  · exact List.nodup_cons.2 ⟨hC.here hused, hC.nodup⟩

theorem counted_step (hC : Counted s l) (hF : Forking s) (h : step s e = .ok (o, s')) :
    Counted s' (l.note e o) := by
  cases result h with
  | made p np he ho hnp =>
    subst he ho
    exact hC.made hF h hnp
  | reaped q ho hq hq' he =>
    subst ho
    exact hC.reaped hF h hq hq' he
  | exit p he =>
    subst he
    have ho : ∀ q, o ≠ .made q := by
      obtain ⟨-, -, ho, -⟩ := exit_step h
      rw [ho]
      nofun
    have hold : ∀ {r}, (s'.proc r).state ≠ .unused → (s.proc r).state ≠ .unused := fun {r} hr =>
      (in_use hF h hr).resolve_right (ho r)
    have hnote : l.note (.exit p) o = { l with exited := l.child p :: l.exited } := by
      cases o <;> rfl
    rw [hnote]
    refine ⟨hC.child_le, hC.waited_le, fun hp hr => hC.inj (hold hp) (hold hr),
      fun hr => hC.here (hold hr), fun {r} hr => ?_,
      fun c hc => List.mem_cons_of_mem _ (hC.waited c hc), hC.nodup⟩
    rcases zombie_turn hF h hr with hz | he
    · exact List.mem_cons_of_mem _ (hC.zombie hz)
    · cases he
      exact List.mem_cons_self ..
  | silent hmade hreaped he =>
    have hold : ∀ {r}, (s'.proc r).state ≠ .unused → (s.proc r).state ≠ .unused := fun {r} hr =>
      (in_use hF h hr).resolve_right (hmade r)
    rw [note_silent hmade hreaped he]
    exact ⟨hC.child_le, hC.waited_le, fun hp hr => hC.inj (hold hp) (hold hr),
      fun hr => hC.here (hold hr),
      fun {r} hr => hC.zombie ((zombie_turn hF h hr).resolve_right (he r)), hC.waited, hC.nodup⟩

/-! ## Every process has a parent -/

/-- Nobody is left without a parent but `initproc`, and no parent has gone. -/
structure Family (s : St) (l : Life) : Prop extends Forking s where
  init : (s.proc initproc).state.alive
  busy : ∀ {p}, s.pc p ≠ .out → (s.proc p).state.alive
  made : ∀ {p np}, (s.pc p).child = some np → l.maker np = l.child p
  unlinked : ∀ {p np}, s.pc p = .kstack np ∨ s.pc p = .copyuvm np → (s.proc np).parent = none
  linked : ∀ {p np}, s.pc p = .start np → (s.proc np).parent = some p
  free : ∀ {p}, (s.proc p).state = .unused → (s.proc p).parent = none
  orphan : ∀ {p}, p ≠ initproc → (s.proc p).state ≠ .unused → (s.proc p).state ≠ .embryo →
    (s.proc p).parent ≠ none
  parent : ∀ {p q}, (s.proc p).parent = some q → (s.proc q).state.alive ∧ q ≠ p ∧ p ≠ initproc ∧
    (l.child q = l.maker p ∨ q = initproc)
  asleep : ∀ {p}, (s.proc p).state = .sleeping → s.sched p = .wait →
    (s.proc p).chan = some (.proc p) ∧ ∀ q, (s.proc q).parent = some p → (s.proc q).state ≠ .zombie

theorem note_same (h : step s e = .ok (o, s')) (hq : (s.proc q).state ≠ .unused) :
    (l.note e o).child q = l.child q ∧ (l.note e o).maker q = l.maker q := by
  cases result h with
  | made p np he ho hnp =>
    subst he ho
    have hne : q ≠ np := by
      rintro rfl
      exact hq hnp
    exact ⟨update_of_ne hne .., update_of_ne hne ..⟩
  | reaped r ho _ _ he =>
    subst ho
    rw [note_reaped he]
    exact ⟨rfl, rfl⟩
  | exit p he =>
    subst he
    cases o <;> exact ⟨rfl, rfl⟩
  | silent hmade hreaped he =>
    rw [note_silent hmade hreaped he]
    exact ⟨rfl, rfl⟩

/-- The parent of `p`, in the same step. -/
inductive ParentTurn (s : St) (e : Ev) (p : Slot) (x y : Proc) : Prop where
  | same (h : y.parent = x.parent)
  | link (r : Slot) (he : e = .copyuvm r true) (hpc : s.pc r = .copyuvm p) (h : y.parent = some r)
      (hst : y.state = x.state)
  | exit (r : Slot) (he : e = .exit r)
      (h : y.parent = if x.parent = some r then some initproc else x.parent)
  | reap (hy : y.state = .unused) (h : y.parent = none)

theorem parentTurn (h : step s e = .ok (o, s')) (p : Slot) :
    ParentTurn s e p (s.proc p) (s'.proc p) := by
  cases turn h p with
  | same hy | kill r pid _ _ hy | trap _ _ hy | fork r _ _ _ _ hy | giveUp r _ hy
      | start r _ _ hy => exact .same (by rw [hy])
  | moves _ _ _ hparent => exact .same hparent
  | link r he hpc hy => exact .link r he hpc (by rw [hy]) (by rw [hy])
  | exit he _ _ hparent => exact .exit p he hparent
  | abandon r he _ _ hparent => exact .exit r he hparent
  | reap _ _ hy => exact .reap (by rw [hy]) (by rw [hy])

theorem not_unused_of_alive {x : Procstate} (h : x.alive) : x ≠ .unused := by
  rintro rfl
  cases h

theorem link_step (h : step s (.copyuvm p true) = .ok (o, s')) (hpc : s.pc p = .copyuvm np) :
    s'.pc p = .start np ∧ (s'.proc np).parent = some p := by
  simp only [step, hpc] at h
  obtain ⟨-, ⟨⟩⟩ := guard_ok h
  refine ⟨update_self .., ?_⟩
  show ((s.set np _).proc np).parent = some p
  rw [St.set_proc, if_pos rfl]

theorem exit_parent (h : step s (.exit p) = .ok (o, s')) (q : Slot) :
    (s'.proc q).parent = if (s.proc q).parent = some p then some initproc
    else (s.proc q).parent := by
  obtain ⟨-, -, -, rfl⟩ := exit_step h
  obtain ⟨t, hl, hexit, -⟩ := exit_left s p
  rw [hexit]
  show (update t p { t p with state := .zombie } q).parent = _
  have hparent : (update t p { t p with state := .zombie } q).parent = (t q).parent := by
    rw [update_apply]
    split
    · next hq => rw [hq]
    · rfl
  rw [hparent, hl.parent q]
  simp [mem_slots]

section

variable (hF : Family s l) (h : step s e = .ok (o, s'))
include hF h

/-- `exit` is not called inside `fork`. -/
theorem stays_alive (hpc : s.pc p ≠ .out) : (s'.proc p).state.alive := by
  rcases alive_turn hF.toForking h (hF.busy hpc) with ha | rfl
  · exact ha
  · obtain ⟨-, ⟨-, -, hout⟩, -⟩ := exit_step h
    exact absurd hout hpc

theorem busy_step (hpc : s'.pc p ≠ .out) : (s'.proc p).state.alive := by
  cases pcTurn h p with
  | same hy => exact stays_alive hF h (by rwa [← hy])
  | fork np he =>
    subst he
    obtain ⟨⟨hrun, -⟩, -⟩ := guard_ok h
    exact (alive_turn hF.toForking h (by rw [hrun]; rfl)).resolve_right nofun
  | kalloc np _ hx => exact stays_alive hF h (by rw [hx]; nofun)
  | copyuvm np _ hx => exact stays_alive hF h (by rw [hx]; nofun)
  | leave hy => exact absurd hy hpc

theorem made_step (hc : (s'.pc p).child = some np) :
    (l.note e o).maker np = (l.note e o).child p := by
  rcases child_turn h hc with hold | ⟨rfl, rfl, hnp, -⟩
  · have hnp : (s.proc np).state ≠ .unused := by
      rw [hF.embryo hold]
      decide
    have hp : (s.proc p).state ≠ .unused := by
      refine not_unused_of_alive (hF.busy fun hout => ?_)
      rw [hout] at hold
      cases hold
    rw [(note_same h hnp).2, (note_same h hp).1, hF.made hold]
  · obtain ⟨⟨hrun, -⟩, -⟩ := guard_ok h
    have hne : p ≠ np := by
      rintro rfl
      rw [hrun] at hnp
      cases hnp
    exact (update_self ..).trans (update_of_ne hne ..).symm

theorem unlinked_step (hpc : s'.pc p = .kstack np ∨ s'.pc p = .copyuvm np) :
    (s'.proc np).parent = none := by
  have hc' : (s'.pc p).child = some np := by rcases hpc with hpc | hpc <;> rw [hpc] <;> rfl
  rcases child_turn h hc' with hc | ⟨-, -, hnp, hnew⟩
  · have hnone : (s.proc np).parent = none := by
      refine hF.unlinked (p := p) ?_
      cases pcTurn h p with
      | same hy => rwa [← hy]
      | fork r _ _ hx =>
        rw [hx] at hc
        cases hc
      | kalloc r _ hx hy =>
        rw [hx] at hc
        cases hc
        exact .inl hx
      | copyuvm r _ hx hy =>
        rw [hy] at hpc
        rcases hpc with hpc | hpc <;> cases hpc
      | leave hy =>
        rw [hy] at hc'
        cases hc'
    cases hF.turn h hc hc' with
    | same hy => rw [hy, hnone]
    | kill r _ hy => rw [hy, hnone]
    | link he hold =>
      subst he
      rw [(link_step h hold).1] at hpc
      rcases hpc with hpc | hpc <;> cases hpc
    | abandon r _ _ hparent =>
      rw [hparent, hnone]
      rfl
  · rw [hnew]
    exact hF.free hnp

theorem linked_step (hpc : s'.pc p = .start np) : (s'.proc np).parent = some p := by
  have hc' : (s'.pc p).child = some np := by rw [hpc]; rfl
  cases pcTurn h p with
  | same hy =>
    have hold : s.pc p = .start np := by rw [← hy, hpc]
    have hparent := hF.linked hold
    cases hF.turn h (by rw [hold]; rfl) hc' with
    | same hy => rw [hy, hparent]
    | kill r _ hy => rw [hy, hparent]
    | link _ hx =>
      rw [hold] at hx
      cases hx
    | abandon r he _ hy =>
      rw [hy, hparent, if_neg]
      rintro ⟨⟩
      subst he
      obtain ⟨-, ⟨-, -, hout⟩, -⟩ := exit_step h
      rw [hout] at hold
      cases hold
  | copyuvm r he hx hy =>
    rw [hy] at hpc
    cases hpc
    subst he
    exact (link_step h hx).2
  | fork r _ _ _ _ _ hy | kalloc r _ _ hy | leave hy =>
    rw [hy] at hpc
    cases hpc

theorem init_step : (s'.proc initproc).state.alive := by
  rcases alive_turn hF.toForking h hF.init with ha | rfl
  · exact ha
  · exact absurd rfl (exit_step h).1

theorem free_step (hp : (s'.proc p).state = .unused) : (s'.proc p).parent = none := by
  cases turn h p with
  | same hy =>
    rw [hy] at hp ⊢
    exact hF.free hp
  | kill r pid _ _ hy =>
    rw [hy] at hp ⊢
    refine hF.free ?_
    dsimp only at hp
    split at hp
    · cases hp
    · exact hp
  | giveUp r he hy =>
    rw [hy]
    exact hF.unlinked (he.imp And.right And.right)
  | link r _ hpc hy =>
    rw [hy, hF.embryo (p := r) (by rw [hpc]; rfl)] at hp
    cases hp
  | abandon r _ _ hst hparent =>
    rcases hst with hst | ⟨-, hst⟩
    · rw [hparent, hF.free (by rw [← hst, hp])]
      rfl
    · rw [hp] at hst
      cases hst
  | reap _ _ hy => rw [hy]
  | moves _ hy =>
    rw [hp] at hy
    cases hy
  | trap _ hx hy =>
    rw [hy] at hp
    rw [hp] at hx
    cases hx
  | exit _ _ hy =>
    rw [hp] at hy
    cases hy
  | fork r _ _ _ _ hy | start r _ _ hy =>
    rw [hy] at hp
    cases hp

theorem orphan_step (hp : p ≠ initproc) (hu : (s'.proc p).state ≠ .unused)
    (he : (s'.proc p).state ≠ .embryo) : (s'.proc p).parent ≠ none := by
  -- it has a parent if it had one
  have hkeep : (s.proc p).parent ≠ none → (s'.proc p).parent ≠ none := by
    intro hold
    cases parentTurn h p with
    | same hparent => rwa [hparent]
    | link r _ _ hparent =>
      rw [hparent]
      nofun
    | exit r _ hparent =>
      rw [hparent]
      split
      · nofun
      · exact hold
    | reap hy => exact absurd hy hu
  cases cycle hF.toForking h p with
  | same hy => exact hkeep (hF.orphan hp (by rwa [← hy]) (by rwa [← hy]))
  | moves hx =>
    exact hkeep (hF.orphan hp (not_unused_of_alive hx) (by rintro hemb; rw [hemb] at hx; cases hx))
  | made _ _ hy => exact absurd hy he
  | abandoned _ _ hy => exact absurd hy hu
  | started hpc =>
    obtain ⟨r, hpc⟩ := hpc
    refine hkeep ?_
    rw [hF.linked hpc]
    nofun
  | exits _ hx => exact hkeep (hF.orphan hp (by rw [hx]; nofun) (by rw [hx]; nofun))
  | reaped _ _ hy => exact absurd hy hu

theorem parent_step (hp : (s'.proc p).parent = some q) :
    (s'.proc q).state.alive ∧ q ≠ p ∧ p ≠ initproc ∧ ((l.note e o).child q = (l.note e o).maker p ∨
      q = initproc) := by
  -- the parent that it had before is still there, unless it exits
  have hkeep : (s.proc p).parent = some q → e ≠ .exit q →
      (s'.proc q).state.alive ∧ q ≠ p ∧ p ≠ initproc ∧
      ((l.note e o).child q = (l.note e o).maker p ∨ q = initproc) := by
    intro hold hne
    obtain ⟨ha, hqp, hinit, hchild⟩ := hF.parent hold
    have hused : (s.proc p).state ≠ .unused := by
      intro hu
      rw [hF.free hu] at hold
      cases hold
    refine ⟨(alive_turn hF.toForking h ha).resolve_right hne, hqp, hinit, ?_⟩
    rwa [(note_same h (not_unused_of_alive ha)).1, (note_same h hused).2]
  have hexit : e ≠ .exit q := by
    rintro rfl
    rw [exit_parent h p] at hp
    split at hp
    · cases hp
      exact absurd rfl (exit_step h).1
    · next hne => exact hne hp
  cases parentTurn h p with
  | same hparent => exact hkeep (by rw [← hparent, hp]) hexit
  | link r he hpc hparent =>
    rw [hp] at hparent
    cases hparent
    have hc : (s.pc q).child = some p := by rw [hpc]; rfl
    have hout : s.pc q ≠ .out := by rw [hpc]; nofun
    have hemb := hF.embryo hc
    have hne : ∀ {r}, (s.proc r).state.alive → r ≠ p := by
      rintro r ha rfl
      rw [hemb] at ha
      cases ha
    refine ⟨stays_alive hF h hout, hne (hF.busy hout), (hne hF.init).symm, .inl ?_⟩
    rw [(note_same h (not_unused_of_alive (hF.busy hout))).1,
      (note_same h (by rw [hemb]; nofun)).2, hF.made hc]
  | exit r he hparent =>
    rw [hp] at hparent
    split at hparent
    · next hold =>
      cases hparent
      obtain ⟨-, -, hinit, -⟩ := hF.parent hold
      exact ⟨init_step hF h, hinit.symm, hinit, .inr rfl⟩
    · exact hkeep hparent.symm hexit
  | reap _ hparent =>
    rw [hp] at hparent
    cases hparent

end

/-! ## Nobody sleeps while a child is a zombie -/

/-- `p` was asleep in `wait` before the step. -/
def Stays (s s' : St) (p : Slot) : Prop :=
  (s.proc p).state = .sleeping ∧ s.sched p = .wait ∧ (s'.proc p).chan = (s.proc p).chan

/-- `p` has just looked for a zombie. -/
def Settles (s' : St) (p : Slot) : Prop :=
  (s'.proc p).chan = some (.proc p) ∧ ∀ q, (s'.proc q).parent = some p → (s'.proc q).state ≠ .zombie

variable {r : Slot}

theorem stays_of_ne {x : Proc} (hproc : s'.proc = (s.set r x).proc)
    (hsched : p ≠ r → s'.sched p = s.sched p) (hne : p ≠ r)
    (hs : (s'.proc p).state = .sleeping) (hw : s'.sched p = .wait) : Stays s s' p := by
  rw [hproc, St.set_proc, if_neg hne] at hs
  exact ⟨hs, by rw [← hsched hne, hw], by rw [hproc, St.set_proc, if_neg hne]⟩

/-- A step that changes the slot `r`, which is not asleep in `wait` afterwards. -/
theorem stays_set {x : Proc} (hproc : s'.proc = (s.set r x).proc)
    (hsched : p ≠ r → s'.sched p = s.sched p)
    (hx : x.state = .sleeping → s'.sched r ≠ .wait) (hs : (s'.proc p).state = .sleeping)
    (hw : s'.sched p = .wait) : Stays s s' p := by
  refine stays_of_ne hproc hsched ?_ hs hw
  rintro rfl
  rw [hproc, St.set_proc, if_pos rfl] at hs
  exact hx hs hw

theorem Stays.trans {s1 : St} (h1 : Stays s s1 p) (h2 : Stays s1 s' p) : Stays s s' p :=
  ⟨h1.1, h1.2.1, h2.2.2.trans h1.2.2⟩

theorem wait_asleep (hs : ((wait s r).2.proc p).state = .sleeping)
    (hw : (wait s r).2.sched p = .wait) :
    Stays s (wait s r).2 p ∨ Settles (wait s r).2 p := by
  rcases wait_cases s r with ⟨q, -, hz, h⟩ | h | ⟨hnone, h⟩ <;> rw [h] at hs hw ⊢
  · exact .inl (stays_set (r := q) rfl (fun _ => rfl) nofun hs hw)
  · exact .inl ⟨hs, hw, rfl⟩
  · by_cases hp : p = r
    · subst hp
      refine .inr ⟨?_, fun q hq => ?_⟩
      · show ((s.set p _).proc p).chan = _
        rw [St.set_proc, if_pos rfl]
      · change ((s.set p _).proc q).parent = some p at hq
        show ((s.set p _).proc q).state ≠ .zombie
        rw [St.set_proc] at hq ⊢
        split
        · nofun
        · next hne =>
          rw [if_neg hne] at hq
          exact hnone q hq
    · exact .inl (stays_of_ne (r := r) rfl (fun hne => update_of_ne hne ..) hp hs hw)

theorem resume_asleep (hr : (s.proc r).state = .running)
    (hs : ((resume s r).2.proc p).state = .sleeping)
    (hw : (resume s r).2.sched p = .wait) : Stays s (resume s r).2 p ∨
    Settles (resume s r).2 p := by
  have hclear : ∀ {s'}, s'.proc = (s.set r { s.proc r with chan := none }).proc →
    s'.sched = s.sched → (s'.proc p).state = .sleeping → s'.sched p = .wait → Stays s s' p := by
    intro s' hproc hsched
    refine stays_set hproc (fun _ => by rw [hsched]) fun hx => ?_
    rw [hr] at hx
    cases hx
  unfold resume at hs hw ⊢
  cases hsched : s.sched r with
  | wait =>
    rw [hsched] at hs hw
    rcases wait_asleep hs hw with hst | hset
    · exact .inl ((hclear rfl rfl hst.1 hst.2.1).trans hst)
    · exact .inr hset
  | sleep =>
    rw [hsched] at hs hw
    exact .inl (hclear rfl rfl hs hw)
  | forkret | yield | exit =>
    rw [hsched] at hs hw
    exact .inl ⟨hs, hw, rfl⟩

theorem exit_asleep (h : step s (.exit q) = .ok (o, s')) (hs : (s'.proc p).state = .sleeping)
    (hw : s'.sched p = .wait) : Stays s s' p := by
  obtain ⟨-, -, -, rfl⟩ := exit_step h
  obtain ⟨t, hl, hexit, -⟩ := exit_left s q
  rw [hexit] at hs hw ⊢
  change (update t q { t q with state := .zombie } p).state = .sleeping at hs
  have hne : p ≠ q := by
    rintro rfl
    rw [update_self] at hs
    cases hs
  rw [update_of_ne hne] at hs
  refine ⟨?_, (update_of_ne hne ..).symm.trans hw, ?_⟩
  · rcases hl.state p with hst | ⟨hst, -⟩
    · rw [← hst, hs]
    · exact hst
  · show (update t q { t q with state := .zombie } p).chan = _
    rw [update_of_ne hne, hl.chan]

theorem asleep_turn (hF : Forking s) (h : step s e = .ok (o, s'))
    (hs : (s'.proc p).state = .sleeping) (hw : s'.sched p = .wait) :
    Stays s s' p ∨ Settles s' p := by
  cases e with
  | acquire | release =>
    obtain ⟨-, ⟨⟩⟩ := guard_ok h
    exact .inl ⟨hs, hw, rfl⟩
  | dispatch r =>
    obtain ⟨-, ⟨⟩⟩ := guard_ok h
    exact .inl (stays_set (r := r) rfl (fun _ => rfl) (by simp) hs hw)
  | resume r =>
    obtain ⟨⟨hr, -⟩, hres⟩ := guard_ok h
    rw [show s' = (resume s r).2 from congrArg Prod.snd hres] at hs hw ⊢
    exact resume_asleep hr hs hw
  | yield r =>
    obtain ⟨-, ⟨⟩⟩ := guard_ok h
    exact .inl (stays_set (r := r) rfl (fun hne => update_of_ne hne ..) (by simp) hs hw)
  | sleep r n =>
    obtain ⟨-, ⟨⟩⟩ := guard_ok h
    refine .inl (stays_set (r := r) rfl (fun hne => update_of_ne hne ..) (fun _ => ?_) hs hw)
    show update s.sched r .sleep r ≠ .wait
    rw [update_self]
    simp
  | wakeup n =>
    obtain ⟨-, ⟨⟩⟩ := guard_ok h
    have hwake := wakeup1_wakes (p := p) s.proc (.other n)
    refine .inl ⟨?_, hw, hwake.chan p⟩
    rcases hwake.state p with hst | ⟨hst, -⟩
    · exact hst.symm.trans hs
    · exact hst
  | trap r =>
    obtain ⟨⟨⟨hr, -⟩, -⟩, ⟨⟩⟩ := guard_ok h
    refine .inl (stays_set (r := r) rfl (fun _ => rfl) (fun hx => ?_) hs hw)
    rw [hr] at hx
    cases hx
  | fork r =>
    obtain ⟨-, hr⟩ := guard_ok h
    unfold allocproc at hr
    split at hr
    · cases hr
      exact .inl ⟨hs, hw, rfl⟩
    · next np _ =>
      cases hr
      exact .inl (stays_set (r := np) rfl (fun _ => rfl) (by simp) hs hw)
  | kalloc r ok =>
    simp only [step] at h
    split at h
    · next np hpc =>
      obtain ⟨-, hr⟩ := guard_ok h
      cases ok <;> cases hr
      · exact .inl (stays_set (r := np) rfl (fun _ => rfl) (by simp) hs hw)
      · exact .inl ⟨hs, hw, rfl⟩
    · cases h
  | copyuvm r ok =>
    simp only [step] at h
    split at h
    · next np hpc =>
      have hemb : (s.proc np).state = .embryo := hF.embryo (p := r) (by rw [hpc]; rfl)
      obtain ⟨-, hr⟩ := guard_ok h
      cases ok <;> cases hr
      · exact .inl (stays_set (r := np) rfl (fun _ => rfl) (by simp) hs hw)
      · refine .inl (stays_set (r := np) rfl (fun _ => rfl) (fun hx => ?_) hs hw)
        rw [hemb] at hx
        cases hx
    · cases h
  | start r =>
    simp only [step] at h
    split at h
    · next np hpc =>
      obtain ⟨-, ⟨⟩⟩ := guard_ok h
      exact .inl (stays_set (r := np) rfl (fun hne => update_of_ne hne ..) (by simp) hs hw)
    · cases h
  | exit r => exact .inl (exit_asleep h hs hw)
  | wait r =>
    obtain ⟨-, hr⟩ := guard_ok h
    rw [show s' = (wait s r).2 from congrArg Prod.snd hr] at hs hw ⊢
    exact wait_asleep hs hw
  | kill r pid =>
    obtain ⟨-, hr⟩ := guard_ok h
    unfold kill at hr
    split at hr
    · next q _ =>
      cases hr
      refine .inl (stays_set (r := q) rfl (fun _ => rfl) (fun hx => ?_) hs hw)
      dsimp only at hx
      split at hx
      · cases hx
      · next hn => exact absurd hx hn
    · cases hr
      exact .inl ⟨hs, hw, rfl⟩

/-- Neither the parent nor, if there is a zombie among the children, `initproc` is asleep in `wait`
when the lock is free again. -/
theorem exit_wakes (h : step s (.exit p) = .ok (o, s')) :
    (∀ q r, (s.proc p).parent = some q → (s'.proc r).chan = some (.proc q) →
      (s'.proc r).state ≠ .sleeping) ∧
    ∀ q r, (s.proc q).parent = some p → (s.proc q).state = .zombie → (s'.proc r).chan =
      some (.proc initproc) → (s'.proc r).state ≠ .sleeping := by
  obtain ⟨-, -, -, rfl⟩ := exit_step h
  obtain ⟨t, hl, hexit, hparent⟩ := exit_left s p
  -- `p` itself is a zombie, the others are as the loop has left them
  have hawake : ∀ {r c}, ((t r).chan = some c → (t r).state ≠ .sleeping) →
    ((exit s p).proc r).chan = some c → ((exit s p).proc r).state ≠ .sleeping := by
    intro r c hr
    rw [hexit]
    change (update t p { t p with state := .zombie } r).chan = some c →
      (update t p { t p with state := .zombie } r).state ≠ .sleeping
    rw [update_apply]
    split
    · exact fun _ => nofun
    · exact hr
  exact ⟨fun q r hq => hawake (hparent q hq r),
    fun q r hq hz => hawake (hl.woken q (mem_slots q) hq hz r)⟩

theorem asleep_step (hF : Family s l) (h : step s e = .ok (o, s'))
    (hs : (s'.proc p).state = .sleeping) (hw : s'.sched p = .wait) :
    (s'.proc p).chan = some (.proc p) ∧ ∀ q, (s'.proc q).parent = some p →
    (s'.proc q).state ≠ .zombie := by
  rcases asleep_turn hF.toForking h hs hw with ⟨hs0, hw0, hchan⟩ | hset
  · obtain ⟨hc, hnone⟩ := hF.asleep hs0 hw0
    rw [hc] at hchan
    refine ⟨hchan, fun q hq hz => ?_⟩
    rcases zombie_turn hF.toForking h hz with hz0 | rfl
    · cases parentTurn h q with
      | same hparent => exact hnone q (by rw [← hparent, hq]) hz0
      | link r _ hpc =>
        rw [hF.embryo (p := r) (by rw [hpc]; rfl)] at hz0
        cases hz0
      | exit r he hparent =>
        subst he
        rw [hq] at hparent
        split at hparent
        · next hold =>
          cases hparent
          exact (exit_wakes h).2 q initproc hold hz0 hchan hs
        · exact hnone q hparent.symm hz0
      | reap hy =>
        rw [hz] at hy
        cases hy
    · rw [exit_parent h q] at hq
      split at hq
      · next hself => exact absurd rfl (hF.parent hself).2.1
      · exact (exit_wakes h).1 p p hq hchan hs
  · exact hset

theorem family_step (hF : Family s l) (h : step s e = .ok (o, s')) : Family s' (l.note e o) where
  toForking := forking_step hF.toForking h
  init := init_step hF h
  busy := busy_step hF h
  made := made_step hF h
  unlinked := unlinked_step hF h
  linked := linked_step hF h
  free := free_step hF h
  orphan := orphan_step hF h
  parent := parent_step hF h
  asleep := asleep_step hF h

theorem boot_unused (hq : q ≠ initproc) : (boot.proc q).state = .unused := by
  unfold boot
  dsimp only
  rw [if_neg hq]

theorem boot_parent (q : Slot) : (boot.proc q).parent = none := by
  unfold boot
  dsimp only
  split <;> rfl

theorem boot_awake (q : Slot) :
    (boot.proc q).state ≠ .sleeping ∧ (boot.proc q).state ≠ .zombie := by
  unfold boot
  dsimp only
  split <;> exact ⟨nofun, nofun⟩

theorem family_boot : Family boot (life []) where
  toForking := forking_boot
  init := rfl
  busy := nofun
  made := nofun
  unlinked := nofun
  linked := nofun
  free _ := boot_parent _
  orphan hp hu := absurd (boot_unused hp) hu
  parent {p q} hp := by
    rw [boot_parent] at hp
    cases hp
  asleep hs := absurd hs (boot_awake _).1

theorem counted_boot : Counted boot (life []) where
  child_le _ := Nat.le_refl _
  waited_le := nofun
  inj {p q} hp hq _ := by
    have hinit : ∀ {r}, (boot.proc r).state ≠ .unused → r = initproc := fun hr => by
      by_contra hne
      exact hr (boot_unused hne)
    rw [hinit hp, hinit hq]
  here _ := nofun
  zombie hz := absurd hz (boot_awake _).2
  waited := nofun
  nodup := List.nodup_nil

theorem lives : ∀ {tr : List Ev} {s : St}, run tr = .ok s → Family s (life tr) ∧ Counted s (life tr)
  | [], _, h => by
    cases h
    exact ⟨family_boot, counted_boot⟩
  | e :: tr, s', h => by
    obtain ⟨s, o, hs, hst⟩ := run_cons h
    obtain ⟨hF, hC⟩ := lives hs
    rw [life_cons hs hst]
    exact ⟨family_step hF hst, counted_step hC hF.toForking hst⟩

/-- **Exit and wait.** A process that `wait` returns has become ZOMBIE before, and no other call has
returned it; a ZOMBIE has a parent that is there; and nobody sleeps in `wait` while a child is
ZOMBIE. -/
theorem exit_wait (h : run tr = .ok s) :
    (∀ e s' q pid, step s e = .ok (.reaped q pid, s') → pid = (s.proc q).pid ∧
      (life tr).child q ∈ (life tr).exited ∧ (life tr).child q ∉ (life tr).waited) ∧
    (life tr).waited.Nodup ∧
    (∀ p, (s.proc p).state = .zombie → ∃ q, (s.proc p).parent = some q ∧
      (s.proc q).state ≠ .unused ∧ ((life tr).child q = (life tr).maker p ∨ q = initproc)) ∧
    (s.lock = none → ∀ p q, (s.proc p).state = .sleeping → s.sched p = .wait →
      (s.proc q).parent = some p → (s.proc q).state ≠ .zombie) := by
  obtain ⟨hF, hC⟩ := lives h
  refine ⟨fun e s' q pid hst => ?_, hC.nodup, fun p hz => ?_,
    fun _ p q hs hw hq => (hF.asleep hs hw).2 q hq⟩
  · cases result hst with
    | made _ _ _ ho => cases ho
    | reaped r ho hz =>
      cases ho
      exact ⟨rfl, hC.zombie hz, hC.here (by rw [hz]; nofun)⟩
    | exit p he =>
      subst he
      obtain ⟨-, -, ho, -⟩ := exit_step hst
      cases ho
    | silent _ hreaped => exact absurd rfl (hreaped q pid)
  · have hne : p ≠ initproc := by
      rintro rfl
      have ha := hF.init
      rw [hz] at ha
      cases ha
    obtain ⟨q, hq⟩ := Option.ne_none_iff_exists'.1
      (hF.orphan hne (by rw [hz]; nofun) (by rw [hz]; nofun))
    obtain ⟨ha, -, -, hchild⟩ := hF.parent hq
    exact ⟨q, hq, not_unused_of_alive ha, hchild⟩

/-- The first process has a child, which exits. -/
def childExits : List Ev := [.release, .exit 1, .resume 1, .dispatch 1, .acquire] ++ initForks

theorem exit_wait_child :
    ∃ s s', run childExits = .ok s ∧ step s (.wait 0) = .ok (.reaped 1 2, s') ∧
    (life childExits).child 1 ∈ (life childExits).exited ∧
    (life childExits).child 1 ∉ (life childExits).waited := by
  have hrun : (run childExits).toOption.map (fun s => (step s (.wait 0)).toOption.map (·.1)) =
      some (some (.reaped 1 2)) := by
    decide +kernel
  obtain ⟨s, hs, hw⟩ := Prog.ok_of_map hrun
  obtain ⟨⟨o, s'⟩, hw, rfl⟩ := Prog.ok_of_map hw
  exact ⟨s, s', hs, hw, ((exit_wait hs).1 _ s' 1 2 hw).2⟩

/-! ## Pids and the tree -/

theorem wait_fork (s : St) (p : Slot) :
    (∀ np, (wait s p).1 ≠ .made np) ∧ (wait s p).2.nextpid = s.nextpid := by
  rcases wait_cases s p with ⟨q, -, -, h⟩ | h | ⟨-, h⟩ <;> rw [h] <;> exact ⟨nofun, rfl⟩

/-- Only `fork` makes a process, and takes a pid for it. -/
theorem fork_step (h : step s e = .ok (o, s')) :
    (∃ p np, e = .fork p ∧ o = .made np ∧ (s'.proc np).pid = s.nextpid ∧
      s'.nextpid = s.nextpid + 1) ∨ (∀ np, o ≠ .made np) ∧ s'.nextpid = s.nextpid := by
  unfold step guard at h
  split at h
  case h_9 p =>
    unfold allocproc at h
    split_ifs at h
    split at h <;> cases h
    · exact .inr ⟨nofun, rfl⟩
    · exact .inl ⟨p, _, rfl, rfl, congrArg Proc.pid (update_self _ _ s.proc), rfl⟩
  all_goals grind [wait_fork, giveUp, exit, kill, resume, St.set, St.setPc, St.switch, St.unlock]

/-- Processes have their numbers as pids, and are younger than who made them. -/
structure Aged (s : St) (l : Life) : Prop where
  next : s.nextpid = Int32.ofNat (l.forks + 2)
  pid : ∀ {q}, (s.proc q).state ≠ .unused → (s.proc q).pid = Int32.ofNat (l.child q + 1)
  first : l.child initproc = 0
  older : ∀ {q}, (s.proc q).state ≠ .unused → q ≠ initproc → l.maker q < l.child q

theorem pid_step (h : step s e = .ok (o, s')) (hq : (s.proc q).state ≠ .unused)
    (hq' : (s'.proc q).state ≠ .unused) :
    (s'.proc q).pid = (s.proc q).pid := by
  cases turn h q with
  | fork _ _ _ hx => exact absurd hx hq
  | reap _ _ hy => exact absurd (by rw [hy]) hq'
  | same hy | trap _ _ hy | kill _ _ _ _ hy | giveUp _ _ hy | link _ _ _ hy | start _ _ _ hy =>
    rw [hy]
  | moves _ _ hpid | exit _ _ _ _ hpid | abandon _ _ _ _ _ hpid => exact hpid

theorem aged_step (hA : Aged s l) (hF : Family s l) (hC : Counted s l)
    (h : step s e = .ok (o, s')) : Aged s' (l.note e o) := by
  have hinit := (note_same (l := l) h (not_unused_of_alive hF.init)).1.trans hA.first
  -- a process that was there keeps its pid and its number, a new one has the next of both
  have hold : ∀ {q}, (s'.proc q).state ≠ .unused → o ≠ .made q → (s'.proc q).pid =
    Int32.ofNat ((l.note e o).child q + 1) ∧
      (q ≠ initproc → (l.note e o).maker q < (l.note e o).child q) := by
    intro q hq hne
    have hq0 := (in_use hF.toForking h hq).resolve_right hne
    obtain ⟨hc, hm⟩ := note_same (l := l) h hq0
    rw [pid_step h hq0 hq, hA.pid hq0, hc, hm]
    exact ⟨rfl, hA.older hq0⟩
  rcases fork_step h with ⟨p, np, rfl, rfl, hpid, hnext⟩ | ⟨hno, hnext⟩
  · have hchild : (l.note (.fork p) (.made np)).child np = l.forks + 1 := update_self ..
    have hmaker : (l.note (.fork p) (.made np)).maker np = l.child p := update_self ..
    refine ⟨by rw [hnext, hA.next]; exact (Int32.ofNat_add _ 1).symm, fun {q} hq => ?_, hinit,
      fun {q} hq hne => ?_⟩ <;>
      by_cases hqnp : q = np
    · rw [hqnp, hpid, hA.next, hchild]
    · exact (hold hq fun ho => hqnp (Out.made.inj ho).symm).1
    · rw [hqnp, hchild, hmaker]
      exact Nat.lt_succ_of_le (hC.child_le p)
    · exact (hold hq fun ho => hqnp (Out.made.inj ho).symm).2 hne
  · have hforks : (l.note e o).forks = l.forks := by
      unfold Life.note
      split <;> first | rfl | exact absurd rfl (hno _)
    exact ⟨by rw [hforks, hnext, hA.next], fun hq => (hold hq (hno _)).1, hinit,
      fun hq => (hold hq (hno _)).2⟩

theorem aged_run : ∀ {tr : List Ev} {s : St}, run tr = .ok s → Aged s (life tr)
  | [], _, h => by
    cases h
    refine ⟨rfl, fun {q} hq => ?_, rfl, fun hq hne => absurd (boot_unused hne) hq⟩
    by_cases hne : q = initproc
    · rw [hne]
      rfl
    · exact absurd (boot_unused hne) hq
  | e :: tr, s', h => by
    obtain ⟨s, o, hs, hst⟩ := run_cons h
    rw [life_cons hs hst]
    exact aged_step (aged_run hs) (lives hs).1 (lives hs).2 hst

/-- **Pids.** Until the table has made `2 ^ 32 - 1` processes, no two that are in use have one
pid. -/
theorem pids_differ (h : run tr = .ok s) (hforks : (life tr).forks < 2 ^ 32 - 1) {p q : Slot}
    (hp : (s.proc p).state ≠ .unused) (hq : (s.proc q).state ≠ .unused)
    (hpid : (s.proc p).pid = (s.proc q).pid) : p = q := by
  have hA := aged_run h
  have hC := (lives h).2
  rw [hA.pid hp, hA.pid hq] at hpid
  refine hC.inj hp hq ?_
  have hle := hC.child_le p
  have hle' := hC.child_le q
  have hmod := congrArg (·.toBitVec.toNat) hpid
  simp only [Int32.toBitVec_ofNat', BitVec.toNat_ofNat] at hmod
  omega

theorem pids_differ_child : ∃ s, run initForks = .ok s ∧ (s.proc 1).state = .runnable ∧
    (s.proc 0).pid ≠ (s.proc 1).pid := by
  have hrun : (run initForks).toOption.map (fun s => ((s.proc 0).state, (s.proc 1).state)) =
      some (.running, .runnable) := by
    decide +kernel
  obtain ⟨s, hs, hstate⟩ := Prog.ok_of_map hrun
  obtain ⟨h0, h1⟩ := Prod.mk.inj hstate
  exact ⟨s, hs, h1, fun hpid =>
    absurd (pids_differ hs (by decide +kernel) (by rw [h0]; nofun) (by rw [h1]; nofun) hpid)
    (by decide)⟩

/-- **The tree.** Who is not `initproc` and has been started comes from it, through parents that are
alive; nobody is among their own ancestors. -/
theorem process_tree (h : run tr = .ok s) :
    (∀ p, (s.proc p).state ≠ .unused → (s.proc p).state ≠ .embryo →
      Relation.ReflTransGen
        (fun p q => (s.proc p).parent = some q ∧ (s.proc q).state.alive) p initproc) ∧
    ∀ p, ¬ Relation.TransGen (fun p q => (s.proc p).parent = some q) p p := by
  obtain ⟨hF, -⟩ := lives h
  have hup : ∀ {p q}, (s.proc p).parent = some q →
      p ≠ initproc ∧ (s.proc q).state.alive ∧
      (q = initproc ∨ (life tr).child q < (life tr).child p) := by
    intro p q hq
    obtain ⟨ha, -, hp, hmaker⟩ := hF.parent hq
    have hused : (s.proc p).state ≠ .unused := fun hu => by
      rw [hF.free hu] at hq
      cases hq
    refine ⟨hp, ha, hmaker.symm.imp_right fun hm => ?_⟩
    rw [hm]
    exact (aged_run h).older hused hp
  constructor
  · intro p
    induction hn : (life tr).child p using Nat.strongRecOn generalizing p with
    | ind n ih =>
      intro hu he
      by_cases hp : p = initproc
      · rw [hp]
      obtain ⟨q, hq⟩ := Option.ne_none_iff_exists'.1 (hF.orphan hp hu he)
      obtain ⟨-, ha, rfl | hlt⟩ := hup hq
      · exact .single ⟨hq, ha⟩
      · refine .head ⟨hq, ha⟩ (ih _ (hn ▸ hlt) q rfl ?_ ?_) <;> rintro hs
          <;> rw [hs] at ha <;> cases ha
  · intro p hcycle
    have hdown : ∀ {q}, Relation.TransGen (fun p q => (s.proc p).parent = some q) p q →
        p ≠ initproc ∧ (q = initproc ∨ (life tr).child q < (life tr).child p) := by
      intro q hq
      induction hq with
      | single hq => exact ⟨(hup hq).1, (hup hq).2.2⟩
      | tail _ hq ih =>
        have hlt := ih.2.resolve_left (hup hq).1
        exact ⟨ih.1, (hup hq).2.2.imp_right fun h => h.trans hlt⟩
    exact (hdown hcycle).2.elim (hdown hcycle).1 (Nat.lt_irrefl _)

theorem process_tree_child : ∃ s, run childExits = .ok s ∧ (s.proc 1).state = .zombie ∧
    Relation.ReflTransGen
      (fun p q => (s.proc p).parent = some q ∧ (s.proc q).state.alive) 1 initproc := by
  have hrun : (run childExits).toOption.map (fun s => (s.proc 1).state) = some .zombie := by
    decide +kernel
  obtain ⟨s, hs, h1⟩ := Prog.ok_of_map hrun
  exact ⟨s, hs, h1, (process_tree hs).1 1 (by rw [h1]; nofun) (by rw [h1]; nofun)⟩

end Os4.Ptable
