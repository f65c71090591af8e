import Mathlib.Data.List.FinRange
import Os4.Lib.Wp
import Os4.Param
/-!
# The process table (proc.c): who sleeps, who is killed, who is waited for

| here | there |
| --- | --- |
| `allocproc`, `Ev.fork`, `Ev.kalloc`, `Ev.copyuvm`, `Ev.start` | `allocproc` (proc.c:35), `fork` (:127): a step for each store another process can see |
| `exit`, `abandon` | the part of `exit` (:171) under `ptable.lock`, its loop over the children |
| `wait`, `reap`    | one scan of `wait` (:215), `zombie` found |
| `kill`            | :409 |
| `Ev.sleep`, `Ev.yield`, `wakeup1` | :351, :316, :394 |
| `Ev.acquire`, `Ev.dispatch`, `Ev.release` | `scheduler` (:267): takes the lock, switches to a process, lets go of it |
| `Ev.resume`       | a process comes back from `sched`, still with the lock: in `forkret`, `yield`, `sleep` or the next round of `wait` |
| `Ev.trap`         | trap.c:94 |

A section under `ptable.lock` is one step. It ends with the lock free or, if it calls `sched`, with
the lock in the hands of a scheduler, which hands it to the process it switches to. `fork` writes
`np->parent` and, where it fails, `np->state` without the lock; these are steps of their own. A
timer interrupt can make a process yield anywhere outside of the sections.

What `kill` trusts is `p->pid`, also in a slot that is UNUSED, and nobody but `wait` clears
`p->killed`. **`kill_hits_named`**: kill reaches only processes it names, and `fork` makes no
process that is killed already, if no `kill` stops at an UNUSED slot and no `fork` gives up a slot
that was killed in the meantime. Otherwise `kill(0)` returns 0, and the next child is born killed
(`kill_zero`).
-/
namespace Os4.Ptable

open Function (update_apply update update_self)

abbrev Slot := Fin NPROC

inductive Procstate where
  | unused
  | embryo
  | sleeping
  | runnable
  | running
  | zombie
deriving DecidableEq

/-- What a process sleeps on: the address of a process (in `wait`), or another one. -/
inductive Chan where
  | proc (p : Slot)
  | other (n : Nat)
deriving DecidableEq

structure Proc where
  state : Procstate
  pid : Int32
  parent : Option Slot
  chan : Option Chan
  killed : Bool
deriving DecidableEq

/-- Where a process stands in `fork`. -/
inductive Pc where
  | out
  /-- `allocproc` has taken `np` and calls `kalloc` -/
  | kstack (np : Slot)
  | copyuvm (np : Slot)
  /-- `np->parent` is set -/
  | start (np : Slot)
deriving DecidableEq

/-- Where a process that is not running has called `sched`, or will start. -/
inductive Sched where
  | forkret
  | yield
  | sleep
  | wait
  | exit
deriving DecidableEq

inductive Holder where
  | scheduler
  | proc (p : Slot)
deriving DecidableEq

structure St where
  proc : Slot → Proc
  nextpid : Int32
  pc : Slot → Pc
  sched : Slot → Sched
  lock : Option Holder

inductive Stop where
  | disabled
  /-- panic: init exiting -/
  | initExiting
deriving DecidableEq

/-- What a step returns. -/
inductive Out where
  | none
  /-- `allocproc` has taken a slot -/
  | made (np : Slot)
  /-- a call returns `r` -/
  | ret (r : Int32)
  /-- `wait` returns the `pid` of the process in `q` -/
  | reaped (q : Slot) (pid : Int32)
deriving DecidableEq

inductive Ev where
  | acquire
  | dispatch (p : Slot)
  | release
  | resume (p : Slot)
  | yield (p : Slot)
  | sleep (p : Slot) (n : Nat)
  | wakeup (n : Nat)
  | trap (p : Slot)
  | fork (p : Slot)
  | kalloc (p : Slot) (ok : Bool)
  | copyuvm (p : Slot) (ok : Bool)
  | start (p : Slot)
  | exit (p : Slot)
  | wait (p : Slot)
  | kill (p : Slot) (pid : Int32)
deriving DecidableEq

def initproc : Slot := 0

/-- After `userinit`. -/
def boot : St where
  proc q := if q = initproc then ⟨.runnable, 1, none, none, false⟩
    else ⟨.unused, 0, none, none, false⟩
  nextpid := 2
  pc _ := .out
  sched _ := .forkret
  lock := none

/-! ## The functions -/

def slots : List Slot := List.finRange NPROC

variable (s : St)

def St.set (q : Slot) (x : Proc) : St := { s with proc := update s.proc q x }

variable (p : Slot)

def St.setPc (x : Pc) : St := { s with pc := update s.pc p x }

/-- `p` gives up the processor in state `x` and passes the lock to the scheduler. -/
def St.switch (x : Sched) : St :=
  { s with sched := update s.sched p x, lock := some .scheduler }

def St.unlock : St := { s with lock := none }

def wakeup1 (t : Slot → Proc) (c : Chan) : Slot → Proc := fun q =>
  if (t q).state = .sleeping ∧ (t q).chan = some c then { t q with state := .runnable } else t q

/-- The part of `allocproc` under the lock, for `p`'s `fork`. -/
def allocproc : Out × St :=
  match slots.find? fun q => (s.proc q).state = .unused with
  | none => (.ret (-1), s)
  | some np =>
    let s := s.set np { s.proc np with state := .embryo, pid := s.nextpid }
    (.made np, { s with nextpid := s.nextpid + 1 }.setPc p (.kstack np))

/-- `fork` or its `allocproc` gives up. -/
def giveUp (p np : Slot) : Out × St :=
  (.ret (-1), (s.set np { s.proc np with state := .unused }).setPc p .out)

def abandon (t : Slot → Proc) (q : Slot) : Slot → Proc :=
  if (t q).parent = some p then
    let t := update t q { t q with parent := some initproc }
    if (t q).state = .zombie then wakeup1 t (.proc initproc) else t
  else t

def exit : St :=
  let t := match (s.proc p).parent with
    | some q => wakeup1 s.proc (.proc q)
    | none => s.proc
  let t := slots.foldl (abandon p) t
  { s with proc := update t p { t p with state := .zombie } }.switch p .exit

def zombieChild : Option Slot :=
  slots.find? fun q => (s.proc q).parent = some p ∧ (s.proc q).state = .zombie

def havekids : Bool := slots.any fun q => (s.proc q).parent = some p

def reap (q : Slot) : St :=
  s.set q { s.proc q with state := .unused, pid := 0, parent := none, killed := false }

def wait : Out × St :=
  match zombieChild s p with
  | some q => (.reaped q (s.proc q).pid, (reap s q).unlock)
  | none =>
    if !havekids s p || (s.proc p).killed then (.ret (-1), s.unlock)
    else
      (.none, (s.set p { s.proc p with chan := some (.proc p), state := .sleeping }).switch p .wait)

def withPid (pid : Int32) : Option Slot := slots.find? fun q => (s.proc q).pid = pid

def kill (pid : Int32) : Out × St :=
  match withPid s pid with
  | some q =>
    let x := s.proc q
    (.ret 0, s.set q { x with
      killed := true, state := if x.state = .sleeping then .runnable else x.state })
  | none => (.ret (-1), s)

def resume : Out × St :=
  match s.sched p with
  | .wait => wait (s.set p { s.proc p with chan := none }) p
  | .sleep => (.none, (s.set p { s.proc p with chan := none }).unlock)
  | _ => (.none, s.unlock)

/-! ## The steps -/

/-- The code of `p` is running, and not on its way out of `sched`. -/
def St.Runs : Prop := (s.proc p).state = .running ∧ s.lock ≠ some (.proc p)

/-- `p` is outside of `fork` and can take the lock. -/
def St.Enters : Prop := (s.proc p).state = .running ∧ s.lock = none ∧ s.pc p = .out

instance (s : St) (p : Slot) : Decidable (s.Runs p) := inferInstanceAs (Decidable (_ ∧ _))

instance (s : St) (p : Slot) : Decidable (s.Enters p) := inferInstanceAs (Decidable (_ ∧ _))

def guard (P : Prop) [Decidable P] (r : Out × St) : Except Stop (Out × St) :=
  if P then .ok r else .error .disabled

def step : Ev → Except Stop (Out × St)
  | .acquire => guard (s.lock = none) (.none, { s with lock := some .scheduler })
  | .dispatch p => guard (s.lock = some .scheduler ∧ (s.proc p).state = .runnable)
      (.none, { s.set p { s.proc p with state := .running } with lock := some (.proc p) })
  | .release => guard (s.lock = some .scheduler) (.none, s.unlock)
  | .resume p => guard ((s.proc p).state = .running ∧ s.lock = some (.proc p)) (resume s p)
  | .yield p => guard ((s.proc p).state = .running ∧ s.lock = none)
      (.none, (s.set p { s.proc p with state := .runnable }).switch p .yield)
  | .sleep p n => guard (s.Enters p)
      (.none, (s.set p { s.proc p with chan := some (.other n), state := .sleeping }).switch p
        .sleep)
  | .wakeup n => guard (s.lock = none) (.none, { s with proc := wakeup1 s.proc (.other n) })
  | .trap p => guard (s.Runs p ∧ s.pc p = .out) (.none, s.set p { s.proc p with killed := true })
  | .fork p => guard (s.Enters p) (allocproc s p)
  | .kalloc p ok => match s.pc p with
    | .kstack np =>
      guard (s.Runs p) (if ok then (.none, s.setPc p (.copyuvm np)) else giveUp s p np)
    | _ => .error .disabled
  | .copyuvm p ok => match s.pc p with
    | .copyuvm np => guard (s.Runs p)
        (if ok then (.none, (s.set np { s.proc np with parent := some p }).setPc p (.start np))
          else giveUp s p np)
    | _ => .error .disabled
  | .start p => match s.pc p with
    | .start np => guard ((s.proc p).state = .running ∧ s.lock = none)
        (.ret (s.proc np).pid, { (s.set np { s.proc np with state := .runnable }).setPc p .out with
          sched := update s.sched np .forkret })
    | _ => .error .disabled
  | .exit p =>
    if s.Enters p ∧ p = initproc then .error .initExiting else guard (s.Enters p) (.none, exit s p)
  | .wait p => guard (s.Enters p) (wait s p)
  | .kill p pid => guard (s.Enters p) (kill s pid)

/-- A run, the latest event first. -/
def run : List Ev → Except Stop St
  | [] => .ok boot
  | e :: tr => do return (← step (← run tr) e).2

/-! ## What a step can do to a slot -/

def Procstate.alive : Procstate → Bool
  | .sleeping | .runnable | .running => true
  | _ => false

/-- The process that is being made. -/
def Pc.child : Pc → Option Slot
  | .out => none
  | .kstack np | .copyuvm np | .start np => some np

variable {s s' : St} {e : Ev} {o : Out} {p q np : Slot} {pid : Int32} {tr : List Ev}

/-- From `x` to `y` in slot `q`, by the event `e` in the state `s`, which returns `o`. -/
inductive Turn (s : St) (e : Ev) (o : Out) (q : Slot) (x y : Proc) : Prop where
  | same (h : y = x)
  | moves (hx : x.state.alive) (hy : y.state.alive) (hpid : y.pid = x.pid)
      (hparent : y.parent = x.parent) (hk : y.killed = x.killed)
  | trap (he : e = .trap q) (hx : x.state.alive) (h : y = { x with killed := true })
  | kill (p : Slot) (pid : Int32) (he : e = .kill p pid) (hq : withPid s pid = some q)
      (h : y = { x with
        killed := true, state := if x.state = .sleeping then .runnable else x.state })
  | fork (p : Slot) (he : e = .fork p) (ho : o = .made q) (hx : x.state = .unused)
      (hpc : s.pc p = .out)
      (h : y = { x with state := .embryo, pid := s.nextpid })
  | giveUp (p : Slot) (he : e = .kalloc p false ∧ s.pc p = .kstack q ∨ e = .copyuvm p false ∧
      s.pc p = .copyuvm q)
      (h : y = { x with state := .unused })
  | link (p : Slot) (he : e = .copyuvm p true) (hpc : s.pc p = .copyuvm q)
      (h : y = { x with parent := some p })
  | start (p : Slot) (he : e = .start p) (hpc : s.pc p = .start q)
      (h : y = { x with state := .runnable })
  | exit (he : e = .exit q) (hx : x.state = .running) (h : y.state = .zombie)
      (hparent : y.parent = if x.parent = some q then some initproc else x.parent)
      (hpid : y.pid = x.pid) (hk : y.killed = x.killed)
  | abandon (p : Slot) (he : e = .exit p) (hq : q ≠ p)
      (h : y.state = x.state ∨ x.state = .sleeping ∧ y.state = .runnable)
      (hparent : y.parent = if x.parent = some p then some initproc else x.parent)
      (hpid : y.pid = x.pid) (hk : y.killed = x.killed)
  | reap (ho : o = .reaped q x.pid) (hx : x.state = .zombie)
      (h : y = { x with state := .unused, pid := 0, parent := none, killed := false })

theorem mem_slots (q : Slot) : q ∈ slots := List.mem_finRange q

theorem guard_ok {P : Prop} [Decidable P] {r r' : Out × St} (h : guard P r = .ok r') :
    P ∧ r' = r := by
  unfold guard at h
  split at h
  · cases h
    exact ⟨‹P›, rfl⟩
  · cases h

/-! ### The loop in `exit` -/

section
variable {t t' : Slot → Proc} {l : List Slot}

/-- `exit` of `p` has gone over the slots `l`. -/
structure Left (p : Slot) (l : List Slot) (t t' : Slot → Proc) : Prop where
  pid : ∀ q, (t' q).pid = (t q).pid
  chan : ∀ q, (t' q).chan = (t q).chan
  killed : ∀ q, (t' q).killed = (t q).killed
  state : ∀ q, (t' q).state = (t q).state ∨ (t q).state = .sleeping ∧ (t' q).state = .runnable
  parent : ∀ q, (t' q).parent = if q ∈ l ∧ (t q).parent = some p then some initproc
    else (t q).parent
  /-- if there was a zombie among the children, `initproc` is awake -/
  woken : ∀ q ∈ l, (t q).parent = some p → (t q).state = .zombie → ∀ r, (t' r).chan =
    some (.proc initproc) → (t' r).state ≠ .sleeping

theorem wakeup1_wakes (t : Slot → Proc) (c : Chan) : Left p [] t (wakeup1 t c) := by
  have hcase : ∀ q, wakeup1 t c q = t q ∨ (t q).state = .sleeping ∧ wakeup1 t c q =
      { t q with state := .runnable } := by
    intro q
    unfold wakeup1
    split
    · next h => exact .inr ⟨h.1, rfl⟩
    · exact .inl rfl
  constructor
  case state =>
    intro q
    rcases hcase q with h | ⟨hs, h⟩
    · exact .inl (by rw [h])
    · exact .inr ⟨hs, by rw [h]⟩
  case woken => simp
  all_goals
    intro q
    rcases hcase q with h | ⟨hs, h⟩ <;> simp [h]

theorem wakeup1_awake (t : Slot → Proc) (c : Chan) (r : Slot) (h : (wakeup1 t c r).chan = some c) :
    (wakeup1 t c r).state ≠ .sleeping := by
  unfold wakeup1 at h ⊢
  split
  · simp
  · next hn =>
    rw [if_neg hn] at h
    exact fun hs => hn ⟨hs, h⟩

theorem Left.trans {l1 l2 : List Slot} {t1 t2 t3 : Slot → Proc} (h₁ : Left p l1 t1 t2)
    (h₂ : Left p l2 t2 t3) :
    Left p (l1 ++ l2) t1 t3 where
  pid q := (h₂.pid q).trans (h₁.pid q)
  chan q := (h₂.chan q).trans (h₁.chan q)
  killed q := (h₂.killed q).trans (h₁.killed q)
  state q := by
    have h1 := h₁.state q
    have h2 := h₂.state q
    grind
  parent q := by
    have h1 := h₁.parent q
    have h2 := h₂.parent q
    grind
  woken q hq hp hz r hr hs := by
    have hr2 : (t2 r).chan = some (.proc initproc) := by rw [← h₂.chan r, hr]
    have hs2 : (t2 r).state = .sleeping := by
      rcases h₂.state r with h | ⟨h, h'⟩
      · rw [← h, hs]
      · exact h
    by_cases hq1 : q ∈ l1
    · exact h₁.woken q hq1 hp hz r hr2 hs2
    · have hp2 : (t2 q).parent = some p := by rw [h₁.parent q, if_neg fun h => hq1 h.1, hp]
      have hz2 : (t2 q).state = .zombie := by
        rcases h₁.state q with h | ⟨h, -⟩
        · rw [h, hz]
        · rw [hz] at h
          cases h
      exact h₂.woken q ((List.mem_append.1 hq).resolve_left hq1) hp2 hz2 r hr hs

theorem abandon_left (p : Slot) (t : Slot → Proc) (q : Slot) : Left p [q] t (abandon p t q) := by
  unfold abandon
  split
  · next hp =>
    have hset := update_apply t q { t q with parent := some initproc }
    dsimp only
    generalize update t q { t q with parent := some initproc } = t1 at hset ⊢
    by_cases hz : (t1 q).state = .zombie
    · rw [if_pos hz]
      have hw := wakeup1_wakes (p := p) t1 (.proc initproc)
      refine ⟨?_, ?_, ?_, ?_, ?_, fun _ _ _ _ r => wakeup1_awake t1 _ r⟩ <;> intro r
      · grind [hw.pid r]
      · grind [hw.chan r]
      · grind [hw.killed r]
      · grind [hw.state r]
      · grind [hw.parent r]
    · rw [if_neg hz]
      constructor <;> grind
  · constructor <;> grind

theorem foldl_abandon (p : Slot) :
    ∀ (l : List Slot) (t : Slot → Proc), Left p l t (l.foldl (abandon p) t)
  | [], t => by
    constructor <;> simp
  | q :: l, t => (abandon_left p t q).trans (foldl_abandon p l _)

/-- The children have gone to `initproc`, and neither it, if there is a zombie among them, nor the
parent of `p` sleeps in `wait`. -/
theorem exit_left (s : St) (p : Slot) : ∃ t, Left p slots s.proc t ∧
    exit s p = { s with proc := update t p { t p with state := .zombie } }.switch p .exit ∧
    ∀ q, (s.proc p).parent = some q → ∀ r, (t r).chan = some (.proc q) →
    (t r).state ≠ .sleeping := by
  unfold exit
  cases hp : (s.proc p).parent with
  | none => exact ⟨_, foldl_abandon p slots s.proc, rfl, by simp⟩
  | some q =>
    have hfold := foldl_abandon p slots (wakeup1 s.proc (.proc q))
    refine ⟨_, (wakeup1_wakes s.proc (.proc q)).trans hfold, rfl, ?_⟩
    rintro _ ⟨⟩ r hr hs
    refine wakeup1_awake s.proc (.proc q) r (by rw [← hfold.chan r, hr]) ?_
    rcases hfold.state r with h | ⟨h, -⟩
    · rw [← h, hs]
    · exact h

end

/-! ### One lemma for all events -/

@[simp] theorem St.set_proc (s : St) (p q : Slot) (x : Proc) : (s.set p x).proc q = if q = p then x
    else s.proc q :=
  update_apply ..

theorem zombieChild_some (h : zombieChild s p = some q) :
    (s.proc q).parent = some p ∧ (s.proc q).state = .zombie := by
  simpa using List.find?_some h

theorem zombieChild_none (h : zombieChild s p = none) (q : Slot) (hq : (s.proc q).parent = some p) :
    (s.proc q).state ≠ .zombie := by
  have hall := List.find?_eq_none.1 h q (mem_slots q)
  simpa [hq] using hall

theorem wait_cases (s : St) (p : Slot) :
    (∃ q, (s.proc q).parent = some p ∧ (s.proc q).state = .zombie ∧
      wait s p = (.reaped q (s.proc q).pid, (reap s q).unlock)) ∨ wait s p = (.ret (-1), s.unlock) ∨
    (∀ q, (s.proc q).parent = some p → (s.proc q).state ≠ .zombie) ∧
      wait s p = (.none, (s.set p { s.proc p with
        chan := some (.proc p), state := .sleeping }).switch p .wait) := by
  unfold wait
  cases hz : zombieChild s p with
  | some q =>
    obtain ⟨hq, hst⟩ := zombieChild_some hz
    exact .inl ⟨q, hq, hst, rfl⟩
  | none =>
    dsimp only
    split
    · exact .inr (.inl rfl)
    · exact .inr (.inr ⟨zombieChild_none hz, rfl⟩)

variable {x : Proc}

theorem turn_set (hp : Turn s e o p (s.proc p) x) (q : Slot) :
    Turn s e o q (s.proc q) ((s.set p x).proc q) := by
  rw [St.set_proc]
  split
  · next h =>
    subst h
    exact hp
  · exact .same rfl

theorem turn_moves (y : Procstate) (c : Option Chan) (hp : (s.proc p).state.alive)
    (hy : y.alive) (q : Slot) :
    Turn s e o q (s.proc q) ((s.set p { s.proc p with state := y, chan := c }).proc q) :=
  turn_set (x := { s.proc p with state := y, chan := c }) (.moves hp hy rfl rfl rfl) q

theorem wait_slot (s : St) (p q : Slot) : (wait s p).2.proc q = s.proc q ∨
    q = p ∧ (wait s p).2.proc q = { s.proc q with chan := some (.proc p), state := .sleeping } ∨
    (s.proc q).state = .zombie ∧ (wait s p).1 = .reaped q (s.proc q).pid ∧
      (wait s p).2.proc q = { s.proc q with
        state := .unused, pid := 0, parent := none, killed := false } := by
  rcases wait_cases s p with ⟨r, -, hz, h⟩ | h | ⟨-, h⟩ <;> rw [h]
  · by_cases hq : q = r
    · subst hq
      exact .inr (.inr ⟨hz, rfl, (St.set_proc ..).trans (if_pos rfl)⟩)
    · exact .inl ((St.set_proc ..).trans (if_neg hq))
  · exact .inl rfl
  · by_cases hq : q = p
    · subst hq
      exact .inr (.inl ⟨rfl, (St.set_proc ..).trans (if_pos rfl)⟩)
    · exact .inl ((St.set_proc ..).trans (if_neg hq))

theorem turn_wait (hp : (s.proc p).state.alive) (q : Slot) :
    Turn s e (wait s p).1 q (s.proc q) ((wait s p).2.proc q) := by
  rcases wait_slot s p q with h | ⟨rfl, h⟩ | ⟨hz, ho, h⟩
  · exact .same h
  · rw [h]
    exact .moves hp rfl rfl rfl rfl
  · exact .reap ho hz h

theorem turn_resume (hp : (s.proc p).state.alive) (q : Slot) : Turn s e (resume s p).1 q (s.proc q)
    ((resume s p).2.proc q) := by
  have hclear : ∀ o, Turn s e o q (s.proc q) ((s.set p { s.proc p with chan := none }).proc q) :=
    fun o => turn_moves (s.proc p).state none hp hp q
  unfold resume
  split
  · -- `wait` goes on with `chan` cleared
    rcases wait_slot (s.set p { s.proc p with chan := none }) p q with
      h | ⟨rfl, h⟩ | ⟨hz, ho, h⟩ <;> rw [h]
    · exact hclear _
    · rw [St.set_proc, if_pos rfl]
      exact .moves hp rfl rfl rfl rfl
    · have hq : q ≠ p := by
        rintro rfl
        rw [St.set_proc, if_pos rfl] at hz
        rw [hz] at hp
        cases hp
      rw [St.set_proc, if_neg hq] at hz ho ⊢
      exact .reap ho hz rfl
  · exact hclear _
  · exact .same rfl

theorem turn_giveUp (he : e = .kalloc p false ∧ s.pc p = .kstack np ∨ e = .copyuvm p false ∧
    s.pc p = .copyuvm np) (q : Slot) :
    Turn s e o q (s.proc q) ((giveUp s p np).2.proc q) :=
  turn_set (.giveUp p he rfl) q

theorem turn (h : step s e = .ok (o, s')) (q : Slot) : Turn s e o q (s.proc q) (s'.proc q) := by
  cases e with
  | acquire =>
    obtain ⟨-, ⟨⟩⟩ := guard_ok h
    exact .same rfl
  | dispatch p =>
    obtain ⟨⟨-, hp⟩, ⟨⟩⟩ := guard_ok h
    exact turn_moves .running _ (by rw [hp]; rfl) rfl q
  | release =>
    obtain ⟨-, ⟨⟩⟩ := guard_ok h
    exact .same rfl
  | resume p =>
    obtain ⟨⟨hp, -⟩, hr⟩ := guard_ok h
    rw [show o = (resume s p).1 from congrArg Prod.fst hr, show s' = (resume s p).2 from
      congrArg Prod.snd hr]
    exact turn_resume (by rw [hp]; rfl) q
  | yield p =>
    obtain ⟨⟨hp, -⟩, ⟨⟩⟩ := guard_ok h
    exact turn_moves .runnable _ (by rw [hp]; rfl) rfl q
  | sleep p n =>
    obtain ⟨⟨hp, -⟩, ⟨⟩⟩ := guard_ok h
    exact turn_moves .sleeping (some (.other n)) (by rw [hp]; rfl) rfl q
  | wakeup n =>
    obtain ⟨-, ⟨⟩⟩ := guard_ok h
    show Turn s _ _ q (s.proc q) (wakeup1 s.proc (.other n) q)
    unfold wakeup1
    split
    · next hs => exact .moves (by rw [hs.1]; rfl) rfl rfl rfl rfl
    · exact .same rfl
  | trap p =>
    obtain ⟨⟨⟨hp, -⟩, -⟩, ⟨⟩⟩ := guard_ok h
    by_cases hq : q = p
    · subst hq
      exact turn_set (.trap rfl (by rw [hp]; rfl) rfl) q
    · exact .same (by rw [St.set_proc, if_neg hq])
  | fork p =>
    obtain ⟨⟨-, -, hpc⟩, hr⟩ := guard_ok h
    unfold allocproc at hr
    split at hr
    · cases hr
      exact .same rfl
    · next np hnp =>
      cases hr
      exact turn_set (.fork p rfl rfl (by simpa using List.find?_some hnp) hpc rfl) q
  | kalloc p ok =>
    simp only [step] at h
    split at h
    · next np hpc =>
      obtain ⟨-, hr⟩ := guard_ok h
      cases ok <;> cases hr
      · exact turn_giveUp (.inl ⟨rfl, hpc⟩) q
      · exact .same rfl
    · cases h
  | copyuvm p ok =>
    simp only [step] at h
    split at h
    · next np hpc =>
      obtain ⟨-, hr⟩ := guard_ok h
      cases ok <;> cases hr
      · exact turn_giveUp (.inr ⟨rfl, hpc⟩) q
      · exact turn_set (.link p rfl hpc rfl) q
    · cases h
  | start p =>
    simp only [step] at h
    split at h
    · next np hpc =>
      obtain ⟨-, ⟨⟩⟩ := guard_ok h
      exact turn_set (.start p rfl hpc rfl) q
    · cases h
  | exit p =>
    simp only [step] at h
    split at h
    · cases h
    · obtain ⟨⟨hp, -⟩, ⟨⟩⟩ := guard_ok h
      obtain ⟨t, hl, hexit, -⟩ := exit_left s p
      rw [hexit]
      show Turn s (.exit p) _ q (s.proc q) (update t p { t p with state := .zombie } q)
      rw [update_apply]
      have hparent : (t q).parent = if (s.proc q).parent = some p then some initproc
          else (s.proc q).parent := by
        simpa [mem_slots] using hl.parent q
      split
      · next hq =>
        subst hq
        exact .exit rfl hp rfl hparent (hl.pid q) (hl.killed q)
      · next hq => exact .abandon p rfl hq (hl.state q) hparent (hl.pid q) (hl.killed q)
  | wait p =>
    obtain ⟨⟨hp, -⟩, hw⟩ := guard_ok h
    rw [show o = (wait s p).1 from congrArg Prod.fst hw, show s' = (wait s p).2 from
      congrArg Prod.snd hw]
    exact turn_wait (by rw [hp]; rfl) q
  | kill p pid =>
    obtain ⟨-, hr⟩ := guard_ok h
    unfold kill at hr
    split at hr
    · next r hr' =>
      cases hr
      exact turn_set (.kill p pid rfl hr' rfl) q
    · cases hr
      exact .same rfl

/-! ### Who makes whom -/

/-- From `x` to `y` in the `fork` of `p`. -/
inductive PcTurn (s : St) (e : Ev) (o : Out) (s' : St) (p : Slot) (x y : Pc) : Prop where
  | same (h : y = x)
  | fork (np : Slot) (he : e = .fork p) (ho : o = .made np) (hx : x = .out)
      (hnp : (s.proc np).state = .unused)
      (hnew : s'.proc np = { s.proc np with state := .embryo, pid := s.nextpid })
      (h : y = .kstack np)
  | kalloc (np : Slot) (he : e = .kalloc p true) (hx : x = .kstack np) (h : y = .copyuvm np)
  | copyuvm (np : Slot) (he : e = .copyuvm p true) (hx : x = .copyuvm np) (h : y = .start np)
  | leave (h : y = .out)

theorem St.setPc_pc (s : St) (p q : Slot) (x : Pc) : (s.setPc p x).pc q = if q = p then x
    else s.pc q :=
  update_apply ..

theorem wait_pc (s : St) (p : Slot) : (wait s p).2.pc = s.pc := by
  rcases wait_cases s p with ⟨r, -, -, h⟩ | h | ⟨-, h⟩ <;> rw [h] <;> rfl

theorem resume_pc (s : St) (p : Slot) : (resume s p).2.pc = s.pc := by
  unfold resume
  split
  · exact wait_pc ..
  · rfl
  · rfl

theorem pcTurn_setPc {x : Pc} {s1 : St} (hs1 : s1.pc = s.pc)
    (hp : PcTurn s e o s' p (s.pc p) x) (q : Slot) :
    PcTurn s e o s' q (s.pc q) ((s1.setPc p x).pc q) := by
  rw [St.setPc_pc, hs1]
  split
  · next h =>
    subst h
    exact hp
  · exact .same rfl

theorem pcTurn (h : step s e = .ok (o, s')) (p : Slot) : PcTurn s e o s' p (s.pc p) (s'.pc p) := by
  cases e with
  | acquire | dispatch r | release | yield r | sleep r n | wakeup n | trap r =>
    obtain ⟨-, ⟨⟩⟩ := guard_ok h
    exact .same rfl
  | resume r =>
    obtain ⟨-, hr⟩ := guard_ok h
    rw [show s' = (resume s r).2 from congrArg Prod.snd hr, resume_pc]
    exact .same rfl
  | fork r =>
    obtain ⟨⟨-, -, hpc⟩, hr⟩ := guard_ok h
    unfold allocproc at hr
    split at hr
    · cases hr
      exact .same rfl
    · next np hnp =>
      cases hr
      have hunused : (s.proc np).state = .unused := by simpa using List.find?_some hnp
      exact pcTurn_setPc rfl (.fork np rfl rfl hpc hunused (update_self ..) rfl) p
  | kalloc r ok =>
    simp only [step] at h
    split at h
    · next np hpc =>
      obtain ⟨-, hr⟩ := guard_ok h
      cases ok <;> cases hr
      · exact pcTurn_setPc rfl (.leave rfl) p
      · exact pcTurn_setPc rfl (.kalloc np rfl hpc rfl) p
    · cases h
  | copyuvm r ok =>
    simp only [step] at h
    split at h
    · next np hpc =>
      obtain ⟨-, hr⟩ := guard_ok h
      cases ok <;> cases hr
      · exact pcTurn_setPc rfl (.leave rfl) p
      · exact pcTurn_setPc rfl (.copyuvm np rfl hpc rfl) p
    · cases h
  | start r =>
    simp only [step] at h
    split at h
    · next np hpc =>
      obtain ⟨-, ⟨⟩⟩ := guard_ok h
      exact pcTurn_setPc rfl (.leave rfl) p
    · cases h
  | exit r =>
    simp only [step] at h
    split at h
    · cases h
    · obtain ⟨-, ⟨⟩⟩ := guard_ok h
      exact .same rfl
  | wait r =>
    obtain ⟨-, hr⟩ := guard_ok h
    rw [show s' = (wait s r).2 from congrArg Prod.snd hr, wait_pc]
    exact .same rfl
  | kill r pid =>
    obtain ⟨-, hr⟩ := guard_ok h
    unfold kill at hr
    split at hr
    · cases hr
      exact .same rfl
    · cases hr
      exact .same rfl

theorem leaves (h : step s e = .ok (o, s'))
    (he : (e = .kalloc p false ∧ s.pc p = .kstack q ∨ e = .copyuvm p false ∧ s.pc p = .copyuvm q) ∨
      e = .start p ∧ s.pc p = .start q) :
    s'.pc p = .out := by
  rcases he with (⟨rfl, hpc⟩ | ⟨rfl, hpc⟩) | ⟨rfl, hpc⟩ <;> simp only [step, hpc] at h
    <;> obtain ⟨-, ⟨⟩⟩ := guard_ok h <;>
    exact update_self ..

theorem child_turn (h : step s e = .ok (o, s')) (hc : (s'.pc p).child = some np) :
    (s.pc p).child = some np ∨ e = .fork p ∧ o = .made np ∧ (s.proc np).state = .unused ∧
      s'.proc np = { s.proc np with state := .embryo, pid := s.nextpid } := by
  cases pcTurn h p with
  | same hpc => exact .inl (by rw [← hpc, hc])
  | fork r he ho _ hr hnew hpc =>
    rw [hpc] at hc
    cases hc
    exact .inr ⟨he, ho, hr, hnew⟩
  | kalloc r _ hx hpc =>
    rw [hpc] at hc
    exact .inl (by rw [hx]; exact hc)
  | copyuvm r _ hx hpc =>
    rw [hpc] at hc
    exact .inl (by rw [hx]; exact hc)
  | leave hpc =>
    rw [hpc] at hc
    cases hc

/-- Every process that `fork` is making is EMBRYO and belongs to one `fork`. -/
structure Forking (s : St) : Prop where
  embryo : ∀ {p np}, (s.pc p).child = some np → (s.proc np).state = .embryo
  inj : ∀ {p q np}, (s.pc p).child = some np → (s.pc q).child = some np → p = q

/-- What can happen to it: others can kill it and, when they exit, look at its parent; `fork` itself
sets the parent. -/
inductive Formed (e : Ev) (p np : Slot) (pc : Pc) (x y : Proc) : Prop where
  | same (h : y = x)
  | kill (r : Slot) (he : e = .kill r x.pid) (h : y = { x with killed := true })
  | link (he : e = .copyuvm p true) (hpc : pc = .copyuvm np) (h : y = { x with parent := some p })
  | abandon (r : Slot) (he : e = .exit r) (hst : y.state = x.state)
      (hparent : y.parent = if x.parent = some r then some initproc else x.parent)
      (hpid : y.pid = x.pid) (hk : y.killed = x.killed)

theorem Forking.turn (hF : Forking s) (h : step s e = .ok (o, s')) (hc : (s.pc p).child = some np)
    (hc' : (s'.pc p).child = some np) : Formed e p np (s.pc p) (s.proc np) (s'.proc np) := by
  have hemb := hF.embryo hc
  have hstays : ∀ {r}, (s.pc r).child = some np → s'.pc r ≠ .out := by
    intro r hr hout
    rw [← hF.inj hc hr] at hout
    rw [hout] at hc'
    cases hc'
  cases Ptable.turn h np with
  | same hy => exact .same hy
  | moves hx =>
    rw [hemb] at hx
    cases hx
  | trap _ hx =>
    rw [hemb] at hx
    cases hx
  | kill r pid he hq hy =>
    have hpid : (s.proc np).pid = pid := by simpa using List.find?_some hq
    refine .kill r (by rw [he, hpid]) ?_
    rw [hy, if_neg (by rw [hemb]; decide)]
  | fork r _ _ hx =>
    rw [hemb] at hx
    cases hx
  | giveUp r he hy =>
    refine absurd (leaves h (.inl he)) (hstays ?_)
    rcases he with ⟨-, hpc⟩ | ⟨-, hpc⟩ <;> rw [hpc] <;> rfl
  | link r he hpc hy =>
    obtain rfl := hF.inj hc (by rw [hpc]; rfl)
    exact .link he hpc hy
  | start r he hpc hy =>
    refine absurd (leaves h (.inr ⟨he, hpc⟩)) (hstays ?_)
    rw [hpc]
    rfl
  | exit _ hx =>
    rw [hemb] at hx
    cases hx
  | abandon r he _ hst hparent hpid hk =>
    refine .abandon r he ?_ hparent hpid hk
    rcases hst with hst | ⟨hst, -⟩
    · exact hst
    · rw [hemb] at hst
      cases hst
  | reap _ hx =>
    rw [hemb] at hx
    cases hx

variable {pc : Pc} {y : Proc}

theorem Formed.state (h : Formed e p np pc x y) : y.state = x.state := by
  cases h with
  | same h => rw [h]
  | kill r _ h => rw [h]
  | link _ _ h => rw [h]
  | abandon r _ h => exact h

theorem Formed.pid_eq (h : Formed e p np pc x y) : y.pid = x.pid := by
  cases h with
  | same h => rw [h]
  | kill r _ h => rw [h]
  | link _ _ h => rw [h]
  | abandon r _ _ _ h => exact h

theorem Formed.killed (h : Formed e p np pc x y) :
    y.killed = x.killed ∨ ∃ r, e = .kill r x.pid := by
  cases h with
  | same h => exact .inl (by rw [h])
  | kill r he => exact .inr ⟨r, he⟩
  | link _ _ h => exact .inl (by rw [h])
  | abandon r _ _ _ _ h => exact .inl h

theorem forking_boot : Forking boot := ⟨nofun, nofun⟩

theorem forking_step (hF : Forking s) (h : step s e = .ok (o, s')) : Forking s' := by
  refine ⟨fun {p np} hc => ?_, fun {p q np} hp hq => ?_⟩
  · rcases child_turn h hc with hold | ⟨-, -, -, hnew⟩
    · rw [(hF.turn h hold hc).state, hF.embryo hold]
    · rw [hnew]
  · rcases child_turn h hp with hp0 | ⟨rfl, -, hp0, -⟩
      <;> rcases child_turn h hq with hq0 | ⟨he, -, hq0, -⟩
    · exact hF.inj hp0 hq0
    · rw [hF.embryo hp0] at hq0
      cases hq0
    · rw [hF.embryo hq0] at hp0
      cases hp0
    · cases he
      rfl

/-! ## Who is killed -/

/-- What has happened since `p` called `fork` the last time. -/
def sinceFork (p : Slot) (tr : List Ev) : List Ev := tr.takeWhile (· ≠ .fork p)

/-- `kill` does not stop at an UNUSED slot, and a `fork` that fails has not been killed. -/
def Careful (s : St) : Ev → Prop
  | .kill _ pid => ∀ q, withPid s pid = some q → (s.proc q).state ≠ .unused
  | .kalloc p false => ∀ np, s.pc p = .kstack np → (s.proc np).killed = false
  | .copyuvm p false => ∀ np, s.pc p = .copyuvm np → (s.proc np).killed = false
  | _ => True

/-- `P` holds at every step of a run. -/
def Along (P : St → Ev → Prop) : List Ev → Prop
  | [] => True
  | e :: tr => (∀ s, run tr = .ok s → P s e) ∧ Along P tr

structure Clean (tr : List Ev) (s : St) : Prop extends Forking s where
  unused : ∀ q, (s.proc q).state = .unused → (s.proc q).killed = false
  named : ∀ p np, (s.pc p).child = some np → (s.proc np).killed = true →
    ∃ r, .kill r (s.proc np).pid ∈ sinceFork p tr

theorem unused_step (hu : ∀ q, (s.proc q).state = .unused → (s.proc q).killed = false)
    (h : step s e = .ok (o, s'))
    (hc : Careful s e) (hq : (s'.proc q).state = .unused) : (s'.proc q).killed = false := by
  cases turn h q with
  | same hy =>
    rw [hy] at hq ⊢
    exact hu q hq
  | moves _ hy =>
    rw [hq] at hy
    cases hy
  | trap _ hx hy =>
    rw [hy] at hq
    rw [hq] at hx
    cases hx
  | kill r pid he hr hy =>
    subst he
    rw [hy] at hq
    dsimp only at hq
    split at hq
    · cases hq
    · exact absurd hq (hc q hr)
  | fork r _ _ _ _ hy =>
    rw [hy] at hq
    cases hq
  | giveUp r he hy =>
    rw [hy]
    rcases he with ⟨rfl, hpc⟩ | ⟨rfl, hpc⟩
    · exact hc q hpc
    · exact hc q hpc
  | link r _ _ hy =>
    rw [hy] at hq ⊢
    exact hu q hq
  | start r _ _ hy =>
    rw [hy] at hq
    cases hq
  | exit _ _ hy =>
    rw [hy] at hq
    cases hq
  | abandon r _ _ hst _ _ hk =>
    rw [hk]
    rcases hst with hst | ⟨-, hst⟩
    · exact hu q (by rw [← hst, hq])
    · rw [hst] at hq
      cases hq
  | reap _ _ hy => rw [hy]

theorem sinceFork_cons (he : e ≠ .fork p) : sinceFork p (e :: tr) = e :: sinceFork p tr :=
  List.takeWhile_cons_of_pos (by simpa using he)

theorem clean_step (hC : Clean tr s) (h : step s e = .ok (o, s')) (hc : Careful s e) :
    Clean (e :: tr) s' where
  toForking := forking_step hC.toForking h
  unused q hq := unused_step hC.unused h hc hq
  named p np hchild hk := by
    rcases child_turn h hchild with hold | ⟨-, -, hnp, hnew⟩
    · have hformed := hC.turn h hold hchild
      have he : e ≠ .fork p := by
        rintro rfl
        rw [(guard_ok h).1.2.2] at hold
        cases hold
      rw [hformed.pid_eq, sinceFork_cons he]
      rcases hformed.killed with hkilled | ⟨r, rfl⟩
      · obtain ⟨r, hr⟩ := hC.named p np hold (by rw [← hkilled, hk])
        exact ⟨r, List.mem_cons_of_mem _ hr⟩
      · exact ⟨r, List.mem_cons_self ..⟩
    · -- a slot that was UNUSED was not killed
      rw [hnew, hC.unused np hnp] at hk
      cases hk

theorem run_cons (h : run (e :: tr) = .ok s') : ∃ s o, run tr = .ok s ∧ step s e = .ok (o, s') := by
  unfold run at h
  cases hr : run tr with
  | error x =>
    rw [hr] at h
    cases h
  | ok s =>
    rw [hr] at h
    cases hs : step s e with
    | error x => simp [bind, Except.bind, hs] at h
    | ok r =>
      obtain ⟨o, s1⟩ := r
      simp only [bind, Except.bind, hs, pure, Except.pure, Except.ok.injEq] at h
      subst h
      exact ⟨s, o, rfl, hs⟩

theorem clean_run : ∀ {tr : List Ev} {s : St}, run tr = .ok s → Along Careful tr → Clean tr s
  | [], _, h, _ => by
    cases h
    refine ⟨forking_boot, fun q _ => ?_, nofun⟩
    unfold boot
    dsimp only
    split <;> rfl
  | e :: tr, s', h, hc => by
    obtain ⟨s, o, hs, hst⟩ := run_cons h
    exact clean_step (clean_run hs hc.2) hst (hc.1 s hs)

/-- **What kill hits.** A `kill` that returns 0 has found a process that is not UNUSED, and a
process that `fork` makes RUNNABLE has `killed` set only if `kill` was called with its pid after the
`fork` that made it had begun. -/
theorem kill_hits_named (h : run tr = .ok s) (hst : step s e = .ok (o, s'))
    (hc : Along Careful (e :: tr)) :
    (∀ p pid, e = .kill p pid → o = .ret 0 →
      ∃ q, (s.proc q).state ≠ .unused ∧ (s.proc q).pid = pid) ∧
    ∀ p np, e = .start p → s.pc p = .start np → (s'.proc np).state = .runnable ∧
      ((s'.proc np).killed = true → ∃ r, .kill r (s'.proc np).pid ∈ sinceFork p tr) := by
  refine ⟨?_, ?_⟩
  · rintro p pid rfl rfl
    obtain ⟨-, hr⟩ := guard_ok hst
    unfold kill at hr
    split at hr
    · next q hq =>
      exact ⟨q, hc.1 s h q hq, by simpa using List.find?_some hq⟩
    · cases hr
  · rintro p np rfl hpc
    have hnew : s'.proc np = { s.proc np with state := .runnable } := by
      simp only [step, hpc] at hst
      obtain ⟨-, ⟨⟩⟩ := guard_ok hst
      exact update_self ..
    rw [hnew]
    exact ⟨rfl, (clean_run h hc.2).named p np (by rw [hpc]; rfl)⟩

/-- The first process is running. -/
def initRuns : List Ev := [.resume 0, .dispatch 0, .acquire]

/-- It forks. -/
def initForks : List Ev := [.start 0, .copyuvm 0 true, .kalloc 0 true, .fork 0] ++ initRuns

/-- The child has pid 2, and `kill(2)` finds it. -/
theorem kill_hits_named_child :
    ∃ s s', run initForks = .ok s ∧ step s (.kill 0 2) = .ok (.ret 0, s') ∧
    ∃ q, (s.proc q).state ≠ .unused ∧ (s.proc q).pid = 2 := by
  have hrun : (run initForks).toOption.map (fun s => (withPid s 2, (s.proc 1).state,
    (step s (.kill 0 2)).toOption.map (·.1))) =
      some (some 1, .runnable, some (.ret 0)) := by decide +kernel
  obtain ⟨s, hs, hf⟩ := Prog.ok_of_map hrun
  simp only [Prod.mk.injEq] at hf
  obtain ⟨hq, hst, hk⟩ := hf
  obtain ⟨⟨o, s'⟩, hk, rfl⟩ := Prog.ok_of_map hk
  refine ⟨s, s', hs, hk, (kill_hits_named hs hk ⟨?_, ?_⟩).1 0 2 rfl rfl⟩
  · intro s1 hs1 q hq1
    rw [hs] at hs1
    cases hs1
    rw [hq] at hq1
    cases hq1
    rw [hst]
    decide
  · simp [initForks, initRuns, Along, Careful]

/-- `kill(0)` succeeds when no process has pid 0, and the next `fork` makes a process that is
killed. -/
theorem kill_zero : (∃ s s', run initRuns = .ok s ∧ step s (.kill 0 0) = .ok (.ret 0, s') ∧
      ∀ q, (s.proc q).state ≠ .unused → (s.proc q).pid ≠ 0) ∧
    ∃ s s', run ([.copyuvm 0 true, .kalloc 0 true, .fork 0, .kill 0 0] ++ initRuns) = .ok s ∧
      step s (.start 0) = .ok (.ret 2, s') ∧ s'.proc 1 = ⟨.runnable, 2, some 0, none, true⟩ := by
  have hkill : (run initRuns).toOption.map (fun s => ((step s (.kill 0 0)).toOption.map (·.1),
      decide (∀ q, (s.proc q).state ≠ .unused → (s.proc q).pid ≠ 0))) =
        some (some (.ret 0), true) := by decide +kernel
  have hborn : (run ([.copyuvm 0 true, .kalloc 0 true, .fork 0, .kill 0 0] ++
    initRuns)).toOption.map (fun s =>
      (step s (.start 0)).toOption.map fun r => (r.1, r.2.proc 1)) =
      some (some (.ret 2, ⟨.runnable, 2, some 0, none, true⟩)) := by decide +kernel
  constructor
  · obtain ⟨s, hs, hf⟩ := Prog.ok_of_map hkill
    simp only [Prod.mk.injEq] at hf
    obtain ⟨hk, hall⟩ := hf
    obtain ⟨⟨o, s'⟩, hk, rfl⟩ := Prog.ok_of_map hk
    exact ⟨s, s', hs, hk, of_decide_eq_true hall⟩
  · obtain ⟨s, hs, hf⟩ := Prog.ok_of_map hborn
    obtain ⟨⟨o, s'⟩, hstart, hr⟩ := Prog.ok_of_map hf
    simp only [Prod.mk.injEq] at hr
    obtain ⟨rfl, hp⟩ := hr
    exact ⟨s, s', hs, hstart, hp⟩

end Os4.Ptable
