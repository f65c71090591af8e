import Mathlib.Data.Finset.Card
import Os4.Dev.Mp
import Os4.Proc.Table
/-!
# Spinlocks, interrupts and `sched` (spinlock.c, proc.c:299-314, vm.c:165-177)

| here | there |
| --- | --- |
| `Core` | `struct cpu` (proc.h:5) and the interrupt flag |
| `Pc` | in the loop of `acquire`, before its `lk->cpu = cpu`, before the `xchg` of `release`, before a `popcli`, or elsewhere |
| `Ev.flag` | `cli`, `sti`, an interrupt or the return from one, while no lock is held |
| `Ev.switchuvm` | the `pushcli` of `switchuvm`, which its `popcli` follows |
| `Ev.swtch` | the scheduler goes on with a process that is on no processor: in its `sched`, or in `forkret` |

Processors interleave at every access to a lock. `held` are the locks that a processor has; `outer`
is the flag before the first `pushcli` of those not undone yet, and goes with a process to other
processors.
-/
namespace Os4.Spin

open Function (update update_apply)
open Ptable (Slot)

abbrev Cpu := Fin Mp.NCPU

/-- `&ptable.lock`; other locks are other numbers. -/
abbrev ptableLock : Nat := 0

inductive Pc where
  | code
  | spin (lk : Nat)
  | taken (lk : Nat)
  | cleared (lk : Nat)
  | popcli

structure Core where
  ncli : Int
  intena : Bool
  flag : Bool
  proc : Option Slot
  pc : Pc
  held : Finset Nat
  outer : Bool

structure St where
  locked : Nat → Bool
  cpu : Nat → Option Cpu
  core : Cpu → Core
  /-- `intena` in the frame of `sched`, and `outer` -/
  context : Slot → Option (Bool × Bool)

inductive Stop where
  | acquire
  | release
  | interruptible
  | popcli
  | schedPtable
  | schedLocks
  | schedRunning
  | schedInterruptible
  | disabled

def St.put (s : St) (c : Cpu) (x : Core) : St := { s with core := update s.core c x }

def holding (s : St) (c : Cpu) (lk : Nat) : Bool := s.locked lk && s.cpu lk == some c

def pushcli (x : Core) : Core :=
  if x.ncli = 0 then { x with flag := false, ncli := x.ncli + 1, intena := x.flag, outer := x.flag }
  else { x with flag := false, ncli := x.ncli + 1 }

def popcli (x : Core) : Except Stop Core :=
  if x.flag then .error .interruptible
  else if x.ncli - 1 < 0 then .error .popcli
  else if x.ncli - 1 = 0 ∧ x.intena then .ok { x with ncli := x.ncli - 1, flag := true }
  else .ok { x with ncli := x.ncli - 1 }

/-- `running`: is `p->state` RUNNING? -/
def sched (s : St) (c : Cpu) (p : Slot) (running : Bool) : Except Stop St :=
  let x := s.core c
  if !holding s c ptableLock then .error .schedPtable
  else if x.ncli ≠ 1 then .error .schedLocks
  else if running then .error .schedRunning
  else if x.flag then .error .schedInterruptible
  else .ok { s.put c { x with proc := none } with
    context := update s.context p (some (x.intena, x.outer)) }

inductive Ev where
  | flag (b : Bool)
  | acquire (lk : Nat)
  | xchg
  | mark
  | release (lk : Nat)
  | unlock
  | popcli
  | sched (running : Bool)
  | swtch (q : Slot)
  | allocproc (q : Slot)
  | switchuvm

/-- What processor `c` does next. -/
def step (s : St) (c : Cpu) (e : Ev) : Except Stop St :=
  let x := s.core c
  match e, x.pc with
  | .flag b, .code => if x.ncli = 0 then .ok (s.put c { x with flag := b }) else .error .disabled
  | .acquire lk, .code =>
    if holding s c lk then .error .acquire else .ok (s.put c { pushcli x with pc := .spin lk })
  | .xchg, .spin lk =>
    if s.locked lk then .ok s
    else .ok { s.put c { x with pc := .taken lk } with locked := update s.locked lk true }
  | .mark, .taken lk =>
    .ok { s.put c { x with pc := .code, held := insert lk x.held } with
      cpu := update s.cpu lk (some c) }
  | .release lk, .code =>
    if holding s c lk then .ok { s.put c { x with pc := .cleared lk, held := x.held.erase lk } with
      cpu := update s.cpu lk none }
    else .error .release
  | .unlock, .cleared lk =>
    .ok { s.put c { x with pc := .popcli } with locked := update s.locked lk false }
  | .popcli, .popcli => (popcli x).map fun x => s.put c { x with pc := .code }
  | .sched running, .code =>
    match x.proc with
    | some p => sched s c p running
    | none => .error .disabled
  | .swtch q, .code =>
    if x.proc = none ∧ holding s c ptableLock ∧ x.ncli = 1 ∧ ∀ c', (s.core c').proc ≠ some q then
      let (intena, outer) := (s.context q).getD (x.intena, x.intena)
      .ok (s.put c { x with proc := some q, intena, outer })
    else .error .disabled
  | .allocproc q, .code =>
    if ∀ c', (s.core c').proc ≠ some q then .ok { s with context := update s.context q none }
    else .error .disabled
  | .switchuvm, .code => .ok (s.put c { pushcli x with pc := .popcli })
  | _, _ => .error .disabled

/-- Every processor is about to enter `scheduler`. -/
def boot : St :=
  ⟨fun _ => false, fun _ => none, fun _ => ⟨0, false, false, none, .code, ∅, false⟩, fun _ => none⟩

def run : List (Cpu × Ev) → Except Stop St
  | [] => .ok boot
  | (c, e) :: tr => do step (← run tr) c e

/-- A lock that has been taken and not given back. -/
def Core.Has (x : Core) (lk : Nat) : Prop := lk ∈ x.held ∨ x.pc = .taken lk ∨ x.pc = .cleared lk

def Pc.depth : Pc → Nat
  | .code => 0
  | _ => 1

structure Inv (s : St) : Prop where
  locked : ∀ {c lk}, (s.core c).Has lk → s.locked lk = true
  apart : ∀ {c c' lk}, (s.core c).Has lk → (s.core c').Has lk → c = c'
  cpu : ∀ {c lk}, s.cpu lk = some c ↔ lk ∈ (s.core c).held
  moving : ∀ {c lk}, (s.core c).pc = .taken lk ∨ (s.core c).pc = .cleared lk → lk ∉ (s.core c).held
  depth : ∀ c, (s.core c).ncli = ((s.core c).held.card + (s.core c).pc.depth : Nat)
  off : ∀ {c}, (s.core c).flag = true → (s.core c).ncli = 0
  intena : ∀ {c p}, (s.core c).proc = some p → (s.core c).ncli ≠ 0 →
    (s.core c).intena = (s.core c).outer
  context : ∀ {p y}, s.context p = some y → y.1 = y.2

variable {s s' : St} {c : Cpu} {e : Ev} {lk : Nat} {tr : List (Cpu × Ev)}

theorem holding_iff (hI : Inv s) : holding s c lk = true ↔ lk ∈ (s.core c).held := by
  simp only [holding, Bool.and_eq_true, beq_iff_eq, hI.cpu, and_iff_right_iff_imp]
  exact fun h => hI.locked (.inl h)

theorem popcli_ok {x : Core} {f : Core → St} (h : (popcli x).map f = .ok s) :
    s = f { x with ncli := x.ncli - 1, flag := x.ncli = 1 && x.intena } := by
  unfold popcli at h
  grind [Except.map]

theorem inv_step (hI : Inv s) (h : step s c e = .ok s') : Inv s' := by
  have hholding := fun c lk => @holding_iff s c lk hI
  obtain ⟨hlocked, hapart, hcpu, hmoving, hdepth, hoff, hintena, hcontext⟩ := id hI
  simp only [Core.Has] at hlocked hapart
  unfold step at h
  dsimp only at h
  split at h
  case h_7 => -- `popcli`
    obtain rfl := popcli_ok h
    constructor <;> simp only [St.put, update_apply, Core.Has] <;> grind -ring -linarith [Pc.depth]
  case h_8 => -- `sched`
    split at h
    · simp only [sched] at h
      split_ifs at h
      cases h
      constructor <;> simp only [St.put, update_apply, Core.Has] <;> grind -ring -linarith
    · cases h
  case h_9 _ _ q _ => -- `swtch`
    have hq : ∀ b, ((s.context q).getD (b, b)).1 = ((s.context q).getD (b, b)).2 := fun b => by
      cases hc : s.context q with
      | none => rfl
      | some y => exact hcontext hc
    split at h <;> cases h
    constructor <;> simp only [St.put, update_apply, Core.Has] <;> grind -ring -linarith
  all_goals
    try split at h
    all_goals cases h
  all_goals first
    | exact hI -- an `xchg` that finds the lock taken
    | constructor <;> simp only [St.put, update_apply, Core.Has] <;>
        grind -ring -linarith [Pc.depth, pushcli, Finset.card_insert_of_notMem,
          Finset.card_erase_of_mem]

theorem inv_run : ∀ {tr : List (Cpu × Ev)} {s : St}, run tr = .ok s → Inv s
  | [], _, h => by
    cases h
    constructor <;> simp [boot, Core.Has, Pc.depth]
  | (c, e) :: tr, s', h => by
    simp only [run, bind, Except.bind] at h
    split at h
    · cases h
    · rename_i s hs
      exact inv_step (inv_run hs) h

/-- **Mutual exclusion.** A lock is with one processor, and `holding` says with which; while a
processor has a lock it takes no interrupts. The panics of `popcli` and `sched` about it are not
reached. -/
theorem spin_exclusive (h : run tr = .ok s) :
    (∀ c c' lk, (s.core c).Has lk → (s.core c').Has lk → c = c') ∧
    (∀ c lk, holding s c lk = true ↔ lk ∈ (s.core c).held) ∧
    (∀ c lk, (s.core c).Has lk → (s.core c).flag = false) ∧
    ∀ c e, step s c e ≠ .error .popcli ∧ step s c e ≠ .error .interruptible ∧
    step s c e ≠ .error .schedInterruptible := by
  have hI := inv_run h
  have hoff := @hI.off
  have hdepth := hI.depth
  refine ⟨fun _ _ _ => hI.apart, fun _ _ => holding_iff hI, fun c lk hlk => ?_, fun c e => ?_⟩
  · have := Finset.card_pos (s := (s.core c).held)
    grind [Core.Has, Pc.depth]
  · unfold step
    dsimp only
    split <;> grind [popcli, sched, Pc.depth, Except.map]

/-- **The interrupt flag.** When a process gives back its last lock, or leaves `switchuvm` without
one, the flag is what it was before it took the first or entered `switchuvm`, also on another
processor than that one. -/
theorem flag_restored (h : run tr = .ok s) {p : Slot} (hp : (s.core c).proc = some p)
    (hpop : step s c .popcli = .ok s') (hlast : (s.core c).held = ∅) :
    (s'.core c).flag = (s.core c).outer := by
  have hI := inv_run h
  cases hpc : (s.core c).pc with
  | popcli =>
    simp only [step, hpc] at hpop
    obtain rfl := popcli_ok hpop
    have hone : (s.core c).ncli = 1 := by rw [hI.depth, hlast, hpc]; rfl
    have hintena := hI.intena hp (by rw [hone]; decide)
    simp [St.put, hone, hintena]
  | _ => simp [step, hpc] at hpop

/-- Process 5 leaves processor 0 and goes on at processor 1, which has had no interrupts. -/
def moves : List (Cpu × Ev) :=
  [(1, .unlock), (1, .release 0), (1, .swtch 5), (1, .mark), (1, .xchg), (1, .acquire 0),
    (0, .popcli), (0, .unlock), (0, .release 0), (0, .sched false), (0, .mark), (0, .xchg),
    (0, .acquire 0), (0, .popcli), (0, .unlock), (0, .release 0), (0, .swtch 5), (0, .mark),
    (0, .xchg), (0, .acquire 0), (0, .flag true)]

theorem flag_restored_moves : ∃ s s', run moves = .ok s ∧ step s 1 .popcli = .ok s' ∧
    (s'.core 1).flag = true :=
  ⟨_, _, rfl, rfl, (flag_restored (c := 1)
    (p := 5) (show run moves = .ok _ from rfl) rfl rfl rfl).trans rfl⟩

theorem spin_exclusive_moves : ∃ s, run (moves.drop 2) = .ok s ∧ 0 ∈ (s.core 1).held ∧
    (s.core 1).flag = false :=
  ⟨_, rfl, by decide, (spin_exclusive (show run (moves.drop 2) = .ok _ from rfl)).2.2.1 1 0
    (.inl (by decide))⟩

end Os4.Spin
