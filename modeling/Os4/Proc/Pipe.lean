import Mathlib.Logic.Relation
import Os4.Lib.Ring
/-!
# Pipes: `pipewrite`, `piperead`, `pipeclose` (pipe.c:58-120), `sleep`, `wakeup`, `kill` (proc.c:349-427)

| here | there |
| --- | --- |
| `St.lock`, `St.ptable` | who holds `p->lock`, `ptable.lock` |
| `Task`          | a call of `pipewrite`, `piperead` or `pipeclose`, with the loop index of `pipewrite` |
| `Pc`            | where a process stands in its call |
| `pipewrite`     | one round of the `for` loop with its `while` test (pipe.c:83-92) |
| `piperead`      | one test of the `while` loop (:105-111) |
| `copy`          | one round of the `for` loop of `piperead` (:112-116) |
| `St.wakeup`     | `wakeup(chan)` (proc.c:395), in one step: all of it is under `ptable.lock` |
| `Pc.sleep`, `Pc.unlocked`, `Pc.asleep` | `sleep(chan, &p->lock)`: before `acquire(&ptable.lock); release(lk)`, before `sched()`, in it |

A process takes its steps one at a time, between those of others. `RUNNABLE` and `RUNNING` are one
state: any process that does not sleep may be on a processor. Anybody may call `pipeclose` at any
time, more than file.c would let them; a spinlock in a page that `kfree` has filled with ones is
never free again. `St.stored` and `St.delivered` are history: every byte ever stored in the pipe and
every byte ever handed to a reader.

**`pipe_fifo`** is about the bytes, **`no_lost_wakeup`** about those who sleep: a writer that gives
up on a full pipe (:86) does not wake anybody (`wakeup_lost`).
-/
namespace Os4.Pipe

abbrev PIPESIZE : Nat := 512

/-- `&p->nread`, `&p->nwrite` -/
inductive Chan where
  | nread
  | nwrite
deriving DecidableEq, Repr

inductive Task where
  | write (addr : Nat → UInt8) (n : Int) (i : Nat)
  | read (n : Int)
  | close (writable : Bool)

inductive Pc where
  | user
  /-- `acquire(&p->lock)` -/
  | acquire (t : Task)
  /-- the top of the loop of `pipewrite` or `piperead`, or the flag of `pipeclose` -/
  | top (t : Task)
  /-- `wakeup(&p->nread)` in the loop of `pipewrite` (pipe.c:89) -/
  | wake (t : Task)
  | sleep (c : Chan) (t : Task)
  | unlocked (c : Chan) (t : Task)
  | asleep (t : Task)
  | copy (n : Int) (i : Nat)
  /-- the `wakeup(c)` before the last `release` of a call that returns `r` -/
  | finish (c : Chan) (r : Option Int)
  | release (r : Option Int)
  /-- `kfree((char*)p)` -/
  | free

structure Proc where
  sleeping : Bool
  chan : Option Chan
  killed : Bool
  eax : Option Int
  pc : Pc

structure St where
  lock : Option Nat
  ptable : Option Nat
  data : Nat → UInt8
  nread : UInt32
  nwrite : UInt32
  readopen : Bool
  writeopen : Bool
  freed : Bool
  proc : Nat → Proc
  stored : List UInt8
  delivered : List UInt8

/-- A pipe as `pipealloc` leaves it, and processes that are in no call. -/
def init (data : Nat → UInt8) (killed : Nat → Bool) : St :=
  ⟨none, none, data, 0, 0, true, true, false, fun i => ⟨false, none, killed i, none, .user⟩, [], []⟩

variable (s : St)

namespace St

def setProc (i : Nat) (x : Proc) : St := { s with proc := Function.update s.proc i x }

def goto (i : Nat) (pc : Pc) : St := s.setProc i { s.proc i with pc }

def wakeup (c : Chan) : St :=
  { s with
    proc := fun q =>
      if (s.proc q).sleeping && (s.proc q).chan = some c then { s.proc q with sleeping := false }
      else s.proc q }

def full : Bool := s.nwrite = s.nread + 512

def empty : Bool := s.nread = s.nwrite

end St

def pipewrite (i : Nat) (addr : Nat → UInt8) (n : Int) (k : Nat) : St :=
  if (k : Int) < n then
    if s.full then
      if !s.readopen || (s.proc i).killed then s.goto i (.release (some (-1)))
      else s.goto i (.wake (.write addr n k))
    else
      { s.goto i (.top (.write addr n (k + 1))) with
        data := Function.update s.data (s.nwrite.toNat % PIPESIZE) (addr k)
        nwrite := s.nwrite + 1
        stored := s.stored ++ [addr k] }
  else s.goto i (.finish .nread (some n))

def piperead (i : Nat) (n : Int) : St :=
  if s.empty && s.writeopen then
    if (s.proc i).killed then s.goto i (.release (some (-1)))
    else s.goto i (.sleep .nread (.read n))
  else s.goto i (.copy n 0)

def copy (i : Nat) (n : Int) (k : Nat) : St :=
  if (k : Int) < n ∧ s.empty = false then
    { s.goto i (.copy n (k + 1)) with
      nread := s.nread + 1
      delivered := s.delivered ++ [s.data (s.nread.toNat % PIPESIZE)] }
  else s.goto i (.finish .nwrite (some k))

def pipeclose (i : Nat) (writable : Bool) : St :=
  if writable then { s.goto i (.finish .nread none) with writeopen := false }
  else { s.goto i (.finish .nwrite none) with readopen := false }

/-- The next step of process `i`, which is not asleep; `none` while it has to wait for a lock. -/
def run (i : Nat) : Option St :=
  match (s.proc i).pc with
  | .user => none
  | .acquire t =>
    if s.lock = none ∧ s.freed = false then some { s.goto i (.top t) with lock := some i } else none
  | .top (.write addr n k) => some (pipewrite s i addr n k)
  | .top (.read n) => some (piperead s i n)
  | .top (.close w) => some (pipeclose s i w)
  | .wake t => if s.ptable = none then some ((s.wakeup .nread).goto i (.sleep .nwrite t)) else none
  | .sleep c t =>
    if s.ptable = none then some { s.goto i (.unlocked c t) with ptable := some i, lock := none }
    else none
  | .unlocked c t =>
    some { s.setProc i { s.proc i with chan := some c, sleeping := true, pc := .asleep t } with
      ptable := none }
  | .asleep t =>
    if s.ptable = none then some (s.setProc i { s.proc i with chan := none, pc := .acquire t })
    else none
  | .copy n k => some (copy s i n k)
  | .finish c r => if s.ptable = none then some ((s.wakeup c).goto i (.release r)) else none
  | .release r =>
    -- `pipeclose` returns nothing, and is the only one to free the page
    let last := r = none ∧ s.readopen = false ∧ s.writeopen = false
    some { s.setProc i { s.proc i with eax := r, pc := if last then .free else .user } with
      lock := none }
  | .free => some { s.goto i .user with freed := true }

inductive Ev where
  /-- a call of `pipewrite`, `piperead` or `pipeclose` -/
  | write (i : Nat) (addr : Nat → UInt8) (n : Int)
  | read (i : Nat) (n : Int)
  | close (i : Nat) (writable : Bool)
  | run (i : Nat)
  /-- `kill(pid)` of process `j` -/
  | kill (j : Nat)

def call (i : Nat) (t : Task) : Option St :=
  match (s.proc i).pc with
  | .user => some (s.goto i (.acquire t))
  | _ => none

def kill (j : Nat) : Option St :=
  if s.ptable = none then some (s.setProc j { s.proc j with killed := true, sleeping := false })
  else none

def step : Ev → Option St
  | .write i addr n => call s i (.write addr n 0)
  | .read i n => call s i (.read n)
  | .close i w => call s i (.close w)
  | .run i => if (s.proc i).sleeping then none else run s i
  | .kill j => kill s j

/-- A step that `ok` admits. -/
def Next (ok : St → Ev → Prop) (s s' : St) : Prop := ∃ e, ok s e ∧ step s e = some s'

abbrev Reaches (ok : St → Ev → Prop) : St → St → Prop := Relation.ReflTransGen (Next ok)

/-! ## Frames -/

namespace St

variable {s : St} {i q : Nat} {x : Proc} {pc : Pc} {c : Chan}

@[simp] theorem setProc_self : (s.setProc i x).proc i = x := Function.update_self ..

theorem setProc_ne (h : q ≠ i) : (s.setProc i x).proc q = s.proc q := Function.update_of_ne h ..

@[simp] theorem goto_self : (s.goto i pc).proc i = { s.proc i with pc } := Function.update_self ..

theorem goto_ne (h : q ≠ i) : (s.goto i pc).proc q = s.proc q := Function.update_of_ne h ..

@[simp] theorem wakeup_pc : ((s.wakeup c).proc q).pc = (s.proc q).pc := by
  simp only [wakeup]
  split <;> rfl

theorem wakeup_awake (h : (s.proc q).sleeping = false) : (s.wakeup c).proc q = s.proc q := by
  simp [wakeup, h]

/-- Nobody sleeps on `c` after `wakeup(c)`, and nobody has fallen asleep. -/
theorem wakeup_sleeping (h : ((s.wakeup c).proc q).sleeping = true) :
    (s.wakeup c).proc q = s.proc q ∧ (s.proc q).chan ≠ some c := by
  by_cases hq : (s.proc q).sleeping && (s.proc q).chan = some c
  · simp only [wakeup, if_pos hq, Bool.false_eq_true] at h
  · have hsame : (s.wakeup c).proc q = s.proc q := by simp only [wakeup, if_neg hq]
    rw [hsame] at h
    simp [h] at hq
    exact ⟨hsame, hq⟩

end St

/-! ## First in, first out -/

/-- What lies between the counters, oldest first. -/
def St.buffered : List UInt8 :=
  (List.range (s.nwrite - s.nread).toNat).map fun j =>
    s.data ((s.nread.toNat + j) % 2 ^ 32 % PIPESIZE)

/-- The cells and counters of the pipe hold what was stored and not delivered. -/
abbrev St.Fifo : Prop := Ring.Holds PIPESIZE (2 ^ 32) s.data s.nread.toNat s.nwrite.toNat
    s.stored s.delivered

theorem full_iff {s : St} :
    s.full = true ↔ s.nwrite.toNat = (s.nread.toNat + PIPESIZE) % 2 ^ 32 := by
  rw [St.full, decide_eq_true_eq, ← UInt32.toNat_inj, UInt32.toNat_add]
  rfl

theorem empty_iff {s : St} : s.empty = true ↔ s.nread.toNat = s.nwrite.toNat := by
  rw [St.empty, decide_eq_true_eq, UInt32.toNat_inj]

theorem fifo_pipewrite {s : St} (h : s.Fifo) (i : Nat) (addr : Nat → UInt8) (n : Int) (k : Nat) :
    (pipewrite s i addr n k).Fifo := by
  rw [pipewrite]
  split
  · split
    · split <;> exact h
    · rename_i hfull
      have hpush := h.push (by decide) (by decide) (fun heq => hfull (full_iff.2 heq)) (addr k)
      have hcount : (s.nwrite + 1).toNat = (s.nwrite.toNat + 1) % 2 ^ 32 := UInt32.toNat_add ..
      rw [← hcount] at hpush
      exact hpush
  · exact h

theorem fifo_copy {s : St} (h : s.Fifo) (i : Nat) (n : Int) (k : Nat) : (copy s i n k).Fifo := by
  rw [copy]
  split
  · rename_i hc
    have hne : s.nread.toNat ≠ s.nwrite.toNat := fun heq => by
      rw [empty_iff.2 heq] at hc
      cases hc.2
    have hpop := h.pop (by decide) (by decide) hne
    have hcount : (s.nread + 1).toNat = (s.nread.toNat + 1) % 2 ^ 32 := UInt32.toNat_add ..
    rw [← hcount] at hpop
    exact hpop
  · exact h

/-- Only a byte stored and a byte copied concern the ring. -/
theorem fifo_run {s : St} (h : s.Fifo) (hr : run s i = some s') : s'.Fifo := by
  rw [run] at hr
  split at hr
  case h_1 => cases hr
  case h_3 => cases hr; exact fifo_pipewrite h ..
  case h_4 =>
    cases hr
    rw [piperead]
    split
    · split <;> exact h
    · exact h
  case h_5 =>
    cases hr
    rw [pipeclose]
    split <;> exact h
  case h_10 => cases hr; exact fifo_copy h ..
  case h_8 | h_12 | h_13 => cases hr; exact h
  all_goals
    split at hr
    · cases hr; exact h
    · cases hr

theorem fifo_step {s : St} {e : Ev} (h : s.Fifo) (hs : step s e = some s') : s'.Fifo := by
  have hcall : ∀ i t, call s i t = some s' → s'.Fifo := fun i t hc => by
    rw [call] at hc
    split at hc <;> cases hc
    exact h
  cases e with
  | write i addr n => exact hcall _ _ hs
  | read i n => exact hcall _ _ hs
  | close i w => exact hcall _ _ hs
  | run i =>
    simp only [step] at hs
    split at hs
    · cases hs
    · exact fifo_run h hs
  | kill j =>
    simp only [step, kill] at hs
    split at hs <;> cases hs
    exact h

theorem fifo_reaches {ok : St → Ev → Prop} {s : St} (h : s.Fifo) (hr : Reaches ok s s') :
    s'.Fifo := by
  induction hr with
  | refl => exact h
  | tail _ hstep ih =>
    obtain ⟨e, -, he⟩ := hstep
    exact fifo_step ih he

/-- **In every run, however often the counters have wrapped, the pipe holds at most `PIPESIZE`
bytes, and the bytes given to readers followed by the bytes in the pipe are the bytes stored by
writers.** -/
theorem pipe_fifo (data : Nat → UInt8) (killed : Nat → Bool) (s : St)
    (hr : Reaches (fun _ _ => True) (init data killed) s) :
    (s.nwrite - s.nread).toNat ≤ PIPESIZE ∧ s.stored = s.delivered ++ s.buffered := by
  have h : s.Fifo := fifo_reaches (Ring.Holds.nil data) hr
  have hcount : (s.nwrite - s.nread).toNat = (2 ^ 32 - s.nread.toNat + s.nwrite.toNat) % 2 ^ 32 :=
    UInt32.toNat_sub ..
  refine ⟨?_, ?_⟩
  · rw [hcount]
    exact h.count_le (by decide)
  · have hrest := h.rest (by decide) (by decide)
    rw [← hcount] at hrest
    exact hrest

/-- Two bytes stored, with the writer still in its loop. -/
theorem pipe_fifo_two : ∃ s : St, s.stored = [7, 7] ∧ s.delivered = [] ∧
    (s.nwrite - s.nread).toNat ≤ PIPESIZE ∧ s.stored = s.delivered ++ s.buffered := by
  have hr : ∃ s, Reaches (fun _ _ => True) (init (fun _ => 0) fun _ => false) s ∧
      s.stored = [7, 7] ∧ s.delivered = [] := by
    refine ⟨_, .tail (.tail (.tail (.tail .refl ⟨.write 2 (fun _ => 7) 3, trivial, rfl⟩)
      ⟨.run 2, trivial, rfl⟩)
      ⟨.run 2, trivial, rfl⟩) ⟨.run 2, trivial, rfl⟩, rfl, rfl⟩
  obtain ⟨s, hr, hst, hdl⟩ := hr
  exact ⟨s, hst, hdl, pipe_fifo _ _ s hr⟩

/-! ## Sleepers -/

/-- `q` sleeps on `c`, or has given up `p->lock` in order to. -/
def St.Waits (c : Chan) (q : Nat) : Prop :=
  (∃ t, (s.proc q).pc = .unlocked c t) ∨ ((s.proc q).sleeping = true ∧ (s.proc q).chan = some c)

/-- What a process that sleeps on the channel waits for has not happened. -/
def St.Blocked : Chan → Prop
  | .nread => s.empty = true ∧ s.writeopen = true
  | .nwrite => s.full = true ∧ s.readopen = true

namespace Pc

/-- Between `acquire` and `release` of `p->lock`. -/
def Holds : Pc → Prop
  | .top _ | .wake _ | .sleep _ _ | .copy _ _ | .finish _ _ | .release _ => True
  | _ => False

/-- The process will call `wakeup(c)` before it releases `p->lock`. -/
def Owes (c : Chan) : Pc → Prop
  | .top (.write ..) | .wake _ => c = .nread
  | .copy .. => c = .nwrite
  | .finish c' _ => c = c'
  | _ => False

/-- The process will sleep on `c` before anybody else gets `p->lock`. -/
def Dozes (c : Chan) : Pc → Prop
  | .wake _ => c = .nwrite
  | .sleep c' _ => c = c'
  | _ => False

theorem Owes.holds {pc : Pc} (h : pc.Owes c) : pc.Holds := by
  cases pc <;> first | exact trivial | exact h.elim

theorem Dozes.holds {pc : Pc} (h : pc.Dozes c) : pc.Holds := by
  cases pc <;> first | exact trivial | exact h.elim

end Pc

/-- Whoever waits is blocked, or will be woken by the holder of the lock. -/
structure Inv (s : St) : Prop where
  lock : ∀ i, (s.proc i).pc.Holds ↔ s.lock = some i
  ptable : ∀ i c t, (s.proc i).pc = .unlocked c t → s.ptable = some i
  waits : ∀ c q, s.Waits c q → s.Blocked c ∨ ∃ i, (s.proc i).pc.Owes c
  dozes : ∀ c i, (s.proc i).pc.Dozes c → s.Blocked c

/-- `pipewrite` is about to return -1 on a full pipe (pipe.c:84-87). -/
def St.GivesUp (i : Nat) : Prop :=
  ∃ addr n k, (s.proc i).pc = .top (.write addr n k) ∧ (k : Int) < n ∧ s.full = true ∧
    (s.readopen = false ∨ (s.proc i).killed = true)

/-- No `pipewrite` gives up on a full pipe while somebody sleeps on `&p->nread`. -/
def Heeds : Ev → Prop
  | .run i => s.GivesUp i → ∀ q, ¬ s.Waits .nread q
  | _ => True

namespace Inv

variable {s s' : St} {i q : Nat} {c : Chan} {pc' : Pc}

/-- In a state where somebody holds the lock, only that process owes a `wakeup`. -/
theorem owed (h : Inv s) (hi : s.lock = some i) (hw : s.Waits c q) :
    s.Blocked c ∨ (s.proc i).pc.Owes c := by
  rcases h.waits c q hw with hb | ⟨j, hj⟩
  · exact .inl hb
  · have := (h.lock j).1 hj.holds
    rw [hi] at this
    cases this
    exact .inr hj

theorem unowed {pc : Pc} (h : Inv s) (hi : (s.proc i).pc.Holds) (hpc : (s.proc i).pc = pc)
    (hno : ¬ pc.Owes c) (hw : s.Waits c q) :
    s.Blocked c := (h.owed ((h.lock i).1 hi) hw).resolve_right (hpc ▸ hno)

/-- The holder of the lock goes on to `pc'`. Whoever waits afterwards waited before; they are still
blocked or `pc'` owes them a `wakeup`. -/
theorem hold (h : Inv s) (hi : (s.proc i).pc.Holds) (pc' : Pc) (hlock : s'.lock = s.lock)
    (hptable : s'.ptable = s.ptable)
    (hself : (s'.proc i).pc = pc') (hother : ∀ q, q ≠ i → (s'.proc q).pc = (s.proc q).pc)
    (hpc : pc'.Holds)
    (hwaits : ∀ c q, s'.Waits c q → s'.Blocked c ∨ pc'.Owes c)
    (hdozes : ∀ c, pc'.Dozes c → s'.Blocked c) : Inv s' := by
  have hl := (h.lock i).1 hi
  have hnot : ∀ q, q ≠ i → ¬ (s.proc q).pc.Holds := fun q hq hh => by
    have := (h.lock q).1 hh
    rw [hl] at this
    cases this
    exact hq rfl
  refine ⟨fun q => ?_, fun q c t hq => ?_, fun c q hw => ?_, fun c q hd => ?_⟩
  · by_cases hq : q = i
    · subst hq
      rw [hself, hlock, hl]
      exact ⟨fun _ => rfl, fun _ => hpc⟩
    · rw [hother q hq, hlock]
      exact h.lock q
  · by_cases hqi : q = i
    · subst hqi
      rw [hself] at hq
      subst hq
      exact hpc.elim
    · rw [hother q hqi] at hq
      rw [hptable]
      exact h.ptable q c t hq
  · rcases hwaits c q hw with hb | ho
    · exact .inl hb
    · exact .inr ⟨i, hself ▸ ho⟩
  · by_cases hq : q = i
    · subst hq
      exact hdozes c (hself ▸ hd)
    · rw [hother q hq] at hd
      exact absurd hd.holds (hnot q hq)

theorem unlock (h : Inv s) (hi : (s.proc i).pc.Holds) (hlock : s'.lock = none)
    (hself : ¬ (s'.proc i).pc.Holds) (hother : ∀ q, q ≠ i → (s'.proc q).pc = (s.proc q).pc)
    (hptable : ∀ q c t, (s'.proc q).pc = .unlocked c t → s'.ptable = some q)
    (hwaits : ∀ c q, s'.Waits c q → s'.Blocked c) : Inv s' := by
  have hnot : ∀ q, ¬ (s'.proc q).pc.Holds := fun q hh => by
    by_cases hq : q = i
    · subst hq
      exact hself hh
    · rw [hother q hq] at hh
      have hl := (h.lock q).1 hh
      rw [(h.lock i).1 hi] at hl
      cases hl
      exact hq rfl
  refine ⟨fun q => ⟨fun hh => absurd hh (hnot q), fun hl => ?_⟩, hptable,
    fun c q hw => .inl (hwaits c q hw), fun c q hd => absurd hd.holds (hnot q)⟩
  rw [hlock] at hl
  cases hl

theorem other (h : Inv s) (hi : ¬ (s.proc i).pc.Holds) (hlock : s'.lock = s.lock)
    (hself : ¬ (s'.proc i).pc.Holds)
    (hother : ∀ q, q ≠ i → (s'.proc q).pc = (s.proc q).pc)
    (hblocked : ∀ c, s.Blocked c → s'.Blocked c)
    (hptable : ∀ q c t, (s'.proc q).pc = .unlocked c t → s'.ptable = some q)
    (hwaits : ∀ c q, s'.Waits c q → s.Waits c q) : Inv s' := by
  have hsame : ∀ q, (s'.proc q).pc.Holds → (s'.proc q).pc = (s.proc q).pc := fun q hh => by
    by_cases hq : q = i
    · subst hq
      exact absurd hh hself
    · exact hother q hq
  have hpc : ∀ q, (s.proc q).pc.Holds → (s'.proc q).pc = (s.proc q).pc := fun q hh => by
    by_cases hq : q = i
    · subst hq
      exact absurd hh hi
    · exact hother q hq
  refine ⟨fun q => ?_, hptable, fun c q hw => ?_, fun c q hd => ?_⟩
  · rw [hlock, ← h.lock q]
    exact ⟨fun hh => hsame q hh ▸ hh, fun hh => (hpc q hh).symm ▸ hh⟩
  · rcases h.waits c q (hwaits c q hw) with hb | ⟨j, hj⟩
    · exact .inl (hblocked c hb)
    · exact .inr ⟨j, (hpc j hj.holds).symm ▸ hj⟩
  · have hd' := hd
    rw [hsame q hd.holds] at hd'
    exact hblocked c (h.dozes c q hd')

end Inv

/-! ## One step -/

section Step

variable {s s' : St} {i q : Nat} {c : Chan} {pc' : Pc} {addr : Nat → UInt8} {n : Int} {k : Nat}
  {t : Task} {r : Option Int}

/-- A process that goes on to `pc'`, with the lock, does not wait. -/
theorem waits_goto (hs : (s.proc i).sleeping = false) (hw : (s.goto i pc').Waits c q)
    (hpc : ∀ c t, pc' ≠ .unlocked c t) :
    s.Waits c q := by
  by_cases hq : q = i
  · subst hq
    rw [St.Waits, St.goto_self] at hw
    rcases hw with ⟨t, ht⟩ | ⟨hsl, -⟩
    · exact absurd ht (hpc c t)
    · rw [hs] at hsl
      cases hsl
  · rw [St.Waits, St.goto_ne hq] at hw
    exact hw

theorem goto_other (q : Nat) (hq : q ≠ i) : ((s.goto i pc').proc q).pc = (s.proc q).pc := by
  rw [St.goto_ne hq]

section

variable (h : Inv s)
include h

/-- The holder of the lock goes on to `pc'` and wakes nobody. -/
theorem Inv.goto (hi : (s.proc i).pc.Holds) (hs : (s.proc i).sleeping = false)
    (pc' : Pc) (hpc : pc'.Holds)
    (hlock : s'.lock = s.lock) (hptable : s'.ptable = s.ptable)
    (hproc : s'.proc = (s.goto i pc').proc)
    (hwaits : ∀ c q, s.Waits c q → s'.Blocked c ∨ pc'.Owes c)
    (hdozes : ∀ c, pc'.Dozes c → s'.Blocked c) : Inv s' := by
  refine h.hold hi pc' hlock hptable ?_ (fun q hq => ?_) hpc (fun c q hw => hwaits c q ?_) hdozes
  · rw [hproc, St.goto_self]
  · rw [hproc, goto_other q hq]
  · rw [St.Waits, hproc] at hw
    refine waits_goto hs hw fun c t heq => ?_
    subst heq
    exact hpc

section

variable (hs : (s.proc i).sleeping = false)
include hs

theorem inv_pipewrite (hpc : (s.proc i).pc = .top (.write addr n k))
    (hok : s.GivesUp i → ∀ q, ¬ s.Waits .nread q) : Inv (pipewrite s i addr n k) := by
  have hi : (s.proc i).pc.Holds := by rw [hpc]; trivial
  -- a sleeping writer is blocked, sleeping readers are owed a wakeup
  have hwriters : ∀ q, s.Waits .nwrite q → s.Blocked .nwrite := fun q => h.unowed hi hpc nofun
  rw [pipewrite]
  split
  · rename_i hk
    split
    · rename_i hfull
      split
      · rename_i hgive
        refine h.goto hi hs (.release (some (-1))) trivial rfl rfl rfl (fun c q hw => ?_)
          fun c hd => hd.elim
        cases c with
        | nread => exact absurd hw (hok ⟨addr, n, k, hpc, hk, hfull, by simpa using hgive⟩ q)
        | nwrite => exact .inl (hwriters q hw)
      · rename_i hgive
        simp only [Bool.or_eq_true, Bool.not_eq_true', not_or, Bool.not_eq_false] at hgive
        refine h.goto hi hs (.wake (.write addr n k)) trivial rfl rfl rfl
          (fun c q hw => ?_) fun c hd => ?_
        · cases c with
          | nread => exact .inr rfl
          | nwrite => exact .inl (hwriters q hw)
        · cases hd
          exact ⟨hfull, hgive.1⟩
    · rename_i hfull
      refine h.goto hi hs (.top (.write addr n (k + 1))) trivial rfl rfl rfl (fun c q hw => ?_)
        fun c hd => hd.elim
      cases c with
      | nread => exact .inr rfl
      | nwrite => exact absurd (hwriters q hw).1 hfull
  · refine h.goto hi hs (.finish .nread (some n)) trivial rfl rfl rfl (fun c q hw => ?_) fun c hd =>
      hd.elim
    cases c with
    | nread => exact .inr rfl
    | nwrite => exact .inl (hwriters q hw)

theorem inv_piperead (hpc : (s.proc i).pc = .top (.read n)) : Inv (piperead s i n) := by
  have hi : (s.proc i).pc.Holds := by rw [hpc]; trivial
  have hblocked : ∀ c q, s.Waits c q → s.Blocked c := fun c q => h.unowed hi hpc id
  rw [piperead]
  split
  · rename_i hempty
    simp only [Bool.and_eq_true] at hempty
    split
    · exact h.goto hi hs (.release (some (-1))) trivial rfl rfl rfl
        (fun c q hw => .inl (hblocked c q hw)) fun c hd => hd.elim
    · refine h.goto hi hs (.sleep .nread (.read n)) trivial rfl rfl rfl
        (fun c q hw => .inl (hblocked c q hw)) fun c hd => ?_
      cases hd
      exact hempty
  · exact h.goto hi hs (.copy n 0) trivial rfl rfl rfl (fun c q hw => .inl (hblocked c q hw))
      fun c hd => hd.elim

theorem inv_copy (hpc : (s.proc i).pc = .copy n k) : Inv (copy s i n k) := by
  have hi : (s.proc i).pc.Holds := by rw [hpc]; trivial
  have hreaders : ∀ q, s.Waits .nread q → s.Blocked .nread := fun q => h.unowed hi hpc nofun
  rw [copy]
  split
  · rename_i hc
    refine h.goto hi hs (.copy n (k + 1)) trivial rfl rfl rfl (fun c q hw => ?_) fun c hd => hd.elim
    cases c with
    | nread =>
      have hempty := (hreaders q hw).1
      rw [hc.2] at hempty
      cases hempty
    | nwrite => exact .inr rfl
  · refine h.goto hi hs (.finish .nwrite (some k)) trivial rfl rfl rfl (fun c q hw => ?_)
      fun c hd => hd.elim
    cases c with
    | nread => exact .inl (hreaders q hw)
    | nwrite => exact .inr rfl

/-- An end is closed: those who slept for it are owed a `wakeup`, the others do not look at it. -/
theorem inv_pipeclose {w : Bool} (hpc : (s.proc i).pc = .top (.close w)) :
    Inv (pipeclose s i w) := by
  have hi : (s.proc i).pc.Holds := by rw [hpc]; trivial
  have hblocked : ∀ c q, s.Waits c q → s.Blocked c := fun c q => h.unowed hi hpc id
  rw [pipeclose]
  split
  · refine h.goto hi hs (.finish .nread none) trivial rfl rfl rfl (fun c q hw => ?_) fun c hd =>
      hd.elim
    cases c with
    | nread => exact .inr rfl
    | nwrite => exact .inl (hblocked .nwrite q hw)
  · refine h.goto hi hs (.finish .nwrite none) trivial rfl rfl rfl (fun c q hw => ?_) fun c hd =>
      hd.elim
    cases c with
    | nread => exact .inl (hblocked .nread q hw)
    | nwrite => exact .inr rfl

end

/-- `wakeup(c)` by the holder of the lock pays what it owes on `c`. -/
theorem inv_wakeup (hi : (s.proc i).pc.Holds) (hs : (s.proc i).sleeping = false)
    (hp : s.ptable = none)
    (hpc : pc'.Holds) (howes : ∀ c', (s.proc i).pc.Owes c' → c' = c)
    (hdozes : ∀ c', pc'.Dozes c' → s.Blocked c') :
    Inv ((s.wakeup c).goto i pc') := by
  have hsame : ∀ q, q ≠ i → (((s.wakeup c).goto i pc').proc q).pc = (s.proc q).pc := fun q hq => by
    rw [goto_other q hq, St.wakeup_pc]
  refine h.hold hi pc' rfl rfl (by rw [St.goto_self]) hsame hpc (fun c' q hw => ?_) hdozes
  have hw : (s.wakeup c).Waits c' q := by
    refine waits_goto (by rw [St.wakeup_awake hs, hs]) hw fun c t heq => ?_
    subst heq
    exact hpc
  rcases hw with ⟨t, ht⟩ | ⟨hsl, hchan⟩
  · rw [St.wakeup_pc] at ht
    have := h.ptable q c' t ht
    rw [hp] at this
    cases this
  · obtain ⟨hq, hne⟩ := St.wakeup_sleeping hsl
    rw [hq] at hsl hchan
    rcases h.owed ((h.lock i).1 hi) (.inr ⟨hsl, hchan⟩) with hb | ho
    · exact .inl hb
    · rw [howes c' ho] at hchan
      exact absurd hchan hne

theorem inv_acquire (hs : (s.proc i).sleeping = false) (hpc : (s.proc i).pc = .acquire t)
    (hl : s.lock = none) :
    Inv { s.goto i (.top t) with lock := some i } := by
  have hnot : ∀ q, ¬ (s.proc q).pc.Holds := fun q hh => by
    have := (h.lock q).1 hh
    rw [hl] at this
    cases this
  refine ⟨fun q => ?_, fun q c t' hq => ?_, fun c q hw => ?_, fun c q hd => ?_⟩
  · by_cases hq : q = i
    · subst hq
      simp [Pc.Holds]
    · simp only [St.goto_ne hq, Option.some.injEq, Ne.symm hq, iff_false]
      exact hnot q
  · by_cases hqi : q = i
    · subst hqi
      rw [St.goto_self] at hq
      cases hq
    · rw [St.goto_ne hqi] at hq
      exact h.ptable q c t' hq
  · rcases h.waits c q (waits_goto hs hw fun _ _ => nofun) with hb | ⟨j, hj⟩
    · exact .inl hb
    · exact absurd hj.holds (hnot j)
  · by_cases hq : q = i
    · subst hq
      rw [St.goto_self] at hd
      exact hd.elim
    · rw [St.goto_ne hq] at hd
      exact absurd hd.holds (hnot q)

/-- `acquire(&ptable.lock); release(lk);` -/
theorem inv_sleep (hs : (s.proc i).sleeping = false) (hpc : (s.proc i).pc = .sleep c t)
    (hp : s.ptable = none) :
    Inv { s.goto i (.unlocked c t) with ptable := some i, lock := none } := by
  have hi : (s.proc i).pc.Holds := by rw [hpc]; trivial
  refine h.unlock hi rfl (by rw [St.goto_self]; exact id) goto_other
    (fun q c' t' hq => ?_) fun c' q hw => ?_
  · by_cases hqi : q = i
    · rw [hqi]
    · rw [goto_other q hqi] at hq
      have := h.ptable q c' t' hq
      rw [hp] at this
      cases this
  · by_cases hq : q = i
    · -- the process itself has just seen that it has to wait
      subst hq
      have hc : c' = c := by
        rw [St.Waits, St.goto_self] at hw
        rcases hw with ⟨t', ht⟩ | ⟨hsl, -⟩
        · cases ht
          rfl
        · rw [hs] at hsl
          cases hsl
      subst hc
      exact h.dozes c' q (by rw [hpc]; rfl)
    · rw [St.Waits, St.goto_ne hq] at hw
      exact h.unowed hi hpc id hw

/-- A process without the lock goes on, and the processes that wait are among those that did. -/
theorem Inv.setProc (hlock : s'.lock = s.lock) (hproc : s'.proc = (s.setProc i x).proc)
    (hi : ¬ (s.proc i).pc.Holds) (hx : ¬ x.pc.Holds) (hun : ∀ c t, x.pc ≠ .unlocked c t)
    (hblocked : ∀ c, s.Blocked c → s'.Blocked c)
    (hptable : ∀ q, q ≠ i → s.ptable = some q → s'.ptable = some q)
    (hwaits : ∀ c, x.sleeping = true → x.chan = some c → s.Waits c i) : Inv s' := by
  have hother : ∀ q, q ≠ i → s'.proc q = s.proc q := fun q hq => by rw [hproc, St.setProc_ne hq]
  have hself : s'.proc i = x := by rw [hproc, St.setProc_self]
  refine h.other hi hlock (hself ▸ hx) (fun q hq => by rw [hother q hq]) hblocked
    (fun q c t hq => ?_) fun c q hw => ?_
  · by_cases hqi : q = i
    · subst hqi
      rw [hself] at hq
      exact absurd hq (hun c t)
    · rw [hother q hqi] at hq
      exact hptable q hqi (h.ptable q c t hq)
  · by_cases hqi : q = i
    · subst hqi
      rw [St.Waits, hself] at hw
      rcases hw with ⟨t, ht⟩ | ⟨hsl, hch⟩
      · exact absurd ht (hun c t)
      · exact hwaits c hsl hch
    · rw [St.Waits, hother q hqi] at hw
      exact hw

theorem inv_release (hs : (s.proc i).sleeping = false) (hpc : (s.proc i).pc = .release r)
    (hpc' : pc' = .free ∨ pc' = .user) :
    Inv { s.setProc i { s.proc i with eax := r, pc := pc' } with lock := none } := by
  have hi : (s.proc i).pc.Holds := by rw [hpc]; trivial
  have hself : ¬ pc'.Holds ∧ ∀ c t, pc' ≠ .unlocked c t := by
    rcases hpc' with rfl | rfl
    · exact ⟨id, fun _ _ => nofun⟩
    · exact ⟨id, fun _ _ => nofun⟩
  refine h.unlock hi rfl (by rw [St.setProc_self]; exact hself.1)
    (fun q hq => by rw [St.setProc_ne hq]) (fun q c t hq => ?_)
    fun c q hw => ?_
  · by_cases hqi : q = i
    · subst hqi
      rw [St.setProc_self] at hq
      exact absurd hq (hself.2 c t)
    · rw [St.setProc_ne hqi] at hq
      exact h.ptable q c t hq
  · have hw : s.Waits c q := by
      by_cases hqi : q = i
      · subst hqi
        rw [St.Waits, St.setProc_self] at hw
        rcases hw with ⟨t, ht⟩ | ⟨hsl, -⟩
        · exact absurd ht (hself.2 c t)
        · rw [hs] at hsl
          cases hsl
      · rw [St.Waits, St.setProc_ne hqi] at hw
        exact hw
    exact h.unowed hi hpc id hw

theorem inv_run (hs : (s.proc i).sleeping = false) (hok : s.GivesUp i → ∀ q, ¬ s.Waits .nread q)
    (hr : run s i = some s') : Inv s' := by
  rw [run] at hr
  split at hr
  case h_1 => cases hr
  case h_2 t hpc =>
    split at hr
    · cases hr
      rename_i hl
      exact inv_acquire h hs hpc hl.1
    · cases hr
  case h_3 addr n k hpc =>
    cases hr
    exact inv_pipewrite h hs hpc hok
  case h_4 n hpc =>
    cases hr
    exact inv_piperead h hs hpc
  case h_5 w hpc =>
    cases hr
    exact inv_pipeclose h hs hpc
  case h_6 t hpc =>
    split at hr
    · cases hr
      rename_i hp
      refine inv_wakeup h (by rw [hpc]; trivial) hs hp trivial (fun c ho => ?_) fun c hd => ?_
      · rw [hpc] at ho
        exact ho
      · cases hd
        exact h.dozes .nwrite i (by rw [hpc]; rfl)
    · cases hr
  case h_7 c t hpc =>
    split at hr
    · cases hr
      rename_i hp
      exact inv_sleep h hs hpc hp
    · cases hr
  case h_8 c t hpc =>
    cases hr
    refine h.setProc rfl rfl (by rw [hpc]; exact id) id (fun _ _ => nofun) (fun c hb => hb)
      (fun q hq hp => ?_) fun c' _ hch => ?_
    · -- `ptable.lock` is held by the process that goes to sleep
      rw [h.ptable i c t hpc] at hp
      cases hp
      exact absurd rfl hq
    · cases hch
      exact .inl ⟨t, hpc⟩
  case h_9 t hpc =>
    split at hr
    · cases hr
      exact h.setProc rfl rfl (by rw [hpc]; exact id) id (fun _ _ => nofun) (fun c hb => hb)
        (fun q _ hp => hp) fun c _ hch => nomatch hch
    · cases hr
  case h_10 n k hpc =>
    cases hr
    exact inv_copy h hs hpc
  case h_11 c r hpc =>
    split at hr
    · cases hr
      rename_i hp
      refine inv_wakeup h (by rw [hpc]; trivial) hs hp trivial (fun c ho => ?_) fun c hd => hd.elim
      rw [hpc] at ho
      exact ho
    · cases hr
  case h_12 r hpc =>
    cases hr
    refine inv_release h hs hpc ?_
    split
    · exact .inl rfl
    · exact .inr rfl
  case h_13 hpc =>
    cases hr
    refine h.setProc rfl rfl (by rw [hpc]; exact id) id (fun _ _ => nofun) (fun c hb => hb)
      (fun q _ hp => hp) fun c hsl _ => ?_
    rw [hs] at hsl
    cases hsl

theorem inv_step {e : Ev} (hok : Heeds s e) (hstep : step s e = some s') : Inv s' := by
  have hcall : ∀ i t, call s i t = some s' → Inv s' := fun i t hc => by
    rw [call] at hc
    split at hc <;> cases hc
    rename_i hpc
    exact h.setProc rfl rfl (by rw [hpc]; exact id) id (fun _ _ => nofun) (fun c hb => hb)
      (fun q _ hp => hp) fun c hsl hch => .inr ⟨hsl, hch⟩
  cases e with
  | write i addr n => exact hcall _ _ hstep
  | read i n => exact hcall _ _ hstep
  | close i w => exact hcall _ _ hstep
  | run i =>
    simp only [step] at hstep
    split at hstep
    · cases hstep
    · rename_i hs
      exact inv_run h (by simpa using hs) hok hstep
  | kill j =>
    simp only [step, kill] at hstep
    split at hstep <;> cases hstep
    have hpc : ∀ q, ((s.setProc j { s.proc j with killed := true, sleeping := false }).proc q).pc =
        (s.proc q).pc := fun q => by
      by_cases hq : q = j
      · rw [hq, St.setProc_self]
      · rw [St.setProc_ne hq]
    refine ⟨fun q => by rw [hpc]; exact h.lock q, fun q c t hq => h.ptable q c t (hpc q ▸ hq),
      fun c q hw => ?_, fun c q hd => h.dozes c q (hpc q ▸ hd)⟩
    have hw : s.Waits c q := by
      rw [St.Waits, hpc] at hw
      rcases hw with ht | ⟨hsl, hch⟩
      · exact .inl ht
      · by_cases hq : q = j
        · rw [hq, St.setProc_self] at hsl
          cases hsl
        · rw [St.setProc_ne hq] at hsl hch
          exact .inr ⟨hsl, hch⟩
    rcases h.waits c q hw with hb | ⟨i, hi⟩
    · exact .inl hb
    · exact .inr ⟨i, by rw [hpc]; exact hi⟩

end

end Step

theorem inv_init (data : Nat → UInt8) (killed : Nat → Bool) : Inv (init data killed) where
  lock _ := ⟨fun h => h.elim, nofun⟩
  ptable _ _ _ := nofun
  waits c q hw := by
    rcases hw with ⟨t, ht⟩ | ⟨hsl, -⟩
    · cases ht
    · cases hsl
  dozes _ _ h := h.elim

theorem inv_reaches {s : St} (h : Inv s) (hr : Reaches Heeds s s') : Inv s' := by
  induction hr with
  | refl => exact h
  | tail _ hstep ih =>
    obtain ⟨e, hok, he⟩ := hstep
    exact inv_step ih hok he

/-! ## No lost wakeup -/

/-- **As long as no `pipewrite` gives up on a full pipe while somebody sleeps on `&p->nread`,
whenever the lock of the pipe is free a process that sleeps on `&p->nread` has an empty pipe with an
open write end before it, and one that sleeps on `&p->nwrite` a full pipe with an open read
end.** -/
theorem no_lost_wakeup (data : Nat → UInt8) (killed : Nat → Bool) (s : St)
    (hr : Reaches Heeds (init data killed) s) (hl : s.lock = none) (q : Nat)
    (hq : (s.proc q).sleeping = true) :
    ((s.proc q).chan = some .nread → s.nread = s.nwrite ∧ s.writeopen = true) ∧
      ((s.proc q).chan = some .nwrite → s.nwrite = s.nread + 512 ∧ s.readopen = true) := by
  have h := inv_reaches (inv_init data killed) hr
  have hblocked : ∀ c, (s.proc q).chan = some c → s.Blocked c := fun c hc => by
    rcases h.waits c q (.inr ⟨hq, hc⟩) with hb | ⟨i, hi⟩
    · exact hb
    · have := (h.lock i).1 hi.holds
      rw [hl] at this
      cases this
  constructor
  · intro hc
    obtain ⟨hempty, hopen⟩ := hblocked .nread hc
    exact ⟨by simpa [St.empty] using hempty, hopen⟩
  · intro hc
    obtain ⟨hfull, hopen⟩ := hblocked .nwrite hc
    exact ⟨by simpa [St.full] using hfull, hopen⟩

/-- A process that gives up on a full pipe leaves the sleeping readers asleep. -/
theorem stays_asleep {s : St} (hg : s.GivesUp i) (hi : (s.proc i).sleeping = false)
    (hq : (s.proc q).sleeping = true)
    (hc : (s.proc q).chan = some .nread) : ∃ s', Reaches (fun _ _ => True) s s' ∧ s'.lock = none ∧
      (s'.proc q).sleeping = true ∧ (s'.proc q).chan = some .nread ∧ s'.nread ≠ s'.nwrite := by
  obtain ⟨addr, n, k, hpc, hk, hfull, hgive⟩ := hg
  have hne : q ≠ i := fun h => by
    rw [h, hi] at hq
    cases hq
  have hgive' : (!s.readopen || (s.proc i).killed) = true := by simpa using hgive
  have h1 : step s (.run i) = some (s.goto i (.release (some (-1)))) := by
    simp [step, run, hi, hpc, pipewrite, hk, hfull, hgive']
  have hpc2 : (s.goto i (.release (some (-1)))).proc i =
      { s.proc i with pc := .release (some (-1)) } := St.goto_self
  obtain ⟨s', h2, hl, hproc, hr, hw⟩ : ∃ s', step (s.goto i (.release (some (-1)))) (.run i) =
    some s' ∧ s'.lock = none ∧
      s'.proc q = s.proc q ∧ s'.nread = s.nread ∧ s'.nwrite = s.nwrite := by
    simp only [step, run, hpc2, hi]
    exact ⟨_, rfl, rfl, by rw [St.setProc_ne hne, St.goto_ne hne], rfl, rfl⟩
  refine ⟨s', .tail (.single ⟨_, trivial, h1⟩) ⟨_, trivial, h2⟩, hl, by rw [hproc, hq],
    by rw [hproc, hc], fun heq => ?_⟩
  rw [hr, hw] at heq
  have hlen := full_iff.1 hfull
  rw [← heq] at hlen
  have hlt : s.nread.toNat < 2 ^ 32 := s.nread.toNat_lt
  simp only [PIPESIZE] at hlen
  omega

/-- **Where `Heeds` does not hold a wakeup can be lost**: the writer gives up, and a reader that
sleeps, or that is past `release(lk)` and goes to sleep first, is left asleep on a full pipe. -/
theorem wakeup_lost {s : St} (hg : s.GivesUp i) (hi : (s.proc i).sleeping = false)
    (hw : s.Waits .nread q)
    (hq : (∃ t, (s.proc q).pc = .unlocked .nread t) → (s.proc q).sleeping = false) :
    ∃ s', Reaches (fun _ _ => True) s s' ∧ s'.lock = none ∧
      (s'.proc q).sleeping = true ∧ (s'.proc q).chan = some .nread ∧ s'.nread ≠ s'.nwrite := by
  rcases hw with ⟨t, ht⟩ | ⟨hsleeping, hchan⟩
  · have hne : i ≠ q := by
      rintro rfl
      obtain ⟨addr, n, k, hpc, -⟩ := hg
      rw [ht] at hpc
      cases hpc
    obtain ⟨s1, h1, hsleeping, hchan, hwriter, hfull, hopen⟩ : ∃ s1, step s (.run q) = some s1 ∧
        (s1.proc q).sleeping = true ∧ (s1.proc q).chan = some .nread ∧ s1.proc i = s.proc i ∧
        s1.full = s.full ∧ s1.readopen = s.readopen := by
      simp only [step, hq ⟨t, ht⟩, Bool.false_eq_true, if_false, run, ht]
      exact ⟨_, rfl, by rw [St.setProc_self], by rw [St.setProc_self],
        by rw [St.setProc_ne hne], rfl, rfl⟩
    have hg1 : s1.GivesUp i := by
      rw [St.GivesUp, hwriter, hfull, hopen]
      exact hg
    obtain ⟨s', hr, hrest⟩ := stays_asleep hg1 (by rw [hwriter]; exact hi) hsleeping hchan
    exact ⟨s', .head ⟨_, trivial, h1⟩ hr, hrest⟩
  · exact stays_asleep hg hi hsleeping hchan

/-- Process 2 has stored `k` bytes of its 600 since process 1 fell asleep. -/
structure Filling (s : St) (k : Nat) : Prop where
  reader : (s.proc 1).sleeping = true ∧ (s.proc 1).chan = some .nread
  writer : s.proc 2 = ⟨false, none, false, none, .top (.write (fun _ => 7) 600 k)⟩
  ptable : s.ptable = none
  nread : s.nread = 0
  nwrite : s.nwrite.toNat = k

theorem Filling.next {s : St} (h : Filling s k) (hk : k < 512) :
    ∃ s', step s (.run 2) = some s' ∧ Filling s' (k + 1) := by
  have hfull : s.full = false := by
    rw [← Bool.not_eq_true, full_iff, h.nread, h.nwrite]
    simp only [PIPESIZE, UInt32.toNat_zero]
    omega
  have hn : (k : Int) < 600 := by omega
  refine ⟨pipewrite s 2 (fun _ => 7) 600 k, by simp [step, run, h.writer], ?_⟩
  simp only [pipewrite, if_pos hn, hfull, Bool.false_eq_true, if_false]
  refine ⟨?_, ?_, h.ptable, h.nread, ?_⟩
  · rw [St.goto_ne (by decide)]
    exact h.reader
  · rw [St.goto_self, h.writer]
  · have hadd : (s.nwrite + 1).toNat = (s.nwrite.toNat + 1) % 2 ^ 32 := UInt32.toNat_add ..
    rw [hadd, h.nwrite]
    omega

/-- A reader falls asleep on an empty pipe; a writer fills the pipe, is killed, and leaves. The lock
is free, the pipe is full and the reader asleep. -/
theorem reader_sleeps_on_full :
    ∃ s, Reaches (fun _ _ => True) (init (fun _ => 0) fun _ => false) s ∧ s.lock = none ∧
    (s.proc 1).sleeping = true ∧ (s.proc 1).chan = some .nread ∧ s.nread ≠ s.nwrite := by
  have hstart : ∃ s, Reaches (fun _ _ => True) (init (fun _ => 0) fun _ => false) s ∧
      Filling s 0 := by
    refine ⟨_, .tail (.tail (.tail
      (.tail (.tail (.tail (.tail .refl ⟨.read 1 1, trivial, rfl⟩) ⟨.run 1, trivial, rfl⟩)
      ⟨.run 1, trivial, rfl⟩) ⟨.run 1, trivial, rfl⟩) ⟨.run 1, trivial, rfl⟩)
        ⟨.write 2 (fun _ => 7) 600, trivial, rfl⟩)
      ⟨.run 2, trivial, rfl⟩, ⟨rfl, rfl⟩, rfl, rfl, rfl, rfl⟩
  have hfill : ∀ k ≤ 512, ∃ s, Reaches (fun _ _ => True) (init (fun _ => 0) fun _ => false) s ∧
      Filling s k := by
    intro k hk
    induction k with
    | zero => exact hstart
    | succ k ih =>
      obtain ⟨s, hr, hf⟩ := ih (by omega)
      obtain ⟨s', hs, hf'⟩ := hf.next (by omega)
      exact ⟨s', .tail hr ⟨_, trivial, hs⟩, hf'⟩
  obtain ⟨s, hr, hf⟩ := hfill 512 (Nat.le_refl _)
  have hfull : s.full = true := by
    rw [full_iff, hf.nread, hf.nwrite]
    rfl
  obtain ⟨s2, hkill, hreader, hwriter, hsame⟩ : ∃ s2, step s (.kill 2) = some s2 ∧
    s2.proc 1 = s.proc 1 ∧
      s2.proc 2 = ⟨false, none, true, none, .top (.write (fun _ => 7) 600 512)⟩ ∧
      s2.full = s.full := by
    simp only [step, kill, hf.ptable, if_true]
    exact ⟨_, rfl, St.setProc_ne (by decide), by rw [St.setProc_self, hf.writer], rfl⟩
  have hgive : s2.GivesUp 2 :=
    ⟨fun _ => 7, 600, 512, by rw [hwriter], by decide, by rw [hsame, hfull], .inr (by rw [hwriter])⟩
  obtain ⟨s', hr', hl, hsl, hch, hne⟩ :=
    stays_asleep (q := 1) hgive (by rw [hwriter]) (by rw [hreader, hf.reader.1])
    (by rw [hreader, hf.reader.2])
  exact ⟨s', (hr.tail ⟨_, trivial, hkill⟩).trans hr', hl, hsl, hch, hne⟩

/-- A reader that sleeps on the empty pipe it has found. -/
theorem no_lost_wakeup_asleep : ∃ s : St, s.lock = none ∧ (s.proc 1).sleeping = true ∧
    (s.proc 1).chan = some .nread ∧ s.nread = s.nwrite ∧ s.writeopen = true := by
  have hread : ∀ s : St, (s.proc 1).pc = .acquire (.read 1) ∨ (s.proc 1).pc = .top (.read 1) ∨
    (s.proc 1).pc = .sleep .nread (.read 1) ∨
      (s.proc 1).pc = .unlocked .nread (.read 1) → Heeds s (.run 1) := by
    rintro s hpc ⟨addr, n, k, hw, -⟩
    rw [hw] at hpc
    simp at hpc
  have hr : ∃ s, Reaches Heeds (init (fun _ => 0) fun _ => false) s ∧ s.lock = none ∧
    (s.proc 1).sleeping = true ∧ (s.proc 1).chan = some .nread := by
    refine ⟨_, .tail (.tail (.tail (.tail (.tail .refl ⟨.read 1 1, trivial, rfl⟩)
      ⟨.run 1, hread _ (.inl rfl), rfl⟩)
      ⟨.run 1, hread _ (.inr (.inl rfl)), rfl⟩) ⟨.run 1, hread _ (.inr (.inr (.inl rfl))), rfl⟩)
      ⟨.run 1, hread _ (.inr (.inr (.inr rfl))), rfl⟩, rfl, rfl, rfl⟩
  obtain ⟨s, hr, hl, hs, hc⟩ := hr
  exact ⟨s, hl, hs, hc, (no_lost_wakeup _ _ s hr hl 1 hs).1 hc⟩

end Os4.Pipe
