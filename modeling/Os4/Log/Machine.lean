import Os4.Log.Admission
import Os4.Log.Recovery
/-!
# The log as a machine that can crash

The log admission (`Admission`), the buffer cache (`Bio`) and the commit and recovery code
(`Recovery`) run together, one event per step of one process. Every event writes at most one disk
block, so a crash between two events is a crash after any single-block write.

| here | there |
| --- | --- |
| `Ev.bread` .. `Ev.brelse` | the `bread`; change `b->data`; `log_write`; `brelse` of an operation |
| `Ev.writeLog`, `Ev.install` | one round of `write_log` (log.c:180), of `install_trans` (:74) |
| `Ev.writeHead`  | the first `write_head` of `commit` (:195), the commit point |
| `Ev.eraseHead`  | `log.lh.n = 0` and the second `write_head` (:197-198) |
| `Ev.commitNone` | `commit` with `log.lh.n == 0` |
| `Ev.boot`, `Ev.recInstall`, `Ev.recErase` | `recover_from_log` (:116), one disk write at a time |
| `Sys.held`      | who is between `bread` and `brelse` of a buffer, and whether it has changed the data since it last logged it |
| `hist`          | the updates of a run: those of committed transactions, those under way, those a crash discarded |

A panic stops a run; what a crash after it leaves on the disk is what a crash just before it leaves.
-/
namespace Os4.Log.Crash

inductive Stage where
  | writeLog (tail : Nat)
  | install (tail : Nat)
deriving DecidableEq

inductive Mode where
  | off
  | recovering (tail : Nat)
  | up
deriving DecidableEq

structure Sys where
  bio : Bio
  log : St
  held : Fin NBUF → Option (Nat × Bool)
  /-- where a process that is in `commit()` stands -/
  stage : Nat → Stage
  mode : Mode

abbrev SysM := Prog Sys Stop

/-- Only the disk survives. -/
def powerOff (d : Disk) : Sys := ⟨binit d, init, fun _ => none, fun _ => .writeLog 0, .off⟩

/-- Process `p` holds buffer `i`, which is assigned to block `b` (a `uint`). -/
def Sys.holds (s : Sys) (p : Nat) (i : Fin NBUF) (b : Nat) : Prop :=
  (s.held i = some (p, false) ∨ s.held i = some (p, true)) ∧ s.bio.Cached b i ∧ b < 2 ^ 32

instance (s : Bio) (b : Nat) (i : Fin NBUF) : Decidable (s.Cached b i) :=
  inferInstanceAs (Decidable (_ ∧ _))

instance (s : Sys) (p : Nat) (i : Fin NBUF) (b : Nat) : Decidable (s.holds p i b) :=
  inferInstanceAs (Decidable (_ ∧ _))

inductive Ev where
  | begin (p : Nat)
  | bread (p b : Nat)
  | modify (p : Nat) (i : Fin NBUF) (b : Nat) (f : Block → Block)
  | check (p : Nat) (i : Fin NBUF) (b : Nat)
  | append (p : Nat) (i : Fin NBUF) (b : Nat)
  | brelse (p : Nat) (i : Fin NBUF) (b : Nat)
  | endOp (p : Nat)
  | writeLog (p k b : Nat)
  | writeHead (p : Nat)
  | install (p k b : Nat)
  | eraseHead (p : Nat)
  | commitNone (p : Nat)
  | finish (p : Nat)
  | crash
  | boot
  | recInstall (k b : Nat)
  | recErase

/-! ## The steps -/

def require (P : Sys → Prop) [DecidablePred P] : SysM Unit := do
  if P (← get) then pure () else throw .disabled

def onBio {α : Type} (m : BioM α) : SysM α := fun s =>
  match m s.bio with
  | .ok (a, bio) => .ok (a, { s with bio })
  | .error e => .error e

def onLog (f : St → Except Stop St) : SysM Unit := fun s =>
  match f s.log with
  | .ok log => .ok ((), { s with log })
  | .error e => .error e

def setHeld (i : Fin NBUF) (x : Option (Nat × Bool)) : SysM Unit :=
  modify fun s => { s with held := Function.update s.held i x }

def setStage (p : Nat) (x : Stage) : SysM Unit :=
  modify fun s => { s with stage := Function.update s.stage p x }

def setMode (x : Mode) : SysM Unit := modify fun s => { s with mode := x }

def step (g : Geom) : Ev → SysM Unit
  | .begin p => do
    require (·.mode = .up)
    onLog (beginOp · p)
  | .bread p b => do
    require fun s => s.mode = .up ∧ s.log.pc p = .tx
    let i ← onBio (bread ROOTDEV b)
    setHeld i (some (p, false))
  | .modify p i b f => do
    require fun s => s.mode = .up ∧ s.log.pc p = .tx ∧ s.holds p i b
    onBio (setData i (f ((← get).bio.buf i).data))
    setHeld i (some (p, true))
  | .check p i b => do
    require fun s => s.mode = .up ∧ s.holds p i b
    onLog (logWriteCheck g.size · p b)
  | .append p i b => do
    require fun s => s.mode = .up ∧ s.holds p i b
    onLog (logWriteAppend · p b)
    onBio (setDirty i)
    setHeld i (some (p, false))
  | .brelse p i b => do
    -- what was changed has been logged
    require fun s => s.mode = .up ∧ s.log.pc p = .tx ∧ s.held i = some (p, false) ∧ s.bio.Cached b i
    onBio (brelse i)
    setHeld i none
  | .endOp p => do
    require fun s => s.mode = .up ∧ ∀ i, s.held i ≠ some (p, false) ∧ s.held i ≠ some (p, true)
    onLog (endOp · p)
    setStage p (.writeLog 0)
  | .writeLog p k b => do
    require fun s => s.mode = .up ∧ s.log.pc p = .commit ∧ s.stage p = .writeLog k ∧
      s.log.block[k]? = some b
    onBio (logBlock ROOTDEV (g.start + k + 1) b)
    setStage p (.writeLog (k + 1))
  | .writeHead p => do
    require fun s => s.mode = .up ∧ s.log.pc p = .commit ∧ s.log.block ≠ [] ∧
      s.stage p = .writeLog s.log.block.length
    onBio (writeHead g (← get).log.block)
    setStage p (.install 0)
  | .install p k b => do
    require fun s => s.mode = .up ∧ s.log.pc p = .commit ∧ s.stage p = .install k ∧
      s.log.block[k]? = some b
    onBio (installBlock ROOTDEV (g.start + k + 1) b)
    setStage p (.install (k + 1))
  | .eraseHead p => do
    require fun s => s.mode = .up ∧ s.log.pc p = .commit ∧ s.stage p = .install s.log.block.length
    onBio (writeHead g [])
    onLog (commit · p)
  | .commitNone p => do
    require fun s => s.mode = .up ∧ s.log.pc p = .commit ∧ s.log.block = [] ∧
      s.stage p = .writeLog 0
    onLog (commit · p)
  | .finish p => do
    require (·.mode = .up)
    onLog (finish · p)
  | .crash => modify fun s => powerOff s.bio.disk
  | .boot => do
    require (·.mode = .off)
    let bl ← onBio (readHead g)
    onLog fun _ => .ok { init with block := bl }
    setMode (.recovering 0)
  | .recInstall k b => do
    require fun s => s.mode = .recovering k ∧ s.log.block[k]? = some b
    onBio (installBlock ROOTDEV (g.start + k + 1) b)
    setMode (.recovering (k + 1))
  | .recErase => do
    require fun s => s.mode = .recovering s.log.block.length
    onBio (writeHead g [])
    onLog fun _ => .ok init
    setMode .up

/-- A run from the disk `d`, the latest event first. -/
def run (g : Geom) (d : Disk) : List Ev → Except Stop Sys
  | [] => .ok (powerOff d)
  | e :: tr => do return (← step g e (← run g d tr)).2

/-! ## What a run should leave on the disk -/

/-- A change of a block by an operation; an operation is named by the position of its `begin_op`. -/
structure Upd where
  op : Nat
  block : Nat
  f : Block → Block

def applyUpd (d : Disk) (u : Upd) : Disk := Function.update d u.block (u.f (d u.block))

def applyAll (us : List Upd) (d : Disk) : Disk := us.foldl applyUpd d

/-- The operation process `p` is in. -/
def opOf (p : Nat) : List Ev → Nat
  | [] => 0
  | .begin q :: tr => if q = p then tr.length else opOf p tr
  | _ :: tr => opOf p tr

structure Hist where
  /-- by operations of transactions whose header was written -/
  done : List Upd
  /-- of the transaction under way -/
  cur : List Upd
  /-- gone in a crash -/
  lost : List Upd

def hist : List Ev → Hist
  | [] => ⟨[], [], []⟩
  | .modify p _ b f :: tr => { hist tr with cur := (hist tr).cur ++ [⟨opOf p tr, b, f⟩] }
  | .writeHead _ :: tr => ⟨(hist tr).done ++ (hist tr).cur, [], (hist tr).lost⟩
  | .crash :: tr => ⟨(hist tr).done, [], (hist tr).lost ++ (hist tr).cur⟩
  | _ :: tr => hist tr

/-- The distinct blocks of the transaction under way. -/
def txBlocks : List Ev → List Nat
  | [] => []
  | .append _ _ b :: tr => absorb (txBlocks tr) b
  | .eraseHead _ :: _ => []
  | .crash :: _ => []
  | _ :: tr => txBlocks tr

/-- The block an event changes or logs. -/
def Ev.target : Ev → Option Nat
  | .modify _ _ b _ => some b
  | .append _ _ b => some b
  | _ => none

end Os4.Log.Crash
