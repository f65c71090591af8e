import Mathlib.Tactic.Abel
import Os4.Fs.Locked
/-!
# Writers that share a file (file.c:117-154)

| here | there |
| --- | --- |
| `Write` | a call `filewrite(f, addr, n)`; the processes share `f` |
| `Write.chunks` | what the loop of `filewrite` writes, one transaction each: `max` bytes, the rest at the end |
| `Event.lock` | a process sets `I_BUSY` of the inode of `f` |
| `play` | a schedule of calls and steps, with what happened, the latest first |
| `inOrder` | the chunks in the order in which their writers got the lock |

`offset` and contents are only touched under the lock, where a writer is undisturbed
(`Locked.lean`): what a section finds is what the last one left (**`shared_writes`**).
-/
namespace Os4.Fs

open Prog
open Par (act)

structure Write where
  proc : Fin NPROC
  addr : Nat → UInt8
  n : Int

namespace Write

variable (w : Write)

/-- The bytes to be written. -/
def buffer : List UInt8 := fetch w.addr 0 w.n.toNat

def chunk (j : Nat) : List UInt8 :=
  fetch w.addr (j * maxChunk) (min (w.n.toNat - j * maxChunk) maxChunk)

def chunks : List (List UInt8) := (List.range ((w.n.toNat + maxChunk - 1) / maxChunk)).map w.chunk

end Write

def writers (E : Env) (f : Fin NFILE) : Machine (Fin NPROC) Write FsState Panic Point Int where
  owner := Write.proc
  body w := Par.filewrite E f w.addr w.n

abbrev Writers := Pool (Fin NPROC) Write FsState Panic Point Int

/-! ## What happens in a run -/

inductive Event where
  | call (w : Write)
  | lock (q : Fin NPROC)
  | ret (q : Fin NPROC) (r : Int)

/-- What a move from `c` to `c'` shows; `k` is the slot of the file's inode. -/
def observe (k : Fin NINODE) (c c' : Writers) : Pool.Ev (Fin NPROC) Write → List Event
  | .start w => [.call w]
  | .go q =>
    match c.calls q with
    | some (_, .ret r) => [.ret q r]
    | some (_, .atom ..) =>
      if !(c.state.icache k).busy && (c'.state.icache k).busy then [.lock q] else []
    | none => []

def play (E : Env) (f : Fin NFILE) (k : Fin NINODE) :
    Writers → List Event → List (Pool.Ev (Fin NPROC) Write) → Option (Writers × List Event)
  | c, h, [] => some (c, h)
  | c, h, e :: es =>
    match Pool.exec (writers E f) (fun _ _ => true) c e with
    | some c' => play E f k c' (observe k c c' e ++ h) es
    | none => none

/-- The call that `q` is in, and how often it has had the lock in it. -/
def current (q : Fin NPROC) : List Event → Option (Write × Nat)
  | [] => none
  | .call w :: h => if w.proc = q then some (w, 0) else current q h
  | .lock q' :: h => if q' = q then (current q h).map fun x => (x.1, x.2 + 1) else current q h
  | .ret q' _ :: h => if q' = q then none else current q h

def inOrder : List Event → List (List UInt8)
  | [] => []
  | .lock q :: h =>
    match current q h with
    | some (w, j) => inOrder h ++ [w.chunk j]
    | none => inOrder h
  | _ :: h => inOrder h

/-- The calls made. -/
def callsOf : List Event → List Write
  | [] => []
  | .call w :: h => w :: callsOf h
  | _ :: h => callsOf h

variable {w : Write} {h : List Event} {q q' : Fin NPROC} {j n : Nat} {r : Int}

theorem current_call_self : current w.proc (.call w :: h) = some (w, 0) := if_pos rfl

theorem current_call_ne (hne : q ≠ w.proc) : current q (.call w :: h) = current q h :=
  if_neg hne.symm

theorem current_lock_self : current q (.lock q :: h) = (current q h).map fun x => (x.1, x.2 + 1) :=
  if_pos rfl

theorem current_lock_ne (hne : q' ≠ q) : current q' (.lock q :: h) = current q' h := if_neg hne.symm

theorem current_ret_self : current q (.ret q r :: h) = none := if_pos rfl

theorem current_ret_ne (hne : q' ≠ q) : current q' (.ret q r :: h) = current q' h := if_neg hne.symm

theorem inOrder_lock (hq : current q h = some (w, j)) :
    inOrder (.lock q :: h) = inOrder h ++ [w.chunk j] := by
  simp only [inOrder, hq]

/-! ## Chunks -/

variable {addr : Nat → UInt8}

theorem length_fetch {i : Nat} : (fetch addr i n).length = n := by simp [fetch]

theorem fetch_append {i m : Nat} :
    fetch addr i n ++ fetch addr (i + n) m = fetch addr i (n + m) := by
  unfold fetch
  rw [List.range_add, List.map_append, List.map_map]
  congr 1
  refine List.map_congr_left fun j _ => ?_
  rw [Function.comp_apply, Nat.add_assoc]

theorem length_chunks : w.chunks.length = (w.n.toNat + maxChunk - 1) / maxChunk := by
  simp [Write.chunks]

theorem lt_length_chunks : j < w.chunks.length ↔ j * maxChunk < w.n.toNat := by
  rw [length_chunks]
  simp only [maxChunk, LOGSIZE, MAXOPBLOCKS]
  omega

theorem chunk_nonempty (hj : j < w.chunks.length) :
    0 < (w.chunk j).length ∧ (w.chunk j).length ≤ maxChunk := by
  rw [lt_length_chunks] at hj
  rw [Write.chunk, length_fetch]
  simp only [maxChunk, LOGSIZE, MAXOPBLOCKS] at *
  omega

theorem flatten_chunks_take (hj : j ≤ w.chunks.length) :
    ((List.range j).map w.chunk).flatten = fetch w.addr 0 (min w.n.toNat (j * maxChunk)) := by
  induction j with
  | zero => simp [fetch]
  | succ j ih =>
    have hlt : j * maxChunk < w.n.toNat := lt_length_chunks.1 hj
    rw [List.range_succ, List.map_append, List.flatten_append, ih (by omega),
      Nat.min_eq_right (Nat.le_of_lt hlt)]
    simp only [List.map_cons, List.map_nil, List.flatten_cons, List.flatten_nil,
      List.append_nil, Write.chunk]
    have happ : fetch w.addr 0 (j * maxChunk) ++
      fetch w.addr (0 + j * maxChunk) (min (w.n.toNat - j * maxChunk) maxChunk) =
        fetch w.addr 0 (j * maxChunk + min (w.n.toNat - j * maxChunk) maxChunk) := fetch_append
    rw [Nat.zero_add] at happ
    rw [happ]
    congr 1
    simp only [maxChunk, LOGSIZE, MAXOPBLOCKS] at *
    omega

theorem flatten_chunks : w.chunks.flatten = w.buffer := by
  have h := flatten_chunks_take (w := w) (j := w.chunks.length) (Nat.le_refl _)
  rw [length_chunks] at h
  rw [Write.chunks, h, Write.buffer]
  congr 1
  simp only [maxChunk, LOGSIZE, MAXOPBLOCKS]
  omega

theorem chunks_short (hpos : 0 < w.n) (hn : w.n ≤ 6656) : w.chunks = [w.buffer] := by
  have hlen : w.chunks.length = 1 := by
    rw [length_chunks]
    simp only [maxChunk, LOGSIZE, MAXOPBLOCKS]
    omega
  obtain ⟨c, hc⟩ := List.length_eq_one_iff.1 hlen
  have hflat := flatten_chunks (w := w)
  rw [hc] at hflat ⊢
  rw [← hflat]
  simp

/-! ## Each chunk once -/

/-- Calls begin when the last one has returned, and return when all their chunks had their turn. -/
def Fair : List Event → Prop
  | [] => True
  | .call w :: h => current w.proc h = none ∧ Fair h
  | .lock q :: h => (∃ w j, current q h = some (w, j) ∧ j < w.chunks.length) ∧ Fair h
  | .ret q _ :: h => (∃ w j, current q h = some (w, j) ∧ w.chunks.length ≤ j) ∧ Fair h

/-- What `q` has still to write. -/
def owed (h : List Event) (q : Fin NPROC) : Multiset (List UInt8) :=
  match current q h with
  | some (w, j) => w.chunks.drop j
  | none => 0

theorem owed_some (hq : current q h = some (w, j)) : owed h q = w.chunks.drop j := by
  simp only [owed, hq]

theorem owed_none (hq : current q h = none) : owed h q = 0 := by simp only [owed, hq]

theorem drop_chunks (hj : j < w.chunks.length) :
    w.chunks.drop j = w.chunk j :: w.chunks.drop (j + 1) := by
  rw [List.drop_eq_getElem_cons hj]
  congr 1
  simp [Write.chunks]

theorem sum_owed (hne : ∀ x, x ≠ q → current x h' = current x h) :
    ∑ x, owed h' x + owed h q = ∑ x, owed h x + owed h' q := by
  have hrest : ∑ x ∈ Finset.univ.erase q, owed h' x = ∑ x ∈ Finset.univ.erase q, owed h x :=
    Finset.sum_congr rfl fun x hx => by simp only [owed, hne x (Finset.ne_of_mem_erase hx)]
  rw [sum_split (owed h') q, sum_split (owed h) q, hrest]
  abel

/-- What was written and what is still to be written are the chunks of the calls. -/
theorem Fair.dealt (hF : Fair h) :
    (inOrder h : Multiset (List UInt8)) + ∑ q,
    owed h q = ((callsOf h).flatMap Write.chunks : List (List UInt8)) := by
  induction h with
  | nil => exact (congrArg _ (Finset.sum_const_zero)).trans (add_zero _)
  | cons e h ih =>
    cases e with
    | call w =>
      obtain ⟨hw, hF⟩ := hF
      have hsum : ∑ x, owed (.call w :: h) x + owed h w.proc = ∑ x,
          owed h x + owed (.call w :: h) w.proc :=
        sum_owed fun x hx => current_call_ne hx
      rw [owed_none hw, add_zero, owed_some current_call_self, List.drop_zero] at hsum
      rw [hsum, ← add_assoc]
      show _ = ((w.chunks ++ (callsOf h).flatMap Write.chunks : List (List UInt8)) :
        Multiset (List UInt8))
      rw [← Multiset.coe_add, ← ih hF, add_comm]
      rfl
    | lock q =>
      obtain ⟨⟨w, j, hq, hj⟩, hF⟩ := hF
      have hsum : ∑ x, owed (.lock q :: h) x + owed h q = ∑ x, owed h x + owed (.lock q :: h) q :=
        sum_owed fun x hx => current_lock_ne hx
      have hnow : current q (.lock q :: h) = some (w, j + 1) := by rw [current_lock_self, hq]; rfl
      rw [owed_some hq, owed_some hnow, drop_chunks hj, ← Multiset.cons_coe,
        ← Multiset.singleton_add, ← add_assoc] at hsum
      rw [inOrder_lock hq, ← Multiset.coe_add, Multiset.coe_singleton, add_assoc,
        add_comm {w.chunk j}, add_right_cancel hsum]
      exact ih hF
    | ret q r =>
      obtain ⟨⟨w, j, hq, hj⟩, hF⟩ := hF
      have hsum : ∑ x, owed (.ret q r :: h) x + owed h q = ∑ x, owed h x + owed (.ret q r :: h) q :=
        sum_owed fun x hx => current_ret_ne hx
      rw [owed_some hq, List.drop_eq_nil_of_le hj, owed_none current_ret_self, Multiset.coe_nil,
        add_zero, add_zero] at hsum
      rw [hsum]
      exact ih hF

/-! ## The threads of the calls -/

section Threads

variable {E : Env} {f : Fin NFILE} {k : Fin NINODE}

/-- Whatever the thread returns, it is -1. -/
abbrev Doomed (t : Code Int) : Prop := t.Shows (fun _ => True) (· = -1)

/-- A call that does not hold the lock, and has held it `j` times: it takes steps that concern the
log only, until it locks the inode for its next chunk or returns. -/
inductive Waits (E : Env) (f : Fin NFILE) (k : Fin NINODE) (w : Write) : Nat → Code Int → Prop where
  | done {j : Nat} : 0 ≤ w.n → w.chunks.length ≤ j → Waits E f k w j (.ret w.n)
  | failed {j : Nat} : Waits E f k w j (.ret (-1))
  | aside {j : Nat} {l : Point} {β : Type} {m : FsM β} {t : β → Code Int} :
    (∀ s b s', m s = .ok (b, s') →
      s' = { s with outstanding := s'.outstanding, logged := s'.logged }) →
    (∀ s b s', Opened f k s → m s = .ok (b, s') → Waits E f k w j (t b)) →
    Waits E f k w j (.atom l m t)
  | lock {j : Nat} {l : Point} {t : Unit → Code Int} {rest : Int → Code Int} : j < w.chunks.length →
    t () = lockedWrite E f k (w.chunk j) >>= (fun r => Par.iunlock k >>= fun _ => rest r) →
    Doomed (rest (-1)) →
    Waits E f k w (j + 1) (rest (w.chunk j).length) → Waits E f k w j (.atom l (Par.enter k) t)

/-- The rest of `filewrite` from a round of the loop on. -/
def loopRest (E : Env) (f : Fin NFILE) (k : Fin NINODE) (w : Write) (fuel i : Nat) : Code Int := do
  let i ← Par.filewriteLoop E f k w.addr w.n.toNat fuel i
  return if (i : Int) = w.n then w.n else -1

/-- The loop after a round in which `writei` returned `r`. -/
def nextRound (E : Env) (f : Fin NFILE) (k : Fin NINODE) (w : Write) (fuel i : Nat)
    (r : Int) : Code Nat :=
  let n1 := min (w.n.toNat - i) maxChunk
  if r < 0 then return i
  else if r ≠ (n1 : Int) then act (throw .shortFilewrite)
  else Par.filewriteLoop E f k w.addr w.n.toNat fuel (i + n1)

/-- The rest of `filewrite` after the inode is unlocked. -/
def afterChunk (E : Env) (f : Fin NFILE) (k : Fin NINODE) (w : Write) (fuel i : Nat)
    (r : Int) : Code Int := do
  act endOp
  let i ← nextRound E f k w fuel i r
  return if (i : Int) = w.n then w.n else -1

theorem loopRest_succ {fuel i : Nat} (hi : ¬ w.n.toNat ≤ i) : loopRest E f k w (fuel + 1) i = (do
    act beginOp
    act (Par.enter k)
    let r ← lockedWrite E f k (fetch w.addr i (min (w.n.toNat - i) maxChunk))
    Par.iunlock k
    afterChunk E f k w fuel i r) := by
  unfold loopRest Par.filewriteLoop Par.writeSection Par.ilock lockedWrite afterChunk nextRound
  rw [if_neg hi]
  simp only [bind_assoc, pure_bind]

theorem waits_return {i : Nat} (hi : i = min (j * maxChunk) w.n.toNat) :
    Waits E f k w j (.ret (if (i : Int) = w.n then w.n else -1)) := by
  by_cases hw : (i : Int) = w.n
  · rw [if_pos hw]
    refine .done (by omega) (Nat.le_of_not_lt fun hlt => ?_)
    rw [lt_length_chunks] at hlt
    omega
  · rw [if_neg hw]
    exact .failed

theorem waits_loop (fuel : Nat) : ∀ {i j : Nat}, i = min (j * maxChunk) w.n.toNat →
    Waits E f k w j (loopRest E f k w fuel i) := by
  induction fuel with
  | zero => exact fun hi => waits_return hi
  | succ fuel ih =>
    intro i j hi
    by_cases hle : w.n.toNat ≤ i
    · unfold loopRest Par.filewriteLoop
      rw [if_pos hle]
      exact waits_return hi
    · have hij : i = j * maxChunk := by omega
      have hj : j < w.chunks.length := lt_length_chunks.2 (by omega)
      have hchunk : fetch w.addr i (min (w.n.toNat - i) maxChunk) = w.chunk j := by rw [hij]; rfl
      have hlen : (w.chunk j).length = min (w.n.toNat - i) maxChunk := by
        rw [← hchunk, length_fetch]
      rw [loopRest_succ hle, hchunk]
      refine .aside (fun s b s' hm => by cases hm; rfl) fun s b s' _ _ =>
        .lock hj rfl ⟨trivial, fun _ => ?_⟩ ?_
      · -- `writei` failed before the end
        have hne : (i : Int) ≠ w.n := by omega
        exact if_neg hne
      · refine .aside (fun s b s' hm => by cases hm; rfl) fun s b s' _ _ => ?_
        have hround : nextRound E f k w fuel i (w.chunk j).length =
            Par.filewriteLoop E f k w.addr w.n.toNat fuel (i + min (w.n.toNat - i) maxChunk) := by
          unfold nextRound
          rw [hlen, if_neg (by omega), if_neg (by simp)]
        show Waits E f k w (j + 1) (nextRound E f k w fuel i (w.chunk j).length >>= _)
        rw [hround]
        exact ih (by rw [Nat.succ_mul]; omega)

theorem waits_filewrite : Waits E f k w 0 (Par.filewrite E f w.addr w.n) := by
  refine .aside (fun s b s' hm => by cases hm; rfl) fun s b s' hs hm => ?_
  cases hm
  show Waits E f k w 0 (if !(s.ftable f).writable then _ else _)
  rw [hs.writable, hs.isPipe, hs.isInode, hs.ip]
  exact waits_loop w.n.toNat (by simp)

end Threads

/-! ## The invariant -/

variable {e : Pool.Ev (Fin NPROC) Write} {x : List UInt8} {w0 : Write}

section Runs

variable {E : Env} {f : Fin NFILE} {k : Fin NINODE} {p : Int} {i : Nat} {b0 : List UInt8}
  {o0 : Nat} {h' : List Event}
  {c c' : Writers} {s s' : FsState} {o : Option (Write × Code Int)} {t : Code Int}
  {rest : Int → Code Int}

variable (E f k p i b0 o0) in
/-- The chunks so far are in the file. -/
structure After (h : List Event) (s : FsState) : Prop where
  settled : Settled E.code f k p i (overwrite b0 o0 (inOrder h).flatten)
    (o0 + (inOrder h).flatten.length) s
  inside : inOrder h ≠ [] → o0 ≤ b0.length

theorem After.congr (hA : After E f k p i b0 o0 h s) (heq : inOrder h' = inOrder h) :
    After E f k p i b0 o0 h' s :=
  ⟨by rw [heq]; exact hA.settled, by rw [heq]; exact hA.inside⟩

theorem After.state (hA : After E f k p i b0 o0 h s) (hdisk : s'.disk = s.disk)
    (hftable : s'.ftable = s.ftable)
    (hslot : s'.icache k = { s.icache k with busy := (s'.icache k).busy }) :
    After E f k p i b0 o0 h s' :=
  ⟨hA.settled.congr hdisk hftable hslot, hA.inside⟩

/-- A process without the lock. -/
def Outside (E : Env) (f : Fin NFILE) (k : Fin NINODE) (h : List Event) (q : Fin NPROC) :
    Option (Write × Code Int) → Prop
  | none => current q h = none
  | some (w, t) => w.proc = q ∧ ∃ j, current q h = some (w, j) ∧ Waits E.code f k w j t

theorem Outside.congr (hI : Outside E f k h q o) (hcur : current q h' = current q h) :
    Outside E f k h' q o := by
  cases o with
  | none => exact hcur.trans hI
  | some x =>
    obtain ⟨hw, j, hj, hwaits⟩ := hI
    exact ⟨hw, j, hcur.trans hj, hwaits⟩

variable (E f k p i b0 o0) in
/-- Nobody has the lock. -/
structure Free (h : List Event) (c : Writers) : Prop where
  after : After E f k p i b0 o0 h c.state
  busy : (c.state.icache k).busy = false
  outside : ∀ q, Outside E f k h q (c.calls q)

variable (E f k p i b0 o0) in
/-- `q` has the lock, for the chunk `j` of its call; `t` is what it still does with it. -/
structure Holds (h : List Event) (c : Writers) (q : Fin NPROC) (w : Write) (j : Nat) (t : Code Int)
    (rest : Int → Code Int) : Prop where
  call : c.calls q = some (w, t >>= fun r => Par.iunlock k >>= fun _ => rest r)
  proc : w.proc = q
  turn : current q h = some (w, j + 1)
  work : t.Undisturbed (Alike f k) (fun (r : Int) s => r = -1 ∨ r = (w.chunk j).length ∧
    After E f k p i b0 o0 h s) c.state
  fails : Doomed (rest (-1))
  waits : Waits E.code f k w (j + 1) (rest (w.chunk j).length)
  outside : ∀ q', q' ≠ q → Outside E f k h q' (c.calls q')

/-- A call failed, or is about to. -/
def Spoiled (h : List Event) (c : Writers) : Prop :=
  (∃ q, .ret q (-1) ∈ h) ∨ ∃ q w t, c.calls q = some (w, t) ∧ Doomed t

variable (E f k p i b0 o0) in
/-- The invariant of the runs. -/
def InTurn (h : List Event) (c : Writers) : Prop :=
  Fair h ∧ (Free E f k p i b0 o0 h c ∨ ∃ q w j t rest, Holds E f k p i b0 o0 h c q w j t rest)

theorem observe_move (hq : c.calls q = some (w, .atom l m u)) :
    observe k c c' (.go q) = if !(c.state.icache k).busy && (c'.state.icache k).busy then [.lock q]
    else [] := by
  simp only [observe, hq]

theorem observe_ret (hq : c.calls q = some (w, .ret r)) : observe k c c' (.go q) = [.ret q r] := by
  simp only [observe, hq]

theorem Spoiled.exec (hS : Spoiled h c)
    (he : Pool.exec (writers E.code f) (fun _ _ => true) c e = some c') :
    Spoiled (observe k c c' e ++ h) c' := by
  rcases hS with ⟨q, hq⟩ | ⟨q, w, t, hq, ht⟩
  · exact .inl ⟨q, List.mem_append_right _ hq⟩
  · rcases Pool.exec_cases he with ⟨w', rfl, hnone, rfl⟩ | ⟨q', w', l, β, m, u, b, s', rfl, hq', -,
      hm, rfl⟩ | ⟨q', w', r, rfl, hq', rfl⟩
    · have hne : q ≠ w'.proc := by
        rintro rfl
        exact absurd (hnone.symm.trans hq) nofun
      exact .inr ⟨q, w, t, (Pool.set_calls_ne hne ..).trans hq, ht⟩
    · by_cases hne : q = q'
      · subst hne
        obtain ⟨rfl, rfl⟩ := Prod.mk.inj (Option.some.inj (hq.symm.trans hq'))
        exact .inr ⟨q, w, u b, Pool.set_calls .., ht.2 b⟩
      · exact .inr ⟨q, w, t, (Pool.set_calls_ne hne ..).trans hq, ht⟩
    · by_cases hne : q = q'
      · subst hne
        obtain ⟨rfl, rfl⟩ := Prod.mk.inj (Option.some.inj (hq.symm.trans hq'))
        rw [observe_ret hq', show r = -1 from ht]
        exact .inl ⟨q, List.mem_cons_self⟩
      · exact .inr ⟨q, w, t, (Pool.set_calls_ne hne ..).trans hq, ht⟩

theorem enter_ok {b : Unit} (hm : Par.enter k s = .ok (b, s')) :
    (s.icache k).busy = false ∧ s' = s.withInode k { s.icache k with busy := true } := by
  have hwp : (Par.enter k).wp (fun _ s' => (s.icache k).busy = false ∧
    s' = s.withInode k { s.icache k with busy := true })
      (fun _ => True) s := by
    rw [Par.enter, wp_bind, wp_inode, wp_ite]
    refine ⟨fun _ => trivial, fun _ => ?_⟩
    rw [wp_ite]
    refine ⟨fun _ => trivial, fun _ => ?_⟩
    rw [wp_ite]
    exact ⟨fun _ => trivial, fun hb => ⟨Bool.eq_false_iff.2 hb, rfl⟩⟩
  rw [wp_run hm] at hwp
  exact hwp

theorem iunlock_ok {b : Unit} (hm : iunlock k s = .ok (b, s')) :
    s' = s.withInode k { s.icache k with busy := false } := by
  have hwp : (iunlock k).wp (fun _ s' => s' = s.withInode k { s.icache k with busy := false })
      (fun _ => True) s := by
    rw [iunlock, wp_bind, wp_inode, wp_ite]
    exact ⟨fun _ => trivial, fun _ => rfl⟩
  rw [wp_run hm] at hwp
  exact hwp

theorem length_overwrite {l : List UInt8} {o : Nat} :
    (overwrite l o x).length = min o l.length + x.length + (l.length - (o + x.length)) := by
  simp [overwrite, Nat.add_assoc]

theorem overwrite_overwrite {l y : List UInt8} {o : Nat} (ho : o ≤ l.length) :
    overwrite (overwrite l o x) (o + x.length) y = overwrite l o (x ++ y) := by
  have hlen : (l.take o ++ x).length = o + x.length := by
    rw [List.length_append, List.length_take, Nat.min_eq_left ho]
  have htake : (overwrite l o x).take (o + x.length) = l.take o ++ x := by
    rw [overwrite, ← hlen, List.take_left]
  have hdrop : (overwrite l o x).drop (o + x.length + y.length) = l.drop (o + (x ++ y).length) := by
    rw [overwrite, ← List.drop_drop, ← hlen, List.drop_left, List.drop_drop, hlen,
      List.length_append, Nat.add_assoc]
  rw [overwrite, htake, hdrop, overwrite]
  simp only [List.append_assoc]

theorem After.lock (hoffset : E.offset p + 1000 ≤ 2 ^ 28) (hA : After E f k p i b0 o0 h s)
    (hq : current q h = some (w, j))
    (hj : j < w.chunks.length) (hs' : s' = s.withInode k { s.icache k with busy := true }) :
    (lockedWrite E.code f k (w.chunk j)).Undisturbed (Alike f k)
      (fun (r : Int) s => r = -1 ∨ r = (w.chunk j).length ∧
        After E f k p i b0 o0 (.lock q :: h) s) s' := by
  obtain ⟨hpos, hmax⟩ := chunk_nonempty hj
  have hslot : s'.icache k = { s.icache k with busy := (s'.icache k).busy } := by
    rw [hs', withInode_self]
  have hsettled := hA.settled.congr (by rw [hs']; rfl) (by rw [hs']; rfl) hslot
  refine ⟨steady_lockedWrite _, { s' with outstanding := 1 },
    ⟨Nat.one_pos, ?_, hsettled.file.congr rfl, rfl⟩, ?_⟩
  · show (s'.icache k).busy = true
    rw [hs', withInode_self]
  · have halone : Settled E.code f k p i (overwrite b0 o0 (inOrder h).flatten)
      (o0 + (inOrder h).flatten.length)
        { s' with outstanding := 1 } := hsettled.congr rfl rfl rfl
    refine wp_mono (lockedWrite_wp hoffset halone hpos (Nat.lt_of_le_of_lt hmax (by decide)))
      fun r s1 hr => hr.imp_right fun ⟨hlen, hin, h1⟩ => ⟨hlen, ?_⟩
    rw [length_overwrite] at hin
    have ho : o0 ≤ b0.length := by omega
    have hflat : (inOrder (.lock q :: h)).flatten = (inOrder h).flatten ++ w.chunk j := by
      rw [inOrder_lock hq, List.flatten_append]
      simp
    refine ⟨?_, fun _ => ho⟩
    rw [hflat, ← overwrite_overwrite ho, List.length_append, ← Nat.add_assoc]
    exact h1

theorem outside_set {x : Fin NPROC} {y : Option (Write × Code Int)}
    (hI : Outside E f k h q (c.calls q)) (hne : q ≠ x)
    (hcur : current q h' = current q h) : Outside E f k h' q ((c.set x y s').calls q) := by
  rw [Pool.set_calls_ne hne]
  exact hI.congr hcur

theorem InTurn.start (hT : InTurn E f k p i b0 o0 h c) (hnone : c.calls w.proc = none) :
    InTurn E f k p i b0 o0 (.call w :: h)
      (c.set w.proc (some (w, (writers E.code f).body w)) c.state) := by
  have hnew : Outside E f k (.call w :: h) w.proc (some (w, (writers E.code f).body w)) :=
    ⟨rfl, 0, current_call_self, waits_filewrite⟩
  have hcur : ∀ q, q ≠ w.proc → current q (.call w :: h) = current q h := fun q hq =>
    current_call_ne hq
  obtain ⟨hF, hfree | ⟨q, w', j, t, rest, hH⟩⟩ := hT
  · have hidle : current w.proc h = none := by
      have := hfree.outside w.proc
      rwa [hnone] at this
    refine ⟨⟨hidle, hF⟩, .inl ⟨hfree.after.congr rfl, hfree.busy, fun q => ?_⟩⟩
    by_cases hq : q = w.proc
    · rw [hq, Pool.set_calls]
      exact hnew
    · exact outside_set (hfree.outside q) hq (hcur q hq)
  · have hqw : q ≠ w.proc := by
      rintro rfl
      exact absurd (hnone.symm.trans hH.call) nofun
    have hidle : current w.proc h = none := by
      have := hH.outside w.proc hqw.symm
      rwa [hnone] at this
    refine ⟨⟨hidle, hF⟩, .inr ⟨q, w', j, t, rest, ?_, hH.proc, (hcur q hqw).trans hH.turn, ?_,
      hH.fails, hH.waits, fun q' hq' => ?_⟩⟩
    · rw [Pool.set_calls_ne hqw]
      exact hH.call
    · exact hH.work.after fun r s hr => hr.imp_right fun ⟨hlen, hA⟩ => ⟨hlen, hA.congr rfl⟩
    · by_cases hw : q' = w.proc
      · rw [hw, Pool.set_calls]
        exact hnew
      · exact outside_set (hH.outside q' hq') hw (hcur q' hw)

theorem Outside.ret (hI : Outside E f k h q (some (w, .ret r))) :
    r = -1 ∨ ∃ w j, current q h = some (w, j) ∧ w.chunks.length ≤ j := by
  obtain ⟨-, j, hq, hwaits⟩ := hI
  cases hwaits with
  | done hn hj => exact .inr ⟨w, j, hq, hj⟩
  | failed => exact .inl rfl

theorem InTurn.finish (hT : InTurn E f k p i b0 o0 h c) (hq : c.calls q = some (w, .ret r)) :
    r = -1 ∨ InTurn E f k p i b0 o0 (.ret q r :: h) (c.set q none c.state) := by
  have hnew : Outside E f k (.ret q r :: h) q none := current_ret_self
  have hcur : ∀ q', q' ≠ q → current q' (.ret q r :: h) = current q' h := fun q' hq' =>
    current_ret_ne hq'
  obtain ⟨hF, hfree | ⟨q0, w', j, t, rest, hH⟩⟩ := hT
  · have hidle := hfree.outside q
    rw [hq] at hidle
    refine hidle.ret.imp_right fun hdone =>
      ⟨⟨hdone, hF⟩, .inl ⟨hfree.after.congr rfl, hfree.busy, fun q' => ?_⟩⟩
    by_cases hqq : q' = q
    · rw [hqq, Pool.set_calls]
      exact hnew
    · exact outside_set (hfree.outside q') hqq (hcur q' hqq)
  · have hne : q0 ≠ q := by
      rintro rfl
      have hcall := hH.call.symm.trans hq
      cases t with
      | ret a => cases hcall
      | atom l m u => cases hcall
    have hidle := hH.outside q hne.symm
    rw [hq] at hidle
    refine hidle.ret.imp_right fun hdone =>
      ⟨⟨hdone, hF⟩, .inr ⟨q0, w', j, t, rest, ?_, hH.proc, (hcur q0 hne).trans hH.turn, ?_,
      hH.fails, hH.waits, fun q' hq' => ?_⟩⟩
    · rw [Pool.set_calls_ne hne]
      exact hH.call
    · exact hH.work.after fun r s hr => hr.imp_right fun ⟨hlen, hA⟩ => ⟨hlen, hA.congr rfl⟩
    · by_cases hqq : q' = q
      · rw [hqq, Pool.set_calls]
        exact hnew
      · exact outside_set (hH.outside q' hq') hqq (hcur q' hqq)

section Move

variable {β : Type} {l : Point} {m : FsM β} {u : β → Code Int} {b : β}

/-- A step of a process without the lock: it concerns the log only, or it takes the lock. -/
theorem Outside.move (hO : Outside E f k h q (some (w, .atom l m u))) (hopen : Opened f k s)
    (hm : m s = .ok (b, s')) :
    s' = { s with outstanding := s'.outstanding, logged := s'.logged } ∧
      Outside E f k h q (some (w, u b)) ∨
    (s.icache k).busy = false ∧ s' = s.withInode k { s.icache k with busy := true } ∧ w.proc = q ∧
    ∃ (j : Nat) (rest : Int → Code Int),
      current q h = some (w, j) ∧ j < w.chunks.length ∧ Doomed (rest (-1)) ∧
      Waits E.code f k w (j + 1) (rest (w.chunk j).length) ∧
      u b = lockedWrite E.code f k (w.chunk j) >>= fun r => Par.iunlock k >>= fun _ => rest r := by
  obtain ⟨hw, j, hq, hwaits⟩ := hO
  cases hwaits with
  | aside hlog hnext => exact .inl ⟨hlog s b s' hm, hw, j, hq, hnext s b s' hopen hm⟩
  | lock hj hu hfails hnext =>
    obtain ⟨hbusy, hs'⟩ := enter_ok hm
    exact .inr ⟨hbusy, hs', hw, j, _, hq, hj, hfails, hnext, hu⟩

theorem Free.move (hoffset : E.offset p + 1000 ≤ 2 ^ 28) (hF : Fair h)
    (hfree : Free E f k p i b0 o0 h c)
    (hq : c.calls q = some (w, .atom l m u)) (hm : m c.state = .ok (b, s')) :
    InTurn E f k p i b0 o0 (observe k c (c.set q (some (w, u b)) s') (.go q) ++ h)
      (c.set q (some (w, u b)) s') := by
  have hout := hfree.outside q
  rw [hq] at hout
  rw [observe_move hq, hfree.busy, Pool.set_state]
  rcases hout.move hfree.after.settled.file hm with ⟨hs', hnext⟩ | ⟨-, hs', hw, j, rest, hcur, hj,
    hfails, hwaits, hu⟩
  · have hbusy : (s'.icache k).busy = false := by rw [hs']; exact hfree.busy
    rw [hbusy]
    refine ⟨hF, .inl ⟨hfree.after.state (by rw [Pool.set_state, hs']) (by rw [Pool.set_state, hs'])
      (by rw [Pool.set_state, hs']), hbusy, fun q' => ?_⟩⟩
    by_cases hqq : q' = q
    · rw [hqq, Pool.set_calls]
      exact hnext
    · exact outside_set (hfree.outside q') hqq rfl
  · have hbusy : (s'.icache k).busy = true := by rw [hs', withInode_self]
    rw [hbusy]
    refine ⟨⟨⟨w, j, hcur, hj⟩, hF⟩,
      .inr ⟨q, w, j, _, rest, ?_, hw, ?_, hfree.after.lock hoffset hcur hj hs', hfails, hwaits,
      fun q' hqq => outside_set (hfree.outside q') hqq (current_lock_ne hqq)⟩⟩
    · rw [Pool.set_calls, hu]
    · show current q (.lock q :: h) = _
      rw [current_lock_self, hcur]
      rfl

theorem Holds.aside {q0 : Fin NPROC} (hF : Fair h) (hH : Holds E f k p i b0 o0 h c q0 w0 j t rest)
    (hne : q ≠ q0) (hq : c.calls q = some (w, .atom l m u)) (hm : m c.state = .ok (b, s')) :
    InTurn E f k p i b0 o0 (observe k c (c.set q (some (w, u b)) s') (.go q) ++ h)
      (c.set q (some (w, u b)) s') := by
  obtain ⟨r, hr, -⟩ := hH.work.alone
  have hbusy : (c.state.icache k).busy = true := by rw [← hr.icache]; exact hr.busy
  have hopen : Opened f k c.state := hr.opened.congr (by rw [hr.ftable])
  have hout := hH.outside q hne
  rw [hq] at hout
  rw [observe_move hq, hbusy]
  rcases hout.move hopen hm with ⟨hs', hnext⟩ | ⟨hfree, -⟩
  · refine ⟨hF, .inr ⟨q0, w0, j, t, rest, ?_, hH.proc, hH.turn,
      hH.work.aside fun r hr => hr.log hs', hH.fails, hH.waits, fun q' hqq => ?_⟩⟩
    · rw [Pool.set_calls_ne hne.symm]
      exact hH.call
    · by_cases hqx : q' = q
      · rw [hqx, Pool.set_calls]
        exact hnext
      · exact outside_set (hH.outside q' hqq) hqx rfl
  · rw [hbusy] at hfree
    cases hfree

theorem Holds.move (hF : Fair h) (hH : Holds E f k p i b0 o0 h c q w0 j t rest)
    (hq : c.calls q = some (w, .atom l m u)) (hm : m c.state = .ok (b, s')) :
    Spoiled (observe k c (c.set q (some (w, u b)) s') (.go q) ++ h) (c.set q (some (w, u b)) s') ∨
    InTurn E f k p i b0 o0 (observe k c (c.set q (some (w, u b)) s') (.go q) ++ h)
      (c.set q (some (w, u b)) s') := by
  obtain ⟨r, hr, -⟩ := hH.work.alone
  have hbusy : (c.state.icache k).busy = true := by rw [← hr.icache]; exact hr.busy
  have hothers : ∀ q', q' ≠ q → Outside E f k h q' ((c.set q (some (w, u b)) s').calls q') :=
    fun q' hqq =>
    outside_set (hH.outside q' hqq) hqq rfl
  rw [observe_move hq, hbusy]
  have hcall := hH.call.symm.trans hq
  cases t with
  | atom l' m' u' =>
    cases hcall
    exact .inr ⟨hF, .inr ⟨q, w, j, u' b, rest, Pool.set_calls .., hH.proc, hH.turn, hH.work.step hm,
      hH.fails, hH.waits, hothers⟩⟩
  | ret a =>
    -- the inode is unlocked
    cases hcall
    have hs' := iunlock_ok hm
    obtain ⟨r, hr, hpost⟩ := hH.work.alone
    rcases hpost with rfl | ⟨rfl, hA⟩
    · exact .inl (.inr ⟨q, w, _, Pool.set_calls .., hH.fails⟩)
    · refine .inr ⟨hF, .inl ⟨hA.state ?_ ?_ ?_, ?_, fun q' => ?_⟩⟩
      · rw [Pool.set_state, hs', hr.disk]; rfl
      · rw [Pool.set_state, hs', hr.ftable]; rfl
      · rw [Pool.set_state, hs', withInode_self, hr.icache]
      · rw [Pool.set_state, hs', withInode_self]
      · by_cases hqq : q' = q
        · rw [hqq, Pool.set_calls]
          exact ⟨hH.proc, j + 1, hH.turn, hH.waits⟩
        · exact hothers q' hqq

end Move

theorem InTurn.exec (hoffset : E.offset p + 1000 ≤ 2 ^ 28) (hT : InTurn E f k p i b0 o0 h c)
    (he : Pool.exec (writers E.code f) (fun _ _ => true) c e = some c') :
    Spoiled (observe k c c' e ++ h) c' ∨ InTurn E f k p i b0 o0 (observe k c c' e ++ h) c' := by
  rcases Pool.exec_cases he with ⟨w, rfl, hnone, rfl⟩ | ⟨q, w, l, β, m, u, b, s', rfl, hq, -, hm,
    rfl⟩ | ⟨q, w, r, rfl, hq, rfl⟩
  · exact .inr (hT.start hnone)
  · obtain ⟨hF, hfree | ⟨q0, w0, j, t, rest, hH⟩⟩ := hT
    · exact .inr (hfree.move hoffset hF hq hm)
    · by_cases hne : q = q0
      · subst hne
        exact hH.move hF hq hm
      · exact .inr (hH.aside hF hne hq hm)
  · rw [observe_ret hq]
    rcases hT.finish hq with rfl | hT'
    · exact .inl (.inl ⟨q, List.mem_cons_self⟩)
    · exact .inr hT'

theorem InTurn.play (hoffset : E.offset p + 1000 ≤ 2 ^ 28) (es : List (Pool.Ev (Fin NPROC) Write)) :
    ∀ {c h}, Spoiled h c ∨ InTurn E f k p i b0 o0 h c → play E.code f k c h es = some (c', h') →
      Spoiled h' c' ∨ InTurn E f k p i b0 o0 h' c' := by
  induction es with
  | nil =>
    intro c h hT hplay
    cases hplay
    exact hT
  | cons e es ih =>
    intro c h hT hplay
    simp only [Os4.Fs.play] at hplay
    split at hplay
    · rename_i c1 he
      refine ih ?_ hplay
      rcases hT with hS | hT
      · exact .inl (hS.exec he)
      · exact hT.exec hoffset he
    · cases hplay

end Runs

/-! ## The file after all calls -/

theorem length_flatten_chunks (ws : List Write) :
    (ws.flatMap Write.chunks).flatten.length = (ws.map fun w => w.n.toNat).sum := by
  induction ws with
  | nil => rfl
  | cons w ws ih =>
    rw [List.flatMap_cons, List.flatten_append, List.length_append, ih, flatten_chunks,
      Write.buffer, length_fetch, List.map_cons, List.sum_cons]

variable {E : Env} {first : Nat} {f : Fin NFILE} {p : Int} {s0 : FsState}
  {es : List (Pool.Ev (Fin NPROC) Write)} {c : Writers}

/-- **Writers that share a file lose nothing.** Processes make calls `filewrite(f, ..)` of any
length in any order and interleaving; when all have returned and none with -1, the file holds from
the initial offset on the chunks of the calls, each once, in the order in which their writers had
the inode's lock, and the offset has advanced by their total length. -/
theorem shared_writes (hL : Laid E first) (hC : Consistent E s0)
    (hopen : (s0.ftable f).isInode = true) (hpipe : (s0.ftable f).isPipe = false)
    (hw : (s0.ftable f).writable = true) (hoff : (s0.ftable f).off < 2 ^ 32)
    (href : 0 < (s0.icache (s0.ftable f).ip).ref)
    (hbusy : (s0.icache (s0.ftable f).ip).busy = false)
    (hprt : (s0.icache (s0.ftable f).ip).prt = some p)
    (htype : (dinodeAt E s0.disk p (s0.icache (s0.ftable f).ip).inum).type = T_FILE)
    (hplay : play E.code f (s0.ftable f).ip ⟨fun _ => none, s0⟩ [] es = some (c, h))
    (hquiet : c.Quiet) (hok : ∀ q, .ret q (-1) ∉ h) :
    ((fileOf E c.state p (s0.icache (s0.ftable f).ip).inum).drop (s0.ftable f).off).take
        (inOrder h).flatten.length = (inOrder h).flatten ∧
      fileOf E c.state p (s0.icache (s0.ftable f).ip).inum =
        overwrite (fileOf E s0 p (s0.icache (s0.ftable f).ip).inum) (s0.ftable f).off
          (inOrder h).flatten ∧
      (c.state.ftable f).off = (s0.ftable f).off + ((callsOf h).map fun w => w.n.toNat).sum ∧
      (inOrder h).Perm ((callsOf h).flatMap Write.chunks) ∧
      ∀ w ∈ callsOf h, w.chunks.flatten = w.buffer ∧
      (0 < w.n → w.n ≤ 6656 → w.chunks = [w.buffer]) := by
  obtain ⟨hp, hi⟩ := (hC.slot _ href).part p hprt
  obtain ⟨i, hinum⟩ : ∃ i, i = (s0.icache (s0.ftable f).ip).inum := ⟨_, rfl⟩
  rw [← hinum] at hi htype ⊢
  have hsettled : Settled E.code f (s0.ftable f).ip p i (fileOf E s0 p i) (s0.ftable f).off s0 := by
    refine ⟨⟨hopen, hpipe, hw, rfl⟩, rfl, hoff, ⟨hprt, hinum.symm⟩, fun hv => ?_,
      ((hC.vol p hp).mono (by decide)).env rfl, hi, htype, rfl⟩
    rw [((hC.slot _ href).live hprt hv).2.2, hinum]
    rfl
  have hstart : InTurn E f (s0.ftable f).ip p i (fileOf E s0 p i) (s0.ftable f).off []
      ⟨fun _ => none, s0⟩ := by
    refine ⟨trivial, .inl ⟨⟨?_, fun h => absurd rfl h⟩, hbusy, fun q => rfl⟩⟩
    have hsame : overwrite (fileOf E s0 p i) (s0.ftable f).off [] = fileOf E s0 p i := by
      rw [overwrite, List.append_nil]
      exact List.take_append_drop ..
    show Settled _ _ _ _ _ (overwrite _ _ []) _ _
    rw [hsame]
    exact hsettled
  rcases InTurn.play (hL.off_lt hp) es (.inr hstart) hplay with hS
    | ⟨hF, hfree | ⟨q, w, j, t, rest, hH⟩⟩
  · rcases hS with ⟨q, hq⟩ | ⟨q, w, t, hq, -⟩
    · exact absurd hq (hok q)
    · exact absurd ((hquiet q).symm.trans hq) (by simp)
  · have hperm : (inOrder h).Perm ((callsOf h).flatMap Write.chunks) := by
      have hdealt := hF.dealt
      have hnone : ∀ q, owed h q = 0 := fun q => by
        have hq := hfree.outside q
        rw [hquiet q] at hq
        exact owed_none hq
      rw [Finset.sum_congr rfl fun q _ => hnone q, Finset.sum_const_zero, add_zero] at hdealt
      exact Multiset.coe_eq_coe.1 hdealt
    have hlen : (inOrder h).flatten.length = ((callsOf h).map fun w => w.n.toNat).sum := by
      rw [← length_flatten_chunks]
      exact hperm.flatten.length_eq
    have hfile : fileOf E c.state p i =
        overwrite (fileOf E s0 p i) (s0.ftable f).off (inOrder h).flatten :=
      hfree.after.settled.holds
    refine ⟨?_, hfile, by rw [hfree.after.settled.pos, hlen], hperm,
      fun w _ => ⟨flatten_chunks, chunks_short⟩⟩
    by_cases hempty : inOrder h = []
    · rw [hempty]
      rfl
    · have hin : ((fileOf E s0 p i).take (s0.ftable f).off).length = (s0.ftable f).off := by
        rw [List.length_take, Nat.min_eq_left (hfree.after.inside hempty)]
      rw [hfile, overwrite, List.append_assoc, List.drop_left' hin, List.take_left]
  · exact absurd ((hquiet q).symm.trans hH.call) (by simp)

/-- Two processes write a byte each; the second one begins while the first has the lock. -/
def twoWriters : List (Pool.Ev (Fin NPROC) Write) :=
  [.start ⟨0, fun _ => 104, 1⟩, .start ⟨1, fun _ => 105, 1⟩] ++ List.replicate 3 (.go 0) ++
    List.replicate 2 (.go 1) ++ List.replicate 12 (.go 0) ++ List.replicate 12 (.go 1)

theorem shared_writes_two :
    ∃ c h, play demoEnv.code 0 0 ⟨fun _ => none, openState⟩ [] twoWriters = some (c, h) ∧
    inOrder h = [[104], [105]] ∧ ((fileOf demoEnv c.state 0 1).drop 0).take 2 = [104, 105] := by
  have hrun : (play demoEnv.code 0 0 ⟨fun _ => none, openState⟩ [] twoWriters).map (fun x =>
      (decide (∀ q, (x.1.calls q).isNone = true) && x.2.all fun | .ret _ r => r != -1 | _ => true,
        inOrder x.2)) =
      some (true, [[104], [105]]) := by decide +kernel
  obtain ⟨⟨c, h⟩, hplay, hend⟩ := Option.map_eq_some_iff.1 hrun
  obtain ⟨hquiet, horder⟩ := Prod.mk.inj hend
  rw [Bool.and_eq_true, decide_eq_true_eq, List.all_eq_true] at hquiet
  have hd : dinodeAt demoEnv openState.disk 0 (openState.icache (openState.ftable 0).ip).inum =
      demoInode := dinodeAt_demoDisk_one
  obtain ⟨hbytes, -⟩ := shared_writes (p := 0) laid_demoEnv consistent_openState rfl rfl rfl
    (by decide) (by decide) rfl rfl
    (by rw [hd]; rfl) hplay (fun q => Option.isNone_iff_eq_none.1 (hquiet.1 q)) fun q hq =>
      absurd (hquiet.2 _ hq) (by simp)
  rw [horder] at hbytes
  exact ⟨c, h, hplay, horder, hbytes⟩

end Os4.Fs
