import Mathlib.Algebra.BigOperators.Group.Finset.Basic
import Mathlib.Algebra.Order.BigOperators.Group.Finset
import Mathlib.Data.Finset.Card
import Os4.Log.Bio
/-!
# Log admission: `begin_op` / `log_write` / `end_op` (log.c:124-231)

| here | there |
| --- | --- |
| `St.block`      | `log.lh.block[0 .. log.lh.n)`, `log.lh.n` is its length |
| `Pc`            | where a process stands inside `begin_op` (log.c:126), `log_write` (:211), `end_op` (:146) |
| `beginOp`       | one round of the `while(1)` of `begin_op`, under `log.lock` |
| `logWriteCheck` | the two unlocked tests of `log_write` (:216-219) |
| `logWriteAppend`| its locked part (:221-230) |
| `endOp`         | `end_op` up to the release of `log.lock` (:151-163) |
| `commit`        | the call of `commit()` (:168): to the log it is `log.lh.n = 0` (:197) |
| `finish`        | the locked tail of `end_op` (:169-172) |

Processes interleave at the lock: each event below is one such step of one process. `log.size` is
a parameter; mkfs makes it `LOGSIZE` (mkfs.c:35).

`Proto` is what the lock alone gives: one commit at a time and none during an operation, a list
without repetitions, and a reason for each process that sleeps (**`log_protocol`**). The blocks
between the header write and the end of the log hold `log.size - 1` blocks, and `log_write` refuses
to go past that, but `begin_op` reserves up to `LOGSIZE`: `reservation` is the bound `begin_op` does
give, and `run_tooBig_iff` says when the missing block is noticed.
-/
namespace Os4.Log

inductive Pc where
  | out
  /-- sleeping on `&log` in `begin_op` -/
  | asleep
  /-- woken up, about to test again -/
  | woken
  /-- between `begin_op` and `end_op` -/
  | tx
  /-- in `log_write(b)`, past the unlocked tests -/
  | checked (b : Nat)
  /-- in `commit()` -/
  | commit
  /-- back from `commit()` -/
  | finish
deriving DecidableEq, Repr

structure St where
  outstanding : Nat
  committing : Bool
  block : List Nat
  pc : Nat → Pc

def init : St := ⟨0, false, [], fun _ => .out⟩

variable (s : St)

def St.setPc (p : Nat) (c : Pc) : St := { s with pc := Function.update s.pc p c }

/-- `wakeup(&log)` -/
def St.wakeup : St :=
  { s with pc := fun q => if s.pc q = .asleep then .woken else s.pc q }

def beginOp (p : Nat) : Except Stop St :=
  if s.pc p = .out ∨ s.pc p = .woken then
    if s.committing then .ok (s.setPc p .asleep)
    else if LOGSIZE < s.block.length + (s.outstanding + 1) * MAXOPBLOCKS then
      .ok (s.setPc p .asleep)
    else .ok { s.setPc p .tx with outstanding := s.outstanding + 1 }
  else .error .disabled

def logWriteCheck (size : Nat) (s : St) (p b : Nat) : Except Stop St :=
  if s.pc p = .tx then
    if LOGSIZE ≤ s.block.length ∨ size - 1 ≤ s.block.length then .error .tooBig
    else if s.outstanding < 1 then .error .outsideTrans
    else .ok (s.setPc p (.checked b))
  else .error .disabled

/-- Log absorption: a block already listed is not listed again. -/
def absorb (block : List Nat) (b : Nat) : List Nat := if b ∈ block then block else block ++ [b]

def logWriteAppend (p b : Nat) : Except Stop St :=
  if s.pc p = .checked b then .ok { s.setPc p .tx with block := absorb s.block b }
  else .error .disabled

def endOp (p : Nat) : Except Stop St :=
  if s.pc p = .tx then
    if s.committing then .error .committing
    else if s.outstanding - 1 = 0 then
      .ok { s.setPc p .commit with outstanding := s.outstanding - 1, committing := true }
    else .ok ({ s.setPc p .out with outstanding := s.outstanding - 1 } : St).wakeup
  else .error .disabled

def commit (p : Nat) : Except Stop St :=
  if s.pc p = .commit then .ok { s.setPc p .finish with block := [] } else .error .disabled

def finish (p : Nat) : Except Stop St :=
  if s.pc p = .finish then .ok ({ s.setPc p .out with committing := false } : St).wakeup
  else .error .disabled

inductive Ev where
  | begin (p : Nat)
  | check (p b : Nat)
  | append (p b : Nat)
  | endOp (p : Nat)
  | commit (p : Nat)
  | finish (p : Nat)
deriving DecidableEq, Repr

def step (size : Nat) (s : St) : Ev → Except Stop St
  | .begin p => beginOp s p
  | .check p b => logWriteCheck size s p b
  | .append p b => logWriteAppend s p b
  | .endOp p => endOp s p
  | .commit p => commit s p
  | .finish p => finish s p

/-- A run, the latest event first. -/
def run (size : Nat) : List Ev → Except Stop St
  | [] => .ok init
  | e :: tr => do step size (← run size tr) e

/-! ## What a run logged -/

/-- The distinct blocks the operation `p` is in has logged. -/
def opLogged (p : Nat) : List Ev → List Nat
  | [] => []
  | .begin q :: tr => if q = p then [] else opLogged p tr
  | .append q b :: tr => if q = p then (opLogged p tr).insert b else opLogged p tr
  | _ :: tr => opLogged p tr

/-- The distinct blocks logged since the last commit. -/
def txLogged : List Ev → List Nat
  | [] => []
  | .append _ b :: tr => (txLogged tr).insert b
  | .commit _ :: _ => []
  | _ :: tr => txLogged tr

/-- No operation calls `log_write` for more than `MAXOPBLOCKS` distinct blocks. -/
def withinQuota : List Ev → Bool
  | [] => true
  | .check p b :: tr => ((opLogged p tr).insert b).length ≤ MAXOPBLOCKS && withinQuota tr
  | _ :: tr => withinQuota tr

/-- Every call of `log_write` is made with fewer than `LOGSIZE - 1` blocks in the transaction. -/
def roomAtCalls : List Ev → Bool
  | [] => true
  | .check _ _ :: tr => (txLogged tr).length < LOGSIZE - 1 && roomAtCalls tr
  | _ :: tr => roomAtCalls tr

/-! ## The reservation invariant -/

/-- Holds one of the `log.outstanding` slots. -/
def Pc.active : Pc → Bool
  | .tx | .checked _ => true
  | _ => false

def Pc.inCommit : Pc → Bool
  | .commit | .finish => true
  | _ => false

@[simp] theorem active_wakeup (q : Nat) : (s.wakeup.pc q).active = (s.pc q).active := by
  simp only [St.wakeup]; split
  · next h => simp [h, Pc.active]
  · rfl

@[simp] theorem inCommit_wakeup (q : Nat) :
    (s.wakeup.pc q).inCommit = (s.pc q).inCommit := by
  simp only [St.wakeup]; split
  · next h => simp [h, Pc.inCommit]
  · rfl

variable {q : Nat} {c : Pc}

theorem wakeup_back {s : St} (hc : c ≠ .woken) (h : s.wakeup.pc q = c) : s.pc q = c := by
  simp only [St.wakeup] at h
  split at h
  · exact absurd h.symm hc
  · exact h

@[simp] theorem setPc_pc (p : Nat) (c : Pc) (q : Nat) :
    (s.setPc p c).pc q = if q = p then c else s.pc q := by
  simp [St.setPc, Function.update_apply]

theorem setPc_back {s : St} {d : Pc} (hcd : c ≠ d) (h : (s.setPc p c).pc q = d) : s.pc q = d := by
  by_cases hqp : q = p
  · subst hqp; simp [hcd] at h
  · simpa [hqp] using h

theorem inCommit_of_setPc {s : St} (hc : c.inCommit = false)
    (h : ((s.setPc p c).pc q).inCommit = true) : (s.pc q).inCommit = true := by
  by_cases hqp : q = p
  · subst hqp; simp [hc] at h
  · simpa [hqp] using h

/-- `A` is the set of processes between `begin_op` and `end_op`; one process commits, and only
while `A` is empty. -/
structure Excl (s : St) (A : Finset Nat) : Prop where
  mem : ∀ p, p ∈ A ↔ (s.pc p).active = true
  card : s.outstanding = A.card
  commits : ∀ p, (s.pc p).inCommit = true → s.committing = true
  one : ∀ p q, (s.pc p).inCommit = true → (s.pc q).inCommit = true → p = q
  idle : s.committing = true → A = ∅

variable {size : Nat} {s s' : St} {A : Finset Nat} {p b : Nat}

theorem excl_init : Excl init ∅ where
  mem p := by simp [init, Pc.active]
  card := rfl
  commits p h := by simp [init, Pc.inCommit] at h
  one p q h := by simp [init, Pc.inCommit] at h
  idle _ := rfl

theorem Excl.setPc (h : Excl s A) (ha : c.active = (s.pc p).active) (hc : c.inCommit = false) :
    Excl (s.setPc p c) A where
  mem q := by
    by_cases hq : q = p
    · subst hq; simp [h.mem, ha]
    · simp [hq, h.mem]
  card := h.card
  commits q hq := h.commits q (inCommit_of_setPc hc hq)
  one q r hq hr := h.one q r (inCommit_of_setPc hc hq) (inCommit_of_setPc hc hr)
  idle := h.idle

theorem Excl.wakeup (h : Excl s A) : Excl s.wakeup A where
  mem q := by rw [active_wakeup]; exact h.mem q
  card := h.card
  commits q hq := h.commits q (by rwa [inCommit_wakeup] at hq)
  one q r hq hr := h.one q r (by rwa [inCommit_wakeup] at hq) (by rwa [inCommit_wakeup] at hr)
  idle := h.idle

/-! ### What each step does -/

theorem begin_cases (h : Excl s A) (hb : beginOp s p = .ok s') :
    p ∉ A ∧ (s.pc p = .out ∨ s.pc p = .woken) ∧
      (s' = s.setPc p .asleep ∧
        (s.committing = true ∨ LOGSIZE < s.block.length + (s.outstanding + 1) * MAXOPBLOCKS) ∨
      s' = { s.setPc p .tx with outstanding := s.outstanding + 1 } ∧ s.committing = false ∧
        s.block.length + (s.outstanding + 1) * MAXOPBLOCKS ≤ LOGSIZE) := by
  unfold beginOp at hb
  split at hb
  case isFalse => simp at hb
  case isTrue hpc =>
  refine ⟨by rw [h.mem]; rcases hpc with hpc | hpc <;> simp [hpc, Pc.active], hpc, ?_⟩
  split at hb
  case isTrue hc => cases hb; exact Or.inl ⟨rfl, Or.inl hc⟩
  split at hb
  case isTrue hroom => cases hb; exact Or.inl ⟨rfl, Or.inr hroom⟩
  case isFalse hc hroom =>
    cases hb; exact Or.inr ⟨rfl, by simpa using hc, by omega⟩

theorem excl_asleep (h : Excl s A) (hp : p ∉ A) : Excl (s.setPc p .asleep) A := by
  rw [h.mem, Bool.not_eq_true] at hp
  exact h.setPc (by rw [hp]; rfl) rfl

theorem excl_enter (h : Excl s A) (hp : p ∉ A) (hc : s.committing = false) :
    Excl { s.setPc p .tx with outstanding := s.outstanding + 1 } (insert p A) where
  mem q := by
    by_cases hq : q = p
    · subst hq; simp [Pc.active]
    · simp [hq, h.mem]
  card := by simp [hp, h.card]
  commits q hq := h.commits q (inCommit_of_setPc rfl hq)
  one q r hq hr := h.one q r (inCommit_of_setPc rfl hq) (inCommit_of_setPc rfl hr)
  idle hc' := by simp [St.setPc, hc] at hc'

theorem check_cases (hb : logWriteCheck size s p b = .ok s') :
    s.pc p = .tx ∧ s.block.length < size - 1 ∧ s' = s.setPc p (.checked b) := by
  unfold logWriteCheck at hb
  split at hb
  case isFalse => simp at hb
  case isTrue hpc =>
  split at hb
  · simp at hb
  split at hb
  · simp at hb
  · cases hb; exact ⟨hpc, by omega, rfl⟩

theorem excl_check (h : Excl s A) (hpc : s.pc p = .tx) : Excl (s.setPc p (.checked b)) A :=
  h.setPc (by rw [hpc]; rfl) rfl

theorem append_cases (hb : logWriteAppend s p b = .ok s') :
    s.pc p = .checked b ∧ s' = { s.setPc p .tx with block := absorb s.block b } := by
  unfold logWriteAppend at hb
  split at hb
  · next hpc => cases hb; exact ⟨hpc, rfl⟩
  · simp at hb

theorem excl_append (h : Excl s A) (hpc : s.pc p = .checked b) :
    Excl { s.setPc p .tx with block := absorb s.block b } A := by
  have hx := h.setPc (p := p) (c := .tx) (by rw [hpc]; rfl) rfl
  exact ⟨hx.mem, hx.card, hx.commits, hx.one, hx.idle⟩

/-- `end_op` leaves; the last one out goes on to commit. -/
theorem excl_endOp (h : Excl s A) (hb : endOp s p = .ok s') :
    p ∈ A ∧ Excl s' (A.erase p) ∧ s'.block = s.block ∧
      (∀ q c, s'.pc q = .checked c → s.pc q = .checked c) ∧ ∀ q, s'.pc q = .commit → q = p := by
  unfold endOp at hb
  split at hb
  case isFalse => simp at hb
  case isTrue hpc =>
  have hp : p ∈ A := by rw [h.mem, hpc]; rfl
  have hcard : s.outstanding - 1 = (A.erase p).card := by
    rw [Finset.card_erase_of_mem hp, h.card]
  have hmem : ∀ c : Pc, c.active = false → ∀ q,
      q ∈ A.erase p ↔ ((s.setPc p c).pc q).active = true := by
    intro c hc q
    by_cases hqp : q = p
    · subst hqp; simp [hc]
    · simp [hqp, h.mem]
  split at hb
  · simp at hb
  case isFalse hcm =>
  -- nobody is committing: `log.committing` is clear
  have hnone : ∀ q, (s.pc q).inCommit = false := fun q => by
    by_contra hq; exact hcm (h.commits q (by simpa using hq))
  split at hb
  case isTrue hlast =>
    cases hb
    have hp' : ∀ q, ((s.setPc p .commit).pc q).inCommit = true → q = p := by
      intro q hq
      by_contra hqp
      simp [hqp, hnone] at hq
    refine ⟨hp, ⟨hmem .commit rfl, hcard, fun _ _ => rfl,
      fun q r hq hr => (hp' q hq).trans (hp' r hr).symm,
      fun _ => Finset.card_eq_zero.1 (hcard ▸ hlast)⟩, rfl, fun q c hq =>
        setPc_back (by simp) hq, fun q hq => ?_⟩
    exact hp' q (by rw [show (s.setPc p .commit).pc q = .commit from hq]; rfl)
  case isFalse =>
    cases hb
    have hx : Excl { s.setPc p .out with outstanding := s.outstanding - 1 } (A.erase p) :=
      ⟨hmem .out rfl, hcard, fun q hq => h.commits q (inCommit_of_setPc rfl hq),
        fun q r hq hr => h.one q r (inCommit_of_setPc rfl hq) (inCommit_of_setPc rfl hr),
        fun hc => absurd hc hcm⟩
    refine ⟨hp, hx.wakeup, rfl, fun q c hq => setPc_back (by simp) (wakeup_back (by simp) hq),
      fun q hq => ?_⟩
    have : s.pc q = .commit := setPc_back (c := .out) (by simp) (wakeup_back (by simp) hq)
    have := hnone q
    simp [*, Pc.inCommit] at this

theorem commit_cases (h : Excl s A) (hb : commit s p = .ok s') :
    s.pc p = .commit ∧ A = ∅ ∧ s' = { s.setPc p .finish with block := [] } := by
  unfold commit at hb
  split at hb
  · next hpc => cases hb; exact ⟨hpc, h.idle (h.commits p (by rw [hpc]; rfl)), rfl⟩
  · simp at hb

theorem excl_commit (h : Excl s A) (hpc : s.pc p = .commit) :
    Excl { s.setPc p .finish with block := [] } A := by
  have hin : ∀ q, ((s.setPc p .finish).pc q).inCommit = true → (s.pc q).inCommit = true := by
    intro q hq
    by_cases hqp : q = p
    · subst hqp; rw [hpc]; rfl
    · simpa [hqp] using hq
  refine ⟨fun q => ?_, h.card, fun q hq => h.commits q (hin q hq),
    fun q r hq hr => h.one q r (hin q hq) (hin r hr), h.idle⟩
  by_cases hqp : q = p
  · subst hqp; simp [Pc.active, h.mem, hpc]
  · simpa [hqp] using h.mem q

theorem excl_finish (h : Excl s A) (hb : finish s p = .ok s') :
    s.pc p = .finish ∧ Excl s' A ∧ s'.block = s.block ∧
      (∀ q c, s'.pc q = .checked c → s.pc q = .checked c) ∧ ∀ q, s'.pc q ≠ .commit := by
  unfold finish at hb
  split at hb
  case isFalse => simp at hb
  case isTrue hpc =>
  cases hb
  -- `log.committing` is cleared by the one process that is committing
  have hnone : ∀ q, ((s.setPc p .out).pc q).inCommit = false := by
    intro q
    by_cases hqp : q = p
    · subst hqp; simp [Pc.inCommit]
    · by_contra hq
      exact hqp (h.one q p (by simpa [hqp] using hq) (by rw [hpc]; rfl))
  have hx : Excl { s.setPc p .out with committing := false } A := by
    refine ⟨fun q => ?_, h.card, fun q hq => ?_, fun q _ hq => ?_, by simp⟩
    · by_cases hqp : q = p
      · subst hqp; simp [Pc.active, h.mem, hpc]
      · simpa [hqp] using h.mem q
    · exact absurd hq (by rw [hnone q]; simp)
    · exact absurd hq (by rw [hnone q]; simp)
  refine ⟨hpc, hx.wakeup, rfl, fun q c hq => setPc_back (by simp) (wakeup_back (by simp) hq),
    fun q hq => ?_⟩
  have := hnone q
  rw [show (s.setPc p .out).pc q = .commit from wakeup_back (by simp) hq] at this
  simp [Pc.inCommit] at this

/-! ## The protocol -/

variable {l : List Nat}

theorem mem_absorb {c : Nat} : c ∈ absorb l b ↔ c = b ∨ c ∈ l := by
  unfold absorb
  split
  · next h => constructor
              · exact Or.inr
              · rintro (rfl | hc)
                · exact h
                · exact hc
  · simp [or_comm]

theorem nodup_absorb (h : l.Nodup) : (absorb l b).Nodup := by
  unfold absorb
  split
  · exact h
  · next hb => exact List.nodup_append.2 ⟨h, by simp,
      by rintro x hx y hy rfl; simp at hy; exact hb (hy ▸ hx)⟩

theorem length_le_absorb (l : List Nat) (b : Nat) : l.length ≤ (absorb l b).length := by
  unfold absorb
  split
  · exact le_refl _
  · rw [List.length_append]
    exact Nat.le_add_right ..

/-- What keeps a process in `begin_op`. -/
def St.full (s : St) : Prop :=
  s.committing = true ∨ LOGSIZE < s.block.length + (s.outstanding + 1) * MAXOPBLOCKS

/-- What holds of a run whatever its operations log. -/
structure Proto (tr : List Ev) (s : St) (A : Finset Nat) : Prop extends Excl s A where
  nodup : s.block.Nodup
  logged : ∀ b, b ∈ s.block ↔ b ∈ txLogged tr
  loggedNodup : (txLogged tr).Nodup
  sleepers : ∀ p, s.pc p = .asleep → s.full

variable {tr : List Ev}

theorem proto_init : Proto [] init ∅ where
  toExcl := excl_init
  nodup := by simp [init]
  logged b := by simp [init, txLogged]
  loggedNodup := by simp [txLogged]
  sleepers p h := by simp [init] at h

theorem proto_begin (hP : Proto tr s A) (h : beginOp s p = .ok s') :
    p ∉ A ∧ (s' = s.setPc p .asleep ∧ Proto (.begin p :: tr) s' A ∨
      s' = { s.setPc p .tx with outstanding := s.outstanding + 1 } ∧
        s.block.length + (s.outstanding + 1) * MAXOPBLOCKS ≤ LOGSIZE ∧
          Proto (.begin p :: tr) s' (insert p A)) := by
  obtain ⟨hp, -, hcases⟩ := begin_cases hP.toExcl h
  refine ⟨hp, ?_⟩
  rcases hcases with ⟨rfl, hfull⟩ | ⟨rfl, hcm, hroom⟩
  · refine Or.inl ⟨rfl, excl_asleep hP.toExcl hp, hP.nodup, hP.logged,
      hP.loggedNodup, fun q hq => ?_⟩
    by_cases hqp : q = p
    · exact hfull
    · exact hP.sleepers q (by simpa [hqp] using hq)
  · refine Or.inr ⟨rfl, hroom, excl_enter hP.toExcl hp hcm, hP.nodup, hP.logged,
      hP.loggedNodup, fun q hq => ?_⟩
    -- the room that a sleeper lacks does not grow
    refine (hP.sleepers q (setPc_back (by simp) hq)).imp id fun hlt => ?_
    show LOGSIZE < s.block.length + (s.outstanding + 1 + 1) * MAXOPBLOCKS
    omega

theorem proto_check (hP : Proto tr s A) (h : logWriteCheck size s p b = .ok s') :
    Proto (.check p b :: tr) s' A := by
  obtain ⟨hpc, -, rfl⟩ := check_cases h
  exact ⟨excl_check hP.toExcl hpc, hP.nodup, hP.logged, hP.loggedNodup,
    fun q hq => hP.sleepers q (setPc_back (by simp) hq)⟩

theorem proto_append (hP : Proto tr s A) (h : logWriteAppend s p b = .ok s') :
    Proto (.append p b :: tr) s' A := by
  obtain ⟨hpc, rfl⟩ := append_cases h
  refine ⟨excl_append hP.toExcl hpc, nodup_absorb hP.nodup, fun c => ?_,
    hP.loggedNodup.insert, fun q hq => ?_⟩
  · simp only [mem_absorb, txLogged, List.mem_insert_iff, hP.logged]
  · refine (hP.sleepers q (setPc_back (by simp) hq)).imp id fun hlt => ?_
    exact Nat.lt_of_lt_of_le hlt (Nat.add_le_add_right (length_le_absorb s.block b) _)

theorem wakeup_not_asleep (s : St) (q : Nat) : s.wakeup.pc q ≠ .asleep := by
  unfold St.wakeup
  dsimp only
  split
  · simp
  · assumption

theorem proto_endOp (hP : Proto tr s A) (h : endOp s p = .ok s') :
    Proto (.endOp p :: tr) s' (A.erase p) := by
  obtain ⟨hp, hx, hblock, -⟩ := excl_endOp hP.toExcl h
  refine ⟨hx, hblock ▸ hP.nodup, hblock ▸ hP.logged, hP.loggedNodup, fun q hq => ?_⟩
  unfold endOp at h
  split at h
  case isFalse => simp at h
  split at h
  · simp at h
  split at h
  · cases h
    exact Or.inl rfl
  · cases h
    exact absurd hq (wakeup_not_asleep _ q)

theorem proto_commit (hP : Proto tr s A) (h : commit s p = .ok s') :
    Proto (.commit p :: tr) s' A := by
  obtain ⟨hpc, -, rfl⟩ := commit_cases hP.toExcl h
  exact ⟨excl_commit hP.toExcl hpc, by simp, by simp [txLogged], by simp [txLogged],
    fun _ _ => Or.inl (hP.commits p (by rw [hpc]; rfl))⟩

theorem proto_finish (hP : Proto tr s A) (h : finish s p = .ok s') :
    Proto (.finish p :: tr) s' A := by
  obtain ⟨-, hx, hblock, -⟩ := excl_finish hP.toExcl h
  refine ⟨hx, hblock ▸ hP.nodup, hblock ▸ hP.logged, hP.loggedNodup, fun q hq => ?_⟩
  unfold finish at h
  split at h
  · cases h
    exact absurd hq (wakeup_not_asleep _ q)
  · simp at h

variable {e : Ev}

theorem run_cons (h : run size (e :: tr) = .ok s') :
    ∃ s, run size tr = .ok s ∧ step size s e = .ok s' := by
  simp only [run, bind, Except.bind] at h
  split at h
  · simp at h
  · next s hs => exact ⟨s, hs, h⟩

theorem protocol : ∀ {tr : List Ev} {s : St}, run size tr = .ok s → ∃ A, Proto tr s A
  | [], s, h => by
    cases h; exact ⟨∅, proto_init⟩
  | e :: tr, s', h => by
    obtain ⟨s, hs, hstep⟩ := run_cons h
    obtain ⟨A, hP⟩ := protocol hs
    cases e with
    | begin p =>
      obtain ⟨-, ⟨-, hP'⟩ | ⟨-, -, hP'⟩⟩ := proto_begin hP hstep
      · exact ⟨_, hP'⟩
      · exact ⟨_, hP'⟩
    | check p b => exact ⟨A, proto_check hP hstep⟩
    | append p b => exact ⟨A, proto_append hP hstep⟩
    | endOp p => exact ⟨_, proto_endOp hP hstep⟩
    | commit p => exact ⟨A, proto_commit hP hstep⟩
    | finish p => exact ⟨A, proto_finish hP hstep⟩

/-- Neither of the two panics about the protocol. -/
theorem step_protocol {x : Stop} (hP : Proto tr s A) (h : step size s e = .error x) :
    x ≠ .committing ∧ x ≠ .outsideTrans := by
  have hopen : ∀ p, s.pc p = .tx → s.committing = false ∧ 1 ≤ s.outstanding := fun p hpc => by
    have hp : p ∈ A := by rw [hP.mem, hpc]; rfl
    refine ⟨?_, by rw [hP.card]; exact Finset.card_pos.2 ⟨p, hp⟩⟩
    by_contra hc
    rw [hP.idle (by simpa using hc)] at hp
    simp at hp
  cases e with
  | begin p =>
    simp only [step, beginOp] at h
    split at h <;> (try split at h) <;> (try split at h) <;> cases h; simp
  | check p b =>
    simp only [step, logWriteCheck] at h
    split at h
    case isFalse => cases h; simp
    case isTrue hpc =>
    split at h
    · cases h; simp
    · rw [if_neg (by have := (hopen p hpc).2; omega)] at h
      cases h
  | append p b => simp only [step, logWriteAppend] at h; split at h <;> cases h; simp
  | endOp p =>
    simp only [step, endOp] at h
    split at h
    case isFalse => cases h; simp
    case isTrue hpc =>
    rw [if_neg (by simp [(hopen p hpc).1])] at h
    split at h <;> cases h
  | commit p => simp only [step, commit] at h; split at h <;> cases h; simp
  | finish p => simp only [step, finish] at h; split at h <;> cases h; simp

theorem run_protocol : ∀ {tr : List Ev} {x : Stop}, run size tr = .error x →
    x ≠ .committing ∧ x ≠ .outsideTrans
  | [], _, h => by cases h
  | e :: tr, x, h => by
    simp only [run, bind, Except.bind] at h
    split at h
    · next hs =>
      cases h
      exact run_protocol hs
    · next s hs =>
      obtain ⟨A, hP⟩ := protocol hs
      exact step_protocol hP h

/-- **The log protocol**, for any number of processes: commits exclude operations and each other,
the list is the set of blocks logged since the last commit, without repetitions, and a process that
sleeps in `begin_op` has to. -/
theorem log_protocol (size : Nat) (tr : List Ev) :
    run size tr ≠ .error .committing ∧ run size tr ≠ .error .outsideTrans ∧
    ∀ s, run size tr = .ok s →
      (s.committing = true → s.outstanding = 0 ∧ ∀ p b, logWriteAppend s p b = .error .disabled) ∧
      (∀ p q, (s.pc p).inCommit = true → (s.pc q).inCommit = true → p = q) ∧
      s.block.Nodup ∧ (∀ b, b ∈ s.block ↔ b ∈ txLogged tr) ∧
      ∀ p, s.pc p = .asleep → s.committing = true ∨
      LOGSIZE < s.block.length + (s.outstanding + 1) * MAXOPBLOCKS := by
  refine ⟨fun h => (run_protocol h).1 rfl, fun h => (run_protocol h).2 rfl, fun s h => ?_⟩
  obtain ⟨A, hP⟩ := protocol h
  refine ⟨fun hc => ?_, hP.one, hP.nodup, hP.logged, hP.sleepers⟩
  have hA := hP.idle hc
  refine ⟨by rw [hP.card, hA]; rfl, fun p b => if_neg fun hpc => ?_⟩
  have hp : p ∈ A := by rw [hP.mem, hpc]; rfl
  rw [hA] at hp
  simp at hp

theorem length_block (hP : Proto tr s A) : s.block.length = (txLogged tr).length :=
  ((List.perm_ext_iff_of_nodup hP.nodup hP.loggedNodup).2 hP.logged).length_eq

/-! ## The quotas -/

structure Inv (tr : List Ev) (s : St) (A : Finset Nat) : Prop extends Proto tr s A where
  call : ∀ p b, s.pc p = .checked b → ((opLogged p tr).insert b).length ≤ MAXOPBLOCKS
  opNodup : ∀ p ∈ A, (opLogged p tr).Nodup
  opLogged : ∀ p ∈ A, ∀ b ∈ Log.opLogged p tr, b ∈ s.block
  /-- what is listed plus what the open operations may still list fits -/
  room : s.block.length + ∑ p ∈ A, (MAXOPBLOCKS - (Log.opLogged p tr).length) ≤ LOGSIZE

theorem inv_init : Inv [] init ∅ where
  toProto := proto_init
  call p b h := by simp [init] at h
  opNodup p hp := by simp at hp
  opLogged p hp := by simp at hp
  room := by simp [init]

theorem sum_quota_le (f : Nat → List Nat) (A : Finset Nat) :
    ∑ q ∈ A, (MAXOPBLOCKS - (f q).length) ≤ A.card * MAXOPBLOCKS := by
  calc ∑ q ∈ A, (MAXOPBLOCKS - (f q).length) ≤ ∑ _q ∈ A, MAXOPBLOCKS :=
        Finset.sum_le_sum fun q _ => Nat.sub_le _ _
    _ = A.card * MAXOPBLOCKS := by simp

theorem opLogged_begin_ne (h : q ≠ p) (tr : List Ev) :
    opLogged q (.begin p :: tr) = opLogged q tr := by simp [opLogged, Ne.symm h]

theorem opLogged_append_ne (h : q ≠ p) (tr : List Ev) :
    opLogged q (.append p b :: tr) = opLogged q tr := by simp [opLogged, Ne.symm h]

section

variable (hI : Inv tr s A)
include hI

theorem inv_begin (h : beginOp s p = .ok s') :
    ∃ A', Inv (.begin p :: tr) s' A' := by
  obtain ⟨hp, hcases⟩ := proto_begin hI.toProto h
  have keep : ∀ q ∈ A, opLogged q (.begin p :: tr) = opLogged q tr :=
    fun q hq => opLogged_begin_ne (by rintro rfl; exact hp hq) tr
  have hcall : ∀ c : Pc, (∀ b, c ≠ .checked b) → ∀ q b, (s.setPc p c).pc q = .checked b →
      ((opLogged q (.begin p :: tr)).insert b).length ≤ MAXOPBLOCKS := by
    intro c hc q b hq
    by_cases hqp : q = p
    · subst hqp; simp [hc] at hq
    · rw [opLogged_begin_ne hqp]; exact hI.call q b (setPc_back (hc b) hq)
  rcases hcases with ⟨rfl, hP⟩ | ⟨rfl, hroom, hP⟩
  · refine ⟨A, hP, hcall _ (by simp), ?_, ?_, ?_⟩
    · intro q hq; rw [keep q hq]; exact hI.opNodup q hq
    · intro q hq; rw [keep q hq]; exact hI.opLogged q hq
    · rw [Finset.sum_congr rfl fun q hq => congrArg (fun l => MAXOPBLOCKS - l.length) (keep q hq)]
      exact hI.room
  · refine ⟨insert p A, hP, hcall _ (by simp), ?_, ?_, ?_⟩
    · intro q hq
      rcases Finset.mem_insert.1 hq with rfl | hq
      · simp [opLogged]
      · rw [keep q hq]; exact hI.opNodup q hq
    · intro q hq
      rcases Finset.mem_insert.1 hq with rfl | hq
      · simp [opLogged]
      · rw [keep q hq]; exact hI.opLogged q hq
    · have h1 := sum_quota_le (fun q => opLogged q (.begin p :: tr)) (insert p A)
      rw [Finset.card_insert_of_notMem hp, ← hI.card] at h1
      simp only [St.setPc] at *
      omega

theorem inv_append (h : logWriteAppend s p b = .ok s') : Inv (.append p b :: tr) s' A := by
  have hP := proto_append hI.toProto h
  obtain ⟨hpc, rfl⟩ := append_cases h
  have hp : p ∈ A := by rw [hI.mem, hpc]; rfl
  have hquota := hI.call p b hpc
  have hown : opLogged p (.append p b :: tr) = (opLogged p tr).insert b := by simp [opLogged]
  refine ⟨hP, fun q c hq => ?_, ?_, ?_, ?_⟩
  · by_cases hqp : q = p
    · subst hqp; simp at hq
    · rw [opLogged_append_ne hqp]; exact hI.call q c (by simpa [hqp] using hq)
  · intro q hqA
    by_cases hqp : q = p
    · subst hqp; rw [hown]; exact (hI.opNodup q hqA).insert
    · rw [opLogged_append_ne hqp]; exact hI.opNodup q hqA
  · intro q hqA c hc
    simp only [mem_absorb]
    by_cases hqp : q = p
    · subst hqp
      rw [hown, List.mem_insert_iff] at hc
      exact hc.imp_right (hI.opLogged q hqA c)
    · rw [opLogged_append_ne hqp] at hc; exact Or.inr (hI.opLogged q hqA c hc)
  · -- only `p`'s share moves: a newly listed block is one `p` had not listed before
    have hsplit := fun g : Nat → Nat => (Finset.add_sum_erase A g hp).symm
    have hrest : ∑ q ∈ A.erase p, (MAXOPBLOCKS - (opLogged q (.append p b :: tr)).length) =
        ∑ q ∈ A.erase p, (MAXOPBLOCKS - (opLogged q tr).length) :=
      Finset.sum_congr rfl fun q hqe => by rw [opLogged_append_ne (Finset.ne_of_mem_erase hqe)]
    have hroom := hI.room
    rw [hsplit] at hroom
    rw [hsplit, hrest, hown]
    simp only [absorb]
    by_cases hb : b ∈ s.block
    · have : (opLogged p tr).length ≤ ((opLogged p tr).insert b).length :=
        List.length_le_length_insert
      simp only [hb, ↓reduceIte]
      omega
    · have hnb : b ∉ opLogged p tr := fun hm => hb (hI.opLogged p hp b hm)
      rw [List.length_insert_of_not_mem hnb] at hquota ⊢
      simp only [hb, ↓reduceIte, List.length_append, List.length_singleton]
      omega

theorem inv_check (hq : withinQuota (.check p b :: tr) = true)
    (h : logWriteCheck size s p b = .ok s') :
    Inv (.check p b :: tr) s' A := by
  have hP := proto_check hI.toProto h
  obtain ⟨hpc, -, rfl⟩ := check_cases h
  refine ⟨hP, fun q c hqc => ?_, hI.opNodup, hI.opLogged, hI.room⟩
  by_cases hqp : q = p
  · subst hqp
    have hc : b = c := by simpa using hqc
    subst hc
    simp only [withinQuota, Bool.and_eq_true, decide_eq_true_eq] at hq
    exact hq.1
  · exact hI.call q c (by simpa [hqp] using hqc)

theorem inv_endOp (h : endOp s p = .ok s') : Inv (.endOp p :: tr) s' (A.erase p) := by
  obtain ⟨hp, -, hblock, hchecked, -⟩ := excl_endOp hI.toExcl h
  have hroom : s.block.length + ∑ q ∈ A.erase p,
      (MAXOPBLOCKS - (opLogged q tr).length) ≤ LOGSIZE := by
    have := Finset.add_sum_erase A (fun q => MAXOPBLOCKS - (opLogged q tr).length) hp
    have := hI.room
    omega
  exact ⟨proto_endOp hI.toProto h, fun q c hq => hI.call q c (hchecked q c hq),
    fun q hq => hI.opNodup q (Finset.mem_of_mem_erase hq),
    fun q hq => hblock ▸ hI.opLogged q (Finset.mem_of_mem_erase hq), hblock ▸ hroom⟩

theorem inv_commit (h : commit s p = .ok s') : Inv (.commit p :: tr) s' A := by
  have hP := proto_commit hI.toProto h
  obtain ⟨hpc, rfl, rfl⟩ := commit_cases hI.toExcl h
  exact ⟨hP, fun q c hq => hI.call q c (setPc_back (by simp) hq), by simp, by simp, by simp⟩

theorem inv_finish (h : finish s p = .ok s') : Inv (.finish p :: tr) s' A := by
  obtain ⟨-, -, hblock, hchecked, -⟩ := excl_finish hI.toExcl h
  exact ⟨proto_finish hI.toProto h, fun q c hq => hI.call q c (hchecked q c hq), hI.opNodup,
    hblock ▸ hI.opLogged, hblock ▸ hI.room⟩

end

theorem withinQuota_tail (h : withinQuota (e :: tr) = true) : withinQuota tr = true := by
  cases e with
  | check p b => simp only [withinQuota, Bool.and_eq_true] at h; exact h.2
  | _ => exact h

/-- **The reservation.** In every run whose operations stay within their quota there is a set of
open operations such that the listed blocks and the unused quotas together fit in `LOGSIZE`. -/
theorem reservation : ∀ {tr : List Ev} {s : St}, run size tr = .ok s → withinQuota tr = true →
    ∃ A, Inv tr s A
  | [], s, h, _ => by
    cases h; exact ⟨∅, inv_init⟩
  | e :: tr, s', h, hq => by
    obtain ⟨s, hs, hstep⟩ := run_cons h
    obtain ⟨A, hI⟩ := reservation hs (withinQuota_tail hq)
    cases e with
    | begin p => exact inv_begin hI hstep
    | check p b => exact ⟨A, inv_check hI hq hstep⟩
    | append p b => exact ⟨A, inv_append hI hstep⟩
    | endOp p => exact ⟨_, inv_endOp hI hstep⟩
    | commit p => exact ⟨A, inv_commit hI hstep⟩
    | finish p => exact ⟨A, inv_finish hI hstep⟩

/-! ## When `log_write` finds the transaction too big -/

theorem step_tooBig (h : step size s e = .error .tooBig) :
    ∃ p b, e = .check p b ∧ (LOGSIZE ≤ s.block.length ∨ size - 1 ≤ s.block.length) := by
  cases e with
  | check p b =>
    refine ⟨p, b, rfl, ?_⟩
    simp only [step, logWriteCheck] at h
    split at h
    · split at h
      · assumption
      · split at h <;> simp at h
    · simp at h
  | begin p =>
    simp only [step, beginOp] at h
    split at h <;> (try split at h) <;> (try split at h) <;> simp at h
  | append p b => simp only [step, logWriteAppend] at h; split at h <;> simp at h
  | endOp p =>
    simp only [step, endOp] at h; split at h <;> (try split at h) <;> (try split at h) <;> simp at h
  | commit p => simp only [step, commit] at h; split at h <;> simp at h
  | finish p => simp only [step, finish] at h; split at h <;> simp at h

/-- A schedule that nothing but `panic("too big a transaction")` can stop. -/
theorem tooBig_iff : ∀ tr : List Ev, (∀ e, run LOGSIZE tr = .error e → e = .tooBig) →
    (run LOGSIZE tr ≠ .error .tooBig ↔ roomAtCalls tr = true)
  | [], _ => by simp [run, roomAtCalls]
  | e :: tr, hsched => by
    have hrest : roomAtCalls (e :: tr) = true → roomAtCalls tr = true := by
      cases e with
      | check p b => intro h; simp only [roomAtCalls, Bool.and_eq_true] at h; exact h.2
      | _ => exact id
    have herr : ∀ x, run LOGSIZE tr = .error x → run LOGSIZE (e :: tr) = .error x := by
      intro x hx; simp only [run, hx]; rfl
    have ih := tooBig_iff tr fun x hx => hsched x (herr x hx)
    cases htr : run LOGSIZE tr with
    | error x =>
      obtain rfl : x = .tooBig := hsched x (herr x htr)
      rw [herr _ htr]
      exact ⟨fun h => absurd rfl h, fun h => absurd htr (ih.2 (hrest h))⟩
    | ok s =>
      obtain ⟨A, hP⟩ := protocol htr
      have hroom : roomAtCalls tr = true := ih.1 (by simp [htr])
      have hstep : run LOGSIZE (e :: tr) = step LOGSIZE s e := by simp only [run, htr]; rfl
      rw [hstep]
      constructor
      · intro hne
        cases e with
        | check p b =>
          cases hs : step LOGSIZE s (.check p b) with
          | error x => exact absurd (hs.trans (congrArg _ (hsched x (hstep.trans hs)))) hne
          | ok s' =>
            have := (check_cases hs).2.1
            rw [length_block hP] at this
            simp only [roomAtCalls, Bool.and_eq_true, decide_eq_true_eq]
            exact ⟨this, hroom⟩
        | _ => exact hroom
      · intro hr hs
        obtain ⟨p, b, rfl, hfull⟩ := step_tooBig hs
        simp only [roomAtCalls, Bool.and_eq_true, decide_eq_true_eq] at hr
        rw [length_block hP] at hfull
        omega

/-- **`log_write` and the log mkfs makes.** Any schedule of `begin_op`, `log_write` and `end_op`
steps in which each operation logs at most `MAXOPBLOCKS` distinct blocks runs without
`panic("too big a transaction")` exactly when each `log_write` of it finds fewer than `LOGSIZE - 1`
distinct blocks logged since the last commit. (A list of events is a schedule when each step is one
its process can take: nothing but that panic stops it.) What the quota gives is a block more: the
list never has more than `LOGSIZE`. -/
theorem run_tooBig_iff (tr : List Ev) (hq : withinQuota tr = true)
    (hsched : ∀ e, run LOGSIZE tr = .error e → e = .tooBig) :
    (run LOGSIZE tr ≠ .error .tooBig ↔ roomAtCalls tr = true) ∧
    ∀ s, run LOGSIZE tr = .ok s → s.block.length ≤ LOGSIZE := by
  refine ⟨tooBig_iff tr hsched, fun s hs => ?_⟩
  obtain ⟨A, hI⟩ := reservation hs hq
  exact (Nat.le_add_right ..).trans hI.room

/-- Process `p` logs the blocks of `l` (latest first), one `log_write` each. -/
def logs (p : Nat) (l : List Nat) : List Ev := l.flatMap fun b => [.append p b, .check p b]

/-- Three operations are admitted together and log ten distinct blocks each; the last `log_write`
finds `log.lh.n = log.size - 1`. -/
def threeFull : List Ev :=
  .check 2 29 :: logs 2 [28, 27, 26, 25, 24, 23, 22, 21, 20] ++
    logs 1 [19, 18, 17, 16, 15, 14, 13, 12, 11, 10] ++ logs 0 [9, 8, 7, 6, 5, 4, 3, 2, 1, 0] ++
    [.begin 2, .begin 1, .begin 0]

theorem threeFull_tooBig :
    withinQuota threeFull = true ∧ run LOGSIZE threeFull = .error .tooBig := by
  constructor
  · decide
  · rfl

/-- One operation, logging block 3 twice and block 2 once. -/
theorem run_tooBig_iff_one : run LOGSIZE (logs 0 [3, 2, 3] ++ [.begin 0]) ≠ .error .tooBig ∧
    ∀ s, run LOGSIZE (logs 0 [3, 2, 3] ++ [.begin 0]) = .ok s → s.block.length ≤ LOGSIZE := by
  have h := run_tooBig_iff (logs 0 [3, 2, 3] ++ [.begin 0]) (by decide) fun e h => by cases h
  exact ⟨h.1.2 (by decide), h.2⟩

end Os4.Log
