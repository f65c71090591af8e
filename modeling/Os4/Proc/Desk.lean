import Mathlib.Algebra.BigOperators.Fin
import Os4.Proc.Isolation
import Os4.Proc.Steps
/-!
# What a call has of open files in hand

| here | there |
| --- | --- |
| `slots o k` | the descriptors in `proc->ofile` that point to `k` |
| `fills`, `frees` | how often `pipealloc` has set up a pipe at a page, and `pipeclose` freed it, in a run |
| `Job.onFiles` | the calls that open, close or copy descriptors |
| `does_*` | what a step of file.c or pipe.c takes from the desk and leaves |

A call has references in local variables: between `filealloc` and `fdalloc`, in `fork` before the
child gets its descriptors, in `sys_close` after `proc->ofile[fd] = 0`. Its `Desk` says which; with
the desks of all calls the references of a file add up to `ref` (`Refs`), and the pipes that stand
are those set up and not freed (`Pages`).

The order of two steps differs from call to call. `exit` calls `fileclose` and then clears the
descriptor, `sys_close` the other way round; `sys_dup` sets the descriptor and then calls `filedup`.
A descriptor that is set and does not count is the `owing` of the desk.
-/
namespace Os4.Vm

open Prog
open Function (update_of_ne update_self update_eq_self forall_update_iff update)
open Multiset (mem_add mem_singleton_self mem_of_le count_zero count_cons)
open Finset (mem_univ add_sum_erase sum_congr)

def Job.onFiles : Job → Bool
  | .fork _ | .pipe _ | .close .. | .dup .. | .openFile .. | .exit _ => true
  | _ => false

def slots (o : Fin NOFILE → Option (Fin NFILE)) (k : Fin NFILE) : Nat :=
  ∑ fd, if o fd = some k then 1 else 0

abbrev Record := List (Caller × Point)

def fills (b : Frame) (r : Record) : Nat := r.count (.other, .filled b)

def frees (b : Frame) (r : Record) : Nat := r.count (.other, .freed b)

/-! ## The invariant -/

/-- What a call has in its local variables. -/
structure Desk where
  /-- the descriptors of the process that count, once the call has looked at them -/
  fds : Option (Fin NOFILE → Option (Fin NFILE))
  /-- a descriptor that points to a file and does not count -/
  owing : Option (Fin NOFILE × Fin NFILE)
  refs : Multiset (Fin NFILE)
  /-- files from `filealloc` whose type has not been set -/
  fresh : List (Fin NFILE)
  /-- the end of a pipe that is about to be closed -/
  shut : Option (Frame × Bool)
  /-- a page for a new pipe -/
  page : Option Frame
  /-- the page of a pipe that is about to be freed -/
  free : Option Frame

/-- Between two calls. -/
def Desk.away : Desk := ⟨none, none, 0, [], none, none, none⟩

def Desk.lent (d : Desk) : Multiset Tok := endOf d.shut + heldOf d.page + heldOf d.free

/-- The references to `k` that process `x` has. -/
def Desk.hold (d : Desk) (x : Proc) (k : Fin NFILE) : Nat :=
  slots (d.fds.getD x.ofile) k + d.refs.count k

/-- The descriptors with the one that does not count. -/
def Desk.table (d : Desk) (o : Fin NOFILE → Option (Fin NFILE)) : Fin NOFILE → Option (Fin NFILE) :=
  match d.owing with
  | none => o
  | some (fd, k) => update o fd (some k)

/-- What a call knows about its process. -/
structure Desk.Sees (d : Desk) (x : Proc) (o : Fin NOFILE → Option (Fin NFILE)) : Prop where
  live : x.status = .live
  table : x.ofile = d.table o
  owing : ∀ fd k, d.owing = some (fd, k) → o fd = none

structure Refs (g : Fin NPROC → Option Job) (F : Fin NPROC → Desk) (s : St) : Prop where
  calls : ∀ i, F i = .away ∨ ∃ j, g i = some j ∧ j.onFiles = true
  sees : ∀ i o, (F i).fds = some o → (F i).Sees (s.procs i) o
  off : ∀ i, (s.procs i).status ≠ .live → (s.procs i).ofile = fun _ => none
  refs : ∀ k, (s.ftable k).ref = ∑ i, (F i).hold (s.procs i) k
  closed : ∀ k, (s.ftable k).ref = 0 → (s.ftable k).type = .none
  fresh : ∀ i, ∀ k ∈ (F i).fresh, (s.ftable k).ref = 1 ∧ (s.ftable k).type = .none ∧
    0 < (F i).hold (s.procs i) k

/-- A file or a call has the end `w` of the pipe at `b`. -/
def Owned (F : Fin NPROC → Desk) (s : St) (b : Frame) (w : Bool) : Prop :=
  (∃ k, (s.ftable k).type = .pipe b w) ∨ ∃ i, (F i).shut = some (b, w)

open Classical in
/-- The number of pipes at `b` that have not been freed. -/
noncomputable def standing (F : Fin NPROC → Desk) (s : St) (b : Frame) : Nat :=
  (if ∃ w, Owned F s b w then 1 else 0) + ∑ i, if (F i).free = some b then 1 else 0

structure Pages (F : Fin NPROC → Desk) (s : St) (r : Record) : Prop where
  ends : ∀ b w w', Owned F s b w' → s.isopen b w = true → Owned F s b w
  count : ∀ b, fills b r = frees b r + standing F s b

def filing : Notes (Fin NPROC → Option Job) Tok St Panic (Caller × Point) (Fin NPROC) Desk where
  lent := Desk.lent
  inv g F s r := Refs g F s ∧ Pages F s r
  keeps l s r := ∀ b, l.2 = .freed b → (∀ k w, (s.ftable k).type ≠ .pipe b w) ∧
    fills b r = frees b r + 1
  fine _ e := e ≠ .filedup ∧ e ≠ .fileclose

variable {L : Layout} {P : (Fin NPROC → Option Job) → Prop} {α β : Type} {A B M : Multiset Tok}
  {s s' : St} {r : Record}
  {g : Fin NPROC → Option Job} {F F' : Fin NPROC → Desk} {d d' : Desk} {dir b : Frame}
  {p q i : Fin NPROC} {x y : Proc}
  {o : Fin NOFILE → Option (Fin NFILE)} {w : Option (Fin NOFILE × Fin NFILE)}
  {R : Multiset (Fin NFILE)} {fr : List (Fin NFILE)}
  {k k' f0 f1 : Fin NFILE} {fd : Fin NOFILE} {wr : Bool}

/-! ## Counting -/

theorem slots_set (o : Fin NOFILE → Option (Fin NFILE)) (fd : Fin NOFILE)
    (a : Option (Fin NFILE)) (k : Fin NFILE) :
    slots (update o fd a) k + (if o fd = some k then 1 else 0) = slots o k + if a = some k then 1
    else 0 :=
  sum_update_add (fun a => if a = some k then 1 else 0) o fd a

theorem slots_none : slots (fun _ => none) k = 0 := Finset.sum_eq_zero fun _ _ => if_neg nofun

theorem hold_congr (h : y.ofile = x.ofile) : d.hold y k = d.hold x k := by
  unfold Desk.hold
  rw [h]

theorem total_update (h : ∀ i, i ≠ p → (s'.procs i).ofile = (s.procs i).ofile) (k : Fin NFILE) :
    ∑ i, (update F p d i).hold (s'.procs i) k + (F p).hold (s.procs p) k =
      ∑ i, (F i).hold (s.procs i) k + d.hold (s'.procs p) k := by
  have hrest : ∑ i ∈ Finset.univ.erase p, (update F p d i).hold (s'.procs i) k =
      ∑ i ∈ Finset.univ.erase p, (F i).hold (s.procs i) k := sum_congr rfl fun i hi => by
    rw [update_of_ne (Finset.ne_of_mem_erase hi), hold_congr (h i (Finset.ne_of_mem_erase hi))]
  rw [← add_sum_erase _ _ (mem_univ p), hrest, update_self,
    ← add_sum_erase Finset.univ (fun i => (F i).hold (s.procs i) k) (mem_univ p)]
  omega

section

variable (hR : Refs g F s)
include hR

theorem Refs.hold_le (i : Fin NPROC) (k : Fin NFILE) :
    (F i).hold (s.procs i) k ≤ (s.ftable k).ref := by
  rw [hR.refs k, ← add_sum_erase _ _ (mem_univ i)]
  exact Nat.le_add_right ..

theorem Refs.hold_add_le {j : Fin NPROC} (hij : i ≠ j) (k : Fin NFILE) :
    (F i).hold (s.procs i) k + (F j).hold (s.procs j) k ≤ (s.ftable k).ref := by
  rw [hR.refs k, ← add_sum_erase _ _ (mem_univ i),
    ← add_sum_erase _ _ (Finset.mem_erase.2 ⟨hij.symm, mem_univ j⟩)]
  exact Nat.add_le_add_left (Nat.le_add_right ..) _

/-- A file that is fresh for one process is in no other's hands. -/
theorem Refs.fresh_other (hi : i ≠ p) (hk : k ∈ (F i).fresh) : (F p).hold (s.procs p) k = 0 := by
  obtain ⟨hone, -, hpos⟩ := hR.fresh i k hk
  have := hR.hold_add_le hi k
  omega

theorem Refs.turn (hcalls : d = .away ∨ ∃ j, g p = some j ∧ j.onFiles = true)
    (hothers : ∀ i, i ≠ p → ((s'.procs i).status = .live ↔ (s.procs i).status = .live) ∧
      (s'.procs i).ofile = (s.procs i).ofile)
    (hoff : (s'.procs p).status ≠ .live → (s'.procs p).ofile = fun _ => none)
    (hsees : ∀ o, d.fds = some o → d.Sees (s'.procs p) o)
    (hrefs : ∀ k, (s'.ftable k).ref + (F p).hold (s.procs p) k =
      (s.ftable k).ref + d.hold (s'.procs p) k)
    (hfile : ∀ k, (F p).hold (s.procs p) k = 0 → (s.ftable k).ref ≠ 0 → s'.ftable k = s.ftable k)
    (hclosed : ∀ k, (s'.ftable k).ref = 0 → (s'.ftable k).type = .none)
    (hfresh : ∀ k ∈ d.fresh, (s'.ftable k).ref = 1 ∧ (s'.ftable k).type = .none ∧
      0 < d.hold (s'.procs p) k) :
    Refs g (update F p d) s' := by
  refine ⟨fun i => ?_, fun i o ho => ?_, fun i hi => ?_, fun k => ?_, hclosed, fun i k hk => ?_⟩
  · by_cases hi : i = p
    · rwa [hi, update_self]
    · rw [update_of_ne hi]
      exact hR.calls i
  · by_cases hi : i = p
    · rw [hi, update_self] at ho ⊢
      exact hsees o ho
    · rw [update_of_ne hi] at ho ⊢
      obtain ⟨hlive, htable, howing⟩ := hR.sees i o ho
      exact ⟨(hothers i hi).1.2 hlive, (hothers i hi).2.trans htable, howing⟩
  · by_cases hip : i = p
    · subst hip
      exact hoff hi
    · rw [(hothers i hip).2]
      exact hR.off i fun h => hi ((hothers i hip).1.2 h)
  · have htotal : ∑ i, (update F p d i).hold (s'.procs i) k + (F p).hold (s.procs p) k =
        ∑ i, (F i).hold (s.procs i) k + d.hold (s'.procs p) k :=
          total_update (fun i hi => (hothers i hi).2) k
    have hstep := hrefs k
    rw [hR.refs k] at hstep
    omega
  · by_cases hi : i = p
    · rw [hi, update_self] at hk ⊢
      exact hfresh k hk
    · rw [update_of_ne hi] at hk ⊢
      obtain ⟨hone, htype, hpos⟩ := hR.fresh i k hk
      rw [hfile k (hR.fresh_other hi hk) (by omega), hold_congr (hothers i hi).2]
      exact ⟨hone, htype, hpos⟩

theorem Refs.restate (hcalls : d = .away ∨ ∃ j, g p = some j ∧ j.onFiles = true)
    (hsees : ∀ o, d.fds = some o → d.Sees (s.procs p) o)
    (hhold : ∀ k, d.hold (s.procs p) k = (F p).hold (s.procs p) k)
    (hfresh : ∀ k ∈ d.fresh, k ∈ (F p).fresh) : Refs g (update F p d) s := by
  refine hR.turn hcalls (fun _ _ => ⟨Iff.rfl, rfl⟩) (hR.off p) hsees (fun k => by rw [hhold])
    (fun _ _ _ => rfl) hR.closed
    fun k hk => ?_
  rw [hhold]
  exact hR.fresh p k (hfresh k hk)

theorem Refs.sees_of (hi : F p = d) (ho : d'.fds = d.fds) (hw : d'.owing = d.owing)
    (o' : Fin NOFILE → Option (Fin NFILE)) (ho' : d'.fds = some o') : d'.Sees (s.procs p) o' := by
  subst hi
  obtain ⟨hlive, htable, howing⟩ := hR.sees p o' (ho ▸ ho')
  refine ⟨hlive, ?_, fun fd k h => howing fd k (hw ▸ h)⟩
  rw [htable]
  unfold Desk.table
  rw [hw]

theorem Refs.retell (hcalls : ∃ j, g p = some j ∧ j.onFiles = true) (hi : F p = d)
    (hfds : d'.fds = d.fds)
    (howing : d'.owing = d.owing) (hrefs : d'.refs = d.refs) (hfresh : d'.fresh = d.fresh) :
    Refs g (update F p d') s := by
  subst hi
  refine hR.restate (.inr hcalls) (hR.sees_of rfl hfds howing) (fun k => ?_) fun k hk => hfresh ▸ hk
  unfold Desk.hold
  rw [hfds, hrefs]

theorem Refs.ends {e : Frame → Bool → Bool} : Refs g F { s with isopen := e } :=
  ⟨hR.calls, hR.sees, hR.off, hR.refs, hR.closed, hR.fresh⟩

end

/-! ## Pipes -/

theorem owned_congr (htype : ∀ k b w, (s'.ftable k).type = .pipe b w ↔
    (s.ftable k).type = .pipe b w)
    (hshut : ∀ i, (F' i).shut = (F i).shut) (b : Frame) (w : Bool) : Owned F' s' b w ↔
    Owned F s b w := by
  unfold Owned
  simp only [htype, hshut]

theorem standing_owned (h : ∃ w, Owned F s b w) :
    standing F s b = 1 + ∑ i, if (F i).free = some b then 1 else 0 := by
  unfold standing
  rw [if_pos h]

theorem standing_gone (h : ¬ ∃ w, Owned F s b w) :
    standing F s b = ∑ i, if (F i).free = some b then 1 else 0 := by
  unfold standing
  rw [if_neg h, zero_add]

theorem standing_congr (howned : (∃ w, Owned F' s' b w) ↔ ∃ w, Owned F s b w)
    (hfree : ∀ i, (F' i).free = some b ↔ (F i).free = some b) :
    standing F' s' b = standing F s b := by
  by_cases h : ∃ w, Owned F s b w
  · rw [standing_owned h, standing_owned (howned.2 h)]
    simp only [hfree]
  · rw [standing_gone h, standing_gone fun h' => h (howned.1 h')]
    simp only [hfree]

theorem Pages.congr (hP : Pages F s r) (howned : ∀ b w, Owned F' s' b w ↔ Owned F s b w)
    (hopen : s'.isopen = s.isopen) (hfree : ∀ i, (F' i).free = (F i).free) : Pages F' s' r where
  ends b w w' := by
    rw [howned, howned, hopen]
    exact hP.ends b w w'
  count b := by
    rw [hP.count b, standing_congr (exists_congr (howned b)) fun i => by rw [hfree i]]

theorem Pages.record (hP : Pages F s r) {l : Caller × Point} (hl : l.2.off = true) :
    Pages F s (l :: r) := by
  have hne : ∀ b, l ≠ (.other, .filled b) ∧ l ≠ (.other, .freed b) := fun b => by
    constructor
    · rintro rfl
      cases hl
    · rintro rfl
      cases hl
  refine ⟨hP.ends, fun b => ?_⟩
  unfold fills frees
  rw [List.count_cons_of_ne (hne b).1, List.count_cons_of_ne (hne b).2]
  exact hP.count b

theorem Refs.same (hR : Refs g F s) (hs : Same s s') : Refs g F s' := by
  have hhold : ∀ i k, (F i).hold (s'.procs i) k = (F i).hold (s.procs i) k := fun i k =>
    hold_congr (hs.ofile i)
  refine ⟨hR.calls, fun i o ho => ?_, fun i hi => ?_, fun k => ?_, fun k hk => ?_, fun i k hk => ?_⟩
  · obtain ⟨hlive, htable, howing⟩ := hR.sees i o ho
    exact ⟨(hs.live i).2 hlive, (hs.ofile i).trans htable, howing⟩
  · rw [hs.ofile]
    exact hR.off i fun h => hi ((hs.live i).2 h)
  · rw [hs.ftable, hR.refs k]
    exact sum_congr rfl fun i _ => (hhold i k).symm
  · rw [hs.ftable] at hk ⊢
    exact hR.closed k hk
  · rw [hs.ftable, hhold]
    exact hR.fresh i k hk

theorem Pages.same (hP : Pages F s r) (hs : Same s s') : Pages F s' r :=
  hP.congr (fun b w => owned_congr (fun k b w => by rw [hs.ftable]) (fun _ => rfl) b w)
    hs.isopen fun _ => rfl

/-! ## Steps -/

abbrev Does (L : Layout) (P : (Fin NPROC → Option Job) → Prop) (p : Fin NPROC) (t : Code α)
    (A : Multiset Tok) (d : Desk)
    (Q : α → Multiset Tok → Desk → Prop) : Prop := Works (memory L False) filing P p t A d Q

abbrev Turns (L : Layout) (P : (Fin NPROC → Option Job) → Prop) (p : Fin NPROC) (t : Code α)
    (A : Multiset Tok) (d : Desk)
    (B : Multiset Tok) (d' : Desk) : Prop := Does L P p t A d fun _ A' e => A' = B ∧ e = d'

variable {t : Code α}

theorem does_basic {v : Caller} {Q : α → Multiset Tok → Prop} (hS : Trades L False P t A Q)
    (ht : Basic v t) :
    Does L P p t A d fun a A' d' => Q a A' ∧ d' = d := by
  refine Works.lift hS (Thread.EachAt.mono ht fun l _ m hm => ?_)
  obtain ⟨-, hoff, hleaves⟩ := hm
  intro g F s r hN
  obtain ⟨hR, hP⟩ := hN
  refine wp_mono (hleaves s) fun _ s' hs => ⟨fun b hb => ?_, ?_⟩
  · rw [hb] at hoff
    cases hoff
  · exact ⟨hR.same hs, (hP.same hs).record hoff⟩

variable {Q : α → Multiset Tok → Desk → Prop} {m : VmM α} {Q0 : α → Multiset Tok → Prop}

theorem does_act
    (hS : Trades L False P (act .other m) (A + d.lent) Q0)
    (h : ∀ g F M s r, P g → F p = d → (∀ x, x ≠ p → (F x).lent ≤ M) → Ledger L (A + d.lent + M) s →
      Refs g F s → Pages F s r →
      m.wp (fun a s' => ∀ B, Q0 a B → ∃ A' d', B = A' + d'.lent ∧ Refs g (update F p d') s' ∧
        Pages (update F p d') s' r ∧ Q a A' d') (fun e => e ≠ .filedup ∧ e ≠ .fileclose) s) :
        Does L P p (act .other m) A d Q := by
  refine Works.join hS fun g F M s r hg hi hM hL hN => ?_
  refine wp_mono (h g F M s r hg hi hM hL hN.1 hN.2) fun a s' ha => ⟨nofun, fun B hB => ?_⟩
  obtain ⟨A', d', hB', hR, hP, hQ⟩ := ha B hB
  exact ⟨A', d', hB', ⟨hR, hP.record rfl⟩, hQ⟩

/-- The call has nothing of a pipe in hand. -/
def Desk.Plain (d : Desk) : Prop := d.shut = none ∧ d.page = none ∧ d.free = none

theorem Desk.Plain.lent (h : d.Plain) : d.lent = 0 := by
  obtain ⟨hshut, hpage, hfree⟩ := h
  unfold Desk.lent
  rw [hshut, hpage, hfree]
  rfl

theorem Pages.plain (hP : Pages F s r) (hi : F p = d) (hd : d.Plain) (hd' : d'.Plain)
    (htype : ∀ k b w, (s'.ftable k).type = .pipe b w ↔ (s.ftable k).type = .pipe b w)
    (hopen : s'.isopen = s.isopen) :
    Pages (update F p d') s' r := by
  subst hi
  exact hP.congr (owned_congr htype (update_field Desk.shut (hd'.1.trans hd.1.symm))) hopen
    (update_field Desk.free (hd'.2.2.trans hd.2.2.symm))

theorem does_plain {Q : α → Desk → Prop} (hd : d.Plain)
    (hS : Trades L False P (act .other m) A Q0)
    (h : ∀ g F M s, P g → F p = d → Ledger L (A + M) s → Refs g F s →
      m.wp (fun a s' => (s'.isopen = s.isopen ∧ ∀ k b w, (s'.ftable k).type = .pipe b w ↔
        (s.ftable k).type = .pipe b w) ∧
        ∃ d', d'.Plain ∧ Refs g (update F p d') s' ∧
          Q a d') (fun e => e ≠ .filedup ∧ e ≠ .fileclose) s) :
    Does L P p (act .other m) A d fun a A' d' => Q0 a A' ∧ Q a d' := by
  have hA : A + d.lent = A := by rw [hd.lent, add_zero]
  have hS' : Trades L False P (act .other m) (A + d.lent) Q0 := by rwa [hA]
  refine does_act hS' fun g F M s r hg hi _ hL hR hP => ?_
  rw [hA] at hL
  refine wp_mono (h g F M s hg hi hL hR) fun a s' ha B hB => ?_
  obtain ⟨⟨hopen, htype⟩, d', hd', hR', hQ⟩ := ha
  exact ⟨B, d', by rw [hd'.lent, add_zero], hR', hP.plain hi hd hd' htype hopen, hB, hQ⟩

/-- The descriptors `o` count, of which the call has no more than `R` in hand. -/
def desk (o : Fin NOFILE → Option (Fin NFILE)) (w : Option (Fin NOFILE × Fin NFILE))
    (R : Multiset (Fin NFILE))
    (fr : List (Fin NFILE)) : Desk := ⟨some o, w, R, fr, none, none, none⟩

theorem desk_plain : (desk o w R fr).Plain := ⟨rfl, rfl, rfl⟩

theorem desk_hold : (desk o w R fr).hold x k = slots o k + R.count k := rfl

theorem hold_cons : (desk o w (k ::ₘ R) fr).hold x k = slots o k + R.count k + 1 := by
  rw [desk_hold, Multiset.count_cons_self, ← add_assoc]

theorem hold_cons_ne (h : k' ≠ k) :
    (desk o w (k ::ₘ R) fr).hold x k' = slots o k' + R.count k' := by
  rw [desk_hold, Multiset.count_cons_of_ne h]

theorem away_hold : Desk.away.hold x k = slots x.ofile k := by
  show slots x.ofile k + Multiset.count k 0 = _
  rw [count_zero, add_zero]

/-- The process makes a call of file.c. -/
def InCall (P : (Fin NPROC → Option Job) → Prop) (p : Fin NPROC) : Prop :=
  ∀ g, P g → ∃ j, g p = some j ∧ j.onFiles = true

theorem does_proc (hP : InCall P p) :
    Does L P p (act .other (proc p)) {.me p .plain} .away fun x A d =>
    (∃ dir, x.pgdir = some dir ∧ A = {.me p (.busy dir)}) ∧ d = desk x.ofile none 0 [] := by
  refine does_plain ⟨rfl, rfl, rfl⟩ safe_proc fun g F M s hg hi _ hR => ?_
  unfold proc
  rw [wp_bind, wp_get]
  dsimp only
  split
  · rename_i hlive
    refine ⟨⟨rfl, fun _ _ _ => Iff.rfl⟩, _, desk_plain,
      hR.restate (.inr (hP g hg)) (fun o ho => ?_) (fun k => ?_)
      fun _ hk => (List.not_mem_nil hk).elim, rfl⟩
    · cases ho
      exact ⟨hlive, rfl, nofun⟩
    · rw [hi, away_hold, desk_hold, count_zero, add_zero]
  · exact ⟨nofun, nofun⟩

theorem does_proc_again : Does L P p (act .other (proc p)) {.me p (.busy dir)}
    (desk o none R fr) fun x A d =>
    A = {.me p (.busy dir)} ∧ x.ofile = o ∧ d = desk o none R fr := by
  refine does_plain desk_plain safe_proc_again fun g F M s hg hi _ hR => ?_
  obtain ⟨hlive, htable, -⟩ := hR.sees p o (by rw [hi]; rfl)
  unfold proc
  rw [wp_bind, wp_get]
  dsimp only
  rw [if_pos hlive]
  refine ⟨⟨rfl, fun _ _ _ => Iff.rfl⟩, _, desk_plain, ?_, ?_, rfl⟩
  · rwa [← hi, update_eq_self]
  · rw [htable, hi]
    rfl

theorem does_restate (hd : d.Plain) (hd' : d'.Plain) (h : Does L P p t B d' Q)
    (hA : ∀ M s, Ledger L (A + M) s → Ledger L (B + M) s)
    (hrefs : ∀ g F s, P g → F p = d → Refs g F s → Refs g (update F p d') s) :
    Does L P p t A d Q := by
  refine Works.entails h fun g F M s r hg hi _ hL hN => ?_
  have hL : Ledger L (A + d.lent + M) s := hL
  obtain ⟨hR, hP⟩ := hN
  refine ⟨?_, hrefs g F s hg hi hR, hP.plain hi hd hd' (fun _ _ _ => Iff.rfl) rfl⟩
  show Ledger L (B + d'.lent + M) s
  rw [hd.lent, add_zero] at hL
  rw [hd'.lent, add_zero]
  exact hA M s hL

theorem does_done {a : α} : Turns L P p (.ret a) {.me p (.busy dir)} (desk o none 0 [])
    {.me p .plain} .away := by
  refine does_restate desk_plain ⟨rfl, rfl, rfl⟩ (.ret ⟨rfl, rfl⟩) (fun M s hL => ?_)
    fun g F s _ hi hR => ?_
  · rw [Multiset.singleton_add] at hL ⊢
    exact hL.rest rfl rfl
  · refine hR.restate (.inl rfl) nofun (fun k => ?_) fun _ hk => (List.not_mem_nil hk).elim
    obtain ⟨-, htable, -⟩ := hR.sees p o (by rw [hi]; rfl)
    rw [hi, away_hold, desk_hold, count_zero, add_zero, htable, hi]
    rfl

/-- The call has a reference for the descriptor that does not count. -/
theorem does_count (hP : InCall P p)
    (h : Does L P p t A (desk (update o fd (some k)) none R fr) Q) :
    Does L P p t A (desk o (some (fd, k)) (k ::ₘ R) fr) Q := by
  refine does_restate desk_plain desk_plain h (fun _ _ hL => hL) fun g F s hg hi hR => ?_
  obtain ⟨hlive, htable, howing⟩ := hR.sees p o (by rw [hi]; rfl)
  rw [hi] at htable howing
  have hfd : o fd = none := howing fd k rfl
  refine hR.restate (.inr (hP g hg)) (fun o' ho' => ?_) (fun k' => ?_) fun k' hk' => by rwa [hi]
  · cases ho'
    exact ⟨hlive, htable, nofun⟩
  · have hset := slots_set o fd (some k) k'
    rw [hfd, if_neg nofun, add_zero] at hset
    rw [hi, desk_hold, desk_hold, hset, count_cons]
    simp only [Option.some.injEq, eq_comm]
    omega

theorem does_uncount (hP : InCall P p) (hfd : o fd = some k)
    (h : Does L P p t A (desk (update o fd none) (some (fd, k)) (k ::ₘ R) fr) Q) :
    Does L P p t A (desk o none R fr) Q := by
  refine does_restate desk_plain desk_plain h (fun _ _ hL => hL) fun g F s hg hi hR => ?_
  obtain ⟨hlive, htable, -⟩ := hR.sees p o (by rw [hi]; rfl)
  rw [hi] at htable
  refine hR.restate (.inr (hP g hg)) (fun o' ho' => ?_) (fun k' => ?_) fun k' hk' => by rwa [hi]
  · cases ho'
    refine ⟨hlive, ?_, fun fd' k' hfd' => ?_⟩
    · show _ = update (update o fd none) fd (some k)
      rw [Function.update_idem, ← hfd, update_eq_self]
      exact htable
    · cases hfd'
      exact update_self ..
  · have hset := slots_set o fd none k'
    rw [hfd, if_neg (c := none = some k') nofun, add_zero] at hset
    rw [hi, desk_hold, desk_hold, ← hset, count_cons]
    simp only [Option.some.injEq, eq_comm]
    omega

/-! ## file.c -/

variable {z : File}

theorem Refs.setFile (hR : Refs g F s) (hcalls : ∃ j, g p = some j ∧ j.onFiles = true)
    (hsees : ∀ o, d.fds = some o → d.Sees (s.procs p) o)
    (hmine : (s.ftable k).ref = 0 ∨ (F p).hold (s.procs p) k ≠ 0)
    (hrefs : z.ref + (F p).hold (s.procs p) k = (s.ftable k).ref + d.hold (s.procs p) k)
    (hothers : ∀ k', k' ≠ k → d.hold (s.procs p) k' = (F p).hold (s.procs p) k')
    (hclosed : z.ref = 0 → z.type = .none)
    (hnew : k ∈ d.fresh → z.ref = 1 ∧ z.type = .none ∧ 0 < d.hold (s.procs p) k)
    (hfresh : ∀ k' ∈ d.fresh, k' ≠ k → k' ∈ (F p).fresh) :
    Refs g (update F p d) (s.withFile k z) := by
  refine hR.turn (.inr hcalls) (fun _ _ => ⟨Iff.rfl, rfl⟩) (hR.off p) hsees ?_
    (fun k' hzero hne => ?_) ?_ ?_
  · exact (forall_update_iff _ fun k' (z : File) => z.ref + (F p).hold (s.procs p) k' =
      (s.ftable k').ref + d.hold (s.procs p) k').2
      ⟨hrefs, fun k' hk => by rw [hothers k' hk]⟩
  · refine withFile_ne ?_
    rintro rfl
    rcases hmine with h | h
    · exact hne h
    · exact h hzero
  · exact (forall_update_iff _ fun _ (z : File) => z.ref = 0 →
      z.type = .none).2 ⟨hclosed, fun k' _ => hR.closed k'⟩
  · refine (forall_update_iff _ fun k' (z : File) => k' ∈ d.fresh → z.ref = 1 ∧ z.type = .none ∧
      0 < d.hold (s.procs p) k').2
      ⟨hnew, fun k' hk hmem => ?_⟩
    rw [hothers k' hk]
    exact hR.fresh p k' (hfresh k' hmem hk)

theorem pipe_withFile (h : ∀ b w, z.type = .pipe b w ↔ (s.ftable k).type = .pipe b w)
    (k' : Fin NFILE) (b : Frame)
    (w : Bool) : ((s.withFile k z).ftable k').type = .pipe b w ↔
    (s.ftable k').type = .pipe b w := by
  by_cases hk : k' = k
  · rw [hk, withFile_self, h]
  · rw [withFile_ne hk]

theorem does_filealloc (hP : InCall P p) :
    Does L P p (act .other filealloc) A (desk o w R fr) fun a A' d => A' = A ∧ match a with
    | none => d = desk o w R fr
    | some k => k ∉ fr ∧ d = desk o w (k ::ₘ R) (k :: fr) := by
  refine does_plain desk_plain safe_filealloc fun g F M s hg hi _ hR => ?_
  unfold filealloc
  rw [wp_bind, wp_get]
  split
  · exact ⟨⟨rfl, fun _ _ _ => Iff.rfl⟩, _, desk_plain, by rwa [← hi, update_eq_self], rfl⟩
  · rename_i k hk
    have hzero : (s.ftable k).ref = 0 := by
      have := List.find?_some hk
      simpa using this
    rw [wp_bind]
    refine ⟨⟨rfl, pipe_withFile fun _ _ => Iff.rfl⟩, desk o w (k ::ₘ R) (k :: fr), desk_plain,
      hR.setFile (hP g hg) (hR.sees_of hi rfl rfl) (.inl hzero) ?_ (fun k' hk' => ?_) nofun
        (fun _ => ?_) (fun k' hk' hne => ?_), fun hmem => ?_, rfl⟩
    · rw [hi, hzero, hold_cons, desk_hold]
      show 1 + _ = _
      omega
    · rw [hi, hold_cons_ne hk', desk_hold]
    · rw [hold_cons]
      exact ⟨rfl, hR.closed k hzero, Nat.succ_pos _⟩
    · rw [hi]
      exact (List.mem_cons.1 hk').resolve_left hne
    · have := (hR.fresh p k (by rw [hi]; exact hmem)).1
      omega

/-- `k` is in a descriptor of the process or in a local variable. -/
theorem does_filedup (hP : InCall P p) (hk : slots o k + R.count k ≠ 0) :
    Turns L P p (act .other (filedup k)) A (desk o w R []) A (desk o w (k ::ₘ R) []) := by
  refine does_plain desk_plain safe_filedup fun g F M s hg hi _ hR => ?_
  have hhold : (F p).hold (s.procs p) k ≠ 0 := by rwa [hi, desk_hold]
  have hle := hR.hold_le p k
  unfold filedup file
  rw [wp_bind, wp_bind, wp_get, wp_pure, if_neg (by omega)]
  refine ⟨⟨rfl, pipe_withFile fun _ _ => Iff.rfl⟩, desk o w (k ::ₘ R) [], desk_plain,
    hR.setFile (hP g hg) (hR.sees_of hi rfl rfl) (.inr hhold) ?_ (fun k' hk' => ?_)
      nofun nofun nofun, rfl⟩
  · rw [hi, hold_cons, desk_hold]
    show _ + 1 + _ = _
    omega
  · rw [hi, hold_cons_ne hk', desk_hold]

theorem does_fillInode (hP : InCall P p) :
    Turns L P p (act .other (fillInode k)) A (desk o w R [k]) A (desk o w R []) := by
  refine does_plain desk_plain safe_fillInode fun g F M s hg hi _ hR => ?_
  obtain ⟨hone, hnone, hpos⟩ := hR.fresh p k (by rw [hi]; exact List.mem_singleton.2 rfl)
  refine ⟨⟨rfl, pipe_withFile fun b w => ?_⟩, desk o w R [], desk_plain,
    hR.setFile (hP g hg) (hR.sees_of hi rfl rfl) (.inr (by omega)) (by rw [hi]; rfl)
      (fun k' _ => by rw [hi]; rfl) (fun h => ?_)
      nofun nofun, rfl⟩
  · rw [hnone]
    exact ⟨nofun, nofun⟩
  · have h : (s.ftable k).ref = 0 := h
    omega

/-! ## Descriptors -/

theorem Refs.setFds {o' : Fin NOFILE → Option (Fin NFILE)}
    {w' : Option (Fin NOFILE × Fin NFILE)} (hR : Refs g F s)
    (hcalls : ∃ j, g p = some j ∧ j.onFiles = true) (hi : F p = desk o w R fr)
    (htable : o' = (desk o w' R fr).table o) (howing : ∀ fd k, w' = some (fd, k) → o fd = none) :
    Refs g (update F p (desk o w' R fr)) (s.withProc p { s.procs p with ofile := o' }) := by
  obtain ⟨hlive, -, -⟩ := hR.sees p o (by rw [hi]; rfl)
  refine hR.turn (.inr hcalls) (fun i hip => ?_) (fun h => ?_) (fun o'' ho'' => ?_) (fun k => ?_)
    (fun _ _ _ => rfl) hR.closed
    fun k hk => ?_
  · rw [withProc_ne hip]
    exact ⟨Iff.rfl, rfl⟩
  · rw [withProc_self] at h
    exact absurd hlive h
  · cases ho''
    rw [withProc_self]
    exact ⟨hlive, htable, howing⟩
  · rw [hi]
    rfl
  · have := hR.fresh p k (by rw [hi]; exact hk)
    rw [hi] at this
    exact this

theorem does_fdalloc (hP : InCall P p) : Does L P p (act .other (fdalloc p k)) {.me p (.busy dir)}
    (desk o none R fr) fun a A' d =>
    A' = {.me p (.busy dir)} ∧
    match a with
    | none => d = desk o none R fr
    | some fd => o fd = none ∧ d = desk o (some (fd, k)) R fr := by
  refine does_plain desk_plain safe_fdalloc fun g F M s hg hi _ hR => ?_
  obtain ⟨hlive, htable, -⟩ := hR.sees p o (by rw [hi]; rfl)
  have htable : (s.procs p).ofile = o := by
    rw [htable, hi]
    rfl
  unfold fdalloc proc
  rw [wp_bind, wp_bind, wp_get]
  dsimp only
  rw [if_pos hlive, wp_pure, htable]
  split
  · exact ⟨⟨rfl, fun _ _ _ => Iff.rfl⟩, _, desk_plain, by rwa [← hi, update_eq_self], rfl⟩
  · rename_i fd hfd
    have hnone : o fd = none := by
      have := List.find?_some hfd
      simpa using this
    refine ⟨⟨rfl, fun _ _ _ => Iff.rfl⟩, desk o (some (fd, k)) R fr, desk_plain,
      hR.setFds (hP g hg) hi rfl fun fd' k' h => ?_, hnone, rfl⟩
    cases h
    exact hnone

theorem does_clearFd (hP : InCall P p) :
    Turns L P p (act .other (clearFd p fd)) {.me p (.busy dir)} (desk o (some (fd, k)) R fr)
      {.me p (.busy dir)} (desk o none R fr) := by
  refine does_plain desk_plain safe_clearFd fun g F M s hg hi _ hR => ?_
  obtain ⟨hlive, htable, howing⟩ := hR.sees p o (by rw [hi]; rfl)
  rw [hi] at htable howing
  unfold clearFd proc
  rw [wp_bind, wp_bind, wp_get]
  dsimp only
  rw [if_pos hlive, wp_pure]
  refine ⟨⟨rfl, fun _ _ _ => Iff.rfl⟩, desk o none R fr, desk_plain,
    hR.setFds (hP g hg) hi ?_ nofun, rfl⟩
  rw [htable]
  show update (update o fd (some k)) fd none = o
  rw [Function.update_idem, ← howing fd k rfl, update_eq_self]

/-! ## Closing -/

theorem pipe_eq_some : z.pipe = some (b, wr) ↔ z.type = .pipe b wr := by
  unfold File.pipe
  cases z.type with
  | none => simp
  | inode => simp
  | pipe b' w' => simp

/-- The call has an end of a pipe to close. -/
def Desk.closing (d : Desk) (a : Option (Frame × Bool)) : Desk := { d with shut := a }

/-- The call has a page to free. -/
def Desk.freeing (d : Desk) (a : Option Frame) : Desk := { d with free := a }

/-- The call has a page for a pipe. -/
def Desk.making (d : Desk) (a : Option Frame) : Desk := { d with page := a }

theorem owned_close (hi : (F p).shut = none) (hd : d.shut = (s.ftable k).pipe)
    (b : Frame) (wr : Bool) :
    Owned (update F p d) (s.withFile k ⟨0, .none⟩) b wr ↔ Owned F s b wr := by
  constructor
  · rintro (⟨k', hk'⟩ | ⟨i, hshut⟩)
    · by_cases hkk : k' = k
      · rw [hkk, withFile_self] at hk'
        cases hk'
      · rw [withFile_ne hkk] at hk'
        exact .inl ⟨k', hk'⟩
    · by_cases hip : i = p
      · rw [hip, update_self, hd] at hshut
        exact .inl ⟨k, pipe_eq_some.1 hshut⟩
      · rw [update_of_ne hip] at hshut
        exact .inr ⟨i, hshut⟩
  · rintro (⟨k', hk'⟩ | ⟨i, hshut⟩)
    · by_cases hkk : k' = k
      · subst hkk
        refine .inr ⟨p, ?_⟩
        rw [update_self, hd]
        exact pipe_eq_some.2 hk'
      · refine .inl ⟨k', ?_⟩
        rwa [withFile_ne hkk]
    · refine .inr ⟨i, ?_⟩
      have hip : i ≠ p := by
        rintro rfl
        rw [hi] at hshut
        cases hshut
      rwa [update_of_ne hip]

theorem Refs.drop {a : Option (Frame × Bool)} (hR : Refs g F s)
    (hcalls : ∃ j, g p = some j ∧ j.onFiles = true)
    (hi : F p = desk o w (k ::ₘ R) fr) (hz : z.ref + 1 = (s.ftable k).ref)
    (hclosed : z.ref = 0 → z.type = .none) :
    Refs g (update F p ((desk o w R (fr.filter (· ≠ k))).closing a)) (s.withFile k z) := by
  have hhold : (F p).hold (s.procs p) k = slots o k + R.count k + 1 := by rw [hi, hold_cons]
  refine hR.setFile hcalls (hR.sees_of hi rfl rfl) (.inr (by omega)) ?_ (fun k' hk' => ?_) hclosed
    (fun hk' => ?_) fun k' hk' _ => ?_
  · show _ = _ + (slots o k + R.count k)
    omega
  · rw [hi, hold_cons_ne hk']
    rfl
  · exact absurd rfl (of_decide_eq_true (List.mem_filter.1 hk').2)
  · rw [hi]
    exact (List.mem_filter.1 hk').1

/-- If it was the last, the call has an end of a pipe to close. -/
theorem does_closeFile (hP : InCall P p) :
    Does L P p (act .other (closeFile k)) A (desk o w (k ::ₘ R) fr) fun a A' d =>
    A' = A ∧ d = (desk o w R (fr.filter (· ≠ k))).closing a := by
  have hS : Trades L False P (act .other (closeFile k)) (A + (desk o w (k ::ₘ R) fr).lent)
      fun a B => B = endOf a + A :=
    safe_closeFile.within (by rw [desk_plain.lent, add_zero, zero_add]) fun a B hB => by rw [hB]
  refine does_act hS fun g F M s r hg hi _ _ hR hPages => ?_
  have hpos : 1 ≤ (s.ftable k).ref := by
    have hle := hR.hold_le p k
    rw [hi, hold_cons] at hle
    omega
  have hlent : ∀ a, endOf a + A = A + ((desk o w R (fr.filter (· ≠ k))).closing a).lent :=
    fun a => by
    show _ = A + (endOf a + 0 + 0)
    rw [add_zero, add_zero, add_comm]
  have hfree : ∀ a i, (update F p ((desk o w R (fr.filter (· ≠ k))).closing a) i).free =
      (F i).free := fun a =>
    update_field Desk.free (by rw [hi]; rfl)
  unfold closeFile file
  rw [wp_bind, wp_bind, wp_get, wp_pure, if_neg (by omega)]
  split
  · rw [wp_bind]
    refine fun B hB => ⟨A, _, hB.trans (hlent _), hR.drop (hP g hg) hi ?_ fun h => ?_,
      hPages.congr (owned_congr (pipe_withFile fun _ _ => Iff.rfl)
        (update_field Desk.shut (by rw [hi]; rfl))) rfl (hfree none), rfl, rfl⟩
    · show (s.ftable k).ref - 1 + 1 = _
      omega
    · have h : (s.ftable k).ref - 1 = 0 := h
      omega
  · rw [wp_bind]
    refine fun B hB => ⟨A, _, hB.trans (hlent _), hR.drop (hP g hg) hi ?_ fun _ => rfl,
      hPages.congr (owned_close (by rw [hi]; rfl) rfl) rfl (hfree _), rfl, rfl⟩
    show 0 + 1 = _
    omega

theorem Ledger.apart_keys {t t' : Tok} (hL : Ledger L (A + M) s) (ht : t ∈ A) (ht' : t' ∈ M)
    (hk : t'.key = t.key) : False := by
  have hkeys := hL.keys
  rw [Multiset.map_add, Multiset.nodup_add] at hkeys
  refine Multiset.disjoint_left.1 hkeys.2.2 (Multiset.mem_map_of_mem Tok.key ht) ?_
  rw [← hk]
  exact Multiset.mem_map_of_mem Tok.key ht'

theorem mem_lent_shut (h : d.shut = some (b, wr)) : .fd b wr ∈ d.lent := by
  unfold Desk.lent
  rw [h]
  exact mem_add.2 (.inl (mem_add.2 (.inl (mem_singleton_self _))))

theorem mem_lent_free (h : d.free = some b) : .held b ∈ d.lent := by
  unfold Desk.lent
  rw [h]
  exact mem_add.2 (.inr (mem_singleton_self _))

theorem lent_le (hi : F p = d) (hM : ∀ x, x ≠ p → (F x).lent ≤ M) (x : Fin NPROC) :
    (F x).lent ≤ A + d.lent + M := by
  by_cases hx : x = p
  · rw [hx, hi]
    exact (Multiset.le_add_left ..).trans (Multiset.le_add_right ..)
  · exact (hM x hx).trans (Multiset.le_add_left ..)

theorem Ledger.owned_open (hL : Ledger L M s) (hF : ∀ i, (F i).lent ≤ M) (h : Owned F s b wr) :
    s.isopen b wr = true := by
  rcases h with ⟨k, hk⟩ | ⟨i, hi⟩
  · exact (hL.pipes.file k b wr (pipe_eq_some.2 hk)).1
  · exact hL.pipes.fd b wr (mem_of_le (hF i) (mem_lent_shut hi))

theorem Ledger.held_not_owned (hL : Ledger L M s) (hF : ∀ i, (F i).lent ≤ M) (hb : .held b ∈ M) :
    ¬ ∃ w, Owned F s b w := by
  rintro ⟨w, ⟨k, hk⟩ | ⟨i, hi⟩⟩
  · have := (hL.apart _ _ (.held hb)).2 _ (.file (pipe_eq_some.2 hk))
    cases this
  · have := (hL.apart _ _ (.held hb)).2 _ (.fd (mem_of_le (hF i) (mem_lent_shut hi)))
    cases this

theorem pending_update (F : Fin NPROC → Desk) (p : Fin NPROC) (d : Desk) (b : Frame) :
    (∑ i, if (update F p d i).free = some b then 1 else 0) +
      (if (F p).free = some b then 1 else 0) =
      (∑ i, if (F i).free = some b then 1 else 0) + if d.free = some b then 1 else 0 :=
  sum_update_add (fun d : Desk => if d.free = some b then 1 else 0) F p d

theorem Pages.closeEnd (hPages : Pages F s r) (hi : (F p).shut = some (b, wr))
    (hfree : (F p).free = none) (hd : d.shut = none)
    (hopen : ∀ b w, Owned F s b w → s.isopen b w = true)
    (honly : ∀ k, (s.ftable k).type ≠ .pipe b wr) (halone : ∀ i, i ≠ p → (F i).shut ≠ some (b, wr))
    (hs : s' = { s with isopen := update s.isopen b (update (s.isopen b) wr false) })
    (hdf : d.free = if (!s'.isopen b false && !s'.isopen b true) = true then some b else none) :
    Pages (update F p d) s' r := by
  have howned : ∀ b' w', Owned (update F p d) s' b' w' ↔ Owned F s b' w' ∧
      ¬ (b' = b ∧ w' = wr) := fun b' w' => by
    constructor
    · rintro (⟨k, hk⟩ | ⟨i, hshut⟩)
      · rw [hs] at hk
        refine ⟨.inl ⟨k, hk⟩, ?_⟩
        rintro ⟨rfl, rfl⟩
        exact honly k hk
      · by_cases hip : i = p
        · rw [hip, update_self, hd] at hshut
          cases hshut
        · rw [update_of_ne hip] at hshut
          refine ⟨.inr ⟨i, hshut⟩, ?_⟩
          rintro ⟨rfl, rfl⟩
          exact halone i hip hshut
    · rintro ⟨⟨k, hk⟩ | ⟨i, hshut⟩, hne⟩
      · refine .inl ⟨k, ?_⟩
        rwa [hs]
      · refine .inr ⟨i, ?_⟩
        have hip : i ≠ p := by
          rintro rfl
          rw [hi] at hshut
          cases hshut
          exact hne ⟨rfl, rfl⟩
        rwa [update_of_ne hip]
  have hisopen : ∀ b' w', s'.isopen b' w' = if b' = b ∧ w' = wr then false
      else s.isopen b' w' := fun b' w' => by
    rw [hs]
    show update s.isopen b (update (s.isopen b) wr false) b' w' = _
    by_cases hb : b' = b
    · subst hb
      rw [update_self]
      by_cases hw : w' = wr
      · rw [hw, update_self, if_pos ⟨rfl, rfl⟩]
      · rw [update_of_ne hw, if_neg fun h => hw h.2]
    · rw [update_of_ne hb, if_neg fun h => hb h.1]
  have hmine : Owned F s b wr := .inr ⟨p, hi⟩
  refine ⟨fun b' w' w'' hown hop => ?_, fun b' => ?_⟩
  · rw [hisopen] at hop
    split at hop
    · cases hop
    · rename_i hne
      exact (howned b' w').2 ⟨hPages.ends b' w' w'' ((howned b' w'').1 hown).1 hop, hne⟩
  · suffices h : standing F s b' = standing (update F p d) s' b' by rw [hPages.count b', h]
    by_cases hb : b' = b
    · subst hb
      have hpend := pending_update F p d b'
      rw [hfree, if_neg (c := none = some b') nofun, add_zero] at hpend
      rw [standing_owned ⟨wr, hmine⟩]
      by_cases hboth : (!s'.isopen b' false && !s'.isopen b' true) = true
      · -- it was the second end
        rw [if_pos hboth] at hdf
        rw [hdf, if_pos rfl] at hpend
        rw [standing_gone, hpend, add_comm]
        rintro ⟨w', hw'⟩
        obtain ⟨hold, hne⟩ := (howned b' w').1 hw'
        have hop := hopen b' w' hold
        have hclosed : s'.isopen b' w' = false := by
          simp only [Bool.and_eq_true, Bool.not_eq_true'] at hboth
          cases w' with
          | false => exact hboth.1
          | true => exact hboth.2
        rw [hisopen, if_neg hne, hop] at hclosed
        cases hclosed
      · rw [if_neg hboth] at hdf
        rw [hdf, if_neg (c := none = some b') nofun, add_zero] at hpend
        have hother : ∃ w', s'.isopen b' w' = true := by
          by_contra hno
          refine hboth ?_
          simp only [not_exists, Bool.not_eq_true] at hno
          rw [hno false, hno true]
          rfl
        obtain ⟨w', hw'⟩ := hother
        rw [hisopen] at hw'
        split at hw'
        · cases hw'
        · rename_i hne
          rw [standing_owned ⟨w', (howned b' w').2 ⟨hPages.ends b' w' wr hmine hw', hne⟩⟩, hpend]
    · refine (standing_congr (exists_congr fun w' => ?_) fun i => ?_).symm
      · rw [howned]
        exact ⟨fun h => h.1, fun h => ⟨h, fun h' => hb h'.1⟩⟩
      · by_cases hip : i = p
        · rw [hip, update_self, hfree, hdf]
          split
          · exact ⟨fun h => absurd (Option.some.inj h).symm hb, nofun⟩
          · exact Iff.rfl
        · rw [update_of_ne hip]

theorem does_closeEnd (hP : InCall P p) :
    Does L P p (act .other (closeEnd b wr)) A ((desk o w R fr).closing (some (b, wr)))
    fun a A' d => A' = A ∧ d = (desk o w R fr).freeing (if a then some b else none) := by
  have hlent : ((desk o w R fr).closing (some (b, wr))).lent = {.fd b wr} := by
    show {Tok.fd b wr} + 0 + 0 = _
    rw [add_zero, add_zero]
  have hS : Trades L False P (act .other (closeEnd b wr))
    (A + ((desk o w R fr).closing (some (b, wr))).lent) fun a B =>
      B = (if a then {.held b} else 0) + A :=
        safe_closeEnd.within (by rw [hlent, add_comm]) fun a B hB => by rw [hB]
  refine does_act hS fun g F M s r hg hi hM hL hR hPages => ?_
  have hfd : .fd b wr ∈ A + ((desk o w R fr).closing (some (b, wr))).lent := by
    rw [hlent]
    exact mem_add.2 (.inr (mem_singleton_self _))
  have hfree : ∀ a : Bool, (if a then {.held b} else 0) + A =
      A + ((desk o w R fr).freeing (if a then some b else none)).lent := fun a => by
    show _ = A + (0 + 0 + heldOf _)
    rw [zero_add, zero_add, add_comm]
    cases a with
    | false => rfl
    | true => rfl
  unfold closeEnd
  rw [wp_bind, wp_modify, wp_bind, wp_get]
  refine fun B hB => ⟨A, _, hB.trans (hfree _), ?_, ?_, rfl, rfl⟩
  · refine Refs.ends ?_
    exact hR.retell (hP g hg) hi rfl rfl rfl rfl
  · refine hPages.closeEnd (by rw [hi]; rfl) (by rw [hi]; rfl) rfl
      (fun b w => hL.owned_open (lent_le hi hM)) (fun k hk => ?_)
      (fun i hip hshut => ?_) rfl rfl
    · exact (hL.pipes.file k b wr (pipe_eq_some.2 hk)).2.1 (mem_add.2 (.inl hfd))
    · exact hL.apart_keys hfd (mem_of_le (hM i hip) (mem_lent_shut hshut)) rfl

theorem fills_freed (b b' : Frame) (r : Record) :
    fills b' ((.other, .freed b) :: r) = fills b' r := by
  unfold fills
  exact List.count_cons_of_ne fun h => by cases h

theorem frees_freed (b b' : Frame) (r : Record) :
    frees b' ((.other, .freed b) :: r) = frees b' r + if b' = b then 1 else 0 := by
  unfold frees
  by_cases hb : b' = b
  · rw [hb, List.count_cons_self, if_pos rfl]
  · rw [List.count_cons_of_ne fun h => hb (by cases h; rfl), if_neg hb, add_zero]

theorem Pages.freed (hPages : Pages F s r) (hfree : (F p).free = some b)
    (hshut : d.shut = (F p).shut) (hd : d.free = none)
    (hgone : ¬ ∃ w, Owned F s b w) (hone : (∑ i, if (F i).free = some b then 1 else 0) = 1) :
    Pages (update F p d) s ((.other, .freed b) :: r) := by
  have howned : ∀ b w, Owned (update F p d) s b w ↔ Owned F s b w :=
    owned_congr (fun _ _ _ => Iff.rfl) (update_field Desk.shut hshut)
  refine ⟨fun b' w' w'' => ?_, fun b' => ?_⟩
  · rw [howned, howned]
    exact hPages.ends b' w' w''
  · have hpend := pending_update F p d b'
    rw [hfree, hd, if_neg (c := none = some b') nofun, add_zero] at hpend
    rw [fills_freed, frees_freed, hPages.count b']
    by_cases hb : b' = b
    · subst hb
      rw [if_pos rfl, hone] at hpend
      have hzero : (∑ i, if (update F p d i).free = some b' then 1 else 0) = 0 := Nat.succ.inj hpend
      rw [if_pos rfl, standing_gone hgone, standing_gone fun ⟨w', hw'⟩ =>
        hgone ⟨w', (howned b' w').1 hw'⟩, hone, hzero]
    · rw [if_neg hb, add_zero, standing_congr (exists_congr (howned b')) fun i => ?_]
      by_cases hip : i = p
      · rw [hip, update_self, hfree, hd]
        exact ⟨nofun, fun h => absurd (Option.some.inj h).symm hb⟩
      · rw [update_of_ne hip]

theorem does_freed (hP : InCall P p) :
    Turns L P p (.step (.other, .freed b) (kfree L b)) A ((desk o w R fr).freeing (some b)) A
      (desk o w R fr) := by
  have hlent : ((desk o w R fr).freeing (some b)).lent = {.held b} := by
    show 0 + 0 + {Tok.held b} = _
    rw [zero_add, zero_add]
  have hS : Trades L False P (.step (.other, .freed b) (kfree L b))
    (A + ((desk o w R fr).freeing (some b)).lent) fun _ B =>
      B = A := (safe_kfree (w := .other) (x := .freed b) (fun _ _ => ⟨trivial, trivial⟩) rfl).within
        (by rw [hlent, add_comm]) fun _ B hB => by
    rw [hB, zero_add]
  refine Works.join hS fun g F M s r hg hi hM hL hN => ?_
  have hL : Ledger L (A + ((desk o w R fr).freeing (some b)).lent + M) s := hL
  obtain ⟨hR, hPages⟩ := hN
  have hheld : .held b ∈ A + ((desk o w R fr).freeing (some b)).lent := by
    rw [hlent]
    exact mem_add.2 (.inr (mem_singleton_self _))
  have hgone : ¬ ∃ w, Owned F s b w := hL.held_not_owned (lent_le hi hM) (mem_add.2 (.inl hheld))
  have hone : (∑ i, if (F i).free = some b then 1 else 0) = 1 := by
    rw [Finset.sum_eq_single p (fun i _ hip => if_neg fun hfree => ?_) fun h =>
      absurd (mem_univ p) h, hi]
    · exact if_pos rfl
    · exact hL.apart_keys hheld (mem_of_le (hM i hip) (mem_lent_free hfree)) rfl
  refine wp_mono (leaves_kfree s) fun _ s' hs =>
    ⟨fun b' hb' => ?_, fun B hB => ⟨A, desk o w R fr, ?_, ?_, rfl, rfl⟩⟩
  · cases hb'
    refine ⟨fun k w hk => hgone ⟨w, .inl ⟨k, hk⟩⟩, ?_⟩
    rw [hPages.count b, standing_gone hgone, hone]
  · show B = A + (desk o w R fr).lent
    rw [hB, desk_plain.lent, add_zero]
  · have hpages := hPages.freed (d := desk o w R fr) (by rw [hi]; rfl)
      (by rw [hi]; rfl) rfl hgone hone
    have hrefs : Refs g (update F p (desk o w R fr)) s := hR.retell (hP g hg) hi rfl rfl rfl rfl
    exact ⟨hrefs.same hs, hpages.same hs⟩

theorem does_pipeclose (hP : InCall P p) :
    Turns L P p (pipeclose L b wr) A ((desk o w R fr).closing (some (b, wr))) A
    (desk o w R fr) := by
  refine (does_closeEnd hP).next fun a => ?_
  cases a with
  | false => exact .ret ⟨rfl, rfl⟩
  | true => exact does_freed hP

theorem does_fileclose (hP : InCall P p) :
    Turns L P p (fileclose L k) A (desk o w (k ::ₘ R) fr) A (desk o w R (fr.filter (· ≠ k))) := by
  refine (does_closeFile hP).next fun a => ?_
  cases a with
  | none => exact .ret ⟨rfl, rfl⟩
  | some e => exact does_pipeclose hP

/-! ## Pipes -/

theorem does_kalloc (hP : InCall P p) :
    Does L P p (act .other kalloc) A (desk o w R fr) fun a A' d =>
    A' = A ∧ d = (desk o w R fr).making a := by
  have hS : Trades L False P (act .other kalloc) (A + (desk o w R fr).lent) fun a B =>
      B = heldOf a + A :=
    safe_kalloc.within (by rw [desk_plain.lent, add_zero, zero_add]) fun a B hB => by rw [hB]
  refine does_act hS fun g F M s r hg hi _ _ hR hPages => ?_
  refine wp_mono (leaves_kalloc s) fun a s' hs B hB =>
    ⟨A, (desk o w R fr).making a, ?_, ?_, ?_, rfl, rfl⟩
  · show B = A + (0 + heldOf a + 0)
    rw [hB, zero_add, add_zero, add_comm]
  · exact (hR.same hs).retell (hP g hg) hi rfl rfl rfl rfl
  · exact (hPages.same hs).congr
      (owned_congr (fun _ _ _ => Iff.rfl) (update_field Desk.shut (by rw [hi]; rfl))) rfl
      (update_field Desk.free (by rw [hi]; rfl))

theorem fills_filled (b b' : Frame) (r : Record) :
    fills b' ((.other, .filled b) :: r) = fills b' r + if b' = b then 1 else 0 := by
  unfold fills
  by_cases hb : b' = b
  · rw [hb, List.count_cons_self, if_pos rfl]
  · rw [List.count_cons_of_ne fun h => hb (by cases h; rfl), if_neg hb, add_zero]

theorem frees_filled (b b' : Frame) (r : Record) :
    frees b' ((.other, .filled b) :: r) = frees b' r := by
  unfold frees
  exact List.count_cons_of_ne fun h => by cases h

theorem Pages.filled (hPages : Pages F s r) (hshut : d.shut = (F p).shut)
    (hfree : d.free = (F p).free) (hgone : ¬ ∃ w, Owned F s b w) (hnone : ∀ i, (F i).free ≠ some b)
    (htype : ∀ k b' w', (s'.ftable k).type = .pipe b' w' ↔
      if k = f1 then b' = b ∧ w' = true else if k = f0 then b' = b ∧ w' = false
      else (s.ftable k).type = .pipe b' w')
    (hold : (s.ftable f0).type = .none ∧ (s.ftable f1).type = .none) (hne : f0 ≠ f1)
    (hopen : s'.isopen = update s.isopen b fun _ => true) :
    Pages (update F p d) s' ((.other, .filled b) :: r) := by
  have hdesk := update_field Desk.shut (F := F) hshut
  have howned : ∀ b' w', Owned (update F p d) s' b' w' ↔ Owned F s b' w' ∨ b' = b := fun b' w' => by
    constructor
    · rintro (⟨k, hk⟩ | ⟨i, hi⟩)
      · rw [htype] at hk
        split at hk
        · exact .inr hk.1
        · split at hk
          · exact .inr hk.1
          · exact .inl (.inl ⟨k, hk⟩)
      · rw [hdesk] at hi
        exact .inl (.inr ⟨i, hi⟩)
    · rintro ((⟨k, hk⟩ | ⟨i, hi⟩) | rfl)
      · refine .inl ⟨k, (htype k b' w').2 ?_⟩
        rw [if_neg, if_neg]
        · exact hk
        · rintro rfl
          rw [hold.1] at hk
          cases hk
        · rintro rfl
          rw [hold.2] at hk
          cases hk
      · exact .inr ⟨i, by rwa [hdesk]⟩
      · cases w' with
        | false =>
          exact .inl ⟨f0, (htype _ _ _).2 (by rw [if_neg hne, if_pos rfl]; exact ⟨rfl, rfl⟩)⟩
        | true => exact .inl ⟨f1, (htype _ _ _).2 (by rw [if_pos rfl]; exact ⟨rfl, rfl⟩)⟩
  have hpend : ∀ b', (∑ i, if (update F p d i).free = some b' then 1 else 0) = ∑ i, if (F i).free =
      some b' then 1 else 0 :=
    fun b' => by simp only [update_field Desk.free hfree]
  refine ⟨fun b' w' w'' hown hop => ?_, fun b' => ?_⟩
  · rw [howned] at hown ⊢
    by_cases hb : b' = b
    · exact .inr hb
    · rw [hopen, update_of_ne hb] at hop
      exact .inl (hPages.ends b' w' w'' (hown.resolve_right hb) hop)
  · rw [fills_filled, frees_filled, hPages.count b']
    by_cases hb : b' = b
    · subst hb
      have hzero : (∑ i, if (F i).free = some b' then 1 else 0) = 0 :=
        Finset.sum_eq_zero fun i _ => if_neg (hnone i)
      rw [if_pos rfl, standing_gone hgone, standing_owned ⟨true, (howned b' true).2 (.inr rfl)⟩,
        hpend, hzero]
    · have hiff : (∃ w', Owned (update F p d) s' b' w') ↔ ∃ w', Owned F s b' w' :=
        exists_congr fun w' => by
        rw [howned]
        exact or_iff_left hb
      rw [if_neg hb, add_zero, standing_congr hiff fun i => by rw [update_field Desk.free hfree]]

theorem Refs.setTypes (hR : Refs g F s) (hcalls : ∃ j, g p = some j ∧ j.onFiles = true)
    (hfds : d.fds = (F p).fds)
    (howing : d.owing = (F p).owing) (hrefs : d.refs = (F p).refs) (hfresh : d.fresh = [])
    (hprocs : s'.procs = s.procs) (href : ∀ k, (s'.ftable k).ref = (s.ftable k).ref)
    (htype : ∀ k, k ∉ (F p).fresh → (s'.ftable k).type = (s.ftable k).type) :
    Refs g (update F p d) s' := by
  have hhold : ∀ k, d.hold (s'.procs p) k = (F p).hold (s.procs p) k := fun k => by
    unfold Desk.hold
    rw [hfds, hrefs, hprocs]
  refine hR.turn (.inr hcalls) (fun i _ => ?_) ?_ (fun o' ho' => ?_) (fun k => by rw [href, hhold])
    (fun k hzero _ => ?_) (fun k hk => ?_)
    fun k hk => ?_
  · rw [hprocs]
    exact ⟨Iff.rfl, rfl⟩
  · rw [hprocs]
    exact hR.off p
  · rw [hprocs]
    exact hR.sees_of rfl hfds howing o' ho'
  · have hk : k ∉ (F p).fresh := fun hk => by
      have := (hR.fresh p k hk).2.2
      omega
    have hr := href k
    have ht := htype k hk
    cases h' : s'.ftable k with
    | mk ref type =>
      rw [h'] at hr ht
      cases h : s.ftable k with
      | mk ref' type' =>
        rw [h] at hr ht
        rw [show ref = ref' from hr, show type = type' from ht]
  · rw [href] at hk
    have hk' : k ∉ (F p).fresh := fun hmem => by
      have := (hR.fresh p k hmem).1
      omega
    rw [htype k hk']
    exact hR.closed k hk
  · rw [hfresh] at hk
    exact (List.not_mem_nil hk).elim

theorem does_fillPipe (hP : InCall P p) (hne : f0 ≠ f1) :
    Turns L P p (.step (.other, .filled b) (fillPipe f0 f1 b)) A
      ((desk o w R [f1, f0]).making (some b)) A (desk o w R []) := by
  have hlent : ((desk o w R [f1, f0]).making (some b)).lent = {.held b} := by
    show 0 + {Tok.held b} + 0 = _
    rw [zero_add, add_zero]
  have hS : Trades L False P (.step (.other, .filled b) (fillPipe f0 f1 b))
    (A + ((desk o w R [f1, f0]).making (some b)).lent)
      fun _ B => B = A := safe_fillPipe.within (by rw [hlent, add_comm]) fun _ B hB => by
        rw [hB, zero_add]
  refine Works.join hS fun g F M s r hg hi hM hL hN => ?_
  have hL : Ledger L (A + ((desk o w R [f1, f0]).making (some b)).lent + M) s := hL
  obtain ⟨hR, hPages⟩ := hN
  have hheld : .held b ∈ A + ((desk o w R [f1, f0]).making (some b)).lent := by
    rw [hlent]
    exact mem_add.2 (.inr (mem_singleton_self _))
  have hfresh : ∀ k, k = f0 ∨ k = f1 → (s.ftable k).type = .none := fun k hk =>
    (hR.fresh p k (by
      rw [hi]
      show k ∈ [f1, f0]
      rcases hk with rfl | rfl
      · exact List.mem_cons_of_mem _ (List.mem_singleton.2 rfl)
      · exact List.mem_cons_self)).2.1
  unfold fillPipe file
  simp only [setFile, wp_bind, wp_modify, wp_get, wp_pure]
  refine ⟨by rintro _ ⟨⟩, fun B hB => ⟨A, desk o w R [], ?_, ⟨?_, ?_⟩, rfl, rfl⟩⟩
  · show B = A + (desk o w R []).lent
    rw [hB, desk_plain.lent, add_zero]
  · refine hR.setTypes (hP g hg) (by rw [hi]; rfl) (by rw [hi]; rfl) (by rw [hi]; rfl) rfl rfl
      (fun k => ?_) fun k hk => ?_
    · by_cases h1 : k = f1
      · rw [h1, withFile_self]
        show ((St.withFile _ _ _).ftable f1).ref = _
        rw [withFile_ne hne.symm]
      · rw [withFile_ne h1]
        by_cases h0 : k = f0
        · rw [h0, withFile_self]
        · rw [withFile_ne h0]
    · rw [hi] at hk
      have hk : k ∉ [f1, f0] := hk
      simp only [List.mem_cons, List.not_mem_nil, or_false, not_or] at hk
      rw [withFile_ne hk.1, withFile_ne hk.2]
  · have hclear : (s.ftable f0).type = .none ∧ (s.ftable f1).type = .none :=
      ⟨hfresh f0 (.inl rfl), hfresh f1 (.inr rfl)⟩
    refine hPages.filled (by rw [hi]; rfl) (by rw [hi]; rfl)
      (hL.held_not_owned (lent_le hi hM) (mem_add.2 (.inl hheld))) (fun i hfree => ?_)
        (fun k b' w' => ?_)
      hclear hne rfl
    · by_cases hip : i = p
      · rw [hip, hi] at hfree
        cases hfree
      · exact hL.apart_keys hheld (mem_of_le (hM i hip) (mem_lent_free hfree)) rfl
    · by_cases h1 : k = f1
      · rw [h1, withFile_self, if_pos rfl]
        simp [eq_comm]
      · rw [withFile_ne h1, if_neg h1]
        by_cases h0 : k = f0
        · rw [h0, withFile_self, if_pos rfl]
          simp [eq_comm]
        · rw [withFile_ne h0, if_neg h0]

theorem does_pipealloc (hP : InCall P p) :
    Does L P p (pipealloc L) A (desk o w 0 []) fun a A' d => A' = A ∧ match a with
    | none => d = desk o w 0 []
    | some (f0, f1) => d = desk o w {f1, f0} [] := by
  refine (does_filealloc hP).bind fun a A' d hd => ?_
  obtain ⟨rfl, hd⟩ := hd
  cases a with
  | none => exact .ret ⟨rfl, hd⟩
  | some f0 =>
    obtain ⟨-, rfl⟩ := hd
    refine (does_filealloc hP).bind fun a A' d hd => ?_
    obtain ⟨rfl, hd⟩ := hd
    cases a with
    | none =>
      subst hd
      refine (does_fileclose hP).next fun _ => ?_
      refine .ret ⟨rfl, ?_⟩
      simp
    | some f1 =>
      obtain ⟨hne, rfl⟩ := hd
      have hne : f0 ≠ f1 := fun h => hne (by rw [h]; exact List.mem_singleton.2 rfl)
      refine (does_kalloc hP).next fun a => ?_
      cases a with
      | none =>
        have hswap : f1 ::ₘ f0 ::ₘ 0 = f0 ::ₘ f1 ::ₘ (0 : Multiset (Fin NFILE)) :=
          Multiset.cons_swap ..
        show Does L P p _ A' (desk o w (f1 ::ₘ f0 ::ₘ 0) [f1, f0]) _
        rw [hswap]
        refine (does_fileclose hP).next fun _ => ?_
        refine (does_fileclose hP).next fun _ => ?_
        refine .ret ⟨rfl, ?_⟩
        simp
      | some b =>
        refine (does_fillPipe hP hne).next fun _ => ?_
        exact .ret ⟨rfl, rfl⟩

end Os4.Vm
