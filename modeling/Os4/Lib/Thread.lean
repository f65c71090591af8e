import Mathlib.Algebra.BigOperators.Group.Finset.Piecewise
import Mathlib.Algebra.GroupWithZero.Nat
import Mathlib.Algebra.Order.BigOperators.Group.Multiset
import Mathlib.Algebra.Order.Group.Nat
import Mathlib.Data.Fintype.Basic
import Mathlib.Logic.Relation
import Os4.Lib.Wp
/-!
# Threads that share a state

A `Thread` is a program cut into atomic steps; each step is a program of its own, run without
interruption, and carries a label. A step that ends with an error is not taken: the thread waits or
the machine has stopped. A `Pool` is a state with the jobs under way, one at most for each owner,
and `Next` is any interleaving of their steps.

The rules are those of ownership. A thread holds tokens; an invariant relates *all* tokens to the
state. `Safe` says that every step of a thread, whatever tokens the others hold, keeps the invariant
and leaves the thread with tokens with which the rest is safe. `Safe.frame` and `Safe.bind` make it
a logic of programs, and **`Sound.reaches`** carries the invariant over every interleaving.

A token may stand for something that the next step of its thread has to put right (`fade`); the
label of a step says what it puts right (`due`). Between two steps a thread owes no more than what
its next step puts right (`Ready`).
-/

open Function (update update_self update_of_ne update_eq_self)

inductive Thread (σ ε Λ α : Type) : Type 1 where
  | ret (a : α)
  | atom {β : Type} (l : Λ) (m : Prog σ ε β) (k : β → Thread σ ε Λ α)

namespace Thread

variable {σ ε Λ α β : Type}

def bind : Thread σ ε Λ α → (α → Thread σ ε Λ β) → Thread σ ε Λ β
  | ret a, f => f a
  | atom l m k, f => atom l m fun b => (k b).bind f

instance : Monad (Thread σ ε Λ) where
  pure := ret
  bind := bind

@[simp] theorem pure_eq (a : α) : (pure a : Thread σ ε Λ α) = ret a := rfl

@[simp] theorem ret_bind (a : α) (f : α → Thread σ ε Λ β) : ret a >>= f = f a := rfl

@[simp] theorem bind_ret (t : Thread σ ε Λ α) : t >>= ret = t := by
  induction t with
  | ret a => rfl
  | atom l m k ih => exact congrArg (atom l m) (funext ih)

theorem bind_bind (t : Thread σ ε Λ α) (f : α → Thread σ ε Λ β) (g : β → Thread σ ε Λ γ) :
    t >>= f >>= g = t >>= fun a => f a >>= g := by
  induction t with
  | ret a => rfl
  | atom l m k ih => exact congrArg (atom l m) (funext ih)

instance : LawfulMonad (Thread σ ε Λ) := LawfulMonad.mk' _ bind_ret (fun _ _ => rfl) bind_bind

/-- One step. -/
def step (l : Λ) (m : Prog σ ε α) : Thread σ ε Λ α := atom l m ret

/-- The thread when nobody else runs. -/
def run : Thread σ ε Λ α → Prog σ ε α
  | ret a => pure a
  | atom _ m k => m >>= fun b => (k b).run

@[simp] theorem run_ret (a : α) : (ret a : Thread σ ε Λ α).run = pure a := rfl

@[simp] theorem run_step (l : Λ) (m : Prog σ ε α) : (step l m).run = m := bind_pure m

@[simp] theorem run_bind (t : Thread σ ε Λ α) (f : α → Thread σ ε Λ β) :
    (t >>= f).run = t.run >>= fun a => (f a).run := by
  induction t with
  | ret a => rw [ret_bind, run_ret, pure_bind]
  | atom l m k ih =>
    show (m >>= fun b => (k b >>= f).run) = (m >>= fun b => (k b).run) >>= _
    rw [bind_assoc]
    exact congrArg _ (funext ih)

/-- `R` holds of every step. -/
def Each (R : ∀ β : Type, Prog σ ε β → Prop) : Thread σ ε Λ α → Prop
  | ret _ => True
  | atom _ m k => R _ m ∧ ∀ b, (k b).Each R

variable {l : Λ} {m : Prog σ ε α}

theorem Each.step {R : ∀ β : Type, Prog σ ε β → Prop} (h : R _ m) : (step l m).Each R :=
  ⟨h, fun _ => trivial⟩

theorem Each.bind {R : ∀ β : Type, Prog σ ε β → Prop} {f : α → Thread σ ε Λ β} (ht : t.Each R)
    (hf : ∀ a, (f a).Each R) : (t >>= f).Each R := by
  induction t with
  | ret a => exact hf a
  | atom l m k ih => exact ⟨ht.1, fun b => ih b (ht.2 b)⟩

/-- What is left of a section that nobody disturbs: run alone from a state in the relation `R` to
the present one it ends with `Q`. -/
structure Undisturbed (R : σ → σ → Prop) (Q : α → σ → Prop) (t : Thread σ ε Λ α)
    (s : σ) : Prop where
  each : t.Each fun _ m => m.Mirrors R
  alone : ∃ r, R r s ∧ t.run.wp Q (fun _ => True) r

section Undisturbed

variable {R : σ → σ → Prop} {Q : α → σ → Prop} {s s' : σ}

theorem Undisturbed.step {m : Prog σ ε β} {k : β → Thread σ ε Λ α} {b : β}
    (h : Undisturbed R Q (atom l m k) s) (hm : m s = .ok (b, s')) : Undisturbed R Q (k b) s' := by
  obtain ⟨⟨hmirror, heach⟩, r, hR, hrun⟩ := h
  obtain ⟨r', hm', hR'⟩ := hmirror r s b s' hR hm
  refine ⟨heach b, r', hR', ?_⟩
  rw [run, Prog.wp_bind, Prog.wp_run hm'] at hrun
  exact hrun

theorem Undisturbed.aside (h : Undisturbed R Q t s) (hR : ∀ r, R r s → R r s') :
    Undisturbed R Q t s' := by
  obtain ⟨heach, r, hr, hrun⟩ := h
  exact ⟨heach, r, hR r hr, hrun⟩

theorem Undisturbed.after {Q' : α → σ → Prop} (h : Undisturbed R Q t s)
    (hQ : ∀ a s, Q a s → Q' a s) :
    Undisturbed R Q' t s := by
  obtain ⟨heach, r, hr, hrun⟩ := h
  exact ⟨heach, r, hr, Prog.wp_mono hrun hQ⟩

end Undisturbed

/-- `R` holds of the label of every step and `Q` of everything that the thread can return. -/
def Shows (R : Λ → Prop) (Q : α → Prop) : Thread σ ε Λ α → Prop
  | ret a => Q a
  | atom l _ k => R l ∧ ∀ b, (k b).Shows R Q

section Shows

variable {R : Λ → Prop} {Q : α → Prop} {Q' : β → Prop}

theorem Shows.step (hl : R l) : (step l m).Shows R fun _ => True := ⟨hl, fun _ => trivial⟩

theorem Shows.bind {f : α → Thread σ ε Λ β} (ht : t.Shows R Q) (hf : ∀ a, Q a → (f a).Shows R Q') :
    (t >>= f).Shows R Q' := by
  induction t with
  | ret a => exact hf a ht
  | atom l m k ih => exact ⟨ht.1, fun b => ih b (ht.2 b)⟩

theorem Shows.trivial (t : Thread σ ε Λ α) : t.Shows (fun _ => True) fun _ => True := by
  induction t with
  | ret a => exact True.intro
  | atom l m k ih => exact ⟨True.intro, ih⟩

end Shows

end Thread

/-! ## Pools -/

/-- What is done by whom. -/
structure Machine (ι J σ ε Λ ρ : Type) where
  owner : J → ι
  body : J → Thread σ ε Λ ρ

structure Pool (ι J σ ε Λ ρ : Type) where
  calls : ι → Option (J × Thread σ ε Λ ρ)
  state : σ

namespace Pool

variable {ι J σ ε Λ ρ : Type} [DecidableEq ι]

variable (c : Pool ι J σ ε Λ ρ)

def jobs (i : ι) : Option J := (c.calls i).map Prod.fst

/-- No job is under way. -/
def Quiet : Prop := ∀ i, c.calls i = none

/-- The job of `i` is now `o`, and the state `s`. -/
def set (i : ι) (o : Option (J × Thread σ ε Λ ρ)) (s : σ) : Pool ι J σ ε Λ ρ :=
  ⟨update c.calls i o, s⟩

@[simp] theorem set_state (i : ι) (o : Option (J × Thread σ ε Λ ρ)) (s : σ) :
    (c.set i o s).state = s := rfl

@[simp] theorem set_calls (i : ι) (o : Option (J × Thread σ ε Λ ρ)) (s : σ) :
    (c.set i o s).calls i = o := update_self ..

theorem set_calls_ne {i i' : ι} (h : i' ≠ i) (c : Pool ι J σ ε Λ ρ)
    (o : Option (J × Thread σ ε Λ ρ)) (s : σ) :
    (c.set i o s).calls i' = c.calls i' := update_of_ne h ..

theorem jobs_set (i : ι) (o : Option (J × Thread σ ε Λ ρ)) (s : σ) :
    (c.set i o s).jobs = update c.jobs i (o.map Prod.fst) := by
  funext x
  by_cases hx : x = i
  · subst hx
    rw [jobs, set_calls, update_self]
  · rw [jobs, set_calls_ne hx, update_of_ne hx]
    rfl

/-- `i` takes a step labelled `l` of its job. -/
inductive Move (i : ι) (l : Λ) : Pool ι J σ ε Λ ρ → Pool ι J σ ε Λ ρ → Prop where
  | mk {c : Pool ι J σ ε Λ ρ} {j : J} {β : Type} {m : Prog σ ε β} {k : β → Thread σ ε Λ ρ}
      {b : β} {s' : σ} :
    c.calls i = some (j, .atom l m k) → m c.state = .ok (b, s') →
    Move i l c (c.set i (some (j, k b)) s')

/-- A job starts, takes a step that is allowed, or ends. -/
inductive Next (mach : Machine ι J σ ε Λ ρ) (allowed : Λ → σ → Prop) :
    Pool ι J σ ε Λ ρ → Pool ι J σ ε Λ ρ → Prop where
  | start {c : Pool ι J σ ε Λ ρ} (j : J) : c.calls (mach.owner j) = none →
    Next mach allowed c (c.set (mach.owner j) (some (j, mach.body j)) c.state)
  | move {c c' : Pool ι J σ ε Λ ρ} {i : ι} {l : Λ} : allowed l c.state → Move i l c c' →
      Next mach allowed c c'
  | finish {c : Pool ι J σ ε Λ ρ} {i : ι} {j : J} {r : ρ} : c.calls i = some (j, .ret r) →
    Next mach allowed c (c.set i none c.state)

abbrev Reaches (mach : Machine ι J σ ε Λ ρ) (allowed : Λ → σ → Prop) :
    Pool ι J σ ε Λ ρ → Pool ι J σ ε Λ ρ → Prop :=
  Relation.ReflTransGen (Next mach allowed)

theorem Reaches.mono {allowed' : Λ → σ → Prop} {c : Pool ι J σ ε Λ ρ}
    (h : ∀ l s, allowed l s → allowed' l s) (hr : Reaches mach allowed c c') :
    Reaches mach allowed' c c' := by
  refine Relation.ReflTransGen.mono (fun a b hn => ?_) _ _ hr
  cases hn with
  | start j hj => exact .start j hj
  | move hl hm => exact .move (h _ _ hl) hm
  | finish hi => exact .finish hi

/-- What the steps and results of the jobs show, those under way show too. -/
theorem Reaches.shows {c : Pool ι J σ ε Λ ρ} {R : J → Λ → Prop}
    {Q : J → ρ → Prop} (hbody : ∀ j, (mach.body j).Shows (R j) (Q j))
    (hc : ∀ i j t, c.calls i = some (j, t) → t.Shows (R j) (Q j)) (hr : Reaches mach allowed c c') :
    ∀ i j t, c'.calls i = some (j, t) → t.Shows (R j) (Q j) := by
  have hset : ∀ (d : Pool ι J σ ε Λ ρ) x o s, (∀ i j t, d.calls i = some (j, t) →
    t.Shows (R j) (Q j)) →
      (∀ j t, o = some (j, t) → t.Shows (R j) (Q j)) → ∀ i j t, (d.set x o s).calls i =
        some (j, t) → t.Shows (R j) (Q j) := by
    intro d x o s hd ho i j t hi
    by_cases hx : i = x
    · rw [hx, set_calls] at hi
      exact ho j t hi
    · rw [set_calls_ne hx] at hi
      exact hd i j t hi
  induction hr with
  | refl => exact hc
  | tail _ hn ih =>
    cases hn with
    | start j hj =>
      refine hset _ _ _ _ ih fun j' t heq => ?_
      cases heq
      exact hbody j
    | move hl hm =>
      obtain ⟨hi, -⟩ := hm
      refine hset _ _ _ _ ih fun j' t heq => ?_
      cases heq
      exact (ih _ _ _ hi).2 _
    | finish hi => exact hset _ _ _ _ ih nofun

/-- What happens next: a job starts, or `i` goes on. -/
inductive Ev (ι J : Type) where
  | start (j : J)
  | go (i : ι)

/-- One move of the pool, where `ok` allows it. -/
def exec (mach : Machine ι J σ ε Λ ρ) (ok : Λ → σ → Bool) (c : Pool ι J σ ε Λ ρ) :
    Ev ι J → Option (Pool ι J σ ε Λ ρ)
  | .start j =>
    match c.calls (mach.owner j) with
    | none => some (c.set (mach.owner j) (some (j, mach.body j)) c.state)
    | some _ => none
  | .go i =>
    match c.calls i with
    | none => none
    | some (_, .ret _) => some (c.set i none c.state)
    | some (j, .atom l m k) =>
      if ok l c.state then
        match m c.state with
        | .ok (b, s') => some (c.set i (some (j, k b)) s')
        | .error _ => none
      else none

/-- A schedule. -/
def execAll (mach : Machine ι J σ ε Λ ρ) (ok : Λ → σ → Bool) :
    Pool ι J σ ε Λ ρ → List (Ev ι J) → Option (Pool ι J σ ε Λ ρ)
  | c, [] => some c
  | c, e :: es =>
    match exec mach ok c e with
    | some c' => execAll mach ok c' es
    | none => none

/-- The error that stops the next step of `i`. -/
def fault (i : ι) : Option ε :=
  match c.calls i with
  | some (_, .atom _ m _) =>
    match m c.state with
    | .error e => some e
    | .ok _ => none
  | _ => none

/-- The label of the next step of `i`. -/
def label (i : ι) : Option Λ :=
  match c.calls i with
  | some (_, .atom l _ _) => some l
  | _ => none

/-- What the job of `i` has returned. -/
def result (i : ι) : Option ρ :=
  match c.calls i with
  | some (_, .ret r) => some r
  | _ => none

variable {k : β → Thread σ ε Λ ρ}

omit [DecidableEq ι] in
theorem calls_of_jobs {c : Pool ι J σ ε Λ ρ} {i : ι} {j : J} (hj : c.jobs i = some j) :
    ∃ t, c.calls i = some (j, t) := by
  obtain ⟨⟨_, t⟩, h, rfl⟩ := Option.map_eq_some_iff.1 hj
  exact ⟨t, h⟩

omit [DecidableEq ι] in
theorem label_eq {c : Pool ι J σ ε Λ ρ} {i : ι} {j : J} (hj : c.jobs i = some j)
    (hl : c.label i = some l) :
    ∃ (β : Type) (m : Prog σ ε β) (k : β → Thread σ ε Λ ρ), c.calls i = some (j, .atom l m k) := by
  obtain ⟨t, ht⟩ := calls_of_jobs hj
  rw [label, ht] at hl
  cases t with
  | ret r => cases hl
  | atom l m k => cases hl; exact ⟨_, m, k, ht⟩

omit [DecidableEq ι] in
theorem result_eq {c : Pool ι J σ ε Λ ρ} {i : ι} {j : J} {r : ρ} (hj : c.jobs i = some j)
    (hr : c.result i = some r) : c.calls i = some (j, .ret r) := by
  obtain ⟨t, ht⟩ := calls_of_jobs hj
  rw [result, ht] at hr
  cases t with
  | ret r => cases hr; exact ht
  | atom l m k => cases hr

omit [DecidableEq ι] in
theorem fault_atom {c : Pool ι J σ ε Λ ρ} {i : ι} {j : J} {m : Prog σ ε β} {e : ε}
    (hi : c.calls i = some (j, .atom l m k)) : c.fault i = some e ↔ m c.state = .error e := by
  unfold fault
  rw [hi]
  dsimp only
  cases hm : m c.state with
  | error e' => simp
  | ok r => simp

variable {e : Ev ι J}

section Exec

variable {mach : Machine ι J σ ε Λ ρ} {ok : Λ → σ → Bool} {allowed : Λ → σ → Prop}
  {c c' : Pool ι J σ ε Λ ρ}

theorem exec_cases (h : exec mach ok c e = some c') :
    (∃ j, e = .start j ∧ c.calls (mach.owner j) = none ∧
      c' = c.set (mach.owner j) (some (j, mach.body j)) c.state) ∨
    (∃ i j l, ∃ (β : Type) (m : Prog σ ε β) (k : β → Thread σ ε Λ ρ) (b : β) (s' : σ), e = .go i ∧
      c.calls i = some (j, .atom l m k) ∧ ok l c.state = true ∧ m c.state = .ok (b, s') ∧
        c' = c.set i (some (j, k b)) s') ∨
    ∃ i j r, e = .go i ∧ c.calls i = some (j, .ret r) ∧ c' = c.set i none c.state := by
  cases e with
  | start j =>
    simp only [exec] at h
    split at h
    · rename_i hc
      cases h
      exact .inl ⟨j, rfl, hc, rfl⟩
    · cases h
  | go i =>
    simp only [exec] at h
    split at h
    · cases h
    · rename_i hc
      cases h
      exact .inr (.inr ⟨i, _, _, rfl, hc, rfl⟩)
    · rename_i hc
      split at h
      · rename_i hl
        split at h
        · rename_i hm
          cases h
          exact .inr (.inl ⟨i, _, _, _, _, _, _, _, rfl, hc, hl, hm, rfl⟩)
        · cases h
      · cases h

theorem exec_next (hok : ∀ l s, ok l s = true → allowed l s) (h : exec mach ok c e = some c') :
    Next mach allowed c c' := by
  rcases exec_cases h with ⟨j, -, hc, rfl⟩ | ⟨i, j, l, β, m, k, b, s', -, hc, hl, hm, rfl⟩
    | ⟨i, j, r, -, hc, rfl⟩
  · exact .start j hc
  · exact .move (hok _ _ hl) ⟨hc, hm⟩
  · exact .finish hc

theorem execAll_reaches {es : List (Ev ι J)} (hok : ∀ l s, ok l s = true → allowed l s)
    (h : execAll mach ok c es = some c') :
    Reaches mach allowed c c' := by
  induction es generalizing c with
  | nil =>
    cases h
    exact .refl
  | cons e es ih =>
    simp only [execAll] at h
    split at h
    · rename_i hc
      exact .head (exec_next hok hc) (ih h)
    · cases h

end Exec

end Pool

/-! ## Tokens -/

section Tally

variable {τ : Type} (g : τ → Nat)

/-- What the tokens amount to. -/
def tally (M : Multiset τ) : Nat := (M.map g).sum

@[simp] theorem tally_zero : tally g 0 = 0 := rfl

@[simp] theorem tally_singleton (t : τ) : tally g {t} = g t := by simp [tally]

@[simp] theorem tally_cons (t : τ) (M : Multiset τ) : tally g (t ::ₘ M) = g t + tally g M := by
  simp [tally]

@[simp] theorem tally_add (A B : Multiset τ) : tally g (A + B) = tally g A + tally g B := by
  simp [tally]

theorem tally_sum : ∀ l : List (Multiset τ), tally g l.sum = (l.map (tally g)).sum
  | [] => rfl
  | A :: l => by rw [List.sum_cons, tally_add, tally_sum l, List.map_cons, List.sum_cons]

theorem tally_finset_sum (s : Finset ι) (F : ι → Multiset τ) :
    tally g (∑ i ∈ s, F i) = ∑ i ∈ s, tally g (F i) := by
  classical
  induction s using Finset.induction_on with
  | empty => rfl
  | insert i s hi ih => rw [Finset.sum_insert hi, Finset.sum_insert hi, tally_add, ih]

variable {M : Multiset τ}

theorem le_tally {t : τ} (h : t ∈ M) : g t ≤ tally g M :=
  Multiset.le_sum_of_mem (Multiset.mem_map_of_mem g h)

theorem exists_of_tally (h : tally g M ≠ 0) : ∃ t ∈ M, g t ≠ 0 := by
  by_contra hne
  push Not at hne
  exact h (Multiset.sum_eq_zero fun n hn => by
    obtain ⟨t, ht, rfl⟩ := Multiset.mem_map.1 hn
    exact hne t ht)

end Tally

theorem update_field [DecidableEq ι] (g : β → γ) {F : ι → β} {i : ι} {b : β}
    (h : g b = g (F i)) (x : ι) :
    g (update F i b x) = g (F x) := by
  by_cases hx : x = i
  · rw [hx, update_self, h]
  · rw [update_of_ne hx]

theorem sum_update_add [Fintype ι] [DecidableEq ι] (g : β → Nat) (F : ι → β) (i : ι) (b : β) :
    ∑ x, g (update F i b x) + g (F i) = ∑ x, g (F x) + g b := by
  have hcomp : ∀ x, g (update F i b x) = update (fun x => g (F x)) i (g b) x := fun x => by
    by_cases h : x = i
    · subst h; simp
    · simp [h]
  rw [Finset.sum_congr rfl fun x _ => hcomp x, Finset.sum_update_of_mem (Finset.mem_univ i),
    ← Finset.add_sum_erase Finset.univ (fun x => g (F x)) (Finset.mem_univ i),
    Finset.sdiff_singleton_eq_erase]
  omega

/-- An invariant of the jobs under way, all tokens and the state; which steps are allowed, what each
has to keep and which errors it may end with; what a token owes, and what a step puts right. -/
structure Rules (γ τ σ ε Λ : Type) where
  inv : γ → Multiset τ → σ → Prop
  allowed : Λ → σ → Prop
  keeps : Λ → σ → σ → Prop
  fine : Λ → ε → Prop
  debt : Type := Empty
  fade : τ → Option debt := fun _ => none
  due : Λ → Multiset debt := fun _ => 0

namespace Rules

variable {γ τ σ ε Λ α β : Type} (D : Rules γ τ σ ε Λ)

/-- What the tokens owe. -/
def owed (A : Multiset τ) : Multiset D.debt := A.filterMap D.fade

/-- What the next step of the thread puts right. -/
def dueOf : Thread σ ε Λ α → Multiset D.debt
  | .ret _ => 0
  | .atom l _ _ => D.due l

theorem owed_add (A B : Multiset τ) : D.owed (A + B) = D.owed A + D.owed B :=
  Multiset.filterMap_add ..

theorem dueOf_bind (t : Thread σ ε Λ α) (f : α → Thread σ ε Λ β) :
    D.dueOf t ≤ D.dueOf (t >>= f) := by
  cases t with
  | ret a => exact Multiset.zero_le _
  | atom l m k => exact le_rfl

variable {D} {A : Multiset τ} {C : Multiset D.debt}

theorem owed_le (h : ∀ t, D.fade t = none) : D.owed A ≤ C := by
  induction A using Multiset.induction_on with
  | empty => exact Multiset.zero_le _
  | cons t A ih =>
    rw [owed, Multiset.filterMap_cons_none _ _ (h t)]
    exact ih

/-- Where no token owes anything. -/
theorem owed_due_le (h : ∀ t, D.fade t = none) (hl : D.due l = 0) : D.owed A + D.due l ≤ C := by
  rw [hl, add_zero]
  exact owed_le h

end Rules

section Safe

variable {γ τ σ ε Λ α β : Type} (D : Rules γ τ σ ε Λ) (P : γ → Prop)

/-- The tokens `A` may be taken for the tokens `B`, whatever the others hold. -/
def Entails (A B : Multiset τ) : Prop :=
  (∀ g M s, P g → D.inv g (A + M) s → D.inv g (B + M) s) ∧ D.owed B ≤ D.owed A

/-- From the tokens `A` every step keeps the rules, in any context that meets `P`; it ends with
tokens that meet `Q`. -/
def Safe : Thread σ ε Λ α → Multiset τ → (α → Multiset τ → Prop) → Prop
  | .ret a, A, Q => ∃ B, Entails D P A B ∧ Q a B
  | .atom l m k, A, Q => ∀ g M s, P g → D.inv g (A + M) s → D.allowed l s →
      m.wp (fun b s' => D.keeps l s s' ∧ ∃ B, D.inv g (B + M) s' ∧
        D.owed B + D.due l ≤ D.owed A + D.dueOf (k b) ∧ Safe (k b) B Q) (D.fine l) s

variable {D P} {t : Thread σ ε Λ α} {f : α → Thread σ ε Λ β} {A A' B C : Multiset τ}
  {Q Q' : α → Multiset τ → Prop} {R : β → Multiset τ → Prop}

theorem Entails.refl (A : Multiset τ) : Entails D P A A := ⟨fun _ _ _ _ h => h, le_rfl⟩

theorem Entails.trans (h : Entails D P A B) (h' : Entails D P B C) : Entails D P A C :=
  ⟨fun g M s hg hI => h'.1 g M s hg (h.1 g M s hg hI), h'.2.trans h.2⟩

theorem Safe.ret {a : α} (h : Q a A) : Safe D P (.ret a) A Q := ⟨A, .refl A, h⟩

section

variable (h : Safe D P t A Q)
include h

theorem Safe.entails (hA : Entails D P A' A) : Safe D P t A' Q := by
  cases t with
  | ret a =>
    obtain ⟨B, hB, hQ⟩ := h
    exact ⟨B, hA.trans hB, hQ⟩
  | atom l m k =>
    intro g M s hg hI hl
    refine Prog.wp_mono (h g M s hg (hA.1 g M s hg hI) hl) fun b s' ⟨hk, B, hB, hle, hS⟩ =>
      ⟨hk, B, hB, hle.trans ?_, hS⟩
    exact Multiset.add_le_add_right hA.2

theorem Safe.bind (hf : ∀ a B, Q a B → Safe D P (f a) B R) : Safe D P (t >>= f) A R := by
  induction t generalizing A with
  | ret a =>
    obtain ⟨B, hB, hQ⟩ := h
    exact (hf a B hQ).entails hB
  | atom l m k ih =>
    intro g M s hg hI hl
    refine Prog.wp_mono (h g M s hg hI hl) fun b s' ⟨hk, B, hB, hle, hS⟩ =>
      ⟨hk, B, hB, hle.trans ?_, ih b hS⟩
    exact Multiset.add_le_add_left (D.dueOf_bind (k b) f)

theorem Safe.conclude (hQ : ∀ a B, Q a B → ∃ B', Entails D P B B' ∧ Q' a B') : Safe D P t A Q' := by
  induction t generalizing A with
  | ret a =>
    obtain ⟨B, hB, h⟩ := h
    obtain ⟨B', hB', h'⟩ := hQ a B h
    exact ⟨B', hB.trans hB', h'⟩
  | atom l m k ih =>
    intro g M s hg hI hl
    exact Prog.wp_mono (h g M s hg hI hl) fun b s' ⟨hk, B, hB, hle, hS⟩ => ⟨hk, B, hB, hle, ih b hS⟩

theorem Safe.mono (hQ : ∀ a B, Q a B → Q' a B) : Safe D P t A Q' :=
  h.conclude fun a B hB => ⟨B, .refl B, hQ a B hB⟩

/-- Tokens that a thread does not need stay as they are. -/
theorem Safe.frame (C : Multiset τ) : Safe D P t (A + C) fun a B => ∃ B', B = B' + C ∧ Q a B' := by
  induction t generalizing A with
  | ret a =>
    obtain ⟨B, hB, hQ⟩ := h
    refine ⟨B + C, ⟨fun g M s hg hI => ?_, ?_⟩, B, rfl, hQ⟩
    · rw [add_assoc] at hI ⊢
      exact hB.1 g (C + M) s hg hI
    · rw [D.owed_add, D.owed_add]
      exact Multiset.add_le_add_right hB.2
  | atom l m k ih =>
    intro g M s hg hI hl
    rw [add_assoc] at hI
    refine Prog.wp_mono (h g (C + M) s hg hI hl) fun b s' ⟨hk, B, hB, hle, hS⟩ =>
      ⟨hk, B + C, ?_, ?_, ih b hS⟩
    · rw [add_assoc]
      exact hB
    · rw [D.owed_add, D.owed_add, add_right_comm, add_right_comm _ (D.owed C)]
      exact Multiset.add_le_add_right hle

theorem Safe.seq (hA : A' = A + C) (hf : ∀ a B, Q a B → Safe D P (f a) (B + C) R) :
    Safe D P (t >>= f) A' R := by
  subst hA
  refine (h.frame C).bind fun a B ⟨B', hB, hQ⟩ => ?_
  subst hB
  exact hf a B' hQ

end

variable {F : α → Multiset τ}

theorem Safe.next (h : Safe D P t A fun a B => B = F a) (hf : ∀ a, Safe D P (f a) (F a) R) :
    Safe D P (t >>= f) A R :=
  h.bind fun a B hB => by
    subst hB
    exact hf a

theorem Safe.after (h : Safe D P t A fun a B => B = F a) (hA : A' = A + C)
    (hf : ∀ a, Safe D P (f a) (F a + C) R) : Safe D P (t >>= f) A' R :=
  h.seq hA fun a B hB => by
    subst hB
    exact hf a

theorem Safe.spend (h : Safe D P t A fun _ B => B = 0) (hA : A' = A + C)
    (hf : ∀ a, Safe D P (f a) C R) : Safe D P (t >>= f) A' R :=
  h.after hA fun a => by
    rw [zero_add]
    exact hf a

theorem Safe.within (h : Safe D P t A Q) (hA : A' = A + C) (hQ : ∀ a B, Q a B → Q' a (B + C)) :
    Safe D P t A' Q' := by
  subst hA
  refine (h.frame C).mono fun a B ⟨B', hB, hQB⟩ => ?_
  subst hB
  exact hQ a B' hQB

theorem Safe.step (h : ∀ g M s, P g → D.inv g (A + M) s → D.allowed l s →
    m.wp (fun a s' => D.keeps l s s' ∧ ∃ B, D.inv g (B + M) s' ∧ D.owed B + D.due l ≤ D.owed A ∧
      Q a B) (D.fine l) s) :
    Safe D P (Thread.step l m) A Q := by
  intro g M s hg hI hl
  exact Prog.wp_mono (h g M s hg hI hl) fun a s' ⟨hk, B, hB, hle, hQ⟩ =>
    ⟨hk, B, hB, hle.trans (Multiset.le_add_right ..), .ret hQ⟩

/-- A thread none of whose steps concerns the tokens. -/
theorem Safe.each {R : ∀ β : Type, Prog σ ε β → Prop} (ht : t.Each R) (hdue : ∀ l, D.due l = 0)
    (hR : ∀ β (m : Prog σ ε β), R β m → ∀ l g M s,
    D.inv g M s → m.wp (fun _ s' => D.keeps l s s' ∧ D.inv g M s') (D.fine l) s) :
    Safe D P t A fun _ B => B = A := by
  induction t with
  | ret a => exact .ret rfl
  | atom l m k ih =>
    intro g M s hg hI hl
    refine Prog.wp_mono (hR _ m ht.1 l g _ s hI) fun b s' ⟨hk, hI'⟩ =>
      ⟨hk, A, hI', ?_, ih b (ht.2 b)⟩
    rw [hdue, add_zero]
    exact Multiset.le_add_right ..

end Safe

/-! ## From threads to pools -/

section Sound

variable {ι J τ σ ε Λ ρ : Type} [DecidableEq ι] [Fintype ι]

/-- What makes a machine obey the rules: `idle i B` are the tokens that `i` has between two jobs. -/
structure Obeys (mach : Machine ι J σ ε Λ ρ) (D : Rules (ι → Option J) τ σ ε Λ)
    (idle : ι → Multiset τ → Prop) : Prop where
  body : ∀ j B, idle (mach.owner j) B →
    Safe D (fun g => g (mach.owner j) = some j) (mach.body j) B fun _ B' => idle (mach.owner j) B'
  jobs : ∀ g i o B M s, idle i B → D.inv g (B + M) s → D.inv (update g i o) (B + M) s

/-- The tokens that `i` has between two jobs; they owe nothing. -/
def Rested (D : Rules (ι → Option J) τ σ ε Λ) (idle : ι → Multiset τ → Prop) (i : ι)
    (A : Multiset τ) : Prop :=
  idle i A ∧ D.owed A ≤ 0

/-- With the tokens `A` the job of `i` is safe, and they owe no more than its next step puts
right. -/
def Ready (D : Rules (ι → Option J) τ σ ε Λ) (idle : ι → Multiset τ → Prop) (i : ι) :
    Option (J × Thread σ ε Λ ρ) → Multiset τ → Prop
  | none, A => Rested D idle i A
  | some (j, t), A =>
    Safe D (fun g => g i = some j) t A (fun _ B => idle i B) ∧ D.owed A ≤ D.dueOf t

/-- The tokens of all owners meet the invariant, and with them the jobs under way are safe. -/
def Sound (D : Rules (ι → Option J) τ σ ε Λ) (idle : ι → Multiset τ → Prop) (c : Pool ι J σ ε Λ ρ) :
    Prop :=
  ∃ A : ι → Multiset τ, D.inv c.jobs (∑ i, A i) c.state ∧ ∀ i, Ready D idle i (c.calls i) (A i)

variable {mach : Machine ι J σ ε Λ ρ} {D : Rules (ι → Option J) τ σ ε Λ}
  {idle : ι → Multiset τ → Prop} {c c' : Pool ι J σ ε Λ ρ}

theorem sum_split (A : ι → Multiset τ) (i : ι) : ∑ x, A x = A i + ∑ x ∈ Finset.univ.erase i, A x :=
  (Finset.add_sum_erase _ _ (Finset.mem_univ i)).symm

theorem sum_update (A : ι → Multiset τ) (i : ι) (B : Multiset τ) :
    ∑ x, update A i B x = B + ∑ x ∈ Finset.univ.erase i, A x := by
  rw [sum_split _ i, update_self]
  congr 1
  exact Finset.sum_congr rfl fun x hx => update_of_ne (Finset.ne_of_mem_erase hx) ..

/-- A step of `i` that is allowed keeps what it has to keep, and an error it runs into is fine. -/
theorem Sound.atom {i : ι} {j : J} {m : Prog σ ε β} (hS : Sound D idle c)
    (hi : c.calls i = some (j, .atom l m k)) (hl : D.allowed l c.state) :
    m.wp (fun b s' => D.keeps l c.state s' ∧ Sound D idle (c.set i (some (j, k b)) s'))
      (D.fine l) c.state := by
  obtain ⟨A, hI, hA⟩ := hS
  have hjob : c.jobs i = some j := by rw [Pool.jobs, hi]; rfl
  have hAi := hA i
  rw [hi] at hAi
  rw [sum_split A i] at hI
  refine Prog.wp_mono (hAi.1 c.jobs _ c.state hjob hI hl) fun b s' ⟨hk, B, hB, hle, hSafe⟩ =>
    ⟨hk, update A i B, ?_, fun x => ?_⟩
  · rw [sum_update, Pool.jobs_set, Option.map_some, ← hjob, update_eq_self]
    exact hB
  · by_cases hx : x = i
    · subst hx
      rw [update_self, Pool.set_calls]
      refine ⟨hSafe, Multiset.le_of_add_le_add_right (hle.trans ?_)⟩
      rw [add_comm]
      exact Multiset.add_le_add_left hAi.2
    · rw [update_of_ne hx, Pool.set_calls_ne hx]
      exact hA x

theorem Sound.set (hO : Obeys mach D idle) {i : ι} {o : Option (J × Thread σ ε Λ ρ)}
    (hS : Sound D idle c)
    (hbefore : ∀ A, Ready D idle i (c.calls i) A → ∃ B, Entails D (fun g => g = c.jobs) A B ∧
      Rested D idle i B)
    (hafter : ∀ A, Rested D idle i A → Ready D idle i o A) : Sound D idle (c.set i o c.state) := by
  obtain ⟨A, hI, hA⟩ := hS
  obtain ⟨B, hB, hi⟩ := hbefore _ (hA i)
  refine ⟨update A i B, ?_, fun x => ?_⟩
  · rw [Pool.jobs_set, sum_update]
    rw [sum_split A i] at hI
    exact hO.jobs _ _ _ _ _ _ hi.1 (hB.1 _ _ _ rfl hI)
  · by_cases hx : x = i
    · subst hx
      rw [Pool.set_calls, update_self]
      exact hafter _ hi
    · rw [Pool.set_calls_ne hx, update_of_ne hx]
      exact hA x

theorem Sound.next (hO : Obeys mach D idle) (hS : Sound D idle c)
    (h : Pool.Next mach D.allowed c c') : Sound D idle c' := by
  cases h with
  | start j hj =>
    refine hS.set hO (fun A h => ⟨A, .refl A, ?_⟩) fun A h =>
      ⟨hO.body j A h.1, h.2.trans (Multiset.zero_le _)⟩
    rw [hj] at h
    exact h
  | move hl hm =>
    obtain ⟨hi, hrun⟩ := hm
    exact (Prog.wp_ok (hS.atom hi hl) hrun).2
  | @finish i j r hi =>
    refine hS.set hO (fun A h => ?_) fun A h => h
    rw [hi] at h
    obtain ⟨⟨B, hB, hidle⟩, howed⟩ := h
    refine ⟨B, ⟨fun g M s hg hI => hB.1 g M s ?_ hI, hB.2⟩, hidle, hB.2.trans howed⟩
    subst hg
    show (c.calls i).map Prod.fst = some j
    rw [hi]
    rfl

/-- **The invariant holds along every interleaving.** -/
theorem Sound.reaches (hO : Obeys mach D idle) (hS : Sound D idle c)
    (h : Pool.Reaches mach D.allowed c c') : Sound D idle c' := by
  induction h with
  | refl => exact hS
  | tail _ hn ih => exact ih.next hO hn

end Sound
