import Os4.Lib.Thread
/-!
# Runs with a record, threads with notes

An invariant of threads may need more than the state holds.

* A *record*: the labels of the steps so far, the latest first. `Pool.Trace` is a run with its
  record; `Thread.record` makes the record a part of the state (`Trace.record`).
* A *note* for each owner, which only the owner changes: what its job has in local variables. A note
  may hold tokens (`lent`).

`Rules.noted` adds both to given rules. `Works` is `Safe` for a thread that has tokens and the note
of its owner: **`Works.step`** says what a step has to show, `Works.join` takes one half of that
from the rules without notes, and **`Works.lift`** both for a thread that does not concern the
notes.
-/

open Function (update update_self update_of_ne update_eq_self)

variable {ι J γ τ δ σ ε Λ ρ α β : Type}

/-! ## The record -/

/-- A program that puts its label on the record. -/
def Prog.noted (l : Λ) (m : Prog σ ε α) : Prog (σ × List Λ) ε α := fun s =>
  match m s.1 with
  | .ok (a, s') => .ok (a, s', l :: s.2)
  | .error e => .error e

variable {l : Λ} {m : Prog σ ε α}

theorem Prog.wp_noted {Q : α → σ × List Λ → Prop} {E : ε → Prop} :
    (m.noted l).wp Q E s ↔ m.wp (fun a s' => Q a (s', l :: s.2)) E s.1 := by
  unfold wp noted
  cases m s.1 with
  | ok r => exact Iff.rfl
  | error e => exact Iff.rfl

namespace Thread

def record : Thread σ ε Λ α → Thread (σ × List Λ) ε Λ α
  | ret a => ret a
  | atom l m k => atom l (m.noted l) fun b => (k b).record

theorem record_bind (t : Thread σ ε Λ α) (f : α → Thread σ ε Λ β) :
    (t >>= f).record = t.record >>= fun a => (f a).record := by
  induction t with
  | ret a => rfl
  | atom l m k ih => exact congrArg (atom l (m.noted l)) (funext ih)

/-- `R` holds of every step with its label. -/
def EachAt (R : Λ → ∀ β : Type, Prog σ ε β → Prop) : Thread σ ε Λ α → Prop
  | ret _ => True
  | atom l m k => R l _ m ∧ ∀ b, (k b).EachAt R

section EachAt

variable {R : Λ → ∀ β : Type, Prog σ ε β → Prop}

theorem EachAt.step (h : R l _ m) : (step l m).EachAt R := ⟨h, fun _ => trivial⟩

theorem EachAt.mono {R' : Λ → ∀ β : Type, Prog σ ε β → Prop} {t : Thread σ ε Λ α} (ht : t.EachAt R)
    (h : ∀ l β (m : Prog σ ε β), R l β m → R' l β m) : t.EachAt R' := by
  induction t with
  | ret a => trivial
  | atom l m k ih => exact ⟨h l _ m ht.1, fun b => ih b (ht.2 b)⟩

theorem EachAt.bind {t : Thread σ ε Λ α} {f : α → Thread σ ε Λ β} (ht : t.EachAt R)
    (hf : ∀ a, (f a).EachAt R) :
    (t >>= f).EachAt R := by
  induction t with
  | ret a => exact hf a
  | atom l m k ih => exact ⟨ht.1, fun b => ih b (ht.2 b)⟩

theorem EachAt.shows {R' : Λ → Prop} {t : Thread σ ε Λ α} (ht : t.EachAt R)
    (h : ∀ l β (m : Prog σ ε β), R l β m → R' l) :
    t.Shows R' fun _ => True := by
  induction t with
  | ret a => trivial
  | atom l m k ih => exact ⟨h l _ m ht.1, fun b => ih b (ht.2 b)⟩

end EachAt

end Thread

def Machine.record (mach : Machine ι J σ ε Λ ρ) : Machine ι J (σ × List Λ) ε Λ ρ where
  owner := mach.owner
  body j := (mach.body j).record

namespace Pool

variable [DecidableEq ι] {mach : Machine ι J σ ε Λ ρ} {allowed : Λ → σ → Prop}
  {c0 c : Pool ι J σ ε Λ ρ} {h : List Λ}

/-- A run from `c0`, with its record. -/
inductive Trace (mach : Machine ι J σ ε Λ ρ) (allowed : Λ → σ → Prop) (c0 : Pool ι J σ ε Λ ρ) :
    List Λ → Pool ι J σ ε Λ ρ → Prop where
  | refl : Trace mach allowed c0 [] c0
  | start {h : List Λ} {c : Pool ι J σ ε Λ ρ} (j : J) : Trace mach allowed c0 h c →
      c.calls (mach.owner j) = none →
    Trace mach allowed c0 h (c.set (mach.owner j) (some (j, mach.body j)) c.state)
  | move {h : List Λ} {c c' : Pool ι J σ ε Λ ρ} {i : ι} {l : Λ} : Trace mach allowed c0 h c →
      allowed l c.state → Move i l c c' → Trace mach allowed c0 (l :: h) c'
  | finish {h : List Λ} {c : Pool ι J σ ε Λ ρ} {i : ι} {j : J} {r : ρ} : Trace mach allowed c0 h c →
      c.calls i = some (j, .ret r) → Trace mach allowed c0 h (c.set i none c.state)

theorem Reaches.trace (hr : Reaches mach allowed c0 c) : ∃ h, Trace mach allowed c0 h c := by
  induction hr with
  | refl => exact ⟨[], .refl⟩
  | tail _ hn ih =>
    obtain ⟨h, ih⟩ := ih
    cases hn with
    | start j hj => exact ⟨h, ih.start j hj⟩
    | move hl hm => exact ⟨_ :: h, ih.move hl hm⟩
    | finish hi => exact ⟨h, ih.finish hi⟩

/-- The pool with the record `h`. -/
def record (c : Pool ι J σ ε Λ ρ) (h : List Λ) : Pool ι J (σ × List Λ) ε Λ ρ :=
  ⟨fun i => (c.calls i).map (Prod.map id Thread.record), c.state, h⟩

omit [DecidableEq ι] in
theorem record_calls {j : J} {t : Thread σ ε Λ ρ} (hi : c.calls i = some (j, t)) :
    (c.record h).calls i = some (j, t.record) := by
  simp [record, hi]

theorem record_set (i : ι) (o : Option (J × Thread σ ε Λ ρ)) (s : σ) (h' : List Λ) :
    (c.set i o s).record h' = (c.record h).set i (o.map (Prod.map id Thread.record)) (s, h') := by
  unfold record set
  congr 1
  funext x
  by_cases hx : x = i
  · simp [hx]
  · simp [update_of_ne hx]

/-- A run of the machine is one of the machine with a record. -/
theorem Trace.record (hr : Trace mach allowed c0 h c) :
    Reaches mach.record (fun l s => allowed l s.1) (c0.record []) (c.record h) := by
  induction hr with
  | refl => exact .refl
  | @start h c j _ hj ih =>
    refine ih.tail ?_
    rw [record_set (h := h)]
    refine Next.start j ?_
    show ((c.calls (mach.owner j)).map _) = none
    rw [hj]
    rfl
  | @move h c c' i l _ hl hm ih =>
    refine ih.tail ?_
    obtain ⟨hi, hrun⟩ := hm
    rw [record_set (h := h)]
    exact Next.move hl (Move.mk (record_calls hi) (by simp only [Prog.noted, Pool.record, hrun]))
  | @finish h c i j r _ hi ih =>
    refine ih.tail ?_
    rw [record_set (h := h)]
    exact Next.finish (record_calls hi)

end Pool

/-! ## Notes -/

/-- An invariant of all notes, the state and the record; what a step has to find and which errors it
may end with. -/
structure Notes (γ τ σ ε Λ ι δ : Type) where
  lent : δ → Multiset τ
  inv : γ → (ι → δ) → σ → List Λ → Prop
  keeps : Λ → σ → List Λ → Prop
  fine : Λ → ε → Prop

section Works

variable [Fintype ι]

/-- The notes of all owners. -/
def deal (F : ι → δ) : Multiset (ι × δ) := Finset.univ.val.map fun i => (i, F i)

def Rules.noted (D : Rules γ τ σ ε Λ) (N : Notes γ τ σ ε Λ ι δ) :
    Rules γ (τ ⊕ ι × δ) (σ × List Λ) ε Λ where
  inv g T s := ∃ F : ι → δ, T.filterMap Sum.getRight? = deal F ∧
    D.inv g (T.filterMap Sum.getLeft? + ∑ i, N.lent (F i)) s.1 ∧ N.inv g F s.1 s.2
  allowed l s := D.allowed l s.1
  keeps l s _ := N.keeps l s.1 s.2
  fine := N.fine

/-- Tokens, and the note of `i`. -/
def kit (A : Multiset τ) (i : ι) (d : δ) : Multiset (τ ⊕ ι × δ) := A.map .inl + {.inr (i, d)}

variable {D : Rules γ τ σ ε Λ} {N : Notes γ τ σ ε Λ ι δ} {P : γ → Prop} {i : ι}
  {A B : Multiset τ} {d : δ} {g : γ}
  {M : Multiset (τ ⊕ ι × δ)} {s : σ × List Λ} {t : Thread σ ε Λ α} {f : α → Thread σ ε Λ β}
  {Q Q' : α → Multiset τ → δ → Prop} {R : β → Multiset τ → δ → Prop}

omit [Fintype ι] in
theorem kit_left : (kit A i d + M).filterMap Sum.getLeft? = A + M.filterMap Sum.getLeft? := by
  unfold kit
  rw [Multiset.filterMap_add, Multiset.filterMap_add, Multiset.filterMap_map]
  show A.filterMap some + 0 + _ = _
  rw [Multiset.filterMap_some, add_zero]

omit [Fintype ι] in
theorem kit_right : (kit A i d + M).filterMap Sum.getRight? =
    (i, d) ::ₘ M.filterMap Sum.getRight? := by
  unfold kit
  rw [Multiset.filterMap_add, Multiset.filterMap_add, Multiset.filterMap_map]
  have hnone : ∀ A : Multiset τ, A.filterMap (Sum.getRight? ∘ (Sum.inl : τ → τ ⊕ ι × δ)) = 0 :=
    fun A => by
    induction A using Multiset.induction_on with
    | empty => rfl
    | cons a A ih => rw [Multiset.filterMap_cons_none _ _ rfl, ih]
  rw [hnone, zero_add]
  exact Multiset.singleton_add ..

variable (D N P i) in
/-- With the tokens `A` and the note `d` of its owner `i`, every step of the thread keeps the
rules. -/
def Works (t : Thread σ ε Λ α) (A : Multiset τ) (d : δ) (Q : α → Multiset τ → δ → Prop) : Prop :=
  Safe (D.noted N) P t.record (kit A i d) fun a B => ∃ A' d', B = kit A' i d' ∧ Q a A' d'

theorem Works.ret {a : α} (h : Q a A d) : Works D N P i (.ret a) A d Q := Safe.ret ⟨A, d, rfl, h⟩

theorem Works.bind (h : Works D N P i t A d Q)
    (hf : ∀ a A' d', Q a A' d' → Works D N P i (f a) A' d' R) :
    Works D N P i (t >>= f) A d R := by
  unfold Works
  rw [Thread.record_bind]
  refine Safe.bind h fun a B hB => ?_
  obtain ⟨A', d', rfl, hQ⟩ := hB
  exact hf a A' d' hQ

theorem Works.next {B : α → Multiset τ} {e : α → δ}
    (h : Works D N P i t A d fun a A' d' => A' = B a ∧ d' = e a)
    (hf : ∀ a, Works D N P i (f a) (B a) (e a) R) : Works D N P i (t >>= f) A d R :=
  h.bind fun a _ _ hQ => hQ.1 ▸ hQ.2 ▸ hf a

theorem Works.mono (h : Works D N P i t A d Q) (hQ : ∀ a A' d', Q a A' d' → Q' a A' d') :
    Works D N P i t A d Q' :=
  Safe.mono h fun a B hB => by
    obtain ⟨A', d', hB, hq⟩ := hB
    exact ⟨A', d', hB, hQ a A' d' hq⟩

/-- Tokens that a thread does not need stay as they are. -/
theorem Works.frame (h : Works D N P i t A d Q) (C : Multiset τ) :
    Works D N P i t (A + C) d fun a A' d' => ∃ A0, A' = A0 + C ∧ Q a A0 d' := by
  have hkit : ∀ (A : Multiset τ) (d : δ), kit (A + C) i d = kit A i d + C.map .inl := fun A d => by
    unfold kit
    rw [Multiset.map_add, add_right_comm]
  unfold Works
  rw [hkit]
  refine (Safe.frame h (C.map .inl)).mono fun a B hB => ?_
  obtain ⟨B', rfl, A', d', rfl, hQ⟩ := hB
  exact ⟨A' + C, d', (hkit A' d').symm, A', rfl, hQ⟩

variable {A' C : Multiset τ}

theorem Works.seq (h : Works D N P i t A d Q) (hA : A' = A + C)
    (hf : ∀ a B d', Q a B d' → Works D N P i (f a) (B + C) d' R) :
    Works D N P i (t >>= f) A' d R := by
  subst hA
  refine (h.frame C).bind fun a B d' hB => ?_
  obtain ⟨A0, rfl, hQ⟩ := hB
  exact hf a A0 d' hQ

theorem Works.within (h : Works D N P i t A d Q) (hA : A' = A + C)
    (hQ : ∀ a B d', Q a B d' → Q' a (B + C) d') :
    Works D N P i t A' d Q' := by
  subst hA
  refine (h.frame C).mono fun a B d' hB => ?_
  obtain ⟨A0, rfl, hq⟩ := hB
  exact hQ a A0 d' hq

theorem filterMap_sum {τ' υ : Type} (f : τ' → Option υ) (G : ι → Multiset τ') :
    (∑ i, G i).filterMap f = ∑ i, (G i).filterMap f := by
  classical
  induction (Finset.univ : Finset ι) using Finset.induction_on with
  | empty => rfl
  | insert i I hi ih => rw [Finset.sum_insert hi, Finset.sum_insert hi, Multiset.filterMap_add, ih]

variable {idle : ι → Multiset τ}

theorem sound_noted {D : Rules (ι → Option J) τ σ ε Λ} {N : Notes (ι → Option J) τ σ ε Λ ι δ}
    {away : δ} {s : σ}
    (hD : D.inv (fun _ => none) (∑ i, idle i + ∑ _i : ι, N.lent away) s)
    (hN : N.inv (fun _ => none) (fun _ => away) s []) :
    Sound (D.noted N) (fun i B => B = kit (idle i) i away)
      ((⟨fun _ => none, s⟩ : Pool ι J σ ε Λ ρ).record []) := by
  have hkit : ∀ i, (kit (idle i) i away).filterMap Sum.getLeft? = idle i ∧
      (kit (idle i) i away).filterMap Sum.getRight? = {(i, away)} := fun i => by
    have hleft := kit_left (A := idle i) (i := i) (d := away) (M := 0)
    have hright := kit_right (A := idle i) (i := i) (d := away) (M := 0)
    rw [add_zero] at hleft hright
    exact ⟨by rw [hleft, Multiset.filterMap_zero, add_zero],
      by rw [hright, Multiset.filterMap_zero, Multiset.cons_zero]⟩
  refine ⟨fun i => kit (idle i) i away, ⟨fun _ => away, ?_, ?_, hN⟩,
    fun i => ⟨rfl, Rules.owed_le fun _ => rfl⟩⟩
  · rw [filterMap_sum, Finset.sum_congr rfl fun i _ => (hkit i).2]
    exact Multiset.bind_singleton Finset.univ.val fun i => (i, away)
  · rw [filterMap_sum, Finset.sum_congr rfl fun i _ => (hkit i).1]
    exact hD

variable [DecidableEq ι]

theorem deal_split (F : ι → δ) (i : ι) :
    deal F = (i, F i) ::ₘ (Finset.univ.erase i).val.map fun x => (x, F x) := by
  unfold deal
  rw [Finset.erase_val, ← Multiset.map_cons (fun x => (x, F x)),
    Multiset.cons_erase (Finset.mem_univ i)]

theorem deal_cons {F : ι → δ} {R : Multiset (ι × δ)} (h : (i, d) ::ₘ R = deal F) :
    F i = d ∧ ∀ d', (i, d') ::ₘ R = deal (update F i d') := by
  have hi : F i = d := by
    have hmem : (i, d) ∈ deal F := h ▸ Multiset.mem_cons_self ..
    obtain ⟨x, -, hx⟩ := Multiset.mem_map.1 hmem
    cases hx
    rfl
  refine ⟨hi, fun d' => ?_⟩
  rw [deal_split F i, hi] at h
  rw [deal_split _ i, update_self, (Multiset.cons_inj_right _).1 h]
  congr 1
  refine Multiset.map_congr rfl fun x hx => ?_
  rw [update_of_ne (Finset.ne_of_mem_erase hx)]

/-- What the owner of a note may use, and what it has to show in return. -/
theorem noted_open (h : (D.noted N).inv g (kit A i d + M) s) :
    ∃ F C, F i = d ∧ (∀ x, x ≠ i → N.lent (F x) ≤ C) ∧
    D.inv g (A + N.lent d + C) s.1 ∧ N.inv g F s.1 s.2 ∧
    ∀ A' d' s', D.inv g (A' + N.lent d' + C) s'.1 →
      N.inv g (update F i d') s'.1 s'.2 → (D.noted N).inv g (kit A' i d' + M) s' := by
  obtain ⟨F, hF, hD, hN⟩ := h
  rw [kit_right] at hF
  obtain ⟨hi, hset⟩ := deal_cons hF
  have hsum : ∀ G : ι → δ, ∑ x, N.lent (G x) = N.lent (G i) + ∑ x ∈ Finset.univ.erase i,
      N.lent (G x) := fun G =>
    sum_split (fun x => N.lent (G x)) i
  refine ⟨F, M.filterMap Sum.getLeft? + ∑ x ∈ Finset.univ.erase i, N.lent (F x), hi,
    fun x hx => ?_, ?_, hN, fun A' d' s' hD' hN' => ?_⟩
  · have hmem : x ∈ Finset.univ.erase i := Finset.mem_erase.2 ⟨hx, Finset.mem_univ x⟩
    rw [← Finset.add_sum_erase _ (fun y => N.lent (F y)) hmem]
    exact (Multiset.le_add_right ..).trans (Multiset.le_add_left ..)
  · rw [kit_left, hsum, hi] at hD
    rwa [add_add_add_comm]
  · refine ⟨_, by rw [kit_right, hset d'], ?_, hN'⟩
    rw [kit_left, hsum, update_self, add_add_add_comm]
    have hrest : ∑ x ∈ Finset.univ.erase i, N.lent (update F i d' x) = ∑ x ∈
        Finset.univ.erase i, N.lent (F x) :=
      Finset.sum_congr rfl fun x hx => by rw [update_of_ne (Finset.ne_of_mem_erase hx)]
    rwa [hrest]

/-- The tokens and the note may be taken for others. -/
theorem Works.entails {A0 : Multiset τ} {d0 : δ} (h : Works D N P i t A d Q)
    (hA : ∀ g F M s r, P g → F i = d0 → (∀ x, x ≠ i → N.lent (F x) ≤ M) →
      D.inv g (A0 + N.lent d0 + M) s → N.inv g F s r →
      D.inv g (A + N.lent d + M) s ∧ N.inv g (update F i d) s r) : Works D N P i t A0 d0 Q := by
  refine Safe.entails h ⟨fun g M s hg hI => ?_, Rules.owed_le fun _ => rfl⟩
  obtain ⟨F, C, hi, hC, hD, hN, hset⟩ := noted_open hI
  obtain ⟨hD', hN'⟩ := hA g F C s.1 s.2 hg hi hC hD hN
  exact hset _ _ s hD' hN'

theorem Works.step (h : ∀ g F M s r, P g → F i = d → (∀ x, x ≠ i → N.lent (F x) ≤ M) →
    D.inv g (A + N.lent d + M) s → N.inv g F s r → D.allowed l s →
    m.wp (fun a s' => N.keeps l s r ∧ ∃ A' d', D.inv g (A' + N.lent d' + M) s' ∧
      N.inv g (update F i d') s' (l :: r) ∧ Q a A' d') (N.fine l) s) :
      Works D N P i (Thread.step l m) A d Q := by
  refine Safe.step fun g M s hg hI hl => ?_
  rw [Prog.wp_noted]
  obtain ⟨F, C, hi, hC, hD, hN, hset⟩ := noted_open hI
  refine Prog.wp_mono (h g F C s.1 s.2 hg hi hC hD hN hl) fun a s' hs' => ?_
  obtain ⟨hk, A', d', hD', hN', hQ⟩ := hs'
  exact ⟨hk, kit A' i d', hset A' d' (s', l :: s.2) hD' hN',
    Rules.owed_due_le (fun _ => rfl) rfl, A', d', rfl, hQ⟩

variable {Q0 : α → Multiset τ → Prop}

/-- A step that is safe without notes, and keeps them in order. -/
theorem Works.join (hS : Safe D P (Thread.step l m) (A + N.lent d) Q0)
    (h : ∀ g F M s r, P g → F i = d → (∀ x, x ≠ i → N.lent (F x) ≤ M) →
      D.inv g (A + N.lent d + M) s → N.inv g F s r →
      m.wp (fun a s' => N.keeps l s r ∧ ∀ B, Q0 a B → ∃ A' d', B = A' + N.lent d' ∧
        N.inv g (update F i d') s' (l :: r) ∧
        Q a A' d') (N.fine l) s) : Works D N P i (Thread.step l m) A d Q := by
  refine Works.step fun g F M s r hg hi hM hD hN hl => ?_
  have hsafe := hS g M s hg hD hl
  have hnote := h g F M s r hg hi hM hD hN
  refine Prog.wp_of_ok (fun a s' hm => ?_) fun e hm => Prog.wp_error hnote hm
  obtain ⟨-, B, hB, -, B', hent, hQ⟩ := Prog.wp_ok hsafe hm
  obtain ⟨hk, hafter⟩ := Prog.wp_ok hnote hm
  obtain ⟨A', d', rfl, hN', hQ'⟩ := hafter B' hQ
  exact ⟨hk, A', d', hent.1 g M s' hg hB, hN', hQ'⟩

/-- A thread none of whose steps concerns the notes. -/
theorem Works.lift (hS : Safe D P t A Q0)
    (ht : t.EachAt fun l _ m => ∀ g F s r, N.inv g F s r →
      m.wp (fun _ s' => N.keeps l s r ∧ N.inv g F s' (l :: r)) (N.fine l) s) :
    Works D N P i t A d fun a A' d' => Q0 a A' ∧ d' = d := by
  induction t generalizing A with
  | ret a =>
    obtain ⟨B, hent, hQ⟩ := hS
    refine Works.entails (.ret ⟨hQ, rfl⟩) fun g F M s r hg hi _ hD hN => ⟨?_, ?_⟩
    · rw [add_assoc] at hD ⊢
      exact hent.1 g _ s hg hD
    · rwa [← hi, update_eq_self]
  | atom l m k ih =>
    intro g M s hg hI hl
    rw [Prog.wp_noted]
    obtain ⟨F, C, hi, -, hD, hN, hset⟩ := noted_open hI
    rw [add_assoc] at hD
    have hsafe := hS g _ s.1 hg hD hl
    have hnote := ht.1 g F s.1 s.2 hN
    refine Prog.wp_of_ok (fun b s' hm => ?_) fun e hm => Prog.wp_error hnote hm
    obtain ⟨-, B, hB, -, hk⟩ := Prog.wp_ok hsafe hm
    obtain ⟨hkeep, hN'⟩ := Prog.wp_ok hnote hm
    refine ⟨hkeep, kit B i d, hset B d (s', l :: s.2) ?_ ?_,
      Rules.owed_due_le (fun _ => rfl) rfl, ih b hk (ht.2 b)⟩
    · rwa [add_assoc]
    · rwa [← hi, update_eq_self]

/-- What makes a machine obey the rules with notes: `A` and `d` are what an owner has between two
jobs. -/
theorem obeys_noted {mach : Machine ι J σ ε Λ ρ} {D : Rules (ι → Option J) τ σ ε Λ}
    {N : Notes (ι → Option J) τ σ ε Λ ι δ} {away : δ}
    (hbody : ∀ j, Works D N (fun g => g (mach.owner j) = some j) (mach.owner j) (mach.body j)
      (idle (mach.owner j)) away fun _ A d =>
      A = idle (mach.owner j) ∧ d = away)
    (hD : ∀ g i o M s, D.inv g M s → D.inv (update g i o) M s)
    (hN : ∀ g F i o s r, F i = away → N.inv g F s r → N.inv (update g i o) F s r) :
    Obeys mach.record (D.noted N) fun i B => B = kit (idle i) i away where
  body j B hB := by
    subst hB
    refine Safe.mono (hbody j) fun a B hB => ?_
    obtain ⟨A, d, rfl, rfl, rfl⟩ := hB
    rfl
  jobs g i o B M s hB hI := by
    subst hB
    obtain ⟨F, hF, hD', hN'⟩ := hI
    have hi : F i = away := by
      rw [kit_right] at hF
      exact (deal_cons hF).1
    exact ⟨F, hF, hD g i o _ _ hD', hN g F i o _ _ hi hN'⟩

end Works
