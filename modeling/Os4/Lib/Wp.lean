import Mathlib.Tactic.Common
/-!
# Weakest preconditions for programs with a state and an error exit

A program takes a state and either returns a value with the next state or stops with an error.
`wp m Q E s` says what running `m` from `s` guarantees: `Q` of the value and state it returns,
`E` of the error it stops with. With `E := fun _ => False` it is total correctness
(`wp_total`), with `E := fun _ => True` partial correctness.

`Mirrors R m` compares two runs of one program.
-/

abbrev Prog (σ ε : Type) := StateT σ (Except ε)

namespace Prog

variable {σ ε α β : Type}

def wp (m : Prog σ ε α) (Q : α → σ → Prop) (E : ε → Prop) (s : σ) : Prop :=
  match m s with
  | .ok (a, s') => Q a s'
  | .error e => E e

variable {Q Q' : α → σ → Prop} {E E' : ε → Prop} {s : σ}

instance {m : Prog σ ε α} [∀ a s, Decidable (Q a s)] [∀ e, Decidable (E e)] :
    Decidable (wp m Q E s) :=
  match h : m s with
  | .ok (a, s') => decidable_of_iff (Q a s') (by unfold wp; rw [h])
  | .error e => decidable_of_iff (E e) (by unfold wp; rw [h])

@[simp] theorem wp_pure (a : α) : wp (pure a : Prog σ ε α) Q E s ↔ Q a s := Iff.rfl

@[simp] theorem wp_bind (m : Prog σ ε α) (f : α → Prog σ ε β) (R : β → σ → Prop) :
    wp (m >>= f) R E s ↔ wp m (fun a s' => wp (f a) R E s') E s := by
  unfold wp
  simp only [bind, StateT.bind, Except.bind]
  cases m s with
  | ok r => rfl
  | error e => rfl

@[simp] theorem wp_map (m : Prog σ ε α) (f : α → β) (R : β → σ → Prop) :
    wp (f <$> m) R E s ↔ wp m (fun a s' => R (f a) s') E s := by
  unfold wp
  simp only [Functor.map, StateT.map, bind, Except.bind]
  cases m s with
  | ok r => rfl
  | error e => rfl

@[simp] theorem wp_get (R : σ → σ → Prop) : wp (get : Prog σ ε σ) R E s ↔ R s s := Iff.rfl

@[simp] theorem wp_set (t : σ) (R : PUnit → σ → Prop) :
    wp (set t : Prog σ ε PUnit) R E s ↔ R ⟨⟩ t := Iff.rfl

@[simp] theorem wp_modify (f : σ → σ) (R : PUnit → σ → Prop) :
    wp (modify f : Prog σ ε PUnit) R E s ↔ R ⟨⟩ (f s) := Iff.rfl

@[simp] theorem wp_throw (e : ε) : wp (throw e : Prog σ ε α) Q E s ↔ E e := Iff.rfl

theorem wp_ite (c : Prop) [Decidable c] (m m' : Prog σ ε α) :
    wp (if c then m else m') Q E s ↔ (c → wp m Q E s) ∧ (¬ c → wp m' Q E s) := by
  by_cases hc : c <;> simp [hc]

variable {m : Prog σ ε α}

theorem wp_imp (h : wp m Q E s) (hQ : ∀ a s', Q a s' → Q' a s') (hE : ∀ e, E e → E' e) :
    wp m Q' E' s := by
  unfold wp at *
  split at h
  · exact hQ _ _ h
  · exact hE _ h

theorem wp_mono (h : wp m Q E s) (hQ : ∀ a s', Q a s' → Q' a s') : wp m Q' E s :=
  wp_imp h hQ fun _ h => h

theorem wp_guard {c : Prop} [Decidable c] {e : ε} (he : E e) (h : ¬ c → wp m Q E s) :
    wp (if c then throw e else m) Q E s :=
  (wp_ite c _ m).2 ⟨fun _ => he, h⟩

theorem wp_any (h : wp m Q E s) (hQ : ∀ a s', Q a s' → Q' a s') : wp m Q' (fun _ => True) s :=
  wp_imp h hQ fun _ _ => trivial

variable {f : α → Prog σ ε β}

/-- Run `m` first: its specification carries over to what follows. -/
theorem wp_seq {R : β → σ → Prop} (h : wp m Q E s)
    (hf : ∀ a s', Q a s' → wp (f a) R E' s') (hE : ∀ e, E e → E' e) : wp (m >>= f) R E' s :=
  (wp_bind m f R).2 (wp_imp h hf hE)

variable {a : α} {s' : σ}

theorem wp_ok (h : wp m Q E s) (hm : m s = .ok (a, s')) :
    Q a s' := by
  unfold wp at h; rw [hm] at h; exact h

theorem wp_run (hm : m s = .ok (a, s')) : wp m Q E s ↔ Q a s' := by
  unfold wp; rw [hm]

theorem wp_error {e : ε} (h : wp m Q E s) (hm : m s = .error e) : E e := by
  unfold wp at h; rw [hm] at h; exact h

theorem wp_total :
    wp m Q (fun _ => False) s ↔ ∃ a s', m s = .ok (a, s') ∧ Q a s' := by
  unfold wp
  cases h : m s with
  | ok r => obtain ⟨a, s'⟩ := r; simp
  | error e => simp

theorem wp_of_ok (hQ : ∀ a s', m s = .ok (a, s') → Q a s')
    (hE : ∀ e, m s = .error e → E e) : wp m Q E s := by
  unfold wp
  cases h : m s with
  | ok r => exact hQ _ _ h
  | error e => exact hE _ h

theorem bind_ok {b : β}
    (h : (m >>= f) s = .ok (b, s')) : ∃ a s1, m s = .ok (a, s1) ∧ f a s1 = .ok (b, s') := by
  simp only [bind, StateT.bind, Except.bind] at h
  cases hm : m s with
  | ok r => rw [hm] at h; exact ⟨r.1, r.2, rfl, h⟩
  | error e => rw [hm] at h; exact absurd h (by simp)

theorem bind_of_ok (h : m s = .ok (a, s')) :
    (m >>= f) s = f a s' := by
  simp only [bind, StateT.bind, Except.bind, h]

theorem get_bind {f : σ → Prog σ ε β} : (get >>= f : Prog σ ε β) s = f s s := rfl

/-! ## What a program may change -/

/-- Wherever `m` returns, the state before and the state after are related by `R`. -/
def Steps (R : σ → σ → Prop) (m : Prog σ ε α) : Prop := ∀ s a s', m s = .ok (a, s') → R s s'

section Steps

variable {R : σ → σ → Prop}

theorem Steps.pure (hr : ∀ s, R s s) (a : α) : Steps R (pure a : Prog σ ε α) := by
  intro s a s' h; cases h; exact hr s

theorem Steps.throw (e : ε) : Steps R (throw e : Prog σ ε α) := by
  intro s a s' h; cases h

theorem Steps.modify {f : σ → σ} (hf : ∀ s, R s (f s)) : Steps R (modify f : Prog σ ε PUnit) := by
  intro s a s' h; cases h; exact hf s

theorem Steps.bind (ht : ∀ a b c, R a b → R b c → R a c)
    (hm : Steps R m) (hf : ∀ a, Steps R (f a)) : Steps R (m >>= f) := by
  intro s b s' h
  obtain ⟨a, s1, h1, h2⟩ := bind_ok h
  exact ht _ _ _ (hm s a s1 h1) (hf a s1 b s' h2)

theorem Steps.get {f : σ → Prog σ ε β} (hf : ∀ s b s', f s s = .ok (b, s') → R s s') :
    Steps R (MonadState.get >>= f : Prog σ ε β) := by
  intro s b s' h
  obtain ⟨a, s1, h1, h2⟩ := bind_ok h
  cases h1
  exact hf s b s' h2

/-- What is read is used only as a value. -/
theorem Steps.read {f : σ → Prog σ ε β} (hf : ∀ t, Steps R (f t)) :
    Steps R (MonadState.get >>= f : Prog σ ε β) :=
  Steps.get fun s b s' h => hf s s b s' h

theorem Steps.ite {c : Prop} [Decidable c] {n : Prog σ ε α} (hm : Steps R m) (hn : Steps R n) :
    Steps R (if c then m else n) := by
  split
  · exact hm
  · exact hn

end Steps

/-! ## One program in two states -/

/-- What `m` does in the second of two related states it does in the first, and the states are
related again. -/
def Mirrors (R : σ → σ → Prop) (m : Prog σ ε α) : Prop :=
  ∀ s s' a t', R s s' → m s' = .ok (a, t') → ∃ t, m s = .ok (a, t) ∧ R t t'

section Mirrors

variable {R : σ → σ → Prop}

theorem Mirrors.pure (a : α) : Mirrors R (pure a : Prog σ ε α) := by
  intro s s' a t' hR h
  cases h
  exact ⟨s, rfl, hR⟩

theorem Mirrors.throw (e : ε) : Mirrors R (throw e : Prog σ ε α) := by
  intro s s' a t' hR h
  cases h

theorem Mirrors.bind (hm : Mirrors R m) (hf : ∀ a, Mirrors R (f a)) :
    Mirrors R (m >>= f) := by
  intro s s' b t' hR h
  obtain ⟨a, s1', h1, h2⟩ := bind_ok h
  obtain ⟨s1, hm1, hR1⟩ := hm s s' a s1' hR h1
  obtain ⟨t, hf1, hR2⟩ := hf a s1 s1' b t' hR1 h2
  exact ⟨t, by rw [bind_of_ok hm1, hf1], hR2⟩

/-- Something is read that is the same in both states. -/
theorem Mirrors.read {g : σ → α} (hg : ∀ s s', R s s' → g s = g s') :
    Mirrors R (do return g (← get) : Prog σ ε α) := by
  intro s s' a t' hR h
  cases h
  exact ⟨s, by rw [← hg s s' hR]; rfl, hR⟩

theorem Mirrors.modify {g : σ → σ} (hg : ∀ s s', R s s' → R (g s) (g s')) :
    Mirrors R (modify g : Prog σ ε PUnit) := by
  intro s s' a t' hR h
  cases h
  exact ⟨g s, rfl, hg s s' hR⟩

end Mirrors

/-- A run that a closed computation says to be successful. -/
theorem ok_of_map {r : Except ε σ} {f : σ → α} (h : r.toOption.map f = some a) :
    ∃ s, r = .ok s ∧ f s = a := by
  cases r with
  | error e => cases h
  | ok s => exact ⟨s, rfl, by simpa [Except.toOption] using h⟩

end Prog
