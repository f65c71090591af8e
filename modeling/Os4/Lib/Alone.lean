import Os4.Lib.Thread
/-!
# A thread that runs alone

`Meets ok t s` says that along the run of `t` from `s`, with nobody else running, each step starts
in a state that `ok` allows for its label. `alone ok t Q E s` is the weakest precondition of that
run: `Q` of the value, the state and the proposition `Meets ok t s`, `E` of the error. So a
condition on the steps of a call and what the call does are proved in one pass.
-/
namespace Thread

variable {σ ε Λ α β : Type} {ok : Λ → σ → Prop} {E : ε → Prop} {s : σ}

def Meets (ok : Λ → σ → Prop) : Thread σ ε Λ α → σ → Prop
  | ret _, _ => True
  | atom l m k, s => ok l s ∧ ∀ b s', m s = .ok (b, s') → (k b).Meets ok s'

@[simp] theorem meets_ret (a : α) : (ret a : Thread σ ε Λ α).Meets ok s := trivial

instance decidableMeets [∀ l s, Decidable (ok l s)] :
    ∀ (t : Thread σ ε Λ α) (s : σ), Decidable (t.Meets ok s)
  | ret _, _ => isTrue trivial
  | atom l m k, s =>
    match h : m s with
    | .ok (b, s') =>
      have := decidableMeets (k b) s'
      decidable_of_iff (ok l s ∧ (k b).Meets ok s') (and_congr_right fun _ =>
        ⟨fun hk b' s'' hb => by rw [h] at hb; cases hb; exact hk, fun hk => hk b s' h⟩)
    | .error e =>
      decidable_of_iff (ok l s) ⟨fun hl => ⟨hl, fun b s' hb => by rw [h] at hb; cases hb⟩,
        fun hk => hk.1⟩

theorem meets_bind (t : Thread σ ε Λ α) (f : α → Thread σ ε Λ β) :
    (t >>= f).Meets ok s ↔ t.Meets ok s ∧ ∀ a s', t.run s = .ok (a, s') → (f a).Meets ok s' := by
  induction t generalizing s with
  | ret a =>
    constructor
    · intro h
      refine ⟨trivial, fun a' s' hr => ?_⟩
      cases hr
      exact h
    · intro h
      exact h.2 a s rfl
  | atom l m k ih =>
    constructor
    · rintro ⟨hl, hk⟩
      refine ⟨⟨hl, fun b s' hm => ((ih b).1 (hk b s' hm)).1⟩, fun a s' hr => ?_⟩
      obtain ⟨b, s1, hm, hb⟩ := Prog.bind_ok hr
      exact ((ih b).1 (hk b s1 hm)).2 a s' hb
    · rintro ⟨⟨hl, hk⟩, hf⟩
      refine ⟨hl, fun b s' hm => (ih b).2 ⟨hk b s' hm, fun a s'' hb => hf a s'' ?_⟩⟩
      exact (Prog.bind_of_ok hm).trans hb

def alone (ok : Λ → σ → Prop) (t : Thread σ ε Λ α) (Q : α → σ → Prop → Prop)
    (E : ε → Prop) (s : σ) : Prop :=
  Prog.wp t.run (fun a s' => Q a s' (t.Meets ok s)) E s

variable {Q Q' : α → σ → Prop → Prop}

@[simp] theorem alone_ret (a : α) : alone ok (ret a : Thread σ ε Λ α) Q E s ↔ Q a s True := Iff.rfl

@[simp] theorem alone_step (l : Λ) (m : Prog σ ε α) :
    alone ok (step l m) Q E s ↔ Prog.wp m (fun a s' => Q a s' (ok l s)) E s := by
  unfold alone
  rw [run_step, show (step l m).Meets ok s = ok l s from
    propext ⟨fun h => h.1, fun h => ⟨h, fun _ _ _ => trivial⟩⟩]

@[simp] theorem alone_bind (t : Thread σ ε Λ α) (f : α → Thread σ ε Λ β) (R : β → σ → Prop → Prop) :
    alone ok (t >>= f) R E s ↔
    alone ok t (fun a s' c => alone ok (f a) (fun b s'' c' => R b s'' (c ∧ c')) E s') E s := by
  unfold alone Prog.wp
  rw [run_bind]
  cases ht : t.run s with
  | error e =>
    have hb : (t.run >>= fun a => (f a).run) s = .error e := by
      simp only [Bind.bind, StateT.bind, Except.bind, ht]
    rw [hb]
  | ok r =>
    obtain ⟨a, s'⟩ := r
    rw [Prog.bind_of_ok ht]
    have hc : (t >>= f).Meets ok s ↔ t.Meets ok s ∧ (f a).Meets ok s' := by
      rw [meets_bind]
      constructor
      · exact fun h => ⟨h.1, h.2 a s' ht⟩
      · rintro ⟨h, h'⟩
        refine ⟨h, fun a1 s1 hr => ?_⟩
        rw [ht] at hr
        cases hr
        exact h'
    rw [propext hc]

theorem alone_imp {t : Thread σ ε Λ α} {E' : ε → Prop} (h : alone ok t Q E s)
    (hQ : ∀ a s' c, Q a s' c → Q' a s' c) (hE : ∀ e, E e → E' e) : alone ok t Q' E' s :=
  Prog.wp_imp h (fun a s' => hQ a s' _) hE

theorem alone_mono {t : Thread σ ε Λ α} (h : alone ok t Q E s)
    (hQ : ∀ a s' c, Q a s' c → Q' a s' c) : alone ok t Q' E s :=
  alone_imp h hQ fun _ h => h

theorem alone_trivial (t : Thread σ ε Λ α) : alone ok t (fun _ _ _ => True) (fun _ => True) s :=
  Prog.wp_of_ok (fun _ _ _ => trivial) fun _ _ => trivial

end Thread
