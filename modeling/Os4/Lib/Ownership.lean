import Mathlib.Data.Finset.Card
import Mathlib.Data.Finset.Range
import Mathlib.Logic.Function.Basic
/-!
# Units marked in a bitmap and the places that refer to them

`n` units are numbered from `base` on. A place (of any type `κ`) holds the number of a unit, or 0
for none. `Owned` says that no two places share a unit and that a unit's bit is set exactly if some
place refers to it; `alloc` and `release` are the two ways to keep it.
-/

structure Owned {κ : Type} (bit : Nat → Bool) (base n : Nat) (ptr : κ → Nat) : Prop where
  range : ∀ k, ptr k ≠ 0 → base ≤ ptr k ∧ ptr k < base + n
  inj : ∀ k k', ptr k ≠ 0 → ptr k = ptr k' → k = k'
  marked : ∀ j, bit j = true ↔ ∃ k, ptr k = base + j

/-- How many of the first `n` bits are clear. -/
def clearCount (bit : Nat → Bool) (n : Nat) : Nat :=
  ((Finset.range n).filter fun j => bit j = false).card

namespace Owned

open Function (update_of_ne update_self)

variable {κ : Type} {bit bit' : Nat → Bool} {base n : Nat} {ptr ptr' : κ → Nat}

theorem congr (h : Owned bit base n ptr) (hb : ∀ j, bit' j = bit j) (hp : ∀ k, ptr' k = ptr k) :
    Owned bit' base n ptr' := by
  obtain rfl : bit' = bit := funext hb
  obtain rfl : ptr' = ptr := funext hp
  exact h

theorem mono (h : Owned bit base n ptr) {n' : Nat} (hn : n ≤ n') : Owned bit base n' ptr where
  range k hk := ⟨(h.range k hk).1,
    Nat.lt_of_lt_of_le (h.range k hk).2 (Nat.add_le_add_left hn base)⟩
  inj := h.inj
  marked := h.marked

variable {j : Nat}

section

variable (h : Owned bit base n ptr)
include h

theorem ne_of_clear (hj : bit j = false) (k : κ) : ptr k ≠ base + j := by
  intro hk
  rw [(h.marked j).2 ⟨k, hk⟩] at hj
  cases hj

theorem bit_of_ptr {k : κ} (hk : ptr k ≠ 0) : bit (ptr k - base) = true := by
  have hr := (h.range k hk).1
  exact (h.marked _).2 ⟨k, by omega⟩

theorem alloc [DecidableEq κ] (hpos : 0 < base) {k : κ} (hj : j < n)
    (hclear : bit j = false) (hk : ptr k = 0) (hbit : ∀ i, bit' i = (decide (i = j) || bit i)) :
    Owned bit' base n (Function.update ptr k (base + j)) where
  range a ha := by
    by_cases hak : a = k
    · rw [hak, update_self]; omega
    · rw [update_of_ne hak] at *; exact h.range a ha
  inj a b ha hab := by
    by_cases hak : a = k
    · by_cases hbk : b = k
      · rw [hak, hbk]
      · rw [hak, update_self, update_of_ne hbk] at hab
        exact absurd hab.symm (h.ne_of_clear hclear b)
    · rw [update_of_ne hak] at *
      by_cases hbk : b = k
      · rw [hbk, update_self] at hab
        exact absurd hab (h.ne_of_clear hclear a)
      · rw [update_of_ne hbk] at hab
        exact h.inj a b ha hab
  marked i := by
    rw [hbit i]
    by_cases hij : i = j
    · simp only [hij, decide_true, Bool.true_or, true_iff]
      exact ⟨k, update_self ..⟩
    · simp only [hij, decide_false, Bool.false_or, h.marked i]
      constructor
      · rintro ⟨a, ha⟩
        have hak : a ≠ k := by rintro rfl; omega
        exact ⟨a, by rw [update_of_ne hak]; exact ha⟩
      · rintro ⟨a, ha⟩
        have hak : a ≠ k := by rintro rfl; rw [update_self] at ha; omega
        rw [update_of_ne hak] at ha
        exact ⟨a, ha⟩

theorem release (hpos : 0 < base) (S : κ → Prop) (hin : ∀ k, S k → ptr' k = 0)
    (hout : ∀ k, ¬ S k → ptr' k = ptr k) (hbit : ∀ j, bit' j = true ↔ bit j = true ∧ ∀ k, S k →
      ptr k ≠ base + j) :
    Owned bit' base n ptr' where
  range k hk := by
    have hS : ¬ S k := fun hS => hk (hin k hS)
    rw [hout k hS] at *
    exact h.range k hk
  inj k k' hk heq := by
    have hS : ¬ S k := fun hS => hk (hin k hS)
    have hS' : ¬ S k' := fun hS' => hk (heq.trans (hin k' hS'))
    rw [hout k hS, hout k' hS'] at *
    exact h.inj k k' hk heq
  marked j := by
    rw [hbit j, h.marked j]
    constructor
    · rintro ⟨⟨k, hk⟩, hno⟩
      exact ⟨k, by rw [hout k fun hS => hno k hS hk]; exact hk⟩
    · rintro ⟨k, hk⟩
      have hS : ¬ S k := fun hS => by rw [hin k hS] at hk; omega
      rw [hout k hS] at hk
      refine ⟨⟨k, hk⟩, fun k' hS' hk' => hS ?_⟩
      rw [h.inj k k' (by omega) (hk.trans hk'.symm)]
      exact hS'

end

end Owned

theorem clearCount_set (hj : j < n) (hclear : bit j = false)
    (hbit : ∀ i, bit' i = (decide (i = j) || bit i)) : clearCount bit' n + 1 =
      clearCount bit n := by
  have hmem : j ∈ (Finset.range n).filter fun i => bit i = false := by simp [hj, hclear]
  have herase : ((Finset.range n).filter fun i => bit' i = false) =
      ((Finset.range n).filter fun i => bit i = false).erase j := by
    ext i
    simp only [Finset.mem_filter, Finset.mem_range, Finset.mem_erase, hbit i, Bool.or_eq_false_iff,
      decide_eq_false_iff_not]
    tauto
  rw [clearCount, clearCount, herase]
  exact Finset.card_erase_add_one hmem

theorem exists_clear (h : 0 < clearCount bit n) : ∃ j, j < n ∧ bit j = false := by
  obtain ⟨j, hj⟩ := Finset.card_pos.1 h
  simp only [Finset.mem_filter, Finset.mem_range] at hj
  exact ⟨j, hj⟩
