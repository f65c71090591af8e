import Mathlib.Data.List.Basic
import Mathlib.Data.Nat.ModEq
import Mathlib.Logic.Function.Basic
/-!
# A ring of `N` cells addressed by counters modulo `M`

A producer stores at cell `nwrite % N` and adds one to `nwrite`, a consumer takes from cell
`nread % N` and adds one to `nread`; both counters wrap at `M`. `Ring.Holds` relates the cells and
the counters to the whole history: `stored` is everything that was ever stored, `delivered`
everything that was ever taken. When `N` divides `M` and is less than it, equality of the wrapped
counters is the test for an empty ring and `nwrite = nread + N` the test for a full one, however
often they have wrapped, and what lies between the counters is `stored` without `delivered`
(`Holds.rest`).
-/
namespace Ring

open List (length_append length_singleton)

variable {α : Type} {N M : Nat} {cell : Nat → α} {nread nwrite : Nat} {stored delivered : List α}

/-- The cells between the counters hold what was stored and not delivered yet. -/
structure Holds (N M : Nat) (cell : Nat → α) (nread nwrite : Nat) (stored delivered : List α) :
    Prop where
  read : nread = delivered.length % M
  write : nwrite = stored.length % M
  pre : delivered <+: stored
  room : stored.length ≤ delivered.length + N
  cells : ∀ j (h : j < stored.length), delivered.length ≤ j → cell (j % N) = stored[j]

/-- `n` cells from counter `nread` on. -/
def between (N M : Nat) (cell : Nat → α) (nread n : Nat) : List α :=
  (List.range n).map fun j => cell ((nread + j) % M % N)

theorem Holds.nil (cell : Nat → α) : Holds N M cell 0 0 [] [] where
  read := (Nat.zero_mod M).symm
  write := (Nat.zero_mod M).symm
  pre := List.prefix_rfl
  room := Nat.zero_le _
  cells j h := absurd h (Nat.not_lt_zero j)

namespace Holds

section

variable (h : Holds N M cell nread nwrite stored delivered)
include h

theorem count (hN : N < M) :
    (M - nread + nwrite) % M = stored.length - delivered.length := by
  have hle := h.pre.length_le
  have hlt : stored.length - delivered.length < M := by have := h.room; omega
  have hM : 0 < M := by omega
  have hr : delivered.length % M < M := Nat.mod_lt _ hM
  -- the difference of the counters and that of the histories agree modulo `M`
  have hmod : (M - nread + nwrite) % M = (stored.length - delivered.length) % M := by
    have hs : stored.length = (stored.length - delivered.length) + delivered.length := by omega
    have hd : delivered.length = delivered.length % M + M * (delivered.length / M) :=
      (Nat.mod_add_div ..).symm
    rw [h.read, h.write, Nat.add_mod_mod]
    generalize hx : stored.length - delivered.length = x at *
    rw [show M - delivered.length % M + stored.length = x + M * (1 + delivered.length / M) by
      rw [Nat.mul_add, Nat.mul_one]; omega]
    exact Nat.add_mul_mod_self_left ..
  rw [hmod, Nat.mod_eq_of_lt hlt]

theorem count_le (hN : N < M) : (M - nread + nwrite) % M ≤ N := by
  rw [h.count hN]
  have := h.room
  omega

theorem empty_iff (hN : N < M) :
    nread = nwrite ↔ stored.length = delivered.length := by
  have hcount := h.count hN
  have hle := h.pre.length_le
  constructor
  · rintro rfl
    have hr : nread < M := h.read ▸ Nat.mod_lt _ (by omega)
    rw [Nat.sub_add_cancel hr.le, Nat.mod_self] at hcount
    omega
  · intro hlen
    rw [h.read, h.write, hlen]

theorem full_iff (hN : N < M) :
    nwrite = (nread + N) % M ↔ stored.length = delivered.length + N := by
  have hcount := h.count hN
  have hle := h.pre.length_le
  have hr : nread < M := h.read ▸ Nat.mod_lt _ (by omega)
  constructor
  · rintro rfl
    rw [Nat.add_mod_mod, show M - nread + (nread + N) = N + M by omega, Nat.add_mod_right,
      Nat.mod_eq_of_lt hN] at hcount
    omega
  · intro hlen
    rw [h.read, h.write, hlen, Nat.mod_add_mod]

theorem push (hN : N < M) (hdvd : N ∣ M)
    (hfull : nwrite ≠ (nread + N) % M) (b : α) :
    Holds N M (Function.update cell (nwrite % N) b) nread ((nwrite + 1) % M)
      (stored ++ [b]) delivered := by
  have hroom : stored.length < delivered.length + N :=
    lt_of_le_of_ne h.room fun hlen => hfull ((h.full_iff hN).2 hlen)
  have hcell : nwrite % N = stored.length % N := by rw [h.write, Nat.mod_mod_of_dvd _ hdvd]
  refine ⟨h.read, ?_, h.pre.trans (List.prefix_append ..), ?_, fun j hj hge => ?_⟩
  · rw [h.write, length_append, length_singleton, Nat.mod_add_mod]
  · rw [length_append, length_singleton]
    omega
  · rw [length_append, length_singleton] at hj
    rw [hcell]
    by_cases hlast : j = stored.length
    · subst hlast
      rw [Function.update_self, List.getElem_append_right (Nat.le_refl _)]
      simp
    · -- fewer than `N` counters apart, so in different cells
      have hlt : j < stored.length := by omega
      have hne : j % N ≠ stored.length % N := fun heq => by
        have hmod : (stored.length - j) % N = 0 := Nat.sub_mod_eq_zero_of_mod_eq heq.symm
        rw [Nat.mod_eq_of_lt (by omega)] at hmod
        omega
      rw [Function.update_of_ne hne, List.getElem_append_left hlt]
      exact h.cells j hlt hge

theorem pop (hN : N < M) (hdvd : N ∣ M) (hne : nread ≠ nwrite) :
    Holds N M cell ((nread + 1) % M) nwrite stored (delivered ++ [cell (nread % N)]) := by
  have hle := h.pre.length_le
  have hlt : delivered.length < stored.length := by
    have : stored.length ≠ delivered.length := fun hlen => hne ((h.empty_iff hN).2 hlen)
    omega
  have hcell : cell (nread % N) = stored[delivered.length] := by
    rw [h.read, Nat.mod_mod_of_dvd _ hdvd]
    exact h.cells _ hlt (Nat.le_refl _)
  refine ⟨?_, h.write, ?_, ?_, fun j hj hge => h.cells j hj ?_⟩
  · rw [h.read, length_append, length_singleton, Nat.mod_add_mod]
  · rw [hcell]
    obtain ⟨rest, rfl⟩ := h.pre
    cases rest with
    | nil => simp at hlt
    | cons b rest => exact ⟨rest, by simp⟩
  · rw [length_append]
    have := h.room
    omega
  · rw [length_append, length_singleton] at hge
    omega

end

/-- The last things stored are taken back, but none that has been delivered. -/
theorem trim {more : List α} (h : Holds N M cell nread nwrite (stored ++ more) delivered)
    (hpre : delivered <+: stored) :
    Holds N M cell nread (stored.length % M) stored delivered where
  read := h.read
  write := rfl
  pre := hpre
  room := by
    have := h.room
    rw [length_append] at this
    omega
  cells j hj hge := by
    rw [h.cells j (by rw [length_append]; omega) hge, List.getElem_append_left hj]

/-- What lies between the counters is exactly what was stored and not delivered. -/
theorem rest (h : Holds N M cell nread nwrite stored delivered) (hN : N < M) (hdvd : N ∣ M) :
    stored = delivered ++ between N M cell nread ((M - nread + nwrite) % M) := by
  obtain ⟨queue, hq⟩ := h.pre
  have hlen : stored.length - delivered.length = queue.length := by rw [← hq, length_append]; omega
  have hbetween : between N M cell nread queue.length = queue := by
    refine List.ext_getElem (by simp [between]) fun j hj hj' => ?_
    have hidx : (nread + j) % M % N = (delivered.length + j) % N := by
      rw [h.read, Nat.mod_add_mod, Nat.mod_mod_of_dvd _ hdvd]
    have hcells := h.cells (delivered.length + j) (by rw [← hq, length_append]; omega)
      (Nat.le_add_right ..)
    subst hq
    simp only [between, List.getElem_map, List.getElem_range]
    rw [hidx, hcells, List.getElem_append_right (Nat.le_add_right ..)]
    simp
  rw [h.count hN, hlen, hbetween, hq]

end Holds

end Ring
