import Mathlib.Data.List.Nodup
import Mathlib.Logic.Function.Basic
/-!
# Circular doubly linked lists

`Links` are the `next` and `prev` pointers of a set of nodes. `Seg L a l b` says that they lead from
`a` through the nodes of `l` to `b` and back, and `Dlist L h l` that they form one circle of
different nodes, `h` and then `l`. A node is taken out and put in again behind `h`, as in a list
ordered by last use (**`Dlist.toFront`**), and a walk along the pointers meets the nodes in their
order (`Dlist.walk`, `Dlist.walk_back`).
-/

structure Links (ν : Type) where
  next : ν → ν
  prev : ν → ν

namespace Links

variable {ν : Type} [DecidableEq ν]

/-- `a->next = b` -/
def setNext (L : Links ν) (a b : ν) : Links ν := { L with next := Function.update L.next a b }

/-- `a->prev = b` -/
def setPrev (L : Links ν) (a b : ν) : Links ν := { L with prev := Function.update L.prev a b }

/-- `x->next->prev = x->prev; x->prev->next = x->next` -/
def unlink (L : Links ν) (x : ν) : Links ν :=
  let L := L.setPrev (L.next x) (L.prev x)
  L.setNext (L.prev x) (L.next x)

/-- `x->next = h->next; x->prev = h; h->next->prev = x; h->next = x` -/
def insert (L : Links ν) (h x : ν) : Links ν :=
  let L := L.setNext x (L.next h)
  let L := L.setPrev x h
  let L := L.setPrev (L.next h) x
  L.setNext h x

/-- The nodes from `a` on, up to `h`, along `f`. -/
def walk (f : ν → ν) (h : ν) : Nat → ν → List ν
  | 0, _ => []
  | fuel + 1, a => if a = h then [] else a :: walk f h fuel (f a)

end Links

open Links
open Function (update_of_ne update_self update)
open List (mem_cons)

variable {ν : Type} [DecidableEq ν] {L : Links ν} {a b h x y : ν} {l l1 l2 : List ν}

/-- From `a` through `l` to `b`, and back. -/
def Seg (L : Links ν) (a : ν) : List ν → ν → Prop
  | [], b => L.next a = b ∧ L.prev b = a
  | x :: l, b => (L.next a = x ∧ L.prev x = a) ∧ Seg L x l b

omit [DecidableEq ν] in
theorem seg_append : Seg L a (l1 ++ x :: l2) b ↔ Seg L a l1 x ∧ Seg L x l2 b := by
  induction l1 generalizing a with
  | nil => rfl
  | cons y l1 ih =>
    show (_ ∧ _) ∧ Seg L y (l1 ++ x :: l2) b ↔ ((_ ∧ _) ∧ Seg L y l1 x) ∧ _
    rw [ih, ← and_assoc]

theorem Seg.setNext (hs : Seg L a l b) (hx : x ≠ a) (hl : x ∉ l) : Seg (L.setNext x y) a l b := by
  induction l generalizing a with
  | nil => exact ⟨by rw [← hs.1]; exact update_of_ne (Ne.symm hx) .., hs.2⟩
  | cons c l ih =>
    rw [mem_cons, not_or] at hl
    exact ⟨⟨by rw [← hs.1.1]; exact update_of_ne (Ne.symm hx) .., hs.1.2⟩, ih hs.2 hl.1 hl.2⟩

theorem Seg.setPrev (hs : Seg L a l b) (hx : x ≠ b) (hl : x ∉ l) : Seg (L.setPrev x y) a l b := by
  induction l generalizing a with
  | nil => exact ⟨hs.1, by rw [← hs.2]; exact update_of_ne (Ne.symm hx) ..⟩
  | cons c l ih =>
    rw [mem_cons, not_or] at hl
    exact ⟨⟨hs.1.1, by rw [← hs.1.2]; exact update_of_ne (Ne.symm hl.1) ..⟩, ih hs.2 hl.2⟩

theorem Seg.enter (hs : Seg L a l b) (hnodup : l.Nodup) (hb : b ∉ l) (hy : y ∉ l) :
    Seg ((L.setPrev (L.next a) y).setNext y (L.next a)) y l b := by
  cases l with
  | nil =>
    obtain ⟨hn, -⟩ := hs
    subst hn
    exact ⟨update_self .., update_self ..⟩
  | cons c l =>
    obtain ⟨⟨hn, hp⟩, hs⟩ := hs
    subst hn
    rw [mem_cons, not_or] at hy hb
    refine ⟨⟨update_self .., update_self ..⟩, ?_⟩
    exact (hs.setPrev (Ne.symm hb.1) (List.nodup_cons.1 hnodup).1).setNext hy.1 hy.2

omit [DecidableEq ν] in
theorem Seg.next_mem (hs : Seg L a l b) : L.next a = b ∨ L.next a ∈ l := by
  cases l with
  | nil => exact .inl hs.1
  | cons c l => exact .inr (by rw [hs.1.1]; exact List.mem_cons_self ..)

omit [DecidableEq ν] in
theorem Seg.prev_mem (hs : Seg L a l b) : L.prev b ∈ a :: l := by
  induction l generalizing a with
  | nil => rw [hs.2]; exact List.mem_cons_self ..
  | cons c l ih => exact List.mem_cons_of_mem _ (ih hs.2)

theorem Seg.unlink (hs : Seg L a (l1 ++ x :: l2) b) (hnodup : (a :: (l1 ++ x :: l2)).Nodup)
    (hb : b ∉ l1 ++ x :: l2) :
    Seg (L.unlink x) a (l1 ++ l2) b := by
  induction l1 generalizing a with
  | nil =>
    obtain ⟨⟨-, hp⟩, hs⟩ := hs
    simp only [List.nil_append, List.nodup_cons, mem_cons, not_or] at hnodup hb
    have henter := hs.enter (y := a) hnodup.2.2 hb.2 hnodup.1.2
    have hpx : (L.setPrev (L.next x) a).prev x = a := by
      by_cases hx : x = L.next x
      · show update L.prev (L.next x) a x = a
        rw [← hx, update_self]
      · exact (update_of_ne hx ..).trans hp
    unfold Links.unlink
    dsimp only
    rw [hp, hpx]
    exact henter
  | cons c l1 ih =>
    obtain ⟨⟨hn, hp⟩, hs⟩ := hs
    rw [List.cons_append, mem_cons, not_or] at hb
    obtain ⟨ha, hnodup'⟩ := List.nodup_cons.1 hnodup
    have hsplit := seg_append.1 hs
    have hprev : L.prev x ∈ c :: l1 := hsplit.1.prev_mem
    have hnext := hsplit.2.next_mem
    have hc : c ∉ l1 ++ x :: l2 := (List.nodup_cons.1 hnodup').1
    -- `c->prev` stays, `x->next` comes later
    have hcn : c ≠ L.next x := fun heq => by
      rcases hnext with hnb | hmem
      · exact hb.1 (hnb.symm.trans heq.symm)
      · exact hc (List.mem_append_right _ (List.mem_cons_of_mem _ (heq ▸ hmem)))
    have hpx : (L.setPrev (L.next x) (L.prev x)).prev x = L.prev x := by
      by_cases hx : x = L.next x
      · show update L.prev (L.next x) (L.prev x) x = L.prev x
        rw [← hx, update_self]
      · exact update_of_ne hx ..
    have hap : a ≠ L.prev x := fun heq => by
      refine ha ?_
      rw [heq, List.cons_append]
      exact List.mem_append_left (x :: l2) hprev
    refine ⟨⟨?_, ?_⟩, ih hs hnodup' hb.2⟩
    · unfold Links.unlink
      dsimp only
      rw [hpx]
      exact (update_of_ne hap ..).trans hn
    · exact (update_of_ne hcn ..).trans hp

/-- A circle of different nodes. -/
structure Dlist (L : Links ν) (h : ν) (l : List ν) : Prop where
  nodup : (h :: l).Nodup
  seg : Seg L h l h

theorem Dlist.unlink (hr : Dlist L h (l1 ++ x :: l2)) : Dlist (L.unlink x) h (l1 ++ l2) := by
  obtain ⟨hh, hnodup⟩ := List.nodup_cons.1 hr.nodup
  refine ⟨?_, hr.seg.unlink hr.nodup hh⟩
  have hsub : (l1 ++ l2).Sublist (l1 ++ x :: l2) :=
    (List.Sublist.refl l1).append (List.sublist_cons_self x l2)
  exact List.nodup_cons.2 ⟨fun hmem => hh (hsub.subset hmem), hnodup.sublist hsub⟩

theorem Dlist.insert (hr : Dlist L h l) (hx : x ∉ h :: l) : Dlist (L.insert h x) h (x :: l) := by
  obtain ⟨hh, hnodup⟩ := List.nodup_cons.1 hr.nodup
  rw [mem_cons, not_or] at hx
  have hfirst : L.next h ≠ x := fun heq => by
    rcases hr.seg.next_mem with hn | hn
    · exact hx.1 (heq.symm.trans hn)
    · exact hx.2 (heq ▸ hn)
  have hL : L.insert h x = (((L.setPrev (L.next h) x).setNext x (L.next h)).setPrev x h).setNext h
      x := by
    have hn : update L.next x (L.next h) h = L.next h := update_of_ne (Ne.symm hx.1) ..
    unfold Links.insert Links.setNext Links.setPrev
    simp only [hn]
    rw [Function.update_comm hfirst]
  refine ⟨List.nodup_cons.2 ⟨?_, List.nodup_cons.2 ⟨hx.2, hnodup⟩⟩, ?_⟩
  · rw [mem_cons, not_or]
    exact ⟨Ne.symm hx.1, hh⟩
  · rw [hL]
    refine ⟨⟨update_self .., update_self ..⟩, ?_⟩
    exact ((hr.seg.enter hnodup hh hx.2).setPrev hx.1 hx.2).setNext (Ne.symm hx.1) hh

/-- **A node moves to the front.** -/
theorem Dlist.toFront (hr : Dlist L h (l1 ++ x :: l2)) :
    Dlist ((L.unlink x).insert h x) h (x :: (l1 ++ l2)) := by
  refine hr.unlink.insert ?_
  have hnodup := hr.nodup
  simp only [List.nodup_cons, List.mem_append, mem_cons, not_or, List.nodup_append] at hnodup ⊢
  obtain ⟨⟨-, hxh, -⟩, -, ⟨hx2, -⟩, hdisj⟩ := hnodup
  exact ⟨Ne.symm hxh, fun hx1 => hdisj x hx1 x (.inl rfl) rfl, hx2⟩

/-! ## Walks -/

variable {fuel : Nat}

theorem Seg.walk (hs : Seg L a l h) (hh : h ∉ l) (hfuel : l.length < fuel) :
    Links.walk L.next h fuel (L.next a) = l := by
  induction l generalizing a fuel with
  | nil =>
    obtain ⟨fuel, rfl⟩ := Nat.exists_eq_succ_of_ne_zero (Nat.ne_of_gt hfuel)
    rw [Links.walk, if_pos hs.1]
  | cons c l ih =>
    obtain ⟨fuel, rfl⟩ := Nat.exists_eq_succ_of_ne_zero
      (Nat.ne_of_gt (Nat.lt_of_le_of_lt (Nat.zero_le _) hfuel))
    rw [mem_cons, not_or] at hh
    rw [Links.walk, hs.1.1, if_neg (Ne.symm hh.1), ih hs.2 hh.2 (Nat.lt_of_succ_lt_succ hfuel)]

omit [DecidableEq ν] in
theorem Seg.reverse (hs : Seg L a l b) : Seg ⟨L.prev, L.next⟩ b l.reverse a := by
  induction l generalizing a with
  | nil => exact ⟨hs.2, hs.1⟩
  | cons c l ih =>
    rw [List.reverse_cons]
    exact seg_append.2 ⟨ih hs.2, hs.1.2, hs.1.1⟩

theorem Dlist.walk_back (hr : Dlist L h l) (hfuel : l.length < fuel) :
    Links.walk L.prev h fuel (L.prev h) = l.reverse := by
  have hh : h ∉ l.reverse := fun hmem => (List.nodup_cons.1 hr.nodup).1 (List.mem_reverse.1 hmem)
  exact hr.seg.reverse.walk hh (by rwa [List.length_reverse])
