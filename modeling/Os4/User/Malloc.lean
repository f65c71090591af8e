import Mathlib.Data.Finset.Max
import Mathlib.Data.List.Pairwise
import Os4.Param
/-!
# The allocator of user programs (umalloc.c)

| here | there |
| --- | --- |
| `Heap.ptr`, `Heap.size` | `p->s.ptr`, `p->s.size` of the header at address `p` |
| `search` | the loop of `free`, umalloc.c:30-32 |
| `join` | the `if` that puts one block before another in the list; `free` does it twice |
| `take` | what `malloc` does with the block it has found, umalloc.c:76-84 |
| `Linked s base N` | the blocks `N` are the list, and the last points to `base` |

The list begins with `base`, which has no units, and goes up. `free` joins the block with its right
neighbour and then its left neighbour with the block: the same step at two places (`join_spec`).
What the blocks of the list and those in use cover (`Laid`) is all that `sbrk` has given, and
depends neither on their order nor on who has them.
-/
namespace Os4.Malloc

open Function (update update_self update_of_ne)
open List (append_of_mem cons_append count_append count_cons forall_mem_cons length_append
    length_cons map_cons map_map mem_append
  mem_append_left mem_append_right mem_cons mem_cons_of_mem mem_cons_self mem_map_of_mem not_mem_nil
    pairwise_cons sum_cons)

/-- `sizeof(Header)` is 8. -/
structure Heap where
  ptr : Nat → Nat
  size : Nat → Nat
  /-- 0 is `none` -/
  freep : Option Nat
  /-- `proc->sz` -/
  brk : Nat

/-- `p + n` for a pointer to headers -/
def plus (p n : Nat) : Nat := (p + 8 * n) % 2 ^ 32

/-- More turns than there are addresses. -/
abbrev turns : Nat := 2 ^ 33

def Stops (s : Heap) (bp p : Nat) : Prop :=
  (p < bp ∧ bp < s.ptr p) ∨ (s.ptr p ≤ p ∧ (p < bp ∨ bp < s.ptr p))

instance (s : Heap) (bp p : Nat) : Decidable (Stops s bp p) := inferInstanceAs (Decidable (_ ∨ _))

def search (s : Heap) (bp : Nat) : Nat → Nat → Option Nat
  | 0, _ => none
  | fuel + 1, p => if Stops s bp p then some p else search s bp fuel (s.ptr p)

def join (s : Heap) (a b : Nat) : Heap :=
  if plus a (s.size a) = b then
    { s with
      size := update s.size a ((s.size a + s.size b) % 2 ^ 32)
      ptr := update s.ptr a (s.ptr b) }
  else { s with ptr := update s.ptr a b }

/-- `none` is a run that does not return. -/
def free (s : Heap) (ap : Nat) : Option Heap := do
  let bp := ap - 8
  let p ← search s bp turns (← s.freep)
  return { join (join s bp (s.ptr p)) p bp with freep := some p }

/-- `n` is taken as an `int`. The call is refused also where there is memory enough, if `ok` says
so. -/
def sbrk (s : Heap) (n : Nat) (ok : Nat → Bool) : Option Heap :=
  let sz : Int := (s.brk : Int) + if n < 2 ^ 31 then (n : Int) else (n : Int) - 2 ^ 32
  if ok s.brk ∧ 0 ≤ sz ∧ sz < KERNBASE then some { s with brk := sz.toNat } else none

/-- `some none` is a null pointer. -/
def morecore (s : Heap) (nu : Nat) (ok : Nat → Bool) : Option (Option Heap) :=
  let nu := if nu < 4096 then 4096 else nu
  match sbrk s (nu * 8 % 2 ^ 32) ok with
  | none => some none
  | some t => (free { t with size := update t.size s.brk nu } (plus s.brk 1)).map some

def nunits (nbytes : UInt32) : Nat := (nbytes.toNat + 7) % 2 ^ 32 / 8 + 1

def take (s : Heap) (n prevp p : Nat) : Nat × Heap :=
  if s.size p = n then
    (plus p 1, { s with ptr := update s.ptr prevp (s.ptr p), freep := some prevp })
  else
    let q := plus p (s.size p - n)
    (plus q 1, { s with size := update (update s.size p (s.size p - n)) q n, freep := some prevp })

def mallocLoop (n : Nat) (ok : Nat → Bool) : Nat → Heap → Nat → Nat → Option (Option Nat × Heap)
  | 0, _, _, _ => none
  | fuel + 1, s, prevp, p =>
    if n ≤ s.size p then some ((take s n prevp p).map some id)
    else if s.freep = some p then
      match morecore s n ok with
      | none => none
      | some none => some (none, s)
      | some (some t) => t.freep.bind fun p => mallocLoop n ok fuel t p (t.ptr p)
    else mallocLoop n ok fuel s p (s.ptr p)

/-- The list that has `base` only. -/
def ready (base : Nat) (s : Heap) : Heap :=
  match s.freep with
  | none =>
    { s with ptr := update s.ptr base base, size := update s.size base 0, freep := some base }
  | some _ => s

def malloc (base : Nat) (s : Heap) (nbytes : UInt32) (ok : Nat → Bool) :
    Option (Option Nat × Heap) :=
  let s := ready base s
  s.freep.bind fun prevp => mallocLoop (nunits nbytes) ok turns s prevp (s.ptr prevp)

/-! ## What the blocks cover -/

/-- The address of a header and the units of its block. -/
abbrev Chunk := Nat × Nat

abbrev Chunk.fin (b : Chunk) : Nat := b.1 + 8 * b.2

def Apart (b c : Chunk) : Prop := b.1 ≠ c.1 ∧ (b.fin ≤ c.1 ∨ c.fin ≤ b.1)

/-- `base` and blocks that fill what lies between `lo` and `brk`. -/
structure Laid (base lo brk : Nat) (l : List Chunk) : Prop where
  low : base < lo
  top : brk < KERNBASE
  each : ∀ b ∈ l, b = (base, 0) ∨ lo ≤ b.1 ∧ 0 < b.2 ∧ b.fin ≤ brk
  apart : l.Pairwise Apart
  units : lo + 8 * (l.map Prod.snd).sum = brk

variable {base lo brk n : Nat} {l l' N L A B C : List Chunk} {s : Heap}
  {a b c : Chunk} {ok : Nat → Bool}

/-- Before, and not touching. -/
def Before (b c : Chunk) : Prop := b.fin < c.1

theorem Before.lt (h : Before b c) : b.1 < c.1 := Nat.lt_of_le_of_lt (Nat.le_add_right ..) h

theorem Apart.symm (h : Apart b c) : Apart c b := ⟨h.1.symm, h.2.symm⟩

theorem Laid.perm (h : Laid base lo brk l)
    (hl : ∀ x, l.count x = l'.count
      x := by intro x; simp only [count_append, count_cons, cons_append]; omega) :
    Laid base lo brk l' := by
  have hl := List.perm_iff_count.2 hl
  exact ⟨h.low, h.top, fun b hb => h.each b (hl.mem_iff.2 hb),
    (hl.pairwise_iff Apart.symm).1 h.apart, by rw [← (hl.map _).sum_nat, h.units]⟩

theorem Laid.fits (h : Laid base lo brk l) (hb : b ∈ l) : b.fin ≤ brk := by
  have := h.units
  have := h.low
  rcases h.each b hb with rfl | hb
  · show base + 0 ≤ brk
    omega
  · exact hb.2.2

theorem laid_join (hb : 0 < b.2) (hc : 0 < c.2) (hlo : lo ≤ b.1) (hbc : b.fin = c.1) :
    Laid base lo brk (b :: c :: l) ↔ Laid base lo brk ((b.1, b.2 + c.2) :: l) := by
  have hfin : Chunk.fin (b.1, b.2 + c.2) = c.fin := by
    simp only [Chunk.fin] at hbc ⊢
    omega
  constructor
  · rintro ⟨hlow, htop, heach, hapart, hunits⟩
    simp only [forall_mem_cons, pairwise_cons] at heach hapart
    refine ⟨hlow, htop, List.forall_mem_cons.2 ⟨.inr ⟨hlo, by omega, ?_⟩, heach.2.2⟩,
      List.pairwise_cons.2 ⟨fun x hx => ?_, hapart.2.2⟩,
      by simp only [map_cons, sum_cons] at hunits ⊢; omega⟩
    · rcases heach.2.1 with rfl | h
      · exact absurd hc (Nat.lt_irrefl 0)
      · exact hfin ▸ h.2.2
    · have h1 := hapart.1.2 x hx
      have h2 := hapart.2.1 x hx
      simp only [Apart, Chunk.fin] at h1 h2 hbc ⊢
      omega
  · rintro ⟨hlow, htop, heach, hapart, hunits⟩
    simp only [forall_mem_cons, pairwise_cons] at heach hapart
    have hend : c.fin ≤ brk := by
      rcases heach.1 with h | h
      · have := (Prod.mk.inj h).2
        omega
      · exact hfin ▸ h.2.2
    simp only [Chunk.fin] at hbc hend
    refine ⟨hlow, htop, ?_, ?_, by simp only [map_cons, sum_cons] at hunits ⊢; omega⟩
    · simp only [forall_mem_cons]
      exact ⟨.inr ⟨hlo, hb, by simp only [Chunk.fin]; omega⟩, .inr ⟨by omega, hc, hend⟩, heach.2⟩
    · simp only [pairwise_cons, forall_mem_cons]
      refine ⟨⟨by simp only [Apart, Chunk.fin]; omega, fun x hx => ?_⟩, fun x hx => ?_, hapart.2⟩
      all_goals
        have := hapart.1 x hx
        simp only [Apart, Chunk.fin] at this ⊢
        omega

theorem Laid.grow (h : Laid base lo brk l) (hn : 0 < n) (htop : brk + 8 * n < KERNBASE) :
    Laid base lo (brk + 8 * n) ((brk, n) :: l) := by
  have hunits := h.units
  refine ⟨h.low, htop, List.forall_mem_cons.2 ⟨.inr ⟨by omega, hn, Nat.le_refl _⟩, fun x hx => ?_⟩,
    List.pairwise_cons.2 ⟨fun x hx => ?_, h.apart⟩, ?_⟩
  · exact (h.each x hx).imp_right fun hx => ⟨hx.1, hx.2.1, hx.2.2.trans (Nat.le_add_right ..)⟩
  · have := h.low
    have := h.fits hx
    rcases h.each x hx with rfl | hx
    all_goals
      simp only [Apart, Chunk.fin] at *
      omega
  · rw [map_cons, sum_cons]
    omega

/-! ## The list -/

def first (e : Nat) : List Chunk → Nat
  | [] => e
  | b :: _ => b.1

/-- Each block points to the next, and the last to `e`. -/
def Linked (s : Heap) (e : Nat) : List Chunk → Prop
  | [] => True
  | b :: l => s.size b.1 = b.2 ∧ s.ptr b.1 = first e l ∧ Linked s e l

theorem head_append {x : Option Chunk} (h : (A ++ a :: B).head? = x) : (A ++ a :: C).head? = x := by
  cases A with
  | nil => exact h
  | cons b A => exact h

theorem first_append (e : Nat) : first e (A ++ B) = first (first e B) A := by
  cases A with
  | nil => rfl
  | cons a A => rfl

theorem linked_append {e : Nat} : Linked s e (A ++ B) ↔ Linked s (first e B) A ∧ Linked s e B := by
  induction A with
  | nil => simp [Linked]
  | cons a A ih => simp only [cons_append, Linked, ih, first_append, and_assoc]

theorem Linked.frame {t : Heap} {e : Nat} (h : Linked s e l)
    (ht : ∀ b ∈ l, t.size b.1 = s.size b.1 ∧ t.ptr b.1 = s.ptr b.1) :
    Linked t e l := by
  induction l with
  | nil => trivial
  | cons b l ih =>
    obtain ⟨hb, hl⟩ := List.forall_mem_cons.1 ht
    exact ⟨hb.1.trans h.1, hb.2.trans h.2.1, ih h.2.2 hl⟩

theorem Linked.size {e : Nat} (h : Linked s e l) (hb : b ∈ l) : s.size b.1 = b.2 := by
  obtain ⟨A, B, rfl⟩ := append_of_mem hb
  exact (linked_append.1 h).2.1

/-- `N` is the list, `L` the blocks in use. -/
structure Inv (base lo : Nat) (s : Heap) (N L : List Chunk) : Prop where
  head : N.head? = some (base, 0)
  linked : Linked s base N
  freep : ∃ f ∈ N, s.freep = some f.1
  /-- no two blocks of the list touch -/
  gaps : N.Pairwise Before
  live : ∀ b ∈ L, s.size b.1 = b.2
  laid : Laid base lo s.brk (N ++ L)

/-! ## The loop of `free` -/

theorem search_some {bp e : Nat} :
    ∀ {l : List Chunk} {r : Chunk} (fuel : Nat), Linked s e (r :: l) →
    (∃ x ∈ r :: l, Stops s bp x.1) → l.length < fuel → ∃ p ∈ r :: l, search s bp fuel r.1 =
      some p.1 ∧ Stops s bp p.1
  | l, r, 0, _, _, hfuel => absurd hfuel (Nat.not_lt_zero _)
  | l, r, fuel + 1, hl, ⟨x, hx, hstop⟩, hfuel => by
    unfold search
    by_cases hr : Stops s bp r.1
    · exact ⟨r, mem_cons_self, by rw [if_pos hr], hr⟩
    · rw [if_neg hr]
      have hx := (List.mem_cons.1 hx).resolve_left fun h => hr (h ▸ hstop)
      match l, hl with
      | c :: l, ⟨_, hc, hl⟩ =>
        rw [hc]
        obtain ⟨p, hp, h⟩ := search_some fuel hl ⟨x, hx, hstop⟩ (Nat.lt_of_succ_lt_succ hfuel)
        exact ⟨p, mem_cons_of_mem _ hp, h⟩

theorem exists_stop {bp : Nat} : ∀ {l : List Chunk} {r : Chunk}, Linked s base (r :: l) →
    (∀ x ∈ r :: l, base ≤ x.1) → r.1 < bp → (∀ x ∈ l, x.1 ≠ bp) → ∃ x ∈ r :: l, Stops s bp x.1
  | [], r, hl, hbase, hlt, _ =>
    ⟨r, mem_cons_self, .inr ⟨hl.2.1.trans_le (hbase r mem_cons_self), .inl hlt⟩⟩
  | c :: l, r, hl, hbase, hlt, hne => by
    obtain ⟨hc, hne⟩ := List.forall_mem_cons.1 hne
    have hptr : s.ptr r.1 = c.1 := hl.2.1
    rcases Nat.lt_or_ge bp c.1 with h | h
    · exact ⟨r, mem_cons_self, .inl ⟨hlt, hptr ▸ h⟩⟩
    · obtain ⟨x, hx, hstop⟩ :=
        exists_stop hl.2.2 (List.forall_mem_cons.1 hbase).2 (Nat.lt_of_le_of_ne h hc) hne
      exact ⟨x, mem_cons_of_mem _ hx, hstop⟩

namespace Inv

theorem stop {bp : Nat} (h : Inv base lo s (A ++ b :: B) L) (hbp : base < bp)
    (hs : Stops s bp b.1) :
    b.1 < bp ∧ ∀ c ∈ B, bp < c.1 := by
  have hB := List.pairwise_cons.1 (List.pairwise_append.1 h.gaps).2.1
  rw [Stops, (linked_append.1 h.linked).2.2.1] at hs
  cases B with
  | nil =>
    simp only [first] at hs
    exact ⟨by omega, nofun⟩
  | cons c B =>
    have hc := (hB.1 c mem_cons_self).lt
    simp only [first] at hs
    have hlt : b.1 < bp ∧ bp < c.1 := by omega
    exact ⟨hlt.1, List.forall_mem_cons.2 ⟨hlt.2,
      fun x hx => hlt.2.trans ((List.pairwise_cons.1 hB.2).1 x hx).lt⟩⟩

variable (h : Inv base lo s N L)
include h

theorem base_mem : (base, 0) ∈ N := List.mem_of_mem_head? h.head

theorem lo_le (hb : b ∈ L) : lo ≤ b.1 := by
  rcases h.laid.each b (mem_append_right _ hb) with rfl | hlo
  · exact absurd rfl ((List.pairwise_append.1 h.laid.apart).2.2 _ h.base_mem _ hb).1
  · exact hlo.1

theorem around (hb : b ∈ N) : ∃ A B, N = A ++ b :: B ∧ Linked s base (b :: (B ++ N)) := by
  obtain ⟨A, B, rfl⟩ := append_of_mem hb
  have hfirst : first base (A ++ b :: B) = base := by
    have := h.head
    cases A with
    | nil => exact congrArg Prod.fst (Option.some.inj this)
    | cons a A => exact congrArg Prod.fst (Option.some.inj this)
  refine ⟨A, B, rfl, (linked_append (A := b :: B)).2 ⟨?_, h.linked⟩⟩
  rw [hfirst]
  exact (linked_append.1 h.linked).2

theorem length_le : N.length ≤ s.brk + 1 := by
  have hnodup : (N.map Prod.fst).Nodup := List.pairwise_map.2 (h.gaps.imp fun hbc => hbc.lt.ne)
  have hsub : N.map Prod.fst ⊆ List.range (s.brk + 1) := fun x hx => by
    obtain ⟨b, hb, rfl⟩ := List.mem_map.1 hx
    have := h.laid.fits (mem_append_left _ hb)
    simp only [Chunk.fin] at this
    exact List.mem_range.2 (by omega)
  have := (hnodup.subperm hsub).length_le
  rwa [List.length_map, List.length_range] at this

/-- **The loop of `free` ends at the last block before `bp`.** -/
theorem search_inv (hb : b ∈ L) : ∃ p f A B, s.freep = some f ∧ search s b.1 turns f = some p.1 ∧
    N = A ++ p :: B ∧ p.1 < b.1 ∧ ∀ c ∈ B, b.1 < c.1 := by
  obtain ⟨f, hf, hfreep⟩ := h.freep
  have hbp : base < b.1 := h.laid.low.trans_le (h.lo_le hb)
  obtain ⟨A, B, hN, hlinked⟩ := h.around hf
  obtain ⟨F, hF⟩ := List.head?_eq_some_iff.1 h.head
  have hle : ∀ x ∈ N, base ≤ x.1 := fun x hx => by
    have := h.laid.low
    rcases h.laid.each x (mem_append_left _ hx) with rfl | hlo
    · exact Nat.le_refl _
    · omega
  obtain ⟨x, hx, hstop⟩ := exists_stop (hF ▸ h.linked) (hF ▸ hle) hbp fun x hx =>
    ((List.pairwise_append.1 h.laid.apart).2.2 x (by simp [hF, hx]) b hb).1
  have hlen := h.length_le
  have htop := h.laid.top
  obtain ⟨p, hp, hsearch, hstop⟩ :=
    search_some turns hlinked ⟨x, by simp [hF, List.mem_cons.1 hx], hstop⟩ (by
    simp only [hN, length_append, length_cons, KERNBASE, turns] at hlen htop ⊢
    omega)
  have hp : p ∈ N := by
    rw [hN] at hp ⊢
    simp only [mem_cons, mem_append] at hp ⊢
    tauto
  obtain ⟨A', B', rfl⟩ := append_of_mem hp
  exact ⟨p, f.1, A', B', hfreep, hsearch, rfl, h.stop hbp hstop⟩

end Inv

/-! ## `free` -/

theorem join_frame {x y : Nat} (h : x ≠ y) (z : Nat) :
    (join s y z).size x = s.size x ∧ (join s y z).ptr x = s.ptr x := by
  unfold join
  split
  · exact ⟨update_of_ne h .., update_of_ne h ..⟩
  · exact ⟨rfl, update_of_ne h ..⟩

theorem join_brk (x y : Nat) : (join s x y).brk = s.brk := by
  unfold join
  split <;> rfl

theorem join_spec (hsize : s.size a.1 = a.2) (hC : Linked s base C) (hbase : C = [] → base < a.1)
    (hle : ∀ c ∈ C, a.fin ≤ c.1)
    (hgaps : C.Pairwise Before) (hlaid : Laid base lo brk (a :: C ++ l)) : ∃ a' C', a'.1 = a.1 ∧
    a.2 ≤ a'.2 ∧ C' ⊆ C ∧
    (∀ c ∈ C, c ∈ C' ∨ c.2 ≤ a'.2) ∧ Linked (join s a.1 (first base C)) base (a' :: C') ∧
    (a' :: C').Pairwise Before ∧ Laid base lo brk (a' :: C' ++ l) := by
  have hne : ∀ c ∈ C, c.1 ≠ a.1 := fun c hc =>
    ((List.pairwise_cons.1 hlaid.apart).1 c (mem_append_left _ hc)).1.symm
  have hfit := hlaid.fits (b := a) mem_cons_self
  have htop := hlaid.top
  simp only [KERNBASE, Chunk.fin] at hfit htop
  have hplus : plus a.1 (s.size a.1) = a.fin := by rw [hsize]; exact Nat.mod_eq_of_lt (by omega)
  have hframe : ∀ {C'}, C' ⊆ C → Linked s base C' → Linked (join s a.1 (first base C)) base C' :=
    fun hsub h =>
    h.frame fun c hc => join_frame (hne c (hsub hc)) _
  by_cases heq : a.fin = first base C
  · cases C with
    | nil =>
      have := hbase rfl
      simp only [first, Chunk.fin] at heq
      omega
    | cons c C =>
      have hc : (0 < a.2 ∧ 0 < c.2) ∧ lo ≤ a.1 := by
        have h1 := hne c mem_cons_self
        have h2 := hlaid.low
        rcases hlaid.each a mem_cons_self with rfl | ha
        · exact absurd heq.symm h1
        · rcases hlaid.each c (by simp) with rfl | hc
          · simp only [first, Chunk.fin] at heq
            omega
          · exact ⟨⟨ha.2.1, hc.2.1⟩, ha.1⟩
      have hlaid' := (laid_join hc.1.1 hc.1.2 hc.2 heq).1 hlaid
      have hsum := hlaid'.fits mem_cons_self
      have hgaps := List.pairwise_cons.1 hgaps
      refine ⟨(a.1, a.2 + c.2), C, rfl, Nat.le_add_right .., List.subset_cons_self .., ?_,
        ⟨?_, ?_, ?_⟩, ?_, hlaid'⟩
      · exact List.forall_mem_cons.2 ⟨.inr (Nat.le_add_left ..), fun _ hx => .inl hx⟩
      · simp only [Chunk.fin] at hsum
        rw [join, if_pos (hplus.trans heq)]
        dsimp only
        rw [update_self, hsize, first, hC.1]
        exact Nat.mod_eq_of_lt (by omega)
      · rw [join, if_pos (hplus.trans heq)]
        dsimp only
        rw [update_self]
        exact hC.2.1
      · exact hframe (List.subset_cons_self ..) hC.2.2
      · refine List.pairwise_cons.2 ⟨fun x hx => ?_, hgaps.2⟩
        have := hgaps.1 x hx
        simp only [Before, first, Chunk.fin] at this heq ⊢
        omega
  · refine ⟨a, C, rfl, Nat.le_refl _, fun _ hx => hx, fun _ hx => .inl hx,
      ⟨?_, ?_, hframe (fun _ hx => hx) hC⟩, ?_, hlaid⟩
    · rw [join, if_neg fun h => heq (hplus.symm.trans h)]
      exact hsize
    · rw [join, if_neg fun h => heq (hplus.symm.trans h)]
      exact update_self ..
    · refine List.pairwise_cons.2 ⟨fun x hx => ?_, hgaps⟩
      cases C with
      | nil => cases hx
      | cons c C =>
        have h1 := hle c mem_cons_self
        rcases List.mem_cons.1 hx with rfl | hx
        · exact Nat.lt_of_le_of_ne h1 heq
        · have := (List.pairwise_cons.1 hgaps).1 x hx
          simp only [Before, Chunk.fin] at this h1 ⊢
          omega

/-- **`free` returns, and the block is in the list.** -/
theorem free_inv {L' : List Chunk} (h : Inv base lo s N L) (hL : L.Perm (b :: L')) :
    ∃ t N', free s (b.1 + 8) = some t ∧
    Inv base lo t N' L' ∧ t.brk = s.brk ∧ ∃ x ∈ N', b.2 ≤ x.2 := by
  have hb : b ∈ L := hL.mem_iff.2 mem_cons_self
  obtain ⟨p, f, A, B, hf, hsearch, rfl, hpb, hlast⟩ := h.search_inv hb
  have hgaps := List.pairwise_append.1 h.gaps
  have hpB := List.pairwise_cons.1 hgaps.2.1
  obtain ⟨hA, hpsize, hptr, hB⟩ := linked_append.1 h.linked
  have hcross := (List.pairwise_append.1 h.laid.apart).2.2
  have hmine : ∀ c ∈ L', c.1 ≠ b.1 := fun c hc =>
    ((List.pairwise_cons.1 ((hL.pairwise_iff Apart.symm).1
      (List.pairwise_append.1 h.laid.apart).2.1)).1 c hc).1.symm
  have hbB : ∀ c ∈ B, b.fin ≤ c.1 := fun c hc => by
    have h1 := hcross c (by simp [hc]) b hb
    have h2 := hlast c hc
    simp only [Apart, Chunk.fin] at h1 ⊢
    omega
  have hple : p.fin ≤ b.1 := by
    have := hcross p (by simp) b hb
    simp only [Apart, Chunk.fin] at this ⊢
    omega
  -- first with what comes after it
  obtain ⟨b', B', hb', hbig, hsub, -, hlink, hgap, hlaid⟩ :=
    join_spec (l := A ++ p :: L') (h.live b hb) hB
    (fun _ => h.laid.low.trans_le (h.lo_le hb)) hbB hpB.2
    (h.laid.perm (fun x => by
      simp only [count_append, count_cons, cons_append, hL.count_eq]
      omega))
  have hlaid' : Laid base lo s.brk (p :: (b' :: B') ++ (A ++ L')) := hlaid.perm
  -- then with what comes before it
  have hps : (join s b.1 (first base B)).size p.1 = p.2 :=
    (join_frame (Nat.ne_of_lt hpb) _).1.trans hpsize
  obtain ⟨p', C, hp', -, hC, hkeep, hlink, hgap, hlaid⟩ := join_spec hps hlink nofun (fun c hc => by
    rcases List.mem_cons.1 hc with rfl | hc
    · rwa [hb']
    · exact Nat.le_of_lt (hpB.1 c (hsub hc))) hgap hlaid'
  rw [first, hb'] at hlink
  have hframe : ∀ x, x ≠ b.1 → x ≠ p.1 →
    (join (join s b.1 (first base B)) p.1 b.1).size x = s.size x ∧
      (join (join s b.1 (first base B)) p.1 b.1).ptr x = s.ptr x := fun x h1 h2 =>
    ⟨(join_frame h2 _).1.trans (join_frame h1 _).1, (join_frame h2 _).2.trans (join_frame h1 _).2⟩
  have hAp : ∀ x ∈ A, Before x p := fun x hx => hgaps.2.2 x hx p mem_cons_self
  refine ⟨{ join (join s b.1 (first base B)) p.1 b.1 with freep := some p.1 }, A ++ p' :: C, ?_,
    ⟨?_, ?_, ⟨p', by simp, by rw [hp']⟩, ?_, fun c hc => ?_, ?_⟩, ?_, ?_⟩
  · unfold free
    rw [hf]
    simp only [Option.bind_eq_bind, Option.bind_some, Nat.add_sub_cancel, hsearch, hptr]
    rfl
  · cases A with
    | nil =>
      have hp0 : p.1 = base := congrArg Prod.fst (Option.some.inj h.head)
      rcases hlaid.each p' mem_cons_self with rfl | hlo
      · rfl
      · have := hlaid.low
        omega
    | cons a A => exact h.head
  · refine linked_append.2 ⟨?_, hlink.frame fun _ _ => ⟨rfl, rfl⟩⟩
    rw [first, hp']
    exact Linked.frame hA fun x hx => hframe x.1 ((hAp x hx).lt.trans hpb).ne (hAp x hx).lt.ne
  · refine List.pairwise_append.2 ⟨hgaps.1, hgap, fun x hx y hy => ?_⟩
    have hxp : x.fin < p'.1 := hp' ▸ hAp x hx
    rcases List.mem_cons.1 hy with rfl | hy
    · exact hxp
    · exact hxp.trans ((List.pairwise_cons.1 hgap).1 y hy).lt
  · rw [← h.live c (hL.mem_iff.2 (mem_cons_of_mem _ hc))]
    exact (hframe c.1 (hmine c hc)
      (hcross p (by simp) c (hL.mem_iff.2 (mem_cons_of_mem _ hc))).1.symm).1
  · refine (join_brk ..).symm ▸ (join_brk ..).symm ▸ hlaid.perm
  · exact (join_brk ..).trans (join_brk ..)
  · rcases hkeep b' mem_cons_self with hin | hin
    · exact ⟨b', by simp [hin], hbig⟩
    · exact ⟨p', by simp, hbig.trans hin⟩

/-! ## `malloc` -/

theorem take_inv (h : Inv base lo s N L) (ha : a ∈ N) (hn : 0 < n) (hfit : n ≤ s.size (s.ptr a.1)) :
    ∃ N', Inv base lo (take s n a.1 (s.ptr a.1)).2 N'
      (((take s n a.1 (s.ptr a.1)).1 - 8, n) :: L) := by
  have hbase := h.linked.size h.base_mem
  obtain ⟨A, B, rfl⟩ := append_of_mem ha
  obtain ⟨hA, hsize, hptr, hB⟩ := linked_append.1 h.linked
  cases B with
  | nil =>
    rw [hptr, first, hbase] at hfit
    omega
  | cons q B =>
    obtain ⟨hgA, hgB, hAB⟩ := List.pairwise_append.1 h.gaps
    simp only [pairwise_cons, forall_mem_cons] at hgB hAB
    have hcross := (List.pairwise_append.1 h.laid.apart).2.2 q (by simp)
    rw [hptr, first]
    rw [hptr, first, hB.1] at hfit
    have hq := (h.laid.each q (by simp)).resolve_left
      (by rintro rfl; exact absurd hn (Nat.not_lt.2 hfit))
    have htop := h.laid.top
    have hend := h.laid.fits (b := q) (by simp)
    simp only [KERNBASE, Chunk.fin] at htop hend
    unfold take
    rw [hB.1]
    split
    · rename_i heq
      have hplus : plus q.1 1 - 8 = q.1 := by unfold plus; omega
      dsimp only
      rw [hplus, show (q.1, n) = q from Prod.ext rfl heq.symm]
      refine ⟨A ++ a :: B, ?_, linked_append.2 ⟨?_, hsize, ?_, ?_⟩, ⟨a, by simp, rfl⟩, ?_,
        List.forall_mem_cons.2 ⟨hB.1, h.live⟩, ?_⟩
      · exact head_append h.head
      · exact hA.frame fun x hx => ⟨rfl, update_of_ne (hAB x hx).1.lt.ne ..⟩
      · exact (update_self ..).trans hB.2.1
      · exact hB.2.2.frame fun x hx => ⟨rfl, update_of_ne (hgB.1.2 x hx).lt.ne' ..⟩
      · exact h.gaps.sublist (by simp)
      · exact h.laid.perm
    · have hplus : plus q.1 (q.2 - n) = q.1 + 8 * (q.2 - n) := Nat.mod_eq_of_lt (by omega)
      have hplus' : plus (q.1 + 8 * (q.2 - n)) 1 - 8 = q.1 + 8 * (q.2 - n) := by unfold plus; omega
      dsimp only
      rw [hplus, hplus']
      have hsizes : ∀ x, x < q.1 ∨ q.1 + 8 * q.2 ≤ x →
          update (update s.size q.1 (q.2 - n)) (q.1 + 8 * (q.2 - n)) n x = s.size x :=
        fun x hx => by rw [update_of_ne (by omega), update_of_ne (by omega)]
      refine ⟨A ++ a :: (q.1, q.2 - n) :: B, ?_, linked_append.2 ⟨?_, ?_, hptr, ?_, hB.2.1, ?_⟩,
        ⟨a, by simp, rfl⟩, ?_, ?_, ?_⟩
      · exact head_append h.head
      · exact hA.frame fun x hx => ⟨hsizes _ (.inl (hAB x hx).2.1.lt), rfl⟩
      · exact (hsizes _ (.inl hgB.1.1.lt)).trans hsize
      · exact (update_of_ne (by dsimp only; omega) ..).trans (update_self ..)
      · exact hB.2.2.frame fun x hx => ⟨hsizes _ (.inr (Nat.le_of_lt (hgB.2.1 x hx))), rfl⟩
      · refine List.pairwise_append.2 ⟨hgA, ?_, fun x hx => ?_⟩
        · simp only [pairwise_cons, forall_mem_cons]
          refine ⟨hgB.1, fun y hy => ?_, hgB.2.2⟩
          have := hgB.2.1 y hy
          simp only [Before, Chunk.fin] at this ⊢
          omega
        · simp only [forall_mem_cons]
          exact hAB x hx
      · refine List.forall_mem_cons.2 ⟨update_self .., fun x hx => ?_⟩
        have := hcross x hx
        simp only [Apart, Chunk.fin] at this
        exact (hsizes x.1 (by omega)).trans (h.live x hx)
      · have hlaid : Laid base lo s.brk (q :: (A ++ a :: B ++ L)) := h.laid.perm
        have hq' : q = (q.1, q.2 - n + n) := by rw [Nat.sub_add_cancel hfit]
        rw [hq'] at hlaid
        exact ((laid_join (b := (q.1, q.2 - n))
          (c := (q.1 + 8 * (q.2 - n), n)) (by dsimp only; omega) hn hq.1 rfl).2 hlaid).perm

theorem mallocLoop_walk (n : Nat) (ok : Nat → Bool) {f : Nat} (hf : s.freep = some f) :
    ∀ (l : List Chunk) {c : Chunk} (fuel : Nat), Linked s f (c :: l) → (∀ x ∈ l, x.1 ≠ f) →
    l.length < fuel → ∃ k a, fuel ≤ k + 1 + l.length ∧ a ∈ c :: l ∧
      mallocLoop n ok fuel s c.1 (s.ptr c.1) = mallocLoop n ok (k + 1) s a.1 (s.ptr a.1) ∧
      (n ≤ s.size (s.ptr a.1) ∨ s.ptr a.1 = f ∧ s.size f < n ∧ ∀ x ∈ l, x.2 < n)
  | l, c, 0, _, _, hfuel => absurd hfuel (Nat.not_lt_zero _)
  | l, c, fuel + 1, hl, hne, hfuel => by
    by_cases hfit : n ≤ s.size (s.ptr c.1)
    · exact ⟨fuel, c, by omega, mem_cons_self, rfl, .inl hfit⟩
    cases l with
    | nil =>
      have hptr : s.ptr c.1 = f := hl.2.1
      exact ⟨fuel, c, by omega, mem_cons_self, rfl, .inr ⟨hptr, by rw [hptr] at hfit; omega, nofun⟩⟩
    | cons x l =>
      have hptr : s.ptr c.1 = x.1 := hl.2.1
      obtain ⟨hx, hne⟩ := List.forall_mem_cons.1 hne
      obtain ⟨k, a, hk, ha, hloop, hend⟩ :=
        mallocLoop_walk n ok hf l fuel hl.2.2 hne (Nat.lt_of_succ_lt_succ hfuel)
      refine ⟨k, a, by rw [length_cons]; omega, mem_cons_of_mem _ ha, ?_,
        hend.imp_right fun h => ⟨h.1, h.2.1, ?_⟩⟩
      · rw [mallocLoop, if_neg hfit, hptr, hf, if_neg (fun h => hx (Option.some.inj h).symm)]
        exact hloop
      · rw [hptr, hl.2.2.1] at hfit
        exact List.forall_mem_cons.2 ⟨Nat.lt_of_not_le hfit, h.2.2⟩

theorem Inv.round {f : Nat} (h : Inv base lo s N L) (n : Nat) (ok : Nat → Bool) (fuel : Nat)
    (hf : s.freep = some f)
    (hfuel : N.length ≤ fuel) : ∃ k a, fuel ≤ k + N.length ∧ a ∈ N ∧
    mallocLoop n ok fuel s f (s.ptr f) = mallocLoop n ok (k + 1) s a.1 (s.ptr a.1) ∧
      (n ≤ s.size (s.ptr a.1) ∨ s.ptr a.1 = f ∧ s.size f < n ∧ ∀ x ∈ N, x.2 < n) := by
  obtain ⟨x, hx, hx'⟩ := h.freep
  obtain rfl : x.1 = f := Option.some.inj (hx'.symm.trans hf)
  obtain ⟨A, B, rfl, hlinked⟩ := h.around hx
  obtain ⟨-, hgB, hAB⟩ := List.pairwise_append.1 h.gaps
  rw [show x :: (B ++ (A ++ x :: B)) = (x :: (B ++ A)) ++ x :: B by simp, linked_append] at hlinked
  simp only [length_append, length_cons] at hfuel ⊢
  obtain ⟨k, a, hk, ha, hloop, hend⟩ :=
    mallocLoop_walk n ok hf (B ++ A) fuel hlinked.1 (fun y hy => by
    rcases List.mem_append.1 hy with hy | hy
    · exact ((List.pairwise_cons.1 hgB).1 y hy).lt.ne'
    · exact (hAB y hy x mem_cons_self).lt.ne) (by rw [length_append]; omega)
  rw [length_append] at hk
  refine ⟨k, a, by omega, ?_, hloop, hend.imp_right fun h' => ⟨h'.1, h'.2.1, fun y hy => ?_⟩⟩
  · simp only [mem_cons, mem_append] at ha ⊢
    tauto
  · simp only [mem_append, mem_cons] at hy
    rcases hy with hy | rfl | hy
    · exact h'.2.2 y (mem_append_right _ hy)
    · rw [← h.linked.size hx]
      exact h'.2.1
    · exact h'.2.2 y (mem_append_left _ hy)

theorem sbrk_eq (hn : n < 2 ^ 31) :
    sbrk s n ok = if ok s.brk ∧ s.brk + n < KERNBASE then some { s with brk := s.brk + n }
      else none := by
  unfold sbrk
  rw [if_pos hn]
  refine if_congr (and_congr_right fun _ => ?_) rfl rfl
  simp only [KERNBASE]
  omega

theorem morecore_inv (ok : Nat → Bool) (h : Inv base lo s N L) (hn : n * 8 < 2 ^ 31) :
    morecore s n ok = some none ∨
    ∃ t N', morecore s n ok = some (some t) ∧ Inv base lo t N' L ∧ ∃ x ∈ N', n ≤ x.2 := by
  unfold morecore
  generalize hnu : (if n < 4096 then 4096 else n) = nu
  have hnu : 0 < nu ∧ n ≤ nu ∧ nu * 8 < 2 ^ 31 := by
    split at hnu <;> omega
  dsimp only
  rw [Nat.mod_eq_of_lt (by omega), sbrk_eq hnu.2.2]
  by_cases hok : ok s.brk ∧ s.brk + nu * 8 < KERNBASE
  · rw [if_pos hok]
    have hlaid := h.laid.grow hnu.1 (by rw [Nat.mul_comm]; exact hok.2)
    have hne : ∀ x ∈ N ++ L, x.1 ≠ s.brk := fun x hx =>
      ((List.pairwise_cons.1 hlaid.apart).1 x hx).1.symm
    have hnew : Inv base lo { s with brk := s.brk + nu * 8, size := update s.size s.brk nu } N
        ((s.brk, nu) :: L) := by
      refine ⟨h.head, h.linked.frame fun x hx => ⟨update_of_ne (hne x (mem_append_left _ hx)) ..,
        rfl⟩, h.freep, h.gaps, List.forall_mem_cons.2 ⟨update_self .., fun x hx => ?_⟩, ?_⟩
      · exact (update_of_ne (hne x (mem_append_right _ hx)) ..).trans (h.live x hx)
      · rw [Nat.mul_comm]
        exact hlaid.perm
    obtain ⟨t, N', ht, hI, -, x, hx, hbig⟩ := free_inv hnew (.refl _)
    have htop := hok.2
    simp only [KERNBASE] at htop
    have hplus : plus s.brk 1 = s.brk + 8 := Nat.mod_eq_of_lt (by omega)
    dsimp only
    rw [hplus, ht]
    exact .inr ⟨t, N', rfl, hI, x, hx, hnu.2.1.trans hbig⟩
  · rw [if_neg hok]
    exact .inl rfl

/-- **`malloc` returns.** -/
theorem mallocLoop_inv {f : Nat} (h : Inv base lo s N L) (hf : s.freep = some f) (hn : 0 < n)
    (hsmall : n * 8 < 2 ^ 31) :
    ∃ r t N', mallocLoop n ok turns s f (s.ptr f) = some (r, t) ∧
    Inv base lo t N' (r.toList.map (fun ap => (ap - 8, n)) ++ L) := by
  have htaken : ∀ {k t N a}, Inv base lo t N L → a ∈ N → n ≤ t.size (t.ptr a.1) → ∃ r t' N',
      mallocLoop n ok (k + 1) t a.1 (t.ptr a.1) = some (r, t') ∧
      Inv base lo t' N' (r.toList.map (fun ap => (ap - 8, n)) ++ L) :=
    fun {k t N a} ht ha hfit => by
      obtain ⟨N', hI⟩ := take_inv ht ha hn hfit
      exact ⟨_, _, N', by rw [mallocLoop, if_pos hfit], hI⟩
  have hlen := h.length_le
  have htop := h.laid.top
  simp only [KERNBASE] at htop
  obtain ⟨k, a, hk, ha, hloop, hfit | ⟨hptr, hsize, -⟩⟩ :=
    h.round n ok turns hf (by simp only [turns]; omega)
  · rw [hloop]
    exact htaken h ha hfit
  · rw [hloop, mallocLoop, hptr, if_neg (by omega), hf, if_pos rfl]
    rcases morecore_inv ok h hsmall with hnone | ⟨t, N', hsome, ht, x, hx, hbig⟩
    · rw [hnone]
      exact ⟨none, s, N, rfl, h⟩
    · rw [hsome]
      obtain ⟨g, hg, hgp⟩ := ht.freep
      have hlen' := ht.length_le
      have htop' := ht.laid.top
      simp only [KERNBASE, turns] at htop' hk
      obtain ⟨k', a', -, ha', hloop, hfit | ⟨-, -, hnone⟩⟩ := ht.round n ok k hgp (by omega)
      · simp only [hgp, Option.bind_some]
        rw [hloop]
        exact htaken ht ha' hfit
      · exact absurd hbig (Nat.not_le.2 (hnone x hx))

/-! ## Runs -/

/-- A run in which `malloc` is called for the numbers of bytes that are `allowed`, with the pointers
in use. -/
inductive Reach (base lo : Nat) (allowed : UInt32 → Prop) : Heap → List (Nat × UInt32) → Prop
  | start {s : Heap} : base + 8 ≤ lo → lo < KERNBASE → s.freep = none → s.brk = lo →
      Reach base lo allowed s []
  | malloc {s t : Heap} {live : List (Nat × UInt32)} {nbytes : UInt32} {ok : Nat → Bool}
      {r : Option Nat} :
      Reach base lo allowed s live → allowed nbytes → malloc base s nbytes ok = some (r, t) →
      Reach base lo allowed t (r.toList.map (·, nbytes) ++ live)
  | free {s t : Heap} {live : List (Nat × UInt32)} {x : Nat × UInt32} :
      Reach base lo allowed s live → x ∈ live → free s x.1 = some t →
      Reach base lo allowed t (live.erase x)

/-- The block of a pointer. -/
def chunk (x : Nat × UInt32) : Chunk := (x.1 - 8, nunits x.2)

variable {allowed : UInt32 → Prop} {live : List (Nat × UInt32)}

theorem malloc_inv {nbytes : UInt32} (h : Inv base lo (ready base s) N L)
    (hsmall : nunits nbytes * 8 < 2 ^ 31) (ok : Nat → Bool) :
    ∃ r t N', malloc base s nbytes ok = some (r, t) ∧
    Inv base lo t N' (r.toList.map (fun ap => (ap - 8, nunits nbytes)) ++ L) := by
  obtain ⟨f, -, hf⟩ := h.freep
  unfold malloc
  simp only [hf, Option.bind_some]
  exact mallocLoop_inv h hf (Nat.succ_pos _) hsmall

theorem free_live {x : Nat × UInt32} (h : Inv base lo s N (live.map chunk)) (hx : x ∈ live) :
    ∃ t N', free s x.1 = some t ∧ Inv base lo t N' ((live.erase x).map chunk) := by
  obtain ⟨t, N', hfree, hI, -⟩ := free_inv h ((List.perm_cons_erase hx).map chunk)
  have h1 := h.lo_le (mem_map_of_mem hx)
  have h2 := h.laid.low
  have h8 : (chunk x).1 + 8 = x.1 := by
    simp only [chunk] at h1 ⊢
    omega
  exact ⟨t, N', h8 ▸ hfree, hI⟩

theorem Reach.inv (hs : Reach base lo allowed s live)
    (hsmall : ∀ n, allowed n → nunits n * 8 < 2 ^ 31) :
    (∀ x ∈ live, allowed x.2) ∧ (s.freep = none → live = []) ∧
    ∃ N, Inv base lo (ready base s) N (live.map chunk) := by
  induction hs with
  | start hbase hlo hfreep hbrk =>
    refine ⟨nofun, fun _ => rfl, [(base, 0)], ?_⟩
    unfold ready
    rw [hfreep]
    refine ⟨rfl, ⟨update_self .., update_self .., trivial⟩, ⟨_, mem_cons_self, rfl⟩,
      List.pairwise_singleton .., nofun,
      ⟨by omega, by rwa [hbrk], by simp, List.pairwise_singleton .., by simp [hbrk]⟩⟩
  | @malloc s t live nbytes ok r _ hn hmalloc ih =>
    obtain ⟨hall, -, N, hI⟩ := ih
    obtain ⟨r', t', N', hmalloc', hI'⟩ := malloc_inv hI (hsmall _ hn) ok
    cases hmalloc.symm.trans hmalloc'
    obtain ⟨f, -, hf⟩ := hI'.freep
    refine ⟨fun x hx => ?_, fun h => absurd (hf.symm.trans h) nofun, N', ?_⟩
    · rcases List.mem_append.1 hx with hx | hx
      · obtain ⟨_, _, rfl⟩ := List.mem_map.1 hx
        exact hn
      · exact hall x hx
    · rw [ready, hf, List.map_append, map_map]
      exact hI'
  | @free s t live x _ hx hfree ih =>
    obtain ⟨hall, hnone, N, hI⟩ := ih
    obtain ⟨f, hf⟩ := Option.ne_none_iff_exists'.1 fun h => not_mem_nil (hnone h ▸ hx)
    rw [ready, hf] at hI
    obtain ⟨t', N', hfree', hI'⟩ := free_live hI hx
    cases hfree.symm.trans hfree'
    obtain ⟨f', -, hf'⟩ := hI'.freep
    refine ⟨fun y hy => hall y (List.mem_of_mem_erase hy),
      fun h => absurd (hf'.symm.trans h) nofun, N', ?_⟩
    rw [ready, hf']
    exact hI'

/-- **The list of free blocks.** In every state of a run with small requests the list goes round
from `freep`, upwards from `base`; no two of its blocks touch or overlap; its units and those in use
are all that `sbrk` has given. Every call returns. -/
theorem free_list (hs : Reach base lo (fun n => nunits n * 8 < 2 ^ 31) s live) :
    (s.freep ≠ none → ∃ N, N.head? = some (base, 0) ∧ Linked s base N ∧
      (∃ f ∈ N, s.freep = some f.1) ∧ N.Pairwise Before ∧
      lo + 8 * ((N.map Prod.snd).sum + (live.map fun x => s.size (x.1 - 8)).sum) = s.brk) ∧
    (∀ x ∈ live, ∃ t, free s x.1 = some t) ∧
    ∀ n ok, nunits n * 8 < 2 ^ 31 → ∃ r, malloc base s n ok = some r := by
  obtain ⟨-, hnone, N, hI⟩ := hs.inv fun _ h => h
  refine ⟨fun hne => ?_, fun x hx => ?_, fun n ok hn => ?_⟩
  · obtain ⟨f, hf⟩ := Option.ne_none_iff_exists'.1 hne
    rw [ready, hf] at hI
    refine ⟨N, hI.head, hI.linked, hI.freep, hI.gaps, ?_⟩
    have hunits := hI.laid.units
    have hsizes : (live.map fun x => s.size (x.1 - 8)) = (live.map chunk).map Prod.snd := by
      rw [map_map]
      exact List.map_congr_left fun x hx => hI.live (chunk x) (mem_map_of_mem hx)
    rwa [List.map_append, List.sum_append, ← hsizes] at hunits
  · obtain ⟨f, hf⟩ := Option.ne_none_iff_exists'.1 fun h => not_mem_nil (hnone h ▸ hx)
    rw [ready, hf] at hI
    obtain ⟨t, -, hfree, -⟩ := free_live hI hx
    exact ⟨t, hfree⟩
  · obtain ⟨r, t, -, hmalloc, -⟩ := malloc_inv hI hn ok
    exact ⟨_, hmalloc⟩

/-! ## What `malloc` returns -/

/-- The list comes to `p`. -/
inductive OnList (s : Heap) : Nat → Prop
  | freep {p : Nat} : s.freep = some p → OnList s p
  | next {p : Nat} : OnList s p → OnList s (s.ptr p)

/-- The bytes of every pointer in use are within what `sbrk` has given, and no others' and no
header's. -/
def Sound (base lo : Nat) (s : Heap) (live : List (Nat × UInt32)) : Prop :=
  (∀ x ∈ live, lo ≤ x.1 ∧ x.1 + x.2.toNat ≤ s.brk ∧
    ∀ p, p = base ∨ OnList s p ∨ (∃ y ∈ live, p = y.1 - 8) → p + 8 ≤ x.1 ∨ x.1 + x.2.toNat ≤ p) ∧
  live.Pairwise fun x y => x.1 + x.2.toNat ≤ y.1 ∨ y.1 + y.2.toNat ≤ x.1

theorem Inv.onList {p : Nat} (h : Inv base lo s N L) (hp : OnList s p) : ∃ b ∈ N, b.1 = p := by
  induction hp with
  | freep hf =>
    obtain ⟨f, hf', hfreep⟩ := h.freep
    exact ⟨f, hf', Option.some.inj (hfreep.symm.trans hf)⟩
  | next _ ih =>
    obtain ⟨b, hb, rfl⟩ := ih
    obtain ⟨A, B, rfl⟩ := append_of_mem hb
    rw [(linked_append.1 h.linked).2.2.1]
    cases B with
    | nil => exact ⟨_, h.base_mem, rfl⟩
    | cons c B => exact ⟨c, by simp, rfl⟩

/-- **What `malloc` returns** is memory of the caller's own, as long as no request needs 2^31 bytes
or more. -/
theorem malloc_sound (hs : Reach base lo (fun n => 8 * ((n.toNat + 7) / 8 + 1) < 2 ^ 31) s live) :
    Sound base lo s live := by
  obtain ⟨hall, hnone, N, hI⟩ := hs.inv fun n hn => by
    unfold nunits
    omega
  have hlow := hI.laid.low
  have hbytes : ∀ x ∈ live, lo ≤ (chunk x).1 ∧ x.1 = (chunk x).1 + 8 ∧ x.1 + x.2.toNat ≤
      (chunk x).fin := fun x hx => by
    have h1 := hI.lo_le (mem_map_of_mem hx)
    have h2 := hall x hx
    simp only [chunk, nunits, Chunk.fin] at h1 ⊢
    omega
  obtain ⟨-, hpair, hcross⟩ := List.pairwise_append.1 hI.laid.apart
  rw [List.pairwise_map] at hpair
  refine ⟨fun x hx => ?_, hpair.imp_of_mem fun {x y} hx hy h => ?_⟩
  · obtain ⟨f, hf⟩ := Option.ne_none_iff_exists'.1 fun h => not_mem_nil (hnone h ▸ hx)
    rw [ready, hf] at hI
    have hx' := hbytes x hx
    have hlist : ∀ b ∈ N, b.1 + 8 ≤ x.1 ∨ x.1 + x.2.toNat ≤ b.1 := fun b hb => by
      have := hcross b hb (chunk x) (mem_map_of_mem hx)
      simp only [Apart, Chunk.fin] at this hx'
      omega
    refine ⟨by omega, hx'.2.2.trans (hI.laid.fits (mem_append_right _ (mem_map_of_mem hx))), ?_⟩
    rintro p (rfl | hp | ⟨y, hy, rfl⟩)
    · exact hlist _ hI.base_mem
    · obtain ⟨b, hb, rfl⟩ := hI.onList hp
      exact hlist b hb
    · have hy' := hbytes y hy
      by_cases hyx : y = x
      · rw [hyx]
        omega
      · have : Std.Symm fun x y : Nat × UInt32 => Apart (chunk x) (chunk y) := ⟨fun _ _ h => h.symm⟩
        have := hpair.forall hy hx hyx
        simp only [Apart, Chunk.fin] at this hx' hy'
        omega
  · have hx' := hbytes x hx
    have hy' := hbytes y hy
    simp only [Apart, Chunk.fin] at h hx' hy'
    omega

/-- A heap before the first call. -/
def fresh : Heap := ⟨fun _ => 0, fun _ => 0, none, 0x2000⟩

theorem reach_fresh (allowed : UInt32 → Prop) : Reach 0x1000 0x2000 allowed fresh [] :=
  .start (by decide) (by decide) rfl rfl

/-- Three requests, of which the second is given back. -/
def threeCalls : Option ((Option Nat × Option Nat × Option Nat) × Heap) := do
  let (p, s) ← malloc 0x1000 fresh 16 fun _ => true
  let (q, s) ← malloc 0x1000 s 40 fun _ => true
  let (r, s) ← malloc 0x1000 s 16 fun _ => true
  return ((p, q, r), ← free s 0x9fc0)

/-- The block that was given back and what is left of the first one are on the list, which `base`
begins. -/
theorem free_list_three :
    ∃ s, Reach 0x1000 0x2000 (fun n => nunits n * 8 < 2 ^ 31) s [(0x9fa8, 16), (0x9ff0, 16)] ∧
    (s.ptr 0x1000, s.ptr 0x2000, s.ptr 0x9fb8) = (0x2000, 0x9fb8, 0x1000) ∧
    (∃ N, N.head? = some (0x1000, 0) ∧ Linked s 0x1000 N ∧ (∃ f ∈ N, s.freep = some f.1) ∧
      N.Pairwise Before ∧
      0x2000 + 8 * ((N.map Prod.snd).sum + (s.size 0x9fa0 + s.size 0x9fe8)) = s.brk) ∧
    (∃ t, free s 0x9fa8 = some t) ∧ ∃ r, malloc 0x1000 s 100 (fun _ => true) = some r := by
  have h : threeCalls.map (fun x => (x.1, x.2.freep, x.2.ptr 0x1000, x.2.ptr 0x2000,
    x.2.ptr 0x9fb8)) =
      some ((some 0x9ff0, some 0x9fc0, some 0x9fa8), some 0x2000, 0x2000, 0x9fb8, 0x1000) := by
        decide +kernel
  obtain ⟨x, hrun, heq⟩ := Option.map_eq_some_iff.1 h
  simp only [threeCalls, Option.bind_eq_bind] at hrun
  obtain ⟨⟨p, s1⟩, h1, hrun⟩ := Option.bind_eq_some_iff.1 hrun
  obtain ⟨⟨q, s2⟩, h2, hrun⟩ := Option.bind_eq_some_iff.1 hrun
  obtain ⟨⟨r, s3⟩, h3, hrun⟩ := Option.bind_eq_some_iff.1 hrun
  obtain ⟨s, h4, hx⟩ := Option.bind_eq_some_iff.1 hrun
  cases hx
  simp only [Prod.mk.injEq] at heq
  obtain ⟨⟨rfl, rfl, rfl⟩, hf, hptr⟩ := heq
  have hs := Reach.free (x := (0x9fc0, 40))
    (.malloc (.malloc (.malloc (reach_fresh fun n => nunits n * 8 < 2 ^ 31) (by decide) h1)
    (by decide) h2) (by decide) h3) (by decide) h4
  obtain ⟨hlist, hfree, hmalloc⟩ := free_list hs
  exact ⟨s, hs, by simp only [hptr], hlist (by rw [hf]; nofun), hfree _ mem_cons_self,
    hmalloc 100 _ (by decide)⟩
theorem malloc_sound_sixteen : ∃ t, malloc 0x1000 fresh 16 (fun _ => true) = some (some 0x9ff0, t) ∧
    Sound 0x1000 0x2000 t [(0x9ff0, 16)] := by
  have h : (malloc 0x1000 fresh 16 fun _ => true).map Prod.fst = some (some 0x9ff0) := by
    decide +kernel
  obtain ⟨⟨r, t⟩, ht, rfl⟩ := Option.map_eq_some_iff.1 h
  exact ⟨t, ht, malloc_sound (.malloc (reach_fresh _) (by decide) ht)⟩

/-- `nbytes + sizeof(Header) - 1` is 6: one unit, the header. -/
theorem malloc_short : ∃ s live, Reach 0x1000 0x2000 (fun _ => True) s live ∧
    ¬ Sound 0x1000 0x2000 s live := by
  have h : (malloc 0x1000 fresh 0xffffffff fun _ => true).map (Prod.map id Heap.brk) =
      some (some 0xa000, 0xa000) := by decide +kernel
  obtain ⟨⟨r, t⟩, ht, heq⟩ := Option.map_eq_some_iff.1 h
  obtain ⟨rfl, hbrk⟩ := Prod.mk.inj heq
  refine ⟨t, _, .malloc (reach_fresh _) trivial ht, fun hsound => ?_⟩
  have := (hsound.1 _ mem_cons_self).2.1
  rw [hbrk] at this
  revert this
  decide

end Os4.Malloc
