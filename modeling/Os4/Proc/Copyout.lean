import Os4.Proc.Uvm
/-!
# copyout (vm.c)

`copyout` stores page by page, and looks each page up with `uva2ka`. `uva2ka` reads the entry that
`walkpgdir` returns also when there is no table for the page and `walkpgdir` returns 0. So `copyout`
does what it is for (`Copies`) just if there is a table for the first page that is not the user's,
and no two of its addresses that are one byte of memory get different bytes
(**`copyout_copies_iff`**).
-/
namespace Os4.Uvm

open Prog Thread
open Vm (Frame NPTENTRIES kernelTables)

/-- The frame of a page that is present and the user's. -/
def Pgdir.userFrame (S : Pgdir) (v : Nat) : Option Frame :=
  (S.page v).bind fun e => if e.u then some e.frame else none

/-- The frame of an address and its place in it. -/
def Pgdir.at (S : Pgdir) (a : Nat) : Option (Frame × Nat) :=
  (S.userFrame (a / PGSIZE)).map fun f => (f, a % PGSIZE)

def Pgdir.hasTable (S : Pgdir) (v : Nat) : Bool := (S.tables (v / NPTENTRIES)).isSome

def St.byte (s : St) (x : Frame × Nat) : UInt8 := (s.data x.1).get x.2

/-- `buf` is at `va`, and nothing else has changed. -/
structure Stored (S : Pgdir) (va : Nat) (buf : List UInt8) (s s' : St) : Prop where
  bytes : ∀ i < buf.length, ∃ x, S.at ((va + i) % 2 ^ 32) = some x ∧ buf[i]? = some (s'.byte x)
  rest : ∀ x, (∀ i < buf.length, S.at ((va + i) % 2 ^ 32) ≠ some x) → s'.byte x = s.byte x
  only : s' = { s with data := s'.data }

/-- `copyout` returns 0 and has stored `buf`, or it returns -1 and not every page is the user's. A
look through a null pointer ends the run. -/
def Copies (d : Frame) (va : Nat) (buf : List UInt8) (s : St) : Prop :=
  ∃ b s', (copyout d va buf none).run s = .ok (b, s') ∧
    if b then Stored (s.dirs d) va buf s s'
    else ∃ i < buf.length, (s.dirs d).at ((va + i) % 2 ^ 32) = none

/-- Addresses that are one byte of memory get one byte. -/
def Agrees (S : Pgdir) (va : Nat) (buf : List UInt8) : Prop :=
  ∀ i < buf.length, ∀ j < buf.length,
    S.at ((va + i) % 2 ^ 32) = S.at ((va + j) % 2 ^ 32) → buf[i]? = buf[j]?

variable {S : Pgdir} {s s' : St} {d f : Frame} {va fuel i j : Nat} {buf : List UInt8}

/-- What is stored in one turn of the loop. -/
def chunk (va : Nat) (buf : List UInt8) : Nat := min (PGSIZE - va % PGSIZE) buf.length

/-- The page of the next turn. -/
def nextPage (va : Nat) : Nat := (va / PGSIZE * PGSIZE + PGSIZE) % 2 ^ 32

theorem at_chunk (hva : va < 2 ^ 32) (hi : i < chunk va buf) :
    (va + i) % 2 ^ 32 / PGSIZE = va / PGSIZE ∧ (va + i) % 2 ^ 32 % PGSIZE = va % PGSIZE + i := by
  unfold chunk at hi
  simp only [PGSIZE] at hi ⊢
  omega

theorem chunk_pos (va : Nat) (hb : 0 < buf.length) : 0 < chunk va buf := by
  unfold chunk
  simp only [PGSIZE]
  omega

theorem at_nextPage (h : i + chunk va buf < buf.length) :
    (nextPage va + i) % 2 ^ 32 = (va + (i + chunk va buf)) % 2 ^ 32 := by
  unfold nextPage
  unfold chunk at h ⊢
  simp only [PGSIZE] at *
  omega

theorem hasTable_of_at {a : Nat} (h : S.at a ≠ none) : S.hasTable (a / PGSIZE) = true := by
  unfold Pgdir.at Pgdir.userFrame Pgdir.page at h
  unfold Pgdir.hasTable
  cases ht : S.tables (a / PGSIZE / NPTENTRIES) with
  | none => rw [ht] at h; exact absurd rfl h
  | some t => rfl

theorem copyoutLoop_turn (hb : 0 < buf.length) : (copyoutLoop d none (fuel + 1) va buf).run s =
    if (s.dirs d).hasTable (va / PGSIZE) then
      match (s.dirs d).userFrame (va / PGSIZE) with
      | none => .ok (false, s)
      | some f => (copyoutLoop d none fuel (nextPage va) (buf.drop (chunk va buf))).run
          (s.withData f ((s.data f).splice (va % PGSIZE) (buf.take (chunk va buf))))
    else .error .nullPte := by
  rw [copyoutLoop, if_neg hb.ne', run_bind, act, run_step]
  unfold uva2ka Pgdir.hasTable Pgdir.userFrame Pgdir.page
  simp only [dir, get_bind, bind_assoc, pure_bind]
  cases (s.dirs d).tables (va / PGSIZE / NPTENTRIES) with
  | none => rfl
  | some t =>
    cases (s.dirs d).ptes (va / PGSIZE) with
    | none => rfl
    | some e =>
      cases hu : e.u
      · simp [hu]
        rfl
      · simp [hu]
        rfl

theorem stored_chunk (hva : va < 2 ^ 32) (hf : S.userFrame (va / PGSIZE) = some f) :
    Stored S va (buf.take (chunk va buf)) s
      (s.withData f ((s.data f).splice (va % PGSIZE) (buf.take (chunk va buf)))) := by
  have hlen : (buf.take (chunk va buf)).length = chunk va buf := by simp [chunk]
  have hin : va % PGSIZE + chunk va buf ≤ PGSIZE := by
    unfold chunk
    simp only [PGSIZE]
    omega
  have hat : ∀ i < chunk va buf, S.at ((va + i) % 2 ^ 32) = some (f, va % PGSIZE + i) := by
    intro i hi
    unfold Pgdir.at
    rw [(at_chunk hva hi).1, (at_chunk hva hi).2, hf]
    rfl
  refine ⟨fun i hi => ?_, fun x hx => ?_, rfl⟩
  · refine ⟨_, hat i (hlen ▸ hi), ?_⟩
    unfold St.byte St.withData
    simp only [Function.update_self]
    rw [Bytes.get_splice_of_mem _ (Nat.le_add_right _ _) (by omega) (by omega),
      Nat.add_sub_cancel_left, List.getD_eq_getElem _ _ hi, List.getElem?_eq_getElem hi]
  · obtain ⟨g, o⟩ := x
    unfold St.byte St.withData
    by_cases hg : g = f
    · subst hg
      simp only [Function.update_self]
      refine Bytes.get_splice_of_disjoint _ (or_iff_not_imp_left.2 fun ho => ?_)
      by_contra hlt
      refine hx (o - va % PGSIZE) (by omega) ((hat _ (by omega)).trans ?_)
      rw [Nat.add_sub_cancel' (by omega)]
    · simp only [Function.update_of_ne hg]

theorem Stored.append {s1 : St} (h : Stored S va (buf.take (chunk va buf)) s s1)
    (h' : Stored S (nextPage va) (buf.drop (chunk va buf)) s1 s') (hag : Agrees S va buf) :
    Stored S va buf s s' := by
  have hdrop := List.length_drop (l := buf) (i := chunk va buf)
  have htake := List.length_take (l := buf) (i := chunk va buf)
  refine ⟨fun i hi => ?_, fun x hx => ?_, h'.only.trans (by rw [h.only])⟩
  · by_cases hic : i < chunk va buf
    · obtain ⟨x, hx, hbyte⟩ := h.bytes i (by omega)
      rw [List.getElem?_take_of_lt hic] at hbyte
      refine ⟨x, hx, ?_⟩
      by_cases hagain : ∃ j < (buf.drop (chunk va buf)).length,
        S.at ((nextPage va + j) % 2 ^ 32) = some x
      · -- stored once more
        obtain ⟨j, hj, hjx⟩ := hagain
        obtain ⟨y, hy, hbyte'⟩ := h'.bytes j hj
        cases hjx.symm.trans hy
        have hlt : j + chunk va buf < buf.length := by omega
        rw [at_nextPage hlt] at hjx
        rw [hag i hi _ hlt (hx.trans hjx.symm), Nat.add_comm, ← List.getElem?_drop]
        exact hbyte'
      · push Not at hagain
        rw [hbyte, h'.rest x hagain]
    · obtain ⟨j, rfl⟩ := Nat.exists_eq_add_of_le' (Nat.le_of_not_lt hic)
      obtain ⟨x, hx, hbyte⟩ := h'.bytes j (by omega)
      rw [at_nextPage hi] at hx
      rw [List.getElem?_drop, Nat.add_comm] at hbyte
      exact ⟨x, hx, hbyte⟩
  · rw [h'.rest x fun j hj => ?_]
    · exact h.rest x fun i hi => hx i (by omega)
    · have hlt : j + chunk va buf < buf.length := by omega
      rw [at_nextPage hlt]
      exact hx _ hlt

theorem copyoutLoop_go (fuel : Nat) (hb : 0 < buf.length) (hva : va < 2 ^ 32)
    (hat : (s.dirs d).at ((va + 0) % 2 ^ 32) ≠ none) :
    ∃ s1, Stored (s.dirs d) va (buf.take (chunk va buf)) s s1 ∧
    (copyoutLoop d none (fuel + 1) va buf).run s =
      (copyoutLoop d none fuel (nextPage va) (buf.drop (chunk va buf))).run s1 := by
  rw [Nat.add_zero, Nat.mod_eq_of_lt hva] at hat
  obtain ⟨f, hf⟩ := Option.ne_none_iff_exists'.1 fun h => hat (Option.map_eq_none_iff.2 h)
  refine ⟨_, stored_chunk hva hf, ?_⟩
  rw [copyoutLoop_turn hb, if_pos (hasTable_of_at hat), hf]

/-- What the loop does when the first `n` addresses are the user's, and no more. -/
theorem copyoutLoop_run {n : Nat} (hfuel : buf.length ≤ fuel) (hva : va < 2 ^ 32)
    (hn : n ≤ buf.length) (hbefore : ∀ j < n, (s.dirs d).at ((va + j) % 2 ^ 32) ≠ none)
    (hstop : n < buf.length → (s.dirs d).at ((va + n) % 2 ^ 32) = none) :
    if n = buf.length then Agrees (s.dirs d) va buf →
      ∃ s', (copyoutLoop d none fuel va buf).run s = .ok (true, s') ∧ Stored (s.dirs d) va buf s s'
    else if (s.dirs d).hasTable ((va + n) % 2 ^ 32 / PGSIZE) then
      ∃ s', (copyoutLoop d none fuel va buf).run s = .ok (false, s')
    else (copyoutLoop d none fuel va buf).run s = .error .nullPte := by
  induction fuel generalizing va buf n s with
  | zero =>
    obtain rfl := List.eq_nil_of_length_eq_zero (Nat.le_zero.1 hfuel)
    obtain rfl := Nat.le_zero.1 hn
    exact fun _ => ⟨s, rfl, fun i hi => absurd hi (Nat.not_lt_zero _), fun _ _ => rfl, rfl⟩
  | succ fuel ih =>
    by_cases hb : buf.length = 0
    · obtain rfl := List.eq_nil_of_length_eq_zero hb
      obtain rfl := Nat.le_zero.1 hn
      exact fun _ => ⟨s, rfl, fun i hi => absurd hi (Nat.not_lt_zero _), fun _ _ => rfl, rfl⟩
    have hpos := chunk_pos va (Nat.pos_of_ne_zero hb)
    by_cases hn0 : n = 0
    · subst hn0
      have hva0 : (va + 0) % 2 ^ 32 = va := Nat.mod_eq_of_lt hva
      have hnone := hstop (Nat.pos_of_ne_zero hb)
      rw [hva0] at hnone ⊢
      rw [if_neg (Ne.symm hb), copyoutLoop_turn (Nat.pos_of_ne_zero hb),
        Option.map_eq_none_iff.1 hnone]
      split
      · exact ⟨s, rfl⟩
      · rfl
    obtain ⟨s1, hs1, hrun⟩ :=
      copyoutLoop_go fuel (Nat.pos_of_ne_zero hb) hva (hbefore 0 (Nat.pos_of_ne_zero hn0))
    have hdirs : s1.dirs = s.dirs := by rw [hs1.only]
    have hdrop := List.length_drop (l := buf) (i := chunk va buf)
    -- the first chunk is on the user's pages
    have hnc : chunk va buf ≤ n := by
      by_contra hlt
      have hle : chunk va buf ≤ buf.length := Nat.min_le_right _ _
      obtain ⟨x, hx, -⟩ := hs1.bytes n (by rw [List.length_take]; omega)
      rw [hstop (by omega)] at hx
      cases hx
    obtain ⟨m, rfl⟩ := Nat.exists_eq_add_of_le' hnc
    have hrest := @ih s1 (nextPage va) (buf.drop (chunk va buf)) m (by omega)
      (Nat.mod_lt _ (by decide)) (by omega)
      (fun j hj => by
        have hlt : j + chunk va buf < buf.length := by omega
        rw [hdirs, at_nextPage hlt]
        exact hbefore _ (by omega))
      fun hm => by
        have hlt : m + chunk va buf < buf.length := by omega
        rw [hdirs, at_nextPage hlt]
        exact hstop hlt
    rw [hdirs, ← hrun] at hrest
    by_cases hend : m + chunk va buf = buf.length
    · rw [if_pos (by omega)] at hrest
      rw [if_pos hend]
      intro hag
      obtain ⟨s', hr, hs'⟩ := hrest fun i hi j hj heq => by
        have hlti : i + chunk va buf < buf.length := by omega
        have hltj : j + chunk va buf < buf.length := by omega
        rw [at_nextPage hlti, at_nextPage hltj] at heq
        rw [List.getElem?_drop, List.getElem?_drop, Nat.add_comm, Nat.add_comm _ j]
        exact hag _ hlti _ hltj heq
      exact ⟨s', hr, hs1.append hs' hag⟩
    · have hlt : m + chunk va buf < buf.length := by omega
      rw [if_neg (by omega), at_nextPage hlt] at hrest
      rw [if_neg hend]
      exact hrest

theorem Stored.agrees (h : Stored S va buf s s') : Agrees S va buf := by
  intro i hi j hj heq
  obtain ⟨x, hx, hbx⟩ := h.bytes i hi
  obtain ⟨y, hy, hby⟩ := h.bytes j hj
  cases (hx.symm.trans heq).trans hy
  exact hbx.trans hby.symm

/-- **When `copyout` does what it is for.** -/
theorem copyout_copies_iff (d : Frame) (va : UInt32) (buf : List UInt8) (s : St) :
    Copies d va.toNat buf s ↔
    (∀ i < buf.length, (∀ j < i, (s.dirs d).at ((va.toNat + j) % 2 ^ 32) ≠ none) →
      (s.dirs d).hasTable ((va.toNat + i) % 2 ^ 32 / PGSIZE)) ∧
    ((∀ i < buf.length, (s.dirs d).at ((va.toNat + i) % 2 ^ 32) ≠ none) →
      Agrees (s.dirs d) va.toNat buf) := by
  have hrun {n : Nat} := copyoutLoop_run (d := d) (s := s)
    (n := n) (Nat.le_refl buf.length) va.toNat_lt
  by_cases hall : ∀ i < buf.length, (s.dirs d).at ((va.toNat + i) % 2 ^ 32) ≠ none
  · have hok := hrun (Nat.le_refl _) hall fun h => absurd h (Nat.lt_irrefl _)
    rw [if_pos rfl] at hok
    constructor
    · rintro ⟨b, s', hr, hb⟩
      refine ⟨fun i hi _ => hasTable_of_at (hall i hi), fun _ => ?_⟩
      cases b with
      | true => exact Stored.agrees hb
      | false =>
        obtain ⟨i, hi, hnone⟩ := hb
        exact absurd hnone (hall i hi)
    · intro h
      obtain ⟨s', hr, hs'⟩ := hok (h.2 hall)
      exact ⟨true, s', hr, hs'⟩
  · -- the first address that is not the user's
    push Not at hall
    obtain ⟨⟨hn, hnone⟩, hbefore⟩ := Nat.find_spec hall, fun j => Nat.find_min (m := j) hall
    generalize Nat.find hall = n at hn hnone hbefore
    replace hbefore : ∀ j < n, (s.dirs d).at ((va.toNat + j) % 2 ^ 32) ≠ none := fun j hj h =>
      hbefore j hj ⟨hj.trans hn, h⟩
    have hstop := hrun hn.le hbefore fun _ => hnone
    rw [if_neg hn.ne] at hstop
    constructor
    · rintro ⟨b, s', hr, -⟩
      refine ⟨fun i hi hbi => ?_, fun h => absurd hnone (h n hn)⟩
      by_cases hin : i = n
      · subst hin
        by_contra ht
        rw [if_neg ht] at hstop
        cases hr.symm.trans hstop
      · have hlt : i < n := (Nat.lt_or_gt_of_ne hin).resolve_right fun h => hbi n h hnone
        exact hasTable_of_at (hbefore i hlt)
    · intro h
      rw [if_pos (h.1 n hn hbefore)] at hstop
      obtain ⟨s', hr⟩ := hstop
      exact ⟨false, s', hr, n, hn, hnone⟩

/-- A page directory as `setupkvm` makes it, and an address between the kernel's two parts. -/
theorem copyout_null : ∃ s : St, (∀ i, ((s.dirs 0).tables i).isSome ↔ i ∈ kernelTables) ∧
    (copyout 0 0x90000000 [97] none).run s = .error .nullPte ∧ ¬ Copies 0 0x90000000 [97] s := by
  let S : Pgdir := ⟨fun i => if i ∈ kernelTables then some i else none, fun _ => none⟩
  let s : St := ⟨[], [], fun _ => .zero, fun _ => S,
    fun _ => ⟨.unused, none, none, 0, none, fun _ => none⟩, fun _ => ⟨0, 0, []⟩,
    fun _ => ⟨0, .none⟩⟩
  have hrun : (copyout 0 0x90000000 [97] none).run s = .error .nullPte := by
    unfold copyout
    rw [List.length_singleton, copyoutLoop_turn (by decide), if_neg (by decide)]
  refine ⟨s, fun i => ?_, hrun, ?_⟩
  · by_cases hi : i ∈ kernelTables <;> simp [s, S, hi]
  · rintro ⟨b, s', hr, -⟩
    cases hr.symm.trans hrun

end Os4.Uvm
