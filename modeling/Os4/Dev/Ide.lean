import Os4.Log.Buffers
/-!
# The request queue of the disk driver (ide.c:100-167)

| here | there |
| --- | --- |
| `idequeue`, `qnext` | the queue through the buffers (ide.c:28, buf.h) |
| `last` | the loop of `iderw` to the end of the queue, ide.c:148 |
| `iderw` | `iderw` up to its `sleep` |
| `finish` | its end: the flags are as it waits for |
| `ideintr` | ide.c:101-130, for the request at the head |
| `change` | what the holder of a buffer does to it outside `iderw` |

In `Buffers` the queue is a list, here it is the pointers; the data are left out. A process in
`iderw` is in `calls`, and no two are there with one buffer, because it is busy. `submitted`,
`started` and `done` say what has happened (**`ide_queue`**).
-/
namespace Os4.Ide

open Log (Buf)
open Function (update_of_ne update_self update)
open Log.Buffers (Stop idestart)

structure St where
  buf : Fin NBUF → Buf
  idequeue : Option (Fin NBUF)
  qnext : Fin NBUF → Option (Fin NBUF)
  calls : Fin NPROC → Option (Fin NBUF)
  submitted : List (Fin NBUF)
  started : List (Fin NBUF)
  done : List (Fin NBUF)

/-- The last of the buffers from `i` on, if there are no more than `fuel`. -/
def last (qnext : Fin NBUF → Option (Fin NBUF)) : Nat → Fin NBUF → Option (Fin NBUF)
  | 0, _ => none
  | fuel + 1, i =>
    match qnext i with
    | none => some i
    | some j => last qnext fuel j

/-- `idestart(b)` -/
def St.start (s : St) (i : Fin NBUF) : Except Stop St := do
  idestart (s.buf i)
  return { s with started := s.started ++ [i] }

/-- `b->qnext = 0; for(pp=&idequeue; *pp; pp=&(*pp)->qnext); *pp = b;` -/
def St.append (s : St) (i : Fin NBUF) : Except Stop St :=
  let qnext := update s.qnext i none
  match s.idequeue with
  | none => .ok { s with qnext, idequeue := some i, submitted := s.submitted ++ [i] }
  | some head =>
    match last qnext NBUF head with
    -- the loop does not end; it does from every state of a run (`Queued.append`)
    | none => .error .disabled
    | some j => .ok { s with qnext := update qnext j (some i), submitted := s.submitted ++ [i] }

def iderw (havedisk1 : Bool) (s : St) (p : Fin NPROC) (i : Fin NBUF) : Except Stop St :=
  if s.calls p = none ∧ ∀ q, s.calls q ≠ some i then
    if !(s.buf i).busy then .error .notBusy
    else if (s.buf i).valid && !(s.buf i).dirty then .error .nothingToDo
    else if (s.buf i).dev ≠ 0 ∧ havedisk1 = false then .error .noDisk
    else do
      let s ← { s with calls := update s.calls p (some i) }.append i
      if s.idequeue = some i then s.start i else return s
  else .error .disabled

/-- The request for `i`, the head of the queue, is done. -/
def St.complete (s : St) (i : Fin NBUF) : St :=
  { s with
    idequeue := s.qnext i
    buf := update s.buf i { s.buf i with valid := true, dirty := false }
    done := s.done ++ [i] }

def ideintr (s : St) : Except Stop St :=
  match s.idequeue with
  | none => .ok s
  | some i =>
    match s.qnext i with
    | none => .ok (s.complete i)
    | some j => (s.complete i).start j

def finish (s : St) (p : Fin NPROC) : Except Stop St :=
  match s.calls p with
  | some i =>
    if (s.buf i).valid = true ∧ (s.buf i).dirty = false then
      .ok { s with calls := update s.calls p none }
    else .error .disabled
  | none => .error .disabled

def change (s : St) (i : Fin NBUF) (x : Buf) : Except Stop St :=
  if ∀ q, s.calls q ≠ some i then .ok { s with buf := update s.buf i x } else .error .disabled

inductive Ev where
  | iderw (p : Fin NPROC) (i : Fin NBUF)
  | ideintr
  | finish (p : Fin NPROC)
  | change (i : Fin NBUF) (x : Buf)

def step (havedisk1 : Bool) (s : St) : Ev → Except Stop St
  | .iderw p i => iderw havedisk1 s p i
  | .ideintr => ideintr s
  | .finish p => finish s p
  | .change i x => change s i x

/-- No request, and nobody in `iderw`. -/
def idle (buf : Fin NBUF → Buf) : St := ⟨buf, none, fun _ => none, fun _ => none, [], [], []⟩

def run (havedisk1 : Bool) (buf : Fin NBUF → Buf) (tr : List Ev) : Except Stop St :=
  tr.foldlM (step havedisk1) (idle buf)

/-! ## The queue -/

/-- The buffers that `o` leads to. -/
def Chain (qnext : Fin NBUF → Option (Fin NBUF)) : Option (Fin NBUF) → List (Fin NBUF) → Prop
  | o, [] => o = none
  | o, i :: l => o = some i ∧ Chain qnext (qnext i) l

variable {qnext qnext' : Fin NBUF → Option (Fin NBUF)} {o : Option (Fin NBUF)}
  {l q : List (Fin NBUF)} {i : Fin NBUF} {s s' : St} {havedisk1 : Bool}

theorem Chain.congr (h : Chain qnext o l) (hq : ∀ j ∈ l, qnext' j = qnext j) :
    Chain qnext' o l := by
  induction l generalizing o with
  | nil => exact h
  | cons j l ih =>
    refine ⟨h.1, ?_⟩
    rw [hq j List.mem_cons_self]
    exact ih h.2 fun k hk => hq k (List.mem_cons_of_mem _ hk)

/-- The loop comes to the end of the queue, and there the buffer is added. -/
theorem Chain.append {head : Fin NBUF} (h : Chain qnext (some head) l) (hn : l.Nodup) (hi : i ∉ l)
    (hnext : qnext i = none) :
    ∃ j, (∀ fuel, l.length ≤ fuel → last qnext fuel head = some j) ∧
    Chain (update qnext j (some i)) (some head) (l ++ [i]) ∧ j ∈ l := by
  induction l generalizing head with
  | nil => cases h
  | cons k l ih =>
    obtain ⟨hk, hrest⟩ := h
    obtain rfl := Option.some.inj hk
    obtain ⟨hkl, hn⟩ := List.nodup_cons.1 hn
    obtain ⟨hik, hi⟩ := not_or.1 (mt List.mem_cons.2 hi)
    cases hnk : qnext head with
    | none =>
      rw [hnk] at hrest
      have hl : l = [] := by
        cases l with
        | nil => rfl
        | cons _ _ => cases hrest.1
      subst hl
      refine ⟨head, fun fuel hf => ?_, ⟨rfl, ?_⟩, List.mem_cons_self⟩
      · cases fuel with
        | zero => simp at hf
        | succ fuel => rw [last, hnk]
      · rw [update_self]
        refine ⟨rfl, ?_⟩
        rw [update_of_ne hik, hnext]
        rfl
    | some m =>
      rw [hnk] at hrest
      obtain ⟨j, hlast, hchain, hj⟩ := ih hrest hn hi
      refine ⟨j, fun fuel hf => ?_, ⟨rfl, ?_⟩, List.mem_cons_of_mem _ hj⟩
      · cases fuel with
        | zero => simp at hf
        | succ fuel =>
          rw [last, hnk]
          exact hlast fuel (by simpa using hf)
      · have hne : head ≠ j := by
          rintro rfl
          exact hkl hj
        rw [update_of_ne hne, hnk]
        exact hchain

/-- The queue holds what has been submitted and is not done, and each of its buffers is waited
for. -/
structure Queued (s : St) (q : List (Fin NBUF)) : Prop where
  chain : Chain s.qnext s.idequeue q
  nodup : q.Nodup
  submitted : s.submitted = s.done ++ q
  called : ∀ i ∈ q, ∃ p, s.calls p = some i
  pending : ∀ i ∈ q, ¬ ((s.buf i).valid = true ∧ (s.buf i).dirty = false)

/-- And its head has been started. -/
def Inv (s : St) (q : List (Fin NBUF)) : Prop := Queued s q ∧ s.started = s.done ++ q.take 1

theorem Queued.not_mem (h : Queued s q) (hfree : ∀ p, s.calls p ≠ some i) : i ∉ q := fun hi => by
  obtain ⟨p, hp⟩ := h.called i hi
  exact hfree p hp

/-- The loop of `iderw` comes to the end of the queue, and the buffer is added there. -/
theorem Queued.append (h : Queued s q) (hi : i ∉ q) (hcall : ∃ p, s.calls p = some i)
    (hwork : ¬ ((s.buf i).valid = true ∧ (s.buf i).dirty = false)) :
    ∃ s', s.append i = .ok s' ∧ Queued s' (q ++ [i]) ∧ s'.started = s.started ∧
    s'.done = s.done := by
  have hchain : Chain (update s.qnext i none) s.idequeue q := h.chain.congr fun j hj =>
    update_of_ne (ne_of_mem_of_not_mem hj hi) ..
  -- the rest follows when the pointers are right
  suffices h' : ∃ s', s.append i = .ok s' ∧ Chain s'.qnext s'.idequeue (q ++ [i]) ∧
      s' = { s with qnext := s'.qnext, idequeue := s'.idequeue, submitted := s.submitted ++ [i] } by
    obtain ⟨s', happ, hnew, hs'⟩ := h'
    refine ⟨s', happ, ⟨hnew, List.nodup_append.2 ⟨h.nodup, List.nodup_singleton i,
      fun a ha b hb => ?_⟩, ?_, ?_, ?_⟩, by rw [hs'], by rw [hs']⟩
    · rw [List.mem_singleton.1 hb]
      exact ne_of_mem_of_not_mem ha hi
    · rw [hs', ← List.append_assoc, ← h.submitted]
    · rw [hs', List.forall_mem_append, List.forall_mem_singleton]
      exact ⟨h.called, hcall⟩
    · rw [hs', List.forall_mem_append, List.forall_mem_singleton]
      exact ⟨h.pending, hwork⟩
  unfold St.append
  cases hq : s.idequeue with
  | none =>
    rw [hq] at hchain
    cases q with
    | nil => exact ⟨_, rfl, ⟨rfl, update_self ..⟩, rfl⟩
    | cons _ _ => cases hchain.1
  | some head =>
    rw [hq] at hchain
    obtain ⟨j, hlast, hnew, -⟩ := hchain.append h.nodup hi (update_self ..)
    simp only [hlast NBUF (h.nodup.length_le_card.trans_eq (Fintype.card_fin NBUF))]
    exact ⟨_, rfl, hnew, rfl⟩

theorem Queued.start (h : Queued s q) (hs : s.start i = .ok s') :
    Queued s' q ∧ s'.started = s.started ++ [i] ∧ s'.done = s.done := by
  unfold St.start idestart at hs
  split at hs
  · cases hs
  · cases hs
    exact ⟨{ h with }, rfl, rfl⟩

variable {p : Fin NPROC}

theorem Inv.iderw (h : Inv s q) (hs : iderw havedisk1 s p i = .ok s') : Inv s' (q ++ [i]) := by
  obtain ⟨h, hst⟩ := h
  unfold Ide.iderw at hs
  split at hs
  case isFalse => cases hs
  case isTrue hfree =>
    obtain ⟨hp, hfree⟩ := hfree
    split at hs
    · cases hs
    split at hs
    · cases hs
    rename_i hwork
    split at hs
    · cases hs
    have h0 : Queued { s with calls := update s.calls p (some i) } q := { h with
      called := fun j hj => by
        obtain ⟨r, hr⟩ := h.called j hj
        refine ⟨r, (update_of_ne ?_ ..).trans hr⟩
        rintro rfl
        rw [hp] at hr
        cases hr }
    obtain ⟨s1, happ, h1, hst1, hd1⟩ :=
      h0.append (h.not_mem hfree) ⟨p, update_self ..⟩ (by simpa using hwork)
    rw [happ] at hs
    replace hs : (if s1.idequeue = some i then s1.start i else .ok s1) = .ok s' := hs
    -- the disk is started if the queue was empty
    cases q with
    | nil =>
      rw [if_pos h1.chain.1] at hs
      obtain ⟨h', hst', hd'⟩ := h1.start hs
      refine ⟨h', ?_⟩
      rw [hst', hd', hst1, hd1, hst]
      simp
    | cons j q =>
      rw [if_neg] at hs
      · cases hs
        exact ⟨h1, by rw [hst1, hd1]; exact hst⟩
      · rw [h1.chain.1]
        rintro ⟨⟩
        exact h.not_mem hfree List.mem_cons_self

theorem Inv.ideintr (h : Inv s q) (hs : ideintr s = .ok s') : Inv s' q.tail := by
  obtain ⟨h, hst⟩ := h
  unfold Ide.ideintr at hs
  cases q with
  | nil =>
    rw [show s.idequeue = none from h.chain] at hs
    cases hs
    exact ⟨h, hst⟩
  | cons i q =>
    obtain ⟨hhead, hchain⟩ := h.chain
    obtain ⟨hi, hnodup⟩ := List.nodup_cons.1 h.nodup
    have h1 : Queued (s.complete i) q := by
      refine ⟨hchain, hnodup, ?_, fun j hj => h.called j (List.mem_cons_of_mem _ hj),
        fun j hj => ?_⟩
      · show s.submitted = s.done ++ [i] ++ q
        rw [h.submitted, List.append_assoc]
        rfl
      · rw [show (s.complete i).buf j = s.buf j from update_of_ne (ne_of_mem_of_not_mem hj hi) ..]
        exact h.pending j (List.mem_cons_of_mem _ hj)
    rw [hhead] at hs
    dsimp only at hs
    cases q with
    | nil =>
      rw [show s.qnext i = none from hchain] at hs
      cases hs
      exact ⟨h1, hst.trans (List.append_nil _).symm⟩
    | cons j q =>
      rw [hchain.1] at hs
      obtain ⟨h', hst', hd'⟩ := h1.start hs
      refine ⟨h', ?_⟩
      rw [hst', hd']
      exact congrArg (· ++ [j]) hst

theorem finish_ok (hs : finish s p = .ok s') : ∃ i, s.calls p = some i ∧
    ((s.buf i).valid = true ∧ (s.buf i).dirty = false) ∧
    s' = { s with calls := update s.calls p none } := by
  unfold finish at hs
  split at hs
  · rename_i i hp
    split at hs
    · rename_i hflags
      cases hs
      exact ⟨i, hp, hflags, rfl⟩
    · cases hs
  · cases hs

theorem Inv.step {ev : Ev} (h : Inv s q) (hs : step havedisk1 s ev = .ok s') : ∃ q', Inv s' q' := by
  cases ev with
  | iderw p i => exact ⟨_, h.iderw hs⟩
  | ideintr => exact ⟨_, h.ideintr hs⟩
  | finish p =>
    obtain ⟨i, hp, hflags, rfl⟩ := finish_ok hs
    refine ⟨q, { h.1 with called := fun j hj => ?_ }, h.2⟩
    obtain ⟨r, hr⟩ := h.1.called j hj
    refine ⟨r, (update_of_ne ?_ ..).trans hr⟩
    rintro rfl
    rw [hp] at hr
    cases hr
    exact h.1.pending i hj hflags
  | change i x =>
    replace hs : Ide.change s i x = .ok s' := hs
    unfold Ide.change at hs
    split at hs
    · rename_i hfree
      cases hs
      refine ⟨q, { h.1 with pending := fun j hj => ?_ }, h.2⟩
      dsimp only
      rw [update_of_ne (ne_of_mem_of_not_mem hj (h.1.not_mem hfree))]
      exact h.1.pending j hj
    · cases hs

theorem inv_run : ∀ {tr : List Ev} {s s' : St} {q : List (Fin NBUF)}, Inv s q →
    tr.foldlM (Ide.step havedisk1) s = .ok s' → ∃ q', Inv s' q'
  | [], _, _, _, h, hs => by
    cases hs
    exact ⟨_, h⟩
  | ev :: tr, s, _, _, h, hs => by
    rw [List.foldlM_cons] at hs
    cases hstep : Ide.step havedisk1 s ev with
    | error e => rw [hstep] at hs; cases hs
    | ok s1 =>
      rw [hstep] at hs
      obtain ⟨q1, h1⟩ := h.step hstep
      exact inv_run h1 hs

/-- **The queue.** It holds each buffer once: those that have been submitted and are not done, in
this order. Requests are started in the order in which they were submitted, each once; the head of
the queue, and nothing else, is started and not done. A call returns with its buffer valid, clean
and out of the queue. -/
theorem ide_queue {buf : Fin NBUF → Buf} {tr : List Ev} (h : run havedisk1 buf tr = .ok s) :
    ∃ q, Chain s.qnext s.idequeue q ∧ q.Nodup ∧ s.submitted = s.done ++ q ∧
      s.started = s.done ++ q.take 1 ∧ ∀ p s', step havedisk1 s (.finish p) = .ok s' →
        ∃ i, s.calls p = some i ∧ ((s'.buf i).valid = true ∧ (s'.buf i).dirty = false) ∧ i ∉ q ∧
          s'.idequeue = s.idequeue ∧ s'.qnext = s.qnext := by
  have hidle : Inv (idle buf) [] := ⟨⟨rfl, List.nodup_nil, rfl, nofun, nofun⟩, rfl⟩
  obtain ⟨q, hq, hst⟩ := inv_run hidle h
  refine ⟨q, hq.chain, hq.nodup, hq.submitted, hst, fun p s' hs => ?_⟩
  obtain ⟨i, hp, hflags, rfl⟩ := finish_ok hs
  exact ⟨i, hp, hflags, fun hi => hq.pending i hi hflags, rfl, rfl⟩

/-- Two requests; the first is done. -/
theorem ide_queue_two :
    ∃ s, run false (fun _ => ⟨0, 7, true, false, false, Bytes.zero⟩)
        [.iderw 0 3, .iderw 1 4, .ideintr] = .ok s ∧
      Chain s.qnext s.idequeue [4] ∧ ∃ q, Chain s.qnext s.idequeue q ∧ s.submitted = s.done ++ q ∧
        s.started = s.done ++ q.take 1 := by
  have hok : (run false (fun _ => ⟨0, 7, true, false, false, Bytes.zero⟩)
    [.iderw 0 3, .iderw 1 4, .ideintr]).toOption.map
      (fun s => (s.idequeue, s.qnext 4)) = some (some 4, none) := by decide +kernel
  obtain ⟨s, hs, hq⟩ := Prog.ok_of_map hok
  obtain ⟨h1, h2⟩ := Prod.mk.inj hq
  obtain ⟨q, hchain, -, hsub, hst, -⟩ := ide_queue hs
  exact ⟨s, hs, ⟨h1, h2⟩, q, hchain, hsub, hst⟩

end Os4.Ide
