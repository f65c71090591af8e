import Os4.Lib.Ring
/-!
# The console's line discipline (console.c:179-268)

| here | there |
| --- | --- |
| `Input` | `input`; the indices `r`, `w` and `e` are 32-bit words and wrap |
| `handle` | one turn of the loop of `consoleintr` |
| `consoleread` | `consoleread` from where it has `cons.lock`, up to where it sleeps or returns |
| `Call` | a `consoleread` under way: `target`, what is left of `n`, and what it has stored at `dst` |
| `line`, `committed`, `consumed` | entries between `w` and `e`, all entries up to `w`, all that were read |

`consoleintr` and `consoleread` work under `cons.lock`, which `sleep` gives up;
**`line_discipline`** is for every order of calls.
-/
namespace Os4.Console

open List (prefix_rfl prefix_append)

abbrev INPUT_BUF : Nat := 128

/-- What an `unsigned int` wraps at. -/
abbrev WORD : Nat := 2 ^ 32

structure Input where
  buf : Nat → UInt8
  r : Nat
  w : Nat
  e : Nat
  committed : List UInt8
  line : List UInt8
  consumed : List UInt8

/-- `C(x)` -/
def ctrl (x : Char) : UInt8 := UInt8.ofNat (x.toNat - 64)

def newline : UInt8 := 10

/-- `input.e--` -/
def Input.rubout (s : Input) : Input :=
  { s with e := (WORD - 1 + s.e) % WORD, line := s.line.dropLast }

/-- The loop of `C('U')`, at most as often as `e` is away from `w`. -/
def killLine : Nat → Input → Input
  | 0, s => s
  | n + 1, s =>
    if s.e ≠ s.w ∧ s.buf ((WORD - 1 + s.e) % WORD % INPUT_BUF) ≠ newline then
      killLine n s.rubout
    else s

/-- `input.buf[input.e++ % INPUT_BUF] = c` -/
def Input.put (s : Input) (c : UInt8) : Input :=
  { s with
    buf := Function.update s.buf (s.e % INPUT_BUF) c
    e := (s.e + 1) % WORD
    line := s.line ++ [c] }

/-- `input.w = input.e` -/
def Input.commit (s : Input) : Input :=
  { s with w := s.e, committed := s.committed ++ s.line, line := [] }

/-- A character goes into the buffer. -/
def Input.enter (s : Input) (c : UInt8) : Input :=
  if c = newline ∨ c = ctrl 'D' ∨ (s.put c).e = (s.r + INPUT_BUF) % WORD then (s.put c).commit
  else s.put c

def handle (s : Input) (c : UInt8) : Input :=
  if c = ctrl 'P' then s
  else if c = ctrl 'U' then killLine ((WORD - s.w + s.e) % WORD) s
  else if c = ctrl 'H' ∨ c = 0x7f then if s.e ≠ s.w then s.rubout else s
  else if c ≠ 0 ∧ (WORD - s.r + s.e) % WORD < INPUT_BUF then s.enter (if c = 13 then newline else c)
  else s

/-- `c = input.buf[input.r++ % INPUT_BUF]` -/
def Input.take (s : Input) : Input :=
  { s with r := (s.r + 1) % WORD, consumed := s.consumed ++ [s.buf (s.r % INPUT_BUF)] }

structure Call where
  target : Nat
  n : Nat
  dst : List UInt8

inductive Result where
  | asleep (c : Call)
  | returned (value : Int) (dst : List UInt8)

/-- The loop of `consoleread` with `n` bytes to go. -/
def consoleread (killed : Bool) (target : Nat) : Nat → List UInt8 → Input → Result × Input
  | 0, dst, s => (.returned target dst, s)
  | n + 1, dst, s =>
    if s.r = s.w then (if killed then .returned (-1) dst else .asleep ⟨target, n + 1, dst⟩, s)
    else
      let c := s.buf (s.r % INPUT_BUF)
      if c = ctrl 'D' then
        -- the first thing this call reads, or left for the next one
        (.returned (target - (n + 1)) dst, if n + 1 < target then s else s.take)
      else if c = newline then (.returned (target - n) (dst ++ [c]), s.take)
      else consoleread killed target n (dst ++ [c]) s.take

inductive Ev where
  /-- `consoleintr`, for which `getc` has these characters -/
  | intr (cs : List UInt8)
  /-- process `p` calls `consoleread` for `n` bytes -/
  | read (p n : Nat)
  /-- process `p` goes on after `sleep` -/
  | wake (p : Nat) (killed : Bool)

structure St where
  input : Input
  calls : Nat → Option Call

/-- What becomes of the call of process `p`. -/
def St.after (s : St) (p : Nat) (x : Result × Input) : St :=
  ⟨x.2, Function.update s.calls p (match x.1 with | .asleep c => some c | .returned .. => none)⟩

def step (s : St) : Ev → St
  | .intr cs => { s with input := cs.foldl handle s.input }
  | .read p n =>
    match s.calls p with
    | none => s.after p (consoleread false n n [] s.input)
    | some _ => s
  | .wake p killed =>
    match s.calls p with
    | none => s
    | some c => s.after p (consoleread killed c.target c.n c.dst s.input)

/-- The state at boot. -/
def boot : St := ⟨⟨fun _ => 0, 0, 0, 0, [], [], []⟩, fun _ => none⟩

def run (tr : List Ev) : St := tr.foldl step boot

/-! ## The ring -/

structure Inv (s : Input) : Prop where
  ring : Ring.Holds INPUT_BUF WORD s.buf s.r s.e (s.committed ++ s.line) s.consumed
  w : s.w = s.committed.length % WORD
  pre : s.consumed <+: s.committed

/-- The invariant holds after `s'`, and nothing that was committed or consumed is taken back. -/
structure Leads (s s' : Input) : Prop where
  inv : Inv s'
  committed : s.committed <+: s'.committed
  consumed : s.consumed <+: s'.consumed

variable {s s1 s2 : Input}

theorem Inv.same (h : Inv s) : Leads s s := ⟨h, prefix_rfl, prefix_rfl⟩

theorem Leads.trans (h : Leads s s1) (h' : Leads s1 s2) : Leads s s2 :=
  ⟨h'.inv, h.committed.trans h'.committed, h.consumed.trans h'.consumed⟩

theorem Inv.done (h : Inv s) : Ring.Holds INPUT_BUF WORD s.buf s.r s.w s.committed s.consumed :=
  h.w ▸ h.ring.trim h.pre

theorem Inv.rubout (h : Inv s) (he : s.e ≠ s.w) : Leads s s.rubout := by
  have hline : s.line ≠ [] := fun hnil => he (by rw [h.ring.write, h.w, hnil, List.append_nil])
  have hring := h.ring
  rw [← List.dropLast_concat_getLast hline, ← List.append_assoc] at hring
  have hback : (WORD - 1 + s.e) % WORD = (s.committed ++ s.line.dropLast).length % WORD := by
    have := hring.write
    rw [List.length_append, List.length_singleton] at this
    rw [this]
    simp only [WORD]
    omega
  refine ⟨⟨?_, h.w, h.pre⟩, prefix_rfl, prefix_rfl⟩
  show Ring.Holds _ _ _ _ ((WORD - 1 + s.e) % WORD) _ _
  rw [hback]
  exact hring.trim (h.pre.trans (prefix_append ..))

theorem Inv.killLine : ∀ {n : Nat} {s : Input}, Inv s → Leads s (killLine n s)
  | 0, _, h => h.same
  | n + 1, s, h => by
    unfold Console.killLine
    split
    case isTrue hc =>
      have hrub := h.rubout hc.1
      exact hrub.trans hrub.inv.killLine
    case isFalse => exact h.same

theorem Inv.put (h : Inv s) (hroom : (WORD - s.r + s.e) % WORD < INPUT_BUF) (c : UInt8) :
    Inv (s.put c) := by
  have hfull : s.e ≠ (s.r + INPUT_BUF) % WORD := fun he => by
    have := (h.ring.full_iff (by decide)).1 he
    rw [h.ring.count (by decide)] at hroom
    omega
  refine ⟨?_, h.w, h.pre⟩
  have hpush := h.ring.push (by decide) (by decide) hfull c
  rwa [List.append_assoc] at hpush

theorem Inv.commit (h : Inv s) : Inv s.commit where
  ring := by
    show Ring.Holds _ _ _ _ _ (s.committed ++ s.line ++ []) _
    rw [List.append_nil]
    exact h.ring
  w := h.ring.write
  pre := h.pre.trans (prefix_append ..)

theorem Inv.enter (h : Inv s) (hroom : (WORD - s.r + s.e) % WORD < INPUT_BUF) (c : UInt8) :
    Leads s (s.enter c) := by
  unfold Input.enter
  split
  · exact ⟨(h.put hroom c).commit, prefix_append .., prefix_rfl⟩
  · exact ⟨h.put hroom c, prefix_rfl, prefix_rfl⟩

theorem Inv.handle (h : Inv s) (c : UInt8) : Leads s (handle s c) := by
  unfold Console.handle
  split
  · exact h.same
  · split
    · exact h.killLine
    · split
      · split
        case isTrue he => exact h.rubout he
        case isFalse => exact h.same
      · split
        case isTrue hc => exact h.enter hc.2 _
        case isFalse => exact h.same

theorem Inv.take (h : Inv s) (hne : s.r ≠ s.w) : Leads s s.take := by
  have hdone := h.done.pop (by decide) (by decide) hne
  refine ⟨⟨h.ring.pop (by decide) (by decide) fun he => hne ?_, h.w, hdone.pre⟩,
    prefix_rfl, prefix_append ..⟩
  -- with nothing between `r` and `e` there is nothing between `r` and `w`
  have hlen := (h.ring.empty_iff (by decide)).1 he
  have := h.pre.length_le
  rw [List.length_append] at hlen
  exact (h.done.empty_iff (by decide)).2 (by omega)

theorem Inv.consoleread {killed : Bool} {target : Nat} :
    ∀ {n : Nat} {dst : List UInt8} {s : Input}, Inv s →
    Leads s (consoleread killed target n dst s).2
  | 0, _, _, h => h.same
  | n + 1, dst, s, h => by
    unfold Console.consoleread
    split
    case isTrue => exact h.same
    case isFalse hne =>
      have htake := h.take hne
      dsimp only
      split
      · dsimp only
        split
        · exact h.same
        · exact htake
      · split
        · exact htake
        · exact htake.trans htake.inv.consoleread

theorem Inv.step {s : St} (h : Inv s.input) (ev : Ev) : Leads s.input (step s ev).input := by
  cases ev with
  | intr cs =>
    show Leads s.input (cs.foldl Console.handle s.input)
    generalize s.input = x at h
    induction cs generalizing x with
    | nil => exact h.same
    | cons c cs ih => exact (h.handle c).trans (ih _ (h.handle c).inv)
  | read p n =>
    show Leads s.input (match s.calls p with
      | none => s.after p (Console.consoleread false n n [] s.input)
      | some _ => s).input
    split
    · exact h.consoleread
    · exact h.same
  | wake p killed =>
    show Leads s.input (match s.calls p with
      | none => s
      | some c => s.after p (Console.consoleread killed c.target c.n c.dst s.input)).input
    split
    · exact h.same
    · exact h.consoleread

theorem Inv.foldl {s : St} (h : Inv s.input) (tr : List Ev) :
    Leads s.input (tr.foldl Console.step s).input := by
  induction tr generalizing s with
  | nil => exact h.same
  | cons ev tr ih => exact (h.step ev).trans (ih (h.step ev).inv)

theorem inv_run (tr : List Ev) : Inv (run tr).input :=
  (Inv.foldl (s := boot) ⟨Ring.Holds.nil _, rfl, prefix_rfl⟩ tr).inv

/-- **The line discipline.** The indices are in order. What has been consumed is the beginning of
what was committed, the ring holds the rest of it from `r` on up to `w`, and then the line up to
`e`. What has been committed or consumed stays so, whatever comes after. -/
theorem line_discipline (tr tr' : List Ev) :
    let s := (run tr).input
    ((WORD - s.r + s.w) % WORD ≤ (WORD - s.r + s.e) % WORD ∧
      (WORD - s.r + s.e) % WORD ≤ INPUT_BUF) ∧
    s.committed = s.consumed ++ Ring.between INPUT_BUF WORD s.buf s.r ((WORD - s.r + s.w) % WORD) ∧
    s.committed ++ s.line = s.consumed ++ Ring.between INPUT_BUF WORD s.buf s.r
      ((WORD - s.r + s.e) % WORD) ∧
    s.committed <+: (run (tr ++ tr')).input.committed ∧
    s.consumed <+: (run (tr ++ tr')).input.consumed := by
  have h := inv_run tr
  have hlater : Leads (run tr).input (run (tr ++ tr')).input := by
    rw [run, run, List.foldl_append]
    exact h.foldl tr'
  refine ⟨⟨?_, h.ring.count_le (by decide)⟩, h.done.rest (by decide) (by decide),
    h.ring.rest (by decide) (by decide), hlater.committed, hlater.consumed⟩
  rw [h.done.count (by decide), h.ring.count (by decide), List.length_append]
  omega

/-- A line, read in two calls, and a `^D` that the third leaves for the fourth. -/
example : (run [.intr [97, 98, 8, 99, 13, 100, 4], .read 1 2, .read 2 5, .read 1 9,
    .read 2 9]).input.consumed =
    [97, 99, 10, 100, 4] := by decide +kernel

end Os4.Console
