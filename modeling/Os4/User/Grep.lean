import Mathlib.Algebra.BigOperators.Group.List.Basic
import Mathlib.Algebra.GroupWithZero.Nat
import Mathlib.Data.List.Basic
/-!
# grep (grep.c)

| here | there |
| --- | --- |
| `matchstar`, `matchhere`, `reMatch` | `matchstar`, `matchhere`, `match`; strings are lists without their NUL |
| `scan` | the loop of `grep` over the lines in `buf`, grep.c:20-27 |
| `turn` | what `grep` does after one `read`: what it writes, and the `m` bytes that it keeps |
| `Split` | results of `read`: not empty, and no longer than asked for |
| `expected` | the lines of the input that match |

After a `read` that ends no line `p == buf`, and `grep` sets `m = 0`: the beginning of the line is
lost. So the output is right for every pattern just if a chunk without a newline is never followed
by one with a newline (**`grep_right_iff`**).
-/
namespace Os4.Grep

open List (length_append length_nil length_cons flatten_cons)

abbrev newline : UInt8 := 10

/-- `c*`, then `here` -/
def matchstar (here : List UInt8 → Bool) (c : UInt8) : List UInt8 → Bool
  | [] => here []
  | t :: text => here (t :: text) || ((t == c || c == '.'.toUInt8) && matchstar here c text)

def matchhere : List UInt8 → List UInt8 → Bool
  | [], _ => true
  | [c], [] => c == '$'.toUInt8
  | [c], t :: _ => c != '$'.toUInt8 && (c == '.'.toUInt8 || c == t)
  | c :: d :: re, text =>
    if d = '*'.toUInt8 then matchstar (matchhere re) c text
    else match text with
      | [] => false
      | t :: text => (c == '.'.toUInt8 || c == t) && matchhere (d :: re) text

/-- The loop of `match`. -/
def search (re : List UInt8) : List UInt8 → Bool
  | [] => matchhere re []
  | t :: text => matchhere re (t :: text) || search re text

def reMatch : List UInt8 → List UInt8 → Bool
  | [], text => search [] text
  | c :: re, text => if c = '^'.toUInt8 then matchhere re text else search (c :: re) text

/-- `line` is what stands between `p` and the text: what is written, and what is left at `p` when
there is no more newline. -/
def scan (pattern : List UInt8) : List UInt8 → List UInt8 → List UInt8 × List UInt8
  | line, [] => ([], line)
  | line, c :: text =>
    -- `strchr` stops at a NUL
    if c = 0 then ([], line ++ c :: text)
    else if c = newline then
      ((if reMatch pattern line then line ++ [newline] else []) ++ (scan pattern [] text).1,
        (scan pattern [] text).2)
    else scan pattern (line ++ [c]) text

def turn (pattern buf : List UInt8) : List UInt8 × List UInt8 :=
  ((scan pattern [] buf).1,
    if (scan pattern [] buf).2.length = buf.length then [] else (scan pattern [] buf).2)

/-- The output of `grep` with `buf` kept from before, when `read` returns these chunks. -/
def grep (pattern : List UInt8) : List UInt8 → List (List UInt8) → List UInt8
  | _, [] => []
  | buf, chunk :: chunks =>
    (turn pattern (buf ++ chunk)).1 ++ grep pattern (turn pattern (buf ++ chunk)).2 chunks

/-- `read` returns these chunks one by one; `sizeof(buf)` is 1024, and what is kept does not depend
on the pattern. -/
def Split : List UInt8 → List (List UInt8) → Prop
  | _, [] => True
  | buf, chunk :: chunks =>
    chunk ≠ [] ∧ chunk.length ≤ 1024 - buf.length - 1 ∧ Split (turn [] (buf ++ chunk)).2 chunks

/-- The lines that end in the text, the first of which has begun with `line`, and what follows the
last newline. -/
def cut : List UInt8 → List UInt8 → List (List UInt8) × List UInt8
  | line, [] => ([], line)
  | line, c :: text =>
    if c = newline then (line :: (cut [] text).1, (cut [] text).2) else cut (line ++ [c]) text

/-- The lines that match, each with its newline. -/
def output (pattern : List UInt8) (lines : List (List UInt8)) : List UInt8 :=
  (lines.filter (reMatch pattern)).flatMap (· ++ [newline])

def expected (pattern input : List UInt8) : List UInt8 := output pattern (cut [] input).1

variable {pattern line text buf real chunk : List UInt8} {chunks : List (List UInt8)}

/-! ## Lines -/

theorem scan_eq (h0 : 0 ∉ text) :
    scan pattern line text = (output pattern (cut line text).1, (cut line text).2) := by
  induction text generalizing line with
  | nil => rfl
  | cons c text ih =>
    obtain ⟨hc, h0⟩ := not_or.1 (mt List.mem_cons.2 h0)
    unfold scan cut
    rw [if_neg (Ne.symm hc)]
    split
    · rw [ih h0]
      by_cases hm : reMatch pattern line = true
      · simp [output, hm]
      · simp [output, hm]
    · exact ih h0

theorem cut_append (a b : List UInt8) :
    cut line (a ++ b) = ((cut line a).1 ++ (cut (cut line a).2 b).1, (cut (cut line a).2 b).2) := by
  induction a generalizing line with
  | nil => rfl
  | cons c a ih =>
    rw [List.cons_append, cut, cut]
    by_cases hc : c = newline
    · rw [if_pos hc, if_pos hc, ih]
      rfl
    · rw [if_neg hc, if_neg hc, ih]

theorem cut_of_not_mem (h : newline ∉ text) : cut line text = ([], line ++ text) := by
  induction text generalizing line with
  | nil => rw [List.append_nil]; rfl
  | cons c text ih =>
    obtain ⟨hc, h⟩ := not_or.1 (mt List.mem_cons.2 h)
    rw [cut, if_neg (Ne.symm hc), ih h, List.append_assoc]
    rfl

/-- With a newline, what follows the last one does not depend on what was before. -/
theorem cut_rest (h : newline ∈ text) (line' : List UInt8) :
    (cut line text).2 = (cut line' text).2 := by
  induction text generalizing line line' with
  | nil => cases h
  | cons c text ih =>
    unfold cut
    split
    · rfl
    · exact ih ((List.mem_cons.1 h).resolve_left (Ne.symm ‹_›)) _

theorem not_mem_cut_rest (h : newline ∉ line) : newline ∉ (cut line text).2 := by
  induction text generalizing line with
  | nil => exact h
  | cons c text ih =>
    unfold cut
    split
    · exact ih List.not_mem_nil
    · exact ih (by simp [h, Ne.symm ‹_›])

theorem cut_subset : (cut line text).2 ⊆ line ++ text := by
  induction text generalizing line with
  | nil => exact List.subset_append_left _ _
  | cons c text ih =>
    unfold cut
    split
    · exact fun b hb => List.mem_append_right _ (List.mem_cons_of_mem _ (ih hb))
    · exact fun b hb => by simpa using ih hb

/-- The bytes of lines, with their newlines. -/
def bytes (lines : List (List UInt8)) : Nat := (lines.map fun l => l.length + 1).sum

theorem bytes_cut (line text : List UInt8) :
    bytes (cut line text).1 + (cut line text).2.length = line.length + text.length := by
  induction text generalizing line with
  | nil => simp [cut, bytes]
  | cons c text ih =>
    unfold cut
    split
    · have := ih []
      simp only [bytes, List.map_cons, List.sum_cons, length_cons, length_nil] at this ⊢
      omega
    · rw [ih, length_append, length_cons, length_cons, length_nil]
      omega

theorem length_output_nil (lines : List (List UInt8)) : (output [] lines).length = bytes lines := by
  have hall : lines.filter (reMatch []) = lines := List.filter_eq_self.2 fun l _ => by
    cases l <;> rfl
  rw [output, hall, List.length_flatMap]
  simp only [bytes, length_append, length_cons, length_nil, Nat.zero_add]

/-! ## Chunks -/

/-- What is kept from one chunk to the next. -/
def keep (buf chunk : List UInt8) : List UInt8 := if newline ∈ chunk then (cut buf chunk).2 else []

/-- What `grep` has and what it will read: no NUL, no newline in `buf`, no empty chunk. -/
structure Clean (buf : List UInt8) (chunks : List (List UInt8)) : Prop where
  nul : 0 ∉ buf ++ chunks.flatten
  line : newline ∉ buf
  full : [] ∉ chunks

theorem turn_eq (h0 : 0 ∉ buf ++ chunk) (hbuf : newline ∉ buf) :
    turn pattern (buf ++ chunk) = (output pattern (cut buf chunk).1, keep buf chunk) := by
  have hcut : cut [] (buf ++ chunk) = cut buf chunk := by
    rw [cut_append, cut_of_not_mem hbuf]
    rfl
  rw [turn, scan_eq h0, hcut]
  congr 1
  by_cases hm : newline ∈ chunk
  · rw [keep, if_pos hm, if_neg]
    intro heq
    -- no line would have ended
    have hbytes := bytes_cut buf chunk
    rw [length_append] at heq
    obtain ⟨a, b, rfl⟩ := List.append_of_mem hm
    rw [cut_append, cut, if_pos rfl] at hbytes heq
    simp only [bytes, List.map_append, List.map_cons, List.sum_append, List.sum_cons] at hbytes heq
    omega
  · rw [keep, if_neg hm, cut_of_not_mem hm, if_pos rfl]

theorem Clean.keep (h : Clean buf (chunk :: chunks)) : Clean (keep buf chunk) chunks := by
  have hsub : Grep.keep buf chunk ⊆ buf ++ chunk := by
    rw [Grep.keep]
    split
    · exact cut_subset
    · exact List.nil_subset _
  refine ⟨fun hm => h.nul ?_, ?_, fun hm => h.full (List.mem_cons_of_mem _ hm)⟩
  · rw [flatten_cons, ← List.append_assoc]
    exact List.mem_append.2 ((List.mem_append.1 hm).imp_left fun h => hsub h)
  · rw [Grep.keep]
    split
    · exact not_mem_cut_rest h.line
    · exact List.not_mem_nil

/-- One turn of the loop: what `grep` writes and what it should write, when the input since the last
newline is `real`. -/
theorem grep_cons (h : Clean buf (chunk :: chunks)) : grep pattern buf (chunk :: chunks) =
    output pattern (cut buf chunk).1 ++ grep pattern (keep buf chunk) chunks := by
  have h0 := h.nul
  rw [flatten_cons, ← List.append_assoc, List.mem_append, not_or] at h0
  rw [grep, turn_eq h0.1 h.line]

theorem output_cons : output pattern (cut real (chunk :: chunks).flatten).1 =
    output pattern (cut real chunk).1 ++
      output pattern (cut (cut real chunk).2 chunks.flatten).1 := by
  rw [flatten_cons, cut_append]
  simp only [output, List.filter_append, List.flatMap_append]

/-- No chunk without a newline is followed by one with a newline. -/
abbrev Ordered (chunks : List (List UInt8)) : Prop :=
  chunks.Pairwise fun a b => newline ∉ a → newline ∉ b

theorem ordered_of_not_mem (h : newline ∉ chunks.flatten) : Ordered chunks :=
  List.pairwise_of_forall_mem_list fun _ _ b hb _ hm => h (List.mem_flatten.2 ⟨b, hb, hm⟩)

/-- When the chunks are ordered, nothing is lost that would be written. -/
theorem grep_right (h : Clean buf chunks) (hp : Ordered chunks) :
    grep pattern buf chunks = output pattern (cut buf chunks.flatten).1 := by
  induction chunks generalizing buf with
  | nil => rfl
  | cons chunk chunks ih =>
    obtain ⟨hc, hp⟩ := List.pairwise_cons.1 hp
    rw [grep_cons h, output_cons, ih h.keep hp]
    by_cases hm : newline ∈ chunk
    · rw [keep, if_pos hm]
    · -- no line ends any more
      have hrest : newline ∉ chunks.flatten := by
        rw [List.mem_flatten]
        rintro ⟨b, hb, hmb⟩
        exact hc b hb hm hmb
      rw [cut_of_not_mem hrest, cut_of_not_mem hrest]

/-- When a line ends later, what `real` has more than `buf` is missing in the output. -/
theorem length_grep_le (real : List UInt8) (h : Clean buf chunks) (hm : newline ∈ chunks.flatten) :
    (grep [] buf chunks).length + real.length ≤
      (output [] (cut real chunks.flatten).1).length + buf.length := by
  induction chunks generalizing buf real with
  | nil => cases hm
  | cons chunk chunks ih =>
    rw [grep_cons h, output_cons, length_append, length_append, length_output_nil,
      length_output_nil]
    have hb := bytes_cut buf chunk
    have hr := bytes_cut real chunk
    have hk := h.keep
    by_cases hc : newline ∈ chunk
    · -- the same bytes are kept
      rw [cut_rest hc buf] at hr ⊢
      rw [keep, if_pos hc] at hk ⊢
      by_cases hm' : newline ∈ chunks.flatten
      · have hle := Nat.le_of_add_le_add_right (ih _ hk hm')
        omega
      · rw [grep_right hk (ordered_of_not_mem hm')]
        omega
    · rw [flatten_cons, List.mem_append] at hm
      have hle := ih (real ++ chunk) hk (hm.resolve_left hc)
      rw [keep, if_neg hc] at hle ⊢
      rw [cut_of_not_mem hc, cut_of_not_mem hc]
      simp only [length_append, length_nil, bytes, List.map_nil, List.sum_nil] at hle ⊢
      omega

/-- When they are not ordered, the beginning of a line is missing. -/
theorem length_grep_lt (h : Clean buf chunks) (hp : ¬ Ordered chunks) :
    (grep [] buf chunks).length < (output [] (cut buf chunks.flatten).1).length := by
  induction chunks generalizing buf with
  | nil => exact absurd List.Pairwise.nil hp
  | cons chunk chunks ih =>
    rw [grep_cons h, output_cons, length_append, length_append]
    have hk := h.keep
    by_cases hc : newline ∈ chunk
    · have hlt := ih hk fun hp' => hp (hp'.cons fun _ _ hn => absurd hc hn)
      rw [keep, if_pos hc] at hlt ⊢
      omega
    · have hm : newline ∈ chunks.flatten := by
        by_contra hm
        refine hp (List.Pairwise.cons (fun b hb _ hmb => hm ?_) (ordered_of_not_mem hm))
        exact List.mem_flatten.2 ⟨b, hb, hmb⟩
      have hle := length_grep_le (buf ++ chunk) hk hm
      have hpos := List.length_pos_of_ne_nil fun heq => h.full (List.mem_cons.2 (.inl heq.symm))
      rw [keep, if_neg hc] at hle ⊢
      rw [length_append, length_nil] at hle
      simp only [cut_of_not_mem hc]
      omega

theorem Split.not_mem_nil (h : Split buf chunks) : [] ∉ chunks := by
  induction chunks generalizing buf with
  | nil => exact List.not_mem_nil
  | cons chunk chunks ih =>
    exact fun hm => (List.mem_cons.1 hm).elim (fun heq => h.1 heq.symm) (ih h.2.2)

/-- **`grep` writes the lines that match, whatever the pattern, just if no chunk without a newline
comes before one with a newline.** -/
theorem grep_right_iff (hsplit : Split [] chunks) (h0 : 0 ∉ chunks.flatten) :
    (∀ pattern, grep pattern [] chunks = expected pattern chunks.flatten) ↔
      chunks.Pairwise fun a b => newline ∉ a → newline ∉ b := by
  have hclean : Clean [] chunks := ⟨h0, List.not_mem_nil, hsplit.not_mem_nil⟩
  constructor
  · intro h
    by_contra hp
    exact Nat.ne_of_lt (length_grep_lt hclean hp) (congrArg List.length (h []))
  · intro hp pattern
    exact grep_right hclean hp

/-- Two lines, cut inside the second. -/
theorem grep_right_iff_ab :
    grep [98] [] [[97, 10, 98], [98, 10]] = expected [98] [97, 10, 98, 98, 10] :=
  (grep_right_iff (by simp [Split]; decide) (by decide)).2 (by decide) [98]

/-- The line `ab` comes in two pieces: `grep a` writes nothing and `grep b` writes `b`. -/
theorem grep_loses : Split [] [[97], [98, 10]] ∧
    grep [97] [] [[97], [98, 10]] = [] ∧ expected [97] [97, 98, 10] = [97, 98, 10] ∧
    grep [98] [] [[97], [98, 10]] = [98, 10] ∧ expected [98] [97, 98, 10] = [97, 98, 10] := by
  refine ⟨by simp [Split]; decide, ?_⟩
  decide

end Os4.Grep
