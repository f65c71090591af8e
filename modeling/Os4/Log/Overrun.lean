import Os4.Fs.Layout
import Os4.Log.Admission
/-!
# The end of the log area (log.c:175-188, 211-231)

| here | there |
| --- | --- |
| `InArea sb s` | `log.lh.n` is at most `log.size - 1`, and `write_log` stops before the first inode block |
| `roomAtAppends` | the bounds test of `log_write` still holds when it has `log.lock` |

`log_write` tests `log.lh.n` before it takes `log.lock` (log.c:216). Two calls that pass the test
for the last slot both append: in `lastSlotTwice` each operation is within its `MAXOPBLOCKS` blocks,
and the slot of the last block is `sb.inodestart`. `write_log` does not get to store it there: the
`LOGSIZE` blocks listed are dirty in all `NBUF` buffers, so that `bget` panics when `write_log`
reads the first slot of the log.

* **`in_area_iff`**: the log stays in its area exactly if each call finds its block listed or the
  test still true.
-/
namespace Os4.Log

open Fs (Superblock)

/-- `write_log` stores blocks `log.start + 1 .. log.start + log.lh.n`. -/
structure InArea (sb : Superblock) (s : St) : Prop where
  capacity : s.block.length ≤ sb.nlog - 1
  before : ∀ tail, tail < s.block.length → sb.logstart + tail + 1 < sb.inodestart

/-- Each call of `log_write` that has the lock finds its block among those logged since the last
commit, or less than `size - 1` of them. -/
def roomAtAppends (size : Nat) : List Ev → Bool
  | [] => true
  | .append _ b :: tr =>
    (b ∈ txLogged tr || (txLogged tr).length < size - 1) && roomAtAppends size tr
  | _ :: tr => roomAtAppends size tr

variable {size p b : Nat} {tr : List Ev} {s s' : St} {A : Finset Nat} {sb : Superblock}

theorem length_absorb (l : List Nat) (b : Nat) : (absorb l b).length = if b ∈ l then l.length
    else l.length + 1 := by
  unfold absorb
  split
  · rfl
  · rw [List.length_append, List.length_singleton]

theorem step_length {e : Ev} (hP : Proto tr s A) (h : step size s e = .ok s') :
    (∃ p b, e = .append p b ∧ s'.block.length = if b ∈ txLogged tr then s.block.length
      else s.block.length + 1) ∨ (∀ p b, e ≠ .append p b) ∧ s'.block.length ≤ s.block.length := by
  cases e with
  | append p b =>
    obtain ⟨-, rfl⟩ := append_cases h
    refine .inl ⟨p, b, rfl, ?_⟩
    simp only [length_absorb, hP.logged]
  | begin p =>
    refine .inr ⟨nofun, ?_⟩
    obtain ⟨-, -, ⟨rfl, -⟩ | ⟨rfl, -⟩⟩ := begin_cases hP.toExcl h
    · exact le_refl _
    · exact le_refl _
  | check p b =>
    obtain ⟨-, -, rfl⟩ := check_cases h
    exact .inr ⟨nofun, le_refl _⟩
  | endOp p => exact .inr ⟨nofun, by rw [(excl_endOp hP.toExcl h).2.2.1]⟩
  | commit p =>
    obtain ⟨-, -, rfl⟩ := commit_cases hP.toExcl h
    exact .inr ⟨nofun, Nat.zero_le _⟩
  | finish p => exact .inr ⟨nofun, by rw [(excl_finish hP.toExcl h).2.2.1]⟩

theorem roomAtAppends_other {e : Ev} (he : ∀ p b, e ≠ .append p b) :
    roomAtAppends size (e :: tr) = roomAtAppends size tr := by
  cases e with
  | append p b => exact absurd rfl (he p b)
  | _ => rfl

/-- Every state of a run has at most `size - 1` blocks listed exactly if each append finds room. -/
theorem bounded_iff : ∀ {tr : List Ev} {s : St}, run size tr = .ok s →
    ((∀ tr' s', tr' <:+ tr → run size tr' = .ok s' → s'.block.length ≤ size - 1) ↔
      roomAtAppends size tr = true)
  | [], s, h => by
    refine iff_of_true (fun tr' s' hsuf h' => ?_) rfl
    rw [List.suffix_nil.1 hsuf] at h'
    cases h'
    exact Nat.zero_le _
  | e :: tr, s', h => by
    obtain ⟨s, hs, hstep⟩ := run_cons h
    obtain ⟨A, hP⟩ := protocol hs
    have ih := bounded_iff hs
    have hlen := length_block hP
    have hsplit : (∀ tr' s'', tr' <:+ e :: tr → run size tr' = .ok s'' →
      s''.block.length ≤ size - 1) ↔
        s'.block.length ≤ size - 1 ∧ ∀ tr' s'', tr' <:+ tr → run size tr' = .ok s'' →
        s''.block.length ≤ size - 1 := by
      constructor
      · exact fun hall => ⟨hall _ _ List.suffix_rfl h,
          fun tr' s'' hsuf => hall _ _ (hsuf.trans (List.suffix_cons e tr))⟩
      · rintro ⟨hlast, hall⟩ tr' s'' hsuf h''
        rcases List.suffix_cons_iff.1 hsuf with rfl | hsuf
        · rw [h] at h''
          cases h''
          exact hlast
        · exact hall _ _ hsuf h''
    rw [hsplit, ih]
    rcases step_length hP hstep with ⟨p, b, rfl, hnew⟩ | ⟨hother, hle⟩
    · simp only [roomAtAppends, Bool.and_eq_true, Bool.or_eq_true, decide_eq_true_eq]
      refine and_congr_left fun hroom => ?_
      have hbefore := ih.2 hroom _ _ List.suffix_rfl hs
      rw [hnew]
      by_cases hb : b ∈ txLogged tr
      · simp only [hb, if_true, true_or, iff_true]
        exact hbefore
      · simp only [hb, if_false, false_or]
        omega
    · rw [roomAtAppends_other hother]
      refine and_iff_right_of_imp fun hroom => ?_
      exact hle.trans (ih.2 hroom _ _ List.suffix_rfl hs)

/-- **The log stays in its area** in every state of a run, exactly if each `log_write` still has
room when it has the lock. -/
theorem in_area_iff (hnlog : 0 < sb.nlog) (hnext : sb.inodestart = sb.logstart + sb.nlog)
    (h : run sb.nlog tr = .ok s) :
    (∀ tr' s', tr' <:+ tr → run sb.nlog tr' = .ok s' → InArea sb s') ↔
    roomAtAppends sb.nlog tr = true := by
  rw [← bounded_iff h]
  constructor
  · exact fun hall tr' s' hsuf h' => (hall tr' s' hsuf h').capacity
  · intro hall tr' s' hsuf h'
    have hcap := hall tr' s' hsuf h'
    exact ⟨hcap, fun tail ht => by omega⟩

/-- One operation logs a block. -/
theorem in_area_iff_one :
    ∃ s, run Fs.Mkfs.superblock.nlog (logs 0 [7] ++ [.begin 0]) = .ok s ∧ s.block = [7] ∧
      InArea Fs.Mkfs.superblock s := by
  have hroom : roomAtAppends Fs.Mkfs.superblock.nlog (logs 0 [7] ++ [.begin 0]) = true := by decide
  exact ⟨_, rfl, rfl, (in_area_iff (by decide) rfl rfl).2 hroom _ _ List.suffix_rfl rfl⟩

/-- Three operations have logged 28 blocks; two of them pass the test and then append. -/
def lastSlotTwice : List Ev :=
  [.append 2 29, .append 1 28, .check 2 29, .check 1 28] ++
    logs 2 [27, 26, 25, 24, 23, 22, 21, 20, 19] ++
    logs 1 [18, 17, 16, 15, 14, 13, 12, 11, 10] ++ logs 0 [9, 8, 7, 6, 5, 4, 3, 2, 1, 0] ++
      [.begin 2, .begin 1, .begin 0]

/-- The log has a block more than it has slots; the slot of the last one is the first inode
block. -/
theorem last_slot_twice : withinQuota lastSlotTwice = true ∧
    ∃ s, run Fs.Mkfs.superblock.nlog lastSlotTwice = .ok s ∧ s.block.length = LOGSIZE ∧
      Fs.Mkfs.superblock.logstart + (LOGSIZE - 1) + 1 = Fs.Mkfs.superblock.inodestart := by
  refine ⟨by decide, ?_⟩
  have hrun : ((run Fs.Mkfs.superblock.nlog lastSlotTwice).toOption).map (·.block.length) =
      some LOGSIZE := by decide
  obtain ⟨s, hs, hlen⟩ := Prog.ok_of_map hrun
  exact ⟨s, hs, hlen, rfl⟩

end Os4.Log
