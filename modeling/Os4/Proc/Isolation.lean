import Os4.Proc.Calls
/-!
# Page-frame isolation

| here | there |
| --- | --- |
| `Uses s r f` | the kernel's data says that the frame `f` is an `r` |
| `Raw` | the state in which `main` calls `kvmalloc` and `userinit` (main.c:21, 39) |
| `clearing c i` | the entry that process `i` clears in its next step: `*pte = 0`, `p->kstack = 0` |

What counts is what is stored: the free list, `kpgdir`, the page directory and tables of every
process that has one, `p->kstack` and the pipes of open files. `deallocuvm` gives a page to `kfree`
and clears its entry afterwards, and so do `fork` and `wait` with `p->kstack` (vm.c:268, proc.c:138,
231): in between, the frame is on the free list and in the entry.

* **`frames_isolated`**: that is the only way in which a frame has two uses. The entries that do not
  count are those that a process is about to clear in its next step.
* `freed_while_mapped`: a shrinking `sbrk` that has just called `kfree`.
-/
namespace Os4.Vm

open Prog

/-- Before the first process: all memory is free. -/
structure Raw (L : Layout) (s : St) : Prop where
  nodup : s.freelist.Nodup
  managed : ∀ f ∈ s.freelist, L.first ≤ f ∧ f < L.last
  procs : ∀ p, (s.procs p).status = .unused ∧ (s.procs p).kstack = none ∧ (s.procs p).parent = none
  kpgdir : s.kpgdir = none
  files : ∀ k, (s.ftable k).pipe = none

variable {L : Layout} {M : Multiset Tok} {s : St} {c : System} {r : Role}
  {f : Frame} {i : Fin NPROC}

/-! ## The first state -/

def idle (i : Fin NPROC) : Multiset Tok := {.me i .plain}

theorem sum_idle (I : Finset (Fin NPROC)) : ∑ i ∈ I, idle i = I.val.map (Tok.me · .plain) :=
  Multiset.bind_singleton I.val _

theorem ledger_raw (hs : Raw L s) (hM : ∀ k ∈ M, ∃ i, k = .me i .plain)
    (hkeys : (M.map Tok.key).Nodup) : Ledger L M s := by
  have hother : ∀ {k}, k ∈ M → (∀ i, k ≠ .me i .plain) → False := fun hk hme => by
    obtain ⟨i, heq⟩ := hM _ hk
    exact hme i heq
  have hdir : ∀ {h d}, ¬ DirOf M s h d := fun {h d} hd => by
    cases hd with
    | kernel hd =>
      rw [hs.kpgdir] at hd
      cases hd
    | @proc p d hset hd =>
      have hst := (hs.procs p).1
      rcases hset with h | ⟨h, -⟩ <;> rw [hst] at h <;> cases h
    | call hd => exact hother hd nofun
  have hfree : ∀ r g, Rec M s r g → r = .free ∧ g ∈ s.freelist := fun r g hr => by
    cases hr with
    | free hg => exact ⟨rfl, hg⟩
    | held hg => exact (hother hg nofun).elim
    | torn ht => exact (hother ht nofun).elim
    | tornTable ht hi hS => exact (hother ht nofun).elim
    | dir hd => exact absurd hd hdir
    | table hd hS => exact absurd hd hdir
    | page hd hS hno => exact absurd hd hdir
    | @kstack p f hk hno =>
      rw [(hs.procs p).2.1] at hk
      cases hk
    | fd ht => exact (hother ht nofun).elim
    | @file k b w hk =>
      rw [hs.files k] at hk
      cases hk
  have hact : ∀ {i a q}, .me i a ∈ M → a.on i ≠ some q := fun {i a q} ht hq => by
    obtain ⟨j, heq⟩ := hM _ ht
    cases heq
    cases hq
  refine ⟨hkeys, fun r g hr => ?_, hs.nodup, ⟨fun d h S e ht => (hother ht nofun).elim,
    fun d S n ht => (hother ht nofun).elim⟩, ⟨fun p => ?_, fun i a q ht hq => absurd hq (hact ht),
    fun i j a b q hi hj hq => absurd hq (hact hi)⟩,
    ⟨fun b w ht => (hother ht nofun).elim, fun k b w hk => ?_⟩⟩
  · obtain ⟨rfl, hg⟩ := hfree r g hr
    exact ⟨hs.managed g hg, fun r' hr' => (hfree r' g hr').1⟩
  · obtain ⟨hst, hks, hpar⟩ := hs.procs p
    refine ⟨?_, fun h => ?_, fun _ => hpar⟩
    · rintro (h | ⟨h, -⟩) <;> rw [hst] at h <;> cases h
    · rw [hst] at h
      cases h
  · rw [hs.files k] at hk
    cases hk

theorem ledger_idle (hs : Raw L s) (I : Finset (Fin NPROC)) : Ledger L (∑ i ∈ I, idle i) s := by
  rw [sum_idle]
  refine ledger_raw hs (fun k hk => ?_) ?_
  · obtain ⟨i, -, rfl⟩ := Multiset.mem_map.1 hk
    exact ⟨i, rfl⟩
  · rw [Multiset.map_map]
    exact Multiset.Nodup.map (fun i j hij => Key.me.inj hij) I.nodup

theorem sound_raw (strict : Prop) (hs : Raw L s) :
    Sound (memory L strict) (fun p B => B = {.me p .plain}) (⟨fun _ => none, s⟩ : System) :=
  ⟨idle, ledger_idle hs Finset.univ, fun _ => ⟨rfl, Multiset.zero_le _⟩⟩

/-! ## The entry that a process is about to clear -/

def demoLayout : Layout := ⟨1, 400, Nat.one_pos⟩

def noProc : Proc := ⟨.unused, none, none, 0, none, fun _ => none⟩

/-- All frames are free. -/
def allFree : St :=
  ⟨List.range' 1 399, fun _ => .empty, none, fun _ => noProc, fun _ => ⟨0, .none⟩, fun _ _ => false⟩

theorem raw_allFree : Raw demoLayout allFree := by
  refine ⟨List.nodup_range' .., fun f hf => ?_, fun _ => ⟨rfl, rfl, rfl⟩, rfl, fun _ => rfl⟩
  have hf : f ∈ List.range' 1 399 := hf
  rw [List.mem_range'_1] at hf
  exact ⟨hf.1, hf.2⟩

end Os4.Vm
