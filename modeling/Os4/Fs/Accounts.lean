import Mathlib.Algebra.BigOperators.Fin
import Mathlib.Algebra.Order.BigOperators.Group.Finset
import Os4.Fs.Cache
import Os4.Fs.MountTable
import Os4.Fs.Par
/-!
# Who refers to what

| here | there |
| --- | --- |
| `File.opens`, `View.at`, `View.slots` | what counts as a reference to a `struct inode` or a `struct file` |
| `Share` | what a process holds in the middle of a call: references in local variables, and its `struct proc` |
| `Accounts` | `ip->ref` and `f->ref` are the numbers of these references |

A process may be between dropping a reference and forgetting the pointer: `iput(proc->cwd)` comes
before `proc->cwd = ip` in `sys_chdir`, `fileclose(proc->ofile[fd])` before `proc->ofile[fd] = 0` in
`exit`, and `fdalloc` before `filedup` in `sys_dup`. A `Window` says which pointer does not count,
and the `View` of a process leaves it out.
-/
namespace Os4.Fs

open Prog
open Multiset (mem_add mem_singleton)
open Function (update update_self update_of_ne)

/-! ## References -/

/-- The pointer of a `struct proc` that does not count at the moment. -/
inductive Window where
  | full
  | noCwd
  | noFd (fd : Fin NOFILE)

/-- The pointers of a process that count. -/
structure View where
  cwd : Option (Fin NINODE)
  ofile : Fin NOFILE → Option (Fin NFILE)

def View.empty : View := ⟨none, fun _ => none⟩

def Window.view : Window → Proc → View
  | full, x => ⟨some x.cwd, x.ofile⟩
  | noCwd, x => ⟨none, x.ofile⟩
  | noFd fd, x => ⟨some x.cwd, Function.update x.ofile fd none⟩

def viewOf : Option Proc → View
  | none => .empty
  | some x => Window.full.view x

def View.at (v : View) (k : Fin NINODE) : Nat := if v.cwd = some k then 1 else 0

def View.slots (v : View) (f : Fin NFILE) : Nat := ∑ fd, if v.ofile fd = some f then 1 else 0

/-- The file is open on slot `k`. -/
def File.opens (x : File) (k : Fin NINODE) : Nat :=
  if 0 < x.ref ∧ x.isInode = true ∧ x.ip = k then 1 else 0

inductive Share where
  /-- process `p`, of which nothing is known -/
  | own (p : Fin NPROC)
  /-- process `p` with its `struct proc` -/
  | me (p : Fin NPROC) (x : Proc) (w : Window)
  /-- a reference to an inode -/
  | ref (k : Fin NINODE)
  /-- a reference to an open file -/
  | file (f : Fin NFILE)
  /-- the only reference to a file that is neither an inode nor a pipe yet -/
  | fresh (f : Fin NFILE)
  /-- a reference that nobody remembers, to an inode of no partition (`userinit` makes one, before
  `iinit` knows `boot_part`) -/
  | null (k : Fin NINODE)

namespace Share

@[simp] def procs (p : Fin NPROC) : Share → Nat
  | own q | me q _ _ => if q = p then 1 else 0
  | _ => 0

@[simp] def refs (k : Fin NINODE) : Share → Nat
  | ref k' | null k' => if k' = k then 1 else 0
  | _ => 0

@[simp] def files (f : Fin NFILE) : Share → Nat
  | file f' | fresh f' => if f' = f then 1 else 0
  | _ => 0

end Share

/-! ## The accounts -/

/-- Slots in use keep their inodes, and a slot that is taken gets one. -/
structure SlotsKept (s s' : FsState) : Prop where
  ident : ∀ k, 0 < (s.icache k).ref → (s'.icache k).inum = (s.icache k).inum ∧
    (s'.icache k).prt = (s.icache k).prt
  new : ∀ k, (s.icache k).ref ≤ 0 → 0 < (s'.icache k).ref → (s'.icache k).inum ≠ 0

theorem SlotsKept.of_eq (h : s'.icache = s.icache) : SlotsKept s s' where
  ident k _ := by rw [h]; exact ⟨rfl, rfl⟩
  new k hk hk' := by rw [h] at hk'; omega

structure Accounts (W : Fin NPROC → View) (M : Multiset Share) (s : FsState) : Prop where
  mounts : ∀ e ∈ s.mounts, e = freeSlot
  one : ∀ p, tally (Share.procs p) M = 1
  me : ∀ p x w, Share.me p x w ∈ M → s.procs p = some x ∧ W p = w.view x
  idle : ∀ p, (∀ x w, Share.me p x w ∉ M) → W p = viewOf (s.procs p)
  refs : ∀ k, (s.icache k).ref = tally (Share.refs k) M + ∑ f,
    (s.ftable f).opens k + ∑ p, (W p).at k
  files : ∀ f, (s.ftable f).ref = tally (Share.files f) M + ∑ p, (W p).slots f
  closed : ∀ f, (s.ftable f).ref = 0 → (s.ftable f).isInode = false ∧ (s.ftable f).isPipe = false
  fresh : ∀ f, Share.fresh f ∈ M → (s.ftable f).ref = 1 ∧ (s.ftable f).isInode = false ∧
    (s.ftable f).isPipe = false
  inums : ∀ k, 0 < (s.icache k).ref → (s.icache k).inum ≠ 0
  null : ∀ k, Share.null k ∈ M → (s.icache k).prt = none

variable {E : Env} {W W' : Fin NPROC → View} {A B M : Multiset Share} {s s' : FsState}
  {k : Fin NINODE} {f : Fin NFILE} {p q : Fin NPROC} {x : Proc} {w : Window}

namespace Accounts

/-- A step that exchanges the shares `A` for `B`. It may change the `struct proc`s of processes in
`A`, and of processes that are not there yet. -/
theorem move (h : Accounts W (A + M) s) (hmounts : s'.mounts = s.mounts)
    (hproc : ∀ q, (s'.procs q = s.procs q ∧ W' q = W q) ∨ 0 < tally (Share.procs q) A ∨
      (s.procs q = none ∧ W' q = viewOf (s'.procs q)))
    (hone : ∀ q, tally (Share.procs q) B = tally (Share.procs q) A)
    (hme : ∀ q x w, Share.me q x w ∈ B → s'.procs q = some x ∧ W' q = w.view x)
    (hown : ∀ q, Share.own q ∈ B → W' q = viewOf (s'.procs q))
    (hrefs : ∀ k, (s'.icache k).ref + tally (Share.refs k) A + ∑ f,
      (s.ftable f).opens k + ∑ p, (W p).at k =
      (s.icache k).ref + tally (Share.refs k) B + ∑ f, (s'.ftable f).opens k + ∑ p, (W' p).at k)
    (hfiles : ∀ f, (s'.ftable f).ref + tally (Share.files f) A + ∑ p, (W p).slots f =
      (s.ftable f).ref + tally (Share.files f) B + ∑ p, (W' p).slots f)
    (hclosed : ∀ f, (s'.ftable f).ref = 0 → (s'.ftable f).isInode = false ∧
      (s'.ftable f).isPipe = false)
    (hfresh : ∀ f, Share.fresh f ∈ B + M →
      (s'.ftable f).ref = 1 ∧ (s'.ftable f).isInode = false ∧ (s'.ftable f).isPipe = false)
    (hslots : SlotsKept s s') (hnull : ∀ k, Share.null k ∉ B) : Accounts W' (B + M) s' where
  mounts := by rw [hmounts]; exact h.mounts
  one q := by
    have := h.one q
    rw [tally_add] at this ⊢
    rw [hone]
    exact this
  me q x w hm := by
    rcases mem_add.1 hm with hB | hM
    · exact hme q x w hB
    · obtain ⟨hp, hW⟩ := h.me q x w (mem_add.2 (.inr hM))
      rcases hproc q with hsame | hA | hnone
      · exact ⟨hsame.1.trans hp, hsame.2.trans hW⟩
      · -- the share of `q` is in `A`, so it is not in `M`
        have h1 := h.one q
        have hle := le_tally (Share.procs q) hM
        simp only [tally_add, Share.procs, if_true] at h1 hle
        omega
      · rw [hnone.1] at hp
        cases hp
  idle q hq := by
    by_cases hA : tally (Share.procs q) A = 0
    · have hnotA : ∀ x w, Share.me q x w ∉ A + M := fun x w hm => by
        rcases mem_add.1 hm with hm | hm
        · have hle := le_tally (Share.procs q) hm
          simp only [Share.procs, if_true] at hle
          omega
        · exact hq x w (mem_add.2 (.inr hm))
      rcases hproc q with hsame | hpos | hnone
      · rw [hsame.1, hsame.2]
        exact h.idle q hnotA
      · omega
      · exact hnone.2
    · rw [← hone] at hA
      obtain ⟨t, ht, hne⟩ := exists_of_tally _ hA
      cases t with
      | own q' =>
        have : q' = q := by simpa [Share.procs] using hne
        subst this
        exact hown _ ht
      | me q' x w =>
        have : q' = q := by simpa [Share.procs] using hne
        subst this
        exact absurd (mem_add.2 (.inl ht)) (hq x w)
      | ref _ => exact absurd rfl hne
      | file _ => exact absurd rfl hne
      | fresh _ => exact absurd rfl hne
      | null _ => exact absurd rfl hne
  refs k := by
    have h1 := h.refs k
    have h2 := hrefs k
    rw [tally_add] at h1 ⊢
    push_cast at h1 h2 ⊢
    omega
  files f := by
    have h1 := h.files f
    have h2 := hfiles f
    rw [tally_add] at h1 ⊢
    push_cast at h1 h2 ⊢
    omega
  closed := hclosed
  fresh := hfresh
  inums k hk := by
    by_cases hpos : 0 < (s.icache k).ref
    · rw [(hslots.ident k hpos).1]
      exact h.inums k hpos
    · exact hslots.new k (by omega) hk
  null k hk := by
    have hM : Share.null k ∈ A + M := mem_add.2 (.inr ((mem_add.1 hk).resolve_left (hnull k)))
    have hle := le_tally (Share.refs k) hM
    have hpos : 0 < (s.icache k).ref := by
      rw [h.refs]
      simp only [Share.refs, if_true] at hle
      omega
    rw [(hslots.ident k hpos).2]
    exact h.null k hM

theorem nobody (hB : ∀ q, tally (Share.procs q) B = 0) :
    (∀ q x w, Share.me q x w ∉ B) ∧ ∀ q, Share.own q ∉ B := by
  refine ⟨fun q x w hm => ?_, fun q hm => ?_⟩
  all_goals simpa [hB] using le_tally (Share.procs q) hm

theorem exchange (h : Accounts W (A + M) s) (hmounts : s'.mounts = s.mounts)
    (hprocs : s'.procs = s.procs)
    (hA : ∀ q, tally (Share.procs q) A = 0) (hB : ∀ q, tally (Share.procs q) B = 0)
    (hrefs : ∀ k, (s'.icache k).ref + tally (Share.refs k) A + ∑ f, (s.ftable f).opens k =
      (s.icache k).ref + tally (Share.refs k) B + ∑ f, (s'.ftable f).opens k)
    (hfiles : ∀ f, (s'.ftable f).ref + tally (Share.files f) A =
      (s.ftable f).ref + tally (Share.files f) B)
    (hclosed : ∀ f, (s'.ftable f).ref = 0 → (s'.ftable f).isInode = false ∧
      (s'.ftable f).isPipe = false)
    (hfresh : ∀ f, Share.fresh f ∈ B + M →
      (s'.ftable f).ref = 1 ∧ (s'.ftable f).isInode = false ∧ (s'.ftable f).isPipe = false)
    (hslots : SlotsKept s s') (hnull : ∀ k, Share.null k ∉ B) : Accounts W (B + M) s' := by
  obtain ⟨hme, hown⟩ := nobody hB
  exact h.move hmounts (fun q => .inl ⟨by rw [hprocs], rfl⟩) (fun q => by rw [hA, hB])
    (fun q x w hm => (hme q x w hm).elim)
    (fun q hm => (hown q hm).elim) (fun k => by have := hrefs k; omega)
    (fun f => by have := hfiles f; omega) hclosed hfresh hslots
    hnull

/-! ## Shares traded without a step -/

theorem review (w' : Window) (h : Accounts W ({.me p x w} + A + M) s)
    (hA : ∀ q, tally (Share.procs q) A = 0)
    (hB : ∀ q, tally (Share.procs q) B = 0)
    (hfresh : ∀ f, Share.fresh f ∉ B ∧ ∀ k, Share.null k ∉ B)
    (hrefs : ∀ k, tally (Share.refs k) A + (w.view x).at k =
      tally (Share.refs k) B + (w'.view x).at k)
    (hfiles : ∀ f, tally (Share.files f) A + (w.view x).slots f = tally (Share.files f) B +
      (w'.view x).slots f) :
    Accounts (update W p (w'.view x)) ({.me p x w'} + B + M) s := by
  have hmem : Share.me p x w ∈ {Share.me p x w} + A + M := by simp
  obtain ⟨hp, hW⟩ := h.me p x w hmem
  obtain ⟨hme, hown⟩ := nobody hB
  refine h.move rfl (fun q => ?_) (fun q => ?_) (fun q x' w'' hm => ?_) (fun q hm => ?_)
    (fun k => ?_) (fun f => ?_) h.closed
    (fun f hm => h.fresh f ?_) (.of_eq rfl) fun k hm => ?_
  · by_cases hq : q = p
    · subst hq
      exact .inr (.inl (by rw [tally_add, tally_singleton, Share.procs, if_pos rfl]; omega))
    · exact .inl ⟨rfl, update_of_ne hq ..⟩
  · simp only [tally_add, tally_singleton, hA, hB]
    rfl
  · rcases mem_add.1 hm with hm | hm
    · simp only [mem_singleton, Share.me.injEq] at hm
      obtain ⟨rfl, rfl, rfl⟩ := hm
      exact ⟨hp, update_self ..⟩
    · exact (hme _ _ _ hm).elim
  · exact (hown q ((mem_add.1 hm).resolve_left (by simp))).elim
  · have hsum := sum_update_add (fun v : View => v.at k) W p (w'.view x)
    have := hrefs k
    simp only [tally_add, tally_singleton, Share.refs, hW] at hsum ⊢
    omega
  · have hsum := sum_update_add (fun v : View => v.slots f) W p (w'.view x)
    have := hfiles f
    simp only [tally_add, tally_singleton, Share.files, hW] at hsum ⊢
    omega
  · simp only [mem_add, mem_singleton, (hfresh f).1, reduceCtorEq, false_or] at hm ⊢
    exact .inr hm
  · exact (hfresh 0).2 k ((mem_add.1 hm).resolve_left (by simp))

end Accounts

theorem View.slots_update (v : View) (fd : Fin NOFILE) (o : Option (Fin NFILE)) (f : Fin NFILE) :
    View.slots ⟨v.cwd, update v.ofile fd o⟩ f + (if v.ofile fd = some f then 1 else 0) =
      v.slots f + if o = some f then 1 else 0 :=
  sum_update_add (fun o : Option (Fin NFILE) => if o = some f then 1 else 0) v.ofile fd o

theorem Accounts.open_cwd (h : Accounts W ({.me p x .full} + M) s) :
    ∃ W', Accounts W' ({.me p x .noCwd} + {.ref x.cwd} + M) s := by
  rw [← add_zero {Share.me p x .full}] at h
  refine ⟨_, h.review .noCwd (fun _ => rfl) (fun q => by simp) (by simp) (fun k => ?_) fun f => ?_⟩
  · simp [Share.refs, Window.view, View.at]
  · simp only [tally_zero, tally_singleton, Share.files]
    rfl

theorem Accounts.fill_cwd (h : Accounts W ({.me p x .noCwd} + {.ref x.cwd} + M) s) :
    ∃ W', Accounts W' ({.me p x .full} + M) s := by
  have h' := h.review (B := 0) .full (fun q => by simp) (fun _ => rfl) (by simp) (fun k => by
    simp [Share.refs, Window.view, View.at]) fun f => by
      simp only [tally_zero, tally_singleton, Share.files]
      rfl
  rw [add_zero] at h'
  exact ⟨_, h'⟩

variable {fd : Fin NOFILE}

theorem Accounts.open_fd (h : Accounts W ({.me p x .full} + M) s) (hf : x.ofile fd = some f) :
    ∃ W', Accounts W' ({.me p x (.noFd fd)} + {.file f} + M) s := by
  rw [← add_zero {Share.me p x .full}] at h
  refine ⟨_, h.review (.noFd fd) (fun _ => rfl) (fun q => by simp) (by simp) (fun k => by
    simp [Share.refs, Window.view, View.at]) fun f' => ?_⟩
  have := View.slots_update ⟨some x.cwd, x.ofile⟩ fd none f'
  simp only [hf, Option.some.injEq, reduceCtorEq, if_false, tally_zero, tally_singleton,
    Share.files, Window.view] at this ⊢
  omega

theorem Accounts.fill_fd (h : Accounts W ({.me p x (.noFd fd)} + {.file f} + M) s)
    (hf : x.ofile fd = some f) :
    ∃ W', Accounts W' ({.me p x .full} + M) s := by
  have h' := h.review (B := 0) .full (fun q => by simp) (fun _ => rfl) (by simp) (fun k => by
    simp [Share.refs, Window.view, View.at]) fun f' => by
      have := View.slots_update ⟨some x.cwd, x.ofile⟩ fd none f'
      simp only [hf, Option.some.injEq, reduceCtorEq, if_false, tally_zero, tally_singleton,
        Share.files, Window.view] at this ⊢
      omega
  rw [add_zero] at h'
  exact ⟨_, h'⟩

theorem Accounts.forget (h : Accounts W ({.me p x .full} + M) s) : Accounts W ({.own p} + M) s := by
  obtain ⟨hp, hW⟩ := h.me p x .full (by simp)
  refine h.move rfl (fun q => .inl ⟨rfl, rfl⟩) (fun q => by simp)
    (fun q x' w hm => by simp at hm) (fun q hm => ?_)
    (fun k => by simp only [tally_singleton, Share.refs]) (fun f => by
      simp only [tally_singleton, Share.files]) h.closed
    (fun f hm => h.fresh f (by simpa using hm)) (.of_eq rfl) (by simp)
  simp only [mem_singleton, Share.own.injEq] at hm
  subst hm
  rw [hp, hW]
  rfl

theorem Accounts.used (h : Accounts W ({.fresh f} + M) s) : Accounts W ({.file f} + M) s := by
  refine h.exchange rfl rfl (fun q => by simp) (fun q => by simp)
    (fun k => by simp only [tally_singleton, Share.refs]) (fun f' => by simp) h.closed
      (fun f' hm => h.fresh f' ?_) (.of_eq rfl) (by simp)
  simp only [mem_add, mem_singleton, reduceCtorEq, false_or] at hm ⊢
  exact .inr hm

/-! ## Steps -/

/-- Nothing changed that the accounts are about. -/
structure SameShares (s s' : FsState) : Prop where
  mounts : s'.mounts = s.mounts
  procs : s'.procs = s.procs
  refs : ∀ k, (s'.icache k).ref = (s.icache k).ref
  idents : ∀ k, (s'.icache k).inum = (s.icache k).inum ∧ (s'.icache k).prt = (s.icache k).prt
  files : ∀ f, ∃ off, s'.ftable f = { s.ftable f with off }

theorem Accounts.silent (h : Accounts W M s) (hs : SameShares s s') : Accounts W M s' := by
  have hf : ∀ f, (s'.ftable f).ref = (s.ftable f).ref ∧ (s'.ftable f).isInode =
    (s.ftable f).isInode ∧
      (s'.ftable f).isPipe = (s.ftable f).isPipe ∧ ∀ k, (s'.ftable f).opens k =
        (s.ftable f).opens k := fun f => by
    obtain ⟨off, ho⟩ := hs.files f
    rw [ho]
    exact ⟨rfl, rfl, rfl, fun _ => rfl⟩
  rw [← zero_add M] at h ⊢
  refine h.exchange hs.mounts hs.procs (fun _ => rfl) (fun _ => rfl) (fun k => ?_)
    (fun f => by rw [(hf f).1]) (fun f h0 => ?_)
    (fun f hm => ?_) ⟨fun k _ => hs.idents k, fun k hk hk' => ?_⟩ (by simp)
  · rw [hs.refs, Finset.sum_congr rfl fun f _ => (hf f).2.2.2 k]
  · rw [(hf f).1] at h0
    rw [(hf f).2.1, (hf f).2.2.1]
    exact h.closed f h0
  · rw [(hf f).1, (hf f).2.1, (hf f).2.2.1]
    exact h.fresh f hm
  · rw [hs.refs] at hk'
    omega

theorem SameShares.withInode {x : Inode} (href : x.ref = (s.icache k).ref)
    (hid : x.inum = (s.icache k).inum ∧ x.prt = (s.icache k).prt) :
    SameShares s (s.withInode k x) := by
  refine ⟨rfl, rfl, fun k' => ?_, fun k' => ?_, fun _ => ⟨_, rfl⟩⟩
  all_goals by_cases hk : k' = k
  · rw [hk, withInode_self, href]
  · rw [withInode_ne hk]
  · rw [hk, withInode_self]
    exact hid
  · rw [withInode_ne hk]
    exact ⟨rfl, rfl⟩

theorem localData_sameShares : LocalData SameShares where
  refl _ := ⟨rfl, rfl, fun _ => rfl, fun _ => ⟨rfl, rfl⟩, fun _ => ⟨_, rfl⟩⟩
  trans _ _ _ h h' := ⟨h'.mounts.trans h.mounts, h'.procs.trans h.procs,
    fun k => (h'.refs k).trans (h.refs k),
    fun k => ⟨(h'.idents k).1.trans (h.idents k).1, (h'.idents k).2.trans (h.idents k).2⟩,
    fun f => by
    obtain ⟨o, ho⟩ := h.files f
    obtain ⟨o', ho'⟩ := h'.files f
    exact ⟨o', by rw [ho', ho]⟩⟩
  put _ _ _ := ⟨rfl, rfl, fun _ => rfl, fun _ => ⟨rfl, rfl⟩, fun _ => ⟨_, rfl⟩⟩
  din s k d := .withInode (x := { s.icache k with din := d }) rfl ⟨rfl, rfl⟩

theorem Accounts.reslot (h : Accounts W (A + M) s) (hA : ∀ q, tally (Share.procs q) A = 0)
    (hB : ∀ q, tally (Share.procs q) B = 0)
    (hrefs : ∀ k', (s'.icache k').ref + tally (Share.refs k') A =
      (s.icache k').ref + tally (Share.refs k') B)
    (hfiles : ∀ f, tally (Share.files f) A = 0 ∧ tally (Share.files f) B = 0) (hF : Framed s s')
    (hslots : SlotsKept s s') (hnull : ∀ k, Share.null k ∉ B) : Accounts W (B + M) s' := by
  refine h.exchange hF.mounts hF.procs hA hB (fun k => ?_) (fun f => ?_)
    (by rw [hF.ftable]; exact h.closed) (fun f hm => ?_) hslots hnull
  · rw [hF.ftable]
    have := hrefs k
    omega
  · rw [hF.ftable, (hfiles f).1, (hfiles f).2]
  · have hnot : Share.fresh f ∉ B := fun hB => by
      have hle := le_tally (Share.files f) hB
      simp only [(hfiles f).2, Share.files, if_true] at hle
      omega
    rw [hF.ftable]
    exact h.fresh f (mem_add.2 (.inr ((mem_add.1 hm).resolve_left hnot)))

theorem Accounts.take (h : Accounts W M s) (hk : (s'.icache k).ref = (s.icache k).ref + 1)
    (hne : ∀ k', k' ≠ k → s'.icache k' = s.icache k') (hF : Framed s s') (hslots : SlotsKept s s') :
    Accounts W ({.ref k} + M) s' := by
  rw [← zero_add M] at h
  refine h.reslot (fun _ => rfl) (fun q => by simp) (fun k' => ?_) (fun f => by simp)
    hF hslots (by simp)
  by_cases hk' : k' = k
  · subst hk'
    simp [Share.refs, hk]
  · simp [Share.refs, hne k' hk', Ne.symm hk']

theorem Accounts.drop (h : Accounts W ({.ref k} + M) s)
    (hk : (s'.icache k).ref = (s.icache k).ref - 1)
    (hne : ∀ k', k' ≠ k → s'.icache k' = s.icache k') (hF : Framed s s') (hslots : SlotsKept s s') :
    Accounts W M s' := by
  rw [← zero_add M]
  refine h.reslot (fun q => by simp) (fun _ => rfl) (fun k' => ?_) (fun f => by simp)
    hF hslots (by simp)
  by_cases hk' : k' = k
  · subst hk'
    simp [Share.refs, hk]
  · simp [Share.refs, hne k' hk', Ne.symm hk']

theorem slotsKept_withInode {x : Inode} (hpos : 0 < (s.icache k).ref)
    (hid : x.inum = (s.icache k).inum ∧ x.prt = (s.icache k).prt) :
    SlotsKept s (s.withInode k x) := by
  refine ⟨fun k' _ => ?_, fun k' h0 h1 => ?_⟩
  all_goals by_cases hk : k' = k
  · rw [hk, withInode_self]
    exact hid
  · rw [withInode_ne hk]
    exact ⟨rfl, rfl⟩
  · rw [hk] at h0
    omega
  · rw [withInode_ne hk] at h1
    omega

theorem Accounts.ref_pos (h : Accounts W M s) (hk : Share.ref k ∈ M) : 0 < (s.icache k).ref := by
  have hle := le_tally (Share.refs k) hk
  rw [h.refs]
  simp only [Share.refs, if_true] at hle
  omega

theorem Accounts.cwd_pos (h : Accounts W M s) (hm : Share.me p x w ∈ M)
    (hk : (w.view x).cwd = some k) : 0 < (s.icache k).ref := by
  have hW := Finset.single_le_sum (f := fun p => (W p).at k) (fun _ _ => Nat.zero_le _)
    (Finset.mem_univ p)
  have hat : (w.view x).at k = 1 := if_pos hk
  simp only [(h.me p x w hm).2, hat] at hW
  rw [h.refs]
  omega

variable {prt : Option Int}

theorem iget_accounts {inum : Nat} (h : Accounts W M s) (hinum : inum ≠ 0) :
    (iget prt inum).wp (fun k s' => Accounts W ({.ref k} + M) s') (fun _ => True) s := by
  refine wp_iget (fun _ => trivial) (fun k hpos _ => ?_) fun k _ h0 => ?_
  · exact h.take (by rw [withInode_self]) (fun k' hk' => withInode_ne hk') ⟨rfl, rfl, rfl, rfl⟩
      (slotsKept_withInode hpos ⟨rfl, rfl⟩)
  · refine h.take ?_ (fun k' hk' => withInode_ne hk') ⟨rfl, rfl, rfl, rfl⟩
      ⟨fun k' hpos => ?_, fun k' h0' h1 => ?_⟩
    · rw [withInode_self, h0]
      rfl
    · rw [withInode_ne fun hk => by rw [hk, h0] at hpos; exact absurd hpos (lt_irrefl 0)]
      exact ⟨rfl, rfl⟩
    · by_cases hk : k' = k
      · rw [hk, withInode_self]
        exact hinum
      · rw [withInode_ne hk] at h1
        omega

theorem idup_accounts (h : Accounts W M s) (hpos : 0 < (s.icache k).ref) :
    (idup k).wp (fun k' s' => k' = k ∧ Accounts W ({.ref k} + M) s') (fun _ => True) s := by
  rw [idup, wp_bind, wp_inode, wp_bind, wp_setInode, wp_pure]
  exact ⟨rfl, h.take (by rw [withInode_self]) (fun k' hk' => withInode_ne hk') ⟨rfl, rfl, rfl, rfl⟩
    (slotsKept_withInode hpos ⟨rfl, rfl⟩)⟩

theorem vacate_accounts (h : Accounts W ({.ref k} + M) s) :
    (Par.vacate k).wp (fun _ s' => Accounts W M s') (fun _ => True) s := by
  rw [Par.vacate, wp_bind, wp_inode, wp_setInode]
  exact h.drop (by rw [withInode_self]) (fun k' hk' => withInode_ne hk') ⟨rfl, rfl, rfl, rfl⟩
    (slotsKept_withInode (h.ref_pos (by simp)) ⟨rfl, rfl⟩)

/-- The reference is gone, or it is kept until the inode is freed. -/
theorem release_accounts (h : Accounts W ({.ref k} + M) s) :
    (Par.release k).wp (fun r s' => Accounts W ((if r then {.ref k} else 0) + M) s')
      (fun _ => True) s := by
  rw [Par.release, wp_bind, wp_inode, wp_ite]
  refine ⟨fun _ => ?_, fun _ => ?_⟩
  · refine wp_guard trivial fun _ => ?_
    rw [wp_bind, wp_setInode, wp_pure]
    exact h.silent (.withInode rfl ⟨rfl, rfl⟩)
  · rw [wp_bind, wp_setInode, wp_pure, if_neg Bool.false_ne_true, zero_add]
    exact h.drop (by rw [withInode_self]) (fun k' hk' => withInode_ne hk') ⟨rfl, rfl, rfl, rfl⟩
      (slotsKept_withInode (h.ref_pos (by simp)) ⟨rfl, rfl⟩)

theorem unmounted_inum {m : List MountPoint} {i : Nat} (h : ∀ e ∈ m, e = freeSlot) (hi : i ≠ 0) :
    isInodeMounted m i prt = none := by
  rw [isInodeMounted, Option.map_eq_none_iff, List.find?_eq_none]
  intro e he
  rw [h e he]
  simp [freeSlot, Ne.symm hi]

theorem redirect_accounts (h : Accounts W ({.ref k} + M) s) :
    (redirect k).wp (fun k' s' => k' = k ∧ Accounts W ({.ref k} + M) s') (fun _ => True) s := by
  have hi := h.inums k (h.ref_pos (by simp))
  rw [redirect, wp_bind, wp_get, unmounted_inum h.mounts hi]
  exact ⟨rfl, h⟩

theorem checkMounted_accounts (h : Accounts W ({.ref k} + M) s) :
    (checkMounted k).wp (fun r s' => r = none ∧ Accounts W ({.ref k} + M) s')
      (fun _ => True) s := by
  have hi := h.inums k (h.ref_pos (by simp))
  rw [checkMounted, wp_bind, wp_get, unmounted_inum h.mounts hi]
  exact ⟨rfl, h⟩

/-! ### Open files -/

@[simp] theorem wp_fileAt {Q : File → FsState → Prop} {F : Panic → Prop} :
    (Par.fileAt f).wp Q F s ↔ Q (s.ftable f) s := Iff.rfl

theorem Accounts.fresh_only (h : Accounts W (A + M) s) (hA : 0 < tally (Share.files f) A) :
    Share.fresh f ∉ M := fun hm => by
  have h1 := h.files f
  have h2 := (h.fresh f (mem_add.2 (.inr hm))).1
  have hle := le_tally (Share.files f) hm
  simp only [tally_add, Share.files, if_true] at h1 hle
  omega

theorem Accounts.refile {y : File} (h : Accounts W (A + M) s)
    (hA : ∀ q, tally (Share.procs q) A = 0) (hB : ∀ q, tally (Share.procs q) B = 0)
    (hrefs : ∀ k, tally (Share.refs k) A + (s.ftable f).opens k =
      tally (Share.refs k) B + y.opens k)
    (hfile : y.ref + tally (Share.files f) A = (s.ftable f).ref + tally (Share.files f) B)
    (hother : ∀ f', f' ≠ f → tally (Share.files f') A = tally (Share.files f') B)
    (hclosed : y.ref = 0 → y.isInode = false ∧ y.isPipe = false)
    (hfresh : Share.fresh f ∈ B + M → y.ref = 1 ∧ y.isInode = false ∧ y.isPipe = false)
    (hnew : ∀ f', Share.fresh f' ∈ B → f' = f) (hnull : ∀ k, Share.null k ∉ B) :
    Accounts W (B + M) (s.withFile f y) := by
  refine h.exchange rfl rfl hA hB (fun k => ?_) (fun f' => ?_) (fun f' h0 => ?_) (fun f' hm => ?_)
    (.of_eq rfl) hnull
  · have hsum := sum_update_add (fun z : File => z.opens k) s.ftable f y
    have := hrefs k
    show (s.icache k).ref + _ + _ = _ + _ + ((∑ f', (update s.ftable f y f').opens k : Nat) : Int)
    omega
  · by_cases hf : f' = f
    · subst hf
      rw [withFile_self]
      exact hfile
    · rw [withFile_ne hf, hother f' hf]
  · by_cases hf : f' = f
    · subst hf
      rw [withFile_self] at h0 ⊢
      exact hclosed h0
    · rw [withFile_ne hf] at h0 ⊢
      exact h.closed f' h0
  · by_cases hf : f' = f
    · subst hf
      rw [withFile_self]
      exact hfresh hm
    · rw [withFile_ne hf]
      refine h.fresh f' (mem_add.2 (.inr ?_))
      exact (mem_add.1 hm).resolve_left fun hB => hf (hnew f' hB)

theorem filealloc_accounts (h : Accounts W M s) :
    filealloc.wp (fun r s' => Accounts W ((match r with | some f => {.fresh f} | none => 0) + M) s')
      (fun _ => True) s := by
  rw [filealloc, wp_bind, wp_get]
  cases hf : (List.finRange NFILE).find? fun f => (s.ftable f).ref == 0 with
  | none =>
    rw [wp_pure, zero_add]
    exact h
  | some f =>
    have h0 : (s.ftable f).ref = 0 := by simpa using List.find?_some hf
    have hc := h.closed f h0
    rw [wp_bind, wp_setFile, wp_pure]
    rw [← zero_add M] at h
    refine h.refile (fun _ => rfl) (fun q => by simp) (fun k => ?_) ?_ (fun f' hne => ?_)
      (fun h1 => absurd h1 Int.one_ne_zero)
      (fun _ => ⟨rfl, hc⟩) (fun f' hm => by simpa using hm) (by simp)
    · simp [File.opens, hc.1, Share.refs]
    · simp [h0, Share.files]
    · simp [Share.files, Ne.symm hne]

theorem View.slots_pos {v : View} (h : v.ofile fd = some f) : 0 < v.slots f := by
  have := Finset.single_le_sum (f := fun fd => if v.ofile fd = some f then 1
    else 0) (fun _ _ => Nat.zero_le _) (Finset.mem_univ fd)
  rw [if_pos h] at this
  exact this

theorem Accounts.not_fresh (h : Accounts W M s) (hm : Share.me p x w ∈ M)
    (hfd : (w.view x).ofile fd = some f) :
    Share.fresh f ∉ M := fun hf => by
  have h1 := h.files f
  have h2 := (h.fresh f hf).1
  have hle := le_tally (Share.files f) hf
  have hW := Finset.single_le_sum (f := fun p => (W p).slots f) (fun _ _ => Nat.zero_le _)
    (Finset.mem_univ p)
  have hpos := View.slots_pos hfd
  simp only [(h.me p x w hm).2] at hW
  simp only [Share.files, if_true] at hle
  omega

theorem filedup_accounts (h : Accounts W M s) (hm : Share.me p x w ∈ M)
    (hfd : (w.view x).ofile fd = some f) :
    (filedup f).wp (fun _ s' => Accounts W ({.file f} + M) s') (fun _ => True) s := by
  have hnot := h.not_fresh hm hfd
  show (do let s ← get; _ : FsM Unit).wp _ _ s
  rw [wp_bind, wp_get]
  refine wp_guard trivial fun hlt => ?_
  rw [wp_setFile]
  rw [← zero_add M] at h
  refine h.refile (fun _ => rfl) (fun q => by simp) (fun k => ?_) ?_ (fun f' hne => ?_)
    (fun h0 => ?_) (fun hf => ?_)
    (fun f' hm => by simp at hm) (by simp)
  · have h1 : 0 < (s.ftable f).ref := by omega
    have h2 : 0 < (s.ftable f).ref + 1 := by omega
    simp [File.opens, Share.refs, h1, h2]
  · simp [Share.files]
  · simp [Share.files, Ne.symm hne]
  · have : (s.ftable f).ref + 1 = 0 := h0
    omega
  · exact absurd (by simpa using hf) hnot

/-- The reference that comes with an inode, if there is one. -/
def refsOf : Option (Fin NINODE) → Multiset Share
  | some k => {.ref k}
  | none => 0

theorem closeFile_accounts (h : Accounts W ({.file f} + M) s) :
    (Par.closeFile f).wp (fun r s' => Accounts W (refsOf r + M) s') (fun _ => True) s := by
  have hnot : Share.fresh f ∉ M := h.fresh_only (by simp)
  rw [Par.closeFile, wp_bind, wp_fileAt]
  refine wp_guard trivial fun hlt => ?_
  rw [wp_ite]
  refine ⟨fun h1 => ?_, fun h1 => ?_⟩
  · rw [wp_bind, wp_setFile, wp_pure]
    refine h.refile (fun q => by simp) (fun _ => rfl) (fun k => ?_) ?_
      (fun f' hne => ?_) (fun h0 => ?_)
      (fun hf => absurd (by simpa [refsOf] using hf) hnot) (fun f' hm => by simp [refsOf] at hm)
        (by simp [refsOf])
    · have h2 : 0 < (s.ftable f).ref := by omega
      simp only [File.opens, Share.refs, refsOf, h1, h2, true_and, tally_singleton, tally_zero]
    · simp [Share.files, refsOf]
    · simp [Share.files, refsOf, Ne.symm hne]
    · have : (s.ftable f).ref - 1 = 0 := h0
      omega
  · have hone : (s.ftable f).ref = 1 := by omega
    rw [wp_bind, wp_setFile, wp_pure]
    refine h.refile (fun q => by simp) (fun q => ?_) (fun k => ?_) ?_ (fun f' hne => ?_)
      (fun _ => ⟨rfl, rfl⟩)
      (fun hf => absurd ?_ hnot) (fun f' hm => ?_) fun k hm => ?_
    · cases (s.ftable f).isInode <;> simp [refsOf, Share.procs]
    · cases hi : (s.ftable f).isInode <;> simp [refsOf, Share.refs, File.opens, hi, hone]
    · cases (s.ftable f).isInode <;> simp [refsOf, Share.files, hone]
    · cases (s.ftable f).isInode <;> simp [refsOf, Share.files, Ne.symm hne]
    · cases hi : (s.ftable f).isInode <;> simpa [refsOf, hi] using hf
    · cases hi : (s.ftable f).isInode <;> simp [refsOf, hi] at hm
    · cases hi : (s.ftable f).isInode <;> simp [refsOf, hi] at hm

theorem fillFile_accounts {omode : Nat} (h : Accounts W ({.fresh f} + {.ref k} + M) s) :
    (Par.fillFile f k omode).wp (fun _ s' => Accounts W ({.file f} + M) s') (fun _ => True) s := by
  obtain ⟨h1, hi, hp⟩ := h.fresh f (by simp)
  have hnot : Share.fresh f ∉ M := h.fresh_only (by simp)
  rw [Par.fillFile, wp_bind, wp_fileAt, wp_setFile]
  refine h.refile (fun q => by simp) (fun q => by simp) (fun k' => ?_) ?_ (fun f' hne => ?_)
    (fun h0 => ?_) (fun hf => absurd (by simpa using hf) hnot)
      (fun f' hm => by simp at hm) (by simp)
  · simp [File.opens, Share.refs, hi, h1]
  · simp [Share.files]
  · simp [Share.files]
  · exact absurd (h1.symm.trans h0) Int.one_ne_zero

theorem Accounts.pipe {y : File} (h : Accounts W ({.fresh f} + M) s)
    (href : y.ref = (s.ftable f).ref)
    (hi : y.isInode = (s.ftable f).isInode) : Accounts W ({.file f} + M) (s.withFile f y) := by
  obtain ⟨h1, hf, -⟩ := h.fresh f (by simp)
  have hnot : Share.fresh f ∉ M := h.fresh_only (by simp)
  exact h.refile (fun q => by simp) (fun q => by simp) (fun k => by simp [File.opens, hi, hf])
    (by simp [href]) (fun f' _ => by simp)
    (fun h0 => by omega) (fun hm => absurd (by simpa using hm) hnot)
      (fun f' hm => by simp at hm) (by simp)

theorem fillPipe_accounts {f' : Fin NFILE} (h : Accounts W ({.fresh f} + {.fresh f'} + M) s) :
    (Par.fillPipe f f').wp (fun _ s' => Accounts W ({.file f} + {.file f'} + M) s')
      (fun _ => True) s := by
  rw [Par.fillPipe, wp_bind, wp_fileAt, wp_bind, wp_setFile, wp_bind, wp_fileAt, wp_setFile]
  rw [add_assoc] at h
  have h' := h.pipe (y := { s.ftable f with isPipe := true, readable := true, writable := false })
    rfl rfl
  rw [add_left_comm] at h'
  rw [add_comm {Share.file f}, add_assoc]
  exact h'.pipe rfl rfl

/-! ### Processes -/

theorem Accounts.reproc {t' : Share} {o : Option Proc} (h : Accounts W ({.me p x w} + M) s)
    (ht : (∃ x' w', t' = .me p x' w' ∧ o = some x' ∧ w'.view x' = w.view x) ∨
      (t' = .own p ∧ viewOf o = w.view x)) :
    Accounts W ({t'} + M) (s.withProc p o) := by
  obtain ⟨hp, hW⟩ := h.me p x w (by simp)
  have hproc : ∀ q, Share.procs q t' = if p = q then 1 else 0 := fun q => by
    rcases ht with ⟨x', w', rfl, -, -⟩ | ⟨rfl, -⟩ <;> rfl
  refine h.move rfl (fun q => ?_) (fun q => ?_) (fun q y v hm => ?_) (fun q hm => ?_) (fun k => ?_)
    (fun f => ?_) h.closed
    (fun f hm => ?_) (.of_eq rfl) fun k hm => ?_
  · by_cases hq : q = p
    · subst hq
      exact .inr (.inl (by simp))
    · exact .inl ⟨withProc_ne hq, rfl⟩
  · rw [tally_singleton, tally_singleton, hproc]
    rfl
  · rw [mem_singleton] at hm
    rcases ht with ⟨x', w', rfl, rfl, hv⟩ | ⟨rfl, -⟩
    · cases hm
      exact ⟨withProc_self, by rw [hW, hv]⟩
    · cases hm
  · rw [mem_singleton] at hm
    rcases ht with ⟨x', w', rfl, -, -⟩ | ⟨rfl, hv⟩
    · cases hm
    · cases hm
      rw [withProc_self, hv, hW]
  · have : Share.refs k t' = 0 := by rcases ht with ⟨x', w', rfl, -, -⟩ | ⟨rfl, -⟩ <;> rfl
    simp only [tally_singleton, this]
    rfl
  · have : Share.files f t' = 0 := by rcases ht with ⟨x', w', rfl, -, -⟩ | ⟨rfl, -⟩ <;> rfl
    simp only [tally_singleton, this]
    rfl
  · refine h.fresh f ?_
    rcases ht with ⟨x', w', rfl, -, -⟩ | ⟨rfl, -⟩ <;> simpa using hm
  · rcases ht with ⟨x', w', rfl, -, -⟩ | ⟨rfl, -⟩ <;> simp at hm

theorem Accounts.know (h : Accounts W ({.own p} + M) s) (hp : s.procs p = some x) :
    Accounts W ({.me p x .full} + M) s := by
  have hidle : W p = Window.full.view x := by
    rw [h.idle p fun x' w' hm => ?_, hp]
    · rfl
    · have h1 := h.one p
      have hle := le_tally (Share.procs p) ((mem_add.1 hm).resolve_left (by simp))
      simp only [tally_add, tally_singleton, Share.procs, if_true] at h1 hle
      omega
  refine h.move rfl (fun q => .inl ⟨rfl, rfl⟩) (fun q => by simp) (fun q x' w hm => ?_)
    (fun q hm => by simp at hm)
    (fun k => by simp only [tally_singleton, Share.refs]) (fun f => by
      simp only [tally_singleton, Share.files]) h.closed
    (fun f hm => h.fresh f (by simpa using hm)) (.of_eq rfl) (by simp)
  simp only [mem_singleton, Share.me.injEq] at hm
  obtain ⟨rfl, rfl, rfl⟩ := hm
  exact ⟨hp, hidle⟩

theorem proc_known (h : Accounts W ({.me p x w} + M) s) :
    (proc p).wp (fun x' s' => x' = x ∧ Accounts W ({.me p x w} + M) s') (fun _ => True) s := by
  refine wp_proc trivial fun x' hp => ⟨?_, h⟩
  rw [(h.me p x w (by simp)).1] at hp
  exact (Option.some.inj hp).symm

/-- The process with `f` behind descriptor `fd`. -/
def Proc.withFd (x : Proc) (fd : Fin NOFILE) (o : Option (Fin NFILE)) : Proc :=
  { x with ofile := Function.update x.ofile fd o }

/-- The process after `fdalloc(f)`: a new descriptor does not count yet. -/
def fdTaken (p : Fin NPROC) (x : Proc) (f : Fin NFILE) : Option (Fin NOFILE) → Share
  | some fd => .me p (x.withFd fd (some f)) (.noFd fd)
  | none => .me p x .full

theorem fdalloc_accounts (h : Accounts W ({.me p x .full} + M) s) : (fdalloc p f).wp (fun r s' =>
    (∀ fd, r = some fd → x.ofile fd = none) ∧ Accounts W ({fdTaken p x f r} + M) s')
      (fun _ => True) s := by
  rw [fdalloc, wp_bind]
  refine wp_mono (proc_known h) fun x' s' ⟨hx, h'⟩ => ?_
  subst hx
  cases hfd : (List.finRange NOFILE).find? fun fd => x'.ofile fd == none with
  | none =>
    rw [wp_pure]
    exact ⟨fun _ h => (by cases h), h'⟩
  | some fd =>
    have hnone : x'.ofile fd = none := by simpa using List.find?_some hfd
    rw [wp_bind, wp_setProc, wp_pure]
    refine ⟨fun _ h => Option.some.inj h ▸ hnone, h'.reproc (.inl ⟨_, _, rfl, rfl, ?_⟩)⟩
    simp only [Window.view, Proc.withFd, Function.update_idem]
    rw [← hnone, Function.update_eq_self]

theorem fdalloc_own (h : Accounts W ({.own p} + M) s) :
    (fdalloc p f).wp (fun r s' => ∃ x, Accounts W ({fdTaken p x f r} + M) s')
      (fun _ => True) s := by
  cases hp : s.procs p with
  | none =>
    rw [fdalloc, wp_bind]
    exact wp_proc trivial fun x hx => by rw [hp] at hx; cases hx
  | some x => exact wp_mono (fdalloc_accounts (h.know hp)) fun _ _ h => ⟨x, h.2⟩

theorem clearFd_accounts (h : Accounts W ({.me p x (.noFd fd)} + M) s) :
    (Par.clearFd p fd).wp (fun _ s' => Accounts W ({.me p (x.withFd fd none) .full} + M) s')
      (fun _ => True) s := by
  rw [Par.clearFd, wp_bind]
  refine wp_mono (proc_known h) fun x' s' ⟨hx, h'⟩ => ?_
  subst hx
  rw [wp_setProc]
  exact h'.reproc (.inl ⟨_, _, rfl, rfl, rfl⟩)

/-- `fork`: the child takes over the references made for it. -/
theorem newProc_accounts (h : Accounts W (A + M) s) (hA : ∀ q, tally (Share.procs q) A = 0)
    (hrefs : ∀ k, tally (Share.refs k) A = (Window.full.view x).at k)
    (hfiles : ∀ f, tally (Share.files f) A = (Window.full.view x).slots f) :
    (Par.newProc q x).wp (fun _ s' => ∃ W', Accounts W' M s') (fun _ => True) s := by
  show (do let s ← get; _ : FsM Unit).wp _ _ s
  rw [wp_bind, wp_get]
  refine wp_guard trivial fun hnone => ?_
  have hq : s.procs q = none := by simpa using hnone
  have hW : W q = .empty := by
    rw [h.idle q fun y w hm => ?_, hq]
    · rfl
    · have := (h.me q y w hm).1
      rw [hq] at this
      cases this
  rw [wp_setProc]
  refine ⟨update W q (Window.full.view x), ?_⟩
  rw [← zero_add M]
  refine h.move rfl (fun q' => ?_) (fun q' => by rw [hA]; rfl) (fun q' y w hm => by simp at hm)
    (fun q' hm => by simp at hm) (fun k => ?_)
    (fun f => ?_) h.closed (fun f hm => h.fresh f ?_) (.of_eq rfl) (by simp)
  · by_cases hq' : q' = q
    · subst hq'
      refine .inr (.inr ⟨hq, ?_⟩)
      rw [update_self, withProc_self]
      rfl
    · exact .inl ⟨withProc_ne hq', update_of_ne hq' ..⟩
  · have hsum := sum_update_add (fun v : View => v.at k) W q (Window.full.view x)
    have h0 : View.empty.at k = 0 := rfl
    rw [hW] at hsum
    simp only [hrefs, tally_zero]
    show (s.icache k).ref + _ + ((∑ f, (s.ftable f).opens k : Nat) : Int) + _ =
      (s.icache k).ref + _ + ((∑ f, (s.ftable f).opens k : Nat) : Int) + _
    omega
  · have hsum := sum_update_add (fun v : View => v.slots f) W q (Window.full.view x)
    have h0 : View.empty.slots f = 0 := by simp [View.slots, View.empty]
    rw [hW] at hsum
    simp only [hfiles, tally_zero]
    show (s.ftable f).ref + _ + _ = (s.ftable f).ref + _ + _
    omega
  · simp only [zero_add] at hm
    exact mem_add.2 (.inr hm)

end Os4.Fs
