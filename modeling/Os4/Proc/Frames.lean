import Os4.Proc.Vm
/-!
# Whose is a page frame?

| here | there |
| --- | --- |
| `Role` | what a frame is used for: kalloc.c:15 (`struct run`), vm.c, `p->kstack`, `struct pipe` |
| `Rec M s r f` | the frame `f` is recorded as an `r` |
| `Ledger` | each frame is recorded once, and the calls under way have the rights they need |

A frame is recorded by the free list, by an entry of a page directory or table, by a `struct proc`,
by a `struct file`, or by the local variables of a call. The last are tokens (`Tok`): a frame, a
page directory that no process has yet or any more, the end of a pipe that is about to be closed. A
call that works on the page directory of its own process borrows it.

An entry whose frame has been given to `kfree` and that is not cleared yet does not count. The token
of the call says which entry that is (`Tok.fading`): the `e` of `space d h S e`, and the `dying` of
`Act`.
-/
namespace Os4.Vm

open Multiset (mem_cons_of_mem mem_cons_self mem_cons map_cons nodup_cons
    filterMap_cons_none mem_map)

/-- Whose a page directory is. -/
inductive Holder where
  | kernel
  | proc (p : Fin NPROC)
  | call
deriving DecidableEq

inductive Role where
  | free
  | held
  | dir (h : Holder)
  | table (d : Frame) (i : Nat)
  | page (d : Frame) (v : Nat)
  | kstack (p : Fin NPROC)
  | pipe
deriving DecidableEq

/-- What process `i` is doing. -/
inductive Act where
  | plain
  /-- it is alive and has the page directory `d` -/
  | busy (d : Frame)
  /-- and it works on `d`: another token says how -/
  | lent (d : Frame)
  /-- it sets up process `q`, or takes its child `q` apart; `q` is now `x` -/
  | work (q : Fin NPROC) (x : Proc) (reap dying : Bool)

inductive Tok where
  | me (i : Fin NPROC) (a : Act)
  | held (f : Frame)
  /-- a page directory, now `S`; the entry for the page in `e` is about to be cleared -/
  | space (d : Frame) (h : Holder) (S : Space) (e : Option Nat)
  /-- a page directory in the second loop of `freevm`; the tables below `n` are free -/
  | torn (d : Frame) (S : Space) (n : Nat)
  /-- an end of a pipe that no file has any more -/
  | fd (b : Frame) (w : Bool)

inductive Key where
  | me (i : Fin NPROC)
  | frame (f : Frame)
  | fd (b : Frame) (w : Bool)

def Tok.key : Tok → Key
  | me i _ => .me i
  | held f => .frame f
  | space d _ _ _ => .frame d
  | torn d _ _ => .frame d
  | fd b w => .fd b w

/-- The entry that is about to be cleared. -/
def Tok.fading : Tok → Option Role
  | space d _ _ (some v) => some (.page d v)
  | me _ (.work q _ _ true) => some (.kstack q)
  | _ => none

/-- The process has its page directory: `wait` has not begun to take it apart. -/
def Proc.Settled (x : Proc) : Prop := x.status = .live ∨ (x.status = .zombie ∧ x.kstack ≠ none)

inductive DirOf (M : Multiset Tok) (s : St) : Holder → Frame → Prop where
  | kernel {d : Frame} : s.kpgdir = some d → DirOf M s .kernel d
  | proc {p : Fin NPROC} {d : Frame} : (s.procs p).Settled → (s.procs p).pgdir = some d →
      DirOf M s (.proc p) d
  | call {d : Frame} {S : Space} {e : Option Nat} : .space d .call S e ∈ M → DirOf M s .call d

theorem DirOf.of_tokens (hd : DirOf M' s h d)
    (hM : ∀ d S e, .space d .call S e ∈ M' → .space d .call S e ∈ M) : DirOf M s h d := by
  cases hd with
  | kernel hd => exact .kernel hd
  | proc hs hd => exact .proc hs hd
  | call hd => exact .call (hM _ _ _ hd)

/-- The kernel stack of `q` has been freed and `q->kstack` not been cleared. -/
def Dying (M : Multiset Tok) (q : Fin NPROC) : Prop := ∃ i x reap, .me i (.work q x reap true) ∈ M

inductive Rec (M : Multiset Tok) (s : St) : Role → Frame → Prop where
  | free {f : Frame} : f ∈ s.freelist → Rec M s .free f
  | held {f : Frame} : .held f ∈ M → Rec M s .held f
  | torn {d : Frame} {S : Space} {n : Nat} : .torn d S n ∈ M → Rec M s .held d
  | tornTable {d t : Frame} {S : Space} {n i : Nat} : .torn d S n ∈ M → n ≤ i →
      S.tables i = some t → Rec M s (.table d i) t
  | dir {h : Holder} {d : Frame} : DirOf M s h d → Rec M s (.dir h) d
  | table {h : Holder} {d t : Frame} {i : Nat} : DirOf M s h d → (s.dirs d).tables i = some t →
      Rec M s (.table d i) t
  | page {h : Holder} {d f : Frame} {v : Nat} {u : Bool} : DirOf M s h d →
      (s.dirs d).page v = some (f, u) → (∀ h' S, .space d h' S (some v) ∉ M) → Rec M s (.page d v) f
  | kstack {p : Fin NPROC} {f : Frame} : (s.procs p).kstack = some f → ¬ Dying M p →
      Rec M s (.kstack p) f
  | fd {b : Frame} {w : Bool} : .fd b w ∈ M → Rec M s .pipe b
  | file {k : Fin NFILE} {b : Frame} {w : Bool} : (s.ftable k).pipe = some (b, w) → Rec M s .pipe b

/-- Each frame has one role, and `kfree` takes it. -/
def Apart (L : Layout) (M : Multiset Tok) (s : St) : Prop :=
  ∀ r f, Rec M s r f → (L.first ≤ f ∧ f < L.last) ∧ ∀ r', Rec M s r' f → r' = r

/-- The calls know the page directories they work on. -/
structure Spaces (M : Multiset Tok) (dirs : Frame → Space) : Prop where
  space : ∀ d h S e, .space d h S e ∈ M → dirs d = S ∧
    (h = .call ∨ ∃ p, h = .proc p ∧ .me p (.lent d) ∈ M)
  torn : ∀ d S n, .torn d S n ∈ M → dirs d = S

/-- The process that `i` works on. -/
def Act.on (i : Fin NPROC) : Act → Option (Fin NPROC)
  | plain => none
  | busy _ | lent _ => some i
  | work q .. => some q

/-- What `i` knows about it. -/
def Act.Sees (i : Fin NPROC) : Act → Proc → Prop
  | plain, _ => True
  | busy d, y | lent d, y => y.status = .live ∧ y.pgdir = some d
  | work _ x reap _, y =>
    y = x ∧ if reap then x.status = .zombie ∧ x.parent = some i else x.status = .embryo

structure Proc.Ok (y : Proc) : Prop where
  settled : y.Settled → y.pgdir ≠ none
  stack : y.status = .live → y.kstack ≠ none
  orphan : y.status = .unused ∨ y.status = .embryo → y.parent = none

/-- The calls know the processes they work on, and no two work on one process. -/
structure People (M : Multiset Tok) (procs : Fin NPROC → Proc) : Prop where
  ok : ∀ p, (procs p).Ok
  knows : ∀ i a q, .me i a ∈ M → a.on i = some q → a.Sees i (procs q)
  once : ∀ i j a b q, .me i a ∈ M → .me j b ∈ M → a.on i = some q → b.on j = some q → i = j

/-- An end of a pipe that is open belongs to one file or call. -/
structure Pipes (M : Multiset Tok) (isopen : Frame → Bool → Bool) (ftable : Fin NFILE → File) :
    Prop where
  fd : ∀ b w, .fd b w ∈ M → isopen b w = true
  file : ∀ k b w, (ftable k).pipe = some (b, w) → isopen b w = true ∧ .fd b w ∉ M ∧
    ∀ k', (ftable k').pipe = some (b, w) → k' = k

structure Ledger (L : Layout) (M : Multiset Tok) (s : St) : Prop where
  keys : (M.map Tok.key).Nodup
  apart : Apart L M s
  nodup : s.freelist.Nodup
  spaces : Spaces M s.dirs
  people : People M s.procs
  pipes : Pipes M s.isopen s.ftable

/-! ## Frames that get and lose a role -/

variable {L : Layout} {M M' : Multiset Tok} {s s' : St} {d f t b : Frame}
  {S S' : Space} {h : Holder}
  {e : Option Nat} {i n v : Nat} {p q : Fin NPROC} {x : Proc} {w u : Bool} {r : Role}

/-- `f` is nowhere recorded. -/
def Fresh (L : Layout) (M : Multiset Tok) (s : St) (f : Frame) : Prop :=
  (L.first ≤ f ∧ f < L.last) ∧ ∀ r, ¬ Rec M s r f

theorem Apart.relabel (hA : Apart L M s) (φ : Frame → Role → Role)
    (hT : ∀ r g, Rec M' s' r g → ∃ r0, Rec M s r0 g ∧ r = φ g r0) : Apart L M' s' := by
  intro r g hr
  obtain ⟨r0, hr0, rfl⟩ := hT r g hr
  refine ⟨(hA _ _ hr0).1, fun r' hr' => ?_⟩
  obtain ⟨r1, hr1, rfl⟩ := hT r' g hr'
  rw [(hA _ _ hr0).2 _ hr1]

theorem Apart.mono (hA : Apart L M s) (hT : ∀ r g, Rec M' s' r g → Rec M s r g) : Apart L M' s' :=
  hA.relabel (fun _ r => r) fun r g hr => ⟨r, hT r g hr, rfl⟩

theorem Apart.add (hA : Apart L M s) (hf : Fresh L M s f)
    (hT : ∀ r' g, Rec M' s' r' g → (g = f ∧ r' = r) ∨ Rec M s r' g) : Apart L M' s' := by
  intro r1 g h1
  refine ⟨?_, fun r2 h2 => ?_⟩
  · rcases hT r1 g h1 with ⟨rfl, -⟩ | h
    · exact hf.1
    · exact (hA _ _ h).1
  · rcases hT r1 g h1 with ⟨rfl, rfl⟩ | hr1
    · rcases hT r2 g h2 with ⟨-, rfl⟩ | hr2
      · rfl
      · exact absurd hr2 (hf.2 _)
    · rcases hT r2 g h2 with ⟨rfl, -⟩ | hr2
      · exact absurd hr1 (hf.2 _)
      · exact (hA _ _ hr1).2 _ hr2

theorem Apart.fresh (hA : Apart L M s) (h0 : Rec M s r f)
    (hT : ∀ r' g, Rec M' s' r' g → Rec M s r' g) (hno : ¬ Rec M' s' r f) : Fresh L M' s' f :=
  ⟨(hA _ _ h0).1, fun _ hr' => hno ((hA _ _ h0).2 _ (hT _ _ hr') ▸ hr')⟩

/-! ## Tokens -/

variable {k : Tok}

theorem Ledger.key_notMem (hL : Ledger L (k ::ₘ M) s) : k.key ∉ M.map Tok.key := by
  have := hL.keys
  rw [map_cons, nodup_cons] at this
  exact this.1

theorem Ledger.no_other {k' : Tok} (hL : Ledger L (k ::ₘ M) s) (hmem : k' ∈ M)
    (hk : k'.key = k.key) : False :=
  hL.key_notMem (hk ▸ Multiset.mem_map_of_mem _ hmem)

theorem Ledger.dirOf (hL : Ledger L M s) (ht : .space d h S e ∈ M) : DirOf M s h d := by
  rcases (hL.spaces.space _ _ _ _ ht).2 with rfl | ⟨p, rfl, hbusy⟩
  · exact .call ht
  · obtain ⟨hlive, hd⟩ := hL.people.knows _ _ _ hbusy rfl
    exact .proc (.inl hlive) hd

variable {d' : Frame}

theorem Ledger.dir_ne {h' : Holder} (hL : Ledger L M s) (hd : DirOf M s h d)
    (hd' : DirOf M s h' d') (hne : h' ≠ h) :
    d' ≠ d := by
  rintro rfl
  have := (hL.apart _ _ (.dir hd)).2 _ (.dir hd')
  cases this
  exact hne rfl

theorem Ledger.rec_of_key (hL : Ledger L M s) (hf : Key.frame f ∈ M.map Tok.key) :
    ∃ r, Rec M s r f := by
  obtain ⟨k, hk, hkey⟩ := mem_map.1 hf
  cases k with
  | me i a => cases hkey
  | fd b w => cases hkey
  | held g =>
    cases hkey
    exact ⟨_, .held hk⟩
  | torn d S n =>
    cases hkey
    exact ⟨_, .torn hk⟩
  | space d h S e =>
    cases hkey
    exact ⟨_, .dir (hL.dirOf hk)⟩

theorem People.mono {procs : Fin NPROC → Proc} (hP : People M procs)
    (hM : ∀ i a, .me i a ∈ M' → .me i a ∈ M) : People M' procs where
  ok := hP.ok
  knows i a q ht := hP.knows i a q (hM _ _ ht)
  once i j a b q hi hj := hP.once i j a b q (hM _ _ hi) (hM _ _ hj)

theorem Pipes.mono {isopen : Frame → Bool → Bool} {ftable : Fin NFILE → File}
    (hP : Pipes M isopen ftable)
    (hM : ∀ b w, .fd b w ∈ M' → .fd b w ∈ M) : Pipes M' isopen ftable where
  fd b w ht := hP.fd b w (hM _ _ ht)
  file k b w hk := ⟨(hP.file k b w hk).1, fun ht => (hP.file k b w hk).2.1 (hM _ _ ht),
    (hP.file k b w hk).2.2⟩

theorem Ledger.hold (hL : Ledger L M s) (hf : Fresh L M s f) : Ledger L (.held f ::ₘ M) s where
  keys := by
    rw [map_cons, nodup_cons]
    exact ⟨fun hk => (hL.rec_of_key hk).elim hf.2, hL.keys⟩
  apart := hL.apart.add hf (r := .held) fun r g hr => by
    cases hr with
    | free hg => exact .inr (.free hg)
    | held hg =>
      rcases mem_cons.1 hg with heq | hg
      · cases heq
        exact .inl ⟨rfl, rfl⟩
      · exact .inr (.held hg)
    | torn ht => exact .inr (.torn (by simpa using ht))
    | tornTable ht hi hS => exact .inr (.tornTable (by simpa using ht) hi hS)
    | dir hd => exact .inr (.dir (hd.of_tokens (by simp)))
    | table hd hS => exact .inr (.table (hd.of_tokens (by simp)) hS)
    | page hd hS hno =>
      exact .inr (.page (hd.of_tokens (by simp)) hS fun h' S' ht => hno h' S' (by simpa using ht))
    | kstack hk hno => exact .inr (.kstack hk fun hdy => hno (by simpa [Dying] using hdy))
    | fd ht => exact .inr (.fd (by simpa using ht))
    | file hk => exact .inr (.file hk)
  nodup := hL.nodup
  spaces := ⟨fun d h S e ht => by simpa using hL.spaces.space d h S e (by simpa using ht),
    fun d S n ht => hL.spaces.torn d S n (by simpa using ht)⟩
  people := hL.people.mono (by simp)
  pipes := hL.pipes.mono (by simp)

variable {g : Frame}

/-- Other tokens, of which none makes an entry not count. -/
theorem Rec.of_tokens (hr : Rec M' s r g) (hM : ∀ k ∈ M', k ∈ M)
    (hspace : ∀ d h S e, .space d h S (some e) ∈ M → .space d h S (some e) ∈ M')
    (hme : ∀ i a, .me i a ∈ M → .me i a ∈ M') :
    Rec M s r g := by
  have hdir : ∀ {h d}, DirOf M' s h d → DirOf M s h d := fun hd =>
    hd.of_tokens fun _ _ _ ht => hM _ ht
  cases hr with
  | free hg => exact .free hg
  | held hg => exact .held (hM _ hg)
  | torn ht => exact .torn (hM _ ht)
  | tornTable ht hi hS => exact .tornTable (hM _ ht) hi hS
  | dir hd => exact .dir (hdir hd)
  | table hd hS => exact .table (hdir hd) hS
  | page hd hS hno => exact .page (hdir hd) hS fun h' S' ht => hno h' S' (hspace _ _ _ _ ht)
  | kstack hk hno =>
    exact .kstack hk fun ⟨i, x, b, hdy⟩ => hno ⟨i, x, b, hme _ _ hdy⟩
  | fd ht => exact .fd (hM _ ht)
  | file hk => exact .file hk

theorem Ledger.drop (hL : Ledger L (k ::ₘ M) s) (hme : ∀ i a, k ≠ .me i a)
    (hspace : ∀ d h S e, k ≠ .space d h S (some e)) :
    Ledger L M s ∧ ∀ r g, Rec M s r g → Rec (k ::ₘ M) s r g := by
  have hle := Multiset.le_cons_self M k
  have hback : ∀ {i a}, .me i a ∈ k ::ₘ M → .me i a ∈ M := fun ht =>
    (mem_cons.1 ht).resolve_left (hme _ _).symm
  have hmono : ∀ r g, Rec M s r g → Rec (k ::ₘ M) s r g := fun r g hr =>
    hr.of_tokens (fun _ ht => mem_cons_of_mem ht) (fun d h S e ht =>
      (mem_cons.1 ht).resolve_left (hspace _ _ _ _).symm) fun _ _ => hback
  refine ⟨⟨Multiset.nodup_of_le (Multiset.map_le_map hle) hL.keys, hL.apart.mono hmono, hL.nodup,
    ⟨fun d h S e ht => ?_, fun d S n ht => hL.spaces.torn d S n (mem_cons_of_mem ht)⟩,
    hL.people.mono fun _ _ => mem_cons_of_mem, hL.pipes.mono fun _ _ => mem_cons_of_mem⟩, hmono⟩
  obtain ⟨hS, hh⟩ := hL.spaces.space d h S e (mem_cons_of_mem ht)
  exact ⟨hS, hh.imp_right fun ⟨p, hp, ht⟩ => ⟨p, hp, hback ht⟩⟩

theorem Ledger.unhold (hL : Ledger L (.held f ::ₘ M) s) : Ledger L M s ∧ Fresh L M s f := by
  obtain ⟨hL', hmono⟩ := hL.drop (by simp) (by simp)
  refine ⟨hL', hL.apart.fresh (.held (mem_cons_self ..)) hmono fun hr => ?_⟩
  cases hr with
  | held ht => exact hL.no_other ht rfl
  | torn ht => exact hL.no_other ht rfl

/-! ## The free list -/

theorem Rec.of_freelist {fl : List Frame} (hr : Rec M (s.withFree fl) r g) :
    (r = .free ∧ g ∈ fl) ∨ (r ≠ .free ∧ Rec M s r g) := by
  have hdir : ∀ {h d}, DirOf M (s.withFree fl) h d → DirOf M s h d := fun hd => by
    cases hd with
    | kernel hd => exact .kernel hd
    | proc hs hd => exact .proc hs hd
    | call hd => exact .call hd
  cases hr with
  | free hg => exact .inl ⟨rfl, hg⟩
  | held hg => exact .inr ⟨nofun, .held hg⟩
  | torn ht => exact .inr ⟨nofun, .torn ht⟩
  | tornTable ht hi hS => exact .inr ⟨nofun, .tornTable ht hi hS⟩
  | dir hd => exact .inr ⟨nofun, .dir (hdir hd)⟩
  | table hd hS => exact .inr ⟨nofun, .table (hdir hd) hS⟩
  | page hd hS hno => exact .inr ⟨nofun, .page (hdir hd) hS hno⟩
  | kstack hk hno => exact .inr ⟨nofun, .kstack hk hno⟩
  | fd ht => exact .inr ⟨nofun, .fd ht⟩
  | file hk => exact .inr ⟨nofun, .file hk⟩

theorem Ledger.pop {fs : List Frame} (hL : Ledger L M s) (hs : s.freelist = f :: fs) :
    Ledger L M (s.withFree fs) ∧ Fresh L M (s.withFree fs) f := by
  have hnodup := hL.nodup
  rw [hs, List.nodup_cons] at hnodup
  have hmono : ∀ r g, Rec M (s.withFree fs) r g → Rec M s r g := fun r g hr => by
    rcases hr.of_freelist with ⟨rfl, hg⟩ | ⟨-, hr⟩
    · exact .free (hs ▸ List.mem_cons_of_mem _ hg)
    · exact hr
  refine ⟨⟨hL.keys, hL.apart.mono hmono, hnodup.2, hL.spaces, hL.people, hL.pipes⟩,
    hL.apart.fresh (.free (hs ▸ List.mem_cons_self ..)) hmono fun hr => ?_⟩
  rcases hr.of_freelist with ⟨-, hg⟩ | ⟨hne, -⟩
  · exact hnodup.1 hg
  · exact hne rfl

theorem Ledger.push (hL : Ledger L M s) (hf : Fresh L M s f) :
    Ledger L M (s.withFree (f :: s.freelist)) where
  keys := hL.keys
  apart := hL.apart.add hf (r := .free) fun r g hr => by
    rcases hr.of_freelist with ⟨rfl, hg⟩ | ⟨-, hr⟩
    · rcases List.mem_cons.1 hg with rfl | hg
      · exact .inl ⟨rfl, rfl⟩
      · exact .inr (.free hg)
    · exact .inr hr
  nodup := List.nodup_cons.2 ⟨fun hmem => hf.2 _ (.free hmem), hL.nodup⟩
  spaces := hL.spaces
  people := hL.people
  pipes := hL.pipes

/-! ## Page directories -/

theorem withDir_self : (s.withDir d S).dirs d = S := Function.update_self ..

theorem withDir_ne (hne : d' ≠ d) : (s.withDir d S).dirs d' = s.dirs d' :=
  Function.update_of_ne hne ..

variable {e' : Option Nat}

theorem Rec.of_space (hL : Ledger L (.space d h S e ::ₘ M) s)
    (hr : Rec (.space d h S' e' ::ₘ M) (s.withDir d S') r g) :
    (∃ i, r = .table d i ∧ S'.tables i = some g) ∨
    (∃ v u, r = .page d v ∧ S'.page v = some (g, u) ∧ e' ≠ some v) ∨
    (Rec (.space d h S e ::ₘ M) s r g ∧ (∀ i, r ≠ .table d i) ∧ ∀ v, r ≠ .page d v) := by
  have hdir : ∀ {h' d'}, DirOf (.space d h S' e' ::ₘ M) (s.withDir d S') h' d' →
      DirOf (.space d h S e ::ₘ M) s h' d' := fun hd => by
    cases hd with
    | kernel hd => exact .kernel hd
    | proc hs hd => exact .proc hs hd
    | call hd =>
      rcases mem_cons.1 hd with heq | hd
      · cases heq
        exact .call (mem_cons_self ..)
      · exact .call (mem_cons_of_mem hd)
  cases hr with
  | free hg => exact .inr (.inr ⟨.free hg, nofun, nofun⟩)
  | held hg => exact .inr (.inr ⟨.held (by simpa using hg), nofun, nofun⟩)
  | torn ht => exact .inr (.inr ⟨.torn (by simpa using ht), nofun, nofun⟩)
  | @tornTable d' t S'' n i ht hi hS =>
    have ht : .torn d' S'' n ∈ M := by simpa using ht
    have hne : d' ≠ d := fun heq => hL.no_other ht (by rw [heq]; rfl)
    exact .inr (.inr ⟨.tornTable (mem_cons_of_mem ht) hi hS,
      fun i heq => hne (by cases heq; rfl), nofun⟩)
  | dir hd => exact .inr (.inr ⟨.dir (hdir hd), nofun, nofun⟩)
  | @table h' d' t i hd hS =>
    by_cases hne : d' = d
    · subst hne
      rw [withDir_self] at hS
      exact .inl ⟨i, rfl, hS⟩
    · rw [withDir_ne hne] at hS
      exact .inr (.inr ⟨.table (hdir hd) hS, fun i heq => hne (by cases heq; rfl), nofun⟩)
  | @page h' d' f v u hd hS hno =>
    by_cases hne : d' = d
    · subst hne
      rw [withDir_self] at hS
      refine .inr (.inl ⟨v, u, rfl, hS, fun he => hno h S' ?_⟩)
      rw [he]
      exact mem_cons_self ..
    · rw [withDir_ne hne] at hS
      refine .inr (.inr ⟨.page (hdir hd) hS fun h'' S'' ht => hno h'' S'' ?_, nofun,
        fun v heq => hne (by cases heq; rfl)⟩)
      rcases mem_cons.1 ht with heq | ht
      · cases heq
        exact absurd rfl hne
      · exact mem_cons_of_mem ht
  | kstack hk hno =>
    exact .inr (.inr ⟨.kstack hk fun hdy => hno (by simpa [Dying] using hdy), nofun, nofun⟩)
  | fd ht => exact .inr (.inr ⟨.fd (by simpa using ht), nofun, nofun⟩)
  | file hk => exact .inr (.inr ⟨.file hk, nofun, nofun⟩)

theorem Ledger.setSpace (hL : Ledger L (.space d h S e ::ₘ M) s)
    (hA : Apart L (.space d h S' e' ::ₘ M) (s.withDir d S')) :
    Ledger L (.space d h S' e' ::ₘ M) (s.withDir d S') where
  keys := by
    have := hL.keys
    rw [map_cons] at this ⊢
    exact this
  apart := hA
  nodup := hL.nodup
  spaces := by
    refine ⟨fun d' h' S'' e'' ht => ?_, fun d' S'' n ht => ?_⟩
    · rcases mem_cons.1 ht with heq | ht
      · cases heq
        refine ⟨withDir_self, ?_⟩
        simpa using (hL.spaces.space d h S e (mem_cons_self ..)).2
      · have hne : d' ≠ d := fun heq => hL.no_other ht (by rw [heq]; rfl)
        have hold := hL.spaces.space d' h' S'' e'' (mem_cons_of_mem ht)
        exact ⟨(withDir_ne hne).trans hold.1, by simpa using hold.2⟩
    · have ht : .torn d' S'' n ∈ M := by simpa using ht
      have hne : d' ≠ d := fun heq => hL.no_other ht (by rw [heq]; rfl)
      exact (withDir_ne hne).trans (hL.spaces.torn d' S'' n (mem_cons_of_mem ht))
  people := hL.people.mono (by simp)
  pipes := hL.pipes.mono (by simp)

/-- No entry of the page directory is about to be cleared. -/
theorem Ledger.not_fading (hL : Ledger L (.space d h S none ::ₘ M) s) (h' : Holder) (S' : Space) :
    .space d h' S' (some v) ∉ (.space d h S none ::ₘ M : Multiset Tok) := fun ht => by
  rcases mem_cons.1 ht with heq | ht
  · cases heq
  · exact hL.no_other ht rfl

theorem Ledger.rec_table (hL : Ledger L (.space d h S e ::ₘ M) s) (hi : S.tables i = some t) :
    Rec (.space d h S e ::ₘ M) s (.table d i) t :=
  .table (hL.dirOf (mem_cons_self ..)) ((hL.spaces.space _ _ _ _ (mem_cons_self ..)).1 ▸ hi)

theorem Ledger.rec_page (hL : Ledger L (.space d h S none ::ₘ M) s) (hv : S.page v = some (f, u)) :
    Rec (.space d h S none ::ₘ M) s (.page d v) f :=
  .page (hL.dirOf (mem_cons_self ..)) ((hL.spaces.space _ _ _ _ (mem_cons_self ..)).1 ▸ hv)
    hL.not_fading

theorem withTable_self : (S.withTable i t).tables i = some t := Function.update_self ..

theorem withTable_ne {i' : Nat} (hne : i' ≠ i) : (S.withTable i t).tables i' = S.tables i' :=
  Function.update_of_ne hne ..

theorem page_withTable (hi : S.tables i = none) (v : Nat) :
    (S.withTable i t).page v = S.page v := by
  unfold Space.page Space.withTable
  by_cases hv : v / NPTENTRIES = i
  · simp [hv, hi]
  · simp [hv]

theorem Ledger.addTable (hL : Ledger L (.space d h S none ::ₘ M) s)
    (hf : Fresh L (.space d h S none ::ₘ M) s t) (hi : S.tables i = none) :
    Ledger L (.space d h (S.withTable i t) none ::ₘ M) (s.withDir d (S.withTable i t)) := by
  refine hL.setSpace (hL.apart.add hf (r := .table d i) fun r g hr => ?_)
  rcases hr.of_space hL with ⟨i', rfl, hi'⟩ | ⟨v, u, rfl, hv, -⟩ | ⟨hr, -, -⟩
  · by_cases hne : i' = i
    · subst hne
      rw [withTable_self] at hi'
      cases hi'
      exact .inl ⟨rfl, rfl⟩
    · rw [withTable_ne hne] at hi'
      exact .inr (hL.rec_table hi')
  · rw [page_withTable hi] at hv
    exact .inr (hL.rec_page hv)
  · exact .inr hr

theorem page_withPte {e : Option (Frame × Bool)} (v' : Nat) :
    (S.withPte v e).page v' = if v' = v then (S.tables (v / NPTENTRIES)).bind fun _ =>
      e else S.page v' := by
  unfold Space.page Space.withPte
  by_cases hv : v' = v
  · subst hv
    simp
  · simp [hv]

theorem Ledger.addPte (hL : Ledger L (.space d h S none ::ₘ M) s)
    (hf : Fresh L (.space d h S none ::ₘ M) s f) :
    Ledger L (.space d h (S.withPte v (some (f, u))) none ::ₘ M)
      (s.withDir d (S.withPte v (some (f, u)))) := by
  refine hL.setSpace (hL.apart.add hf (r := .page d v) fun r g hr => ?_)
  rcases hr.of_space hL with ⟨i', rfl, hi'⟩ | ⟨v', u', rfl, hv, -⟩ | ⟨hr, -, -⟩
  · exact .inr (hL.rec_table hi')
  · rw [page_withPte] at hv
    split at hv
    · rename_i heq
      obtain ⟨_, -, hv⟩ := Option.bind_eq_some_iff.1 hv
      cases hv
      exact .inl ⟨rfl, by rw [heq]⟩
    · exact .inr (hL.rec_page hv)
  · exact .inr hr

theorem Ledger.hidePte (hL : Ledger L (.space d h S none ::ₘ M) s) :
    Ledger L (.space d h (S.withPte v ((S.ptes v).map fun e => (e.1, false))) none ::ₘ M)
      (s.withDir d (S.withPte v ((S.ptes v).map fun e => (e.1, false)))) := by
  refine hL.setSpace (hL.apart.mono fun r g hr => ?_)
  rcases hr.of_space hL with ⟨i', rfl, hi'⟩ | ⟨v', u', rfl, hv, -⟩ | ⟨hr, -, -⟩
  · exact hL.rec_table hi'
  · rw [page_withPte] at hv
    split at hv
    · rename_i heq
      subst heq
      obtain ⟨t, ht, hv⟩ := Option.bind_eq_some_iff.1 hv
      obtain ⟨⟨f, u⟩, hf, heq⟩ := Option.map_eq_some_iff.1 hv
      cases heq
      exact hL.rec_page (u := u) (by rw [Space.page, ht, Option.bind_some, hf])
    · exact hL.rec_page hv
  · exact hr

/-- The frame of a page is about to go to `kfree`: the entry does not count any more. -/
theorem Ledger.fade (hL : Ledger L (.space d h S none ::ₘ M) s) (hv : S.page v = some (f, u)) :
    Ledger L (.space d h S (some v) ::ₘ M) s ∧ Fresh L (.space d h S (some v) ::ₘ M) s f := by
  have hdir := (hL.spaces.space _ _ _ _ (mem_cons_self ..)).1
  have hself : s.withDir d S = s := by rw [← hdir, St.withDir, Function.update_eq_self]
  have hcases : ∀ r g, Rec (.space d h S (some v) ::ₘ M) s r g →
      Rec (.space d h S none ::ₘ M) s r g ∧ r ≠ .page d v := by
    intro r g hr
    rw [← hself] at hr
    rcases hr.of_space hL with ⟨i', rfl, hi'⟩ | ⟨v', u', rfl, hv', hne⟩ | ⟨hr, -, hne⟩
    · exact ⟨hL.rec_table hi', nofun⟩
    · refine ⟨hL.rec_page hv', fun heq => hne ?_⟩
      cases heq
      rfl
    · exact ⟨hr, hne v⟩
  refine ⟨?_, hL.apart.fresh (hL.rec_page hv) (fun r g hr => (hcases r g hr).1) fun hr =>
    (hcases _ _ hr).2 rfl⟩
  have hA : Apart L (.space d h S (some v) ::ₘ M) s := hL.apart.mono fun r g hr => (hcases r g hr).1
  rw [← hself] at hA ⊢
  exact hL.setSpace hA

theorem Ledger.clearPte (hL : Ledger L (.space d h S (some v) ::ₘ M) s) :
    Ledger L (.space d h (S.withPte v none) none ::ₘ M) (s.withDir d (S.withPte v none)) := by
  refine hL.setSpace (hL.apart.mono fun r g hr => ?_)
  rcases hr.of_space hL with ⟨i', rfl, hi'⟩ | ⟨v', u', rfl, hv, -⟩ | ⟨hr, -, -⟩
  · exact hL.rec_table hi'
  · rw [page_withPte] at hv
    split at hv
    · obtain ⟨_, -, hv⟩ := Option.bind_eq_some_iff.1 hv
      cases hv
    · rename_i hne
      refine .page (hL.dirOf (mem_cons_self ..))
        ((hL.spaces.space _ _ _ _ (mem_cons_self ..)).1 ▸ hv) fun h' S' ht => ?_
      rcases mem_cons.1 ht with heq | ht
      · cases heq
        exact hne rfl
      · exact hL.no_other ht rfl
  · exact hr

theorem Ledger.newSpace (hL : Ledger L M s) (hf : Fresh L M s d) :
    Ledger L (.space d .call .empty none ::ₘ M) (s.withDir d .empty) where
  keys := by
    rw [map_cons, nodup_cons]
    exact ⟨fun hk => (hL.rec_of_key hk).elim hf.2, hL.keys⟩
  apart := hL.apart.add hf (r := .dir .call) fun r g hr => by
    have hdir : ∀ {h' d'}, DirOf (.space d .call .empty none ::ₘ M) (s.withDir d .empty) h' d' →
        (d' = d ∧ h' = .call) ∨ DirOf M s h' d' := fun hd => by
      cases hd with
      | kernel hd => exact .inr (.kernel hd)
      | proc hs hd => exact .inr (.proc hs hd)
      | call hd =>
        rcases mem_cons.1 hd with heq | hd
        · cases heq
          exact .inl ⟨rfl, rfl⟩
        · exact .inr (.call hd)
    cases hr with
    | free hg => exact .inr (.free hg)
    | held hg => exact .inr (.held (by simpa using hg))
    | torn ht => exact .inr (.torn (by simpa using ht))
    | tornTable ht hi hS => exact .inr (.tornTable (by simpa using ht) hi hS)
    | dir hd => exact (hdir hd).imp (fun ⟨hd, hh⟩ => ⟨hd, by rw [hh]⟩) .dir
    | @table h' d' t i hd hS =>
      by_cases hne : d' = d
      · rw [hne, withDir_self] at hS
        cases hS
      · rw [withDir_ne hne] at hS
        exact .inr (.table ((hdir hd).resolve_left fun h => hne h.1) hS)
    | @page h' d' f v u hd hS hno =>
      by_cases hne : d' = d
      · rw [hne, withDir_self] at hS
        cases hS
      · rw [withDir_ne hne] at hS
        exact .inr (.page ((hdir hd).resolve_left fun h => hne h.1) hS fun h' S' ht =>
          hno h' S' (mem_cons_of_mem ht))
    | kstack hk hno => exact .inr (.kstack hk fun hdy => hno (by simpa [Dying] using hdy))
    | fd ht => exact .inr (.fd (by simpa using ht))
    | file hk => exact .inr (.file hk)
  nodup := hL.nodup
  spaces := by
    have hother : ∀ {k : Tok}, k ∈ M → k.key ≠ .frame d := fun hk heq =>
      (hL.rec_of_key (heq ▸ Multiset.mem_map_of_mem _ hk)).elim hf.2
    refine ⟨fun d' h' S' e' ht => ?_, fun d' S' n ht => ?_⟩
    · rcases mem_cons.1 ht with heq | ht
      · cases heq
        exact ⟨withDir_self, .inl rfl⟩
      · have hold := hL.spaces.space d' h' S' e' ht
        exact ⟨(withDir_ne fun heq => hother ht (by rw [heq]; rfl)).trans hold.1,
          by simpa using hold.2⟩
    · have ht : .torn d' S' n ∈ M := by simpa using ht
      exact (withDir_ne fun heq => hother ht (by rw [heq]; rfl)).trans (hL.spaces.torn d' S' n ht)
  people := hL.people.mono (by simp)
  pipes := hL.pipes.mono (by simp)

/-- The pages of a page directory are gone; its tables are freed next. -/
theorem Ledger.tear (hL : Ledger L (.space d .call S none ::ₘ M) s) :
    Ledger L (.torn d S 0 ::ₘ M) s where
  keys := by
    have := hL.keys
    rw [map_cons] at this ⊢
    exact this
  apart := hL.apart.relabel (fun g r => if g = d ∧ r = .dir .call then .held
    else r) fun r g hr => by
    have hdir : ∀ {h' d'}, DirOf (.torn d S 0 ::ₘ M) s h' d' →
        DirOf (.space d .call S none ::ₘ M) s h' d' := fun hd =>
      hd.of_tokens fun d' S' e' ht => mem_cons_of_mem (by simpa using ht)
    have hself := hL.dirOf (mem_cons_self ..)
    cases hr with
    | free hg => exact ⟨_, .free hg, by simp⟩
    | held hg => exact ⟨_, .held (mem_cons_of_mem (by simpa using hg)), by simp⟩
    | torn ht =>
      rcases mem_cons.1 ht with heq | ht
      · cases heq
        exact ⟨_, .dir hself, by simp⟩
      · exact ⟨_, .torn (mem_cons_of_mem ht), by simp⟩
    | tornTable ht hi hS =>
      rcases mem_cons.1 ht with heq | ht
      · cases heq
        exact ⟨_, hL.rec_table hS, by simp⟩
      · exact ⟨_, .tornTable (mem_cons_of_mem ht) hi hS, by simp⟩
    | @dir h' d' hd =>
      refine ⟨_, .dir (hdir hd), ?_⟩
      rw [if_neg]
      rintro ⟨rfl, heq⟩
      cases heq
      -- the token has gone
      cases hd with
      | call ht =>
        rcases mem_cons.1 ht with heq | ht
        · cases heq
        · exact hL.no_other ht rfl
    | table hd hS => exact ⟨_, .table (hdir hd) hS, by simp⟩
    | page hd hS hno =>
      refine ⟨_, .page (hdir hd) hS fun h' S' ht => hno h' S' ?_, by simp⟩
      rcases mem_cons.1 ht with heq | ht
      · cases heq
      · exact mem_cons_of_mem ht
    | kstack hk hno => exact ⟨_, .kstack hk fun hdy => hno (by simpa [Dying] using hdy), by simp⟩
    | fd ht => exact ⟨_, .fd (mem_cons_of_mem (by simpa using ht)), by simp⟩
    | file hk => exact ⟨_, .file hk, by simp⟩
  nodup := hL.nodup
  spaces := by
    refine ⟨fun d' h' S' e' ht => ?_, fun d' S' n ht => ?_⟩
    · have hold := hL.spaces.space d' h' S' e' (mem_cons_of_mem (by simpa using ht))
      simpa using hold
    · rcases mem_cons.1 ht with heq | ht
      · cases heq
        exact (hL.spaces.space _ _ _ _ (mem_cons_self ..)).1
      · exact hL.spaces.torn d' S' n (mem_cons_of_mem ht)
  people := hL.people.mono (by simp)
  pipes := hL.pipes.mono (by simp)

section

variable (hL : Ledger L (.torn d S n ::ₘ M) s)
include hL

theorem Ledger.torn_dir (hd : DirOf (.torn d S n ::ₘ M) s h d) : False := by
  have := (hL.apart _ _ (.torn (mem_cons_self ..))).2 _ (.dir hd)
  cases this

theorem Ledger.tearNext :
    Ledger L (.torn d S (n + 1) ::ₘ M) s ∧ ∀ t, S.tables n = some t →
    Fresh L (.torn d S (n + 1) ::ₘ M) s t := by
  have hdir : ∀ {h' d'}, DirOf (.torn d S (n + 1) ::ₘ M) s h' d' →
      DirOf (.torn d S n ::ₘ M) s h' d' := fun hd =>
    hd.of_tokens fun d' S' e' ht => by simpa using ht
  have hmono : ∀ r g, Rec (.torn d S (n + 1) ::ₘ M) s r g → Rec (.torn d S n ::ₘ M) s r g := by
    intro r g hr
    cases hr with
    | free hg => exact .free hg
    | held hg => exact .held (by simpa using hg)
    | torn ht =>
      rcases mem_cons.1 ht with heq | ht
      · cases heq
        exact .torn (mem_cons_self ..)
      · exact .torn (mem_cons_of_mem ht)
    | tornTable ht hi hS =>
      rcases mem_cons.1 ht with heq | ht
      · cases heq
        exact .tornTable (mem_cons_self ..) (by omega) hS
      · exact .tornTable (mem_cons_of_mem ht) hi hS
    | dir hd => exact .dir (hdir hd)
    | table hd hS => exact .table (hdir hd) hS
    | page hd hS hno => exact .page (hdir hd) hS fun h' S' ht => hno h' S' (by simpa using ht)
    | kstack hk hno => exact .kstack hk fun hdy => hno (by simpa [Dying] using hdy)
    | fd ht => exact .fd (by simpa using ht)
    | file hk => exact .file hk
  refine ⟨⟨?_, hL.apart.mono hmono, hL.nodup,
    ⟨fun d' h' S' e' ht => ?_, fun d' S' n' ht => ?_⟩, hL.people.mono (by simp),
      hL.pipes.mono (by simp)⟩,
    fun t ht => hL.apart.fresh (.tornTable (mem_cons_self ..) (Nat.le_refl n) ht)
      hmono fun hr => ?_⟩
  · have := hL.keys
    rw [map_cons] at this ⊢
    exact this
  · simpa using hL.spaces.space d' h' S' e' (by simpa using ht)
  · rcases mem_cons.1 ht with heq | ht
    · cases heq
      exact hL.spaces.torn _ _ _ (mem_cons_self ..)
    · exact hL.spaces.torn d' S' n' (mem_cons_of_mem ht)
  · cases hr with
    | tornTable ht' hi hS =>
      rcases mem_cons.1 ht' with heq | ht'
      · cases heq
        omega
      · exact hL.no_other ht' rfl
    | table hd hS => exact hL.torn_dir (hdir hd)

theorem Ledger.untorn : Ledger L M s ∧ Fresh L M s d := by
  obtain ⟨hL', hmono⟩ := hL.drop (by simp) (by simp)
  refine ⟨hL', hL.apart.fresh (.torn (mem_cons_self ..)) hmono fun hr => ?_⟩
  cases hr with
  | held ht => exact hL.no_other ht rfl
  | torn ht => exact hL.no_other ht rfl

end

theorem Ledger.leak (hL : Ledger L (.space d .call S none ::ₘ M) s) : Ledger L M s :=
  (hL.drop (by simp) (by simp)).1

end Os4.Vm
