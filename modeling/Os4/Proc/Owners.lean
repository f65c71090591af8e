import Os4.Proc.Frames
/-!
# Processes and pipes in the ledger

| here | there |
| --- | --- |
| `Ledger.begin`, `Ledger.rest` | a system call starts and ends |
| `Ledger.lend`, `Ledger.giveBack` | `growproc` works on `proc->pgdir` |
| `Ledger.swap` | the commit of `exec` (exec.c:89-95) |
| `Ledger.addStack`, `Ledger.start` | `allocproc` and the end of `fork` (proc.c:53, 127) |
| `Ledger.dropStack`, `Ledger.clearStack`, `Ledger.takeOver` | `kfree(p->kstack); p->kstack = 0;` (proc.c:138, 231) |
| `Ledger.reparent` | `exit` (proc.c:200) |
| `Ledger.dropFile`, `Ledger.closeEnd`, `Ledger.newPipe` | `fileclose`, `pipeclose`, `pipealloc` |

Two kinds of steps are enough for all of them: `Moves`, in which frames keep their contents and page
directories change their owner, and `Pipeline`, in which only files and ends of pipes change.
-/
namespace Os4.Vm

open Function (update_of_ne update_self update_eq_self)
open Multiset (mem_cons_of_mem mem_cons map_cons nodup_cons mem_cons_self mem_map
    filterMap_cons_none)

variable {L : Layout} {M M' : Multiset Tok} {s s' : St} {d f b : Frame} {S : Space} {h : Holder}
  {p q : Fin NPROC} {x : Proc} {w : Bool} {r : Role}

/-! ## Processes -/

theorem withProc_self {y : Proc} : (s.withProc q y).procs q = y := update_self ..

theorem withProc_ne {y : Proc} (hne : p ≠ q) : (s.withProc q y).procs p = s.procs p :=
  update_of_ne hne ..

/-- The owner of a page directory after a change to `q`: `q`, a call with its token, or the one that
it had. -/
theorem DirOf.of_withProc {y : Proc} (hd : DirOf M (s.withProc q y) h d) :
    (h = .proc q ∧ y.Settled ∧ y.pgdir = some d) ∨
    (h = .call ∧ ∃ S e, .space d .call S e ∈ M) ∨
    (h ≠ .call ∧ h ≠ .proc q ∧ ∀ M', DirOf M' s h d) := by
  cases hd with
  | kernel hd => exact .inr (.inr ⟨nofun, nofun, fun _ => .kernel hd⟩)
  | @proc p d hs hd =>
    by_cases hp : p = q
    · rw [hp, withProc_self] at hs hd
      exact .inl ⟨by rw [hp], hs, hd⟩
    · rw [withProc_ne hp] at hs hd
      exact .inr (.inr ⟨nofun, fun heq => hp (by cases heq; rfl), fun _ => .proc hs hd⟩)
  | call hd => exact .inr (.inl ⟨rfl, _, _, hd⟩)

theorem not_settled (hlive : x.status ≠ .live) (hstack : x.status = .zombie → x.kstack = none) :
    ¬ x.Settled :=
  fun h => h.elim hlive fun ⟨hz, hk⟩ => hk (hstack hz)

/-- A token for a process, or for a page directory of which nothing is about to be cleared. -/
def Tok.plain : Tok → Bool
  | me .. => true
  | space _ _ _ none => true
  | _ => false

theorem mem_plain {k k' : Tok} (hk' : k'.plain = true) (hk : k.plain = false) :
    k ∈ k' ::ₘ M ↔ k ∈ M := by
  rw [mem_cons]
  refine or_iff_right fun heq => ?_
  rw [heq, hk'] at hk
  cases hk

/-- `ψ` renames the holders of page directories. -/
def Role.move (ψ : Frame → Holder → Holder) (g : Frame) : Role → Role
  | .dir h => .dir (ψ g h)
  | r => r

variable {g : Frame}

theorem Role.move_id (r : Role) : r.move (fun _ h => h) g = r := by cases r <;> rfl

/-- Only processes and the owners of page directories change. -/
structure Moves (ψ : Frame → Holder → Holder) (M : Multiset Tok) (s : St) (M' : Multiset Tok)
    (s' : St) : Prop where
  tokens : ∀ k, k.plain = false → (k ∈ M' ↔ k ∈ M)
  dir : ∀ h d, DirOf M' s' h d → ∃ h0, DirOf M s h0 d ∧ h = ψ d h0
  stack : ∀ p f, (s'.procs p).kstack = some f → ¬ Dying M' p → (s.procs p).kstack =
    some f ∧ ¬ Dying M p
  freelist : s'.freelist = s.freelist
  dirs : s'.dirs = s.dirs
  ftable : s'.ftable = s.ftable
  isopen : s'.isopen = s.isopen

theorem Rec.move {ψ : Frame → Holder → Holder} (hT : Moves ψ M s M' s') (hr : Rec M' s' r g) :
    ∃ r0, Rec M s r0 g ∧ r = r0.move ψ g := by
  have hM : ∀ {k}, k.plain = false → k ∈ M' → k ∈ M := fun hk => (hT.tokens _ hk).1
  cases hr with
  | free hg => exact ⟨_, .free (hT.freelist ▸ hg), rfl⟩
  | held hg => exact ⟨_, .held (hM rfl hg), rfl⟩
  | torn ht => exact ⟨_, .torn (hM rfl ht), rfl⟩
  | tornTable ht hi hS => exact ⟨_, .tornTable (hM rfl ht) hi hS, rfl⟩
  | dir hd =>
    obtain ⟨h0, hd0, rfl⟩ := hT.dir _ _ hd
    exact ⟨_, .dir hd0, rfl⟩
  | table hd hS =>
    obtain ⟨h0, hd0, -⟩ := hT.dir _ _ hd
    exact ⟨_, .table hd0 (hT.dirs ▸ hS), rfl⟩
  | page hd hS hno =>
    obtain ⟨h0, hd0, -⟩ := hT.dir _ _ hd
    exact ⟨_, .page hd0 (hT.dirs ▸ hS) fun h' S' ht => hno h' S' ((hT.tokens _ rfl).2 ht), rfl⟩
  | kstack hk hno => exact ⟨_, .kstack (hT.stack _ _ hk hno).1 (hT.stack _ _ hk hno).2, rfl⟩
  | fd ht => exact ⟨_, .fd (hM rfl ht), rfl⟩
  | file hk => exact ⟨_, .file (hT.ftable ▸ hk), rfl⟩

theorem Ledger.move (hL : Ledger L M s) (ψ : Frame → Holder → Holder) (hT : Moves ψ M s M' s')
    (hkeys : (M'.map Tok.key).Nodup) (hpeople : People M' s'.procs)
    (hspace : ∀ d h S e, .space d h S e ∈ M' → s.dirs d = S ∧
      (h = .call ∨ ∃ p, h = .proc p ∧ .me p (.lent d) ∈ M')) :
    Ledger L M' s' where
  keys := hkeys
  apart := hL.apart.relabel (fun g r => r.move ψ g) fun _ _ hr => hr.move hT
  nodup := hT.freelist ▸ hL.nodup
  spaces := hT.dirs ▸ ⟨hspace, fun d S n ht => hL.spaces.torn d S n ((hT.tokens _ rfl).1 ht)⟩
  people := hpeople
  pipes := by
    rw [hT.isopen, hT.ftable]
    exact hL.pipes.mono fun b w ht => (hT.tokens _ rfl).1 ht

variable {reap : Bool}

section Act

variable {i j : Fin NPROC} {a a' c : Act} {y : Proc} {procs : Fin NPROC → Proc}

theorem Ledger.nobody (hL : Ledger L (.me i a ::ₘ M) s) (ha : a.on i = some q) (hj : .me j c ∈ M) :
    c.on j ≠ some q := by
  intro hc
  have hij := hL.people.once _ _ _ _ _ (mem_cons_self ..) (mem_cons_of_mem hj) ha hc
  exact hL.no_other hj (by rw [← hij]; rfl)

theorem Act.Sees.status (ha : a.on i = some q) (hs : a.Sees i y) :
    (y.status = .live ∧ q = i) ∨ y.status = .embryo ∨ (y.status = .zombie ∧ y.parent = some i) := by
  cases a with
  | plain => cases ha
  | busy d =>
    cases ha
    exact .inl ⟨hs.1, rfl⟩
  | lent d =>
    cases ha
    exact .inl ⟨hs.1, rfl⟩
  | work q' x reap dying =>
    obtain ⟨rfl, hs⟩ := hs
    cases reap with
    | false => exact .inr (.inl hs)
    | true => exact .inr (.inr hs)

/-- Nobody works on a process that is unused, on one that is alive except itself, or on a zombie
except its parent. -/
theorem Ledger.nobody_of_status (hL : Ledger L (.me i a ::ₘ M) s)
    (hq : (s.procs q).status = .unused ∨ ((s.procs q).status = .live ∧ q = i) ∨
      ((s.procs q).status = .zombie ∧ (s.procs q).parent = some i)) (hj : .me j c ∈ M) :
      c.on j ≠ some q := by
  intro hc
  have hne : j ≠ i := fun heq => hL.no_other hj (by rw [heq]; rfl)
  rcases (hL.people.knows j c q (mem_cons_of_mem hj) hc).status hc with ⟨hst, hqj⟩
    | hst | ⟨hst, hpar⟩
  · rcases hq with hq | ⟨-, hqi⟩ | ⟨hq, -⟩
    · rw [hst] at hq
      cases hq
    · exact hne (hqj.symm.trans hqi)
    · rw [hst] at hq
      cases hq
  · rcases hq with hq | ⟨hq, -⟩ | ⟨hq, -⟩ <;> rw [hst] at hq <;> cases hq
  · rcases hq with hq | ⟨hq, -⟩ | ⟨-, hq⟩
    · rw [hst] at hq
      cases hq
    · rw [hst] at hq
      cases hq
    · rw [hpar] at hq
      cases hq
      exact hne rfl

/-- `i` changes `q`, which nobody else works on. -/
theorem People.update (hP : People (.me i a ::ₘ M) procs) (a' : Act)
    (hno : ∀ j c, .me j c ∈ M → c.on j ≠ some q) (hy : y.Ok)
    (hon : ∀ q', a'.on i = some q' → q' = q ∧ a'.Sees i y) :
    People (.me i a' ::ₘ M) (Function.update procs q y) := by
  refine ⟨fun p => ?_, fun j c q' hj hq' => ?_, fun j k c c' q' hj hk hc hc' => ?_⟩
  · by_cases hp : p = q
    · rw [hp, update_self]
      exact hy
    · rw [update_of_ne hp]
      exact hP.ok p
  · rcases mem_cons.1 hj with heq | hj
    · cases heq
      obtain ⟨rfl, hs⟩ := hon _ hq'
      rw [update_self]
      exact hs
    · have hne : q' ≠ q := fun heq => hno _ _ hj (heq ▸ hq')
      rw [update_of_ne hne]
      exact hP.knows _ _ _ (mem_cons_of_mem hj) hq'
  · rcases mem_cons.1 hj with heq | hj
    · cases heq
      rcases mem_cons.1 hk with heq | hk
      · cases heq
        rfl
      · exact absurd ((hon _ hc).1 ▸ hc') (hno _ _ hk)
    · rcases mem_cons.1 hk with heq | hk
      · cases heq
        exact absurd ((hon _ hc').1 ▸ hc) (hno _ _ hj)
      · exact hP.once _ _ _ _ _ (mem_cons_of_mem hj) (mem_cons_of_mem hk) hc hc'

/-- `i` is not in the middle of something that a token tells. -/
def Act.calm : Act → Bool
  | lent _ => false
  | work _ _ _ true => false
  | _ => true

theorem dying_calm (ha : a.calm = true) : Dying (.me i a ::ₘ M) q ↔ Dying M q := by
  refine exists_congr fun j => exists_congr fun x => exists_congr fun reap => ?_
  rw [mem_cons]
  refine or_iff_right fun heq => ?_
  cases heq
  cases ha

theorem dying_other {dying : Bool} (hp : p ≠ q) (h : Dying (.me i (.work q x reap dying) ::ₘ M) p) :
    Dying M p := by
  obtain ⟨j, y, c, hj⟩ := h
  rcases mem_cons.1 hj with heq | hj
  · cases heq
    exact absurd rfl hp
  · exact ⟨j, y, c, hj⟩

theorem keys_me (hL : Ledger L (.me i a ::ₘ M) s) : ((Tok.me i a' ::ₘ M).map Tok.key).Nodup := by
  have := hL.keys
  rw [map_cons] at this ⊢
  exact this

theorem Spaces.calm {dirs : Frame → Space} (hS : Spaces (.me i a ::ₘ M) dirs) (ha : a.calm = true) :
    Spaces (.me i a' ::ₘ M) dirs := by
  refine ⟨fun d h S e ht => ?_, fun d S n ht => hS.torn d S n (by simpa using ht)⟩
  obtain ⟨hd, hh⟩ := hS.space d h S e (by simpa using ht)
  refine ⟨hd, hh.imp_right fun ⟨p, hp, hlent⟩ => ⟨p, hp, ?_⟩⟩
  rcases mem_cons.1 hlent with heq | hlent
  · cases heq
    cases ha
  · exact mem_cons_of_mem hlent

/-- A change to one process in which no page directory and no stack gets a new owner. -/
theorem Ledger.act (hL : Ledger L (.me i a ::ₘ M) s) (ha : a.calm = true) (ha' : a'.calm = true)
    (hno : ∀ j c, .me j c ∈ M → c.on j ≠ some q) (hy : y.Ok)
    (hon : ∀ q', a'.on i = some q' → q' = q ∧ a'.Sees i y)
    (hdir : y.Settled → (s.procs q).Settled ∧ y.pgdir = (s.procs q).pgdir)
    (hstack : y.kstack = none ∨ y.kstack = (s.procs q).kstack) :
    Ledger L (.me i a' ::ₘ M) (s.withProc q y) := by
  refine hL.move (fun _ h => h) ⟨fun k hk => by rw [mem_plain rfl hk, mem_plain rfl hk],
    fun h d hd => ⟨h, ?_, rfl⟩, fun p f hk hdy => ?_, rfl, rfl, rfl, rfl⟩ (keys_me hL)
    (hL.people.update a' hno hy hon) (hL.spaces.calm ha).space
  · rcases hd.of_withProc with ⟨rfl, hs, hd⟩ | ⟨rfl, S, e, hd⟩ | ⟨-, -, hd⟩
    · exact .proc (hdir hs).1 ((hdir hs).2 ▸ hd)
    · exact .call (by simpa using hd)
    · exact hd _
  · rw [dying_calm ha'] at hdy
    refine ⟨?_, fun h => hdy ((dying_calm ha).1 h)⟩
    by_cases hp : p = q
    · rw [hp, withProc_self] at hk
      rcases hstack with hs | hs
      · rw [hs] at hk
        cases hk
      · rw [hp, ← hs, hk]
    · rw [withProc_ne hp] at hk
      exact hk

theorem Ledger.turn (hL : Ledger L (.me i a ::ₘ M) s) (ha : a.calm = true) (ha' : a'.calm = true)
    (hno : ∀ j c, .me j c ∈ M → c.on j ≠ some q)
    (hon : ∀ q', a'.on i = some q' → q' = q ∧ a'.Sees i (s.procs q)) :
    Ledger L (.me i a' ::ₘ M) s := by
  have := hL.act ha ha' hno (hL.people.ok q) hon (fun hs => ⟨hs, rfl⟩) (.inr rfl)
  rwa [St.withProc, update_eq_self] at this

/-- A process that is alive has a page directory. -/
theorem Ledger.begin (hL : Ledger L (.me p .plain ::ₘ M) s) (hlive : (s.procs p).status = .live) :
    ∃ d, (s.procs p).pgdir = some d ∧ Ledger L (.me p (.busy d) ::ₘ M) s := by
  obtain ⟨d, hd⟩ := Option.ne_none_iff_exists'.1 ((hL.people.ok p).settled (.inl hlive))
  refine ⟨d, hd, hL.turn rfl rfl (fun j c hj => hL.nobody_of_status (.inr (.inl ⟨hlive, rfl⟩)) hj)
    fun q' hq' => ?_⟩
  cases hq'
  exact ⟨rfl, hlive, hd⟩

theorem Ledger.rest (hL : Ledger L (.me i a ::ₘ M) s) (ha : a.calm = true) (hq : a.on i = some q) :
    Ledger L (.me i .plain ::ₘ M) s :=
  hL.turn ha rfl (fun _ _ hj => hL.nobody hq hj) nofun

theorem Ledger.unlent {k : Tok} (hL : Ledger L M s) (hd : DirOf M s (.proc p) d)
    (hno : .me p (.lent d) ∉ M) (hk : k ∈ M) :
    k.key ≠ .frame d := by
  intro heq
  cases k with
  | me i a => cases heq
  | fd b w => cases heq
  | held f =>
    cases heq
    have := (hL.apart _ _ (.dir hd)).2 _ (.held hk)
    cases this
  | torn d' S n =>
    cases heq
    have := (hL.apart _ _ (.dir hd)).2 _ (.torn hk)
    cases this
  | space d' h S e =>
    cases heq
    have := (hL.apart _ _ (.dir hd)).2 _ (.dir (hL.dirOf hk))
    cases this
    rcases (hL.spaces.space _ _ _ _ hk).2 with h | ⟨p', hp', hlent⟩
    · cases h
    · cases hp'
      exact hno hlent

theorem Ledger.busy (hL : Ledger L (.me p (.busy d) ::ₘ M) s) :
    (s.procs p).status = .live ∧ (s.procs p).pgdir = some d ∧
    .me p (.lent d) ∉ Tok.me p (.busy d) ::ₘ M := by
  obtain ⟨hlive, hd⟩ := hL.people.knows p _ p (mem_cons_self ..) rfl
  refine ⟨hlive, hd, fun hmem => ?_⟩
  rcases mem_cons.1 hmem with heq | hmem
  · cases heq
  · exact hL.no_other hmem rfl

theorem Ledger.lend (hL : Ledger L (.me p (.busy d) ::ₘ M) s) :
    Ledger L (.space d (.proc p) (s.dirs d) none ::ₘ .me p (.lent d) ::ₘ M) s := by
  obtain ⟨hlive, hd, hno⟩ := hL.busy
  have hpeople : People (.me p (.lent d) ::ₘ M) s.procs := by
    have := hL.people.update (.lent d) (fun _ _ hj => hL.nobody rfl hj) (hL.people.ok p)
      fun q' hq' => ⟨(Option.some.inj hq').symm, hlive, hd⟩
    rwa [update_eq_self] at this
  refine hL.move (fun _ h => h) ⟨fun k hk => ?_, fun h g hg => ⟨h, hg.of_tokens (by simp), rfl⟩,
    fun q f hk hdy => ⟨hk, ?_⟩, rfl, rfl, rfl, rfl⟩ ?_
    (hpeople.mono (by simp)) fun g h S e ht => ?_
  · rw [mem_plain rfl hk, mem_plain rfl hk, mem_plain rfl hk]
  · simpa [Dying] using hdy
  · rw [map_cons, nodup_cons]
    refine ⟨fun hk => ?_, keys_me hL⟩
    obtain ⟨k, hk, heq⟩ := mem_map.1 hk
    rcases mem_cons.1 hk with rfl | hk
    · cases heq
    · exact hL.unlent (.proc (.inl hlive) hd) hno (mem_cons_of_mem hk) heq
  · rcases mem_cons.1 ht with heq | ht
    · cases heq
      exact ⟨rfl, .inr ⟨p, rfl, by simp⟩⟩
    · obtain ⟨hS, hh⟩ := hL.spaces.space g h S e (by simpa using ht)
      refine ⟨hS, hh.imp_right ?_⟩
      rintro ⟨p', hp', hlent⟩
      refine ⟨p', hp', ?_⟩
      rcases mem_cons.1 hlent with heq | hlent
      · cases heq
      · exact mem_cons_of_mem (mem_cons_of_mem hlent)

theorem Ledger.giveBack (hL : Ledger L (.space d (.proc p) S none ::ₘ .me p (.lent d) ::ₘ M) s) :
    Ledger L (.me p (.busy d) ::ₘ M) s := by
  have hkeys := hL.keys
  rw [map_cons, nodup_cons, map_cons, nodup_cons] at hkeys
  have hpeople : People (.me p (.lent d) ::ₘ M) s.procs := hL.people.mono (by simp)
  have hno : ∀ j c, .me j c ∈ M → c.on j ≠ some p := fun j c hj hc => by
    have hpj := hpeople.once _ _ _ _ _ (mem_cons_self ..) (mem_cons_of_mem hj) rfl hc
    exact hkeys.2.1 (mem_map.2 ⟨_, hj, by rw [← hpj]; rfl⟩)
  have hsees := hpeople.knows p _ p (mem_cons_self ..) rfl
  refine hL.move (fun _ h => h) ⟨fun k hk => ?_, fun h g hg => ⟨h, hg.of_tokens (by simp), rfl⟩,
    fun q f hk hdy => ⟨hk, ?_⟩, rfl, rfl, rfl, rfl⟩ ?_ ?_ fun g h S' e ht => ?_
  · rw [mem_plain rfl hk, mem_plain rfl hk, mem_plain rfl hk]
  · simpa [Dying] using hdy
  · rw [map_cons, nodup_cons]
    exact hkeys.2
  · have := hpeople.update (.busy d) hno (hpeople.ok p) fun q' hq' =>
      ⟨(Option.some.inj hq').symm, hsees⟩
    rwa [update_eq_self] at this
  · have ht : .space g h S' e ∈ M := by simpa using ht
    obtain ⟨hS, hh⟩ := hL.spaces.space g h S' e (by simpa using .inr ht)
    refine ⟨hS, hh.imp_right ?_⟩
    rintro ⟨p', hp', hlent⟩
    refine ⟨p', hp', ?_⟩
    have hlent : .me p' (.lent g) ∈ Tok.me p (.lent d) ::ₘ M := by simpa using hlent
    rcases mem_cons.1 hlent with heq | hlent
    · -- there is one token for `d`
      cases heq
      exact absurd (mem_cons_of_mem (mem_map.2 ⟨_, ht, rfl⟩)) hkeys.1
    · exact mem_cons_of_mem hlent

/-- `exec` changes the page directory of the process. -/
theorem Ledger.swap {d0 : Frame}
    (hL : Ledger L (.me p (.busy d0) ::ₘ .space d .call S none ::ₘ M) s) {n : Nat} :
    Ledger L (.me p (.busy d) ::ₘ .space d0 .call (s.dirs d0) none ::ₘ M)
      (s.withProc p { s.procs p with pgdir := some d, sz := n }) := by
  obtain ⟨hlive, hd0, hno⟩ := hL.busy
  have hold : DirOf (.me p (.busy d0) ::ₘ .space d .call S none ::ₘ M) s (.proc p) d0 :=
    .proc (.inl hlive) hd0
  have hnew : DirOf (.me p (.busy d0) ::ₘ .space d .call S none ::ₘ M) s .call d := .call (S := S)
    (e := none) (by simp)
  have hne : d0 ≠ d := hL.dir_ne hnew hold (by simp)
  have hkey : ∀ k ∈ M, k.key ≠ .frame d ∧ k.key ≠ .frame d0 := fun k hk => by
    refine ⟨fun heq => ?_, hL.unlent hold hno (by simp [hk])⟩
    have := hL.keys
    rw [map_cons, nodup_cons, map_cons, nodup_cons] at this
    exact this.2.1 (mem_map.2 ⟨k, hk, heq⟩)
  refine hL.move (fun g h => if g = d then .proc p else if g = d0 then .call else h)
    ⟨fun k hk => ?_, fun h g hg => ?_, fun q f hk hdy => ?_, rfl, rfl, rfl, rfl⟩ ?_ ?_
    fun g h S' e ht => ?_
  · rw [mem_plain rfl hk, mem_plain rfl hk, mem_plain rfl hk, mem_plain rfl hk]
  · rcases hg.of_withProc with ⟨rfl, -, hg⟩ | ⟨rfl, S', e, hg⟩ | ⟨hcall, hp, hg⟩
    · cases hg
      exact ⟨_, hnew, by rw [if_pos rfl]⟩
    · have hg : (g = d0 ∧ S' = s.dirs d0 ∧ e = none) ∨ .space g .call S' e ∈ M := by simpa using hg
      rcases hg with ⟨rfl, -, -⟩ | hg
      · exact ⟨_, hold, by rw [if_neg hne, if_pos rfl]⟩
      · obtain ⟨hd, hd0⟩ := hkey _ hg
        exact ⟨_, .call (by simpa using .inr hg),
          by rw [if_neg fun heq => hd (by rw [heq]; rfl), if_neg fun heq => hd0 (by rw [heq]; rfl)]⟩
    · -- a page directory other than these two keeps its owner
      exact ⟨_, hg _, by
        rw [if_neg (hL.dir_ne hnew (hg _) hcall), if_neg (hL.dir_ne hold (hg _) hp)]⟩
  · refine ⟨?_, fun h => hdy (by simpa [Dying] using h)⟩
    by_cases hq : q = p
    · rw [hq, withProc_self] at hk
      rw [hq]
      exact hk
    · rw [withProc_ne hq] at hk
      exact hk
  · have hkeys := hL.keys
    simp only [map_cons, nodup_cons, mem_cons, not_or] at hkeys ⊢
    refine ⟨⟨by rintro ⟨⟩, hkeys.1.2⟩, fun hk => ?_, hkeys.2.2⟩
    obtain ⟨k, hk, heq⟩ := mem_map.1 hk
    exact (hkey k hk).2 heq
  · have hP := hL.people.update (.busy d) (q := p)
      (y := { s.procs p with pgdir := some d, sz := n }) (fun _ _ hj => hL.nobody rfl hj)
      ⟨fun _ => by simp, (hL.people.ok p).stack, (hL.people.ok p).orphan⟩ fun q' hq' =>
        ⟨(Option.some.inj hq').symm, hlive, rfl⟩
    exact hP.mono (by simp)
  · have ht : (g = d0 ∧ h = .call ∧ S' = s.dirs d0 ∧ e = none) ∨ .space g h S' e ∈ M := by
      simpa using ht
    rcases ht with ⟨rfl, rfl, rfl, rfl⟩ | ht
    · exact ⟨rfl, .inl rfl⟩
    · simpa using hL.spaces.space g h S' e (by simpa using .inr ht)

theorem Ledger.start (hL : Ledger L (.me i (.work q x false false) ::ₘ .space d .call S none ::ₘ M)
    s) (hy : y.status = .live)
    (hd : y.pgdir = some d) (hk : y.kstack = x.kstack) (hx : x.kstack ≠ none) :
    Ledger L (.me i .plain ::ₘ M) (s.withProc q y) := by
  obtain ⟨hq, hemb⟩ := hL.people.knows i _ q (mem_cons_self ..) rfl
  have hnew : DirOf (.me i (.work q x false false) ::ₘ .space d .call S none ::ₘ M) s .call d :=
    .call (S := S) (e := none) (by simp)
  have hkeys := hL.keys
  simp only [map_cons, nodup_cons, mem_cons, not_or] at hkeys
  refine hL.move (fun g h => if g = d then .proc q else h) ⟨fun k hk => ?_, fun h g hg => ?_,
    fun p f hkp hdy => ?_, rfl, rfl, rfl, rfl⟩
    ?_ ?_ fun g h S' e ht => ?_
  · rw [mem_plain rfl hk, mem_plain rfl hk, mem_plain rfl hk]
  · rcases hg.of_withProc with ⟨rfl, -, hg⟩ | ⟨rfl, S', e, hg⟩ | ⟨hcall, -, hg⟩
    · cases hd.symm.trans hg
      exact ⟨_, hnew, by rw [if_pos rfl]⟩
    · have hg : .space g .call S' e ∈ M := by simpa using hg
      exact ⟨_, .call (by simpa using .inr hg),
        by rw [if_neg fun heq => hkeys.2.1 (mem_map.2 ⟨_, hg, by rw [heq]; rfl⟩)]⟩
    · exact ⟨_, hg _, by rw [if_neg (hL.dir_ne hnew (hg _) hcall)]⟩
  · refine ⟨?_, fun h => hdy (by simpa [Dying] using h)⟩
    by_cases hp : p = q
    · rw [hp, withProc_self, hk] at hkp
      rw [hp, hq]
      exact hkp
    · rw [withProc_ne hp] at hkp
      exact hkp
  · rw [map_cons, nodup_cons]
    exact ⟨hkeys.1.2, hkeys.2.2⟩
  · have hP := hL.people.update .plain (q := q) (y := y) (fun _ _ hj => hL.nobody rfl hj)
      ⟨fun _ => by rw [hd]; simp, fun _ => hk ▸ hx,
        fun h => by rw [hy] at h; rcases h with h | h <;> cases h⟩ (by rintro _ ⟨⟩)
    exact hP.mono (by simp)
  · simpa using hL.spaces.space g h S' e (by simpa using .inr (by simpa using ht))

theorem Ledger.setKernel (hL : Ledger L (.space d .call S none ::ₘ M) s) :
    Ledger L M { s with kpgdir := some d } := by
  have hnew : DirOf (.space d .call S none ::ₘ M) s .call d := .call (S := S) (e := none) (by simp)
  have hkeys := hL.keys
  rw [map_cons, nodup_cons] at hkeys
  refine hL.move (fun g h => if g = d then .kernel else h) ⟨fun k hk => (mem_plain rfl hk).symm,
    fun h g hg => ?_,
    fun p f hk hdy => ⟨hk, fun h => hdy (by simpa [Dying] using h)⟩, rfl, rfl, rfl, rfl⟩
    hkeys.2 (hL.people.mono (by simp)) fun g h S' e ht => ?_
  · cases hg with
    | kernel hg =>
      cases hg
      exact ⟨_, hnew, by rw [if_pos rfl]⟩
    | proc hs hg => exact ⟨_, .proc hs hg, by rw [if_neg (hL.dir_ne hnew (.proc hs hg) (by simp))]⟩
    | @call g S' e hg =>
      have hgd : g ≠ d := fun heq => hkeys.1 (mem_map.2 ⟨_, hg, by rw [heq]; rfl⟩)
      exact ⟨_, .call (mem_cons_of_mem hg), by rw [if_neg hgd]⟩
  · simpa using hL.spaces.space g h S' e (mem_cons_of_mem ht)

theorem Ledger.addStack (hL : Ledger L (.me i (.work q x false false) ::ₘ M) s)
    (hf : Fresh L (.me i (.work q x false false) ::ₘ M) s f) :
    Ledger L (.me i (.work q { x with kstack := some f } false false) ::ₘ M)
      (s.withProc q { x with kstack := some f }) := by
  obtain ⟨hq, hemb⟩ := hL.people.knows i _ q (mem_cons_self ..) rfl
  have hemb : x.status = .embryo := hemb
  have hset : ¬ Proc.Settled { x with kstack := some f } :=
    not_settled (by simp [hemb]) (by simp [hemb])
  have hok := hL.people.ok q
  rw [hq] at hok
  refine ⟨keys_me hL, hL.apart.add hf (r := .kstack q) fun r g hr => ?_, hL.nodup,
    hL.spaces.calm rfl,
    hL.people.update _ (fun _ _ hj => hL.nobody rfl hj) ⟨fun h => absurd h hset, fun _ => nofun,
      hok.orphan⟩ fun q' hq' => ?_, hL.pipes.mono (by simp)⟩
  · have hdir : ∀ {h d}, DirOf (.me i (.work q { x with kstack := some f } false false) ::ₘ M)
      (s.withProc q { x with kstack := some f }) h d →
        DirOf (.me i (.work q x false false) ::ₘ M) s h d := fun hd => by
      rcases hd.of_withProc with ⟨-, hs, -⟩ | ⟨rfl, S, e, hd⟩ | ⟨-, -, hd⟩
      · exact absurd hs hset
      · exact .call (by simpa using hd)
      · exact hd _
    cases hr with
    | free hg => exact .inr (.free hg)
    | held hg => exact .inr (.held (by simpa using hg))
    | torn ht => exact .inr (.torn (by simpa using ht))
    | tornTable ht hi hS => exact .inr (.tornTable (by simpa using ht) hi hS)
    | dir hd => exact .inr (.dir (hdir hd))
    | table hd hS => exact .inr (.table (hdir hd) hS)
    | page hd hS hno =>
      exact .inr (.page (hdir hd) hS fun h' S' ht => hno h' S' (by simpa using ht))
    | @kstack p g hk hdy =>
      by_cases hp : p = q
      · rw [hp, withProc_self] at hk
        cases hk
        exact .inl ⟨rfl, by rw [hp]⟩
      · rw [withProc_ne hp] at hk
        refine .inr (.kstack hk fun h => hdy ?_)
        rw [dying_calm rfl] at h ⊢
        exact h
    | fd ht => exact .inr (.fd (by simpa using ht))
    | file hk => exact .inr (.file hk)
  · cases hq'
    exact ⟨rfl, rfl, hemb⟩

/-- `kfree(p->kstack)`: the entry does not count any more. -/
theorem Ledger.dropStack (hL : Ledger L (.me i (.work q x reap false) ::ₘ M) s)
    (hf : x.kstack = some f) :
    Ledger L (.me i (.work q x reap true) ::ₘ M) s ∧
    Fresh L (.me i (.work q x reap true) ::ₘ M) s f := by
  have hsees := hL.people.knows i _ q (mem_cons_self ..) rfl
  have hnot : ¬ Dying M q := fun ⟨j, y, c, hj⟩ => hL.nobody rfl hj rfl
  have hT : Moves (fun _ h => h) (.me i (.work q x reap false) ::ₘ M) s
      (.me i (.work q x reap true) ::ₘ M) s := by
    refine ⟨fun k hk => by rw [mem_plain rfl hk, mem_plain rfl hk],
      fun h d hd => ⟨h, hd.of_tokens (by simp), rfl⟩,
      fun p g hk hdy => ⟨hk, fun h => hdy ?_⟩, rfl, rfl, rfl, rfl⟩
    obtain ⟨j, y, c, hj⟩ := (dying_calm rfl).1 h
    exact ⟨j, y, c, mem_cons_of_mem hj⟩
  refine ⟨hL.move _ hT (keys_me hL) ?_ (hL.spaces.calm rfl).space,
    hL.apart.fresh (.kstack (hsees.1 ▸ hf) fun h => hnot ((dying_calm rfl).1 h))
    (fun r g hr => ?_) fun hr => ?_⟩
  · have := hL.people.update (.work q x reap true) (fun _ _ hj => hL.nobody rfl hj)
      (hL.people.ok q) fun q' hq' =>
      ⟨(Option.some.inj hq').symm, hsees⟩
    rwa [update_eq_self] at this
  · obtain ⟨r0, hr0, rfl⟩ := hr.move hT
    rwa [Role.move_id]
  · cases hr with
    | kstack hk hdy => exact hdy ⟨i, x, reap, mem_cons_self ..⟩

/-- `p->kstack = 0`, in `fork`. -/
theorem Ledger.clearStack (hL : Ledger L (.me i (.work q x false true) ::ₘ M) s) :
    Ledger L (.me i (.work q { x with kstack := none } false false) ::ₘ M)
      (s.withProc q { x with kstack := none }) := by
  obtain ⟨hq, hemb⟩ := hL.people.knows i _ q (mem_cons_self ..) rfl
  have hemb : x.status = .embryo := hemb
  have hset : ¬ Proc.Settled { x with kstack := none } := not_settled (by simp [hemb]) fun _ => rfl
  have hok := hL.people.ok q
  rw [hq] at hok
  refine hL.move (fun _ h => h) ⟨fun k hk => by rw [mem_plain rfl hk, mem_plain rfl hk],
    fun h d hd => ⟨h, ?_, rfl⟩, fun p g hk hdy => ?_, rfl, rfl, rfl, rfl⟩ (keys_me hL)
      (hL.people.update _ (fun _ _ hj => hL.nobody rfl hj) ⟨fun h => absurd h hset, fun h => ?_,
        hok.orphan⟩ fun q' hq' => ?_)
      fun g h S e ht => ?_
  · rcases hd.of_withProc with ⟨-, hs, -⟩ | ⟨rfl, S, e, hd⟩ | ⟨-, -, hd⟩
    · exact absurd hs hset
    · exact .call (by simpa using hd)
    · exact hd _
  · by_cases hp : p = q
    · rw [hp, withProc_self] at hk
      cases hk
    · rw [withProc_ne hp] at hk
      exact ⟨hk, fun h => hdy ((dying_calm rfl).2 (dying_other hp h))⟩
  · rw [show ({ x with kstack := none } : Proc).status = .embryo from hemb] at h
    cases h
  · cases hq'
    exact ⟨rfl, rfl, hemb⟩
  · simpa using hL.spaces.space g h S e (by simpa using ht)

/-- `p->kstack = 0`, in `wait`: from here on the page directory is the call's. -/
theorem Ledger.takeOver (hL : Ledger L (.me i (.work q x true true) ::ₘ M) s)
    (hk : x.kstack ≠ none) :
    ∃ d, x.pgdir = some d ∧
      Ledger L (.me i (.work q { x with kstack := none } true false) ::ₘ .space d .call
        (s.dirs d) none ::ₘ M)
        (s.withProc q { x with kstack := none }) := by
  obtain ⟨hq, hz, hpar⟩ : s.procs q = x ∧ x.status = .zombie ∧ x.parent = some i :=
    hL.people.knows i _ q (mem_cons_self ..) rfl
  have hset : (s.procs q).Settled := .inr ⟨hq ▸ hz, hq ▸ hk⟩
  have hset' : ¬ Proc.Settled { x with kstack := none } := not_settled (by simp [hz]) fun _ => rfl
  obtain ⟨d, hd⟩ := Option.ne_none_iff_exists'.1 ((hL.people.ok q).settled hset)
  have hold : DirOf (.me i (.work q x true true) ::ₘ M) s (.proc q) d := .proc hset hd
  have hno : .me q (.lent d) ∉ Tok.me i (.work q x true true) ::ₘ M := fun hmem => by
    obtain ⟨hlive, -⟩ : (s.procs q).status = .live ∧ (s.procs q).pgdir = some d :=
      hL.people.knows q _ q hmem rfl
    rw [hq, hz] at hlive
    cases hlive
  have hkey : ∀ k ∈ M, k.key ≠ .frame d := fun k hk => hL.unlent hold hno (mem_cons_of_mem hk)
  refine ⟨d, hq ▸ hd, hL.move (fun g h => if g = d then .call else h)
    ⟨fun k hk => ?_, fun h g hg => ?_, fun p g hk hdy => ?_, rfl, rfl, rfl, rfl⟩ ?_ ?_
    fun g h S e ht => ?_⟩
  · rw [mem_plain rfl hk, mem_plain rfl hk, mem_plain rfl hk]
  · rcases hg.of_withProc with ⟨-, hs, -⟩ | ⟨rfl, S, e, hg⟩ | ⟨-, hp, hg⟩
    · exact absurd hs hset'
    · have hg : (g = d ∧ S = s.dirs d ∧ e = none) ∨ .space g .call S e ∈ M := by simpa using hg
      rcases hg with ⟨rfl, -, -⟩ | hg
      · exact ⟨_, hold, by rw [if_pos rfl]⟩
      · exact ⟨_, .call (mem_cons_of_mem hg),
          by rw [if_neg fun heq => hkey _ hg (by rw [heq]; rfl)]⟩
    · exact ⟨_, hg _, by rw [if_neg (hL.dir_ne hold (hg _) hp)]⟩
  · by_cases hp : p = q
    · rw [hp, withProc_self] at hk
      cases hk
    · rw [withProc_ne hp] at hk
      exact ⟨hk, fun h => hdy (by simpa [Dying] using dying_other hp h)⟩
  · have hkeys := hL.keys
    simp only [map_cons, nodup_cons, mem_cons, not_or] at hkeys ⊢
    refine ⟨⟨by rintro ⟨⟩, hkeys.1⟩, fun hk => ?_, hkeys.2⟩
    obtain ⟨k, hk, heq⟩ := mem_map.1 hk
    exact hkey k hk heq
  · have hP := hL.people.update (.work q { x with kstack := none } true false)
      (y := { x with kstack := none })
      (fun _ _ hj => hL.nobody rfl hj) ⟨fun h => absurd h hset', fun h => ?_,
        fun h => ?_⟩ fun q' hq' =>
      ⟨(Option.some.inj hq').symm, rfl, hz, hpar⟩
    · exact hP.mono (by simp)
    · rw [hz] at h
      cases h
    · rw [hz] at h
      rcases h with h | h <;> cases h
  · have ht : (g = d ∧ h = .call ∧ S = s.dirs d ∧ e = none) ∨ .space g h S e ∈ M := by
      simpa using ht
    rcases ht with ⟨rfl, rfl, rfl, rfl⟩ | ht
    · exact ⟨rfl, .inl rfl⟩
    · simpa using hL.spaces.space g h S e (mem_cons_of_mem ht)

/-- The children of a process that exits go to `initproc`. -/
theorem Ledger.reparent (hL : Ledger L (.me p (.busy d) ::ₘ M) s) : Ledger L (.me p (.busy d) ::ₘ M)
    { s with
      procs := fun q =>
        if (s.procs q).parent = some p then { s.procs q with parent := some 0 }
        else s.procs q } := by
  -- a process without a parent, or with another one, stays as it is
  have hsame : ∀ {P : Proc → Prop} q, (∀ y r, P y → P { y with parent := r }) → P (s.procs q) →
      P (if (s.procs q).parent = some p then { s.procs q with parent := some 0 } else s.procs q) :=
        fun q hP hq => by
    split
    · exact hP _ _ hq
    · exact hq
  refine hL.move (fun _ h => h) ⟨fun k _ => Iff.rfl, fun h g hg => ⟨h, ?_, rfl⟩,
    fun q f hk hdy => ⟨?_, hdy⟩, rfl, rfl, rfl, rfl⟩ hL.keys
    ⟨fun q => ?_, fun i a q hi hq => ?_, hL.people.once⟩ hL.spaces.space
  · cases hg with
    | kernel hg => exact .kernel hg
    | @proc q g hs hg =>
      dsimp only at hs hg
      split at hs
      · rename_i hpar
        rw [if_pos hpar] at hg
        exact .proc hs hg
      · rename_i hpar
        rw [if_neg hpar] at hg
        exact .proc hs hg
    | call hg => exact .call hg
  · dsimp only at hk
    split at hk
    · exact hk
    · exact hk
  · dsimp only
    split
    · rename_i hpar
      refine ⟨(hL.people.ok q).settled, (hL.people.ok q).stack, fun h => ?_⟩
      have := (hL.people.ok q).orphan h
      rw [hpar] at this
      cases this
    · exact hL.people.ok q
  · have hsees := hL.people.knows i a q hi hq
    dsimp only
    cases a with
    | plain => trivial
    | busy d' => exact hsame q (fun _ _ h => h) hsees
    | lent d' => exact hsame q (fun _ _ h => h) hsees
    | work q' x reap dying =>
      cases hq
      rw [if_neg fun hpar => ?_]
      · exact hsees
      · cases reap with
        | false =>
          have := (hL.people.ok q).orphan (.inr (hsees.1 ▸ hsees.2))
          rw [hpar] at this
          cases this
        | true =>
          obtain ⟨hx, -, hpar'⟩ : s.procs q = x ∧ x.status = .zombie ∧ x.parent = some i := hsees
          rw [hx, hpar'] at hpar
          cases hpar
          have hi : .me p (.work q x true dying) ∈ M := by simpa using hi
          exact hL.no_other hi rfl

end Act

/-! ## Pipes -/

def Tok.isFd : Tok → Bool
  | fd .. => true
  | _ => false

theorem mem_fd {k : Tok} (hk : k.isFd = false) : k ∈ Tok.fd b w ::ₘ M ↔ k ∈ M := by
  rw [mem_cons]
  refine or_iff_right fun heq => ?_
  rw [heq] at hk
  cases hk

/-- Only files and ends of pipes change. -/
structure Pipeline (M : Multiset Tok) (s : St) (M' : Multiset Tok) (s' : St) : Prop where
  tokens : ∀ k, k.isFd = false → (k ∈ M' ↔ k ∈ M)
  freelist : s'.freelist = s.freelist
  dirs : s'.dirs = s.dirs
  kpgdir : s'.kpgdir = s.kpgdir
  procs : s'.procs = s.procs

theorem Rec.of_pipeline (hT : Pipeline M s M' s') (hr : Rec M' s' r g) :
    (r = .pipe ∧ ((∃ k w, (s'.ftable k).pipe = some (g, w)) ∨ ∃ w, .fd g w ∈ M')) ∨
    Rec M s r g := by
  have hM : ∀ {k}, k.isFd = false → k ∈ M' → k ∈ M := fun hk => (hT.tokens _ hk).1
  have hdir : ∀ {h d}, DirOf M' s' h d → DirOf M s h d := fun hd => by
    cases hd with
    | kernel hd => exact .kernel (hT.kpgdir ▸ hd)
    | proc hs hd => exact .proc (hT.procs ▸ hs) (hT.procs ▸ hd)
    | call hd => exact .call (hM rfl hd)
  cases hr with
  | free hg => exact .inr (.free (hT.freelist ▸ hg))
  | held hg => exact .inr (.held (hM rfl hg))
  | torn ht => exact .inr (.torn (hM rfl ht))
  | tornTable ht hi hS => exact .inr (.tornTable (hM rfl ht) hi hS)
  | dir hd => exact .inr (.dir (hdir hd))
  | table hd hS => exact .inr (.table (hdir hd) (hT.dirs ▸ hS))
  | page hd hS hno =>
    exact .inr (.page (hdir hd) (hT.dirs ▸ hS) fun h' S' ht => hno h' S' ((hT.tokens _ rfl).2 ht))
  | kstack hk hno =>
    exact .inr (.kstack (hT.procs ▸ hk) fun ⟨i, x, c, ht⟩ => hno ⟨i, x, c, (hT.tokens _ rfl).2 ht⟩)
  | fd ht => exact .inl ⟨rfl, .inr ⟨_, ht⟩⟩
  | file hk => exact .inl ⟨rfl, .inl ⟨_, _, hk⟩⟩

theorem Ledger.pipeline (hL : Ledger L M s) (hT : Pipeline M s M' s')
    (hkeys : (M'.map Tok.key).Nodup) (hA : Apart L M' s')
    (hP : Pipes M' s'.isopen s'.ftable) : Ledger L M' s' where
  keys := hkeys
  apart := hA
  nodup := hT.freelist ▸ hL.nodup
  spaces := by
    refine ⟨fun d h S e ht => ?_,
      fun d S n ht => hT.dirs ▸ hL.spaces.torn d S n ((hT.tokens _ rfl).1 ht)⟩
    obtain ⟨hS, hh⟩ := hL.spaces.space d h S e ((hT.tokens _ rfl).1 ht)
    exact ⟨hT.dirs ▸ hS, hh.imp_right fun ⟨p, hp, hlent⟩ => ⟨p, hp, (hT.tokens _ rfl).2 hlent⟩⟩
  people := by
    rw [hT.procs]
    exact hL.people.mono fun i a ht => (hT.tokens _ rfl).1 ht
  pipes := hP

variable {k k' : Fin NFILE} {y : File}

theorem withFile_self : (s.withFile k y).ftable k = y := update_self ..

theorem withFile_ne (hne : k' ≠ k) : (s.withFile k y).ftable k' = s.ftable k' := update_of_ne hne ..

/-- A reference count, or a file that has no pipe any more. -/
theorem Ledger.setRef (hL : Ledger L M s) (hy : y.pipe = none ∨ y.pipe = (s.ftable k).pipe) :
    Ledger L M (s.withFile k y) := by
  have hT : Pipeline M s M (s.withFile k y) := ⟨fun _ _ => Iff.rfl, rfl, rfl, rfl, rfl⟩
  have hfile : ∀ k' b w, ((s.withFile k y).ftable k').pipe = some (b, w) →
      (s.ftable k').pipe = some (b, w) := by
    intro k' b w hk'
    by_cases hne : k' = k
    · rw [hne, withFile_self] at hk'
      rcases hy with hy | hy
      · rw [hy] at hk'
        cases hk'
      · rw [hne, ← hy, hk']
    · rwa [withFile_ne hne] at hk'
  refine hL.pipeline hT hL.keys (hL.apart.mono fun r g hr => ?_) ⟨hL.pipes.fd, fun k' b w hk' => ?_⟩
  · rcases hr.of_pipeline hT with ⟨rfl, ⟨k', w, hk'⟩ | ⟨w, ht⟩⟩ | hr
    · exact .file (hfile _ _ _ hk')
    · exact .fd ht
    · exact hr
  · obtain ⟨hopen, hno, honce⟩ := hL.pipes.file k' b w (hfile _ _ _ hk')
    exact ⟨hopen, hno, fun k'' hk'' => honce k'' (hfile _ _ _ hk'')⟩

theorem key_fd {t : Tok} (h : t.key = .fd b w) : t = .fd b w := by
  cases t <;> cases h
  rfl

theorem Ledger.dropFile (hL : Ledger L M s) (hk : (s.ftable k).pipe = some (b, w)) :
    Ledger L (.fd b w ::ₘ M) (s.withFile k ⟨0, .none⟩) := by
  have hT : Pipeline M s (.fd b w ::ₘ M) (s.withFile k ⟨0, .none⟩) :=
    ⟨fun _ ht => mem_fd ht, rfl, rfl, rfl, rfl⟩
  obtain ⟨hopen, hno, honce⟩ := hL.pipes.file k b w hk
  have hother : ∀ k' b' w', ((s.withFile k ⟨0, .none⟩).ftable k').pipe = some (b', w') →
      k' ≠ k ∧ (s.ftable k').pipe = some (b', w') := by
    intro k' b' w' hk'
    have hne : k' ≠ k := fun heq => by
      rw [heq, withFile_self] at hk'
      cases hk'
    rw [withFile_ne hne] at hk'
    exact ⟨hne, hk'⟩
  refine hL.pipeline hT ?_ (hL.apart.mono fun r g hr => ?_)
    ⟨fun b' w' ht => ?_, fun k' b' w' hk' => ?_⟩
  · rw [map_cons, nodup_cons]
    refine ⟨fun hmem => ?_, hL.keys⟩
    obtain ⟨t, ht, heq⟩ := mem_map.1 hmem
    exact hno (key_fd heq ▸ ht)
  · rcases hr.of_pipeline hT with ⟨rfl, ⟨k', w, hk'⟩ | ⟨w', ht⟩⟩ | hr
    · exact .file (hother _ _ _ hk').2
    · rcases mem_cons.1 ht with heq | ht
      · cases heq
        exact .file hk
      · exact .fd ht
    · exact hr
  · rcases mem_cons.1 ht with heq | ht
    · cases heq
      exact hopen
    · exact hL.pipes.fd b' w' ht
  · obtain ⟨hne, hk'⟩ := hother _ _ _ hk'
    obtain ⟨hopen', hno', honce'⟩ := hL.pipes.file k' b' w' hk'
    refine ⟨hopen', fun ht => ?_, fun k'' hk'' => honce' k'' (hother _ _ _ hk'').2⟩
    rcases mem_cons.1 ht with heq | ht
    · cases heq
      exact hne (honce k' hk')
    · exact hno' ht

variable {o : Frame → Bool → Bool}

/-- An end is closed; if it was the second, nobody has the pipe any more. -/
theorem Ledger.closeEnd (hL : Ledger L (.fd b w ::ₘ M) s)
    (ho : o = Function.update s.isopen b (Function.update (s.isopen b) w false)) :
    Ledger L M { s with isopen := o } ∧
      ((∀ w', o b w' = false) → Fresh L M { s with isopen := o } b) := by
  have hT : Pipeline (.fd b w ::ₘ M) s M { s with isopen := o } :=
    ⟨fun _ ht => (mem_fd ht).symm, rfl, rfl, rfl, rfl⟩
  have hkeys := hL.keys
  rw [map_cons, nodup_cons] at hkeys
  have hstill : ∀ b' w', (b', w') ≠ (b, w) → o b' w' = s.isopen b' w' := by
    intro b' w' hne
    rw [ho]
    by_cases hb : b' = b
    · subst hb
      rw [update_self, update_of_ne fun hw => hne (by rw [hw])]
    · rw [update_of_ne hb]
  have hfd : ∀ b' w', .fd b' w' ∈ M → o b' w' = true := fun b' w' ht => by
    rw [hstill]
    · exact hL.pipes.fd b' w' (mem_cons_of_mem ht)
    · rintro heq
      cases heq
      exact hL.no_other ht rfl
  have hfile : ∀ k b' w', (s.ftable k).pipe = some (b', w') → o b' w' = true := fun k b' w' hk => by
    rw [hstill]
    · exact (hL.pipes.file k b' w' hk).1
    · rintro heq
      cases heq
      exact (hL.pipes.file k b w hk).2.1 (mem_cons_self ..)
  have hmono : ∀ r g, Rec M { s with isopen := o } r g → Rec (.fd b w ::ₘ M) s r g :=
    fun r g hr => by
    rcases hr.of_pipeline hT with ⟨rfl, ⟨k, w, hk⟩ | ⟨w, ht⟩⟩ | hr
    · exact .file hk
    · exact .fd (mem_cons_of_mem ht)
    · exact hr
  refine ⟨hL.pipeline hT hkeys.2 (hL.apart.mono hmono) ⟨hfd, fun k b' w' hk => ?_⟩,
    fun hclosed => hL.apart.fresh (.fd (mem_cons_self ..)) hmono fun hr => ?_⟩
  · obtain ⟨-, hno, honce⟩ := hL.pipes.file k b' w' hk
    exact ⟨hfile k b' w' hk, fun ht => hno (mem_cons_of_mem ht), honce⟩
  · cases hr with
    | fd ht => exact Bool.false_ne_true ((hclosed _).symm.trans (hfd _ _ ht))
    | file hk => exact Bool.false_ne_true ((hclosed _).symm.trans (hfile _ _ _ hk))

theorem Ledger.newPipe (hL : Ledger L M s) (hf : Fresh L M s b) {ft : Fin NFILE → File}
    (ho : o = Function.update s.isopen b fun _ => true)
    (hft : ∀ k b' w, (ft k).pipe = some (b', w) → (b' = b ∧ ∀ k', (ft k').pipe = some (b, w) →
      k' = k) ∨ (s.ftable k).pipe = some (b', w)) :
    Ledger L M { s with isopen := o, ftable := ft } := by
  have hT : Pipeline M s M { s with isopen := o, ftable := ft } :=
    ⟨fun _ _ => Iff.rfl, rfl, rfl, rfl, rfl⟩
  have hnew : ∀ w, o b w = true := fun w => by rw [ho, update_self]
  have hold : ∀ b' w, s.isopen b' w = true → o b' w = true := fun b' w h => by
    by_cases hb : b' = b
    · rw [hb]
      exact hnew w
    · rw [ho, update_of_ne hb]
      exact h
  refine hL.pipeline hT hL.keys (hL.apart.add hf (r := .pipe) fun r g hr => ?_) ⟨fun b' w ht =>
    hold _ _ (hL.pipes.fd b' w ht), fun k b' w hk => ?_⟩
  · rcases hr.of_pipeline hT with ⟨rfl, ⟨k, w, hk⟩ | ⟨w, ht⟩⟩ | hr
    · rcases hft k g w hk with ⟨rfl, -⟩ | hk
      · exact .inl ⟨rfl, rfl⟩
      · exact .inr (.file hk)
    · exact .inr (.fd ht)
    · exact .inr hr
  · rcases hft k b' w hk with ⟨rfl, honce⟩ | hk'
    · exact ⟨hnew w, fun ht => hf.2 _ (.fd ht), honce⟩
    · obtain ⟨hopen, hno, honce⟩ := hL.pipes.file k b' w hk'
      refine ⟨hold _ _ hopen, hno, fun k' hk'' => ?_⟩
      rcases hft k' b' w hk'' with ⟨rfl, -⟩ | hk''
      · exact absurd (.file hk') (hf.2 _)
      · exact honce k' hk''

end Os4.Vm
