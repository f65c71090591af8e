import Os4.Proc.Paging
/-!
# exec.c, proc.c, file.c and pipe.c keep the ledger

Between two calls a process has one token, `me p .plain`; each call takes it and gives it back on
every way out (`memory_obeys`). What `exec` needs of an image that it loads is in the specifications
of its parts: `safe_loadSegments` keeps the new page directory `Fit`, and with that `loaduvm` finds
every page that it asks for.
-/
namespace Os4.Vm

open Prog
open Multiset (singleton_add cons_add mem_cons_self zero_le)
open Function (update update_apply)

variable {L : Layout} {strict : Prop} {P : (Fin NPROC → Option Job) → Prop} {w : Caller} {α : Type}
  {A B M : Multiset Tok}
  {Q : α → Multiset Tok → Prop} {s : St} {d f b : Frame} {S : Space} {h : Holder} {n v : Nat}
  {p q i : Fin NPROC} {x y : Proc} {wr reap : Bool}

/-! ## exec.c -/

variable {img : Image} {addr offset : Nat}

theorem safe_loadLoop {sz : Nat} (hfit : strict → 0 < sz → addr + sz ≤ KERNBASE ∧
      ∀ v ≤ (addr + sz - 1) / PGSIZE, ∃ f, S.page v = some (f, true)) :
    ∀ {fuel i : Nat}, Borrows L strict P (loadLoop .exec d addr img offset sz fuel i)
      {.space d h S none}
  | 0, _ => .ret rfl
  | fuel + 1, i => by
    unfold loadLoop
    split
    · rename_i hi
      have hpage : strict → (addr + i) % 2 ^ 32 < KERNBASE ∧
          ∃ f, S.page ((addr + i) % 2 ^ 32 / PGSIZE) = some (f, true) := fun hs => by
        obtain ⟨htop, hpages⟩ := hfit hs (by omega)
        have hva : (addr + i) % 2 ^ 32 ≤ addr + sz - 1 := (Nat.mod_le ..).trans (by omega)
        exact ⟨by omega, hpages _ (Nat.div_le_div_right hva)⟩
      refine safe_walk.bind fun r B hB => ?_
      obtain ⟨hr, rfl⟩ := hB
      cases r with
      | false =>
        refine safe_act fun M s _ => ?_
        rw [wp_throw]
        intro hs
        obtain ⟨-, f, hf⟩ := hpage hs
        obtain ⟨t, ht, -⟩ := Option.bind_eq_some_iff.1 hf
        rw [ht] at hr
        cases hr
      | true =>
        have hload : Borrows L strict P (.step (.exec, .load d ((addr + i) % 2 ^ 32)) (pure ()))
            {.space d h S none} := by
          refine Safe.step fun _ M s _ hL _ => ⟨⟨fun hs => ?_, trivial⟩, _, hL, le_rfl, rfl⟩
          have hL : Ledger L ({.space d h S none} + M) s := hL
          rw [singleton_add] at hL
          have hS := (hL.spaces.space _ _ _ _ (mem_cons_self ..)).1
          show _ ∧ ∃ f, (s.dirs d).page _ = some (f, true)
          rw [hS]
          exact hpage hs
        rw [if_pos rfl]
        dsimp only
        split
        · refine hload.next fun _ => ?_
          split
          · exact .ret rfl
          · exact safe_loadLoop hfit
        · split
          · exact .ret rfl
          · exact safe_loadLoop hfit
    · exact .ret rfl

theorem safe_loaduvm {memsz sz top : Nat}
    (hfit : strict → Fit S top ∧ (addr + memsz) % 2 ^ 32 ≤ top) :
    Borrows L strict P (loaduvm .exec d addr memsz img offset sz) {.space d h S none} := by
  refine Safe.bind (Q := fun _ B => B = {.space d h S none} ∧
    (strict → sz = 0 ∨ addr + sz ≤ (addr + memsz) % 2 ^ 32 ∧
    (S.page ((addr + sz - 1) / PGSIZE)).isSome))
      (Safe.step fun _ M s _ hL hmild => ?_) fun _ B hB => ?_
  · have hS : s.dirs d = S := by
      have hL : Ledger L ({.space d h S none} + M) s := hL
      rw [singleton_add] at hL
      exact (hL.spaces.space _ _ _ _ (mem_cons_self ..)).1
    have hmild : strict → addr % PGSIZE = 0 ∧ (sz = 0 ∨ addr + sz ≤ (addr + memsz) % 2 ^ 32 ∧
      ((s.dirs d).page ((addr + sz - 1) / PGSIZE)).isSome) := hmild
    rw [hS] at hmild
    unfold checkAlign
    split
    · rename_i hne
      rw [wp_throw]
      exact fun hs => absurd (hmild hs).1 hne
    · rw [wp_pure]
      exact ⟨⟨fun _ => trivial, trivial⟩, _, hL, le_rfl, rfl, fun hs => (hmild hs).2⟩
  · obtain ⟨rfl, hwrap⟩ := hB
    refine safe_loadLoop fun hs hpos => ?_
    obtain ⟨hfit, htop⟩ := hfit hs
    obtain ⟨hend, hpage⟩ := (hwrap hs).resolve_left (Nat.ne_of_gt hpos)
    have hbelow := hfit.below
    refine ⟨by omega, fun v hv => hfit.filled.below ?_ hpage hv⟩
    simp only [KERNBASE, PGSIZE] at hbelow ⊢
    omega

theorem safe_loadSegments : ∀ {n off sz : Nat} {S : Space}, (strict → Fit S sz) →
    Trades L strict P (loadSegments L .exec d img n off sz) {.space d h S none} fun r B =>
      ∃ S', B = {.space d h S' none} ∧ (strict → ∀ sz', r = some sz' → Fit S' sz')
  | 0, _, sz, S, hfit => .ret ⟨S, rfl, fun hs sz' heq => by cases heq; exact hfit hs⟩
  | n + 1, off, sz, S, hfit => by
    unfold loadSegments
    dsimp only
    split
    · exact .ret ⟨S, rfl, fun _ _ => nofun⟩
    · split
      · exact safe_loadSegments hfit
      · split
        · exact .ret ⟨S, rfl, fun _ _ => nofun⟩
        · refine (safe_allocuvm fun hs _ _ => hfit hs).bind fun r B hB => ?_
          obtain ⟨S', rfl, hdone⟩ := hB
          split
          · exact .ret ⟨S', rfl, fun _ _ => nofun⟩
          · rename_i hr
            refine (safe_loaduvm fun hs => hdone hs rfl hr).next fun ok => ?_
            split
            · exact safe_loadSegments fun hs => (hdone hs rfl hr).1
            · exact .ret ⟨S', rfl, fun _ _ => nofun⟩

variable {null : Option Bool}

theorem safe_pushArgs : ∀ {lens : List Nat} {argc sp : Nat},
    Borrows L strict P (pushArgs w d null lens argc sp) A
  | [], _, _ => .ret rfl
  | len :: lens, argc, sp => by
    unfold pushArgs
    split
    · exact .ret rfl
    · refine safe_copyoutLoop.next fun ok => ?_
      split
      · exact safe_pushArgs
      · exact .ret rfl

theorem fit_zero (hclear : ∀ v, S.page v = none) : Fit S 0 := by
  refine ⟨by decide, fun v _ => ⟨fun hv => ?_, fun _ => hclear v⟩⟩
  simp only [npages, PGSIZE] at hv
  omega

theorem Fit.round {sz : Nat} (hfit : Fit S sz) (hlt : pgroundup sz < KERNBASE) :
    Fit S (pgroundup sz) := by
  have hsame : npages (pgroundup sz) = npages sz := by
    unfold pgroundup
    generalize npages sz = k
    simp only [npages, PGSIZE]
    omega
  exact ⟨hlt, hsame ▸ hfit.filled⟩

theorem safe_pushStack {sz : Nat} {lens : List Nat} (hfit : strict → sz < KERNBASE → Fit S sz) :
    Trades L strict P (pushStack L .exec d sz lens null) {.space d h S none} fun _ B => ∃ S', B =
      {.space d h S' none} := by
  refine (safe_allocuvm fun hs _ hlt => hfit hs (Nat.lt_of_le_of_lt (Nat.le_add_right ..) hlt)).bind
    fun r B hB => ?_
  obtain ⟨S', rfl, hdone⟩ := hB
  split
  · exact .ret ⟨S', rfl⟩
  · rename_i hr
    refine (safe_clearpteu fun hs _ => ?_).bind fun _ B hB => ?_
    · obtain ⟨hfit', hle⟩ := hdone hs rfl hr
      have hlast := npages_le hfit'.below.le
      have hlt : (r - 2 * PGSIZE) / PGSIZE + 1 < npages r := by
        simp only [npages, PGSIZE] at hle ⊢
        omega
      rcases (hfit'.filled ((r - 2 * PGSIZE) / PGSIZE) (by omega)).1 (by omega) with ⟨hend, -⟩
        | ⟨f, hf⟩
      · omega
      · exact ⟨_, hf⟩
    · obtain ⟨S'', rfl⟩ := hB
      refine safe_pushArgs.next fun r => ?_
      cases r with
      | none => exact .ret ⟨S'', rfl⟩
      | some r =>
        refine safe_copyoutLoop.next fun ok => ?_
        split
        · exact .ret ⟨S'', rfl⟩
        · exact .ret ⟨S'', rfl⟩

theorem safe_build {hdr : List UInt8} {lens : List Nat} (hclear : ∀ v, S.page v = none) :
    Trades L strict P (build L .exec d img hdr lens null) {.space d h S none} fun _ B => ∃ S', B =
      {.space d h S' none} := by
  refine (safe_loadSegments fun _ => fit_zero hclear).bind fun r B hB => ?_
  obtain ⟨S', rfl, hfit⟩ := hB
  cases r with
  | none => exact .ret ⟨S', rfl⟩
  | some sz =>
    have hround : strict → pgroundup sz < KERNBASE → Fit S' (pgroundup sz) := fun hs =>
      (hfit hs sz rfl).round
    exact safe_pushStack hround

/-! ## A process and its page directory -/

theorem wp_proc {Q : Proc → St → Prop} {E : Panic → Prop} (hL : Ledger L (.me p .plain ::ₘ M) s)
    (hdead : E .disabled)
    (hQ : ∀ d, (s.procs p).pgdir = some d → Ledger L (.me p (.busy d) ::ₘ M) s → Q (s.procs p) s) :
    (proc p).wp Q E s := by
  unfold proc
  rw [wp_bind, wp_get]
  dsimp only
  split
  · rename_i hlive
    obtain ⟨d, hd, hL'⟩ := hL.begin hlive
    exact hQ d hd hL'
  · exact hdead

theorem safe_proc : Trades L strict P (act .other (proc p)) {.me p .plain} fun x B =>
    ∃ d, x.pgdir = some d ∧ B = {.me p (.busy d)} := by
  refine safe_one fun M s hL => ?_
  exact wp_proc hL (fun _ hw => nomatch hw) fun d hd hL' =>
    ⟨_, by rwa [singleton_add], ⟨d, hd, rfl⟩, zero_le _⟩

theorem safe_enter : Trades L strict P (.step (.exec, .enter) (proc p)) {.me p .plain} fun _ B =>
    ∃ d, B = {.me p (.busy d)} := by
  refine Safe.step fun _ M s _ hL _ => ?_
  have hL : Ledger L ({.me p .plain} + M) s := hL
  rw [singleton_add] at hL
  refine wp_proc hL (fun _ _ => ⟨rfl, rfl⟩) fun d _ hL' =>
    ⟨⟨fun _ => trivial, trivial⟩, {.me p (.busy d)}, ?_, zero_le _, d, rfl⟩
  show Ledger L ({.me p (.busy d)} + M) s
  rwa [singleton_add]

theorem safe_done {a : α} : Trades L strict P (.ret a) {.me p (.busy d)} fun _ B =>
    B = {.me p .plain} :=
  Safe.entails (.ret rfl) (trade (fun M s hL => by
    rw [singleton_add] at hL ⊢
    exact hL.rest rfl rfl) (zero_le _))

theorem Ledger.own (hL : Ledger L (.me p (.busy d) ::ₘ M) s) (hst : y.status = (s.procs p).status)
    (hks : y.kstack = (s.procs p).kstack) (hpg : y.pgdir = (s.procs p).pgdir) :
    Ledger L (.me p (.busy d) ::ₘ M) (s.withProc p y) := by
  obtain ⟨hlive, hd, -⟩ := hL.busy
  refine hL.act rfl rfl (fun _ _ hj => hL.nobody rfl hj) ⟨fun _ => ?_, fun _ => ?_, fun hdead => ?_⟩
    (fun q' hq' => ?_)
    (fun _ => ⟨.inl hlive, hpg⟩) (.inr hks)
  · rw [hpg, hd]
    nofun
  · rw [hks]
    exact (hL.people.ok p).stack hlive
  · rw [hst, hlive] at hdead
    rcases hdead with h | h <;> cases h
  · cases hq'
    exact ⟨rfl, hst.trans hlive, hpg.trans hd⟩

theorem safe_own {m : Proc → VmM α}
    (hm : ∀ x s, (∃ a, m x s = .ok (a, s)) ∨ ∃ a y, m x s = .ok (a, s.withProc p y) ∧
      y.status = x.status ∧ y.kstack = x.kstack ∧ y.pgdir = x.pgdir) :
    Borrows L strict P (act .other (do m (← proc p))) {.me p (.busy d)} := by
  refine safe_one fun M s hL => ?_
  unfold proc
  simp only [wp_bind, wp_get, if_pos hL.busy.1, wp_pure]
  rcases hm (s.procs p) s with ⟨a, ha⟩ | ⟨a, y, ha, hst, hks, hpg⟩
  · rw [wp_run ha]
    exact ⟨_, by rwa [singleton_add], rfl, zero_le _⟩
  · rw [wp_run ha]
    exact ⟨_, by rw [singleton_add]; exact hL.own hst hks hpg, rfl, zero_le _⟩

theorem safe_commit {sz : Nat} : Trades L strict P (act w (commit p d sz))
    ({.me p (.busy f)} + {.space d .call S none}) fun r B =>
    ∃ S', r = some f ∧ B = {.me p (.busy d)} + {.space f .call S' none} := by
  refine safe_act fun M s hL => ?_
  simp only [cons_add, singleton_add] at hL
  obtain ⟨hlive, hf, -⟩ := hL.busy
  unfold commit proc
  simp only [setProc, wp_bind, wp_get, if_pos hlive, wp_pure, wp_modify]
  refine ⟨{.me p (.busy d)} + {.space f .call (s.dirs f) none}, ?_, ⟨_, hf, rfl⟩, zero_le _⟩
  simp only [cons_add, singleton_add]
  exact hL.swap

theorem safe_exec {file : Option Image} {lens : List Nat} :
    Borrows L strict P (exec L p file lens null) {.me p .plain} := by
  refine safe_enter.bind fun x B hB => ?_
  obtain ⟨d0, rfl⟩ := hB
  cases file with
  | none => exact safe_done
  | some img =>
    dsimp only
    split
    · exact safe_done
    · split
      · exact safe_done
      · refine safe_setupkvm.seq (zero_add _).symm fun r B hB => ?_
        cases r with
        | none =>
          cases hB
          rw [zero_add]
          exact safe_done
        | some d =>
          obtain ⟨S, rfl, hclear⟩ := hB
          refine (safe_build hclear).seq rfl fun r B hB => ?_
          obtain ⟨S', rfl⟩ := hB
          cases r with
          | none => exact safe_freevm.spend rfl fun _ => safe_done
          | some sz =>
            rw [add_comm]
            refine safe_commit.bind fun old B hB => ?_
            obtain ⟨S'', rfl, rfl⟩ := hB
            exact safe_freevm.spend (add_comm _ _) fun _ => safe_done

theorem safe_setSize {sz : Nat} : Borrows L strict P (act .other (setSize p sz))
    {.me p (.busy d)} :=
  safe_own fun _ _ => .inr ⟨_, _, rfl, rfl, rfl, rfl⟩

theorem safe_proc_lend : Trades L strict P (act .other (proc p)) {.me p .plain} fun x B =>
    ∃ d S, x.pgdir = some d ∧ B = {.space d (.proc p) S none} + {.me p (.lent d)} := by
  refine safe_one fun M s hL => ?_
  refine wp_proc hL (fun _ hw => nomatch hw) fun d hd hL' =>
    ⟨{.space d (.proc p) (s.dirs d) none} + {.me p (.lent d)}, ?_, ⟨d, _, hd, rfl⟩, zero_le _⟩
  simp only [cons_add, singleton_add]
  exact hL'.lend

theorem trade_back : Entails (memory L strict) P ({.space d (.proc p) S none} + {.me p (.lent d)})
    {.me p (.busy d)} :=
  trade (fun M s hL => by
    simp only [cons_add, singleton_add] at hL ⊢
    exact hL.giveBack) (zero_le _)

theorem safe_growproc {n : Int} : Borrows L strict P (growproc L p n) {.me p .plain} := by
  refine safe_proc_lend.bind fun x B hB => ?_
  obtain ⟨d, S, hd, rfl⟩ := hB
  rw [hd]
  have hbad : ∀ {S : Space} {r : Int}, Trades L strict P (.ret r) ({.space d (.proc p) S none} +
    {.me p (.lent d)})
      fun _ B => B = {.me p .plain} := fun {S r} => safe_done.entails trade_back
  have hsize : ∀ {S : Space} {sz : Nat} {r : Int},
    Trades L strict P (do act .other (setSize p sz); return r)
      ({.space d (.proc p) S none} + {.me p (.lent d)}) fun _ B =>
        B = {.me p .plain} := fun {S sz r} =>
    Safe.entails (safe_setSize.bind fun _ B hB => hB ▸ safe_done) trade_back
  dsimp only
  split
  · refine (safe_allocuvm nofun).seq rfl fun sz B hB => ?_
    obtain ⟨S', rfl, -⟩ := hB
    split
    · exact hbad
    · exact hsize
  · split
    · refine safe_deallocuvm.seq rfl fun sz B hB => ?_
      obtain ⟨S', rfl⟩ := hB
      split
      · exact hbad
      · exact hsize
    · exact hsize

/-! ## Files and pipes -/

theorem safe_filealloc : Borrows L strict P (act .other filealloc) A := by
  refine safe_act fun M s hL => ?_
  unfold filealloc
  rw [wp_bind, wp_get]
  split
  · exact ⟨A, hL, rfl, le_rfl⟩
  · simp only [setFile, wp_bind, wp_modify, wp_pure]
    exact ⟨A, hL.setRef (.inr rfl), rfl, le_rfl⟩

theorem safe_filedup {f : Fin NFILE} : Borrows L strict P (act .other (filedup f)) A := by
  refine safe_act fun M s hL => ?_
  unfold filedup file
  simp only [wp_bind, wp_get, wp_pure]
  split
  · rw [wp_throw]
    exact fun _ hw => by cases hw
  · simp only [setFile, wp_modify]
    exact ⟨A, hL.setRef (.inr rfl), rfl, le_rfl⟩

theorem safe_fillInode {f : Fin NFILE} : Borrows L strict P (act .other (fillInode f)) A :=
  safe_act fun _ _ hL => ⟨A, hL.setRef (.inl rfl), rfl, le_rfl⟩

def endOf : Option (Frame × Bool) → Multiset Tok
  | none => 0
  | some (b, wr) => {.fd b wr}

theorem safe_closeFile {f : Fin NFILE} :
    Trades L strict P (act .other (closeFile f)) 0 fun r B => B = endOf r := by
  refine safe_act fun M s hL => ?_
  rw [zero_add] at hL
  unfold closeFile file
  simp only [wp_bind, wp_get, wp_pure]
  split
  · rw [wp_throw]
    exact fun _ hw => by cases hw
  · split
    · simp only [setFile, wp_bind, wp_modify, wp_pure]
      exact ⟨0, by rw [zero_add]; exact hL.setRef (.inr rfl), rfl, zero_le _⟩
    · simp only [setFile, wp_bind, wp_modify, wp_pure]
      cases hp : (s.ftable f).pipe with
      | none => exact ⟨0, by rw [zero_add]; exact hL.setRef (.inl rfl), rfl, zero_le _⟩
      | some e =>
        refine ⟨_, ?_, rfl, zero_le _⟩
        show Ledger L ({.fd e.1 e.2} + M) _
        rw [singleton_add]
        exact hL.dropFile hp

theorem safe_closeEnd : Trades L strict P (act .other (closeEnd b wr)) {.fd b wr} fun r B =>
    B = if r then {.held b} else 0 := by
  refine safe_one fun M s hL => ?_
  unfold closeEnd
  simp only [wp_bind, wp_modify, wp_get, wp_pure]
  obtain ⟨hL', hfree⟩ := hL.closeEnd rfl
  split
  · rename_i hclosed
    refine ⟨_, ?_, rfl, zero_le _⟩
    rw [singleton_add]
    refine hL'.hold (hfree fun wr' => ?_)
    simp only [Bool.and_eq_true, Bool.not_eq_true'] at hclosed
    cases wr' with
    | false => exact hclosed.1
    | true => exact hclosed.2
  · exact ⟨0, by rwa [zero_add], rfl, zero_le _⟩

theorem safe_pipeclose : Trades L strict P (pipeclose L b wr) {.fd b wr} fun _ B => B = 0 := by
  refine safe_closeEnd.next fun r => ?_
  cases r with
  | false => exact .ret rfl
  | true => exact safe_kfree (fun _ _ => ⟨trivial, trivial⟩) rfl

theorem safe_fileclose {f : Fin NFILE} : Borrows L strict P (fileclose L f) A := by
  refine safe_closeFile.after (zero_add _).symm fun r => ?_
  cases r with
  | none => exact .ret (zero_add _)
  | some e => exact safe_pipeclose.within rfl fun _ B hB => by rw [hB, zero_add]

theorem safe_fillPipe {f0 f1 : Fin NFILE} :
    Trades L strict P (.step (.other, .filled b) (fillPipe f0 f1 b)) {.held b} fun _ B =>
    B = 0 := by
  refine safe_point (fun _ _ => ⟨trivial, trivial⟩) rfl fun M s hL => ?_
  rw [singleton_add] at hL
  obtain ⟨hL', hb⟩ := hL.unhold
  unfold fillPipe file
  simp only [setFile, wp_bind, wp_get, wp_pure, wp_modify]
  refine ⟨0, ?_, rfl, zero_le _⟩
  rw [zero_add]
  have hends : ∀ (x y : File) (k : Fin NFILE),
      (update (update s.ftable f0 { x with type := .pipe b false }) f1
        { y with type := .pipe b true } k).pipe =
        if k = f1 then some (b, true) else if k = f0 then some (b, false)
        else (s.ftable k).pipe := by
    intro x y k
    rw [update_apply, update_apply, apply_ite File.pipe, apply_ite File.pipe]
    rfl
  have hold : ∀ k wr, (s.ftable k).pipe ≠ some (b, wr) := fun k wr hk => hb.2 _ (.file hk)
  refine hL'.newPipe hb rfl fun k b' wr hk => ?_
  simp only [St.withFile] at hk ⊢
  rw [hends] at hk
  split at hk
  · rename_i h1
    cases hk
    refine .inl ⟨rfl, fun k' hk' => ?_⟩
    rw [hends] at hk'
    split at hk'
    · rename_i h1'
      rw [h1, h1']
    · split at hk'
      · cases hk'
      · exact absurd hk' (hold _ _)
  · split at hk
    · rename_i h0
      cases hk
      refine .inl ⟨rfl, fun k' hk' => ?_⟩
      rw [hends] at hk'
      split at hk'
      · cases hk'
      · split at hk'
        · rename_i h0'
          rw [h0, h0']
        · exact absurd hk' (hold _ _)
    · exact .inr hk

theorem safe_pipealloc : Borrows L strict P (pipealloc L) A := by
  refine safe_filealloc.next fun r => ?_
  cases r with
  | none => exact .ret rfl
  | some f0 =>
    refine safe_filealloc.next fun r => ?_
    cases r with
    | none => exact safe_fileclose.bind fun _ B hB => .ret hB
    | some f1 =>
      refine safe_kalloc.after (zero_add _).symm fun r => ?_
      cases r with
      | none =>
        rw [heldOf, zero_add]
        refine safe_fileclose.next fun _ => ?_
        exact safe_fileclose.bind fun _ B hB => .ret hB
      | some b => exact safe_fillPipe.seq rfl fun _ B hB => .ret (by rw [hB, zero_add])

theorem safe_fdalloc {f : Fin NFILE} : Borrows L strict P (act .other (fdalloc p f))
    {.me p (.busy d)} := by
  refine safe_own fun x s => ?_
  cases (List.finRange NOFILE).find? fun fd => (x.ofile fd).isNone with
  | none => exact .inl ⟨_, rfl⟩
  | some fd => exact .inr ⟨_, _, rfl, rfl, rfl, rfl⟩

variable {fd : Fin NOFILE}

theorem safe_clearFd : Borrows L strict P (act .other (clearFd p fd)) {.me p (.busy d)} :=
  safe_own fun _ _ => .inr ⟨_, _, rfl, rfl, rfl, rfl⟩

theorem safe_sysPipe : Borrows L strict P (sysPipe L p) {.me p .plain} := by
  refine safe_proc.bind fun x B hB => ?_
  obtain ⟨d, -, rfl⟩ := hB
  refine safe_pipealloc.next fun r => ?_
  cases r with
  | none => exact safe_done
  | some r =>
    have hbad : ∀ {f f' : Fin NFILE},
      Trades L strict P (do fileclose L f; fileclose L f'; return (-1 : Int)) {.me p (.busy d)}
        fun _ B => B = {.me p .plain} := by
      intro f f'
      refine safe_fileclose.next fun _ => ?_
      refine safe_fileclose.next fun _ => ?_
      exact safe_done
    refine safe_fdalloc.next fun fd0 => ?_
    cases fd0 with
    | none => exact hbad
    | some fd0 =>
      refine safe_fdalloc.next fun fd1 => ?_
      cases fd1 with
      | none =>
        refine safe_clearFd.next fun _ => ?_
        exact hbad
      | some _ => exact safe_done

theorem safe_sysClose : Borrows L strict P (sysClose L p fd) {.me p .plain} := by
  refine safe_proc.bind fun x B hB => ?_
  obtain ⟨d, -, rfl⟩ := hB
  split
  · exact safe_done
  · refine safe_clearFd.next fun _ => ?_
    refine safe_fileclose.next fun _ => ?_
    exact safe_done

theorem safe_sysDup : Borrows L strict P (sysDup p fd) {.me p .plain} := by
  refine safe_proc.bind fun x B hB => ?_
  obtain ⟨d, -, rfl⟩ := hB
  split
  · exact safe_done
  · refine safe_fdalloc.next fun r => ?_
    cases r with
    | none => exact safe_done
    | some fd' =>
      refine safe_filedup.next fun _ => ?_
      exact safe_done

theorem safe_sysOpen {found : Bool} : Borrows L strict P (sysOpen L p found) {.me p .plain} := by
  refine safe_proc.bind fun x B hB => ?_
  obtain ⟨d, -, rfl⟩ := hB
  split
  · refine safe_filealloc.next fun r => ?_
    cases r with
    | none => exact safe_done
    | some f =>
      refine safe_fdalloc.next fun r => ?_
      cases r with
      | none =>
        refine safe_fileclose.next fun _ => ?_
        exact safe_done
      | some fd =>
        refine safe_fillInode.next fun _ => ?_
        exact safe_done
  · exact safe_done

/-! ## Processes that come and go -/

/-- A process that `i` has taken. -/
def taken (i : Fin NPROC) (R : Proc → Prop) : Option (Fin NPROC) → Multiset Tok → Prop
  | none, B => B = {.me i .plain}
  | some q, B => ∃ x, B = {.me i (.work q x false false)} ∧ R x

theorem safe_takeProc : Trades L strict P (act .other takeProc) {.me i .plain}
    (taken i fun _ => True) := by
  refine safe_one fun M s hL => ?_
  unfold takeProc
  rw [wp_bind, wp_get]
  split
  · exact ⟨_, by rwa [singleton_add], rfl, zero_le _⟩
  · rename_i q hq
    have hunused : (s.procs q).status = .unused := by
      have := List.find?_some hq
      simpa using this
    simp only [setProc, wp_bind, wp_modify, wp_pure]
    refine ⟨{.me i (.work q { s.procs q with status := .embryo } false false)}, ?_,
      ⟨_, rfl, trivial⟩, zero_le _⟩
    rw [singleton_add]
    have hemb : ¬ Proc.Settled { s.procs q with status := .embryo } :=
      not_settled (by simp) (by simp)
    refine hL.act rfl rfl (fun _ _ hj => hL.nobody_of_status (.inl hunused) hj)
      ⟨fun h => absurd h hemb, by simp, fun _ => (hL.people.ok q).orphan (.inl hunused)⟩
        (fun q' hq' => ?_) (fun h => absurd h hemb) (.inr rfl)
    cases hq'
    exact ⟨rfl, rfl, rfl⟩

/-- The same, when the process is known. -/
def stacked (i q : Fin NPROC) : Bool → Multiset Tok → Prop
  | false, B => B = {.me i .plain}
  | true, B => ∃ x, B = {.me i (.work q x false false)} ∧ x.kstack ≠ none

theorem Ledger.discard (hL : Ledger L (.me i (.work q x reap false) ::ₘ M) s)
    (hst : y.status = .unused) (hpar : y.parent = none)
    (hk : y.kstack = none ∨ y.kstack = (s.procs q).kstack) :
    Ledger L (.me i .plain ::ₘ M) (s.withProc q y) := by
  have hset : ¬ y.Settled := not_settled (by simp [hst]) (by simp [hst])
  exact hL.act rfl rfl (fun _ _ hj => hL.nobody rfl hj) ⟨fun h => absurd h hset, by simp [hst],
    fun _ => hpar⟩ (by rintro _ ⟨⟩)
    (fun h => absurd h hset) hk

theorem safe_newStack : Trades L strict P (act .other (newStack q)) {.me i (.work q x false false)}
    (stacked i q) := by
  refine safe_one fun M s hL => ?_
  obtain ⟨hq, hemb⟩ := hL.people.knows i _ q (mem_cons_self ..) rfl
  have hemb : x.status = .embryo := hemb
  unfold newStack
  rw [wp_bind]
  refine wp_kalloc hL (fun _ => ?_) fun f fs _ hL' hf => ?_
  · simp only [setProc, wp_bind, wp_get, wp_modify, wp_pure]
    refine ⟨{Tok.me i .plain}, ?_, rfl, zero_le _⟩
    rw [singleton_add]
    have hpar := (hL.people.ok q).orphan (.inr (hq ▸ hemb))
    exact hL.discard rfl hpar (.inl rfl)
  · simp only [setProc, wp_bind, wp_get, wp_modify, wp_pure]
    refine ⟨{.me i (.work q { x with kstack := some f } false false)}, ?_,
      ⟨_, rfl, by simp⟩, zero_le _⟩
    rw [singleton_add]
    have hq' : (s.withFree fs).procs q = x := hq
    rw [hq']
    exact hL'.addStack hf

theorem safe_allocproc : Trades L strict P allocproc {.me i .plain}
    (taken i fun x => x.kstack ≠ none) := by
  refine safe_takeProc.bind fun r B hB => ?_
  cases r with
  | none =>
    cases hB
    exact .ret rfl
  | some q =>
    obtain ⟨x, rfl, -⟩ := hB
    refine safe_newStack.bind fun ok B hB => ?_
    cases ok with
    | false => exact .ret hB
    | true => exact .ret hB

/-- After `kfree(q->kstack)` the next step clears it. -/
theorem safe_dropStack {R : Multiset Tok → Prop}
    (hclear : ∀ M s, x.kstack ≠ none → Ledger L (.me i (.work q x reap true) ::ₘ M) s →
      ∃ B, Ledger L (B + M) (s.withProc q { x with kstack := none }) ∧ R B ∧ fades B = 0) :
    Trades L strict P (dropStack L q) {.me i (.work q x reap false)} fun _ => R := by
  intro g M s hg hL _
  have hL : Ledger L ({.me i (.work q x reap false)} + M) s := hL
  rw [singleton_add] at hL
  obtain ⟨hq, -⟩ := hL.people.knows i _ q (mem_cons_self ..) rfl
  unfold freeStack kstackOf
  simp only [wp_bind, wp_get, wp_pure]
  rw [hq]
  cases hk : x.kstack with
  | none => exact fun _ hw => by cases hw
  | some f =>
    obtain ⟨hL', hf⟩ := hL.dropStack hk
    refine wp_kfree hL' hf fun hL'' =>
      ⟨⟨fun _ => trivial, trivial⟩, {.me i (.work q x reap true)}, ?_, le_rfl,
      Safe.step fun _ M s _ hL _ => ?_⟩
    · show Ledger L ({.me i (.work q x reap true)} + M) _
      rwa [singleton_add]
    · have hL : Ledger L ({.me i (.work q x reap true)} + M) s := hL
      rw [singleton_add] at hL
      obtain ⟨hq, -⟩ := hL.people.knows i _ q (mem_cons_self ..) rfl
      obtain ⟨B, hB, hR, hfade⟩ := hclear M s (by simp [hk]) hL
      unfold clearStack
      simp only [setProc, wp_bind, wp_get, wp_modify]
      rw [hq]
      refine ⟨⟨fun _ => trivial, ?_⟩, B, hB, ?_, hR⟩
      · show ((s.withProc q { x with kstack := none }).procs q).kstack = none
        rw [withProc_self]
      · show fades B + {.kstack q} ≤ _
        rw [hfade]
        exact le_rfl

theorem safe_dropStack_fork :
    Trades L strict P (dropStack L q) {.me i (.work q x false false)} fun _ B =>
    ∃ y, B = {.me i (.work q y false false)} :=
  safe_dropStack fun M s _ hL => ⟨_, by rw [singleton_add]; exact hL.clearStack, ⟨_, rfl⟩, rfl⟩

theorem safe_dropStack_wait :
    Trades L strict P (dropStack L q) {.me i (.work q x true false)} fun _ B =>
    ∃ d S y, y.pgdir = some d ∧ B = {.me i (.work q y true false)} + {.space d .call S none} := by
  refine safe_dropStack fun M s hk hL => ?_
  obtain ⟨d, hd, hL'⟩ := hL.takeOver hk
  refine ⟨{.me i (.work q { x with kstack := none } true false)} + {.space d .call (s.dirs d) none},
    ?_, ⟨d, _, { x with kstack := none }, hd, rfl⟩, rfl⟩
  simp only [cons_add, singleton_add]
  exact hL'

theorem safe_dropProc : Trades L strict P (act .other (dropProc q))
    {.me i (.work q x false false)} fun _ B =>
    B = {.me i .plain} := by
  refine safe_one fun M s hL => ?_
  obtain ⟨hq, hemb⟩ := hL.people.knows i _ q (mem_cons_self ..) rfl
  have hemb : x.status = .embryo := hemb
  unfold dropProc
  simp only [setProc, wp_bind, wp_get, wp_modify]
  refine ⟨_, ?_, rfl, zero_le _⟩
  rw [singleton_add]
  have hpar := (hL.people.ok q).orphan (.inr (hq ▸ hemb))
  exact hL.discard rfl hpar (.inr rfl)

theorem safe_startProc {sz : Nat} {parent : Option (Fin NPROC)}
    {ofile : Fin NOFILE → Option (Fin NFILE)} (hk : x.kstack ≠ none) :
    Trades L strict P (act .other (startProc q d sz parent ofile))
      ({.me i (.work q x false false)} + {.space d .call S none})
      fun _ B => B = {.me i .plain} := by
  refine safe_act fun M s hL => ?_
  simp only [cons_add, singleton_add] at hL
  obtain ⟨hq, -⟩ := hL.people.knows i _ q (mem_cons_self ..) rfl
  unfold startProc
  simp only [setProc, wp_bind, wp_get, wp_modify]
  refine ⟨_, ?_, rfl, zero_le _⟩
  rw [singleton_add]
  exact hL.start rfl rfl (by rw [hq]) hk

theorem safe_dupFiles : ∀ {fds : List (Fin NOFILE)}, Borrows L strict P (dupFiles x fds) A
  | [] => .ret rfl
  | fd :: fds => by
    unfold dupFiles
    split
    · exact safe_dupFiles
    · refine safe_filedup.next fun _ => ?_
      exact safe_dupFiles

theorem safe_fork : Borrows L strict P (fork L p) {.me p .plain} := by
  refine safe_proc.bind fun x B hB => ?_
  obtain ⟨src, hsrc, rfl⟩ := hB
  rw [hsrc]
  have hrest : Entails (memory L strict) P {.me p (.busy src)} {.me p .plain} :=
    trade (fun M s hL => by
    rw [singleton_add] at hL ⊢
    exact hL.rest rfl rfl) (zero_le _)
  refine (safe_allocproc.entails hrest).bind fun r B hB => ?_
  cases r with
  | none => exact .ret hB
  | some q =>
    obtain ⟨y, rfl, hk⟩ := hB
    refine safe_copyuvm.seq (zero_add _).symm fun r B hB => ?_
    cases r with
    | none =>
      cases hB
      rw [zero_add]
      refine safe_dropStack_fork.bind fun _ B hB => ?_
      obtain ⟨y, rfl⟩ := hB
      exact safe_dropProc.bind fun _ B hB => .ret hB
    | some d =>
      obtain ⟨S, rfl, -⟩ := hB
      refine safe_dupFiles.next fun _ => ?_
      rw [add_comm]
      exact (safe_startProc hk).bind fun _ B hB => .ret hB

theorem safe_proc_again : Borrows L strict P (act .other (proc p)) {.me p (.busy d)} := by
  refine safe_act fun M s hL => ?_
  have hlive : (s.procs p).status = .live := by
    rw [singleton_add] at hL
    exact hL.busy.1
  unfold proc
  simp only [wp_bind, wp_get, if_pos hlive, wp_pure]
  exact ⟨_, hL, rfl, zero_le _⟩

theorem safe_closeFiles :
    ∀ {fds : List (Fin NOFILE)}, Borrows L strict P (closeFiles L p fds) {.me p (.busy d)}
  | [] => .ret rfl
  | fd :: fds => by
    refine safe_proc_again.next fun x => ?_
    split
    · exact safe_closeFiles
    · refine safe_fileclose.next fun _ => ?_
      refine safe_clearFd.next fun _ => ?_
      exact safe_closeFiles

theorem safe_endProc : Trades L strict P (act .other (endProc p)) {.me p (.busy d)} fun _ B =>
    B = {.me p .plain} := by
  refine safe_one fun M s hL => ?_
  have hL' := hL.reparent
  obtain ⟨hlive', hd', -⟩ := hL'.busy
  unfold endProc proc
  simp only [wp_bind, wp_get, if_pos hL.busy.1, wp_pure, wp_modify]
  refine ⟨_, ?_, rfl, zero_le _⟩
  rw [singleton_add]
  refine hL'.act rfl rfl (fun _ _ hj => hL'.nobody rfl hj) ⟨fun _ => ?_, by simp, ?_⟩
    (by rintro _ ⟨⟩) (fun _ => ⟨.inl hlive', rfl⟩) (.inr rfl)
  · rw [show ∀ y : Proc, ({ y with status := .zombie } : Proc).pgdir = y.pgdir from
      fun _ => rfl, hd']
    simp
  · rintro (h | h) <;> cases h

theorem safe_exit : Borrows L strict P (exit L p) {.me p .plain} := by
  refine safe_proc.bind fun x B hB => ?_
  obtain ⟨d, -, rfl⟩ := hB
  split
  · exact safe_throw
  · refine safe_closeFiles.next fun _ => ?_
    exact safe_endProc.bind fun _ B hB => .ret hB

variable {killed : Bool}

theorem safe_findZombie : Trades L strict P (act .other (findZombie p killed))
    {.me p .plain} fun r B =>
    match r with
    | none => B = {.me p .plain}
    | some q => ∃ x, B = {.me p (.work q x true false)} := by
  refine safe_one fun M s hL => ?_
  unfold findZombie proc
  simp only [wp_bind, wp_get]
  split
  · simp only [wp_pure]
    split
    · rename_i q hq
      have hfound := List.find?_some hq
      simp only [Bool.and_eq_true, beq_iff_eq] at hfound
      refine ⟨{.me p (.work q (s.procs q) true false)}, ?_, ⟨_, rfl⟩, zero_le _⟩
      rw [singleton_add]
      refine hL.turn rfl rfl (fun _ _ hj => hL.nobody_of_status (.inr (.inr ⟨hfound.2, hfound.1⟩))
        hj) fun q' hq' => ?_
      cases hq'
      exact ⟨rfl, rfl, hfound.2, hfound.1⟩
    · split
      · exact ⟨_, by rwa [singleton_add], rfl, zero_le _⟩
      · exact fun _ hw => by cases hw
  · exact fun _ hw => by cases hw

theorem safe_pgdirOf (hd : x.pgdir = some d) : Trades L strict P (act .other (pgdirOf q))
    ({.me i (.work q x true false)} + {.space d .call S none}) fun r B =>
      r = some d ∧ B = {.me i (.work q x true false)} + {.space d .call S none} := by
  refine safe_act fun M s hL => ⟨_, hL, ⟨?_, rfl⟩, zero_le _⟩
  simp only [cons_add, singleton_add] at hL
  obtain ⟨hq, -⟩ := hL.people.knows i _ q (mem_cons_self ..) rfl
  show (s.procs q).pgdir = some d
  rw [hq, hd]

theorem safe_reapProc : Trades L strict P (act .other (reapProc q))
    {.me i (.work q x true false)} fun _ B =>
    B = {.me i .plain} := by
  refine safe_one fun M s hL => ?_
  unfold reapProc
  simp only [setProc, wp_bind, wp_get, wp_modify]
  refine ⟨_, ?_, rfl, zero_le _⟩
  rw [singleton_add]
  exact hL.discard rfl rfl (.inr rfl)

theorem safe_wait : Borrows L strict P (wait L p killed) {.me p .plain} := by
  refine safe_findZombie.bind fun r B hB => ?_
  cases r with
  | none => exact .ret hB
  | some q =>
    obtain ⟨x, rfl⟩ := hB
    refine safe_dropStack_wait.bind fun _ B hB => ?_
    obtain ⟨d, S, y, hd, rfl⟩ := hB
    refine (safe_pgdirOf hd).bind fun r B hB => ?_
    obtain ⟨rfl, rfl⟩ := hB
    refine safe_freevm.spend (add_comm _ _) fun _ => ?_
    exact safe_reapProc.bind fun _ B hB => .ret hB

theorem safe_unbooted : Borrows L strict P (act .other unbooted) A := by
  refine safe_act fun M s hL => ?_
  unfold unbooted
  rw [wp_bind, wp_get]
  split
  · exact fun _ hw => nomatch hw
  · exact ⟨_, hL, rfl, le_rfl⟩

theorem safe_setKpgdir : Trades L strict P (act .other (setKpgdir d))
    {.space d .call S none} fun _ B => B = 0 := by
  refine safe_act fun M s hL => ⟨0, ?_, rfl, zero_le _⟩
  rw [singleton_add] at hL
  rw [zero_add]
  exact hL.setKernel

theorem safe_boot : Borrows L strict P boot {.me i .plain} := by
  refine safe_unbooted.next fun _ => ?_
  refine safe_setupkvm.seq (zero_add _).symm fun r B hB => ?_
  cases r with
  | none => exact safe_throw
  | some k =>
    obtain ⟨S, rfl, -⟩ := hB
    refine safe_setKpgdir.after rfl fun _ => ?_
    rw [zero_add]
    refine safe_allocproc.bind fun r B hB => ?_
    cases r with
    | none => exact safe_throw
    | some q =>
      obtain ⟨y, rfl, hk⟩ := hB
      refine safe_setupkvm.seq (zero_add _).symm fun r B hB => ?_
      cases r with
      | none => exact safe_throw
      | some d =>
        obtain ⟨S, rfl, -⟩ := hB
        refine safe_kalloc.after (zero_add _).symm fun r => ?_
        cases r with
        | none => exact safe_throw
        | some f =>
          rw [heldOf, ← add_assoc, add_comm {Tok.held f}]
          refine (safe_mappages (by simp)).seq rfl fun _ B hB => ?_
          obtain ⟨S', rfl, -⟩ := hB
          rw [add_comm]
          exact (safe_startProc hk).bind fun _ B hB => .ret hB

/-- **Every call keeps the ledger.** -/
theorem memory_obeys : Obeys (machine L) (memory L strict) fun p B => B = {.me p .plain} where
  body j B hB := by
    subst hB
    cases j with
    | boot => exact safe_boot
    | fork p => exact safe_fork
    | exec p file lens null => exact safe_exec
    | sbrk p n => exact safe_growproc
    | pipe p => exact safe_sysPipe
    | close p fd => exact safe_sysClose
    | dup p fd => exact safe_sysDup
    | openFile p found => exact safe_sysOpen
    | exit p => exact safe_exit
    | wait p killed => exact safe_wait
  jobs _ _ _ _ _ _ _ hL := hL

end Os4.Vm
