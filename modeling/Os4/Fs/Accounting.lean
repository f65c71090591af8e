import Mathlib.Tactic.Abel
import Os4.Fs.Accounts
import Os4.Fs.Every
import Os4.Fs.Walk
/-!
# Every reference to an inode is dropped once

`bookkeeping` are the accounts as rules for threads: each function of `Par` is specified by the
shares it takes and the shares it leaves, on every way out of it. Most of fs.c is `Silent`: none of
its steps concerns the accounts. What is left is where `iget`, `idup`, `iput`, `filealloc`,
`filedup` and `fileclose` are called. The result is **`refs_balanced`**.
-/
namespace Os4.Fs

open Prog
open Par (act enter load fileAt)

/-- `L` are shares of nobody. -/
def bookkeeping (L : Multiset Share) :
    Rules (Fin NPROC → Option SysCall) Share FsState Panic Point where
  inv _ M s := ∃ W, Accounts W (M + L) s
  allowed _ _ := True
  keeps _ _ _ := True
  fine _ _ := True

variable {E : Env} {α β : Type} {P : (Fin NPROC → Option SysCall) → Prop} {A B L : Multiset Share}
  {Q : α → Multiset Share → Prop}
  {R : β → Multiset Share → Prop} {t : Code α} {g : α → Code β} {l : Point} {m : FsM α}
  {k ip dp cwd : Fin NINODE}
  {f : Fin NFILE} {p : Fin NPROC} {x : Proc} {w : Window} {path name : List UInt8} {parent : Bool}

/-- The thread trades the shares `A` for what `Q` says. -/
abbrev Books (L : Multiset Share) (P : (Fin NPROC → Option SysCall) → Prop) (t : Code α)
    (A : Multiset Share) (Q : α → Multiset Share → Prop) : Prop := Safe (bookkeeping L) P t A Q

theorem books_step (h : ∀ W M s, Accounts W (A + M) s →
    m.wp (fun a s' => ∃ B, Q a B ∧ ∃ W', Accounts W' (B + M) s') (fun _ => True) s) :
    Books L P (.step l m) A Q := by
  refine Safe.step fun _ M s _ ⟨W, hW⟩ _ => ?_
  rw [add_assoc] at hW
  refine wp_mono (h W (M + L) s hW) fun a s' ⟨B, hQ, W', hB⟩ =>
    ⟨trivial, B, ⟨W', ?_⟩, Rules.owed_due_le (fun _ => rfl) rfl, hQ⟩
  rw [add_assoc]
  exact hB

theorem books_entails (h : ∀ W M s, Accounts W (A + M) s → ∃ W', Accounts W' (B + M) s) :
    Entails (bookkeeping L) P A B :=
  ⟨fun _ M s _ ⟨W, hW⟩ => by
    rw [add_assoc] at hW
    obtain ⟨W', hW'⟩ := h W (M + L) s hW
    rw [← add_assoc] at hW'
    exact ⟨W', hW'⟩, Rules.owed_le fun _ => rfl⟩

/-! ## Steps that do not concern the accounts -/

/-- No step of the thread concerns the accounts. -/
abbrev Silent (t : Code α) : Prop := t.Each fun _ m => Steps SameShares m

theorem Silent.safe (ht : Silent t) : Books L P t A fun _ B => B = A := by
  refine Safe.each ht (fun _ => rfl) fun β m hm _ _ M s ⟨W, hW⟩ =>
    wp_of_ok (fun a s' hr => ?_) fun _ _ => trivial
  exact ⟨trivial, W, hW.silent (hm s a s' hr)⟩

theorem Silent.andThen (ht : Silent t) (hg : ∀ a, Books L P (g a) A R) : Books L P (t >>= g) A R :=
  ht.safe.bind fun a _ hB => hB ▸ hg a

theorem silent_act (h : Steps SameShares m) : Silent (act m) := Thread.Each.step h

theorem steps_of_wp (h : ∀ s, m.wp (fun _ s' => SameShares s s') (fun _ => True) s) :
    Steps SameShares m :=
  fun s _ _ hm => wp_ok (Q := fun _ s' => SameShares s s') (h s) hm

theorem steps_bind {n : α → FsM β} (hm : Steps SameShares m) (hn : ∀ a, Steps SameShares (n a)) :
    Steps SameShares (m >>= n) := Steps.bind localData_sameShares.trans hm hn

theorem sameShares_refl (s : FsState) : SameShares s s := localData_sameShares.refl s

theorem respects_shares (E : Env) : RespectsData E fun _ m => Steps SameShares m :=
  steps_respectsData localData_sameShares E

theorem steps_bread (b : Nat) : Steps SameShares (bread b) :=
  Steps.get fun s _ _ h => by cases h; exact sameShares_refl s

theorem silent_inode : Silent (act (inode k)) :=
  silent_act (Steps.get fun s _ _ h => by cases h; exact sameShares_refl s)

theorem silent_beginOp : Silent (act beginOp) :=
  silent_act (Steps.modify fun _ => ⟨rfl, rfl, fun _ => rfl, fun _ => ⟨rfl, rfl⟩,
    fun _ => ⟨_, rfl⟩⟩)

theorem silent_endOp : Silent (act endOp) :=
  silent_act (Steps.modify fun _ => ⟨rfl, rfl, fun _ => rfl, fun _ => ⟨rfl, rfl⟩,
    fun _ => ⟨_, rfl⟩⟩)

theorem steps_advance (r : Int) : Steps SameShares (advance f r) := steps_of_wp fun s => by
  show (do let s ← get; _ : FsM Unit).wp _ _ s
  rw [wp_bind, wp_get]
  by_cases hr : 0 < r
  · rw [if_pos hr, wp_setFile]
    refine ⟨rfl, rfl, fun _ => rfl, fun _ => ⟨rfl, rfl⟩, fun f' => ?_⟩
    by_cases hf : f' = f
    · rw [hf, withFile_self]
      exact ⟨_, rfl⟩
    · rw [withFile_ne hf]
      exact ⟨_, rfl⟩
  · rw [if_neg hr]
    exact sameShares_refl s

theorem silent_ilock : Silent (Par.ilock E k) := by
  refine Thread.Each.bind (silent_act (steps_of_wp fun s => ?_)) fun _ =>
    silent_act (steps_of_wp fun s => ?_)
  · rw [enter, wp_bind, wp_inode]
    refine wp_guard trivial fun _ => ?_
    refine wp_guard trivial fun _ => ?_
    refine wp_guard trivial fun _ => ?_
    rw [wp_setInode]
    exact .withInode rfl ⟨rfl, rfl⟩
  · rw [load, wp_bind, wp_inode, wp_bind]
    refine wp_of_ok (fun sb s1 hr => ?_) fun _ _ => trivial
    have h1 := (respects_shares E).readsb (s.icache k).prt s sb s1 hr
    rw [wp_ite]
    refine ⟨fun _ => h1, fun _ => ?_⟩
    rw [wp_bind, wp_bread, wp_bind, wp_setInode]
    refine wp_guard trivial fun _ => localData_sameShares.trans _ _ _ h1 (.withInode ?_ ?_)
    · exact (h1.refs k).symm
    · exact ⟨(h1.idents k).1.symm, (h1.idents k).2.symm⟩

theorem silent_iunlock : Silent (Par.iunlock k) := silent_act (steps_of_wp fun s => by
  rw [Fs.iunlock, wp_bind, wp_inode]
  refine wp_guard trivial fun _ => ?_
  rw [wp_setInode]
  exact .withInode rfl ⟨rfl, rfl⟩)

theorem silent_data (E : Env) : Writes E (fun _ m => Steps SameShares m) fun _ t => Silent t :=
  (respects_shares E).writes

theorem silent_readi (off n : Nat) : Silent (Par.readi E k off n) :=
  (silent_data E).reads.readi k off n

theorem silent_writei (src : List UInt8) (off : Nat) : Silent (Par.writei E k src off) :=
  (silent_data E).writei k src off

theorem silent_addNlink (d : Int) : Silent (act (addNlink E k d)) := (silent_data E).addNlink k d

theorem silent_sections (E : Env) : Sections E (fun _ m => Steps SameShares m)
    (fun _ m => Steps SameShares m)
    fun _ _ _ t => Silent t where
  outside _ := (silent_data E).toWalk
  inside _ := silent_data E
  bind := Thread.Each.bind
  panic e _ := silent_act (Steps.throw e)
  beginOp _ := silent_beginOp
  endOp _ := silent_endOp
  ilock _ _ := silent_ilock
  iunlock _ _ := silent_iunlock
  advance _ := steps_advance

/-! ## References to inodes -/

variable {prt : Option Int} {inum : Nat}

theorem safe_iget (h : inum ≠ 0) :
    Books L P (act (iget prt inum)) 0 fun k B => B = {.ref k} :=
  books_step fun W M s hA => wp_mono (iget_accounts hA h) fun k s' h' =>
    ⟨_, rfl, W, by rw [zero_add] at h'; exact h'⟩

theorem safe_iput : Books L P (Par.iput E k) {.ref k} fun _ B => B = 0 := by
  refine Safe.bind (Q := fun r B => B = if r then {.ref k} else 0)
    (books_step fun W M s hA => wp_mono (release_accounts hA) (fun r s' h => ⟨_, rfl, W, h⟩))
      fun r B hB => ?_
  subst hB
  cases r with
  | false => exact Safe.ret rfl
  | true =>
    refine Silent.andThen ((silent_data E).itrunc k) fun _ =>
      Silent.andThen (silent_act ((respects_shares E).store _)) fun _ => ?_
    exact books_step fun W M s hA => wp_mono (vacate_accounts hA) fun _ s' h =>
      ⟨0, rfl, W, by rw [zero_add]; exact h⟩

theorem safe_iunlockput : Books L P (Par.iunlockput E k) {.ref k} fun _ B => B = 0 :=
  silent_iunlock.andThen fun _ => safe_iput

theorem safe_throw (e : Panic) : Books L P (act (throw e : FsM α)) A Q :=
  books_step fun W M s _ => by rw [wp_throw]; trivial

theorem safe_idup (hv : (w.view x).cwd = some k) :
    Books L P (act (idup k)) {.me p x w} fun k' B => k' = k ∧ B = {.me p x w} + {.ref k} := by
  refine books_step fun W M s hA =>
    wp_mono (idup_accounts hA (hA.cwd_pos (p := p) (by simp) hv)) fun k' s' h => ?_
  refine ⟨_, ⟨h.1, rfl⟩, W, ?_⟩
  rw [add_comm {Share.me p x w}, add_assoc]
  exact h.2

/-! ## Directories and paths -/

theorem safe_dirScan : ∀ fuel off : Nat, Books L P (Par.dirScan E k name fuel off) A fun r B =>
    B = A ∧ ∀ o i, r = some (o, i) → i ≠ 0
  | 0, _ => .ret ⟨rfl, fun _ _ h => by cases h⟩
  | fuel + 1, off => by
    refine silent_inode.andThen fun ip => ?_
    split
    · refine (silent_readi off 16).andThen fun r => ?_
      obtain ⟨r, l⟩ := r
      dsimp only
      split
      · exact safe_throw _
      · split
        · next h =>
          refine .ret ⟨rfl, fun o i heq => ?_⟩
          cases heq
          exact h.1
        · exact safe_dirScan fuel _
    · exact .ret ⟨rfl, fun _ _ h => by cases h⟩

theorem safe_dirlookup :
    Books L P (Par.dirlookup E k name) {.ref k} fun r B =>
      B = {.ref k} + refsOf (r.map Prod.fst) := by
  refine Safe.bind (Q := fun k' B => k' = k ∧ B = {.ref k})
    (books_step fun W M s hA =>
      wp_mono (redirect_accounts hA) (fun k' s' h => ⟨_, ⟨h.1, rfl⟩, W, h.2⟩)) fun k' B hB => ?_
  obtain ⟨rfl, rfl⟩ := hB
  refine silent_inode.andThen fun ip => ?_
  split
  · exact safe_throw _
  · refine (safe_dirScan _ _).bind fun r B hB => ?_
    obtain ⟨rfl, hr⟩ := hB
    cases r with
    | none => exact .ret rfl
    | some y =>
      refine Safe.seq (safe_iget (hr y.1 y.2 rfl)) (zero_add _).symm fun k'' B hB => .ret ?_
      subst hB
      exact add_comm _ _

theorem safe_dirlink : Books L P (Par.dirlink E k name inum) {.ref k} fun _ B => B = {.ref k} := by
  refine safe_dirlookup.next fun r => ?_
  cases r with
  | some y =>
    refine Safe.seq safe_iput (add_comm _ _) fun _ B hB => .ret ?_
    subst hB
    exact zero_add _
  | none =>
    refine silent_inode.andThen fun _ =>
      Silent.andThen ((silent_data E).reads.freeScan k _ _) fun _ =>
      (silent_writei _ _).andThen fun r => ?_
    split
    · exact safe_throw _
    · exact .ret rfl

theorem safe_namexLoop : ∀ {fuel : Nat} {ip : Fin NINODE} {path name : List UInt8},
    path.length < fuel →
    Books L P (Par.namexLoop E parent fuel ip path name) {.ref ip} fun r B =>
      B = refsOf (r.map Prod.fst)
  | fuel + 1, ip, path, name, hfuel => by
    unfold Par.namexLoop
    cases hs : skipelem path with
    | none =>
      cases parent with
      | true =>
        refine safe_iput.next fun _ => ?_
        exact .ret rfl
      | false => exact .ret rfl
    | some e =>
      obtain ⟨el, rest⟩ := e
      have hlt := skipelem_length hs
      refine silent_ilock.andThen fun _ => silent_inode.andThen fun y => ?_
      split
      · refine safe_iunlockput.next fun _ => ?_
        exact .ret rfl
      · split
        · refine Safe.bind (Q := fun r B => r = none ∧ B = {.ref ip}) (books_step fun W M s hA =>
            wp_mono (checkMounted_accounts hA) (fun r s' h => ⟨_, ⟨h.1, rfl⟩, W, h.2⟩))
              fun tmp B hB => ?_
          obtain ⟨rfl, rfl⟩ := hB
          exact silent_iunlock.andThen fun _ => .ret rfl
        · refine safe_dirlookup.next fun r => ?_
          cases r with
          | none =>
            refine (safe_iunlockput (k := ip)).next fun _ => ?_
            exact .ret rfl
          | some z =>
            refine Safe.spend safe_iunlockput rfl fun _ => ?_
            exact safe_namexLoop (by omega)

theorem safe_namex (hv : (w.view x).cwd = some cwd) :
    Books L P (Par.namex E cwd path parent) {.me p x w}
    fun r B => B = {.me p x w} + refsOf (r.map Prod.fst) := by
  have hmounted : Silent (act (Par.mountedAt path)) :=
    silent_act (Steps.get fun s _ _ h => by cases h; exact sameShares_refl s)
  refine hmounted.andThen fun o => ?_
  cases o with
  | some prt =>
    refine Safe.after (safe_iget (by decide)) (zero_add _).symm fun ip => ?_
    refine (safe_namexLoop (by decide)).within rfl fun r B hB => ?_
    rw [hB, add_comm]
  | none =>
    refine Safe.bind (Q := fun ip B => B = {.ref ip} + {.me p x w}) ?_ fun ip B hB => ?_
    · unfold Par.startInode
      split
      · exact (safe_iget (by decide)).within (zero_add _).symm fun ip B hB => by rw [hB]
      · refine (safe_idup hv).mono fun ip B hB => ?_
        obtain ⟨rfl, rfl⟩ := hB
        exact add_comm _ _
    · subst hB
      refine (safe_namexLoop (by omega)).within rfl fun r B hB => ?_
      rw [hB, add_comm]

theorem safe_namei (hv : (w.view x).cwd = some cwd) : Books L P (Par.namei E cwd path) {.me p x w}
    fun r B => B = {.me p x w} + refsOf r := by
  refine (safe_namex hv).bind fun r B hB => .ret hB

variable {type : Int}

theorem safe_iallocFrom {sb : Superblock} : ∀ {l : List Nat}, (∀ i ∈ l, i ≠ 0) →
    Books L P (Par.iallocFrom sb prt type l) 0 fun k B => B = {.ref k}
  | [], _ => safe_throw _
  | inum :: rest, hl => by
    refine Silent.andThen (silent_act (steps_bind (steps_bread _) fun y => ?_)) fun r => ?_
    · exact Steps.ite (steps_bind (localData_sameShares.logWrite _ _) fun _ =>
        Steps.pure sameShares_refl _)
        (Steps.pure sameShares_refl _)
    · cases r with
      | true => exact safe_iget (hl inum (by simp))
      | false => exact safe_iallocFrom fun i hi => hl i (List.mem_cons_of_mem _ hi)

theorem safe_ialloc : Books L P (Par.ialloc E prt type) 0 fun k B => B = {.ref k} := by
  refine Silent.andThen (silent_act ((respects_shares E).readsb prt)) fun sb =>
    safe_iallocFrom fun i hi => ?_
  obtain ⟨n, hn, rfl⟩ := List.mem_iff_getElem.1 hi
  simp

/-! ## Open files -/

theorem safe_fileclose : Books L P (Par.fileclose E f) {.file f} fun _ B => B = 0 := by
  refine Safe.bind (Q := fun r B => B = refsOf r) (books_step fun W M s hA =>
    wp_mono (closeFile_accounts hA) (fun r s' h => ⟨_, rfl, W, h⟩)) fun r B hB => ?_
  subst hB
  cases r with
  | none => exact .ret rfl
  | some ip =>
    refine silent_beginOp.andThen fun _ => safe_iput.next fun _ => ?_
    exact silent_endOp.safe

theorem safe_fileclose_fresh : Books L P (Par.fileclose E f) {.fresh f} fun _ B => B = 0 :=
  safe_fileclose.entails (books_entails fun W _ _ hA => ⟨W, hA.used⟩)

/-! ## System calls -/

/-- What a process has between two calls. -/
def Idle (p : Fin NPROC) (B : Multiset Share) : Prop := B = {.own p}

abbrev Serves (L : Multiset Share) (P : (Fin NPROC → Option SysCall) → Prop) (p : Fin NPROC)
    (t : Code Int) (A : Multiset Share) :
    Prop := Books L P t A fun _ B => Idle p B

theorem entails_idle : Entails (bookkeeping L) P {.me p x .full} {.own p} :=
  books_entails fun W _ _ hA => ⟨W, hA.forget⟩

theorem Safe.done {t : Code Int} (h : Books L P t A fun _ B => ∃ x, B = {.me p x .full}) :
    Books L P t A fun _ B => Idle p B :=
  h.conclude fun _ _ ⟨_, hB⟩ => ⟨_, hB ▸ entails_idle, rfl⟩

theorem safe_ret {a : Int} : Serves L P p (.ret a) {.me p x .full} :=
  Safe.done (.ret ⟨x, rfl⟩)

theorem safe_endOp {a : Int} : Serves L P p (do act endOp; pure a) {.me p x .full} :=
  silent_endOp.andThen fun _ => safe_ret

theorem safe_putEnd {a : Int} :
    Serves L P p (do Par.iunlockput E ip; act endOp; pure a) ({.me p x .full} + {.ref ip}) := by
  refine Safe.spend safe_iunlockput (add_comm _ _) fun _ => ?_
  exact safe_endOp

theorem safe_proc : Books L P (act (proc p)) {.own p} fun x B => B = {.me p x .full} :=
  books_step fun W _ _ hA => wp_mono (wp_proc trivial fun _ hp => hA.know hp) fun _ _ h =>
    ⟨_, rfl, W, h⟩

theorem safe_proc_known : Books L P (act (proc p)) {.me p x w} fun y B => y = x ∧ B = {.me p x w} :=
  books_step fun W _ _ hA => wp_mono (proc_known hA) fun _ _ h => ⟨_, ⟨h.1, rfl⟩, W, h.2⟩

variable {fd : Fin NOFILE}

theorem safe_withFile {u : Fin NFILE → Code Int} (hu : ∀ f, Silent (u f)) :
    Books L P (do
      let x ← act (proc p)
      match x.ofile fd with
      | none => return -1
      | some f => u f) {.own p} fun _ B => Idle p B := by
  refine safe_proc.next fun x => ?_
  cases x.ofile fd with
  | none => exact safe_ret
  | some f => exact Safe.done ((hu f).safe.mono fun _ _ hB => ⟨x, hB⟩)

theorem safe_fdalloc : Books L P (act (fdalloc p f)) {.me p x .full} fun r B =>
    (∀ fd, r = some fd → x.ofile fd = none) ∧ B = {fdTaken p x f r} :=
  books_step fun W _ _ hA => wp_mono (fdalloc_accounts hA) fun _ _ h => ⟨_, ⟨h.1, rfl⟩, W, h.2⟩

theorem safe_filedup (fd : Fin NOFILE) (hfd : (w.view x).ofile fd = some f) :
    Books L P (act (filedup f)) {.me p x w} fun _ B => B = {.me p x w} + {.file f} := by
  refine books_step fun W M s hA =>
    wp_mono (filedup_accounts (p := p) hA (by simp) hfd) fun _ s' h => ⟨_, rfl, W, ?_⟩
  rw [add_comm {Share.me p x w}, add_assoc]
  exact h

theorem safe_clearFd :
    Books L P (act (Par.clearFd p fd)) {.me p x (.noFd fd)} fun _ B =>
      B = {.me p (x.withFd fd none) .full} :=
  books_step fun W _ _ hA => wp_mono (clearFd_accounts hA) fun _ _ h => ⟨_, rfl, W, h⟩

theorem entails_open_fd (hf : x.ofile fd = some f) :
    Entails (bookkeeping L) P {.me p x .full} ({.me p x (.noFd fd)} + {.file f}) :=
      books_entails fun _ _ _ hA => hA.open_fd hf

theorem entails_fill_fd (hf : x.ofile fd = some f) :
    Entails (bookkeeping L) P ({.me p x (.noFd fd)} + {.file f}) {.me p x .full} :=
      books_entails fun _ _ _ hA => hA.fill_fd hf

variable {o : Option (Fin NFILE)}

theorem withFd_self : (x.withFd fd o).ofile fd = o := Function.update_self ..

theorem safe_sysDup : Serves L P p (Par.sysDup p fd) {.own p} := by
  refine safe_proc.next fun x => ?_
  cases hf : x.ofile fd with
  | none => exact safe_ret
  | some f =>
    refine safe_fdalloc.bind fun r B ⟨hnone, hB⟩ => ?_
    subst hB
    cases r with
    | none => exact safe_ret
    | some fd' =>
      have hne : fd ≠ fd' := fun h => by
        have := hnone fd' rfl
        rw [← h, hf] at this
        cases this
      refine (safe_filedup fd ?_).bind fun _ B hB => ?_
      · rw [← hf]
        simp [Window.view, Proc.withFd, hne]
      · subst hB
        exact Safe.entails safe_ret (entails_fill_fd withFd_self)

theorem safe_sysClose : Serves L P p (Par.sysClose E p fd) {.own p} := by
  refine safe_proc.next fun x => ?_
  cases hf : x.ofile fd with
  | none => exact safe_ret
  | some f =>
    refine Safe.entails ?_ (entails_open_fd hf)
    refine Safe.after safe_clearFd rfl fun _ => ?_
    refine Safe.spend safe_fileclose (add_comm _ _) fun _ => ?_
    exact safe_ret

theorem safe_linkBad : Books L P (Par.linkBad E ip) {.ref ip} fun _ B => B = 0 := by
  refine silent_ilock.andThen fun _ => (silent_addNlink _).andThen fun _ =>
    safe_iunlockput.next fun _ => ?_
  exact silent_endOp.andThen fun _ => .ret rfl

theorem safe_sysLink {old new : List UInt8} : Serves L P p (Par.sysLink E p old new) {.own p} := by
  refine safe_proc.next fun x => ?_
  refine silent_beginOp.andThen fun _ => (safe_namei rfl).next fun r => ?_
  cases r with
  | none => exact safe_endOp
  | some ip =>
    -- the reference to `ip` is dropped on each of the ways out
    have hbad : Serves L P p (Par.linkBad E ip) ({.me p x .full} + {.ref ip}) :=
      Safe.done (safe_linkBad.within (add_comm _ _) fun _ B hB => ⟨x, by rw [hB, zero_add]⟩)
    refine silent_ilock.andThen fun _ => silent_inode.andThen fun y => ?_
    split
    · exact safe_putEnd
    · refine (silent_addNlink _).andThen fun _ => silent_iunlock.andThen fun _ => ?_
      refine Safe.after (safe_namex rfl) rfl fun r => ?_
      cases r with
      | none => exact hbad
      | some z =>
        obtain ⟨dp, name⟩ := z
        refine silent_ilock.andThen fun _ => silent_inode.andThen fun y =>
          silent_inode.andThen fun x' => ?_
        have hput : Books L P (do Par.iunlockput E dp; Par.linkBad E ip)
          ({.me p x .full} + {.ref dp} + {.ref ip})
            fun _ B => Idle p B := by
          refine Safe.spend safe_iunlockput (C := {.me p x .full} + {.ref ip}) (by abel) fun _ => ?_
          exact hbad
        split
        · exact hput
        · refine Safe.after safe_dirlink (C := {.me p x .full} + {.ref ip})
            (by simp [refsOf]) fun r => ?_
          rw [add_left_comm, ← add_assoc]
          split
          · exact hput
          · refine Safe.after safe_iunlockput (C := {.me p x .full} + {.ref ip})
              (by abel) fun _ => ?_
            refine Safe.spend safe_iput (C := {.me p x .full}) (by abel) fun _ => ?_
            exact safe_endOp

theorem safe_sysUnlink : Serves L P p (Par.sysUnlink E p path) {.own p} := by
  refine safe_proc.next fun x => ?_
  refine silent_beginOp.andThen fun _ => (safe_namex rfl).next fun r => ?_
  cases r with
  | none => exact safe_endOp
  | some z =>
    obtain ⟨dp, name⟩ := z
    refine silent_ilock.andThen fun _ => ?_
    split
    · exact safe_putEnd
    · refine Safe.after safe_dirlookup (C := {.me p x .full}) (add_comm _ _) fun r => ?_
      cases r with
      | none =>
        rw [add_comm]
        exact safe_putEnd
      | some y =>
        obtain ⟨ip, off⟩ := y
        refine silent_ilock.andThen fun _ => silent_inode.andThen fun x' => ?_
        split
        · exact safe_throw _
        · refine Silent.andThen ((silent_data E).reads.nonemptyDir _) fun ne => ?_
          cases ne with
          | true =>
            refine Safe.spend safe_iunlockput (C := {.me p x .full} + {.ref dp})
              (by simp only [refsOf, Option.map_some]; abel) fun _ => ?_
            exact safe_putEnd
          | false =>
            refine (silent_writei _ _).andThen fun r => ?_
            split
            · exact safe_throw _
            · refine Silent.andThen ((silent_data E).dropParent _ _) fun _ => ?_
              refine Safe.spend safe_iunlockput (C := {.ref ip} + {.me p x .full})
                (by simp only [refsOf, Option.map_some]; abel) fun _ => ?_
              refine (silent_addNlink _).andThen fun _ => Safe.spend safe_iunlockput rfl fun _ => ?_
              exact safe_endOp

theorem safe_createDots : Books L P (Par.createDots E ip dp) {.ref ip} fun _ B =>
    B = {.ref ip} := by
  refine (silent_addNlink _).andThen fun _ => silent_inode.andThen fun _ =>
    safe_dirlink.next fun r => ?_
  split
  · exact safe_throw _
  · refine silent_inode.andThen fun _ => safe_dirlink.next fun r => ?_
    split
    · exact safe_throw _
    · exact .ret rfl

variable {major minor : Int}

theorem safe_create (hv : (w.view x).cwd = some cwd) :
    Books L P (Par.create E cwd path type major minor) {.me p x w} fun r B =>
      B = {.me p x w} + refsOf r := by
  refine (safe_namex hv).next fun r => ?_
  cases r with
  | none => exact .ret rfl
  | some z =>
    obtain ⟨dp, name⟩ := z
    refine silent_ilock.andThen fun _ =>
      Safe.after safe_dirlookup (C := {.me p x w}) (add_comm _ _) fun r => ?_
    cases r with
    | some y =>
      obtain ⟨ip, off⟩ := y
      refine Safe.spend safe_iunlockput (C := {.me p x w} + {.ref ip})
        (by simp only [refsOf, Option.map_some]; abel) fun _ => ?_
      refine silent_ilock.andThen fun _ => silent_inode.andThen fun x' => ?_
      split
      · exact .ret rfl
      · refine Safe.seq safe_iunlockput (add_comm _ _) fun _ B hB => .ret ?_
        subst hB
        exact add_comm _ _
    | none =>
      refine silent_inode.andThen fun y => Safe.after safe_ialloc (zero_add _).symm fun ip => ?_
      refine silent_ilock.andThen fun _ =>
        Silent.andThen (silent_act ((respects_shares E).store _)) fun _ => ?_
      have hrest : Books L P (do
          let x ← act (inode ip)
          let r ← Par.dirlink E dp name x.inum
          if r < 0 then act (throw .createDirlink)
          else
            Par.iunlockput E dp
            return some ip) ({.ref ip} + ({.ref dp} + {.me p x w})) fun r B =>
              B = {.me p x w} + refsOf r := by
        refine silent_inode.andThen fun _ =>
          Safe.seq safe_dirlink (C := {.ref ip} + {.me p x w}) (add_left_comm _ _ _)
          fun r B hB => ?_
        subst hB
        split
        · exact safe_throw _
        · refine Safe.seq safe_iunlockput rfl fun _ B hB => .ret ?_
          subst hB
          rw [zero_add]
          exact add_comm _ _
      split
      · refine Safe.after safe_createDots rfl fun _ => ?_
        exact hrest
      · exact hrest

variable {omode : Nat}

theorem safe_openInode (hv : (w.view x).cwd = some cwd) :
    Books L P (Par.openInode E cwd path omode) {.me p x w} fun r B =>
      B = {.me p x w} + refsOf r := by
  unfold Par.openInode
  split
  · exact safe_create hv
  · refine (safe_namei hv).next fun r => ?_
    cases r with
    | none => exact .ret rfl
    | some ip =>
      refine silent_ilock.andThen fun _ => silent_inode.andThen fun y => ?_
      split
      · refine Safe.seq safe_iunlockput (add_comm _ _) fun _ B hB => .ret ?_
        subst hB
        exact add_comm _ _
      · exact .ret rfl

/-- The share that comes with a new file, if there is one. -/
def freshOf : Option (Fin NFILE) → Multiset Share
  | some f => {.fresh f}
  | none => 0

theorem safe_filealloc : Books L P (act filealloc) 0 fun r B => B = freshOf r :=
  books_step fun W _ _ hA => wp_mono (filealloc_accounts (by rw [zero_add] at hA; exact hA))
    fun r _ h => ⟨_, rfl, W, by cases r <;> exact h⟩

theorem safe_sysOpen : Serves L P p (Par.sysOpen E p path omode) {.own p} := by
  refine safe_proc.next fun x => ?_
  refine silent_beginOp.andThen fun _ => (safe_openInode rfl).next fun r => ?_
  cases r with
  | none => exact safe_endOp
  | some ip =>
    refine Safe.after safe_filealloc (zero_add _).symm fun r => ?_
    cases r with
    | none =>
      rw [freshOf, zero_add]
      exact safe_putEnd
    | some f =>
      refine Safe.seq (safe_fdalloc (x := x))
        (C := {.fresh f} + {.ref ip}) (by simp only [refsOf, freshOf]; abel) fun r B hB => ?_
      obtain ⟨-, rfl⟩ := hB
      cases r with
      | none =>
        refine Safe.spend safe_fileclose_fresh (C := {.me p x .full} + {.ref ip})
          (by rw [fdTaken]; abel) fun _ => ?_
        exact safe_putEnd
      | some fd =>
        refine silent_iunlock.andThen fun _ => silent_endOp.andThen fun _ => ?_
        have hfill : Books L P (act (Par.fillFile f ip omode)) ({.fresh f} + {.ref ip}) fun _ B =>
            B = {.file f} :=
          books_step fun W _ _ hA => wp_mono (fillFile_accounts hA) fun _ _ h => ⟨_, rfl, W, h⟩
        refine Safe.after hfill (add_comm _ _) fun _ => ?_
        rw [add_comm]
        exact Safe.entails safe_ret (entails_fill_fd withFd_self)

theorem safe_makeNode :
    Serves L P p (Par.makeNode E p path type major minor) {.own p} := by
  refine safe_proc.next fun x => ?_
  refine silent_beginOp.andThen fun _ => (safe_create rfl).next fun r => ?_
  cases r with
  | none => exact safe_endOp
  | some ip =>
    exact safe_putEnd

theorem entails_open_cwd : Entails (bookkeeping L) P {.me p x .full}
    ({.me p x .noCwd} + {.ref x.cwd}) :=
  books_entails fun _ _ _ hA => hA.open_cwd

theorem safe_sysChdir : Serves L P p (Par.sysChdir E p path) {.own p} := by
  refine safe_proc.next fun x => ?_
  refine silent_beginOp.andThen fun _ => (safe_namei rfl).next fun r => ?_
  cases r with
  | none => exact safe_endOp
  | some ip =>
    refine silent_ilock.andThen fun _ => silent_inode.andThen fun y => ?_
    split
    · exact safe_putEnd
    · refine silent_iunlock.andThen fun _ => ?_
      -- from here to the assignment the old directory does not count
      have hput : Books L P (Par.iput E x.cwd) {.me p x .full} fun _ B => B = {.me p x .noCwd} :=
        Safe.entails (safe_iput.within (add_comm _ _) fun _ B hB => by
          rw [hB, zero_add]) entails_open_cwd
      refine Safe.after hput rfl fun _ => ?_
      refine silent_endOp.andThen fun _ => ?_
      have hset : Books L P (act (setProc p { x with cwd := ip })) {.me p x .noCwd}
          fun _ B => B = {.me p { x with cwd := ip } .noCwd} :=
        books_step fun W _ _ hA => by
          rw [wp_setProc]
          exact ⟨_, rfl, W, hA.reproc (.inl ⟨_, _, rfl, rfl, rfl⟩)⟩
      refine Safe.after hset rfl fun _ => ?_
      exact Safe.entails safe_ret (books_entails fun _ _ _ hA => hA.fill_cwd)

variable {memory : Bool}

theorem safe_pipealloc : Books L P (Par.pipealloc E memory) 0 fun r B =>
    B = match r with
      | some (f0, f1) => {.file f0} + {.file f1}
      | none => 0 := by
  refine safe_filealloc.next fun r => ?_
  cases r with
  | none => exact .ret rfl
  | some f0 =>
    refine Safe.after safe_filealloc (zero_add _).symm fun r => ?_
    cases r with
    | none =>
      rw [show freshOf none = 0 from rfl, zero_add]
      refine safe_fileclose_fresh.next fun _ => ?_
      exact .ret rfl
    | some f1 =>
      cases memory with
      | true =>
        have hfill : Books L P (act (Par.fillPipe f0 f1)) (freshOf (some f1) + freshOf (some f0))
            fun _ B => B = {.file f0} + {.file f1} := by
          refine books_step fun W M s hA => ?_
          rw [add_comm (freshOf _)] at hA
          exact wp_mono (fillPipe_accounts hA) fun _ _ h => ⟨_, rfl, W, h⟩
        refine hfill.next fun _ => ?_
        exact .ret rfl
      | false =>
        refine Safe.spend safe_fileclose_fresh (add_comm _ _) fun _ => ?_
        refine safe_fileclose_fresh.next fun _ => ?_
        exact .ret rfl

theorem safe_closeBoth {rf wf : Fin NFILE} : Books L P (do
    Par.fileclose E rf
    Par.fileclose E wf
    return (-1 : Int)) ({.me p x .full} + {.file rf} + {.file wf}) fun _ B => Idle p B := by
  refine Safe.after safe_fileclose (C := {.me p x .full} + {.file wf}) (by abel) fun _ => ?_
  refine Safe.spend safe_fileclose (C := {.me p x .full}) (by abel) fun _ => ?_
  exact safe_ret

theorem safe_sysPipe : Serves L P p (Par.sysPipe E p memory) {.own p} := by
  refine Safe.after safe_pipealloc (zero_add _).symm fun r => ?_
  cases r with
  | none =>
    rw [zero_add]
    exact .ret rfl
  | some z =>
    obtain ⟨rf, wf⟩ := z
    -- `fdalloc` looks the process up by itself
    have hfd : Books L P (act (fdalloc p rf)) {.own p} fun r B => ∃ x, B = {fdTaken p x rf r} :=
      books_step fun W _ _ hA => wp_mono (fdalloc_own hA) fun _ _ ⟨x, h⟩ => ⟨_, ⟨x, rfl⟩, W, h⟩
    refine Safe.seq hfd (add_comm _ _) fun r B ⟨x, hB⟩ => ?_
    subst hB
    cases r with
    | none =>
      rw [← add_assoc]
      exact safe_closeBoth
    | some fd0 =>
      refine Safe.entails (A := {.me p (x.withFd fd0 (some rf)) .full} + {.file wf}) ?_ ?_
      · refine Safe.seq safe_fdalloc rfl fun r B hB => ?_
        obtain ⟨-, rfl⟩ := hB
        cases r with
        | none =>
          refine Safe.entails (A := {.me p (x.withFd fd0 (some rf)) (.noFd fd0)} +
            ({.file rf} + {.file wf})) ?_ ?_
          · refine Safe.after safe_clearFd rfl fun _ => ?_
            rw [← add_assoc]
            exact safe_closeBoth
          · refine books_entails fun W M s hA => ?_
            rw [add_assoc] at hA
            have hfd0 : (x.withFd fd0 (some rf)).ofile fd0 = some rf := withFd_self
            obtain ⟨W', h'⟩ := hA.open_fd hfd0
            exact ⟨W', by rwa [← add_assoc, add_assoc _ _ M]⟩
        | some fd1 => exact Safe.entails safe_ret (entails_fill_fd withFd_self)
      · refine books_entails fun W M s hA => ?_
        rw [← add_assoc, add_assoc _ _ M] at hA
        obtain ⟨W', h'⟩ := hA.fill_fd withFd_self
        exact ⟨W', by rwa [add_assoc]⟩

theorem safe_exec {next : List (Int × List UInt8) → Option (Nat × Nat)} {fuel : Nat} :
    Serves L P p (Par.exec E p path next fuel) {.own p} := by
  refine safe_proc.next fun x => ?_
  refine silent_beginOp.andThen fun _ => (safe_namei rfl).next fun r => ?_
  cases r with
  | none => exact safe_endOp
  | some ip =>
    refine silent_ilock.andThen fun _ =>
      Silent.andThen ((silent_data E).reads.execReads _ next fuel []) fun _ => ?_
    exact safe_putEnd

/-- The share that comes with an open file, if there is one. -/
def filesOf : Option (Fin NFILE) → Multiset Share
  | some f => {.file f}
  | none => 0

theorem safe_dupFiles : ∀ fds : List (Fin NOFILE), Books L P (Par.dupFiles x fds)
    {.me p x .full} fun _ B =>
    B = {.me p x .full} + (fds.map fun fd => filesOf (x.ofile fd)).sum
  | [] => .ret (by simp)
  | fd :: fds => by
    unfold Par.dupFiles
    cases hf : x.ofile fd with
    | none =>
      refine (safe_dupFiles fds).mono fun _ B hB => ?_
      rw [hB, List.map_cons, List.sum_cons, hf]
      simp [filesOf]
    | some f =>
      refine (safe_filedup (w := .full) fd hf).next fun _ => ?_
      refine (safe_dupFiles fds).within rfl fun _ B hB => ?_
      rw [hB, List.map_cons, List.sum_cons, hf]
      simp only [filesOf]
      abel

theorem tally_filesOf : tally (Share.files f) (filesOf o) = if o = some f then 1 else 0 := by
  cases o <;> simp [filesOf, Share.files]

theorem safe_fork {child : Option (Fin NPROC)} : Serves L P p (Par.fork p child) {.own p} := by
  refine safe_proc.next fun x => ?_
  cases child with
  | none => exact safe_ret
  | some q =>
    refine (safe_dupFiles _).next fun _ => ?_
    refine Safe.seq (safe_idup rfl) rfl fun cwd B ⟨hcwd, hB⟩ => ?_
    subst hcwd hB
    -- the child takes over one reference for each of its pointers
    have hnew : Books L P (act (Par.newProc q x))
        ({.ref x.cwd} + ((List.finRange NOFILE).map fun fd => filesOf (x.ofile fd)).sum) fun _ B =>
          B = 0 := by
      refine books_step fun W M s hA =>
        wp_mono (newProc_accounts hA (fun q' => ?_) (fun k => ?_) fun f => ?_)
        fun _ _ ⟨W', h⟩ => ⟨0, rfl, W', by rw [zero_add]; exact h⟩
      · rw [tally_add, tally_sum, List.map_map]
        simp only [tally_singleton, Share.procs, zero_add]
        refine List.sum_eq_zero fun n hn => ?_
        obtain ⟨fd, -, rfl⟩ := List.mem_map.1 hn
        cases hf : x.ofile fd <;> simp [hf, filesOf, Share.procs]
      · rw [tally_add, tally_sum, List.map_map, List.sum_eq_zero]
        · simp [Share.refs, Window.view, View.at]
        · intro n hn
          obtain ⟨fd, -, rfl⟩ := List.mem_map.1 hn
          cases hf : x.ofile fd <;> simp [hf, filesOf, Share.refs]
      · rw [tally_add, tally_sum, List.map_map, tally_singleton, View.slots, Fin.sum_univ_def]
        simp only [Share.files, zero_add]
        exact congrArg List.sum (List.map_congr_left fun fd _ => tally_filesOf)
    refine Safe.spend hnew (C := {.me p x .full}) (by abel) fun _ => ?_
    exact safe_ret

/-- The descriptors in `fds` are closed, and no other is opened. -/
theorem safe_closeFiles :
    ∀ (fds : List (Fin NOFILE)) (x : Proc), Books L P (Par.closeFiles E p fds) {.me p x .full}
    fun _ B => ∃ y : Proc, B = {.me p y .full} ∧ (∀ fd ∈ fds, y.ofile fd = none) ∧
      ∀ fd, x.ofile fd = none → y.ofile fd = none
  | [], x => .ret ⟨x, rfl, by simp, fun _ h => h⟩
  | fd :: fds, x => by
    refine safe_proc_known.bind fun y B hB => ?_
    obtain ⟨rfl, rfl⟩ := hB
    cases hf : y.ofile fd with
    | none =>
      refine (safe_closeFiles fds y).mono fun _ B ⟨z, hB, hz, hkeep⟩ =>
        ⟨z, hB, fun fd' hfd' => ?_, hkeep⟩
      rcases List.mem_cons.1 hfd' with rfl | h
      · exact hkeep _ hf
      · exact hz fd' h
    | some f =>
      refine Safe.entails ?_ (entails_open_fd hf)
      refine Safe.spend safe_fileclose (add_comm _ _) fun _ => ?_
      refine safe_clearFd.next fun _ => ?_
      refine (safe_closeFiles fds (y.withFd fd none)).mono fun _ B ⟨z, hB, hz, hkeep⟩ =>
        ⟨z, hB, fun fd' hfd' => ?_, fun fd' h => ?_⟩
      · rcases List.mem_cons.1 hfd' with rfl | h
        · exact hkeep _ withFd_self
        · exact hz fd' h
      · refine hkeep fd' ?_
        by_cases hfd : fd' = fd
        · rw [hfd, withFd_self]
        · simpa [Proc.withFd, hfd] using h

theorem safe_exit : Serves L P p (Par.exit E p) {.own p} := by
  refine safe_proc.next fun x => ?_
  split
  · exact safe_throw _
  · refine (safe_closeFiles _ x).bind fun _ B ⟨y, hB, hnone, _⟩ => ?_
    subst hB
    refine silent_beginOp.andThen fun _ => safe_proc_known.bind fun z B hB => ?_
    obtain ⟨rfl, rfl⟩ := hB
    refine Safe.entails ?_ entails_open_cwd
    refine Safe.spend safe_iput (add_comm _ _) fun _ => ?_
    refine silent_endOp.andThen fun _ =>
      Safe.bind (Q := fun _ B => Idle p B) (books_step fun W M s hA => ?_) fun _ _ hB => .ret hB
    have hend : Accounts W ({.own p} + M) (s.withProc p none) := by
      refine hA.reproc (.inr ⟨rfl, ?_⟩)
      have : z.ofile = fun _ => none := funext fun fd => hnone fd (List.mem_finRange fd)
      simp [viewOf, View.empty, Window.view, this]
    exact ⟨_, rfl, W, hend⟩

/-! ## Runs -/

theorem kernel_obeys (E : Env) (L : Multiset Share) : Obeys (kernel E) (bookkeeping L) Idle where
  body j B hB := by
    subst hB
    cases j with
    | op o =>
      cases o with
      | «open» p path omode => exact safe_sysOpen
      | dup p fd => exact safe_sysDup
      | close p fd => exact safe_sysClose
      | read p fd n =>
        exact safe_withFile fun f => (silent_sections E).fileread (n := 0) (silent_data E).reads f n
      | write p fd addr n =>
        exact safe_withFile fun f => (silent_sections E).filewrite (n := 0) f addr n
      | link p old new => exact safe_sysLink
      | unlink p path => exact safe_sysUnlink
      | mkdir p path => exact safe_makeNode
      | mknod p path major minor => exact safe_makeNode
      | chdir p path => exact safe_sysChdir
    | fstat p fd => exact safe_withFile fun f => (silent_sections E).filestat (n := 0) f
    | pipe p memory => exact safe_sysPipe
    | exec p path next fuel => exact safe_exec
    | fork p child => exact safe_fork
    | exit p => exact safe_exit
  jobs _ _ _ _ _ _ _ h := h

/-! ## From boot on -/

/-- The kernel's tables before anything has run. -/
def blank (disk : Disk) : FsState where
  disk
  icache _ := ⟨0, 0, false, false, none, 0, 0, 0, 0, 0, fun _ => 0⟩
  mounts := List.replicate MOUNT_POINTS_SIZE freeSlot
  outstanding := 0
  logged := []
  ftable _ := ⟨false, 0, false, false, 0, 0, false⟩
  procs _ := none

/-- The part of `userinit` about the file system: `p->cwd = namei("/")`, with `boot_part` still null
(proc.c:99). -/
def userinit : FsM Unit := do
  let ip ← iget none ROOTINO
  setProc 0 ⟨ip, fun _ => none⟩

/-- `ip = iget(boot_part, ROOTINO); proc->cwd = ip;` (fs.c:266) -/
def iinit (E : Env) : FsM Unit := do
  let ip ← iget (some E.boot) ROOTINO
  let x ← proc 0
  setProc 0 { x with cwd := ip }

/-- A state after initialisation. -/
def Initialised (E : Env) (s : FsState) : Prop :=
  ∃ disk, (do userinit; iinit E) (blank disk) = .ok ((), s)

/-- How many `struct file`s are open on slot `k`. -/
def openFiles (s : FsState) (k : Fin NINODE) : Nat :=
  (Finset.univ.filter fun f => 0 < (s.ftable f).ref ∧ (s.ftable f).isInode = true ∧
    (s.ftable f).ip = k).card

/-- How many processes have slot `k` as their current directory. -/
def cwds (s : FsState) (k : Fin NINODE) : Nat :=
  (Finset.univ.filter fun p => (s.procs p).map Proc.cwd = some k).card

variable {s : FsState}

theorem openFiles_eq : openFiles s k = ∑ f, (s.ftable f).opens k := Finset.card_filter ..

theorem cwds_eq : cwds s k = ∑ p, (viewOf (s.procs p)).at k := by
  rw [cwds, Finset.card_filter]
  refine Finset.sum_congr rfl fun p _ => ?_
  cases s.procs p with
  | none => rfl
  | some x => simp [viewOf, Window.view, View.at]

/-- A slot that was just taken. -/
def bootSlot (prt : Option Int) : Inode :=
  ⟨ROOTINO, 1, false, false, prt, 0, 0, 0, 0, 0, fun _ => 0⟩

/-- The state that the boot sequence ends with. -/
def bootState (E : Env) (disk : Disk) : FsState :=
  ((((blank disk).withInode 0 (bootSlot none)).withProc 0 (some ⟨0, fun _ => none⟩)).withInode 1
    (bootSlot (some E.boot))).withProc 0
    (some ⟨1, fun _ => none⟩)

theorem initialised_iff : Initialised E s ↔ ∃ disk, s = bootState E disk := by
  have hrun : ∀ disk, (do userinit; iinit E) (blank disk) = .ok ((), bootState E disk) :=
    fun disk => rfl
  constructor
  · rintro ⟨disk, h⟩
    rw [hrun] at h
    cases h
    exact ⟨disk, rfl⟩
  · rintro ⟨disk, rfl⟩
    exact ⟨disk, hrun disk⟩

variable {disk : Disk}

theorem bootState_icache : (bootState E disk).icache =
    fun k => if k = 0 then bootSlot none else if k = 1 then bootSlot (some E.boot)
    else (blank disk).icache k := by
  funext k
  by_cases h1 : k = 1
  · subst h1
    rfl
  · by_cases h0 : k = 0
    · subst h0
      rfl
    · simp [bootState, FsState.withProc, FsState.withInode, h0, h1]

theorem bootState_procs : (bootState E disk).procs = fun p => if p = 0 then some ⟨1, fun _ => none⟩
    else none := by
  funext p
  by_cases h0 : p = 0
  · subst h0
    rfl
  · have hblank : (blank disk).procs p = none := rfl
    simp [bootState, FsState.withProc, FsState.withInode, hblank, h0]

theorem bootState_mounts : ∀ e ∈ (bootState E disk).mounts, e = freeSlot := by
  have h : (bootState E disk).mounts = List.replicate MOUNT_POINTS_SIZE freeSlot := rfl
  rw [h]
  exact fun e he => List.eq_of_mem_replicate he

/-- The shares of processes none of which is in a call. -/
@[irreducible]
def idleShares : Multiset Share := ∑ p, {.own p}

theorem mem_idleShares {h : Share} : h ∈ idleShares ↔ ∃ p, h = .own p := by
  unfold idleShares
  simp only [Multiset.mem_sum, Multiset.mem_singleton, Finset.mem_univ, true_and]

theorem tally_idleShares {f : Share → Nat} : tally f idleShares = ∑ p, f (.own p) := by
  unfold idleShares
  simp only [tally_finset_sum, tally_singleton]

theorem me_notMem_idle : Share.me p x w ∉ idleShares + {.null k} := by simp [mem_idleShares]

theorem bootState_accounts (E : Env) (disk : Disk) :
    Accounts (fun p => viewOf ((bootState E disk).procs p)) (idleShares + {.null 0})
      (bootState E disk) where
  mounts := bootState_mounts
  one p := by simp [tally_idleShares, Share.procs]
  me p x w h := absurd h me_notMem_idle
  idle p _ := rfl
  refs k := by
    have hopens : ∀ f, ((bootState E disk).ftable f).opens k = 0 := fun f => rfl
    have hcwd : ∀ p, (viewOf ((bootState E disk).procs p)).at k = if p = 0 ∧ k = 1 then 1
        else 0 := fun p => by
      rw [bootState_procs]
      by_cases hp : p = 0
      · by_cases hk : k = 1
        · simp [hp, hk, viewOf, Window.view, View.at]
        · simp [hp, hk, Ne.symm hk, viewOf, Window.view, View.at]
      · simp [hp, viewOf, View.empty, View.at]
    have hsum : (∑ p, (viewOf ((bootState E disk).procs p)).at k) = if k = 1 then 1 else 0 := by
      rw [Finset.sum_congr rfl fun p _ => hcwd p]
      by_cases hk : k = 1 <;> simp [hk]
    rw [hsum, Finset.sum_congr rfl fun f _ => hopens f, bootState_icache]
    simp only [tally_idleShares, tally_add, tally_singleton, Share.refs,
      Finset.sum_const_zero, zero_add]
    by_cases h0 : k = 0
    · subst h0
      rfl
    · by_cases h1 : k = 1
      · subst h1
        rfl
      · have hblank : ((blank disk).icache k).ref = 0 := rfl
        simp [h0, h1, Ne.symm h0, hblank]
  files f := by
    have hslots : ∀ p, (viewOf ((bootState E disk).procs p)).slots f = 0 := fun p => by
      rw [bootState_procs]
      by_cases hp : p = 0 <;> simp [hp, viewOf, View.empty, Window.view, View.slots]
    have hblank : ((bootState E disk).ftable f).ref = 0 := rfl
    rw [Finset.sum_congr rfl fun p _ => hslots p, hblank]
    simp [tally_idleShares, Share.files]
  closed f _ := ⟨rfl, rfl⟩
  fresh f h := by simp [mem_idleShares] at h
  inums k hk := by
    rw [bootState_icache] at hk ⊢
    by_cases h0 : k = 0
    · simp [h0, bootSlot]
    · by_cases h1 : k = 1
      · simp [h1, bootSlot]
      · have hblank : ((blank disk).icache k).ref = 0 := rfl
        simp [h0, h1, hblank] at hk
  null k h := by
    have : k = 0 := by simpa [mem_idleShares] using h
    subst this
    rfl

/-- The kernel in state `s`, with no call in progress. -/
def atRest (s : FsState) : Kernel := ⟨fun _ => none, s⟩

theorem accounts_quiet {c : Kernel} (h : Initialised E s)
    (hr : Pool.Reaches (kernel E) (fun _ _ => True) (atRest s) c)
    (hq : c.Quiet) : Accounts (fun p => viewOf (c.state.procs p))
      (idleShares + {.null 0}) c.state := by
  obtain ⟨disk, rfl⟩ := initialised_iff.1 h
  have hstart : Sound (bookkeeping {.null 0}) Idle (atRest (bootState E disk)) := by
    have hboot := bootState_accounts E disk
    unfold idleShares at hboot
    refine ⟨fun p => {.own p}, ?_, fun p => ?_⟩
    · exact ⟨_, hboot⟩
    · have : Idle p {.own p} := rfl
      exact ⟨this, Rules.owed_le fun _ => rfl⟩
  obtain ⟨A, ⟨W, hW⟩, hA⟩ := hstart.reaches (kernel_obeys E _) hr
  have hown : ∀ p, A p = {.own p} := fun p => by
    have := hA p
    rw [hq p] at this
    exact this.1
  have hsum : (∑ p, A p) = idleShares := by
    unfold idleShares
    exact Finset.sum_congr rfl fun p _ => hown p
  rw [hsum] at hW
  have hview : W = fun p => viewOf (c.state.procs p) := funext fun p =>
    hW.idle p fun x w => me_notMem_idle
  rw [← hview]
  exact hW

/-- **In every run from initialisation on, with any number of processes and any interleaving of
their calls, whenever no call is in progress each cached inode of a partition has as many references
as there are open files on it and processes whose current directory it is.** -/
theorem refs_balanced {s : FsState} {c : Kernel} (h : Initialised E s)
    (hr : Pool.Reaches (kernel E) (fun _ _ => True) (atRest s) c) (hq : c.Quiet) {prt : Int}
    (hk : (c.state.icache k).prt = some prt) :
    (c.state.icache k).ref = openFiles c.state k + cwds c.state k := by
  have hA := accounts_quiet h hr hq
  have hne : k ≠ 0 := fun h0 => by
    have hnull := hA.null 0 (by simp)
    rw [h0, hnull] at hk
    cases hk
  rw [hA.refs, openFiles_eq, cwds_eq]
  simp only [tally_add, tally_idleShares, tally_singleton, Share.refs, if_neg hne.symm,
    Finset.sum_const_zero, add_zero, zero_add, Nat.cast_zero]

/-- `open("x")`, `fork()`, and in the child `chdir("x")`, up to its return; -/
def openForkChdir : List (Pool.Ev (Fin NPROC) SysCall) :=
  .start (.op (.open 0 [120] 0)) :: List.replicate 33 (.go 0) ++ .start (.fork 0 (some 1)) ::
  List.replicate 5 (.go 0) ++ .start (.op (.chdir 1 [120])) :: List.replicate 30 (.go 1)

/-- `chdir("..")` in the child, and `close(0)` in the parent. -/
def chdirClose : List (Pool.Ev (Fin NPROC) SysCall) :=
  .go 1 :: .start (.op (.chdir 1 [46, 46])) :: List.replicate 28 (.go 1) ++
    .start (.op (.close 0 0)) :: List.replicate 4 (.go 0)

/-- The first `chdir` returns -1. At the end two processes are in the root directory and the child
has the file open. -/
theorem refs_balanced_calls : ∃ b c : Kernel,
    Pool.Reaches (kernel demoEnv) (fun _ _ => True) (atRest (bootState demoEnv treeDisk)) b ∧
    Pool.Reaches (kernel demoEnv) (fun _ _ => True) b c ∧ b.result 1 = some (-1) ∧
    [openFiles c.state 1, cwds c.state 1, openFiles c.state 2, cwds c.state 2] = [0, 2, 1, 0] ∧
    (c.state.icache 1).ref = openFiles c.state 1 + cwds c.state 1 ∧
    (c.state.icache 2).ref = openFiles c.state 2 + cwds c.state 2 := by
  have hrun : ((Pool.execAll (kernel demoEnv) (fun _ _ => true)
    (atRest (bootState demoEnv treeDisk)) openForkChdir).bind fun b =>
      (Pool.execAll (kernel demoEnv) (fun _ _ => true) b chdirClose).map fun c =>
        (b.result 1, decide (∀ p, (c.calls p).isNone = true),
          [openFiles c.state 1, cwds c.state 1, openFiles c.state 2, cwds c.state 2],
          (c.state.icache 1).prt, (c.state.icache 2).prt)) =
      some (some (-1), true, [0, 2, 1, 0], some 0, some 0) := by decide +kernel
  obtain ⟨b, hb, hrun⟩ := Option.bind_eq_some_iff.1 hrun
  obtain ⟨c, hc, heq⟩ := Option.map_eq_some_iff.1 hrun
  simp only [Prod.mk.injEq, decide_eq_true_eq] at heq
  obtain ⟨hret, hquiet, hcounts, hp1, hp2⟩ := heq
  have hrb : Pool.Reaches (kernel demoEnv) (fun _ _ => True) _ b :=
    Pool.execAll_reaches (fun _ _ _ => trivial) hb
  have hrc : Pool.Reaches (kernel demoEnv) (fun _ _ => True) b c :=
    Pool.execAll_reaches (fun _ _ _ => trivial) hc
  have hq : c.Quiet := fun p => Option.isNone_iff_eq_none.1 (hquiet p)
  have hboot : Initialised demoEnv (bootState demoEnv treeDisk) := initialised_iff.2 ⟨_, rfl⟩
  exact ⟨b, c, hrb, hrc, hret, hcounts, refs_balanced hboot (hrb.trans hrc) hq hp1,
    refs_balanced hboot (hrb.trans hrc) hq hp2⟩

end Os4.Fs
