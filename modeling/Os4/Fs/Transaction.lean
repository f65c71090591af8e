import Os4.Fs.Accounting
/-!
# Every `log_write` belongs to a transaction of its process (log.c:211)

| here | there |
| --- | --- |
| `Last`, `release_wp` | the test of `iput` (fs.c:431) |
| `stays_job` | sysfile.c, exec.c:11, proc.c:126, 171: every call leaves as many transactions as it found |
| `Traced`, `log_write_inside` | `log.outstanding`, split among the processes (log.c:43, 218) |

`log_write` looks at `log.outstanding`, the transactions of all processes. Here each process has a
count of its own: `Traced E s n c` says that the system has come from `s` to `c`, and that process
`i` has begun `n i` transactions more than it has ended. The question is whether `log_write` would
be content with that count.

`Tx` follows one call. Most of fs.c logs and leaves transactions alone (`Logged`); what is done
outside of transactions (`ilock`, `readi`, `namei`) logs only in `bmap`, when it comes to a hole,
and in `iput`, when it frees an inode.

* **`log_write_inside`**: it is content as long as a `mount` never puts the last reference to an
  inode without links and neither `mount` nor `read` meets a hole.
* `mount_logs_outside`: a `mount` that puts a file unlinked behind its back.
-/
namespace Os4.Fs

open Prog
open Par (act enter load fileAt)

variable {E : Env} {α β : Type} {ok : Point → FsState → Prop} {n : Nat} {Q : α → Nat → Prop}
  {R : β → Nat → Prop} {l : Point}
  {m : FsM α} {t : Code α} {g : α → Code β} {k ip dp cwd : Fin NINODE} {f : Fin NFILE}
  {p : Fin NPROC} {x : Proc} {path name : List UInt8} {parent : Bool}

/-! ## Steps -/

/-- No transaction is begun or ended, and `log_write` is content. -/
def Silence (m : FsM α) (s : FsState) : Prop :=
  m.wp (fun _ s' => s'.outstanding = s.outstanding) (· ≠ .logOutside) s

variable {s : FsState}

theorem Silence.outstanding {s' : FsState} {a : α} (h : Silence m s) (hm : m s = .ok (a, s')) :
    s'.outstanding = s.outstanding := by
  unfold Silence at h
  rw [wp_run hm] at h
  exact h

/-- The step does not log. -/
def Unlogged (m : FsM α) : Prop := ∀ s, Silence m s

/-- The step may log. -/
def Logged (m : FsM α) : Prop := ∀ s, 0 < s.outstanding → Silence m s

theorem Unlogged.logged (h : Unlogged m) : Logged m := fun s _ => h s

variable {m' : α → FsM β}

theorem Silence.bind (h : Silence m s)
    (h' : ∀ a s', s'.outstanding = s.outstanding → Silence (m' a) s') : Silence (m >>= m') s := by
  rw [Silence, wp_bind]
  refine wp_mono h fun a s' hs => ?_
  exact wp_mono (h' a s' hs) fun _ _ h => h.trans hs

theorem Unlogged.bind (h : Unlogged m) (h' : ∀ a, Unlogged (m' a)) : Unlogged (m >>= m') :=
  fun s => (h s).bind fun a s' _ => h' a s'

theorem Logged.bind (h : Logged m) (h' : ∀ a, Logged (m' a)) : Logged (m >>= m') :=
  fun s hs => (h s hs).bind fun a s' hs' => h' a s' (hs' ▸ hs)

theorem unlogged_modify {h : FsState → FsState} (hh : ∀ s, (h s).outstanding = s.outstanding) :
    Unlogged (modify h : FsM PUnit) :=
  fun s => by
    rw [Silence, wp_modify]
    exact hh s

theorem unlogged_tables : RespectsTables fun _ m => Unlogged m where
  pure a s := by rw [Silence, wp_pure]
  throw e he s := by
    rw [Silence, wp_throw]
    exact he
  bind := Unlogged.bind
  get s := by rw [Silence, wp_get]
  setInode _ _ := unlogged_modify fun _ => rfl
  setFile _ _ := unlogged_modify fun _ => rfl
  setProc _ _ := unlogged_modify fun _ => rfl

theorem unlogged_takeSlot : Unlogged Par.takeSlot := by
  intro s
  rw [Silence, Par.takeSlot, wp_bind, wp_get]
  split
  · rw [wp_pure]
  · rw [wp_bind, wp_set, wp_pure]

theorem logged_logWrite (b : Nat) (x : Block) : Logged (logWrite b x) := by
  intro s hs
  rw [Silence, logWrite, wp_bind, wp_get, if_neg (by omega), wp_set]

theorem logged_ballocFrom (sb : Superblock) : ∀ bs : List Nat, Logged (ballocFrom E sb bs)
  | [] => (unlogged_tables.throw .ballocOut nofun).logged
  | b :: bs => by
    refine (unlogged_tables.bread _).logged.bind fun x => ?_
    split
    · exact (logged_logWrite _ _).bind fun _ => (logged_logWrite _ _).bind fun _ =>
        (unlogged_tables.pure _).logged
    · exact logged_ballocFrom sb bs

theorem logged_respects (E : Env) : Respects E fun _ m => Logged m where
  pure a := (unlogged_tables.pure a).logged
  throw e he := (unlogged_tables.throw e he).logged
  bind := Logged.bind
  get := unlogged_tables.get.logged
  logWrite := logged_logWrite
  setDin _ _ := (unlogged_modify fun _ => rfl).logged
  balloc prt := (unlogged_tables.readsb prt).logged.bind fun sb => logged_ballocFrom sb _
  setInode k x := (unlogged_tables.setInode k x).logged

/-! ## Calls -/

/-- In the call `t` of a process with `n` transactions open, as long as its steps are `ok`: wherever
it comes, `log_write` is content with the transactions of the process. `Q` is about the result and
the transactions open at the end. -/
def Tx (ok : Point → FsState → Prop) : Code α → Nat → (α → Nat → Prop) → Prop
  | .ret a, n, Q => Q a n
  | .atom l m k, n, Q =>
    (∀ s c, ok l s → n ≤ c → m { s with outstanding := c } ≠ .error .logOutside) ∧
    ∀ s b s', ok l s → n ≤ s.outstanding → m s = .ok (b, s') →
      s.outstanding ≤ n + s'.outstanding ∧ Tx ok (k b) (n + s'.outstanding - s.outstanding) Q

/-- The call leaves the transactions as they are. -/
abbrev Stays (ok : Point → FsState → Prop) (t : Code α) (n : Nat) : Prop :=
  Tx ok t n fun _ n' => n' = n

theorem Tx.bind (ht : Tx ok t n Q) (hg : ∀ a n', Q a n' → Tx ok (g a) n' R) :
    Tx ok (t >>= g) n R := by
  induction t generalizing n with
  | ret a => exact hg a n ht
  | atom l m k ih => exact ⟨ht.1, fun s b s' hok hn hm => (ht.2 s b s' hok hn hm).imp_right (ih b)⟩

theorem Stays.andThen (ht : Stays ok t n) (hg : ∀ a, Tx ok (g a) n R) : Tx ok (t >>= g) n R :=
  ht.bind fun a n' hn => by
    rw [hn]
    exact hg a

theorem tx_step (h : ∀ s c, ok l s → n ≤ c → m { s with outstanding := c } ≠ .error .logOutside)
    (h' : ∀ s b s', ok l s → n ≤ s.outstanding → m s = .ok (b, s') →
      s.outstanding ≤ n + s'.outstanding ∧ Q b (n + s'.outstanding - s.outstanding)) :
    Tx ok (.step l m) n Q := ⟨h, h'⟩

theorem stays_step (h : ∀ s, n ≤ s.outstanding → Silence m s) : Stays ok (.step l m) n := by
  refine tx_step (fun s c _ hc he => ?_) fun s b s' _ hn hm => ?_
  · exact wp_error (h { s with outstanding := c } hc) he rfl
  · have : s'.outstanding = s.outstanding := (h s hn).outstanding hm
    exact ⟨by omega, by omega⟩

theorem tx_throw (e : Panic) (h : e ≠ .logOutside) : Tx ok (act (throw e : FsM α)) n Q :=
  tx_step (fun _ _ _ _ he => h (by cases he; rfl)) fun _ _ _ _ _ hm => by cases hm

theorem tx_beginOp : Tx ok (act beginOp) n fun _ n' => n' = n + 1 := by
  refine tx_step (fun _ _ _ _ he => by cases he) fun s b s' _ _ hm => ?_
  cases hm
  show s.outstanding ≤ n + (s.outstanding + 1) ∧ n + (s.outstanding + 1) - s.outstanding = n + 1
  omega

theorem tx_endOp : Tx ok (act endOp) (n + 1) fun _ n' => n' = n := by
  refine tx_step (fun _ _ _ _ he => by cases he) fun s b s' _ hn hm => ?_
  cases hm
  show s.outstanding ≤ n + 1 + (s.outstanding - 1) ∧ n + 1 + (s.outstanding - 1) - s.outstanding = n
  omega

theorem tx_walk (n : Nat) : Walk (fun _ m => Unlogged m) fun _ t => Stays ok t n where
  looks := unlogged_tables.toRespectsReads
  ret _ := rfl
  bind := Stays.andThen
  step h := stays_step fun s _ => h s

theorem tx_changes (n : Nat) : Changes E (fun _ m => Logged m) fun _ t => Stays ok t (n + 1) := by
  have hwrites : Writes E (fun _ m => Logged m) fun _ t => Stays ok t (n + 1) := {
    looks := (logged_respects E).toRespectsReads
    ret _ := rfl
    bind := Stays.andThen
    step h := stays_step fun s hs => h s (Nat.lt_of_lt_of_le n.succ_pos hs)
    data := (logged_respects E).toRespectsData }
  exact { toPaths := hwrites.paths (logged_respects E).toRespectsSlots, data := hwrites.data }

theorem tx_transacts : Transacts E (fun _ m => Logged m) (fun _ m => Unlogged m) fun n n' _ t =>
    Tx ok t n fun _ x => x = n' where
  outside := tx_walk
  inside n := (tx_changes n).toWrites
  bind ht hg := ht.bind fun a _ hn => hn ▸ hg a
  panic := tx_throw
  beginOp _ := tx_beginOp
  endOp _ := tx_endOp
  ilock n := (tx_walk n).ilock unlogged_tables.toRespectsSlots
  iunlock n := (tx_walk n).iunlock unlogged_tables.toRespectsSlots
  advance := unlogged_tables.advance
  tables := unlogged_tables
  changes := tx_changes

/-! ## fs.c -/

def Last (k : Fin NINODE) (s : FsState) : Prop :=
  (s.icache k).ref = 1 ∧ (s.icache k).valid = true ∧ (s.icache k).din.nlink = 0

/-- Reading is done in a transaction, or meets no hole. -/
def MayRead (ok : Point → FsState → Prop) (n : Nat) : Prop := 0 < n ∨ ∀ s, ¬ ok .balloc s

/-- `k` is put in a transaction, or is not freed. -/
def MayPut (ok : Point → FsState → Prop) (n : Nat) : Prop :=
  0 < n ∨ ∀ k s, ok (.put k) s → ¬ Last k s

theorem release_wp (k : Fin NINODE) (s : FsState) :
    (Par.release k).wp (fun r _ => r = true → Last k s) (fun _ => True) s := by
  rw [Par.release, wp_bind, inode, wp_bind, wp_get, wp_pure]
  split
  · rename_i h
    split
    · rw [wp_throw]
      trivial
    · rw [wp_bind, setInode, wp_modify, wp_pure]
      exact fun _ => h
  · rw [wp_bind, setInode, wp_modify, wp_pure]
    simp

theorem stays_hole (hr : MayRead ok n) (h : Logged m) : Stays ok (.step .balloc m) n := by
  rcases hr with hn | hno
  · exact stays_step fun s hs => h s (Nat.lt_of_lt_of_le hn hs)
  · exact tx_step (fun s _ hok => absurd hok (hno s)) fun s _ _ hok => absurd hok (hno s)

theorem tx_reads (hr : MayRead ok n) : Reads E (fun _ m => Unlogged m) fun _ t => Stays ok t n where
  toWalk := tx_walk n
  addr prt k _ := stays_hole hr (((logged_respects E).balloc prt).bind fun _ =>
    ((logged_respects E).setDin k _).bind fun _ => (logged_respects E).pure _)
  entry prt _ _ := stays_hole hr (((logged_respects E).balloc prt).bind fun _ =>
    (logged_logWrite _ _).bind fun _ => (logged_respects E).pure _)

theorem stays_iput (h : MayPut ok n) (k : Fin NINODE) : Stays ok (Par.iput E k) n := by
  rcases n with _ | n
  · -- the inode is not freed
    have hrel : Tx ok (.step (.put k) (Par.release k)) 0 fun r n' => n' = 0 ∧ r = false := by
      have hstay : Stays ok (.step (.put k) (Par.release k)) 0 := stays_step fun s _ =>
        unlogged_tables.release k s
      refine ⟨hstay.1, fun s b s' hok hle hm => (hstay.2 s b s' hok hle hm).imp_right fun hn =>
        ⟨hn, ?_⟩⟩
      have hlast := h.resolve_left (Nat.lt_irrefl 0) k s hok
      exact Bool.eq_false_iff.2 fun hb => hlast (wp_ok (release_wp k s) hm hb)
    refine hrel.bind fun r n' ⟨hn', hr⟩ => ?_
    subst hn' hr
    exact (tx_walk 0).ret _
  · exact (tx_changes n).iput k

theorem stays_mount (hr : MayRead ok n) (hp : MayPut ok n) (cwd : Fin NINODE)
    (path : List UInt8) (i : Int) :
    Stays ok (Par.mount E cwd path i) n := by
  have h : Paths E (fun _ m => Unlogged m) fun _ t => Stays ok t n :=
    { tx_reads hr with slots := unlogged_tables.toRespectsSlots, iput := stays_iput hp }
  refine h.bind (h.namei cwd path) fun o => ?_
  cases o with
  | none => exact h.ret _
  | some ip =>
    refine h.bind (h.mountedAt path) fun o => ?_
    cases o with
    | some _ => exact h.ret _
    | none =>
      refine h.bind (h.step unlogged_takeSlot) fun o => ?_
      cases o with
      | none => exact h.ret _
      | some j => exact h.bind (h.step (unlogged_modify fun _ => rfl)) fun _ => h.ret _

/-! ## Runs -/

/-- What is asked of a step of `j`: what is done without a transaction frees no inode and fills no
hole. -/
def Job.TxOk : Job → Point → FsState → Prop
  | .mount .., .put k, s => ¬ Last k s
  | .mount .., .balloc, _ => False
  | .call (.op (.read ..)), .balloc, _ => False
  | _, _, _ => True

/-- The next step of `i` is such a step. -/
def TxFine (c : System) (i : Fin NPROC) : Prop :=
  match c.calls i with
  | some (j, .atom l _ _) => j.TxOk l c.state
  | _ => True

/-- The calls begin at `s` and have come to `c`; `n i` transactions have been begun and not ended by
process `i`. -/
inductive Traced (E : Env) (s : FsState) : (Fin NPROC → Nat) → System → Prop where
  | boot : Traced E s (fun _ => 0) ⟨fun _ => none, s⟩
  | start {n : Fin NPROC → Nat} {c : System} (j : Job) : Traced E s n c → c.calls j.proc = none →
    Traced E s n (c.set j.proc (some (j, j.code E)) c.state)
  | move {n : Fin NPROC → Nat} {c c' : System} {i : Fin NPROC} {l : Point} : Traced E s n c →
      TxFine c i → Pool.Move i l c c' →
    Traced E s (Function.update n i (n i + c'.state.outstanding - c.state.outstanding)) c'
  | finish {n : Fin NPROC → Nat} {c : System} {i : Fin NPROC} {j : Job} {r : Int} : Traced E s n c →
    c.calls i = some (j, .ret r) → Traced E s n (c.set i none c.state)

theorem stays_job (j : Job) : Stays j.TxOk (j.code E) 0 := by
  cases j with
  | mount p path i =>
    exact (tx_walk 0).bind ((tx_walk 0).proc p) fun pr =>
      stays_mount (.inr fun _ h => h) (.inr fun _ _ h => h) _ _ _
  | call c =>
    refine tx_transacts.call (fun _ => unlogged_modify fun _ => rfl) c fun ⟨p, fd, len, hc⟩ =>
      tx_reads (.inr fun _ h => ?_)
    rw [hc] at h
    exact h

/-- The counts add up, and each call under way keeps to its own. -/
structure Counted (n : Fin NPROC → Nat) (c : System) : Prop where
  sum : ∑ i, n i = c.state.outstanding
  idle : ∀ i, c.calls i = none → n i = 0
  call : ∀ i j t, c.calls i = some (j, t) → Tx j.TxOk t (n i) fun _ n' => n' = 0

variable {N : Fin NPROC → Nat} {c : System}

theorem Counted.le (h : Counted N c) (i : Fin NPROC) : N i ≤ c.state.outstanding :=
  h.sum ▸ Finset.single_le_sum (fun _ _ => Nat.zero_le _) (Finset.mem_univ i)

/-- What the counts say of the calls when the call of `i` is replaced. -/
theorem Counted.set {N' : Fin NPROC → Nat} {o : Option (Job × Code Int)}
    {i : Fin NPROC} (h : Counted N c)
    (hN : ∀ x, x ≠ i → N' x = N x) (hsum : ∑ i, N' i = s.outstanding) (hidle : o = none → N' i = 0)
    (hcall : ∀ j t, o = some (j, t) → Tx j.TxOk t (N' i) fun _ n' => n' = 0) :
    Counted N' (c.set i o s) := by
  refine ⟨hsum, fun x hx => ?_, fun x j t hx => ?_⟩
  · by_cases hxi : x = i
    · subst hxi
      rw [Pool.set_calls] at hx
      exact hidle hx
    · rw [Pool.set_calls_ne hxi] at hx
      rw [hN x hxi]
      exact h.idle x hx
  · by_cases hxi : x = i
    · subst hxi
      rw [Pool.set_calls] at hx
      exact hcall j t hx
    · rw [Pool.set_calls_ne hxi] at hx
      rw [hN x hxi]
      exact h.call x j t hx

theorem Traced.counted (hs : s.outstanding = 0) (h : Traced E s N c) :
    Counted N c := by
  induction h with
  | boot => exact ⟨by rw [Finset.sum_const_zero, hs], fun _ _ => rfl, fun _ _ _ h => nomatch h⟩
  | start j _ hj ih =>
    refine ih.set (fun _ _ => rfl) ih.sum (fun ho => nomatch ho) fun j' t ho => ?_
    cases ho
    rw [ih.idle _ hj]
    exact stays_job j
  | @finish N c i j r _ hi ih =>
    refine ih.set (fun _ _ => rfl) ih.sum (fun _ => ih.call i j _ hi) fun j t ho => nomatch ho
  | @move N c c' i l _ hfine hm ih =>
    obtain ⟨hi, hrun⟩ := hm
    rename_i j β m k b s'
    have hok : j.TxOk l c.state := by
      unfold TxFine at hfine
      rw [hi] at hfine
      exact hfine
    obtain ⟨hback, hnext⟩ := (ih.call i j _ hi).2 c.state b s' hok (ih.le i) hrun
    refine ih.set (fun x hx => Function.update_of_ne hx ..) ?_
      (fun ho => nomatch ho) fun j' t ho => ?_
    · -- the step takes away no more than the process has
      have hsum := sum_update_add id N i (N i + s'.outstanding - c.state.outstanding)
      have hle := ih.le i
      simp only [id] at hsum
      rw [ih.sum] at hsum
      show ∑ x, Function.update N i _ x = s'.outstanding
      rw [Pool.set_state]
      omega
    · cases ho
      rw [Function.update_self]
      exact hnext

/-- **`log_write` is called in a transaction of the process**: it would be content with the count
`n i` of process `i` alone, and it is content with that of all. -/
theorem log_write_inside {N : Fin NPROC → Nat} {c : System} {s : FsState} (hs : s.outstanding = 0)
    (h : Traced E s N c) (i : Fin NPROC) (hi : TxFine c i) :
    (⟨c.calls, { c.state with outstanding := N i }⟩ : System).fault i ≠ some .logOutside ∧
    c.fault i ≠ some .logOutside := by
  have hc := h.counted hs
  rcases hcall : c.calls i with _ | ⟨j, _ | ⟨l, m, k⟩⟩
  · simp [Pool.fault, hcall]
  · simp [Pool.fault, hcall]
  · have hok : j.TxOk l c.state := by
      unfold TxFine at hi
      rw [hcall] at hi
      exact hi
    have hstep := (hc.call i j _ hcall).1 c.state
    refine ⟨fun he => ?_, fun he => ?_⟩
    · have hcall' : (⟨c.calls, { c.state with outstanding := N i }⟩ : System).calls i =
          some (j, .atom l m k) := hcall
      exact hstep (N i) hok (Nat.le_refl _) ((Pool.fault_atom hcall').1 he)
    · exact hstep _ hok (hc.le i) ((Pool.fault_atom hcall).1 he)

/-- What `Job.TxOk` asks, of a step of any job. -/
def Point.mild : Point → FsState → Bool
  | .put k, s =>
    decide ¬ ((s.icache k).ref = 1 ∧ (s.icache k).valid = true ∧ (s.icache k).din.nlink = 0)
  | .balloc, _ => false
  | _, _ => true

theorem txOk_of_mild (h : l.mild s = true) (j : Job) : j.TxOk l s := by
  cases j with
  | mount p path i =>
    cases l with
    | put k =>
      rw [Point.mild, decide_eq_true_iff] at h
      exact h
    | balloc => cases h
    | _ => trivial
  | call c =>
    unfold Job.TxOk
    split
    · contradiction
    · contradiction
    · cases h
    · trivial

theorem traced_of_reaches (h : Pool.Reaches (system E)
    (fun l s => ∀ j : Job, j.TxOk l s) ⟨fun _ => none, s⟩ c) :
    ∃ N, Traced E s N c := by
  induction h with
  | refl => exact ⟨_, .boot⟩
  | tail _ hn ih =>
    obtain ⟨N, hN⟩ := ih
    cases hn with
    | start j hj => exact ⟨N, .start j hN hj⟩
    | move hl hm =>
      obtain ⟨hi, hrun⟩ := hm
      refine ⟨_, .move hN ?_ ⟨hi, hrun⟩⟩
      rw [TxFine, hi]
      exact hl _
    | finish hi => exact ⟨N, .finish hN hi⟩

/-- A `mount` that returns -1, a `link`, and a second one up to the `log_write` of its first
`iupdate`. -/
def linkTwice : List (Pool.Ev (Fin NPROC) Job) :=
  .start (.mount 0 [120, 47, 98] 1) :: List.replicate 29 (.go 0) ++
  .start (.call (.op (.link 0 [120] [121]))) :: List.replicate 79 (.go 0) ++
  .start (.call (.op (.link 0 [120] [122]))) :: List.replicate 27 (.go 0)

/-- The first `link` has logged two blocks and ended its transaction. With no transaction open the
next step would panic. -/
theorem log_write_inside_link : ∃ N c, Traced demoEnv (bootState demoEnv treeDisk) N c ∧
    c.state.logged = [[], [158, 131]] ∧
    (⟨c.calls, { c.state with outstanding := 0 }⟩ : System).fault 0 = some .logOutside ∧
    (⟨c.calls, { c.state with outstanding := N 0 }⟩ : System).fault 0 ≠ some .logOutside ∧
    c.fault 0 ≠ some .logOutside := by
  have hrun : (Pool.execAll (system demoEnv) Point.mild
    ⟨fun _ => none, bootState demoEnv treeDisk⟩ linkTwice).map
      (fun c => (c.state.logged, (⟨c.calls, { c.state with outstanding := 0 }⟩ : System).fault 0,
        match c.calls 0 with
        | some (_, .atom l _ _) => l.mild c.state
        | _ => true)) = some ([[], [158, 131]], some .logOutside, true) := by decide +kernel
  obtain ⟨c, hc, heq⟩ := Option.map_eq_some_iff.1 hrun
  simp only [Prod.mk.injEq] at heq
  obtain ⟨hlogged, hfault, hmild⟩ := heq
  obtain ⟨N, hN⟩ := traced_of_reaches (Pool.execAll_reaches (fun _ _ h => txOk_of_mild h) hc)
  have hfine : TxFine c 0 := by
    unfold TxFine
    split
    · rename_i hcall
      rw [hcall] at hmild
      exact txOk_of_mild hmild _
    · trivial
  exact ⟨N, c, hN, hlogged, hfault, log_write_inside rfl hN 0 hfine⟩

/-- Process 0 mounts `x/b`. When it has found the file `x` and left the root directory, process 1,
its child, unlinks `x`. -/
def unlinkInMount : List (Pool.Ev (Fin NPROC) Job) :=
  .start (.call (.fork 0 (some 1))) :: List.replicate 4 (.go 0) ++
  .start (.mount 0 [120, 47, 98] 1) :: List.replicate 23 (.go 0) ++
  .start (.call (.op (.unlink 1 [120]))) :: List.replicate 42 (.go 1) ++ List.replicate 18 (.go 0)

/-- Now process 0 has the last reference to the file, and frees it. No process is in a
transaction. -/
theorem mount_logs_outside : ∃ c : System,
    Pool.Reaches (system demoEnv) (fun _ _ => True) ⟨fun _ => none, bootState demoEnv treeDisk⟩ c ∧
    c.state.outstanding = 0 ∧ c.fault 0 = some .logOutside := by
  have hrun : (Pool.execAll (system demoEnv) (fun _ _ => true)
    ⟨fun _ => none, bootState demoEnv treeDisk⟩ unlinkInMount).map
      (fun c => (c.state.outstanding, c.fault 0)) = some (0, some .logOutside) := by decide +kernel
  rw [Option.map_eq_some_iff] at hrun
  obtain ⟨c, hc, hfault⟩ := hrun
  rw [Prod.mk.injEq] at hfault
  exact ⟨c, Pool.execAll_reaches (fun _ _ _ => trivial) hc, hfault⟩

end Os4.Fs
