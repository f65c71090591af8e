import Os4.Fs.Par
import Os4.Fs.Respects
/-!
# What holds of every step of the calls

`Respects.lean` again, for the calls cut into steps. `S` is said of code, is kept by sequencing and
holds of a step that is `Q` (`Walk`); then it holds of the functions of Par.lean, as far as it holds
of what else they do:

| here | what else | the functions |
| --- | --- | --- |
| `Reads` | `balloc`, where `bmap` comes to a hole | `readi`, the scans of a directory |
| `Paths` | changes to slots, and `iput` | `dirlookup`, `namex` |
| `Writes` | writes to blocks | `writei`, `itrunc` |
| `Changes` | all of this | `dirlink`, `create` |
| `Sections` | `ilock`, `begin_op` and `end_op` | file.c |
| `Transacts` | changes to files and processes | sysfile.c, exec.c, proc.c |

The last two are about a `T n n'`, for code that begins with `n` transactions open and ends with
`n'`. An example is that something holds of each step (`Thread.Each`), see `RespectsAll.transacts`.
The stores of `mount` to the table are left out, they are what the statements that use this are
about; **`Transacts.call`** has the other calls.
-/
namespace Os4.Fs

open Par (act)

variable {E : Env} {α β : Type} {R Q : ∀ β : Type, FsM β → Prop} {S : ∀ α : Type, Code α → Prop}
  {T : Nat → Nat → ∀ α : Type, Code α → Prop} {n n' n'' : Nat} {k ip dp : Fin NINODE}
  {f : Fin NFILE} {p : Fin NPROC}

/-! ## Parts of steps -/

theorem RespectsReads.fileAt (h : RespectsReads R) (f : Fin NFILE) : R File (Par.fileAt f) :=
  h.read fun _ => h.pure _

theorem RespectsSlots.release (h : RespectsSlots R) (k : Fin NINODE) : R Bool (Par.release k) := by
  refine h.bind (h.inode k) fun _ => h.ite (h.ite (h.throw _ nofun) ?_) ?_
  · exact h.bind (h.setInode k _) fun _ => h.pure _
  · exact h.bind (h.setInode k _) fun _ => h.pure _

theorem RespectsData.store (h : RespectsData E R) (d : Inode → Dinode) : R Unit (do
    let ip ← Fs.inode k
    Fs.setDin k (d ip)
    Fs.iupdate E k) :=
  h.bind (h.inode k) fun _ => h.bind (h.setDin k _) fun _ => h.iupdate k

structure Walk (Q : ∀ β : Type, FsM β → Prop) (S : ∀ α : Type, Code α → Prop) : Prop where
  looks : RespectsReads Q
  ret : ∀ {α : Type} (a : α), S α (pure a)
  bind : ∀ {α β : Type} {t : Code α} {g : α → Code β}, S α t → (∀ a, S β (g a)) → S β (t >>= g)
  step : ∀ {α : Type} {l : Point} {m : FsM α}, Q α m → S α (.step l m)

variable {t u : Code α}

namespace Walk

theorem ite (_ : Walk Q S) [Decidable c] (ht : S α t) (hu : S α u) : S α (if c then t else u) := by
  split
  · exact ht
  · exact hu

variable (h : Walk Q S) (k : Fin NINODE)
include h

theorem throw (e : Panic) (he : e ≠ .logOutside) : S α (act (throw e)) :=
  h.step (h.looks.throw e he)

theorem inode : S Inode (act (inode k)) := h.step (h.looks.inode k)

theorem bread (b : Nat) : S Block (act (bread b)) := h.step (h.looks.bread b)

theorem fileAt (f : Fin NFILE) : S File (act (Par.fileAt f)) := h.step (h.looks.fileAt f)

theorem proc (p : Fin NPROC) : S Proc (act (proc p)) := h.step (h.looks.proc p)

theorem mountedAt (path : List UInt8) : S _ (act (Par.mountedAt path)) :=
  h.step (h.looks.read fun _ => h.looks.pure _)

theorem ilock (hs : RespectsSlots Q) (k : Fin NINODE) : S Unit (Par.ilock E k) := by
  refine h.bind (h.step ?_) fun _ => h.step ?_
  · exact hs.bind (hs.inode k) fun _ =>
      hs.ite (hs.throw _ nofun) (hs.ite (hs.throw _ nofun) (hs.ite (hs.throw _ nofun)
      (hs.setInode k _)))
  · refine hs.bind (hs.inode k) fun _ => hs.bind (hs.readsb _) fun _ => hs.ite (hs.pure _) ?_
    exact hs.bind (hs.bread _) fun _ => hs.bind (hs.setInode k _) fun _ =>
      hs.ite (hs.throw _ nofun) (hs.pure _)

theorem iunlock (hs : RespectsSlots Q) (k : Fin NINODE) : S Unit (Par.iunlock k) :=
  h.step (hs.iunlock k)

end Walk

/-! ## Reading -/

structure Reads (E : Env) (Q : ∀ β : Type, FsM β → Prop) (S : ∀ α : Type, Code α → Prop) :
    Prop extends Walk Q S where
  addr : ∀ prt k (d : Nat → Dinode), S Nat (.step .balloc do
    let a ← balloc E prt
    setDin k (d a)
    return a)
  entry : ∀ prt b (x : Nat → Block), S Nat (.step .balloc do
    let a ← balloc E prt
    logWrite b (x a)
    return a)

namespace Reads

variable (h : Reads E Q S) (k : Fin NINODE)
include h

theorem addrOrAlloc (j : Fin (NDIRECT + 1)) : S Nat (Par.addrOrAlloc E k j) :=
  h.bind (h.inode k) fun ip => h.ite (h.addr ip.prt k _) (h.ret _)

theorem entryOrAlloc (a j : Nat) : S Nat (Par.entryOrAlloc E k a j) :=
  h.bind (h.bread a) fun _ => h.ite (h.bind (h.inode k) fun ip => h.entry ip.prt a _) (h.ret _)

theorem bmap (bn : Nat) : S Nat (Par.bmap E k bn) := by
  unfold Par.bmap
  split
  · exact h.addrOrAlloc k _
  · exact h.ite (h.bind (h.addrOrAlloc k _) fun a => h.entryOrAlloc k a _) (h.throw _ nofun)

theorem readLoop : ∀ fuel off n : Nat, S _ (Par.readLoop E k fuel off n)
  | 0, _, _ => h.ret _
  | fuel + 1, _, _ => h.ite (h.ret _) <| h.bind (h.bmap k _) fun b => h.bind (h.bread b) fun _ =>
    h.bind (readLoop fuel _ _) fun _ => h.ret _

theorem readi (off n : Nat) : S _ (Par.readi E k off n) := by
  refine h.bind (h.inode k) fun ip =>
    h.ite (h.ite (h.ret _) ?_) (h.ite (h.ret _) (h.bind (h.readLoop k _ _ _) fun _ => h.ret _))
  split <;> exact h.ret _

theorem dirScan (name : List UInt8) : ∀ fuel off : Nat, S _ (Par.dirScan E k name fuel off)
  | 0, _ => h.ret _
  | fuel + 1, _ =>
    h.bind (h.inode k) fun _ => h.ite (h.bind (h.readi k _ _) fun _ => h.ite (h.throw _ nofun) <|
    h.ite (h.ret _) (dirScan name fuel _)) (h.ret _)

theorem freeScan : ∀ fuel off : Nat, S Nat (Par.freeScan E k fuel off)
  | 0, _ => h.ret _
  | fuel + 1, _ =>
    h.bind (h.inode k) fun _ => h.ite (h.bind (h.readi k _ _) fun _ => h.ite (h.throw _ nofun) <|
    h.ite (h.ret _) (freeScan fuel _)) (h.ret _)

theorem emptyScan : ∀ fuel off : Nat, S Bool (Par.emptyScan E k fuel off)
  | 0, _ => h.ret _
  | fuel + 1, _ =>
    h.bind (h.inode k) fun _ => h.ite (h.bind (h.readi k _ _) fun _ => h.ite (h.throw _ nofun) <|
    h.ite (h.ret _) (emptyScan fuel _)) (h.ret _)

theorem nonemptyDir : S Bool (Par.nonemptyDir E k) :=
  h.bind (h.inode k) fun _ =>
    h.ite (h.bind (h.bind (h.inode k) fun _ => h.emptyScan k _ _) fun _ => h.ret _) (h.ret _)

theorem execReads (next : List (Int × List UInt8) → Option (Nat × Nat)) :
    ∀ (fuel : Nat) (acc : List (Int × List UInt8)), S Unit (Par.execReads E k next fuel acc)
  | 0, _ => h.ret _
  | fuel + 1, acc => by
    unfold Par.execReads
    split
    · exact h.ret _
    · exact h.bind (h.readi k _ _) fun _ => execReads next fuel _

end Reads

/-! ## Paths -/

structure Paths (E : Env) (Q : ∀ β : Type, FsM β → Prop) (S : ∀ α : Type, Code α → Prop) :
    Prop extends Reads E Q S where
  slots : RespectsSlots Q
  iput : ∀ k, S Unit (Par.iput E k)

namespace Paths

variable (h : Paths E Q S) (k : Fin NINODE)
include h

theorem lock : S Unit (Par.ilock E k) := h.ilock h.slots k

theorem unlock : S Unit (Par.iunlock k) := h.iunlock h.slots k

theorem iunlockput : S Unit (Par.iunlockput E k) := h.bind (h.unlock k) fun _ => h.iput k

theorem iget (prt : Option Int) (inum : Nat) : S _ (act (iget prt inum)) :=
  h.step (h.slots.iget prt inum)

theorem dirlookup (name : List UInt8) : S _ (Par.dirlookup E k name) := by
  refine h.bind (h.step (h.slots.redirect k)) fun dp => h.bind (h.inode dp) fun _ =>
    h.ite (h.throw _ nofun) <|
    h.bind (h.dirScan _ _ _ _) fun r => ?_
  split
  · exact h.ret _
  · exact h.bind (h.iget _ _) fun _ => h.ret _

theorem namexLoop (parent : Bool) : ∀ (fuel : Nat) (ip : Fin NINODE) (path name : List UInt8),
    S _ (Par.namexLoop E parent fuel ip path name)
  | 0, _, _, _ => h.ret _
  | fuel + 1, ip, path, name => by
    unfold Par.namexLoop
    split
    · exact h.ite (h.bind (h.iput ip) fun _ => h.ret _) (h.ret _)
    · refine h.bind (h.lock ip) fun _ => h.bind (h.inode ip) fun _ =>
        h.ite (h.bind (h.iunlockput ip) fun _ => h.ret _) <|
        h.ite (h.bind (h.step (h.slots.checkMounted ip)) fun _ =>
          h.bind (h.unlock ip) fun _ => h.ret _) <|
        h.bind (h.dirlookup ip _) fun r => ?_
      split
      · exact h.bind (h.iunlockput ip) fun _ => h.ret _
      · exact h.bind (h.iunlockput ip) fun _ => namexLoop parent fuel _ _ _

theorem namex (cwd : Fin NINODE) (path : List UInt8) (parent : Bool) :
    S _ (Par.namex E cwd path parent) := by
  refine h.bind (h.mountedAt path) fun o => ?_
  split
  · exact h.bind (h.iget _ _) fun _ => h.namexLoop _ _ _ _ _
  · exact h.bind (h.ite (h.iget _ _) (h.step (h.slots.idup _))) fun _ => h.namexLoop _ _ _ _ _

theorem namei (cwd : Fin NINODE) (path : List UInt8) : S _ (Par.namei E cwd path) :=
  h.bind (h.namex cwd path false) fun _ => h.ret _

end Paths

/-! ## Writing -/

structure Writes (E : Env) (Q : ∀ β : Type, FsM β → Prop) (S : ∀ α : Type, Code α → Prop) :
    Prop extends Walk Q S where
  data : RespectsData E Q

namespace Writes

variable (h : Writes E Q S) (k : Fin NINODE)
include h

theorem reads : Reads E Q S where
  toWalk := h.toWalk
  addr prt _ _ := h.step (h.data.bind (h.data.balloc prt) fun a =>
    h.data.bind (h.data.setDin _ _) fun _ => h.data.pure a)
  entry prt _ _ := h.step (h.data.bind (h.data.balloc prt) fun a =>
    h.data.bind (h.data.logWrite _ _) fun _ => h.data.pure a)

theorem addNlink (d : Int) : S Unit (act (addNlink E k d)) := h.step (h.data.store _)

theorem writeLoop : ∀ (fuel off : Nat) (src : List UInt8), S Unit (Par.writeLoop E k fuel off src)
  | 0, _, _ => h.ret _
  | fuel + 1, _, _ => h.ite (h.ret _) <| h.bind (h.reads.bmap k _) fun b =>
    h.bind (h.step (h.data.bind (h.data.bread b) fun _ => h.data.logWrite b _)) fun _ =>
      writeLoop fuel _ _

theorem writei (src : List UInt8) (off : Nat) : S Int (Par.writei E k src off) := by
  refine h.bind (h.inode k) fun ip => h.ite (h.ite (h.ret _) ?_) (h.ite (h.ret _) (h.ite (h.ret _)
    (h.bind (h.writeLoop k _ _ _) fun _ => h.bind (h.inode k) fun _ => h.ite
      (h.bind (h.step (h.data.store _)) fun _ => h.ret _) (h.ret _))))
  split <;> exact h.ret _

theorem freeDirect : ∀ js : List (Fin (NDIRECT + 1)), S Unit (Par.freeDirect E k js)
  | [] => h.ret _
  | j :: js => h.bind (h.step (h.data.freeAddr k j)) fun _ => freeDirect js

theorem freeIndirect (prt : Option Int) : ∀ as : List Nat, S Unit (Par.freeIndirect E prt as)
  | [] => h.ret _
  | a :: as => by
    refine h.bind (h.step ?_) fun _ => freeIndirect prt as
    unfold freeEntry
    exact h.data.ite (h.data.bfree prt a) (h.data.pure ())

theorem itrunc : S Unit (Par.itrunc E k) := by
  refine h.bind (h.freeDirect k _) fun _ =>
    h.bind (h.bind (h.inode k) fun ip => h.ite ?_ (h.ret _)) fun _ => h.step (h.data.store _)
  refine h.bind (h.bread _) fun _ => h.bind (h.freeIndirect _ _) fun _ => h.step ?_
  exact h.data.bind (h.data.bfree _ _) fun _ => h.data.setDin k _

theorem dropParent (ip dp : Fin NINODE) : S Unit (Par.dropParent E ip dp) :=
  h.bind (h.inode ip) fun _ => h.ite (h.addNlink dp _) (h.ret _)

theorem paths (hs : RespectsSlots Q) : Paths E Q S where
  toReads := h.reads
  slots := hs
  iput k := by
    refine h.bind (h.step (hs.release k)) fun b => h.ite ?_ (h.ret _)
    refine h.bind (h.itrunc k) fun _ => h.bind (h.step (h.data.store _)) fun _ => h.step ?_
    exact hs.bind (hs.inode k) fun _ => hs.setInode k _

end Writes

/-! ## Both -/

structure Changes (E : Env) (Q : ∀ β : Type, FsM β → Prop) (S : ∀ α : Type, Code α → Prop) :
    Prop extends Paths E Q S, Writes E Q S

namespace Changes

variable (h : Changes E Q S)
include h

theorem iallocFrom (sb : Superblock) (prt : Option Int) (type : Int) :
    ∀ l : List Nat, S _ (Par.iallocFrom sb prt type l)
  | [] => h.throw _ nofun
  | inum :: rest => by
    refine h.bind (h.step ?_) fun b => h.ite (h.iget prt inum) (iallocFrom sb prt type rest)
    exact h.data.bind (h.data.bread _) fun _ =>
      h.data.ite (h.data.bind (h.data.logWrite _ _) fun _ => h.data.pure _) (h.data.pure _)

theorem ialloc (prt : Option Int) (type : Int) : S _ (Par.ialloc E prt type) :=
  h.bind (h.step (h.looks.readsb prt)) fun sb => h.iallocFrom sb prt type _

theorem dirlink (k : Fin NINODE) (name : List UInt8) (inum : Nat) :
    S Int (Par.dirlink E k name inum) := by
  refine h.bind (h.dirlookup k name) fun r => ?_
  split
  · exact h.bind (h.iput _) fun _ => h.ret _
  · exact h.bind (h.inode k) fun _ => h.bind (h.freeScan k _ _) fun _ =>
      h.bind (h.writei k _ _) fun _ => h.ite (h.throw _ nofun) (h.ret _)

theorem createDots (ip dp : Fin NINODE) : S Unit (Par.createDots E ip dp) :=
  h.bind (h.addNlink dp 1) fun _ => h.bind (h.inode ip) fun _ => h.bind (h.dirlink ip _ _) fun _ =>
    h.ite (h.throw _ nofun) <|
    h.bind (h.inode dp) fun _ => h.bind (h.dirlink ip _ _) fun _ =>
      h.ite (h.throw _ nofun) (h.ret _)

theorem create (cwd : Fin NINODE) (path : List UInt8) (type major minor : Int) :
    S _ (Par.create E cwd path type major minor) := by
  refine h.bind (h.namex cwd path true) fun o => ?_
  split
  · exact h.ret _
  · rename_i dp name
    refine h.bind (h.lock dp) fun _ => h.bind (h.dirlookup dp _) fun o => ?_
    split
    · exact h.bind (h.iunlockput dp) fun _ => h.bind (h.lock _) fun _ =>
        h.bind (h.inode _) fun _ => h.ite (h.ret _)
        (h.bind (h.iunlockput _) fun _ => h.ret _)
    · refine h.bind (h.inode dp) fun y => h.bind (h.ialloc _ _) fun ip =>
        h.bind (h.lock ip) fun _ => ?_
      refine h.bind (h.step (h.data.store _)) fun _ => ?_
      -- the rest is the same for directories and others
      have hrest : S _ (do
          let x ← act (Fs.inode ip)
          let r ← Par.dirlink E dp name x.inum
          if r < 0 then act (throw .createDirlink)
          else
            Par.iunlockput E dp
            return some ip) :=
        h.bind (h.inode ip) fun _ => h.bind (h.dirlink dp _ _) fun _ => h.ite (h.throw _ nofun)
          (h.bind (h.iunlockput dp) fun _ => h.ret _)
      exact h.ite (h.bind (h.createDots ip dp) fun _ => hrest) hrest

theorem openInode (cwd : Fin NINODE) (path : List UInt8) (omode : Nat) :
    S _ (Par.openInode E cwd path omode) := by
  refine h.ite (h.create _ _ _ _ _) (h.bind (h.namei _ _) fun o => ?_)
  split
  · exact h.ret _
  · exact h.bind (h.lock _) fun _ => h.bind (h.inode _) fun _ =>
      h.ite (h.bind (h.iunlockput _) fun _ => h.ret _) (h.ret _)

end Changes

/-! ## file.c -/

/-- `T n n'` is about code that begins with `n` transactions open and ends with `n'`. It holds of
steps that are `Q`; in a transaction also of those that are `R`. -/
structure Sections (E : Env) (R Q : ∀ β : Type, FsM β → Prop)
    (T : Nat → Nat → ∀ α : Type, Code α → Prop) : Prop where
  outside : ∀ n, Walk Q (T n n)
  inside : ∀ n, Writes E R (T (n + 1) (n + 1))
  bind : ∀ {n n' n'' : Nat} {α β : Type} {t : Code α} {g : α → Code β}, T n n' α t →
    (∀ a, T n' n'' β (g a)) → T n n'' β (t >>= g)
  panic : ∀ {n n' : Nat} {α : Type} (e : Panic), e ≠ .logOutside → T n n' α (act (throw e))
  beginOp : ∀ n, T n (n + 1) Unit (act beginOp)
  endOp : ∀ n, T (n + 1) n Unit (act endOp)
  ilock : ∀ n k, T n n Unit (Par.ilock E k)
  iunlock : ∀ n k, T n n Unit (Par.iunlock k)
  advance : ∀ f r, Q Unit (advance f r)

namespace Sections

theorem ite (_ : Sections E R Q T) [Decidable c] (ht : T n n' α t) (hu : T n n' α u) :
    T n n' α (if c then t else u) := by
  split
  · exact ht
  · exact hu

variable (h : Sections E R Q T)
include h

theorem ret (a : α) : T n n α (pure a) := (h.outside n).ret a

theorem step {l : Point} (hm : Q α m) : T n n α (.step l m) := (h.outside n).step hm

theorem done (a : α) : T (n + 1) n α (do act Fs.endOp; return a) :=
  h.bind (h.endOp n) fun _ => h.ret a

theorem fileread (hr : Reads E Q (T n n)) (f : Fin NFILE) (len : Int) :
    T n n Int (Par.fileread E f len) := by
  refine h.bind (hr.fileAt f) fun x =>
    h.ite (h.ret _) (h.ite (h.ret _) (h.ite ?_ (h.panic _ nofun)))
  refine h.bind (h.ilock n _) fun _ => h.bind (hr.fileAt f) fun y =>
    h.bind (hr.readi _ _ _) fun r => ?_
  exact h.bind (h.step (h.advance f _)) fun _ => h.bind (h.iunlock n _) fun _ => h.ret _

theorem writeSection (f : Fin NFILE) (ip : Fin NINODE) (addr : Nat → UInt8) (i len : Nat) :
    T n n Int (Par.writeSection E f ip addr i len) := by
  refine h.bind (h.beginOp n) fun _ => h.bind (h.ilock _ ip) fun _ =>
    h.bind ((h.outside _).fileAt f) fun y => ?_
  refine h.bind ((h.inside n).writei ip _ _) fun r => h.bind (h.step (h.advance f r)) fun _ => ?_
  exact h.bind (h.iunlock _ ip) fun _ => h.done r

theorem filewriteLoop (f : Fin NFILE) (ip : Fin NINODE) (addr : Nat → UInt8) (len : Nat) :
    ∀ fuel i : Nat, T n n Nat (Par.filewriteLoop E f ip addr len fuel i)
  | 0, _ => h.ret _
  | fuel + 1, _ =>
    h.ite (h.ret _) <| h.bind (h.writeSection f ip addr _ _) fun _ => h.ite (h.ret _) <|
    h.ite (h.panic _ nofun) (filewriteLoop f ip addr len fuel _)

theorem filewrite (f : Fin NFILE) (addr : Nat → UInt8) (len : Int) :
    T n n Int (Par.filewrite E f addr len) :=
  h.bind ((h.outside n).fileAt f) fun _ => h.ite (h.ret _) <| h.ite (h.ret _) <|
    h.ite (h.bind (h.filewriteLoop f _ _ _ _ _) fun _ => h.ret _) (h.panic _ nofun)

theorem filestat (f : Fin NFILE) : T n n Int (Par.filestat E f) :=
  h.bind ((h.outside n).fileAt f) fun _ =>
    h.ite (h.bind (h.ilock n _) fun _ => h.bind (h.iunlock n _) fun _ => h.ret _) (h.ret _)

end Sections

/-! ## The calls -/

structure Transacts (E : Env) (R Q : ∀ β : Type, FsM β → Prop)
    (T : Nat → Nat → ∀ α : Type, Code α → Prop) : Prop
    extends Sections E R Q T where
  tables : RespectsTables Q
  changes : ∀ n, Changes E R (T (n + 1) (n + 1))

namespace Transacts

variable (h : Transacts E R Q T) (p : Fin NPROC) (path : List UInt8)
include h

theorem proc : T n n Proc (act (proc p)) := (h.outside n).proc p

theorem fdalloc (f : Fin NFILE) : T n n _ (act (fdalloc p f)) := h.step (h.tables.fdalloc p f)

theorem filealloc : T n n _ (act filealloc) := h.step h.tables.filealloc

theorem clearFd (fd : Fin NOFILE) : T n n Unit (act (Par.clearFd p fd)) :=
  h.step (h.tables.bind (h.tables.proc p) fun _ => h.tables.setProc p _)

theorem fileclose (f : Fin NFILE) : T n n Unit (Par.fileclose E f) := by
  have hq := h.tables
  refine h.bind (h.step ?_) fun o => ?_
  · refine hq.bind (hq.fileAt f) fun x => hq.ite (hq.throw _ nofun) (hq.ite ?_ ?_)
    · exact hq.bind (hq.setFile f _) fun _ => hq.pure _
    · exact hq.bind (hq.setFile f _) fun _ => hq.pure _
  · split
    · exact h.bind (h.beginOp n) fun _ => h.bind ((h.changes n).iput _) fun _ => h.endOp n
    · exact h.ret _

theorem linkBad (ip : Fin NINODE) : T (n + 1) n Int (Par.linkBad E ip) :=
  h.bind (h.ilock _ ip) fun _ => h.bind ((h.changes n).addNlink ip _) fun _ =>
    h.bind ((h.changes n).iunlockput ip) fun _ => h.done _

theorem sysLink (old new : List UInt8) : T n n Int (Par.sysLink E p old new) := by
  have hc := h.changes n
  refine h.bind (h.proc p) fun pr => h.bind (h.beginOp n) fun _ => h.bind (hc.namei _ _) fun o => ?_
  split
  · exact h.done _
  · refine h.bind (hc.lock _) fun _ => h.bind (hc.inode _) fun _ =>
      h.ite (h.bind (hc.iunlockput _) fun _ => h.done _) <|
      h.bind (hc.addNlink _ 1) fun _ => h.bind (hc.unlock _) fun _ =>
        h.bind (hc.namex _ _ _) fun o => ?_
    split
    · exact h.linkBad _
    · refine h.bind (hc.lock _) fun _ => h.bind (hc.inode _) fun _ => h.bind (hc.inode _) fun _ =>
        h.ite (h.bind (hc.iunlockput _) fun _ => h.linkBad _) <|
          h.bind (hc.dirlink _ _ _) fun _ => ?_
      exact h.ite (h.bind (hc.iunlockput _) fun _ => h.linkBad _)
        (h.bind (hc.iunlockput _) fun _ => h.bind (hc.iput _) fun _ => h.done _)

theorem unlinkBad (dp : Fin NINODE) : T (n + 1) n Int (Par.unlinkBad E dp) :=
  h.bind ((h.changes n).iunlockput dp) fun _ => h.done _

theorem sysUnlink : T n n Int (Par.sysUnlink E p path) := by
  have hc := h.changes n
  refine h.bind (h.proc p) fun pr => h.bind (h.beginOp n) fun _ =>
    h.bind (hc.namex _ _ _) fun o => ?_
  split
  · exact h.done _
  · refine h.bind (hc.lock _) fun _ =>
      h.ite (h.unlinkBad _) <| h.bind (hc.dirlookup _ _) fun o => ?_
    split
    · exact h.unlinkBad _
    · refine h.bind (hc.lock _) fun _ => h.bind (hc.inode _) fun _ => h.ite (h.panic _ nofun) <|
        h.bind (hc.nonemptyDir _) fun _ =>
          h.ite (h.bind (hc.iunlockput _) fun _ => h.unlinkBad _) <|
        h.bind (hc.writei _ _ _) fun _ => h.ite (h.panic _ nofun) ?_
      refine h.bind (hc.dropParent _ _) fun _ => h.bind (hc.iunlockput _) fun _ => ?_
      exact h.bind (hc.addNlink _ _) fun _ => h.bind (hc.iunlockput _) fun _ => h.done _

theorem sysOpen (omode : Nat) : T n n Int (Par.sysOpen E p path omode) := by
  have hc := h.changes n
  refine h.bind (h.proc p) fun pr => h.bind (h.beginOp n) fun _ =>
    h.bind (hc.openInode _ _ _) fun o => ?_
  split
  · exact h.done _
  · refine h.bind h.filealloc fun o => ?_
    split
    · exact h.bind (hc.iunlockput _) fun _ => h.done _
    · rename_i f
      refine h.bind (h.fdalloc p f) fun o => ?_
      split
      · exact h.bind (h.fileclose f) fun _ => h.bind (hc.iunlockput _) fun _ => h.done _
      · refine h.bind (hc.unlock _) fun _ => h.bind (h.endOp n) fun _ =>
          h.bind (h.step ?_) fun _ => h.ret _
        exact h.tables.bind (h.tables.fileAt f) fun _ => h.tables.setFile f _

theorem makeNode (type major minor : Int) :
    T n n Int (Par.makeNode E p path type major minor) := by
  have hc := h.changes n
  refine h.bind (h.proc p) fun pr => h.bind (h.beginOp n) fun _ =>
    h.bind (hc.create _ _ _ _ _) fun o => ?_
  split
  · exact h.done _
  · exact h.bind (hc.iunlockput _) fun _ => h.done _

theorem sysChdir : T n n Int (Par.sysChdir E p path) := by
  have hc := h.changes n
  refine h.bind (h.proc p) fun pr => h.bind (h.beginOp n) fun _ => h.bind (hc.namei _ _) fun o => ?_
  split
  · exact h.done _
  · refine h.bind (hc.lock _) fun _ => h.bind (hc.inode _) fun _ =>
      h.ite (h.bind (hc.iunlockput _) fun _ => h.done _) ?_
    refine h.bind (hc.unlock _) fun _ => h.bind (hc.iput _) fun _ => h.bind (h.endOp n) fun _ => ?_
    exact h.bind (h.step (h.tables.setProc p _)) fun _ => h.ret _

theorem pipealloc (memory : Bool) : T n n _ (Par.pipealloc E memory) := by
  have hq := h.tables
  refine h.bind h.filealloc fun o => ?_
  split
  · exact h.ret _
  · rename_i f0
    refine h.bind h.filealloc fun o => ?_
    split
    · exact h.bind (h.fileclose f0) fun _ => h.ret _
    · rename_i f1
      refine h.ite (h.bind (h.step ?_) fun _ => h.ret _) (h.bind (h.fileclose f0) fun _ =>
        h.bind (h.fileclose f1) fun _ => h.ret _)
      exact hq.bind (hq.fileAt f0) fun _ => hq.bind (hq.setFile f0 _) fun _ =>
        hq.bind (hq.fileAt f1) fun _ => hq.setFile f1 _

theorem sysPipe (memory : Bool) : T n n Int (Par.sysPipe E p memory) := by
  refine h.bind (h.pipealloc memory) fun o => ?_
  split
  · exact h.ret _
  · refine h.bind (h.fdalloc p _) fun o => ?_
    split
    · exact h.bind (h.fileclose _) fun _ => h.bind (h.fileclose _) fun _ => h.ret _
    · refine h.bind (h.fdalloc p _) fun o => ?_
      split
      · exact h.bind (h.clearFd p _) fun _ => h.bind (h.fileclose _) fun _ =>
          h.bind (h.fileclose _) fun _ => h.ret _
      · exact h.ret _

theorem exec (next : List (Int × List UInt8) → Option (Nat × Nat)) (fuel : Nat) :
    T n n Int (Par.exec E p path next fuel) := by
  have hc := h.changes n
  refine h.bind (h.proc p) fun pr => h.bind (h.beginOp n) fun _ => h.bind (hc.namei _ _) fun o => ?_
  split
  · exact h.done _
  · refine h.bind (hc.lock _) fun _ => h.bind (hc.execReads _ _ _ _) fun _ => ?_
    exact h.bind (hc.iunlockput _) fun _ => h.done _

theorem dupFiles (x : Proc) : ∀ fds : List (Fin NOFILE), T n n Unit (Par.dupFiles x fds)
  | [] => h.ret _
  | fd :: fds => by
    unfold Par.dupFiles
    split
    · exact dupFiles x fds
    · exact h.bind (h.step (h.tables.filedup _)) fun _ => dupFiles x fds

theorem fork (child : Option (Fin NPROC)) : T n n Int (Par.fork p child) := by
  have hq := h.tables
  refine h.bind (h.proc p) fun x => ?_
  split
  · exact h.ret _
  · rename_i q
    refine h.bind (h.dupFiles x _) fun _ => h.bind (h.step (hq.idup _)) fun _ =>
      h.bind (h.step ?_) fun _ => h.ret _
    exact hq.read fun _ => hq.ite (hq.throw _ nofun) (hq.setProc q _)

theorem closeFiles : ∀ fds : List (Fin NOFILE), T n n Unit (Par.closeFiles E p fds)
  | [] => h.ret _
  | fd :: fds => by
    refine h.bind (h.proc p) fun x => ?_
    split
    · exact closeFiles fds
    · exact h.bind (h.fileclose _) fun _ => h.bind (h.clearFd p fd) fun _ => closeFiles fds

theorem exit (hend : ∀ p, Q Unit (Par.endProc p)) : T n n Int (Par.exit E p) := by
  refine h.bind (h.proc p) fun _ => ?_
  split
  · exact h.panic _ nofun
  · refine h.bind (h.closeFiles p _) fun _ => h.bind (h.beginOp n) fun _ =>
      h.bind (h.proc p) fun x => ?_
    refine h.bind ((h.changes n).iput _) fun _ => h.bind (h.endOp n) fun _ => ?_
    exact h.bind (h.step (hend p)) fun _ => h.ret _

theorem argument {p : Fin NPROC} {fd : Fin NOFILE} {t : Fin NFILE → Code Int}
    (ht : ∀ f, T n n Int (t f)) : T n n Int (do
    let x ← act (Fs.proc p)
    match x.ofile fd with
    | none => return -1
    | some f => t f) := by
  refine h.bind (h.proc p) fun x => ?_
  split
  · exact h.ret _
  · exact ht _

/-- Every call. What `read` reads, it reads in no transaction. -/
theorem call (hend : ∀ p, Q Unit (Par.endProc p)) (c : SysCall)
    (hread : (∃ p fd len, c = .op (.read p fd len)) → Reads E Q (T n n)) :
    T n n Int (c.code E) := by
  cases c with
  | op o =>
    cases o with
    | «open» p path omode => exact h.sysOpen p path omode
    | dup p fd =>
      refine h.argument fun f => h.bind (h.fdalloc p f) fun o => ?_
      split
      · exact h.ret _
      · exact h.bind (h.step (h.tables.filedup f)) fun _ => h.ret _
    | close p fd =>
      exact h.argument fun f => h.bind (h.clearFd p fd) fun _ =>
        h.bind (h.fileclose f) fun _ => h.ret _
    | read p fd len => exact h.argument fun f => h.fileread (hread ⟨p, fd, len, rfl⟩) f len
    | write p fd addr len => exact h.argument fun f => h.filewrite f addr len
    | link p old new => exact h.sysLink p old new
    | unlink p path => exact h.sysUnlink p path
    | mkdir p path => exact h.makeNode p path _ _ _
    | mknod p path major minor => exact h.makeNode p path _ _ _
    | chdir p path => exact h.sysChdir p path
  | fstat p fd => exact h.argument fun f => h.filestat f
  | pipe p memory => exact h.sysPipe p memory
  | exec p path next fuel => exact h.exec p path next fuel
  | fork p child => exact h.fork p child
  | exit p => exact h.exit p hend

end Transacts

/-! ## Each step -/

theorem RespectsReads.walk (h : RespectsReads R) : Walk R fun _ t => t.Each R where
  looks := h
  ret _ := trivial
  bind := Thread.Each.bind
  step := Thread.Each.step

theorem RespectsData.writes (h : RespectsData E R) : Writes E R fun _ t => t.Each R where
  toWalk := h.walk
  data := h

theorem Respects.changes (h : Respects E R) : Changes E R fun _ t => t.Each R where
  toPaths := h.writes.paths h.toRespectsSlots
  data := h.toRespectsData

theorem RespectsAll.transacts (h : RespectsAll E R) : Transacts E R R fun _ _ _ t => t.Each R where
  outside _ := h.walk
  inside _ := h.writes
  bind := Thread.Each.bind
  panic e he := .step (h.throw e he)
  beginOp _ := .step h.beginOp
  endOp _ := .step h.endOp
  ilock _ := h.walk.ilock h.toRespectsSlots
  iunlock _ := h.walk.iunlock h.toRespectsSlots
  advance := h.advance
  tables := h.toRespectsTables
  changes _ := h.changes

end Os4.Fs
