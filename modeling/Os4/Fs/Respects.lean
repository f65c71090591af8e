import Os4.Fs.Alloc
import Os4.Fs.Sys
/-!
# What every function of the file system respects

The functions of fs.c change the state only by logging blocks, by storing inodes in their cache
slots and through `balloc`; those of file.c and sysfile.c also touch files, processes and the log's
count. What holds of these steps and is kept by sequencing (`Respects`, `RespectsAll`) therefore
holds of every function, such as a relation between the states before and after (`steps_respects`).
-/
namespace Os4.Fs

open Prog

/-- `P` holds of what changes nothing, and is kept by sequencing. -/
structure RespectsReads (P : ∀ α : Type, FsM α → Prop) : Prop where
  pure : ∀ {α : Type} (a : α), P α (pure a)
  throw : ∀ {α : Type} (e : Panic) (_ : e ≠ .logOutside), P α (throw e)
  bind : ∀ {α β : Type} {m : FsM α} {k : α → FsM β}, P α m → (∀ a, P β (k a)) → P β (m >>= k)
  get : P FsState get

/-- `P` also holds of changes to the slots of the cache. -/
structure RespectsSlots (P : ∀ α : Type, FsM α → Prop) : Prop extends RespectsReads P where
  setInode : ∀ k x, P Unit (setInode k x)

/-- `P` also holds of changes to files and processes. -/
structure RespectsTables (P : ∀ α : Type, FsM α → Prop) : Prop extends RespectsSlots P where
  setFile : ∀ x y, P Unit (setFile x y)
  setProc : ∀ x y, P Unit (setProc x y)

/-- `P` holds of the steps that change blocks and the copy of an inode, and of what is composed of
them. -/
structure RespectsData (E : Env) (P : ∀ α : Type, FsM α → Prop) : Prop
    extends RespectsReads P where
  logWrite : ∀ b x, P Unit (logWrite b x)
  setDin : ∀ k d, P Unit (setDin k d)
  balloc : ∀ prt, P Nat (balloc E prt)

/-- `P` holds of the steps of fs.c. -/
structure Respects (E : Env) (P : ∀ α : Type, FsM α → Prop) : Prop
    extends RespectsData E P, RespectsSlots P

/-- `P` also holds of the steps of file.c and sysfile.c. -/
structure RespectsAll (E : Env) (P : ∀ α : Type, FsM α → Prop) : Prop
    extends Respects E P, RespectsTables P where
  beginOp : P Unit beginOp
  endOp : P Unit endOp

variable {E : Env} {P : ∀ α : Type, FsM α → Prop} {α β : Type}

/-! ## Reading and the tables -/

namespace RespectsReads

theorem ite (_ : RespectsReads P) {c : Prop} [Decidable c] {m n : FsM α} (hm : P α m) (hn : P α n) :
    P α (if c then m else n) := by
  split
  · exact hm
  · exact hn

variable (h : RespectsReads P)
include h

theorem read {m : FsState → FsM α} (hm : ∀ t, P α (m t)) : P α (MonadState.get >>= m) :=
  h.bind h.get hm

theorem bread (b : Nat) : P Block (bread b) := h.read fun _ => h.pure _

theorem inode (k : Fin NINODE) : P Inode (inode k) := h.read fun _ => h.pure _

theorem readsb (prt : Option Int) : P Superblock (readsb E prt) := by
  refine h.bind ?_ fun _ => h.bind (h.bread _) fun _ => h.pure _
  cases prt with
  | none => exact h.throw _ nofun
  | some p => exact h.pure _

theorem proc (p : Fin NPROC) : P Proc (proc p) := by
  refine h.read fun t => ?_
  split
  · exact h.pure _
  · exact h.throw _ nofun

end RespectsReads

namespace RespectsSlots

variable (h : RespectsSlots P) (k : Fin NINODE)
include h

theorem iget (prt : Option Int) (inum : Nat) : P (Fin NINODE) (iget prt inum) := by
  have done : ∀ k x, P (Fin NINODE) (do Os4.Fs.setInode k x; return k) := fun k x =>
    h.bind (h.setInode k x) fun _ => h.pure _
  refine h.read fun t => ?_
  split
  · exact done _ _
  · split
    · exact done _ _
    · exact h.throw _ nofun

theorem idup : P (Fin NINODE) (idup k) :=
  h.bind (h.inode k) fun _ => h.bind (h.setInode k _) fun _ => h.pure _

theorem ilock : P Unit (ilock E k) :=
  h.bind (h.inode k) fun _ => h.ite (h.throw _ nofun) <| h.ite (h.throw _ nofun) <|
  h.ite (h.throw _ nofun) <|
    h.bind (h.setInode k _) fun _ => h.bind (h.readsb _) fun _ => h.ite (h.pure _) <|
    h.bind (h.bread _) fun _ => h.bind (h.setInode k _) fun _ => h.ite (h.throw _ nofun) (h.pure _)

theorem iunlock : P Unit (iunlock k) :=
  h.bind (h.inode k) fun _ => h.ite (h.throw _ nofun) (h.setInode k _)

theorem checkMounted : P (Option (Fin NINODE)) (checkMounted k) := by
  refine h.read fun t => ?_
  split
  · exact h.bind (h.iget _ _) fun _ => h.pure _
  · exact h.pure _

theorem redirect : P (Fin NINODE) (redirect k) := by
  refine h.read fun t => ?_
  split
  · exact h.iget _ _
  · exact h.pure _

end RespectsSlots

namespace RespectsTables

variable (h : RespectsTables P)
include h

theorem fdalloc (p : Fin NPROC) (x : Fin NFILE) : P (Option (Fin NOFILE)) (fdalloc p x) := by
  refine h.bind (h.proc p) fun _ => ?_
  split
  · exact h.bind (h.setProc _ _) fun _ => h.pure _
  · exact h.pure _

theorem filealloc : P (Option (Fin NFILE)) filealloc := by
  refine h.read fun t => ?_
  split
  · exact h.bind (h.setFile _ _) fun _ => h.pure _
  · exact h.pure _

theorem filedup (x : Fin NFILE) : P Unit (filedup x) :=
  h.read fun _ => h.ite (h.throw _ nofun) (h.setFile _ _)

theorem advance (x : Fin NFILE) (r : Int) : P Unit (advance x r) :=
  h.read fun _ => h.ite (h.setFile _ _) (h.pure _)

end RespectsTables

/-! ## Blocks and contents -/

namespace RespectsData

variable (h : RespectsData E P) (k : Fin NINODE)
include h

theorem bfree (prt : Option Int) (b : Nat) : P _ (bfree E prt b) :=
  h.bind (h.readsb prt) fun _ => h.bind (h.bread _) fun _ =>
    h.ite (h.throw _ nofun) (h.logWrite _ _)

theorem iupdate : P _ (iupdate E k) :=
  h.bind (h.inode k) fun _ => h.bind (h.readsb _) fun _ =>
    h.bind (h.bread _) fun _ => h.logWrite _ _

theorem addrOrAlloc (j : Fin (NDIRECT + 1)) : P _ (addrOrAlloc E k j) :=
  h.bind (h.inode k) fun _ => h.ite
    (h.bind (h.balloc _) fun _ => h.bind (h.setDin k _) fun _ => h.pure _) (h.pure _)

theorem entryOrAlloc (addr j : Nat) : P _ (entryOrAlloc E k addr j) :=
  h.bind (h.bread _) fun _ => h.ite
    (h.bind (h.inode k) fun _ => h.bind (h.balloc _) fun _ =>
      h.bind (h.logWrite _ _) fun _ => h.pure _) (h.pure _)

theorem bmap (bn : Nat) : P _ (bmap E k bn) := by
  unfold Os4.Fs.bmap
  split
  · exact h.addrOrAlloc k _
  · exact h.ite (h.bind (h.addrOrAlloc k _) fun _ => h.entryOrAlloc k _ _) (h.throw _ nofun)

theorem freeAddr (j : Fin (NDIRECT + 1)) : P _ (freeAddr E k j) :=
  h.bind (h.inode k) fun _ => h.ite (h.bind (h.bfree _ _) fun _ => h.setDin k _) (h.pure _)

theorem freeDirect : ∀ js : List (Fin (NDIRECT + 1)), P _ (freeDirect E k js)
  | [] => h.pure _
  | j :: js => h.bind (h.freeAddr k j) fun _ => freeDirect js

theorem freeIndirect (prt : Option Int) : ∀ as : List Nat, P _ (freeIndirect E prt as)
  | [] => h.pure _
  | a :: as => h.bind (h.ite (h.bfree prt a) (h.pure _)) fun _ => freeIndirect prt as

theorem truncIndirect : P _ (truncIndirect E k) :=
  h.bind (h.inode k) fun _ =>
    h.ite (h.bind (h.bread _) fun _ => h.bind (h.freeIndirect _ _) fun _ =>
    h.bind (h.bfree _ _) fun _ => h.setDin k _) (h.pure _)

theorem itrunc : P _ (itrunc E k) :=
  h.bind (h.freeDirect k _) fun _ => h.bind (h.truncIndirect k) fun _ => h.bind (h.inode k) fun _ =>
    h.bind (h.setDin k _) fun _ => h.iupdate k

theorem readLoop : ∀ fuel off n : Nat, P _ (readLoop E k fuel off n)
  | 0, _, _ => h.pure _
  | fuel + 1, _, _ => h.ite (h.pure _) <| h.bind (h.bmap k _) fun _ => h.bind (h.bread _) fun _ =>
    h.bind (readLoop fuel _ _) fun _ => h.pure _

theorem readi (off n : Nat) : P _ (readi E k off n) := by
  refine h.bind (h.inode k) fun _ => h.ite (h.ite (h.pure _) ?_) (h.ite (h.pure _)
    (h.bind (h.readLoop k _ _ _) fun _ => h.pure _))
  split
  · exact h.pure _
  · exact h.pure _

theorem writeLoop : ∀ (fuel off : Nat) (src : List UInt8), P _ (writeLoop E k fuel off src)
  | 0, _, _ => h.pure _
  | fuel + 1, _, _ => h.ite (h.pure _) <| h.bind (h.bmap k _) fun _ => h.bind (h.bread _) fun _ =>
    h.bind (h.logWrite _ _) fun _ => writeLoop fuel _ _

theorem writei (src : List UInt8) (off : Nat) : P _ (writei E k src off) := by
  refine h.bind (h.inode k) fun _ => h.ite (h.ite (h.pure _) ?_) (h.ite (h.pure _) (h.ite (h.pure _)
    (h.bind (h.writeLoop k _ _ _) fun _ => h.bind (h.inode k) fun _ => h.ite
      (h.bind (h.setDin k _) fun _ => h.bind (h.iupdate k) fun _ => h.pure _) (h.pure _))))
  split
  · exact h.pure _
  · exact h.pure _

theorem dirScan (name : List UInt8) : ∀ fuel off : Nat, P _ (dirScan E k name fuel off)
  | 0, _ => h.pure _
  | fuel + 1, _ => h.bind (h.inode k) fun _ => h.ite
    (h.bind (h.readi k _ _) fun _ => h.ite (h.throw _ nofun) <|
      h.ite (h.pure _) (dirScan name fuel _)) (h.pure _)

end RespectsData

/-! ## Slots and paths -/

namespace Respects

variable (h : Respects E P) (k : Fin NINODE)
include h

theorem reclaim : P _ (reclaim E k) :=
  h.bind (h.inode k) fun _ =>
    h.ite (h.ite (h.throw _ nofun) <| h.bind (h.setInode k _) fun _ => h.bind (h.itrunc k) fun _ =>
    h.bind (h.inode k) fun _ => h.bind (h.setDin k _) fun _ => h.bind (h.iupdate k) fun _ =>
      h.bind (h.inode k) fun _ =>
    h.setInode k _) (h.pure _)

theorem iput : P _ (iput E k) :=
  h.bind (h.reclaim k) fun _ => h.bind (h.inode k) fun _ => h.setInode k _

theorem iunlockput : P _ (iunlockput E k) := h.bind (h.iunlock k) fun _ => h.iput k

theorem dirlookupIn (name : List UInt8) : P _ (dirlookupIn E k name) := by
  refine h.bind (h.inode k) fun _ =>
    h.ite (h.throw _ nofun) <| h.bind (h.dirScan k name _ _) fun x => ?_
  split
  · exact h.pure _
  · exact h.bind (h.iget _ _) fun _ => h.pure _

theorem dirlookup (name : List UInt8) : P _ (dirlookup E k name) :=
  h.bind (h.redirect k) fun k => h.dirlookupIn k name

theorem namexLoop (parent : Bool) : ∀ (fuel : Nat) (ip : Fin NINODE) (path name : List UInt8),
    P _ (namexLoop E parent fuel ip path name)
  | 0, _, _, _ => h.pure _
  | fuel + 1, ip, path, name => by
    unfold Os4.Fs.namexLoop
    split
    · exact h.ite (h.bind (h.iput ip) fun _ => h.pure _) (h.pure _)
    · refine h.bind (h.ilock ip) fun _ => h.bind (h.inode ip) fun _ =>
        h.ite (h.bind (h.iunlockput ip) fun _ => h.pure _) <|
        h.ite (h.bind (h.checkMounted ip) fun _ => h.bind (h.iunlock ip) fun _ => h.pure _) <|
        h.bind (h.dirlookup ip _) fun r => ?_
      split
      · exact h.bind (h.iunlockput ip) fun _ => h.pure _
      · exact h.bind (h.iunlockput ip) fun _ => namexLoop parent fuel _ _ _

theorem namex (cwd : Fin NINODE) (path : List UInt8) (parent : Bool) :
    P _ (namex E cwd path parent) := by
  refine h.read fun t => ?_
  split
  · exact h.bind (h.iget _ _) fun ip => h.namexLoop parent _ ip _ _
  · exact h.bind (h.ite (h.iget _ _) (h.idup cwd)) fun ip => h.namexLoop parent _ ip _ _

theorem namei (cwd : Fin NINODE) (path : List UInt8) : P _ (namei E cwd path) :=
  h.bind (h.namex cwd path false) fun _ => h.pure _

end Respects

/-! ## file.c and sysfile.c -/

namespace RespectsAll

variable (h : RespectsAll E P)
include h

theorem done (r : Int) : P Int (do Os4.Fs.endOp; return r) := h.bind h.endOp fun _ => h.pure _

theorem sysChdir (p : Fin NPROC) (path : List UInt8) : P _ (sysChdir E p path) := by
  refine h.bind (h.proc p) fun pr => h.bind h.beginOp fun _ => h.bind (h.namei _ path) fun x => ?_
  split
  · exact h.done _
  · exact h.bind (h.ilock _) fun _ => h.bind (h.inode _) fun _ =>
      h.ite (h.bind (h.iunlockput _) fun _ => h.done _) <| h.bind (h.iunlock _) fun _ =>
        h.bind (h.iput _) fun _ =>
      h.bind h.endOp fun _ => h.bind (h.setProc p _) fun _ => h.pure _

end RespectsAll

/-! ## Before and after -/

/-- `R` holds across writes to blocks and to the copy of an inode. -/
structure LocalData (R : FsState → FsState → Prop) : Prop where
  refl : ∀ s, R s s
  trans : ∀ a b c, R a b → R b c → R a c
  put : ∀ s b x, R s (s.put b x)
  din : ∀ (s : FsState) k d,
    R s { s with icache := Function.update s.icache k { s.icache k with din := d } }

/-- `R` holds across the two ways fs.c changes the state. -/
structure Local (R : FsState → FsState → Prop) : Prop where
  refl : ∀ s, R s s
  trans : ∀ a b c, R a b → R b c → R a c
  put : ∀ s b x, R s (s.put b x)
  inode : ∀ (s : FsState) k x, R s { s with icache := Function.update s.icache k x }

theorem Local.data (hR : Local R) : LocalData R :=
  ⟨hR.refl, hR.trans, hR.put, fun s k _ => hR.inode s k _⟩

theorem LocalData.logWrite (hR : LocalData R) (b : Nat) (x : Block) : Steps R (logWrite b x) :=
  Steps.get fun s a s' h => by
    split at h
    · cases h
    · cases h; exact hR.put s b x

section Logged

variable {R : FsState → FsState → Prop} (hrefl : ∀ s, R s s)
  (htrans : ∀ a b c, R a b → R b c → R a c) (hlog : ∀ b x, Steps R (logWrite b x))
include hrefl htrans hlog

theorem steps_ballocFrom (E : Env) (sb : Superblock) : ∀ bs : List Nat, Steps R (ballocFrom E sb bs)
  | [] => Steps.throw _
  | b :: bs => by
    refine Steps.read fun t => ?_
    split
    · exact Steps.bind htrans (hlog _ _) fun _ => Steps.bind htrans (hlog _ _) fun _ =>
        Steps.pure hrefl _
    · exact steps_ballocFrom E sb bs

/-- What holds across `log_write` and a change to the copy of an inode holds across the functions
that leave the slots with their inodes. -/
theorem steps_respectsLog (hdin : ∀ k d, Steps R (setDin k d)) (E : Env) :
    RespectsData E fun _ m => Steps R m where
  pure := Steps.pure hrefl
  throw e _ := Steps.throw e
  bind := Steps.bind htrans
  get s a s' h := by cases h; exact hrefl s
  logWrite := hlog
  setDin := hdin
  balloc prt := by
    refine Steps.bind htrans (Steps.bind htrans ?_ fun _ => ?_) fun sb =>
      steps_ballocFrom hrefl htrans hlog _ sb _
    · cases prt with
      | none => exact Steps.throw _
      | some p => exact Steps.pure hrefl _
    · exact Steps.bind htrans (Steps.read fun t => Steps.pure hrefl _) fun _ => Steps.pure hrefl _

end Logged

theorem steps_respectsData (hR : LocalData R) (E : Env) :
    RespectsData E fun _ m => Steps R m :=
  steps_respectsLog hR.refl hR.trans hR.logWrite (fun k d => Steps.modify fun s => hR.din s k d) E

/-- What holds across the steps of fs.c holds across each of its functions. -/
theorem steps_respects (hR : Local R) (E : Env) :
    Respects E fun _ m => Steps R m where
  toRespectsData := steps_respectsData hR.data E
  setInode k x := Steps.modify fun s => hR.inode s k x

/-- The mount table, the open files, the processes and the log's count stay. -/
structure Framed (s s' : FsState) : Prop where
  mounts : s'.mounts = s.mounts
  ftable : s'.ftable = s.ftable
  procs : s'.procs = s.procs
  outstanding : s'.outstanding = s.outstanding

theorem local_framed : Local Framed where
  refl _ := ⟨rfl, rfl, rfl, rfl⟩
  trans _ _ _ h1 h2 := ⟨h2.mounts.trans h1.mounts, h2.ftable.trans h1.ftable,
    h2.procs.trans h1.procs, h2.outstanding.trans h1.outstanding⟩
  put _ _ _ := ⟨rfl, rfl, rfl, rfl⟩
  inode _ _ _ := ⟨rfl, rfl, rfl, rfl⟩

/-- A section under way stays the latest one, and only its own list grows. -/
def SameSection (s s' : FsState) : Prop :=
  ∀ l rest, s.logged = l :: rest → ∃ l', s'.logged = l' :: rest

theorem local_sameSection : Local SameSection where
  refl _ l _ h := ⟨l, h⟩
  trans _ _ _ h1 h2 _ _ h := by
    obtain ⟨l', h'⟩ := h1 _ _ h
    exact h2 _ _ h'
  put s b x l rest h := ⟨l.insert b, by simp [FsState.put, h, addLogged]⟩
  inode _ _ _ l _ h := ⟨l, h⟩

end Os4.Fs
