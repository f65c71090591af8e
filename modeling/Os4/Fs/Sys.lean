import Os4.Fs.Path
/-!
# Open files and system calls (file.c, sysfile.c)

| here | there |
| --- | --- |
| `filealloc`, `filedup`, `filewrite` | file.c:26, 44, 117 |
| `fdalloc`, `sysChdir` | sysfile.c:43, 384 |

The calls of one process, without a step of another between theirs. All calls of `Op`, step by step,
and those on pipes are in `Os4.Fs.Par`; of a pipe the file only says that it is one. User memory is
a function of the distance from the address passed.
-/
namespace Os4.Fs

variable (E : Env)

/-! ## file.c -/

variable (f : Fin NFILE)

def setFile (x : File) : FsM Unit :=
  modify fun s => { s with ftable := Function.update s.ftable f x }

def filealloc : FsM (Option (Fin NFILE)) := do
  let s ← get
  match (List.finRange NFILE).find? fun f => (s.ftable f).ref == 0 with
  | some f =>
    setFile f { s.ftable f with ref := 1 }
    return some f
  | none => return none

def filedup : FsM Unit := do
  let x := (← get).ftable f
  if x.ref < 1 then throw .filedup else setFile f { x with ref := x.ref + 1 }

/-- `if(r > 0) f->off += r` -/
def advance (r : Int) : FsM Unit := do
  let x := (← get).ftable f
  if 0 < r then setFile f { x with off := x.off + r.toNat }

/-- `((LOGSIZE-1-1-2) / 2) * 512` -/
abbrev maxChunk : Nat := (LOGSIZE - 1 - 1 - 2) / 2 * 512

/-- The `n` bytes at `addr + i`. -/
def fetch (addr : Nat → UInt8) (i n : Nat) : List UInt8 := (List.range n).map fun j => addr (i + j)

/-- One transaction of `filewrite`: `n` bytes from `addr + i` on. -/
def writeSection (addr : Nat → UInt8) (i n : Nat) : FsM Int := do
  beginOp
  let x := (← get).ftable f
  ilock E x.ip
  let r ← writei E x.ip (fetch addr i n) x.off
  advance f r
  iunlock x.ip
  endOp
  return r

/-- The `while` of `filewrite`; the value of `i` when it is left. -/
def filewriteLoop (f : Fin NFILE) (addr : Nat → UInt8) (n : Nat) : Nat → Nat → FsM Nat
  | 0, i => return i
  | fuel + 1, i =>
    if n ≤ i then return i
    else do
      let n1 := min (n - i) maxChunk
      let r ← writeSection E f addr i n1
      if r < 0 then return i
      else if r ≠ (n1 : Int) then throw .shortFilewrite
      else filewriteLoop f addr n fuel (i + n1)

def filewrite (addr : Nat → UInt8) (n : Int) : FsM Int := do
  let x := (← get).ftable f
  if !x.writable then return -1
  else if x.isInode then
    let i ← filewriteLoop E f addr n.toNat n.toNat 0
    return if (i : Int) = n then n else -1
  else throw .filewrite

/-! ## sysfile.c -/

variable (p : Fin NPROC)

def proc : FsM Proc := do
  match (← get).procs p with
  | some x => return x
  | none => throw .disabled

def setProc (x : Proc) : FsM Unit :=
  modify fun s => { s with procs := Function.update s.procs p (some x) }

def fdalloc (p : Fin NPROC) (f : Fin NFILE) : FsM (Option (Fin NOFILE)) := do
  let x ← proc p
  match (List.finRange NOFILE).find? fun fd => x.ofile fd == none with
  | some fd =>
    setProc p { x with ofile := Function.update x.ofile fd (some f) }
    return some fd
  | none => return none

/-- `ip->nlink += d; iupdate(ip)` -/
def addNlink (ip : Fin NINODE) (d : Int) : FsM Unit := do
  let x ← inode ip
  setDin ip { x.din with nlink := toShort (x.din.nlink + d) }
  iupdate E ip

abbrev dot : List UInt8 := [46]
abbrev dotdot : List UInt8 := [46, 46]

variable (path : List UInt8)

/-- `ip->major = major; ip->minor = minor; ip->nlink = 1; iupdate(ip)` -/
def initNode (ip : Fin NINODE) (major minor : Int) : FsM Unit := do
  let x ← inode ip
  setDin ip { x.din with major := toShort major, minor := toShort minor, nlink := 1 }
  iupdate E ip

abbrev O_WRONLY : Nat := 1
abbrev O_RDWR : Nat := 2
abbrev O_CREATE : Nat := 0x200

def sysChdir : FsM Int := do
  let pr ← proc p
  beginOp
  match ← namei E pr.cwd path with
  | none =>
    endOp
    return -1
  | some ip =>
    ilock E ip
    let x ← inode ip
    if x.din.type ≠ T_DIR then
      iunlockput E ip
      endOp
      return -1
    else
      iunlock ip
      iput E pr.cwd
      endOp
      setProc p { pr with cwd := ip }
      return 0

/-- A system call of a process, with its arguments already fetched. -/
inductive Op where
  | open (p : Fin NPROC) (path : List UInt8) (omode : Nat)
  | dup (p : Fin NPROC) (fd : Fin NOFILE)
  | close (p : Fin NPROC) (fd : Fin NOFILE)
  | read (p : Fin NPROC) (fd : Fin NOFILE) (n : Int)
  | write (p : Fin NPROC) (fd : Fin NOFILE) (addr : Nat → UInt8) (n : Int)
  | link (p : Fin NPROC) (old new : List UInt8)
  | unlink (p : Fin NPROC) (path : List UInt8)
  | mkdir (p : Fin NPROC) (path : List UInt8)
  | mknod (p : Fin NPROC) (path : List UInt8) (major minor : Int)
  | chdir (p : Fin NPROC) (path : List UInt8)

/-! ## The tables after a change -/

variable {y : File} {F : Panic → Prop} {Q : Unit → FsState → Prop} {o : Option Proc}

section Tables

variable {s : FsState} {f : Fin NFILE} {p q : Fin NPROC} {x : Proc}

open Prog

def FsState.withFile (s : FsState) (f : Fin NFILE) (y : File) : FsState :=
  { s with ftable := Function.update s.ftable f y }

@[simp] theorem wp_setFile :
    (setFile f y).wp Q F s ↔ Q () (s.withFile f y) := Iff.rfl

@[simp] theorem withFile_self : (s.withFile f y).ftable f = y := Function.update_self ..

theorem withFile_ne {f' : Fin NFILE} (h : f' ≠ f) : (s.withFile f y).ftable f' = s.ftable f' :=
  Function.update_of_ne h ..

def FsState.withProc (s : FsState) (p : Fin NPROC) (o : Option Proc) : FsState :=
  { s with procs := Function.update s.procs p o }

@[simp] theorem wp_setProc :
    (setProc p x).wp Q F s ↔ Q () (s.withProc p (some x)) := Iff.rfl

@[simp] theorem withProc_self : (s.withProc p o).procs p = o := Function.update_self ..

theorem withProc_ne (h : q ≠ p) : (s.withProc p o).procs q = s.procs q := Function.update_of_ne h ..

theorem wp_proc {Q : Proc → FsState → Prop} (hF : F .disabled)
    (h : ∀ x, s.procs p = some x → Q x s) :
    (proc p).wp Q F s := by
  show (do let s ← get; _ : FsM Proc).wp Q F s
  rw [wp_bind, wp_get]
  cases hp : s.procs p with
  | none => exact hF
  | some x => exact h x hp

end Tables

end Os4.Fs
