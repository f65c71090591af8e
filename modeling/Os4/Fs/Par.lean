import Os4.Fs.Sys
import Os4.Lib.Thread
/-!
# The system calls, step by step

| here | there |
| --- | --- |
| `enter`, `load` | the section of `ilock` under `icache.lock`, and the rest of it (fs.c:385-404) |
| `release`, `vacate` | the two sections of `iput` under `icache.lock` (fs.c:430-446) |
| `tryInode` | what `ialloc` does with one `inum`, up to `brelse` (fs.c:289-297) |
| `closeFile` | the section of `fileclose` under `ftable.lock` (file.c:60-70) |
| `takeSlot`, `fillSlot`, `mount` | `mpalloc`, the stores to the slot, and `mount` (fs.c:829, 861-865, 845) |
| `fork`, `exit` | proc.c:126, 171 |
| `exec`, `pipealloc`, `sysPipe` | exec.c:11, pipe.c:22, sysfile.c:439 |

The functions of the other modules again, now with the places where another process may run in
between. A step is a section under `icache.lock` or `ftable.lock`, or between `bread` and `brelse`;
what a process does to the fields of an inode that it has locked, to its own `struct proc` or to a
block that it reads once more goes with the step next to it. A step that ends with `deadlock` is a
`sleep`.

Not in the model are memory and pipes: which slot `allocproc` finds and whether `kalloc` has a page
is an argument of the call, `exec` reads what its argument says, and what goes through a pipe is of
no concern here.
-/
namespace Os4.Fs

/-- What a step is, where a statement depends on it. -/
inductive Point where
  | plain
  /-- `balloc` -/
  | balloc
  /-- the beginning of `dirlookup` -/
  | lookup (dp : Fin NINODE)
  /-- `writei` stores bytes or the size -/
  | store (ip : Fin NINODE)
  /-- the beginning of `iput` -/
  | put (ip : Fin NINODE)
  /-- `mount` fills its slot -/
  | fill (path : List UInt8) (i : Int) (ip : Fin NINODE)
deriving DecidableEq

abbrev Code := Thread FsState Panic Point

namespace Par

variable {α : Type} (E : Env)

def act (m : FsM α) : Code α := .step .plain m

/-! ## fs.c -/

variable (k : Fin NINODE)

def enter : FsM Unit := do
  let ip ← inode k
  if ip.ref < 1 then throw .ilock
  else if ip.prt = none then throw .ilockNoPartition
  else if ip.busy then throw .deadlock
  else setInode k { ip with busy := true }

def load : FsM Unit := do
  let ip ← inode k
  let sb ← readsb E ip.prt
  if ip.valid then return ()
  else
    let x ← bread (ip.inum / IPB + sb.inodestart)
    let d := getDinode x (ip.inum % IPB)
    setInode k { ip with valid := true, din := d }
    if d.type = 0 then throw .ilockNoType else return ()

def ilock : Code Unit := do
  act (enter k)
  act (load E k)

def iunlock : Code Unit := act (Fs.iunlock k)

/-- Is the inode to be freed? If not, the reference is gone. -/
def release : FsM Bool := do
  let ip ← inode k
  if ip.ref = 1 ∧ ip.valid = true ∧ ip.din.nlink = 0 then
    if ip.busy then throw .iputBusy
    else
      setInode k { ip with busy := true }
      return true
  else
    setInode k { ip with ref := ip.ref - 1 }
    return false

def vacate : FsM Unit := do
  let ip ← inode k
  setInode k { ip with busy := false, valid := false, ref := ip.ref - 1 }

def freeDirect (k : Fin NINODE) : List (Fin (NDIRECT + 1)) → Code Unit
  | [] => return ()
  | j :: js => do
    act (freeAddr E k j)
    freeDirect k js

def freeIndirect (prt : Option Int) : List Nat → Code Unit
  | [] => return ()
  | a :: as => do
    act (freeEntry E prt a)
    freeIndirect prt as

def truncIndirect : Code Unit := do
  let ip ← act (inode k)
  if ip.din.addrs (Fin.last NDIRECT) ≠ 0 then
    let x ← act (bread (ip.din.addrs (Fin.last NDIRECT)))
    freeIndirect E ip.prt ((List.range NINDIRECT).map fun j => x.getLE (4 * j) 4)
    act do
      bfree E ip.prt (ip.din.addrs (Fin.last NDIRECT))
      setDin k (ip.din.setAddr (Fin.last NDIRECT) 0)

/-- `ip->size = 0; iupdate(ip)` -/
def clearSize : FsM Unit := do
  let ip ← inode k
  setDin k { ip.din with size := 0 }
  iupdate E k

def itrunc : Code Unit := do
  freeDirect E k ((List.finRange NDIRECT).map Fin.castSucc)
  truncIndirect E k
  act (clearSize E k)

/-- `ip->type = 0; iupdate(ip)` -/
def clearType : FsM Unit := do
  let ip ← inode k
  setDin k { ip.din with type := 0 }
  iupdate E k

def iput : Code Unit := do
  if ← .step (.put k) (release k) then
    itrunc E k
    act (clearType E k)
    act (vacate k)

def iunlockput : Code Unit := do
  iunlock k
  iput E k

def tryInode (sb : Superblock) (type : Int) (inum : Nat) : FsM Bool := do
  let bno := inum / IPB + sb.inodestart
  let x ← bread bno
  if (getDinode x (inum % IPB)).type = 0 then
    logWrite bno (putDinode x (inum % IPB) ⟨toShort type, 0, 0, 0, 0, fun _ => 0⟩)
    return true
  else return false

def iallocFrom (sb : Superblock) (prt : Option Int) (type : Int) : List Nat → Code (Fin NINODE)
  | [] => act (throw .ialloc)
  | inum :: rest => do
    if ← act (tryInode sb type inum) then act (iget prt inum)
    else iallocFrom sb prt type rest

def ialloc (prt : Option Int) (type : Int) : Code (Fin NINODE) := do
  let sb ← act (readsb E prt)
  iallocFrom sb prt type ((List.range sb.ninodes).drop 1)

def addrOrAlloc (j : Fin (NDIRECT + 1)) : Code Nat := do
  let ip ← act (inode k)
  if ip.din.addrs j = 0 then
    .step .balloc do
      let a ← balloc E ip.prt
      setDin k (ip.din.setAddr j a)
      return a
  else return ip.din.addrs j

def entryOrAlloc (addr j : Nat) : Code Nat := do
  let x ← act (bread addr)
  if x.getLE (4 * j) 4 = 0 then
    let ip ← act (inode k)
    .step .balloc do
      let a ← balloc E ip.prt
      logWrite addr (x.putLE (4 * j) 4 a)
      return a
  else return x.getLE (4 * j) 4

def bmap (bn : Nat) : Code Nat := do
  if h : bn < NDIRECT then addrOrAlloc E k ⟨bn, Nat.lt_succ_of_lt h⟩
  else if bn - NDIRECT < NINDIRECT then
    let addr ← addrOrAlloc E k (Fin.last NDIRECT)
    entryOrAlloc E k addr (bn - NDIRECT)
  else act (throw .bmap)

def readLoop (k : Fin NINODE) : Nat → Nat → Nat → Code (List UInt8)
  | 0, _, _ => return []
  | fuel + 1, off, n =>
    if n = 0 then return []
    else do
      let b ← bmap E k (off / BSIZE)
      let x ← act (bread b)
      let m := min n (BSIZE - off % BSIZE)
      let rest ← readLoop k fuel (off + m) (n - m)
      return x.slice (off % BSIZE) m ++ rest

def readi (off n : Nat) : Code (Int × List UInt8) := do
  let ip ← act (inode k)
  if ip.din.type = T_DEV then
    if ip.din.major < 0 ∨ (NDEV : Int) ≤ ip.din.major then return (-1, [])
    else
      match E.devRead ip.din.major with
      | none => return (-1, [])
      | some f => return f n
  else if ip.din.size < off ∨ (off + n) % 2 ^ 32 < off then return (-1, [])
  else
    let n := if ip.din.size < off + n then ip.din.size - off else n
    let l ← readLoop E k n off n
    return ((n : Int), l)

/-- `bp = bread(..); memmove(bp->data + off%BSIZE, src, m); log_write(bp); brelse(bp)` -/
def putBytes (b off : Nat) (src : List UInt8) : FsM Unit := do
  let x ← bread b
  logWrite b (x.splice (off % BSIZE) src)

def writeLoop (k : Fin NINODE) : Nat → Nat → List UInt8 → Code Unit
  | 0, _, _ => return ()
  | fuel + 1, off, src =>
    if src = [] then return ()
    else do
      let b ← bmap E k (off / BSIZE)
      let m := min src.length (BSIZE - off % BSIZE)
      .step (.store k) (putBytes b off (src.take m))
      writeLoop k fuel (off + m) (src.drop m)

/-- `ip->size = n; iupdate(ip)` -/
def storeSize (n : Nat) : FsM Unit := do
  let ip ← inode k
  setDin k { ip.din with size := n }
  iupdate E k

def writei (src : List UInt8) (off : Nat) : Code Int := do
  let ip ← act (inode k)
  let n := src.length
  if ip.din.type = T_DEV then
    if ip.din.major < 0 ∨ (NDEV : Int) ≤ ip.din.major then return -1
    else
      match E.devWrite ip.din.major with
      | none => return -1
      | some f => return f src
  else if ip.din.size < off ∨ (off + n) % 2 ^ 32 < off then return -1
  else if MAXFILE * BSIZE < off + n then return -1
  else
    writeLoop E k n off src
    let ip ← act (inode k)
    if 0 < n ∧ ip.din.size < off + n then .step (.store k) (storeSize E k (off + n))
    return (n : Int)

def dirScan (k : Fin NINODE) (name : List UInt8) : Nat → Nat → Code (Option (Nat × Nat))
  | 0, _ => return none
  | fuel + 1, off => do
    let dp ← act (inode k)
    if off < dp.din.size then
      let (r, l) ← readi E k off 16
      if r ≠ 16 then act (throw .dirlinkRead)
      else
        let de := getDirent l
        if de.inum ≠ 0 ∧ namecmp name de.name = 0 then return some (off, de.inum)
        else dirScan k name fuel (off + 16)
    else return none

def dirlookupIn (name : List UInt8) : Code (Option (Fin NINODE × Nat)) := do
  let dp ← act (inode k)
  if dp.din.type ≠ T_DIR then act (throw .dirlookup)
  else
    match ← dirScan E k name (dp.din.size / 16 + 1) 0 with
    | none => return none
    | some (off, inum) => return some (← act (iget dp.prt inum), off)

def dirlookup (name : List UInt8) : Code (Option (Fin NINODE × Nat)) := do
  let dp ← .step (.lookup k) (redirect k)
  dirlookupIn E dp name

def freeScan (k : Fin NINODE) : Nat → Nat → Code Nat
  | 0, off => return off
  | fuel + 1, off => do
    let dp ← act (inode k)
    if off < dp.din.size then
      let (r, l) ← readi E k off 16
      if r ≠ 16 then act (throw .dirlinkRead)
      else if (getDirent l).inum = 0 then return off
      else freeScan k fuel (off + 16)
    else return off

def dirlink (name : List UInt8) (inum : Nat) : Code Int := do
  match ← dirlookup E k name with
  | some (ip, _) =>
    iput E ip
    return -1
  | none =>
    let dp ← act (inode k)
    let off ← freeScan E k (dp.din.size / 16 + 1) 0
    let r ← writei E k (direntBytes ⟨inum, strncpy name DIRSIZ⟩) off
    if r ≠ 16 then act (throw .dirlink) else return 0

def namexLoop (parent : Bool) : Nat → Fin NINODE → List UInt8 → List UInt8 →
    Code (Option (Fin NINODE × List UInt8))
  | 0, _, _, _ => return none
  | fuel + 1, ip, path, name =>
    match skipelem path with
    | none =>
      if parent then do
        iput E ip
        return none
      else return some (ip, name)
    | some (name, path) => do
      ilock E ip
      let x ← act (inode ip)
      if x.din.type ≠ T_DIR then
        iunlockput E ip
        return none
      else if parent ∧ path = [] then
        let tmp ← act (checkMounted ip)
        iunlock ip
        return some (tmp.getD ip, name)
      else
        match ← dirlookup E ip name with
        | none =>
          iunlockput E ip
          return none
        | some (next, _) =>
          iunlockput E ip
          namexLoop parent fuel next path name

variable (cwd : Fin NINODE)

variable (path : List UInt8)

def startInode : Code (Fin NINODE) :=
  if path.head? = some slash then act (iget (some E.boot) ROOTINO) else act (idup cwd)

/-- The partition of the entry that `find_mp` returns. -/
def mountedAt : FsM (Option (Option Int)) := do
  let s ← get
  return (findMp s.mounts path).map fun i => (s.mounts[i]?).bind (·.prt)

def namex (parent : Bool) : Code (Option (Fin NINODE × List UInt8)) := do
  match ← act (mountedAt path) with
  | some prt =>
    let ip ← act (iget prt ROOTINO)
    namexLoop E parent 2 ip [slash] []
  | none =>
    let ip ← startInode E cwd path
    namexLoop E parent (path.length + 1) ip path []

def namei : Code (Option (Fin NINODE)) := do
  let r ← namex E cwd path false
  return r.map Prod.fst

def nameiparent : Code (Option (Fin NINODE × List UInt8)) :=
  namex E cwd path true

/-- `mpalloc`: `cas` takes the first slot that is free. -/
def takeSlot : FsM (Option Nat) := do
  let s ← get
  match mpalloc s.mounts with
  | none => return none
  | some j =>
    set { s with mounts := s.mounts.modify j fun old => { old with isTaken := true } }
    return some j

/-- The stores of `mount` to its slot. -/
def fillSlot (j : Nat) (path : List UInt8) (i : Int) (ip : Fin NINODE) : FsM Unit :=
  modify fun s => { s with
    mounts := s.mounts.modify j fun old =>
      mountEntry old path i (s.icache ip).inum (s.icache ip).prt }

def mount (i : Int) : Code Int := do
  match ← namei E cwd path with
  | none => return -1
  | some ip =>
    match ← act (mountedAt path) with
    | some _ => return -1
    | none =>
      match ← act takeSlot with
      | none => return -1
      | some j =>
        .step (.fill path i ip) (fillSlot j path i ip)
        return 0

/-! ## file.c -/

variable (f : Fin NFILE)

def fileAt : FsM File := return (← get).ftable f

/-- One reference less; the inode to put, if it was the last. -/
def closeFile : FsM (Option (Fin NINODE)) := do
  let x ← fileAt f
  if x.ref < 1 then throw .fileclose
  else if 0 < x.ref - 1 then
    setFile f { x with ref := x.ref - 1 }
    return none
  else
    setFile f { x with ref := 0, isInode := false, isPipe := false }
    return if x.isInode then some x.ip else none

def fileclose : Code Unit := do
  match ← act (closeFile f) with
  | some ip =>
    act beginOp
    iput E ip
    act endOp
  | none => return ()

def filestat : Code Int := do
  let x ← act (fileAt f)
  if x.isInode then
    ilock E x.ip
    iunlock x.ip
    return 0
  else return -1

def fileread (n : Int) : Code Int := do
  let x ← act (fileAt f)
  if !x.readable then return -1
  else if x.isPipe then return 0
  else if x.isInode then
    ilock E x.ip
    let y ← act (fileAt f)
    let (r, _) ← readi E x.ip y.off (Bytes.unsigned 4 n)
    act (advance f r)
    iunlock x.ip
    return r
  else act (throw .fileread)

def writeSection (ip : Fin NINODE) (addr : Nat → UInt8) (i n : Nat) : Code Int := do
  act beginOp
  ilock E ip
  let y ← act (fileAt f)
  let r ← writei E ip (fetch addr i n) y.off
  act (advance f r)
  iunlock ip
  act endOp
  return r

def filewriteLoop (f : Fin NFILE) (ip : Fin NINODE) (addr : Nat → UInt8) (n : Nat) :
    Nat → Nat → Code Nat
  | 0, i => return i
  | fuel + 1, i =>
    if n ≤ i then return i
    else do
      let n1 := min (n - i) maxChunk
      let r ← writeSection E f ip addr i n1
      if r < 0 then return i
      else if r ≠ (n1 : Int) then act (throw .shortFilewrite)
      else filewriteLoop f ip addr n fuel (i + n1)

def filewrite (addr : Nat → UInt8) (n : Int) : Code Int := do
  let x ← act (fileAt f)
  if !x.writable then return -1
  else if x.isPipe then return n
  else if x.isInode then
    let i ← filewriteLoop E f x.ip addr n.toNat n.toNat 0
    return if (i : Int) = n then n else -1
  else act (throw .filewrite)

/-! ## sysfile.c -/

variable (p : Fin NPROC)

def sysDup (fd : Fin NOFILE) : Code Int := do
  let x ← act (proc p)
  match x.ofile fd with
  | none => return -1
  | some f =>
    match ← act (fdalloc p f) with
    | none => return -1
    | some fd =>
      act (filedup f)
      return (fd.1 : Int)

def sysRead (fd : Fin NOFILE) (n : Int) : Code Int := do
  let x ← act (proc p)
  match x.ofile fd with
  | none => return -1
  | some f => fileread E f n

def sysWrite (fd : Fin NOFILE) (addr : Nat → UInt8) (n : Int) : Code Int := do
  let x ← act (proc p)
  match x.ofile fd with
  | none => return -1
  | some f => filewrite E f addr n

def sysFstat (fd : Fin NOFILE) : Code Int := do
  let x ← act (proc p)
  match x.ofile fd with
  | none => return -1
  | some f => filestat E f

/-- `proc->ofile[fd] = 0` -/
def clearFd (fd : Fin NOFILE) : FsM Unit := do
  let x ← proc p
  setProc p { x with ofile := Function.update x.ofile fd none }

def sysClose (fd : Fin NOFILE) : Code Int := do
  let x ← act (proc p)
  match x.ofile fd with
  | none => return -1
  | some f =>
    act (clearFd p fd)
    fileclose E f
    return 0

def linkBad (ip : Fin NINODE) : Code Int := do
  ilock E ip
  act (addNlink E ip (-1))
  iunlockput E ip
  act endOp
  return -1

def sysLink (old new : List UInt8) : Code Int := do
  let pr ← act (proc p)
  act beginOp
  match ← namei E pr.cwd old with
  | none =>
    act endOp
    return -1
  | some ip =>
    ilock E ip
    let x ← act (inode ip)
    if x.din.type = T_DIR then
      iunlockput E ip
      act endOp
      return -1
    else
      act (addNlink E ip 1)
      iunlock ip
      match ← nameiparent E pr.cwd new with
      | none => linkBad E ip
      | some (dp, name) =>
        ilock E dp
        let y ← act (inode dp)
        let x ← act (inode ip)
        if y.prt ≠ x.prt then
          iunlockput E dp
          linkBad E ip
        else
          let r ← dirlink E dp name x.inum
          if r < 0 then
            iunlockput E dp
            linkBad E ip
          else
            iunlockput E dp
            iput E ip
            act endOp
            return 0

def emptyScan (k : Fin NINODE) : Nat → Nat → Code Bool
  | 0, _ => return true
  | fuel + 1, off => do
    let dp ← act (inode k)
    if off < dp.din.size then
      let (r, l) ← readi E k off 16
      if r ≠ 16 then act (throw .isdirempty)
      else if (getDirent l).inum ≠ 0 then return false
      else emptyScan k fuel (off + 16)
    else return true

def isdirempty (k : Fin NINODE) : Code Bool := do
  let dp ← act (inode k)
  emptyScan E k (dp.din.size / 16 + 1) (2 * 16)

def unlinkBad (dp : Fin NINODE) : Code Int := do
  iunlockput E dp
  act endOp
  return -1

def nonemptyDir (ip : Fin NINODE) : Code Bool := do
  let x ← act (inode ip)
  if x.din.type = T_DIR then
    let r ← isdirempty E ip
    return !r
  else return false

def dropParent (ip dp : Fin NINODE) : Code Unit := do
  let x ← act (inode ip)
  if x.din.type = T_DIR then act (addNlink E dp (-1))

variable (path : List UInt8)

def sysUnlink : Code Int := do
  let pr ← act (proc p)
  act beginOp
  match ← nameiparent E pr.cwd path with
  | none =>
    act endOp
    return -1
  | some (dp, name) =>
    ilock E dp
    if namecmp name dot = 0 ∨ namecmp name dotdot = 0 then unlinkBad E dp
    else
      match ← dirlookup E dp name with
      | none => unlinkBad E dp
      | some (ip, off) =>
        ilock E ip
        let x ← act (inode ip)
        if x.din.nlink < 1 then act (throw .unlinkNlink)
        else
          if ← nonemptyDir E ip then
            iunlockput E ip
            unlinkBad E dp
          else
            let r ← writei E dp (List.replicate 16 0) off
            if r ≠ 16 then act (throw .unlinkWritei)
            else
              dropParent E ip dp
              iunlockput E dp
              act (addNlink E ip (-1))
              iunlockput E ip
              act endOp
              return 0

def createDots (ip dp : Fin NINODE) : Code Unit := do
  act (addNlink E dp 1)
  let x ← act (inode ip)
  let r ← dirlink E ip dot x.inum
  if r < 0 then act (throw .createDots)
  else
    let y ← act (inode dp)
    let r ← dirlink E ip dotdot y.inum
    if r < 0 then act (throw .createDots)

def create (type major minor : Int) : Code (Option (Fin NINODE)) := do
  match ← nameiparent E cwd path with
  | none => return none
  | some (dp, name) =>
    ilock E dp
    match ← dirlookup E dp name with
    | some (ip, _) =>
      iunlockput E dp
      ilock E ip
      let x ← act (inode ip)
      if type = T_FILE ∧ x.din.type = T_FILE then return some ip
      else
        iunlockput E ip
        return none
    | none =>
      let y ← act (inode dp)
      let ip ← ialloc E y.prt type
      ilock E ip
      act (initNode E ip major minor)
      if type = T_DIR then createDots E ip dp
      let x ← act (inode ip)
      let r ← dirlink E dp name x.inum
      if r < 0 then act (throw .createDirlink)
      else
        iunlockput E dp
        return some ip

def openInode (omode : Nat) : Code (Option (Fin NINODE)) := do
  if omode &&& O_CREATE ≠ 0 then create E cwd path T_FILE 0 0
  else
    match ← namei E cwd path with
    | none => return none
    | some ip =>
      ilock E ip
      let x ← act (inode ip)
      if x.din.type = T_DIR ∧ omode ≠ 0 then
        iunlockput E ip
        return none
      else return some ip

/-- `f->type = FD_INODE; f->ip = ip; ..` -/
def fillFile (ip : Fin NINODE) (omode : Nat) : FsM Unit := do
  let x ← fileAt f
  setFile f { x with
    isInode := true, ip, off := 0, readable := omode &&& O_WRONLY = 0,
    writable := omode &&& O_WRONLY ≠ 0 || omode &&& O_RDWR ≠ 0 }

def sysOpen (omode : Nat) : Code Int := do
  let pr ← act (proc p)
  act beginOp
  match ← openInode E pr.cwd path omode with
  | none =>
    act endOp
    return -1
  | some ip =>
    match ← act filealloc with
    | none =>
      iunlockput E ip
      act endOp
      return -1
    | some f =>
      match ← act (fdalloc p f) with
      | none =>
        fileclose E f
        iunlockput E ip
        act endOp
        return -1
      | some fd =>
        iunlock ip
        act endOp
        act (fillFile f ip omode)
        return (fd.1 : Int)

def makeNode (type major minor : Int) : Code Int := do
  let pr ← act (proc p)
  act beginOp
  match ← create E pr.cwd path type major minor with
  | none =>
    act endOp
    return -1
  | some ip =>
    iunlockput E ip
    act endOp
    return 0

def sysMkdir : Code Int := makeNode E p path T_DIR 0 0

def sysMknod (major minor : Int) : Code Int :=
  makeNode E p path T_DEV major minor

def sysChdir : Code Int := do
  let pr ← act (proc p)
  act beginOp
  match ← namei E pr.cwd path with
  | none =>
    act endOp
    return -1
  | some ip =>
    ilock E ip
    let x ← act (inode ip)
    if x.din.type ≠ T_DIR then
      iunlockput E ip
      act endOp
      return -1
    else
      iunlock ip
      iput E pr.cwd
      act endOp
      act (setProc p { pr with cwd := ip })
      return 0

/-- No transaction (sysfile.c:287). -/
def sysMount (i : Int) : Code Int := do
  let pr ← act (proc p)
  mount E pr.cwd path i

/-- The two files of a new pipe. -/
def fillPipe (f0 f1 : Fin NFILE) : FsM Unit := do
  let x ← fileAt f0
  setFile f0 { x with isPipe := true, readable := true, writable := false }
  let y ← fileAt f1
  setFile f1 { y with isPipe := true, readable := false, writable := true }

/-- `memory`: does `kalloc` have a page? -/
def pipealloc (memory : Bool) : Code (Option (Fin NFILE × Fin NFILE)) := do
  match ← act filealloc with
  | none => return none
  | some f0 =>
    match ← act filealloc with
    | none =>
      fileclose E f0
      return none
    | some f1 =>
      if memory then
        act (fillPipe f0 f1)
        return some (f0, f1)
      else
        fileclose E f0
        fileclose E f1
        return none

def sysPipe (memory : Bool) : Code Int := do
  match ← pipealloc E memory with
  | none => return -1
  | some (rf, wf) =>
    match ← act (fdalloc p rf) with
    | none =>
      fileclose E rf
      fileclose E wf
      return -1
    | some fd0 =>
      match ← act (fdalloc p wf) with
      | none =>
        act (clearFd p fd0)
        fileclose E rf
        fileclose E wf
        return -1
      | some _ => return 0

/-! ## exec.c and proc.c -/

/-- What `exec` reads next, given what it has read; it depends on the headers and on memory. -/
def execReads (k : Fin NINODE) (next : List (Int × List UInt8) → Option (Nat × Nat)) :
    Nat → List (Int × List UInt8) → Code Unit
  | 0, _ => return ()
  | fuel + 1, acc =>
    match next acc with
    | none => return ()
    | some (off, n) => do
      let r ← readi E k off n
      execReads k next fuel (r :: acc)

def exec (next : List (Int × List UInt8) → Option (Nat × Nat)) (fuel : Nat) : Code Int := do
  let pr ← act (proc p)
  act beginOp
  match ← namei E pr.cwd path with
  | none =>
    act endOp
    return -1
  | some ip =>
    ilock E ip
    execReads E ip next fuel []
    iunlockput E ip
    act endOp
    return 0

/-- `for(i = 0; i < NOFILE; i++) if(proc->ofile[i]) np->ofile[i] = filedup(proc->ofile[i])` -/
def dupFiles (x : Proc) : List (Fin NOFILE) → Code Unit
  | [] => return ()
  | fd :: fds => do
    match x.ofile fd with
    | none => dupFiles x fds
    | some f =>
      act (filedup f)
      dupFiles x fds

/-- `np->state = RUNNABLE` -/
def newProc (q : Fin NPROC) (x : Proc) : FsM Unit := do
  if ((← get).procs q).isSome then throw .disabled else setProc q x

/-- `child`: the slot that `allocproc` found, if there was one and memory enough. Its number stands
for the `pid`. -/
def fork (child : Option (Fin NPROC)) : Code Int := do
  let x ← act (proc p)
  match child with
  | none => return -1
  | some q =>
    dupFiles x (List.finRange NOFILE)
    let cwd ← act (idup x.cwd)
    act (newProc q { x with cwd })
    return (q.1 : Int)

/--
`for(fd = 0; fd < NOFILE; fd++) if(proc->ofile[fd]){ fileclose(proc->ofile[fd]); proc->ofile[fd] = 0; }` -/
def closeFiles (p : Fin NPROC) : List (Fin NOFILE) → Code Unit
  | [] => return ()
  | fd :: fds => do
    let x ← act (proc p)
    match x.ofile fd with
    | none => closeFiles p fds
    | some f =>
      fileclose E f
      act (clearFd p fd)
      closeFiles p fds

/-- `proc->cwd = 0; .. proc->state = ZOMBIE` -/
def endProc : FsM Unit := modify fun s => { s with procs := Function.update s.procs p none }

/-- Process 0 is `initproc`. -/
def exit : Code Int := do
  let _ ← act (proc p)
  if p = 0 then act (throw .initExiting)
  else
    closeFiles E p (List.finRange NOFILE)
    act beginOp
    let x ← act (proc p)
    iput E x.cwd
    act endOp
    act (endProc p)
    return 0

end Par

/-! ## Runs -/

inductive SysCall where
  | op (o : Op)
  | fstat (p : Fin NPROC) (fd : Fin NOFILE)
  | pipe (p : Fin NPROC) (memory : Bool)
  | exec (p : Fin NPROC) (path : List UInt8) (next : List (Int × List UInt8) → Option (Nat × Nat))
      (fuel : Nat)
  | fork (p : Fin NPROC) (child : Option (Fin NPROC))
  | exit (p : Fin NPROC)

def Op.proc : Op → Fin NPROC
  | .open p .. | .dup p .. | .close p .. | .read p .. | .write p .. | .link p .. | .unlink p ..
      | .mkdir p .. | .mknod p ..
  | .chdir p .. => p

def SysCall.proc : SysCall → Fin NPROC
  | .op o => o.proc
  | .fstat p .. | .pipe p .. | .exec p .. | .fork p .. | .exit p => p

def Op.code (E : Env) : Op → Code Int
  | .open p path omode => Par.sysOpen E p path omode
  | .dup p fd => Par.sysDup p fd
  | .close p fd => Par.sysClose E p fd
  | .read p fd n => Par.sysRead E p fd n
  | .write p fd addr n => Par.sysWrite E p fd addr n
  | .link p old new => Par.sysLink E p old new
  | .unlink p path => Par.sysUnlink E p path
  | .mkdir p path => Par.sysMkdir E p path
  | .mknod p path major minor => Par.sysMknod E p path major minor
  | .chdir p path => Par.sysChdir E p path

def SysCall.code (E : Env) : SysCall → Code Int
  | .op o => o.code E
  | .fstat p fd => Par.sysFstat E p fd
  | .pipe p memory => Par.sysPipe E p memory
  | .exec p path next fuel => Par.exec E p path next fuel
  | .fork p child => Par.fork p child
  | .exit p => Par.exit E p

/-- The kernel: every process makes one call after another. -/
def kernel (E : Env) : Machine (Fin NPROC) SysCall FsState Panic Point Int where
  owner := SysCall.proc
  body := SysCall.code E

abbrev Kernel := Pool (Fin NPROC) SysCall FsState Panic Point Int

/-- The calls of `kernel` and `mount`. -/
inductive Job where
  | call (c : SysCall)
  | mount (p : Fin NPROC) (path : List UInt8) (i : Int)

def Job.proc : Job → Fin NPROC
  | .call c => c.proc
  | .mount p .. => p

def Job.code (E : Env) : Job → Code Int
  | .call c => c.code E
  | .mount p path i => Par.sysMount E p path i

def system (E : Env) : Machine (Fin NPROC) Job FsState Panic Point Int where
  owner := Job.proc
  body := Job.code E

abbrev System := Pool (Fin NPROC) Job FsState Panic Point Int

end Os4.Fs
