import Os4.Fs.Inode
/-!
# Directories, paths and mount points (fs.c:607-883)

| here | there |
| --- | --- |
| `strncmp`, `namecmp`, `strncpy` | string.c:58, fs.c:610, string.c:69 |
| `findMp`, `isInodeMounted`, `mpalloc`, `mount`, `checkMounted` | fs.c:804, 815, 829, 845, 873 |
| `dirlookup`, `dirlink` | fs.c:620, 652 |
| `skipelem`, `namex`, `namei`, `nameiparent` | fs.c:695, 726, 771, 781 |

A string is the list of its bytes up to the terminator. A `char[DIRSIZ]` that need not be terminated
is the list of its bytes, and reading past the end of a list finds the terminator.
-/
namespace Os4.Fs

variable (E : Env)

/-! ## Strings -/

def strncmp : List UInt8 → List UInt8 → Nat → Int
  | _, _, 0 => 0
  | p, q, n + 1 =>
    let a := p.headD 0
    let b := q.headD 0
    if a ≠ 0 ∧ a = b then strncmp p.tail q.tail n else (a.toNat : Int) - b.toNat

def namecmp (s t : List UInt8) : Int := strncmp s t DIRSIZ

/-- `strncpy(s, t, n)`: cut or padded with zeros. -/
def strncpy (t : List UInt8) (n : Nat) : List UInt8 := t.take n ++ List.replicate (n - t.length) 0

/-! ## The mount table -/

/-- The index of the entry `find_mp` returns. -/
def findMp (m : List MountPoint) (path : List UInt8) : Option Nat :=
  m.findIdx? fun it => namecmp path it.path == 0

/-- `is_inode_mounted`: the partition mounted over `in`; `*new_i` is always `ROOTINO`. -/
def isInodeMounted (m : List MountPoint) (inum : Nat) (prt : Option Int) : Option (Option Int) :=
  (m.find? fun it => it.oldI == inum && it.oldPrt == prt).map (·.prt)

/-- `mpalloc`: the first slot that is not taken. -/
def mpalloc (m : List MountPoint) : Option Nat := m.findIdx? fun it => !it.isTaken

variable (k : Fin NINODE)

def checkMounted : FsM (Option (Fin NINODE)) := do
  let s ← get
  match isInodeMounted s.mounts (s.icache k).inum (s.icache k).prt with
  | some prt => return some (← iget prt ROOTINO)
  | none => return none

/-! ## Directories -/

/-- The loop of `dirlookup` from `off` on: offset and inode number of the entry found. -/
def dirScan (k : Fin NINODE) (name : List UInt8) : Nat → Nat → FsM (Option (Nat × Nat))
  | 0, _ => return none
  | fuel + 1, off => do
    let dp ← inode k
    if off < dp.din.size then
      let (r, l) ← readi E k off 16
      if r ≠ 16 then throw .dirlinkRead
      else
        let de := getDirent l
        if de.inum ≠ 0 ∧ namecmp name de.name = 0 then return some (off, de.inum)
        else dirScan k name fuel (off + 16)
    else return none

/-- `dp = flag ? iget(mnt_prt, mnt_in) : dp` -/
def redirect : FsM (Fin NINODE) := do
  let s ← get
  match isInodeMounted s.mounts (s.icache k).inum (s.icache k).prt with
  | some prt => iget prt ROOTINO
  | none => return k

/-- The part of `dirlookup` after it: the inode and `*poff`. -/
def dirlookupIn (name : List UInt8) : FsM (Option (Fin NINODE × Nat)) := do
  let dp ← inode k
  if dp.din.type ≠ T_DIR then throw .dirlookup
  else
    match ← dirScan E k name (dp.din.size / 16 + 1) 0 with
    | none => return none
    | some (off, inum) => return some (← iget dp.prt inum, off)

def dirlookup (name : List UInt8) : FsM (Option (Fin NINODE × Nat)) := do
  dirlookupIn E (← redirect k) name

/-! ## Paths -/

abbrev slash : UInt8 := 47

/-- The next element, cut to `DIRSIZ` bytes, and the path after it. -/
def skipelem (path : List UInt8) : Option (List UInt8 × List UInt8) :=
  let path := path.dropWhile (· == slash)
  if path = [] then none
  else some ((path.takeWhile (· != slash)).take DIRSIZ,
    (path.dropWhile (· != slash)).dropWhile (· == slash))

/-- The `while` of `namex`; every round takes an element off the path. -/
def namexLoop (parent : Bool) : Nat → Fin NINODE → List UInt8 → List UInt8 →
    FsM (Option (Fin NINODE × List UInt8))
  | 0, _, _, _ => return none
  | fuel + 1, ip, path, name =>
    match skipelem path with
    | none =>
      if parent then do
        iput E ip
        return none
      else return some (ip, name)
    | some (name, path) => do
      ilock E ip
      if (← inode ip).din.type ≠ T_DIR then
        iunlockput E ip
        return none
      else if parent ∧ path = [] then
        let tmp ← checkMounted ip
        iunlock ip
        return some (tmp.getD ip, name)
      else
        match ← dirlookup E ip name with
        | none =>
          iunlockput E ip
          return none
        | some (next, _) =>
          iunlockput E ip
          namexLoop parent fuel next path name

variable (cwd : Fin NINODE)

/-- Where the walk starts when the path is not itself a mounted string. -/
def startInode (path : List UInt8) : FsM (Fin NINODE) :=
  if path.head? = some slash then iget (some E.boot) ROOTINO else idup cwd

/-- The inode and the last path element; `cwd` is `proc->cwd`. -/
def namex (path : List UInt8) (parent : Bool) : FsM (Option (Fin NINODE × List UInt8)) := do
  let s ← get
  match findMp s.mounts path with
  | some i =>
    let ip ← iget ((s.mounts[i]?).bind (·.prt)) ROOTINO
    namexLoop E parent 2 ip [slash] []
  | none =>
    let ip ← startInode E cwd path
    namexLoop E parent (path.length + 1) ip path []

def namei (path : List UInt8) : FsM (Option (Fin NINODE)) := do
  return (← namex E cwd path false).map Prod.fst

def nameiparent (path : List UInt8) : FsM (Option (Fin NINODE × List UInt8)) :=
  namex E cwd path true

/-- What `mount` stores in a slot: at most `DIRSIZ` bytes of the path, over what was there. -/
def mountEntry (old : MountPoint) (path : List UInt8) (i : Int) (inum : Nat) (prt : Option Int) :
    MountPoint :=
  ⟨true, path.take DIRSIZ ++ old.path.drop (min DIRSIZ path.length), some i, inum, prt⟩

def mount (path : List UInt8) (i : Int) : FsM Int := do
  match ← namei E cwd path with
  | none => return -1
  | some ip =>
    let s ← get
    if (findMp s.mounts path).isSome then return -1
    else
      match mpalloc s.mounts with
      | none => return -1
      | some j =>
        let x := s.icache ip
        set { s with mounts := s.mounts.modify j fun old => mountEntry old path i x.inum x.prt }
        return 0

end Os4.Fs
