import Os4.Fs.Layout
import Os4.Lib.Wp
/-!
# File-system state and the block layer (fs.c:66-189)

| here | there |
| --- | --- |
| `FsState.disk` | the blocks as `bread` hands them out, logged writes included (`Bio.view` of the log's model) |
| `FsState.icache`, `Inode` | `icache.inode[NINODE]`, `struct inode` (file.h) with its flags; `din` are the fields copied from disk |
| `FsState.mounts` | `mount_points.pnts` (fs.c:54) |
| `FsState.logged` | what was `log_write`n, a list for each `begin_op`, the latest first |
| `Env.offset`, `Env.boot` | `partitions[i].prt.offset`, `boot_part - partitions`; a `struct partition*` is the index `i` or null |
| `readsb`, `bzero`, `balloc`, `bfree` | fs.c:66, 119, 132, 169 |

There is one disk, so `dev` is left out, and so are the `is_mnt` field, which nothing reads, and the
console output. Operations run one after another: `begin_op` and `end_op` only count, and waiting
for an inode lock that the process itself holds is `Panic.deadlock`.
-/
namespace Os4.Fs

/-- The texts of `panic`, and the two ways to hang or fault without one. -/
inductive Panic where
  /-- too big a transaction -/
  | tooBig
  /-- log_write outside of trans -/
  | logOutside
  /-- balloc: out of blocks -/
  | ballocOut
  /-- freeing free block -/
  | freeingFree
  /-- iget: no inodes -/
  | iget
  /-- ialloc: no inodes -/
  | ialloc
  /-- ilock -/
  | ilock
  /-- ilock no partition -/
  | ilockNoPartition
  /-- ilock: no type -/
  | ilockNoType
  /-- iunlock -/
  | iunlock
  /-- iput busy -/
  | iputBusy
  /-- bmap: out of range -/
  | bmap
  /-- dirlookup not DIR -/
  | dirlookup
  /-- dirlink read -/
  | dirlinkRead
  /-- dirlink -/
  | dirlink
  /-- isdirempty: readi -/
  | isdirempty
  /-- unlink: nlink < 1 -/
  | unlinkNlink
  /-- unlink: writei -/
  | unlinkWritei
  /-- create dots -/
  | createDots
  /-- create: dirlink -/
  | createDirlink
  | filedup
  | fileclose
  | fileread
  | filewrite
  /-- short filewrite -/
  | shortFilewrite
  /-- a null `struct partition*` is followed -/
  | nullPartition
  /-- a process waits for a lock; alone, for itself -/
  | deadlock
  /-- init exiting -/
  | initExiting
  /-- no such process or descriptor: not a step of the kernel -/
  | disabled
deriving DecidableEq, Repr

structure Inode where
  inum : Nat
  ref : Int
  busy : Bool
  valid : Bool
  prt : Option Int
  din : Dinode

structure MountPoint where
  isTaken : Bool
  /-- `DIRSIZ` bytes -/
  path : List UInt8
  prt : Option Int
  oldI : Nat
  oldPrt : Option Int
deriving DecidableEq

structure File where
  /-- `FD_INODE` -/
  isInode : Bool
  ref : Int
  readable : Bool
  writable : Bool
  ip : Fin NINODE
  off : Nat
  /-- `FD_PIPE`; if neither, `FD_NONE` -/
  isPipe : Bool

structure Proc where
  cwd : Fin NINODE
  ofile : Fin NOFILE → Option (Fin NFILE)

structure FsState where
  disk : Disk
  icache : Fin NINODE → Inode
  mounts : List MountPoint
  outstanding : Nat
  logged : List (List Nat)
  ftable : Fin NFILE → File
  procs : Fin NPROC → Option Proc

/-- What does not change after boot. `scan` bounds the two loops of `balloc`; the source has
`sb.size` (`Env.code`). -/
structure Env where
  offset : Int → Nat
  boot : Int
  scan : Superblock → Nat
  devRead : Int → Option (Nat → Int × List UInt8)
  devWrite : Int → Option (List UInt8 → Int)

def Env.code (E : Env) : Env := { E with scan := Superblock.size }

abbrev FsM := Prog FsState Panic

/-! ## Blocks and the log -/

def bread (b : Nat) : FsM Block := return (← get).disk b

def beginOp : FsM Unit :=
  modify fun s => { s with outstanding := s.outstanding + 1, logged := [] :: s.logged }

def endOp : FsM Unit := modify fun s => { s with outstanding := s.outstanding - 1 }

/-- Record a block in the section under way. -/
def addLogged (b : Nat) : List (List Nat) → List (List Nat)
  | [] => [[b]]
  | l :: ls => l.insert b :: ls

/-- Block `b`, held and changed to `x`, is logged. -/
def logWrite (b : Nat) (x : Block) : FsM Unit := do
  let s ← get
  if s.outstanding < 1 then throw .logOutside
  else set { s with disk := Function.update s.disk b x, logged := addLogged b s.logged }

variable (E : Env)

/-- `part->prt.offset` -/
def partOffset : Option Int → FsM Nat
  | some p => return E.offset p
  | none => throw .nullPartition

def readsb (prt : Option Int) : FsM Superblock := do
  let offset ← partOffset E prt
  let sb := getSuperblock (← bread offset)
  return { sb with
    logstart := sb.logstart + offset
    inodestart := sb.inodestart + offset
    bmapstart := sb.bmapstart + offset }

def bzero (bno : Nat) : FsM Unit := logWrite bno Bytes.zero

/-- The inner loop of `balloc` with `n` bits to go: the first clear bit of a bitmap block from `bi`
on. -/
def clearFrom (x : Block) : Nat → Nat → Option Nat
  | 0, _ => none
  | n + 1, bi => if !x.bit bi then some bi else clearFrom x n (bi + 1)

def clearBelow (x : Block) (n : Nat) : Option Nat := clearFrom x n 0

/-- The outer loop of `balloc`, over the values of `b` still to come. -/
def ballocFrom (sb : Superblock) : List Nat → FsM Nat
  | [] => throw .ballocOut
  | b :: bs => do
    let bno := b / BPB + sb.bmapstart
    let x ← bread bno
    match clearBelow x (min BPB (E.scan sb - b)) with
    | some bi =>
      logWrite bno (x.setBit bi)
      let r := sb.bmapstart + 1 + b + bi
      bzero r
      return r
    | none => ballocFrom sb bs

def balloc (prt : Option Int) : FsM Nat := do
  let sb ← readsb E prt
  ballocFrom E sb ((List.range ((E.scan sb + BPB - 1) / BPB)).map (· * BPB))

def bfree (prt : Option Int) (b : Nat) : FsM Unit := do
  let sb ← readsb E prt
  -- `b - freeblock_offset` on `uint`s
  let b := (b + (2 ^ 32 - (sb.bmapstart + 1) % 2 ^ 32)) % 2 ^ 32
  let bno := b / BPB + sb.bmapstart
  let x ← bread bno
  let bi := b % BPB
  if !x.bit bi then throw .freeingFree
  else logWrite bno (x.clearBit bi)

end Os4.Fs
