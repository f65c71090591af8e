import Os4.Fs.Sys
import Os4.Fs.Volume
/-!
# mkfs (mkfs.c)

| here | there |
| --- | --- |
| `State.disk`, `State.len` | the image file by sectors, and how many sectors it has |
| `State.sb`, `freeinode`, `freeblock` | the globals of the same names (mkfs.c:35-52) |
| `Dpartition`, `Mbr`, `mbrBlock` | `struct dpartition`, `struct mbr` (mbr.h), 512 bytes packed |
| `wsect`, `rsect`, `winode`, `rinode` | mkfs.c:153, 193, 166, 181 |
| `ialloc`, `balloc`, `iappend` | mkfs.c:207, 221, 239 |
| `createPartition`, `initPartition`, `rootHandler` | mkfs.c:295, 344, 410 |
| `writeKernel`, `main` | `create_bootload_kernel` (mkfs.c:303), mkfs.c:91 |

`lseek` goes to `sec * BSIZE`, a product of `uint`s (`pos`). A sector that was skipped over reads as
zeros, one past the end of the file cannot be read. Files of the host are read without errors and
writes to the image succeed; an argument that cannot be opened has no content. What `main` leaves
uninitialised on its stack is a parameter (`Stack`). `State.writes` records every `wsect` with the
step of `main` it belongs to (`Phase`) and what it was meant for (`Area`).
-/
namespace Os4.Fs.Mkfs

/-- How mkfs ends other than by `exit(0)`. -/
inductive Stop where
  /-- `exit(1)` -/
  | failed
  /-- a failed `assert` -/
  | assertion
deriving DecidableEq

inductive Phase where
  /-- zeroes, boot loader and kernel -/
  | boot
  /-- `init_partition` of partition `i` -/
  | part (i : Nat)
  /-- the MBR at the end -/
  | mbr
deriving DecidableEq

inductive Area where
  /-- any sector of the partition -/
  | whole
  | superblock
  | inodes
  | bitmap
  | data
deriving DecidableEq

structure Write where
  phase : Phase
  area : Area
  /-- where in the image -/
  sector : Nat
deriving DecidableEq

structure State where
  disk : Disk
  len : Nat
  /-- with absolute starts while a partition is filled -/
  sb : Superblock
  freeinode : Nat
  freeblock : Nat
  phase : Phase
  writes : List Write

abbrev MkM := Prog State Stop

/-! ## Sectors -/

/-- The sector at byte `sec * BSIZE`. -/
def pos (sec : Nat) : Nat := sec * BSIZE % 2 ^ 32 / BSIZE

def wsect (a : Area) (sec : Nat) (buf : Block) : MkM Unit :=
  modify fun st =>
    { st with
      disk := Function.update st.disk (pos sec) buf
      len := max st.len (pos sec + 1)
      writes := st.writes ++ [⟨st.phase, a, pos sec⟩] }

def rsect (sec : Nat) : MkM Block := do
  let st ← get
  if pos sec < st.len then return st.disk (pos sec) else throw .failed

def winode (inum : Nat) (d : Dinode) : MkM Unit := do
  let st ← get
  let bn := inum / IPB + st.sb.inodestart
  let x ← rsect bn
  wsect .inodes bn (putDinode x (inum % IPB) d)

def rinode (inum : Nat) : MkM Dinode := do
  let st ← get
  let x ← rsect (inum / IPB + st.sb.inodestart)
  return getDinode x (inum % IPB)

/-- `freeblock++` -/
def nextBlock : MkM Nat := do
  let st ← get
  set { st with freeblock := st.freeblock + 1 }
  return st.freeblock

def ialloc (type : Int) : MkM Nat := do
  let st ← get
  set { st with freeinode := st.freeinode + 1 }
  winode st.freeinode ⟨toShort type, 0, 0, 1, 0, fun _ => 0⟩
  return st.freeinode

/-- A block whose first `used` bits are set. -/
def usedBits : Nat → Block
  | 0 => Bytes.zero
  | n + 1 => (usedBits n).setBit n

def balloc (used : Nat) : MkM Unit := do
  let st ← get
  if used < BSIZE * 8 then wsect .bitmap st.sb.bmapstart (usedBits used) else throw .assertion

/-! ## Appending -/

/-- `if(xint(din.addrs[j]) == 0) din.addrs[j] = xint(freeblock++)` -/
def addrFor (d : Dinode) (j : Fin (NDIRECT + 1)) : MkM Dinode := do
  if d.addrs j = 0 then return d.setAddr j (← nextBlock) else return d

/-- Entry `e` of the indirect block at `addr`. -/
def entryFor (addr e : Nat) : MkM Nat := do
  let indirect ← rsect addr
  if indirect.getLE (4 * e) 4 = 0 then
    let b ← nextBlock
    wsect .data addr (indirect.putLE (4 * e) 4 b)
    return b
  else return indirect.getLE (4 * e) 4

/-- The sector of block `fbn` of a file, and the inode with it. -/
def blockFor (d : Dinode) (fbn : Nat) : MkM (Dinode × Nat) := do
  if h : fbn < NDIRECT then
    let d ← addrFor d ⟨fbn, Nat.lt_succ_of_lt h⟩
    return (d, d.addrs ⟨fbn, Nat.lt_succ_of_lt h⟩)
  else
    let d ← addrFor d (Fin.last NDIRECT)
    let x ← entryFor d.indirect (fbn - NDIRECT)
    return (d, x)

/-- The loop of `iappend`: `n` is the length of `src`, and each round moves at least one byte. -/
def iappendLoop : Nat → Dinode → Nat → List UInt8 → MkM (Dinode × Nat)
  | 0, d, off, _ => return (d, off)
  | fuel + 1, d, off, src =>
    if src = [] then return (d, off)
    else if MAXFILE ≤ off / BSIZE then throw .assertion
    else do
      let (d, x) ← blockFor d (off / BSIZE)
      let n1 := min src.length ((off / BSIZE + 1) * BSIZE - off)
      let buf ← rsect x
      wsect .data x (buf.splice (off - off / BSIZE * BSIZE) (src.take n1))
      iappendLoop fuel d (off + n1) (src.drop n1)

def iappend (inum : Nat) (src : List UInt8) : MkM Unit := do
  let d ← rinode inum
  let (d, off) ← iappendLoop src.length d d.size src
  winode inum { d with size := off }

/-! ## A partition -/

/-- What `read` returns, call after call, until it returns 0; one call reads at most `BSIZE`
bytes. -/
def readsFrom : Nat → List UInt8 → List (List UInt8)
  | 0, _ => []
  | fuel + 1, l => if l = [] then [] else l.take BSIZE :: readsFrom fuel (l.drop BSIZE)

def reads (l : List UInt8) : List (List UInt8) := readsFrom l.length l

/-- `while((cc = read(fd, buf, sizeof(buf))) > 0) iappend(inum, buf, cc)` -/
def appendAll (inum : Nat) : List (List UInt8) → MkM Unit
  | [] => return ()
  | buf :: rest => do
    iappend inum buf
    appendAll inum rest

/-- One of `argv[2..]`, and the file it names. -/
structure Arg where
  name : List UInt8
  content : Option (List UInt8)

/-- The name without a leading `_`. -/
def Arg.stored (a : Arg) : List UInt8 := if a.name.head? = some 95 then a.name.tail else a.name

def rootHandler (rootino : Nat) : List Arg → MkM Unit
  | [] => return ()
  | a :: rest => do
    -- index(argv[i], '/') == 0
    if 47 ∈ a.name then throw .assertion
    else
      match a.content with
      | none => throw .failed
      | some l =>
        let inum ← ialloc T_FILE
        iappend rootino (direntBytes ⟨inum, strncpy a.stored DIRSIZ⟩)
        appendAll inum (reads l)
        rootHandler rootino rest

structure Dpartition where
  flags : Nat
  type : Nat
  offset : Nat
  size : Nat

abbrev PART_BOOTABLE : Nat := 2
abbrev FS_INODE : Nat := 0

/-- `SET_BOOTABLE` stores the lowest byte of `flags` only. -/
def createPartition (part : Dpartition) (bootable type offset size : Nat) : Dpartition :=
  ⟨part.flags - part.flags % 256 + bootable, type, offset, size⟩

/-- `for(i = sec; i < sec + n; i++) wsect(i, zeroes)` -/
def zeroSectors : Nat → Nat → MkM Unit
  | _, 0 => return ()
  | sec, n + 1 => do
    wsect .whole sec Bytes.zero
    zeroSectors (sec + 1) n

/-- `init_partition` up to the call of `root_writer`. -/
def openPartition (part : Dpartition) : MkM Nat := do
  zeroSectors part.offset part.size
  modify fun st =>
    { st with
      sb := ⟨part.size, part.size - nmeta, NINODES, nlog, part.offset + 1, part.offset + 1 + nlog,
        part.offset + 1 + nlog + ninodeblocks⟩
      freeblock := part.offset + nmeta
      freeinode := 1 }
  let rootino ← ialloc T_DIR
  if rootino = ROOTINO then
    iappend rootino (direntBytes ⟨rootino, strncpy dot DIRSIZ⟩)
    iappend rootino (direntBytes ⟨rootino, strncpy dotdot DIRSIZ⟩)
    return rootino
  else throw .assertion

/-- `init_partition` after the call of `root_writer`. -/
def closePartition (part : Dpartition) (rootino : Nat) : MkM Unit := do
  let d ← rinode rootino
  winode rootino { d with size := (d.size / BSIZE + 1) * BSIZE }
  let st ← get
  balloc (st.freeblock - (part.offset + nmeta))
  wsect .superblock part.offset (superblockBlock
    { st.sb with
      logstart := st.sb.logstart - part.offset
      inodestart := st.sb.inodestart - part.offset
      bmapstart := st.sb.bmapstart - part.offset })

/-- `init_partition` with `root_handler` as `root_writer`. -/
def initPartition (part : Dpartition) (args : List Arg) : MkM Unit := do
  let rootino ← openPartition part
  rootHandler rootino args
  closePartition part rootino

/-! ## The image -/

structure Mbr where
  bootstrap : List UInt8
  partitions : List Dpartition

abbrev BOOTSTRAP : Nat := 446

def dpartitionBytes (part : Dpartition) : List UInt8 :=
  Bytes.natLe 4 part.flags ++ Bytes.natLe 4 part.type ++ Bytes.natLe 4 part.offset ++
    Bytes.natLe 4 part.size

def mbrBlock (mbr : Mbr) : Block :=
  ((Bytes.zero.splice 0 mbr.bootstrap).splice BOOTSTRAP
    (mbr.partitions.flatMap dpartitionBytes)).splice 510 [0x55, 0xAA]

/-- The loop of `create_bootload_kernel`: the next free sector. The last `read` may leave a part of
`buf` as it was. -/
def writeKernel : Block → Nat → List (List UInt8) → MkM Nat
  | _, i, [] => return i
  | buf, i, l :: rest => do
    wsect .whole i (buf.splice 0 l)
    writeKernel (buf.splice 0 l) (i + 1) rest

/-- The partitions from `i` on, the first of them at `offset`. -/
def initPartitions (args : List Arg) : Dpartition → Nat → Nat → Nat → MkM (List Dpartition)
  | _, _, _, 0 => return []
  | part, offset, i, n + 1 => do
    let part := createPartition part PART_BOOTABLE FS_INODE offset FSSIZE
    modify fun st => { st with phase := .part i }
    initPartition part args
    let rest ← initPartitions args part (part.offset + part.size) (i + 1) n
    return part :: rest

structure Stack where
  buf : Block
  part : Dpartition

/-- mkfs with the files `bootblock` and `kernel` and the arguments after the name of the image; the
MBR as it is in the end. -/
def main (stack : Stack) (bootblock kernel : Option (List UInt8)) (args : List Arg) : MkM Mbr := do
  zeroSectors 0 FSSIZE
  match bootblock, kernel with
  | some bootblock, some kernel =>
    let sbOff ← writeKernel stack.buf 1 (reads kernel)
    let partitions ← initPartitions args stack.part sbOff 0 NPARTITIONS
    let mbr : Mbr := ⟨bootblock.take BOOTSTRAP, partitions⟩
    modify fun st => { st with phase := .mbr }
    wsect .whole 0 (mbrBlock mbr)
    return mbr
  | _, _ => throw .failed

/-- The image file is new and empty. -/
def start : State where
  disk _ := Bytes.zero
  len := 0
  sb := ⟨0, 0, 0, 0, 0, 0, 0⟩
  freeinode := 1
  freeblock := 0
  phase := .boot
  writes := []

end Os4.Fs.Mkfs
