import Os4.Fs.State
/-!
# Inodes (fs.c:257-605)

| here | there |
| --- | --- |
| `iget`, `idup`, `ilock`, `iunlock`, `iput`, `iunlockput` | fs.c:326, 361, 372, 409, 427, 450 |
| `ialloc`, `iupdate` | fs.c:274, 303 |
| `bmap`, `itrunc` | fs.c:466, 504 |
| `readi`, `writei` | fs.c:547, 575 |

A `struct inode*` is the index of its slot in `icache`. A loop of the source is a recursion over
what it still has to visit; `readLoop` and `writeLoop` also count down the bytes left, since each
round moves at least one.
-/
namespace Os4.Fs

variable (E : Env)

variable (k : Fin NINODE)

def inode : FsM Inode := return (← get).icache k

def setInode (x : Inode) : FsM Unit :=
  modify fun s => { s with icache := Function.update s.icache k x }

def setDin (d : Dinode) : FsM Unit :=
  modify fun s => { s with icache := Function.update s.icache k { s.icache k with din := d } }

/-- The slot that caches inode `inum` of `prt`. -/
def FsState.cachedAt (s : FsState) (prt : Option Int) (inum : Nat) : Option (Fin NINODE) :=
  (List.finRange NINODE).find? fun k =>
    0 < (s.icache k).ref && (s.icache k).prt == prt && (s.icache k).inum == inum

/-- The first slot nobody refers to. -/
def FsState.emptySlot (s : FsState) : Option (Fin NINODE) :=
  (List.finRange NINODE).find? fun k => (s.icache k).ref == 0

def iget (prt : Option Int) (inum : Nat) : FsM (Fin NINODE) := do
  let s ← get
  match s.cachedAt prt inum with
  | some k =>
    setInode k { s.icache k with ref := (s.icache k).ref + 1 }
    return k
  | none =>
    match s.emptySlot with
    | some k =>
      -- type, size and addrs of the slot's last inode stay where they are
      setInode k { s.icache k with prt, inum, ref := 1, busy := false, valid := false }
      return k
    | none => throw .iget

def idup : FsM (Fin NINODE) := do
  let ip ← inode k
  setInode k { ip with ref := ip.ref + 1 }
  return k

def ilock : FsM Unit := do
  let ip ← inode k
  if ip.ref < 1 then throw .ilock
  else if ip.prt = none then throw .ilockNoPartition
  else if ip.busy then throw .deadlock
  else
    setInode k { ip with busy := true }
    let sb ← readsb E ip.prt
    if ip.valid then return ()
    else
      let x ← bread (ip.inum / IPB + sb.inodestart)
      let d := getDinode x (ip.inum % IPB)
      setInode k { ip with busy := true, valid := true, din := d }
      if d.type = 0 then throw .ilockNoType else return ()

def iunlock : FsM Unit := do
  let ip ← inode k
  if !ip.busy || ip.ref < 1 then throw .iunlock
  else setInode k { ip with busy := false }

def iupdate : FsM Unit := do
  let ip ← inode k
  let sb ← readsb E ip.prt
  let bno := ip.inum / IPB + sb.inodestart
  let x ← bread bno
  logWrite bno (putDinode x (ip.inum % IPB) ip.din)

/-! ## Content -/

/-- `if((addr = ip->addrs[j]) == 0) ip->addrs[j] = addr = balloc(ip->prt)` -/
def addrOrAlloc (j : Fin (NDIRECT + 1)) : FsM Nat := do
  let ip ← inode k
  if ip.din.addrs j = 0 then
    let a ← balloc E ip.prt
    setDin k (ip.din.setAddr j a)
    return a
  else return ip.din.addrs j

/-- `if((addr = a[j]) == 0){ a[j] = addr = balloc(ip->prt); log_write(bp); }` for the block `bp` at
`addr` -/
def entryOrAlloc (addr j : Nat) : FsM Nat := do
  let x ← bread addr
  if x.getLE (4 * j) 4 = 0 then
    let ip ← inode k
    let a ← balloc E ip.prt
    logWrite addr (x.putLE (4 * j) 4 a)
    return a
  else return x.getLE (4 * j) 4

def bmap (bn : Nat) : FsM Nat := do
  if h : bn < NDIRECT then addrOrAlloc E k ⟨bn, Nat.lt_succ_of_lt h⟩
  else if bn - NDIRECT < NINDIRECT then
    let addr ← addrOrAlloc E k (Fin.last NDIRECT)
    entryOrAlloc E k addr (bn - NDIRECT)
  else throw .bmap

/-- `if(ip->addrs[j]){ bfree(ip->prt, ip->addrs[j]); ip->addrs[j] = 0; }` -/
def freeAddr (j : Fin (NDIRECT + 1)) : FsM Unit := do
  let ip ← inode k
  if ip.din.addrs j ≠ 0 then
    bfree E ip.prt (ip.din.addrs j)
    setDin k (ip.din.setAddr j 0)

/-- The loop of `itrunc` over the direct blocks. -/
def freeDirect (k : Fin NINODE) : List (Fin (NDIRECT + 1)) → FsM Unit
  | [] => return ()
  | j :: js => do
    freeAddr E k j
    freeDirect k js

/-- `if(a[j]) bfree(ip->prt, a[j])` -/
def freeEntry (prt : Option Int) (a : Nat) : FsM Unit := if a ≠ 0 then bfree E prt a else return ()

/-- The loop of `itrunc` over the entries of the indirect block. -/
def freeIndirect (prt : Option Int) : List Nat → FsM Unit
  | [] => return ()
  | a :: as => do
    freeEntry E prt a
    freeIndirect prt as

/-- The part of `itrunc` about the indirect block. -/
def truncIndirect : FsM Unit := do
  let ip ← inode k
  if ip.din.addrs (Fin.last NDIRECT) ≠ 0 then
    let x ← bread (ip.din.addrs (Fin.last NDIRECT))
    freeIndirect E ip.prt ((List.range NINDIRECT).map fun j => x.getLE (4 * j) 4)
    bfree E ip.prt (ip.din.addrs (Fin.last NDIRECT))
    setDin k (ip.din.setAddr (Fin.last NDIRECT) 0)

def itrunc : FsM Unit := do
  freeDirect E k ((List.finRange NDIRECT).map Fin.castSucc)
  truncIndirect E k
  let ip ← inode k
  setDin k { ip.din with size := 0 }
  iupdate E k

/-- The part of `iput` that frees an inode without links or other references. -/
def reclaim : FsM Unit := do
  let ip ← inode k
  if ip.ref = 1 ∧ ip.valid = true ∧ ip.din.nlink = 0 then
    if ip.busy then throw .iputBusy
    else
      setInode k { ip with busy := true }
      itrunc E k
      let ip ← inode k
      setDin k { ip.din with type := 0 }
      iupdate E k
      let ip ← inode k
      setInode k { ip with busy := false, valid := false }

def iput : FsM Unit := do
  reclaim E k
  let ip ← inode k
  setInode k { ip with ref := ip.ref - 1 }

def iunlockput : FsM Unit := do
  iunlock k
  iput E k

def readLoop (k : Fin NINODE) : Nat → Nat → Nat → FsM (List UInt8)
  | 0, _, _ => return []
  | fuel + 1, off, n =>
    if n = 0 then return []
    else do
      let b ← bmap E k (off / BSIZE)
      let x ← bread b
      let m := min n (BSIZE - off % BSIZE)
      let rest ← readLoop k fuel (off + m) (n - m)
      return x.slice (off % BSIZE) m ++ rest

/-- The value returned and the bytes stored at `dst`. -/
def readi (off n : Nat) : FsM (Int × List UInt8) := do
  let ip ← inode k
  if ip.din.type = T_DEV then
    if ip.din.major < 0 ∨ (NDEV : Int) ≤ ip.din.major then return (-1, [])
    else
      match E.devRead ip.din.major with
      | none => return (-1, [])
      | some f => return f n
  else if ip.din.size < off ∨ (off + n) % 2 ^ 32 < off then return (-1, [])
  else
    let n := if ip.din.size < off + n then ip.din.size - off else n
    let l ← readLoop E k n off n
    return ((n : Int), l)

def writeLoop (k : Fin NINODE) : Nat → Nat → List UInt8 → FsM Unit
  | 0, _, _ => return ()
  | fuel + 1, off, src =>
    if src = [] then return ()
    else do
      let b ← bmap E k (off / BSIZE)
      let x ← bread b
      let m := min src.length (BSIZE - off % BSIZE)
      logWrite b (x.splice (off % BSIZE) (src.take m))
      writeLoop k fuel (off + m) (src.drop m)

/-- `n` is the length of `src`. -/
def writei (src : List UInt8) (off : Nat) : FsM Int := do
  let ip ← inode k
  let n := src.length
  if ip.din.type = T_DEV then
    if ip.din.major < 0 ∨ (NDEV : Int) ≤ ip.din.major then return -1
    else
      match E.devWrite ip.din.major with
      | none => return -1
      | some f => return f src
  else if ip.din.size < off ∨ (off + n) % 2 ^ 32 < off then return -1
  else if MAXFILE * BSIZE < off + n then return -1
  else
    writeLoop E k n off src
    let ip ← inode k
    if 0 < n ∧ ip.din.size < off + n then
      setDin k { ip.din with size := off + n }
      iupdate E k
    return (n : Int)

end Os4.Fs
