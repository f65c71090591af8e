import Os4.Param
/-!
# On-disk formats (fs.h) and the layout mkfs writes

| here | there |
| --- | --- |
| `Superblock`, `getSuperblock` | `struct superblock` (fs.h:16), seven `uint`s at the head of a block |
| `Dinode`, `getDinode`, `putDinode` | `struct dinode` (fs.h:31), eight to a block |
| `Dirent`, `getDirent`, `direntBytes` | `struct dirent` (fs.h:55), 16 bytes |
| `Mkfs.superblock` | `init_partition` (mkfs.c:344-407), with the offsets relative to the partition |

Block numbers and sizes are naturals (`uint`s that do not overflow on a disk mkfs can make); the
`short` fields of an inode are integers stored in two's complement.
-/
namespace Os4.Fs

open Bytes (natLe signed getLE_lt leNat unsigned getLE leNat_natLe)

abbrev T_DIR : Int := 1
abbrev T_FILE : Int := 2
abbrev T_DEV : Int := 3

/-! ## Superblock -/

structure Superblock where
  size : Nat
  nblocks : Nat
  ninodes : Nat
  nlog : Nat
  logstart : Nat
  inodestart : Nat
  bmapstart : Nat
deriving DecidableEq

def getSuperblock (x : Block) : Superblock :=
  ⟨x.getLE 0 4, x.getLE 4 4, x.getLE 8 4, x.getLE 12 4, x.getLE 16 4, x.getLE 20 4, x.getLE 24 4⟩

/-- `memset(buf, 0, sizeof(buf)); memmove(buf, &sb, sizeof(sb))` (mkfs.c:397-401). -/
def superblockBlock (sb : Superblock) : Block :=
  ((((((Bytes.zero.putLE 0 4 sb.size).putLE 4 4 sb.nblocks).putLE 8 4 sb.ninodes).putLE
    12 4 sb.nlog).putLE 16 4 sb.logstart).putLE 20 4 sb.inodestart).putLE 24 4 sb.bmapstart

/-! ## Inodes -/

structure Dinode where
  type : Int
  major : Int
  minor : Int
  nlink : Int
  size : Nat
  addrs : Fin (NDIRECT + 1) → Nat

@[ext] theorem Dinode.ext' {a b : Dinode} (ht : a.type = b.type) (hM : a.major = b.major)
    (hm : a.minor = b.minor)
    (hl : a.nlink = b.nlink) (hs : a.size = b.size) (ha : ∀ j, a.addrs j = b.addrs j) : a = b := by
  cases a; cases b
  simp only [Dinode.mk.injEq] at *
  exact ⟨ht, hM, hm, hl, hs, funext ha⟩

/-- `addrs[j] = a` -/
def Dinode.setAddr (d : Dinode) (j : Fin (NDIRECT + 1)) (a : Nat) : Dinode :=
  { d with addrs := Function.update d.addrs j a }

@[simp] theorem Dinode.setAddr_type (d : Dinode) (j : Fin (NDIRECT + 1)) (a : Nat) :
    (d.setAddr j a).type = d.type := rfl

@[simp] theorem Dinode.setAddr_size (d : Dinode) (j : Fin (NDIRECT + 1)) (a : Nat) :
    (d.setAddr j a).size = d.size := rfl

@[simp] theorem Dinode.setAddr_addrs (d : Dinode) (j : Fin (NDIRECT + 1)) (a : Nat) :
    (d.setAddr j a).addrs = Function.update d.addrs j a := rfl

/-- `(short) i` -/
def toShort (i : Int) : Int := Bytes.signed 2 (Bytes.unsigned 2 i)

/-- The fields have values of their C types. -/
structure Dinode.InRange (d : Dinode) : Prop where
  type : toShort d.type = d.type
  major : toShort d.major = d.major
  minor : toShort d.minor = d.minor
  nlink : toShort d.nlink = d.nlink
  size : d.size < 2 ^ 32
  addrs : ∀ j, d.addrs j < 2 ^ 32

/-- `(struct dinode*)bp->data + k` -/
def getDinode (x : Block) (k : Nat) : Dinode where
  type := Bytes.signed 2 (x.getLE (64 * k) 2)
  major := Bytes.signed 2 (x.getLE (64 * k + 2) 2)
  minor := Bytes.signed 2 (x.getLE (64 * k + 4) 2)
  nlink := Bytes.signed 2 (x.getLE (64 * k + 6) 2)
  size := x.getLE (64 * k + 8) 4
  addrs := fun j => x.getLE (64 * k + 12 + 4 * j.1) 4

/-- The bytes of an inode. -/
def dinodeBytes (d : Dinode) : List UInt8 :=
  Bytes.natLe 2 (Bytes.unsigned 2 d.type) ++ Bytes.natLe 2 (Bytes.unsigned 2 d.major) ++
    Bytes.natLe 2 (Bytes.unsigned 2 d.minor) ++ Bytes.natLe 2 (Bytes.unsigned 2 d.nlink) ++
    Bytes.natLe 4 d.size ++ (List.finRange (NDIRECT + 1)).flatMap fun j => Bytes.natLe 4 (d.addrs j)

/-- Store all fields of inode `k` of a block. -/
def putDinode (x : Block) (k : Nat) (d : Dinode) : Block := x.splice (64 * k) (dinodeBytes d)

theorem take_drop_flatMap {α : Type} {f : α → List UInt8} {w : Nat} (hf : ∀ a, (f a).length = w) :
    ∀ (l : List α) (j : Nat) (hj : j < l.length), ((l.flatMap f).drop (w * j)).take w = f l[j]
  | [], j, hj => absurd hj (by simp)
  | a :: l, 0, _ => by
    rw [Nat.mul_zero, List.drop_zero, List.flatMap_cons,
      List.take_append_of_le_length (by rw [hf]), ← hf a, List.take_length]
    rfl
  | a :: l, j + 1, hj => by
    rw [List.flatMap_cons, Nat.mul_succ, Nat.add_comm, ← List.drop_drop, ← hf a,
      List.drop_left, hf a, take_drop_flatMap hf l j (by simpa using hj)]
    rfl

theorem length_dinodeBytes (d : Dinode) : (dinodeBytes d).length = 64 := by
  simp only [dinodeBytes, List.length_append, Bytes.length_natLe, List.length_flatMap]
  rfl

theorem toShort_signed {n : Nat} (h : n < 256 ^ 2) : toShort (signed 2 n) = signed 2 n := by
  have hn : unsigned 2 (signed 2 n) = n := by
    unfold unsigned signed
    split <;> omega
  rw [toShort, hn]

theorem toShort_toShort (i : Int) : toShort (toShort i) = toShort i :=
  toShort_signed (Bytes.unsigned_lt 2 i)

theorem inRange_getDinode (x : Block) (k : Nat) : (getDinode x k).InRange where
  type := toShort_signed (getLE_lt _ _ _)
  major := toShort_signed (getLE_lt _ _ _)
  minor := toShort_signed (getLE_lt _ _ _)
  nlink := toShort_signed (getLE_lt _ _ _)
  size := getLE_lt _ _ _
  addrs _ := getLE_lt _ _ _

theorem signed_natLe {i : Int} (h : toShort i = i) :
    signed 2 (leNat (natLe 2 (unsigned 2 i))) = i := by
  rw [leNat_natLe, Nat.mod_eq_of_lt (Bytes.unsigned_lt 2 i)]
  exact h

theorem getLE_putDinode (x : Block) {k o w : Nat} (d : Dinode) (hk : k < IPB) (ho : o + w ≤ 64) :
    (putDinode x k d).getLE (64 * k + o) w = leNat (((dinodeBytes d).drop o).take w) := by
  have hN : 64 * k + (dinodeBytes d).length ≤ BSIZE := by
    rw [length_dinodeBytes]; simp only [IPB, BSIZE] at *; omega
  rw [putDinode, getLE, Bytes.slice_splice_inside x (by omega)
    (by rw [length_dinodeBytes]; omega) hN]
  congr 3
  omega

theorem getDinode_putDinode_same (x : Block) {k : Nat} {d : Dinode} (hk : k < IPB)
    (hd : d.InRange) :
    getDinode (putDinode x k d) k = d := by
  have hf := fun o w ho => getLE_putDinode x (o := o) (w := w) d hk ho
  have h0 := hf 0 2 (by omega)
  rw [Nat.add_zero] at h0
  apply Dinode.ext'
  · simp only [getDinode, h0]
    simpa [dinodeBytes, natLe] using signed_natLe hd.type
  · simp only [getDinode, hf 2 2 (by omega)]
    simpa [dinodeBytes, natLe] using signed_natLe hd.major
  · simp only [getDinode, hf 4 2 (by omega)]
    simpa [dinodeBytes, natLe] using signed_natLe hd.minor
  · simp only [getDinode, hf 6 2 (by omega)]
    simpa [dinodeBytes, natLe] using signed_natLe hd.nlink
  · simp only [getDinode, hf 8 4 (by omega)]
    have : leNat (natLe 4 d.size) = d.size := by
      rw [leNat_natLe]; exact Nat.mod_eq_of_lt hd.size
    simpa [dinodeBytes, natLe] using this
  · intro j
    have hj : j.1 < 13 := j.2
    have hfield : (putDinode x k d).getLE (64 * k + 12 + 4 * j.1) 4 =
        leNat (((dinodeBytes d).drop (12 + 4 * j.1)).take 4) := by
      rw [Nat.add_assoc]; exact hf (12 + 4 * j.1) 4 (by omega)
    have hdrop : (dinodeBytes d).drop 12 = (List.finRange (NDIRECT + 1)).flatMap fun j =>
        natLe 4 (d.addrs j) :=
      List.drop_left' (by simp)
    simp only [getDinode, hfield]
    rw [← List.drop_drop, hdrop,
      take_drop_flatMap (by simp) _ _ (by rw [List.length_finRange]; exact j.2), leNat_natLe]
    simpa using Nat.mod_eq_of_lt (hd.addrs j)

theorem getDinode_putDinode_ne (x : Block) {k k' : Nat} (d : Dinode) (hk : k' ≠ k) :
    getDinode (putDinode x k d) k' = getDinode x k' := by
  have hf : ∀ o w, o + w ≤ 64 → (putDinode x k d).getLE (64 * k' + o) w =
      x.getLE (64 * k' + o) w := by
    intro o w ho
    rw [getLE, getLE, putDinode,
      Bytes.slice_splice_of_disjoint x (by rw [length_dinodeBytes]; omega)]
  have h0 := hf 0 2 (by omega)
  rw [Nat.add_zero] at h0
  apply Dinode.ext'
  · simp only [getDinode, h0]
  · simp only [getDinode, hf 2 2 (by omega)]
  · simp only [getDinode, hf 4 2 (by omega)]
  · simp only [getDinode, hf 6 2 (by omega)]
  · simp only [getDinode, hf 8 4 (by omega)]
  · intro j
    have hj : j.1 < 13 := j.2
    simp only [getDinode]
    rw [Nat.add_assoc]
    exact hf (12 + 4 * j.1) 4 (by omega)

/-! ## Directory entries -/

structure Dirent where
  inum : Nat
  /-- `DIRSIZ` bytes, zero-padded or cut -/
  name : List UInt8
deriving DecidableEq

def getDirent (l : List UInt8) : Dirent := ⟨Bytes.leNat (l.take 2), (l.drop 2).take DIRSIZ⟩

def direntBytes (de : Dirent) : List UInt8 := Bytes.natLe 2 de.inum ++ de.name

/-! ## mkfs -/

namespace Mkfs

abbrev nbitmap : Nat := FSSIZE / (BSIZE * 8) + 1
abbrev ninodeblocks : Nat := NINODES / IPB + 1
abbrev nlog : Nat := LOGSIZE
abbrev nmeta : Nat := 1 + nlog + ninodeblocks + nbitmap

/-- The superblock of a partition of `FSSIZE` blocks. -/
def superblock : Superblock where
  size := FSSIZE
  nblocks := FSSIZE - nmeta
  ninodes := NINODES
  nlog := nlog
  logstart := 1
  inodestart := 1 + nlog
  bmapstart := 1 + nlog + ninodeblocks

end Mkfs

end Os4.Fs
