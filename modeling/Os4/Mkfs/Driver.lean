import Os4.Log.Buffers
import Os4.Mkfs.Format
/-!
# Does the disk driver take every block of a partition? (ide.c:71-98, mkfs.c:116-147)

| here | there |
| --- | --- |
| `Dpartition.blockno` | `mbr.partitions[i].offset + k`, as `readsb`, `IBLOCK`, `BBLOCK`, `bmap` and the log form it |
| `idestart`           | its test `b->blockno >= FSSIZE * 4` |

The test counts four partitions of `FSSIZE` blocks from the start of the disk. mkfs puts the MBR and
the kernel in front of them, so **`idestart_ok_iff`**: block `k` of partition `i` passes the test
exactly if it is still among the first 4000 blocks of the disk. For any kernel that leaves out at
least the last block of the last partition (`last_block_refused`).
-/
namespace Os4.Fs.Mkfs

open Log.Buffers (idestart)

variable {args : List Arg} {st : State} {mbr : Mbr} {kernel : List UInt8}

/-- The `uint` under which the kernel asks for block `k` of a partition. -/
def Dpartition.blockno (q : Dpartition) (k : Nat) : Nat := (q.offset + k) % 2 ^ 32

theorem idestart_ok {x : Log.Buf} : idestart x = .ok () ↔ x.blockno < FSSIZE * 4 := by
  unfold idestart
  split
  · simp only [reduceCtorEq, false_iff]
    omega
  · simp only [true_iff]
    omega

/-- A kernel of `n` blocks moves the partitions up by `n + 1`. -/
theorem idestart_ok_iff {stack : Stack} {bootblock : List UInt8} {i k : Nat}
    {q : Dpartition} {x : Log.Buf}
    (h : main stack (some bootblock) (some kernel) args start = .ok (mbr, st))
    (hq : mbr.partitions[i]? = some q) (hx : x.blockno = q.blockno k) :
    idestart x = .ok () ↔ (firstSector kernel + FSSIZE * i + k) % 2 ^ 32 < FSSIZE * 4 := by
  obtain ⟨-, hparts, -⟩ := main_writes h
  obtain ⟨hoff, -⟩ := hparts hq
  have hno : q.blockno k = (firstSector kernel + FSSIZE * i + k) % 2 ^ 32 := by
    unfold Dpartition.blockno
    rw [hoff]
  rw [idestart_ok, hx, hno]

/-- With an empty kernel, the first block of the first partition passes. -/
theorem idestart_ok_iff_first :
    ∃ mbr st q, main blankStack (some []) (some []) oneFile start = .ok (mbr, st) ∧
    mbr.partitions[0]? = some q ∧
    idestart ⟨0, q.blockno 0, true, false, false, fun _ => 0⟩ = .ok () := by
  obtain ⟨mbr, st, hrun, -⟩ := main_made blankStack [] [] listed_oneFile (by decide)
  obtain ⟨hlen, -, -⟩ := main_writes hrun
  obtain ⟨q, hq⟩ : ∃ q, mbr.partitions[0]? = some q :=
    ⟨_, List.getElem?_eq_getElem (by rw [hlen]; decide)⟩
  exact ⟨mbr, st, q, hrun, hq, (idestart_ok_iff hrun hq rfl).2 (by decide)⟩

/-- With an empty kernel the four partitions are the blocks 1 to 4000, and the driver panics on the
last one. -/
theorem last_block_refused :
    ∃ mbr st q, main blankStack (some []) (some []) oneFile start = .ok (mbr, st) ∧
    mbr.partitions[3]? = some q ∧ q.size = FSSIZE ∧
    idestart ⟨0, q.blockno (FSSIZE - 1), true, false, false, fun _ => 0⟩ = .error .blockno := by
  obtain ⟨mbr, st, hrun, -⟩ := main_made blankStack [] [] listed_oneFile (by decide)
  obtain ⟨hlen, hparts, -⟩ := main_writes hrun
  obtain ⟨q, hq⟩ : ∃ q, mbr.partitions[3]? = some q :=
    ⟨_, List.getElem?_eq_getElem (by rw [hlen]; decide)⟩
  obtain ⟨hoff, hsize⟩ := hparts hq
  have hno : q.blockno (FSSIZE - 1) = 4000 := by
    unfold Dpartition.blockno
    rw [hoff]
    decide
  refine ⟨mbr, st, q, hrun, hq, hsize, ?_⟩
  rw [hno]
  rfl

end Os4.Fs.Mkfs
