import Os4.Lib.Bytes
/-!
# Constants (`param.h`, `fs.h`, `mbr.h`, `mkfs.c`, `memlayout.h`, `mmu.h`)
-/
namespace Os4

/-! `param.h` -/

abbrev NINODE : Nat := 50
abbrev NFILE : Nat := 100
abbrev NOFILE : Nat := 16
abbrev NPROC : Nat := 64
abbrev NDEV : Nat := 10
abbrev MAXARG : Nat := 32
abbrev ROOTDEV : Nat := 0
abbrev MAXOPBLOCKS : Nat := 10
abbrev LOGSIZE : Nat := MAXOPBLOCKS * 3
abbrev NBUF : Nat := MAXOPBLOCKS * 3
abbrev FSSIZE : Nat := 1000
abbrev MOUNT_POINTS_SIZE : Nat := NINODE * 4

instance : NeZero NINODE := ⟨by decide⟩
instance : NeZero NFILE := ⟨by decide⟩
instance : NeZero NOFILE := ⟨by decide⟩
instance : NeZero NPROC := ⟨by decide⟩
instance : NeZero NBUF := ⟨by decide⟩

/-! `fs.h` -/

abbrev ROOTINO : Nat := 1
abbrev BSIZE : Nat := 512
abbrev NDIRECT : Nat := 12
abbrev NINDIRECT : Nat := BSIZE / 4
abbrev MAXFILE : Nat := NDIRECT + NINDIRECT
/-- Inodes per block: a `struct dinode` is 64 bytes. -/
abbrev IPB : Nat := BSIZE / 64
/-- Bitmap bits per block. -/
abbrev BPB : Nat := BSIZE * 8
abbrev DIRSIZ : Nat := 14

/-! `mbr.h`, `mkfs.c` -/

abbrev NPARTITIONS : Nat := 4
abbrev NINODES : Nat := 200

/-! `memlayout.h`, `mmu.h` -/

/-- The first kernel virtual address. -/
abbrev KERNBASE : Nat := 0x80000000
abbrev PGSIZE : Nat := 4096

/-- The contents of a disk block. -/
abbrev Block := Bytes BSIZE

/-- What the disk holds, block by block. -/
abbrev Disk := Nat → Block

end Os4
