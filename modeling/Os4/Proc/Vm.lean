import Os4.Lib.Thread
import Os4.Param
/-!
# Memory: page frames, page tables and the calls that move frames between processes

| here | there |
| --- | --- |
| `kalloc`, `kfree` | kalloc.c:82, 59 |
| `walkpgdir` … `copyout` | vm.c:45-378 |
| `exec` | exec.c:11 |
| `allocproc`, `growproc`, `fork`, `exit`, `wait`, `userinit` | proc.c:35, 106, 127, 171, 215, 79 |
| `pipealloc`, `pipeclose`, `filealloc`, `filedup`, `fileclose` | pipe.c:22, 59, file.c:27, 42, 55 |
| `sysPipe`, `sysClose`, `sysDup`, `sysOpen` | sysfile.c:433, 96, 57, 297 |

A page directory is a map (`Space`): from the index of a table to its frame, and from a virtual page
of the user part to the entry in the table. What the kernel maps above `KERNBASE` is the same
everywhere; of that only the frames of the tables are here. What the pages hold is not part of the
state, so a write through a page table is a step that changes nothing: its label says where it goes
(`Point.load`).

A step is a section under a lock, or a store to a table that other processes do not see. `kfree(v)`
and the store that clears the entry for `v` are two steps. A step that ends with `asleep` waits.
-/
namespace Os4.Vm

open Function (update)

abbrev Frame := Nat

abbrev NPTENTRIES : Nat := 1024
abbrev NPDENTRIES : Nat := 1024

/-- The frames that `kalloc` manages: those from `end` up to `PHYSTOP`. -/
structure Layout where
  first : Frame
  last : Frame
  pos : 0 < first

/-- A page directory: the frames of the tables, and the entries of the user part with `PTE_U`. -/
structure Space where
  tables : Nat → Option Frame
  ptes : Nat → Option (Frame × Bool)

inductive Status where
  | unused
  | embryo
  /-- `SLEEPING`, `RUNNABLE` or `RUNNING` -/
  | live
  | zombie
deriving DecidableEq

structure Proc where
  status : Status
  kstack : Option Frame
  pgdir : Option Frame
  sz : Nat
  parent : Option (Fin NPROC)
  ofile : Fin NOFILE → Option (Fin NFILE)

/-- `FD_NONE`, `FD_PIPE` with the pipe and `writable`, `FD_INODE`. -/
inductive FileType where
  | none
  | pipe (b : Frame) (writable : Bool)
  | inode
deriving DecidableEq

structure File where
  ref : Nat
  type : FileType
deriving DecidableEq

/-- The pipe and `writable`, if the type is `FD_PIPE`. -/
def File.pipe (x : File) : Option (Frame × Bool) :=
  match x.type with
  | .pipe b writable => some (b, writable)
  | _ => none

structure St where
  freelist : List Frame
  /-- What a frame holds while it is a page directory. -/
  dirs : Frame → Space
  kpgdir : Option Frame
  procs : Fin NPROC → Proc
  ftable : Fin NFILE → File
  /-- `readopen` and `writeopen`, as a function of `writable`, while the frame is a pipe. -/
  isopen : Frame → Bool → Bool

def St.withFree (s : St) (fl : List Frame) : St := { s with freelist := fl }

def St.withDir (s : St) (d : Frame) (S : Space) : St := { s with dirs := update s.dirs d S }

def St.withProc (s : St) (p : Fin NPROC) (x : Proc) : St := { s with procs := update s.procs p x }

def St.withFile (s : St) (f : Fin NFILE) (x : File) : St := { s with ftable := update s.ftable f x }

inductive Panic where
  | kfree | remap | clearpteu | freevm
  | loaduvmAlign | loaduvmAddr | copyuvmPte | copyuvmPage
  /-- `uva2ka` reads through a null pointer. -/
  | nullPte
  | filedup | fileclose | initExiting | noMemory
  /-- There is no such process. -/
  | disabled
  | asleep
deriving DecidableEq

/-- Who runs the code of vm.c. -/
inductive Caller where
  | exec
  | other
deriving DecidableEq

/-- What a step is, where a statement depends on it. -/
inductive Point where
  | plain
  /-- a process calls `exec` -/
  | enter
  /-- `allocuvm` allocates page `v` of `pgdir` -/
  | page (pgdir : Frame) (v : Nat)
  /-- `deallocuvm` clears the entry for page `v` of `pgdir` -/
  | clear (pgdir : Frame) (v : Nat)
  /-- `fork` or `wait` clears `q->kstack` -/
  | unstack (q : Fin NPROC)
  /-- `loaduvm`, for a segment of `filesz` bytes in the file and `memsz` in memory -/
  | segment (pgdir : Frame) (addr memsz filesz : Nat)
  /-- `readi` stores bytes from the address `addr` of `pgdir` on -/
  | load (pgdir : Frame) (addr : Nat)
  /-- `uva2ka` -/
  | uva (pgdir : Frame) (v : Nat)
  /-- `pipealloc` sets up the pipe at `b` -/
  | filled (b : Frame)
  /-- `pipeclose` frees it -/
  | freed (b : Frame)
deriving DecidableEq

abbrev VmM := Prog St Panic

abbrev Code := Thread St Panic (Caller × Point)

variable {α : Type} (L : Layout) (w : Caller)

def act (m : VmM α) : Code α := .step (w, .plain) m

/-- `PGROUNDUP(n) / PGSIZE` -/
@[irreducible] def npages (n : Nat) : Nat := (n + PGSIZE - 1) / PGSIZE

theorem npages_mono {m n : Nat} (hmn : m ≤ n) : npages m ≤ npages n := by
  simp only [npages, PGSIZE]
  omega

theorem npages_le {n : Nat} (hn : n ≤ KERNBASE) : npages n ≤ 524288 := by
  simp only [npages, KERNBASE, PGSIZE] at hn ⊢
  omega

theorem lt_npages {n a : Nat} (ha : a < n) : a / PGSIZE < npages n := by
  simp only [npages, PGSIZE]
  omega

/-! ## kalloc.c -/

def kalloc : VmM (Option Frame) := do
  let s ← get
  match s.freelist with
  | [] => return none
  | f :: fs =>
    set (s.withFree fs)
    return some f

def kfree (f : Frame) : VmM Unit := do
  if f < L.first ∨ L.last ≤ f then throw .kfree
  else modify fun s => s.withFree (f :: s.freelist)

/-! ## vm.c -/

def Space.empty : Space := ⟨fun _ => none, fun _ => none⟩

/-- The entry for page `v`, if there is a table for it. -/
def Space.page (S : Space) (v : Nat) : Option (Frame × Bool) :=
  (S.tables (v / NPTENTRIES)).bind fun _ => S.ptes v

/-- A new table, cleared. -/
def Space.withTable (S : Space) (i : Nat) (t : Frame) : Space :=
  ⟨update S.tables i (some t), fun v => if v / NPTENTRIES = i then none else S.ptes v⟩

def Space.withPte (S : Space) (v : Nat) (e : Option (Frame × Bool)) : Space :=
  { S with ptes := update S.ptes v e }

variable (d : Frame)

def dir : VmM Space := return (← get).dirs d

def setDir (S : Space) : VmM Unit := modify fun s => s.withDir d S

def newTable (i : Nat) : VmM Bool := do
  match ← kalloc with
  | none => return false
  | some t =>
    let S ← dir d
    setDir d (S.withTable i t)
    return true

/-- Is there a table for page `v` now? -/
def walkpgdir (v : Nat) (alloc : Bool) : Code Bool := do
  let S ← act w (dir d)
  if (S.tables (v / NPTENTRIES)).isSome then return true
  else if alloc then act w (newTable d (v / NPTENTRIES))
  else return false

/-- `if(*pte & PTE_P) panic("remap"); *pte = ..` -/
def putPte (v : Nat) (f : Frame) (u : Bool) : VmM Unit := do
  let S ← dir d
  if (S.ptes v).isSome then throw .remap else setDir d (S.withPte v (some (f, u)))

/-- One page. -/
def mappages (v : Nat) (f : Frame) (u : Bool) : Code Bool := do
  if ← walkpgdir w d v true then
    act w (putPte d v f u)
    return true
  else return false

/-- The tables for `kmap`: the first `PHYSTOP` bytes at `KERNBASE`, and `DEVSPACE`. -/
def kernelTables : List Nat := List.range' 512 56 ++ List.range' 1016 8

def mapKernel (d : Frame) : List Nat → Code Bool
  | [] => return true
  | i :: is => do
    if ← walkpgdir w d (i * NPTENTRIES) true then mapKernel d is else return false

def newDir : VmM (Option Frame) := do
  match ← kalloc with
  | none => return none
  | some d =>
    setDir d .empty
    return some d

def setupkvm : Code (Option Frame) := do
  match ← act w newDir with
  | none => return none
  | some d => if ← mapKernel w d kernelTables then return some d else return none

def pte (v : Nat) : VmM (Option (Frame × Bool)) := return ((← get).dirs d).ptes v

/-- `*pte = 0` -/
def clearPte (v : Nat) : VmM Unit := do
  let S ← dir d
  setDir d (S.withPte v none)

/-- `kfree(v); *pte = 0;` -/
def freePage (v : Nat) (f : Frame) : Code Unit := do
  act w (kfree L f)
  .step (w, .clear d v) (clearPte d v)

def deallocLoop (d : Frame) (last : Nat) : Nat → Nat → Code Unit
  | 0, _ => return ()
  | fuel + 1, v =>
    if v < last then do
      if ← walkpgdir w d v false then
        match ← act w (pte d v) with
        | none => deallocLoop d last fuel (v + 1)
        | some (f, _) =>
          freePage L w d v f
          deallocLoop d last fuel (v + 1)
      else deallocLoop d last fuel (v + NPTENTRIES)
    else return ()

def deallocuvm (oldsz newsz : Nat) : Code Nat :=
  if oldsz ≤ newsz then return oldsz
  else do
    deallocLoop L w d (npages oldsz) (npages oldsz - npages newsz) (npages newsz)
    return newsz

def allocLoop (d : Frame) (oldsz newsz : Nat) : List Nat → Code Nat
  | [] => return newsz
  | v :: vs => do
    match ← .step (w, .page d v) kalloc with
    | none =>
      let _ ← deallocuvm L w d newsz oldsz
      return 0
    | some f =>
      let _ ← mappages w d v f true
      allocLoop d oldsz newsz vs

@[irreducible] def allocuvm (oldsz newsz : Nat) : Code Nat :=
  if KERNBASE ≤ newsz then return 0
  else if newsz < oldsz then return oldsz
  else allocLoop L w d oldsz newsz (List.range' (npages oldsz) (npages newsz - npages oldsz))

def freeTables (d : Frame) : List Nat → Code Unit
  | [] => return ()
  | i :: is => do
    let S ← act w (dir d)
    match S.tables i with
    | none => freeTables d is
    | some t =>
      act w (kfree L t)
      freeTables d is

def freevm : Option Frame → Code Unit
  | none => act w (throw .freevm)
  | some d => do
    let _ ← deallocuvm L w d KERNBASE 0
    freeTables L w d (List.range NPDENTRIES)
    act w (kfree L d)

/-- `*pte &= ~PTE_U` -/
def hidePte (v : Nat) : VmM Unit := do
  let S ← dir d
  setDir d (S.withPte v ((S.ptes v).map fun e => (e.1, false)))

def clearpteu (v : Nat) : Code Unit := do
  if ← walkpgdir w d v false then act w (hidePte d v) else act w (throw .clearpteu)

def copyLoop (d src : Frame) : List Nat → Code (Option Frame)
  | [] => return some d
  | v :: vs => do
    if ← walkpgdir w src v false then
      match ← act w (pte src v) with
      | none => act w (throw .copyuvmPage)
      | some (_, u) =>
        match ← act w kalloc with
        | none =>
          freevm L w (some d)
          return none
        | some f =>
          if ← mappages w d v f u then copyLoop d src vs
          else
            freevm L w (some d)
            return none
    else act w (throw .copyuvmPte)

def copyuvm (src : Frame) (sz : Nat) : Code (Option Frame) := do
  match ← setupkvm w with
  | none => return none
  | some d => copyLoop L w d src (List.range (npages sz))

/-- Is there a kernel address for page `v`? `null` is what the word at address 0 says when it is
taken for an entry: whether it has `PTE_P` and `PTE_U`; `none` if it cannot be read. -/
def uva2ka (v : Nat) (null : Option Bool) : VmM Bool := do
  let S ← dir d
  if (S.tables (v / NPTENTRIES)).isSome then
    match S.ptes v with
    | some (_, u) => return u
    | none => return false
  else
    match null with
    | some b => return b
    | none => throw .nullPte

def copyoutLoop (d : Frame) (null : Option Bool) : Nat → Nat → Nat → Code Bool
  | 0, _, _ => return true
  | fuel + 1, va, len =>
    if len = 0 then return true
    else do
      if ← .step (w, .uva d (va / PGSIZE)) (uva2ka d (va / PGSIZE) null) then
        copyoutLoop d null fuel ((va / PGSIZE * PGSIZE + PGSIZE) % 2 ^ 32)
          (len - min (PGSIZE - va % PGSIZE) len)
      else return false

def copyout (va len : Nat) (null : Option Bool) : Code Bool := copyoutLoop w d null len va len

/-! ## exec.c -/

/-- The executable: no file is larger than `MAXFILE` blocks. -/
structure Image where
  bytes : List UInt8
  small : bytes.length ≤ MAXFILE * BSIZE
deriving DecidableEq

def Image.readi (x : Image) (off n : Nat) : Int × List UInt8 :=
  if x.bytes.length < off ∨ (off + n) % 2 ^ 32 < off then (-1, [])
  else
    let n := min n (x.bytes.length - off)
    ((n : Int), (x.bytes.drop off).take n)

/-- Little-endian. -/
def word (l : List UInt8) (off n : Nat) : Nat :=
  ((List.range n).map fun i => (l.getD (off + i) 0).toNat * 256 ^ i).sum

abbrev ELF_MAGIC : Nat := 0x464C457F
abbrev ELF_PROG_LOAD : Nat := 1

def loadLoop (d : Frame) (addr : Nat) (x : Image) (offset sz : Nat) : Nat → Nat → Code Bool
  | 0, _ => return true
  | fuel + 1, i =>
    if i < sz then do
      if ← walkpgdir w d ((addr + i) % 2 ^ 32 / PGSIZE) false then
        let n := min (sz - i) PGSIZE
        let (r, l) := x.readi ((offset + i) % 2 ^ 32) n
        if l ≠ [] then .step (w, .load d ((addr + i) % 2 ^ 32)) (pure ())
        if r ≠ (n : Int) then return false
        else loadLoop d addr x offset sz fuel (i + PGSIZE)
      else act w (throw .loaduvmAddr)
    else return true

def checkAlign (addr : Nat) : VmM Unit :=
  if addr % PGSIZE ≠ 0 then throw .loaduvmAlign else return ()

/-- `memsz` is for the label only. -/
def loaduvm (addr memsz : Nat) (x : Image) (offset sz : Nat) : Code Bool := do
  .step (w, .segment d addr memsz sz) (checkAlign addr)
  loadLoop w d addr x offset sz (npages sz) 0

/-- The loop over the program headers; none if it goes to `bad`. -/
def loadSegments (d : Frame) (x : Image) : Nat → Nat → Nat → Code (Option Nat)
  | 0, _, sz => return some sz
  | n + 1, off, sz => do
    let (r, ph) := x.readi off 32
    if r ≠ 32 then return none
    else if word ph 0 4 ≠ ELF_PROG_LOAD then loadSegments d x n ((off + 32) % 2 ^ 32) sz
    else if word ph 20 4 < word ph 16 4 then return none
    else
      let sz' ← allocuvm L w d sz ((word ph 8 4 + word ph 20 4) % 2 ^ 32)
      if sz' = 0 then return none
      else if ← loaduvm w d (word ph 8 4) (word ph 20 4) x (word ph 4 4) (word ph 16 4) then
        loadSegments d x n ((off + 32) % 2 ^ 32) sz'
      else return none

/-- `sp` when the strings are on the stack, and their number; `lens` are their lengths. -/
def pushArgs (d : Frame) (null : Option Bool) : List Nat → Nat → Nat → Code (Option (Nat × Nat))
  | [], argc, sp => return some (argc, sp)
  | len :: lens, argc, sp =>
    if MAXARG ≤ argc then return none
    else do
      let sp := (sp + 2 ^ 32 - (len + 1) % 2 ^ 32) % 2 ^ 32 / 4 * 4
      if ← copyout w d sp (len + 1) null then pushArgs d null lens (argc + 1) sp else return none

/-- `PGROUNDUP(n)` -/
@[irreducible] def pgroundup (n : Nat) : Nat := npages n * PGSIZE

/-- Two pages at `sz`, the second for the stack, and the arguments on it. -/
def pushStack (sz : Nat) (lens : List Nat) (null : Option Bool) : Code (Option Nat) := do
  let sz ← allocuvm L w d sz (sz + 2 * PGSIZE)
  if sz = 0 then return none
  else
    clearpteu w d ((sz - 2 * PGSIZE) / PGSIZE)
    match ← pushArgs w d null lens 0 sz with
    | none => return none
    | some (argc, sp) =>
      let sp := (sp + 2 ^ 32 - (3 + argc + 1) * 4) % 2 ^ 32
      if ← copyout w d sp ((3 + argc + 1) * 4) null then return some sz else return none

/-- The new image: its size, or none if it goes to `bad`. -/
def build (x : Image) (hdr : List UInt8) (lens : List Nat) (null : Option Bool) :
    Code (Option Nat) := do
  match ← loadSegments L w d x (word hdr 44 2) (word hdr 28 4) 0 with
  | none => return none
  | some sz => pushStack L w d (pgroundup sz) lens null

variable (p : Fin NPROC)

def proc : VmM Proc := do
  let x := (← get).procs p
  if x.status = .live then return x else throw .disabled

def setProc (x : Proc) : VmM Unit := modify fun s => s.withProc p x

/-- `oldpgdir = proc->pgdir; proc->pgdir = pgdir; proc->sz = sz` -/
def commit (d : Frame) (sz : Nat) : VmM (Option Frame) := do
  let x ← proc p
  setProc p { x with pgdir := some d, sz }
  return x.pgdir

/-- `file`: what `namei` finds. `lens`: the lengths of the arguments. -/
def exec (file : Option Image) (lens : List Nat) (null : Option Bool) : Code Int := do
  let _ ← .step (.exec, .enter) (proc p)
  match file with
  | none => return -1
  | some x =>
    let (r, hdr) := x.readi 0 52
    if 0 ≤ r ∧ r < 52 then return -1
    else if word hdr 0 4 ≠ ELF_MAGIC then return -1
    else
      match ← setupkvm .exec with
      | none => return -1
      | some d =>
        match ← build L .exec d x hdr lens null with
        | none =>
          freevm L .exec (some d)
          return -1
        | some sz =>
          let old ← act .exec (commit p d sz)
          freevm L .exec old
          return 0

/-! ## file.c and pipe.c -/

variable (f : Fin NFILE)

def file : VmM File := return (← get).ftable f

def setFile (x : File) : VmM Unit := modify fun s => s.withFile f x

def filealloc : VmM (Option (Fin NFILE)) := do
  let s ← get
  match (List.finRange NFILE).find? fun f => (s.ftable f).ref == 0 with
  | none => return none
  | some f =>
    setFile f { s.ftable f with ref := 1 }
    return some f

def filedup : VmM Unit := do
  let x ← file f
  if x.ref < 1 then throw .filedup else setFile f { x with ref := x.ref + 1 }

/-- One reference less; the end of a pipe to close, if it was the last. -/
def closeFile : VmM (Option (Frame × Bool)) := do
  let x ← file f
  if x.ref < 1 then throw .fileclose
  else if 0 < x.ref - 1 then
    setFile f { x with ref := x.ref - 1 }
    return none
  else
    setFile f ⟨0, .none⟩
    return x.pipe

/-- Is the pipe to be freed? -/
def closeEnd (b : Frame) (writable : Bool) : VmM Bool := do
  modify fun s => { s with isopen := update s.isopen b (update (s.isopen b) writable false) }
  let s ← get
  return !s.isopen b false && !s.isopen b true

def pipeclose (b : Frame) (writable : Bool) : Code Unit := do
  if ← act .other (closeEnd b writable) then .step (.other, .freed b) (kfree L b)

def fileclose : Code Unit := do
  match ← act .other (closeFile f) with
  | some (b, writable) => pipeclose L b writable
  | none => return ()

/-- `p->readopen = 1; .. (*f0)->type = FD_PIPE; ..` -/
def fillPipe (f0 f1 : Fin NFILE) (b : Frame) : VmM Unit := do
  modify fun s => { s with isopen := update s.isopen b fun _ => true }
  let x ← file f0
  setFile f0 { x with type := .pipe b false }
  let y ← file f1
  setFile f1 { y with type := .pipe b true }

def pipealloc : Code (Option (Fin NFILE × Fin NFILE)) := do
  match ← act .other filealloc with
  | none => return none
  | some f0 =>
    match ← act .other filealloc with
    | none =>
      fileclose L f0
      return none
    | some f1 =>
      match ← act .other kalloc with
      | none =>
        fileclose L f0
        fileclose L f1
        return none
      | some b =>
        .step (.other, .filled b) (fillPipe f0 f1 b)
        return some (f0, f1)

def fdalloc : VmM (Option (Fin NOFILE)) := do
  let x ← proc p
  match (List.finRange NOFILE).find? fun fd => (x.ofile fd).isNone with
  | none => return none
  | some fd =>
    setProc p { x with ofile := update x.ofile fd (some f) }
    return some fd

/-- `proc->ofile[fd] = 0` -/
def clearFd (fd : Fin NOFILE) : VmM Unit := do
  let x ← proc p
  setProc p { x with ofile := update x.ofile fd none }

def sysPipe : Code Int := do
  let _ ← act .other (proc p)
  match ← pipealloc L with
  | none => return -1
  | some (rf, wf) =>
    match ← act .other (fdalloc p rf) with
    | none =>
      fileclose L rf
      fileclose L wf
      return -1
    | some fd0 =>
      match ← act .other (fdalloc p wf) with
      | none =>
        act .other (clearFd p fd0)
        fileclose L rf
        fileclose L wf
        return -1
      | some _ => return 0

def sysClose (fd : Fin NOFILE) : Code Int := do
  let x ← act .other (proc p)
  match x.ofile fd with
  | none => return -1
  | some f =>
    act .other (clearFd p fd)
    fileclose L f
    return 0

def sysDup (fd : Fin NOFILE) : Code Int := do
  let x ← act .other (proc p)
  match x.ofile fd with
  | none => return -1
  | some f =>
    match ← act .other (fdalloc p f) with
    | none => return -1
    | some fd =>
      act .other (filedup f)
      return (fd.1 : Int)

/-- `f->type = FD_INODE` -/
def fillInode : VmM Unit := do
  let x ← file f
  setFile f { x with type := .inode }

/-- `found`: `create` or `namei` finds an inode that may be opened. What becomes of the inode is not
here. -/
def sysOpen (found : Bool) : Code Int := do
  let _ ← act .other (proc p)
  if found then
    match ← act .other filealloc with
    | none => return -1
    | some f =>
      match ← act .other (fdalloc p f) with
      | none =>
        fileclose L f
        return -1
      | some fd =>
        act .other (fillInode f)
        return (fd.1 : Int)
  else return -1

/-! ## proc.c -/

def findUnused (s : St) : Option (Fin NPROC) :=
  (List.finRange NPROC).find? fun q => (s.procs q).status == .unused

/-- The part of `allocproc` under `ptable.lock`. -/
def takeProc : VmM (Option (Fin NPROC)) := do
  let s ← get
  match findUnused s with
  | none => return none
  | some q =>
    setProc q { s.procs q with status := .embryo }
    return some q

variable (q : Fin NPROC)

/-- `p->kstack = kalloc()`, or `p->state = UNUSED`. -/
def newStack : VmM Bool := do
  let f ← kalloc
  let x := (← get).procs q
  match f with
  | none =>
    setProc q { x with kstack := none, status := .unused }
    return false
  | some f =>
    setProc q { x with kstack := some f }
    return true

def allocproc : Code (Option (Fin NPROC)) := do
  match ← act .other takeProc with
  | none => return none
  | some q => if ← act .other (newStack q) then return some q else return none

def kstackOf : VmM (Option Frame) := return ((← get).procs q).kstack

/-- `kfree(p->kstack)` -/
def freeStack : VmM Unit := do
  match ← kstackOf q with
  | none => throw .kfree
  | some f => kfree L f

/-- `p->kstack = 0` -/
def clearStack : VmM Unit := do
  let x := (← get).procs q
  setProc q { x with kstack := none }

/-- `kfree(np->kstack); np->kstack = 0;` -/
def dropStack : Code Unit := do
  act .other (freeStack L q)
  .step (.other, .unstack q) (clearStack q)

/-- `np->pgdir = 0; .. np->state = UNUSED` -/
def dropProc : VmM Unit := do
  let x := (← get).procs q
  setProc q { x with pgdir := none, status := .unused }

/-- `np->pgdir = ..; np->sz = ..; .. np->state = RUNNABLE`. `fork` copies the descriptors that are
not null; the others are null in the child too, since `exit` has closed all those of the process
that had the slot before. -/
def startProc (d : Frame) (sz : Nat) (parent : Option (Fin NPROC))
    (ofile : Fin NOFILE → Option (Fin NFILE)) :
    VmM Unit := do
  let x := (← get).procs q
  setProc q { x with status := .live, pgdir := some d, sz, parent, ofile }

/-- `proc->sz = sz` -/
def setSize (sz : Nat) : VmM Unit := do
  let x ← proc p
  setProc p { x with sz }

def growproc (n : Int) : Code Int := do
  let x ← act .other (proc p)
  match x.pgdir with
  | none => act .other (throw .disabled)
  | some d =>
    let newsz := ((x.sz + n) % 2 ^ 32).toNat
    if 0 < n then
      let sz ← allocuvm L .other d x.sz newsz
      if sz = 0 then return -1
      else
        act .other (setSize p sz)
        return 0
    else if n < 0 then
      let sz ← deallocuvm L .other d x.sz newsz
      if sz = 0 then return -1
      else
        act .other (setSize p sz)
        return 0
    else
      act .other (setSize p x.sz)
      return 0

def dupFiles (x : Proc) : List (Fin NOFILE) → Code Unit
  | [] => return ()
  | fd :: fds => do
    match x.ofile fd with
    | none => dupFiles x fds
    | some f =>
      act .other (filedup f)
      dupFiles x fds

def fork : Code Int := do
  let x ← act .other (proc p)
  match x.pgdir with
  | none => act .other (throw .disabled)
  | some src =>
    match ← allocproc with
    | none => return -1
    | some q =>
      match ← copyuvm L .other src x.sz with
      | none =>
        dropStack L q
        act .other (dropProc q)
        return -1
      | some d =>
        dupFiles x (List.finRange NOFILE)
        act .other (startProc q d x.sz (some p) x.ofile)
        return (q.1 : Int)

def closeFiles (p : Fin NPROC) : List (Fin NOFILE) → Code Unit
  | [] => return ()
  | fd :: fds => do
    let x ← act .other (proc p)
    match x.ofile fd with
    | none => closeFiles p fds
    | some f =>
      fileclose L f
      act .other (clearFd p fd)
      closeFiles p fds

/-- The part of `exit` under `ptable.lock`. Process 0 is `initproc`. -/
def endProc : VmM Unit := do
  let _ ← proc p
  modify fun s => { s with
    procs := fun q =>
      if (s.procs q).parent = some p then { s.procs q with parent := some 0 }
      else s.procs q }
  modify fun s => s.withProc p { s.procs p with status := .zombie }

def exit : Code Int := do
  let _ ← act .other (proc p)
  if p = 0 then act .other (throw .initExiting)
  else
    closeFiles L p (List.finRange NOFILE)
    act .other (endProc p)
    return 0

/-- A child that has exited; none if there is none to wait for. -/
def findZombie (killed : Bool) : VmM (Option (Fin NPROC)) := do
  let _ ← proc p
  let s ← get
  match (List.finRange NPROC).find? fun q =>
    (s.procs q).parent == some p && (s.procs q).status == .zombie with
  | some q => return some q
  | none =>
    if killed || (List.finRange NPROC).all fun q => (s.procs q).parent != some p then return none
    else throw .asleep

/-- `p->state = UNUSED; p->parent = 0; ..` -/
def reapProc : VmM Unit := do
  let x := (← get).procs q
  setProc q { x with status := .unused, parent := none }

def pgdirOf : VmM (Option Frame) := return ((← get).procs q).pgdir

/-- `killed`: the flag of the process when it does not find a child. -/
def wait (killed : Bool) : Code Int := do
  match ← act .other (findZombie p killed) with
  | none => return -1
  | some q =>
    dropStack L q
    let d ← act .other (pgdirOf q)
    freevm L .other d
    act .other (reapProc q)
    return (q.1 : Int)

/-! ## Runs -/

def setKpgdir : VmM Unit := modify fun s => { s with kpgdir := some d }

def unbooted : VmM Unit := do
  if (← get).kpgdir.isSome then throw .disabled else return ()

/-- `kvmalloc`, and `userinit` with its `inituvm`. -/
def boot : Code Int := do
  act .other unbooted
  match ← setupkvm .other with
  | none => act .other (throw .noMemory)
  | some k =>
    act .other (setKpgdir k)
    match ← allocproc with
    | none => act .other (throw .noMemory)
    | some q =>
      match ← setupkvm .other with
      | none => act .other (throw .noMemory)
      | some d =>
        match ← act .other kalloc with
        | none => act .other (throw .noMemory)
        | some f =>
          let _ ← mappages .other d 0 f true
          act .other (startProc q d PGSIZE none fun _ => none)
          return 0

inductive Job where
  | boot
  | fork (p : Fin NPROC)
  | exec (p : Fin NPROC) (file : Option Image) (lens : List Nat) (null : Option Bool)
  | sbrk (p : Fin NPROC) (n : Int)
  | pipe (p : Fin NPROC)
  | close (p : Fin NPROC) (fd : Fin NOFILE)
  | dup (p : Fin NPROC) (fd : Fin NOFILE)
  | openFile (p : Fin NPROC) (found : Bool)
  | exit (p : Fin NPROC)
  | wait (p : Fin NPROC) (killed : Bool)
deriving DecidableEq

def Job.proc : Job → Fin NPROC
  | .boot => 0
  | .fork p | .exec p .. | .sbrk p .. | .pipe p | .close p .. | .dup p .. | .openFile p ..
      | .exit p | .wait p .. => p

def Job.code : Job → Code Int
  | .boot => Vm.boot
  | .fork p => Vm.fork L p
  | .exec p file lens null => Vm.exec L p file lens null
  | .sbrk p n => Vm.growproc L p n
  | .pipe p => Vm.sysPipe L p
  | .close p fd => Vm.sysClose L p fd
  | .dup p fd => Vm.sysDup p fd
  | .openFile p found => Vm.sysOpen L p found
  | .exit p => Vm.exit L p
  | .wait p killed => Vm.wait L p killed

/-- Every process makes one call after another. -/
def machine : Machine (Fin NPROC) Job St Panic (Caller × Point) Int where
  owner := Job.proc
  body := Job.code L

abbrev System := Pool (Fin NPROC) Job St Panic (Caller × Point) Int

end Os4.Vm
