import Os4.Lib.Alone
import Os4.Proc.Vm
/-!
# User memory, page by page

| here | there |
| --- | --- |
| `kalloc`, `kfree` | kalloc.c:82, 59 |
| `walkpgdir`, `mappages`, `setupkvm` | vm.c:45, 70, 128 |
| `allocuvm`, `deallocuvm`, `freevm`, `clearpteu` | vm.c:219, 250, 278, 297 |
| `copyuvm`, `uva2ka`, `copyout`, `loaduvm` | vm.c:310, 341, 359, 198 |
| `exec` | exec.c:11 |
| `allocproc`, `growproc`, `fork` | proc.c:35, 106, 127 |

The calls of `Vm` again, now with what the pages hold and with `PTE_W`, for one process that runs
alone. The other processes are there only in `plan`: they take and return frames, so that a call of
`kalloc` may find the list empty when it is not empty before and after. A step is labelled with what
it asks `kalloc` for.

As in `Vm` a page directory is a map, of the part above `KERNBASE` only the frames of the tables are
here, and the trap frame is its `eip` and `esp`. A store that goes elsewhere than to a user page or
to page 0 ends the run (`Panic.stray`).
-/
namespace Os4.Uvm

open Function (update)
open Vm (Frame Layout Proc Status File Image npages pgroundup word NPTENTRIES NPDENTRIES
    kernelTables ELF_MAGIC ELF_PROG_LOAD)

abbrev Page := Bytes PGSIZE

/-- The pages below `KERNBASE`. -/
abbrev USERPAGES : Nat := KERNBASE / PGSIZE

/-- A page-table entry with `PTE_P`. -/
structure Pte where
  frame : Frame
  /-- `PTE_W` -/
  w : Bool
  /-- `PTE_U` -/
  u : Bool
deriving DecidableEq

/-- A page directory: the frames of the tables, and the entries of the user part. -/
structure Pgdir where
  tables : Nat → Option Frame
  ptes : Nat → Option Pte

/-- The part of a `struct proc` that only `exec` and `fork` change. -/
structure Task where
  eip : Nat
  esp : Nat
  name : List UInt8
deriving DecidableEq

structure St where
  freelist : List Frame
  /-- For each of the next calls of `kalloc`: are there frames on the list when it looks? -/
  plan : List Bool
  data : Frame → Page
  /-- What a frame holds while it is a page directory. -/
  dirs : Frame → Pgdir
  procs : Fin NPROC → Proc
  tasks : Fin NPROC → Task
  ftable : Fin NFILE → File

def St.withData (s : St) (f : Frame) (b : Page) : St := { s with data := update s.data f b }

def St.withDir (s : St) (d : Frame) (S : Pgdir) : St := { s with dirs := update s.dirs d S }

def St.withProc (s : St) (p : Fin NPROC) (x : Proc) : St := { s with procs := update s.procs p x }

/-- Does the next call of `kalloc` find a frame? -/
def St.gives (s : St) : Bool := s.plan.headD true && !s.freelist.isEmpty

inductive Panic where
  | kfree | remap | clearpteu | freevm
  | loaduvmAlign | loaduvmAddr | copyuvmPte | copyuvmPage | filedup
  /-- `uva2ka` reads through a null pointer. -/
  | nullPte
  /-- A store through an address that is not one of user memory. -/
  | stray
  /-- There is no such process. -/
  | disabled
deriving DecidableEq

/-- Whether a step calls `kalloc`: for a page, a page directory or a stack, or for a page table. -/
inductive Site where
  | plain
  | page
  | table
deriving DecidableEq

abbrev M := Prog St Panic

abbrev Code := Thread St Panic Site

variable {α : Type} (L : Layout)

def act (m : M α) : Code α := .step .plain m

/-- At each step that calls `kalloc` for an `l` the call finds a frame. -/
def Given (l l' : Site) (s : St) : Prop := l' = l → s.gives = true

instance (l l' : Site) (s : St) : Decidable (Given l l' s) := inferInstanceAs (Decidable (_ → _))

/-! ## kalloc.c -/

def kalloc : M (Option Frame) := do
  let s ← get
  match s.plan.headD true, s.freelist with
  | true, f :: fs =>
    set { s with freelist := fs, plan := s.plan.tail }
    return some f
  | _, _ =>
    set { s with plan := s.plan.tail }
    return none

/-- A free frame: filled with ones, and `r->next` at its start. -/
def freePage (next : List Frame) : Page :=
  Bytes.putLE (fun _ => 1) 0 4 (match next with | [] => 0 | g :: _ => KERNBASE + g * PGSIZE)

def St.free (s : St) (f : Frame) : St :=
  { s with freelist := f :: s.freelist, data := update s.data f (freePage s.freelist) }

def kfree (f : Frame) : M Unit := do
  if f < L.first ∨ L.last ≤ f then throw .kfree
  else modify fun s => s.free f

/-! ## vm.c -/

def Pgdir.empty : Pgdir := ⟨fun _ => none, fun _ => none⟩

/-- The entry for page `v`, if there is a table for it. -/
def Pgdir.page (S : Pgdir) (v : Nat) : Option Pte :=
  (S.tables (v / NPTENTRIES)).bind fun _ => S.ptes v

/-- A new table, cleared. -/
def Pgdir.withTable (S : Pgdir) (i : Nat) (t : Frame) : Pgdir :=
  ⟨update S.tables i (some t), fun v => if v / NPTENTRIES = i then none else S.ptes v⟩

def Pgdir.withPte (S : Pgdir) (v : Nat) (e : Option Pte) : Pgdir :=
  { S with ptes := update S.ptes v e }

variable (d : Frame)

def dir : M Pgdir := return (← get).dirs d

def setDir (S : Pgdir) : M Unit := modify fun s => s.withDir d S

def newTable (i : Nat) : M Bool := do
  match ← kalloc with
  | none => return false
  | some t =>
    let S ← dir d
    setDir d (S.withTable i t)
    return true

/-- Is there a table for page `v` now? -/
def walkpgdir (v : Nat) (alloc : Bool) : Code Bool := do
  let S ← act (dir d)
  if (S.tables (v / NPTENTRIES)).isSome then return true
  else if alloc then .step .table (newTable d (v / NPTENTRIES))
  else return false

/-- `if(*pte & PTE_P) panic("remap"); *pte = ..` -/
def putPte (v : Nat) (e : Pte) : M Unit := do
  let S ← dir d
  if (S.ptes v).isSome then throw .remap else setDir d (S.withPte v (some e))

/-- One page. -/
def mappages (v : Nat) (e : Pte) : Code Bool := do
  if ← walkpgdir d v true then
    act (putPte d v e)
    return true
  else return false

def mapKernel (d : Frame) : List Nat → Code Bool
  | [] => return true
  | i :: is => do
    if ← walkpgdir d (i * NPTENTRIES) true then mapKernel d is else return false

def newDir : M (Option Frame) := do
  match ← kalloc with
  | none => return none
  | some d =>
    setDir d .empty
    return some d

def setupkvm : Code (Option Frame) := do
  match ← .step .page newDir with
  | none => return none
  | some d => if ← mapKernel d kernelTables then return some d else return none

def pte (v : Nat) : M (Option Pte) := return ((← get).dirs d).ptes v

/-- `*pte = 0` -/
def clearPte (v : Nat) : M Unit := do
  let S ← dir d
  setDir d (S.withPte v none)

def deallocLoop (d : Frame) (last : Nat) : Nat → Nat → Code Unit
  | 0, _ => return ()
  | fuel + 1, v =>
    if v < last then do
      if ← walkpgdir d v false then
        match ← act (pte d v) with
        | none => deallocLoop d last fuel (v + 1)
        | some e =>
          act (kfree L e.frame)
          act (clearPte d v)
          deallocLoop d last fuel (v + 1)
      -- `a += (NPTENTRIES - 1) * PGSIZE`, and the loop adds one page
      else deallocLoop d last fuel (v + NPTENTRIES)
    else return ()

@[irreducible] def deallocuvm (oldsz newsz : Nat) : Code Nat :=
  if oldsz ≤ newsz then return oldsz
  else do
    deallocLoop L d (npages oldsz) (npages oldsz - npages newsz) (npages newsz)
    return newsz

/-- Store `b` in the frame `f`. -/
def fill (f : Frame) (b : Page) : M Unit := modify fun s => s.withData f b

def allocLoop (d : Frame) (oldsz newsz : Nat) : List Nat → Code Nat
  | [] => return newsz
  | v :: vs => do
    match ← .step .page kalloc with
    | none =>
      let _ ← deallocuvm L d newsz oldsz
      return 0
    | some f =>
      act (fill f .zero)
      -- the result of `mappages` is not looked at
      let _ ← mappages d v ⟨f, true, true⟩
      allocLoop d oldsz newsz vs

@[irreducible] def allocuvm (oldsz newsz : Nat) : Code Nat :=
  if KERNBASE ≤ newsz then return 0
  else if newsz < oldsz then return oldsz
  else allocLoop L d oldsz newsz (List.range' (npages oldsz) (npages newsz - npages oldsz))

def freeTables (d : Frame) : List Nat → Code Unit
  | [] => return ()
  | i :: is => do
    let S ← act (dir d)
    match S.tables i with
    | none => freeTables d is
    | some t =>
      act (kfree L t)
      freeTables d is

def freevm : Option Frame → Code Unit
  | none => act (throw .freevm)
  | some d => do
    let _ ← deallocuvm L d KERNBASE 0
    freeTables L d (List.range NPDENTRIES)
    act (kfree L d)

/-- `*pte &= ~PTE_U` -/
def hidePte (v : Nat) : M Unit := do
  let S ← dir d
  setDir d (S.withPte v ((S.ptes v).map fun e => { e with u := false }))

def clearpteu (v : Nat) : Code Unit := do
  if ← walkpgdir d v false then act (hidePte d v) else act (throw .clearpteu)

/-- `memmove(mem, p2v(pa), PGSIZE)` -/
def copyPage (f g : Frame) : M Unit := modify fun s => s.withData f (s.data g)

def copyLoop (d src : Frame) : List Nat → Code (Option Frame)
  | [] => return some d
  | v :: vs => do
    if ← walkpgdir src v false then
      match ← act (pte src v) with
      | none => act (throw .copyuvmPage)
      | some e =>
        match ← .step .page kalloc with
        | none =>
          freevm L (some d)
          return none
        | some f =>
          act (copyPage f e.frame)
          if ← mappages d v { e with frame := f } then copyLoop d src vs
          else
            freevm L (some d)
            return none
    else act (throw .copyuvmPte)

def copyuvm (src : Frame) (sz : Nat) : Code (Option Frame) := do
  match ← setupkvm with
  | none => return none
  | some d => copyLoop L d src (List.range (npages sz))

/-- The frame that page `v` is in, for the user. `null` is what the word at address 0 says when it
is taken for an entry: whether it has `PTE_P` and `PTE_U`; `none` if it cannot be read. -/
def uva2ka (v : Nat) (null : Option Bool) : M (Option Frame) := do
  let S ← dir d
  if (S.tables (v / NPTENTRIES)).isSome then
    match S.ptes v with
    | some e => return if e.u then some e.frame else none
    | none => return none
  else
    match null with
    | some false => return none
    | some true => throw .stray
    | none => throw .nullPte

/-- Store `l` in the frame `f`, from byte `o` on. -/
def store (f : Frame) (o : Nat) (l : List UInt8) : M Unit :=
  modify fun s => s.withData f ((s.data f).splice o l)

def copyoutLoop (d : Frame) (null : Option Bool) : Nat → Nat → List UInt8 → Code Bool
  | 0, _, _ => return true
  | fuel + 1, va, buf =>
    if buf.length = 0 then return true
    else do
      match ← act (uva2ka d (va / PGSIZE) null) with
      | none => return false
      | some f =>
        let n := min (PGSIZE - va % PGSIZE) buf.length
        act (store f (va % PGSIZE) (buf.take n))
        copyoutLoop d null fuel ((va / PGSIZE * PGSIZE + PGSIZE) % 2 ^ 32) (buf.drop n)

def copyout (va : Nat) (buf : List UInt8) (null : Option Bool) : Code Bool :=
  copyoutLoop d null buf.length va buf

def loadLoop (d : Frame) (addr : Nat) (x : Image) (offset sz : Nat) : Nat → Nat → Code Bool
  | 0, _ => return true
  | fuel + 1, i =>
    if i < sz then do
      let v := (addr + i) % 2 ^ 32 / PGSIZE
      if ← walkpgdir d v false then
        let e ← act (pte d v)
        let n := min (sz - i) PGSIZE
        let (r, l) := x.readi ((offset + i) % 2 ^ 32) n
        if l ≠ [] then
          if USERPAGES ≤ v then act (throw .stray)
          -- without `PTE_P` the entry is 0, and so is the address in it
          else act (store ((e.map Pte.frame).getD 0) 0 l)
        if r ≠ (n : Int) then return false
        else loadLoop d addr x offset sz fuel (i + PGSIZE)
      else act (throw .loaduvmAddr)
    else return true

def loaduvm (addr : Nat) (x : Image) (offset sz : Nat) : Code Bool := do
  if addr % PGSIZE ≠ 0 then act (throw .loaduvmAlign) else loadLoop d addr x offset sz (npages sz) 0

/-! ## exec.c -/

/-- The loop over the program headers; none if it goes to `bad`. -/
def loadSegments (d : Frame) (x : Image) : Nat → Nat → Nat → Code (Option Nat)
  | 0, _, sz => return some sz
  | n + 1, off, sz => do
    let (r, ph) := x.readi off 32
    if r ≠ 32 then return none
    else if word ph 0 4 ≠ ELF_PROG_LOAD then loadSegments d x n ((off + 32) % 2 ^ 32) sz
    else if word ph 20 4 < word ph 16 4 then return none
    else
      let sz' ← allocuvm L d sz ((word ph 8 4 + word ph 20 4) % 2 ^ 32)
      if sz' = 0 then return none
      else if ← loaduvm d (word ph 8 4) x (word ph 4 4) (word ph 16 4) then
        loadSegments d x n ((off + 32) % 2 ^ 32) sz'
      else return none

/-- `ustack[3..]` and `sp` when the strings are on the stack. -/
def pushArgs (d : Frame) (null : Option Bool) :
    List (List UInt8) → List Nat → Nat → Code (Option (List Nat × Nat))
  | [], ptrs, sp => return some (ptrs, sp)
  | arg :: args, ptrs, sp =>
    if MAXARG ≤ ptrs.length then return none
    else do
      let sp := (sp + 2 ^ 32 - (arg.length + 1) % 2 ^ 32) % 2 ^ 32 / 4 * 4
      if ← copyout d sp (arg ++ [0]) null then pushArgs d null args (ptrs ++ [sp]) sp
      else return none

/-- `ustack`, from `sp` after the strings. -/
def ustack (ptrs : List Nat) (sp : Nat) : List Nat :=
  [0xffffffff, ptrs.length, (sp + 2 ^ 32 - (ptrs.length + 1) * 4) % 2 ^ 32] ++ ptrs ++ [0]

/-- Two pages at `sz`, the second for the stack, and the arguments on it: the size and `sp`. -/
def pushStack (sz : Nat) (args : List (List UInt8)) (null : Option Bool) :
    Code (Option (Nat × Nat)) := do
  let sz ← allocuvm L d sz (sz + 2 * PGSIZE)
  if sz = 0 then return none
  else
    clearpteu d ((sz - 2 * PGSIZE) / PGSIZE)
    match ← pushArgs d null args [] sz with
    | none => return none
    | some (ptrs, sp) =>
      let sp' := (sp + 2 ^ 32 - (3 + ptrs.length + 1) * 4) % 2 ^ 32
      if ← copyout d sp' ((ustack ptrs sp).flatMap (Bytes.natLe 4)) null then return some (sz, sp')
      else return none

/-- The new image: its size and `sp`, or none if it goes to `bad`. -/
def build (x : Image) (hdr : List UInt8) (args : List (List UInt8)) (null : Option Bool) :
    Code (Option (Nat × Nat)) := do
  match ← loadSegments L d x (word hdr 44 2) (word hdr 28 4) 0 with
  | none => return none
  | some sz => pushStack L d (pgroundup sz) args null

variable (p : Fin NPROC)

def proc : M Proc := do
  let x := (← get).procs p
  if x.status = .live then return x else throw .disabled

def setProc (x : Proc) : M Unit := modify fun s => s.withProc p x

/-- What follows the last `/`. -/
def last (path : List UInt8) : List UInt8 :=
  path.foldl (fun l c => if c = 47 then [] else l ++ [c]) []

/-- `oldpgdir = proc->pgdir; proc->pgdir = pgdir; ..` -/
def commit (d : Frame) (sz : Nat) (x : Task) : M (Option Frame) := do
  let y ← proc p
  setProc p { y with pgdir := some d, sz }
  modify fun s => { s with tasks := update s.tasks p x }
  return y.pgdir

/-- `file`: what `namei(path)` finds. -/
def exec (path : List UInt8) (file : Option Image) (args : List (List UInt8)) (null : Option Bool) :
    Code Int := do
  let _ ← act (proc p)
  match file with
  | none => return -1
  | some x =>
    let (r, hdr) := x.readi 0 52
    if 0 ≤ r ∧ r < 52 then return -1
    else if word hdr 0 4 ≠ ELF_MAGIC then return -1
    else
      match ← setupkvm with
      | none => return -1
      | some d =>
        match ← build L d x hdr args null with
        | none =>
          freevm L (some d)
          return -1
        | some (sz, sp) =>
          -- `safestrcpy` leaves 15 bytes
          let old ← act (commit p d sz ⟨word hdr 24 4, sp, (last path).take 15⟩)
          freevm L old
          return 0

/-! ## proc.c -/

def findUnused (s : St) : Option (Fin NPROC) :=
  (List.finRange NPROC).find? fun q => (s.procs q).status == .unused

/-- The part of `allocproc` under `ptable.lock`. -/
def takeProc : M (Option (Fin NPROC)) := do
  let s ← get
  match findUnused s with
  | none => return none
  | some q =>
    setProc q { s.procs q with status := .embryo }
    return some q

/-- `p->kstack = kalloc()`, or `p->state = UNUSED`. -/
def newStack (q : Fin NPROC) : M (Option Frame) := do
  let f ← kalloc
  let x := (← get).procs q
  match f with
  | none =>
    setProc q { x with kstack := none, status := .unused }
    return none
  | some f =>
    setProc q { x with kstack := some f }
    return some f

/-- The process and its kernel stack. -/
def allocproc : Code (Option (Fin NPROC × Frame)) := do
  match ← act takeProc with
  | none => return none
  | some q =>
    match ← .step .page (newStack q) with
    | none => return none
    | some f => return some (q, f)

/-- `np->pgdir = 0; .. np->kstack = 0; np->state = UNUSED` -/
def dropProc (q : Fin NPROC) : M Unit := do
  let x := (← get).procs q
  setProc q { x with pgdir := none, kstack := none, status := .unused }

/-- `np->pgdir = ..; np->sz = ..; .. np->state = RUNNABLE` -/
def startProc (p q : Fin NPROC) (x : Proc) (d : Frame) : M Unit := do
  let y := (← get).procs q
  setProc q { y with
    status := .live, pgdir := some d, sz := x.sz, parent := some p, ofile := x.ofile }
  modify fun s => { s with tasks := update s.tasks q (s.tasks p) }

/-- `proc->sz = sz` -/
def setSize (sz : Nat) : M Unit := do
  let x ← proc p
  setProc p { x with sz }

def growproc (n : Int) : Code Int := do
  let x ← act (proc p)
  match x.pgdir with
  | none => act (throw .disabled)
  | some d =>
    let newsz := ((x.sz + n) % 2 ^ 32).toNat
    if 0 < n then
      let sz ← allocuvm L d x.sz newsz
      if sz = 0 then return -1
      else
        act (setSize p sz)
        return 0
    else if n < 0 then
      let sz ← deallocuvm L d x.sz newsz
      if sz = 0 then return -1
      else
        act (setSize p sz)
        return 0
    else
      act (setSize p x.sz)
      return 0

def filedup (f : Fin NFILE) : M Unit := do
  let x := (← get).ftable f
  if x.ref < 1 then throw .filedup
  else modify fun s => { s with ftable := update s.ftable f { x with ref := x.ref + 1 } }

def dupFiles (x : Proc) : List (Fin NOFILE) → Code Unit
  | [] => return ()
  | fd :: fds => do
    match x.ofile fd with
    | none => dupFiles x fds
    | some f =>
      act (filedup f)
      dupFiles x fds

def fork : Code Int := do
  let x ← act (proc p)
  match x.pgdir with
  | none => act (throw .disabled)
  | some src =>
    match ← allocproc with
    | none => return -1
    | some (q, kstack) =>
      match ← copyuvm L src x.sz with
      | none =>
        act (kfree L kstack)
        act (dropProc q)
        return -1
      | some d =>
        dupFiles x (List.finRange NOFILE)
        act (startProc p q x d)
        return (q.1 : Int)

end Os4.Uvm
