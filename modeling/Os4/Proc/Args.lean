import Os4.Fs.Sys
/-!
# User memory touched by system calls: syscall.c:16-78, sysfile.c, `fileread` and `filewrite` (file.c:95-157)

| here | there |
| --- | --- |
| `User`       | `proc->sz`, `proc->tf->esp`, `proc->ofile` and the memory below `proc->sz` |
| `Touch`      | a computation with the user addresses it loads from and stores to |
| `fetchint`, `fetchstr`, `argint`, `argptr`, `argstr`, `argfd` | syscall.c:18-78, sysfile.c:23 |
| `moveLoop`   | the `for` loop of `readi` and `writei`: `memmove` to or from `dst` block by block (fs.c:562, :589) |
| `Ip`, `Kind` | what the outcome of a read or write depends on: the size of the file, what the console or the pipe delivers |
| `Call.run`   | `sys_read`, `sys_write`, `sys_fstat`, `sys_pipe`, `sys_exec` and the calls that take paths |

Addresses are 32 bits. `proc->sz` is below `KERNBASE`, since `allocuvm` refuses to grow a process
beyond (vm.c:224). A path or an argument string is read again by the call it is for, up to its nul.

`argptr` adds the signed count to the address, `readi` takes it as unsigned and cuts it down to what
is left of the file: **`inside_iff`** says for which calls the two disagree.
-/
namespace Os4.Args

/-- The addresses touched, and the result unless an argument was refused. -/
structure Touch (α : Type) where
  touched : List Nat
  result : Option α

namespace Touch

variable {α β : Type}

protected def bind (m : Touch α) (f : α → Touch β) : Touch β :=
  match m.result with
  | none => ⟨m.touched, none⟩
  | some a => ⟨m.touched ++ (f a).touched, (f a).result⟩

instance : Monad Touch where
  pure a := ⟨[], some a⟩
  bind := Touch.bind

def refuse : Touch α := ⟨[], none⟩

def touch (l : List Nat) : Touch Unit := ⟨l, some ()⟩

/-- All addresses are below `sz`. -/
def Inside (sz : Nat) (m : Touch α) : Prop := ∀ a ∈ m.touched, a < sz

end Touch

open Touch
open Bytes (unsigned signed)

/-- `n` bytes from `addr` on. -/
def bytesAt (addr n : Nat) : List Nat := (List.range n).map fun j => (addr + j) % 2 ^ 32

/-! ## Files -/

/-- An inode as `readi` and `writei` see it. -/
inductive Ip where
  /-- `T_DEV`; `input` is what the console would deliver -/
  | dev (major : Int) (input : List UInt8)
  | data (size : Nat)

inductive Kind where
  | none
  /-- `ready` bytes are moved before the pipe runs empty, or `pipewrite` gives up -/
  | pipe (ready : Nat)
  | inode (ip : Ip)

structure File where
  readable : Bool
  writable : Bool
  kind : Kind
  off : Nat
  off_lt : off < 2 ^ 32

abbrev CONSOLE : Int := 1

/-- The bytes that `consoleread` stores (console.c:241-263): a line, up to `^D`, at most `n`. -/
def consoleread : List UInt8 → Int → Nat
  | [], _ => 0
  | c :: input, n =>
    if n ≤ 0 then 0
    else if c = 4 then 0
    else if c = 10 then 1
    else 1 + consoleread input (n - 1)

def moveLoop : Nat → Nat → Nat → Nat → List Nat
  | 0, _, _, _ => []
  | fuel + 1, dst, off, n =>
    if n = 0 then []
    else
      let m := min n (BSIZE - off % BSIZE)
      bytesAt dst m ++ moveLoop fuel (dst + m) (off + m) (n - m)

/-- `n` is unsigned; `devsw[major].read` takes it as signed again. -/
def readi (ip : Ip) (dst off n : Nat) : Touch Int :=
  match ip with
  | .dev major input =>
    if major = CONSOLE then do
      let k := consoleread input (Bytes.signed 4 n)
      touch (bytesAt dst k)
      return k
    else return -1
  | .data size =>
    if size < off ∨ (off + n) % 2 ^ 32 < off then return -1
    else do
      let n := if size < off + n then size - off else n
      touch (moveLoop n dst off n)
      return n

def fileread (f : File) (addr : Nat) (n : Int) : Touch Int :=
  if !f.readable then return -1
  else
    match f.kind with
    | .pipe ready => do
      let k := min ready n.toNat
      touch (bytesAt addr k)
      return k
    | .inode ip => readi ip addr f.off (Bytes.unsigned 4 n)
    | .none => refuse

/-- The value returned and the inode with its new size. -/
def writei (ip : Ip) (src off n : Nat) : Touch (Int × Ip) :=
  match ip with
  | .dev major _ =>
    if major = CONSOLE then do
      touch (bytesAt src n)
      return (n, ip)
    else return (-1, ip)
  | .data size =>
    if size < off ∨ (off + n) % 2 ^ 32 < off then return (-1, ip)
    else if MAXFILE * BSIZE < off + n then return (-1, ip)
    else do
      touch (moveLoop n src off n)
      return (n, .data (max size (off + n)))

def filewriteLoop (addr n : Nat) : Nat → Nat → Ip → Nat → Touch Nat
  | 0, i, _, _ => return i
  | fuel + 1, i, ip, off =>
    if n ≤ i then return i
    else do
      let n1 := min (n - i) Fs.maxChunk
      let (r, ip) ← writei ip (addr + i) off n1
      if r < 0 then return i
      else if r ≠ n1 then refuse
      else filewriteLoop addr n fuel (i + n1) ip (off + n1)

def filewrite (f : File) (addr : Nat) (n : Int) : Touch Int :=
  if !f.writable then return -1
  else
    match f.kind with
    | .pipe ready => do
      let k := min ready n.toNat
      touch (bytesAt addr k)
      return if (k : Int) < n then -1 else n
    | .inode ip => do
      let i ← filewriteLoop addr n.toNat n.toNat 0 ip f.off
      return if (i : Int) = n then n else -1
    | .none => refuse

/-- `sizeof(struct stat)` -/
abbrev statSize : Int := 24

/-- `dev`, `ino`, `type`, `nlink`, `size`, `prti` of a `struct stat` at `st`. -/
def stati (st : Nat) : Touch Unit :=
  touch (bytesAt (st + 4) 4 ++ bytesAt (st + 8) 4 ++ bytesAt st 2 ++ bytesAt (st + 12) 2 ++
    bytesAt (st + 16) 4 ++ bytesAt (st + 20) 4)

def filestat (f : File) (st : Nat) : Touch Int :=
  match f.kind with
  | .inode _ => do
    stati st
    return 0
  | _ => return -1

/-! ## Arguments -/

structure User where
  sz : Nat
  sz_lt : sz < KERNBASE
  esp : Nat
  mem : Nat → UInt8
  ofile : Fin NOFILE → Option File

variable (u : User)

def fetchint (addr : Nat) : Touch Int :=
  if u.sz ≤ addr ∨ u.sz < (addr + 4) % 2 ^ 32 then refuse
  else do
    touch (bytesAt addr 4)
    return Bytes.signed 4 (Bytes.leNat ((bytesAt addr 4).map u.mem))

/-- `for(s = *pp; s < ep; s++) if(*s == 0) ...` -/
def strlen (addr : Nat) : Nat → Nat → Touch Nat
  | 0, _ => refuse
  | fuel + 1, k => do
    touch [addr + k]
    if u.mem (addr + k) = 0 then return k else strlen addr fuel (k + 1)

/-- The string's address and length. -/
def fetchstr (addr : Nat) : Touch (Nat × Nat) :=
  if u.sz ≤ addr then refuse
  else do
    let k ← strlen u addr (u.sz - addr) 0
    return (addr, k)

def argint (n : Nat) : Touch Int := fetchint u ((u.esp + 4 + 4 * n) % 2 ^ 32)

def argptr (n : Nat) (size : Int) : Touch Nat := do
  let i ← argint u n
  let addr := Bytes.unsigned 4 i
  if u.sz ≤ addr ∨ u.sz < Bytes.unsigned 4 (addr + size) then refuse else return addr

def argstr (n : Nat) : Touch (Nat × Nat) := do
  let addr ← argint u n
  fetchstr u (Bytes.unsigned 4 addr)

def argfd (n : Nat) : Touch File := do
  let fd ← argint u n
  if h : 0 ≤ fd ∧ fd < NOFILE then
    match u.ofile ⟨fd.toNat, by omega⟩ with
    | some f => return f
    | none => refuse
  else refuse

/-! ## Calls -/

def sysRead : Touch Int := do
  let f ← argfd u 0
  let n ← argint u 2
  let p ← argptr u 1 n
  fileread f p n

def sysWrite : Touch Int := do
  let f ← argfd u 0
  let n ← argint u 2
  let p ← argptr u 1 n
  filewrite f p n

def sysFstat : Touch Int := do
  let f ← argfd u 0
  let st ← argptr u 1 statSize
  filestat f st

/-- `room`: there are two descriptors and a pipe to be had. -/
def sysPipe (room : Bool) : Touch Int := do
  let fd ← argptr u 0 8
  if room then
    touch (bytesAt fd 4)
    touch (bytesAt (fd + 4) 4)
    return 0
  else return -1

/-- A string is used, with its nul. -/
def useStr (x : Nat × Nat) : Touch Unit := touch (bytesAt x.1 (x.2 + 1))

/-- `argv[i]` for `i` from `MAXARG` minus the fuel on. -/
def fetchArgv (uargv : Nat) : Nat → Nat → Touch (List (Nat × Nat))
  | 0, _ => refuse
  | fuel + 1, i => do
    let uarg ← fetchint u ((uargv + 4 * i) % 2 ^ 32)
    if uarg = 0 then return []
    else
      let x ← fetchstr u (Bytes.unsigned 4 uarg)
      let rest ← fetchArgv uargv fuel (i + 1)
      return x :: rest

def useStrs : List (Nat × Nat) → Touch Unit
  | [] => return ()
  | x :: l => do
    useStr x
    useStrs l

def sysExec : Touch Int := do
  let path ← argstr u 0
  let uargv ← argint u 1
  let argv ← fetchArgv u (Bytes.unsigned 4 uargv) MAXARG 0
  useStrs (path :: argv)
  return 0

/-- A call with the strings `strs` and the integers `ints` among its arguments. -/
def argStrs : List Nat → Touch (List (Nat × Nat))
  | [] => return []
  | k :: l => do
    let x ← argstr u k
    let rest ← argStrs l
    return x :: rest

def argInts : List Nat → Touch Unit
  | [] => return ()
  | k :: l => do
    let _ ← argint u k
    argInts l

def pathCall (strs ints : List Nat) : Touch Int := do
  let paths ← argStrs u strs
  argInts u ints
  useStrs paths
  return 0

inductive Call where
  | read | write | fstat
  | pipe (room : Bool)
  | exec | «open» | link | unlink | mkdir | mknod | chdir | mount
deriving DecidableEq, Repr

def Call.run : Call → Touch Int
  | .read => sysRead u
  | .write => sysWrite u
  | .fstat => sysFstat u
  | .pipe room => sysPipe u room
  | .exec => sysExec u
  | .open => pathCall u [0] [1]
  | .link => pathCall u [0, 1] []
  | .unlink => pathCall u [0] []
  | .mkdir => pathCall u [0] []
  | .mknod => pathCall u [0] [1, 2]
  | .chdir => pathCall u [0] []
  | .mount => pathCall u [0] [1]

/-! ## What stays inside -/

variable {n addr p off uargv : Nat} {x : Nat × Nat} {size : Int} {E : Fs.Env} {k : Fin NINODE}

section Inside

variable {α β : Type} {sz : Nat} {u : User}

namespace Touch

@[simp] theorem inside_pure (a : α) : Inside sz (pure a : Touch α) :=
  fun _ h => absurd h (List.not_mem_nil)

@[simp] theorem inside_refuse : Inside sz (refuse : Touch α) :=
  fun _ h => absurd h (List.not_mem_nil)

@[simp] theorem inside_touch {l : List Nat} : Inside sz (touch l) ↔ ∀ a ∈ l, a < sz := Iff.rfl

theorem inside_bind {m : Touch α} {f : α → Touch β} :
    Inside sz (m >>= f) ↔ Inside sz m ∧ ∀ a, m.result = some a → Inside sz (f a) := by
  have hbind : m >>= f = Touch.bind m f := rfl
  rw [hbind, Touch.bind]
  cases hm : m.result with
  | none => simp [Inside]
  | some a =>
    simp only [Inside, List.mem_append, Option.some.injEq, forall_eq']
    exact ⟨fun h => ⟨fun x hx => h x (.inl hx), fun x hx => h x (.inr hx)⟩,
      fun h x hx => hx.elim (h.1 x) (h.2 x)⟩

theorem result_bind {m : Touch α} {f : α → Touch β} {b : β} (h : (m >>= f).result = some b) :
    ∃ a, m.result = some a ∧ (f a).result = some b := by
  have hbind : m >>= f = Touch.bind m f := rfl
  rw [hbind, Touch.bind] at h
  cases hm : m.result with
  | none => simp [hm] at h
  | some a =>
    simp only [hm] at h
    exact ⟨a, rfl, h⟩

@[simp] theorem result_pure {a : α} : (pure a : Touch α).result = some a := rfl

@[simp] theorem result_refuse : (refuse : Touch α).result = none := rfl

end Touch

theorem User.sz_small (u : User) : u.sz < 2 ^ 31 := u.sz_lt

theorem mem_bytesAt {a : Nat} : a ∈ bytesAt addr n ↔ ∃ j < n, a = (addr + j) % 2 ^ 32 := by
  simp [bytesAt, eq_comm]

/-- A range that starts below `sz` is inside if it ends there. -/
theorem bytesAt_inside_iff (hsz : sz < 2 ^ 31) (haddr : addr < sz) :
    (∀ a ∈ bytesAt addr n, a < sz) ↔ addr + n ≤ sz := by
  constructor
  · intro h
    by_contra hlt
    -- the byte at `sz` is in the range
    have hmem : sz ∈ bytesAt addr n := mem_bytesAt.2 ⟨sz - addr, by omega, by omega⟩
    exact absurd (h sz hmem) (Nat.lt_irrefl _)
  · rintro h a ha
    obtain ⟨j, hj, rfl⟩ := mem_bytesAt.1 ha
    rw [Nat.mod_eq_of_lt (by omega)]
    omega

theorem bytesAt_add (addr m n : Nat) :
    bytesAt addr (m + n) = bytesAt addr m ++ bytesAt (addr + m) n := by
  simp [bytesAt, List.range_add, Nat.add_assoc, Function.comp_def]

/-- The loop moves `n` bytes from `dst` on, wherever the blocks end. -/
theorem moveLoop_eq : ∀ (fuel dst off n : Nat), n ≤ fuel → moveLoop fuel dst off n = bytesAt dst n
  | 0, dst, off, n, h => by
    obtain rfl : n = 0 := by omega
    rfl
  | fuel + 1, dst, off, n, h => by
    rw [moveLoop]
    split
    · rename_i hn
      rw [hn]
      rfl
    · have hm : 0 < BSIZE - off % BSIZE := Nat.sub_pos_of_lt (Nat.mod_lt _ (by decide))
      have hsplit : n = min n (BSIZE - off % BSIZE) + (n - min n (BSIZE - off % BSIZE)) := by omega
      dsimp only
      rw [moveLoop_eq fuel _ _ _ (by omega), ← bytesAt_add, ← hsplit]

theorem fetchint_inside (addr : Nat) : Inside u.sz (fetchint u addr) := by
  rw [fetchint]
  split
  · exact inside_refuse
  · rename_i h
    have hsz := u.sz_small
    refine inside_bind.2 ⟨(bytesAt_inside_iff hsz (by omega)).2 (by omega),
      fun _ _ => inside_pure _⟩

theorem strlen_inside : ∀ fuel k, addr + k + fuel ≤ u.sz → Inside u.sz (strlen u addr fuel k)
  | 0, _, _ => inside_refuse
  | fuel + 1, k, h => by
    rw [strlen]
    refine inside_bind.2 ⟨?_, fun _ _ => ?_⟩
    · simp
      omega
    · split
      · exact inside_pure _
      · exact strlen_inside fuel (k + 1) (by omega)

theorem strlen_result {j : Nat} : ∀ fuel k, (strlen u addr fuel k).result = some j → j < k + fuel
  | 0, _, h => by simp [strlen] at h
  | fuel + 1, k, h => by
    rw [strlen] at h
    obtain ⟨-, -, h⟩ := result_bind h
    split at h
    · cases h
      omega
    · have := strlen_result fuel (k + 1) h
      omega

theorem fetchstr_inside (addr : Nat) : Inside u.sz (fetchstr u addr) := by
  rw [fetchstr]
  split
  · exact inside_refuse
  · exact inside_bind.2 ⟨strlen_inside _ _ (by omega), fun _ _ => inside_pure _⟩

theorem fetchstr_result (h : (fetchstr u addr).result = some x) : x.1 + x.2 < u.sz := by
  rw [fetchstr] at h
  split at h
  · cases h
  · obtain ⟨k, hk, h⟩ := result_bind h
    cases h
    have := strlen_result _ _ hk
    dsimp only
    omega

theorem argint_inside (n : Nat) : Inside u.sz (argint u n) := fetchint_inside _

theorem argint_result {i : Int} (h : (argint u n).result = some i) : -2 ^ 31 ≤ i ∧ i < 2 ^ 31 := by
  rw [argint, fetchint] at h
  split at h
  · cases h
  · obtain ⟨-, -, h⟩ := result_bind h
    cases h
    have hlt := Bytes.leNat_lt ((bytesAt ((u.esp + 4 + 4 * n) % 2 ^ 32) 4).map u.mem)
    have hlen : ((bytesAt ((u.esp + 4 + 4 * n) % 2 ^ 32) 4).map u.mem).length = 4 := by
      simp [bytesAt]
    rw [hlen] at hlt
    rw [signed]
    split <;> omega

theorem argptr_inside (n : Nat) (size : Int) : Inside u.sz (argptr u n size) := by
  refine inside_bind.2 ⟨argint_inside n, fun i _ => ?_⟩
  dsimp only
  split
  · exact inside_refuse
  · exact inside_pure _

/-- What `argptr` checks: the address, and its sum with the count modulo 2^32. -/
theorem argptr_result (h : (argptr u n size).result = some p) :
    p < u.sz ∧ unsigned 4 (p + size) ≤ u.sz := by
  obtain ⟨i, -, h⟩ := result_bind h
  dsimp only at h
  split at h
  · cases h
  · rename_i hc
    cases h
    omega

theorem argptr_fits (h : (argptr u n size).result = some p) (h0 : 0 ≤ size) (hlt : size < 2 ^ 31) :
    p + size.toNat ≤ u.sz := by
  obtain ⟨hp, hsum⟩ := argptr_result h
  have hsz := u.sz_small
  rw [unsigned, Int.emod_eq_of_lt (by omega) (by omega)] at hsum
  omega

theorem argstr_inside (n : Nat) : Inside u.sz (argstr u n) :=
  inside_bind.2 ⟨argint_inside n, fun _ _ => fetchstr_inside _⟩

theorem argstr_result (h : (argstr u n).result = some x) : x.1 + x.2 < u.sz := by
  obtain ⟨addr, -, h⟩ := result_bind h
  exact fetchstr_result h

theorem argfd_inside (n : Nat) : Inside u.sz (argfd u n) := by
  refine inside_bind.2 ⟨argint_inside n, fun fd _ => ?_⟩
  split
  · split
    · exact inside_pure _
    · exact inside_refuse
  · exact inside_refuse

/-! ## The calls that are checked -/

theorem useStrs_inside : ∀ l : List (Nat × Nat), (∀ x ∈ l, x.1 + x.2 < u.sz) →
    Inside u.sz (useStrs l)
  | [], _ => inside_pure _
  | x :: l, h => by
    have hx := h x (List.mem_cons_self ..)
    refine inside_bind.2 ⟨?_, fun _ _ => useStrs_inside l fun y hy =>
      h y (List.mem_cons_of_mem _ hy)⟩
    exact (bytesAt_inside_iff u.sz_small (by omega)).2 (by omega)

theorem fetchArgv_inside : ∀ fuel i, Inside u.sz (fetchArgv u uargv fuel i)
  | 0, _ => inside_refuse
  | fuel + 1, i => by
    refine inside_bind.2 ⟨fetchint_inside _, fun uarg _ => ?_⟩
    split
    · exact inside_pure _
    · exact inside_bind.2 ⟨fetchstr_inside _,
        fun _ _ => inside_bind.2 ⟨fetchArgv_inside fuel (i + 1), fun _ _ => inside_pure _⟩⟩

theorem fetchArgv_result : ∀ fuel i l, (fetchArgv u uargv fuel i).result = some l →
    ∀ x ∈ l, x.1 + x.2 < u.sz
  | 0, _, _, h => by cases h
  | fuel + 1, i, l, h => by
    obtain ⟨uarg, -, h⟩ := result_bind h
    split at h
    · cases h
      simp
    · obtain ⟨x, hx, h⟩ := result_bind h
      obtain ⟨rest, hrest, h⟩ := result_bind h
      cases h
      intro y hy
      rcases List.mem_cons.1 hy with rfl | hy
      · exact fetchstr_result hx
      · exact fetchArgv_result fuel (i + 1) rest hrest y hy

theorem sysExec_inside : Inside u.sz (sysExec u) := by
  refine inside_bind.2 ⟨argstr_inside 0, fun path hpath => ?_⟩
  refine inside_bind.2 ⟨argint_inside 1, fun uargv _ => ?_⟩
  refine inside_bind.2 ⟨fetchArgv_inside _ _, fun argv hargv => ?_⟩
  refine inside_bind.2 ⟨useStrs_inside _ fun x hx => ?_, fun _ _ => inside_pure _⟩
  rcases List.mem_cons.1 hx with rfl | hx
  · exact argstr_result hpath
  · exact fetchArgv_result _ _ argv hargv x hx

theorem argStrs_inside : ∀ strs, Inside u.sz (argStrs u strs)
  | [] => inside_pure _
  | k :: l =>
    inside_bind.2 ⟨argstr_inside k,
      fun _ _ => inside_bind.2 ⟨argStrs_inside l, fun _ _ => inside_pure _⟩⟩

theorem argStrs_result : ∀ strs l, (argStrs u strs).result = some l → ∀ x ∈ l, x.1 + x.2 < u.sz
  | [], _, h => by cases h; simp
  | k :: strs, l, h => by
    obtain ⟨x, hx, h⟩ := result_bind h
    obtain ⟨rest, hrest, h⟩ := result_bind h
    cases h
    intro y hy
    rcases List.mem_cons.1 hy with rfl | hy
    · exact argstr_result hx
    · exact argStrs_result strs rest hrest y hy

theorem argInts_inside : ∀ ints, Inside u.sz (argInts u ints)
  | [] => inside_pure _
  | k :: l => inside_bind.2 ⟨argint_inside k, fun _ _ => argInts_inside l⟩

theorem pathCall_inside (strs ints : List Nat) : Inside u.sz (pathCall u strs ints) := by
  refine inside_bind.2 ⟨argStrs_inside strs, fun paths hpaths => ?_⟩
  refine inside_bind.2 ⟨argInts_inside ints, fun _ _ => ?_⟩
  exact inside_bind.2 ⟨useStrs_inside _ (argStrs_result strs paths hpaths),
    fun _ _ => inside_pure _⟩

theorem sysPipe_inside (room : Bool) : Inside u.sz (sysPipe u room) := by
  refine inside_bind.2 ⟨argptr_inside 0 8, fun fd hfd => ?_⟩
  have hfits := argptr_fits hfd (by decide) (by decide)
  split
  · refine inside_bind.2 ⟨(bytesAt_inside_iff u.sz_small (by omega)).2 (by omega), fun _ _ => ?_⟩
    exact inside_bind.2 ⟨(bytesAt_inside_iff u.sz_small (by omega)).2 (by omega),
      fun _ _ => inside_pure _⟩
  · exact inside_pure _

theorem sysFstat_inside : Inside u.sz (sysFstat u) := by
  refine inside_bind.2 ⟨argfd_inside 0,
    fun f _ => inside_bind.2 ⟨argptr_inside 1 statSize, fun st hst => ?_⟩⟩
  have hfits : st + 24 ≤ u.sz := argptr_fits hst (by decide) (by decide)
  have hfield : ∀ o n : Nat, o + n ≤ 24 → 0 < n → ∀ a ∈ bytesAt (st + o) n, a <
      u.sz := fun o n h h0 =>
    (bytesAt_inside_iff u.sz_small (by omega)).2 (by omega)
  rw [filestat]
  split
  · refine inside_bind.2 ⟨fun a ha => ?_, fun _ _ => inside_pure _⟩
    simp only [stati, touch, List.mem_append] at ha
    rcases ha with ((((ha | ha) | ha) | ha) | ha) | ha
    · exact hfield 4 4 (by decide) (by decide) a ha
    · exact hfield 8 4 (by decide) (by decide) a ha
    · exact hfield 0 2 (by decide) (by decide) a ha
    · exact hfield 12 2 (by decide) (by decide) a ha
    · exact hfield 16 4 (by decide) (by decide) a ha
    · exact hfield 20 4 (by decide) (by decide) a ha
  · exact inside_pure _

/-- `writei` loads at most the `n` bytes at `src`. -/
theorem writei_inside {ip : Ip} {src : Nat} (h : src + n ≤ u.sz) (hn : 0 < n) :
    Inside u.sz (writei ip src off n) := by
  have hbytes := (bytesAt_inside_iff u.sz_small (by omega)).2 h
  cases ip with
  | dev major input =>
    simp only [writei]
    split
    · exact inside_bind.2 ⟨hbytes, fun _ _ => inside_pure _⟩
    · exact inside_pure _
  | data size =>
    simp only [writei]
    split
    · exact inside_pure _
    · split
      · exact inside_pure _
      · refine inside_bind.2 ⟨?_, fun _ _ => inside_pure _⟩
        rw [moveLoop_eq n src off n (Nat.le_refl n)]
        exact hbytes

theorem filewriteLoop_inside (h : addr + n ≤ u.sz) :
    ∀ fuel i ip off, Inside u.sz (filewriteLoop addr n fuel i ip off)
  | 0, _, _, _ => inside_pure _
  | fuel + 1, i, ip, off => by
    rw [filewriteLoop]
    split
    · exact inside_pure _
    · have hchunk : 0 < Fs.maxChunk := by decide
      refine inside_bind.2 ⟨writei_inside (by omega) (by omega), fun x _ => ?_⟩
      dsimp only
      split
      · exact inside_pure _
      · split
        · exact inside_refuse
        · exact filewriteLoop_inside h fuel _ _ _

theorem sysWrite_inside : Inside u.sz (sysWrite u) := by
  refine inside_bind.2 ⟨argfd_inside 0, fun f _ => inside_bind.2 ⟨argint_inside 2, fun n hn => ?_⟩⟩
  refine inside_bind.2 ⟨argptr_inside 1 n, fun p hp => ?_⟩
  -- a negative count writes nothing
  have hfits : p + n.toNat ≤ u.sz := by
    by_cases h0 : 0 ≤ n
    · exact argptr_fits hp h0 (argint_result hn).2
    · have := (argptr_result hp).1
      omega
  rw [filewrite]
  split
  · exact inside_pure _
  · split
    · exact inside_bind.2 ⟨(bytesAt_inside_iff u.sz_small (argptr_result hp).1).2 (by omega),
        fun _ _ => inside_pure _⟩
    · exact inside_bind.2 ⟨filewriteLoop_inside hfits _ _ _ _, fun _ _ => inside_pure _⟩
    · exact inside_refuse

/-! ## `sys_read` -/

theorem consoleread_le : ∀ (input : List UInt8) (n : Int), consoleread input n ≤ n.toNat
  | [], n => Nat.zero_le _
  | c :: input, n => by
    have ih := consoleread_le input (n - 1)
    rw [consoleread]
    split
    · exact Nat.zero_le _
    · split
      · exact Nat.zero_le _
      · split <;> omega

theorem signed_unsigned {n : Int} (h : -2 ^ 31 ≤ n) (h' : n < 2 ^ 31) :
    signed 4 (unsigned 4 n) = n := by
  rw [signed, unsigned]
  split <;> omega

/-- A read of `n < 0` bytes into `p` that passes the check of `argptr` and those of `readi`, from a
file with more bytes left than there are between `p` and `sz`. -/
def Overrun (sz p : Nat) (n : Int) (f : File) : Prop :=
  n < 0 ∧ f.readable = true ∧ ∃ size, f.kind = .inode (.data size) ∧ f.off ≤ size ∧
  (f.off : Int) < -n ∧ sz < p + (size - f.off)

/-- The bytes that `readi` stores for a count taken as unsigned. -/
theorem readi_data_inside_iff {size dst : Nat} {n : Int} (hdst : dst < u.sz) (hoff : off < 2 ^ 32)
    (hn : -2 ^ 31 ≤ n ∧ n < 2 ^ 31)
    (hfits : 0 ≤ n → dst + n.toNat ≤ u.sz) :
    Inside u.sz (readi (.data size) dst off (unsigned 4 n)) ↔
      ¬ (n < 0 ∧ off ≤ size ∧ (off : Int) < -n ∧ u.sz < dst + (size - off)) := by
  have hsz := u.sz_small
  have hN : unsigned 4 n = if 0 ≤ n then n.toNat else (2 ^ 32 + n).toNat := by
    rw [unsigned]
    split <;> omega
  generalize unsigned 4 n = N at *
  simp only [readi]
  split
  · rename_i hrej
    refine iff_of_true (inside_pure _) ?_
    split at hN <;> omega
  · rename_i hrej
    have hpure : ∀ k : Nat, Inside u.sz (do touch (bytesAt dst k); return (k : Int) : Touch Int) ↔
        dst + k ≤ u.sz := fun k => by
      rw [inside_bind, inside_touch, bytesAt_inside_iff hsz hdst]
      simp
    rw [moveLoop_eq _ _ _ _ (Nat.le_refl _), hpure]
    split at hN
    · have := hfits (by assumption)
      split <;> omega
    · split <;> omega

theorem fileread_inside_iff {f : File} {n : Int} (hp : p < u.sz) (hn : -2 ^ 31 ≤ n ∧ n < 2 ^ 31)
    (hfits : 0 ≤ n → p + n.toNat ≤ u.sz) : Inside u.sz (fileread f p n) ↔ ¬ Overrun u.sz p n f := by
  rw [fileread]
  split
  · rename_i hr
    refine iff_of_true (inside_pure _) fun h => ?_
    rw [h.2.1] at hr
    cases hr
  · rename_i hr
    have hr : f.readable = true := by simpa using hr
    have hcount : ∀ k : Nat, k ≤ n.toNat → ∀ a ∈ bytesAt p k, a < u.sz := fun k hk => by
      refine (bytesAt_inside_iff u.sz_small hp).2 ?_
      by_cases h0 : 0 ≤ n
      · have := hfits h0
        omega
      · omega
    split
    case h_1 ready hk =>
      refine iff_of_true (inside_bind.2 ⟨hcount _ (Nat.min_le_right ..),
        fun _ _ => inside_pure _⟩) ?_
      rintro ⟨-, -, size, hkind, -⟩
      rw [hk] at hkind
      cases hkind
    case h_3 hk =>
      refine iff_of_true inside_refuse ?_
      rintro ⟨-, -, size, hkind, -⟩
      rw [hk] at hkind
      cases hkind
    case h_2 ip hk =>
      cases ip with
      | dev major input =>
        have hdev : ¬ Overrun u.sz p n f := by
          rintro ⟨-, -, size, hkind, -⟩
          rw [hk] at hkind
          cases hkind
        refine iff_of_true ?_ hdev
        simp only [readi]
        split
        · refine inside_bind.2 ⟨hcount _ ?_, fun _ _ => inside_pure _⟩
          rw [signed_unsigned hn.1 hn.2]
          exact consoleread_le input n
        · exact inside_pure _
      | data size =>
        rw [readi_data_inside_iff hp f.off_lt hn hfits, not_iff_not]
        constructor
        · rintro ⟨h0, hoff, hlt, hover⟩
          exact ⟨h0, hr, size, hk, hoff, hlt, hover⟩
        · rintro ⟨h0, -, size', hkind, hoff, hlt, hover⟩
          rw [hk] at hkind
          cases hkind
          exact ⟨h0, hoff, hlt, hover⟩

/-- The loop of `readi` yields as many bytes as it was asked for. -/
theorem readLoop_length : ∀ (fuel off n : Nat) (s s' : Fs.FsState) (l : List UInt8),
    n ≤ fuel → Fs.readLoop E k fuel off n s = .ok (l, s') → l.length = n
  | 0, off, n, s, s', l, hn, h => by
    cases h
    exact (Nat.le_zero.1 hn).symm
  | fuel + 1, off, n, s, s', l, hn, h => by
    rw [Fs.readLoop] at h
    split at h
    · rename_i h0
      cases h
      exact h0.symm
    · have hm : 0 < BSIZE - off % BSIZE := Nat.sub_pos_of_lt (Nat.mod_lt _ (by decide))
      obtain ⟨b, s1, -, h⟩ := Prog.bind_ok h
      obtain ⟨x, s2, -, h⟩ := Prog.bind_ok h
      obtain ⟨rest, s3, hrest, h⟩ := Prog.bind_ok h
      have ih := readLoop_length fuel _ _ _ _ _ (by omega) hrest
      cases h
      rw [List.length_append, Bytes.length_slice, ih]
      omega

/-- The bytes that `readi` of the file system yields for a file or directory are stored from `dst`
on. -/
theorem readi_stores {dst : Nat} {s s' : Fs.FsState} {r : Int} {l : List UInt8}
    (hty : (s.icache k).din.type ≠ Fs.T_DEV) (h : Fs.readi E k off n s = .ok ((r, l), s')) :
    readi (.data (s.icache k).din.size) dst off n = ⟨bytesAt dst l.length, some r⟩ := by
  obtain ⟨ip, s1, hip, h⟩ := Prog.bind_ok h
  cases hip
  dsimp only at h
  rw [if_neg hty] at h
  simp only [readi]
  split at h
  · rename_i hrej
    rw [if_pos hrej]
    cases h
    rfl
  · rename_i hrej
    rw [if_neg hrej]
    obtain ⟨l', s2, hl, h⟩ := Prog.bind_ok h
    have hlen := readLoop_length _ _ _ _ _ _ (Nat.le_refl _) hl
    cases h
    rw [moveLoop_eq _ _ _ _ (Nat.le_refl _), ← hlen]
    simp only [bind, Touch.bind, touch, pure, List.append_nil]

/-- The arguments of a `sys_read` that stores outside the process. -/
def Overruns (u : User) : Prop :=
  ∃ f n p, (argfd u 0).result = some f ∧ (argint u 2).result = some n ∧
    (argptr u 1 n).result = some p ∧ Overrun u.sz p n f

theorem sysRead_inside_iff : Inside u.sz (sysRead u) ↔ ¬ Overruns u := by
  have hread : ∀ f n p, (argint u 2).result = some n → (argptr u 1 n).result = some p →
      (Inside u.sz (fileread f p n) ↔ ¬ Overrun u.sz p n f) := fun f n p hn hp =>
    fileread_inside_iff (argptr_result hp).1 (argint_result hn) fun h0 =>
      argptr_fits hp h0 (argint_result hn).2
  rw [sysRead]
  simp only [inside_bind, argfd_inside, argint_inside, argptr_inside, true_and, Overruns]
  constructor
  · rintro h ⟨f, n, p, hf, hn, hp, hover⟩
    exact (hread f n p hn hp).1 (h f hf n hn p hp) hover
  · intro h f hf n hn p hp
    exact (hread f n p hn hp).2 fun hover => h ⟨f, n, p, hf, hn, hp, hover⟩

/-- **Every user address that a call loads from or stores to lies below `proc->sz`, unless the call
is a `read` with a negative count that overruns.** -/
theorem inside_iff (u : User) (c : Call) :
    (∀ a ∈ (c.run u).touched, a < u.sz) ↔ ¬ (c = .read ∧ Overruns u) := by
  have hother : c ≠ .read → Inside u.sz (c.run u) →
      ((∀ a ∈ (c.run u).touched, a < u.sz) ↔ ¬ (c = .read ∧ Overruns u)) :=
    fun hne h => iff_of_true h fun hc => hne hc.1
  cases c with
  | read =>
    rw [and_iff_right rfl]
    exact sysRead_inside_iff
  | write => exact hother nofun sysWrite_inside
  | fstat => exact hother nofun sysFstat_inside
  | pipe room => exact hother nofun (sysPipe_inside room)
  | exec => exact hother nofun sysExec_inside
  | «open» | link | unlink | mkdir | mknod | chdir | mount =>
    exact hother nofun (pathCall_inside _ _)

end Inside

/-- A process of one page whose last byte is the buffer, with `read(0, 4095, -1)` on its stack at
address 0, and a file of two bytes as descriptor 0. -/
def overrunUser : User where
  sz := PGSIZE
  sz_lt := by decide
  esp := 0
  mem a := if a = 8 then 0xFF else if a = 9 then 0x0F else if 12 ≤ a ∧ a < 16 then 0xFF else 0
  ofile fd := if fd = 0 then some ⟨true, false, .inode (.data 2), 0, by decide⟩ else none

/-- The second byte is stored at `proc->sz`. -/
theorem read_outside : ¬ ∀ a ∈ (Call.read.run overrunUser).touched, a < overrunUser.sz := by
  intro h
  exact absurd (h 4096 (by decide)) (by decide)

end Os4.Args
