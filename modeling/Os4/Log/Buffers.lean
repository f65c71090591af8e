import Mathlib.Data.Fintype.Card
import Os4.Lib.Dlist
import Os4.Log.Bio
/-!
# The buffer cache, step by step (bio.c, ide.c)

| here | there |
| --- | --- |
| `Cache.links` | `b->next` and `b->prev`; `none` is `&bcache.head` |
| `forward`, `backward` | the two loops of `bget` (bio.c:72, 87) |
| `Cache.queue` | `idequeue`, through `b->qnext` (ide.c:28) |
| `Cache.owner` | who has the buffer `B_BUSY`, and how far that call is |
| `Cache.left` | what the last holder of a block left in it |
| `scan` | `bget` from `loop:` on, under `bcache.lock` (bio.c:70-96) |
| `enter` | `bread` after `bget` (bio.c:107), `iderw` up to its `sleep` (ide.c:136-158) |
| `ideintr` | ide.c:101-133; the transfer is made here |
| `finish` | the end of `iderw` (ide.c:161) |
| `modify`, `logWrite`, `bwrite`, `brelse` | a holder changes the data; log.c:229, bio.c:114, 125 |

Processes interleave at `bcache.lock` and `idelock`. A process may hold any number of buffers;
before `brelse` it has logged or written what it has changed. A process that sleeps in `bget` goes
back to `loop:` when it is woken, by `brelse` or by `kill`. The disks answer without errors.

* **`buffer_cache`**: the list, who has which block, and what `bread` returns.
-/
namespace Os4.Log.Buffers

open Function (update_self update_of_ne update)

/-- Why a step is not taken: the process is not there, or the kernel panics. -/
inductive Stop where
  | disabled
  | noBuffers
  /-- `iderw`: buf not busy -/
  | notBusy
  /-- `iderw`: nothing to do -/
  | nothingToDo
  /-- `iderw`: ide disk 1 not present -/
  | noDisk
  /-- `idestart`: incorrect blockno -/
  | blockno
  | bwrite
  | brelse
deriving DecidableEq

/-- How far the call is for which a buffer is busy. -/
inductive Stage where
  /-- `bget` has returned it to `bread` -/
  | got
  /-- `bread` waits for the disk -/
  | reading
  /-- `bread` has returned it; has it been changed since it was last logged or written? -/
  | held (changed : Bool)
  /-- `bwrite` waits for the disk -/
  | writing
deriving DecidableEq

inductive Pc where
  | out
  /-- asleep in `bget(dev, b)` on buffer `i` -/
  | asleep (i : Fin NBUF) (dev b : Nat)
  | woken (dev b : Nat)
  /-- in `bread` or `bwrite` with buffer `i` -/
  | call (i : Fin NBUF)
deriving DecidableEq

structure Cache where
  /-- by device and block -/
  disk : Nat → Nat → Block
  buf : Fin NBUF → Buf
  links : Links (Option (Fin NBUF))
  queue : List (Fin NBUF)
  owner : Fin NBUF → Option (Nat × Stage)
  pc : Nat → Pc
  left : Nat → Nat → Option Block

/-- The two drives. -/
abbrev NDISK : Nat := 2

variable (s : Cache)

def Cache.setBuf (i : Fin NBUF) (x : Buf) : Cache := { s with buf := update s.buf i x }

def Cache.setOwner (i : Fin NBUF) (o : Option (Nat × Stage)) : Cache :=
  { s with owner := update s.owner i o }

def Cache.setPc (p : Nat) (c : Pc) : Cache := { s with pc := update s.pc p c }

/-- Block `b` of `dev`, whoever looks at it next. -/
def Cache.view (dev b : Nat) : Block := (s.left dev b).getD (s.disk dev b)

/-! ## bio.c and ide.c -/

def binit (disk : Nat → Nat → Block) : Cache where
  disk
  buf := fun _ => ⟨2 ^ 32 - 1, 0, false, false, false, Bytes.zero⟩
  links := (List.finRange NBUF).foldl (fun L i => L.insert none (some i))
    ⟨fun _ => none, fun _ => none⟩
  queue := []
  owner := fun _ => none
  pc := fun _ => .out
  left := fun _ _ => none

/-- `for(b = bcache.head.next; b != &bcache.head; b = b->next)` -/
def Cache.forward : List (Fin NBUF) :=
  (Links.walk s.links.next none (NBUF + 1) (s.links.next none)).filterMap id

/-- `for(b = bcache.head.prev; b != &bcache.head; b = b->prev)` -/
def Cache.backward : List (Fin NBUF) :=
  (Links.walk s.links.prev none (NBUF + 1) (s.links.prev none)).filterMap id

/-- `bget` returns buffer `i`, now `x`, to process `p`. -/
def Cache.grab (p : Nat) (i : Fin NBUF) (x : Buf) : Cache :=
  ((s.setBuf i x).setOwner i (some (p, .got))).setPc p (.call i)

def scan (p dev b : Nat) : Except Stop Cache :=
  if dev < NDISK ∧ (s.pc p = .out ∨ s.pc p = .woken dev b) then
    match s.forward.find? fun i => (s.buf i).holds dev b with
    | some i =>
      if (s.buf i).busy then .ok (s.setPc p (.asleep i dev b))
      else .ok (s.grab p i { s.buf i with busy := true })
    | none =>
      match s.backward.find? fun i => !(s.buf i).busy && !(s.buf i).dirty with
      | some i => .ok (s.grab p i ⟨dev, b, true, false, false, (s.buf i).data⟩)
      | none => .error .noBuffers
  else .error .disabled

def idestart (x : Buf) : Except Stop Unit :=
  if FSSIZE * 4 ≤ x.blockno then .error .blockno else .ok ()

/-- `iderw` up to its `sleep`. -/
def iderw (havedisk1 : Bool) (s : Cache) (i : Fin NBUF) : Except Stop Cache :=
  let x := s.buf i
  if !x.busy then .error .notBusy
  else if x.valid && !x.dirty then .error .nothingToDo
  else if x.dev ≠ 0 ∧ havedisk1 = false then .error .noDisk
  else
    let s := { s with queue := s.queue ++ [i] }
    if s.queue = [i] then do
      idestart x
      return s
    else return s

def enter (havedisk1 : Bool) (s : Cache) (p : Nat) : Except Stop Cache :=
  match s.pc p with
  | .call i =>
    if s.owner i = some (p, .got) then
      if (s.buf i).valid then .ok ((s.setOwner i (some (p, .held false))).setPc p .out)
      else iderw havedisk1 (s.setOwner i (some (p, .reading))) i
    else .error .disabled
  | _ => .error .disabled

/-- The buffer is filled from the disk. -/
def Cache.fetch (i : Fin NBUF) : Cache :=
  s.setBuf i { s.buf i with valid := true, data := s.disk (s.buf i).dev (s.buf i).blockno }

/-- The buffer is stored on the disk. -/
def Cache.flush (i : Fin NBUF) : Cache :=
  { s.setBuf i { s.buf i with valid := true, dirty := false } with
    disk := update s.disk (s.buf i).dev
      (update (s.disk (s.buf i).dev) (s.buf i).blockno (s.buf i).data) }

def Cache.transfer (i : Fin NBUF) : Cache := if (s.buf i).dirty then s.flush i else s.fetch i

def ideintr : Except Stop Cache :=
  match s.queue with
  | [] => .ok s
  | i :: q => do
    let s := { s.transfer i with queue := q }
    match q with
    | [] => return s
    | j :: _ =>
      idestart (s.buf j)
      return s

def finish (p : Nat) : Except Stop Cache :=
  match s.pc p with
  | .call i =>
    if (s.owner i = some (p, .reading) ∨ s.owner i = some (p, .writing)) ∧
        (s.buf i).valid = true ∧ (s.buf i).dirty = false then
      .ok ((s.setOwner i (some (p, .held false))).setPc p .out)
    else .error .disabled
  | _ => .error .disabled

/-- Process `p` holds buffer `i` and is in no call. -/
def Cache.holds (p : Nat) (i : Fin NBUF) : Prop :=
  s.pc p = .out ∧ (s.owner i = some (p, .held false) ∨ s.owner i = some (p, .held true))

instance (s : Cache) (p : Nat) (i : Fin NBUF) : Decidable (s.holds p i) :=
  inferInstanceAs (Decidable (_ ∧ _))

/-- Store to `b->data`. -/
def modify (p : Nat) (i : Fin NBUF) (f : Block → Block) : Except Stop Cache :=
  if s.holds p i then
    .ok ((s.setBuf i { s.buf i with data := f (s.buf i).data }).setOwner i (some (p, .held true)))
  else .error .disabled

/-- `b->flags |= B_DIRTY`, the end of `log_write`. -/
def logWrite (p : Nat) (i : Fin NBUF) : Except Stop Cache :=
  if s.holds p i then
    .ok ((s.setBuf i { s.buf i with dirty := true }).setOwner i (some (p, .held false)))
  else .error .disabled

def bwrite (havedisk1 : Bool) (s : Cache) (p : Nat) (i : Fin NBUF) : Except Stop Cache :=
  if s.holds p i then
    if !(s.buf i).busy then .error .bwrite
    else iderw havedisk1 (((s.setBuf i { s.buf i with dirty := true }).setOwner i
      (some (p, .writing))).setPc p (.call i)) i
  else .error .disabled

/-- `wakeup(b)`, for those in `bget` -/
def Cache.wakeup (i : Fin NBUF) : Cache :=
  { s with pc := fun q => match s.pc q with
    | .asleep j dev b => if j = i then .woken dev b else .asleep j dev b
    | c => c }

/-- The buffer goes to the front of the list and is no longer busy. -/
def Cache.release (i : Fin NBUF) : Cache :=
  let x := s.buf i
  { (s.setBuf i { x with busy := false }).setOwner i none with
    links := (s.links.unlink (some i)).insert none (some i)
    left := update s.left x.dev (update (s.left x.dev) x.blockno (some x.data)) }

/-- The holder has nothing left to log or to write. -/
def brelse (p : Nat) (i : Fin NBUF) : Except Stop Cache :=
  if s.pc p = .out ∧ s.owner i = some (p, .held false) then
    if !(s.buf i).busy then .error .brelse else .ok ((s.release i).wakeup i)
  else .error .disabled

/-- `kill` ends a `sleep`. -/
def kill (p : Nat) : Except Stop Cache :=
  match s.pc p with
  | .asleep _ dev b => .ok (s.setPc p (.woken dev b))
  | _ => .error .disabled

inductive Ev where
  | scan (p dev b : Nat)
  | enter (p : Nat)
  | ideintr
  | finish (p : Nat)
  | modify (p : Nat) (i : Fin NBUF) (f : Block → Block)
  | logWrite (p : Nat) (i : Fin NBUF)
  | bwrite (p : Nat) (i : Fin NBUF)
  | brelse (p : Nat) (i : Fin NBUF)
  | kill (p : Nat)

def step (havedisk1 : Bool) (s : Cache) : Ev → Except Stop Cache
  | .scan p dev b => scan s p dev b
  | .enter p => enter havedisk1 s p
  | .ideintr => ideintr s
  | .finish p => finish s p
  | .modify p i f => modify s p i f
  | .logWrite p i => logWrite s p i
  | .bwrite p i => bwrite havedisk1 s p i
  | .brelse p i => brelse s p i
  | .kill p => kill s p

/-- A run, the latest event first. -/
def run (havedisk1 : Bool) (disk : Nat → Nat → Block) : List Ev → Except Stop Cache
  | [] => .ok (binit disk)
  | e :: tr => do step havedisk1 (← run havedisk1 disk tr) e

/-! ## One buffer -/

/-- Nobody has seen the data of the buffer since its last holder left it. -/
def Unseen : Option (Nat × Stage) → Prop
  | none | some (_, .got) | some (_, .reading) => True
  | _ => False

/-- A buffer `x` with owner `o`; is a request for it `queued`? -/
structure Fine (disk : Nat → Nat → Block) (view : Nat → Nat → Block) (x : Buf)
    (o : Option (Nat × Stage)) (queued : Prop) : Prop where
  busy : x.busy = o.isSome
  real : o.isSome ∨ x.dirty = true → x.dev < NDISK
  invalid : x.dev < NDISK → x.valid = false → x.dirty = false ∧ ∃ p, o = some (p, .got) ∨
    o = some (p, .reading)
  unseen : x.dev < NDISK → x.valid = true → Unseen o → x.data = view x.dev x.blockno
  clean : x.dev < NDISK → x.valid = true → x.dirty = false → (∀ p, o ≠ some (p, .held true)) →
    x.data = disk x.dev x.blockno
  queued : queued → ∃ p, (o = some (p, .reading) ∧ x.valid = false) ∨
    (o = some (p, .writing) ∧ x.dirty = true)

/-- The cache is in order. -/
structure Wf (s : Cache) : Prop where
  ring : ∃ l : List (Fin NBUF), Dlist s.links none (l.map some) ∧ ∀ i, i ∈ l
  uniq : ∀ i j, (s.buf i).dev < NDISK → (s.buf j).dev = (s.buf i).dev → (s.buf j).blockno =
    (s.buf i).blockno → j = i
  nodup : s.queue.Nodup
  fine : ∀ i, Fine s.disk s.view (s.buf i) (s.owner i) (i ∈ s.queue)
  /-- what no buffer has is on the disk -/
  stored : ∀ dev b, dev < NDISK → (∀ i, (s.buf i).dev = dev → (s.buf i).blockno = b →
    (s.buf i).valid = false) → s.view dev b = s.disk dev b

variable {s s' : Cache} {i j : Fin NBUF} {p dev b : Nat} {o : Option (Nat × Stage)} {x : Buf}
  {havedisk1 : Bool}

variable {c : Bool}

theorem flag_clash {P : Prop} (h : c = true) (h' : c = false) : P := by
  rw [h] at h'
  cases h'

theorem Wf.forward {l : List (Fin NBUF)} (hl : Dlist s.links none (l.map some)) :
    s.forward = l ∧ s.backward = l.reverse := by
  have hnodup : l.Nodup := (List.nodup_cons.1 hl.nodup).2.of_map
  have hlen : (l.map some).length < NBUF + 1 := by
    rw [List.length_map]
    exact Nat.lt_succ_of_le ((hnodup.length_le_card).trans_eq (Fintype.card_fin NBUF))
  have hid : ∀ l : List (Fin NBUF), (l.map some).filterMap id = l := fun l => by simp
  constructor
  · unfold Cache.forward
    rw [hl.seg.walk (List.nodup_cons.1 hl.nodup).1 hlen, hid]
  · unfold Cache.backward
    rw [hl.walk_back hlen, ← List.map_reverse, hid]

theorem view_congr (hd : s'.disk dev b = s.disk dev b) (hl : s'.left dev b = s.left dev b) :
    s'.view dev b = s.view dev b := by
  unfold Cache.view
  rw [hd, hl]

theorem update_update_ne {α : Type} (f : Nat → Nat → α) (y : α) {dev0 b0 : Nat}
    (h : ¬ (dev = dev0 ∧ b = b0)) :
    update f dev0 (update (f dev0) b0 y) dev b = f dev b := by
  by_cases hd : dev = dev0
  · subst hd
    rw [update_self, update_of_ne fun hb => h ⟨rfl, hb⟩]
  · rw [update_of_ne hd]

theorem Wf.touch (hw : Wf s)
    (hring : ∃ l : List (Fin NBUF), Dlist s'.links none (l.map some) ∧ ∀ i, i ∈ l)
    (hbuf : ∀ j, j ≠ i → s'.buf j = s.buf j) (hown : ∀ j, j ≠ i → s'.owner j = s.owner j)
    (hqueue : ∀ j, j ≠ i → (j ∈ s'.queue ↔ j ∈ s.queue)) (hnodup : s'.queue.Nodup)
    (hdev : (s'.buf i).dev = (s.buf i).dev) (hblockno : (s'.buf i).blockno = (s.buf i).blockno)
    (hreal : (s.buf i).dev < NDISK)
    (hdata : ∀ dev b, ¬ (dev = (s.buf i).dev ∧ b = (s.buf i).blockno) → s'.disk dev b =
      s.disk dev b ∧ s'.left dev b = s.left dev b)
    (hfine : Fine s'.disk s'.view (s'.buf i) (s'.owner i) (i ∈ s'.queue))
    (hstored : (s'.buf i).valid = false → s'.view (s.buf i).dev (s.buf i).blockno =
      s'.disk (s.buf i).dev (s.buf i).blockno) :
    Wf s' := by
  have hsame : ∀ j, (s'.buf j).dev = (s.buf j).dev ∧ (s'.buf j).blockno = (s.buf j).blockno :=
    fun j => by
    by_cases hj : j = i
    · rw [hj]; exact ⟨hdev, hblockno⟩
    · rw [hbuf j hj]; exact ⟨rfl, rfl⟩
  refine ⟨hring, fun j k hj hd hb => ?_, hnodup, fun j => ?_, fun dev b hlt hnone => ?_⟩
  · rw [(hsame j).1] at hj
    rw [(hsame j).1, (hsame k).1] at hd
    rw [(hsame j).2, (hsame k).2] at hb
    exact hw.uniq j k hj hd hb
  · by_cases hj : j = i
    · rw [hj]; exact hfine
    · have hF := hw.fine j
      rw [hbuf j hj, hown j hj]
      -- the block of `j` is another one
      have hother : (s.buf j).dev < NDISK → s'.disk (s.buf j).dev (s.buf j).blockno =
        s.disk (s.buf j).dev (s.buf j).blockno ∧
          s'.left (s.buf j).dev (s.buf j).blockno = s.left (s.buf j).dev (s.buf j).blockno :=
            fun _ =>
        hdata _ _ fun h => hj (hw.uniq i j hreal h.1 h.2)
      refine ⟨hF.busy, hF.real, hF.invalid, fun hd hv hu => ?_, fun hd hv hc ho => ?_,
        fun hq => hF.queued ((hqueue j hj).1 hq)⟩
      · rw [view_congr (hother hd).1 (hother hd).2]
        exact hF.unseen hd hv hu
      · rw [(hother hd).1]
        exact hF.clean hd hv hc ho
  · by_cases hmine : dev = (s.buf i).dev ∧ b = (s.buf i).blockno
    · obtain ⟨rfl, rfl⟩ := hmine
      exact hstored (hnone i hdev hblockno)
    · obtain ⟨hd, hl⟩ := hdata dev b hmine
      rw [view_congr hd hl, hd]
      refine hw.stored dev b hlt fun j hjd hjb => ?_
      have hj : j ≠ i := by rintro rfl; exact hmine ⟨hjd.symm, hjb.symm⟩
      have := hnone j (by rw [(hsame j).1, hjd]) (by rw [(hsame j).2, hjb])
      rwa [hbuf j hj] at this

theorem Wf.pc (hw : Wf s) (f : Nat → Pc) : Wf { s with pc := f } :=
  ⟨hw.ring, hw.uniq, hw.nodup, hw.fine, hw.stored⟩

theorem Wf.set (hw : Wf s) (x : Buf) (o : Option (Nat × Stage)) (hdev : x.dev = (s.buf i).dev)
    (hblockno : x.blockno = (s.buf i).blockno)
    (hreal : (s.buf i).dev < NDISK) (hvalid : x.valid = (s.buf i).valid)
    (hfine : Fine s.disk s.view x o (i ∈ s.queue)) :
    Wf ((s.setBuf i x).setOwner i o) := by
  have hself : ((s.setBuf i x).setOwner i o).buf i = x := update_self ..
  refine hw.touch (i := i) hw.ring (fun j hj => update_of_ne hj ..) (fun j hj => update_of_ne hj ..)
    (fun _ _ => Iff.rfl) hw.nodup (by rw [hself, hdev]) (by rw [hself, hblockno]) hreal
      (fun _ _ _ => ⟨rfl, rfl⟩) ?_ fun hv => ?_
  · rw [hself, show ((s.setBuf i x).setOwner i o).owner i = o from update_self ..]
    exact hfine
  · rw [hself, hvalid] at hv
    refine hw.stored _ _ hreal fun j hd hb => ?_
    rw [hw.uniq i j hreal hd hb]
    exact hv

theorem Wf.enqueue (hw : Wf s) (hnew : i ∉ s.queue) (hreal : (s.buf i).dev < NDISK)
    (hfine : Fine s.disk s.view (s.buf i) (s.owner i) True) :
    Wf { s with queue := s.queue ++ [i] } := by
  refine hw.touch (i := i) hw.ring (fun _ _ => rfl) (fun _ _ => rfl) (fun j hj => ?_) ?_ rfl rfl
    hreal (fun _ _ _ => ⟨rfl, rfl⟩) ?_
    fun hv => ?_
  · simp [hj]
  · exact List.nodup_append.2 ⟨hw.nodup, List.nodup_singleton i, fun a ha c hc => by
      rw [List.mem_singleton.1 hc]; exact fun heq => hnew (heq ▸ ha)⟩
  · exact ⟨hfine.busy, hfine.real, hfine.invalid, hfine.unseen, hfine.clean,
      fun _ => hfine.queued trivial⟩
  · refine hw.stored _ _ hreal fun j hd hb => ?_
    rw [hw.uniq i j hreal hd hb]
    exact hv

/-! ## What each step does -/

theorem iderw_cases (h : iderw havedisk1 s i = .ok s') :
    s' = { s with queue := s.queue ++ [i] } := by
  unfold iderw at h
  dsimp only at h
  split at h
  · cases h
  split at h
  · cases h
  split at h
  · cases h
  split at h
  · unfold idestart at h
    split at h
    · cases h
    · cases h
      rfl
  · cases h
    rfl

theorem scan_cases (hw : Wf s) (h : scan s p dev b = .ok s') : dev < NDISK ∧
    ((∃ i, s' = s.setPc p (.asleep i dev b)) ∨
    (∃ i, (s.buf i).dev = dev ∧ (s.buf i).blockno = b ∧ (s.buf i).busy = false ∧
      s' = s.grab p i { s.buf i with busy := true }) ∨
    ∃ i, (∀ j, ¬ ((s.buf j).dev = dev ∧ (s.buf j).blockno = b)) ∧ (s.buf i).busy = false ∧
    (s.buf i).dirty = false ∧ s' = s.grab p i ⟨dev, b, true, false, false, (s.buf i).data⟩) := by
  obtain ⟨l, hl, hall⟩ := hw.ring
  obtain ⟨hforward, hbackward⟩ := Wf.forward hl
  unfold scan at h
  rw [hforward, hbackward] at h
  split at h
  case isFalse => cases h
  case isTrue hguard =>
  refine ⟨hguard.1, ?_⟩
  split at h
  · rename_i i hi
    have hhit := List.find?_some hi
    simp only [Buf.holds, Bool.and_eq_true, beq_iff_eq] at hhit
    split at h
    · cases h
      exact .inl ⟨i, rfl⟩
    · rename_i hbusy
      cases h
      exact .inr (.inl ⟨i, hhit.1, hhit.2, by simpa using hbusy, rfl⟩)
  · rename_i hmiss
    split at h
    · rename_i i hi
      cases h
      have hfree := List.find?_some hi
      simp only [Bool.and_eq_true, Bool.not_eq_true'] at hfree
      refine .inr (.inr ⟨i, fun j hj => ?_, hfree.1, hfree.2, rfl⟩)
      have := List.find?_eq_none.1 hmiss j (hall j)
      simp [Buf.holds, hj] at this
    · cases h

theorem enter_cases (h : enter havedisk1 s p = .ok s') :
    ∃ i, s.pc p = .call i ∧ s.owner i = some (p, .got) ∧
    ((s.buf i).valid = true ∧ s' = (s.setOwner i (some (p, .held false))).setPc p .out ∨
    (s.buf i).valid = false ∧
      s' = { s.setOwner i (some (p, .reading)) with queue := s.queue ++ [i] }) := by
  unfold enter at h
  split at h
  · rename_i i hpc
    split at h
    · rename_i ho
      refine ⟨i, hpc, ho, ?_⟩
      split at h
      · rename_i hv
        cases h
        exact .inl ⟨hv, rfl⟩
      · rename_i hv
        exact .inr ⟨by simpa using hv, iderw_cases h⟩
    · cases h
  · cases h

theorem ideintr_cases (h : ideintr s = .ok s') :
    s' = s ∨ ∃ i q, s.queue = i :: q ∧ s' = { s.transfer i with queue := q } := by
  unfold ideintr at h
  split at h
  · cases h
    exact .inl rfl
  · rename_i i q hq
    refine .inr ⟨i, q, hq, ?_⟩
    dsimp only at h
    split at h
    · cases h
      rfl
    · unfold idestart at h
      split at h
      · cases h
      · cases h
        rfl

theorem finish_cases (h : finish s p = .ok s') :
    ∃ i, s.pc p = .call i ∧ (s.owner i = some (p, .reading) ∨ s.owner i = some (p, .writing)) ∧
    (s.buf i).valid = true ∧ (s.buf i).dirty = false ∧
    s' = (s.setOwner i (some (p, .held false))).setPc p .out := by
  unfold finish at h
  split at h
  · rename_i i hpc
    split at h
    · rename_i hc
      cases h
      exact ⟨i, hpc, hc.1, hc.2.1, hc.2.2, rfl⟩
    · cases h
  · cases h

theorem Cache.holds.owner (h : s.holds p i) : ∃ c, s.owner i = some (p, .held c) := by
  rcases h.2 with h | h
  · exact ⟨_, h⟩
  · exact ⟨_, h⟩

variable {f : Block → Block}

theorem modify_cases (h : modify s p i f = .ok s') : s.holds p i ∧
    s' = (s.setBuf i { s.buf i with data := f (s.buf i).data }).setOwner i
      (some (p, .held true)) := by
  unfold modify at h
  split at h
  · rename_i hh
    cases h
    exact ⟨hh, rfl⟩
  · cases h

theorem logWrite_cases (h : logWrite s p i = .ok s') : s.holds p i ∧
    s' = (s.setBuf i { s.buf i with dirty := true }).setOwner i (some (p, .held false)) := by
  unfold logWrite at h
  split at h
  · rename_i hh
    cases h
    exact ⟨hh, rfl⟩
  · cases h

theorem bwrite_cases (h : bwrite havedisk1 s p i = .ok s') : s.holds p i ∧
    s' = { ((s.setBuf i { s.buf i with dirty := true }).setOwner i (some (p, .writing))).setPc p
      (.call i) with
      queue := s.queue ++ [i] } := by
  unfold bwrite at h
  split at h
  · rename_i hh
    split at h
    · cases h
    · exact ⟨hh, iderw_cases h⟩
  · cases h

theorem brelse_cases (h : brelse s p i = .ok s') :
    s.owner i = some (p, .held false) ∧ s' = (s.release i).wakeup i := by
  unfold brelse at h
  split at h
  · rename_i hh
    split at h
    · cases h
    · cases h
      exact ⟨hh.2, rfl⟩
  · cases h

theorem kill_cases (h : kill s p = .ok s') : ∃ c, s' = s.setPc p c := by
  unfold kill at h
  split at h
  · cases h
    exact ⟨_, rfl⟩
  · cases h

/-! ## The cache stays in order -/

theorem wf_binit (disk : Nat → Nat → Block) : Wf (binit disk) := by
  have hring : ∀ (is l : List (Fin NBUF)) (L : Links (Option (Fin NBUF))),
    Dlist L none (l.map some) → is.Nodup →
      (∀ i ∈ is, i ∉ l) → ∃ l' : List (Fin NBUF),
      Dlist (is.foldl (fun L i => L.insert none (some i)) L) none (l'.map some) ∧
        ∀ i, i ∈ is ∨ i ∈ l → i ∈ l' := by
    intro is
    induction is with
    | nil => exact fun l L hl _ _ => ⟨l, hl, fun i hi => hi.resolve_left (by simp)⟩
    | cons i is ih =>
      intro l L hl hnodup hnew
      obtain ⟨hi, hnodup⟩ := List.nodup_cons.1 hnodup
      have hins : Dlist (L.insert none (some i)) none ((i :: l).map some) :=
        hl.insert (by simpa using hnew i (List.mem_cons_self ..))
      obtain ⟨l', hl', hmem⟩ := ih (i :: l) _ hins hnodup fun j hj hjl => by
        rcases List.mem_cons.1 hjl with rfl | hjl
        · exact hi hj
        · exact hnew j (List.mem_cons_of_mem _ hj) hjl
      refine ⟨l', hl', fun j hj => hmem j ?_⟩
      simp only [List.mem_cons] at hj ⊢
      tauto
  have hdev : ¬ (2 ^ 32 - 1 < NDISK) := by decide
  obtain ⟨l, hl, hmem⟩ := hring (List.finRange NBUF) [] ⟨fun _ => none, fun _ => none⟩
    ⟨List.nodup_singleton _, rfl, rfl⟩ (List.nodup_finRange _)
    fun _ _ => List.not_mem_nil
  refine ⟨⟨l, hl, fun i => hmem i (.inl (List.mem_finRange i))⟩, fun i j hi => absurd hi hdev,
    List.nodup_nil, fun i => ?_, fun dev b _ _ => rfl⟩
  exact ⟨rfl, fun h => by simp [binit] at h, fun hd => absurd hd hdev, fun hd => absurd hd hdev,
    fun hd => absurd hd hdev, fun hq => absurd hq List.not_mem_nil⟩

theorem Wf.valid_of_free (hw : Wf s) (ho : s.owner i = none) (hd : (s.buf i).dev < NDISK) :
    (s.buf i).valid = true := by
  by_contra hv
  obtain ⟨-, p, hp | hp⟩ := (hw.fine i).invalid hd (by simpa using hv)
  · rw [ho] at hp; cases hp
  · rw [ho] at hp; cases hp

theorem Wf.owner_none (hw : Wf s) (hb : (s.buf i).busy = false) : s.owner i = none := by
  have := (hw.fine i).busy
  rw [hb] at this
  exact Option.isNone_iff_eq_none.1 (by simpa using this.symm)

theorem wf_hit (hw : Wf s) (hd : (s.buf i).dev < NDISK) (hb : (s.buf i).busy = false) :
    Wf (s.grab p i { s.buf i with busy := true }) := by
  have hF := hw.fine i
  have ho := hw.owner_none hb
  have hv := hw.valid_of_free ho hd
  rw [ho] at hF
  refine (hw.set { s.buf i with busy := true } (some (p, .got)) rfl rfl hd rfl ?_).pc _
  exact ⟨rfl, fun _ => hd, fun _ hv' => flag_clash hv hv', fun _ _ _ => hF.unseen hd hv trivial,
    fun _ _ hc _ => hF.clean hd hv hc nofun, fun hq => by
      obtain ⟨q, ⟨h, -⟩ | ⟨h, -⟩⟩ := hF.queued hq
      · cases h
      · cases h⟩

theorem wf_recycle (hw : Wf s) (hd : dev < NDISK)
    (hmiss : ∀ j, ¬ ((s.buf j).dev = dev ∧ (s.buf j).blockno = b))
    (hb : (s.buf i).busy = false) (hc : (s.buf i).dirty = false) :
    Wf (s.grab p i ⟨dev, b, true, false, false, (s.buf i).data⟩) := by
  have hF := hw.fine i
  have ho := hw.owner_none hb
  rw [ho] at hF
  have hnq : i ∉ s.queue := fun hq => by
    obtain ⟨q, ⟨h, -⟩ | ⟨h, -⟩⟩ := hF.queued hq
    · cases h
    · cases h
  refine Wf.pc ?_ _
  have hself : ∀ o x, ((s.setBuf i x).setOwner i o).buf i = x := fun _ _ => update_self ..
  have hother : ∀ o x j, j ≠ i → ((s.setBuf i x).setOwner i o).buf j = s.buf j := fun _ _ _ hj =>
    update_of_ne hj ..
  refine ⟨hw.ring, fun j k hj hjd hjb => ?_, hw.nodup, fun j => ?_, fun dev' b' hd' hnone => ?_⟩
  · by_cases hji : j = i
    · by_cases hki : k = i
      · rw [hji, hki]
      · rw [hji, hself] at hjd hjb
        rw [hother _ _ _ hki] at hjd hjb
        exact absurd ⟨hjd, hjb⟩ (hmiss k)
    · rw [hother _ _ _ hji] at hj hjd hjb
      by_cases hki : k = i
      · rw [hki, hself] at hjd hjb
        exact absurd ⟨hjd.symm, hjb.symm⟩ (hmiss j)
      · rw [hother _ _ _ hki] at hjd hjb
        exact hw.uniq j k hj hjd hjb
  · by_cases hji : j = i
    · rw [hji, hself, show ((s.setBuf i _).setOwner i _).owner i = _ from update_self ..]
      exact ⟨rfl, fun _ => hd, fun _ _ => ⟨rfl, p, .inl rfl⟩, nofun, nofun, fun hq => absurd hq hnq⟩
    · rw [hother _ _ _ hji, show ((s.setBuf i _).setOwner i _).owner j = s.owner j from
        update_of_ne hji ..]
      exact hw.fine j
  · show s.view dev' b' = s.disk dev' b'
    by_cases hold : (s.buf i).dev = dev' ∧ (s.buf i).blockno = b'
    · -- what it held was clean
      obtain ⟨rfl, rfl⟩ := hold
      have hv := hw.valid_of_free ho hd'
      rw [← hF.unseen hd' hv trivial, hF.clean hd' hv hc nofun]
    · refine hw.stored dev' b' hd' fun j hjd hjb => ?_
      have hji : j ≠ i := by rintro rfl; exact hold ⟨hjd, hjb⟩
      have := hnone j (by rw [hother _ _ _ hji, hjd]) (by rw [hother _ _ _ hji, hjb])
      rwa [hother _ _ _ hji] at this

theorem Wf.real {u : Nat × Stage} (hw : Wf s) (ho : s.owner i = some u) : (s.buf i).dev < NDISK :=
  (hw.fine i).real (.inl (by rw [ho]; rfl))

theorem Wf.valid_of_held (hw : Wf s) (ho : s.owner i = some (p, .held c)) :
    (s.buf i).valid = true := by
  by_contra hv
  obtain ⟨-, q, hq | hq⟩ := (hw.fine i).invalid (hw.real ho) (by simpa using hv)
  · rw [ho] at hq; cases hq
  · rw [ho] at hq; cases hq

theorem Wf.not_queued (hw : Wf s)
    (ho : s.owner i = some (p, .got) ∨ s.owner i = some (p, .held c)) : i ∉ s.queue := by
  intro hq
  obtain ⟨q, ⟨h, -⟩ | ⟨h, -⟩⟩ := (hw.fine i).queued hq
  · rcases ho with ho | ho <;> rw [ho] at h <;> cases h
  · rcases ho with ho | ho <;> rw [ho] at h <;> cases h

theorem setBuf_same (s : Cache) (i : Fin NBUF) : s.setBuf i (s.buf i) = s := by
  unfold Cache.setBuf
  rw [Function.update_eq_self]

section

variable (hw : Wf s)
include hw

theorem Wf.setOwner (o : Option (Nat × Stage)) (hreal : (s.buf i).dev < NDISK)
    (hfine : Fine s.disk s.view (s.buf i) o (i ∈ s.queue)) : Wf (s.setOwner i o) := by
  have := hw.set (s.buf i) o rfl rfl hreal rfl hfine
  rwa [setBuf_same] at this

theorem Wf.held (ho : s.owner i = some (p, .held c)) :
    Fine s.disk s.view (s.buf i) (some (p, .held c)) (i ∈ s.queue) ∧
    (s.buf i).dev < NDISK ∧ (s.buf i).valid = true ∧ i ∉ s.queue :=
  ⟨ho ▸ hw.fine i, hw.real ho, hw.valid_of_held ho, hw.not_queued (.inr ho)⟩

theorem wf_enter (h : enter havedisk1 s p = .ok s') : Wf s' := by
  obtain ⟨i, -, ho, ⟨hv, rfl⟩ | ⟨hv, rfl⟩⟩ := enter_cases h
  · have hF := hw.fine i
    have hd := hw.real ho
    have hnq := hw.not_queued (c := false) (.inl ho)
    rw [ho] at hF
    refine (hw.setOwner _ hd ?_).pc _
    exact ⟨hF.busy, fun _ => hd, fun _ hv' => flag_clash hv hv', nofun,
      fun hd hv hc _ => hF.clean hd hv hc nofun, fun hq => absurd hq hnq⟩
  · have hF := hw.fine i
    have hd := hw.real ho
    have hnq := hw.not_queued (c := false) (.inl ho)
    rw [ho] at hF
    have hfine : Fine s.disk s.view (s.buf i) (some (p, .reading)) True :=
      ⟨hF.busy, fun _ => hd, fun hd hv => ⟨(hF.invalid hd hv).1, p, .inr rfl⟩,
        fun _ hv' => flag_clash hv' hv,
        fun _ hv' => flag_clash hv' hv, fun _ => ⟨p, .inl ⟨rfl, hv⟩⟩⟩
    have hset := hw.setOwner (some (p, .reading)) hd ⟨hfine.busy, hfine.real, hfine.invalid,
      hfine.unseen, hfine.clean, fun hq => absurd hq hnq⟩
    refine hset.enqueue hnq hd ?_
    rw [show (s.setOwner i (some (p, .reading))).owner i = _ from update_self ..]
    exact hfine

theorem wf_finish (h : finish s p = .ok s') : Wf s' := by
  obtain ⟨i, -, ho, hv, hc, rfl⟩ := finish_cases h
  have hF := hw.fine i
  have hd : (s.buf i).dev < NDISK := by
    rcases ho with ho | ho
    · exact hw.real ho
    · exact hw.real ho
  have hsome : (s.owner i).isSome = true := by rcases ho with ho | ho <;> rw [ho] <;> rfl
  refine (hw.setOwner _ hd ?_).pc _
  refine ⟨hF.busy.trans hsome, fun _ => hd, fun _ hv' => flag_clash hv hv', nofun,
    fun hd hv hc _ => ?_, fun hq => ?_⟩
  · exact hF.clean hd hv hc fun q hq => by rcases ho with ho | ho <;> rw [ho] at hq <;> cases hq
  · obtain ⟨q, ⟨-, hv'⟩ | ⟨-, hc'⟩⟩ := hF.queued hq
    · rw [hv] at hv'; cases hv'
    · rw [hc] at hc'; cases hc'

theorem wf_modify (h : modify s p i f = .ok s') : Wf s' := by
  obtain ⟨hh, rfl⟩ := modify_cases h
  obtain ⟨c, ho⟩ := hh.owner
  obtain ⟨hF, hd, hv, hnq⟩ := hw.held ho
  refine hw.set { s.buf i with data := f (s.buf i).data } _ rfl rfl hd rfl ?_
  exact ⟨hF.busy, fun _ => hd, fun _ hv' => flag_clash hv hv', nofun,
    fun _ _ _ hne => absurd rfl (hne p), fun hq => absurd hq hnq⟩

theorem wf_logWrite (h : logWrite s p i = .ok s') : Wf s' := by
  obtain ⟨hh, rfl⟩ := logWrite_cases h
  obtain ⟨c, ho⟩ := hh.owner
  obtain ⟨hF, hd, hv, hnq⟩ := hw.held ho
  refine hw.set { s.buf i with dirty := true } _ rfl rfl hd rfl ?_
  exact ⟨hF.busy, fun _ => hd, fun _ hv' => flag_clash hv hv', nofun,
    fun _ _ hc => (nomatch hc), fun hq => absurd hq hnq⟩

theorem wf_bwrite (h : bwrite havedisk1 s p i = .ok s') : Wf s' := by
  obtain ⟨hh, rfl⟩ := bwrite_cases h
  obtain ⟨c, ho⟩ := hh.owner
  obtain ⟨hF, hd, hv, hnq⟩ := hw.held ho
  have hfine : Fine s.disk s.view { s.buf i with dirty := true } (some (p, .writing)) True :=
    ⟨hF.busy, fun _ => hd, fun _ hv' => flag_clash hv hv', nofun,
      fun _ _ hc => (nomatch hc), fun _ => ⟨p, .inr ⟨rfl, rfl⟩⟩⟩
  have hset := hw.set { s.buf i with dirty := true } (some (p, .writing)) rfl rfl hd rfl
    ⟨hfine.busy, hfine.real, hfine.invalid, hfine.unseen, hfine.clean, fun hq => absurd hq hnq⟩
  have hbuf : ((s.setBuf i { s.buf i with dirty := true }).setOwner i (some (p, .writing))).buf i =
      { s.buf i with dirty := true } :=
    update_self ..
  refine (hset.enqueue hnq (by rw [hbuf]; exact hd) ?_).pc _
  rw [hbuf, show ((s.setBuf i _).setOwner i (some (p, .writing))).owner i = _ from update_self ..]
  exact hfine

theorem wf_ideintr (h : ideintr s = .ok s') : Wf s' := by
  rcases ideintr_cases h with rfl | ⟨i, q, hq, rfl⟩
  · exact hw
  have hnodup := hw.nodup
  rw [hq, List.nodup_cons] at hnodup
  have hF := hw.fine i
  have hmem : i ∈ s.queue := by rw [hq]; exact List.mem_cons_self ..
  have hqueue : ∀ j, j ≠ i → (j ∈ q ↔ j ∈ s.queue) := fun j hj => by simp [hq, hj]
  obtain ⟨p, ⟨ho, hv⟩ | ⟨ho, hc⟩⟩ := hF.queued hmem
  · -- a read
    have hd := hw.real ho
    rw [Cache.transfer, (hF.invalid hd hv).1, if_neg Bool.false_ne_true]
    have hself : ({ s.fetch i with queue := q } : Cache).buf i =
        { s.buf i with valid := true, data := s.disk (s.buf i).dev (s.buf i).blockno } :=
          update_self ..
    refine hw.touch (i := i) hw.ring (fun j hj => update_of_ne hj ..) (fun _ _ => rfl) hqueue
      hnodup.2 (by rw [hself])
      (by rw [hself]) hd (fun _ _ _ => ⟨rfl, rfl⟩) ?_ fun hv' => ?_
    · rw [hself, show ({ s.fetch i with queue := q } : Cache).owner i = _ from ho]
      refine ⟨by rw [← ho]; exact hF.busy, fun _ => hd, nofun, fun _ _ _ => ?_, fun _ _ _ _ => rfl,
        fun hq => absurd hq hnodup.1⟩
      refine (hw.stored _ _ hd fun j hjd hjb => ?_).symm
      rw [hw.uniq i j hd hjd hjb]
      exact hv
    · rw [hself] at hv'
      cases hv'
  · -- a write
    have hd := hw.real ho
    rw [Cache.transfer, hc, if_pos rfl]
    have hself : ({ s.flush i with queue := q } : Cache).buf i =
        { s.buf i with valid := true, dirty := false } :=
      update_self ..
    refine hw.touch (i := i) hw.ring (fun j hj => update_of_ne hj ..) (fun _ _ => rfl) hqueue
      hnodup.2 (by rw [hself])
      (by rw [hself]) hd (fun dev b hne => ⟨update_update_ne _ _ hne, rfl⟩) ?_ fun hv' => ?_
    · rw [hself, show ({ s.flush i with queue := q } : Cache).owner i = _ from ho]
      refine ⟨by rw [← ho]; exact hF.busy, fun _ => hd, nofun, nofun, fun _ _ _ _ => ?_,
        fun hq => absurd hq hnodup.1⟩
      show (s.buf i).data = update s.disk (s.buf i).dev _ (s.buf i).dev (s.buf i).blockno
      rw [update_self, update_self]
    · rw [hself] at hv'
      cases hv'

theorem wf_brelse (h : brelse s p i = .ok s') : Wf s' := by
  obtain ⟨ho, rfl⟩ := brelse_cases h
  refine Wf.pc ?_ _
  obtain ⟨hF, hd, hv, hnq⟩ := hw.held ho
  have hself : (s.release i).buf i = { s.buf i with busy := false } := update_self ..
  have howner : (s.release i).owner i = none := update_self ..
  refine hw.touch (i := i) ?_ (fun j hj => update_of_ne hj ..) (fun j hj => update_of_ne hj ..)
    (fun _ _ => Iff.rfl)
    hw.nodup (by rw [hself]) (by rw [hself]) hd (fun dev b hne =>
      ⟨rfl, update_update_ne _ _ hne⟩) ?_ fun hv' => ?_
  · obtain ⟨l, hl, hall⟩ := hw.ring
    obtain ⟨l1, l2, rfl⟩ := List.append_of_mem (hall i)
    refine ⟨i :: (l1 ++ l2), ?_, fun j => ?_⟩
    · rw [List.map_append, List.map_cons] at hl
      rw [List.map_cons, List.map_append]
      exact hl.toFront
    · have := hall j
      simp only [List.mem_append, List.mem_cons] at this ⊢
      tauto
  · rw [hself, howner]
    refine ⟨rfl, fun hor => hd, fun _ hv' => flag_clash hv hv', fun _ _ _ => ?_,
      fun _ hv hc _ => hF.clean hd hv hc nofun, fun hq => absurd hq hnq⟩
    show (s.buf i).data = (update s.left (s.buf i).dev _ (s.buf i).dev (s.buf i).blockno).getD _
    rw [update_self, update_self]
    rfl
  · rw [hself] at hv'
    rw [show (s.buf i).valid = false from hv'] at hv
    cases hv

end

variable {e : Ev}

theorem wf_step (hw : Wf s) (h : step havedisk1 s e = .ok s') : Wf s' := by
  cases e with
  | scan p dev b =>
    obtain ⟨hd, ⟨i, rfl⟩ | ⟨i, rfl, -, hb, rfl⟩ | ⟨i, hmiss, hb, hc, rfl⟩⟩ := scan_cases hw h
    · exact hw.pc _
    · exact wf_hit hw hd hb
    · exact wf_recycle hw hd hmiss hb hc
  | enter p => exact wf_enter hw h
  | ideintr => exact wf_ideintr hw h
  | finish p => exact wf_finish hw h
  | modify p i f => exact wf_modify hw h
  | logWrite p i => exact wf_logWrite hw h
  | bwrite p i => exact wf_bwrite hw h
  | brelse p i => exact wf_brelse hw h
  | kill p =>
    obtain ⟨c, rfl⟩ := kill_cases h
    exact hw.pc _

theorem wf_run {disk : Nat → Nat → Block} :
    ∀ {tr : List Ev} {s : Cache}, run havedisk1 disk tr = .ok s → Wf s
  | [], s, h => by
    cases h
    exact wf_binit disk
  | e :: tr, s', h => by
    simp only [run, bind, Except.bind] at h
    split at h
    · cases h
    · rename_i s hs
      exact wf_step (wf_run hs) h

/-! ## Assignments and data -/

/-- A step that leaves buffers with their blocks. -/
def Stays (s s' : Cache) : Prop :=
  ∀ i, (s'.buf i).dev = (s.buf i).dev ∧ (s'.buf i).blockno = (s.buf i).blockno

theorem stays_set (hd : x.dev = (s.buf j).dev) (hb : x.blockno = (s.buf j).blockno)
    (hbuf : s'.buf = update s.buf j x) :
    Stays s s' := by
  intro i
  by_cases hi : i = j
  · rw [hbuf, hi, update_self]
    exact ⟨hd, hb⟩
  · rw [hbuf, update_of_ne hi]
    exact ⟨rfl, rfl⟩

theorem stays_same (hbuf : s'.buf = s.buf) : Stays s s' := fun i => by rw [hbuf]; exact ⟨rfl, rfl⟩

/-- Only an idle and clean buffer gets another block, in `bget`. -/
theorem stays_step (hw : Wf s) (h : step havedisk1 s e = .ok s')
    (hi : (s.buf i).busy = true ∨ (s.buf i).dirty = true) :
    (s'.buf i).dev = (s.buf i).dev ∧ (s'.buf i).blockno = (s.buf i).blockno := by
  cases e with
  | scan p dev b =>
    obtain ⟨hd, ⟨j, rfl⟩ | ⟨j, rfl, -, hb, rfl⟩ | ⟨j, -, hb, hc, rfl⟩⟩ := scan_cases hw h
    · exact stays_same rfl i
    · exact stays_set (s := s) (j := j) (x := { s.buf j with busy := true }) rfl rfl rfl i
    · have hij : i ≠ j := by
        rintro rfl
        rcases hi with hi | hi
        · exact flag_clash hi hb
        · exact flag_clash hi hc
      rw [show (s.grab p j _).buf i = s.buf i from update_of_ne hij ..]
      exact ⟨rfl, rfl⟩
  | enter p =>
    obtain ⟨j, -, -, ⟨-, rfl⟩ | ⟨-, rfl⟩⟩ := enter_cases h
    · exact stays_same rfl i
    · exact stays_same rfl i
  | ideintr =>
    rcases ideintr_cases h with rfl | ⟨j, q, -, rfl⟩
    · exact stays_same rfl i
    · show ((s.transfer j).buf i).dev = _ ∧ ((s.transfer j).buf i).blockno = _
      unfold Cache.transfer
      split
      · exact stays_set (s := s) (j := j)
          (x := { s.buf j with valid := true, dirty := false }) rfl rfl rfl i
      · exact stays_set (s := s) (j := j)
          (x := { s.buf j with valid := true, data := _ }) rfl rfl rfl i
  | finish p =>
    obtain ⟨j, -, -, -, -, rfl⟩ := finish_cases h
    exact stays_same rfl i
  | modify p j f =>
    obtain ⟨-, rfl⟩ := modify_cases h
    exact stays_set (s := s) (j := j) (x := { s.buf j with data := f (s.buf j).data }) rfl rfl rfl i
  | logWrite p j =>
    obtain ⟨-, rfl⟩ := logWrite_cases h
    exact stays_set (s := s) (j := j) (x := { s.buf j with dirty := true }) rfl rfl rfl i
  | bwrite p j =>
    obtain ⟨-, rfl⟩ := bwrite_cases h
    exact stays_set (s := s) (j := j) (x := { s.buf j with dirty := true }) rfl rfl rfl i
  | brelse p j =>
    obtain ⟨-, rfl⟩ := brelse_cases h
    exact stays_set (s := s) (j := j) (x := { s.buf j with busy := false }) rfl rfl rfl i
  | kill p =>
    obtain ⟨c, rfl⟩ := kill_cases h
    exact stays_same rfl i

theorem scan_block (hw : Wf s) (h : scan s p dev b = .ok s') (hpc : s'.pc p = .call i) :
    (s'.buf i).dev = dev ∧ (s'.buf i).blockno = b := by
  have hgrab : ∀ j x, (s.grab p j x).pc p = .call i → j = i := fun j x hj => by
    rw [show (s.grab p j x).pc p = .call j from update_self ..] at hj
    cases hj
    rfl
  obtain ⟨-, ⟨j, rfl⟩ | ⟨j, hjd, hjb, -, rfl⟩ | ⟨j, -, -, -, rfl⟩⟩ := scan_cases hw h
  · rw [show (s.setPc p _).pc p = _ from update_self ..] at hpc
    cases hpc
  · obtain rfl := hgrab j _ hpc
    rw [show (s.grab p j _).buf j = _ from update_self ..]
    exact ⟨hjd, hjb⟩
  · obtain rfl := hgrab j _ hpc
    rw [show (s.grab p j _).buf j = _ from update_self ..]
    exact ⟨rfl, rfl⟩

/-- In this step `bread` returns buffer `i` to process `p`. -/
def Cache.returns (s : Cache) (e : Ev) (p : Nat) (i : Fin NBUF) : Prop :=
  s.pc p = .call i ∧
    (e = .enter p ∧ s.owner i = some (p, .got) ∧ (s.buf i).valid = true ∨
      e = .finish p ∧ s.owner i = some (p, .reading))

theorem returns_view (hw : Wf s) (h : step havedisk1 s e = .ok s') (hr : s.returns e p i) :
    (s'.buf i).data = s.view (s.buf i).dev (s.buf i).blockno := by
  obtain ⟨hpc, ⟨rfl, ho, hv⟩ | ⟨rfl, ho⟩⟩ := hr
  · obtain ⟨j, hj, -, ⟨-, rfl⟩ | ⟨hv', -⟩⟩ := enter_cases h
    · have hF := hw.fine i
      rw [ho] at hF
      exact hF.unseen (hw.real ho) hv trivial
    · obtain rfl : i = j := by rw [hpc] at hj; cases hj; rfl
      exact flag_clash hv hv'
  · obtain ⟨j, hj, -, hv, -, rfl⟩ := finish_cases h
    obtain rfl : i = j := by rw [hpc] at hj; cases hj; rfl
    have hF := hw.fine i
    rw [ho] at hF
    exact hF.unseen (hw.real ho) hv trivial

/-- **The buffer cache is correct**, in every state that any number of processes reach: the list is
one circle of all buffers; two buffers are for different blocks; a buffer that is busy or dirty
keeps its block; and `bread` returns a buffer for the block asked for, with the data that its last
holder left or, if there was none, the data on the disk. -/
theorem buffer_cache {disk : Nat → Nat → Block} {tr : List Ev} (h : run havedisk1 disk tr = .ok s) :
    (∃ l : List (Fin NBUF), Dlist s.links none (l.map some) ∧ ∀ i, i ∈ l) ∧
    (∀ i j, (s.buf i).dev < NDISK → (s.buf j).dev = (s.buf i).dev →
      (s.buf j).blockno = (s.buf i).blockno → j = i) ∧
    (∀ e s' i, step havedisk1 s e = .ok s' → (s.buf i).busy = true ∨ (s.buf i).dirty = true →
      (s'.buf i).dev = (s.buf i).dev ∧ (s'.buf i).blockno = (s.buf i).blockno) ∧
    (∀ p dev b s' i, scan s p dev b = .ok s' → s'.pc p = .call i →
      (s'.buf i).dev = dev ∧ (s'.buf i).blockno = b) ∧
    ∀ e s' p i, step havedisk1 s e = .ok s' → s.returns e p i →
      (s'.buf i).data = (s.left (s.buf i).dev (s.buf i).blockno).getD
        (s.disk (s.buf i).dev (s.buf i).blockno) := by
  have hw := wf_run h
  exact ⟨hw.ring, hw.uniq, fun _ _ _ hstep hi => stays_step hw hstep hi, fun _ _ _ _ _ hscan hpc =>
    scan_block hw hscan hpc, fun _ _ _ _ hstep hr => returns_view hw hstep hr⟩

/-- Process 0 reads block 7 and changes it, process 1 is given the buffer. -/
def passOn : List Ev :=
  [.scan 1 0 7, .brelse 0 0, .logWrite 0 0, .modify 0 0 fun _ => Bytes.zero, .finish 0, .ideintr,
    .enter 0, .scan 0 0 7]

theorem buffer_cache_passOn : ∃ s, run false (fun _ _ => Bytes.zero) passOn = .ok s ∧
    s.returns (.enter 1) 1 0 ∧
    ∀ s', step false s (.enter 1) = .ok s' → (s'.buf 0).data = (s.left 0 7).getD (s.disk 0 7) := by
  have hrun : (run false (fun _ _ => Bytes.zero) passOn).toOption.map (fun s =>
      (s.pc 1, s.owner 0, (s.buf 0).valid, (s.buf 0).dev, (s.buf 0).blockno)) =
      some (.call 0, some (1, .got), true, 0, 7) := by decide +kernel
  obtain ⟨s, hs, hfields⟩ := Prog.ok_of_map hrun
  simp only [Prod.mk.injEq] at hfields
  obtain ⟨hpc, ho, hv, hd, hb⟩ := hfields
  have hr : s.returns (.enter 1) 1 0 := ⟨hpc, .inl ⟨rfl, ho, hv⟩⟩
  refine ⟨s, hs, hr, fun s' hstep => ?_⟩
  have := (buffer_cache hs).2.2.2.2 _ _ _ _ hstep hr
  rwa [hd, hb] at this

end Os4.Log.Buffers
