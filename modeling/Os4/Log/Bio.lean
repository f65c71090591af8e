import Os4.Lib.Wp
import Os4.Param
/-!
# Buffer cache (bio.c)

| here | there |
| --- | --- |
| `Buf`    | `struct buf` (buf.h); the flags are `B_BUSY`, `B_VALID`, `B_DIRTY` |
| `Bio.lru`| the list through `bcache.head`, most recently used first |
| `bget`   | bio.c:64-97 (a busy buffer is waited for: the step is `disabled` until it is released) |
| `iderw`  | ide.c:136-167 with its interrupt, one atomic block transfer |
| `bread`, `bwrite`, `brelse` | bio.c:100-141 |

`view s b` is what `bread` hands out for block `b`: the cached copy, or the disk block.
`WF own` says that the cache is coherent up to the buffers in `own`, the ones whose holder has
changed them and not yet written or logged them.
-/
namespace Os4.Log

open Prog (wp_bind wp_get wp_seq)

/-- Why a step is not taken: the process is not there or has to wait, or the kernel panics. -/
inductive Stop where
  | disabled
  /-- `log_write`: too big a transaction -/
  | tooBig
  /-- `log_write` outside of trans -/
  | outsideTrans
  /-- `end_op`: log.committing -/
  | committing
  /-- `bget`: no buffers -/
  | noBuffers
  | iderw
  | bwrite
  | brelse
deriving DecidableEq, Repr

structure Buf where
  dev : Nat
  blockno : Nat
  busy : Bool
  valid : Bool
  dirty : Bool
  data : Block

/-- The disk and the cache in front of it. -/
structure Bio where
  disk : Disk
  buf : Fin NBUF → Buf
  lru : List (Fin NBUF)

abbrev BioM := Prog Bio Stop

/-- `binit`: no buffer names a block of a device (`b->dev = -1`). -/
def binit (d : Disk) : Bio where
  disk := d
  buf := fun _ => ⟨2 ^ 32 - 1, 0, false, false, false, Bytes.zero⟩
  lru := List.finRange NBUF

variable (s : Bio)

def Bio.setBuf (i : Fin NBUF) (b : Buf) : Bio := { s with buf := Function.update s.buf i b }

def Buf.holds (x : Buf) (dev b : Nat) : Bool := x.dev == dev && x.blockno == b

def bget (dev b : Nat) : BioM (Fin NBUF) := do
  let s ← get
  match s.lru.find? fun i => (s.buf i).holds dev b with
  | some i =>
    if (s.buf i).busy then throw .disabled
    else
      set (s.setBuf i { s.buf i with busy := true })
      return i
  | none =>
    -- recycle the least recently used buffer that is neither busy nor dirty
    match s.lru.reverse.find? fun i => !(s.buf i).busy && !(s.buf i).dirty with
    | some i =>
      set (s.setBuf i ⟨dev, b, true, false, false, (s.buf i).data⟩)
      return i
    | none => throw .noBuffers

def iderw (i : Fin NBUF) : BioM Unit := do
  let s ← get
  let x := s.buf i
  if !x.busy then throw .iderw
  else if x.valid && !x.dirty then throw .iderw
  else if x.dirty then
    set { s.setBuf i { x with dirty := false, valid := true } with
          disk := Function.update s.disk x.blockno x.data }
  else set (s.setBuf i { x with valid := true, data := s.disk x.blockno })

def bread (dev b : Nat) : BioM (Fin NBUF) := do
  let i ← bget dev b
  let s ← get
  if (s.buf i).valid then return i
  else
    iderw i
    return i

def bwrite (i : Fin NBUF) : BioM Unit := do
  let s ← get
  if !(s.buf i).busy then throw .bwrite
  else
    set (s.setBuf i { s.buf i with dirty := true })
    iderw i

def brelse (i : Fin NBUF) : BioM Unit := do
  let s ← get
  if !(s.buf i).busy then throw .brelse
  else set { s.setBuf i { s.buf i with busy := false } with lru := i :: s.lru.erase i }

/-- Store into `b->data`. -/
def setData (i : Fin NBUF) (x : Block) : BioM Unit :=
  modify fun s => s.setBuf i { s.buf i with data := x }

/-- `b->flags |= B_DIRTY`, the end of `log_write` (log.c:229). -/
def setDirty (i : Fin NBUF) : BioM Unit :=
  modify fun s => s.setBuf i { s.buf i with dirty := true }

/-- The end of the loop bodies of `install_trans` and `write_log`, with both buffers held: copy
`src` over `dst`, write `dst`, release both. -/
def copyHeld (src dst : Fin NBUF) : BioM Unit := do
  setData dst ((← get).buf src).data
  bwrite dst
  brelse src
  brelse dst

/-- The loop body of `install_trans` (log.c:74-81): log block `l` goes to its home `h`. -/
def installBlock (dev l h : Nat) : BioM Unit := do
  let lbuf ← bread dev l
  let dbuf ← bread dev h
  copyHeld lbuf dbuf

/-- The loop body of `write_log` (log.c:180-187): cached block `h` goes to log block `l`. -/
def logBlock (dev l h : Nat) : BioM Unit := do
  let dst ← bread dev l
  let src ← bread dev h
  copyHeld src dst

/-! ## What the cache stands for -/

/-- Buffer `i` is assigned to block `b` of the disk. -/
def Bio.Cached (b : Nat) (i : Fin NBUF) : Prop := (s.buf i).dev = ROOTDEV ∧ (s.buf i).blockno = b

/-- The contents of block `b` as the kernel sees it. -/
def Bio.view (b : Nat) : Block :=
  match (List.finRange NBUF).find? fun i => (s.buf i).holds ROOTDEV b with
  | some i => (s.buf i).data
  | none => s.disk b

structure Bio.WF (s : Bio) (own : Fin NBUF → Prop) : Prop where
  mem : ∀ i, i ∈ s.lru
  uniq : ∀ {i j b}, s.Cached b i → s.Cached b j → i = j
  valid : ∀ {i b}, s.Cached b i → (s.buf i).valid = true
  /-- a buffer that is neither dirty nor being changed repeats the disk -/
  clean : ∀ {i b}, s.Cached b i → (s.buf i).dirty = false → ¬ own i → (s.buf i).data = s.disk b
  busy : ∀ {i}, own i → (s.buf i).busy = true

variable {s s' : Bio} {own : Fin NBUF → Prop} {b c : Nat} {i j : Fin NBUF}

theorem holds_iff : (s.buf i).holds ROOTDEV b = true ↔ s.Cached b i := by
  simp [Buf.holds, Bio.Cached]

theorem cached_of_find {l : List (Fin NBUF)}
    (h : l.find? (fun i => (s.buf i).holds ROOTDEV b) = some i) : s.Cached b i := by
  have := List.find?_some h
  exact holds_iff.1 this

theorem view_of_cached (h : s.WF own) (hc : s.Cached b i) : s.view b = (s.buf i).data := by
  unfold Bio.view
  split
  · next j hj => rw [h.uniq (cached_of_find hj) hc]
  · next hn =>
      exact absurd (holds_iff.2 hc)
        (by simpa using List.find?_eq_none.1 hn i (List.mem_finRange i))

theorem view_of_not_cached (h : ∀ i, ¬ s.Cached b i) : s.view b = s.disk b := by
  unfold Bio.view
  split
  · next j hj => exact absurd (cached_of_find hj) (h j)
  · rfl

/-- Outside the dirty and the changing buffers the kernel sees the disk. -/
theorem view_eq_disk (h : s.WF own) (hb : ∀ i, s.Cached b i → (s.buf i).dirty = false ∧ ¬ own i) :
    s.view b = s.disk b := by
  by_cases hc : ∃ i, s.Cached b i
  · obtain ⟨i, hi⟩ := hc
    rw [view_of_cached h hi, h.clean hi (hb i hi).1 (hb i hi).2]
  · exact view_of_not_cached fun i hi => hc ⟨i, hi⟩

@[simp] theorem setBuf_self (s : Bio) (i : Fin NBUF) (x : Buf) : (s.setBuf i x).buf i = x := by
  simp [Bio.setBuf]

theorem setBuf_ne (s : Bio) (x : Buf) (h : j ≠ i) : (s.setBuf i x).buf j = s.buf j := by
  simp [Bio.setBuf, h]

@[simp] theorem setBuf_disk (s : Bio) (i : Fin NBUF) (x : Buf) : (s.setBuf i x).disk = s.disk := rfl

/-! ## Specifications -/

/-- What a `bread` of block `b` that returned buffer `i` has done. -/
structure Bio.Read (s : Bio) (b : Nat) (i : Fin NBUF) (s' : Bio) : Prop where
  disk : s'.disk = s.disk
  cached : s'.Cached b i
  busy : (s'.buf i).busy = true
  was : (s.buf i).busy = false
  frame : ∀ j, j ≠ i → s'.buf j = s.buf j
  view : ∀ c, s'.view c = s.view c
  dirty : (s'.buf i).dirty = true → s.Cached b i ∧ (s.buf i).dirty = true
  /-- a dirty buffer is not recycled -/
  keeps : (s.buf i).dirty = true → (s'.buf i).dirty = true

variable {x : Buf}

theorem cached_setBuf_ne (h : j ≠ i) : (s.setBuf i x).Cached c j ↔ s.Cached c j := by
  simp [Bio.Cached, setBuf_ne s x h]

/-- Only buffer `i` is touched, and it stays assigned to its block. -/
structure Bio.Touch (s : Bio) (i : Fin NBUF) (x : Buf) (s' : Bio) : Prop where
  self : s'.buf i = x
  frame : ∀ j, j ≠ i → s'.buf j = s.buf j
  dev : x.dev = (s.buf i).dev
  blockno : x.blockno = (s.buf i).blockno

theorem Bio.Touch.cached (t : s.Touch i x s') : s'.Cached c j ↔ s.Cached c j := by
  by_cases hj : j = i
  · subst hj; simp only [Bio.Cached, t.self, t.dev, t.blockno]
  · simp only [Bio.Cached, t.frame j hj]

theorem Bio.Touch.wf {own' : Fin NBUF → Prop} (t : s.Touch i x s') (h : s.WF own)
    (hc : s.Cached b i)
    (hm : ∀ j, j ∈ s'.lru) (hv : x.valid = true) (hdisk : ∀ c, c ≠ b → s'.disk c = s.disk c)
    (hown : ∀ j, j ≠ i → (own' j ↔ own j))
    (hclean : x.dirty = false → ¬ own' i → x.data = s'.disk b)
    (hbusy : own' i → x.busy = true) : s'.WF own' := by
  have hother : ∀ {c j}, s.Cached c j → j ≠ i → c ≠ b := by
    rintro c j hcj hj rfl; exact hj (h.uniq hcj hc)
  refine ⟨hm, fun h1 h2 => h.uniq (t.cached.1 h1) (t.cached.1 h2), fun {j c} h1 => ?_,
    fun {j c} h1 h2 h3 => ?_, fun {j} h1 => ?_⟩
  · by_cases hj : j = i
    · subst hj; rw [t.self]; exact hv
    · rw [t.frame j hj]; exact h.valid (t.cached.1 h1)
  · have hcj := t.cached.1 h1
    by_cases hj : j = i
    · subst hj
      obtain rfl : c = b := hcj.2.symm.trans hc.2
      rw [t.self] at h2 ⊢; exact hclean h2 h3
    · rw [t.frame j hj] at h2 ⊢
      rw [hdisk c (hother hcj hj)]
      exact h.clean hcj h2 fun ho => h3 ((hown j hj).2 ho)
  · by_cases hj : j = i
    · subst hj; rw [t.self]; exact hbusy h1
    · rw [t.frame j hj]; exact h.busy ((hown j hj).1 h1)

theorem Bio.Touch.view (t : s.Touch i x s') (h : s.WF own) (hc : s.Cached b i)
    (hdisk : ∀ c, c ≠ b → s'.disk c = s.disk c) (c : Nat) : s'.view c = if c = b then x.data
    else s.view c := by
  have hp : (fun j => (s'.buf j).holds ROOTDEV c) = fun j => (s.buf j).holds ROOTDEV c := by
    funext j
    exact Bool.eq_iff_iff.2 (holds_iff.trans (t.cached.trans holds_iff.symm))
  unfold Bio.view
  rw [hp]
  split
  · next j hj =>
    have hcj := cached_of_find hj
    by_cases hji : j = i
    · subst hji
      obtain rfl : c = b := hcj.2.symm.trans hc.2
      rw [t.self, if_pos rfl]
    · rw [t.frame j hji, if_neg (by rintro rfl; exact hji (h.uniq hcj hc))]
  · next hn =>
    have hcb : c ≠ b := by
      rintro rfl
      exact absurd (holds_iff.2 hc) (by simpa using List.find?_eq_none.1 hn i (List.mem_finRange i))
    rw [if_neg hcb, hdisk c hcb]

theorem touch_setBuf (hd : x.dev = (s.buf i).dev) (hb : x.blockno = (s.buf i).blockno) :
    s.Touch i x (s.setBuf i x) :=
  ⟨setBuf_self s i x, fun _ hj => setBuf_ne s x hj, hd, hb⟩

theorem read_hit (h : s.WF own) (hc : s.Cached b i) (hb : (s.buf i).busy = false) :
    (s.setBuf i { s.buf i with busy := true }).WF own ∧
    s.Read b i (s.setBuf i { s.buf i with busy := true }) := by
  have t : s.Touch i { s.buf i with busy := true } (s.setBuf i { s.buf i with busy := true }) :=
    touch_setBuf rfl rfl
  refine ⟨t.wf h hc h.mem (h.valid hc) (fun _ _ => rfl) (fun _ _ => Iff.rfl)
    (h.clean hc) fun _ => rfl,
    ⟨rfl, t.cached.2 hc, by rw [t.self], hb, t.frame, fun c => ?_,
      fun hd => ⟨hc, by rw [t.self] at hd; exact hd⟩, fun hd => by rw [t.self]; exact hd⟩⟩
  rw [t.view h hc (fun _ _ => rfl)]
  split
  · next e => rw [e, view_of_cached h hc]
  · rfl

/-- The block is not cached: a clean idle buffer is taken over and filled from the disk. -/
theorem read_miss (h : s.WF own) (hn : ∀ j, ¬ s.Cached b j) (hb : (s.buf i).busy = false)
    (hd : (s.buf i).dirty = false) :
    (s.setBuf i ⟨ROOTDEV, b, true, true, false, s.disk b⟩).WF own ∧
    s.Read b i (s.setBuf i ⟨ROOTDEV, b, true, true, false, s.disk b⟩) := by
  have hown : ¬ own i := fun ho => by have := h.busy ho; simp [hb] at this
  have hself : (s.setBuf i ⟨ROOTDEV, b, true, true, false, s.disk b⟩).Cached b i := by
    simp [Bio.Cached]
  have hcached : ∀ c j, (s.setBuf i ⟨ROOTDEV, b, true, true, false, s.disk b⟩).Cached c j →
      (j = i ∧ c = b) ∨ (j ≠ i ∧ s.Cached c j) := by
    intro c j hj
    by_cases hji : j = i
    · subst hji; left; simp only [Bio.Cached, setBuf_self] at hj; exact ⟨rfl, hj.2.symm⟩
    · right; exact ⟨hji, (cached_setBuf_ne hji).1 hj⟩
  have hwf : (s.setBuf i ⟨ROOTDEV, b, true, true, false, s.disk b⟩).WF own := by
    refine ⟨h.mem, fun {j k c} h1 h2 => ?_, fun {j c} h1 => ?_,
      fun {j c} h1 h2 h3 => ?_, fun {j} h1 => ?_⟩
    · rcases hcached c j h1 with ⟨rfl, rfl⟩ | ⟨hj, hj'⟩
        <;> rcases hcached c k h2 with ⟨rfl, hk⟩ | ⟨hk, hk'⟩
      · rfl
      · exact absurd hk' (hn k)
      · subst hk; exact absurd hj' (hn j)
      · exact h.uniq hj' hk'
    · rcases hcached c j h1 with ⟨rfl, rfl⟩ | ⟨hj, hj'⟩
      · simp
      · rw [setBuf_ne _ _ hj]; exact h.valid hj'
    · rcases hcached c j h1 with ⟨rfl, rfl⟩ | ⟨hj, hj'⟩
      · simp
      · rw [setBuf_ne _ _ hj] at h2 ⊢; exact h.clean hj' h2 h3
    · rw [setBuf_ne _ _ (by rintro rfl; exact hown h1)]; exact h.busy h1
  refine ⟨hwf, ⟨rfl, hself, by simp, hb, fun j hj => setBuf_ne _ _ hj, fun c => ?_,
    fun hd' => by simp at hd', fun hd' => by rw [hd] at hd'; cases hd'⟩⟩
  -- the block the buffer held before was clean, so the disk has it
  by_cases hcc : ∃ j, (s.setBuf i ⟨ROOTDEV, b, true, true, false, s.disk b⟩).Cached c j
  · obtain ⟨j, hj⟩ := hcc
    rw [view_of_cached hwf hj]
    rcases hcached c j hj with ⟨rfl, rfl⟩ | ⟨hji, hj'⟩
    · rw [view_of_not_cached hn]; simp
    · rw [setBuf_ne _ _ hji, view_of_cached h hj']
  · rw [view_of_not_cached fun j hj => hcc ⟨j, hj⟩]
    symm
    apply view_eq_disk h
    intro j hj
    by_cases hji : j = i
    · subst hji; exact ⟨hd, hown⟩
    · exact absurd ⟨j, (cached_setBuf_ne hji).2 hj⟩ hcc

/-- `bread` returns the block as the kernel sees it, or waits for its holder, or does not find it
and finds every buffer busy or dirty. -/
theorem bread_wp (h : s.WF own) (b : Nat) :
    (bread ROOTDEV b).wp (fun i s' => s'.WF own ∧ s.Read b i s')
      (fun e => (e = .disabled ∧ ∃ i, s.Cached b i ∧ (s.buf i).busy = true) ∨
        (e = .noBuffers ∧ (∀ i, ¬ s.Cached b i) ∧ ∀ i, (s.buf i).busy = true ∨
          (s.buf i).dirty = true)) s := by
  simp only [bread, bget, wp_bind, wp_get]
  cases hf : s.lru.find? fun i => (s.buf i).holds ROOTDEV b with
  | some i =>
    have hc := cached_of_find hf
    by_cases hb : (s.buf i).busy = true
    · simp only [hb, ↓reduceIte, Prog.wp_throw]
      exact Or.inl ⟨trivial, i, hc, hb⟩
    · have hb : (s.buf i).busy = false := by simpa using hb
      have hv : (s.buf i).valid = true := h.valid hc
      simp only [hb, Bool.false_eq_true, ↓reduceIte, wp_bind, Prog.wp_set,
        Prog.wp_pure, setBuf_self]
      rw [if_pos hv]
      exact read_hit h hc hb
  | none =>
    have hn : ∀ j, ¬ s.Cached b j := fun j hj =>
      absurd (holds_iff.2 hj) (by simpa using List.find?_eq_none.1 hf j (h.mem j))
    cases hr : s.lru.reverse.find? fun i => !(s.buf i).busy && !(s.buf i).dirty with
    | some i =>
      have hi := List.find?_some hr
      simp only [Bool.and_eq_true, Bool.not_eq_true'] at hi
      simp only [wp_bind, Prog.wp_set, Prog.wp_pure, setBuf_self, Bool.false_eq_true,
        ↓reduceIte, iderw, wp_get, Bool.not_true, Bool.false_and]
      have hset : ∀ x y : Buf, (s.setBuf i x).setBuf i y = s.setBuf i y := by
        intro x y; simp [Bio.setBuf]
      rw [hset, setBuf_disk]
      exact read_miss h hn hi.1 hi.2
    | none =>
      simp only [Prog.wp_throw]
      refine Or.inr ⟨trivial, hn, fun i => ?_⟩
      have := List.find?_eq_none.1 hr i (by simpa using h.mem i)
      cases hb : (s.buf i).busy
      · right; simpa [hb] using this
      · exact Or.inl rfl

/-- Storing `x` in block `d`, cache and disk: what is seen from outside. -/
structure Bio.Store (s : Bio) (d : Nat) (x : Block) (s' : Bio) : Prop where
  disk : s'.disk = Function.update s.disk d x
  view : ∀ c, s'.view c = if c = d then x else s.view c
  /-- no buffer becomes dirty, and `d`'s is clean -/
  dirty : ∀ i, (s'.buf i).dirty = true → (s.buf i).dirty = true ∧ ∀ c, s'.Cached c i →
    s.Cached c i ∧ c ≠ d
  busy : ∀ i, (s'.buf i).busy = true → (s.buf i).busy = true
  keeps : ∀ i c, s.Cached c i → c ≠ d → (s.buf i).dirty = true → s'.Cached c i ∧
    (s'.buf i).dirty = true
  still : ∀ i c, (s'.buf i).dirty = true → s.Cached c i → s'.Cached c i

/-- After `memmove` into buffer `i` and `bwrite`. -/
def Bio.stored (s : Bio) (i : Fin NBUF) (x : Block) : Bio :=
  { s.setBuf i { s.buf i with data := x, dirty := false, valid := true } with
    disk := Function.update s.disk (s.buf i).blockno x }

/-- After `brelse`. -/
def Bio.released (s : Bio) (i : Fin NBUF) : Bio :=
  { s.setBuf i { s.buf i with busy := false } with lru := i :: s.lru.erase i }

@[simp] theorem released_disk (s : Bio) (i : Fin NBUF) : (s.released i).disk = s.disk := rfl

variable {Q : Unit → Bio → Prop} {E : Stop → Prop}

theorem wp_store (hb : (s.buf i).busy = true) (x : Block) :
    (setData i x).wp (fun _ s1 => (bwrite i).wp Q E s1) E s ↔ Q () (s.stored i x) := by
  simp [setData, bwrite, iderw, hb, Bio.stored, Bio.setBuf]

theorem wp_brelse (hb : (s.buf i).busy = true) :
    (brelse i).wp Q E s ↔ Q () (s.released i) := by
  simp [brelse, hb, Bio.released]

variable {d : Nat}

/-- `memmove` into a held buffer, then `bwrite`. -/
theorem stored_spec (h : s.WF own) (hc : s.Cached d i) (hb : (s.buf i).busy = true) (ho : ¬ own i)
    (x : Block) : (s.stored i x).WF own ∧ s.Store d x (s.stored i x) ∧
      (∀ c j, (s.stored i x).Cached c j ↔ s.Cached c j) ∧
      ∀ j, ((s.stored i x).buf j).busy = (s.buf j).busy := by
  have t : s.Touch i { s.buf i with data := x, dirty := false, valid := true } (s.stored i x) :=
    ⟨setBuf_self _ _ _, fun _ hj => setBuf_ne _ _ hj, rfl, rfl⟩
  have hdisk : (s.stored i x).disk = Function.update s.disk d x := by rw [Bio.stored, hc.2]
  have hdisk' : ∀ c, c ≠ d → (s.stored i x).disk c = s.disk c := fun c hcd => by
    rw [hdisk, Function.update_of_ne hcd]
  have hbusy : ∀ j, ((s.stored i x).buf j).busy = (s.buf j).busy := by
    intro j
    by_cases hj : j = i
    · subst hj; rw [t.self]
    · rw [t.frame j hj]
  refine ⟨t.wf h hc h.mem rfl hdisk' (fun _ _ => Iff.rfl) (fun _ _ => by
    rw [hdisk, Function.update_self])
    fun h' => absurd h' ho, ⟨hdisk, t.view h hc hdisk', fun j hdj => ?_, fun j hj => hbusy j ▸ hj,
    fun j c hcj hcd hdj => ⟨t.cached.2 hcj, ?_⟩, fun _ _ _ => t.cached.2⟩,
    fun _ _ => t.cached, hbusy⟩
  · have hj : j ≠ i := by rintro rfl; rw [t.self] at hdj; simp at hdj
    refine ⟨by rwa [t.frame j hj] at hdj, fun c hcj => ⟨t.cached.1 hcj, ?_⟩⟩
    rintro rfl
    exact hj (h.uniq (t.cached.1 hcj) hc)
  · have hj : j ≠ i := by rintro rfl; exact hcd (hcj.2.symm.trans hc.2)
    rw [t.frame j hj]
    exact hdj

theorem released_spec (h : s.WF own) (hc : s.Cached d i) (ho : ¬ own i) :
    (s.released i).WF own ∧ (∀ c, (s.released i).view c = s.view c) ∧
    (∀ c j, (s.released i).Cached c j ↔ s.Cached c j) ∧
    (∀ j, ((s.released i).buf j).dirty = (s.buf j).dirty) ∧ ((s.released i).buf i).busy = false ∧
    ∀ j, j ≠ i → ((s.released i).buf j).busy = (s.buf j).busy := by
  have t : s.Touch i { s.buf i with busy := false } (s.released i) :=
    ⟨setBuf_self _ _ _, fun _ hj => setBuf_ne _ _ hj, rfl, rfl⟩
  refine ⟨t.wf h hc (fun j => ?_) (h.valid hc) (fun _ _ => rfl) (fun _ _ => Iff.rfl) (h.clean hc)
    (fun h' => absurd h' ho),
    fun c => ?_, fun _ _ => t.cached, fun j => ?_, by rw [t.self], fun j hj => by rw [t.frame j hj]⟩
  · by_cases hj : j = i
    · simp [Bio.released, hj]
    · exact List.mem_cons_of_mem _ ((List.mem_erase_of_ne hj).2 (h.mem j))
  · rw [t.view h hc (fun _ _ => rfl)]
    split
    · next e => rw [e, view_of_cached h hc]
    · rfl
  · by_cases hj : j = i
    · subst hj; rw [t.self]
    · rw [t.frame j hj]

theorem setData_spec (h : s.WF own) (hc : s.Cached d i) (hb : (s.buf i).busy = true) (x : Block) :
    (setData i x).wp (fun _ s' => s'.WF (fun j => own j ∨ j = i) ∧ s'.disk = s.disk ∧
      (∀ c, s'.view c = if c = d then x else s.view c) ∧ (∀ c j, s'.Cached c j ↔ s.Cached c j) ∧
      ∀ j, (s'.buf j).dirty = (s.buf j).dirty ∧ (s'.buf j).busy = (s.buf j).busy)
        (fun _ => False) s := by
  have t : s.Touch i { s.buf i with data := x } (s.setBuf i { s.buf i with data := x }) :=
    touch_setBuf rfl rfl
  refine ⟨t.wf h hc h.mem (h.valid hc) (fun _ _ => rfl) (fun j hj => by simp [hj])
    (fun _ h' => by simp at h') (fun _ => hb), rfl,
    t.view h hc (fun _ _ => rfl), fun _ _ => t.cached, fun j => ?_⟩
  by_cases hj : j = i
  · subst hj; rw [t.self]; exact ⟨rfl, rfl⟩
  · rw [t.frame j hj]; exact ⟨rfl, rfl⟩

/-- The holder of `i` pins it: what it stored is from now on accounted for by `B_DIRTY`. -/
theorem setDirty_spec (h : s.WF own) (hc : s.Cached d i) :
    (setDirty i).wp (fun _ s' => s'.WF (fun j => own j ∧ j ≠ i) ∧ s'.disk = s.disk ∧
      (∀ c, s'.view c = s.view c) ∧
      (∀ c j, s'.Cached c j ↔ s.Cached c j) ∧ (∀ j, j ≠ i → (s'.buf j).dirty = (s.buf j).dirty) ∧
      (∀ j, (s'.buf j).busy = (s.buf j).busy) ∧ (s'.buf i).dirty = true) (fun _ => False) s := by
  have t : s.Touch i { s.buf i with dirty := true } (s.setBuf i { s.buf i with dirty := true }) :=
    touch_setBuf rfl rfl
  refine ⟨t.wf h hc h.mem (h.valid hc) (fun _ _ => rfl) (fun j hj => by simp [hj])
    (fun h' => by simp at h') (fun h' => absurd rfl h'.2),
    rfl, fun c => ?_, fun _ _ => t.cached, fun j hj => by rw [t.frame j hj],
    fun j => ?_, by rw [t.self]⟩
  · rw [t.view h hc (fun _ _ => rfl)]
    split
    · next e => rw [e, view_of_cached h hc]
    · rfl
  · by_cases hj : j = i
    · subst hj; rw [t.self]
    · rw [t.frame j hj]

variable {s1 : Bio}

/-- A dirty buffer was dirty, for the same block, before a read. -/
theorem Bio.Read.dirty_back (h1 : s.Read b i s1) (hd : (s1.buf j).dirty = true) :
    (s.buf j).dirty = true ∧ ∀ c, s1.Cached c j → s.Cached c j := by
  by_cases hj : j = i
  · subst hj
    exact ⟨(h1.dirty hd).2, fun c hc => (h1.cached.2.symm.trans hc.2) ▸ (h1.dirty hd).1⟩
  · have e := h1.frame j hj
    exact ⟨by rwa [e] at hd, fun c hc => by simpa only [Bio.Cached, e] using hc⟩

theorem Bio.Read.stays (h1 : s.Read b i s1) (hc : s.Cached c j) (hd : (s.buf j).dirty = true) :
    s1.Cached c j ∧ (s1.buf j).dirty = true := by
  by_cases hj : j = i
  · subst hj
    have hd1 := h1.keeps hd
    obtain rfl : c = b := hc.2.symm.trans (h1.dirty hd1).1.2
    exact ⟨h1.cached, hd1⟩
  · have e := h1.frame j hj
    exact ⟨by simpa only [Bio.Cached, e] using hc, by rw [e]; exact hd⟩

theorem Bio.Read.not_own (h : s.WF own) (h1 : s.Read b i s1) : ¬ own i := fun ho => by
  have := h.busy ho; rw [h1.was] at this; simp at this

/-- Read a block, store `g` of it, release it: the shape of `write_head`. -/
theorem update_wp (h : s.WF own) (g : Block → Block) :
    (do
      let i ← bread ROOTDEV d
      setData i (g ((← get).buf i).data)
      bwrite i
      brelse i : BioM Unit).wp
      (fun _ s' => s'.WF own ∧ s.Store d (g (s.view d)) s')
      (fun e => (∃ i, (s.buf i).busy = true ∨ (s.buf i).dirty = true) ∧
        (e = .noBuffers → (∀ i, ¬ s.Cached d i) ∧ ∀ i, (s.buf i).busy = true ∨
          (s.buf i).dirty = true)) s := by
  refine wp_seq (bread_wp h d) (fun i s1 ⟨hw1, h1⟩ => ?_) fun e he => ?_
  · have ho := h1.not_own h
    simp only [wp_bind, wp_get]
    rw [← view_of_cached hw1 h1.cached, h1.view]
    obtain ⟨hw3, hs3, hc3, hb3⟩ := stored_spec hw1 h1.cached h1.busy ho (g (s.view d))
    obtain ⟨hw4, hv4, hc4, hdt4, hbi, hbj⟩ := released_spec hw3 ((hc3 _ _).2 h1.cached) ho
    refine (wp_store h1.busy _).2 ((wp_brelse (hb3 i ▸ h1.busy)).2
      ⟨hw4, ⟨?_, fun c => ?_, fun j hdj => ?_, fun j hj => ?_, fun j c hcj hcd hdj => ?_,
        fun j c hdj hcj => ?_⟩⟩)
    · rw [released_disk, hs3.disk, h1.disk]
    · rw [hv4, hs3.view, h1.view]
    · obtain ⟨hd3, hc3'⟩ := hs3.dirty j (hdt4 j ▸ hdj)
      obtain ⟨hd1, hc1⟩ := h1.dirty_back hd3
      exact ⟨hd1, fun c hc => ⟨hc1 c (hc3' c ((hc4 c j).1 hc)).1, (hc3' c ((hc4 c j).1 hc)).2⟩⟩
    · have hji : j ≠ i := by rintro rfl; rw [hbi] at hj; simp at hj
      rw [hbj j hji, hb3, h1.frame j hji] at hj
      exact hj
    · obtain ⟨hc₁, hd₁⟩ := h1.stays hcj hdj
      obtain ⟨hc₃, hd₃⟩ := hs3.keeps j c hc₁ hcd hd₁
      exact ⟨(hc4 c j).2 hc₃, by rw [hdt4, hd₃]⟩
    · have hd₁ := (hs3.dirty j (hdt4 j ▸ hdj)).1
      exact (hc4 c j).2 ((hc3 c j).2 (h1.stays hcj (h1.dirty_back hd₁).1).1)
  · rcases he with ⟨rfl, i, -, hb⟩ | ⟨-, hn, hall⟩
    · exact ⟨⟨i, Or.inl hb⟩, by simp⟩
    · exact ⟨⟨0, hall 0⟩, fun _ => ⟨hn, hall⟩⟩

/-- Two reads of different blocks by one process: two buffers, nothing else moved. -/
theorem read_read {x y : Nat} {i1 i2 : Fin NBUF} {s2 : Bio} (h : s.WF own) (h1 : s.Read x i1 s1)
    (h2 : s1.Read y i2 s2) : i2 ≠ i1 ∧ s2.Cached x i1 ∧ (s2.buf i1).busy = true ∧ ¬ own i2 ∧
    ∀ j, j ≠ i1 → j ≠ i2 → s2.buf j = s.buf j := by
  have hne : i2 ≠ i1 := by rintro rfl; have := h1.busy; rw [h2.was] at this; simp at this
  have hb1 : s2.buf i1 = s1.buf i1 := h2.frame i1 (Ne.symm hne)
  refine ⟨hne, by simpa only [Bio.Cached, hb1] using h1.cached,
    by rw [hb1]; exact h1.busy, fun ho => ?_,
    fun j hj1 hj2 => by rw [h2.frame j hj2, h1.frame j hj1]⟩
  have := h.busy ho
  rw [← h1.frame i2 hne, h2.was] at this
  simp at this

/-- Both buffers held: `copyHeld` stores `src`'s block over `dst`'s. -/
theorem copyHeld_wp {src dst : Fin NBUF} {a : Nat} (h : s.WF own) (hne : src ≠ dst)
    (ha : s.Cached a src)
    (hd : s.Cached d dst) (hbs : (s.buf src).busy = true)
    (hbd : (s.buf dst).busy = true) (hos : ¬ own src)
    (hod : ¬ own dst) : (copyHeld src dst).wp (fun _ s' => s'.WF own ∧ s.Store d (s.view a) s' ∧
      (s'.buf src).busy = false ∧ (s'.buf dst).busy = false) (fun _ => False) s := by
  simp only [copyHeld, wp_bind, wp_get]
  rw [← view_of_cached h ha]
  obtain ⟨hw3, hs3, hc3, hb3⟩ := stored_spec h hd hbd hod (s.view a)
  obtain ⟨hw4, hv4, hc4, hdt4, hbi4, hbj4⟩ := released_spec hw3 ((hc3 _ _).2 ha) hos
  obtain ⟨hw5, hv5, hc5, hdt5, hbi5, hbj5⟩ := released_spec hw4 ((hc4 _ _).2 ((hc3 _ _).2 hd)) hod
  refine (wp_store hbd _).2
    ((wp_brelse (by rw [hb3, hbs])).2 ((wp_brelse (by rw [hbj4 dst (Ne.symm hne), hb3, hbd])).2
    ⟨hw5, ⟨?_, fun c => ?_, fun j hdj => ?_, fun j hj => ?_, fun j c hcj hcd hdj => ?_,
      fun j c _ hcj => ?_⟩, ?_, hbi5⟩))
  · rw [released_disk, released_disk, hs3.disk]
  · rw [hv5, hv4, hs3.view]
  · obtain ⟨hd3, hc3'⟩ := hs3.dirty j (by rw [← hdt4, ← hdt5]; exact hdj)
    exact ⟨hd3, fun c hc => hc3' c ((hc4 c j).1 ((hc5 c j).1 hc))⟩
  · by_cases hjd : j = dst
    · subst hjd; exact hbd
    · rw [hbj5 j hjd] at hj
      by_cases hjs : j = src
      · subst hjs; exact hbs
      · rwa [hbj4 j hjs, hb3] at hj
  · obtain ⟨hc₃, hd₃⟩ := hs3.keeps j c hcj hcd hdj
    exact ⟨(hc5 c j).2 ((hc4 c j).2 hc₃), by rw [hdt5, hdt4, hd₃]⟩
  · exact (hc5 c j).2 ((hc4 c j).2 ((hc3 c j).2 hcj))
  · rw [hbj5 src hne]; exact hbi4

/-- What stops a `bread` of `x` followed by one of `y`. -/
def Starved (s : Bio) (x y : Nat) (e : Stop) : Prop :=
  (∃ i, (s.buf i).busy = true ∨ (s.buf i).dirty = true) ∧
    (e = .noBuffers →
      ((∀ i, ¬ s.Cached x i) ∧ ∀ i, (s.buf i).busy = true ∨ (s.buf i).dirty = true) ∨
      ∀ i, s.Cached y i → (s.buf i).dirty = false)

/-- The two reads in front of a copy, and the copy: where they stop, some buffer was busy or dirty
before; and they run out of buffers in the first read, or because the second block was not
pinned. -/
theorem reads_copy_wp {x y a : Nat} (h : s.WF own) (hxy : x ≠ y)
    {f : Fin NBUF → Fin NBUF → BioM Unit}
    (hf : (a = x ∧ d = y ∧ f = copyHeld) ∨ (a = y ∧ d = x ∧ f = fun i j => copyHeld j i)) :
    (do let i1 ← bread ROOTDEV x; let i2 ← bread ROOTDEV y; f i1 i2 : BioM Unit).wp
      (fun _ s' => s'.WF own ∧ s.Store d (s.view a) s') (Starved s x y) s := by
  refine wp_seq (bread_wp h x) (fun i1 s1 ⟨hw1, h₁⟩ => ?_) fun e he => ?_
  · refine wp_seq (bread_wp hw1 y) (fun i2 s2 ⟨hw2, h₂⟩ => ?_) fun e he => ?_
    · obtain ⟨hij, hc1, hb1, ho2, hframe⟩ := read_read h h₁ h₂
      have ho1 := h₁.not_own h
      have hview : ∀ c, s2.view c = s.view c := fun c => (h₂.view c).trans (h₁.view c)
      have hcopy : (f i1 i2).wp (fun _ s' => s'.WF own ∧ s2.Store d (s2.view a) s' ∧
          (s'.buf i1).busy = false ∧ (s'.buf i2).busy = false) (fun _ => False) s2 := by
        rcases hf with ⟨rfl, rfl, rfl⟩ | ⟨rfl, rfl, rfl⟩
        · exact copyHeld_wp hw2 (Ne.symm hij) hc1 h₂.cached hb1 h₂.busy ho1 ho2
        · exact Prog.wp_imp (copyHeld_wp hw2 hij h₂.cached hc1 h₂.busy hb1 ho2 ho1)
            (fun _ _ ⟨h1, h2, h3, h4⟩ => ⟨h1, h2, h4, h3⟩) (by simp)
      refine Prog.wp_imp hcopy (fun _ s3 ⟨hw3, hs3, hb3, hb3'⟩ =>
        ⟨hw3, ⟨by rw [hs3.disk, h₂.disk, h₁.disk, hview], fun c => by rw [hs3.view, hview, hview],
          fun j hdj => ?_, fun j hj => ?_, fun j c hcj hcd hdj => ?_, fun j c hdj hcj => ?_⟩⟩)
            (by simp)
      · obtain ⟨hd3, hc3⟩ := hs3.dirty j hdj
        obtain ⟨hd2, hc2⟩ := h₂.dirty_back hd3
        obtain ⟨hd1, hc1⟩ := h₁.dirty_back hd2
        exact ⟨hd1, fun c hc => ⟨hc1 c (hc2 c (hc3 c hc).1), (hc3 c hc).2⟩⟩
      · have hj1 : j ≠ i1 := by rintro rfl; rw [hb3] at hj; simp at hj
        have hj2 : j ≠ i2 := by rintro rfl; rw [hb3'] at hj; simp at hj
        have := hs3.busy j hj
        rwa [hframe j hj1 hj2] at this
      · obtain ⟨hc1, hd1⟩ := h₁.stays hcj hdj
        obtain ⟨hc2, hd2⟩ := h₂.stays hc1 hd1
        exact hs3.keeps j c hc2 hcd hd2
      · have hd2 := (hs3.dirty j hdj).1
        have hd1 := (h₂.dirty_back hd2).1
        have hd := (h₁.dirty_back hd1).1
        exact hs3.still j c hdj (h₂.stays (h₁.stays hcj hd).1 hd1).1
    · rcases he with ⟨rfl, i, hc, hb⟩ | ⟨-, hn, hall⟩
      · have hi : i ≠ i1 := by rintro rfl; exact hxy (h₁.cached.2.symm.trans hc.2)
        exact ⟨⟨i, Or.inl (by rwa [h₁.frame i hi] at hb)⟩, nofun⟩
      · obtain ⟨k, hk⟩ : ∃ k : Fin NBUF, k ≠ i1 := by
          by_cases h0 : i1 = 0
          · exact ⟨1, by rw [h0]; decide⟩
          · exact ⟨0, Ne.symm h0⟩
        refine ⟨⟨k, by have := hall k; rwa [h₁.frame k hk] at this⟩, fun _ => Or.inr fun i hc => ?_⟩
        by_contra hd
        exact hn i (h₁.stays hc (by simpa using hd)).1
  · rcases he with ⟨rfl, i, -, hb⟩ | ⟨-, hn, hall⟩
    · exact ⟨⟨i, Or.inl hb⟩, nofun⟩
    · exact ⟨⟨0, hall 0⟩, fun _ => Or.inl ⟨hn, hall⟩⟩

/-- `install_trans`'s loop body stores log block `l` in `hm`. -/
theorem installBlock_wp {l hm : Nat} (h : s.WF own) (hne : l ≠ hm) :
    (installBlock ROOTDEV l hm).wp (fun _ s' => s'.WF own ∧
      s.Store hm (s.view l) s') (Starved s l hm) s :=
  reads_copy_wp h hne (Or.inl ⟨rfl, rfl, rfl⟩)

/-- `write_log`'s loop body stores the cached block `hm` in log block `l`. -/
theorem logBlock_wp {l hm : Nat} (h : s.WF own) (hne : l ≠ hm) :
    (logBlock ROOTDEV l hm).wp (fun _ s' => s'.WF own ∧
      s.Store l (s.view hm) s') (Starved s l hm) s :=
  reads_copy_wp h hne (Or.inr ⟨rfl, rfl, rfl⟩)

end Os4.Log
