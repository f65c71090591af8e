import Mathlib.Data.List.GetD
import Os4.Log.Bio
/-!
# The on-disk log and its recovery (log.c:68-122)

| here | there |
| --- | --- |
| `Geom`           | `log.start`, `log.size` |
| `readHeader`, `writeHeader` | the loads and stores of `struct logheader` in a block |
| `readHead`, `writeHead`     | `read_head` (:86), `write_head` (:102) |
| `installTrans`   | `install_trans` (:70) |
| `recoverFromLog` | `recover_from_log` (:116) |

`Logged g d base bl` is what a crash may leave behind: a header that lists `bl`, the contents `base`
has for those blocks in the log, and `base` itself everywhere else. **`recoverFromLog_wp`**:
recovery turns any such disk into `base`.
-/
namespace Os4.Log

open Function (update update_of_ne update_self)

structure Geom where
  start : Nat
  size : Nat
  /-- the header block is part of the log -/
  size_pos : 0 < size
  /-- `lh.block` has room for what the log has room for (mkfs.c:35: `nlog = LOGSIZE`) -/
  size_le : size ≤ LOGSIZE + 1

def Geom.inLog (g : Geom) (b : Nat) : Prop := g.start ≤ b ∧ b < g.start + g.size

instance (g : Geom) (b : Nat) : Decidable (g.inLog b) := inferInstanceAs (Decidable (_ ∧ _))

/-! ## The header block -/

/-- `lh->n`, then `lh->block[0 .. n)`. -/
def readHeader (x : Block) : List Nat :=
  (List.range (Bytes.signed 4 (x.getLE 0 4)).toNat).map fun i => x.getLE (4 + 4 * i) 4

/-- The loop of `write_head` from index `i` on. -/
def putBlocks (x : Block) (i : Nat) : List Nat → Block
  | [] => x
  | b :: bl => putBlocks (x.putLE (4 + 4 * i) 4 b) (i + 1) bl

def writeHeader (x : Block) (bl : List Nat) : Block := putBlocks (x.putLE 0 4 bl.length) 0 bl

theorem getLE_putBlocks_before : ∀ (bl : List Nat) (x : Block) (i o : Nat), o + 4 ≤ 4 + 4 * i →
    (putBlocks x i bl).getLE o 4 = x.getLE o 4
  | [], _, _, _, _ => rfl
  | b :: bl, x, i, o, h => by
    rw [putBlocks, getLE_putBlocks_before bl _ (i + 1) o (by omega),
      Bytes.getLE_putLE_of_disjoint _ (Or.inl h)]

theorem getLE_putBlocks :
    ∀ (bl : List Nat) (x : Block) (i k : Nat), 4 + 4 * (i + bl.length) ≤ BSIZE →
    (∀ b ∈ bl, b < 2 ^ 32) → ∀ b, bl[k]? = some b → (putBlocks x i bl).getLE (4 + 4 * (i + k)) 4 = b
  | [], _, _, _, _, _, b, hk => by simp at hk
  | c :: bl, x, i, 0, hN, hb, b, hk => by
    obtain rfl : c = b := by simpa using hk
    rw [putBlocks, getLE_putBlocks_before bl _ (i + 1) _ (by omega)]
    rw [Nat.add_zero, Bytes.getLE_putLE_same _ _ _ _ (by simp at hN; omega)]
    exact Nat.mod_eq_of_lt (hb c (by simp))
  | c :: bl, x, i, k + 1, hN, hb, b, hk => by
    have ih := getLE_putBlocks bl (x.putLE (4 + 4 * i) 4 c) (i + 1) k (by simp at hN; omega)
      (fun d hd => hb d (by simp [hd])) b (by simpa using hk)
    rw [putBlocks, ← ih]
    congr 2
    omega

/-- The header read back is the header written. -/
theorem readHeader_writeHeader (x : Block) (hl : bl.length ≤ LOGSIZE) (hb : ∀ b ∈ bl, b < 2 ^ 32) :
    readHeader (writeHeader x bl) = bl := by
  have hl' : bl.length ≤ 30 := hl
  have hn : (writeHeader x bl).getLE 0 4 = bl.length := by
    rw [writeHeader, getLE_putBlocks_before bl _ 0 0 (by omega),
      Bytes.getLE_putLE_same _ _ _ _ (by simp [BSIZE])]
    exact Nat.mod_eq_of_lt (by omega)
  have hs : (Bytes.signed 4 bl.length).toNat = bl.length := by
    unfold Bytes.signed
    rw [if_pos (by omega), Int.toNat_natCast]
  apply List.ext_getElem?
  intro k
  rw [readHeader, hn, hs, List.getElem?_map]
  by_cases hk : k < bl.length
  · have := getLE_putBlocks bl (x.putLE 0 4 bl.length) 0 k (by simp only [BSIZE]; omega) hb
      bl[k] (by simp [hk])
    rw [Nat.zero_add] at this
    rw [List.getElem?_range hk, Option.map_some, writeHeader, this, List.getElem?_eq_getElem hk]
  · rw [List.getElem?_eq_none (by simp; omega), List.getElem?_eq_none (by omega)]
    rfl

/-! ## log.c, on the buffer cache -/

def readHead (g : Geom) : BioM (List Nat) := do
  let i ← bread ROOTDEV g.start
  let bl := readHeader ((← get).buf i).data
  brelse i
  return bl

def writeHead (g : Geom) (bl : List Nat) : BioM Unit := do
  let i ← bread ROOTDEV g.start
  setData i (writeHeader ((← get).buf i).data bl)
  bwrite i
  brelse i

/-- The loop of `install_trans` from `tail` on. -/
def installFrom (g : Geom) (tail : Nat) : List Nat → BioM Unit
  | [] => pure ()
  | b :: bl => do
    installBlock ROOTDEV (g.start + tail + 1) b
    installFrom g (tail + 1) bl

def installTrans (g : Geom) (bl : List Nat) : BioM Unit := installFrom g 0 bl

def recoverFromLog (g : Geom) : BioM Unit := do
  let bl ← readHead g
  installTrans g bl
  writeHead g []

/-! ## A cache with nothing pending -/

/-- Every block is seen as the disk has it, and no buffer is held. -/
structure Bio.Idle (s : Bio) : Prop where
  wf : s.WF (fun _ => False)
  busy : ∀ i, (s.buf i).busy = false
  dirty : ∀ i, (s.buf i).dirty = false

variable {g : Geom} {s s' : Bio} {d base : Disk} {bl : List Nat}

theorem idle_binit (d : Disk) : (binit d).Idle := by
  have hn : ∀ b i, ¬ (binit d).Cached b i := by intro b i h; simp [Bio.Cached, binit] at h
  exact ⟨⟨fun i => List.mem_finRange i, fun h => absurd h (hn _ _), fun h => absurd h (hn _ _),
    fun h => absurd h (hn _ _), fun h => h.elim⟩, fun _ => rfl, fun _ => rfl⟩

theorem Bio.Idle.view (h : s.Idle) (b : Nat) : s.view b = s.disk b :=
  view_eq_disk h.wf fun i _ => ⟨h.dirty i, fun h => h⟩

theorem Bio.Idle.not_pending (h : s.Idle) :
    ¬ ∃ i, (s.buf i).busy = true ∨ (s.buf i).dirty = true := by
  rintro ⟨i, hi | hi⟩
  · simp [h.busy i] at hi
  · simp [h.dirty i] at hi

variable {c : Nat}

theorem Bio.Idle.store {x : Block} (h : s.Idle) (hw : s'.WF fun _ => False) (hs : s.Store c x s') :
    s'.Idle where
  wf := hw
  busy i := by
    by_contra hb
    have := hs.busy i (by simpa using hb)
    simp [h.busy i] at this
  dirty i := by
    by_contra hd
    have := (hs.dirty i (by simpa using hd)).1
    simp [h.dirty i] at this

/-! ## Recovery -/

/-- A disk a crash may leave: `base`, except for the blocks `bl` listed in the header, whose `base`
contents are in the log. -/
structure Logged (g : Geom) (d base : Disk) (bl : List Nat) : Prop where
  header : readHeader (d g.start) = bl
  len : bl.length ≤ g.size - 1
  out : ∀ b ∈ bl, ¬ g.inLog b
  home : ∀ b, ¬ g.inLog b → b ∉ bl → d b = base b
  log : ∀ k b, bl[k]? = some b → d (g.start + k + 1) = base b

variable {k : Nat}

theorem inLog_logBlock (h : bl.length ≤ g.size - 1) {b : Nat} (hk : bl[k]? = some b) :
    g.inLog (g.start + k + 1) := by
  obtain ⟨hlt, -⟩ := List.getElem?_eq_some_iff.1 hk
  have := g.size_pos
  exact ⟨by omega, by omega⟩

theorem inLog_start (g : Geom) : g.inLog g.start := ⟨Nat.le_refl _, by have := g.size_pos; omega⟩

section

variable (h : Logged g d base bl)
include h

/-- Installing a listed block, whichever it is and however often, leaves such a disk. -/
theorem Logged.install (hk : bl[k]? = some c) :
    Logged g (update d c (d (g.start + k + 1))) base bl := by
  have hc := h.out c (List.mem_of_getElem? hk)
  have hne : ∀ b, g.inLog b → update d c (d (g.start + k + 1)) b = d b := by
    intro b hb
    exact update_of_ne (by rintro rfl; exact hc hb) _ _
  refine ⟨by rw [hne _ (inLog_start g)]; exact h.header, h.len, h.out,
    fun b hb hbl => ?_, fun j b hj => ?_⟩
  · rw [update_of_ne (by rintro rfl; exact hbl (List.mem_of_getElem? hk))]
    exact h.home b hb hbl
  · rw [hne _ (inLog_logBlock h.len hj)]; exact h.log j b hj

theorem Logged.ne_home (hk : bl[k]? = some c) : g.start + k + 1 ≠ c :=
  fun e => h.out c (List.mem_of_getElem? hk) (e ▸ inLog_logBlock h.len hk)

theorem Logged.installed (hk : bl[k]? = some c)
    (hdone : ∀ j b, j < k → bl[j]? = some b → d b = base b) (j b : Nat) (hj : j < k + 1)
    (hb : bl[j]? = some b) :
    update d c (d (g.start + k + 1)) b = base b := by
  by_cases hbc : b = c
  · subst hbc; rw [update_self]; exact h.log k b hk
  · rw [update_of_ne hbc]
    refine hdone j b (lt_of_le_of_ne (by omega) ?_) hb
    rintro rfl
    exact hbc (Option.some.inj (hb.symm.trans hk))

theorem Logged.all_installed
    (hdone : ∀ j b, j < bl.length → bl[j]? = some b → d b = base b) (b : Nat) (hb : ¬ g.inLog b) :
    d b = base b := by
  by_cases hbl : b ∈ bl
  · obtain ⟨j, hj, rfl⟩ := List.getElem_of_mem hbl
    exact hdone j _ hj (by simp [hj])
  · exact h.home b hb hbl

end

/-- With every listed block installed, erasing the header loses nothing. -/
theorem Logged.erase (h : ∀ b, ¬ g.inLog b → d b = base b) (x : Block) :
    Logged g (update d g.start (writeHeader x [])) base [] := by
  refine ⟨?_, by simp, by simp, fun b hb _ => ?_, by simp⟩
  · rw [update_self]; exact readHeader_writeHeader x (by simp) (by simp)
  · rw [update_of_ne (by rintro rfl; exact hb (inLog_start g))]; exact h b hb

/-- While the header is empty the log is scratch space. -/
theorem Logged.writeLog {x : Block} (h : Logged g d base []) (hk : k < g.size - 1) :
    Logged g (update d (g.start + k + 1) x) base [] := by
  refine ⟨?_, h.len, h.out, fun b hb hbl => ?_, by simp⟩
  · rw [update_of_ne (by omega)]; exact h.header
  · rw [update_of_ne]
    · exact h.home b hb hbl
    · rintro rfl
      exact hb ⟨by omega, by omega⟩

theorem readHead_wp (h : s.Idle) :
    (readHead g).wp (fun bl s' => bl = readHeader (s.disk g.start) ∧ s'.Idle ∧
    s'.disk = s.disk) (fun _ => False) s := by
  refine Prog.wp_seq (bread_wp h.wf g.start) (fun i s1 ⟨hw1, h1⟩ => ?_) fun e he => ?_
  · simp only [Prog.wp_bind, Prog.wp_get, Prog.wp_pure]
    obtain ⟨hw2, hv2, hc2, hdt2, hbi, hbj⟩ := released_spec hw1 h1.cached (fun h => h)
    refine (wp_brelse h1.busy).2 ⟨?_, ⟨hw2, fun j => ?_, fun j => ?_⟩,
      by rw [released_disk, h1.disk]⟩
    · rw [← view_of_cached hw1 h1.cached, h1.view, h.view]
    · by_cases hj : j = i
      · subst hj; exact hbi
      · rw [hbj j hj, h1.frame j hj]; exact h.busy j
    · by_contra hd
      rw [hdt2 j] at hd
      have := (h1.dirty_back (by simpa using hd)).1
      simp [h.dirty j] at this
  · refine h.not_pending ?_
    rcases he with ⟨-, i, -, hb⟩ | ⟨-, -, hall⟩
    · exact ⟨i, Or.inl hb⟩
    · exact ⟨0, hall 0⟩

/-- From index `tail` on: the blocks before it are installed already. -/
theorem installFrom_wp : ∀ (rest : List Nat) (tail : Nat) {s : Bio}, s.Idle →
    Logged g s.disk base bl →
    bl.drop tail = rest → (∀ j b, j < tail → bl[j]? = some b → s.disk b = base b) →
    (installFrom g tail rest).wp (fun _ s' => s'.Idle ∧ ∀ b, ¬ g.inLog b →
      s'.disk b = base b) (fun _ => False) s
  | [], tail, s, hs, hl, hr, hdone => by
    have hlen := List.drop_eq_nil_iff.1 hr
    exact ⟨hs, hl.all_installed fun j b hj => hdone j b (by omega)⟩
  | c :: rest, tail, s, hs, hl, hr, hdone => by
    have hk : bl[tail]? = some c := by
      have := congrArg (·[0]?) hr
      simpa using this
    refine Prog.wp_seq (installBlock_wp hs.wf (hl.ne_home hk)) (fun _ s1 ⟨hw1, h1⟩ => ?_)
      fun _ he => hs.not_pending he.1
    have hd1 : s1.disk = update s.disk c (s.disk (g.start + tail + 1)) := by rw [h1.disk, hs.view]
    refine installFrom_wp rest (tail + 1) (hs.store hw1 h1) (hd1 ▸ hl.install hk) ?_
      (hd1 ▸ hl.installed hk hdone)
    rw [← List.drop_drop, hr]; rfl

/-- **Recovery.** On any disk a crash may leave, `recover_from_log` returns, and the blocks outside
the log are those of `base`. -/
theorem recoverFromLog_wp (h : Logged g d base bl) : (recoverFromLog g).wp
    (fun _ s' => s'.Idle ∧ Logged g s'.disk base []) (fun _ => False) (binit d) := by
  unfold recoverFromLog installTrans
  refine Prog.wp_seq (readHead_wp (idle_binit d)) (fun bl' s1 ⟨hbl, hi1, hd1⟩ => ?_) fun _ he => he
  obtain rfl : bl' = bl := hbl.trans h.header
  have hd1 : s1.disk = d := hd1
  refine Prog.wp_seq (installFrom_wp bl' 0 hi1 (hd1 ▸ h) rfl (by simp))
    (fun _ s2 ⟨hi2, hhome⟩ => ?_) fun _ he => he
  refine Prog.wp_imp (update_wp hi2.wf (writeHeader · [])) (fun _ s3 ⟨hw3, h3⟩ =>
    ⟨hi2.store hw3 h3, ?_⟩) fun _ he => hi2.not_pending he.1
  rw [h3.disk]
  exact Logged.erase hhome _

end Os4.Log
