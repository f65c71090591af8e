import Os4.Log.Buffers
/-!
# Two disk drivers (ide.c, memide.c)

A kernel built with memide.c keeps the disk image in memory (`kernelmemfs`). Its `iderw` makes the
transfer at once; that of ide.c queues the request, and the interrupt makes it.

| here | there |
| --- | --- |
| `iderw`         | memide.c:37-59; `memdisk` is disk 1, of `disksize` blocks |
| `enter`, `bwrite` | bio.c:107, 114, with that `iderw` |
| `step`, `run`   | bio.c with memide.c; `ideintr` does nothing (memide.c:28) |
| `Buffers.step`, `Buffers.run` | bio.c with ide.c |
| `ofDriver`      | the panics in ide.c and memide.c, not those in bio.c |
| `Ahead s t`     | `t` is `s` after every request of the queue is served |
| `DropIn`        | neither driver panics; with no request left in the queue, buffers and disks are the same |

Besides **`ahead_run`** there is **`drop_in_iff`**: memide.c takes requests for disk 1 only, and
ide.c numbers the disk of the root file system 0. So one replaces the other just if that number is 1
or the kernel reads nothing.
-/
namespace Os4.Log.Memide

open Buffers (Cache Wf NDISK idestart stays_step)
open Function (update_self update_of_ne update)
open List (mem_cons_of_mem not_mem_nil mem_cons_self)

/-- Why a step is not taken. -/
inductive Stop where
  /-- as with ide.c -/
  | shared (stop : Buffers.Stop)
  /-- `iderw`: request not for disk 1 -/
  | notDisk1
  /-- `iderw`: block out of range -/
  | outOfRange
deriving DecidableEq

def iderw (disksize : Nat) (s : Cache) (i : Fin NBUF) : Except Stop Cache :=
  let x := s.buf i
  if !x.busy then .error (.shared .notBusy)
  else if x.valid && !x.dirty then .error (.shared .nothingToDo)
  else if x.dev ≠ 1 then .error .notDisk1
  else if disksize ≤ x.blockno then .error .outOfRange
  else if x.dirty then .ok (s.flush i)
  else .ok (s.fetch i)

def enter (disksize : Nat) (s : Cache) (p : Nat) : Except Stop Cache :=
  match s.pc p with
  | .call i =>
    if s.owner i = some (p, .got) then
      if (s.buf i).valid then .ok ((s.setOwner i (some (p, .held false))).setPc p .out)
      else iderw disksize (s.setOwner i (some (p, .reading))) i
    else .error (.shared .disabled)
  | _ => .error (.shared .disabled)

def bwrite (disksize : Nat) (s : Cache) (p : Nat) (i : Fin NBUF) : Except Stop Cache :=
  if s.holds p i then
    if !(s.buf i).busy then .error (.shared .bwrite)
    else iderw disksize (((s.setBuf i { s.buf i with dirty := true }).setOwner i
      (some (p, .writing))).setPc p (.call i)) i
  else .error (.shared .disabled)

def step (disksize : Nat) (s : Cache) : Buffers.Ev → Except Stop Cache
  | .enter p => enter disksize s p
  | .bwrite p i => bwrite disksize s p i
  | .ideintr => .ok s
  -- the rest of bio.c does not call the driver
  | e => (Buffers.step false s e).mapError .shared

/-- A run, the latest event first. -/
def run (disksize : Nat) (disk : Nat → Nat → Block) : List Buffers.Ev → Except Stop Cache
  | [] => .ok (Buffers.binit disk)
  | e :: tr => do step disksize (← run disksize disk tr) e

def ofDriver : Buffers.Stop → Bool
  | .notBusy | .nothingToDo | .noDisk | .blockno => true
  | _ => false

def Stop.ofDriver : Stop → Bool
  | .shared stop => Memide.ofDriver stop
  | .notDisk1 | .outOfRange => true

variable {s s' t : Cache} {i j : Fin NBUF} {p dev b n d : Nat} {havedisk1 : Bool} {e : Buffers.Ev}
  {tr : List Buffers.Ev} {disk : Nat → Nat → Block}

theorem iderw_transfer (hb : (s.buf i).busy = true)
    (hv : (s.buf i).valid = false ∨ (s.buf i).dirty = true)
    (hd : (s.buf i).dev = 1) (hn : (s.buf i).blockno < n) : iderw n s i = .ok (s.transfer i) := by
  unfold iderw Cache.transfer
  have hdo : ((s.buf i).valid && !(s.buf i).dirty) = false := by
    rcases hv with hv | hv <;> simp [hv]
  simp only [hb, hdo, hd, Bool.not_true, Bool.false_eq_true, if_false, ne_eq,
    not_true_eq_false, Nat.not_le.2 hn]
  split <;> rfl

theorem run_cons {r : Cache} (h : Buffers.run havedisk1 disk (e :: tr) = .ok r) :
    ∃ s, Buffers.run havedisk1 disk tr = .ok s ∧ Buffers.step havedisk1 s e = .ok r := by
  unfold Buffers.run at h
  cases hs : Buffers.run havedisk1 disk tr with
  | error stop => rw [hs] at h; cases h
  | ok s => rw [hs] at h; exact ⟨s, rfl, h⟩

/-! ## A transfer -/

/-- Buffer `i` when its request has been served. -/
def served (s : Cache) (i : Fin NBUF) : Buf :=
  if (s.buf i).dirty then { s.buf i with valid := true, dirty := false }
  else { s.buf i with valid := true, data := s.disk (s.buf i).dev (s.buf i).blockno }

theorem served_dev : (served s i).dev = (s.buf i).dev := by
  unfold served
  split <;> rfl

theorem served_blockno : (served s i).blockno = (s.buf i).blockno := by
  unfold served
  split <;> rfl

theorem served_busy : (served s i).busy = (s.buf i).busy := by
  unfold served
  split <;> rfl

theorem served_congr (hb : t.buf i = s.buf i)
    (hd : t.disk (s.buf i).dev (s.buf i).blockno = s.disk (s.buf i).dev (s.buf i).blockno) :
    served t i = served s i := by
  unfold served
  rw [hb, hd]

theorem transfer_buf : (s.transfer i).buf = update s.buf i (served s i) := by
  unfold Cache.transfer served
  split <;> rfl

theorem transfer_same : (s.transfer i).links = s.links ∧ (s.transfer i).owner = s.owner ∧
    (s.transfer i).pc = s.pc ∧ (s.transfer i).left = s.left := by
  unfold Cache.transfer
  split <;> exact ⟨rfl, rfl, rfl, rfl⟩

theorem transfer_disk (h : (s.buf i).dirty = true →
    ¬ (dev = (s.buf i).dev ∧ b = (s.buf i).blockno)) :
    (s.transfer i).disk dev b = s.disk dev b := by
  unfold Cache.transfer
  split
  · rename_i hc
    exact Buffers.update_update_ne _ _ (h hc)
  · rfl

theorem transfer_written (h : (s.buf i).dirty = true) :
    (s.transfer i).disk (s.buf i).dev (s.buf i).blockno = (s.buf i).data := by
  unfold Cache.transfer
  rw [if_pos h]
  show update s.disk _ _ _ _ = _
  rw [update_self, update_self]

/-! ## Ahead by the queue -/

structure Ahead (s t : Cache) : Prop where
  links : t.links = s.links
  owner : t.owner = s.owner
  pc : t.pc = s.pc
  left : t.left = s.left
  buf : ∀ i, t.buf i = if i ∈ s.queue then served s i else s.buf i
  written : ∀ i ∈ s.queue, (s.buf i).dirty = true →
    t.disk (s.buf i).dev (s.buf i).blockno = (s.buf i).data
  disk : ∀ dev b, (∀ i ∈ s.queue, (s.buf i).dirty = true →
    ¬ (dev = (s.buf i).dev ∧ b = (s.buf i).blockno)) → t.disk dev b = s.disk dev b

theorem Ahead.refl (hq : s.queue = []) : Ahead s s :=
  ⟨rfl, rfl, rfl, rfl, fun i => by rw [if_neg (hq ▸ not_mem_nil)],
    fun i hi => absurd (hq ▸ hi) not_mem_nil, fun _ _ _ => rfl⟩

section

variable (hA : Ahead s t)
include hA

theorem Ahead.done (hq : s.queue = []) : t.buf = s.buf ∧ t.disk = s.disk := by
  have hnone : ∀ i, i ∉ s.queue := fun i => hq ▸ not_mem_nil
  constructor
  · funext i
    rw [hA.buf, if_neg (hnone i)]
  · funext dev b
    exact hA.disk dev b fun i hi => absurd hi (hnone i)

theorem Ahead.buf_eq (hi : i ∉ s.queue) : t.buf i = s.buf i := by rw [hA.buf, if_neg hi]

theorem Ahead.block (i : Fin NBUF) :
    (t.buf i).dev = (s.buf i).dev ∧ (t.buf i).blockno = (s.buf i).blockno ∧
    (t.buf i).busy = (s.buf i).busy := by
  rw [hA.buf]
  split
  · exact ⟨served_dev, served_blockno, served_busy⟩
  · exact ⟨rfl, rfl, rfl⟩

theorem Ahead.setPc (p : Nat) (c : Buffers.Pc) : Ahead (s.setPc p c) (t.setPc p c) :=
  { hA with pc := by show update t.pc p c = update s.pc p c; rw [hA.pc] }

theorem Ahead.set (hi : i ∉ s.queue) (x : Buf) (o : Option (Nat × Buffers.Stage)) :
    Ahead ((s.setBuf i x).setOwner i o) ((t.setBuf i x).setOwner i o) := by
  have hne : ∀ {j}, j ∈ s.queue → j ≠ i := fun hj h => hi (h ▸ hj)
  have hbuf : ∀ j, j ≠ i → ((s.setBuf i x).setOwner i o).buf j = s.buf j := fun j hj =>
    update_of_ne hj ..
  refine ⟨hA.links, ?_, hA.pc, hA.left, fun j => ?_, fun j hj => ?_, fun dev b h => ?_⟩
  · show update t.owner i o = update s.owner i o
    rw [hA.owner]
  · show update t.buf i x j = if j ∈ s.queue then _ else update s.buf i x j
    by_cases hji : j = i
    · subst hji
      rw [if_neg hi, update_self, update_self]
    · rw [update_of_ne hji, update_of_ne hji, hA.buf]
      rw [served_congr (t := (s.setBuf i x).setOwner i o) (hbuf j hji) rfl]
  · rw [hbuf j (hne hj)]
    exact hA.written j hj
  · exact hA.disk dev b fun j hj => by
      have := h j hj
      rwa [hbuf j (hne hj)] at this

theorem Ahead.setOwner (hi : i ∉ s.queue) (o : Option (Nat × Buffers.Stage)) :
    Ahead (s.setOwner i o) (t.setOwner i o) := by
  have h := hA.set hi (s.buf i) o
  rwa [Buffers.setBuf_same, ← hA.buf_eq hi, Buffers.setBuf_same] at h

end

theorem other_block (hw : Wf s) (hreal : (s.buf i).dev < NDISK) (hne : j ≠ i) :
    ¬ ((s.buf i).dev = (s.buf j).dev ∧ (s.buf i).blockno = (s.buf j).blockno) := fun h =>
  hne (hw.uniq i j hreal h.1.symm h.2.symm)

theorem Ahead.push (hA : Ahead s t) (hi : i ∉ s.queue)
    (hother : ∀ j, j ≠ i → ¬ ((s.buf i).dev = (s.buf j).dev ∧ (s.buf i).blockno =
      (s.buf j).blockno)) :
    Ahead { s with queue := s.queue ++ [i] } (t.transfer i) := by
  have hbi := hA.buf_eq hi
  have hne : ∀ {j}, j ∈ s.queue → j ≠ i := fun hj h => hi (h ▸ hj)
  have hdisk : t.disk (s.buf i).dev (s.buf i).blockno = s.disk (s.buf i).dev (s.buf i).blockno :=
    hA.disk _ _ fun j hj _ => hother j (hne hj)
  obtain ⟨hl, ho, hp, hleft⟩ := transfer_same (s := t) (i := i)
  refine ⟨hl.trans hA.links, ho.trans hA.owner, hp.trans hA.pc, hleft.trans hA.left, fun j => ?_,
    fun j hj hc => ?_, fun dev b h => ?_⟩
  · show _ = if j ∈ s.queue ++ [i] then served s j else s.buf j
    rw [transfer_buf]
    by_cases hji : j = i
    · subst hji
      rw [update_self, if_pos (by simp), served_congr hbi hdisk]
    · rw [update_of_ne hji, hA.buf]
      simp [hji]
  · rcases List.mem_append.1 hj with hj | hj
    · rw [transfer_disk fun _ => by rw [hbi]; exact fun h => hother j (hne hj) ⟨h.1.symm, h.2.symm⟩]
      exact hA.written j hj hc
    · obtain rfl := List.mem_singleton.1 hj
      have := transfer_written (s := t) (i := j) (by rw [hbi]; exact hc)
      rwa [hbi] at this
  · rw [transfer_disk fun hc => by rw [hbi] at hc ⊢; exact h i (by simp) hc]
    exact hA.disk dev b fun j hj => h j (List.mem_append_left _ hj)

theorem Ahead.serve {q : List (Fin NBUF)} (hA : Ahead s t) (hw : Wf s) (hq : s.queue = i :: q) :
    Ahead { s.transfer i with queue := q } t := by
  have hnd : i ∉ q ∧ q.Nodup := List.nodup_cons.1 (hq ▸ hw.nodup)
  have hmem : ∀ {j}, j ∈ q → j ∈ s.queue := fun hj => hq ▸ mem_cons_of_mem _ hj
  have hi : i ∈ s.queue := hq ▸ mem_cons_self ..
  have hne : ∀ {j}, j ∈ q → j ≠ i := fun hj h => hnd.1 (h ▸ hj)
  have hreal : ∀ {j}, j ∈ s.queue → (s.buf j).dev < NDISK := fun hj => by
    obtain ⟨p, ⟨ho, -⟩ | ⟨ho, -⟩⟩ := (hw.fine _).queued hj <;> exact hw.real ho
  have hbuf : ∀ {j}, j ≠ i → (s.transfer i).buf j = s.buf j := fun hj => by
    rw [transfer_buf, update_of_ne hj]
  have hblock : ∀ {j}, j ∈ q → (s.transfer i).disk (s.buf j).dev (s.buf j).blockno =
      s.disk (s.buf j).dev (s.buf j).blockno :=
    fun hj => transfer_disk fun _ => other_block hw (hreal (hmem hj)) (hne hj).symm
  obtain ⟨hl, ho, hp, hleft⟩ := transfer_same (s := s) (i := i)
  refine ⟨hA.links.trans hl.symm, hA.owner.trans ho.symm, hA.pc.trans hp.symm,
    hA.left.trans hleft.symm, fun j => ?_, fun j hj hc => ?_, fun dev b h => ?_⟩
  · show t.buf j = if j ∈ q then served (s.transfer i) j else (s.transfer i).buf j
    rw [hA.buf, hq]
    by_cases hji : j = i
    · subst hji
      rw [if_pos (mem_cons_self ..), if_neg hnd.1, transfer_buf, update_self]
    · by_cases hj : j ∈ q
      · rw [if_pos (mem_cons_of_mem _ hj), if_pos hj, served_congr (hbuf hji) (hblock hj)]
      · rw [if_neg (by simp [hji, hj]), if_neg hj, hbuf hji]
  · show t.disk ((s.transfer i).buf j).dev ((s.transfer i).buf j).blockno =
      ((s.transfer i).buf j).data
    replace hc : ((s.transfer i).buf j).dirty = true := hc
    rw [hbuf (hne hj)] at hc ⊢
    exact hA.written j (hmem hj) hc
  · show t.disk dev b = (s.transfer i).disk dev b
    by_cases hthis : (s.buf i).dirty = true ∧ dev = (s.buf i).dev ∧ b = (s.buf i).blockno
    · obtain ⟨hc, rfl, rfl⟩ := hthis
      rw [hA.written i hi hc, transfer_written hc]
    · rw [transfer_disk fun hc hb => hthis ⟨hc, hb⟩]
      refine hA.disk dev b fun j hj hc => ?_
      rcases List.mem_cons.1 (hq ▸ hj) with rfl | hj
      · exact fun hb => hthis ⟨hc, hb⟩
      · have := h j hj
        rw [show ({ s.transfer i with queue := q } : Cache).buf j = (s.transfer i).buf j from rfl,
          hbuf (hne hj)] at this
        exact this hc

/-! ## Where the requests go -/

/-- `bread` is called for blocks of disk `d` below `n`. -/
def On (d n : Nat) : Buffers.Ev → Prop
  | .scan _ dev b => dev = d ∧ b < n
  | _ => True

/-- Every buffer in use is for such a block. -/
def Onto (d n : Nat) (s : Cache) : Prop :=
  ∀ i, (s.owner i).isSome = true → (s.buf i).dev = d ∧ (s.buf i).blockno < n

theorem isSome_update {f : Fin NBUF → Option (Nat × Buffers.Stage)}
    {o : Option (Nat × Buffers.Stage)} {u : Nat × Buffers.Stage}
    (ho : f i = some u) (h : (update f i o j).isSome = true) : (f j).isSome = true := by
  by_cases hji : j = i
  · rw [hji, ho]
    rfl
  · rwa [update_of_ne hji] at h

/-- Only `bget` gives a buffer to somebody. -/
theorem owner_step (h : Buffers.step havedisk1 s e = .ok s') (he : ∀ p dev b, e ≠ .scan p dev b)
    (hj : (s'.owner j).isSome = true) : (s.owner j).isSome = true := by
  cases e with
  | scan p dev b => exact absurd rfl (he p dev b)
  | enter p =>
    obtain ⟨i, -, ho, ⟨-, rfl⟩ | ⟨-, rfl⟩⟩ := Buffers.enter_cases h
    · exact isSome_update ho hj
    · exact isSome_update ho hj
  | ideintr =>
    obtain rfl | ⟨i, q, -, rfl⟩ := Buffers.ideintr_cases h
    · exact hj
    · rw [← (transfer_same (s := s) (i := i)).2.1]
      exact hj
  | finish p =>
    obtain ⟨i, -, ho | ho, -, -, rfl⟩ := Buffers.finish_cases h
    · exact isSome_update ho hj
    · exact isSome_update ho hj
  | modify p i f =>
    obtain ⟨hh, rfl⟩ := Buffers.modify_cases h
    exact isSome_update hh.owner.choose_spec hj
  | logWrite p i =>
    obtain ⟨hh, rfl⟩ := Buffers.logWrite_cases h
    exact isSome_update hh.owner.choose_spec hj
  | bwrite p i =>
    obtain ⟨hh, rfl⟩ := Buffers.bwrite_cases h
    exact isSome_update hh.owner.choose_spec hj
  | brelse p i =>
    obtain ⟨ho, rfl⟩ := Buffers.brelse_cases h
    exact isSome_update ho hj
  | kill p =>
    obtain ⟨c, rfl⟩ := Buffers.kill_cases h
    exact hj

theorem Onto.grab (hO : Onto d n s) (x : Buf) (hd : x.dev = d) (hn : x.blockno < n) :
    Onto d n (s.grab p i x) := by
  intro j hj
  by_cases hji : j = i
  · subst hji
    rw [show (s.grab p j x).buf j = x from update_self ..]
    exact ⟨hd, hn⟩
  · rw [show (s.grab p i x).buf j = s.buf j from update_of_ne hji ..]
    exact hO j (by rwa [show (s.grab p i x).owner j = s.owner j from update_of_ne hji ..] at hj)

theorem onto_step (hw : Wf s) (hO : Onto d n s) (he : On d n e)
    (h : Buffers.step havedisk1 s e = .ok s') : Onto d n s' := by
  by_cases hscan : ∃ p dev b, e = .scan p dev b
  · obtain ⟨p, dev, b, rfl⟩ := hscan
    obtain ⟨rfl, hn⟩ := he
    obtain ⟨-, ⟨i, rfl⟩ | ⟨i, hd, rfl, -, rfl⟩ | ⟨i, -, -, -, rfl⟩⟩ := Buffers.scan_cases hw h
    · exact hO
    · exact hO.grab _ hd hn
    · exact hO.grab _ rfl hn
  · intro i hi
    have hold := owner_step h (fun p dev b h => hscan ⟨p, dev, b, h⟩) hi
    obtain ⟨hd, hb⟩ := stays_step hw h (.inl ((hw.fine i).busy.trans hold))
    rw [hd, hb]
    exact hO i hold

theorem onto_run : ∀ {tr : List Buffers.Ev} {s : Cache}, (∀ e ∈ tr, On d n e) →
    Buffers.run havedisk1 disk tr = .ok s → Onto d n s
  | [], _, _, h => by
    cases h
    exact nofun
  | e :: tr, _, htr, h => by
    obtain ⟨s, hs, hstep⟩ := run_cons h
    exact onto_step (Buffers.wf_run hs) (onto_run (fun e he => htr e (mem_cons_of_mem _ he)) hs)
      (htr e (mem_cons_self ..)) hstep

theorem queued_isSome (hw : Wf s) (hj : j ∈ s.queue) : (s.owner j).isSome = true := by
  obtain ⟨p, ⟨ho, -⟩ | ⟨ho, -⟩⟩ := (hw.fine j).queued hj
  · rw [ho]; rfl
  · rw [ho]; rfl

section

variable (hA : Ahead s t)
include hA

/-! ## Both kernels take the same steps -/

theorem Ahead.holds (h : s.holds p i) : t.holds p i := by
  unfold Cache.holds
  rw [hA.pc, hA.owner]
  exact h

theorem Ahead.scan (hw : Wf s) (h : Buffers.scan s p dev b = .ok s') :
    ∃ t', Buffers.scan t p dev b = .ok t' ∧ Ahead s' t' := by
  have hfor : t.forward = s.forward := by unfold Cache.forward; rw [hA.links]
  have hback : t.backward = s.backward := by unfold Cache.backward; rw [hA.links]
  have hhit : (fun i => (t.buf i).holds dev b) = fun i => (s.buf i).holds dev b := by
    funext i
    unfold Buf.holds
    rw [(hA.block i).1, (hA.block i).2.1]
  have hidle : (fun i => !(t.buf i).busy && !(t.buf i).dirty) = fun i =>
      !(s.buf i).busy && !(s.buf i).dirty := by
    funext i
    by_cases hq : i ∈ s.queue
    · have hbusy := (hw.fine i).busy.trans (queued_isSome hw hq)
      rw [(hA.block i).2.2, hbusy]
      rfl
    · rw [hA.buf_eq hq]
  have hfree : ∀ {i}, (s.buf i).busy = false → i ∉ s.queue := fun hb hq => by
    rw [(hw.fine _).busy.trans (queued_isSome hw hq)] at hb
    cases hb
  unfold Buffers.scan at h ⊢
  rw [hA.pc, hfor, hback, hhit, hidle]
  split at h
  case isFalse => cases h
  case isTrue hc =>
    rw [if_pos hc]
    cases hf : s.forward.find? fun i => (s.buf i).holds dev b with
    | some i =>
      simp only [hf] at h ⊢
      rw [(hA.block i).2.2]
      split at h
      case isTrue hb =>
        cases h
        rw [if_pos hb]
        exact ⟨_, rfl, hA.setPc p _⟩
      case isFalse hb =>
        cases h
        rw [if_neg hb]
        have hi := hfree (Bool.eq_false_iff.2 hb)
        refine ⟨_, rfl, ?_⟩
        rw [hA.buf_eq hi]
        exact (hA.set hi _ _).setPc p _
    | none =>
      simp only [hf] at h ⊢
      cases hg : s.backward.find? fun i => !(s.buf i).busy && !(s.buf i).dirty with
      | none =>
        simp only [hg] at h
        cases h
      | some i =>
        simp only [hg] at h ⊢
        cases h
        have hb : (s.buf i).busy = false := by
          have := List.find?_some hg
          simp only [Bool.and_eq_true, Bool.not_eq_true'] at this
          exact this.1
        refine ⟨_, rfl, ?_⟩
        rw [hA.buf_eq (hfree hb)]
        exact (hA.set (hfree hb) _ _).setPc p _

theorem Ahead.enter (hw : Wf s) (hO : Onto 1 n s) (h : Buffers.enter havedisk1 s p = .ok s') :
    ∃ t', Memide.enter n t p = .ok t' ∧ Ahead s' t' := by
  obtain ⟨i, hpc, ho, hcase⟩ := Buffers.enter_cases h
  have hi := hw.not_queued (c := false) (.inl ho)
  have hbi := hA.buf_eq hi
  unfold Memide.enter
  rw [hA.pc, hpc]
  simp only
  rw [hA.owner, if_pos ho, hbi]
  rcases hcase with ⟨hv, rfl⟩ | ⟨hv, rfl⟩
  · rw [if_pos hv]
    exact ⟨_, rfl, (hA.setOwner hi _).setPc p _⟩
  · rw [if_neg (by rw [hv]; exact Bool.false_ne_true)]
    have hsome : (s.owner i).isSome = true := by rw [ho]; rfl
    obtain ⟨hd, hb⟩ := hO i hsome
    have hset := hA.setOwner hi (some (p, .reading))
    have hbuf : (t.setOwner i (some (p, .reading))).buf i = s.buf i := hbi
    refine ⟨_, iderw_transfer ?_ (.inl ?_) ?_ ?_, ?_⟩
    · rw [hbuf, (hw.fine i).busy, hsome]
    · rw [hbuf, hv]
    · rw [hbuf, hd]
    · rwa [hbuf]
    · exact hset.push hi fun j hj => other_block (s := s) hw (hw.real ho) hj

theorem Ahead.bwrite (hw : Wf s) (hO : Onto 1 n s) (h : Buffers.bwrite havedisk1 s p i = .ok s') :
    ∃ t', Memide.bwrite n t p i = .ok t' ∧ Ahead s' t' := by
  obtain ⟨hh, rfl⟩ := Buffers.bwrite_cases h
  obtain ⟨c, ho⟩ := hh.owner
  have hi := hw.not_queued (.inr ho)
  have hbi := hA.buf_eq hi
  have hsome : (s.owner i).isSome = true := by rw [ho]; rfl
  have hbusy := (hw.fine i).busy.trans hsome
  obtain ⟨hd, hb⟩ := hO i hsome
  unfold Memide.bwrite
  rw [if_pos (hA.holds hh), hbi, if_neg (by rw [hbusy]; decide)]
  have hset := (hA.set hi { s.buf i with dirty := true } (some (p, .writing))).setPc p (.call i)
  have hself : ∀ u : Cache,
    (((u.setBuf i { s.buf i with dirty := true }).setOwner i (some (p, .writing))).setPc p
    (.call i)).buf i =
      { s.buf i with dirty := true } := fun u => update_self ..
  refine ⟨_, iderw_transfer ?_ (.inr ?_) ?_ ?_, hset.push hi fun j hj => ?_⟩
  · rw [hself, hbusy]
  · rw [hself]
  · rw [hself, hd]
  · rwa [hself]
  · rw [hself, show (((s.setBuf i _).setOwner i _).setPc p _).buf j = s.buf j from
      update_of_ne hj ..]
    exact other_block hw (hw.real ho) hj

theorem Ahead.brelse (hi : i ∉ s.queue) :
    Ahead ((s.release i).wakeup i) ((t.release i).wakeup i) := by
  have hset := hA.set hi { s.buf i with busy := false } none
  have hbi := hA.buf_eq hi
  have hrel : t.release i = { (t.setBuf i { s.buf i with busy := false }).setOwner i none with
      links := (t.links.unlink (some i)).insert none (some i)
      left := update t.left (s.buf i).dev (update (t.left (s.buf i).dev) (s.buf i).blockno
        (some (s.buf i).data)) } := by
    unfold Cache.release
    rw [hbi]
  rw [hrel]
  refine ⟨?_, hset.owner, ?_, ?_, hset.buf, hset.written, hset.disk⟩
  · show (t.links.unlink (some i)).insert none (some i) =
      (s.links.unlink (some i)).insert none (some i)
    rw [hA.links]
  · unfold Cache.wakeup
    simp only [hset.pc]
    rfl
  · show update t.left _ _ = update s.left _ _
    rw [hA.left]

/-- One step of the kernel with ide.c, on disk 1, is one of the kernel with memide.c. -/
theorem ahead_step (hw : Wf s) (hO : Onto 1 n s) (h : Buffers.step havedisk1 s e = .ok s') :
    ∃ t', step n t e = .ok t' ∧ Ahead s' t' := by
  cases e with
  | scan p dev b =>
    obtain ⟨t', ht, hA'⟩ := hA.scan hw h
    exact ⟨t', congrArg (Except.mapError Stop.shared) ht, hA'⟩
  | enter p => exact hA.enter hw hO h
  | ideintr =>
    obtain rfl | ⟨i, q, hq, rfl⟩ := Buffers.ideintr_cases h
    · exact ⟨t, rfl, hA⟩
    · exact ⟨t, rfl, hA.serve hw hq⟩
  | finish p =>
    obtain ⟨i, hpc, ho, hv, hc, rfl⟩ := Buffers.finish_cases h
    have hi : i ∉ s.queue := fun hq => by
      obtain ⟨-, ⟨-, hv'⟩ | ⟨-, hc'⟩⟩ := (hw.fine i).queued hq
      · exact Buffers.flag_clash hv hv'
      · exact Buffers.flag_clash hc' hc
    have ht : Buffers.finish t p = .ok ((t.setOwner i (some (p, .held false))).setPc p .out) := by
      unfold Buffers.finish
      rw [hA.pc, hpc]
      simp only
      rw [hA.owner, hA.buf_eq hi, if_pos ⟨ho, hv, hc⟩]
    exact ⟨_, congrArg (Except.mapError Stop.shared) ht, (hA.setOwner hi _).setPc p _⟩
  | modify p i f =>
    obtain ⟨hh, rfl⟩ := Buffers.modify_cases h
    have hi := hw.not_queued (.inr hh.owner.choose_spec)
    have ht : Buffers.modify t p i f =
        .ok ((t.setBuf i { s.buf i with data := f (s.buf i).data }).setOwner i
        (some (p, .held true))) := by
      unfold Buffers.modify
      rw [if_pos (hA.holds hh), hA.buf_eq hi]
    exact ⟨_, congrArg (Except.mapError Stop.shared) ht, hA.set hi _ _⟩
  | logWrite p i =>
    obtain ⟨hh, rfl⟩ := Buffers.logWrite_cases h
    have hi := hw.not_queued (.inr hh.owner.choose_spec)
    have ht : Buffers.logWrite t p i =
        .ok ((t.setBuf i { s.buf i with dirty := true }).setOwner i (some (p, .held false))) := by
      unfold Buffers.logWrite
      rw [if_pos (hA.holds hh), hA.buf_eq hi]
    exact ⟨_, congrArg (Except.mapError Stop.shared) ht, hA.set hi _ _⟩
  | bwrite p i => exact hA.bwrite hw hO h
  | brelse p i =>
    obtain ⟨ho, rfl⟩ := Buffers.brelse_cases h
    have hi := hw.not_queued (.inr ho)
    have hpc : s.pc p = .out := by
      replace h : Buffers.brelse s p i = _ := h
      unfold Buffers.brelse at h
      split at h
      · rename_i hc
        exact hc.1
      · cases h
    have ht : Buffers.brelse t p i = .ok ((t.release i).wakeup i) := by
      unfold Buffers.brelse
      have hbusy := (hw.fine i).busy
      rw [ho] at hbusy
      rw [hA.pc, hA.owner, if_pos ⟨hpc, ho⟩, hA.buf_eq hi, hbusy]
      rfl
    exact ⟨_, congrArg (Except.mapError Stop.shared) ht, hA.brelse hi⟩
  | kill p =>
    replace h : Buffers.kill s p = _ := h
    unfold Buffers.kill at h
    split at h
    · rename_i j dev b hpc
      cases h
      have ht : Buffers.kill t p = .ok (t.setPc p (.woken dev b)) := by
        unfold Buffers.kill
        rw [hA.pc, hpc]
      exact ⟨_, congrArg (Except.mapError Stop.shared) ht, hA.setPc p _⟩
    · cases h

end

/-- **memide.c is ahead of ide.c by the queue**, in every run on disk 1. -/
theorem ahead_run : ∀ {tr : List Buffers.Ev} {s : Cache}, (∀ e ∈ tr, On 1 n e) →
    Buffers.run havedisk1 disk tr = .ok s → ∃ t, run n disk tr = .ok t ∧ Ahead s t
  | [], _, _, h => by
    cases h
    exact ⟨_, rfl, Ahead.refl rfl⟩
  | e :: tr, _, htr, h => by
    obtain ⟨s, hs, hstep⟩ := run_cons h
    have htr' : ∀ e ∈ tr, On 1 n e := fun e he => htr e (mem_cons_of_mem _ he)
    obtain ⟨t, ht, hA⟩ := ahead_run htr' hs
    obtain ⟨t', ht', hA'⟩ := ahead_step hA (Buffers.wf_run hs) (onto_run htr' hs) hstep
    refine ⟨t', ?_, hA'⟩
    unfold run
    rw [ht]
    exact ht'

/-! ## ide.c does not panic -/

theorem idestart_ok {x : Buf} (h : x.blockno < FSSIZE * 4) : idestart x = .ok () := by
  unfold idestart
  rw [if_neg (Nat.not_le.2 h)]

theorem ide_ok (hb : (s.buf i).busy = true) (hv : (s.buf i).valid = false ∨ (s.buf i).dirty = true)
    (hd : (s.buf i).dev = 0 ∨ havedisk1 = true) (hn : (s.buf i).blockno < FSSIZE * 4) :
    ∃ s', Buffers.iderw havedisk1 s i = .ok s' := by
  unfold Buffers.iderw
  have hdo : ((s.buf i).valid && !(s.buf i).dirty) = false := by
    rcases hv with hv | hv <;> simp [hv]
  have hdisk : ¬ ((s.buf i).dev ≠ 0 ∧ havedisk1 = false) := fun h => by
    rcases hd with hd | hd
    · exact h.1 hd
    · exact Buffers.flag_clash hd h.2
  simp only [hb, hdo, hdisk, idestart_ok hn, Bool.not_true, Bool.false_eq_true, if_false]
  split
  · exact ⟨_, rfl⟩
  · exact ⟨_, rfl⟩

section Errors
variable {stop : Buffers.Stop}

theorem calm_step (henter : ∀ p, e ≠ .enter p) (hintr : e ≠ .ideintr)
    (hwrite : ∀ p i, e ≠ .bwrite p i)
    (h : Buffers.step havedisk1 s e = .error stop) : ofDriver stop = false := by
  cases e with
  | enter p => exact absurd rfl (henter p)
  | ideintr => exact absurd rfl hintr
  | bwrite p i => exact absurd rfl (hwrite p i)
  | _ =>
    simp only [Buffers.step, Buffers.scan, Buffers.finish, Buffers.modify, Buffers.logWrite,
      Buffers.brelse, Buffers.kill] at h
    repeat' split at h
    all_goals cases h
    all_goals rfl

theorem ide_step (hw : Wf s) (hO : Onto d n s) (hd : d = 0 ∨ havedisk1 = true) (hn : n ≤ FSSIZE * 4)
    (h : Buffers.step havedisk1 s e = .error stop) : ofDriver stop = false := by
  have hblock : ∀ {i u}, s.owner i = some u → ((s.buf i).dev = 0 ∨ havedisk1 = true) ∧
      (s.buf i).blockno < FSSIZE * 4 :=
    fun {i u} ho => by
      obtain ⟨rfl, hb⟩ := hO i (by rw [ho]; rfl)
      exact ⟨hd, lt_of_lt_of_le hb hn⟩
  cases e with
  | enter p =>
    replace h : Buffers.enter havedisk1 s p = _ := h
    unfold Buffers.enter at h
    split at h
    case h_2 => cases h; rfl
    case h_1 i hpc =>
      split at h
      case isFalse => cases h; rfl
      case isTrue ho =>
        split at h
        case isTrue => cases h
        case isFalse hv =>
          have hbusy := (hw.fine i).busy
          rw [ho] at hbusy
          obtain ⟨s', hs'⟩ := ide_ok (s := s.setOwner i (some (p, .reading))) hbusy
            (.inl (Bool.eq_false_iff.2 hv))
            (hblock ho).1 (hblock ho).2
          rw [hs'] at h
          cases h
  | ideintr =>
    replace h : Buffers.ideintr s = _ := h
    unfold Buffers.ideintr at h
    split at h
    case h_1 => cases h
    case h_2 i q hq =>
      dsimp only at h
      split at h
      case h_1 => cases h
      case h_2 j q' =>
        have hj : j ∈ s.queue := by rw [hq]; simp
        obtain ⟨u, ho⟩ := Option.isSome_iff_exists.1 (queued_isSome hw hj)
        have hno : ((s.transfer i).buf j).blockno = (s.buf j).blockno := by
          rw [transfer_buf]
          by_cases hji : j = i
          · rw [hji, update_self, served_blockno]
          · rw [update_of_ne hji]
        have hok : idestart ((s.transfer i).buf j) = .ok () :=
          idestart_ok (by rw [hno]; exact (hblock ho).2)
        rw [hok] at h
        cases h
  | bwrite p i =>
    replace h : Buffers.bwrite havedisk1 s p i = _ := h
    unfold Buffers.bwrite at h
    split at h
    case isFalse => cases h; rfl
    case isTrue hh =>
      obtain ⟨c, ho⟩ := hh.owner
      split at h
      case isTrue => cases h; rfl
      case isFalse hbusy =>
        generalize hu : ((s.setBuf i { s.buf i with dirty := true }).setOwner i
          (some (p, .writing))).setPc p (.call i) = u at h
        have hself : u.buf i = { s.buf i with dirty := true } := by rw [← hu]; exact update_self ..
        obtain ⟨s', hs'⟩ := ide_ok (s := u) (by rw [hself]; simpa using hbusy)
          (.inr (by rw [hself]))
          (by rw [hself]; exact (hblock ho).1) (by rw [hself]; exact (hblock ho).2)
        rw [hs'] at h
        cases h
  | _ => exact calm_step (by simp) (by simp) (by simp) h

theorem ide_run : ∀ {tr : List Buffers.Ev}, (∀ e ∈ tr, On d n e) → d = 0 ∨
    havedisk1 = true → n ≤ FSSIZE * 4 →
    Buffers.run havedisk1 disk tr = .error stop → ofDriver stop = false
  | [], _, _, _, h => by cases h
  | e :: tr, htr, hd, hn, h => by
    have htr' : ∀ e ∈ tr, On d n e := fun e he => htr e (mem_cons_of_mem _ he)
    unfold Buffers.run at h
    cases hs : Buffers.run havedisk1 disk tr with
    | error stop' =>
      rw [hs] at h
      cases h
      exact ide_run htr' hd hn hs
    | ok s =>
      rw [hs] at h
      exact ide_step (Buffers.wf_run hs) (onto_run htr' hs) hd hn h

end Errors

/-! ## Before the first read -/

/-- No driver has been called. -/
structure Unread (s : Cache) : Prop where
  valid : ∀ i, (s.buf i).valid = false
  owner : ∀ i, s.owner i = none ∨ ∃ p, s.owner i = some (p, .got)
  queue : s.queue = []

theorem Unread.not_holds (hU : Unread s) : ¬ s.holds p i := fun h => by
  obtain ⟨c, ho⟩ := h.owner
  rcases hU.owner i with h | ⟨q, h⟩
  · rw [h] at ho; cases ho
  · rw [h] at ho; cases ho

theorem Unread.grab (hU : Unread s) (x : Buf) (hx : x.valid = false) : Unread (s.grab p i x) := by
  refine ⟨fun j => ?_, fun j => ?_, hU.queue⟩
  · show (update s.buf i x j).valid = false
    by_cases hji : j = i
    · rw [hji, update_self, hx]
    · rw [update_of_ne hji, hU.valid]
  · show update s.owner i _ j = none ∨ ∃ q, update s.owner i _ j = some (q, .got)
    by_cases hji : j = i
    · exact .inr ⟨p, by rw [hji, update_self]⟩
    · rw [update_of_ne hji]
      exact hU.owner j

theorem unread_step (hw : Wf s) (hU : Unread s) (he : ∀ p, e ≠ .enter p) :
    step n s e = (Buffers.step havedisk1 s e).mapError .shared ∧
    (∀ s', Buffers.step havedisk1 s e = .ok s' → Unread s') ∧
      ∀ stop, Buffers.step havedisk1 s e = .error stop → ofDriver stop = false := by
  cases e with
  | enter p => exact absurd rfl (he p)
  | scan p dev b =>
    refine ⟨rfl, fun s' h => ?_, fun stop h => calm_step (by simp) (by simp) (by simp) h⟩
    obtain ⟨-, ⟨i, rfl⟩ | ⟨i, -, -, -, rfl⟩ | ⟨i, -, -, -, rfl⟩⟩ := Buffers.scan_cases hw h
    · exact ⟨hU.valid, hU.owner, hU.queue⟩
    · exact hU.grab _ (hU.valid i)
    · exact hU.grab _ rfl
  | ideintr =>
    have h : Buffers.step havedisk1 s .ideintr = .ok s := by
      show Buffers.ideintr s = _
      unfold Buffers.ideintr
      rw [hU.queue]
    rw [h]
    exact ⟨rfl, fun s' hs' => by cases hs'; exact hU, nofun⟩
  | finish p =>
    refine ⟨rfl, fun s' h => ?_, fun stop h => calm_step (by simp) (by simp) (by simp) h⟩
    obtain ⟨i, -, ho, -⟩ := Buffers.finish_cases h
    rcases hU.owner i with h | ⟨q, h⟩ <;> rw [h] at ho <;> rcases ho with ho | ho <;> cases ho
  | modify p i f =>
    exact ⟨rfl, fun s' h => absurd (Buffers.modify_cases h).1 hU.not_holds,
      fun stop h => calm_step (by simp) (by simp) (by simp) h⟩
  | logWrite p i =>
    exact ⟨rfl, fun s' h => absurd (Buffers.logWrite_cases h).1 hU.not_holds,
      fun stop h => calm_step (by simp) (by simp) (by simp) h⟩
  | bwrite p i =>
    have h : Buffers.step havedisk1 s (.bwrite p i) = .error .disabled := if_neg hU.not_holds
    rw [h]
    exact ⟨if_neg hU.not_holds, nofun, fun stop hs => by cases hs; rfl⟩
  | brelse p i =>
    refine ⟨rfl, fun s' h => ?_, fun stop h => calm_step (by simp) (by simp) (by simp) h⟩
    have ho := (Buffers.brelse_cases h).1
    rcases hU.owner i with h | ⟨q, h⟩ <;> rw [h] at ho <;> cases ho
  | kill p =>
    refine ⟨rfl, fun s' h => ?_, fun stop h => calm_step (by simp) (by simp) (by simp) h⟩
    obtain ⟨c, rfl⟩ := Buffers.kill_cases h
    exact ⟨hU.valid, hU.owner, hU.queue⟩

theorem unread_run (n : Nat) (havedisk1 : Bool) (disk : Nat → Nat → Block) :
    ∀ {tr : List Buffers.Ev}, (∀ p, .enter p ∉ tr) →
    run n disk tr = (Buffers.run havedisk1 disk tr).mapError .shared ∧
      (∀ s, Buffers.run havedisk1 disk tr = .ok s → Unread s) ∧
      ∀ stop, Buffers.run havedisk1 disk tr = .error stop → ofDriver stop = false
  | [], _ => ⟨rfl, fun s h => by cases h; exact ⟨fun _ => rfl, fun _ => .inl rfl, rfl⟩, nofun⟩
  | e :: tr, htr => by
    obtain ⟨hrun, hU, hstop⟩ := unread_run n havedisk1 disk fun p hp => htr p (mem_cons_of_mem _ hp)
    have hcons : Buffers.run havedisk1 disk (e :: tr) =
        (Buffers.run havedisk1 disk tr).bind fun s => Buffers.step havedisk1 s e := rfl
    have hcons' : run n disk (e :: tr) = (run n disk tr).bind fun s => step n s e := rfl
    rw [hcons, hcons', hrun]
    cases hs : Buffers.run havedisk1 disk tr with
    | error stop => exact ⟨rfl, nofun, fun stop' h => by cases h; exact hstop stop hs⟩
    | ok s =>
      exact unread_step (Buffers.wf_run hs) (hU s hs) fun p hp => htr p (hp ▸ mem_cons_self ..)

theorem first_read : ∀ {tr : List Buffers.Ev} {s : Cache}, (∀ e ∈ tr, On d n e) → d ≠ 1 →
    Buffers.run havedisk1 disk tr = .ok s → (∃ p, .enter p ∈ tr) → run n disk tr = .error .notDisk1
  | [], _, _, _, _, ⟨p, hp⟩ => absurd hp not_mem_nil
  | e :: tr, _, htr, hd, h, ⟨p, hp⟩ => by
    obtain ⟨s, hs, hstep⟩ := run_cons h
    have htr' : ∀ e ∈ tr, On d n e := fun e he => htr e (mem_cons_of_mem _ he)
    have hcons : run n disk (e :: tr) = (run n disk tr).bind fun s => step n s e := rfl
    rw [hcons]
    by_cases hq : ∃ q, .enter q ∈ tr
    · rw [first_read htr' hd hs hq]
      rfl
    · -- this is the first one
      obtain ⟨hrun, hU, -⟩ := unread_run n havedisk1 disk fun q hmem => hq ⟨q, hmem⟩
      rw [hs] at hrun
      rw [hrun]
      obtain rfl : .enter p = e := (List.mem_cons.1 hp).resolve_right fun hmem => hq ⟨p, hmem⟩
      obtain ⟨i, hpc, ho, -⟩ := Buffers.enter_cases hstep
      have hbusy := (Buffers.wf_run hs).fine i |>.busy
      rw [ho] at hbusy
      have hdev := (onto_run htr' hs i (by rw [ho]; rfl)).1
      show enter n s p = .error .notDisk1
      unfold enter
      rw [hpc]
      simp only [if_pos ho, (hU s hs).valid i, Bool.false_eq_true, if_false]
      unfold iderw
      have hbuf : (s.setOwner i (some (p, .reading))).buf i = s.buf i := rfl
      have hne : (s.buf i).dev ≠ 1 := fun h => hd (hdev.symm.trans h)
      simp [hbuf, hbusy, (hU s hs).valid i, hne]

/-! ## One driver for the other -/

structure DropIn (havedisk1 : Bool) (disksize : Nat) (disk : Nat → Nat → Block)
    (tr : List Buffers.Ev) : Prop where
  ide : ∀ stop, Buffers.run havedisk1 disk tr = .error stop → ofDriver stop = false
  memide : ∀ stop, run disksize disk tr = .error stop → stop.ofDriver = false
  same : ∀ s, Buffers.run havedisk1 disk tr = .ok s → s.queue = [] →
    ∃ t, run disksize disk tr = .ok t ∧ t.buf = s.buf ∧ t.disk = s.disk

/-- **Drop-in.** `tr` is what the processes do with blocks of disk `d` inside the image, in any
order that the kernel allows (nothing but a driver stops it). The root file system is on disk
`ROOTDEV`, which is not 1. -/
theorem drop_in_iff (htr : ∀ e ∈ tr, On d n e) (hdisk : d = 1 → havedisk1 = true ∧ n ≤ FSSIZE * 4)
    (hrun : ∀ stop, Buffers.run havedisk1 disk tr = .error stop → ofDriver stop = true) :
    DropIn havedisk1 n disk tr ↔ d = 1 ∨ ∀ p, .enter p ∉ tr := by
  constructor
  · intro h
    by_contra hcon
    obtain ⟨hd, hread⟩ := not_or.1 hcon
    obtain ⟨p, hp⟩ := not_forall.1 hread
    cases hs : Buffers.run havedisk1 disk tr with
    | error stop => exact Buffers.flag_clash (hrun stop hs) (h.ide stop hs)
    | ok s =>
      have := h.memide _ (first_read htr hd hs ⟨p, not_not.1 hp⟩)
      cases this
  · rintro (rfl | hread)
    · obtain ⟨hone, hn⟩ := hdisk rfl
      have hide : ∀ stop, Buffers.run havedisk1 disk tr = .error stop → ofDriver stop =
          false := fun stop h =>
        ide_run htr (.inr hone) hn h
      cases hs : Buffers.run havedisk1 disk tr with
      | error stop => exact Buffers.flag_clash (hrun stop hs) (hide stop hs)
      | ok s =>
        obtain ⟨t, ht, hA⟩ := ahead_run htr hs
        refine ⟨hide, fun stop h => ?_, fun s' hs' hq => ?_⟩
        · rw [ht] at h
          cases h
        · rw [hs] at hs'
          cases hs'
          exact ⟨t, ht, hA.done hq⟩
    · obtain ⟨hsame, -, hstop⟩ := unread_run n havedisk1 disk hread
      cases hs : Buffers.run havedisk1 disk tr with
      | error stop => exact Buffers.flag_clash (hrun stop hs) (hstop stop hs)
      | ok s =>
        rw [hs] at hsame
        refine ⟨hstop, fun stop h => ?_, fun s' hs' _ => ?_⟩
        · rw [hsame] at h
          cases h
        · rw [hs] at hs'
          cases hs'
          exact ⟨s, hsame, rfl, rfl⟩

/-- Block 7 of a disk is read. -/
def readOne (dev : Nat) : List Buffers.Ev := [.finish 0, .ideintr, .enter 0, .scan 0 dev 7]

theorem on_readOne (dev : Nat) : ∀ e ∈ readOne dev, On dev 4000 e := by
  intro e he
  simp only [readOne, List.mem_cons, not_mem_nil, or_false] at he
  rcases he with rfl | rfl | rfl | rfl
  · trivial
  · trivial
  · trivial
  · exact ⟨rfl, by decide⟩

theorem drop_in_iff_disk1 :
    ∃ s, Buffers.run true (fun _ _ => Bytes.zero) (readOne 1) = .ok s ∧ s.queue = [] ∧
      DropIn true 4000 (fun _ _ => Bytes.zero) (readOne 1) := by
  have hok : (Buffers.run true (fun _ _ => Bytes.zero) (readOne 1)).toOption.map
      (fun s => s.queue) = some [] := by decide +kernel
  obtain ⟨s, hs, hq⟩ := Prog.ok_of_map hok
  refine ⟨s, hs, hq, (drop_in_iff (on_readOne 1) (fun _ => ⟨rfl, by decide⟩) fun stop h => ?_).2
    (.inl rfl)⟩
  rw [hs] at h
  cases h

/-- The first block of the root file system that the kernel reads: ide.c reads it, memide.c
panics. -/
theorem root_disk_refused :
    (∃ s, Buffers.run false (fun _ _ => Bytes.zero) (readOne ROOTDEV) = .ok s ∧ s.queue = []) ∧
    run 4000 (fun _ _ => Bytes.zero) (readOne ROOTDEV) = .error .notDisk1 := by
  have hok : (Buffers.run false (fun _ _ => Bytes.zero) (readOne ROOTDEV)).toOption.map
      (fun s => s.queue) = some [] := by
    decide +kernel
  obtain ⟨s, hs, hq⟩ := Prog.ok_of_map hok
  exact ⟨⟨s, hs, hq⟩, first_read (on_readOne ROOTDEV) (by decide) hs ⟨0, by simp [readOne]⟩⟩

end Os4.Log.Memide
