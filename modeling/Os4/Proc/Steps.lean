import Os4.Lib.Notes
import Os4.Proc.Vm
/-!
# What the steps of vm.c and exec.c leave alone

| here | there |
| --- | --- |
| `Same s s'` | no open file, descriptor or pipe changes, and the same processes are alive |
| `Leaves m` | that is so for the program `m`, which has no `panic` of file.c |
| `Basic w t` | so it is for every step of `t`, and all are steps of `w` |
-/
namespace Os4.Vm

open Prog

structure Same (s s' : St) : Prop where
  ftable : s'.ftable = s.ftable
  isopen : s'.isopen = s.isopen
  ofile : ∀ q, (s'.procs q).ofile = (s.procs q).ofile
  live : ∀ q, (s'.procs q).status = .live ↔ (s.procs q).status = .live

def Leaves {α : Type} (m : VmM α) : Prop :=
  ∀ s, m.wp (fun _ s' => Same s s') (fun e => e ≠ .filedup ∧ e ≠ .fileclose) s

/-- A step of another kind than those of pipe.c. -/
def Point.off : Point → Bool
  | filled _ | freed _ => false
  | _ => true

/-- All steps are those of `w`, and none concerns files. -/
def Basic {α : Type} (w : Caller) (t : Code α) : Prop :=
  t.EachAt fun l _ m => l.1 = w ∧ l.2.off = true ∧ Leaves m

variable {L : Layout} {α β : Type} {w : Caller} {s s' s'' : St} {m : VmM α} {d f src : Frame}
  {S : Space} {u : Bool}
  {x : Image} {v addr memsz offset sz oldsz newsz : Nat} {p q : Fin NPROC} {y : Proc}
  {null : Option Bool} {hdr : List UInt8} {lens : List Nat}

/-! ## Programs -/

theorem Same.refl (s : St) : Same s s := ⟨rfl, rfl, fun _ => rfl, fun _ => Iff.rfl⟩

theorem Same.trans (h : Same s s') (h' : Same s' s'') : Same s s'' where
  ftable := h'.ftable.trans h.ftable
  isopen := h'.isopen.trans h.isopen
  ofile q := (h'.ofile q).trans (h.ofile q)
  live q := (h'.live q).trans (h.live q)

theorem same_withFree (fl : List Frame) : Same s (s.withFree fl) :=
  ⟨rfl, rfl, fun _ => rfl, fun _ => Iff.rfl⟩

theorem same_withProc (hf : y.ofile = (s.procs q).ofile)
    (hl : y.status = .live ↔ (s.procs q).status = .live) :
    Same s (s.withProc q y) := by
  refine ⟨rfl, rfl, fun q' => ?_, fun q' => ?_⟩
  · show (Function.update s.procs q y q').ofile = _
    by_cases hq : q' = q
    · rw [hq, Function.update_self, hf]
    · rw [Function.update_of_ne hq]
  · show (Function.update s.procs q y q').status = .live ↔ _
    by_cases hq : q' = q
    · rw [hq, Function.update_self, hl]
    · rw [Function.update_of_ne hq]

theorem Leaves.bind {f : α → VmM β} (hm : Leaves m) (hf : ∀ a, Leaves (f a)) :
    Leaves (m >>= f) := by
  intro s
  rw [wp_bind]
  refine wp_mono (hm s) fun a s' hs => ?_
  exact wp_mono (hf a s') fun _ _ hs' => hs.trans hs'

theorem Leaves.pure (a : α) : Leaves (pure a : VmM α) := fun s => Same.refl s

theorem Leaves.throw {e : Panic} (he : e ≠ .filedup ∧ e ≠ .fileclose) : Leaves (throw e : VmM α) :=
  fun _ => he

theorem leaves_kalloc : Leaves kalloc := by
  intro s
  unfold kalloc
  rw [wp_bind, wp_get]
  split
  · exact Same.refl s
  · exact same_withFree _

theorem leaves_kfree : Leaves (kfree L f) := by
  unfold kfree
  split
  · exact .throw ⟨nofun, nofun⟩
  · exact fun s => same_withFree _

theorem leaves_dir : Leaves (dir d) := fun s => Same.refl s

theorem leaves_setDir : Leaves (setDir d S) := fun _ => ⟨rfl, rfl, fun _ => rfl, fun _ => Iff.rfl⟩

theorem leaves_newTable : Leaves (newTable d v) := by
  refine leaves_kalloc.bind fun r => ?_
  cases r with
  | none => exact .pure _
  | some t => exact leaves_dir.bind fun S => leaves_setDir.bind fun _ => .pure _

theorem leaves_putPte : Leaves (putPte d v f u) := by
  refine leaves_dir.bind fun S => ?_
  split
  · exact .throw ⟨nofun, nofun⟩
  · exact leaves_setDir

theorem leaves_newDir : Leaves newDir := by
  refine leaves_kalloc.bind fun r => ?_
  cases r with
  | none => exact .pure _
  | some d => exact leaves_setDir.bind fun _ => .pure _

theorem leaves_pte : Leaves (pte d v) := fun s => Same.refl s

theorem leaves_clearPte : Leaves (clearPte d v) := leaves_dir.bind fun _ => leaves_setDir

theorem leaves_uva2ka : Leaves (uva2ka d v null) := by
  refine leaves_dir.bind fun S => ?_
  split
  · split
    · exact .pure _
    · exact .pure _
  · cases null with
    | none => exact .throw ⟨nofun, nofun⟩
    | some b => exact .pure _

theorem leaves_checkAlign : Leaves (checkAlign addr) := by
  unfold checkAlign
  split
  · exact .throw ⟨nofun, nofun⟩
  · exact .pure _

theorem leaves_proc : Leaves (proc p) := by
  intro s
  unfold proc
  rw [wp_bind, wp_get]
  dsimp only
  split
  · exact Same.refl s
  · exact ⟨nofun, nofun⟩

/-- A change to the process itself, of something else than its descriptors. -/
theorem leaves_own {R : Proc → Proc} {r : Proc → α}
    (hR : ∀ x, (R x).ofile = x.ofile ∧ (R x).status = x.status) :
    Leaves (do let x ← proc p; setProc p (R x); return r x) := by
  intro s
  unfold proc
  simp only [wp_bind, wp_get]
  split
  · simp only [wp_pure, setProc, wp_modify]
    exact same_withProc (hR _).1 (by rw [(hR _).2])
  · exact ⟨by simp, by simp⟩

theorem leaves_commit : Leaves (commit p d sz) :=
  leaves_own (R := fun x => { x with pgdir := some d, sz }) fun _ => ⟨rfl, rfl⟩

theorem leaves_setSize : Leaves (setSize p sz) := by
  intro s
  unfold setSize proc
  simp only [wp_bind, wp_get]
  split
  · exact same_withProc rfl Iff.rfl
  · exact ⟨by simp, by simp⟩

/-! ## Threads -/

theorem Basic.pure (a : α) : Basic w (pure a) := trivial

theorem Basic.point {x : Point} (hx : x.off = true) (hm : Leaves m) : Basic w (.step (w, x) m) :=
  .step ⟨rfl, hx, hm⟩

theorem Basic.act (hm : Leaves m) : Basic w (act w m) := .point rfl hm

theorem Basic.throw {e : Panic} (he : e ≠ .filedup ∧ e ≠ .fileclose) :
    Basic w (Vm.act w (throw e : VmM α)) := .act (.throw he)

theorem Basic.bind {t : Code α} {f : α → Code β} (ht : Basic w t) (hf : ∀ a, Basic w (f a)) :
    Basic w (t >>= f) :=
  Thread.EachAt.bind ht hf

theorem basic_walkpgdir {alloc : Bool} : Basic w (walkpgdir w d v alloc) := by
  refine .bind (.act leaves_dir) fun S => ?_
  split
  · exact .pure _
  · split
    · exact .act leaves_newTable
    · exact .pure _

theorem basic_mappages : Basic w (mappages w d v f u) := by
  refine .bind basic_walkpgdir fun b => ?_
  split
  · exact .bind (.act leaves_putPte) fun _ => .pure _
  · exact .pure _

theorem basic_mapKernel : ∀ is, Basic w (mapKernel w d is)
  | [] => .pure _
  | i :: is => by
    refine .bind basic_walkpgdir fun b => ?_
    split
    · exact basic_mapKernel is
    · exact .pure _

theorem basic_setupkvm : Basic w (setupkvm w) := by
  refine .bind (.act leaves_newDir) fun r => ?_
  cases r with
  | none => exact .pure _
  | some d =>
    refine .bind (basic_mapKernel _) fun b => ?_
    split
    · exact .pure _
    · exact .pure _

theorem basic_deallocLoop {last : Nat} : ∀ fuel v, Basic w (deallocLoop L w d last fuel v)
  | 0, _ => .pure _
  | fuel + 1, v => by
    unfold deallocLoop
    split
    · refine .bind basic_walkpgdir fun b => ?_
      split
      · refine .bind (.act leaves_pte) fun e => ?_
        cases e with
        | none => exact basic_deallocLoop fuel _
        | some e =>
          exact .bind (.bind (.act leaves_kfree) fun _ => .point rfl leaves_clearPte) fun _ =>
            basic_deallocLoop fuel _
      · exact basic_deallocLoop fuel _
    · exact .pure _

theorem basic_deallocuvm : Basic w (deallocuvm L w d oldsz newsz) := by
  unfold deallocuvm
  split
  · exact .pure _
  · exact .bind (basic_deallocLoop _ _) fun _ => .pure _

theorem basic_allocLoop : ∀ vs, Basic w (allocLoop L w d oldsz newsz vs)
  | [] => .pure _
  | v :: vs => by
    refine .bind (.point rfl leaves_kalloc) fun r => ?_
    cases r with
    | none => exact .bind basic_deallocuvm fun _ => .pure _
    | some f => exact .bind basic_mappages fun _ => basic_allocLoop vs

theorem basic_allocuvm : Basic w (allocuvm L w d oldsz newsz) := by
  unfold allocuvm
  split
  · exact .pure _
  · split
    · exact .pure _
    · exact basic_allocLoop _

theorem basic_freeTables : ∀ is, Basic w (freeTables L w d is)
  | [] => .pure _
  | i :: is => by
    refine .bind (.act leaves_dir) fun S => ?_
    cases S.tables i with
    | none => exact basic_freeTables is
    | some t => exact .bind (.act leaves_kfree) fun _ => basic_freeTables is

theorem basic_freevm (d : Option Frame) : Basic w (freevm L w d) := by
  cases d with
  | none => exact .throw ⟨nofun, nofun⟩
  | some d =>
    unfold freevm
    generalize NPDENTRIES = n
    exact .bind basic_deallocuvm fun _ => .bind (basic_freeTables _) fun _ => .act leaves_kfree

theorem basic_copyLoop : ∀ vs, Basic w (copyLoop L w d src vs)
  | [] => .pure _
  | v :: vs => by
    refine .bind basic_walkpgdir fun b => ?_
    split
    · refine .bind (.act leaves_pte) fun e => ?_
      cases e with
      | none => exact .throw ⟨nofun, nofun⟩
      | some e =>
        refine .bind (.act leaves_kalloc) fun r => ?_
        cases r with
        | none => exact .bind (basic_freevm _) fun _ => .pure _
        | some f =>
          refine .bind basic_mappages fun b => ?_
          split
          · exact basic_copyLoop vs
          · exact .bind (basic_freevm _) fun _ => .pure _
    · exact .throw ⟨nofun, nofun⟩

theorem basic_copyuvm : Basic w (copyuvm L w src sz) := by
  refine .bind basic_setupkvm fun r => ?_
  cases r with
  | none => exact .pure _
  | some d => exact basic_copyLoop _

theorem basic_loadLoop : ∀ fuel i, Basic w (loadLoop w d addr x offset sz fuel i)
  | 0, _ => .pure _
  | fuel + 1, i => by
    unfold loadLoop
    split
    · refine .bind basic_walkpgdir fun b => ?_
      split
      · have hrest : Basic w (if (x.readi ((offset + i) % 2 ^ 32) (min (sz - i) PGSIZE)).1 ≠
          (min (sz - i) PGSIZE : Nat) then pure false
            else loadLoop w d addr x offset sz fuel (i + PGSIZE)) := by
          split
          · exact .pure _
          · exact basic_loadLoop fuel _
        dsimp only
        split
        · exact .bind (.point rfl (.pure _)) fun _ => hrest
        · exact hrest
      · exact .throw ⟨nofun, nofun⟩
    · exact .pure _

theorem basic_loadSegments : ∀ n off sz, Basic w (loadSegments L w d x n off sz)
  | 0, _, _ => .pure _
  | n + 1, off, sz => by
    unfold loadSegments
    dsimp only
    split
    · exact .pure _
    · split
      · exact basic_loadSegments n _ _
      · split
        · exact .pure _
        · refine .bind basic_allocuvm fun sz' => ?_
          split
          · exact .pure _
          · refine .bind (.bind (.point rfl leaves_checkAlign) fun _ =>
              basic_loadLoop _ _) fun b => ?_
            split
            · exact basic_loadSegments n _ _
            · exact .pure _

theorem basic_copyoutLoop : ∀ fuel va len, Basic w (copyoutLoop w d null fuel va len)
  | 0, _, _ => .pure _
  | fuel + 1, va, len => by
    unfold copyoutLoop
    split
    · exact .pure _
    · refine .bind (.point rfl leaves_uva2ka) fun b => ?_
      split
      · exact basic_copyoutLoop fuel _ _
      · exact .pure _

theorem basic_pushArgs : ∀ lens argc sp, Basic w (pushArgs w d null lens argc sp)
  | [], _, _ => .pure _
  | len :: lens, argc, sp => by
    unfold pushArgs
    split
    · exact .pure _
    · refine .bind (basic_copyoutLoop _ _ _) fun b => ?_
      split
      · exact basic_pushArgs lens _ _
      · exact .pure _

theorem basic_pushStack : Basic w (pushStack L w d sz lens null) := by
  refine .bind basic_allocuvm fun sz' => ?_
  split
  · exact .pure _
  · refine .bind (.bind basic_walkpgdir fun b => ?_) fun _ =>
      .bind (basic_pushArgs _ _ _) fun r => ?_
    · split
      · exact .act (leaves_dir.bind fun _ => leaves_setDir)
      · exact .throw ⟨nofun, nofun⟩
    · cases r with
      | none => exact .pure _
      | some r =>
        refine .bind (basic_copyoutLoop _ _ _) fun b => ?_
        split
        · exact .pure _
        · exact .pure _

theorem basic_build : Basic w (build L w d x hdr lens null) := by
  refine .bind (basic_loadSegments _ _ _) fun r => ?_
  cases r with
  | none => exact .pure _
  | some sz => exact basic_pushStack

theorem basic_exec {file : Option Image} : Basic .exec (exec L p file lens null) := by
  refine .bind (.point rfl leaves_proc) fun _ => ?_
  cases file with
  | none => exact .pure _
  | some img =>
    dsimp only
    split
    · exact .pure _
    · split
      · exact .pure _
      · refine .bind basic_setupkvm fun r => ?_
        cases r with
        | none => exact .pure _
        | some d =>
          refine .bind basic_build fun r => ?_
          cases r with
          | none => exact .bind (basic_freevm _) fun _ => .pure _
          | some sz =>
            exact .bind (.act leaves_commit) fun old => .bind (basic_freevm _) fun _ => .pure _

theorem basic_growproc {n : Int} : Basic .other (growproc L p n) := by
  refine .bind (.act leaves_proc) fun x => ?_
  have hsize : ∀ sz, Basic .other (if sz = 0 then pure (-1)
      else do act .other (setSize p sz); return (0 : Int)) := fun sz => by
    split
    · exact .pure _
    · exact .bind (.act leaves_setSize) fun _ => .pure _
  split
  · exact .throw ⟨nofun, nofun⟩
  · dsimp only
    split
    · exact .bind basic_allocuvm hsize
    · split
      · exact .bind basic_deallocuvm hsize
      · exact .bind (.act leaves_setSize) fun _ => .pure _

end Os4.Vm
