import Os4.Proc.Isolation
import Os4.Proc.Steps
/-!
# `exec` on any file (exec.c:11)

| here | there |
| --- | --- |
| `Mild` | what `exec` relies on and does not check |
| `InUser` | `loaduvm` stores to a user page below `KERNBASE` |
| `elf` | an executable with one segment |

`exec` relies on four things. `loaduvm` wants an address at a page boundary and pages that are
there, so `ph.vaddr` has to be a multiple of `PGSIZE`, and the bytes in the file have to end below
`ph.vaddr + ph.memsz`, which may wrap around: `allocuvm` takes an end that is too small for success
(vm.c:225). `allocuvm` does not look at what `mappages` returns (vm.c:239): if there is no memory
for a page table, `exec` fails as it should only if the next `kalloc` fails too, and the last page
that `loaduvm` loads must not be the one that is missing. And `uva2ka` does not look at what
`walkpgdir` returns (vm.c:345).

* **`exec_safe`**: a call of `exec` in a run whose steps are `Mild` meets no `panic`, stores to user
  pages and returns 0 or -1.
* `exec_panics`: it panics on a segment at address 1. `exec_unsafe`: it goes wrong where the sum
  wraps around, where there is no memory for a table, and where `uva2ka` finds no table.
-/
namespace Os4.Vm

open Prog

variable {L : Layout} {s : St} {c : System} {p q : Fin NPROC} {file : Option Image}
  {lens : List Nat} {null : Option Bool}

/-! ## What its steps are called and what it returns -/

/-- All steps are those of `w`. -/
def By {α : Type} (w : Caller) (t : Code α) : Prop := t.Shows (fun l => l.1 = w) fun _ => True

theorem Basic.by {α : Type} {w : Caller} {t : Code α} (ht : Basic w t) : By w t :=
  Thread.EachAt.shows ht fun _ _ _ h => h.1

/-- A step of `exec`, if that is the job. -/
def Job.Step : Job → Caller × Point → Prop
  | .exec .., l => l.1 = .exec
  | _, _ => True

/-- The result of `exec`, if that is the job. -/
def Job.Result : Job → Int → Prop
  | .exec .., r => r = 0 ∨ r = -1
  | _, _ => True

theorem exec_shows : (exec L p file lens null).Shows (fun l => l.1 = .exec) fun r =>
    r = 0 ∨ r = -1 := by
  refine .bind (.step rfl) fun _ _ => ?_
  cases file with
  | none => exact .inr rfl
  | some img =>
    dsimp only
    split
    · exact .inr rfl
    · split
      · exact .inr rfl
      · refine .bind basic_setupkvm.by fun r _ => ?_
        cases r with
        | none => exact .inr rfl
        | some d =>
          refine .bind basic_build.by fun r _ => ?_
          cases r with
          | none => exact .bind (basic_freevm _).by fun _ _ => .inr rfl
          | some sz =>
            exact .bind (Basic.act leaves_commit).by fun old _ =>
              .bind (basic_freevm _).by fun _ _ => .inl rfl

theorem job_shows (j : Job) : (j.code L).Shows j.Step j.Result := by
  cases j with
  | exec p file lens null => exact exec_shows
  | boot => exact .trivial _
  | fork p => exact .trivial _
  | sbrk p n => exact .trivial _
  | pipe p => exact .trivial _
  | close p fd => exact .trivial _
  | dup p fd => exact .trivial _
  | openFile p found => exact .trivial _
  | exit p => exact .trivial _
  | wait p killed => exact .trivial _

/-! ## No panic -/

/-- **`exec` is safe on every file.** In every run whose steps are `Mild` a call of `exec` has
returned 0 or -1, or it can go on, and if the next step is a store of `loaduvm` this is to a user
page. Only at its start there may be no process that makes the call. -/
theorem exec_safe {t : Code Int} (hs : Raw L s)
    (h : Pool.Reaches (machine L) Mild ⟨fun _ => none, s⟩ c)
    (hp : c.calls p = some (.exec q file lens null, t)) :
    match t with
    | .ret r => r = 0 ∨ r = -1
    | .atom l m _ => Mild l c.state →
      match m c.state with
      | .ok _ => InUser l c.state
      | .error e => l.2 = .enter ∧ e = .disabled := by
  have hshow := h.shows (R := Job.Step)
    (Q := Job.Result) job_shows (fun _ _ _ hi => by cases hi) p _ t hp
  cases t with
  | ret r => exact hshow
  | atom l m k =>
    intro hl
    have hS := (sound_raw True hs).reaches memory_obeys (h.mono fun _ _ hl _ => hl)
    have hwp := hS.atom hp fun _ => hl
    cases hm : m c.state with
    | ok r => exact (wp_ok hwp hm).1.1 trivial
    | error e => exact wp_error hwp hm trivial hshow.1

/-! ## Runs -/

/-- Little-endian. -/
def le4 (n : Nat) : List UInt8 := [n, n / 2 ^ 8, n / 2 ^ 16, n / 2 ^ 24].map UInt8.ofNat

/-- An ELF header and one program header; the segment is loaded from the start of the file. -/
def elf (vaddr filesz memsz : Nat) : Image where
  bytes := le4 ELF_MAGIC ++ List.replicate 24 0 ++ le4 52 ++ List.replicate 12 0 ++ [1, 0] ++
    List.replicate 6 0 ++ le4 ELF_PROG_LOAD ++ le4 0 ++ le4 vaddr ++ le4 0 ++ le4 filesz ++
    le4 memsz ++ List.replicate 8 0
  small := by simp [le4, MAXFILE, BSIZE, NDIRECT, NINDIRECT]

/-- The system boots; the first process calls `exec` and goes on for `n` steps. -/
def execs (img : Image) (lens : List Nat) (n : Nat) : List (Pool.Ev (Fin NPROC) Job) :=
  .start .boot :: List.replicate 268 (.go 0) ++ .start (.exec 0 (some img) lens none) ::
  List.replicate n (.go 0)

/-- `exec` loads a segment, and returns. -/
theorem exec_safe_loads : Raw demoLayout allFree ∧
    (∃ c, Pool.Reaches (machine demoLayout) Mild ⟨fun _ => none, allFree⟩ c ∧
      c.label 0 = some (.exec, .load 134 0) ∧ InUser (.exec, .load 134 0) c.state) ∧
    ∃ c r, Pool.Reaches (machine demoLayout) Mild ⟨fun _ => none, allFree⟩ c ∧
      c.result 0 = some r ∧ r = 0 ∧ (r = 0 ∨ r = -1) := by
  have hload : (Pool.execAll (machine demoLayout) (fun l s => decide (Mild l s))
    ⟨fun _ => none, allFree⟩
      (execs (elf 0 16 16) [] 136)).map (fun c => (c.jobs 0, c.label 0)) =
      some (some (.exec 0 (some (elf 0 16 16)) [] none), some (.exec, .load 134 0)) := by
        decide +kernel
  have hdone : (Pool.execAll (machine demoLayout) (fun l s => decide (Mild l s))
    ⟨fun _ => none, allFree⟩
      (execs (elf 0 16 16) [] 3798)).map (fun c => (c.jobs 0, c.result 0)) =
      some (some (.exec 0 (some (elf 0 16 16)) [] none), some 0) := by decide +kernel
  refine ⟨raw_allFree, ?_, ?_⟩
  · obtain ⟨c, hc, hstate⟩ := Option.map_eq_some_iff.1 hload
    obtain ⟨hjob, hlabel⟩ := Prod.mk.injEq .. ▸ hstate
    have hr := Pool.execAll_reaches (fun _ _ => of_decide_eq_true) hc
    obtain ⟨β, m, k, hi⟩ := Pool.label_eq hjob hlabel
    have hsafe := exec_safe raw_allFree hr hi trivial
    refine ⟨c, hr, hlabel, ?_⟩
    split at hsafe
    · exact hsafe
    · cases hsafe.1
  · obtain ⟨c, hc, hstate⟩ := Option.map_eq_some_iff.1 hdone
    obtain ⟨hjob, hres⟩ := Prod.mk.injEq .. ▸ hstate
    have hr := Pool.execAll_reaches (fun _ _ => of_decide_eq_true) hc
    exact ⟨c, 0, hr, hres, rfl, exec_safe raw_allFree hr (Pool.result_eq hjob hres)⟩

/-- `panic("loaduvm: addr must be page aligned")` -/
theorem exec_panics : Raw demoLayout allFree ∧
    ∃ c, Pool.Reaches (machine demoLayout) (fun _ _ => True) ⟨fun _ => none, allFree⟩ c ∧
      c.jobs 0 = some (.exec 0 (some (elf 1 0 16)) [] none) ∧ c.fault 0 = some .loaduvmAlign := by
  refine ⟨raw_allFree, ?_⟩
  have hrun : (Pool.execAll (machine demoLayout) (fun _ _ => true) ⟨fun _ => none, allFree⟩
      (execs (elf 1 0 16) [] 134)).map (fun c => (c.jobs 0, c.fault 0)) =
      some (some (.exec 0 (some (elf 1 0 16)) [] none), some .loaduvmAlign) := by decide +kernel
  obtain ⟨c, hc, hstate⟩ := Option.map_eq_some_iff.1 hrun
  simp only [Prod.mk.injEq] at hstate
  exact ⟨c, Pool.execAll_reaches (fun _ _ _ => trivial) hc, hstate⟩

/-- With `n` frames. -/
def someFree (n : Nat) : St := allFree.withFree (List.range' 1 n)

/-- The other conditions are needed too. A segment at the top of the address space whose end wraps
around is stored above `KERNBASE`; if there is memory for the page and none for its table, `loaduvm`
panics; with an argument that is too long `uva2ka` reads through a null pointer. -/
theorem exec_unsafe :
    (∃ c, Pool.Reaches (machine demoLayout) (fun _ _ => True) ⟨fun _ => none, someFree 399⟩ c ∧
      c.label 0 = some (.exec, .load 134 0xFFFFF000) ∧ KERNBASE ≤ 0xFFFFF000) ∧
    (∃ c, Pool.Reaches (machine demoLayout) (fun _ _ => True) ⟨fun _ => none, someFree 199⟩ c ∧
      c.fault 0 = some .loaduvmAddr) ∧
    ∃ c, Pool.Reaches (machine demoLayout) (fun _ _ => True) ⟨fun _ => none, someFree 399⟩ c ∧
      c.fault 0 = some .nullPte := by
  have hrun : ∀ {β : Type} {f : System → β} {b : β} {n k : Nat} {x : Image} {l : List Nat},
      (Pool.execAll (machine demoLayout) (fun _ _ => true) ⟨fun _ => none, someFree n⟩
        (execs x l k)).map f = some b →
      ∃ c, Pool.Reaches (machine demoLayout) (fun _ _ => True) ⟨fun _ => none, someFree n⟩ c ∧
      f c = b := fun h => by
    obtain ⟨c, hc, hstate⟩ := Option.map_eq_some_iff.1 h
    exact ⟨c, Pool.execAll_reaches (fun _ _ _ => trivial) hc, hstate⟩
  refine ⟨?_, ?_, ?_⟩
  · obtain ⟨c, hc, hlabel⟩ := hrun (f := fun c => c.label 0)
      (b := some (.exec, .load 134 0xFFFFF000))
      (n := 399) (k := 136) (x := elf 0xFFFFF000 16 0x2000) (l := []) (by decide +kernel)
    exact ⟨c, hc, hlabel, by decide⟩
  · exact hrun (f := fun c => c.fault 0) (k := 135) (x := elf 0 16 16) (l := []) (by decide +kernel)
  · exact hrun (f := fun c => c.fault 0) (k := 145) (x := elf 0 16 16)
      (l := [0x10000000]) (by decide +kernel)

end Os4.Vm
