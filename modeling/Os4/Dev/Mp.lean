import Mathlib.Data.List.Count
/-!
# The MP configuration table (mp.c)

| here | there |
| --- | --- |
| `Table` | the bytes from `conf` on; `conf->length` is at 4, `conf->version` at 6 |
| `mpconfig` | its tests of the table, mp.c:87-94 |
| `mpLoop` | the entry loop of `mpinit`, mp.c:112-141; `p` is relative to `conf` |
| `Covers` | the entries of the table, one after another up to its end |

`*p` decides how far the loop goes on. For a type that it does not know it only prints and stays
where it is, and it does not look how many processors there are before it stores to `cpus[ncpu]`. So
the loop ends in bounds just for a table whose entries are all of known types, with at most `NCPU`
processors among them (**`mpinit_bounded_iff`**).
-/
namespace Os4.Mp

abbrev NCPU : Nat := 8

abbrev Table := Nat → UInt8

def MPPROC : UInt8 := 0
def MPBUS : UInt8 := 1
def MPIOAPIC : UInt8 := 2
def MPIOINTR : UInt8 := 3
def MPLINTR : UInt8 := 4

/-- `sizeof(struct mpconf)` -/
abbrev CONFSIZE : Nat := 44

def Table.length (t : Table) : Nat := (t 4).toNat + 256 * (t 5).toNat

/-- `sum(addr, len)`, an `uchar` -/
def sum (t : Table) (len : Nat) : UInt8 := (List.range len).foldl (fun s i => s + t i) 0

def mpconfig (t : Table) : Bool :=
  -- "PCMP"
  (t 0 == 0x50 && t 1 == 0x43 && t 2 == 0x4d && t 3 == 0x50) && (t 6 == 1 || t 6 == 4) &&
    sum t t.length == 0

/-- The variables of mp.c, with the index of `bcpu` in `cpus`. -/
structure St where
  ncpu : Nat
  ismp : Bool
  bcpu : Nat
  ioapicid : UInt8
deriving DecidableEq

inductive Stop where
  /-- the loop has not ended yet -/
  | running
  /-- a store to `cpus[ncpu]` with `ncpu >= NCPU` -/
  | outside
deriving DecidableEq

/-- The entry of a processor; bit 1 of `flags` is `MPBOOT`. -/
def St.processor (s : St) (apicid flags : UInt8) : St where
  ncpu := s.ncpu + 1
  ismp := s.ismp && s.ncpu == apicid.toNat
  bcpu := if flags &&& 2 ≠ 0 then s.ncpu else s.bcpu
  ioapicid := s.ioapicid

def mpLoop (t : Table) : Nat → Nat → St → Except Stop St
  | 0, _, _ => .error .running
  | fuel + 1, p, s =>
    if p < t.length then
      if t p = MPPROC then
        if s.ncpu < NCPU then mpLoop t fuel (p + 20) (s.processor (t (p + 1)) (t (p + 3)))
        else .error .outside
      else if t p = MPIOAPIC then mpLoop t fuel (p + 8) { s with ioapicid := t (p + 1) }
      else if t p = MPBUS ∨ t p = MPIOINTR ∨ t p = MPLINTR then mpLoop t fuel (p + 8) s
      else mpLoop t fuel p { s with ismp := false }
    else .ok s

/-- The loop of `mpinit` ends, and every store to `cpus` was to one of its `NCPU` elements. -/
def Bounded (t : Table) : Prop := ∃ fuel s, mpLoop t fuel CONFSIZE ⟨0, true, 0, 0⟩ = .ok s

def entrySize (type : UInt8) : Nat := if type = MPPROC then 20 else 8

/-- From `p` on there are entries of these types, and no more. -/
def Covers (t : Table) : Nat → List UInt8 → Prop
  | p, [] => t.length ≤ p
  | p, type :: types =>
    p < t.length ∧ t p = type ∧ type ≤ MPLINTR ∧ Covers t (p + entrySize type) types

variable {t : Table} {p : Nat} {s : St}

theorem known_iff (b : UInt8) : b ≤ MPLINTR ↔ b = MPPROC ∨ b = MPIOAPIC ∨ b = MPBUS ∨
    b = MPIOINTR ∨ b = MPLINTR := by
  simp only [← UInt8.toNat_inj, UInt8.le_iff_toNat_le, MPPROC, MPIOAPIC, MPBUS, MPIOINTR, MPLINTR]
  show b.toNat ≤ 4 ↔ b.toNat = 0 ∨ b.toNat = 2 ∨ b.toNat = 1 ∨ b.toNat = 3 ∨ b.toNat = 4
  omega

theorem mpLoop_entry (hp : p < t.length) (hk : t p ≤ MPLINTR) :
    ∃ s', s'.ncpu = s.ncpu + [t p].count MPPROC ∧ ∀ fuel,
    mpLoop t (fuel + 1) p s =
      if s'.ncpu ≤ NCPU ∨ t p ≠ MPPROC then mpLoop t fuel (p + entrySize (t p)) s'
      else .error .outside := by
  by_cases hproc : t p = MPPROC
  · refine ⟨s.processor (t (p + 1)) (t (p + 3)), by rw [hproc]; rfl, fun fuel => ?_⟩
    rw [mpLoop, if_pos hp, if_pos hproc, entrySize, if_pos hproc]
    exact if_congr ⟨.inl, fun h => h.resolve_right (not_not.2 hproc)⟩ rfl rfl
  · have hcount : [t p].count MPPROC = 0 := by
      rw [List.count_singleton, if_neg (by simpa using hproc)]
    by_cases hio : t p = MPIOAPIC
    · refine ⟨{ s with ioapicid := t (p + 1) }, by rw [hcount]; rfl, fun fuel => ?_⟩
      rw [mpLoop, if_pos hp, if_neg hproc, if_pos hio, if_pos (.inr hproc), entrySize, if_neg hproc]
    · refine ⟨s, by rw [hcount]; rfl, fun fuel => ?_⟩
      have hrest := (((known_iff _).1 hk).resolve_left hproc).resolve_left hio
      rw [mpLoop, if_pos hp, if_neg hproc, if_neg hio, if_pos hrest, if_pos (.inr hproc),
        entrySize, if_neg hproc]

/-- For a type that it does not know the loop stays where it is. -/
theorem mpLoop_unknown (hp : p < t.length) (hk : ¬ t p ≤ MPLINTR) (fuel : Nat) :
    mpLoop t fuel p s = .error .running := by
  induction fuel generalizing s with
  | zero => rfl
  | succ fuel ih =>
    rw [known_iff, not_or, not_or] at hk
    unfold mpLoop
    rw [if_pos hp, if_neg hk.1, if_neg hk.2.1, if_neg hk.2.2]
    exact ih

theorem covers_of_ok {fuel : Nat} {s' : St} (h : mpLoop t fuel p s = .ok s') (hn : s.ncpu ≤ NCPU) :
    ∃ l, Covers t p l ∧ s.ncpu + l.count MPPROC ≤ NCPU := by
  induction fuel generalizing p s with
  | zero => cases h
  | succ fuel ih =>
    by_cases hp : p < t.length
    · by_cases hk : t p ≤ MPLINTR
      · obtain ⟨s1, hs1, hturn⟩ := mpLoop_entry (s := s) hp hk
        rw [hturn] at h
        split at h
        case isTrue hok =>
          have hle : s1.ncpu ≤ NCPU := by
            rcases hok with hok | hok
            · exact hok
            · rw [hs1, List.count_singleton, if_neg (by simpa using hok)]
              exact hn
          obtain ⟨l, hl, hc⟩ := ih h hle
          refine ⟨t p :: l, ⟨hp, rfl, hk, hl⟩, ?_⟩
          rwa [List.count_cons, Nat.add_comm (l.count _), ← Nat.add_assoc,
            ← List.count_singleton, ← hs1]
        case isFalse => cases h
      · rw [mpLoop_unknown hp hk] at h
        cases h
    · exact ⟨[], Nat.le_of_not_lt hp, by simpa using hn⟩

theorem ok_of_covers {l : List UInt8} (h : Covers t p l) (hn : s.ncpu + l.count MPPROC ≤ NCPU) :
    ∃ s', mpLoop t (l.length + 1) p s = .ok s' := by
  induction l generalizing p s with
  | nil =>
    refine ⟨s, ?_⟩
    unfold mpLoop
    rw [if_neg (Nat.not_lt.2 h)]
  | cons type l ih =>
    obtain ⟨hp, rfl, hk, hl⟩ := h
    obtain ⟨s1, hs1, hturn⟩ := mpLoop_entry (s := s) hp hk
    have hle : s1.ncpu + l.count MPPROC ≤ NCPU := by
      rw [List.count_cons] at hn
      rw [hs1, List.count_singleton]
      omega
    rw [List.length_cons, hturn, if_pos (.inl (by omega))]
    exact ih hl hle

/-- **The loop ends in bounds** just if every entry is of a known type and at most `NCPU` are
processors. -/
theorem mpinit_bounded_iff (t : Table) :
    Bounded t ↔ ∃ l, Covers t CONFSIZE l ∧ l.count MPPROC ≤ NCPU := by
  constructor
  · rintro ⟨fuel, s, h⟩
    obtain ⟨l, hl, hc⟩ := covers_of_ok h (Nat.zero_le _)
    exact ⟨l, hl, by simpa using hc⟩
  · rintro ⟨l, hl, hc⟩
    obtain ⟨s, hs⟩ := ok_of_covers (s := ⟨0, true, 0, 0⟩) hl (by simpa using hc)
    exact ⟨_, s, hs⟩

/-- A table with these entries, and `checksum` at 7. -/
def table (checksum : UInt8) (entries : List UInt8) : Table := fun i =>
  let length := CONFSIZE + entries.length
  ([0x50, 0x43, 0x4d, 0x50, UInt8.ofNat length, UInt8.ofNat (length / 256), 1, checksum] ++
    List.replicate 36 0 ++ entries).getD i 0

/-- An entry of type 5, for which `mpinit` never ends, and nine processors. -/
theorem mpinit_unbounded :
    (mpconfig (table 150 [5, 0, 0, 0, 0, 0, 0, 0]) = true ∧
      ¬ Bounded (table 150 [5, 0, 0, 0, 0, 0, 0, 0])) ∧
    mpconfig (table 239 (List.replicate 180 0)) = true ∧
      mpLoop (table 239 (List.replicate 180 0)) 10 CONFSIZE ⟨0, true, 0, 0⟩ = .error .outside := by
  refine ⟨⟨by decide +kernel, ?_⟩, by decide +kernel, by decide +kernel⟩
  rintro ⟨fuel, s, h⟩
  rw [mpLoop_unknown (by decide) (by decide)] at h
  cases h

end Os4.Mp
