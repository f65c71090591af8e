import Os4.Fs.Respects
/-!
# The mount table and the strings it was built from (fs.c:804-871)

| here | there |
| --- | --- |
| `MountCall` | a call of `mount`: its string, what it returned, the slot `mpalloc` offered it |
| `Mounts E h s` | `s` is reached from an empty table by the calls `h`, the latest first, and anything else between them |
| `Faithful h m q` | `find_mp(q)` finds exactly the slot of the call that mounted `q` |

A stored path is cut to `DIRSIZ` bytes and a slot that was never used holds the empty string.
**`faithful_iff`** says when the lookup tells the difference.
-/
namespace Os4.Fs

structure MountCall where
  path : List UInt8
  result : Int
  slot : Option Nat

/-- A slot of the table at boot. -/
def freeSlot : MountPoint := ⟨false, List.replicate DIRSIZ 0, none, 0, none⟩

inductive Mounts (E : Env) : List MountCall → FsState → Prop
  | boot {s : FsState} : s.mounts = List.replicate MOUNT_POINTS_SIZE freeSlot → Mounts E [] s
  /-- Nothing but `mount` stores in the table. -/
  | other {h : List MountCall} {s s' : FsState} : Mounts E h s →
      s'.mounts = s.mounts → Mounts E h s'
  | mount {h : List MountCall} {s s' : FsState} {cwd : Fin NINODE} {path : List UInt8} {i r : Int} :
    Mounts E h s → 0 ∉ path → mount E cwd path i s = .ok (r, s') →
    Mounts E (⟨path, r, mpalloc s.mounts⟩ :: h) s'

/-- `find_mp(q)` returns an entry iff an earlier call with the string `q` returned 0, it is that
call's entry, and it is taken. -/
structure Faithful (h : List MountCall) (m : List MountPoint) (q : List UInt8) : Prop where
  found : ∀ j, findMp m q = some j ↔ ∃ c ∈ h, c.path = q ∧ c.result = 0 ∧ c.slot = some j
  taken : ∀ j e, findMp m q = some j → m[j]? = some e → e.isTaken = true

variable {E : Env} {h : List MountCall} {m : List MountPoint} {s s' : FsState} {q : List UInt8}

/-! ## Comparing with a stored path -/

theorem strncmp_stored (r : Nat) : ∀ (n : Nat) (p t : List UInt8), 0 ∉ p → 0 ∉ t →
    (strncmp p (t ++ List.replicate r 0) n = 0 ↔ p.take n = t.take n) := by
  intro n
  induction n with
  | zero => intro p t _ _; simp [strncmp]
  | succ n ih =>
    intro p t hp ht
    have hz : (List.replicate r (0 : UInt8)).head?.getD 0 = 0 := by cases r <;> rfl
    have hne : ∀ x : UInt8, x ≠ 0 → x.toNat ≠ 0 := fun x hx h0 => hx (UInt8.toNat_inj.1 h0)
    cases p with
    | nil =>
      cases t with
      | nil => simp [strncmp, hz]
      | cons y t =>
        have hy := hne y (fun h0 => ht (by simp [h0]))
        simp [strncmp]
        omega
    | cons x p =>
      have hx0 : x ≠ 0 := fun h0 => hp (by simp [h0])
      have hx := hne x hx0
      cases t with
      | nil => simpa [strncmp, hz, hx0] using hx
      | cons y t =>
        by_cases hxy : x = y
        · subst hxy
          have := ih p t (fun h0 => hp (by simp [h0])) (fun h0 => ht (by simp [h0]))
          simpa [strncmp, hx0] using this
        · have : (x.toNat : Int) - y.toNat ≠ 0 := fun h0 => hxy (UInt8.toNat_inj.1 (by omega))
          simpa [strncmp, hxy] using this

variable {path : List UInt8}

/-- What `mount` leaves in the path of a fresh slot. -/
theorem namecmp_mountEntry (hq : 0 ∉ q) (hp : 0 ∉ path) (i : Int) (inum : Nat) (prt : Option Int) :
    namecmp q (mountEntry freeSlot path i inum prt).path = 0 ↔ path.take DIRSIZ =
      q.take DIRSIZ := by
  have hstored : (mountEntry freeSlot path i inum prt).path =
      path.take DIRSIZ ++ List.replicate (DIRSIZ - min DIRSIZ path.length) 0 := by
    simp only [mountEntry, freeSlot, List.drop_replicate]
  rw [namecmp, hstored, strncmp_stored _ _ _ _ hq (fun h0 => hp (List.mem_of_mem_take h0)),
    List.take_take, Nat.min_self]
  exact eq_comm

theorem namecmp_freeSlot (hq : 0 ∉ q) : namecmp q freeSlot.path = 0 ↔ q = [] := by
  have := strncmp_stored DIRSIZ DIRSIZ q [] hq (by simp)
  rw [List.nil_append] at this
  rw [namecmp, freeSlot, this]
  simp

/-! ## One call -/

theorem mount_cases {cwd : Fin NINODE} {i r : Int} (hm : mount E cwd path i s = .ok (r, s')) :
    (r = -1 ∧ s'.mounts = s.mounts) ∨
    (r = 0 ∧ findMp s.mounts path = none ∧ ∃ j k t, mpalloc s.mounts = some j ∧
      namei E cwd path s = .ok (some k, t) ∧
      s'.mounts = s.mounts.modify j fun old =>
        mountEntry old path i (t.icache k).inum (t.icache k).prt) := by
  obtain ⟨ip, s1, hn, hm⟩ := Prog.bind_ok hm
  -- the walk leaves the table as it was
  have hf : s1.mounts = s.mounts :=
    ((steps_respects local_framed E).namei cwd path s ip s1 hn).mounts
  cases ip with
  | none => cases hm; exact .inl ⟨rfl, hf⟩
  | some ip =>
    obtain ⟨_, _, hg, hm⟩ := Prog.bind_ok hm
    cases hg
    dsimp only at hm
    rw [hf] at hm
    split at hm
    · cases hm; exact .inl ⟨rfl, hf⟩
    · rename_i hnone
      cases ha : mpalloc s.mounts with
      | none => rw [ha] at hm; cases hm; exact .inl ⟨rfl, hf⟩
      | some j =>
        rw [ha] at hm
        cases hm
        exact .inr ⟨rfl, by simpa using hnone, j, ip, s1, rfl, hn, rfl⟩

/-! ## The table along a history -/

/-- `c` put the entry `e` in its slot. -/
def MountCall.Made (c : MountCall) (e : MountPoint) : Prop :=
  c.result = 0 ∧ ∃ i inum prt, e = mountEntry freeSlot c.path i inum prt

/-- Every slot is free or was filled by exactly one successful call, and no two of these share the
bytes that are compared. -/
structure Table (h : List MountCall) (m : List MountPoint) : Prop where
  len : m.length = MOUNT_POINTS_SIZE
  nonul : ∀ c ∈ h, 0 ∉ c.path
  slot : ∀ j e, m[j]? = some e → e = freeSlot ∨ ∃ c ∈ h, c.slot = some j ∧ c.Made e
  made : ∀ c ∈ h, c.result = 0 → ∃ j e, c.slot = some j ∧ m[j]? = some e ∧ c.Made e
  nonempty : ∀ c ∈ h, c.result = 0 → c.path ≠ []
  inj : ∀ c ∈ h, ∀ c' ∈ h, c.result = 0 → c'.result = 0 → c.path.take DIRSIZ =
    c'.path.take DIRSIZ → c = c'

variable {e : MountPoint} {c : MountCall}

theorem MountCall.Made.matches (hc : c.Made e) (hp : 0 ∉ c.path) (hq : 0 ∉ q) :
    namecmp q e.path = 0 ↔ c.path.take DIRSIZ = q.take DIRSIZ := by
  obtain ⟨-, i, inum, prt, rfl⟩ := hc
  exact namecmp_mountEntry hq hp i inum prt

variable {j : Nat}

theorem findMp_some : findMp m q = some j ↔
    (∃ e, m[j]? = some e ∧ namecmp q e.path = 0) ∧ ∀ i e, i < j → m[i]? = some e →
    namecmp q e.path ≠ 0 := by
  rw [findMp, List.findIdx?_eq_some_iff_getElem]
  constructor
  · rintro ⟨hj, he, hlt⟩
    refine ⟨⟨m[j], List.getElem?_eq_getElem hj, by simpa using he⟩, fun i e hij hi => ?_⟩
    obtain ⟨hil, rfl⟩ := List.getElem?_eq_some_iff.1 hi
    simpa using hlt i hij
  · rintro ⟨⟨e, he, hq⟩, hlt⟩
    obtain ⟨hj, rfl⟩ := List.getElem?_eq_some_iff.1 he
    refine ⟨hj, by simpa using hq, fun i hij => ?_⟩
    simpa using hlt i m[i] hij (List.getElem?_eq_getElem (by omega))

theorem findMp_none : findMp m q = none ↔ ∀ e ∈ m, namecmp q e.path ≠ 0 := by
  simp [findMp, List.findIdx?_eq_none_iff]

theorem findMp_of_match (he : m[j]? = some e) (hq : namecmp q e.path = 0) :
    ∃ i, findMp m q = some i := by
  cases hf : findMp m q with
  | some i => exact ⟨i, rfl⟩
  | none => exact absurd hq (findMp_none.1 hf e (List.mem_of_getElem? he))

theorem mpalloc_some (ha : mpalloc m = some j) : ∃ e, m[j]? = some e ∧ e.isTaken = false := by
  obtain ⟨hj, he, -⟩ := List.findIdx?_eq_some_iff_getElem.1 ha
  exact ⟨m[j], List.getElem?_eq_getElem hj, by simpa using he⟩

theorem MountCall.Made.isTaken (hc : c.Made e) : e.isTaken = true := by
  obtain ⟨-, i, inum, prt, rfl⟩ := hc
  rfl

theorem table_boot : Table [] (List.replicate MOUNT_POINTS_SIZE freeSlot) where
  len := List.length_replicate
  nonul c hc := absurd hc (by simp)
  slot j e he := .inl (List.eq_of_mem_replicate (List.mem_of_getElem? he))
  made c hc := absurd hc (by simp)
  nonempty c hc := absurd hc (by simp)
  inj c hc := absurd hc (by simp)

theorem Table.failed (hT : Table h m) (hp : 0 ∉ path) {r : Int} (hr : r ≠ 0) (o : Option Nat) :
    Table (⟨path, r, o⟩ :: h) m where
  len := hT.len
  nonul := by
    rintro c (_ | ⟨_, hc⟩)
    · exact hp
    · exact hT.nonul c hc
  slot j e he := (hT.slot j e he).imp_right fun ⟨c, hc, hs, hm⟩ =>
    ⟨c, List.mem_cons_of_mem _ hc, hs, hm⟩
  made := by
    rintro c (_ | ⟨_, hc⟩) h0
    · exact absurd h0 hr
    · exact hT.made c hc h0
  nonempty := by
    rintro c (_ | ⟨_, hc⟩) h0
    · exact absurd h0 hr
    · exact hT.nonempty c hc h0
  inj := by
    rintro c (_ | ⟨_, hc⟩) c' (_ | ⟨_, hc'⟩) h0 h0' heq
    · rfl
    · exact absurd h0 hr
    · exact absurd h0' hr
    · exact hT.inj c hc c' hc' h0 h0' heq

/-- A call that succeeded filled a free slot with a string that matched no entry before. -/
theorem Table.mounted (hT : Table h m) (hp : 0 ∉ path) (hnone : findMp m path = none)
    (ha : mpalloc m = some j) (i : Int) (inum : Nat) (prt : Option Int) :
    Table (⟨path, 0, some j⟩ :: h) (m.modify j fun old => mountEntry old path i inum prt) := by
  obtain ⟨old, hold, htk⟩ := mpalloc_some ha
  have hfree : old = freeSlot := by
    rcases hT.slot j old hold with hfree | ⟨c, _, _, hm⟩
    · exact hfree
    · rw [hm.isTaken] at htk; cases htk
  subst hfree
  have hnew : (m.modify j fun old => mountEntry old path i inum prt)[j]? =
      some (mountEntry freeSlot path i inum prt) := by
    simp [hold]
  have hkeep : ∀ k, k ≠ j → (m.modify j fun old => mountEntry old path i inum prt)[k]? = m[k]? := by
    intro k hk
    simp [Ne.symm hk]
  have hmade : MountCall.Made ⟨path, 0, some j⟩ (mountEntry freeSlot path i inum prt) :=
    ⟨rfl, i, inum, prt, rfl⟩
  -- the other successful calls have other slots and other strings
  have hother : ∀ c ∈ h, c.result = 0 → c.slot ≠ some j ∧ c.path.take DIRSIZ ≠
      path.take DIRSIZ := by
    intro c hc h0
    obtain ⟨k, e, hk, he, hm⟩ := hT.made c hc h0
    constructor
    · intro hkj
      obtain rfl := Option.some.inj (hk.symm.trans hkj)
      rw [hold] at he
      obtain rfl := Option.some.inj he
      exact absurd hm.isTaken (by decide)
    · intro heq
      exact findMp_none.1 hnone e (List.mem_of_getElem? he) ((hm.matches (hT.nonul c hc) hp).2 heq)
  refine ⟨by rw [List.length_modify]; exact hT.len, ?_, ?_, ?_, ?_, ?_⟩
  · rintro c (_ | ⟨_, hc⟩)
    · exact hp
    · exact hT.nonul c hc
  · intro k e he
    by_cases hk : k = j
    · subst hk
      rw [hnew] at he
      obtain rfl := Option.some.inj he
      exact .inr ⟨_, List.mem_cons_self, rfl, hmade⟩
    · rw [hkeep k hk] at he
      exact (hT.slot k e he).imp_right fun ⟨c, hc, hs, hm⟩ => ⟨c, List.mem_cons_of_mem _ hc, hs, hm⟩
  · rintro c (_ | ⟨_, hc⟩) h0
    · exact ⟨j, _, rfl, hnew, hmade⟩
    · obtain ⟨k, e, hk, he, hm⟩ := hT.made c hc h0
      refine ⟨k, e, hk, ?_, hm⟩
      rw [hkeep k fun hkj => (hother c hc h0).1 (hkj ▸ hk)]
      exact he
  · rintro c (_ | ⟨_, hc⟩) h0
    · -- the free slot would have matched the empty string
      intro hnil
      exact findMp_none.1 hnone freeSlot (List.mem_of_getElem? hold) ((namecmp_freeSlot hp).2 hnil)
    · exact hT.nonempty c hc h0
  · rintro c (_ | ⟨_, hc⟩) c' (_ | ⟨_, hc'⟩) h0 h0' heq
    · rfl
    · exact absurd heq.symm (hother c' hc' h0').2
    · exact absurd heq (hother c hc h0).2
    · exact hT.inj c hc c' hc' h0 h0' heq

theorem table_mounts (hm : Mounts E h s) : Table h s.mounts := by
  induction hm with
  | boot hs => rw [hs]; exact table_boot
  | other _ hs ih => rw [hs]; exact ih
  | mount _ hp hrun ih =>
    rcases mount_cases hrun with ⟨rfl, hs⟩ | ⟨rfl, hnone, j, k, t, ha, -, hs⟩
    · rw [hs]; exact ih.failed hp (by decide) _
    · rw [hs, ha]; exact ih.mounted hp hnone ha _ _ _

/-! ## What a lookup finds -/

/-- **Mounted strings.** After any history of calls, the lookup of `q` is faithful to the strings
mounted exactly when `q` is not empty or no slot is left, and no string mounted so far differs from
`q` only after its first `DIRSIZ` bytes. -/
theorem faithful_iff (hm : Mounts E h s) (hq : 0 ∉ q) :
    Faithful h s.mounts q ↔ (q ≠ [] ∨ ∀ e ∈ s.mounts, e.isTaken = true) ∧
      ∀ c ∈ h, c.result = 0 → c.path.take DIRSIZ = q.take DIRSIZ → c.path = q := by
  have hT := table_mounts hm
  constructor
  · intro hF
    constructor
    · by_cases hnil : q = []
      · refine .inr fun e he => ?_
        obtain ⟨j, hj⟩ := List.mem_iff_getElem?.1 he
        rcases hT.slot j e hj with rfl | ⟨c, _, _, hc⟩
        · -- a free slot matches, so some call would have mounted the empty string
          obtain ⟨i, hi⟩ := findMp_of_match hj ((namecmp_freeSlot hq).2 hnil)
          obtain ⟨c, hc, hp, h0, -⟩ := (hF.found i).1 hi
          exact absurd (hp.trans hnil) (hT.nonempty c hc h0)
        · exact hc.isTaken
      · exact .inl hnil
    · intro c hc h0 heq
      obtain ⟨j, e, -, he, hmade⟩ := hT.made c hc h0
      obtain ⟨i, hi⟩ := findMp_of_match he ((hmade.matches (hT.nonul c hc) hq).2 heq)
      obtain ⟨c', hc', hp, h0', -⟩ := (hF.found i).1 hi
      rw [hT.inj c hc c' hc' h0 h0' (by rw [hp]; exact heq)]
      exact hp
  · rintro ⟨hroom, hlong⟩
    -- a slot that matches was filled by a call with this very string
    have hmatch : ∀ j e, s.mounts[j]? = some e → namecmp q e.path = 0 →
        ∃ c ∈ h, c.path = q ∧ c.slot = some j ∧ c.Made e := by
      intro j e he h0
      rcases hT.slot j e he with rfl | ⟨c, hc, hs, hmade⟩
      · rcases hroom with hne | hall
        · exact absurd ((namecmp_freeSlot hq).1 h0) hne
        · exact absurd (hall _ (List.mem_of_getElem? he)) (by decide)
      · exact ⟨c, hc, hlong c hc hmade.1 ((hmade.matches (hT.nonul c hc) hq).1 h0), hs, hmade⟩
    constructor
    · intro j
      constructor
      · intro hj
        obtain ⟨⟨e, he, h0⟩, -⟩ := findMp_some.1 hj
        obtain ⟨c, hc, hp, hs, hmade⟩ := hmatch j e he h0
        exact ⟨c, hc, hp, hmade.1, hs⟩
      · rintro ⟨c, hc, hp, h0, hs⟩
        obtain ⟨k, e, hk, he, hmade⟩ := hT.made c hc h0
        obtain rfl := Option.some.inj (hs.symm.trans hk)
        refine findMp_some.2 ⟨⟨e, he, (hmade.matches (hT.nonul c hc) hq).2 (by rw [hp])⟩,
          fun i e' hij he' h0' => ?_⟩
        obtain ⟨c', hc', hp', hs', hmade'⟩ := hmatch i e' he' h0'
        obtain rfl := hT.inj c hc c' hc' h0 hmade'.1 (by rw [hp, hp'])
        exact absurd (Option.some.inj (hs'.symm.trans hs)) (by omega)
    · intro j e hj he
      obtain ⟨⟨e', he', h0⟩, -⟩ := findMp_some.1 hj
      obtain ⟨c, -, -, -, hmade⟩ := hmatch j e' he' h0
      obtain rfl := Option.some.inj (he.symm.trans he')
      exact hmade.isTaken

/-- Before any call the empty string is found, in a slot that is not taken. -/
theorem empty_string_found : Mounts demoEnv [] (idleState fullDisk) ∧
    findMp (idleState fullDisk).mounts [] = some 0 ∧
    ¬ Faithful [] (idleState fullDisk).mounts [] := by
  have hf : findMp (idleState fullDisk).mounts [] = some 0 := by decide
  refine ⟨.boot rfl, hf, fun hF => ?_⟩
  obtain ⟨c, hc, -⟩ := (hF.found 0).1 hf
  simp at hc

/-- `mount("/", 1)` on an empty table: then `"/"` is found as mounted. -/
theorem faithful_root : ∃ s', mount demoEnv 0 [slash] 1 (idleState fullDisk) = .ok (0, s') ∧
    Faithful [⟨[slash], 0, some 0⟩] s'.mounts [slash] := by
  obtain ⟨s', hs'⟩ : ∃ s', mount demoEnv 0 [slash] 1 (idleState fullDisk) = .ok (0, s') := ⟨_, rfl⟩
  have hm : Mounts demoEnv [⟨[slash], 0, some 0⟩] s' :=
    .mount (s := idleState fullDisk) (.boot rfl) (by decide) hs'
  exact ⟨s', hs', (faithful_iff hm (by decide)).2 ⟨.inl (by decide), by simp⟩⟩

end Os4.Fs
