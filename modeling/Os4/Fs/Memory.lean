import Os4.Fs.Plain
/-!
# Bytes in memory (string.c:31-49, ulib.c:95-105, fs.c:695-718)

| here | there |
| --- | --- |
| `up`, `down` | the memory after so many rounds of `*d++ = *s++`, of `*--d = *--s` |
| `memmove`, `User.memmove` | string.c:31, ulib.c:95 |
| `skipelem`, `calls` | fs.c:695, and the `while` of `namex` that calls it again with what it returned |
| `Cstr m p l` | at `p` stand the bytes `l`, none of them zero, and a terminator |

A pointer is an address below `2 ^ 32`. The end of a range may be `2 ^ 32` itself, and `s + n` is
then zero.

The user's `memmove` copies upwards also where the ranges overlap the other way (**`memmove_iff`**).
`skipelem` takes the elements off a path one by one (**`skipelem_splits`**).
-/
namespace Os4.Memory

open Function (update update_self update_of_ne)
open Fs (slash elems components)

abbrev Mem := Nat → UInt8

variable {m m' : Mem} {d s n i a p k name fuel dst src : Nat} {l w : List UInt8}
  {c c' : UInt8 → Bool}

/-! ## `memmove` -/

def up (m : Mem) (d s : Nat) : Nat → Mem
  | 0 => m
  | k + 1 => update (up m d s k) (d + k) (up m d s k (s + k))

def down (m : Mem) (d s : Nat) : Nat → Mem
  | 0 => m
  | k + 1 => update (down m d s k) (d - (k + 1)) (down m d s k (s - (k + 1)))

def memmove (m : Mem) (dst src n : Nat) : Mem :=
  if src < dst ∧ dst < (src + n) % 2 ^ 32 then down m (dst + n) (src + n) n else up m dst src n

def User.memmove (m : Mem) (dst src : Nat) (n : Int) : Mem := up m dst src n.toNat

/-- What a `memmove` is for. -/
structure Moved (m : Mem) (dst src n : Nat) (m' : Mem) : Prop where
  moved : ∀ i < n, m' (dst + i) = m (src + i)
  frame : ∀ a, a < dst ∨ dst + n ≤ a → m' a = m a

theorem Moved.unique (h : Moved m dst src n m') (h' : Moved m dst src n m2) : m' = m2 := by
  funext a
  by_cases ha : a < dst ∨ dst + n ≤ a
  · rw [h.frame a ha, h'.frame a ha]
  · obtain ⟨i, rfl⟩ : ∃ i, a = dst + i := ⟨a - dst, by omega⟩
    rw [h.moved i (by omega), h'.moved i (by omega)]

theorem up_frame (ha : a < d ∨ d + n ≤ a) : up m d s n a = m a := by
  induction n with
  | zero => rfl
  | succ n ih => rw [up, update_of_ne (by omega), ih (by omega)]

/-- A byte is written in one round only, from what stands there by then. -/
theorem up_at (hi : i < n) : up m d s n (d + i) = up m d s i (s + i) := by
  induction n with
  | zero => omega
  | succ n ih =>
    rw [up]
    rcases Nat.lt_succ_iff_lt_or_eq.1 hi with hlt | rfl
    · rw [update_of_ne (by omega), ih hlt]
    · rw [update_self]

theorem moved_up_iff : Moved m d s n (up m d s n) ↔
    (s < d → ∀ i, d + i < s + n → m (d + i) = m (s + i)) := by
  constructor
  · intro h hsd i hi
    have hj : s + (i + (d - s)) = d + i := by omega
    calc m (d + i) = up m d s n (d + (i + (d - s))) := by rw [h.moved _ (by omega), hj]
      _ = up m d s (i + (d - s)) (d + i) := by rw [up_at (by omega), hj]
      _ = up m d s n (d + i) := by rw [up_at (by omega), up_at (by omega)]
      _ = m (s + i) := h.moved i (by omega)
  · intro h
    refine ⟨fun i => ?_, fun a => up_frame⟩
    -- what round `i` reads is old, or was written `d - s` rounds before
    induction i using Nat.strongRecOn with
    | ind i ih =>
      intro hi
      rw [up_at hi]
      by_cases hold : s + i < d ∨ d ≤ s
      · exact up_frame (by omega)
      · obtain ⟨j, hj⟩ : ∃ j, s + i = d + j := ⟨s + i - d, by omega⟩
        rw [hj, up_at (by omega), ← up_at (n := n) (by omega), ih j (by omega) (by omega),
          h (by omega) j (by omega)]

theorem down_apply (h : s < d) (hk : k ≤ n) :
    down m (d + n) (s + n) k a = if d + n ≤ a + k ∧ a < d + n then m (a - (d - s)) else m a := by
  induction k generalizing a with
  | zero => rw [down, if_neg (by omega)]
  | succ k ih =>
    rw [down, ih (by omega), if_neg (by omega)]
    by_cases ha : a = d + n - (k + 1)
    · rw [ha, update_self, if_pos (by omega)]
      congr 1
      omega
    · rw [update_of_ne ha, ih (by omega)]
      congr 1
      rw [eq_iff_iff]
      omega

theorem moved_down (h : s < d) : Moved m d s n (down m (d + n) (s + n) n) where
  moved i hi := by
    rw [down_apply h (Nat.le_refl n), if_pos (by omega)]
    congr 1
    omega
  frame a ha := by rw [down_apply h (Nat.le_refl n), if_neg (by omega)]

theorem memmove_moved (h : ¬ (s < d ∧ d < (s + n) % 2 ^ 32) → s < d → ∀ i, d + i < s + n →
    m (d + i) = m (s + i)) :
    Moved m d s n (memmove m d s n) := by
  unfold memmove
  split
  · rename_i hover
    exact moved_down hover.1
  · rename_i hup
    exact moved_up_iff.2 (h hup)

/-- The kernel's is right wherever both ranges are memory. -/
theorem memmove_kernel (hsrc : src + n ≤ 2 ^ 32) (hdst : dst + n ≤ 2 ^ 32) :
    Moved m dst src n (memmove m dst src n) :=
  memmove_moved fun hup hlt i hi => by omega

/-- **Both are right and agree, if and only if the destination does not begin inside the source or
what they share repeats at that distance.** -/
theorem memmove_iff :
    (Moved m dst src n (memmove m dst src n) ∧ Moved m dst src n (User.memmove m dst src n)) ∧
      memmove m dst src n = User.memmove m dst src n ↔
    (src < dst → ∀ i, dst + i < src + n → m (dst + i) = m (src + i)) := by
  have huser : Moved m dst src n (User.memmove m dst src n) ↔ _ := moved_up_iff
  constructor
  · intro h
    exact huser.1 h.1.2
  · intro h
    have hkernel := memmove_moved fun _ => h
    exact ⟨⟨hkernel, huser.2 h⟩, hkernel.unique (huser.2 h)⟩

/-- Two bytes are moved up by one: the first is copied twice. -/
theorem memmove_up_one : memmove Nat.toUInt8 1 0 2 2 = 1 ∧ User.memmove Nat.toUInt8 1 0 2 2 = 0 ∧
    ¬ Moved Nat.toUInt8 1 0 2 (User.memmove Nat.toUInt8 1 0 2) :=
  ⟨by decide, by decide, fun h => absurd (h.moved 1 (by decide)) (by decide)⟩

/-! ## `skipelem` -/

/-- `while(c(*p)) p++;` -/
def scan (c : UInt8 → Bool) (m : Mem) : Nat → Nat → Option Nat
  | 0, _ => none
  | fuel + 1, p => if c (m p) then scan c m fuel (p + 1) else some p

/-- The element of `len` bytes at `s` is copied into `name`. (`len` is an `int`: it holds the length
of any string that lies below `KERNBASE`, or above it.) -/
def setName (m : Mem) (name s len : Nat) : Mem :=
  if DIRSIZ ≤ len then memmove m name s DIRSIZ else update (memmove m name s len) (name + len) 0

def skipelem (fuel : Nat) (m : Mem) (path name : Nat) : Option (Mem × Nat) := do
  let s ← scan (· == slash) m fuel path
  if m s = 0 then return (m, 0)
  else
    let path ← scan (fun c => c != slash && c != 0) m fuel s
    let m := setName m name s (path - s)
    let path ← scan (· == slash) m fuel path
    return (m, path)

/-- The memory and the pointer after each call that does not return zero. -/
def calls (name : Nat) : Nat → Mem → Nat → Option (List (Mem × Nat))
  | 0, _, _ => none
  | fuel + 1, m, path => do
    let (m, path) ← skipelem (fuel + 1) m path name
    if path = 0 then return []
    else return (m, path) :: (← calls name fuel m path)

def Cstr (m : Mem) : Nat → List UInt8 → Prop
  | p, [] => m p = 0
  | p, b :: l => m p = b ∧ b ≠ 0 ∧ Cstr m (p + 1) l

/-- The bytes of a `char[k]` up to a terminator. -/
def chars (m : Mem) : Nat → Nat → List UInt8
  | 0, _ => []
  | k + 1, p => if m p = 0 then [] else m p :: chars m k (p + 1)

theorem Cstr.congr (h : Cstr m p l) (heq : ∀ a, p ≤ a → a ≤ p + l.length → m' a = m a) :
    Cstr m' p l := by
  induction l generalizing p with
  | nil => exact (heq p (Nat.le_refl p) (Nat.le_refl p)).trans h
  | cons b l ih =>
    rw [List.length_cons] at heq
    exact ⟨(heq p (Nat.le_refl p) (by omega)).trans h.1, h.2.1,
      ih h.2.2 fun a ha ha' => heq a (by omega) (by omega)⟩

/-- The loop stops after the bytes that it skips, within the string. -/
theorem scan_cstr (c' : UInt8 → Bool) (hc : ∀ b, b ≠ 0 → c b = c' b) (h0 : c 0 = false)
    (h : Cstr m p l) (hf : l.length < fuel) :
    ∃ q, scan c m fuel p = some q ∧ c (m q) = false ∧ Cstr m q (l.dropWhile c') ∧
    q = p + (l.takeWhile c').length ∧ q + (l.dropWhile c').length = p + l.length := by
  induction l generalizing p fuel with
  | nil =>
    obtain ⟨fuel, rfl⟩ : ∃ x, fuel = x + 1 := ⟨fuel - 1, by omega⟩
    have hz : m p = 0 := h
    exact ⟨p, by simp [scan, hz, h0], by rw [hz, h0], h, rfl, rfl⟩
  | cons b l ih =>
    rw [List.length_cons] at hf ⊢
    obtain ⟨fuel, rfl⟩ : ∃ x, fuel = x + 1 := ⟨fuel - 1, by omega⟩
    rw [scan, h.1, hc b h.2.1, List.takeWhile_cons, List.dropWhile_cons]
    cases hb : c' b with
    | true =>
      obtain ⟨q, hq, hstop, hs, htake, hlen⟩ := ih h.2.2 (Nat.lt_of_succ_lt_succ hf)
      exact ⟨q, hq, hstop, hs, by rw [if_pos rfl, List.length_cons]; omega,
        by rw [if_pos rfl]; omega⟩
    | false => exact ⟨p, rfl, by rw [h.1, hc b h.2.1, hb], h, rfl, rfl⟩

/-- What is copied from a string, up to a byte that ends the element or to the end of the array. -/
theorem chars_copy (h : Cstr m s w)
    (hm : ∀ i, i < k → i < (w.takeWhile c).length → m' (p + i) = m (s + i))
    (hz : (w.takeWhile c).length < k → m' (p + (w.takeWhile c).length) = 0) :
    chars m' k p = (w.takeWhile c).take k := by
  induction w generalizing s p k with
  | nil =>
    cases k with
    | zero => rfl
    | succ k => exact if_pos (hz (Nat.succ_pos k))
  | cons b w ih =>
    rw [List.takeWhile_cons] at hm hz ⊢
    cases k with
    | zero => rfl
    | succ k =>
      cases hb : c b with
      | true =>
        simp only [hb, ↓reduceIte, List.length_cons, Nat.add_lt_add_iff_right] at hm hz ⊢
        have hp : m' p = b := (hm 0 (Nat.succ_pos k) (Nat.succ_pos _)).trans h.1
        rw [chars, hp, if_neg h.2.1, List.take_succ_cons,
          ih h.2.2 (fun i hi hi' => ?_) fun hlt => ?_]
        · rw [Nat.add_right_comm, Nat.add_assoc, Nat.add_right_comm, Nat.add_assoc s]
          exact hm (i + 1) (by omega) (by omega)
        · rw [Nat.add_right_comm]
          exact hz hlt
      | false =>
        simp only [hb, Bool.false_eq_true, ↓reduceIte] at hz ⊢
        exact if_pos (hz (Nat.succ_pos k))

/-- `name` is filled from a string that it is not part of. -/
theorem chars_setName (name : Nat) (h : Cstr m s w)
    (hname : name + DIRSIZ ≤ s ∨ s + w.length < name) (hk : k = (w.takeWhile c).length)
    (hle : k ≤ w.length) : chars (setName m name s k) DIRSIZ name = (w.takeWhile c).take DIRSIZ ∧
      ∀ a, a < name ∨ name + DIRSIZ ≤ a → setName m name s k a = m a := by
  have hmove : ∀ n, n ≤ k → n ≤ DIRSIZ → Moved m name s n (memmove m name s n) :=
    fun n hn hn' => memmove_moved fun _ hs i hi => by omega
  unfold setName
  split
  · rename_i hlong
    have hM := hmove DIRSIZ hlong (Nat.le_refl _)
    exact ⟨chars_copy h (fun i hi _ => hM.moved i hi) fun hlt => by omega, hM.frame⟩
  · have hM := hmove k (Nat.le_refl k) (by omega)
    refine ⟨chars_copy h (fun i _ hi => ?_) fun _ => ?_, fun a ha => ?_⟩
    · rw [update_of_ne (by omega), hM.moved i (by omega)]
    · rw [← hk, update_self]
    · rw [update_of_ne (by omega), hM.frame a (by omega)]

/-- A call of `skipelem` does what it does to the list of the path's bytes, and writes `name`
only. -/
theorem skipelem_cstr (h : Cstr m p l) (hname : name + DIRSIZ ≤ p ∨ p + l.length < name)
    (hf : l.length < fuel) :
    match Fs.skipelem l with
    | none => skipelem fuel m p name = some (m, 0)
    | some (el, rest) =>
      ∃ m' q, skipelem fuel m p name = some (m', q) ∧ q + rest.length = p + l.length ∧
        m' q ≠ slash ∧ chars m' DIRSIZ name = el ∧ Cstr m' q rest ∧ ∀ a, a < name ∨ name + DIRSIZ ≤
          a → m' a = m a := by
  obtain ⟨s, hs, -, hw, hps, hl⟩ := scan_cstr (· == slash) (fun _ _ => rfl) rfl h hf
  unfold Fs.skipelem skipelem
  rw [hs]
  generalize l.dropWhile (· == slash) = w at hw hl
  by_cases hnil : w = []
  · subst hnil
    have hz : m s = 0 := hw
    simp [hz]
  · have hb : m s ≠ 0 := by
      cases w with
      | nil => exact absurd rfl hnil
      | cons b w => exact hw.1 ▸ hw.2.1
    have hf' : ∀ {x : List UInt8}, x.length ≤ l.length → x.length < fuel := fun hx =>
      Nat.lt_of_le_of_lt hx hf
    obtain ⟨e, he, -, hr, hlen, hlw⟩ := scan_cstr (c := fun b => b != slash && b != 0) (· != slash)
      (fun b hb => by simp [hb]) rfl hw (hf' (by omega))
    obtain ⟨hel, hframe⟩ := chars_setName (c := (· != slash))
      (k := e - s) name hw (by omega) (by omega) (by omega)
    have hr' := hr.congr fun a ha ha' => hframe a (by omega)
    obtain ⟨q, hq, hstop, hrest, -, hqr⟩ :=
      scan_cstr (· == slash) (fun _ _ => rfl) rfl hr' (hf' (by omega))
    simp only [if_neg hnil, if_neg hb, Option.bind_eq_bind, Option.bind_some, he, hq]
    exact ⟨_, q, rfl, by omega, by simpa using hstop, hel, hrest, hframe⟩

/-- **Calling `skipelem` until it returns zero ends, and yields the parts of the path between
slashes, cut to `DIRSIZ` bytes.** Every pointer returned is in the string, not at a slash, and at
the terminator after the last part only. -/
theorem skipelem_splits (h : Cstr m p l) (hname : name + DIRSIZ ≤ p ∨ p + l.length < name)
    (hf : l.length < fuel) :
    ∃ rs, calls name fuel m p = some rs ∧ rs.map (fun r => chars r.1 DIRSIZ name) = components l ∧
      ∀ rs1 r rs2, rs = rs1 ++ r :: rs2 → p ≤ r.2 ∧ r.2 ≤ p + l.length ∧ m r.2 ≠ slash ∧
      (r.2 = p + l.length ↔ rs2 = []) := by
  rw [← Fs.elems_eq_components (Nat.lt_succ_self _)]
  induction fuel generalizing m p l with
  | zero => omega
  | succ fuel ih =>
    have hsk := skipelem_cstr h hname hf
    unfold calls
    cases hl : Fs.skipelem l with
    | none =>
      rw [hl] at hsk
      exact ⟨[], by rw [hsk]; rfl, by rw [Fs.elems_none hl]; rfl, by simp⟩
    | some y =>
      obtain ⟨el, rest⟩ := y
      rw [hl] at hsk
      obtain ⟨m', q, hcall, hq, hns, hel, hrest, hframe⟩ := hsk
      have hlt := Fs.skipelem_length hl
      obtain ⟨rs, hrs, hmap, hptr⟩ := ih hrest (by omega) (by omega)
      refine ⟨(m', q) :: rs, ?_, ?_, fun rs1 r rs2 hcut => ?_⟩
      · simp only [hcall, Option.bind_eq_bind, Option.bind_some, if_neg (show q ≠ 0 by omega), hrs]
        rfl
      · rw [List.map_cons, hel, hmap, Fs.elems_some hl]
      · have hback : ∀ {a}, q ≤ a → a ≤ p + l.length → m' a = m a := fun ha ha' =>
          hframe _ (by omega)
        rcases List.cons_eq_append_iff.1 hcut with ⟨-, hr⟩ | ⟨rs1, -, hr⟩
        · obtain ⟨rfl, rfl⟩ := List.cons.inj hr
          have hlast : rs2 = [] ↔ rest = [] := by
            rw [← Fs.elems_rest hl, ← hmap, List.map_eq_nil_iff]
          rw [hlast, ← List.length_eq_zero_iff, ← hback (Nat.le_refl _) (by omega)]
          exact ⟨by omega, by omega, hns, by omega⟩
        · obtain ⟨hle, hle', hns, hlast⟩ := hptr rs1 r rs2 hr
          rw [← hback hle (by omega), ← hq]
          exact ⟨by omega, hle', hns, hlast⟩

theorem skipelem_splits_ab :
    ∃ rs, calls 0 5 (fun a => ([47, 97, 98, 47][a - 14]?).getD 0) 14 = some rs ∧
    rs.map (fun r => chars r.1 DIRSIZ 0) = [[97, 98]] := by
  have hstr : Cstr (fun a => ([47, 97, 98, 47][a - 14]?).getD 0) 14 [47, 97, 98, 47] := by
    refine ⟨rfl, ?_, rfl, ?_, rfl, ?_, rfl, ?_, rfl⟩ <;> decide
  obtain ⟨rs, hrs, hmap, -⟩ :=
    skipelem_splits hstr (.inl (show 0 + DIRSIZ ≤ 14 by decide)) (show _ < 5 by decide)
  exact ⟨rs, hrs, hmap.trans (by decide)⟩

end Os4.Memory
