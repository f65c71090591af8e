import Mathlib.Data.Nat.Bitwise
import Mathlib.Logic.Function.Basic
import Mathlib.Tactic.Common
/-!
# Fixed-size byte areas

A block of `N` bytes is a function on its indices. Everything a program reads from it is a
`slice`, everything it stores is a `splice`; the two frame laws (`slice_splice_same`,
`slice_splice_of_disjoint`) carry the little-endian fields (`getLE` / `putLE`) and the bitmap
view (`bit` / `setBit` / `clearBit`) built on top.
-/

/-- `N` bytes. -/
abbrev Bytes (N : Nat) := Fin N → UInt8

namespace Bytes

variable {N : Nat}

variable (b : Bytes N)

/-- Byte `i`; an index past the end reads as zero. -/
def get (i : Nat) : UInt8 := if h : i < N then b ⟨i, h⟩ else 0

/-- The `n` bytes at offset `o`. -/
def slice (o n : Nat) : List UInt8 := (List.range n).map fun k => b.get (o + k)

/-- Overwrite the bytes at offset `o` with `l`. -/
def splice (o : Nat) (l : List UInt8) : Bytes N :=
  fun i => if o ≤ i.1 ∧ i.1 < o + l.length then l.getD (i.1 - o) 0 else b i

def zero : Bytes N := fun _ => 0

@[simp] theorem get_zero (i : Nat) : (zero : Bytes N).get i = 0 := by
  unfold get zero; split <;> rfl

theorem get_splice (o : Nat) (l : List UInt8) (i : Nat) (hi : i < N) :
    (b.splice o l).get i = if o ≤ i ∧ i < o + l.length then l.getD (i - o) 0 else b.get i := by
  simp [get, splice, hi]

variable {o i : Nat} {l : List UInt8}

theorem get_splice_of_disjoint
    (h : i < o ∨ o + l.length ≤ i) : (b.splice o l).get i = b.get i := by
  by_cases hi : i < N
  · rw [get_splice _ _ _ _ hi, if_neg (by omega)]
  · simp [get, hi]

theorem get_splice_of_mem (h1 : o ≤ i)
    (h2 : i < o + l.length) (hN : o + l.length ≤ N) : (b.splice o l).get i = l.getD (i - o) 0 := by
  rw [get_splice _ _ _ _ (by omega), if_pos ⟨h1, h2⟩]

@[simp] theorem length_slice (o n : Nat) : (b.slice o n).length = n := by simp [slice]

variable {n : Nat}

theorem getElem?_slice {k : Nat} (hk : k < n) :
    (b.slice o n)[k]? = some (b.get (o + k)) := by simp [slice, hk]

theorem slice_splice_same (o : Nat) (l : List UInt8) (hN : o + l.length ≤ N) :
    (b.splice o l).slice o l.length = l := by
  apply List.ext_getElem?
  intro k
  by_cases hk : k < l.length
  · rw [getElem?_slice _ hk, get_splice_of_mem b (by omega) (by omega) hN,
      List.getElem?_eq_getElem hk]
    simp [List.getD_eq_getElem?_getD, hk]
  · rw [List.getElem?_eq_none (by simp; omega), List.getElem?_eq_none (by omega)]

variable {o' : Nat}

theorem slice_splice_of_disjoint
    (h : o' + n ≤ o ∨ o + l.length ≤ o') : (b.splice o l).slice o' n = b.slice o' n := by
  unfold slice
  apply List.map_congr_left
  intro k hk
  rw [List.mem_range] at hk
  exact get_splice_of_disjoint b (by omega)

/-! ## Little-endian fields -/

def leNat : List UInt8 → Nat
  | [] => 0
  | x :: xs => x.toNat + 256 * leNat xs

/-- The `w` low bytes of `n`. -/
def natLe : Nat → Nat → List UInt8
  | 0, _ => []
  | w + 1, n => UInt8.ofNat n :: natLe w (n / 256)

@[simp] theorem length_natLe : ∀ w n : Nat, (natLe w n).length = w
  | 0, _ => rfl
  | w + 1, n => by simp [natLe, length_natLe w]

theorem leNat_natLe : ∀ w n : Nat, leNat (natLe w n) = n % 256 ^ w
  | 0, n => by simp [natLe, leNat, Nat.mod_one]
  | w + 1, n => by
    have h : n % 256 ^ (w + 1) = n % 256 + 256 * (n / 256 % 256 ^ w) := by
      rw [Nat.pow_succ', Nat.mod_mul]
    rw [natLe, leNat, leNat_natLe w, UInt8.toNat_ofNat', h]

theorem leNat_lt : ∀ l : List UInt8, leNat l < 256 ^ l.length
  | [] => by simp [leNat]
  | x :: xs => by
    have h1 := leNat_lt xs
    have h2 := x.toNat_lt
    simp only [leNat, List.length_cons, Nat.pow_succ]
    omega

/-- The `w`-byte field at offset `o`. -/
def getLE (o w : Nat) : Nat := leNat (b.slice o w)

/-- Store `n` in the `w`-byte field at offset `o`. -/
def putLE (o w n : Nat) : Bytes N := b.splice o (natLe w n)

theorem getLE_lt (o w : Nat) : b.getLE o w < 256 ^ w := by
  have := leNat_lt (b.slice o w)
  simpa [getLE] using this

theorem getLE_putLE_same (o w n : Nat) (hN : o + w ≤ N) :
    (b.putLE o w n).getLE o w = n % 256 ^ w := by
  have h := slice_splice_same b o (natLe w n) (by simpa using hN)
  rw [length_natLe] at h
  rw [getLE, putLE, h, leNat_natLe]

theorem getLE_putLE_of_disjoint {w w' : Nat} (h : o' + w' ≤ o ∨ o + w ≤ o') :
    (b.putLE o w n).getLE o' w' = b.getLE o' w' := by
  rw [getLE, getLE, putLE, slice_splice_of_disjoint b (by simpa using h)]

theorem slice_splice_inside (h1 : o ≤ o')
    (h2 : o' + n ≤ o + l.length) (hN : o + l.length ≤ N) : (b.splice o l).slice o' n =
      (l.drop (o' - o)).take n := by
  apply List.ext_getElem?
  intro k
  by_cases hk : k < n
  · rw [getElem?_slice _ hk, get_splice_of_mem b (by omega) (by omega) hN,
      List.getElem?_take_of_lt hk,
      List.getElem?_drop, List.getD_eq_getElem?_getD, show o' + k - o = o' - o + k by omega,
      List.getElem?_eq_getElem (by omega)]
    rfl
  · rw [List.getElem?_eq_none (by simp; omega), List.getElem?_eq_none (by simp; omega)]

theorem slice_zero (o n : Nat) : (zero : Bytes N).slice o n = List.replicate n 0 := by
  simp only [slice, get_zero, List.map_const', List.length_range]

theorem leNat_replicate_zero : ∀ n : Nat, leNat (List.replicate n 0) = 0
  | 0 => rfl
  | n + 1 => by simp [List.replicate_succ, leNat, leNat_replicate_zero n]

@[simp] theorem getLE_zero (o w : Nat) : (zero : Bytes N).getLE o w = 0 := by
  rw [getLE, slice_zero, leNat_replicate_zero]

/-- A `w`-byte field read as two's complement. -/
def signed (w n : Nat) : Int := if 2 * n < 256 ^ w then n else (n : Int) - 256 ^ w

/-- The field value a two's complement integer is stored as. -/
def unsigned (w : Nat) (i : Int) : Nat := (i % 256 ^ w).toNat

theorem unsigned_lt (w : Nat) (i : Int) : unsigned w i < 256 ^ w := by
  have hp : (0 : Int) < 256 ^ w := Int.pow_pos (by decide)
  have h1 := Int.emod_nonneg i (by omega : (256 : Int) ^ w ≠ 0)
  have h2 := Int.emod_lt_of_pos i hp
  have h3 : ((256 ^ w : Nat) : Int) = (256 : Int) ^ w := by push_cast; rfl
  unfold unsigned
  omega

/-! ## Bitmaps -/

def mask (i : Nat) : UInt8 := 1 <<< UInt8.ofNat (i % 8)

/-- Bit `i`: bit `i % 8` of byte `i / 8`. -/
def bit (i : Nat) : Bool := b.get (i / 8) &&& mask i != 0

def setByte (i : Nat) (x : UInt8) : Bytes N := b.splice i [x]

def setBit (i : Nat) : Bytes N := b.setByte (i / 8) (b.get (i / 8) ||| mask i)

def clearBit (i : Nat) : Bytes N := b.setByte (i / 8) (b.get (i / 8) &&& ~~~ mask i)

theorem toNat_mask (i : Nat) : (mask i).toNat = 2 ^ (i % 8) := by
  have h8 : i % 8 < 8 := Nat.mod_lt _ (by decide)
  have hp : 2 ^ (i % 8) < 2 ^ 8 := Nat.pow_lt_pow_right (by decide) h8
  rw [mask, UInt8.toNat_shiftLeft, UInt8.toNat_ofNat', Nat.mod_eq_of_lt (a := i % 8) (by omega),
    Nat.mod_eq_of_lt h8, Nat.shiftLeft_eq]
  simpa using Nat.mod_eq_of_lt hp

theorem and_mask_ne_zero (x : UInt8) (i : Nat) :
    (x &&& mask i != 0) = x.toNat.testBit (i % 8) := by
  have h : (x &&& mask i).toNat = (x.toNat.testBit (i % 8)).toNat * 2 ^ (i % 8) := by
    rw [UInt8.toNat_and, toNat_mask, Nat.and_two_pow]
  have h0 : (x &&& mask i = 0) ↔ (x &&& mask i).toNat = 0 := by
    rw [← UInt8.toNat_inj]; rfl
  cases hb : x.toNat.testBit (i % 8) with
  | false => simp [bne, h0, h, hb]
  | true => simp [bne, h0, h, hb]

theorem get_setByte_same (x : UInt8) (hi : i < N) :
    (b.setByte i x).get i = x := by
  rw [setByte, get_splice_of_mem b (Nat.le_refl _) (by simp) (by simp; omega)]; simp

theorem get_setByte_ne {j : Nat} (x : UInt8) (hij : j ≠ i) :
    (b.setByte i x).get j = b.get j := by
  rw [setByte, get_splice_of_disjoint b (by simp; omega)]

/-- Two indices name the same bit exactly when they agree on byte and position. -/
theorem bit_setBit (j : Nat) (hi : i < 8 * N) :
    (b.setBit i).bit j = (decide (j = i) || b.bit j) := by
  unfold bit setBit
  rw [and_mask_ne_zero, and_mask_ne_zero]
  by_cases hd : j / 8 = i / 8
  · rw [hd, get_setByte_same b _ (by omega), UInt8.toNat_or, toNat_mask, Nat.testBit_or,
      Nat.testBit_two_pow]
    have : (i % 8 = j % 8) ↔ j = i := by omega
    simp only [this, Bool.or_comm]
  · rw [get_setByte_ne b _ hd]
    have : j ≠ i := fun h => hd (by rw [h])
    simp [this]

theorem testBit_and_not_mask (x : UInt8) (i k : Nat) (hk : k < 8) :
    (x &&& ~~~ mask i).toNat.testBit k = (x.toNat.testBit k && !decide (k = i % 8)) := by
  have hp : 2 ^ (i % 8) < 2 ^ 8 := Nat.pow_lt_pow_right (by decide) (Nat.mod_lt _ (by decide))
  rw [UInt8.toNat_and, UInt8.toNat_not, toNat_mask, Nat.testBit_and]
  congr 1
  have hs : UInt8.size - 1 - 2 ^ (i % 8) = 2 ^ 8 - (2 ^ (i % 8) + 1) := by
    simp only [UInt8.size]; omega
  rw [hs, Nat.testBit_two_pow_sub_succ hp, Nat.testBit_two_pow]
  simp [hk, eq_comm]

theorem bit_clearBit (j : Nat) (hi : i < 8 * N) :
    (b.clearBit i).bit j = (b.bit j && !decide (j = i)) := by
  unfold bit clearBit
  rw [and_mask_ne_zero, and_mask_ne_zero]
  by_cases hd : j / 8 = i / 8
  · rw [hd, get_setByte_same b _ (by omega), testBit_and_not_mask _ _ _ (Nat.mod_lt _ (by decide))]
    have : (j % 8 = i % 8) ↔ j = i := by omega
    simp only [this]
  · rw [get_setByte_ne b _ hd]
    have : j ≠ i := fun h => hd (by rw [h])
    simp [this]

@[simp] theorem bit_zero (i : Nat) : (zero : Bytes N).bit i = false := by
  rw [bit, and_mask_ne_zero]; simp

end Bytes
