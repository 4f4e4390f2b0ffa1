import Mathlib.Data.List.Lex
import Mathlib.Data.UInt
import Mathlib.Tactic.Linarith
import Mathlib.Tactic.Ring

/-!
# Byte strings

Byte strings are lists of bytes in lexicographic order, the order in which a
key-value engine iterates over its keys.

* `bigEndian w x` is the `w`-byte big-endian encoding of `x`. Decoding inverts
  it, and on values that fit it is an order embedding that ignores what follows
  (`bigEndian_append_lt_iff`).
* `putInt64` and `getInt64` are the two's complement encoding of a 64-bit signed
  integer; they are inverse on the range `IsInt64`.
* `slice` is the half-open slice of a byte string.
-/

namespace T4.Lib

instance lawfulBEqByte : LawfulBEq UInt8 := inferInstance

instance lawfulBEqBytes : LawfulBEq (List UInt8) := inferInstance

instance instLinearOrderUInt8 : LinearOrder UInt8 where
  le := (· ≤ ·)
  lt := (· < ·)
  le_refl := UInt8.le_refl
  le_trans := fun _ _ _ => UInt8.le_trans
  lt_iff_le_not_ge := fun a b => by
    rw [UInt8.lt_iff_toNat_lt, UInt8.le_iff_toNat_le, UInt8.le_iff_toNat_le]
    omega
  le_antisymm := fun _ _ => UInt8.le_antisymm
  le_total := UInt8.le_total
  toDecidableLE := inferInstance
  toDecidableLT := inferInstance
  toDecidableEq := inferInstance

abbrev Bytes := List UInt8

namespace Bytes

/-- The bytes of `b` from offset `i` up to, but not including, offset `j`. -/
def slice (b : Bytes) (i j : Nat) : Bytes := (b.drop i).take (j - i)

/-! ## Big-endian numbers -/

/-- The `w`-byte big-endian encoding of `x`, most significant byte first. -/
def bigEndian : Nat → Nat → Bytes
  | 0, _ => []
  | w + 1, x => UInt8.ofNat (x / 256 ^ w) :: bigEndian w x

/-- The number that a big-endian byte string denotes. -/
def ofBigEndian : Bytes → Nat
  | [] => 0
  | b :: rest => b.toNat * 256 ^ rest.length + ofBigEndian rest

@[simp]
theorem length_bigEndian (w x : Nat) : (bigEndian w x).length = w := by
  induction w with
  | zero => rfl
  | succ w ih => simp [bigEndian, ih]

theorem bigEndian_mod (w v x : Nat) (fits : w ≤ v) :
    bigEndian w (x % 256 ^ v) = bigEndian w x := by
  induction w with
  | zero => rfl
  | succ w ih =>
    have tail := ih (by omega)
    have head : UInt8.ofNat (x % 256 ^ v / 256 ^ w) = UInt8.ofNat (x / 256 ^ w) := by
      obtain ⟨k, rfl⟩ : ∃ k, v = w + (k + 1) := ⟨v - w - 1, by omega⟩
      rw [Nat.pow_add, Nat.mod_mul_right_div_self, ← UInt8.toNat_inj, UInt8.toNat_ofNat',
        UInt8.toNat_ofNat', Nat.pow_succ 256 k]
      exact Nat.mod_mul_left_mod _ _ _
    rw [bigEndian, bigEndian, head, tail]

theorem ofBigEndian_append (a b : Bytes) :
    ofBigEndian (a ++ b) = ofBigEndian a * 256 ^ b.length + ofBigEndian b := by
  induction a with
  | nil => simp [ofBigEndian]
  | cons x rest ih =>
    rw [List.cons_append, ofBigEndian, ofBigEndian, ih, List.length_append, Nat.pow_add]
    ring

theorem ofBigEndian_lt (b : Bytes) : ofBigEndian b < 256 ^ b.length := by
  induction b with
  | nil => simp [ofBigEndian]
  | cons x rest ih =>
    have digit : x.toNat + 1 ≤ 256 := x.toNat_lt
    calc ofBigEndian (x :: rest)
        < x.toNat * 256 ^ rest.length + 256 ^ rest.length := by
          rw [ofBigEndian]
          omega
      _ = (x.toNat + 1) * 256 ^ rest.length := by ring
      _ ≤ 256 * 256 ^ rest.length := Nat.mul_le_mul_right _ digit
      _ = 256 ^ (x :: rest).length := by rw [List.length_cons, Nat.pow_succ, Nat.mul_comm]

theorem ofBigEndian_bigEndian (w x : Nat) : ofBigEndian (bigEndian w x) = x % 256 ^ w := by
  induction w with
  | zero => simp [bigEndian, ofBigEndian, Nat.mod_one]
  | succ w ih =>
    have split : x % (256 ^ w * 256) = x % 256 ^ w + 256 ^ w * (x / 256 ^ w % 256) := Nat.mod_mul
    rw [bigEndian, ofBigEndian, ih, length_bigEndian, UInt8.toNat_ofNat', Nat.pow_succ 256 w,
      split]
    ring

theorem ofBigEndian_bigEndian_of_lt {w x : Nat} (fits : x < 256 ^ w) :
    ofBigEndian (bigEndian w x) = x := by
  rw [ofBigEndian_bigEndian, Nat.mod_eq_of_lt fits]

/-- Comparing two numbers digit-wise: the leading digit decides, then the rest. -/
theorem lt_iff_digits {m : Nat} (pos : 0 < m) (x y : Nat) :
    x < y ↔ x / m < y / m ∨ x / m = y / m ∧ x % m < y % m := by
  have lowX := Nat.mod_lt x pos
  have lowY := Nat.mod_lt y pos
  have splitX := Nat.div_add_mod x m
  have splitY := Nat.div_add_mod y m
  rcases Nat.lt_trichotomy (x / m) (y / m) with less | same | more
  · have : m * (x / m) + m ≤ m * (y / m) := by nlinarith
    exact iff_of_true (by omega) (Or.inl less)
  · rw [same] at splitX
    constructor
    · intro lt
      exact Or.inr ⟨same, by omega⟩
    · rintro (less | ⟨_, lt⟩)
      · omega
      · omega
  · have : m * (y / m) + m ≤ m * (x / m) := by nlinarith
    exact iff_of_false (by omega) (by omega)

theorem eq_iff_digits (m x y : Nat) : x = y ↔ x / m = y / m ∧ x % m = y % m := by
  constructor
  · rintro rfl
    exact ⟨rfl, rfl⟩
  · rintro ⟨sameDiv, sameMod⟩
    rw [← Nat.div_add_mod x m, ← Nat.div_add_mod y m, sameDiv, sameMod]

/-- On numbers that fit, the encoding is an order embedding whatever bytes
follow it. -/
theorem bigEndian_append_lt_iff {w x y : Nat} (fitsX : x < 256 ^ w) (fitsY : y < 256 ^ w)
    (s t : Bytes) :
    bigEndian w x ++ s < bigEndian w y ++ t ↔ x < y ∨ x = y ∧ s < t := by
  induction w generalizing x y with
  | zero =>
    have x0 : x = 0 := by simpa using fitsX
    have y0 : y = 0 := by simpa using fitsY
    simp [bigEndian, x0, y0]
  | succ w ih =>
    have pos : 0 < 256 ^ w := Nat.pow_pos (by decide)
    have topX : x / 256 ^ w < 2 ^ 8 := Nat.div_lt_of_lt_mul (by rwa [Nat.pow_succ] at fitsX)
    have topY : y / 256 ^ w < 2 ^ 8 := Nat.div_lt_of_lt_mul (by rwa [Nat.pow_succ] at fitsY)
    have rest := ih (Nat.mod_lt x pos) (Nat.mod_lt y pos)
    rw [bigEndian_mod w w x le_rfl, bigEndian_mod w w y le_rfl] at rest
    rw [bigEndian, bigEndian, List.cons_append, List.cons_append, List.cons_lt_cons_iff, rest,
      UInt8.lt_iff_toNat_lt, ← UInt8.toNat_inj, UInt8.toNat_ofNat', UInt8.toNat_ofNat',
      Nat.mod_eq_of_lt topX, Nat.mod_eq_of_lt topY, lt_iff_digits pos x y,
      eq_iff_digits (256 ^ w) x y]
    tauto

theorem bigEndian_injective {w x y : Nat} (fitsX : x < 256 ^ w) (fitsY : y < 256 ^ w)
    (same : bigEndian w x = bigEndian w y) : x = y := by
  rw [← ofBigEndian_bigEndian_of_lt fitsX, ← ofBigEndian_bigEndian_of_lt fitsY, same]

/-! ## Two's complement -/

/-- The values of a 64-bit signed integer. -/
def IsInt64 (x : Int) : Prop := -2 ^ 63 ≤ x ∧ x < 2 ^ 63

instance (x : Int) : Decidable (IsInt64 x) := inferInstanceAs (Decidable (_ ∧ _))

theorem isInt64_zero : IsInt64 0 := by decide

/-- The unsigned reading of a signed integer, as a conversion to a 64-bit
unsigned integer computes it. -/
def uint64 (x : Int) : Nat := (x % 2 ^ 64).toNat

/-- The signed reading of a 64-bit unsigned integer. -/
def int64 (n : Nat) : Int := if n < 2 ^ 63 then n else n - 2 ^ 64

/-- What is left of a sum of two 64-bit signed integers. -/
def wrap (x : Int) : Int := int64 (uint64 x)

def putInt64 (x : Int) : Bytes := bigEndian 8 (uint64 x)

def getInt64 (b : Bytes) : Int := int64 (ofBigEndian b)

theorem uint64_lt (x : Int) : uint64 x < 256 ^ 8 := by
  unfold uint64
  omega

theorem uint64_of_nonneg {x : Int} (nonneg : 0 ≤ x) (fits : x < 2 ^ 64) :
    (uint64 x : Int) = x := by
  unfold uint64
  omega

theorem int64_uint64 {x : Int} (range : IsInt64 x) : int64 (uint64 x) = x := by
  obtain ⟨low, high⟩ := range
  unfold int64 uint64
  split <;> omega

theorem isInt64_wrap (x : Int) : IsInt64 (wrap x) := by
  unfold wrap int64 uint64 IsInt64
  split <;> omega

theorem wrap_of_isInt64 {x : Int} (range : IsInt64 x) : wrap x = x := int64_uint64 range

theorem uint64_wrap {x : Int} (nonneg : 0 ≤ x) (fits : x < 2 ^ 64) :
    (uint64 (wrap x) : Int) = x := by
  unfold wrap int64 uint64
  split <;> omega

theorem wrap_le {x : Int} (nonneg : 0 ≤ x) (fits : x < 2 ^ 64) : wrap x ≤ x := by
  unfold wrap int64 uint64
  split <;> omega

@[simp]
theorem length_putInt64 (x : Int) : (putInt64 x).length = 8 := length_bigEndian 8 _

theorem getInt64_putInt64 {x : Int} (range : IsInt64 x) : getInt64 (putInt64 x) = x := by
  rw [getInt64, putInt64, ofBigEndian_bigEndian_of_lt (uint64_lt x), int64_uint64 range]

/-! ## Little-endian numbers -/

/-- The `w`-byte encoding of `x`, least significant byte first. -/
def littleEndian (w x : Nat) : Bytes := (bigEndian w x).reverse

/-- The number that a little-endian byte string denotes. -/
def ofLittleEndian (b : Bytes) : Nat := ofBigEndian b.reverse

@[simp]
theorem length_littleEndian (w x : Nat) : (littleEndian w x).length = w := by
  rw [littleEndian, List.length_reverse, length_bigEndian]

theorem ofLittleEndian_littleEndian_of_lt {w x : Nat} (fits : x < 256 ^ w) :
    ofLittleEndian (littleEndian w x) = x := by
  rw [ofLittleEndian, littleEndian, List.reverse_reverse, ofBigEndian_bigEndian_of_lt fits]

theorem ofLittleEndian_uint64 {x : Int} (range : IsInt64 x) :
    int64 (ofLittleEndian (littleEndian 8 (uint64 x))) = x := by
  rw [ofLittleEndian_littleEndian_of_lt (uint64_lt x), int64_uint64 range]

end Bytes

end T4.Lib
