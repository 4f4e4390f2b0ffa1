import T4.Lib.Bytes

/-!
# Base64

The standard encoding with padding: three bytes become four characters of six bits each.
`decode_encode` is the round trip.
-/

namespace T4.Lib.Base64

open Lib

def char (n : Nat) : UInt8 :=
  if n < 26 then UInt8.ofNat (0x41 + n)
  else if n < 52 then UInt8.ofNat (0x61 + (n - 26))
  else if n < 62 then UInt8.ofNat (0x30 + (n - 52))
  else if n = 62 then 0x2b
  else 0x2f

def digit (c : UInt8) : Option Nat :=
  if 0x41 ≤ c ∧ c ≤ 0x5a then some (c.toNat - 0x41)
  else if 0x61 ≤ c ∧ c ≤ 0x7a then some (c.toNat - 0x61 + 26)
  else if 0x30 ≤ c ∧ c ≤ 0x39 then some (c.toNat - 0x30 + 52)
  else if c = 0x2b then some 62
  else if c = 0x2f then some 63
  else none

def pad : UInt8 := 0x3d

def encode : Bytes → Bytes
  | [] => []
  | [a] => [char (a.toNat / 4), char (a.toNat % 4 * 16), pad, pad]
  | [a, b] =>
    [char (a.toNat / 4), char (a.toNat % 4 * 16 + b.toNat / 16), char (b.toNat % 16 * 4), pad]
  | a :: b :: c :: rest =>
    char (a.toNat / 4) :: char (a.toNat % 4 * 16 + b.toNat / 16) ::
      char (b.toNat % 16 * 4 + c.toNat / 64) :: char (c.toNat % 64) :: encode rest

/-- The bytes of one group of four characters. -/
def decodeGroup (w x y z : UInt8) : Option Bytes :=
  match digit w, digit x with
  | some w, some x =>
    let a := UInt8.ofNat (w * 4 + x / 16)
    match digit y with
    | none => if y = pad ∧ z = pad then some [a] else none
    | some y =>
      let b := UInt8.ofNat (x % 16 * 16 + y / 4)
      match digit z with
      | none => if z = pad then some [a, b] else none
      | some z => some [a, b, UInt8.ofNat (y % 4 * 64 + z)]
  | _, _ => none

/-- Only the last group may be padded. -/
def decode : Bytes → Option Bytes
  | [] => some []
  | w :: x :: y :: z :: rest =>
    match decodeGroup w x y z, decode rest with
    | some group, some more => if z = pad ∧ rest ≠ [] then none else some (group ++ more)
    | _, _ => none
  | _ => none

theorem digit_char : ∀ n < 64, digit (char n) = some n := by decide

theorem char_ne_pad : ∀ n < 64, char n ≠ pad := by decide

theorem ofNat_toNat_eq {a : UInt8} {n : Nat} (same : n = a.toNat) : UInt8.ofNat n = a := by
  rw [same, UInt8.ofNat_toNat]

theorem decode_encode (b : Bytes) : decode (encode b) = some b := by
  induction b using encode.induct with
  | case1 => rfl
  | case2 a =>
    have low := a.toNat_lt
    have group : decodeGroup (char (a.toNat / 4)) (char (a.toNat % 4 * 16)) pad pad = some [a] := by
      have none : digit pad = none := by decide
      simp only [decodeGroup, digit_char _ (by omega : a.toNat / 4 < 64),
        digit_char _ (by omega : a.toNat % 4 * 16 < 64), none, and_self, if_true]
      rw [ofNat_toNat_eq (a := a) (by omega)]
    simp [encode, decode, group]
  | case3 a b =>
    have low := a.toNat_lt
    have next := b.toNat_lt
    have group : decodeGroup (char (a.toNat / 4)) (char (a.toNat % 4 * 16 + b.toNat / 16))
        (char (b.toNat % 16 * 4)) pad = some [a, b] := by
      have none : digit pad = none := by decide
      simp only [decodeGroup, digit_char _ (by omega : a.toNat / 4 < 64),
        digit_char _ (by omega : a.toNat % 4 * 16 + b.toNat / 16 < 64),
        digit_char _ (by omega : b.toNat % 16 * 4 < 64), none, if_true]
      rw [ofNat_toNat_eq (a := a) (by omega), ofNat_toNat_eq (a := b) (by omega)]
    simp [encode, decode, group]
  | case4 a b c rest ih =>
    have low := a.toNat_lt
    have next := b.toNat_lt
    have last := c.toNat_lt
    have group : decodeGroup (char (a.toNat / 4)) (char (a.toNat % 4 * 16 + b.toNat / 16))
        (char (b.toNat % 16 * 4 + c.toNat / 64)) (char (c.toNat % 64)) = some [a, b, c] := by
      simp only [decodeGroup, digit_char _ (by omega : a.toNat / 4 < 64),
        digit_char _ (by omega : a.toNat % 4 * 16 + b.toNat / 16 < 64),
        digit_char _ (by omega : b.toNat % 16 * 4 + c.toNat / 64 < 64),
        digit_char _ (by omega : c.toNat % 64 < 64)]
      rw [ofNat_toNat_eq (a := a) (by omega), ofNat_toNat_eq (a := b) (by omega),
        ofNat_toNat_eq (a := c) (by omega)]
    have unpadded := char_ne_pad _ (by omega : c.toNat % 64 < 64)
    simp [encode, decode, group, ih, unpadded]

end T4.Lib.Base64
