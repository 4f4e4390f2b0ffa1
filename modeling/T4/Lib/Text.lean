import Mathlib.Data.List.Basic
import T4.Lib.Bytes

/-!
# Text in byte strings

Strings of a language whose strings are byte strings: suffixes, slash-separated paths,
padded decimals, hexadecimal, and the UTF-8 coercion that writing a string as JSON and
reading it back amounts to.

* `base` is the last element of a path; `base_append_slash` computes it on a path that
  ends in a file name.
* `coerceUTF8` replaces every byte that is not part of a valid encoding by U+FFFD. It
  passes over ASCII (`coerceUTF8_append`), so a path keeps its last element, and leaves
  exactly the sequences of well-formed encodings as they are (`validUTF8_iff`).
-/

namespace T4.Lib.Text

open Lib List

def ascii (s : String) : Bytes := s.toList.map (fun c => UInt8.ofNat c.toNat)

def IsAscii (b : Bytes) : Prop := ∀ x ∈ b, x < 0x80

instance (b : Bytes) : Decidable (IsAscii b) := inferInstanceAs (Decidable (∀ x ∈ b, x < 0x80))

theorem IsAscii.append {a b : Bytes} (left : IsAscii a) (right : IsAscii b) : IsAscii (a ++ b) := by
  exact forall_mem_append.mpr ⟨left, right⟩

def slash : UInt8 := 0x2f

theorem isAscii_slash : IsAscii [slash] := by decide +kernel

/-! ## Suffixes -/

def hasSuffix (s suffix : Bytes) : Bool := suffix.isSuffixOf s

def trimSuffix (s suffix : Bytes) : Bytes :=
  if hasSuffix s suffix then s.take (s.length - suffix.length) else s

theorem hasSuffix_append (s suffix : Bytes) : hasSuffix (s ++ suffix) suffix = true := by
  unfold hasSuffix
  rw [isSuffixOf_iff_suffix]
  exact suffix_append s suffix

theorem trimSuffix_append (s suffix : Bytes) : trimSuffix (s ++ suffix) suffix = s := by
  unfold trimSuffix
  rw [if_pos (hasSuffix_append s suffix)]
  simp

/-! ## Paths -/

/-- The last element of a path, without its trailing slashes. -/
def base (path : Bytes) : Bytes :=
  if path = [] then ascii "."
  else
    let trimmed := path.reverse.dropWhile (· = slash)
    if trimmed = [] then [slash] else (trimmed.takeWhile (· ≠ slash)).reverse

structure FileName (name : Bytes) : Prop where
  nonempty : name ≠ []
  flat : slash ∉ name
  notDot : name ≠ ascii "."
  notDots : name ≠ ascii ".."

instance (name : Bytes) : Decidable (FileName name) :=
  decidable_of_iff (name ≠ [] ∧ slash ∉ name ∧ name ≠ ascii "." ∧ name ≠ ascii "..")
    ⟨fun h => ⟨h.1, h.2.1, h.2.2.1, h.2.2.2⟩, fun h => ⟨h.1, h.2, h.3, h.4⟩⟩

theorem base_append_slash (dir : Bytes) {name : Bytes} (valid : FileName name) :
    base (dir ++ slash :: name) = name := by
  have reversed : (dir ++ slash :: name).reverse = name.reverse ++ slash :: dir.reverse := by simp
  have flat : ∀ x ∈ name.reverse, decide (x ≠ slash) = true := by
    intro x mem
    have other : x ≠ slash := by
      rintro rfl
      exact valid.flat (mem_reverse.mp mem)
    simpa using other
  obtain ⟨last, front, shape⟩ : ∃ last front, name.reverse = last :: front := by
    cases shape : name.reverse with
    | nil => exact absurd (reverse_eq_nil_iff.mp shape) valid.nonempty
    | cons last front => exact ⟨last, front, rfl⟩
  have kept : (name.reverse ++ slash :: dir.reverse).dropWhile (· = slash) =
      name.reverse ++ slash :: dir.reverse := by
    have other := flat last (by simp [shape])
    rw [shape, cons_append, dropWhile_cons_of_neg (by simpa using other)]
  unfold base
  rw [if_neg (by simp), reversed, kept]
  simp only [append_eq_nil_iff, reduceCtorEq, and_false, if_false]
  rw [takeWhile_append_of_pos flat, takeWhile_cons_of_neg (by simp)]
  simp

/-! ## Numbers -/

/-- A number padded with zeros to `width` characters, the sign counted. -/
def padDecimal (width : Nat) (n : Int) : Bytes :=
  let digits := (Nat.toDigits 10 n.natAbs).map (fun c => UInt8.ofNat c.toNat)
  if n < 0 then 0x2d :: (List.replicate (width - 1 - digits.length) 0x30 ++ digits)
  else List.replicate (width - digits.length) 0x30 ++ digits

/-- The digits of `n` behind zeros, so that there are `width` of them. -/
def paddedDigits (width n : Nat) : List Char :=
  List.replicate (width - (Nat.toDigits 10 n).length) '0' ++ Nat.toDigits 10 n

theorem padDecimal_of_nonneg (width n : Nat) :
    padDecimal width n = (paddedDigits width n).map (fun c => UInt8.ofNat c.toNat) := by
  simp [padDecimal, paddedDigits]

theorem length_paddedDigits {width n : Nat} (some : 0 < width) (fits : n < 10 ^ width) :
    (paddedDigits width n).length = width := by
  have short := (Nat.length_toDigits_le_iff (by decide) some).mpr fits
  rw [paddedDigits, length_append, length_replicate]
  omega

theorem isDigit_paddedDigits {width n : Nat} {c : Char} (mem : c ∈ paddedDigits width n) :
    c.isDigit = true := by
  rcases mem_append.mp mem with zero | digit
  · rw [eq_of_mem_replicate zero]
    rfl
  · exact Nat.isDigit_of_mem_toDigits (by decide) (by decide) digit

theorem ofDigitChars_paddedDigits (width n : Nat) :
    Nat.ofDigitChars 10 (paddedDigits width n) 0 = n := by
  rw [paddedDigits, Nat.ofDigitChars_append, Nat.ofDigitChars_replicate_zero, Nat.mul_zero,
    Nat.ofDigitChars_ten_toDigits]

theorem isDigit_bounds {c : Char} (isDigit : c.isDigit = true) : 48 ≤ c.toNat ∧ c.toNat ≤ 57 := by
  simp only [Char.isDigit, Bool.and_eq_true, decide_eq_true_eq] at isDigit
  exact ⟨isDigit.1, isDigit.2⟩

theorem ofDigitChars_lt {cs : List Char} (digits : ∀ c ∈ cs, c.isDigit = true) :
    Nat.ofDigitChars 10 cs 0 < 10 ^ cs.length := by
  induction cs with
  | nil => simp
  | cons c cs ih =>
    have later := ih (fun d mem => digits d (mem_cons_of_mem c mem))
    have bounds := isDigit_bounds (digits c mem_cons_self)
    have digit : c.toNat - '0'.toNat ≤ 9 := Nat.sub_le_of_le_add bounds.2
    have top := Nat.mul_le_mul_left (10 ^ cs.length) digit
    rw [Nat.ofDigitChars_cons, Nat.ofDigitChars_eq_ofDigitChars_zero, Nat.mul_zero, Nat.zero_add,
      length_cons, Nat.pow_succ]
    omega

/-- Digit strings of one length sort like their numbers, whatever bytes follow them. -/
theorem digits_append_lt_iff {cs ds : List Char} (digitsC : ∀ c ∈ cs, c.isDigit = true)
    (digitsD : ∀ d ∈ ds, d.isDigit = true) (sameLength : cs.length = ds.length) (s t : Bytes) :
    cs.map (fun c => UInt8.ofNat c.toNat) ++ s < ds.map (fun c => UInt8.ofNat c.toNat) ++ t ↔
      Nat.ofDigitChars 10 cs 0 < Nat.ofDigitChars 10 ds 0 ∨
        Nat.ofDigitChars 10 cs 0 = Nat.ofDigitChars 10 ds 0 ∧ s < t := by
  induction cs generalizing ds with
  | nil =>
    have empty : ds = [] := length_eq_zero_iff.mp sameLength.symm
    simp [empty]
  | cons c cs ih =>
    cases ds with
    | nil => cases sameLength
    | cons d ds =>
      have sameTail : cs.length = ds.length := Nat.succ.inj sameLength
      have tailC := fun x mem => digitsC x (mem_cons_of_mem c mem)
      have tailD := fun x mem => digitsD x (mem_cons_of_mem d mem)
      have boundsC := isDigit_bounds (digitsC c mem_cons_self)
      have boundsD := isDigit_bounds (digitsD d mem_cons_self)
      have lowC := ofDigitChars_lt tailC
      have lowD := ofDigitChars_lt tailD
      rw [sameTail] at lowC
      have valueC : Nat.ofDigitChars 10 (c :: cs) 0 =
          10 ^ ds.length * (c.toNat - 48) + Nat.ofDigitChars 10 cs 0 := by
        rw [Nat.ofDigitChars_cons, Nat.ofDigitChars_eq_ofDigitChars_zero, sameTail]
        simp
      have valueD : Nat.ofDigitChars 10 (d :: ds) 0 =
          10 ^ ds.length * (d.toNat - 48) + Nat.ofDigitChars 10 ds 0 := by
        rw [Nat.ofDigitChars_cons, Nat.ofDigitChars_eq_ofDigitChars_zero]
        simp
      have pos : 0 < 10 ^ ds.length := Nat.pow_pos (by decide)
      rw [map_cons, map_cons, cons_append, cons_append,
        cons_lt_cons_iff, ih tailC tailD sameTail, UInt8.lt_iff_toNat_lt, ← UInt8.toNat_inj,
        UInt8.toNat_ofNat', UInt8.toNat_ofNat', Nat.mod_eq_of_lt (by omega),
        Nat.mod_eq_of_lt (by omega), Bytes.lt_iff_digits pos (Nat.ofDigitChars 10 (c :: cs) 0),
        Bytes.eq_iff_digits (10 ^ ds.length) (Nat.ofDigitChars 10 (c :: cs) 0), valueC, valueD,
        Nat.mul_add_div pos, Nat.mul_add_div pos, Nat.mul_add_mod, Nat.mul_add_mod,
        Nat.div_eq_of_lt lowC, Nat.div_eq_of_lt lowD, Nat.mod_eq_of_lt lowC, Nat.mod_eq_of_lt lowD]
      have less : c.toNat - 48 + 0 < d.toNat - 48 + 0 ↔ c.toNat < d.toNat := by omega
      have same : c.toNat - 48 + 0 = d.toNat - 48 + 0 ↔ c.toNat = d.toNat := by omega
      rw [less, same]
      tauto

/-- Padding to a width that the numbers fit in makes the order of the texts the order of the
numbers. -/
theorem padDecimal_append_lt_iff {width x y : Nat} (some : 0 < width) (fitsX : x < 10 ^ width)
    (fitsY : y < 10 ^ width) (s t : Bytes) :
    padDecimal width x ++ s < padDecimal width y ++ t ↔ x < y ∨ x = y ∧ s < t := by
  have sameLength : (paddedDigits width x).length = (paddedDigits width y).length := by
    rw [length_paddedDigits some fitsX, length_paddedDigits some fitsY]
  rw [padDecimal_of_nonneg, padDecimal_of_nonneg,
    digits_append_lt_iff (fun _ => isDigit_paddedDigits) (fun _ => isDigit_paddedDigits) sameLength,
    ofDigitChars_paddedDigits, ofDigitChars_paddedDigits]

theorem padDecimal_ne_of_neg {width n : Nat} {x : Int} (negative : x < 0) :
    padDecimal width x ≠ padDecimal width n := by
  intro same
  have sign : 0x2d ∈ padDecimal width n := by
    rw [← same, padDecimal, if_pos negative]
    exact mem_cons_self
  rw [padDecimal_of_nonneg] at sign
  obtain ⟨c, digit, isSign⟩ := mem_map.mp sign
  have bounds := isDigit_bounds (isDigit_paddedDigits digit)
  have code := congrArg UInt8.toNat isSign
  rw [UInt8.toNat_ofNat', Nat.mod_eq_of_lt (by omega)] at code
  have minus : UInt8.toNat 0x2d = 45 := rfl
  omega

def hexDigit (n : Nat) : UInt8 :=
  if n < 10 then 0x30 + UInt8.ofNat n else 0x57 + UInt8.ofNat n

def hexEncode : Bytes → Bytes
  | [] => []
  | b :: rest => hexDigit (b.toNat / 16) :: hexDigit (b.toNat % 16) :: hexEncode rest

theorem length_hexEncode (b : Bytes) : (hexEncode b).length = 2 * b.length := by
  induction b with
  | nil => rfl
  | cons b rest ih =>
    simp only [hexEncode, length_cons, ih]
    omega

theorem hexDigit_lt : ∀ n < 16, hexDigit n < 0x80 := by decide

theorem isAscii_hexEncode (b : Bytes) : IsAscii (hexEncode b) := by
  induction b with
  | nil => simp [hexEncode, IsAscii]
  | cons b rest ih =>
    have bound : b.toNat < 256 := b.toNat_lt
    intro x mem
    rcases mem_cons.mp mem with rfl | mem
    · exact hexDigit_lt _ (by omega)
    · rcases mem_cons.mp mem with rfl | mem
      · exact hexDigit_lt _ (by omega)
      · exact ih x mem

/-! ## UTF-8 -/

def inRange (b : Option UInt8) (lo hi : UInt8) : Bool := b.any (fun b => lo ≤ b ∧ b ≤ hi)

/-- The length of the valid encoding that starts with `b`, or `0`. -/
def runeLength (b : UInt8) (rest : Bytes) : Nat :=
  if b < 0x80 then 1
  else if 0xc2 ≤ b ∧ b ≤ 0xdf then
    if inRange rest[0]? 0x80 0xbf then 2 else 0
  else if 0xe0 ≤ b ∧ b ≤ 0xef then
    -- no overlong encodings and no surrogates
    if inRange rest[0]? (if b = 0xe0 then 0xa0 else 0x80) (if b = 0xed then 0x9f else 0xbf) ∧
        inRange rest[1]? 0x80 0xbf then 3 else 0
  else if 0xf0 ≤ b ∧ b ≤ 0xf4 then
    if inRange rest[0]? (if b = 0xf0 then 0x90 else 0x80) (if b = 0xf4 then 0x8f else 0xbf) ∧
        inRange rest[1]? 0x80 0xbf ∧ inRange rest[2]? 0x80 0xbf then 4 else 0
  else 0

def replacement : Bytes := [0xef, 0xbf, 0xbd]

/-- `coerceUTF8` inside an encoding of which `k` bytes are to come. -/
def coerceFrom : Nat → Bytes → Bytes
  | _, [] => []
  | k + 1, b :: rest => b :: coerceFrom k rest
  | 0, b :: rest =>
    match runeLength b rest with
    | 0 => replacement ++ coerceFrom 0 rest
    | k + 1 => b :: coerceFrom k rest

/-- The text with every byte outside a valid encoding replaced by U+FFFD. -/
def coerceUTF8 (b : Bytes) : Bytes := coerceFrom 0 b

def ValidUTF8 (b : Bytes) : Prop := coerceUTF8 b = b

instance (b : Bytes) : Decidable (ValidUTF8 b) := inferInstanceAs (Decidable (_ = _))

theorem coerceUTF8_append {a : Bytes} (isAscii : IsAscii a) (b : Bytes) :
    coerceUTF8 (a ++ b) = a ++ coerceUTF8 b := by
  induction a with
  | nil => rfl
  | cons x rest ih =>
    have single : runeLength x (rest ++ b) = 1 := by
      simp [runeLength, isAscii x (by simp)]
    have after := ih (fun y mem => isAscii y (mem_cons_of_mem _ mem))
    unfold coerceUTF8 at after ⊢
    rw [cons_append, coerceFrom, single]
    simp only [after, cons_append]

theorem ValidUTF8.append {a b : Bytes} (isAscii : IsAscii a) (valid : ValidUTF8 b) :
    ValidUTF8 (a ++ b) := by
  unfold ValidUTF8 at valid ⊢
  rw [coerceUTF8_append isAscii, valid]

/-! ### Well-formed text -/

def IsContinuation (b : UInt8) : Prop := 0x80 ≤ b ∧ b ≤ 0xbf

/-- The well-formed encodings of one code point. -/
inductive Rune : Bytes → Prop
  | one {a : UInt8} (lead : a < 0x80) : Rune [a]
  | two {a b : UInt8} (lead : 0xc2 ≤ a ∧ a ≤ 0xdf) (second : IsContinuation b) : Rune [a, b]
  | three {a b c : UInt8} (lead : 0xe0 ≤ a ∧ a ≤ 0xef) (second : IsContinuation b)
      (shortest : a = 0xe0 → 0xa0 ≤ b) (noSurrogate : a = 0xed → b ≤ 0x9f)
      (third : IsContinuation c) : Rune [a, b, c]
  | four {a b c d : UInt8} (lead : 0xf0 ≤ a ∧ a ≤ 0xf4) (second : IsContinuation b)
      (shortest : a = 0xf0 → 0x90 ≤ b) (upTo : a = 0xf4 → b ≤ 0x8f)
      (third : IsContinuation c) (fourth : IsContinuation d) : Rune [a, b, c, d]

inductive IsUTF8 : Bytes → Prop
  | nil : IsUTF8 []
  | append {rune rest : Bytes} (first : Rune rune) (later : IsUTF8 rest) : IsUTF8 (rune ++ rest)

theorem inRange_continuation {b : UInt8} : inRange (some b) 0x80 0xbf ↔ IsContinuation b := by
  simp [inRange, IsContinuation]

theorem inRange_second (a b least most : UInt8) {low high : UInt8} (inside : 0x80 ≤ low)
    (below : high ≤ 0xbf) :
    inRange (some b) (if a = least then low else 0x80) (if a = most then high else 0xbf) ↔
      IsContinuation b ∧ (a = least → low ≤ b) ∧ (a = most → b ≤ high) := by
  simp only [inRange, IsContinuation, Option.any_some, decide_eq_true_eq, UInt8.le_iff_toNat_le]
    at inside below ⊢
  split <;> split <;> simp_all <;> omega

theorem runeLength_rune {a : UInt8} {more : Bytes} (isRune : Rune (a :: more)) (rest : Bytes) :
    runeLength a (more ++ rest) = more.length + 1 := by
  unfold runeLength
  cases isRune with
  | one lead => rw [if_pos lead]; rfl
  | two lead second =>
    have notOne : ¬ a < 0x80 := by grind
    rw [if_neg notOne, if_pos lead]
    simp [inRange_continuation.mpr second]
  | three lead second shortest noSurrogate third =>
    have notOne : ¬ a < 0x80 := by grind
    have notTwo : ¬ (0xc2 ≤ a ∧ a ≤ 0xdf) := by grind
    have first := (inRange_second a _ 0xe0 0xed (by decide)
      (by decide)).mpr ⟨second, shortest, noSurrogate⟩
    rw [if_neg notOne, if_neg notTwo, if_pos lead]
    simp [first, inRange_continuation.mpr third]
  | four lead second shortest upTo third fourth =>
    have notOne : ¬ a < 0x80 := by grind
    have notTwo : ¬ (0xc2 ≤ a ∧ a ≤ 0xdf) := by grind
    have notThree : ¬ (0xe0 ≤ a ∧ a ≤ 0xef) := by grind
    have first := (inRange_second a _ 0xf0 0xf4 (by decide)
      (by decide)).mpr ⟨second, shortest, upTo⟩
    rw [if_neg notOne, if_neg notTwo, if_neg notThree, if_pos lead]
    simp [first, inRange_continuation.mpr third, inRange_continuation.mpr fourth]

theorem of_ite_succ {p : Prop} [Decidable p] {n k : Nat} (found : (if p then n else 0) = k + 1) :
    p ∧ n = k + 1 := by
  by_cases holds : p
  · rw [if_pos holds] at found
    exact ⟨holds, found⟩
  · rw [if_neg holds] at found
    cases found

theorem rune_of_runeLength {a : UInt8} {rest : Bytes} {k : Nat}
    (length : runeLength a rest = k + 1) : ∃ more tail, rest = more ++ tail ∧ more.length = k ∧
      Rune (a :: more) := by
  unfold runeLength at length
  by_cases one : a < 0x80
  · rw [if_pos one] at length
    cases length
    exact ⟨[], rest, rfl, rfl, .one one⟩
  rw [if_neg one] at length
  by_cases two : 0xc2 ≤ a ∧ a ≤ 0xdf
  · rw [if_pos two] at length
    obtain ⟨range, size⟩ := of_ite_succ length
    cases size
    cases rest with
    | nil => cases range
    | cons b tail => exact ⟨[b], tail, rfl, rfl, .two two (inRange_continuation.mp range)⟩
  rw [if_neg two] at length
  by_cases three : 0xe0 ≤ a ∧ a ≤ 0xef
  · rw [if_pos three] at length
    obtain ⟨ranges, size⟩ := of_ite_succ length
    cases size
    match rest, ranges with
    | [], ranges => cases ranges.1
    | [b], ranges => cases ranges.2
    | b :: c :: tail, ranges =>
      obtain ⟨second, shortest, noSurrogate⟩ :=
        (inRange_second _ _ _ _ (by decide) (by decide)).mp ranges.1
      exact ⟨[b, c], tail, rfl, rfl,
        .three three second shortest noSurrogate (inRange_continuation.mp ranges.2)⟩
  rw [if_neg three] at length
  obtain ⟨four, narrowed⟩ := of_ite_succ length
  obtain ⟨ranges, size⟩ := of_ite_succ narrowed
  cases size
  match rest, ranges with
  | [], ranges => cases ranges.1
  | [b], ranges => cases ranges.2.1
  | [b, c], ranges => cases ranges.2.2
  | b :: c :: d :: tail, ranges =>
    obtain ⟨second, shortest, upTo⟩ := (inRange_second _ _ _ _ (by decide) (by decide)).mp ranges.1
    exact ⟨[b, c, d], tail, rfl, rfl,
      .four four second shortest upTo (inRange_continuation.mp ranges.2.1)
        (inRange_continuation.mp ranges.2.2)⟩

theorem coerceFrom_append (more rest : Bytes) :
    coerceFrom more.length (more ++ rest) = more ++ coerceFrom 0 rest := by
  induction more with
  | nil => rfl
  | cons b more ih => rw [length_cons, cons_append, coerceFrom, ih, cons_append]

theorem length_le_coerceFrom (k : Nat) (b : Bytes) : b.length ≤ (coerceFrom k b).length := by
  induction b generalizing k with
  | nil => exact Nat.zero_le _
  | cons x rest ih =>
    cases k with
    | succ k => exact Nat.succ_le_succ (ih k)
    | zero =>
      rw [coerceFrom]
      split
      · rw [length_append, length_cons]
        have := ih 0
        simp only [replacement, length_cons, length_nil]
        omega
      · exact Nat.succ_le_succ (ih _)

/-- A text is left as it is exactly if it is a sequence of well-formed encodings. -/
theorem validUTF8_iff {b : Bytes} : ValidUTF8 b ↔ IsUTF8 b := by
  constructor
  · intro valid
    induction isLength : b.length using Nat.strong_induction_on generalizing b with
    | _ size ih =>
      cases b with
      | nil => exact .nil
      | cons a rest =>
        unfold ValidUTF8 coerceUTF8 at valid
        rw [coerceFrom] at valid
        split at valid
        · -- the replacement is longer than the byte it replaces
          have lengths := congrArg List.length valid
          have longer := length_le_coerceFrom 0 rest
          simp only [replacement, length_append, length_cons, length_nil] at lengths
          omega
        · rename_i k length
          obtain ⟨more, tail, rfl, rfl, rune⟩ := rune_of_runeLength length
          rw [coerceFrom_append, cons_inj_right, append_cancel_left_eq] at valid
          have smaller : tail.length < size := by
            rw [← isLength]
            simp only [length_cons, length_append]
            omega
          exact .append rune (ih tail.length smaller valid rfl)
  · intro text
    induction text with
    | nil => rfl
    | @append rune rest first later ih =>
      cases rune with
      | nil => cases first
      | cons a more =>
        unfold ValidUTF8 coerceUTF8 at ih ⊢
        rw [cons_append, coerceFrom, runeLength_rune first rest]
        simp only [coerceFrom_append, ih]

end T4.Lib.Text
