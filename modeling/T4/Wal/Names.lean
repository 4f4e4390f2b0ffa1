import Mathlib.Data.List.TakeWhile
import T4.Checkpoint.Archive
import T4.Wal.SyncUpload

/-!
# Names of segments and checkpoints

The names carry a term and a first sequence or revision in decimal, padded with zeros.
`ParseSegmentName`, `parseWALKey` and `parseFirstRev` read them back with `strconv`; the latter
two cut off the zeros first, which leaves nothing of the number 0, and rely on the value that
`strconv` returns beside its error.

Replay, garbage collection and retention sort the names as strings. Up to the widths of the
two numbers that is the order of the numbers (`numbered_lt_iff`).
-/

namespace T4.Wal

open Lib Bytes Text Archive List

/-! ## Reading a name -/

/-- The loop of `strconv.ParseUint`: the value, and whether there is no error. -/
def parseUintFrom (n : Nat) : Bytes → Nat × Bool
  | [] => (n, true)
  | b :: rest =>
    if b < 0x30 ∨ 0x39 < b then (0, false)
    else if 2 ^ 64 ≤ 10 * n + (b.toNat - 48) then (2 ^ 64 - 1, false)
    else parseUintFrom (10 * n + (b.toNat - 48)) rest

def parseUint (s : Bytes) : Nat × Bool := if s = [] then (0, false) else parseUintFrom 0 s

def parseInt (s : Bytes) : Int × Bool :=
  let negative := s.head? = some 0x2d
  let (un, ok) := parseUint (if negative || s.head? = some 0x2b then s.tail else s)
  -- the value is 0 at a syntax error and the largest one if the number is out of range
  if !ok && un = 0 then (0, false)
  else if !negative && 2 ^ 63 ≤ un then (2 ^ 63 - 1, false)
  else if negative && 2 ^ 63 < un then (-2 ^ 63, false)
  else (if negative then -un else un, true)

/-- What stands before and behind the first `sep`. -/
def cutAt (sep : UInt8) (s : Bytes) : Option (Bytes × Bytes) :=
  if sep ∈ s then some (s.takeWhile (· ≠ sep), (s.dropWhile (· ≠ sep)).tail) else none

def trimZeros (s : Bytes) : Bytes := s.dropWhile (· = 0x30)

def parseSegmentName (name : Bytes) : Option (Nat × Int) :=
  match cutAt 0x2d (trimSuffix name (ascii ".wal")) with
  | none => none
  | some (front, back) =>
    let (term, termOk) := parseUint front
    let (firstRev, revOk) := parseInt back
    if !termOk || !revOk then none else some (term, firstRev)

/-- `SplitN(key, "/", 3)` without its first part. -/
def keyParts (key : Bytes) : Option (Bytes × Bytes) :=
  (cutAt slash key).bind (fun p => cutAt slash p.2)

def parseWALKey (key : Bytes) : Nat × Int :=
  match keyParts key with
  | none => (0, 0)
  | some (term, firstRev) => ((parseUint (trimZeros term)).1, (parseInt (trimZeros firstRev)).1)

/-- `Split(key, "/")` ends its third part at the next slash. -/
def parseFirstRev (key : Bytes) : Int :=
  match keyParts key with
  | none => 0
  | some (_, rest) => (parseInt (trimZeros (rest.takeWhile (· ≠ slash)))).1

theorem cutAt_append {sep : UInt8} {s : Bytes} (absent : sep ∉ s) (rest : Bytes) :
    cutAt sep (s ++ sep :: rest) = some (s, rest) := by
  have before : ∀ b ∈ s, decide (b ≠ sep) = true := by
    intro b mem
    rw [decide_eq_true_eq]
    rintro rfl
    exact absent mem
  rw [cutAt, if_pos (by simp), takeWhile_append_of_pos before,
    dropWhile_append_of_pos before]
  simp

/-! ## Padded numbers -/

def Digits (s : Bytes) : Prop := ∀ b ∈ s, 0x30 ≤ b ∧ b ≤ 0x39

theorem digits_padDecimal (width n : Nat) : Digits (padDecimal width n) := by
  intro b mem
  rw [padDecimal_of_nonneg] at mem
  obtain ⟨c, digit, rfl⟩ := mem_map.mp mem
  have bounds := isDigit_bounds (isDigit_paddedDigits digit)
  rw [UInt8.le_iff_toNat_le, UInt8.le_iff_toNat_le, UInt8.toNat_ofNat']
  have codes : UInt8.toNat 0x30 = 48 ∧ UInt8.toNat 0x39 = 57 := ⟨rfl, rfl⟩
  omega

theorem Digits.notMem {s : Bytes} (digits : Digits s) {b : UInt8} (other : b < 0x30) : b ∉ s :=
  fun mem => absurd (digits b mem).1 (not_le.mpr other)

theorem parseUint_trimZeros (s : Bytes) :
    (parseUint (trimZeros s)).1 = (parseUintFrom 0 s).1 := by
  induction s with
  | nil => rfl
  | cons b rest ih =>
    by_cases zero : b = 0x30
    · subst zero
      exact ih
    · rw [trimZeros, dropWhile_cons_of_neg (by simpa using zero)]
      rfl

theorem parseInt_of_digits {s : Bytes} (digits : Digits s) {n : Nat} (small : n < 2 ^ 63)
    {ok : Bool}
    (parsed : parseUint s = (n, ok)) : parseInt s = ((n : Int), ok || n ≠ 0) := by
  have unsigned : s.head? ≠ some 0x2d ∧ s.head? ≠ some 0x2b := by
    constructor <;> intro sign <;>
      exact digits.notMem (by decide) (mem_of_mem_head? sign)
  unfold parseInt
  simp only [unsigned.1, unsigned.2, parsed, decide_false, Bool.or_false, Bool.false_eq_true,
    if_false, Bool.not_false, Bool.true_and, decide_eq_true_eq, if_neg (not_le.mpr small),
    Bool.false_and]
  by_cases zero : n = 0 <;> cases ok <;> simp [zero]

theorem parseUintFrom_chars {cs : List Char} (digits : ∀ c ∈ cs, c.isDigit = true) {n : Nat}
    (fits : Nat.ofDigitChars 10 cs n < 2 ^ 64) :
    parseUintFrom n (cs.map (fun c => UInt8.ofNat c.toNat)) = (Nat.ofDigitChars 10 cs n, true) := by
  induction cs generalizing n with
  | nil => rfl
  | cons c cs ih =>
    have ⟨here, later⟩ := forall_mem_cons.mp digits
    have bounds := isDigit_bounds here
    have code : (UInt8.ofNat c.toNat).toNat = c.toNat := by
      rw [UInt8.toNat_ofNat', Nat.mod_eq_of_lt (by omega)]
    have isDigit : ¬ (UInt8.ofNat c.toNat < 0x30 ∨ 0x39 < UInt8.ofNat c.toNat) := by
      rw [UInt8.lt_iff_toNat_lt, UInt8.lt_iff_toNat_lt, code]
      have codes : UInt8.toNat 0x30 = 48 ∧ UInt8.toNat 0x39 = 57 := ⟨rfl, rfl⟩
      omega
    rw [Nat.ofDigitChars_cons] at fits ⊢
    have small : 10 * n + (c.toNat - 48) < 2 ^ 64 := by
      rw [Nat.ofDigitChars_eq_ofDigitChars_zero] at fits
      have grows := Nat.le_mul_of_pos_left (10 * n + (c.toNat - 48))
        (Nat.pow_pos (n := cs.length) (show 0 < 10 by decide))
      exact lt_of_le_of_lt (grows.trans (Nat.le_add_right _ _)) fits
    rw [map_cons, parseUintFrom, if_neg isDigit, code, if_neg (not_le.mpr small)]
    exact ih later fits

theorem parseUint_padDecimal (width n : Nat) (some : 0 < width) (fits : n < 10 ^ width)
    (small : n < 2 ^ 64) : parseUint (padDecimal width n) = (n, true) ∧
      (parseUint (trimZeros (padDecimal width n))).1 = n := by
  have value := @parseUintFrom_chars (paddedDigits width n) (fun _ => isDigit_paddedDigits) 0
    (by rwa [ofDigitChars_paddedDigits])
  rw [ofDigitChars_paddedDigits, ← padDecimal_of_nonneg] at value
  constructor
  · rw [parseUint, if_neg, value]
    intro empty
    have width_ := congrArg List.length empty
    rw [padDecimal_of_nonneg, length_map, length_paddedDigits some fits,
      length_nil] at width_
    omega
  · rw [parseUint_trimZeros, value]

/-! ## Order -/

def numbered (front sep back : Bytes) (p : Nat × Nat) : Bytes :=
  front ++ (padDecimal 10 p.1 ++ (sep ++ (padDecimal 20 p.2 ++ back)))

/-- A term and a sequence or revision that fit in their places. -/
def InRange (p : Nat × Nat) : Prop := p.1 < 10 ^ 10 ∧ p.2 < 2 ^ 63

theorem numbered_lt_iff {p q : Nat × Nat} (rangeP : InRange p) (rangeQ : InRange q)
    (front sep back : Bytes) :
    numbered front sep back p < numbered front sep back q ↔ toLex p < toLex q := by
  have revP : p.2 < 10 ^ 20 := rangeP.2.trans (by decide)
  have revQ : q.2 < 10 ^ 20 := rangeQ.2.trans (by decide)
  rw [numbered, numbered, append_left_lt_iff,
    padDecimal_append_lt_iff (by decide) rangeP.1 rangeQ.1, append_left_lt_iff,
    padDecimal_append_lt_iff (by decide) revP revQ, Prod.Lex.toLex_lt_toLex]
  simp

/-- `sort.Strings`, also the order of an object listing. -/
def sorted (names : List Bytes) : List Bytes := names.mergeSort (fun a b => decide (a ≤ b))

def byTerm (ps : List (Nat × Nat)) : List (Nat × Nat) :=
  ps.mergeSort (fun p q => decide (toLex p ≤ toLex q))

theorem sorted_numbered {ps : List (Nat × Nat)} (range : ∀ p ∈ ps, InRange p)
    (front sep back : Bytes) :
    sorted (ps.map (numbered front sep back)) = (byTerm ps).map (numbered front sep back) := by
  refine (map_mergeSort ?_).symm
  intro p memP q memQ
  rw [decide_eq_decide, ← not_lt, ← not_lt, numbered_lt_iff (range q memQ) (range p memP)]

/-- The paths of `LocalSegments`; `dir` is what `Join` puts before the name of a file. -/
def localSegmentPaths (dir : Bytes) (names : List Bytes) : List Bytes :=
  sorted ((names.filter (hasSuffix · (ascii ".wal"))).map (dir ++ ·))

/-- `ListRemote` -/
def listRemote (keys : List Bytes) : List Bytes :=
  sorted (keys.filter (hasSuffix · (ascii "/manifest.json")))

theorem hasSuffix_numbered (front sep back : Bytes) (p : Nat × Nat) :
    hasSuffix (numbered front sep back p) back = true := by
  rw [numbered, ← append_assoc, ← append_assoc, ← append_assoc]
  exact hasSuffix_append _ _

theorem segmentFileName_eq (p : Nat × Nat) :
    segmentFileName p.1 p.2 = numbered [] (ascii "-") (ascii ".wal") p := by
  simp [segmentFileName, numbered]

theorem objectKey_eq (p : Nat × Nat) :
    objectKey p.1 p.2 = numbered (ascii "wal/") [slash] [] p := by
  simp [objectKey, numbered]

theorem checkpointIndexKey_eq (p : Nat × Nat) : checkpointIndexKey p.1 p.2 =
    numbered (ascii "checkpoint/") [slash] (ascii "/manifest.json") p := by
  simp only [checkpointIndexKey, checkpointKey, numbered, append_assoc, cons_append]
  rfl

theorem parse_names {p : Nat × Nat} (range : InRange p) :
    parseSegmentName (segmentFileName p.1 p.2) = some (p.1, (p.2 : Int)) ∧
    parseWALKey (objectKey p.1 p.2) = (p.1, (p.2 : Int)) ∧
    parseFirstRev (objectKey p.1 p.2) = p.2 := by
  have termParsed := parseUint_padDecimal 10 p.1 (by decide) range.1 (range.1.trans (by decide))
  have revParsed := parseUint_padDecimal 20 p.2 (by decide) (range.2.trans (by decide))
    (range.2.trans (by decide))
  have digits := digits_padDecimal 20 p.2
  have trimmed : Digits (trimZeros (padDecimal 20 p.2)) :=
    fun b mem => digits b ((dropWhile_sublist _).subset mem)
  have rev : (parseInt (trimZeros (padDecimal 20 p.2))).1 = p.2 := by
    obtain ⟨ok, parsed⟩ : ∃ ok, parseUint (trimZeros (padDecimal 20 p.2)) = (p.2, ok) :=
      ⟨_, Prod.ext revParsed.2 rfl⟩
    rw [parseInt_of_digits trimmed range.2 parsed]
  have parts : keyParts (objectKey p.1 p.2) = some (padDecimal 10 p.1, padDecimal 20 p.2) := by
    have key : objectKey p.1 p.2 =
        ascii "wal" ++ slash :: (padDecimal 10 p.1 ++ slash :: padDecimal 20 p.2) := by
      simp only [objectKey, append_assoc, singleton_append]
      rfl
    rw [keyParts, key, cutAt_append (by decide +kernel), Option.bind_some,
      cutAt_append ((digits_padDecimal 10 p.1).notMem (by decide))]
  refine ⟨?_, ?_, ?_⟩
  · have name : segmentFileName p.1 p.2 =
        padDecimal 10 p.1 ++ 0x2d :: padDecimal 20 p.2 ++ ascii ".wal" := by
      simp only [segmentFileName, append_assoc, cons_append]
      rfl
    rw [parseSegmentName, name, trimSuffix_append,
      cutAt_append ((digits_padDecimal 10 p.1).notMem (by decide))]
    simp [termParsed.1, parseInt_of_digits digits range.2 revParsed.1]
  · simp [parseWALKey, parts, termParsed.2, rev]
  · have flat : (padDecimal 20 p.2).takeWhile (· ≠ slash) = padDecimal 20 p.2 := by
      rw [takeWhile_eq_self_iff]
      intro b mem
      rw [decide_eq_true_eq]
      rintro rfl
      exact digits.notMem (by decide) mem
    simp only [parseFirstRev, parts, flat, rev]

/-- **Names sort chronologically and parse back.** -/
theorem names_parse_and_sort {ps : List (Nat × Nat)} (range : ∀ p ∈ ps, InRange p) (dir : Bytes) :
    (∀ p ∈ ps, parseSegmentName (segmentFileName p.1 p.2) = some (p.1, (p.2 : Int)) ∧
      parseWALKey (objectKey p.1 p.2) = (p.1, (p.2 : Int)) ∧
      parseFirstRev (objectKey p.1 p.2) = p.2) ∧
    (∀ p ∈ ps, ∀ q ∈ ps,
      (segmentFileName p.1 p.2 < segmentFileName q.1 q.2 ↔ toLex p < toLex q) ∧
      (objectKey p.1 p.2 < objectKey q.1 q.2 ↔ toLex p < toLex q) ∧
      (checkpointIndexKey p.1 p.2 < checkpointIndexKey q.1 q.2 ↔ toLex p < toLex q)) ∧
    localSegmentPaths dir (ps.map (fun p => segmentFileName p.1 p.2)) =
      (byTerm ps).map (fun p => dir ++ segmentFileName p.1 p.2) ∧
    sorted (ps.map (fun p => objectKey p.1 p.2)) = (byTerm ps).map (fun p => objectKey p.1 p.2) ∧
    listRemote (ps.map (fun p => checkpointIndexKey p.1 p.2)) =
      (byTerm ps).map (fun p => checkpointIndexKey p.1 p.2) := by
  simp only [segmentFileName_eq, objectKey_eq, checkpointIndexKey_eq]
  refine ⟨?_, ?_, ?_, sorted_numbered range _ _ _, ?_⟩
  · intro p mem
    rw [← segmentFileName_eq, ← objectKey_eq]
    exact parse_names (range p mem)
  · intro p memP q memQ
    have order := numbered_lt_iff (range p memP) (range q memQ)
    exact ⟨order _ _ _, order _ _ _, order _ _ _⟩
  · rw [localSegmentPaths, filter_eq_self.mpr, map_map]
    · have joined : (dir ++ ·) ∘ numbered [] (ascii "-") (ascii ".wal") =
          numbered dir (ascii "-") (ascii ".wal") := by
        funext p
        simp [numbered]
      rw [joined]
      exact sorted_numbered range _ _ _
    · intro name mem
      obtain ⟨p, -, rfl⟩ := mem_map.mp mem
      exact hasSuffix_numbered _ _ _ p
  · rw [listRemote, filter_eq_self.mpr]
    · exact sorted_numbered range _ _ _
    · intro key mem
      obtain ⟨p, -, rfl⟩ := mem_map.mp mem
      exact hasSuffix_numbered _ _ _ p

theorem names_parse_and_sort_sample : parseFirstRev (objectKey 1 0) = 0 ∧
    objectKey 1 12 < objectKey 2 0 := by
  have range : ∀ p ∈ [(1, 0), (1, 12), (2, 0)], InRange p := by
    unfold InRange
    decide
  obtain ⟨parsed, order, -⟩ := names_parse_and_sort range []
  exact ⟨(parsed (1, 0) (by simp)).2.2,
    (order (1, 12) (by simp) (2, 0) (by simp)).2.1.mpr (by decide)⟩

end T4.Wal
