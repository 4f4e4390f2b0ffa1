import T4.Lib.Checked
import T4.Wal.Entry

/-!
# Transaction payloads, byte by byte

`DecodeTxnOps` walks through a payload by offsets, in one of two layouts that the top
bit of the count selects. `decodeTxnOpsAt` is that walk with every access checked.
It never leaves the payload, whatever the payload is, and agrees with `decodeTxnOps`,
which takes the payload apart from the front. A payload that is cut short is refused
in both layouts.
-/

namespace T4.Wal

open Lib Bytes List

/-! ## The walk by offsets -/

/-- The version of the operation at `off`, 0 in the layout without versions. -/
def versionAt (b : Bytes) (versioned : Bool) (off : Nat) : Checked DecodeError Int :=
  if versioned then (Checked.slice b (off + 25) (off + 33)).map getInt64 else .ok 0

/-- The loop of `DecodeTxnOps`: `i` operations are decoded, `off` is the next byte. -/
def decodeTxnLoopAt (b : Bytes) (versioned : Bool) :
    (count i off : Nat) → Checked DecodeError (List TxnSubOp)
  | 0, _, _ => .ok []
  | count + 1, i, off =>
    if b.length - off < fixedSizeOf versioned then Checked.reject (.txnHeaderTruncated i)
    else do
      let op ← Checked.byte b off
      let lease ← Checked.slice b (off + 1) (off + 9)
      let createRevision ← Checked.slice b (off + 9) (off + 17)
      let prevRevision ← Checked.slice b (off + 17) (off + 25)
      let version ← versionAt b versioned off
      let keyLenOffset := off + keyLenOffsetOf versioned
      let keyLen := ofBigEndian (← Checked.slice b keyLenOffset (keyLenOffset + 4))
      let valLen := ofBigEndian (← Checked.slice b (keyLenOffset + 4) (keyLenOffset + 8))
      let off := off + fixedSizeOf versioned
      if b.length - off < keyLen + valLen then
        Checked.reject (.txnPayloadTruncated i (keyLen + valLen) (b.length - off))
      else
        let key ← Checked.slice b off (off + keyLen)
        let off := off + keyLen
        let value ← Checked.slice b off (off + valLen)
        let rest ← decodeTxnLoopAt b versioned count (i + 1) (off + valLen)
        .ok ({
          op := ⟨op⟩
          lease := getInt64 lease
          createRevision := getInt64 createRevision
          prevRevision := getInt64 prevRevision
          version
          key
          value } :: rest)

def decodeTxnOpsAt (b : Bytes) : Checked DecodeError (List TxnSubOp) :=
  if b.length < 4 then Checked.reject (.txnTooShort b.length)
  else do
    let rawCount := ofBigEndian (← Checked.slice b 0 4)
    decodeTxnLoopAt b (rawCount.testBit 31) (rawCount % 2 ^ 31) 0 4

/-! ## The walk and the decoder from the front -/

section Fields

variable (versioned : Bool) (b : Bytes)

/-- The lengths that the operation at the front of `b` announces. -/
def keyLenIn : Nat :=
  ofBigEndian (slice b (keyLenOffsetOf versioned) (keyLenOffsetOf versioned + 4))

def valLenIn : Nat :=
  ofBigEndian (slice b (keyLenOffsetOf versioned + 4) (keyLenOffsetOf versioned + 8))

/-- The operation at the front of `b`. -/
def subOpIn : TxnSubOp where
  op := ⟨b.headD 0⟩
  lease := getInt64 (slice b 1 9)
  createRevision := getInt64 (slice b 9 17)
  prevRevision := getInt64 (slice b 17 25)
  version := if versioned then getInt64 (slice b 25 33) else 0
  key := (b.drop (fixedSizeOf versioned)).take (keyLenIn versioned b)
  value := ((b.drop (fixedSizeOf versioned)).drop (keyLenIn versioned b)).take
    (valLenIn versioned b)

variable (count i : Nat)

theorem decodeTxnLoop_short (short : b.length < fixedSizeOf versioned) :
    decodeTxnLoop versioned (count + 1) i b = .error (.txnHeaderTruncated i) :=
  if_pos short

theorem decodeTxnLoop_cut (long : ¬ b.length < fixedSizeOf versioned)
    (cut : (b.drop (fixedSizeOf versioned)).length < keyLenIn versioned b + valLenIn versioned b) :
    decodeTxnLoop versioned (count + 1) i b =
      .error (.txnPayloadTruncated i (keyLenIn versioned b + valLenIn versioned b)
        (b.drop (fixedSizeOf versioned)).length) :=
  (if_neg long).trans (if_pos cut)

theorem decodeTxnLoop_whole (long : ¬ b.length < fixedSizeOf versioned)
    (whole : ¬ (b.drop (fixedSizeOf versioned)).length <
      keyLenIn versioned b + valLenIn versioned b) :
    decodeTxnLoop versioned (count + 1) i b =
      match decodeTxnLoop versioned count (i + 1)
        ((b.drop (fixedSizeOf versioned)).drop (keyLenIn versioned b + valLenIn versioned b)) with
      | .error err => .error err
      | .ok ops => .ok (subOpIn versioned b :: ops) :=
  (if_neg long).trans (if_neg whole)

end Fields

theorem decodeTxnLoopAt_eq (b : Bytes) (versioned : Bool) (count i off : Nat)
    (within : off ≤ b.length) :
    decodeTxnLoopAt b versioned count i off =
      Checked.ofExcept (decodeTxnLoop versioned count i (b.drop off)) := by
  induction count generalizing i off with
  | zero => rfl
  | succ count ih =>
    have size : fixedSizeOf versioned = keyLenOffsetOf versioned + 8 := by
      cases versioned <;> rfl
    have least : 25 ≤ keyLenOffsetOf versioned := by cases versioned <;> decide
    rw [decodeTxnLoopAt]
    by_cases short : b.length - off < fixedSizeOf versioned
    · rw [if_pos short, decodeTxnLoop_short versioned _ _ _ (by rwa [length_drop])]
      rfl
    have long : ¬ (b.drop off).length < fixedSizeOf versioned := by rwa [length_drop]
    have version : versionAt b versioned off =
        .ok (if versioned then getInt64 (slice b (off + 25) (off + 33)) else 0) := by
      cases versioned with
      | false => rfl
      | true =>
        have inside : off + 33 ≤ b.length := by
          simp only [size, keyLenOffsetOf, if_true] at short
          omega
        rw [versionAt, if_pos rfl, Checked.slice_of_le (by omega) inside]
        rfl
    have keyLen : keyLenIn versioned (b.drop off) = ofBigEndian (slice b
        (off + keyLenOffsetOf versioned) (off + keyLenOffsetOf versioned + 4)) := by
      rw [keyLenIn, slice_drop, Nat.add_assoc]
    have valLen : valLenIn versioned (b.drop off) = ofBigEndian (slice b
        (off + keyLenOffsetOf versioned + 4) (off + keyLenOffsetOf versioned + 8)) := by
      rw [valLenIn, slice_drop, Nat.add_assoc, Nat.add_assoc]
    have left : ((b.drop off).drop (fixedSizeOf versioned)).length =
        b.length - (off + fixedSizeOf versioned) := by
      rw [drop_drop, length_drop]
    rw [if_neg short, Checked.byte_of_lt (by omega), Checked.slice_of_le (by omega) (by omega),
      Checked.slice_of_le (by omega) (by omega), Checked.slice_of_le (by omega) (by omega), version]
    simp only [bind, Except.bind]
    rw [Checked.slice_of_le (by omega) (by omega)]
    simp only
    rw [Checked.slice_of_le (by omega) (by omega)]
    simp only
    rw [← keyLen, ← valLen]
    by_cases cut : b.length - (off + fixedSizeOf versioned) <
        keyLenIn versioned (b.drop off) + valLenIn versioned (b.drop off)
    · rw [if_pos cut, decodeTxnLoop_cut versioned _ _ _ long (by rwa [left]), left]
      rfl
    · rw [if_neg cut, decodeTxnLoop_whole versioned _ _ _ long (by rwa [left]),
        Checked.slice_of_le (by omega) (by omega)]
      simp only
      rw [Checked.slice_of_le (by omega) (by omega)]
      simp only
      have found : subOpIn versioned (b.drop off) = {
          op := ⟨(b.drop off).headD 0⟩
          lease := getInt64 (slice b (off + 1) (off + 9))
          createRevision := getInt64 (slice b (off + 9) (off + 17))
          prevRevision := getInt64 (slice b (off + 17) (off + 25))
          version := if versioned then getInt64 (slice b (off + 25) (off + 33)) else 0
          key := slice b (off + fixedSizeOf versioned)
            (off + fixedSizeOf versioned + keyLenIn versioned (b.drop off))
          value := slice b (off + fixedSizeOf versioned + keyLenIn versioned (b.drop off))
            (off + fixedSizeOf versioned + keyLenIn versioned (b.drop off) +
              valLenIn versioned (b.drop off)) } := by
        simp only [subOpIn, slice_drop, drop_drop]
        simp only [slice, Nat.add_sub_cancel_left]
      rw [ih _ _ (by omega), drop_drop, drop_drop, ← Nat.add_assoc, ← Nat.add_assoc,
        found]
      cases decodeTxnLoop versioned count (i + 1) _ with
      | error err => rfl
      | ok ops => rfl

theorem decodeTxnOpsAt_eq (b : Bytes) :
    decodeTxnOpsAt b = Checked.ofExcept (decodeTxnOps b) := by
  unfold decodeTxnOpsAt decodeTxnOps
  split
  · rfl
  · rw [Checked.slice_of_le (by omega) (by omega)]
    exact decodeTxnLoopAt_eq b _ _ 0 4 (by omega)

/-! ## Payloads that are cut short -/

/-- A cut operation is refused: its fixed part is missing, or it announces more than is
there. -/
theorem decodeTxnLoop_torn_op (versioned : Bool) {o : TxnSubOp} (typed : o.WellTyped) {torn : Bytes}
    (cut : torn <+: encodeSubOp versioned o)
    (short : torn.length < (encodeSubOp versioned o).length)
    (count i : Nat) : ∃ err, decodeTxnLoop versioned (count + 1) i torn = .error err := by
  by_cases tiny : torn.length < fixedSizeOf versioned
  · exact ⟨_, decodeTxnLoop_short versioned torn count i tiny⟩
  · obtain ⟨missing, whole⟩ := cut
    have size : fixedSizeOf versioned = keyLenOffsetOf versioned + 8 := by
      cases versioned <;> rfl
    have keyLen : keyLenIn versioned torn = o.key.length := by
      rw [keyLenIn, ← slice_append_of_le (b := missing) (by omega), whole,
        ← append_nil (encodeSubOp versioned o), keyLen_encodeSubOp,
        ofBigEndian_bigEndian_of_lt typed.key]
    have valLen : valLenIn versioned torn = o.value.length := by
      rw [valLenIn, ← slice_append_of_le (b := missing) (by omega), whole,
        ← append_nil (encodeSubOp versioned o), valLen_encodeSubOp,
        ofBigEndian_bigEndian_of_lt typed.value]
    rw [length_encodeSubOp] at short
    refine ⟨_, decodeTxnLoop_cut versioned torn count i tiny ?_⟩
    rw [keyLen, valLen, length_drop]
    omega

theorem decodeTxnLoop_torn (versioned : Bool) {ops : List TxnSubOp}
    (typed : ∀ o ∈ ops, o.WellTyped) {torn : Bytes}
    (cut : torn <+: ops.flatMap (encodeSubOp versioned))
    (short : torn.length < (ops.flatMap (encodeSubOp versioned)).length) (i : Nat) :
    ∃ err, decodeTxnLoop versioned ops.length i torn = .error err := by
  induction ops generalizing torn i with
  | nil => simp at short
  | cons o ops ih =>
    have first := typed o (by simp)
    rw [flatMap_cons] at cut short
    rw [length_append] at short
    have start : encodeSubOp versioned o <+: encodeSubOp versioned o ++
        ops.flatMap (encodeSubOp versioned) := prefix_append _ _
    rcases Nat.lt_or_ge torn.length (encodeSubOp versioned o).length with inside | beyond
    · exact decodeTxnLoop_torn_op versioned first
        (prefix_of_prefix_length_le cut start inside.le) inside ops.length i
    · obtain ⟨rest, rfl⟩ := prefix_of_prefix_length_le start cut beyond
      rw [length_append] at short
      obtain ⟨err, refused⟩ := ih (fun other mem => typed other (mem_cons_of_mem o mem))
        ((prefix_append_right_inj _).mp cut) (by omega) (i + 1)
      refine ⟨err, ?_⟩
      rw [length_cons, decodeTxnLoop_encodeSubOp versioned first, refused]
      rfl

/-! ## Both layouts -/

/-- The encoding from before versions were recorded. -/
def encodeTxnOpsV1 (ops : List TxnSubOp) : Bytes := encodeTxnOpsIn false ops

theorem decodeTxnOps_torn (versioned : Bool) {ops : List TxnSubOp}
    (typed : ∀ o ∈ ops, o.WellTyped) (few : ops.length < 2 ^ 31) {torn : Bytes}
    (cut : torn <+: encodeTxnOpsIn versioned ops)
    (strict : torn ≠ encodeTxnOpsIn versioned ops) : ∃ err, decodeTxnOps torn = .error err := by
  have short : torn.length < (encodeTxnOpsIn versioned ops).length :=
    lt_of_le_of_ne cut.length_le (fun same => strict (cut.eq_of_length same))
  rw [encodeTxnOpsIn] at cut short
  rcases Nat.lt_or_ge torn.length 4 with tiny | counted
  · exact ⟨.txnTooShort torn.length, by rw [decodeTxnOps, if_pos tiny]⟩
  · obtain ⟨body, rfl⟩ := prefix_of_prefix_length_le (prefix_append _ _) cut (by simpa)
    rw [decodeTxnOps_count versioned few]
    refine decodeTxnLoop_torn versioned typed ((prefix_append_right_inj _).mp cut) ?_ 0
    rw [length_append, length_append] at short
    omega

/-- **The codec of transaction payloads.** What is encoded is decoded again, in the
layout without versions up to the version; a payload cut short is refused; and no byte
string makes the decoder read outside it. -/
theorem txnPayload_codec {ops : List TxnSubOp} (typed : ∀ o ∈ ops, o.WellTyped)
    (few : ops.length < 2 ^ 31) :
    decodeTxnOpsAt (encodeTxnOps ops) = .ok ops ∧
      decodeTxnOpsAt (encodeTxnOpsV1 ops) = .ok (ops.map fun o => { o with version := 0 }) ∧
      (∀ encoding ∈ [encodeTxnOps ops, encodeTxnOpsV1 ops], ∀ torn, torn <+: encoding →
        torn ≠ encoding → ∃ err, decodeTxnOpsAt torn = .error (.error err)) ∧
      ∀ b, decodeTxnOpsAt b ≠ .error .outOfRange := by
  refine ⟨?_, ?_, ?_, ?_⟩
  · rw [decodeTxnOpsAt_eq, decodeTxnOps_encodeTxnOps typed few]
    rfl
  · rw [decodeTxnOpsAt_eq, encodeTxnOpsV1, decodeTxnOps_encodeTxnOpsIn false typed few]
    rfl
  · intro encoding mem torn cut strict
    have layout : ∃ versioned, encoding = encodeTxnOpsIn versioned ops := by
      rcases mem_pair.mp mem with rfl | rfl
      · exact ⟨true, encodeTxnOps_eq few⟩
      · exact ⟨false, rfl⟩
    obtain ⟨versioned, rfl⟩ := layout
    obtain ⟨err, refused⟩ := decodeTxnOps_torn versioned typed few cut strict
    exact ⟨err, by rw [decodeTxnOpsAt_eq, refused]; rfl⟩
  · intro b
    rw [decodeTxnOpsAt_eq]
    exact Checked.ofExcept_ne_outOfRange _

/-- A key is updated and another one, with an empty value, is deleted. -/
def sampleOps : List TxnSubOp := [
  { op := Op.update, key := [0x61], value := [0x01, 0x02], lease := -1, createRevision := 3,
    prevRevision := 4, version := 2 },
  { op := Op.delete, key := [0x62, 0x63], createRevision := 2, prevRevision := 2, version := 1 }]

theorem sampleOps_wellTyped : ∀ o ∈ sampleOps, o.WellTyped := by
  intro o mem
  rcases mem_pair.mp mem with rfl | rfl
  · exact ⟨by decide, by decide, by decide, by decide, by decide, by decide⟩
  · exact ⟨by decide, by decide, by decide, by decide, by decide, by decide⟩

theorem txnPayload_codec_sampleOps :
    decodeTxnOpsAt (encodeTxnOps sampleOps) = .ok sampleOps ∧
      ∃ err, decodeTxnOpsAt ((encodeTxnOps sampleOps).take 50) = .error (.error err) := by
  obtain ⟨back, -, refused, -⟩ := txnPayload_codec sampleOps_wellTyped (by decide)
  refine ⟨back, refused _ (by simp) _ (List.take_prefix _ _) ?_⟩
  intro same
  exact absurd (congrArg List.length same) (by decide)

end T4.Wal
