import T4.Store.Keys

/-!
# Records without a version field

Stores written by earlier releases hold records with a header of 29 bytes, without
the version. `unmarshalRecord` tells the two formats apart by the plausibility of
what it finds at the place of the version, which for an old record is the length of
its key followed by the first bytes of the key and the value.

That number has the key length in its upper half. The key is not empty, so the
number is negative or at least `2 ^ 32`, while a plausible version is at most
`prevRevision - createRevision + 2`.
-/

namespace T4.Mvcc

open Lib Bytes List

/-- A record of the format with the 29-byte header. -/
structure RecordV1 where
  flags : UInt8
  key : Bytes
  value : Bytes
  createRevision : Int
  prevRevision : Int
  lease : Int
  keyFits : key.length < 2 ^ 32
  leaseFits : IsInt64 lease

namespace RecordV1

def marshal (r : RecordV1) : Bytes :=
  [r.flags] ++ putInt64 r.createRevision ++ putInt64 r.prevRevision ++ putInt64 r.lease ++
    bigEndian 4 r.key.length ++ r.key ++ r.value

def toRecord (r : RecordV1) : Record where
  key := r.key
  value := r.value
  createRevision := r.createRevision
  prevRevision := r.prevRevision
  version := 0
  lease := r.lease
  create := r.flags &&& flagCreate ≠ 0
  delete := r.flags &&& flagDelete ≠ 0

theorem length_marshal (r : RecordV1) :
    r.marshal.length = 29 + r.key.length + r.value.length := by
  simp [marshal]
  omega

theorem slice_version (r : RecordV1) (long : 33 ≤ r.marshal.length) :
    ∃ rest : Bytes, slice r.marshal 25 33 = bigEndian 4 r.key.length ++ rest ∧
      rest.length = 4 := by
  refine ⟨(r.key ++ r.value).take 4, ?_, ?_⟩
  · simp [marshal, slice, drop_append, drop_eq_nil_of_le, take_append]
  · rw [length_marshal] at long
    rw [length_take, length_append]
    omega

theorem getInt64_tooLarge {klen : Nat} {rest : Bytes} (nonempty : 0 < klen)
    (fits : klen < 2 ^ 32) (four : rest.length = 4) :
    getInt64 (bigEndian 4 klen ++ rest) ≤ 0 ∨ 2 ^ 32 ≤ getInt64 (bigEndian 4 klen ++ rest) := by
  have low := ofBigEndian_lt rest
  rw [getInt64, ofBigEndian_append, ofBigEndian_bigEndian_of_lt (by omega), four]
  rw [four] at low
  unfold int64
  split <;> omega

theorem not_looksValid {version createRev prevRev : Int} {deleted : Bool}
    (tooLarge : version ≤ 0 ∨ 2 ^ 32 ≤ version) (created : 0 ≤ createRev ∧ createRev < 2 ^ 31)
    (prev : 0 ≤ prevRev ∧ prevRev < 2 ^ 31) :
    versionRecordHeaderLooksValid version createRev prevRev deleted = false := by
  rcases tooLarge with low | high
  · rw [versionRecordHeaderLooksValid, if_pos low]
  · by_cases first : prevRev = 0
    · rw [versionRecordHeaderLooksValid, if_neg (by omega), if_pos first, decide_eq_false_iff_not]
      omega
    · rw [looksValid_eq (by omega) first ⟨by omega, by omega⟩ ⟨by omega, by omega⟩,
        decide_eq_false_iff_not]
      split <;> omega

/-- **Old records are never misread.** Whatever their key and value bytes look like,
the decoder takes the 29-byte header for what it is. -/
theorem unmarshalRecord_marshal (r : RecordV1) (nonempty : r.key ≠ [])
    (created : 0 ≤ r.createRevision ∧ r.createRevision < 2 ^ 31)
    (prev : 0 ≤ r.prevRevision ∧ r.prevRevision < 2 ^ 31) :
    unmarshalRecord r.marshal = .ok r.toRecord := by
  have length := r.length_marshal
  have createRevision : slice r.marshal 1 9 = putInt64 r.createRevision := by
    simp [marshal, slice]
  have prevRevision : slice r.marshal 9 17 = putInt64 r.prevRevision := by
    simp [marshal, slice]
  have lease : slice r.marshal 17 25 = putInt64 r.lease := by
    simp [marshal, slice, drop_append, drop_eq_nil_of_le]
  have klen : slice r.marshal 25 29 = bigEndian 4 r.key.length := by
    simp [marshal, slice, drop_append, drop_eq_nil_of_le]
  have key : slice r.marshal 29 (29 + r.key.length) = r.key := by
    simp [marshal, slice, drop_append, drop_eq_nil_of_le]
  have tail : r.marshal.drop 29 = r.key ++ r.value := by
    simp [marshal, drop_append, drop_eq_nil_of_le]
  have value : r.marshal.drop (29 + r.key.length) = r.value := by
    rw [← drop_drop, tail, drop_left]
  have size := ofBigEndian_bigEndian_of_lt (w := 4) r.keyFits
  have flags : r.marshal.headD 0 = r.flags := by simp [marshal]
  have long : ¬ r.marshal.length < entryHeaderSizeV1 := by
    rw [length, entryHeaderSizeV1]
    omega
  have createFits : IsInt64 r.createRevision := ⟨by omega, by omega⟩
  have prevFits : IsInt64 r.prevRevision := ⟨by omega, by omega⟩
  have unversioned : ¬ (entryHeaderSize ≤ r.marshal.length ∧
      versionRecordHeaderLooksValid (getInt64 (slice r.marshal 25 33)) r.createRevision
        r.prevRevision (r.flags &&& flagDelete ≠ 0) ∧
      entryHeaderSize + ofBigEndian (slice r.marshal 33 37) ≤ r.marshal.length) := by
    intro versioned
    obtain ⟨header, valid, -⟩ := versioned
    obtain ⟨rest, start, four⟩ := r.slice_version (by
      rw [entryHeaderSize, entryHeaderSizeV1] at header
      omega)
    have tooLarge := getInt64_tooLarge (length_pos_iff.mpr nonempty) r.keyFits four
    rw [start, not_looksValid tooLarge created prev] at valid
    exact Bool.false_ne_true valid
  unfold unmarshalRecord
  rw [if_neg long]
  simp only [createRevision, prevRevision, lease, flags, getInt64_putInt64 createFits,
    getInt64_putInt64 prevFits, getInt64_putInt64 r.leaseFits, if_neg unversioned]
  simp only [entryHeaderSizeV1, Nat.reduceSub, klen, size, key, value, length]
  rw [if_neg (by omega)]
  rfl

/-- The key spells out a plausible version and key length. -/
def disguised : RecordV1 where
  flags := 1
  key := [0, 0, 0, 1, 0, 0, 0, 0]
  value := [7]
  createRevision := 3
  prevRevision := 0
  lease := 0
  keyFits := by decide
  leaseFits := isInt64_zero

theorem unmarshalRecord_marshal_disguised :
    disguised.key ≠ [] ∧ unmarshalRecord disguised.marshal = .ok disguised.toRecord :=
  ⟨by decide, unmarshalRecord_marshal disguised (by decide) (by decide) (by decide)⟩

end RecordV1

end T4.Mvcc
