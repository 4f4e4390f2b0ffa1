import T4.Lib.Bytes

/-!
# Key space of the store

`internal/store/keys.go`: how revisions, user keys and metadata become Pebble
keys, and the codec of a log record.

Pebble iterates in byte order, so every range scan of the store is a statement
about that order. `logKey_le_iff`, `lt_logKey_iff` and their relatives reduce
the log scans to comparisons of revisions, and `mem_idxRange` reduces the index
scans to prefixes of user keys.
-/

namespace T4.Mvcc

open Lib Bytes List

/-! ## Keys -/

def prefixLog : UInt8 := 0x6c
def prefixIdx : UInt8 := 0x69
def prefixMeta : UInt8 := 0x6d

def metaCompactKey : Bytes := [prefixMeta, 0x63, 0x6f, 0x6d, 0x70, 0x61, 0x63, 0x74]
def metaCurrentRevKey : Bytes := [prefixMeta, 0x72, 0x65, 0x76]
def metaLastSeqKey : Bytes := [prefixMeta, 0x73, 0x65, 0x71]

def logLower : Bytes := [prefixLog, 0, 0, 0, 0, 0, 0, 0, 0]
def logUpper : Bytes := [prefixLog + 1]
def idxUpper : Bytes := [prefixIdx + 1]

def logKey (rev : Int) : Bytes := prefixLog :: putInt64 rev

/-- The key of operation `sub` of the transaction at `rev`. -/
def logKeyWithSub (rev : Int) (sub : Nat) : Bytes :=
  prefixLog :: putInt64 rev ++ bigEndian 2 sub

def decodeLogKey (k : Bytes) : Int := getInt64 (slice k 1 9)

def idxKey (key : Bytes) : Bytes := prefixIdx :: key

/-- The least byte string above every extension of `b`: the last byte that is not
`0xff` is incremented and what follows it is dropped. -/
def upperBound : Bytes → Option Bytes
  | [] => none
  | b :: rest =>
    match upperBound rest with
    | some ub => some (b :: ub)
    | none => if b + 1 ≠ 0 then some [b + 1] else none

def idxKeyUpper (pfx : Bytes) : Bytes :=
  match upperBound pfx with
  | none => idxUpper
  | some ub => prefixIdx :: ub

def encodeRev (rev : Int) : Bytes := putInt64 rev

def decodeRev (b : Bytes) : Int := getInt64 (slice b 0 8)

/-! ## Log records -/

def flagCreate : UInt8 := 1
def flagDelete : UInt8 := 2

/-- The in-memory form of a Pebble log entry. -/
structure Record where
  key : Bytes
  value : Bytes
  createRevision : Int
  prevRevision : Int
  version : Int
  lease : Int
  create : Bool
  delete : Bool
  deriving DecidableEq

def entryHeaderSizeV1 : Nat := 29
def entryHeaderSize : Nat := entryHeaderSizeV1 + 8

def marshalRecord (r : Record) : Bytes :=
  let flags := (if r.create then flagCreate else 0) ||| (if r.delete then flagDelete else 0)
  [flags] ++ putInt64 r.createRevision ++ putInt64 r.prevRevision ++ putInt64 r.lease ++
    putInt64 r.version ++ bigEndian 4 r.key.length ++ r.key ++ r.value

/-- Whether the header of a record is plausible for the format with a version
field; a record without that field is read as version 1 of the format. -/
def versionRecordHeaderLooksValid (version createRev prevRev : Int) (deleted : Bool) : Bool :=
  if version ≤ 0 then false
  else if prevRev = 0 then version = 1
  else
    let maxVersion := wrap (prevRev - createRev + 1)
    let maxVersion := if deleted then maxVersion else wrap (maxVersion + 1)
    0 < maxVersion ∧ version ≤ maxVersion

theorem looksValid_eq {version createRev prevRev : Int} {deleted : Bool} (positive : 0 < version)
    (updates : prevRev ≠ 0) (fits : IsInt64 (prevRev - createRev + 1))
    (fits' : IsInt64 (prevRev - createRev + 1 + 1)) :
    versionRecordHeaderLooksValid version createRev prevRev deleted =
      decide (version ≤ prevRev - createRev + 1 + if deleted then 0 else 1) := by
  unfold versionRecordHeaderLooksValid
  rw [if_neg (by omega), if_neg updates]
  simp only [wrap_of_isInt64 fits, wrap_of_isInt64 fits']
  cases deleted <;> simp only [Bool.false_eq_true, if_false, if_true, decide_eq_decide] <;> omega

inductive RecordError
  | tooShort (length : Nat)
  | keyTruncated
  deriving DecidableEq

def unmarshalRecord (b : Bytes) : Except RecordError Record :=
  if b.length < entryHeaderSizeV1 then .error (.tooShort b.length)
  else
    let flags := b.headD 0
    let create := flags &&& flagCreate ≠ 0
    let delete := flags &&& flagDelete ≠ 0
    let createRevision := getInt64 (slice b 1 9)
    let prevRevision := getInt64 (slice b 9 17)
    let lease := getInt64 (slice b 17 25)
    let version := getInt64 (slice b 25 33)
    let versioned := entryHeaderSize ≤ b.length ∧
      versionRecordHeaderLooksValid version createRevision prevRevision delete ∧
      entryHeaderSize + ofBigEndian (slice b 33 37) ≤ b.length
    let headerSize := if versioned then entryHeaderSize else entryHeaderSizeV1
    let klen := ofBigEndian (slice b (headerSize - 4) headerSize)
    if b.length < headerSize + klen then .error .keyTruncated
    else
      .ok {
        create, delete, createRevision, prevRevision, lease
        version := if versioned then version else 0
        key := slice b headerSize (headerSize + klen)
        value := b.drop (headerSize + klen) }

/-- A record that the codec keeps: machine-sized fields and a plausible header. -/
structure Record.WellFormed (r : Record) : Prop where
  key : r.key.length < 2 ^ 32
  lease : IsInt64 r.lease
  createRevision : IsInt64 r.createRevision
  prevRevision : IsInt64 r.prevRevision
  version : IsInt64 r.version
  header : versionRecordHeaderLooksValid r.version r.createRevision r.prevRevision r.delete

theorem unmarshalRecord_marshalRecord {r : Record} (wf : r.WellFormed) :
    unmarshalRecord (marshalRecord r) = .ok r := by
  have length : (marshalRecord r).length = 37 + r.key.length + r.value.length := by
    simp [marshalRecord]
    omega
  have createRevision : slice (marshalRecord r) 1 9 = putInt64 r.createRevision := by
    simp [marshalRecord, slice]
  have prevRevision : slice (marshalRecord r) 9 17 = putInt64 r.prevRevision := by
    simp [marshalRecord, slice]
  have lease : slice (marshalRecord r) 17 25 = putInt64 r.lease := by
    simp [marshalRecord, slice, drop_append, drop_eq_nil_of_le]
  have version : slice (marshalRecord r) 25 33 = putInt64 r.version := by
    simp [marshalRecord, slice, drop_append, drop_eq_nil_of_le]
  have klen : slice (marshalRecord r) 33 37 = bigEndian 4 r.key.length := by
    simp [marshalRecord, slice, drop_append, drop_eq_nil_of_le]
  have key : slice (marshalRecord r) 37 (37 + r.key.length) = r.key := by
    simp [marshalRecord, slice, drop_append, drop_eq_nil_of_le]
  have tail : (marshalRecord r).drop 37 = r.key ++ r.value := by
    simp [marshalRecord, drop_append, drop_eq_nil_of_le]
  have value : (marshalRecord r).drop (37 + r.key.length) = r.value := by
    rw [← drop_drop, tail, drop_left]
  have size := ofBigEndian_bigEndian_of_lt (w := 4) wf.key
  have create : decide ((marshalRecord r).headD 0 &&& flagCreate ≠ 0) = r.create := by
    cases hc : r.create <;> cases hd : r.delete <;> simp [marshalRecord, hc, hd] <;> decide
  have delete : decide ((marshalRecord r).headD 0 &&& flagDelete ≠ 0) = r.delete := by
    cases hc : r.create <;> cases hd : r.delete <;> simp [marshalRecord, hc, hd] <;> decide
  have long : ¬ (marshalRecord r).length < entryHeaderSizeV1 := by
    rw [length, entryHeaderSizeV1]
    omega
  have versioned : 37 ≤ 37 + r.key.length + r.value.length ∧
      versionRecordHeaderLooksValid r.version r.createRevision r.prevRevision r.delete ∧
      37 + r.key.length ≤ 37 + r.key.length + r.value.length :=
    ⟨by omega, wf.header, by omega⟩
  unfold unmarshalRecord
  rw [if_neg long]
  simp only [createRevision, prevRevision, lease, version, klen, create, delete, size, length,
    entryHeaderSize, entryHeaderSizeV1, Nat.reduceAdd, getInt64_putInt64 wf.createRevision,
    getInt64_putInt64 wf.prevRevision, getInt64_putInt64 wf.lease, getInt64_putInt64 wf.version,
    if_pos versioned, Nat.reduceSub, key, value]
  rw [if_neg (by omega)]

/-! ## The order of log keys -/

/-- The log key of a version: `sub` is absent for an entry with a single key and
is the position in the transaction otherwise. -/
def slotKey (rev : Int) : Option Nat → Bytes
  | none => logKey rev
  | some sub => logKeyWithSub rev sub

def slotTail : Option Nat → Bytes
  | none => []
  | some sub => bigEndian 2 sub

theorem slotKey_eq (rev : Int) (sub : Option Nat) :
    slotKey rev sub = prefixLog :: (bigEndian 8 (uint64 rev) ++ slotTail sub) := by
  cases sub with
  | none => simp [slotKey, slotTail, logKey, putInt64]
  | some sub => rfl

theorem slotKey_lt_slotKey (rev rev' : Int) (sub sub' : Option Nat) :
    slotKey rev sub < slotKey rev' sub' ↔
      uint64 rev < uint64 rev' ∨ uint64 rev = uint64 rev' ∧ slotTail sub < slotTail sub' := by
  rw [slotKey_eq, slotKey_eq, cons_lt_cons_iff,
    bigEndian_append_lt_iff (uint64_lt rev) (uint64_lt rev')]
  simp

theorem logKey_le_slotKey (a rev : Int) (sub : Option Nat) :
    logKey a ≤ slotKey rev sub ↔ uint64 a ≤ uint64 rev := by
  have flipped := slotKey_lt_slotKey rev a sub none
  rw [← not_lt, ← not_lt]
  change ¬ slotKey rev sub < slotKey a none ↔ _
  rw [flipped]
  simp [slotTail]

theorem slotKey_lt_logKey (rev b : Int) (sub : Option Nat) :
    slotKey rev sub < logKey b ↔ uint64 rev < uint64 b := by
  change slotKey rev sub < slotKey b none ↔ _
  rw [slotKey_lt_slotKey]
  simp [slotTail]

theorem logLower_eq : logLower = logKey 0 := by decide

variable {rev rev' : Int}

theorem decodeLogKey_slotKey (range : IsInt64 rev) (sub : Option Nat) :
    decodeLogKey (slotKey rev sub) = rev := by
  have revision : slice (slotKey rev sub) 1 9 = putInt64 rev := by
    rw [slotKey_eq]
    simp [slice, putInt64]
  rw [decodeLogKey, revision, getInt64_putInt64 range]

theorem slotKey_injective {sub sub' : Option Nat} (range : IsInt64 rev) (range' : IsInt64 rev')
    (few : ∀ i ∈ sub, i < 2 ^ 16) (few' : ∀ i ∈ sub', i < 2 ^ 16)
    (same : slotKey rev sub = slotKey rev' sub') : rev = rev' ∧ sub = sub' := by
  have sameRev : rev = rev' := by
    rw [← decodeLogKey_slotKey range sub, same, decodeLogKey_slotKey range' sub']
  subst sameRev
  rw [slotKey_eq, slotKey_eq, cons_inj_right, append_cancel_left_eq] at same
  refine ⟨rfl, ?_⟩
  cases sub with
  | none =>
    cases sub' with
    | none => rfl
    | some j =>
      have lengths := congrArg List.length same
      simp [slotTail] at lengths
  | some i =>
    cases sub' with
    | none =>
      have lengths := congrArg List.length same
      simp [slotTail] at lengths
    | some j =>
      have equal := bigEndian_injective (few i rfl) (few' j rfl) same
      rw [equal]

theorem slotTail_zero_le (sub : Option Nat) : slotTail (some 0) ≤ slotTail sub ↔ sub ≠ none := by
  rw [← not_lt]
  cases sub with
  | none => simp [slotTail, bigEndian]
  | some i =>
    simp only [slotTail, bigEndian, cons_lt_cons_iff]
    simp

/-- Between the first sub-key of a revision and the next revision lie the sub-keys of
that revision. -/
theorem mem_subRange (pos : 0 ≤ rev) (fits : rev < 2 ^ 63) (pos' : 0 ≤ rev') (fits' : rev' < 2 ^ 63)
    (sub : Option Nat) :
    logKeyWithSub rev 0 ≤ slotKey rev' sub ∧ slotKey rev' sub < logKey (rev + 1) ↔
      rev' = rev ∧ sub ≠ none := by
  have word := uint64_of_nonneg pos (by omega : rev < 2 ^ 64)
  have word' := uint64_of_nonneg pos' (by omega : rev' < 2 ^ 64)
  have next := uint64_of_nonneg (by omega : 0 ≤ rev + 1) (by omega : rev + 1 < 2 ^ 64)
  have first : logKeyWithSub rev 0 = slotKey rev (some 0) := rfl
  rw [first, ← not_lt, slotKey_lt_slotKey, slotKey_lt_logKey, ← slotTail_zero_le, ← not_lt]
  constructor
  · intro between
    obtain ⟨low, high⟩ := between
    have same : rev' = rev := by omega
    subst same
    exact ⟨rfl, fun less => low (Or.inr ⟨rfl, less⟩)⟩
  · intro here
    obtain ⟨rfl, later⟩ := here
    exact ⟨fun less => less.elim (by omega) (fun both => later both.2), by omega⟩

theorem decodeRev_encodeRev (range : IsInt64 rev) : decodeRev (encodeRev rev) = rev := by
  have whole : slice (encodeRev rev) 0 8 = putInt64 rev := by
    simp [slice, encodeRev]
  rw [decodeRev, whole, getInt64_putInt64 range]

theorem encodeRev_injective (range : IsInt64 rev) (range' : IsInt64 rev')
    (same : encodeRev rev = encodeRev rev') : rev = rev' := by
  rw [← decodeRev_encodeRev range, same, decodeRev_encodeRev range']

/-! ## The three key spaces are apart -/

theorem idxKey_lt_logKey (key : Bytes) (rev : Int) : idxKey key < logKey rev := by
  rw [idxKey, logKey, cons_lt_cons_iff]
  exact Or.inl (by decide)

theorem idxKey_lt_logKeyWithSub (key : Bytes) (rev : Int) (sub : Nat) :
    idxKey key < logKeyWithSub rev sub := by
  rw [idxKey, logKeyWithSub, cons_append, cons_lt_cons_iff]
  exact Or.inl (by decide)

theorem idxKeyUpper_lt_slotKey (pfx : Bytes) (rev : Int) (sub : Option Nat) :
    idxKeyUpper pfx < slotKey rev sub := by
  rw [slotKey_eq, idxKeyUpper]
  cases upperBound pfx with
  | none =>
    rw [idxUpper, cons_lt_cons_iff]
    exact Or.inl (by decide)
  | some ub =>
    rw [cons_lt_cons_iff]
    exact Or.inl (by decide)

def metaKeys : List Bytes := [metaCompactKey, metaCurrentRevKey, metaLastSeqKey]

theorem logKey_lt_metaKey {k : Bytes} (isMeta : k ∈ metaKeys) (rev : Int) : logKey rev < k := by
  simp only [metaKeys, mem_cons, not_mem_nil, or_false] at isMeta
  rcases isMeta with rfl | rfl | rfl <;>
    exact cons_lt_cons_iff.mpr (Or.inl (by decide))

theorem idxKeyUpper_lt_metaKey {k : Bytes} (isMeta : k ∈ metaKeys) (pfx : Bytes) :
    idxKeyUpper pfx < k :=
  (idxKeyUpper_lt_slotKey pfx 0 none).trans (logKey_lt_metaKey isMeta 0)

theorem slotKey_ne_idxKey (rev : Int) (sub : Option Nat) (key : Bytes) :
    slotKey rev sub ≠ idxKey key := by
  rw [slotKey_eq, idxKey]
  intro same
  exact absurd (List.cons.inj same).1 (by decide)

theorem slotKey_not_mem_metaKeys (rev : Int) (sub : Option Nat) :
    slotKey rev sub ∉ metaKeys := by
  rw [slotKey_eq]
  simp [metaKeys, metaCompactKey, metaCurrentRevKey, metaLastSeqKey, prefixLog, prefixMeta]

theorem idxKey_not_mem_metaKeys (key : Bytes) : idxKey key ∉ metaKeys := by
  simp [metaKeys, metaCompactKey, metaCurrentRevKey, metaLastSeqKey, idxKey, prefixIdx,
    prefixMeta]

theorem idxKey_injective {key key' : Bytes} (same : idxKey key = idxKey key') : key = key' :=
  (List.cons.inj same).2

/-! ## Index ranges -/

/-- A byte string extends `pfx` exactly if it is at least `pfx` and below the upper
bound, when there is one. -/
theorem isPrefix_iff_between (pfx key : Bytes) :
    pfx <+: key ↔ pfx ≤ key ∧ ∀ ub, upperBound pfx = some ub → key < ub := by
  induction pfx generalizing key with
  | nil => simp [upperBound, ← not_lt]
  | cons b rest ih =>
    cases key with
    | nil => simp [← not_lt]
    | cons c key =>
      have lower : b :: rest ≤ c :: key ↔ b < c ∨ b = c ∧ rest ≤ key := by
        rw [← not_lt, cons_lt_cons_iff, ← not_lt]
        rcases lt_trichotomy b c with less | same | more
        · simp [less, less.not_gt, less.ne']
        · simp [same]
        · simp [more, more.not_gt, more.ne']
      rw [cons_prefix_cons, ih, lower, upperBound]
      cases bound : upperBound rest with
      | some ub =>
        have upper : c :: key < b :: ub ↔ c < b ∨ c = b ∧ key < ub := cons_lt_cons_iff
        simp only [Option.some.injEq, forall_eq', upper]
        rcases lt_trichotomy b c with less | same | more
        · simp [less.ne, less.ne', less.not_gt]
        · simp [same]
        · simp [more.ne', more.not_gt]
      | none =>
        have full : (b + 1 = 0) ↔ b = 255 := by
          constructor <;> intro same
          · have := congrArg UInt8.toNat same
            rw [UInt8.toNat_add] at this
            apply UInt8.toNat_inj.mp
            have small := b.toNat_lt
            simp at this ⊢
            omega
          · subst same
            rfl
        have above : c < b + 1 → ¬ b < c := by
          intro below less
          rw [UInt8.lt_iff_toNat_lt, UInt8.toNat_add] at below
          rw [UInt8.lt_iff_toNat_lt] at less
          have small := b.toNat_lt
          simp at below
          omega
        by_cases last : b + 1 = 0
        · have top : ¬ b < c := by
            rw [full.mp last, UInt8.lt_iff_toNat_lt]
            have := c.toNat_lt
            simp
            omega
          simp [last, top]
        · have upper : c :: key < [b + 1] ↔ c < b + 1 := by
            rw [cons_lt_cons_iff]
            simp
          have next : b < b + 1 := by
            rw [UInt8.lt_iff_toNat_lt, UInt8.toNat_add]
            have small := b.toNat_lt
            have notFull : b.toNat ≠ 255 := by
              intro same
              exact last (full.mpr (UInt8.toNat_inj.mp (by simpa using same)))
            simp
            omega
          simp only [ne_eq, last, not_false_eq_true, if_true, Option.some.injEq, forall_eq', upper]
          constructor
          · intro within
            exact ⟨Or.inr ⟨within.1, within.2.1⟩, within.1 ▸ next⟩
          · intro within
            rcases within.1 with less | same
            · exact absurd less (above within.2)
            · exact ⟨same.1, same.2, by simp⟩

/-- An index key is met by the scan for `pfx` from `lower` on exactly if the user
key extends `pfx` and is at least `lower`. -/
theorem mem_idxRange (pfx lower key : Bytes) (atLeast : pfx ≤ lower) :
    idxKey lower ≤ idxKey key ∧ idxKey key < idxKeyUpper pfx ↔ lower ≤ key ∧ pfx <+: key := by
  have low : idxKey lower ≤ idxKey key ↔ lower ≤ key := by
    rw [← not_lt, ← not_lt, idxKey, idxKey, cons_lt_cons_iff]
    simp
  have high : idxKey key < idxKeyUpper pfx ↔ ∀ ub, upperBound pfx = some ub → key < ub := by
    rw [idxKeyUpper]
    cases upperBound pfx with
    | none =>
      have below : idxKey key < idxUpper := cons_lt_cons_iff.mpr (Or.inl (by decide))
      simp [below]
    | some ub =>
      rw [idxKey, cons_lt_cons_iff]
      simp
  rw [low, high, isPrefix_iff_between]
  constructor
  · intro within
    exact ⟨within.1, atLeast.trans within.1, within.2⟩
  · intro within
    exact ⟨within.1, within.2.2⟩

end T4.Mvcc
