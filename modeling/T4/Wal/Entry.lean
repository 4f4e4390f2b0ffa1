import T4.Lib.Bytes

/-!
# Write-ahead log entries

`internal/wal/entry.go`: the entry type of the write-ahead log, the payload of a
transaction entry, and the framed wire format.

Keys and values are byte strings; a nil value and an empty value are the same
here, as they are for every reader of an entry. The `int64` fields are integers:
the encoders reduce them modulo `2 ^ 64` and the decoders sign-extend, so a field
survives the codec exactly when it is in the range of its type
(`TxnSubOp.WellTyped`, `Entry.WellTyped`).
-/

namespace T4.Wal

open Lib Bytes List

/-! ## Operations and entries -/

/-- The type of an entry; the wire format carries one byte of it. -/
structure Op where
  code : UInt8
  deriving DecidableEq

namespace Op

def create : Op := ⟨1⟩
def update : Op := ⟨2⟩
def delete : Op := ⟨3⟩
def compact : Op := ⟨4⟩
/-- A multi-key transaction: the key is empty, the operations are in the value. -/
def txn : Op := ⟨5⟩

end Op

/-- One record of the write-ahead log. -/
structure Entry where
  id : Int := 0
  revision : Int := 0
  term : Nat := 0
  op : Op := ⟨0⟩
  key : Bytes := []
  value : Bytes := []
  lease : Int := 0
  createRevision : Int := 0
  prevRevision : Int := 0
  version : Int := 0
  deriving DecidableEq

/-- The identity used for log order and acknowledgements. -/
def Entry.sequence (e : Entry) : Int := if e.id ≠ 0 then e.id else e.revision

/-- One operation of a transaction entry. -/
structure TxnSubOp where
  op : Op
  key : Bytes
  value : Bytes := []
  lease : Int := 0
  createRevision : Int := 0
  prevRevision : Int := 0
  version : Int := 0
  deriving DecidableEq

/-- The fields are values of their machine types, and the two lengths fit the
four-byte fields that carry them. -/
structure TxnSubOp.WellTyped (o : TxnSubOp) : Prop where
  key : o.key.length < 2 ^ 32
  value : o.value.length < 2 ^ 32
  lease : IsInt64 o.lease
  createRevision : IsInt64 o.createRevision
  prevRevision : IsInt64 o.prevRevision
  version : IsInt64 o.version

/-- The fields are values of their machine types, and the lengths fit the
four-byte fields that carry them. -/
@[mk_iff]
structure Entry.WellTyped (e : Entry) : Prop where
  id : IsInt64 e.id
  revision : IsInt64 e.revision
  term : e.term < 2 ^ 64
  payload : 65 + e.key.length + e.value.length < 2 ^ 32
  lease : IsInt64 e.lease
  createRevision : IsInt64 e.createRevision
  prevRevision : IsInt64 e.prevRevision
  version : IsInt64 e.version

instance (e : Entry) : Decidable e.WellTyped := decidable_of_iff' _ (Entry.wellTyped_iff e)

inductive DecodeError
  | txnTooShort (length : Nat)
  | txnHeaderTruncated (i : Nat)
  | txnPayloadTruncated (i need have_ : Nat)
  | entryTooShort (length : Nat)
  | v2EntryTooShort (length : Nat)
  | entryTruncated (need have_ : Nat)
  | crcMismatch (want got : Nat)
  deriving DecidableEq

/-! ## The payload of a transaction -/

def txnOpsVersionedFlag : Nat := 2 ^ 31
def txnSubOpFixedSizeV1 : Nat := 33
def txnSubOpFixedSize : Nat := txnSubOpFixedSizeV1 + 8

/-- The encoding of one operation inside a transaction payload. -/
def encodeTxnOp (o : TxnSubOp) : Bytes :=
  [o.op.code] ++ putInt64 o.lease ++ putInt64 o.createRevision ++ putInt64 o.prevRevision ++
    putInt64 o.version ++ bigEndian 4 o.key.length ++ bigEndian 4 o.value.length ++
    o.key ++ o.value

def encodeTxnOps (ops : List TxnSubOp) : Bytes :=
  bigEndian 4 (txnOpsVersionedFlag ||| ops.length) ++ ops.flatMap encodeTxnOp

/-- The loop of `DecodeTxnOps`: `count` operations remain, `i` are decoded and `b`
is what follows them. -/
def decodeTxnLoop (versioned : Bool) : Nat → Nat → Bytes → Except DecodeError (List TxnSubOp)
  | 0, _, _ => .ok []
  | count + 1, i, b =>
    let fixedSize := if versioned then txnSubOpFixedSize else txnSubOpFixedSizeV1
    if b.length < fixedSize then .error (.txnHeaderTruncated i)
    else
      let keyLenOffset := if versioned then 33 else 25
      let keyLen := ofBigEndian (slice b keyLenOffset (keyLenOffset + 4))
      let valLen := ofBigEndian (slice b (keyLenOffset + 4) (keyLenOffset + 8))
      let tail := b.drop fixedSize
      if tail.length < keyLen + valLen then
        .error (.txnPayloadTruncated i (keyLen + valLen) tail.length)
      else
        let o : TxnSubOp := {
          op := ⟨b.headD 0⟩
          lease := getInt64 (slice b 1 9)
          createRevision := getInt64 (slice b 9 17)
          prevRevision := getInt64 (slice b 17 25)
          version := if versioned then getInt64 (slice b 25 33) else 0
          key := tail.take keyLen
          value := (tail.drop keyLen).take valLen }
        match decodeTxnLoop versioned count (i + 1) (tail.drop (keyLen + valLen)) with
        | .error err => .error err
        | .ok ops => .ok (o :: ops)

def decodeTxnOps (b : Bytes) : Except DecodeError (List TxnSubOp) :=
  if b.length < 4 then .error (.txnTooShort b.length)
  else
    let rawCount := ofBigEndian (slice b 0 4)
    let versioned := rawCount.testBit 31
    let count := rawCount % 2 ^ 31
    decodeTxnLoop versioned count 0 (b.drop 4)

/-- One operation in the current layout, or in the one before versions were recorded. -/
def encodeSubOp (versioned : Bool) (o : TxnSubOp) : Bytes :=
  [o.op.code] ++ putInt64 o.lease ++ putInt64 o.createRevision ++ putInt64 o.prevRevision ++
    (if versioned then putInt64 o.version else []) ++ bigEndian 4 o.key.length ++
    bigEndian 4 o.value.length ++ o.key ++ o.value

/-- What of an operation a layout carries. -/
def TxnSubOp.carried (versioned : Bool) (o : TxnSubOp) : TxnSubOp :=
  { o with version := if versioned then o.version else 0 }

def fixedSizeOf (versioned : Bool) : Nat :=
  if versioned then txnSubOpFixedSize else txnSubOpFixedSizeV1

theorem encodeSubOp_true (o : TxnSubOp) : encodeSubOp true o = encodeTxnOp o := rfl

theorem length_encodeSubOp (versioned : Bool) (o : TxnSubOp) :
    (encodeSubOp versioned o).length = fixedSizeOf versioned + (o.key.length + o.value.length) := by
  cases versioned <;>
    simp [encodeSubOp, fixedSizeOf, txnSubOpFixedSize, txnSubOpFixedSizeV1] <;> omega

/-- The offset of the key length in an operation of a layout. -/
def keyLenOffsetOf (versioned : Bool) : Nat := if versioned then 33 else 25

section Layout

variable (versioned : Bool) (o : TxnSubOp) (rest : Bytes)

theorem keyLen_encodeSubOp :
    slice (encodeSubOp versioned o ++ rest) (keyLenOffsetOf versioned)
      (keyLenOffsetOf versioned + 4) = bigEndian 4 o.key.length := by
  cases versioned <;>
    simp [encodeSubOp, keyLenOffsetOf, slice, drop_append, drop_eq_nil_of_le]

theorem valLen_encodeSubOp :
    slice (encodeSubOp versioned o ++ rest) (keyLenOffsetOf versioned + 4)
      (keyLenOffsetOf versioned + 8) = bigEndian 4 o.value.length := by
  cases versioned <;>
    simp [encodeSubOp, keyLenOffsetOf, slice, drop_append, drop_eq_nil_of_le]

theorem drop_encodeSubOp :
    (encodeSubOp versioned o ++ rest).drop (fixedSizeOf versioned) =
      o.key ++ (o.value ++ rest) := by
  cases versioned <;>
    simp [encodeSubOp, fixedSizeOf, drop_append, drop_eq_nil_of_le, txnSubOpFixedSize,
      txnSubOpFixedSizeV1]

end Layout

/-- The decoder reads back what the encoder wrote for one operation and goes on behind
it. -/
theorem decodeTxnLoop_encodeSubOp (versioned : Bool) {o : TxnSubOp} (typed : o.WellTyped)
    (count i : Nat) (rest : Bytes) :
    decodeTxnLoop versioned (count + 1) i (encodeSubOp versioned o ++ rest) =
      (decodeTxnLoop versioned count (i + 1) rest).map (o.carried versioned :: ·) := by
  have keyLen := keyLen_encodeSubOp versioned o rest
  have valLen := valLen_encodeSubOp versioned o rest
  have tail := drop_encodeSubOp versioned o rest
  have lease : slice (encodeSubOp versioned o ++ rest) 1 9 = putInt64 o.lease := by
    simp [encodeSubOp, slice]
  have createRevision :
      slice (encodeSubOp versioned o ++ rest) 9 17 = putInt64 o.createRevision := by
    simp [encodeSubOp, slice]
  have prevRevision : slice (encodeSubOp versioned o ++ rest) 17 25 = putInt64 o.prevRevision := by
    simp [encodeSubOp, slice, drop_append, drop_eq_nil_of_le]
  have version : (if versioned then getInt64 (slice (encodeSubOp versioned o ++ rest) 25 33)
      else 0) = (o.carried versioned).version := by
    cases versioned with
    | false => simp [TxnSubOp.carried]
    | true =>
      have field : slice (encodeSubOp true o ++ rest) 25 33 = putInt64 o.version := by
        simp [encodeSubOp, slice, drop_append, drop_eq_nil_of_le]
      simp [field, getInt64_putInt64 typed.version, TxnSubOp.carried]
  have op : (encodeSubOp versioned o ++ rest).headD 0 = o.op.code := by
    simp [encodeSubOp]
  have long : ¬ (encodeSubOp versioned o ++ rest).length < fixedSizeOf versioned := by
    rw [length_append, length_encodeSubOp]
    omega
  have whole : ¬ (o.key ++ (o.value ++ rest)).length < o.key.length + o.value.length := by
    rw [length_append, length_append]
    omega
  have behind : (o.key ++ (o.value ++ rest)).drop (o.key.length + o.value.length) = rest := by
    rw [← append_assoc, drop_left' (by simp)]
  have keySize := ofBigEndian_bigEndian_of_lt (w := 4) typed.key
  have valueSize := ofBigEndian_bigEndian_of_lt (w := 4) typed.value
  unfold fixedSizeOf at tail long
  unfold keyLenOffsetOf at keyLen valLen
  rw [decodeTxnLoop]
  simp only [keyLen, valLen, tail, lease, createRevision, prevRevision, version, op, keySize,
    valueSize, if_neg long, if_neg whole, behind, getInt64_putInt64 typed.lease,
    getInt64_putInt64 typed.createRevision, getInt64_putInt64 typed.prevRevision,
    take_left', drop_left']
  cases decodeTxnLoop versioned count (i + 1) rest with
  | error err => rfl
  | ok ops => rfl

variable {ops : List TxnSubOp} {e : Entry}

theorem decodeTxnLoop_flatMap (versioned : Bool) (typed : ∀ o ∈ ops, o.WellTyped) (i : Nat)
    (rest : Bytes) :
    decodeTxnLoop versioned ops.length i (ops.flatMap (encodeSubOp versioned) ++ rest) =
      .ok (ops.map (TxnSubOp.carried versioned)) := by
  induction ops generalizing i with
  | nil => rfl
  | cons o ops ih =>
    rw [length_cons, flatMap_cons, append_assoc,
      decodeTxnLoop_encodeSubOp versioned (typed o (by simp)),
      ih (fun other mem => typed other (mem_cons_of_mem o mem))]
    rfl

def encodeTxnOpsIn (versioned : Bool) (ops : List TxnSubOp) : Bytes :=
  bigEndian 4 ((if versioned then 2 ^ 31 else 0) + ops.length) ++
    ops.flatMap (encodeSubOp versioned)

theorem encodeTxnOps_eq (few : ops.length < 2 ^ 31) :
    encodeTxnOps ops = encodeTxnOpsIn true ops := by
  have flagged : txnOpsVersionedFlag ||| ops.length = 2 ^ 31 + ops.length := by
    simpa [txnOpsVersionedFlag] using (Nat.two_pow_add_eq_or_of_lt few 1).symm
  rw [encodeTxnOps, encodeTxnOpsIn, flagged, if_pos rfl, funext encodeSubOp_true]

section Layouts

variable (versioned : Bool) {ops : List TxnSubOp}

theorem decodeTxnOps_count (few : ops.length < 2 ^ 31) (body : Bytes) :
    decodeTxnOps (bigEndian 4 ((if versioned then 2 ^ 31 else 0) + ops.length) ++ body) =
      decodeTxnLoop versioned ops.length 0 body := by
  have bound : (if versioned then 2 ^ 31 else 0) + ops.length < 256 ^ 4 := by
    split <;> omega
  have header (x : Nat) : slice (bigEndian 4 x ++ body) 0 4 = bigEndian 4 x := by
    simp [slice]
  have long (x : Nat) : ¬ (bigEndian 4 x ++ body).length < 4 := by simp
  have behind (x : Nat) : (bigEndian 4 x ++ body).drop 4 = body := by simp
  have flag : ((if versioned then 2 ^ 31 else 0) + ops.length).testBit 31 = versioned := by
    cases versioned with
    | false => simpa using Nat.testBit_lt_two_pow few
    | true =>
      rw [if_pos rfl, Nat.testBit_two_pow_add_eq, Nat.testBit_lt_two_pow few]
      rfl
  have count : ((if versioned then 2 ^ 31 else 0) + ops.length) % 2 ^ 31 = ops.length := by
    split <;> omega
  rw [decodeTxnOps, if_neg (long _)]
  simp only [header, behind, ofBigEndian_bigEndian_of_lt bound, flag, count]

theorem decodeTxnOps_encodeTxnOpsIn (typed : ∀ o ∈ ops, o.WellTyped) (few : ops.length < 2 ^ 31) :
    decodeTxnOps (encodeTxnOpsIn versioned ops) = .ok (ops.map (TxnSubOp.carried versioned)) := by
  rw [encodeTxnOpsIn, decodeTxnOps_count versioned few,
    ← append_nil (ops.flatMap _), decodeTxnLoop_flatMap versioned typed]

end Layouts

theorem decodeTxnOps_encodeTxnOps (typed : ∀ o ∈ ops, o.WellTyped) (few : ops.length < 2 ^ 31) :
    decodeTxnOps (encodeTxnOps ops) = .ok ops := by
  rw [encodeTxnOps_eq few, decodeTxnOps_encodeTxnOpsIn true typed few]
  exact congrArg Except.ok (map_id' ops)

/-! ## The wire format of an entry -/

def entryFixedSizeV1 : Nat := 49
def entryFixedSize : Nat := entryFixedSizeV1 + 8
def entryFixedSizeV3 : Nat := entryFixedSize + 8

/-- The segment format written by this version. -/
def walFormatVersion : Nat := 2

def marshalEntry (e : Entry) : Bytes :=
  [e.op.code] ++ putInt64 e.revision ++ bigEndian 8 e.term ++ putInt64 e.lease ++
    putInt64 e.createRevision ++ putInt64 e.prevRevision ++ putInt64 e.sequence ++
    putInt64 e.version ++ bigEndian 4 e.key.length ++ bigEndian 4 e.value.length ++
    e.key ++ e.value

def unmarshalEntryVersion (b : Bytes) (version : Nat) : Except DecodeError Entry :=
  if b.length < entryFixedSizeV1 then .error (.entryTooShort b.length)
  else if version ≥ 2 ∧ b.length < entryFixedSizeV3 then .error (.v2EntryTooShort b.length)
  else
    let fixedSize := if version ≥ 2 then entryFixedSizeV3 else entryFixedSizeV1
    let keyLen := ofBigEndian (slice b (fixedSize - 8) (fixedSize - 4))
    let valLen := ofBigEndian (slice b (fixedSize - 4) fixedSize)
    let tail := b.drop fixedSize
    if tail.length < keyLen + valLen then
      .error (.entryTruncated (keyLen + valLen) tail.length)
    else
      .ok {
        op := ⟨b.headD 0⟩
        revision := getInt64 (slice b 1 9)
        term := ofBigEndian (slice b 9 17)
        lease := getInt64 (slice b 17 25)
        createRevision := getInt64 (slice b 25 33)
        prevRevision := getInt64 (slice b 33 41)
        id := if version ≥ 2 then getInt64 (slice b 41 49) else 0
        version := if version ≥ 2 then getInt64 (slice b 49 57) else 0
        key := tail.take keyLen
        value := (tail.drop keyLen).take valLen }

/-- One bit of the reflected Castagnoli polynomial division. -/
def crcShift (crc : UInt32) : UInt32 :=
  if crc &&& 1 = 1 then (crc >>> 1) ^^^ 0x82f63b78 else crc >>> 1

/-- `crc32.Checksum` with the Castagnoli table. -/
def checksum (payload : Bytes) : Nat :=
  let crc := payload.foldl (fun crc b => crcShift^[8] (crc ^^^ b.toUInt32)) 0xffffffff
  (crc ^^^ 0xffffffff).toNat

/-- The frame that `AppendEntry` writes: length, checksum, payload. -/
def appendEntry (e : Entry) : Bytes :=
  let payload := marshalEntry e
  bigEndian 4 payload.length ++ bigEndian 4 (checksum payload) ++ payload

/-- What reading one frame from a stream yields. -/
inductive ReadResult
  | entry (e : Entry) (rest : Bytes)
  | eof
  | error (err : DecodeError)
  deriving DecidableEq

/-- Read and decode the next frame. A stream that ends inside a frame, as after a
crash during an append, is a clean end of file. -/
def readEntryVersion (r : Bytes) (version : Nat) : ReadResult :=
  if r.length < 8 then .eof
  else
    let payloadLen := ofBigEndian (slice r 0 4)
    let wantCRC := ofBigEndian (slice r 4 8)
    let tail := r.drop 8
    if tail.length < payloadLen then .eof
    else
      let payload := tail.take payloadLen
      if checksum payload ≠ wantCRC then .error (.crcMismatch wantCRC (checksum payload))
      else
        match unmarshalEntryVersion payload version with
        | .error err => .error err
        | .ok e => .entry e (tail.drop payloadLen)

theorem length_marshalEntry (e : Entry) :
    (marshalEntry e).length = 65 + e.key.length + e.value.length := by
  simp [marshalEntry]
  omega

/-- The entry that a reader of the current format gets back: the identity is
written out, whatever field it came from. -/
def Entry.canonical (e : Entry) : Entry := { e with id := e.sequence }

theorem Entry.sequence_of_id {seq : Int} (nonneg : 0 ≤ seq) (isId : e.id = seq + 1) :
    e.sequence = seq + 1 := by
  rw [Entry.sequence, isId, if_pos (by omega)]

theorem Entry.canonical_of_id (identified : e.id ≠ 0) : e.canonical = e := by
  rw [Entry.canonical, Entry.sequence, if_pos identified]

theorem Entry.WellTyped.sequence (typed : e.WellTyped) : IsInt64 e.sequence := by
  unfold Entry.sequence
  split
  · exact typed.id
  · exact typed.revision

theorem unmarshalEntryVersion_marshalEntry (typed : e.WellTyped) :
    unmarshalEntryVersion (marshalEntry e) walFormatVersion = .ok e.canonical := by
  have sizes := typed.payload
  have length := length_marshalEntry e
  have long1 : ¬ (marshalEntry e).length < entryFixedSizeV1 := by
    rw [length, entryFixedSizeV1]
    omega
  have long3 : ¬ (marshalEntry e).length < entryFixedSizeV3 := by
    rw [length, entryFixedSizeV3, entryFixedSize, entryFixedSizeV1]
    omega
  have keyLen : slice (marshalEntry e) 57 61 = bigEndian 4 e.key.length := by
    simp [marshalEntry, slice, drop_append, drop_eq_nil_of_le]
  have valLen : slice (marshalEntry e) 61 65 = bigEndian 4 e.value.length := by
    simp [marshalEntry, slice, drop_append, drop_eq_nil_of_le]
  have tail : (marshalEntry e).drop 65 = e.key ++ e.value := by
    simp [marshalEntry, drop_append, drop_eq_nil_of_le]
  have revision : slice (marshalEntry e) 1 9 = putInt64 e.revision := by
    simp [marshalEntry, slice]
  have term : slice (marshalEntry e) 9 17 = bigEndian 8 e.term := by
    simp [marshalEntry, slice]
  have lease : slice (marshalEntry e) 17 25 = putInt64 e.lease := by
    simp [marshalEntry, slice, drop_append, drop_eq_nil_of_le]
  have createRevision : slice (marshalEntry e) 25 33 = putInt64 e.createRevision := by
    simp [marshalEntry, slice, drop_append, drop_eq_nil_of_le]
  have prevRevision : slice (marshalEntry e) 33 41 = putInt64 e.prevRevision := by
    simp [marshalEntry, slice, drop_append, drop_eq_nil_of_le]
  have id : slice (marshalEntry e) 41 49 = putInt64 e.sequence := by
    simp [marshalEntry, slice, drop_append, drop_eq_nil_of_le]
  have version : slice (marshalEntry e) 49 57 = putInt64 e.version := by
    simp [marshalEntry, slice, drop_append, drop_eq_nil_of_le]
  have op : (marshalEntry e).headD 0 = e.op.code := rfl
  have keySize : ofBigEndian (bigEndian 4 e.key.length) = e.key.length :=
    ofBigEndian_bigEndian_of_lt (by omega)
  have valueSize : ofBigEndian (bigEndian 4 e.value.length) = e.value.length :=
    ofBigEndian_bigEndian_of_lt (by omega)
  have whole : ¬ (e.key ++ e.value).length < e.key.length + e.value.length := by
    rw [length_append]
    omega
  have termSize := ofBigEndian_bigEndian_of_lt (w := 8) typed.term
  unfold unmarshalEntryVersion
  rw [if_neg long1, if_neg (fun short => long3 short.2)]
  simp only [walFormatVersion, ge_iff_le, le_refl, if_true, entryFixedSizeV3, entryFixedSize,
    entryFixedSizeV1, Nat.reduceAdd, Nat.reduceSub, keyLen, valLen, tail, revision, term, lease,
    createRevision, prevRevision, id, version, op, keySize, valueSize, if_neg whole, termSize,
    getInt64_putInt64 typed.revision, getInt64_putInt64 typed.lease,
    getInt64_putInt64 typed.createRevision, getInt64_putInt64 typed.prevRevision,
    getInt64_putInt64 typed.sequence, getInt64_putInt64 typed.version, take_left',
    drop_left', take_length, Entry.canonical]

theorem checksum_lt (payload : Bytes) : checksum payload < 256 ^ 4 :=
  UInt32.toNat_lt _

theorem length_appendEntry (e : Entry) :
    (appendEntry e).length = 8 + (marshalEntry e).length := by
  simp [appendEntry]
  omega

theorem readEntryVersion_frame {hdr payload : Bytes} {version : Nat} (header : hdr.length = 8)
    (size : ofBigEndian (slice hdr 0 4) = payload.length)
    (crc : ofBigEndian (slice hdr 4 8) = checksum payload)
    (decoded : unmarshalEntryVersion payload version = .ok e) (rest : Bytes) :
    readEntryVersion (hdr ++ payload ++ rest) version = .entry e rest := by
  have payloadLen : slice (hdr ++ payload ++ rest) 0 4 = slice hdr 0 4 := by
    simp [slice, take_append, header]
  have wantCRC : slice (hdr ++ payload ++ rest) 4 8 = slice hdr 4 8 := by
    simp [slice, drop_append, header]
  have tail : (hdr ++ payload ++ rest).drop 8 = payload ++ rest := by
    rw [append_assoc, drop_left' header]
  have long : ¬ (hdr ++ payload ++ rest).length < 8 := by
    rw [length_append, length_append, header]
    omega
  have whole : ¬ (payload ++ rest).length < payload.length := by
    rw [length_append]
    omega
  unfold readEntryVersion
  rw [if_neg long]
  simp only [payloadLen, wantCRC, tail, size, crc, if_neg whole, take_left', drop_left',
    ne_eq, not_true, if_false, decoded]

theorem readEntryVersion_appendEntry (typed : e.WellTyped) (rest : Bytes) :
    readEntryVersion (appendEntry e ++ rest) walFormatVersion = .entry e.canonical rest := by
  have length : slice (bigEndian 4 (marshalEntry e).length ++ bigEndian 4
      (checksum (marshalEntry e)))
      0 4 = bigEndian 4 (marshalEntry e).length := by
    simp [slice]
  have crc : slice (bigEndian 4 (marshalEntry e).length ++ bigEndian 4 (checksum (marshalEntry e)))
      4 8 = bigEndian 4 (checksum (marshalEntry e)) := by
    simp [slice]
  refine readEntryVersion_frame (by simp) ?_ ?_ (unmarshalEntryVersion_marshalEntry typed) rest
  · rw [length]
    exact ofBigEndian_bigEndian_of_lt (by rw [length_marshalEntry]; exact typed.payload)
  · rw [crc]
    exact ofBigEndian_bigEndian_of_lt (checksum_lt (marshalEntry e))

theorem readEntryVersion_torn (typed : e.WellTyped) {torn : Bytes} (cut : torn <+: appendEntry e)
    (short : torn.length < (appendEntry e).length) (version : Nat) :
    readEntryVersion torn version = .eof := by
  by_cases tiny : torn.length < 8
  · rw [readEntryVersion, if_pos tiny]
  · obtain ⟨missing, whole⟩ := cut
    have payloadLen : slice torn 0 4 = bigEndian 4 (marshalEntry e).length := by
      have front : slice (torn ++ missing) 0 4 = slice torn 0 4 := by
        simp only [slice, drop_zero, Nat.sub_zero]
        exact take_append_of_le_length (by omega)
      rw [← front, whole]
      simp [appendEntry, slice]
    have size : ofBigEndian (bigEndian 4 (marshalEntry e).length) = (marshalEntry e).length :=
      ofBigEndian_bigEndian_of_lt (by rw [length_marshalEntry]; exact typed.payload)
    have tail : (torn.drop 8).length < (marshalEntry e).length := by
      rw [length_appendEntry] at short
      rw [length_drop]
      omega
    rw [readEntryVersion, if_neg tiny]
    simp only [payloadLen, size, if_pos tail]

end T4.Wal
