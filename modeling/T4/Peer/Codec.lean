import T4.Lib.Checked
import T4.Peer.Stream

/-!
# The messages of the peer stream as bytes

`marshalWalEntryMsg` and `unmarshalWalEntryMsg` of `internal/peer/peer.go`: a layout of 84
little-endian bytes in which the length of the value stands behind the key, and the two
conversions between entries and messages.

The decoder works by offsets, so its accesses are checked ones. `unmarshalWalEntryMsg_eq`
says what it computes on every byte string; the round trip, the refusal of every shortened
message and the absence of accesses outside the buffer are read off from there.
-/

namespace T4.Peer.Wire

open Lib Bytes Wal List

/-- The wire representation of a `wal.Entry`, of a commit and of a shutdown. -/
structure WalEntryMsg where
  id : Int := 0
  revision : Int := 0
  term : Nat := 0
  op : UInt8 := 0
  key : Bytes := []
  value : Bytes := []
  lease : Int := 0
  createRevision : Int := 0
  prevRevision : Int := 0
  version : Int := 0
  commitRevision : Int := 0
  commitStartRevision : Int := 0
  commit : Bool := false
  shutdown : Bool := false
  deriving DecidableEq

inductive MsgError
  | tooShort (size : Nat)
  | truncatedAtKey (need size : Nat)
  | truncatedAtValue (need size : Nat)
  deriving DecidableEq

def walEntryMsgFixedSize : Nat := 84

def flagsOf (m : WalEntryMsg) : UInt8 :=
  (if m.shutdown then 1 else 0) ||| (if m.commit then 2 else 0)

def putUint64 (x : Int) : Bytes := littleEndian 8 (uint64 x)

def marshalWalEntryMsg (m : WalEntryMsg) : Bytes :=
  putUint64 m.revision ++ littleEndian 8 m.term ++ putUint64 m.createRevision ++
    putUint64 m.prevRevision ++ putUint64 m.lease ++ [m.op, flagsOf m, 0, 0] ++
    littleEndian 4 m.key.length ++ putUint64 m.commitRevision ++
    putUint64 m.commitStartRevision ++ putUint64 m.id ++ putUint64 m.version ++ m.key ++
    littleEndian 4 m.value.length ++ m.value

def getUint64 (data : Bytes) (off : Nat) : Checked MsgError Int := do
  let b ← Checked.slice data off (off + 8)
  return int64 (ofLittleEndian b)

def getUint32 (data : Bytes) (off : Nat) : Checked MsgError Nat := do
  let b ← Checked.slice data off (off + 4)
  return ofLittleEndian b

def unmarshalWalEntryMsg (data : Bytes) : Checked MsgError WalEntryMsg :=
  if data.length < walEntryMsgFixedSize then Checked.reject (.tooShort data.length)
  else do
    let revision ← getUint64 data 0
    let term ← Checked.slice data 8 16
    let createRevision ← getUint64 data 16
    let prevRevision ← getUint64 data 24
    let lease ← getUint64 data 32
    let op ← Checked.byte data 40
    let flags ← Checked.byte data 41
    let kl ← getUint32 data 44
    let commitRevision ← getUint64 data 48
    let commitStartRevision ← getUint64 data 56
    let id ← getUint64 data 64
    let version ← getUint64 data 72
    if data.length < walEntryMsgFixedSize + kl then
      Checked.reject (.truncatedAtKey (walEntryMsgFixedSize + kl) data.length)
    else
      let key ← Checked.slice data 80 (80 + kl)
      let vl ← getUint32 data (80 + kl)
      if data.length < walEntryMsgFixedSize + kl + vl then
        Checked.reject (.truncatedAtValue (walEntryMsgFixedSize + kl + vl) data.length)
      else
        let tail ← Checked.slice data (84 + kl) data.length
        .ok {
          id, revision, term := ofLittleEndian term, op, key, value := tail.take vl
          lease, createRevision, prevRevision, version, commitRevision, commitStartRevision
          commit := flags &&& 2 != 0
          shutdown := flags &&& 1 != 0 }

def entryToMsg (e : Entry) : WalEntryMsg where
  id := e.sequence
  revision := e.revision
  term := e.term
  op := e.op.code
  key := e.key
  value := e.value
  lease := e.lease
  createRevision := e.createRevision
  prevRevision := e.prevRevision
  version := e.version

def msgToEntry (m : WalEntryMsg) : Entry where
  id := m.id
  revision := m.revision
  term := m.term
  op := ⟨m.op⟩
  key := m.key
  value := m.value
  lease := m.lease
  createRevision := m.createRevision
  prevRevision := m.prevRevision
  version := m.version

/-! ## What the decoder computes -/

def keyLen (data : Bytes) : Nat := ofLittleEndian (slice data 44 48)

def valLen (data : Bytes) : Nat :=
  ofLittleEndian (slice data (80 + keyLen data) (84 + keyLen data))

/-- The fields of a message at their offsets. -/
def fieldsOf (data : Bytes) : WalEntryMsg where
  id := int64 (ofLittleEndian (slice data 64 72))
  revision := int64 (ofLittleEndian (slice data 0 8))
  term := ofLittleEndian (slice data 8 16)
  op := (data.drop 40).headD 0
  key := slice data 80 (80 + keyLen data)
  value := (slice data (84 + keyLen data) data.length).take (valLen data)
  lease := int64 (ofLittleEndian (slice data 32 40))
  createRevision := int64 (ofLittleEndian (slice data 16 24))
  prevRevision := int64 (ofLittleEndian (slice data 24 32))
  version := int64 (ofLittleEndian (slice data 72 80))
  commitRevision := int64 (ofLittleEndian (slice data 48 56))
  commitStartRevision := int64 (ofLittleEndian (slice data 56 64))
  commit := (data.drop 41).headD 0 &&& 2 != 0
  shutdown := (data.drop 41).headD 0 &&& 1 != 0

def decodeWalEntryMsg (data : Bytes) : Except MsgError WalEntryMsg :=
  if data.length < walEntryMsgFixedSize then .error (.tooShort data.length)
  else if data.length < walEntryMsgFixedSize + keyLen data then
    .error (.truncatedAtKey (walEntryMsgFixedSize + keyLen data) data.length)
  else if data.length < walEntryMsgFixedSize + keyLen data + valLen data then
    .error (.truncatedAtValue (walEntryMsgFixedSize + keyLen data + valLen data) data.length)
  else .ok (fieldsOf data)

theorem getUint64_of_le {data : Bytes} {off : Nat} (within : off + 8 ≤ data.length) :
    getUint64 data off = .ok (int64 (ofLittleEndian (slice data off (off + 8)))) := by
  rw [getUint64, Checked.slice_of_le (by omega) within]
  rfl

theorem getUint32_of_le {data : Bytes} {off : Nat} (within : off + 4 ≤ data.length) :
    getUint32 data off = .ok (ofLittleEndian (slice data off (off + 4))) := by
  rw [getUint32, Checked.slice_of_le (by omega) within]
  rfl

theorem unmarshalWalEntryMsg_eq (data : Bytes) :
    unmarshalWalEntryMsg data = Checked.ofExcept (decodeWalEntryMsg data) := by
  unfold unmarshalWalEntryMsg decodeWalEntryMsg
  by_cases short : data.length < walEntryMsgFixedSize
  · rw [if_pos short, if_pos short, Checked.ofExcept_error]
  have fixed : 84 ≤ data.length := Nat.not_lt.mp short
  have kl : getUint32 data 44 = .ok (keyLen data) := getUint32_of_le (by omega)
  rw [if_neg short, if_neg short, getUint64_of_le (by omega), getUint64_of_le (by omega),
    getUint64_of_le (by omega), getUint64_of_le (by omega), getUint64_of_le (by omega),
    getUint64_of_le (by omega), getUint64_of_le (by omega), getUint64_of_le (by omega),
    Checked.slice_of_le (by omega) (by omega), Checked.byte_of_lt (by omega),
    Checked.byte_of_lt (by omega), kl]
  by_cases shortKey : data.length < walEntryMsgFixedSize + keyLen data
  · simp only [bind, Except.bind, if_pos shortKey, Checked.ofExcept_error]
  have key : walEntryMsgFixedSize + keyLen data ≤ data.length := Nat.not_lt.mp shortKey
  rw [walEntryMsgFixedSize] at key
  have vl : getUint32 data (80 + keyLen data) = .ok (valLen data) := by
    rw [getUint32_of_le (by omega), valLen, Nat.add_right_comm 80 (keyLen data) 4]
  rw [if_neg shortKey]
  simp only [bind, Except.bind, if_neg shortKey, vl,
    Checked.slice_of_le (show 80 ≤ 80 + keyLen data by omega)
      (by omega : 80 + keyLen data ≤ data.length),
    Checked.slice_of_le key le_rfl]
  split <;> rfl

/-! ## Reading back what was written -/

/-- The fields are values of their machine types, and the lengths fit their four bytes. -/
structure WalEntryMsg.WellTyped (m : WalEntryMsg) : Prop where
  id : IsInt64 m.id
  revision : IsInt64 m.revision
  term : m.term < 2 ^ 64
  key : m.key.length < 2 ^ 32
  value : m.value.length < 2 ^ 32
  lease : IsInt64 m.lease
  createRevision : IsInt64 m.createRevision
  prevRevision : IsInt64 m.prevRevision
  version : IsInt64 m.version
  commitRevision : IsInt64 m.commitRevision
  commitStartRevision : IsInt64 m.commitStartRevision

@[simp]
theorem length_putUint64 (x : Int) : (putUint64 x).length = 8 := length_littleEndian 8 _

theorem int64_putUint64 {x : Int} (range : IsInt64 x) :
    int64 (ofLittleEndian (putUint64 x)) = x :=
  ofLittleEndian_uint64 range

theorem length_marshalWalEntryMsg (m : WalEntryMsg) :
    (marshalWalEntryMsg m).length = walEntryMsgFixedSize + m.key.length + m.value.length := by
  simp [marshalWalEntryMsg, walEntryMsgFixedSize]
  omega

theorem slices_marshalWalEntryMsg (m : WalEntryMsg) :
    slice (marshalWalEntryMsg m) 0 8 = putUint64 m.revision ∧
    slice (marshalWalEntryMsg m) 8 16 = littleEndian 8 m.term ∧
    slice (marshalWalEntryMsg m) 16 24 = putUint64 m.createRevision ∧
    slice (marshalWalEntryMsg m) 24 32 = putUint64 m.prevRevision ∧
    slice (marshalWalEntryMsg m) 32 40 = putUint64 m.lease ∧
    ((marshalWalEntryMsg m).drop 40).headD 0 = m.op ∧
    ((marshalWalEntryMsg m).drop 41).headD 0 = flagsOf m ∧
    slice (marshalWalEntryMsg m) 44 48 = littleEndian 4 m.key.length ∧
    slice (marshalWalEntryMsg m) 48 56 = putUint64 m.commitRevision ∧
    slice (marshalWalEntryMsg m) 56 64 = putUint64 m.commitStartRevision ∧
    slice (marshalWalEntryMsg m) 64 72 = putUint64 m.id ∧
    slice (marshalWalEntryMsg m) 72 80 = putUint64 m.version := by
  refine ⟨?_, ?_, ?_, ?_, ?_, ?_, ?_, ?_, ?_, ?_, ?_, ?_⟩ <;>
    simp [slice, marshalWalEntryMsg, drop_append, drop_eq_nil_of_le]

theorem drop_marshalWalEntryMsg (m : WalEntryMsg) :
    (marshalWalEntryMsg m).drop 80 = m.key ++ (littleEndian 4 m.value.length ++ m.value) := by
  simp [marshalWalEntryMsg, drop_append, drop_eq_nil_of_le]

theorem flagsOf_shutdown (m : WalEntryMsg) : (flagsOf m &&& 1 != 0) = m.shutdown := by
  unfold flagsOf
  cases m.shutdown <;> cases m.commit <;> rfl

theorem flagsOf_commit (m : WalEntryMsg) : (flagsOf m &&& 2 != 0) = m.commit := by
  unfold flagsOf
  cases m.shutdown <;> cases m.commit <;> rfl

section RoundTrip

variable {m : WalEntryMsg} (typed : m.WellTyped)

include typed

theorem keyLen_marshalWalEntryMsg : keyLen (marshalWalEntryMsg m) = m.key.length := by
  obtain ⟨-, -, -, -, -, -, -, length, -⟩ := slices_marshalWalEntryMsg m
  rw [keyLen, length]
  exact ofLittleEndian_littleEndian_of_lt typed.key

theorem valLen_marshalWalEntryMsg : valLen (marshalWalEntryMsg m) = m.value.length := by
  have length : slice (marshalWalEntryMsg m) (80 + m.key.length) (80 + (m.key.length + 4)) =
      littleEndian 4 m.value.length := by
    rw [← slice_drop, drop_marshalWalEntryMsg]
    simp [slice]
  rw [valLen, keyLen_marshalWalEntryMsg typed,
    show 84 + m.key.length = 80 + (m.key.length + 4) by omega, length]
  exact ofLittleEndian_littleEndian_of_lt typed.value

theorem fieldsOf_marshalWalEntryMsg : fieldsOf (marshalWalEntryMsg m) = m := by
  obtain ⟨revision, term, createRevision, prevRevision, lease, op, flags, -, commitRevision,
    commitStartRevision, id, version⟩ := slices_marshalWalEntryMsg m
  have key : slice (marshalWalEntryMsg m) 80 (80 + m.key.length) = m.key := by
    rw [← Nat.add_zero 80, Nat.add_assoc, ← slice_drop, drop_marshalWalEntryMsg]
    simp [slice]
  have value : (slice (marshalWalEntryMsg m) (84 + m.key.length) (marshalWalEntryMsg m).length).take
      m.value.length = m.value := by
    have past : (marshalWalEntryMsg m).drop (80 + (m.key.length + 4)) = m.value := by
      rw [← drop_drop, drop_marshalWalEntryMsg]
      simp [drop_append, drop_eq_nil_of_le]
    rw [slice, show 84 + m.key.length = 80 + (m.key.length + 4) by omega, past, take_take]
    refine take_of_length_le ?_
    rw [length_marshalWalEntryMsg, walEntryMsgFixedSize]
    omega
  have isTerm : ofLittleEndian (littleEndian 8 m.term) = m.term :=
    ofLittleEndian_littleEndian_of_lt (by norm_num; exact typed.term)
  simp only [fieldsOf, keyLen_marshalWalEntryMsg typed, valLen_marshalWalEntryMsg typed, revision,
    term, createRevision, prevRevision, lease, op, flags, commitRevision, commitStartRevision, id,
    version, key, value, isTerm, flagsOf_shutdown, flagsOf_commit, int64_putUint64 typed.id,
    int64_putUint64 typed.revision, int64_putUint64 typed.lease,
    int64_putUint64 typed.createRevision, int64_putUint64 typed.prevRevision,
    int64_putUint64 typed.version, int64_putUint64 typed.commitRevision,
    int64_putUint64 typed.commitStartRevision]

theorem unmarshal_marshalWalEntryMsg : unmarshalWalEntryMsg (marshalWalEntryMsg m) = .ok m := by
  have length := length_marshalWalEntryMsg m
  rw [unmarshalWalEntryMsg_eq, decodeWalEntryMsg, keyLen_marshalWalEntryMsg typed,
    valLen_marshalWalEntryMsg typed, if_neg (by omega), if_neg (by omega), if_neg (by omega),
    fieldsOf_marshalWalEntryMsg typed, Checked.ofExcept_ok]

theorem unmarshal_torn {torn : Bytes} (cut : torn <+: marshalWalEntryMsg m)
    (short : torn ≠ marshalWalEntryMsg m) :
    ∃ err, unmarshalWalEntryMsg torn = .error (.error err) := by
  obtain ⟨missing, whole⟩ := cut
  have less : torn.length < walEntryMsgFixedSize + m.key.length + m.value.length := by
    rw [← length_marshalWalEntryMsg, ← whole, length_append]
    have some : missing ≠ [] := by
      rintro rfl
      exact short (by rw [← whole, append_nil])
    have := length_pos_of_ne_nil some
    omega
  have kept : ∀ i j, j ≤ torn.length → slice (marshalWalEntryMsg m) i j = slice torn i j := by
    intro i j within
    rw [← whole]
    exact slice_append_of_le within
  rw [unmarshalWalEntryMsg_eq, decodeWalEntryMsg]
  split_ifs with tooShort atKey atValue
  · exact ⟨_, rfl⟩
  · exact ⟨_, rfl⟩
  · exact ⟨_, rfl⟩
  · -- both lengths are inside the part that is left, so the whole message would be
    exfalso
    rw [walEntryMsgFixedSize] at tooShort atKey atValue less
    have sameKey : keyLen torn = m.key.length := by
      rw [← keyLen_marshalWalEntryMsg typed, keyLen, keyLen, kept _ _ (by omega)]
    have sameVal : valLen torn = m.value.length := by
      rw [← valLen_marshalWalEntryMsg typed, valLen, valLen, keyLen_marshalWalEntryMsg typed,
        sameKey,
        kept _ _ (by omega)]
    omega

end RoundTrip

/-! ## Entries, commits and shutdowns -/

/-- The entries that a message can carry: fields of their machine types, a key and a value
that are shorter than 4 GiB each. -/
structure Carried (e : Entry) : Prop where
  id : IsInt64 e.id
  revision : IsInt64 e.revision
  term : e.term < 2 ^ 64
  key : e.key.length < 2 ^ 32
  value : e.value.length < 2 ^ 32
  lease : IsInt64 e.lease
  createRevision : IsInt64 e.createRevision
  prevRevision : IsInt64 e.prevRevision
  version : IsInt64 e.version

theorem Carried.wellTyped {e : Entry} (carried : Carried e) : (entryToMsg e).WellTyped where
  id := by
    unfold entryToMsg Entry.sequence
    split
    · exact carried.id
    · exact carried.revision
  revision := carried.revision
  term := carried.term
  key := carried.key
  value := carried.value
  lease := carried.lease
  createRevision := carried.createRevision
  prevRevision := carried.prevRevision
  version := carried.version
  commitRevision := isInt64_zero
  commitStartRevision := isInt64_zero

theorem msgToEntry_entryToMsg (e : Entry) : msgToEntry (entryToMsg e) = e.canonical := rfl

/-- The message that `BroadcastCommit` and the replay of the ring buffer send. -/
def commitMsg (startRev rev : Int) : WalEntryMsg :=
  { commit := true, commitStartRevision := startRev, commitRevision := rev }

theorem commitMsg_wellTyped {startRev rev : Int} (startFits : IsInt64 startRev)
    (revFits : IsInt64 rev) : (commitMsg startRev rev).WellTyped where
  id := isInt64_zero
  revision := isInt64_zero
  term := Nat.two_pow_pos 64
  key := Nat.two_pow_pos 32
  value := Nat.two_pow_pos 32
  lease := isInt64_zero
  createRevision := isInt64_zero
  prevRevision := isInt64_zero
  version := isInt64_zero
  commitRevision := revFits
  commitStartRevision := startFits

/-- What the follow loop makes of a message. -/
def received (m : WalEntryMsg) : Peer.WalEntryMsg :=
  if m.commit then .commit m.commitStartRevision m.commitRevision else .entry (msgToEntry m)

/-- The stream of messages in `Peer.Stream` is what the bytes carry. -/
theorem received_entryToMsg {e : Entry} (carried : Carried e) :
    (unmarshalWalEntryMsg (marshalWalEntryMsg (entryToMsg e))).map received =
      .ok (Peer.entryToMsg e) := by
  rw [unmarshal_marshalWalEntryMsg carried.wellTyped]
  rfl

theorem received_commitMsg {startRev rev : Int} (startFits : IsInt64 startRev)
    (revFits : IsInt64 rev) :
    (unmarshalWalEntryMsg (marshalWalEntryMsg (commitMsg startRev rev))).map received =
      .ok (.commit startRev rev) := by
  rw [unmarshal_marshalWalEntryMsg (commitMsg_wellTyped startFits revFits)]
  rfl

/-- **The peer codec is faithful.** An entry comes back with its sequence as identity, every
message keeps its flags and its commit range, and a message that is cut short anywhere is
refused with an error. -/
theorem walEntryMsg_codec :
    (∀ e, Carried e → ∃ m, unmarshalWalEntryMsg (marshalWalEntryMsg (entryToMsg e)) = .ok m ∧
      msgToEntry m = e.canonical) ∧
    (∀ m : WalEntryMsg, m.WellTyped → ∃ m',
      unmarshalWalEntryMsg (marshalWalEntryMsg m) = .ok m' ∧
      m'.commit = m.commit ∧ m'.shutdown = m.shutdown ∧
      m'.commitStartRevision = m.commitStartRevision ∧ m'.commitRevision = m.commitRevision) ∧
    (∀ m : WalEntryMsg, m.WellTyped → ∀ torn, torn <+: marshalWalEntryMsg m →
      torn ≠ marshalWalEntryMsg m → ∃ err, unmarshalWalEntryMsg torn = .error (.error err)) ∧
    ∀ data, unmarshalWalEntryMsg data ≠ .error .outOfRange := by
  refine ⟨?_, ?_, ?_, ?_⟩
  · intro e carried
    exact ⟨_, unmarshal_marshalWalEntryMsg carried.wellTyped, msgToEntry_entryToMsg e⟩
  · intro m typed
    exact ⟨m, unmarshal_marshalWalEntryMsg typed, rfl, rfl, rfl, rfl⟩
  · intro m typed torn cut short
    exact unmarshal_torn typed cut short
  · intro data
    rw [unmarshalWalEntryMsg_eq]
    exact Checked.ofExcept_ne_outOfRange _

def sampleEntry : Entry :=
  { revision := 3, term := 2, op := ⟨1⟩, key := [0x2f, 0x61], value := [0x31] }

theorem walEntryMsg_codec_sample :
    (∃ m, unmarshalWalEntryMsg (marshalWalEntryMsg (entryToMsg sampleEntry)) = .ok m ∧
      (msgToEntry m).id = 3) ∧
    (∃ m, unmarshalWalEntryMsg (marshalWalEntryMsg (commitMsg 3 4)) = .ok m ∧ m.commit = true ∧
      m.commitStartRevision = 3 ∧ m.commitRevision = 4) ∧
    ∃ err, unmarshalWalEntryMsg ((marshalWalEntryMsg (commitMsg 3 4)).take 83) =
      .error (.error err) := by
  have commitTyped : (commitMsg 3 4).WellTyped := commitMsg_wellTyped (by decide) (by decide)
  obtain ⟨entries, messages, cut, -⟩ := walEntryMsg_codec
  refine ⟨?_, ?_, ?_⟩
  · obtain ⟨m, read, same⟩ := entries sampleEntry (by constructor <;> decide)
    exact ⟨m, read, by rw [same]; rfl⟩
  · obtain ⟨m, read, commit, -, start, rev⟩ := messages (commitMsg 3 4) commitTyped
    exact ⟨m, read, commit, start, rev⟩
  · refine cut (commitMsg 3 4) commitTyped _ (List.take_prefix 83 _) ?_
    intro same
    have lengths := congrArg List.length same
    rw [length_take, length_marshalWalEntryMsg] at lengths
    simp [walEntryMsgFixedSize, commitMsg] at lengths

end T4.Peer.Wire
