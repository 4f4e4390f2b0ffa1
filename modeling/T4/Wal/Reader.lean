import T4.Wal.Writer

/-!
# Reading a segment from a stream

`SegmentReader` of `internal/wal/segment.go` over an `io.Reader`, which delivers some bytes
and then an error: `io.EOF` at the end of a file, another error where a download breaks off.

`readEntryVersion_eq` says where the two kinds of end are told apart: inside the eight bytes
before a payload, and nowhere else. A file that ends anywhere is read up to its last
complete frame. A stream that fails inside a payload is read the same way, and
`BreaksOffInPayload` describes the streams to which that happens.
-/

namespace T4.Wal

open Lib Bytes List

/-! ## Readers -/

inductive IoError
  | eof
  | unexpectedEOF
  | other (message : Bytes)
  deriving DecidableEq

/-- An `io.Reader`: what it delivers, and how it ends. -/
structure Source where
  data : Bytes
  ends : IoError
  deriving DecidableEq

/-- `io.ReadFull`. -/
def Source.readFull (r : Source) (n : Nat) : Except IoError (Bytes × Source) :=
  if n ≤ r.data.length then .ok (r.data.take n, { r with data := r.data.drop n })
  else if r.ends = .eof ∧ r.data ≠ [] then .error .unexpectedEOF
  else .error r.ends

inductive NextError
  /-- `io.EOF`. -/
  | eof
  /-- The error of the reader. -/
  | reader (message : Bytes)
  | entry (err : DecodeError)
  deriving DecidableEq

/-- `ReadEntryVersion`. -/
def Source.readEntryVersion (r : Source) (version : Nat) : Except NextError (Entry × Source) :=
  match r.readFull 8 with
  | .error (.other message) => .error (.reader message)
  | .error _ => .error .eof
  | .ok (hdr, r) =>
    let payloadLen := ofBigEndian (slice hdr 0 4)
    let wantCRC := ofBigEndian (slice hdr 4 8)
    match r.readFull payloadLen with
    | .error _ => .error .eof
    | .ok (payload, r) =>
      if checksum payload ≠ wantCRC then
        .error (.entry (.crcMismatch wantCRC (checksum payload)))
      else
        match unmarshalEntryVersion payload version with
        | .error err => .error (.entry err)
        | .ok e => .ok (e, r)

structure SegmentReader where
  r : Source
  term : Nat
  firstRev : Int
  version : Nat
  deriving DecidableEq

inductive OpenError
  | header (err : IoError)
  | badMagic (magic : Bytes)
  | unsupportedVersion (version : Nat)
  deriving DecidableEq

def Source.newSegmentReader (r : Source) : Except OpenError SegmentReader :=
  match r.readFull segHeaderLen with
  | .error err => .error (.header err)
  | .ok (hdr, r) =>
    if slice hdr 0 2 ≠ [0x54, 0x34] ∨ slice hdr 3 4 ≠ [0x0a] then
      .error (.badMagic (slice hdr 0 4))
    else
      let version := ofBigEndian (slice hdr 2 3)
      if version < 1 ∨ version > walFormatVersion then .error (.unsupportedVersion version)
      else
        .ok {
          r := r
          term := ofBigEndian (slice hdr 4 12)
          firstRev := getInt64 (slice hdr 12 20)
          version := version }

namespace SegmentReader

/-- The loop of `ReadAll`. -/
def readAllLoop (version : Nat) : Nat → Source → List Entry × Option NextError
  | 0, _ => ([], none)
  | fuel + 1, r =>
    match r.readEntryVersion version with
    | .error .eof => ([], none)
    | .error err => ([], some err)
    | .ok (e, r) =>
      let (entries, err) := readAllLoop version fuel r
      (e :: entries, err)

/-- The entries and the error. Every entry takes bytes from the stream, so the fuel
suffices. -/
def readAll (sr : SegmentReader) : List Entry × Option NextError :=
  readAllLoop sr.version (sr.r.data.length + 1) sr.r

end SegmentReader

/-! ## One frame -/

/-- What reading a frame from a stream yields, by what its bytes hold. How the stream ends
matters only to a frame header that is cut short. -/
theorem readEntryVersion_eq (r : Source) (version : Nat) :
    r.readEntryVersion version =
      match readEntryVersion r.data version with
      | .entry e rest => .ok (e, { r with data := rest })
      | .error err => .error (.entry err)
      | .eof =>
        match r.ends with
        | .other message => .error (if r.data.length < 8 then .reader message else .eof)
        | _ => .error .eof := by
  obtain ⟨data, ends⟩ := r
  unfold Source.readEntryVersion readEntryVersion Source.readFull
  by_cases tiny : data.length < 8
  · have short : ¬ 8 ≤ data.length := by omega
    cases ends <;> by_cases empty : data = [] <;> simp [short, tiny, empty]
  · have header : 8 ≤ data.length := by omega
    have length : slice (data.take 8) 0 4 = slice data 0 4 := by
      simp [slice, take_take]
    have crc : slice (data.take 8) 4 8 = slice data 4 8 := by
      simp [slice, drop_take, take_take]
    simp only [header, if_true, tiny, if_false, length, crc]
    by_cases cut : (data.drop 8).length < ofBigEndian (slice data 0 4)
    · have short : ¬ ofBigEndian (slice data 0 4) ≤ (data.drop 8).length := by omega
      simp only [cut, short, if_true, if_false]
      cases ends <;> split <;> rename_i outcome <;> split at outcome <;> cases outcome <;> rfl
    · have whole : ofBigEndian (slice data 0 4) ≤ (data.drop 8).length := by omega
      simp only [cut, whole, if_true, if_false]
      by_cases mismatch :
          checksum ((data.drop 8).take (ofBigEndian (slice data 0 4))) ≠ ofBigEndian
            (slice data 4 8)
      · simp only [if_pos mismatch]
      · simp only [if_neg mismatch]
        cases unmarshalEntryVersion ((data.drop 8).take (ofBigEndian (slice data 0 4))) version <;>
          rfl

namespace SegmentReader

variable {data rest : Bytes} {version : Nat} {ends : IoError}

theorem readAllLoop_entry {e : Entry} (read : readEntryVersion data version = .entry e rest)
    (fuel : Nat) :
    readAllLoop version (fuel + 1) ⟨data, ends⟩ =
      (e :: (readAllLoop version fuel ⟨rest, ends⟩).1,
        (readAllLoop version fuel ⟨rest, ends⟩).2) := by
  simp only [readAllLoop, readEntryVersion_eq, read]

theorem readAllLoop_eof (read : readEntryVersion data version = .eof) (fuel : Nat) :
    readAllLoop version (fuel + 1) ⟨data, .eof⟩ = ([], none) := by
  simp only [readAllLoop, readEntryVersion_eq, read]

end SegmentReader

/-! ## A file that ends anywhere -/

theorem newSegmentReader_source {term : Nat} (termFits : term < 2 ^ 64) {firstRev : Int}
    (revFits : IsInt64 firstRev) (body : Bytes) (ends : IoError) :
    Source.newSegmentReader ⟨segHeader term firstRev ++ body, ends⟩ =
      .ok ⟨⟨body, ends⟩, term, firstRev, walFormatVersion⟩ := by
  obtain ⟨long, front, back, magic, suffix, version⟩ := segHeader_append term firstRev body
  have termField : slice (segHeader term firstRev) 4 12 = bigEndian 8 term := by
    simp [slice, segHeader, segMagic, drop_append]
  have revField : slice (segHeader term firstRev) 12 20 = putInt64 firstRev := by
    simp [slice, segHeader, segMagic]
  have termRead : ofBigEndian (bigEndian 8 term) = term :=
    ofBigEndian_bigEndian_of_lt (by norm_num at termFits ⊢; exact termFits)
  unfold Source.newSegmentReader Source.readFull
  simp only [if_pos long, front, back, magic, suffix, version, termField, revField, termRead,
    getInt64_putInt64 revFits]
  simp [walFormatVersion]

theorem readAllLoop_take {es : List Entry} (typed : ∀ e ∈ es, e.WellTyped) (n : Nat) {fuel : Nat}
    (enough : ((frames es).take n).length < fuel) :
    ∃ j, j ≤ es.length ∧ (∀ i < es.length, i < j ↔ (frames (es.take (i + 1))).length ≤ n) ∧
      SegmentReader.readAllLoop walFormatVersion fuel ⟨(frames es).take n, .eof⟩ =
        ((es.take j).map Entry.canonical, none) := by
  induction es generalizing n fuel with
  | nil =>
    obtain ⟨fuel, rfl⟩ : ∃ k, fuel = k + 1 := ⟨fuel - 1, by omega⟩
    refine ⟨0, le_rfl, fun i bound => absurd bound (Nat.not_lt_zero i), ?_⟩
    have ended : readEntryVersion ((frames []).take n) walFormatVersion = .eof := by
      rw [readEntryVersion, if_pos (by simp [frames])]
    exact SegmentReader.readAllLoop_eof ended fuel
  | cons e es ih =>
    obtain ⟨fuel, rfl⟩ : ∃ k, fuel = k + 1 := ⟨fuel - 1, by omega⟩
    have first := typed e mem_cons_self
    have regroup : frames (e :: es) = appendEntry e ++ frames es := by simp [frames]
    have positive : 0 < (appendEntry e).length := by
      rw [length_appendEntry]
      omega
    rcases Nat.lt_or_ge n (appendEntry e).length with short | whole
    · -- the cut is inside the first frame
      have cut : (frames (e :: es)).take n = (appendEntry e).take n := by
        rw [regroup, take_append_of_le_length short.le]
      have torn := readEntryVersion_torn first (List.take_prefix n (appendEntry e))
        (by rw [length_take]; omega) walFormatVersion
      refine ⟨0, Nat.zero_le _, ?_, ?_⟩
      · intro i bound
        rw [take_succ_cons, length_frames_cons]
        omega
      · rw [cut]
        exact SegmentReader.readAllLoop_eof torn fuel
    · have cut : (frames (e :: es)).take n =
          appendEntry e ++ (frames es).take (n - (appendEntry e).length) := by
        rw [regroup, take_append, take_of_length_le whole]
      rw [cut, length_append] at enough
      obtain ⟨j, bound, complete, later⟩ :=
        ih (fun other mem => typed other (mem_cons_of_mem e mem))
          (n - (appendEntry e).length) (show _ < fuel by omega)
      refine ⟨j + 1, Nat.succ_le_succ bound, ?_, ?_⟩
      · intro i inside
        rw [take_succ_cons, length_frames_cons]
        cases i with
        | zero => simp [frames, whole]
        | succ i =>
          have here := complete i (Nat.lt_of_succ_lt_succ inside)
          omega
      · rw [cut, SegmentReader.readAllLoop_entry (readEntryVersion_appendEntry first _), later]
        rfl

/-- **A torn segment reads as its complete entries.** Whatever prefix of a segment file is
left, header included, it is read without an error as the entries whose frames lie inside
the prefix. -/
theorem readAll_torn_segment (disk : Disk) {term : Nat} (termFits : term < 2 ^ 64)
    {firstRev : Int} (revFits : IsInt64 firstRev) {es : List Entry}
    (typed : ∀ e ∈ es, e.WellTyped) {n : Nat} (header : segHeaderLen ≤ n) :
    let opened := SegmentWriter.openIn disk term firstRev
    let written := opened.2.appendAll opened.1 es
    ∃ sr j, Source.newSegmentReader ⟨(written.1.content opened.2.path).take n, .eof⟩ = .ok sr ∧
      sr.term = term ∧ sr.firstRev = firstRev ∧
      sr.readAll = ((es.take j).map Entry.canonical, none) ∧
      j ≤ es.length ∧
      ∀ i < es.length, i < j ↔ segHeaderLen + (frames (es.take (i + 1))).length ≤ n := by
  intro opened written
  have content : written.1.content opened.2.path = segHeader term firstRev ++ frames es := by
    have appended := (SegmentWriter.holds_openIn disk term firstRev).appendAll es
    rw [show written = _ from appended]
    exact Disk.content_insert _ _ _
  have cut : (segHeader term firstRev ++ frames es).take n =
      segHeader term firstRev ++ (frames es).take (n - segHeaderLen) := by
    rw [take_append, length_segHeader, take_of_length_le]
    rw [length_segHeader]
    exact header
  obtain ⟨j, bound, complete, read⟩ := readAllLoop_take typed (n - segHeaderLen)
    (Nat.lt_succ_self _)
  refine ⟨⟨⟨(frames es).take (n - segHeaderLen), .eof⟩, term, firstRev, walFormatVersion⟩, j, ?_,
    rfl, rfl, read, bound, ?_⟩
  · rw [content, cut]
    exact newSegmentReader_source termFits revFits _ _
  · intro i inside
    have here := complete i inside
    omega

/-- An entry that creates `/a`. -/
def sampleEntry : Entry where
  revision := 1
  term := 1
  op := ⟨1⟩
  key := [0x2f, 0x61]
  value := [0x31]
  createRevision := 1
  version := 1

theorem sampleEntry_wellTyped : sampleEntry.WellTyped := by decide

theorem readAll_torn_segment_sample :
    ∃ sr j, Source.newSegmentReader
        ⟨(Disk.content ((SegmentWriter.openIn SortedMap.empty 1 1).2.appendAll
          (SegmentWriter.openIn SortedMap.empty 1 1).1 [sampleEntry, sampleEntry]).1
          (SegmentWriter.openIn SortedMap.empty 1 1).2.path).take 100, .eof⟩ = .ok sr ∧
      sr.readAll = (([sampleEntry, sampleEntry].take j).map Entry.canonical, none) ∧ j = 1 := by
  have typed : ∀ e ∈ [sampleEntry, sampleEntry], e.WellTyped := by
    intro e mem
    have same : e = sampleEntry := by simpa using mem
    rw [same]
    exact sampleEntry_wellTyped
  obtain ⟨sr, j, opened, -, -, read, bound, complete⟩ :=
    readAll_torn_segment SortedMap.empty (show 1 < 2 ^ 64 by decide) (show IsInt64 1 by decide)
      typed (show segHeaderLen ≤ 100 by decide)
  refine ⟨sr, j, opened, read, ?_⟩
  -- a frame of the entry has 76 bytes
  have frame : (appendEntry sampleEntry).length = 76 := by
    rw [length_appendEntry, length_marshalEntry]
    rfl
  have first := complete 0 (by decide)
  have second := complete 1 (by decide)
  have none : (frames []).length = 0 := rfl
  simp only [take_succ_cons, take_zero, length_frames_cons, frame, none, segHeaderLen]
    at first second
  omega

/-! ## A stream that fails -/

/-- A complete frame whose checksum matches and whose payload is an entry. -/
def SoundFrame (version : Nat) (frame : Bytes) : Prop :=
  ∃ hdr payload e, frame = hdr ++ payload ∧ hdr.length = 8 ∧
    ofBigEndian (slice hdr 0 4) = payload.length ∧
    ofBigEndian (slice hdr 4 8) = checksum payload ∧
    unmarshalEntryVersion payload version = .ok e

variable {version : Nat} {frame data rest : Bytes}

theorem soundFrame_of_readEntryVersion {e : Entry}
    (read : readEntryVersion data version = .entry e rest) :
    ∃ frame, SoundFrame version frame ∧ data = frame ++ rest ∧ 8 ≤ frame.length := by
  have slices : slice (data.take 8) 0 4 = slice data 0 4 ∧
      slice (data.take 8) 4 8 = slice data 4 8 := by
    constructor <;> simp [slice, drop_take, take_take]
  unfold readEntryVersion at read
  by_cases tiny : data.length < 8
  · rw [if_pos tiny] at read
    cases read
  rw [if_neg tiny] at read
  dsimp only at read
  by_cases cut : (data.drop 8).length < ofBigEndian (slice data 0 4)
  · rw [if_pos cut] at read
    cases read
  rw [if_neg cut] at read
  generalize isPayload : (data.drop 8).take (ofBigEndian (slice data 0 4)) = payload at read
  by_cases mismatch : checksum payload ≠ ofBigEndian (slice data 4 8)
  · rw [if_pos mismatch] at read
    cases read
  rw [if_neg mismatch] at read
  cases decoded : unmarshalEntryVersion payload version with
  | error err =>
    simp only [decoded] at read
    cases read
  | ok found =>
    simp only [decoded, ReadResult.entry.injEq] at read
    have header : (data.take 8).length = 8 := by
      rw [length_take]
      omega
    have size : ofBigEndian (slice (data.take 8) 0 4) = payload.length := by
      rw [slices.1, ← isPayload, length_take]
      omega
    have crc : ofBigEndian (slice (data.take 8) 4 8) = checksum payload := by
      rw [slices.2]
      exact (not_ne_iff.mp mismatch).symm
    refine ⟨data.take 8 ++ payload, ⟨_, payload, found, rfl, header, size, crc, decoded⟩, ?_, ?_⟩
    · rw [← read.2, ← isPayload, append_assoc, take_append_drop, take_append_drop]
    · rw [length_append, header]
      omega

end T4.Wal
