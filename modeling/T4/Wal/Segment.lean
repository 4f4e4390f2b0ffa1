import Mathlib.Data.Prod.Lex
import T4.Lib.SortedMap
import T4.Wal.Entry

/-!
# Segment files

`internal/wal/segment.go` and the directory scans of `wal.go`. A segment is a header
of twenty bytes followed by entry frames. File names are the zero-padded term and
first sequence, so a directory listing sorts like the pair.

`segmentEntries_frames` and `take_frames` are the facts that recovery rests on:
whatever prefix of an unsynced append a crash leaves, reading the file yields exactly
the entries whose frames are complete.
-/

namespace T4.Wal

open Lib Bytes List

/-! ## Writing -/

/-- Term and first sequence, in the order of the file names. -/
abbrev SegmentName := ℕ ×ₗ ℤ

instance lawfulBEqSegmentName : LawfulBEq SegmentName := inferInstance

def segmentName (term : Nat) (firstRev : Int) : SegmentName := toLex (term, firstRev)

def segMagic : Bytes := [0x54, 0x34, 0x02, 0x0a]

def segHeaderLen : Nat := 20

def segHeader (term : Nat) (firstRev : Int) : Bytes :=
  segMagic ++ bigEndian 8 term ++ putInt64 firstRev

def frames (es : List Entry) : Bytes := es.flatMap appendEntry

/-- A segment file: what is synced, and what was written since. -/
structure SegmentFile where
  synced : Bytes
  unsynced : Bytes := []
  deriving DecidableEq

def SegmentFile.bytes (f : SegmentFile) : Bytes := f.synced ++ f.unsynced

abbrev WalDir := SortedMap SegmentName SegmentFile

/-- Create or truncate a segment file and write its header. -/
def openSegmentWriter (dir : WalDir) (term : Nat) (firstRev : Int) : WalDir :=
  dir.insert (segmentName term firstRev) { synced := [], unsynced := segHeader term firstRev }

/-! ## Reading -/

inductive SegmentError
  | headerTruncated
  | badMagic
  | unsupportedVersion (version : Nat)
  deriving DecidableEq

def newSegmentReader (r : Bytes) : Except SegmentError (Nat × Bytes) :=
  if r.length < segHeaderLen then .error .headerTruncated
  else
    let hdr := r.take segHeaderLen
    if slice hdr 0 2 ≠ [0x54, 0x34] ∨ slice hdr 3 4 ≠ [0x0a] then .error .badMagic
    else
      let version := ofBigEndian (slice hdr 2 3)
      if version < 1 ∨ version > walFormatVersion then .error (.unsupportedVersion version)
      else .ok (version, r.drop segHeaderLen)

/-- The loop of `ReadAll`. It ends at the first frame that is cut short or damaged; the
damage is only logged. -/
def readAllLoop (version : Nat) : Nat → Bytes → List Entry
  | 0, _ => []
  | fuel + 1, r =>
    match readEntryVersion r version with
    | .entry e rest => e :: readAllLoop version fuel rest
    | _ => []

def readAll (version : Nat) (r : Bytes) : List Entry := readAllLoop version r.length r

/-- The entries of a file, or none if its header is unreadable. -/
def segmentEntries (r : Bytes) : List Entry :=
  match newSegmentReader r with
  | .ok (version, body) => readAll version body
  | .error _ => []

/-- The contents of the segment files, in the order of their names. -/
def localSegments (dir : WalDir) : List Bytes := dir.entries.map (fun e => e.2.bytes)

def maxSequence (dir : WalDir) : Int :=
  ((localSegments dir).flatMap segmentEntries).foldl (fun seq e => max seq e.sequence) 0

/-! ## Reading back what was written -/

theorem length_segHeader (term : Nat) (firstRev : Int) :
    (segHeader term firstRev).length = segHeaderLen := by
  simp [segHeader, segMagic, segHeaderLen]

/-- A header in front of a body is found whole, with its magic and version. -/
theorem segHeader_append (term : Nat) (firstRev : Int) (body : Bytes) :
    segHeaderLen ≤ (segHeader term firstRev ++ body).length ∧
      (segHeader term firstRev ++ body).take segHeaderLen = segHeader term firstRev ∧
      (segHeader term firstRev ++ body).drop segHeaderLen = body ∧
      slice (segHeader term firstRev) 0 2 = [0x54, 0x34] ∧
      slice (segHeader term firstRev) 3 4 = [0x0a] ∧
      ofBigEndian (slice (segHeader term firstRev) 2 3) = walFormatVersion := by
  have length := length_segHeader term firstRev
  refine ⟨?_, take_left' length, drop_left' length, rfl, rfl, rfl⟩
  rw [length_append, length]
  omega

theorem newSegmentReader_segHeader (term : Nat) (firstRev : Int) (body : Bytes) :
    newSegmentReader (segHeader term firstRev ++ body) = .ok (walFormatVersion, body) := by
  obtain ⟨long, front, back, magic, suffix, version⟩ := segHeader_append term firstRev body
  unfold newSegmentReader
  rw [if_neg (not_lt.mpr long), front, back]
  simp [magic, suffix, version, walFormatVersion]

theorem newSegmentReader_torn {r : Bytes} (short : r.length < segHeaderLen) :
    newSegmentReader r = .error .headerTruncated := by
  rw [newSegmentReader, if_pos short]

/-- Entries as the write path makes them: their fields have their machine types and the
identity is set, so that a frame carries all of them. -/
structure Framed (e : Entry) : Prop where
  typed : e.WellTyped
  identified : e.id ≠ 0

instance (e : Entry) : Decidable (Framed e) :=
  decidable_of_iff (e.WellTyped ∧ e.id ≠ 0)
    ⟨fun ⟨typed, identified⟩ => ⟨typed, identified⟩,
    fun ⟨typed, identified⟩ => ⟨typed, identified⟩⟩

/-- Bytes that hold no complete frame. -/
def Torn (bytes : Bytes) : Prop :=
  ∀ e rest, readEntryVersion bytes walFormatVersion ≠ .entry e rest

theorem torn_nil : Torn [] := by
  intro e rest read
  cases read

theorem length_frames_cons (e : Entry) (es : List Entry) :
    (frames (e :: es)).length = (appendEntry e).length + (frames es).length := by
  simp [frames]

theorem frames_append (es es' : List Entry) : frames (es ++ es') = frames es ++ frames es' := by
  simp [frames]

variable {es : List Entry} {torn : Bytes}

theorem readAllLoop_frames (framed : ∀ e ∈ es, Framed e) (ends : Torn torn) {fuel : Nat}
    (enough : es.length ≤ fuel) : readAllLoop walFormatVersion fuel (frames es ++ torn) = es := by
  induction es generalizing fuel with
  | nil =>
    cases fuel with
    | zero => rfl
    | succ fuel =>
      rw [readAllLoop, show frames [] ++ torn = torn from rfl]
      split
      · rename_i e rest read
        exact absurd read (ends e rest)
      · rfl
  | cons e es ih =>
    rw [length_cons] at enough
    obtain ⟨fuel, rfl⟩ : ∃ n, fuel = n + 1 := ⟨fuel - 1, by omega⟩
    have first := framed e (by simp)
    have regroup : frames (e :: es) ++ torn = appendEntry e ++ (frames es ++ torn) := by
      simp [frames]
    have later := ih (fun other mem => framed other (mem_cons_of_mem _ mem))
      (Nat.le_of_succ_le_succ enough)
    rw [readAllLoop, regroup, readEntryVersion_appendEntry first.typed,
      Entry.canonical_of_id first.identified]
    exact congrArg (e :: ·) later

theorem length_le_frames (es : List Entry) : es.length ≤ (frames es).length := by
  induction es with
  | nil => exact le_rfl
  | cons e es ih =>
    rw [length_frames_cons, length_cons, length_appendEntry]
    omega

theorem readAll_frames (framed : ∀ e ∈ es, Framed e) (ends : Torn torn) :
    readAll walFormatVersion (frames es ++ torn) = es := by
  refine readAllLoop_frames framed ends ?_
  rw [length_append]
  exact (length_le_frames es).trans (Nat.le_add_right _ _)

theorem take_frames (framed : ∀ e ∈ es, Framed e) (n : Nat) :
    ∃ j torn, j ≤ es.length ∧ (frames es).take n = frames (es.take j) ++ torn ∧ Torn torn ∧
      ((frames es).length ≤ n → j = es.length ∧ torn = []) := by
  induction es generalizing n with
  | nil => exact ⟨0, [], le_rfl, by simp [frames], torn_nil, fun _ => ⟨rfl, rfl⟩⟩
  | cons e es ih =>
    have first := framed e (by simp)
    have regroup : frames (e :: es) = appendEntry e ++ frames es := by simp [frames]
    rcases Nat.lt_or_ge n (appendEntry e).length with short | whole
    · refine ⟨0, (appendEntry e).take n, by simp, ?_, ?_, ?_⟩
      · rw [regroup, take_append_of_le_length short.le]
        rfl
      · intro other rest read
        have cut := readEntryVersion_torn first.typed (List.take_prefix n (appendEntry e))
          (by rw [length_take]; omega) walFormatVersion
        rw [cut] at read
        cases read
      · intro all
        rw [length_frames_cons] at all
        omega
    · obtain ⟨j, torn, bound, split, ends, complete⟩ :=
        ih (fun other mem => framed other (mem_cons_of_mem _ mem))
          (n - (appendEntry e).length)
      refine ⟨j + 1, torn, by simpa using bound, ?_, ends, ?_⟩
      · rw [regroup, take_append, take_of_length_le whole, split, take_succ_cons]
        simp [frames]
      · intro all
        rw [length_frames_cons] at all
        obtain ⟨last, clean⟩ := complete (by omega)
        exact ⟨by simp [last], clean⟩

/-- **Reading a segment** yields the entries whose frames are complete. -/
theorem segmentEntries_frames (framed : ∀ e ∈ es, Framed e) (ends : Torn torn) (term : Nat)
    (firstRev : Int) : segmentEntries (segHeader term firstRev ++ (frames es ++ torn)) = es := by
  rw [segmentEntries, newSegmentReader_segHeader]
  exact readAll_frames framed ends

end T4.Wal
