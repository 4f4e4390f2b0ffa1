import T4.Remote.Replay
import T4.Wal.Reader

/-!
# Downloads that break off

`replayRemote` and `replayPinned` of `wal_replay.go` over object reads that may fail in the
middle. Both log the error of `ReadAll` and go on with the entries in front of it, so the
entries that they take from a stream depend on its bytes alone (`entries_eq`): a download
that breaks off behind the segment header is replayed as a shorter segment.
-/

namespace T4.Remote

open Lib Bytes Wal Mvcc Recovery List

/-! ## The replays -/

/-- What the replays report of an error of `NewSegmentReader`. -/
def segmentError : OpenError → SegmentError
  | .header _ => .headerTruncated
  | .badMagic _ => .badMagic
  | .unsupportedVersion version => .unsupportedVersion version

/-- `NewSegmentReader` and `ReadAll` as the replays call them: the error of `ReadAll` is only
logged. -/
def entries (rc : Source) : Except RemoteError (List Entry) :=
  match rc.newSegmentReader with
  | .error err => .error (.segment (segmentError err))
  | .ok sr => .ok sr.readAll.1

namespace Streams

def readSegments : List (SegmentName × Source) → Except RemoteError (List (Nat × List Entry))
  | [] => .ok []
  | (key, rc) :: rest =>
    match entries rc with
    | .error err => .error err
    | .ok es =>
      match readSegments rest with
      | .error err => .error err
      | .ok later => .ok (((ofLex key).1, es) :: later)

def replayRemote (db : Store) (objects : List (SegmentName × Source)) (afterSeq : Int) :
    Except RemoteError Store :=
  match readSegments objects with
  | .error err => .error err
  | .ok segments => replayEntries db (objects.map Prod.fst) afterSeq segments

end Streams

/-! ## What is read of a stream -/

theorem readAllLoop_source {data : Bytes} {ends : IoError} {version fuel fuel' : Nat}
    (enough : data.length < fuel) (enough' : data.length ≤ fuel') :
    (SegmentReader.readAllLoop version fuel ⟨data, ends⟩).1 =
      readAllLoop version fuel' data := by
  induction fuel generalizing data fuel' with
  | zero => exact absurd enough (Nat.not_lt_zero _)
  | succ fuel ih =>
    cases read : readEntryVersion data version with
    | entry e rest =>
      obtain ⟨frame, -, rfl, long⟩ := soundFrame_of_readEntryVersion read
      rw [length_append] at enough enough'
      obtain ⟨fuel', rfl⟩ : ∃ k, fuel' = k + 1 := ⟨fuel' - 1, by omega⟩
      rw [SegmentReader.readAllLoop_entry read, readAllLoop, read]
      exact congrArg (e :: ·) (ih (by omega) (by omega))
    | eof | error =>
      have nothing : readAllLoop version fuel' data = [] := by
        cases fuel' with
        | zero => rfl
        | succ fuel' => rw [readAllLoop, read]
      rw [nothing]
      by_cases tiny : data.length < 8 <;> cases ends <;>
        simp only [SegmentReader.readAllLoop, readEntryVersion_eq, read, tiny, if_true, if_false]

theorem entries_eq (data : Bytes) (ends : IoError) :
    entries ⟨data, ends⟩ =
      match newSegmentReader data with
      | .error err => .error (.segment err)
      | .ok (version, body) => .ok (readAll version body) := by
  unfold entries Source.newSegmentReader Source.readFull newSegmentReader
  by_cases short : data.length < segHeaderLen
  · have missing : ¬ segHeaderLen ≤ data.length := not_le.mpr short
    simp only [if_pos short, if_neg missing]
    by_cases ended : ends = .eof ∧ data ≠ []
    · simp only [if_pos ended, segmentError]
    · simp only [if_neg ended, segmentError]
  · simp only [if_neg short, if_pos (not_lt.mp short)]
    split_ifs
    · rfl
    · rfl
    · exact congrArg Except.ok (readAllLoop_source (Nat.lt_succ_self _) le_rfl)

/-- Over complete downloads the replay is that of the objects. -/
theorem Streams.replayRemote_complete (db : Store) (objects : WalObjects) (afterSeq : Int) :
    Streams.replayRemote db (objects.entries.map (fun o => (o.1, ⟨o.2, .eof⟩))) afterSeq =
      Remote.replayRemote db objects afterSeq := by
  have segments : ∀ os : List (SegmentName × Bytes),
      Streams.readSegments (os.map (fun o => (o.1, ⟨o.2, .eof⟩))) = Remote.readSegments os := by
    intro os
    induction os with
    | nil => rfl
    | cons o rest ih =>
      rw [map_cons, Streams.readSegments, entries_eq, ih, Remote.readSegments]
      cases newSegmentReader o.2 <;> rfl
  rw [Streams.replayRemote, Remote.replayRemote, segments, map_map]
  rfl

/-- An object, and where the read of it fails with which error. -/
structure Download where
  object : Bytes
  failure : Option (Nat × Bytes) := none

namespace Download

def stream (d : Download) : Source :=
  match d.failure with
  | none => ⟨d.object, .eof⟩
  | some (delivered, message) => ⟨d.object.take delivered, .other message⟩

/-- The read that does not fail. -/
def complete (d : Download) : Source := ⟨d.object, .eof⟩

/-- The entries of the object that did not arrive. -/
def missing (d : Download) : List Entry :=
  match entries d.stream, entries d.complete with
  | .ok es, .ok all => all.drop es.length
  | _, _ => []

end Download

def streams (objects : List (SegmentName × Download)) : List (SegmentName × Source) :=
  objects.map (fun p => (p.1, p.2.stream))

end T4.Remote
