import T4.Lib.Disk
import T4.Lib.Text
import T4.Wal.Segment

/-!
# Writing a segment file

`SegmentWriter` of `internal/wal/segment.go`: an open file with its offset, and the size and
the number of entries that the writer counts itself.

`Holds` says that file, offset and size agree. Opening a segment establishes it
(`holds_openIn`), appending keeps it (`Holds.appendAll`), and rolling back to the size and
count before an append restores file and writer as they were (`Holds.rollback_appendAll`).
-/

namespace T4.Wal

open Lib Bytes Text

/-- The name of a segment file: `SegmentName`. -/
def segmentFileName (term : Nat) (firstRev : Int) : Bytes :=
  padDecimal 10 term ++ ascii "-" ++ padDecimal 20 firstRev ++ ascii ".wal"

structure SegmentWriter where
  path : Bytes
  term : Nat
  firstRev : Int
  /-- The offset of the open file. -/
  offset : Nat := 0
  size : Nat := 0
  entryCount : Nat := 0
  deriving DecidableEq

namespace SegmentWriter

def write (sw : SegmentWriter) (disk : Disk) (b : Bytes) : Disk × SegmentWriter :=
  (disk.writeFile sw.path sw.offset b, { sw with offset := sw.offset + b.length })

def writeHeader (sw : SegmentWriter) (disk : Disk) : Disk × SegmentWriter :=
  let (disk, sw) := sw.write disk (segHeader sw.term sw.firstRev)
  (disk, { sw with size := segHeaderLen })

/-- `OpenSegmentWriter`: create or truncate the file and write the header. -/
def openIn (disk : Disk) (term : Nat) (firstRev : Int) : Disk × SegmentWriter :=
  let path := segmentFileName term firstRev
  writeHeader { path := path, term := term, firstRev := firstRev } (disk.create path)

def appendNoSync (sw : SegmentWriter) (disk : Disk) (e : Entry) : Disk × SegmentWriter :=
  let b := appendEntry e
  let (disk, sw) := sw.write disk b
  (disk, { sw with size := sw.size + b.length, entryCount := sw.entryCount + 1 })

/-- The loop of `AppendBatch`. -/
def appendAll (sw : SegmentWriter) (disk : Disk) : List Entry → Disk × SegmentWriter
  | [] => (disk, sw)
  | e :: entries =>
    let (disk, sw) := sw.appendNoSync disk e
    sw.appendAll disk entries

/-- Truncate the file and seek to its new end. -/
def rollback (sw : SegmentWriter) (disk : Disk) (size entryCount : Nat) : Disk × SegmentWriter :=
  (disk.truncateFile sw.path size,
    { sw with offset := size, size := size, entryCount := entryCount })

/-- The file of the writer is there, the writer is at its end and knows its size. -/
structure Holds (sw : SegmentWriter) (disk : Disk) (content : Bytes) : Prop where
  file : disk.get sw.path = some content
  atEnd : sw.offset = content.length
  sized : sw.size = content.length

/-- The writer after `es` were appended. -/
def advanced (sw : SegmentWriter) (content : Bytes) (es : List Entry) : SegmentWriter :=
  { sw with
    offset := (content ++ frames es).length
    size := (content ++ frames es).length
    entryCount := sw.entryCount + es.length }

variable {sw : SegmentWriter} {disk : Disk} {content : Bytes}

theorem openIn_eq (disk : Disk) (term : Nat) (firstRev : Int) :
    openIn disk term firstRev =
      (disk.insert (segmentFileName term firstRev) (segHeader term firstRev),
        { path := segmentFileName term firstRev, term := term, firstRev := firstRev
          offset := segHeaderLen, size := segHeaderLen }) := by
  have header : writeAt [] 0 (segHeader term firstRev) = segHeader term firstRev :=
    writeAt_length [] _
  simp [openIn, writeHeader, write, Disk.create, Disk.writeFile, Disk.content_insert,
    header, SortedMap.insert_insert, length_segHeader]

theorem holds_openIn (disk : Disk) (term : Nat) (firstRev : Int) :
    (openIn disk term firstRev).2.Holds (openIn disk term firstRev).1
      (segHeader term firstRev) := by
  rw [openIn_eq]
  refine ⟨?_, (length_segHeader term firstRev).symm, (length_segHeader term firstRev).symm⟩
  rw [SortedMap.get_insert, if_pos rfl]

theorem Holds.appendNoSync (holds : sw.Holds disk content) (e : Entry) :
    sw.appendNoSync disk e =
      (disk.insert sw.path (content ++ appendEntry e),
        { sw with
          offset := content.length + (appendEntry e).length
          size := content.length + (appendEntry e).length
          entryCount := sw.entryCount + 1 }) := by
  simp only [SegmentWriter.appendNoSync, write, Disk.writeFile, Disk.content_of_get holds.file,
    holds.atEnd, holds.sized, writeAt_length]

theorem Holds.appendAll (holds : sw.Holds disk content) (es : List Entry) :
    sw.appendAll disk es =
      (disk.insert sw.path (content ++ frames es), sw.advanced content es) := by
  induction es generalizing sw disk content with
  | nil =>
    have same : content ++ frames [] = content := by simp [frames]
    simp only [SegmentWriter.appendAll, advanced, same, SortedMap.insert_of_get holds.file,
      ← holds.atEnd, List.length_nil, Nat.add_zero, Prod.mk.injEq, true_and]
    cases sw
    simp only [SegmentWriter.mk.injEq, true_and, and_true]
    exact holds.sized.trans holds.atEnd.symm
  | cons e es ih =>
    have step := holds.appendNoSync e
    have next : (sw.appendNoSync disk e).2.Holds (sw.appendNoSync disk e).1
        (content ++ appendEntry e) := by
      rw [step]
      refine ⟨?_, List.length_append.symm, List.length_append.symm⟩
      rw [SortedMap.get_insert, if_pos rfl]
    have regroup : content ++ appendEntry e ++ frames es = content ++ frames (e :: es) := by
      simp [frames]
    have later := ih next
    rw [step, regroup, SortedMap.insert_insert] at later
    simp only [SegmentWriter.appendAll, step, later, advanced, regroup, List.length_cons,
      Prod.mk.injEq, SegmentWriter.mk.injEq, true_and]
    omega

theorem Holds.rollback_appendAll (holds : sw.Holds disk content) (es : List Entry) :
    (sw.appendAll disk es).2.rollback (sw.appendAll disk es).1 sw.size sw.entryCount =
      (disk, sw) := by
  rw [holds.appendAll]
  simp only [rollback, advanced, Disk.truncateFile, Disk.content_insert, holds.sized,
    truncateTo_length,
    SortedMap.insert_insert, SortedMap.insert_of_get holds.file, Prod.mk.injEq, true_and]
  cases sw
  simp only [SegmentWriter.mk.injEq, true_and, and_true]
  exact ⟨holds.atEnd.symm, holds.sized.symm⟩

end SegmentWriter

end T4.Wal
