import T4.Lib.Lists
import T4.Lib.System
import T4.Wal.Reader

/-!
# Synchronous uploads

`AppendBatch` and `rotateSyncLocked` of `internal/wal/wal.go` in sync-upload mode. A call
appends its batch to the active segment and uploads the segment as a whole. If the upload
fails, the batch is truncated away and the call fails; if it succeeds, the next segment is
opened under the sequence that follows and the old file is removed.

Between two calls the active segment holds no entries, so the age rotation, which passes
over empty segments, never acts. `SyncInv` says so, and that the objects, sorted by name,
hold the frames of the acknowledged entries in order.
-/

namespace T4.Wal

open Lib Bytes Text List

/-- The key of the object of a segment: `ObjectKey`. -/
def objectKey (term : Nat) (firstRev : Int) : Bytes :=
  ascii "wal/" ++ padDecimal 10 term ++ [slash] ++ padDecimal 20 firstRev

/-- A WAL in sync-upload mode, with its directory and the bucket. -/
structure SyncWal where
  term : Nat
  disk : Disk
  active : SegmentWriter
  objects : SortedMap Bytes Bytes := SortedMap.empty
  closed : Bool := false
  deriving DecidableEq

inductive AppendError
  | cancelled
  | closed
  | upload
  deriving DecidableEq

/-- A call of `AppendBatch`: whether its context is done, and whether the upload, if it comes
to one, stores the file. -/
structure Call where
  entries : List Entry
  cancelled : Bool := false
  uploads : Bool := true

namespace SyncWal

/-- `Open`. -/
def openAt (disk : Disk) (term : Nat) (startRev : Int) : SyncWal :=
  let (disk, active) := SegmentWriter.openIn disk term startRev
  { term, disk, active }

def rotateSyncLocked (w : SyncWal) (uploads : Bool) (rollbackSize rollbackEntryCount : Nat) :
    Option AppendError × SyncWal :=
  let seg := w.active
  if seg.entryCount = 0 then (none, w)
  else
    let nextRev := wrap (seg.firstRev + seg.entryCount)
    let objKey := objectKey seg.term seg.firstRev
    if uploads then
      let objects := w.objects.insert objKey (w.disk.content seg.path)
      let (disk, active) := SegmentWriter.openIn w.disk w.term nextRev
      (none, { w with disk := disk.remove seg.path, active, objects })
    else
      let (disk, active) := seg.rollback w.disk rollbackSize rollbackEntryCount
      (some .upload, { w with disk, active })

def appendBatch (w : SyncWal) (call : Call) : Option AppendError × SyncWal :=
  if call.cancelled then (some .cancelled, w)
  else if w.closed then (some .closed, w)
  else
    let (disk, active) := w.active.appendAll w.disk call.entries
    rotateSyncLocked { w with disk, active } call.uploads w.active.size w.active.entryCount

end SyncWal

structure SyncRun where
  wal : SyncWal
  accepted : List Entry := []

def SyncRun.after (s : SyncRun) (call : Call) : SyncRun where
  wal := (s.wal.appendBatch call).2
  accepted :=
    if (s.wal.appendBatch call).1 = none then s.accepted ++ call.entries else s.accepted

def syncSystem (disk : Disk) (term : Nat) (start : Int) : System SyncRun Call where
  init s := s = ⟨SyncWal.openAt disk term start, []⟩
  step s call := some (s.after call)

/-- A successful call continues the sequences of the successful calls before it. -/
def Continues (start : Int) (s : SyncRun) (call : Call) : Prop :=
  (s.wal.appendBatch call).1 = none → ∀ (i : Nat) (e : Entry), call.entries[i]? = some e →
    IsInt64 e.sequence ∧ e.sequence = start + s.accepted.length + i

/-! ## Names -/

theorem objectKey_lt_iff (term : Nat) {x y : Int} (nonnegX : 0 ≤ x) (nonnegY : 0 ≤ y)
    (fitsX : IsInt64 x) (fitsY : IsInt64 y) : objectKey term x < objectKey term y ↔ x < y := by
  obtain ⟨x, rfl⟩ := Int.eq_ofNat_of_zero_le nonnegX
  obtain ⟨y, rfl⟩ := Int.eq_ofNat_of_zero_le nonnegY
  have boundX : x < 10 ^ 20 := by
    have := fitsX.2
    omega
  have boundY : y < 10 ^ 20 := by
    have := fitsY.2
    omega
  have digits := padDecimal_append_lt_iff (by decide) boundX boundY [] []
  rw [append_nil, append_nil] at digits
  rw [objectKey, objectKey, append_left_lt_iff, digits]
  simp

theorem segmentFileName_ne (term : Nat) {x y : Int} (nonneg : 0 ≤ x) (fitsX : IsInt64 x)
    (fitsY : IsInt64 y) (other : x < y ∨ y < 0) :
    segmentFileName term y ≠ segmentFileName term x := by
  intro same
  have digits : padDecimal 20 y = padDecimal 20 x := by
    simpa [segmentFileName] using same
  rcases other with less | negative
  · have keys := (objectKey_lt_iff term nonneg (by omega) fitsX fitsY).mpr less
    rw [objectKey, objectKey, digits] at keys
    exact lt_irrefl _ keys
  · obtain ⟨x, rfl⟩ := Int.eq_ofNat_of_zero_le nonneg
    exact padDecimal_ne_of_neg negative digits

/-! ## One call -/

def freshWriter (term : Nat) (firstRev : Int) : SegmentWriter :=
  { path := segmentFileName term firstRev, term := term, firstRev := firstRev
    offset := segHeaderLen, size := segHeaderLen }

/-- The first sequence of the segment that is active after `count` acknowledged entries. -/
def activeRev (start : Int) (count : Nat) : Int := wrap (start + count)

theorem isInt64_activeRev (start : Int) (count : Nat) : IsInt64 (activeRev start count) :=
  isInt64_wrap _

/-- The objects hold the acknowledged entries and the active segment holds none. -/
structure SyncInv (term : Nat) (start : Int) (s : SyncRun) : Prop where
  sameTerm : s.wal.term = term
  running : s.wal.closed = false
  writer : s.wal.active = freshWriter term (activeRev start s.accepted.length)
  file : s.wal.disk.get (segmentFileName term (activeRev start s.accepted.length)) =
    some (segHeader term (activeRev start s.accepted.length))
  objects : ∃ parts : List (Int × List Entry),
    s.wal.objects.entries =
      parts.map (fun p => (objectKey term p.1, segHeader term p.1 ++ frames p.2)) ∧
    parts.flatMap Prod.snd = s.accepted ∧
    ∀ p ∈ parts, IsInt64 p.1 ∧ start ≤ p.1 ∧ p.1 < start + s.accepted.length

def SyncWal.uploaded (w : SyncWal) (firstRev : Int) (entries : List Entry) : SyncWal :=
  let path := segmentFileName w.term firstRev
  let nextRev := wrap (firstRev + entries.length)
  let file := segHeader w.term firstRev ++ frames entries
  { w with
    disk := ((w.disk.insert path file).insert (segmentFileName w.term nextRev)
      (segHeader w.term nextRev)).erase path
    active := freshWriter w.term nextRev
    objects := w.objects.insert (objectKey w.term firstRev) file }

variable {disk : Disk} {term : Nat} {start : Int} {s : SyncRun} {call : Call}

theorem SyncInv.holds (inv : SyncInv term start s) : s.wal.active.Holds s.wal.disk
    (segHeader term (activeRev start s.accepted.length)) := by
  rw [inv.writer]
  exact ⟨inv.file, (length_segHeader _ _).symm, (length_segHeader _ _).symm⟩

theorem SyncInv.appendBatch_cases (inv : SyncInv term start s) (call : Call) :
    (s.wal.appendBatch call).1 ≠ none ∧ (s.wal.appendBatch call).2 = s.wal ∨
    call.entries = [] ∧ s.wal.appendBatch call = (none, s.wal) ∨
    call.entries ≠ [] ∧ s.wal.appendBatch call =
      (none, s.wal.uploaded (activeRev start s.accepted.length) call.entries) := by
  have appended := inv.holds.appendAll call.entries
  have undone := inv.holds.rollback_appendAll call.entries
  by_cases cancelled : call.cancelled = true
  · left
    rw [SyncWal.appendBatch, if_pos cancelled]
    exact ⟨by rintro ⟨⟩, rfl⟩
  have counted : (s.wal.active.appendAll s.wal.disk call.entries).2.entryCount =
      call.entries.length := by
    rw [appended, SegmentWriter.advanced, inv.writer]
    exact Nat.zero_add _
  rw [SyncWal.appendBatch, if_neg cancelled, if_neg (by rw [inv.running]; decide)]
  unfold SyncWal.rotateSyncLocked
  by_cases empty : call.entries = []
  · -- an empty batch leaves the segment empty, which is not uploaded
    right; left
    refine ⟨empty, ?_⟩
    rw [empty, length_nil] at counted
    simp only [empty, if_pos counted]
    rfl
  · have full : ¬ (s.wal.active.appendAll s.wal.disk call.entries).2.entryCount = 0 := by
      rw [counted, length_eq_zero_iff]
      exact empty
    simp only [if_neg full]
    by_cases uploads : call.uploads = true
    · right; right
      refine ⟨empty, ?_⟩
      simp only [if_pos uploads, counted]
      simp only [appended, SegmentWriter.advanced, SegmentWriter.openIn_eq, Disk.content_insert,
        Disk.remove]
      simp only [SyncWal.uploaded, inv.writer, inv.sameTerm, freshWriter]
    · left
      simp only [if_neg uploads, undone]
      exact ⟨by rintro ⟨⟩, trivial⟩

/-- The sequence of the last entry of a batch is a 64-bit number, and so is the name of the
segment that the batch went to. -/
theorem Continues.fits (continues : Continues start s call) (nonneg : 0 ≤ start)
    (accepted : (s.wal.appendBatch call).1 = none) (some : call.entries ≠ []) :
    start + s.accepted.length + call.entries.length ≤ 2 ^ 63 ∧
      activeRev start s.accepted.length = start + s.accepted.length := by
  have positive := length_pos_of_ne_nil some
  obtain ⟨last, isLast⟩ : ∃ last, call.entries[call.entries.length - 1]? = Option.some last :=
    ⟨_, getElem?_eq_getElem (by omega)⟩
  obtain ⟨fits, sequence⟩ := continues accepted _ last isLast
  have upper := fits.2
  refine ⟨by omega, wrap_of_isInt64 ⟨by omega, by omega⟩⟩

theorem activeRev_next (nonneg : 0 ≤ start) {count more : Nat} (some : 0 < more)
    (fits : start + count + more ≤ 2 ^ 63) :
    wrap (start + count + more) = activeRev start (count + more) ∧
      (start + count < activeRev start (count + more) ∨ activeRev start (count + more) < 0) := by
  have sum : start + ((count + more : Nat) : Int) = start + count + more := by
    push_cast
    ring
  unfold activeRev
  rw [sum]
  refine ⟨rfl, ?_⟩
  unfold wrap int64 uint64
  split <;> omega

theorem SyncInv.after (nonneg : 0 ≤ start) (inv : SyncInv term start s)
    (continues : Continues start s call) : SyncInv term start (s.after call) := by
  rcases inv.appendBatch_cases call with ⟨failed, same⟩ | ⟨empty, same⟩ | ⟨full, uploaded⟩
  · have unchanged : s.after call = s := by
      rw [SyncRun.after, same, if_neg failed]
    rw [unchanged]
    exact inv
  · have unchanged : s.after call = s := by
      rw [SyncRun.after, same, if_pos rfl, empty, append_nil]
    rw [unchanged]
    exact inv
  · obtain ⟨fits, isRev⟩ := continues.fits nonneg (by rw [uploaded]) full
    obtain ⟨isNext, apart⟩ := activeRev_next nonneg (length_pos_of_ne_nil full) fits
    have grown : (s.after call).accepted = s.accepted ++ call.entries := by
      rw [SyncRun.after, uploaded, if_pos rfl]
    have count : (s.after call).accepted.length = s.accepted.length + call.entries.length := by
      rw [grown, length_append]
    have wal : (s.after call).wal =
        s.wal.uploaded (start + s.accepted.length) call.entries := by
      rw [SyncRun.after, uploaded, isRev]
    have isInt : IsInt64 (start + s.accepted.length) := by
      have := length_pos_of_ne_nil full
      exact ⟨by omega, by omega⟩
    obtain ⟨parts, named, whole, bounds⟩ := inv.objects
    constructor
    · rw [wal]
      exact inv.sameTerm
    · rw [wal]
      exact inv.running
    · rw [wal, count, SyncWal.uploaded, isNext, inv.sameTerm]
    · rw [wal, count]
      simp only [SyncWal.uploaded, isNext, inv.sameTerm]
      have otherName := segmentFileName_ne term (by omega) isInt (isInt64_activeRev _ _) apart
      rw [SortedMap.get_erase, if_neg otherName, SortedMap.get_insert, if_pos rfl]
    · refine ⟨parts ++ [(start + s.accepted.length, call.entries)], ?_, ?_, ?_⟩
      · rw [wal]
        simp only [SyncWal.uploaded, inv.sameTerm]
        rw [SortedMap.entries_insert_above, named, map_append]
        · rfl
        · intro object mem
          rw [named] at mem
          obtain ⟨p, part, rfl⟩ := mem_map.mp mem
          obtain ⟨fitsP, low, high⟩ := bounds p part
          exact (objectKey_lt_iff term (by omega) (by omega) fitsP isInt).mpr high
      · rw [grown, flatMap_append, whole]
        simp
      · intro p part
        have positive := length_pos_of_ne_nil full
        rw [count]
        push_cast
        rcases mem_append.mp part with old | new
        · obtain ⟨fitsP, low, high⟩ := bounds p old
          exact ⟨fitsP, low, by omega⟩
        · cases mem_singleton.mp new
          exact ⟨isInt, by omega, by omega⟩

theorem SyncInv.init (disk : Disk) (term : Nat) {start : Int} (fits : IsInt64 start) :
    SyncInv term start ⟨SyncWal.openAt disk term start, []⟩ := by
  have isStart : activeRev start 0 = start := by
    rw [activeRev, Int.natCast_zero, Int.add_zero, wrap_of_isInt64 fits]
  constructor
  · rfl
  · rfl
  · rw [length_nil, isStart, SyncWal.openAt, SegmentWriter.openIn_eq]
    rfl
  · rw [length_nil, isStart, SyncWal.openAt, SegmentWriter.openIn_eq]
    exact (SortedMap.get_insert _ _ _ _).trans (if_pos rfl)
  · exact ⟨[], rfl, rfl, nofun⟩

theorem SyncInv.objects_kept (nonneg : 0 ≤ start) (inv : SyncInv term start s)
    (continues : Continues start s call) {key old : Bytes}
    (stored : s.wal.objects.get key = some old) :
    (s.after call).wal.objects.get key = some old := by
  rcases inv.appendBatch_cases call with ⟨-, same⟩ | ⟨-, same⟩ | ⟨full, uploaded⟩
  · rw [SyncRun.after, same]
    exact stored
  · rw [SyncRun.after, same]
    exact stored
  · obtain ⟨fits, isRev⟩ := continues.fits nonneg (by rw [uploaded]) full
    have positive := length_pos_of_ne_nil full
    obtain ⟨parts, named, -, bounds⟩ := inv.objects
    have older : key < objectKey term (start + s.accepted.length) := by
      have mem := SortedMap.mem_entries_iff.mpr stored
      rw [named] at mem
      obtain ⟨p, part, isKey⟩ := mem_map.mp mem
      obtain ⟨fitsP, low, high⟩ := bounds p part
      cases isKey
      exact (objectKey_lt_iff term (by omega) (by omega) fitsP ⟨by omega, by omega⟩).mpr high
    rw [SyncRun.after, uploaded, isRev]
    simp only [SyncWal.uploaded, inv.sameTerm]
    rw [SortedMap.get_insert, if_neg older.ne]
    exact stored

/-! ## What is stored -/

/-- The entries of a file that reads to its end without an error. -/
def fileEntries (file : Bytes) : Option (List Entry) :=
  match Source.newSegmentReader ⟨file, .eof⟩ with
  | .error _ => none
  | .ok sr => if sr.readAll.2 = none then some sr.readAll.1 else none

/-- The objects in the order of their names, then the active segment. -/
def SyncWal.files (w : SyncWal) : List Bytes :=
  w.objects.entries.map Prod.snd ++ [w.disk.content w.active.path]

theorem fileEntries_segment (termFits : term < 2 ^ 64) {firstRev : Int} (revFits : IsInt64 firstRev)
    {es : List Entry} (typed : ∀ e ∈ es, e.WellTyped) :
    fileEntries (segHeader term firstRev ++ frames es) = some (es.map Entry.canonical) := by
  obtain ⟨j, bound, complete, read⟩ :=
    readAllLoop_take typed (frames es).length (Nat.lt_succ_self _)
  rw [take_length] at read
  have all : j = es.length := by
    by_contra fewer
    have last := complete j (by omega)
    have shorter : (frames (es.take (j + 1))).length ≤ (frames es).length := by
      have split : frames es = frames (es.take (j + 1)) ++ frames (es.drop (j + 1)) := by
        rw [← frames_append, take_append_drop]
      rw [split, length_append]
      omega
    omega
  rw [all, take_length] at read
  unfold fileEntries
  rw [newSegmentReader_source termFits revFits]
  simp only [SegmentReader.readAll, read, if_true]

theorem mapM_map_eq_some {α β γ : Type} {f : α → β} {g : β → Option γ} {h : α → γ} (l : List α)
    (each : ∀ a ∈ l, g (f a) = some (h a)) : (l.map f).mapM g = some (l.map h) := by
  induction l with
  | nil => rfl
  | cons a l ih =>
    have first := each a mem_cons_self
    have later := ih (fun b mem => each b (mem_cons_of_mem a mem))
    simp [first, later]

theorem SyncInv.read (termFits : term < 2 ^ 64) (inv : SyncInv term start s)
    (typed : ∀ e ∈ s.accepted, e.WellTyped) :
    ∃ read, s.wal.files.mapM fileEntries = some read ∧
      read.flatten = s.accepted.map Entry.canonical := by
  obtain ⟨parts, named, whole, bounds⟩ := inv.objects
  have active : s.wal.disk.content s.wal.active.path =
      segHeader term (activeRev start s.accepted.length) ++ frames [] := by
    rw [Disk.content_of_get inv.holds.file]
    simp [frames]
  have activeRead : fileEntries (s.wal.disk.content s.wal.active.path) = some [] := by
    rw [active, fileEntries_segment termFits (isInt64_activeRev _ _) (by simp)]
    rfl
  have objectsRead : (s.wal.objects.entries.map Prod.snd).mapM fileEntries =
      some (parts.map (fun p => p.2.map Entry.canonical)) := by
    rw [named, map_map]
    refine mapM_map_eq_some parts ?_
    intro p part
    refine fileEntries_segment termFits (bounds p part).1 ?_
    intro e mem
    exact typed e (whole ▸ mem_flatMap.mpr ⟨p, part, mem⟩)
  refine ⟨parts.map (fun p => p.2.map Entry.canonical) ++ [[]], ?_, ?_⟩
  · rw [SyncWal.files, mapM_append, objectsRead]
    simp [activeRead]
  · rw [← whole, map_flatMap, flatMap_def]
    simp

theorem SyncInv.run (nonneg : 0 ≤ start) (fits : IsInt64 start) {calls : List Call} {s : SyncRun}
    (ran : (syncSystem disk term start).run ⟨SyncWal.openAt disk term start, []⟩ calls = some s)
    (consecutive : (syncSystem disk term start).Meets (Continues start)
      ⟨SyncWal.openAt disk term start, []⟩ calls) : SyncInv term start s := by
  refine System.run_invariant ?_ (SyncInv.init disk term fits) consecutive ran
  intro s call next inv continues stepped
  cases stepped
  exact inv.after nonneg continues

/-- **Failed synchronous uploads vanish.** After every call the objects, in the order of
their names, and the active segment are made of the frames of the acknowledged entries, and
they read as these entries. No call replaces an object, and a failed call leaves the WAL
with all its files as it was. -/
theorem syncUpload_exact (disk : Disk) (termFits : term < 2 ^ 64) (nonneg : 0 ≤ start)
    (fits : IsInt64 start) {calls : List Call} {s : SyncRun}
    (ran : (syncSystem disk term start).run ⟨SyncWal.openAt disk term start, []⟩ calls = some s)
    (consecutive : (syncSystem disk term start).Meets (Continues start)
      ⟨SyncWal.openAt disk term start, []⟩ calls)
    (call : Call) (continues : Continues start s call) :
    (∃ parts : List (Int × List Entry), ∃ last : List Entry,
      (s.after call).wal.files =
        (parts ++ [((s.after call).wal.active.firstRev, last)]).map
          (fun p => segHeader term p.1 ++ frames p.2) ∧
      parts.flatMap Prod.snd ++ last = (s.after call).accepted) ∧
    ((∀ e ∈ (s.after call).accepted, e.WellTyped) →
      ∃ read, (s.after call).wal.files.mapM fileEntries = some read ∧
        read.flatten = (s.after call).accepted.map Entry.canonical) ∧
    (∀ key old, s.wal.objects.get key = some old →
      (s.after call).wal.objects.get key = some old) ∧
    ((s.wal.appendBatch call).1 ≠ none → (s.after call).wal = s.wal) := by
  have before := SyncInv.run nonneg fits ran consecutive
  have inv := before.after nonneg continues
  refine ⟨?_, inv.read termFits, fun key old => before.objects_kept nonneg continues, ?_⟩
  · obtain ⟨parts, named, whole, -⟩ := inv.objects
    refine ⟨parts, [], ?_, by rw [whole, append_nil]⟩
    rw [SyncWal.files, named, Disk.content_of_get inv.holds.file, inv.writer]
    simp [frames, freshWriter, Function.comp_def]
  · intro failed
    rcases before.appendBatch_cases call with ⟨-, same⟩ | ⟨-, accepted⟩ | ⟨-, accepted⟩
    · exact same
    · exact absurd (by rw [accepted]) failed
    · exact absurd (by rw [accepted]) failed

/-- A call whose upload fails, and the same call again. -/
theorem syncUpload_exact_retry : ∃ s : SyncRun,
    (syncSystem SortedMap.empty 1 1).run ⟨SyncWal.openAt SortedMap.empty 1 1, []⟩
      [{ entries := [sampleEntry], uploads := false }] = some s ∧
    s.accepted = [] ∧ (s.after { entries := [sampleEntry] }).accepted = [sampleEntry] ∧
    ∃ read, (s.after { entries := [sampleEntry] }).wal.files.mapM fileEntries = some read ∧
      read.flatten = [sampleEntry.canonical] := by
  have numbered : ∀ (s : SyncRun) (uploads : Bool), s.accepted = [] →
      Continues 1 s { entries := [sampleEntry], uploads := uploads } := by
    intro s uploads empty _ i e isEntry
    rw [getElem?_singleton] at isEntry
    split_ifs at isEntry with first
    cases isEntry
    rw [first, empty]
    decide
  have accepted : ((SyncRun.after ⟨SyncWal.openAt SortedMap.empty 1 1, []⟩
      { entries := [sampleEntry], uploads := false }).after { entries := [sampleEntry] }).accepted =
      [sampleEntry] := rfl
  obtain ⟨-, read, -⟩ := syncUpload_exact SortedMap.empty (by decide) (by decide) (by decide)
    (show (syncSystem SortedMap.empty 1 1).run _
      [{ entries := [sampleEntry], uploads := false }] = some _ from rfl)
    ⟨numbered _ false rfl, fun _ _ => trivial⟩ { entries := [sampleEntry] } (numbered _ true rfl)
  refine ⟨_, rfl, rfl, accepted, ?_⟩
  rw [accepted] at read
  exact read (by simpa using sampleEntry_wellTyped)

end T4.Wal
