import T4.Recovery.Local
import T4.WritePath.Numbers

/-!
# Local crash recovery

`local_recovery`: after any crash of an undisturbed run, `Open` yields the store of a
prefix of the assigned entries that has every acknowledged one. The numbering that the
condition asks for is the one the write path gives while it loses no number
(`recorded_of_writePath`).

The two runs at the end call `SealAndFlush` between `AppendBatch` and `Apply`.
-/

namespace T4.Recovery

open Lib Bytes SortedMap Wal Mvcc List

theorem InvAt.segmentEntries {s : LocalNode} {closed : List Closed} {current : List Entry}
    {batches : List (List Entry)} (inv : InvAt s closed current batches) :
    (localSegments s.dir).flatMap segmentEntries = s.assigned := by
  have framed : ∀ e ∈ current ++ s.phase.unsynced, Framed e := by
    intro e mem
    refine inv.recorded.framed e ?_
    rw [← inv.log, append_assoc]
    exact mem_append_right _ mem
  have active := segmentEntries_frames framed torn_nil term s.firstRev
  rw [append_nil, ← activeFile_bytes] at active
  rw [localSegments, inv.listing, map_append, flatMap_append,
    flatMap_segmentEntries inv.valid, ← inv.log, append_assoc]
  simp [active]

/-- A file that holds an entry is not the one that `Open` truncates. -/
theorem Leaves.kept {dir opened : WalDir} {segments : List Closed} (leaves : Leaves dir segments)
    {last : SegmentName × SegmentFile}
    (listing : opened.entries = segments.map Closed.binding ++ [last]) {name : SegmentName}
    {file : SegmentFile} (found : dir.get name = some file)
    (filled : segmentEntries file.bytes ≠ []) : opened.get name = some file := by
  rw [← mem_entries_iff] at found ⊢
  rw [listing]
  refine mem_append_left _ ?_
  rcases leaves with plain | ⟨husk, withHusk, empty⟩
  · rwa [plain] at found
  · rw [withHusk] at found
    rcases mem_append.mp found with closed | isHusk
    · exact closed
    · cases mem_singleton.mp isHusk
      exact absurd empty filled

/-- **Local crash recovery.** In every state of an undisturbed run the WAL holds the
assigned entries. After every crash `Open` succeeds: its store has gone through a prefix
of the assigned entries with every acknowledged one, no segment with an entry was
truncated, and the next sequence is above all of the WAL. -/
theorem local_recovery {start s : LocalNode} {actions : List LocalAction}
    (fresh : localNode.init start) (meets : localNode.Meets Undisturbed start actions)
    (ran : localNode.run start actions = some s) :
    (localSegments s.dir).flatMap segmentEntries = s.assigned ∧
    ∀ keepBytes keepBatches, keepBatches < s.snapshots.length →
      ∃ o n batches, s.reopen keepBytes keepBatches = some (.ok o) ∧
        s.acked.Sublist (s.assigned.take n) ∧
        batches.flatten = s.assigned.take n ∧ o.store = applyAll Store.empty batches ∧
        (TargetsIncrease (s.assigned.take n) → ∀ split : List (List Entry),
          split.flatten = s.assigned.take n →
            ObservablyEqual o.store (applyAll Store.empty split)) ∧
        (∀ name file, (s.survivingDir keepBytes).get name = some file →
          segmentEntries file.bytes ≠ [] → o.dir.get name = some file) ∧
        ∀ name file e, o.dir.get name = some file → e ∈ segmentEntries file.bytes →
          e.sequence ≤ o.nextSeq := by
  obtain ⟨closed, current, batches, inv⟩ := LocalNode.Inv.of_run fresh meets ran
  refine ⟨inv.segmentEntries, ?_⟩
  intro keepBytes keepBatches bound
  obtain ⟨db, kept⟩ : ∃ db, s.snapshots[keepBatches]? = some db :=
    ⟨_, getElem?_eq_getElem bound⟩
  obtain ⟨o, segments, groups, opens, leaves, valid, -, front, synced, listing, -, nextSeq, history,
    store, -⟩ := inv.opens keepBytes kept
  have recorded := inv.recorded.of_prefix front
  have isTake : logOf segments = s.assigned.take (logOf segments).length :=
    prefix_iff_eq_take.mp front
  have represents : ∀ split : List (List Entry), split.flatten = logOf segments →
      (applyAll Store.empty split).Represents (logOf segments) := by
    intro split flat
    rw [← flat] at recorded ⊢
    exact recorded.represents
  refine ⟨o, (logOf segments).length, batches.take keepBatches ++ groups, ?_, ?_, ?_, store, ?_, ?_,
    ?_⟩
  · rw [LocalNode.reopen, kept, Option.map_some, opens]
  · rw [← isTake]
    exact inv.acked.trans synced.sublist
  · rw [← isTake, history]
  · rw [← isTake]
    intro increase split flat
    rw [store]
    exact (represents _ history).observablyEqual (represents split flat) recorded.wellFormed
      increase
  · intro name file found filled
    exact leaves.kept listing found filled
  · intro name file e found mem
    rw [nextSeq]
    refine (recorded.sequence_le ?_).2
    rw [← mem_entries_iff, listing] at found
    rcases mem_append.mp found with isClosed | isFresh
    · obtain ⟨c, cMem, same⟩ := mem_map.mp isClosed
      have read := (valid c cMem).segmentEntries
      rw [same] at read
      rw [read] at mem
      exact mem_flatMap.mpr ⟨c, cMem, mem⟩
    · cases mem_singleton.mp isFresh
      rw [Wal.segmentEntries, newSegmentReader_freshFile] at mem
      cases mem

/-- Two entries are acknowledged, the segment is rotated by age, and the append of two
more is under way. -/
def tornAppend : List LocalAction :=
  [.write (sampleHistory.take 2), .sync false, .apply, .ageRotate, .write (sampleHistory.drop 2)]

theorem local_recovery_tornAppend :
    ∃ s o, localNode.run freshNode tornAppend = some s ∧
      s.acked = sampleHistory.take 2 ∧ s.reopen 100 0 = some (.ok o) ∧
      ∃ n batches, s.acked.Sublist (s.assigned.take n) ∧ batches.flatten = s.assigned.take n ∧
        o.store = applyAll Store.empty batches := by
  have meets : localNode.Meets Undisturbed freshNode tornAppend :=
    .cons (sampleHistory_recorded.of_prefix (List.take_prefix 2 _)) rfl (.cons trivial rfl
      (.cons trivial rfl (.cons trivial rfl (.cons sampleHistory_recorded rfl trivial))))
  obtain ⟨s, ran, acked, kept⟩ := System.exists_of_run localNode freshNode tornAppend
    (fun s => s.acked = sampleHistory.take 2 ∧ 0 < s.snapshots.length) (by decide +kernel)
  obtain ⟨-, recovers⟩ := local_recovery rfl meets ran
  obtain ⟨o, n, batches, opens, included, flat, store, -⟩ := recovers 100 0 kept
  exact ⟨s, o, ran, acked, opens, n, batches, included, flat, store⟩

/-! ## SealAndFlush between AppendBatch and Apply -/

def putA : Entry :=
  { id := 1, revision := 1, term := 1, op := Op.create, key := [97], createRevision := 1,
    version := 1 }

def putB : Entry :=
  { id := 2, revision := 2, term := 1, op := Op.create, key := [98], createRevision := 2,
    version := 1 }

theorem putA_putB_recorded : Recorded [putA, putB] := by
  refine ⟨.snoc (h := [putA]) (.snoc (h := []) .nil ?_) ?_, ⟨rfl, rfl, trivial⟩, by decide,
    by decide⟩
  · exact ⟨by decide, by decide, fun _ => ⟨_, .single (by decide), by decide +kernel⟩⟩
  · exact ⟨by decide, by decide, fun _ => ⟨_, .single (by decide), by decide +kernel⟩⟩

/-- The first batch is appended to segment 1, and segment 1 is opened again before the
batch is applied. -/
def truncatedSegment : List LocalAction :=
  [.write [putA], .sync false, .sealAndFlush, .apply, .write [putB], .sync false, .apply]

/-- Segment 2 is opened while segment 1 holds an entry 2 that is not applied. -/
def overtakenSegment : List LocalAction :=
  [.write [putA], .sync false, .apply, .write [putB], .sync false, .sealAndFlush]

/-- A store with the second entry but not the first is not that of a prefix. -/
theorem not_observablyEqual_take {s : Store} (seq : s.lastSeq = 2) (lost : s.get [97] = .ok none)
    {n : Nat} {batches : List (List Entry)} (flat : batches.flatten = [putA, putB].take n) :
    ¬ ObservablyEqual s (applyAll Store.empty batches) := by
  intro equal
  have recorded : Recorded batches.flatten :=
    putA_putB_recorded.of_prefix (flat ▸ List.take_prefix n _)
  have sameSeq := equal.lastSeq
  have sameGet := equal.get [97]
  rw [seq, recorded.lastSeq, flat] at sameSeq
  rw [lost, recorded.represents.get recorded.wellFormed, flat] at sameGet
  rcases n with _ | _ | n
  · exact absurd sameSeq (by decide)
  · exact absurd sameSeq (by decide)
  · have all : [putA, putB].take (n + 2) = [putA, putB] := by simp
    rw [all] at sameGet
    exact absurd sameGet (by decide +kernel)

set_option maxRecDepth 2000 in
/-- The first run loses the first of two acknowledged entries and keeps the second, so
that the store is not that of any prefix; after the second run a node whose last header
was not written out does not open. -/
theorem local_recovery_counterexample :
    (∃ s o, localNode.run freshNode truncatedSegment = some s ∧ s.acked = [putA, putB] ∧
      s.assigned = [putA, putB] ∧ s.reopen 0 0 = some (.ok o) ∧
      ∀ n (batches : List (List Entry)), batches.flatten = s.assigned.take n →
        ¬ ObservablyEqual o.store (applyAll Store.empty batches)) ∧
    ∃ s, localNode.run freshNode overtakenSegment = some s ∧
      s.reopen 3 1 = some (.error (.segment .headerTruncated)) := by
  constructor
  · obtain ⟨s, ran, acked, assigned, found⟩ :=
      System.exists_of_run localNode freshNode truncatedSegment
      (fun s => s.acked = [putA, putB] ∧ s.assigned = [putA, putB] ∧
        (s.reopen 0 0).any (fun o => o.toOption.any (fun o =>
          o.store.lastSeq = 2 ∧ o.store.get [97] = .ok none))) (by decide +kernel)
    rcases opens : s.reopen 0 0 with _ | _ | o <;> rw [opens] at found <;> try cases found
    obtain ⟨seq, lost⟩ := of_decide_eq_true found
    refine ⟨s, o, ran, acked, assigned, opens, ?_⟩
    intro n batches flat
    exact not_observablyEqual_take seq lost (assigned ▸ flat)
  · obtain ⟨s, ran, reached⟩ := System.exists_of_run localNode freshNode overtakenSegment
      (fun s => (s.reopen 3 1).map (Except.map (fun _ => ())) =
        some (.error (.segment .headerTruncated))) (by decide +kernel)
    have failed := reached
    rcases opens : s.reopen 3 1 with _ | _ | o <;> rw [opens] at failed <;> cases failed
    exact ⟨s, ran, opens⟩

end T4.Recovery
