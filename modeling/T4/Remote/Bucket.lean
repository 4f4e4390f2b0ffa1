import T4.Remote.Model

/-!
# Opening a bucket

The segments in a bucket hold the end of the log, each named after its first entry. The
checkpoint that the manifest names covers at least what was deleted before them. On such
a bucket `openBucket` yields the store of the whole log, and what `GCSegments` chooses is
covered.
-/

namespace T4.Remote

open Lib Bytes SortedMap Wal Mvcc Recovery List

/-! ## Named segments -/

/-- Segments that follow `count` entries, each named after its first entry. -/
def Named (count : Nat) : List Closed → Prop
  | [] => True
  | c :: rest => c.firstRev = count + 1 ∧ Named (count + c.entries.length) rest

theorem logOf_cons (c : Closed) (rest : List Closed) :
    logOf (c :: rest) = c.entries ++ logOf rest := by
  simp [logOf]

theorem logOf_append (first second : List Closed) :
    logOf (first ++ second) = logOf first ++ logOf second := by
  simp [logOf]

variable {count : Nat} {segments : List Closed}

theorem named_append {first second : List Closed} :
    Named count (first ++ second) ↔
      Named count first ∧ Named (count + (logOf first).length) second := by
  induction first generalizing count with
  | nil => simp [Named, logOf]
  | cons c rest ih =>
    rw [cons_append, Named, Named, ih, logOf_cons, length_append, and_assoc,
      Nat.add_assoc]

theorem Named.le (named : Named count segments) (valid : ∀ c ∈ segments, c.Valid) :
    ∀ c ∈ segments, c.firstRev ≤ count + (logOf segments).length := by
  induction segments generalizing count with
  | nil => simp
  | cons first rest ih =>
    have some_ := length_pos_of_ne_nil (valid first (by simp)).nonempty
    have later := ih named.2 (fun c mem => valid c (mem_cons_of_mem _ mem))
    rw [logOf_cons, length_append]
    intro c mem
    rcases mem_cons.mp mem with rfl | mem
    · have := named.1
      omega
    · have := later c mem
      omega

/-- `GCSegments` chooses segments from the front, all of whose entries are covered. -/
theorem doomedSegments_eq (named : Named count segments) (seq : Int) :
    ∃ j, doomedSegments seq ((segments.map object).map Prod.fst) =
        ((segments.take j).map object).map Prod.fst ∧
      (0 < j → ((count + (logOf (segments.take j)).length : Nat) : Int) ≤ seq) := by
  induction segments generalizing count with
  | nil => exact ⟨0, rfl, fun pos => absurd pos (lt_irrefl 0)⟩
  | cons c rest ih =>
    cases rest with
    | nil => exact ⟨0, rfl, fun pos => absurd pos (lt_irrefl 0)⟩
    | cons next rest =>
      obtain ⟨j, doomed, covered⟩ := ih named.2
      have bound : (ofLex (object next).1).2 - 1 = count + c.entries.length := by
        have first := named.2.1
        rw [object, segmentName, ofLex_toLex, first]
        omega
      rw [map_cons, map_cons, map_cons, map_cons, doomedSegments, bound]
      rw [map_cons, map_cons] at doomed
      split
      · rename_i ends
        refine ⟨j + 1, ?_, ?_⟩
        · rw [doomed]
          rfl
        · intro _
          rw [take_succ_cons, logOf_cons, length_append]
          rcases Nat.eq_zero_or_pos j with rfl | pos
          · simpa [logOf] using ends
          · have := covered pos
            omega
      · rename_i beyond
        -- The segments that follow end even later.
        rcases Nat.eq_zero_or_pos j with rfl | pos
        · exact ⟨0, doomed, fun pos => absurd pos (lt_irrefl 0)⟩
        · have := covered pos
          omega

/-! ## Checkpoints -/

/-- The checkpoint of the first `n` entries of the log. -/
structure CheckpointOf (logged : List Entry) (c : Checkpoint) (n : Nat) : Prop where
  term : c.term = Recovery.term
  upTo : n ≤ logged.length
  content : ∃ batches : List (List Entry), batches.flatten = logged.take n ∧
    c.db = (applyAll Store.empty batches).db
  revision : c.revision = revisionOf (logged.take n)

theorem CheckpointOf.append {logged : List Entry} {c : Checkpoint} {n : Nat}
    (isCheckpoint : CheckpointOf logged c n) (batch : List Entry) :
    CheckpointOf (logged ++ batch) c n := by
  have front : (logged ++ batch).take n = logged.take n :=
    take_append_of_le_length isCheckpoint.upTo
  refine ⟨isCheckpoint.term, ?_, ?_, ?_⟩
  · have := isCheckpoint.upTo
    rw [length_append]
    omega
  · rw [front]
    exact isCheckpoint.content
  · rw [front]
    exact isCheckpoint.revision

/-- The checkpoint that a node opened on the bucket starts from has the first `covered`
entries. -/
def Restorable (b : Bucket) (logged : List Entry) (covered : Nat) : Prop :=
  b.manifest = none ∧ covered = 0 ∨
    ∃ c, b.manifest = some c.manifest ∧
      b.checkpoints.get (checkpointKey c.term c.revision) = some c ∧
      CheckpointOf logged c covered

theorem Restorable.append {b : Bucket} {logged : List Entry} {covered : Nat}
    (restorable : Restorable b logged covered) (batch : List Entry) (wal : WalObjects) :
    Restorable { b with wal } (logged ++ batch) covered := by
  rcases restorable with fresh | ⟨c, named, found, isCheckpoint⟩
  · exact Or.inl fresh
  · exact Or.inr ⟨c, named, found, isCheckpoint.append batch⟩

/-! ## Open -/

theorem Restorable.restoreLatest {b : Bucket} {logged : List Entry} {covered : Nat}
    (restorable : Restorable b logged covered) (recorded : Recorded logged) :
    ∃ o batches, Remote.restoreLatest b = .ok o ∧ o.term = term ∧ o.firstRev = covered + 1 ∧
      o.nextSeq = covered ∧ batches.flatten = logged.take covered ∧
      o.store = applyAll Store.empty batches ∧
      ∀ m ∈ b.manifest, m.revision = revisionOf (logged.take covered) := by
  rcases restorable with ⟨none, rfl⟩ | ⟨c, named, found, isCheckpoint⟩
  · have loaded : loadMeta SortedMap.empty = Store.empty :=
      Store.represents_empty.loadMeta Recorded.nil
    refine ⟨openWal term SortedMap.empty, [], ?_, rfl, ?_, ?_, rfl, loaded, ?_⟩
    · rw [Remote.restoreLatest, none]
    · rw [openWal, loaded]
      rfl
    · rw [openWal, loaded]
      rfl
    · rw [none]
      simp
  · obtain ⟨batches, flat, content⟩ := isCheckpoint.content
    have recordedFront : Recorded batches.flatten :=
      flat ▸ recorded.of_prefix (List.take_prefix _ _)
    have loaded : loadMeta c.db = applyAll Store.empty batches := by
      rw [content]
      exact recordedFront.loadMeta
    have lastSeq : (applyAll Store.empty batches).lastSeq = covered := by
      rw [recordedFront.lastSeq, flat, length_take, min_eq_left isCheckpoint.upTo]
    refine ⟨openWal c.term c.db, batches, ?_, isCheckpoint.term, ?_, ?_, flat, loaded, ?_⟩
    · rw [Remote.restoreLatest, named]
      simp only [restore, Checkpoint.manifest, found]
    · rw [openWal, loaded, lastSeq]
    · rw [openWal, loaded, lastSeq]
    · rw [named]
      rintro m ⟨⟩
      exact isCheckpoint.revision

/-- **Opening the bucket** yields the store of the whole log. -/
theorem openBucket_eq {b : Bucket} {logged dropped : List Entry} {covered : Nat}
    (restorable : Restorable b logged covered) (recorded : Recorded logged)
    (fits : (logged.length : Int) < maxInt64) (listing : b.wal.entries = segments.map object)
    (valid : ∀ c ∈ segments, c.Valid) (whole : dropped ++ logOf segments = logged)
    (collected : dropped.length ≤ covered) (upTo : covered ≤ logged.length) :
    ∃ o batches, openBucket b = .ok o ∧ o.term = term ∧ o.firstRev = covered + 1 ∧
      batches.flatten = logged ∧ o.store = applyAll Store.empty batches := by
  obtain ⟨o, kept, restores, isTerm, first, nextSeq, flat, store, revision⟩ :=
    restorable.restoreLatest recorded
  have split : kept.flatten ++ logged.drop covered = logged := by
    rw [flat, take_append_drop]
  have recordedAll : Recorded (kept.flatten ++ logged.drop covered) := split.symm ▸ recorded
  have recordedKept := recordedAll.of_append
  have length : kept.flatten.length = covered := by
    rw [flat, length_take, min_eq_left upTo]
  have lastSeq : (applyAll Store.empty kept).lastSeq = (kept.flatten.length : Int) :=
    recordedKept.lastSeq
  have replays : replayRemote o.store b.wal o.store.lastSeq =
      .ok (applyAll Store.empty (kept ++ [logged.drop covered])) := by
    rw [store, lastSeq, applyAll_snoc]
    refine replayRemote_eq recordedKept.represents recordedAll ?_ listing valid
      (whole.trans split.symm) ?_
    · rw [split]
      exact fits
    · rw [length]
      exact collected
  have history : (kept ++ [logged.drop covered]).flatten = logged := by
    rw [flatten_append, flatten_singleton, split]
  have recordedEnd : Recorded (kept ++ [logged.drop covered]).flatten := history.symm ▸ recorded
  have end_ : (applyAll Store.empty (kept ++ [logged.drop covered])).lastSeq = logged.length := by
    rw [recordedEnd.lastSeq, history]
  have current : ∀ m ∈ b.manifest, m.revision ≤
      (applyAll Store.empty (kept ++ [logged.drop covered])).currentRev := by
    intro m named
    rw [recordedEnd.represents.currentRev, revision m named, history, ← flat]
    conv_rhs => rw [← split, revisionOf_append]
    exact le_max_left _ _
  have loop : replayLoop b 10 o =
      .ok { o with store := applyAll Store.empty (kept ++ [logged.drop covered]) } := by
    rw [replayLoop, replays]
    cases manifest : b.manifest with
    | none => rfl
    | some m =>
      simp only []
      rw [if_pos (current m manifest)]
  refine ⟨{ o with
    store := applyAll Store.empty (kept ++ [logged.drop covered])
    nextSeq := logged.length }, kept ++ [logged.drop covered], ?_, isTerm, first, history, rfl⟩
  unfold openBucket
  simp only [restores, loop, end_, nextSeq]
  congr 2
  omega

end T4.Remote
