import T4.Remote.Bucket

/-!
# Catching up behind garbage collection

A node that is behind a leader's bucket restores the checkpoint of the manifest if its
revision is below the manifest's, and replays the WAL segments from its last sequence on.
`GCSegments` has deleted segments up to a sequence. The two agree as long as every store
that lacks a deleted entry is also behind in revisions (`BucketAt.advances`): a `Compact`
entry has a sequence but does not advance the revision.
-/

namespace T4.Remote

open Lib Bytes SortedMap Wal Mvcc Recovery List

/-! ## The node that catches up -/

/-- `restoreDBIfBehindCheckpoint`. Its attempts to read the manifest again find the same
one while the bucket does not change. -/
def restoreDBIfBehindCheckpoint (b : Bucket) (db : Store) : Except RemoteError Store :=
  match b.manifest with
  | none => .ok db
  | some m =>
    if m.revision ≤ db.currentRev then .ok db
    else
      match restore b m with
      | .error err => .error err
      | .ok o => .ok o.store

/-- The restore and the replay of a resync and of a promotion. -/
def resync (b : Bucket) (db : Store) : Except RemoteError Store :=
  match restoreDBIfBehindCheckpoint b db with
  | .error err => .error err
  | .ok db => replayRemote db b.wal db.lastSeq

/-! ## The bucket of a leader -/

/-- The bucket of a leader with this log: the first entries are in no segment any more, the
next ones are in the segments, the others are not uploaded. The checkpoint covers the
first `covered` entries. -/
structure BucketAt (b : Bucket) (logged dropped : List Entry) (segments : List Closed)
    (covered : Nat) : Prop where
  recorded : Recorded logged
  fits : (logged.length : Int) < maxInt64
  listing : b.wal.entries = segments.map object
  valid : ∀ c ∈ segments, c.Valid
  uploaded : dropped ++ logOf segments <+: logged
  collected : dropped.length ≤ covered
  upTo : covered ≤ logged.length
  restorable : Restorable b logged covered
  /-- A store that lacks a deleted entry is behind the checkpoint in revisions. -/
  advances : ∀ n < dropped.length, revisionOf (logged.take n) < revisionOf (logged.take covered)

theorem lastSeq_take {logged : List Entry} (recorded : Recorded logged) {db : Store}
    {n : Nat} (upTo : n ≤ logged.length) (rep : db.Represents (logged.take n)) :
    db.lastSeq = n := by
  have front := recorded.of_prefix (List.take_prefix n logged)
  rw [rep.lastSeq, front.sequenceOf_eq, length_take, min_eq_left upTo]

theorem lt_of_revisionOf_lt {logged : List Entry} {n m : Nat}
    (less : revisionOf (logged.take n) < revisionOf (logged.take m)) : n < m := by
  by_contra notLess
  have split : logged.take n = logged.take m ++ (logged.take n).drop m := by
    conv_lhs => rw [← take_append_drop m (logged.take n)]
    rw [take_take, min_eq_left (not_lt.mp notLess)]
  rw [split, revisionOf_append] at less
  exact absurd (le_max_left _ _) (not_le.mpr less)

theorem replayRemote_of_ahead {db : Store} {objects : WalObjects} {segments : List Closed}
    (listing : objects.entries = segments.map object) (valid : ∀ c ∈ segments, c.Valid)
    {afterSeq : Int} (known : ∀ e ∈ logOf segments, e.sequence ≤ afterSeq) :
    replayRemote db objects afterSeq = .ok db := by
  have none : (logOf segments).filter (applicable afterSeq maxInt64) = [] := by
    rw [filter_eq_nil_iff]
    intro e mem
    have := known e mem
    simp only [applicable, decide_eq_true_eq]
    omega
  rw [replayRemote, listing, readSegments_eq valid]
  simp only [replayEntries, collectEntries_eq, none, if_true]

namespace BucketAt

variable {b : Bucket} {logged dropped : List Entry} {segments : List Closed} {covered : Nat}

variable {n : Nat} {db : Store}

theorem replay (holds : BucketAt b logged dropped segments covered) (lower : dropped.length ≤ n)
    (upper : n ≤ logged.length) (rep : db.Represents (logged.take n)) :
    ∃ db' k, replayRemote db b.wal db.lastSeq = .ok db' ∧ n ≤ k ∧
      db'.Represents (logged.take k) := by
  rw [lastSeq_take holds.recorded upper rep]
  obtain ⟨later, whole⟩ := holds.uploaded
  rcases le_total (dropped ++ logOf segments).length n with ahead | behind
  · refine ⟨db, n, replayRemote_of_ahead holds.listing holds.valid ?_, le_rfl, rep⟩
    intro e mem
    have recorded := holds.recorded
    rw [← whole] at recorded
    have := (recorded.of_append.sequence_le (mem_append_right _ mem)).2
    omega
  · -- What is uploaded is the store's history and the entries it lacks.
    have split : dropped ++ logOf segments =
        logged.take n ++ (dropped ++ logOf segments).drop n := by
      conv_lhs => rw [← take_append_drop n (dropped ++ logOf segments)]
      rw [← whole, take_append_of_le_length behind]
    have recorded : Recorded (logged.take n ++ (dropped ++ logOf segments).drop n) := by
      rw [← split]
      exact holds.recorded.of_prefix ⟨later, whole⟩
    have length : (logged.take n).length = n := by rw [length_take, min_eq_left upper]
    have fits : ((logged.take n ++ (dropped ++ logOf segments).drop n).length : Int) <
        maxInt64 := by
      have total := congrArg List.length whole
      have := holds.fits
      rw [← split]
      simp only [length_append] at total ⊢
      omega
    have replays := replayRemote_eq rep recorded fits holds.listing holds.valid split
      (by rw [length]; exact lower)
    obtain ⟨db', applies, rep'⟩ := rep.apply recorded.wellFormed
    rw [length, applies] at replays
    refine ⟨db', (dropped ++ logOf segments).length, replays, behind, ?_⟩
    rw [← split] at rep'
    rw [← whole, take_left']
    · exact rep'
    · rfl

theorem replay_behind (holds : BucketAt b logged dropped segments covered) {db' : Store}
    (behind : n < dropped.length) (replays : replayRemote db b.wal n = .ok db') : db' = db := by
  have recorded := holds.recorded.of_prefix holds.uploaded
  have consecutive := (consecutive_append.mp recorded.consecutive).2
  have all : (logOf segments).filter (applicable n maxInt64) = logOf segments := by
    rw [filter_eq_self]
    intro e mem
    have lower := recorded.sequence_above mem
    have upper := (recorded.sequence_le (mem_append_right _ mem)).2
    have short := holds.uploaded.length_le
    have := holds.fits
    simp only [applicable, decide_eq_true_eq]
    omega
  unfold replayRemote at replays
  rw [holds.listing, readSegments_eq holds.valid] at replays
  simp only [replayEntries, collectEntries_eq, all] at replays
  by_cases empty : logOf segments = []
  · rw [if_pos empty] at replays
    cases replays
    rfl
  · rw [if_neg empty, mergeEntries_eq consecutive] at replays
    cases hole : firstHole ((n : Int) + 1) (logOf segments) with
    | some err =>
      rw [hole] at replays
      cases replays
    | none =>
      -- The first entry is not the next one.
      have next := firstHole_eq_none_iff.mp hole
      cases log : logOf segments with
      | nil => exact absurd log empty
      | cons e rest =>
        rw [log] at next consecutive
        have := next.1
        have := consecutive.1
        omega

theorem restores (holds : BucketAt b logged dropped segments covered) {m : Manifest}
    (named : b.manifest = some m) :
    m.revision = revisionOf (logged.take covered) ∧
      ∃ o, restore b m = .ok o ∧ o.store.Represents (logged.take covered) := by
  rcases holds.restorable with ⟨none, -⟩ | ⟨c, isManifest, -⟩
  · rw [none] at named
    cases named
  · obtain ⟨o, batches, restored, -, -, -, flat, store, revision⟩ :=
      holds.restorable.restoreLatest holds.recorded
    refine ⟨revision m named, o, ?_, ?_⟩
    · rw [restoreLatest, named] at restored
      exact restored
    · rw [store, ← flat]
      exact (flat ▸ holds.recorded.of_prefix (List.take_prefix _ _)).represents

theorem lower_of_revision (holds : BucketAt b logged dropped segments covered)
    (level : revisionOf (logged.take covered) ≤ revisionOf (logged.take n)) :
    dropped.length ≤ n := by
  by_contra behind
  have := holds.advances n (by omega)
  omega

theorem lower_of_fresh (holds : BucketAt b logged dropped segments covered)
    (fresh : b.manifest = none) (n : Nat) : dropped.length ≤ n := by
  have collected := holds.collected
  rcases holds.restorable with ⟨-, rfl⟩ | ⟨c, isManifest, -⟩
  · omega
  · rw [fresh] at isManifest
    cases isManifest

/-- **A resync** goes through from every prefix. -/
theorem resyncs (holds : BucketAt b logged dropped segments covered) (upper : n ≤ logged.length)
    (rep : db.Represents (logged.take n)) :
    ∃ db' k, resync b db = .ok db' ∧ n ≤ k ∧ db'.Represents (logged.take k) := by
  unfold resync restoreDBIfBehindCheckpoint
  cases manifest : b.manifest with
  | none => exact holds.replay (holds.lower_of_fresh manifest n) upper rep
  | some m =>
    have revision := (holds.restores manifest).1
    by_cases level : m.revision ≤ db.currentRev
    · simp only [if_pos level]
      rw [revision, rep.currentRev] at level
      exact holds.replay (holds.lower_of_revision level) upper rep
    · obtain ⟨o, restored, restoredRep⟩ := (holds.restores manifest).2
      obtain ⟨db', k, replays, later, rep'⟩ := holds.replay holds.collected holds.upTo restoredRep
      simp only [if_neg level, restored]
      rw [revision, rep.currentRev, not_le] at level
      exact ⟨db', k, replays, (lt_of_revisionOf_lt level).le.trans later, rep'⟩

theorem replayLoop_restored (holds : BucketAt b logged dropped segments covered) {m : Manifest}
    (named : b.manifest = some m) {o : OpenedRemote}
    (rep : o.store.Represents (logged.take covered)) (attempts : Nat) :
    ∃ o' k, replayLoop b (attempts + 1) o = .ok o' ∧ covered ≤ k ∧
      o'.store.Represents (logged.take k) := by
  obtain ⟨db', k, replays, later, rep'⟩ := holds.replay holds.collected holds.upTo rep
  have level : m.revision ≤ db'.currentRev := by
    rw [(holds.restores named).1, rep'.currentRev]
    by_contra behind
    exact absurd (lt_of_revisionOf_lt (not_le.mp behind)) (not_lt.mpr later)
  refine ⟨{ o with store := db' }, k, ?_, later, rep'⟩
  rw [replayLoop, replays, named]
  simp only [if_pos level]

/-- **The replay loop of `Open`** goes through from every prefix. -/
theorem replayLoops (holds : BucketAt b logged dropped segments covered) {o : OpenedRemote}
    (upper : n ≤ logged.length) (rep : o.store.Represents (logged.take n)) (attempts : Nat) :
    ∃ o' k, replayLoop b (attempts + 2) o = .ok o' ∧ n ≤ k ∧
      o'.store.Represents (logged.take k) := by
  rw [replayLoop]
  cases manifest : b.manifest with
  | none =>
    obtain ⟨db', k, replays, later, rep'⟩ :=
      holds.replay (holds.lower_of_fresh manifest n) upper rep
    simp only [replays]
    exact ⟨{ o with store := db' }, k, rfl, later, rep'⟩
  | some m =>
    obtain ⟨revision, restored, restores, restoredRep⟩ := holds.restores manifest
    obtain ⟨o', k, loops, later, rep'⟩ := holds.replayLoop_restored manifest restoredRep attempts
    -- Whatever the replay yields, a store behind the checkpoint is replaced by it.
    have again : ∀ j, revisionOf (logged.take j) < m.revision → n ≤ j →
        ∃ o'' k, replayLoop b (attempts + 1) restored = .ok o'' ∧ n ≤ k ∧
          o''.store.Represents (logged.take k) := by
      intro j behind above
      rw [revision] at behind
      have := lt_of_revisionOf_lt behind
      exact ⟨o', k, loops, by omega, rep'⟩
    by_cases lower : dropped.length ≤ n
    · obtain ⟨db', j, replays, after, rep''⟩ := holds.replay lower upper rep
      simp only [replays]
      by_cases level : m.revision ≤ db'.currentRev
      · simp only [if_pos level]
        exact ⟨{ o with store := db' }, j, rfl, after, rep''⟩
      · simp only [if_neg level, restores]
        rw [rep''.currentRev, not_le] at level
        exact again j level after
    · have behind := holds.advances n (not_le.mp lower)
      rw [← revision] at behind
      have older : ¬ m.revision ≤ o.store.currentRev := by
        rw [rep.currentRev]
        exact not_le.mpr behind
      cases replayed : replayRemote o.store b.wal o.store.lastSeq with
      | error err =>
        simp only [if_neg older, restores]
        exact again n behind le_rfl
      | ok db' =>
        rw [lastSeq_take holds.recorded upper rep] at replayed
        obtain rfl := holds.replay_behind (not_le.mp lower) replayed
        simp only [if_neg older, restores]
        exact again n behind le_rfl

end BucketAt

end T4.Remote
