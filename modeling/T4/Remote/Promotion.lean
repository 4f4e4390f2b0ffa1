import T4.Lib.Program
import T4.Remote.CatchUp
import T4.Remote.Listing

/-!
# Promotion of a follower

`becomeLeader` and `uploadLocalWALSegments` of `leader.go`, up to the counters with which
the new leader starts. There is no local replay: entries that are in the follower's WAL
but not in its store reach the store only by being uploaded and read back. An object
that already has the segment's key, a failed upload or a segment of a later term keeps
them out, while the sequence counter starts behind them all the same.
-/

namespace T4.Remote

open Lib Bytes SortedMap Wal Mvcc Recovery List

/-! ## The promotion -/

/-- What `becomeLeader` starts from: the bucket, the follower's store and WAL directory,
and which calls to the object store succeed while segments are uploaded. -/
structure Promotion where
  bucket : Bucket
  store : Store
  walDir : WalDir
  /-- Listing the segments succeeds. -/
  lists : Bool := true
  uploads : SegmentName → Bool := fun _ => true

structure Promoted where
  store : Store
  nextSeq : Int

namespace Promotion

/-- The keys that `uploadLocalWALSegments` skips; an error of the listing is ignored. -/
def inS3 (p : Promotion) : List SegmentName :=
  if p.lists then p.bucket.wal.entries.map Prod.fst else []

def uploadLocalWALSegments (p : Promotion) : WalObjects :=
  p.walDir.entries.foldl (fun objects file =>
    if file.1 ∈ p.inS3 then objects
    else if p.uploads file.1 then objects.insert file.1 file.2.bytes
    else objects) p.bucket.wal

def becomeLeader (p : Promotion) : Except RemoteError Promoted :=
  let bucket := { p.bucket with wal := p.uploadLocalWALSegments }
  match resync bucket p.store with
  | .error err => .error err
  | .ok store => .ok { store, nextSeq := max store.lastSeq (maxSequence p.walDir) }

def localEntries (p : Promotion) : List Entry := (localSegments p.walDir).flatMap segmentEntries

/-! ## What is applied -/

def restoredKey (p : Promotion) : Option CheckpointKey :=
  match p.bucket.manifest with
  | none => none
  | some m => if m.revision ≤ p.store.currentRev then none else some m.checkpointKey

/-- The sequence from which the segments are replayed. -/
def baseSeq (p : Promotion) : Int :=
  match p.restoredKey with
  | none => p.store.lastSeq
  | some key =>
    match p.bucket.checkpoints.get key with
    | none => 0
    | some c => (loadMeta c.db).lastSeq

/-- The entries that come with the restored checkpoint, when `contents` tells what the
checkpoints were made from. -/
def restoredEntries (p : Promotion) (contents : CheckpointKey → List Entry) : List Entry :=
  (p.restoredKey.map contents).getD []

def replayedEntries (p : Promotion) : List Entry :=
  match remoteBatch p.uploadLocalWALSegments p.baseSeq with
  | .error _ => []
  | .ok batch => batch

/-- The entry is applied, or one of a higher term at its sequence. -/
def Applied (p : Promotion) (contents : CheckpointKey → List Entry) (e : Entry) : Prop :=
  ∃ a ∈ p.restoredEntries contents ++ p.replayedEntries,
    a.sequence = e.sequence ∧ (a = e ∨ e.term < a.term)

/-- Every entry of the WAL that the store lacked is applied or superseded, and the new
leader numbers its entries from the store's last sequence on. -/
def AppliesWal (p : Promotion) (contents : CheckpointKey → List Entry) (r : Promoted) : Prop :=
  (∀ e ∈ p.localEntries, p.store.lastSeq < e.sequence → p.Applied contents e) ∧
    r.nextSeq = r.store.lastSeq

/-! ## What is available -/

/-- The object under a key when the uploads are done: the local file if the key was free
and the upload succeeds, otherwise what was there. -/
def objectAfter (p : Promotion) (key : SegmentName) : Option Bytes :=
  match p.walDir.get key with
  | none => p.bucket.wal.get key
  | some file => if key ∉ p.inS3 ∧ p.uploads key then some file.bytes else p.bucket.wal.get key

/-- The objects have the entry, and none of a later term starts at or below it. -/
def Available (p : Promotion) (a : Entry) : Prop :=
  a.sequence < maxInt64 ∧ ∃ key bytes, p.objectAfter key = some bytes ∧ a ∈ segmentEntries bytes ∧
    ∀ later, (p.objectAfter later).isSome → (ofLex key).1 < (ofLex later).1 →
      a.sequence < (ofLex later).2

/-! ## The objects after the uploads -/

theorem get_uploadLoop (p : Promotion) (files : List (SegmentName × SegmentFile))
    (nodup : (files.map Prod.fst).Nodup) (objects : WalObjects) (key : SegmentName) :
    (files.foldl (fun objects file =>
        if file.1 ∈ p.inS3 then objects
        else if p.uploads file.1 then objects.insert file.1 file.2.bytes
        else objects) objects).get key =
      match files.find? (fun file => file.1 = key) with
      | none => objects.get key
      | some file => if key ∉ p.inS3 ∧ p.uploads key then some file.2.bytes
          else objects.get key := by
  induction files generalizing objects with
  | nil => rfl
  | cons file rest ih =>
    rw [map_cons, nodup_cons] at nodup
    obtain ⟨absent, restNodup⟩ := nodup
    rw [foldl_cons, ih restNodup]
    by_cases same : file.1 = key
    · subst same
      have gone : rest.find? (fun other => other.1 = file.1) = none := by
        rw [find?_eq_none]
        intro other mem isSame
        exact absent (mem_map.mpr ⟨other, mem, by simpa using isSame⟩)
      rw [find?_cons_of_pos (by simp), gone]
      dsimp only
      by_cases known : file.1 ∈ p.inS3
      · simp [known]
      · by_cases uploads : p.uploads file.1
        · simp [known, uploads, get_insert]
        · simp [known, uploads]
    · have other : ∀ changed : WalObjects,
          (if file.1 ∈ p.inS3 then objects
            else if p.uploads file.1 then objects.insert file.1 file.2.bytes
            else objects) = changed → changed.get key = objects.get key := by
        rintro _ rfl
        split_ifs
        · rfl
        · rw [get_insert, if_neg (Ne.symm same)]
        · rfl
      rw [find?_cons_of_neg (by simpa using same), other _ rfl]

theorem get_uploadLocalWALSegments (p : Promotion) (key : SegmentName) :
    p.uploadLocalWALSegments.get key = p.objectAfter key := by
  have nodup : (p.walDir.entries.map Prod.fst).Nodup :=
    (pairwise_map.mpr p.walDir.sorted).imp ne_of_lt
  have found : p.walDir.get key =
      (p.walDir.entries.find? (fun file => file.1 = key)).map Prod.snd := rfl
  rw [uploadLocalWALSegments, get_uploadLoop p _ nodup, objectAfter, found]
  cases p.walDir.entries.find? (fun file => file.1 = key) with
  | none => rfl
  | some file => rfl

theorem mem_localEntries {p : Promotion} {key : SegmentName} {file : SegmentFile}
    (found : p.walDir.get key = some file) {e : Entry} (mem : e ∈ segmentEntries file.bytes) :
    e ∈ p.localEntries :=
  mem_flatMap.mpr ⟨file.bytes,
    mem_map.mpr ⟨(key, file), mem_entries_iff.mpr found, rfl⟩, mem⟩

end Promotion

/-! ## The batch, for any objects -/

def piecesOf (objects : WalObjects) : List (Piece Entry) :=
  objects.entries.map (fun o => ⟨(ofLex o.1).1, (ofLex o.1).2, segmentEntries o.2⟩)

theorem readSegments_ok {entries : List (SegmentName × Bytes)} {segments : List (Nat × List Entry)}
    (read : readSegments entries = .ok segments) :
    segments = entries.map (fun o => ((ofLex o.1).1, segmentEntries o.2)) := by
  induction entries generalizing segments with
  | nil =>
    cases read
    rfl
  | cons o rest ih =>
    obtain ⟨key, bytes⟩ := o
    rw [readSegments] at read
    cases header : newSegmentReader bytes with
    | error err => simp [header] at read
    | ok parts =>
      obtain ⟨version, body⟩ := parts
      cases later : readSegments rest with
      | error err => simp [header, later] at read
      | ok segments' =>
        simp only [header, later, Except.ok.injEq] at read
        rw [← read, ih later, map_cons, segmentEntries, header]

/-- The batch holds only collected entries, and one of at least the term at the sequence of
each. -/
theorem remoteBatch_spec {objects : WalObjects} {afterSeq : Int} {batch : List Entry}
    (ok : remoteBatch objects afterSeq = .ok batch) :
    (∀ a ∈ batch, Replayed (piecesOf objects) afterSeq a) ∧
      ∀ a, Replayed (piecesOf objects) afterSeq a →
        ∃ b ∈ batch, b.sequence = a.sequence ∧ a.term ≤ b.term := by
  unfold remoteBatch at ok
  cases read : readSegments objects.entries with
  | error err => simp [read] at ok
  | ok segments =>
    have all : collectEntries (objects.entries.map Prod.fst) afterSeq segments =
        collected (piecesOf objects) afterSeq := by
      rw [readSegments_ok read, collected, piecesOf, map_map, map_map]
      rfl
    simp only [read, all] at ok
    split at ok
    · cases ok
    · cases ok
      constructor
      · intro a mem
        exact mem_collected_iff.mp (mem_of_mem_mergeEntries mem)
      · intro a replayed
        exact exists_mem_mergeEntries (mem_collected_iff.mpr replayed)

/-! ## What a successful promotion has done -/

namespace Promotion

/-- Every entry of the WAL that the store lacks has, in the restored checkpoint or in the
available objects above it, an entry of at least its term at its sequence, and no entry
of the WAL is above both. -/
def Covered (p : Promotion) (contents : CheckpointKey → List Entry) : Prop :=
  (∀ e ∈ p.localEntries, p.store.lastSeq < e.sequence →
    ∃ a, (a ∈ p.restoredEntries contents ∨ p.Available a ∧ p.baseSeq < a.sequence) ∧
      a.sequence = e.sequence ∧ e.term ≤ a.term) ∧
  ∀ e ∈ p.localEntries, e.sequence ≤ p.baseSeq ∨ ∃ a, p.Available a ∧ e.sequence ≤ a.sequence

/-- Term and sequence determine an entry: a term has one leader, which uses each sequence
once. -/
def OneWriter (p : Promotion) (contents : CheckpointKey → List Entry) : Prop :=
  ∀ e ∈ p.localEntries, ∀ a,
    (a ∈ p.localEntries ∨ a ∈ p.restoredEntries contents ∨
      ∃ key bytes, p.bucket.wal.get key = some bytes ∧ a ∈ segmentEntries bytes) →
    a.sequence = e.sequence → a.term = e.term → a = e

theorem replayed_iff (p : Promotion) {afterSeq : Int} {a : Entry} :
    Replayed (piecesOf p.uploadLocalWALSegments) afterSeq a ↔
      p.Available a ∧ afterSeq < a.sequence := by
  have stored : ∀ key bytes, (key, bytes) ∈ p.uploadLocalWALSegments.entries ↔
      p.objectAfter key = some bytes := by
    intro key bytes
    rw [mem_entries_iff, get_uploadLocalWALSegments]
  unfold Replayed Supplies Available piecesOf
  simp only [mem_map, Prod.exists, stored]
  constructor
  · rintro ⟨⟨_, ⟨key, bytes, found, rfl⟩, inObject, newest⟩, above, fits⟩
    refine ⟨⟨fits, key, bytes, found, inObject, ?_⟩, above⟩
    intro later isLater newer
    obtain ⟨laterBytes, laterFound⟩ := Option.isSome_iff_exists.mp isLater
    exact newest _ ⟨later, laterBytes, laterFound, rfl⟩ newer
  · rintro ⟨⟨fits, key, bytes, found, inObject, newest⟩, above⟩
    refine ⟨⟨_, ⟨key, bytes, found, rfl⟩, inObject, ?_⟩, above, fits⟩
    rintro _ ⟨later, laterBytes, laterFound, rfl⟩ newer
    exact newest later (by rw [laterFound]; rfl) newer

theorem Available.origin {p : Promotion} {a : Entry} (available : p.Available a) :
    a ∈ p.localEntries ∨
      ∃ key bytes, p.bucket.wal.get key = some bytes ∧ a ∈ segmentEntries bytes := by
  obtain ⟨-, key, bytes, found, inObject, -⟩ := available
  unfold objectAfter at found
  split at found
  · exact Or.inr ⟨key, bytes, found, inObject⟩
  case h_2 file isFile =>
    split at found
    · cases found
      exact Or.inl (mem_localEntries isFile inObject)
    · exact Or.inr ⟨key, bytes, found, inObject⟩

theorem restore_base {p : Promotion} {base : Store} (wal : WalObjects)
    (restored : restoreDBIfBehindCheckpoint { p.bucket with wal } p.store = .ok base) :
    base.lastSeq = p.baseSeq ∧ (base = p.store ∨
      ∃ key c, p.bucket.checkpoints.get key = some c ∧ base = loadMeta c.db) := by
  unfold restoreDBIfBehindCheckpoint at restored
  unfold baseSeq restoredKey
  cases manifest : p.bucket.manifest with
  | none =>
    simp only [manifest] at restored
    cases restored
    exact ⟨rfl, Or.inl rfl⟩
  | some m =>
    simp only [manifest] at restored
    by_cases level : m.revision ≤ p.store.currentRev
    · rw [if_pos level] at restored
      cases restored
      dsimp only
      rw [if_pos level]
      exact ⟨rfl, Or.inl rfl⟩
    · simp only [if_neg level, restore] at restored ⊢
      cases found : p.bucket.checkpoints.get m.checkpointKey with
      | none => simp [found] at restored
      | some c =>
        simp only [found, Except.ok.injEq] at restored
        subst restored
        exact ⟨rfl, Or.inr ⟨m.checkpointKey, c, found, rfl⟩⟩

theorem becomeLeader_ok {p : Promotion} {contents : CheckpointKey → List Entry}
    (sound : ∀ key c, p.bucket.checkpoints.get key = some c →
      (loadMeta c.db).Represents (contents key))
    (nonneg : 0 ≤ p.store.lastSeq) {r : Promoted} (promoted : p.becomeLeader = .ok r) :
    0 ≤ p.baseSeq ∧ remoteBatch p.uploadLocalWALSegments p.baseSeq = .ok p.replayedEntries ∧
      r.store.lastSeq = max p.baseSeq (sequenceOf p.replayedEntries) ∧
      r.nextSeq = max r.store.lastSeq (sequenceOf p.localEntries) := by
  unfold becomeLeader resync at promoted
  cases restored : restoreDBIfBehindCheckpoint
      { p.bucket with wal := p.uploadLocalWALSegments } p.store with
  | error err => simp [restored] at promoted
  | ok base =>
    obtain ⟨isBase, origin⟩ := restore_base _ restored
    have start : 0 ≤ p.baseSeq := by
      rw [← isBase]
      rcases origin with rfl | ⟨key, c, found, rfl⟩
      · exact nonneg
      · rw [(sound key c found).lastSeq]
        exact sequenceOf_nonneg _
    simp only [restored, isBase, replayRemote_eq_recover] at promoted
    cases batched : remoteBatch p.uploadLocalWALSegments p.baseSeq with
    | error err => simp [batched] at promoted
    | ok batch =>
      have isBatch : p.replayedEntries = batch := by rw [replayedEntries, batched]
      simp only [batched] at promoted
      cases recovered : base.recover batch with
      | mk db failed =>
        cases failed with
        | some err => simp [recovered] at promoted
        | none =>
          simp only [recovered, Except.ok.injEq] at promoted
          subst promoted
          refine ⟨start, by rw [isBatch], ?_, rfl⟩
          rw [isBatch, ← isBase]
          exact Store.recover_lastSeq (by rw [isBase]; exact start) recovered

/-- **A promoted follower applies its own WAL** exactly if the entries its store lacks are
covered. -/
theorem becomeLeader_applies_wal {p : Promotion} {contents : CheckpointKey → List Entry}
    (sound : ∀ key c, p.bucket.checkpoints.get key = some c →
      (loadMeta c.db).Represents (contents key))
    (oneWriter : p.OneWriter contents) (nonneg : 0 ≤ p.store.lastSeq) {r : Promoted}
    (promoted : p.becomeLeader = .ok r) : p.AppliesWal contents r ↔ p.Covered contents := by
  obtain ⟨start, batched, lastSeq, nextSeq⟩ := becomeLeader_ok sound nonneg promoted
  obtain ⟨onlyReplayed, allReplayed⟩ := remoteBatch_spec batched
  have known : ∀ a ∈ p.replayedEntries, a ∈ p.localEntries ∨ a ∈ p.restoredEntries contents ∨
      ∃ key bytes, p.bucket.wal.get key = some bytes ∧ a ∈ segmentEntries bytes := by
    intro a mem
    rcases ((p.replayed_iff).mp (onlyReplayed a mem)).1.origin with isLocal | stored
    · exact Or.inl isLocal
    · exact Or.inr (Or.inr stored)
  -- A known entry of at least the term at the sequence is the entry or supersedes it.
  have settles : ∀ e ∈ p.localEntries, ∀ a ∈ p.restoredEntries contents ++ p.replayedEntries,
      a.sequence = e.sequence → e.term ≤ a.term → p.Applied contents e := by
    intro e isLocal a mem same newer
    refine ⟨a, mem, same, ?_⟩
    rcases newer.eq_or_lt with equal | less
    · refine Or.inl (oneWriter e isLocal a ?_ same equal.symm)
      rcases mem_append.mp mem with restored | replayed
      · exact Or.inr (Or.inl restored)
      · exact known a replayed
    · exact Or.inr less
  unfold AppliesWal Covered
  rw [nextSeq, max_eq_left_iff, sequenceOf_le_iff, lastSeq]
  constructor
  · rintro ⟨applied, -, below⟩
    constructor
    · intro e isLocal above
      obtain ⟨a, mem, same, newer⟩ := applied e isLocal above
      refine ⟨a, ?_, same, ?_⟩
      · rcases mem_append.mp mem with restored | replayed
        · exact Or.inl restored
        · exact Or.inr ((p.replayed_iff).mp (onlyReplayed a replayed))
      · rcases newer with rfl | less
        · exact le_rfl
        · exact less.le
    · intro e isLocal
      by_contra uncovered
      obtain ⟨above, noneAbove⟩ := not_or.mp uncovered
      have small : sequenceOf p.replayedEntries ≤ e.sequence - 1 := by
        refine sequenceOf_le_iff.mpr ⟨by omega, ?_⟩
        intro a mem
        by_contra larger
        exact noneAbove ⟨a, ((p.replayed_iff).mp (onlyReplayed a mem)).1, by omega⟩
      have := below e isLocal
      omega
  · rintro ⟨covered, reached⟩
    refine ⟨?_, by omega, ?_⟩
    · intro e isLocal above
      obtain ⟨a, origin, same, newer⟩ := covered e isLocal above
      rcases origin with restored | available
      · exact settles e isLocal a (mem_append_left _ restored) same newer
      · obtain ⟨b, mem, sameB, newerB⟩ := allReplayed a ((p.replayed_iff).mpr available)
        exact settles e isLocal b (mem_append_right _ mem) (sameB.trans same)
          (newer.trans newerB)
    · intro e isLocal
      rcases reached e isLocal with low | ⟨a, available, bound⟩
      · exact low.trans (le_max_left _ _)
      · by_cases above : p.baseSeq < a.sequence
        · obtain ⟨b, mem, sameB, -⟩ := allReplayed a ((p.replayed_iff).mpr ⟨available, above⟩)
          have := (sequenceOf_le_iff.mp (le_refl (sequenceOf p.replayedEntries))).2 b mem
          omega
        · omega

end Promotion

/-! ## A segment of two entries, the second one not applied -/

-- The runs below are evaluated, checksums included.
set_option maxRecDepth 2000

def sampleDir : WalDir :=
  ⟨[(segmentName term 1, { synced := (⟨1, sampleHistory.take 2, []⟩ : Closed).bytes })],
    pairwise_singleton _ _⟩

def aheadFollower (wal : WalObjects) : Promotion where
  bucket := { wal }
  store := (Store.empty.apply (sampleHistory.take 1)).1
  walDir := sampleDir

/-- A bucket that has the segment with its first entry only. -/
def oneEntryBucket : WalObjects :=
  ⟨[object ⟨1, sampleHistory.take 1, []⟩], pairwise_singleton _ _⟩

theorem available_freeKey {e : Entry} (mem : e ∈ sampleHistory.take 2) :
    (aheadFollower SortedMap.empty).Available e := by
  have bounds : ∀ e ∈ sampleHistory.take 2, 0 < e.sequence ∧ e.sequence < maxInt64 := by decide
  have pieces : piecesOf (aheadFollower SortedMap.empty).uploadLocalWALSegments =
      [⟨term, 1, sampleHistory.take 2⟩] := by
    decide +kernel
  have replayed :
      Replayed (piecesOf (aheadFollower SortedMap.empty).uploadLocalWALSegments) 0 e := by
    rw [pieces]
    refine ⟨⟨_, mem_singleton_self _, mem, ?_⟩, bounds e mem⟩
    intro q isIn newer
    cases mem_singleton.mp isIn
    exact absurd newer (lt_irrefl _)
  exact ((aheadFollower SortedMap.empty).replayed_iff.mp replayed).1

/-- The segment is uploaded and read back. -/
theorem becomeLeader_applies_wal_freeKey :
    ∃ r, (aheadFollower SortedMap.empty).becomeLeader = .ok r ∧
      sampleHistory.take 2 = (aheadFollower SortedMap.empty).localEntries ∧
      (aheadFollower SortedMap.empty).AppliesWal (fun _ => []) r := by
  have entries : (aheadFollower SortedMap.empty).localEntries = sampleHistory.take 2 := by
    decide +kernel
  refine exists_ok (by decide +kernel) ?_
  intro r promoted
  refine ⟨entries.symm, ?_⟩
  refine (Promotion.becomeLeader_applies_wal ?_ ?_ (by decide +kernel) promoted).mpr ⟨?_, ?_⟩
  · intro key c found
    cases found
  · rw [Promotion.OneWriter, entries]
    rintro e isLocal a (other | restored | ⟨key, bytes, found, -⟩) same -
    · revert e a
      decide
    · cases restored
    · cases found
  · rw [entries]
    intro e isLocal above
    exact ⟨e, Or.inr ⟨available_freeKey isLocal, above⟩, rfl, le_rfl⟩
  · rw [entries]
    exact fun e isLocal => Or.inr ⟨e, available_freeKey isLocal, le_rfl⟩

/-- The upload is skipped, the second entry is not applied, and its sequence is not used
again. -/
theorem becomeLeader_loses_entry :
    ∃ r, (aheadFollower oneEntryBucket).becomeLeader = .ok r ∧ r.store.lastSeq = 1 ∧
      r.nextSeq = 2 ∧ ¬ (aheadFollower oneEntryBucket).AppliesWal (fun _ => []) r := by
  obtain ⟨r, promoted, lastSeq, nextSeq⟩ :
      ∃ r, (aheadFollower oneEntryBucket).becomeLeader = .ok r ∧ r.store.lastSeq = 1 ∧
        r.nextSeq = 2 := exists_ok_of_eval (by decide +kernel)
  refine ⟨r, promoted, lastSeq, nextSeq, ?_⟩
  rintro ⟨-, same⟩
  rw [lastSeq, nextSeq] at same
  cases same

end T4.Remote
