import T4.Remote.Replay

/-!
# A single node on an object store

One node with `WALSyncUpload`: every batch is uploaded before `AppendBatch` returns.
Checkpoints are taken in the background, followed by garbage collection of WAL segments
and of old checkpoints. A crash destroys the data directory; `Open` restores the
checkpoint that the manifest names and replays the segments in the bucket.

Uploads, listings and deletions are atomic, and a checkpoint is one object: restoring it
gives the Pebble content it was written from. Writes and the steps of a checkpoint
interleave freely, which is more than `fenceMu` permits.
-/

namespace T4.Remote

open Lib Bytes SortedMap Wal Mvcc Recovery

/-! ## The bucket -/

/-- Term and revision, in the order of the object keys. -/
abbrev CheckpointKey := ℕ ×ₗ ℤ

def checkpointKey (term : Nat) (revision : Int) : CheckpointKey := toLex (term, revision)

structure Checkpoint where
  term : Nat
  revision : Int
  db : Pebble

structure Manifest where
  checkpointKey : CheckpointKey
  revision : Int
  deriving DecidableEq

def Checkpoint.manifest (c : Checkpoint) : Manifest where
  checkpointKey := Remote.checkpointKey c.term c.revision
  revision := c.revision

structure Bucket where
  wal : WalObjects := SortedMap.empty
  checkpoints : SortedMap CheckpointKey Checkpoint := SortedMap.empty
  manifest : Option Manifest := none

/-! ## Open on an empty data directory -/

/-- A node as `Open` leaves it. -/
structure OpenedRemote where
  term : Nat
  /-- The name of the active segment. -/
  firstRev : Int
  store : Store
  nextSeq : Int

/-- `WAL.Open` after a restore: the segment directory holds no entries, so the next
sequence is that of the restored store. -/
def openWal (term : Nat) (db : Pebble) : OpenedRemote where
  term
  firstRev := (loadMeta db).lastSeq + 1
  store := loadMeta db
  nextSeq := (loadMeta db).lastSeq

def restore (b : Bucket) (m : Manifest) : Except RemoteError OpenedRemote :=
  match b.checkpoints.get m.checkpointKey with
  | none => .error .notFound
  | some c => .ok (openWal c.term c.db)

/-- The loop of `Open` that replays until no newer checkpoint has appeared. Without
another writer the bucket does not change meanwhile. -/
def replayLoop (b : Bucket) : Nat → OpenedRemote → Except RemoteError OpenedRemote
  | 0, o => .ok o
  | attempts + 1, o =>
    match replayRemote o.store b.wal o.store.lastSeq, b.manifest with
    | .error err, none => .error err
    | .ok store, none => .ok { o with store }
    | .error err, some m =>
      if m.revision ≤ o.store.currentRev then .error err
      else
        match restore b m with
        | .error err => .error err
        | .ok restored => replayLoop b attempts restored
    | .ok store, some m =>
      if m.revision ≤ store.currentRev then .ok { o with store }
      else
        match restore b m with
        | .error err => .error err
        | .ok restored => replayLoop b attempts restored

/-- The state before the replay. -/
def restoreLatest (b : Bucket) : Except RemoteError OpenedRemote :=
  match b.manifest with
  | none => .ok (openWal term SortedMap.empty)
  | some m => restore b m

def openBucket (b : Bucket) : Except RemoteError OpenedRemote :=
  match restoreLatest b with
  | .error err => .error err
  | .ok o =>
    match replayLoop b 10 o with
    | .error err => .error err
    | .ok o => .ok { o with nextSeq := max o.nextSeq o.store.lastSeq }

/-! ## The running node -/

/-- Where `maybeCheckpoint` or `forceCheckpoint` is. -/
inductive CheckpointPhase
  | idle
  /-- The store is captured. -/
  | captured (c : Checkpoint) (seq : Int)
  /-- The index is uploaded. -/
  | indexed (c : Checkpoint) (seq : Int)
  /-- The manifest names it. -/
  | written (seq : Int)
  /-- `GCSegments` has listed the segments and chosen these. -/
  | listed (doomed : List SegmentName)
  /-- The segments are deleted. -/
  | swept

structure SyncState where
  bucket : Bucket
  term : Nat
  /-- The active segment, which holds no entry between two batches. -/
  firstRev : Int
  store : Store
  /-- The batch that is uploaded and not applied. -/
  uploaded : Option (List Entry) := none
  checkpoint : CheckpointPhase := .idle
  /-- Every entry that was uploaded. -/
  logged : List Entry := []
  /-- The entries whose callers were told so. -/
  acked : List Entry := []

inductive SyncAction
  | append (batch : List Entry)
  | apply
  | capture
  | putIndex
  | putManifest
  | listSegments
  | deleteSegments
  | gcCheckpoints (count : Nat)
  | endCheckpoint
  | crash
  deriving DecidableEq

namespace SyncState

/-- `AppendBatch` with `rotateSyncLocked`: the segment is uploaded under its name and the
next one is opened behind it. -/
def append (s : SyncState) (batch : List Entry) : SyncState :=
  { s with
    bucket := { s.bucket with
      wal := s.bucket.wal.insert (segmentName s.term s.firstRev)
        (segHeader s.term s.firstRev ++ frames batch) }
    firstRev := s.firstRev + batch.length
    uploaded := some batch
    logged := s.logged ++ batch }

def apply (s : SyncState) (batch : List Entry) : SyncState :=
  match s.store.apply batch with
  | (store, some _) => { s with store, uploaded := none }
  | (store, none) => { s with store, uploaded := none, acked := s.acked ++ batch }

def snapshot (s : SyncState) : Checkpoint where
  term := s.term
  revision := s.store.currentRev
  db := s.store.db

def capture (s : SyncState) : SyncState :=
  { s with checkpoint := .captured s.snapshot s.store.lastSeq }

def putIndex (s : SyncState) (c : Checkpoint) (seq : Int) : SyncState :=
  { s with
    bucket := { s.bucket with
      checkpoints := s.bucket.checkpoints.insert (checkpointKey c.term c.revision) c }
    checkpoint := .indexed c seq }

def putManifest (s : SyncState) (c : Checkpoint) (seq : Int) : SyncState :=
  { s with
    bucket := { s.bucket with manifest := some c.manifest }
    checkpoint := .written seq }

def listSegments (s : SyncState) (seq : Int) : SyncState :=
  { s with checkpoint :=
      .listed (doomedSegments seq (s.bucket.wal.entries.map Prod.fst)) }

def deleteSegments (s : SyncState) (doomed : List SegmentName) : SyncState :=
  { s with
    bucket := { s.bucket with wal := s.bucket.wal.eraseMany doomed }
    checkpoint := .swept }

/-- The checkpoints that `GCCheckpoints` deletes: all but the last two and the one that
the manifest names. -/
def doomedCheckpoints (b : Bucket) : List CheckpointKey :=
  let keys := b.checkpoints.entries.map Prod.fst
  (keys.take (keys.length - 2)).filter (fun k => some k ≠ b.manifest.map Manifest.checkpointKey)

/-- `GCCheckpoints`, which a crash may interrupt after `count` deletions. -/
def gcCheckpoints (s : SyncState) (count : Nat) : SyncState :=
  { s with
    bucket := { s.bucket with
      checkpoints := s.bucket.checkpoints.eraseMany ((doomedCheckpoints s.bucket).take count) }
    checkpoint := .idle }

/-- The node after a crash and a successful `Open`. -/
def reopened (s : SyncState) (o : OpenedRemote) : SyncState where
  bucket := s.bucket
  term := o.term
  firstRev := o.firstRev
  store := o.store
  logged := s.logged
  acked := s.acked

end SyncState

def syncStep (s : SyncState) : SyncAction → Option SyncState
  | .append batch => if s.uploaded = none ∧ batch ≠ [] then some (s.append batch) else none
  | .apply => s.uploaded.map s.apply
  | .capture =>
    match s.checkpoint with
    | .idle => if s.store.currentRev = 0 then none else some s.capture
    | _ => none
  | .putIndex =>
    match s.checkpoint with
    | .captured c seq => some (s.putIndex c seq)
    | _ => none
  | .putManifest =>
    match s.checkpoint with
    | .indexed c seq => some (s.putManifest c seq)
    | _ => none
  | .listSegments =>
    match s.checkpoint with
    | .written seq => some (s.listSegments seq)
    | _ => none
  | .deleteSegments =>
    match s.checkpoint with
    | .listed doomed => some (s.deleteSegments doomed)
    | _ => none
  | .gcCheckpoints count =>
    match s.checkpoint with
    | .swept => some (s.gcCheckpoints count)
    | _ => none
  -- The checkpoint at start-up collects no garbage, and an error ends any of them.
  | .endCheckpoint => some { s with checkpoint := .idle }
  | .crash =>
    match openBucket s.bucket with
    | .ok o => some (s.reopened o)
    | .error _ => none

def freshSync : SyncState where
  bucket := {}
  term := term
  firstRev := 1
  store := Store.empty

def syncNode : System SyncState SyncAction where
  init s := s = freshSync
  step := syncStep

inductive SyncEffect (s : SyncState) : SyncAction → SyncState → Prop
  | append {batch} (free : s.uploaded = none) (nonempty : batch ≠ []) :
      SyncEffect s (.append batch) (s.append batch)
  | apply {batch} (uploaded : s.uploaded = some batch) : SyncEffect s .apply (s.apply batch)
  | capture (idle : s.checkpoint = .idle) (filled : s.store.currentRev ≠ 0) :
      SyncEffect s .capture s.capture
  | putIndex {c seq} (captured : s.checkpoint = .captured c seq) :
      SyncEffect s .putIndex (s.putIndex c seq)
  | putManifest {c seq} (indexed : s.checkpoint = .indexed c seq) :
      SyncEffect s .putManifest (s.putManifest c seq)
  | listSegments {seq} (written : s.checkpoint = .written seq) :
      SyncEffect s .listSegments (s.listSegments seq)
  | deleteSegments {doomed} (listed : s.checkpoint = .listed doomed) :
      SyncEffect s .deleteSegments (s.deleteSegments doomed)
  | gcCheckpoints {count} (swept : s.checkpoint = .swept) :
      SyncEffect s (.gcCheckpoints count) (s.gcCheckpoints count)
  | endCheckpoint : SyncEffect s .endCheckpoint { s with checkpoint := .idle }
  | crash {o} (opens : openBucket s.bucket = .ok o) : SyncEffect s .crash (s.reopened o)

theorem SyncEffect.of_step {s t : SyncState} {a : SyncAction}
    (stepped : syncNode.step s a = some t) : SyncEffect s a t := by
  change syncStep s a = some t at stepped
  revert stepped
  fun_cases syncStep s a <;> intro stepped <;> try cases stepped
  case case1 enabled => exact .append enabled.1 enabled.2
  case case3 =>
    obtain ⟨batch, uploaded, rfl⟩ := Option.map_eq_some_iff.mp stepped
    exact .apply uploaded
  case case5 idle filled => exact .capture idle filled
  case case7 captured => exact .putIndex captured
  case case9 indexed => exact .putManifest indexed
  case case11 written => exact .listSegments written
  case case13 listed => exact .deleteSegments listed
  case case15 swept => exact .gcCheckpoints swept
  case case17 => exact .endCheckpoint
  case case18 opens => exact .crash opens

end T4.Remote
