import T4.Lib.System
import T4.Store.Reopen

/-!
# A node on its own disk

A single node without an object store: `AppendBatch`, the three ways a segment is
rotated, `Store.Apply`, and a crash followed by `Open` (`loadMeta`, `MaxSequence`,
`WAL.Open`, `ReplayLocal`).

A crash chooses how much of the disk survives. Everything synced does; of what was
written since, any prefix of bytes; of the batches committed to Pebble, which is not
synced, any prefix.
-/

namespace T4.Recovery

open Lib Bytes Wal Mvcc

/-! ## Open -/

inductive RecoveryError
  | segment (err : SegmentError)
  | store (err : StoreError)
  deriving DecidableEq

/-- The term of a node that has no checkpoint to read one from. -/
def term : Nat := 1

/-- Replay segments in order, each as one batch. Returns the store, and the content of
Pebble after every batch that was committed. -/
def replayLocal (afterSeq : Int) (s : Store) :
    List Bytes → Except RecoveryError (Store × List Pebble)
  | [] => .ok (s, [])
  | bytes :: rest =>
    match newSegmentReader bytes with
    | .error err => .error (.segment err)
    | .ok (version, body) =>
      let applicable := (readAll version body).filter (fun e => e.sequence > afterSeq)
      if applicable = [] then replayLocal afterSeq s rest
      else
        match s.recover applicable with
        | (_, some err) => .error (.store err)
        | (s, none) =>
          match replayLocal afterSeq s rest with
          | .error err => .error err
          | .ok (last, commits) => .ok (last, s.db :: commits)

/-- What `Open` hands to the running node. -/
structure Opened where
  dir : WalDir
  firstRev : Int
  store : Store
  nextSeq : Int
  /-- Pebble after every batch of the replay. -/
  commits : List Pebble

/-- `Open` on a WAL directory and a Pebble directory. -/
def openNode (walDir : WalDir) (db : Pebble) : Except RecoveryError Opened :=
  let store := loadMeta db
  -- A segment whose header cannot be read is only logged here.
  let nextSeq := max store.lastSeq (maxSequence walDir)
  let dir := openSegmentWriter walDir term (nextSeq + 1)
  match replayLocal store.lastSeq store (localSegments dir) with
  | .error err => .error err
  | .ok (replayed, commits) =>
    .ok { dir, firstRev := nextSeq + 1, store := replayed,
          nextSeq := max nextSeq replayed.lastSeq, commits }

/-! ## The running node -/

/-- How far the commit loop has taken its batch. -/
inductive LocalPhase
  | idle
  /-- In `AppendBatch`: written to the active segment, not synced. -/
  | written (batch : List Entry)
  /-- `AppendBatch` has returned. -/
  | appended (batch : List Entry)
  deriving DecidableEq

structure LocalNode where
  dir : WalDir
  /-- The active segment. -/
  firstRev : Int
  entryCount : Nat := 0
  store : Store
  /-- Pebble after each batch that was committed, the empty one first. -/
  snapshots : List Pebble
  phase : LocalPhase := .idle
  /-- The entries that got a sequence and were not lost in a crash. -/
  assigned : List Entry := []
  /-- The entries whose callers were told so. -/
  acked : List Entry := []

inductive LocalAction
  | write (batch : List Entry)
  | sync (full : Bool)
  | ageRotate
  | sealAndFlush
  | apply
  | crash (keepBytes keepBatches : Nat)
  deriving DecidableEq

namespace LocalNode

def activeName (s : LocalNode) : SegmentName := segmentName term s.firstRev

def writeActive (s : LocalNode) (change : SegmentFile → SegmentFile) : WalDir :=
  match s.dir.get s.activeName with
  | none => s.dir
  | some file => s.dir.insert s.activeName (change file)

/-- Seal the active segment and open the one named `nextRev`. -/
def rotateTo (s : LocalNode) (nextRev : Int) : LocalNode :=
  { s with dir := openSegmentWriter s.dir term nextRev, firstRev := nextRev, entryCount := 0 }

def rotate (s : LocalNode) : LocalNode := s.rotateTo (s.firstRev + s.entryCount)

/-- The first half of `AppendBatch`. -/
def appendNoSync (s : LocalNode) (batch : List Entry) : LocalNode :=
  { s with
    dir := s.writeActive (fun file => { file with unsynced := file.unsynced ++ frames batch })
    entryCount := s.entryCount + batch.length
    phase := .written batch
    assigned := s.assigned ++ batch }

/-- The second half of `AppendBatch`. -/
def sync (s : LocalNode) (batch : List Entry) : LocalNode :=
  { s with
    dir := s.writeActive (fun file => { synced := file.bytes })
    phase := .appended batch }

/-- `Store.Apply`, and the callers' answers. -/
def applyBatch (s : LocalNode) (batch : List Entry) : LocalNode :=
  match s.store.apply batch with
  | (store, some _) => { s with store, phase := .idle }
  | (store, none) =>
    { s with
      store
      snapshots := s.snapshots ++ [store.db]
      phase := .idle
      acked := s.acked ++ batch }

def survivingDir (s : LocalNode) (keepBytes : Nat) : WalDir :=
  s.dir.mapValues (fun file => { synced := file.synced ++ file.unsynced.take keepBytes })

/-- Open again after a crash that keeps `keepBytes` bytes of what was not synced and the
first `keepBatches` batches of Pebble. -/
def reopen (s : LocalNode) (keepBytes keepBatches : Nat) :
    Option (Except RecoveryError Opened) :=
  (s.snapshots[keepBatches]?).map (openNode (s.survivingDir keepBytes))

/-- The node after a successful `Open`. -/
def reopened (s : LocalNode) (keepBatches : Nat) (o : Opened) : LocalNode where
  dir := o.dir
  firstRev := o.firstRev
  store := o.store
  snapshots := s.snapshots.take (keepBatches + 1) ++ o.commits
  assigned := s.assigned.filter (fun e => e.sequence ≤ o.store.lastSeq)
  acked := s.acked

end LocalNode

def localStep (s : LocalNode) : LocalAction → Option LocalNode
  | .write batch =>
    if s.phase = .idle ∧ batch ≠ [] then some (s.appendNoSync batch) else none
  | .sync full =>
    match s.phase with
    | .written batch =>
      let synced := s.sync batch
      -- `full` is the comparison of the segment's size with its limit.
      some (if full then synced.rotate else synced)
    | _ => none
  | .ageRotate =>
    match s.phase with
    | .written _ => none
    | _ => if s.entryCount > 0 then some s.rotate else none
  | .sealAndFlush =>
    match s.phase with
    | .written _ => none
    | _ => some (if s.entryCount = 0 then s else s.rotateTo (s.store.lastSeq + 1))
  | .apply =>
    match s.phase with
    | .appended batch => some (s.applyBatch batch)
    | _ => none
  | .crash keepBytes keepBatches =>
    match s.reopen keepBytes keepBatches with
    | some (.ok o) => some (s.reopened keepBatches o)
    | _ => none

def freshNode : LocalNode where
  dir := openSegmentWriter SortedMap.empty term 1
  firstRev := 1
  store := Store.empty
  snapshots := [SortedMap.empty]

def localNode : System LocalNode LocalAction where
  init s := s = freshNode
  step := localStep

inductive LocalEffect (s : LocalNode) : LocalAction → LocalNode → Prop
  | write {batch} (idle : s.phase = .idle) (nonempty : batch ≠ []) :
      LocalEffect s (.write batch) (s.appendNoSync batch)
  | sync {batch} (written : s.phase = .written batch) :
      LocalEffect s (.sync false) (s.sync batch)
  | syncFull {batch} (written : s.phase = .written batch) :
      LocalEffect s (.sync true) (s.sync batch).rotate
  | ageRotate (between : ∀ batch, s.phase ≠ .written batch) (filled : s.entryCount > 0) :
      LocalEffect s .ageRotate s.rotate
  | sealEmpty (empty : s.entryCount = 0) : LocalEffect s .sealAndFlush s
  | sealFilled (between : ∀ batch, s.phase ≠ .written batch) (filled : s.entryCount ≠ 0) :
      LocalEffect s .sealAndFlush (s.rotateTo (s.store.lastSeq + 1))
  | apply {batch} (appended : s.phase = .appended batch) :
      LocalEffect s .apply (s.applyBatch batch)
  | crash {keepBytes keepBatches o} (opens : s.reopen keepBytes keepBatches = some (.ok o)) :
      LocalEffect s (.crash keepBytes keepBatches) (s.reopened keepBatches o)

theorem LocalEffect.of_step {s t : LocalNode} {a : LocalAction}
    (stepped : localNode.step s a = some t) : LocalEffect s a t := by
  change localStep s a = some t at stepped
  revert stepped
  -- One case for each way through the step, in the order of the actions.
  fun_cases localStep s a <;> rintro ⟨⟩
  case case1 enabled => exact .write enabled.1 enabled.2
  case case3 full _ written _ =>
    cases full with
    | false => exact .sync written
    | true => exact .syncFull written
  case case6 filled between => exact .ageRotate between filled
  case case9 between =>
    split
    · exact .sealEmpty ‹_›
    · exact .sealFilled between ‹_›
  case case10 appended => exact .apply appended
  case case12 opens => exact .crash opens

end T4.Recovery
