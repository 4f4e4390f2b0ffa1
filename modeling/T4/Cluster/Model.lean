import T4.Election.Lock
import T4.Peer.Stream
import T4.Remote.Listing

/-!
# A cluster

Nodes that share one object store: elections, `becomeLeader`, the commit loop with its
wait for followers, the follow loop, resyncs, uploads, checkpoints, crashes and `Open`.

The parts that other modules treat on their own are taken in the form shown there. An
operation on the lock is one step, since its write is conditional on what it read
(`T4.Election`). A follower gets consecutive batches of what its leader committed, at any
time after the commit (`T4.Peer`). Objects and files are the entries read from them
(`T4.Remote`, `T4.Recovery`), and a store is the list of entries that were applied to it.

A crash may cost a store what Pebble had not synced; the WAL is synced. A segment file
that is removed after its upload is kept in the log here, since `Open` finds it in the
bucket. Terms, sequences and revisions have no bound here; the source adds them in 64 bits.
-/

namespace T4.Cluster

open Lib Wal Election Remote List
open Peer (WaitMode requiredFollowerACKs acknowledged)

/-! ## Stores and the bucket -/

/-- `LastSequence`, and `MaxSequence` of a WAL. -/
def lastSeq (entries : List Entry) : Int := entries.foldl (fun seq e => max seq e.sequence) 0

/-- Every entry but a compaction takes a revision. -/
def IsWrite (e : Entry) : Prop := e.op ≠ Op.compact

instance (e : Entry) : Decidable (IsWrite e) := inferInstanceAs (Decidable (_ ≠ _))

/-- `CurrentRevision`. -/
def currentRev (entries : List Entry) : Int :=
  entries.foldl (fun rev e => if IsWrite e then max rev e.revision else rev) 0

/-! ### Bounds -/

section Bounds

variable {entries later : List Entry} {x : Int}

theorem lastSeq_le_iff : lastSeq entries ≤ x ↔ 0 ≤ x ∧ ∀ e ∈ entries, e.sequence ≤ x := by
  have folded : ∀ (start : Int), entries.foldl (fun seq e => max seq e.sequence) start ≤ x ↔
      start ≤ x ∧ ∀ e ∈ entries, e.sequence ≤ x := by
    induction entries with
    | nil => simp
    | cons e rest ih =>
      intro start
      rw [foldl_cons, ih, max_le_iff, forall_mem_cons, and_assoc]
  exact folded 0

theorem lastSeq_nonneg : 0 ≤ lastSeq entries := (lastSeq_le_iff.mp le_rfl).1

theorem le_lastSeq {e : Entry} (mem : e ∈ entries) : e.sequence ≤ lastSeq entries :=
  (lastSeq_le_iff.mp le_rfl).2 e mem

theorem exists_of_le_lastSeq (positive : 0 < x) (upTo : x ≤ lastSeq entries) :
    ∃ e ∈ entries, x ≤ e.sequence := by
  by_contra none
  have below : lastSeq entries ≤ x - 1 := by
    refine lastSeq_le_iff.mpr ⟨by omega, ?_⟩
    intro e mem
    by_contra above
    exact none ⟨e, mem, by omega⟩
  omega

theorem lastSeq_append : lastSeq (entries ++ later) = max (lastSeq entries) (lastSeq later) := by
  refine eq_of_forall_ge_iff ?_
  intro y
  rw [max_le_iff, lastSeq_le_iff, lastSeq_le_iff, lastSeq_le_iff, forall_mem_append]
  tauto

theorem lastSeq_mono (sub : entries ⊆ later) : lastSeq entries ≤ lastSeq later :=
  lastSeq_le_iff.mpr ⟨lastSeq_nonneg, fun _ mem => le_lastSeq (sub mem)⟩

theorem currentRev_le_iff :
    currentRev entries ≤ x ↔ 0 ≤ x ∧ ∀ e ∈ entries, IsWrite e → e.revision ≤ x := by
  have folded : ∀ (start : Int),
      entries.foldl (fun rev e => if IsWrite e then max rev e.revision else rev) start ≤ x ↔
        start ≤ x ∧ ∀ e ∈ entries, IsWrite e → e.revision ≤ x := by
    induction entries with
    | nil => simp
    | cons e rest ih =>
      intro start
      rw [foldl_cons, ih, forall_mem_cons]
      split
      · rename_i isWrite
        rw [max_le_iff, and_assoc, imp_iff_right isWrite]
      · rename_i compacts
        tauto
  exact folded 0

theorem currentRev_nonneg : 0 ≤ currentRev entries := (currentRev_le_iff.mp le_rfl).1

theorem le_currentRev {e : Entry} (mem : e ∈ entries) (isWrite : IsWrite e) :
    e.revision ≤ currentRev entries :=
  (currentRev_le_iff.mp le_rfl).2 e mem isWrite

theorem currentRev_mono (sub : entries ⊆ later) : currentRev entries ≤ currentRev later :=
  currentRev_le_iff.mpr ⟨currentRev_nonneg, fun _ mem => le_currentRev (sub mem)⟩

theorem exists_of_le_currentRev (positive : 0 < x) (upTo : x ≤ currentRev entries) :
    ∃ e ∈ entries, IsWrite e ∧ x ≤ e.revision := by
  by_contra none
  have below : currentRev entries ≤ x - 1 := by
    refine currentRev_le_iff.mpr ⟨by omega, ?_⟩
    intro e mem isWrite
    by_contra above
    exact none ⟨e, mem, isWrite, by omega⟩
  omega

end Bounds

structure Checkpoint where
  term : Nat
  store : List Entry

structure Bucket where
  /-- WAL segments under their term and first sequence. -/
  objects : List (Piece Entry) := []
  checkpoint : Option Checkpoint := none

/-- What `replayRemote` hands to `Recover`. -/
def Bucket.replay (b : Bucket) (afterSeq : Int) : Option (List Entry) :=
  let merged := mergeEntries (collected b.objects afterSeq)
  match firstHole (afterSeq + 1) merged with
  | some _ => none
  | none => some merged

variable {b : Bucket} {afterSeq : Int} {batch : List Entry}

theorem Bucket.replay_eq (found : b.replay afterSeq = some batch) :
    mergeEntries (collected b.objects afterSeq) = batch ∧
      firstHole (afterSeq + 1) batch = none := by
  simp only [Bucket.replay] at found
  split at found
  case h_1 => cases found
  case h_2 whole =>
    cases found
    exact ⟨rfl, whole⟩

theorem Bucket.replay_spec (found : b.replay afterSeq = some batch) :
    Numbered Entry.sequence (afterSeq + 1) batch ∧ ∀ e ∈ batch, ∃ p ∈ b.objects, e ∈ p.items := by
  obtain ⟨rfl, whole⟩ := Bucket.replay_eq found
  refine ⟨numbered_of_consecutive (firstHole_eq_none_iff.mp whole), ?_⟩
  intro e mem
  obtain ⟨⟨p, isObject, inP, -⟩, -⟩ := mem_collected_iff.mp (mem_of_mem_mergeEntries mem)
  exact ⟨p, isObject, inP⟩

/-- The bucket's objects as bytes give the same replay. -/
theorem Bucket.replay_eq_some_iff {objects : WalObjects} (lists : Lists objects b.objects) :
    b.replay afterSeq = some batch ↔ remoteBatch objects afterSeq = .ok batch := by
  rw [lists.remoteBatch_eq, Bucket.replay]
  cases firstHole (afterSeq + 1) (mergeEntries (collected b.objects afterSeq)) with
  | none => simp
  | some err => simp

def Bucket.ahead (b : Bucket) (store : List Entry) : Option Checkpoint :=
  b.checkpoint.filter (fun cp => currentRev store < currentRev cp.store)

theorem Bucket.ahead_eq_some {store : List Entry} {cp : Checkpoint}
    (found : b.ahead store = some cp) :
    b.checkpoint = some cp ∧ currentRev store < currentRev cp.store := by
  obtain ⟨isCheckpoint, behind⟩ := Option.filter_eq_some_iff.mp found
  exact ⟨isCheckpoint, of_decide_eq_true behind⟩

/-! ## Nodes -/

inductive BatchPhase
  /-- In the WAL. -/
  | logged
  /-- The commit is broadcast. -/
  | sent
  /-- In `WaitForFollowers`, for the followers that were connected when it was called. -/
  | waits (required : List String)

/-- A batch of the commit loop. -/
structure Pending where
  entries : List Entry
  phase : BatchPhase := .logged

/-- What a leader keeps for its term. -/
structure Leading where
  term : Nat
  startRev : Int
  nextSeq : Int
  nextRev : Int
  /-- The ring buffer. -/
  buf : List Entry := []
  /-- Connected followers and the sequence that each has acknowledged. -/
  followers : List (String × Int) := []
  /-- `DisconnectC` holds a notice. -/
  disconnected : Bool := false
  polling : Bool := true
  batch : Option Pending := none

/-- The leader whose stream a follower reads. -/
structure Session where
  leader : String
  term : Nat
  deriving DecidableEq

inductive Role
  | down
  /-- In the follow loop; `cleared` once the checks of `attemptPromotion` have passed. -/
  | follower (fromRev : Int) (session : Option Session) (cleared : Bool)
  /-- The lock is won; in `becomeLeader`, called from the follow loop or from `Open`. -/
  | elected (term : Nat) (fromRev : Option Int)
  | leader (l : Leading)

structure Node where
  /-- The entries applied to the store. -/
  store : List Entry := []
  /-- How many of them a crash cannot take. -/
  synced : Nat := 0
  /-- The entries of the local WAL. -/
  log : List Entry := []
  term : Nat := 1
  role : Role := .down
  /-- Every entry that was ever applied, also to a store that was replaced. -/
  applied : List Entry := []
  /-- There is no data directory yet. -/
  fresh : Bool := true

namespace Node

def leading (node : Node) : Option Leading :=
  match node.role with
  | .leader l => some l
  | _ => none

/-- The batch that waits for its followers. -/
def unapplied (node : Node) : List Entry :=
  match node.role with
  | .leader l => (l.batch.map Pending.entries).getD []
  | _ => []

/-- `Store.Apply`, which does not sync. -/
def apply (node : Node) (entries : List Entry) : Node :=
  { node with store := node.store ++ entries, applied := node.applied ++ entries }

/-- `Store.Recover`, which does. -/
def recover (node : Node) (entries : List Entry) : Node :=
  if entries = [] then node
  else
    { node.apply entries with synced := (node.store ++ entries).length }

@[simp]
theorem recover_store (node : Node) (entries : List Entry) :
    (node.recover entries).store = node.store ++ entries := by
  unfold recover
  split
  case isTrue none => rw [none, append_nil]
  case isFalse => rfl

@[simp]
theorem recover_log (node : Node) (entries : List Entry) :
    (node.recover entries).log = node.log := by
  unfold recover
  split <;> rfl

def restore (node : Node) (cp : Checkpoint) : Node :=
  { node with
    store := cp.store
    synced := cp.store.length
    term := cp.term
    applied := node.applied ++ cp.store }

/-- `restoreDBIfBehindCheckpoint`. -/
def restoreIfBehind (b : Bucket) (node : Node) : Node :=
  match b.ahead node.store with
  | none => node
  | some cp => node.restore cp

/-- The first part of `Open`, which restores the checkpoint on the first boot. -/
def boot (b : Bucket) (node : Node) : Node :=
  match b.checkpoint.filter (fun _ => node.fresh ∧ node.store = []) with
  | none => { node with term := 1, fresh := false }
  | some cp => { node.restore cp with fresh := false }

def replayRemote (b : Bucket) (node : Node) : Option Node :=
  (b.replay (lastSeq node.store)).map node.recover

/-- The catch-up of `becomeLeader`. -/
def caughtUp (b : Bucket) (node : Node) : Option Node := (node.restoreIfBehind b).replayRemote b

/-- `ReplayLocal`. -/
def replayLocal (node : Node) : Node :=
  node.recover (node.log.filter (fun e => lastSeq node.store < e.sequence))

/-- `Open` up to the election. A replay that fails, or that ends behind the checkpoint, is
repeated on the restored checkpoint. -/
def opened (b : Bucket) (node : Node) : Option Node :=
  let local' := (node.boot b).replayLocal
  match local'.replayRemote b with
  | some replayed =>
    match b.ahead replayed.store with
    | none => some replayed
    | some _ => replayed.caughtUp b
  | none =>
    match b.ahead local'.store with
    | none => none
    | some _ => local'.caughtUp b

theorem le_lastSeq_replayLocal {node : Node} {e : Entry} (mem : e ∈ node.log) :
    e.sequence ≤ lastSeq node.replayLocal.store := by
  rw [replayLocal, recover_store]
  rcases le_or_gt e.sequence (lastSeq node.store) with old | new
  · exact old.trans (lastSeq_mono (subset_append_left _ _))
  · exact le_lastSeq (mem_append_right _ (mem_filter.mpr ⟨mem, decide_eq_true new⟩))

/-- The sequence that `becomeLeader` continues from. -/
def nextSeq (node : Node) : Int := max (lastSeq node.store) (lastSeq node.log)

/-- The end of `becomeLeader`. -/
def lead (node : Node) (term : Nat) : Node :=
  { node with
    term
    role := .leader {
      term
      startRev := lastSeq node.store + 1
      nextSeq := node.nextSeq
      nextRev := currentRev node.store } }

def observeTerm (node : Node) (term : Nat) : Node := { node with term := max node.term term }

/-- A crash, after which at least the synced part of the store is there. -/
def crash (node : Node) (kept : Nat) : Node :=
  { node with store := node.store.take (max kept node.synced), role := .down }

/-- A follower handles a committed batch. -/
def receive (node : Node) (batch : List Entry) (last : Entry) (outcome : Peer.Outcome)
    (fromRev : Int) (session : Session) : Node :=
  match outcome with
  | .walFails written =>
    { node with log := node.log ++ batch.take written, role := .follower fromRev none false }
  | .ackFails => { node with log := node.log ++ batch, role := .follower fromRev none false }
  | .applyFails => { node with log := node.log ++ batch, role := .follower fromRev none false }
  | .ok =>
    { ({ node with log := node.log ++ batch }.apply batch).observeTerm last.term with
      role := .follower (last.sequence + 1) (some session) false }

/-- The follow loop after `ErrResyncRequired`; the WAL directory goes with a store that is
replaced. -/
def resync (b : Bucket) (node : Node) (replays : Bool) (fromRev : Int) : Node :=
  let restored := match b.ahead node.store with
    | none => node
    | some _ => { node.restoreIfBehind b with log := [] }
  match if replays then restored.replayRemote b else none with
  | none => { restored with role := .follower fromRev none false }
  | some replayed =>
    { replayed with role := .follower (lastSeq replayed.store + 1) none false }

end Node

/-! ## The commit loop -/

/-- `WaitForFollowers` returns nil. -/
def Leading.waited (l : Leading) (mode : WaitMode) (rev : Int) (required : List String) : Bool :=
  let acks := required.filterMap (fun id => (l.followers.find? (fun f => f.1 = id)).map Prod.snd)
  let target := requiredFollowerACKs required.length mode
  required = [] ∨ target = 0 ∨ target ≤ acks.countP (fun ack => rev ≤ ack) ∨
    acks.countP (fun ack => ack < rev) = 0

/-- The last acknowledgement of a follower, which a new stream of it keeps. -/
def Leading.ack (l : Leading) (n : String) : Int :=
  ((l.followers.find? (fun f => f.1 = n)).map Prod.snd).getD 0

/-- Sequences and revisions as the write path gives them out; some are lost. -/
def Assigned (term : Nat) : Int → Int → List Entry → Prop
  | _, _, [] => True
  | nextSeq, nextRev, e :: rest =>
    e.term = term ∧ nextSeq < e.id ∧ (IsWrite e → nextRev < e.revision) ∧
      Assigned term e.id (if IsWrite e then e.revision else nextRev) rest

instance decidableAssigned (term : Nat) : (nextSeq nextRev : Int) → (batch : List Entry) →
    Decidable (Assigned term nextSeq nextRev batch)
  | _, _, [] => isTrue trivial
  | nextSeq, nextRev, e :: rest =>
    have := decidableAssigned term e.id (if IsWrite e then e.revision else nextRev) rest
    inferInstanceAs (Decidable (e.term = term ∧ nextSeq < e.id ∧ _ ∧ _))

def Leading.count (l : Leading) (batch : List Entry) : Leading :=
  { l with
    nextSeq := batch.foldl (fun _ e => e.id) l.nextSeq
    nextRev := batch.foldl (fun rev e => if IsWrite e then e.revision else rev) l.nextRev }

inductive AppendOutcome
  | ok
  /-- The callers gave up before `AppendBatch`. -/
  | cancelled
  /-- The WAL fails with so many entries written, and the leader steps down. -/
  | fails (written : Nat)
  deriving DecidableEq

/-! ## The cluster -/

/-- A completed `becomeLeader`, with what had been acknowledged by then. -/
structure Promotion where
  term : Nat
  acked : List Entry
  store : List Entry

/-- The nodes, their lock and bucket, and what was ever written. -/
structure ClusterState where
  now : Int := 0
  lock : Option LockRecord := none
  nodes : String → Node := fun _ => {}
  bucket : Bucket := {}
  /-- The entries whose commit the leader of a term has broadcast. -/
  committed : Nat → List Entry := fun _ => []
  /-- The entries that a leader has written to its WAL. -/
  written : List Entry := []
  /-- The entries acknowledged to clients while followers were connected. -/
  acked : List Entry := []
  promotions : List Promotion := []

/-- How far `becomeLeader` gets before it fails. -/
inductive Progress
  | begun
  | restored
  | replayed
  deriving DecidableEq

inductive ClusterAction
  | tick (ns : Nat)
  | crash (n : String) (kept : Nat)
  /-- `Open`. -/
  | start (n : String)
  /-- The first half of `attemptPromotion`. -/
  | observe (n : String)
  | takeOver (n : String)
  | becomeLeader (n : String)
  /-- `becomeLeader` fails. -/
  | abandon (n : String) (progress : Progress)
  | connect (n m : String)
  /-- The stream ends at the follower. -/
  | disconnect (n : String)
  /-- The stream ends at the leader. -/
  | hangUp (m n : String)
  /-- The watch loop's periodic check. -/
  | watch (m : String)
  /-- The watch loop takes a notice of a disconnect. -/
  | onDisconnect (m : String)
  | poll (m : String)
  | append (m : String) (batch : List Entry) (outcome : AppendOutcome)
  /-- `BroadcastCommit`. -/
  | commit (m : String)
  /-- `WaitForFollowers` is called. -/
  | wait (m : String)
  /-- `WaitForFollowers` returns, `Apply`, and the callers are told. -/
  | finish (m : String)
  | receive (n : String) (batch : List Entry) (outcome : Peer.Outcome)
  | resync (n : String) (replays : Bool)
  | upload (n : String) (segment : Piece Entry)
  /-- Segments are collected. -/
  | collect (doomed : List SegmentName)
  | checkpoint (m : String)

/-- What a `becomeLeader` that fails leaves behind. -/
def Node.abandoned (b : Bucket) (node : Node) : Progress → Option Node
  | .begun => some node
  | .restored => some (node.restoreIfBehind b)
  | .replayed => node.caughtUp b

namespace ClusterState

def setNode (s : ClusterState) (n : String) (node : Node) : ClusterState :=
  { s with nodes := Function.update s.nodes n node }

/-- The lock names the leader of this term. -/
def Names (s : ClusterState) (n : String) (term : Nat) : Prop :=
  ∃ record, s.lock = some record ∧ record.nodeID = n ∧ record.term = term

instance (s : ClusterState) (n : String) (term : Nat) : Decidable (s.Names n term) :=
  match held : s.lock with
  | none => isFalse (by rintro ⟨_, same, _⟩; rw [held] at same; cases same)
  | some record =>
    decidable_of_iff (record.nodeID = n ∧ record.term = term)
      ⟨fun names => ⟨record, held, names⟩, by
        rintro ⟨other, same, names⟩
        rw [held] at same
        cases same
        exact names⟩

/-- The handle of a node; it advertises itself under its name. -/
def handle (n : String) : Lock := { nodeID := n, advertiseAddr := n }

def observed (s : ClusterState) : LockWithETag := { record := s.lock, etag := none }

def elect (s : ClusterState) (n : String) (term : Nat) (node : Node) : ClusterState :=
  { s.setNode n node with
    lock := some ((handle n).acquired term (currentRev node.store) s.now) }

/-- `fencedCheck` of a leader: it steps down if the lock no longer names it. -/
def fencedCheck (s : ClusterState) (m : String) (l l' : Leading) (touch : Bool) : ClusterState :=
  if s.Names m l.term then
    { s.setNode m { s.nodes m with role := .leader l' } with
      lock := if touch then
        some { nodeID := m, term := l.term, leaderAddr := m, lastSeenNano := s.now,
               committedRev := currentRev (s.nodes m).store }
      else s.lock }
  else s.setNode m { s.nodes m with role := .down }

end ClusterState

/-- `LeaderLivenessTTL`, six seconds. -/
def leaderLivenessTTL : Int := 6 * 10 ^ 9

/-- A follower's acknowledgement reaches the leader, if it is still connected. -/
def Node.acknowledge (node : Node) (n : String) (term : Nat) (seq : Int) : Node :=
  match node.role with
  | .leader l =>
    if l.term = term then
      { node with role := .leader { l with
          followers := l.followers.map (fun f => if f.1 = n then (f.1, max f.2 seq) else f) } }
    else node
  | _ => node

/-- One step of the cluster; `none` where it cannot be taken. -/
def clusterStep (cap : Nat) (mode : WaitMode) (s : ClusterState) :
    ClusterAction → Option ClusterState
  | .tick ns => some { s with now := s.now + ns }
  | .crash n kept => some (s.setNode n ((s.nodes n).crash kept))
  | .start n =>
    match (s.nodes n).role with
    | .down =>
      match (s.nodes n).opened s.bucket with
      | none => none
      | some node =>
        match (ClusterState.handle n).tryAcquire node.term s.observed with
        | .ok term => some (s.elect n term { node with role := .elected term none })
        | .error record =>
          some (s.setNode n { node.observeTerm record.term with
            role := .follower (lastSeq node.store + 1) none false })
    | _ => none
  | .observe n =>
    match (s.nodes n).role with
    | .follower fromRev none _ =>
      let cleared := { s.nodes n with role := .follower fromRev none true }
      match s.lock with
      | none => some (s.setNode n cleared)
      | some record =>
        -- A fresh leader, or one that has more: follow it.
        if 0 < record.lastSeenNano ∧ s.now - record.lastSeenNano < leaderLivenessTTL ∨
            currentRev (s.nodes n).store < record.committedRev then
          some (s.setNode n { (s.nodes n).observeTerm record.term with
            role := .follower fromRev none false })
        else some (s.setNode n cleared)
    | _ => none
  | .takeOver n =>
    match (s.nodes n).role with
    | .follower fromRev none true =>
      match (ClusterState.handle n).takeOver (s.nodes n).term (currentRev (s.nodes n).store)
          s.observed with
      | .ok term => some (s.elect n term { s.nodes n with role := .elected term (some fromRev) })
      | .error record =>
        some (s.setNode n { (s.nodes n).observeTerm record.term with
          role := .follower fromRev none false })
    | _ => none
  | .becomeLeader n =>
    match (s.nodes n).role with
    | .elected term _ =>
      ((s.nodes n).caughtUp s.bucket).map (fun node =>
        { s.setNode n (node.lead term) with
          promotions := s.promotions ++ [⟨term, s.acked, node.store⟩] })
    | _ => none
  | .abandon n progress =>
    match (s.nodes n).role with
    | .elected _ back =>
      ((s.nodes n).abandoned s.bucket progress).map (fun node => s.setNode n { node with
        role := match back with
          | some fromRev => .follower fromRev none false
          | none => .down })
    | _ => none
  | .connect n m =>
    match (s.nodes n).role, (s.nodes m).role with
    | .follower fromRev none _, .leader l =>
      match ({ startRev := l.startRev, buf := l.buf } : Peer.Server).follow fromRev with
      | none => none
      | some _ =>
        some ((s.setNode n { s.nodes n with
            role := .follower fromRev (some ⟨m, l.term⟩) false }).setNode m { s.nodes m with
          role := .leader { l with
            followers := (n, l.ack n) :: l.followers.filter (fun f => f.1 ≠ n) } })
    | _, _ => none
  | .disconnect n =>
    match (s.nodes n).role with
    | .follower fromRev (some _) _ =>
      some (s.setNode n { s.nodes n with role := .follower fromRev none false })
    | _ => none
  | .hangUp m n =>
    match (s.nodes m).role with
    | .leader l =>
      some (s.setNode m { s.nodes m with role := .leader { l with
        followers := l.followers.filter (fun f => f.1 ≠ n)
        disconnected := true } })
    | _ => none
  | .watch m =>
    match (s.nodes m).role with
    | .leader l => some (s.fencedCheck m l l false)
    | _ => none
  | .onDisconnect m =>
    match (s.nodes m).role with
    | .leader l =>
      if l.disconnected then
        some (s.fencedCheck m l { l with disconnected := false, polling := true } true)
      else none
    | _ => none
  | .poll m =>
    match (s.nodes m).role with
    | .leader l =>
      if l.polling then
        some (s.fencedCheck m l { l with polling := l.followers = [] } true)
      else none
    | _ => none
  | .append m batch outcome =>
    match (s.nodes m).role with
    | .leader l =>
      if l.batch.isNone ∧ batch ≠ [] ∧ Assigned l.term l.nextSeq l.nextRev batch then
        match outcome with
        | .ok => some { s.setNode m { s.nodes m with
              log := (s.nodes m).log ++ batch
              role := .leader { l.count batch with batch := some { entries := batch } } } with
            written := s.written ++ batch }
        | .cancelled => some (s.setNode m { s.nodes m with role := .leader (l.count batch) })
        | .fails kept => some { s.setNode m { s.nodes m with
              log := (s.nodes m).log ++ batch.take kept
              role := .down } with
            written := s.written ++ batch.take kept }
      else none
    | _ => none
  | .commit m =>
    match (s.nodes m).role with
    | .leader l =>
      match l.batch with
      | some ⟨entries, .logged⟩ => some { s.setNode m { s.nodes m with
            role := .leader { l with
              buf := entries.foldl (Peer.pushBuffer cap) l.buf
              batch := some ⟨entries, .sent⟩ } } with
          committed := Function.update s.committed l.term (s.committed l.term ++ entries) }
      | _ => none
    | _ => none
  | .wait m =>
    match (s.nodes m).role with
    | .leader l =>
      match l.batch with
      | some ⟨entries, .sent⟩ => some (s.setNode m { s.nodes m with
          role := .leader { l with
            batch := some ⟨entries, .waits (l.followers.map Prod.fst)⟩ } })
      | _ => none
    | _ => none
  | .finish m =>
    match (s.nodes m).role with
    | .leader l =>
      match l.batch with
      | some ⟨entries, .waits required⟩ =>
        if l.waited mode (lastSeq entries) required then
          some { s.setNode m { (s.nodes m).apply entries with
              role := .leader { l with batch := none } } with
            acked := if required = [] then s.acked else s.acked ++ entries }
        else none
      | _ => none
    | _ => none
  | .receive n batch outcome =>
    match (s.nodes n).role, batch.getLast? with
    | .follower fromRev (some session) _, some last =>
      if (∀ e ∈ batch, e ∈ s.committed session.term) ∧ Numbered Entry.sequence fromRev batch then
        let leader := s.nodes session.leader
        let told := if acknowledged outcome then
          leader.acknowledge n session.term last.sequence else leader
        some ((s.setNode session.leader told).setNode n
          ((s.nodes n).receive batch last outcome fromRev session))
      else none
    | _, _ => none
  | .resync n replays =>
    match (s.nodes n).role with
    | .follower fromRev _ _ =>
      some (s.setNode n ((s.nodes n).resync s.bucket replays fromRev))
    | _ => none
  | .upload n segment =>
    match (s.nodes n).role with
    | .elected _ _ | .leader _ =>
      if ∀ e ∈ segment.items, e ∈ (s.nodes n).log then
        some { s with bucket := { s.bucket with
          objects := s.bucket.objects.filter (fun p => p.key ≠ segment.key) ++ [segment] } }
      else none
    | _ => none
  | .collect doomed =>
    some { s with bucket := { s.bucket with
      objects := s.bucket.objects.filter (fun p => p.key ∉ doomed) } }
  | .checkpoint m =>
    match (s.nodes m).role with
    | .leader l => some { s with bucket := { s.bucket with
        checkpoint := some ⟨l.term, (s.nodes m).store⟩ } }
    | _ => none

/-! ## What a step does -/

open ClusterState in
/-- The effects of a step, by what they do to the nodes and the lock. -/
inductive ClusterEffect (cap : Nat) (s : ClusterState) : ClusterAction → ClusterState → Prop
  | tick (ns : Nat) : ClusterEffect cap s (.tick ns) { s with now := s.now + ns }
  | crash (n : String) (kept : Nat) :
    ClusterEffect cap s (.crash n kept) (s.setNode n ((s.nodes n).crash kept))
  | reelected {n : String} {node : Node} {term : Nat} (down : (s.nodes n).role = .down)
    (opened : (s.nodes n).opened s.bucket = some node)
    (won : (handle n).tryAcquire node.term s.observed = .ok term) :
    ClusterEffect cap s (.start n) (s.elect n term { node with role := .elected term none })
  | joined {n : String} {node : Node} (term : Nat) (down : (s.nodes n).role = .down)
    (opened : (s.nodes n).opened s.bucket = some node) :
    ClusterEffect cap s (.start n) (s.setNode n
      { node with term, role := .follower (lastSeq node.store + 1) none false })
  /-- A follower stays where it is. -/
  | stayed {action : ClusterAction} {n : String} {fromRev : Int} {session : Option Session}
    {cleared : Bool} (follows : (s.nodes n).role = .follower fromRev session cleared) (term : Nat)
    (cleared' : Bool) :
    ClusterEffect cap s action
      (s.setNode n { s.nodes n with term, role := .follower fromRev none cleared' })
  | tookOver {n : String} {fromRev : Int} {term : Nat}
    (follows : (s.nodes n).role = .follower fromRev none true)
    (won : (handle n).takeOver (s.nodes n).term (currentRev (s.nodes n).store) s.observed =
      .ok term) :
    ClusterEffect cap s (.takeOver n)
      (s.elect n term { s.nodes n with role := .elected term (some fromRev) })
  | becameLeader {n : String} {term : Nat} {back : Option Int} {node : Node}
    (elected : (s.nodes n).role = .elected term back)
    (caughtUp : (s.nodes n).caughtUp s.bucket = some node) :
    ClusterEffect cap s (.becomeLeader n) { s.setNode n (node.lead term) with
      promotions := s.promotions ++ [⟨term, s.acked, node.store⟩] }
  | abandoned {n : String} {progress : Progress} {term : Nat} {back : Option Int} {node : Node}
    {role : Role} (elected : (s.nodes n).role = .elected term back)
    (found : (s.nodes n).abandoned s.bucket progress = some node)
    (returns : role = .down ∨ ∃ fromRev ∈ back, role = .follower fromRev none false) :
    ClusterEffect cap s (.abandon n progress) (s.setNode n { node with role })
  | connected {n m : String} {fromRev : Int} {cleared : Bool} {l : Leading}
    (follows : (s.nodes n).role = .follower fromRev none cleared)
    (leads : (s.nodes m).role = .leader l) :
    ClusterEffect cap s (.connect n m) ((s.setNode n { s.nodes n with
        role := .follower fromRev (some ⟨m, l.term⟩) false }).setNode m { s.nodes m with
      role := .leader { l with
        followers := (n, l.ack n) :: l.followers.filter (fun f => f.1 ≠ n) } })
  | hungUp {m n : String} {l : Leading} (leads : (s.nodes m).role = .leader l) :
    ClusterEffect cap s (.hangUp m n) (s.setNode m { s.nodes m with role := .leader { l with
      followers := l.followers.filter (fun f => f.1 ≠ n)
      disconnected := true } })
  /-- A `fencedCheck` of the watch loop. -/
  | checked {action : ClusterAction} {m : String} {l : Leading}
    (leads : (s.nodes m).role = .leader l) (disconnected polling touch : Bool) :
    ClusterEffect cap s action (s.fencedCheck m l { l with disconnected, polling } touch)
  | appended {m : String} {batch : List Entry} {l : Leading}
    (leads : (s.nodes m).role = .leader l) (idle : l.batch = none)
    (assigned : Assigned l.term l.nextSeq l.nextRev batch) :
    ClusterEffect cap s (.append m batch .ok) { s.setNode m { s.nodes m with
        log := (s.nodes m).log ++ batch
        role := .leader { l.count batch with batch := some { entries := batch } } } with
      written := s.written ++ batch }
  | cancelled {m : String} {batch : List Entry} {l : Leading}
    (leads : (s.nodes m).role = .leader l) (idle : l.batch = none)
    (assigned : Assigned l.term l.nextSeq l.nextRev batch) :
    ClusterEffect cap s (.append m batch .cancelled)
      (s.setNode m { s.nodes m with role := .leader (l.count batch) })
  | failed {m : String} {batch : List Entry} {l : Leading} {kept : Nat}
    (leads : (s.nodes m).role = .leader l) (idle : l.batch = none)
    (assigned : Assigned l.term l.nextSeq l.nextRev batch) :
    ClusterEffect cap s (.append m batch (.fails kept)) { s.setNode m { s.nodes m with
        log := (s.nodes m).log ++ batch.take kept
        role := .down } with
      written := s.written ++ batch.take kept }
  | committed {m : String} {l : Leading} {entries : List Entry}
    (leads : (s.nodes m).role = .leader l) (batch : l.batch = some ⟨entries, .logged⟩) :
    ClusterEffect cap s (.commit m) { s.setNode m { s.nodes m with
        role := .leader { l with
          buf := entries.foldl (Peer.pushBuffer cap) l.buf
          batch := some ⟨entries, .sent⟩ } } with
      committed := Function.update s.committed l.term (s.committed l.term ++ entries) }
  | waited {m : String} {l : Leading} {entries : List Entry}
    (leads : (s.nodes m).role = .leader l) (batch : l.batch = some ⟨entries, .sent⟩) :
    ClusterEffect cap s (.wait m) (s.setNode m { s.nodes m with
      role := .leader { l with batch := some ⟨entries, .waits (l.followers.map Prod.fst)⟩ } })
  | finished {m : String} {l : Leading} {entries acked : List Entry} {required : List String}
    (leads : (s.nodes m).role = .leader l) (batch : l.batch = some ⟨entries, .waits required⟩)
    (told : acked ⊆ s.acked ++ entries) :
    ClusterEffect cap s (.finish m) { s.setNode m { (s.nodes m).apply entries with
        role := .leader { l with batch := none } } with
      acked }
  | received {n : String} {batch : List Entry} {outcome : Peer.Outcome} {fromRev : Int}
    {session : Session} {cleared : Bool} {last : Entry}
    (follows : (s.nodes n).role = .follower fromRev (some session) cleared)
    (isLast : batch.getLast? = some last) (sub : batch ⊆ s.committed session.term)
    (numbered : Numbered Entry.sequence fromRev batch) :
    ClusterEffect cap s (.receive n batch outcome)
      ((s.setNode session.leader (if acknowledged outcome then
        (s.nodes session.leader).acknowledge n session.term last.sequence
        else s.nodes session.leader)).setNode n
          ((s.nodes n).receive batch last outcome fromRev session))
  | resynced {n : String} {replays : Bool} {fromRev : Int} {session : Option Session}
    {cleared : Bool} (follows : (s.nodes n).role = .follower fromRev session cleared) :
    ClusterEffect cap s (.resync n replays)
      (s.setNode n ((s.nodes n).resync s.bucket replays fromRev))
  | uploaded {n : String} {segment : Piece Entry}
    (logged : segment.items ⊆ (s.nodes n).log) :
    ClusterEffect cap s (.upload n segment) { s with bucket := { s.bucket with
      objects := s.bucket.objects.filter (fun p => p.key ≠ segment.key) ++ [segment] } }
  | collected (doomed : List SegmentName) :
    ClusterEffect cap s (.collect doomed) { s with bucket := { s.bucket with
      objects := s.bucket.objects.filter (fun p => p.key ∉ doomed) } }
  | checkpointed {m : String} {l : Leading} (leads : (s.nodes m).role = .leader l) :
    ClusterEffect cap s (.checkpoint m) { s with bucket := { s.bucket with
      checkpoint := some ⟨l.term, (s.nodes m).store⟩ } }

theorem ClusterEffect.of_step {cap : Nat} {mode : WaitMode} {s t : ClusterState}
    {action : ClusterAction} (stepped : clusterStep cap mode s action = some t) :
    ClusterEffect cap s action t := by
  revert stepped
  -- One case for each way through the step, in the order of the actions.
  fun_cases clusterStep cap mode s action <;> intro stepped <;> try cases stepped
  case case1 ns => exact .tick ns
  case case2 n kept => exact .crash n kept
  case case4 down _ opened _ won => exact .reelected down opened won
  case case5 n down node opened record _ =>
    exact @joined cap s n node (max node.term record.term) down opened
  case case7 follows _ _ => exact .stayed follows _ true
  case case8 follows _ _ _ => exact .stayed follows _ false
  case case9 follows _ _ _ _ => exact .stayed follows _ true
  case case11 follows _ won => exact .tookOver follows won
  case case12 follows _ _ => exact .stayed follows _ false
  case case14 elected =>
    obtain ⟨node, caughtUp, rfl⟩ := Option.map_eq_some_iff.mp stepped
    exact .becameLeader elected caughtUp
  case case16 back elected =>
    obtain ⟨node, found, rfl⟩ := Option.map_eq_some_iff.mp stepped
    refine .abandoned elected found ?_
    cases back with
    | none => exact Or.inl rfl
    | some fromRev => exact Or.inr ⟨fromRev, rfl, rfl⟩
  case case19 leads follows _ _ => exact .connected follows leads
  case case21 follows => exact .stayed follows _ false
  case case23 leads => exact .hungUp leads
  case case25 l leads => exact .checked leads l.disconnected l.polling false
  case case27 leads _ => exact .checked leads false true true
  case case30 l leads _ => exact .checked leads l.disconnected (l.followers = []) true
  case case33 leads enabled =>
    exact .appended leads (Option.isNone_iff_eq_none.mp enabled.1) enabled.2.2
  case case34 leads enabled =>
    exact .cancelled leads (Option.isNone_iff_eq_none.mp enabled.1) enabled.2.2
  case case35 leads enabled _ =>
    exact .failed leads (Option.isNone_iff_eq_none.mp enabled.1) enabled.2.2
  case case38 leads _ batch => exact .committed leads batch
  case case41 leads _ batch => exact .waited leads batch
  case case44 leads _ _ batch _ =>
    refine .finished leads batch ?_
    split
    · exact subset_append_left _ _
    · exact List.Subset.refl _
  case case48 isLast follows sent _ _ => exact .received follows isLast sent.1 sent.2
  case case51 follows => exact .resynced follows
  case case53 logged => exact .uploaded logged
  case case55 logged => exact .uploaded logged
  case case58 doomed => exact .collected doomed
  case case59 leads => exact .checkpointed leads

/-- A cluster from the first `Open` of its nodes on. -/
def cluster (cap : Nat) (mode : WaitMode) : System ClusterState ClusterAction where
  init s := s = {}
  step := clusterStep cap mode

end T4.Cluster
