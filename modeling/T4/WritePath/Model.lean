import T4.Lib.System
import T4.Store.Represents

/-!
# The write path

`writes.go` and the commit loop of `leader.go`: how a call is prepared under the
node's mutex, queued, committed in a group, and answered.

Everything a call does while it holds `n.mu` is one step; so are the steps of the
commit loop that other goroutines can observe: draining the queue, the return of
`WAL.AppendBatch`, `Store.Apply`, and clearing the pending overlay before the
callers are signalled. The node is open and leads (or is alone), so the checks
for a closed node and the forwarding of a follower are left out, as are metrics.

A call that has to wait is a `Waiter`; `Basis` records what an entry was computed
from. Neither is data of the source: they are what the goroutine of the call
remembers, and what the statements about the write path speak of.
-/

namespace T4.WritePath

open Lib Bytes Wal Mvcc

/-! ## Requests -/

inductive TxnCondTarget
  | mod
  | version
  | create
  | value
  | lease
  | unknown
  deriving DecidableEq

inductive TxnCondResult
  | equal
  | notEqual
  | greater
  | less
  | unknown
  deriving DecidableEq

/-- One predicate of a transaction. -/
structure TxnCondition where
  key : Bytes
  target : TxnCondTarget
  result : TxnCondResult
  modRevision : Int := 0
  createRevision : Int := 0
  version : Int := 0
  value : Bytes := []
  lease : Int := 0
  deriving DecidableEq

inductive TxnOpType
  | put
  | delete
  | unknown
  deriving DecidableEq

/-- One write operation in a branch of a transaction. -/
structure TxnOp where
  type : TxnOpType
  key : Bytes
  value : Bytes := []
  lease : Int := 0
  deriving DecidableEq

structure TxnRequest where
  conditions : List TxnCondition := []
  success : List TxnOp := []
  failure : List TxnOp := []
  deriving DecidableEq

inductive Call
  | put (key value : Bytes) (lease : Int)
  | create (key value : Bytes) (lease : Int)
  | update (key value : Bytes) (revision lease : Int)
  | delete (key : Bytes)
  | deleteIfRevision (key : Bytes) (revision : Int)
  | txn (req : TxnRequest)
  | compact (revision : Int)
  deriving DecidableEq

inductive CommitError
  | contextCanceled
  | store (err : StoreError)
  deriving DecidableEq

inductive Result
  /-- `Put`, `Create` and `Delete`; 0 when there was nothing to delete. -/
  | revision (rev : Int)
  | keyExists
  /-- `Update` and `DeleteIfRevision`: revision, old value, success. -/
  | cas (rev : Int) (old : Option KeyValue) (ok : Bool)
  | txn (succeeded : Bool) (rev : Int) (deletedKeys : List Bytes)
  | txnTooManyOps (n : Nat)
  | txnDuplicateKey (key : Bytes)
  | compacted
  | readError (err : StoreError)
  | commitError (err : CommitError)
  /-- The caller's context ended first. -/
  | contextError
  deriving DecidableEq

/-! ## The node -/

/-- An assigned write that is not yet applied. -/
structure PendingKV where
  rev : Int
  deleted : Bool := false
  kv : Option KeyValue := none
  deriving DecidableEq

/-- What an entry was computed from: the keys read while it was prepared, and for a
transaction the conditions and their joint outcome. -/
structure Basis where
  reads : List Bytes
  conditions : List TxnCondition := []
  succeeded : Bool := true
  deriving DecidableEq

/-- A request in the queue of the commit loop. -/
structure WriteReq where
  id : Nat
  entry : Entry
  basis : Basis
  deriving DecidableEq

def entries (reqs : List WriteReq) : List Entry := reqs.map WriteReq.entry

inductive Phase
  /-- Waiting for a request. -/
  | idle
  /-- A batch is drained and handed to `AppendBatch`. -/
  | collected (batch : List WriteReq)
  /-- `AppendBatch` returned without an error. -/
  | appended (batch : List WriteReq)
  /-- `Store.Apply` returned without an error. -/
  | applied (batch : List WriteReq)
  /-- `AppendBatch` returned the context error, or `Store.Apply` failed. -/
  | failed (batch : List WriteReq) (err : CommitError)
  /-- The loop ended after an error that is not the callers'. -/
  | stopped
  deriving DecidableEq

/-- The part of the node that the write path uses. -/
structure Node where
  term : Nat := 1
  nextRev : Int
  nextSeq : Int
  pending : SortedMap Bytes PendingKV
  writeC : List WriteReq := []
  db : Store

def kvVersion (kv : KeyValue) : Int := if kv.version > 0 then kv.version else 1

def nextPutVersion : Option KeyValue → Int
  | none => 1
  | some existing => kvVersion existing + 1

namespace Node

/-- The current value of `key`: in-flight writes first, then Pebble. -/
def readKey (n : Node) (key : Bytes) : Except StoreError (Option KeyValue) :=
  match n.pending.get key with
  | some p => if p.deleted then .ok none else .ok p.kv
  | none => n.db.get key

/-- How a call leaves the critical section. -/
inductive Begun
  | returned (result : Result)
  /-- The entry is sent; `key` is the pending entry that `await` removes. -/
  | queued (entry : Entry) (basis : Basis) (key : Bytes) (result : Result)
  deriving DecidableEq

/-- What the caller gets, now or once the entry is committed. -/
def Begun.result : Begun → Result
  | .returned result | .queued _ _ _ result => result

/-! ## Single-key calls -/

/-- Assign the next revision and sequence to a write of `key` and note it as
pending. -/
def preparePut (n : Node) (key value : Bytes) (lease : Int) : Except StoreError (Node × Entry) :=
  match n.readKey key with
  | .error err => .error err
  | .ok existing =>
    let newRev := n.nextRev + 1
    let seq := n.nextSeq + 1
    let op := if existing.isNone then Op.create else Op.update
    let createRev := (existing.map KeyValue.createRevision).getD newRev
    let prevRev := (existing.map KeyValue.revision).getD 0
    let version := nextPutVersion existing
    .ok ({ n with
        nextRev := newRev
        nextSeq := seq
        pending := n.pending.insert key { rev := newRev, kv := some {
          key, value, revision := newRev, createRevision := createRev, prevRevision := prevRev,
          version, lease } } },
      { id := seq, revision := newRev, term := n.term, op, key, value, lease,
        createRevision := createRev, prevRevision := prevRev, version })

def put (n : Node) (key value : Bytes) (lease : Int) : Node × Begun :=
  match n.preparePut key value lease with
  | .error err => (n, .returned (.readError err))
  | .ok (n, e) => (n, .queued e { reads := [key] } key (.revision e.revision))

def create (n : Node) (key value : Bytes) (lease : Int) : Node × Begun :=
  match n.readKey key with
  | .error err => (n, .returned (.readError err))
  | .ok (some _) => (n, .returned .keyExists)
  | .ok none =>
    let newRev := n.nextRev + 1
    let seq := n.nextSeq + 1
    ({ n with
        nextRev := newRev
        nextSeq := seq
        pending := n.pending.insert key { rev := newRev, kv := some {
          key, value, revision := newRev, createRevision := newRev, version := 1, lease } } },
      .queued
        { id := seq, revision := newRev, term := n.term, op := Op.create, key, value, lease,
          createRevision := newRev, version := 1 }
        { reads := [key] } key (.revision newRev))

def update (n : Node) (key value : Bytes) (revision lease : Int) : Node × Begun :=
  match n.readKey key with
  | .error err => (n, .returned (.readError err))
  | .ok none => (n, .returned (.cas n.db.currentRev none false))
  | .ok (some existing) =>
    if existing.revision ≠ revision then
      (n, .returned (.cas n.db.currentRev (some existing) false))
    else
      let newRev := n.nextRev + 1
      let seq := n.nextSeq + 1
      let version := kvVersion existing + 1
      ({ n with
          nextRev := newRev
          nextSeq := seq
          pending := n.pending.insert key { rev := newRev, kv := some {
            key, value, revision := newRev, createRevision := existing.createRevision,
            prevRevision := existing.revision, version, lease } } },
        .queued
          { id := seq, revision := newRev, term := n.term, op := Op.update, key, value, lease,
            createRevision := existing.createRevision, prevRevision := existing.revision, version }
          { reads := [key] } key (.cas newRev (some existing) true))

/-- The delete entry for `key`; the zero entry, with an empty key, when `key` does not
exist. -/
def prepareDelete (n : Node) (key : Bytes) : Except StoreError (Node × Entry) :=
  match n.readKey key with
  | .error err => .error err
  | .ok none => .ok (n, {})
  | .ok (some existing) =>
    let newRev := n.nextRev + 1
    let seq := n.nextSeq + 1
    .ok ({ n with
        nextRev := newRev
        nextSeq := seq
        pending := n.pending.insert key { rev := newRev, deleted := true } },
      { id := seq, revision := newRev, term := n.term, op := Op.delete, key,
        createRevision := existing.createRevision, prevRevision := existing.revision,
        version := kvVersion existing })

def delete (n : Node) (key : Bytes) : Node × Begun :=
  match n.prepareDelete key with
  | .error err => (n, .returned (.readError err))
  | .ok (n, e) =>
    -- An empty key in the entry means "not found"; the node keeps what was prepared.
    if e.key = [] then (n, .returned (.revision 0))
    else (n, .queued e { reads := [key] } key (.revision e.revision))

def deleteIfRevision (n : Node) (key : Bytes) (revision : Int) : Node × Begun :=
  match n.readKey key with
  | .error err => (n, .returned (.readError err))
  | .ok none => (n, .returned (.cas n.db.currentRev none false))
  | .ok (some existing) =>
    if revision ≠ 0 ∧ existing.revision ≠ revision then
      (n, .returned (.cas n.db.currentRev (some existing) false))
    else
      match n.prepareDelete key with
      | .error err => (n, .returned (.readError err))
      | .ok (n, e) =>
        if e.key = [] then (n, .returned (.cas 0 none false))
        else (n, .queued e { reads := [key] } key (.cas e.revision (some existing) true))

/-- Compaction takes a sequence number but no revision. -/
def compact (n : Node) (revision : Int) : Node × Begun :=
  let seq := n.nextSeq + 1
  ({ n with nextSeq := seq },
    .queued
      { id := seq, revision := n.nextRev, term := n.term, op := Op.compact,
        prevRevision := revision }
      { reads := [] } [] .compacted)

/-! ## Transactions -/

end Node

/-- Whether `existing` satisfies `cond`; an absent key has zero fields. -/
def txnCondMatches (cond : TxnCondition) (existing : Option KeyValue) : Bool :=
  let modRev := (existing.map KeyValue.revision).getD 0
  let createRev := (existing.map KeyValue.createRevision).getD 0
  let version := (existing.map kvVersion).getD 0
  let lease := (existing.map KeyValue.lease).getD 0
  let val := (existing.map KeyValue.value).getD []
  let compare (lhs rhs : Int) : Bool :=
    match cond.result with
    | .equal => lhs = rhs
    | .notEqual => lhs ≠ rhs
    | .greater => lhs > rhs
    | .less => lhs < rhs
    | .unknown => false
  match cond.target with
  | .mod => compare modRev cond.modRevision
  | .version => compare version cond.version
  | .create => compare createRev cond.createRevision
  | .lease => compare lease cond.lease
  | .value =>
    match cond.result with
    | .equal => val = cond.value
    | .notEqual => val ≠ cond.value
    | _ => false
  | .unknown => false

/-- An operation of the selected branch after the current state was read. -/
structure ResolvedOp where
  walOp : Op
  key : Bytes
  value : Bytes := []
  lease : Int := 0
  createRevision : Int := 0
  prevRevision : Int := 0
  version : Int := 0
  deriving DecidableEq

/-- Resolve one operation against the current value of its key. Deleting an absent
key is skipped, and so is an operation of unknown type. -/
def resolveOp (op : TxnOp) (existing : Option KeyValue) : Option ResolvedOp :=
  match op.type, existing with
  | .put, none =>
    some { walOp := Op.create, key := op.key, value := op.value, lease := op.lease, version := 1 }
  | .put, some existing =>
    some { walOp := Op.update, key := op.key, value := op.value, lease := op.lease,
           createRevision := existing.createRevision, prevRevision := existing.revision,
           version := kvVersion existing + 1 }
  | .delete, none => none
  | .delete, some existing =>
    some { walOp := Op.delete, key := op.key, createRevision := existing.createRevision,
           prevRevision := existing.revision, version := kvVersion existing }
  | .unknown, _ => none

def firstDuplicate (seen : List Bytes) : List ResolvedOp → Option Bytes
  | [] => none
  | r :: rest => if r.key ∈ seen then some r.key else firstDuplicate (r.key :: seen) rest

def ResolvedOp.subOp (newRev : Int) (r : ResolvedOp) : TxnSubOp where
  op := r.walOp
  key := r.key
  value := r.value
  lease := r.lease
  createRevision := if r.walOp = Op.create then newRev else r.createRevision
  prevRevision := r.prevRevision
  version := r.version

/-- What a sub-operation at `newRev` leaves in the pending overlay. -/
def pendingOf (newRev : Int) (o : TxnSubOp) : PendingKV :=
  if o.op = Op.delete then { rev := newRev, deleted := true }
  else { rev := newRev, kv := some {
    key := o.key, value := o.value, revision := newRev, createRevision := o.createRevision,
    prevRevision := o.prevRevision, version := o.version, lease := o.lease } }

/-- The outcome of `prepareTxn`. -/
inductive PreparedTxn
  | error (result : Result)
  /-- No write is needed. -/
  | noop (succeeded : Bool)
  | entry (e : Entry) (basis : Basis) (succeeded : Bool) (deletedKeys : List Bytes)
  deriving DecidableEq

namespace Node

/-- Evaluate the conditions up to the first that fails; also the keys read. -/
def evalConditions (n : Node) : List TxnCondition → Except StoreError (Bool × List Bytes)
  | [] => .ok (true, [])
  | cond :: rest =>
    match n.readKey cond.key with
    | .error err => .error err
    | .ok existing =>
      if ¬ txnCondMatches cond existing then .ok (false, [cond.key])
      else
        match n.evalConditions rest with
        | .error err => .error err
        | .ok (succeeded, reads) => .ok (succeeded, cond.key :: reads)

/-- Read and resolve all operations before any number is assigned. -/
def resolveOps (n : Node) : List TxnOp → Except StoreError (List ResolvedOp)
  | [] => .ok []
  | op :: rest =>
    match n.readKey op.key with
    | .error err => .error err
    | .ok existing =>
      match n.resolveOps rest with
      | .error err => .error err
      | .ok active => .ok ((resolveOp op existing).toList ++ active)

def setPending (n : Node) (newRev : Int) (subOps : List TxnSubOp) : Node :=
  { n with pending :=
      subOps.foldl (fun pending o => pending.insert o.key (pendingOf newRev o)) n.pending }

def prepareTxn (n : Node) (req : TxnRequest) : Node × PreparedTxn :=
  match n.evalConditions req.conditions with
  | .error err => (n, .error (.readError err))
  | .ok (succeeded, reads) =>
    let ops := if succeeded then req.success else req.failure
    if ops = [] then (n, .noop succeeded)
    else
      match n.resolveOps ops with
      | .error err => (n, .error (.readError err))
      | .ok active =>
        if active = [] then (n, .noop succeeded)
        else if active.length > 65535 then (n, .error (.txnTooManyOps active.length))
        else
          match firstDuplicate [] active with
          | some key => (n, .error (.txnDuplicateKey key))
          | none =>
            let newRev := n.nextRev + 1
            let seq := n.nextSeq + 1
            let subOps := active.map (ResolvedOp.subOp newRev)
            let deletedKeys := (subOps.filter (fun o => o.op = Op.delete)).map TxnSubOp.key
            ({ n.setPending newRev subOps with nextRev := newRev, nextSeq := seq },
              .entry { id := seq, revision := newRev, term := n.term, op := Op.txn,
                       value := encodeTxnOps subOps }
                { reads := reads ++ ops.map TxnOp.key, conditions := req.conditions, succeeded }
                succeeded deletedKeys)

def txn (n : Node) (req : TxnRequest) : Node × Begun :=
  match n.prepareTxn req with
  | (n, .error result) => (n, .returned result)
  | (n, .noop succeeded) => (n, .returned (.txn succeeded n.db.currentRev []))
  | (n, .entry e basis succeeded deletedKeys) =>
    (n, .queued e basis [] (.txn succeeded e.revision deletedKeys))

/-- The part of a call that runs under the mutex, up to the send to the queue. -/
def begin (n : Node) : Call → Node × Begun
  | .put key value lease => n.put key value lease
  | .create key value lease => n.create key value lease
  | .update key value revision lease => n.update key value revision lease
  | .delete key => n.delete key
  | .deleteIfRevision key revision => n.deleteIfRevision key revision
  | .txn req => n.txn req
  | .compact revision => n.compact revision

/-! ## Clearing the overlay -/

/-- Remove the pending entry of `key` unless a newer write has replaced it. -/
def clearPending (n : Node) (key : Bytes) (rev : Int) : Node :=
  match n.pending.get key with
  | some p => if p.rev = rev then { n with pending := n.pending.erase key } else n
  | none => n

/-- The keys whose pending entries `clearPendingBatch` looks up for one request. -/
def clearKeys (e : Entry) : List Bytes :=
  if e.op = Op.txn then
    match decodeTxnOps e.value with
    | .ok ops => ops.map TxnSubOp.key
    | .error _ => []
  else if e.key = [] then []
  else [e.key]

def clearPendingBatch (n : Node) (batch : List WriteReq) : Node :=
  batch.foldl (fun n req =>
    (clearKeys req.entry).foldl (fun n key => n.clearPending key req.entry.revision) n) n

/-- The clean-up of `await`; transactions and compactions pass an empty key. -/
def cleanPending (n : Node) (key : Bytes) (rev : Int) : Node :=
  if key = [] then n else n.clearPending key rev

end Node

/-! ## The transition system -/

/-- A call that waits for the commit loop. -/
structure Waiter where
  id : Nat
  key : Bytes
  rev : Int
  result : Result
  /-- What the commit loop sent on `req.done`. -/
  done : Option (Option CommitError) := none
  /-- The caller is gone; a goroutine waits in its place. -/
  abandoned : Bool := false
  deriving DecidableEq

/-- What the caller gets once the commit loop has signalled `err`. -/
def Waiter.answer (w : Waiter) : Option CommitError → Result
  | none => w.result
  | some err => .commitError err

structure WriteState where
  node : Node
  phase : Phase := .idle
  /-- The entries accepted by `AppendBatch`. -/
  wal : List Entry := []
  /-- The entries applied to the store. -/
  applied : List Entry := []
  calls : Nat := 0
  cancelled : List Nat := []
  waiting : List Waiter := []
  results : List (Nat × Result) := []

inductive WriteAction
  | call (c : Call)
  /-- The context of a call ends. -/
  | cancel (id : Nat)
  /-- The commit loop drains the first `count` requests. -/
  | take (count : Nat)
  | append
  | reject
  | apply
  /-- Clear the overlay, then signal the callers. -/
  | finish
  /-- `await` gets the answer. -/
  | wake (id : Nat)
  /-- `await` gives up. -/
  | abandon (id : Nat)
  deriving DecidableEq

/-- The arguments are values of their machine types, and keys and values have a size
that Pebble accepts. -/
def TxnOp.WellTyped (op : TxnOp) : Prop :=
  op.key.length < 2 ^ 32 ∧ op.value.length < 2 ^ 32 ∧ IsInt64 op.lease

instance (op : TxnOp) : Decidable op.WellTyped := inferInstanceAs (Decidable (_ ∧ _))

/-- The arguments are values of their machine types, and keys and values have a size
that Pebble accepts. -/
def Call.WellTyped : Call → Prop
  | .put key value lease | .create key value lease | .update key value _ lease =>
    key.length < 2 ^ 32 ∧ value.length < 2 ^ 32 ∧ IsInt64 lease
  | .delete key | .deleteIfRevision key _ => key.length < 2 ^ 32
  | .txn req => (∀ op ∈ req.success, op.WellTyped) ∧ ∀ op ∈ req.failure, op.WellTyped
  | .compact revision => IsInt64 revision

instance (c : Call) : Decidable c.WellTyped := by
  cases c <;> unfold Call.WellTyped <;> infer_instance

/-- Send `err` to the callers of a batch. -/
def signal (batch : List WriteReq) (err : Option CommitError) (w : Waiter) : Waiter :=
  if w.id ∈ batch.map WriteReq.id then { w with done := some err } else w

def beginCall (s : WriteState) (c : Call) : WriteState :=
  match s.node.begin c with
  | (node, .returned result) =>
    { s with node, calls := s.calls + 1, results := s.results ++ [(s.calls, result)] }
  | (node, .queued entry basis key result) =>
    { s with
      node := { node with writeC := node.writeC ++ [{ id := s.calls, entry, basis }] }
      calls := s.calls + 1
      waiting := s.waiting ++ [{ id := s.calls, key, rev := entry.revision, result }] }

/-- The step function. A call is enabled while the node is not closed and its counters
are below their maximum. -/
def writeStep (s : WriteState) : WriteAction → Option WriteState
  | .call c =>
    if c.WellTyped ∧ s.phase ≠ .stopped ∧ s.node.nextRev < 2 ^ 63 - 1 ∧
        s.node.nextSeq < 2 ^ 63 - 1 then
      some (beginCall s c)
    else none
  | .cancel id => if id < s.calls then some { s with cancelled := id :: s.cancelled } else none
  | .take count =>
    match s.phase with
    | .idle =>
      if 0 < count ∧ count ≤ s.node.writeC.length then
        some { s with
          phase := .collected (s.node.writeC.take count)
          node := { s.node with writeC := s.node.writeC.drop count } }
      else none
    | _ => none
  | .append =>
    match s.phase with
    | .collected batch =>
      some { s with phase := .appended batch, wal := s.wal ++ entries batch }
    | _ => none
  | .reject =>
    match s.phase with
    -- The context of one of the callers ends, or a sync upload fails with a context error.
    | .collected batch => some { s with phase := .failed batch .contextCanceled }
    | _ => none
  | .apply =>
    match s.phase with
    | .appended batch =>
      match s.node.db.apply (entries batch) with
      | (db, none) =>
        some { s with
          phase := .applied batch
          node := { s.node with db }
          applied := s.applied ++ entries batch }
      | (db, some err) =>
        some { s with phase := .failed batch (.store err), node := { s.node with db } }
    | _ => none
  | .finish =>
    match s.phase with
    | .applied batch =>
      some { s with
        phase := .idle
        node := s.node.clearPendingBatch batch
        waiting := s.waiting.map (signal batch none) }
    | .failed batch err =>
      some { s with
        phase := if err = .contextCanceled then .idle else .stopped
        node := s.node.clearPendingBatch batch
        waiting := s.waiting.map (signal batch (some err)) }
    | _ => none
  | .wake id =>
    match s.waiting.find? (fun w => w.id = id) with
    | none => none
    | some w =>
      match w.done with
      | none => none
      | some err =>
        some { s with
          node := s.node.cleanPending w.key w.rev
          waiting := s.waiting.filter (fun w => w.id ≠ id)
          results := if w.abandoned then s.results else s.results ++ [(id, w.answer err)] }
  | .abandon id =>
    match s.waiting.find? (fun w => w.id = id) with
    | none => none
    | some w =>
      if w.abandoned ∨ id ∉ s.cancelled then none
      else some { s with
        waiting := s.waiting.map (fun w => if w.id = id then { w with abandoned := true } else w)
        results := s.results ++ [(id, .contextError)] }

inductive WriteEffect (s : WriteState) : WriteAction → WriteState → Prop
  | call {c : Call} (typed : c.WellTyped) (opened : s.phase ≠ .stopped)
      (roomRev : s.node.nextRev < 2 ^ 63 - 1) (roomSeq : s.node.nextSeq < 2 ^ 63 - 1) :
      WriteEffect s (.call c) (beginCall s c)
  | cancel {id : Nat} (begun : id < s.calls) :
      WriteEffect s (.cancel id) { s with cancelled := id :: s.cancelled }
  | take {count : Nat} (isIdle : s.phase = .idle) (positive : 0 < count)
      (enough : count ≤ s.node.writeC.length) :
      WriteEffect s (.take count) { s with
        phase := .collected (s.node.writeC.take count)
        node := { s.node with writeC := s.node.writeC.drop count } }
  | append {batch : List WriteReq} (collected : s.phase = .collected batch) :
      WriteEffect s .append { s with phase := .appended batch, wal := s.wal ++ entries batch }
  | reject {batch : List WriteReq} (collected : s.phase = .collected batch) :
      WriteEffect s .reject { s with phase := .failed batch .contextCanceled }
  | apply {batch : List WriteReq} {db : Store} (appended : s.phase = .appended batch)
      (applies : s.node.db.apply (entries batch) = (db, none)) :
      WriteEffect s .apply { s with
        phase := .applied batch
        node := { s.node with db }
        applied := s.applied ++ entries batch }
  | applyFailed {batch : List WriteReq} {db : Store} {err : StoreError}
      (appended : s.phase = .appended batch)
      (fails : s.node.db.apply (entries batch) = (db, some err)) :
      WriteEffect s .apply { s with
        phase := .failed batch (.store err), node := { s.node with db } }
  | finish {batch : List WriteReq} (applied : s.phase = .applied batch) :
      WriteEffect s .finish { s with
        phase := .idle
        node := s.node.clearPendingBatch batch
        waiting := s.waiting.map (signal batch none) }
  | finishFailed {batch : List WriteReq} {err : CommitError}
      (failed : s.phase = .failed batch err) :
      WriteEffect s .finish { s with
        phase := if err = .contextCanceled then .idle else .stopped
        node := s.node.clearPendingBatch batch
        waiting := s.waiting.map (signal batch (some err)) }
  | wake {w : Waiter} {err : Option CommitError} (found : w ∈ s.waiting)
      (done : w.done = some err) :
      WriteEffect s (.wake w.id) { s with
        node := s.node.cleanPending w.key w.rev
        waiting := s.waiting.filter (fun other => other.id ≠ w.id)
        results := if w.abandoned then s.results else s.results ++ [(w.id, w.answer err)] }
  | abandon {w : Waiter} (found : w ∈ s.waiting) (present : ¬ w.abandoned)
      (gone : w.id ∈ s.cancelled) :
      WriteEffect s (.abandon w.id) { s with
        waiting := s.waiting.map
          (fun other => if other.id = w.id then { other with abandoned := true } else other)
        results := s.results ++ [(w.id, .contextError)] }

theorem mem_of_find_id {waiting : List Waiter} {id : Nat} {w : Waiter}
    (found : waiting.find? (fun w => w.id = id) = some w) : w ∈ waiting ∧ w.id = id :=
  ⟨List.mem_of_find?_eq_some found, by simpa using List.find?_some found⟩

/-- A node that starts to accept writes: its store holds a history of the write path
and the counters are the store's. -/
structure Starts (h : List Entry) (s : WriteState) : Prop where
  chained : Chained h
  stored : s.node.db.Represents h
  nextRev : s.node.nextRev = s.node.db.currentRev
  nextSeq : s.node.nextSeq = s.node.db.lastSeq
  fresh : s = { node := { s.node with pending := SortedMap.empty, writeC := [] } }

def writePath : System WriteState WriteAction where
  init s := ∃ h, Starts h s
  step := writeStep

/-- **Step inversion.** -/
theorem WriteEffect.of_step {s next : WriteState} {a : WriteAction}
    (stepped : writePath.step s a = some next) : WriteEffect s a next := by
  change writeStep s a = some next at stepped
  revert stepped
  -- One case for each way through the step, in the order of the actions.
  fun_cases writeStep s a <;> rintro ⟨⟩
  case case1 enabled =>
    obtain ⟨typed, opened, roomRev, roomSeq⟩ := enabled
    exact .call typed opened roomRev roomSeq
  case case3 begun => exact .cancel begun
  case case5 phase count => exact .take phase count.1 count.2
  case case8 phase => exact .append phase
  case case10 phase => exact .reject phase
  case case12 phase _ applies => exact .apply phase applies
  case case13 phase _ _ fails => exact .applyFailed phase fails
  case case15 phase => exact .finish phase
  case case16 phase => exact .finishFailed phase
  case case20 w found err done =>
    obtain ⟨mem, rfl⟩ := mem_of_find_id found
    exact .wake mem done
  case case23 w found present =>
    obtain ⟨mem, rfl⟩ := mem_of_find_id found
    rw [not_or, not_not] at present
    exact .abandon mem present.1 present.2

end T4.WritePath
