import T4.Etcd.Watch
import T4.Lib.Program
import T4.WritePath.Sequential

/-!
# The KV service

`etcd/kv.go`: Range, Put, DeleteRange and the comparisons of Txn on top of the node.
A handler is a program that calls the node. Other clients act between its calls and the
node may follow a leader, so nothing relates the states at two calls of one request.

A world is a node with any content of its database, and the leases that are granted
and not expired. Lease records are read to check a lease id and never leave the
server; their encoding is not modelled. Headers are their revision.
-/

namespace T4.Etcd

open Lib Bytes Text Wal Mvcc WritePath

/-! ## Requests and responses -/

structure RangeRequest where
  key : Bytes
  rangeEnd : Bytes := []
  limit : Int := 0
  revision : Int := 0
  serializable : Bool := false
  keysOnly : Bool := false
  countOnly : Bool := false
  deriving DecidableEq

structure RangeResponse where
  revision : Int
  kvs : List WireKV := []
  count : Int := 0
  more : Bool := false
  deriving DecidableEq

structure PutRequest where
  key : Bytes
  value : Bytes := []
  lease : Int := 0
  prevKv : Bool := false
  deriving DecidableEq

structure PutResponse where
  revision : Int
  prevKv : Option WireKV := none
  deriving DecidableEq

structure DeleteRangeResponse where
  revision : Int
  deleted : Int := 0
  prevKvs : List WireKV := []
  deriving DecidableEq

/-- `Compare_CompareResult`, with the numbers the protocol does not define. -/
inductive CompareResult
  | equal
  | greater
  | less
  | notEqual
  | unrecognized (number : Int)
  deriving DecidableEq

/-- `Compare_CompareTarget`, likewise. -/
inductive CompareTarget
  | version
  | create
  | mod
  | value
  | lease
  | unrecognized (number : Int)
  deriving DecidableEq

/-- `Compare.TargetUnion`. -/
inductive TargetUnion
  | unset
  | version (v : Int)
  | createRevision (rev : Int)
  | modRevision (rev : Int)
  | value (v : Bytes)
  | lease (id : Int)
  deriving DecidableEq

structure Compare where
  key : Bytes
  result : CompareResult
  target : CompareTarget
  targetUnion : TargetUnion := .unset
  deriving DecidableEq

/-! ## The node as the handlers see it -/

inductive NodeError
  | closed
  | noLeader
  | context
  | store (err : StoreError)
  | commit (err : CommitError)
  | keyExists
  | txnTooManyOps (n : Nat)
  | txnDuplicateKey (key : Bytes)
  /-- An error of the leader that a follower passes on. -/
  | remote (message : String)
  deriving DecidableEq

inductive ServerError
  | noLeader
  | compacted
  | futureRev
  | node (err : NodeError)
  | invalidArgument (message : String)
  | notFound (message : String)
  | unimplemented (message : String)
  | permissionDenied (message : String)
  /-- "permission denied on key" with the quoted key. -/
  | deniedOnKey (key : Bytes)
  | unauthenticated (message : String)
  deriving DecidableEq

def kvError : NodeError → ServerError
  | .noLeader => .noLeader
  | .store .compacted => .compacted
  | .store .futureRevision => .futureRev
  | err => .node err

/-- `t4.TxnResponse`. -/
structure NodeTxnResponse where
  succeeded : Bool
  revision : Int
  deletedKeys : List Bytes
  deriving DecidableEq

/-- The calls of the handlers. Reads are local or linearizable. -/
inductive NodeCall
  | compactRevision
  | currentRevision
  | get (linearizable : Bool) (key : Bytes) (revision : Int)
  | exists (linearizable : Bool) (key : Bytes) (revision : Int)
  | list (linearizable : Bool) (pfx : Bytes) (limit revision : Int)
  | count (linearizable : Bool) (pfx : Bytes) (revision : Int)
  /-- Whether a lease is granted and not expired. -/
  | lease (id : Int)
  | put (key value : Bytes) (lease : Int)
  | delete (key : Bytes)
  | txn (req : TxnRequest)

@[reducible]
def NodeCall.Answer : NodeCall → Type
  | .compactRevision | .currentRevision => Int
  | .get .. => Except NodeError (Option KeyValue)
  | .exists .. | .lease _ => Except NodeError Bool
  | .list .. => Except NodeError (List KeyValue)
  | .count .. => Except NodeError Int
  | .put .. | .delete _ => Except NodeError Int
  | .txn _ => Except NodeError NodeTxnResponse

/-- What a call to the node meets. -/
structure World where
  node : Node
  /-- The leases that are granted and not expired. -/
  leases : Int → Bool

/-- `Node.Get`. -/
def nodeGet (db : Store) (key : Bytes) (revision : Int) : Except StoreError (Option KeyValue) :=
  if revision > 0 then db.getAt key revision else db.get key

/-- `Node.Exists`. -/
def nodeExists (db : Store) (key : Bytes) (revision : Int) : Except StoreError Bool :=
  if revision > 0 then (db.getAt key revision).map Option.isSome
  else .ok (getIdxRev db.db key ≠ 0)

def Result.failure : Result → Option NodeError
  | .keyExists => some .keyExists
  | .txnTooManyOps n => some (.txnTooManyOps n)
  | .txnDuplicateKey key => some (.txnDuplicateKey key)
  | .readError err => some (.store err)
  | .commitError err => some (.commit err)
  | .contextError => some .context
  | _ => none

/-- What `Put` and `Delete` return. -/
def revisionAnswer : Result → Except NodeError Int
  | .revision rev => .ok rev
  | result => .error ((Result.failure result).getD .context)

/-- What `Txn` returns. -/
def txnAnswer : Result → Except NodeError NodeTxnResponse
  | .txn succeeded revision deletedKeys => .ok { succeeded, revision, deletedKeys }
  | result => .error ((Result.failure result).getD .context)

/-- The keys of the operations in the entry that a transaction queues. -/
def txnWrites (n : Node) (req : TxnRequest) : List Bytes :=
  match (n.txn req).2, n.evalConditions req.conditions with
  | .queued .., .ok (succeeded, _) =>
    match n.resolveOps (if succeeded then req.success else req.failure) with
    | .ok active => active.map ResolvedOp.key
    | .error _ => []
  | _, _ => []

/-- The key of the entry that a put or a delete queues. -/
def keyWrites : Node.Begun → List Bytes
  | .queued e _ _ _ => [e.key]
  | .returned _ => []

/-- The answer to a call, and the keys that are written. -/
def World.serve (w : World) : (q : NodeCall) → q.Answer × List Bytes
  | .compactRevision => (w.node.db.compactRev, [])
  | .currentRevision => (w.node.db.currentRev, [])
  | .get _ key revision => ((nodeGet w.node.db key revision).mapError .store, [])
  | .exists _ key revision => ((nodeExists w.node.db key revision).mapError .store, [])
  | .list _ pfx limit revision =>
    ((w.node.db.listRange pfx { revision, limit }).mapError .store, [])
  | .count _ pfx revision => ((w.node.db.countRange pfx { revision }).mapError .store, [])
  | .lease id => (.ok (w.leases id), [])
  | .put key value lease =>
    let begun := (w.node.put key value lease).2
    (revisionAnswer begun.result, keyWrites begun)
  | .delete key =>
    let begun := (w.node.delete key).2
    (revisionAnswer begun.result, keyWrites begun)
  | .txn req => (txnAnswer (w.node.txn req).2.result, txnWrites w.node req)

/-! ## Conversions -/

def validateUserKey (key : Bytes) : Except ServerError Unit :=
  if isInternalKey key then .error (.invalidArgument "key uses reserved internal prefix")
  else .ok ()

def kvToProtoForRange (kv : KeyValue) (keysOnly : Bool) : WireKV :=
  if keysOnly then { kvToProto kv with value := [] } else kvToProto kv

def isPrefixRangeEnd (key rangeEnd : Bytes) : Prop := prefixRangeEnd key = rangeEnd

instance (key rangeEnd : Bytes) : Decidable (isPrefixRangeEnd key rangeEnd) :=
  inferInstanceAs (Decidable (_ = _))

def isExactPrefixRange (key rangeEnd : Bytes) : Prop :=
  key ≠ [] ∧ key.head? ≠ some 0 ∧ isPrefixRangeEnd key rangeEnd

instance (key rangeEnd : Bytes) : Decidable (isExactPrefixRange key rangeEnd) :=
  inferInstanceAs (Decidable (_ ∧ _ ∧ _))

def rangeScanPrefix (key rangeEnd : Bytes) : Bytes :=
  if isPrefixRangeEnd key rangeEnd then key else []

/-- The key lies in the interval of a request; an end of one zero byte is no end. -/
def InInterval (key rangeEnd k : Bytes) : Prop :=
  if rangeEnd = [0] then key ≤ k else key ≤ k ∧ k < rangeEnd

instance (key rangeEnd k : Bytes) : Decidable (InInterval key rangeEnd k) :=
  inferInstanceAs (Decidable (if rangeEnd = [0] then key ≤ k else key ≤ k ∧ k < rangeEnd))

def matchRange (kv : KeyValue) (key rangeEnd : Bytes) : Prop :=
  ¬ isInternalKey kv.key ∧ InInterval key rangeEnd kv.key

instance (kv : KeyValue) (key rangeEnd : Bytes) : Decidable (matchRange kv key rangeEnd) :=
  inferInstanceAs (Decidable (_ ∧ _))

def Compare.getModRevision (cmp : Compare) : Int :=
  match cmp.targetUnion with
  | .modRevision rev => rev
  | _ => 0

def Compare.getCreateRevision (cmp : Compare) : Int :=
  match cmp.targetUnion with
  | .createRevision rev => rev
  | _ => 0

def Compare.getVersion (cmp : Compare) : Int :=
  match cmp.targetUnion with
  | .version v => v
  | _ => 0

def Compare.getValue (cmp : Compare) : Bytes :=
  match cmp.targetUnion with
  | .value v => v
  | _ => []

def Compare.getLease (cmp : Compare) : Int :=
  match cmp.targetUnion with
  | .lease id => id
  | _ => 0

def convertResult : CompareResult → Except ServerError TxnCondResult
  | .equal => .ok .equal
  | .notEqual => .ok .notEqual
  | .greater => .ok .greater
  | .less => .ok .less
  | .unrecognized n => .error (.unimplemented s!"unsupported compare result {n}")

def convertCompare (cmp : Compare) : Except ServerError TxnCondition := do
  validateUserKey cmp.key
  let result ← convertResult cmp.result
  match cmp.target with
  | .mod => .ok { key := cmp.key, result, target := .mod,
                  modRevision := fromEtcdRevision cmp.getModRevision }
  | .version => .ok { key := cmp.key, result, target := .version, version := cmp.getVersion }
  | .create => .ok { key := cmp.key, result, target := .create,
                     createRevision := fromEtcdRevision cmp.getCreateRevision }
  | .value => .ok { key := cmp.key, result, target := .value, value := cmp.getValue }
  | .lease => .ok { key := cmp.key, result, target := .lease, lease := cmp.getLease }
  | .unrecognized n => .error (.unimplemented s!"unsupported compare target {n}")

/-! ## Handlers -/

/-- `Config.ReadConsistency`. -/
inductive ReadConsistency
  | linearizable
  | serializable
  deriving DecidableEq

abbrev Handler := Prog NodeCall NodeCall.Answer ServerError

/-- Go on with the result of a call, or fail with its error as `asError` puts it. -/
def orFail {α : Type} (asError : NodeError → ServerError) (answer : Except NodeError α) :
    Handler α :=
  Prog.ofExcept (answer.mapError asError)

/-- The revision of `headerAt (CurrentRevision())`. -/
def header : Handler Int := do
  let rev ← Prog.ask .currentRevision
  return toEtcdRevision rev

def rangeHeader (readRev : Int) : Handler Int :=
  if readRev > 0 then pure (toEtcdRevision readRev) else header

def rangeGet (lin : Bool) (key : Bytes) (rev : Int) : Handler (Option KeyValue) := do
  let answer ← Prog.ask (.get lin key rev)
  orFail kvError answer

def rangeExists (lin : Bool) (key : Bytes) (rev : Int) : Handler Bool := do
  let answer ← Prog.ask (.exists lin key rev)
  orFail kvError answer

def rangeList (lin : Bool) (pfx : Bytes) (limit rev : Int) : Handler (List KeyValue) := do
  let answer ← Prog.ask (.list lin pfx limit rev)
  orFail kvError answer

def rangeCount (lin : Bool) (pfx : Bytes) (rev : Int) : Handler Int := do
  let answer ← Prog.ask (.count lin pfx rev)
  orFail kvError answer

def rangeKey (r : RangeRequest) (lin : Bool) (readRev : Int) : Handler RangeResponse :=
  if isInternalKey r.key then do
    let revision ← rangeHeader readRev
    return { revision }
  else if r.countOnly then do
    let found ← rangeExists lin r.key readRev
    let revision ← rangeHeader readRev
    return { revision, count := if found then 1 else 0 }
  else do
    let kv ← rangeGet lin r.key readRev
    let revision ← rangeHeader readRev
    match kv with
    | none => return { revision }
    | some kv => return { revision, kvs := [kvToProtoForRange kv r.keysOnly], count := 1 }

/-- One turn of the loop over the listed keys: the total and what is returned. -/
def collectKey (r : RangeRequest) (acc : Int × List WireKV) (kv : KeyValue) : Int × List WireKV :=
  if ¬ matchRange kv r.key r.rangeEnd then acc
  else if r.limit > 0 ∧ (acc.2.length : Int) ≥ r.limit then (acc.1 + 1, acc.2)
  else (acc.1 + 1, acc.2 ++ [kvToProtoForRange kv r.keysOnly])

/-- The scan of an interval when only the number of its keys is asked for. -/
def rangeCountOnly (r : RangeRequest) (lin : Bool) (readRev : Int) : Handler RangeResponse :=
  if isExactPrefixRange r.key r.rangeEnd then do
    let count ← rangeCount lin (rangeScanPrefix r.key r.rangeEnd) readRev
    let revision ← rangeHeader readRev
    return { revision, count }
  else do
    let all ← rangeList lin (rangeScanPrefix r.key r.rangeEnd) 0 readRev
    let revision ← rangeHeader readRev
    return { revision, count := (all.filter (fun kv => matchRange kv r.key r.rangeEnd)).length }

def rangeScan (r : RangeRequest) (lin : Bool) (readRev : Int) : Handler RangeResponse :=
  if isExactPrefixRange r.key r.rangeEnd ∧ r.limit > 0 then do
    let total ← rangeCount lin (rangeScanPrefix r.key r.rangeEnd) readRev
    let all ← rangeList lin (rangeScanPrefix r.key r.rangeEnd) r.limit readRev
    let revision ← rangeHeader readRev
    return { revision, kvs := all.map (kvToProtoForRange · r.keysOnly), count := total,
             more := total > r.limit }
  else do
    let all ← rangeList lin (rangeScanPrefix r.key r.rangeEnd) 0 readRev
    let (total, kvs) := all.foldl (collectKey r) (0, [])
    let revision ← rangeHeader readRev
    return { revision, kvs, count := total, more := r.limit > 0 ∧ total > r.limit }

/-- Range after the checks of its revision. -/
def rangeRead (consistency : ReadConsistency) (r : RangeRequest) (readRev : Int) :
    Handler RangeResponse :=
  let lin := !r.serializable && consistency ≠ .serializable
  if r.rangeEnd = [] then rangeKey r lin readRev
  else if r.countOnly then rangeCountOnly r lin readRev
  else rangeScan r lin readRev

def range (consistency : ReadConsistency) (r : RangeRequest) : Handler RangeResponse :=
  let readRev := fromEtcdRevision r.revision
  if r.revision > 0 then do
    let compactRev ← Prog.ask .compactRevision
    if compactRev > 0 ∧ readRev < compactRev then .fail .compacted
    else if readRev = 0 then return { revision := toEtcdRevision 0 }
    else rangeRead consistency r readRev
  else rangeRead consistency r readRev

/-- `getLease`, of which only the error is used. -/
def getLease (id : Int) : Handler Unit :=
  if id ≤ 0 then .fail (.invalidArgument "lease ID must be positive")
  else do
    let answer ← Prog.ask (.lease id)
    let found ← orFail .node answer
    if found then return () else .fail (.notFound "lease not found")

def checkLease (id : Int) : Handler Unit := if id ≠ 0 then getLease id else return ()

/-- The value before a write, read without a lock, if the request asks for it. -/
def previous (wanted : Bool) (key : Bytes) : Handler (Option WireKV) :=
  if wanted then do
    let answer ← Prog.ask (.get false key 0)
    let prev ← orFail .node answer
    return prev.map kvToProto
  else return none

def put (r : PutRequest) : Handler PutResponse := do
  Prog.ofExcept (validateUserKey r.key)
  checkLease r.lease
  let prevKv ← previous r.prevKv r.key
  let answer ← Prog.ask (.put r.key r.value r.lease)
  let commitRev ← orFail kvError answer
  return { revision := toEtcdRevision commitRev, prevKv }

def DeleteRangeResponse.add (resp : DeleteRangeResponse) (prevKv : Bool)
    (deleted : List KeyValue) : DeleteRangeResponse :=
  { resp with
    deleted := resp.deleted + deleted.length
    prevKvs := resp.prevKvs ++ if prevKv then deleted.map kvToProto else [] }

end T4.Etcd
