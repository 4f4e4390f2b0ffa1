import T4.Lib.SortedMap
import T4.Store.Keys
import T4.Wal.Entry

/-!
# The state machine

`internal/store/store.go`: applying entries to Pebble and reading them back.

Pebble is an ordered map from byte strings to byte strings; a batch takes effect
as a whole when it is committed, and the iterators of a batch under construction
(compaction, replay cleanup) see the committed map only. Engine and disk errors
are not modelled: the errors that remain are those the store itself detects.
Watchers and their notification are left out, no read depends on them.
-/

namespace T4.Mvcc

open Lib Bytes SortedMap Wal

abbrev Pebble := SortedMap Bytes Bytes

/-- The state machine: Pebble and the counters kept in memory. -/
@[ext]
structure Store where
  db : Pebble
  currentRev : Int := 0
  compactRev : Int := 0
  lastSeq : Int := 0

def Store.empty : Store := { db := SortedMap.empty }

inductive StoreError
  | compacted
  | futureRevision
  | decodeTxnOps (rev : Int) (err : DecodeError)
  | compactDecode (rev : Int) (err : RecordError)
  | compactLaterRevisionDecode (err : RecordError)
  | record (err : RecordError)
  | notFoundInTxnSubOps (rev : Int) (key : Bytes)
  deriving DecidableEq

/-! ## Writing -/

def entryVersion (version : Int) : Int := if version > 0 then version else 1

/-- The log record and the index update of one operation at `rev`. -/
def applyRecord (rev : Int) (slot : Bytes) (r : Record) : List (Write Bytes Bytes) :=
  [.set slot (marshalRecord r),
    if r.delete then .delete (idxKey r.key) else .set (idxKey r.key) (encodeRev rev)]

/-- The record of operation `op` of a transaction. -/
def txnRecord (op : TxnSubOp) : Record where
  key := op.key
  value := op.value
  createRevision := op.createRevision
  prevRevision := op.prevRevision
  version := entryVersion op.version
  lease := op.lease
  create := op.op = Op.create
  delete := op.op = Op.delete

def entryRecord (e : Entry) : Record where
  key := e.key
  value := e.value
  createRevision := e.createRevision
  prevRevision := e.prevRevision
  version := entryVersion e.version
  lease := e.lease
  create := e.op = Op.create
  delete := e.op = Op.delete

/-- The sub-operations from position `i` on; the position is a 16-bit number. -/
def applyTxnOps (rev : Int) : Nat → List TxnSubOp → List (Write Bytes Bytes)
  | _, [] => []
  | i, op :: rest =>
    applyRecord rev (logKeyWithSub rev (i % 2 ^ 16)) (txnRecord op) ++ applyTxnOps rev (i + 1) rest

def applyTxnEntry (e : Entry) : Except StoreError (List (Write Bytes Bytes)) :=
  match decodeTxnOps e.value with
  | .error err => .error (.decodeTxnOps e.revision err)
  | .ok ops => .ok (applyTxnOps e.revision 0 ops)

def applyEntry (e : Entry) : Except StoreError (List (Write Bytes Bytes)) :=
  if e.op = Op.txn then applyTxnEntry e
  else .ok (applyRecord e.revision (logKey e.revision) (entryRecord e))

/-- Whether one of the records met by the iterator is about `key`. -/
def anyRecordOf (key : Bytes) : List (Bytes × Bytes) → Except StoreError Bool
  | [] => .ok false
  | (_, v) :: rest =>
    match unmarshalRecord v with
    | .error err => .error (.compactLaterRevisionDecode err)
    | .ok r => if r.key = key then .ok true else anyRecordOf key rest

def hasLaterRevisionAtOrBefore (db : Pebble) (key : Bytes) (afterRev beforeOrEqualRev : Int) :
    Except StoreError Bool :=
  if afterRev ≥ beforeOrEqualRev then .ok false
  else anyRecordOf key (db.range (logKey (afterRev + 1)) (logKey (beforeOrEqualRev + 1)))

/-- The scan of `applyCompact`: delete each record met that has a later version at
or before the new watermark. -/
def compactScan (db : Pebble) (compactRev : Int) :
    List (Bytes × Bytes) → Except StoreError (List (Write Bytes Bytes))
  | [] => .ok []
  | (k, v) :: rest =>
    match unmarshalRecord v with
    | .error err => .error (.compactDecode (decodeLogKey k) err)
    | .ok r =>
      match hasLaterRevisionAtOrBefore db r.key (decodeLogKey k) compactRev with
      | .error err => .error err
      | .ok hasLater =>
        match compactScan db compactRev rest with
        | .error err => .error err
        | .ok ops => .ok (if hasLater then .delete k :: ops else ops)

/-- A batch under construction. `compactRev` is the counter in memory, which a
compaction advances before the batch is committed. -/
structure Batch where
  compactRev : Int
  ops : List (Write Bytes Bytes) := []
  maxRev : Int := 0
  maxSeq : Int := 0

def applyCompact (db : Pebble) (b : Batch) (compactRev : Int) : Except StoreError Batch :=
  match compactScan db compactRev (db.range (logKey b.compactRev) (logKey compactRev)) with
  | .error err => .error err
  | .ok deletes => .ok { b with
      compactRev
      ops := b.ops ++ .set metaCompactKey (encodeRev compactRev) :: deletes }

/-- The loop body of `Apply`. -/
def applyOne (db : Pebble) (b : Batch) (e : Entry) : Except StoreError Batch :=
  if e.op = Op.compact then
    match applyCompact db b e.prevRevision with
    | .error err => .error err
    | .ok b => .ok { b with maxSeq := max b.maxSeq e.sequence }
  else
    match applyEntry e with
    | .error err => .error err
    | .ok ops => .ok { b with
        ops := b.ops ++ ops
        maxRev := max b.maxRev e.revision
        maxSeq := max b.maxSeq e.sequence }

/-- What replay removes before a transaction is written again at its revision. -/
def cleanupTxn : List (Bytes × Bytes) → List (Write Bytes Bytes)
  | [] => []
  | (k, v) :: rest =>
    let stale := match unmarshalRecord v with
      | .ok r => if r.delete then [] else [.delete (idxKey r.key)]
      | .error _ => []
    stale ++ .delete k :: cleanupTxn rest

/-- What replay removes before an entry is written again at its revision: an older
term may have left other keys there. -/
def cleanup (db : Pebble) (e : Entry) : List (Write Bytes Bytes) :=
  if e.op = Op.txn then cleanupTxn (db.range (logKey e.revision) (logKey (e.revision + 1)))
  else
    match db.get (logKey e.revision) with
    | none => []
    | some old =>
      match unmarshalRecord old with
      | .ok r => if !r.delete ∧ r.key ≠ e.key then [.delete (idxKey r.key)] else []
      | .error _ => []

/-- The loop body of `Recover`. -/
def recoverOne (db : Pebble) (b : Batch) (e : Entry) : Except StoreError Batch :=
  if e.op = Op.compact then applyOne db b e
  else applyOne db { b with ops := b.ops ++ cleanup db e } e

/-- Run a loop body over the entries; the batch as it was when the loop ended, and
the error that ended it. -/
def runBatch (body : Batch → Entry → Except StoreError Batch) (b : Batch) :
    List Entry → Batch × Option StoreError
  | [] => (b, none)
  | e :: rest =>
    match body b e with
    | .error err => (b, some err)
    | .ok b => runBatch body b rest

def metaWrites (b : Batch) : List (Write Bytes Bytes) :=
  (if b.maxRev > 0 then [.set metaCurrentRevKey (encodeRev b.maxRev)] else []) ++
    if b.maxSeq > 0 then [.set metaLastSeqKey (encodeRev b.maxSeq)] else []

def commitBatch (s : Store) (b : Batch) : Store where
  db := s.db.commit (b.ops ++ metaWrites b)
  currentRev := max s.currentRev b.maxRev
  compactRev := b.compactRev
  lastSeq := max s.lastSeq b.maxSeq

/-- Commit the batch unless the loop failed. A failed loop leaves Pebble as it was,
but not the compaction counter in memory. -/
def finishBatch (s : Store) : Batch × Option StoreError → Store × Option StoreError
  | (b, some err) => ({ s with compactRev := b.compactRev }, some err)
  | (b, none) => (commitBatch s b, none)

def Store.apply (s : Store) (entries : List Entry) : Store × Option StoreError :=
  if entries = [] then (s, none)
  else finishBatch s (runBatch (applyOne s.db) { compactRev := s.compactRev } entries)

def Store.recover (s : Store) (entries : List Entry) : Store × Option StoreError :=
  if entries = [] then (s, none)
  else finishBatch s (runBatch (recoverOne s.db) { compactRev := s.compactRev } entries)

/-! ## Opening -/

/-- Read the counters back from Pebble, as opening a directory does. -/
def loadMeta (db : Pebble) : Store :=
  let compactRev := ((db.get metaCompactKey).map decodeRev).getD 0
  let lastSeq := ((db.get metaLastSeqKey).map decodeRev).getD 0
  let currentRev := match db.get metaCurrentRevKey with
    | some v => decodeRev v
    -- A directory written before the key existed: the last log key.
    | none => ((db.range logLower logUpper).getLast?.map (fun e => decodeLogKey e.1)).getD 0
  { db, compactRev, currentRev, lastSeq := if lastSeq < currentRev then currentRev else lastSeq }

/-! ## Reading -/

/-- The result of a point lookup or of a range scan. -/
structure KeyValue where
  key : Bytes
  value : Bytes := []
  revision : Int := 0
  createRevision : Int := 0
  prevRevision : Int := 0
  version : Int := 0
  lease : Int := 0
  deriving DecidableEq

structure ReadOptions where
  revision : Int := 0
  fromKey : Bytes := []
  limit : Int := 0
  deriving DecidableEq

def recordVersion (r : Record) : Int :=
  if r.version > 0 then r.version else if r.delete then 0 else 1

def recordToKV (key : Bytes) (rev : Int) (r : Record) : KeyValue where
  key := key
  value := r.value
  revision := rev
  createRevision := r.createRevision
  prevRevision := r.prevRevision
  version := recordVersion r
  lease := r.lease

/-- The slow path of `getLogEntry`: the first sub-key at the revision that is about
`key`. -/
def findSubOp (key : Bytes) (rev : Int) : List (Bytes × Bytes) → Option KeyValue
  | [] => none
  | (_, v) :: rest =>
    match unmarshalRecord v with
    | .error _ => findSubOp key rev rest
    | .ok r => if r.key = key then some (recordToKV key rev r) else findSubOp key rev rest

def getLogEntry (db : Pebble) (key : Bytes) (rev : Int) : Except StoreError KeyValue :=
  match db.get (logKey rev) with
  | some v =>
    match unmarshalRecord v with
    | .error err => .error (.record err)
    | .ok r => .ok (recordToKV key rev r)
  | none =>
    match findSubOp key rev (db.range (logKeyWithSub rev 0) (logKey (rev + 1))) with
    | some kv => .ok kv
    | none => .error (.notFoundInTxnSubOps rev key)

/-- The revision in the index, 0 for a key without an entry. -/
def getIdxRev (db : Pebble) (key : Bytes) : Int :=
  ((db.get (idxKey key)).map decodeRev).getD 0

def Store.get (s : Store) (key : Bytes) : Except StoreError (Option KeyValue) :=
  let rev := getIdxRev s.db key
  if rev = 0 then .ok none else (getLogEntry s.db key rev).map some

def Store.resolveReadRevision (s : Store) (revision : Int) : Except StoreError Int :=
  if revision = 0 then .ok s.currentRev
  else if s.compactRev > 0 ∧ revision < s.compactRev then .error .compacted
  else if revision > s.currentRev then .error .futureRevision
  else .ok revision

/-- The backward scan of `getAtRevision`. -/
def lastVersionScan (key : Bytes) : List (Bytes × Bytes) → Except StoreError (Option KeyValue)
  | [] => .ok none
  | (k, v) :: rest =>
    match unmarshalRecord v with
    | .error err => .error (.record err)
    | .ok r =>
      if r.key ≠ key then lastVersionScan key rest
      else if r.delete then .ok none
      else .ok (some (recordToKV r.key (decodeLogKey k) r))

def getAtRevision (db : Pebble) (key : Bytes) (targetRev : Int) :
    Except StoreError (Option KeyValue) :=
  lastVersionScan key (db.range logLower (logKey (targetRev + 1))).reverse

def Store.getAt (s : Store) (key : Bytes) (revision : Int) :
    Except StoreError (Option KeyValue) :=
  match s.resolveReadRevision revision with
  | .error err => .error err
  | .ok targetRev => if revision = 0 then s.get key else getAtRevision s.db key targetRev

inductive EventType
  | put
  | delete
  deriving DecidableEq

structure Event where
  type : EventType
  kv : KeyValue
  prevKV : Option KeyValue
  deriving DecidableEq

/-- The loop of `scanLog` over the records of the revision range. -/
def scanRecords (db : Pebble) (pfx : Bytes) (withPrevKV : Bool) :
    List (Bytes × Bytes) → Except StoreError (List Event)
  | [] => .ok []
  | (k, v) :: rest =>
    match unmarshalRecord v with
    | .error err => .error (.record err)
    | .ok r =>
      match scanRecords db pfx withPrevKV rest with
      | .error err => .error err
      | .ok events =>
        if ¬ pfx <+: r.key then .ok events
        else
          -- The previous version may be compacted away; that is no error.
          let prevKV := if withPrevKV ∧ r.prevRevision > 0
            then (getLogEntry db r.key r.prevRevision).toOption else none
          .ok ({
            type := if r.delete then .delete else .put
            kv := recordToKV r.key (decodeLogKey k) r
            prevKV } :: events)

def scanLog (db : Pebble) (pfx : Bytes) (fromRev toRev : Int) (withPrevKV : Bool) :
    Except StoreError (List Event) :=
  scanRecords db pfx withPrevKV (db.range (logKey fromRev) (logKey (toRev + 1)))

def latestOf (events : List Event) : SortedMap Bytes KeyValue :=
  events.foldl (fun latest ev =>
    match ev.type with
    | .delete => latest.erase ev.kv.key
    | .put => latest.insert ev.kv.key ev.kv) SortedMap.empty

/-- Keep the keys from `fromKey` on, at most `limit` of them if it is positive. -/
def cutRange (fromKey : Bytes) (limit : Int) :
    List (Bytes × KeyValue) → List KeyValue → List KeyValue
  | [], out => out
  | (key, kv) :: rest, out =>
    if fromKey ≠ [] ∧ key < fromKey then cutRange fromKey limit rest out
    else if limit > 0 ∧ (out.length : Int) ≥ limit then out
    else cutRange fromKey limit rest (out ++ [kv])

def idxBounds (pfx fromKey : Bytes) : Bytes × Bytes :=
  let lower := idxKey pfx
  let lower := if fromKey ≠ [] ∧ idxKey fromKey > lower then idxKey fromKey else lower
  (lower, idxKeyUpper pfx)

/-- The loop of `listCurrent` over the index. -/
def listIndex (db : Pebble) (limit : Int) :
    List (Bytes × Bytes) → List KeyValue → Except StoreError (List KeyValue)
  | [], out => .ok out
  | (k, v) :: rest, out =>
    if limit > 0 ∧ (out.length : Int) ≥ limit then .ok out
    else
      match getLogEntry db (k.drop 1) (decodeRev v) with
      | .error err => .error err
      | .ok kv => listIndex db limit rest (out ++ [kv])

def listCurrent (db : Pebble) (pfx fromKey : Bytes) (limit : Int) :
    Except StoreError (List KeyValue) :=
  let (lower, upper) := idxBounds pfx fromKey
  listIndex db limit (db.range lower upper) []

def Store.listRange (s : Store) (pfx : Bytes) (opts : ReadOptions) :
    Except StoreError (List KeyValue) :=
  match s.resolveReadRevision opts.revision with
  | .error err => .error err
  | .ok targetRev =>
    if opts.revision = 0 then listCurrent s.db pfx opts.fromKey opts.limit
    else
      match scanLog s.db pfx 1 targetRev false with
      | .error err => .error err
      | .ok events => .ok (cutRange opts.fromKey opts.limit (latestOf events).entries [])

def countCurrent (db : Pebble) (pfx fromKey : Bytes) : Int :=
  let (lower, upper) := idxBounds pfx fromKey
  (db.range lower upper).length

def Store.countRange (s : Store) (pfx : Bytes) (opts : ReadOptions) : Except StoreError Int :=
  if opts.revision = 0 then .ok (countCurrent s.db pfx opts.fromKey)
  else (s.listRange pfx { revision := opts.revision, fromKey := opts.fromKey }).map
    (fun kvs => (kvs.length : Int))

end T4.Mvcc
