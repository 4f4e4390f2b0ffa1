import T4.Lib.System

/-!
# The leader lock

`internal/election/election.go` keeps one object, the leader lock, in a store
with conditional writes. Every operation on it is a read followed, some time
later, by a conditional write; other nodes' steps may fall in between.

The model keeps that granularity. `LockStore` is the lock object together with
the number of writes it has seen: each write takes a fresh ETag, so a matching
`PutIfMatch` finds the object exactly as it was read. `ElectionState` adds the
operations that have read but not yet written, and everything returned to
callers so far. Terms are counters without a bound, where the source adds in `uint64`;
time stamps are chosen by the environment.
-/

namespace T4.Election

open Lib

/-! ## The lock object -/

/-- The content of the leader-lock object. -/
structure LockRecord where
  nodeID : String
  term : Nat
  leaderAddr : String
  lastSeenNano : Int
  committedRev : Int
  deriving DecidableEq

/-- A decoded lock record with the ETag it was read under; `none` stands for the
empty ETag of an absent object. -/
structure LockWithETag where
  record : Option LockRecord
  etag : Option Nat
  deriving DecidableEq

structure Lock where
  nodeID : String
  advertiseAddr : String
  deriving DecidableEq

structure LockObject where
  body : LockRecord
  etag : Nat
  deriving DecidableEq

/-- The store's view of the lock key: the object, if any, and how many writes the
key has seen. The next write is stored under the ETag `writes`. -/
structure LockStore where
  object : Option LockObject
  writes : Nat
  deriving DecidableEq

/-- Unconditional `Put` of the lock object. -/
def LockStore.put (store : LockStore) (record : LockRecord) : LockStore :=
  { object := some { body := record, etag := store.writes }, writes := store.writes + 1 }

/-- `PutIfAbsent`: `none` is `ErrPreconditionFailed`. -/
def LockStore.putIfAbsent (store : LockStore) (record : LockRecord) : Option LockStore :=
  match store.object with
  | none => some (store.put record)
  | some _ => none

/-- `PutIfMatch`: `none` is `ErrPreconditionFailed`. -/
def LockStore.putIfMatch (store : LockStore) (record : LockRecord) (matchETag : Nat) :
    Option LockStore :=
  match store.object with
  | none => none
  | some object => if object.etag = matchETag then some (store.put record) else none

/-! ## Operations of a lock handle -/

def readWithETag (store : LockStore) : LockWithETag :=
  match store.object with
  | none => { record := none, etag := none }
  | some object => { record := some object.body, etag := some object.etag }

/-- The term both acquisition paths write: above the floor and above the term of
the observed record. -/
def newTerm (floorTerm : Nat) (cur : LockWithETag) : Nat :=
  match cur.record with
  | none => floorTerm + 1
  | some record => if floorTerm + 1 ≤ record.term then record.term + 1 else floorTerm + 1

/-- `TryAcquire` after its read: either follow the recorded owner or write a new
record with the given term. -/
def Lock.tryAcquire (lock : Lock) (floorTerm : Nat) (cur : LockWithETag) :
    Except LockRecord Nat :=
  match cur.record with
  | some record =>
    if record.nodeID ≠ lock.nodeID then .error record else .ok (newTerm floorTerm cur)
  | none => .ok (newTerm floorTerm cur)

/-- `TakeOver` after its read. A foreign record stops the candidate when its term
is above the floor or when it has committed entries the candidate lacks. -/
def Lock.takeOver (lock : Lock) (floorTerm : Nat) (committedRev : Int) (cur : LockWithETag) :
    Except LockRecord Nat :=
  match cur.record with
  | some record =>
    if record.nodeID ≠ lock.nodeID ∧ floorTerm < record.term then .error record
    else if record.nodeID ≠ lock.nodeID ∧ committedRev < record.committedRev then .error record
    else .ok (newTerm floorTerm cur)
  | none => .ok (newTerm floorTerm cur)

def Lock.acquired (lock : Lock) (term : Nat) (committedRev now : Int) : LockRecord :=
  { nodeID := lock.nodeID, term := term, leaderAddr := lock.advertiseAddr,
    lastSeenNano := now, committedRev := committedRev }

/-- The conditional PUT of `writeAtomic`; `none` is a lost race. -/
def Lock.writeAtomic (lock : Lock) (term : Nat) (committedRev now : Int)
    (observed : LockWithETag) (store : LockStore) : Option LockStore :=
  match observed.record, observed.etag with
  | some _, some etag => store.putIfMatch (lock.acquired term committedRev now) etag
  | _, _ => store.putIfAbsent (lock.acquired term committedRev now)

def Lock.touch (lock : Lock) (term : Nat) (leaderAddr : String) (committedRev now : Int)
    (store : LockStore) : LockStore :=
  store.put { nodeID := lock.nodeID, term := term, leaderAddr := leaderAddr,
              lastSeenNano := now, committedRev := committedRev }

/-- The conditional liveness touch. Without an ETag it falls back to `touch`. -/
def Lock.touchIfMatch (lock : Lock) (term : Nat) (leaderAddr : String) (etag : Option Nat)
    (committedRev now : Int) (store : LockStore) : Option LockStore :=
  match etag with
  | none => some (lock.touch term leaderAddr committedRev now store)
  | some tag =>
    store.putIfMatch { nodeID := lock.nodeID, term := term, leaderAddr := leaderAddr,
                       lastSeenNano := now, committedRev := committedRev } tag

/-! ## Interleavings -/

inductive AcquireKind
  | tryAcquire
  | takeOver
  deriving DecidableEq

/-- An operation that has done its read and not yet its next store access. -/
inductive InFlight
  /-- About to do the conditional PUT of `writeAtomic`. -/
  | write (kind : AcquireKind) (lock : Lock) (term : Nat) (committedRev : Int)
      (observed : LockWithETag)
  /-- Lost the race and about to re-read the winner. -/
  | reread (kind : AcquireKind) (lock : Lock)
  /-- `fencedCheck` verified the record and is about to touch it. -/
  | touch (lock : Lock) (term : Nat) (etag : Option Nat)
  deriving DecidableEq

/-- What an operation returned to its caller. -/
inductive Returned
  | acquisition (kind : AcquireKind) (lock : Lock) (record : Option LockRecord) (won : Bool)
  | acquisitionError (kind : AcquireKind) (lock : Lock)
  | stillLeader (lock : Lock) (term : Nat)
  | superseded (lock : Lock) (term : Nat)
  | touched (lock : Lock) (term : Nat) (succeeded : Bool)
  deriving DecidableEq

/-- The lock, the operations between their read and their write, and the results
returned so far, oldest first. -/
structure ElectionState where
  store : LockStore
  inFlight : List InFlight
  returned : List Returned
  deriving DecidableEq

/-- One store access of one operation of some node. `i` selects an operation in
flight; time stamps and revisions are the caller's. -/
inductive ElectionAction
  | tryAcquire (lock : Lock) (floorTerm : Nat) (committedRev : Int)
  | takeOver (lock : Lock) (floorTerm : Nat) (committedRev : Int)
  | writeAtomic (i : Nat) (now : Int)
  /-- The store answers the PUT of operation `i` with some other error and no effect. -/
  | writeError (i : Nat)
  | reread (i : Nat)
  | fencedRead (lock : Lock) (term : Nat) (touch : Bool)
  | touchIfMatch (i : Nat) (committedRev now : Int)
  deriving DecidableEq

/-- Start an acquisition: follow the recorded owner, or keep the observation for
the write. -/
def ElectionState.begin (s : ElectionState) (kind : AcquireKind) (lock : Lock)
    (committedRev : Int) (decision : Except LockRecord Nat) : ElectionState :=
  match decision with
  | .error record =>
    { s with returned := s.returned ++ [.acquisition kind lock (some record) false] }
  | .ok term =>
    { s with inFlight :=
        s.inFlight ++ [.write kind lock term committedRev (readWithETag s.store)] }

/-- Finish operation `i` with result `result` on store `store`. -/
def ElectionState.finish (s : ElectionState) (i : Nat) (store : LockStore)
    (result : Returned) : ElectionState :=
  { store := store, inFlight := s.inFlight.eraseIdx i, returned := s.returned ++ [result] }

def electionStep (s : ElectionState) : ElectionAction → Option ElectionState
  | .tryAcquire lock floorTerm committedRev =>
    some (s.begin .tryAcquire lock committedRev
      (lock.tryAcquire floorTerm (readWithETag s.store)))
  | .takeOver lock floorTerm committedRev =>
    some (s.begin .takeOver lock committedRev
      (lock.takeOver floorTerm committedRev (readWithETag s.store)))
  | .writeAtomic i now =>
    match s.inFlight[i]? with
    | some (.write kind lock term committedRev observed) =>
      match lock.writeAtomic term committedRev now observed s.store with
      | some store =>
        some (s.finish i store
          (.acquisition kind lock (some (lock.acquired term committedRev now)) true))
      | none => some { s with inFlight := s.inFlight.set i (.reread kind lock) }
    | _ => none
  | .writeError i =>
    match s.inFlight[i]? with
    | some (.write kind lock _ _ _) =>
      some (s.finish i s.store (.acquisitionError kind lock))
    | some (.touch lock term _) => some (s.finish i s.store (.touched lock term false))
    | _ => none
  | .reread i =>
    match s.inFlight[i]? with
    | some (.reread kind lock) =>
      some (s.finish i s.store
        (.acquisition kind lock (readWithETag s.store).record false))
    | _ => none
  | .fencedRead lock term touch =>
    let cur := readWithETag s.store
    if cur.record.any (fun record => record.term = term ∧ record.nodeID = lock.nodeID) then
      if touch then some { s with inFlight := s.inFlight ++ [.touch lock term cur.etag] }
      else some { s with returned := s.returned ++ [.stillLeader lock term] }
    else some { s with returned := s.returned ++ [.superseded lock term] }
  | .touchIfMatch i committedRev now =>
    match s.inFlight[i]? with
    | some (.touch lock term etag) =>
      match lock.touchIfMatch term lock.advertiseAddr etag committedRev now s.store with
      | some store => some (s.finish i store (.touched lock term true))
      | none => some (s.finish i s.store (.touched lock term false))
    | _ => none

/-- The election protocol of any number of nodes, from any lock state in which no
operation is under way. -/
def electionSystem : System ElectionState ElectionAction where
  init s := s.inFlight = [] ∧ s.returned = [] ∧
    ∀ object, s.store.object = some object → object.etag < s.store.writes
  step := electionStep

end T4.Election
