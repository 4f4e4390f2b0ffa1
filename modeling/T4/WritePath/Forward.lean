import T4.Peer.Forward
import T4.WritePath.Model

/-!
# Forwarded calls

A follower does not execute a write. It sends the call to the leader as a
`ForwardRequest` (`writes.go`, `forwardWrite`), the leader dispatches it to the method
of its own node (`HandleForward` in `leader.go`) and the follower decodes the
`ForwardResponse`. The messages arrive as they were sent; what the codec does to them
is the subject of `T4.Peer.Forward`.

An `Execution` is what a call does to the leader: the node after the critical section,
the request it sends to the commit loop, and what it returns for every way in which
`await` can end. `Leader.call` is the call on the leader, `Leader.forwarded` the same
call on a follower that is open and has a leader.
-/

namespace T4.WritePath

open Lib Bytes Text Wal Mvcc Peer

/-! ## Calls on the leader -/

/-- A Go error, as far as forwarding looks into it. -/
inductive Failure
  | keyExists
  | other (text : Bytes)
  deriving DecidableEq

/-- The results of the methods; a method leaves at zero what it does not return. -/
structure Returned where
  revision : Int := 0
  oldKV : Option KeyValue := none
  succeeded : Bool := false
  /-- The keys of the map, in the order in which it is iterated. -/
  deletedKeys : List Bytes := []
  err : Option Failure := none
  deriving DecidableEq

/-- How `await` ends. -/
inductive Awaited
  | committed
  | failed (err : CommitError)
  /-- The caller's context ended first. -/
  | contextEnded
  deriving DecidableEq

/-- The leader: the node, and whether it was closed. -/
structure Leader where
  node : Node
  closed : Bool := false

/-- The request sent to the commit loop, and the key that `await` is told to clean up. -/
abbrev Sent := Option (Entry × Basis × Bytes)

structure Execution (ρ : Type) where
  leader : Leader
  sent : Sent := none
  returns : Awaited → ρ

def Execution.map {ρ ρ' : Type} (f : ρ → ρ') (x : Execution ρ) : Execution ρ' where
  leader := x.leader
  sent := x.sent
  returns a := f (x.returns a)

/-- The result of a call whose request was sent, once `await` has ended. -/
def Awaited.result (sent : Result) : Awaited → Result
  | .committed => sent
  | .failed err => .commitError err
  | .contextEnded => .contextError

section Texts

/-- The texts of the errors, of which the code only makes strings. -/
structure ErrorTexts where
  ofResult : Result → Bytes
  closed : Bytes

variable (texts : ErrorTexts)

def Result.returned (result : Result) : Returned :=
  match result with
  | .revision rev => { revision := rev }
  | .keyExists => { err := some .keyExists }
  | .cas rev old ok => { revision := rev, oldKV := old, succeeded := ok }
  | .txn succeeded rev deletedKeys => { revision := rev, succeeded, deletedKeys }
  | .compacted => {}
  | .txnTooManyOps _ | .txnDuplicateKey _ | .readError _ | .commitError _ | .contextError =>
    { err := some (.other (texts.ofResult result)) }

/-- The method of `c` called on the leader. -/
def Leader.call (l : Leader) (c : Call) : Execution Returned :=
  if l.closed then { leader := l, returns := fun _ => { err := some (.other texts.closed) } }
  else
    match l.node.begin c with
    | (node, .returned result) =>
      { leader := { l with node }, returns := fun _ => result.returned texts }
    | (node, .queued entry basis key result) =>
      { leader := { l with node }
        sent := some (entry, basis, key)
        returns := fun a => (a.result result).returned texts }

end Texts

/-! ## The wire form of transactions -/

/-- The numeric value; of a value without a name it is not known which. -/
def TxnCondTarget.code : TxnCondTarget → UInt8
  | .mod => 0
  | .version => 1
  | .create => 2
  | .value => 3
  | .lease => 4
  | .unknown => 255

def TxnCondTarget.ofCode (code : UInt8) : TxnCondTarget :=
  if code = 0 then .mod
  else if code = 1 then .version
  else if code = 2 then .create
  else if code = 3 then .value
  else if code = 4 then .lease
  else .unknown

def TxnCondResult.code : TxnCondResult → UInt8
  | .equal => 0
  | .notEqual => 1
  | .greater => 2
  | .less => 3
  | .unknown => 255

def TxnCondResult.ofCode (code : UInt8) : TxnCondResult :=
  if code = 0 then .equal
  else if code = 1 then .notEqual
  else if code = 2 then .greater
  else if code = 3 then .less
  else .unknown

def TxnOpType.code : TxnOpType → UInt8
  | .put => 0
  | .delete => 1
  | .unknown => 255

def TxnOpType.ofCode (code : UInt8) : TxnOpType :=
  if code = 0 then .put
  else if code = 1 then .delete
  else .unknown

def TxnCondition.toMsg (c : TxnCondition) : TxnCondMsg where
  key := c.key
  target := c.target.code
  result := c.result.code
  modRevision := c.modRevision
  createRevision := c.createRevision
  version := c.version
  value := c.value
  lease := c.lease

def TxnCondition.ofMsg (m : TxnCondMsg) : TxnCondition where
  key := m.key
  target := TxnCondTarget.ofCode m.target
  result := TxnCondResult.ofCode m.result
  modRevision := m.modRevision
  createRevision := m.createRevision
  version := m.version
  value := m.value
  lease := m.lease

def TxnOp.toMsg (op : TxnOp) : TxnOpMsg where
  type := op.type.code
  key := op.key
  value := op.value
  lease := op.lease

def TxnOp.ofMsg (m : TxnOpMsg) : TxnOp where
  type := TxnOpType.ofCode m.type
  key := m.key
  value := m.value
  lease := m.lease

def txnOpsToMsg (ops : List TxnOp) : List TxnOpMsg := ops.map TxnOp.toMsg

def msgToTxnOps (msgs : List TxnOpMsg) : List TxnOp := msgs.map TxnOp.ofMsg

def txnToForwardRequest (req : TxnRequest) : ForwardRequest where
  op := .txn
  txnReq := some {
    conditions := req.conditions.map TxnCondition.toMsg
    success := txnOpsToMsg req.success
    failure := txnOpsToMsg req.failure }

def forwardMsgToTxnRequest (m : TxnReqMsg) : TxnRequest where
  conditions := m.conditions.map TxnCondition.ofMsg
  success := msgToTxnOps m.success
  failure := msgToTxnOps m.failure

theorem TxnCondition.ofMsg_toMsg (c : TxnCondition) : TxnCondition.ofMsg c.toMsg = c := by
  obtain ⟨key, target, result⟩ := c
  cases target <;> cases result <;> rfl

theorem TxnOp.ofMsg_toMsg (op : TxnOp) : TxnOp.ofMsg op.toMsg = op := by
  obtain ⟨type⟩ := op
  cases type <;> rfl

theorem msgToTxnOps_txnOpsToMsg (ops : List TxnOp) : msgToTxnOps (txnOpsToMsg ops) = ops := by
  rw [msgToTxnOps, txnOpsToMsg, List.map_map]
  exact map_eq_self_iff.mpr (fun op _ => op.ofMsg_toMsg)

theorem forwardMsgToTxnRequest_forwarded (req : TxnRequest) :
    (txnToForwardRequest req).txnReq.map forwardMsgToTxnRequest = some req := by
  have conditions : (req.conditions.map TxnCondition.toMsg).map TxnCondition.ofMsg =
      req.conditions := by
    rw [List.map_map]
    exact map_eq_self_iff.mpr (fun c _ => c.ofMsg_toMsg)
  simp only [txnToForwardRequest, forwardMsgToTxnRequest, Option.map_some, conditions,
    msgToTxnOps_txnOpsToMsg]

/-! ## The wire form of results -/

def encodeErr : Option Failure → Bytes × Bytes
  | none => ([], [])
  | some .keyExists => (ascii "key_exists", [])
  | some (.other text) => (ascii "error", text)

def decodeErr (code msg : Bytes) : Option Failure :=
  if code = [] then none
  else if code = ascii "key_exists" then some .keyExists
  else some (.other msg)

theorem decodeErr_encodeErr (err : Option Failure) :
    decodeErr (encodeErr err).1 (encodeErr err).2 = err := by
  cases err with
  | none => rfl
  | some failure =>
    cases failure with
    | keyExists => decide +kernel
    | other text =>
      have named : ascii "error" ≠ [] ∧ ascii "error" ≠ ascii "key_exists" := by decide +kernel
      rw [encodeErr, decodeErr, if_neg named.1, if_neg named.2]

def kvToMsg (kv : KeyValue) : KVMsg where
  key := kv.key
  value := kv.value
  revision := kv.revision
  createRevision := kv.createRevision
  prevRevision := kv.prevRevision
  version := kv.version
  lease := kv.lease

def msgToKV (m : KVMsg) : KeyValue where
  key := m.key
  value := m.value
  revision := m.revision
  createRevision := m.createRevision
  prevRevision := m.prevRevision
  version := m.version
  lease := m.lease

theorem map_msgToKV_kvToMsg (old : Option KeyValue) : (old.map kvToMsg).map msgToKV = old := by
  cases old <;> rfl

/-! ## Handling a forwarded request -/

inductive ForwardError
  | missingTxnReq
  | unknownOp (code : UInt8)
  deriving DecidableEq

/-- The order in which a map with these keys is iterated. -/
structure MapOrder where
  order : List Bytes → List Bytes
  perm : ∀ keys, (order keys).Perm keys

def revisionResponse (r : Returned) : ForwardResponse where
  revision := r.revision
  succeeded := r.err.isNone
  errCode := (encodeErr r.err).1
  errMsg := (encodeErr r.err).2

def casResponse (r : Returned) : ForwardResponse where
  revision := r.revision
  oldKV := r.oldKV.map kvToMsg
  succeeded := r.succeeded
  errCode := (encodeErr r.err).1
  errMsg := (encodeErr r.err).2

def compactResponse (r : Returned) : ForwardResponse where
  succeeded := r.err.isNone
  errCode := (encodeErr r.err).1
  errMsg := (encodeErr r.err).2

def txnResponse (m : MapOrder) (r : Returned) : ForwardResponse :=
  if r.err.isSome then { errCode := (encodeErr r.err).1, errMsg := (encodeErr r.err).2 }
  else { revision := r.revision, succeeded := r.succeeded, deletedKeys := m.order r.deletedKeys }

section Forwarding

variable (texts : ErrorTexts) (m : MapOrder)

def Leader.handleForward (l : Leader) (req : ForwardRequest) :
    Except ForwardError (Execution ForwardResponse) :=
  match req.op with
  | .put => .ok ((l.call texts (.put req.key req.value req.lease)).map revisionResponse)
  | .create => .ok ((l.call texts (.create req.key req.value req.lease)).map revisionResponse)
  | .update =>
    .ok ((l.call texts (.update req.key req.value req.revision req.lease)).map casResponse)
  | .deleteIfRevision =>
    .ok ((l.call texts (.deleteIfRevision req.key req.revision)).map casResponse)
  | .compact => .ok ((l.call texts (.compact req.revision)).map compactResponse)
  | .getRevision =>
    .ok { leader := l, returns := fun _ => { revision := l.node.nextRev, succeeded := true } }
  | .txn =>
    match req.txnReq with
    | none => .error .missingTxnReq
    | some msg => .ok ((l.call texts (.txn (forwardMsgToTxnRequest msg))).map (txnResponse m))
  | .other code _ => .error (.unknownOp code)

end Forwarding

/-! ## Calls on a follower -/

def Call.forwardRequest : Call → ForwardRequest
  | .put key value lease => { op := .put, key, value, lease }
  | .create key value lease => { op := .create, key, value, lease }
  | .update key value revision lease => { op := .update, key, value, revision, lease }
  -- Revision 0 stands for "whatever the revision is".
  | .delete key => { op := .deleteIfRevision, key, revision := 0 }
  | .deleteIfRevision key revision => { op := .deleteIfRevision, key, revision }
  | .txn req => txnToForwardRequest req
  | .compact revision => { op := .compact, revision }

/-- What the method of the follower returns on a response. -/
def Call.decode (c : Call) (resp : ForwardResponse) : Returned :=
  let err := decodeErr resp.errCode resp.errMsg
  match c with
  | .put _ _ _ | .create _ _ _ | .delete _ => { revision := resp.revision, err }
  | .update _ _ _ _ | .deleteIfRevision _ _ =>
    { revision := resp.revision, oldKV := resp.oldKV.map msgToKV, succeeded := resp.succeeded, err }
  | .compact _ => { err }
  | .txn _ =>
    { revision := resp.revision, succeeded := resp.succeeded, deletedKeys := resp.deletedKeys, err }

section Forwarding

variable (texts : ErrorTexts) (m : MapOrder) (errorText : ForwardError → Bytes)

/-- The method of `c` called on a follower. -/
def Leader.forwarded (l : Leader) (c : Call) : Execution Returned :=
  match l.handleForward texts m c.forwardRequest with
  | .error err => { leader := l, returns := fun _ => { err := some (.other (errorText err)) } }
  | .ok x => x.map c.decode

end Forwarding

/-! ## Transparency -/

/-- The same results, and an error that is nil or `ErrKeyExists` in the same cases. -/
structure Returned.Same (r s : Returned) : Prop where
  revision : r.revision = s.revision
  oldKV : r.oldKV = s.oldKV
  succeeded : r.succeeded = s.succeeded
  deletedKeys : ∀ key, key ∈ r.deletedKeys ↔ key ∈ s.deletedKeys
  isNil : r.err = none ↔ s.err = none
  keyExists : r.err = some .keyExists ↔ s.err = some .keyExists

theorem Returned.Same.refl (r : Returned) : r.Same r :=
  ⟨rfl, rfl, rfl, fun _ => Iff.rfl, Iff.rfl, Iff.rfl⟩

/-- The leader is changed in the same way, and the caller gets the same results. -/
structure Execution.Agrees (x y : Execution Returned) : Prop where
  leader : x.leader = y.leader
  sent : x.sent = y.sent
  returns : ∀ a, (x.returns a).Same (y.returns a)

def Call.Returns : Call → Returned → Prop
  | .put _ _ _, r | .create _ _ _, r | .delete _, r => ∃ revision err, r = { revision, err }
  | .update _ _ _ _, r | .deleteIfRevision _ _, r =>
    ∃ revision oldKV succeeded err, r = { revision, oldKV, succeeded, err }
  | .compact _, r => ∃ err, r = { err }
  | .txn _, r =>
    (∃ revision succeeded deletedKeys, r = { revision, succeeded, deletedKeys }) ∨
      ∃ failure, r = { err := some failure }

theorem Call.Returns.failed (c : Call) (failure : Failure) : c.Returns { err := some failure } := by
  cases c with
  | put key value lease | create key value lease | delete key => exact ⟨0, some failure, rfl⟩
  | update key value revision lease
  | deleteIfRevision key revision => exact ⟨0, none, false, some failure, rfl⟩
  | txn req => exact .inr ⟨failure, rfl⟩
  | compact revision => exact ⟨some failure, rfl⟩

section Transparency

variable {texts : ErrorTexts} {m : MapOrder} {errorText : ForwardError → Bytes}

theorem Node.prepareTxn_failure {n next : Node} {req : TxnRequest} {result : Result}
    (fails : n.prepareTxn req = (next, .error result)) :
    ∃ failure, result.returned texts = { err := some failure } := by
  unfold Node.prepareTxn at fails
  split at fails
  · cases fails
    exact ⟨_, rfl⟩
  · rename_i succeeded reads evaluated
    simp only at fails
    generalize (if succeeded then req.success else req.failure) = ops at fails
    split at fails
    · cases fails
    · split at fails
      · cases fails
        exact ⟨_, rfl⟩
      · split at fails
        · cases fails
        · split at fails
          · cases fails
            exact ⟨_, rfl⟩
          · split at fails
            · cases fails
              exact ⟨_, rfl⟩
            · cases fails

theorem Node.begin_returns (texts : ErrorTexts) (n : Node) (c : Call) :
    c.Returns ((n.begin c).2.result.returned texts) := by
  cases c with
  | put key value lease =>
    simp only [Node.begin, Node.put]
    split
    · exact .failed (.put key value lease) _
    · exact ⟨_, none, rfl⟩
  | create key value lease =>
    simp only [Node.begin, Node.create]
    split
    · exact .failed (.create key value lease) _
    · exact .failed (.create key value lease) _
    · exact ⟨_, none, rfl⟩
  | update key value revision lease =>
    simp only [Node.begin, Node.update]
    split
    · exact .failed (.update key value revision lease) _
    · exact ⟨_, _, _, none, rfl⟩
    · split <;> exact ⟨_, _, _, none, rfl⟩
  | delete key =>
    simp only [Node.begin, Node.delete]
    split
    · exact .failed (.delete key) _
    · split <;> exact ⟨_, none, rfl⟩
  | deleteIfRevision key revision =>
    simp only [Node.begin, Node.deleteIfRevision]
    split
    · exact .failed (.deleteIfRevision key revision) _
    · exact ⟨_, _, _, none, rfl⟩
    · split
      · exact ⟨_, _, _, none, rfl⟩
      · split
        · exact .failed (.deleteIfRevision key revision) _
        · split <;> exact ⟨_, _, _, none, rfl⟩
  | txn req =>
    simp only [Node.begin, Node.txn]
    split
    · rename_i fails
      exact .inr (Node.prepareTxn_failure fails)
    · exact .inl ⟨_, _, _, rfl⟩
    · exact .inl ⟨_, _, _, rfl⟩
  | compact revision => exact ⟨none, rfl⟩

theorem Leader.call_returns (l : Leader) (c : Call) (a : Awaited) :
    c.Returns ((l.call texts c).returns a) := by
  have begins := Node.begin_returns texts l.node c
  unfold Leader.call
  split
  · exact .failed c _
  · revert begins
    rcases l.node.begin c with ⟨node, result | ⟨entry, basis, key, result⟩⟩
    · exact fun returns => returns
    · intro returns
      cases a with
      | committed => exact returns
      | failed err | contextEnded => exact .failed c _

def Call.dispatched : Call → Call
  | .delete key => .deleteIfRevision key 0
  | c => c

def Call.respond (m : MapOrder) : Call → Returned → ForwardResponse
  | .put _ _ _ | .create _ _ _ => revisionResponse
  | .update _ _ _ _ | .delete _ | .deleteIfRevision _ _ => casResponse
  | .compact _ => compactResponse
  | .txn _ => txnResponse m

theorem Leader.forwarded_eq (l : Leader) (c : Call) :
    l.forwarded texts m errorText c =
      (l.call texts c.dispatched).map (fun r => c.decode (c.respond m r)) := by
  cases c with
  | txn req =>
    have same := forwardMsgToTxnRequest_forwarded req
    simp only [txnToForwardRequest, Option.map_some, Option.some.injEq] at same
    simp only [Leader.forwarded, Leader.handleForward, Call.forwardRequest, txnToForwardRequest,
      same]
    rfl
  | _ => rfl

theorem Call.decode_respond {c : Call} (asIs : c.dispatched = c) {r : Returned}
    (returns : c.Returns r) : (c.decode (c.respond m r)).Same r := by
  cases c with
  | put key value lease | create key value lease =>
    obtain ⟨revision, err, rfl⟩ := returns
    simp only [Call.decode, Call.respond, revisionResponse, decodeErr_encodeErr]
    exact .refl _
  | update key value rev lease | deleteIfRevision key rev =>
    obtain ⟨revision, oldKV, succeeded, err, rfl⟩ := returns
    simp only [Call.decode, Call.respond, casResponse, decodeErr_encodeErr, map_msgToKV_kvToMsg]
    exact .refl _
  | delete key => cases asIs
  | compact rev =>
    obtain ⟨err, rfl⟩ := returns
    simp only [Call.decode, Call.respond, compactResponse, decodeErr_encodeErr]
    exact .refl _
  | txn req =>
    rcases returns with ⟨revision, succeeded, deletedKeys, rfl⟩ | ⟨failure, rfl⟩
    · exact ⟨rfl, rfl, rfl, fun key => (m.perm deletedKeys).mem_iff, Iff.rfl, Iff.rfl⟩
    · simp only [Call.decode, Call.respond, txnResponse, Option.isSome_some, if_true,
        decodeErr_encodeErr]
      exact .refl _

theorem Leader.forwarded_agrees (l : Leader) {c : Call} (asIs : c.dispatched = c) :
    (l.forwarded texts m errorText c).Agrees (l.call texts c) := by
  rw [Leader.forwarded_eq, asIs]
  exact ⟨rfl, rfl, fun a => Call.decode_respond asIs (l.call_returns c a)⟩

/-! A delete is forwarded as a comparison with revision 0. -/

/-- A delete of the leader that compares with revision 0, seen by the caller of `Delete`. -/
theorem Leader.forwarded_delete (l : Leader) (key : Bytes) :
    l.forwarded texts m errorText (.delete key) =
      (l.call texts (.deleteIfRevision key 0)).map
        (fun r => { revision := r.revision, err := r.err }) := by
  rw [Leader.forwarded_eq]
  simp only [Call.dispatched, Call.decode, Call.respond, casResponse, decodeErr_encodeErr]

theorem Leader.delete_absent (texts : ErrorTexts) (m : MapOrder)
    (errorText : ForwardError → Bytes) {l : Leader} {key : Bytes} (isOpen : l.closed = false)
    (absent : l.node.readKey key = .ok none) :
    l.forwarded texts m errorText (.delete key) =
        { leader := l, returns := fun _ => { revision := l.node.db.currentRev } } ∧
      l.call texts (.delete key) = { leader := l, returns := fun _ => {} } := by
  rw [Leader.forwarded_delete]
  obtain ⟨node, closed⟩ := l
  cases isOpen
  simp only [Leader.call, Bool.false_eq_true, if_false, Node.begin, Node.delete,
    Node.deleteIfRevision, Node.prepareDelete, absent, if_true]
  exact ⟨rfl, rfl⟩

theorem Leader.delete_present {l : Leader} {key : Bytes}
    (present : ¬ (l.closed = false ∧ l.node.readKey key = .ok none)) :
    l.forwarded texts m errorText (.delete key) = l.call texts (.delete key) := by
  rw [Leader.forwarded_delete]
  cases shut : l.closed with
  | true =>
    simp only [Leader.call, shut, if_true]
    rfl
  | false =>
    simp only [Leader.call, shut, Bool.false_eq_true, if_false, Node.begin, Node.delete,
      Node.deleteIfRevision]
    cases read : l.node.readKey key with
    | error err =>
      simp only [Node.prepareDelete, read]
      rfl
    | ok existing =>
      cases existing with
      | none => exact absurd ⟨shut, read⟩ present
      | some kv =>
        have anyRevision : ¬ ((0 : Int) ≠ 0 ∧ kv.revision ≠ 0) := fun other => other.1 rfl
        simp only [if_neg anyRevision, Node.prepareDelete, read]
        by_cases empty : key = []
        · simp only [if_pos empty]
          rfl
        · simp only [if_neg empty, Execution.map, Execution.mk.injEq, true_and]
          funext a
          cases a <;> rfl

end Transparency

/-- The call deletes a key that is not there, on a leader that has a revision. -/
def Leader.DeletesNothing (l : Leader) (c : Call) : Prop :=
  ∃ key, c = .delete key ∧ l.closed = false ∧ l.node.readKey key = .ok none ∧
    l.node.db.currentRev ≠ 0

/-- **Forwarding is transparent for every call but the delete of an absent key.** -/
theorem Leader.forwarded_agrees_iff (texts : ErrorTexts) (m : MapOrder)
    (errorText : ForwardError → Bytes) (l : Leader) (c : Call) :
    (l.forwarded texts m errorText c).Agrees (l.call texts c) ↔ ¬ l.DeletesNothing c := by
  by_cases isDelete : ∃ key, c = .delete key
  · obtain ⟨key, rfl⟩ := isDelete
    by_cases absent : l.closed = false ∧ l.node.readKey key = .ok none
    · obtain ⟨isOpen, absent⟩ := absent
      obtain ⟨forwarded, direct⟩ := delete_absent texts m errorText isOpen absent
      rw [forwarded, direct]
      constructor
      · intro agrees deletes
        obtain ⟨-, -, -, -, counted⟩ := deletes
        exact counted (agrees.returns .committed).revision
      · intro none
        have fresh : l.node.db.currentRev = 0 :=
          not_not.mp (fun counted => none ⟨key, rfl, isOpen, absent, counted⟩)
        rw [fresh]
        exact ⟨rfl, rfl, fun _ => .refl _⟩
    · rw [delete_present absent]
      refine ⟨fun _ deletes => ?_, fun _ => ⟨rfl, rfl, fun _ => .refl _⟩⟩
      obtain ⟨other, same, isOpen, missing, -⟩ := deletes
      cases same
      exact absent ⟨isOpen, missing⟩
  · have asIs : c.dispatched = c := by
      cases c with
      | delete key => exact absurd ⟨key, rfl⟩ isDelete
      | _ => rfl
    refine ⟨fun _ deletes => ?_, fun _ => l.forwarded_agrees asIs⟩
    obtain ⟨key, same, -⟩ := deletes
    exact isDelete ⟨key, same⟩

/-- A put of `k`. -/
def putK : Entry :=
  { id := 1, revision := 1, term := 1, op := Op.create, key := [0x6b], value := [0x76],
    createRevision := 1, version := 1 }

def oncePut : Leader where
  node :=
    { nextRev := 1, nextSeq := 1, pending := SortedMap.empty, db := (Store.empty.apply [putK]).1 }

def plainTexts : ErrorTexts where
  ofResult _ := ascii "t4: commit"
  closed := ascii "t4: node is closed"

/-- `Delete` of the absent key `l`: 1 on a follower, 0 on the leader. -/
theorem delete_absent_forwarded :
    ¬ (oncePut.forwarded plainTexts ⟨id, fun _ => .refl _⟩ (fun _ => []) (.delete [0x6c])).Agrees
      (oncePut.call plainTexts (.delete [0x6c])) := by
  intro agrees
  have differs : oncePut.node.db.currentRev ≠ 0 := by decide +kernel
  have absent : oncePut.node.readKey [0x6c] = .ok none := by decide +kernel
  obtain ⟨forwarded, direct⟩ := Leader.delete_absent plainTexts ⟨id, fun _ => .refl _⟩
    (fun _ => []) (l := oncePut) rfl absent
  rw [forwarded, direct] at agrees
  exact differs (agrees.returns .committed).revision

end T4.WritePath
