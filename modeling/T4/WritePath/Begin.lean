import T4.WritePath.Model

/-!
# The critical section of a call

What a call does under the mutex, from any node: it returns, or it takes the next
numbers, notes its operations in the overlay and queues an entry whose operations
continue the values that it read (`Node.Queues`). One call can do neither: deleting
the empty key while it is present takes the numbers, notes the delete and then
returns as if the key were absent.

Nothing is assumed of the store or of the overlay, in particular not that they agree
with a history.
-/

namespace T4.WritePath

open Lib Bytes Wal Mvcc List

/-- The value with the version that the write path takes it to have. -/
def counted (kv : KeyValue) : KeyValue := { kv with version := kvVersion kv }

theorem counted_of_pos {kv : KeyValue} (positive : 0 < kv.version) : counted kv = kv := by
  unfold counted kvVersion
  rw [if_pos positive]

/-- The joint outcome of the conditions of a transaction. -/
def conditionsHold (lookup : Bytes → Option KeyValue) (conds : List TxnCondition) : Bool :=
  conds.all (fun cond => txnCondMatches cond (lookup cond.key))

/-- The branch of a transaction that its conditions select. -/
def TxnRequest.branch (req : TxnRequest) (succeeded : Bool) : List TxnOp :=
  if succeeded then req.success else req.failure

theorem Call.txn_wellTyped {req : TxnRequest} (typed : (Call.txn req).WellTyped)
    (succeeded : Bool) : ∀ op ∈ req.branch succeeded, op.WellTyped := by
  cases succeeded with
  | false => exact typed.2
  | true => exact typed.1

/-- The node after `e` with operations `ops` was assigned. -/
def Node.noted (n : Node) (e : Entry) (ops : List TxnSubOp) : Node :=
  { n.setPending e.revision ops with nextRev := e.revision, nextSeq := n.nextSeq + 1 }

/-- The value that `readKey` finds. -/
def Node.visible (n : Node) (key : Bytes) : Option KeyValue :=
  match n.readKey key with
  | .ok existing => existing
  | .error _ => none

theorem Node.visible_eq {n : Node} {key : Bytes} {existing : Option KeyValue}
    (read : n.readKey key = .ok existing) : n.visible key = existing := by
  rw [Node.visible, read]

/-- The call does not delete the empty key while it is present: such a delete is taken
for one of an absent key after its numbers were assigned. -/
def Node.SparesEmptyKey (n : Node) : Call → Prop
  | .delete key => key = [] → n.visible key = none
  | .deleteIfRevision key revision => key = [] →
      ∀ kv ∈ n.visible key, revision ≠ 0 ∧ kv.revision ≠ revision
  | _ => True

instance (n : Node) (c : Call) : Decidable (n.SparesEmptyKey c) := by
  rcases c with _ | _ <;> unfold Node.SparesEmptyKey <;> infer_instance

/-- The operation continues what reading its key found, and fits the codecs. -/
def Node.Continued (n : Node) (rev : Int) (o : TxnSubOp) : Prop :=
  Sized o ∧ ∃ existing, n.readKey o.key = .ok existing ∧ Continues rev (existing.map counted) o

/-- What a call that assigns `e` has done: `next` is the node it leaves, `key` what
`await` is told to clean up. -/
structure Node.Queues (n : Node) (e : Entry) (ops : List TxnSubOp) (basis : Basis) (key : Bytes)
    (next : Node) : Prop where
  next : next = n.noted e ops
  isId : e.id = n.nextSeq + 1
  data : e.op ≠ Op.compact →
    e.revision = n.nextRev + 1 ∧ Carries e ops ∧ ∀ o ∈ ops, n.Continued e.revision o
  compact : e.op = Op.compact →
    e.revision = n.nextRev ∧ ops = [] ∧ e.key = [] ∧ key = [] ∧ IsInt64 e.prevRevision
  covers : ∀ o ∈ ops, o.key ∈ basis.reads
  outcome : ∀ lookup, (∀ k ∈ basis.reads, n.readKey k = .ok (lookup k)) →
    conditionsHold lookup basis.conditions = basis.succeeded

inductive Node.Ended (n : Node) (c : Call) : Node × Begun → Prop
  | returned (result : Result) : Node.Ended n c (n, .returned result)
  | queued {e : Entry} {ops : List TxnSubOp} {basis : Basis} {key : Bytes} {next : Node}
      (queues : n.Queues e ops basis key next) (result : Result) :
      Node.Ended n c (next, .queued e basis key result)
  | dropped {e : Entry} {ops : List TxnSubOp} {basis : Basis} {key : Bytes} {next : Node}
      (queues : n.Queues e ops basis key next) (isDelete : e.op = Op.delete)
      (unspared : ¬ n.SparesEmptyKey c) (result : Result) :
      Node.Ended n c (next, .returned result)

theorem firstDuplicate_eq_none {seen : List Bytes} {active : List ResolvedOp} :
    firstDuplicate seen active = none ↔
      (active.map ResolvedOp.key).Nodup ∧ ∀ r ∈ active, r.key ∉ seen := by
  induction active generalizing seen with
  | nil => simp [firstDuplicate]
  | cons r rest ih =>
    rw [firstDuplicate, map_cons, nodup_cons]
    split
    · rename_i again
      refine ⟨fun found => (Option.some_ne_none _ found).elim, fun parts => ?_⟩
      exact absurd again (parts.2 r (by simp))
    · rename_i fresh
      rw [ih]
      constructor
      · intro parts
        obtain ⟨distinct, apart⟩ := parts
        refine ⟨⟨?_, distinct⟩, ?_⟩
        · intro again
          obtain ⟨other, mem, same⟩ := mem_map.mp again
          exact apart other mem (by simp [same])
        · intro other mem
          rcases mem_cons.mp mem with rfl | later
          · exact fresh
          · exact fun old => apart other later (mem_cons_of_mem _ old)
      · intro parts
        obtain ⟨⟨new, distinct⟩, apart⟩ := parts
        refine ⟨distinct, ?_⟩
        intro other mem old
        rcases mem_cons.mp old with same | old
        · exact new (mem_map.mpr ⟨other, mem, same⟩)
        · exact apart other (mem_cons_of_mem _ mem) old

theorem resolveOp_continues {op : TxnOp} {existing : Option KeyValue} {r : ResolvedOp}
    (resolved : resolveOp op existing = some r) (typed : op.WellTyped) (newRev : Int) :
    r.key = op.key ∧ Sized (r.subOp newRev) ∧
      Continues newRev (existing.map counted) (r.subOp newRev) := by
  unfold resolveOp at resolved
  split at resolved
  · cases resolved
    exact ⟨rfl, ⟨typed.1, typed.2.1, typed.2.2⟩, rfl, rfl, rfl, rfl⟩
  · cases resolved
    exact ⟨rfl, ⟨typed.1, typed.2.1, typed.2.2⟩, Or.inl ⟨rfl, rfl⟩, rfl, rfl⟩
  · cases resolved
  · cases resolved
    refine ⟨rfl, ⟨typed.1, ?_, ?_⟩, Or.inr ⟨rfl, rfl⟩, rfl, rfl⟩
    · simp [ResolvedOp.subOp]
    · exact ⟨by simp [ResolvedOp.subOp], by simp [ResolvedOp.subOp]⟩
  · cases resolved

namespace Node

variable {n : Node}

/-! ## Single-key calls -/

variable {e : Entry} {key value : Bytes} {lease : Int} {req : TxnRequest}

theorem queues_single (isId : e.id = n.nextSeq + 1) (revision : e.revision = n.nextRev + 1)
    (sized : Sized (subOp e)) {existing : Option KeyValue} (read : n.readKey e.key = .ok existing)
    (continues : Continues e.revision (existing.map counted) (subOp e)) :
    n.Queues e [subOp e] { reads := [e.key] } e.key (n.noted e [subOp e]) := by
  obtain ⟨data, notTxn⟩ := continues.op_ne
  refine ⟨rfl, isId, fun _ => ⟨revision, .single notTxn, ?_⟩, fun compact => absurd compact data,
    ?_,
    fun _ _ => rfl⟩
  · intro o mem
    rw [mem_singleton.mp mem]
    exact ⟨sized, existing, read, continues⟩
  · intro o mem
    rw [mem_singleton.mp mem]
    exact mem_singleton.mpr rfl

theorem ended_single {c : Call} {next : Node} {result : Result}
    (isNext : next = n.noted e [subOp e]) (isId : e.id = n.nextSeq + 1)
    (revision : e.revision = n.nextRev + 1) (sized : Sized (subOp e)) {existing : Option KeyValue}
    (read : n.readKey e.key = .ok existing)
    (continues : Continues e.revision (existing.map counted) (subOp e)) :
    n.Ended c (next, .queued e { reads := [e.key] } e.key result) := by
  rw [isNext]
  exact .queued (queues_single isId revision sized read continues) result

theorem put_ended (typed : (Call.put key value lease).WellTyped) :
    n.Ended (.put key value lease) (n.put key value lease) := by
  unfold Node.put Node.preparePut
  have sized := typed.2
  cases read : n.readKey key with
  | error err => exact .returned _
  | ok existing =>
    cases existing with
    | none =>
      exact ended_single rfl rfl rfl ⟨typed.1, sized.1, sized.2⟩ read ⟨rfl, rfl, rfl, rfl⟩
    | some kv =>
      exact ended_single rfl rfl rfl ⟨typed.1, sized.1, sized.2⟩ read
        ⟨Or.inl ⟨rfl, rfl⟩, rfl, rfl⟩

theorem create_ended (typed : (Call.create key value lease).WellTyped) :
    n.Ended (.create key value lease) (n.create key value lease) := by
  unfold Node.create
  have sized := typed.2
  split
  · exact .returned _
  · exact .returned _
  · rename_i read
    exact ended_single rfl rfl rfl ⟨typed.1, sized.1, sized.2⟩ read ⟨rfl, rfl, rfl, rfl⟩

theorem update_ended {revision : Int} (typed : (Call.update key value revision lease).WellTyped) :
    n.Ended (.update key value revision lease) (n.update key value revision lease) := by
  unfold Node.update
  have sized := typed.2
  split
  · exact .returned _
  · exact .returned _
  · rename_i kv read
    split
    · exact .returned _
    · exact ended_single rfl rfl rfl ⟨typed.1, sized.1, sized.2⟩ read
        ⟨Or.inl ⟨rfl, rfl⟩, rfl, rfl⟩

theorem prepareDelete_queues (short : key.length < 2 ^ 32) {kv : KeyValue}
    (read : n.readKey key = .ok (some kv)) :
    ∃ next e, n.prepareDelete key = .ok (next, e) ∧ e.key = key ∧ e.op = Op.delete ∧
      n.Queues e [subOp e] { reads := [key] } key next := by
  unfold Node.prepareDelete
  rw [read]
  refine ⟨_, _, rfl, rfl, rfl, queues_single rfl rfl ⟨short, by simp [subOp], ?_⟩ read
    ⟨Or.inr ⟨rfl, rfl⟩, rfl, rfl⟩⟩
  exact ⟨by simp [subOp], by simp [subOp]⟩

theorem delete_ended (typed : (Call.delete key).WellTyped) :
    n.Ended (.delete key) (n.delete key) := by
  unfold Node.delete
  cases read : n.readKey key with
  | error err =>
    rw [Node.prepareDelete, read]
    exact .returned _
  | ok existing =>
    cases existing with
    | none =>
      rw [Node.prepareDelete, read]
      exact .returned _
    | some kv =>
      obtain ⟨next, e, prepared, sameKey, isDelete, queues⟩ := prepareDelete_queues typed read
      rw [prepared]
      simp only
      split
      · rename_i empty
        refine .dropped queues isDelete ?_ _
        intro spared
        have absent := spared (sameKey.symm.trans empty)
        rw [visible_eq read] at absent
        cases absent
      · exact .queued queues _

theorem deleteIfRevision_ended {revision : Int}
    (typed : (Call.deleteIfRevision key revision).WellTyped) :
    n.Ended (.deleteIfRevision key revision) (n.deleteIfRevision key revision) := by
  unfold Node.deleteIfRevision
  split
  · exact .returned _
  · exact .returned _
  · rename_i kv read
    split
    · exact .returned _
    · rename_i matched
      obtain ⟨next, e, prepared, sameKey, isDelete, queues⟩ := prepareDelete_queues typed read
      rw [prepared]
      simp only
      split
      · rename_i empty
        refine .dropped queues isDelete ?_ _
        intro spared
        have shown : kv ∈ n.visible key := by
          rw [visible_eq read]
          rfl
        exact matched (spared (sameKey.symm.trans empty) kv shown)
      · exact .queued queues _

theorem compact_ended {revision : Int} (typed : (Call.compact revision).WellTyped) :
    n.Ended (.compact revision) (n.compact revision) := by
  have notData : ¬ Op.compact ≠ Op.compact := fun differ => differ rfl
  have queues : n.Queues
      { id := n.nextSeq + 1, revision := n.nextRev, term := n.term, op := Op.compact,
        prevRevision := revision } [] { reads := [] } [] { n with nextSeq := n.nextSeq + 1 } :=
    ⟨rfl, rfl, fun data => absurd data notData, fun _ => ⟨rfl, rfl, rfl, rfl, typed⟩,
      (fun _ mem => nomatch mem), fun _ _ => rfl⟩
  exact .queued queues _

/-! ## Transactions -/

theorem evalConditions_outcome {conds : List TxnCondition} {succeeded : Bool} {reads : List Bytes}
    (evaluated : n.evalConditions conds = .ok (succeeded, reads)) {lookup : Bytes → Option KeyValue}
    (agrees : ∀ k ∈ reads, n.readKey k = .ok (lookup k)) :
    conditionsHold lookup conds = succeeded := by
  induction conds generalizing succeeded reads with
  | nil =>
    cases evaluated
    rfl
  | cons cond rest ih =>
    have hold : conditionsHold lookup (cond :: rest) =
        (txnCondMatches cond (lookup cond.key) && conditionsHold lookup rest) := rfl
    rw [Node.evalConditions] at evaluated
    split at evaluated
    · cases evaluated
    · rename_i existing read
      have found : ∀ k ∈ reads, k = cond.key → existing = lookup cond.key := by
        rintro k mem rfl
        have same := agrees _ mem
        rw [read] at same
        exact Except.ok.inj same
      split at evaluated
      · rename_i unmatched
        cases evaluated
        rw [hold, ← found cond.key (by simp) rfl, Bool.eq_false_iff.mpr unmatched, Bool.false_and]
      · rename_i matched
        split at evaluated
        · cases evaluated
        · rename_i outcome more evaluatedRest
          cases evaluated
          rw [hold, ← found cond.key (by simp) rfl, not_not.mp matched, Bool.true_and]
          exact ih evaluatedRest (fun k mem => agrees k (mem_cons_of_mem _ mem))

theorem resolveOps_origin {ops : List TxnOp} {active : List ResolvedOp}
    (resolves : n.resolveOps ops = .ok active) :
    ∀ r ∈ active, ∃ op ∈ ops, ∃ existing, n.readKey op.key = .ok existing ∧
      resolveOp op existing = some r := by
  induction ops generalizing active with
  | nil =>
    cases resolves
    intro r mem
    cases mem
  | cons op rest ih =>
    rw [Node.resolveOps] at resolves
    split at resolves
    · cases resolves
    · rename_i existing read
      split at resolves
      · cases resolves
      · rename_i more resolvesRest
        cases resolves
        intro r mem
        rcases mem_append.mp mem with here | later
        · exact ⟨op, by simp, existing, read, Option.mem_toList.mp here⟩
        · obtain ⟨other, inRest, found⟩ := ih resolvesRest r later
          exact ⟨other, mem_cons_of_mem _ inRest, found⟩

theorem queues_txn (typed : (Call.txn req).WellTyped) {succeeded : Bool} {reads : List Bytes}
    {active : List ResolvedOp}
    (evaluated : n.evalConditions req.conditions = .ok (succeeded, reads))
    (resolves : n.resolveOps (req.branch succeeded) = .ok active) (few : active.length ≤ 65535)
    (distinct : firstDuplicate [] active = none) (isTxn : e.op = Op.txn)
    (isId : e.id = n.nextSeq + 1) (revision : e.revision = n.nextRev + 1)
    (payload : e.value = encodeTxnOps (active.map (ResolvedOp.subOp e.revision))) :
    n.Queues e (active.map (ResolvedOp.subOp e.revision))
      { reads := reads ++ (req.branch succeeded).map TxnOp.key, conditions := req.conditions
        succeeded } [] (n.noted e (active.map (ResolvedOp.subOp e.revision))) := by
  have data : e.op ≠ Op.compact := by
    rw [isTxn]
    decide
  have keys : (active.map (ResolvedOp.subOp e.revision)).map TxnSubOp.key =
      active.map ResolvedOp.key := by
    rw [map_map]
    rfl
  have origin : ∀ o ∈ active.map (ResolvedOp.subOp e.revision),
      ∃ op ∈ req.branch succeeded, o.key = op.key ∧ n.Continued e.revision o := by
    intro o mem
    obtain ⟨r, isActive, rfl⟩ := mem_map.mp mem
    obtain ⟨op, inBranch, existing, read, resolved⟩ := resolveOps_origin resolves r isActive
    obtain ⟨sameKey, sized, continues⟩ := resolveOp_continues resolved
      (Call.txn_wellTyped typed succeeded op inBranch) e.revision
    have readHere : n.readKey (r.subOp e.revision).key = .ok existing := by
      rw [← read, ← sameKey]
      rfl
    exact ⟨op, inBranch, sameKey, sized, existing, readHere, continues⟩
  refine ⟨rfl, isId, fun _ => ⟨revision, .txn isTxn payload (by simpa using few) ?_, ?_⟩,
    fun compact => absurd compact data, ?_, ?_⟩
  · rw [keys]
    exact (firstDuplicate_eq_none.mp distinct).1
  · intro o mem
    obtain ⟨op, -, -, continued⟩ := origin o mem
    exact continued
  · intro o mem
    obtain ⟨op, inBranch, sameKey, -⟩ := origin o mem
    rw [sameKey]
    exact mem_append_right _ (mem_map.mpr ⟨op, inBranch, rfl⟩)
  · intro lookup agrees
    exact evalConditions_outcome evaluated (fun k mem => agrees k (mem_append_left _ mem))

theorem prepareTxn_ended (typed : (Call.txn req).WellTyped) :
    (∃ result, n.prepareTxn req = (n, .error result)) ∨
      (∃ succeeded, n.prepareTxn req = (n, .noop succeeded)) ∨
      ∃ next e ops basis succeeded deletedKeys,
        n.prepareTxn req = (next, .entry e basis succeeded deletedKeys) ∧
          n.Queues e ops basis [] next := by
  unfold Node.prepareTxn
  split
  · exact Or.inl ⟨_, rfl⟩
  · rename_i succeeded reads evaluated
    simp only
    rw [show (if succeeded = true then req.success else req.failure) = req.branch succeeded
      from rfl]
    split
    · exact Or.inr (Or.inl ⟨_, rfl⟩)
    · split
      · exact Or.inl ⟨_, rfl⟩
      · rename_i active resolves
        split
        · exact Or.inr (Or.inl ⟨_, rfl⟩)
        · split
          · exact Or.inl ⟨_, rfl⟩
          · rename_i few
            split
            · exact Or.inl ⟨_, rfl⟩
            · rename_i distinct
              have queues := queues_txn typed evaluated resolves (by omega) distinct
                (e := { id := n.nextSeq + 1, revision := n.nextRev + 1, term := n.term,
                        op := Op.txn,
                        value := encodeTxnOps (active.map (ResolvedOp.subOp (n.nextRev + 1))) })
                rfl rfl rfl rfl
              exact Or.inr (Or.inr ⟨_, _, _, _, _, _, rfl, queues⟩)

theorem txn_ended (typed : (Call.txn req).WellTyped) : n.Ended (.txn req) (n.txn req) := by
  unfold Node.txn
  rcases prepareTxn_ended typed with failed | noop | queued
  · obtain ⟨result, eq⟩ := failed
    rw [eq]
    exact .returned _
  · obtain ⟨succeeded, eq⟩ := noop
    rw [eq]
    exact .returned _
  · obtain ⟨next, e, ops, basis, succeeded, deletedKeys, eq, queues⟩ := queued
    rw [eq]
    exact .queued queues _

/-- **The critical section of a call.** -/
theorem begin_ended (n : Node) {c : Call} (typed : c.WellTyped) : n.Ended c (n.begin c) := by
  cases c with
  | put key value lease => exact put_ended typed
  | create key value lease => exact create_ended typed
  | update key value revision lease => exact update_ended typed
  | delete key => exact delete_ended typed
  | deleteIfRevision key revision => exact deleteIfRevision_ended typed
  | txn req => exact txn_ended typed
  | compact revision => exact compact_ended typed

end Node

end T4.WritePath
