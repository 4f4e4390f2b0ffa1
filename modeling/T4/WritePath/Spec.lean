import T4.WritePath.Pending

/-!
# The sequential specification

A plain key-value map with a revision counter, and what each call does to it when it
runs alone. `Node.Agrees` relates a node to such a map; the critical section of a
call keeps the relation (`Node.Agrees.begin`), and the result it returns or will
return shows the outcome on the map.
-/

namespace T4.WritePath

open Lib Bytes Wal Mvcc List

/-- A key-value map with a revision counter. -/
structure KVMap where
  rev : Int
  value : Bytes → Option KeyValue

inductive Outcome
  /-- `Put`, `Create` and `Delete` took a revision. -/
  | revision (rev : Int)
  | nothingDeleted
  | keyExists
  /-- The key is absent or at another revision than expected. -/
  | casFailed (old : Option KeyValue)
  | casDone (rev : Int) (old : KeyValue)
  /-- No revision is taken when the branch has nothing to write. -/
  | txn (succeeded : Bool) (rev : Option Int) (deletedKeys : List Bytes)
  | txnTooManyOps
  | txnDuplicateKey
  | compacted

namespace KVMap

/-- The value that a write at the next revision leaves. -/
def written (m : KVMap) (key value : Bytes) (lease : Int) : KeyValue :=
  match m.value key with
  | none =>
    { key, value, revision := m.rev + 1, createRevision := m.rev + 1, prevRevision := 0,
      version := 1, lease }
  | some old =>
    { key, value, revision := m.rev + 1, createRevision := old.createRevision,
      prevRevision := old.revision, version := old.version + 1, lease }

/-- Take the next revision and set one key. -/
def set (m : KVMap) (key : Bytes) (value : Option KeyValue) : KVMap where
  rev := m.rev + 1
  value := Function.update m.value key value

/-- The operations that change the map: puts, and deletes of present keys. -/
def effective (m : KVMap) (ops : List TxnOp) : List TxnOp :=
  ops.filter (fun op => op.type = .put ∨ op.type = .delete ∧ (m.value op.key).isSome)

/-- What an operation of a transaction leaves at its key. -/
def opValue (m : KVMap) (op : TxnOp) : Option KeyValue :=
  if op.type = .delete then none else some (m.written op.key op.value op.lease)

/-- Take the next revision and apply operations on distinct keys. -/
def setAll (m : KVMap) (ops : List TxnOp) : KVMap where
  rev := m.rev + 1
  value k :=
    match ops.find? (fun op => op.key = k) with
    | none => m.value k
    | some op => m.opValue op

def exec (m : KVMap) : Call → KVMap × Outcome
  | .put key value lease =>
    (m.set key (some (m.written key value lease)), .revision (m.rev + 1))
  | .create key value lease =>
    match m.value key with
    | some _ => (m, .keyExists)
    | none => (m.set key (some (m.written key value lease)), .revision (m.rev + 1))
  | .update key value revision lease =>
    match m.value key with
    | none => (m, .casFailed none)
    | some old =>
      if old.revision ≠ revision then (m, .casFailed (some old))
      else (m.set key (some (m.written key value lease)), .casDone (m.rev + 1) old)
  | .delete key =>
    match m.value key with
    | none => (m, .nothingDeleted)
    | some _ => (m.set key none, .revision (m.rev + 1))
  | .deleteIfRevision key revision =>
    match m.value key with
    | none => (m, .casFailed none)
    | some old =>
      if revision ≠ 0 ∧ old.revision ≠ revision then (m, .casFailed (some old))
      else (m.set key none, .casDone (m.rev + 1) old)
  | .txn req =>
    let succeeded := conditionsHold m.value req.conditions
    let ops := m.effective (req.branch succeeded)
    if ops = [] then (m, .txn succeeded none [])
    else if ops.length > 65535 then (m, .txnTooManyOps)
    else if ¬ (ops.map TxnOp.key).Nodup then (m, .txnDuplicateKey)
    else
      (m.setAll ops, .txn succeeded (some (m.rev + 1))
        ((ops.filter (fun op => op.type = .delete)).map TxnOp.key))
  | .compact _ => (m, .compacted)

def execAll (m : KVMap) : List Call → KVMap × List Outcome
  | [] => (m, [])
  | c :: rest =>
    let (m, outcome) := m.exec c
    let (m, outcomes) := m.execAll rest
    (m, outcome :: outcomes)

theorem execAll_snoc (m : KVMap) (calls : List Call) (c : Call) :
    m.execAll (calls ++ [c]) =
      (((m.execAll calls).1.exec c).1,
        (m.execAll calls).2 ++ [((m.execAll calls).1.exec c).2]) := by
  induction calls generalizing m with
  | nil => rfl
  | cons first rest ih => simp only [cons_append, execAll, ih]

end KVMap

/-- `result` tells the caller the outcome. The revision that comes with a failed
conditional write or an empty transaction is the committed one and not part of it. -/
inductive Result.Shows : Result → Outcome → Prop
  | revision {rev : Int} : Result.Shows (.revision rev) (.revision rev)
  | nothingDeleted : Result.Shows (.revision 0) .nothingDeleted
  | keyExists : Result.Shows .keyExists .keyExists
  | casFailed {committed : Int} {old : Option KeyValue} :
      Result.Shows (.cas committed old false) (.casFailed old)
  | casDone {rev : Int} {old : KeyValue} : Result.Shows (.cas rev (some old) true)
      (.casDone rev old)
  | txn {succeeded : Bool} {rev : Int} {deletedKeys : List Bytes} :
      Result.Shows (.txn succeeded rev deletedKeys) (.txn succeeded (some rev) deletedKeys)
  | txnEmpty {succeeded : Bool} {committed : Int} :
      Result.Shows (.txn succeeded committed []) (.txn succeeded none [])
  | txnTooManyOps {n : Nat} : Result.Shows (.txnTooManyOps n) .txnTooManyOps
  | txnDuplicateKey {key : Bytes} : Result.Shows (.txnDuplicateKey key) .txnDuplicateKey
  | compacted : Result.Shows .compacted .compacted

def Call.KeysNonempty : Call → Prop
  | .put key _ _ | .create key _ _ | .update key _ _ _ | .delete key | .deleteIfRevision key _ =>
    key ≠ []
  | .txn req => (∀ cond ∈ req.conditions, cond.key ≠ []) ∧ (∀ op ∈ req.success, op.key ≠ []) ∧
      ∀ op ∈ req.failure, op.key ≠ []
  | .compact _ => True

instance (c : Call) : Decidable c.KeysNonempty := by
  rcases c with _ | _ <;> unfold Call.KeysNonempty <;> infer_instance

/-! ## Nodes that agree with a map -/

/-- Reads of the node find the values of the map, and the counters are equal. -/
structure Node.Agrees (n : Node) (m : KVMap) : Prop where
  value : ∀ k, n.readKey k = .ok (m.value k)
  rev : n.nextRev = m.rev

/-- The critical section of `c` ends with what `c` does to the map. -/
def Node.Simulates (m : KVMap) (c : Call) (ended : Node × Node.Begun) : Prop :=
  ended.1.Agrees (m.exec c).1 ∧ ended.2.result.Shows (m.exec c).2

theorem readKey_insert (n : Node) (nextRev nextSeq : Int) (key : Bytes) (p : PendingKV)
    (k : Bytes) :
    ({ n with nextRev, nextSeq, pending := n.pending.insert key p } : Node).readKey k =
      if k = key then .ok p.value else n.readKey k := by
  rw [readKey_eq, readKey_eq]
  simp only [SortedMap.get_insert]
  rcases eq_or_ne k key with here | elsewhere
  · rw [if_pos here, if_pos here]
  · rw [if_neg elsewhere, if_neg elsewhere]

section Simulation

variable {n : Node} {m : KVMap}

variable {key : Bytes} {ops : List TxnOp}

theorem Node.Agrees.insert (agrees : n.Agrees m) (nextSeq : Int) {p : PendingKV}
    {value : Option KeyValue} (same : p.value = value) :
    ({ n with nextRev := n.nextRev + 1, nextSeq, pending := n.pending.insert key p } : Node).Agrees
      (m.set key value) := by
  refine ⟨?_, congrArg (· + 1) agrees.rev⟩
  intro k
  rw [readKey_insert, same, agrees.value]
  unfold KVMap.set
  simp only [Function.update_apply]
  split <;> rfl

theorem KVMap.written_of_none {value : Bytes} {lease : Int} (absent : m.value key = none) :
    m.written key value lease =
      { key, value, revision := m.rev + 1, createRevision := m.rev + 1, prevRevision := 0,
        version := 1, lease } := by
  rw [KVMap.written, absent]

theorem KVMap.written_of_some {value : Bytes} {lease : Int} {old : KeyValue}
    (present : m.value key = some old) :
    m.written key value lease =
      { key, value, revision := m.rev + 1, createRevision := old.createRevision,
        prevRevision := old.revision, version := old.version + 1, lease } := by
  rw [KVMap.written, present]

theorem Node.Agrees.put (agrees : n.Agrees m)
    (positive : ∀ k kv, m.value k = some kv → 0 < kv.version) (key value : Bytes) (lease : Int) :
    Node.Simulates m (.put key value lease) (n.put key value lease) := by
  unfold Node.put Node.preparePut Node.Simulates
  rw [agrees.value key]
  refine ⟨agrees.insert _ ?_, ?_⟩
  · cases held : m.value key with
    | none =>
      rw [KVMap.written_of_none held, ← agrees.rev]
      rfl
    | some old =>
      have version : kvVersion old = old.version := if_pos (positive key old held)
      rw [KVMap.written_of_some held, ← agrees.rev, ← version]
      rfl
  · simp only [Node.Begun.result, KVMap.exec, ← agrees.rev]
    exact .revision

theorem Node.Agrees.create (agrees : n.Agrees m) (key value : Bytes) (lease : Int) :
    Node.Simulates m (.create key value lease) (n.create key value lease) := by
  unfold Node.create Node.Simulates
  rw [agrees.value key]
  cases held : m.value key with
  | some old =>
    simp only [KVMap.exec, held]
    exact ⟨agrees, .keyExists⟩
  | none =>
    simp only [KVMap.exec, held]
    refine ⟨agrees.insert _ ?_, ?_⟩
    · rw [KVMap.written_of_none held, ← agrees.rev]
      rfl
    · simp only [Node.Begun.result, ← agrees.rev]
      exact .revision

theorem Node.Agrees.update (agrees : n.Agrees m)
    (positive : ∀ k kv, m.value k = some kv → 0 < kv.version) (key value : Bytes)
    (revision lease : Int) :
    Node.Simulates m (.update key value revision lease) (n.update key value revision lease) := by
  unfold Node.update Node.Simulates
  rw [agrees.value key]
  cases held : m.value key with
  | none =>
    simp only [KVMap.exec, held]
    exact ⟨agrees, .casFailed⟩
  | some old =>
    simp only [KVMap.exec, held]
    split
    · exact ⟨agrees, .casFailed⟩
    · refine ⟨agrees.insert _ ?_, ?_⟩
      · have version : kvVersion old = old.version := if_pos (positive key old held)
        rw [KVMap.written_of_some held, ← agrees.rev, ← version]
        rfl
      · simp only [Node.Begun.result, ← agrees.rev]
        exact .casDone

theorem Node.Agrees.prepareDelete (agrees : n.Agrees m) {old : KeyValue}
    (held : m.value key = some old) :
    ∃ next e, n.prepareDelete key = .ok (next, e) ∧ e.key = key ∧ e.revision = m.rev + 1 ∧
      next.Agrees (m.set key none) := by
  unfold Node.prepareDelete
  rw [agrees.value key, held]
  exact ⟨_, _, rfl, rfl, congrArg (· + 1) agrees.rev, agrees.insert _ rfl⟩

theorem Node.Agrees.delete (agrees : n.Agrees m) (nonempty : key ≠ []) :
    Node.Simulates m (.delete key) (n.delete key) := by
  unfold Node.delete Node.Simulates
  cases held : m.value key with
  | none =>
    rw [Node.prepareDelete, agrees.value key, held]
    simp only [KVMap.exec, held]
    exact ⟨agrees, .nothingDeleted⟩
  | some old =>
    obtain ⟨next, e, eq, sameKey, revision, agrees'⟩ := agrees.prepareDelete held
    rw [eq]
    simp only [KVMap.exec, held, sameKey, if_neg nonempty, Node.Begun.result, revision]
    exact ⟨agrees', .revision⟩

theorem Node.Agrees.deleteIfRevision (agrees : n.Agrees m) (nonempty : key ≠ []) (revision : Int) :
    Node.Simulates m (.deleteIfRevision key revision) (n.deleteIfRevision key revision) := by
  unfold Node.deleteIfRevision Node.Simulates
  rw [agrees.value key]
  cases held : m.value key with
  | none =>
    simp only [KVMap.exec, held]
    exact ⟨agrees, .casFailed⟩
  | some old =>
    simp only [KVMap.exec, held]
    split
    · exact ⟨agrees, .casFailed⟩
    · obtain ⟨next, e, eq, sameKey, isRev, agrees'⟩ := agrees.prepareDelete held
      rw [eq]
      simp only [sameKey, if_neg nonempty, Node.Begun.result, isRev]
      exact ⟨agrees', .casDone⟩

/-! ## Transactions -/

/-- The resolved form of an operation that changes the map. -/
def KVMap.resolved (m : KVMap) (op : TxnOp) : ResolvedOp :=
  (resolveOp op (m.value op.key)).getD { walOp := Op.create, key := op.key }

theorem KVMap.filterMap_resolveOp (m : KVMap) (ops : List TxnOp) :
    ops.filterMap (fun op => resolveOp op (m.value op.key)) =
      (m.effective ops).map m.resolved := by
  have each : ∀ op, resolveOp op (m.value op.key) =
      if op.type = .put ∨ op.type = .delete ∧ (m.value op.key).isSome then some (m.resolved op)
      else none := by
    intro op
    unfold KVMap.resolved resolveOp
    cases op.type <;> cases m.value op.key <;> simp
  rw [KVMap.effective]
  induction ops with
  | nil => rfl
  | cons op rest ih =>
    rw [filterMap_cons, filter_cons, each op, ih]
    split
    · rename_i none
      split at none
      · cases none
      · rename_i idle
        simp [idle]
    · rename_i r found
      split at found
      · rename_i acts
        cases found
        simp [acts]
      · cases found

theorem KVMap.resolved_spec (positive : ∀ k kv, m.value k = some kv → 0 < kv.version) {op : TxnOp}
    (mem : op ∈ m.effective ops) :
    (m.resolved op).key = op.key ∧
      (((m.resolved op).subOp (m.rev + 1)).op = Op.delete ↔ op.type = .delete) ∧
      (pendingOf (m.rev + 1) ((m.resolved op).subOp (m.rev + 1))).value = m.opValue op := by
  have acts := of_decide_eq_true (mem_filter.mp mem).2
  unfold KVMap.resolved resolveOp KVMap.opValue
  cases type : op.type with
  | unknown => simp [type] at acts
  | put =>
    cases held : m.value op.key with
    | none =>
      rw [KVMap.written_of_none held]
      exact ⟨rfl, iff_of_false (by decide : Op.create ≠ Op.delete) nofun, rfl⟩
    | some old =>
      have version : kvVersion old = old.version := if_pos (positive op.key old held)
      rw [KVMap.written_of_some held, ← version]
      exact ⟨rfl, iff_of_false (by decide : Op.update ≠ Op.delete) nofun, rfl⟩
  | delete =>
    cases held : m.value op.key with
    | none => simp [type, held] at acts
    | some old => exact ⟨rfl, iff_of_true rfl rfl, rfl⟩

/-- The operations of the log entry of a transaction on the map. -/
def KVMap.subOps (m : KVMap) (ops : List TxnOp) : List TxnSubOp :=
  ((m.effective ops).map m.resolved).map (ResolvedOp.subOp (m.rev + 1))

theorem KVMap.subOps_keys (positive : ∀ k kv, m.value k = some kv → 0 < kv.version)
    (ops : List TxnOp) : (m.subOps ops).map TxnSubOp.key = (m.effective ops).map TxnOp.key := by
  rw [KVMap.subOps, map_map, map_map]
  exact map_congr_left (fun op mem => (KVMap.resolved_spec positive mem).1)

theorem KVMap.mem_subOps {o : TxnSubOp} :
    o ∈ m.subOps ops ↔ ∃ op ∈ m.effective ops, (m.resolved op).subOp (m.rev + 1) = o := by
  simp [KVMap.subOps]

theorem Node.Agrees.setPending (agrees : n.Agrees m)
    (positive : ∀ k kv, m.value k = some kv → 0 < kv.version)
    (distinct : ((m.effective ops).map TxnOp.key).Nodup) (nextSeq : Int) :
    ({ n.setPending (m.rev + 1) (m.subOps ops) with nextRev := m.rev + 1, nextSeq } : Node).Agrees
      (m.setAll (m.effective ops)) := by
  refine ⟨?_, rfl⟩
  intro k
  rw [readKey_eq]
  simp only [KVMap.setAll]
  cases found : (m.effective ops).find? (fun op => op.key = k) with
  | none =>
    rw [get_setPending_of_not_mem]
    · have before := agrees.value k
      rw [readKey_eq] at before
      exact before
    · intro o mem same
      obtain ⟨op, isOp, rfl⟩ := KVMap.mem_subOps.mp mem
      have differ := find?_eq_none.mp found op isOp
      exact differ (decide_eq_true ((KVMap.resolved_spec positive isOp).1.symm.trans same))
  | some op =>
    have isOp := mem_of_find?_eq_some found
    have here : op.key = k := by simpa using find?_some found
    obtain ⟨sameKey, -, value⟩ := KVMap.resolved_spec positive isOp
    have noted : (n.setPending (m.rev + 1) (m.subOps ops)).pending.get k =
        some (pendingOf (m.rev + 1) ((m.resolved op).subOp (m.rev + 1))) := by
      rw [← here, ← sameKey]
      refine get_setPending_of_mem ?_ (KVMap.mem_subOps.mpr ⟨op, isOp, rfl⟩)
      rw [KVMap.subOps_keys positive]
      exact distinct
    rw [noted]
    exact congrArg Except.ok value

theorem KVMap.deletedKeys_eq (positive : ∀ k kv, m.value k = some kv → 0 < kv.version)
    (ops : List TxnOp) :
    ((m.subOps ops).filter (fun o => o.op = Op.delete)).map TxnSubOp.key =
      ((m.effective ops).filter (fun op => op.type = .delete)).map TxnOp.key := by
  rw [KVMap.subOps, map_map, filter_map, map_map]
  have same : (m.effective ops).filter
      ((fun o : TxnSubOp => decide (o.op = Op.delete)) ∘
        (ResolvedOp.subOp (m.rev + 1) ∘ m.resolved)) =
      (m.effective ops).filter (fun op => op.type = .delete) := by
    apply filter_congr
    intro op mem
    exact decide_eq_decide.mpr (KVMap.resolved_spec positive mem).2.1
  rw [same]
  apply map_congr_left
  intro op mem
  exact (KVMap.resolved_spec positive (mem_of_mem_filter mem)).1

theorem Node.Agrees.txn (agrees : n.Agrees m)
    (positive : ∀ k kv, m.value k = some kv → 0 < kv.version) (req : TxnRequest) :
    Node.Simulates m (.txn req) (n.txn req) := by
  obtain ⟨reads, evaluated, -⟩ := Node.evalConditions_eq agrees.value req.conditions
  unfold Node.Simulates Node.txn Node.prepareTxn
  simp only [KVMap.exec]
  generalize conditionsHold m.value req.conditions = succeeded at evaluated ⊢
  rw [evaluated]
  simp only
  rw [show (if succeeded = true then req.success else req.failure) = req.branch succeeded from rfl,
    Node.resolveOps_eq agrees.value, KVMap.filterMap_resolveOp]
  generalize req.branch succeeded = ops
  simp only [map_eq_nil_iff, length_map]
  by_cases empty : ops = []
  · have none : m.effective ops = [] := by rw [empty]; rfl
    simp only [if_pos empty, if_pos none]
    exact ⟨agrees, .txnEmpty⟩
  simp only [if_neg empty]
  by_cases none : m.effective ops = []
  · simp only [if_pos none]
    exact ⟨agrees, .txnEmpty⟩
  simp only [if_neg none]
  by_cases many : (m.effective ops).length > 65535
  · simp only [if_pos many]
    exact ⟨agrees, .txnTooManyOps⟩
  simp only [if_neg many]
  have passes : firstDuplicate [] ((m.effective ops).map m.resolved) = Option.none ↔
      ((m.effective ops).map TxnOp.key).Nodup := by
    have keys : ((m.effective ops).map m.resolved).map ResolvedOp.key =
        (m.effective ops).map TxnOp.key := by
      rw [map_map]
      exact map_congr_left (fun op mem => (KVMap.resolved_spec positive mem).1)
    rw [firstDuplicate_eq_none, keys]
    simp
  cases checked : firstDuplicate [] ((m.effective ops).map m.resolved) with
  | some key =>
    have repeated : ¬ ((m.effective ops).map TxnOp.key).Nodup := by
      rw [← passes, checked]
      nofun
    simp only [if_pos repeated]
    exact ⟨agrees, .txnDuplicateKey⟩
  | none =>
    have distinct := passes.mp checked
    simp only [distinct, not_true_eq_false, if_false, agrees.rev, Node.Begun.result]
    refine ⟨agrees.setPending positive distinct _, ?_⟩
    rw [← KVMap.deletedKeys_eq positive]
    exact .txn

/-- **The critical section of a call** does to the node what the call does to the map. -/
theorem Node.Agrees.begin (agrees : n.Agrees m)
    (positive : ∀ k kv, m.value k = some kv → 0 < kv.version) {c : Call}
    (nonempty : c.KeysNonempty) : Node.Simulates m c (n.begin c) := by
  cases c with
  | put key value lease => exact agrees.put positive key value lease
  | create key value lease => exact agrees.create key value lease
  | update key value revision lease => exact agrees.update positive key value revision lease
  | delete key => exact agrees.delete nonempty
  | deleteIfRevision key revision => exact agrees.deleteIfRevision nonempty revision
  | txn req => exact agrees.txn positive req
  | compact revision => exact ⟨⟨agrees.value, agrees.rev⟩, .compacted⟩

end Simulation

end T4.WritePath
