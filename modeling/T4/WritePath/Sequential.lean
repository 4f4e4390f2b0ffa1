import T4.WritePath.Aborts

/-!
# Transactions as sequences of operations

A transaction should mean its operations, executed one after another. `prepareTxn`
resolves all of them against the state before the transaction instead, drops the deletes
of absent keys and then refuses a branch that has two operations on a key. The two agree
unless a delete was dropped that an earlier put of the branch had given something to
delete.
-/

namespace T4.WritePath

open Lib Bytes Wal Mvcc List

/-! ## Executing operations -/

/-- The value that a put at `rev` leaves. -/
def TxnOp.putValue (op : TxnOp) (rev : Int) (existing : Option KeyValue) : KeyValue where
  key := op.key
  value := op.value
  revision := rev
  createRevision := (existing.map KeyValue.createRevision).getD rev
  prevRevision := (existing.map KeyValue.revision).getD 0
  version := nextPutVersion existing
  lease := op.lease

/-- What executing an operation at `rev` leaves of the value of its key. -/
def TxnOp.after (op : TxnOp) (rev : Int) (existing : Option KeyValue) : Option KeyValue :=
  match op.type with
  | .put => some (op.putValue rev existing)
  | .delete => none
  | .unknown => existing

/-- Execute operations one after another. -/
def sequential (rev : Int) (m : Bytes → Option KeyValue) (ops : List TxnOp) :
    Bytes → Option KeyValue :=
  ops.foldl (fun m op => Function.update m op.key (op.after rev (m op.key))) m

/-- The operation does something to `existing`. -/
def TxnOp.Effective (op : TxnOp) (existing : Option KeyValue) : Prop :=
  op.type = .put ∨ op.type = .delete ∧ existing.isSome

instance (op : TxnOp) (existing : Option KeyValue) : Decidable (op.Effective existing) :=
  inferInstanceAs (Decidable (_ ∨ _))

variable {op : TxnOp} {existing : Option KeyValue}

theorem TxnOp.after_of_idle (idle : ¬ op.Effective existing) (rev : Int) :
    op.after rev existing = existing := by
  unfold TxnOp.after
  cases type : op.type with
  | put => exact absurd (Or.inl type) idle
  | delete =>
    cases existing with
    | none => rfl
    | some kv => exact absurd (Or.inr ⟨type, rfl⟩) idle
  | unknown => rfl

section Sequential

variable {rev : Int} {m : Bytes → Option KeyValue} {k : Bytes}

theorem sequential_cons (op : TxnOp) (rest : List TxnOp) :
    sequential rev m (op :: rest) =
      sequential rev (Function.update m op.key (op.after rev (m op.key))) rest := rfl

theorem sequential_append (first second : List TxnOp) :
    sequential rev m (first ++ second) = sequential rev (sequential rev m first) second :=
  foldl_append

theorem sequential_of_idle {ops : List TxnOp}
    (idle : ∀ op ∈ ops, op.key = k → ¬ op.Effective (m k)) : sequential rev m ops k = m k := by
  induction ops generalizing m with
  | nil => rfl
  | cons op rest ih =>
    have same : Function.update m op.key (op.after rev (m op.key)) k = m k := by
      by_cases here : op.key = k
      · subst here
        rw [Function.update_self, TxnOp.after_of_idle (idle op (by simp) rfl)]
      · exact Function.update_of_ne (Ne.symm here) _ _
    rw [sequential_cons, ih, same]
    intro other mem here
    rw [same]
    exact idle other (mem_cons_of_mem _ mem) here

theorem sequential_of_single {before after : List TxnOp} {op : TxnOp}
    (idle : ∀ other ∈ before, other.key = op.key → ¬ other.Effective (m op.key))
    (last : ∀ other ∈ after, other.key = op.key →
      ¬ other.Effective (op.after rev (m op.key))) :
    sequential rev m (before ++ op :: after) op.key = op.after rev (m op.key) := by
  rw [sequential_append, sequential_cons]
  generalize held : sequential rev m before = middle
  have start : middle op.key = m op.key := by
    rw [← held]
    exact sequential_of_idle idle
  have value : Function.update middle op.key (op.after rev (middle op.key)) op.key =
      op.after rev (m op.key) := by
    rw [Function.update_self, start]
  rw [sequential_of_idle, value]
  intro other mem here
  rw [value]
  exact last other mem here

theorem sequential_of_delete {ops : List TxnOp} (noPut : ∀ op ∈ ops, op.key = k → op.type ≠ .put)
    {del : TxnOp} (mem : del ∈ ops) (isDelete : del.type = .delete) (here : del.key = k) :
    sequential rev m ops k = none := by
  obtain ⟨before, after, rfl⟩ := append_of_mem mem
  rw [sequential_append, sequential_cons]
  generalize sequential rev m before = middle
  have gone : Function.update middle del.key (del.after rev (middle del.key)) k = none := by
    rw [here, Function.update_self, TxnOp.after, isDelete]
  rw [sequential_of_idle, gone]
  intro op later same effective
  rw [gone] at effective
  rcases effective with put | delete
  · exact noPut op (by simp [later]) same put
  · exact Bool.false_ne_true delete.2

end Sequential

/-! ## Resolving operations -/

theorem resolveOp_spec {r : ResolvedOp} (resolved : resolveOp op existing = some r) (rev : Int) :
    op.Effective existing ∧ r.key = op.key ∧ (r.walOp = Op.delete ↔ op.type = .delete) ∧
      (pendingOf rev (r.subOp rev)).value = op.after rev existing := by
  unfold resolveOp at resolved
  unfold TxnOp.after
  split at resolved
  · rename_i type
    cases resolved
    rw [type]
    exact ⟨Or.inl type, rfl, iff_of_false (by decide : Op.create ≠ Op.delete) nofun, rfl⟩
  · rename_i type
    cases resolved
    rw [type]
    exact ⟨Or.inl type, rfl, iff_of_false (by decide : Op.update ≠ Op.delete) nofun, rfl⟩
  · cases resolved
  · rename_i type
    cases resolved
    rw [type]
    exact ⟨Or.inr ⟨type, rfl⟩, rfl, iff_of_true rfl rfl, rfl⟩
  · cases resolved

theorem resolveOp_of_idle (idle : ¬ op.Effective existing) : resolveOp op existing = none := by
  cases resolved : resolveOp op existing with
  | none => rfl
  | some r => exact absurd (resolveOp_spec resolved 0).1 idle

theorem resolveOp_of_effective (effective : op.Effective existing) :
    ∃ r, resolveOp op existing = some r := by
  unfold resolveOp
  rcases effective with put | delete
  · cases existing <;> rw [put] <;> exact ⟨_, rfl⟩
  · obtain ⟨type, present⟩ := delete
    obtain ⟨kv, rfl⟩ := Option.isSome_iff_exists.mp present
    rw [type]
    exact ⟨_, rfl⟩

namespace Node

variable (n : Node)

def selected (req : TxnRequest) : List TxnOp :=
  req.branch (conditionsHold n.visible req.conditions)

def effective (ops : List TxnOp) : List TxnOp :=
  ops.filter (fun op => op.Effective (n.visible op.key))

/-- A key that the transaction reads cannot be read: that of a condition, all before it
holding, or that of an operation. -/
def Unreadable (req : TxnRequest) : Prop :=
  (∃ before cond after err, req.conditions = before ++ cond :: after ∧
    (∀ c ∈ before, txnCondMatches c (n.visible c.key)) ∧ n.readKey cond.key = .error err) ∨
  ∃ op ∈ n.selected req, ∃ err, n.readKey op.key = .error err

/-- The transaction is refused: a read fails, there are too many operations, or one key
has two of them. -/
def Refuses (req : TxnRequest) : Prop :=
  n.Unreadable req ∨ 65535 < (n.effective (n.selected req)).length ∨
    ¬ ((n.effective (n.selected req)).map TxnOp.key).Nodup

/-- An absent key is put and later deleted. -/
def DeletesWhatItPuts (ops : List TxnOp) : Prop :=
  ∃ put del, [put, del].Sublist ops ∧ put.type = .put ∧ del.type = .delete ∧
    put.key = del.key ∧ n.visible put.key = none

def subOps (rev : Int) (ops : List TxnOp) : List TxnSubOp :=
  (ops.filterMap (fun op => resolveOp op (n.visible op.key))).map (ResolvedOp.subOp rev)

variable {n}

variable {ops : List TxnOp}

theorem mem_effective {op : TxnOp} :
    op ∈ n.effective ops ↔ op ∈ ops ∧ op.Effective (n.visible op.key) := by
  rw [effective, mem_filter, decide_eq_true_iff]

theorem resolved_keys (ops : List TxnOp) :
    (ops.filterMap (fun op => resolveOp op (n.visible op.key))).map ResolvedOp.key =
      (n.effective ops).map TxnOp.key := by
  induction ops with
  | nil => rfl
  | cons op rest ih =>
    rw [filterMap_cons, effective, filter_cons]
    by_cases acts : op.Effective (n.visible op.key)
    · obtain ⟨r, resolved⟩ := resolveOp_of_effective acts
      simp only [resolved, decide_eq_true acts, if_true, map_cons,
        (resolveOp_spec resolved 0).2.1]
      rw [ih]
      rfl
    · simp only [resolveOp_of_idle acts, decide_eq_false acts, Bool.false_eq_true, if_false]
      exact ih

theorem mem_subOps {rev : Int} {o : TxnSubOp} :
    o ∈ n.subOps rev ops ↔ ∃ op ∈ ops, ∃ r, resolveOp op (n.visible op.key) = some r ∧
      o = r.subOp rev := by
  simp only [subOps, mem_map, mem_filterMap]
  constructor
  · intro found
    obtain ⟨r, ⟨op, mem, resolved⟩, rfl⟩ := found
    exact ⟨op, mem, r, resolved, rfl⟩
  · intro found
    obtain ⟨op, mem, r, resolved, rfl⟩ := found
    exact ⟨r, ⟨op, mem, resolved⟩, rfl⟩

theorem noted_readKey (e : Entry) (ops : List TxnSubOp) (k : Bytes) :
    (n.noted e ops).readKey k =
      match (n.setPending e.revision ops).pending.get k with
      | some p => .ok p.value
      | none => n.db.get k :=
  readKey_eq _ _

theorem readKey_noted {e : Entry} (distinct : ((n.effective ops).map TxnOp.key).Nodup) :
    (∀ op ∈ n.effective ops, (n.noted e (n.subOps e.revision ops)).readKey op.key =
        .ok (op.after e.revision (n.visible op.key))) ∧
      ∀ k, (∀ op ∈ n.effective ops, op.key ≠ k) →
        (n.noted e (n.subOps e.revision ops)).readKey k = n.readKey k := by
  have nodup : ((n.subOps e.revision ops).map TxnSubOp.key).Nodup := by
    rw [← resolved_keys] at distinct
    rw [subOps, map_map]
    exact distinct
  constructor
  · intro op mem
    obtain ⟨inOps, acts⟩ := mem_effective.mp mem
    obtain ⟨r, resolved⟩ := resolveOp_of_effective acts
    obtain ⟨-, sameKey, -, value⟩ := resolveOp_spec resolved e.revision
    have noted := @get_setPending_of_mem n e.revision _ nodup _
      (mem_subOps.mpr ⟨op, inOps, r, resolved, rfl⟩)
    rw [← value, ← sameKey, noted_readKey, show r.key = (r.subOp e.revision).key from rfl, noted]
  · intro k untouched
    have absent : ∀ o ∈ n.subOps e.revision ops, o.key ≠ k := by
      intro o mem same
      obtain ⟨op, inOps, r, resolved, rfl⟩ := mem_subOps.mp mem
      obtain ⟨acts, sameKey, -, -⟩ := resolveOp_spec resolved 0
      exact untouched op (mem_effective.mpr ⟨inOps, acts⟩) (sameKey.symm.trans same)
    rw [noted_readKey, get_setPending_of_not_mem absent]
    exact (readKey_eq n k).symm

/-! ## The outcome of `prepareTxn` -/

theorem readKey_visible {k : Bytes} (readable : ∀ err, n.readKey k ≠ .error err) :
    n.readKey k = .ok (n.visible k) := by
  cases read : n.readKey k with
  | error err => exact absurd read (readable err)
  | ok existing => rw [visible_eq read]

theorem resolveOps_visible (ops : List TxnOp)
    (readable : ∀ op ∈ ops, ∀ err, n.readKey op.key ≠ .error err) :
    n.resolveOps ops = .ok (ops.filterMap (fun op => resolveOp op (n.visible op.key))) := by
  induction ops with
  | nil => rfl
  | cons op rest ih =>
    rw [resolveOps, readKey_visible (readable op (by simp)),
      ih (fun op mem => readable op (mem_cons_of_mem _ mem)), filterMap_cons]
    simp only
    cases resolveOp op (n.visible op.key) with
    | none => rfl
    | some r => rfl

theorem resolveOps_unreadable {op : TxnOp} (mem : op ∈ ops) {err : StoreError}
    (fails : n.readKey op.key = .error err) : ∃ err, n.resolveOps ops = .error err := by
  induction ops with
  | nil => cases mem
  | cons first rest ih =>
    rw [resolveOps]
    split
    · exact ⟨_, rfl⟩
    · rename_i existing read
      rcases mem_cons.mp mem with rfl | later
      · rw [fails] at read
        cases read
      · obtain ⟨other, failsRest⟩ := ih later
        rw [failsRest]
        exact ⟨_, rfl⟩

theorem evalConditions_unreadable {before : List TxnCondition} {cond : TxnCondition}
    (after : List TxnCondition) {err : StoreError}
    (hold : ∀ c ∈ before, txnCondMatches c (n.visible c.key))
    (fails : n.readKey cond.key = .error err) :
    ∃ err, n.evalConditions (before ++ cond :: after) = .error err := by
  induction before with
  | nil =>
    rw [nil_append, evalConditions, fails]
    exact ⟨_, rfl⟩
  | cons first rest ih =>
    obtain ⟨other, failsRest⟩ := ih (fun c mem => hold c (mem_cons_of_mem _ mem))
    rw [cons_append, evalConditions, failsRest]
    split
    · exact ⟨_, rfl⟩
    · rename_i existing read
      have matched := hold first (by simp)
      rw [visible_eq read] at matched
      rw [if_neg (not_not.mpr matched)]
      exact ⟨_, rfl⟩

theorem evalConditions_visible (conds : List TxnCondition)
    (readable : ¬ ∃ before cond after err, conds = before ++ cond :: after ∧
      (∀ c ∈ before, txnCondMatches c (n.visible c.key)) ∧ n.readKey cond.key = .error err) :
    ∃ reads, n.evalConditions conds = .ok (conditionsHold n.visible conds, reads) := by
  induction conds with
  | nil => exact ⟨[], rfl⟩
  | cons cond rest ih =>
    have hold : conditionsHold n.visible (cond :: rest) =
        (txnCondMatches cond (n.visible cond.key) && conditionsHold n.visible rest) := rfl
    have read : n.readKey cond.key = .ok (n.visible cond.key) := by
      refine readKey_visible (fun err fails => readable ?_)
      exact ⟨[], cond, rest, err, rfl, by simp, fails⟩
    rw [evalConditions, read, hold]
    cases matched : txnCondMatches cond (n.visible cond.key) with
    | false => exact ⟨[cond.key], by simp [matched]⟩
    | true =>
      have later : ¬ ∃ before other after err, rest = before ++ other :: after ∧
          (∀ c ∈ before, txnCondMatches c (n.visible c.key)) ∧
            n.readKey other.key = .error err := by
        intro found
        obtain ⟨before, other, after, err, rfl, all, fails⟩ := found
        refine readable ⟨cond :: before, other, after, err, rfl, ?_, fails⟩
        intro c mem
        rcases mem_cons.mp mem with rfl | inBefore
        · exact matched
        · exact all c inBefore
      obtain ⟨reads, evaluated⟩ := ih later
      exact ⟨cond.key :: reads, by simp [matched, evaluated]⟩

theorem length_resolved (ops : List TxnOp) :
    (ops.filterMap (fun op => resolveOp op (n.visible op.key))).length =
      (n.effective ops).length := by
  have lengths := congrArg List.length (resolved_keys (n := n) ops)
  simpa using lengths

theorem firstDuplicate_resolved (ops : List TxnOp) :
    firstDuplicate [] (ops.filterMap (fun op => resolveOp op (n.visible op.key))) = none ↔
      ((n.effective ops).map TxnOp.key).Nodup := by
  rw [firstDuplicate_eq_none, resolved_keys]
  simp

theorem prepareTxn_refuses {req : TxnRequest} (refuses : n.Refuses req) :
    ∃ result, n.prepareTxn req = (n, .error result) := by
  by_cases conditions : ∃ before cond after err, req.conditions = before ++ cond :: after ∧
      (∀ c ∈ before, txnCondMatches c (n.visible c.key)) ∧ n.readKey cond.key = .error err
  · obtain ⟨before, cond, after, err, split, hold, fails⟩ := conditions
    obtain ⟨other, evaluated⟩ := evalConditions_unreadable after hold fails
    rw [prepareTxn, split, evaluated]
    exact ⟨_, rfl⟩
  obtain ⟨reads, evaluated⟩ := evalConditions_visible req.conditions conditions
  rw [prepareTxn, evaluated]
  simp only
  rw [show (if conditionsHold n.visible req.conditions = true then req.success else req.failure) =
    n.selected req from rfl]
  by_cases operations : ∃ op ∈ n.selected req, ∃ err, n.readKey op.key = .error err
  · obtain ⟨op, mem, err, fails⟩ := operations
    obtain ⟨other, resolves⟩ := resolveOps_unreadable mem fails
    rw [if_neg (ne_nil_of_mem mem), resolves]
    exact ⟨_, rfl⟩
  have resolves := resolveOps_visible (n.selected req)
    (fun op mem err fails => operations ⟨op, mem, err, fails⟩)
  have refused : 65535 < (n.effective (n.selected req)).length ∨
      ¬ ((n.effective (n.selected req)).map TxnOp.key).Nodup := by
    rcases refuses with unreadable | refused
    · exact absurd unreadable (not_or.mpr ⟨conditions, operations⟩)
    · exact refused
  have nonempty : n.effective (n.selected req) ≠ [] := by
    intro none
    rw [none] at refused
    simp at refused
  have active : (n.selected req).filterMap (fun op => resolveOp op (n.visible op.key)) ≠ [] := by
    rw [← length_pos_iff, length_resolved]
    exact length_pos_iff.mpr nonempty
  have some_ops : n.selected req ≠ [] := by
    intro none
    rw [none] at active
    exact active rfl
  rw [if_neg some_ops, resolves]
  simp only
  rw [if_neg active, length_resolved]
  split
  · exact ⟨_, rfl⟩
  · rename_i few
    split
    · exact ⟨_, rfl⟩
    · rename_i distinct
      exact absurd (firstDuplicate_resolved _ |>.mp distinct) (refused.resolve_left few)

theorem prepareTxn_accepts {req : TxnRequest} (accepts : ¬ n.Refuses req) :
    (n.effective (n.selected req) = [] ∧ ∃ succeeded, n.prepareTxn req = (n, .noop succeeded)) ∨
      ∃ e basis succeeded, e.revision = n.nextRev + 1 ∧
        n.prepareTxn req = (n.noted e (n.subOps e.revision (n.selected req)),
          .entry e basis succeeded
            (((n.subOps e.revision (n.selected req)).filter (fun o => o.op = Op.delete)).map
              TxnSubOp.key)) := by
  simp only [Refuses, Unreadable, not_or] at accepts
  obtain ⟨⟨conditions, operations⟩, few, distinct⟩ := accepts
  obtain ⟨reads, evaluated⟩ := evalConditions_visible req.conditions conditions
  have resolves := resolveOps_visible (n.selected req)
    (fun op mem err fails => operations ⟨op, mem, err, fails⟩)
  rw [prepareTxn, evaluated]
  simp only
  rw [show (if conditionsHold n.visible req.conditions = true then req.success else req.failure) =
    n.selected req from rfl, resolves]
  split
  · rename_i noOps
    exact Or.inl ⟨by rw [noOps]; rfl, _, rfl⟩
  · simp only
    split
    · rename_i noActive
      have none := length_resolved (n := n) (n.selected req)
      rw [noActive] at none
      exact Or.inl ⟨eq_nil_of_length_eq_zero none.symm, _, rfl⟩
    · rw [length_resolved, if_neg few,
        (firstDuplicate_resolved (n.selected req)).mpr (not_not.mp distinct)]
      refine Or.inr ⟨{
        id := n.nextSeq + 1, revision := n.nextRev + 1, term := n.term, op := Op.txn
        value := encodeTxnOps (n.subOps (n.nextRev + 1) (n.selected req)) }, _, _, rfl, rfl⟩

/-! ## The two meanings -/

section Meaning

variable {rev : Int} {ops : List TxnOp}

theorem effective_alone {before after : List TxnOp} {op : TxnOp} (other : TxnOp)
    (distinct : ((n.effective (before ++ op :: after)).map TxnOp.key).Nodup)
    (acts : op.Effective (n.visible op.key)) (mem : other ∈ before ∨ other ∈ after)
    (sameKey : other.key = op.key) : ¬ other.Effective (n.visible op.key) := by
  intro otherActs
  rw [← sameKey] at otherActs
  rw [effective, filter_append, filter_cons, if_pos (decide_eq_true acts),
    map_append, map_cons] at distinct
  obtain ⟨-, behind, apart⟩ := nodup_append.mp distinct
  rcases mem with early | late
  · have found : other ∈ n.effective before := mem_effective.mpr ⟨early, otherActs⟩
    exact apart other.key (mem_map.mpr ⟨other, found, rfl⟩) op.key (by simp) sameKey
  · have found : other ∈ n.effective after := mem_effective.mpr ⟨late, otherActs⟩
    exact (nodup_cons.mp behind).1 (mem_map.mpr ⟨other, found, sameKey⟩)

/-- Executing the operations leaves at a key what the one operation that does something
leaves, unless the key was absent, put and deleted. -/
theorem sequential_effective (distinct : ((n.effective ops).map TxnOp.key).Nodup)
    (ordered : ¬ n.DeletesWhatItPuts ops) {op : TxnOp} (mem : op ∈ n.effective ops) :
    sequential rev n.visible ops op.key = op.after rev (n.visible op.key) := by
  obtain ⟨inOps, acts⟩ := mem_effective.mp mem
  obtain ⟨before, after, rfl⟩ := append_of_mem inOps
  have alone := fun other => effective_alone other distinct acts
  apply sequential_of_single
  · intro other early sameKey
    exact alone other (Or.inl early) sameKey
  · intro other late sameKey otherActs
    have idle := alone other (Or.inr late) sameKey
    rcases otherActs with put | delete
    · exact idle (Or.inl put)
    · obtain ⟨isDelete, present⟩ := delete
      cases held : n.visible op.key with
      | some kv =>
        rw [held] at idle
        exact idle (Or.inr ⟨isDelete, rfl⟩)
      | none =>
        rw [held] at acts
        have isPut : op.type = .put := acts.resolve_right (fun bad => Bool.false_ne_true bad.2)
        refine ordered ⟨op, other, ?_, isPut, isDelete, sameKey.symm, held⟩
        exact (List.Sublist.cons_cons op (singleton_sublist.mpr late)).trans
          (sublist_append_right _ _)

theorem sequential_untouched {k : Bytes} (untouched : ∀ op ∈ n.effective ops, op.key ≠ k) :
    sequential rev n.visible ops k = n.visible k := by
  apply sequential_of_idle
  intro op mem here acts
  rw [← here] at acts
  exact untouched op (mem_effective.mpr ⟨mem, acts⟩) here

theorem sequential_deleted (rev : Int) (distinct : ((n.effective ops).map TxnOp.key).Nodup)
    {put del : TxnOp}
    (order : [put, del].Sublist ops) (isPut : put.type = .put) (isDelete : del.type = .delete)
    (sameKey : put.key = del.key) :
    put ∈ n.effective ops ∧ sequential rev n.visible ops put.key = none := by
  have acts : put.Effective (n.visible put.key) := Or.inl isPut
  obtain ⟨before, rest, rfl, inBefore, inRest⟩ := cons_sublist_iff.mp order
  obtain ⟨first, second, rfl⟩ := append_of_mem inBefore
  rw [append_assoc, cons_append] at distinct ⊢
  have alone := fun other => effective_alone other distinct acts
  have mem := singleton_sublist.mp inRest
  refine ⟨mem_effective.mpr ⟨by simp, acts⟩, ?_⟩
  rw [sequential_append, sequential_cons]
  apply sequential_of_delete _ (mem_append_right second mem) isDelete sameKey.symm
  intro op later here again
  exact alone op (Or.inr later) here (Or.inl again)

end Meaning

end Node

/-- What `prepareTxn` should do: leave the node as it was, or produce one entry at the
next revision that leaves what executing the selected operations one after another leaves,
both to reads of the node and in a store that holds what the node reads, and name the keys
that were present before and are absent after. -/
def Node.TxnSequential (n : Node) (req : TxnRequest) : Prop :=
  match n.prepareTxn req with
  | (next, .error _) => next = n
  | (next, .noop _) => next = n
  | (next, .entry e _ _ deletedKeys) =>
    let after := sequential (n.nextRev + 1) n.visible (n.selected req)
    e.revision = n.nextRev + 1 ∧ next.nextRev = n.nextRev + 1 ∧ next.nextSeq = n.nextSeq + 1 ∧
      (∀ k, next.readKey k = (n.readKey k).map (fun _ => after k)) ∧
      (∀ (h : List Entry) (db : Store), n.Reads h → db.Represents h →
        ∃ db' : Store, db.apply [e] = (db', none) ∧ ∀ k, db'.get k = .ok (after k)) ∧
      ∀ k, k ∈ deletedKeys ↔ (n.visible k).isSome ∧ after k = none

theorem Assigned.readKey {n next : Node} {h : List Entry} {e : Entry} {ops : List TxnSubOp}
    {basis : Basis} {key : Bytes} (assigned : Assigned n h e ops basis key next)
    (reads : n.Reads h) (k : Bytes) : next.readKey k = .ok (headValue (h ++ [e]) k) := by
  have sameStore : next.db = n.db := by
    rw [assigned.next]
    rfl
  by_cases touches : k ∈ entryKeys e
  · rw [assigned.keys] at touches
    obtain ⟨o, mem, rfl⟩ := mem_map.mp touches
    obtain ⟨noted, value, -⟩ := assigned.headValue_of_mem reads mem
    rw [readKey_eq, noted, value]
  · obtain ⟨noted, value⟩ := assigned.headValue_of_not_mem touches
    rw [readKey_eq, noted, value, sameStore, ← reads.readKey k, readKey_eq]

namespace Node

variable {n : Node} {req : TxnRequest}

theorem readKey_sequential {e : Entry} {ops : List TxnOp} (readable : ¬ n.Unreadable req)
    (isSelected : n.selected req = ops) (distinct : ((n.effective ops).map TxnOp.key).Nodup)
    (ordered : ¬ n.DeletesWhatItPuts ops) (k : Bytes) :
    (n.noted e (n.subOps e.revision ops)).readKey k =
      (n.readKey k).map (fun _ => sequential e.revision n.visible ops k) := by
  obtain ⟨written, unwritten⟩ := readKey_noted (n := n) (e := e) distinct
  by_cases touched : ∃ op ∈ n.effective ops, op.key = k
  · obtain ⟨op, mem, rfl⟩ := touched
    have read : n.readKey op.key = .ok (n.visible op.key) := by
      refine readKey_visible (fun err fails => readable (Or.inr ?_))
      rw [isSelected]
      exact ⟨op, (mem_effective.mp mem).1, err, fails⟩
    rw [written op mem, read, sequential_effective distinct ordered mem]
    rfl
  · have untouched : ∀ op ∈ n.effective ops, op.key ≠ k := fun op mem same =>
        touched ⟨op, mem, same⟩
    rw [unwritten k untouched, sequential_untouched untouched]
    cases read : n.readKey k with
    | error err => rfl
    | ok existing =>
      rw [visible_eq read]
      rfl

theorem deletedKeys_sequential {rev : Int} {ops : List TxnOp}
    (distinct : ((n.effective ops).map TxnOp.key).Nodup) (ordered : ¬ n.DeletesWhatItPuts ops)
    (k : Bytes) :
    k ∈ ((n.subOps rev ops).filter (fun o => o.op = Op.delete)).map TxnSubOp.key ↔
      (n.visible k).isSome ∧ sequential rev n.visible ops k = none := by
  simp only [mem_map, mem_filter, decide_eq_true_iff]
  constructor
  · intro deleted
    obtain ⟨o, ⟨mem, isDelete⟩, rfl⟩ := deleted
    obtain ⟨op, inOps, r, resolved, rfl⟩ := mem_subOps.mp mem
    obtain ⟨acts, sameKey, deletes, -⟩ := resolveOp_spec resolved rev
    have type := deletes.mp isDelete
    have key : (r.subOp rev).key = op.key := sameKey
    rw [key, sequential_effective distinct ordered (mem_effective.mpr ⟨inOps, acts⟩), TxnOp.after,
      type]
    rcases acts with put | delete
    · rw [type] at put
      cases put
    · exact ⟨delete.2, rfl⟩
  · intro gone
    obtain ⟨present, absent⟩ := gone
    by_cases touched : ∃ op ∈ n.effective ops, op.key = k
    · obtain ⟨op, mem, rfl⟩ := touched
      obtain ⟨inOps, acts⟩ := mem_effective.mp mem
      obtain ⟨r, resolved⟩ := resolveOp_of_effective acts
      obtain ⟨-, sameKey, deletes, -⟩ := resolveOp_spec resolved rev
      rw [sequential_effective distinct ordered mem, TxnOp.after] at absent
      have type : op.type = .delete := by
        rcases acts with put | delete
        · rw [put] at absent
          cases absent
        · exact delete.1
      exact ⟨r.subOp rev, ⟨mem_subOps.mpr ⟨op, inOps, r, resolved, rfl⟩, deletes.mpr type⟩, sameKey⟩
    · rw [sequential_untouched (fun op mem same => touched ⟨op, mem, same⟩)] at absent
      rw [absent] at present
      cases present

theorem apply_prepared {h : List Entry} {db : Store} {e : Entry} {basis : Basis} {succeeded : Bool}
    {deletedKeys : List Bytes} {next : Node} (typed : (Call.txn req).WellTyped) (room : n.HasRoom)
    (prepared : n.prepareTxn req = (next, .entry e basis succeeded deletedKeys))
    (reads : n.Reads h) (stored : db.Represents h) :
    ∃ db', db.apply [e] = (db', none) ∧ ∀ k, db'.get k = next.readKey k := by
  rcases prepareTxn_ended (n := n) typed with failed | noop | queued
  · obtain ⟨result, eq⟩ := failed
    rw [eq] at prepared
    cases prepared
  · obtain ⟨succeeded, eq⟩ := noop
    rw [eq] at prepared
    cases prepared
  · obtain ⟨node, entry, ops, basis, succeeded, deletedKeys, eq, queues⟩ := queued
    rw [eq] at prepared
    cases prepared
    have assigned := queues.assigned reads room
    have wf := (Chained.snoc reads.chained (assigned.prepared 0).follows).wellFormed
    obtain ⟨db', applies, represents⟩ := stored.apply wf
    refine ⟨db', applies, ?_⟩
    intro k
    rw [represents.get wf, assigned.readKey reads]

theorem not_txnSequential (accepts : ¬ n.Refuses req)
    (deletes : n.DeletesWhatItPuts (n.selected req)) : ¬ n.TxnSequential req := by
  obtain ⟨put, del, order, isPut, isDelete, sameKey, absent⟩ := deletes
  have distinct : ((n.effective (n.selected req)).map TxnOp.key).Nodup := by
    by_contra repeated
    exact accepts (Or.inr (Or.inr repeated))
  obtain ⟨mem, gone⟩ := sequential_deleted (n.nextRev + 1) distinct order isPut isDelete sameKey
  unfold TxnSequential
  rcases prepareTxn_accepts accepts with noop | queued
  · exact absurd noop.1 (ne_nil_of_mem mem)
  · obtain ⟨e, basis, succeeded, revision, prepared⟩ := queued
    rw [prepared]
    intro parts
    have read := parts.2.2.2.1 put.key
    rw [← revision] at gone
    rw [(readKey_noted distinct).1 put mem, absent, ← revision, gone, TxnOp.after, isPut] at read
    cases found : n.readKey put.key with
    | error err | ok existing =>
      rw [found] at read
      cases read

end Node

/-- **Transactions mean sequential application** exactly when the selected branch does
not put an absent key and delete it later, or the transaction is refused anyway. -/
theorem txnSequential_iff (n : Node) (req : TxnRequest) (typed : (Call.txn req).WellTyped)
    (room : n.HasRoom) :
    n.TxnSequential req ↔ n.Refuses req ∨ ¬ n.DeletesWhatItPuts (n.selected req) := by
  constructor
  · intro sequential
    by_contra neither
    rw [not_or, not_not] at neither
    exact Node.not_txnSequential neither.1 neither.2 sequential
  · intro condition
    by_cases refuses : n.Refuses req
    · obtain ⟨result, prepared⟩ := Node.prepareTxn_refuses refuses
      unfold Node.TxnSequential
      rw [prepared]
    · have ordered := condition.resolve_left refuses
      have readable : ¬ n.Unreadable req := fun unreadable => refuses (Or.inl unreadable)
      have distinct : ((n.effective (n.selected req)).map TxnOp.key).Nodup := by
        by_contra repeated
        exact refuses (Or.inr (Or.inr repeated))
      rcases Node.prepareTxn_accepts refuses with noop | queued
      · obtain ⟨-, succeeded, prepared⟩ := noop
        unfold Node.TxnSequential
        rw [prepared]
      · obtain ⟨e, basis, succeeded, revision, prepared⟩ := queued
        have read := Node.readKey_sequential (e := e) readable rfl distinct ordered
        unfold Node.TxnSequential
        rw [prepared]
        simp only
        rw [← revision]
        refine ⟨rfl, rfl, rfl, read, ?_, Node.deletedKeys_sequential distinct ordered⟩
        intro h db reads stored
        obtain ⟨db', applies, get⟩ := Node.apply_prepared typed room prepared reads stored
        refine ⟨db', applies, ?_⟩
        intro k
        rw [get, read, reads.readKey]
        rfl

def deleteThenPut : TxnRequest where
  success := [{ type := .delete, key := [0x6b] }, { type := .put, key := [0x6b], value := [0x61] },
    { type := .put, key := [0x6c], value := [0x62] }]

def putThenDelete : TxnRequest where
  success := [{ type := .put, key := [0x6b], value := [0x61] }, { type := .delete, key := [0x6b] }]

theorem readable_emptyNode (req : TxnRequest) : ¬ emptyNode.node.Unreadable req := by
  intro unreadable
  rcases unreadable with condition | operation
  · obtain ⟨before, cond, after, err, -, -, fails⟩ := condition
    cases fails
  · obtain ⟨op, -, err, fails⟩ := operation
    cases fails

theorem txnSequential_iff_deleteThenPut :
    (Call.txn deleteThenPut).WellTyped ∧ emptyNode.node.HasRoom ∧
      (emptyNode.node.TxnSequential deleteThenPut ↔
        emptyNode.node.Refuses deleteThenPut ∨
          ¬ emptyNode.node.DeletesWhatItPuts (emptyNode.node.selected deleteThenPut)) :=
  ⟨by decide, ⟨by decide, by decide⟩,
    txnSequential_iff _ _ (by decide) ⟨by decide, by decide⟩⟩

/-- The delete is dropped because the key was absent before the transaction, and the put
survives. -/
theorem put_survives_delete : ¬ emptyNode.node.TxnSequential putThenDelete := by
  apply Node.not_txnSequential
  · intro refuses
    rcases refuses with unreadable | many | repeated
    · exact readable_emptyNode _ unreadable
    · exact absurd many (by decide)
    · exact repeated (by decide)
  · exact ⟨_, _, List.Sublist.refl _, rfl, rfl, rfl, rfl⟩

end T4.WritePath
