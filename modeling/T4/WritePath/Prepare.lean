import T4.Store.Reads
import T4.WritePath.Begin

/-!
# Preparing a call

What the critical section of a call (`T4.WritePath.Begin`) computes, when the reads it
makes agree with a history `h`: an entry that follows `h` (`T4.Mvcc.Follows`), together
with the keys and condition outcomes it rests on (`Prepared`), and the node with the
next numbers taken and the operations noted in the overlay (`Assigned`).
-/

namespace T4.WritePath

open Lib Bytes Wal Mvcc List

/-! ## Requests and what they rest on -/

/-- `req` was computed from the values that `h` leaves. -/
structure Prepared (h : List Entry) (req : WriteReq) : Prop where
  follows : Follows h req.entry
  reads : ∀ k ∈ entryKeys req.entry, k ∈ req.basis.reads
  outcome : ∀ lookup, (∀ k ∈ req.basis.reads, lookup k = headValue h k) →
    conditionsHold lookup req.basis.conditions = req.basis.succeeded

/-- Each request was computed from the values that those before it leave. -/
inductive Pipeline (h : List Entry) : List WriteReq → Prop
  | nil : Pipeline h []
  | snoc {reqs : List WriteReq} {req : WriteReq} (front : Pipeline h reqs)
      (prepared : Prepared (h ++ entries reqs) req) : Pipeline h (reqs ++ [req])

theorem entries_append (a b : List WriteReq) : entries (a ++ b) = entries a ++ entries b :=
  map_append

theorem entries_singleton (req : WriteReq) : entries [req] = [req.entry] := rfl

variable {reqs : List WriteReq} {h : List Entry} {req : WriteReq}

theorem mem_entries {e : Entry} : e ∈ entries reqs ↔ ∃ req ∈ reqs, req.entry = e :=
  mem_map

theorem pipeline_snoc :
    Pipeline h (reqs ++ [req]) ↔ Pipeline h reqs ∧ Prepared (h ++ entries reqs) req := by
  constructor
  · intro pipeline
    generalize whole : reqs ++ [req] = all at pipeline
    cases pipeline with
    | nil => simp at whole
    | snoc front prepared =>
      obtain ⟨rfl, last⟩ := append_inj' whole rfl
      cases last
      exact ⟨front, prepared⟩
  · intro parts
    exact .snoc parts.1 parts.2

theorem pipeline_append {first second : List WriteReq} :
    Pipeline h (first ++ second) ↔ Pipeline h first ∧ Pipeline (h ++ entries first) second := by
  induction second using reverseRecOn with
  | nil => simp [Pipeline.nil]
  | append_singleton second req ih =>
    rw [← append_assoc, pipeline_snoc, pipeline_snoc, ih, entries_append, append_assoc,
      and_assoc]

theorem Pipeline.chained (pipeline : Pipeline h reqs) (chained : Chained h) :
    Chained (h ++ entries reqs) := by
  induction pipeline with
  | nil => rwa [entries, map_nil, append_nil]
  | snoc front prepared ih =>
    rw [entries_append, entries_singleton, ← append_assoc]
    exact .snoc ih prepared.follows

theorem Pipeline.split {front back : List WriteReq} (pipeline : Pipeline h (front ++ req :: back)) :
    Pipeline h front ∧ Prepared (h ++ entries front) req := by
  rw [append_cons] at pipeline
  exact pipeline_snoc.mp (pipeline_append.mp pipeline).1

/-! ## Dropping what nothing rests on -/

theorem Prepared.congr {h' : List Entry} (prepared : Prepared h req) (chained : Chained h)
    (lower : revisionOf h' ≤ revisionOf h)
    (same : ∀ k ∈ req.basis.reads, headValue h' k = headValue h k) : Prepared h' req := by
  refine ⟨⟨prepared.follows.target, ?_, ?_⟩, prepared.reads, ?_⟩
  · intro data
    have bounds := prepared.follows.revision data
    exact ⟨lt_of_le_of_lt lower bounds.1, bounds.2⟩
  · intro data
    obtain ⟨ops, carries, typed, chain⟩ := prepared.follows.typed data chained.live
    refine ⟨ops, carries, ?_⟩
    intro o mem
    have touches : o.key ∈ entryKeys req.entry := by
      rw [entryKeys_of_carries carries data typed]
      exact mem_map.mpr ⟨o, mem, rfl⟩
    rw [same o.key (prepared.reads o.key touches)]
    exact chain o mem
  · intro lookup agrees
    apply prepared.outcome
    intro k mem
    rw [agrees k mem, same k mem]

/-- Taking entries out of the middle of a history does not show at the keys they do not
touch. -/
theorem headValue_drop (h lost rest : List Entry) {k : Bytes} (untouched : k ∉ touched lost) :
    headValue (h ++ rest) k = headValue (h ++ lost ++ rest) k := by
  rw [headValue_append, headValue_append (h ++ lost), headValue_append h lost, if_neg untouched]

theorem revisionOf_drop (h lost rest : List Entry) :
    revisionOf (h ++ rest) ≤ revisionOf (h ++ lost ++ rest) := by
  simp only [revisionOf_append]
  exact max_le_max (le_max_left _ _) le_rfl

/-- A batch can be taken out of a pipeline if no request behind it read a key that the
batch writes. -/
theorem Pipeline.drop {lost : List Entry} (pipeline : Pipeline (h ++ lost) reqs)
    (chained : Chained (h ++ lost))
    (independent : ∀ req ∈ reqs, ∀ k ∈ req.basis.reads, k ∉ touched lost) : Pipeline h reqs := by
  induction pipeline with
  | nil => exact .nil
  | snoc front prepared ih =>
    have rest := ih (fun req mem => independent req (mem_append_left _ mem))
    refine .snoc rest (prepared.congr (front.chained chained) (revisionOf_drop _ _ _) ?_)
    intro k mem
    exact headValue_drop _ _ _ (independent _ (by simp) k mem)

/-! ## The critical section -/

/-- What a call that queues `e` has done: `next` is the node it leaves, `key` what
`await` is told to clean up. -/
structure Assigned (n : Node) (h : List Entry) (e : Entry) (ops : List TxnSubOp) (basis : Basis)
    (key : Bytes) (next : Node) : Prop where
  next : next = n.noted e ops
  sequence : e.sequence = n.nextSeq + 1
  data : e.op ≠ Op.compact →
    e.revision = n.nextRev + 1 ∧ Carries e ops ∧ ∀ o ∈ ops, o.WellTyped
  compact : e.op = Op.compact → e.revision = n.nextRev ∧ ops = [] ∧ e.key = [] ∧ key = []
  prepared : ∀ id, Prepared h ⟨id, e, basis⟩

/-- The reads of a node agree with a history, and its revision counter is not behind. -/
structure Node.Reads (n : Node) (h : List Entry) : Prop where
  chained : Chained h
  readKey : ∀ k, n.readKey k = .ok (headValue h k)
  revision : revisionOf h ≤ n.nextRev
  nextSeq : 0 ≤ n.nextSeq

/-- The numbers of the next call fit. -/
structure Node.HasRoom (n : Node) : Prop where
  nextRev : n.nextRev < 2 ^ 63 - 1
  nextSeq : n.nextSeq < 2 ^ 63 - 1

section Begin

variable {n : Node} {h : List Entry}

theorem Node.Reads.counted (reads : n.Reads h) (k : Bytes) :
    (headValue h k).map WritePath.counted = headValue h k := by
  cases held : headValue h k with
  | none => rfl
  | some kv => rw [Option.map_some, counted_of_pos (reads.chained.live k kv held).positive]

theorem Node.Queues.assigned {e : Entry} {ops : List TxnSubOp} {basis : Basis} {key : Bytes}
    {next : Node} (queues : n.Queues e ops basis key next) (reads : n.Reads h)
    (room : n.HasRoom) : Assigned n h e ops basis key next := by
  have lower := reads.revision
  have upper := room.nextRev
  have nonneg := revisionOf_nonneg h
  have chain : e.op ≠ Op.compact →
      ∀ o ∈ ops, Sized o ∧ Continues e.revision (headValue h o.key) o := by
    intro data o mem
    obtain ⟨sized, existing, read, continues⟩ := (queues.data data).2.2 o mem
    rw [reads.readKey] at read
    rw [← Except.ok.inj read, reads.counted] at continues
    exact ⟨sized, continues⟩
  have typed : e.op ≠ Op.compact → ∀ o ∈ ops, o.WellTyped := by
    intro data o mem
    obtain ⟨sized, continues⟩ := chain data o mem
    have revision := (queues.data data).1
    exact continues.wellTyped sized (by omega) nonneg (by omega) (reads.chained.live o.key)
  refine ⟨queues.next, Entry.sequence_of_id reads.nextSeq queues.isId, ?_, ?_,
    fun id => ⟨⟨?_, ?_, ?_⟩, ?_, ?_⟩⟩
  · intro data
    obtain ⟨revision, carries, -⟩ := queues.data data
    exact ⟨revision, carries, typed data⟩
  · intro isCompact
    obtain ⟨revision, none, noKey, noClean, -⟩ := queues.compact isCompact
    exact ⟨revision, none, noKey, noClean⟩
  · intro isCompact
    exact (queues.compact isCompact).2.2.2.2
  · intro data
    have revision := (queues.data data).1
    simp only
    omega
  · intro data
    exact ⟨ops, (queues.data data).2.1, chain data⟩
  · intro k mem
    by_cases isCompact : e.op = Op.compact
    · rw [entryKeys_compact isCompact] at mem
      cases mem
    · rw [entryKeys_of_carries (queues.data isCompact).2.1 isCompact (typed isCompact)] at mem
      obtain ⟨o, isOp, rfl⟩ := mem_map.mp mem
      exact queues.covers o isOp
  · intro lookup agrees
    apply queues.outcome
    intro k mem
    rw [reads.readKey, agrees k mem]

theorem Assigned.keys {e : Entry} {ops : List TxnSubOp} {basis : Basis} {key : Bytes}
    {next : Node} (assigned : Assigned n h e ops basis key next) :
    entryKeys e = ops.map TxnSubOp.key := by
  by_cases isCompact : e.op = Op.compact
  · rw [entryKeys_compact isCompact, (assigned.compact isCompact).2.1, map_nil]
  · obtain ⟨-, carries, typed⟩ := assigned.data isCompact
    exact entryKeys_of_carries carries isCompact typed

def Node.Ends (n : Node) (h : List Entry) (ended : Node × Begun) : Prop :=
  (∃ result, ended = (n, .returned result)) ∨
    ∃ next e ops basis key result, ended = (next, .queued e basis key result) ∧
      Assigned n h e ops basis key next

/-- **The critical section of a call.** It leaves the node as it was, or queues an
entry prepared against the history that its reads see. -/
theorem Node.Reads.begin (reads : n.Reads h) (room : n.HasRoom) {c : Call} (typed : c.WellTyped)
    (spared : n.SparesEmptyKey c) : n.Ends h (n.begin c) := by
  have ended := n.begin_ended typed
  generalize n.begin c = outcome at ended ⊢
  cases ended with
  | returned result => exact Or.inl ⟨result, rfl⟩
  | queued queues result =>
    exact Or.inr ⟨_, _, _, _, _, result, rfl, queues.assigned reads room⟩
  | dropped queues isDelete unspared result => exact absurd spared unspared

/-! ## Transactions -/

/-- The conditions are evaluated on the values read, and the outcome depends on no
others. -/
theorem Node.evalConditions_eq {lookup : Bytes → Option KeyValue}
    (agrees : ∀ k, n.readKey k = .ok (lookup k)) (conds : List TxnCondition) :
    ∃ reads, n.evalConditions conds = .ok (conditionsHold lookup conds, reads) ∧
      ∀ other, (∀ k ∈ reads, other k = lookup k) →
        conditionsHold other conds = conditionsHold lookup conds := by
  induction conds with
  | nil => exact ⟨[], rfl, fun _ _ => rfl⟩
  | cons cond rest ih =>
    obtain ⟨reads, evaluated, rests⟩ := ih
    have hold : ∀ other : Bytes → Option KeyValue, conditionsHold other (cond :: rest) =
        (txnCondMatches cond (other cond.key) && conditionsHold other rest) := fun _ => rfl
    rw [Node.evalConditions, agrees cond.key, hold lookup]
    cases matched : txnCondMatches cond (lookup cond.key) with
    | false =>
      refine ⟨[cond.key], by simp [matched], ?_⟩
      intro other same
      rw [hold other, same cond.key (by simp), matched]
      rfl
    | true =>
      refine ⟨cond.key :: reads, by simp [matched, evaluated], ?_⟩
      intro other same
      rw [hold other, same cond.key (by simp), matched,
        rests other (fun k mem => same k (mem_cons_of_mem _ mem))]

theorem Node.resolveOps_eq {lookup : Bytes → Option KeyValue}
    (agrees : ∀ k, n.readKey k = .ok (lookup k)) (ops : List TxnOp) :
    n.resolveOps ops = .ok (ops.filterMap (fun op => resolveOp op (lookup op.key))) := by
  induction ops with
  | nil => rfl
  | cons op rest ih =>
    rw [Node.resolveOps, agrees op.key, ih, filterMap_cons]
    simp only
    cases resolveOp op (lookup op.key) with
    | none => rfl
    | some r => rfl

end Begin

end T4.WritePath
