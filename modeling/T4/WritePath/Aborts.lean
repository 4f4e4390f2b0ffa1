import T4.WritePath.Invariant

/-!
# Rejected batches

`AppendBatch` refuses a batch when the context of one of its callers has ended; the
commit loop clears the overlay and goes on. Requests that were queued behind the
batch keep the revisions and values they read through the overlay. An entry is
computed from applied state only as long as no such request is left, which is the
condition `Clean`.
-/

namespace T4.WritePath

open Lib Bytes Wal Mvcc

/-- The operation of `v` continues what `db` holds for its key. -/
def ContinuesStore (db : Store) (v : Version) : Prop :=
  match db.get v.key with
  | .ok existing => Continues v.rev existing v.change
  | .error _ => False

instance (db : Store) (v : Version) : Decidable (ContinuesStore db v) := by
  unfold ContinuesStore
  split <;> infer_instance

/-- Whether a condition holds of what `db` holds. -/
def storeMatches (db : Store) (cond : TxnCondition) : Bool :=
  match db.get cond.key with
  | .ok existing => txnCondMatches cond existing
  | .error _ => false

/-- `req` is computed from what `db` holds: every operation creates its key exactly if it
is absent and otherwise continues its stored version, and the conditions of a
transaction have the outcome that selected its branch. -/
def ComputedFrom (db : Store) (req : WriteReq) : Prop :=
  (∀ v ∈ entryVersions req.entry, ContinuesStore db v) ∧
    req.basis.conditions.all (storeMatches db) = req.basis.succeeded

instance (db : Store) (req : WriteReq) : Decidable (ComputedFrom db req) :=
  inferInstanceAs (Decidable (_ ∧ _))

theorem Prepared.computedFrom {h : List Entry} {req : WriteReq} {db : Store}
    (prepared : Prepared h req) (chained : Chained h) (stored : db.Represents h) :
    ComputedFrom db req := by
  have get := stored.get chained.wellFormed
  refine ⟨?_, ?_⟩
  · intro v inEntry
    obtain ⟨sameRev, data⟩ := rev_of_mem_entryVersions inEntry
    obtain ⟨ops, carries, typed, chain⟩ := prepared.follows.typed data chained.live
    have inOps : v.change ∈ ops := by
      rw [← (carries.versions data typed).1]
      exact List.mem_map.mpr ⟨v, inEntry, rfl⟩
    rw [ContinuesStore, get, sameRev]
    exact (chain v.change inOps).2
  · have outcome := prepared.outcome (headValue h) (fun _ _ => rfl)
    have same : storeMatches db = fun cond => txnCondMatches cond (headValue h cond.key) := by
      funext cond
      rw [storeMatches, get]
    rw [same]
    exact outcome

/-- **Entries are computed from applied state.** In every run whose steps are clean,
whenever a batch is about to be applied, each of its entries is computed from what
the store holds once the entries before it are applied, and applying succeeds. -/
theorem aborted_batches_leave_no_trace {h : List Entry} {start s : WriteState}
    {actions : List WriteAction} (starts : Starts h start)
    (clean : writePath.Meets Clean start actions) (ran : writePath.run start actions = some s)
    {batch : List WriteReq} (appended : s.phase = .appended batch) :
    (s.node.db.apply (entries batch)).2 = none ∧
      ∀ front req back, batch = front ++ req :: back →
        ComputedFrom (s.node.db.apply (entries front)).1 req := by
  have inv := Inv.of_run starts clean ran
  obtain ⟨db, applies, -⟩ := inv.applyBatch appended
  refine ⟨by rw [applies], ?_⟩
  rintro front req back rfl
  have pipeline := inv.pipeline
  simp only [WriteState.unapplied, appended, Phase.inFlight] at pipeline
  obtain ⟨before, prepared⟩ := (pipeline_append.mp pipeline).1.split
  have chained := before.chained inv.chained
  obtain ⟨db, applies, represents⟩ := inv.stored.apply chained.wellFormed
  rw [applies]
  exact prepared.computedFrom chained represents

def emptyNode : WriteState where
  node := { nextRev := 0, nextSeq := 0, pending := SortedMap.empty, db := Store.empty }

theorem starts_emptyNode : Starts [] emptyNode :=
  ⟨.nil, Store.represents_empty, rfl, rfl, rfl⟩

/-- A batch is rejected, and a batch that does not rest on it is accepted. -/
def harmlessAbort : List WriteAction :=
  [.call (.put [97] [1] 0), .take 1, .call (.put [98] [2] 0), .cancel 0, .reject, .finish,
   .call (.create [97] [3] 0), .take 2, .append]

theorem aborted_batches_leave_no_trace_harmlessAbort :
    ∃ s batch, writePath.run emptyNode harmlessAbort = some s ∧ s.phase = .appended batch ∧
      batch.length = 2 ∧ (s.node.db.apply (entries batch)).2 = none ∧
      ∀ front req back, batch = front ++ req :: back →
        ComputedFrom (s.node.db.apply (entries front)).1 req := by
  obtain ⟨s, ran, appended, two⟩ := System.exists_of_run writePath emptyNode harmlessAbort
    (fun s => s.phase = .appended s.phase.batch ∧ s.phase.batch.length = 2) (by decide +kernel)
  exact ⟨s, _, ran, appended, two,
    aborted_batches_leave_no_trace starts_emptyNode (by decide +kernel) ran appended⟩

/-- The second `Put` of a key is prepared against the first, whose batch is rejected. -/
def abortedDependency : List WriteAction :=
  [.call (.put [107] [1] 0), .take 1, .call (.put [107] [2] 0), .cancel 0, .reject, .finish,
   .take 1, .append]

theorem aborted_batch_counterexample :
    ∃ s req, Starts [] emptyNode ∧ writePath.run emptyNode abortedDependency = some s ∧
      s.phase = .appended [req] ∧ s.node.db.get [107] = .ok none ∧
      req.entry.op = Op.update ∧ req.entry.prevRevision = 1 ∧ ¬ ComputedFrom s.node.db req := by
  obtain ⟨s, ran, req, -, appended, shown⟩ :=
    System.exists_of_run writePath emptyNode abortedDependency
    (fun s => ∃ req ∈ s.phase.batch, s.phase = .appended [req] ∧ s.node.db.get [107] = .ok none ∧
      req.entry.op = Op.update ∧ req.entry.prevRevision = 1 ∧ ¬ ComputedFrom s.node.db req)
    (by decide +kernel)
  exact ⟨s, req, starts_emptyNode, ran, appended, shown⟩

end T4.WritePath
