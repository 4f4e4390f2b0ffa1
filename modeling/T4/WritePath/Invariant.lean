import T4.WritePath.Pending

/-!
# The invariant of the write path

In every state of a clean run, the store holds the history applied so far, and the
requests in flight and in the queue form a pipeline over it: each was computed from
what the store and the requests before it leave. Reads through the overlay therefore
see every entry assigned so far, and applying a batch cannot fail.
-/

namespace T4.WritePath

open Lib Bytes Wal Mvcc List

/-! ## Clean steps -/

/-- No request of `queue` read a key that `lost` writes. -/
def Independent (lost queue : List WriteReq) : Prop :=
  ∀ req ∈ queue, ∀ k ∈ req.basis.reads, k ∉ touched (entries lost)

/-- The requests that write the empty key by themselves. -/
def writesEmptyKey (req : WriteReq) : Prop :=
  req.entry.op ≠ Op.compact ∧ req.entry.op ≠ Op.txn ∧ req.entry.key = []

/-- The batch that `AppendBatch` rejected and the commit loop has not cleared yet. -/
def Phase.rejected : Phase → List WriteReq
  | .failed batch .contextCanceled => batch
  | _ => []

/-- The condition on a step: no delete of the empty key while it is present, and when a
rejected batch is finished, no request in the queue rests on it and it does not write
the empty key. -/
def Clean (s : WriteState) : WriteAction → Prop
  | .call c => s.node.SparesEmptyKey c
  | .finish =>
    Independent s.phase.rejected s.node.writeC ∧ ∀ req ∈ s.phase.rejected, ¬ writesEmptyKey req
  | _ => True

instance (lost queue : List WriteReq) : Decidable (Independent lost queue) :=
  inferInstanceAs (Decidable (∀ req ∈ queue, ∀ k ∈ req.basis.reads, k ∉ touched (entries lost)))

instance (req : WriteReq) : Decidable (writesEmptyKey req) :=
  inferInstanceAs (Decidable (_ ∧ _))

instance (s : WriteState) (a : WriteAction) : Decidable (Clean s a) := by
  cases a <;> unfold Clean <;> infer_instance

/-! ## The invariant -/

/-- The commit loop has met no error but those of its callers. -/
def Phase.Running : Phase → Prop
  | .failed _ err => err = .contextCanceled
  | .stopped => False
  | _ => True

/-- The invariant of a node that started with the history `h`. -/
structure Inv (h : List Entry) (s : WriteState) : Prop where
  running : s.phase.Running
  chained : Chained (h ++ s.applied)
  stored : s.node.db.Represents (h ++ s.applied)
  pipeline : Pipeline (h ++ s.applied) s.unapplied
  overlay : Overlay s.node.pending (h ++ s.applied) (entries s.unapplied)
  revision : revisionOf (h ++ s.applied ++ entries s.unapplied) ≤ s.node.nextRev
  nextSeq : 0 ≤ s.node.nextSeq
  calls : Calls s.requests s.waiting s.calls s.node.nextRev

theorem Overlay.empty (h : List Entry) : Overlay SortedMap.empty h [] := by
  have none : ∀ k, (SortedMap.empty : SortedMap Bytes PendingKV).get k = none := fun k => rfl
  refine ⟨?_, ?_, ?_, ?_⟩
  · intro k p held
    rw [none] at held
    cases held
  · intro k p held
    rw [none] at held
    cases held
  · intro k p held
    rw [none] at held
    cases held
  · intro k _ touches
    cases touches

theorem Starts.inv {h : List Entry} {s : WriteState} (starts : Starts h s) : Inv h s := by
  obtain ⟨chained, stored, nextRev, nextSeq, fresh⟩ := starts
  have seq := stored.lastSeq
  have rev := stored.currentRev
  have nonneg := sequenceOf_nonneg h
  rw [fresh] at stored nextRev nextSeq seq rev ⊢
  simp only at stored nextRev nextSeq seq rev
  refine ⟨trivial, ?_, ?_, .nil, Overlay.empty _, ?_, ?_, ?_⟩
  · rwa [append_nil]
  · rwa [append_nil]
  · simp only [WriteState.unapplied, Phase.inFlight, entries, map_nil, append_nil]
    omega
  · simp only
    omega
  · constructor <;> simp [WriteState.requests, Phase.batch]

section Inv

variable {h : List Entry} {s next : WriteState}

theorem Inv.reads (inv : Inv h s) : s.node.Reads (h ++ s.applied ++ entries s.unapplied) :=
  ⟨inv.pipeline.chained inv.chained, inv.overlay.readKey inv.stored inv.chained, inv.revision,
    inv.nextSeq⟩

theorem Inv.returned (inv : Inv h s) (result : Result) :
    Inv h { s with calls := s.calls + 1, results := s.results ++ [(s.calls, result)] } :=
  ⟨inv.running, inv.chained, inv.stored, inv.pipeline, inv.overlay, inv.revision, inv.nextSeq,
    inv.calls.returned⟩

theorem Inv.queued (inv : Inv h s) {node : Node} {e : Entry} {ops : List TxnSubOp} {basis : Basis}
    {key : Bytes} (result : Result)
    (assigned : Assigned s.node (h ++ s.applied ++ entries s.unapplied) e ops basis key node) :
    Inv h { s with
      node := { node with writeC := node.writeC ++ [{ id := s.calls, entry := e, basis }] }
      calls := s.calls + 1
      waiting := s.waiting ++ [{ id := s.calls, key, rev := e.revision, result }] } := by
  have overlay := inv.overlay.noted inv.reads assigned
  have nextRev : node.nextRev = e.revision := by
    rw [assigned.next]
    rfl
  have nextSeq : node.nextSeq = s.node.nextSeq + 1 := by
    rw [assigned.next]
    rfl
  have writeC : node.writeC = s.node.writeC := by
    rw [assigned.next]
    rfl
  have db : node.db = s.node.db := by
    rw [assigned.next]
    rfl
  have unapplied : s.phase.inFlight ++ (node.writeC ++ [⟨s.calls, e, basis⟩]) =
      s.unapplied ++ [⟨s.calls, e, basis⟩] := by
    rw [writeC, ← append_assoc]
    rfl
  have requests : s.phase.batch ++ (node.writeC ++ [⟨s.calls, e, basis⟩]) =
      s.requests ++ [⟨s.calls, e, basis⟩] := by
    rw [writeC, ← append_assoc]
    rfl
  refine ⟨inv.running, inv.chained, ?_, ?_, ?_, ?_, ?_, ?_⟩
  · simp only [db]
    exact inv.stored
  · simp only [WriteState.unapplied, unapplied]
    exact .snoc inv.pipeline (assigned.prepared s.calls)
  · simp only [WriteState.unapplied, unapplied]
    rw [entries_append]
    exact overlay
  · simp only [WriteState.unapplied, unapplied, nextRev]
    rw [entries_append, entries_singleton, ← append_assoc, revisionOf_snoc]
    have before := inv.revision
    split
    · rename_i isCompact
      rw [(assigned.compact isCompact).1]
      exact before
    · rename_i isData
      have grows : s.node.nextRev ≤ e.revision := by
        rw [(assigned.data isData).1]
        omega
      exact max_le (before.trans grows) le_rfl
  · simp only [nextSeq]
    have := inv.nextSeq
    omega
  · simp only [WriteState.requests, requests, nextRev]
    refine inv.calls.queued (fun data => (assigned.data data).1) ?_
    intro isCompact
    obtain ⟨revision, -, bare, noKey⟩ := assigned.compact isCompact
    exact ⟨revision, bare, noKey⟩

theorem Inv.call (inv : Inv h s) {c : Call} (clean : Clean s (.call c)) (typed : c.WellTyped)
    (room : s.node.HasRoom) : Inv h (beginCall s c) := by
  unfold beginCall
  rcases inv.reads.begin room typed clean with returned | queued
  · obtain ⟨result, eq⟩ := returned
    rw [eq]
    exact inv.returned result
  · obtain ⟨node, e, ops, basis, key, result, eq, assigned⟩ := queued
    rw [eq]
    exact inv.queued result assigned

theorem Inv.advance (inv : Inv h s) {phase : Phase} {writeC : List WriteReq} (wal : List Entry)
    (running : phase.Running) (unapplied : phase.inFlight ++ writeC = s.unapplied)
    (requests : phase.batch ++ writeC = s.requests) :
    Inv h { s with phase, wal, node := { s.node with writeC } } := by
  refine ⟨running, inv.chained, inv.stored, ?_, ?_, ?_, inv.nextSeq, ?_⟩
  · simpa only [WriteState.unapplied, unapplied] using inv.pipeline
  · simpa only [WriteState.unapplied, unapplied] using inv.overlay
  · simpa only [WriteState.unapplied, unapplied] using inv.revision
  · simpa only [WriteState.requests, requests] using inv.calls

variable {batch : List WriteReq}

theorem Inv.applyBatch (inv : Inv h s) (appended : s.phase = .appended batch) :
    ∃ db, s.node.db.apply (entries batch) = (db, none) ∧
      db.Represents (h ++ s.applied ++ entries batch) := by
  have pipeline := inv.pipeline
  simp only [WriteState.unapplied, appended, Phase.inFlight] at pipeline
  exact inv.stored.apply ((pipeline_append.mp pipeline).1.chained inv.chained).wellFormed

theorem Inv.apply (inv : Inv h s) {db : Store} (appended : s.phase = .appended batch)
    (represents : db.Represents (h ++ s.applied ++ entries batch)) :
    Inv h { s with
      phase := .applied batch
      node := { s.node with db }
      applied := s.applied ++ entries batch } := by
  obtain ⟨running, chained, stored, pipeline, overlay, revision, nextSeq, calls⟩ := inv
  simp only [WriteState.unapplied, appended, Phase.inFlight] at pipeline overlay revision
  simp only [entries_append] at overlay revision
  simp only [WriteState.requests, appended, Phase.batch] at calls
  obtain ⟨front, behind⟩ := pipeline_append.mp pipeline
  refine ⟨trivial, ?_, ?_, ?_, ?_, ?_, nextSeq, calls⟩
  · simp only [← append_assoc]
    exact front.chained chained
  · simp only [← append_assoc]
    exact represents
  · simp only [← append_assoc]
    exact behind
  · simp only [← append_assoc]
    exact overlay.apply
  · simp only [← append_assoc] at revision ⊢
    exact revision

theorem Inv.finish (inv : Inv h s) {batch : List WriteReq} (applied : s.phase = .applied batch) :
    Inv h { s with
      phase := .idle
      node := s.node.clearPendingBatch batch
      waiting := s.waiting.map (signal batch none) } := by
  obtain ⟨running, chained, stored, pipeline, overlay, revision, nextSeq, calls⟩ := inv
  simp only [WriteState.unapplied, applied, Phase.inFlight] at pipeline overlay revision
  simp only [nil_append] at pipeline overlay revision
  simp only [WriteState.requests, applied, Phase.batch] at calls
  obtain ⟨pending, eq, cleared⟩ := clearPendingBatch_eq s.node batch
  rw [eq]
  refine ⟨trivial, chained, stored, pipeline, ?_, revision, nextSeq, calls.finish none⟩
  refine overlay.erase (fun k p held => ((cleared k p).mp held).1) ?_
  intro k p before absent touches
  obtain ⟨later, behind, laterTouches⟩ := mem_touched.mp touches
  obtain ⟨queued, inQueue, rfl⟩ := mem_entries.mp behind
  have wasCleared : ¬ ∀ req ∈ batch, k ∈ Node.clearKeys req.entry → p.rev ≠ req.entry.revision := by
    intro distinct
    rw [(cleared k p).mpr ⟨before, distinct⟩] at absent
    cases absent
  push Not at wasCleared
  obtain ⟨req, inBatch, looksUp, same⟩ := wasCleared
  have reqTouches := (mem_clearKeys (calls.bare req (mem_append_left _ inBatch))).1 looksUp
  obtain ⟨v, inEntry, -⟩ := mem_map.mp reqTouches
  obtain ⟨w, inLater, -⟩ := mem_map.mp laterTouches
  have less := (pairwise_append.mp calls.ordered).2.2 req inBatch queued inQueue
    (rev_of_mem_entryVersions inEntry).2 (rev_of_mem_entryVersions inLater).2
  have upper := overlay.newest k p before queued.entry (mem_append_right _ behind) laterTouches
  omega

theorem Inv.finishRejected (inv : Inv h s) {err : CommitError}
    (failed : s.phase = .failed batch err) (independent : Independent batch s.node.writeC)
    (named : ∀ req ∈ batch, ¬ writesEmptyKey req) :
    Inv h { s with
      phase := .idle
      node := s.node.clearPendingBatch batch
      waiting := s.waiting.map (signal batch (some err)) } := by
  obtain ⟨running, chained, stored, pipeline, overlay, revision, nextSeq, calls⟩ := inv
  have all := pipeline.chained chained
  simp only [WriteState.unapplied, failed, Phase.inFlight] at pipeline overlay revision all
  simp only [entries_append] at overlay revision all
  simp only [WriteState.requests, failed, Phase.batch] at calls
  obtain ⟨front, behind⟩ := pipeline_append.mp pipeline
  obtain ⟨pending, eq, cleared⟩ := clearPendingBatch_eq s.node batch
  rw [eq]
  rw [← append_assoc] at all revision
  refine ⟨trivial, chained, stored, behind.drop (front.chained chained) independent, ?_,
    (revisionOf_drop _ _ _).trans revision, nextSeq, calls.finish (some err)⟩
  refine overlay.drop all ?_
  intro k p
  rw [cleared k p]
  -- What the clean-up looks up is what the batch touches.
  refine and_congr_right (fun _ => ?_)
  constructor
  · intro distinct e isLost touches
    obtain ⟨req, inBatch, rfl⟩ := mem_entries.mp isLost
    have data : req.entry.op ≠ Op.compact := by
      intro isCompact
      rw [entryKeys_compact isCompact] at touches
      cases touches
    refine distinct req inBatch ((mem_clearKeys (calls.bare req ?_)).2 touches ?_)
    · exact mem_append_left _ inBatch
    · intro notTxn empty
      exact named req inBatch ⟨data, notTxn, empty⟩
  · intro distinct req inBatch looksUp
    exact distinct req.entry (mem_entries.mpr ⟨req, inBatch, rfl⟩)
      ((mem_clearKeys (calls.bare req (mem_append_left _ inBatch))).1 looksUp)

theorem Inv.wake (inv : Inv h s) {w : Waiter} {err : Option CommitError} (found : w ∈ s.waiting)
    (done : w.done = some err) (results : List (Nat × Result)) :
    Inv h { s with
      node := s.node.cleanPending w.key w.rev
      waiting := s.waiting.filter (fun other => other.id ≠ w.id)
      results } := by
  obtain ⟨pending, eq, cleared⟩ := cleanPending_eq s.node w.key w.rev
  rw [eq]
  refine ⟨inv.running, inv.chained, inv.stored, inv.pipeline, ?_, inv.revision, inv.nextSeq, ?_⟩
  · refine inv.overlay.erase (fun k p held => ((cleared k p).mp held).1) ?_
    intro k p before absent touches
    obtain ⟨later, behind, laterTouches⟩ := mem_touched.mp touches
    obtain ⟨queued, unapplied, rfl⟩ := mem_entries.mp behind
    have wasCleared : ¬ (w.key ≠ [] → k = w.key → p.rev ≠ w.rev) := by
      intro distinct
      rw [(cleared k p).mpr ⟨before, distinct⟩] at absent
      cases absent
    push Not at wasCleared
    obtain ⟨keyed, -, same⟩ := wasCleared
    obtain ⟨v, inEntry, -⟩ := mem_map.mp laterTouches
    have open_ : queued ∈ s.requests := by
      unfold WriteState.unapplied at unapplied
      unfold WriteState.requests
      rcases mem_append.mp unapplied with flying | waiting
      · refine mem_append_left _ ?_
        cases phase : s.phase <;> simp_all [Phase.inFlight, Phase.batch]
      · exact mem_append_right _ waiting
    have less := inv.calls.signalled w found keyed (by simp [done]) queued open_
      (rev_of_mem_entryVersions inEntry).2
    have upper := inv.overlay.newest k p before queued.entry (mem_append_right _ behind)
      laterTouches
    omega
  · exact inv.calls.waiters
      (fun other mem => ⟨other, mem_of_mem_filter mem, rfl, rfl, rfl, rfl⟩)

theorem Inv.abandon (inv : Inv h s) (id : Nat) (results : List (Nat × Result)) :
    Inv h { s with
      waiting := s.waiting.map
        (fun other => if other.id = id then { other with abandoned := true } else other)
      results } := by
  refine ⟨inv.running, inv.chained, inv.stored, inv.pipeline, inv.overlay, inv.revision,
    inv.nextSeq, inv.calls.waiters ?_⟩
  intro w mem
  obtain ⟨old, inOld, rfl⟩ := mem_map.mp mem
  refine ⟨old, inOld, ?_⟩
  split <;> exact ⟨rfl, rfl, rfl, rfl⟩

/-- **Every clean step keeps the invariant.** -/
theorem Inv.step {a : WriteAction} (inv : Inv h s) (clean : Clean s a)
    (stepped : writePath.step s a = some next) : Inv h next := by
  cases WriteEffect.of_step stepped with
  | call typed opened roomRev roomSeq => exact inv.call clean typed ⟨roomRev, roomSeq⟩
  | cancel begun =>
    exact ⟨inv.running, inv.chained, inv.stored, inv.pipeline, inv.overlay, inv.revision,
      inv.nextSeq, inv.calls⟩
  | take isIdle positive enough =>
    refine inv.advance _ trivial ?_ ?_
    · rw [WriteState.unapplied, isIdle]
      exact take_append_drop _ _
    · rw [WriteState.requests, isIdle]
      exact take_append_drop _ _
  | append collected =>
    refine inv.advance _ trivial ?_ ?_
    · rw [WriteState.unapplied, collected]
      rfl
    · rw [WriteState.requests, collected]
      rfl
  | reject collected =>
    refine inv.advance _ rfl ?_ ?_
    · rw [WriteState.unapplied, collected]
      rfl
    · rw [WriteState.requests, collected]
      rfl
  | apply appended applies =>
    obtain ⟨db, success, represents⟩ := inv.applyBatch appended
    rw [applies] at success
    cases success
    exact inv.apply appended represents
  | applyFailed appended fails =>
    obtain ⟨db, success, -⟩ := inv.applyBatch appended
    rw [fails] at success
    cases success
  | finish applied => exact inv.finish applied
  | finishFailed failed =>
    have running := inv.running
    rw [failed] at running
    cases running
    rw [Clean, failed] at clean
    obtain ⟨independent, named⟩ := clean
    exact inv.finishRejected failed independent named
  | wake found done => exact inv.wake found done _
  | abandon found present gone => exact inv.abandon _ _

theorem Inv.of_run {start : WriteState} {actions : List WriteAction} (starts : Starts h start)
    (clean : writePath.Meets Clean start actions) (ran : writePath.run start actions = some s) :
    Inv h s :=
  System.run_invariant (fun inv clean stepped => inv.step clean stepped) starts.inv clean ran

end Inv

end T4.WritePath
