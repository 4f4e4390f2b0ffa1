import T4.Etcd.Wire
import T4.WritePath.Aborts

/-!
# The compaction watermark

`Node.Compact` and the etcd Compact RPC pass the requested target on as it is: it is not
compared with anything when the entry is assigned under `n.mu`, nor when `applyCompact`
stores it. So the watermark follows the last request, up or down, and past the current
revision.

If every target is, at the time of the call, at least the watermark and every target still
to be applied, and at most the current revision, the watermark only rises and stays at or
below the current revision. Nothing else is assumed of the run: batches may be rejected
and applied in any interleaving, and applying one may fail.
-/

namespace T4.WritePath

open Lib Bytes Wal Mvcc Etcd List

/-- The call that the etcd Compact RPC makes. -/
def compactRPC (revision : Int) : Call := .compact (fromEtcdRevision revision)

/-! ## Targets -/

def compactTarget (e : Entry) : Option Int :=
  if e.op = Op.compact then some e.prevRevision else none

/-- The compaction targets of a list of entries, in order. -/
def targets (es : List Entry) : List Int := es.filterMap compactTarget

theorem targets_append (es es' : List Entry) : targets (es ++ es') = targets es ++ targets es' :=
  filterMap_append

/-- The watermark `w` and the targets to come rise, up to `limit` at most. -/
structure Rising (w : Int) (ts : List Int) (limit : Int) : Prop where
  ordered : (w :: ts).Pairwise (· ≤ ·)
  bounded : ∀ t ∈ w :: ts, t ≤ limit

namespace Rising

variable {w limit : Int} {ts : List Int}

theorem mono (rising : Rising w ts limit) {limit' : Int} (le : limit ≤ limit') :
    Rising w ts limit' :=
  ⟨rising.ordered, fun t mem => (rising.bounded t mem).trans le⟩

theorem sublist (rising : Rising w ts limit) {ts' : List Int} (sub : ts'.Sublist ts) :
    Rising w ts' limit :=
  ⟨rising.ordered.sublist (sub.cons_cons w), fun t mem => rising.bounded t
    ((sub.cons_cons w).subset mem)⟩

theorem snoc (rising : Rising w ts limit) {t : Int} (above : ∀ x ∈ w :: ts, x ≤ t)
    (le : t ≤ limit) : Rising w (ts ++ [t]) limit := by
  constructor
  · rw [← cons_append, pairwise_append]
    refine ⟨rising.ordered, pairwise_singleton _ _, ?_⟩
    intro x mem y isLast
    rw [mem_singleton.mp isLast]
    exact above x mem
  · intro x mem
    rw [← cons_append] at mem
    rcases mem_append.mp mem with mem | mem
    · exact rising.bounded x mem
    · rw [mem_singleton.mp mem]
      exact le

theorem head {t : Int} (rising : Rising w (t :: ts) limit) : w ≤ t ∧ Rising t ts limit := by
  obtain ⟨above, ordered⟩ := pairwise_cons.mp rising.ordered
  exact ⟨above t (by simp), ordered, fun x mem => rising.bounded x (mem_cons_of_mem _ mem)⟩

end Rising

/-! ## The store -/

theorem applyOne_compactRev {db : Pebble} {b b' : Batch} {e : Entry}
    (applied : applyOne db b e = .ok b') : b'.compactRev = (compactTarget e).getD b.compactRev := by
  unfold applyOne at applied
  unfold compactTarget
  split_ifs at applied ⊢ with isCompact
  · unfold applyCompact at applied
    cases scanned : compactScan db e.prevRevision
        (db.range (logKey b.compactRev) (logKey e.prevRevision)) with
    | error err => simp [scanned] at applied
    | ok deletes =>
      simp only [scanned, Except.ok.injEq] at applied
      rw [← applied]
      rfl
  · cases written : applyEntry e with
    | error err => simp [written] at applied
    | ok ops =>
      simp only [written, Except.ok.injEq] at applied
      rw [← applied]
      rfl

theorem runBatch_rising (db : Pebble) {b : Batch} {es : List Entry} {ts : List Int} {limit : Int}
    (rising : Rising b.compactRev (targets es ++ ts) limit) :
    b.compactRev ≤ (runBatch (applyOne db) b es).1.compactRev ∧
      Rising (runBatch (applyOne db) b es).1.compactRev ts limit := by
  induction es generalizing b with
  | nil => exact ⟨Int.le_refl _, rising⟩
  | cons e rest ih =>
    have later : ts.Sublist (targets (e :: rest) ++ ts) := sublist_append_right _ _
    unfold runBatch
    cases applied : applyOne db b e with
    | error err => exact ⟨Int.le_refl _, rising.sublist later⟩
    | ok b' =>
      have moved := applyOne_compactRev applied
      simp only
      cases isTarget : compactTarget e with
      | none =>
        rw [isTarget, Option.getD_none] at moved
        rw [← moved]
        refine ih ?_
        rw [moved]
        simpa [targets, isTarget] using rising
      | some t =>
        rw [isTarget, Option.getD_some] at moved
        have atHead : Rising b.compactRev (t :: (targets rest ++ ts)) limit := by
          simpa [targets, isTarget] using rising
        obtain ⟨above, fromHead⟩ := atHead.head
        rw [← moved] at above fromHead
        obtain ⟨grows, rising'⟩ := ih fromHead
        exact ⟨above.trans grows, rising'⟩

/-- Applying a batch moves the watermark along its targets and never lowers the current
revision. -/
theorem apply_rising {s db : Store} {es : List Entry} {err : Option StoreError} {ts : List Int}
    (applied : s.apply es = (db, err))
    (rising : Rising s.compactRev (targets es ++ ts) s.currentRev) :
    s.compactRev ≤ db.compactRev ∧ Rising db.compactRev ts db.currentRev := by
  unfold Store.apply at applied
  split_ifs at applied with empty
  · cases applied
    exact ⟨Int.le_refl _, rising.sublist (sublist_append_right _ _)⟩
  · obtain ⟨grows, moved⟩ := runBatch_rising s.db (b := { compactRev := s.compactRev }) rising
    generalize runBatch (applyOne s.db) { compactRev := s.compactRev } es =
      ran at applied grows moved
    obtain ⟨b, failed⟩ := ran
    cases failed with
    | some err =>
      cases applied
      exact ⟨grows, moved⟩
    | none =>
      cases applied
      exact ⟨grows, moved.mono (le_max_left _ _)⟩

/-! ## Calls -/

/-- A call leaves the store and the queue to the commit loop, and only a compaction
queues a compaction, with the target of the call. -/
structure Node.Frame (n : Node) (c : Call) (ended : Node × Node.Begun) : Prop where
  db : ended.1.db = n.db
  writeC : ended.1.writeC = n.writeC
  target : ∀ e basis key result, ended.2 = .queued e basis key result →
    ∀ t, compactTarget e = some t → c = .compact t

namespace Node

variable {n : Node} {c : Call}

theorem Frame.returned (result : Result) : n.Frame c (n, .returned result) :=
  ⟨rfl, rfl, fun _ _ _ _ queued => nomatch queued⟩

variable {node : Node} {e : Entry}

theorem Frame.queued (basis : Basis) (key : Bytes) (result : Result) (db : node.db = n.db)
    (writeC : node.writeC = n.writeC) (data : e.op ≠ Op.compact) :
    n.Frame c (node, .queued e basis key result) := by
  refine ⟨db, writeC, ?_⟩
  intro e' basis' key' result' queued t isTarget
  cases queued
  simp [compactTarget, data] at isTarget

theorem preparePut_frame {key value : Bytes} {lease : Int}
    (prepared : n.preparePut key value lease = .ok (node, e)) :
    node.db = n.db ∧ node.writeC = n.writeC ∧ e.op ≠ Op.compact := by
  unfold preparePut at prepared
  split at prepared
  case h_1 => cases prepared
  case h_2 existing _ =>
    cases prepared
    refine ⟨rfl, rfl, ?_⟩
    cases existing with
    | none => exact (show Op.create ≠ Op.compact by decide)
    | some _ => exact (show Op.update ≠ Op.compact by decide)

theorem prepareDelete_frame {key : Bytes} (prepared : n.prepareDelete key = .ok (node, e)) :
    node.db = n.db ∧ node.writeC = n.writeC ∧ (e.key ≠ [] → e.op ≠ Op.compact) := by
  unfold prepareDelete at prepared
  split at prepared
  case h_1 => cases prepared
  case h_2 =>
    cases prepared
    exact ⟨rfl, rfl, fun nonempty => absurd rfl nonempty⟩
  case h_3 =>
    cases prepared
    exact ⟨rfl, rfl, fun _ => (show Op.delete ≠ Op.compact by decide)⟩

theorem frame_txn (n : Node) (req : TxnRequest) : n.Frame (.txn req) (n.txn req) := by
  have spec : (∃ result, n.prepareTxn req = (n, .error result)) ∨
      (∃ succeeded, n.prepareTxn req = (n, .noop succeeded)) ∨
      ∃ node e basis succeeded deletedKeys,
        n.prepareTxn req = (node, .entry e basis succeeded deletedKeys) ∧
          node.db = n.db ∧ node.writeC = n.writeC ∧ e.op ≠ Op.compact := by
    unfold prepareTxn
    split
    case h_1 => exact Or.inl ⟨_, rfl⟩
    case h_2 succeeded reads _ =>
      dsimp only
      generalize (if succeeded = true then req.success else req.failure) = ops
      split_ifs
      · exact Or.inr (Or.inl ⟨_, rfl⟩)
      · split
        case h_1 => exact Or.inl ⟨_, rfl⟩
        case h_2 =>
          split_ifs
          · exact Or.inr (Or.inl ⟨_, rfl⟩)
          · exact Or.inl ⟨_, rfl⟩
          · split
            case h_1 => exact Or.inl ⟨_, rfl⟩
            case h_2 =>
              exact Or.inr (Or.inr ⟨_, _, _, _, _, rfl, rfl, rfl,
                (show Op.txn ≠ Op.compact by decide)⟩)
  unfold txn
  rcases spec with ⟨result, prepared⟩ | ⟨succeeded, prepared⟩ |
    ⟨node, e, basis, succeeded, deletedKeys, prepared, db, writeC, data⟩
  · rw [prepared]
    exact .returned _
  · rw [prepared]
    exact .returned _
  · rw [prepared]
    exact .queued _ _ _ db writeC data

theorem frame_begin (n : Node) (c : Call) : n.Frame c (n.begin c) := by
  cases c with
  | put key value lease =>
    simp only [begin, put]
    split
    case h_1 => exact .returned _
    case h_2 node e prepared =>
      obtain ⟨db, writeC, data⟩ := preparePut_frame prepared
      exact .queued _ _ _ db writeC data
  | create key value lease =>
    simp only [begin, create]
    split
    case h_1 => exact .returned _
    case h_2 => exact .returned _
    case h_3 => exact .queued _ _ _ rfl rfl (show Op.create ≠ Op.compact by decide)
  | update key value revision lease =>
    simp only [begin, update]
    split
    case h_1 => exact .returned _
    case h_2 => exact .returned _
    case h_3 =>
      split_ifs
      · exact .returned _
      · exact .queued _ _ _ rfl rfl (show Op.update ≠ Op.compact by decide)
  | delete key =>
    simp only [begin, delete]
    split
    case h_1 => exact .returned _
    case h_2 node e prepared =>
      obtain ⟨db, writeC, data⟩ := prepareDelete_frame prepared
      split_ifs with found
      · exact ⟨db, writeC, fun _ _ _ _ queued => nomatch queued⟩
      · exact .queued _ _ _ db writeC (data found)
  | deleteIfRevision key revision =>
    simp only [begin, deleteIfRevision]
    split
    case h_1 => exact .returned _
    case h_2 => exact .returned _
    case h_3 =>
      split_ifs
      · exact .returned _
      · split
        case h_1 => exact .returned _
        case h_2 node e prepared =>
          obtain ⟨db, writeC, data⟩ := prepareDelete_frame prepared
          split_ifs with found
          · exact ⟨db, writeC, fun _ _ _ _ queued => nomatch queued⟩
          · exact .queued _ _ _ db writeC (data found)
  | txn req => exact n.frame_txn req
  | compact revision =>
    refine ⟨rfl, rfl, ?_⟩
    intro e basis key result queued t isTarget
    cases queued
    simp only [compactTarget, if_true, Option.some.injEq] at isTarget
    rw [isTarget]

end Node

/-! ## Runs -/

/-- The requests that the commit loop may still apply. -/
def Phase.toApply : Phase → List WriteReq
  | .collected batch | .appended batch => batch
  | _ => []

/-- The targets of the compactions that are not applied yet. -/
def WriteState.upcoming (s : WriteState) : List Int :=
  targets (entries (s.phase.toApply ++ s.node.writeC))

/-- The condition on a call of `Compact`: its target is not below the watermark or a target
still to be applied, and not above the current revision. -/
def TargetInOrder (s : WriteState) : WriteAction → Prop
  | .call (.compact revision) =>
    (∀ t ∈ s.node.db.compactRev :: s.upcoming, t ≤ revision) ∧ revision ≤ s.node.db.currentRev
  | _ => True

instance (s : WriteState) (a : WriteAction) : Decidable (TargetInOrder s a) := by
  unfold TargetInOrder
  split <;> infer_instance

/-- The watermark and the targets to come rise up to the current revision at most. -/
def WriteState.Disciplined (s : WriteState) : Prop :=
  Rising s.node.db.compactRev s.upcoming s.node.db.currentRev

section Steps

variable {s next : WriteState} {a : WriteAction}

theorem upcoming_append (phase : Phase) (node : Node) (req : WriteReq) :
    targets (entries (phase.toApply ++ (node.writeC ++ [req]))) =
      targets (entries (phase.toApply ++ node.writeC)) ++ (compactTarget req.entry).toList := by
  rw [← append_assoc, entries_append, targets_append]
  cases isTarget : compactTarget req.entry <;> simp [entries, targets, isTarget]

theorem WriteState.Disciplined.call {c : Call} (disciplined : s.Disciplined)
    (inOrder : TargetInOrder s (.call c)) :
    s.node.db.compactRev = (beginCall s c).node.db.compactRev ∧ (beginCall s c).Disciplined := by
  have frame := s.node.frame_begin c
  unfold beginCall
  generalize s.node.begin c = ended at frame
  obtain ⟨node, begun⟩ := ended
  have sameDb : node.db = s.node.db := frame.db
  have sameQueue : node.writeC = s.node.writeC := frame.writeC
  cases begun with
  | returned result =>
    refine ⟨by simp only [sameDb], ?_⟩
    simp only [WriteState.Disciplined, WriteState.upcoming, sameDb, sameQueue]
    exact disciplined
  | queued e basis key result =>
    refine ⟨by simp only [sameDb], ?_⟩
    simp only [WriteState.Disciplined, WriteState.upcoming, sameDb, sameQueue]
    rw [upcoming_append]
    cases isTarget : compactTarget e with
    | none =>
      simp only [Option.toList_none, append_nil]
      exact disciplined
    | some t =>
      have isCompact := frame.target e basis key result rfl t isTarget
      subst isCompact
      exact Rising.snoc disciplined inOrder.1 inOrder.2

theorem WriteState.Disciplined.step (disciplined : s.Disciplined) (inOrder : TargetInOrder s a)
    (stepped : writePath.step s a = some next) :
    s.node.db.compactRev ≤ next.node.db.compactRev ∧ next.Disciplined := by
  have unchanged : s.node.db.compactRev ≤ s.node.db.compactRev := Int.le_refl _
  cases WriteEffect.of_step stepped with
  | call typed opened roomRev roomSeq =>
    obtain ⟨same, disciplined⟩ := disciplined.call inOrder
    exact ⟨same.le, disciplined⟩
  | cancel begun | abandon found present gone => exact ⟨unchanged, disciplined⟩
  | @take count isIdle positive enough =>
    refine ⟨unchanged, ?_⟩
    simp only [WriteState.Disciplined, WriteState.upcoming, isIdle, Phase.toApply,
      nil_append, take_append_drop] at disciplined ⊢
    exact disciplined
  | append collected =>
    refine ⟨unchanged, ?_⟩
    simp only [WriteState.Disciplined, WriteState.upcoming, collected,
      Phase.toApply] at disciplined ⊢
    exact disciplined
  | reject collected =>
    refine ⟨unchanged, ?_⟩
    simp only [WriteState.Disciplined, WriteState.upcoming, collected, Phase.toApply,
      nil_append, entries_append, targets_append] at disciplined ⊢
    exact Rising.sublist disciplined (sublist_append_right _ _)
  | apply appended applies =>
    simp only [WriteState.Disciplined, WriteState.upcoming, appended, Phase.toApply,
      nil_append, entries_append, targets_append] at disciplined ⊢
    exact apply_rising applies disciplined
  | applyFailed appended fails =>
    simp only [WriteState.Disciplined, WriteState.upcoming, appended, Phase.toApply,
      nil_append, entries_append, targets_append] at disciplined ⊢
    exact apply_rising fails disciplined
  | @finish batch applied =>
    obtain ⟨pending, cleared, -⟩ := clearPendingBatch_eq s.node batch
    simp only [WriteState.Disciplined, WriteState.upcoming, cleared, applied,
      Phase.toApply] at disciplined ⊢
    exact ⟨unchanged, disciplined⟩
  | @finishFailed batch err failed =>
    obtain ⟨pending, cleared, -⟩ := clearPendingBatch_eq s.node batch
    have emptied : (if err = .contextCanceled then Phase.idle else .stopped).toApply = [] := by
      split_ifs <;> rfl
    simp only [WriteState.Disciplined, WriteState.upcoming, failed,
      Phase.toApply] at disciplined
    simp only [WriteState.Disciplined, WriteState.upcoming, cleared, emptied]
    exact ⟨unchanged, disciplined⟩
  | @wake w err found done =>
    obtain ⟨pending, cleaned, -⟩ := cleanPending_eq s.node w.key w.rev
    simp only [WriteState.Disciplined, WriteState.upcoming, cleaned] at disciplined ⊢
    exact ⟨unchanged, disciplined⟩

theorem disciplined_of_run {t : WriteState} {actions : List WriteAction}
    (disciplined : s.Disciplined) (inOrder : writePath.Meets TargetInOrder s actions)
    (ran : writePath.run s actions = some t) :
    s.node.db.compactRev ≤ t.node.db.compactRev ∧ t.Disciplined :=
  System.run_invariant (I := fun t => s.node.db.compactRev ≤ t.node.db.compactRev ∧ t.Disciplined)
    (fun held inOrder stepped =>
      have moved := held.2.step inOrder stepped
      ⟨held.1.trans moved.1, moved.2⟩)
    ⟨Int.le_refl _, disciplined⟩ inOrder ran

theorem Starts.disciplined {h : List Entry} (starts : Starts h s)
    (below : s.node.db.compactRev ≤ s.node.db.currentRev) : s.Disciplined := by
  have idle : s.phase = .idle := by rw [starts.fresh]
  have empty : s.node.writeC = [] := by rw [starts.fresh]
  have none : s.upcoming = [] := by
    simp [WriteState.upcoming, idle, empty, Phase.toApply, entries, targets]
  rw [WriteState.Disciplined, none]
  exact ⟨pairwise_singleton _ _, fun t mem => mem_singleton.mp mem ▸ below⟩

end Steps

theorem resolveReadRevision_eq_compacted {s : Store} {revision : Int} :
    s.resolveReadRevision revision = .error .compacted ↔
      revision ≠ 0 ∧ 0 < s.compactRev ∧ revision < s.compactRev := by
  unfold Store.resolveReadRevision
  split_ifs with zero low high
  · simp [zero]
  · simp [zero, low.1, low.2]
  · simp only [Except.error.injEq, reduceCtorEq, false_iff]
    exact fun refused => low refused.2
  · simp only [false_iff]
    exact fun refused => low refused.2

/-- If every compaction target is in order at its call, then between any two states of a
run the watermark does not fall, it never passes the current revision, and a revision
refused as compacted stays refused. -/
theorem compact_watermark {h : List Entry} {start s t : WriteState}
    {first second : List WriteAction} (starts : Starts h start)
    (below : start.node.db.compactRev ≤ start.node.db.currentRev)
    (inOrder : writePath.Meets TargetInOrder start first)
    (ran : writePath.run start first = some s)
    (inOrder' : writePath.Meets TargetInOrder s second)
    (ran' : writePath.run s second = some t) :
    s.node.db.compactRev ≤ t.node.db.compactRev ∧
      t.node.db.compactRev ≤ t.node.db.currentRev ∧
      ∀ revision, s.node.db.resolveReadRevision revision = .error .compacted →
        t.node.db.resolveReadRevision revision = .error .compacted := by
  obtain ⟨-, middle⟩ := disciplined_of_run (starts.disciplined below) inOrder ran
  obtain ⟨rises, last⟩ := disciplined_of_run middle inOrder' ran'
  refine ⟨rises, last.bounded _ (by simp), ?_⟩
  intro revision refused
  rw [resolveReadRevision_eq_compacted] at refused ⊢
  exact ⟨refused.1, refused.2.1.trans_le rises, refused.2.2.trans_le rises⟩

/-- Three writes, and a batch that compacts to revision 2. -/
def compactedRun : List WriteAction :=
  [.call (.put [107] [1] 0), .call (.put [107] [2] 0), .call (.put [107] [3] 0), .take 3, .append,
   .apply, .finish, .call (.compact 2), .take 1, .append, .apply, .finish]

theorem compact_watermark_compactedRun :
    ∃ s t, writePath.run emptyNode compactedRun = some s ∧
      writePath.run s [.call (compactRPC 4), .take 1, .append, .apply] = some t ∧
      s.node.db.resolveReadRevision 1 = .error .compacted ∧
      s.node.db.compactRev ≤ t.node.db.compactRev ∧
      t.node.db.compactRev ≤ t.node.db.currentRev ∧
      t.node.db.resolveReadRevision 1 = .error .compacted := by
  obtain ⟨s, ran, refused, inOrder, goesOn⟩ := System.exists_of_run writePath emptyNode compactedRun
    (fun s => s.node.db.resolveReadRevision 1 = .error .compacted ∧
      writePath.Meets TargetInOrder s [.call (compactRPC 4), .take 1, .append, .apply] ∧
      (writePath.run s [.call (compactRPC 4), .take 1, .append, .apply]).isSome) (by decide +kernel)
  obtain ⟨t, ran'⟩ := Option.isSome_iff_exists.mp goesOn
  obtain ⟨rises, bounded, stays⟩ := compact_watermark starts_emptyNode (by decide)
    (by decide +kernel) ran inOrder ran'
  exact ⟨s, t, ran, ran', refused, rises, bounded, stays 1 refused⟩

/-- A compaction to a lower target reopens revisions that were refused, and one to a target
that does not exist yet puts the watermark above the current revision. -/
theorem compact_watermark_fails :
    (∃ s t, writePath.run emptyNode compactedRun = some s ∧
      writePath.run s [.call (.compact 1), .take 1, .append, .apply] = some t ∧
      t.node.db.compactRev < s.node.db.compactRev ∧
      s.node.db.resolveReadRevision 1 = .error .compacted ∧
      t.node.db.resolveReadRevision 1 = .ok 1) ∧
    ∃ t, writePath.run emptyNode
        (compactedRun ++ [.call (compactRPC 100), .take 1, .append, .apply]) = some t ∧
      t.node.db.currentRev < t.node.db.compactRev := by
  constructor
  · obtain ⟨s, ran, refused, goesOn⟩ := System.exists_of_run writePath emptyNode compactedRun
      (fun s => s.node.db.resolveReadRevision 1 = .error .compacted ∧
        (writePath.run s [.call (.compact 1), .take 1, .append, .apply]).any (fun t =>
          t.node.db.compactRev < s.node.db.compactRev ∧
            t.node.db.resolveReadRevision 1 = .ok 1)) (by decide +kernel)
    obtain ⟨t, ran', falls, reopened⟩ := System.exists_of_run writePath s _ _ goesOn
    exact ⟨s, t, ran, ran', falls, refused, reopened⟩
  · exact System.exists_of_run _ _ _ _ (by decide +kernel)

end T4.WritePath
