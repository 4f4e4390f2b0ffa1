import T4.Recovery.Open

/-!
# Local crash recovery

The WAL directory of a running node is a row of closed segments and the active one.
Together they hold the entries that were assigned, and the name of the active segment
says how many the closed ones hold. As long as rotation keeps that name right, any
crash leaves a directory that `openNode` reads back.

`SealAndFlush` names the next segment after the store and not after the segment it
seals. Between `AppendBatch` and `Apply` the store lags behind the WAL: the name is
then that of a segment which may exist, and is truncated.
-/

namespace T4.Recovery

open Lib Bytes SortedMap Wal Mvcc List

/-- The entries of an append that is not synced. -/
def LocalPhase.unsynced : LocalPhase → List Entry
  | .written batch => batch
  | _ => []

/-- The entries that the store has not seen. -/
def LocalPhase.unapplied : LocalPhase → List Entry
  | .idle => []
  | .written batch => batch
  | .appended batch => batch

def activeFile (firstRev : Int) (current pending : List Entry) : SegmentFile :=
  if current = [] then { synced := [], unsynced := segHeader term firstRev ++ frames pending }
  else { synced := segHeader term firstRev ++ frames current, unsynced := frames pending }

/-- The steps under which local recovery is exact: batches are numbered as the write path
numbers them while it loses no number, and `SealAndFlush` is not called between
`AppendBatch` and `Apply`. -/
def Undisturbed (s : LocalNode) : LocalAction → Prop
  | .write batch => Recorded (s.assigned ++ batch)
  | .sealAndFlush => s.phase = .idle ∨ s.entryCount = 0
  | _ => True

/-- The state of a node: its closed segments, the synced entries of the active one, and
the batches that its store went through. -/
structure InvAt (s : LocalNode) (closed : List Closed) (current : List Entry)
    (batches : List (List Entry)) : Prop where
  listing : s.dir.entries = closed.map Closed.binding ++
    [(s.activeName, activeFile s.firstRev current s.phase.unsynced)]
  valid : ∀ c ∈ closed, c.Valid
  first : s.firstRev = (logOf closed).length + 1
  below : ∀ c ∈ closed, c.firstRev ≤ (logOf closed).length
  count : s.entryCount = current.length + s.phase.unsynced.length
  log : logOf closed ++ current ++ s.phase.unsynced = s.assigned
  recorded : Recorded s.assigned
  applied : batches.flatten ++ s.phase.unapplied = s.assigned
  store : s.store = applyAll Store.empty batches
  snapshots : s.snapshots = Store.empty.db :: commitsFrom Store.empty batches
  acked : s.acked.Sublist batches.flatten
  filled : ∀ batch, s.phase = .written batch → batch ≠ []

def LocalNode.Inv (s : LocalNode) : Prop :=
  ∃ closed current batches, InvAt s closed current batches

theorem activeFile_nil (firstRev : Int) : activeFile firstRev [] [] = freshFile firstRev := by
  rw [activeFile, if_pos rfl, freshFile, frames, flatMap_nil, append_nil]

theorem activeFile_bytes (firstRev : Int) (current pending : List Entry) :
    (activeFile firstRev current pending).bytes =
      segHeader term firstRev ++ frames (current ++ pending) := by
  unfold activeFile SegmentFile.bytes
  split
  · rename_i empty
    rw [empty]
    rfl
  · rw [frames_append, append_assoc]

theorem freshNode_inv : freshNode.Inv := by
  refine ⟨[], [], [], ⟨?_, by simp, rfl, by simp, rfl, rfl, .nil, rfl, rfl, rfl,
    List.Sublist.refl _, fun _ other => LocalPhase.noConfusion other⟩⟩
  rw [show freshNode.phase.unsynced = [] from rfl, activeFile_nil]
  rfl

/-! ## What a crash leaves -/

variable {closed : List Closed} {s : LocalNode}

theorem leaves_of_file {dir : WalDir} {es : List Entry} {torn : Bytes} {firstRev : Int}
    (listing : dir.entries = closed.map Closed.binding ++ [(segmentName term firstRev,
      { synced := segHeader term firstRev ++ (frames es ++ torn) })])
    (first : firstRev = (logOf closed).length + 1) (valid : ∀ c ∈ closed, c.Valid)
    (below : ∀ c ∈ closed, c.firstRev ≤ (logOf closed).length) (framed : ∀ e ∈ es, Framed e)
    (ends : Torn torn) :
    ∃ segments, Leaves dir segments ∧ (∀ c ∈ segments, c.Valid) ∧
      (∀ c ∈ segments, c.firstRev ≤ (logOf segments).length) ∧
      logOf segments = logOf closed ++ es := by
  by_cases empty : es = []
  · refine ⟨closed, Or.inr ⟨_, first ▸ listing, ?_⟩, valid, below, by simp [empty]⟩
    have read := segmentEntries_frames framed ends term firstRev
    rw [empty] at read
    rw [SegmentFile.bytes, append_nil, empty]
    exact read
  · have log : logOf (closed ++ [⟨firstRev, es, torn⟩]) = logOf closed ++ es := by
      simp [logOf]
    have some_ := length_pos_of_ne_nil empty
    refine ⟨closed ++ [⟨firstRev, es, torn⟩], Or.inl ?_, ?_, ?_, log⟩
    · rw [map_append]
      exact listing
    · exact forall_mem_append.mpr ⟨valid, forall_mem_singleton.mpr ⟨empty, framed, ends⟩⟩
    · intro c mem
      rw [log, length_append]
      rcases mem_append.mp mem with old | new
      · have := below c old
        omega
      · cases mem_singleton.mp new
        simp only []
        omega

theorem survivingDir_entries (closed : List Closed) {name : SegmentName} {file : SegmentFile}
    (listing : s.dir.entries = closed.map Closed.binding ++ [(name, file)]) (keepBytes : Nat) :
    (s.survivingDir keepBytes).entries = closed.map Closed.binding ++
      [(name, { synced := file.synced ++ file.unsynced.take keepBytes })] := by
  have mapped : (s.survivingDir keepBytes).entries = s.dir.entries.map (fun e =>
      (e.1, { synced := e.2.synced ++ e.2.unsynced.take keepBytes })) := rfl
  rw [mapped, listing, map_append, map_map]
  congr 1
  refine map_congr_left ?_
  intro c _
  simp [Closed.binding]

theorem InvAt.survivors {current : List Entry} {batches : List (List Entry)}
    (inv : InvAt s closed current batches) (keepBytes : Nat) :
    ∃ segments j, Leaves (s.survivingDir keepBytes) segments ∧ (∀ c ∈ segments, c.Valid) ∧
      (∀ c ∈ segments, c.firstRev ≤ (logOf segments).length) ∧
      logOf segments = logOf closed ++ current ++ s.phase.unsynced.take j := by
  have framed : ∀ e ∈ logOf closed ++ current ++ s.phase.unsynced, Framed e :=
    inv.log ▸ inv.recorded.framed
  have framedPending : ∀ e ∈ s.phase.unsynced, Framed e :=
    fun e mem => framed e (mem_append_right _ mem)
  have listing := survivingDir_entries closed inv.listing keepBytes
  unfold activeFile LocalNode.activeName at listing
  split at listing
  · rename_i empty
    subst empty
    rcases Nat.lt_or_ge keepBytes segHeaderLen with short | long
    · -- Not even the header is complete.
      refine ⟨closed, 0, Or.inr ⟨_, inv.first ▸ listing, ?_⟩, inv.valid, inv.below, by simp⟩
      have header := length_segHeader term s.firstRev
      rw [segmentEntries, newSegmentReader_torn]
      simp only [SegmentFile.bytes, nil_append, append_nil, length_take,
        length_append]
      omega
    · obtain ⟨j, torn, -, cut, ends, -⟩ := take_frames framedPending (keepBytes - segHeaderLen)
      rw [nil_append, take_append, length_segHeader,
        take_of_length_le (by rw [length_segHeader]; exact long), cut] at listing
      obtain ⟨segments, leaves, valid, below, log⟩ := leaves_of_file listing inv.first inv.valid
        inv.below (fun e mem => framedPending e (mem_of_mem_take mem)) ends
      exact ⟨segments, j, leaves, valid, below, by rw [log, append_nil]⟩
  · obtain ⟨j, torn, -, cut, ends, -⟩ := take_frames framedPending keepBytes
    rw [cut, append_assoc, ← append_assoc (frames current), ← frames_append] at listing
    have framedActive : ∀ e ∈ current ++ s.phase.unsynced.take j, Framed e := by
      intro e mem
      rcases mem_append.mp mem with old | new
      · exact framed e (mem_append_left _ (mem_append_right _ old))
      · exact framedPending e (mem_of_mem_take new)
    obtain ⟨segments, leaves, valid, below, log⟩ := leaves_of_file listing inv.first inv.valid
      inv.below framedActive ends
    exact ⟨segments, j, leaves, valid, below, by rw [log, append_assoc]⟩

/-- **Opening after a crash** succeeds, with the store that went through the surviving
entries: the batches that Pebble kept, then one for each segment with later entries. -/
theorem InvAt.opens {current : List Entry} {batches : List (List Entry)}
    (inv : InvAt s closed current batches) (keepBytes : Nat) {keepBatches : Nat} {db : Pebble}
    (kept : s.snapshots[keepBatches]? = some db) :
    ∃ o segments groups, openNode (s.survivingDir keepBytes) db = .ok o ∧
      Leaves (s.survivingDir keepBytes) segments ∧ (∀ c ∈ segments, c.Valid) ∧
      (∀ c ∈ segments, c.firstRev ≤ (logOf segments).length) ∧
      logOf segments <+: s.assigned ∧ batches.flatten <+: logOf segments ∧
      o.dir.entries = segments.map Closed.binding ++
        [(segmentName term ((logOf segments).length + 1),
          freshFile ((logOf segments).length + 1))] ∧
      o.firstRev = (logOf segments).length + 1 ∧ o.nextSeq = (logOf segments).length ∧
      (batches.take keepBatches ++ groups).flatten = logOf segments ∧
      o.store = applyAll Store.empty (batches.take keepBatches ++ groups) ∧
      o.commits = commitsFrom (applyAll Store.empty (batches.take keepBatches)) groups := by
  obtain ⟨segments, j, leaves, valid, below, log⟩ := inv.survivors keepBytes
  have front : logOf segments <+: s.assigned := by
    rw [log, ← inv.log]
    exact (prefix_append_right_inj _).mpr (List.take_prefix _ _)
  have synced : batches.flatten <+: logOf segments := by
    have shorter : batches.flatten.length ≤ (logOf segments).length := by
      have both := congrArg List.length (inv.applied.trans inv.log.symm)
      simp only [length_append] at both
      have lag : s.phase.unsynced.length ≤ s.phase.unapplied.length := by
        cases s.phase <;> simp [LocalPhase.unsynced, LocalPhase.unapplied]
      rw [log]
      simp only [length_append]
      omega
    exact prefix_of_prefix_length_le ⟨_, inv.applied⟩ front shorter
  have lags : (batches.take keepBatches).flatten <+: logOf segments := by
    refine List.IsPrefix.trans ?_ synced
    obtain ⟨rest, whole⟩ := List.take_prefix keepBatches batches
    exact ⟨rest.flatten, by rw [← flatten_append, whole]⟩
  rw [inv.snapshots] at kept
  obtain ⟨-, rfl⟩ := getElem?_commitsFrom kept
  obtain ⟨o, groups, opens, listing, first, nextSeq, history, store, commits⟩ :=
    openNode_eq leaves valid below (inv.recorded.of_prefix front) lags
  exact ⟨o, segments, groups, opens, leaves, valid, below, front, synced, listing, first, nextSeq,
    history, store, commits⟩

/-! ## Steps -/

theorem writeActive_entries {front : List (SegmentName × SegmentFile)} {file : SegmentFile}
    (listing : s.dir.entries = front ++ [(s.activeName, file)])
    (change : SegmentFile → SegmentFile) :
    (s.writeActive change).entries = front ++ [(s.activeName, change file)] := by
  rw [LocalNode.writeActive, get_of_last listing]
  exact entries_insert_last _ listing

namespace InvAt

variable {s : LocalNode} {closed : List Closed} {current : List Entry}
  {batches : List (List Entry)}

variable {batch : List Entry}

theorem appendNoSync (inv : InvAt s closed current batches) (idle : s.phase = .idle)
    (nonempty : batch ≠ []) (recorded : Recorded (s.assigned ++ batch)) :
    InvAt (s.appendNoSync batch) closed current batches := by
  have listing := inv.listing
  have count := inv.count
  have log := inv.log
  have applied := inv.applied
  rw [idle] at listing count log applied
  simp only [LocalPhase.unsynced, LocalPhase.unapplied, append_nil]
    at listing count log applied
  refine ⟨?_, inv.valid, inv.first, inv.below, ?_, ?_, recorded, ?_, inv.store, inv.snapshots,
    inv.acked, ?_⟩
  · refine (writeActive_entries listing _).trans ?_
    unfold activeFile LocalNode.activeName LocalNode.appendNoSync
    split
    · simp [LocalPhase.unsynced, frames]
    · simp [LocalPhase.unsynced, frames]
  · simp [LocalNode.appendNoSync, LocalPhase.unsynced, count]
  · simp [LocalNode.appendNoSync, LocalPhase.unsynced, ← log]
  · simp [LocalNode.appendNoSync, LocalPhase.unapplied, applied]
  · intro other same
    cases same
    exact nonempty

theorem sync (inv : InvAt s closed current batches) (written : s.phase = .written batch) :
    InvAt (s.sync batch) closed (current ++ batch) batches := by
  have listing := inv.listing
  have count := inv.count
  have log := inv.log
  have applied := inv.applied
  rw [written] at listing count log applied
  simp only [LocalPhase.unsynced, LocalPhase.unapplied] at listing count log applied
  have nonempty : current ++ batch ≠ [] := by
    intro empty
    exact inv.filled batch written (append_eq_nil_iff.mp empty).2
  refine ⟨?_, inv.valid, inv.first, inv.below, ?_, ?_, inv.recorded, applied, inv.store,
    inv.snapshots, inv.acked, fun _ other => LocalPhase.noConfusion other⟩
  · refine (writeActive_entries listing _).trans ?_
    rw [activeFile_bytes]
    unfold LocalNode.activeName LocalNode.sync
    simp only [LocalPhase.unsynced]
    rw [activeFile, if_neg nonempty]
    rfl
  · simp [LocalNode.sync, LocalPhase.unsynced, count]
  · simp [LocalNode.sync, LocalPhase.unsynced, ← log]

theorem rotateTo (inv : InvAt s closed current batches) (synced : s.phase.unsynced = [])
    (filled : s.entryCount ≠ 0) {nextRev : Int} (next : nextRev = s.firstRev + s.entryCount) :
    InvAt (s.rotateTo nextRev) (closed ++ [⟨s.firstRev, current, []⟩]) [] batches := by
  have listing := inv.listing
  have count := inv.count
  have log := inv.log
  rw [synced] at listing count log
  rw [append_nil] at log
  rw [length_nil, Nat.add_zero] at count
  have nonempty : current ≠ [] := by
    rintro rfl
    exact filled count
  have logs : logOf (closed ++ [⟨s.firstRev, current, []⟩]) = logOf closed ++ current := by
    simp [logOf]
  have sealed : s.dir.entries =
      (closed ++ [{ firstRev := s.firstRev, entries := current : Closed }]).map
        Closed.binding := by
    rw [listing, activeFile, if_neg nonempty, map_append]
    simp [Closed.binding, Closed.bytes, LocalNode.activeName, frames]
  have first := inv.first
  have below : ∀ c ∈ closed ++ [⟨s.firstRev, current, []⟩], c.firstRev < nextRev := by
    intro c mem
    rcases mem_append.mp mem with old | new
    · have := inv.below c old
      omega
    · cases mem_singleton.mp new
      simp only []
      omega
  refine ⟨?_, ?_, ?_, ?_, ?_, ?_, inv.recorded, inv.applied, inv.store, inv.snapshots, inv.acked,
    inv.filled⟩
  · have opened : (openSegmentWriter s.dir term nextRev).entries =
        s.dir.entries ++ [(segmentName term nextRev, freshFile nextRev)] := by
      refine entries_insert_above _ ?_
      intro e mem
      rw [sealed] at mem
      obtain ⟨c, isClosed, rfl⟩ := mem_map.mp mem
      exact segmentName_lt (below c isClosed)
    rw [LocalNode.rotateTo]
    simp only [synced]
    rw [opened, sealed, activeFile_nil]
    rfl
  · refine forall_mem_append.mpr ⟨inv.valid, forall_mem_singleton.mpr ?_⟩
    refine ⟨nonempty, fun e isIn => inv.recorded.framed e ?_, torn_nil⟩
    rw [← log]
    exact mem_append_right _ isIn
  · rw [logs, length_append, LocalNode.rotateTo]
    simp only [next]
    omega
  · intro c mem
    have := below c mem
    rw [logs, length_append]
    omega
  · rw [LocalNode.rotateTo]
    simp only [synced]
    rfl
  · rw [logs, LocalNode.rotateTo]
    simp only [synced, append_nil]
    exact log

theorem applyBatch (inv : InvAt s closed current batches) (appended : s.phase = .appended batch) :
    InvAt (s.applyBatch batch) closed current (batches ++ [batch]) := by
  have listing := inv.listing
  have count := inv.count
  have log := inv.log
  have applied := inv.applied
  rw [appended] at listing count log applied
  simp only [LocalPhase.unsynced, LocalPhase.unapplied] at listing count log applied
  have recorded := inv.recorded
  rw [← applied] at recorded
  have rep := recorded.of_append.represents
  rw [← inv.store] at rep
  obtain ⟨next, applies, -⟩ := rep.apply recorded.wellFormed
  have step : s.applyBatch batch = { s with
      store := next
      snapshots := s.snapshots ++ [next.db]
      phase := .idle
      acked := s.acked ++ batch } := by
    rw [LocalNode.applyBatch, applies]
  have flat : (batches ++ [batch]).flatten = s.assigned := by
    rw [flatten_append, flatten_singleton, applied]
  rw [step]
  refine ⟨listing, inv.valid, inv.first, inv.below, count, log, inv.recorded, ?_, ?_, ?_, ?_,
    fun _ other => LocalPhase.noConfusion other⟩
  · exact (append_nil _).trans flat
  · rw [applyAll_snoc, ← inv.store, applies]
  · simp only []
    rw [inv.snapshots, commitsFrom_append, ← inv.store]
    simp [commitsFrom, applies]
  · rw [flatten_append, flatten_singleton]
    exact inv.acked.append_right batch

theorem reopened (inv : InvAt s closed current batches) {keepBytes keepBatches : Nat} {o : Opened}
    (opens : s.reopen keepBytes keepBatches = some (.ok o)) : (s.reopened keepBatches o).Inv := by
  obtain ⟨db, kept, opened⟩ := Option.map_eq_some_iff.mp opens
  obtain ⟨o', segments, groups, opens', -, valid, below, front, synced, listing, first, -, history,
    store, commits⟩ := inv.opens keepBytes kept
  cases opened.symm.trans opens'
  have recorded := inv.recorded.of_prefix front
  have lastSeq : o.store.lastSeq = (logOf segments).length := by
    rw [← history] at recorded
    rw [store, recorded.lastSeq, history]
  have assigned : (s.reopened keepBatches o).assigned = logOf segments := by
    obtain ⟨rest, whole⟩ := front
    have all := inv.recorded
    rw [← whole] at all
    rw [LocalNode.reopened, lastSeq, ← whole]
    exact all.filter_upTo
  refine ⟨segments, [], batches.take keepBatches ++ groups, ?_, valid, first, below, rfl, ?_, ?_,
    ?_, store, ?_, ?_, fun _ other => LocalPhase.noConfusion other⟩
  · rw [show (s.reopened keepBatches o).phase.unsynced = [] from rfl, activeFile_nil,
      LocalNode.activeName]
    simp only [LocalNode.reopened]
    rw [listing, first]
  · rw [assigned]
    exact (append_nil _).trans (append_nil _)
  · rw [assigned]
    exact recorded
  · rw [assigned]
    exact (append_nil _).trans history
  · simp only [LocalNode.reopened]
    rw [inv.snapshots, take_commitsFrom, commits, commitsFrom_append]
    rfl
  · rw [history]
    exact inv.acked.trans synced.sublist

end InvAt

theorem LocalNode.Inv.step {t : LocalNode} {a : LocalAction} (inv : s.Inv)
    (undisturbed : Undisturbed s a) (stepped : localNode.step s a = some t) : t.Inv := by
  obtain ⟨closed, current, batches, inv⟩ := inv
  have synced : (∀ batch, s.phase ≠ .written batch) → s.phase.unsynced = [] := by
    intro between
    cases phase : s.phase with
    | idle => rfl
    | written batch => exact absurd phase (between batch)
    | appended batch => rfl
  cases LocalEffect.of_step stepped with
  | write idle nonempty => exact ⟨_, _, _, inv.appendNoSync idle nonempty undisturbed⟩
  | sync written => exact ⟨_, _, _, inv.sync written⟩
  | @syncFull batch written =>
    have filled : (s.sync batch).entryCount ≠ 0 := by
      have some_ := length_pos_of_ne_nil (inv.filled batch written)
      have count := inv.count
      rw [written] at count
      simp only [LocalPhase.unsynced, LocalNode.sync] at count ⊢
      omega
    exact ⟨_, _, _, (inv.sync written).rotateTo rfl filled rfl⟩
  | ageRotate between filled => exact ⟨_, _, _, inv.rotateTo (synced between) (by omega) rfl⟩
  | sealEmpty empty => exact ⟨_, _, _, inv⟩
  | sealFilled between filled =>
    -- With nothing between the WAL and the store, both count the same entries.
    have idle : s.phase = .idle := undisturbed.resolve_right filled
    have applied := inv.applied
    have log := inv.log
    have count := inv.count
    rw [idle] at applied log count
    simp only [LocalPhase.unsynced, LocalPhase.unapplied, append_nil] at applied log count
    have lastSeq : s.store.lastSeq = s.assigned.length := by
      have recorded := inv.recorded
      rw [← applied] at recorded
      rw [inv.store, recorded.lastSeq, applied]
    have first := inv.first
    have length := congrArg List.length log
    rw [length_append] at length
    refine ⟨_, _, _, inv.rotateTo (synced between) filled ?_⟩
    rw [lastSeq]
    simp only [length_nil] at count
    omega
  | apply appended => exact ⟨_, _, _, inv.applyBatch appended⟩
  | crash opens => exact inv.reopened opens

theorem LocalNode.Inv.of_run {start : LocalNode} {actions : List LocalAction}
    (fresh : localNode.init start) (meets : localNode.Meets Undisturbed start actions)
    (ran : localNode.run start actions = some s) : s.Inv := by
  rw [fresh] at meets ran
  exact System.run_invariant LocalNode.Inv.step freshNode_inv meets ran

end T4.Recovery
