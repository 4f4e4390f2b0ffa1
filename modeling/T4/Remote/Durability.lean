import T4.Remote.Bucket

/-!
# Durability with synchronous upload

Writes, checkpoints and garbage collection keep the bucket openable as long as every
segment is named after its first entry.

`Open` names the active segment before it replays the bucket. If the replay finds
entries that the restored checkpoint does not cover, the next batch is uploaded under a
name that is too low: it replaces a segment whose entries are nowhere else.
-/

namespace T4.Remote

open Lib Bytes SortedMap Wal Mvcc Recovery List

/-- The steps under which nothing is lost: a batch is uploaded under the sequence of its
first entry, and continues the log as the write path numbers it. -/
def Aligned (s : SyncState) : SyncAction → Prop
  | .append batch => s.firstRev = s.store.lastSeq + 1 ∧ Recorded (s.logged ++ batch) ∧
      ((s.logged ++ batch).length : Int) < maxInt64
  | _ => True

/-! ## The invariant -/

theorem SyncState.apply_eq {s : SyncState} {batch : List Entry} {next : Store}
    (applies : s.store.apply batch = (next, none)) :
    s.apply batch = { s with store := next, uploaded := none, acked := s.acked ++ batch } := by
  rw [SyncState.apply, applies]

/-- What a checkpoint under way has established. -/
def PhaseInv (s : SyncState) (dropped : List Entry) (segments : List Closed)
    (applied covered : Nat) :
    CheckpointPhase → Prop
  | .idle | .swept => True
  | .captured c seq => ∃ n : Nat, seq = n ∧ CheckpointOf s.logged c n ∧ covered ≤ n ∧ n ≤ applied
  | .indexed c seq => ∃ n : Nat, seq = n ∧ CheckpointOf s.logged c n ∧ covered ≤ n ∧ n ≤ applied ∧
      s.bucket.checkpoints.get (checkpointKey c.term c.revision) = some c
  | .written seq => seq ≤ covered
  | .listed doomed => ∃ front back, segments = front ++ back ∧
      doomed = (front.map object).map Prod.fst ∧ dropped.length + (logOf front).length ≤ covered

/-- The state of a node on its bucket: the entries whose segments are deleted, the segments,
the batches that the store went through, and how far the checkpoint goes. -/
structure SyncInvAt (s : SyncState) (dropped : List Entry) (segments : List Closed)
    (batches : List (List Entry)) (covered : Nat) : Prop where
  term : s.term = Recovery.term
  recorded : Recorded s.logged
  fits : (s.logged.length : Int) < maxInt64
  listing : s.bucket.wal.entries = segments.map object
  valid : ∀ c ∈ segments, c.Valid
  named : Named dropped.length segments
  whole : dropped ++ logOf segments = s.logged
  collected : dropped.length ≤ covered
  restorable : Restorable s.bucket s.logged covered
  behind : covered ≤ batches.flatten.length
  store : s.store = applyAll Store.empty batches
  applied : batches.flatten ++ s.uploaded.getD [] = s.logged
  phase : PhaseInv s dropped segments batches.flatten.length covered s.checkpoint
  acked : s.acked.Sublist batches.flatten

def SyncState.Inv (s : SyncState) : Prop :=
  ∃ dropped segments batches covered, SyncInvAt s dropped segments batches covered

theorem freshSync_inv : freshSync.Inv :=
  ⟨[], [], [], 0, rfl, .nil, by decide, rfl, by simp, trivial, rfl, le_rfl, Or.inl ⟨rfl, rfl⟩,
    le_rfl,
    rfl, rfl, trivial, List.Sublist.refl _⟩

namespace SyncInvAt

variable {s : SyncState} {dropped : List Entry} {segments : List Closed}
  {batches : List (List Entry)} {covered : Nat}

theorem upTo (inv : SyncInvAt s dropped segments batches covered) : covered ≤ s.logged.length := by
  have behind := inv.behind
  have length := congrArg List.length inv.applied
  rw [length_append] at length
  omega

theorem lastSeq (inv : SyncInvAt s dropped segments batches covered) :
    s.store.lastSeq = batches.flatten.length := by
  have recorded := inv.recorded
  rw [← inv.applied] at recorded
  rw [inv.store, recorded.of_append.lastSeq]

theorem append (inv : SyncInvAt s dropped segments batches covered) {batch : List Entry}
    (free : s.uploaded = none) (nonempty : batch ≠ [])
    (aligned : Aligned s (.append batch)) :
    SyncInvAt (s.append batch) dropped (segments ++ [⟨s.firstRev, batch, []⟩]) batches covered := by
  obtain ⟨name, recorded, fits⟩ := aligned
  have applied := inv.applied
  rw [free, Option.getD_none, append_nil] at applied
  have first : s.firstRev = dropped.length + (logOf segments).length + 1 := by
    have length := congrArg List.length inv.whole
    rw [length_append] at length
    rw [name, inv.lastSeq, applied]
    omega
  have log : logOf (segments ++ [⟨s.firstRev, batch, []⟩]) = logOf segments ++ batch := by
    simp [logOf]
  refine ⟨inv.term, recorded, fits, ?_, ?_, ?_, ?_, inv.collected, inv.restorable.append batch _,
    inv.behind, inv.store, ?_, ?_, inv.acked⟩
  · have above : ∀ e ∈ s.bucket.wal.entries, e.1 < segmentName s.term s.firstRev := by
      intro e mem
      rw [inv.listing] at mem
      obtain ⟨c, isSegment, rfl⟩ := mem_map.mp mem
      have := inv.named.le inv.valid c isSegment
      rw [inv.term]
      exact segmentName_lt (by omega)
    refine (entries_insert_above _ above).trans ?_
    rw [inv.listing, map_append, inv.term]
    simp [object, Closed.bytes]
  · refine forall_mem_append.mpr ⟨inv.valid, forall_mem_singleton.mpr ?_⟩
    exact ⟨nonempty, fun e isIn => recorded.framed e (mem_append_right _ isIn), torn_nil⟩
  · refine named_append.mpr ⟨inv.named, ?_, trivial⟩
    rw [first]
    simp
  · rw [log, ← append_assoc, inv.whole]
    rfl
  · simp [SyncState.append, applied]
  · have phase := inv.phase
    have logged : (s.append batch).logged = s.logged ++ batch := rfl
    have same : (s.append batch).checkpoint = s.checkpoint := rfl
    rw [same]
    cases at_ : s.checkpoint with
    | idle => trivial
    | captured c seq =>
      rw [at_] at phase
      obtain ⟨n, isSeq, isCheckpoint, lower, upper⟩ := phase
      exact ⟨n, isSeq, logged ▸ isCheckpoint.append batch, lower, upper⟩
    | indexed c seq =>
      rw [at_] at phase
      obtain ⟨n, isSeq, isCheckpoint, lower, upper, found⟩ := phase
      exact ⟨n, isSeq, logged ▸ isCheckpoint.append batch, lower, upper, found⟩
    | written seq =>
      rw [at_] at phase
      exact phase
    | listed doomed =>
      rw [at_] at phase
      obtain ⟨front, back, split, names, ends⟩ := phase
      -- The new segment is behind all that are chosen.
      exact ⟨front, back ++ [⟨s.firstRev, batch, []⟩], by rw [split, append_assoc], names,
        ends⟩
    | swept => trivial

theorem apply (inv : SyncInvAt s dropped segments batches covered) {batch : List Entry}
    (uploaded : s.uploaded = some batch) :
    SyncInvAt (s.apply batch) dropped segments (batches ++ [batch]) covered := by
  have applied := inv.applied
  rw [uploaded, Option.getD_some] at applied
  have recorded := inv.recorded
  rw [← applied] at recorded
  have rep := recorded.of_append.represents
  rw [← inv.store] at rep
  obtain ⟨next, applies, -⟩ := rep.apply recorded.wellFormed
  have flat : (batches ++ [batch]).flatten = batches.flatten ++ batch := by
    rw [flatten_append, flatten_singleton]
  have grows : batches.flatten.length ≤ (batches ++ [batch]).flatten.length := by
    rw [flat, length_append]
    omega
  rw [SyncState.apply_eq applies]
  refine ⟨inv.term, inv.recorded, inv.fits, inv.listing, inv.valid, inv.named, inv.whole,
    inv.collected, inv.restorable, inv.behind.trans grows, ?_, ?_, ?_, ?_⟩
  · rw [applyAll_snoc, ← inv.store, applies]
  · rw [flat]
    exact (append_nil _).trans applied
  · have phase := inv.phase
    simp only []
    cases at_ : s.checkpoint with
    | captured c seq =>
      rw [at_] at phase
      obtain ⟨n, isSeq, isCheckpoint, lower, upper⟩ := phase
      exact ⟨n, isSeq, isCheckpoint, lower, upper.trans grows⟩
    | indexed c seq =>
      rw [at_] at phase
      obtain ⟨n, isSeq, isCheckpoint, lower, upper, found⟩ := phase
      exact ⟨n, isSeq, isCheckpoint, lower, upper.trans grows, found⟩
    | written seq | listed doomed =>
      rw [at_] at phase
      exact phase
    | idle | swept => trivial
  · rw [flat]
    exact inv.acked.append_right batch

theorem withPhase (inv : SyncInvAt s dropped segments batches covered)
    {checkpoint : CheckpointPhase}
    (phase : PhaseInv s dropped segments batches.flatten.length covered checkpoint) :
    SyncInvAt { s with checkpoint } dropped segments batches covered := by
  refine ⟨inv.term, inv.recorded, inv.fits, inv.listing, inv.valid, inv.named, inv.whole,
    inv.collected, inv.restorable, inv.behind, inv.store, inv.applied, ?_, inv.acked⟩
  cases checkpoint <;> exact phase

theorem capture (inv : SyncInvAt s dropped segments batches covered) :
    SyncInvAt s.capture dropped segments batches covered := by
  have recorded := inv.recorded
  rw [← inv.applied] at recorded
  have front : s.logged.take batches.flatten.length = batches.flatten := by
    rw [← inv.applied, take_left']
    rfl
  refine inv.withPhase ⟨batches.flatten.length, inv.lastSeq, ⟨inv.term, ?_, ?_, ?_⟩, inv.behind,
    le_rfl⟩
  · rw [← inv.applied, length_append]
    omega
  · exact ⟨batches, front.symm, by rw [SyncState.snapshot, inv.store]⟩
  · rw [front, SyncState.snapshot, inv.store]
    exact recorded.of_append.represents.currentRev

/-- Uploading an index replaces the checkpoint of the same revision, if there is one, by
one that covers more. -/
theorem putIndex (inv : SyncInvAt s dropped segments batches covered) {c : Checkpoint} {seq : Int}
    (captured : s.checkpoint = .captured c seq) :
    ∃ covered, SyncInvAt (s.putIndex c seq) dropped segments batches covered := by
  have phase := inv.phase
  rw [captured] at phase
  obtain ⟨n, isSeq, isCheckpoint, lower, upper⟩ := phase
  have found : (s.putIndex c seq).bucket.checkpoints.get (checkpointKey c.term c.revision) =
      some c := by
    rw [SyncState.putIndex, get_insert, if_pos rfl]
  have settle : ∀ covered', dropped.length ≤ covered' → covered' ≤ n →
      Restorable (s.putIndex c seq).bucket s.logged covered' →
      SyncInvAt (s.putIndex c seq) dropped segments batches covered' := by
    intro covered' collected below restorable
    exact ⟨inv.term, inv.recorded, inv.fits, inv.listing, inv.valid, inv.named, inv.whole,
      collected, restorable, below.trans upper, inv.store, inv.applied,
      ⟨n, isSeq, isCheckpoint, below, upper, found⟩, inv.acked⟩
  rcases inv.restorable with fresh | ⟨old, named, oldFound, oldCheckpoint⟩
  · exact ⟨covered, settle covered inv.collected lower (Or.inl fresh)⟩
  · by_cases same : checkpointKey c.term c.revision = checkpointKey old.term old.revision
    · refine ⟨n, settle n (inv.collected.trans lower) le_rfl (Or.inr ⟨c, ?_, found, isCheckpoint⟩)⟩
      obtain ⟨sameTerm, sameRevision⟩ := Prod.mk.inj (toLex.injective same)
      have isManifest : c.manifest = old.manifest := by
        rw [Checkpoint.manifest, Checkpoint.manifest, sameTerm, sameRevision]
      rw [isManifest]
      exact named
    · refine ⟨covered, settle covered inv.collected lower (Or.inr ⟨old, named, ?_, oldCheckpoint⟩)⟩
      rw [SyncState.putIndex, get_insert, if_neg (Ne.symm same)]
      exact oldFound

theorem putManifest (inv : SyncInvAt s dropped segments batches covered) {c : Checkpoint}
    {seq : Int} (indexed : s.checkpoint = .indexed c seq) :
    ∃ covered, SyncInvAt (s.putManifest c seq) dropped segments batches covered := by
  have phase := inv.phase
  rw [indexed] at phase
  obtain ⟨n, isSeq, isCheckpoint, lower, upper, found⟩ := phase
  exact ⟨n, inv.term, inv.recorded, inv.fits, inv.listing, inv.valid, inv.named, inv.whole,
    inv.collected.trans lower, Or.inr ⟨c, rfl, found, isCheckpoint⟩, upper, inv.store, inv.applied,
    isSeq.le, inv.acked⟩

theorem listSegments (inv : SyncInvAt s dropped segments batches covered) {seq : Int}
    (written : s.checkpoint = .written seq) :
    SyncInvAt (s.listSegments seq) dropped segments batches covered := by
  have phase := inv.phase
  rw [written] at phase
  obtain ⟨j, doomed, ends⟩ := doomedSegments_eq inv.named seq
  refine inv.withPhase ⟨segments.take j, segments.drop j, (take_append_drop _ _).symm, ?_, ?_⟩
  · rw [inv.listing, doomed]
  · rcases Nat.eq_zero_or_pos j with rfl | pos
    · simpa [logOf] using inv.collected
    · have below : seq ≤ covered := phase
      have := ends pos
      omega

theorem deleteSegments (inv : SyncInvAt s dropped segments batches covered)
    {doomed : List SegmentName} (listed : s.checkpoint = .listed doomed) :
    ∃ dropped segments, SyncInvAt (s.deleteSegments doomed) dropped segments batches covered := by
  have phase := inv.phase
  rw [listed] at phase
  obtain ⟨front, back, split, names, ends⟩ := phase
  have named := inv.named
  have whole := inv.whole
  have listing := inv.listing
  rw [split] at named whole listing
  rw [logOf_append, ← append_assoc] at whole
  rw [map_append] at listing
  refine ⟨dropped ++ logOf front, back, inv.term, inv.recorded, inv.fits, ?_, ?_, ?_, whole, ?_,
    inv.restorable, inv.behind, inv.store, inv.applied, trivial, inv.acked⟩
  · rw [SyncState.deleteSegments, names]
    exact entries_eraseMany_front listing
  · intro c mem
    exact inv.valid c (split ▸ mem_append_right _ mem)
  · rw [length_append]
    exact (named_append.mp named).2
  · rw [length_append]
    exact ends

theorem gcCheckpoints (inv : SyncInvAt s dropped segments batches covered) (count : Nat) :
    SyncInvAt (s.gcCheckpoints count) dropped segments batches covered := by
  refine ⟨inv.term, inv.recorded, inv.fits, inv.listing, inv.valid, inv.named, inv.whole,
    inv.collected, ?_, inv.behind, inv.store, inv.applied, trivial, inv.acked⟩
  rcases inv.restorable with fresh | ⟨c, named, found, isCheckpoint⟩
  · exact Or.inl fresh
  · refine Or.inr ⟨c, named, get_eraseMany ?_ found, isCheckpoint⟩
    intro doomed
    obtain ⟨-, other⟩ := mem_filter.mp (mem_of_mem_take doomed)
    simp [named, Checkpoint.manifest] at other

theorem reopened (inv : SyncInvAt s dropped segments batches covered) {o : OpenedRemote}
    (opens : openBucket s.bucket = .ok o) : (s.reopened o).Inv := by
  obtain ⟨o', replayed, opens', isTerm, -, history, store⟩ := openBucket_eq inv.restorable
    inv.recorded inv.fits inv.listing inv.valid inv.whole inv.collected inv.upTo
  cases opens.symm.trans opens'
  refine ⟨dropped, segments, replayed, covered, isTerm, inv.recorded, inv.fits, inv.listing,
    inv.valid, inv.named, inv.whole, inv.collected, inv.restorable, ?_, store, ?_, trivial, ?_⟩
  · rw [history]
    exact inv.upTo
  · exact (append_nil _).trans history
  · rw [history, ← inv.applied]
    exact inv.acked.trans (sublist_append_left _ _)

end SyncInvAt

theorem SyncState.Inv.step {s t : SyncState} {a : SyncAction} (inv : s.Inv)
    (aligned : Aligned s a) (stepped : syncNode.step s a = some t) : t.Inv := by
  obtain ⟨dropped, segments, batches, covered, inv⟩ := inv
  cases SyncEffect.of_step stepped with
  | append free nonempty => exact ⟨_, _, _, _, inv.append free nonempty aligned⟩
  | apply uploaded => exact ⟨_, _, _, _, inv.apply uploaded⟩
  | capture idle filled => exact ⟨_, _, _, _, inv.capture⟩
  | putIndex captured =>
    obtain ⟨covered, inv⟩ := inv.putIndex captured
    exact ⟨_, _, _, _, inv⟩
  | putManifest indexed =>
    obtain ⟨covered, inv⟩ := inv.putManifest indexed
    exact ⟨_, _, _, _, inv⟩
  | listSegments written => exact ⟨_, _, _, _, inv.listSegments written⟩
  | deleteSegments listed =>
    obtain ⟨dropped, segments, inv⟩ := inv.deleteSegments listed
    exact ⟨_, _, _, _, inv⟩
  | gcCheckpoints swept => exact ⟨_, _, _, _, inv.gcCheckpoints _⟩
  | endCheckpoint => exact ⟨_, _, _, _, inv.withPhase trivial⟩
  | crash opens => exact inv.reopened opens

/-- **Durability with synchronous upload.** In every state of an aligned run, a node that
lost its disk opens on the bucket. Its store went through every uploaded entry, so that
an acknowledged write is there unless a later one replaced it. -/
theorem sync_upload_durable {start s : SyncState} {actions : List SyncAction}
    (fresh : syncNode.init start) (meets : syncNode.Meets Aligned start actions)
    (ran : syncNode.run start actions = some s) :
    ∃ o batches, openBucket s.bucket = .ok o ∧ o.store = applyAll Store.empty batches ∧
      batches.flatten = s.logged ∧ s.acked.Sublist s.logged ∧
      (∀ front e back, s.logged = front ++ e :: back → ∀ k ∈ entryKeys e, k ∉ touched back →
        o.store.get k = .ok (headValue [e] k)) := by
  rw [fresh] at meets ran
  obtain ⟨dropped, segments, batches, covered, inv⟩ :=
    System.run_invariant SyncState.Inv.step freshSync_inv meets ran
  obtain ⟨o, replayed, opens, -, -, history, store⟩ := openBucket_eq inv.restorable inv.recorded
    inv.fits inv.listing inv.valid inv.whole inv.collected inv.upTo
  refine ⟨o, replayed, opens, store, history, ?_, ?_⟩
  · rw [← inv.applied]
    exact inv.acked.trans (sublist_append_left _ _)
  · intro front e back split k writes untouched
    have recorded := inv.recorded
    rw [← history] at recorded
    have regroup : front ++ e :: back = front ++ [e] ++ back := by simp
    rw [store, recorded.represents.get recorded.wellFormed, history, split, regroup,
      headValue_append, if_neg untouched, headValue_append, if_pos]
    exact mem_touched.mpr ⟨e, mem_singleton_self e, writes⟩

/-- Two batches, a checkpoint of both, a batch between the listing and the deletion of
segments, and the collection of old checkpoints. -/
def checkpointedRun : List SyncAction :=
  [.append (sampleHistory.take 1), .apply, .append ((sampleHistory.drop 1).take 1), .apply,
   .capture, .putIndex, .putManifest, .listSegments, .append (sampleHistory.drop 2),
   .deleteSegments, .gcCheckpoints 1, .apply]

theorem sync_upload_durable_checkpointedRun :
    ∃ s o, syncNode.run freshSync checkpointedRun = some s ∧ s.acked = sampleHistory ∧
      s.bucket.wal.entries.length = 2 ∧ openBucket s.bucket = .ok o ∧
      o.store.get [1] = .ok none := by
  have recorded := sampleHistory_recorded
  have first : Recorded (sampleHistory.take 1) := recorded.of_prefix (List.take_prefix _ _)
  have second : Recorded (sampleHistory.take 2) := recorded.of_prefix (List.take_prefix _ _)
  have meets : syncNode.Meets Aligned freshSync checkpointedRun :=
    .cons ⟨rfl, first, by decide⟩ rfl (.cons trivial rfl
      (.cons ⟨rfl, second, by decide⟩ rfl (.cons trivial rfl
        (.cons trivial rfl (.cons trivial rfl (.cons trivial rfl (.cons trivial rfl
          (.cons ⟨rfl, recorded, by decide⟩ rfl (.cons trivial rfl (.cons trivial rfl
            (.cons trivial rfl trivial)))))))))))
  obtain ⟨s, ran, acked, logged, two⟩ := System.exists_of_run syncNode freshSync checkpointedRun
    (fun s => s.acked = sampleHistory ∧ s.logged = sampleHistory ∧
      s.bucket.wal.entries.length = 2) (by decide +kernel)
  obtain ⟨o, -, opens, -, -, -, holds⟩ := sync_upload_durable rfl meets ran
  refine ⟨s, o, ran, acked, two, opens, ?_⟩
  rw [logged] at holds
  rw [holds (sampleHistory.take 3) _ [] rfl [1] (by decide) (by decide)]
  decide +kernel

/-! ## A segment that is replaced -/

/-- Two batches, a crash without a checkpoint, and another batch. -/
def replacedSegment : List SyncAction :=
  [.append (sampleHistory.take 1), .apply, .append ((sampleHistory.drop 1).take 1), .apply, .crash,
   .append (sampleHistory.drop 2), .apply]

set_option maxRecDepth 2000 in
/-- The third batch is uploaded as segment 1 and replaces the first one: three batches are
acknowledged, and the node does not open any more. -/
theorem sync_upload_counterexample :
    ∃ s, syncNode.run freshSync replacedSegment = some s ∧ s.acked = sampleHistory ∧
      openBucket s.bucket = .error (.missingSequence 1 2) := by
  obtain ⟨s, ran, acked, failed⟩ := System.exists_of_run syncNode freshSync replacedSegment
    (fun s => s.acked = sampleHistory ∧
      (openBucket s.bucket).map (fun _ => ()) = .error (.missingSequence 1 2)) (by decide +kernel)
  cases opened : openBucket s.bucket <;> rw [opened] at failed <;> cases failed
  exact ⟨s, ran, acked, opened⟩

end T4.Remote
