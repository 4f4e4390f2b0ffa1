import T4.Remote.CatchUp

/-!
# A leader that collects garbage

A leader appends batches to its active segment and applies them. Rotations and
checkpoints seal the segment, sealed segments are uploaded in the background, and
`maybeCheckpoint` writes a checkpoint and the manifest and then calls `GCSegments` up to
the checkpoint's sequence or the sequence of the slowest follower.

As long as some entry from there to the end of the checkpoint advances the revision,
whoever lacks a deleted entry restores the checkpoint, and catching up never meets a
hole.
-/

namespace T4.Remote

open Lib Bytes SortedMap Wal Mvcc Recovery List

/-! ## The leader -/

structure LeaderState where
  bucket : Bucket := {}
  store : Store := Store.empty
  /-- The batch that is appended and not applied. -/
  pending : Option (List Entry) := none
  /-- The name of the active segment. -/
  activeFirst : Int := 1
  active : List Entry := []
  /-- Sealed segments that are not uploaded. -/
  waiting : List Closed := []
  /-- Every entry that was appended. -/
  logged : List Entry := []
  /-- `LastSequence` of the manifest. -/
  manifestSeq : Int := 0
  /-- The sequence of a checkpoint whose garbage collection is due. -/
  gcDue : Option Int := none

inductive LeaderAction
  | append (batch : List Entry)
  | apply
  /-- A rotation by size or age. -/
  | rotate
  /-- One of the sealed segments is uploaded. -/
  | upload (i : Nat)
  /-- `maybeCheckpoint` up to the manifest, under `fenceMu`. -/
  | checkpoint
  /-- `GCSegments`, which may end after `count` deletions. -/
  | gcSegments (minFollower : Int) (count : Nat)
  deriving DecidableEq

namespace LeaderState

/-- Seal the active segment and open the one named `nextSeq`; an empty one stays. -/
def sealActive (s : LeaderState) (nextSeq : Int) : LeaderState :=
  if s.active = [] then s
  else { s with
    waiting := s.waiting ++ [⟨s.activeFirst, s.active, []⟩]
    activeFirst := nextSeq
    active := [] }

def snapshot (s : LeaderState) : Checkpoint where
  term := term
  revision := s.store.currentRev
  db := s.store.db

def writeCheckpoint (s : LeaderState) (c : Checkpoint) (seq : Int) : LeaderState :=
  { s with
    bucket := { s.bucket with
      checkpoints := s.bucket.checkpoints.insert (checkpointKey c.term c.revision) c
      manifest := some c.manifest }
    manifestSeq := seq
    gcDue := some seq }

def collect (s : LeaderState) (gcSeq : Int) (count : Nat) : LeaderState :=
  { s with
    bucket := { s.bucket with
      wal := s.bucket.wal.eraseMany
        ((doomedSegments gcSeq (s.bucket.wal.entries.map Prod.fst)).take count) }
    gcDue := none }

def upload (s : LeaderState) (i : Nat) (c : Closed) : LeaderState :=
  { s with
    bucket := { s.bucket with wal := s.bucket.wal.insert (object c).1 (object c).2 }
    waiting := s.waiting.eraseIdx i }

end LeaderState

def leaderStep (s : LeaderState) : LeaderAction → Option LeaderState
  | .append batch =>
    if s.pending = none ∧ batch ≠ [] then
      some { s with
        active := s.active ++ batch, pending := some batch, logged := s.logged ++ batch }
    else none
  | .apply =>
    s.pending.map (fun batch => { s with store := (s.store.apply batch).1, pending := none })
  | .rotate => some (s.sealActive (s.activeFirst + s.active.length))
  | .upload i => s.waiting[i]?.map (s.upload i)
  | .checkpoint =>
    if s.store.currentRev = 0 then none
    else some ((s.sealActive (s.store.lastSeq + 1)).writeCheckpoint s.snapshot s.store.lastSeq)
  | .gcSegments minFollower count =>
    s.gcDue.map (fun seq => s.collect (min seq minFollower) count)

def leaderSystem : System LeaderState LeaderAction where
  init s := s = {}
  step := leaderStep

/-- Batches continue the log as the write path numbers them, segments are uploaded in
order, no appended batch is unapplied at a checkpoint, and when segments are collected some
entry from the collected sequence to the end of the checkpoint is not a compaction. -/
def Recoverable (s : LeaderState) : LeaderAction → Prop
  | .append batch => Recorded (s.logged ++ batch) ∧ ((s.logged ++ batch).length : Int) < maxInt64
  | .upload i => i = 0
  | .checkpoint => s.pending = none
  | .gcSegments minFollower _ => ∀ seq ∈ s.gcDue, ∃ e ∈ s.logged,
      min seq minFollower ≤ e.sequence ∧ e.sequence ≤ seq ∧ e.op ≠ Op.compact
  | _ => True

instance (s : LeaderState) (minFollower : Int) (count : Nat) :
    Decidable (Recoverable s (.gcSegments minFollower count)) := by
  unfold Recoverable
  infer_instance

/-! ## The invariant -/

/-- The leader's log is what was deleted, what is uploaded, what waits and what is active,
in segments named after their first entries. -/
structure LeaderInvAt (s : LeaderState) (dropped : List Entry) (segments : List Closed)
    (batches : List (List Entry)) (covered : Nat) : Prop where
  bucket : BucketAt s.bucket s.logged dropped segments covered
  waiting : ∀ c ∈ s.waiting, c.Valid
  named : Named dropped.length (segments ++ s.waiting)
  active : s.activeFirst = dropped.length + (logOf (segments ++ s.waiting)).length + 1
  whole : dropped ++ logOf (segments ++ s.waiting) ++ s.active = s.logged
  store : s.store = applyAll Store.empty batches
  applied : batches.flatten ++ s.pending.getD [] = s.logged
  behind : covered ≤ batches.flatten.length
  manifest : s.manifestSeq = covered
  due : ∀ seq ∈ s.gcDue, seq = covered

def LeaderState.Inv (s : LeaderState) : Prop :=
  ∃ dropped segments batches covered, LeaderInvAt s dropped segments batches covered

theorem leader_inv_init : ({} : LeaderState).Inv := by
  refine ⟨[], [], [], 0, ⟨.nil, by decide, rfl, by simp, prefix_rfl, le_rfl, le_rfl,
    Or.inl ⟨rfl, rfl⟩, by simp⟩, by simp, trivial, rfl, rfl, rfl, rfl, le_rfl, rfl, by simp⟩

theorem revisionOf_take_lt {logged : List Entry} (recorded : Recorded logged) {e : Entry}
    (mem : e ∈ logged) (data : e.op ≠ Op.compact) {n m : Nat} (before : (n : Int) < e.sequence)
    (after : e.sequence ≤ m) : revisionOf (logged.take n) < revisionOf (logged.take m) := by
  obtain ⟨i, at_⟩ := mem_iff_getElem?.mp mem
  have number := recorded.consecutive.get at_
  have split : logged.take m = logged.take n ++ (logged.take m).drop n := by
    conv_lhs => rw [← take_append_drop n (logged.take m)]
    rw [take_take, min_eq_left (by omega)]
  have between : e ∈ (logged.take m).drop n := by
    refine mem_iff_getElem?.mpr ⟨i - n, ?_⟩
    rw [getElem?_drop, getElem?_take_of_lt (by omega), ← at_]
    congr 1
    omega
  have wf : WellFormed (logged.take n ++ (logged.take m).drop n) := by
    rw [← split]
    exact (recorded.of_prefix (List.take_prefix m logged)).wellFormed
  have positive := ((wf.storable e (mem_append_right _ between)).revision data).1
  have later := wf.revisionOf_lt (positive.trans_le (le_revisionOf between data))
  rw [split, revisionOf_append]
  exact lt_max_of_lt_right later

namespace LeaderInvAt

variable {s : LeaderState} {dropped : List Entry} {segments : List Closed}
  {batches : List (List Entry)} {covered : Nat}

theorem lastSeq (inv : LeaderInvAt s dropped segments batches covered) :
    s.store.lastSeq = batches.flatten.length := by
  have recorded := inv.bucket.recorded
  rw [← inv.applied] at recorded
  rw [inv.store, recorded.of_append.lastSeq]

theorem append (inv : LeaderInvAt s dropped segments batches covered) {batch : List Entry}
    (free : s.pending = none) (recorded : Recorded (s.logged ++ batch))
    (fits : ((s.logged ++ batch).length : Int) < maxInt64) :
    LeaderInvAt { s with
      active := s.active ++ batch, pending := some batch, logged := s.logged ++ batch }
      dropped segments batches covered := by
  have applied := inv.applied
  rw [free, Option.getD_none, append_nil] at applied
  have bucket : BucketAt s.bucket (s.logged ++ batch) dropped segments covered := by
    have holds := inv.bucket
    have front : (s.logged ++ batch).take covered = s.logged.take covered :=
      take_append_of_le_length holds.upTo
    refine ⟨recorded, fits, holds.listing, holds.valid, ?_, holds.collected, ?_,
      holds.restorable.append batch _, ?_⟩
    · exact holds.uploaded.trans (prefix_append _ _)
    · have := holds.upTo
      rw [length_append]
      omega
    · intro n less
      have upTo := holds.upTo
      have collected := holds.collected
      rw [front, take_append_of_le_length (by omega)]
      exact holds.advances n less
  refine ⟨bucket, inv.waiting, inv.named, inv.active, ?_, inv.store, ?_, inv.behind, inv.manifest,
    inv.due⟩
  · rw [← append_assoc, inv.whole]
  · rw [Option.getD_some, applied]

theorem apply (inv : LeaderInvAt s dropped segments batches covered) {batch : List Entry}
    (pending : s.pending = some batch) :
    LeaderInvAt { s with store := (s.store.apply batch).1, pending := none }
      dropped segments (batches ++ [batch]) covered := by
  have applied := inv.applied
  rw [pending, Option.getD_some] at applied
  have flat : (batches ++ [batch]).flatten = batches.flatten ++ batch := by
    rw [flatten_append, flatten_singleton]
  refine ⟨inv.bucket, inv.waiting, inv.named, inv.active, inv.whole, ?_, ?_, ?_, inv.manifest,
    inv.due⟩
  · rw [applyAll_snoc, ← inv.store]
  · rw [flat]
    exact (append_nil _).trans applied
  · have := inv.behind
    rw [flat, length_append]
    omega

theorem sealActive (inv : LeaderInvAt s dropped segments batches covered) {nextSeq : Int}
    (next : nextSeq = s.activeFirst + s.active.length) :
    LeaderInvAt (s.sealActive nextSeq) dropped segments batches covered := by
  unfold LeaderState.sealActive
  split
  · exact inv
  case isFalse nonempty =>
    have log : logOf (segments ++ (s.waiting ++ [⟨s.activeFirst, s.active, []⟩])) =
        logOf (segments ++ s.waiting) ++ s.active := by
      rw [← append_assoc, logOf_append]
      simp [logOf]
    refine ⟨inv.bucket, ?_, ?_, ?_, ?_, inv.store, inv.applied, inv.behind, inv.manifest, inv.due⟩
    · refine forall_mem_append.mpr ⟨inv.waiting, forall_mem_singleton.mpr ?_⟩
      refine ⟨nonempty, fun e isIn => inv.bucket.recorded.framed e ?_, torn_nil⟩
      rw [← inv.whole]
      exact mem_append_right _ isIn
    · change Named dropped.length (segments ++ (s.waiting ++ _))
      rw [← append_assoc]
      refine named_append.mpr ⟨inv.named, ?_, trivial⟩
      rw [inv.active]
      simp
    · have first := inv.active
      change nextSeq = _
      rw [log, length_append]
      omega
    · change dropped ++ logOf (segments ++ (s.waiting ++ _)) ++ [] = s.logged
      rw [log, append_nil, ← append_assoc]
      exact inv.whole

theorem upload (inv : LeaderInvAt s dropped segments batches covered) {c : Closed}
    (first : s.waiting[0]? = some c) :
    LeaderInvAt (s.upload 0 c) dropped (segments ++ [c]) batches covered := by
  obtain ⟨rest, isRest⟩ : ∃ rest, s.waiting = c :: rest := by
    cases waiting : s.waiting with
    | nil =>
      rw [waiting] at first
      cases first
    | cons head rest =>
      rw [waiting] at first
      cases first
      exact ⟨rest, rfl⟩
  have regroup : segments ++ [c] ++ rest = segments ++ s.waiting := by
    rw [isRest, append_assoc]
    rfl
  have remaining : (s.upload 0 c).waiting = rest := by
    rw [LeaderState.upload, isRest]
    rfl
  have isValid : c.Valid := inv.waiting c (by rw [isRest]; simp)
  have named := inv.named
  rw [isRest] at named
  obtain ⟨front, isNamed, -⟩ := named_append.mp named
  have bucket : BucketAt (s.upload 0 c).bucket s.logged dropped (segments ++ [c]) covered := by
    have holds := inv.bucket
    refine ⟨holds.recorded, holds.fits, ?_, ?_, ?_, holds.collected, holds.upTo, ?_,
      holds.advances⟩
    · have above : ∀ e ∈ s.bucket.wal.entries, e.1 < (object c).1 := by
        intro e mem
        rw [holds.listing] at mem
        obtain ⟨old, isSegment, rfl⟩ := mem_map.mp mem
        have := front.le holds.valid old isSegment
        exact segmentName_lt (by omega)
      refine (entries_insert_above _ above).trans ?_
      rw [holds.listing, map_append]
      rfl
    · exact forall_mem_append.mpr ⟨holds.valid, forall_mem_singleton.mpr isValid⟩
    · refine ⟨logOf rest ++ s.active, ?_⟩
      rw [← inv.whole, ← regroup, logOf_append (segments ++ [c])]
      simp only [append_assoc]
    · have restorable := holds.restorable.append [] (s.upload 0 c).bucket.wal
      rwa [append_nil] at restorable
  refine ⟨bucket, ?_, ?_, ?_, ?_, inv.store, inv.applied, inv.behind, inv.manifest, inv.due⟩
  · intro other mem
    rw [remaining] at mem
    exact inv.waiting other (by rw [isRest]; exact mem_cons_of_mem _ mem)
  · rw [remaining, regroup]
    exact inv.named
  · rw [remaining, regroup]
    exact inv.active
  · rw [remaining, regroup]
    exact inv.whole

theorem writeCheckpoint (inv : LeaderInvAt s dropped segments batches covered)
    (settled : s.pending = none) :
    LeaderInvAt (s.writeCheckpoint s.snapshot s.store.lastSeq) dropped segments batches
      s.logged.length := by
  have applied := inv.applied
  rw [settled, Option.getD_none, append_nil] at applied
  have lastSeq := inv.lastSeq
  rw [applied] at lastSeq
  have holds := inv.bucket
  have isCheckpoint : CheckpointOf s.logged s.snapshot s.logged.length := by
    refine ⟨rfl, le_rfl, ⟨batches, ?_, ?_⟩, ?_⟩
    · rw [applied, take_length]
    · rw [LeaderState.snapshot, inv.store]
    · have rep := (applied ▸ holds.recorded).represents
      rw [LeaderState.snapshot, inv.store, rep.currentRev, applied, take_length]
  have restorable : Restorable (s.writeCheckpoint s.snapshot s.store.lastSeq).bucket s.logged
      s.logged.length := by
    refine Or.inr ⟨s.snapshot, rfl, ?_, isCheckpoint⟩
    rw [LeaderState.writeCheckpoint, get_insert, if_pos rfl]
  have advances : ∀ n < dropped.length,
      revisionOf (s.logged.take n) < revisionOf (s.logged.take s.logged.length) := by
    intro n less
    refine (holds.advances n less).trans_le ?_
    by_contra backwards
    exact absurd (lt_of_revisionOf_lt (not_le.mp backwards)) (not_lt.mpr holds.upTo)
  refine ⟨⟨holds.recorded, holds.fits, holds.listing, holds.valid, holds.uploaded,
    holds.collected.trans holds.upTo, le_rfl, restorable, advances⟩, inv.waiting, inv.named,
    inv.active, inv.whole, inv.store, inv.applied, ?_, lastSeq, ?_⟩
  · rw [applied]
  · intro seq due
    cases due
    exact lastSeq

theorem doomed (inv : LeaderInvAt s dropped segments batches covered) (gcSeq : Int)
    (count : Nat) :
    ∃ k, (doomedSegments gcSeq (s.bucket.wal.entries.map Prod.fst)).take count =
        ((segments.take k).map object).map Prod.fst ∧
      (0 < k → ((dropped.length + (logOf (segments.take k)).length : Nat) : Int) ≤ gcSeq) := by
  obtain ⟨j, doomed, ends⟩ := doomedSegments_eq (named_append.mp inv.named).1 gcSeq
  refine ⟨min count j, ?_, ?_⟩
  · rw [inv.bucket.listing, doomed, ← map_take, ← map_take, take_take]
  · intro positive
    have bound := ends (by omega)
    have fewer : (logOf (segments.take (min count j))).length ≤
        (logOf (segments.take j)).length := by
      have split : segments.take j =
          segments.take (min count j) ++ (segments.take j).drop (min count j) := by
        conv_lhs => rw [← take_append_drop (min count j) (segments.take j)]
        rw [take_take, min_eq_left (min_le_right _ _)]
      rw [split, logOf_append, length_append]
      omega
    omega

theorem collect (inv : LeaderInvAt s dropped segments batches covered) {seq minFollower : Int}
    (due : seq ∈ s.gcDue) {e : Entry} (mem : e ∈ s.logged)
    (lower : min seq minFollower ≤ e.sequence) (upper : e.sequence ≤ seq)
    (data : e.op ≠ Op.compact) (count : Nat) :
    ∃ dropped segments,
      LeaderInvAt (s.collect (min seq minFollower) count) dropped segments batches covered := by
  obtain ⟨k, gone, ends⟩ := inv.doomed (min seq minFollower) count
  have isCovered := inv.due seq due
  have holds := inv.bucket
  have split : segments = segments.take k ++ segments.drop k := (take_append_drop k _).symm
  have regroup : segments ++ s.waiting =
      segments.take k ++ (segments.drop k ++ s.waiting) := by
    rw [← append_assoc, ← split]
  have listing := holds.listing
  have named := inv.named
  have whole := inv.whole
  have active := inv.active
  have uploaded := holds.uploaded
  rw [split, map_append] at listing
  rw [split, logOf_append, ← append_assoc] at uploaded
  rw [regroup] at named
  rw [regroup, logOf_append, ← append_assoc dropped] at whole
  rw [regroup, logOf_append, length_append] at active
  -- Either nothing is deleted or the deleted entries end at the collected sequence.
  have bound : k = 0 ∨ ((dropped.length + (logOf (segments.take k)).length : Nat) : Int) ≤
      min seq minFollower := by
    rcases Nat.eq_zero_or_pos k with zero | positive
    · exact Or.inl zero
    · exact Or.inr (ends positive)
  refine ⟨dropped ++ logOf (segments.take k), segments.drop k,
    ⟨holds.recorded, holds.fits, ?_, ?_, uploaded, ?_, holds.upTo, ?_, ?_⟩, inv.waiting, ?_, ?_,
    whole, inv.store, inv.applied, inv.behind, inv.manifest, by simp [LeaderState.collect]⟩
  · rw [LeaderState.collect, gone]
    exact entries_eraseMany_front listing
  · intro c isIn
    exact holds.valid c (mem_of_mem_drop isIn)
  · rw [length_append]
    rcases bound with rfl | below
    · simpa [logOf] using holds.collected
    · omega
  · have restorable :=
      holds.restorable.append [] (s.collect (min seq minFollower) count).bucket.wal
    rwa [append_nil] at restorable
  · intro n less
    rw [length_append] at less
    rcases bound with rfl | below
    · exact holds.advances n (by simpa [logOf] using less)
    · exact revisionOf_take_lt holds.recorded mem data (by omega) (by omega)
  · rw [length_append]
    exact (named_append.mp named).2
  · rw [length_append]
    refine active.trans ?_
    push_cast
    rw [← add_assoc]
    rfl

end LeaderInvAt

/-- **One step** of a recoverable run keeps the invariant. -/
theorem LeaderState.Inv.step {s t : LeaderState} {action : LeaderAction} (inv : s.Inv)
    (recoverable : Recoverable s action) (stepped : leaderSystem.step s action = some t) :
    t.Inv := by
  obtain ⟨dropped, segments, batches, covered, inv⟩ := inv
  change leaderStep s action = some t at stepped
  cases action with
  | append batch =>
    obtain ⟨⟨free, -⟩, same⟩ := Option.ite_none_right_eq_some.mp stepped
    cases same
    exact ⟨_, _, _, _, inv.append free recoverable.1 recoverable.2⟩
  | apply =>
    obtain ⟨batch, pending, rfl⟩ := Option.map_eq_some_iff.mp stepped
    exact ⟨_, _, _, _, inv.apply pending⟩
  | rotate =>
    cases stepped
    exact ⟨_, _, _, _, inv.sealActive rfl⟩
  | upload i =>
    obtain rfl : i = 0 := recoverable
    obtain ⟨c, first, rfl⟩ := Option.map_eq_some_iff.mp stepped
    exact ⟨_, _, _, _, inv.upload first⟩
  | checkpoint =>
    obtain ⟨-, same⟩ := Option.ite_none_left_eq_some.mp stepped
    cases same
    have settled : s.pending = none := recoverable
    have next : s.store.lastSeq + 1 = s.activeFirst + s.active.length := by
      have applied := inv.applied
      rw [settled, Option.getD_none, append_nil] at applied
      have length := congrArg List.length inv.whole
      rw [length_append, length_append] at length
      rw [inv.lastSeq, applied, inv.active]
      omega
    have sealed_ := inv.sealActive next
    have unchanged : (s.sealActive (s.store.lastSeq + 1)).store = s.store ∧
        (s.sealActive (s.store.lastSeq + 1)).pending = s.pending := by
      unfold LeaderState.sealActive
      split
      · exact ⟨rfl, rfl⟩
      · exact ⟨rfl, rfl⟩
    have written := sealed_.writeCheckpoint (unchanged.2.trans settled)
    rw [LeaderState.snapshot, unchanged.1] at written
    exact ⟨_, _, _, _, written⟩
  | gcSegments minFollower count =>
    obtain ⟨seq, due, rfl⟩ := Option.map_eq_some_iff.mp stepped
    obtain ⟨e, mem, lower, upper, data⟩ := recoverable seq due
    obtain ⟨dropped, segments, inv⟩ := inv.collect due mem lower upper data count
    exact ⟨_, _, _, _, inv⟩

/-- **Catching up past garbage collection.** In every recoverable run of a leader, a node
whose store is a prefix of its log that the manifest covers resyncs and opens without a
hole. -/
theorem catch_up_past_gc {start s : LeaderState} {actions : List LeaderAction}
    (init : leaderSystem.init start) (meets : leaderSystem.Meets Recoverable start actions)
    (ran : leaderSystem.run start actions = some s) {o : OpenedRemote} {n : Nat}
    (rep : o.store.Represents (s.logged.take n)) (behind : (n : Int) ≤ s.manifestSeq) :
    (∃ db k, resync s.bucket o.store = .ok db ∧ n ≤ k ∧ db.Represents (s.logged.take k)) ∧
      ∃ o' k, replayLoop s.bucket 10 o = .ok o' ∧ n ≤ k ∧
        o'.store.Represents (s.logged.take k) := by
  rw [show start = {} from init] at meets ran
  obtain ⟨dropped, segments, batches, covered, inv⟩ :=
    System.run_invariant LeaderState.Inv.step leader_inv_init meets ran
  have upper : n ≤ s.logged.length := by
    have := inv.manifest
    have := inv.bucket.upTo
    omega
  exact ⟨inv.bucket.resyncs upper rep, inv.bucket.replayLoops upper rep 8⟩

/-- Two entries, a checkpoint, two more entries that are sealed and uploaded before the
checkpoint's garbage is collected. -/
def collectingRun : List LeaderAction :=
  [.append (sampleHistory.take 2), .apply, .checkpoint, .append (sampleHistory.drop 2), .apply,
   .rotate, .upload 0, .upload 0, .gcSegments 9 2]

/-- A node that has one entry restores the checkpoint. -/
theorem catch_up_past_gc_collectingRun :
    ∃ s, leaderSystem.run {} collectingRun = some s ∧ s.bucket.wal.entries.length = 1 ∧
      s.manifestSeq = 2 ∧
      ∃ db k, resync s.bucket (Store.empty.apply (sampleHistory.take 1)).1 = .ok db ∧ 1 ≤ k ∧
        db.Represents (s.logged.take k) := by
  have recorded := sampleHistory_recorded
  have first : Recorded (sampleHistory.take 1) := recorded.of_prefix (List.take_prefix _ _)
  have second : Recorded (sampleHistory.take 2) := recorded.of_prefix (List.take_prefix _ _)
  have meets : leaderSystem.Meets Recoverable {} collectingRun :=
    .cons ⟨second, by decide⟩ rfl (.cons trivial rfl (.cons rfl rfl
      (.cons ⟨recorded, by decide⟩ rfl (.cons trivial rfl (.cons trivial rfl (.cons rfl rfl
        (.cons rfl rfl (.cons (by decide +kernel) rfl trivial))))))))
  obtain ⟨s, ran, logged, one, manifest⟩ := System.exists_of_run leaderSystem {} collectingRun
    (fun s => s.logged = sampleHistory ∧ s.bucket.wal.entries.length = 1 ∧ s.manifestSeq = 2)
    (by decide +kernel)
  obtain ⟨db, applies, rep⟩ := first.exists_store
  refine ⟨s, ran, one, manifest, ?_⟩
  rw [applies]
  exact (catch_up_past_gc rfl meets ran (o := ⟨term, 1, db, 0⟩) (n := 1)
    (by rw [logged]; exact rep) (by rw [manifest]; decide)).1

set_option maxRecDepth 2000 in
/-- A node that has the first two of the entries, when the checkpoint ends with the
compaction behind them. -/
theorem catch_up_counterexample :
    ∃ s, leaderSystem.run {}
        [.append (sampleHistory.take 3), .apply, .checkpoint, .append (sampleHistory.drop 3),
         .apply, .rotate, .upload 0, .upload 0, .gcSegments 9 2] = some s ∧
      s.manifestSeq = 3 ∧
      resync s.bucket (Store.empty.apply (sampleHistory.take 2)).1 =
        .error (.missingSequence 3 4) := by
  refine System.exists_run (P := fun s => s.manifestSeq = 3 ∧
    (resync s.bucket (Store.empty.apply (sampleHistory.take 2)).1).map (fun _ => ()) =
      .error (.missingSequence 3 4)) (by decide +kernel) ?_
  rintro s - ⟨seq, failed⟩
  cases synced : resync s.bucket (Store.empty.apply (sampleHistory.take 2)).1 <;>
    rw [synced] at failed <;> cases failed
  exact ⟨seq, rfl⟩

end T4.Remote
