import T4.Cluster.Agreement

/-!
# Whole stores

A store is *whole* when it has every write, or every entry, up to its last sequence. Stores
stay whole, since everything that extends them is consecutive, or was written by the node
itself.
-/

namespace T4.Cluster

open Lib Wal List

/-! ## What was written -/

/-- The writes of all leaders: sequences and revisions increase together. -/
structure Written (w : List Entry) : Prop where
  sorted : w.Pairwise (fun a b => a.sequence < b.sequence)
  positive : ∀ e ∈ w, 0 < e.sequence ∧ (IsWrite e → 0 < e.revision)
  increasing : ∀ a ∈ w, ∀ b ∈ w, IsWrite a → IsWrite b → a.sequence < b.sequence →
    a.revision < b.revision

/-- The entries that a store is to have: every entry, or the writes only. -/
def Wanted (every : Bool) (e : Entry) : Prop := every ∨ IsWrite e

theorem wanted_false {e : Entry} : Wanted false e ↔ IsWrite e := by simp [Wanted]

/-- The store has what is wanted up to its last sequence. -/
def Whole (every : Bool) (w store : List Entry) : Prop :=
  ∀ e ∈ w, Wanted every e → e.sequence ≤ lastSeq store → e ∈ store

/-- Nothing that is wanted is missing from the store. -/
def HasAll (every : Bool) (w store : List Entry) : Prop := ∀ e ∈ w, Wanted every e → e ∈ store

/-- The sequences of `new` are above those of `w`. -/
def Newer (w new : List Entry) : Prop :=
  ∀ e ∈ new, 0 < e.sequence ∧ ∀ old ∈ w, old.sequence < e.sequence

section Whole

variable {every : Bool} {w store store' batch : List Entry} {fromRev : Int}

theorem Written.eq_of_revision (written : Written w) {a b : Entry} (memA : a ∈ w) (memB : b ∈ w)
    (writeA : IsWrite a) (writeB : IsWrite b) (same : a.revision = b.revision) : a = b := by
  refine eq_of_sorted_number written.sorted memA memB ?_
  rcases lt_trichotomy a.sequence b.sequence with less | equal | more
  · exact absurd same (written.increasing a memA b memB writeA writeB less).ne
  · exact equal
  · exact absurd same (written.increasing b memB a memA writeB writeA more).ne'

/-- A gapless batch of written entries has every one in its range. -/
theorem Written.mem_of_numbered (written : Written w) (sub : batch ⊆ w)
    (numbered : Numbered Entry.sequence fromRev batch) {e : Entry} (mem : e ∈ w)
    (above : fromRev ≤ e.sequence) (upTo : e.sequence ≤ lastSeq batch) : e ∈ batch := by
  obtain ⟨x, isIn, reaches⟩ := exists_of_le_lastSeq (written.positive e mem).1 upTo
  have below := numbered.lt_end x isIn
  obtain ⟨y, inBatch, same⟩ := numbered.exists_number above (by omega)
  exact eq_of_sorted_number written.sorted (sub inBatch) mem same ▸ inBatch

/-- A gapless batch that starts at most one above the store keeps it whole. -/
theorem Whole.extend (whole : Whole every w store) (written : Written w) (sub : batch ⊆ w)
    (numbered : Numbered Entry.sequence fromRev batch) (place : fromRev ≤ lastSeq store + 1) :
    Whole every w (store ++ batch) := by
  intro e mem wanted upTo
  rcases le_or_gt e.sequence (lastSeq store) with old | new
  · exact mem_append_left _ (whole e mem wanted old)
  · rw [lastSeq_append] at upTo
    have inRange := (le_max_iff.mp upTo).resolve_left (not_le.mpr new)
    exact mem_append_right _
      (written.mem_of_numbered sub numbered mem (by omega) inRange)

/-- A whole store that reaches as far has all that the other one has. -/
theorem Whole.keeps (whole : Whole every w store') (reaches : lastSeq store ≤ lastSeq store')
    {e : Entry} (mem : e ∈ w) (wanted : Wanted every e) (held : e ∈ store) : e ∈ store' :=
  whole e mem wanted ((le_lastSeq held).trans reaches)

theorem HasAll.keeps (all : HasAll every w store) (whole : Whole every w store')
    (reaches : lastSeq store ≤ lastSeq store') : HasAll every w store' :=
  fun e mem wanted => whole.keeps reaches mem wanted (all e mem wanted)

theorem HasAll.append (all : HasAll every w store) :
    HasAll every (w ++ batch) (store ++ batch) := by
  intro e mem wanted
  rcases mem_append.mp mem with old | new
  · exact mem_append_left _ (all e old wanted)
  · exact mem_append_right _ new

theorem Whole.lastSeq_lt (whole : Whole every w store) (sub : store' ⊆ w)
    (behind : currentRev store < currentRev store') : lastSeq store < lastSeq store' := by
  obtain ⟨c, mem, isWrite, above⟩ :=
    exists_of_le_currentRev (Int.lt_add_one_of_le currentRev_nonneg) behind
  refine lt_of_lt_of_le ?_ (le_lastSeq mem)
  by_contra within
  have held := whole c (sub mem) (Or.inr isWrite) (not_lt.mp within)
  have := le_currentRev held isWrite
  omega

theorem Whole.mem_of_le (whole : Whole every w store) (written : Written w) (sub : store ⊆ w)
    {e : Entry} (mem : e ∈ w) (isWrite : IsWrite e) (reached : e.revision ≤ currentRev store) :
    e ∈ store := by
  have positive := (written.positive e mem).2 isWrite
  obtain ⟨x, held, writes, above⟩ := exists_of_le_currentRev positive reached
  rcases le_or_gt e.sequence x.sequence with upTo | later
  · exact whole e mem (Or.inr isWrite) (upTo.trans (le_lastSeq held))
  · have := written.increasing x (sub held) e mem writes isWrite later
    omega

theorem Whole.hasAll (whole : Whole false w store) (written : Written w) (sub : store ⊆ w)
    (covers : ∀ e ∈ w, IsWrite e → e.revision ≤ currentRev store) : HasAll false w store := by
  intro e mem wanted
  have isWrite := wanted_false.mp wanted
  exact whole.mem_of_le written sub mem isWrite (covers e mem isWrite)

/-- A store stays whole with any part of the entries applied to it. -/
theorem Whole.take (whole : Whole every w (store ++ batch))
    (sorted : batch.Pairwise (fun a b => a.sequence < b.sequence))
    (next : ∀ e ∈ batch, lastSeq store < e.sequence) (j : Nat) :
    Whole every w (store ++ batch.take j) := by
  intro e mem wanted upTo
  rw [lastSeq_append] at upTo
  have reaches : lastSeq (batch.take j) ≤ lastSeq batch := lastSeq_mono (take_subset _ _)
  have held := whole e mem wanted (by rw [lastSeq_append]; omega)
  rcases mem_append.mp held with old | isIn
  · exact mem_append_left _ old
  · have later := next e isIn
    rw [← take_append_drop j batch] at sorted isIn
    rcases mem_append.mp isIn with front | back
    · exact mem_append_right _ front
    · have below : lastSeq (batch.take j) ≤ e.sequence - 1 := by
        have positive := (lastSeq_nonneg : 0 ≤ lastSeq store)
        refine lastSeq_le_iff.mpr ⟨by omega, ?_⟩
        intro x inFront
        have := (pairwise_append.mp sorted).2.2 x inFront e back
        omega
      omega

theorem Whole.grow {new : List Entry} (whole : Whole every w store) (sub : store ⊆ w)
    (above : Newer w new) :
    Whole every (w ++ new) store := by
  intro e mem wanted upTo
  rcases mem_append.mp mem with old | isNew
  · exact whole e old wanted upTo
  · obtain ⟨positive, later⟩ := above e isNew
    obtain ⟨x, held, reaches⟩ := exists_of_le_lastSeq positive upTo
    have := later x (sub held)
    omega

end Whole

/-! ## A node's data -/

/-- The store is whole, also after a crash, and the WAL has what a crash may take from it and
everything between the store and its own end. -/
structure Node.Sound (every : Bool) (w : List Entry) (node : Node) : Prop where
  prefixes : ∀ k, node.synced ≤ k → Whole every w (node.store.take k)
  unsynced : ∀ e ∈ node.store.drop node.synced, e ∈ node.log
  tail : ∀ e ∈ w, Wanted every e → lastSeq node.store < e.sequence →
    e.sequence ≤ lastSeq node.log → e ∈ node.log

namespace Node.Sound

variable {every : Bool} {w batch new : List Entry} {node node' : Node} {b : Bucket}

theorem whole (sound : node.Sound every w) : Whole every w node.store := by
  have all := sound.prefixes (max node.synced node.store.length) (le_max_left _ _)
  rw [take_of_length_le (le_max_right _ _)] at all
  exact all

/-- A store that a crash cannot shorten has only its own end to check. -/
theorem of_synced (whole : Whole every w node.store) (synced : node.store.length ≤ node.synced)
    (tail : ∀ e ∈ w, Wanted every e → lastSeq node.store < e.sequence →
      e.sequence ≤ lastSeq node.log → e ∈ node.log) : node.Sound every w := by
  refine ⟨?_, ?_, tail⟩
  · intro k above
    rw [take_of_length_le (synced.trans above)]
    exact whole
  · intro e mem
    rw [drop_of_length_le synced] at mem
    cases mem

/-- New entries come after everything the node has. -/
theorem grow (sound : node.Sound every w) (within : node.Within w)
    (above : Newer w new) :
    node.Sound every (w ++ new) := by
  refine ⟨?_, sound.unsynced, ?_⟩
  · intro k synced
    exact (sound.prefixes k synced).grow
      (List.Subset.trans (take_subset _ _) within.store) above
  · intro e mem wanted later upTo
    rcases mem_append.mp mem with old | isNew
    · exact sound.tail e old wanted later upTo
    · obtain ⟨positive, newer⟩ := above e isNew
      obtain ⟨x, held, reaches⟩ := exists_of_le_lastSeq positive upTo
      have := newer x (within.log held)
      omega

/-- A leader that has everything appends to its WAL. -/
theorem log_append (sound : node.Sound every w) (within : node.Within w)
    (stored : HasAll every w node.store) (above : Newer w new) (role : Role) :
    ({ node with log := node.log ++ new, role } : Node).Sound every (w ++ new) := by
  refine ⟨(sound.grow within above).prefixes, ?_, ?_⟩
  · exact fun e mem => mem_append_left _ (sound.unsynced e mem)
  · intro e mem wanted later _
    rcases mem_append.mp mem with old | isNew
    · exact absurd (le_lastSeq (stored e old wanted)) (not_le.mpr later)
    · exact mem_append_right _ isNew

theorem of_same (sound : node.Sound every w) (store : node'.store = node.store)
    (synced : node'.synced = node.synced) (log : node'.log = node.log) : node'.Sound every w := by
  refine ⟨?_, ?_, ?_⟩
  · rw [store, synced]
    exact sound.prefixes
  · rw [store, synced, log]
    exact sound.unsynced
  · rw [store, log]
    exact sound.tail

/-- Replayed entries that keep the store whole only extend it. -/
theorem recover (sound : node.Sound every w) (whole : Whole every w (node.store ++ batch)) :
    (node.recover batch).Sound every w ∧
      lastSeq node.store ≤ lastSeq (node.recover batch).store := by
  unfold Node.recover
  split
  · exact ⟨sound, le_rfl⟩
  · have reaches : lastSeq node.store ≤ lastSeq (node.store ++ batch) := by
      rw [lastSeq_append]
      exact le_max_left _ _
    refine ⟨of_synced whole le_rfl ?_, reaches⟩
    intro e mem wanted later
    exact sound.tail e mem wanted (reaches.trans_lt later)

theorem replayLocal (sound : node.Sound every w) :
    node.replayLocal.Sound every w ∧ lastSeq node.store ≤ lastSeq node.replayLocal.store := by
  refine sound.recover ?_
  intro e mem wanted upTo
  rcases le_or_gt e.sequence (lastSeq node.store) with old | new
  · exact mem_append_left _ (sound.whole e mem wanted old)
  · rw [lastSeq_append] at upTo
    have inTail := (le_max_iff.mp upTo).resolve_left (not_le.mpr new)
    have inLog := inTail.trans (lastSeq_mono filter_sublist.subset)
    refine mem_append_right _ (mem_filter.mpr ⟨?_, decide_eq_true new⟩)
    exact sound.tail e mem wanted new inLog

/-- The restored store is not behind, so what the WAL has above it is still there. -/
theorem restore (sound : node.Sound every w) {cp : Checkpoint} (whole : Whole every w cp.store)
    (reaches : lastSeq node.store ≤ lastSeq cp.store) : (node.restore cp).Sound every w := by
  refine of_synced whole le_rfl ?_
  intro e mem wanted later
  exact sound.tail e mem wanted (reaches.trans_lt later)

theorem restoreIfBehind (sound : node.Sound every w) (bucket : b.Within w)
    (checkpoint : ∀ cp ∈ b.checkpoint, Whole every w cp.store) :
    (node.restoreIfBehind b).Sound every w ∧
      lastSeq node.store ≤ lastSeq (node.restoreIfBehind b).store := by
  unfold Node.restoreIfBehind
  split
  case h_1 => exact ⟨sound, le_rfl⟩
  case h_2 cp found =>
    obtain ⟨isCheckpoint, behind⟩ := Bucket.ahead_eq_some found
    have reaches := (sound.whole.lastSeq_lt (bucket.checkpoint cp isCheckpoint) behind).le
    exact ⟨sound.restore (checkpoint cp isCheckpoint) reaches, reaches⟩

theorem boot (sound : node.Sound every w)
    (checkpoint : ∀ cp ∈ b.checkpoint, Whole every w cp.store) :
    (node.boot b).Sound every w ∧
      lastSeq node.replayLocal.store ≤ lastSeq (node.boot b).replayLocal.store := by
  unfold Node.boot
  split
  case h_1 =>
    refine ⟨sound.of_same rfl rfl rfl, le_of_eq ?_⟩
    rw [Node.replayLocal, Node.replayLocal, Node.recover_store, Node.recover_store]
  case h_2 cp found =>
    obtain ⟨isCheckpoint, first⟩ := Option.filter_eq_some_iff.mp found
    obtain ⟨-, empty⟩ := of_decide_eq_true first
    have reaches : lastSeq node.store ≤ lastSeq cp.store := by
      rw [empty]
      exact lastSeq_nonneg
    refine ⟨(sound.restore (checkpoint cp isCheckpoint) reaches).of_same rfl rfl rfl, ?_⟩
    rw [Node.replayLocal, Node.recover_store, empty, nil_append]
    refine lastSeq_le_iff.mpr ⟨lastSeq_nonneg, ?_⟩
    intro e mem
    have logged : e ∈ ({ node.restore cp with fresh := false } : Node).log :=
      mem_of_mem_filter mem
    exact Node.le_lastSeq_replayLocal logged

theorem replayRemote (sound : node.Sound every w) (written : Written w) (bucket : b.Within w)
    (found : node.replayRemote b = some node') :
    node'.Sound every w ∧ lastSeq node.store ≤ lastSeq node'.store := by
  obtain ⟨batch, replayed, same⟩ := Option.map_eq_some_iff.mp found
  subst same
  obtain ⟨numbered, listed⟩ := Bucket.replay_spec replayed
  refine sound.recover (sound.whole.extend written ?_ numbered le_rfl)
  intro e mem
  obtain ⟨p, isObject, inP⟩ := listed e mem
  exact bucket.objects p isObject inP

theorem caughtUp (sound : node.Sound every w) (written : Written w) (bucket : b.Within w)
    (checkpoint : ∀ cp ∈ b.checkpoint, Whole every w cp.store)
    (found : node.caughtUp b = some node') :
    node'.Sound every w ∧ lastSeq node.store ≤ lastSeq node'.store := by
  obtain ⟨restored, reaches⟩ := sound.restoreIfBehind bucket checkpoint
  obtain ⟨replayed, further⟩ := restored.replayRemote written bucket found
  exact ⟨replayed, reaches.trans further⟩

theorem abandoned (sound : node.Sound every w) (written : Written w) (bucket : b.Within w)
    (checkpoint : ∀ cp ∈ b.checkpoint, Whole every w cp.store) {progress : Progress}
    (found : node.abandoned b progress = some node') :
    node'.Sound every w ∧ lastSeq node.store ≤ lastSeq node'.store := by
  cases progress with
  | begun =>
    cases found
    exact ⟨sound, le_rfl⟩
  | restored =>
    cases found
    exact sound.restoreIfBehind bucket checkpoint
  | replayed => exact sound.caughtUp written bucket checkpoint found

/-- Opening a node: boot, its own WAL, then the bucket. -/
theorem opened (sound : node.Sound every w) (written : Written w) (bucket : b.Within w)
    (checkpoint : ∀ cp ∈ b.checkpoint, Whole every w cp.store)
    (found : node.opened b = some node') :
    node'.Sound every w ∧ lastSeq node.replayLocal.store ≤ lastSeq node'.store := by
  obtain ⟨booted, start⟩ := sound.boot checkpoint
  obtain ⟨replayed, -⟩ := booted.replayLocal
  simp only [Node.opened] at found
  split at found
  case h_1 node'' remote =>
    obtain ⟨remoteSound, reaches⟩ := replayed.replayRemote written bucket remote
    split at found
    case h_1 =>
      cases found
      exact ⟨remoteSound, start.trans reaches⟩
    case h_2 =>
      obtain ⟨caught, further⟩ := remoteSound.caughtUp written bucket checkpoint found
      exact ⟨caught, start.trans (reaches.trans further)⟩
  case h_2 =>
    split at found
    case h_1 => cases found
    case h_2 =>
      obtain ⟨caught, further⟩ := replayed.caughtUp written bucket checkpoint found
      exact ⟨caught, start.trans further⟩

/-- The crash may take the unsynced end of the store, which the WAL has. -/
theorem crash (sound : node.Sound every w) (kept : Nat) : (node.crash kept).Sound every w := by
  refine ⟨?_, ?_, ?_⟩
  · intro k above
    change Whole every w ((node.store.take (max kept node.synced)).take k)
    rw [take_take]
    exact sound.prefixes _ (le_min above (le_max_right _ _))
  · intro e mem
    refine sound.unsynced e ?_
    exact ((take_sublist _ _).drop _).subset mem
  · intro e mem wanted later upTo
    rcases le_or_gt e.sequence (lastSeq node.store) with old | new
    · have held := sound.whole e mem wanted old
      rw [← take_append_drop (max kept node.synced) node.store] at held
      rcases mem_append.mp held with survives | lost
      · exact absurd (le_lastSeq survives) (not_le.mpr later)
      · exact sound.unsynced e ((drop_sublist_drop_left _ (le_max_right _ _)).subset lost)
    · exact sound.tail e mem wanted new upTo

/-- A follower logs a batch before it applies it. -/
theorem logged (sound : node.Sound every w) (written : Written w) {fromRev : Int} (sub : batch ⊆ w)
    (numbered : Numbered Entry.sequence fromRev batch)
    (place : fromRev ≤ lastSeq node.store + 1) :
    ({ node with log := node.log ++ batch } : Node).Sound every w := by
  refine ⟨sound.prefixes, fun e mem => mem_append_left _ (sound.unsynced e mem), ?_⟩
  intro e mem wanted later upTo
  change e.sequence ≤ lastSeq (node.log ++ batch) at upTo
  rw [lastSeq_append] at upTo
  rcases le_max_iff.mp upTo with before | inRange
  · exact mem_append_left _ (sound.tail e mem wanted later before)
  · change lastSeq node.store < e.sequence at later
    exact mem_append_right _ (written.mem_of_numbered sub numbered mem (by omega) inRange)

theorem apply (sound : node.Sound every w) (inLog : batch ⊆ node.log)
    (wholes : ∀ j, Whole every w (node.store ++ batch.take j)) :
    (node.apply batch).Sound every w := by
  refine ⟨?_, ?_, ?_⟩
  · intro k above
    change Whole every w ((node.store ++ batch).take k)
    rw [take_append]
    rcases le_or_gt k node.store.length with short | long
    · rw [Nat.sub_eq_zero_of_le short, take_zero, append_nil]
      exact sound.prefixes k above
    · rw [take_of_length_le long.le]
      exact wholes _
  · intro e mem
    change e ∈ (node.store ++ batch).drop node.synced at mem
    rw [drop_append] at mem
    rcases mem_append.mp mem with old | new
    · exact sound.unsynced e old
    · exact inLog (mem_of_mem_drop new)
  · intro e mem wanted later
    refine sound.tail e mem wanted (lt_of_le_of_lt ?_ later)
    change lastSeq node.store ≤ lastSeq (node.store ++ batch)
    rw [lastSeq_append]
    exact le_max_left _ _

end Node.Sound

end T4.Cluster
