import T4.WritePath.Aborts

/-!
# Sequence numbers

The counters `nextRev` and `nextSeq` advance before it is known whether the entry will
be accepted. As long as no batch is rejected and no delete of a present empty key is
dropped, every number that is taken reaches the log: the accepted entries are numbered
without a hole, and an idle node's counters are its store's.
-/

namespace T4.WritePath

open Lib Bytes Wal Mvcc List

/-- The condition on a step: `AppendBatch` rejects no batch, and no call deletes the empty
key while it is present. -/
def KeepsNumbers (s : WriteState) : WriteAction → Prop
  | .call c => s.node.SparesEmptyKey c
  | .reject => False
  | _ => True

instance (s : WriteState) (a : WriteAction) : Decidable (KeepsNumbers s a) := by
  rcases a with _ | _ <;> unfold KeepsNumbers <;> infer_instance

/-- The requests that `AppendBatch` has not seen. -/
def Phase.unwritten : Phase → List WriteReq
  | .collected batch => batch
  | _ => []

/-- The requests that are accepted but not applied. -/
def Phase.unstored : Phase → List WriteReq
  | .appended batch => batch
  | _ => []

def WriteState.assigned (s : WriteState) : List Entry :=
  s.wal ++ entries (s.phase.unwritten ++ s.node.writeC)

def Phase.Sound : Phase → Prop
  | .failed _ _ | .stopped => False
  | _ => True

/-- The books of assigned numbers, for a node that started with the history `h`. -/
structure Numbers (h : List Entry) (s : WriteState) : Prop where
  sound : s.phase.Sound
  accepted : s.wal = s.applied ++ entries s.phase.unstored
  consecutive : Consecutive (sequenceOf h + 1) s.assigned
  nextSeq : s.node.nextSeq = sequenceOf h + s.assigned.length
  nextRev : s.node.nextRev = revisionOf (h ++ s.assigned)
  behind : revisionOf h ≤ sequenceOf h → s.node.nextRev ≤ s.node.nextSeq ∧
    ∀ e ∈ s.assigned, e.op ≠ Op.compact → e.revision ≤ e.sequence

section Numbers

variable {h : List Entry} {s next : WriteState}

theorem Starts.numbers (starts : Starts h s) : Numbers h s := by
  obtain ⟨-, stored, nextRev, nextSeq, fresh⟩ := starts
  have seq := nextSeq.trans stored.lastSeq
  have rev := nextRev.trans stored.currentRev
  rw [fresh] at seq rev ⊢
  refine ⟨trivial, rfl, trivial, ?_, ?_, ?_⟩
  · simpa [WriteState.assigned, entries, Phase.unwritten] using seq
  · simpa [WriteState.assigned, entries, Phase.unwritten] using rev
  · intro behind
    refine ⟨?_, by simp [WriteState.assigned, entries, Phase.unwritten]⟩
    rw [seq, rev]
    exact behind

theorem Numbers.assigned_eq (numbers : Numbers h s) :
    s.assigned = s.applied ++ entries s.unapplied := by
  have sound := numbers.sound
  rw [WriteState.assigned, numbers.accepted, WriteState.unapplied, append_assoc,
    ← entries_append, ← append_assoc]
  cases phase : s.phase with
  | failed batch err =>
    rw [phase] at sound
    exact sound.elim
  | appended batch => simp only [Phase.unstored, Phase.unwritten, Phase.inFlight, append_nil]
  | _ => rfl

/-- `next` differs from `s` by a step that assigns nothing. -/
structure Advances (s next : WriteState) : Prop where
  sound : next.phase.Sound
  accepted : next.wal = next.applied ++ entries next.phase.unstored
  assigned : next.assigned = s.assigned
  nextSeq : next.node.nextSeq = s.node.nextSeq
  nextRev : next.node.nextRev = s.node.nextRev

theorem Numbers.advance (numbers : Numbers h s) (advances : Advances s next) : Numbers h next := by
  refine ⟨advances.sound, advances.accepted, ?_, ?_, ?_, ?_⟩
  · rw [advances.assigned]
    exact numbers.consecutive
  · rw [advances.assigned, advances.nextSeq]
    exact numbers.nextSeq
  · rw [advances.assigned, advances.nextRev]
    exact numbers.nextRev
  · rw [advances.assigned, advances.nextRev, advances.nextSeq]
    exact numbers.behind

theorem Numbers.extend (numbers : Numbers h s) {e : Entry} {ops : List TxnSubOp} {basis : Basis}
    {key : Bytes} {past : List Entry} {node : Node}
    (assigned : Assigned s.node past e ops basis key node)
    (phase : next.phase = s.phase) (wal : next.wal = s.wal) (applied : next.applied = s.applied)
    (all : next.assigned = s.assigned ++ [e]) (nextSeq : next.node.nextSeq = s.node.nextSeq + 1)
    (nextRev : next.node.nextRev = e.revision) : Numbers h next := by
  refine ⟨?_, ?_, ?_, ?_, ?_, ?_⟩
  · rw [phase]
    exact numbers.sound
  · rw [wal, applied, phase]
    exact numbers.accepted
  · rw [all]
    refine consecutive_append.mpr ⟨numbers.consecutive, ?_, trivial⟩
    rw [assigned.sequence, numbers.nextSeq]
    omega
  · rw [all, nextSeq, numbers.nextSeq, length_append, length_singleton]
    omega
  · rw [all, nextRev, ← append_assoc, revisionOf_snoc, ← numbers.nextRev]
    split
    · rename_i isCompact
      exact (assigned.compact isCompact).1
    · rename_i isData
      have := (assigned.data isData).1
      omega
  · intro start
    obtain ⟨counters, earlier⟩ := numbers.behind start
    have revision : e.revision ≤ s.node.nextRev + 1 := by
      by_cases isCompact : e.op = Op.compact
      · have := (assigned.compact isCompact).1
        omega
      · have := (assigned.data isCompact).1
        omega
    rw [all, nextRev, nextSeq]
    refine ⟨by omega, ?_⟩
    intro other mem data
    rcases mem_append.mp mem with old | new
    · exact earlier other old data
    · rw [mem_singleton.mp new, assigned.sequence]
      omega

theorem Numbers.call (numbers : Numbers h s) (inv : Inv h s) {c : Call} (typed : c.WellTyped)
    (room : s.node.HasRoom) (spared : s.node.SparesEmptyKey c) : Numbers h (beginCall s c) := by
  unfold beginCall
  rcases inv.reads.begin room typed spared with returned | queued
  · obtain ⟨result, eq⟩ := returned
    rw [eq]
    exact numbers.advance ⟨numbers.sound, numbers.accepted, rfl, rfl, rfl⟩
  · obtain ⟨node, e, ops, basis, key, result, eq, assigned⟩ := queued
    rw [eq]
    refine numbers.extend assigned rfl rfl rfl ?_ ?_ ?_
    · simp only [WriteState.assigned, assigned.next]
      rw [← append_assoc, entries_append, ← append_assoc]
      rfl
    · simp only [assigned.next, Node.noted]
    · simp only [assigned.next, Node.noted]

theorem Numbers.advances {a : WriteAction} (numbers : Numbers h s) (inv : Inv h s)
    (keeps : KeepsNumbers s a) (stepped : writePath.step s a = some next)
    (notCall : ∀ c, a ≠ .call c) : Advances s next := by
  have accepted := numbers.accepted
  cases WriteEffect.of_step stepped with
  | call => exact absurd rfl (notCall _)
  | cancel begun | abandon found present gone => exact ⟨numbers.sound, accepted, rfl, rfl, rfl⟩
  | take isIdle positive enough =>
    rw [isIdle] at accepted
    refine ⟨trivial, accepted, ?_, rfl, rfl⟩
    simp only [WriteState.assigned, isIdle, Phase.unwritten, take_append_drop, nil_append]
  | append collected =>
    rw [collected] at accepted
    refine ⟨trivial, ?_, ?_, rfl, rfl⟩
    · simp only [accepted, Phase.unstored, entries, map_nil, append_nil]
    · simp only [WriteState.assigned, collected, Phase.unwritten, entries_append, append_assoc,
        nil_append]
  | reject collected => exact keeps.elim
  | apply appended applies =>
    rw [appended] at accepted
    refine ⟨trivial, ?_, ?_, rfl, rfl⟩
    · simpa only [Phase.unstored, entries, map_nil, append_nil] using accepted
    · simp only [WriteState.assigned, appended, Phase.unwritten]
  | applyFailed appended fails =>
    obtain ⟨db, success, -⟩ := inv.applyBatch appended
    rw [fails] at success
    cases success
  | finish applied =>
    rw [applied] at accepted
    obtain ⟨pending, eq, -⟩ := clearPendingBatch_eq s.node _
    rw [eq]
    refine ⟨trivial, accepted, ?_, rfl, rfl⟩
    simp only [WriteState.assigned, applied, Phase.unwritten]
  | finishFailed failed =>
    have sound := numbers.sound
    rw [failed] at sound
    exact sound.elim
  | wake found done =>
    obtain ⟨pending, eq, -⟩ := cleanPending_eq s.node _ _
    rw [eq]
    exact ⟨numbers.sound, accepted, rfl, rfl, rfl⟩

theorem Numbers.step {a : WriteAction} (numbers : Numbers h s) (inv : Inv h s)
    (keeps : KeepsNumbers s a) (stepped : writePath.step s a = some next) : Numbers h next := by
  cases a with
  | call c =>
    cases WriteEffect.of_step stepped with
    | call typed opened roomRev roomSeq => exact numbers.call inv typed ⟨roomRev, roomSeq⟩ keeps
  | _ => exact numbers.advance (numbers.advances inv keeps stepped (by simp))

theorem KeepsNumbers.clean {a : WriteAction} (numbers : Numbers h s) (keeps : KeepsNumbers s a) :
    Clean s a := by
  cases a with
  | call c => exact keeps
  | finish =>
    have none : s.phase.rejected = [] := by
      have sound := numbers.sound
      cases phase : s.phase with
      | failed batch err =>
        rw [phase] at sound
        exact sound.elim
      | _ => rfl
    rw [Clean, none]
    exact ⟨fun req _ k _ => not_mem_nil, by simp⟩
  | _ => trivial

theorem Numbers.of_run {start : WriteState} {actions : List WriteAction} (starts : Starts h start)
    (keeps : writePath.Meets KeepsNumbers start actions)
    (ran : writePath.run start actions = some s) : Inv h s ∧ Numbers h s := by
  refine System.run_invariant (P := KeepsNumbers) (I := fun s => Inv h s ∧ Numbers h s) ?_
    ⟨starts.inv, starts.numbers⟩ keeps ran
  intro s a next held keeps stepped
  exact ⟨held.1.step (keeps.clean held.2) stepped, held.2.step held.1 keeps stepped⟩

end Numbers

/-- No request is queued or in flight. -/
def WriteState.Quiet (s : WriteState) : Prop := s.phase = .idle ∧ s.node.writeC = []

instance (s : WriteState) : Decidable s.Quiet := inferInstanceAs (Decidable (_ ∧ _))

/-- **No sequence holes.** In every run whose steps keep the numbers, the entries accepted
by `AppendBatch` carry consecutive sequence numbers from the one after the start on,
and whenever no request is queued or in flight the counters are the store's. -/
theorem no_sequence_holes {h : List Entry} {start s : WriteState} {actions : List WriteAction}
    (starts : Starts h start) (keeps : writePath.Meets KeepsNumbers start actions)
    (ran : writePath.run start actions = some s) :
    (∀ (i : Nat) e, s.wal[i]? = some e → e.sequence = start.node.db.lastSeq + 1 + i) ∧
      (s.Quiet → s.node.nextSeq = s.node.db.lastSeq ∧ s.node.nextRev = s.node.db.currentRev) := by
  obtain ⟨inv, numbers⟩ := Numbers.of_run starts keeps ran
  rw [starts.stored.lastSeq]
  refine ⟨?_, ?_⟩
  · intro i e at_
    exact (consecutive_append.mp numbers.consecutive).1.get at_
  · intro quiet
    have none : s.unapplied = [] := by
      rw [WriteState.unapplied, quiet.1, quiet.2]
      rfl
    have all : s.assigned = s.applied := by
      rw [numbers.assigned_eq, none]
      exact append_nil _
    have consecutive := numbers.consecutive
    rw [all] at consecutive
    rw [inv.stored.lastSeq, inv.stored.currentRev, consecutive.sequenceOf_append,
      numbers.nextSeq, numbers.nextRev, all]
    exact ⟨rfl, rfl⟩

/-- A write, a failed and a successful conditional write, and a compaction, in two
batches. -/
def mixedRun : List WriteAction :=
  [.call (.put [97] [1] 0), .call (.create [97] [2] 0), .take 1, .call (.update [97] [3] 1 0),
   .cancel 0, .append, .abandon 0, .apply, .finish, .call (.compact 1), .take 2, .append, .apply,
   .finish, .wake 0, .wake 2, .wake 3]

theorem no_sequence_holes_mixedRun :
    ∃ s, writePath.run emptyNode mixedRun = some s ∧ (s.Quiet ∧ s.wal.length = 3) ∧
      (∀ (i : Nat) e, s.wal[i]? = some e → e.sequence = 0 + 1 + i) ∧
      s.node.nextSeq = s.node.db.lastSeq ∧ s.node.nextRev = s.node.db.currentRev := by
  refine System.exists_run_and (by decide +kernel) ?_
  rintro s ran ⟨quiet, -⟩
  obtain ⟨numbered, idle⟩ := no_sequence_holes starts_emptyNode (by decide +kernel) ran
  exact ⟨numbered, idle quiet⟩

def rejectedRun : List WriteAction :=
  [.call (.put [97] [1] 0), .take 1, .append, .apply, .finish,
   .call (.put [98] [2] 0), .take 1, .cancel 1, .reject, .finish,
   .call (.put [99] [3] 0), .take 1, .append, .apply, .finish]

/-- A delete of the empty key takes its numbers and is dropped. -/
def emptyKeyRun : List WriteAction :=
  [.call (.put [] [1] 0), .take 1, .append, .apply, .finish, .call (.delete []),
   .call (.put [97] [2] 0), .take 1, .append, .apply, .finish]

theorem sequence_hole_counterexample :
    Starts [] emptyNode ∧
      (∃ s, writePath.run emptyNode rejectedRun = some s ∧ s.wal.map Entry.sequence = [1, 3]) ∧
      (∃ s, writePath.run emptyNode emptyKeyRun = some s ∧ s.wal.map Entry.sequence = [1, 3]) ∧
      ∃ s, writePath.run emptyNode (emptyKeyRun.take 6) = some s ∧ s.Quiet ∧
        s.node.nextSeq = 2 ∧ s.node.db.lastSeq = 1 ∧ s.node.nextRev = 2 ∧
        s.node.db.currentRev = 1 := by
  refine ⟨starts_emptyNode, ?_, ?_, ?_⟩
  · exact System.exists_of_run _ _ _ _ (by decide +kernel)
  · exact System.exists_of_run _ _ _ _ (by decide +kernel)
  · exact System.exists_of_run _ _ _ _ (by decide +kernel)

end T4.WritePath
