import T4.Cluster.Roles
import T4.Election.Safety

/-!
# Completeness of new leaders

If the lock that a node takes over knows every revision that was written, the comparison
of `TakeOver` lets only a node win whose store has all of them.
-/

namespace T4.Cluster

open Lib Wal Election List
open Peer (WaitMode)

/-! ## The property and its condition -/

/-- The store has the entry at its revision. -/
def Holds (store : List Entry) (e : Entry) : Prop :=
  e ∈ store ∧ ∀ x ∈ store, IsWrite x → x.revision = e.revision → x = e

/-- Whoever completed `becomeLeader` held every write that a leader of a lower term had
acknowledged by then. -/
def LeadersComplete (s : ClusterState) : Prop :=
  ∀ p ∈ s.promotions, ∀ e ∈ p.acked, IsWrite e → e.term < p.term → Holds p.store e

/-- The lock that is taken over knows all revisions that were written. -/
def LockCurrent (s : ClusterState) : ClusterAction → Prop
  | .takeOver n =>
      ∀ record ∈ s.lock, record.nodeID ≠ n →
        ∀ e ∈ s.written, IsWrite e → e.revision ≤ record.committedRev
  | _ => True

instance (s : ClusterState) (action : ClusterAction) : Decidable (LockCurrent s action) := by
  rcases action with _ | _ <;> unfold LockCurrent <;> infer_instance

/-- The steps that keep the sequences, with a lock that is current when it is taken over. -/
def PromotionsKept (s : ClusterState) (action : ClusterAction) : Prop :=
  SequencesKept s action ∧ LockCurrent s action

instance (s : ClusterState) (action : ClusterAction) : Decidable (PromotionsKept s action) :=
  inferInstanceAs (Decidable (_ ∧ _))

/-! ## The invariant -/

/-- The nodes and the checkpoint have what is wanted, and so had every new leader. -/
structure ClusterState.Complete (every : Bool) (s : ClusterState) : Prop where
  base : s.Inv
  written : Written s.written
  nodes : ∀ n, (s.nodes n).Ok every s.lock s.written n
  checkpoint : ∀ cp ∈ s.bucket.checkpoint, Whole every s.written cp.store
  unlocked : s.lock = none → s.written = []
  dated : ∀ record ∈ s.lock, ∀ e ∈ s.written, e.term ≤ record.term
  acked : s.acked ⊆ s.written
  complete : LeadersComplete s

theorem assigned_revisions {term : Nat} {nextSeq nextRev : Int} {batch : List Entry}
    (assigned : Assigned term nextSeq nextRev batch) :
    nextRev ≤ batch.foldl (fun rev e => if IsWrite e then e.revision else rev) nextRev ∧
      batch.Pairwise (fun a b => IsWrite a → IsWrite b → a.revision < b.revision) ∧
      ∀ e ∈ batch, e.term = term ∧ (IsWrite e → nextRev < e.revision ∧
        e.revision ≤ batch.foldl (fun rev e => if IsWrite e then e.revision else rev) nextRev) := by
  induction batch generalizing nextSeq nextRev with
  | nil => exact ⟨le_rfl, .nil, fun e mem => absurd mem not_mem_nil⟩
  | cons e rest ih =>
    obtain ⟨ofTerm, -, next, later⟩ := assigned
    obtain ⟨grows, increasing, bounds⟩ := ih later
    rw [foldl_cons]
    have step : nextRev ≤ (if IsWrite e then e.revision else nextRev) := by
      split
      · rename_i isWrite
        exact (next isWrite).le
      · exact le_rfl
    refine ⟨step.trans grows, pairwise_cons.mpr ⟨?_, increasing⟩,
      forall_mem_cons.mpr ⟨⟨ofTerm, ?_⟩, ?_⟩⟩
    · intro other mem isWrite isWrite'
      have above := ((bounds other mem).2 isWrite').1
      rw [if_pos isWrite] at above
      exact above
    · intro isWrite
      rw [if_pos isWrite] at grows ⊢
      exact ⟨next isWrite, grows⟩
    · intro other mem
      refine ⟨(bounds other mem).1, ?_⟩
      intro isWrite
      obtain ⟨above, upTo⟩ := (bounds other mem).2 isWrite
      exact ⟨step.trans_lt above, upTo⟩

theorem Written.append {w part : List Entry} (written : Written w)
    (sorted : part.Pairwise (fun a b => a.sequence < b.sequence))
    (increasing : part.Pairwise (fun a b => IsWrite a → IsWrite b → a.revision < b.revision))
    (above : Newer w part)
    (newer : ∀ e ∈ part, IsWrite e →
      0 < e.revision ∧ ∀ old ∈ w, IsWrite old → old.revision < e.revision) :
    Written (w ++ part) := by
  have within : ∀ a ∈ part, ∀ b ∈ part, IsWrite a → IsWrite b → a.sequence < b.sequence →
      a.revision < b.revision := by
    intro a memA b memB writeA writeB before
    refine Pairwise.forall_of_forall_of_flip
      (R := fun a b => IsWrite a → IsWrite b → a.sequence < b.sequence → a.revision < b.revision)
      (fun x _ _ _ less => absurd less (lt_irrefl _)) ?_ ?_ memA memB writeA writeB before
    · exact increasing.imp (fun less writeX writeY _ => less writeX writeY)
    · exact sorted.imp (fun less _ _ more => absurd more less.asymm)
  refine ⟨?_, ?_, ?_⟩
  · refine pairwise_append.mpr ⟨written.sorted, sorted, ?_⟩
    exact fun old isOld new isNew => (above new isNew).2 old isOld
  · refine forall_mem_append.mpr ⟨written.positive, ?_⟩
    exact fun e mem => ⟨(above e mem).1, fun isWrite => (newer e mem isWrite).1⟩
  · intro a memA b memB writeA writeB before
    rcases mem_append.mp memA with oldA | newA
    · rcases mem_append.mp memB with oldB | newB
      · exact written.increasing a oldA b oldB writeA writeB before
      · exact (newer b newB writeB).2 a oldA writeA
    · rcases mem_append.mp memB with oldB | newB
      · exact absurd ((above a newA).2 b oldB) before.asymm
      · exact within a newA b newB writeA writeB before

namespace ClusterState

variable {every : Bool} {s t : ClusterState} {n : String} {node : Node} {l : Leading}

theorem Complete.setNode (inv : s.Complete every) (base : (s.setNode n node).Inv)
    (ok : node.Ok every s.lock s.written n) : (s.setNode n node).Complete every :=
  ⟨base, inv.written,
    setNode_cases (P := fun n node => node.Ok every s.lock s.written n) ok inv.nodes,
    inv.checkpoint, inv.unlocked, inv.dated, inv.acked, inv.complete⟩

theorem Complete.hasAll (inv : s.Complete every) {store : List Entry}
    (held : ∀ record ∈ s.lock, HasAll every s.written store) : HasAll every s.written store := by
  cases lock : s.lock with
  | none =>
    rw [inv.unlocked lock]
    exact fun e mem => nomatch mem
  | some record => exact held record lock

theorem Complete.elect {term : Nat} {back : Option Int} (inv : s.Complete every)
    (base : (s.elect n term node).Inv) (higher : ∀ record ∈ s.lock, record.term < term)
    (sound : node.Sound every s.written) (all : HasAll every s.written node.store)
    (elected : node.role = .elected term back)
    (place : ∀ fromRev ∈ back, fromRev ≤ lastSeq node.store + 1) :
    (s.elect n term node).Complete every := by
  refine ⟨base, inv.written, ?_, inv.checkpoint, (fun none => nomatch none), ?_, inv.acked,
    inv.complete⟩
  · intro m
    change ((s.setNode n node).nodes m).Ok every _ s.written m
    by_cases same : m = n
    · subst same
      rw [setNode_self]
      exact .elect sound all elected place rfl rfl
    · rw [setNode_of_ne same]
      refine (inv.nodes m).relock ?_ ?_
      · intro old inOffice
        obtain ⟨record, isLock, upTo, -⟩ := (inv.nodes m).office old inOffice
        have above := higher record isLock
        refine ⟨_, rfl, ?_, ?_⟩
        · exact upTo.trans above.le
        · exact fun equal => absurd equal (upTo.trans_lt above).ne
      · rintro record ⟨⟩ owns
        exact absurd owns.symm same
  · rintro record ⟨⟩ e mem
    change e.term ≤ term
    cases lock : s.lock with
    | none =>
      have mem' : e ∈ s.written := mem
      rw [inv.unlocked lock] at mem'
      cases mem'
    | some record => exact (inv.dated record lock e mem).trans (higher record lock).le

theorem Complete.touch {old record : LockRecord} (inv : s.Complete every)
    (isLock : s.lock = some old) (sameID : record.nodeID = old.nodeID)
    (sameTerm : record.term = old.term) (base : Inv { s with lock := some record }) :
    Complete every { s with lock := some record } := by
  refine ⟨base, inv.written, ?_, inv.checkpoint, (fun none => nomatch none), ?_, inv.acked,
    inv.complete⟩
  · intro m
    refine (inv.nodes m).relock ?_ ?_
    · intro term inOffice
      obtain ⟨other, isOther, upTo, owner⟩ := (inv.nodes m).office term inOffice
      cases isLock.symm.trans isOther
      exact ⟨record, rfl, sameTerm ▸ upTo, fun equal =>
        sameID.trans (owner (equal.trans sameTerm))⟩
    · rintro other ⟨⟩ owns
      exact ⟨old, isLock, sameID.symm.trans owns, sameTerm.symm⟩
  · rintro other ⟨⟩ e mem
    rw [sameTerm]
    exact inv.dated old isLock e mem

theorem Complete.fencedCheck (inv : s.Complete every) (leads : (s.nodes n).role = .leader l)
    (l' : Leading) (term : l'.term = l.term) (nextSeq : l'.nextSeq = l.nextSeq)
    (nextRev : l'.nextRev = l.nextRev)
    (batch : (l'.batch.map Pending.entries).getD [] = (l.batch.map Pending.entries).getD [])
    (touch : Bool) : (s.fencedCheck n l l' touch).Complete every := by
  have base := inv.base.fencedCheck leads l' term nextSeq batch touch
  unfold ClusterState.fencedCheck at base ⊢
  split at base
  case isTrue names =>
    rw [if_pos names]
    have tuned : (s.setNode n { s.nodes n with role := .leader l' }).Complete every :=
      inv.setNode (inv.base.tune leads l' term nextSeq batch)
        ((inv.nodes n).tune leads l' term nextRev.ge batch)
    cases touch with
    | false => exact tuned
    | true =>
      obtain ⟨old, isLock, owner, ofTerm⟩ := names
      exact tuned.touch isLock owner.symm ofTerm.symm base
  case isFalse unnamed =>
    rw [if_neg unnamed]
    exact inv.setNode base (inv.nodes n).stepDown

theorem Complete.newer (inv : s.Complete every) (leads : (s.nodes n).role = .leader l)
    (names : s.Names n l.term) {batch part : List Entry}
    (assigned : Assigned l.term l.nextSeq l.nextRev batch) (isPart : part <+: batch) :
    Newer s.written part ∧
      Written (s.written ++ part) := by
  obtain ⟨positive, above⟩ := inv.base.counts n l leads
  obtain ⟨-, sorted, bounds⟩ := assigned_spec positive assigned
  obtain ⟨-, increasing, revisions⟩ := assigned_revisions assigned
  obtain ⟨positiveRev, aboveRev⟩ := (inv.nodes n).revs l leads
  have highest : Newer s.written part := by
    intro e mem
    have next := (bounds e (isPart.subset mem)).1
    exact ⟨positive.trans_lt next, fun old isOld => (above names old isOld).trans_lt next⟩
  refine ⟨highest, inv.written.append (sorted.sublist isPart.sublist)
    (increasing.sublist isPart.sublist) highest ?_⟩
  intro e mem isWrite
  have next := ((revisions e (isPart.subset mem)).2 isWrite).1
  refine ⟨positiveRev.trans_lt next, ?_⟩
  intro old isOld wasWrite
  obtain ⟨record, isLock, owner, ofTerm⟩ := names
  exact (aboveRev record isLock owner ofTerm old isOld wasWrite).trans_lt next

theorem Complete.write (inv : s.Complete every) (leads : (s.nodes n).role = .leader l)
    (names : s.Names n l.term) {batch part : List Entry}
    (assigned : Assigned l.term l.nextSeq l.nextRev batch) (isPart : part <+: batch)
    (base : Inv { s.setNode n node with written := s.written ++ part })
    (ok : node.Ok every s.lock (s.written ++ part) n) :
    Complete every { s.setNode n node with written := s.written ++ part } := by
  obtain ⟨above, written⟩ := inv.newer leads names assigned isPart
  obtain ⟨-, -, revisions⟩ := assigned_revisions assigned
  obtain ⟨record, isLock, owner, ofTerm⟩ := names
  have terms : ∀ e ∈ part, e.term = record.term :=
    fun e mem => ((revisions e (isPart.subset mem)).1).trans ofTerm.symm
  refine ⟨base, written, ?_, ?_, ?_, ?_, ?_, inv.complete⟩
  · intro m
    change ((s.setNode n node).nodes m).Ok every s.lock (s.written ++ part) m
    by_cases same : m = n
    · subst same
      rw [setNode_self]
      exact ok
    · rw [setNode_of_ne same]
      refine (inv.nodes m).grow (inv.base.nodes m) (inv.base.unapplied m) above ?_
      intro other isOther
      cases isLock.symm.trans isOther
      exact ⟨fun owns => same (owns.symm.trans owner), terms⟩
  · intro cp isCheckpoint
    exact (inv.checkpoint cp isCheckpoint).grow (inv.base.bucket.checkpoint cp isCheckpoint) above
  · intro none
    cases isLock.symm.trans none
  · intro other isOther e mem
    cases isLock.symm.trans isOther
    rcases mem_append.mp mem with old | new
    · exact inv.dated record isLock e old
    · exact (terms e new).le
  · exact List.Subset.trans inv.acked (subset_append_left _ _)

theorem Complete.hasAll_of_names (inv : s.Complete every) (leads : (s.nodes n).role = .leader l)
    (names : s.Names n l.term) (idle : l.batch = none) :
    HasAll every s.written (s.nodes n).store := by
  obtain ⟨record, isLock, owner, -⟩ := names
  exact (inv.nodes n).hasAll_of_leader leads idle record isLock owner

theorem Complete.append (inv : s.Complete every) (leads : (s.nodes n).role = .leader l)
    (names : s.Names n l.term) (idle : l.batch = none) {batch : List Entry}
    (assigned : Assigned l.term l.nextSeq l.nextRev batch)
    (base : Inv { s.setNode n { s.nodes n with
        log := (s.nodes n).log ++ batch
        role := .leader { l.count batch with batch := some { entries := batch } } } with
      written := s.written ++ batch }) :
    Complete every { s.setNode n { s.nodes n with
        log := (s.nodes n).log ++ batch
        role := .leader { l.count batch with batch := some { entries := batch } } } with
      written := s.written ++ batch } := by
  have stored := inv.hasAll_of_names leads names idle
  obtain ⟨above, -⟩ := inv.newer leads names assigned (prefix_refl _)
  obtain ⟨grows, -, revisions⟩ := assigned_revisions assigned
  obtain ⟨positive, upTo⟩ := (inv.nodes n).revs l leads
  refine inv.write leads names assigned (prefix_refl _) base ?_
  refine (inv.nodes n).appended leads (inv.base.nodes n) stored rfl rfl ?_ above ?_
  · exact (assigned_spec (inv.base.counts n l leads).1 assigned).2.1
  · refine ⟨positive.trans grows, ?_⟩
    intro e mem isWrite
    rcases mem_append.mp mem with old | new
    · obtain ⟨record, isLock, owner, ofTerm⟩ := names
      exact (upTo record isLock owner ofTerm e old isWrite).trans grows
    · exact ((revisions e new).2 isWrite).2

theorem Complete.becomeLeader {term : Nat} {back : Option Int} (inv : s.Complete every)
    (elected : (s.nodes n).role = .elected term back)
    (found : (s.nodes n).caughtUp s.bucket = some node)
    (base : Inv { s.setNode n (node.lead term) with
      promotions := s.promotions ++ [⟨term, s.acked, node.store⟩] }) :
    Complete every { s.setNode n (node.lead term) with
      promotions := s.promotions ++ [⟨term, s.acked, node.store⟩] } := by
  have ok := inv.nodes n
  obtain ⟨sound, reaches⟩ :=
    ok.sound.caughtUp inv.written inv.base.bucket inv.checkpoint found
  refine ⟨base, inv.written, ?_, inv.checkpoint, inv.unlocked, inv.dated, inv.acked, ?_⟩
  · exact setNode_cases (P := fun n node => node.Ok every s.lock s.written n)
      (ok.lead elected sound reaches) inv.nodes
  · refine forall_mem_append.mpr ⟨inv.complete, forall_mem_singleton.mpr ?_⟩
    intro e isAcked isWrite earlier
    have isWritten := inv.acked isAcked
    have held := ok.elected term back elected e isWritten (Or.inr isWrite) earlier
    refine ⟨sound.whole.keeps reaches isWritten (Or.inr isWrite) held, ?_⟩
    intro x inStore writes same
    have within := ((inv.base.nodes n).caughtUp inv.base.bucket found).store inStore
    exact inv.written.eq_of_revision within isWritten writes isWrite same

/-- Whoever takes over the lock of another node has to have what is wanted. -/
theorem Complete.step {cap : Nat} {mode : WaitMode} {action : ClusterAction}
    (inv : s.Complete every) (kept : SequencesKept s action)
    (takes : ∀ n, action = .takeOver n → ∀ record ∈ s.lock, record.nodeID ≠ n →
      record.committedRev ≤ currentRev (s.nodes n).store →
        HasAll every s.written (s.nodes n).store)
    (stepped : clusterStep cap mode s action = some t) : t.Complete every := by
  have base : t.Inv := inv.base.step kept stepped
  cases ClusterEffect.of_step stepped with
  | tick ns | uploaded | collected =>
    exact ⟨base, inv.written, inv.nodes, inv.checkpoint, inv.unlocked, inv.dated, inv.acked,
      inv.complete⟩
  | crash n count => exact inv.setNode base ((inv.nodes n).crash count)
  | @reelected n node term down opened won =>
    obtain ⟨sound, reaches⟩ :=
      (inv.nodes n).sound.opened inv.written inv.base.bucket inv.checkpoint opened
    have stored := (inv.nodes n).hasAll_replayLocal down
    obtain ⟨isNew, own⟩ := Lock.tryAcquire_eq_ok won
    refine inv.elect base ?_ (sound.of_same rfl rfl rfl) (inv.hasAll ?_) rfl
      (fun _ none => by cases none)
    · intro record isLock
      rw [isNew]
      exact lt_newTerm isLock
    · intro record isLock
      exact (stored record isLock (own record isLock)).keeps sound.whole reaches
  | @joined n node term down opened =>
    obtain ⟨sound, reaches⟩ :=
      (inv.nodes n).sound.opened inv.written inv.base.bucket inv.checkpoint opened
    have stored := (inv.nodes n).hasAll_replayLocal down
    exact inv.setNode base (.follow stored (sound.of_same rfl rfl rfl) reaches rfl le_rfl)
  | stayed follows term cleared =>
    exact inv.setNode base ((inv.nodes _).stay follows term none cleared)
  | @tookOver n fromRev term follows won =>
    have ok := inv.nodes n
    obtain ⟨isNew, covered⟩ := Lock.takeOver_eq_ok won
    refine inv.elect base ?_ (ok.sound.of_same rfl rfl rfl) (inv.hasAll ?_) rfl ?_
    · intro record isLock
      rw [isNew]
      exact lt_newTerm isLock
    · intro record isLock
      by_cases own : record.nodeID = n
      · exact ok.hasAll_of_follower follows record isLock own
      · exact takes n rfl record isLock own (covered record isLock own)
    · intro place isBack
      cases isBack
      exact ok.placed fromRev (by rw [Node.place, follows]; rfl)
  | becameLeader elected caughtUp => exact inv.becomeLeader elected caughtUp base
  | @abandoned n progress term back node role elected found returns =>
    obtain ⟨sound, reaches⟩ :=
      (inv.nodes n).sound.abandoned inv.written inv.base.bucket inv.checkpoint found
    exact inv.setNode base ((inv.nodes n).abandon elected sound reaches returns)
  | @connected n m fromRev cleared l follows leads =>
    have joined : (s.setNode n { s.nodes n with
        role := .follower fromRev (some ⟨m, l.term⟩) false }).Complete every :=
      inv.setNode (inv.base.setRole (fun _ same => by cases same))
        ((inv.nodes n).stay follows _ _ _)
    exact joined.setNode base ((inv.nodes m).tune leads _ rfl le_rfl rfl)
  | hungUp leads => exact inv.setNode base ((inv.nodes _).tune leads _ rfl le_rfl rfl)
  | @checked _ m l leads disconnected polling touch =>
    exact inv.fencedCheck leads { l with disconnected, polling } rfl rfl rfl rfl touch
  | @appended m batch l leads idle assigned =>
    exact inv.append leads (kept.names leads) idle assigned base
  | @cancelled m batch l leads idle assigned =>
    exact inv.setNode base
      ((inv.nodes m).tune leads (l.count batch) rfl (assigned_revisions assigned).1 rfl)
  | @failed m batch l count leads idle assigned =>
    have names := kept.names leads
    obtain ⟨above, -⟩ := inv.newer leads names assigned (List.take_prefix count batch)
    have stored := inv.hasAll_of_names leads names idle
    exact inv.write leads names assigned (List.take_prefix count batch) base
      ((inv.nodes m).failed (inv.base.nodes m) stored above)
  | @committed m l entries leads batch =>
    refine ⟨base, inv.written, ?_, inv.checkpoint, inv.unlocked, inv.dated, inv.acked,
      inv.complete⟩
    exact setNode_cases (P := fun n node => node.Ok every s.lock s.written n)
      ((inv.nodes m).tune leads _ rfl le_rfl (by rw [batch]; rfl)) inv.nodes
  | waited leads batch =>
    exact inv.setNode base ((inv.nodes _).tune leads _ rfl le_rfl (by rw [batch]; rfl))
  | @finished m l entries acked required leads batch told =>
    refine ⟨base, inv.written, ?_, inv.checkpoint, inv.unlocked, inv.dated, ?_, inv.complete⟩
    · exact setNode_cases (P := fun n node => node.Ok every s.lock s.written n)
        ((inv.nodes m).finish leads batch) inv.nodes
    · have unapplied := inv.base.unapplied m
      simp only [Node.unapplied, leads, batch] at unapplied
      exact List.Subset.trans told (append_subset.mpr ⟨inv.acked, unapplied⟩)
  | @received n batch outcome fromRev session cleared last follows isLast sub numbered =>
    have received := (inv.nodes n).receive inv.written follows
      (List.Subset.trans sub (inv.base.committed _)) numbered isLast outcome
    refine ⟨base, inv.written, ?_, inv.checkpoint, inv.unlocked, inv.dated, inv.acked,
      inv.complete⟩
    refine setNode_cases (P := fun n node => node.Ok every s.lock s.written n) received
      (setNode_cases (P := fun n node => node.Ok every s.lock s.written n) ?_ inv.nodes)
    split
    · exact (inv.nodes _).acknowledge _ _ _
    · exact inv.nodes _
  | @resynced n replays fromRev session cleared follows =>
    exact inv.setNode base ((inv.nodes n).resync inv.written inv.base.bucket inv.checkpoint
      follows replays)
  | @checkpointed m l leads =>
    refine ⟨base, inv.written, inv.nodes, ?_, inv.unlocked, inv.dated, inv.acked, inv.complete⟩
    intro cp isCheckpoint
    cases isCheckpoint
    exact (inv.nodes m).sound.whole

theorem Complete.kept {cap : Nat} {mode : WaitMode} {action : ClusterAction}
    (inv : s.Complete false) (kept : PromotionsKept s action)
    (stepped : clusterStep cap mode s action = some t) : t.Complete false := by
  refine inv.step kept.1 ?_ stepped
  rintro n rfl record isLock own covered
  refine (inv.nodes n).sound.whole.hasAll inv.written (inv.base.nodes n).store ?_
  exact fun e mem isWrite => (kept.2 record isLock own e mem isWrite).trans covered

end ClusterState

/-! ## Every run -/

theorem ClusterState.Complete.init {every : Bool} {cap : Nat} {mode : WaitMode}
    {s : ClusterState} (start : (cluster cap mode).init s) : s.Complete every := by
  have base := ClusterState.Inv.init start
  cases start
  refine ⟨base, ⟨.nil, ?_, ?_⟩, ?_, ?_, ?_, ?_, ?_, ?_⟩
  · exact fun e mem => nomatch mem
  · exact fun a mem => nomatch mem
  · intro n
    refine .stop ⟨?_, ?_, ?_⟩ rfl ?_
    · exact fun k _ e mem => nomatch mem
    · exact fun e mem => nomatch mem
    · exact fun e mem => nomatch mem
    · exact fun record isLock => nomatch isLock
  · exact fun cp isCheckpoint => nomatch isCheckpoint
  · exact fun _ => rfl
  · exact fun record isLock => nomatch isLock
  · exact nil_subset _
  · exact fun p mem => nomatch mem

/-- In every run that keeps the sequences and in which the locks that are taken over are
current, every new leader has the writes that were acknowledged before it. -/
theorem leaders_complete {cap : Nat} {mode : WaitMode} {s t : ClusterState}
    {actions : List ClusterAction} (start : (cluster cap mode).init s)
    (kept : (cluster cap mode).Meets PromotionsKept s actions)
    (run : (cluster cap mode).run s actions = some t) : LeadersComplete t := by
  have inv := (cluster cap mode).run_invariant (I := ClusterState.Complete false)
    (fun inv here stepped => inv.kept here stepped) (ClusterState.Complete.init start) kept run
  exact inv.complete

/-- The leader touches the lock after the write, before its follower takes over. -/
def touchedFailover : List ClusterAction :=
  twoNodes ++ [.append "a" [putIn 2 1] .ok, .commit "a", .wait "a",
    .receive "b" [putIn 2 1] .ok, .finish "a", .poll "a"] ++ failover

theorem leaders_complete_touchedFailover : ∃ t,
    (cluster 4 .quorum).run {} touchedFailover = some t ∧
      (∃ p ∈ t.promotions, p.term = 3 ∧ p.acked = [putIn 2 1]) ∧ LeadersComplete t := by
  refine System.exists_run_and (by decide +kernel) ?_
  intro t run _
  exact leaders_complete rfl (by decide +kernel) run

/-- Between two batches the leader that the lock names has applied every write. -/
theorem leader_hasAll {cap : Nat} {mode : WaitMode} {s t : ClusterState} {n : String}
    {l : Leading} {actions : List ClusterAction} (start : (cluster cap mode).init s)
    (kept : (cluster cap mode).Meets PromotionsKept s actions)
    (run : (cluster cap mode).run s actions = some t) (leads : l ∈ (t.nodes n).leading)
    (names : t.Names n l.term) (idle : l.batch.isNone) :
    ∀ e ∈ t.written, IsWrite e → e ∈ (t.nodes n).store := by
  have inv := (cluster cap mode).run_invariant (I := ClusterState.Complete false)
    (fun inv here stepped => inv.kept here stepped) (ClusterState.Complete.init start) kept run
  rw [Node.leading] at leads
  split at leads
  · rename_i role
    cases leads
    have all := inv.hasAll_of_names role names (Option.isNone_iff_eq_none.mp idle)
    exact fun e mem isWrite => all e mem (Or.inr isWrite)
  · cases leads

theorem leader_hasAll_touchedFailover : ∃ t, (cluster 4 .quorum).run {} touchedFailover = some t ∧
    t.written = [putIn 2 1] ∧ ∀ e ∈ t.written, IsWrite e → e ∈ (t.nodes "b").store := by
  obtain ⟨t, run, written, l, leads, names, idle⟩ := System.exists_of_run
    (cluster 4 .quorum) {} touchedFailover (fun t => t.written = [putIn 2 1] ∧
      ∃ l ∈ (t.nodes "b").leading, t.Names "b" l.term ∧ l.batch.isNone) (by decide +kernel)
  exact ⟨t, run, written, leader_hasAll rfl (by decide +kernel) run leads names idle⟩

/-- The lock is not touched while `b` is connected, so `c`, which is partitioned from the
leader, finds a silent lock that knows of no write. -/
def partitioned : List ClusterAction :=
  [.tick (10 ^ 9), .start "a", .becomeLeader "a", .start "b", .start "c", .connect "b" "a",
    .connect "c" "a", .poll "a", .disconnect "c", .hangUp "a" "c", .onDisconnect "a", .poll "a",
    .append "a" [putIn 2 1] .ok, .commit "a", .wait "a", .receive "b" [putIn 2 1] .ok,
    .finish "a", .tick (6 * 10 ^ 9), .observe "c", .takeOver "c", .becomeLeader "c"]

theorem leader_misses_write : ∃ t, (cluster 4 .quorum).run {} partitioned = some t ∧
    ¬ LeadersComplete t := by
  obtain ⟨t, run, p, isPromotion, ofTerm, acked, empty⟩ := System.exists_of_run
    (cluster 4 .quorum) {} partitioned (fun t => ∃ p ∈ t.promotions,
      p.term = 3 ∧ p.acked = [putIn 2 1] ∧ p.store = [])
    (by decide +kernel)
  refine ⟨t, run, ?_⟩
  intro complete
  have held := complete p isPromotion (putIn 2 1) (by rw [acked]; exact mem_singleton_self _)
    (by decide) (by rw [ofTerm]; decide)
  rw [empty] at held
  cases held.1

end T4.Cluster
