import T4.Cluster.Completeness

/-!
# Runs with one leader

Runs in which whoever wins the first election and completes `becomeLeader` leads to the end:
the lock does not change hands, and the leader neither crashes nor fails to write its WAL.
Followers start, crash, connect, resync and attempt promotions as they like.

Such a run never leaves the conditions of `Complete`. For readers of a store the module adds
that its revision falls in a crash only.
-/

namespace T4.Cluster

open Lib Wal Election
open Peer (WaitMode acknowledged)

/-! ## The revision of a store -/

namespace Node

variable {b : Bucket} {node node' : Node} {entries : List Entry}

theorem currentRev_recover : currentRev node.store ≤ currentRev (node.recover entries).store := by
  rw [recover_store]
  exact currentRev_mono (List.subset_append_left _ _)

theorem currentRev_restoreIfBehind :
    currentRev node.store ≤ currentRev (node.restoreIfBehind b).store := by
  unfold restoreIfBehind
  split
  case h_1 => exact le_rfl
  case h_2 cp found => exact (Bucket.ahead_eq_some found).2.le

theorem currentRev_boot : currentRev node.store ≤ currentRev (node.boot b).store := by
  unfold boot
  split
  case h_1 => exact le_rfl
  case h_2 cp found =>
    obtain ⟨-, empty⟩ := of_decide_eq_true (Option.filter_eq_some_iff.mp found).2
    rw [empty]
    exact currentRev_nonneg

theorem currentRev_replayRemote (found : node.replayRemote b = some node') :
    currentRev node.store ≤ currentRev node'.store := by
  obtain ⟨batch, -, same⟩ := Option.map_eq_some_iff.mp found
  subst same
  exact currentRev_recover

theorem currentRev_caughtUp (found : node.caughtUp b = some node') :
    currentRev node.store ≤ currentRev node'.store :=
  currentRev_restoreIfBehind.trans (currentRev_replayRemote found)

theorem currentRev_abandoned {progress : Progress}
    (found : node.abandoned b progress = some node') :
    currentRev node.store ≤ currentRev node'.store := by
  cases progress with
  | begun =>
    cases found
    exact le_rfl
  | restored =>
    cases found
    exact currentRev_restoreIfBehind
  | replayed => exact currentRev_caughtUp found

theorem currentRev_opened (found : node.opened b = some node') :
    currentRev node.store ≤ currentRev node'.store := by
  have replayed : currentRev node.store ≤ currentRev (node.boot b).replayLocal.store :=
    currentRev_boot.trans currentRev_recover
  refine replayed.trans ?_
  simp only [opened] at found
  split at found
  case h_1 node'' remote =>
    have further := currentRev_replayRemote remote
    split at found
    case h_1 =>
      cases found
      exact further
    case h_2 => exact further.trans (currentRev_caughtUp found)
  case h_2 =>
    split at found
    case h_1 => cases found
    case h_2 => exact currentRev_caughtUp found

theorem currentRev_receive (batch : List Entry) (last : Entry) (outcome : Peer.Outcome)
    (fromRev : Int) (session : Session) : currentRev node.store ≤
      currentRev (node.receive batch last outcome fromRev session).store := by
  cases outcome with
  | ok => exact currentRev_mono (List.subset_append_left _ _)
  | walFails | ackFails | applyFails => exact le_rfl

theorem currentRev_resync (replays : Bool) (fromRev : Int) :
    currentRev node.store ≤ currentRev (node.resync b replays fromRev).store := by
  unfold resync
  extract_lets behind node'
  have restored : currentRev node.store ≤ currentRev node'.store := by
    unfold node'
    split
    · exact le_rfl
    · exact currentRev_restoreIfBehind
  split
  case h_1 => exact restored
  case h_2 replayed found =>
    cases replays with
    | false => cases found
    | true =>
      have further := currentRev_replayRemote found
      exact restored.trans further

theorem acknowledge_store (follower : String) (term : Nat) (seq : Int) :
    (node.acknowledge follower term seq).store = node.store := by
  unfold acknowledge
  split
  · split
    · rfl
    · rfl
  · rfl

theorem leads_of_acknowledge {follower : String} {term : Nat} {seq : Int} {l : Leading}
    (leads : (node.acknowledge follower term seq).role = .leader l) :
    ∃ l', node.role = .leader l' := by
  unfold acknowledge at leads
  split at leads
  case h_1 l' led => exact ⟨l', led⟩
  case h_2 => exact ⟨l, leads⟩

end Node

namespace ClusterState

variable {s t : ClusterState} {n : String} {node : Node}

/-- No store that is in use falls behind. -/
def Advances (s t : ClusterState) : Prop :=
  ∀ n, (t.nodes n).role ≠ .down → currentRev (s.nodes n).store ≤ currentRev (t.nodes n).store

theorem Advances.setNode (advances : s.Advances t)
    (here : node.role ≠ .down → currentRev (s.nodes n).store ≤ currentRev node.store) :
    s.Advances (t.setNode n node) :=
  setNode_cases (P := fun n node => node.role ≠ .down →
    currentRev (s.nodes n).store ≤ currentRev node.store) here advances

theorem Advances.refl : s.Advances s := fun _ _ => le_rfl

end ClusterState

open ClusterState in
/-- No step takes a store in use back: only the crash of its node can. -/
theorem ClusterEffect.advances {cap : Nat} {s t : ClusterState} {action : ClusterAction}
    (effect : ClusterEffect cap s action t) : s.Advances t := by
  cases effect with
  | tick | uploaded | collected | checkpointed => exact .refl
  | crash => exact Advances.refl.setNode (fun up => absurd rfl up)
  | reelected _ opened | joined _ _ opened =>
    have rises := Node.currentRev_opened opened
    exact Advances.refl.setNode (fun _ => rises)
  | stayed | tookOver | hungUp | appended | cancelled | failed | waited
  | committed => exact Advances.refl.setNode (fun _ => le_rfl)
  | becameLeader _ caughtUp =>
    have rises := Node.currentRev_caughtUp caughtUp
    exact Advances.refl.setNode (fun _ => rises)
  | abandoned _ found =>
    have rises := Node.currentRev_abandoned found
    exact Advances.refl.setNode (fun _ => rises)
  | connected =>
    refine Advances.setNode (Advances.refl.setNode ?_) ?_
    · exact fun _ => le_rfl
    · exact fun _ => le_rfl
  | checked =>
    unfold ClusterState.fencedCheck
    split
    · exact Advances.refl.setNode (fun _ => le_rfl)
    · exact Advances.refl.setNode (fun _ => le_rfl)
  | finished =>
    exact Advances.refl.setNode (fun _ => currentRev_mono (List.subset_append_left _ _))
  | received =>
    refine Advances.setNode (Advances.refl.setNode ?_) (fun _ => Node.currentRev_receive ..)
    intro _
    split
    · rw [Node.acknowledge_store]
    · exact le_rfl
  | resynced => exact Advances.refl.setNode (fun _ => Node.currentRev_resync ..)

/-! ## One leader -/

/-- The steps of a run with one leader: nobody takes the lock over, and the leader neither
crashes nor fails to write its WAL. -/
def LeaderStays (s : ClusterState) : ClusterAction → Prop
  | .crash n _ => (s.nodes n).leading.isNone
  | .takeOver n => ((ClusterState.handle n).takeOver (s.nodes n).term
      (currentRev (s.nodes n).store) s.observed).isOk = false
  | .append _ _ (.fails _) => False
  | _ => True

instance (s : ClusterState) (action : ClusterAction) : Decidable (LeaderStays s action) := by
  rcases action with _ | _ | _ | _ | _ | _ | _ | _ | _ | _ | _ | _ | _ | ⟨_, _, _ | _⟩ | _ <;>
    unfold LeaderStays <;> infer_instance

namespace ClusterState

variable {every : Bool} {s t : ClusterState} {n m : String} {node : Node} {l l' : Leading}
  {term term' : Nat}

/-- The lock names whoever is in office, and nothing is written before there is a leader. -/
structure Steady (s : ClusterState) : Prop where
  held : ∀ n, ∀ term ∈ (s.nodes n).office, s.Names n term
  led : s.written ≠ [] → ∃ m l, (s.nodes m).role = .leader l

theorem Names.unique (names : s.Names n term) (names' : s.Names m term') : n = m := by
  obtain ⟨record, isLock, owner, -⟩ := names
  obtain ⟨other, isOther, owner', -⟩ := names'
  cases isLock.symm.trans isOther
  exact owner.symm.trans owner'

/-- A step after which the cluster is steady and whoever led still leads. -/
structure Onward (s t : ClusterState) : Prop where
  steady : t.Steady
  leads : ∀ n l, (s.nodes n).role = .leader l → ∃ l', (t.nodes n).role = .leader l'

theorem Onward.trans {u : ClusterState} (first : s.Onward t) (second : t.Onward u) :
    s.Onward u := by
  refine ⟨second.steady, ?_⟩
  intro n l leads
  obtain ⟨l', leads'⟩ := first.leads n l leads
  exact second.leads n l' leads'

theorem Onward.of_same (inv : s.Steady) (nodes : t.nodes = s.nodes) (lock : t.lock = s.lock)
    (written : t.written = s.written) : s.Onward t := by
  refine ⟨⟨?_, ?_⟩, ?_⟩
  · unfold Names
    rw [nodes, lock]
    exact inv.held
  · rw [nodes, written]
    exact inv.led
  · intro n l leads
    exact ⟨l, by rw [nodes]; exact leads⟩

namespace Steady

theorem names_leader (inv : s.Steady) (leads : (s.nodes n).role = .leader l) :
    s.Names n l.term := by
  refine inv.held n l.term ?_
  rw [Node.office, leads]
  rfl

theorem names_elected {back : Option Int} (inv : s.Steady)
    (elected : (s.nodes n).role = .elected term back) : s.Names n term := by
  refine inv.held n term ?_
  rw [Node.office, elected]
  rfl

/-- While a node is elected and does not lead yet, nothing has been written. -/
theorem unwritten {back : Option Int} (inv : s.Steady)
    (elected : (s.nodes n).role = .elected term back) : s.written = [] := by
  by_contra some
  obtain ⟨m, l, leads⟩ := inv.led some
  cases (inv.names_leader leads).unique (inv.names_elected elected)
  cases leads.symm.trans elected

/-- A lock that nobody else owns, seen by a node out of office: nobody is in office. -/
theorem vacant (inv : s.Steady) (own : ∀ record ∈ s.lock, record.nodeID = n)
    (idle : (s.nodes n).office = none) :
    (∀ m, (s.nodes m).office = none) ∧ s.written = [] := by
  have none : ∀ m, (s.nodes m).office = none := by
    intro m
    rw [Option.eq_none_iff_forall_not_mem]
    intro term isOffice
    obtain ⟨record, isLock, owner, -⟩ := inv.held m term isOffice
    cases (own record isLock).symm.trans owner
    rw [idle] at isOffice
    cases isOffice
  refine ⟨none, ?_⟩
  by_contra some
  obtain ⟨m, l, leads⟩ := inv.led some
  have isNone := none m
  rw [Node.office, leads] at isNone
  cases isNone

theorem setNode (inv : s.Steady) (office : ∀ term ∈ node.office, s.Names n term)
    (leads : ∀ l, (s.nodes n).role = .leader l → ∃ l', node.role = .leader l') :
    s.Onward (s.setNode n node) := by
  have still : ∀ m l, (s.nodes m).role = .leader l →
      ∃ l', ((s.setNode n node).nodes m).role = .leader l' :=
    setNode_cases (P := fun m node => ∀ l, (s.nodes m).role = .leader l →
      ∃ l', node.role = .leader l') leads (fun _ l led => ⟨l, led⟩)
  refine ⟨⟨?_, ?_⟩, still⟩
  · exact setNode_cases (P := fun n node => ∀ term ∈ node.office, s.Names n term) office inv.held
  · intro some
    obtain ⟨m, l, led⟩ := inv.led some
    obtain ⟨l', leads'⟩ := still m l led
    exact ⟨m, l', leads'⟩

/-- A change of a node that does not lead, to one out of office. -/
theorem setIdle (inv : s.Steady) (idle : ∀ l, (s.nodes n).role ≠ .leader l)
    (office : node.office = none) : s.Onward (s.setNode n node) := by
  refine inv.setNode ?_ (fun l leads => absurd leads (idle l))
  intro term isOffice
  rw [office] at isOffice
  cases isOffice

/-- A leader goes on in its term. -/
theorem setLeader (inv : s.Steady) (leads : (s.nodes n).role = .leader l)
    (still : node.role = .leader l') (term : l'.term = l.term) :
    s.Onward (s.setNode n node) := by
  refine inv.setNode ?_ (fun _ _ => ⟨l', still⟩)
  intro other isOffice
  rw [Node.office, still] at isOffice
  cases isOffice
  rw [term]
  exact inv.names_leader leads

/-- The lock still names the leader, so the check passes. -/
theorem fencedCheck (inv : s.Steady) (leads : (s.nodes n).role = .leader l)
    (term : l'.term = l.term) (touch : Bool) : s.Onward (s.fencedCheck n l l' touch) := by
  have names := inv.names_leader leads
  have tuned : s.Onward (s.setNode n { s.nodes n with role := .leader l' }) :=
    inv.setLeader leads rfl term
  unfold ClusterState.fencedCheck
  rw [if_pos names]
  cases touch with
  | false => exact tuned
  | true =>
    refine ⟨⟨?_, tuned.steady.led⟩, tuned.leads⟩
    intro m other isOffice
    obtain ⟨record, isLock, owner, ofTerm⟩ := tuned.steady.held m other isOffice
    obtain ⟨record', isLock', owner', ofTerm'⟩ := names
    cases isLock.symm.trans isLock'
    exact ⟨_, rfl, owner'.symm.trans owner, ofTerm'.symm.trans ofTerm⟩

theorem acknowledge (inv : s.Steady) (follower : String) (term : Nat) (seq : Int) :
    s.Onward (s.setNode n ((s.nodes n).acknowledge follower term seq)) := by
  have same : s.Onward (s.setNode n (s.nodes n)) :=
    inv.setNode (inv.held n) (fun l leads => ⟨l, leads⟩)
  unfold Node.acknowledge
  split
  case h_1 l leads =>
    split
    · exact inv.setLeader leads rfl rfl
    · exact same
  case h_2 => exact same

theorem elect (inv : s.Steady) (own : ∀ record ∈ s.lock, record.nodeID = n)
    (idle : (s.nodes n).office = none) (office : node.office = some term) :
    s.Onward (s.elect n term node) := by
  obtain ⟨none, unwritten⟩ := inv.vacant own idle
  refine ⟨⟨?_, fun some => absurd unwritten some⟩, ?_⟩
  · refine setNode_cases (P := fun m node => ∀ term' ∈ node.office,
      Names (s.elect n term _) m term') ?_ ?_
    · intro other isOffice
      cases office.symm.trans isOffice
      exact ⟨_, rfl, rfl, rfl⟩
    · intro m other isOffice
      rw [none m] at isOffice
      cases isOffice
  · intro m l leads
    have isNone := none m
    rw [Node.office, leads] at isNone
    cases isNone

/-- While the leader stays, each step keeps it in office and the lock in its name. -/
theorem step {cap : Nat} {mode : WaitMode} {action : ClusterAction} (inv : s.Steady)
    (stays : LeaderStays s action) (stepped : clusterStep cap mode s action = some t) :
    s.Onward t := by
  cases ClusterEffect.of_step stepped with
  | tick | uploaded | collected | checkpointed => exact .of_same inv rfl rfl rfl
  | crash n count =>
    refine inv.setIdle ?_ rfl
    intro l leads
    simp only [LeaderStays, Node.leading, leads] at stays
    cases stays
  | @reelected n node term down opened won =>
    obtain ⟨-, own⟩ := Lock.tryAcquire_eq_ok won
    have idle : (s.nodes n).office = none := by rw [Node.office, down]
    exact inv.elect own idle rfl
  | joined _ down => exact inv.setIdle (fun l leads => by cases down.symm.trans leads) rfl
  | stayed follows => exact inv.setIdle (fun l leads => by cases follows.symm.trans leads) rfl
  | tookOver _ won =>
    simp only [LeaderStays, won] at stays
    cases stays
  | @becameLeader n term back node elected =>
    have led : s.Onward (s.setNode n (node.lead term)) := by
      refine inv.setNode ?_ (fun l leads => by cases elected.symm.trans leads)
      rintro other ⟨⟩
      exact inv.names_elected elected
    exact led.trans (.of_same led.steady rfl rfl rfl)
  | @abandoned n progress term back node role elected found returns =>
    refine inv.setIdle (fun l leads => by cases elected.symm.trans leads) ?_
    rcases returns with down | ⟨fromRev, -, follows⟩
    · rw [down]
      rfl
    · rw [follows]
      rfl
  | @connected n m fromRev cleared l follows leads =>
    have joined : s.Onward (s.setNode n { s.nodes n with
        role := .follower fromRev (some ⟨m, l.term⟩) false }) :=
      inv.setIdle (fun l leads => by cases follows.symm.trans leads) rfl
    have other : m ≠ n := by
      rintro rfl
      cases follows.symm.trans leads
    refine joined.trans (joined.steady.setLeader (l := l) ?_ rfl rfl)
    rw [setNode_of_ne other]
    exact leads
  | hungUp leads | cancelled leads | waited leads => exact inv.setLeader leads rfl rfl
  | @checked _ m l leads disconnected polling touch =>
    exact inv.fencedCheck leads (by rfl) touch
  | @appended m batch l leads =>
    have next : s.Onward (s.setNode m { s.nodes m with
        log := (s.nodes m).log ++ batch
        role := .leader { l.count batch with batch := some { entries := batch } } }) :=
      inv.setLeader leads rfl rfl
    exact ⟨⟨next.steady.held, fun _ => ⟨m, _, by rw [setNode_self]⟩⟩, next.leads⟩
  | failed => cases stays
  | @committed m l entries leads =>
    have next : s.Onward (s.setNode m { s.nodes m with role := .leader { l with
        buf := entries.foldl (Peer.pushBuffer cap) l.buf
        batch := some ⟨entries, .sent⟩ } }) :=
      inv.setLeader leads rfl rfl
    exact next.trans (.of_same next.steady rfl rfl rfl)
  | @finished m l entries acked required leads =>
    have next : s.Onward (s.setNode m { (s.nodes m).apply entries with
        role := .leader { l with batch := none } }) :=
      inv.setLeader leads rfl rfl
    exact next.trans (.of_same next.steady rfl rfl rfl)
  | @received n batch outcome fromRev session cleared last follows =>
    have told : s.Onward (s.setNode session.leader (if acknowledged outcome then
        (s.nodes session.leader).acknowledge n session.term last.sequence
        else s.nodes session.leader)) := by
      split
      · exact inv.acknowledge ..
      · exact inv.setNode (inv.held _) (fun l leads => ⟨l, leads⟩)
    refine told.trans (told.steady.setIdle ?_ ?_)
    · intro l leads
      by_cases self : n = session.leader
      · rw [← self, setNode_self] at leads
        split at leads
        · obtain ⟨l', led⟩ := Node.leads_of_acknowledge leads
          cases follows.symm.trans led
        · cases follows.symm.trans leads
      · rw [setNode_of_ne self] at leads
        cases follows.symm.trans leads
    · cases outcome with
      | ok => rfl
      | walFails => rfl
      | ackFails => rfl
      | applyFails => rfl
  | @resynced n replays fromRev session cleared follows =>
    refine inv.setIdle (fun l leads => by cases follows.symm.trans leads) ?_
    simp only [Node.resync]
    split
    · rfl
    · rfl

/-- A leader appends while the lock names it, and is promoted before anything is written. -/
theorem sequencesKept {cap : Nat} {mode : WaitMode} {action : ClusterAction} (inv : s.Steady)
    (stepped : clusterStep cap mode s action = some t) : SequencesKept s action := by
  cases action with
  | append m batch outcome =>
    intro l isLeading
    cases role : (s.nodes m).role with
    | leader l' =>
      rw [Node.leading, role] at isLeading
      cases isLeading
      exact inv.names_leader role
    | _ =>
      rw [Node.leading, role] at isLeading
      cases isLeading
  | becomeLeader n =>
    intro e mem
    cases role : (s.nodes n).role with
    | elected term back =>
      rw [inv.unwritten role] at mem
      cases mem
    | _ =>
      simp only [clusterStep, role] at stepped
      cases stepped
  | _ => trivial

end Steady

variable {cap : Nat} {mode : WaitMode}

/-- The nodes stay complete, since nobody takes the lock over. -/
theorem Complete.onward {action : ClusterAction} (inv : s.Complete every) (steady : s.Steady)
    (stays : LeaderStays s action) (stepped : clusterStep cap mode s action = some t) :
    t.Complete every := by
  by_cases takes : ∃ n, action = .takeOver n
  · obtain ⟨n, rfl⟩ := takes
    cases ClusterEffect.of_step stepped with
    | tookOver _ won =>
      simp only [LeaderStays, won] at stays
      cases stays
    | stayed follows term cleared =>
      exact inv.setNode (inv.base.setRole (fun _ same => nomatch same))
        ((inv.nodes _).stay follows term none cleared)
    | @checked _ m l leads disconnected polling touch =>
      exact inv.fencedCheck leads { l with disconnected, polling } rfl rfl rfl rfl touch
  · exact inv.step (steady.sequencesKept stepped) (fun n same => absurd ⟨n, same⟩ takes) stepped

theorem Steady.init (start : (cluster cap mode).init s) : s.Steady := by
  cases start
  refine ⟨?_, fun some => absurd rfl some⟩
  intro n term isOffice
  cases isOffice

/-- Nobody else leads after the step. -/
theorem Onward.unique (onward : s.Onward t) (led : (s.nodes n).role = .leader l)
    (leads : (t.nodes m).role = .leader l') : n = m := by
  obtain ⟨l'', still⟩ := onward.leads n l led
  exact (onward.steady.names_leader still).unique (onward.steady.names_leader leads)

theorem Onward.led (onward : s.Onward t) (steady : s.Steady) (some : s.written ≠ [])
    (leads : (t.nodes n).role = .leader l) : ∃ l', (s.nodes n).role = .leader l' := by
  obtain ⟨m, l', led⟩ := steady.led some
  cases onward.unique led leads
  exact ⟨l', led⟩

/-- What a step writes comes from the batch that is appended. -/
def Batched (part : List Entry) (action : ClusterAction) : Prop :=
  ∀ e ∈ part, ∃ m batch outcome, action = .append m batch outcome ∧ e ∈ batch

/-- A step writes at most one batch, with sequences above all before it. -/
theorem Complete.written_append {action : ClusterAction} (inv : s.Complete every)
    (steady : s.Steady) (stepped : clusterStep cap mode s action = some t) :
    ∃ part, t.written = s.written ++ part ∧ Batched part action ∧ Newer s.written part := by
  have same : ∃ part, s.written = s.written ++ part ∧ Batched part action ∧ Newer s.written part :=
    ⟨[], (List.append_nil _).symm, (fun e mem => nomatch mem), (fun e mem => nomatch mem)⟩
  cases ClusterEffect.of_step stepped with
  | @appended m batch l leads idle assigned =>
    refine ⟨batch, rfl, fun e mem => ⟨m, batch, .ok, rfl, mem⟩, ?_⟩
    exact (inv.newer leads (steady.names_leader leads) assigned (List.prefix_refl _)).1
  | @failed m batch l count leads idle assigned =>
    refine ⟨batch.take count, rfl, ?_, ?_⟩
    · exact fun e mem => ⟨m, batch, .fails count, rfl, List.mem_of_mem_take mem⟩
    · exact (inv.newer leads (steady.names_leader leads) assigned (List.take_prefix count batch)).1
  | checked =>
    unfold ClusterState.fencedCheck
    split
    · exact same
    · exact same
  | _ => exact same

end ClusterState

end T4.Cluster
