import T4.Cluster.Model

/-!
# Agreement of stores across leader changes

Everything that any store, WAL or object holds was written by some leader (`Inv`), and as
long as each leader starts above all sequences that were ever written, and leaders that
were replaced write nothing, a sequence is written once.
-/

namespace T4.Cluster

open Lib Wal Election List
open Peer (WaitMode acknowledged)
open Remote (collected exists_mem_mergeEntries)

/-- Any two nodes that have applied an entry of the same sequence have applied the same
entry. -/
def StoresAgree (s : ClusterState) : Prop :=
  ∀ n m, ∀ e ∈ (s.nodes n).applied, ∀ e' ∈ (s.nodes m).applied,
    e.sequence = e'.sequence → e = e'

/-! ## What nodes hold -/

/-- Whatever the node holds was written. -/
structure Node.Within (written : List Entry) (node : Node) : Prop where
  store : node.store ⊆ written
  log : node.log ⊆ written
  applied : node.applied ⊆ written

structure Bucket.Within (written : List Entry) (b : Bucket) : Prop where
  objects : ∀ p ∈ b.objects, p.items ⊆ written
  checkpoint : ∀ cp ∈ b.checkpoint, cp.store ⊆ written

namespace Node.Within

variable {written entries : List Entry} {node node' : Node} {b : Bucket}

theorem mono (within : node.Within entries) (grows : entries ⊆ written) : node.Within written :=
  ⟨List.Subset.trans within.store grows, List.Subset.trans within.log grows,
    List.Subset.trans within.applied grows⟩

theorem apply (within : node.Within written) (sub : entries ⊆ written) :
    (node.apply entries).Within written :=
  ⟨append_subset.mpr ⟨within.store, sub⟩, within.log,
    append_subset.mpr ⟨within.applied, sub⟩⟩

theorem recover (within : node.Within written) (sub : entries ⊆ written) :
    (node.recover entries).Within written := by
  unfold Node.recover
  split
  · exact within
  · have applied := within.apply sub
    exact ⟨applied.store, applied.log, applied.applied⟩

theorem restore (within : node.Within written) {cp : Checkpoint} (sub : cp.store ⊆ written) :
    (node.restore cp).Within written :=
  ⟨sub, within.log, append_subset.mpr ⟨within.applied, sub⟩⟩

theorem restoreIfBehind (within : node.Within written) (bucket : b.Within written) :
    (node.restoreIfBehind b).Within written := by
  unfold Node.restoreIfBehind
  split
  case h_1 => exact within
  case h_2 cp found =>
    exact within.restore (bucket.checkpoint cp (Bucket.ahead_eq_some found).1)

theorem boot (within : node.Within written) (bucket : b.Within written) :
    (node.boot b).Within written := by
  unfold Node.boot
  split
  case h_1 => exact ⟨within.store, within.log, within.applied⟩
  case h_2 cp found =>
    have restored := within.restore (bucket.checkpoint cp (Option.filter_eq_some_iff.mp found).1)
    exact ⟨restored.store, restored.log, restored.applied⟩

theorem replayRemote (within : node.Within written) (bucket : b.Within written)
    (found : node.replayRemote b = some node') : node'.Within written := by
  obtain ⟨batch, replayed, same⟩ := Option.map_eq_some_iff.mp found
  subst same
  refine within.recover ?_
  intro e mem
  obtain ⟨p, isObject, inP⟩ := (Bucket.replay_spec replayed).2 e mem
  exact bucket.objects p isObject inP

theorem caughtUp (within : node.Within written) (bucket : b.Within written)
    (found : node.caughtUp b = some node') : node'.Within written :=
  (within.restoreIfBehind bucket).replayRemote bucket found

theorem abandoned (within : node.Within written) (bucket : b.Within written) {progress : Progress}
    (found : node.abandoned b progress = some node') : node'.Within written := by
  cases progress with
  | begun =>
    cases found
    exact within
  | restored =>
    cases found
    exact within.restoreIfBehind bucket
  | replayed => exact within.caughtUp bucket found

theorem opened (within : node.Within written) (bucket : b.Within written)
    (found : node.opened b = some node') : node'.Within written := by
  have booted := within.boot bucket
  have replayed : (node.boot b).replayLocal.Within written :=
    booted.recover (List.Subset.trans filter_sublist.subset booted.log)
  simp only [Node.opened] at found
  split at found
  case h_1 node'' remote =>
    have within' := replayed.replayRemote bucket remote
    split at found
    case h_1 =>
      cases found
      exact within'
    case h_2 => exact within'.caughtUp bucket found
  case h_2 =>
    split at found
    case h_1 => cases found
    case h_2 => exact replayed.caughtUp bucket found

theorem crash (within : node.Within written) (kept : Nat) : (node.crash kept).Within written :=
  ⟨List.Subset.trans (take_subset _ _) within.store, within.log, within.applied⟩

theorem receive (within : node.Within written) (sub : entries ⊆ written) (last : Entry)
    (outcome : Peer.Outcome) (fromRev : Int) (session : Session) :
    (node.receive entries last outcome fromRev session).Within written := by
  have logged : ∀ batch ⊆ entries, node.log ++ batch ⊆ written := fun batch part =>
    append_subset.mpr ⟨within.log, List.Subset.trans part sub⟩
  have whole := logged entries (List.Subset.refl _)
  cases outcome with
  | walFails count => exact ⟨within.store, logged _ (take_subset _ _), within.applied⟩
  | ackFails | applyFails => exact ⟨within.store, whole, within.applied⟩
  | ok => exact ⟨(within.apply sub).store, whole, (within.apply sub).applied⟩

theorem resync (within : node.Within written) (bucket : b.Within written) (replays : Bool)
    (fromRev : Int) : (node.resync b replays fromRev).Within written := by
  unfold Node.resync
  extract_lets behind node'
  have restored : node'.Within written := by
    unfold node'
    split
    · exact within
    · have moved := within.restoreIfBehind bucket
      exact ⟨moved.store, nil_subset _, moved.applied⟩
  split
  case h_1 => exact ⟨restored.store, restored.log, restored.applied⟩
  case h_2 found =>
    cases replays with
    | false => cases found
    | true =>
      have replayed := restored.replayRemote bucket found
      exact ⟨replayed.store, replayed.log, replayed.applied⟩

end Node.Within

theorem Node.receive_role (node : Node) (batch : List Entry) (last : Entry)
    (outcome : Peer.Outcome) (fromRev : Int) (session : Session) (l : Leading) :
    (node.receive batch last outcome fromRev session).role ≠ .leader l := by
  cases outcome with
  | ok | walFails | ackFails | applyFails => exact fun same => nomatch same

theorem Node.resync_role (b : Bucket) (node : Node) (replays : Bool) (fromRev : Int)
    (l : Leading) : (node.resync b replays fromRev).role ≠ .leader l := by
  simp only [Node.resync]
  split
  · exact fun same => nomatch same
  · exact fun same => nomatch same

/-! ## The invariant -/

/-- The counters of a leader that the lock names are above everything written. -/
def ClusterState.Counts (s : ClusterState) (n : String) (node : Node) : Prop :=
  ∀ l, node.role = .leader l →
    0 ≤ l.nextSeq ∧ (s.Names n l.term → ∀ e ∈ s.written, e.sequence ≤ l.nextSeq)

structure ClusterState.Inv (s : ClusterState) : Prop where
  sorted : s.written.Pairwise (fun a b => a.sequence < b.sequence)
  nodes : ∀ n, (s.nodes n).Within s.written
  unapplied : ∀ n, (s.nodes n).unapplied ⊆ s.written
  counts : ∀ n, s.Counts n (s.nodes n)
  committed : ∀ term, s.committed term ⊆ s.written
  bucket : s.bucket.Within s.written

namespace ClusterState

variable {s t : ClusterState} {n m : String} {node : Node} {l l' : Leading}

@[simp]
theorem setNode_self : (s.setNode n node).nodes n = node := Function.update_self ..

theorem setNode_of_ne (other : m ≠ n) : (s.setNode n node).nodes m = s.nodes m :=
  Function.update_of_ne other ..

theorem setNode_cases {P : String → Node → Prop} (here : P n node)
    (others : ∀ m, P m (s.nodes m)) (m : String) : P m ((s.setNode n node).nodes m) := by
  by_cases same : m = n
  · subst same
    rw [setNode_self]
    exact here
  · rw [setNode_of_ne same]
    exact others m

theorem Inv.setNode (inv : s.Inv) (within : node.Within s.written)
    (unapplied : node.unapplied ⊆ s.written) (counts : s.Counts n node) : (s.setNode n node).Inv :=
  ⟨inv.sorted, setNode_cases (P := fun _ node => node.Within s.written) within inv.nodes,
    setNode_cases (P := fun _ node => node.unapplied ⊆ s.written) unapplied inv.unapplied,
    setNode_cases (P := fun n node => s.Counts n node) counts inv.counts,
    inv.committed, inv.bucket⟩

theorem Inv.retire (inv : s.Inv) (within : node.Within s.written)
    (idle : ∀ l, node.role ≠ .leader l) : (s.setNode n node).Inv := by
  refine inv.setNode within ?_ (fun l leads => absurd leads (idle l))
  unfold Node.unapplied
  split
  case h_1 l leads => exact absurd leads (idle l)
  case h_2 => exact nil_subset _

theorem Inv.setRole (inv : s.Inv) {role : Role} {term : Nat} (idle : ∀ l, role ≠ .leader l) :
    (s.setNode n { s.nodes n with term, role }).Inv :=
  inv.retire ⟨(inv.nodes n).store, (inv.nodes n).log, (inv.nodes n).applied⟩ idle

theorem Inv.tune (inv : s.Inv) (leads : (s.nodes n).role = .leader l) (l' : Leading)
    (term : l'.term = l.term) (nextSeq : l'.nextSeq = l.nextSeq)
    (batch : (l'.batch.map Pending.entries).getD [] = (l.batch.map Pending.entries).getD []) :
    (s.setNode n { s.nodes n with role := .leader l' }).Inv := by
  have within := inv.nodes n
  have unapplied := inv.unapplied n
  have counts := inv.counts n l leads
  refine inv.setNode ⟨within.store, within.log, within.applied⟩ ?_ ?_
  · simp only [Node.unapplied, leads] at unapplied
    simp only [Node.unapplied, batch]
    exact unapplied
  · intro l'' same
    cases same
    rw [term, nextSeq]
    exact counts

theorem Inv.acknowledge (inv : s.Inv) (follower : String) (term : Nat) (seq : Int) :
    (s.setNode n ((s.nodes n).acknowledge follower term seq)).Inv := by
  have same : (s.setNode n (s.nodes n)).Inv :=
    inv.setNode (inv.nodes n) (inv.unapplied n) (inv.counts n)
  unfold Node.acknowledge
  split
  case h_1 l leads =>
    split
    · exact inv.tune leads _ rfl rfl rfl
    · exact same
  case h_2 => exact same

theorem Inv.setLock (inv : s.Inv) {lock : Option LockRecord}
    (named : ∀ n l, (s.nodes n).role = .leader l →
      ({ s with lock } : ClusterState).Names n l.term → s.Names n l.term) :
    ({ s with lock } : ClusterState).Inv := by
  refine ⟨inv.sorted, inv.nodes, inv.unapplied, ?_, inv.committed, inv.bucket⟩
  intro n l leads
  obtain ⟨positive, above⟩ := inv.counts n l leads
  exact ⟨positive, fun names => above (named n l leads names)⟩

theorem Inv.fencedCheck (inv : s.Inv) (leads : (s.nodes n).role = .leader l) (l' : Leading)
    (term : l'.term = l.term) (nextSeq : l'.nextSeq = l.nextSeq)
    (batch : (l'.batch.map Pending.entries).getD [] = (l.batch.map Pending.entries).getD [])
    (touch : Bool) : (s.fencedCheck n l l' touch).Inv := by
  unfold ClusterState.fencedCheck
  split
  case isTrue names =>
    refine (inv.tune leads l' term nextSeq batch).setLock ?_
    intro m l'' _ still
    cases touch with
    | false => exact still
    | true =>
      obtain ⟨record, held, owner, ofTerm⟩ := still
      cases held
      obtain ⟨old, isOld, oldOwner, oldTerm⟩ := names
      exact ⟨old, isOld, oldOwner.trans owner, oldTerm.trans ofTerm⟩
  case isFalse => exact inv.setRole (fun _ same => nomatch same)

theorem Inv.elect (inv : s.Inv) {term : Nat} (within : node.Within s.written)
    (idle : ∀ l, node.role ≠ .leader l) : (s.elect n term node).Inv := by
  refine (inv.retire within idle).setLock ?_
  intro m l leads names
  obtain ⟨record, held, owner, -⟩ := names
  cases held
  cases owner
  have here : ((s.setNode n node).nodes n).role = .leader l := leads
  rw [setNode_self] at here
  exact absurd here (idle l)

/-! ## Appending -/

theorem sequence_of_pos {e : Entry} (positive : 0 < e.id) : e.sequence = e.id := by
  rw [Entry.sequence, if_pos positive.ne']

theorem assigned_spec {term : Nat} {nextSeq nextRev : Int} {batch : List Entry}
    (positive : 0 ≤ nextSeq) (assigned : Assigned term nextSeq nextRev batch) :
    nextSeq ≤ batch.foldl (fun _ e => e.id) nextSeq ∧
      batch.Pairwise (fun a b => a.sequence < b.sequence) ∧
      ∀ e ∈ batch, nextSeq < e.sequence ∧ e.sequence ≤ batch.foldl (fun _ e => e.id) nextSeq := by
  induction batch generalizing nextSeq nextRev with
  | nil => exact ⟨le_rfl, .nil, fun e mem => absurd mem not_mem_nil⟩
  | cons e rest ih =>
    obtain ⟨-, next, -, later⟩ := assigned
    have number : e.sequence = e.id := sequence_of_pos (by omega)
    obtain ⟨grows, sorted, bounds⟩ := ih (by omega) later
    rw [foldl_cons]
    refine ⟨by omega, pairwise_cons.mpr ⟨?_, sorted⟩, forall_mem_cons.mpr ⟨?_, ?_⟩⟩
    · intro other mem
      have := (bounds other mem).1
      omega
    · omega
    · intro other mem
      have := bounds other mem
      omega

theorem Inv.write (inv : s.Inv) (leads : (s.nodes n).role = .leader l)
    (names : s.Names n l.term) {batch part : List Entry}
    (assigned : Assigned l.term l.nextSeq l.nextRev batch) (isPart : part <+: batch)
    (within : node.Within (s.written ++ part)) (unapplied : node.unapplied ⊆ s.written ++ part)
    (counts : ∀ l', node.role = .leader l' →
      l'.term = l.term ∧ l'.nextSeq = (l.count batch).nextSeq) :
    Inv { s.setNode n node with written := s.written ++ part } := by
  obtain ⟨positive, above⟩ := inv.counts n l leads
  obtain ⟨grows, sorted, bounds⟩ := assigned_spec positive assigned
  have more : s.written ⊆ s.written ++ part := subset_append_left _ _
  refine ⟨?_, ?_, ?_, ?_, ?_, ?_⟩
  · refine pairwise_append.mpr ⟨inv.sorted, sorted.sublist isPart.sublist, ?_⟩
    intro old isOld new isNew
    exact (above names old isOld).trans_lt (bounds new (isPart.subset isNew)).1
  · exact setNode_cases (P := fun _ node => node.Within (s.written ++ part)) within
      (fun m => (inv.nodes m).mono more)
  · exact setNode_cases (P := fun _ node => node.unapplied ⊆ s.written ++ part) unapplied
      (fun m => List.Subset.trans (inv.unapplied m) more)
  · intro m l' leads'
    by_cases same : m = n
    · subst same
      have here : ((s.setNode m node).nodes m).role = .leader l' := leads'
      rw [setNode_self] at here
      obtain ⟨-, next⟩ := counts l' here
      have upTo : ∀ e ∈ s.written ++ part, e.sequence ≤ (l.count batch).nextSeq := by
        intro e mem
        rcases mem_append.mp mem with old | new
        · exact (above names e old).trans grows
        · exact (bounds e (isPart.subset new)).2
      rw [next]
      exact ⟨positive.trans grows, fun _ => upTo⟩
    · have there : ((s.setNode n node).nodes m).role = .leader l' := leads'
      rw [setNode_of_ne same] at there
      obtain ⟨positive', -⟩ := inv.counts m l' there
      refine ⟨positive', ?_⟩
      rintro ⟨record, held, owner, -⟩
      obtain ⟨record', held', owner', -⟩ := names
      cases held.symm.trans held'
      exact absurd (owner.symm.trans owner') same
  · exact fun term => List.Subset.trans (inv.committed term) more
  · exact ⟨fun p mem => List.Subset.trans (inv.bucket.objects p mem) more,
      fun cp mem => List.Subset.trans (inv.bucket.checkpoint cp mem) more⟩

end ClusterState

/-! ## Steps -/

/-- The data directory or the bucket reaches a sequence: the WAL does, the store or a newer
checkpoint, or a segment above these that no later term cuts off. -/
def Reaches (b : Bucket) (node : Node) (seq : Int) : Prop :=
  let store := (b.ahead node.store).elim node.store Checkpoint.store
  seq ≤ lastSeq node.log ∨ seq ≤ lastSeq store ∨
    ∃ e ∈ collected b.objects (lastSeq store), seq ≤ e.sequence

instance (b : Bucket) (node : Node) (seq : Int) : Decidable (Reaches b node seq) :=
  inferInstanceAs (Decidable (_ ∨ _ ∨ _))

theorem Reaches.le_nextSeq {b : Bucket} {node node' : Node} {seq : Int}
    (reaches : Reaches b node seq) (found : node.caughtUp b = some node') :
    seq ≤ node'.nextSeq := by
  have restored : (node.restoreIfBehind b).store =
      (b.ahead node.store).elim node.store Checkpoint.store ∧
      (node.restoreIfBehind b).log = node.log := by
    unfold Node.restoreIfBehind
    cases b.ahead node.store <;> exact ⟨rfl, rfl⟩
  obtain ⟨batch, replayed, same⟩ := Option.map_eq_some_iff.mp found
  subst same
  rw [Node.nextSeq, Node.recover_store, Node.recover_log, restored.2, lastSeq_append, restored.1]
  rcases reaches with logged | stored | ⟨e, listed, upTo⟩
  · exact logged.trans (le_max_right _ _)
  · exact stored.trans ((le_max_left _ _).trans (le_max_left _ _))
  · rw [restored.1] at replayed
    obtain ⟨e', mem, same, -⟩ := exists_mem_mergeEntries listed
    have held := le_lastSeq ((Bucket.replay_eq replayed).1 ▸ mem)
    rw [same] at held
    exact upTo.trans (held.trans ((le_max_right _ _).trans (le_max_left _ _)))

/-- The steps under which no sequence is written twice: a leader appends only while the lock
names it, and the data directory of a node that becomes leader, or the bucket, reaches
everything that was written. -/
def SequencesKept (s : ClusterState) : ClusterAction → Prop
  | .append m _ _ => ∀ l ∈ (s.nodes m).leading, s.Names m l.term
  | .becomeLeader n => ∀ e ∈ s.written, Reaches s.bucket (s.nodes n) e.sequence
  | _ => True

instance (s : ClusterState) (action : ClusterAction) : Decidable (SequencesKept s action) := by
  cases action <;> unfold SequencesKept <;> infer_instance

theorem SequencesKept.names {s : ClusterState} {m : String} {batch : List Entry}
    {outcome : AppendOutcome} {l : Leading} (kept : SequencesKept s (.append m batch outcome))
    (leads : (s.nodes m).role = .leader l) : s.Names m l.term := by
  refine kept l ?_
  rw [Node.leading, leads]
  rfl

namespace ClusterState

variable {s t : ClusterState} {n m : String} {node : Node} {l l' : Leading}

theorem Inv.step {cap : Nat} {mode : WaitMode} {action : ClusterAction} (inv : s.Inv)
    (kept : SequencesKept s action) (stepped : clusterStep cap mode s action = some t) :
    t.Inv := by
  cases ClusterEffect.of_step stepped with
  | tick ns =>
    exact ⟨inv.sorted, inv.nodes, inv.unapplied, inv.counts, inv.committed, inv.bucket⟩
  | crash n count => exact inv.retire ((inv.nodes n).crash count) (fun _ same => nomatch same)
  | @reelected n node term down opened won =>
    have within := (inv.nodes n).opened inv.bucket opened
    exact inv.elect ⟨within.store, within.log, within.applied⟩ (fun _ same => nomatch same)
  | @joined n node term down opened =>
    have within := (inv.nodes n).opened inv.bucket opened
    exact inv.retire ⟨within.store, within.log, within.applied⟩ (fun _ same => nomatch same)
  | stayed => exact inv.setRole (fun _ same => nomatch same)
  | @tookOver n fromRev term follows won =>
    have within := inv.nodes n
    exact inv.elect ⟨within.store, within.log, within.applied⟩ (fun _ same => nomatch same)
  | @becameLeader n term back node elected caughtUp =>
    have within := (inv.nodes n).caughtUp inv.bucket caughtUp
    have led : (s.setNode n (node.lead term)).Inv := by
      refine inv.setNode ⟨within.store, within.log, within.applied⟩ (nil_subset _) ?_
      intro l leads
      cases leads
      exact ⟨lastSeq_nonneg.trans (le_max_left _ _), fun _ e mem =>
        (kept e mem).le_nextSeq caughtUp⟩
    exact ⟨led.sorted, led.nodes, led.unapplied, led.counts, led.committed, led.bucket⟩
  | @abandoned n progress term back node role elected found returns =>
    have within := (inv.nodes n).abandoned inv.bucket found
    refine inv.retire ⟨within.store, within.log, within.applied⟩ ?_
    intro l leads
    cases leads
    rcases returns with down | ⟨fromRev, -, follows⟩
    · cases down
    · cases follows
  | @connected n m fromRev cleared l follows leads =>
    have other : m ≠ n := by
      rintro rfl
      rw [follows] at leads
      cases leads
    have joined : (s.setNode n { s.nodes n with
        role := .follower fromRev (some ⟨m, l.term⟩) false }).Inv :=
      inv.setRole (fun _ same => nomatch same)
    rw [← setNode_of_ne other] at leads
    have still := joined.tune leads
      { l with followers := (n, l.ack n) :: l.followers.filter (fun f => f.1 ≠ n) } rfl rfl rfl
    rw [setNode_of_ne other] at still
    exact still
  | hungUp leads => exact inv.tune leads _ rfl rfl rfl
  | @checked _ m l leads disconnected polling touch =>
    exact inv.fencedCheck leads { l with disconnected, polling } rfl rfl rfl touch
  | @appended m batch l leads idle assigned =>
    have within := (inv.nodes m).mono (subset_append_left s.written batch)
    refine inv.write leads (kept.names leads) assigned (prefix_refl _) ?_ ?_ ?_
    · refine ⟨within.store, ?_, within.applied⟩
      exact append_subset.mpr ⟨within.log, subset_append_right _ _⟩
    · exact subset_append_right _ _
    · intro l' same
      cases same
      exact ⟨rfl, rfl⟩
  | @cancelled m batch l leads idle assigned =>
    have within := (inv.nodes m).mono (subset_append_left s.written [])
    have unapplied := inv.unapplied m
    simp only [Node.unapplied, leads] at unapplied
    have counted : Inv { s.setNode m { s.nodes m with role := .leader (l.count batch) } with
        written := s.written ++ [] } := by
      refine inv.write leads (kept.names leads) assigned nil_prefix ?_ ?_ ?_
      · exact ⟨within.store, within.log, within.applied⟩
      · rw [append_nil]
        exact unapplied
      · intro l' same
        cases same
        exact ⟨rfl, rfl⟩
    rw [append_nil] at counted
    exact counted
  | @failed m batch l count leads idle assigned =>
    have within := (inv.nodes m).mono (subset_append_left s.written (batch.take count))
    refine inv.write leads (kept.names leads) assigned (List.take_prefix count batch) ?_ ?_ ?_
    · refine ⟨within.store, ?_, within.applied⟩
      exact append_subset.mpr ⟨within.log, subset_append_right _ _⟩
    · exact nil_subset _
    · exact fun _ same => nomatch same
  | @committed m l entries leads batch =>
    have unapplied := inv.unapplied m
    simp only [Node.unapplied, leads, batch] at unapplied
    have tuned := inv.tune leads { l with
      buf := entries.foldl (Peer.pushBuffer cap) l.buf
      batch := some ⟨entries, .sent⟩ } rfl rfl (by rw [batch]; rfl)
    refine ⟨tuned.sorted, tuned.nodes, tuned.unapplied, tuned.counts, ?_, tuned.bucket⟩
    intro term
    dsimp only
    by_cases same : term = l.term
    · subst same
      rw [Function.update_self]
      exact append_subset.mpr ⟨inv.committed l.term, unapplied⟩
    · rw [Function.update_of_ne same]
      exact inv.committed term
  | waited leads batch => exact inv.tune leads _ rfl rfl (by rw [batch]; rfl)
  | @finished m l entries acked required leads batch told =>
    have unapplied := inv.unapplied m
    simp only [Node.unapplied, leads, batch] at unapplied
    have within := (inv.nodes m).apply unapplied
    have done : (s.setNode m { (s.nodes m).apply entries with
        role := .leader { l with batch := none } }).Inv := by
      refine inv.setNode ⟨within.store, within.log, within.applied⟩ (nil_subset _) ?_
      intro l' same
      cases same
      exact inv.counts m l leads
    exact ⟨done.sorted, done.nodes, done.unapplied, done.counts, done.committed, done.bucket⟩
  | @received n batch outcome fromRev session cleared last follows isLast sub numbered =>
    have told : (s.setNode session.leader (if acknowledged outcome then
        (s.nodes session.leader).acknowledge n session.term last.sequence
        else s.nodes session.leader)).Inv := by
      split
      · exact inv.acknowledge n session.term last.sequence
      · exact inv.setNode (inv.nodes _) (inv.unapplied _) (inv.counts _)
    refine told.retire ?_ (Node.receive_role _ _ _ _ _ _)
    exact (inv.nodes n).receive (List.Subset.trans sub (inv.committed _)) last outcome fromRev
      session
  | @resynced n replays fromRev session cleared follows =>
    exact inv.retire ((inv.nodes n).resync inv.bucket replays fromRev) (Node.resync_role _ _ _ _)
  | @uploaded n segment logged =>
    refine ⟨inv.sorted, inv.nodes, inv.unapplied, inv.counts, inv.committed, ?_,
      inv.bucket.checkpoint⟩
    intro p mem
    rcases mem_append.mp mem with old | new
    · exact inv.bucket.objects p (mem_filter.mp old).1
    · cases mem_singleton.mp new
      exact List.Subset.trans logged (inv.nodes n).log
  | collected doomed =>
    refine ⟨inv.sorted, inv.nodes, inv.unapplied, inv.counts, inv.committed, ?_,
      inv.bucket.checkpoint⟩
    exact fun p mem => inv.bucket.objects p (mem_filter.mp mem).1
  | @checkpointed m l leads =>
    refine ⟨inv.sorted, inv.nodes, inv.unapplied, inv.counts, inv.committed,
      inv.bucket.objects, ?_⟩
    intro cp isCheckpoint
    cases isCheckpoint
    exact (inv.nodes m).store

end ClusterState

/-! ## Every run -/

theorem ClusterState.Inv.init {cap : Nat} {mode : WaitMode} {s : ClusterState}
    (start : (cluster cap mode).init s) : s.Inv := by
  cases start
  refine ⟨.nil, ?_, ?_, ?_, ?_, ?_, ?_⟩
  · exact fun n => ⟨nil_subset _, nil_subset _, nil_subset _⟩
  · exact fun n => nil_subset _
  · exact fun n l leads => nomatch leads
  · exact fun term => nil_subset _
  · exact fun p mem => nomatch mem
  · exact fun cp mem => nomatch mem

/-- In every run whose steps keep the sequences, the stores agree. -/
theorem stores_agree {cap : Nat} {mode : WaitMode} {s t : ClusterState}
    {actions : List ClusterAction} (start : (cluster cap mode).init s)
    (kept : (cluster cap mode).Meets SequencesKept s actions)
    (run : (cluster cap mode).run s actions = some t) : StoresAgree t := by
  have inv : t.Inv := (cluster cap mode).run_invariant (I := ClusterState.Inv)
    (fun inv here stepped => inv.step here stepped) (ClusterState.Inv.init start) kept run
  intro n m e mem e' mem' same
  exact eq_of_sorted_number inv.sorted ((inv.nodes n).applied mem) ((inv.nodes m).applied mem') same

def putIn (term : Nat) (seq : Int) : Entry :=
  { id := seq, revision := seq, term, op := Op.create }

def twoNodes : List ClusterAction :=
  [.tick (10 ^ 9), .start "a", .becomeLeader "a", .start "b", .connect "b" "a"]

def failover : List ClusterAction :=
  [.crash "a" 0, .disconnect "b", .tick (6 * 10 ^ 9), .observe "b", .takeOver "b",
    .becomeLeader "b"]

/-- The leader is replaced after its follower has everything, and comes back. -/
def cleanFailover : List ClusterAction :=
  twoNodes ++ [.append "a" [putIn 2 1] .ok, .commit "a", .wait "a",
    .receive "b" [putIn 2 1] .ok, .finish "a"] ++ failover ++
  [.append "b" [putIn 3 2] .ok, .commit "b", .start "a", .connect "a" "b", .wait "b",
    .receive "a" [putIn 3 2] .ok, .finish "b"]

theorem stores_agree_cleanFailover : ∃ t,
    (cluster 4 .quorum).run {} cleanFailover = some t ∧
      ((t.nodes "a").store = [putIn 2 1, putIn 3 2] ∧
        (t.nodes "b").store = [putIn 2 1, putIn 3 2]) ∧ StoresAgree t := by
  refine System.exists_run_and (by decide +kernel) ?_
  intro t run _
  exact stores_agree rfl (by decide +kernel) run

/-- The leader crashes between its fsync and the commit message, and `Open` replays its WAL
while the new leader has given the sequence to another entry. -/
def unsentEntry : List ClusterAction :=
  twoNodes ++ [.append "a" [putIn 2 1] .ok] ++ failover ++
  [.append "b" [putIn 3 1] .ok, .commit "b", .wait "b", .finish "b", .start "a"]

theorem stores_disagree : ∃ t, (cluster 4 .quorum).run {} unsentEntry = some t ∧
    ¬ StoresAgree t := by
  refine System.exists_run (P := fun t => putIn 2 1 ∈ (t.nodes "a").applied ∧
    putIn 3 1 ∈ (t.nodes "b").applied) (by decide +kernel) ?_
  rintro t - ⟨appliedA, appliedB⟩ agree
  exact absurd (agree "a" "b" _ appliedA _ appliedB rfl) (by decide)

end T4.Cluster
