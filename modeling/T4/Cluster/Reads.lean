import T4.Cluster.Stable

/-!
# Linearizable reads

`LinearizableGet`, `LinearizableExists`, `LinearizableList` and `LinearizableCount` of
`node.go` call `syncWithLeader` and then read the store of the node. On a follower
`syncWithLeader` asks the leader for `nextRev`, the last revision that a write was given, and
waits until the store has it. On the leader it returns at once.

Reads run beside the steps of the cluster, with the writes that have a revision and still
wait in `writeC`. A read that is over carries the store that it was evaluated on.
-/

namespace T4.Cluster

open Lib Wal Election List
open Peer (WaitMode)

/-! ## The reads of a cluster -/

inductive ReadPhase
  | begun
  /-- In `WaitForRevision`, which returns when a check finds the store there. -/
  | waiting (rev : Int)
  /-- `syncWithLeader` has returned nil. -/
  | synced
  /-- Returned, and evaluated on this store. -/
  | done (store : List Entry)
  | failed
  deriving DecidableEq

/-- What a client may know when its read begins. -/
structure Before where
  /-- The entries that were acknowledged. -/
  acked : List Entry
  /-- The entries in the states that reads had returned. -/
  shown : List Entry
  deriving DecidableEq

structure Read where
  node : String
  phase : ReadPhase := .begun
  before : Before
  deriving DecidableEq

def Read.returned (r : Read) : List Entry :=
  match r.phase with
  | .done store => store
  | _ => []

def Read.closed (c : ClusterState) (r : Read) : Read :=
  match (c.nodes r.node).role, r.phase with
  | .down, .done _ => r
  | .down, _ => { r with phase := .failed }
  | _, _ => r

/-- The cluster and its linearizable reads. -/
structure ReadState where
  cluster : ClusterState := {}
  /-- `nextRev` of the nodes that lead: it runs ahead of their WAL by the writes in
  `writeC`. -/
  nextRev : String → Int := fun _ => 0
  /-- The entries whose callers were told. -/
  told : List Entry := []
  reads : List Read := []

inductive ReadMove
  /-- `syncWithLeader` up to the wait; `leaderCli` is none or a node. -/
  | sync (leaderCli : Option String)
  /-- `WaitForRevision` returns nil. -/
  | await
  | evaluate
  /-- The caller's context ends. -/
  | cancel
  deriving DecidableEq

inductive ReadAction
  | cluster (action : ClusterAction)
  /-- A write of the leader is given the next revision. -/
  | assign (m : String)
  /-- A linearizable read is called. -/
  | call (n : String)
  | read (i : Nat) (move : ReadMove)

namespace ReadState

/-- `syncWithLeader` up to the wait. -/
def syncWithLeader (s : ReadState) (n : String) (leaderCli : Option String) : ReadPhase :=
  match (s.cluster.nodes n).role, leaderCli with
  | .leader _, _ => .synced
  -- `ErrClosed`.
  | .down, _ => .failed
  -- `ErrNoLeader`.
  | _, none => .failed
  | _, some m =>
    match (s.cluster.nodes m).role with
    -- `ForwardGetRevision`.
    | .leader _ => .waiting (s.nextRev m)
    | _ => .failed

def move (s : ReadState) (r : Read) : ReadMove → Option ReadPhase
  | .sync leaderCli =>
    match r.phase with
    | .begun => some (s.syncWithLeader r.node leaderCli)
    | _ => none
  | .await =>
    match r.phase with
    | .waiting rev =>
      if rev ≤ currentRev (s.cluster.nodes r.node).store then some .synced else none
    | _ => none
  | .evaluate =>
    match r.phase with
    | .synced => some (.done (s.cluster.nodes r.node).store)
    | _ => none
  | .cancel =>
    match r.phase with
    | .done _ => none
    | _ => some .failed

/-- A batch has writes that were given their revisions. -/
def Admits (s : ReadState) : ClusterAction → Prop
  | .append m batch _ => ∀ e ∈ batch, IsWrite e → e.revision ≤ s.nextRev m
  | _ => True

instance (s : ReadState) (action : ClusterAction) : Decidable (s.Admits action) := by
  rcases action with _ | _ <;> unfold Admits <;> infer_instance

/-- The entries whose callers a step tells. -/
def finishes (s : ReadState) : ClusterAction → List Entry
  | .finish m => (s.cluster.nodes m).unapplied
  | _ => []

/-- `becomeLeader` sets the counter. -/
def counters (s : ReadState) (c : ClusterState) : ClusterAction → String → Int
  | .becomeLeader n => Function.update s.nextRev n (currentRev (c.nodes n).store)
  | _ => s.nextRev

def after (s : ReadState) (action : ClusterAction) (c : ClusterState) : ReadState where
  cluster := c
  nextRev := s.counters c action
  told := s.told ++ s.finishes action
  reads := s.reads.map (Read.closed c)

def setPhase (s : ReadState) (i : Nat) (r : Read) (phase : ReadPhase) : ReadState :=
  { s with reads := s.reads.set i { r with phase } }

end ReadState

def readStep (cap : Nat) (mode : WaitMode) (s : ReadState) : ReadAction → Option ReadState
  | .cluster action =>
    if s.Admits action then (clusterStep cap mode s.cluster action).map (s.after action) else none
  | .assign m =>
    match (s.cluster.nodes m).role with
    | .leader _ => some { s with nextRev := Function.update s.nextRev m (s.nextRev m + 1) }
    | _ => none
  | .call n => some { s with
      reads := s.reads ++ [{ node := n, before := ⟨s.told, s.reads.flatMap Read.returned⟩ }] }
  | .read i move =>
    match s.reads[i]? with
    | none => none
    | some r => (s.move r move).map (s.setPhase i r)

def readSystem (cap : Nat) (mode : WaitMode) : System ReadState ReadAction where
  init s := s = {}
  step := readStep cap mode

/-- The steps of a run with one leader. -/
def OneLeader (s : ReadState) : ReadAction → Prop
  | .cluster action => LeaderStays s.cluster action
  | _ => True

instance (s : ReadState) (action : ReadAction) : Decidable (OneLeader s action) := by
  unfold OneLeader
  split <;> infer_instance

/-- The reads were evaluated on stores with the writes that were known before, and with every
entry up to these. A compaction takes no revision, so that no read waits for it. -/
def Reflects (known : Before → List Entry) (s : ReadState) : Prop :=
  ∀ r ∈ s.reads, ∀ store, r.phase = .done store → ∀ e ∈ known r.before, IsWrite e →
    e ∈ store ∧ ∀ f ∈ s.cluster.written, f.sequence ≤ e.sequence → f ∈ store

/-- Reads have what was acknowledged before they began. -/
def ReadsCurrent (s : ReadState) : Prop := Reflects Before.acked s

/-- Reads have what was returned by reads before they began. -/
def ReadsAdvance (s : ReadState) : Prop := Reflects Before.shown s

/-! ## What a step does -/

inductive MoveEffect (s : ReadState) (r : Read) : ReadMove → ReadPhase → Prop
  | onLeader {leaderCli : Option String} {l : Leading}
    (leads : (s.cluster.nodes r.node).role = .leader l) :
    MoveEffect s r (.sync leaderCli) .synced
  | asked {m : String} {l : Leading} (leads : (s.cluster.nodes m).role = .leader l) :
    MoveEffect s r (.sync (some m)) (.waiting (s.nextRev m))
  | awaited {rev : Int} (waits : r.phase = .waiting rev)
    (reached : rev ≤ currentRev (s.cluster.nodes r.node).store) :
    MoveEffect s r .await .synced
  | evaluated (synced : r.phase = .synced) :
    MoveEffect s r .evaluate (.done (s.cluster.nodes r.node).store)
  | failed {move : ReadMove} : MoveEffect s r move .failed

theorem MoveEffect.of_move {s : ReadState} {r : Read} {move : ReadMove} {phase : ReadPhase}
    (moved : s.move r move = some phase) : MoveEffect s r move phase := by
  revert moved
  fun_cases s.move r move <;> rintro ⟨⟩
  case case1 =>
    unfold ReadState.syncWithLeader
    split
    case h_1 l leads => exact .onLeader leads
    case h_2 => exact .failed
    case h_3 => exact .failed
    case h_4 m _ _ =>
      split
      case h_1 l leads => exact .asked leads
      case h_2 => exact .failed
  case case3 waits reached => exact .awaited waits reached
  case case6 synced => exact .evaluated synced
  case case9 => exact .failed

inductive ReadEffect (cap : Nat) (mode : WaitMode) (s : ReadState) : ReadAction → ReadState → Prop
  | stepped {action : ClusterAction} {c : ClusterState} (admits : s.Admits action)
    (stepped : clusterStep cap mode s.cluster action = some c) :
    ReadEffect cap mode s (.cluster action) (s.after action c)
  | assigned (m : String) :
    ReadEffect cap mode s (.assign m)
      { s with nextRev := Function.update s.nextRev m (s.nextRev m + 1) }
  | called (n : String) :
    ReadEffect cap mode s (.call n) { s with
      reads := s.reads ++ [{ node := n, before := ⟨s.told, s.reads.flatMap Read.returned⟩ }] }
  | moved {i : Nat} {r : Read} {move : ReadMove} {phase : ReadPhase}
    (found : s.reads[i]? = some r) (effect : MoveEffect s r move phase) :
    ReadEffect cap mode s (.read i move) (s.setPhase i r phase)

theorem ReadEffect.of_step {cap : Nat} {mode : WaitMode} {s t : ReadState} {action : ReadAction}
    (stepped : readStep cap mode s action = some t) : ReadEffect cap mode s action t := by
  revert stepped
  fun_cases readStep cap mode s action <;> intro stepped <;> try cases stepped
  case case1 admits =>
    obtain ⟨c, moved, rfl⟩ := Option.map_eq_some_iff.mp stepped
    exact .stepped admits moved
  case case3 m _ _ => exact .assigned m
  case case5 n => exact .called n
  case case7 found =>
    obtain ⟨phase, moved, rfl⟩ := Option.map_eq_some_iff.mp stepped
    exact .moved found (.of_move moved)

/-! ## What reads rest on -/

/-- What a read has of the entries that were acknowledged and written. -/
structure Read.Ok (told written : List Entry) (r : Read) : Prop where
  acked : r.before.acked ⊆ told
  shown : r.before.shown ⊆ written
  store : ∀ store, r.phase = .done store → store ⊆ written ∧ Whole true written store

/-- Kept by every run with one leader, and true before the first start (`Inv.init`). -/
structure ReadState.Inv (s : ReadState) : Prop where
  complete : s.cluster.Complete true
  steady : s.cluster.Steady
  /-- The leader has given out every revision that was written. -/
  counts : ∀ m l, (s.cluster.nodes m).role = .leader l →
    ∀ e ∈ s.cluster.written, IsWrite e → e.revision ≤ s.nextRev m
  told : s.told ⊆ s.cluster.written
  /-- What was acknowledged is in the leader's store. -/
  applied : ∀ m l, (s.cluster.nodes m).role = .leader l →
    ∀ e ∈ s.told, IsWrite e → e.revision ≤ currentRev (s.cluster.nodes m).store
  reads : ∀ r ∈ s.reads, r.Ok s.told s.cluster.written

theorem Read.closed_cases (c : ClusterState) (r : Read) :
    (r.closed c = r ∧ ((c.nodes r.node).role ≠ .down ∨ ∃ store, r.phase = .done store)) ∨
      r.closed c = { r with phase := .failed } := by
  unfold Read.closed
  split
  case h_1 store _ isDone => exact Or.inl ⟨rfl, Or.inr ⟨store, isDone⟩⟩
  case h_2 => exact Or.inr rfl
  case h_3 up _ => exact Or.inl ⟨rfl, Or.inl up⟩

theorem Read.closed_before (c : ClusterState) (r : Read) : (r.closed c).before = r.before := by
  rcases r.closed_cases c with ⟨same, -⟩ | same
  · rw [same]
  · rw [same]

variable {s : ReadState} {c : ClusterState} {action : ClusterAction} {cap : Nat} {mode : WaitMode}

namespace Read.Ok

variable {told told' written part : List Entry} {r : Read}

theorem mono (ok : r.Ok told written) (more : told ⊆ told')
    (above : Newer written part) :
    r.Ok told' (written ++ part) := by
  have grows : written ⊆ written ++ part := subset_append_left _ _
  refine ⟨List.Subset.trans ok.acked more, List.Subset.trans ok.shown grows, ?_⟩
  intro store isDone
  obtain ⟨sub, whole⟩ := ok.store store isDone
  exact ⟨List.Subset.trans sub grows, whole.grow sub above⟩

theorem fail (ok : r.Ok told written) : ({ r with phase := .failed } : Read).Ok told written :=
  ⟨ok.acked, ok.shown, fun _ same => nomatch same⟩

end Read.Ok

theorem clusterStep_append {s c : ClusterState} {m : String} {batch : List Entry}
    {outcome : AppendOutcome}
    (stepped : clusterStep cap mode s (.append m batch outcome) = some c) :
    ∃ l, (s.nodes m).role = .leader l := by
  simp only [clusterStep] at stepped
  split at stepped
  case h_1 l leads => exact ⟨l, leads⟩
  case h_2 => cases stepped

theorem clusterStep_finish {s c : ClusterState} {m : String}
    (stepped : clusterStep cap mode s (.finish m) = some c) :
    ∃ l, (s.nodes m).role = .leader l ∧
      (c.nodes m).store = (s.nodes m).store ++ (s.nodes m).unapplied := by
  simp only [clusterStep] at stepped
  split at stepped
  case h_1 l leads =>
    split at stepped
    case h_1 entries required batch =>
      simp only [Option.ite_none_right_eq_some] at stepped
      obtain ⟨-, same⟩ := stepped
      cases same
      refine ⟨l, leads, ?_⟩
      change ((s.setNode m _).nodes m).store = _
      rw [ClusterState.setNode_self]
      simp only [Node.unapplied, leads, batch]
      rfl
    case h_2 => cases stepped
  case h_2 => cases stepped

namespace ReadState

theorem Inv.finishes_written (inv : s.Inv) : s.finishes action ⊆ s.cluster.written := by
  unfold finishes
  split
  · exact inv.complete.base.unapplied _
  · exact nil_subset _

theorem Inv.counters_eq (inv : s.Inv) (begun : s.cluster.written ≠ [])
    (stepped : clusterStep cap mode s.cluster action = some c) :
    s.counters c action = s.nextRev := by
  cases action with
  | becomeLeader n =>
    simp only [clusterStep] at stepped
    split at stepped
    case h_1 term back elected => exact absurd (inv.steady.unwritten elected) begun
    case h_2 => cases stepped
  | _ => rfl

theorem Inv.after (inv : s.Inv) (admits : s.Admits action) (stays : LeaderStays s.cluster action)
    (stepped : clusterStep cap mode s.cluster action = some c) : (s.after action c).Inv := by
  have onward := inv.steady.step stays stepped
  have complete := inv.complete.onward inv.steady stays stepped
  have advances := (ClusterEffect.of_step stepped).advances
  obtain ⟨part, written, batched, above⟩ := inv.complete.written_append inv.steady stepped
  refine ⟨complete, onward.steady, ?_, ?_, ?_, ?_⟩
  · intro m l leads e mem isWrite
    change e ∈ c.written at mem
    rw [written] at mem
    rcases mem_append.mp mem with old | new
    · have begun := ne_nil_of_mem old
      obtain ⟨l', led⟩ := onward.led inv.steady begun leads
      change e.revision ≤ s.counters c action m
      rw [inv.counters_eq begun stepped]
      exact inv.counts m l' led e old isWrite
    · obtain ⟨m', batch, outcome, rfl, inBatch⟩ := batched e new
      obtain ⟨l', led⟩ := clusterStep_append stepped
      cases onward.unique led leads
      exact admits e inBatch isWrite
  · refine append_subset.mpr ⟨?_, ?_⟩
    · exact List.Subset.trans inv.told (written ▸ subset_append_left _ _)
    · exact List.Subset.trans inv.finishes_written (written ▸ subset_append_left _ _)
  · intro m l leads e mem isWrite
    rcases mem_append.mp mem with old | new
    · obtain ⟨l', led⟩ := onward.led inv.steady (ne_nil_of_mem (inv.told old)) leads
      refine (inv.applied m l' led e old isWrite).trans (advances m ?_)
      exact fun down => nomatch down.symm.trans leads
    · cases action with
      | finish m' =>
        obtain ⟨l', led, stores⟩ := clusterStep_finish stepped
        cases onward.unique led leads
        refine le_currentRev ?_ isWrite
        change e ∈ (c.nodes m).store
        rw [stores]
        exact mem_append_right _ new
      | _ => cases new
  · intro r mem
    obtain ⟨old, isOld, same⟩ := mem_map.mp mem
    subst same
    have ok := (inv.reads old isOld).mono (subset_append_left _ (s.finishes action)) above
    rw [← written] at ok
    rcases old.closed_cases c with ⟨same, -⟩ | same
    · rw [same]
      exact ok
    · rw [same]
      exact ok.fail

theorem mem_setPhase {i : Nat} {r x : Read} {phase : ReadPhase} (found : s.reads[i]? = some r)
    (mem : x ∈ (s.setPhase i r phase).reads) :
    x ∈ s.reads ∨ r ∈ s.reads ∧ x = { r with phase } := by
  rcases mem_or_eq_of_mem_set mem with old | new
  · exact Or.inl old
  · exact Or.inr ⟨mem_of_getElem? found, new⟩

theorem Inv.returned (inv : s.Inv) : s.reads.flatMap Read.returned ⊆ s.cluster.written := by
  intro e mem
  obtain ⟨r, isRead, inStore⟩ := mem_flatMap.mp mem
  unfold Read.returned at inStore
  split at inStore
  case h_1 store isDone => exact ((inv.reads r isRead).store store isDone).1 inStore
  case h_2 => cases inStore

theorem Inv.known_written (inv : s.Inv) {r : Read} (isRead : r ∈ s.reads) {e : Entry}
    (isKnown : e ∈ r.before.acked ++ r.before.shown) : e ∈ s.cluster.written := by
  have ok := inv.reads r isRead
  rcases mem_append.mp isKnown with acked | shown
  · exact inv.told (ok.acked acked)
  · exact ok.shown shown

theorem Inv.step {t : ReadState} {action : ReadAction} (inv : s.Inv) (one : OneLeader s action)
    (stepped : readStep cap mode s action = some t) : t.Inv := by
  cases ReadEffect.of_step stepped with
  | stepped admits moved => exact inv.after admits one moved
  | assigned m =>
    refine ⟨inv.complete, inv.steady, ?_, inv.told, inv.applied, inv.reads⟩
    intro m' l leads e mem isWrite
    have upTo := inv.counts m' l leads e mem isWrite
    dsimp only
    rw [Function.update_apply]
    split
    case isTrue same =>
      subst same
      omega
    case isFalse => exact upTo
  | called n =>
    refine ⟨inv.complete, inv.steady, inv.counts, inv.told, inv.applied, ?_⟩
    refine forall_mem_append.mpr ⟨inv.reads, forall_mem_singleton.mpr ?_⟩
    exact ⟨List.Subset.refl _, inv.returned, fun _ same => nomatch same⟩
  | @moved i r move phase found effect =>
    refine ⟨inv.complete, inv.steady, inv.counts, inv.told, inv.applied, ?_⟩
    intro x mem
    rcases mem_setPhase found mem with old | ⟨isRead, same⟩
    · exact inv.reads x old
    · subst same
      refine ⟨(inv.reads r isRead).acked, (inv.reads r isRead).shown, ?_⟩
      intro store isDone
      change phase = .done store at isDone
      subst isDone
      cases effect with
      | evaluated =>
        exact ⟨(inv.complete.base.nodes r.node).store, (inv.complete.nodes r.node).sound.whole⟩

theorem Inv.init : ({} : ReadState).Inv := by
  have start : (T4.Cluster.cluster 0 .quorum).init {} := rfl
  refine ⟨.init start, .init start, ?_, ?_, ?_, ?_⟩
  · exact fun m l leads => nomatch leads
  · exact nil_subset _
  · exact fun m l leads => nomatch leads
  · exact fun r mem => nomatch mem

end ReadState

/-! ## How far a read has got -/

/-- The read has reached a write, if its phase says how far it is. -/
def Read.Reaches (c : ClusterState) (r : Read) (e : Entry) : Prop :=
  match r.phase with
  | .waiting rev => e.revision ≤ rev
  | .synced => e.revision ≤ currentRev (c.nodes r.node).store
  | .done store => e.revision ≤ currentRev store
  | _ => True

theorem Read.Reaches.closed {c' : ClusterState} {r : Read} {e : Entry} (reaches : r.Reaches c e)
    (advances : c.Advances c') : (r.closed c').Reaches c' e := by
  rcases r.closed_cases c' with ⟨same, open'⟩ | same
  · rw [same]
    unfold Read.Reaches at reaches ⊢
    split
    case h_1 rev waits =>
      rw [waits] at reaches
      exact reaches
    case h_2 synced =>
      rw [synced] at reaches
      rcases open' with up | ⟨store, isDone⟩
      · exact reaches.trans (advances r.node up)
      · cases synced.symm.trans isDone
    case h_3 store isDone =>
      rw [isDone] at reaches
      exact reaches
    case h_4 => trivial
  · rw [same]
    trivial

namespace ReadState

/-- Every read has reached the writes that are known when it begins. -/
structure Fresh (known : Before → List Entry) (s : ReadState) : Prop where
  base : s.Inv
  reaches : ∀ r ∈ s.reads, ∀ e ∈ known r.before, IsWrite e → r.Reaches s.cluster e

variable {known : Before → List Entry}

/-- A follower's read asks for every revision that was written. The leader asks nobody, so
its store has to have what is known. -/
theorem Fresh.step {t : ReadState} {action : ReadAction}
    (ghost : ∀ before, known before ⊆ before.acked ++ before.shown) (fresh : s.Fresh known)
    (one : OneLeader s action)
    (leader : ∀ i r leaderCli l, action = .read i (.sync leaderCli) → s.reads[i]? = some r →
      (s.cluster.nodes r.node).role = .leader l → ∀ e ∈ known r.before, IsWrite e →
        e.revision ≤ currentRev (s.cluster.nodes r.node).store)
    (stepped : readStep cap mode s action = some t) : t.Fresh known := by
  refine ⟨fresh.base.step one stepped, ?_⟩
  cases ReadEffect.of_step stepped with
  | stepped admits moved =>
    intro r mem e isKnown isWrite
    obtain ⟨old, isOld, rfl⟩ := mem_map.mp mem
    rw [Read.closed_before] at isKnown
    exact (fresh.reaches old isOld e isKnown isWrite).closed (ClusterEffect.of_step moved).advances
  | assigned m => exact fresh.reaches
  | called n =>
    intro r mem e isKnown isWrite
    rcases mem_append.mp mem with old | new
    · exact fresh.reaches r old e isKnown isWrite
    · cases mem_singleton.mp new
      trivial
  | @moved i r move phase found effect =>
    intro x mem e isKnown isWrite
    rcases mem_setPhase found mem with old | ⟨isRead, same⟩
    · exact fresh.reaches x old e isKnown isWrite
    · subst same
      have reaches := fresh.reaches r isRead e isKnown isWrite
      cases effect with
      | onLeader leads => exact leader i r _ _ rfl found leads e isKnown isWrite
      | asked leads =>
        have isWritten := fresh.base.known_written isRead (ghost r.before isKnown)
        exact fresh.base.counts _ _ leads e isWritten isWrite
      | awaited waits reached =>
        rw [Read.Reaches, waits] at reaches
        exact reaches.trans reached
      | evaluated synced =>
        rw [Read.Reaches, synced] at reaches
        exact reaches
      | failed => trivial

theorem Fresh.reflects (fresh : s.Fresh known)
    (ghost : ∀ before, known before ⊆ before.acked ++ before.shown) : Reflects known s := by
  intro r isRead store isDone e isKnown isWrite
  have reaches := fresh.reaches r isRead e isKnown isWrite
  rw [Read.Reaches, isDone] at reaches
  have written := fresh.base.complete.written
  obtain ⟨sub, whole⟩ := (fresh.base.reads r isRead).store store isDone
  have held := whole.mem_of_le written sub
    (fresh.base.known_written isRead (ghost _ isKnown)) isWrite reaches
  exact ⟨held, fun f mem upTo => whole f mem (Or.inl rfl) (upTo.trans (le_lastSeq held))⟩

theorem Fresh.start (inv : s.Inv) (unread : s.reads = []) : s.Fresh known := by
  refine ⟨inv, ?_⟩
  rw [unread]
  exact fun r mem => nomatch mem

end ReadState

/-! ## Every run -/

/-- In every run with one leader, reads have what was acknowledged before they began. -/
theorem reads_current {cap : Nat} {mode : WaitMode} {s t : ReadState} {actions : List ReadAction}
    (start : s.Inv) (unread : s.reads = [])
    (one : (readSystem cap mode).Meets OneLeader s actions)
    (run : (readSystem cap mode).run s actions = some t) : ReadsCurrent t := by
  have ghost : ∀ before : Before, before.acked ⊆ before.acked ++ before.shown :=
    fun before => subset_append_left _ _
  have fresh : t.Fresh Before.acked := by
    refine (readSystem cap mode).run_invariant (I := ReadState.Fresh Before.acked) ?_
      (ReadState.Fresh.start start unread) one run
    intro s action next fresh here stepped
    refine fresh.step ghost here ?_ stepped
    intro i r _ l _ found leads e isAcked isWrite
    have ok := fresh.base.reads r (mem_of_getElem? found)
    exact fresh.base.applied r.node l leads e (ok.acked isAcked) isWrite
  exact fresh.reflects ghost

/-- A write is committed by the leader and its follower, and both are read. -/
def sampleReads : List ReadAction := List.flatten [
  twoNodes.map .cluster,
  [.assign "a"],
  [.append "a" [putIn 2 1] .ok, .commit "a", .wait "a", .receive "b" [putIn 2 1] .ok,
    .finish "a"].map .cluster,
  [.call "b", .assign "a", .read 0 (.sync (some "a"))],
  [.append "a" [putIn 2 2] .ok, .commit "a", .receive "b" [putIn 2 2] .ok].map .cluster,
  [.read 0 .await, .call "a", .read 1 (.sync none), .read 0 .evaluate, .read 1 .evaluate]]

theorem reads_current_sampleReads : ∃ t,
    (readSystem 4 .quorum).run {} sampleReads = some t ∧
      t.reads = [⟨"b", .done [putIn 2 1, putIn 2 2], ⟨[putIn 2 1], []⟩⟩,
        ⟨"a", .done [putIn 2 1], ⟨[putIn 2 1], []⟩⟩] ∧ ReadsCurrent t := by
  refine System.exists_run_and (by decide +kernel) ?_
  intro t run _
  exact reads_current .init rfl (by decide +kernel) run

/-- The steps in which the leader serves a read only while everything in its WAL is in its
store. -/
def ServesApplied (s : ReadState) : ReadAction → Prop
  | .read i (.sync _) =>
      ∀ r ∈ s.reads[i]?, ∀ l ∈ (s.cluster.nodes r.node).leading, l.batch.isNone
  | _ => True

instance (s : ReadState) (action : ReadAction) : Decidable (ServesApplied s action) := by
  unfold ServesApplied
  split <;> infer_instance

/-- In every run with one leader that serves its reads between two batches, reads do not go
back behind what was read. -/
theorem reads_advance {cap : Nat} {mode : WaitMode} {s t : ReadState} {actions : List ReadAction}
    (start : s.Inv) (unread : s.reads = [])
    (serves : (readSystem cap mode).Meets
      (fun s action => OneLeader s action ∧ ServesApplied s action) s actions)
    (run : (readSystem cap mode).run s actions = some t) : ReadsAdvance t := by
  have ghost : ∀ before : Before, before.shown ⊆ before.acked ++ before.shown :=
    fun before => subset_append_right _ _
  have fresh : t.Fresh Before.shown := by
    refine (readSystem cap mode).run_invariant (I := ReadState.Fresh Before.shown) ?_
      (ReadState.Fresh.start start unread) serves run
    intro s action next fresh here stepped
    refine fresh.step ghost here.1 ?_ stepped
    intro i r leaderCli l same found leads e isShown isWrite
    subst same
    have isLeading : l ∈ (s.cluster.nodes r.node).leading := by
      rw [Node.leading, leads]
      rfl
    have idle := Option.isNone_iff_eq_none.mp (here.2 r found l isLeading)
    have base := fresh.base
    have all := base.complete.hasAll_of_names leads (base.steady.names_leader leads) idle
    have isWritten := (base.reads r (mem_of_getElem? found)).shown isShown
    exact le_currentRev (all e isWritten (Or.inr isWrite)) isWrite
  exact fresh.reflects ghost

/-- The follower is read first; the leader once it has applied the batch. -/
def orderedReads : List ReadAction := List.flatten [
  twoNodes.map .cluster,
  [.assign "a"],
  [.append "a" [putIn 2 1] .ok, .commit "a", .wait "a", .receive "b" [putIn 2 1] .ok].map
    .cluster,
  [.call "b", .read 0 (.sync (some "a")), .read 0 .await, .read 0 .evaluate, .call "a",
    .cluster (.finish "a"), .read 1 (.sync none), .read 1 .evaluate]]

theorem reads_advance_orderedReads : ∃ t,
    (readSystem 4 .quorum).run {} orderedReads = some t ∧
      t.reads = [⟨"b", .done [putIn 2 1], ⟨[], []⟩⟩,
        ⟨"a", .done [putIn 2 1], ⟨[], [putIn 2 1]⟩⟩] ∧ ReadsAdvance t := by
  refine System.exists_run_and (by decide +kernel) ?_
  intro t run _
  exact reads_advance .init rfl (by decide +kernel) run

/-- One of three followers has applied a batch, the leader waits for a second one. A read
on that follower returns the write, and a read on the leader after it does not. -/
def earlyFollower : List ReadAction := List.flatten [
  twoNodes.map .cluster,
  [.start "c", .connect "c" "a", .start "d", .connect "d" "a"].map .cluster,
  [.assign "a"],
  [.append "a" [putIn 2 1] .ok, .commit "a", .wait "a", .receive "b" [putIn 2 1] .ok].map
    .cluster,
  [.call "b", .read 0 (.sync (some "a")), .read 0 .await, .read 0 .evaluate,
    .call "a", .read 1 (.sync none), .read 1 .evaluate]]

theorem reads_go_back : ∃ t, (readSystem 4 .quorum).run {} earlyFollower = some t ∧
    (readSystem 4 .quorum).Meets OneLeader {} earlyFollower ∧ ¬ ReadsAdvance t := by
  obtain ⟨t, run, reached⟩ := System.exists_of_run (readSystem 4 .quorum) {} earlyFollower
    (fun t => ⟨"a", .done [], ⟨[], [putIn 2 1]⟩⟩ ∈ t.reads) (by decide +kernel)
  refine ⟨t, run, by decide +kernel, ?_⟩
  intro advance
  obtain ⟨held, -⟩ := advance _ reached [] rfl (putIn 2 1) (mem_singleton_self _) (by decide)
  cases held

end T4.Cluster
