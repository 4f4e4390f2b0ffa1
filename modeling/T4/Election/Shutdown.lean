import T4.Election.Safety

/-!
# Step-down and shutdown of a leader

`Close` reads the role flag once; a leader then runs `gracefulLeaderShutdown`,
which drains its writes, closes the WAL and stamps the lock with its own term
through the unconditional `Touch`. `fencedCheck` detects that the lock was taken
and cancels the background context, but it leaves the role flag at `leader`.

`ShutdownState` puts members with those flags beside the election protocol of
`T4.Election.Lock`. All lock writes but one are conditional; `ShutdownEffect`
singles out the one that is not, and the results are read off that split.
-/

namespace T4.Election

open Lib

/-! ## Members -/

inductive Role
  | single
  | leader
  | follower
  deriving DecidableEq

/-- How far `Close` has come. -/
inductive CloseStage
  /-- `Close` has not been called. -/
  | running
  /-- Inside `gracefulLeaderShutdown`, before its `Touch`. -/
  | draining
  /-- The process is past its last lock access, or gone. -/
  | closed
  deriving DecidableEq

/-- What the election and the shutdown path read of a node. -/
structure Member where
  lock : Lock
  role : Role
  term : Nat
  stage : CloseStage
  /-- `cancelBg` was called: the watch loop has ended. -/
  cancelled : Bool
  deriving DecidableEq

structure ShutdownState where
  election : ElectionState
  members : List Member
  deriving DecidableEq

/-- One step of some node; `i` selects a member. -/
inductive ShutdownAction
  /-- One store access of an acquisition. -/
  | acquire (access : ElectionAction)
  /-- A new process opens the data directory, whose checkpoint has the given term. -/
  | opened (i : Nat) (term : Nat)
  /-- The acquisition was lost: follow the winner and observe its term. -/
  | follow (i : Nat) (term : Nat)
  /-- `becomeLeader` publishes its state after the won acquisition `record`. -/
  | becomeLeader (i : Nat) (kind : AcquireKind) (record : LockRecord)
  | fencedCheck (i : Nat) (touch : Bool)
  /-- The conditional touch of member `i`, operation `op` in flight. -/
  | touchIfMatch (i op : Nat) (committedRev now : Int)
  | close (i : Nat)
  | shutdownTouch (i : Nat) (committedRev now : Int)
  /-- The `Touch` of the shutdown path fails, which is only logged. -/
  | shutdownTouchFails (i : Nat)
  | crash (i : Nat)
  deriving DecidableEq

/-- The store accesses of `TryAcquire` and `TakeOver`. -/
def ElectionAction.acquires : ElectionAction → Bool
  | .fencedRead .. | .touchIfMatch .. => false
  | _ => true

/-- The watch loop runs: a leader whose context is alive and that is not closing. -/
def Member.watches (member : Member) : Bool :=
  member.role = .leader ∧ member.stage = .running ∧ member.cancelled = false

/-- The role flag `Close` reads selects the leader's shutdown path. -/
def Member.close (member : Member) : Member :=
  { member with stage := if member.role = .leader then .draining else .closed }

/-- `fencedCheck` found another record: `cancelBg`, with the role flag as it was. -/
def Member.stepDown (member : Member) : Member :=
  { member with cancelled := true }

/-- `fencedCheck` compares the record it read with the node's own identity. -/
def Member.named (member : Member) (store : LockStore) : Bool :=
  (readWithETag store).record.any
    (fun record => record.term = member.term ∧ record.nodeID = member.lock.nodeID)

/-- The touch of `gracefulLeaderShutdown`. -/
def Member.shutdownTouch (member : Member) (committedRev now : Int) (store : LockStore) :
    LockStore :=
  member.lock.touch member.term member.lock.advertiseAddr committedRev now store

/-- Replace member `i`. -/
def ShutdownState.setMember (s : ShutdownState) (i : Nat) (member : Member) : ShutdownState :=
  { s with members := s.members.set i member }

def shutdownStep (s : ShutdownState) (action : ShutdownAction) : Option ShutdownState :=
  match action with
  | .acquire access =>
    if access.acquires then
      (electionStep s.election access).map fun election => { s with election := election }
    else none
  | .opened i term => do
    let member ← s.members[i]?
    if member.stage = .closed then
      some (s.setMember i
        { lock := member.lock, role := .single, term := term, stage := .running,
          cancelled := false })
    else none
  | .follow i term => do
    let member ← s.members[i]?
    if member.role ≠ .leader then
      some (s.setMember i { member with role := .follower, term := max member.term term })
    else none
  | .becomeLeader i kind record => do
    let member ← s.members[i]?
    if .acquisition kind member.lock (some record) true ∈ s.election.returned ∧
        member.role ≠ .leader ∧ member.stage = .running then
      some (s.setMember i { member with role := .leader, term := record.term })
    else none
  | .fencedCheck i touch => do
    let member ← s.members[i]?
    if member.watches then
      let election ← electionStep s.election (.fencedRead member.lock member.term touch)
      let kept := if member.named s.election.store then member else member.stepDown
      some { s.setMember i kept with election := election }
    else none
  | .touchIfMatch i op committedRev now => do
    let member ← s.members[i]?
    match s.election.inFlight[op]? with
    | some (.touch lock term etag) =>
      if lock = member.lock ∧ term = member.term then
        let election ← electionStep s.election (.touchIfMatch op committedRev now)
        let taken := (lock.touchIfMatch term lock.advertiseAddr etag committedRev now
          s.election.store).isNone
        some { s.setMember i (if taken then member.stepDown else member) with
          election := election }
      else none
    | _ => none
  | .close i => do
    let member ← s.members[i]?
    if member.stage = .running then some (s.setMember i member.close) else none
  | .shutdownTouch i committedRev now => do
    let member ← s.members[i]?
    if member.stage = .draining then
      some { s.setMember i { member with stage := .closed } with
        election := { s.election with
          store := member.shutdownTouch committedRev now s.election.store } }
    else none
  | .shutdownTouchFails i => do
    let member ← s.members[i]?
    if member.stage = .draining then some (s.setMember i { member with stage := .closed })
    else none
  | .crash i => do
    let member ← s.members[i]?
    some (s.setMember i { member with stage := .closed })

/-- Any number of nodes over one lock, from any lock state with no operation under
way and no node leading. -/
def shutdownSystem : System ShutdownState ShutdownAction where
  init s := electionSystem.init s.election ∧ ∀ member ∈ s.members, member.role ≠ .leader
  step := shutdownStep

/-! ## What a step does to the lock -/

/-- The lock names another node, or this node at a higher term. -/
def Superseded (member : Member) (store : LockStore) : Prop :=
  ∃ object, store.object = some object ∧
    (object.body.nodeID ≠ member.lock.nodeID ∨ member.term < object.body.term)

/-- The member a step of `Close` belongs to. -/
def ShutdownAction.closing : ShutdownAction → Option Nat
  | .close i | .shutdownTouch i _ _ | .shutdownTouchFails i => some i
  | _ => none

/-- The `Touch` of the shutdown path finds the lock absent or still naming the
closing node, at a term it knows. -/
def StillNamed (s : ShutdownState) : ShutdownAction → Prop
  | .shutdownTouch i _ _ => ∀ member ∈ s.members[i]?, ∀ object ∈ s.election.store.object,
      object.body.nodeID = member.lock.nodeID ∧ object.body.term ≤ member.term
  | _ => True

instance (s : ShutdownState) (action : ShutdownAction) : Decidable (StillNamed s action) := by
  unfold StillNamed
  split <;> infer_instance

/-- Every step is a step of the election protocol, leaves the lock alone, or is the
unconditional touch of a member that is shutting down. -/
inductive ShutdownEffect (s next : ShutdownState) : ShutdownAction → Prop
  | protocol {action : ShutdownAction} (access : ElectionAction) :
      electionStep s.election access = some next.election → action.closing = none →
      ShutdownEffect s next action
  | quiet {action : ShutdownAction} :
      next.election = s.election → ShutdownEffect s next action
  | touched (i : Nat) (committedRev now : Int) (member : Member) :
      s.members[i]? = some member →
      next.election = { s.election with
        store := member.shutdownTouch committedRev now s.election.store } →
      ShutdownEffect s next (.shutdownTouch i committedRev now)

variable {s next : ShutdownState} {action : ShutdownAction}

theorem ShutdownEffect.of_step (stepped : shutdownStep s action = some next) :
    ShutdownEffect s next action := by
  cases action with
  | acquire access =>
    simp only [shutdownStep] at stepped
    split at stepped
    · obtain ⟨election, moved, rfl⟩ := Option.map_eq_some_iff.mp stepped
      exact .protocol access moved rfl
    · cases stepped
  | fencedCheck i touch =>
    simp only [shutdownStep, Option.bind_eq_bind, Option.bind_eq_some_iff] at stepped
    obtain ⟨member, _, stepped⟩ := stepped
    split at stepped
    · obtain ⟨election, moved, same⟩ := Option.bind_eq_some_iff.mp stepped
      cases same
      exact .protocol _ moved rfl
    · cases stepped
  | touchIfMatch i op committedRev now =>
    simp only [shutdownStep, Option.bind_eq_bind, Option.bind_eq_some_iff] at stepped
    obtain ⟨member, _, stepped⟩ := stepped
    split at stepped
    case h_2 => cases stepped
    split at stepped
    · obtain ⟨election, moved, same⟩ := Option.bind_eq_some_iff.mp stepped
      cases same
      exact .protocol _ moved rfl
    · cases stepped
  | shutdownTouch i committedRev now =>
    simp only [shutdownStep, Option.bind_eq_bind, Option.bind_eq_some_iff] at stepped
    obtain ⟨member, found, stepped⟩ := stepped
    split at stepped
    · cases stepped
      exact .touched i committedRev now member found rfl
    · cases stepped
  | opened i term | follow i term | becomeLeader i kind record | close i | shutdownTouchFails i =>
    simp only [shutdownStep, Option.bind_eq_bind, Option.bind_eq_some_iff] at stepped
    obtain ⟨member, _, stepped⟩ := stepped
    split at stepped
    · cases stepped
      exact .quiet rfl
    · cases stepped
  | crash i =>
    simp only [shutdownStep, Option.bind_eq_bind, Option.bind_eq_some_iff] at stepped
    obtain ⟨member, _, same⟩ := stepped
    cases same
    exact .quiet rfl

/-! ## The lock under shutdowns of nodes it still names -/

theorem ElectionInv.put {s : ElectionState} (inv : ElectionInv s) {record : LockRecord}
    (covers : ∀ object, s.store.object = some object → object.body.term ≤ record.term) :
    ElectionInv { s with store := s.store.put record } := by
  refine ⟨LockStore.Fresh.put, fun op member => (inv.sound op member).put, ?_, inv.increasing⟩
  intro term member
  obtain ⟨object, stored, le⟩ := inv.covered term member
  exact ⟨_, rfl, Nat.le_trans le (covers object stored)⟩

theorem ShutdownState.inv_step (inv : ElectionInv s.election) (still : StillNamed s action)
    (stepped : shutdownStep s action = some next) : ElectionInv next.election := by
  cases ShutdownEffect.of_step stepped with
  | protocol access moved _ => exact inv.step moved
  | quiet same =>
    rw [same]
    exact inv
  | touched i committedRev now member found same =>
    rw [same]
    exact inv.put fun object stored => (still member found object stored).2

theorem ShutdownState.term_le_step (inv : ElectionInv s.election) (still : StillNamed s action)
    (stepped : shutdownStep s action = some next) {object : LockObject}
    (stored : s.election.store.object = some object) :
    ∃ later, next.election.store.object = some later ∧ object.body.term ≤ later.body.term := by
  cases ShutdownEffect.of_step stepped with
  | protocol access moved _ =>
    have ran : electionSystem.run s.election [access] = some next.election :=
      System.run_cons.mpr ⟨_, moved, rfl⟩
    exact term_le_of_run inv ran stored
  | quiet same => exact ⟨object, by rw [same]; exact stored, Nat.le_refl _⟩
  | touched i committedRev now member found same =>
    rw [same]
    exact ⟨_, rfl, (still member found object stored).2⟩

theorem ShutdownState.term_le_run {last : ShutdownState} {actions : List ShutdownAction}
    (inv : ElectionInv s.election) (meets : shutdownSystem.Meets StillNamed s actions)
    (ran : shutdownSystem.run s actions = some last) {object : LockObject}
    (stored : s.election.store.object = some object) :
    ∃ later, last.election.store.object = some later ∧ object.body.term ≤ later.body.term := by
  induction actions generalizing s object with
  | nil =>
    cases ran
    exact ⟨object, stored, Nat.le_refl _⟩
  | cons action rest ih =>
    obtain ⟨next, stepped, ran⟩ := System.run_cons.mp ran
    obtain ⟨middle, kept, le⟩ := term_le_step inv meets.1 stepped stored
    obtain ⟨later, reached, le'⟩ := ih (inv_step inv meets.1 stepped)
      (meets.2 next stepped) ran kept
    exact ⟨later, reached, Nat.le_trans le le'⟩

/-- **Shutdown and the lock.** In every run in which the shutdown path touches the
lock only while the lock still names the closing node: a step of `Close` of a
superseded member leaves the lock as it is, and the lock's term never decreases. -/
theorem shutdown_keeps_lock {start s : ShutdownState} {actions : List ShutdownAction}
    (init : shutdownSystem.init start) (ran : shutdownSystem.run start actions = some s)
    (meets : shutdownSystem.Meets StillNamed start actions) :
    (∀ action next i member, shutdownStep s action = some next → StillNamed s action →
      action.closing = some i → s.members[i]? = some member →
      Superseded member s.election.store → next.election.store = s.election.store) ∧
    ∀ more last object, shutdownSystem.run s more = some last →
      shutdownSystem.Meets StillNamed s more → s.election.store.object = some object →
      ∃ later, last.election.store.object = some later ∧
        object.body.term ≤ later.body.term := by
  have inv : ElectionInv s.election :=
    System.run_invariant (I := fun s => ElectionInv s.election)
      (fun held still stepped => ShutdownState.inv_step held still stepped)
      (ElectionInv.of_init init.1) meets ran
  refine ⟨?_, fun more last object ran meets => ShutdownState.term_le_run inv meets ran⟩
  intro action next i member stepped still closes found superseded
  cases ShutdownEffect.of_step stepped with
  | protocol access moved notClosing =>
    rw [notClosing] at closes
    cases closes
  | quiet same => rw [same]
  | touched j committedRev now other otherFound same =>
    cases closes
    cases found.symm.trans otherFound
    obtain ⟨object, stored, other | higher⟩ := superseded
    · exact absurd (still member found object stored).1 other
    · exact absurd (still member found object stored).2 (Nat.not_le.mpr higher)

/-! ## Two nodes -/

/-- Nodes `a` and `b` before their first election, at the term `Open` starts with. -/
def twoMembers : ShutdownState where
  election := { store := { object := none, writes := 0 }, inFlight := [], returned := [] }
  members :=
    [{ lock := { nodeID := "a", advertiseAddr := "a:1" }, role := .single, term := 1,
       stage := .running, cancelled := false },
     { lock := { nodeID := "b", advertiseAddr := "b:1" }, role := .single, term := 1,
       stage := .running, cancelled := false }]

theorem twoMembers_init : shutdownSystem.init twoMembers := by
  refine ⟨⟨rfl, rfl, ?_⟩, by simp [twoMembers]⟩
  intro object stored
  cases stored

/-- The record `a` wins with. -/
def recordA : LockRecord := Lock.acquired { nodeID := "a", advertiseAddr := "a:1" } 2 0 1

/-- `a` is elected, `b` follows it, and `a` touches the lock. -/
def electA : List ShutdownAction :=
  [.acquire (.tryAcquire { nodeID := "a", advertiseAddr := "a:1" } 1 0),
   .acquire (.writeAtomic 0 1), .becomeLeader 0 .tryAcquire recordA, .follow 1 2,
   .fencedCheck 0 true, .touchIfMatch 0 0 5 2]

/-- `b` takes the lock over after it went stale. -/
def takeOverB : List ShutdownAction :=
  [.acquire (.takeOver { nodeID := "b", advertiseAddr := "b:1" } 2 7),
   .acquire (.writeAtomic 0 9)]

/-- `a` shuts down while it holds the lock; `b` then takes over at a higher term. -/
theorem shutdown_keeps_lock_twoMembers :
    ∃ s last object later,
      shutdownSystem.run twoMembers (electA ++ [.close 0, .shutdownTouch 0 7 3]) = some s ∧
      shutdownSystem.run s takeOverB = some last ∧
      s.election.store.object = some object ∧ last.election.store.object = some later ∧
      object.body.term ≤ later.body.term := by
  have meets : shutdownSystem.Meets StillNamed twoMembers
      (electA ++ [.close 0, .shutdownTouch 0 7 3]) := by decide +kernel
  obtain ⟨s, ran, goesOn, held, meetsMore⟩ := System.exists_of_run shutdownSystem twoMembers
    (electA ++ [.close 0, .shutdownTouch 0 7 3])
    (fun s => (shutdownSystem.run s takeOverB).isSome ∧ s.election.store.object.isSome ∧
      shutdownSystem.Meets StillNamed s takeOverB) (by decide +kernel)
  obtain ⟨last, ranMore⟩ := Option.isSome_iff_exists.mp goesOn
  obtain ⟨object, stored⟩ := Option.isSome_iff_exists.mp held
  obtain ⟨_, rising⟩ := shutdown_keeps_lock twoMembers_init ran meets
  obtain ⟨later, laterStored, le⟩ := rising takeOverB last object ranMore meetsMore stored
  exact ⟨s, last, object, later, ran, ranMore, stored, laterStored, le⟩

/-- `b` takes over, `a` notices and steps down, and the shutdown of `a` then puts its
own record with the lower term back. -/
theorem shutdown_steals_lock :
    ∃ s next member,
      shutdownSystem.run twoMembers
        (electA ++ takeOverB ++ [.fencedCheck 0 true, .close 0]) = some s ∧
      s.members[0]? = some member ∧ member.cancelled = true ∧
      Superseded member s.election.store ∧
      shutdownStep s (.shutdownTouch 0 7 10) = some next ∧
      next.election.store ≠ s.election.store ∧
      s.election.store.object.map (fun object => (object.body.nodeID, object.body.term)) =
        some ("b", 3) ∧
      next.election.store.object.map (fun object => (object.body.nodeID, object.body.term)) =
        some ("a", 2) := by
  refine ⟨_, _, _, rfl, rfl, rfl, ⟨_, rfl, Or.inl ?_⟩, rfl, ?_, rfl, rfl⟩
  · decide
  · decide

end T4.Election
