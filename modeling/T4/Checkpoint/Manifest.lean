import T4.Checkpoint.RoundTrip
import T4.Election.Safety

/-!
# Which checkpoint the manifest names

`forceCheckpoint` and `maybeCheckpoint` of `leader.go` read the revision and the sequence
number of the leader's store, upload the checkpoint, and end with a PUT of
`manifest/latest`. The upload takes many requests. Nothing in it looks at the leader
lock, and the PUT is unconditional, so a leader that has been superseded in the lock and
has not noticed can still finish a checkpoint.

The model runs the lock of `T4.Election` together with the leaders that its wins start.
A leader is known by the term it won; `fenceMu` admits one checkpoint at a time to each.
-/

namespace T4.Checkpoint

open Lib Election Archive List

/-! ## The model -/

structure Leadership where
  /-- `CurrentRevision` of its store. -/
  revision : Int
  /-- `LastSequence` of its store. -/
  sequence : Int
  entriesSinceCheckpoint : Nat
  /-- The revision and the sequence number of the checkpoint under way. -/
  writing : Option (Int × Int)
  deriving DecidableEq

structure ManifestState where
  election : ElectionState
  /-- The terms whose winner has become leader. -/
  led : List Nat
  leaders : Nat → Option Leadership
  /-- `manifest/latest`. -/
  manifest : Option Archive.Manifest
  /-- Term and `LastSequence` of every checkpoint that the manifest has named, oldest first. -/
  named : List (Nat × Int)

inductive ManifestAction
  | election (action : ElectionAction)
  /-- The winner of `term` has caught up to this state of its store. -/
  | becomeLeader (term : Nat) (revision sequence : Int)
  /-- The commit loop applies a batch. -/
  | applyBatch (term : Nat) (revision sequence : Int) (entries : Nat)
  | forceCheckpoint (term : Nat)
  | maybeCheckpoint (term : Nat)
  /-- A seal, a flush or an upload of the checkpoint fails. -/
  | abort (term : Nat)
  | writeManifest (term : Nat)
  /-- The leader stops: it notices that it was superseded, or is shut down. -/
  | stop (term : Nat)
  deriving DecidableEq

namespace ManifestState

def setLeader (s : ManifestState) (term : Nat) (leader : Option Leadership) : ManifestState :=
  { s with leaders := Function.update s.leaders term leader }

theorem of_setLeader {s : ManifestState} {term other : Nat} {leader : Option Leadership}
    {found : Leadership} (isFound : (s.setLeader term leader).leaders other = some found) :
    (other = term ∧ leader = some found) ∨ s.leaders other = some found := by
  simp only [setLeader, Function.update_apply] at isFound
  split_ifs at isFound with same
  · exact Or.inl ⟨same, isFound⟩
  · exact Or.inr isFound

/-- Begin a checkpoint, unless one is under way or nothing was ever written. -/
def beginCheckpoint (s : ManifestState) (term : Nat) (leader : Leadership) :
    Option ManifestState :=
  if leader.writing.isSome ∨ leader.revision = 0 then none
  else some (s.setLeader term
    (some { leader with writing := some (leader.revision, leader.sequence) }))

end ManifestState

def manifestStep (s : ManifestState) : ManifestAction → Option ManifestState
  | .election action => (electionStep s.election action).map (fun e => { s with election := e })
  | .becomeLeader term revision sequence =>
    if term ∈ winTerms s.election.returned ∧ term ∉ s.led then
      some { s.setLeader term (some ⟨revision, sequence, 0, none⟩) with led := term :: s.led }
    else none
  | .applyBatch term revision sequence entries =>
    match s.leaders term with
    | none => none
    | some leader =>
      if leader.revision ≤ revision ∧ leader.sequence ≤ sequence then
        some (s.setLeader term (some { leader with
          revision := revision
          sequence := sequence
          entriesSinceCheckpoint := leader.entriesSinceCheckpoint + entries }))
      else none
  | .forceCheckpoint term =>
    match s.leaders term with
    | none => none
    | some leader => s.beginCheckpoint term leader
  | .maybeCheckpoint term =>
    match s.leaders term with
    | none => none
    | some leader =>
      if leader.entriesSinceCheckpoint = 0 then none else s.beginCheckpoint term leader
  | .abort term =>
    match s.leaders term with
    | none => none
    | some leader => some (s.setLeader term (some { leader with writing := none }))
  | .writeManifest term =>
    match s.leaders term with
    | none => none
    | some leader =>
      match leader.writing with
      | none => none
      | some (revision, sequence) =>
        some { s.setLeader term (some { leader with
            writing := none
            entriesSinceCheckpoint := 0 }) with
          manifest := some (manifestOf term revision sequence [])
          named := s.named ++ [(term, sequence)] }
  | .stop term =>
    match s.leaders term with
    | none => none
    | some _ => some (s.setLeader term none)

/-- Any number of nodes on a store that has no checkpoint yet. -/
def manifestSystem : System ManifestState ManifestAction where
  init s := electionSystem.init s.election ∧ s.led = [] ∧ (∀ term, s.leaders term = none) ∧
    s.manifest = none ∧ s.named = []
  step := manifestStep

/-! ## What a step does -/

inductive ManifestEffect (s next : ManifestState) : ManifestAction → Prop
  | elected (action : ElectionAction) (e : ElectionState) :
      electionStep s.election action = some e → next = { s with election := e } →
      ManifestEffect s next (.election action)
  | led (term : Nat) (revision sequence : Int) :
      term ∈ winTerms s.election.returned → term ∉ s.led →
      next = { s.setLeader term (some ⟨revision, sequence, 0, none⟩) with led := term :: s.led } →
      ManifestEffect s next (.becomeLeader term revision sequence)
  /-- A leader goes on, or begins or drops a checkpoint. -/
  | progressed (action : ManifestAction) (term : Nat) (leader later : Leadership) :
      next = s.setLeader term (some later) → s.leaders term = some leader →
      leader.sequence ≤ later.sequence →
      (∀ revision sequence, later.writing = some (revision, sequence) →
        leader.writing = some (revision, sequence) ∨ sequence = leader.sequence) →
      ManifestEffect s next action
  | named (term : Nat) (leader later : Leadership) (revision sequence : Int) :
      next = { s.setLeader term (some later) with
        manifest := some (manifestOf term revision sequence [])
        named := s.named ++ [(term, sequence)] } →
      s.leaders term = some leader → leader.writing = some (revision, sequence) →
      later.sequence = leader.sequence → later.writing = none →
      ManifestEffect s next (.writeManifest term)
  | stopped (term : Nat) :
      next = s.setLeader term none → ManifestEffect s next (.stop term)

theorem beginCheckpoint_eq_some {s next : ManifestState} {term : Nat} {leader : Leadership}
    (begun : s.beginCheckpoint term leader = some next) :
    next = s.setLeader term
      (some { leader with writing := some (leader.revision, leader.sequence) }) := by
  unfold ManifestState.beginCheckpoint at begun
  split_ifs at begun
  cases begun
  rfl

theorem ManifestEffect.of_step {s next : ManifestState} {action : ManifestAction}
    (stepped : manifestStep s action = some next) : ManifestEffect s next action := by
  have begins : ∀ {term leader}, s.leaders term = some leader →
      s.beginCheckpoint term leader = some next → ManifestEffect s next action := by
    intro term leader isLeader begun
    refine .progressed _ term leader _ (beginCheckpoint_eq_some begun) isLeader (Int.le_refl _) ?_
    intro revision sequence writing
    cases writing
    exact Or.inr rfl
  revert stepped
  fun_cases manifestStep s action <;> intro stepped <;> try cases stepped
  case case1 action =>
    obtain ⟨e, elected, rfl⟩ := Option.map_eq_some_iff.mp stepped
    exact .elected action e elected rfl
  case case2 term revision sequence fresh => exact .led term revision sequence fresh.1 fresh.2 rfl
  case case5 term _ _ _ leader isLeader forward =>
    exact .progressed _ term leader _ rfl isLeader forward.2 (fun _ _ writing => Or.inl writing)
  case case8 isLeader => exact begins isLeader stepped
  case case11 isLeader _ => exact begins isLeader stepped
  case case13 term leader isLeader =>
    exact .progressed _ term leader _ rfl isLeader (Int.le_refl _)
      (fun _ _ writing => nomatch writing)
  case case16 term leader isLeader revision sequence writing =>
    exact .named term leader _ revision sequence rfl isLeader writing rfl rfl
  case case18 term _ _ => exact .stopped term rfl

/-! ## The order of the named checkpoints -/

/-- Checkpoint `a` has a lower term than `b`, or the same term and a lower sequence
number. -/
def Below (a b : Nat × Int) : Prop := a.1 < b.1 ∨ (a.1 = b.1 ∧ a.2 < b.2)

instance (a b : Nat × Int) : Decidable (Below a b) :=
  inferInstanceAs (Decidable (a.1 < b.1 ∨ (a.1 = b.1 ∧ a.2 < b.2)))

/-- The manifest is written by a leader whose term the lock still carries. -/
def WriterHoldsLock (s : ManifestState) : ManifestAction → Prop
  | .writeManifest term =>
    s.election.store.object.any (fun object => object.body.term = term) = true
  | _ => True

instance (s : ManifestState) (action : ManifestAction) : Decidable (WriterHoldsLock s action) := by
  cases action <;> unfold WriterHoldsLock <;> infer_instance

/-- What holds between the lock, the leaders and the manifest. -/
structure ManifestState.Inv (s : ManifestState) : Prop where
  election : ElectionInv s.election
  won : ∀ term ∈ s.led, term ∈ winTerms s.election.returned
  leading : ∀ {term leader}, s.leaders term = some leader → term ∈ s.led
  namedLed : ∀ c ∈ s.named, c.1 ∈ s.led
  /-- A leader's checkpoints are not ahead of its store or of its next checkpoint. -/
  behind : ∀ {term leader c}, s.leaders term = some leader → c ∈ s.named → c.1 = term →
    c.2 ≤ leader.sequence ∧
      ∀ revision sequence, leader.writing = some (revision, sequence) → c.2 ≤ sequence
  captured : ∀ {term leader revision sequence}, s.leaders term = some leader →
    leader.writing = some (revision, sequence) → sequence ≤ leader.sequence
  ordered : s.named.Pairwise (fun earlier later => ¬ Below later earlier)

namespace ManifestState.Inv

variable {s next : ManifestState} {action : ManifestAction}

theorem of_init (init : manifestSystem.init s) : s.Inv := by
  obtain ⟨election, noTerms, noLeaders, -, noNames⟩ := init
  refine ⟨ElectionInv.of_init election, ?_, ?_, ?_, ?_, ?_, ?_⟩
  · simp [noTerms]
  · simp [noLeaders]
  · simp [noNames]
  · simp [noLeaders]
  · simp [noLeaders]
  · simp [noNames]

variable {term : Nat} {leader : Leadership}

theorem winTerms_subset {e e' : ElectionState} (inv : ElectionInv e) {action : ElectionAction}
    (stepped : electionStep e action = some e') (won : term ∈ winTerms e.returned) :
    term ∈ winTerms e'.returned := by
  cases StepEffect.of_step inv stepped with
  | quiet results _ _ returned _ | won kind lock record _ _ returned _ _
  | touched lock term record object _ _ returned =>
    rw [returned, winTerms_append]
    exact mem_append_left _ won

theorem progress (inv : s.Inv) {later : Leadership} (isLeader : s.leaders term = some leader)
    (forward : leader.sequence ≤ later.sequence)
    (writing : ∀ revision sequence, later.writing = some (revision, sequence) →
      leader.writing = some (revision, sequence) ∨ sequence = leader.sequence) :
    (s.setLeader term (some later)).Inv := by
  refine ⟨inv.election, inv.won, ?_, inv.namedLed, ?_, ?_, inv.ordered⟩
  · intro other found isFound
    rcases of_setLeader isFound with ⟨rfl, -⟩ | isFound
    · exact inv.leading isLeader
    · exact inv.leading isFound
  · intro other found c isFound mem isTerm
    rcases of_setLeader isFound with ⟨rfl, isLater⟩ | isFound
    · cases isLater
      obtain ⟨stored, begun⟩ := inv.behind isLeader mem isTerm
      refine ⟨stored.trans forward, ?_⟩
      intro revision sequence isWriting
      rcases writing revision sequence isWriting with old | rfl
      · exact begun revision sequence old
      · exact stored
    · exact inv.behind isFound mem isTerm
  · intro other found revision sequence isFound isWriting
    rcases of_setLeader isFound with ⟨rfl, isLater⟩ | isFound
    · cases isLater
      rcases writing revision sequence isWriting with old | rfl
      · exact (inv.captured isLeader old).trans forward
      · exact forward
    · exact inv.captured isFound isWriting

theorem lead (inv : s.Inv) (revision sequence : Int) (won : term ∈ winTerms s.election.returned)
    (fresh : term ∉ s.led) :
    ({ s.setLeader term (some ⟨revision, sequence, 0, none⟩) with
      led := term :: s.led } : ManifestState).Inv := by
  refine ⟨inv.election, ?_, ?_, ?_, ?_, ?_, inv.ordered⟩
  · intro other mem
    rcases mem_cons.mp mem with rfl | mem
    · exact won
    · exact inv.won other mem
  · intro other found isFound
    rcases of_setLeader isFound with ⟨rfl, -⟩ | isFound
    · exact mem_cons_self
    · exact mem_cons_of_mem _ (inv.leading isFound)
  · intro c mem
    exact mem_cons_of_mem _ (inv.namedLed c mem)
  · intro other found c isFound mem isTerm
    rcases of_setLeader isFound with ⟨rfl, -⟩ | isFound
    · exact absurd (isTerm ▸ inv.namedLed c mem) fresh
    · exact inv.behind isFound mem isTerm
  · intro other found revision sequence isFound isWriting
    rcases of_setLeader isFound with ⟨rfl, isLater⟩ | isFound
    · cases isLater
      cases isWriting
    · exact inv.captured isFound isWriting

theorem not_below (inv : s.Inv) {revision sequence : Int} (isLeader : s.leaders term = some leader)
    (writing : leader.writing = some (revision, sequence))
    (holds : WriterHoldsLock s (.writeManifest term)) {c : Nat × Int} (mem : c ∈ s.named) :
    ¬ Below (term, sequence) c := by
  obtain ⟨object, stored, covered⟩ := inv.election.covered c.1 (inv.won _ (inv.namedLed c mem))
  have current : object.body.term = term := by
    simpa [WriterHoldsLock, stored] using holds
  intro below
  rcases below with lower | ⟨sameTerm, lower⟩
  · exact absurd lower (by dsimp only; omega)
  · exact absurd lower
      ((inv.behind isLeader mem sameTerm.symm).2 revision sequence writing).not_gt

theorem name (inv : s.Inv) {later : Leadership} {revision sequence : Int}
    (isLeader : s.leaders term = some leader) (writing : leader.writing = some (revision, sequence))
    (sameSequence : later.sequence = leader.sequence) (idle : later.writing = none)
    (holds : WriterHoldsLock s (.writeManifest term)) :
    ({ s.setLeader term (some later) with
      manifest := some (manifestOf term revision sequence [])
      named := s.named ++ [(term, sequence)] } : ManifestState).Inv := by
  have kept := inv.progress isLeader sameSequence.ge
    (fun revision sequence isWriting => by rw [idle] at isWriting; cases isWriting)
  refine ⟨kept.election, kept.won, kept.leading, ?_, ?_, kept.captured, ?_⟩
  · refine forall_mem_append.mpr ⟨inv.namedLed, forall_mem_singleton.mpr ?_⟩
    exact inv.leading isLeader
  · intro other found c isFound mem isTerm
    rcases mem_append.mp mem with mem | mem
    · exact kept.behind isFound mem isTerm
    · have isNew := mem_singleton.mp mem
      subst isNew
      subst isTerm
      rcases of_setLeader isFound with ⟨-, isLater⟩ | isFound
      · cases isLater
        refine ⟨sameSequence ▸ inv.captured isLeader writing, ?_⟩
        intro revision sequence isWriting
        rw [idle] at isWriting
        cases isWriting
      · cases isLeader.symm.trans isFound
        refine ⟨inv.captured isLeader writing, ?_⟩
        intro revision sequence isWriting
        cases writing.symm.trans isWriting
        exact Int.le_refl _
  · rw [pairwise_append]
    refine ⟨inv.ordered, pairwise_singleton _ _, ?_⟩
    intro c mem new isNew
    rw [mem_singleton.mp isNew]
    exact inv.not_below isLeader writing holds mem

theorem step (inv : s.Inv) (holds : WriterHoldsLock s action)
    (stepped : manifestSystem.step s action = some next) : next.Inv := by
  cases ManifestEffect.of_step stepped with
  | elected action e elected result =>
    subst result
    exact ⟨inv.election.step elected,
      fun term mem => winTerms_subset inv.election elected (inv.won term mem),
      inv.leading, inv.namedLed, inv.behind, inv.captured, inv.ordered⟩
  | led term revision sequence won fresh result =>
    subst result
    exact inv.lead revision sequence won fresh
  | progressed action term leader later result isLeader forward writing =>
    subst result
    exact inv.progress isLeader forward writing
  | named term leader later revision sequence result isLeader writing sameSequence idle =>
    subst result
    exact inv.name isLeader writing sameSequence idle holds
  | stopped term result =>
    subst result
    have kept : ∀ {other found}, (s.setLeader term none).leaders other = some found →
        s.leaders other = some found := by
      intro other found isFound
      rcases of_setLeader isFound with ⟨-, impossible⟩ | isFound
      · cases impossible
      · exact isFound
    exact ⟨inv.election, inv.won, fun isFound => inv.leading (kept isFound), inv.namedLed,
      fun isFound => inv.behind (kept isFound), fun isFound => inv.captured (kept isFound),
      inv.ordered⟩

end ManifestState.Inv

/-- If every PUT of the manifest is made while the lock carries the writer's term, the
manifest never comes to name a checkpoint below one that it named before. -/
theorem manifest_never_goes_back {start s : ManifestState} {actions : List ManifestAction}
    (init : manifestSystem.init start) (meets : manifestSystem.Meets WriterHoldsLock start actions)
    (ran : manifestSystem.run start actions = some s) :
    s.named.Pairwise (fun earlier later => ¬ Below later earlier) :=
  (System.run_invariant (I := ManifestState.Inv)
    (fun inv holds stepped => inv.step holds stepped) (ManifestState.Inv.of_init init) meets
    ran).ordered

def freshManifest : ManifestState where
  election := ⟨⟨none, 0⟩, [], []⟩
  led := []
  leaders := fun _ => none
  manifest := none
  named := []

theorem freshManifest_init : manifestSystem.init freshManifest :=
  ⟨⟨rfl, rfl, by simp [freshManifest]⟩, rfl, fun _ => rfl, rfl, rfl⟩

/-- Node `a` leads and writes a checkpoint; `b` takes over. -/
def takeOverOfManifest : List ManifestAction :=
  [.election (.tryAcquire ⟨"a", "a:3380"⟩ 0 0), .election (.writeAtomic 0 10), .becomeLeader 1 5 5,
    .forceCheckpoint 1, .writeManifest 1, .applyBatch 1 7 8 3, .maybeCheckpoint 1,
    .election (.takeOver ⟨"b", "b:3380"⟩ 1 7), .election (.writeAtomic 0 20), .becomeLeader 2 7 9]

/-- The checkpoints of both leaders in order; the old leader's last one fails. -/
theorem manifest_never_goes_back_takeOver :
    ∃ s, manifestSystem.run freshManifest
        (takeOverOfManifest ++ [.abort 1, .forceCheckpoint 2, .writeManifest 2]) = some s ∧
      s.named = [(1, 5), (2, 9)] ∧
      s.named.Pairwise (fun earlier later => ¬ Below later earlier) := by
  refine System.exists_run_and (by decide +kernel) ?_
  intro s ran _
  exact manifest_never_goes_back freshManifest_init (by decide +kernel) ran

/-- The superseded leader finishes its checkpoint after the one of its successor. -/
theorem manifest_goes_back :
    ∃ s, manifestSystem.run freshManifest
        (takeOverOfManifest ++ [.forceCheckpoint 2, .writeManifest 2, .writeManifest 1]) =
          some s ∧
      s.manifest = some (manifestOf 1 7 8 []) ∧
      ¬ s.named.Pairwise (fun earlier later => ¬ Below later earlier) := by
  exact System.exists_of_run _ _ _ _ (by decide +kernel)

end T4.Checkpoint
