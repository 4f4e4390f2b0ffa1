import T4.Lib.System
import T4.Store.Retention

/-!
# Watching the log

`Store.Watch` starts a goroutine that waits for the revision counter, loads it,
scans the log from the first revision it has not scanned up to the loaded one and
sends what it found. `Apply` runs beside it and takes effect in two steps: Pebble
commits the batch, then the counters advance. `watchSystem` is the interleaving of
both, one atomic access a step: the iterator of a scan sees Pebble as it was when it
was opened, while the lookups of previous versions see it as it is.

`history` is everything handed to `Apply`. `overtaken` lists the versions that a compaction
removed from the log before the watcher had sent them, each with the number of
events sent by then. Neither has a counterpart in the source.
-/

namespace T4.Mvcc

open Lib Bytes SortedMap Wal

/-! ## Model -/

inductive WatchLoop
  /-- In `WaitForRevision`. -/
  | waiting (nextRev : Int)
  /-- Before it loads `currentRev`. -/
  | woken (nextRev : Int)
  /-- Before `scanLog` opens its iterator. -/
  | loaded (nextRev curRev : Int)
  /-- In the loop of `scanLog`: the records still to come and the events so far. -/
  | scanning (nextRev curRev : Int) (records : List (Bytes × Bytes)) (events : List Event)
  /-- Between the sends of the events of one scan. -/
  | sending (nextRev curRev : Int) (events : List Event)
  /-- The goroutine has returned and the channel is closed. -/
  | closed
  deriving DecidableEq

/-- The first revision that a running loop has not scanned and sent. -/
def WatchLoop.nextRev : WatchLoop → Option Int
  | .waiting nextRev | .woken nextRev | .loaded nextRev _ | .scanning nextRev _ _ _
  | .sending nextRev _ _ => some nextRev
  | .closed => none

def WatchLoop.pending : WatchLoop → List Event
  | .scanning _ _ _ events | .sending _ _ events => events
  | _ => []

structure Watcher where
  pfx : Bytes
  startRev : Int
  withPrevKV : Bool
  loop : WatchLoop
  delivered : List Event := []
  overtaken : List (Version × Nat) := []

/-- The versions that the watcher was started for. -/
def Watcher.Wants (w : Watcher) (v : Version) : Prop := w.pfx <+: v.key ∧ w.startRev < v.rev

instance (w : Watcher) : DecidablePred w.Wants := fun _ => inferInstanceAs (Decidable (_ ∧ _))

/-- `Store.Watch`. -/
def Watcher.start (pfx : Bytes) (startRev : Int) (withPrevKV : Bool) : Watcher :=
  { pfx, startRev, withPrevKV, loop := .waiting (wrap (startRev + 1)) }

/-- The start that `Node.Watch` passes on to the store. -/
def Store.nodeWatchStart (s : Store) (startRev : Int) : Except StoreError Int :=
  if startRev > 0 ∧ startRev ≤ s.compactRev then .error .compacted
  else if startRev = 0 then .ok s.currentRev
  else .ok (wrap (startRev - 1))

inductive LoopStep
  | wait
  | load
  | scan
  | record
  | send
  | stop
  deriving DecidableEq

/-- One step of `watchLoop`. -/
def Watcher.advance (store : Store) (w : Watcher) : LoopStep → Option Watcher
  | .wait =>
    match w.loop with
    | .waiting nextRev =>
      if store.currentRev ≥ nextRev then some { w with loop := .woken nextRev } else none
    | _ => none
  | .load =>
    match w.loop with
    | .woken nextRev => some { w with loop := .loaded nextRev store.currentRev }
    | _ => none
  | .scan =>
    match w.loop with
    | .loaded nextRev curRev => some { w with
        loop := .scanning nextRev curRev
          (store.db.range (logKey nextRev) (logKey (curRev + 1))) [] }
    | _ => none
  | .record =>
    match w.loop with
    | .scanning nextRev curRev [] events => some { w with loop := .sending nextRev curRev events }
    | .scanning nextRev curRev (r :: rest) events =>
      match scanRecords store.db w.pfx w.withPrevKV [r] with
      | .error _ => some { w with loop := .closed }
      | .ok found => some { w with loop := .scanning nextRev curRev rest (events ++ found) }
    | _ => none
  | .send =>
    match w.loop with
    | .sending _ curRev [] => some { w with loop := .waiting (wrap (curRev + 1)) }
    | .sending nextRev curRev (event :: rest) => some { w with
        loop := .sending nextRev curRev rest
        delivered := w.delivered ++ [event] }
    | _ => none
  -- The context is cancelled or the store is closed.
  | .stop => some { w with loop := .closed }

/-- Note which versions the step from `old` to `new` takes out of the log before the
watcher has sent them. -/
def Watcher.overtake (vs : List Version) (old new : Pebble) (w : Watcher) : Watcher :=
  { w with overtaken := w.overtaken ++ (vs.filter (fun v => w.Wants v ∧ (old.get v.slot).isSome ∧
      new.get v.slot = none ∧ v.kv ∉ w.delivered.map Event.kv)).map (·, w.delivered.length) }

structure WatchState where
  store : Store
  /-- A batch that is committed, and whose counters are not advanced yet. -/
  publishing : Option Store := none
  history : List Entry
  watcher : Option Watcher := none

inductive WatchAction
  | apply (es : List Entry)
  | publish
  | storeWatch (pfx : Bytes) (startRev : Int) (withPrevKV : Bool)
  | nodeWatch (pfx : Bytes) (startRev : Int) (withPrevKV : Bool)
  | loop (step : LoopStep)
  deriving DecidableEq

def watchStep (s : WatchState) : WatchAction → Option WatchState
  | .apply es =>
    match s.publishing, s.store.apply es with
    | some _, _ => none
    | none, (failed, some _) => some { s with store := failed, history := s.history ++ es }
    | none, (next, none) => some {
        -- The compaction counter advances before the batch is committed.
        store := { next with currentRev := s.store.currentRev, lastSeq := s.store.lastSeq }
        publishing := some next
        history := s.history ++ es
        watcher := s.watcher.map (Watcher.overtake (versions s.history) s.store.db next.db) }
  | .publish =>
    match s.publishing with
    | none => none
    | some next => some { s with store := next, publishing := none }
  | .storeWatch pfx startRev withPrevKV =>
    match s.watcher with
    | some _ => none
    | none => some { s with watcher := some (.start pfx startRev withPrevKV) }
  | .nodeWatch pfx startRev withPrevKV =>
    match s.watcher, s.store.nodeWatchStart startRev with
    | some _, _ => none
    | none, .error _ => some s
    | none, .ok storeStartRev =>
      some { s with watcher := some (.start pfx storeStartRev withPrevKV) }
  | .loop step =>
    match s.watcher with
    | none => none
    | some w =>
      match w.advance s.store step with
      | none => none
      | some next => some { s with watcher := some next }

/-- A store that holds some history, and no watcher yet. -/
def watchSystem : System WatchState WatchAction where
  init s := s.store.Represents s.history ∧ s.publishing = none ∧ s.watcher = none
  step := watchStep

/-! ## What a step can do -/

inductive LoopEffect (store : Store) (w : Watcher) : Watcher → Prop
  | wait {nextRev : Int} (at_ : w.loop = .waiting nextRev) (reached : nextRev ≤ store.currentRev) :
      LoopEffect store w { w with loop := .woken nextRev }
  | load {nextRev : Int} (at_ : w.loop = .woken nextRev) :
      LoopEffect store w { w with loop := .loaded nextRev store.currentRev }
  | scan {nextRev curRev : Int} (at_ : w.loop = .loaded nextRev curRev) :
      LoopEffect store w { w with
        loop := .scanning nextRev curRev
          (store.db.range (logKey nextRev) (logKey (curRev + 1))) [] }
  | record {nextRev curRev : Int} {r : Bytes × Bytes} {rest : List (Bytes × Bytes)}
      {events found : List Event} (at_ : w.loop = .scanning nextRev curRev (r :: rest) events)
      (scanned : scanRecords store.db w.pfx w.withPrevKV [r] = .ok found) :
      LoopEffect store w { w with loop := .scanning nextRev curRev rest (events ++ found) }
  | scanned {nextRev curRev : Int} {events : List Event}
      (at_ : w.loop = .scanning nextRev curRev [] events) :
      LoopEffect store w { w with loop := .sending nextRev curRev events }
  | send {nextRev curRev : Int} {event : Event} {rest : List Event}
      (at_ : w.loop = .sending nextRev curRev (event :: rest)) :
      LoopEffect store w { w with
        loop := .sending nextRev curRev rest
        delivered := w.delivered ++ [event] }
  | next {nextRev curRev : Int} (at_ : w.loop = .sending nextRev curRev []) :
      LoopEffect store w { w with loop := .waiting (wrap (curRev + 1)) }
  /-- The context, the store or a record that cannot be decoded. -/
  | stop : LoopEffect store w { w with loop := .closed }

variable {w next : Watcher} {store : Store} {s : WatchState} {startRev : Int}

theorem LoopEffect.of_advance {step : LoopStep} (advanced : w.advance store step = some next) :
    LoopEffect store w next := by
  revert advanced
  fun_cases w.advance store step <;> rintro ⟨⟩
  case case1 at_ reached => exact .wait at_ reached
  case case4 at_ => exact .load at_
  case case6 at_ => exact .scan at_
  case case8 at_ => exact .scanned at_
  case case9 => exact .stop
  case case10 at_ _ scanned => exact .record at_ scanned
  case case12 at_ => exact .next at_
  case case13 at_ => exact .send at_
  case case15 => exact .stop

inductive WatchEffect (s : WatchState) : WatchAction → WatchState → Prop
  | commit {es : List Entry} {next : Store} (idle : s.publishing = none)
      (applied : s.store.apply es = (next, none)) :
      WatchEffect s (.apply es) {
        store := { next with currentRev := s.store.currentRev, lastSeq := s.store.lastSeq }
        publishing := some next
        history := s.history ++ es
        watcher := s.watcher.map (Watcher.overtake (versions s.history) s.store.db next.db) }
  | fail {es : List Entry} {failed : Store} {err : StoreError} (idle : s.publishing = none)
      (applied : s.store.apply es = (failed, some err)) :
      WatchEffect s (.apply es) { s with store := failed, history := s.history ++ es }
  | publish {next : Store} (committed : s.publishing = some next) :
      WatchEffect s .publish { s with store := next, publishing := none }
  | storeWatch {pfx : Bytes} {startRev : Int} {withPrevKV : Bool} (none_ : s.watcher = none) :
      WatchEffect s (.storeWatch pfx startRev withPrevKV)
        { s with watcher := some (.start pfx startRev withPrevKV) }
  | refuse {pfx : Bytes} {startRev : Int} {withPrevKV : Bool} :
      WatchEffect s (.nodeWatch pfx startRev withPrevKV) s
  | nodeWatch {pfx : Bytes} {startRev storeStartRev : Int} {withPrevKV : Bool}
      (none_ : s.watcher = none) (accepted : s.store.nodeWatchStart startRev = .ok storeStartRev) :
      WatchEffect s (.nodeWatch pfx startRev withPrevKV)
        { s with watcher := some (.start pfx storeStartRev withPrevKV) }
  | loop {step : LoopStep} {w next : Watcher} (running : s.watcher = some w)
      (effect : LoopEffect s.store w next) :
      WatchEffect s (.loop step) { s with watcher := some next }

theorem WatchEffect.of_step {next : WatchState} {a : WatchAction}
    (stepped : watchStep s a = some next) : WatchEffect s a next := by
  revert stepped
  fun_cases watchStep s a <;> rintro ⟨⟩
  case case2 applied idle => exact .fail idle applied
  case case3 applied idle => exact .commit idle applied
  case case5 committed => exact .publish committed
  case case7 none_ => exact .storeWatch none_
  case case9 => exact .refuse
  case case10 accepted none_ => exact .nodeWatch none_ accepted
  case case13 running _ advanced => exact .loop running (LoopEffect.of_advance advanced)

/-! ## The store beside the watcher -/

/-- Pebble represents the history; the counters are those of the history, or still
those of the part of it before the last batch. -/
structure WatchState.Holds (s : WatchState) : Prop where
  pebble : Represents s.store.db (versions s.history) (watermarkOf s.history)
  idle : s.publishing = none → s.store.Represents s.history
  committed : ∀ next ∈ s.publishing, next.Represents s.history ∧ next.db = s.store.db
  nonneg : 0 ≤ s.store.currentRev
  bounded : s.store.currentRev ≤ revisionOf s.history

section Steps

variable {s next : WatchState} {a : WatchAction}

theorem WatchState.Holds.of_init (init : watchSystem.init s) : s.Holds := by
  obtain ⟨rep, idle, -⟩ := init
  refine ⟨rep.pebble, fun _ => rep, ?_, ?_, ?_⟩
  · rw [idle]
    intro next none_
    cases none_
  · rw [rep.currentRev]
    exact revisionOf_nonneg _
  · rw [rep.currentRev]

theorem WatchEffect.history (effect : WatchEffect s a next) :
    ∃ es, next.history = s.history ++ es := by
  cases effect with
  | commit _ _ | fail _ _ => exact ⟨_, rfl⟩
  | publish _ | storeWatch _ | refuse | nodeWatch _ _ | loop _ _ => exact ⟨[], by simp⟩

theorem WatchEffect.chained (effect : WatchEffect s a next) (chained : Chained next.history) :
    Chained s.history := by
  obtain ⟨es, grown⟩ := effect.history
  rw [grown] at chained
  exact chained.of_append

theorem WatchState.Holds.not_fail (holds : s.Holds) (idle : s.publishing = none) {es : List Entry}
    {failed : Store} {err : StoreError} (wf : WellFormed (s.history ++ es))
    (applied : s.store.apply es = (failed, some err)) : False := by
  obtain ⟨next, done, -⟩ := (holds.idle idle).apply wf
  rw [done] at applied
  cases applied

theorem WatchState.Holds.applied (holds : s.Holds) (idle : s.publishing = none) {es : List Entry}
    {after : Store} (wf : WellFormed (s.history ++ es))
    (applied : s.store.apply es = (after, none)) : after.Represents (s.history ++ es) := by
  obtain ⟨next, done, rep⟩ := (holds.idle idle).apply wf
  rw [done] at applied
  cases applied
  exact rep

theorem WatchState.Holds.step (holds : s.Holds) (effect : WatchEffect s a next)
    (wf : WellFormed next.history) : next.Holds := by
  cases effect with
  | @commit es after idle applied =>
    have rep := holds.applied idle wf applied
    have grown := revisionOf_append s.history es
    have bounded := holds.bounded
    refine ⟨rep.pebble, ?_, ?_, holds.nonneg, ?_⟩
    · intro none_
      cases none_
    · intro next isNext
      cases isNext
      exact ⟨rep, rfl⟩
    · show s.store.currentRev ≤ revisionOf (s.history ++ es)
      omega
  | fail idle applied => exact (holds.not_fail idle wf applied).elim
  | @publish after committed =>
    obtain ⟨rep, -⟩ := holds.committed after committed
    refine ⟨rep.pebble, fun _ => rep, ?_, ?_, ?_⟩
    · intro next none_
      cases none_
    · show 0 ≤ after.currentRev
      rw [rep.currentRev]
      exact revisionOf_nonneg _
    · exact rep.currentRev.le
  | storeWatch _ | refuse | nodeWatch _ _ | loop _ _ =>
    exact ⟨holds.pebble, holds.idle, holds.committed, holds.nonneg, holds.bounded⟩

end Steps

/-! ## Where the loop stands -/

/-- Where a loop started at `startRev` can stand while the counter is `currentRev`.
The log is ordered by revisions as unsigned numbers, so its position is `nextRev` as
such a number: past the largest revision `nextRev` itself is negative. -/
def WatchLoop.Placed (startRev currentRev : Int) : WatchLoop → Prop
  | .waiting nextRev => startRev + 1 ≤ uint64 nextRev ∧ nextRev ≤ uint64 nextRev ∧
    ((uint64 nextRev : Int) = nextRev ∧ nextRev = startRev + 1 ∨ uint64 nextRev ≤ currentRev + 1)
  | .woken nextRev => startRev + 1 ≤ uint64 nextRev ∧ nextRev ≤ uint64 nextRev ∧
    uint64 nextRev ≤ currentRev + 1
  | .loaded nextRev curRev | .scanning nextRev curRev _ _ | .sending nextRev curRev _ =>
    startRev + 1 ≤ uint64 nextRev ∧ nextRev ≤ uint64 nextRev ∧ uint64 nextRev ≤ curRev + 1 ∧
      0 ≤ curRev ∧ curRev ≤ currentRev
  | .closed => True

theorem WatchLoop.Placed.mono {low high : Int} {loop : WatchLoop} (le : low ≤ high)
    (placed : loop.Placed startRev low) : loop.Placed startRev high := by
  cases loop <;> simp only [WatchLoop.Placed] at placed ⊢ <;> omega

theorem WatchLoop.Placed.le_position {currentRev nextRev : Int} {loop : WatchLoop}
    (placed : loop.Placed startRev currentRev) (isNext : nextRev ∈ loop.nextRev) :
    nextRev ≤ uint64 nextRev := by
  cases loop with
  | closed => cases isNext
  | waiting _ | woken _ | loaded _ _ | scanning _ _ _ _ | sending _ _ _ =>
    cases isNext
    exact placed.2.1

/-- A watcher starts in place: at a revision that has a successor, or at one that is
applied already. -/
theorem WatchLoop.Placed.start {currentRev : Int} (low : -1 ≤ startRev)
    (fits : startRev + 1 < 2 ^ 63 ∨ startRev ≤ currentRev ∧ startRev < 2 ^ 63) :
    (WatchLoop.waiting (wrap (startRev + 1))).Placed startRev currentRev := by
  have position := uint64_wrap (x := startRev + 1) (by omega) (by omega)
  have le := wrap_le (x := startRev + 1) (by omega) (by omega)
  refine ⟨position.ge, by omega, ?_⟩
  rcases fits with below | reached
  · have same := wrap_of_isInt64 (x := startRev + 1) ⟨by omega, below⟩
    exact Or.inl ⟨by omega, same⟩
  · exact Or.inr (by omega)

theorem LoopEffect.placed (effect : LoopEffect store w next)
    (placed : w.loop.Placed w.startRev store.currentRev) (nonneg : 0 ≤ store.currentRev)
    (fits : store.currentRev < 2 ^ 63) : next.loop.Placed next.startRev store.currentRev := by
  cases effect with
  | wait at_ reached | load at_ =>
    rw [at_] at placed
    simp only [WatchLoop.Placed] at placed ⊢
    omega
  | scan at_ | record at_ _ | scanned at_ | send at_ =>
    rw [at_] at placed
    exact placed
  | @next nextRev curRev at_ =>
    rw [at_] at placed
    simp only [WatchLoop.Placed] at placed ⊢
    have position := uint64_wrap (x := curRev + 1) (by omega) (by omega)
    have le := wrap_le (x := curRev + 1) (by omega) (by omega)
    omega
  | stop => trivial

theorem LoopEffect.advances (effect : LoopEffect store w next)
    (placed : w.loop.Placed w.startRev store.currentRev) (fits : store.currentRev < 2 ^ 63)
    {nextRev : Int} (isNext : nextRev ∈ next.loop.nextRev) :
    ∃ old ∈ w.loop.nextRev, (uint64 old : Int) ≤ uint64 nextRev := by
  cases effect with
  | wait at_ _ | load at_ | scan at_ | record at_ _ | scanned at_ | send at_ =>
    cases isNext
    rw [at_]
    exact ⟨_, rfl, le_rfl⟩
  | @next old curRev at_ =>
    cases isNext
    rw [at_] at placed ⊢
    simp only [WatchLoop.Placed] at placed
    have position := uint64_wrap (x := curRev + 1) (by omega) (by omega)
    exact ⟨old, rfl, by omega⟩
  | stop => cases isNext

/-! ## What the watcher keeps -/

/-- A later state of the same watcher: it has delivered more. -/
structure Watcher.Extends (w next : Watcher) : Prop where
  pfx : next.pfx = w.pfx
  startRev : next.startRev = w.startRev
  delivered : w.delivered <+: next.delivered

theorem Watcher.Extends.wants (later : w.Extends next) (v : Version) :
    next.Wants v ↔ w.Wants v := by
  rw [Watcher.Wants, Watcher.Wants, later.pfx, later.startRev]

theorem LoopEffect.extends (effect : LoopEffect store w next) : w.Extends next := by
  cases effect with
  | send _ => exact ⟨rfl, rfl, List.prefix_append _ _⟩
  | wait _ _ | load _ | scan _ | record _ _ | scanned _ | next _ | stop =>
    exact ⟨rfl, rfl, List.prefix_rfl⟩

/-! ## A rule for properties of the watcher -/

/-- What has to be shown so that `K` holds of every watcher, with the history and the
store beside it, after every run whose steps meet `P`. -/
structure WatchRule (P : WatchState → WatchAction → Prop)
    (K : List Entry → Store → Watcher → Prop) : Prop where
  storeWatch : ∀ {s pfx startRev withPrevKV}, s.Holds → Chained s.history →
    P s (.storeWatch pfx startRev withPrevKV) →
    K s.history s.store (.start pfx startRev withPrevKV)
  nodeWatch : ∀ {s pfx startRev storeStartRev withPrevKV}, s.Holds → Chained s.history →
    P s (.nodeWatch pfx startRev withPrevKV) →
    s.store.nodeWatchStart startRev = .ok storeStartRev →
    K s.history s.store (.start pfx storeStartRev withPrevKV)
  commit : ∀ {s es after w}, s.Holds → s.publishing = none → Chained (s.history ++ es) →
    P s (.apply es) → s.watcher = some w → s.store.apply es = (after, none) →
    K s.history s.store w →
    K (s.history ++ es)
      { after with currentRev := s.store.currentRev, lastSeq := s.store.lastSeq }
      (w.overtake (versions s.history) s.store.db after.db)
  publish : ∀ {h store after w}, after.db = store.db → store.currentRev ≤ after.currentRev →
    K h store w → K h after w
  loop : ∀ {s : WatchState} {w next}, s.Holds → Chained s.history → LoopEffect s.store w next →
    K s.history s.store w → K s.history s.store next

/-- One step, whose effect on the history must leave it a history of the write path. -/
theorem WatchRule.step {P : WatchState → WatchAction → Prop}
    {K : List Entry → Store → Watcher → Prop} (rule : WatchRule P K) {next : WatchState}
    {a : WatchAction} (holds : s.Holds) (held : ∀ w ∈ s.watcher, K s.history s.store w)
    (meet : P s a) (effect : WatchEffect s a next) (chained : Chained next.history) :
    next.Holds ∧ ∀ w ∈ next.watcher, K next.history next.store w := by
  refine ⟨holds.step effect chained.wellFormed, ?_⟩
  intro w isWatcher
  cases effect with
  | commit idle applied =>
    obtain ⟨old, running, rfl⟩ := Option.map_eq_some_iff.mp isWatcher
    exact rule.commit holds idle chained meet running applied (held old running)
  | fail idle applied => exact (holds.not_fail idle chained.wellFormed applied).elim
  | @publish after committed =>
    obtain ⟨rep, sameDb⟩ := holds.committed after committed
    exact rule.publish sameDb (rep.currentRev ▸ holds.bounded) (held w isWatcher)
  | storeWatch none_ =>
    cases isWatcher
    exact rule.storeWatch (s := s) holds chained meet
  | refuse => exact held w isWatcher
  | nodeWatch none_ accepted =>
    cases isWatcher
    exact rule.nodeWatch (s := s) holds chained meet accepted
  | loop running loopEffect =>
    cases isWatcher
    exact rule.loop (s := s) holds chained loopEffect (held _ running)

/-- **Run rule for watchers.** -/
theorem WatchRule.run {P : WatchState → WatchAction → Prop}
    {K : List Entry → Store → Watcher → Prop} (rule : WatchRule P K) {start : WatchState}
    {actions : List WatchAction} (init : watchSystem.init start)
    (meets : watchSystem.Meets P start actions) (ran : watchSystem.run start actions = some s)
    (chained : Chained s.history) : s.Holds ∧ ∀ w ∈ s.watcher, K s.history s.store w := by
  have all := System.run_invariant
    (I := fun s => Chained s.history → s.Holds ∧ ∀ w ∈ s.watcher, K s.history s.store w)
    ?_ (fun _ => ⟨.of_init init, by simp [init.2.2]⟩) meets ran
  · exact all chained
  intro s a next inv meet stepped chained
  have effect := WatchEffect.of_step stepped
  obtain ⟨holds, held⟩ := inv (effect.chained chained)
  exact rule.step holds held meet effect chained

end T4.Mvcc
