import T4.Lib.SortedMap
import T4.Lib.System
import T4.Peer.Stream

/-!
# The alarm for lost followers

`internal/peer/server.go`: which losses of a follower are signalled on `DisconnectC`, the
channel on which `watchLoop` of the leader waits before it fences writes and looks at the lock.

A follower leaves the map in two ways. The clean-up of its stream removes it if the stream
still owns the entry, and signals unless the follower said goodbye. `Broadcast` and
`BroadcastCommit` remove it when its channel is full; the clean-up of that stream then finds
that it owns nothing and does not signal either. Goodbyes are recorded by name and are
forgotten only by a clean-up that owns its entry, so a goodbye that no such clean-up has
answered is still there when the follower comes back.
-/

namespace T4.Peer

open Lib

structure Channel where
  /-- Its identity: streams are numbered in the order of their registration. -/
  number : Nat
  queued : Nat := 0
  deriving DecidableEq

structure AlarmState where
  followers : SortedMap Bytes Channel := SortedMap.empty
  /-- The calls of `Follow` whose clean-up has not run. -/
  streams : List (Bytes × Nat) := []
  nextNumber : Nat := 0
  gracefulGoodbyes : List Bytes := []
  /-- A signal is pending in `DisconnectC`, which has room for one. -/
  disconnect : Bool := false
  /-- The streams during which their follower said goodbye. -/
  heard : List Nat := []
  deriving DecidableEq

inductive AlarmAction
  /-- `Follow` registers its channel. -/
  | follow (nodeID : Bytes)
  /-- The loop of `Follow` takes a message from its channel. -/
  | deliver (nodeID : Bytes)
  | broadcast
  | broadcastCommit
  /-- `Follow` returns: its stream failed or was cancelled, its channel was closed, or the
  leader shuts down. -/
  | endStream (nodeID : Bytes) (number : Nat)
  | goodBye (nodeID : Bytes)
  /-- `watchLoop` takes the signal. -/
  | takeSignal
  deriving DecidableEq

namespace AlarmState

/-- Send a message to every follower and remove those whose channel is full. -/
def fanOut (s : AlarmState) : AlarmState :=
  let toKick := (s.followers.entries.filter (fun f => chanCap ≤ f.2.queued)).map Prod.fst
  { s with
    followers := (s.followers.eraseMany toKick).mapValues
      (fun ch => { ch with queued := ch.queued + 1 }) }

/-- The deferred clean-up of `Follow`. -/
def cleanup (s : AlarmState) (nodeID : Bytes) (number : Nat) : AlarmState :=
  let s := { s with streams := s.streams.erase (nodeID, number) }
  match s.followers.get nodeID with
  | none => s
  | some cur =>
    if cur.number = number then
      let s := { s with followers := s.followers.erase nodeID }
      if nodeID ∈ s.gracefulGoodbyes then
        { s with gracefulGoodbyes := s.gracefulGoodbyes.filter (· ≠ nodeID) }
      else { s with disconnect := true }
    else s

end AlarmState

def alarmStep (s : AlarmState) : AlarmAction → Option AlarmState
  | .follow nodeID => some { s with
      followers := s.followers.insert nodeID { number := s.nextNumber }
      streams := (nodeID, s.nextNumber) :: s.streams
      nextNumber := s.nextNumber + 1 }
  | .deliver nodeID =>
    match s.followers.get nodeID with
    | none => none
    | some ch =>
      if 0 < ch.queued then some { s with
        followers := s.followers.insert nodeID { ch with queued := ch.queued - 1 } }
      else none
  | .broadcast => some s.fanOut
  | .broadcastCommit => some s.fanOut
  | .endStream nodeID number =>
    if (nodeID, number) ∈ s.streams then some (s.cleanup nodeID number) else none
  | .goodBye nodeID => some { s with
      gracefulGoodbyes := nodeID :: s.gracefulGoodbyes
      heard := match s.followers.get nodeID with
        | none => s.heard
        | some ch => ch.number :: s.heard }
  | .takeSignal => if s.disconnect then some { s with disconnect := false } else none

def alarmSystem : System AlarmState AlarmAction where
  init s := s = {}
  step := alarmStep

/-- A follower that leaves the map without a goodbye during its stream leaves a signal. -/
def Alarmed (s t : AlarmState) : Prop :=
  ∀ nodeID ch, s.followers.get nodeID = some ch → t.followers.get nodeID = none →
    ch.number ∉ s.heard → t.disconnect = true

/-- Nothing is broadcast while a channel is full, and no follower registers while a goodbye of
its name is recorded. -/
def AlarmCondition (s : AlarmState) : AlarmAction → Prop
  | .broadcast | .broadcastCommit => ∀ f ∈ s.followers.entries, f.2.queued < chanCap
  | .follow nodeID => nodeID ∉ s.gracefulGoodbyes
  | _ => True

instance (s : AlarmState) (a : AlarmAction) : Decidable (AlarmCondition s a) := by
  unfold AlarmCondition
  split <;> infer_instance

/-- A recorded goodbye was said during the stream that is registered under its name. -/
def GoodbyesHeard (s : AlarmState) : Prop :=
  ∀ nodeID ∈ s.gracefulGoodbyes, ∀ ch, s.followers.get nodeID = some ch → ch.number ∈ s.heard

variable {s t : AlarmState} {a : AlarmAction}

theorem get_fanOut (room : ∀ f ∈ s.followers.entries, f.2.queued < chanCap) (nodeID : Bytes) :
    s.fanOut.followers.get nodeID =
      (s.followers.get nodeID).map (fun ch => { ch with queued := ch.queued + 1 }) := by
  have none : s.followers.entries.filter (fun f => chanCap ≤ f.2.queued) = [] := by
    rw [List.filter_eq_nil_iff]
    intro f mem
    have := room f mem
    simp only [decide_eq_true_eq]
    omega
  have same : s.followers.eraseMany [] = s.followers := by
    simp [SortedMap.eraseMany]
  simp only [AlarmState.fanOut, none, List.map_nil, same, SortedMap.get_mapValues]

theorem cleanup_cases (s : AlarmState) (nodeID : Bytes) (number : Nat) :
    (∃ ch, s.followers.get nodeID = some ch ∧
      (s.cleanup nodeID number).followers = s.followers.erase nodeID ∧
      (nodeID ∈ s.gracefulGoodbyes ∨ (s.cleanup nodeID number).disconnect = true)) ∨
    (∀ ch, s.followers.get nodeID = some ch → ch.number ≠ number) ∧
      (s.cleanup nodeID number).followers = s.followers := by
  unfold AlarmState.cleanup
  cases found : s.followers.get nodeID with
  | none =>
    simp only [found]
    exact .inr ⟨nofun, trivial⟩
  | some cur =>
    simp only [found]
    by_cases owned : cur.number = number
    · left
      refine ⟨cur, rfl, ?_⟩
      rw [if_pos owned]
      split
      · rename_i graceful
        exact ⟨rfl, .inl graceful⟩
      · exact ⟨rfl, .inr rfl⟩
    · rw [if_neg owned]
      right
      refine ⟨?_, rfl⟩
      rintro ch ⟨⟩
      exact owned

theorem cleanup_goodbyes (s : AlarmState) (nodeID : Bytes) (number : Nat) :
    (s.cleanup nodeID number).gracefulGoodbyes ⊆ s.gracefulGoodbyes ∧
      (s.cleanup nodeID number).heard = s.heard := by
  unfold AlarmState.cleanup
  dsimp only
  split
  · exact ⟨List.Subset.refl _, rfl⟩
  · split
    · split
      · exact ⟨List.filter_subset_self _, rfl⟩
      · exact ⟨List.Subset.refl _, rfl⟩
    · exact ⟨List.Subset.refl _, rfl⟩

theorem alarmed_of_stays
    (stays : ∀ nodeID ch, s.followers.get nodeID = some ch → t.followers.get nodeID ≠ none) :
    Alarmed s t := by
  intro nodeID ch registered left
  exact absurd left (stays nodeID ch registered)

theorem alarmed_of_kept (kept : t.followers = s.followers) : Alarmed s t := by
  refine alarmed_of_stays (fun other ch registered => ?_)
  rw [kept, registered]
  exact nofun

theorem alarmed_of_insert {nodeID : Bytes} {chan : Channel}
    (inserted : t.followers = s.followers.insert nodeID chan) : Alarmed s t := by
  refine alarmed_of_stays (fun other ch registered => ?_)
  rw [inserted, SortedMap.get_insert]
  split
  · exact nofun
  · rw [registered]
    exact nofun

theorem GoodbyesHeard.step (heard : GoodbyesHeard s) (condition : AlarmCondition s a)
    (stepped : alarmStep s a = some t) : GoodbyesHeard t ∧ Alarmed s t := by
  -- what a broadcast with room in every channel does
  have fans : (∀ f ∈ s.followers.entries, f.2.queued < chanCap) →
      GoodbyesHeard s.fanOut ∧ Alarmed s s.fanOut := by
    intro room
    constructor
    · intro nodeID recorded ch registered
      rw [get_fanOut room, Option.map_eq_some_iff] at registered
      obtain ⟨old, found, rfl⟩ := registered
      exact heard nodeID recorded old found
    · refine alarmed_of_stays (fun nodeID ch registered => ?_)
      rw [get_fanOut room, registered]
      exact nofun
  cases a with
  | follow nodeID =>
    cases stepped
    constructor
    · intro other recorded ch registered
      have different : other ≠ nodeID := by
        rintro rfl
        exact condition recorded
      rw [SortedMap.get_insert, if_neg different] at registered
      exact heard other recorded ch registered
    · exact alarmed_of_insert rfl
  | deliver nodeID =>
    simp only [alarmStep] at stepped
    cases found : s.followers.get nodeID with
    | none =>
      rw [found] at stepped
      cases stepped
    | some cur =>
      simp only [found] at stepped
      split_ifs at stepped with waiting
      cases stepped
      constructor
      · intro other recorded ch registered
        rw [SortedMap.get_insert] at registered
        split_ifs at registered with same
        · cases registered
          exact heard other recorded cur (same ▸ found)
        · exact heard other recorded ch registered
      · exact alarmed_of_insert rfl
  | broadcast | broadcastCommit =>
    cases stepped
    exact fans condition
  | endStream nodeID number =>
    simp only [alarmStep] at stepped
    split_ifs at stepped
    cases stepped
    obtain ⟨fewer, sameHeard⟩ := cleanup_goodbyes s nodeID number
    rcases cleanup_cases s nodeID number with ⟨cur, found, removed, signalled⟩ | ⟨-, kept⟩
    · constructor
      · intro other recorded ch registered
        rw [removed, SortedMap.get_erase] at registered
        split_ifs at registered
        rw [sameHeard]
        exact heard other (fewer recorded) ch registered
      · intro other ch registered left silent
        rw [removed, SortedMap.get_erase] at left
        split_ifs at left with same
        · subst same
          rcases signalled with graceful | signal
          · exact absurd (heard other graceful ch registered) silent
          · exact signal
        · rw [registered] at left
          cases left
    · constructor
      · intro other recorded ch registered
        rw [kept] at registered
        rw [sameHeard]
        exact heard other (fewer recorded) ch registered
      · exact alarmed_of_kept kept
  | goodBye nodeID =>
    cases stepped
    constructor
    · intro other recorded ch registered
      rcases List.mem_cons.mp recorded with rfl | old
      · simp only [show s.followers.get other = some ch from registered, List.mem_cons_self]
      · have before := heard other old ch registered
        dsimp only
        split
        · exact before
        · exact List.mem_cons_of_mem _ before
    · exact alarmed_of_kept rfl
  | takeSignal =>
    simp only [alarmStep] at stepped
    split_ifs at stepped
    cases stepped
    exact ⟨heard, alarmed_of_kept rfl⟩

theorem get_cleanup_owned {nodeID : Bytes} {ch : Channel}
    (registered : s.followers.get nodeID = some ch) :
    (s.cleanup nodeID ch.number).followers.get nodeID = none := by
  rcases cleanup_cases s nodeID ch.number with ⟨-, -, removed, -⟩ | ⟨other, -⟩
  · rw [removed, SortedMap.get_erase, if_pos rfl]
  · exact absurd rfl (other ch registered)

/-- **Every unexpected loss of a follower raises the alarm**, in every run in which no
broadcast meets a full channel and no follower registers under a name whose goodbye is still
recorded. In particular the end of a stream is signalled whatever was said before it. -/
theorem lost_follower_alarms {actions : List AlarmAction} {s t : AlarmState} {a : AlarmAction}
    (ran : alarmSystem.run {} actions = some s)
    (meets : alarmSystem.Meets AlarmCondition {} actions)
    (condition : AlarmCondition s a) (stepped : alarmSystem.step s a = some t) :
    Alarmed s t ∧
      ∀ nodeID ch, a = .endStream nodeID ch.number → s.followers.get nodeID = some ch →
        ch.number ∉ s.heard → t.disconnect = true := by
  have heard : GoodbyesHeard s := by
    refine System.run_invariant ?_ ?_ meets ran
    · intro s a next heard condition stepped
      exact (heard.step condition stepped).1
    · exact nofun
  have alarmed := (heard.step condition stepped).2
  refine ⟨alarmed, ?_⟩
  rintro nodeID ch rfl registered silent
  refine alarmed nodeID ch registered ?_ silent
  simp only [alarmSystem, alarmStep] at stepped
  split_ifs at stepped
  cases stepped
  exact get_cleanup_owned registered

/-- A follower whose stream breaks. -/
theorem lost_follower_alarms_crash : ∃ s t,
    alarmSystem.run {} [.follow [1], .broadcast, .deliver [1]] = some s ∧
    alarmSystem.step s (.endStream [1] 0) = some t ∧ t.disconnect = true := by
  obtain ⟨s, ran, streams, follower, heard⟩ := alarmSystem.exists_of_run {}
    [.follow [1], .broadcast, .deliver [1]]
    (fun s => s.streams = [([1], 0)] ∧ s.followers.get [1] = some ⟨0, 0⟩ ∧ s.heard = [])
    (by decide +kernel)
  have stepped : alarmSystem.step s (.endStream [1] 0) = some (s.cleanup [1] 0) := by
    simp only [alarmSystem, alarmStep, streams, List.mem_singleton, if_true]
  have signals := (lost_follower_alarms ran (by decide +kernel)
    (show AlarmCondition s (.endStream [1] 0) from trivial) stepped).2 [1] ⟨0, 0⟩ rfl follower
  exact ⟨s, _, ran, stepped, signals (by rw [heard]; exact nofun)⟩

/-- The follower leaves in the step without an alarm, and said no goodbye during its stream. -/
def leavesSilently (nodeID : Bytes) (a : AlarmAction) (s : AlarmState) : Bool :=
  (alarmStep s a).any (fun t =>
    (s.followers.get nodeID).any (fun ch => ch.number ∉ s.heard) ∧
      t.followers.get nodeID = none ∧ t.disconnect = false)

/-- A follower that takes no message while 513 are broadcast is removed without a signal. A
goodbye that arrives after the end of a stream hides the end of the next one, and so does a
goodbye to a stream that is replaced before it ends. -/
theorem lost_follower_silent :
    (∃ s, alarmSystem.run {} (.follow [1] :: List.replicate chanCap .broadcast) = some s ∧
      leavesSilently [1] .broadcast s = true) ∧
    (∃ s, alarmSystem.run {} [.follow [1], .endStream [1] 0, .takeSignal, .goodBye [1],
        .follow [1]] = some s ∧ leavesSilently [1] (.endStream [1] 1) s = true) ∧
    ∃ s, alarmSystem.run {} [.follow [1], .goodBye [1], .follow [1]] = some s ∧
      leavesSilently [1] (.endStream [1] 1) s = true := by
  refine ⟨?_, ?_, ?_⟩
  · exact alarmSystem.exists_of_run {} _ _ (by decide +kernel)
  · exact alarmSystem.exists_of_run {} _ _ (by decide +kernel)
  · exact alarmSystem.exists_of_run {} _ _ (by decide +kernel)

end T4.Peer
