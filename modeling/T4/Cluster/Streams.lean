import T4.Cluster.Agreement
import T4.Peer.Replication

/-!
# Streams of the cluster

The cluster's `receive` is what the messages of a stream do to a follower: in every run of
a leadership, a message that the follower takes from the wire changes neither its WAL nor
its store, or it is the `receive` of a batch of committed entries.
-/

namespace T4.Cluster

open Lib Wal
open Peer (WaitMode)

/-- A node of the cluster and the follower of a stream; the node had the log and the store
when the stream's leadership began, or when its store was replaced. -/
structure Mirrors (log store : List Entry) (n : Peer.Follower) (node : Node) : Prop where
  place : ∃ session cleared, node.role = .follower n.fromRev session cleared
  log : node.log = log ++ n.wal
  store : node.store = store ++ n.live

variable {log store : List Entry} {n : Peer.Follower} {node : Node}

theorem Mirrors.move (mirrors : Mirrors log store n node) (phase : Peer.Phase) :
    Mirrors log store { n with phase } node :=
  ⟨mirrors.place, mirrors.log, mirrors.store⟩

theorem Mirrors.receive (mirrors : Mirrors log store n node) {batch : List Entry} {last : Entry}
    {rev : Int} (ends : last.sequence = rev) (phase : Peer.Phase) (session : Session)
    (outcome : Peer.Outcome) :
    Mirrors log store (n.taken batch rev phase outcome)
      (node.receive batch last outcome n.fromRev session) := by
  have written : ∀ part : List Entry, node.log ++ part = log ++ (n.wal ++ part) := by
    intro part
    rw [mirrors.log, List.append_assoc]
  cases outcome with
  | walFails count | ackFails | applyFails => exact ⟨⟨none, false, rfl⟩, written _, mirrors.store⟩
  | ok =>
    refine ⟨⟨some session, false, ?_⟩, written _, ?_⟩
    · change Role.follower (last.sequence + 1) (some session) false = _
      rw [ends]
      rfl
    · change node.store ++ batch = store ++ (n.live ++ batch)
      rw [mirrors.store, List.append_assoc]

theorem receive_enabled (cap : Nat) (mode : WaitMode) {s : ClusterState} {id : String}
    {fromRev : Int} {session : Session} {cleared : Bool}
    (follows : (s.nodes id).role = .follower fromRev (some session) cleared) {batch : List Entry}
    {last : Entry} (sub : batch ⊆ s.committed session.term)
    (consecutive : Numbered Entry.sequence fromRev batch) (isLast : batch.getLast? = some last)
    (outcome : Peer.Outcome) :
    ∃ t, clusterStep cap mode s (.receive id batch outcome) = some t ∧
      t.nodes id = (s.nodes id).receive batch last outcome fromRev session := by
  simp only [clusterStep, follows, isLast]
  rw [if_pos ⟨sub, consecutive⟩]
  exact ⟨_, rfl, ClusterState.setNode_self⟩

/-- A message of a stream is no step of the cluster, or it is a `receive`. -/
theorem deliver_mirrored {F : Type*} [DecidableEq F] {cap cap' : Nat} {mode : WaitMode}
    {repl repl' : Peer.ReplState F} {f : F} {outcome : Peer.Outcome} {s : ClusterState}
    {id : String} {session : Session} {cleared : Bool}
    (reached : (Peer.replSystem cap).Reachable repl)
    (delivered : Peer.replStep cap repl (.follower f (.deliver outcome)) = some repl')
    (follows : (s.nodes id).role =
      .follower (repl.followers f).fromRev (some session) cleared)
    (committed : repl.committed ⊆ s.committed session.term)
    (mirrors : Mirrors log store (repl.followers f) (s.nodes id)) :
    Mirrors log store (repl'.followers f) (s.nodes id) ∨
      ∃ batch t, clusterStep cap' mode s (.receive id batch outcome) = some t ∧
        Mirrors log store (repl'.followers f) (t.nodes id) := by
  have inv : repl.Inv := reached.invariant Peer.ReplState.Inv.init
    (fun inv stepped => inv.step stepped)
  obtain ⟨n, moved, same⟩ := Option.map_eq_some_iff.mp delivered
  cases same
  dsimp only
  rw [Function.update_self]
  cases Peer.Follower.Steps.of_step moved with
  | staged => exact Or.inl (mirrors.move _)
  | @delivered fromRev startRev rev conn rest _ isAt isNext =>
    obtain ⟨-, covers⟩ := (inv.streams f fromRev conn isAt).deliver_commit isNext
    rcases (repl.followers f).commit_cases fromRev { conn with wire := rest } startRev rev outcome
      with ⟨phase, handled, -⟩ | ⟨batch, staged, phase, found, consecutive, handled, -⟩
    · rw [handled]
      exact Or.inl (mirrors.move phase)
    · have sub : batch ⊆ s.committed session.term :=
        List.Subset.trans (Peer.Follower.cutBatch_committed covers found) committed
      obtain ⟨-, ⟨last, isLast, ends⟩, -⟩ := Peer.cutBatch_spec found
      obtain ⟨t, stepped, received⟩ :=
        receive_enabled cap' mode follows sub consecutive isLast outcome
      refine Or.inr ⟨batch, t, stepped, ?_⟩
      rw [handled, received]
      exact mirrors.receive ends phase session outcome
  | moved cause => simp at cause

end T4.Cluster
