import T4.Lib.Epochs
import T4.Wal.Entry

/-!
# The peer stream

`internal/peer/server.go`, `internal/peer/client.go` and the follow loop of `follower.go`:
how the entries of one leader reach the stores of its followers.

The leader sends entries before they are durable and commit messages, each for a range of
sequences, once they are. A follower stages the entries in memory and writes them to its
WAL and its store when their commit message arrives. A message in flight is either in the
leader's channel for the follower or on the wire; the wire includes the client's buffer,
since only the order matters. Sequences have no bound here; the source adds in `int64`.
-/

namespace T4.Peer

open Wal Lib

/-! ## Messages and the ring buffer -/

inductive WalEntryMsg
  | entry (e : Entry)
  | commit (startRev rev : Int)
  deriving DecidableEq

/-- The message carries the sequence as its identity. -/
def entryToMsg (e : Entry) : WalEntryMsg := .entry { e with id := e.sequence }

theorem entryToMsg_eq {e : Entry} (numbered : e.id = e.sequence) : entryToMsg e = .entry e := by
  simp [entryToMsg, ← numbered]

/-- `entryBuffer.push`: the oldest entries beyond the capacity are lost. -/
def pushBuffer (cap : Nat) (buf : List Entry) (e : Entry) : List Entry :=
  let entries := buf ++ [e]
  if cap < entries.length then entries.drop (entries.length - cap) else entries

theorem mem_pushBuffer {cap : Nat} {buf : List Entry} {e other : Entry}
    (mem : other ∈ pushBuffer cap buf e) : other ∈ buf ∨ other = e := by
  have old : other ∈ buf ++ [e] := by
    simp only [pushBuffer] at mem
    split at mem
    · exact List.mem_of_mem_drop mem
    · exact mem
  rcases List.mem_append.mp old with before | new
  · exact Or.inl before
  · exact Or.inr (List.mem_singleton.mp new)

/-- `entryBuffer.since`: the entries from a sequence on, unless they are lost. -/
def since (buf : List Entry) (fromRev : Int) : Option (List Entry) :=
  match buf with
  | [] => some []
  | first :: _ =>
    if fromRev < first.sequence then none
    else some (buf.dropWhile (fun e => e.sequence < fromRev))

theorem mem_since {buf snapshot : List Entry} {fromRev : Int}
    (found : since buf fromRev = some snapshot) : ∀ e ∈ snapshot, e ∈ buf := by
  intro e mem
  unfold since at found
  split at found
  case h_1 =>
    cases found
    cases mem
  case h_2 =>
    simp only [Option.ite_none_left_eq_some] at found
    obtain ⟨-, same⟩ := found
    cases same
    exact (List.dropWhile_sublist _).subset mem

/-! ## The leader -/

def chanCap : Nat := 512

/-- One stream: the leader's channel and its filter, the wire, and what the follower has
staged. -/
structure Conn where
  ch : List WalEntryMsg := []
  /-- The channel is in the leader's map. -/
  registered : Bool := true
  maxSent : Int
  wire : List WalEntryMsg := []
  staged : List Entry := []

structure Server where
  startRev : Int
  buf : List Entry := []
  pending : List Entry := []

/-- Send to a channel; a follower whose channel is full is disconnected. -/
def Conn.push (msg : WalEntryMsg) (c : Conn) : Conn :=
  if c.registered then
    if c.ch.length < chanCap then { c with ch := c.ch ++ [msg] } else { c with registered := false }
  else c

/-- The loop of `BroadcastCommit` over the pending entries: the new ring buffer and the
entries that stay pending. -/
def commitPending (cap : Nat) (startRev rev : Int) :
    (buf pending : List Entry) → List Entry × List Entry
  | buf, [] => (buf, [])
  | buf, e :: rest =>
    -- An older entry that was never committed.
    if e.sequence < startRev then commitPending cap startRev rev buf rest
    else if e.sequence ≤ rev then commitPending cap startRev rev (pushBuffer cap buf e) rest
    else
      let (buf', keep) := commitPending cap startRev rev buf rest
      (buf', e :: keep)

/-- `Server.Follow` up to its loop: none is `ErrResyncRequired`. The snapshot and its
commit message are what the loop sends first. -/
def Server.follow (srv : Server) (fromRev : Int) : Option Conn :=
  if 0 < srv.startRev ∧ fromRev < srv.startRev then none
  else
    match since srv.buf fromRev with
    | none => none
    | some snapshot =>
      let commit := match snapshot.head?, snapshot.getLast? with
        | some first, some last => [.commit first.sequence last.sequence]
        | _, _ => []
      some {
        maxSent := (snapshot.getLast?.map Entry.sequence).getD (fromRev - 1)
        wire := snapshot.map entryToMsg ++ commit }

/-- One turn of the loop of `Server.Follow`. -/
def Conn.forward (c : Conn) : Option Conn :=
  match c.ch with
  | [] => none
  | .entry e :: rest =>
    if e.id ≤ c.maxSent then some { c with ch := rest }
    else some { c with ch := rest, maxSent := e.id, wire := c.wire ++ [.entry e] }
  | .commit startRev rev :: rest =>
    some { c with ch := rest, wire := c.wire ++ [.commit startRev rev] }

/-- How many followers `WaitForFollowers` waits for. -/
inductive WaitMode
  | none
  | quorum
  | all
  deriving DecidableEq

def requiredFollowerACKs (connected : Nat) : WaitMode → Nat
  | .none => 0
  | .all => connected
  | .quorum => (connected + 1) / 2

/-! ## The follower -/

inductive Phase
  /-- In `Client.Follow`, which keeps a `fromRev` of its own; between two attempts there is
  no stream. -/
  | following (fromRev : Int) (conn : Option Conn)
  /-- `Client.Follow` returned `ErrResyncRequired`. -/
  | resyncing

structure Follower where
  /-- `LastSequence` of the store. -/
  lastSeq : Int
  /-- The `fromRev` of the follow loop. -/
  fromRev : Int
  phase : Phase
  /-- `LastSequence` when the store was last opened or replaced. -/
  base : Int
  /-- What the follow loop has applied since then. -/
  live : List Entry := []
  /-- What the follow loop has ever written to the WAL. -/
  wal : List Entry := []

/-- What happens to a batch that passes the checks of `followOnce` and of the follow loop. -/
inductive Outcome
  | ok
  /-- `AppendBatch` fails with so many entries written. -/
  | walFails (written : Nat)
  | ackFails
  | applyFails
  deriving DecidableEq

/-- The ACK is sent after the append and before the apply. -/
def acknowledged : Outcome → Bool
  | .ok => true
  | .applyFails => true
  | _ => false

inductive FollowerAction
  /-- An attempt of `followOnce` reaches the leader. -/
  | connect
  /-- The leader sends the next message of the channel. -/
  | forward
  /-- The leader's side of the stream ends. -/
  | hangUp
  /-- The follower takes the next message from the wire. -/
  | deliver (outcome : Outcome)
  /-- The follower's side of the stream ends, with what is on the wire. -/
  | disconnect
  /-- `Client.Follow` returns because the leader is unreachable or shuts down, and the node
  is not promoted; it may have caught up from the bucket. -/
  | giveUp (caughtUp : Option Nat)
  /-- A resync: the checkpoint that is restored, if the store is behind it, and how far the
  replay gets, unless it fails. -/
  | resync (restored : Option Nat) (replay : Option (Option Nat))
  deriving DecidableEq

/-- The batch that a commit message takes from the staged entries, and what stays staged;
none is `ErrResyncRequired`. -/
def cutBatch (staged : List Entry) (startRev rev : Int) : Option (List Entry × List Entry) :=
  let staged := staged.dropWhile (fun e => e.sequence < startRev)
  let batch := staged.takeWhile (fun e => e.sequence ≤ rev)
  if batch.head?.map Entry.sequence = some startRev ∧
      batch.getLast?.map Entry.sequence = some rev ∧ Numbered Entry.sequence startRev batch then
    some (batch, staged.drop batch.length)
  else none

/-- A commit message without a start is for one sequence. -/
def commitStart (startRev rev : Int) : Int := if startRev = 0 then rev else startRev

namespace Follower

/-- `followOnce` at a commit message, with the two callbacks of the follow loop. -/
def commit (n : Follower) (clientFrom : Int) (conn : Conn) (startRev rev : Int)
    (outcome : Outcome) : Follower :=
  if rev < clientFrom then { n with phase := .following clientFrom (some conn) }
  else
    match cutBatch conn.staged (commitStart startRev rev) rev with
    | none => { n with phase := .resyncing }
    | some (batch, rest) =>
      if ¬ Numbered Entry.sequence n.fromRev batch then { n with phase := .resyncing }
      else
        let next := max clientFrom (rev + 1)
        match outcome with
        | .walFails written => { n with
            wal := n.wal ++ batch.take written
            phase := .following (commitStart startRev rev) none }
        | .ackFails => { n with wal := n.wal ++ batch, phase := .following next none }
        | .applyFails => { n with wal := n.wal ++ batch, phase := .following next none }
        | .ok => { n with
            wal := n.wal ++ batch
            live := n.live ++ batch
            lastSeq := max n.lastSeq rev
            fromRev := rev + 1
            phase := .following next (some { conn with staged := rest }) }

/-- The store is replaced by one that ends at this sequence. -/
def moveTo (n : Follower) : Option Int → Follower
  | none => n
  | some seq => { n with lastSeq := seq, base := seq, live := [] }

/-- One step of a follower; `position` are the sequences that the bucket can bring its store
to. -/
def step (srv : Server) (position : Nat → Int) (n : Follower) : FollowerAction → Option Follower
  | .connect =>
    match n.phase with
    | .following fromRev none =>
      match srv.follow fromRev with
      | none => some { n with phase := .resyncing }
      | some conn => some { n with phase := .following fromRev (some conn) }
    | _ => none
  | .forward =>
    match n.phase with
    | .following fromRev (some conn) =>
      conn.forward.map (fun conn' => { n with phase := .following fromRev (some conn') })
    | _ => none
  | .hangUp =>
    match n.phase with
    | .following fromRev (some conn) => some { n with
        phase := .following fromRev (some { conn with registered := false, ch := [] }) }
    | _ => none
  | .deliver outcome =>
    match n.phase with
    | .following fromRev (some conn) =>
      match conn.wire with
      | [] => none
      | .entry e :: rest => some { n with
          phase := .following fromRev
            (some { conn with wire := rest, staged := conn.staged ++ [e] }) }
      | .commit startRev rev :: rest =>
        some (n.commit fromRev { conn with wire := rest } startRev rev outcome)
    | _ => none
  | .disconnect =>
    match n.phase with
    | .following fromRev (some _) => some { n with phase := .following fromRev none }
    | _ => none
  | .giveUp caughtUp =>
    match n.phase with
    | .following _ none =>
      let n' := n.moveTo (caughtUp.map position)
      some { n' with phase := .following n'.fromRev none }
    | _ => none
  | .resync restored replay =>
    match n.phase with
    | .resyncing =>
      let n' := n.moveTo (restored.map position)
      match replay with
      -- The loop goes on with the `fromRev` that it had.
      | none => some { n' with phase := .following n'.fromRev none }
      | some replayed =>
        let n'' := n'.moveTo (replayed.map position)
        some { n'' with
          fromRev := n''.lastSeq + 1, phase := .following (n''.lastSeq + 1) none }
    | _ => none

/-- What a step does, by the way it takes through `step`. -/
inductive Steps (srv : Server) (position : Nat → Int) (n : Follower) :
    FollowerAction → Follower → Prop
  | refused {fromRev : Int} (isAt : n.phase = .following fromRev none) :
    Steps srv position n .connect { n with phase := .resyncing }
  | connected {fromRev : Int} {conn : Conn} (isAt : n.phase = .following fromRev none)
    (found : srv.follow fromRev = some conn) :
    Steps srv position n .connect { n with phase := .following fromRev (some conn) }
  | forwarded {fromRev : Int} {conn conn' : Conn} (isAt : n.phase = .following fromRev (some conn))
    (moved : conn.forward = some conn') :
    Steps srv position n .forward { n with phase := .following fromRev (some conn') }
  | hungUp {fromRev : Int} {conn : Conn} (isAt : n.phase = .following fromRev (some conn)) :
    Steps srv position n .hangUp { n with
      phase := .following fromRev (some { conn with registered := false, ch := [] }) }
  | staged {fromRev : Int} {conn : Conn} {e : Entry} {rest : List WalEntryMsg} {outcome : Outcome}
    (isAt : n.phase = .following fromRev (some conn)) (isNext : conn.wire = .entry e :: rest) :
    Steps srv position n (.deliver outcome) { n with
      phase := .following fromRev (some { conn with wire := rest, staged := conn.staged ++ [e] }) }
  | delivered {fromRev startRev rev : Int} {conn : Conn} {rest : List WalEntryMsg}
    {outcome : Outcome} (isAt : n.phase = .following fromRev (some conn))
    (isNext : conn.wire = .commit startRev rev :: rest) :
    Steps srv position n (.deliver outcome)
      (n.commit fromRev { conn with wire := rest } startRev rev outcome)
  | disconnected {fromRev : Int} {conn : Conn} (isAt : n.phase = .following fromRev (some conn)) :
    Steps srv position n .disconnect { n with phase := .following fromRev none }
  | moved {action : FollowerAction} {seq? : Option Int}
    (cause : (∃ count, action = .giveUp count ∧ seq? = count.map position) ∨
      ∃ count, action = .resync count none ∧ seq? = count.map position) :
    Steps srv position n action { n.moveTo seq? with
      phase := .following (n.moveTo seq?).fromRev none }
  | resynced (restored replayed : Option Nat) :
    Steps srv position n (.resync restored (some replayed))
      (let n' := (n.moveTo (restored.map position)).moveTo (replayed.map position)
      { n' with fromRev := n'.lastSeq + 1, phase := .following (n'.lastSeq + 1) none })

theorem Steps.of_step {srv : Server} {position : Nat → Int} {n n' : Follower}
    {action : FollowerAction} (stepped : n.step srv position action = some n') :
    Steps srv position n action n' := by
  revert stepped
  fun_cases step srv position n action <;> intro stepped <;> try cases stepped
  case case1 isAt _ => exact .refused isAt
  case case2 isAt _ found => exact .connected isAt found
  case case4 isAt =>
    obtain ⟨conn', moved, rfl⟩ := Option.map_eq_some_iff.mp stepped
    exact .forwarded isAt moved
  case case6 isAt => exact .hungUp isAt
  case case9 isAt _ _ isNext => exact .staged isAt isNext
  case case10 isAt _ _ _ isNext => exact .delivered isAt isNext
  case case12 isAt => exact .disconnected isAt
  case case14 => exact .moved (Or.inl ⟨_, rfl, rfl⟩)
  case case16 => exact .moved (Or.inr ⟨_, rfl, rfl⟩)
  case case17 => exact .resynced _ _

/-- A message of the leader to this follower. -/
def push (msg : WalEntryMsg) (n : Follower) : Follower :=
  match n.phase with
  | .following fromRev (some conn) =>
    { n with phase := .following fromRev (some (conn.push msg)) }
  | _ => n

end Follower

end T4.Peer
