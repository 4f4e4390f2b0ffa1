import T4.Peer.Replication

/-!
# Acknowledgements

`WaitForFollowers` and the ACK side of `Server.Follow` in `internal/peer/server.go`, over the
replication of one leadership.

The leader has one channel for every follower that is connected, under the follower's ID. A
stream that connects under the same ID replaces the channel, a channel that is full is closed
and removed, and a `Follow` that returns removes the channel if it still owns it. The last
ACK is kept under the ID as well, and only the `Follow` that owns the channel removes it: a
new stream may find the value of an old one. The ACKs of a stream whose channel is no longer
registered are dropped.

A process may come back without its data directory. `Follower.wal` keeps all that was ever
appended under an ID; of it, `Link.cut` entries are lost, and a stream is recorded with the
number that was lost when it was opened.
-/

namespace T4.Peer

open Lib Wal

variable {F : Type*}

/-! ## The followers -/

namespace Follower

def conn (n : Follower) : Option Conn :=
  match n.phase with
  | .following _ conn => conn
  | .resyncing => none

/-- The `FromRevision` of the stream that it opens next. -/
def asks (n : Follower) : Option Int :=
  match n.phase with
  | .following fromRev none => some fromRev
  | _ => none

/-- The ACK that the follower sends when it takes the next message: after `walFn` has
appended the batch of a commit message. -/
def ack (n : Follower) (outcome : Outcome) : Option Int :=
  match n.phase with
  | .following clientFrom (some conn) =>
    match conn.wire with
    | .commit startRev rev :: _ =>
      if rev < clientFrom then none
      else
        match cutBatch conn.staged (commitStart startRev rev) rev with
        | none => none
        | some (batch, _) =>
          if ¬ Numbered Entry.sequence n.fromRev batch then none
          else if acknowledged outcome then some rev else none
    | _ => none
  | _ => none

/-- The bucket never takes a store back: a checkpoint is restored if the store is behind it,
and a replay adds to the store. -/
def Forward (position : Nat → Int) (n : Follower) : FollowerAction → Prop
  | .giveUp caughtUp => ∀ count ∈ caughtUp, n.lastSeq ≤ position count
  | .resync restored replay =>
    (∀ count ∈ restored, n.lastSeq ≤ position count) ∧
      ∀ replayed ∈ replay, ∀ count ∈ replayed,
        (n.moveTo (restored.map position)).lastSeq ≤ position count
  | _ => True

instance (position : Nat → Int) (n : Follower) (action : FollowerAction) :
    Decidable (Forward position n action) := by
  rcases action with _ | _ <;> unfold Forward <;> infer_instance

/-- The process starts again: `Open` has recovered a store up to the sequence. -/
def restart (n : Follower) (seq : Int) : Follower :=
  { n with
    lastSeq := seq
    fromRev := seq + 1
    phase := .following (seq + 1) none
    base := seq
    live := [] }

end Follower

/-! ## The leader -/

/-- What belongs to the ID of one follower. -/
structure Link where
  /-- `FromRevision` of its streams, and what was lost before each; the channel of a stream is
  its place in the list. -/
  streams : List (Int × Nat) := []
  /-- `followerAckRevs`, 0 when there is none. -/
  ackRev : Int := 0
  /-- The ACKs that are on the way, with the channels of their streams. -/
  sent : List (Nat × Int) := []
  /-- How many of the entries it has appended are lost. -/
  cut : Nat := 0
  /-- Its process has come back with less than it had. -/
  lost : Bool := false

/-- A call of `WaitForFollowers` with its snapshot. -/
structure Wait (F : Type*) where
  rev : Int
  mode : WaitMode
  required : List F
  deriving DecidableEq

structure AckState (F : Type*) where
  repl : ReplState F
  /-- `followers`: the connected followers and their channels. -/
  followers : List (F × Nat) := []
  links : F → Link := fun _ => {}
  wait : Option (Wait F) := none

inductive AckAction (F : Type*)
  | repl (action : ReplAction F)
  /-- A follower's process ends and starts again, with a store that ends at this sequence, and
  with its WAL or without it. -/
  | restart (f : F) (seq : Int) (keeps : Bool)
  /-- The `Follow` of a channel that the follower no longer reads returns. -/
  | leave (f : F) (chan : Nat)
  /-- A channel that the follower no longer reads is full. -/
  | kick (f : F) (chan : Nat)
  /-- An ACK of a follower arrives. -/
  | receiveAck (f : F) (i : Nat)
  /-- `WaitForFollowers` is called. -/
  | call (rev : Int) (mode : WaitMode)
  /-- `WaitForFollowers` returns nil. -/
  | back
  deriving DecidableEq

namespace AckState

variable [DecidableEq F]

/-- The follower reads the channel. -/
def Reads (s : AckState F) (f : F) (chan : Nat) : Prop :=
  (s.repl.followers f).conn.isSome ∧ chan + 1 = (s.links f).streams.length

instance (s : AckState F) (f : F) (chan : Nat) : Decidable (s.Reads f chan) :=
  inferInstanceAs (Decidable (_ ∧ _))

def remove (s : AckState F) (f : F) : List (F × Nat) := s.followers.filter (fun p => p.1 ≠ f)

def setLink (s : AckState F) (f : F) (link : Link) : AckState F :=
  { s with links := Function.update s.links f link }

/-- The end of a `Follow`: only the owner of the channel removes it. -/
def cleanup (s : AckState F) (f : F) (chan : Nat) : AckState F :=
  if (f, chan) ∈ s.followers then
    { s.setLink f { s.links f with ackRev := 0 } with followers := s.remove f }
  else s

/-- A `Follow` registers its channel. -/
def register (s : AckState F) (f : F) (fromRev : Int) : AckState F :=
  { s.setLink f { s.links f with
      streams := (s.links f).streams ++ [(fromRev, (s.links f).cut)] } with
    followers := (f, (s.links f).streams.length) :: s.remove f }

/-- The channel was not closed when a message was sent to it. -/
def IsOpen (s : AckState F) (p : F × Nat) : Bool :=
  match (s.repl.followers p.1).conn with
  | some conn => conn.registered || !decide (s.Reads p.1 p.2)
  | none => true

def send (s : AckState F) (f : F) (rev : Int) : AckState F :=
  let link := s.links f
  s.setLink f { link with sent := link.sent ++ [(link.streams.length - 1, rev)] }

/-- What a step of the replication does to the leader's maps. -/
def after (s : AckState F) (repl : ReplState F) : ReplAction F → AckState F
  | .follower f .connect =>
    match (s.repl.followers f).phase, (repl.followers f).conn with
    | .following fromRev none, some _ => { s.register f fromRev with repl }
    | _, _ => { s with repl }
  | .follower f .hangUp =>
    { s.cleanup f ((s.links f).streams.length - 1) with repl }
  | .follower f (.deliver outcome) =>
    match (s.repl.followers f).ack outcome with
    | some rev => { s.send f rev with repl }
    | none => { s with repl }
  | .follower _ _ => { s with repl }
  | _ =>
    let s' := { s with repl }
    { s' with followers := s.followers.filter s'.IsOpen }

def Forward (s : AckState F) : ReplAction F → Prop
  | .follower f action => (s.repl.followers f).Forward s.repl.position action
  | _ => True

instance (s : AckState F) (action : ReplAction F) : Decidable (s.Forward action) := by
  rcases action with _ | _ <;> unfold Forward <;> infer_instance

/-- `Open` recovers what is left: without the WAL, or with less than the follow loop had
reached, the ACKs sent so far no longer stand for what the follower has. -/
def restart (s : AckState F) (f : F) (seq : Int) (keeps : Bool) : AckState F :=
  let n := s.repl.followers f
  let link := s.links f
  { s.setLink f { link with
      cut := if keeps then link.cut else n.wal.length
      lost := link.lost || !keeps || decide (seq + 1 < n.fromRev) } with
    repl := { s.repl with followers := Function.update s.repl.followers f (n.restart seq) } }

def Connected (s : AckState F) (f : F) : Prop := f ∈ s.followers.map Prod.fst

instance (s : AckState F) (f : F) : Decidable (s.Connected f) :=
  inferInstanceAs (Decidable (_ ∈ _))

/-- The check in the loop of `WaitForFollowers`, with the returns before the loop. -/
def Returns (s : AckState F) (w : Wait F) : Prop :=
  let target := requiredFollowerACKs w.required.length w.mode
  let acked := w.required.countP (fun f => s.Connected f ∧ w.rev ≤ (s.links f).ackRev)
  let pending := w.required.countP (fun f => s.Connected f ∧ ¬ w.rev ≤ (s.links f).ackRev)
  w.required = [] ∨ target = 0 ∨ target ≤ acked ∨ pending = 0

instance (s : AckState F) (w : Wait F) : Decidable (s.Returns w) :=
  inferInstanceAs (Decidable (_ ∨ _ ∨ _ ∨ _))

end AckState

def ackStep [DecidableEq F] (cap : Nat) (s : AckState F) : AckAction F → Option (AckState F)
  | .repl action =>
    if s.Forward action then
      (replStep cap s.repl action).map (fun repl => s.after repl action)
    else none
  | .restart f seq keeps => some (s.restart f seq keeps)
  | .leave f chan => if s.Reads f chan then none else some (s.cleanup f chan)
  | .kick f chan =>
    if ¬ s.Reads f chan ∧ (f, chan) ∈ s.followers then some { s with followers := s.remove f }
    else none
  | .receiveAck f i =>
    match (s.links f).sent[i]? with
    | none => none
    | some (chan, rev) =>
      let link := { s.links f with sent := (s.links f).sent.eraseIdx i }
      if (f, chan) ∈ s.followers then
        some (s.setLink f { link with ackRev := max link.ackRev rev })
      else some (s.setLink f link)
  | .call rev mode =>
    match s.wait with
    | none => some { s with wait := some ⟨rev, mode, s.followers.map Prod.fst⟩ }
    | some _ => none
  | .back =>
    match s.wait with
    | none => none
    | some w => if s.Returns w then some { s with wait := none } else none

def ackSystem [DecidableEq F] (cap : Nat) : System (AckState F) (AckAction F) where
  init s := ∃ repl, (replSystem cap).init repl ∧ s = { repl }
  step := ackStep cap

/-- The follower is connected and has appended every committed entry of its stream up to the
sequence, to the WAL with which it opened the stream. -/
def AckState.Appended (s : AckState F) (f : F) (rev : Int) : Prop :=
  ∃ chan fromRev cut, (f, chan) ∈ s.followers ∧
    (s.links f).streams[chan]? = some (fromRev, cut) ∧
    ∀ e ∈ s.repl.committed, fromRev ≤ e.sequence → e.sequence ≤ rev →
      e ∈ (s.repl.followers f).wal.drop cut

/-- A follower that has come back with less than it had registers above the ACK that is
recorded under its ID. -/
def AckState.RegistersAbove (s : AckState F) : AckAction F → Prop
  | .repl (.follower f .connect) =>
    (s.links f).lost → ∀ fromRev ∈ (s.repl.followers f).asks, (s.links f).ackRev < fromRev
  | _ => True

instance (s : AckState F) (action : AckAction F) : Decidable (s.RegistersAbove action) := by
  rcases action with ⟨_ | _ | ⟨_, _ | _⟩⟩ | _ <;> unfold AckState.RegistersAbove <;>
    infer_instance

/-- What the mode asks for: with the leader a majority of the nodes, or all of them. -/
def Wait.Enough (w : Wait F) : Prop :=
  match w.mode with
  | .quorum =>
    w.required.length + 1 < 2 * (requiredFollowerACKs w.required.length .quorum + 1)
  | .all => requiredFollowerACKs w.required.length .all = w.required.length
  | .none => True

/-- As many of the followers as the mode asks for have appended the entries, or every one
that has not is gone. -/
def AckState.Durable (s : AckState F) (w : Wait F) : Prop :=
  (∃ durable : List F, durable.Sublist w.required ∧
    requiredFollowerACKs w.required.length w.mode ≤ durable.length ∧
    ∀ f ∈ durable, s.Appended f w.rev) ∨
  ∀ f ∈ w.required, ¬ s.Appended f w.rev → f ∉ s.followers.map Prod.fst

/-! ## What an ACK stands for -/

/-- The sequence is one of a committed entry, and the committed entries from `x` up to it are
in the WAL. -/
def Backed (committed wal : List Entry) (x rev : Int) : Prop :=
  (∃ e ∈ committed, e.sequence = rev) ∧
    ∀ e ∈ committed, x ≤ e.sequence → e.sequence ≤ rev → e ∈ wal

namespace Backed

variable {committed new wal wal' batch : List Entry} {x x' rev : Int}

theorem mono (backed : Backed committed wal x rev) (more : wal ⊆ wal') (later : x ≤ x') :
    Backed committed wal' x' rev :=
  ⟨backed.1, fun e mem above upTo => more (backed.2 e mem (later.trans above) upTo)⟩

theorem grow (backed : Backed committed wal x rev)
    (above : ∀ e ∈ committed, ∀ e' ∈ new, e.sequence < e'.sequence) :
    Backed (committed ++ new) wal x rev := by
  obtain ⟨⟨last, isLast, ends⟩, held⟩ := backed
  refine ⟨⟨last, List.mem_append_left _ isLast, ends⟩, ?_⟩
  intro e mem notBelow upTo
  rcases List.mem_append.mp mem with old | isNew
  · exact held e old notBelow upTo
  · have := above last isLast e isNew
    omega

theorem of_batch (sorted : committed.Pairwise (fun a b => a.sequence < b.sequence))
    (sub : batch ⊆ committed) (numbered : Numbered Entry.sequence x batch) {last : Entry}
    (isLast : last ∈ batch.getLast?) (ends : last.sequence = rev) :
    Backed committed (wal ++ batch) x rev := by
  refine ⟨⟨last, sub (List.mem_of_getLast? isLast), ends⟩, ?_⟩
  intro e mem above upTo
  have reaches := numbered.getLast_next isLast
  obtain ⟨y, inBatch, same⟩ := numbered.exists_number above (by omega)
  exact List.mem_append_right _ (eq_of_sorted_number sorted (sub inBatch) mem same ▸ inBatch)

theorem join (before : x' ≤ x ∨ Backed committed wal x (x' - 1))
    (next : Backed committed wal' x' rev) (more : wal ⊆ wal') : Backed committed wal' x rev := by
  refine ⟨next.1, ?_⟩
  intro e mem above upTo
  rcases le_or_gt x' e.sequence with inBatch | older
  · exact next.2 e mem inBatch upTo
  · rcases before with nothing | backed
    · omega
    · exact more (backed.2 e mem above (by omega))

end Backed

/-! ## Steps of a follower -/

namespace Follower

/-- The follow loop asks for nothing that is in the store, and the client for nothing that it
has appended for the loop. -/
structure Ahead (n : Follower) : Prop where
  stored : n.fromRev ≤ n.lastSeq + 1
  client : ∀ clientFrom conn, n.phase = .following clientFrom conn → n.fromRev ≤ clientFrom

/-- A step of a follower, by what it does to its WAL and its place. -/
inductive Moves (committed : List Entry) (n : Follower) : FollowerAction → Follower → Prop
  | connected {clientFrom : Int} {conn : Conn} (idle : n.phase = .following clientFrom none) :
    Moves committed n .connect { n with phase := .following clientFrom (some conn) }
  | moved {action : FollowerAction} {phase : Phase}
    (stays : ({ n with phase } : Follower).conn.isSome → n.conn.isSome ∧ action ≠ .connect)
    (client : ∀ clientFrom conn, phase = .following clientFrom conn → n.fromRev ≤ clientFrom)
    (silent : ∀ outcome, action = .deliver outcome → n.ack outcome = none) :
    Moves committed n action { n with phase }
  | took {batch : List Entry} {rev : Int} {phase : Phase} {outcome : Outcome}
    (streams : n.conn.isSome)
    (stays : ({ n with phase } : Follower).conn.isSome → outcome = .ok)
    (client : ∀ clientFrom conn, phase = .following clientFrom conn →
      (n.taken batch rev phase outcome).fromRev ≤ clientFrom)
    (sent : n.ack outcome = if acknowledged outcome then some rev else none)
    (reaches : n.fromRev ≤ rev)
    (backed : ∀ wal, Backed committed (wal ++ batch) n.fromRev rev) :
    Moves committed n (.deliver outcome) (n.taken batch rev phase outcome)
  | replaced {action : FollowerAction} {n' : Follower} (wal : n'.wal = n.wal)
    (closed : n'.conn = none) (later : n.fromRev ≤ n'.fromRev) (ahead : n'.Ahead)
    (silent : ∀ outcome, action ≠ .deliver outcome) : Moves committed n action n'

variable {known : Entry → Prop} {committed : List Entry} {n n' : Follower}

theorem cutBatch_first {staged batch rest : List Entry} {startRev rev fromRev : Int}
    (found : cutBatch staged startRev rev = some (batch, rest))
    (consecutive : Numbered Entry.sequence fromRev batch) : fromRev = startRev := by
  simp only [cutBatch, Option.ite_none_right_eq_some] at found
  obtain ⟨⟨isFirst, -, -⟩, same⟩ := found
  cases same
  obtain ⟨first, isHead, starts⟩ := Option.map_eq_some_iff.mp isFirst
  obtain ⟨later, shape⟩ := List.head?_eq_some_iff.mp isHead
  rw [shape] at consecutive
  exact consecutive.1.symm.trans starts

theorem Moves.of_commit {clientFrom startRev rev : Int} {conn : Conn} {rest : List WalEntryMsg}
    {outcome : Outcome} (isAt : n.phase = .following clientFrom (some conn))
    (isNext : conn.wire = .commit startRev rev :: rest) (ahead : n.Ahead)
    (sorted : committed.Pairwise (fun a b => a.sequence < b.sequence))
    (covers : ∀ e ∈ conn.staged, commitStart startRev rev ≤ e.sequence → e.sequence ≤ rev →
      e ∈ committed) :
    Moves committed n (.deliver outcome)
      (n.commit clientFrom { conn with wire := rest } startRev rev outcome) := by
  have reads : n.conn.isSome := by rw [Follower.conn, isAt]; rfl
  have client := ahead.client clientFrom (some conn) isAt
  have silent : ∀ {outcome' : Outcome}, n.ack outcome = none →
      FollowerAction.deliver outcome = .deliver outcome' → n.ack outcome' = none := by
    intro outcome' none same
    cases same
    exact none
  unfold Follower.commit
  split
  case isTrue old =>
    refine .moved (fun _ => ⟨reads, fun same => by cases same⟩) ?_ (fun _ => silent ?_)
    · intro _ _ same
      cases same
      exact client
    · simp only [ack, isAt, isNext]
      rw [if_pos old]
  case isFalse new =>
    split
    case h_1 missing =>
      refine .moved (fun some => by cases some) (fun _ _ same => by cases same) (fun _ => silent ?_)
      simp only [ack, isAt, isNext]
      rw [if_neg new, missing]
    case h_2 batch staged found =>
      split
      case isTrue gap =>
        refine .moved (fun some => by cases some) (fun _ _ same => by cases same)
          (fun _ => silent ?_)
        simp only [ack, isAt, isNext]
        rw [if_neg new, found]
        exact if_pos gap
      case isFalse consecutive =>
        have sent : n.ack outcome = if acknowledged outcome then some rev else none := by
          simp only [ack, isAt, isNext]
          rw [if_neg new, found]
          exact if_neg consecutive
        rw [not_not] at consecutive
        obtain ⟨-, ⟨last, isLast, ends⟩, -⟩ := cutBatch_spec found
        have backed (wal : List Entry) : Backed committed (wal ++ batch) n.fromRev rev :=
          .of_batch sorted (cutBatch_committed covers found) consecutive isLast ends
        have reaches : n.fromRev ≤ rev :=
          ends ▸ consecutive.first_le last (List.mem_of_getLast? isLast)
        have closed : ∀ next : Int,
            ({ n with phase := .following next none } : Follower).conn.isSome →
            outcome = .ok := fun _ some => by cases some
        cases outcome with
        | walFails written =>
          refine @Moves.took _ _ batch _ _ _ reads (closed _) ?_ sent reaches backed
          intro _ _ same
          cases same
          exact (cutBatch_first found consecutive).le
        | ackFails | applyFails =>
          refine @Moves.took _ _ batch _ _ _ reads (closed _) ?_ sent reaches backed
          intro _ _ same
          cases same
          exact client.trans (le_max_left _ _)
        | ok =>
          refine @Moves.took _ _ batch _ _ _ reads (fun _ => rfl) ?_ sent reaches backed
          intro _ _ same
          cases same
          exact le_max_right _ _

theorem moveTo_fromRev (seq? : Option Int) : (n.moveTo seq?).fromRev = n.fromRev := by
  cases seq? with
  | none => rfl
  | some => rfl

theorem moveTo_wal (seq? : Option Int) : (n.moveTo seq?).wal = n.wal := by
  cases seq? with
  | none => rfl
  | some => rfl

theorem lastSeq_moveTo {position : Nat → Int} {count? : Option Nat}
    (forward : ∀ count ∈ count?, n.lastSeq ≤ position count) :
    n.lastSeq ≤ (n.moveTo (count?.map position)).lastSeq := by
  cases count? with
  | none => exact le_rfl
  | some count => exact forward count rfl

theorem Moves.of_step {srv : Server} {position : Nat → Int} {action : FollowerAction}
    (ahead : n.Ahead) (streams : n.Streams known committed)
    (sorted : committed.Pairwise (fun a b => a.sequence < b.sequence))
    (forward : n.Forward position action) (stepped : n.step srv position action = some n') :
    Moves committed n action n' := by
  have stored := ahead.stored
  -- The stream that the step starts with stays open, or ends.
  have kept : ∀ {fromRev : Int} {conn : Conn} {phase : Phase},
      n.phase = .following fromRev (some conn) →
      (∃ conn', phase = .following fromRev conn') →
      (∀ outcome, action = .deliver outcome → n.ack outcome = none) → action ≠ .connect →
      Moves committed n action { n with phase } := by
    rintro fromRev conn phase isAt ⟨conn', rfl⟩ silent notConnect
    refine .moved ?_ ?_ silent
    · exact fun _ => ⟨by rw [Follower.conn, isAt]; rfl, notConnect⟩
    · intro _ _ same
      cases same
      exact ahead.client fromRev _ isAt
  cases Steps.of_step stepped with
  | refused =>
    exact .moved (fun some => nomatch some) (fun _ _ same => nomatch same)
      (fun _ same => nomatch same)
  | connected isAt => exact .connected isAt
  | forwarded isAt | hungUp isAt | disconnected isAt => exact kept isAt ⟨_, rfl⟩ nofun nofun
  | staged isAt isNext =>
    refine kept isAt ⟨_, rfl⟩ ?_ nofun
    intro _ _
    simp only [ack, isAt, isNext]
  | delivered isAt isNext =>
    exact .of_commit isAt isNext ahead sorted ((streams _ _ isAt).deliver_commit isNext).2
  | @moved _ seq? cause =>
    have further : n.lastSeq ≤ (n.moveTo seq?).lastSeq := by
      obtain ⟨count, rfl, rfl⟩ | ⟨count, rfl, rfl⟩ := cause
      · exact lastSeq_moveTo forward
      · exact lastSeq_moveTo forward.1
    refine .replaced (moveTo_wal _) rfl (moveTo_fromRev _).ge ⟨?_, ?_⟩ ?_
    · change (n.moveTo _).fromRev ≤ (n.moveTo _).lastSeq + 1
      rw [moveTo_fromRev]
      omega
    · intro _ _ same
      cases same
      exact le_rfl
    · rintro outcome rfl
      simp at cause
  | resynced restored replayed =>
    have further := lastSeq_moveTo forward.1
    have furthest := lastSeq_moveTo (forward.2 replayed rfl)
    refine .replaced ?_ rfl ?_ ⟨le_rfl, ?_⟩ nofun
    · exact (moveTo_wal _).trans (moveTo_wal _)
    · change n.fromRev ≤ ((n.moveTo _).moveTo _).lastSeq + 1
      omega
    · intro _ _ same
      cases same
      exact le_rfl

end Follower

end T4.Peer
