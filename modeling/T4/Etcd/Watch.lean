import T4.Etcd.Wire
import T4.Store.Delivery

/-!
# A watch on an etcd stream

The server subscribes to `Node.Watch`, queues the Created response and starts
`drainWatch`, which takes events from the channel of the store's watch loop, batches
them and queues response frames. Progress frames come from a ticker in `drainWatch`
and from the handler of explicit ProgressRequests, which does not go through
`drainWatch` at all.

`streamSystem` is one watch of a stream: the store with its watch loop (`watchSystem`),
the drain loop, one access to the channel a step, and the frames in the order in
which they are queued, which is the order in which they are sent. The channel holds
what the watch loop has delivered and the drain loop has not received.
-/

namespace T4.Etcd

open Lib Bytes Wal Mvcc

/-! ## Requests -/

structure WatchCreateRequest where
  key : Bytes
  rangeEnd : Bytes := []
  startRevision : Int := 0
  progressNotify : Bool := false
  prevKv : Bool := false
  fragment : Bool := false
  deriving DecidableEq

/-- The same loop as `upperBound`, with the end of the key space for no bound. -/
def prefixRangeEnd (pfx : Bytes) : Bytes := (upperBound pfx).getD [0]

/-- The scan prefix of `watchScan`. -/
def WatchCreateRequest.scanPrefix (cr : WatchCreateRequest) : Bytes :=
  if cr.rangeEnd = [] then cr.key
  else if prefixRangeEnd cr.key = cr.rangeEnd then cr.key
  else []

/-- The `match` of `watchScan`. -/
def WatchCreateRequest.Matches (cr : WatchCreateRequest) (candidate : Bytes) : Prop :=
  if cr.rangeEnd = [] then candidate = cr.key
  else if cr.rangeEnd = [0] then cr.key ≤ candidate
  else cr.key ≤ candidate ∧ candidate < cr.rangeEnd

instance (cr : WatchCreateRequest) : DecidablePred cr.Matches := by
  intro candidate
  unfold WatchCreateRequest.Matches
  infer_instance

/-! ## Responses -/

/-- `WatchResponse`, with the revision of its header. -/
structure WatchResponse where
  revision : Int
  created : Bool := false
  canceled : Bool := false
  cancelReason : String := ""
  compactRevision : Int := 0
  events : List WireEvent := []
  fragment : Bool := false
  deriving DecidableEq

def watchMaxBatch : Nat := 64

def watchFragmentBytes : Nat := 2 ^ 20

def estimateEventSize (e : WireEvent) : Nat :=
  32 + (48 + e.kv.key.length + e.kv.value.length) +
    match e.prevKv with
    | none => 0
    | some prev => 48 + prev.key.length + prev.value.length

def estimateEventsSize (events : List WireEvent) : Nat := (events.map estimateEventSize).sum

/-- The loop of `splitEventsBySize`. -/
def splitEvents (maxBytes : Nat) (current : List WireEvent) (currentSize : Nat) :
    List WireEvent → List (List WireEvent)
  | [] => if current.length > 0 then [current] else []
  | e :: rest =>
    if currentSize > 0 ∧ currentSize + estimateEventSize e > maxBytes then
      current :: splitEvents maxBytes [e] (estimateEventSize e) rest
    else splitEvents maxBytes (current ++ [e]) (currentSize + estimateEventSize e) rest

def splitEventsBySize (events : List WireEvent) (maxBytes : Nat) : List (List WireEvent) :=
  splitEvents maxBytes [] 0 events

/-- The frames of the chunks of one batch: all but the last are fragments. -/
def fragmentRun (revision : Int) : List (List WireEvent) → List WatchResponse
  | [] => []
  | [chunk] => [{ revision, events := chunk }]
  | chunk :: next :: rest =>
    { revision, events := chunk, fragment := true } :: fragmentRun revision (next :: rest)

/-- The run of frames that `sendEvents` queues. -/
def sendEvents (batch : List WireEvent) (rev : Int) (fragment : Bool) : List WatchResponse :=
  if ¬ fragment ∨ estimateEventsSize batch ≤ watchFragmentBytes then
    [{ revision := toEtcdRevision rev, events := batch }]
  else fragmentRun (toEtcdRevision rev) (splitEventsBySize batch watchFragmentBytes)

/-! ## The drain loop -/

inductive DrainPhase
  /-- Before `drainWatch` has read the current revision. -/
  | starting
  /-- At the outer `select`. -/
  | selecting
  /-- In the inner loop. -/
  | draining
  | exited
  deriving DecidableEq

/-- The variables of `drainWatch`; `received` counts the events taken from the
channel. -/
structure Drain where
  phase : DrainPhase := .starting
  received : Nat := 0
  batch : List WireEvent := []
  batchMaxRev : Int := 0
  progressRev : Int := 0
  deriving DecidableEq

def wireEvent (cr : WatchCreateRequest) (e : Event) : Option WireEvent :=
  if ¬ cr.Matches e.kv.key then none else (userEvent e).map eventToProto

/-- `appendEvent`, after the event is received. -/
def Drain.append (cr : WatchCreateRequest) (d : Drain) (e : Event) : Drain :=
  { d with
    phase := .draining
    received := d.received + 1
    batchMaxRev := if e.kv.revision > d.batchMaxRev then e.kv.revision else d.batchMaxRev
    batch := d.batch ++ (wireEvent cr e).toList }

/-- `flush`: the variables after it and the run of frames to queue. -/
def Drain.flush (cr : WatchCreateRequest) (d : Drain) : Drain × List WatchResponse :=
  if d.batch = [] then
    ({ d with
        progressRev := if d.batchMaxRev > d.progressRev then d.batchMaxRev else d.progressRev
        batchMaxRev := 0 }, [])
  else
    ({ d with batch := [], progressRev := d.batchMaxRev, batchMaxRev := 0 },
      sendEvents d.batch d.batchMaxRev cr.fragment)

/-- How `sendOrCancelSlow` ends: the run is queued, the client is too slow and is told
so or not even that, or the watch is cancelled. -/
inductive SendOutcome
  | queued
  | slow (told : Bool)
  | cancelled
  deriving DecidableEq

/-! ## The stream -/

/-- One watch of a stream; `listed` says that the stream still knows its id. -/
structure Stream where
  node : WatchState
  request : Option WatchCreateRequest := none
  listed : Bool := false
  drain : Drain := {}
  sent : List WatchResponse := []

/-- The revision of `header()`. -/
def Stream.header (s : Stream) : Int := toEtcdRevision s.node.store.currentRev

def Stream.channel (s : Stream) : List Event :=
  match s.node.watcher with
  | none => []
  | some w => w.delivered.drop s.drain.received

def Stream.ended (s : Stream) : Bool := s.node.watcher.any (fun w => w.loop = .closed)

/-- The state after `sendOrCancelSlow` was called for `run`. -/
def Stream.sendOrCancelSlow (s : Stream) (run : List WatchResponse) : SendOutcome → Stream
  | .queued => { s with sent := s.sent ++ run }
  | .slow told => { s with
      drain := { s.drain with phase := .exited }
      sent := s.sent ++ if told then
        [{ revision := s.header, canceled := true, cancelReason := "mvcc: watcher is slow" }]
        else [] }
  | .cancelled => { s with drain := { s.drain with phase := .exited } }

inductive StreamAction
  | node (a : WatchAction)
  | create (cr : WatchCreateRequest)
  /-- `drainWatch` reads the current revision. -/
  | begin
  | receive
  | flush (outcome : SendOutcome)
  | tick (outcome : SendOutcome)
  /-- `drainWatch` returns: the channel or the context is closed. -/
  | exit
  | progressRequest
  | cancelRequest
  deriving DecidableEq

/-- Watches are started through `create` only. -/
def isWatchCall : WatchAction → Bool
  | .storeWatch _ _ _ | .nodeWatch _ _ _ => true
  | _ => false

def streamStep (s : Stream) : StreamAction → Option Stream
  | .node a =>
    if isWatchCall a then none
    else match watchStep s.node a with
      | none => none
      | some node => some { s with node }
  | .create cr =>
    match s.request with
    | some _ => none
    | none =>
      -- A reserved key is refused under no watch id.
      if isInternalKey cr.key then some s
      else match watchStep s.node
          (.nodeWatch cr.scanPrefix (fromEtcdRevision cr.startRevision) cr.prevKv) with
        | none => none
        | some node =>
          if node.watcher.isSome then some { s with
            node
            request := some cr
            listed := true
            sent := s.sent ++ [{ revision := s.header, created := true }] }
          else some { s with
            sent := s.sent ++ [{
              revision := s.header
              created := true
              canceled := true
              cancelReason := "mvcc: required revision has been compacted"
              compactRevision := toEtcdRevision s.node.store.compactRev }] }
  | .begin =>
    if s.request.isSome ∧ s.drain.phase = .starting then some { s with
      drain := { s.drain with phase := .selecting, progressRev := s.node.store.currentRev } }
    else none
  | .receive =>
    match s.request, s.channel with
    | some cr, e :: _ =>
      if s.drain.phase = .selecting ∨
          s.drain.phase = .draining ∧ s.drain.batch.length < watchMaxBatch then
        some { s with drain := s.drain.append cr e }
      else none
    | _, _ => none
  | .flush outcome =>
    match s.request with
    | none => none
    | some cr =>
      if s.drain.phase = .draining ∧ (s.channel = [] ∨ ¬ s.drain.batch.length < watchMaxBatch) then
        let flushed := s.drain.flush cr
        -- A full batch goes back to the outer `select`, also when the channel is closed.
        let next := { s with drain := { flushed.1 with
          phase := if s.drain.batch.length < watchMaxBatch ∧ s.ended then .exited
            else .selecting } }
        -- Nothing is queued for an empty batch.
        if flushed.2 = [] then some next else some (next.sendOrCancelSlow flushed.2 outcome)
      else none
  | .tick outcome =>
    match s.request with
    | none => none
    | some cr =>
      if cr.progressNotify ∧ s.drain.phase = .selecting then
        let flushed := s.drain.flush cr
        let next := { s with drain := flushed.1 }
        some (next.sendOrCancelSlow
          (flushed.2 ++ [{ revision := toEtcdRevision flushed.1.progressRev }]) outcome)
      else none
  | .exit =>
    if s.request.isSome then some { s with drain := { s.drain with phase := .exited } } else none
  | .progressRequest =>
    if s.listed then some { s with sent := s.sent ++ [{ revision := s.header }] } else none
  | .cancelRequest =>
    if s.listed then some { s with
      listed := false
      sent := s.sent ++ [{ revision := s.header, canceled := true }] }
    else none

/-- A store that holds some history, and a stream without a watch. -/
def streamSystem : System Stream StreamAction where
  init s := watchSystem.init s.node ∧ s.request = none ∧ s.listed = false ∧ s.drain = {} ∧
    s.sent = []
  step := streamStep

/-! ## What a step can do -/

inductive StreamEffect (s : Stream) : StreamAction → Stream → Prop
  | node {a : WatchAction} {node : WatchState} (plain : isWatchCall a = false)
      (effect : WatchEffect s.node a node) : StreamEffect s (.node a) { s with node }
  | reserved {cr : WatchCreateRequest} : StreamEffect s (.create cr) s
  | create {cr : WatchCreateRequest} {node : WatchState} (free : s.request = none)
      (effect : WatchEffect s.node
        (.nodeWatch cr.scanPrefix (fromEtcdRevision cr.startRevision) cr.prevKv) node)
      (started : node.watcher.isSome) :
      StreamEffect s (.create cr) { s with
        node
        request := some cr
        listed := true
        sent := s.sent ++ [{ revision := s.header, created := true }] }
  | refuse {cr : WatchCreateRequest} {response : WatchResponse} (free : s.request = none)
      (created : response.created = true) (silent : response.events = []) :
      StreamEffect s (.create cr) { s with sent := s.sent ++ [response] }
  | begin (requested : s.request.isSome) (starting : s.drain.phase = .starting) :
      StreamEffect s .begin { s with
        drain := { s.drain with phase := .selecting, progressRev := s.node.store.currentRev } }
  | receive {cr : WatchCreateRequest} {e : Event} {rest : List Event}
      (request : s.request = some cr)
      (next : s.channel = e :: rest)
      (phase : s.drain.phase = .selecting ∨ s.drain.phase = .draining) :
      StreamEffect s .receive { s with drain := s.drain.append cr e }
  | flush {cr : WatchCreateRequest} {outcome : SendOutcome} {phase : DrainPhase}
      (request : s.request = some cr) (draining : s.drain.phase = .draining)
      (after : phase = .selecting ∨ phase = .exited) :
      StreamEffect s (.flush outcome) { s with
        drain := { (s.drain.flush cr).1 with phase }
        sent := s.sent ++ (s.drain.flush cr).2 }
  | tick {cr : WatchCreateRequest} {outcome : SendOutcome} (request : s.request = some cr)
      (notify : cr.progressNotify) (selecting : s.drain.phase = .selecting) :
      StreamEffect s (.tick outcome) { s with
        drain := (s.drain.flush cr).1
        sent := s.sent ++ ((s.drain.flush cr).2 ++
          [{ revision := toEtcdRevision (s.drain.flush cr).1.progressRev }]) }
  /-- The drain loop returns, and at most says that the watch is cancelled. -/
  | leave {a : StreamAction} {drain : Drain} {last : List WatchResponse}
      (requested : s.request.isSome) (exited : drain.phase = .exited)
      (received : drain.received = s.drain.received)
      (canceled : ∀ f ∈ last, f.canceled = true) :
      StreamEffect s a { s with drain, sent := s.sent ++ last }
  | progressRequest (listed : s.listed = true) :
      StreamEffect s .progressRequest { s with sent := s.sent ++ [{ revision := s.header }] }
  | cancelRequest (listed : s.listed = true) :
      StreamEffect s .cancelRequest { s with
        listed := false
        sent := s.sent ++ [{ revision := s.header, canceled := true }] }

@[simp]
theorem Drain.received_flush (cr : WatchCreateRequest) (d : Drain) :
    (d.flush cr).1.received = d.received := by
  unfold Drain.flush
  split <;> rfl

theorem StreamEffect.of_send {s next : Stream} {a : StreamAction} {run : List WatchResponse}
    {outcome : SendOutcome} {drain : Drain}
    (queued : StreamEffect s a { s with drain, sent := s.sent ++ run })
    (requested : s.request.isSome) (received : drain.received = s.drain.received)
    (sent : ({ s with drain } : Stream).sendOrCancelSlow run outcome = next) :
    StreamEffect s a next := by
  cases outcome with
  | queued =>
    subst sent
    exact queued
  | slow told =>
    subst sent
    refine .leave requested rfl received ?_
    intro f mem
    split at mem
    · rw [List.mem_singleton.mp mem]
    · cases mem
  | cancelled =>
    subst sent
    have left : StreamEffect s a { s with
        drain := { drain with phase := .exited }, sent := s.sent ++ [] } :=
      .leave requested rfl received (by simp)
    rwa [List.append_nil] at left

theorem StreamEffect.of_step {s next : Stream} {a : StreamAction}
    (stepped : streamStep s a = some next) : StreamEffect s a next := by
  have after : ∀ (closed : Prop) [Decidable closed],
      (if closed then DrainPhase.exited else .selecting) = .selecting ∨
        (if closed then DrainPhase.exited else .selecting) = .exited := by
    intro closed _
    split
    · exact Or.inr rfl
    · exact Or.inl rfl
  revert stepped
  fun_cases streamStep s a <;> intro stepped <;> try cases stepped
  case case3 notCall _ stepped =>
    exact .node (by simpa using notCall) (WatchEffect.of_step stepped)
  case case5 => exact .reserved
  case case7 free _ _ stepped started => exact .create free (WatchEffect.of_step stepped) started
  case case8 free _ _ _ _ => exact .refuse free rfl rfl
  case case9 ready => exact .begin ready.1 ready.2
  case case11 isNext request ready => exact .receive request isNext (ready.imp_right And.left)
  case case15 outcome cr request ready flushed queued nothing =>
    subst queued flushed
    have effect : StreamEffect s (.flush outcome) _ :=
      .flush request ready.1 (after (s.drain.batch.length < watchMaxBatch ∧ s.ended))
    rw [nothing, List.append_nil] at effect
    cases stepped
    exact effect
  case case16 cr request ready _ _ _ =>
    exact .of_send (.flush request ready.1 (after _)) (by simp [request])
      (s.drain.received_flush cr) rfl
  case case19 cr request ready _ _ =>
    exact .of_send (.tick request ready.1 ready.2) (by simp [request])
      (s.drain.received_flush cr) rfl
  case case21 requested =>
    have left : StreamEffect s .exit { s with
        drain := { s.drain with phase := .exited }, sent := s.sent ++ [] } :=
      .leave requested rfl rfl (by simp)
    rwa [List.append_nil] at left
  case case23 listed => exact .progressRequest listed
  case case25 listed => exact .cancelRequest listed

end T4.Etcd
