import T4.Etcd.Watch

/-!
# Frames and the events they speak for

A client takes the header revision of a frame as "everything up to here has been
sent". `Stream.NeverAhead` says that it may. The code does not see to it: a batch is
cut where the channel happens to be empty or the batch is full, also between two
events of one transaction; the progress revision starts at the live revision of the
node, which a watch from the past has not reached; and a ProgressRequest is answered
with the live revision whatever the watch has sent.

In runs without these (`Paced`), a frame speaks for the events that were received when
it was queued, and everything applied up to its revision is among them (`Settled`).
-/

namespace T4.Etcd

open Lib Bytes Wal Mvcc List

/-! ## Specification -/

/-- A response that speaks for the watch: not the Created response, no cancellation
and no inner fragment. -/
def WatchResponse.Reports (f : WatchResponse) : Prop :=
  f.created = false ∧ f.canceled = false ∧ f.fragment = false

instance (f : WatchResponse) : Decidable f.Reports := inferInstanceAs (Decidable (_ ∧ _))

/-- The versions that the request asks for: user keys that match, from the start
revision on, or from the subscription on. -/
def Due (cr : WatchCreateRequest) (w : Watcher) (v : Version) : Prop :=
  cr.Matches v.key ∧ ¬ isInternalKey v.key ∧
    if cr.startRevision ≤ 0 then w.startRev < v.rev else cr.startRevision ≤ toEtcdRevision v.rev

instance (cr : WatchCreateRequest) (w : Watcher) : DecidablePred (Due cr w) :=
  fun _ => inferInstanceAs (Decidable (_ ∧ _))

/-- Every version asked for up to the wire revision is among the frames. -/
def ToldUpTo (cr : WatchCreateRequest) (w : Watcher) (h : List Entry)
    (frames : List WatchResponse) (revision : Int) : Prop :=
  ∀ v ∈ versions h, Due cr w v → toEtcdRevision v.rev ≤ revision →
    kvToProto v.kv ∈ (frames.flatMap WatchResponse.events).map WireEvent.kv

instance (cr : WatchCreateRequest) (w : Watcher) (h : List Entry) (frames : List WatchResponse)
    (revision : Int) : Decidable (ToldUpTo cr w h frames revision) :=
  inferInstanceAs (Decidable (∀ v ∈ versions h, _))

/-- No frame runs ahead of the events. -/
def Stream.NeverAhead (s : Stream) : Prop :=
  ∀ cr ∈ s.request, ∀ w ∈ s.node.watcher, ∀ earlier f later, s.sent = earlier ++ f :: later →
    f.Reports → ToldUpTo cr w s.node.history (earlier ++ [f]) f.revision

/-- What the watch was started for, in order. -/
def wantedBy (w : Watcher) (h : List Entry) : List Version := (versions h).filter w.Wants

/-- The drain loop waits, its channel is empty, and the watch loop waits for a
revision above the current one. -/
def Stream.CaughtUp (s : Stream) : Prop :=
  s.drain.phase = .selecting ∧ ∀ w ∈ s.node.watcher, w.delivered.length = s.drain.received ∧
    match w.loop with
    | .waiting nextRev => s.node.store.currentRev < nextRev
    | _ => False

/-- Compactions stay behind the watch loop and the watch starts in the log, at a wire
revision other than 1; a watch with progress frames starts at the current revision; no
batch is cut between events of one revision; and progress is requested from watches
that have caught up. -/
def Paced (s : Stream) : StreamAction → Prop
  | .node a => CompactsBehind s.node a
  | .create cr => cr.startRevision ≠ 1 ∧ cr.startRevision < 2 ^ 63 ∧ Unhurried s.node
      (.nodeWatch cr.scanPrefix (fromEtcdRevision cr.startRevision) cr.prevKv)
  | .begin => ∀ cr ∈ s.request, cr.progressNotify → ∀ w ∈ s.node.watcher,
      s.node.store.currentRev ≤ w.startRev
  | .flush _ => ∀ w ∈ s.node.watcher, ∀ v ∈ (wantedBy w s.node.history).drop s.drain.received,
      v.rev ≠ s.drain.batchMaxRev
  | .progressRequest => s.CaughtUp
  | _ => True

instance (s : Stream) (a : StreamAction) : Decidable (Paced s a) := by
  cases a with
  | progressRequest =>
    unfold Paced Stream.CaughtUp
    have (w : Watcher) : Decidable (match w.loop with
        | .waiting nextRev => s.node.store.currentRev < nextRev
        | _ => False) := by
      split <;> infer_instance
    infer_instance
  | _ => unfold Paced; infer_instance

/-! ## Scan prefixes -/

theorem upperBound_ne_zero (pfx : Bytes) : upperBound pfx ≠ some [0] := by
  cases pfx with
  | nil => simp [upperBound]
  | cons b rest =>
    rw [upperBound]
    cases bound : upperBound rest with
    | some ub =>
      intro same
      have := cons_eq_cons.mp (Option.some.inj same)
      rw [this.2] at bound
      exact absurd bound (by cases rest <;> simp [upperBound]; split <;> simp)
    | none =>
      simp only
      split
      · intro same
        exact absurd (cons_eq_cons.mp (Option.some.inj same)).1 ‹_›
      · simp

variable {cr : WatchCreateRequest} {w : Watcher}

theorem WatchCreateRequest.scanPrefix_of_matches {key : Bytes} (isMatch : cr.Matches key) :
    cr.scanPrefix <+: key := by
  unfold WatchCreateRequest.Matches at isMatch
  unfold WatchCreateRequest.scanPrefix
  by_cases single : cr.rangeEnd = []
  · rw [if_pos single] at isMatch ⊢
    rw [isMatch]
  · rw [if_neg single] at isMatch ⊢
    split
    · rename_i isEnd
      rw [← isEnd, prefixRangeEnd] at isMatch
      rw [isPrefix_iff_between]
      cases bound : upperBound cr.key with
      | none =>
        rw [bound, Option.getD_none, if_pos rfl] at isMatch
        exact ⟨isMatch, by simp⟩
      | some ub =>
        have notZero : ub ≠ [0] := fun same => upperBound_ne_zero cr.key (same ▸ bound)
        rw [bound, Option.getD_some, if_neg notZero] at isMatch
        refine ⟨isMatch.1, ?_⟩
        intro other isBound
        cases isBound
        exact isMatch.2
    · exact nil_prefix

/-! ## Runs of frames -/

theorem splitEvents_flatten (maxBytes : Nat) (events current : List WireEvent) (size : Nat) :
    (splitEvents maxBytes current size events).flatten = current ++ events := by
  induction events generalizing current size with
  | nil =>
    rw [splitEvents]
    split
    · simp
    · rename_i empty
      simp [length_eq_zero_iff.mp (Nat.eq_zero_of_not_pos empty)]
  | cons e rest ih =>
    rw [splitEvents]
    split
    · rw [flatten_cons, ih]
      rfl
    · rw [ih, append_assoc]
      rfl

theorem fragmentRun_shape (revision : Int) {chunks : List (List WireEvent)} (some_ : chunks ≠ []) :
    ∃ inner last, fragmentRun revision chunks = inner ++ [{ revision, events := last }] ∧
      (∀ f ∈ inner, f.fragment = true) ∧
      (fragmentRun revision chunks).flatMap WatchResponse.events = chunks.flatten := by
  induction chunks with
  | nil => exact absurd rfl some_
  | cons chunk rest ih =>
    cases rest with
    | nil => exact ⟨[], chunk, rfl, by simp, by simp [fragmentRun]⟩
    | cons next rest =>
      obtain ⟨inner, last, shape, fragments, events⟩ := ih (by simp)
      refine ⟨{ revision, events := chunk, fragment := true } :: inner, last, ?_, ?_, ?_⟩
      · rw [fragmentRun, shape]
        rfl
      · intro f mem
        rcases mem_cons.mp mem with rfl | later
        · rfl
        · exact fragments f later
      · rw [fragmentRun, flatMap_cons, events]
        rfl

theorem sendEvents_shape {batch : List WireEvent} (nonempty : batch ≠ []) (rev : Int)
    (fragment : Bool) :
    ∃ inner last, sendEvents batch rev fragment =
        inner ++ [{ revision := toEtcdRevision rev, events := last }] ∧
      (∀ f ∈ inner, f.fragment = true) ∧
      (sendEvents batch rev fragment).flatMap WatchResponse.events = batch := by
  unfold sendEvents
  split
  · exact ⟨[], batch, rfl, by simp, by simp⟩
  · have flat : (splitEventsBySize batch watchFragmentBytes).flatten = batch :=
      splitEvents_flatten watchFragmentBytes batch [] 0
    have some_ : splitEventsBySize batch watchFragmentBytes ≠ [] := by
      intro none_
      rw [none_] at flat
      exact nonempty flat.symm
    obtain ⟨inner, last, shape, fragments, events⟩ :=
      fragmentRun_shape (toEtcdRevision rev) some_
    exact ⟨inner, last, shape, fragments, events.trans flat⟩

/-! ## What is settled -/

section Settled

variable {w next : Watcher} {h es : List Entry} {k : Nat} {r : Int}

/-- All that was started for and applied up to revision `r` is among the first `k`. -/
structure Settled (w : Watcher) (h : List Entry) (k : Nat) (r : Int) : Prop where
  nonneg : 0 ≤ r
  applied : r ≤ revisionOf h
  rest : ∀ v ∈ (wantedBy w h).drop k, r < v.rev

theorem Settled.mono {k' : Nat} (settled : Settled w h k r) (le : k ≤ k') : Settled w h k' r := by
  refine ⟨settled.nonneg, settled.applied, ?_⟩
  intro v mem
  apply settled.rest v
  rw [← Nat.add_sub_cancel' le, ← drop_drop] at mem
  exact mem_of_mem_drop mem

theorem wantedBy_append (w : Watcher) (h es : List Entry) :
    wantedBy w (h ++ es) = wantedBy w h ++ wantedBy w es := by
  rw [wantedBy, versions_append, filter_append]
  rfl

theorem wantedBy_extends (later : w.Extends next) (h : List Entry) :
    wantedBy next h = wantedBy w h := by
  apply filter_congr
  intro v _
  exact decide_eq_decide.mpr (later.wants v)

theorem Settled.grow (settled : Settled w h k r) (later : w.Extends next)
    (wf : WellFormed (h ++ es)) : Settled next (h ++ es) k r := by
  have applied := settled.applied
  refine ⟨settled.nonneg, ?_, ?_⟩
  · rw [revisionOf_append]
    exact applied.trans (le_max_left _ _)
  · intro v mem
    rw [wantedBy_extends later, wantedBy_append, drop_append] at mem
    rcases mem_append.mp mem with old | new
    · exact settled.rest v old
    · have added := (mem_filter.mp (mem_of_mem_drop new)).1
      have := wf.revisionOf_lt_rev added
      omega

theorem Settled.max {r' : Int} (first : Settled w h k r) (second : Settled w h k r') :
    Settled w h k (if r' > r then r' else r) := by
  split
  · exact second
  · exact first

end Settled

/-! ## Received events -/

section Received

variable {w : Watcher} {h : List Entry} {db : Pebble} {k : Nat}

theorem map_kv_received (inOrder : w.InOrder h db) (within : k ≤ w.delivered.length) :
    (w.delivered.take k).map Event.kv = ((wantedBy w h).take k).map Version.kv := by
  obtain ⟨rest, whole⟩ := inOrder.values
  rw [map_take, map_take, wantedBy, ← whole,
    take_append_of_le_length (by simpa using within)]

theorem exists_received {v : Version} (inOrder : w.InOrder h db) (within : k ≤ w.delivered.length)
    (mem : v ∈ (wantedBy w h).take k) : ∃ e ∈ w.delivered.take k, e.kv = v.kv := by
  apply mem_map.mp
  rw [map_kv_received inOrder within]
  exact mem_map.mpr ⟨v, mem, rfl⟩

theorem exists_wanted {e : Event} (inOrder : w.InOrder h db) (within : k ≤ w.delivered.length)
    (mem : e ∈ w.delivered.take k) : ∃ v ∈ (wantedBy w h).take k, v.kv = e.kv := by
  apply mem_map.mp
  rw [← map_kv_received inOrder within]
  exact mem_map.mpr ⟨e, mem, rfl⟩

/-- An event that was received settles its revision, if the next version is of another
one. -/
theorem Settled.of_received {e : Event} (inOrder : w.InOrder h db) (wf : WellFormed h)
    (within : k ≤ w.delivered.length) (mem : e ∈ w.delivered.take k)
    (uncut : ∀ v ∈ (wantedBy w h).drop k, v.rev ≠ e.kv.revision) :
    Settled w h k e.kv.revision := by
  obtain ⟨u, early, same⟩ := exists_wanted inOrder within mem
  have revision : e.kv.revision = u.rev := by
    rw [← same]
    rfl
  have inH : u ∈ versions h := (mem_filter.mp (mem_of_mem_take early)).1
  have pos := (wf.version_storable inH).pos
  refine ⟨by omega, revision ▸ rev_le_revisionOf inH, ?_⟩
  intro v late
  have sorted := wf.wants_sorted (w := w)
  rw [← take_append_drop k ((versions h).filter w.Wants)] at sorted
  have le := (pairwise_append.mp sorted).2.2 u early v late
  have ne := uncut v late
  omega

theorem Settled.of_waiting {store : Store} {nextRev : Int} (exact_ : w.Exact h store)
    (wf : WellFormed h) (waiting : w.loop = .waiting nextRev) (behind : store.currentRev < nextRev)
    (nonneg : 0 ≤ store.currentRev) (bounded : store.currentRev ≤ revisionOf h) :
    Settled w h w.delivered.length store.currentRev := by
  refine ⟨nonneg, bounded, ?_⟩
  obtain ⟨shown, covers, events⟩ := exact_.shown
  have length := events.length_eq
  have nothing : w.loop.pending = [] := by
    rw [waiting]
    rfl
  simp only [Watcher.Covers, waiting] at covers
  rw [nothing, append_nil] at length
  have isNext : nextRev ∈ w.loop.nextRev := by
    rw [waiting]
    rfl
  have position := exact_.placed.le_position isNext
  have parts := filter_lt_append_filter_le (wf.wants_sorted (w := w)) (uint64 nextRev)
  intro v mem
  rw [wantedBy, ← parts, length, covers, Watcher.wanted, drop_left] at mem
  have above : (uint64 nextRev : Int) ≤ v.rev := by simpa using (mem_filter.mp mem).2
  omega

end Received

/-! ## What the frames speak for -/

section Reported

variable {cr : WatchCreateRequest} {w next : Watcher} {h es : List Entry} {k : Nat}
  {sent : List WatchResponse}

/-- The frames up to `f` hold the first `k` events, for some `k` that settles the
revision of `f`. -/
def Speaks (cr : WatchCreateRequest) (w : Watcher) (h : List Entry) (received : Nat)
    (frames : List WatchResponse) (revision : Int) : Prop :=
  ∃ k r, k ≤ received ∧ revision = toEtcdRevision r ∧ Settled w h k r ∧
    frames.flatMap WatchResponse.events = (w.delivered.take k).filterMap (wireEvent cr)

def Reported (cr : WatchCreateRequest) (w : Watcher) (h : List Entry) (received : Nat)
    (sent : List WatchResponse) : Prop :=
  ∀ earlier f later, sent = earlier ++ f :: later → f.Reports →
    Speaks cr w h received (earlier ++ [f]) f.revision

theorem Reported.quiet {new : List WatchResponse} (reported : Reported cr w h k sent)
    (silent : ∀ f ∈ new, ¬ f.Reports) : Reported cr w h k (sent ++ new) := by
  intro earlier f later split reports
  rcases split_append split with ⟨rest, old⟩ | isNew
  · exact reported earlier f rest old reports
  · exact absurd reports (silent f isNew)

theorem Reported.snoc {f : WatchResponse} (reported : Reported cr w h k sent)
    (speaks : Speaks cr w h k (sent ++ [f]) f.revision) : Reported cr w h k (sent ++ [f]) := by
  intro earlier g later split reports
  rcases eq_nil_or_concat' later with rfl | ⟨front, last, rfl⟩
  · obtain ⟨rfl, single⟩ := append_inj' split rfl
    cases single
    exact speaks
  · have regroup : sent ++ [f] = (earlier ++ g :: front) ++ [last] := by
      rw [split]
      simp
    obtain ⟨old, -⟩ := append_inj' regroup rfl
    exact reported earlier g front old reports

theorem Speaks.grow {received received' : Nat} {frames : List WatchResponse} {revision : Int}
    (speaks : Speaks cr w h received frames revision) (later : w.Extends next)
    (wf : WellFormed (h ++ es)) (within : received ≤ w.delivered.length)
    (le : received ≤ received') : Speaks cr next (h ++ es) received' frames revision := by
  obtain ⟨k, r, few, same, settled, events⟩ := speaks
  obtain ⟨more, grown⟩ := later.delivered
  refine ⟨k, r, few.trans le, same, settled.grow later wf, ?_⟩
  rw [events, ← grown, take_append_of_le_length (few.trans within)]

end Reported

/-! ## Invariant -/

/-- One watch of the stream: what its drain loop holds and what its frames say. -/
structure Told (cr : WatchCreateRequest) (h : List Entry) (w : Watcher) (d : Drain)
    (sent : List WatchResponse) : Prop where
  pfx : w.pfx = cr.scanPrefix
  start : 0 < cr.startRevision → w.startRev = cr.startRevision - 2
  received : d.received ≤ w.delivered.length
  batch : d.phase ≠ .exited → sent.flatMap WatchResponse.events ++ d.batch =
    (w.delivered.take d.received).filterMap (wireEvent cr)
  waiting : d.phase = .starting ∨ d.phase = .selecting → d.batch = [] ∧ d.batchMaxRev = 0
  latest : d.phase = .draining → ∃ e ∈ w.delivered.take d.received, e.kv.revision = d.batchMaxRev
  progress : cr.progressNotify → d.phase = .selecting ∨ d.phase = .draining →
    Settled w h d.received d.progressRev
  reported : Reported cr w h d.received sent

namespace Told

variable {cr : WatchCreateRequest} {h es : List Entry} {w next : Watcher} {d : Drain}
  {sent : List WatchResponse} {db : Pebble}

theorem grow (told : Told cr h w d sent) (later : w.Extends next) (wf : WellFormed (h ++ es)) :
    Told cr (h ++ es) next d sent := by
  obtain ⟨more, grown⟩ := later.delivered
  have firsts : next.delivered.take d.received = w.delivered.take d.received := by
    rw [← grown, take_append_of_le_length told.received]
  refine ⟨later.pfx.trans told.pfx, ?_, ?_, ?_, told.waiting, ?_, ?_, ?_⟩
  · rw [later.startRev]
    exact told.start
  · exact told.received.trans later.delivered.length_le
  · rw [firsts]
    exact told.batch
  · rw [firsts]
    exact told.latest
  · intro notify running
    exact (told.progress notify running).grow later wf
  · intro earlier f rest split reports
    exact (told.reported earlier f rest split reports).grow later wf told.received le_rfl

theorem begin_ {currentRev : Int} (told : Told cr h w d sent) (starting : d.phase = .starting)
    (nonneg : 0 ≤ currentRev) (bounded : currentRev ≤ revisionOf h)
    (ahead : cr.progressNotify → currentRev ≤ w.startRev) :
    Told cr h w { d with phase := .selecting, progressRev := currentRev } sent := by
  refine ⟨told.pfx, told.start, told.received, ?_, ?_, by simp, ?_, told.reported⟩
  · intro _
    exact told.batch (by simp [starting])
  · intro _
    exact told.waiting (Or.inl starting)
  · intro notify _
    refine ⟨nonneg, bounded, ?_⟩
    intro v mem
    have wants : w.Wants v := by
      simpa using (mem_filter.mp (mem_of_mem_drop mem)).2
    exact lt_of_le_of_lt (ahead notify) wants.2

theorem receive {e : Event} {rest : List Event} (told : Told cr h w d sent)
    (inOrder : w.InOrder h db) (wf : WellFormed h)
    (isNext : w.delivered.drop d.received = e :: rest)
    (phase : d.phase = .selecting ∨ d.phase = .draining) :
    Told cr h w (d.append cr e) sent := by
  have within : d.received + 1 ≤ w.delivered.length := by
    have length := congrArg List.length isNext
    rw [length_drop, length_cons] at length
    omega
  have taken : w.delivered.take (d.received + 1) = w.delivered.take d.received ++ [e] := by
    rw [take_add, isNext]
    rfl
  have mem : e ∈ w.delivered.take (d.received + 1) := by
    rw [taken]
    simp
  have running : d.phase ≠ .exited := by
    rcases phase with selecting | draining
    · simp [selecting]
    · simp [draining]
  refine ⟨told.pfx, told.start, within, ?_, by simp [Drain.append], ?_, ?_, ?_⟩
  · intro _
    show sent.flatMap WatchResponse.events ++ (d.batch ++ (wireEvent cr e).toList) = _
    rw [← append_assoc, told.batch running, Drain.append, taken, filterMap_append]
    congr 1
  · intro _
    show ∃ e' ∈ w.delivered.take (d.received + 1), e'.kv.revision =
      if e.kv.revision > d.batchMaxRev then e.kv.revision else d.batchMaxRev
    split
    · exact ⟨e, mem, rfl⟩
    · rename_i old
      rcases phase with selecting | draining
      · -- The first event of a batch has a positive revision.
        obtain ⟨v, inWanted, same⟩ := exists_wanted inOrder within mem
        have inH : v ∈ versions h := (mem_filter.mp (mem_of_mem_take inWanted)).1
        have pos := (wf.version_storable inH).pos
        have revision : e.kv.revision = v.rev := by
          rw [← same]
          rfl
        have zero := (told.waiting (Or.inr selecting)).2
        omega
      · obtain ⟨e', early, same⟩ := told.latest draining
        exact ⟨e', by rw [taken]; exact mem_append_left _ early, same⟩
  · intro notify _
    exact (told.progress notify phase).mono (Nat.le_succ _)
  · intro earlier f later split reports
    obtain ⟨k, r, few, same, settled, events⟩ := told.reported earlier f later split reports
    exact ⟨k, r, few.trans (Nat.le_succ _), same, settled, events⟩

theorem leave {d' : Drain} {last : List WatchResponse} (told : Told cr h w d sent)
    (exited : d'.phase = .exited) (received : d'.received = d.received)
    (canceled : ∀ f ∈ last, f.canceled = true) : Told cr h w d' (sent ++ last) := by
  refine ⟨told.pfx, told.start, received ▸ told.received, by simp [exited], by simp [exited],
    by simp [exited], by simp [exited], ?_⟩
  rw [received]
  apply told.reported.quiet
  intro f mem reports
  exact absurd (canceled f mem) (by simp [reports.2.1])

theorem quiet {f : WatchResponse} (told : Told cr h w d sent) (silent : f.events = [])
    (unspoken : ¬ f.Reports) : Told cr h w d (sent ++ [f]) := by
  refine ⟨told.pfx, told.start, told.received, ?_, told.waiting, told.latest, told.progress, ?_⟩
  · rw [flatMap_append, flatMap_singleton, silent, append_nil]
    exact told.batch
  · apply told.reported.quiet
    intro g mem
    rw [mem_singleton.mp mem]
    exact unspoken

theorem progressFrame {r : Int} (told : Told cr h w d sent) (selecting : d.phase = .selecting)
    (settled : Settled w h d.received r) :
    Told cr h w d (sent ++ [{ revision := toEtcdRevision r }]) := by
  have empty := (told.waiting (Or.inr selecting)).1
  have all := told.batch (by simp [selecting])
  have events : (sent ++ [({ revision := toEtcdRevision r } : WatchResponse)]).flatMap
      WatchResponse.events = (w.delivered.take d.received).filterMap (wireEvent cr) := by
    rw [empty, append_nil] at all
    rw [← all]
    simp
  refine ⟨told.pfx, told.start, told.received, ?_, told.waiting, told.latest, told.progress, ?_⟩
  · intro _
    rw [events, empty, append_nil]
  · exact told.reported.snoc ⟨d.received, r, le_rfl, rfl, settled, events⟩

theorem flush {phase : DrainPhase} (told : Told cr h w d sent) (draining : d.phase = .draining)
    (settled : Settled w h d.received d.batchMaxRev)
    (after : phase = .selecting ∨ phase = .exited) :
    Told cr h w { (d.flush cr).1 with phase } (sent ++ (d.flush cr).2) := by
  have all := told.batch (by simp [draining])
  have notDraining : phase ≠ .draining := by
    rcases after with selecting | exited
    · simp [selecting]
    · simp [exited]
  by_cases empty : d.batch = []
  · rw [empty, append_nil] at all
    rw [Drain.flush, if_pos empty, append_nil]
    refine ⟨told.pfx, told.start, told.received, ?_, ?_, ?_, ?_, told.reported⟩
    · intro _
      show sent.flatMap WatchResponse.events ++ d.batch = _
      rw [empty, append_nil]
      exact all
    · intro _
      exact ⟨empty, rfl⟩
    · intro again
      exact absurd again notDraining
    · intro notify _
      exact (told.progress notify (Or.inr draining)).max settled
  · obtain ⟨inner, last, shape, fragments, events⟩ :=
      sendEvents_shape empty d.batchMaxRev cr.fragment
    have whole : (sent ++ sendEvents d.batch d.batchMaxRev cr.fragment).flatMap
        WatchResponse.events = (w.delivered.take d.received).filterMap (wireEvent cr) := by
      rw [flatMap_append, events]
      exact all
    rw [Drain.flush, if_neg empty]
    refine ⟨told.pfx, told.start, told.received, ?_, ?_, ?_, ?_, ?_⟩
    · intro _
      show _ ++ [] = _
      rw [append_nil]
      exact whole
    · intro _
      exact ⟨rfl, rfl⟩
    · intro again
      exact absurd again notDraining
    · intro _ _
      exact settled
    · show Reported cr w h d.received (sent ++ sendEvents d.batch d.batchMaxRev cr.fragment)
      rw [shape, ← append_assoc] at whole ⊢
      refine (told.reported.quiet ?_).snoc ⟨d.received, d.batchMaxRev, le_rfl, rfl, settled, whole⟩
      intro f mem reports
      exact absurd (fragments f mem) (by simp [reports.2.2])

theorem flush_selecting (told : Told cr h w d sent) (selecting : d.phase = .selecting)
    (notify : cr.progressNotify) : d.flush cr = (d, []) := by
  obtain ⟨empty, zero⟩ := told.waiting (Or.inr selecting)
  have nonneg := (told.progress notify (Or.inl selecting)).nonneg
  rw [Drain.flush, if_pos empty, zero, if_neg (by omega), ← zero]

end Told

structure Stream.Inv (s : Stream) : Prop where
  holds : s.node.Holds
  exact_ : ∀ w ∈ s.node.watcher, w.Exact s.node.history s.node.store
  idle : s.request = none → s.node.watcher = none ∧ s.listed = false ∧ s.drain = {} ∧
    ∀ f ∈ s.sent, f.created = true ∧ f.events = []
  told : ∀ cr ∈ s.request, ∀ w ∈ s.node.watcher, Told cr s.node.history w s.drain s.sent

theorem extends_of_plain {s next : WatchState} {a : WatchAction} (plain : isWatchCall a = false)
    (effect : WatchEffect s a next) (isWatcher : w ∈ next.watcher) :
    ∃ old ∈ s.watcher, old.Extends w := by
  cases effect with
  | commit _ _ =>
    obtain ⟨old, running, rfl⟩ := Option.map_eq_some_iff.mp isWatcher
    exact ⟨old, running, rfl, rfl, prefix_rfl⟩
  | fail _ _ | publish _ => exact ⟨w, isWatcher, rfl, rfl, prefix_rfl⟩
  | storeWatch _ | refuse | nodeWatch _ _ => cases plain
  | loop running effect =>
    cases isWatcher
    exact ⟨_, running, effect.extends⟩

theorem unhurried_of_plain {s : WatchState} {a : WatchAction} (plain : isWatchCall a = false)
    (behind : CompactsBehind s a) : Unhurried s a := by
  cases a with
  | apply es => exact behind
  | publish | loop _ => trivial
  | storeWatch _ _ _ | nodeWatch _ _ _ => cases plain

namespace Stream.Inv

variable {s next : Stream} {a : StreamAction}

theorem of_init (init : streamSystem.init s) : s.Inv := by
  obtain ⟨node, none_, unlisted, fresh, empty⟩ := init
  refine ⟨.of_init node, by simp [node.2.2], ?_, by simp [none_]⟩
  intro _
  exact ⟨node.2.2, unlisted, fresh, by simp [empty]⟩

theorem told_create {cr : WatchCreateRequest} {node : WatchState} (inv : s.Inv)
    (free : s.request = none) (notOne : cr.startRevision ≠ 1) (small : cr.startRevision < 2 ^ 63)
    (effect : WatchEffect s.node
      (.nodeWatch cr.scanPrefix (fromEtcdRevision cr.startRevision) cr.prevKv) node)
    {w : Watcher} (isWatcher : w ∈ node.watcher) :
    Told cr node.history w s.drain (s.sent ++ [{ revision := s.header, created := true }]) := by
  obtain ⟨noWatcher, -, fresh, created⟩ := inv.idle free
  have silent : s.sent.flatMap WatchResponse.events = [] := by
    rw [flatMap_eq_nil_iff]
    exact fun f mem => (created f mem).2
  have unspoken : ∀ f ∈ s.sent, ¬ f.Reports := by
    intro f mem reports
    exact absurd (created f mem).1 (by simp [reports.1])
  cases effect with
  | refuse =>
    rw [noWatcher] at isWatcher
    cases isWatcher
  | @nodeWatch _ _ storeStartRev _ _ accepted =>
    cases isWatcher
    rw [fresh]
    have first : Told cr s.node.history (.start cr.scanPrefix storeStartRev cr.prevKv)
        {} s.sent := by
      refine ⟨rfl, ?_, le_rfl, ?_, fun _ => ⟨rfl, rfl⟩, by simp, by simp, ?_⟩
      · intro pos
        show storeStartRev = cr.startRevision - 2
        unfold Store.nodeWatchStart fromEtcdRevision at accepted
        rw [if_neg (by omega : ¬ cr.startRevision ≤ 0)] at accepted
        split at accepted
        · cases accepted
        · rw [if_neg (by omega : ¬ cr.startRevision - 1 = 0)] at accepted
          cases accepted
          rw [wrap_of_isInt64 ⟨by omega, by omega⟩]
          omega
      · intro _
        show s.sent.flatMap WatchResponse.events ++ [] = _
        rw [silent]
        rfl
      · intro earlier f later split reports
        exact absurd reports (unspoken f (by simp [split]))
    exact first.quiet rfl (by simp [WatchResponse.Reports])

theorem inOrder (inv : s.Inv) (wf : WellFormed s.node.history) {w : Watcher}
    (isWatcher : w ∈ s.node.watcher) : w.InOrder s.node.history s.node.store.db := by
  obtain ⟨shown, covers, events⟩ := (inv.exact_ w isWatcher).shown
  exact ⟨shown.take w.delivered.length, (List.take_prefix _ _).trans (covers.isPrefix wf),
    forall₂_front events⟩

theorem step (inv : s.Inv) (paced : Paced s a) (effect : StreamEffect s a next)
    (chained : Chained next.node.history) : next.Inv := by
  have wf := chained.wellFormed
  cases effect with
  | @node a node plain effect =>
    obtain ⟨holds, exact_⟩ := watchRule_exact.step inv.holds inv.exact_
      (unhurried_of_plain plain paced) effect chained
    refine ⟨holds, exact_, ?_, ?_⟩
    · intro free
      obtain ⟨noWatcher, rest⟩ := inv.idle free
      refine ⟨?_, rest⟩
      cases after : node.watcher with
      | none => rfl
      | some w =>
        obtain ⟨old, running, -⟩ := extends_of_plain plain effect after
        rw [noWatcher] at running
        cases running
    · intro cr request w isWatcher
      obtain ⟨old, running, later⟩ := extends_of_plain plain effect isWatcher
      obtain ⟨es, grown⟩ := effect.history
      have told := inv.told cr request old running
      rw [show node.history = s.node.history ++ es from grown] at wf ⊢
      exact told.grow later wf
  | reserved => exact inv
  | @create cr node free effect started =>
    obtain ⟨notOne, small, unhurried⟩ := paced
    obtain ⟨holds, exact_⟩ := watchRule_exact.step inv.holds inv.exact_ unhurried effect chained
    refine ⟨holds, exact_, by simp, ?_⟩
    intro cr' request w isWatcher
    cases request
    exact inv.told_create free notOne small effect isWatcher
  | @refuse cr response free created silent =>
    obtain ⟨noWatcher, unlisted, fresh, frames⟩ := inv.idle free
    refine ⟨inv.holds, inv.exact_, ?_, by simp [free]⟩
    intro _
    refine ⟨noWatcher, unlisted, fresh, ?_⟩
    exact forall_mem_append.mpr ⟨frames, forall_mem_singleton.mpr ⟨created, silent⟩⟩
  | begin requested starting =>
    refine ⟨inv.holds, inv.exact_,
      fun free => by simp [show s.request = none from free] at requested, ?_⟩
    intro cr request w isWatcher
    exact (inv.told cr request w isWatcher).begin_ starting inv.holds.nonneg inv.holds.bounded
      (fun notify => paced cr request notify w isWatcher)
  | @receive cr e rest request isNext phase =>
    refine ⟨inv.holds, inv.exact_, (fun free => by cases free.symm.trans request), ?_⟩
    intro cr' request' w isWatcher
    cases request.symm.trans request'
    simp only [Stream.channel, show s.node.watcher = some w from isWatcher] at isNext
    exact (inv.told cr request w isWatcher).receive (inv.inOrder wf isWatcher) wf isNext phase
  | @flush cr outcome phase request draining after =>
    refine ⟨inv.holds, inv.exact_, (fun free => by cases free.symm.trans request), ?_⟩
    intro cr' request' w isWatcher
    cases request.symm.trans request'
    have told := inv.told cr request w isWatcher
    obtain ⟨e, mem, latest⟩ := told.latest draining
    have uncut := paced w isWatcher
    rw [← latest] at uncut
    have settled := Settled.of_received (inv.inOrder wf isWatcher) wf told.received mem uncut
    exact told.flush draining (latest ▸ settled) after
  | @tick cr outcome request notify selecting =>
    refine ⟨inv.holds, inv.exact_, (fun free => by cases free.symm.trans request), ?_⟩
    intro cr' request' w isWatcher
    cases request.symm.trans request'
    have told := inv.told cr request w isWatcher
    rw [told.flush_selecting selecting notify]
    exact told.progressFrame selecting (told.progress notify (Or.inl selecting))
  | leave requested exited received canceled =>
    refine ⟨inv.holds, inv.exact_,
      fun free => by simp [show s.request = none from free] at requested, ?_⟩
    intro cr request w isWatcher
    exact (inv.told cr request w isWatcher).leave exited received canceled
  | progressRequest listed =>
    refine ⟨inv.holds, inv.exact_, fun free => by simp [(inv.idle free).2.1] at listed, ?_⟩
    intro cr request w isWatcher
    obtain ⟨selecting, caught⟩ := paced
    obtain ⟨received, waiting⟩ := caught w isWatcher
    split at waiting
    · rename_i nextRev at_
      have settled := Settled.of_waiting (inv.exact_ w isWatcher) wf at_ waiting inv.holds.nonneg
        inv.holds.bounded
      exact (inv.told cr request w isWatcher).progressFrame selecting (received ▸ settled)
    · exact waiting.elim
  | cancelRequest listed =>
    refine ⟨inv.holds, inv.exact_, fun free => by simp [(inv.idle free).2.1] at listed, ?_⟩
    intro cr request w isWatcher
    exact (inv.told cr request w isWatcher).quiet rfl (by simp [WatchResponse.Reports])

end Stream.Inv

theorem StreamEffect.chained {s next : Stream} {a : StreamAction} (effect : StreamEffect s a next)
    (chained : Chained next.node.history) : Chained s.node.history := by
  cases effect with
  | node _ effect | create _ effect _ => exact effect.chained chained
  | reserved | refuse _ _ _ | begin _ _ | receive _ _ _ | flush _ _ _ | tick _ _ _ | leave _ _ _ _
  | progressRequest _ | cancelRequest _ => exact chained

theorem Told.wants {h : List Entry} {d : Drain} {sent : List WatchResponse}
    (told : Told cr h w d sent) {v : Version} (due : Due cr w v) (pos : 0 < v.rev)
    (fits : v.rev + 1 < 2 ^ 63) : w.Wants v := by
  obtain ⟨isMatch, -, start⟩ := due
  refine ⟨?_, ?_⟩
  · rw [told.pfx]
    exact WatchCreateRequest.scanPrefix_of_matches isMatch
  · split at start
    · exact start
    · have first := told.start (by omega)
      rw [toEtcdRevision, wrap_of_isInt64 ⟨by omega, fits⟩] at start
      omega

theorem wireEvent_of_due {v : Version} {e : Event} (due : Due cr w v) (same : e.kv = v.kv) :
    wireEvent cr e = some (eventToProto e) := by
  obtain ⟨isMatch, user, -⟩ := due
  have key : e.kv.key = v.key := by
    rw [same]
    rfl
  rw [wireEvent, key, if_neg (not_not.mpr isMatch), userEvent, key, if_neg user]
  rfl

/-- **Paced frames never run ahead of events.** -/
theorem frames_never_ahead {start s : Stream} {actions : List StreamAction}
    (init : streamSystem.init start) (meets : streamSystem.Meets Paced start actions)
    (ran : streamSystem.run start actions = some s) (chained : Chained s.node.history)
    (room : revisionOf s.node.history + 1 < 2 ^ 63) : s.NeverAhead := by
  have inv := System.run_invariant (I := fun s => Chained s.node.history → s.Inv)
    (by
      intro s a next inv paced stepped chained
      have effect := StreamEffect.of_step stepped
      exact (inv (effect.chained chained)).step paced effect chained)
    (fun _ => .of_init init) meets ran chained
  have wf := chained.wellFormed
  intro cr request w isWatcher earlier f later split reports v mem due le
  have told := inv.told cr request w isWatcher
  obtain ⟨k, r, few, revision, settled, events⟩ := told.reported earlier f later split reports
  have pos := (wf.version_storable mem).pos
  have newest := rev_le_revisionOf mem
  have applied := settled.applied
  have nonneg := settled.nonneg
  have upTo : v.rev ≤ r := by
    rw [revision, toEtcdRevision, toEtcdRevision, wrap_of_isInt64 ⟨by omega, by omega⟩,
      wrap_of_isInt64 ⟨by omega, by omega⟩] at le
    omega
  have wants := told.wants due pos (by omega)
  have wanted : v ∈ (wantedBy w s.node.history).take k := by
    have all : v ∈ wantedBy w s.node.history := mem_filter.mpr ⟨mem, by simpa using wants⟩
    rw [← take_append_drop k (wantedBy w s.node.history)] at all
    rcases mem_append.mp all with early | late
    · exact early
    · have := settled.rest v late
      omega
  obtain ⟨e, received, same⟩ :=
    exists_received (inv.inOrder wf isWatcher) (few.trans told.received) wanted
  rw [events]
  refine mem_map.mpr ⟨eventToProto e, ?_, ?_⟩
  · exact mem_filterMap.mpr ⟨e, received, wireEvent_of_due due same⟩
  · rw [← same]
    rfl

def emptyStream : Stream := { node := { store := .empty, history := [] } }

/-- A watch from now on: a progress frame, a frame with the events of two revisions,
an answered progress request and another progress frame. -/
def samplePaced : List StreamAction := List.flatten [
  [.create { key := [1], progressNotify := true }, .begin, .tick .queued,
    .node (.apply (sampleHistory.take 2)), .node .publish],
  (turn 3 3).map .node,
  [.receive, .receive, .flush .queued, .progressRequest, .tick .queued]]

theorem frames_never_ahead_samplePaced :
    ∃ s, streamSystem.run emptyStream samplePaced = some s ∧ s.NeverAhead ∧
      s.sent.map (fun f => (f.revision, f.events.map (fun e => e.kv.modRevision))) =
        [(1, []), (1, []), (3, [2, 3]), (3, []), (3, [])] := by
  obtain ⟨s, ran, history, frames⟩ := System.exists_of_run streamSystem emptyStream samplePaced
    (fun s => s.node.history = sampleHistory.take 2 ∧
      s.sent.map (fun f => (f.revision, f.events.map (fun e => e.kv.modRevision))) =
        [(1, []), (1, []), (3, [2, 3]), (3, []), (3, [])]) (by decide +kernel)
  have parts : Chained (sampleHistory.take 2 ++ sampleHistory.drop 2) := sampleHistory_chained
  have chained : Chained s.node.history := by
    rw [history]
    exact parts.of_append
  have room : revisionOf s.node.history + 1 < 2 ^ 63 := by
    rw [history]
    decide +kernel
  exact ⟨s, ran, frames_never_ahead ⟨⟨Store.represents_empty, rfl, rfl⟩, rfl, rfl, rfl, rfl⟩
    (by decide +kernel) ran chained room, frames⟩

def samplePast : List StreamAction := [.node (.apply (sampleHistory.take 2)), .node .publish]

/-- Four ways to run ahead: a batch cut between the events of a transaction, a progress
frame and an answered request before the past is sent, and wire revision 1, which means
"from now on" here. -/
def overruns : List (List StreamAction) := [
  List.flatten [samplePast,
    [.create { key := [0], rangeEnd := [0], startRevision := 2 }, .begin],
    (turn 3 2).map .node,
    [.receive, .receive, .flush .queued]],
  List.flatten [samplePast,
    [.create { key := [1], startRevision := 2, progressNotify := true }, .begin, .tick .queued]],
  List.flatten [samplePast,
    [.create { key := [1], startRevision := 2 }, .begin, .progressRequest]],
  List.flatten [samplePast,
    [.create { key := [1], startRevision := 1 }, .begin, .node (.apply (sampleHistory.drop 2)),
      .node .publish],
    (turn 1 1).map .node,
    [.receive, .flush .queued]]]

def Stream.lastAhead (s : Stream) : Bool :=
  s.node.history <+: sampleHistory ∧ s.request.any (fun cr => s.node.watcher.any (fun w =>
    s.sent.getLast?.any (fun f => f.Reports ∧
      ¬ ToldUpTo cr w s.node.history s.sent f.revision)))

theorem Stream.not_neverAhead {s : Stream} (ahead : s.lastAhead = true) :
    Chained s.node.history ∧ ¬ s.NeverAhead := by
  obtain ⟨⟨rest, whole⟩, found⟩ := of_decide_eq_true ahead
  obtain ⟨cr, request, found⟩ := (Option.any_eq_true _ _).mp found
  obtain ⟨w, isWatcher, found⟩ := (Option.any_eq_true _ _).mp found
  obtain ⟨f, last, found⟩ := (Option.any_eq_true _ _).mp found
  obtain ⟨reports, untold⟩ := of_decide_eq_true found
  refine ⟨(whole.symm ▸ sampleHistory_chained).of_append, ?_⟩
  intro never
  obtain ⟨front, split⟩ := getLast?_eq_some_iff.mp last
  have told := never cr request w isWatcher front f [] split reports
  rw [← split] at told
  exact untold told

/-- **Frames do run ahead.** -/
theorem frames_never_ahead_fails : overruns.Forall (fun actions =>
    ∃ s, streamSystem.run emptyStream actions = some s ∧ Chained s.node.history ∧
      ¬ s.NeverAhead) := by
  have runs : overruns.all (fun actions =>
      (streamSystem.run emptyStream actions).any (fun s => s.lastAhead = true)) = true := by
    decide +kernel
  rw [forall_iff_forall_mem]
  intro actions isOverrun
  obtain ⟨s, ran, ahead⟩ :=
    System.exists_of_run _ _ _ _ (all_eq_true.mp runs actions isOverrun)
  exact ⟨s, ran, Stream.not_neverAhead ahead⟩

end T4.Etcd
