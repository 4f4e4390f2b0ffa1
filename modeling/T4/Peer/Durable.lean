import T4.Peer.Acks

/-!
# What ACKs stand for

An ACK is good for every stream that its follower opens later: it was sent when the WAL had
the batches from the place of the follow loop on, and the place only moves up. So the value
that the leader has under an ID is good for the channel that is registered under the ID, also
when it came from an older stream. This ends when the follower comes back with less than it
had: from then on it has to register above the value (`RegistersAbove`).
-/

namespace T4.Peer

open Lib Wal List Function

variable {F : Type*}

/-! ## What the leader may believe -/

/-- A follower and what the leader has under its ID. -/
structure Tracks (committed : List Entry) (n : Follower) (link : Link) : Prop where
  ahead : n.Ahead
  within : link.cut ≤ n.wal.length
  /-- What the stream has brought is in the WAL. -/
  stream : n.conn.isSome → ∃ x, link.streams.getLast? = some (x, link.cut) ∧
    (n.fromRev ≤ x ∨ Backed committed (n.wal.drop link.cut) x (n.fromRev - 1))
  known : link.ackRev = 0 ∨ ∃ e ∈ committed, e.sequence = link.ackRev
  recorded : link.lost = false →
    link.ackRev = 0 ∨ Backed committed (n.wal.drop link.cut) n.fromRev link.ackRev
  sent : ∀ p ∈ link.sent,
    (link.lost = false → Backed committed (n.wal.drop link.cut) n.fromRev p.2) ∧
    ∃ x cut, link.streams[p.1]? = some (x, cut) ∧ Backed committed (n.wal.drop cut) x p.2

/-- The last ACK is good for the stream of a channel. -/
def Registered (committed : List Entry) (n : Follower) (link : Link) (chan : Nat) : Prop :=
  ∃ x cut, link.streams[chan]? = some (x, cut) ∧
    (link.ackRev = 0 ∨ link.ackRev < x ∨ Backed committed (n.wal.drop cut) x link.ackRev)

section Tracks

variable {committed new : List Entry} {n n' : Follower} {link : Link} {chan : Nat}
  {action : FollowerAction}

theorem Tracks.grow (tracks : Tracks committed n link)
    (above : ∀ e ∈ committed, ∀ e' ∈ new, e.sequence < e'.sequence) :
    Tracks (committed ++ new) n link := by
  refine ⟨tracks.ahead, tracks.within, ?_, ?_, ?_, ?_⟩
  · intro reads
    obtain ⟨x, isLast, taken⟩ := tracks.stream reads
    exact ⟨x, isLast, taken.imp_right (fun backed => backed.grow above)⟩
  · exact tracks.known.imp_right fun ⟨e, mem, same⟩ => ⟨e, mem_append_left _ mem, same⟩
  · exact fun keeps => (tracks.recorded keeps).imp_right (fun backed => backed.grow above)
  · intro p mem
    obtain ⟨backed, x, cut, opened, ofStream⟩ := tracks.sent p mem
    exact ⟨fun keeps => (backed keeps).grow above, x, cut, opened, ofStream.grow above⟩

theorem Registered.grow (registered : Registered committed n link chan)
    (above : ∀ e ∈ committed, ∀ e' ∈ new, e.sequence < e'.sequence) :
    Registered (committed ++ new) n link chan := by
  obtain ⟨x, cut, opened, good⟩ := registered
  exact ⟨x, cut, opened, good.imp_right (.imp_right (fun backed => backed.grow above))⟩

/-- The place moves up; for a follower that has lost something it may also move down. -/
theorem Tracks.move (tracks : Tracks committed n link) (more : n.wal <+: n'.wal)
    (later : link.lost = false → n.fromRev ≤ n'.fromRev) (ahead : n'.Ahead)
    (stream : n'.conn.isSome → ∃ x, link.streams.getLast? = some (x, link.cut) ∧
      (n'.fromRev ≤ x ∨ Backed committed (n'.wal.drop link.cut) x (n'.fromRev - 1))) :
    Tracks committed n' link := by
  refine ⟨ahead, tracks.within.trans more.length_le, stream, tracks.known, ?_, ?_⟩
  · intro keeps
    exact (tracks.recorded keeps).imp_right
      (fun backed => backed.mono (more.drop _).subset (later keeps))
  · intro p mem
    obtain ⟨backed, x, cut, opened, ofStream⟩ := tracks.sent p mem
    exact ⟨fun keeps => (backed keeps).mono (more.drop _).subset (later keeps), x, cut, opened,
      ofStream.mono (more.drop _).subset le_rfl⟩

theorem Registered.move (registered : Registered committed n link chan)
    (more : n.wal <+: n'.wal) : Registered committed n' link chan := by
  obtain ⟨x, cut, opened, good⟩ := registered
  exact ⟨x, cut, opened,
    good.imp_right (.imp_right (fun backed => backed.mono (more.drop _).subset le_rfl))⟩

theorem Follower.Moves.wal_prefix (moves : n.Moves committed action n') : n.wal <+: n'.wal := by
  cases moves with
  | connected | moved => exact prefix_refl _
  | @took batch rev phase outcome =>
    cases outcome with
    | ok | walFails | ackFails | applyFails => exact prefix_append _ _
  | replaced same =>
    rw [same]

theorem Follower.taken_conn (batch : List Entry) (rev : Int) (phase : Phase) (outcome : Outcome) :
    (n.taken batch rev phase outcome).conn = ({ n with phase } : Follower).conn := by
  unfold Follower.conn
  rw [Follower.taken_phase]

theorem Tracks.moves (tracks : Tracks committed n link) (moves : n.Moves committed action n')
    (other : action = .connect → n'.conn = none) : Tracks committed n' link := by
  have more := moves.wal_prefix
  cases moves with
  | connected =>
    have none := other rfl
    cases none
  | moved stays client =>
    refine tracks.move more (fun _ => le_rfl) ⟨tracks.ahead.stored, client⟩ ?_
    intro reads
    exact tracks.stream (stays reads).1
  | @took batch rev phase outcome streams stays client sent reaches backed =>
    have stored := tracks.ahead.stored
    have ahead : (n.taken batch rev phase outcome).Ahead := by
      refine ⟨?_, ?_⟩
      · cases outcome with
        | ok =>
          change rev + 1 ≤ max n.lastSeq rev + 1
          omega
        | walFails | ackFails | applyFails => exact stored
      · intro clientFrom conn isAt
        rw [Follower.taken_phase] at isAt
        exact client clientFrom conn isAt
    have later : n.fromRev ≤ (n.taken batch rev phase outcome).fromRev := by
      cases outcome with
      | ok => exact reaches.trans (Int.le_add_one le_rfl)
      | walFails | ackFails | applyFails => exact le_rfl
    refine tracks.move more (fun _ => later) ahead ?_
    intro reads
    rw [Follower.taken_conn] at reads
    cases stays reads
    obtain ⟨x, isLast, before⟩ := tracks.stream streams
    refine ⟨x, isLast, Or.inr ?_⟩
    change Backed committed ((n.wal ++ batch).drop link.cut) x (rev + 1 - 1)
    rw [Int.add_sub_cancel, drop_append_of_le_length tracks.within]
    exact .join before (backed _) (subset_append_left _ _)
  | replaced wal closed later ahead =>
    refine tracks.move more (fun _ => later) ahead ?_
    intro reads
    rw [closed] at reads
    cases reads

theorem Tracks.ack_backed (tracks : Tracks committed n link) {outcome : Outcome}
    (moves : n.Moves committed (.deliver outcome) n') {rev : Int}
    (sends : n.ack outcome = some rev) :
    Backed committed (n'.wal.drop link.cut) n'.fromRev rev ∧
      ∃ x, link.streams.getLast? = some (x, link.cut) ∧
        Backed committed (n'.wal.drop link.cut) x rev := by
  cases moves with
  | moved stays client silent =>
    rw [silent outcome rfl] at sends
    cases sends
  | @took batch rev' phase outcome streams stays client sent reaches backed =>
    rw [sent] at sends
    simp only [Option.ite_none_right_eq_some, Option.some.injEq] at sends
    obtain ⟨acks, same⟩ := sends
    subst same
    obtain ⟨x, isLast, before⟩ := tracks.stream streams
    have here : Backed committed ((n.wal ++ batch).drop link.cut) n.fromRev rev' := by
      rw [drop_append_of_le_length tracks.within]
      exact backed _
    have whole : Backed committed ((n.wal ++ batch).drop link.cut) x rev' :=
      .join before here ((prefix_append _ _).drop _).subset
    cases outcome with
    | ok =>
      have further := reaches.trans (Int.le_add_one le_rfl)
      exact ⟨here.mono (List.Subset.refl _) further, x, isLast, whole⟩
    | applyFails => exact ⟨here, x, isLast, whole⟩
    | walFails => cases acks
    | ackFails => cases acks
  | replaced wal closed later ahead silent => exact absurd rfl (silent outcome)

theorem Follower.Moves.connect_cases (moves : n.Moves committed .connect n') :
    n'.conn = none ∨ ∃ clientFrom conn, n.phase = .following clientFrom none ∧
      n' = { n with phase := .following clientFrom (some conn) } := by
  cases moves with
  | @connected clientFrom conn idle => exact Or.inr ⟨clientFrom, conn, idle, rfl⟩
  | @moved _ phase stays =>
    refine Or.inl (Option.not_isSome_iff_eq_none.mp ?_)
    exact fun reads => (stays reads).2 rfl
  | replaced _ closed => exact Or.inl closed

theorem Tracks.push (tracks : Tracks committed n link) (msg : WalEntryMsg) :
    Tracks committed (n.push msg) link := by
  unfold Follower.push
  split
  case h_1 fromRev conn isAt =>
    have reads : n.conn.isSome := by rw [Follower.conn, isAt]; rfl
    refine ⟨⟨tracks.ahead.stored, ?_⟩, tracks.within, fun _ => tracks.stream reads, tracks.known,
      tracks.recorded, tracks.sent⟩
    intro _ _ same
    cases same
    exact tracks.ahead.client fromRev (some conn) isAt
  case h_2 => exact tracks

theorem Follower.push_wal (msg : WalEntryMsg) : (n.push msg).wal = n.wal := by
  unfold Follower.push
  split
  · rfl
  · rfl

end Tracks

/-! ## The invariant -/

namespace AckState

structure Inv (s : AckState F) : Prop where
  repl : s.repl.Inv
  tracks : ∀ f, Tracks s.repl.committed (s.repl.followers f) (s.links f)
  registered : ∀ p ∈ s.followers,
    Registered s.repl.committed (s.repl.followers p.1) (s.links p.1) p.2
  nodup : (s.followers.map Prod.fst).Nodup
  snapshot : ∀ w ∈ s.wait, w.required.Nodup

variable {s t : AckState F} {f : F} {n' : Follower} {link : Link} {cap : Nat}

theorem Inv.shrink (inv : s.Inv) {followers : List (F × Nat)}
    (sub : followers.Sublist s.followers) : Inv { s with followers } :=
  ⟨inv.repl, inv.tracks, fun p mem => inv.registered p (sub.subset mem),
    inv.nodup.sublist (sub.map Prod.fst), inv.snapshot⟩

/-- The leader sends a message to every follower, and closes the channels that are full. -/
theorem Inv.pushAll (inv : s.Inv) {repl : ReplState F} (next : repl.Inv) {new : List Entry}
    (msg : WalEntryMsg) (followers : repl.followers = fun f => (s.repl.followers f).push msg)
    (committed : repl.committed = s.repl.committed ++ new)
    (above : ∀ e ∈ s.repl.committed, ∀ e' ∈ new, e.sequence < e'.sequence)
    (isOpen : F × Nat → Bool) : Inv { s with repl, followers := s.followers.filter isOpen } := by
  refine ⟨next, ?_, ?_, ?_, inv.snapshot⟩
  · intro f
    change Tracks repl.committed (repl.followers f) (s.links f)
    rw [followers, committed]
    exact ((inv.tracks f).grow above).push msg
  · intro p mem
    change Registered repl.committed (repl.followers p.1) (s.links p.1) p.2
    rw [followers, committed]
    refine ((inv.registered p (mem_filter.mp mem).1).grow above).move ?_
    rw [Follower.push_wal]
  · exact inv.nodup.sublist (filter_sublist.map Prod.fst)

/-- A follower whose ACK has reached the sequence has appended the entries of its stream. -/
theorem Inv.appended (inv : s.Inv) {rev : Int} (connected : s.Connected f)
    (acked : rev ≤ (s.links f).ackRev) : s.Appended f rev := by
  obtain ⟨⟨g, chan⟩, isRegistered, same⟩ := mem_map.mp connected
  cases same
  obtain ⟨x, cut, opened, good⟩ := inv.registered (g, chan) isRegistered
  refine ⟨chan, x, cut, isRegistered, opened, ?_⟩
  intro e mem above upTo
  rcases good with none | older | backed
  · have positive := (inv.repl.known e (Or.inl mem)).2.1
    rw [none] at acked
    omega
  · omega
  · exact backed.2 e mem above (upTo.trans acked)

variable [DecidableEq F]

theorem Inv.setBoth (inv : s.Inv)
    (repl : ReplState.Inv { s.repl with followers := update s.repl.followers f n' })
    (tracks : Tracks s.repl.committed n' link)
    (registered : ∀ chan, (f, chan) ∈ s.followers → Registered s.repl.committed n' link chan) :
    Inv { s.setLink f link with
      repl := { s.repl with followers := update s.repl.followers f n' } } := by
  refine ⟨repl, ?_, ?_, inv.nodup, inv.snapshot⟩
  · intro g
    dsimp only [AckState.setLink]
    by_cases same : g = f
    · subst same
      rw [update_self, update_self]
      exact tracks
    · rw [update_of_ne same, update_of_ne same]
      exact inv.tracks g
  · rintro ⟨g, chan⟩ mem
    dsimp only [AckState.setLink]
    by_cases same : g = f
    · subst same
      rw [update_self, update_self]
      exact registered chan mem
    · rw [update_of_ne same, update_of_ne same]
      exact inv.registered (g, chan) mem

theorem Inv.setFollower (inv : s.Inv)
    (repl : ReplState.Inv { s.repl with followers := update s.repl.followers f n' })
    (tracks : Tracks s.repl.committed n' (s.links f)) (more : (s.repl.followers f).wal <+: n'.wal) :
    Inv { s with repl := { s.repl with followers := update s.repl.followers f n' } } := by
  have both := inv.setBoth repl tracks (fun chan mem => (inv.registered (f, chan) mem).move more)
  rwa [AckState.setLink, update_eq_self] at both

theorem Inv.setLink (inv : s.Inv) (link : Link)
    (tracks : Tracks s.repl.committed (s.repl.followers f) link)
    (registered : ∀ chan, (f, chan) ∈ s.followers →
      Registered s.repl.committed (s.repl.followers f) link chan) : (s.setLink f link).Inv := by
  have same : update s.repl.followers f (s.repl.followers f) = s.repl.followers :=
    update_eq_self ..
  have both := inv.setBoth (by rw [same]; exact inv.repl) tracks registered
  rwa [same] at both

theorem not_mem_remove {chan : Nat} : (f, chan) ∉ s.remove f := by
  intro mem
  have := (mem_filter.mp mem).2
  simp at this

theorem cleanup_repl (repl : ReplState F) (chan : Nat) :
    { s.cleanup f chan with repl } = ({ s with repl } : AckState F).cleanup f chan := by
  unfold AckState.cleanup
  split
  · rfl
  · rfl

theorem Inv.cleanup (inv : s.Inv) (chan : Nat) : (s.cleanup f chan).Inv := by
  unfold AckState.cleanup
  split
  case isTrue =>
    have shrunk : Inv { s with followers := s.remove f } := inv.shrink filter_sublist
    have tracks := inv.tracks f
    refine shrunk.setLink { s.links f with ackRev := 0 } ?_ ?_
    · exact ⟨tracks.ahead, tracks.within, tracks.stream, Or.inl rfl, fun _ => Or.inl rfl,
        tracks.sent⟩
    · exact fun chan mem => absurd mem not_mem_remove
  case isFalse => exact inv

theorem Inv.send (inv : s.Inv) {rev x : Int} (isNow : s.repl.followers f = n')
    (backed : Backed s.repl.committed (n'.wal.drop (s.links f).cut) n'.fromRev rev)
    (isLast : (s.links f).streams.getLast? = some (x, (s.links f).cut))
    (whole : Backed s.repl.committed (n'.wal.drop (s.links f).cut) x rev) :
    (s.send f rev).Inv := by
  subst isNow
  have tracks := inv.tracks f
  refine inv.setLink _ ⟨tracks.ahead, tracks.within, tracks.stream, tracks.known,
    tracks.recorded, ?_⟩ (fun chan mem => inv.registered (f, chan) mem)
  refine forall_mem_append.mpr ⟨tracks.sent, forall_mem_singleton.mpr ?_⟩
  refine ⟨fun _ => backed, x, _, ?_, whole⟩
  rw [← getLast?_eq_getElem?]
  exact isLast

theorem Inv.register (inv : s.Inv) {clientFrom : Int}
    (idle : (s.repl.followers f).phase = .following clientFrom none)
    (above : (s.links f).lost → (s.links f).ackRev < clientFrom) :
    (s.register f clientFrom).Inv := by
  have tracks := inv.tracks f
  have kept : ∀ {chan : Nat} {p : Int × Nat}, (s.links f).streams[chan]? = some p →
      ((s.links f).streams ++ [(clientFrom, (s.links f).cut)])[chan]? = some p := by
    intro chan p opened
    rw [List.getElem?_append_left (List.getElem?_eq_some_iff.mp opened).1]
    exact opened
  have opened : (s.setLink f { s.links f with
      streams := (s.links f).streams ++ [(clientFrom, (s.links f).cut)] }).Inv := by
    refine inv.setLink _ ⟨tracks.ahead, tracks.within, ?_, tracks.known, tracks.recorded, ?_⟩ ?_
    · intro reads
      rw [Follower.conn, idle] at reads
      cases reads
    · intro p mem
      obtain ⟨backed, x, cut, isStream, whole⟩ := tracks.sent p mem
      exact ⟨backed, x, cut, kept isStream, whole⟩
    · intro chan mem
      obtain ⟨x, cut, isStream, good⟩ := inv.registered (f, chan) mem
      exact ⟨x, cut, kept isStream, good⟩
  refine ⟨opened.repl, opened.tracks, ?_, ?_, opened.snapshot⟩
  · intro p mem
    rcases mem_cons.mp mem with new | old
    · subst new
      change Registered s.repl.committed (s.repl.followers f) (update s.links f _ f) _
      rw [update_self]
      refine ⟨clientFrom, _, getElem?_concat_length, ?_⟩
      cases lost : (s.links f).lost with
      | true => exact Or.inr (Or.inl (above lost))
      | false =>
        refine (tracks.recorded lost).imp_right fun backed => Or.inr ?_
        exact backed.mono (List.Subset.refl _) (tracks.ahead.client clientFrom none idle)
    · exact opened.registered p (mem_filter.mp old).1
  · refine nodup_cons.mpr ⟨?_, inv.nodup.sublist (filter_sublist.map Prod.fst)⟩
    intro mem
    obtain ⟨⟨g, chan⟩, isIn, same⟩ := mem_map.mp mem
    cases same
    exact not_mem_remove isIn

theorem Inv.follower (inv : s.Inv) {action : FollowerAction} {repl : ReplState F}
    (forward : s.Forward (.follower f action))
    (above : s.RegistersAbove (.repl (.follower f action)))
    (stepped : replStep cap s.repl (.follower f action) = some repl) :
    (s.after repl (.follower f action)).Inv := by
  have next := inv.repl.step stepped
  obtain ⟨n', moved, same⟩ := Option.map_eq_some_iff.mp stepped
  subst same
  have tracks := inv.tracks f
  have sorted := (pairwise_append.mp inv.repl.sorted).1
  have moves := Follower.Moves.of_step tracks.ahead (inv.repl.streams f) sorted forward moved
  -- Every step but one that connects leaves the leader's maps to the actions of their own.
  have move : (action = .connect → n'.conn = none) → Inv { s with
      repl := { s.repl with followers := update s.repl.followers f n' } } :=
    fun other => inv.setFollower next (tracks.moves moves other) moves.wal_prefix
  cases action with
  | connect =>
    simp only [after, update_self]
    split
    case h_1 clientFrom conn idle isConn =>
      rcases moves.connect_cases with closed | ⟨clientFrom', conn', idle', same⟩
      · cases closed.symm.trans isConn
      · cases idle.symm.trans idle'
        subst same
        have registered := inv.register idle
          (fun lost => above lost clientFrom (by rw [Follower.asks, idle]; rfl))
        have behind := tracks.ahead.client clientFrom none idle
        have linked := registered.tracks f
        refine registered.setFollower next
          (linked.move (prefix_refl _) (fun _ => le_rfl) ?_ ?_) (prefix_refl _)
        · refine ⟨tracks.ahead.stored, ?_⟩
          intro _ _ isAt
          cases isAt
          exact behind
        · intro _
          refine ⟨clientFrom, ?_, Or.inl behind⟩
          change (update s.links f _ f).streams.getLast? =
            some (clientFrom, (update s.links f _ f).cut)
          rw [update_self]
          exact getLast?_concat
    case h_2 other =>
      refine move (fun _ => ?_)
      rcases moves.connect_cases with closed | ⟨clientFrom, conn, idle, same⟩
      · exact closed
      · exact absurd (congrArg Follower.conn same) (other clientFrom conn idle)
  | hangUp =>
    change Inv { s.cleanup f _ with
      repl := { s.repl with followers := update s.repl.followers f n' } }
    rw [cleanup_repl]
    exact (move (fun same => nomatch same)).cleanup _
  | deliver outcome =>
    simp only [after]
    split
    case h_1 rev sends =>
      obtain ⟨backed, x, isLast, whole⟩ := tracks.ack_backed moves sends
      exact (move (fun same => nomatch same)).send (update_self ..) backed isLast whole
    case h_2 => exact move (fun same => nomatch same)
  | forward | disconnect | giveUp | resync => exact move (fun same => nomatch same)

theorem Inv.after (inv : s.Inv) {action : ReplAction F} {repl : ReplState F}
    (forward : s.Forward action) (registers : s.RegistersAbove (.repl action))
    (stepped : replStep cap s.repl action = some repl) : (s.after repl action).Inv := by
  have next := inv.repl.step stepped
  have above := (pairwise_append.mp inv.repl.sorted).2.2
  revert stepped
  fun_cases replStep cap s.repl action <;> intro stepped <;> try cases stepped
  case case1 =>
    exact inv.pushAll next _ rfl (append_nil _).symm (fun _ _ _ mem => by cases mem) _
  case case3 => exact inv.pushAll next _ rfl rfl above _
  case case6 =>
    have kept : Inv { s with repl := { s.repl with
        batch := [], aborted := s.repl.aborted ++ s.repl.batch } } :=
      ⟨next, inv.tracks, inv.registered, inv.nodup, inv.snapshot⟩
    exact kept.shrink filter_sublist
  case case7 f action =>
    exact inv.follower forward registers
      (show replStep cap s.repl (.follower f action) = _ from stepped)

theorem Inv.restart (inv : s.Inv) (seq : Int) (keeps : Bool) :
    (s.restart f seq keeps).Inv := by
  have tracks := inv.tracks f
  -- A follower that has not lost anything has its WAL, and its place has not moved down.
  have kept : ((s.links f).lost || !keeps ||
      decide (seq + 1 < (s.repl.followers f).fromRev)) = false →
      (s.links f).lost = false ∧ keeps = true ∧ (s.repl.followers f).fromRev ≤ seq + 1 := by
    simp [and_assoc]
  refine inv.setBoth ?_ ⟨?_, ?_, (fun reads => by cases reads), tracks.known, ?_, ?_⟩
    (fun chan mem => inv.registered (f, chan) mem)
  · refine ⟨inv.repl.positive, inv.repl.known, inv.repl.sorted, inv.repl.older, inv.repl.apart,
      inv.repl.pending, inv.repl.buffered, ?_⟩
    exact (Function.forall_update_iff _ (fun _ => Follower.Streams _ _)).mpr
      ⟨.of_none (fun _ _ isAt => nomatch isAt), fun g _ => inv.repl.streams g⟩
  · refine ⟨le_rfl, ?_⟩
    intro _ _ isAt
    cases isAt
    exact le_rfl
  · cases keeps with
    | true => exact tracks.within
    | false => exact le_rfl
  · intro stands
    obtain ⟨whole, rfl, later⟩ := kept stands
    exact (tracks.recorded whole).imp_right
      (fun backed => backed.mono (List.Subset.refl _) later)
  · intro p mem
    obtain ⟨backed, ofStream⟩ := tracks.sent p mem
    refine ⟨?_, ofStream⟩
    intro stands
    obtain ⟨whole, rfl, later⟩ := kept stands
    exact (backed whole).mono (List.Subset.refl _) later

theorem Inv.receiveAck (inv : s.Inv) {i chan : Nat} {rev : Int}
    (found : (s.links f).sent[i]? = some (chan, rev)) :
    (s.setLink f { s.links f with sent := (s.links f).sent.eraseIdx i }).Inv ∧
      ((f, chan) ∈ s.followers → (s.setLink f { s.links f with
        sent := (s.links f).sent.eraseIdx i
        ackRev := max (s.links f).ackRev rev }).Inv) := by
  have tracks := inv.tracks f
  have rest : ∀ p ∈ (s.links f).sent.eraseIdx i, p ∈ (s.links f).sent :=
    fun p mem => mem_of_mem_eraseIdx mem
  refine ⟨?_, ?_⟩
  · exact inv.setLink _ ⟨tracks.ahead, tracks.within, tracks.stream, tracks.known,
      tracks.recorded, fun p mem => tracks.sent p (rest p mem)⟩
      (fun chan mem => inv.registered (f, chan) mem)
  · intro isRegistered
    obtain ⟨backed, x, cut, opened, whole⟩ :=
      tracks.sent (chan, rev) (mem_of_getElem? found)
    rcases max_choice (s.links f).ackRev rev with old | new
    · rw [old]
      exact inv.setLink _ ⟨tracks.ahead, tracks.within, tracks.stream, tracks.known,
        tracks.recorded, fun p mem => tracks.sent p (rest p mem)⟩
        (fun chan mem => inv.registered (f, chan) mem)
    rw [new]
    refine inv.setLink _ ⟨tracks.ahead, tracks.within, tracks.stream, Or.inr whole.1,
      fun keeps => Or.inr (backed keeps), fun p mem => tracks.sent p (rest p mem)⟩ ?_
    intro chan' mem
    -- The map has one channel for the follower.
    cases inj_on_of_nodup_map inv.nodup isRegistered mem rfl
    exact ⟨x, cut, opened, Or.inr (Or.inr whole)⟩

theorem Inv.step (inv : s.Inv) {action : AckAction F} (registers : s.RegistersAbove action)
    (stepped : ackStep cap s action = some t) : t.Inv := by
  revert stepped
  fun_cases ackStep cap s action <;> intro stepped <;> try cases stepped
  case case1 forward =>
    obtain ⟨repl, moved, rfl⟩ := Option.map_eq_some_iff.mp stepped
    exact inv.after forward registers moved
  case case3 seq keeps => exact inv.restart seq keeps
  case case5 chan _ => exact inv.cleanup chan
  case case6 => exact inv.shrink filter_sublist
  case case9 found _ isRegistered => exact (inv.receiveAck found).2 isRegistered
  case case10 found _ _ => exact (inv.receiveAck found).1
  case case11 =>
    refine ⟨inv.repl, inv.tracks, inv.registered, inv.nodup, ?_⟩
    intro w isWait
    cases isWait
    exact inv.nodup
  case case14 => exact ⟨inv.repl, inv.tracks, inv.registered, inv.nodup, nofun⟩

theorem Inv.init (start : (ackSystem cap).init s) : s.Inv := by
  obtain ⟨repl, began, rfl⟩ := start
  have next := ReplState.Inv.init began
  obtain ⟨startRev, lastSent, seqs, -, -, rfl⟩ := began
  refine ⟨next, ?_, (fun p mem => nomatch mem), nodup_nil, fun _ none => nomatch none⟩
  intro f
  refine ⟨⟨le_rfl, ?_⟩, le_rfl, (fun reads => nomatch reads), Or.inl rfl, (fun _ => Or.inl rfl),
    fun p mem => nomatch mem⟩
  intro _ _ isAt
  cases isAt
  exact le_rfl

end AckState

theorem requiredFollowerACKs_zero (mode : WaitMode) : requiredFollowerACKs 0 mode = 0 := by
  cases mode with
  | none => rfl
  | quorum => rfl
  | all => rfl

/-- With the leader, the followers that quorum mode waits for are a majority. -/
theorem Wait.enough (w : Wait F) : w.Enough := by
  unfold Wait.Enough
  split
  · simp only [requiredFollowerACKs]
    omega
  · rfl
  · trivial

/-- Whenever `WaitForFollowers` returns nil, in every run in which no follower registers below
an ACK that it can no longer stand for. -/
theorem waitForFollowers_durable [DecidableEq F] {cap : Nat} {s t : AckState F}
    {actions : List (AckAction F)} (start : (ackSystem cap).init s)
    (kept : (ackSystem cap).Meets AckState.RegistersAbove s actions)
    (run : (ackSystem cap).run s actions = some t) {w : Wait F} (waits : t.wait = some w)
    (returns : t.Returns w) : w.required.Nodup ∧ w.Enough ∧ t.Durable w := by
  have inv : t.Inv := (ackSystem cap).run_invariant (I := AckState.Inv)
    (fun inv registers stepped => inv.step registers stepped) (AckState.Inv.init start) kept run
  refine ⟨inv.snapshot w waits, w.enough, ?_⟩
  rcases returns with empty | none | enough | noneLeft
  · refine Or.inl ⟨[], nil_sublist _, ?_, fun f mem => nomatch mem⟩
    rw [empty, length_nil, requiredFollowerACKs_zero]
  · exact Or.inl ⟨[], nil_sublist _, none.le, fun f mem => nomatch mem⟩
  · rw [countP_eq_length_filter] at enough
    refine Or.inl ⟨_, filter_sublist, enough, ?_⟩
    intro f mem
    obtain ⟨connected, acked⟩ := of_decide_eq_true (mem_filter.mp mem).2
    exact inv.appended connected acked
  · refine Or.inr ?_
    intro f isRequired missing connected
    refine countP_eq_zero.mp noneLeft f isRequired (decide_eq_true ⟨connected, ?_⟩)
    exact fun acked => missing (inv.appended connected acked)

/-- A follower acknowledges the first entry and connects again before the leader has noticed;
the second entry is committed, and one follower is enough. -/
def staleAckRun : List (AckAction Bool) := List.flatten [
  [.repl (.follower true .connect), .repl (.follower false .connect),
    .repl (.broadcast (put 1)), .repl (.fsync true), .call 1 .quorum],
  (relay true 2 .ok).map .repl,
  [.receiveAck true 0, .back, .repl (.follower true .disconnect),
    .repl (.follower true .connect), .repl (.broadcast (put 2)), .repl (.fsync true),
    .call 2 .quorum],
  (relay true 2 .ok).map .repl,
  [.receiveAck true 0]]

theorem waitForFollowers_durable_staleAckRun : ∃ (t : AckState Bool) (w : Wait Bool),
    (ackSystem 4).run { repl := twoFollowers } staleAckRun = some t ∧ t.wait = some w ∧
      w.rev = 2 ∧ w.required = [true, false] ∧ t.Returns w ∧
      w.required.Nodup ∧ w.Enough ∧ t.Durable w := by
  obtain ⟨t, run, reached⟩ := System.exists_of_run (ackSystem 4) { repl := twoFollowers }
    staleAckRun (fun (t : AckState Bool) => t.wait.any (fun (w : Wait Bool) =>
      decide (w.rev = 2 ∧ w.required = [true, false] ∧ t.Returns w))) (by decide +kernel)
  obtain ⟨w, isWait, checked⟩ := (Option.any_eq_true _ _).mp reached
  obtain ⟨ofRev, required, returns⟩ := of_decide_eq_true checked
  have start : (ackSystem 4).init ({ repl := twoFollowers } : AckState Bool) :=
    ⟨twoFollowers, ⟨1, 0, fun _ => 0, le_rfl, by decide, rfl⟩, rfl⟩
  exact ⟨t, w, run, isWait, ofRev, required, returns,
    waitForFollowers_durable start (by decide +kernel) run isWait returns⟩

/-- A follower acknowledges the entry, loses its data directory and connects again from the
first entry before the leader's old `Follow` has ended; the other follower acknowledges. -/
def lostWalRun : List (AckAction Bool) := List.flatten [
  [.repl (.follower true .connect), .repl (.follower false .connect),
    .repl (.broadcast (put 1)), .repl (.fsync true), .call 1 .all],
  (relay true 2 .ok).map .repl,
  [.receiveAck true 0, .restart true 0 false, .repl (.follower true .connect)],
  (relay false 2 .ok).map .repl,
  [.receiveAck false 0]]

/-- The ACK of the lost WAL counts for the stream that has brought nothing yet. -/
theorem lost_wal_counted : ∃ (t : AckState Bool) (w : Wait Bool),
    (ackSystem 4).run { repl := twoFollowers } lostWalRun = some t ∧ t.wait = some w ∧
      w.rev = 1 ∧ w.mode = .all ∧ t.Returns w ∧ ¬ t.Durable w := by
  obtain ⟨t, run, isWait, followers, opened, disk, ⟨e, isCommitted, first⟩, returns⟩ :=
    System.exists_of_run (ackSystem 4) { repl := twoFollowers } lostWalRun
      (fun t => t.wait = some ⟨1, .all, [false, true]⟩ ∧ t.followers = [(true, 1), (false, 0)] ∧
        (t.links true).streams[1]? = some (1, 1) ∧ (t.repl.followers true).wal.drop 1 = [] ∧
        (∃ e ∈ t.repl.committed, e.sequence = 1) ∧ t.Returns ⟨1, .all, [false, true]⟩)
      (by decide +kernel)
  have missing : ¬ t.Appended true 1 := by
    rintro ⟨chan, fromRev, cut, mem, isStream, appended⟩
    have current : chan = 1 := by simpa [followers] using mem
    subst current
    cases opened.symm.trans isStream
    have held := appended e isCommitted first.ge first.le
    rw [disk] at held
    cases held
  refine ⟨t, _, run, isWait, rfl, rfl, returns, ?_⟩
  rintro (⟨durable, sublist, enough, appended⟩ | gone)
  · cases sublist.eq_of_length_le enough
    exact missing (appended true (by decide))
  · refine gone true (by decide) missing ?_
    rw [followers]
    decide

end T4.Peer
