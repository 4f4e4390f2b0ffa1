import T4.Cluster.Whole

/-!
# What a node has in each role

The node that the lock names has every write: in its store, in the batch of its commit
loop, or, while it is down, in its WAL.
-/

namespace T4.Cluster

open Lib Wal Election List

/-! ## A node's role -/

namespace Node

/-- The term for which the node was elected. -/
def office (node : Node) : Option Nat :=
  match node.role with
  | .elected term _ => some term
  | .leader l => some l.term
  | _ => none

/-- Where the follow loop is, or where it goes back to. -/
def place (node : Node) : Option Int :=
  match node.role with
  | .follower fromRev _ _ => some fromRev
  | .elected _ back => back
  | _ => none

/-- The batch of the commit loop comes next behind the store. -/
structure Ready (every : Bool) (w : List Entry) (node : Node) : Prop where
  sorted : node.unapplied.Pairwise (fun a b => a.sequence < b.sequence)
  next : ∀ e ∈ node.unapplied, lastSeq node.store < e.sequence
  logged : node.unapplied ⊆ node.log
  whole : Whole every w (node.store ++ node.unapplied)

/-- What the node that the lock names has of the writes. -/
def Covers (every : Bool) (w : List Entry) (node : Node) : Prop :=
  match node.role with
  | .down => HasAll every w (node.store ++ node.log)
  | .leader _ => HasAll every w (node.store ++ node.unapplied)
  | _ => HasAll every w node.store

/-- A node under the lock, when `w` was written. -/
structure Ok (every : Bool) (lock : Option LockRecord) (w : List Entry) (n : String)
    (node : Node) : Prop where
  sound : node.Sound every w
  ready : node.Ready every w
  placed : ∀ fromRev ∈ node.place, fromRev ≤ lastSeq node.store + 1
  office : ∀ term ∈ node.office, ∃ record, lock = some record ∧ term ≤ record.term ∧
    (term = record.term → record.nodeID = n)
  owner : ∀ record ∈ lock, record.nodeID = n → node.Covers every w
  elected : ∀ term back, node.role = .elected term back →
    ∀ e ∈ w, Wanted every e → e.term < term → e ∈ node.store
  revs : ∀ l, node.role = .leader l → 0 ≤ l.nextRev ∧
    ∀ record ∈ lock, record.nodeID = n → record.term = l.term →
      ∀ e ∈ w, IsWrite e → e.revision ≤ l.nextRev

variable {every : Bool} {lock : Option LockRecord} {w new : List Entry} {n : String}
  {node node' : Node}

theorem Ready.of_idle (sound : node.Sound every w) (idle : node.unapplied = []) :
    node.Ready every w := by
  refine ⟨?_, ?_, ?_, ?_⟩
  · rw [idle]
    exact .nil
  · rw [idle]
    exact fun e mem => nomatch mem
  · rw [idle]
    exact nil_subset _
  · rw [idle, append_nil]
    exact sound.whole

/-- Whatever its role, the lock's owner has everything in its store and its WAL. -/
theorem Covers.held (covers : node.Covers every w) (ready : node.Ready every w) :
    HasAll every w (node.store ++ node.log) := by
  have fromStore : HasAll every w node.store → HasAll every w (node.store ++ node.log) :=
    fun all e mem wanted => mem_append_left _ (all e mem wanted)
  unfold Covers at covers
  split at covers
  · exact covers
  · intro e mem wanted
    rcases mem_append.mp (covers e mem wanted) with held | waiting
    · exact mem_append_left _ held
    · exact mem_append_right _ (ready.logged waiting)
  · exact fromStore covers

theorem Ok.of_idle (sound : node.Sound every w) (office : node.office = none)
    (placed : ∀ fromRev ∈ node.place, fromRev ≤ lastSeq node.store + 1)
    (owner : ∀ record ∈ lock, record.nodeID = n → node.Covers every w) :
    node.Ok every lock w n := by
  have noLeader : ∀ l, node.role ≠ .leader l := by
    intro l leads
    rw [Node.office, leads] at office
    cases office
  have noElected : ∀ term back, node.role ≠ .elected term back := by
    intro term back elected
    rw [Node.office, elected] at office
    cases office
  have idle : node.unapplied = [] := by
    unfold Node.unapplied
    split
    case h_1 l leads => exact absurd leads (noLeader l)
    case h_2 => rfl
  refine ⟨sound, .of_idle sound idle, placed, ?_, owner, ?_, ?_⟩
  · rw [office]
    exact fun term none => nomatch none
  · exact fun term back same => absurd same (noElected term back)
  · exact fun l same => absurd same (noLeader l)

variable {fromRev : Int} {session : Option Session} {cleared : Bool} {term : Nat}
  {back : Option Int} {l : Leading}

theorem Ok.hasAll_of_follower (ok : node.Ok every lock w n)
    (follows : node.role = .follower fromRev session cleared) :
    ∀ record ∈ lock, record.nodeID = n → HasAll every w node.store := by
  intro record held owns
  have covers := ok.owner record held owns
  rw [Covers, follows] at covers
  exact covers

theorem Ok.hasAll_of_elected (ok : node.Ok every lock w n)
    (elected : node.role = .elected term back) :
    ∀ record ∈ lock, record.nodeID = n → HasAll every w node.store := by
  intro record held owns
  have covers := ok.owner record held owns
  rw [Covers, elected] at covers
  exact covers

theorem Ok.follow (stored : ∀ record ∈ lock, record.nodeID = n → HasAll every w node.store)
    (sound : node'.Sound every w) (reaches : lastSeq node.store ≤ lastSeq node'.store)
    (follows : node'.role = .follower fromRev session cleared)
    (place : fromRev ≤ lastSeq node'.store + 1) : node'.Ok every lock w n := by
  refine .of_idle sound ?_ ?_ ?_
  · rw [Node.office, follows]
  · intro other isPlace
    rw [Node.place, follows] at isPlace
    cases isPlace
    exact place
  · intro record held owns
    rw [Covers, follows]
    exact (stored record held owns).keeps sound.whole reaches

theorem Ok.stay (ok : node.Ok every lock w n)
    (follows : node.role = .follower fromRev session cleared)
    (term : Nat) (session' : Option Session) (cleared' : Bool) :
    ({ node with term, role := .follower fromRev session' cleared' } : Node).Ok every lock w n :=
  .follow (ok.hasAll_of_follower follows) (ok.sound.of_same rfl rfl rfl) le_rfl rfl
    (ok.placed fromRev (by rw [Node.place, follows]; rfl))

/-- A stopped node owes the lock what its store and its WAL have together. -/
theorem Ok.stop (sound : node'.Sound every w) (down : node'.role = .down)
    (held : ∀ record ∈ lock, record.nodeID = n → HasAll every w (node'.store ++ node'.log)) :
    node'.Ok every lock w n := by
  refine .of_idle sound ?_ ?_ ?_
  · rw [Node.office, down]
  · intro other isPlace
    rw [Node.place, down] at isPlace
    cases isPlace
  · intro record isLock owns
    rw [Covers, down]
    exact held record isLock owns

theorem Ok.crash (ok : node.Ok every lock w n) (kept : Nat) :
    (node.crash kept).Ok every lock w n := by
  refine .stop (ok.sound.crash kept) rfl ?_
  intro record isLock owns e mem wanted
  have held := (ok.owner record isLock owns).held ok.ready e mem wanted
  rcases mem_append.mp held with stored | logged
  · rw [← take_append_drop (max kept node.synced) node.store] at stored
    rcases mem_append.mp stored with survives | lost
    · exact mem_append_left _ survives
    · exact mem_append_right _
        (ok.sound.unsynced e ((drop_sublist_drop_left _ (le_max_right _ _)).subset lost))
  · exact mem_append_right _ logged

theorem Ok.stepDown (ok : node.Ok every lock w n) :
    ({ node with role := .down } : Node).Ok every lock w n :=
  .stop (ok.sound.of_same rfl rfl rfl) rfl
    (fun record isLock owns => (ok.owner record isLock owns).held ok.ready)

theorem Ok.tune (ok : node.Ok every lock w n) (leads : node.role = .leader l) (l' : Leading)
    (term : l'.term = l.term) (nextRev : l.nextRev ≤ l'.nextRev)
    (batch : (l'.batch.map Pending.entries).getD [] = (l.batch.map Pending.entries).getD []) :
    ({ node with role := .leader l' } : Node).Ok every lock w n := by
  have same : ({ node with role := .leader l' } : Node).unapplied = node.unapplied := by
    simp only [unapplied, leads, batch]
  refine ⟨ok.sound.of_same rfl rfl rfl, ?_, (fun _ none => by cases none), ?_, ?_, ?_, ?_⟩
  · refine ⟨?_, ?_, ?_, ?_⟩
    · rw [same]
      exact ok.ready.sorted
    · rw [same]
      exact ok.ready.next
    · rw [same]
      exact ok.ready.logged
    · rw [same]
      exact ok.ready.whole
  · intro other isTerm
    cases isTerm
    refine ok.office l'.term ?_
    rw [Node.office, leads, term]
    rfl
  · intro record isLock owns
    have covers := ok.owner record isLock owns
    rw [Covers, leads] at covers
    rw [Covers, same]
    exact covers
  · exact fun _ _ elected => by cases elected
  · intro l'' isLeader
    cases isLeader
    obtain ⟨positive, above⟩ := ok.revs l leads
    refine ⟨positive.trans nextRev, ?_⟩
    intro record isLock owns ofTerm e mem isWrite
    exact (above record isLock owns (ofTerm.trans term) e mem isWrite).trans nextRev

theorem Ok.acknowledge (ok : node.Ok every lock w n) (follower : String) (term : Nat) (seq : Int) :
    (node.acknowledge follower term seq).Ok every lock w n := by
  unfold Node.acknowledge
  split
  case h_1 l leads =>
    split
    · exact ok.tune leads _ rfl le_rfl rfl
    · exact ok
  case h_2 => exact ok

/-- The lock changes, and the node loses or gains nothing by it. -/
theorem Ok.relock (ok : node.Ok every lock w n) {lock' : Option LockRecord}
    (terms : ∀ term ∈ node.office, ∃ record, lock' = some record ∧ term ≤ record.term ∧
      (term = record.term → record.nodeID = n))
    (owners : ∀ record' ∈ lock', record'.nodeID = n →
      ∃ record ∈ lock, record.nodeID = n ∧ record.term = record'.term) :
    node.Ok every lock' w n := by
  refine ⟨ok.sound, ok.ready, ok.placed, terms, ?_, ok.elected, ?_⟩
  · intro record' isLock owns
    obtain ⟨record, wasLock, owned, -⟩ := owners record' isLock owns
    exact ok.owner record wasLock owned
  · intro l leads
    obtain ⟨positive, above⟩ := ok.revs l leads
    refine ⟨positive, ?_⟩
    intro record' isLock owns ofTerm
    obtain ⟨record, wasLock, owned, sameTerm⟩ := owners record' isLock owns
    exact above record wasLock owned (sameTerm.trans ofTerm)

/-- The leader writes: every other node only falls behind. -/
theorem Ok.grow (ok : node.Ok every lock w n) (within : node.Within w)
    (unapplied : node.unapplied ⊆ w) (above : Newer w new)
    (terms : ∀ record ∈ lock, record.nodeID ≠ n ∧ ∀ e ∈ new, e.term = record.term) :
    node.Ok every lock (w ++ new) n := by
  refine ⟨ok.sound.grow within above, ⟨ok.ready.sorted, ok.ready.next, ok.ready.logged, ?_⟩,
    ok.placed, ok.office, ?_, ?_, ?_⟩
  · exact ok.ready.whole.grow (append_subset.mpr ⟨within.store, unapplied⟩) above
  · intro record isLock owns
    exact absurd owns (terms record isLock).1
  · intro term back elected e mem wanted earlier
    rcases mem_append.mp mem with old | isNew
    · exact ok.elected term back elected e old wanted earlier
    · obtain ⟨record, isLock, upTo, -⟩ := ok.office term (by rw [Node.office, elected]; rfl)
      have := (terms record isLock).2 e isNew
      omega
  · intro l leads
    refine ⟨(ok.revs l leads).1, ?_⟩
    intro record isLock owns
    exact absurd owns (terms record isLock).1

theorem Ok.receive (ok : node.Ok every lock w n) (written : Written w) {batch : List Entry}
    {last : Entry} {session : Session}
    (follows : node.role = .follower fromRev (some session) cleared) (sub : batch ⊆ w)
    (numbered : Numbered Entry.sequence fromRev batch) (isLast : batch.getLast? = some last)
    (outcome : Peer.Outcome) :
    (node.receive batch last outcome fromRev session).Ok every lock w n := by
  have place : fromRev ≤ lastSeq node.store + 1 := by
    refine ok.placed fromRev ?_
    rw [Node.place, follows]
    rfl
  have stored := ok.hasAll_of_follower follows
  have parts : ∀ j, Numbered Entry.sequence fromRev (batch.take j) := by
    intro j
    have whole := numbered
    rw [← take_append_drop j batch] at whole
    exact (numbered_append.mp whole).1
  have logged : ∀ j, ({ node with log := node.log ++ batch.take j } : Node).Sound every w :=
    fun j => ok.sound.logged written (List.Subset.trans (take_subset _ _) sub) (parts j) place
  have all := logged batch.length
  rw [take_length] at all
  cases outcome with
  | walFails count =>
    exact .follow stored ((logged count).of_same rfl rfl rfl) le_rfl rfl place
  | ackFails | applyFails => exact .follow stored (all.of_same rfl rfl rfl) le_rfl rfl place
  | ok =>
    have applied : (({ node with log := node.log ++ batch } : Node).apply batch).Sound every w := by
      refine all.apply (subset_append_right _ _) ?_
      exact fun j => ok.sound.whole.extend written (List.Subset.trans (take_subset _ _) sub)
        (parts j) place
    have reaches : lastSeq node.store ≤ lastSeq (node.store ++ batch) := by
      rw [lastSeq_append]
      exact le_max_left _ _
    refine .follow stored (applied.of_same rfl rfl rfl) reaches rfl ?_
    have := le_lastSeq (mem_append_right node.store (mem_of_getLast? isLast))
    change last.sequence + 1 ≤ lastSeq (node.store ++ batch) + 1
    omega

theorem Ok.resync {b : Bucket} (ok : node.Ok every lock w n) (written : Written w)
    (bucket : b.Within w) (checkpoint : ∀ cp ∈ b.checkpoint, Whole every w cp.store)
    (follows : node.role = .follower fromRev session cleared) (replays : Bool) :
    (node.resync b replays fromRev).Ok every lock w n := by
  have place : fromRev ≤ lastSeq node.store + 1 := by
    refine ok.placed fromRev ?_
    rw [Node.place, follows]
    rfl
  have stored := ok.hasAll_of_follower follows
  unfold Node.resync
  extract_lets behind node'
  have restored : node'.Sound every w ∧ lastSeq node.store ≤ lastSeq node'.store := by
    unfold node' behind
    cases found : b.ahead node.store with
    | none => exact ⟨ok.sound, le_rfl⟩
    | some cp =>
      obtain ⟨moved, reaches⟩ := ok.sound.restoreIfBehind bucket checkpoint
      refine ⟨⟨moved.prefixes, ?_, ?_⟩, reaches⟩
      · intro e mem
        rw [Node.restoreIfBehind, found] at mem
        simp [Node.restore] at mem
      · intro e mem wanted later upTo
        have := (written.positive e mem).1
        change e.sequence ≤ lastSeq [] at upTo
        rw [lastSeq, foldl_nil] at upTo
        omega
  split
  case h_1 =>
    exact .follow stored (restored.1.of_same rfl rfl rfl) restored.2 rfl
      (place.trans (Int.add_le_add_right restored.2 1))
  case h_2 found =>
    cases replays with
    | false => cases found
    | true =>
      obtain ⟨replayed, further⟩ := restored.1.replayRemote written bucket found
      exact .follow stored (replayed.of_same rfl rfl rfl) (restored.2.trans further) rfl le_rfl

theorem Ok.elect {record : LockRecord} (sound : node.Sound every w)
    (all : HasAll every w node.store)
    (elected : node.role = .elected term back)
    (place : ∀ fromRev ∈ back, fromRev ≤ lastSeq node.store + 1) (owns : record.nodeID = n)
    (ofTerm : record.term = term) : node.Ok every (some record) w n := by
  have idle : node.unapplied = [] := by
    rw [unapplied, elected]
  refine ⟨sound, .of_idle sound idle, ?_, ?_, ?_, ?_, ?_⟩
  · rw [Node.place, elected]
    exact place
  · rw [Node.office, elected]
    rintro other ⟨⟩
    exact ⟨record, rfl, ofTerm.ge, fun _ => owns⟩
  · intro other isLock owned
    rw [Covers, elected]
    exact all
  · exact fun _ _ _ e mem wanted _ => all e mem wanted
  · intro l leads
    rw [elected] at leads
    cases leads

theorem Ok.lead (ok : node.Ok every lock w n) (elected : node.role = .elected term back)
    (sound : node'.Sound every w) (reaches : lastSeq node.store ≤ lastSeq node'.store) :
    (node'.lead term).Ok every lock w n := by
  have sound' : (node'.lead term).Sound every w := sound.of_same rfl rfl rfl
  have all : ∀ record ∈ lock, record.nodeID = n → HasAll every w node'.store :=
    fun record isLock owns =>
      (ok.hasAll_of_elected elected record isLock owns).keeps sound.whole reaches
  refine ⟨sound', .of_idle sound' rfl, (fun _ none => nomatch none), ?_, ?_,
    (fun _ _ elected => nomatch elected), ?_⟩
  · rintro other ⟨⟩
    refine ok.office term ?_
    rw [Node.office, elected]
    rfl
  · intro record isLock owns e mem wanted
    exact mem_append_left _ (all record isLock owns e mem wanted)
  · rintro l ⟨⟩
    refine ⟨currentRev_nonneg, ?_⟩
    intro record isLock owns _ e mem isWrite
    exact le_currentRev (all record isLock owns e mem (Or.inr isWrite)) isWrite

theorem Ok.abandon {role : Role} (ok : node.Ok every lock w n)
    (elected : node.role = .elected term back) (sound : node'.Sound every w)
    (reaches : lastSeq node.store ≤ lastSeq node'.store)
    (returns : role = .down ∨ ∃ fromRev ∈ back, role = .follower fromRev none false) :
    ({ node' with role } : Node).Ok every lock w n := by
  have stored := ok.hasAll_of_elected elected
  rcases returns with down | ⟨fromRev, isBack, follows⟩
  · refine .stop (sound.of_same rfl rfl rfl) down ?_
    intro record isLock owns e mem wanted
    exact mem_append_left _
      ((stored record isLock owns).keeps sound.whole reaches e mem wanted)
  · have place := ok.placed fromRev (by rw [Node.place, elected]; exact isBack)
    exact .follow stored (sound.of_same rfl rfl rfl) reaches follows
      (place.trans (Int.add_le_add_right reaches 1))

theorem Ok.hasAll_replayLocal (ok : node.Ok every lock w n) (down : node.role = .down) :
    ∀ record ∈ lock, record.nodeID = n → HasAll every w node.replayLocal.store := by
  intro record isLock owns e mem wanted
  have covers := ok.owner record isLock owns
  rw [Covers, down] at covers
  obtain ⟨replayed, reaches⟩ := ok.sound.replayLocal
  rcases mem_append.mp (covers e mem wanted) with stored | logged
  · exact replayed.whole.keeps reaches mem wanted stored
  · rcases le_or_gt e.sequence (lastSeq node.store) with old | new
    · exact replayed.whole.keeps reaches mem wanted (ok.sound.whole e mem wanted old)
    · have isIn : e ∈ node.log.filter (fun e => lastSeq node.store < e.sequence) :=
        mem_filter.mpr ⟨logged, decide_eq_true new⟩
      rw [Node.replayLocal, Node.recover, if_neg (ne_nil_of_mem isIn)]
      exact mem_append_right _ isIn

theorem Ok.finish {entries : List Entry} {phase : BatchPhase} (ok : node.Ok every lock w n)
    (leads : node.role = .leader l) (batch : l.batch = some ⟨entries, phase⟩) :
    ({ node.apply entries with role := .leader { l with batch := none } } : Node).Ok every
      lock w n := by
  have waiting : node.unapplied = entries := by
    simp only [unapplied, leads, batch, Option.map_some, Option.getD_some]
  obtain ⟨sorted, next, logged, whole⟩ := ok.ready
  rw [waiting] at sorted next logged whole
  have applied : (node.apply entries).Sound every w :=
    ok.sound.apply logged (whole.take sorted next)
  have sound : ({ node.apply entries with role := .leader { l with batch := none } } :
      Node).Sound every w := applied.of_same rfl rfl rfl
  refine ⟨sound, .of_idle sound rfl, (fun _ none => by cases none), ?_, ?_,
    (fun _ _ elected => by cases elected), ?_⟩
  · rintro other ⟨⟩
    refine ok.office l.term ?_
    rw [Node.office, leads]
    rfl
  · intro record isLock owns e mem wanted
    have covers := ok.owner record isLock owns
    rw [Covers, leads] at covers
    have held := covers e mem wanted
    rw [waiting] at held
    exact mem_append_left _ held
  · rintro l' ⟨⟩
    exact ok.revs l leads

theorem Ok.hasAll_of_leader (ok : node.Ok every lock w n) (leads : node.role = .leader l)
    (idle : l.batch = none) : ∀ record ∈ lock, record.nodeID = n → HasAll every w node.store := by
  intro record isLock owns
  have none : node.unapplied = [] := by
    simp only [unapplied, leads, idle, Option.map_none, Option.getD_none]
  have covers := ok.owner record isLock owns
  rw [Covers, leads] at covers
  rw [none, append_nil] at covers
  exact covers

/-- The leader's WAL has the new batch before its store does. -/
theorem Ok.appended {l l' : Leading} {batch : List Entry} (ok : node.Ok every lock w n)
    (leads : node.role = .leader l) (within : node.Within w) (stored : HasAll every w node.store)
    (term : l'.term = l.term) (pending : l'.batch = some { entries := batch })
    (sorted : batch.Pairwise (fun a b => a.sequence < b.sequence))
    (above : Newer w batch)
    (revs : 0 ≤ l'.nextRev ∧ ∀ e ∈ w ++ batch, IsWrite e → e.revision ≤ l'.nextRev) :
    ({ node with log := node.log ++ batch, role := .leader l' } : Node).Ok every
      lock (w ++ batch) n := by
  have waiting : ({ node with log := node.log ++ batch, role := .leader l' } : Node).unapplied =
      batch := by
    simp only [unapplied, pending, Option.map_some, Option.getD_some]
  have covers : HasAll every (w ++ batch) (node.store ++ batch) := stored.append
  refine ⟨ok.sound.log_append within stored above _, ⟨?_, ?_, ?_, ?_⟩,
    (fun _ none => by cases none), ?_, ?_, (fun _ _ elected => by cases elected), ?_⟩
  · rw [waiting]
    exact sorted
  · rw [waiting]
    intro e mem
    obtain ⟨positive, newer⟩ := above e mem
    by_contra upTo
    obtain ⟨x, held, reaches⟩ := exists_of_le_lastSeq positive (not_lt.mp upTo)
    have := newer x (within.store held)
    omega
  · rw [waiting]
    exact subset_append_right _ _
  · rw [waiting]
    exact fun e mem wanted _ => covers e mem wanted
  · rintro other ⟨⟩
    refine ok.office l'.term ?_
    rw [Node.office, leads, term]
    rfl
  · intro other isLock owned
    rw [Covers, waiting]
    exact covers
  · rintro l'' ⟨⟩
    exact ⟨revs.1, fun _ _ _ _ => revs.2⟩

/-- A leader with all writes in its store has stepped down in the middle of an append. -/
theorem Ok.failed {part : List Entry} (ok : node.Ok every lock w n) (within : node.Within w)
    (stored : HasAll every w node.store) (above : Newer w part) :
    ({ node with log := node.log ++ part, role := .down } : Node).Ok every lock (w ++ part) n := by
  refine .stop (ok.sound.log_append within stored above .down) rfl ?_
  intro record isLock owns e mem wanted
  rcases mem_append.mp mem with old | new
  · exact mem_append_left _ (stored e old wanted)
  · exact mem_append_right _ (mem_append_right _ new)

end Node

end T4.Cluster
