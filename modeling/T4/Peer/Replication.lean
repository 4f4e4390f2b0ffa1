import Mathlib.Data.List.TakeWhile
import T4.Lib.System
import T4.Peer.Stream

/-!
# Replication within one leadership

One leader and any number of followers, in any interleaving of batches that are committed
or fail, connects, disconnects, failures of the follower and resyncs.

Sequences are never used twice by a leader. So the entries that a follower has staged in
the range of a commit message are committed entries, whatever was lost before (`Sound`),
and since the follower takes only consecutive batches that start behind its store, what it
applies is a window of the committed entries.
-/

namespace T4.Peer

open Wal Lib List

variable {F : Type*}

/-! ## The cluster -/

structure ReplState (F : Type*) where
  srv : Server
  /-- The sequence that was broadcast last. -/
  lastSent : Int
  /-- The entries that are broadcast and wait for the leader's fsync. -/
  batch : List Entry := []
  /-- The entries whose commit was broadcast. -/
  committed : List Entry := []
  /-- The entries of batches whose fsync failed. -/
  aborted : List Entry := []
  followers : F → Follower

inductive ReplAction (F : Type*)
  | broadcast (e : Entry)
  /-- The fsync of the batch succeeds or fails. -/
  | fsync (ok : Bool)
  | follower (f : F) (action : FollowerAction)
  deriving DecidableEq

/-- The last sequence of the first `count` committed entries. -/
def ReplState.position (s : ReplState F) (count : Nat) : Int :=
  ((s.committed.take count).getLast?.map Entry.sequence).getD (s.srv.startRev - 1)

def replStep [DecidableEq F] (cap : Nat) (s : ReplState F) : ReplAction F → Option (ReplState F)
  | .broadcast e =>
    if s.lastSent < e.id then some { s with
      srv := { s.srv with pending := s.srv.pending ++ [e] }
      lastSent := e.id
      batch := s.batch ++ [e]
      followers := fun f => (s.followers f).push (entryToMsg e) }
    else none
  | .fsync true =>
    match s.batch.head?, s.batch.getLast? with
    | some first, some last =>
      let moved := commitPending cap first.sequence last.sequence s.srv.buf s.srv.pending
      some { s with
        srv := { s.srv with buf := moved.1, pending := moved.2 }
        batch := []
        committed := s.committed ++ s.batch
        followers := fun f => (s.followers f).push (.commit first.sequence last.sequence) }
    | _, _ => none
  | .fsync false =>
    if s.batch = [] then none
    else some { s with batch := [], aborted := s.aborted ++ s.batch }
  | .follower f action =>
    ((s.followers f).step s.srv s.position action).map
      (fun n => { s with followers := Function.update s.followers f n })

/-- A follower whose store ends at a sequence, when it starts to follow. -/
def Follower.fresh (seq : Int) : Follower :=
  { lastSeq := seq, fromRev := seq + 1, phase := .following (seq + 1) none, base := seq }

def replSystem [DecidableEq F] (cap : Nat) : System (ReplState F) (ReplAction F) where
  init s := ∃ (startRev lastSent : Int) (seqs : F → Int), 0 ≤ lastSent ∧ startRev ≤ lastSent + 1 ∧
    s = { srv := { startRev }, lastSent, followers := fun f => .fresh (seqs f) }
  step := replStep cap

/-- What the follower has applied since its store was opened or replaced are the committed
entries from there up to its last sequence, in order and each once; and nothing of a batch
that the leader gave up is in its WAL or its store. -/
def Follower.Replicates (committed aborted : List Entry) (n : Follower) : Prop :=
  n.live = window Entry.sequence n.base n.lastSeq committed ∧
    ∀ e ∈ n.wal ++ n.live, e ∈ committed ∧ e ∉ aborted

/-! ## Messages in flight -/

/-- Whenever a commit message arrives, the staged entries in its range are committed. -/
def Sound (committed : List Entry) : (staged : List Entry) → List WalEntryMsg → Prop
  | _, [] => True
  | staged, .entry e :: rest => Sound committed (staged ++ [e]) rest
  | staged, .commit startRev rev :: rest =>
    (∀ e ∈ staged, commitStart startRev rev ≤ e.sequence → e.sequence ≤ rev → e ∈ committed) ∧
      Sound committed staged rest

namespace Sound

variable {committed committed' staged staged' : List Entry} {msgs front rest : List WalEntryMsg}
  {e : Entry} {startRev rev : Int}

theorem mono (sound : Sound committed staged msgs) (grows : committed ⊆ committed')
    (sub : staged' ⊆ staged) : Sound committed' staged' msgs := by
  induction msgs generalizing staged staged' with
  | nil => trivial
  | cons msg rest ih =>
    cases msg with
    | entry e =>
      refine ih sound (append_subset.mpr ⟨?_, subset_append_right _ _⟩)
      exact List.Subset.trans sub (subset_append_left _ _)
    | commit startRev rev =>
      exact ⟨fun e mem above below => grows (sound.1 e (sub mem) above below), ih sound.2 sub⟩

theorem snoc_entry (sound : Sound committed staged msgs) :
    Sound committed staged (msgs ++ [.entry e]) := by
  induction msgs generalizing staged with
  | nil => trivial
  | cons msg rest ih =>
    cases msg with
    | entry => exact ih sound
    | commit => exact ⟨sound.1, ih sound.2⟩

theorem snoc_commit (sound : Sound committed staged msgs)
    (covers : ∀ e, e ∈ staged ∨ .entry e ∈ msgs → commitStart startRev rev ≤ e.sequence →
      e.sequence ≤ rev → e ∈ committed) :
    Sound committed staged (msgs ++ [.commit startRev rev]) := by
  induction msgs generalizing staged with
  | nil => exact ⟨fun e mem => covers e (Or.inl mem), trivial⟩
  | cons msg rest ih =>
    cases msg with
    | entry e =>
      refine ih sound ?_
      intro other isIn
      refine covers other ?_
      simp only [mem_append, mem_cons, WalEntryMsg.entry.injEq] at isIn ⊢
      tauto
    | commit =>
      refine ⟨sound.1, ih sound.2 ?_⟩
      intro other isIn
      exact covers other (isIn.imp_right (mem_cons_of_mem _))

theorem erase_entry (sound : Sound committed staged (front ++ .entry e :: rest)) :
    Sound committed staged (front ++ rest) := by
  induction front generalizing staged with
  | nil => exact mono sound (List.Subset.refl _) (subset_append_left _ _)
  | cons msg front ih =>
    cases msg with
    | entry => exact ih sound
    | commit => exact ⟨sound.1, ih sound.2⟩

theorem of_append (sound : Sound committed staged (front ++ rest)) :
    Sound committed staged front := by
  induction front generalizing staged with
  | nil => trivial
  | cons msg front ih =>
    cases msg with
    | entry => exact ih sound
    | commit => exact ⟨sound.1, ih sound.2⟩

theorem of_committed (sub : staged ⊆ committed) {snapshot : List Entry}
    (known : snapshot ⊆ committed) (startRev rev : Int) :
    Sound committed staged (snapshot.map .entry ++ [.commit startRev rev]) := by
  induction snapshot generalizing staged with
  | nil => exact ⟨fun e mem _ _ => sub mem, trivial⟩
  | cons e rest ih =>
    have ⟨here, later⟩ := cons_subset.mp known
    exact ih (append_subset.mpr ⟨sub, cons_subset.mpr ⟨here, nil_subset _⟩⟩) later

end Sound

structure Conn.Inv (known : Entry → Prop) (committed : List Entry) (c : Conn) : Prop where
  staged : ∀ e ∈ c.staged, known e
  sent : ∀ e, .entry e ∈ c.wire ++ c.ch → known e
  sound : Sound committed c.staged (c.wire ++ c.ch)

namespace Conn.Inv

variable {known known' : Entry → Prop} {committed committed' : List Entry} {c c' : Conn}

theorem mono (inv : c.Inv known committed) (more : ∀ e, known e → known' e)
    (grows : committed ⊆ committed') : c.Inv known' committed' :=
  ⟨fun e mem => more e (inv.staged e mem), fun e mem => more e (inv.sent e mem),
    inv.sound.mono grows (List.Subset.refl _)⟩

theorem push_entry (inv : c.Inv known committed) {e : Entry} (isKnown : known e) :
    (c.push (.entry e)).Inv known committed := by
  unfold Conn.push
  split
  · split
    · refine ⟨inv.staged, ?_, ?_⟩
      · intro other mem
        rw [← append_assoc] at mem
        rcases mem_append.mp mem with old | new
        · exact inv.sent other old
        · cases mem_singleton.mp new
          exact isKnown
      · rw [← append_assoc]
        exact inv.sound.snoc_entry
    · exact ⟨inv.staged, inv.sent, inv.sound⟩
  · exact inv

theorem push_commit (inv : c.Inv known committed) {startRev rev : Int}
    (covers : ∀ e, known e → commitStart startRev rev ≤ e.sequence → e.sequence ≤ rev →
      e ∈ committed) : (c.push (.commit startRev rev)).Inv known committed := by
  unfold Conn.push
  split
  · split
    · refine ⟨inv.staged, ?_, ?_⟩
      · intro other mem
        rw [← append_assoc] at mem
        rcases mem_append.mp mem with old | new
        · exact inv.sent other old
        · cases mem_singleton.mp new
      · rw [← append_assoc]
        refine inv.sound.snoc_commit ?_
        rintro e (staged | sent)
        · exact covers e (inv.staged e staged)
        · exact covers e (inv.sent e sent)
    · exact ⟨inv.staged, inv.sent, inv.sound⟩
  · exact inv

theorem forward (inv : c.Inv known committed) (moved : c.forward = some c') :
    c'.Inv known committed := by
  unfold Conn.forward at moved
  split at moved
  case h_1 => cases moved
  case h_2 e rest isNext =>
    have sent := inv.sent
    have sound := inv.sound
    rw [isNext] at sent sound
    split at moved
    · cases moved
      refine ⟨inv.staged, ?_, sound.erase_entry⟩
      intro other mem
      refine sent other ?_
      simp only [mem_append, mem_cons] at mem ⊢
      tauto
    · cases moved
      rw [append_cons] at sent sound
      exact ⟨inv.staged, sent, sound⟩
  case h_3 startRev rev rest isNext =>
    have sent := inv.sent
    have sound := inv.sound
    rw [isNext] at sent sound
    cases moved
    rw [append_cons] at sent sound
    exact ⟨inv.staged, sent, sound⟩

theorem hangUp (inv : c.Inv known committed) :
    ({ c with registered := false, ch := [] } : Conn).Inv known committed := by
  refine ⟨inv.staged, ?_, ?_⟩
  · intro e mem
    rw [append_nil] at mem
    exact inv.sent e (mem_append_left _ mem)
  · rw [append_nil]
    exact inv.sound.of_append

theorem deliver_entry (inv : c.Inv known committed) {e : Entry} {rest : List WalEntryMsg}
    (isNext : c.wire = .entry e :: rest) :
    ({ c with wire := rest, staged := c.staged ++ [e] } : Conn).Inv known committed := by
  have sent := inv.sent
  have sound := inv.sound
  rw [isNext] at sent sound
  refine ⟨?_, ?_, sound⟩
  · refine forall_mem_append.mpr ⟨inv.staged, forall_mem_singleton.mpr ?_⟩
    exact sent e mem_cons_self
  · intro other mem
    exact sent other (mem_cons_of_mem _ mem)

theorem deliver_commit (inv : c.Inv known committed) {startRev rev : Int}
    {rest : List WalEntryMsg} (isNext : c.wire = .commit startRev rev :: rest) :
    ({ c with wire := rest } : Conn).Inv known committed ∧
      ∀ e ∈ c.staged, commitStart startRev rev ≤ e.sequence → e.sequence ≤ rev →
        e ∈ committed := by
  have sent := inv.sent
  have sound := inv.sound
  rw [isNext] at sent sound
  exact ⟨⟨inv.staged, fun other mem => sent other (mem_cons_of_mem _ mem), sound.2⟩, sound.1⟩

theorem restage (inv : c.Inv known committed) {staged : List Entry} (sub : staged ⊆ c.staged) :
    ({ c with staged } : Conn).Inv known committed :=
  ⟨fun e mem => inv.staged e (sub mem), inv.sent, inv.sound.mono (List.Subset.refl _) sub⟩

theorem of_follow {srv : Server} {fromRev : Int} (found : srv.follow fromRev = some c)
    (buffered : ∀ e ∈ srv.buf, known e ∧ e ∈ committed ∧ e.id = e.sequence) :
    c.Inv known committed := by
  simp only [Server.follow, Option.ite_none_left_eq_some] at found
  obtain ⟨-, found⟩ := found
  split at found
  case h_1 => cases found
  case h_2 snapshot isSnapshot =>
    cases found
    have inBuf := mem_since isSnapshot
    have msgs : snapshot.map entryToMsg = snapshot.map .entry :=
      map_congr_left (fun e mem => entryToMsg_eq (buffered e (inBuf e mem)).2.2)
    have sub : snapshot ⊆ committed := fun e mem => (buffered e (inBuf e mem)).2.1
    refine ⟨fun e mem => absurd mem not_mem_nil, ?_, ?_⟩
    · intro e mem
      simp only [append_nil, msgs, mem_append, mem_map, WalEntryMsg.entry.injEq,
        exists_eq_right] at mem
      rcases mem with isIn | isCommit
      · exact (buffered e (inBuf e isIn)).1
      · split at isCommit
        · cases mem_singleton.mp isCommit
        · cases isCommit
    · simp only [append_nil, msgs]
      split
      · exact Sound.of_committed (nil_subset _) sub _ _
      · rw [append_nil]
        exact Sound.of_append
          (Sound.of_committed (nil_subset _) sub 0 0)

end Conn.Inv

/-! ## A follower -/

theorem cutBatch_spec {staged batch rest : List Entry} {startRev rev : Int}
    (found : cutBatch staged startRev rev = some (batch, rest)) :
    (∀ e ∈ batch, e ∈ staged ∧ startRev ≤ e.sequence ∧ e.sequence ≤ rev) ∧
      (∃ last ∈ batch.getLast?, last.sequence = rev) ∧ rest ⊆ staged := by
  simp only [cutBatch, Option.ite_none_right_eq_some] at found
  obtain ⟨⟨-, isLast, numbered⟩, same⟩ := found
  cases same
  refine ⟨?_, ?_, ?_⟩
  · intro e mem
    have upTo := mem_takeWhile_imp mem
    exact ⟨(dropWhile_sublist _).subset ((takeWhile_sublist _).subset mem),
      numbered.first_le e mem, of_decide_eq_true upTo⟩
  · exact Option.map_eq_some_iff.mp isLast
  · exact List.Subset.trans (drop_subset _ _) (dropWhile_sublist _).subset

/-- The store and the WAL of a follower hold what the leader committed. -/
structure Follower.Held (committed : List Entry) (n : Follower) : Prop where
  written : ∀ e ∈ n.wal, e ∈ committed
  replicated : n.live = window Entry.sequence n.base n.lastSeq committed
  placed : n.base ≤ n.lastSeq ∧
    (n.lastSeq = n.base ∨ ∃ e ∈ committed, e.sequence = n.lastSeq)

/-- What is under way to a follower is sound. -/
def Follower.Streams (known : Entry → Prop) (committed : List Entry) (n : Follower) : Prop :=
  ∀ fromRev conn, n.phase = .following fromRev (some conn) → conn.Inv known committed

structure Follower.Placed (committed : List Entry) (n : Follower) : Prop where
  aligned : n.fromRev = n.lastSeq + 1
  held : n.Held committed

/-- A follower that has taken a batch up to a sequence. -/
def Follower.taken (n : Follower) (batch : List Entry) (rev : Int) (phase : Phase) :
    Outcome → Follower
  | .walFails written => { n with wal := n.wal ++ batch.take written, phase }
  | .ackFails => { n with wal := n.wal ++ batch, phase }
  | .applyFails => { n with wal := n.wal ++ batch, phase }
  | .ok => { n with
      wal := n.wal ++ batch
      live := n.live ++ batch
      lastSeq := max n.lastSeq rev
      fromRev := rev + 1
      phase }

namespace Follower

variable {known known' : Entry → Prop} {committed committed' new : List Entry} {n n' : Follower}

@[simp]
theorem taken_phase (batch : List Entry) (rev : Int) (phase : Phase) (outcome : Outcome) :
    (n.taken batch rev phase outcome).phase = phase := by
  cases outcome with
  | ok => rfl
  | walFails written => rfl
  | ackFails => rfl
  | applyFails => rfl

/-- A commit message moves the follow loop, or the follower takes the batch of its range. -/
theorem commit_cases (n : Follower) (clientFrom : Int) (conn : Conn) (startRev rev : Int)
    (outcome : Outcome) :
    (∃ phase, n.commit clientFrom conn startRev rev outcome = { n with phase } ∧
      ∀ fromRev conn', phase = .following fromRev (some conn') → conn' = conn) ∨
    ∃ batch rest phase, cutBatch conn.staged (commitStart startRev rev) rev = some (batch, rest) ∧
      Numbered Entry.sequence n.fromRev batch ∧
      n.commit clientFrom conn startRev rev outcome = n.taken batch rev phase outcome ∧
      ∀ fromRev conn', phase = .following fromRev (some conn') →
        conn' = { conn with staged := rest } := by
  unfold Follower.commit
  split
  case isTrue =>
    refine Or.inl ⟨_, rfl, ?_⟩
    intro _ _ isAt
    cases isAt
    rfl
  case isFalse =>
    split
    case h_1 => exact Or.inl ⟨.resyncing, rfl, fun _ _ isAt => nomatch isAt⟩
    case h_2 batch rest found =>
      split
      case isTrue => exact Or.inl ⟨.resyncing, rfl, fun _ _ isAt => nomatch isAt⟩
      case isFalse consecutive =>
        refine Or.inr ⟨batch, rest, ?_⟩
        rw [not_not] at consecutive
        cases outcome with
        | walFails written | ackFails
        | applyFails => exact ⟨_, found, consecutive, rfl, fun _ _ isAt => nomatch isAt⟩
        | ok =>
          refine ⟨_, found, consecutive, rfl, ?_⟩
          intro _ _ isAt
          cases isAt
          rfl

/-! ### Its stream -/

theorem Streams.of_none (none : ∀ fromRev conn, n.phase ≠ .following fromRev (some conn)) :
    n.Streams known committed :=
  fun fromRev conn isAt => absurd isAt (none fromRev conn)

theorem Streams.of_conn {conn : Conn} (sound : conn.Inv known committed)
    (only : ∀ fromRev conn', n.phase = .following fromRev (some conn') → conn' = conn) :
    n.Streams known committed := by
  intro fromRev conn' isAt
  rw [only fromRev conn' isAt]
  exact sound

theorem Streams.mono (streams : n.Streams known committed) (more : ∀ e, known e → known' e)
    (grows : committed ⊆ committed') : n.Streams known' committed' :=
  fun fromRev conn isAt => (streams fromRev conn isAt).mono more grows

theorem Streams.push {msg : WalEntryMsg} (streams : n.Streams known committed)
    (pushed : ∀ c : Conn, c.Inv known committed → (c.push msg).Inv known committed) :
    (n.push msg).Streams known committed := by
  unfold Follower.push
  split
  case h_1 fromRev conn isAt =>
    intro _ _ isAt'
    cases isAt'
    exact pushed conn (streams fromRev conn isAt)
  case h_2 => exact streams

theorem Streams.commit {conn : Conn} (sound : conn.Inv known committed)
    (clientFrom startRev rev : Int) (outcome : Outcome) :
    (n.commit clientFrom conn startRev rev outcome).Streams known committed := by
  rcases n.commit_cases clientFrom conn startRev rev outcome with
    ⟨phase, moved, only⟩ | ⟨batch, rest, phase, found, -, moved, only⟩
  · rw [moved]
    exact .of_conn sound only
  · obtain ⟨-, -, sub⟩ := cutBatch_spec found
    rw [moved]
    refine .of_conn (sound.restage sub) ?_
    rw [taken_phase]
    exact only

theorem Streams.step {srv : Server} {position : Nat → Int} {action : FollowerAction}
    (streams : n.Streams known committed)
    (buffered : ∀ e ∈ srv.buf, known e ∧ e ∈ committed ∧ e.id = e.sequence)
    (stepped : n.step srv position action = some n') : n'.Streams known committed := by
  cases Steps.of_step stepped with
  | refused | disconnected | moved | resynced => exact .of_none (fun _ _ isAt => nomatch isAt)
  | connected isAt found =>
    intro _ _ isAt'
    cases isAt'
    exact .of_follow found buffered
  | forwarded isAt moved =>
    intro _ _ isAt'
    cases isAt'
    exact (streams _ _ isAt).forward moved
  | hungUp isAt =>
    intro _ _ isAt'
    cases isAt'
    exact (streams _ _ isAt).hangUp
  | staged isAt isNext =>
    intro _ _ isAt'
    cases isAt'
    exact (streams _ _ isAt).deliver_entry isNext
  | delivered isAt isNext => exact .commit ((streams _ _ isAt).deliver_commit isNext).1 _ _ _ _

/-! ### Its place -/

theorem Held.grow (held : n.Held committed)
    (above : ∀ e ∈ committed, ∀ e' ∈ new, e.sequence < e'.sequence) :
    n.Held (committed ++ new) := by
  refine ⟨fun e mem => mem_append_left _ (held.written e mem), ?_, held.placed.1, ?_⟩
  · rw [held.replicated]
    rcases held.placed.2 with same | ⟨e, mem, isLast⟩
    · rw [same, window_self, window_self]
    · refine (window_append_above ?_).symm
      intro e' isNew
      rw [← isLast]
      exact above e mem e' isNew
  · rcases held.placed.2 with same | ⟨e, mem, isLast⟩
    · exact Or.inl same
    · exact Or.inr ⟨e, mem_append_left _ mem, isLast⟩

theorem Held.moveTo (held : n.Held committed) (seq? : Option Int) :
    (n.moveTo seq?).Held committed := by
  cases seq? with
  | none => exact held
  | some seq => exact ⟨held.written, window_self.symm, le_rfl, Or.inl rfl⟩

theorem Placed.move (placed : n.Placed committed) (phase : Phase) :
    ({ n with phase } : Follower).Placed committed :=
  ⟨placed.aligned, placed.held.written, placed.held.replicated, placed.held.placed⟩

theorem Placed.grow (placed : n.Placed committed)
    (above : ∀ e ∈ committed, ∀ e' ∈ new, e.sequence < e'.sequence) :
    n.Placed (committed ++ new) :=
  ⟨placed.aligned, placed.held.grow above⟩

theorem Placed.push (placed : n.Placed committed) (msg : WalEntryMsg) :
    (n.push msg).Placed committed := by
  unfold Follower.push
  split
  case h_1 => exact placed.move _
  case h_2 => exact placed

theorem Placed.taken (placed : n.Placed committed)
    (sorted : committed.Pairwise (fun a b => a.sequence < b.sequence)) {batch : List Entry}
    {last : Entry} {rev : Int} (sub : batch ⊆ committed)
    (consecutive : Numbered Entry.sequence n.fromRev batch) (isLast : last ∈ batch.getLast?)
    (ends : last.sequence = rev) (phase : Phase) (outcome : Outcome) :
    (n.taken batch rev phase outcome).Placed committed := by
  have wrote : ∀ batch', batch' ⊆ batch → ∀ e ∈ n.wal ++ batch', e ∈ committed := by
    intro batch' part e mem
    rcases mem_append.mp mem with old | new
    · exact placed.held.written e old
    · exact sub (part new)
  -- A batch that is written and not applied leaves the store and the loop's place alone.
  have unapplied : ∀ batch', batch' ⊆ batch →
      ({ n with wal := n.wal ++ batch', phase } : Follower).Placed committed :=
    fun batch' part => ⟨placed.aligned, wrote batch' part, placed.held.replicated,
      placed.held.placed⟩
  cases outcome with
  | walFails count => exact unapplied _ (take_subset _ _)
  | ackFails | applyFails => exact unapplied _ (List.Subset.refl _)
  | ok =>
    rw [placed.aligned] at consecutive
    have reaches := consecutive.getLast_next isLast
    rw [ends] at reaches
    have next : max n.lastSeq rev = n.lastSeq + batch.length := by omega
    refine ⟨?_, wrote _ (List.Subset.refl _), ?_, ?_, ?_⟩
    · change rev + 1 = max n.lastSeq rev + 1
      omega
    · change n.live ++ batch = window Entry.sequence n.base (max n.lastSeq rev) committed
      rw [next, consecutive.window_extend sorted placed.held.placed.1 sub, placed.held.replicated]
    · exact placed.held.placed.1.trans (le_max_left _ _)
    · refine Or.inr ⟨last, sub (mem_of_getLast? isLast), ?_⟩
      change last.sequence = max n.lastSeq rev
      omega

theorem cutBatch_committed {conn : Conn} {startRev rev : Int} {batch rest : List Entry}
    (covers : ∀ e ∈ conn.staged, commitStart startRev rev ≤ e.sequence → e.sequence ≤ rev →
      e ∈ committed)
    (found : cutBatch conn.staged (commitStart startRev rev) rev = some (batch, rest)) :
    batch ⊆ committed := by
  obtain ⟨inRange, -, -⟩ := cutBatch_spec found
  intro e mem
  obtain ⟨staged, above, upTo⟩ := inRange e mem
  exact covers e staged above upTo

theorem Placed.commit (placed : n.Placed committed)
    (sorted : committed.Pairwise (fun a b => a.sequence < b.sequence)) (conn : Conn)
    {startRev rev : Int}
    (covers : ∀ e ∈ conn.staged, commitStart startRev rev ≤ e.sequence → e.sequence ≤ rev →
      e ∈ committed) (clientFrom : Int) (outcome : Outcome) :
    (n.commit clientFrom conn startRev rev outcome).Placed committed := by
  rcases n.commit_cases clientFrom conn startRev rev outcome with
    ⟨phase, moved, -⟩ | ⟨batch, rest, phase, found, consecutive, moved, -⟩
  · rw [moved]
    exact placed.move phase
  · obtain ⟨-, ⟨last, isLast, ends⟩, -⟩ := cutBatch_spec found
    rw [moved]
    exact placed.taken sorted (cutBatch_committed covers found) consecutive isLast ends phase
      outcome

/-- The steps of the follow loop after which it asks for what follows its store: a resync
whose replay fails has not restored a checkpoint, and a failed promotion has not caught up
from the bucket. -/
def KeepsPlace : FollowerAction → Prop
  | .resync restored none => restored = none
  | .giveUp caughtUp => caughtUp = none
  | _ => True

instance (action : FollowerAction) : Decidable (KeepsPlace action) := by
  cases action with
  | resync restored replay => cases replay <;> unfold KeepsPlace <;> infer_instance
  | _ => unfold KeepsPlace; infer_instance

theorem Placed.step {srv : Server} {position : Nat → Int} {action : FollowerAction}
    (placed : n.Placed committed) (streams : n.Streams known committed)
    (sorted : committed.Pairwise (fun a b => a.sequence < b.sequence))
    (keeps : KeepsPlace action) (stepped : n.step srv position action = some n') :
    n'.Placed committed := by
  cases Steps.of_step stepped with
  | refused | connected | forwarded | hungUp | staged | disconnected => exact placed.move _
  | @delivered _ _ _ conn rest _ isAt isNext =>
    obtain ⟨-, covers⟩ := (streams _ conn isAt).deliver_commit isNext
    exact placed.commit sorted { conn with wire := rest } covers _ _
  | moved cause =>
    obtain ⟨count, rfl, rfl⟩ | ⟨count, rfl, rfl⟩ := cause
    · cases keeps
      exact placed.move _
    · cases keeps
      exact placed.move _
  | resynced restored replayed =>
    have held := (placed.held.moveTo (restored.map position)).moveTo (replayed.map position)
    exact ⟨rfl, held.written, held.replicated, held.placed⟩

end Follower

/-! ## The leader -/

theorem commitPending_spec (cap : Nat) (startRev rev : Int) (buf pending : List Entry) :
    (∀ e ∈ (commitPending cap startRev rev buf pending).1,
      e ∈ buf ∨ e ∈ pending ∧ startRev ≤ e.sequence ∧ e.sequence ≤ rev) ∧
    ∀ e ∈ (commitPending cap startRev rev buf pending).2, e ∈ pending ∧ rev < e.sequence := by
  induction pending generalizing buf with
  | nil => exact ⟨fun e mem => Or.inl mem, fun e mem => absurd mem not_mem_nil⟩
  | cons head rest later =>
    simp only [commitPending]
    have ih := later buf
    split
    · refine ⟨fun e mem => ?_, fun e mem => ?_⟩
      · exact (ih.1 e mem).imp_right (fun isIn => ⟨mem_cons_of_mem _ isIn.1, isIn.2⟩)
      · exact (ih.2 e mem).imp_left (mem_cons_of_mem _)
    · split
      case isTrue notOlder inRange =>
        have ih := later (pushBuffer cap buf head)
        refine ⟨fun e mem => ?_, fun e mem => ?_⟩
        · rcases ih.1 e mem with buffered | ⟨isIn, range⟩
          · rcases mem_pushBuffer buffered with old | rfl
            · exact Or.inl old
            · exact Or.inr ⟨mem_cons_self, not_lt.mp notOlder, inRange⟩
          · exact Or.inr ⟨mem_cons_of_mem _ isIn, range⟩
        · exact (ih.2 e mem).imp_left (mem_cons_of_mem _)
      case isFalse notOlder above =>
        refine ⟨fun e mem => ?_, fun e mem => ?_⟩
        · exact (ih.1 e mem).imp_right (fun isIn => ⟨mem_cons_of_mem _ isIn.1, isIn.2⟩)
        · rcases mem_cons.mp mem with rfl | later
          · exact ⟨mem_cons_self, not_le.mp above⟩
          · exact (ih.2 e later).imp_left (mem_cons_of_mem _)

namespace ReplState

/-- The entries that were broadcast. -/
def Known (s : ReplState F) (e : Entry) : Prop :=
  e ∈ s.committed ∨ e ∈ s.aborted ∨ e ∈ s.batch

structure Inv (s : ReplState F) : Prop where
  positive : 0 ≤ s.lastSent
  known : ∀ e, s.Known e → e.id = e.sequence ∧ 0 < e.sequence ∧ e.sequence ≤ s.lastSent
  sorted : (s.committed ++ s.batch).Pairwise (fun a b => a.sequence < b.sequence)
  older : ∀ a ∈ s.aborted, ∀ b ∈ s.batch, a.sequence < b.sequence
  apart : ∀ c ∈ s.committed, ∀ a ∈ s.aborted, c.sequence ≠ a.sequence
  pending : ∀ e ∈ s.srv.pending, e ∈ s.aborted ∨ e ∈ s.batch
  buffered : ∀ e ∈ s.srv.buf, e ∈ s.committed
  streams : ∀ f, (s.followers f).Streams s.Known s.committed

variable {s t : ReplState F}

theorem Inv.broadcast (inv : s.Inv) {e : Entry} (next : s.lastSent < e.id) :
    Inv { s with
      srv := { s.srv with pending := s.srv.pending ++ [e] }
      lastSent := e.id
      batch := s.batch ++ [e]
      followers := fun f => (s.followers f).push (entryToMsg e) } := by
  have positive := inv.positive
  have number : e.id = e.sequence := by
    rw [Entry.sequence, if_pos (by omega)]
  have above : ∀ old, s.Known old → old.sequence < e.sequence := by
    intro old isKnown
    have := (inv.known old isKnown).2.2
    omega
  have more : ∀ old, s.Known old →
      old ∈ s.committed ∨ old ∈ s.aborted ∨ old ∈ s.batch ++ [e] :=
    fun old => Or.imp_right (Or.imp_right (mem_append_left _))
  refine ⟨by dsimp only; omega, ?_, ?_, ?_, inv.apart, ?_, inv.buffered, ?_⟩
  · have new : e.id = e.sequence ∧ 0 < e.sequence ∧ e.sequence ≤ e.id := by omega
    have old : ∀ e', s.Known e' → e'.id = e'.sequence ∧ 0 < e'.sequence ∧ e'.sequence ≤ e.id := by
      intro e' isKnown
      obtain ⟨same, pos, upTo⟩ := inv.known e' isKnown
      exact ⟨same, pos, by omega⟩
    rintro e' (committed | aborted | batch)
    · exact old e' (Or.inl committed)
    · exact old e' (Or.inr (Or.inl aborted))
    · rcases mem_append.mp batch with before | last
      · exact old e' (Or.inr (Or.inr before))
      · cases mem_singleton.mp last
        exact new
  · rw [← append_assoc]
    refine pairwise_append.mpr ⟨inv.sorted, pairwise_singleton _ _, ?_⟩
    intro old mem last isLast
    cases mem_singleton.mp isLast
    rcases mem_append.mp mem with committed | batch
    · exact above old (Or.inl committed)
    · exact above old (Or.inr (Or.inr batch))
  · intro a aborted b batch
    rcases mem_append.mp batch with before | last
    · exact inv.older a aborted b before
    · cases mem_singleton.mp last
      exact above a (Or.inr (Or.inl aborted))
  · intro e' mem
    rcases mem_append.mp mem with before | last
    · exact (inv.pending e' before).imp_right (mem_append_left _)
    · exact Or.inr (mem_append_right _ last)
  · intro f
    refine ((inv.streams f).mono more (List.Subset.refl _)).push ?_
    intro c sound
    rw [entryToMsg_eq number]
    exact sound.push_entry (Or.inr (Or.inr (mem_append_right _ (mem_singleton_self e))))

theorem Inv.batch_range (inv : s.Inv) {first last : Entry} (isFirst : s.batch.head? = some first)
    (isLast : s.batch.getLast? = some last) :
    (∀ a ∈ s.aborted, a.sequence < first.sequence) ∧
      ∀ e ∈ s.batch, e.sequence ≤ last.sequence := by
  refine ⟨fun a aborted => inv.older a aborted first (mem_of_head? isFirst), ?_⟩
  obtain ⟨front, whole⟩ := getLast?_eq_some_iff.mp isLast
  have sorted := (pairwise_append.mp inv.sorted).2.1
  rw [whole] at sorted ⊢
  intro e mem
  rcases mem_append.mp mem with before | isLast
  · exact ((pairwise_append.mp sorted).2.2 e before last (mem_singleton_self _)).le
  · cases mem_singleton.mp isLast
    exact le_rfl

theorem Inv.commit (inv : s.Inv) {cap : Nat} {first last : Entry}
    (isFirst : s.batch.head? = some first) (isLast : s.batch.getLast? = some last) :
    Inv { s with
      srv := { s.srv with
        buf := (commitPending cap first.sequence last.sequence s.srv.buf s.srv.pending).1
        pending := (commitPending cap first.sequence last.sequence s.srv.buf s.srv.pending).2 }
      batch := []
      committed := s.committed ++ s.batch
      followers := fun f => (s.followers f).push (.commit first.sequence last.sequence) } := by
  obtain ⟨below, upTo⟩ := inv.batch_range isFirst isLast
  obtain ⟨buffered, kept⟩ :=
    commitPending_spec cap first.sequence last.sequence s.srv.buf s.srv.pending
  have ofAborted : ∀ a ∈ s.aborted, ¬ first.sequence ≤ a.sequence :=
    fun a aborted => not_le.mpr (below a aborted)
  have sorted := pairwise_append.mp inv.sorted
  refine ⟨inv.positive, ?_, ?_, ?_, ?_, ?_, ?_, ?_⟩
  · rintro e (committed | aborted | batch)
    · refine inv.known e ?_
      rcases mem_append.mp committed with before | new
      · exact Or.inl before
      · exact Or.inr (Or.inr new)
    · exact inv.known e (Or.inr (Or.inl aborted))
    · cases batch
  · rw [append_nil]
    exact inv.sorted
  · intro a aborted b batch
    cases batch
  · intro c committed a aborted
    rcases mem_append.mp committed with before | new
    · exact inv.apart c before a aborted
    · exact (inv.older a aborted c new).ne'
  · intro e mem
    obtain ⟨isPending, above⟩ := kept e mem
    rcases inv.pending e isPending with aborted | batch
    · exact Or.inl aborted
    · exact absurd (upTo e batch) (not_le.mpr above)
  · intro e mem
    rcases buffered e mem with old | ⟨isPending, notOlder, -⟩
    · exact mem_append_left _ (inv.buffered e old)
    · rcases inv.pending e isPending with aborted | batch
      · exact absurd notOlder (ofAborted e aborted)
      · exact mem_append_right _ batch
  · intro f
    have more : ∀ e, s.Known e → e ∈ s.committed ++ s.batch ∨ e ∈ s.aborted ∨ e ∈ [] := by
      rintro e (committed | aborted | batch)
      · exact Or.inl (mem_append_left _ committed)
      · exact Or.inr (Or.inl aborted)
      · exact Or.inl (mem_append_right _ batch)
    refine ((inv.streams f).mono more (subset_append_left _ _)).push ?_
    intro c sound
    refine sound.push_commit ?_
    have positive := (inv.known first (Or.inr (Or.inr (mem_of_head? isFirst)))).2.1
    rw [commitStart, if_neg positive.ne']
    rintro e (committed | aborted | batch) above -
    · exact committed
    · exact absurd above (ofAborted e aborted)
    · cases batch

theorem Inv.abort (inv : s.Inv) :
    Inv { s with batch := [], aborted := s.aborted ++ s.batch } := by
  have same : ∀ e, e ∈ s.committed ∨ e ∈ s.aborted ++ s.batch ∨ e ∈ [] → s.Known e := by
    rintro e (committed | aborted | batch)
    · exact Or.inl committed
    · exact Or.inr (mem_append.mp aborted)
    · cases batch
  have more : ∀ e, s.Known e → e ∈ s.committed ∨ e ∈ s.aborted ++ s.batch ∨ e ∈ [] := by
    rintro e (committed | aborted)
    · exact Or.inl committed
    · exact Or.inr (Or.inl (mem_append.mpr aborted))
  have sorted := pairwise_append.mp inv.sorted
  refine ⟨inv.positive, fun e isKnown => inv.known e (same e isKnown), ?_, ?_, ?_, ?_,
    inv.buffered, fun f => (inv.streams f).mono more (List.Subset.refl _)⟩
  · rw [append_nil]
    exact sorted.1
  · intro a aborted b batch
    cases batch
  · intro c committed a aborted
    rcases mem_append.mp aborted with before | new
    · exact inv.apart c committed a before
    · exact (sorted.2.2 c committed a new).ne
  · exact fun e mem => Or.inl (mem_append.mpr (inv.pending e mem))

end ReplState

/-! ## Every run -/

/-- The leader's steps and the follower steps that keep the place of the follow loop. -/
def PlaceKept (_ : ReplState F) : ReplAction F → Prop
  | .follower _ action => Follower.KeepsPlace action
  | _ => True

instance (s : ReplState F) (action : ReplAction F) : Decidable (PlaceKept s action) := by
  cases action <;> unfold PlaceKept <;> infer_instance

section Runs

variable [DecidableEq F] {cap : Nat} {s t : ReplState F}

theorem ReplState.Inv.step {action : ReplAction F} (inv : s.Inv)
    (stepped : replStep cap s action = some t) : t.Inv := by
  revert stepped
  fun_cases replStep cap s action <;> intro stepped <;> try cases stepped
  case case1 next => exact inv.broadcast next
  case case3 isLast isFirst _ => exact inv.commit isFirst isLast
  case case6 => exact inv.abort
  case case7 f action =>
    obtain ⟨n, moved, rfl⟩ := Option.map_eq_some_iff.mp stepped
    have buffered : ∀ e ∈ s.srv.buf, s.Known e ∧ e ∈ s.committed ∧ e.id = e.sequence := by
      intro e mem
      have committed := inv.buffered e mem
      exact ⟨Or.inl committed, committed, (inv.known e (Or.inl committed)).1⟩
    refine ⟨inv.positive, inv.known, inv.sorted, inv.older, inv.apart, inv.pending,
      inv.buffered, ?_⟩
    exact (Function.forall_update_iff _ (fun _ => Follower.Streams _ _)).mpr
      ⟨(inv.streams f).step buffered moved, fun g _ => inv.streams g⟩

theorem ReplState.Inv.init (start : (replSystem cap).init s) : s.Inv := by
  obtain ⟨startRev, lastSent, seqs, positive, -, rfl⟩ := start
  refine ⟨positive, ?_, .nil, ?_, ?_, ?_, ?_, ?_⟩
  · rintro e (committed | aborted | batch)
    · cases committed
    · cases aborted
    · cases batch
  · intro a aborted
    cases aborted
  · intro c committed
    cases committed
  · intro e mem
    cases mem
  · intro e mem
    cases mem
  · exact fun f => .of_none (fun _ _ isAt => nomatch isAt)

theorem ReplState.Inv.placed_step {action : ReplAction F} (inv : s.Inv)
    (placed : ∀ f, (s.followers f).Placed s.committed) (kept : PlaceKept s action)
    (stepped : replStep cap s action = some t) : ∀ f, (t.followers f).Placed t.committed := by
  have sorted := pairwise_append.mp inv.sorted
  revert stepped
  fun_cases replStep cap s action <;> intro stepped <;> try cases stepped
  case case1 => exact fun f => (placed f).push _
  case case3 => exact fun f => ((placed f).grow sorted.2.2).push _
  case case6 => exact placed
  case case7 f action =>
    obtain ⟨n, moved, rfl⟩ := Option.map_eq_some_iff.mp stepped
    exact (Function.forall_update_iff _ (fun _ => Follower.Placed _)).mpr
      ⟨(placed f).step (inv.streams f) sorted.1 kept moved, fun g _ => placed g⟩

theorem ReplState.placed_init (start : (replSystem cap).init s) (f : F) :
    (s.followers f).Placed s.committed := by
  obtain ⟨startRev, lastSent, seqs, -, -, rfl⟩ := start
  exact ⟨rfl, (fun e mem => nomatch mem), window_self.symm, le_rfl, Or.inl rfl⟩

end Runs

/-- In every run in which the follow loops keep their place, every follower replicates the
leader. -/
theorem followers_replicate [DecidableEq F] {cap : Nat} {s t : ReplState F}
    {actions : List (ReplAction F)} (start : (replSystem cap).init s)
    (kept : (replSystem cap).Meets PlaceKept s actions)
    (run : (replSystem cap).run s actions = some t) (f : F) :
    (t.followers f).Replicates t.committed t.aborted := by
  obtain ⟨inv, placed⟩ := (replSystem cap).run_invariant
    (I := fun s => s.Inv ∧ ∀ f, (s.followers f).Placed s.committed)
    (fun inv here stepped => ⟨inv.1.step stepped, inv.1.placed_step inv.2 here stepped⟩)
    ⟨ReplState.Inv.init start, ReplState.placed_init start⟩ kept run
  have held := (placed f).held
  refine ⟨held.replicated, ?_⟩
  intro e mem
  have committed : e ∈ t.committed := by
    rcases mem_append.mp mem with written | applied
    · exact held.written e written
    · rw [held.replicated] at applied
      exact (mem_window.mp applied).1
  exact ⟨committed, fun aborted => inv.apart e committed e aborted rfl⟩

def twoFollowers : ReplState Bool :=
  { srv := { startRev := 1 }, lastSent := 0, followers := fun _ => .fresh 0 }

def put (seq : Int) : Entry := { id := seq, revision := seq, term := 1, op := Op.create }

/-- The leader sends a batch to a follower, which handles it. -/
def relay (f : Bool) (count : Nat) (outcome : Outcome) : List (ReplAction Bool) :=
  List.replicate count (.follower f .forward) ++
    List.replicate count (.follower f (.deliver outcome))

/-- One follower joins in the middle of the first batch, and the second batch fails. -/
def rejoiningRun : List (ReplAction Bool) :=
  [.follower true .connect, .broadcast (put 1), .follower false .connect, .broadcast (put 2),
    .fsync true] ++ relay true 3 .ok ++ relay false 2 .ok ++
  [.follower false (.resync none (some (some 2))), .follower false .connect, .broadcast (put 3),
    .fsync false, .broadcast (put 4), .fsync true] ++ relay true 3 .ok ++
  [.follower true (.resync none (some (some 3))), .follower true .connect, .broadcast (put 5),
    .fsync true] ++ relay true 2 .ok

theorem followers_replicate_rejoiningRun : ∃ t,
    (replSystem 4).run twoFollowers rejoiningRun = some t ∧
      ((t.followers true).live = [put 5] ∧ (t.followers true).base = 4) ∧
      ∀ f, (t.followers f).Replicates t.committed t.aborted := by
  refine System.exists_run_and (by decide +kernel) ?_
  intro t run _
  exact followers_replicate ⟨1, 0, fun _ => 0, le_rfl, by decide, rfl⟩ (by decide +kernel) run

/-- A follower's stream breaks when it acknowledges the first entry; when the second arrives
it restores the leader's checkpoint of both, but the replay behind it fails, and the follow
loop asks for the first entry again. -/
def repeatingRun : List (ReplAction Bool) :=
  [.follower true .connect, .broadcast (put 1), .fsync true] ++ relay true 2 .ackFails ++
  [.follower true .connect, .broadcast (put 2), .fsync true] ++ relay true 2 .ok ++
  [.follower true (.resync (some 2) none), .follower true .connect] ++
  List.replicate 3 (.follower true (.deliver .ok))

theorem follower_repeats : ∃ t, (replSystem 4).run twoFollowers repeatingRun = some t ∧
    (t.followers true).base = 2 ∧ (t.followers true).live = [put 1, put 2] ∧
      ¬ (t.followers true).Replicates t.committed t.aborted := by
  obtain ⟨t, run, base, live, due⟩ := System.exists_of_run (replSystem 4) twoFollowers repeatingRun
    (fun t => (t.followers true).base = 2 ∧ (t.followers true).live = [put 1, put 2] ∧
      window Entry.sequence (t.followers true).base (t.followers true).lastSeq t.committed = [])
    (by decide +kernel)
  refine ⟨t, run, base, live, ?_⟩
  rintro ⟨replicated, -⟩
  rw [live, due] at replicated
  cases replicated

end T4.Peer
