import T4.Lib.Epochs
import T4.Lib.System

/-!
# Names of WAL segments

A segment is named after a term and the sequence of its first entry. The name is chosen
when the segment is opened, before its first entry is known: from the previous segment's
name and entry count by rotations, from the store's last sequence by `SealAndFlush`, from
the store and the WAL directory by `Open` and `becomeLeader`, from the store's revision by
a resync. The term is the one that the WAL was opened with.

The model follows one node through its whole life and keeps of an entry its term and its
sequence only.
-/

namespace T4.Wal

open Lib List

/-! ## The node -/

structure Item where
  term : Nat
  seq : Int
  deriving DecidableEq

/-- A segment: the term and first sequence of its name, and its entries. -/
abbrev Seg := Piece Item

/-- The first sequence behind a segment, if its entries are numbered as its name says. -/
def Seg.next (seg : Seg) : Int := seg.first + seg.items.length

@[simp]
theorem Seg.next_empty (epoch : Nat) (first : Int) : Seg.next ⟨epoch, first, []⟩ = first := by
  simp [Seg.next]

def Seg.add (seg : Seg) (batch : List Item) : Seg := { seg with items := seg.items ++ batch }

def maxSeqOf (segs : List Seg) : Int :=
  (segs.flatMap Piece.items).foldl (fun seq e => max seq e.seq) 0

structure NamingState where
  /-- The node accepts writes: it is the leader or a single node. -/
  leads : Bool
  /-- The node's term. -/
  term : Nat
  /-- `LastSequence` of the store. -/
  lastSeq : Int := 0
  nextSeq : Int := 0
  /-- The sequence that a follower asks for. -/
  fromRev : Int := 1
  /-- Numbered writes on their way to the commit loop. -/
  queued : List Item := []
  /-- The batch that is appended and not applied. -/
  inFlight : List Item := []
  /-- Segment files that are closed. -/
  files : List Seg := []
  active : Seg
  /-- Uploaded segments. -/
  objects : List Seg := []

inductive NamingAction
  | assign
  /-- A write takes a sequence and does not reach the commit loop. -/
  | reject
  /-- `AppendBatch` of the first writes; when it fails, some entries may stay behind. -/
  | append (count : Nat) (failure : Option Nat)
  | apply (succeeds : Bool)
  /-- A rotation by size or age. -/
  | rotate
  /-- A rotation with synchronous upload. -/
  | rotateSync
  | sealAndFlush
  | upload (i : Nat)
  /-- The file of an uploaded segment is removed. -/
  | remove (i : Nat)
  /-- A follower appends entries from the stream and applies them. -/
  | receive (items : List Item) (applies : Bool)
  /-- A resync: the term, `LastSequence` and revision of the checkpoint, if one is restored,
  and how far the replay gets. -/
  | resync (restored : Option (Nat × Int × Int)) (replayed : Option Int)
  /-- `becomeLeader` for the term: `LastSequence` of the checkpoint, if one is restored, and
  how far the replay gets. -/
  | promote (term : Nat) (restored : Option Int) (replayed : Int)
  /-- A crash or a close, after which `kept` entries of the active segment are readable, and
  `Open` with this term, the store's `LastSequence` and how far the replay of the bucket
  gets. -/
  | reopen (kept term : Nat) (storeSeq replayed : Int) (leads : Bool)
  deriving DecidableEq

namespace NamingState

/-- Create or truncate the segment file of this name. -/
def openSegment (s : NamingState) (files : List Seg) (term : Nat) (first : Int) : NamingState :=
  { s with
    files := files.filter (fun file => file.key ≠ toLex (term, first))
    active := ⟨term, first, []⟩ }

def putObject (s : NamingState) (seg : Seg) : NamingState :=
  { s with objects := s.objects.filter (fun object => object.key ≠ seg.key) ++ [seg] }

def segments (s : NamingState) : List Seg := s.files ++ s.objects ++ [s.active]

/-- The closed segments that are there when the node opens again. -/
def leftover (s : NamingState) (kept : Nat) : List Seg :=
  s.files ++ [{ s.active with items := s.active.items.take kept }]

end NamingState

def namingStep (s : NamingState) : NamingAction → Option NamingState
  | .assign =>
    if s.leads then some { s with
      nextSeq := s.nextSeq + 1
      queued := s.queued ++ [⟨s.term, s.nextSeq + 1⟩] }
    else none
  | .reject => if s.leads then some { s with nextSeq := s.nextSeq + 1 } else none
  | .append count failure =>
    if s.leads ∧ s.inFlight = [] ∧ 0 < count ∧ count ≤ s.queued.length then
      let batch := s.queued.take count
      let queued := s.queued.drop count
      match failure with
      | none => some { s with active := s.active.add batch, inFlight := batch, queued }
      | some kept => some { s with active := s.active.add (batch.take kept), queued }
    else none
  | .apply succeeds =>
    match s.inFlight.getLast? with
    | none => none
    | some last => some { s with
        lastSeq := if succeeds then last.seq else s.lastSeq
        inFlight := [] }
  | .rotate =>
    if s.active.items = [] then none
    else some (s.openSegment (s.files ++ [s.active]) s.active.epoch s.active.next)
  | .rotateSync =>
    if s.active.items = [] then none
    else some ((s.putObject s.active).openSegment s.files s.active.epoch s.active.next)
  | .sealAndFlush =>
    if s.leads then
      if s.active.items = [] then some s
      else some (s.openSegment (s.files ++ [s.active]) s.active.epoch (s.lastSeq + 1))
    else none
  | .upload i => s.files[i]?.map s.putObject
  | .remove i => some { s with files := s.files.eraseIdx i }
  | .receive items applies =>
    match items.getLast? with
    | none => none
    | some last =>
      if s.leads = false then
        let appended := { s with active := s.active.add items }
        if applies then some { appended with
          lastSeq := last.seq, fromRev := last.seq + 1, term := max s.term last.term }
        else some appended
      else none
  | .resync restored replayed =>
    if s.leads then none
    else
      let base := match restored with
        | none => s
        -- The WAL directory is removed.
        | some (term, seq, rev) =>
          { s with files := [], active := ⟨term, rev + 1, []⟩, term, lastSeq := seq }
      match replayed with
      | none => some base
      | some seq => some { base with
          lastSeq := max base.lastSeq seq, fromRev := max base.lastSeq seq + 1 }
  | .promote term restored replayed =>
    -- The election gives a term that no segment has.
    if s.leads = false ∧ (∀ seg ∈ s.segments, seg.epoch < term) then
      let lastSeq := max (restored.getD s.lastSeq) replayed
      let files := s.files ++ [s.active]
      let nextSeq := max lastSeq (maxSeqOf files)
      some { s.openSegment files term (nextSeq + 1) with
        leads := true, term, lastSeq, nextSeq, queued := [], inFlight := [] }
    else none
  | .reopen kept term storeSeq replayed leads =>
    let files := s.leftover kept
    let nextSeq := max storeSeq (maxSeqOf files)
    let lastSeq := max nextSeq replayed
    some { s.openSegment files term (nextSeq + 1) with
      leads, term, lastSeq, nextSeq := lastSeq, fromRev := lastSeq + 1, queued := [],
      inFlight := [] }

/-- A node from its first `Open` on. -/
def namingSystem : System NamingState NamingAction where
  init s := ∃ leads term, s = { leads, term, active := ⟨term, 1, []⟩ }
  step := namingStep

/-- Every segment that has entries is named after the term of its entries and the sequence
of the first one, and they end before the next segment of the term. -/
def NamedExactly (s : NamingState) : Prop :=
  ∀ seg ∈ s.segments,
    (∀ e ∈ seg.items.head?, e.seq = seg.first) ∧ (∀ e ∈ seg.items, e.term = seg.epoch) ∧
      ∀ later ∈ s.segments, later.epoch = seg.epoch → seg.first < later.first →
        ∀ e ∈ seg.items, e.seq < later.first

/-! ## Closed segments and the active one -/

/-- The closed segments are named exactly and end before the active one, which is numbered
as its name says. -/
structure Lined (closed : List Seg) (active : Seg) : Prop where
  numbered : ∀ seg ∈ active :: closed, Numbered Item.seq seg.first seg.items
  terms : ∀ seg ∈ active :: closed, ∀ e ∈ seg.items, e.term = seg.epoch
  before : ∀ seg ∈ closed, seg.first ≤ active.first ∧ ∀ e ∈ seg.items, e.seq < active.first
  apart : ∀ seg ∈ closed, ∀ later ∈ closed, later.epoch = seg.epoch → seg.first < later.first →
    ∀ e ∈ seg.items, e.seq < later.first

namespace Lined

variable {closed closed' : List Seg} {active : Seg}

theorem namedExactly {s : NamingState} (lined : Lined (s.files ++ s.objects) s.active) :
    NamedExactly s := by
  have either : ∀ seg ∈ s.segments, seg = s.active ∨ seg ∈ s.files ++ s.objects := by
    intro seg mem
    rcases mem_append.mp mem with closed | active
    · exact Or.inr closed
    · exact Or.inl (mem_singleton.mp active)
  intro seg mem
  have listed : seg ∈ s.active :: (s.files ++ s.objects) := mem_cons.mpr (either seg mem)
  refine ⟨?_, lined.terms seg listed, ?_⟩
  · have numbered := lined.numbered seg listed
    intro e isHead
    cases items : seg.items with
    | nil =>
      rw [items] at isHead
      cases isHead
    | cons head rest =>
      rw [items] at isHead numbered
      cases isHead
      exact numbered.1
  · intro later isLater sameTerm above e isIn
    rcases either seg mem with rfl | isClosed
    · rcases either later isLater with rfl | laterClosed
      · exact absurd above (lt_irrefl _)
      · exact absurd above (not_lt.mpr (lined.before later laterClosed).1)
    · rcases either later isLater with rfl | laterClosed
      · exact (lined.before seg isClosed).2 e isIn
      · exact lined.apart seg isClosed later laterClosed sameTerm above e isIn

theorem mono (lined : Lined closed active) (sub : closed' ⊆ closed) : Lined closed' active := by
  have listed : ∀ seg ∈ active :: closed', seg ∈ active :: closed := by
    intro seg mem
    rcases mem_cons.mp mem with rfl | old
    · exact mem_cons_self
    · exact mem_cons_of_mem _ (sub old)
  exact ⟨fun seg mem => lined.numbered seg (listed seg mem),
    fun seg mem => lined.terms seg (listed seg mem), fun seg mem => lined.before seg (sub mem),
    fun seg mem later isLater => lined.apart seg (sub mem) later (sub isLater)⟩

theorem add (lined : Lined closed active) {batch : List Item}
    (continues : Numbered Item.seq active.next batch)
    (terms : ∀ e ∈ batch, e.term = active.epoch) : Lined closed (active.add batch) := by
  refine ⟨?_, ?_, lined.before, lined.apart⟩
  · intro seg mem
    rcases mem_cons.mp mem with rfl | old
    · exact numbered_append.mpr ⟨lined.numbered active mem_cons_self, continues⟩
    · exact lined.numbered seg (mem_cons_of_mem _ old)
  · intro seg mem
    rcases mem_cons.mp mem with rfl | old
    · exact forall_mem_append.mpr ⟨lined.terms active mem_cons_self, terms⟩
    · exact lined.terms seg (mem_cons_of_mem _ old)

theorem truncate (lined : Lined closed active) (kept : Nat) :
    Lined closed { active with items := active.items.take kept } := by
  refine ⟨?_, ?_, lined.before, lined.apart⟩
  · intro seg mem
    rcases mem_cons.mp mem with rfl | old
    · have numbered := lined.numbered active mem_cons_self
      rw [← take_append_drop kept active.items] at numbered
      exact (numbered_append.mp numbered).1
    · exact lined.numbered seg (mem_cons_of_mem _ old)
  · intro seg mem
    rcases mem_cons.mp mem with rfl | old
    · exact fun e isIn => lined.terms active mem_cons_self e (mem_of_mem_take isIn)
    · exact lined.terms seg (mem_cons_of_mem _ old)

theorem openNext (lined : Lined closed active) (sub : closed' ⊆ active :: closed) {term : Nat}
    {first : Int} (behind : active.next ≤ first) : Lined closed' ⟨term, first, []⟩ := by
  have start : active.first ≤ active.next := by
    unfold Seg.next
    omega
  have ends : ∀ e ∈ active.items, e.seq < active.next :=
    (lined.numbered active mem_cons_self).lt_end
  refine ⟨?_, ?_, ?_, ?_⟩
  · intro seg mem
    rcases mem_cons.mp mem with rfl | old
    · trivial
    · exact lined.numbered seg (sub old)
  · intro seg mem
    rcases mem_cons.mp mem with rfl | old
    · intro e isIn
      cases isIn
    · exact lined.terms seg (sub old)
  · intro seg mem
    rcases mem_cons.mp (sub mem) with rfl | old
    · exact ⟨start.trans behind, fun e isIn => (ends e isIn).trans_le behind⟩
    · obtain ⟨name, items⟩ := lined.before seg old
      exact ⟨name.trans (start.trans behind),
        fun e isIn => (items e isIn).trans_le (start.trans behind)⟩
  · intro seg mem later isLater sameTerm above
    rcases mem_cons.mp (sub mem) with rfl | old
    · rcases mem_cons.mp (sub isLater) with rfl | laterOld
      · exact absurd above (lt_irrefl _)
      · exact absurd above (not_lt.mpr (lined.before later laterOld).1)
    · rcases mem_cons.mp (sub isLater) with rfl | laterOld
      · exact (lined.before seg old).2
      · exact lined.apart seg old later laterOld sameTerm above

end Lined

/-! ## Careful runs -/

/-- The steps under which names stay exact: no numbered write is dropped, no append or apply
fails, a segment is sealed for a checkpoint only when its entries are applied, a follower
gets the entries from the sequence that it asks for on, in the term its WAL was opened
with, a resync restores a checkpoint that is not behind and whose revision is its sequence,
`Open` finds all sequences below an empty segment in the store or the WAL directory, and
nothing is replayed from the bucket behind a name that was already chosen. -/
def NamesKept (s : NamingState) : NamingAction → Prop
  | .reject => False
  | .append _ failure => failure = none
  | .apply succeeds => succeeds = true
  | .sealAndFlush => s.active.items = [] ∨ s.inFlight = []
  | .receive items applies =>
      applies = true ∧ Numbered Item.seq s.fromRev items ∧ ∀ e ∈ items, e.term = s.active.epoch
  | .resync none replayed => ∀ seq ∈ replayed, seq ≤ s.lastSeq
  | .resync (some (_, seq, rev)) replayed =>
      rev = seq ∧ s.lastSeq ≤ seq ∧ replayed ≠ none ∧ ∀ last ∈ replayed, last ≤ seq
  | .promote _ restored _ => ∀ seq ∈ restored, s.lastSeq ≤ seq
  | .reopen kept _ storeSeq replayed _ =>
      (s.active.items.take kept = [] →
          s.active.first ≤ max storeSeq (maxSeqOf (s.leftover kept)) + 1) ∧
        replayed ≤ max storeSeq (maxSeqOf (s.leftover kept))
  | _ => True

instance (s : NamingState) (action : NamingAction) : Decidable (NamesKept s action) := by
  cases action with
  | resync restored replayed =>
    cases restored <;> unfold NamesKept <;> infer_instance
  | _ => unfold NamesKept; infer_instance

structure NamingState.Inv (s : NamingState) : Prop where
  lined : Lined (s.files ++ s.objects) s.active
  queue : s.leads = true → s.term = s.active.epoch ∧
    Numbered Item.seq s.active.next s.queued ∧ (∀ e ∈ s.queued, e.term = s.active.epoch) ∧
    s.active.next + s.queued.length = s.nextSeq + 1
  applied : s.leads = true → s.active.items ≠ [] → s.inFlight = [] →
    s.lastSeq + 1 = s.active.next
  pending : s.leads = true → ∀ last ∈ s.inFlight.getLast?, last.seq + 1 = s.active.next
  follows : s.leads = false → s.lastSeq + 1 = s.active.next ∧ s.fromRev = s.active.next ∧
    s.inFlight = []

namespace NamingState

variable {s t : NamingState}

theorem mem_openSegment {files : List Seg} {term : Nat} {first : Int} {seg : Seg}
    (mem : seg ∈ (s.openSegment files term first).files ++ s.objects) :
    seg ∈ files ++ s.objects := by
  rcases mem_append.mp mem with file | object
  · exact mem_append_left _ (mem_filter.mp file).1
  · exact mem_append_right _ object

theorem Inv.openNext (inv : s.Inv) {files objects : List Seg}
    (sub : files ++ objects ⊆ s.active :: (s.files ++ s.objects)) :
    NamingState.Inv
      { s with files, objects, active := ⟨s.active.epoch, s.active.next, []⟩ } := by
  have same := Seg.next_empty s.active.epoch s.active.next
  refine ⟨inv.lined.openNext sub le_rfl, ?_, ?_, ?_, ?_⟩
  · rw [same]
    exact inv.queue
  · intro _ nonempty
    exact absurd rfl nonempty
  · rw [same]
    exact inv.pending
  · rw [same]
    exact inv.follows

theorem Inv.sealNext (inv : s.Inv) {first : Int} (next : first = s.active.next) :
    (s.openSegment (s.files ++ [s.active]) s.active.epoch first).Inv := by
  subst next
  refine inv.openNext ?_
  intro seg mem
  have old := mem_openSegment mem
  simp only [mem_append, mem_cons] at old ⊢
  tauto

theorem Inv.putObject (inv : s.Inv) {seg : Seg} (mem : seg ∈ s.files) : (s.putObject seg).Inv := by
  refine ⟨inv.lined.mono ?_, inv.queue, inv.applied, inv.pending, inv.follows⟩
  intro other isIn
  rcases mem_append.mp isIn with file | object
  · exact mem_append_left _ file
  · rcases mem_append.mp object with old | new
    · exact mem_append_right _ (mem_filter.mp old).1
    · cases mem_singleton.mp new
      exact mem_append_left _ mem

theorem le_maxSeqOf {segs : List Seg} {seg : Seg} (mem : seg ∈ segs) {e : Item}
    (isIn : e ∈ seg.items) : e.seq ≤ maxSeqOf segs := by
  have folded : ∀ (items : List Item) (start : Int),
      start ≤ items.foldl (fun seq e => max seq e.seq) start ∧
        ∀ e ∈ items, e.seq ≤ items.foldl (fun seq e => max seq e.seq) start := by
    intro items
    induction items with
    | nil => simp
    | cons head rest ih =>
      intro start
      obtain ⟨grows, bounds⟩ := ih (max start head.seq)
      rw [foldl_cons]
      refine ⟨(le_max_left _ _).trans grows, ?_⟩
      intro e isIn
      rcases mem_cons.mp isIn with rfl | later
      · exact (le_max_right _ _).trans grows
      · exact bounds e later
  exact (folded _ 0).2 e (mem_flatMap.mpr ⟨seg, mem, isIn⟩)

/-- The next sequence behind the entries that are left is at most one above the highest. -/
theorem Inv.next_le_leftover (inv : s.Inv) {kept : Nat} {storeSeq : Int}
    (empty : s.active.items.take kept = [] →
      s.active.first ≤ max storeSeq (maxSeqOf (s.leftover kept)) + 1) :
    Seg.next { s.active with items := s.active.items.take kept } ≤
      max storeSeq (maxSeqOf (s.leftover kept)) + 1 := by
  cases isLast : (s.active.items.take kept).getLast? with
  | none =>
    have none := getLast?_eq_none_iff.mp isLast
    have := empty none
    simp only [Seg.next, none, length_nil]
    omega
  | some last =>
    have numbered := (inv.lined.truncate kept).numbered _ mem_cons_self
    have ends := numbered.getLast_next isLast
    have bound : last.seq ≤ maxSeqOf (s.leftover kept) :=
      le_maxSeqOf (mem_append_right _ (mem_singleton_self _))
        (mem_of_getLast? isLast)
    simp only [Seg.next] at ends ⊢
    omega

theorem Inv.of_follower (follows : s.leads = false) (lined : Lined (s.files ++ s.objects) s.active)
    (level : s.lastSeq + 1 = s.active.next) (asks : s.fromRev = s.active.next)
    (idle : s.inFlight = []) : s.Inv := by
  refine ⟨lined, ?_, ?_, ?_, fun _ => ⟨level, asks, idle⟩⟩
  · intro leads
    cases leads.symm.trans follows
  · intro leads
    cases leads.symm.trans follows
  · intro leads
    cases leads.symm.trans follows

theorem Inv.of_opened (lined : Lined (s.files ++ s.objects) s.active) (empty : s.active.items = [])
    (noQueue : s.queued = []) (idle : s.inFlight = []) (term : s.term = s.active.epoch)
    (next : s.active.first = s.nextSeq + 1)
    (follows : s.leads = false → s.lastSeq + 1 = s.active.first ∧ s.fromRev = s.active.first) :
    s.Inv := by
  have first : s.active.next = s.active.first := by
    simp [Seg.next, empty]
  refine ⟨lined, ?_, ?_, ?_, ?_⟩
  · intro _
    rw [noQueue, first]
    refine ⟨term, trivial, ?_, ?_⟩
    · intro e mem
      cases mem
    · rw [length_nil]
      omega
  · intro _ nonempty
    exact absurd empty nonempty
  · rw [idle]
    intro _ last none
    cases none
  · rw [first]
    exact fun isFollower => ⟨(follows isFollower).1, (follows isFollower).2, idle⟩

theorem Inv.append (inv : s.Inv) (leads : s.leads = true) {count : Nat} (positive : 0 < count)
    (enough : count ≤ s.queued.length) :
    NamingState.Inv { s with
      active := s.active.add (s.queued.take count)
      inFlight := s.queued.take count
      queued := s.queued.drop count } := by
  obtain ⟨term, numbered, terms, total⟩ := inv.queue leads
  rw [← take_append_drop count s.queued] at numbered
  obtain ⟨batch, rest⟩ := numbered_append.mp numbered
  have length : (s.queued.take count).length = count := length_take_of_le enough
  have next : (s.active.add (s.queued.take count)).next = s.active.next + count := by
    simp only [Seg.next, Seg.add, length_append, length]
    push_cast
    omega
  refine ⟨inv.lined.add batch fun e mem => terms e (mem_of_mem_take mem), ?_, ?_, ?_, ?_⟩
  · intro _
    refine ⟨term, ?_, fun e mem => terms e (mem_of_mem_drop mem), ?_⟩
    · rw [next]
      rwa [length] at rest
    · have remaining : (s.queued.drop count).length = s.queued.length - count :=
        length_drop
      change _ + ((s.queued.drop count).length : Int) = s.nextSeq + 1
      rw [next, remaining]
      omega
  · intro _ _ none
    have empty := congrArg List.length none
    simp only [length, length_nil] at empty
    omega
  · intro _ last isLast
    have ends := batch.getLast_next isLast
    rw [length] at ends
    rw [next]
    exact ends
  · intro follows
    cases leads.symm.trans follows

theorem Inv.receive (inv : s.Inv) (follows : s.leads = false) {items : List Item} {last : Item}
    (isLast : items.getLast? = some last) (numbered : Numbered Item.seq s.fromRev items)
    (terms : ∀ e ∈ items, e.term = s.active.epoch) (term : Nat) :
    NamingState.Inv { s with
      active := s.active.add items, lastSeq := last.seq, fromRev := last.seq + 1, term } := by
  obtain ⟨-, expected, idle⟩ := inv.follows follows
  rw [expected] at numbered
  have next : last.seq + 1 = (s.active.add items).next := by
    have ends := numbered.getLast_next isLast
    simp only [Seg.next, Seg.add, length_append] at ends ⊢
    push_cast
    omega
  exact .of_follower follows (inv.lined.add numbered terms) next next idle

theorem Inv.restore (inv : s.Inv) (follows : s.leads = false) {seq : Int}
    (ahead : s.lastSeq ≤ seq) (term : Nat) :
    NamingState.Inv { s with
      files := [], active := ⟨term, seq + 1, []⟩, term, lastSeq := seq, fromRev := seq + 1 } := by
  obtain ⟨level, -, idle⟩ := inv.follows follows
  have next := (Seg.next_empty term (seq + 1)).symm
  refine .of_follower follows (inv.lined.openNext ?_ (by omega)) next next idle
  intro seg mem
  exact mem_cons_of_mem _ (mem_append_right _ mem)

theorem Inv.step {action : NamingAction} (inv : s.Inv) (kept : NamesKept s action)
    (stepped : namingStep s action = some t) : t.Inv := by
  revert stepped
  -- One case for each way through the step, in the order of the actions.
  fun_cases namingStep s action <;> intro stepped <;> try cases stepped
  case case1 leads =>
    obtain ⟨term, numbered, terms, count⟩ := inv.queue leads
    refine ⟨inv.lined, ?_, inv.applied, inv.pending, ?_⟩
    · intro _
      refine ⟨term, numbered_append.mpr ⟨numbered, ?_, trivial⟩, ?_, ?_⟩
      · exact count.symm
      · exact forall_mem_append.mpr ⟨terms, forall_mem_singleton.mpr term⟩
      · rw [length_append, length_singleton]
        push_cast
        omega
    · intro follows
      cases leads.symm.trans follows
  case case3 => exact kept.elim
  case case5 enabled _ _ => exact inv.append enabled.1 enabled.2.2.1 enabled.2.2.2
  case case6 => cases kept
  case case9 last isLast =>
    cases kept
    refine ⟨inv.lined, inv.queue, ?_, ?_, ?_⟩
    · intro leads _ _
      exact inv.pending leads last isLast
    · intro _ other none
      cases none
    · intro follows
      rw [(inv.follows follows).2.2] at isLast
      cases isLast
  case case11 => exact inv.sealNext rfl
  case case13 =>
    refine inv.openNext ?_
    intro seg mem
    rcases mem_append.mp mem with file | object
    · exact mem_cons_of_mem _ (mem_append_left _ (mem_filter.mp file).1)
    · rcases mem_append.mp object with old | new
      · exact mem_cons_of_mem _ (mem_append_right _ (mem_filter.mp old).1)
      · cases mem_singleton.mp new
        exact mem_cons_self
  case case14 => exact inv
  case case15 leads nonempty =>
    exact inv.sealNext (inv.applied leads nonempty (kept.resolve_left nonempty))
  case case17 =>
    obtain ⟨seg, isFile, rfl⟩ := Option.map_eq_some_iff.mp stepped
    exact inv.putObject (mem_of_getElem? isFile)
  case case18 =>
    refine ⟨inv.lined.mono ?_, inv.queue, inv.applied, inv.pending, inv.follows⟩
    intro seg mem
    rcases mem_append.mp mem with file | object
    · exact mem_append_left _ (mem_of_mem_eraseIdx file)
    · exact mem_append_right _ object
  case case20 isLast follows _ => exact inv.receive follows isLast kept.2.1 kept.2.2 _
  case case21 unapplied => exact absurd kept.1 unapplied
  case case24 restored follows base =>
    subst base
    cases restored with
    | none =>
      cases stepped
      exact inv
    | some => exact absurd rfl kept.2.2.1
  case case25 restored follows base seq =>
    subst base
    rw [Bool.not_eq_true] at follows
    cases restored with
    | none =>
      obtain ⟨level, expected, idle⟩ := inv.follows follows
      have known : max s.lastSeq seq = s.lastSeq := max_eq_left (kept seq rfl)
      simp only [known]
      exact .of_follower follows inv.lined level level idle
    | some checkpoint =>
      obtain ⟨term, last, rev⟩ := checkpoint
      obtain ⟨rfl, ahead, -, known⟩ := kept
      have same : max rev seq = rev := max_eq_left (known seq rfl)
      simp only [same]
      exact inv.restore follows ahead term
  case case26 term restored replayed enabled lastSeq files nextSeq =>
    subst nextSeq files lastSeq
    obtain ⟨level, -, -⟩ := inv.follows enabled.1
    have ahead : s.lastSeq ≤ restored.getD s.lastSeq := by
      cases restored with
      | none => exact le_rfl
      | some seq => exact kept seq rfl
    refine .of_opened (inv.lined.openNext ?_ (by omega)) rfl rfl rfl rfl rfl
      (fun follows' => nomatch follows')
    intro seg mem
    have old := mem_openSegment mem
    simp only [mem_append, mem_cons] at old ⊢
    tauto
  case case28 count term storeSeq replayed leads files nextSeq lastSeq =>
    subst lastSeq nextSeq files
    obtain ⟨empty, known⟩ := kept
    have behind := inv.next_le_leftover empty
    have same : max (max storeSeq (maxSeqOf (s.leftover count))) replayed =
        max storeSeq (maxSeqOf (s.leftover count)) := max_eq_left known
    refine .of_opened ((inv.lined.truncate count).openNext ?_ behind) rfl rfl rfl rfl ?_ ?_
    · intro seg mem
      have old := mem_openSegment mem
      simp only [leftover, mem_append, mem_cons] at old ⊢
      tauto
    · change _ + 1 = max _ replayed + 1
      rw [same]
    · intro _
      simp only [openSegment, same, and_self]

theorem Inv.init (start : namingSystem.init s) : s.Inv := by
  obtain ⟨leads, term, rfl⟩ := start
  refine .of_opened ⟨?_, ?_, ?_, ?_⟩ rfl rfl rfl rfl rfl (fun _ => ⟨rfl, rfl⟩)
  · intro seg mem
    cases mem_singleton.mp mem
    trivial
  · intro seg mem e isIn
    cases mem_singleton.mp mem
    cases isIn
  · intro seg mem
    cases mem
  · intro seg mem
    cases mem

end NamingState

/-! ## Every run -/

/-- In a run whose steps all keep the names, all segment files and uploaded objects are named
exactly. -/
theorem segments_namedExactly {s t : NamingState} {actions : List NamingAction}
    (start : namingSystem.init s) (kept : namingSystem.Meets NamesKept s actions)
    (run : namingSystem.run s actions = some t) : NamedExactly t := by
  have inv : t.Inv := namingSystem.run_invariant (I := NamingState.Inv)
    (fun inv here stepped => inv.step here stepped) (NamingState.Inv.init start) kept run
  exact inv.lined.namedExactly

/-- A follower from its first entries over a promotion, rotations, a checkpoint and a crash. -/
def longLife : List NamingAction :=
  [.receive [⟨1, 1⟩, ⟨1, 2⟩] true, .rotate, .receive [⟨1, 3⟩] true, .promote 2 none 3,
    .assign, .assign, .append 2 none, .apply true, .sealAndFlush, .upload 0, .upload 2,
    .assign, .append 1 none, .apply true, .rotateSync, .assign, .append 1 none,
    .reopen 0 2 6 6 true, .assign, .append 1 none]

theorem segments_namedExactly_longLife : ∃ t,
    namingSystem.run { leads := false, term := 1, active := ⟨1, 1, []⟩ } longLife = some t ∧
      NamedExactly t := by
  obtain ⟨t, run⟩ : ∃ t, namingSystem.run
      { leads := false, term := 1, active := ⟨1, 1, []⟩ } longLife = some t := ⟨_, rfl⟩
  exact ⟨t, run, segments_namedExactly ⟨false, 1, rfl⟩ (by decide +kernel) run⟩

/-- The checkpoint loop seals while a batch is appended and not applied: the next segment is
named after the sequence of an entry of the sealed one. -/
theorem segments_misnamed : ∃ t,
    namingSystem.run { leads := true, term := 1, active := ⟨1, 1, []⟩ }
        [.assign, .assign, .append 1 none, .apply true, .append 1 none, .sealAndFlush] =
      some t ∧ ¬ NamedExactly t := by
  refine ⟨_, rfl, ?_⟩
  intro named
  obtain ⟨-, -, ends⟩ := named ⟨1, 1, [⟨1, 1⟩, ⟨1, 2⟩]⟩ (.head _)
  exact absurd (ends ⟨1, 2, []⟩ (.tail _ (.head _)) rfl (by decide) ⟨1, 2⟩ (by decide))
    (lt_irrefl _)

end T4.Wal
