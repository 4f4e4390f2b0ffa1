import T4.Recovery.Open

/-!
# WAL segments in the object store

`replayRemote` and `walTermCutoffs` of `wal_replay.go`, and `GCSegments` of
`internal/wal/gc.go`. A segment is stored under its term and first sequence.
-/

namespace T4.Remote

open Lib Bytes SortedMap Wal Mvcc Recovery List

/-- The objects under `wal/`. -/
abbrev WalObjects := SortedMap SegmentName Bytes

inductive RemoteError
  | segment (err : SegmentError)
  | missingSequence (expected got : Int)
  | store (err : StoreError)
  /-- A checkpoint that the manifest names is not there. -/
  | notFound
  deriving DecidableEq

def maxInt64 : Int := 2 ^ 63 - 1

/-! ## Replay -/

/-- The smallest first sequence among the segments of a term. -/
def minFirstRev (keys : List SegmentName) (term : Nat) : Option Int :=
  keys.foldl (fun existing key =>
    if (ofLex key).1 = term then
      match existing with
      | none => some (ofLex key).2
      | some rev => some (if (ofLex key).2 < rev then (ofLex key).2 else rev)
    else existing) none

/-- Where the entries of a term are superseded by those of a higher one. -/
def walTermCutoffs (keys : List SegmentName) (term : Nat) : Int :=
  (keys.map (fun key => (ofLex key).1)).foldl (fun c t =>
    match minFirstRev keys t with
    | some fr => if t > term ∧ fr < c then fr else c
    | none => c) maxInt64

def readSegments : List (SegmentName × Bytes) → Except RemoteError (List (Nat × List Entry))
  | [] => .ok []
  | (key, bytes) :: rest =>
    match newSegmentReader bytes with
    | .error err => .error (.segment err)
    | .ok (version, body) =>
      match readSegments rest with
      | .error err => .error err
      | .ok later => .ok (((ofLex key).1, readAll version body) :: later)

/-- An entry above `afterSeq` that no later term supersedes. -/
def applicable (afterSeq termCutoff : Int) (e : Entry) : Bool :=
  ¬ e.sequence ≤ afterSeq ∧ ¬ e.sequence ≥ termCutoff

def collectEntries (keys : List SegmentName) (afterSeq : Int)
    (segments : List (Nat × List Entry)) : List Entry :=
  segments.flatMap (fun segment =>
    segment.2.filter (applicable afterSeq (walTermCutoffs keys segment.1)))

/-- The order of the sort. The source's sort is not stable; entries that agree in both
fields come from one term and sequence. -/
def SortsBefore (a b : Entry) : Prop :=
  a.sequence < b.sequence ∨ a.sequence = b.sequence ∧ a.term ≤ b.term

instance (a b : Entry) : Decidable (SortsBefore a b) := inferInstanceAs (Decidable (_ ∨ _))

/-- Add an entry to the merged ones, the last of which comes first. -/
def mergeEntry (merged : List Entry) (e : Entry) : List Entry :=
  match merged with
  | [] => [e]
  | last :: front =>
    if last.sequence = e.sequence then
      if e.term ≥ last.term then e :: front else last :: front
    else e :: last :: front

/-- Sort, and keep the highest term at each sequence. -/
def mergeEntries (all : List Entry) : List Entry :=
  ((all.insertionSort SortsBefore).foldl mergeEntry []).reverse

def firstHole (expected : Int) : List Entry → Option RemoteError
  | [] => none
  | e :: rest =>
    if e.sequence ≠ expected then some (.missingSequence expected e.sequence)
    else firstHole (expected + 1) rest

/-- `replayRemote` after the segments have been read. -/
def replayEntries (db : Store) (keys : List SegmentName) (afterSeq : Int)
    (segments : List (Nat × List Entry)) : Except RemoteError Store :=
  let all := collectEntries keys afterSeq segments
  if all = [] then .ok db
  else
    let merged := mergeEntries all
    match firstHole (afterSeq + 1) merged with
    | some err => .error err
    | none =>
      match db.recover merged with
      | (_, some err) => .error (.store err)
      | (db, none) => .ok db

def replayRemote (db : Store) (objects : WalObjects) (afterSeq : Int) :
    Except RemoteError Store :=
  match readSegments objects.entries with
  | .error err => .error err
  | .ok segments => replayEntries db (objects.entries.map Prod.fst) afterSeq segments

/-! ## Garbage collection -/

/-- The segments that end at or before `checkpointSeq`; the last one is always kept. -/
def doomedSegments (checkpointSeq : Int) : List SegmentName → List SegmentName
  | key :: next :: rest =>
    if (ofLex next).2 - 1 ≤ checkpointSeq then key :: doomedSegments checkpointSeq (next :: rest)
    else doomedSegments checkpointSeq (next :: rest)
  | _ => []

/-! ## Replaying a recorded history -/

def object (c : Closed) : SegmentName × Bytes := (segmentName term c.firstRev, c.bytes)

variable {segments : List Closed} {rest : List Entry}

theorem readSegments_eq (valid : ∀ c ∈ segments, c.Valid) :
    readSegments (segments.map object) = .ok (segments.map (fun c => (term, c.entries))) := by
  induction segments with
  | nil => rfl
  | cons c segments ih =>
    have here := valid c (by simp)
    have later := ih (fun other mem => valid other (mem_cons_of_mem _ mem))
    rw [map_cons, object, readSegments, c.newSegmentReader_bytes]
    simp only [later, here.readAll]
    rfl

theorem walTermCutoffs_eq {keys : List SegmentName} {term : Nat}
    (one : ∀ key ∈ keys, (ofLex key).1 = term) : walTermCutoffs keys term = maxInt64 := by
  have unchanged : ∀ terms : List Nat, (∀ t ∈ terms, t = term) →
      terms.foldl (fun c t =>
        match minFirstRev keys t with
        | some fr => if t > term ∧ fr < c then fr else c
        | none => c) maxInt64 = maxInt64 := by
    intro terms same
    induction terms with
    | nil => rfl
    | cons t terms ih =>
      have isTerm := same t (by simp)
      rw [foldl_cons]
      split
      · rw [if_neg (by omega)]
        exact ih (fun other mem => same other (mem_cons_of_mem _ mem))
      · exact ih (fun other mem => same other (mem_cons_of_mem _ mem))
  refine unchanged _ ?_
  intro t mem
  obtain ⟨key, isKey, rfl⟩ := mem_map.mp mem
  exact one key isKey

theorem term_of_object {key : SegmentName} (mem : key ∈ (segments.map object).map Prod.fst) :
    (ofLex key).1 = term := by
  obtain ⟨_, isObject, rfl⟩ := mem_map.mp mem
  obtain ⟨c, -, rfl⟩ := mem_map.mp isObject
  rfl

theorem collectEntries_eq (segments : List Closed) (afterSeq : Int) :
    collectEntries ((segments.map object).map Prod.fst) afterSeq
        (segments.map (fun c => (term, c.entries))) =
      (logOf segments).filter (applicable afterSeq maxInt64) := by
  rw [collectEntries, flatMap_map]
  simp only [walTermCutoffs_eq (fun key => term_of_object)]
  rw [logOf, filter_flatMap]

theorem foldl_mergeEntry {merged : List Entry}
    (increasing : rest.Pairwise (fun a b => a.sequence < b.sequence))
    (below : ∀ e ∈ merged.head?, ∀ r ∈ rest, e.sequence < r.sequence) :
    rest.foldl mergeEntry merged = rest.reverse ++ merged := by
  induction rest generalizing merged with
  | nil => rfl
  | cons e rest ih =>
    obtain ⟨above, later⟩ := pairwise_cons.mp increasing
    have added : mergeEntry merged e = e :: merged := by
      cases merged with
      | nil => rfl
      | cons last front =>
        have := below last rfl e (by simp)
        rw [mergeEntry, if_neg (by omega)]
    rw [foldl_cons, added, ih later (by simpa using above), reverse_cons,
      append_assoc]
    rfl

theorem mergeEntries_eq {first : Int} (consecutive : Consecutive first rest) :
    mergeEntries rest = rest := by
  have sorted : rest.Pairwise SortsBefore :=
    consecutive.pairwise.imp (fun less => Or.inl less)
  rw [mergeEntries, sorted.insertionSort_eq, foldl_mergeEntry consecutive.pairwise (by simp),
    append_nil, reverse_reverse]

theorem firstHole_eq_none_iff {first : Int} :
    firstHole first rest = none ↔ Consecutive first rest := by
  induction rest generalizing first with
  | nil => simp [firstHole, Consecutive]
  | cons e rest ih =>
    rw [firstHole, Consecutive]
    split
    · rename_i differs
      simp [differs]
    · rename_i same
      rw [ih, and_iff_right (not_not.mp same)]

/-- **Remote replay** of what a store has not seen. The segments hold the end of the
history, from an entry on that the store has. -/
theorem replayRemote_eq {s : Store} {h dropped : List Entry} {objects : WalObjects}
    (rep : s.Represents h) (recorded : Recorded (h ++ rest))
    (fits : ((h ++ rest).length : Int) < maxInt64) (listing : objects.entries = segments.map object)
    (valid : ∀ c ∈ segments, c.Valid) (whole : dropped ++ logOf segments = h ++ rest)
    (covered : dropped.length ≤ h.length) :
    replayRemote s objects h.length = .ok (s.apply rest).1 := by
  have suffix : logOf segments = h.drop dropped.length ++ rest := by
    have dropping := congrArg (List.drop dropped.length) whole
    rwa [drop_left, drop_append_of_le_length covered] at dropping
  have all : (logOf segments).filter (applicable h.length maxInt64) = rest := by
    have low : (h.drop dropped.length).filter (applicable h.length maxInt64) = [] := by
      rw [filter_eq_nil_iff]
      intro e mem
      have number := (recorded.of_append.sequence_le (mem_of_mem_drop mem)).2
      simp [applicable, number]
    have high : rest.filter (applicable h.length maxInt64) = rest := by
      rw [filter_eq_self]
      intro e mem
      have lower := recorded.sequence_above mem
      have upper := (recorded.sequence_le (mem_append_right h mem)).2
      simp only [applicable, decide_eq_true_eq]
      omega
    rw [suffix, filter_append, low, high, nil_append]
  have consecutive : Consecutive (h.length + 1) rest := by
    have later := (consecutive_append.mp recorded.consecutive).2
    rwa [add_comm] at later
  rw [replayRemote, listing, readSegments_eq valid]
  simp only [replayEntries, collectEntries_eq, all]
  by_cases empty : rest = []
  · rw [if_pos empty, empty]
    rfl
  · obtain ⟨next, applies, -⟩ := rep.apply recorded.wellFormed
    rw [if_neg empty, mergeEntries_eq consecutive, firstHole_eq_none_iff.mpr consecutive]
    simp only [rep.recover_eq_apply recorded.wellFormed, applies]

end T4.Remote
