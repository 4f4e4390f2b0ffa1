import T4.Recovery.Model

/-!
# Opening what a crash left

A directory of segments that together hold a recorded history, with Pebble holding the
store after some of its batches: `openNode` succeeds, and the store it returns went
through the whole history. The file it creates or truncates holds no entry.
-/

namespace T4.Recovery

open Lib Bytes SortedMap Wal Mvcc List

/-- A segment that is not written any more: its entries, and the end of an append that
a crash cut short. -/
structure Closed where
  firstRev : Int
  entries : List Entry
  torn : Bytes := []

namespace Closed

def bytes (c : Closed) : Bytes := segHeader term c.firstRev ++ (frames c.entries ++ c.torn)

def binding (c : Closed) : SegmentName × SegmentFile :=
  (segmentName term c.firstRev, { synced := c.bytes })

structure Valid (c : Closed) : Prop where
  nonempty : c.entries ≠ []
  framed : ∀ e ∈ c.entries, Framed e
  torn : Torn c.torn

theorem newSegmentReader_bytes (c : Closed) :
    newSegmentReader c.bytes = .ok (walFormatVersion, frames c.entries ++ c.torn) :=
  newSegmentReader_segHeader _ _ _

theorem Valid.readAll {c : Closed} (valid : c.Valid) :
    readAll walFormatVersion (frames c.entries ++ c.torn) = c.entries :=
  readAll_frames valid.framed valid.torn

theorem Valid.segmentEntries {c : Closed} (valid : c.Valid) :
    segmentEntries c.binding.2.bytes = c.entries := by
  have bytes : c.binding.2.bytes = c.bytes := append_nil _
  rw [bytes]
  exact segmentEntries_frames valid.framed valid.torn _ _

end Closed

/-- The entries that segments hold, in the order of replay. -/
def logOf (segments : List Closed) : List Entry := segments.flatMap Closed.entries

theorem segmentName_lt {first next : Int} (less : first < next) :
    segmentName term first < segmentName term next :=
  Prod.Lex.toLex_lt_toLex.mpr (Or.inr ⟨rfl, less⟩)

/-- The file `OpenSegmentWriter` leaves. -/
def freshFile (firstRev : Int) : SegmentFile :=
  { synced := [], unsynced := segHeader term firstRev }

theorem newSegmentReader_freshFile (firstRev : Int) :
    newSegmentReader (freshFile firstRev).bytes = .ok (walFormatVersion, []) := by
  have read := newSegmentReader_segHeader term firstRev []
  rwa [append_nil] at read

/-! ## ReplayLocal -/

theorem replayLocal_freshFile (afterSeq firstRev : Int) (s : Store) :
    replayLocal afterSeq s [(freshFile firstRev).bytes] = .ok (s, []) := by
  rw [replayLocal, newSegmentReader_freshFile]
  rfl

variable {segments : List Closed} {dir : WalDir}

/-- Replaying segments is applying their entries above `afterSeq`, in batches. -/
theorem replayLocal_eq {s : Store} {h : List Entry} (rep : s.Represents h) (afterSeq : Int)
    (valid : ∀ c ∈ segments, c.Valid)
    (wf : WellFormed (h ++ (logOf segments).filter (fun e => e.sequence > afterSeq))) :
    ∃ groups : List (List Entry),
      groups.flatten = (logOf segments).filter (fun e => e.sequence > afterSeq) ∧
      ∀ rest, replayLocal afterSeq s (segments.map Closed.bytes ++ rest) =
        match replayLocal afterSeq (applyAll s groups) rest with
        | .error err => .error err
        | .ok (last, commits) => .ok (last, commitsFrom s groups ++ commits) := by
  induction segments generalizing s h with
  | nil =>
    refine ⟨[], rfl, ?_⟩
    intro rest
    rw [map_nil, nil_append, show applyAll s [] = s from rfl]
    cases replayLocal afterSeq s rest with
    | error err => rfl
    | ok replayed => rfl
  | cons c segments ih =>
    have here := valid c (by simp)
    have later := fun other mem => valid other (mem_cons_of_mem c mem)
    have log : (logOf (c :: segments)).filter (fun e => e.sequence > afterSeq) =
        c.entries.filter (fun e => e.sequence > afterSeq) ++
          (logOf segments).filter (fun e => e.sequence > afterSeq) := by
      simp [logOf]
    rw [log] at wf ⊢
    by_cases none : c.entries.filter (fun e => e.sequence > afterSeq) = []
    · rw [none, nil_append] at wf ⊢
      obtain ⟨groups, flat, replays⟩ := ih rep later wf
      refine ⟨groups, flat, ?_⟩
      intro rest
      rw [map_cons, cons_append, replayLocal, c.newSegmentReader_bytes]
      simp only [here.readAll]
      rw [if_pos none]
      exact replays rest
    · rw [← append_assoc] at wf
      have wfHere := wf.sublist (sublist_append_left _ _)
      obtain ⟨next, applies, represents⟩ := rep.apply wfHere
      obtain ⟨groups, flat, replays⟩ := ih represents later wf
      refine ⟨c.entries.filter (fun e => e.sequence > afterSeq) :: groups, ?_, ?_⟩
      · rw [flatten_cons, flat]
      · intro rest
        have folded : applyAll s (c.entries.filter (fun e => e.sequence > afterSeq) :: groups) =
            applyAll next groups := by
          rw [applyAll, foldl_cons, applies]
          rfl
        rw [map_cons, cons_append, replayLocal, c.newSegmentReader_bytes]
        simp only [here.readAll]
        rw [if_neg none, rep.recover_eq_apply wfHere, applies, folded, commitsFrom, applies]
        simp only [replays rest]
        cases replayLocal afterSeq (applyAll next groups) rest with
        | error err => rfl
        | ok replayed => rfl

/-! ## Open -/

/-- The directory holds the segments and at most one more file, which holds no entry and
has the name of the next segment. -/
def Leaves (dir : WalDir) (segments : List Closed) : Prop :=
  dir.entries = segments.map Closed.binding ∨
    ∃ husk, dir.entries = segments.map Closed.binding ++
        [(segmentName term ((logOf segments).length + 1), husk)] ∧
      segmentEntries husk.bytes = []

theorem flatMap_segmentEntries (valid : ∀ c ∈ segments, c.Valid) :
    ((segments.map Closed.binding).map (fun e => e.2.bytes)).flatMap segmentEntries =
      logOf segments := by
  rw [map_map, flatMap_map, logOf]
  exact flatMap_congr (fun c mem => (valid c mem).segmentEntries)

theorem Leaves.maxSequence (leaves : Leaves dir segments) (valid : ∀ c ∈ segments, c.Valid)
    (recorded : Recorded (logOf segments)) : maxSequence dir = (logOf segments).length := by
  have entries : (localSegments dir).flatMap segmentEntries = logOf segments := by
    rcases leaves with plain | ⟨husk, listing, empty⟩
    · rw [localSegments, plain, flatMap_segmentEntries valid]
    · rw [localSegments, listing, map_append, flatMap_append,
        flatMap_segmentEntries valid]
      simp [empty]
  rw [Wal.maxSequence, entries]
  exact recorded.sequenceOf_eq

theorem Leaves.openSegmentWriter (leaves : Leaves dir segments)
    (below : ∀ c ∈ segments, c.firstRev ≤ (logOf segments).length) :
    (openSegmentWriter dir term ((logOf segments).length + 1)).entries =
      segments.map Closed.binding ++ [(segmentName term ((logOf segments).length + 1),
        freshFile ((logOf segments).length + 1))] := by
  rcases leaves with plain | ⟨husk, listing, -⟩
  · rw [← plain]
    refine entries_insert_above _ ?_
    intro e mem
    rw [plain] at mem
    obtain ⟨c, isClosed, rfl⟩ := mem_map.mp mem
    have := below c isClosed
    exact segmentName_lt (by omega)
  · exact entries_insert_last _ listing

theorem replayLocal_lost {kept : List (List Entry)} (valid : ∀ c ∈ segments, c.Valid)
    (recorded : Recorded (logOf segments)) (lags : kept.flatten <+: logOf segments) :
    ∃ groups : List (List Entry), (kept ++ groups).flatten = logOf segments ∧
      ∀ rest, replayLocal kept.flatten.length (applyAll Store.empty kept)
          (segments.map Closed.bytes ++ rest) =
        match replayLocal kept.flatten.length (applyAll Store.empty (kept ++ groups)) rest with
        | .error err => .error err
        | .ok (last, commits) =>
          .ok (last, commitsFrom (applyAll Store.empty kept) groups ++ commits) := by
  have recordedKept := recorded.of_prefix lags
  obtain ⟨lost, whole⟩ := lags
  have above := Recorded.filter_above (whole ▸ recorded)
  rw [whole] at above
  obtain ⟨groups, flat, replays⟩ := replayLocal_eq recordedKept.represents kept.flatten.length valid
    (by rw [above, whole]; exact recorded.wellFormed)
  have store : applyAll (applyAll Store.empty kept) groups =
      applyAll Store.empty (kept ++ groups) := by
    simp [applyAll]
  rw [store] at replays
  exact ⟨groups, by rw [flatten_append, flat, above, whole], replays⟩

/-- **Opening a directory and a Pebble that lags behind it.** `kept` are the batches
that Pebble has kept, `groups` those that the replay commits. -/
theorem openNode_eq {kept : List (List Entry)} (leaves : Leaves dir segments)
    (valid : ∀ c ∈ segments, c.Valid)
    (below : ∀ c ∈ segments, c.firstRev ≤ (logOf segments).length)
    (recorded : Recorded (logOf segments)) (lags : kept.flatten <+: logOf segments) :
    ∃ o groups, openNode dir (applyAll Store.empty kept).db = .ok o ∧
      o.dir.entries = segments.map Closed.binding ++
        [(segmentName term ((logOf segments).length + 1),
          freshFile ((logOf segments).length + 1))] ∧
      o.firstRev = (logOf segments).length + 1 ∧ o.nextSeq = (logOf segments).length ∧
      (kept ++ groups).flatten = logOf segments ∧
      o.store = applyAll Store.empty (kept ++ groups) ∧
      o.commits = commitsFrom (applyAll Store.empty kept) groups := by
  have recordedKept := recorded.of_prefix lags
  obtain ⟨groups, history, replays⟩ := replayLocal_lost valid recorded lags
  have lastSeq := (history.symm ▸ recorded : Recorded (kept ++ groups).flatten).lastSeq
  rw [history] at lastSeq
  have nextSeq : max ((kept.flatten.length : Int)) ((logOf segments).length : Int) =
      (logOf segments).length := by
    have := lags.length_le
    omega
  have listing := leaves.openSegmentWriter below
  have contents : localSegments (Wal.openSegmentWriter dir term ((logOf segments).length + 1)) =
      segments.map Closed.bytes ++ [(freshFile ((logOf segments).length + 1)).bytes] := by
    rw [localSegments, listing, map_append, map_map]
    congr 1
    exact map_congr_left (fun c _ => append_nil _)
  refine ⟨{
    dir := Wal.openSegmentWriter dir term ((logOf segments).length + 1)
    firstRev := (logOf segments).length + 1
    store := applyAll Store.empty (kept ++ groups)
    nextSeq := (logOf segments).length
    commits := commitsFrom (applyAll Store.empty kept) groups }, groups, ?_, listing, rfl, rfl,
    history, rfl, rfl⟩
  unfold openNode
  simp only [recordedKept.loadMeta, leaves.maxSequence valid recorded, recordedKept.lastSeq,
    nextSeq, contents, replays, replayLocal_freshFile, lastSeq, max_self, append_nil]

end T4.Recovery
