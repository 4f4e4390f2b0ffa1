import T4.Etcd.Frames
import T4.Etcd.Kv

/-!
# Range and the interval that is asked for

Range reaches the keys of an interval by four paths: a count and a limited list of a prefix,
and a full list that is filtered, with or without the keys. Which one is taken depends on
whether the end of the interval is `prefixRangeEnd` of its start. `inInterval_prefixRangeEnd`
says that the interval is then the prefix, so every path is compared with one list, `liveIn`:
the live keys of the interval that are not internal, in byte order.

Nothing is written while Range runs: its calls are all answered by one world.
-/

namespace T4.Etcd

open Lib Bytes Text Wal Mvcc WritePath List

/-! ## The specification -/

def RangeRequest.readAt (r : RangeRequest) (h : List Entry) : Int :=
  if r.revision > 0 then r.revision - 1 else revisionOf h

/-- The revision, if one is asked for, is not compacted and not in the future. -/
def RangeRequest.Readable (r : RangeRequest) (h : List Entry) : Prop :=
  r.revision > 0 → watermarkOf h ≤ r.readAt h ∧ r.readAt h ≤ revisionOf h

/-- The keys that are live at the revision, lie in the interval and are not internal, in byte
order. -/
def liveIn (h : List Entry) (r : RangeRequest) : List (Bytes × KeyValue) :=
  (Timeline.liveAt (changes h) (r.readAt h)).filter
    (fun e => ¬ isInternalKey e.1 ∧ r.key ≤ e.1 ∧ (r.rangeEnd = [0] ∨ e.1 < r.rangeEnd))

def rangeSpec (h : List Entry) (r : RangeRequest) : RangeResponse where
  revision := toEtcdRevision (r.readAt h)
  kvs := if r.countOnly then []
    else (cut r.limit (liveIn h r)).map (fun e => kvToProtoForRange e.2 r.keysOnly)
  count := (liveIn h r).length
  more := !r.countOnly && decide (r.limit > 0 ∧ ((liveIn h r).length : Int) > r.limit)

/-! ## Prefixes and intervals -/

variable {key rangeEnd k : Bytes} {h : List Entry}

theorem inInterval_iff : InInterval key rangeEnd k ↔ key ≤ k ∧ (rangeEnd = [0] ∨ k < rangeEnd) := by
  unfold InInterval
  split
  · simp [*]
  · simp [*]

/-- The interval up to `prefixRangeEnd` is the prefix. -/
theorem inInterval_prefixRangeEnd (key k : Bytes) :
    InInterval key (prefixRangeEnd key) k ↔ key <+: k := by
  rw [isPrefix_iff_between, InInterval, prefixRangeEnd]
  cases bound : upperBound key with
  | none => simp
  | some ub =>
    have notZero : ub ≠ [0] := fun same => upperBound_ne_zero key (same ▸ bound)
    simp [notZero]

theorem inInterval_prefixEnd (isEnd : isPrefixRangeEnd key rangeEnd) :
    InInterval key rangeEnd k ↔ key <+: k := by
  rw [← show prefixRangeEnd key = rangeEnd from isEnd, inInterval_prefixRangeEnd]

theorem rangeScanPrefix_of_inInterval (within : InInterval key rangeEnd k) :
    rangeScanPrefix key rangeEnd <+: k := by
  unfold rangeScanPrefix
  split
  · exact (inInterval_prefixEnd ‹_›).mp within
  · exact nil_prefix

theorem not_isInternalKey_of_exact (exact_ : isExactPrefixRange key rangeEnd) (starts : key <+: k) :
    ¬ isInternalKey k := by
  intro internal
  obtain ⟨nonempty, first, -⟩ := exact_
  obtain ⟨rest, rfl⟩ := starts
  cases key with
  | nil => exact nonempty rfl
  | cons b tail =>
    have zero := (cons_prefix_cons.mp internal).1
    exact first (by rw [← zero]; rfl)

/-! ## Lists of live keys -/

section Lists

variable {h : List Entry} {r : RangeRequest} {t : Int}

theorem key_of_mem_liveAt {e : Bytes × KeyValue} (mem : e ∈ Timeline.liveAt (changes h) t) :
    e.2.key = e.1 := by
  obtain ⟨k, kv⟩ := e
  obtain ⟨c, last, value⟩ := Option.bind_eq_some_iff.mp (Timeline.mem_liveAt.mp mem)
  obtain ⟨inChanges, same, -⟩ := Timeline.lastChange_mem last
  obtain ⟨v, -, rfl⟩ := mem_map.mp inChanges
  unfold Version.toChange at value
  dsimp only at value
  split_ifs at value
  cases value
  exact same

theorem selectAt_of_exact (exact_ : isExactPrefixRange r.key r.rangeEnd) :
    selectAt h (r.readAt h) (rangeScanPrefix r.key r.rangeEnd) [] = liveIn h r := by
  unfold selectAt liveIn
  refine filter_congr ?_
  intro e _
  rw [decide_eq_decide, rangeScanPrefix, if_pos exact_.2.2, ← inInterval_iff,
    inInterval_prefixEnd exact_.2.2]
  constructor
  · intro met
    exact ⟨not_isInternalKey_of_exact exact_ met.1, met.1⟩
  · intro wanted
    exact ⟨wanted.2, isPrefix_le nil_prefix⟩

theorem filter_selectAt :
    ((selectAt h (r.readAt h) (rangeScanPrefix r.key r.rangeEnd) []).map Prod.snd).filter
        (fun kv => matchRange kv r.key r.rangeEnd) = (liveIn h r).map Prod.snd := by
  unfold selectAt liveIn
  rw [filter_map, filter_filter]
  congr 1
  refine filter_congr ?_
  intro e live
  have same := key_of_mem_liveAt live
  simp only [Function.comp_apply, ← Bool.decide_and, decide_eq_decide, matchRange, same,
    ← inInterval_iff]
  constructor
  · intro met
    exact met.1
  · intro wanted
    exact ⟨wanted, rangeScanPrefix_of_inInterval wanted.2, isPrefix_le nil_prefix⟩

theorem foldl_collectKey (all : List KeyValue) (total : Int) (out : List KeyValue) :
    all.foldl (collectKey r) (total, out.map (kvToProtoForRange · r.keysOnly)) =
      (total + (all.filter (fun kv => matchRange kv r.key r.rangeEnd)).length,
        (fill r.limit out (all.filter (fun kv => matchRange kv r.key r.rangeEnd))).map
          (kvToProtoForRange · r.keysOnly)) := by
  induction all generalizing total out with
  | nil => simp [fill_empty]
  | cons kv rest ih =>
    rw [foldl_cons, collectKey]
    by_cases matched : matchRange kv r.key r.rangeEnd
    · rw [if_neg (not_not_intro matched), filter_cons_of_pos (by simpa using matched)]
      simp only [length_map, length_cons]
      split
      · -- The limit is reached: the key is counted and not returned.
        rename_i full
        rw [ih, fill_full full, fill_full full]
        congr 1
        push_cast
        ring
      · rename_i room
        have snoc : out.map (kvToProtoForRange · r.keysOnly) ++ [kvToProtoForRange kv r.keysOnly] =
            (out ++ [kv]).map (kvToProtoForRange · r.keysOnly) := by
          rw [map_append, map_singleton]
        rw [snoc, ih, fill_cons room]
        congr 1
        push_cast
        ring
    · rw [if_pos matched, ih, filter_cons_of_neg (by simpa using matched)]

end Lists

/-! ## The calls of one Range -/

/-- What the reads of a request find in a world. -/
structure Reads (w : World) (h : List Entry) (readRev t : Int) : Prop where
  list : ∀ lin pfx limit, (w.serve (.list lin pfx limit readRev)).1 = .ok (rangeAt h t pfx [] limit)
  count : ∀ lin pfx,
    (w.serve (.count lin pfx readRev)).1 = .ok ((rangeAt h t pfx [] 0).length : Int)
  header : (Prog.eval w.serve (rangeHeader readRev)) = (.ok (toEtcdRevision t), [])

theorem Reads.head {w : World} (rep : w.node.db.Represents h) (wf : WellFormed h) :
    Reads w h 0 (revisionOf h) where
  list := by
    intro lin pfx limit
    simp only [World.serve]
    rw [rep.listHead wf pfx [] limit]
    rfl
  count := by
    intro lin pfx
    simp only [World.serve]
    rw [rep.countHead wf pfx [] 0]
    rfl
  header := by
    rw [← rep.currentRev]
    rfl

theorem Reads.revision {w : World} {t : Int} (rep : w.node.db.Represents h) (wf : WellFormed h)
    (pos : 1 ≤ t) (above : watermarkOf h ≤ t) (upTo : t ≤ revisionOf h) : Reads w h t t := by
  have compact : w.node.db.compactRev ≤ t := by
    rw [rep.compactRev]
    exact (targetOf_le_watermarkOf h).trans above
  rw [← rep.currentRev] at upTo
  constructor
  · intro lin pfx limit
    simp only [World.serve]
    rw [rep.listAt wf pos above compact upTo pfx [] limit]
    rfl
  · intro lin pfx
    simp only [World.serve]
    rw [rep.countAt wf pos above compact upTo pfx [] 0]
    rfl
  · rw [rangeHeader, if_pos (by omega)]
    rfl

section Paths

variable {w : World} {h : List Entry} {r : RangeRequest} {lin : Bool} {readRev : Int}

theorem Reads.eval_rangeList (reads : Reads w h readRev (r.readAt h)) (pfx : Bytes) (limit : Int) :
    Prog.eval w.serve (rangeList lin pfx limit readRev) =
      (.ok (rangeAt h (r.readAt h) pfx [] limit), []) := by
  rw [rangeList, Prog.eval_ask_bind, reads.list]
  rfl

theorem Reads.eval_rangeCount (reads : Reads w h readRev (r.readAt h)) (pfx : Bytes) :
    Prog.eval w.serve (rangeCount lin pfx readRev) =
      (.ok ((rangeAt h (r.readAt h) pfx [] 0).length : Int), []) := by
  rw [rangeCount, Prog.eval_ask_bind, reads.count]
  rfl

theorem cut_map {α β : Type} (f : α → β) (limit : Int) (l : List α) :
    cut limit (l.map f) = (cut limit l).map f := by
  unfold cut
  split
  · rw [map_take]
  · rfl

theorem rangeAt_zero (t : Int) (pfx : Bytes) :
    rangeAt h t pfx [] 0 = (selectAt h t pfx []).map Prod.snd := by
  simp [rangeAt, cut]

theorem Reads.eval_rangeCountOnly (reads : Reads w h readRev (r.readAt h))
    (only : r.countOnly = true) :
    Prog.eval w.serve (rangeCountOnly r lin readRev) = (.ok (rangeSpec h r), []) := by
  have spec : rangeSpec h r =
      { revision := toEtcdRevision (r.readAt h), count := (liveIn h r).length } := by
    simp [rangeSpec, only]
  rw [spec]
  unfold rangeCountOnly
  split
  · rename_i exact_
    rw [Prog.eval_bind (reads.eval_rangeCount _), Prog.eval_bind reads.header, rangeAt_zero,
      selectAt_of_exact exact_, length_map]
    rfl
  · rw [Prog.eval_bind (reads.eval_rangeList _ _), Prog.eval_bind reads.header, rangeAt_zero,
      filter_selectAt, length_map]
    rfl

theorem Reads.eval_rangeScan (reads : Reads w h readRev (r.readAt h))
    (keys : r.countOnly = false) :
    Prog.eval w.serve (rangeScan r lin readRev) = (.ok (rangeSpec h r), []) := by
  have spec : rangeSpec h r =
      { revision := toEtcdRevision (r.readAt h)
        kvs := (cut r.limit ((liveIn h r).map Prod.snd)).map (kvToProtoForRange · r.keysOnly)
        count := (liveIn h r).length
        more := decide (r.limit > 0 ∧ ((liveIn h r).length : Int) > r.limit) } := by
    simp [rangeSpec, keys, cut_map]
  rw [spec]
  unfold rangeScan
  split
  · rename_i shortcut
    obtain ⟨exact_, limited⟩ := shortcut
    rw [Prog.eval_bind (reads.eval_rangeCount _), Prog.eval_bind (reads.eval_rangeList _ _),
      Prog.eval_bind reads.header, rangeAt_zero, rangeAt, selectAt_of_exact exact_,
      length_map]
    simp only [limited, true_and]
    rfl
  · have collected := foldl_collectKey (r := r)
      ((selectAt h (r.readAt h) (rangeScanPrefix r.key r.rangeEnd) []).map Prod.snd) 0 []
    rw [map_nil, filter_selectAt, fill_nil, zero_add, length_map] at collected
    rw [Prog.eval_bind (reads.eval_rangeList _ _), rangeAt_zero, collected]
    simp only []
    rw [Prog.eval_bind reads.header]
    rfl

end Paths

/-- A node that has applied what is in the store and has nothing in flight. -/
def World.ofStore (s : Store) : World where
  node := { nextRev := s.currentRev, nextSeq := s.lastSeq, pending := SortedMap.empty, db := s }
  leases := fun _ => true

theorem liveIn_zero {r : RangeRequest} (wf : WellFormed h) (first : r.readAt h = 0) :
    liveIn h r = [] := by
  unfold liveIn
  rw [first, filter_eq_nil_iff]
  intro e live
  obtain ⟨c, last, -⟩ := Option.bind_eq_some_iff.mp (Timeline.mem_liveAt.mp live)
  obtain ⟨inChanges, -, upTo⟩ := Timeline.lastChange_mem last
  obtain ⟨v, mem, rfl⟩ := mem_map.mp inChanges
  have pos := (wf.version_storable mem).pos
  change v.rev ≤ 0 at upTo
  omega

/-- **Range is exact.** Whatever interval, limit and options are asked for, at the head or at a
revision that can be read, Range returns the live keys of the interval. -/
theorem range_exact (consistency : ReadConsistency) (w : World) {h : List Entry}
    (rep : w.node.db.Represents h) (wf : WellFormed h) (r : RangeRequest)
    (interval : r.rangeEnd ≠ []) (readable : r.Readable h) :
    Prog.eval w.serve (range consistency r) = (.ok (rangeSpec h r), []) := by
  have read : ∀ readRev, Reads w h readRev (r.readAt h) →
      Prog.eval w.serve (rangeRead consistency r readRev) = (.ok (rangeSpec h r), []) := by
    intro readRev reads
    unfold rangeRead
    simp only [if_neg interval]
    cases only : r.countOnly with
    | true => exact reads.eval_rangeCountOnly only
    | false => exact reads.eval_rangeScan only
  unfold range
  by_cases historic : r.revision > 0
  · obtain ⟨above, upTo⟩ := readable historic
    have revision : r.readAt h = r.revision - 1 := if_pos historic
    have shifted : fromEtcdRevision r.revision = r.revision - 1 := if_neg (by omega)
    have compact : w.node.db.compactRev ≤ r.revision - 1 := by
      rw [rep.compactRev, ← revision]
      exact (targetOf_le_watermarkOf h).trans above
    simp only [if_pos historic, shifted]
    rw [Prog.eval_ask_bind, if_neg (by simp only [World.serve]; omega)]
    split
    · rename_i first
      rw [first] at revision
      have spec : rangeSpec h r = { revision := toEtcdRevision 0 } := by
        have nothing := liveIn_zero wf revision
        have notMore : ¬ (0 < r.limit ∧ r.limit < 0) := by omega
        simp [rangeSpec, nothing, revision, cut, notMore]
      rw [spec]
      rfl
    · rename_i later
      have pos : 1 ≤ r.readAt h := by omega
      rw [← revision, read _ (Reads.revision rep wf pos above upTo)]
      rfl
  · have head : r.readAt h = revisionOf h := if_neg historic
    have shifted : fromEtcdRevision r.revision = 0 := if_pos (by omega)
    simp only [if_neg historic, shifted]
    have reads := Reads.head rep wf
    rw [← head] at reads
    exact read _ reads

/-- Every key from `[1]` on, two revisions back and at most one of them. -/
def sampleRange : RangeRequest := { key := [1], rangeEnd := [0], revision := 3, limit := 1 }

theorem range_exact_sampleRange :
    ∃ w : World, w.node.db.Represents sampleHistory ∧
      Prog.eval w.serve (range .linearizable sampleRange) =
        (.ok (rangeSpec sampleHistory sampleRange), []) ∧
      ([1], { key := [1], value := [8], revision := 2, createRevision := 1, prevRevision := 1,
              version := 2 }) ∈ liveIn sampleHistory sampleRange := by
  have wf := sampleHistory_chained.wellFormed
  obtain ⟨s, -, rep⟩ := Store.represents_empty.apply (by simpa using wf)
  refine ⟨World.ofStore s, rep, ?_, ?_⟩
  · exact range_exact .linearizable (World.ofStore s) rep wf sampleRange (by decide)
      (fun _ => ⟨by decide, by decide⟩)
  · rw [liveIn, mem_filter, Timeline.mem_liveAt]
    exact ⟨by decide +kernel, by decide⟩

end T4.Etcd
