import T4.Remote.Listing

/-!
# Replay over what `GCSegments` leaves

`GCSegments` deletes an object when the next key's first sequence is at most
`checkpointSeq + 1`. Keys are ordered by term first, so neighbours may belong to
different terms, and deleting a later term's object also moves the cutoffs of the earlier
ones.

* At or above the checkpoint nothing changes (`replayRemote_gcSegments`).
* Below it, an entry that only deleted objects superseded comes back. The hole check
  sees a lost entry but not a revived one (`gcSegments_failsClosed_iff`).
-/

namespace T4.Remote

open Lib Bytes SortedMap Wal Mvcc Recovery List

/-- `GCSegments`. `deletes` tells which deletions took effect: all of them, unless
`DeleteMany` fails half-way. -/
def gcSegments (checkpointSeq : Int) (deletes : SegmentName → Bool) (objects : WalObjects) :
    WalObjects :=
  objects.eraseMany
    ((doomedSegments checkpointSeq (objects.entries.map Prod.fst)).filter deletes)

/-! ## What is deleted -/

theorem prunable_cons_iff {c : Int} {head p : Piece Entry} {rest : List (Piece Entry)}
    (first : ∀ q ∈ rest, head.key < q.key) (mem : p ∈ rest) :
    Prunable c (head :: rest) p ↔ Prunable c rest p := by
  have behind := first p mem
  constructor
  · rintro ⟨next, memNext, less, low, least⟩
    rcases mem_cons.mp memNext with rfl | memNext
    · exact absurd less behind.asymm
    · exact ⟨next, memNext, less, low, fun q memQ => least q (mem_cons_of_mem _ memQ)⟩
  · rintro ⟨next, memNext, less, low, least⟩
    refine ⟨next, mem_cons_of_mem _ memNext, less, low, ?_⟩
    intro q memQ after
    rcases mem_cons.mp memQ with rfl | memQ
    · exact absurd after behind.asymm
    · exact least q memQ after

theorem subset_doomedSegments (c : Int) (keys : List SegmentName) :
    doomedSegments c keys ⊆ keys := by
  induction keys with
  | nil => exact List.Subset.refl _
  | cons key rest ih =>
    cases rest with
    | nil => exact nil_subset _
    | cons next rest =>
      rw [doomedSegments]
      split
      · exact cons_subset_cons key ih
      · exact List.Subset.trans ih (subset_cons_self _ _)

/-- The objects `GCSegments` picks are those whose successor starts at or below
`checkpointSeq + 1`. -/
theorem mem_doomedSegments_iff {c : Int} {pieces : List (Piece Entry)}
    (sorted : pieces.Pairwise (fun p q => p.key < q.key)) {p : Piece Entry} (mem : p ∈ pieces) :
    p.key ∈ doomedSegments c (pieces.map Piece.key) ↔ Prunable c pieces p := by
  induction pieces with
  | nil => cases mem
  | cons head rest ih =>
    obtain ⟨first, restSorted⟩ := pairwise_cons.mp sorted
    cases rest with
    | nil =>
      cases mem_singleton.mp mem
      refine iff_of_false (by simp [doomedSegments]) ?_
      rintro ⟨next, memNext, less, -⟩
      cases mem_singleton.mp memNext
      exact absurd less (lt_irrefl _)
    | cons next rest =>
      have headAbsent : head.key ∉ doomedSegments c ((next :: rest).map Piece.key) := by
        intro doomed
        obtain ⟨q, memQ, same⟩ := mem_map.mp (subset_doomedSegments c _ doomed)
        exact absurd same (first q memQ).ne'
      have nextFirst : (ofLex next.key).2 = next.first := rfl
      rw [map_cons, map_cons, doomedSegments, nextFirst]
      rw [map_cons] at headAbsent ih
      rcases mem_cons.mp mem with rfl | memRest
      · have successor : Prunable c (p :: next :: rest) p ↔ next.first - 1 ≤ c := by
          constructor
          · rintro ⟨q, memQ, less, low, least⟩
            have isNext : q.key = next.key := by
              refine le_antisymm (least next (by simp) (first next (by simp))) ?_
              rcases mem_cons.mp memQ with rfl | memQ
              · exact absurd less (lt_irrefl _)
              · rcases mem_cons.mp memQ with rfl | memQ
                · exact le_rfl
                · exact ((pairwise_cons.mp restSorted).1 q memQ).le
            rw [(Piece.key_inj isNext).2] at low
            exact low
          · intro low
            refine ⟨next, by simp, first next (by simp), low, ?_⟩
            intro q memQ less
            rcases mem_cons.mp memQ with rfl | memQ
            · exact absurd less (lt_irrefl _)
            · rcases mem_cons.mp memQ with rfl | memQ
              · exact le_rfl
              · exact ((pairwise_cons.mp restSorted).1 q memQ).le
        rw [successor]
        split
        · rename_i low
          simp [low]
        · rename_i high
          exact iff_of_false headAbsent high
      · have differs : p.key ≠ head.key := (first p memRest).ne'
        rw [prunable_cons_iff first memRest, ← ih restSorted memRest]
        split
        · simp [differs]
        · exact Iff.rfl

section Kept

variable {objects : WalObjects} {pieces : List (Piece Entry)}

def keptPieces (checkpointSeq : Int) (deletes : SegmentName → Bool)
    (pieces : List (Piece Entry)) : List (Piece Entry) :=
  pieces.filter (fun p =>
    p.key ∉ (doomedSegments checkpointSeq (pieces.map Piece.key)).filter deletes)

theorem Lists.gcSegments (lists : Lists objects pieces) (checkpointSeq : Int)
    (deletes : SegmentName → Bool) :
    Lists (gcSegments checkpointSeq deletes objects) (keptPieces checkpointSeq deletes pieces) := by
  rw [Remote.gcSegments, lists.keys]
  exact lists.eraseMany _

theorem keptPieces_sublist (checkpointSeq : Int) (deletes : SegmentName → Bool)
    (pieces : List (Piece Entry)) : (keptPieces checkpointSeq deletes pieces).Sublist pieces :=
  filter_sublist

theorem prunable_of_not_kept (named : WellNamed Entry.sequence pieces) {checkpointSeq : Int}
    {deletes : SegmentName → Bool} {p : Piece Entry} (mem : p ∈ pieces)
    (gone : p ∉ keptPieces checkpointSeq deletes pieces) : Prunable checkpointSeq pieces p := by
  have doomed : p.key ∈ (doomedSegments checkpointSeq (pieces.map Piece.key)).filter deletes := by
    by_contra stays
    exact gone (mem_filter.mpr ⟨mem, decide_eq_true stays⟩)
  exact (mem_doomedSegments_iff named.sorted mem).mp (mem_filter.mp doomed).1

/-- **At or above the checkpoint**, replay over what `GCSegments` leaves is replay over
all objects. -/
theorem replayRemote_gcSegments (lists : Lists objects pieces)
    (named : WellNamed Entry.sequence pieces) {checkpointSeq afterSeq : Int}
    (covered : checkpointSeq ≤ afterSeq) (deletes : SegmentName → Bool) (db : Store) :
    replayRemote db (gcSegments checkpointSeq deletes objects) afterSeq =
      replayRemote db objects afterSeq := by
  have sub := keptPieces_sublist checkpointSeq deletes pieces
  have same : ∀ e, Replayed (keptPieces checkpointSeq deletes pieces) afterSeq e ↔
      Replayed pieces afterSeq e := by
    intro e
    refine and_congr_left fun inRange => ?_
    exact supplies_prune named sub.subset (fun p mem gone => prunable_of_not_kept named mem gone)
      (covered.trans_lt inRange.1)
  rw [replayRemote_eq_recover, replayRemote_eq_recover,
    (lists.gcSegments checkpointSeq deletes).remoteBatch_congr (named.sublist sub) lists named same]

/-! ## Below the checkpoint -/

/-- An entry is left above `afterSeq` of which a later term's object had superseded its
term; all such objects are gone. -/
def Revives (kept pieces : List (Piece Entry)) (afterSeq : Int) : Prop :=
  ∃ p ∈ kept, ∃ e ∈ p.items, afterSeq < e.sequence ∧ e.sequence < maxInt64 ∧
    (∃ q ∈ pieces, p.epoch < q.epoch ∧ q.first ≤ e.sequence) ∧
    ∀ q ∈ kept, p.epoch < q.epoch → e.sequence < q.first

/-- The objects supply nothing at some sequence below one that they supply. -/
def LeavesHole (kept : List (Piece Entry)) (afterSeq : Int) : Prop :=
  ∃ e, Replayed kept afterSeq e ∧ ∃ missing, afterSeq < missing ∧ missing < e.sequence ∧
    ∀ other, Replayed kept afterSeq other → other.sequence ≠ missing

/-- The objects supply something, but no longer the end of what was supplied. -/
def LosesEnd (kept pieces : List (Piece Entry)) (afterSeq : Int) : Prop :=
  (∃ e, Replayed kept afterSeq e) ∧ ∃ e, Replayed pieces afterSeq e ∧
    ∀ other, Replayed kept afterSeq other → other.sequence < e.sequence

/-- Replay over what is left fails, applies nothing, or applies what replay over all
objects applies. -/
def FailsClosed (objects left : WalObjects) (afterSeq : Int) : Prop :=
  (∃ err, remoteBatch left afterSeq = .error err) ∨ remoteBatch left afterSeq = .ok [] ∨
    ∃ batch, remoteBatch left afterSeq = .ok batch ∧ remoteBatch objects afterSeq = .ok batch

theorem Lists.remoteBatch_error_iff (lists : Lists objects pieces)
    (named : WellNamed Entry.sequence pieces) {afterSeq : Int} :
    (∃ err, remoteBatch objects afterSeq = .error err) ↔ LeavesHole pieces afterSeq := by
  constructor
  · rintro ⟨err, failed⟩
    by_contra noHole
    obtain ⟨members, sorted⟩ := mergeEntries_spec (collected_pairwise named afterSeq)
    have isReplayed : ∀ e, e ∈ mergeEntries (collected pieces afterSeq) ↔
        Replayed pieces afterSeq e :=
      fun e => (members e).trans mem_collected_iff
    have consecutive : Consecutive (afterSeq + 1) (mergeEntries (collected pieces afterSeq)) := by
      refine consecutive_of_increasing sorted ?_ ?_
      · intro e mem
        exact ((isReplayed e).mp mem).2.1
      · intro e mem missing low high
        by_contra absent
        refine noHole ⟨e, (isReplayed e).mp mem, missing, low, high, ?_⟩
        intro other replayed same
        exact absent ⟨other, (isReplayed other).mpr replayed, same⟩
    have ok := (lists.remoteBatch_eq_ok_iff named).mpr ⟨consecutive, isReplayed⟩
    cases failed.symm.trans ok
  · rintro ⟨e, replayed, missing, low, high, absent⟩
    cases outcome : remoteBatch objects afterSeq with
    | error err => exact ⟨err, rfl⟩
    | ok batch =>
      obtain ⟨consecutive, members⟩ := (lists.remoteBatch_eq_ok_iff named).mp outcome
      obtain ⟨other, mem, same⟩ :=
        consecutive.exists_mem ((members e).mpr replayed) (Int.add_one_le_iff.mpr low) high.le
      exact absurd same (absent other ((members other).mp mem))

theorem Lists.remoteBatch_nil_iff (lists : Lists objects pieces)
    (named : WellNamed Entry.sequence pieces) {afterSeq : Int} :
    remoteBatch objects afterSeq = .ok [] ↔ ∀ e, ¬ Replayed pieces afterSeq e := by
  rw [lists.remoteBatch_eq_ok_iff named]
  simp [Consecutive]

theorem not_revives {kept : List (Piece Entry)}
    (terms : ∀ p ∈ pieces, ∀ e ∈ p.items, e.term = p.epoch) (sub : kept ⊆ pieces)
    {afterSeq : Int} (same : ∀ e, Replayed kept afterSeq e → Replayed pieces afterSeq e) :
    ¬ Revives kept pieces afterSeq := by
  rintro ⟨p, memP, e, inP, above, fits, ⟨q, memQ, newer, low⟩, newest⟩
  obtain ⟨⟨r, memR, inR, newestR⟩, -⟩ := same e ⟨⟨p, memP, inP, newest⟩, above, fits⟩
  have sameTerm : p.epoch = r.epoch :=
    (terms p (sub memP) e inP).symm.trans (terms r memR e inR)
  exact absurd (newestR q memQ (sameTerm ▸ newer)) (not_lt.mpr low)

/-- **Below the checkpoint**, replay over what `GCSegments` leaves fails closed exactly
when it leaves a hole, or revives no superseded entry and does not lose the end. -/
theorem gcSegments_failsClosed_iff (lists : Lists objects pieces)
    (named : WellNamed Entry.sequence pieces)
    (terms : ∀ p ∈ pieces, ∀ e ∈ p.items, e.term = p.epoch) (checkpointSeq afterSeq : Int)
    (deletes : SegmentName → Bool) :
    FailsClosed objects (gcSegments checkpointSeq deletes objects) afterSeq ↔
      LeavesHole (keptPieces checkpointSeq deletes pieces) afterSeq ∨
        ¬ Revives (keptPieces checkpointSeq deletes pieces) pieces afterSeq ∧
          ¬ LosesEnd (keptPieces checkpointSeq deletes pieces) pieces afterSeq := by
  have sub := keptPieces_sublist checkpointSeq deletes pieces
  have keptNamed := named.sublist sub
  have keptLists := lists.gcSegments checkpointSeq deletes
  constructor
  · rintro (failed | nothing | ⟨batch, left, all⟩)
    · exact Or.inl ((keptLists.remoteBatch_error_iff keptNamed).mp failed)
    · have none := (keptLists.remoteBatch_nil_iff keptNamed).mp nothing
      refine Or.inr ⟨not_revives terms sub.subset ?_, ?_⟩
      · intro e replayed
        exact absurd replayed (none e)
      · rintro ⟨⟨e, replayed⟩, -⟩
        exact none e replayed
    · obtain ⟨-, leftMembers⟩ := (keptLists.remoteBatch_eq_ok_iff keptNamed).mp left
      obtain ⟨-, allMembers⟩ := (lists.remoteBatch_eq_ok_iff named).mp all
      refine Or.inr ⟨not_revives terms sub.subset ?_, ?_⟩
      · intro e replayed
        exact (allMembers e).mp ((leftMembers e).mpr replayed)
      · rintro ⟨-, e, replayed, below⟩
        have kept := (leftMembers e).mp ((allMembers e).mpr replayed)
        exact absurd (below e kept) (lt_irrefl _)
  · rintro (hole | ⟨noRevival, noLoss⟩)
    · exact Or.inl ((keptLists.remoteBatch_error_iff keptNamed).mpr hole)
    · cases outcome : remoteBatch (gcSegments checkpointSeq deletes objects) afterSeq with
      | error err => exact Or.inl ⟨err, outcome⟩
      | ok batch =>
        obtain ⟨consecutive, members⟩ := (keptLists.remoteBatch_eq_ok_iff keptNamed).mp outcome
        -- Without a revival, what is left was supplied before.
        have supplied : ∀ e ∈ batch, Replayed pieces afterSeq e := by
          intro e mem
          obtain ⟨⟨p, memP, inP, newest⟩, above, fits⟩ := (members e).mp mem
          refine ⟨⟨p, sub.subset memP, inP, ?_⟩, above, fits⟩
          intro q memQ newer
          by_contra low
          exact noRevival ⟨p, memP, e, inP, above, fits, ⟨q, memQ, newer, not_lt.mp low⟩, newest⟩
        by_cases empty : batch = []
        · exact Or.inr (Or.inl (by rw [outcome, empty]))
        · refine Or.inr (Or.inr ⟨batch, outcome, ?_⟩)
          refine (lists.remoteBatch_eq_ok_iff named).mpr ⟨consecutive, ?_⟩
          intro e
          refine ⟨supplied e, ?_⟩
          intro replayed
          -- Something at or above `e` is left, so the batch has an entry at its sequence.
          obtain ⟨last, isLast, beyond⟩ : ∃ last ∈ batch, e.sequence ≤ last.sequence := by
            by_contra beyondAll
            refine noLoss ⟨?_, e, replayed, ?_⟩
            · obtain ⟨some_, mem⟩ := exists_mem_of_ne_nil batch empty
              exact ⟨some_, (members some_).mp mem⟩
            · intro other otherReplayed
              by_contra notBelow
              exact beyondAll ⟨other, (members other).mpr otherReplayed, not_lt.mp notBelow⟩
          obtain ⟨other, mem, same⟩ :=
            consecutive.exists_mem isLast (Int.add_one_le_iff.mpr replayed.2.1) beyond
          have isOther : other = e := (supplied other mem).1.unique named replayed.1 same
          exact isOther ▸ mem

end Kept

/-! ## Two terms -/

def putAt (term : Nat) (sequence : Int) : Entry :=
  { id := sequence, revision := sequence, term, op := Op.create, key := [97],
    createRevision := sequence, version := 1 }

/-- Two segments of term 1, and two of term 2, which started over at sequence 1. -/
def twoTerms : List (Piece Entry) :=
  [{ epoch := 1, first := 1, items := [putAt 1 1, putAt 1 2] },
   { epoch := 1, first := 3, items := [putAt 1 3] },
   { epoch := 2, first := 1, items := [putAt 2 1] },
   { epoch := 2, first := 2, items := [putAt 2 2] }]

theorem twoTerms_named : WellNamed Entry.sequence twoTerms := by
  refine ⟨?_, ?_, ?_⟩
  · decide +kernel
  · decide +kernel
  · decide +kernel

theorem twoTerms_terms : ∀ p ∈ twoTerms, ∀ e ∈ p.items, e.term = p.epoch := by
  decide +kernel

theorem twoTerms_framed : ∀ p ∈ twoTerms, ∀ e ∈ p.items, Framed e := by
  decide +kernel

theorem twoTerms_lists : Lists (segmentObjects twoTerms twoTerms_named.sorted) twoTerms :=
  lists_segmentObjects twoTerms_named.sorted twoTerms_framed

/-- The checkpoint at sequence 1 makes one segment of each term go. -/
theorem replayRemote_gcSegments_twoTerms :
    keptPieces 1 (fun _ => true) twoTerms ≠ twoTerms ∧
      replayRemote Store.empty
          (gcSegments 1 (fun _ => true) (segmentObjects twoTerms twoTerms_named.sorted)) 1 =
        replayRemote Store.empty (segmentObjects twoTerms twoTerms_named.sorted) 1 := by
  refine ⟨?_, replayRemote_gcSegments twoTerms_lists twoTerms_named le_rfl _ _⟩
  intro same
  exact absurd (congrArg List.length same) (by decide +kernel)

/-- The checkpoint at sequence 2 leaves only the last segment, which starts above 1. -/
theorem gcSegments_failsClosed_twoTerms :
    FailsClosed (segmentObjects twoTerms twoTerms_named.sorted)
      (gcSegments 2 (fun _ => true) (segmentObjects twoTerms twoTerms_named.sorted)) 0 := by
  refine (gcSegments_failsClosed_iff twoTerms_lists twoTerms_named twoTerms_terms 2 0 _).mpr
    (Or.inl ⟨putAt 2 2, mem_collected_iff.mp (by decide +kernel), 1, by decide, by decide, ?_⟩)
  intro other replayed
  have absent : ∀ e ∈ collected (keptPieces 2 (fun _ => true) twoTerms) 0, e.sequence ≠ 1 := by
    decide +kernel
  exact absent other (mem_collected_iff.mpr replayed)

/-- The checkpoint at sequence 1 leaves the first segment of term 1 and the last one of
term 2. A node that lacks both entries is given entry 1 of term 1, which term 2 had
replaced. -/
theorem gcSegments_revives :
    ∃ objects, Lists objects twoTerms ∧ WellNamed Entry.sequence twoTerms ∧
      (∀ p ∈ twoTerms, ∀ e ∈ p.items, e.term = p.epoch) ∧
      remoteBatch objects 0 = .ok [putAt 2 1, putAt 2 2] ∧
      remoteBatch (gcSegments 1 (fun _ => true) objects) 0 = .ok [putAt 1 1, putAt 2 2] ∧
      ¬ FailsClosed objects (gcSegments 1 (fun _ => true) objects) 0 := by
  have all : remoteBatch (segmentObjects twoTerms twoTerms_named.sorted) 0 =
      .ok [putAt 2 1, putAt 2 2] := by
    rw [twoTerms_lists.remoteBatch_eq]
    decide +kernel
  have left : remoteBatch
      (gcSegments 1 (fun _ => true) (segmentObjects twoTerms twoTerms_named.sorted)) 0 =
        .ok [putAt 1 1, putAt 2 2] := by
    rw [(twoTerms_lists.gcSegments 1 (fun _ => true)).remoteBatch_eq]
    decide +kernel
  refine ⟨_, twoTerms_lists, twoTerms_named, twoTerms_terms, all, left, ?_⟩
  rintro (⟨err, failed⟩ | nothing | ⟨batch, sameLeft, sameAll⟩)
  · cases left.symm.trans failed
  · cases left.symm.trans nothing
  · cases left.symm.trans sameLeft
    exact absurd (all.symm.trans sameAll) (by decide +kernel)

end T4.Remote
