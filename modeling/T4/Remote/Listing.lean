import T4.Lib.Epochs
import T4.Lib.Lists
import T4.Remote.Replay

/-!
# What a listing of WAL objects supplies

`replayRemote` over objects of any number of terms. The objects are seen as pieces of
overlapping logs (`Lists`): a term is an epoch, a key names the epoch and the first
sequence. `walTermCutoffs` computes the smallest first sequence of the later terms, so
the entries collected are those the pieces supply above `afterSeq`
(`mem_collectEntries_iff`); sorting and merging them leaves the one list in sequence order
(`remoteBatch_eq_ok_iff`).
-/

namespace T4.Remote

open Lib Bytes SortedMap Wal Mvcc Recovery List

/-! ## Objects as pieces -/

/-- The entries read from an object. -/
def Holds (bytes : Bytes) (entries : List Entry) : Prop :=
  ∃ version body, newSegmentReader bytes = .ok (version, body) ∧ readAll version body = entries

/-- The objects hold the pieces, each under its key. -/
def Lists (objects : WalObjects) (pieces : List (Piece Entry)) : Prop :=
  List.Forall₂ (fun o p => o.1 = p.key ∧ Holds o.2 p.items) objects.entries pieces

def segmentObjects (pieces : List (Piece Entry))
    (sorted : pieces.Pairwise (fun p q => p.key < q.key)) : WalObjects :=
  ⟨pieces.map (fun p => (p.key, segHeader p.epoch p.first ++ frames p.items)),
    pairwise_map.mpr sorted⟩

variable {pieces : List (Piece Entry)} {objects : WalObjects} {e a : Entry} {all : List Entry}

theorem lists_segmentObjects (sorted : pieces.Pairwise (fun p q => p.key < q.key))
    (framed : ∀ p ∈ pieces, ∀ e ∈ p.items, Framed e) :
    Lists (segmentObjects pieces sorted) pieces := by
  refine forall₂_map_left_iff.mpr (forall₂_same.mpr ?_)
  intro p mem
  have read := readAll_frames (framed p mem) torn_nil
  rw [append_nil] at read
  exact ⟨rfl, _, _, newSegmentReader_segHeader p.epoch p.first _, read⟩

theorem Lists.keys (lists : Lists objects pieces) :
    objects.entries.map Prod.fst = pieces.map Piece.key := by
  unfold Lists at lists
  generalize objects.entries = entries at lists ⊢
  induction lists with
  | nil => rfl
  | cons here _ ih => rw [map_cons, map_cons, here.1, ih]

theorem Lists.sorted (lists : Lists objects pieces) :
    pieces.Pairwise (fun p q => p.key < q.key) := by
  have sorted : (objects.entries.map Prod.fst).Pairwise (· < ·) :=
    pairwise_map.mpr objects.sorted
  rw [lists.keys] at sorted
  exact pairwise_map.mp sorted

theorem Lists.readSegments (lists : Lists objects pieces) :
    readSegments objects.entries = .ok (pieces.map (fun p => (p.epoch, p.items))) := by
  unfold Lists at lists
  generalize objects.entries = entries at lists ⊢
  induction lists with
  | nil => rfl
  | @cons o p _ _ here _ ih =>
    obtain ⟨key, bytes⟩ := o
    obtain ⟨rfl, version, body, header, read⟩ := here
    rw [Remote.readSegments, header]
    simp only [ih, read]
    rfl

theorem Lists.eraseMany (lists : Lists objects pieces) (gone : List SegmentName) :
    Lists (objects.eraseMany gone) (pieces.filter (fun p => p.key ∉ gone)) := by
  have filtered : (objects.eraseMany gone).entries =
      objects.entries.filter (fun e => e.1 ∉ gone) :=
    filter_congr (fun e _ => by simp)
  unfold Lists at lists ⊢
  rw [filtered]
  generalize objects.entries = entries at lists ⊢
  induction lists with
  | nil => exact .nil
  | @cons o p _ _ here _ ih =>
    by_cases isGone : o.1 ∈ gone
    · have alsoGone : p.key ∈ gone := here.1 ▸ isGone
      rw [filter_cons_of_neg (by simpa using isGone),
        filter_cons_of_neg (by simpa using alsoGone)]
      exact ih
    · have stays : p.key ∉ gone := here.1 ▸ isGone
      rw [filter_cons_of_pos (by simpa using isGone),
        filter_cons_of_pos (by simpa using stays)]
      exact .cons here ih

/-! ## Cutoffs -/

/-- A fold meets a condition if it starts with it and every element allows it. -/
theorem lt_minFirstRev_iff {keys : List SegmentName} {term : Nat} {x : Int} :
    (∀ fr ∈ minFirstRev keys term, x < fr) ↔
      ∀ key ∈ keys, (ofLex key).1 = term → x < (ofLex key).2 := by
  -- The loop keeps the smallest first sequence met so far.
  refine (foldl_iff (P := fun existing : Option Int => ∀ rev ∈ existing, x < rev)
    (Q := fun key => (ofLex key).1 = term → x < (ofLex key).2) ?_ keys none).trans (by simp)
  intro existing key
  by_cases same : (ofLex key).1 = term
  · cases existing with
    | none => simp [same]
    | some rev =>
      rw [if_pos same]
      simp only [Option.mem_some_iff, forall_eq', same, forall_const]
      constructor
      · intro least
        split at least
        · exact ⟨by omega, by omega⟩
        · exact ⟨by omega, by omega⟩
      · rintro ⟨held, here⟩
        split
        · exact here
        · exact held
  · simp [same]

theorem lt_walTermCutoffs_iff {keys : List SegmentName} {term : Nat} {x : Int} :
    x < walTermCutoffs keys term ↔
      x < maxInt64 ∧ ∀ key ∈ keys, term < (ofLex key).1 → x < (ofLex key).2 := by
  refine (foldl_iff (P := fun c => x < c)
    (Q := fun t => term < t → ∀ fr ∈ minFirstRev keys t, x < fr) ?step _ _).trans
    (and_congr_right fun _ => ?_)
  case step =>
    intro c t
    cases minFirstRev keys t with
    | none => simp
    | some fr =>
      simp only [Option.mem_some_iff, forall_eq', gt_iff_lt]
      constructor
      · intro least
        split at least
        · exact ⟨by omega, fun _ => least⟩
        · exact ⟨least, fun _ => by omega⟩
      · rintro ⟨held, here⟩
        split
        · rename_i taken
          exact here taken.1
        · exact held
  constructor
  · intro below key mem later
    exact lt_minFirstRev_iff.mp (below _ (mem_map_of_mem mem) later) key mem rfl
  · intro below t mem later
    refine lt_minFirstRev_iff.mpr ?_
    rintro key isKey rfl
    exact below key isKey later

/-! ## Collecting and merging -/

theorem numbered_of_consecutive {first : Int} {es : List Entry}
    (consecutive : Consecutive first es) :
    Numbered Entry.sequence first es := by
  induction es generalizing first with
  | nil => trivial
  | cons e rest ih => exact ⟨consecutive.1, ih consecutive.2⟩

/-- The entries to replay: supplied by the pieces, above `afterSeq`. -/
def Replayed (pieces : List (Piece Entry)) (afterSeq : Int) (e : Entry) : Prop :=
  Supplies Entry.sequence pieces e ∧ afterSeq < e.sequence ∧ e.sequence < maxInt64

/-- The entries `replayRemote` collects from the pieces. -/
def collected (pieces : List (Piece Entry)) (afterSeq : Int) : List Entry :=
  collectEntries (pieces.map Piece.key) afterSeq (pieces.map (fun p => (p.epoch, p.items)))

theorem mem_collected_iff {afterSeq : Int} :
    e ∈ collected pieces afterSeq ↔ Replayed pieces afterSeq e := by
  unfold collected collectEntries Replayed Supplies
  simp only [mem_flatMap, mem_map, mem_filter, applicable, decide_eq_true_eq,
    not_le, ge_iff_le, lt_walTermCutoffs_iff]
  constructor
  · rintro ⟨_, ⟨p, mem, rfl⟩, inP, above, fits, below⟩
    refine ⟨⟨p, mem, inP, ?_⟩, above, fits⟩
    intro q memQ newer
    exact below q.key ⟨q, memQ, rfl⟩ newer
  · rintro ⟨⟨p, mem, inP, newest⟩, above, fits⟩
    refine ⟨_, ⟨p, mem, rfl⟩, inP, above, fits, ?_⟩
    rintro _ ⟨q, memQ, rfl⟩ newer
    exact newest q memQ newer

theorem collected_pairwise (named : WellNamed Entry.sequence pieces) (afterSeq : Int) :
    (collected pieces afterSeq).Pairwise (fun a b => a.sequence ≠ b.sequence) := by
  unfold collected collectEntries
  rw [flatMap_map, pairwise_flatMap]
  constructor
  · intro p mem
    exact ((named.numbered p mem).pairwise.imp (fun less => less.ne)).filter _
  · refine named.sorted.imp_of_mem ?_
    intro p q memP memQ less a inP b inQ same
    simp only [mem_filter, applicable, decide_eq_true_eq, not_le, ge_iff_le,
      lt_walTermCutoffs_iff] at inP inQ
    obtain ⟨inP, -, -, newestP⟩ := inP
    obtain ⟨inQ, -, -, newestQ⟩ := inQ
    have samePiece : p = q :=
      named.supplier_unique memP inP (fun r mem => newestP r.key (mem_map_of_mem mem))
        memQ inQ (fun r mem => newestQ r.key (mem_map_of_mem mem)) same
    exact less.ne (congrArg Piece.key samePiece)

theorem SortsBefore.total (a b : Entry) : SortsBefore a b ∨ SortsBefore b a := by
  unfold SortsBefore
  omega

theorem SortsBefore.trans {b c : Entry} (first : SortsBefore a b) (second : SortsBefore b c) :
    SortsBefore a c := by
  unfold SortsBefore at *
  omega

instance : Std.Total SortsBefore := ⟨SortsBefore.total⟩

instance : IsTrans Entry SortsBefore := ⟨fun _ _ _ => SortsBefore.trans⟩

theorem exists_mem_mergeEntry {merged : List Entry} (mem : a ∈ e :: merged) :
    ∃ b ∈ mergeEntry merged e, b.sequence = a.sequence ∧ a.term ≤ b.term := by
  cases merged with
  | nil => exact ⟨a, mem, rfl, le_rfl⟩
  | cons last front =>
    rw [mergeEntry]
    split_ifs with same newer
    · rcases mem_cons.mp mem with rfl | old
      · exact ⟨a, by simp, rfl, le_rfl⟩
      · rcases mem_cons.mp old with rfl | older
        · exact ⟨e, by simp, same.symm, newer⟩
        · exact ⟨a, mem_cons_of_mem _ older, rfl, le_rfl⟩
    · rcases mem_cons.mp mem with rfl | old
      · exact ⟨last, by simp, same, by omega⟩
      · exact ⟨a, old, rfl, le_rfl⟩
    · exact ⟨a, mem, rfl, le_rfl⟩

theorem mem_of_mem_mergeEntry {merged : List Entry} (mem : a ∈ mergeEntry merged e) :
    a ∈ e :: merged := by
  cases merged with
  | nil => exact mem
  | cons last front =>
    rw [mergeEntry] at mem
    split_ifs at mem <;> grind

theorem exists_mem_mergeEntries (mem : a ∈ all) :
    ∃ b ∈ mergeEntries all, b.sequence = a.sequence ∧ a.term ≤ b.term := by
  have folded : ∀ (rest merged : List Entry) (a : Entry), a ∈ rest ∨ a ∈ merged →
      ∃ b ∈ rest.foldl mergeEntry merged, b.sequence = a.sequence ∧ a.term ≤ b.term := by
    intro rest
    induction rest with
    | nil =>
      rintro merged a (none | held)
      · cases none
      · exact ⟨a, held, rfl, le_rfl⟩
    | cons e rest ih =>
      intro merged a mem
      rw [foldl_cons]
      by_cases later : a ∈ rest
      · exact ih _ a (Or.inl later)
      · have here : a ∈ e :: merged := by
          simp only [mem_cons] at mem ⊢
          tauto
        obtain ⟨b, kept, same, newer⟩ := exists_mem_mergeEntry here
        obtain ⟨c, final, same', newer'⟩ := ih _ b (Or.inr kept)
        exact ⟨c, final, same'.trans same, newer.trans newer'⟩
  obtain ⟨b, kept, same, newer⟩ := folded (all.insertionSort SortsBefore) [] a
    (Or.inl ((mem_insertionSort SortsBefore).mpr mem))
  exact ⟨b, mem_reverse.mpr kept, same, newer⟩

theorem mem_of_mem_mergeEntries (mem : a ∈ mergeEntries all) : a ∈ all := by
  have folded : ∀ rest merged : List Entry, a ∈ rest.foldl mergeEntry merged →
      a ∈ rest ∨ a ∈ merged := by
    intro rest
    induction rest with
    | nil => exact fun merged held => Or.inr held
    | cons e rest ih =>
      intro merged held
      rcases ih _ held with later | here
      · exact Or.inl (mem_cons_of_mem _ later)
      · rcases mem_cons.mp (mem_of_mem_mergeEntry here) with rfl | old
        · exact Or.inl (by simp)
        · exact Or.inr old
  rcases folded _ [] (mem_reverse.mp mem) with sorted | none
  · exact (mem_insertionSort SortsBefore).mp sorted
  · cases none

theorem mergeEntries_spec (distinct : all.Pairwise (fun a b => a.sequence ≠ b.sequence)) :
    (∀ e, e ∈ mergeEntries all ↔ e ∈ all) ∧
      (mergeEntries all).Pairwise (fun a b => a.sequence < b.sequence) := by
  have sorted : (all.insertionSort SortsBefore).Pairwise (fun a b => a.sequence < b.sequence) := by
    have ordered := pairwise_insertionSort SortsBefore all
    have apart : (all.insertionSort SortsBefore).Pairwise (fun a b => a.sequence ≠ b.sequence) :=
      (perm_insertionSort SortsBefore all).symm.pairwise distinct (fun differ => differ.symm)
    refine (ordered.and apart).imp ?_
    rintro a b ⟨less | ⟨same, _⟩, differ⟩
    · exact less
    · exact absurd same differ
  have merged : mergeEntries all = all.insertionSort SortsBefore := by
    rw [mergeEntries, foldl_mergeEntry sorted (by simp), append_nil, reverse_reverse]
  rw [merged]
  exact ⟨fun e => mem_insertionSort SortsBefore, sorted⟩

/-! ## The batch handed to the store -/

/-- The entries `replayRemote` gives to `Recover`. -/
def remoteBatch (objects : WalObjects) (afterSeq : Int) : Except RemoteError (List Entry) :=
  match readSegments objects.entries with
  | .error err => .error err
  | .ok segments =>
    let merged := mergeEntries
      (collectEntries (objects.entries.map Prod.fst) afterSeq segments)
    match firstHole (afterSeq + 1) merged with
    | some err => .error err
    | none => .ok merged

theorem replayRemote_eq_recover (db : Store) (objects : WalObjects) (afterSeq : Int) :
    replayRemote db objects afterSeq =
      match remoteBatch objects afterSeq with
      | .error err => .error err
      | .ok batch =>
        match db.recover batch with
        | (_, some err) => .error (.store err)
        | (db, none) => .ok db := by
  unfold replayRemote remoteBatch
  cases readSegments objects.entries with
  | error err => rfl
  | ok segments =>
    dsimp only [replayEntries]
    split
    · rename_i empty
      rw [empty]
      rfl
    · cases firstHole (afterSeq + 1) _ with
      | none => rfl
      | some err => rfl

theorem eq_of_increasing {l l' : List Entry}
    (sorted : l.Pairwise (fun a b => a.sequence < b.sequence))
    (sorted' : l'.Pairwise (fun a b => a.sequence < b.sequence))
    (same : ∀ e, e ∈ l ↔ e ∈ l') : l = l' := by
  have distinct : ∀ {l : List Entry}, l.Pairwise (fun a b => a.sequence < b.sequence) → l.Nodup :=
    fun sorted => sorted.imp (fun less equal => less.ne (congrArg Entry.sequence equal))
  refine List.Perm.eq_of_pairwise ?_ sorted sorted'
    ((perm_ext_iff_of_nodup (distinct sorted) (distinct sorted')).mpr same)
  intro a b _ _ less greater
  exact absurd less greater.asymm

section Batch

variable {objects : WalObjects} {pieces : List (Piece Entry)}

theorem Lists.remoteBatch_eq (lists : Lists objects pieces) (afterSeq : Int) :
    remoteBatch objects afterSeq =
      match firstHole (afterSeq + 1) (mergeEntries (collected pieces afterSeq)) with
      | some err => .error err
      | none => .ok (mergeEntries (collected pieces afterSeq)) := by
  rw [remoteBatch, lists.readSegments, lists.keys]
  rfl

/-- **The batch.** Replay succeeds with the entries supplied above `afterSeq`, when
these have no hole. -/
theorem Lists.remoteBatch_eq_ok_iff (lists : Lists objects pieces)
    (named : WellNamed Entry.sequence pieces) {afterSeq : Int} {batch : List Entry} :
    remoteBatch objects afterSeq = .ok batch ↔
      Consecutive (afterSeq + 1) batch ∧ ∀ e, e ∈ batch ↔ Replayed pieces afterSeq e := by
  obtain ⟨members, sorted⟩ := mergeEntries_spec (collected_pairwise named afterSeq)
  have isReplayed : ∀ e, e ∈ mergeEntries (collected pieces afterSeq) ↔
      Replayed pieces afterSeq e :=
    fun e => (members e).trans mem_collected_iff
  rw [lists.remoteBatch_eq]
  cases holes : firstHole (afterSeq + 1) (mergeEntries (collected pieces afterSeq)) with
  | none =>
    have consecutive := firstHole_eq_none_iff.mp holes
    constructor
    · intro same
      cases Except.ok.inj same
      exact ⟨consecutive, isReplayed⟩
    · rintro ⟨batchConsecutive, batchMembers⟩
      refine congrArg Except.ok (eq_of_increasing sorted batchConsecutive.pairwise ?_)
      intro e
      rw [isReplayed, batchMembers]
  | some err =>
    refine iff_of_false (by simp) ?_
    rintro ⟨consecutive, batchMembers⟩
    have same : mergeEntries (collected pieces afterSeq) = batch := by
      refine eq_of_increasing sorted consecutive.pairwise ?_
      intro e
      rw [isReplayed, batchMembers]
    rw [same, firstHole_eq_none_iff.mpr consecutive] at holes
    cases holes

/-- The batch depends only on what is supplied above `afterSeq`. -/
theorem Lists.remoteBatch_congr (lists : Lists objects pieces)
    (named : WellNamed Entry.sequence pieces) {others : WalObjects}
    {otherPieces : List (Piece Entry)} (otherLists : Lists others otherPieces)
    (otherNamed : WellNamed Entry.sequence otherPieces) {afterSeq : Int}
    (same : ∀ e, Replayed pieces afterSeq e ↔ Replayed otherPieces afterSeq e) :
    remoteBatch objects afterSeq = remoteBatch others afterSeq := by
  obtain ⟨members, sorted⟩ := mergeEntries_spec (collected_pairwise named afterSeq)
  obtain ⟨otherMembers, otherSorted⟩ := mergeEntries_spec (collected_pairwise otherNamed afterSeq)
  have equal : mergeEntries (collected pieces afterSeq) =
      mergeEntries (collected otherPieces afterSeq) := by
    refine eq_of_increasing sorted otherSorted ?_
    intro e
    rw [members, otherMembers, mem_collected_iff, mem_collected_iff, same]
  rw [lists.remoteBatch_eq, otherLists.remoteBatch_eq, equal]

end Batch

end T4.Remote
