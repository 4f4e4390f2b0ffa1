import T4.Store.Machine

/-!
# Batches that fail

`Apply` and `Recover` collect their writes in a Pebble batch and commit it at the end, so an
entry that is refused, or a commit that fails, leaves Pebble and the two counters that
`commitBatch` advances as they were. The watermark is the exception: `applyCompact` advances
it in memory as soon as the compaction was scanned.

`endsWith` says where the watermark stands when a batch stops, for both loops at once.
-/

namespace T4.Mvcc

open Lib Bytes SortedMap Wal

/-! ## Batches whose commit may fail -/

inductive BatchError
  | entry (err : StoreError)
  /-- Pebble did not commit. -/
  | commit
  deriving DecidableEq

def endBatch (s : Store) (commits : Bool) : Batch × Option StoreError → Store × Option BatchError
  | (b, some err) => ({ s with compactRev := b.compactRev }, some (.entry err))
  | (b, none) =>
    if commits then (commitBatch s b, none)
    else ({ s with compactRev := b.compactRev }, some .commit)

/-- `Apply`, where Pebble may refuse to commit. -/
def Store.applyOn (s : Store) (commits : Bool) (entries : List Entry) :
    Store × Option BatchError :=
  if entries = [] then (s, none)
  else endBatch s commits (runBatch (applyOne s.db) { compactRev := s.compactRev } entries)

/-- `Recover`, where Pebble may refuse to commit. -/
def Store.recoverOn (s : Store) (commits : Bool) (entries : List Entry) :
    Store × Option BatchError :=
  if entries = [] then (s, none)
  else endBatch s commits (runBatch (recoverOne s.db) { compactRev := s.compactRev } entries)

theorem endBatch_true (s : Store) (outcome : Batch × Option StoreError) :
    endBatch s true outcome =
      ((finishBatch s outcome).1, (finishBatch s outcome).2.map .entry) := by
  obtain ⟨b, err | err⟩ := outcome <;> rfl

theorem Store.applyOn_true (s : Store) (entries : List Entry) :
    s.applyOn true entries = ((s.apply entries).1, (s.apply entries).2.map .entry) := by
  unfold Store.applyOn Store.apply
  split
  · rfl
  · exact endBatch_true s _

theorem Store.recoverOn_true (s : Store) (entries : List Entry) :
    s.recoverOn true entries = ((s.recover entries).1, (s.recover entries).2.map .entry) := by
  unfold Store.recoverOn Store.recover
  split
  · rfl
  · exact endBatch_true s _

/-! ## Where a batch stops -/

/-- The entry is refused: a compaction that meets a record it cannot decode, or a transaction
whose payload is damaged. -/
def entryFails (db : Pebble) (compactRev : Int) (e : Entry) : Bool :=
  if e.op = Op.compact then
    !(compactScan db e.prevRevision (db.range (logKey compactRev) (logKey e.prevRevision))).isOk
  else e.op = Op.txn && !(decodeTxnOps e.value).isOk

def watermarkAfter (compactRev : Int) (e : Entry) : Int :=
  if e.op = Op.compact then e.prevRevision else compactRev

/-- The entries before the first one that is refused. -/
def beforeFailure (db : Pebble) : Int → List Entry → List Entry
  | _, [] => []
  | compactRev, e :: rest =>
    if entryFails db compactRev e then []
    else e :: beforeFailure db (watermarkAfter compactRev e) rest

/-- What a loop body does to the watermark. -/
def BodySpec (db : Pebble) (body : Batch → Entry → Except StoreError Batch) : Prop :=
  ∀ b e, (entryFails db b.compactRev e = true → ∃ err, body b e = .error err) ∧
    (entryFails db b.compactRev e = false →
      ∃ b', body b e = .ok b' ∧ b'.compactRev = watermarkAfter b.compactRev e)

theorem applyOne_spec (db : Pebble) : BodySpec db (applyOne db) := by
  intro b e
  unfold applyOne entryFails watermarkAfter
  by_cases compaction : e.op = Op.compact
  · simp only [if_pos compaction, applyCompact]
    cases compactScan db e.prevRevision
      (db.range (logKey b.compactRev) (logKey e.prevRevision)) with
    | error err => exact ⟨fun _ => ⟨err, rfl⟩, nofun⟩
    | ok deletes => exact ⟨nofun, fun _ => ⟨_, rfl, rfl⟩⟩
  · simp only [if_neg compaction, applyEntry, applyTxnEntry]
    by_cases txn : e.op = Op.txn
    · simp only [txn, decide_true, Bool.true_and]
      cases decodeTxnOps e.value with
      | error err => exact ⟨fun _ => ⟨_, rfl⟩, nofun⟩
      | ok ops => exact ⟨nofun, fun _ => ⟨_, rfl, rfl⟩⟩
    · simp only [txn, decide_false, Bool.false_and]
      exact ⟨nofun, fun _ => ⟨_, rfl, rfl⟩⟩

theorem recoverOne_spec (db : Pebble) : BodySpec db (recoverOne db) := by
  intro b e
  unfold recoverOne
  split
  · exact applyOne_spec db b e
  · exact applyOne_spec db { b with ops := b.ops ++ cleanup db e } e

theorem BodySpec.endsWith {db : Pebble} {body : Batch → Entry → Except StoreError Batch}
    (spec : BodySpec db body) (b : Batch) (entries : List Entry) :
    (runBatch body b entries).1.compactRev =
      (beforeFailure db b.compactRev entries).foldl watermarkAfter b.compactRev ∧
    ((runBatch body b entries).2 = none ↔ beforeFailure db b.compactRev entries = entries) := by
  induction entries generalizing b with
  | nil => exact ⟨rfl, iff_of_true rfl rfl⟩
  | cons e rest ih =>
    rw [beforeFailure]
    cases fails : entryFails db b.compactRev e with
    | true =>
      obtain ⟨err, refused⟩ := (spec b e).1 fails
      simp only [runBatch, refused, if_true]
      exact ⟨rfl, iff_of_false nofun nofun⟩
    | false =>
      obtain ⟨b', accepted, watermark⟩ := (spec b e).2 fails
      have later := ih b'
      rw [watermark] at later
      simp only [runBatch, accepted, Bool.false_eq_true, if_false, List.foldl_cons]
      exact ⟨later.1, by rw [later.2, List.cons_inj_right]⟩

/-! ## What a failed batch leaves -/

/-- What a client sees of a store is the same. -/
structure SameView (s t : Store) : Prop where
  currentRev : t.currentRev = s.currentRev
  lastSeq : t.lastSeq = s.lastSeq
  compactRev : t.compactRev = s.compactRev
  get : ∀ key, t.get key = s.get key
  getAt : ∀ key revision, t.getAt key revision = s.getAt key revision
  list : ∀ pfx opts, t.listRange pfx opts = s.listRange pfx opts

theorem SameView.refl (s : Store) : SameView s s :=
  ⟨rfl, rfl, rfl, fun _ => rfl, fun _ _ => rfl, fun _ _ => rfl⟩

/-- The batch is not applied: an entry is refused, or the commit fails. -/
def BatchFails (s : Store) (commits : Bool) (entries : List Entry) : Prop :=
  entries ≠ [] ∧ (beforeFailure s.db s.compactRev entries ≠ entries ∨ commits = false)

/-- The last compaction before the point of failure, if there is one, is one to the watermark
that is reached already. -/
def KeepsWatermark (s : Store) (entries : List Entry) : Prop :=
  (beforeFailure s.db s.compactRev entries).foldl watermarkAfter s.compactRev = s.compactRev

theorem BodySpec.unchanged_iff {body : Batch → Entry → Except StoreError Batch} {s : Store}
    (spec : BodySpec s.db body) (commits : Bool) {entries : List Entry} (some : entries ≠ []) :
    ((endBatch s commits (runBatch body { compactRev := s.compactRev } entries)).2 ≠ none →
      SameView s (endBatch s commits (runBatch body { compactRev := s.compactRev } entries)).1) ↔
    (BatchFails s commits entries → KeepsWatermark s entries) := by
  obtain ⟨watermark, finished⟩ := spec.endsWith { compactRev := s.compactRev } entries
  generalize runBatch body { compactRev := s.compactRev } entries = outcome at watermark finished ⊢
  obtain ⟨b, err⟩ := outcome
  have viewed : SameView s { s with compactRev := b.compactRev } ↔ KeepsWatermark s entries := by
    rw [KeepsWatermark, ← watermark]
    constructor
    · intro view
      exact view.compactRev
    · intro same
      have whole : ({ s with compactRev := b.compactRev } : Store) = s := Store.ext rfl rfl same rfl
      rw [whole]
      exact SameView.refl s
  cases err with
  | some err =>
    have fails : BatchFails s commits entries := ⟨some, .inl (fun all => nomatch finished.mpr all)⟩
    exact (imp_iff_right nofun).trans (viewed.trans (imp_iff_right fails).symm)
  | none =>
    cases commits with
    | true =>
      have succeeds : ¬ BatchFails s true entries := by
        rintro ⟨-, refused | failed⟩
        · exact refused (finished.mp rfl)
        · cases failed
      exact iff_of_true (fun failed => absurd rfl failed) (fun fails => absurd fails succeeds)
    | false =>
      have fails : BatchFails s false entries := ⟨some, .inr rfl⟩
      exact (imp_iff_right nofun).trans (viewed.trans (imp_iff_right fails).symm)

/-- **A failed batch changes nothing** exactly if it stops before a compaction has moved the
watermark. -/
theorem failedBatch_unchanged_iff (s : Store) (commits : Bool) (entries : List Entry) :
    (((s.applyOn commits entries).2 ≠ none → SameView s (s.applyOn commits entries).1) ↔
      (BatchFails s commits entries → KeepsWatermark s entries)) ∧
    (((s.recoverOn commits entries).2 ≠ none → SameView s (s.recoverOn commits entries).1) ↔
      (BatchFails s commits entries → KeepsWatermark s entries)) := by
  unfold Store.applyOn Store.recoverOn
  by_cases empty : entries = []
  · have succeeds : ¬ BatchFails s commits entries := fun fails => fails.1 empty
    simp only [if_pos empty, ne_eq, not_true, false_implies, succeeds, and_self]
  · simp only [if_neg empty]
    exact ⟨(applyOne_spec s.db).unchanged_iff commits empty,
      (recoverOne_spec s.db).unchanged_iff commits empty⟩

/-- A store with two versions of `/a`. -/
def storedTwice : Store :=
  (Store.empty.apply [
    { id := 1, revision := 1, op := Op.create, key := [0x2f, 0x61], value := [1],
      createRevision := 1, version := 1 },
    { id := 2, revision := 2, op := Op.update, key := [0x2f, 0x61], value := [2],
      createRevision := 1, prevRevision := 1, version := 2 }]).1

/-- A compaction to revision 2, and a transaction without a payload. -/
def compactThenDamaged : List Entry :=
  [{ id := 3, revision := 2, op := Op.compact, prevRevision := 2 },
    { id := 4, revision := 3, op := Op.txn }]

/-- The batch is refused, and revision 1 is not readable any more. -/
theorem failedBatch_moves_watermark :
    (storedTwice.apply compactThenDamaged).2 ≠ none ∧
    (storedTwice.apply compactThenDamaged).1.compactRev ≠ storedTwice.compactRev ∧
    (storedTwice.getAt [0x2f, 0x61] 1).toOption.isSome ∧
    (storedTwice.apply compactThenDamaged).1.getAt [0x2f, 0x61] 1 = .error .compacted := by
  decide +kernel

end T4.Mvcc
