import T4.Remote.Model
import T4.Wal.Names

/-!
# Garbage collection of checkpoints

`GCCheckpoints` and `GCOrphanSSTs` of `internal/checkpoint/checkpoint.go`. A checkpoint
is an index that lists SST objects, which checkpoints share, and metadata objects of its
own. Checkpoints are known by term and revision, as in `T4.Remote`; `listRemote_keys` says
that this is the order of the object keys.

Three kinds of checkpoints survive: the newest `keep`, the one that `manifest/latest`
names, and those that a branch entry pins. The SSTs that must stay are collected from
the first and the third kind only.
-/

namespace T4.Checkpoint

open Lib SortedMap Text Remote List
open Archive (CheckpointIndex checkpointIndexKey)

/-! ## The objects -/

structure CheckpointObjects where
  /-- The indexes, each at `checkpoint/{term}/{rev}/manifest.json`. -/
  indexes : SortedMap CheckpointKey CheckpointIndex
  /-- The metadata objects at `checkpoint/{term}/{rev}/{name}`. -/
  metas : List (CheckpointKey × Bytes)
  /-- The objects under `sst/`. -/
  ssts : List Bytes
  /-- The checkpoint that `manifest/latest` names. -/
  manifest : Option CheckpointKey
  /-- The branch entries; an entry may lack its ancestor key. -/
  branches : List (Option CheckpointKey)

namespace CheckpointObjects

/-- `ListRemote`. -/
def listRemote (b : CheckpointObjects) : List CheckpointKey := b.indexes.entries.map Prod.fst

/-- The checkpoints that branch entries pin. -/
def pinnedKeys (b : CheckpointObjects) : List CheckpointKey := b.branches.filterMap id

/-- The SSTs of a checkpoint; none if its index cannot be read. -/
def sstsOf (b : CheckpointObjects) (key : CheckpointKey) : List Bytes :=
  match b.indexes.get key with
  | none => []
  | some index => index.sstFiles

def deleteCheckpoint (b : CheckpointObjects) (key : CheckpointKey) : CheckpointObjects :=
  { b with
    indexes := b.indexes.erase key
    metas := b.metas.filter (fun object => object.1 ≠ key) }

/-- The newest `keep` checkpoints. -/
def window (b : CheckpointObjects) (keep : Nat) : List CheckpointKey :=
  b.listRemote.drop (b.listRemote.length - keep)

/-- The SSTs of the newest `keep` checkpoints and of the pinned ones. -/
def liveSSTs (b : CheckpointObjects) (keep : Nat) : List Bytes :=
  (b.window keep ++ b.pinnedKeys).flatMap b.sstsOf

end CheckpointObjects

/-- The deletion loop: the objects left, and the orphan candidates. -/
def gcLoop (manifest : Option CheckpointKey) (pinned : List CheckpointKey) (live : List Bytes) :
    List CheckpointKey → CheckpointObjects → List Bytes → CheckpointObjects × List Bytes
  | [], b, candidates => (b, candidates)
  | key :: rest, b, candidates =>
    if manifest = some key then gcLoop manifest pinned live rest b candidates
    else if key ∈ pinned then gcLoop manifest pinned live rest b candidates
    else gcLoop manifest pinned live rest (b.deleteCheckpoint key)
      (candidates ++ (b.sstsOf key).filter (fun sst => sst ∉ live))

def gcCheckpoints (b : CheckpointObjects) (keep : Nat) : CheckpointObjects × List Bytes :=
  let keep := if keep < 1 then 1 else keep
  if b.listRemote.length ≤ keep then (b, [])
  else gcLoop b.manifest b.pinnedKeys (b.liveSSTs keep)
    (b.listRemote.take (b.listRemote.length - keep)) b []

def gcOrphanSSTs (b : CheckpointObjects) (candidates : List Bytes) : CheckpointObjects :=
  { b with ssts := b.ssts.filter (fun sst => sst ∉ candidates) }

/-- `GCCheckpoints` followed by `GCOrphanSSTs` on its result. -/
def collect (b : CheckpointObjects) (keep : Nat) : CheckpointObjects :=
  gcOrphanSSTs (gcCheckpoints b keep).1 (gcCheckpoints b keep).2

/-- Every checkpoint whose index is present has all its objects. -/
def Complete (b : CheckpointObjects) : Prop :=
  ∀ key index, b.indexes.get key = some index →
    (∀ sst ∈ index.sstFiles, sst ∈ b.ssts) ∧ ∀ name ∈ index.pebbleMeta, (key, name) ∈ b.metas

/-! ## Keys -/

/-- The key of the index object. -/
def indexKey (key : CheckpointKey) : Bytes := checkpointIndexKey (ofLex key).1 (ofLex key).2

/-- The manifest that a checkpoint writes names it as `T4.Remote` has it. -/
theorem manifestOf_key (c : Remote.Checkpoint) (sequence : Int) (lastWALKey : Bytes) :
    (Archive.manifestOf c.term c.revision sequence lastWALKey).checkpointKey =
      indexKey c.manifest.checkpointKey := rfl

/-- `ListRemote` on the object keys. -/
theorem listRemote_keys (b : CheckpointObjects) (fits : ∀ key ∈ b.listRemote,
      (ofLex key).1 < 10 ^ 10 ∧ 0 ≤ (ofLex key).2 ∧ (ofLex key).2 < 2 ^ 63) :
    Wal.listRemote (b.listRemote.map indexKey) = b.listRemote.map indexKey := by
  have numbered : ∀ key ∈ b.listRemote, ∃ p : Nat × Nat, Wal.InRange p ∧
      key = toLex (p.1, (p.2 : Int)) ∧ indexKey key =
        Wal.numbered (ascii "checkpoint/") [slash] (ascii "/manifest.json") p := by
    intro key mem
    obtain ⟨term, positive, revision⟩ := fits key mem
    obtain ⟨n, isRev⟩ := Int.eq_ofNat_of_zero_le positive
    refine ⟨((ofLex key).1, n), ⟨term, by dsimp only; omega⟩, ?_, ?_⟩
    · rw [← isRev]
      rfl
    · rw [indexKey, isRev]
      exact Wal.checkpointIndexKey_eq ((ofLex key).1, n)
  have indexes : ∀ key ∈ b.listRemote.map indexKey,
      hasSuffix key (ascii "/manifest.json") = true := by
    intro key mem
    obtain ⟨isListed, listed, rfl⟩ := mem_map.mp mem
    obtain ⟨p, -, -, text⟩ := numbered isListed listed
    rw [text]
    exact Wal.hasSuffix_numbered _ _ _ p
  rw [Wal.listRemote, filter_eq_self.mpr indexes, Wal.sorted]
  refine mergeSort_of_pairwise (pairwise_map.mpr ?_)
  have sorted : b.listRemote.Pairwise (· < ·) := pairwise_map.mpr b.indexes.sorted
  refine sorted.imp_of_mem ?_
  intro x y memX memY less
  obtain ⟨p, rangeP, rfl, textP⟩ := numbered x memX
  obtain ⟨q, rangeQ, rfl, textQ⟩ := numbered y memY
  rw [textP, textQ, decide_eq_true_eq]
  refine le_of_lt ((Wal.numbered_lt_iff rangeP rangeQ _ _ _).mpr ?_)
  rw [Prod.Lex.toLex_lt_toLex] at less ⊢
  exact less.imp_right (And.imp_right Int.ofNat_lt.mp)

/-! ## The deletion loop -/

variable {b : CheckpointObjects} {key : CheckpointKey} {keep : Nat}

theorem mem_listRemote_iff : key ∈ b.listRemote ↔ ∃ index, b.indexes.get key = some index := by
  simp only [CheckpointObjects.listRemote, mem_map, ← mem_entries_iff]
  constructor
  · rintro ⟨⟨_, index⟩, mem, rfl⟩
    exact ⟨index, mem⟩
  · rintro ⟨index, mem⟩
    exact ⟨(key, index), mem, rfl⟩

theorem listRemote_nodup (b : CheckpointObjects) : b.listRemote.Nodup :=
  (pairwise_map.mpr b.indexes.sorted).imp ne_of_lt

theorem sstsOf_eq {index : CheckpointIndex} (found : b.indexes.get key = some index) :
    b.sstsOf key = index.sstFiles := by
  rw [CheckpointObjects.sstsOf, found]

theorem sstsOf_deleteCheckpoint {key other : CheckpointKey} (differs : other ≠ key) :
    (b.deleteCheckpoint key).sstsOf other = b.sstsOf other := by
  simp only [CheckpointObjects.sstsOf, CheckpointObjects.deleteCheckpoint, get_erase,
    if_neg differs]

/-- The checkpoints among `keys` that the loop deletes. -/
def dropped (manifest : Option CheckpointKey) (pinned keys : List CheckpointKey) :
    List CheckpointKey :=
  keys.filter (fun key => manifest ≠ some key ∧ key ∉ pinned)

/-- What the loop makes of `b` when it deletes the checkpoints `gone`. -/
structure Deleted (live : List Bytes) (gone : List CheckpointKey) (b : CheckpointObjects)
    (candidates : List Bytes) (result : CheckpointObjects × List Bytes) : Prop where
  indexes : ∀ key, result.1.indexes.get key = if key ∈ gone then none else b.indexes.get key
  metas : ∀ object, object ∈ result.1.metas ↔ object ∈ b.metas ∧ object.1 ∉ gone
  ssts : result.1.ssts = b.ssts
  candidates : ∀ sst, sst ∈ result.2 ↔
    sst ∈ candidates ∨ sst ∉ live ∧ ∃ key ∈ gone, sst ∈ b.sstsOf key

theorem Deleted.nil (live : List Bytes) (b : CheckpointObjects) (candidates : List Bytes) :
    Deleted live [] b candidates (b, candidates) where
  indexes _ := by simp
  metas _ := by simp
  ssts := rfl
  candidates _ := by simp

theorem Deleted.cons {live : List Bytes} {gone : List CheckpointKey} {candidates : List Bytes}
    {result : CheckpointObjects × List Bytes} (absent : key ∉ gone)
    (rest : Deleted live gone (b.deleteCheckpoint key)
      (candidates ++ (b.sstsOf key).filter (fun sst => sst ∉ live)) result) :
    Deleted live (key :: gone) b candidates result where
  indexes other := by
    rw [rest.indexes]
    simp only [CheckpointObjects.deleteCheckpoint, get_erase, mem_cons]
    grind
  metas object := by
    rw [rest.metas]
    simp only [CheckpointObjects.deleteCheckpoint, mem_filter, mem_cons,
      decide_eq_true_eq]
    tauto
  ssts := rest.ssts
  candidates sst := by
    -- The other checkpoints still have their SSTs when it is their turn.
    have others : (∃ other ∈ gone, sst ∈ (b.deleteCheckpoint key).sstsOf other) ↔
        ∃ other ∈ gone, sst ∈ b.sstsOf other := by
      refine exists_congr (fun other => and_congr_right (fun mem => ?_))
      have differs : other ≠ key := by
        rintro rfl
        exact absent mem
      rw [sstsOf_deleteCheckpoint differs]
    rw [rest.candidates, others]
    simp only [mem_append, mem_filter, mem_cons, exists_eq_or_imp,
      decide_eq_true_eq]
    tauto

theorem gcLoop_deleted {manifest : Option CheckpointKey} {pinned : List CheckpointKey}
    {live : List Bytes} {keys : List CheckpointKey} (nodup : keys.Nodup)
    (b : CheckpointObjects) (candidates : List Bytes) :
    Deleted live (dropped manifest pinned keys) b candidates
      (gcLoop manifest pinned live keys b candidates) := by
  induction keys generalizing b candidates with
  | nil => exact Deleted.nil live b candidates
  | cons key rest ih =>
    obtain ⟨absent, restNodup⟩ := nodup_cons.mp nodup
    rw [gcLoop]
    split_ifs with named isPinned
    · rw [dropped, filter_cons_of_neg (by simp [named])]
      exact ih restNodup b candidates
    · rw [dropped, filter_cons_of_neg (by simp [isPinned])]
      exact ih restNodup b candidates
    · rw [dropped, filter_cons_of_pos (by simp [named, isPinned])]
      refine Deleted.cons ?_ (ih restNodup _ _)
      exact fun mem => absent (mem_filter.mp mem).1

/-! ## What is left -/

/-- The checkpoints that `GCCheckpoints` deletes. -/
def CheckpointObjects.doomed (b : CheckpointObjects) (keep : Nat) : List CheckpointKey :=
  dropped b.manifest b.pinnedKeys (b.listRemote.take (b.listRemote.length - keep))

theorem mem_doomed_iff :
    key ∈ b.doomed keep ↔
      key ∈ b.listRemote ∧ key ∉ b.window keep ∧ b.manifest ≠ some key ∧ key ∉ b.pinnedKeys := by
  have split := take_append_drop (b.listRemote.length - keep) b.listRemote
  have apart : ∀ other ∈ b.listRemote.take (b.listRemote.length - keep),
      other ∉ b.listRemote.drop (b.listRemote.length - keep) := by
    have nodup := listRemote_nodup b
    rw [← split] at nodup
    exact fun other early late => (disjoint_of_nodup_append nodup) early late
  have either : key ∈ b.listRemote ↔ key ∈ b.listRemote.take (b.listRemote.length - keep) ∨
      key ∈ b.window keep := by
    rw [CheckpointObjects.window, ← mem_append, split]
  simp only [CheckpointObjects.doomed, dropped, mem_filter, decide_eq_true_eq, either]
  have := apart key
  simp only [CheckpointObjects.window]
  tauto

theorem gcCheckpoints_deleted (b : CheckpointObjects) (positive : 1 ≤ keep) :
    Deleted (b.liveSSTs keep) (b.doomed keep) b [] (gcCheckpoints b keep) := by
  have same : (if keep < 1 then 1 else keep) = keep := if_neg (not_lt.mpr positive)
  simp only [gcCheckpoints, same]
  split_ifs with few
  · have none : b.doomed keep = [] := by
      simp [CheckpointObjects.doomed, Nat.sub_eq_zero_of_le few, dropped]
    rw [none]
    exact Deleted.nil _ b []
  · refine gcLoop_deleted ?_ b []
    exact (listRemote_nodup b).sublist (take_sublist _ _)

theorem mem_liveSSTs_iff {sst : Bytes} :
    sst ∈ b.liveSSTs keep ↔
      ∃ safe ∈ b.window keep ++ b.pinnedKeys, sst ∈ b.sstsOf safe := by
  rw [CheckpointObjects.liveSSTs, mem_flatMap]

/-- After the collection an object of a surviving checkpoint is missing exactly if it is
an SST that the checkpoint shares with a deleted one and that is not live. -/
theorem collect_complete_iff (complete : Complete b) (positive : 1 ≤ keep) :
    Complete (collect b keep) ↔
      ∀ key ∈ b.listRemote, key ∉ b.doomed keep → ∀ gone ∈ b.doomed keep,
        ∀ sst ∈ b.sstsOf key, sst ∈ b.sstsOf gone → sst ∈ b.liveSSTs keep := by
  have left := gcCheckpoints_deleted b positive
  have indexed : ∀ key index, (collect b keep).indexes.get key = some index ↔
      key ∉ b.doomed keep ∧ b.indexes.get key = some index := by
    intro key index
    change (gcCheckpoints b keep).1.indexes.get key = some index ↔ _
    rw [left.indexes]
    split_ifs with gone <;> simp [gone]
  have stored : ∀ sst, sst ∈ (collect b keep).ssts ↔ sst ∈ b.ssts ∧
      ¬ (sst ∉ b.liveSSTs keep ∧ ∃ gone ∈ b.doomed keep, sst ∈ b.sstsOf gone) := by
    intro sst
    simp only [collect, gcOrphanSSTs, mem_filter, decide_eq_true_eq, left.ssts,
      left.candidates, not_mem_nil, false_or]
  constructor
  · intro after key listed kept gone isGone sst listedKey listedGone
    obtain ⟨index, found⟩ := mem_listRemote_iff.mp listed
    rw [sstsOf_eq found] at listedKey
    have present := (stored sst).mp
      ((after key index ((indexed key index).mpr ⟨kept, found⟩)).1 sst listedKey)
    by_contra dead
    exact present.2 ⟨dead, gone, isGone, listedGone⟩
  · intro shared key index found
    obtain ⟨kept, before⟩ := (indexed key index).mp found
    obtain ⟨hasSsts, hasMetas⟩ := complete key index before
    constructor
    · intro sst mem
      refine (stored sst).mpr ⟨hasSsts sst mem, ?_⟩
      rintro ⟨dead, gone, isGone, listedGone⟩
      exact dead (shared key (mem_listRemote_iff.mpr ⟨index, before⟩) kept gone isGone sst
        (by rwa [sstsOf_eq before]) listedGone)
    · intro name mem
      exact (left.metas (key, name)).mpr ⟨hasMetas name mem, kept⟩

/-! ## The manifest's checkpoint -/

/-- Every SST that the manifest's checkpoint shares with a checkpoint that is neither
among the newest `keep` nor pinned is also listed by one that is. -/
def ManifestCovered (b : CheckpointObjects) (keep : Nat) : Prop :=
  ∀ manifest, b.manifest = some manifest → ∀ other ∈ b.listRemote, other ≠ manifest →
    other ∉ b.window keep → other ∉ b.pinnedKeys →
      ∀ sst ∈ b.sstsOf manifest, sst ∈ b.sstsOf other →
        ∃ safe ∈ b.window keep ++ b.pinnedKeys, sst ∈ b.sstsOf safe

theorem collect_complete {b : CheckpointObjects} (complete : Complete b)
    (named : ∀ key, b.manifest = some key → key ∈ b.listRemote) {keep : Nat}
    (positive : 1 ≤ keep) :
    (∀ key, b.manifest = some key ∨ key ∈ b.pinnedKeys ∨ key ∈ b.window keep →
      (collect b keep).indexes.get key = b.indexes.get key) ∧
    (Complete (collect b keep) ↔ ManifestCovered b keep) := by
  refine ⟨?_, ?_⟩
  · intro key survives
    have kept : key ∉ b.doomed keep := by
      rw [mem_doomed_iff]
      tauto
    exact ((gcCheckpoints_deleted b positive).indexes key).trans (if_neg kept)
  rw [collect_complete_iff complete positive]
  constructor
  · intro shared manifest isManifest other listed differs outside notPinned sst inManifest inOther
    have kept : manifest ∉ b.doomed keep := fun mem => (mem_doomed_iff.mp mem).2.2.1 isManifest
    have gone : other ∈ b.doomed keep := by
      refine mem_doomed_iff.mpr ⟨listed, outside, ?_, notPinned⟩
      rw [isManifest]
      exact fun same => differs (Option.some.inj same).symm
    exact mem_liveSSTs_iff.mp
      (shared manifest (named manifest isManifest) kept other gone sst inManifest inOther)
  · intro covered key listed kept gone isGone sst inKey inGone
    obtain ⟨goneListed, outside, notManifest, notPinned⟩ := mem_doomed_iff.mp isGone
    rw [mem_liveSSTs_iff]
    by_cases safe : key ∈ b.window keep ∨ key ∈ b.pinnedKeys
    · exact ⟨key, mem_append.mpr safe, inKey⟩
    -- A survivor that is neither among the newest nor pinned is the manifest's.
    · obtain ⟨old, free⟩ := not_or.mp safe
      have isManifest : b.manifest = some key := by
        by_contra other
        exact kept (mem_doomed_iff.mpr ⟨listed, old, other, free⟩)
      refine covered key isManifest gone goneListed ?_ outside notPinned sst inKey inGone
      rintro rfl
      exact notManifest isManifest

/-- A leader of term 1 wrote its second checkpoint after the leader of term 2 had written
two: the manifest names it, and it shares its SST with the first. -/
def lateCheckpoint : CheckpointObjects where
  indexes := ⟨[(toLex (1, 10), ⟨1, 1, 10, 10, [ascii "sst/a"], [], []⟩),
    (toLex (1, 30), ⟨1, 1, 30, 30, [ascii "sst/a"], [], [ascii "MANIFEST"]⟩),
    (toLex (2, 20), ⟨1, 2, 20, 20, [ascii "sst/b"], [], []⟩),
    (toLex (2, 25), ⟨1, 2, 25, 25, [ascii "sst/b"], [], []⟩)], by decide +kernel⟩
  metas := [(toLex (1, 30), ascii "MANIFEST")]
  ssts := [ascii "sst/a", ascii "sst/b"]
  manifest := some (toLex (1, 30))
  branches := [none]

theorem lateCheckpoint_complete : Complete lateCheckpoint := by
  have all : ∀ e ∈ lateCheckpoint.indexes.entries,
      (∀ sst ∈ e.2.sstFiles, sst ∈ lateCheckpoint.ssts) ∧
        ∀ name ∈ e.2.pebbleMeta, (e.1, name) ∈ lateCheckpoint.metas := by decide +kernel
  intro key index found
  exact all (key, index) (mem_entries_iff.mpr found)

/-- Keeping three checkpoints, the manifest's is one of them. -/
theorem collect_complete_lateCheckpoint :
    lateCheckpoint.doomed 3 = [toLex (1, 10)] ∧ Complete (collect lateCheckpoint 3) := by
  refine ⟨by decide +kernel, ?_⟩
  refine (collect_complete lateCheckpoint_complete ?_ (by decide)).2.mpr ?_
  · rintro key ⟨⟩
    decide +kernel
  · rintro manifest ⟨⟩
    decide +kernel

/-- Keeping two, the deletion of the first checkpoint takes the manifest's SST along. -/
theorem collect_strands_manifest :
    Complete lateCheckpoint ∧ lateCheckpoint.manifest = some (toLex (1, 30)) ∧
      (collect lateCheckpoint 2).indexes.get (toLex (1, 30)) =
        lateCheckpoint.indexes.get (toLex (1, 30)) ∧
      ascii "sst/a" ∈ lateCheckpoint.sstsOf (toLex (1, 30)) ∧
      ascii "sst/a" ∉ (collect lateCheckpoint 2).ssts ∧ ¬ Complete (collect lateCheckpoint 2) := by
  have kept : (collect lateCheckpoint 2).indexes.get (toLex (1, 30)) =
      some ⟨1, 1, 30, 30, [ascii "sst/a"], [], [ascii "MANIFEST"]⟩ := by decide +kernel
  have lost : ascii "sst/a" ∉ (collect lateCheckpoint 2).ssts := by decide +kernel
  refine ⟨lateCheckpoint_complete, rfl, by decide +kernel, by decide +kernel, lost, ?_⟩
  intro complete
  exact lost ((complete _ _ kept).1 (ascii "sst/a") (by simp))

end T4.Checkpoint
