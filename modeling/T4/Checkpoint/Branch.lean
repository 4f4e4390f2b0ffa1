import T4.Checkpoint.RoundTrip

/-!
# Checkpoints of a node and of a branch

A node writes checkpoints with `WriteWithRegistryAtSequence` if it streams its SSTs, and
with `WriteAtSequence` otherwise. `RestoreBranch` with the stores of the write rebuilds
the directory.

A branch lists the SSTs that it inherited as keys of the source's store, but the restore
calls of a node, in `Open` and in `restoreDBIfBehindCheckpoint`, are `Restore` with the
node's own store alone. They rebuild the directory exactly if the branch's own store has a
copy of every inherited SST (`restore_write_iff`), which no write puts there.
-/

namespace T4.Archive

open Lib Text SortedMap List

/-! ## Content keys -/

section ContentKeys

variable {digest : Content → UInt64} {dir : Directory}

theorem contentSSTKey_eq (digest : Content → UInt64) (content : Content) (name : Bytes) :
    contentSSTKey digest content name =
      (ascii "sst/" ++ hexEncode (Bytes.bigEndian 8 (digest content).toNat) ++ [slash]) ++
        name := by
  simp [contentSSTKey]

theorem base_contentSSTKey (digest : Content → UInt64) (content : Content) {name : Bytes}
    (valid : FileName name) : base (contentSSTKey digest content name) = name :=
  base_append_slash _ valid

theorem validUTF8_contentSSTKey (digest : Content → UInt64) (content : Content) {name : Bytes}
    (valid : ValidUTF8 name) : ValidUTF8 (contentSSTKey digest content name) := by
  rw [contentSSTKey_eq]
  refine ValidUTF8.append ?_ valid
  have literal : IsAscii (ascii "sst/") := by decide +kernel
  have hex := isAscii_hexEncode (Bytes.bigEndian 8 (digest content).toNat)
  exact (literal.append hex).append isAscii_slash

theorem contentSSTKey_name {content content' : Content} {name name' : Bytes}
    (same : contentSSTKey digest content name = contentSSTKey digest content' name') :
    name = name' := by
  rw [contentSSTKey_eq, contentSSTKey_eq] at same
  refine (append_inj same ?_).2
  simp [length_hexEncode, Bytes.length_bigEndian]

end ContentKeys

/-! ## What the stores are assumed to hold -/

/-- The object at `key` exists with the content that the key names. -/
def Names (digest : Content → UInt64) (store : ObjectStore) (key : Bytes) : Prop :=
  ∃ name content, key = contentSSTKey digest content name ∧ store.get key = some content

/-- The index that the manifest of `store` names lists only SSTs that exist, with the
contents that their keys name. -/
def Listed (digest : Content → UInt64) (store : ObjectStore)
    (ancestorStore : Option ObjectStore) : Prop :=
  ∀ idx, previousIndex {} store = some idx →
    (∀ key ∈ idx.sstFiles, Names digest store key) ∧
      ∀ key ∈ idx.ancestorSSTFiles, Names digest (ancestorStore.getD store) key

/-- No SST in the stores has the content key of a file of the directory and another
content. -/
def NoCollision (digest : Content → UInt64) (dir : Directory) (stores : List ObjectStore) :
    Prop :=
  ∀ name content content', dir.files.get name = some content →
    (∃ store ∈ stores, store.get (contentSSTKey digest content' name) = some content') →
      contentSSTKey digest content' name = contentSSTKey digest content name →
        content' = content

/-- The registered key of each file of the directory ends in the file's name, and `store`
holds the file's content under it. -/
def Registered (dir : Directory) (store : ObjectStore) (registry : SortedMap Bytes Bytes) :
    Prop :=
  ∀ name content key, dir.files.get name = some content → registry.get name = some key →
    base key = name ∧ ValidUTF8 key ∧ store.get key = some content

/-- The registered key of each file of the directory ends in the file's name. -/
def RegisteredNames (dir : Directory) (registry : SortedMap Bytes Bytes) : Prop :=
  ∀ name content key, dir.files.get name = some content → registry.get name = some key →
    base key = name ∧ ValidUTF8 key

/-! Each of them can be checked on the entries of the maps. -/

section Checks

variable (digest : Content → UInt64) (dir : Directory) (store : ObjectStore)
  (registry : SortedMap Bytes Bytes)

instance : Decidable (Plain dir) :=
  decidable_of_iff ((∀ name content, dir.files.get name = some content → ValidUTF8 name) ∧
      dir.files.get manifestJson = none)
    ⟨fun h => ⟨fun held => h.1 _ _ held, h.2⟩, fun h => ⟨fun _ _ held => h.text held, h.notIndex⟩⟩

instance (key : Bytes) : Decidable (Names digest store key) :=
  decidable_of_iff (∃ object ∈ store.entries,
      object.1 = key ∧ key = contentSSTKey digest object.2 (key.drop 21)) (by
    constructor
    · intro check
      obtain ⟨object, isObject, rfl, shape⟩ := check
      exact ⟨_, object.2, shape, mem_entries_iff.mp isObject⟩
    · intro names
      obtain ⟨name, content, shape, stored⟩ := names
      refine ⟨(key, content), mem_entries_iff.mpr stored, rfl, ?_⟩
      have length : (ascii "sst/" ++
          hexEncode (Bytes.bigEndian 8 (digest content).toNat) ++ [slash]).length = 21 := by
        simp [length_hexEncode, Bytes.length_bigEndian, ascii]
      have sameName : key.drop 21 = name := by
        rw [shape, contentSSTKey_eq, drop_left' length]
      rw [sameName, ← shape])

instance (ancestorStore : Option ObjectStore) : Decidable (Listed digest store ancestorStore) :=
  decidable_of_iff (∀ idx ∈ (previousIndex {} store).toList,
      (∀ key ∈ idx.sstFiles, Names digest store key) ∧
        ∀ key ∈ idx.ancestorSSTFiles, Names digest (ancestorStore.getD store) key) (by
    simp [Listed])

instance (stores : List ObjectStore) : Decidable (NoCollision digest dir stores) :=
  decidable_of_iff (∀ file ∈ dir.files.entries, ∀ store ∈ stores, ∀ object ∈ store.entries,
      object.1 = contentSSTKey digest object.2 file.1 →
        object.1 = contentSSTKey digest file.2 file.1 → object.2 = file.2) (by
    constructor
    · intro check name content content' held stored same
      obtain ⟨store, isStore, stored⟩ := stored
      exact check (name, content) (mem_entries_iff.mpr held) store isStore _
        (mem_entries_iff.mpr stored) rfl same
    · intro collisionFree file isFile store isStore object isObject named same
      have stored : store.get object.1 = some object.2 := mem_entries_iff.mp isObject
      exact collisionFree file.1 file.2 object.2 (mem_entries_iff.mp isFile)
        ⟨store, isStore, named ▸ stored⟩ (named ▸ same))

instance {P : Bytes → Content → Bytes → Prop} [∀ name content key, Decidable (P name content key)] :
    Decidable (∀ name content key, dir.files.get name = some content →
      registry.get name = some key → P name content key) :=
  decidable_of_iff (∀ name content, dir.files.get name = some content →
      ∀ key ∈ registry.get name, P name content key)
    ⟨fun check name content key held => check name content held key,
      fun all name content held key => all name content key held⟩

instance : Decidable (Registered dir store registry) := by
  unfold Registered
  infer_instance

instance : Decidable (RegisteredNames dir registry) := by
  unfold RegisteredNames
  infer_instance

end Checks

theorem Registered.names {dir : Directory} {store : ObjectStore}
    {registry : SortedMap Bytes Bytes} (registered : Registered dir store registry) :
    RegisteredNames dir registry := by
  intro name content key held found
  obtain ⟨named, text, -⟩ := registered name content key held found
  exact ⟨named, text⟩

section Decisions

variable {digest : Content → UInt64} {dir : Directory} {store : ObjectStore}

variable {name key : Bytes} {content : Content} {known : List Bytes × List Bytes}

theorem Names.get_eq {stores : List ObjectStore} (collisionFree : NoCollision digest dir stores)
    (isStore : store ∈ stores) (held : dir.files.get name = some content)
    (names : Names digest store (contentSSTKey digest content name)) :
    store.get (contentSSTKey digest content name) = some content := by
  obtain ⟨name', content', same, stored⟩ := names
  have sameName := contentSSTKey_name same
  subst sameName
  rw [same] at stored
  have sameContent := collisionFree name content content' held ⟨store, isStore, stored⟩ same.symm
  rw [same, stored, sameContent]

theorem placeKnown_key (known : List Bytes × List Bytes) (name : Bytes) (content : Content) :
    (placeKnown digest known name content).key = contentSSTKey digest content name := by
  unfold placeKnown
  simp only
  split_ifs <;> rfl

theorem placed_placeKnown (plain : Plain dir) (known : List Bytes × List Bytes) :
    Placed (placeKnown digest known) dir := by
  constructor
  · intro name content held isSST
    rw [placeKnown_key]
    exact base_contentSSTKey digest content (Directory.fileName held)
  · intro name content held isSST
    rw [placeKnown_key]
    exact validUTF8_contentSSTKey digest content (plain.text held)

variable {localRegistry inheritedRegistry : SortedMap Bytes Bytes} {faults : Faults}
  {ancestorStore : Option ObjectStore}

theorem placed_placeRegistered (plain : Plain dir) (own : RegisteredNames dir localRegistry)
    (inherited : RegisteredNames dir inheritedRegistry) :
    Placed (placeRegistered digest localRegistry inheritedRegistry) dir := by
  constructor
  · intro name content held isSST
    unfold placeRegistered
    cases found : inheritedRegistry.get name with
    | some key => exact (inherited name content key held found).1
    | none =>
      cases found : localRegistry.get name with
      | some key => exact (own name content key held found).1
      | none => exact base_contentSSTKey digest content (Directory.fileName held)
  · intro name content held isSST
    unfold placeRegistered
    cases found : inheritedRegistry.get name with
    | some key => exact (inherited name content key held found).2
    | none =>
      cases found : localRegistry.get name with
      | some key => exact (own name content key held found).2
      | none => exact validUTF8_contentSSTKey digest content (plain.text held)

theorem placeKnown_eq_present (placement : placeKnown digest known name content = .present key) :
    key = contentSSTKey digest content name ∧ key ∈ known.1 := by
  unfold placeKnown at placement
  simp only at placement
  split_ifs at placement with isKnown
  cases placement
  exact ⟨rfl, isKnown⟩

theorem placeKnown_eq_inherited :
    placeKnown digest known name content = .inherited key ↔
      key = contentSSTKey digest content name ∧ key ∉ known.1 ∧ key ∈ known.2 := by
  unfold placeKnown
  simp only
  split_ifs with isKnown isInherited
  · simp only [false_iff]
    rintro ⟨rfl, unknown, -⟩
    exact unknown isKnown
  · constructor
    · intro placement
      cases placement
      exact ⟨rfl, isKnown, isInherited⟩
    · rintro ⟨rfl, -, -⟩
      rfl
  · simp only [false_iff]
    rintro ⟨rfl, -, inherited⟩
    exact isInherited inherited

theorem placeRegistered_eq_present
    (placement : placeRegistered digest localRegistry inheritedRegistry name content =
      .present key) :
    localRegistry.get name = some key := by
  unfold placeRegistered at placement
  split at placement
  · cases placement
  · split at placement
    case h_1 found =>
      cases placement
      exact found
    case h_2 => cases placement

theorem placeRegistered_eq_inherited :
    placeRegistered digest localRegistry inheritedRegistry name content = .inherited key ↔
      inheritedRegistry.get name = some key := by
  unfold placeRegistered
  cases inheritedRegistry.get name with
  | some found => simp
  | none => cases localRegistry.get name <;> simp

theorem previousIndex_of_faults {idx : CheckpointIndex}
    (read : previousIndex faults store = some idx) : previousIndex {} store = some idx := by
  unfold previousIndex at read ⊢
  cases noManifest : faults.readManifest with
  | true => simp [noManifest] at read
  | false =>
    cases noIndex : faults.readIndex with
    | true =>
      rw [noManifest, if_neg (by simp)] at read
      split at read <;> simp [noIndex] at read
    | false =>
      rw [noManifest, noIndex] at read
      exact read

/-- The known keys are those of the previous index, or the ancestor's are listed. -/
theorem knownSSTSets_cases (sets : knownSSTSets faults store ancestorStore = .ok known) :
    (∀ key ∈ known.1, ∃ idx, previousIndex {} store = some idx ∧ key ∈ idx.sstFiles) ∧
      ((∀ key ∈ known.2, ∃ idx, previousIndex {} store = some idx ∧
          key ∈ idx.ancestorSSTFiles) ∨
        ∃ source, ancestorStore = some source ∧ known.2 = listSSTSet source) := by
  unfold knownSSTSets at sets
  cases read : previousIndex faults store with
  | none =>
    rw [read] at sets
    cases ancestorStore with
    | none =>
      cases sets
      simp
    | some source =>
      simp only [if_true] at sets
      split_ifs at sets
      cases sets
      simp
  | some idx =>
    rw [read] at sets
    have fromIndex := previousIndex_of_faults read
    cases ancestorStore with
    | none =>
      cases sets
      exact ⟨fun key mem => ⟨idx, fromIndex, mem⟩, Or.inl fun key mem => ⟨idx, fromIndex, mem⟩⟩
    | some source =>
      simp only at sets
      split_ifs at sets
      · cases sets
        exact ⟨fun key mem => ⟨idx, fromIndex, mem⟩, Or.inr ⟨source, rfl, rfl⟩⟩
      · cases sets
        exact ⟨fun key mem => ⟨idx, fromIndex, mem⟩, Or.inl fun key mem => ⟨idx, fromIndex, mem⟩⟩

theorem known_present (listed : Listed digest store ancestorStore)
    (sets : knownSSTSets faults store ancestorStore = .ok known) (mem : key ∈ known.1) :
    Names digest store key := by
  obtain ⟨idx, read, inIndex⟩ := (knownSSTSets_cases sets).1 key mem
  exact (listed idx read).1 key inIndex

theorem known_inherited (listed : Listed digest store ancestorStore)
    (labelled : ∀ source, ancestorStore = some source →
      ∀ key ∈ listSSTSet source, Names digest source key)
    (sets : knownSSTSets faults store ancestorStore = .ok known) (mem : key ∈ known.2) :
    Names digest (ancestorStore.getD store) key := by
  rcases (knownSSTSets_cases sets).2 with fromIndex | ⟨source, rfl, isListed⟩
  · obtain ⟨idx, read, inIndex⟩ := fromIndex key mem
    exact (listed idx read).2 key inIndex
  · exact labelled source rfl key (isListed ▸ mem)

end Decisions

/-! ## The restore with the stores of the write -/

section Inverse

variable {digest : Content → UInt64} {faults : Faults} {dir : Directory}
  {store written : ObjectStore} {term : Nat} {revision sequence : Int} {lastWALKey : Bytes}
  {place : Bytes → Content → Placement} (placed : Placed place dir)
  (wrote : writeCheckpoint place faults dir store term revision sequence lastWALKey = .ok written)

include placed wrote in
theorem get_written_inherited {name key : Bytes} {content : Content}
    (held : dir.files.get name = some content)
    (listed : ancestorKey place (name, content) = some key) :
    written.get key = store.get key := by
  obtain ⟨isSST, placement⟩ := ancestorKey_eq_some.mp listed
  rw [get_written_sst wrote placed held isSST (base_ancestorKey placed held listed),
    if_neg (by simp [placement])]

include placed wrote in
/-- The store that a restore after the write reads for the inherited SSTs holds them as
before the write. -/
theorem get_source_inherited (source : Option ObjectStore) {name key : Bytes} {content : Content}
    (held : dir.files.get name = some content)
    (listed : ancestorKey place (name, content) = some key) :
    (source.getD written).get key = (source.getD store).get key := by
  cases source with
  | none => exact get_written_inherited placed wrote held listed
  | some source => rfl

/-- `RestoreBranch` inverts both writers, for a directory whose names are text and none of
which is `manifest.json`, if the ancestor's SSTs hold what their keys name. -/
theorem restoreBranch_write (digest : Content → UInt64) (faults : Faults) (dir : Directory)
    (store : ObjectStore) (ancestorStore : Option ObjectStore) (term : Nat)
    (revision sequence : Int) (lastWALKey : Bytes) (plain : Plain dir) :
    (∀ written,
      Listed digest store ancestorStore →
      (∀ source, ancestorStore = some source →
        ∀ key ∈ listSSTSet source, Names digest source key) →
      NoCollision digest dir [store, ancestorStore.getD store] →
      writeAtSequence digest faults dir store term revision sequence lastWALKey ancestorStore =
        .ok written →
      restoreBranch written ancestorStore (checkpointIndexKey term revision) =
        .ok (dir.files, term, revision)) ∧
    (∀ localRegistry inheritedRegistry written,
      Registered dir store localRegistry →
      Registered dir (ancestorStore.getD store) inheritedRegistry →
      writeWithRegistryAtSequence digest faults dir store term revision sequence lastWALKey
        localRegistry inheritedRegistry = .ok written →
      restoreBranch written ancestorStore (checkpointIndexKey term revision) =
        .ok (dir.files, term, revision)) := by
  constructor
  · intro written listed labelled collisionFree wrote
    obtain ⟨known, sets, wrote⟩ := bind_eq_ok wrote
    have placed : Placed (placeKnown digest known) dir := placed_placeKnown plain known
    have holds := HoldsOwn.of_write plain placed (fun name content key held isSST placement => by
      obtain ⟨rfl, isKnown⟩ := placeKnown_eq_present placement
      exact (known_present listed sets isKnown).get_eq collisionFree (by simp) held) wrote
    refine (restoreFromIndex_iff placed holds).mpr ?_
    intro name content key held inherited
    rw [get_source_inherited placed wrote ancestorStore held inherited]
    obtain ⟨rfl, -, isInherited⟩ := placeKnown_eq_inherited.mp (ancestorKey_eq_some.mp inherited).2
    exact (known_inherited listed labelled sets isInherited).get_eq collisionFree (by simp) held
  · intro localRegistry inheritedRegistry written own inherited wrote
    have placed : Placed (placeRegistered digest localRegistry inheritedRegistry) dir :=
      placed_placeRegistered plain own.names inherited.names
    have holds := HoldsOwn.of_write plain placed (fun name content key held isSST placement =>
      (own name content key held (placeRegistered_eq_present placement)).2.2) wrote
    refine (restoreFromIndex_iff placed holds).mpr ?_
    intro name content key held isInherited
    rw [get_source_inherited placed wrote ancestorStore held isInherited]
    have found := placeRegistered_eq_inherited.mp (ancestorKey_eq_some.mp isInherited).2
    exact (inherited name content key held found).2.2

end Inverse

def sampleDigest : Content → UInt64
  | .bytes b => UInt64.ofNat (Bytes.ofBigEndian b)
  | _ => 0

def sampleDirectory : Directory where
  files := ((SortedMap.empty.insert (ascii "000005.sst") (.bytes [5])).insert
    (ascii "000007.sst") (.bytes [7])).insert (ascii "CURRENT") (.bytes [1])
  names := by decide +kernel

def singleFile (name : Bytes) (content : Content) (valid : FileName name) : Directory where
  files := SortedMap.empty.insert name content
  names := by
    intro file isFile
    rw [mem_singleton.mp isFile]
    exact valid

/-- A store with an earlier checkpoint that has one of the SSTs. -/
def sampleStore : ObjectStore :=
  (writeAtSequence sampleDigest {} (singleFile (ascii "000007.sst") (.bytes [7])
    (by decide +kernel))
    .empty 1 10 12 [] none).toOption.getD .empty

def sampleSource : ObjectStore :=
  SortedMap.empty.insert (contentSSTKey sampleDigest (.bytes [5]) (ascii "000005.sst")) (.bytes [5])

def sampleRegistry (content : Content) (name : Bytes) : SortedMap Bytes Bytes :=
  SortedMap.empty.insert name (contentSSTKey sampleDigest content name)

theorem restoreBranch_write_sampleDirectory :
    (∃ written, writeAtSequence sampleDigest {} sampleDirectory sampleStore 1 20 25 []
        (some sampleSource) = .ok written ∧
      restoreBranch written (some sampleSource) (checkpointIndexKey 1 20) =
        .ok (sampleDirectory.files, 1, 20)) ∧
    ∃ written, writeWithRegistryAtSequence sampleDigest {} sampleDirectory sampleStore 1 20 25 []
        (sampleRegistry (.bytes [7]) (ascii "000007.sst"))
        (sampleRegistry (.bytes [5]) (ascii "000005.sst")) = .ok written ∧
      restoreBranch written (some sampleSource) (checkpointIndexKey 1 20) =
        .ok (sampleDirectory.files, 1, 20) := by
  have both := restoreBranch_write sampleDigest {} sampleDirectory sampleStore (some sampleSource)
    1 20 25 [] (by decide +kernel)
  constructor
  · refine exists_ok (by decide +kernel) ?_
    intro written wrote
    refine both.1 written (by decide +kernel) ?_ (by decide +kernel) wrote
    intro source isSource
    cases isSource
    decide +kernel
  · refine exists_ok (by decide +kernel) ?_
    intro written wrote
    exact both.2 _ _ written (by decide +kernel) (by decide +kernel) wrote

/-- `WriteAtSequence` and `RestoreBranch` do not rebuild this directory, although no content
keys collide and the previous index is sound. -/
def NotRebuilt (dir : Directory) (ancestorStore : Option ObjectStore) : Prop :=
  Listed sampleDigest .empty ancestorStore ∧
    NoCollision sampleDigest dir [.empty, ancestorStore.getD .empty] ∧
    ∃ written, writeAtSequence sampleDigest {} dir .empty 1 20 25 [] ancestorStore = .ok written ∧
      restoreBranch written ancestorStore (checkpointIndexKey 1 20) ≠ .ok (dir.files, 1, 20)

/-- A file named `manifest.json` is overwritten by the index; a name that is not UTF-8 is
changed in the index; and an SST of the ancestor store that does not hold what its key
names is taken for the file of the directory. -/
theorem restoreBranch_write_fails :
    NotRebuilt (singleFile manifestJson (.bytes [1]) (by decide +kernel)) none ∧
    NotRebuilt (singleFile [0xff] (.bytes [1]) (by decide +kernel)) none ∧
    NotRebuilt (singleFile (ascii "000005.sst") (.bytes [5]) (by decide +kernel))
      (some (SortedMap.empty.insert
        (contentSSTKey sampleDigest (.bytes [5]) (ascii "000005.sst")) (.bytes [6]))) := by
  refine ⟨⟨by decide +kernel, by decide +kernel, ?_⟩, ⟨by decide +kernel, by decide +kernel, ?_⟩,
    by decide +kernel, by decide +kernel, ?_⟩
  · exact exists_ok_of_eval (by decide +kernel)
  · exact exists_ok_of_eval (by decide +kernel)
  · exact exists_ok_of_eval (by decide +kernel)

/-! ## The restores of a branch node -/

def CheckpointIndex.objects (idx : CheckpointIndex) (indexKey : Bytes) : List Bytes :=
  indexKey :: (idx.sstFiles ++ idx.ancestorSSTFiles ++
    idx.pebbleMeta.map (trimSuffix indexKey manifestJson ++ ·))

/-- `later` has the objects of the checkpoint, and only those, where `written` has them. -/
def Kept (written later : ObjectStore) (indexKey : Bytes) : Prop :=
  ∀ idx, readCheckpointIndex written indexKey = .ok idx →
    ∀ key ∈ idx.objects indexKey, later.get key = written.get key

section Branch

variable {place : Bytes → Content → Placement} {dir : Directory} {term : Nat} {revision : Int}
  {written later : ObjectStore}

/-- A store that keeps the objects of a checkpoint can be restored from like the one
written. -/
theorem HoldsOwn.kept (holds : HoldsOwn place dir term revision written)
    (kept : Kept written later (checkpointIndexKey term revision)) :
    HoldsOwn place dir term revision later := by
  obtain ⟨sequence, seq, read⟩ := holds.index
  have same := kept _ read
  refine ⟨⟨sequence, seq, ?_⟩, ?_, ?_⟩
  · have sameIndex := same (checkpointIndexKey term revision) (by simp [CheckpointIndex.objects])
    unfold readCheckpointIndex at read ⊢
    rw [sameIndex]
    exact read
  · intro name content key held listed
    rw [same key, holds.own held listed]
    have inList : key ∈ dir.files.entries.filterMap (ownKey place) :=
      mem_filterMap.mpr ⟨(name, content), mem_entries_iff.mpr held, listed⟩
    simp [CheckpointIndex.objects, indexFor, -mem_filterMap, inList]
  · intro name content held isMeta
    rw [same (metaKey term revision name), holds.metas held isMeta]
    have inList : name ∈ dir.files.entries.filterMap metaName :=
      mem_filterMap.mpr
        ⟨(name, content), mem_entries_iff.mpr held, metaName_eq_some.mpr ⟨isMeta, rfl⟩⟩
    rw [← trimSuffix_checkpointIndexKey]
    simp only [CheckpointIndex.objects, indexFor, mem_cons, mem_append]
    exact Or.inr (Or.inr (mem_map.mpr ⟨name, inList, rfl⟩))

theorem Kept.get_inherited (holds : HoldsOwn place dir term revision written)
    (kept : Kept written later (checkpointIndexKey term revision)) {name key : Bytes}
    {content : Content} (held : dir.files.get name = some content)
    (listed : ancestorKey place (name, content) = some key) :
    later.get key = written.get key := by
  obtain ⟨sequence, seq, read⟩ := holds.index
  refine kept _ read key ?_
  have inList : key ∈ dir.files.entries.filterMap (ancestorKey place) :=
    mem_filterMap.mpr ⟨(name, content), mem_entries_iff.mpr held, listed⟩
  simp [CheckpointIndex.objects, indexFor, -mem_filterMap, inList]

/-- A restore from the store of the write alone rebuilds the directory exactly if that
store held every inherited SST before the write. -/
theorem restore_write_iff {faults : Faults} {store : ObjectStore} {sequence : Int}
    {lastWALKey : Bytes} (plain : Plain dir) (placed : Placed place dir)
    (present : ∀ name content key, dir.files.get name = some content →
      hasSuffix name sstSuffix = true → place name content = .present key →
        store.get key = some content)
    (wrote : writeCheckpoint place faults dir store term revision sequence lastWALKey =
      .ok written)
    (kept : Kept written later (checkpointIndexKey term revision)) :
    restore later (checkpointIndexKey term revision) = .ok (dir.files, term, revision) ↔
      ∀ name content key, dir.files.get name = some content →
        hasSuffix name sstSuffix = true → place name content = .inherited key →
          store.get key = some content := by
  have holds := HoldsOwn.of_write plain placed present wrote
  have unchanged : ∀ name content key, dir.files.get name = some content →
      ancestorKey place (name, content) = some key → later.get key = store.get key := by
    intro name content key held listed
    rw [kept.get_inherited holds held listed, get_written_inherited placed wrote held listed]
  unfold restore
  rw [restoreFromIndex_iff placed (holds.kept kept), Option.getD_none]
  constructor
  · intro inherited name content key held isSST placement
    have listed : ancestorKey place (name, content) = some key :=
      ancestorKey_eq_some.mpr ⟨isSST, placement⟩
    rw [← unchanged name content key held listed]
    exact inherited name content key held listed
  · intro inherited name content key held listed
    obtain ⟨isSST, placement⟩ := ancestorKey_eq_some.mp listed
    rw [unchanged name content key held listed]
    exact inherited name content key held isSST placement

end Branch

/-- The node's own restore of a checkpoint it wrote rebuilds the directory exactly if its
own store held every inherited SST already before the write. -/
theorem restore_branch_iff (digest : Content → UInt64) (faults : Faults) (dir : Directory)
    (store : ObjectStore) (term : Nat) (revision sequence : Int) (lastWALKey : Bytes)
    (plain : Plain dir) :
    (∀ localRegistry inheritedRegistry written later,
      Registered dir store localRegistry → RegisteredNames dir inheritedRegistry →
      writeWithRegistryAtSequence digest faults dir store term revision sequence lastWALKey
        localRegistry inheritedRegistry = .ok written →
      Kept written later (checkpointIndexKey term revision) →
      (restore later (checkpointIndexKey term revision) = .ok (dir.files, term, revision) ↔
        ∀ name content key, dir.files.get name = some content →
          hasSuffix name sstSuffix = true → inheritedRegistry.get name = some key →
            store.get key = some content)) ∧
    (∀ source known written later,
      Listed digest store (some source) → NoCollision digest dir [store] →
      knownSSTSets faults store (some source) = .ok known →
      writeAtSequence digest faults dir store term revision sequence lastWALKey (some source) =
        .ok written →
      Kept written later (checkpointIndexKey term revision) →
      (restore later (checkpointIndexKey term revision) = .ok (dir.files, term, revision) ↔
        ∀ name content, dir.files.get name = some content →
          hasSuffix name sstSuffix = true →
          contentSSTKey digest content name ∉ known.1 →
          contentSSTKey digest content name ∈ known.2 →
            store.get (contentSSTKey digest content name) = some content)) := by
  constructor
  · intro localRegistry inheritedRegistry written later own inherited wrote kept
    have placed : Placed (placeRegistered digest localRegistry inheritedRegistry) dir :=
      placed_placeRegistered plain own.names inherited
    rw [restore_write_iff plain placed (fun name content key held isSST placement =>
      (own name content key held (placeRegistered_eq_present placement)).2.2) wrote kept]
    simp only [placeRegistered_eq_inherited]
  · intro source known written later listed collisionFree sets wrote kept
    obtain ⟨known', sets', wrote⟩ := bind_eq_ok wrote
    have sameKnown : known' = known := by
      rw [sets] at sets'
      cases sets'
      rfl
    subst sameKnown
    rw [restore_write_iff plain (placed_placeKnown plain known')
      (fun name content key held isSST placement => by
        obtain ⟨rfl, isKnown⟩ := placeKnown_eq_present placement
        exact (known_present listed sets isKnown).get_eq collisionFree (by simp) held) wrote kept]
    simp only [placeKnown_eq_inherited]
    constructor
    · intro inherited name content held isSST unknown isInherited
      exact inherited name content _ held isSST ⟨rfl, unknown, isInherited⟩
    · intro inherited name content key held isSST placement
      obtain ⟨rfl, unknown, isInherited⟩ := placement
      exact inherited name content held isSST unknown isInherited

/-- A branch that has its own copy of the SST it inherited. -/
theorem restore_branch_iff_copied :
    (∃ written, writeWithRegistryAtSequence sampleDigest {} sampleDirectory sampleSource 1 20 25 []
        SortedMap.empty (sampleRegistry (.bytes [5]) (ascii "000005.sst")) = .ok written ∧
      restore written (checkpointIndexKey 1 20) = .ok (sampleDirectory.files, 1, 20)) ∧
    ∃ written, writeAtSequence sampleDigest {} sampleDirectory sampleSource 1 20 25 []
        (some sampleSource) = .ok written ∧
      restore written (checkpointIndexKey 1 20) = .ok (sampleDirectory.files, 1, 20) := by
  have both := restore_branch_iff sampleDigest {} sampleDirectory sampleSource 1 20 25 []
    (by decide +kernel)
  constructor
  · refine exists_ok (by decide +kernel) ?_
    intro written wrote
    refine (both.1 _ _ written written (by decide +kernel) (by decide +kernel) wrote
      (fun _ _ _ _ => rfl)).mpr ?_
    intro name content key held isSST found
    have registered : Registered sampleDirectory sampleSource
        (sampleRegistry (.bytes [5]) (ascii "000005.sst")) := by decide +kernel
    exact (registered name content key held found).2.2
  · refine exists_ok (by decide +kernel) ?_
    intro written wrote
    have collisionFree : NoCollision sampleDigest sampleDirectory [sampleSource] := by
      decide +kernel
    refine (both.2 sampleSource ([], listSSTSet sampleSource) written written (by decide +kernel)
      collisionFree (by decide +kernel) wrote (fun _ _ _ _ => rfl)).mpr ?_
    intro name content held isSST unknown isInherited
    have names : ∀ key ∈ listSSTSet sampleSource, Names sampleDigest sampleSource key := by
      decide +kernel
    exact (names _ isInherited).get_eq collisionFree (by simp) held

/-- A branch cannot restore the checkpoints it writes with either writer: the SST that it
inherited is only in the source's store. -/
theorem restore_branch_fails :
    (∃ written, writeWithRegistryAtSequence sampleDigest {} sampleDirectory .empty 1 20 25 []
        SortedMap.empty (sampleRegistry (.bytes [5]) (ascii "000005.sst")) = .ok written ∧
      restore written (checkpointIndexKey 1 20) ≠ .ok (sampleDirectory.files, 1, 20) ∧
      restoreBranch written (some sampleSource) (checkpointIndexKey 1 20) =
        .ok (sampleDirectory.files, 1, 20)) ∧
    ∃ written, writeAtSequence sampleDigest {} sampleDirectory .empty 1 20 25 []
        (some sampleSource) = .ok written ∧
      restore written (checkpointIndexKey 1 20) ≠ .ok (sampleDirectory.files, 1, 20) ∧
      restoreBranch written (some sampleSource) (checkpointIndexKey 1 20) =
        .ok (sampleDirectory.files, 1, 20) := by
  constructor
  · exact exists_ok_of_eval (by decide +kernel)
  · exact exists_ok_of_eval (by decide +kernel)

end T4.Archive
