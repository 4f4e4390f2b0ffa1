import T4.Checkpoint.Archive
import T4.Lib.Lists
import T4.Lib.Program

/-!
# A restore rebuilds the directory of the checkpoint

The keys that a checkpoint write puts for two different files differ, because the last
element of each is the file's name. So the walk leaves every object it does not put as it
was, and the index lists for each file of the directory one key, whose last element is
that file's name.

`restoreFromIndex_iff` says when reading the index back rebuilds the directory: exactly if
the store that is read for the inherited SSTs holds each of them with the file's content.
The two writers and the two restores of the source are cases of it.
-/

namespace T4.Archive

open Lib Text SortedMap List

/-! ## The walk without faults -/

def uploadOf (place : Bytes → Content → Placement) (term : Nat) (revision : Int)
    (file : Bytes × Content) : Option (Bytes × Content) :=
  if hasSuffix file.1 sstSuffix then
    match place file.1 file.2 with
    | .upload key => some (key, file.2)
    | _ => none
  else some (metaKey term revision file.1, file.2)

/-- The key that the walk lists under `SSTFiles`. -/
def ownKey (place : Bytes → Content → Placement) (file : Bytes × Content) : Option Bytes :=
  if hasSuffix file.1 sstSuffix then
    match place file.1 file.2 with
    | .present key => some key
    | .upload key => some key
    | .inherited _ => none
  else none

/-- The key that the walk lists under `AncestorSSTFiles`. -/
def ancestorKey (place : Bytes → Content → Placement) (file : Bytes × Content) : Option Bytes :=
  if hasSuffix file.1 sstSuffix then
    match place file.1 file.2 with
    | .inherited key => some key
    | _ => none
  else none

/-- The name that the walk lists under `PebbleMeta`. -/
def metaName (file : Bytes × Content) : Option Bytes :=
  if hasSuffix file.1 sstSuffix then none else some file.1

def putAll (store : ObjectStore) : List (Bytes × Content) → ObjectStore
  | [] => store
  | (key, content) :: rest => putAll (store.insert key content) rest

section Walk

variable {place : Bytes → Content → Placement} {faults : Faults} {term : Nat} {revision : Int}

variable {store : ObjectStore} {key : Bytes}

theorem put_eq_ok {failed : ArchiveError} {store' : ObjectStore} {content : Content}
    (stored : put faults failed store key content = .ok store') :
    store' = store.insert key content := by
  unfold put at stored
  split_ifs at stored
  cases stored
  rfl

theorem visit_eq {u u' : Uploaded} {file : Bytes × Content}
    (visited : visit place faults term revision u file = .ok u') :
    u' = { store := putAll u.store (uploadOf place term revision file).toList
           sstFiles := u.sstFiles ++ (ownKey place file).toList
           ancestorSSTFiles := u.ancestorSSTFiles ++ (ancestorKey place file).toList
           metaFiles := u.metaFiles ++ (metaName file).toList } := by
  unfold visit at visited
  unfold uploadOf ownKey ancestorKey metaName
  by_cases isSST : hasSuffix file.1 sstSuffix = true
  · simp only [isSST, if_true] at visited ⊢
    cases placed : place file.1 file.2 with
    | present key | inherited key =>
      simp only [placed] at visited ⊢
      cases visited
      simp [putAll]
    | upload key =>
      simp only [placed] at visited ⊢
      obtain ⟨store, stored, rest⟩ := bind_eq_ok visited
      cases rest
      rw [put_eq_ok stored]
      simp [putAll]
  · rw [if_neg isSST] at visited
    obtain ⟨store, stored, rest⟩ := bind_eq_ok visited
    cases rest
    rw [put_eq_ok stored]
    simp [isSST, putAll]

theorem putAll_append (store : ObjectStore) (first second : List (Bytes × Content)) :
    putAll store (first ++ second) = putAll (putAll store first) second := by
  induction first generalizing store with
  | nil => rfl
  | cons file rest ih => exact ih _

theorem walkFrom_eq {files : List (Bytes × Content)} {u u' : Uploaded}
    (walked : files.foldlM (visit place faults term revision) u = .ok u') :
    u' = { store := putAll u.store (files.filterMap (uploadOf place term revision))
           sstFiles := u.sstFiles ++ files.filterMap (ownKey place)
           ancestorSSTFiles := u.ancestorSSTFiles ++ files.filterMap (ancestorKey place)
           metaFiles := u.metaFiles ++ files.filterMap metaName } := by
  induction files generalizing u with
  | nil =>
    cases walked
    simp [putAll]
  | cons file rest ih =>
    rw [foldlM_cons] at walked
    obtain ⟨next, visited, later⟩ := bind_eq_ok walked
    rw [ih later, visit_eq visited]
    simp only [filterMap_eq_append, putAll_append, append_assoc]

theorem get_putAll_of_ne {uploads : List (Bytes × Content)}
    (other : ∀ upload ∈ uploads, upload.1 ≠ key) :
    (putAll store uploads).get key = store.get key := by
  induction uploads generalizing store with
  | nil => rfl
  | cons upload rest ih =>
    have apart := other upload (by simp)
    rw [putAll, ih (fun later mem => other later (mem_cons_of_mem _ mem)), get_insert,
      if_neg apart.symm]

theorem get_putAll_of_mem {uploads : List (Bytes × Content)} {content : Content}
    (mem : (key, content) ∈ uploads) (only : ∀ c, (key, c) ∈ uploads → c = content) :
    (putAll store uploads).get key = some content := by
  induction uploads generalizing store with
  | nil => cases mem
  | cons upload rest ih =>
    have onlyRest : ∀ c, (key, c) ∈ rest → c = content :=
      fun c later => only c (mem_cons_of_mem _ later)
    by_cases again : (key, content) ∈ rest
    · exact ih again onlyRest
    · have first : upload = (key, content) := by
        rcases mem_cons.mp mem with first | later
        · exact first.symm
        · exact absurd later again
      have other : ∀ later ∈ rest, later.1 ≠ key := by
        rintro ⟨k, c⟩ later rfl
        exact again (onlyRest c later ▸ later)
      rw [first, putAll, get_putAll_of_ne other, get_insert, if_pos rfl]

end Walk

/-! ## Keys of different files differ -/

def Placement.key : Placement → Bytes
  | .present key => key
  | .inherited key => key
  | .upload key => key

/-- Every SST is placed under a key that ends in its name. -/
structure Placed (place : Bytes → Content → Placement) (dir : Directory) : Prop where
  named : ∀ {name content}, dir.files.get name = some content →
    hasSuffix name sstSuffix = true → base (place name content).key = name
  text : ∀ {name content}, dir.files.get name = some content →
    hasSuffix name sstSuffix = true → ValidUTF8 (place name content).key

/-- The names of the directory are text, and none is the name of the index. -/
structure Plain (dir : Directory) : Prop where
  text : ∀ {name content}, dir.files.get name = some content → ValidUTF8 name
  notIndex : dir.files.get manifestJson = none

theorem Directory.fileName {dir : Directory} {name : Bytes} {content : Content}
    (held : dir.files.get name = some content) : FileName name :=
  dir.names (name, content) (mem_entries_iff.mpr held)

theorem base_metaKey (term : Nat) (revision : Int) {name : Bytes} (valid : FileName name) :
    base (metaKey term revision name) = name :=
  base_append_slash _ valid

theorem base_checkpointIndexKey (term : Nat) (revision : Int) :
    base (checkpointIndexKey term revision) = manifestJson :=
  base_append_slash _ (by decide +kernel)

theorem base_manifestKey : base manifestKey = ascii "latest" := by decide +kernel

theorem metaKey_ne_manifestKey (term : Nat) (revision : Int) (name : Bytes) :
    metaKey term revision name ≠ manifestKey := by
  intro same
  have first := congrArg List.head? same
  simp [metaKey, checkpointKey, manifestKey, ascii] at first

section Keys

variable {place : Bytes → Content → Placement} {dir : Directory} {term : Nat} {revision : Int}

theorem Placed.of_upload (placed : Placed place dir) {file : Bytes × Content}
    (mem : file ∈ dir.files.entries) {key : Bytes} {content : Content}
    (upload : uploadOf place term revision file = some (key, content)) :
    base key = file.1 ∧ content = file.2 := by
  have held : dir.files.get file.1 = some file.2 := mem_entries_iff.mp mem
  unfold uploadOf at upload
  split_ifs at upload with isSST
  · cases placement : place file.1 file.2 with
    | present key | inherited key => simp [placement] at upload
    | upload key =>
      simp only [placement, Option.some.injEq, Prod.mk.injEq] at upload
      have named := placed.named held isSST
      rw [placement] at named
      exact ⟨upload.1 ▸ named, upload.2.symm⟩
  · cases upload
    exact ⟨base_metaKey term revision (Directory.fileName held), rfl⟩

theorem Placed.upload_unique (placed : Placed place dir) {name : Bytes} {content : Content}
    (held : dir.files.get name = some content) {key : Bytes} (named : base key = name)
    {c : Content}
    (mem : (key, c) ∈ dir.files.entries.filterMap (uploadOf place term revision)) :
    c = content ∧ uploadOf place term revision (name, content) = some (key, content) := by
  obtain ⟨file, isFile, upload⟩ := mem_filterMap.mp mem
  have ofFile := placed.of_upload isFile upload
  have sameName : file.1 = name := ofFile.1.symm.trans named
  have sameContent : file.2 = content := by
    have other : dir.files.get file.1 = some file.2 := mem_entries_iff.mp isFile
    rw [sameName, held] at other
    exact (Option.some.inj other).symm
  have sameFile : file = (name, content) := Prod.ext sameName sameContent
  subst sameFile
  have same : c = content := ofFile.2
  subst same
  exact ⟨rfl, upload⟩

end Keys

/-! ## The store after a write -/

/-- The index of a checkpoint of `dir`. -/
def indexFor (place : Bytes → Content → Placement) (dir : Directory) (term : Nat)
    (revision sequence : Int) : CheckpointIndex where
  formatVersion := checkpointFormatVersion
  term := term
  revision := revision
  lastSequence := sequence
  sstFiles := dir.files.entries.filterMap (ownKey place)
  ancestorSSTFiles := dir.files.entries.filterMap (ancestorKey place)
  pebbleMeta := dir.files.entries.filterMap metaName

section Written

variable {place : Bytes → Content → Placement} {faults : Faults} {dir : Directory}
  {store written : ObjectStore} {term : Nat} {revision sequence : Int} {lastWALKey : Bytes}
  (wrote : writeCheckpoint place faults dir store term revision sequence lastWALKey = .ok written)

variable {key name : Bytes} {file : Bytes × Content}

include wrote in
/-- A write that succeeds changes the objects of the walk, the index and the manifest. -/
theorem get_written (notManifest : key ≠ manifestKey) :
    written.get key =
      if key = checkpointIndexKey term revision then
        some (marshalIndex (indexFor place dir term revision sequence))
      else (putAll store (dir.files.entries.filterMap (uploadOf place term revision))).get key := by
  obtain ⟨u, walked, indexed⟩ := bind_eq_ok wrote
  obtain ⟨withIndex, putIndex, putManifest⟩ := bind_eq_ok indexed
  have lists := walkFrom_eq walked
  simp only [nil_append] at lists
  rw [put_eq_ok putManifest, get_insert, if_neg notManifest, put_eq_ok putIndex, get_insert, lists]
  rfl

theorem sst_ne_manifestJson (isSST : hasSuffix name sstSuffix = true) : name ≠ manifestJson := by
  intro same
  rw [same] at isSST
  exact absurd isSST (by decide +kernel)

theorem sst_ne_latest (isSST : hasSuffix name sstSuffix = true) : name ≠ ascii "latest" := by
  intro same
  rw [same] at isSST
  exact absurd isSST (by decide +kernel)

include wrote in
/-- An object under a key that ends in the name of an SST of the directory is the SST if
the SST was uploaded there, and what it was otherwise. -/
theorem get_written_sst (placed : Placed place dir) {content : Content}
    (held : dir.files.get name = some content) (isSST : hasSuffix name sstSuffix = true)
    (named : base key = name) :
    written.get key =
      if place name content = .upload key then some content else store.get key := by
  have notManifest : key ≠ manifestKey := by
    rintro rfl
    exact sst_ne_latest isSST (named.symm.trans base_manifestKey)
  have notIndex : key ≠ checkpointIndexKey term revision := by
    rintro rfl
    exact sst_ne_manifestJson isSST (named.symm.trans (base_checkpointIndexKey term revision))
  rw [get_written wrote notManifest, if_neg notIndex]
  have here : uploadOf place term revision (name, content) = some (key, content) ↔
      place name content = .upload key := by
    unfold uploadOf
    simp only [isSST, if_true]
    cases place name content <;> simp
  split_ifs with uploaded
  · refine get_putAll_of_mem ?_ ?_
    · exact mem_filterMap.mpr ⟨(name, content), mem_entries_iff.mpr held, here.mpr uploaded⟩
    · intro c mem
      exact (placed.upload_unique held named mem).1
  · refine get_putAll_of_ne ?_
    rintro ⟨k, c⟩ mem rfl
    exact uploaded (here.mp (placed.upload_unique held named mem).2)

include wrote in
theorem get_written_meta (plain : Plain dir) (placed : Placed place dir) {content : Content}
    (held : dir.files.get name = some content)
    (isMeta : hasSuffix name sstSuffix = false) :
    written.get (metaKey term revision name) = some content := by
  have named := base_metaKey term revision (Directory.fileName held)
  have notIndex : metaKey term revision name ≠ checkpointIndexKey term revision := by
    intro same
    rw [same, base_checkpointIndexKey] at named
    rw [← named, plain.notIndex] at held
    cases held
  rw [get_written wrote (metaKey_ne_manifestKey term revision name), if_neg notIndex]
  refine get_putAll_of_mem ?_ ?_
  · refine mem_filterMap.mpr ⟨(name, content), mem_entries_iff.mpr held, ?_⟩
    simp [uploadOf, isMeta]
  · intro c mem
    exact (placed.upload_unique held named mem).1

/-! ## The index -/

theorem ownKey_eq_some :
    ownKey place file = some key ↔ hasSuffix file.1 sstSuffix = true ∧
      (place file.1 file.2 = .present key ∨ place file.1 file.2 = .upload key) := by
  unfold ownKey
  by_cases isSST : hasSuffix file.1 sstSuffix = true
  · cases placement : place file.1 file.2 <;> simp [isSST]
  · simp [isSST]

theorem ancestorKey_eq_some :
    ancestorKey place file = some key ↔
      hasSuffix file.1 sstSuffix = true ∧ place file.1 file.2 = .inherited key := by
  unfold ancestorKey
  by_cases isSST : hasSuffix file.1 sstSuffix = true
  · cases placement : place file.1 file.2 <;> simp [isSST]
  · simp [isSST]

theorem metaName_eq_some :
    metaName file = some name ↔ hasSuffix file.1 sstSuffix = false ∧ file.1 = name := by
  unfold metaName
  by_cases isSST : hasSuffix file.1 sstSuffix = true <;> simp [isSST]

theorem map_coerceUTF8 {l : List Bytes} (text : ∀ b ∈ l, ValidUTF8 b) :
    l.map coerceUTF8 = l := by
  rw [map_congr_left (g := id) text, map_id]

theorem marshalIndex_indexFor (plain : Plain dir) (placed : Placed place dir) :
    marshalIndex (indexFor place dir term revision sequence) =
      .index (indexFor place dir term revision sequence) := by
  have own : ∀ key ∈ dir.files.entries.filterMap (ownKey place), ValidUTF8 key := by
    intro key mem
    obtain ⟨file, isFile, listed⟩ := mem_filterMap.mp mem
    obtain ⟨isSST, placement⟩ := ownKey_eq_some.mp listed
    have text := placed.text (mem_entries_iff.mp isFile) isSST
    rcases placement with placement | placement <;> simpa [placement, Placement.key] using text
  have ancestor : ∀ key ∈ dir.files.entries.filterMap (ancestorKey place), ValidUTF8 key := by
    intro key mem
    obtain ⟨file, isFile, listed⟩ := mem_filterMap.mp mem
    obtain ⟨isSST, placement⟩ := ancestorKey_eq_some.mp listed
    have text := placed.text (mem_entries_iff.mp isFile) isSST
    simpa [placement, Placement.key] using text
  have metas : ∀ name ∈ dir.files.entries.filterMap metaName, ValidUTF8 name := by
    intro name mem
    obtain ⟨file, isFile, listed⟩ := mem_filterMap.mp mem
    obtain ⟨-, rfl⟩ := metaName_eq_some.mp listed
    exact plain.text (mem_entries_iff.mp isFile)
  unfold marshalIndex indexFor
  simp only [map_coerceUTF8 own, map_coerceUTF8 ancestor, map_coerceUTF8 metas]

include wrote in
theorem readCheckpointIndex_written (plain : Plain dir) (placed : Placed place dir) :
    readCheckpointIndex written (checkpointIndexKey term revision) =
      .ok { indexFor place dir term revision sequence with
        lastSequence := if sequence = 0 then revision else sequence } := by
  have stored := get_written wrote (metaKey_ne_manifestKey term revision manifestJson)
  unfold readCheckpointIndex
  rw [show checkpointIndexKey term revision = metaKey term revision manifestJson from rfl]
    at stored ⊢
  rw [stored, if_pos rfl, marshalIndex_indexFor plain placed]
  simp [decodeIndex, indexFor]

end Written

/-! ## Downloads -/

section Download

variable {α : Type} {store : ObjectStore} {key name : α → Bytes}

/-- If every object is there, the target gets a file for each, with the object's content. -/
theorem downloads_ok (failed : α → ArchiveError) {files : Bytes → Content} {listed : List α}
    (there : ∀ a ∈ listed, store.get (key a) = some (files (name a)) ∧ FileName (name a))
    (target : SortedMap Bytes Content) :
    ∃ target', listed.foldlM
        (fun target a => downloadFile (failed a) store (key a) (name a) target) target =
          .ok target' ∧
      ∀ n, target'.get n = if n ∈ listed.map name then some (files n) else target.get n := by
  induction listed generalizing target with
  | nil => exact ⟨target, rfl, by simp⟩
  | cons a rest ih =>
    obtain ⟨stored, valid⟩ := there a (by simp)
    obtain ⟨target', downloaded, lookup⟩ := ih
      (fun b mem => there b (mem_cons_of_mem _ mem)) (target.insert (name a) (files (name a)))
    have first : downloadFile (failed a) store (key a) (name a) target =
        .ok (target.insert (name a) (files (name a))) := by
      simp [downloadFile, stored, valid]
    refine ⟨target', ?_, ?_⟩
    · rw [foldlM_cons, first]
      exact downloaded
    · intro n
      rw [lookup, get_insert]
      by_cases later : n ∈ rest.map name
      · simp [later]
      · by_cases first : n = name a
        · simp [first]
        · simp [later, first]

theorem of_downloads_ok {failed : α → ArchiveError} {listed : List α}
    {target target' : SortedMap Bytes Content}
    (downloaded : listed.foldlM
      (fun target a => downloadFile (failed a) store (key a) (name a) target) target =
        .ok target') {a : α} (mem : a ∈ listed) : ∃ content, store.get (key a) = some content := by
  induction listed generalizing target with
  | nil => cases mem
  | cons b rest ih =>
    rw [foldlM_cons] at downloaded
    obtain ⟨next, first, later⟩ := bind_eq_ok downloaded
    rcases mem_cons.mp mem with rfl | mem
    · unfold downloadFile at first
      cases stored : store.get (key a) with
      | none =>
        rw [stored] at first
        cases first
      | some content => exact ⟨content, rfl⟩
    · exact ih later mem

end Download

/-! ## Restores -/

/-- A store from which the checkpoint of `dir` can be restored, up to its inherited SSTs. -/
structure HoldsOwn (place : Bytes → Content → Placement) (dir : Directory) (term : Nat)
    (revision : Int) (store : ObjectStore) : Prop where
  index : ∃ sequence seq, readCheckpointIndex store (checkpointIndexKey term revision) =
    .ok { indexFor place dir term revision sequence with lastSequence := seq }
  own : ∀ {name content key}, dir.files.get name = some content →
    ownKey place (name, content) = some key → store.get key = some content
  metas : ∀ {name content}, dir.files.get name = some content →
    hasSuffix name sstSuffix = false → store.get (metaKey term revision name) = some content

/-- The file that a restore gets for a name, with the inherited SSTs read from `source`. -/
def fetched (place : Bytes → Content → Placement) (dir : Directory) (source : ObjectStore)
    (name : Bytes) : Option Content :=
  (dir.files.get name).bind fun content =>
    match ancestorKey place (name, content) with
    | some key => source.get key
    | none => some content

section Restore

variable {place : Bytes → Content → Placement} {dir : Directory} {term : Nat} {revision : Int}
  {store : ObjectStore} {source : Option ObjectStore}

theorem fetched_of_none {source : ObjectStore} {name : Bytes} {content : Content}
    (held : dir.files.get name = some content) (own : ancestorKey place (name, content) = none) :
    fetched place dir source name = some content := by
  simp [fetched, held, own]

variable {key : Bytes} {file : Bytes × Content}

theorem fetched_of_some {source : ObjectStore} {name : Bytes} {content : Content}
    (held : dir.files.get name = some content)
    (inherited : ancestorKey place (name, content) = some key) :
    fetched place dir source name = source.get key := by
  simp [fetched, held, inherited]

theorem base_ownKey (placed : Placed place dir) (held : dir.files.get file.1 = some file.2)
    (listed : ownKey place file = some key) : base key = file.1 := by
  obtain ⟨isSST, placement⟩ := ownKey_eq_some.mp listed
  have named := placed.named held isSST
  rcases placement with placement | placement <;> simpa [placement, Placement.key] using named

theorem base_ancestorKey (placed : Placed place dir) (held : dir.files.get file.1 = some file.2)
    (listed : ancestorKey place file = some key) : base key = file.1 := by
  obtain ⟨isSST, placement⟩ := ancestorKey_eq_some.mp listed
  have named := placed.named held isSST
  simpa [placement, Placement.key] using named

theorem ancestorKey_of_ownKey (listed : ownKey place file = some key) :
    ancestorKey place file = none := by
  unfold ancestorKey
  obtain ⟨isSST, placement | placement⟩ := ownKey_eq_some.mp listed <;> simp [placement]

theorem listed_cases (place : Bytes → Content → Placement) (file : Bytes × Content) :
    (∃ key, ownKey place file = some key) ∨ (∃ key, ancestorKey place file = some key) ∨
      metaName file = some file.1 := by
  unfold ownKey ancestorKey metaName
  by_cases isSST : hasSuffix file.1 sstSuffix = true
  · cases place file.1 file.2 <;> simp [isSST]
  · simp [isSST]

theorem mem_listed_names (placed : Placed place dir) (name : Bytes) :
    (name ∈ (dir.files.entries.filterMap metaName).map (fun name => name) ∨
      name ∈ (dir.files.entries.filterMap (ancestorKey place)).map base ∨
      name ∈ (dir.files.entries.filterMap (ownKey place)).map base) ↔
    dir.files.get name ≠ none := by
  have inDirectory : ∀ file ∈ dir.files.entries, dir.files.get file.1 = some file.2 :=
    fun file isFile => mem_entries_iff.mp isFile
  constructor
  · rintro (listed | listed | listed)
    all_goals
      obtain ⟨key, mem, rfl⟩ := mem_map.mp listed
      obtain ⟨file, isFile, atKey⟩ := mem_filterMap.mp mem
      have held := inDirectory file isFile
    · rw [← (metaName_eq_some.mp atKey).2, held]
      exact Option.some_ne_none _
    · rw [base_ancestorKey placed held atKey, held]
      exact Option.some_ne_none _
    · rw [base_ownKey placed held atKey, held]
      exact Option.some_ne_none _
  · intro present
    obtain ⟨content, held⟩ := Option.ne_none_iff_exists'.mp present
    have isFile : (name, content) ∈ dir.files.entries := mem_entries_iff.mpr held
    rcases listed_cases place (name, content) with ⟨key, atKey⟩ | ⟨key, atKey⟩ | atName
    · exact Or.inr (Or.inr (mem_map.mpr
        ⟨key, mem_filterMap.mpr ⟨_, isFile, atKey⟩, base_ownKey placed held atKey⟩))
    · exact Or.inr (Or.inl (mem_map.mpr
        ⟨key, mem_filterMap.mpr ⟨_, isFile, atKey⟩, base_ancestorKey placed held atKey⟩))
    · exact Or.inl (mem_map.mpr ⟨name, mem_filterMap.mpr ⟨_, isFile, atName⟩, rfl⟩)

theorem trimSuffix_checkpointIndexKey (term : Nat) (revision : Int) (name : Bytes) :
    trimSuffix (checkpointIndexKey term revision) manifestJson ++ name =
      metaKey term revision name := by
  have shape : checkpointIndexKey term revision =
      (checkpointKey term revision ++ [slash]) ++ manifestJson := by
    simp [checkpointIndexKey]
  rw [shape, trimSuffix_append]
  simp [metaKey]

theorem hasSuffix_checkpointIndexKey (term : Nat) (revision : Int) :
    hasSuffix (checkpointIndexKey term revision) manifestJson = true := by
  have shape : checkpointIndexKey term revision =
      (checkpointKey term revision ++ [slash]) ++ manifestJson := by
    simp [checkpointIndexKey]
  rw [shape]
  exact hasSuffix_append _ _

/-- A restore that finds the inherited SSTs rebuilds the directory with their contents. -/
theorem restoreFromIndex_eq (placed : Placed place dir)
    (holds : HoldsOwn place dir term revision store)
    (there : ∀ name content key, dir.files.get name = some content →
      ancestorKey place (name, content) = some key →
        ∃ found, (source.getD store).get key = some found) :
    ∃ target, restoreFromIndex store source (checkpointIndexKey term revision) =
        .ok (target, term, revision) ∧
      ∀ name, target.get name = fetched place dir (source.getD store) name := by
  obtain ⟨sequence, seq, read⟩ := holds.index
  let files := fun name => (fetched place dir (source.getD store) name).getD (.bytes [])
  have own : ∀ key ∈ dir.files.entries.filterMap (ownKey place),
      store.get key = some (files (base key)) ∧ FileName (base key) := by
    intro key mem
    obtain ⟨file, isFile, listed⟩ := mem_filterMap.mp mem
    have held : dir.files.get file.1 = some file.2 := mem_entries_iff.mp isFile
    have got : fetched place dir (source.getD store) file.1 = some file.2 :=
      fetched_of_none held (ancestorKey_of_ownKey listed)
    rw [base_ownKey placed held listed]
    refine ⟨?_, Directory.fileName held⟩
    simp only [files, got, holds.own held listed, Option.getD_some]
  have ancestors : ∀ key ∈ dir.files.entries.filterMap (ancestorKey place),
      (source.getD store).get key = some (files (base key)) ∧ FileName (base key) := by
    intro key mem
    obtain ⟨file, isFile, listed⟩ := mem_filterMap.mp mem
    have held : dir.files.get file.1 = some file.2 := mem_entries_iff.mp isFile
    obtain ⟨found, stored⟩ := there file.1 file.2 key held listed
    rw [base_ancestorKey placed held listed]
    refine ⟨?_, Directory.fileName held⟩
    simp only [files, fetched_of_some held listed, stored, Option.getD_some]
  have metas : ∀ name ∈ dir.files.entries.filterMap metaName,
      store.get (trimSuffix (checkpointIndexKey term revision) manifestJson ++ name) =
        some (files name) ∧ FileName name := by
    intro name mem
    obtain ⟨file, isFile, listed⟩ := mem_filterMap.mp mem
    have held : dir.files.get file.1 = some file.2 := mem_entries_iff.mp isFile
    obtain ⟨isMeta, rfl⟩ := metaName_eq_some.mp listed
    have own : ancestorKey place file = none := by simp [ancestorKey, isMeta]
    rw [trimSuffix_checkpointIndexKey, holds.metas held isMeta]
    refine ⟨?_, Directory.fileName held⟩
    simp only [files, fetched_of_none held own, Option.getD_some]
  obtain ⟨first, downloadedOwn, lookupOwn⟩ := downloads_ok .downloadSST own .empty
  obtain ⟨second, downloadedAncestors, lookupAncestors⟩ :=
    downloads_ok .downloadAncestorSST ancestors first
  obtain ⟨third, downloadedMetas, lookupMetas⟩ :=
    downloads_ok .downloadMeta metas second
  refine ⟨third, ?_, ?_⟩
  · unfold restoreFromIndex
    rw [hasSuffix_checkpointIndexKey, read]
    simp only [indexFor, downloadedOwn, downloadedAncestors, downloadedMetas, bind, Except.bind,
      Bool.not_true, Bool.false_eq_true, if_false]
  · intro name
    have names := mem_listed_names placed name
    rw [lookupMetas, lookupAncestors, lookupOwn, get_empty]
    cases held : dir.files.get name with
    | none =>
      have unlisted := mt names.mp (by simp [held])
      simp only [not_or] at unlisted
      rw [if_neg unlisted.1, if_neg unlisted.2.1, if_neg unlisted.2.2]
      simp [fetched, held]
    | some content =>
      have got : fetched place dir (source.getD store) name = some (files name) := by
        cases listed : ancestorKey place (name, content) with
        | none => simp only [files, fetched_of_none held listed, Option.getD_some]
        | some key =>
          obtain ⟨found, stored⟩ := there name content key held listed
          simp only [files, fetched_of_some held listed, stored, Option.getD_some]
      rw [got]
      rcases names.mpr (by simp [held]) with listed | listed | listed
      · rw [if_pos listed]
      · rw [if_pos listed, ite_self]
      · rw [if_pos listed, ite_self, ite_self]

/-- A restore rebuilds the directory exactly if the store that it reads for the inherited
SSTs holds each of them with the file's content. -/
theorem restoreFromIndex_iff (placed : Placed place dir)
    (holds : HoldsOwn place dir term revision store) :
    restoreFromIndex store source (checkpointIndexKey term revision) =
        .ok (dir.files, term, revision) ↔
      ∀ name content key, dir.files.get name = some content →
        ancestorKey place (name, content) = some key →
          (source.getD store).get key = some content := by
  constructor
  · intro restored name content key held listed
    have there : ∀ name content key, dir.files.get name = some content →
        ancestorKey place (name, content) = some key →
          ∃ found, (source.getD store).get key = some found := by
      intro name content key held listed
      obtain ⟨sequence, seq, read⟩ := holds.index
      unfold restoreFromIndex at restored
      rw [hasSuffix_checkpointIndexKey, read] at restored
      obtain ⟨first, -, afterOwn⟩ := bind_eq_ok restored
      obtain ⟨second, downloaded, -⟩ := bind_eq_ok afterOwn
      exact of_downloads_ok downloaded
        (mem_filterMap.mpr ⟨(name, content), mem_entries_iff.mpr held, listed⟩)
    obtain ⟨target, same, lookup⟩ := restoreFromIndex_eq placed holds there
    have sameTarget : target = dir.files := by
      rw [restored] at same
      cases same
      rfl
    rw [← fetched_of_some held listed, ← lookup, sameTarget, held]
  · intro inherited
    obtain ⟨target, restored, lookup⟩ := restoreFromIndex_eq placed holds
      (fun name content key held listed => ⟨content, inherited name content key held listed⟩)
    have sameTarget : target = dir.files := by
      refine eq_of_get ?_
      intro name
      rw [lookup]
      cases held : dir.files.get name with
      | none => simp [fetched, held]
      | some content =>
        cases listed : ancestorKey place (name, content) with
        | none => exact fetched_of_none held listed
        | some key =>
          rw [fetched_of_some held listed]
          exact inherited name content key held listed
    rw [restored, sameTarget]

end Restore

/-- A write leaves the checkpoint in the store, if the SSTs that it took for present were. -/
theorem HoldsOwn.of_write {place : Bytes → Content → Placement} {faults : Faults}
    {dir : Directory} {store written : ObjectStore} {term : Nat} {revision sequence : Int}
    {lastWALKey : Bytes} (plain : Plain dir) (placed : Placed place dir)
    (present : ∀ name content key, dir.files.get name = some content →
      hasSuffix name sstSuffix = true → place name content = .present key →
        store.get key = some content)
    (wrote : writeCheckpoint place faults dir store term revision sequence lastWALKey =
      .ok written) :
    HoldsOwn place dir term revision written := by
  refine ⟨⟨sequence, _, readCheckpointIndex_written wrote plain placed⟩, ?_, ?_⟩
  · intro name content key held listed
    have named := base_ownKey placed held listed
    obtain ⟨isSST, placement⟩ := ownKey_eq_some.mp listed
    rw [get_written_sst wrote placed held isSST named]
    split_ifs with uploaded
    · rfl
    · exact present name content key held isSST (placement.resolve_right uploaded)
  · intro name content held isMeta
    exact get_written_meta wrote plain placed held isMeta

end T4.Archive
