import T4.Lib.SortedMap
import T4.Lib.Text

/-!
# Writing and restoring a checkpoint directory

`WriteAtSequence`, `WriteWithRegistryAtSequence` and `restoreFromIndex` of
`internal/checkpoint/checkpoint.go`, at the level of object keys and file names. A
checkpoint directory is a flat directory of files. A writer puts each file that is not an
SST under the checkpoint's own prefix, and for each SST it decides whether the object is
already in the store, is inherited from the ancestor store, or has to be uploaded. The
index lists the keys, and a restore rebuilds the directory from the last elements of the
listed keys.

The two writers differ in that decision alone (`Placement`): one compares content keys
with those of the previous index, the other looks up the file's name in the registries of
the uploader.
-/

namespace T4.Archive

open Lib Text

/-! ## Objects -/

structure Manifest where
  formatVersion : Nat
  checkpointKey : Bytes
  revision : Int
  lastSequence : Int
  term : Nat
  lastWALKey : Bytes
  deriving DecidableEq

structure CheckpointIndex where
  formatVersion : Nat
  term : Nat
  revision : Int
  lastSequence : Int
  /-- Full keys of the SSTs in this store. -/
  sstFiles : List Bytes
  /-- Full keys of the SSTs in the ancestor store. -/
  ancestorSSTFiles : List Bytes
  /-- Names of the files under the checkpoint's own prefix. -/
  pebbleMeta : List Bytes
  deriving DecidableEq

/-- The bytes of a file or object. A JSON text is kept as the record that it encodes. -/
inductive Content
  | bytes (b : Bytes)
  | index (idx : CheckpointIndex)
  | manifest (m : Manifest)
  deriving DecidableEq

abbrev ObjectStore := SortedMap Bytes Content

structure Directory where
  files : SortedMap Bytes Content
  names : ∀ file ∈ files.entries, FileName file.1

def checkpointFormatVersion : Nat := 1

/-! ## JSON

Go writes a string that is not valid UTF-8 with replacement characters, and it ignores
the fields that a record does not have. -/

def marshalIndex (idx : CheckpointIndex) : Content :=
  .index { idx with
    sstFiles := idx.sstFiles.map coerceUTF8
    ancestorSSTFiles := idx.ancestorSSTFiles.map coerceUTF8
    pebbleMeta := idx.pebbleMeta.map coerceUTF8 }

def marshalManifest (m : Manifest) : Content :=
  .manifest { m with
    checkpointKey := coerceUTF8 m.checkpointKey
    lastWALKey := coerceUTF8 m.lastWALKey }

def decodeIndex : Content → Option CheckpointIndex
  | .bytes _ => none
  | .index idx => some idx
  | .manifest m => some ⟨m.formatVersion, m.term, m.revision, m.lastSequence, [], [], []⟩

def decodeManifest : Content → Option Manifest
  | .bytes _ => none
  | .index idx => some ⟨idx.formatVersion, [], idx.revision, idx.lastSequence, idx.term, []⟩
  | .manifest m => some m

/-! ## Keys -/

def manifestKey : Bytes := ascii "manifest/latest"

def manifestJson : Bytes := ascii "manifest.json"

def sstSuffix : Bytes := ascii ".sst"

/-- `CheckpointKey`. -/
def checkpointKey (term : Nat) (revision : Int) : Bytes :=
  ascii "checkpoint/" ++ padDecimal 10 term ++ slash :: padDecimal 20 revision

def metaKey (term : Nat) (revision : Int) (name : Bytes) : Bytes :=
  checkpointKey term revision ++ slash :: name

def checkpointIndexKey (term : Nat) (revision : Int) : Bytes :=
  checkpointKey term revision ++ slash :: manifestJson

/-- `sst/{hash}/{name}`; `digest` is the first eight bytes of the SHA-256. -/
def contentSSTKey (digest : Content → UInt64) (content : Content) (name : Bytes) : Bytes :=
  ascii "sst/" ++ hexEncode (Bytes.bigEndian 8 (digest content).toNat) ++ slash :: name

/-! ## Reading the records -/

inductive ArchiveError
  | decodeManifest
  | manifestVersion (version : Nat)
  | notFound (key : Bytes)
  | decodeIndex (key : Bytes)
  | indexVersion (key : Bytes) (version : Nat)
  | listAncestor
  | uploadSST (key : Bytes)
  | uploadMeta (name : Bytes)
  | uploadIndex
  | writeManifest
  /-- The index key does not end with `manifest.json`. -/
  | indexKey (key : Bytes)
  | readIndex (key : Bytes)
  | downloadSST (key : Bytes)
  | downloadAncestorSST (key : Bytes)
  | downloadMeta (name : Bytes)
  deriving DecidableEq

/-- `ReadManifest`. -/
def readManifest (store : ObjectStore) : Except ArchiveError (Option Manifest) :=
  match store.get manifestKey with
  | none => .ok none
  | some content =>
    match decodeManifest content with
    | none => .error .decodeManifest
    | some m =>
      if m.formatVersion > checkpointFormatVersion then .error (.manifestVersion m.formatVersion)
      else .ok (some
        { m with lastSequence := if m.lastSequence = 0 then m.revision else m.lastSequence })

/-- `ReadCheckpointIndex`. -/
def readCheckpointIndex (store : ObjectStore) (key : Bytes) :
    Except ArchiveError CheckpointIndex :=
  match store.get key with
  | none => .error (.notFound key)
  | some content =>
    match decodeIndex content with
    | none => .error (.decodeIndex key)
    | some idx =>
      if idx.formatVersion > checkpointFormatVersion then
        .error (.indexVersion key idx.formatVersion)
      else .ok
        { idx with
          lastSequence := if idx.lastSequence = 0 then idx.revision else idx.lastSequence }

/-! ## Writing -/

/-- The requests of a writer that fail. -/
structure Faults where
  put : Bytes → Bool := fun _ => false
  readManifest : Bool := false
  readIndex : Bool := false
  list : Bool := false

/-- What becomes of an SST of the directory. -/
inductive Placement
  /-- The store has it under this key. -/
  | present (key : Bytes)
  /-- The ancestor store has it under this key. -/
  | inherited (key : Bytes)
  | upload (key : Bytes)
  deriving DecidableEq

/-- The store and the three lists that a walk over the directory builds. -/
structure Uploaded where
  store : ObjectStore
  sstFiles : List Bytes := []
  ancestorSSTFiles : List Bytes := []
  metaFiles : List Bytes := []

def put (faults : Faults) (failed : ArchiveError) (store : ObjectStore) (key : Bytes)
    (content : Content) : Except ArchiveError ObjectStore :=
  if faults.put key then .error failed else .ok (store.insert key content)

def visit (place : Bytes → Content → Placement) (faults : Faults) (term : Nat) (revision : Int)
    (u : Uploaded) (file : Bytes × Content) : Except ArchiveError Uploaded :=
  if hasSuffix file.1 sstSuffix then
    match place file.1 file.2 with
    | .present key => .ok { u with sstFiles := u.sstFiles ++ [key] }
    | .inherited key => .ok { u with ancestorSSTFiles := u.ancestorSSTFiles ++ [key] }
    | .upload key => do
      let store ← put faults (.uploadSST key) u.store key file.2
      .ok { u with store := store, sstFiles := u.sstFiles ++ [key] }
  else do
    let store ← put faults (.uploadMeta file.1) u.store (metaKey term revision file.1) file.2
    .ok { u with store := store, metaFiles := u.metaFiles ++ [file.1] }

/-- `filepath.Walk` visits the files in the order of their names. -/
def walk (place : Bytes → Content → Placement) (faults : Faults) (term : Nat) (revision : Int)
    (dir : Directory) (store : ObjectStore) : Except ArchiveError Uploaded :=
  dir.files.entries.foldlM (visit place faults term revision) { store := store }

/-- `WriteManifest`. -/
def writeManifest (faults : Faults) (store : ObjectStore) (m : Manifest) :
    Except ArchiveError ObjectStore :=
  put faults .writeManifest store manifestKey (marshalManifest m)

/-- The index that `writeIndex` writes. -/
def indexOf (term : Nat) (revision sequence : Int) (u : Uploaded) : CheckpointIndex where
  formatVersion := checkpointFormatVersion
  term := term
  revision := revision
  lastSequence := sequence
  sstFiles := u.sstFiles
  ancestorSSTFiles := u.ancestorSSTFiles
  pebbleMeta := u.metaFiles

/-- The manifest that `writeIndex` writes. -/
def manifestOf (term : Nat) (revision sequence : Int) (lastWALKey : Bytes) : Manifest where
  formatVersion := checkpointFormatVersion
  checkpointKey := checkpointIndexKey term revision
  revision := revision
  lastSequence := sequence
  term := term
  lastWALKey := lastWALKey

def writeIndex (faults : Faults) (term : Nat) (revision sequence : Int) (lastWALKey : Bytes)
    (u : Uploaded) : Except ArchiveError ObjectStore := do
  let store ← put faults .uploadIndex u.store (checkpointIndexKey term revision)
    (marshalIndex (indexOf term revision sequence u))
  writeManifest faults store (manifestOf term revision sequence lastWALKey)

/-- A checkpoint written with the decisions `place`. -/
def writeCheckpoint (place : Bytes → Content → Placement) (faults : Faults) (dir : Directory)
    (store : ObjectStore) (term : Nat) (revision sequence : Int) (lastWALKey : Bytes) :
    Except ArchiveError ObjectStore := do
  let u ← walk place faults term revision dir store
  writeIndex faults term revision sequence lastWALKey u

/-! ### With the previous index -/

/-- `listSSTSet`. -/
def listSSTSet (store : ObjectStore) : List Bytes :=
  (store.entries.map Prod.fst).filter (ascii "sst/").isPrefixOf

/-- The index that `manifest/latest` names; none if either cannot be read. -/
def previousIndex (faults : Faults) (store : ObjectStore) : Option CheckpointIndex :=
  if faults.readManifest then none
  else
    match readManifest store with
    | .error _ => none
    | .ok none => none
    | .ok (some manifest) =>
      if faults.readIndex then none
      else (readCheckpointIndex store manifest.checkpointKey).toOption

/-- `knownSSTSets`: the keys known in the store, and those known in the ancestor store. -/
def knownSSTSets (faults : Faults) (store : ObjectStore) (ancestorStore : Option ObjectStore) :
    Except ArchiveError (List Bytes × List Bytes) :=
  let known := match previousIndex faults store with
    | none => ([], [])
    | some idx => (idx.sstFiles, idx.ancestorSSTFiles)
  match ancestorStore with
  | some source =>
    if known.2 = [] then
      if faults.list then .error .listAncestor else .ok (known.1, listSSTSet source)
    else .ok known
  | none => .ok known

/-- The decision of `WriteAtSequence`. -/
def placeKnown (digest : Content → UInt64) (known : List Bytes × List Bytes) (name : Bytes)
    (content : Content) : Placement :=
  let key := contentSSTKey digest content name
  if key ∈ known.1 then .present key
  else if key ∈ known.2 then .inherited key
  else .upload key

def writeAtSequence (digest : Content → UInt64) (faults : Faults) (dir : Directory)
    (store : ObjectStore) (term : Nat) (revision sequence : Int) (lastWALKey : Bytes)
    (ancestorStore : Option ObjectStore) : Except ArchiveError ObjectStore := do
  let known ← knownSSTSets faults store ancestorStore
  writeCheckpoint (placeKnown digest known) faults dir store term revision sequence lastWALKey

/-! ### With the registries of the uploader -/

/-- The decision of `WriteWithRegistryAtSequence`. -/
def placeRegistered (digest : Content → UInt64)
    (localRegistry inheritedRegistry : SortedMap Bytes Bytes) (name : Bytes)
    (content : Content) : Placement :=
  match inheritedRegistry.get name with
  | some key => .inherited key
  | none =>
    match localRegistry.get name with
    | some key => .present key
    | none => .upload (contentSSTKey digest content name)

def writeWithRegistryAtSequence (digest : Content → UInt64) (faults : Faults) (dir : Directory)
    (store : ObjectStore) (term : Nat) (revision sequence : Int) (lastWALKey : Bytes)
    (localRegistry inheritedRegistry : SortedMap Bytes Bytes) :
    Except ArchiveError ObjectStore :=
  writeCheckpoint (placeRegistered digest localRegistry inheritedRegistry) faults dir store term
    revision sequence lastWALKey

/-! ## Restoring -/

/-- `downloadFile` into the target directory. -/
def downloadFile (failed : ArchiveError) (store : ObjectStore) (key name : Bytes)
    (target : SortedMap Bytes Content) : Except ArchiveError (SortedMap Bytes Content) :=
  match store.get key with
  | none => .error failed
  | some content => if FileName name then .ok (target.insert name content) else .error failed

def restoreFromIndex (store : ObjectStore) (ancestorStore : Option ObjectStore)
    (indexKey : Bytes) : Except ArchiveError (SortedMap Bytes Content × Nat × Int) :=
  if !hasSuffix indexKey manifestJson then .error (.indexKey indexKey)
  else
    match readCheckpointIndex store indexKey with
    | .error _ => .error (.readIndex indexKey)
    | .ok idx => do
      let target ← idx.sstFiles.foldlM
        (fun target key => downloadFile (.downloadSST key) store key (base key) target) .empty
      let target ← idx.ancestorSSTFiles.foldlM
        (fun target key => downloadFile (.downloadAncestorSST key) (ancestorStore.getD store) key
          (base key) target) target
      let target ← idx.pebbleMeta.foldlM
        (fun target name => downloadFile (.downloadMeta name) store
          (trimSuffix indexKey manifestJson ++ name) name target) target
      .ok (target, idx.term, idx.revision)

/-- `Manager.Restore`. -/
def restore (store : ObjectStore) (objKey : Bytes) :
    Except ArchiveError (SortedMap Bytes Content × Nat × Int) :=
  restoreFromIndex store none objKey

/-- `Manager.RestoreBranch`. -/
def restoreBranch (store : ObjectStore) (ancestorStore : Option ObjectStore) (objKey : Bytes) :
    Except ArchiveError (SortedMap Bytes Content × Nat × Int) :=
  restoreFromIndex store ancestorStore objKey

end T4.Archive
