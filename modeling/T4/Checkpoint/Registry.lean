import T4.Checkpoint.Archive
import T4.Lib.System

/-!
# The registry of uploaded SST files

`internal/store/sstuploader.go` keeps, for every SST file it has uploaded, the object key
under the file's name, and `WriteWithRegistryAtSequence` lists the registered key of every
SST of the checkpoint directory. Object keys are derived from the content of a file, but
the registry is keyed by the name alone and entries are never removed.

The model is a node's database directory with its uploader: Pebble creates, fills,
finishes and removes SST files under increasing numbers, uploads run concurrently, a
restore replaces the directory by the files of a downloaded checkpoint, whose database
counts its own file numbers, and a leader's GC deletes objects.
-/

namespace T4.Checkpoint

open Lib SortedMap Text List Function

variable {H : Type}

/-! ## The uploader -/

/-- The key `sst/{hash}/{name}` of an object; files are named by their number. -/
structure SstKey (H : Type) where
  hash : H
  name : Nat
  deriving DecidableEq

/-- The key of a file with this name and content; `hash` is the prefix of its SHA-256. Texts of
keys are those of `T4.Archive` (`contentSSTKey_text`). -/
def contentSSTKey (hash : List UInt8 → H) (name : Nat) (bytes : List UInt8) : SstKey H :=
  ⟨hash bytes, name⟩

/-- The object key as a text. -/
def SstKey.text (fileName : Nat → Bytes) (key : SstKey UInt64) : Bytes :=
  ascii "sst/" ++ hexEncode (Bytes.bigEndian 8 key.hash.toNat) ++ slash :: fileName key.name

theorem contentSSTKey_text (digest : Archive.Content → UInt64) (fileName : Nat → Bytes)
    (name : Nat) (bytes : Bytes) :
    (contentSSTKey (fun bytes => digest (.bytes bytes)) name bytes).text fileName =
      Archive.contentSSTKey digest (.bytes bytes) (fileName name) := rfl

structure SstFile where
  bytes : List UInt8
  /-- Pebble has written all of it. -/
  finished : Bool
  deriving DecidableEq

/-- How far a call of `uploadOne` has come. -/
inductive UploadStage (H : Type)
  /-- The name was not in the registry. -/
  | checked
  | hashed (key : SstKey H)
  /-- The file is open; its bytes stay readable when it is removed. -/
  | opened (key : SstKey H) (bytes : List UInt8)
  | stored (key : SstKey H)
  deriving DecidableEq

structure RegistryState (H : Type) where
  /-- The SST files of the database directory. -/
  dir : Nat → Option SstFile
  /-- The number of the next file that Pebble creates. -/
  nextFile : Nat
  /-- The open database reports finished files to the uploader. -/
  listening : Bool := true
  stopped : Bool := false
  /-- `uploadC`. -/
  uploadC : List Nat := []
  /-- Running calls of `uploadOne`. -/
  inFlight : List (Nat × UploadStage H) := []
  /-- The map `local`. -/
  registry : SortedMap Nat (SstKey H) := SortedMap.empty
  inherited : List Nat := []
  /-- The objects under `sst/`. -/
  bucket : SstKey H → Option (List UInt8)

inductive RegistryAction (H : Type)
  /-- Pebble creates a file for a flush or a compaction. -/
  | create
  | write (name : Nat) (bytes : List UInt8)
  /-- `FlushEnd` or `CompactionEnd`. -/
  | finish (name : Nat)
  /-- A compacted file is removed. -/
  | remove (name : Nat)
  /-- The uploader takes the next path of its queue. -/
  | start
  /-- One round of the loop of `Reconcile`. -/
  | reconcile (name : Nat)
  | hash (i : Nat)
  | openFile (i : Nat)
  | put (i : Nat) (succeeds : Bool)
  | register (i : Nat)
  | stop
  /-- Another node stores a file of its own. -/
  | otherPut (name : Nat) (bytes : List UInt8)
  /-- The directory is replaced by the files of a checkpoint. -/
  | replace (keys : List (SstKey H)) (nextFile : Nat) (listening : Bool)
  /-- `WriteWithRegistryAtSequence`. -/
  | checkpoint
  /-- `GCOrphanSSTs`, by this node, another one or the `gc` command. -/
  | collect (keys : List (SstKey H))
  deriving DecidableEq

/-- Capacity of the upload queue. -/
def sstQueueSize : Nat := 512

namespace RegistryState

/-- `uploadOne` up to the lookup in the registry. -/
def uploadOne (s : RegistryState H) (name : Nat) : RegistryState H :=
  if (s.registry.get name).isSome then s
  else { s with inFlight := s.inFlight ++ [(name, .checked)] }

/-- The listener's `queueTable`. -/
def queueTable (s : RegistryState H) (name : Nat) : RegistryState H :=
  if s.listening = false ∨ s.stopped then s
  else if s.uploadC.length < sstQueueSize then { s with uploadC := s.uploadC ++ [name] }
  else s.uploadOne name

/-- The directory that a restore builds from the SST keys of an index. -/
def restored (s : RegistryState H) (keys : List (SstKey H)) (name : Nat) : Option SstFile :=
  match keys.find? (fun key => key.name = name) with
  | none => none
  | some key => (s.bucket key).map (fun bytes => ⟨bytes, true⟩)

/-- The bucket after the inline uploads of a checkpoint: files that are neither inherited
nor registered. -/
def uploadMissing [DecidableEq H] (hash : List UInt8 → H) (s : RegistryState H)
    (key : SstKey H) : Option (List UInt8) :=
  match s.dir key.name with
  | none => s.bucket key
  | some file =>
    if file.finished ∧ key.name ∉ s.inherited ∧ s.registry.get key.name = none ∧
        key = contentSSTKey hash key.name file.bytes then some file.bytes
    else s.bucket key

def withoutKeys [DecidableEq H] (s : RegistryState H) (keys : List (SstKey H))
    (key : SstKey H) : Option (List UInt8) :=
  if key ∈ keys then none else s.bucket key

end RegistryState

variable (hash : List UInt8 → H)

def registryStep [DecidableEq H] (s : RegistryState H) :
    RegistryAction H → Option (RegistryState H)
  | .create =>
    some { s with
      dir := update s.dir s.nextFile (some ⟨[], false⟩)
      nextFile := s.nextFile + 1 }
  | .write name bytes =>
    match s.dir name with
    | some file =>
      if file.finished then none
      else some { s with dir := update s.dir name (some ⟨file.bytes ++ bytes, false⟩) }
    | none => none
  | .finish name =>
    match s.dir name with
    | some file =>
      if file.finished then none
      else some ({ s with
        dir := update s.dir name (some ⟨file.bytes, true⟩) }.queueTable name)
    | none => none
  | .remove name =>
    match s.dir name with
    | some _ => some { s with dir := update s.dir name none }
    | none => none
  | .start =>
    match s.uploadC with
    | name :: rest => some ({ s with uploadC := rest }.uploadOne name)
    | [] => none
  | .reconcile name =>
    match s.dir name with
    | some file =>
      if file.bytes ≠ [] ∧ s.registry.get name = none ∧ name ∉ s.inherited then
        some (s.uploadOne name)
      else none
    | none => none
  | .hash i =>
    match s.inFlight[i]? with
    | some (name, .checked) =>
      match s.dir name with
      | some file => some { s with
          inFlight := s.inFlight.set i (name, .hashed (contentSSTKey hash name file.bytes)) }
      -- Compacted away before it could be uploaded.
      | none => some { s with inFlight := s.inFlight.eraseIdx i }
    | _ => none
  | .openFile i =>
    match s.inFlight[i]? with
    | some (name, .hashed key) =>
      match s.dir name with
      | some file => some { s with inFlight := s.inFlight.set i (name, .opened key file.bytes) }
      | none => some { s with inFlight := s.inFlight.eraseIdx i }
    | _ => none
  | .put i succeeds =>
    match s.inFlight[i]? with
    | some (name, .opened key bytes) =>
      if succeeds then some { s with
        bucket := update s.bucket key (some bytes)
        inFlight := s.inFlight.set i (name, .stored key) }
      else some { s with inFlight := s.inFlight.eraseIdx i }
    | _ => none
  | .register i =>
    match s.inFlight[i]? with
    | some (name, .stored key) => some { s with
        registry := s.registry.insert name key
        inFlight := s.inFlight.eraseIdx i }
    | _ => none
  | .stop => some { s with stopped := true }
  | .otherPut name bytes => some { s with
      bucket := update s.bucket (contentSSTKey hash name bytes) (some bytes) }
  | .replace keys nextFile listening =>
    -- The index lists each file once, and the checkpoint's database is past its numbers.
    if (keys.map SstKey.name).Nodup ∧ (∀ key ∈ keys, (s.bucket key).isSome) ∧
        ∀ key ∈ keys, key.name < nextFile then
      some { s with dir := s.restored keys, nextFile, listening }
    else none
  | .checkpoint => some { s with bucket := s.uploadMissing hash }
  | .collect keys => some { s with bucket := s.withoutKeys keys }

/-- The key is one for this name, and it is the key of the present file, if there is one,
and holds its content. -/
def Registered (s : RegistryState H) (name : Nat) (key : SstKey H) : Prop :=
  key.name = name ∧ ∀ file, s.dir name = some file → file.finished = true ∧
    key = contentSSTKey hash name file.bytes ∧ s.bucket key = some file.bytes

def UploadSound (s : RegistryState H) (name : Nat) : UploadStage H → Prop
  | .checked => ∀ file, s.dir name = some file → file.finished = true
  | .hashed key => ∀ file, s.dir name = some file →
      file.finished = true ∧ key = contentSSTKey hash name file.bytes
  | .opened key bytes => key = contentSSTKey hash name bytes ∧
      ∀ file, s.dir name = some file → file.finished = true ∧ file.bytes = bytes
  | .stored key => Registered hash s name key

structure RegistryState.Inv (s : RegistryState H) : Prop where
  content : ∀ key bytes, s.bucket key = some bytes → key = contentSSTKey hash key.name bytes
  files : ∀ name file, s.dir name = some file → name < s.nextFile
  entries : ∀ name key, s.registry.get name = some key →
    name < s.nextFile ∧ Registered hash s name key
  uploads : ∀ upload ∈ s.inFlight, upload.1 < s.nextFile ∧ UploadSound hash s upload.1 upload.2

/-- What the steps of Pebble and the puts keep: finished files and their objects. -/
structure Frame (s t : RegistryState H) : Prop where
  grows : s.nextFile ≤ t.nextFile
  dir : ∀ name < s.nextFile, ∀ file, t.dir name = some file →
    s.dir name = some file ∨ ∃ old, s.dir name = some old ∧ old.finished = false
  bucket : ∀ name file, s.dir name = some file →
    s.bucket (contentSSTKey hash name file.bytes) = some file.bytes →
      t.bucket (contentSSTKey hash name file.bytes) = some file.bytes

variable {hash} {s t : RegistryState H} {name : Nat}

theorem Frame.same_file (frame : Frame hash s t) (older : name < s.nextFile)
    (finished : ∀ file, s.dir name = some file → file.finished = true) {file : SstFile}
    (found : t.dir name = some file) : s.dir name = some file := by
  rcases frame.dir name older file found with same | ⟨old, wasThere, unfinished⟩
  · exact same
  · rw [finished old wasThere] at unfinished
    cases unfinished

theorem Registered.frame {key : SstKey H} (registered : Registered hash s name key)
    (frame : Frame hash s t) (older : name < s.nextFile) : Registered hash t name key := by
  refine ⟨registered.1, fun file found => ?_⟩
  have before := frame.same_file older (fun file found => (registered.2 file found).1) found
  obtain ⟨finished, rfl, stored⟩ := registered.2 file before
  exact ⟨finished, rfl, frame.bucket name file before stored⟩

theorem UploadSound.frame {stage : UploadStage H} (sound : UploadSound hash s name stage)
    (frame : Frame hash s t) (older : name < s.nextFile) : UploadSound hash t name stage := by
  cases stage with
  | checked =>
    intro file found
    exact sound file (frame.same_file older sound found)
  | hashed key =>
    intro file found
    exact sound file (frame.same_file older (fun file found => (sound file found).1) found)
  | opened key bytes =>
    refine ⟨sound.1, fun file found => ?_⟩
    exact sound.2 file (frame.same_file older (fun file found => (sound.2 file found).1) found)
  | stored key => exact Registered.frame sound frame older

namespace RegistryState

theorem Inv.frame (inv : s.Inv hash) (frame : Frame hash s t) (registry : t.registry = s.registry)
    (inFlight : t.inFlight = s.inFlight)
    (content : ∀ key bytes, t.bucket key = some bytes → key = contentSSTKey hash key.name bytes)
    (files : ∀ name file, t.dir name = some file → name < t.nextFile) : t.Inv hash := by
  refine ⟨content, files, ?_, ?_⟩
  · intro name key found
    rw [registry] at found
    obtain ⟨older, registered⟩ := inv.entries name key found
    exact ⟨older.trans_le frame.grows, registered.frame frame older⟩
  · intro upload mem
    rw [inFlight] at mem
    obtain ⟨older, sound⟩ := inv.uploads upload mem
    exact ⟨older.trans_le frame.grows, sound.frame frame older⟩

theorem Inv.uploading (inv : s.Inv hash) {uploads : List (Nat × UploadStage H)}
    (sound : ∀ upload ∈ uploads, upload ∈ s.inFlight ∨
      upload.1 < s.nextFile ∧ UploadSound hash s upload.1 upload.2) :
    ({ s with inFlight := uploads } : RegistryState H).Inv hash := by
  refine ⟨inv.content, inv.files, inv.entries, ?_⟩
  intro upload mem
  rcases sound upload mem with old | new
  · exact inv.uploads upload old
  · exact new

theorem Inv.running (inv : s.Inv hash) {i : Nat} {stage : UploadStage H}
    (running : s.inFlight[i]? = some (name, stage)) :
    name < s.nextFile ∧ UploadSound hash s name stage :=
  inv.uploads (name, stage) (mem_of_getElem? running)

theorem Inv.begin (inv : s.Inv hash) (older : name < s.nextFile)
    (finished : ∀ file, s.dir name = some file → file.finished = true) :
    (s.uploadOne name).Inv hash := by
  unfold uploadOne
  split
  · exact inv
  · refine inv.uploading ?_
    intro upload mem
    rcases mem_append.mp mem with old | new
    · exact Or.inl old
    · cases mem_singleton.mp new
      exact Or.inr ⟨older, finished⟩

theorem Inv.abandon (inv : s.Inv hash) (i : Nat) :
    ({ s with inFlight := s.inFlight.eraseIdx i } : RegistryState H).Inv hash :=
  inv.uploading fun _ mem => Or.inl (mem_of_mem_eraseIdx mem)

theorem Inv.advance (inv : s.Inv hash) (i : Nat) {stage : UploadStage H}
    (older : name < s.nextFile) (sound : UploadSound hash s name stage) :
    ({ s with inFlight := s.inFlight.set i (name, stage) } : RegistryState H).Inv hash := by
  refine inv.uploading ?_
  intro upload mem
  rcases mem_or_eq_of_mem_set mem with old | rfl
  · exact Or.inl old
  · exact Or.inr ⟨older, sound⟩

theorem Inv.queueTable (inv : s.Inv hash) (older : name < s.nextFile)
    (finished : ∀ file, s.dir name = some file → file.finished = true) :
    (s.queueTable name).Inv hash := by
  unfold RegistryState.queueTable
  split_ifs
  · exact inv
  · exact ⟨inv.content, inv.files, inv.entries, inv.uploads⟩
  · exact inv.begin older finished

theorem Inv.dir (inv : s.Inv hash) {nextFile : Nat} (grows : s.nextFile ≤ nextFile)
    {file : Option SstFile} (below : name < nextFile)
    (open' : file = none ∨ s.nextFile ≤ name ∨
      ∃ old, s.dir name = some old ∧ old.finished = false) :
    ({ s with dir := update s.dir name file, nextFile } : RegistryState H).Inv hash := by
  refine inv.frame ⟨grows, ?_, fun _ _ _ stored => stored⟩ rfl rfl inv.content ?_
  · intro other older present found
    by_cases same : other = name
    · subst same
      rcases open' with gone | later | unfinished
      · simp [gone] at found
      · exact absurd older (not_lt.mpr later)
      · exact Or.inr unfinished
    · simp only [update_of_ne same] at found
      exact Or.inl found
  · intro other present found
    by_cases same : other = name
    · exact same ▸ below
    · simp only [update_of_ne same] at found
      exact (inv.files other present found).trans_le grows

theorem Inv.stores [DecidableEq H] (inv : s.Inv hash) (name : Nat) (bytes : List UInt8)
    (safe : ∀ file, s.dir name = some file →
      s.bucket (contentSSTKey hash name bytes) = some file.bytes → file.bytes = bytes) :
    ({ s with bucket := update s.bucket (contentSSTKey hash name bytes) (some bytes) } :
      RegistryState H).Inv hash := by
  refine inv.frame ⟨le_refl _, fun _ _ _ found => Or.inl found, ?_⟩ rfl rfl ?_ inv.files
  · intro other file found stored
    by_cases same : contentSSTKey hash other file.bytes = contentSSTKey hash name bytes
    · obtain rfl : other = name := congrArg SstKey.name same
      rw [same] at stored ⊢
      simp [safe file found stored]
    · simpa [update_of_ne same] using stored
  · intro key content stored
    by_cases same : key = contentSSTKey hash name bytes
    · subst same
      simp only [update_self, Option.some.injEq] at stored
      rw [← stored]
      rfl
    · simp only [update_of_ne same] at stored
      exact inv.content key content stored

theorem Inv.checkpoint [DecidableEq H] (inv : s.Inv hash) :
    ({ s with bucket := s.uploadMissing hash } : RegistryState H).Inv hash := by
  refine inv.frame ⟨le_refl _, fun _ _ _ found => Or.inl found, ?_⟩ rfl rfl ?_ inv.files
  · intro name file found stored
    have found' : s.dir (contentSSTKey hash name file.bytes).name = some file := found
    simp only [uploadMissing, found']
    split
    · rfl
    · exact stored
  · intro key bytes stored
    simp only [uploadMissing] at stored
    split at stored
    · exact inv.content key bytes stored
    · split at stored
      case isTrue missing =>
        cases stored
        exact missing.2.2.2
      case isFalse => exact inv.content key bytes stored

end RegistryState

/-! ## Runs in which replacements fit the registry -/

/-- The file is finished, or gone for good. -/
def Readable (s : RegistryState H) (name : Nat) : Prop :=
  name < s.nextFile ∧ ∀ file ∈ s.dir name, file.finished = true

/-- Every registered name is the name of a downloaded file with the registered key, or no
downloaded file has it and the new database is past it. -/
def FitsRegistry (s : RegistryState H) (keys : List (SstKey H)) (nextFile : Nat) : Prop :=
  ∀ e ∈ s.registry.entries, e.2 ∈ keys ∨ e.1 ∉ keys.map SstKey.name ∧ e.1 < nextFile

/-- A file of the directory is registered, or about to be, under the key. -/
def InUse (s : RegistryState H) (key : SstKey H) : Prop :=
  (s.dir key.name).isSome ∧
    (s.registry.get key.name = some key ∨ (key.name, .stored key) ∈ s.inFlight)

/-- No upload starts on a file that Pebble still writes, the directory is replaced only
while no upload is running and by files that fit the registry, no other node's file of the
same name and hash has another content, and no object in use is deleted. -/
def Careful (hash : List UInt8 → H) (s : RegistryState H) : RegistryAction H → Prop
  | .start => ∀ name ∈ s.uploadC.head?, Readable s name
  | .reconcile name => Readable s name
  | .replace keys nextFile _ => s.inFlight = [] ∧ FitsRegistry s keys nextFile
  | .otherPut name bytes => ∀ other ∈ s.bucket (contentSSTKey hash name bytes), other = bytes
  | .collect keys => ∀ key ∈ keys, ¬ InUse s key
  | _ => True

instance (s : RegistryState H) (name : Nat) : Decidable (Readable s name) :=
  inferInstanceAs (Decidable (_ ∧ _))

instance [DecidableEq H] (s : RegistryState H) (key : SstKey H) : Decidable (InUse s key) :=
  inferInstanceAs (Decidable (_ ∧ (_ ∨ _)))

instance [DecidableEq H] (hash : List UInt8 → H) (s : RegistryState H)
    (action : RegistryAction H) : Decidable (Careful hash s action) := by
  unfold Careful FitsRegistry
  split <;> infer_instance

namespace RegistryState

variable {keys : List (SstKey H)}

theorem mem_restored {file : SstFile} (found : s.restored keys name = some file) :
    ∃ key ∈ keys, key.name = name ∧ file.finished = true ∧ s.bucket key = some file.bytes := by
  unfold restored at found
  split at found
  case h_1 => cases found
  case h_2 key first =>
    obtain ⟨bytes, stored, rfl⟩ := Option.map_eq_some_iff.mp found
    exact ⟨key, mem_of_find?_eq_some first, by simpa using find?_some first, rfl, stored⟩

theorem Inv.replace (inv : s.Inv hash) {nextFile : Nat} {listening : Bool}
    (nodup : (keys.map SstKey.name).Nodup) (below : ∀ key ∈ keys, key.name < nextFile)
    (idle : s.inFlight = []) (fits : FitsRegistry s keys nextFile) :
    ({ s with dir := s.restored keys, nextFile, listening } : RegistryState H).Inv hash := by
  refine ⟨inv.content, ?_, ?_, ?_⟩
  · intro name file found
    obtain ⟨key, mem, rfl, -⟩ := mem_restored found
    exact below key mem
  · intro name key found
    obtain ⟨-, rfl, -⟩ := inv.entries name key found
    rcases fits _ (mem_entries_iff.mpr found) with downloaded | ⟨absent, older⟩
    · refine ⟨below key downloaded, rfl, fun file present => ?_⟩
      obtain ⟨other, mem, named, finished, stored⟩ := mem_restored present
      obtain rfl : other = key := inj_on_of_nodup_map nodup mem downloaded named
      exact ⟨finished, inv.content other file.bytes stored, stored⟩
    · refine ⟨older, rfl, fun file present => ?_⟩
      obtain ⟨other, mem, named, -⟩ := mem_restored present
      exact absurd (mem_map.mpr ⟨other, mem, named⟩) absent
  · intro upload mem
    rw [show _ = _ from idle] at mem
    cases mem

/-- What is registered and in use stays under its key. -/
theorem kept_of_unused [DecidableEq H] {key : SstKey H} (unused : ∀ key ∈ keys, ¬ InUse s key)
    (registered : Registered hash s name key)
    (claimed : s.registry.get name = some key ∨ (name, .stored key) ∈ s.inFlight) :
    Registered hash { s with bucket := s.withoutKeys keys } name key := by
  obtain ⟨rfl, current⟩ := registered
  refine ⟨rfl, ?_⟩
  intro file found
  obtain ⟨finished, isKey, stored⟩ := current file found
  have kept : key ∉ keys := fun mem => unused key mem ⟨Option.isSome_of_mem found, claimed⟩
  exact ⟨finished, isKey, (if_neg kept).trans stored⟩

theorem Inv.collect [DecidableEq H] (inv : s.Inv hash) (unused : ∀ key ∈ keys, ¬ InUse s key) :
    ({ s with bucket := s.withoutKeys keys } : RegistryState H).Inv hash := by
  refine ⟨?_, inv.files, ?_, ?_⟩
  · intro key bytes stored
    exact inv.content key bytes (Option.ite_none_left_eq_some.mp stored).2
  · intro name key found
    obtain ⟨older, registered⟩ := inv.entries name key found
    exact ⟨older, kept_of_unused unused registered (Or.inl found)⟩
  · rintro ⟨name, stage⟩ mem
    obtain ⟨older, sound⟩ := inv.uploads (name, stage) mem
    refine ⟨older, ?_⟩
    cases stage with
    | checked | hashed | opened => exact sound
    | stored key => exact kept_of_unused unused sound (Or.inr mem)

theorem Inv.step [DecidableEq H] {action : RegistryAction H} (inv : s.Inv hash)
    (careful : Careful hash s action) (stepped : registryStep hash s action = some t) :
    t.Inv hash := by
  revert stepped
  -- One case for each way through the step, in the order of the actions.
  fun_cases registryStep hash s action <;> rintro ⟨⟩
  case case1 =>
    exact inv.dir (Nat.le_succ _) (Nat.lt_succ_self _) (Or.inr (Or.inl (le_refl _)))
  case case3 name _ file found unfinished =>
    exact inv.dir (le_refl _) (inv.files name file found)
      (Or.inr (Or.inr ⟨file, found, by simpa using unfinished⟩))
  case case6 name file found unfinished =>
    have older := inv.files name file found
    refine (inv.dir (le_refl _) older
      (Or.inr (Or.inr ⟨file, found, by simpa using unfinished⟩))).queueTable older ?_
    intro file found
    simp only [update_self, Option.some.injEq] at found
    rw [← found]
  case case8 name file found =>
    exact inv.dir (le_refl _) (inv.files name file found) (Or.inl rfl)
  case case10 name rest queued =>
    obtain ⟨older, finished⟩ := careful name (by rw [queued]; rfl)
    have kept : ({ s with uploadC := rest } : RegistryState H).Inv hash :=
      ⟨inv.content, inv.files, inv.entries, inv.uploads⟩
    exact kept.begin older finished
  case case12 => exact inv.begin careful.1 careful.2
  case case15 i name running file found =>
    obtain ⟨older, sound⟩ := inv.running running
    refine inv.advance i older ?_
    intro other same
    cases found.symm.trans same
    exact ⟨sound file found, rfl⟩
  case case16 => exact inv.abandon _
  case case18 i name key running file found =>
    obtain ⟨older, sound⟩ := inv.running running
    refine inv.advance i older ⟨(sound file found).2, ?_⟩
    intro other same
    cases found.symm.trans same
    exact ⟨(sound file found).1, rfl⟩
  case case19 => exact inv.abandon _
  case case21 i name key bytes running =>
    obtain ⟨older, rfl, current⟩ := inv.running running
    have stored := inv.stores name bytes (fun file found _ => (current file found).2)
    refine stored.advance i older ⟨rfl, fun file found => ?_⟩
    obtain ⟨finished, rfl⟩ := current file found
    exact ⟨finished, rfl, by simp⟩
  case case22 => exact inv.abandon _
  case case24 i name key running =>
    obtain ⟨older, sound⟩ := inv.running running
    have ended := inv.abandon i
    refine ⟨ended.content, ended.files, ?_, ended.uploads⟩
    intro other otherKey found
    rw [get_insert] at found
    split_ifs at found with same
    · subst same
      cases found
      exact ⟨older, sound⟩
    · exact inv.entries other otherKey found
  case case26 => exact ⟨inv.content, inv.files, inv.entries, inv.uploads⟩
  case case27 name bytes =>
    exact inv.stores name bytes fun file _ stored => careful file.bytes stored
  case case28 fits => exact inv.replace fits.1 fits.2.2 careful.1 careful.2
  case case30 => exact inv.checkpoint
  case case31 => exact inv.collect careful

end RegistryState

def freshNode : RegistryState (List UInt8) where
  dir _ := none
  nextFile := 1
  bucket _ := none

end T4.Checkpoint
