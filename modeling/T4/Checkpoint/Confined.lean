import Mathlib.Data.List.TakeWhile
import T4.Checkpoint.Archive

/-!
# Where a restore writes

`restoreFromIndex` and `RestoreVersioned` of `internal/checkpoint/checkpoint.go` with the paths
that they compute. `T4.Archive.restoreFromIndex` only knows files with plain names in one
directory; here a name is any string, and the file goes where `filepath.Join` takes it.

SST keys are reduced to their last element, which stays in the directory or names a directory
(`join_base`). The names in `pebble_meta` are joined as they are.
-/

namespace T4.Archive

open Lib Text List

/-! ## Paths -/

/-- A path without dots and empty elements, innermost element first. -/
structure Path where
  rooted : Bool
  elems : List Bytes := []
  deriving DecidableEq

namespace Path

/-- One element of `filepath.Clean`. -/
def enter (p : Path) (e : Bytes) : Path :=
  if e = [] ∨ e = ascii "." then p
  else if e = ascii ".." then
    match p.elems with
    | [] => if p.rooted then p else { p with elems := [e] }
    | top :: rest =>
      if top = e then { p with elems := e :: top :: rest } else { p with elems := rest }
  else { p with elems := e :: p.elems }

def up (p : Path) : Path := p.enter (ascii "..")

/-- A file of the directory. -/
def Inside (dir p : Path) : Prop :=
  ∃ name, FileName name ∧ p = { dir with elems := name :: dir.elems }

/-- The directory or one above it. -/
def IsAbove (dir p : Path) : Prop :=
  p ∈ (List.range (dir.elems.length + p.elems.length + 1)).map (fun k => up^[k] dir)

instance (dir p : Path) : Decidable (IsAbove dir p) :=
  inferInstanceAs (Decidable (p ∈ List.map _ _))

/-- The directories that exist are the target, those above it and `dirs`: no file can be
created in place of one of them, or in a directory that does not exist. -/
def Refuses (dir : Path) (dirs : List Path) (p : Path) : Prop :=
  dir.IsAbove p ∨ p ∈ dirs ∨
    ¬ dir.IsAbove { p with elems := p.elems.tail } ∧ { p with elems := p.elems.tail } ∉ dirs

instance (dir : Path) (dirs : List Path) (p : Path) : Decidable (Refuses dir dirs p) :=
  inferInstanceAs (Decidable (_ ∨ _ ∨ _))

theorem isAbove_self (dir : Path) : IsAbove dir dir := mem_map.mpr ⟨0, by simp, rfl⟩

theorem isAbove_up (dir : Path) : IsAbove dir dir.up := by
  rcases Nat.eq_zero_or_pos (dir.elems.length + dir.up.elems.length) with none | some
  · obtain ⟨rooted, elems⟩ := dir
    cases elems with
    | nil =>
      cases rooted with
      | true => exact isAbove_self _
      | false => exact nomatch none
    | cons => simp at none
  · exact mem_map.mpr ⟨1, List.mem_range.mpr (by omega), rfl⟩

end Path

/-- `filepath.Clean`. -/
def clean (path : Bytes) : Path :=
  (path.splitOn slash).foldl Path.enter { rooted := path.head? = some slash }

/-- `filepath.Join` of a directory, which is not the empty string, and a name. -/
def join (dir name : Bytes) : Path := clean (dir ++ slash :: name)

theorem join_eq {dir : Bytes} (some : dir ≠ []) (name : Bytes) :
    join dir name = (name.splitOn slash).foldl Path.enter (clean dir) := by
  have cut : (dir ++ slash :: name).splitOn slash = dir.splitOn slash ++ name.splitOn slash :=
    splitOnP_append_cons _ _ (beq_self_eq_true slash)
  rw [join, clean, cut, foldl_append, head?_append_of_ne_nil dir some, clean]

theorem join_base {dir : Bytes} (some : dir ≠ []) (key : Bytes) :
    (clean dir).Inside (join dir (base key)) ∨ (clean dir).IsAbove (join dir (base key)) := by
  rw [join_eq some]
  unfold base
  dsimp only
  split_ifs
  · exact Or.inr (Path.isAbove_self _)
  · exact Or.inr (Path.isAbove_self _)
  · set name := ((key.reverse.dropWhile (· = slash)).takeWhile (· ≠ slash)).reverse with isName
    have flat : slash ∉ name := by
      rw [isName, mem_reverse]
      intro mem
      have other := mem_takeWhile_imp mem
      exact absurd rfl (of_decide_eq_true other)
    have single : name.splitOn slash = [name] := by
      refine splitOnP_eq_singleton ?_
      intro x mem
      rw [beq_eq_false_iff_ne]
      rintro rfl
      exact flat mem
    rw [single, foldl_cons, foldl_nil]
    by_cases dots : name = ascii ".."
    · rw [dots]
      exact Or.inr (Path.isAbove_up _)
    · by_cases here : name = [] ∨ name = ascii "."
      · rw [Path.enter, if_pos here]
        exact Or.inr (Path.isAbove_self _)
      · rw [Path.enter, if_neg here, if_neg dots]
        rw [not_or] at here
        exact Or.inl ⟨name, ⟨here.1, flat, here.2, dots⟩, rfl⟩

/-! ## Restoring -/

/-- The files of `restoreFromIndex` in the order of their downloads, once the index is read;
`ReadCheckpointIndex` refuses a newer format. -/
def restoreFromIndexPaths (idx : CheckpointIndex) (indexKey targetDir : Bytes) : List Path :=
  if !hasSuffix indexKey manifestJson || idx.formatVersion > checkpointFormatVersion then []
  -- `MkdirAll` refuses the empty path
  else if targetDir = [] then []
  else (idx.sstFiles ++ idx.ancestorSSTFiles).map (fun key => join targetDir (base key)) ++
    idx.pebbleMeta.map (join targetDir)

/-- The files of `RestoreVersioned`; the pinned versions have to be complete, and the format is
not checked. -/
def restoreVersionedPaths (versions : SortedMap Bytes Bytes) (idx : CheckpointIndex)
    (objKey targetDir : Bytes) : List Path :=
  if !hasSuffix objKey manifestJson then []
  else if versions.entries ≠ [] ∧ ¬ ∀ key ∈ idx.sstFiles ++
      idx.pebbleMeta.map (trimSuffix objKey manifestJson ++ ·), (versions.get key).isSome then []
  else if targetDir = [] then []
  else idx.sstFiles.map (fun key => join targetDir (base key)) ++
    idx.pebbleMeta.map (join targetDir)

/-- What comes of a download: no file, one that is not complete, or the file. -/
inductive Streamed
  | refused
  | broken
  | done
  deriving DecidableEq

/-- The files that downloads create or overwrite, until one of them fails. -/
def created : List (Streamed × Path) → List Path
  | [] => []
  | (.refused, _) :: _ => []
  | (.broken, dest) :: _ => [dest]
  | (.done, dest) :: rest => dest :: created rest

/-- Whatever comes of the downloads, all files are directly in the target. -/
def Confined (dir : Path) (dirs paths : List Path) : Prop :=
  ∀ outcomes : List Streamed,
    (∀ job ∈ outcomes.zip paths, dir.Refuses dirs job.2 → job.1 = .refused) →
    ∀ p ∈ created (outcomes.zip paths), dir.Inside p

/-- The paths up to the first one where no file can be created. -/
def reached (dir : Path) (dirs paths : List Path) : List Path :=
  paths.takeWhile (fun p => !decide (dir.Refuses dirs p))

variable {dir : Path} {dirs : List Path}

theorem mem_created {outcomes : List Streamed} {paths : List Path} {p : Path}
    (mounted : ∀ job ∈ outcomes.zip paths, dir.Refuses dirs job.2 → job.1 = .refused)
    (mem : p ∈ created (outcomes.zip paths)) : p ∈ reached dir dirs paths := by
  induction paths generalizing outcomes with
  | nil => simp [created] at mem
  | cons dest rest ih =>
    cases outcomes with
    | nil => exact nomatch mem
    | cons outcome outcomes =>
      have ⟨here, later⟩ := forall_mem_cons.mp mounted
      by_cases refuses : dir.Refuses dirs dest
      · cases here refuses
        exact nomatch mem
      · rw [reached, takeWhile_cons_of_pos (by simpa using refuses), mem_cons]
        cases outcome with
        | refused => exact nomatch mem
        | broken => exact Or.inl (mem_singleton.mp mem)
        | done => exact (mem_cons.mp mem).imp_right (ih later)

/-- Everything is written that can be. -/
def permissive (dir : Path) (dirs paths : List Path) : List (Streamed × Path) :=
  (paths.map (fun p => if dir.Refuses dirs p then .refused else .done)).zip paths

theorem created_permissive (paths : List Path) :
    (∀ job ∈ permissive dir dirs paths, dir.Refuses dirs job.2 → job.1 = .refused) ∧
      created (permissive dir dirs paths) = reached dir dirs paths := by
  unfold reached permissive
  induction paths with
  | nil => exact ⟨fun _ mem => (nomatch mem), rfl⟩
  | cons dest rest ih =>
    refine ⟨forall_mem_cons.mpr ⟨fun refuses => if_pos refuses, ih.1⟩, ?_⟩
    by_cases refuses : dir.Refuses dirs dest <;> simp [created, refuses, ih.2]

theorem confined_iff (paths : List Path) :
    Confined dir dirs paths ↔ ∀ p ∈ reached dir dirs paths, dir.Inside p := by
  constructor
  · intro confined p mem
    obtain ⟨mounted, all⟩ := @created_permissive dir dirs paths
    exact confined _ mounted p (all ▸ mem)
  · intro inside outcomes mounted p mem
    exact inside p (mem_created mounted mem)

theorem confined_append_iff {first : List Path}
    (tame : ∀ d ∈ first, dir.Inside d ∨ dir.Refuses dirs d) (rest : List Path) :
    Confined dir dirs (first ++ rest) ↔
      (∃ d ∈ first, dir.Refuses dirs d) ∨ ∀ p ∈ reached dir dirs rest, dir.Inside p := by
  rw [confined_iff]
  unfold reached
  induction first with
  | nil => simp
  | cons d first ih =>
    have ⟨here, later⟩ := forall_mem_cons.mp tame
    by_cases refuses : dir.Refuses dirs d
    · simp [refuses]
    · simp [refuses, here.resolve_right refuses, ih later]

/-- The restore ends at an SST key whose file cannot be created, or all names in `pebble_meta`
before one whose file cannot be created lead into the target. -/
def StaysInside (targetDir : Bytes) (dirs : List Path) (keys names : List Bytes) : Prop :=
  (∃ key ∈ keys, (clean targetDir).Refuses dirs (join targetDir (base key))) ∨
    ∀ p ∈ reached (clean targetDir) dirs (names.map (join targetDir)), (clean targetDir).Inside p

theorem confined_join_iff {targetDir : Bytes} (some : targetDir ≠ []) (keys names : List Bytes) :
    Confined (clean targetDir) dirs (keys.map (fun key => join targetDir (base key)) ++
      names.map (join targetDir)) ↔ StaysInside targetDir dirs keys names := by
  rw [confined_append_iff]
  · simp only [mem_map, exists_exists_and_eq_and]
    rfl
  · intro d mem
    obtain ⟨key, -, rfl⟩ := mem_map.mp mem
    exact (join_base some key).imp_right Or.inl

theorem confined_nil : Confined dir dirs [] := (confined_iff []).mpr (fun _ mem => nomatch mem)

/-- **A restore stays inside its directory**, whatever comes of its downloads and whichever
directories exist, exactly if the names in `pebble_meta` do or the format is refused. -/
theorem restore_confined_iff (idx : CheckpointIndex) {indexKey targetDir : Bytes}
    (isIndex : hasSuffix indexKey manifestJson = true) (some : targetDir ≠ []) (dirs : List Path) :
    (Confined (clean targetDir) dirs (restoreFromIndexPaths idx indexKey targetDir) ↔
      checkpointFormatVersion < idx.formatVersion ∨
        StaysInside targetDir dirs (idx.sstFiles ++ idx.ancestorSSTFiles) idx.pebbleMeta) ∧
    ((∀ versions, Confined (clean targetDir) dirs
        (restoreVersionedPaths versions idx indexKey targetDir)) ↔
      StaysInside targetDir dirs idx.sstFiles idx.pebbleMeta) := by
  rw [← confined_join_iff some, ← confined_join_iff some]
  refine ⟨?_, ?_⟩
  · by_cases newer : checkpointFormatVersion < idx.formatVersion
    · simp [restoreFromIndexPaths, newer, confined_nil]
    · simp [restoreFromIndexPaths, isIndex, newer, some]
  constructor
  · intro confined
    simpa [restoreVersionedPaths, isIndex, some, SortedMap.empty] using confined .empty
  · intro confined versions
    simp only [restoreVersionedPaths, isIndex, some, Bool.not_true, Bool.false_eq_true, if_false]
    split_ifs
    · exact confined_nil
    · exact confined

/-- The target is empty, so the last file cannot be created. -/
theorem restore_confined_current : Confined (clean (ascii "/db")) [] (restoreFromIndexPaths
    ⟨1, 1, 7, 7, [ascii "sst/0a/1.sst"], [], [ascii "CURRENT", ascii "sub/x"]⟩
    (ascii "checkpoint/1/manifest.json") (ascii "/db")) := by
  refine (restore_confined_iff _ (by decide +kernel) (by decide +kernel) []).1.mpr
    (Or.inr (Or.inr ?_))
  have only : reached (clean (ascii "/db")) []
      ([ascii "CURRENT", ascii "sub/x"].map (join (ascii "/db"))) =
        [⟨true, [ascii "CURRENT", ascii "db"]⟩] := by decide +kernel
  rw [only, forall_mem_singleton]
  exact ⟨ascii "CURRENT", by decide +kernel, by decide +kernel⟩

/-- A name in `pebble_meta` that leads out of the target. -/
theorem restore_escapes : ¬ Confined (clean (ascii "/data/db")) [] (restoreFromIndexPaths
    ⟨1, 1, 7, 7, [], [], [ascii "../evil"]⟩ (ascii "checkpoint/1/manifest.json")
    (ascii "/data/db")) := by
  intro confined
  obtain ⟨name, -, same⟩ := confined [.done] (by decide +kernel)
    ⟨true, [ascii "evil", ascii "data"]⟩
    (by decide +kernel)
  have target : clean (ascii "/data/db") = ⟨true, [ascii "db", ascii "data"]⟩ := by decide +kernel
  rw [target, Path.mk.injEq] at same
  exact nomatch congrArg List.length same.2

end T4.Archive
