import Mathlib.Order.Nat
import T4.Lib.System

/-!
# Uploading sealed segments

The upload side of `internal/wal/wal.go`: rotations and `SealAndFlush` hand sealed
segments to `uploadLoop` through a bounded queue, a failed upload is queued again after a
delay, and `Close` stops the loop, drains the queue and uploads the last segment itself.

Segments are numbered in the order in which they were opened. What decides whether the
objects are a prefix of the sealed segments is where an older segment can wait while a
newer one is uploaded. `Tracked` says that it waits only in the queue, in order; a
failed or cancelled upload and a full queue break that.
-/

namespace T4.Wal

open Lib List

/-! ## The upload machinery -/

def uploadQueueSize : Nat := 64

/-- How far `Close` has come. -/
inductive WalStage
  | running
  /-- The loops are told to stop; an upload may still be under way. -/
  | stopping
  /-- `Close` owns the queue. -/
  | draining
  | closed
  deriving DecidableEq

structure UploadState where
  /-- `WithSyncUpload` was given. -/
  syncUpload : Bool
  /-- The active segment; those before it are sealed. -/
  active : Nat := 0
  /-- Entries in the active segment. -/
  entryCount : Nat := 0
  /-- The active segment is sealed: its successor could not be opened. -/
  sealedActive : Bool := false
  /-- `uploadC`. -/
  queue : List Nat := []
  /-- The task the upload loop is working on. -/
  uploading : Option Nat := none
  /-- Tasks that wait for their retry timer. -/
  delayed : List Nat := []
  /-- The segment that `Close` uploads last. -/
  finalSeg : Option Nat := none
  /-- Segments in object storage. -/
  stored : List Nat := []
  /-- Segments that were stored and then deleted by WAL GC. -/
  collected : List Nat := []
  stage : WalStage := .running
  deriving DecidableEq

inductive UploadAction
  /-- `Append`, or `AppendBatch` without synchronous upload. -/
  | append (entries : Nat)
  /-- `AppendBatch` with synchronous upload. -/
  | appendSync (uploads opens : Bool)
  | sizeRotate (opens : Bool)
  | ageRotate (opens : Bool)
  | sealAndFlush (opens : Bool)
  /-- The upload loop takes a task. -/
  | take
  | uploadOk
  | uploadFails
  /-- The file is gone and so is the object: a task for a segment that was collected. -/
  | uploadGone
  /-- The retry timer of a task fires. -/
  | requeue (i : Nat)
  | close (seals : Bool)
  /-- The loops have ended. -/
  | stop
  | drain (uploads : Bool)
  | uploadFinal (uploads : Bool)
  | gcSegments (keys : List Nat)
  deriving DecidableEq

namespace UploadState

/-- The non-blocking send: a full queue drops the task. -/
def offer (s : UploadState) (task : Nat) : UploadState :=
  if s.queue.length < uploadQueueSize then { s with queue := s.queue ++ [task] } else s

def store (s : UploadState) (task : Nat) : UploadState :=
  { s with stored := s.stored ++ [task] }

def openNext (s : UploadState) : UploadState :=
  { s with active := s.active + 1, entryCount := 0, sealedActive := false }

def looping (s : UploadState) : Bool := s.stage = .running ∨ s.stage = .stopping

end UploadState

def uploadStep (s : UploadState) : UploadAction → Option UploadState
  | .append entries =>
    if s.stage = .running ∧ s.sealedActive = false ∧ 0 < entries then
      some { s with entryCount := s.entryCount + entries }
    else none
  | .appendSync uploads opens =>
    if s.syncUpload ∧ s.stage = .running ∧ s.sealedActive = false then
      -- A failed upload rolls the batch back.
      if uploads then
        if opens then some (s.store s.active).openNext
        else some { s.store s.active with
          entryCount := s.entryCount + 1, sealedActive := true }
      else some s
    else none
  | .sizeRotate opens =>
    if s.stage = .running ∧ s.sealedActive = false ∧ 0 < s.entryCount then
      let queued := s.offer s.active
      some (if opens then queued.openNext else { queued with sealedActive := true })
    else none
  | .ageRotate opens =>
    if s.stage = .running ∧ 0 < s.entryCount then
      some (if opens then (s.offer s.active).openNext else { s with sealedActive := true })
    else none
  | .sealAndFlush opens =>
    if s.stage = .running ∧ 0 < s.entryCount then
      if opens then
        -- The send blocks while the queue is full.
        if s.queue.length < uploadQueueSize then
          some { s with queue := s.queue ++ [s.active] }.openNext
        else none
      else some { s with sealedActive := true }
    else none
  | .take =>
    match s.uploading, s.queue with
    | none, task :: rest =>
      if s.looping then some { s with uploading := some task, queue := rest } else none
    | _, _ => none
  | .uploadOk =>
    match s.uploading with
    | some task => if s.looping then some { s.store task with uploading := none } else none
    | none => none
  | .uploadFails =>
    match s.uploading with
    | some task =>
      match s.stage with
      | .running => some { s with uploading := none, delayed := s.delayed ++ [task] }
      -- The loop's context is cancelled: it returns with the task in hand.
      | .stopping => some { s with uploading := none }
      | _ => none
    | none => none
  | .uploadGone =>
    match s.uploading with
    | some task =>
      if s.looping ∧ task ∈ s.collected ∧ task ∉ s.stored then some { s with uploading := none }
      else none
    | none => none
  | .requeue i =>
    match s.delayed[i]? with
    | some task =>
      if s.stage = .running then some { s.offer task with delayed := s.delayed.eraseIdx i }
      else none
    | none => none
  | .close seals =>
    if s.stage = .running then
      some { s with
        finalSeg := if 0 < s.entryCount ∧ seals then some s.active else none
        stage := .stopping }
    else none
  | .stop =>
    if s.stage = .stopping ∧ s.uploading = none then
      some { s with delayed := [], stage := .draining }
    else none
  | .drain uploads =>
    match s.queue with
    | task :: rest =>
      if s.stage = .draining then
        some { (if uploads then s.store task else s) with queue := rest }
      else none
    | [] => none
  | .uploadFinal uploads =>
    if s.stage = .draining ∧ s.queue = [] then
      match s.finalSeg with
      | some task => some { (if uploads then s.store task else s) with stage := .closed }
      | none => some { s with stage := .closed }
    else none
  | .gcSegments keys =>
    some { s with
      stored := s.stored.filter (fun segment => segment ∉ keys)
      collected := s.collected ++ s.stored.filter (fun segment => segment ∈ keys) }

/-- One WAL from `Open` and `Start` to `Close`. -/
def uploads : System UploadState UploadAction where
  init s := s = { syncUpload := s.syncUpload }
  step := uploadStep

/-- No later segment is in object storage while an earlier one neither is nor was
collected. -/
def PrefixClosed (s : UploadState) : Prop :=
  ∀ segment ∈ s.stored, ∀ earlier < segment, earlier ∈ s.stored ∨ earlier ∈ s.collected

/-! ## Where a segment waits -/

/-- Every sealed segment waits in order or was stored, and what was stored is a
prefix. -/
structure Tracked (active : Nat) (pending done : List Nat) : Prop where
  sorted : pending.Pairwise (· ≤ ·)
  bounded : ∀ task ∈ pending, task ≤ active
  accounted : ∀ segment < active, segment ∈ pending ∨ segment ∈ done
  closed : ∀ segment ∈ done, ∀ earlier < segment, earlier ∈ done

namespace Tracked

variable {active : Nat} {pending done : List Nat}

theorem offer (tracked : Tracked active pending done) :
    Tracked active (pending ++ [active]) done := by
  refine ⟨?_, ?_, ?_, tracked.closed⟩
  · refine pairwise_append.mpr ⟨tracked.sorted, pairwise_singleton _ _, ?_⟩
    intro task mem last isLast
    cases mem_singleton.mp isLast
    exact tracked.bounded task mem
  · refine forall_mem_append.mpr ⟨tracked.bounded, ?_⟩
    intro task new
    exact (mem_singleton.mp new).le
  · intro segment less
    rcases tracked.accounted segment less with waits | stored
    · exact Or.inl (mem_append_left _ waits)
    · exact Or.inr stored

theorem openNext (tracked : Tracked active pending done)
    (handed : active ∈ pending ∨ active ∈ done) : Tracked (active + 1) pending done := by
  refine ⟨tracked.sorted, fun task mem => (tracked.bounded task mem).trans (Nat.le_succ _), ?_,
    tracked.closed⟩
  intro segment less
  rcases Nat.lt_succ_iff_lt_or_eq.mp less with older | rfl
  · exact tracked.accounted segment older
  · exact handed

theorem finish {task : Nat} (tracked : Tracked active (task :: pending) done)
    {finished : List Nat}
    (members : ∀ segment, segment ∈ finished ↔ segment ∈ done ∨ segment = task) :
    Tracked active pending finished := by
  obtain ⟨first, rest⟩ := pairwise_cons.mp tracked.sorted
  have earlierDone : ∀ earlier < task, earlier ∈ done := by
    intro earlier less
    have bound := tracked.bounded task (by simp)
    rcases tracked.accounted earlier (less.trans_le bound) with waits | stored
    · rcases mem_cons.mp waits with rfl | later
      · exact absurd less (lt_irrefl _)
      · exact absurd less (not_lt.mpr (first earlier later))
    · exact stored
  refine ⟨rest, fun other mem => tracked.bounded other (mem_cons_of_mem _ mem), ?_, ?_⟩
  · intro segment less
    rcases tracked.accounted segment less with waits | stored
    · rcases mem_cons.mp waits with rfl | later
      · exact Or.inr ((members segment).mpr (Or.inr rfl))
      · exact Or.inl later
    · exact Or.inr ((members segment).mpr (Or.inl stored))
  · intro segment mem earlier less
    rcases (members segment).mp mem with old | rfl
    · exact (members earlier).mpr (Or.inl (tracked.closed segment old earlier less))
    · exact (members earlier).mpr (Or.inl (earlierDone earlier less))

theorem congr (tracked : Tracked active pending done) {same : List Nat}
    (members : ∀ segment, segment ∈ same ↔ segment ∈ done) : Tracked active pending same := by
  refine ⟨tracked.sorted, tracked.bounded, ?_, ?_⟩
  · intro segment less
    rw [members]
    exact tracked.accounted segment less
  · intro segment mem earlier less
    rw [members] at mem ⊢
    exact tracked.closed segment mem earlier less

theorem direct (tracked : Tracked active [] done) {finished : List Nat}
    (members : ∀ segment, segment ∈ finished ↔ segment ∈ done ∨ segment = active) :
    Tracked active [] finished :=
  finish tracked.offer members

end Tracked

/-! ## Runs without failed uploads -/

/-- No upload of a queued segment fails, a rotation finds room in the queue, and a
synchronous upload finds nothing queued. -/
def Orderly (s : UploadState) : UploadAction → Prop
  | .uploadFails | .drain false => False
  | .sizeRotate _ | .ageRotate true => s.queue.length < uploadQueueSize
  | .appendSync true _ => s.queue = [] ∧ s.uploading = none
  | _ => True

instance (s : UploadState) (action : UploadAction) : Decidable (Orderly s action) := by
  unfold Orderly
  split <;> infer_instance

/-- The segments that wait, the next one to be uploaded first. -/
def UploadState.pending (s : UploadState) : List Nat := s.uploading.toList ++ s.queue

def UploadState.done (s : UploadState) : List Nat := s.stored ++ s.collected

structure UploadState.Inv (s : UploadState) : Prop where
  noRetry : s.delayed = []
  tracked : Tracked s.active s.pending s.done
  idle : s.stage = .draining ∨ s.stage = .closed → s.uploading = none
  last : ∀ task ∈ s.finalSeg, task = s.active
  stillOpen : s.stage = .running → s.finalSeg = none

namespace UploadState

variable {s : UploadState}

theorem offer_eq (room : s.queue.length < uploadQueueSize) (task : Nat) :
    s.offer task = { s with queue := s.queue ++ [task] } :=
  if_pos room

theorem mem_done_store {task segment : Nat} :
    segment ∈ (s.store task).done ↔ segment ∈ s.done ∨ segment = task := by
  simp only [done, store, mem_append, mem_singleton]
  tauto

theorem Inv.prefixClosed (inv : s.Inv) : PrefixClosed s := by
  intro segment mem earlier less
  exact mem_append.mp
    (inv.tracked.closed segment (mem_append_left _ mem) earlier less)

theorem inv_init (syncUpload : Bool) : Inv { syncUpload } := by
  refine ⟨rfl, ⟨.nil, ?_, ?_, ?_⟩, fun _ => rfl, ?_, fun _ => rfl⟩
  · intro task mem
    cases mem
  · intro segment less
    cases less
  · intro segment mem
    cases mem
  · intro task mem
    cases mem

theorem pending_append (s : UploadState) (task : Nat) :
    s.uploading.toList ++ (s.queue ++ [task]) = s.pending ++ [task] :=
  (append_assoc _ _ _).symm

theorem not_ended_of_looping (looping : s.looping = true) :
    ¬ (s.stage = .draining ∨ s.stage = .closed) := by
  rcases of_decide_eq_true looping with running | stopping
  · simp [running]
  · simp [stopping]

theorem Inv.trackedQueued (inv : s.Inv) :
    Tracked s.active (s.uploading.toList ++ (s.queue ++ [s.active])) s.done := by
  rw [pending_append]
  exact inv.tracked.offer

theorem Inv.trackedStored (inv : s.Inv) (nothing : s.pending = []) :
    Tracked s.active s.pending (s.store s.active).done := by
  have tracked := inv.tracked
  rw [nothing] at tracked ⊢
  exact tracked.direct fun segment => mem_done_store

theorem Inv.queueNext (inv : s.Inv) (running : s.stage = .running) :
    ({ s with queue := s.queue ++ [s.active] }.openNext).Inv := by
  refine ⟨inv.noRetry, inv.trackedQueued.openNext (Or.inl (by simp)), inv.idle, ?_, inv.stillOpen⟩
  intro task mem
  cases (inv.stillOpen running).symm.trans mem

/-- **One step** of an orderly run keeps the invariant. -/
theorem Inv.step {next : UploadState} {action : UploadAction} (inv : s.Inv)
    (orderly : Orderly s action) (stepped : uploadStep s action = some next) : next.Inv := by
  have tracked := inv.tracked
  revert stepped
  -- One case for each way through the step, in the order of the actions.
  fun_cases uploadStep s action <;> rintro ⟨⟩
  case case1 => exact ⟨inv.noRetry, tracked, inv.idle, inv.last, inv.stillOpen⟩
  case case3 enabled =>
    have nothing : s.pending = [] := by rw [pending, orderly.1, orderly.2]; rfl
    refine ⟨inv.noRetry, (inv.trackedStored nothing).openNext
      (Or.inr (mem_done_store.mpr (Or.inr rfl))), inv.idle, ?_, inv.stillOpen⟩
    intro task mem
    cases (inv.stillOpen enabled.2.1).symm.trans mem
  case case4 =>
    have nothing : s.pending = [] := by rw [pending, orderly.1, orderly.2]; rfl
    exact ⟨inv.noRetry, inv.trackedStored nothing, inv.idle, inv.last, inv.stillOpen⟩
  case case5 => exact inv
  case case7 opens enabled queued =>
    simp only [queued, offer_eq orderly]
    cases opens with
    | true => exact inv.queueNext enabled.1
    | false => exact ⟨inv.noRetry, inv.trackedQueued, inv.idle, inv.last, inv.stillOpen⟩
  case case9 opens enabled =>
    cases opens with
    | true =>
      simp only [offer_eq orderly]
      exact inv.queueNext enabled.1
    | false => exact ⟨inv.noRetry, tracked, inv.idle, inv.last, inv.stillOpen⟩
  case case11 enabled _ => exact inv.queueNext enabled.1
  case case13 => exact ⟨inv.noRetry, tracked, inv.idle, inv.last, inv.stillOpen⟩
  case case15 task rest queued idle looping =>
    rw [pending, idle, queued] at tracked
    refine ⟨inv.noRetry, tracked, ?_, inv.last, inv.stillOpen⟩
    exact fun ended => absurd ended (not_ended_of_looping looping)
  case case18 task busy _ =>
    rw [pending, busy] at tracked
    exact ⟨inv.noRetry, tracked.finish fun segment => mem_done_store, fun _ => rfl, inv.last,
      inv.stillOpen⟩
  case case21 => exact orderly.elim
  case case22 => exact orderly.elim
  case case25 task busy enabled =>
    rw [pending, busy] at tracked
    have already : task ∈ s.done := mem_append_right _ enabled.2.1
    refine ⟨inv.noRetry, tracked.finish ?_, fun _ => rfl, inv.last, inv.stillOpen⟩
    intro segment
    refine ⟨Or.inl, ?_⟩
    rintro (old | rfl)
    · exact old
    · exact already
  case case28 waits _ =>
    -- Nothing waits for a retry.
    simp [inv.noRetry] at waits
  case case31 =>
    refine ⟨inv.noRetry, tracked, by simp, ?_, by simp⟩
    intro task mem
    dsimp only at mem
    split at mem
    · exact (Option.some.inj mem).symm
    · cases mem
  case case33 enabled => exact ⟨rfl, tracked, fun _ => enabled.2, inv.last, by simp⟩
  case case35 uploads task rest queued draining =>
    have idle := inv.idle (Or.inl draining)
    rw [pending, idle, queued] at tracked
    cases uploads with
    | false => exact orderly.elim
    | true =>
      refine ⟨inv.noRetry, ?_, inv.idle, inv.last, inv.stillOpen⟩
      have finished := tracked.finish fun segment => mem_done_store
      have waiting : s.uploading.toList ++ rest = rest := by rw [idle]; rfl
      rw [← waiting] at finished
      exact finished
  case case38 uploads enabled task isFinal =>
    have idle := inv.idle (Or.inl enabled.1)
    have nothing : s.pending = [] := by rw [pending, idle, enabled.2]; rfl
    cases uploads with
    | false => exact ⟨inv.noRetry, tracked, fun _ => idle, inv.last, by simp⟩
    | true =>
      obtain rfl := inv.last task isFinal
      exact ⟨inv.noRetry, inv.trackedStored nothing, fun _ => idle, inv.last, by simp⟩
  case case39 enabled _ =>
    exact ⟨inv.noRetry, tracked, fun _ => inv.idle (Or.inl enabled.1), inv.last, by simp⟩
  case case41 =>
    refine ⟨inv.noRetry, tracked.congr ?_, inv.idle, inv.last, inv.stillOpen⟩
    intro segment
    simp only [done, mem_append, mem_filter, decide_eq_true_eq]
    tauto

end UploadState

/-- **Uploads are prefix-closed** in every run in which no upload of a queued segment
fails, rotations find room in the queue and synchronous uploads find it empty. -/
theorem uploads_prefixClosed {start s : UploadState} {actions : List UploadAction}
    (init : uploads.init start) (meets : uploads.Meets Orderly start actions)
    (ran : uploads.run start actions = some s) : PrefixClosed s := by
  have inv : start.Inv := by
    rw [show start = { syncUpload := start.syncUpload } from init]
    exact UploadState.inv_init _
  exact (System.run_invariant (fun held orderly stepped => held.step orderly stepped) inv
    meets ran).prefixClosed

/-- Three segments, one by each kind of rotation, then `Close` with the upload of the
first one still under way. -/
def threeSegments : List UploadAction :=
  [.append 1, .sizeRotate true, .append 2, .ageRotate true, .take, .append 1, .close true,
   .uploadOk, .stop, .drain true, .uploadFinal true]

theorem uploads_prefixClosed_threeSegments :
    ∃ s, uploads.run { syncUpload := false } threeSegments = some s ∧ s.stored = [0, 1, 2] ∧
      PrefixClosed s := by
  refine System.exists_run_and (by decide +kernel) ?_
  intro s ran _
  have init : uploads.init { syncUpload := false } := rfl
  exact uploads_prefixClosed init (by decide +kernel) ran

/-- The upload of the first segment fails once; while it waits for its retry the second
one is stored. -/
theorem uploads_overtake :
    ∃ s, uploads.run { syncUpload := false }
        [.append 1, .ageRotate true, .take, .uploadFails, .append 1, .ageRotate true, .take,
         .uploadOk] = some s ∧
      s.stored = [1] ∧ s.delayed = [0] ∧ ¬ PrefixClosed s := by
  refine ⟨_, rfl, rfl, rfl, ?_⟩
  intro closed
  have missing := closed 1 (by decide) 0 (by decide)
  revert missing
  decide

end T4.Wal
