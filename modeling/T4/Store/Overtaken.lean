import T4.Store.Delivery

/-!
# Compaction and slow watchers

`Node.Watch` refuses a start below the watermark once, when the watcher starts. The
loop never looks at the watermark again: a compaction that reaches past its position
takes versions out of the log that it has not sent, and the next scan goes on with
what is left. Only while compactions stay behind the loop is nothing lost
(`Watcher.Kept`).
-/

namespace T4.Mvcc

open Lib Bytes SortedMap Wal List

/-- Once a version was taken out of the log before it was sent, no later one is
sent. -/
def Watcher.NeverSkips (w : Watcher) : Prop :=
  ∀ lost ∈ w.overtaken, ∀ event ∈ w.delivered.drop lost.2, event.kv.revision ≤ lost.1.rev

instance (w : Watcher) : Decidable w.NeverSkips :=
  inferInstanceAs (Decidable (∀ lost ∈ w.overtaken, _))

/-- Watchers start at a revision that is not negative, and compactions stay behind
them. -/
def StaysAhead (s : WatchState) : WatchAction → Prop
  | .apply es => Behind s es
  | .storeWatch _ startRev _ => -1 ≤ startRev ∧ startRev + 1 < 2 ^ 63
  | .nodeWatch _ startRev _ => 0 ≤ startRev ∧ startRev < 2 ^ 63
  | .publish | .loop _ => True

instance (s : WatchState) (a : WatchAction) : Decidable (StaysAhead s a) := by
  rcases a with _ | _ <;> unfold StaysAhead <;> infer_instance

/-! ## Invariant -/

/-- How far a wanted version that is still in the log has come: below the position
of the loop it is sent, and in the interval of a scan it is sent, among the events or
still among the records. -/
def Watcher.Reaches (w : Watcher) (v : Version) : Prop :=
  match w.loop with
  | .waiting nextRev | .woken nextRev | .loaded nextRev _ =>
    v.rev < uint64 nextRev → v.kv ∈ w.delivered.map Event.kv
  | .scanning nextRev curRev records events =>
    (v.rev < uint64 nextRev → v.kv ∈ w.delivered.map Event.kv) ∧
      (v.rev ≤ curRev → v.kv ∈ (w.delivered ++ events).map Event.kv ∨ v.binding ∈ records)
  | .sending nextRev curRev events =>
    (v.rev < uint64 nextRev → v.kv ∈ w.delivered.map Event.kv) ∧
      (v.rev ≤ curRev → v.kv ∈ (w.delivered ++ events).map Event.kv)
  | .closed => True

theorem Watcher.Reaches.sent {w : Watcher} {v : Version} (reaches : w.Reaches v) {nextRev : Int}
    (isNext : nextRev ∈ w.loop.nextRev) (below : v.rev < uint64 nextRev) :
    v.kv ∈ w.delivered.map Event.kv := by
  cases at_ : w.loop with
  | waiting _ | woken _ | loaded _ _ =>
    rw [at_] at isNext
    cases isNext
    simp only [Watcher.Reaches, at_] at reaches
    exact reaches below
  | scanning _ _ _ _ | sending _ _ _ =>
    rw [at_] at isNext
    cases isNext
    simp only [Watcher.Reaches, at_] at reaches
    exact reaches.1 below
  | closed =>
    rw [at_] at isNext
    cases isNext

theorem Watcher.Reaches.of_new {w : Watcher} {v : Version} {currentRev : Int}
    (placed : w.loop.Placed w.startRev currentRev) (new : currentRev < v.rev) (wants : w.Wants v) :
    w.Reaches v := by
  have above := wants.2
  cases at_ : w.loop with
  | waiting _ | woken _ | loaded _ _ =>
    simp only [WatchLoop.Placed, at_] at placed
    simp only [Watcher.Reaches, at_]
    intro below
    omega
  | scanning _ _ _ _ | sending _ _ _ =>
    simp only [WatchLoop.Placed, at_] at placed
    simp only [Watcher.Reaches, at_]
    exact ⟨fun below => by omega, fun below => by omega⟩
  | closed => simp only [Watcher.Reaches, at_]

structure Watcher.Kept (h : List Entry) (store : Store) (w : Watcher) : Prop where
  placed : w.loop.Placed w.startRev store.currentRev
  reaches : ∀ v ∈ versions h, w.Wants v → (store.db.get v.slot).isSome → w.Reaches v
  overtaken : ∀ lost ∈ w.overtaken, w.loop = .closed ∧ w.delivered.length ≤ lost.2

theorem Watcher.Kept.neverSkips {h : List Entry} {store : Store} {w : Watcher}
    (kept : w.Kept h store) : w.NeverSkips := by
  intro lost mem event later
  rw [drop_eq_nil_of_le (kept.overtaken lost mem).2] at later
  cases later

namespace Watcher.Kept

variable {s : WatchState} {w next : Watcher}

theorem start {h : List Entry} {store : Store} {pfx : Bytes} {startRev : Int} {withPrevKV : Bool}
    (low : -1 ≤ startRev)
    (fits : startRev + 1 < 2 ^ 63 ∨ startRev ≤ store.currentRev ∧ startRev < 2 ^ 63) :
    (Watcher.start pfx startRev withPrevKV).Kept h store := by
  refine ⟨.start low fits, ?_, by simp [Watcher.start]⟩
  intro v _ wants _ below
  have position := uint64_wrap (x := startRev + 1) (by omega) (by omega)
  have above : startRev < v.rev := wants.2
  omega

theorem start_node {pfx : Bytes} {startRev storeStartRev : Int} {withPrevKV : Bool}
    (holds : s.Holds) (wf : WellFormed s.history) (nonneg : 0 ≤ startRev) (fits : startRev < 2 ^ 63)
    (accepted : s.store.nodeWatchStart startRev = .ok storeStartRev) :
    (Watcher.start pfx storeStartRev withPrevKV).Kept s.history s.store := by
  have bounded := holds.bounded
  have below := wf.revisionOf_fits
  have current := holds.nonneg
  unfold Store.nodeWatchStart at accepted
  split at accepted
  · cases accepted
  · split at accepted
    · cases accepted
      exact start (by omega) (Or.inr ⟨le_rfl, by omega⟩)
    · cases accepted
      rw [wrap_of_isInt64 ⟨by omega, by omega⟩]
      exact start (by omega) (Or.inl (by omega))

/-- A batch whose compactions stay behind the watcher takes nothing away that is not
sent. -/
theorem commit {es : List Entry} {after : Store} (holds : s.Holds) (idle : s.publishing = none)
    (wf : WellFormed (s.history ++ es)) (behind : Behind s es) (running : s.watcher = some w)
    (applied : s.store.apply es = (after, none)) (kept : w.Kept s.history s.store) :
    (w.overtake (versions s.history) s.store.db after.db).Kept (s.history ++ es)
      { after with currentRev := s.store.currentRev, lastSeq := s.store.lastSeq } := by
  have slots := fun v mem => (holds.idle idle).apply_slot wf applied (v := v) mem
  refine ⟨kept.placed, ?_, ?_⟩
  · intro v mem wants present
    rw [versions_append] at mem
    show w.Reaches v
    rcases mem_append.mp mem with old | new
    · rcases slots v old with same | gone
      · exact kept.reaches v old wants (same ▸ present)
      · rw [show SortedMap.get after.db v.slot = none from gone.1] at present
        cases present
    · exact .of_new kept.placed (lt_of_le_of_lt holds.bounded (wf.revisionOf_lt_rev new)) wants
  · intro lost mem
    show w.loop = .closed ∧ w.delivered.length ≤ lost.2
    rcases mem_append.mp mem with earlier | now
    · exact kept.overtaken lost earlier
    · obtain ⟨v, taken, rfl⟩ := mem_map.mp now
      rw [mem_filter, decide_eq_true_iff] at taken
      obtain ⟨inH, wants, present, absent, unsent⟩ := taken
      refine ⟨?_, le_rfl⟩
      by_contra open_
      -- The version lies below the target of a compaction, so the loop had passed it.
      rcases slots v inH with same | gone
      · rw [← same, absent] at present
        cases present
      · obtain ⟨e, inEs, isCompact, below⟩ := gone.2
        have isRunning : ∃ nextRev, nextRev ∈ w.loop.nextRev := by
          cases at_ : w.loop with
          | closed => exact absurd at_ open_
          | waiting _ | woken _ | loaded _ _ | scanning _ _ _ _ | sending _ _ _ => exact ⟨_, rfl⟩
        obtain ⟨nextRev, isNext⟩ := isRunning
        have target := behind w running nextRev isNext e inEs isCompact
        have position := kept.placed.le_position isNext
        exact unsent ((kept.reaches v inH wants present).sent isNext (by omega))

theorem publish {h : List Entry} {store after : Store} (sameDb : after.db = store.db)
    (le : store.currentRev ≤ after.currentRev) (kept : w.Kept h store) : w.Kept h after := by
  refine ⟨kept.placed.mono le, ?_, kept.overtaken⟩
  rw [sameDb]
  exact kept.reaches

theorem mem_of_scanRecords {db : Pebble} {h : List Entry} {v : Version} {withPrevKV : Bool}
    {found : List Event} (rep : Represents db (versions h) (watermarkOf h)) (chained : Chained h)
    (mem : v ∈ versions h) (wants : w.Wants v)
    (scanned : scanRecords db w.pfx withPrevKV [v.binding] = .ok found) :
    v.kv ∈ found.map Event.kv := by
  rcases scanRecords_shows rep chained mem scanned with skipped | selected
  · exact absurd wants.1 skipped.1
  · obtain ⟨-, event, rfl, shows_⟩ := selected
    simp [shows_.kv]

theorem loop (holds : s.Holds) (chained : Chained s.history) (effect : LoopEffect s.store w next)
    (kept : w.Kept s.history s.store) : next.Kept s.history s.store := by
  have wf := chained.wellFormed
  have fits : s.store.currentRev < 2 ^ 63 := lt_of_le_of_lt holds.bounded wf.revisionOf_fits
  have placed := kept.placed
  have reaches := kept.reaches
  have overtaken := kept.overtaken
  refine ⟨effect.placed placed holds.nonneg fits, ?_, ?_⟩
  · intro v mem
    have here := reaches v mem
    cases effect with
    | wait at_ _ | load at_ =>
      simp only [Watcher.Reaches, at_] at here
      exact here
    | @scan nextRev curRev at_ =>
      simp only [Watcher.Reaches, WatchLoop.Placed, at_] at here placed
      intro wants present
      have earlier := here wants present
      refine ⟨earlier, ?_⟩
      intro upTo
      by_cases below : v.rev < uint64 nextRev
      · left
        simpa using earlier below
      · right
        have word := (wf.logged.storable v mem).uint64
        have upper := uint64_of_nonneg (x := curRev + 1) (by omega) (by omega)
        rw [holds.pebble.range_log wf.logged]
        exact mem_map.mpr ⟨v, mem_logged.mpr ⟨mem, present, by omega, by omega⟩, rfl⟩
    | @record nextRev curRev r rest events found at_ scanned =>
      simp only [Watcher.Reaches, at_] at here
      intro wants present
      obtain ⟨earlier, scan⟩ := here wants present
      refine ⟨earlier, ?_⟩
      intro upTo
      rw [map_append, map_append, mem_append, mem_append]
      rcases scan upTo with sent | waiting
      · rw [map_append, mem_append] at sent
        exact Or.inl (sent.imp_right Or.inl)
      · rcases mem_cons.mp waiting with now | later
        · subst now
          exact Or.inl (Or.inr (Or.inr (mem_of_scanRecords holds.pebble chained mem wants scanned)))
        · exact Or.inr later
    | scanned at_ =>
      simp only [Watcher.Reaches, at_] at here
      intro wants present
      obtain ⟨earlier, scan⟩ := here wants present
      exact ⟨earlier, fun upTo => (scan upTo).resolve_right (by simp)⟩
    | send at_ =>
      simp only [Watcher.Reaches, at_] at here
      intro wants present
      obtain ⟨earlier, scan⟩ := here wants present
      refine ⟨?_, ?_⟩
      · intro below
        rw [map_append, mem_append]
        exact Or.inl (earlier below)
      · intro upTo
        rw [append_assoc]
        exact scan upTo
    | @next nextRev curRev at_ =>
      simp only [Watcher.Reaches, WatchLoop.Placed, at_] at here placed
      intro wants present below
      have position := uint64_wrap (x := curRev + 1) (by omega) (by omega)
      simpa using (here wants present).2 (by omega)
    | stop => exact fun _ _ => trivial
  · intro lost mem
    cases effect with
    | wait at_ _ | load at_ | scan at_ | record at_ _ | scanned at_ | send at_ | next at_ =>
      have closed := (overtaken lost mem).1
      rw [at_] at closed
      cases closed
    | stop => exact ⟨rfl, (overtaken lost mem).2⟩

end Watcher.Kept

theorem watchRule_kept : WatchRule StaysAhead (fun h store w => w.Kept h store) where
  storeWatch _ _ starts := .start starts.1 (Or.inl starts.2)
  nodeWatch holds chained starts accepted :=
    .start_node holds chained.wellFormed starts.1 starts.2 accepted
  commit holds idle chained behind running applied kept :=
    kept.commit holds idle chained.wellFormed behind running applied
  publish sameDb le kept := kept.publish sameDb le
  loop holds chained effect kept := kept.loop holds chained effect

/-- **While compactions stay behind it, a watcher skips nothing.** -/
theorem watch_never_skips {start s : WatchState} {actions : List WatchAction}
    (init : watchSystem.init start) (meets : watchSystem.Meets StaysAhead start actions)
    (ran : watchSystem.run start actions = some s) (chained : Chained s.history) :
    ∀ w ∈ s.watcher, w.NeverSkips :=
  fun w isWatcher => ((watchRule_kept.run init meets ran chained).2 w isWatcher).neverSkips

/-- The watcher of `Node.Watch` has read the first revision when it is compacted. -/
def promptWatch : List WatchAction := List.flatten [
  [.apply (sampleHistory.take 2), .publish, .nodeWatch [1] 1 true],
  turn 3 3,
  [.apply ((sampleHistory.drop 2).take 1), .publish, .apply (sampleHistory.drop 3), .publish],
  turn 1 2]

theorem watch_never_skips_promptWatch :
    ∃ s w, watchSystem.run { store := .empty, history := [] } promptWatch = some s ∧
      s.watcher = some w ∧ w.NeverSkips ∧
      w.delivered.map (fun e => e.kv.revision) = [1, 2, 3] := by
  obtain ⟨s, ran, whole, delivered⟩ := System.exists_of_run watchSystem
    { store := .empty, history := [] }
    promptWatch (fun s => s.history = sampleHistory ∧ s.watcher.any (fun w =>
      w.delivered.map (fun e => e.kv.revision) = [1, 2, 3])) (by decide +kernel)
  obtain ⟨w, running, shown⟩ := (Option.any_eq_true _ _).mp delivered
  have never := watch_never_skips ⟨Store.represents_empty, rfl, rfl⟩ (by decide +kernel) ran
    (whole ▸ sampleHistory_chained) w running
  exact ⟨s, w, ran, running, never, of_decide_eq_true shown⟩

/-- `Node.Watch` accepts revision 1, and a compaction removes that revision before the
loop has scanned it. -/
def slowWatch : List WatchAction := List.flatten [
  [.apply (sampleHistory.take 2), .publish, .nodeWatch [1] 1 false,
    .apply ((sampleHistory.drop 2).take 1), .publish],
  turn 2 1]

/-- **A slow watcher is passed over**: the channel goes on with revision 2. -/
theorem watch_never_skips_fails :
    ∃ s w, watchSystem.run { store := .empty, history := [] } slowWatch = some s ∧
      Chained s.history ∧ s.watcher = some w ∧ ¬ w.NeverSkips := by
  obtain ⟨s, ran, ⟨rest, whole⟩, running⟩ := System.exists_of_run watchSystem
    { store := .empty, history := [] }
    slowWatch (fun s => s.history <+: sampleHistory ∧ s.watcher.any (fun w => ¬ w.NeverSkips))
    (by decide +kernel)
  obtain ⟨w, isWatcher, skips⟩ := (Option.any_eq_true _ _).mp running
  have chained : Chained s.history := (whole.symm ▸ sampleHistory_chained).of_append
  exact ⟨s, w, ran, chained, isWatcher, of_decide_eq_true skips⟩

end T4.Mvcc
