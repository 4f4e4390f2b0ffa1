import Mathlib.Data.List.Forall2
import T4.Lib.Lists
import T4.Store.Watch

/-!
# A watcher delivers every event once, in order

As long as no compaction reaches past the position of a watcher, the log keeps every
version it has still to read, so the intervals that its scans cover lie end to end
and each scan finds all of its interval. What the channel has delivered is then a
prefix of the versions it was started for (`Watcher.InOrder`), whatever `Apply` does
between the wait, the load, the records of a scan and the sends.

The log is read by unsigned revision, which is why a start below -1 does not behave
as a revision before the first, and the largest start wraps round.
-/

namespace T4.Mvcc

open Lib Bytes SortedMap Wal List

/-! ## Specification -/

/-- What an event may show as the previous version: the version before, or nothing
once that is no longer stored. -/
def PrevShown (db : Pebble) (prev : Option Version) (shown : Option KeyValue) : Prop :=
  match prev with
  | none => shown = none
  | some u => shown = some u.kv ∨ shown = none ∧ db.get u.slot = none

/-- The event shows the version `v` of the applied versions `vs`. -/
structure Shows (db : Pebble) (vs : List Version) (withPrevKV : Bool) (event : Event)
    (v : Version) : Prop where
  applied : v ∈ vs
  type : event.type = if v.change.op = Op.delete then .delete else .put
  kv : event.kv = v.kv
  prevKV : if withPrevKV then PrevShown db (before vs v) event.prevKV else event.prevKV = none

/-- What was delivered is, event by event, a prefix of what the watcher was started
for. -/
def Watcher.InOrder (h : List Entry) (db : Pebble) (w : Watcher) : Prop :=
  ∃ shown, shown <+: (versions h).filter w.Wants ∧
    List.Forall₂ (Shows db (versions h) w.withPrevKV) w.delivered shown

/-- A start between -1 and the largest revision that is not compacted away. -/
def StartsInLog (s : WatchState) (startRev : Int) : Prop :=
  -1 ≤ startRev ∧ startRev + 1 < 2 ^ 63 ∧ watermarkOf s.history ≤ startRev + 1

instance (s : WatchState) (startRev : Int) : Decidable (StartsInLog s startRev) :=
  inferInstanceAs (Decidable (_ ∧ _))

/-- No compaction of the batch reaches past the next revision of a running watcher. -/
def Behind (s : WatchState) (es : List Entry) : Prop :=
  ∀ w ∈ s.watcher, ∀ nextRev ∈ w.loop.nextRev, ∀ e ∈ es, e.op = Op.compact →
    e.prevRevision ≤ nextRev

instance (s : WatchState) (es : List Entry) : Decidable (Behind s es) := by
  unfold Behind
  infer_instance

/-- Compactions stay behind running watchers. -/
def CompactsBehind (s : WatchState) : WatchAction → Prop
  | .apply es => Behind s es
  | _ => True

instance (s : WatchState) (a : WatchAction) : Decidable (CompactsBehind s a) := by
  cases a <;> unfold CompactsBehind <;> infer_instance

/-- Watchers start in the log, and compactions stay behind them. -/
def Unhurried (s : WatchState) : WatchAction → Prop
  | .apply es => Behind s es
  | .storeWatch _ startRev _ => StartsInLog s startRev
  | .nodeWatch _ startRev _ =>
    match s.store.nodeWatchStart startRev with
    | .error _ => True
    | .ok storeStartRev => StartsInLog s storeStartRev
  | .publish | .loop _ => True

instance (s : WatchState) (a : WatchAction) : Decidable (Unhurried s a) := by
  cases a with
  | nodeWatch _ startRev _ =>
    unfold Unhurried
    dsimp only
    split <;> infer_instance
  | _ => unfold Unhurried; infer_instance

/-! ## What a scan covers -/

section Wanted

variable {w : Watcher} {vs : List Version} {h es : List Entry}

/-- The versions below `bound` that the watcher was started for. -/
def Watcher.wanted (w : Watcher) (vs : List Version) (bound : Int) : List Version :=
  (vs.filter w.Wants).filter (fun v => v.rev < bound)

theorem WellFormed.wants_sorted (wf : WellFormed h) :
    ((versions h).filter w.Wants).Pairwise (fun u v => u.rev ≤ v.rev) :=
  (wf.before.filter _).imp Version.Before.rev

theorem Watcher.wanted_prefix (wf : WellFormed h) (bound : Int) :
    w.wanted (versions h) bound <+: (versions h).filter w.Wants :=
  filter_lt_prefix wf.wants_sorted bound

theorem Watcher.wanted_start : w.wanted vs (w.startRev + 1) = [] := by
  rw [Watcher.wanted, filter_eq_nil_iff]
  intro v mem below
  have wants : w.Wants v := by simpa using (mem_filter.mp mem).2
  have : v.rev < w.startRev + 1 := by simpa using below
  have := wants.2
  omega

theorem Watcher.wanted_append (wf : WellFormed (h ++ es)) {bound : Int}
    (reached : bound = w.startRev + 1 ∨ bound ≤ revisionOf h + 1) :
    w.wanted (versions (h ++ es)) bound = w.wanted (versions h) bound := by
  rcases reached with atStart | reached
  · rw [atStart, Watcher.wanted_start, Watcher.wanted_start]
  · rw [Watcher.wanted, Watcher.wanted, versions_append, filter_append, filter_append]
    have none : ((versions es).filter w.Wants).filter (fun v => v.rev < bound) = [] := by
      rw [filter_eq_nil_iff]
      intro v mem
      have := wf.revisionOf_lt_rev (mem_filter.mp mem).1
      simpa using (by omega : bound ≤ v.rev)
    rw [none, append_nil]

/-- The wanted versions of a scanned interval are those that join one bound to the
next. -/
theorem Watcher.wanted_extend (wf : WellFormed h) {low high : Int} (le : low ≤ high) :
    w.wanted (versions h) low ++ (w.wanted (versions h) high).filter (fun v => low ≤ v.rev) =
      w.wanted (versions h) high := by
  have early : (w.wanted (versions h) high).filter (fun v => v.rev < low) =
      w.wanted (versions h) low := by
    rw [Watcher.wanted, Watcher.wanted, filter_filter]
    apply filter_congr
    intro v _
    have both : (decide (v.rev < low) && decide (v.rev < high)) = decide (v.rev < low) := by
      by_cases below : v.rev < low
      · simp [below, (by omega : v.rev < high)]
      · simp [below]
    exact both
  have sorted : (w.wanted (versions h) high).Pairwise (fun u v => u.rev ≤ v.rev) :=
    wf.wants_sorted.filter _
  rw [← early]
  exact filter_lt_append_filter_le sorted low

end Wanted

/-! ## Events show versions -/

section Shows

variable {db : Pebble} {h es : List Entry} {withPrevKV : Bool} {event : Event} {v : Version}

theorem scanRecords_shows (rep : Represents db (versions h) (watermarkOf h))
    (chained : Chained h) (mem : v ∈ versions h) {pfx : Bytes} {found : List Event}
    (scanned : scanRecords db pfx withPrevKV [v.binding] = .ok found) :
    ¬ pfx <+: v.key ∧ found = [] ∨
      pfx <+: v.key ∧ ∃ event, found = [event] ∧ Shows db (versions h) withPrevKV event v := by
  have log := chained.wellFormed.logged
  have storable := log.storable v mem
  have sameKey : v.record.key = v.key := rfl
  have samePrev : v.record.prevRevision = v.change.prevRevision := rfl
  rw [Version.binding, scanRecords, storable.unmarshal] at scanned
  simp only [scanRecords, sameKey, samePrev, storable.decodeLogKey, storable.toKV,
    Version.record_delete, decide_eq_true_eq] at scanned
  split at scanned
  · cases scanned
    exact Or.inl ⟨‹_›, rfl⟩
  · rename_i selected
    cases scanned
    refine Or.inr ⟨not_not.mp selected, _, rfl, mem, rfl, rfl, ?_⟩
    have named := chained.prevRevision mem
    split
    · rename_i requested
      cases prev : before (versions h) v with
      | none =>
        rw [prev] at named
        show (if _ then _ else _) = none
        rw [if_neg]
        intro both
        exact absurd (named ▸ both.2) (by simp)
      | some u =>
        obtain ⟨inVs, uKey, -⟩ := mem_of_before prev
        rw [prev, Option.map_some, Option.getD_some] at named
        have pos := (log.storable u inVs).pos
        have lookup := rep.getLogEntry_toOption log inVs
        rw [uKey] at lookup
        have asked : withPrevKV = true ∧ u.rev > 0 := ⟨requested, pos⟩
        simp only [PrevShown, named, if_pos asked, lookup]
        by_cases present : (db.get u.slot).isSome
        · exact Or.inl (if_pos present)
        · exact Or.inr ⟨if_neg present, by simpa using present⟩
    · rename_i notRequested
      exact if_neg (fun both => notRequested both.1)

/-- An event goes on showing its version: the version before stays what it was, and
is never stored again. -/
theorem Shows.commit {before_ after : Store} (rep : before_.Represents h)
    (wf : WellFormed (h ++ es)) (applied : before_.apply es = (after, none))
    (shows_ : Shows before_.db (versions h) withPrevKV event v) :
    Shows after.db (versions (h ++ es)) withPrevKV event v := by
  have inAll : v ∈ versions (h ++ es) := by
    rw [versions_append]
    exact mem_append_left _ shows_.applied
  refine ⟨inAll, shows_.type, shows_.kv, ?_⟩
  rw [before_history_append wf shows_.applied]
  have prevKV := shows_.prevKV
  split
  · rename_i requested
    rw [if_pos requested] at prevKV
    cases prev : before (versions h) v with
    | none =>
      rw [prev] at prevKV
      exact prevKV
    | some u =>
      rw [prev] at prevKV
      rcases prevKV with shown | gone
      · exact Or.inl shown
      · refine Or.inr ⟨gone.1, ?_⟩
        rcases rep.apply_slot wf applied (mem_of_before prev).1 with same | deleted
        · rw [same, gone.2]
        · exact deleted.1
  · rename_i notRequested
    rwa [if_neg notRequested] at prevKV

end Shows

/-! ## Invariant -/

/-- Which versions the events of the loop, sent or not, show: all that were wanted
up to the position of the loop. In a scan the records still to come supply the
rest. -/
def Watcher.Covers (w : Watcher) (vs shown : List Version) : Prop :=
  match w.loop with
  | .waiting nextRev | .woken nextRev | .loaded nextRev _ => shown = w.wanted vs (uint64 nextRev)
  | .scanning _ curRev records _ => ∃ todo : List Version, records = todo.map Version.binding ∧
    (∀ v ∈ todo, v ∈ vs ∧ w.startRev < v.rev) ∧
    shown ++ todo.filter w.Wants = w.wanted vs (curRev + 1)
  | .sending _ curRev _ => shown = w.wanted vs (curRev + 1)
  | .closed => shown <+: vs.filter w.Wants

structure Watcher.Exact (h : List Entry) (store : Store) (w : Watcher) : Prop where
  placed : w.loop.Placed w.startRev store.currentRev
  watermark : ∀ nextRev ∈ w.loop.nextRev, watermarkOf h ≤ uint64 nextRev
  shown : ∃ shown, w.Covers (versions h) shown ∧
    List.Forall₂ (Shows store.db (versions h) w.withPrevKV) (w.delivered ++ w.loop.pending) shown

theorem Watcher.Covers.append {w : Watcher} {h es : List Entry} {shown : List Version}
    {currentRev : Int} (covers : w.Covers (versions h) shown) (wf : WellFormed (h ++ es))
    (placed : w.loop.Placed w.startRev currentRev) (bounded : currentRev ≤ revisionOf h) :
    w.Covers (versions (h ++ es)) shown := by
  cases at_ : w.loop with
  | waiting nextRev | woken nextRev | loaded nextRev curRev | sending nextRev curRev events =>
    simp only [Watcher.Covers, at_, WatchLoop.Placed] at covers placed ⊢
    rw [Watcher.wanted_append wf (by omega)]
    exact covers
  | scanning nextRev curRev records events =>
    simp only [Watcher.Covers, at_, WatchLoop.Placed] at covers placed ⊢
    obtain ⟨todo, isTodo, within, whole⟩ := covers
    refine ⟨todo, isTodo, ?_, ?_⟩
    · intro v mem
      rw [versions_append]
      exact ⟨mem_append_left _ (within v mem).1, (within v mem).2⟩
    · rw [Watcher.wanted_append wf (by omega)]
      exact whole
  | closed =>
    simp only [Watcher.Covers, at_] at covers ⊢
    rw [versions_append, filter_append]
    exact covers.trans (prefix_append _ _)

variable {w : Watcher} {h : List Entry}

/-- Whatever the loop is doing, the events show a prefix of what was wanted. -/
theorem Watcher.Covers.isPrefix {shown : List Version} (covers : w.Covers (versions h) shown)
    (wf : WellFormed h) : shown <+: (versions h).filter w.Wants := by
  cases at_ : w.loop with
  | waiting nextRev | woken nextRev | loaded nextRev curRev | sending nextRev curRev events =>
    simp only [Watcher.Covers, at_] at covers
    rw [covers]
    exact Watcher.wanted_prefix wf _
  | scanning nextRev curRev records events =>
    simp only [Watcher.Covers, at_] at covers
    obtain ⟨todo, -, -, whole⟩ := covers
    exact (prefix_append shown _).trans (whole ▸ Watcher.wanted_prefix wf _)
  | closed =>
    simp only [Watcher.Covers, at_] at covers
    exact covers

theorem forall₂_front {R : Event → Version → Prop} {front rest : List Event}
    {shown : List Version} (all : List.Forall₂ R (front ++ rest) shown) :
    List.Forall₂ R front (shown.take front.length) := by
  have flipped := forall₂_take_append shown front rest all.flip
  exact flipped.flip

/-- The scan of an interval that no compaction has reached meets every version of it. -/
theorem Represents.logged_wanted {db : Pebble} (rep : Represents db (versions h) (watermarkOf h))
    (wf : WellFormed h) {nextRev curRev : Int} (watermark : watermarkOf h ≤ uint64 nextRev)
    (nonneg : 0 ≤ curRev) (fits : curRev < 2 ^ 63) :
    (logged db (versions h) nextRev (curRev + 1)).filter w.Wants =
      (w.wanted (versions h) (curRev + 1)).filter (fun v => (uint64 nextRev : Int) ≤ v.rev) := by
  have upper := uint64_of_nonneg (x := curRev + 1) (by omega) (by omega)
  rw [logged, Watcher.wanted, filter_filter, filter_filter, filter_filter]
  apply filter_congr
  intro v mem
  have word := (wf.logged.storable v mem).uint64
  have present : uint64 nextRev ≤ v.rev → (db.get v.slot).isSome := by
    intro above
    have held := rep.complete v mem (by
      intro later _ _ newer
      omega)
    exact Option.isSome_iff_exists.mpr ⟨_, held⟩
  rw [Bool.eq_iff_iff]
  simp only [Bool.and_eq_true, decide_eq_true_eq]
  constructor
  · intro met
    exact ⟨⟨by omega, by omega⟩, met.1⟩
  · intro wanted
    exact ⟨wanted.2, present wanted.1.1, by omega, by omega⟩

namespace Watcher.Exact

variable {s : WatchState} {w next : Watcher}

theorem start {pfx : Bytes} {startRev : Int} {withPrevKV : Bool}
    (starts : StartsInLog s startRev) :
    (Watcher.start pfx startRev withPrevKV).Exact s.history s.store := by
  obtain ⟨low, high, covered⟩ := starts
  have position := uint64_wrap (x := startRev + 1) (by omega) (by omega)
  refine ⟨.start low (Or.inl high), ?_, [], ?_, .nil⟩
  · intro nextRev isNext
    cases isNext
    rw [position]
    exact covered
  · show [] = Watcher.wanted _ _ _
    rw [position]
    exact Watcher.wanted_start.symm

theorem commit {es : List Entry} {after : Store} (holds : s.Holds) (idle : s.publishing = none)
    (chained : Chained (s.history ++ es)) (behind : Behind s es) (running : s.watcher = some w)
    (applied : s.store.apply es = (after, none)) (exact_ : w.Exact s.history s.store) :
    (w.overtake (versions s.history) s.store.db after.db).Exact (s.history ++ es)
      { after with currentRev := s.store.currentRev, lastSeq := s.store.lastSeq } := by
  have wf := chained.wellFormed
  obtain ⟨shown, covers, events⟩ := exact_.shown
  refine ⟨exact_.placed, ?_, shown, covers.append wf exact_.placed holds.bounded, ?_⟩
  · intro nextRev isNext
    have position := exact_.placed.le_position isNext
    apply watermarkOf_append_le (exact_.watermark nextRev isNext)
    intro e mem isCompact
    exact (behind w running nextRev isNext e mem isCompact).trans position
  · have later : ∀ event v, Shows s.store.db (versions s.history) w.withPrevKV event v →
        Shows after.db (versions (s.history ++ es)) w.withPrevKV event v :=
      fun _ _ shows_ => shows_.commit (holds.idle idle) wf applied
    exact events.imp later

theorem publish {h : List Entry} {store after : Store} (sameDb : after.db = store.db)
    (le : store.currentRev ≤ after.currentRev) (exact_ : w.Exact h store) : w.Exact h after := by
  refine ⟨exact_.placed.mono le, exact_.watermark, ?_⟩
  rw [sameDb]
  exact exact_.shown

theorem loop (holds : s.Holds) (chained : Chained s.history) (effect : LoopEffect s.store w next)
    (exact_ : w.Exact s.history s.store) : next.Exact s.history s.store := by
  have wf := chained.wellFormed
  have fits : s.store.currentRev < 2 ^ 63 := lt_of_le_of_lt holds.bounded wf.revisionOf_fits
  have placed := exact_.placed
  obtain ⟨shown, covers, events⟩ := exact_.shown
  refine ⟨effect.placed placed holds.nonneg fits, ?_, ?_⟩
  · intro nextRev isNext
    obtain ⟨old, isOld, le⟩ := effect.advances placed fits isNext
    exact (exact_.watermark old isOld).trans le
  have watermark := exact_.watermark
  cases effect with
  | wait at_ _ | load at_ =>
    rw [at_] at events
    simp only [Watcher.Covers, at_] at covers
    exact ⟨shown, covers, events⟩
  | @scan nextRev curRev at_ =>
    rw [at_] at events placed watermark
    simp only [Watcher.Covers, at_, WatchLoop.Placed] at covers placed
    refine ⟨shown, ⟨logged s.store.db (versions s.history) nextRev (curRev + 1),
      holds.pebble.range_log wf.logged _ _, ?_, ?_⟩, events⟩
    · intro v mem
      obtain ⟨inVs, -, above, -⟩ := mem_logged.mp mem
      have word := (wf.logged.storable v inVs).uint64
      exact ⟨inVs, by show w.startRev < v.rev; omega⟩
    · rw [covers]
      show w.wanted _ _ ++ List.filter (fun v => decide (w.Wants v)) _ = w.wanted _ _
      rw [holds.pebble.logged_wanted wf (watermark nextRev rfl) (by omega) (by omega)]
      exact Watcher.wanted_extend wf (by omega)
  | @record nextRev curRev r rest found_ found at_ scanned =>
    rw [at_] at events
    simp only [Watcher.Covers, at_] at covers
    obtain ⟨todo, isTodo, within, whole⟩ := covers
    cases todo with
    | nil => cases isTodo
    | cons v todo =>
      obtain ⟨rfl, isRest⟩ := cons_eq_cons.mp isTodo
      obtain ⟨inVs, above⟩ := within v (by simp)
      have later : ∀ u ∈ todo, u ∈ versions s.history ∧ w.startRev < u.rev :=
        fun u mem => within u (mem_cons_of_mem v mem)
      rcases scanRecords_shows holds.pebble chained inVs scanned with skipped | selected
      · obtain ⟨differs, rfl⟩ := skipped
        have unwanted : ¬ w.Wants v := fun wants => differs wants.1
        rw [filter_cons_of_neg (by simpa using unwanted)] at whole
        exact ⟨shown, ⟨todo, isRest, later, whole⟩, by simpa [WatchLoop.pending] using events⟩
      · obtain ⟨matches_, event, rfl, shows_⟩ := selected
        have wanted : w.Wants v := ⟨matches_, above⟩
        rw [filter_cons_of_pos (by simpa using wanted)] at whole
        refine ⟨shown ++ [v], ⟨todo, isRest, later, ?_⟩, ?_⟩
        · rw [append_assoc]
          exact whole
        · show List.Forall₂ _ (w.delivered ++ (found_ ++ [event])) _
          rw [← append_assoc]
          exact rel_append events (.cons shows_ .nil)
  | scanned at_ =>
    rw [at_] at events
    simp only [Watcher.Covers, at_] at covers
    obtain ⟨todo, isTodo, -, whole⟩ := covers
    obtain rfl := map_eq_nil_iff.mp isTodo.symm
    rw [filter_nil, append_nil] at whole
    exact ⟨shown, whole, events⟩
  | send at_ =>
    rw [at_] at events
    simp only [Watcher.Covers, at_] at covers
    refine ⟨shown, covers, ?_⟩
    simpa [WatchLoop.pending] using events
  | @next nextRev curRev at_ =>
    rw [at_] at events placed
    simp only [Watcher.Covers, at_, WatchLoop.Placed] at covers placed
    have position := uint64_wrap (x := curRev + 1) (by omega) (by omega)
    refine ⟨shown, ?_, events⟩
    show shown = w.wanted _ _
    rw [position]
    exact covers
  | stop =>
    refine ⟨shown.take w.delivered.length, ?_, ?_⟩
    · exact (List.take_prefix _ _).trans (covers.isPrefix wf)
    · show List.Forall₂ _ (w.delivered ++ []) _
      rw [append_nil]
      exact forall₂_front events

end Watcher.Exact

theorem watchRule_exact : WatchRule Unhurried (fun h store w => w.Exact h store) where
  storeWatch _ _ starts := .start starts
  nodeWatch _ _ starts accepted := by
    simp only [Unhurried, accepted] at starts
    exact .start starts
  commit holds idle chained behind running applied exact_ :=
    exact_.commit holds idle chained behind running applied
  publish sameDb le exact_ := exact_.publish sameDb le
  loop holds chained effect exact_ := exact_.loop holds chained effect

/-- **Watch delivers exactly once, in order.** In every run in which the watcher
starts in the log and no compaction reaches past its next revision, what the channel
has delivered is a prefix of the applied versions with a later revision and a
matching key, each with its type, its value and the version before it. -/
theorem watch_delivers_in_order {start s : WatchState} {actions : List WatchAction}
    (init : watchSystem.init start) (meets : watchSystem.Meets Unhurried start actions)
    (ran : watchSystem.run start actions = some s) (chained : Chained s.history) :
    ∀ w ∈ s.watcher, w.InOrder s.history s.store.db := by
  intro w isWatcher
  obtain ⟨shown, covers, events⟩ :=
    ((watchRule_exact.run init meets ran chained).2 w isWatcher).shown
  exact ⟨shown.take w.delivered.length,
    (List.take_prefix _ _).trans (covers.isPrefix chained.wellFormed), forall₂_front events⟩

/-- The loop goes round once, over `records` records and as far as `sends` sends; the
last one only turns back to the wait. -/
def turn (records sends : Nat) : List WatchAction := List.flatten [
  [.loop .wait, .loop .load, .loop .scan],
  List.replicate (records + 1) (.loop .record),
  List.replicate sends (.loop .send)]

/-- A watcher from the first revision on, with previous versions. A transaction is
applied while it scans; what it has read is compacted before it goes on. -/
def sampleWatch : List WatchAction := List.flatten [
  [.apply (sampleHistory.take 1), .publish, .storeWatch [1] 0 true, .loop .wait, .loop .load,
    .loop .scan, .apply ((sampleHistory.drop 1).take 1), .loop .record, .publish, .loop .record,
    .loop .send, .loop .send],
  turn 2 2,
  [.apply (sampleHistory.drop 2), .publish],
  turn 1 1]

theorem watch_delivers_in_order_sampleWatch :
    ∃ s w, watchSystem.run { store := .empty, history := [] } sampleWatch = some s ∧
      s.watcher = some w ∧ w.InOrder s.history s.store.db ∧
      w.delivered.map (fun e => (e.kv.revision, e.prevKV.map KeyValue.revision)) =
        [(1, none), (2, some 1), (3, some 2)] := by
  obtain ⟨s, ran, whole, delivered⟩ := System.exists_of_run watchSystem
    { store := .empty, history := [] }
    sampleWatch (fun s => s.history = sampleHistory ∧ s.watcher.any (fun w =>
      w.delivered.map (fun e => (e.kv.revision, e.prevKV.map KeyValue.revision)) =
        [(1, none), (2, some 1), (3, some 2)])) (by decide +kernel)
  obtain ⟨w, running, shown⟩ := (Option.any_eq_true _ _).mp delivered
  have inOrder := watch_delivers_in_order ⟨Store.represents_empty, rfl, rfl⟩ (by decide +kernel) ran
    (whole ▸ sampleHistory_chained) w running
  exact ⟨s, w, ran, running, inOrder, of_decide_eq_true shown⟩

theorem Watcher.InOrder.values {db : Pebble} (inOrder : w.InOrder h db) :
    w.delivered.map Event.kv <+: ((versions h).filter w.Wants).map Version.kv := by
  obtain ⟨shown, isPrefix, events⟩ := inOrder
  have same : w.delivered.map Event.kv = shown.map Version.kv := by
    rw [← forall₂_eq_eq_eq, forall₂_map_left_iff, forall₂_map_right_iff]
    exact events.imp (fun _ _ shows_ => shows_.kv)
  rw [same]
  exact isPrefix.map Version.kv

/-- Three starts outside the log: below -1 the first version is skipped, at the
largest revision versions that are not later come, and below the watermark the
compacted version is skipped. -/
def strayWatches : List (Int × List WatchAction) := [
  (-2, List.flatten [
    [.apply (sampleHistory.take 1), .publish, .storeWatch [] (-2) false], turn 0 1,
    [.apply ((sampleHistory.drop 1).take 1), .publish], turn 2 1]),
  (2 ^ 63 - 1, List.flatten [
    [.storeWatch [] (2 ^ 63 - 1) false], turn 0 1,
    [.apply (sampleHistory.take 2), .publish], turn 3 1]),
  (0, List.flatten [
    [.apply (sampleHistory.take 2), .publish, .apply ((sampleHistory.drop 2).take 1), .publish,
      .storeWatch [] 0 false], turn 2 1])]

/-- **Not from every start.** Compactions stay behind the watcher, and the events
are not a prefix of the versions after its start. -/
theorem watch_delivers_in_order_fails : strayWatches.Forall (fun stray =>
    ∃ s w, watchSystem.run { store := .empty, history := [] } stray.2 = some s ∧
      watchSystem.Meets CompactsBehind { store := .empty, history := [] } stray.2 ∧
      Chained s.history ∧ s.watcher = some w ∧ w.startRev = stray.1 ∧
      ¬ w.InOrder s.history s.store.db) := by
  have runs : ∀ stray ∈ strayWatches,
      (watchSystem.run { store := .empty, history := [] } stray.2).any (fun s =>
        s.history <+: sampleHistory ∧ s.watcher.any (fun w => w.startRev = stray.1 ∧
          ¬ w.delivered.map Event.kv <+:
            ((versions s.history).filter w.Wants).map Version.kv)) ∧
      watchSystem.Meets CompactsBehind { store := .empty, history := [] } stray.2 := by
    decide +kernel
  rw [forall_iff_forall_mem]
  intro stray isStray
  obtain ⟨replayed, meets⟩ := runs stray isStray
  obtain ⟨s, ran, ⟨rest, whole⟩, running⟩ := System.exists_of_run _ _ _ _ replayed
  obtain ⟨w, isWatcher, found⟩ := (Option.any_eq_true _ _).mp running
  obtain ⟨atStart, skips⟩ := of_decide_eq_true found
  have chained : Chained s.history := (whole.symm ▸ sampleHistory_chained).of_append
  exact ⟨s, w, ran, meets, chained, isWatcher, atStart, fun inOrder => skips inOrder.values⟩

end T4.Mvcc
