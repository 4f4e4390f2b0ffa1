import T4.Store.Reads

/-!
# Writing a revision again

Replay meets revisions that the store already has: an entry that was applied before, or an
entry of a newer term where an older term left another one. `Recover` then cleans up
before it writes: it deletes index pointers of what it finds at the revision, and for a
transaction the log records as well (`Clears`).

An entry that finds nothing but its own versions does what applying it does
(`commit_cleanup_writes`).
-/

namespace T4.Mvcc

open Lib Bytes SortedMap Wal List

/-- The version is still in the log. -/
def Version.HeldIn (db : Pebble) (v : Version) : Prop := (db.get v.slot).isSome

/-- Cleaning up for `e` deletes the index pointer of `k`: a put of `k` is logged at the
revision, where `e` is able to see it. -/
def Unlinks (db : Pebble) (vs : List Version) (e : Entry) (k : Bytes) : Prop :=
  ∃ v ∈ vs, v.HeldIn db ∧ v.rev = e.revision ∧ v.key = k ∧ v.change.op ≠ Op.delete ∧
    (e.op = Op.txn ∨ v.sub = none ∧ k ≠ e.key)

/-- Cleaning up for `e` deletes the Pebble key. -/
def Clears (db : Pebble) (vs : List Version) (e : Entry) (pebbleKey : Bytes) : Prop :=
  (∃ k, pebbleKey = idxKey k ∧ Unlinks db vs e k) ∨
    (e.op = Op.txn ∧ ∃ v ∈ vs, v.HeldIn db ∧ v.rev = e.revision ∧ pebbleKey = v.slot)

/-- The Pebble keys that the clean-up of a transaction deletes for one log record. -/
def Version.traces (v : Version) : List Bytes :=
  (if v.change.op = Op.delete then [] else [idxKey v.key]) ++ [v.slot]

theorem Version.mem_traces {v : Version} {k : Bytes} :
    k ∈ v.traces ↔ (v.change.op ≠ Op.delete ∧ k = idxKey v.key) ∨ k = v.slot := by
  unfold Version.traces
  by_cases deleted : v.change.op = Op.delete <;> simp [deleted]

theorem cleanupTxn_bindings {found : List Version} (storable : ∀ v ∈ found, v.Storable) :
    cleanupTxn (found.map Version.binding) = (found.flatMap Version.traces).map .delete := by
  induction found with
  | nil => rfl
  | cons v rest ih =>
    have here := (storable v (by simp)).unmarshal
    have later := ih (fun w mem => storable w (mem_cons_of_mem v mem))
    rw [map_cons, Version.binding, cleanupTxn, here, later, flatMap_cons, map_append,
      Version.traces]
    simp only [Version.record_delete]
    by_cases deleted : v.change.op = Op.delete
    · simp [deleted]
    · simp only [deleted, decide_false, Bool.false_eq_true, if_false]
      rfl

section Clean

variable {db : Pebble} {vs : List Version} {e : Entry}

variable {v : Version} {k : Bytes}

theorem mem_logged_revision (log : Logged vs) (pos : 0 < e.revision) (fits : e.revision < 2 ^ 63) :
    v ∈ logged db vs e.revision (e.revision + 1) ↔
      v ∈ vs ∧ v.HeldIn db ∧ v.rev = e.revision := by
  rw [mem_logged]
  refine and_congr_right (fun mem => and_congr_right (fun _ => ?_))
  have word := (log.storable v mem).uint64
  have low := uint64_of_rev pos fits.le
  have high := uint64_of_nonneg (x := e.revision + 1) (by omega) (by omega)
  omega

theorem Sound.get_logKey (sound : Sound db vs) (log : Logged vs) (pos : 0 < e.revision)
    (fits : e.revision < 2 ^ 63) {value : Bytes} (held : db.get (logKey e.revision) = some value) :
    ∃ v ∈ vs, v.HeldIn db ∧ v.rev = e.revision ∧ v.sub = none ∧
      unmarshalRecord value = .ok v.record := by
  rcases sound _ _ held with inLog | idx | isMeta
  · obtain ⟨v, mem, bound⟩ := inLog
    obtain ⟨slots, rfl⟩ := Prod.mk.inj bound
    have storable := log.storable v mem
    have noSub : ∀ i ∈ (none : Option Nat), i < 2 ^ 16 := by simp
    obtain ⟨sameRev, sameSub⟩ := slotKey_injective ⟨by omega, fits⟩ storable.int64 noSub
      storable.sub slots
    have heldIn : v.HeldIn db := by
      rw [Version.HeldIn, ← slots]
      exact Option.isSome_iff_exists.mpr ⟨_, held⟩
    exact ⟨v, mem, heldIn, sameRev.symm, sameSub.symm, storable.unmarshal⟩
  · obtain ⟨key, same⟩ := idx
    exact absurd same (slotKey_ne_idxKey e.revision none key)
  · exact absurd isMeta (slotKey_not_mem_metaKeys e.revision none)

theorem Version.slot_of_single (single : v.sub = none) : v.slot = logKey v.rev := by
  rw [Version.slot, single, slotKey]

/-- An entry with a single key unlinks at most the key of the record that it finds. -/
theorem unlinks_iff (log : Logged vs) (isSingle : e.op ≠ Op.txn) (mem : v ∈ vs)
    (heldIn : v.HeldIn db) (sameRev : v.rev = e.revision) (single : v.sub = none) :
    Unlinks db vs e k ↔ v.key = k ∧ v.change.op ≠ Op.delete ∧ v.key ≠ e.key := by
  constructor
  · intro unlinks
    obtain ⟨w, memW, -, revW, keyW, live, seen⟩ := unlinks
    obtain ⟨singleW, other⟩ := seen.resolve_left isSingle
    have same : w = v := log.eq_of_sub_none memW mem (revW.trans sameRev.symm) single
    subst same
    exact ⟨keyW, live, keyW ▸ other⟩
  · intro parts
    obtain ⟨rfl, live, other⟩ := parts
    exact ⟨v, mem, heldIn, sameRev, rfl, live, Or.inr ⟨single, other⟩⟩

theorem Sound.cleanup_eq (sound : Sound db vs) (log : Logged vs) (pos : 0 < e.revision)
    (fits : e.revision < 2 ^ 63) :
    ∃ gone : List Bytes, cleanup db e = gone.map .delete ∧ ∀ k, k ∈ gone ↔ Clears db vs e k := by
  unfold cleanup
  by_cases isTxn : e.op = Op.txn
  · rw [if_pos isTxn, sound.range_log log, cleanupTxn_bindings
      (fun v mem => log.storable v ((mem_logged_revision log pos fits).mp mem).1)]
    refine ⟨_, rfl, ?_⟩
    intro k
    rw [mem_flatMap]
    constructor
    · intro found
      obtain ⟨v, mem, trace⟩ := found
      obtain ⟨inVs, heldIn, sameRev⟩ := (mem_logged_revision log pos fits).mp mem
      rcases Version.mem_traces.mp trace with ⟨live, rfl⟩ | rfl
      · exact Or.inl ⟨v.key, rfl, v, inVs, heldIn, sameRev, rfl, live, Or.inl isTxn⟩
      · exact Or.inr ⟨isTxn, v, inVs, heldIn, sameRev, rfl⟩
    · intro clears
      rcases clears with ⟨key, rfl, v, mem, heldIn, sameRev, rfl, live, -⟩ |
        ⟨-, v, mem, heldIn, sameRev, rfl⟩
      · exact ⟨v, (mem_logged_revision log pos fits).mpr ⟨mem, heldIn, sameRev⟩,
          Version.mem_traces.mpr (Or.inl ⟨live, rfl⟩)⟩
      · exact ⟨v, (mem_logged_revision log pos fits).mpr ⟨mem, heldIn, sameRev⟩,
          Version.mem_traces.mpr (Or.inr rfl)⟩
  · have onlyIndex : ∀ k, Clears db vs e k ↔ ∃ key, k = idxKey key ∧ Unlinks db vs e key :=
      fun k => or_iff_left (fun txn => isTxn txn.1)
    rw [if_neg isTxn]
    cases held : db.get (logKey e.revision) with
    | none =>
      refine ⟨[], rfl, ?_⟩
      intro k
      rw [onlyIndex]
      refine iff_of_false (not_mem_nil) ?_
      intro clears
      obtain ⟨key, -, v, -, heldIn, sameRev, -, -, seen⟩ := clears
      have single := (seen.resolve_left isTxn).1
      rw [Version.HeldIn, Version.slot_of_single single, sameRev, held] at heldIn
      cases heldIn
    | some value =>
      obtain ⟨v, mem, heldIn, sameRev, single, decoded⟩ := sound.get_logKey log pos fits held
      have unlinks := fun k => unlinks_iff (k := k) log isTxn mem heldIn sameRev single
      simp only [decoded]
      have sameKey : v.record.key = v.key := rfl
      by_cases stale : v.change.op ≠ Op.delete ∧ v.key ≠ e.key
      · refine ⟨[idxKey v.key], ?_, ?_⟩
        · simp [Version.record_delete, sameKey, stale]
        · intro k
          rw [onlyIndex, mem_singleton]
          constructor
          · intro same
            exact ⟨v.key, same, (unlinks _).mpr ⟨rfl, stale⟩⟩
          · intro clears
            obtain ⟨key, rfl, unlinked⟩ := clears
            rw [((unlinks key).mp unlinked).1]
      · refine ⟨[], ?_, ?_⟩
        · rw [sameKey, Version.record_delete, if_neg]
          · rfl
          · simpa using stale
        · intro k
          rw [onlyIndex]
          refine iff_of_false (not_mem_nil) ?_
          intro clears
          obtain ⟨key, -, unlinked⟩ := clears
          exact stale ((unlinks key).mp unlinked).2

/-! ## The writes of an entry -/

/-- The operations that write `e`. -/
def Entry.writes (e : Entry) : List (Write Bytes Bytes) := (entryVersions e).flatMap Version.writes

theorem get_writes_slot (other : Pebble) {new : List Version}
    (before : new.Pairwise Version.Before) (mem : v ∈ new) :
    (other.commit (new.flatMap Version.writes)).get v.slot = some (marshalRecord v.record) := by
  induction new generalizing other with
  | nil => cases mem
  | cons w rest ih =>
    obtain ⟨first, later⟩ := pairwise_cons.mp before
    rw [flatMap_cons, commit_append]
    rcases mem_cons.mp mem with rfl | inRest
    · have apart : ∀ u ∈ rest, v.slot ≠ u.slot ∧ v.slot ≠ idxKey u.key :=
        fun u inRest => ⟨(first u inRest).slot.ne, v.slot_ne_idxKey u.key⟩
      rw [get_writes_of_ne _ apart, get_version_writes, if_neg (v.slot_ne_idxKey v.key), if_pos rfl]
    · exact ih _ later inRest

theorem get_writes_idx (other : Pebble) {new : List Version}
    (distinct : new.Pairwise (fun v w => v.key ≠ w.key)) (mem : v ∈ new) :
    (other.commit (new.flatMap Version.writes)).get (idxKey v.key) =
      v.live.map (fun v => encodeRev v.rev) := by
  induction new generalizing other with
  | nil => cases mem
  | cons w rest ih =>
    obtain ⟨first, later⟩ := pairwise_cons.mp distinct
    rw [flatMap_cons, commit_append]
    rcases mem_cons.mp mem with rfl | inRest
    · have apart : ∀ u ∈ rest, idxKey v.key ≠ u.slot ∧ idxKey v.key ≠ idxKey u.key :=
        fun u inRest => ⟨(u.slot_ne_idxKey v.key).symm,
          fun same => first u inRest (idxKey_injective same)⟩
      rw [get_writes_of_ne _ apart, get_version_writes, if_pos rfl]
    · exact ih _ later inRest

theorem Storable.distinct (storable : Storable e) :
    (entryVersions e).Pairwise (fun v w => v.key ≠ w.key) := by
  refine storable.before.imp_of_mem ?_
  intro v w memV memW before same
  have sameRev := (rev_of_mem_entryVersions memV).1.trans (rev_of_mem_entryVersions memW).1.symm
  exact (before.key same).ne sameRev

/-- Cleaning up for an entry that finds only its own versions makes no difference: it
writes again what it deletes. -/
theorem commit_cleanup_writes (sound : Sound db vs) (log : Logged vs) (storable : Storable e)
    (data : e.op ≠ Op.compact) (own : ∀ v ∈ vs, v.rev = e.revision → v ∈ entryVersions e)
    (other : Pebble) :
    other.commit (cleanup db e ++ Entry.writes e) = other.commit (Entry.writes e) := by
  obtain ⟨pos, fits⟩ := storable.revision data
  obtain ⟨gone, deletes, cleared⟩ := sound.cleanup_eq log pos fits
  apply eq_of_get
  intro k
  rw [commit_append, deletes]
  by_cases apart : ∀ v ∈ entryVersions e, k ≠ v.slot ∧ k ≠ idxKey v.key
  · have kept : k ∉ gone := by
      intro isGone
      rcases (cleared k).mp isGone with ⟨key, rfl, v, mem, -, sameRev, rfl, -⟩ |
        ⟨-, v, mem, -, sameRev, rfl⟩
      · exact (apart v (own v mem sameRev)).2 rfl
      · exact (apart v (own v mem sameRev)).1 rfl
    rw [Entry.writes, get_writes_of_ne _ apart, get_writes_of_ne _ apart, get_commit_deletes,
      if_neg kept]
  · obtain ⟨v, mem, written⟩ : ∃ v ∈ entryVersions e, k = v.slot ∨ k = idxKey v.key := by
      by_contra none
      exact apart (fun v mem => not_or.mp (fun written => none ⟨v, mem, written⟩))
    rcases written with rfl | rfl
    · rw [Entry.writes, get_writes_slot _ storable.before mem,
        get_writes_slot _ storable.before mem]
    · rw [Entry.writes, get_writes_idx _ storable.distinct mem,
        get_writes_idx _ storable.distinct mem]

/-! ## A batch of entries -/

/-- The operations of a batch of data entries that `Recover` runs on `db`. -/
def rewrites (db : Pebble) (es : List Entry) : List (Write Bytes Bytes) :=
  es.flatMap (fun e => cleanup db e ++ Entry.writes e)

theorem rewrites_append (db : Pebble) (es later : List Entry) :
    rewrites db (es ++ later) = rewrites db es ++ rewrites db later :=
  flatMap_append

theorem rewrites_cons (db : Pebble) (e : Entry) (es : List Entry) :
    rewrites db (e :: es) = cleanup db e ++ Entry.writes e ++ rewrites db es :=
  flatMap_cons

/-- A batch of storable data entries. -/
structure DataBatch (es : List Entry) : Prop where
  storable : ∀ e ∈ es, Storable e
  data : ∀ e ∈ es, e.op ≠ Op.compact

theorem DataBatch.tail {es : List Entry} (batch : DataBatch (e :: es)) : DataBatch es :=
  ⟨fun x mem => batch.storable x (mem_cons_of_mem e mem),
    fun x mem => batch.data x (mem_cons_of_mem e mem)⟩

theorem recoverOne_data (storable : Storable e) (data : e.op ≠ Op.compact) (b : Batch) :
    recoverOne db b e = .ok { b with
      ops := b.ops ++ (cleanup db e ++ Entry.writes e)
      maxRev := max b.maxRev e.revision
      maxSeq := max b.maxSeq e.sequence } := by
  unfold recoverOne applyOne
  rw [if_neg data, if_neg data, applyEntry_eq storable data]
  simp only [append_assoc]
  rfl

theorem DataBatch.runBatch {es : List Entry} (batch : DataBatch es) {b : Batch}
    (rev : 0 ≤ b.maxRev) (seq : 0 ≤ b.maxSeq) :
    Mvcc.runBatch (recoverOne db) b es = ({ b with
      ops := b.ops ++ rewrites db es
      maxRev := max b.maxRev (revisionOf es)
      maxSeq := max b.maxSeq (sequenceOf es) }, none) := by
  induction es generalizing b with
  | nil =>
    simp only [Mvcc.runBatch, rewrites, flatMap_nil, append_nil, revisionOf, sequenceOf,
      foldl_nil, max_eq_left rev, max_eq_left seq]
  | cons e rest ih =>
    have storable := batch.storable e (by simp)
    have data := batch.data e (by simp)
    obtain ⟨pos, -⟩ := storable.revision data
    have revision : max b.maxRev (revisionOf (e :: rest)) =
        max (max b.maxRev e.revision) (revisionOf rest) := by
      have single : revisionOf [e] = e.revision := by simp [revisionOf, data, pos.le]
      rw [← singleton_append, revisionOf_append, single, max_assoc]
    have sequence : max b.maxSeq (sequenceOf (e :: rest)) =
        max (max b.maxSeq e.sequence) (sequenceOf rest) := by
      have single : sequenceOf [e] = max 0 e.sequence := rfl
      rw [← singleton_append, sequenceOf_append, single, ← max_assoc, ← max_assoc,
        max_eq_left seq]
    rw [Mvcc.runBatch, recoverOne_data storable data, revision, sequence, rewrites_cons]
    simp only
    rw [ih batch.tail (rev.trans (le_max_left _ _)) (seq.trans (le_max_left _ _))]
    simp only [append_assoc]

/-- Recovering `e` sets or deletes the Pebble key. -/
def Touches (db : Pebble) (vs : List Version) (e : Entry) (k : Bytes) : Prop :=
  Clears db vs e k ∨ ∃ v ∈ entryVersions e, k = v.slot ∨ k = idxKey v.key

theorem Version.rev_of_slot {v w : Version} (storable : v.Storable) (storable' : w.Storable)
    (same : v.slot = w.slot) : v.rev = w.rev ∧ v.sub = w.sub :=
  slotKey_injective storable.int64 storable'.int64 storable.sub storable'.sub same

theorem sub_of_single (isSingle : e.op ≠ Op.txn) (mem : v ∈ entryVersions e) : v.sub = none := by
  unfold entryVersions at mem
  rw [if_neg isSingle] at mem
  split at mem
  · cases mem
  · rw [mem_singleton.mp mem]

/-- A slot is touched by entries of its revision only, and the slot of an operation of a
transaction by transactions only. -/
theorem rev_of_touches (log : Logged vs) (storable : Storable e) (isVersion : v.Storable)
    (touches : Touches db vs e v.slot) : v.rev = e.revision ∧ (e.op = Op.txn ∨ v.sub = none) := by
  rcases touches with (⟨key, same, -⟩ | ⟨isTxn, w, mem, -, sameRev, same⟩) | ⟨w, mem, written⟩
  · exact absurd same (v.slot_ne_idxKey key)
  · exact ⟨(Version.rev_of_slot isVersion (log.storable w mem) same).1.trans sameRev, Or.inl isTxn⟩
  · rcases written with same | same
    · obtain ⟨sameRev, sameSub⟩ := Version.rev_of_slot isVersion (storable.versions w mem) same
      refine ⟨sameRev.trans (rev_of_mem_entryVersions mem).1, ?_⟩
      by_cases isTxn : e.op = Op.txn
      · exact Or.inl isTxn
      · exact Or.inr (sameSub.trans (sub_of_single isTxn mem))
    · exact absurd same (v.slot_ne_idxKey w.key)

theorem touches_idxKey :
    Touches db vs e (idxKey k) ↔ Unlinks db vs e k ∨ ∃ v ∈ entryVersions e, v.key = k := by
  constructor
  · intro touches
    rcases touches with (⟨key, same, unlinks⟩ | ⟨-, w, -, -, -, same⟩) | ⟨w, mem, same | same⟩
    · exact Or.inl (idxKey_injective same ▸ unlinks)
    · exact absurd same.symm (w.slot_ne_idxKey k)
    · exact absurd same.symm (w.slot_ne_idxKey k)
    · exact Or.inr ⟨w, mem, (idxKey_injective same).symm⟩
  · intro touches
    rcases touches with unlinks | ⟨v, mem, rfl⟩
    · exact Or.inl (Or.inl ⟨k, rfl, unlinks⟩)
    · exact Or.inr ⟨v, mem, Or.inr rfl⟩

theorem get_entry_untouched (sound : Sound db vs) (log : Logged vs) (storable : Storable e)
    (data : e.op ≠ Op.compact) (untouched : ¬ Touches db vs e k) (other : Pebble) :
    (other.commit (cleanup db e ++ Entry.writes e)).get k = other.get k := by
  obtain ⟨pos, fits⟩ := storable.revision data
  obtain ⟨gone, deletes, cleared⟩ := sound.cleanup_eq log pos fits
  obtain ⟨kept, unwritten⟩ := not_or.mp untouched
  have apart : ∀ v ∈ entryVersions e, k ≠ v.slot ∧ k ≠ idxKey v.key :=
    fun v mem => not_or.mp (fun written => unwritten ⟨v, mem, written⟩)
  rw [commit_append, deletes, Entry.writes, get_writes_of_ne _ apart, get_commit_deletes,
    if_neg (fun isGone => kept ((cleared k).mp isGone))]

theorem get_entry_cleared (sound : Sound db vs) (log : Logged vs) (storable : Storable e)
    (data : e.op ≠ Op.compact) (clears : Clears db vs e k)
    (apart : ∀ v ∈ entryVersions e, k ≠ v.slot ∧ k ≠ idxKey v.key) (other : Pebble) :
    (other.commit (cleanup db e ++ Entry.writes e)).get k = none := by
  obtain ⟨pos, fits⟩ := storable.revision data
  obtain ⟨gone, deletes, cleared⟩ := sound.cleanup_eq log pos fits
  rw [commit_append, deletes, Entry.writes, get_writes_of_ne _ apart, get_commit_deletes,
    if_pos ((cleared k).mpr clears)]

theorem exists_last_of_mem {α : Type*} {p : α → Prop} {l : List α} (found : ∃ a ∈ l, p a) :
    ∃ front a rest, l = front ++ a :: rest ∧ p a ∧ ∀ b ∈ rest, ¬ p b := by
  induction l with
  | nil =>
    obtain ⟨a, mem, -⟩ := found
    cases mem
  | cons head tail ih =>
    by_cases later : ∃ a ∈ tail, p a
    · obtain ⟨front, a, rest, split, holds, last⟩ := ih later
      exact ⟨head :: front, a, rest, by rw [split, cons_append], holds, last⟩
    · obtain ⟨a, mem, holds⟩ := found
      rcases mem_cons.mp mem with rfl | mem
      · exact ⟨[], a, tail, rfl, holds, fun b mem holds => later ⟨b, mem, holds⟩⟩
      · exact absurd ⟨a, mem, holds⟩ later

variable {es front rest : List Entry}

theorem DataBatch.get_untouched (batch : DataBatch es) (sound : Sound db vs) (log : Logged vs)
    (untouched : ∀ e ∈ es, ¬ Touches db vs e k) (other : Pebble) :
    (other.commit (rewrites db es)).get k = other.get k := by
  induction es generalizing other with
  | nil => rfl
  | cons e tail ih =>
    rw [rewrites_cons, commit_append,
      ih batch.tail (fun x mem => untouched x (mem_cons_of_mem e mem)),
      get_entry_untouched sound log (batch.storable e (by simp)) (batch.data e (by simp))
        (untouched e (by simp))]

theorem DataBatch.get_last (batch : DataBatch (front ++ e :: rest)) (sound : Sound db vs)
    (log : Logged vs) (untouched : ∀ x ∈ rest, ¬ Touches db vs x k) (other : Pebble) :
    (other.commit (rewrites db (front ++ e :: rest))).get k =
      ((other.commit (rewrites db front)).commit (cleanup db e ++ Entry.writes e)).get k := by
  have later : DataBatch rest :=
    ⟨fun x mem => batch.storable x (by simp [mem]), fun x mem => batch.data x (by simp [mem])⟩
  rw [rewrites_append, rewrites_cons, commit_append, commit_append,
    later.get_untouched sound log untouched]

theorem get_entry_slot (storable : Storable e) (mem : v ∈ entryVersions e) (other : Pebble) :
    (other.commit (cleanup db e ++ Entry.writes e)).get v.slot = some (marshalRecord v.record) := by
  rw [commit_append]
  exact get_writes_slot _ storable.before mem

theorem get_entry_idx (storable : Storable e) (mem : v ∈ entryVersions e) (other : Pebble) :
    (other.commit (cleanup db e ++ Entry.writes e)).get (idxKey v.key) =
      v.live.map (fun v => encodeRev v.rev) := by
  rw [commit_append]
  exact get_writes_idx _ storable.distinct mem

end Clean

/-! ## Recovering a batch of data entries -/

theorem get_metaWrites (db : Pebble) (b : Batch) {k : Bytes} (notRev : k ≠ metaCurrentRevKey)
    (notSeq : k ≠ metaLastSeqKey) : (db.commit (metaWrites b)).get k = db.get k := by
  rw [metaWrites, commit_append]
  split <;> split <;>
    simp only [commit_nil, commit_cons, write_set, get_insert, if_neg notRev, if_neg notSeq]

/-- `s'` is `s` after a batch of data entries was recovered. Apart from the metadata,
Pebble is what the operations of the batch leave. -/
structure Recovered (s : Store) (es : List Entry) (s' : Store) : Prop where
  pebble : ∀ k, k ∉ metaKeys → s'.db.get k = (s.db.commit (rewrites s.db es)).get k
  currentRev : s'.currentRev = max s.currentRev (revisionOf es)
  compactRev : s'.compactRev = s.compactRev

theorem DataBatch.recover {es : List Entry} (batch : DataBatch es) (nonempty : es ≠ [])
    (s : Store) :
    ∃ s', s.recover es = (s', none) ∧ Recovered s es s' := by
  unfold Store.recover
  rw [if_neg nonempty, batch.runBatch le_rfl le_rfl]
  refine ⟨_, rfl, ?_, ?_, rfl⟩
  · intro k notMeta
    have notRev : k ≠ metaCurrentRevKey := fun same => notMeta (same ▸ by decide)
    have notSeq : k ≠ metaLastSeqKey := fun same => notMeta (same ▸ by decide)
    rw [commitBatch, commit_append, get_metaWrites _ _ notRev notSeq, nil_append]
  · simp only [commitBatch, max_eq_right (revisionOf_nonneg es)]

/-! Two Pebbles that differ in metadata only. -/

section Congr

variable {db db' : Pebble} {vs : List Version} (same : ∀ k, k ∉ metaKeys → db'.get k = db.get k)

include same

theorem Sound.congr (sound : Sound db vs) : Sound db' vs := by
  intro k value held
  by_cases isMeta : k ∈ metaKeys
  · exact Or.inr (Or.inr isMeta)
  · exact sound k value (same k isMeta ▸ held)

theorem get_slot_congr (v : Version) : db'.get v.slot = db.get v.slot :=
  same _ v.slot_not_mem_metaKeys

theorem get_idxKey_congr (k : Bytes) : db'.get (idxKey k) = db.get (idxKey k) :=
  same _ (idxKey_not_mem_metaKeys k)

theorem Indexed.congr {heads : Bytes → Option Version} (indexed : Indexed db vs heads) :
    Indexed db' vs heads := by
  refine ⟨indexed.sound.congr same, ?_, ?_⟩
  · intro k
    rw [get_idxKey_congr same, indexed.index]
  · intro k v head
    rw [get_slot_congr same]
    exact indexed.head k v head

theorem visible_congr (t : Int) : visible db' vs t = visible db vs t := by
  unfold visible
  apply filter_congr
  intro v _
  rw [get_slot_congr same]

end Congr

theorem Store.get_of_no_pointer {s : Store} {k : Bytes} (none : s.db.get (idxKey k) = none) :
    s.get k = .ok .none := by
  unfold Store.get getIdxRev
  rw [none]
  rfl

end T4.Mvcc
