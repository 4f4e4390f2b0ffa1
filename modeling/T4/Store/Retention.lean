import T4.Store.Reads

/-!
# What a batch does to the log it finds

`Represents` says which versions the log may lack after a batch. A reader that is
in the middle of the log needs the other side: which of the versions it could
already see a batch can take away. A batch never writes a slot of an earlier
version again, and deletes one only below the target of a compaction in the batch
itself (`Store.Represents.apply_slot`).

The second half is about the version that precedes another one: in a history of
the write path an operation names it by its revision (`Chained.prevRevision`), and
a lookup under that name finds it or nothing (`Represents.getLogEntry_toOption`).
-/

namespace T4.Mvcc

open Lib Bytes SortedMap Wal List

/-! ## Slots of earlier versions -/

/-- The writes `ops`, made while applying `es`, set no slot of the versions `vs`,
and delete one only below the target of a compaction. -/
structure Spares (vs : List Version) (es : List Entry) (ops : List (Write Bytes Bytes)) :
    Prop where
  noSet : ∀ v ∈ vs, ∀ value, Write.set v.slot value ∉ ops
  deletes : ∀ v ∈ vs, Write.delete v.slot ∈ ops →
    ∃ e ∈ es, e.op = Op.compact ∧ v.rev < e.prevRevision

section Batch

variable {db : Pebble} {h es : List Entry} {b b' : Batch} {e : Entry} {W : Int}

theorem Spares.append {vs : List Version} {first second : List (Write Bytes Bytes)}
    (left : Spares vs es first) (right : Spares vs es second) :
    Spares vs es (first ++ second) := by
  constructor
  · intro v mem value set
    rcases mem_append.mp set with early | late
    · exact left.noSet v mem value early
    · exact right.noSet v mem value late
  · intro v mem deleted
    rcases mem_append.mp deleted with early | late
    · exact left.deletes v mem early
    · exact right.deletes v mem late

theorem Spares.of_meta {vs : List Version} {ops : List (Write Bytes Bytes)}
    (isMeta : ∀ w ∈ ops, ∃ k ∈ metaKeys, ∃ value, w = Write.set k value) : Spares vs es ops := by
  constructor
  · intro v _ value set
    obtain ⟨k, inMeta, stored, same⟩ := isMeta _ set
    cases same
    exact v.slot_not_mem_metaKeys inMeta
  · intro v _ deleted
    obtain ⟨k, -, stored, same⟩ := isMeta _ deleted
    cases same

theorem Spares.of_writes {vs new : List Version}
    (apart : ∀ v ∈ vs, ∀ w ∈ new, v.slot ≠ w.slot) :
    Spares vs es (new.flatMap Version.writes) := by
  constructor
  · intro v mem value set
    obtain ⟨w, inNew, written⟩ := mem_flatMap.mp set
    rw [Version.writes, applyRecord] at written
    rcases mem_cons.mp written with slot | index
    · exact apart v mem w inNew (Write.set.inj slot).1
    · rw [mem_singleton] at index
      split at index
      · cases index
      · exact v.slot_ne_idxKey w.record.key (Write.set.inj index).1
  · intro v mem deleted
    obtain ⟨w, inNew, written⟩ := mem_flatMap.mp deleted
    rw [Version.writes, applyRecord] at written
    rcases mem_cons.mp written with slot | index
    · cases slot
    · rw [mem_singleton] at index
      split at index
      · exact absurd (Write.delete.inj index) (v.slot_ne_idxKey w.record.key)
      · cases index

theorem applyOne_spares (rep : Represents db (versions h) W) (wf : WellFormed (h ++ es))
    (mem : e ∈ es) (spares : Spares (versions h) es b.ops) (applied : applyOne db b e = .ok b') :
    Spares (versions h) es b'.ops := by
  have wfH : WellFormed h := wf.sublist (sublist_append_left _ _)
  have storable : Storable e := wf.storable e (mem_append_right h mem)
  by_cases isCompact : e.op = Op.compact
  · obtain ⟨dels, scan, superseded⟩ := Sound.compactScan rep.sound wfH.logged
      (storable.target isCompact)
      (logged db (versions h) b.compactRev e.prevRevision) (fun v found => (mem_logged.mp found).1)
    unfold applyOne applyCompact at applied
    rw [if_pos isCompact, rep.range_log wfH.logged, scan] at applied
    cases applied
    have watermark : Spares (versions h) es
        [Write.set metaCompactKey (encodeRev e.prevRevision)] := by
      apply Spares.of_meta
      intro w single
      rw [mem_singleton.mp single]
      exact ⟨metaCompactKey, by decide, _, rfl⟩
    have deletes : Spares (versions h) es ((dels.map Version.slot).map .delete) := by
      constructor
      · intro v _ value set
        simp at set
      · intro v inH deleted
        obtain ⟨k, slotOf, same⟩ := mem_map.mp deleted
        obtain ⟨d, inDels, rfl⟩ := mem_map.mp slotOf
        obtain ⟨dInH, later, -, -, newer, covered⟩ := superseded d inDels
        have sameVersion := wfH.logged.slot_injective dInH inH (Write.delete.inj same)
        subst sameVersion
        exact ⟨e, mem, isCompact, by omega⟩
    exact spares.append (watermark.append deletes)
  · unfold applyOne at applied
    rw [if_neg isCompact, applyEntry_eq storable isCompact] at applied
    cases applied
    apply spares.append (Spares.of_writes _)
    intro v inH w inEntry
    have before := wf.before
    rw [versions_append] at before
    have inEs : w ∈ versions es := mem_flatMap.mpr ⟨e, mem, inEntry⟩
    exact ((pairwise_append.mp before).2.2 v inH w inEs).slot.ne

theorem runBatch_spares (rep : Represents db (versions h) W) (wf : WellFormed (h ++ es))
    {rest : List Entry} (within : ∀ e ∈ rest, e ∈ es) (spares : Spares (versions h) es b.ops)
    (ran : runBatch (applyOne db) b rest = (b', none)) : Spares (versions h) es b'.ops := by
  induction rest generalizing b with
  | nil =>
    cases ran
    exact spares
  | cons e rest ih =>
    rw [runBatch] at ran
    split at ran
    · cases ran
    · rename_i stepped applied
      have next := applyOne_spares rep wf (within e (by simp)) spares applied
      exact ih (fun e later => within e (mem_cons_of_mem _ later)) next ran

theorem metaWrites_spares (vs : List Version) (es : List Entry) (b : Batch) :
    Spares vs es (metaWrites b) := by
  apply Spares.of_meta
  intro w mem
  unfold metaWrites at mem
  rcases mem_append.mp mem with rev | seq
  · split at rev
    · rw [mem_singleton.mp rev]
      exact ⟨metaCurrentRevKey, by decide, _, rfl⟩
    · cases rev
  · split at seq
    · rw [mem_singleton.mp seq]
      exact ⟨metaLastSeqKey, by decide, _, rfl⟩
    · cases seq

/-- **What `Apply` does to an earlier version**: nothing, or it deletes its record
because of a compaction of the batch that covers it. -/
theorem Store.Represents.apply_slot {s s' : Store} (rep : s.Represents h)
    (wf : WellFormed (h ++ es)) (applied : s.apply es = (s', none)) {v : Version}
    (mem : v ∈ versions h) :
    s'.db.get v.slot = s.db.get v.slot ∨
      s'.db.get v.slot = none ∧ ∃ e ∈ es, e.op = Op.compact ∧ v.rev < e.prevRevision := by
  unfold Store.apply at applied
  split at applied
  · cases applied
    exact Or.inl rfl
  · generalize run : runBatch (applyOne s.db) { compactRev := s.compactRev } es = result at applied
    obtain ⟨b, err⟩ := result
    cases err with
    | some err => cases applied
    | none =>
      cases applied
      have spares := runBatch_spares rep.pebble wf (fun _ found => found) ⟨by simp, by simp⟩ run
      have all := spares.append (metaWrites_spares (versions h) es b)
      rcases get_commit_of_no_set s.db (all.noSet v mem) with same | gone
      · exact Or.inl same
      · exact Or.inr ⟨gone.1, all.deletes v mem gone.2⟩

end Batch

/-! ## The version before -/

/-- The live version of the key just before the revision of `v`. -/
def before (vs : List Version) (v : Version) : Option Version :=
  headVersion (vs.filter (fun u => u.rev < v.rev)) v.key

theorem before_append {vs new : List Version} {v : Version} (newer : ∀ u ∈ new, v.rev ≤ u.rev) :
    before (vs ++ new) v = before vs v := by
  have none : new.filter (fun u => u.rev < v.rev) = [] := by
    rw [filter_eq_nil_iff]
    intro u mem
    have := newer u mem
    simpa using this
  rw [before, filter_append, none, append_nil, before]

theorem mem_of_before {vs : List Version} {u v : Version} (isBefore : before vs v = some u) :
    u ∈ vs ∧ u.key = v.key ∧ u.rev < v.rev := by
  obtain ⟨mem, sameKey, -⟩ := headVersion_eq_some isBefore
  obtain ⟨inVs, older⟩ := mem_filter.mp mem
  exact ⟨inVs, sameKey, by simpa using older⟩

theorem WellFormed.revisionOf_lt_rev {h es : List Entry} (wf : WellFormed (h ++ es)) {u : Version}
    (mem : u ∈ versions es) : revisionOf h < u.rev := by
  obtain ⟨e, inEs, inEntry⟩ := mem_flatMap.mp mem
  obtain ⟨sameRev, data⟩ := rev_of_mem_entryVersions inEntry
  have pos := ((wf.storable e (mem_append_right h inEs)).revision data).1
  rcases (revisionOf_nonneg h).eq_or_lt with zero | old
  · omega
  · obtain ⟨last, inH, lastData, same⟩ := exists_revisionOf old
    have := (pairwise_append.mp wf.increasing).2.2 last inH e inEs lastData data
    omega

theorem before_history_append {h es : List Entry} (wf : WellFormed (h ++ es)) {v : Version}
    (mem : v ∈ versions h) : before (versions (h ++ es)) v = before (versions h) v := by
  rw [versions_append]
  apply before_append
  intro u inEs
  have := wf.revisionOf_lt_rev inEs
  have := rev_le_revisionOf mem
  omega

/-- **An operation names the version before it by its revision.** -/
theorem Chained.prevRevision {h : List Entry} (chained : Chained h) {v : Version}
    (mem : v ∈ versions h) :
    v.change.prevRevision = ((before (versions h) v).map Version.rev).getD 0 := by
  have wf := chained.wellFormed
  induction chained with
  | nil => cases mem
  | @snoc h e front follows ih =>
    rw [versions_append, versions_singleton] at mem
    rcases mem_append.mp mem with old | new
    · rw [before_history_append wf old]
      exact ih old (wf.sublist (sublist_append_left _ _))
    · obtain ⟨sameRev, data⟩ := rev_of_mem_entryVersions new
      obtain ⟨ops, carries, typed, chain⟩ := follows.typed data front.live
      have inOps : v.change ∈ ops := by
        rw [← (carries.versions data typed).1]
        exact mem_map.mpr ⟨v, new, rfl⟩
      have continues := (chain v.change inOps).2
      have whole : (versions h).filter (fun u => u.rev < v.rev) = versions h := by
        rw [filter_eq_self]
        intro u inH
        have := rev_le_revisionOf inH
        have := (follows.revision data).1
        simpa using (by omega : u.rev < v.rev)
      have isBefore : before (versions (h ++ [e])) v = headVersion (versions h) v.key := by
        rw [versions_append, versions_singleton, before_append, before, whole]
        intro u inEntry
        rw [sameRev, (rev_of_mem_entryVersions inEntry).1]
      have value := headVersion_map_kv (fun u => rev_le_revisionOf (h := h) (v := u)) v.key
      have shown : headValue h v.change.key = (headVersion (versions h) v.key).map Version.kv :=
        value.symm
      rw [isBefore]
      rw [shown] at continues
      cases head : headVersion (versions h) v.key with
      | none =>
        rw [head] at continues
        exact continues.2.2.1
      | some u =>
        rw [head] at continues
        exact continues.2.2

section Lookup

variable {db : Pebble} {vs : List Version} {W : Int}

theorem Represents.getLogEntry_absent (rep : Represents db vs W) (log : Logged vs) {v : Version}
    (mem : v ∈ vs) (absent : db.get v.slot = none) :
    (Mvcc.getLogEntry db v.key v.rev).toOption = none := by
  have storable := log.storable v mem
  have noKey : db.get (logKey v.rev) = none := by
    by_cases inTxn : v.sub = none
    · have slot : v.slot = logKey v.rev := by
        rw [Version.slot, inTxn, slotKey]
      rw [← slot, absent]
    · exact Sound.get_logKey_of_sub rep.sound log mem inTxn
  have range := Sound.range_slots rep.sound log (fun key => idxKey_lt_logKeyWithSub key v.rev 0)
    (fun k isMeta => logKey_lt_metaKey isMeta (v.rev + 1))
  have missed : findSubOp v.key v.rev
      (db.range (logKeyWithSub v.rev 0) (logKey (v.rev + 1))) = none := by
    rw [range, findSubOp_bindings _ (fun w found => log.storable w (mem_filter.mp found).1),
      Option.map_eq_none_iff, find?_eq_none]
    intro w found sameKey
    rw [mem_filter, decide_eq_true_iff] at found
    obtain ⟨inVs, present, between⟩ := found
    have storableW := log.storable w inVs
    have sameRev := ((mem_subRange storable.pos.le storable.fits storableW.pos.le storableW.fits
      w.sub).mp between).1
    rw [log.eq_of_key_rev inVs mem (by simpa using sameKey) sameRev, absent] at present
    cases present
  unfold Mvcc.getLogEntry
  rw [noKey]
  simp only [missed]
  rfl

theorem Represents.getLogEntry_toOption (rep : Represents db vs W) (log : Logged vs) {v : Version}
    (mem : v ∈ vs) :
    (Mvcc.getLogEntry db v.key v.rev).toOption =
      if (db.get v.slot).isSome then some v.kv else none := by
  split
  · rename_i present
    rw [Sound.getLogEntry rep.sound log mem present]
    rfl
  · rename_i absent
    exact rep.getLogEntry_absent log mem (by simpa using absent)

end Lookup

end T4.Mvcc
