import T4.Store.History

/-!
# Pebble represents a history

`Represents db vs W` ties the bytes in Pebble to the versions `vs` of a history:
the index holds exactly the live versions, the log holds only versions of the
history, and it lacks none but those that a later version of the same key at or
below the watermark `W` supersedes.

Nothing in it depends on how the history was cut into batches. Applying or
recovering a batch keeps it (`Store.Represents.apply`, `Store.Represents.recover`),
although a compaction inside a batch sees only what was committed before.

Replay can write versions again, in another order. What it leaves is `Stored`: the same
of the log, and an index of its own (`heads`).
-/

namespace T4.Mvcc

open Lib Bytes SortedMap Wal List

def Version.binding (v : Version) : Bytes × Bytes := (v.slot, marshalRecord v.record)

/-- The version of `k` that the index points to: the last one, unless it deleted
the key. -/
def headVersion (vs : List Version) (k : Bytes) : Option Version :=
  (vs.reverse.find? (fun v => v.key = k)).filter (fun v => v.change.op ≠ Op.delete)

/-- `Pebble` holds the versions `vs`, compacted up to `W` at most. -/
structure Represents (db : Pebble) (vs : List Version) (W : Int) : Prop where
  sound : ∀ k value, db.get k = some value →
    (∃ v ∈ vs, (k, value) = v.binding) ∨ (∃ key, k = idxKey key) ∨ k ∈ metaKeys
  complete : ∀ v ∈ vs,
    (∀ later ∈ vs, later.key = v.key → v.rev < later.rev → W < later.rev) →
      db.get v.slot = some (marshalRecord v.record)
  index : ∀ k, db.get (idxKey k) = (headVersion vs k).map (fun v => encodeRev v.rev)

/-- The log holds only versions in `vs`. -/
def Sound (db : Pebble) (vs : List Version) : Prop :=
  ∀ k value, db.get k = some value →
    (∃ v ∈ vs, (k, value) = v.binding) ∨ (∃ key, k = idxKey key) ∨ k ∈ metaKeys

variable {vs : List Version} {db : Pebble} {v : Version} {k : Bytes}

theorem Sound.subset {vs' : List Version} (sound : Sound db vs) (sub : ∀ v ∈ vs, v ∈ vs') :
    Sound db vs' := by
  intro k value held
  rcases sound k value held with ⟨v, mem, bound⟩ | other
  · exact Or.inl ⟨v, sub v mem, bound⟩
  · exact Or.inr other

/-- The log holds the versions `vs`, compacted up to `W` at most, and the index points
to `heads`. -/
structure Stored (db : Pebble) (vs : List Version) (heads : Bytes → Option Version) (W : Int) :
    Prop where
  sound : Sound db vs
  complete : ∀ v ∈ vs,
    (∀ later ∈ vs, later.key = v.key → v.rev < later.rev → W < later.rev) →
      db.get v.slot = some (marshalRecord v.record)
  index : ∀ k, db.get (idxKey k) = (heads k).map (fun v => encodeRev v.rev)

theorem represents_iff {W : Int} : Represents db vs W ↔ Stored db vs (headVersion vs) W :=
  ⟨fun rep => ⟨rep.sound, rep.complete, rep.index⟩,
    fun stored => ⟨stored.sound, stored.complete, stored.index⟩⟩

/-- What the index holds for the key of a version once it is written. -/
def Version.live (v : Version) : Option Version := if v.change.op = Op.delete then none else some v

/-- The index after one more version. -/
def note (heads : Bytes → Option Version) (v : Version) : Bytes → Option Version :=
  Function.update heads v.key v.live

/-- The versions of a well-formed history. -/
structure Logged (vs : List Version) : Prop where
  storable : ∀ v ∈ vs, v.Storable
  before : vs.Pairwise Version.Before

theorem WellFormed.logged {h : List Entry} (wf : WellFormed h) : Logged (versions h) :=
  ⟨fun _ mem => wf.version_storable mem, wf.before⟩

theorem Version.Storable.int64 (storable : v.Storable) : IsInt64 v.rev := by
  have pos := storable.pos
  have fits := storable.fits
  constructor <;> omega

theorem Version.Storable.uint64 (storable : v.Storable) : (Bytes.uint64 v.rev : Int) = v.rev :=
  uint64_of_rev storable.pos storable.fits.le

theorem Logged.slot_injective (logged : Logged vs) {w : Version} (memV : v ∈ vs) (memW : w ∈ vs)
    (same : v.slot = w.slot) : v = w := by
  by_contra differ
  have apart := Pairwise.forall_of_forall_of_flip
    (R := fun v w : Version => v ≠ w → v.slot ≠ w.slot) (l := vs) (by simp)
    (logged.before.imp (fun before _ => before.slot.ne))
    (logged.before.imp (fun before _ => before.slot.ne')) memV memW
  exact apart differ same

/-- Entries of one well-formed history, in any order and with repetitions. -/
def Coherent (g : List Entry) : Prop := ∃ h, WellFormed h ∧ ∀ e ∈ g, e ∈ h

theorem WellFormed.coherent {h : List Entry} (wf : WellFormed h) : Coherent h :=
  ⟨h, wf, fun _ => id⟩

namespace Coherent

variable {g g' : List Entry}

theorem subset (coherent : Coherent g') (sub : ∀ e ∈ g, e ∈ g') : Coherent g := by
  obtain ⟨h, wf, within⟩ := coherent
  exact ⟨h, wf, fun e mem => within e (sub e mem)⟩

theorem sublist (coherent : Coherent g') (sub : g.Sublist g') : Coherent g :=
  coherent.subset (fun _ mem => sub.subset mem)

theorem storable (coherent : Coherent g) {e : Entry} (mem : e ∈ g) : Storable e := by
  obtain ⟨h, wf, within⟩ := coherent
  exact wf.storable e (within e mem)

theorem exists_logged (coherent : Coherent g) :
    ∃ vs, Logged vs ∧ ∀ v, v ∈ vs ↔ v ∈ versions g := by
  obtain ⟨h, wf, within⟩ := coherent
  refine ⟨versions (h.filter (fun e => e ∈ g)), (wf.sublist filter_sublist).logged, ?_⟩
  intro v
  simp only [versions, mem_flatMap, mem_filter, decide_eq_true_eq]
  constructor
  · rintro ⟨e, both, inEntry⟩
    exact ⟨e, both.2, inEntry⟩
  · rintro ⟨e, mem, inEntry⟩
    exact ⟨e, ⟨within e mem, mem⟩, inEntry⟩

theorem slot_injective (coherent : Coherent g) {v w : Version} (memV : v ∈ versions g)
    (memW : w ∈ versions g) (same : v.slot = w.slot) : v = w := by
  obtain ⟨vs, log, sameVersions⟩ := coherent.exists_logged
  exact log.slot_injective ((sameVersions v).mpr memV) ((sameVersions w).mpr memW) same

end Coherent

theorem Version.slot_ne_idxKey (v : Version) (key : Bytes) : v.slot ≠ idxKey key :=
  slotKey_ne_idxKey v.rev v.sub key

theorem Version.slot_not_mem_metaKeys (v : Version) : v.slot ∉ metaKeys :=
  slotKey_not_mem_metaKeys v.rev v.sub

theorem represents_empty (W : Int) : Represents SortedMap.empty [] W := by
  refine ⟨?_, ?_, ?_⟩
  · intro k value held
    simp at held
  · intro v mem
    cases mem
  · intro k
    simp [headVersion]

/-! ## Writes that keep the representation -/

section Keep

variable {db : Pebble} {vs : List Version} {W : Int}

theorem headVersion_snoc (vs : List Version) (v : Version) (k : Bytes) :
    headVersion (vs ++ [v]) k =
      if v.key = k then (if v.change.op = Op.delete then none else some v)
      else headVersion vs k := by
  unfold headVersion
  rw [reverse_append, reverse_singleton, singleton_append, find?_cons]
  by_cases same : v.key = k
  · by_cases deleted : v.change.op = Op.delete <;> simp [same, deleted]
  · simp [same]

theorem headVersion_note (vs : List Version) (v : Version) :
    headVersion (vs ++ [v]) = note (headVersion vs) v := by
  funext k
  rw [headVersion_snoc, note]
  by_cases same : v.key = k
  · subst same
    rw [if_pos rfl, Function.update_self]
    rfl
  · rw [if_neg same, Function.update_of_ne (fun other => same other.symm)]

def Version.writes (v : Version) : List (Write Bytes Bytes) := applyRecord v.rev v.slot v.record

theorem get_version_writes (db : Pebble) (v : Version) (k : Bytes) :
    (db.commit v.writes).get k =
      if k = idxKey v.key then v.live.map (fun v => encodeRev v.rev)
      else if k = v.slot then some (marshalRecord v.record) else db.get k := by
  have sameKey : v.record.key = v.key := rfl
  unfold Version.writes applyRecord Version.live
  rw [commit_cons, commit_cons, commit_nil, write_set, sameKey]
  by_cases deleted : v.change.op = Op.delete
  · have flag : v.record.delete = true := by simp [Version.record, txnRecord, deleted]
    rw [flag, if_pos rfl, if_pos deleted, write_delete, get_erase, get_insert]
    rfl
  · have flag : v.record.delete = false := by simp [Version.record, txnRecord, deleted]
    rw [flag, if_neg (by simp), if_neg deleted, write_set, get_insert, get_insert]
    rfl

variable {heads : Bytes → Option Version}

/-- Logging a version and updating the index; `vs'` has one version more, unless it was
logged before. -/
theorem Stored.write (stored : Stored db vs heads W) {v : Version} {vs' : List Version}
    (grown : ∀ w, w ∈ vs' ↔ w ∈ vs ∨ w = v) (apart : ∀ w ∈ vs, w.slot = v.slot → w = v) :
    Stored (db.commit v.writes) vs' (note heads v) W := by
  refine ⟨?_, ?_, ?_⟩
  · intro k value held
    rw [get_version_writes] at held
    split at held
    · rename_i isIdx
      exact Or.inr (Or.inl ⟨v.key, isIdx⟩)
    · split at held
      · rename_i isSlot
        cases held
        exact Or.inl ⟨v, (grown v).mpr (Or.inr rfl), by rw [isSlot, Version.binding]⟩
      · rcases stored.sound k value held with log | rest
        · obtain ⟨w, mem, bound⟩ := log
          exact Or.inl ⟨w, (grown w).mpr (Or.inl mem), bound⟩
        · exact Or.inr rest
  · intro w mem visible
    rw [get_version_writes, if_neg (w.slot_ne_idxKey v.key)]
    by_cases same : w.slot = v.slot
    · have equal : w = v := ((grown w).mp mem).elim (fun old => apart w old same) id
      rw [if_pos same, equal]
    · have old : w ∈ vs := ((grown w).mp mem).resolve_right (fun equal => same (equal ▸ rfl))
      rw [if_neg same]
      apply stored.complete w old
      intro later laterMem
      exact visible later ((grown later).mpr (Or.inl laterMem))
  · intro k
    rw [get_version_writes, note]
    by_cases same : k = v.key
    · subst same
      rw [if_pos rfl, Function.update_self]
    · rw [if_neg (fun equal => same (idxKey_injective equal)),
        if_neg (v.slot_ne_idxKey k).symm, Function.update_of_ne same]
      exact stored.index k

theorem Represents.write (rep : Represents db vs W) {v : Version}
    (apart : ∀ w ∈ vs, w.slot = v.slot → w = v) :
    Represents (db.commit v.writes) (vs ++ [v]) W := by
  rw [represents_iff, headVersion_note]
  exact (represents_iff.mp rep).write (by simp) apart

theorem Stored.setMeta (stored : Stored db vs heads W) {k : Bytes} (isMeta : k ∈ metaKeys)
    (value : Bytes) : Stored (db.insert k value) vs heads W := by
  refine ⟨?_, ?_, ?_⟩
  · intro other bound held
    rw [get_insert] at held
    split at held
    · rename_i same
      exact Or.inr (Or.inr (same ▸ isMeta))
    · exact stored.sound other bound held
  · intro v mem visible
    have apart : v.slot ≠ k := fun same => v.slot_not_mem_metaKeys (same ▸ isMeta)
    rw [get_insert, if_neg apart]
    exact stored.complete v mem visible
  · intro key
    have apart : idxKey key ≠ k := fun same => idxKey_not_mem_metaKeys key (same ▸ isMeta)
    rw [get_insert, if_neg apart]
    exact stored.index key

theorem Represents.setMeta (rep : Represents db vs W) {k : Bytes} (isMeta : k ∈ metaKeys)
    (value : Bytes) : Represents (db.insert k value) vs W :=
  represents_iff.mpr ((represents_iff.mp rep).setMeta isMeta value)

/-- Deleting superseded versions from the log, as long as the watermark covers the
versions that supersede them. -/
theorem Stored.deleteSuperseded (stored : Stored db vs heads W)
    (apart : ∀ v ∈ vs, ∀ w ∈ vs, v.slot = w.slot → v = w) {W' : Int} (raised : W ≤ W')
    {dels : List Version} (superseded : ∀ d ∈ dels, d ∈ vs ∧
      ∃ later ∈ vs, later.key = d.key ∧ d.rev < later.rev ∧ later.rev ≤ W') :
    Stored (db.commit ((dels.map Version.slot).map .delete)) vs heads W' := by
  refine ⟨?_, ?_, ?_⟩
  · intro k value held
    rw [get_commit_deletes] at held
    split at held
    · cases held
    · exact stored.sound k value held
  · intro v mem visible
    have kept : v.slot ∉ dels.map Version.slot := by
      intro deleted
      obtain ⟨d, isDel, sameSlot⟩ := mem_map.mp deleted
      obtain ⟨inLog, later, laterMem, laterKey, newer, covered⟩ := superseded d isDel
      have same := apart d inLog v mem sameSlot
      subst same
      have := visible later laterMem laterKey newer
      omega
    rw [get_commit_deletes, if_neg kept]
    apply stored.complete v mem
    intro later laterMem laterKey newer
    have := visible later laterMem laterKey newer
    omega
  · intro k
    have kept : idxKey k ∉ dels.map Version.slot := by
      intro deleted
      obtain ⟨d, -, same⟩ := mem_map.mp deleted
      exact d.slot_ne_idxKey k same
    rw [get_commit_deletes, if_neg kept]
    exact stored.index k

theorem Represents.deleteSuperseded (rep : Represents db vs W)
    (apart : ∀ v ∈ vs, ∀ w ∈ vs, v.slot = w.slot → v = w) {W' : Int} (raised : W ≤ W')
    {dels : List Version}
    (superseded : ∀ d ∈ dels, d ∈ vs ∧
      ∃ later ∈ vs, later.key = d.key ∧ d.rev < later.rev ∧ later.rev ≤ W') :
    Represents (db.commit ((dels.map Version.slot).map .delete)) vs W' :=
  represents_iff.mpr ((represents_iff.mp rep).deleteSuperseded apart raised superseded)

end Keep

/-! ## What the iterators meet -/

section Scan

variable {db : Pebble} {vs : List Version} {W : Int}

/-- The versions still in the log with a revision in the (unsigned) range. -/
def logged (db : Pebble) (vs : List Version) (lo hi : Int) : List Version :=
  vs.filter (fun v => (db.get v.slot).isSome ∧ uint64 lo ≤ uint64 v.rev ∧ uint64 v.rev < uint64 hi)

variable {v : Version}

theorem mem_logged {lo hi : Int} :
    v ∈ logged db vs lo hi ↔
      v ∈ vs ∧ (db.get v.slot).isSome ∧ uint64 lo ≤ uint64 v.rev ∧ uint64 v.rev < uint64 hi := by
  simp [logged]

theorem Sound.get_slot (sound : Sound db vs) (logged : Logged vs) (mem : v ∈ vs)
    (present : (db.get v.slot).isSome) : db.get v.slot = some (marshalRecord v.record) := by
  obtain ⟨value, held⟩ := Option.isSome_iff_exists.mp present
  rcases sound v.slot value held with log | idx | isMeta
  · obtain ⟨w, memW, bound⟩ := log
    obtain ⟨sameSlot, sameValue⟩ := Prod.mk.inj bound
    rw [held, sameValue, logged.slot_injective mem memW sameSlot]
  · obtain ⟨key, same⟩ := idx
    exact absurd same (v.slot_ne_idxKey key)
  · exact absurd isMeta v.slot_not_mem_metaKeys

/-- A scan between two bounds that keep away from the index and the metadata meets,
in order, the versions between them that are still there. -/
theorem Sound.range_slots (sound : Sound db vs) (log : Logged vs) {lo hi : Bytes}
    (aboveIdx : ∀ key, idxKey key < lo) (belowMeta : ∀ k ∈ metaKeys, hi < k) :
    db.range lo hi = (vs.filter (fun v =>
      (db.get v.slot).isSome ∧ lo ≤ v.slot ∧ v.slot < hi)).map Version.binding := by
  apply eq_of_sorted (range_sorted db _ _)
  · rw [pairwise_map]
    exact (log.before.filter _).imp Version.Before.slot
  intro k value
  rw [SortedMap.mem_range, mem_map]
  constructor
  · intro met
    obtain ⟨held, low, high⟩ := met
    rcases sound k value held with inLog | idx | isMeta
    · obtain ⟨v, mem, bound⟩ := inLog
      obtain ⟨rfl, -⟩ := Prod.mk.inj bound
      refine ⟨v, ?_, bound.symm⟩
      rw [mem_filter]
      simp [mem, held, low, high]
    · obtain ⟨key, rfl⟩ := idx
      exact absurd low (aboveIdx key).not_ge
    · exact absurd high (belowMeta k isMeta).not_gt
  · intro found
    obtain ⟨v, mem, bound⟩ := found
    obtain ⟨rfl, rfl⟩ := Prod.mk.inj bound
    rw [mem_filter, decide_eq_true_iff] at mem
    obtain ⟨inVs, present, low, high⟩ := mem
    exact ⟨sound.get_slot log inVs present, low, high⟩

/-- A log scan meets, in order, the versions of the range that are still there. -/
theorem Sound.range_log (sound : Sound db vs) (log : Logged vs) (lo hi : Int) :
    db.range (logKey lo) (logKey hi) = (logged db vs lo hi).map Version.binding := by
  rw [sound.range_slots log (fun key => idxKey_lt_logKey key lo)
    (fun k isMeta => logKey_lt_metaKey isMeta hi), logged]
  congr 1
  apply filter_congr
  intro v _
  apply decide_eq_decide.mpr
  rw [Version.slot, logKey_le_slotKey, slotKey_lt_logKey]

theorem Represents.range_log (rep : Represents db vs W) (log : Logged vs) (lo hi : Int) :
    db.range (logKey lo) (logKey hi) = (logged db vs lo hi).map Version.binding :=
  Sound.range_log rep.sound log lo hi

theorem Version.Storable.unmarshal (storable : v.Storable) :
    unmarshalRecord (marshalRecord v.record) = .ok v.record :=
  unmarshalRecord_marshalRecord storable.record

theorem Version.Storable.decodeLogKey (storable : v.Storable) : Mvcc.decodeLogKey v.slot = v.rev :=
  decodeLogKey_slotKey storable.int64 v.sub

theorem anyRecordOf_bindings {found : List Version} (storable : ∀ v ∈ found, v.Storable)
    (key : Bytes) :
    anyRecordOf key (found.map Version.binding) = .ok (found.any (fun v => v.key = key)) := by
  induction found with
  | nil => rfl
  | cons v rest ih =>
    have here := (storable v (by simp)).unmarshal
    have later := ih (fun w mem => storable w (mem_cons_of_mem v mem))
    have sameKey : v.record.key = v.key := rfl
    rw [map_cons, Version.binding, anyRecordOf, here]
    simp only [sameKey, later, any_cons]
    by_cases same : v.key = key <;> simp [same]

/-- The test of the compaction scan never fails, and what it finds is a later
version at or before the target. -/
theorem Sound.hasLater (sound : Sound db vs) (log : Logged vs) (storable : v.Storable)
    {target : Int} (range : IsInt64 target) :
    ∃ found, hasLaterRevisionAtOrBefore db v.key v.rev target = .ok found ∧
      (found = true → ∃ later ∈ vs, later.key = v.key ∧ v.rev < later.rev ∧
        later.rev ≤ target) := by
  unfold hasLaterRevisionAtOrBefore
  split
  · exact ⟨false, rfl, by simp⟩
  · rename_i newer
    have pos := storable.pos
    have low := uint64_of_nonneg (x := v.rev + 1) (by omega) (by have := range.2; omega)
    have high := uint64_of_nonneg (x := target + 1) (by omega) (by have := range.2; omega)
    rw [sound.range_log log, anyRecordOf_bindings]
    · refine ⟨_, rfl, ?_⟩
      intro any
      obtain ⟨later, mem, sameKey⟩ := any_eq_true.mp any
      obtain ⟨inVs, -, atLeast, below⟩ := mem_logged.mp mem
      have word := (log.storable later inVs).uint64
      exact ⟨later, inVs, by simpa using sameKey, by omega, by omega⟩
    · intro later mem
      exact log.storable later (mem_logged.mp mem).1

theorem Sound.compactScan (sound : Sound db vs) (log : Logged vs) {target : Int}
    (range : IsInt64 target) (scanned : List Version) (within : ∀ v ∈ scanned, v ∈ vs) :
    ∃ dels : List Version,
      Mvcc.compactScan db target (scanned.map Version.binding) =
        .ok ((dels.map Version.slot).map .delete) ∧
      ∀ d ∈ dels, d ∈ vs ∧
        ∃ later ∈ vs, later.key = d.key ∧ d.rev < later.rev ∧ later.rev ≤ target := by
  induction scanned with
  | nil => exact ⟨[], rfl, by simp⟩
  | cons v rest ih =>
    have inVs := within v (by simp)
    have storable := log.storable v inVs
    obtain ⟨dels, scan, superseded⟩ := ih (fun w mem => within w (mem_cons_of_mem v mem))
    obtain ⟨found, tested, meaning⟩ := sound.hasLater log storable range
    have sameKey : v.record.key = v.key := rfl
    rw [map_cons, Version.binding, Mvcc.compactScan, storable.unmarshal]
    simp only [storable.decodeLogKey, sameKey, tested, scan]
    cases found with
    | false => exact ⟨dels, rfl, superseded⟩
    | true =>
      refine ⟨v :: dels, rfl, ?_⟩
      intro d mem
      rcases mem_cons.mp mem with rfl | later
      · exact ⟨inVs, meaning rfl⟩
      · exact superseded d later

theorem Represents.cleanup_eq_nil (rep : Represents db vs W) (log : Logged vs) {e : Entry}
    (pos : 0 < e.revision) (fits : e.revision < 2 ^ 63) (fresh : ∀ v ∈ vs, v.rev < e.revision) :
    cleanup db e = [] := by
  have word := uint64_of_rev pos fits.le
  have noSlot : db.get (logKey e.revision) = none := by
    cases held : db.get (logKey e.revision) with
    | none => rfl
    | some value =>
      rcases rep.sound _ _ held with inLog | idx | isMeta
      · obtain ⟨v, mem, bound⟩ := inLog
        have same : logKey e.revision = v.slot := (Prod.mk.inj bound).1
        have decoded := congrArg Mvcc.decodeLogKey same
        rw [(log.storable v mem).decodeLogKey] at decoded
        have self : Mvcc.decodeLogKey (logKey e.revision) = e.revision :=
          decodeLogKey_slotKey ⟨by omega, fits⟩ none
        have := fresh v mem
        omega
      · obtain ⟨key, same⟩ := idx
        exact absurd same (slotKey_ne_idxKey e.revision none key)
      · exact absurd isMeta (slotKey_not_mem_metaKeys e.revision none)
  unfold cleanup
  split
  · have empty : logged db vs e.revision (e.revision + 1) = [] := by
      apply eq_nil_iff_forall_not_mem.mpr
      intro v mem
      obtain ⟨inVs, -, atLeast, -⟩ := mem_logged.mp mem
      have own := (log.storable v inVs).uint64
      have := fresh v inVs
      omega
    rw [rep.range_log log, empty]
    rfl
  · rw [noSlot]

end Scan

/-! ## Batches -/

theorem applyTxnOps_eq (rev : Int) {i : Nat} {ops : List TxnSubOp}
    (few : i + ops.length ≤ 2 ^ 16) :
    applyTxnOps rev i ops = (txnVersions rev i ops).flatMap Version.writes := by
  induction ops generalizing i with
  | nil => rfl
  | cons op rest ih =>
    rw [length_cons] at few
    rw [applyTxnOps, txnVersions, flatMap_cons, ih (by omega),
      Nat.mod_eq_of_lt (by omega : i < 2 ^ 16)]
    rfl

theorem applyEntry_eq {e : Entry} (storable : Storable e) (data : e.op ≠ Op.compact) :
    applyEntry e = .ok ((entryVersions e).flatMap Version.writes) := by
  unfold applyEntry entryVersions
  rw [if_neg data]
  split
  · rename_i isTxn
    obtain ⟨ops, decoded, few, -⟩ := storable.payload isTxn
    rw [applyTxnEntry, decoded]
    simp only [applyTxnOps_eq e.revision (by omega : 0 + ops.length ≤ 2 ^ 16)]
  · rw [flatMap_singleton]
    rfl

theorem Represents.writes {new : List Version} {W : Int} (rep : Represents db vs W)
    (apart : ∀ v ∈ vs ++ new, ∀ w ∈ vs ++ new, v.slot = w.slot → v = w) :
    Represents (db.commit (new.flatMap Version.writes)) (vs ++ new) W := by
  induction new generalizing db vs with
  | nil => simpa using rep
  | cons v rest ih =>
    have split : vs ++ v :: rest = (vs ++ [v]) ++ rest := by simp
    have own : ∀ w ∈ vs, w.slot = v.slot → w = v :=
      fun w mem => apart w (by simp [mem]) v (by simp)
    rw [split] at apart ⊢
    rw [flatMap_cons, commit_append]
    exact ih (rep.write own) apart

theorem get_writes_of_ne (db : Pebble) {new : List Version}
    (apart : ∀ v ∈ new, k ≠ v.slot ∧ k ≠ idxKey v.key) :
    (db.commit (new.flatMap Version.writes)).get k = db.get k := by
  induction new generalizing db with
  | nil => rfl
  | cons v rest ih =>
    obtain ⟨notSlot, notIdx⟩ := apart v (by simp)
    rw [flatMap_cons, commit_append, ih _ (fun w mem => apart w (mem_cons_of_mem v mem)),
      get_version_writes, if_neg notIdx, if_neg notSlot]

theorem get_meta_writes (db : Pebble) (new : List Version) (isMeta : k ∈ metaKeys) :
    (db.commit (new.flatMap Version.writes)).get k = db.get k :=
  get_writes_of_ne db (fun v _ =>
    ⟨fun same => v.slot_not_mem_metaKeys (same ▸ isMeta),
      fun same => idxKey_not_mem_metaKeys _ (same ▸ isMeta)⟩)

theorem get_meta_deletes (db : Pebble) (dels : List Version) (isMeta : k ∈ metaKeys) :
    (db.commit ((dels.map Version.slot).map .delete)).get k = db.get k := by
  rw [get_commit_deletes, if_neg]
  intro deleted
  obtain ⟨d, -, same⟩ := mem_map.mp deleted
  exact d.slot_not_mem_metaKeys (same ▸ isMeta)

/-- What holds of a batch after the loop went through `es`: committed on top of
`db`, which represents `h`, it would represent `h ++ es`. -/
structure BatchInv (db : Pebble) (h es : List Entry) (b : Batch) : Prop where
  pebble : Represents (db.commit b.ops) (versions (h ++ es)) (watermarkOf (h ++ es))
  compactRev : b.compactRev = targetOf (h ++ es)
  maxRev : b.maxRev = revisionOf es
  maxSeq : b.maxSeq = sequenceOf es
  metaCompact : (((db.commit b.ops).get metaCompactKey).map decodeRev).getD 0 = targetOf (h ++ es)
  metaRev : (db.commit b.ops).get metaCurrentRevKey = db.get metaCurrentRevKey
  metaSeq : (db.commit b.ops).get metaLastSeqKey = db.get metaLastSeqKey

section Loop

variable {db : Pebble} {h es : List Entry} {b : Batch} {e : Entry}

theorem BatchInv.compact (inv : BatchInv db h es b)
    (committed : Represents db (versions h) (watermarkOf h)) (coherent : Coherent (h ++ es ++ [e]))
    (isCompact : e.op = Op.compact) :
    ∃ b', applyOne db b e = .ok b' ∧ BatchInv db h (es ++ [e]) b' := by
  have all : Coherent (h ++ es) := coherent.sublist (sublist_append_left _ _)
  have range : IsInt64 e.prevRevision := (coherent.storable (by simp)).target isCompact
  obtain ⟨vs, log, isVersion⟩ := (all.sublist (sublist_append_left h es)).exists_logged
  have sound : Sound db vs := Sound.subset committed.sound (fun v => (isVersion v).mpr)
  obtain ⟨dels, scan, superseded⟩ := sound.compactScan log range
    (logged db vs b.compactRev e.prevRevision) (fun v mem => (mem_logged.mp mem).1)
  have batch : applyOne db b e = .ok { b with
      compactRev := e.prevRevision
      ops := b.ops ++ .set metaCompactKey (encodeRev e.prevRevision) ::
        (dels.map Version.slot).map .delete
      maxSeq := max b.maxSeq e.sequence } := by
    unfold applyOne applyCompact
    rw [if_pos isCompact, sound.range_log log, scan]
  have sameVersions : versions (h ++ (es ++ [e])) = versions (h ++ es) := by
    rw [← append_assoc, versions_append _ [e], versions_singleton, entryVersions,
      if_pos isCompact, append_nil]
  have watermark : watermarkOf (h ++ (es ++ [e])) =
      max (watermarkOf (h ++ es)) e.prevRevision := by
    rw [← append_assoc, watermarkOf_snoc, if_pos isCompact]
  have target : targetOf (h ++ (es ++ [e])) = e.prevRevision := by
    rw [← append_assoc, targetOf_snoc, if_pos isCompact]
  have inAll : ∀ v ∈ vs, v ∈ versions (h ++ es) := by
    intro v mem
    rw [versions_append]
    exact mem_append_left _ ((isVersion v).mp mem)
  have other : ∀ k ∈ metaKeys, k ≠ metaCompactKey →
      (db.commit (b.ops ++ .set metaCompactKey (encodeRev e.prevRevision) ::
        (dels.map Version.slot).map .delete)).get k = (db.commit b.ops).get k := by
    intro k isMeta apart
    rw [commit_append, commit_cons, get_meta_deletes _ _ isMeta, write_set, get_insert,
      if_neg apart]
  refine ⟨_, batch, ?_, ?_, ?_, ?_, ?_, ?_, ?_⟩
  · rw [sameVersions, watermark, commit_append, commit_cons, write_set]
    apply (inv.pebble.setMeta (by decide) _).deleteSuperseded
      (fun v memV w memW => all.slot_injective memV memW) (le_max_left _ _)
    intro d mem
    obtain ⟨inH, later, laterMem, sameKey, newer, covered⟩ := superseded d mem
    exact ⟨inAll d inH, later, inAll later laterMem, sameKey, newer,
      covered.trans (le_max_right _ _)⟩
  · exact target.symm
  · rw [revisionOf_snoc, if_pos isCompact]
    exact inv.maxRev
  · rw [sequenceOf_snoc, ← inv.maxSeq]
  · rw [target, commit_append, commit_cons, get_meta_deletes _ _ (by decide), write_set,
      get_insert, if_pos rfl, Option.map_some, Option.getD_some, decodeRev_encodeRev range]
  · rw [other _ (by decide) (by decide)]
    exact inv.metaRev
  · rw [other _ (by decide) (by decide)]
    exact inv.metaSeq

theorem BatchInv.data (inv : BatchInv db h es b) (coherent : Coherent (h ++ es ++ [e]))
    (data : e.op ≠ Op.compact) :
    ∃ b', applyOne db b e = .ok b' ∧ BatchInv db h (es ++ [e]) b' := by
  have storable : Storable e := coherent.storable (by simp)
  have batch : applyOne db b e = .ok { b with
      ops := b.ops ++ (entryVersions e).flatMap Version.writes
      maxRev := max b.maxRev e.revision
      maxSeq := max b.maxSeq e.sequence } := by
    unfold applyOne
    rw [if_neg data, applyEntry_eq storable data]
  have newVersions : versions (h ++ (es ++ [e])) = versions (h ++ es) ++ entryVersions e := by
    rw [← append_assoc, versions_append _ [e], versions_singleton]
  have watermark : watermarkOf (h ++ (es ++ [e])) = watermarkOf (h ++ es) := by
    rw [← append_assoc, watermarkOf_snoc, if_neg data]
  have target : targetOf (h ++ (es ++ [e])) = targetOf (h ++ es) := by
    rw [← append_assoc, targetOf_snoc, if_neg data]
  have apart := fun v memV w memW => coherent.slot_injective (v := v) (w := w) memV memW
  rw [versions_append _ [e], versions_singleton] at apart
  refine ⟨_, batch, ?_, ?_, ?_, ?_, ?_, ?_, ?_⟩
  · rw [newVersions, watermark, commit_append]
    exact inv.pebble.writes apart
  · rw [target]
    exact inv.compactRev
  · rw [revisionOf_snoc, if_neg data, ← inv.maxRev]
  · rw [sequenceOf_snoc, ← inv.maxSeq]
  · rw [target, commit_append, get_meta_writes _ _ (by decide)]
    exact inv.metaCompact
  · rw [commit_append, get_meta_writes _ _ (by decide)]
    exact inv.metaRev
  · rw [commit_append, get_meta_writes _ _ (by decide)]
    exact inv.metaSeq

theorem BatchInv.applyOne (inv : BatchInv db h es b)
    (committed : Represents db (versions h) (watermarkOf h))
    (coherent : Coherent (h ++ es ++ [e])) :
    ∃ b', Mvcc.applyOne db b e = .ok b' ∧ BatchInv db h (es ++ [e]) b' := by
  by_cases isCompact : e.op = Op.compact
  · exact inv.compact committed coherent isCompact
  · exact inv.data coherent isCompact

/-- The loop body of `Recover` does what that of `Apply` does: the revision is new,
so there is nothing to clean up. -/
theorem recoverOne_eq_applyOne (committed : Represents db (versions h) (watermarkOf h))
    (wf : WellFormed (h ++ es ++ [e])) (b : Batch) :
    recoverOne db b e = Mvcc.applyOne db b e := by
  unfold recoverOne
  split
  · rfl
  · rename_i data
    have wfAll : WellFormed (h ++ es) := wf.sublist (sublist_append_left _ _)
    have wfH : WellFormed h := wfAll.sublist (sublist_append_left _ _)
    obtain ⟨pos, fits⟩ := (wf.storable e (by simp)).revision data
    have fresh : ∀ v ∈ versions h, v.rev < e.revision := by
      intro v mem
      obtain ⟨source, inHistory, inEntry⟩ := mem_flatMap.mp mem
      obtain ⟨sameRev, sourceData⟩ := rev_of_mem_entryVersions inEntry
      rw [sameRev]
      exact (wellFormed_snoc.mp wf).2.2 data source (mem_append_left _ inHistory) sourceData
    rw [committed.cleanup_eq_nil wfH.logged pos fits fresh, append_nil]

/-- A loop whose body keeps the invariant on good histories runs to its end on them. -/
theorem BatchInv.runBatch {good : List Entry → Prop}
    (sublist : ∀ {g g' : List Entry}, good g' → g.Sublist g' → good g)
    {body : Batch → Entry → Except StoreError Batch}
    (step : ∀ {es b e}, BatchInv db h es b → good (h ++ es ++ [e]) →
      ∃ b', body b e = .ok b' ∧ BatchInv db h (es ++ [e]) b')
    (inv : BatchInv db h es b) (rest : List Entry) (isGood : good (h ++ es ++ rest)) :
    ∃ b', Mvcc.runBatch body b rest = (b', none) ∧ BatchInv db h (es ++ rest) b' := by
  induction rest generalizing es b with
  | nil => exact ⟨b, rfl, by simpa using inv⟩
  | cons e rest ih =>
    have regroup : h ++ es ++ e :: rest = h ++ es ++ [e] ++ rest := by simp
    rw [regroup] at isGood
    obtain ⟨b', stepped, inv'⟩ := step inv (sublist isGood (sublist_append_left _ _))
    obtain ⟨b'', ran, final⟩ := ih inv' (by simpa using isGood)
    refine ⟨b'', ?_, by simpa using final⟩
    rw [Mvcc.runBatch, stepped]
    exact ran

theorem BatchInv.metaWrites (inv : BatchInv db h es b) :
    Represents (db.commit (b.ops ++ Mvcc.metaWrites b)) (versions (h ++ es))
      (watermarkOf (h ++ es)) := by
  have isRev : metaCurrentRevKey ∈ metaKeys := by decide
  have isSeq : metaLastSeqKey ∈ metaKeys := by decide
  rw [commit_append, Mvcc.metaWrites, commit_append]
  split <;> split <;> simp only [commit_nil, commit_cons, write_set]
  · exact (inv.pebble.setMeta isRev _).setMeta isSeq _
  · exact inv.pebble.setMeta isRev _
  · exact inv.pebble.setMeta isSeq _
  · exact inv.pebble

end Loop

/-! ## The store -/

/-- The store holds the history `h`: Pebble represents it, and the counters in
memory and their copies in Pebble are those of `h`. -/
structure Store.Represents (s : Store) (h : List Entry) : Prop where
  pebble : Mvcc.Represents s.db (versions h) (watermarkOf h)
  currentRev : s.currentRev = revisionOf h
  compactRev : s.compactRev = targetOf h
  lastSeq : s.lastSeq = sequenceOf h
  metaCompact : ((s.db.get metaCompactKey).map decodeRev).getD 0 = targetOf h
  metaRev : s.db.get metaCurrentRevKey =
    if revisionOf h = 0 then none else some (encodeRev (revisionOf h))
  metaSeq : Sequenced h → ((s.db.get metaLastSeqKey).map decodeRev).getD 0 = sequenceOf h

theorem Store.represents_empty : Store.empty.Represents [] :=
  ⟨Mvcc.represents_empty _, rfl, rfl, rfl, rfl, rfl, fun _ => rfl⟩

namespace Store.Represents

variable {s : Store} {h es : List Entry} {b : Batch}

theorem batchInv (rep : s.Represents h) :
    BatchInv s.db h [] { compactRev := s.compactRev } := by
  refine ⟨?_, ?_, rfl, rfl, ?_, rfl, rfl⟩
  · rw [append_nil]
    exact rep.pebble
  · rw [append_nil]
    exact rep.compactRev
  · rw [append_nil]
    exact rep.metaCompact

theorem commitBatch (rep : s.Represents h) (inv : BatchInv s.db h es b)
    (wf : WellFormed (h ++ es)) (nonempty : es ≠ []) :
    (Mvcc.commitBatch s b).Represents (h ++ es) := by
  have lookup : ∀ k, (s.db.commit (b.ops ++ metaWrites b)).get k =
      if b.maxSeq > 0 ∧ k = metaLastSeqKey then some (encodeRev b.maxSeq)
      else if b.maxRev > 0 ∧ k = metaCurrentRevKey then some (encodeRev b.maxRev)
      else (s.db.commit b.ops).get k := by
    intro k
    rw [commit_append, metaWrites, commit_append]
    by_cases rev : b.maxRev > 0 <;> by_cases seq : b.maxSeq > 0 <;>
      simp only [rev, seq, if_true, if_false, commit_nil, commit_cons, write_set, get_insert,
        true_and, false_and]
  refine ⟨inv.metaWrites, ?_, inv.compactRev, ?_, ?_, ?_, ?_⟩
  · rw [revisionOf_append, ← rep.currentRev, ← inv.maxRev]
    rfl
  · rw [sequenceOf_append, ← rep.lastSeq, ← inv.maxSeq]
    rfl
  · have notSeq : ¬ (b.maxSeq > 0 ∧ metaCompactKey = metaLastSeqKey) := by simp [show
      metaCompactKey ≠ metaLastSeqKey by decide]
    have notRev : ¬ (b.maxRev > 0 ∧ metaCompactKey = metaCurrentRevKey) := by simp [show
      metaCompactKey ≠ metaCurrentRevKey by decide]
    rw [Mvcc.commitBatch, lookup, if_neg notSeq, if_neg notRev]
    exact inv.metaCompact
  · have notSeq : ¬ (b.maxSeq > 0 ∧ metaCurrentRevKey = metaLastSeqKey) := by simp [show
      metaCurrentRevKey ≠ metaLastSeqKey by decide]
    have oldRev := revisionOf_nonneg h
    have newRev := revisionOf_nonneg es
    rw [Mvcc.commitBatch, lookup, if_neg notSeq, inv.maxRev, revisionOf_append]
    by_cases pos : revisionOf es > 0
    · have raised := wf.revisionOf_lt pos
      rw [if_pos ⟨pos, rfl⟩, max_eq_right raised.le, if_neg (by omega)]
    · rw [if_neg (fun both => pos both.1), inv.metaRev, rep.metaRev, max_eq_left (by omega)]
  · intro seq
    have seqH : Sequenced h := seq.sublist (sublist_append_left _ _)
    obtain ⟨front, last, rfl⟩ := (eq_nil_or_concat' es).resolve_left nonempty
    have pos := seq.pos last (by simp)
    have fits := seq.fits last (by simp)
    have total : sequenceOf (h ++ (front ++ [last])) = last.sequence := by
      rw [← append_assoc] at seq ⊢
      exact seq.sequenceOf_snoc
    have seqEs : Sequenced (front ++ [last]) := seq.sublist (sublist_append_right _ _)
    have maxSeq : b.maxSeq = last.sequence := by
      rw [inv.maxSeq]
      exact seqEs.sequenceOf_snoc
    rw [Mvcc.commitBatch, lookup, if_pos ⟨by omega, rfl⟩, Option.map_some, Option.getD_some,
      maxSeq, decodeRev_encodeRev ⟨by omega, fits⟩, total]

/-- **Apply keeps the representation**, for every batch. -/
theorem apply (rep : s.Represents h) (wf : WellFormed (h ++ es)) :
    ∃ s', s.apply es = (s', none) ∧ s'.Represents (h ++ es) := by
  unfold Store.apply
  split
  · rename_i empty
    exact ⟨s, rfl, by simpa [empty] using rep⟩
  · rename_i nonempty
    obtain ⟨b, ran, inv⟩ := BatchInv.runBatch Coherent.sublist
      (fun inv coherent => inv.applyOne rep.pebble coherent) rep.batchInv es
      (by simpa using wf.coherent)
    rw [ran]
    exact ⟨_, rfl, rep.commitBatch (by simpa using inv) wf nonempty⟩

/-- **Recover keeps the representation**, for every batch of new entries. -/
theorem recover (rep : s.Represents h) (wf : WellFormed (h ++ es)) :
    ∃ s', s.recover es = (s', none) ∧ s'.Represents (h ++ es) := by
  unfold Store.recover
  split
  · rename_i empty
    exact ⟨s, rfl, by simpa [empty] using rep⟩
  · rename_i nonempty
    have step : ∀ {es b e}, BatchInv s.db h es b → WellFormed (h ++ es ++ [e]) →
        ∃ b', recoverOne s.db b e = .ok b' ∧ BatchInv s.db h (es ++ [e]) b' := by
      intro es b e inv wf
      rw [recoverOne_eq_applyOne rep.pebble wf]
      exact inv.applyOne rep.pebble wf.coherent
    obtain ⟨b, ran, inv⟩ := BatchInv.runBatch WellFormed.sublist step rep.batchInv es
      (by simpa using wf)
    rw [ran]
    exact ⟨_, rfl, rep.commitBatch (by simpa using inv) wf nonempty⟩

end Store.Represents

end T4.Mvcc
