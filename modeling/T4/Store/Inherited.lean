import T4.Store.Reads

/-!
# Stores with records of earlier releases

A store need not hold a history in the sense of `T4.Mvcc.Represents`: an earlier
release wrote records without a version, which read as version 1. `Inherits db base vs`
says only what every binding of Pebble is: a record of plausible numbers at a revision up
to `base`, a version in `vs`, an index entry or metadata.

Since it constrains each binding by itself, applying entries keeps it whatever a
compaction deletes, and reads still find a plausible record or a version in `vs`
(`Inherits.get`).
-/

namespace T4.Mvcc

open Lib Bytes SortedMap Wal List

/-- The numbers of a record at revision `rev`: the key was created by then and has at
most one version per revision. A record without a version has version 0 here. -/
structure Record.Credible (r : Record) (rev : Int) : Prop where
  created : 0 < r.createRevision
  modified : r.createRevision ≤ rev
  counted : r.version ≤ rev - r.createRevision + 1

/-- A log record at a revision up to `base`. -/
structure OldRecord (base : Int) (slot value : Bytes) (rev : Int) (sub : Option Nat) : Prop where
  slot : slot = slotKey rev sub
  pos : 0 < rev
  upTo : rev ≤ base
  sub : ∀ i ∈ sub, i < 2 ^ 16
  credible : ∀ r, unmarshalRecord value = .ok r → r.Credible rev

/-- Pebble holds old records up to `base` and versions in `vs`. -/
structure Inherits (db : Pebble) (base : Int) (vs : List Version) : Prop where
  sound : ∀ k value, db.get k = some value →
    (∃ rev sub, OldRecord base k value rev sub) ∨ (∃ v ∈ vs, (k, value) = v.binding) ∨
      (∃ key, k = idxKey key) ∨ k ∈ metaKeys
  index : ∀ key value, db.get (idxKey key) = some value →
    (0 < decodeRev value ∧ decodeRev value ≤ base) ∨
      ∃ v ∈ vs, v.key = key ∧ v.change.op ≠ Op.delete ∧ value = encodeRev v.rev

section Inherits

variable {db : Pebble} {base : Int} {vs : List Version}

theorem Inherits.mono {vs' : List Version} (inherits : Inherits db base vs) (sub : vs ⊆ vs') :
    Inherits db base vs' := by
  constructor
  · intro k value held
    rcases inherits.sound k value held with old | new | idx | isMeta
    · exact Or.inl old
    · obtain ⟨v, mem, bound⟩ := new
      exact Or.inr (Or.inl ⟨v, sub mem, bound⟩)
    · exact Or.inr (Or.inr (Or.inl idx))
    · exact Or.inr (Or.inr (Or.inr isMeta))
  · intro key value held
    rcases inherits.index key value held with old | new
    · exact Or.inl old
    · obtain ⟨v, mem, points⟩ := new
      exact Or.inr ⟨v, sub mem, points⟩

/-! ## Applying entries -/

/-- A write of a batch whose entries leave versions in `vs`. -/
def Writes (vs : List Version) : Write Bytes Bytes → Prop
  | .delete _ => True
  | .set k value =>
    (∃ v ∈ vs, (k, value) = v.binding) ∨
      (∃ v ∈ vs, v.change.op ≠ Op.delete ∧ k = idxKey v.key ∧ value = encodeRev v.rev) ∨
      k ∈ metaKeys

theorem Inherits.commit (inherits : Inherits db base vs) {batch : List (Write Bytes Bytes)}
    (writes : ∀ op ∈ batch, Writes vs op) : Inherits (db.commit batch) base vs := by
  constructor
  · intro k value held
    rcases get_commit_source db held with before | set
    · exact inherits.sound k value before
    · rcases writes _ set with log | idx | isMeta
      · exact Or.inr (Or.inl log)
      · obtain ⟨v, -, -, same, -⟩ := idx
        exact Or.inr (Or.inr (Or.inl ⟨v.key, same⟩))
      · exact Or.inr (Or.inr (Or.inr isMeta))
  · intro key value held
    rcases get_commit_source db held with before | set
    · exact inherits.index key value before
    · rcases writes _ set with log | idx | isMeta
      · obtain ⟨v, -, bound⟩ := log
        exact absurd (Prod.mk.inj bound).1.symm (v.slot_ne_idxKey key)
      · obtain ⟨v, mem, kept, same, points⟩ := idx
        exact Or.inr ⟨v, mem, (List.cons.inj same).2.symm, kept, points⟩
      · exact absurd isMeta (idxKey_not_mem_metaKeys key)

theorem writes_version {v : Version} (mem : v ∈ vs) : ∀ op ∈ v.writes, Writes vs op := by
  intro op inWrites
  rw [Version.writes, applyRecord] at inWrites
  rcases mem_cons.mp inWrites with rfl | second
  · exact Or.inl ⟨v, mem, rfl⟩
  · rw [mem_singleton.mp second]
    split
    · trivial
    · rename_i kept
      refine Or.inr (Or.inl ⟨v, mem, ?_, rfl, rfl⟩)
      intro isDelete
      exact kept (by rw [Version.record_delete, isDelete, decide_eq_true rfl])

theorem compactScan_deletes {compactRev : Int} {bindings : List (Bytes × Bytes)}
    {ops : List (Write Bytes Bytes)} (scanned : compactScan db compactRev bindings = .ok ops) :
    ∀ op ∈ ops, Writes vs op := by
  induction bindings generalizing ops with
  | nil =>
    cases scanned
    intro op mem
    cases mem
  | cons binding rest ih =>
    rw [compactScan] at scanned
    split at scanned
    · cases scanned
    · split at scanned
      · cases scanned
      · split at scanned
        · cases scanned
        · rename_i later scannedRest
          cases scanned
          intro op mem
          split at mem
          · rcases mem_cons.mp mem with rfl | inRest
            · trivial
            · exact ih scannedRest op inRest
          · exact ih scannedRest op mem

theorem applyOne_writes {b b' : Batch} {e : Entry} (storable : Storable e)
    (new : entryVersions e ⊆ vs) (writes : ∀ op ∈ b.ops, Writes vs op)
    (stepped : applyOne db b e = .ok b') : ∀ op ∈ b'.ops, Writes vs op := by
  rw [applyOne] at stepped
  split at stepped
  · split at stepped
    · cases stepped
    · rename_i compacted applied
      cases stepped
      rw [applyCompact] at applied
      split at applied
      · cases applied
      · rename_i deletes scanned
        cases applied
        refine forall_mem_append.mpr ⟨writes, ?_⟩
        intro op here
        rcases mem_cons.mp here with rfl | deleted
        · exact Or.inr (Or.inr (by decide))
        · exact compactScan_deletes scanned op deleted
  · rename_i data
    rw [applyEntry_eq storable data] at stepped
    cases stepped
    refine forall_mem_append.mpr ⟨writes, ?_⟩
    intro op here
    obtain ⟨v, inEntry, inWrites⟩ := mem_flatMap.mp here
    exact writes_version (new inEntry) op inWrites

theorem runBatch_writes {b b' : Batch} {es : List Entry} {err : Option StoreError}
    (storable : ∀ e ∈ es, Storable e) (new : ∀ e ∈ es, entryVersions e ⊆ vs)
    (writes : ∀ op ∈ b.ops, Writes vs op) (ran : runBatch (applyOne db) b es = (b', err)) :
    ∀ op ∈ b'.ops, Writes vs op := by
  induction es generalizing b with
  | nil =>
    cases ran
    exact writes
  | cons e rest ih =>
    rw [runBatch] at ran
    split at ran
    · cases ran
      exact writes
    · rename_i next stepped
      exact ih (fun e mem => storable e (mem_cons_of_mem _ mem))
        (fun e mem => new e (mem_cons_of_mem _ mem))
        (applyOne_writes (storable e (by simp)) (new e (by simp)) writes stepped) ran

theorem metaWrites_writes (b : Batch) : ∀ op ∈ metaWrites b, Writes vs op := by
  intro op mem
  rw [metaWrites] at mem
  rcases mem_append.mp mem with rev | seq
  · split at rev
    · rw [mem_singleton.mp rev]
      exact Or.inr (Or.inr (by decide))
    · cases rev
  · split at seq
    · rw [mem_singleton.mp seq]
      exact Or.inr (Or.inr (by decide))
    · cases seq

/-- **Applying entries** keeps what the store inherited, whether or not it succeeds. -/
theorem Inherits.apply {s : Store} (inherits : Inherits s.db base vs) {es : List Entry}
    (storable : ∀ e ∈ es, Storable e) (new : ∀ e ∈ es, entryVersions e ⊆ vs) :
    Inherits (s.apply es).1.db base vs := by
  unfold Store.apply
  split
  · exact inherits
  · generalize ran : runBatch (applyOne s.db) { compactRev := s.compactRev } es = outcome
    obtain ⟨b, err⟩ := outcome
    cases err with
    | some err => exact inherits
    | none =>
      have writes := runBatch_writes storable new (by simp) ran
      refine inherits.commit ?_
      exact forall_mem_append.mpr ⟨writes, metaWrites_writes b⟩

/-! ## Reading -/

variable {key : Bytes} {kv : KeyValue}

theorem findSubOp_source {rev : Int} {bindings : List (Bytes × Bytes)}
    (found : findSubOp key rev bindings = some kv) :
    ∃ slot value r, (slot, value) ∈ bindings ∧ unmarshalRecord value = .ok r ∧ r.key = key ∧
      kv = recordToKV key rev r := by
  induction bindings with
  | nil => cases found
  | cons binding rest ih =>
    have later : findSubOp key rev rest = some kv → ∃ slot value r,
        (slot, value) ∈ binding :: rest ∧ unmarshalRecord value = .ok r ∧ r.key = key ∧
          kv = recordToKV key rev r := by
      intro foundRest
      obtain ⟨slot, value, r, mem, parts⟩ := ih foundRest
      exact ⟨slot, value, r, mem_cons_of_mem _ mem, parts⟩
    rw [findSubOp] at found
    split at found
    · exact later found
    · rename_i r decoded
      split at found
      · rename_i sameKey
        cases found
        exact ⟨binding.1, binding.2, r, by simp, decoded, sameKey, rfl⟩
      · exact later found

/-- What a record found at `rev` is: an old one, or that of a version. -/
def Found (base : Int) (vs : List Version) (rev : Int) (key : Bytes) (r : Record) : Prop :=
  (rev ≤ base ∧ r.Credible rev) ∨
    ∃ v ∈ vs, v.rev = rev ∧ r = v.record ∧ (v.sub = none ∨ v.key = key)

theorem Inherits.getLogEntry (inherits : Inherits db base vs) (log : Logged vs)
    (fits : base < 2 ^ 63) {rev : Int} (pos : 0 < rev) (small : rev < 2 ^ 63)
    (read : Mvcc.getLogEntry db key rev = .ok kv) :
    ∃ r, kv = recordToKV key rev r ∧ Found base vs rev key r := by
  unfold Mvcc.getLogEntry at read
  split at read
  · rename_i value held
    split at read
    · cases read
    · rename_i r decoded
      cases read
      refine ⟨r, rfl, ?_⟩
      have int64 : IsInt64 rev := ⟨by omega, small⟩
      have single : ∀ i ∈ (none : Option Nat), i < 2 ^ 16 := by simp
      rcases inherits.sound _ _ held with old | new | idx | isMeta
      · obtain ⟨rev', sub, record⟩ := old
        have upTo := record.upTo
        have low := record.pos
        obtain ⟨rfl, -⟩ := slotKey_injective int64 ⟨by omega, by omega⟩ single
          record.sub record.slot
        exact Or.inl ⟨upTo, record.credible r decoded⟩
      · obtain ⟨v, mem, bound⟩ := new
        obtain ⟨slots, rfl⟩ := Prod.mk.inj bound
        have storable := log.storable v mem
        obtain ⟨sameRev, alone⟩ := slotKey_injective int64 storable.int64 single
          storable.sub slots
        rw [storable.unmarshal] at decoded
        exact Or.inr ⟨v, mem, sameRev.symm, (Except.ok.inj decoded).symm, Or.inl alone.symm⟩
      · obtain ⟨other, same⟩ := idx
        exact absurd same (slotKey_ne_idxKey rev none other)
      · exact absurd isMeta (slotKey_not_mem_metaKeys rev none)
  · split at read
    · rename_i found
      cases read
      obtain ⟨slot, value, r, mem, decoded, sameKey, rfl⟩ := findSubOp_source found
      refine ⟨r, rfl, ?_⟩
      obtain ⟨held, low, high⟩ := mem_range.mp mem
      rcases inherits.sound _ _ held with old | new | idx | isMeta
      · obtain ⟨rev', sub, record⟩ := old
        have upTo := record.upTo
        rw [record.slot] at low high
        have between := mem_subRange pos.le small record.pos.le (upTo.trans_lt fits) sub
        obtain ⟨rfl, -⟩ := between.mp ⟨low, high⟩
        exact Or.inl ⟨upTo, record.credible r decoded⟩
      · obtain ⟨v, inVersions, bound⟩ := new
        obtain ⟨rfl, rfl⟩ := Prod.mk.inj bound
        have storable := log.storable v inVersions
        have between := mem_subRange pos.le small storable.pos.le storable.fits v.sub
        obtain ⟨sameRev, -⟩ := between.mp ⟨low, high⟩
        rw [storable.unmarshal] at decoded
        cases decoded
        exact Or.inr ⟨v, inVersions, sameRev, rfl, Or.inr sameKey⟩
      · obtain ⟨other, rfl⟩ := idx
        exact absurd low (not_le.mpr (idxKey_lt_logKeyWithSub other rev 0))
      · exact absurd high (not_lt.mpr (logKey_lt_metaKey isMeta (rev + 1)).le)
    · cases read

/-- **Point reads** find an old record or the version that the index points to. -/
theorem Inherits.get {s : Store} (inherits : Inherits s.db base vs) (log : Logged vs)
    (fits : base < 2 ^ 63) (above : ∀ v ∈ vs, base < v.rev) (read : s.get key = .ok (some kv)) :
    (∃ rev r, rev ≤ base ∧ r.Credible rev ∧ kv = recordToKV key rev r) ∨
      ∃ v ∈ vs, v.key = key ∧ v.change.op ≠ Op.delete ∧ kv = v.kv := by
  unfold Store.get at read
  simp only at read
  split at read
  · cases read
  · rename_i nonzero
    obtain ⟨found, entry, same⟩ : ∃ found, Mvcc.getLogEntry s.db key (getIdxRev s.db key) =
      .ok found ∧
        found = kv := by
      cases entry : Mvcc.getLogEntry s.db key (getIdxRev s.db key) with
      | error err =>
        rw [entry] at read
        cases read
      | ok found =>
        rw [entry] at read
        exact ⟨found, rfl, Option.some.inj (Except.ok.inj read)⟩
    subst same
    cases held : s.db.get (idxKey key) with
    | none => exact absurd (by rw [getIdxRev, held]; rfl) nonzero
    | some value =>
      have pointer : getIdxRev s.db key = decodeRev value := by
        rw [getIdxRev, held]
        rfl
      rw [pointer] at entry
      rcases inherits.index key value held with old | new
      · obtain ⟨r, same, source⟩ := inherits.getLogEntry log fits old.1 (by omega) entry
        rcases source with inOld | inNew
        · exact Or.inl ⟨_, r, inOld.1, inOld.2, same⟩
        · obtain ⟨v, mem, sameRev, -⟩ := inNew
          have := above v mem
          omega
      · obtain ⟨v, mem, sameKey, kept, rfl⟩ := new
        have storable := log.storable v mem
        rw [decodeRev_encodeRev storable.int64] at entry
        obtain ⟨r, same, source⟩ := inherits.getLogEntry log fits storable.pos storable.fits entry
        rcases source with inOld | inNew
        · have := above v mem
          omega
        · obtain ⟨w, memW, sameRev, rfl, which⟩ := inNew
          have isSame : v = w := by
            rcases which with single | key
            · exact log.eq_of_sub_none mem memW sameRev.symm single
            · exact log.eq_of_key_rev mem memW (sameKey.trans key.symm) sameRev.symm
          subst isSame
          refine Or.inr ⟨v, mem, sameKey, kept, ?_⟩
          rw [same, ← sameKey, storable.toKV]

end Inherits

/-! ## Stores of this release -/

theorem Continues.credible {rev last : Int} {existing : Option KeyValue} {o : TxnSubOp}
    (continues : Continues rev existing o) (newer : last < rev) (nonneg : 0 ≤ last)
    (live : ∀ kv ∈ existing, LiveBounds last kv) : (txnRecord o).Credible rev := by
  have version : entryVersion o.version ≤ max 1 o.version := by
    unfold entryVersion
    split <;> omega
  cases existing with
  | none =>
    obtain ⟨-, created, -, one⟩ := continues
    constructor <;> simp only [txnRecord] <;> omega
  | some kv =>
    obtain ⟨op, created, -⟩ := continues
    obtain ⟨low, modified, current, positive, counted⟩ := live kv rfl
    constructor <;> simp only [txnRecord] <;> omega

theorem Chained.credible {h : List Entry} (chained : Chained h) :
    ∀ v ∈ versions h, v.record.Credible v.rev := by
  induction chained with
  | nil =>
    intro v mem
    cases mem
  | snoc front follows ih =>
    intro v mem
    rw [versions_append, versions_singleton] at mem
    rcases mem_append.mp mem with before | here
    · exact ih v before
    · obtain ⟨sameRev, data⟩ := rev_of_mem_entryVersions here
      obtain ⟨newer, -⟩ := follows.revision data
      obtain ⟨ops, carries, typed, chain⟩ := follows.typed data front.live
      have inOps : v.change ∈ ops := by
        rw [← (carries.versions data typed).1]
        exact mem_map.mpr ⟨v, here, rfl⟩
      rw [sameRev]
      exact (chain v.change inOps).2.credible newer (revisionOf_nonneg _) (front.live v.change.key)

/-- A store that represents a chained history is a special case. -/
theorem Represents.inherits {db : Pebble} {h : List Entry} {W : Int}
    (rep : Represents db (versions h) W) (chained : Chained h) : Inherits db (revisionOf h) [] := by
  have logged := chained.wellFormed.logged
  constructor
  · intro k value held
    rcases rep.sound k value held with inLog | idx | isMeta
    · obtain ⟨v, mem, bound⟩ := inLog
      obtain ⟨rfl, rfl⟩ := Prod.mk.inj bound
      have storable := logged.storable v mem
      refine Or.inl ⟨v.rev, v.sub, rfl, storable.pos, rev_le_revisionOf mem, storable.sub, ?_⟩
      intro r decoded
      rw [storable.unmarshal] at decoded
      cases decoded
      exact chained.credible v mem
    · exact Or.inr (Or.inr (Or.inl idx))
    · exact Or.inr (Or.inr (Or.inr isMeta))
  · intro key value held
    rw [rep.index key] at held
    obtain ⟨v, head, rfl⟩ := Option.map_eq_some_iff.mp held
    have mem := (headVersion_eq_some head).1
    have storable := logged.storable v mem
    rw [decodeRev_encodeRev storable.int64]
    exact Or.inl ⟨storable.pos, rev_le_revisionOf mem⟩

end T4.Mvcc
