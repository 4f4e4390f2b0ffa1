import T4.Store.Cleanup

/-!
# Entries that are replayed again

`Recover` with entries that the store may hold already, in any order. An entry finds
nothing but its own records at its revision and writes them again. So the log becomes that
of the entries in their own order, whatever order they come in; the index does not: a
pointer is that of the entry that came last (`Store.Holds`).
-/

namespace T4.Mvcc

open Lib Bytes SortedMap Wal List

/-! ## The loop -/

theorem Coherent.eq_of_revision {g : List Entry} (coherent : Coherent g) {e e' : Entry}
    (mem : e ∈ g) (mem' : e' ∈ g) (data : e.op ≠ Op.compact) (data' : e'.op ≠ Op.compact)
    (same : e.revision = e'.revision) : e = e' := by
  obtain ⟨h, wf, within⟩ := coherent
  by_contra differ
  have apart := Pairwise.forall_of_forall_of_flip
    (R := fun a b : Entry => a ≠ b → a.op ≠ Op.compact → b.op ≠ Op.compact →
      a.revision ≠ b.revision) (l := h) (by simp)
    (wf.increasing.imp (fun less _ dataA dataB => (less dataA dataB).ne))
    (wf.increasing.imp (fun less _ dataB dataA => (less dataA dataB).ne'))
  exact apart (within e mem) (within e' mem') differ data data' same

section Loop

variable {db : Pebble} {h es : List Entry} {b : Batch} {e : Entry}

theorem BatchInv.of_ops (inv : BatchInv db h es b) {ops : List (Write Bytes Bytes)}
    (same : db.commit ops = db.commit b.ops) : BatchInv db h es { b with ops } := by
  obtain ⟨pebble, compactRev, maxRev, maxSeq, metaCompact, metaRev, metaSeq⟩ := inv
  rw [← same] at pebble metaCompact metaRev metaSeq
  exact ⟨pebble, compactRev, maxRev, maxSeq, metaCompact, metaRev, metaSeq⟩

theorem BatchInv.recoverOne (inv : BatchInv db h es b)
    (committed : Represents db (versions h) (watermarkOf h))
    (coherent : Coherent (h ++ es ++ [e])) :
    ∃ b', Mvcc.recoverOne db b e = .ok b' ∧ BatchInv db h (es ++ [e]) b' := by
  unfold Mvcc.recoverOne
  split
  · exact inv.applyOne committed coherent
  · rename_i data
    have storable : Storable e := coherent.storable (by simp)
    obtain ⟨vs, log, isVersion⟩ := (coherent.subset (g := h) (by simp +contextual)).exists_logged
    have sound : Sound db vs := Sound.subset committed.sound (fun v => (isVersion v).mpr)
    have own : ∀ v ∈ vs, v.rev = e.revision → v ∈ entryVersions e := by
      intro v mem sameRev
      obtain ⟨source, inHistory, inEntry⟩ := mem_flatMap.mp ((isVersion v).mp mem)
      obtain ⟨sourceRev, sourceData⟩ := rev_of_mem_entryVersions inEntry
      have inAll : source ∈ h ++ es ++ [e] := by simp [inHistory]
      have same := coherent.eq_of_revision inAll (by simp) sourceData data
        (sourceRev.symm.trans sameRev)
      exact same ▸ inEntry
    have absorbed := commit_cleanup_writes sound log storable data own (db.commit b.ops)
    obtain ⟨b', applied, inv'⟩ := inv.data coherent data
    unfold Mvcc.applyOne at applied ⊢
    rw [if_neg data, applyEntry_eq storable data] at applied ⊢
    cases applied
    refine ⟨_, rfl, inv'.of_ops ?_⟩
    rw [append_assoc, commit_append]
    exact absorbed.trans (commit_append _ _ _).symm

end Loop

/-! ## The order does not matter to the counters -/

section Counters

variable {g h : List Entry}

theorem revisionOf_le_iff {x : Int} :
    revisionOf h ≤ x ↔ 0 ≤ x ∧ ∀ e ∈ h, e.op ≠ Op.compact → e.revision ≤ x := by
  induction h using reverseRecOn with
  | nil => simp [revisionOf]
  | append_singleton h e ih =>
    rw [revisionOf_snoc]
    simp only [mem_append, mem_singleton, or_imp, forall_and, forall_eq]
    split
    · rename_i isCompact
      rw [ih]
      simp [isCompact]
    · rename_i data
      rw [max_le_iff, ih]
      simp [data, and_assoc]

theorem watermarkOf_le_iff {x : Int} :
    watermarkOf h ≤ x ↔ 0 ≤ x ∧ ∀ e ∈ h, e.op = Op.compact → e.prevRevision ≤ x := by
  induction h using reverseRecOn with
  | nil => simp [watermarkOf]
  | append_singleton h e ih =>
    rw [watermarkOf_snoc]
    simp only [mem_append, mem_singleton, or_imp, forall_and, forall_eq]
    split
    · rename_i isCompact
      rw [max_le_iff, ih]
      simp [isCompact, and_assoc]
    · rename_i data
      rw [ih]
      simp [data]

variable (same : ∀ e, e ∈ g ↔ e ∈ h)

include same

theorem revisionOf_eq_of_mem : revisionOf g = revisionOf h := by
  refine eq_of_forall_ge_iff (fun x => ?_)
  simp only [revisionOf_le_iff, same]

theorem watermarkOf_eq_of_mem : watermarkOf g = watermarkOf h := by
  refine eq_of_forall_ge_iff (fun x => ?_)
  simp only [watermarkOf_le_iff, same]

theorem sequenceOf_eq_of_mem : sequenceOf g = sequenceOf h := by
  refine eq_of_forall_ge_iff (fun x => ?_)
  simp only [sequenceOf_le_iff, same]

theorem mem_versions_of_mem (v : Version) : v ∈ versions g ↔ v ∈ versions h := by
  simp only [versions, mem_flatMap, same]

end Counters

theorem headVersion_append_of_mem {vs new : List Version} {k : Bytes}
    (written : ∃ v ∈ new, v.key = k) : headVersion (vs ++ new) k = headVersion new k := by
  obtain ⟨v, mem, sameKey⟩ := written
  have found : (new.reverse.find? (fun v => v.key = k)).isSome := by
    rw [find?_isSome]
    exact ⟨v, mem_reverse.mpr mem, by simpa using sameKey⟩
  obtain ⟨w, isLast⟩ := Option.isSome_iff_exists.mp found
  rw [headVersion, headVersion, reverse_append, find?_append, isLast, Option.some_or]

theorem headVersion_append_self (vs : List Version) (k : Bytes) :
    headVersion (vs ++ vs) k = headVersion vs k := by
  by_cases written : ∃ v ∈ vs, v.key = k
  · exact headVersion_append_of_mem written
  · exact headVersion_append_of_ne (fun v mem sameKey => written ⟨v, mem, sameKey⟩)

theorem headVersion_append_iff (vs : List Version) {xs ys : List Version}
    (same : ∀ v, v ∈ xs ↔ v ∈ ys) :
    (∀ k, headVersion (vs ++ xs) k = headVersion (vs ++ ys) k) ↔
      ∀ k, headVersion xs k = headVersion ys k := by
  refine forall_congr' (fun k => ?_)
  by_cases written : ∃ v ∈ xs, v.key = k
  · obtain ⟨v, mem, sameKey⟩ := written
    rw [headVersion_append_of_mem ⟨v, mem, sameKey⟩,
      headVersion_append_of_mem ⟨v, (same v).mp mem, sameKey⟩]
  · have otherX : ∀ v ∈ xs, v.key ≠ k := fun v mem sameKey => written ⟨v, mem, sameKey⟩
    have otherY : ∀ v ∈ ys, v.key ≠ k := fun v mem => otherX v ((same v).mpr mem)
    have emptyX : headVersion ([] ++ xs) k = headVersion [] k := headVersion_append_of_ne otherX
    have emptyY : headVersion ([] ++ ys) k = headVersion [] k := headVersion_append_of_ne otherY
    rw [nil_append] at emptyX emptyY
    rw [headVersion_append_of_ne otherX, headVersion_append_of_ne otherY, emptyX, emptyY]
    exact ⟨fun _ => rfl, fun _ => rfl⟩

/-! ## The store -/

/-- The store holds the entries of `g`, which were replayed in this order. -/
structure Store.Holds (s : Store) (g : List Entry) : Prop where
  pebble : Mvcc.Represents s.db (versions g) (watermarkOf g)
  currentRev : s.currentRev = revisionOf g
  compactRev : s.compactRev = targetOf g
  lastSeq : s.lastSeq = sequenceOf g
  metaCompact : ((s.db.get metaCompactKey).map decodeRev).getD 0 = targetOf g

theorem Store.Represents.holds {s : Store} {h : List Entry} (rep : s.Represents h) : s.Holds h :=
  ⟨rep.pebble, rep.currentRev, rep.compactRev, rep.lastSeq, rep.metaCompact⟩

theorem findSubOp_revision {key : Bytes} {rev : Int} {records : List (Bytes × Bytes)}
    {kv : KeyValue} (found : findSubOp key rev records = some kv) : kv.revision = rev := by
  induction records with
  | nil => cases found
  | cons first rest ih =>
    obtain ⟨slot, value⟩ := first
    unfold findSubOp at found
    split at found
    · exact ih found
    · split at found
      · cases found
        rfl
      · exact ih found

/-- A key that has a pointer is never shown as absent: it is shown at the revision of the
pointer, or the read fails. -/
theorem Store.get_of_pointer {s : Store} {k : Bytes} {v : Version} (storable : v.Storable)
    (pointed : s.db.get (idxKey k) = some (encodeRev v.rev)) {shown : Option KeyValue}
    (read : s.get k = .ok shown) : ∃ kv, shown = some kv ∧ kv.revision = v.rev := by
  have idx : getIdxRev s.db k = v.rev := by
    rw [getIdxRev, pointed, Option.map_some, Option.getD_some, decodeRev_encodeRev storable.int64]
  have pos := storable.pos
  unfold Store.get getLogEntry at read
  simp only [idx] at read
  rw [if_neg (by omega)] at read
  split at read
  · split at read
    · cases read
    · cases read
      exact ⟨_, rfl, rfl⟩
  · split at read
    · rename_i found
      cases read
      exact ⟨_, rfl, findSubOp_revision found⟩
    · cases read

namespace Store.Holds

variable {s ref : Store} {g h es : List Entry}

theorem batchInv (holds : s.Holds g) : BatchInv s.db g [] { compactRev := s.compactRev } := by
  obtain ⟨pebble, -, compactRev, -, metaCompact⟩ := holds
  rw [← append_nil g] at pebble compactRev metaCompact
  exact ⟨pebble, compactRev, rfl, rfl, metaCompact, rfl, rfl⟩

/-- **Recover never fails on entries of one history**, repeated or not. -/
theorem recover (holds : s.Holds g) (coherent : Coherent (g ++ es)) :
    ∃ s', s.recover es = (s', none) ∧ s'.Holds (g ++ es) := by
  unfold Store.recover
  split
  · rename_i empty
    exact ⟨s, rfl, by simpa [empty] using holds⟩
  · obtain ⟨b, ran, inv⟩ := BatchInv.runBatch Coherent.sublist
      (fun inv coherent => inv.recoverOne holds.pebble coherent) holds.batchInv es
      (by simpa using coherent)
    rw [nil_append] at inv
    rw [ran]
    refine ⟨_, rfl, inv.metaWrites, ?_, inv.compactRev, ?_, ?_⟩
    · rw [revisionOf_append, ← holds.currentRev, ← inv.maxRev]
      rfl
    · rw [sequenceOf_append, ← holds.lastSeq, ← inv.maxSeq]
      rfl
    · rw [commitBatch, commit_append, get_metaWrites _ _ (by decide) (by decide)]
      exact inv.metaCompact

/-- What `s` holds, in the order of the history: the log is the same, the index is that of
the replay. -/
theorem stored (holds : s.Holds g) (same : ∀ e, e ∈ g ↔ e ∈ h) :
    Stored s.db (versions h) (headVersion (versions g)) (watermarkOf h) := by
  have isVersion := mem_versions_of_mem same
  rw [← watermarkOf_eq_of_mem same]
  refine ⟨Sound.subset holds.pebble.sound (fun v => (isVersion v).mp), ?_, holds.pebble.index⟩
  intro v mem visible
  refine holds.pebble.complete v ((isVersion v).mpr mem) ?_
  exact fun later laterMem => visible later ((isVersion later).mp laterMem)

/-- **The index decides.** A store that replayed the entries of `h` in the order `g` reads
like one that replayed them in order exactly if every key ends with the same version. -/
theorem readsAlike_iff (holds : s.Holds g) (holdsRef : ref.Holds h) (wf : WellFormed h)
    (same : ∀ e, e ∈ g ↔ e ∈ h) :
    ReadsAlike s ref (watermarkOf h) ↔
      ∀ k, headVersion (versions g) k = headVersion (versions h) k := by
  have log := wf.logged
  have stored := holds.stored same
  have indexedRef := holdsRef.pebble.indexed log
  constructor
  · intro reads k
    have shown := reads.get k
    rw [indexedRef.get log] at shown
    cases head : headVersion (versions g) k with
    | none =>
      have removed : s.db.get (idxKey k) = none := by
        rw [stored.index, head]
        rfl
      rw [Store.get_of_no_pointer removed] at shown
      exact (Option.map_eq_none_iff.mp (Except.ok.inj shown).symm).symm
    | some v =>
      obtain ⟨mem, keyV, -⟩ := headVersion_eq_some head
      have inH := (mem_versions_of_mem same v).mp mem
      have storable := log.storable v inH
      have pointed : s.db.get (idxKey k) = some (encodeRev v.rev) := by
        rw [stored.index, head]
        rfl
      obtain ⟨kv, found, sameRev⟩ := Store.get_of_pointer storable pointed shown
      obtain ⟨w, headW, rfl⟩ := Option.map_eq_some_iff.mp found
      obtain ⟨memW, keyW, -⟩ := headVersion_eq_some headW
      rw [headW, log.eq_of_key_rev inH memW (keyV.trans keyW.symm) sameRev.symm]
  · intro heads
    have rep : Mvcc.Represents s.db (versions h) (watermarkOf h) := by
      rw [represents_iff, ← funext heads]
      exact stored
    have indexed := rep.indexed log
    have current : s.currentRev = ref.currentRev := by
      rw [holds.currentRev, holdsRef.currentRev, revisionOf_eq_of_mem same]
    have fits : s.currentRev < 2 ^ 63 := by
      rw [current, holdsRef.currentRev]
      exact wf.revisionOf_fits
    have compact : s.compactRev ≤ watermarkOf h := by
      rw [holds.compactRev, ← watermarkOf_eq_of_mem same]
      exact targetOf_le_watermarkOf g
    have compactRef : ref.compactRev ≤ watermarkOf h := by
      rw [holdsRef.compactRev]
      exact targetOf_le_watermarkOf h
    have alike : ShowAlike s ref (versions h) (versions h) (watermarkOf h) := by
      intro k t _ above _
      rw [rep.valueAt_visible log above, holdsRef.pebble.valueAt_visible log above]
    refine alike.readsAlike rep.sound log holdsRef.pebble.sound log current fits compact compactRef
      ?_ ?_
    · intro k
      rw [indexed.get log, indexedRef.get log]
    · intro pfx fromKey limit
      rw [indexed.listHead log (fun v => rev_le_revisionOf),
        indexedRef.listHead log (fun v => rev_le_revisionOf)]

end Store.Holds

end T4.Mvcc
