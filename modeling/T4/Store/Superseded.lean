import T4.Store.Cleanup

/-!
# Entries of a newer term

A store holds `before ++ old` and replays `new`, which takes the revisions of `old` again.
After `Recover` it should be a store of `before ++ new` (`Replaced`).

What `Recover` looks at before it writes an entry is the log as it was committed, at the
revision of the entry alone. So it leaves the records of a transaction that a single key
replaces, it does not bring back the version of a key that only `old` wrote, and where it
removes the pointer of a key it does not see that `new` has written the key at a smaller
revision. `Replaceable` says that none of this happens, and that no compaction in `old`
has removed what `new` needs.
-/

namespace T4.Mvcc

open Lib Bytes SortedMap Wal List

/-- `new` takes the revisions from `r` on, which `old` had, and at least as many. Of the
histories only their form is required; those of the write path have it. -/
structure Supersedes (before old new : List Entry) (r : Int) : Prop where
  oldHistory : WellFormed (before ++ old)
  newHistory : WellFormed (before ++ new)
  below : ∀ e ∈ before, e.op ≠ Op.compact → e.revision < r
  above : ∀ e ∈ old, e.op ≠ Op.compact → r ≤ e.revision
  data : ∀ e ∈ new, e.op ≠ Op.compact
  consecutive : ∀ (i : Nat) (e : Entry), new[i]? = some e → e.revision = r + i
  conflict : r ≤ revisionOf (before ++ old)
  covers : revisionOf (before ++ old) < r + new.length

/-- The versions of `before` that are still in the log. -/
def keptOf (db : Pebble) (before : List Entry) : List Version :=
  (versions before).filter (fun v => (db.get v.slot).isSome)

/-- The store holds nothing that keeps `new` from replacing `old`. -/
structure Replaceable (s : Store) (before old new : List Entry) (r : Int) : Prop where
  /-- No single key takes the revision of a transaction whose records are there. -/
  txn : ∀ e ∈ new, e.op ≠ Op.txn → ∀ u ∈ versions old, u.rev = e.revision → u.sub ≠ none →
    ¬ u.HeldIn s.db
  /-- What `old` wrote and `new` does not was absent before. -/
  absent : ∀ u ∈ versions old, (∀ v ∈ versions new, v.key ≠ u.key) →
    headValue before u.key = none
  /-- After its last put in `new` no put of `old` is logged. -/
  last : ∀ v ∈ versions new, v.change.op ≠ Op.delete →
    (∀ w ∈ versions new, w.key = v.key → w.rev ≤ v.rev) →
    ∀ u ∈ versions old, u.key = v.key → u.change.op ≠ Op.delete → v.rev < u.rev →
      ¬ u.HeldIn s.db
  /-- Where a revision that can be read shows a key as `before` left it, the log still does. -/
  kept : ∀ k, max (watermarkOf (before ++ old)) r ≤ revisionOf new →
    (∀ v ∈ versions new, v.key = k → max (watermarkOf (before ++ old)) r < v.rev) →
    headVersion (keptOf s.db before) k = headVersion (versions before) k

/-- `s` reads like `ref` at the head and at revisions from `W` on, and its log and index
hold nothing but versions of `h`. -/
structure Replaced (s ref : Store) (h : List Entry) (W : Int) :
    Prop extends ReadsAlike s ref W where
  log : Sound s.db (versions h)
  index : ∀ k pointer, s.db.get (idxKey k) = some pointer →
    ∃ v ∈ versions h, v.key = k ∧ pointer = encodeRev v.rev

namespace Supersedes

variable {before old new : List Entry} {r : Int}

theorem batch (sup : Supersedes before old new r) : DataBatch new :=
  ⟨fun e mem => sup.newHistory.storable e (by simp [mem]), sup.data⟩

theorem nonempty (sup : Supersedes before old new r) : new ≠ [] := by
  rintro rfl
  have conflict := sup.conflict
  have covers := sup.covers
  simp only [length_nil] at covers
  omega

variable {v : Version} {e : Entry} {rest : List Entry}

theorem rev_before (sup : Supersedes before old new r) (mem : v ∈ versions before) : v.rev < r := by
  obtain ⟨e, inBefore, inEntry⟩ := mem_flatMap.mp mem
  obtain ⟨sameRev, data⟩ := rev_of_mem_entryVersions inEntry
  rw [sameRev]
  exact sup.below e inBefore data

theorem rev_old (sup : Supersedes before old new r) {u : Version} (mem : u ∈ versions old) :
    r ≤ u.rev ∧ u.rev < r + new.length := by
  obtain ⟨e, inOld, inEntry⟩ := mem_flatMap.mp mem
  obtain ⟨sameRev, data⟩ := rev_of_mem_entryVersions inEntry
  have low := sup.above e inOld data
  have high := le_revisionOf (h := before ++ old) (by simp [inOld]) data
  have covers := sup.covers
  omega

theorem taken (sup : Supersedes before old new r) {u : Version} (mem : u ∈ versions old) :
    ∃ e ∈ new, e.revision = u.rev := by
  obtain ⟨low, high⟩ := sup.rev_old mem
  obtain ⟨i, offset⟩ := Int.eq_ofNat_of_zero_le (Int.sub_nonneg.mpr low)
  have inside : i < new.length := by omega
  have at_ : new[i]? = some new[i] := getElem?_eq_getElem inside
  exact ⟨new[i], getElem_mem inside, by rw [sup.consecutive i _ at_]; omega⟩

theorem le_revision (sup : Supersedes before old new r) (mem : e ∈ new) : r ≤ e.revision := by
  obtain ⟨i, at_⟩ := mem_iff_getElem?.mp mem
  have number := sup.consecutive i e at_
  omega

theorem source (mem : v ∈ versions new) : ∃ e ∈ new, v ∈ entryVersions e ∧ v.rev = e.revision := by
  obtain ⟨e, inNew, inEntry⟩ := mem_flatMap.mp mem
  exact ⟨e, inNew, inEntry, (rev_of_mem_entryVersions inEntry).1⟩

theorem rev_new (sup : Supersedes before old new r) (mem : v ∈ versions new) : r ≤ v.rev := by
  obtain ⟨e, inNew, -, sameRev⟩ := source mem
  rw [sameRev]
  exact sup.le_revision inNew

theorem mem_of_rev (sup : Supersedes before old new r) (mem : v ∈ versions (before ++ rest))
    (high : r ≤ v.rev) : v ∈ versions rest := by
  refine (mem_versions_append.mp mem).resolve_left ?_
  intro early
  have low := sup.rev_before early
  omega

theorem own_version (sup : Supersedes before old new r) (mem : e ∈ new) (isSingle : e.op ≠ Op.txn) :
    (⟨e.revision, none, subOp e⟩ : Version) ∈ entryVersions e := by
  rw [entryVersions, if_neg (sup.data e mem), if_neg isSingle]
  exact mem_singleton.mpr rfl

theorem eq_of_revision (sup : Supersedes before old new r) {e' : Entry} (mem : e ∈ new)
    (mem' : e' ∈ new) (same : e.revision = e'.revision) : e = e' := by
  obtain ⟨i, at_⟩ := mem_iff_getElem?.mp mem
  obtain ⟨j, at'⟩ := mem_iff_getElem?.mp mem'
  have first := sup.consecutive i e at_
  have second := sup.consecutive j e' at'
  have index : i = j := by omega
  subst index
  exact Option.some.inj (at_.symm.trans at')

theorem revision_lt (sup : Supersedes before old new r) {front : List Entry} {x : Entry}
    (split : new = front ++ e :: rest) (mem : x ∈ rest) : e.revision < x.revision := by
  have increasing := (pairwise_append.mp sup.newHistory.increasing).2.1
  rw [split] at increasing
  have behind := (pairwise_cons.mp (pairwise_append.mp increasing).2.1).1 x mem
  exact behind (sup.data e (by simp [split])) (sup.data x (by simp [split, mem]))

theorem mem_rest_iff (sup : Supersedes before old new r) {front : List Entry} {x : Entry}
    (split : new = front ++ e :: rest) (mem : x ∈ new) : x ∈ rest ↔ e.revision < x.revision := by
  constructor
  · exact sup.revision_lt split
  · intro ahead
    rw [split] at mem
    rcases mem_append.mp mem with early | late
    · obtain ⟨first, second, splitFront⟩ := append_of_mem early
      have again : new = first ++ x :: (second ++ e :: rest) := by
        rw [split, splitFront, append_assoc, cons_append]
      have back := sup.revision_lt again (x := e) (by simp)
      omega
    · rcases mem_cons.mp late with rfl | late
      · exact absurd ahead (lt_irrefl _)
      · exact late

section Pebble

variable {s : Store}

def rewritten (s : Store) (new : List Entry) : Pebble := s.db.commit (rewrites s.db new)

variable (sup : Supersedes before old new r) (rep : s.Represents (before ++ old))

include sup rep

variable {v : Version} {k : Bytes}

theorem get_slot_of_untaken (isVersion : v.Storable)
    (untaken : ∀ e ∈ new, e.revision = v.rev → e.op ≠ Op.txn ∧ v.sub ≠ none) :
    (rewritten s new).get v.slot = s.db.get v.slot := by
  refine sup.batch.get_untouched rep.pebble.sound sup.oldHistory.logged ?_ s.db
  intro e mem touches
  obtain ⟨sameRev, seen⟩ := rev_of_touches sup.oldHistory.logged (sup.batch.storable e mem)
    isVersion touches
  obtain ⟨isSingle, inTxn⟩ := untaken e mem sameRev.symm
  exact seen.elim isSingle inTxn

theorem get_slot_before (mem : v ∈ versions before) :
    (rewritten s new).get v.slot = s.db.get v.slot := by
  have storable : v.Storable := sup.oldHistory.version_storable (by simp [versions_append, mem])
  refine sup.get_slot_of_untaken rep storable ?_
  intro e inNew sameRev
  have low := sup.rev_before mem
  have high := sup.le_revision inNew
  omega

theorem get_slot_new (mem : v ∈ versions new) :
    (rewritten s new).get v.slot = some (marshalRecord v.record) := by
  have storable : v.Storable := sup.newHistory.version_storable (by simp [versions_append, mem])
  obtain ⟨e, inNew, inEntry, sameRev⟩ := source mem
  obtain ⟨front, rest, split⟩ := append_of_mem inNew
  have batch := sup.batch
  rw [split] at batch
  have untouched : ∀ x ∈ rest, ¬ Touches s.db (versions (before ++ old)) x v.slot := by
    intro x later touches
    have ahead := sup.revision_lt split later
    have same := (rev_of_touches sup.oldHistory.logged (batch.storable x (by simp [later])) storable
      touches).1
    omega
  rw [rewritten, split, batch.get_last rep.pebble.sound sup.oldHistory.logged untouched]
  exact get_entry_slot (batch.storable e (by simp)) inEntry _

/-- Unless a single key takes the revision of a transaction, only records of the new
history are left. -/
theorem sound_rewritten
    (txn : ∀ e ∈ new, e.op ≠ Op.txn → ∀ u ∈ versions old, u.rev = e.revision → u.sub ≠ none →
      ¬ u.HeldIn s.db) : Sound (rewritten s new) (versions (before ++ new)) := by
  have log := sup.oldHistory.logged
  intro k value held
  by_cases touched : ∃ e ∈ new, Touches s.db (versions (before ++ old)) e k
  · obtain ⟨front, e, rest, split, touches, untouched⟩ := exists_last_of_mem touched
    have batch := sup.batch
    rw [split] at batch
    have storable := batch.storable e (by simp)
    rw [rewritten, split, batch.get_last rep.pebble.sound log untouched] at held
    by_cases written : ∃ v ∈ entryVersions e, k = v.slot ∨ k = idxKey v.key
    · obtain ⟨v, mem, rfl | rfl⟩ := written
      · rw [get_entry_slot storable mem] at held
        cases held
        have inNew : v ∈ versions new := mem_flatMap.mpr ⟨e, by simp [split], mem⟩
        exact Or.inl ⟨v, by simp [versions_append, inNew], rfl⟩
      · exact Or.inr (Or.inl ⟨v.key, rfl⟩)
    · rw [get_entry_cleared rep.pebble.sound log storable (batch.data e (by simp))
        (touches.resolve_right written)
        (fun v mem => not_or.mp (fun writes => written ⟨v, mem, writes⟩))] at held
      cases held
  · have untouched : ∀ e ∈ new, ¬ Touches s.db (versions (before ++ old)) e k :=
      fun e mem touches => touched ⟨e, mem, touches⟩
    rw [rewritten, sup.batch.get_untouched rep.pebble.sound log untouched] at held
    rcases rep.pebble.sound k value held with inLog | other
    · obtain ⟨v, mem, bound⟩ := inLog
      rcases mem_versions_append.mp mem with inBefore | inOld
      · exact Or.inl ⟨v, by simp [versions_append, inBefore], bound⟩
      · obtain ⟨e, inNew, sameRev⟩ := sup.taken inOld
        obtain ⟨rfl, -⟩ := Prod.mk.inj bound
        have heldIn : v.HeldIn s.db := Option.isSome_iff_exists.mpr ⟨value, held⟩
        refine absurd ?_ (untouched e inNew)
        by_cases isTxn : e.op = Op.txn
        · exact Or.inl (Or.inr ⟨isTxn, v, by simp [versions_append, inOld], heldIn, sameRev.symm,
            rfl⟩)
        · have single : v.sub = none := by
            by_contra inTxn
            exact txn e inNew isTxn v inOld sameRev.symm inTxn heldIn
          refine Or.inr ⟨_, sup.own_version inNew isTxn, Or.inl ?_⟩
          rw [Version.slot, Version.slot, single, sameRev]
    · exact Or.inr other

/-- **What becomes of a pointer.** It is as it was, or it is that of the last new version
of the key, or it was removed after all of them. -/
theorem pointer (k : Bytes) :
    ((rewritten s new).get (idxKey k) = s.db.get (idxKey k) ∧
      (∀ v ∈ versions new, v.key ≠ k) ∧
      ∀ e ∈ new, ¬ Unlinks s.db (versions (before ++ old)) e k) ∨
    (∃ v ∈ versions new, v.key = k ∧ (∀ w ∈ versions new, w.key = k → w.rev ≤ v.rev) ∧
      (rewritten s new).get (idxKey k) = v.live.map (fun v => encodeRev v.rev) ∧
      ∀ e ∈ new, v.rev < e.revision → ¬ Unlinks s.db (versions (before ++ old)) e k) ∨
    ∃ e ∈ new, Unlinks s.db (versions (before ++ old)) e k ∧
      (rewritten s new).get (idxKey k) = none ∧
      ∀ v ∈ versions new, v.key = k → v.rev < e.revision := by
  have log := sup.oldHistory.logged
  by_cases touched : ∃ e ∈ new, Touches s.db (versions (before ++ old)) e (idxKey k)
  · obtain ⟨front, e, rest, split, touches, untouched⟩ := exists_last_of_mem touched
    have inNew : e ∈ new := by simp [split]
    have batch := sup.batch
    rw [split] at batch
    have storable := batch.storable e (by simp)
    have upTo : ∀ w ∈ versions new, w.key = k → w.rev ≤ e.revision := by
      intro w mem sameKey
      obtain ⟨x, inNew', inEntry, sameRev⟩ := source mem
      by_contra ahead
      have later := (sup.mem_rest_iff split inNew').mpr (by omega)
      exact untouched x later (touches_idxKey.mpr (Or.inr ⟨w, inEntry, sameKey⟩))
    by_cases written : ∃ v ∈ entryVersions e, v.key = k
    · obtain ⟨v, mem, rfl⟩ := written
      have sameRev := (rev_of_mem_entryVersions mem).1
      refine Or.inr (Or.inl ⟨v, mem_flatMap.mpr ⟨e, inNew, mem⟩, rfl, ?_, ?_, ?_⟩)
      · rw [sameRev]
        exact upTo
      · rw [rewritten, split, batch.get_last rep.pebble.sound log untouched]
        exact get_entry_idx storable mem _
      · intro x inNew' ahead unlinks
        rw [sameRev] at ahead
        exact untouched x ((sup.mem_rest_iff split inNew').mpr ahead)
          (touches_idxKey.mpr (Or.inl unlinks))
    · have unlinks := (touches_idxKey.mp touches).resolve_right written
      refine Or.inr (Or.inr ⟨e, inNew, unlinks, ?_, ?_⟩)
      · rw [rewritten, split, batch.get_last rep.pebble.sound log untouched]
        refine get_entry_cleared rep.pebble.sound log storable (batch.data e (by simp))
          (Or.inl ⟨k, rfl, unlinks⟩) ?_ _
        exact fun v mem => ⟨(v.slot_ne_idxKey k).symm,
          fun same => written ⟨v, mem, (idxKey_injective same).symm⟩⟩
      · intro w mem sameKey
        refine lt_of_le_of_ne (upTo w mem sameKey) ?_
        intro sameRev
        obtain ⟨x, inNew', inEntry, revX⟩ := source mem
        have same := sup.eq_of_revision inNew' inNew (revX.symm.trans sameRev)
        exact written ⟨w, same ▸ inEntry, sameKey⟩
  · have untouched : ∀ e ∈ new, ¬ Touches s.db (versions (before ++ old)) e (idxKey k) :=
      fun e mem touches => touched ⟨e, mem, touches⟩
    refine Or.inl ⟨sup.batch.get_untouched rep.pebble.sound log untouched s.db, ?_, ?_⟩
    · intro v mem sameKey
      obtain ⟨e, inNew, inEntry, -⟩ := source mem
      exact untouched e inNew (touches_idxKey.mpr (Or.inr ⟨v, inEntry, sameKey⟩))
    · intro e inNew unlinks
      exact untouched e inNew (touches_idxKey.mpr (Or.inl unlinks))

omit rep in
theorem mem_old_of_head {u w : Version} (written : u ∈ versions old) (sameKey : u.key = k)
    (head : headVersion (versions (before ++ old)) k = some w) : w ∈ versions old := by
  obtain ⟨mem, keyW, -⟩ := headVersion_eq_some head
  exact sup.mem_of_rev mem ((sup.rev_old written).1.trans
    (sup.oldHistory.logged.headVersion_last head (mem_versions_append.mpr (Or.inr written))
      (sameKey.trans keyW.symm)))

omit rep in
/-- A logged put of `old` is seen by the new entry at its revision, if that writes other
keys. -/
theorem unlinks_of_held
    (txn : ∀ e ∈ new, e.op ≠ Op.txn → ∀ u ∈ versions old, u.rev = e.revision → u.sub ≠ none →
      ¬ u.HeldIn s.db)
    {u : Version} (mem : u ∈ versions old) (heldIn : u.HeldIn s.db) (live : u.change.op ≠ Op.delete)
    (other : ∀ v ∈ versions new, v.rev = u.rev → v.key ≠ u.key) :
    ∃ e ∈ new, e.revision = u.rev ∧ Unlinks s.db (versions (before ++ old)) e u.key := by
  obtain ⟨e, inNew, sameRev⟩ := sup.taken mem
  refine ⟨e, inNew, sameRev, u, by simp [versions_append, mem], heldIn, sameRev.symm, rfl, live, ?_⟩
  by_cases isTxn : e.op = Op.txn
  · exact Or.inl isTxn
  · have own := mem_flatMap.mpr ⟨e, inNew, sup.own_version inNew isTxn⟩
    refine Or.inr ⟨?_, (other _ own sameRev).symm⟩
    by_contra inTxn
    exact txn e inNew isTxn u mem sameRev.symm inTxn heldIn

omit rep in
theorem mem_new_of_head {w : Version} (written : w ∈ versions new) (sameKey : w.key = k)
    (head : headVersion (versions (before ++ new)) k = some v) : v ∈ versions new := by
  obtain ⟨mem, keyV, -⟩ := headVersion_eq_some head
  exact sup.mem_of_rev mem ((sup.rev_new written).trans
    (sup.newHistory.logged.headVersion_last head (mem_versions_append.mpr (Or.inr written))
      (sameKey.trans keyV.symm)))

omit rep in
theorem head_of_newest (mem : v ∈ versions new)
    (newest : ∀ w ∈ versions new, w.key = v.key → w.rev ≤ v.rev) :
    headVersion (versions (before ++ new)) v.key = v.live := by
  refine sup.newHistory.logged.headVersion_eq_live (by simp [versions_append, mem]) ?_
  intro w inAll sameKey
  rcases mem_versions_append.mp inAll with early | late
  · exact (sup.rev_before early).le.trans (sup.rev_new mem)
  · exact newest w late sameKey

omit sup rep in
theorem headVersion_eq_none_of_value {h : List Entry} (absent : headValue h k = none) :
    headVersion (versions h) k = none := by
  rw [headValue, changes, ← headVersion_map_kv (fun v => rev_le_revisionOf) k,
    Option.map_eq_none_iff] at absent
  exact absent

theorem index_rewritten (rpl : Replaceable s before old new r) (k : Bytes) :
    (rewritten s new).get (idxKey k) =
      (headVersion (versions (before ++ new)) k).map (fun v => encodeRev v.rev) := by
  rcases sup.pointer rep k with ⟨same, unwritten, linked⟩ | ⟨v, mem, rfl, newest, pointed, -⟩ |
    ⟨e, inNew, unlinks, removed, earlier⟩
  · rw [same, rep.pebble.index, versions_append before new, headVersion_append_of_ne unwritten]
    by_cases written : ∃ u ∈ versions old, u.key = k
    · obtain ⟨u, inOld, sameKey⟩ := written
      have absent := headVersion_eq_none_of_value
        (rpl.absent u inOld (fun v mem => sameKey ▸ unwritten v mem))
      rw [sameKey] at absent
      rw [absent]
      cases head : headVersion (versions (before ++ old)) k with
      | none => rfl
      | some w =>
        have inOld := sup.mem_old_of_head inOld sameKey head
        obtain ⟨-, keyW, live⟩ := headVersion_eq_some head
        have heldIn := ((rep.pebble.indexed sup.oldHistory.logged).head k w head).2.2
        obtain ⟨e, inNew, -, unlinks⟩ := sup.unlinks_of_held rpl.txn inOld heldIn live
          (fun v mem _ => keyW ▸ unwritten v mem)
        exact absurd (keyW ▸ unlinks) (linked e inNew)
    · have other : ∀ u ∈ versions old, u.key ≠ k := fun u mem same => written ⟨u, mem, same⟩
      rw [versions_append, headVersion_append_of_ne other]
  · rw [pointed, sup.head_of_newest mem newest]
  · rw [removed]
    cases head : headVersion (versions (before ++ new)) k with
    | none => rfl
    | some v =>
      obtain ⟨u, inAll, heldIn, sameRev, rfl, live, -⟩ := unlinks
      obtain ⟨inAllNew, keyV, liveV⟩ := headVersion_eq_some head
      have inOld := sup.mem_of_rev inAll (sameRev ▸ sup.le_revision inNew)
      by_cases written : ∃ w ∈ versions new, w.key = u.key
      · obtain ⟨w, memW, keyW⟩ := written
        have inNew := sup.mem_new_of_head memW keyW head
        have newest : ∀ w ∈ versions new, w.key = v.key → w.rev ≤ v.rev := fun w memW same =>
          sup.newHistory.logged.headVersion_last head (by simp [versions_append, memW]) same
        have less := earlier v inNew keyV
        exact absurd heldIn (rpl.last v inNew liveV newest u inOld keyV.symm live (by omega))
      · have unwritten : ∀ w ∈ versions new, w.key ≠ u.key :=
          fun w memW same => written ⟨w, memW, same⟩
        have absent := headVersion_eq_none_of_value (rpl.absent u inOld unwritten)
        rw [versions_append, headVersion_append_of_ne unwritten, absent] at head
        cases head

theorem indexed_rewritten (rpl : Replaceable s before old new r) :
    Indexed (rewritten s new) (versions (before ++ new))
    (headVersion (versions (before ++ new))) := by
  refine ⟨sup.sound_rewritten rep rpl.txn, sup.index_rewritten rep rpl, ?_⟩
  intro k v head
  obtain ⟨mem, sameKey, live⟩ := headVersion_eq_some head
  refine ⟨mem, sameKey, ?_⟩
  rcases mem_versions_append.mp mem with early | late
  · rw [sup.get_slot_before rep early]
    have unwritten : ∀ w ∈ versions new, w.key ≠ k := by
      intro w memW same
      have low := sup.rev_before early
      have high := sup.rev_new (sup.mem_new_of_head memW same head)
      omega
    rw [versions_append, headVersion_append_of_ne unwritten] at head
    have other : ∀ u ∈ versions old, u.key ≠ k := by
      intro u memU same
      have absent := headVersion_eq_none_of_value
        (rpl.absent u memU (fun w memW => same ▸ unwritten w memW))
      rw [same, head] at absent
      cases absent
    have before' : headVersion (versions (before ++ old)) k = some v := by
      rw [versions_append, headVersion_append_of_ne other, head]
    exact ((rep.pebble.indexed sup.oldHistory.logged).head k v before').2.2
  · rw [sup.get_slot_new rep late]
    rfl

theorem visible_rewritten (t : Int) :
    visible (rewritten s new) (versions (before ++ new)) t =
      (keptOf s.db before ++ versions new).filter (fun v => v.rev ≤ t) := by
  rw [visible, versions_append, filter_append, filter_append, keptOf, filter_filter]
  congr 1
  · apply filter_congr
    intro v mem
    rw [sup.get_slot_before rep mem]
    simp [and_comm]
  · apply filter_congr
    intro v mem
    rw [sup.get_slot_new rep mem]
    simp

theorem valueAt_rewritten (k : Bytes) (t : Int) :
    Timeline.valueAt ((visible (rewritten s new) (versions (before ++ new)) t).map Version.toChange)
        k t =
      Timeline.valueAt ((keptOf s.db before).map Version.toChange ++ changes new) k t := by
  have commute : ((keptOf s.db before ++ versions new).filter (fun v => v.rev ≤ t)).map
      Version.toChange =
        ((keptOf s.db before).map Version.toChange ++ changes new).filter (fun c => c.rev ≤ t) := by
    rw [changes, ← map_append, filter_map]
    rfl
  rw [sup.visible_rewritten rep, commute, Timeline.valueAt_filter_le]

theorem valueAt_kept_below {t : Int} (early : t < r) (above : watermarkOf (before ++ old) ≤ t) :
    Timeline.valueAt ((keptOf s.db before).map Version.toChange) k t =
      Timeline.valueAt (changes before) k t := by
  have shown := rep.pebble.valueAt_visible sup.oldHistory.logged above k
  have late : ∀ u ∈ versions old, ¬ u.rev ≤ t := by
    intro u mem upTo
    have := (sup.rev_old mem).1
    omega
  have noneVisible : (versions old).filter (fun v => (s.db.get v.slot).isSome ∧ v.rev ≤ t) =
      [] := by
    rw [filter_eq_nil_iff]
    intro u mem
    simpa using fun _ => late u mem
  have commute : (visible s.db (versions (before ++ old)) t).map Version.toChange =
      ((keptOf s.db before).map Version.toChange).filter (fun c => c.rev ≤ t) := by
    rw [visible, versions_append, filter_append, noneVisible, append_nil, keptOf,
      filter_map, filter_filter]
    congr 1
    apply filter_congr
    intro v _
    rw [Bool.decide_and, Bool.and_comm, Bool.decide_eq_true]
    rfl
  rw [commute, Timeline.valueAt_filter_le, versions_append, map_append,
    Timeline.valueAt_append, if_neg] at shown
  · exact shown
  · intro found
    obtain ⟨c, mem, -, upTo⟩ := found
    obtain ⟨u, inOld, rfl⟩ := mem_map.mp mem
    exact late u inOld upTo

end Pebble

/-! ## Counters -/

theorem revisionOf_covers (sup : Supersedes before old new r) :
    revisionOf (before ++ old) ≤ revisionOf new := by
  obtain ⟨front, last, split⟩ := (eq_nil_or_concat' new).resolve_left sup.nonempty
  have at_ : new[front.length]? = some last := by simp [split]
  have number := sup.consecutive front.length last at_
  have upTo := le_revisionOf (h := new) (by simp [split]) (sup.data last (by simp [split]))
  have covers := sup.covers
  have length : new.length = front.length + 1 := by simp [split]
  omega

theorem pos (sup : Supersedes before old new r) : 0 < r := by
  obtain ⟨first, rest, split⟩ := exists_cons_of_ne_nil sup.nonempty
  have at_ : new[0]? = some first := by simp [split]
  have number := sup.consecutive 0 first at_
  have inNew : first ∈ new := by simp [split]
  have positive := ((sup.batch.storable first inNew).revision (sup.data first inNew)).1
  simp only [add_zero, Nat.cast_zero] at number
  omega

theorem revisionOf_new (sup : Supersedes before old new r) :
    revisionOf (before ++ new) = revisionOf new := by
  have covered := sup.revisionOf_covers
  rw [revisionOf_append] at covered ⊢
  omega

/-! ## Both directions -/

section Replaced

variable {s s' ref : Store} (sup : Supersedes before old new r)
  (rep : s.Represents (before ++ old)) (repRef : ref.Represents (before ++ new))
  (recovered : Recovered s new s')

include sup repRef

theorem compactRev_ref : ref.compactRev ≤ watermarkOf (before ++ old) := by
  rw [repRef.compactRev]
  refine (targetOf_le_watermarkOf _).trans (watermarkOf_append_le (watermarkOf_le_append _ _) ?_)
  intro e mem isCompact
  exact absurd isCompact (sup.data e mem)

theorem valueAt_ref {t : Int} (above : watermarkOf (before ++ old) ≤ t) (k : Bytes) :
    Timeline.valueAt ((visible ref.db (versions (before ++ new)) t).map Version.toChange) k t =
      Timeline.valueAt (changes before ++ changes new) k t := by
  have aboveRef : watermarkOf (before ++ new) ≤ t := by
    refine watermarkOf_append_le ((watermarkOf_le_append _ _).trans above) ?_
    intro e mem isCompact
    exact absurd isCompact (sup.data e mem)
  rw [repRef.pebble.valueAt_visible sup.newHistory.logged aboveRef, ← changes_append]
  rfl

omit repRef

include rep recovered

theorem currentRev_recovered : s'.currentRev = revisionOf new := by
  rw [recovered.currentRev, rep.currentRev]
  exact max_eq_right sup.revisionOf_covers

omit sup in
theorem compactRev_recovered : s'.compactRev ≤ watermarkOf (before ++ old) := by
  rw [recovered.compactRev, rep.compactRev]
  exact targetOf_le_watermarkOf _

theorem valueAt_recovered (k : Bytes) (t : Int) :
    Timeline.valueAt ((visible s'.db (versions (before ++ new)) t).map Version.toChange) k t =
      Timeline.valueAt ((keptOf s.db before).map Version.toChange ++ changes new) k t := by
  rw [visible_congr recovered.pebble]
  exact sup.valueAt_rewritten rep k t

omit recovered

theorem valueAt_kept (rpl : Replaceable s before old new r) {t : Int}
    (above : watermarkOf (before ++ old) ≤ t) (upTo : t ≤ revisionOf new) (k : Bytes) :
    Timeline.valueAt ((keptOf s.db before).map Version.toChange ++ changes new) k t =
      Timeline.valueAt (changes before ++ changes new) k t := by
  rw [Timeline.valueAt_append, Timeline.valueAt_append]
  split
  · rfl
  · rename_i unwritten
    by_cases early : t < r
    · exact sup.valueAt_kept_below rep early above
    · have later : ∀ v ∈ versions new, v.key = k → max (watermarkOf (before ++ old)) r < v.rev := by
        intro v mem sameKey
        by_contra upTo'
        refine unwritten ⟨v.toChange, mem_map.mpr ⟨v, mem, rfl⟩, sameKey, ?_⟩
        exact (not_lt.mp upTo').trans (max_le above (by omega))
      have same := rpl.kept k (by omega) later
      have below : ∀ v ∈ versions before, v.rev ≤ t := by
        intro v mem
        have := sup.rev_before mem
        omega
      rw [changes, ← headVersion_map_kv below k, ← same, headVersion_map_kv]
      intro v mem
      exact below v (mem_filter.mp mem).1

include repRef recovered

theorem replaced (rpl : Replaceable s before old new r) :
    Replaced s' ref (before ++ new) (watermarkOf (before ++ old)) := by
  have log := sup.newHistory.logged
  have indexed := (sup.indexed_rewritten rep rpl).congr recovered.pebble
  have indexedRef := repRef.pebble.indexed log
  have currentRev := sup.currentRev_recovered rep recovered
  have current : s'.currentRev = ref.currentRev := by
    rw [currentRev, repRef.currentRev, sup.revisionOf_new]
  have fits : s'.currentRev < 2 ^ 63 := by
    rw [currentRev, ← sup.revisionOf_new]
    exact sup.newHistory.revisionOf_fits
  have compact := compactRev_recovered rep recovered
  have compactRef := sup.compactRev_ref repRef
  have alike : ShowAlike s' ref (versions (before ++ new)) (versions (before ++ new))
      (watermarkOf (before ++ old)) := by
    intro k t _ above upTo
    rw [sup.valueAt_recovered rep recovered, sup.valueAt_ref repRef above]
    exact sup.valueAt_kept rep rpl above (currentRev ▸ upTo) k
  have get : ∀ k, s'.get k = ref.get k := by
    intro k
    rw [indexed.get log, indexedRef.get log]
  have list : ∀ pfx fromKey limit,
      s'.listRange pfx { fromKey, limit } = ref.listRange pfx { fromKey, limit } := by
    intro pfx fromKey limit
    rw [indexed.listHead log (fun v => rev_le_revisionOf),
      indexedRef.listHead log (fun v => rev_le_revisionOf)]
  refine ⟨alike.readsAlike indexed.sound log indexedRef.sound log current fits compact compactRef
    get list, indexed.sound, ?_⟩
  intro k pointer held
  rw [indexed.index] at held
  obtain ⟨v, head, same⟩ := Option.map_eq_some_iff.mp held
  obtain ⟨mem, sameKey, -⟩ := headVersion_eq_some head
  exact ⟨v, mem, sameKey, same.symm⟩

omit repRef in
theorem txn_of_log (logged : Sound s'.db (versions (before ++ new))) {e : Entry} (inNew : e ∈ new)
    (isSingle : e.op ≠ Op.txn) {u : Version} (inOld : u ∈ versions old)
    (sameRev : u.rev = e.revision) (inTxn : u.sub ≠ none) : ¬ u.HeldIn s.db := by
  intro heldIn
  have storable : u.Storable := sup.oldHistory.version_storable (by simp [versions_append, inOld])
  obtain ⟨value, held⟩ := Option.isSome_iff_exists.mp heldIn
  have untaken : ∀ x ∈ new, x.revision = u.rev → x.op ≠ Op.txn ∧ u.sub ≠ none := by
    intro x inNew' same
    rw [sup.eq_of_revision inNew' inNew (same.trans sameRev)]
    exact ⟨isSingle, inTxn⟩
  rw [← sup.get_slot_of_untaken rep storable untaken, rewritten,
    ← recovered.pebble _ u.slot_not_mem_metaKeys] at held
  rcases logged _ _ held with ⟨v, mem, bound⟩ | ⟨key, isIdx⟩ | isMeta
  · obtain ⟨sameSlot, -⟩ := Prod.mk.inj bound
    obtain ⟨revV, subV⟩ := Version.rev_of_slot storable
      (sup.newHistory.version_storable mem) sameSlot
    obtain ⟨x, inNew', inEntry, revX⟩ :=
      source (sup.mem_of_rev mem (revV ▸ (sup.rev_old inOld).1))
    have same := sup.eq_of_revision inNew' inNew (by omega)
    subst same
    exact inTxn (subV.trans (sub_of_single isSingle inEntry))
  · exact u.slot_ne_idxKey key isIdx
  · exact u.slot_not_mem_metaKeys isMeta

omit rep in
theorem head_of_removed (same : ∀ k, s'.get k = ref.get k) {k : Bytes}
    (removed : (rewritten s new).get (idxKey k) = none) :
    headVersion (versions (before ++ new)) k = none := by
  have shown := same k
  rw [rewritten, ← get_idxKey_congr recovered.pebble] at removed
  rw [Store.get_of_no_pointer removed, repRef.get sup.newHistory] at shown
  exact headVersion_eq_none_of_value (Except.ok.inj shown).symm

theorem absent_of_replaced {W : Int} (read : Replaced s' ref (before ++ new) W) {u : Version}
    (inOld : u ∈ versions old) (unwritten : ∀ v ∈ versions new, v.key ≠ u.key) :
    headVersion (versions before) u.key = none := by
  rw [← headVersion_append_of_ne unwritten, ← versions_append]
  rcases sup.pointer rep u.key with ⟨same, -, -⟩ | ⟨v, mem, sameKey, -⟩ | ⟨-, -, -, removed, -⟩
  · cases head : headVersion (versions (before ++ old)) u.key with
    | none =>
      refine sup.head_of_removed repRef recovered read.get ?_
      rw [same, rep.pebble.index, head]
      rfl
    | some w =>
      -- The pointer would be that of an old version, and `new` does not write the key.
      have oldW := sup.mem_old_of_head inOld rfl head
      have pointed : s'.db.get (idxKey u.key) = some (encodeRev w.rev) := by
        rw [get_idxKey_congr recovered.pebble]
        exact same.trans (by rw [rep.pebble.index, head]; rfl)
      obtain ⟨v, mem, keyV, sameRev⟩ := read.index _ _ pointed
      have intV := (sup.newHistory.version_storable mem).int64
      have intW := (sup.oldHistory.version_storable (v := w)
        (by simp [versions_append, oldW])).int64
      have revV := encodeRev_injective intW intV sameRev
      exact absurd keyV (unwritten v (sup.mem_of_rev mem (revV ▸ (sup.rev_old oldW).1)))
  · exact absurd sameKey (unwritten v mem)
  · exact sup.head_of_removed repRef recovered read.get removed

theorem last_of_replaced {W : Int} (read : Replaced s' ref (before ++ new) W) {v : Version}
    (inNew : v ∈ versions new) (live : v.change.op ≠ Op.delete)
    (newest : ∀ w ∈ versions new, w.key = v.key → w.rev ≤ v.rev) {u : Version}
    (inOld : u ∈ versions old) (sameKey : u.key = v.key) (liveU : u.change.op ≠ Op.delete)
    (later : v.rev < u.rev) : ¬ u.HeldIn s.db := by
  intro heldIn
  have txn := fun e mem isSingle u memU sameRev inTxn =>
    sup.txn_of_log rep recovered read.log (e := e) (u := u) mem isSingle memU sameRev inTxn
  have other : ∀ w ∈ versions new, w.rev = u.rev → w.key ≠ u.key := by
    intro w mem sameRev keyW
    have := newest w mem (keyW.trans sameKey)
    omega
  obtain ⟨e, memE, revE, unlinks⟩ := sup.unlinks_of_held txn inOld heldIn liveU other
  rcases sup.pointer rep u.key with ⟨-, unwritten, -⟩ | ⟨w, mem, keyW, -, -, linked⟩ |
    ⟨-, -, -, removed, -⟩
  · exact unwritten v inNew sameKey.symm
  · have := newest w mem (keyW.trans sameKey)
    exact linked e memE (by omega) unlinks
  · have absent := sup.head_of_removed repRef recovered read.get removed
    rw [sameKey, sup.head_of_newest inNew newest, Version.live, if_neg live] at absent
    cases absent

theorem kept_of_replaced (read : Replaced s' ref (before ++ new) (watermarkOf (before ++ old)))
    {k : Bytes} (upTo : max (watermarkOf (before ++ old)) r ≤ revisionOf new)
    (later : ∀ v ∈ versions new, v.key = k → max (watermarkOf (before ++ old)) r < v.rev) :
    headVersion (keptOf s.db before) k = headVersion (versions before) k := by
  have log := sup.newHistory.logged
  have positive := sup.pos
  have above := le_max_left (watermarkOf (before ++ old)) r
  have current := sup.currentRev_recovered rep recovered
  have currentRef : ref.currentRev = revisionOf new := by
    rw [repRef.currentRev, sup.revisionOf_new]
  have fits := sup.newHistory.revisionOf_fits
  rw [sup.revisionOf_new] at fits
  have compact := (compactRev_recovered rep recovered).trans above
  have compactRef := (sup.compactRev_ref repRef).trans above
  generalize instant : max (watermarkOf (before ++ old)) r = t at *
  have shown := read.getAt k t (by omega) above
  rw [read.log.getAt log (by omega) (by omega) compact (current ▸ upTo),
    Sound.getAt repRef.pebble.sound log (by omega) (by omega) compactRef (currentRef ▸ upTo),
    sup.valueAt_recovered rep recovered, sup.valueAt_ref repRef above] at shown
  have unwritten : ¬ ∃ c ∈ changes new, c.key = k ∧ c.rev ≤ t := by
    rintro ⟨c, mem, sameKey, upTo⟩
    obtain ⟨v, memV, rfl⟩ := mem_map.mp mem
    exact absurd upTo (not_le.mpr (later v memV sameKey))
  have below : ∀ v ∈ versions before, v.rev ≤ t := by
    intro v mem
    have := sup.rev_before mem
    omega
  have belowKept : ∀ v ∈ keptOf s.db before, v.rev ≤ t :=
    fun v mem => below v (mem_filter.mp mem).1
  have same := Except.ok.inj shown
  rw [Timeline.valueAt_append, Timeline.valueAt_append, if_neg unwritten, if_neg unwritten, changes,
    ← headVersion_map_kv below, ← headVersion_map_kv belowKept] at same
  refine sup.oldHistory.logged.headVersion_eq_of_kv ?_ ?_ same
  · intro v mem
    simp [versions_append, (mem_filter.mp mem).1]
  · intro v mem
    simp [versions_append, mem]

theorem replaceable (read : Replaced s' ref (before ++ new) (watermarkOf (before ++ old))) :
    Replaceable s before old new r := by
  refine ⟨?_, ?_, ?_, ?_⟩
  · intro e inNew isSingle u inOld sameRev inTxn
    exact sup.txn_of_log rep recovered read.log inNew isSingle inOld sameRev inTxn
  · intro u inOld unwritten
    rw [headValue, changes, ← headVersion_map_kv (fun v => rev_le_revisionOf),
      sup.absent_of_replaced rep repRef recovered read inOld unwritten]
    rfl
  · intro v inNew live newest u inOld sameKey liveU later
    exact sup.last_of_replaced rep repRef recovered read inNew live newest inOld sameKey liveU later
  · intro k upTo later
    exact sup.kept_of_replaced rep repRef recovered read upTo later

end Replaced

end Supersedes

/-- **When a newer term replaces an older one.** Feed a store `before ++ old` in any
batches and recover `new`: it reads like a store of `before ++ new`, and holds nothing else,
exactly if it was replaceable. -/
theorem recover_replaces_iff {before old new : List Entry} {r : Int}
    (sup : Supersedes before old new r) (batches batchesRef : List (FeedBy × List Entry))
    (holds : batches.flatMap Prod.snd = before ++ old)
    (holdsRef : batchesRef.flatMap Prod.snd = before ++ new) :
    ∃ s ref s', Store.empty.feed batches = .ok s ∧ Store.empty.feed batchesRef = .ok ref ∧
      s.recover new = (s', none) ∧
      (Replaced s' ref (before ++ new) (watermarkOf (before ++ old)) ↔
        Replaceable s before old new r) := by
  obtain ⟨s, fed, rep⟩ := Store.represents_empty.feed batches
    (by simpa [holds] using sup.oldHistory)
  obtain ⟨ref, fedRef, repRef⟩ := Store.represents_empty.feed batchesRef
    (by simpa [holdsRef] using sup.newHistory)
  rw [nil_append, holds] at rep
  rw [nil_append, holdsRef] at repRef
  obtain ⟨s', ran, recovered⟩ := sup.batch.recover sup.nonempty s
  exact ⟨s, ref, s', fed, fedRef, ran, sup.replaceable rep repRef recovered,
    sup.replaced rep repRef recovered⟩

def firstCreate : Entry :=
  { id := 1, revision := 1, term := 1, op := Op.create, key := [1], value := [7],
    createRevision := 1, version := 1 }

def otherCreate : Entry :=
  { id := 2, revision := 2, term := 1, op := Op.create, key := [2], value := [8],
    createRevision := 2, version := 1 }

/-- The old term updates the key of `firstCreate` at revision 2. -/
def firstUpdate : Entry :=
  { id := 2, revision := 2, term := 1, op := Op.update, key := [1], value := [8],
    createRevision := 1, prevRevision := 1, version := 2 }

def newCreate : Entry :=
  { id := 2, revision := 2, term := 2, op := Op.create, key := [3], value := [9],
    createRevision := 2, version := 1 }

theorem chained_firstCreate_then {e : Entry} (follows : Follows [firstCreate] e) :
    Chained [firstCreate, e] := by
  refine .snoc (h := [firstCreate]) (.snoc (h := []) .nil ?_) follows
  exact ⟨by decide, by decide, fun _ => ⟨_, .single (by decide), by decide +kernel⟩⟩

theorem chained_newCreate : Chained [firstCreate, newCreate] :=
  chained_firstCreate_then
    ⟨by decide, by decide, fun _ => ⟨_, .single (by decide), by decide +kernel⟩⟩

theorem chained_firstUpdate : Chained [firstCreate, firstUpdate] :=
  chained_firstCreate_then
    ⟨by decide, by decide, fun _ => ⟨_, .single (by decide), by decide +kernel⟩⟩

theorem supersedes_newCreate {e : Entry} (chained : Chained [firstCreate, e])
    (data : e.op ≠ Op.compact) (second : e.revision = 2) :
    Supersedes [firstCreate] [e] [newCreate] 2 := by
  have reached : revisionOf ([firstCreate] ++ [e]) = 2 := by
    have single : revisionOf [e] = 2 := by simp [revisionOf, data, second]
    rw [revisionOf_append, single]
    decide
  refine ⟨chained.wellFormed, chained_newCreate.wellFormed, by decide, ?_, by decide, ?_, ?_, ?_⟩
  · intro x mem _
    rw [mem_singleton.mp mem, second]
  · intro i x at_
    cases i with
    | zero =>
      cases at_
      rfl
    | succ i => cases at_
  · rw [reached]
  · rw [reached]
    decide

theorem recover_replaces_otherCreate :
    ∃ s ref s', Store.empty.feed [(.apply, [firstCreate, otherCreate])] = .ok s ∧
      Store.empty.feed [(.apply, [firstCreate, newCreate])] = .ok ref ∧
      s.recover [newCreate] = (s', none) ∧ Replaced s' ref [firstCreate, newCreate] 0 := by
  have chained : Chained [firstCreate, otherCreate] :=
    chained_firstCreate_then
      ⟨by decide, by decide, fun _ => ⟨_, .single (by decide), by decide +kernel⟩⟩
  obtain ⟨s, ref, s', fed, fedRef, ran, read⟩ := recover_replaces_iff
    (supersedes_newCreate chained (by decide) rfl)
    [(.apply, [firstCreate, otherCreate])] [(.apply, [firstCreate, newCreate])] rfl rfl
  have logged : (Store.empty.feed [(.apply, [firstCreate, otherCreate])]).toOption.map
      (fun s => (s.db.get (logKey 1)).isSome) = some true := by
    decide +kernel
  rw [fed] at logged
  have kept : keptOf s.db [firstCreate] = versions [firstCreate] := by
    refine filter_eq_self.mpr ?_
    intro v mem
    rw [mem_singleton.mp mem]
    exact Option.some.inj logged
  refine ⟨s, ref, s', fed, fedRef, ran, read.mpr ⟨?_, by decide, ?_, ?_⟩⟩
  · intro e _ _ u mem _ inTxn
    rw [mem_singleton.mp mem] at inTxn
    exact absurd rfl inTxn
  · intro v memV _ _ u memU sameKey
    rw [mem_singleton.mp memV, mem_singleton.mp memU] at sameKey
    exact absurd sameKey (by decide)
  · intro k _ _
    rw [kept]

/-- `Recover` removes the pointer to the superseded update, and the version before it is
not found again. -/
theorem firstUpdate_lost :
    Chained [firstCreate, firstUpdate] ∧ Chained [firstCreate, newCreate] ∧
    Supersedes [firstCreate] [firstUpdate] [newCreate] 2 ∧
    (Store.empty.feed [(.apply, [firstCreate, firstUpdate])]).toOption.map
      (fun s => (s.recover [newCreate]).1.get [1]) = some (.ok none) ∧
    (Store.empty.feed [(.apply, [firstCreate, newCreate])]).toOption.map
      (fun ref => ref.get [1]) = some (.ok (some
        { key := [1], value := [7], revision := 1, createRevision := 1, version := 1 })) :=
  ⟨chained_firstUpdate, chained_newCreate,
    supersedes_newCreate chained_firstUpdate (by decide) rfl, by decide +kernel, by decide +kernel⟩

end T4.Mvcc
