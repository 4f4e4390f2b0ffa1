import T4.Store.Represents

/-!
# Reads are exact

HEAD reads go through the index, historical reads through a scan of the log, and
compaction thins the log. On a store that represents a history all of them agree
with the timeline of that history: point reads with `Timeline.valueAt`, range
reads with `Timeline.liveAt`, cut to prefix, start key and limit (`rangeAt`).
-/

namespace T4.Mvcc

open Lib Bytes SortedMap Wal List

/-! ## The specification of range reads -/

/-- At most `limit` elements, if the limit is positive. -/
def cut {α : Type*} (limit : Int) (l : List α) : List α :=
  if limit > 0 then l.take limit.toNat else l

/-- What a loop that appends to `out` until the limit is reached ends with. -/
def fill {α : Type*} (limit : Int) (out l : List α) : List α :=
  if limit > 0 then out ++ l.take (limit.toNat - out.length) else out ++ l

section Fill

variable {α : Type*} {limit : Int} {out l : List α}

theorem fill_nil (limit : Int) (l : List α) : fill limit [] l = cut limit l := by
  simp [fill, cut]

theorem fill_empty (limit : Int) (out : List α) : fill limit out [] = out := by
  simp [fill]

theorem fill_full (full : limit > 0 ∧ (out.length : Int) ≥ limit) : fill limit out l = out := by
  have none : limit.toNat - out.length = 0 := by omega
  rw [fill, if_pos full.1, none, take_zero, append_nil]

theorem fill_cons (room : ¬ (limit > 0 ∧ (out.length : Int) ≥ limit)) (x : α) :
    fill limit out (x :: l) = fill limit (out ++ [x]) l := by
  unfold fill
  split
  · rename_i positive
    have one : limit.toNat - out.length = (limit.toNat - (out ++ [x]).length) + 1 := by
      rw [length_append, length_singleton]
      omega
    rw [one, take_succ_cons, append_assoc]
    rfl
  · rw [append_assoc]
    rfl

end Fill

/-- The live keys as of `t` with prefix `pfx` from `fromKey` on, in byte order. -/
def selectAt (h : List Entry) (t : Int) (pfx fromKey : Bytes) : List (Bytes × KeyValue) :=
  (Timeline.liveAt (changes h) t).filter (fun e => pfx <+: e.1 ∧ fromKey ≤ e.1)

def rangeAt (h : List Entry) (t : Int) (pfx fromKey : Bytes) (limit : Int) : List KeyValue :=
  cut limit ((selectAt h t pfx fromKey).map Prod.snd)

/-! ## Records and versions -/

theorem Version.Storable.toKV {v : Version} (storable : v.Storable) :
    recordToKV v.key v.rev v.record = v.kv := by
  have pos := storable.version
  have version : recordVersion v.record = v.change.version := by
    have stored : v.record.version = v.change.version := by
      rw [Version.record, txnRecord, entryVersion, if_pos pos]
    rw [recordVersion, stored, if_pos pos]
  unfold recordToKV Version.kv
  rw [version]
  rfl

theorem Version.record_delete (v : Version) :
    v.record.delete = decide (v.change.op = Op.delete) := rfl

variable {t : Int} {s : Store}

theorem headVersion_map_kv {vs : List Version} (upTo : ∀ v ∈ vs, v.rev ≤ t) (k : Bytes) :
    (headVersion vs k).map Version.kv = Timeline.valueAt (vs.map Version.toChange) k t := by
  induction vs using reverseRecOn with
  | nil => rfl
  | append_singleton vs v ih =>
    have here := upTo v (by simp)
    rw [headVersion_snoc, map_append, map_singleton,
      Timeline.valueAt_append_singleton, ← ih (fun w mem => upTo w (by simp [mem]))]
    by_cases same : v.key = k
    · have hit : v.toChange.key = k ∧ v.toChange.rev ≤ t := ⟨same, here⟩
      rw [if_pos same, if_pos hit, Version.toChange]
      split <;> rfl
    · rw [if_neg same, if_neg (fun hit => same hit.1)]

/-! ## Point reads through the index -/

section Index

variable {db : Pebble} {vs : List Version} {W : Int}

variable {k : Bytes} {v : Version}

theorem headVersion_eq_some (head : headVersion vs k = some v) :
    v ∈ vs ∧ v.key = k ∧ v.change.op ≠ Op.delete := by
  unfold headVersion at head
  obtain ⟨found, live⟩ := Option.filter_eq_some_iff.mp head
  have mem := mem_of_find?_eq_some found
  have hit := find?_some found
  exact ⟨mem_reverse.mp mem, by simpa using hit, by simpa using live⟩

theorem Logged.le_of_find (log : Logged vs)
    (found : vs.reverse.find? (fun v => v.key = k) = some v) {later : Version} (mem : later ∈ vs)
    (sameKey : later.key = k) : later.rev ≤ v.rev := by
  obtain ⟨hit, early, late, split, misses⟩ := find?_eq_some_iff_append.mp found
  have reversed := pairwise_reverse.mpr log.before
  have inReverse : later ∈ vs.reverse := mem_reverse.mpr mem
  rw [split] at inReverse reversed
  rcases mem_append.mp inReverse with newer | older
  · have miss := misses later newer
    simp [sameKey] at miss
  · rcases mem_cons.mp older with rfl | older
    · exact le_rfl
    · exact ((pairwise_cons.mp (pairwise_append.mp reversed).2.1).1 later older).rev

theorem Logged.headVersion_last (log : Logged vs) (head : headVersion vs k = some v)
    {later : Version} (mem : later ∈ vs) (sameKey : later.key = v.key) : later.rev ≤ v.rev := by
  have sameHead := (headVersion_eq_some head).2.1
  obtain ⟨found, -⟩ := Option.filter_eq_some_iff.mp head
  exact log.le_of_find found mem (sameKey.trans sameHead)

theorem Logged.eq_of_key_rev (log : Logged vs) {v w : Version} (memV : v ∈ vs) (memW : w ∈ vs)
    (sameKey : v.key = w.key) (sameRev : v.rev = w.rev) : v = w := by
  by_contra differ
  have apart := Pairwise.forall_of_forall_of_flip
    (R := fun v w : Version => v ≠ w → v.key = w.key → v.rev ≠ w.rev) (l := vs) (by simp)
    (log.before.imp (fun before _ same => (before.key same).ne))
    (log.before.imp (fun before _ same => (before.key same.symm).ne')) memV memW
  exact apart differ sameKey sameRev

theorem Logged.headVersion_eq_of_kv (log : Logged vs) {xs ys : List Version}
    (memXs : ∀ v ∈ xs, v ∈ vs) (memYs : ∀ v ∈ ys, v ∈ vs)
    (same : (headVersion xs k).map Version.kv = (headVersion ys k).map Version.kv) :
    headVersion xs k = headVersion ys k := by
  cases headX : headVersion xs k with
  | none =>
    rw [headX] at same
    exact (Option.map_eq_none_iff.mp same.symm).symm
  | some v =>
    rw [headX] at same
    obtain ⟨w, headY, sameKV⟩ := Option.map_eq_some_iff.mp same.symm
    obtain ⟨memV, keyV, -⟩ := headVersion_eq_some headX
    obtain ⟨memW, keyW, -⟩ := headVersion_eq_some headY
    have sameRev : w.rev = v.rev := congrArg KeyValue.revision sameKV
    rw [headY, log.eq_of_key_rev (memXs v memV) (memYs w memW) (keyV.trans keyW.symm) sameRev.symm]

theorem Logged.headVersion_eq_live (log : Logged vs) (mem : v ∈ vs)
    (newest : ∀ w ∈ vs, w.key = v.key → w.rev ≤ v.rev) : headVersion vs v.key = v.live := by
  cases found : vs.reverse.find? (fun w => w.key = v.key) with
  | none =>
    have miss := find?_eq_none.mp found v (mem_reverse.mpr mem)
    simp at miss
  | some w =>
    have inVs := mem_reverse.mp (mem_of_find?_eq_some found)
    have sameKey : w.key = v.key := by simpa using find?_some found
    have same : w = v := log.eq_of_key_rev inVs mem sameKey
      (le_antisymm (newest w inVs sameKey) (log.le_of_find found mem rfl))
    rw [headVersion, found, same, Version.live]
    by_cases deleted : v.change.op = Op.delete <;> simp [deleted]

theorem headVersion_append_of_ne {new : List Version} (other : ∀ v ∈ new, v.key ≠ k) :
    headVersion (vs ++ new) k = headVersion vs k := by
  have none : new.reverse.find? (fun v => v.key = k) = none := by
    rw [find?_eq_none]
    intro v mem
    simpa using other v (mem_reverse.mp mem)
  rw [headVersion, reverse_append, find?_append, none, Option.none_or]
  rfl

theorem Logged.eq_of_sub_none (log : Logged vs) {v w : Version} (memV : v ∈ vs) (memW : w ∈ vs)
    (sameRev : v.rev = w.rev) (single : w.sub = none) : v = w := by
  by_contra differ
  have apart := Pairwise.forall_of_forall_of_flip
    (R := fun v w : Version => v ≠ w → v.rev = w.rev → v.sub ≠ none ∧ w.sub ≠ none) (l := vs)
    (by simp) (log.before.imp (fun before _ same => before.sub same))
    (log.before.imp (fun before _ same => (before.sub same.symm).symm)) memV memW
  exact (apart differ sameRev).2 single

theorem findSubOp_bindings (found : List Version) (storable : ∀ v ∈ found, v.Storable)
    (key : Bytes) (rev : Int) :
    findSubOp key rev (found.map Version.binding) =
      (found.find? (fun v => v.key = key)).map (fun v => recordToKV key rev v.record) := by
  induction found with
  | nil => rfl
  | cons v rest ih =>
    have here := (storable v (by simp)).unmarshal
    have later := ih (fun w mem => storable w (mem_cons_of_mem v mem))
    have sameKey : v.record.key = v.key := rfl
    rw [map_cons, Version.binding, findSubOp, here, find?_cons]
    by_cases same : v.key = key
    · simp [sameKey, same]
    · simpa [sameKey, same] using later

theorem Sound.get_logKey_of_sub (sound : Sound db vs) (log : Logged vs) (mem : v ∈ vs)
    (inTxn : v.sub ≠ none) : db.get (logKey v.rev) = none := by
  cases single : db.get (logKey v.rev) with
  | none => rfl
  | some value =>
    rcases sound _ _ single with inLog | idx | isMeta
    · obtain ⟨w, memW, bound⟩ := inLog
      have slots : slotKey v.rev none = slotKey w.rev w.sub := (Prod.mk.inj bound).1
      have storableW := log.storable w memW
      obtain ⟨sameRev, sameSub⟩ := slotKey_injective (log.storable v mem).int64 storableW.int64
        (by simp) storableW.sub slots
      have same := log.eq_of_sub_none mem memW sameRev sameSub.symm
      exact absurd (same ▸ sameSub.symm) inTxn
    · obtain ⟨key, same⟩ := idx
      exact absurd same (slotKey_ne_idxKey v.rev none key)
    · exact absurd isMeta (slotKey_not_mem_metaKeys v.rev none)

theorem Logged.find_sub (log : Logged vs) (mem : v ∈ vs) (present : (db.get v.slot).isSome)
    (inTxn : v.sub ≠ none) :
    (vs.filter (fun w => (db.get w.slot).isSome ∧ logKeyWithSub v.rev 0 ≤ w.slot ∧
      w.slot < logKey (v.rev + 1))).find? (fun w => w.key = v.key) = some v := by
  have storable := log.storable v mem
  have between : ∀ w ∈ vs, logKeyWithSub v.rev 0 ≤ w.slot ∧ w.slot < logKey (v.rev + 1) ↔
      w.rev = v.rev ∧ w.sub ≠ none := by
    intro w memW
    have storableW := log.storable w memW
    exact mem_subRange storable.pos.le storable.fits storableW.pos.le storableW.fits w.sub
  cases search : (vs.filter (fun w => (db.get w.slot).isSome ∧ logKeyWithSub v.rev 0 ≤ w.slot ∧
      w.slot < logKey (v.rev + 1))).find? (fun w => w.key = v.key) with
  | none =>
    rw [find?_eq_none] at search
    have here : v ∈ vs.filter (fun w => (db.get w.slot).isSome ∧ logKeyWithSub v.rev 0 ≤ w.slot ∧
        w.slot < logKey (v.rev + 1)) := by
      rw [mem_filter, decide_eq_true_iff, between v mem]
      exact ⟨mem, present, rfl, inTxn⟩
    have miss := search v here
    simp at miss
  | some w =>
    have inFilter := mem_of_find?_eq_some search
    have sameKey : w.key = v.key := by simpa using find?_some search
    rw [mem_filter, decide_eq_true_iff] at inFilter
    have sameRev := ((between w inFilter.1).mp inFilter.2.2).1
    rw [log.eq_of_key_rev inFilter.1 mem sameKey sameRev]

theorem getLogEntry_of_single {key value : Bytes} {rev : Int} {r : Record}
    (held : db.get (logKey rev) = some value) (decoded : unmarshalRecord value = .ok r) :
    getLogEntry db key rev = .ok (recordToKV key rev r) := by
  unfold getLogEntry
  rw [held]
  simp only [decoded]

theorem getLogEntry_of_sub {key : Bytes} {rev : Int} {kv : KeyValue}
    (absent : db.get (logKey rev) = none)
    (found : findSubOp key rev (db.range (logKeyWithSub rev 0) (logKey (rev + 1))) = some kv) :
    getLogEntry db key rev = .ok kv := by
  unfold getLogEntry
  rw [absent]
  simp only [found]

/-- The log entry of a version that is still there, found by key and revision. -/
theorem Sound.getLogEntry (sound : Sound db vs) (log : Logged vs) (mem : v ∈ vs)
    (present : (db.get v.slot).isSome) : Mvcc.getLogEntry db v.key v.rev = .ok v.kv := by
  have storable := log.storable v mem
  by_cases inTxn : v.sub = none
  · have slot : v.slot = logKey v.rev := by
      rw [Version.slot, inTxn, slotKey]
    have held := sound.get_slot log mem present
    rw [slot] at held
    rw [getLogEntry_of_single held storable.unmarshal, storable.toKV]
  · have range := sound.range_slots log (fun key => idxKey_lt_logKeyWithSub key v.rev 0)
      (fun k isMeta => logKey_lt_metaKey isMeta (v.rev + 1))
    have scanned := findSubOp_bindings (vs.filter (fun w => (db.get w.slot).isSome ∧
      logKeyWithSub v.rev 0 ≤ w.slot ∧ w.slot < logKey (v.rev + 1)))
      (fun w inFilter => log.storable w (mem_filter.mp inFilter).1) v.key v.rev
    rw [← range, log.find_sub mem present inTxn, Option.map_some, storable.toKV] at scanned
    exact getLogEntry_of_sub (sound.get_logKey_of_sub log mem inTxn) scanned

/-- The index points to versions that are in the log. -/
structure Indexed (db : Pebble) (vs : List Version) (heads : Bytes → Option Version) : Prop where
  sound : Sound db vs
  index : ∀ k, db.get (idxKey k) = (heads k).map (fun v => encodeRev v.rev)
  head : ∀ k v, heads k = some v → v ∈ vs ∧ v.key = k ∧ (db.get v.slot).isSome

theorem Represents.indexed (rep : Represents db vs W) (log : Logged vs) :
    Indexed db vs (headVersion vs) := by
  refine ⟨rep.sound, rep.index, ?_⟩
  intro k v head
  obtain ⟨mem, sameKey, -⟩ := headVersion_eq_some head
  have held := rep.complete v mem (by
    intro later laterMem sameKey newer
    have := log.headVersion_last head laterMem sameKey
    omega)
  exact ⟨mem, sameKey, Option.isSome_iff_exists.mpr ⟨_, held⟩⟩

variable {heads : Bytes → Option Version}

theorem Indexed.getLogEntry (indexed : Indexed db vs heads) (log : Logged vs)
    (head : heads k = some v) : Mvcc.getLogEntry db k v.rev = .ok v.kv := by
  obtain ⟨mem, sameKey, present⟩ := indexed.head k v head
  rw [← sameKey]
  exact indexed.sound.getLogEntry log mem present

theorem Indexed.getIdxRev (indexed : Indexed db vs heads) (log : Logged vs) (k : Bytes) :
    Mvcc.getIdxRev db k = ((heads k).map Version.rev).getD 0 := by
  unfold Mvcc.getIdxRev
  rw [indexed.index k]
  cases head : heads k with
  | none => rfl
  | some v =>
    have storable := log.storable v (indexed.head k v head).1
    rw [Option.map_some, Option.map_some, Option.map_some, Option.getD_some, Option.getD_some]
    exact decodeRev_encodeRev storable.int64

end Index

/-! ## Range reads through the index -/

section IndexRange

variable {db : Pebble} {vs : List Version} {W t : Int}

theorem valueAt_eq_some_iff (upTo : ∀ v ∈ vs, v.rev ≤ t) {k : Bytes} {kv : KeyValue} :
    Timeline.valueAt (vs.map Version.toChange) k t = some kv ↔
      ∃ v, headVersion vs k = some v ∧ v.kv = kv := by
  rw [← headVersion_map_kv upTo k, Option.map_eq_some_iff]

theorem lower_eq (pfx fromKey : Bytes) :
    ∃ lower, (idxBounds pfx fromKey).1 = idxKey lower ∧ pfx ≤ lower ∧
      ∀ key, pfx ≤ key → (lower ≤ key ↔ fromKey ≤ key) := by
  have order : idxKey fromKey > idxKey pfx ↔ pfx < fromKey := by
    rw [gt_iff_lt, idxKey, idxKey, cons_lt_cons_iff]
    simp
  unfold idxBounds
  by_cases raised : fromKey ≠ [] ∧ idxKey fromKey > idxKey pfx
  · refine ⟨fromKey, by simp only [if_pos raised], (order.mp raised.2).le, ?_⟩
    intro key _
    rfl
  · refine ⟨pfx, by simp only [if_neg raised], le_rfl, ?_⟩
    intro key atLeast
    refine iff_of_true atLeast ?_
    by_cases empty : fromKey = []
    · rw [empty, ← not_lt]
      exact not_lt_nil key
    · have below : fromKey ≤ pfx := by
        by_contra above
        exact raised ⟨empty, order.mpr (not_le.mp above)⟩
      exact below.trans atLeast

theorem isPrefix_le {pfx key : Bytes} (extends_ : pfx <+: key) : pfx ≤ key :=
  ((isPrefix_iff_between pfx key).mp extends_).1

/-- The index scan meets the selected live keys with their revisions, in order. -/
theorem Indexed.range_index (indexed : Indexed db vs (headVersion vs))
    (upTo : ∀ v ∈ vs, v.rev ≤ t) (pfx fromKey : Bytes) :
    db.range (idxBounds pfx fromKey).1 (idxBounds pfx fromKey).2 =
      ((Timeline.liveAt (vs.map Version.toChange) t).filter
        (fun e => pfx <+: e.1 ∧ fromKey ≤ e.1)).map
          (fun e => (idxKey e.1, encodeRev e.2.revision)) := by
  obtain ⟨lower, bound, atLeast, same⟩ := lower_eq pfx fromKey
  have upper : (idxBounds pfx fromKey).2 = idxKeyUpper pfx := rfl
  have selected : ∀ key, idxKey lower ≤ idxKey key ∧ idxKey key < idxKeyUpper pfx ↔
      pfx <+: key ∧ fromKey ≤ key := by
    intro key
    rw [mem_idxRange pfx lower key atLeast]
    constructor
    · intro within
      exact ⟨within.2, (same key (isPrefix_le within.2)).mp within.1⟩
    · intro within
      exact ⟨(same key (isPrefix_le within.1)).mpr within.2, within.1⟩
  rw [bound, upper]
  apply eq_of_sorted (range_sorted db _ _)
  · rw [pairwise_map]
    refine ((Timeline.liveAt_sorted _ t).filter _).imp ?_
    intro a b less
    exact cons_lt_cons_iff.mpr (Or.inr ⟨rfl, less⟩)
  intro k value
  rw [SortedMap.mem_range, mem_map]
  constructor
  · intro met
    obtain ⟨held, low, high⟩ := met
    rcases indexed.sound k value held with inLog | idx | isMeta
    · obtain ⟨v, -, at_⟩ := inLog
      obtain ⟨rfl, -⟩ := Prod.mk.inj at_
      exact absurd high (idxKeyUpper_lt_slotKey pfx v.rev v.sub).not_gt
    · obtain ⟨key, rfl⟩ := idx
      rw [indexed.index key] at held
      obtain ⟨v, head, encoded⟩ := Option.map_eq_some_iff.mp held
      refine ⟨(key, v.kv), ?_, by rw [← encoded]; rfl⟩
      rw [mem_filter, decide_eq_true_iff]
      exact ⟨Timeline.mem_liveAt.mpr ((valueAt_eq_some_iff upTo).mpr ⟨v, head, rfl⟩),
        (selected key).mp ⟨low, high⟩⟩
    · exact absurd high (idxKeyUpper_lt_metaKey isMeta pfx).not_gt
  · intro found
    obtain ⟨⟨key, kv⟩, inList, pair⟩ := found
    obtain ⟨rfl, rfl⟩ := Prod.mk.inj pair
    rw [mem_filter, decide_eq_true_iff] at inList
    obtain ⟨v, head, rfl⟩ := (valueAt_eq_some_iff upTo).mp (Timeline.mem_liveAt.mp inList.1)
    refine ⟨?_, (selected key).mpr inList.2⟩
    rw [indexed.index key, head]
    rfl

theorem listIndex_eq (limit : Int) (found : List (Bytes × KeyValue))
    (readable : ∀ e ∈ found, IsInt64 e.2.revision ∧
      getLogEntry db e.1 e.2.revision = .ok e.2) (out : List KeyValue) :
    listIndex db limit (found.map (fun e => (idxKey e.1, encodeRev e.2.revision))) out =
      .ok (fill limit out (found.map Prod.snd)) := by
  induction found generalizing out with
  | nil => rw [map_nil, map_nil, listIndex, fill_empty]
  | cons e rest ih =>
    obtain ⟨range, entry⟩ := readable e (by simp)
    have later := ih (fun other mem => readable other (mem_cons_of_mem e mem))
    have key : (idxKey e.1).drop 1 = e.1 := rfl
    rw [map_cons, listIndex, key, decodeRev_encodeRev range, entry, map_cons]
    by_cases full : limit > 0 ∧ (out.length : Int) ≥ limit
    · rw [if_pos full, fill_full full]
    · rw [if_neg full, fill_cons full]
      exact later (out ++ [e.2])

end IndexRange

/-! ## Reads through the log -/

section Log

variable {db : Pebble} {vs : List Version} {W t : Int}

/-- The versions up to revision `t` that are still in the log. -/
def visible (db : Pebble) (vs : List Version) (t : Int) : List Version :=
  vs.filter (fun v => (db.get v.slot).isSome ∧ v.rev ≤ t)

theorem mem_visible {v : Version} :
    v ∈ visible db vs t ↔ v ∈ vs ∧ (db.get v.slot).isSome ∧ v.rev ≤ t := by
  simp [visible]

theorem Sound.range_visible (sound : Sound db vs) (log : Logged vs) {lo : Int}
    (low : 0 ≤ lo ∧ lo ≤ 1) (nonneg : 0 ≤ t) (fits : t < 2 ^ 63) :
    db.range (logKey lo) (logKey (t + 1)) = (visible db vs t).map Version.binding := by
  have first := uint64_of_nonneg low.1 (by omega : lo < 2 ^ 64)
  have next := uint64_of_nonneg (by omega : 0 ≤ t + 1) (by omega : t + 1 < 2 ^ 64)
  rw [sound.range_log log, logged, visible]
  congr 1
  apply filter_congr
  intro v mem
  have storable := log.storable v mem
  have word := storable.uint64
  have pos := storable.pos
  apply decide_eq_decide.mpr
  refine and_congr_right (fun _ => ?_)
  omega

theorem Represents.thins (rep : Represents db vs W) (above : W ≤ t) :
    Timeline.Thins W ((visible db vs t).map Version.toChange)
      ((vs.map Version.toChange).filter (fun c => c.rev ≤ t)) := by
  have commute : (vs.map Version.toChange).filter (fun c => c.rev ≤ t) =
      (vs.filter (fun v => v.rev ≤ t)).map Version.toChange := by
    rw [filter_map]
    rfl
  rw [commute]
  refine ⟨?_, ?_⟩
  · refine List.Sublist.map _ (monotone_filter_right vs ?_)
    intro v seen
    rw [decide_eq_true_iff] at seen ⊢
    exact seen.2
  · intro c mem dropped
    obtain ⟨v, inFilter, rfl⟩ := mem_map.mp mem
    rw [mem_filter, decide_eq_true_iff] at inFilter
    obtain ⟨inVs, upTo⟩ := inFilter
    by_contra none
    apply dropped
    have held := rep.complete v inVs (by
      intro later laterMem sameKey newer
      by_contra covered
      apply none
      refine ⟨later.toChange, mem_map.mpr ⟨later, ?_, rfl⟩, sameKey, newer, not_lt.mp covered⟩
      rw [mem_filter, decide_eq_true_iff]
      exact ⟨laterMem, (not_lt.mp covered).trans above⟩)
    exact mem_map.mpr
      ⟨v, mem_visible.mpr ⟨inVs, Option.isSome_iff_exists.mpr ⟨_, held⟩, upTo⟩, rfl⟩

/-- At or above the watermark the visible versions show what the history shows. -/
theorem Represents.valueAt_visible (rep : Represents db vs W) (log : Logged vs) (above : W ≤ t)
    (k : Bytes) :
    Timeline.valueAt ((visible db vs t).map Version.toChange) k t =
      Timeline.valueAt (vs.map Version.toChange) k t := by
  have ordered : Timeline.Ordered (vs.map Version.toChange) :=
    pairwise_map.mpr (log.before.imp Version.Before.key)
  rw [(rep.thins above).valueAt (List.Pairwise.filter _ ordered) above,
    Timeline.valueAt_filter_le]

theorem lastVersionScan_cons {k value key : Bytes} {r : Record} (rest : List (Bytes × Bytes))
    (decoded : unmarshalRecord value = .ok r) :
    lastVersionScan key ((k, value) :: rest) =
      if r.key ≠ key then lastVersionScan key rest
      else if r.delete then .ok none
      else .ok (some (recordToKV r.key (decodeLogKey k) r)) := by
  rw [lastVersionScan, decoded]

theorem lastVersionScan_bindings {found : List Version} (storable : ∀ v ∈ found, v.Storable)
    (upTo : ∀ v ∈ found, v.rev ≤ t) (key : Bytes) :
    lastVersionScan key (found.map Version.binding).reverse =
      .ok (Timeline.valueAt (found.map Version.toChange) key t) := by
  induction found using reverseRecOn with
  | nil => rfl
  | append_singleton found v ih =>
    have here := storable v (by simp)
    have last := upTo v (by simp)
    have earlier := ih (fun w mem => storable w (by simp [mem]))
        (fun w mem => upTo w (by simp [mem]))
    rw [map_append, map_singleton, reverse_append, reverse_singleton,
      singleton_append, map_append, map_singleton,
      Timeline.valueAt_append_singleton, Version.binding,
      lastVersionScan_cons _ here.unmarshal, here.decodeLogKey, Version.record_delete, earlier]
    have sameRecord : v.record.key = v.key := rfl
    rw [sameRecord, here.toKV]
    by_cases same : v.key = key
    · have hit : v.toChange.key = key ∧ v.toChange.rev ≤ t := ⟨same, last⟩
      rw [if_neg (fun differ => differ same), if_pos hit, Version.toChange]
      by_cases deleted : v.change.op = Op.delete
      · simp only [deleted, decide_true, if_true]
      · simp only [deleted, decide_false, if_false]
        rfl
    · rw [if_pos same, if_neg (fun hit => same hit.1)]

theorem Sound.getAtRevision (sound : Sound db vs) (log : Logged vs) (nonneg : 0 ≤ t)
    (fits : t < 2 ^ 63) (key : Bytes) :
    Mvcc.getAtRevision db key t =
      .ok (Timeline.valueAt ((visible db vs t).map Version.toChange) key t) := by
  unfold Mvcc.getAtRevision
  rw [logLower_eq, sound.range_visible log ⟨le_rfl, by omega⟩ nonneg fits, lastVersionScan_bindings]
  · intro v mem
    exact log.storable v (mem_visible.mp mem).1
  · intro v mem
    exact (mem_visible.mp mem).2.2

/-- The event of a version, as the scan of a range read builds it. -/
def Version.event (v : Version) : Event where
  type := if v.change.op = Op.delete then .delete else .put
  kv := v.kv
  prevKV := none

theorem scanRecords_cons {k value pfx : Bytes} {r : Record} {rest : List (Bytes × Bytes)}
    {events : List Event} (decoded : unmarshalRecord value = .ok r)
    (later : scanRecords db pfx false rest = .ok events) :
    scanRecords db pfx false ((k, value) :: rest) =
      if ¬ pfx <+: r.key then .ok events
      else .ok ({
        type := if r.delete then .delete else .put
        kv := recordToKV r.key (decodeLogKey k) r
        prevKV := none } :: events) := by
  rw [scanRecords, decoded]
  simp only [later]
  split <;> simp

theorem scanRecords_bindings {found : List Version} (storable : ∀ v ∈ found, v.Storable)
    (pfx : Bytes) :
    scanRecords db pfx false (found.map Version.binding) =
      .ok ((found.filter (fun v => pfx <+: v.key)).map Version.event) := by
  induction found with
  | nil => rfl
  | cons v rest ih =>
    have here := storable v (by simp)
    have later := ih (fun w mem => storable w (mem_cons_of_mem v mem))
    rw [map_cons, Version.binding, scanRecords_cons here.unmarshal later, here.decodeLogKey,
      Version.record_delete]
    have sameRecord : v.record.key = v.key := rfl
    rw [sameRecord, here.toKV, filter_cons]
    by_cases selected : pfx <+: v.key
    · simp [selected, Version.event]
    · simp [selected]

theorem latestOf_events (found : List Version) :
    latestOf (found.map Version.event) =
      (found.map Version.toChange).foldl Timeline.update SortedMap.empty := by
  unfold latestOf
  rw [foldl_map, foldl_map]
  congr 1
  funext m v
  unfold Version.event Version.toChange Timeline.update
  by_cases deleted : v.change.op = Op.delete
  · simp only [deleted, if_true]
    rfl
  · simp only [deleted, if_false]
    rfl

theorem latest_visible (pfx : Bytes) :
    (latestOf (((visible db vs t).filter (fun v => pfx <+: v.key)).map Version.event)).entries =
      (Timeline.liveAt ((visible db vs t).map Version.toChange) t).filter
        (fun e => pfx <+: e.1) := by
  have commute : ((visible db vs t).filter (fun v => pfx <+: v.key)).map Version.toChange =
      ((visible db vs t).map Version.toChange).filter (fun c => pfx <+: c.key) := by
    rw [filter_map]
    rfl
  have upTo : ∀ c ∈ ((visible db vs t).map Version.toChange).filter (fun c => pfx <+: c.key),
      c.rev ≤ t := by
    intro c mem
    obtain ⟨v, inVisible, rfl⟩ := mem_map.mp (mem_filter.mp mem).1
    exact (mem_visible.mp inVisible).2.2
  rw [latestOf_events, commute, Timeline.entries_foldl_update _ t upTo,
    Timeline.liveAt_filter_key _ (fun key => pfx <+: key)]

theorem cutRange_eq (fromKey : Bytes) (limit : Int) (found : List (Bytes × KeyValue))
    (out : List KeyValue) :
    cutRange fromKey limit found out =
      fill limit out ((found.filter (fun e => fromKey ≤ e.1)).map Prod.snd) := by
  induction found generalizing out with
  | nil => rw [cutRange, filter_nil, map_nil, fill_empty]
  | cons e rest ih =>
    obtain ⟨key, kv⟩ := e
    have skips : (fromKey ≠ [] ∧ key < fromKey) ↔ ¬ fromKey ≤ key := by
      rw [not_le]
      constructor
      · exact fun both => both.2
      · intro below
        refine ⟨?_, below⟩
        intro empty
        rw [empty] at below
        exact not_lt_nil key below
    rw [cutRange]
    by_cases selected : fromKey ≤ key
    · rw [if_neg (fun both => skips.mp both selected),
        filter_cons_of_pos (by simpa using selected), map_cons]
      by_cases full : limit > 0 ∧ (out.length : Int) ≥ limit
      · rw [if_pos full, fill_full full]
      · rw [if_neg full, fill_cons full, ih (out ++ [kv])]
    · rw [if_pos (skips.mpr selected), ih out, filter_cons_of_neg (by simpa using selected)]

end Log

/-! ## The reads of the store -/

theorem Store.resolveReadRevision_of_mem (pos : 1 ≤ t) (compact : s.compactRev ≤ t)
    (upTo : t ≤ s.currentRev) : s.resolveReadRevision t = .ok t := by
  unfold Store.resolveReadRevision
  rw [if_neg (by omega), if_neg (by omega), if_neg (by omega)]

theorem Store.resolveReadRevision_future (pos : 1 ≤ t) (compact : s.compactRev ≤ t)
    (future : s.currentRev < t) : s.resolveReadRevision t = .error .futureRevision := by
  unfold Store.resolveReadRevision
  rw [if_neg (by omega), if_neg (by omega), if_pos future]

theorem Store.getAt_future (pos : 1 ≤ t) (compact : s.compactRev ≤ t) (future : s.currentRev < t)
    (k : Bytes) : s.getAt k t = .error .futureRevision := by
  unfold Store.getAt
  rw [Store.resolveReadRevision_future pos compact future]

theorem Store.listRange_future (pos : 1 ≤ t) (compact : s.compactRev ≤ t)
    (future : s.currentRev < t) (pfx fromKey : Bytes) (limit : Int) :
    s.listRange pfx { revision := t, fromKey, limit } = .error .futureRevision := by
  unfold Store.listRange
  rw [Store.resolveReadRevision_future pos compact future]

section Store

variable {s : Store} {vs : List Version} {heads : Bytes → Option Version} {t : Int}

theorem Indexed.get (indexed : Indexed s.db vs heads) (log : Logged vs) (k : Bytes) :
    s.get k = .ok ((heads k).map Version.kv) := by
  unfold Store.get
  rw [indexed.getIdxRev log]
  cases head : heads k with
  | none => rfl
  | some v =>
    have pos := (log.storable v (indexed.head k v head).1).pos
    simp only [Option.map_some, Option.getD_some]
    rw [if_neg (by omega), indexed.getLogEntry log head]
    rfl

theorem Indexed.listHead (indexed : Indexed s.db vs (headVersion vs)) (log : Logged vs)
    (upTo : ∀ v ∈ vs, v.rev ≤ t) (pfx fromKey : Bytes) (limit : Int) :
    s.listRange pfx { fromKey, limit } = .ok (cut limit
      (((Timeline.liveAt (vs.map Version.toChange) t).filter
        (fun e => pfx <+: e.1 ∧ fromKey ≤ e.1)).map Prod.snd)) := by
  have readable : ∀ e ∈ (Timeline.liveAt (vs.map Version.toChange) t).filter
      (fun e => pfx <+: e.1 ∧ fromKey ≤ e.1), IsInt64 e.2.revision ∧
      Mvcc.getLogEntry s.db e.1 e.2.revision = .ok e.2 := by
    intro e mem
    obtain ⟨v, head, same⟩ := (valueAt_eq_some_iff upTo).mp
      (Timeline.mem_liveAt.mp (mem_filter.mp mem).1)
    rw [← same]
    exact ⟨(log.storable v (headVersion_eq_some head).1).int64, indexed.getLogEntry log head⟩
  have listed := listIndex_eq limit _ readable []
  unfold Store.listRange Store.resolveReadRevision
  simp only [if_true]
  unfold listCurrent
  simp only []
  rw [indexed.range_index upTo, ← fill_nil]
  exact listed

theorem Sound.getAt (sound : Sound s.db vs) (log : Logged vs) (pos : 1 ≤ t) (fits : t < 2 ^ 63)
    (compact : s.compactRev ≤ t) (upTo : t ≤ s.currentRev) (k : Bytes) :
    s.getAt k t = .ok (Timeline.valueAt ((visible s.db vs t).map Version.toChange) k t) := by
  unfold Store.getAt
  rw [Store.resolveReadRevision_of_mem pos compact upTo]
  simp only []
  rw [if_neg (by omega)]
  exact sound.getAtRevision log (by omega) fits k

theorem Sound.listAt (sound : Sound s.db vs) (log : Logged vs) (pos : 1 ≤ t) (fits : t < 2 ^ 63)
    (compact : s.compactRev ≤ t) (upTo : t ≤ s.currentRev) (pfx fromKey : Bytes) (limit : Int) :
    s.listRange pfx { revision := t, fromKey, limit } = .ok (cut limit
      (((Timeline.liveAt ((visible s.db vs t).map Version.toChange) t).filter
        (fun e => pfx <+: e.1 ∧ fromKey ≤ e.1)).map Prod.snd)) := by
  have events : scanLog s.db pfx 1 t false =
      .ok (((visible s.db vs t).filter (fun v => pfx <+: v.key)).map Version.event) := by
    unfold scanLog
    rw [sound.range_visible log ⟨by omega, le_rfl⟩ (by omega) fits]
    exact scanRecords_bindings (fun v mem => log.storable v (mem_visible.mp mem).1) pfx
  have selected : ∀ live : List (Bytes × KeyValue),
      (live.filter (fun e => pfx <+: e.1)).filter (fun e => fromKey ≤ e.1) =
        live.filter (fun e => pfx <+: e.1 ∧ fromKey ≤ e.1) := by
    intro live
    rw [filter_filter]
    apply filter_congr
    intro e _
    simp [and_comm]
  unfold Store.listRange
  rw [Store.resolveReadRevision_of_mem pos compact upTo]
  simp only [events]
  rw [if_neg (by omega), latest_visible, cutRange_eq, fill_nil, selected]

section Alike

variable {s' : Store} {vs' : List Version} {W : Int}

/-- Two stores answer alike at the head and at the revisions from `W` on. -/
structure ReadsAlike (s s' : Store) (W : Int) : Prop where
  get : ∀ k, s.get k = s'.get k
  list : ∀ pfx fromKey limit,
    s.listRange pfx { fromKey, limit } = s'.listRange pfx { fromKey, limit }
  getAt : ∀ k t, 0 ≤ t → W ≤ t → s.getAt k t = s'.getAt k t
  listAt : ∀ pfx fromKey limit t, 0 ≤ t → W ≤ t →
    s.listRange pfx { revision := t, fromKey, limit } =
      s'.listRange pfx { revision := t, fromKey, limit }

/-- Two logs show the same values at the revisions from `W` on that `s` can read. -/
def ShowAlike (s s' : Store) (vs vs' : List Version) (W : Int) : Prop :=
  ∀ k t, 1 ≤ t → W ≤ t → t ≤ s.currentRev →
    Timeline.valueAt ((visible s.db vs t).map Version.toChange) k t =
      Timeline.valueAt ((visible s'.db vs' t).map Version.toChange) k t

variable (sound : Sound s.db vs) (log : Logged vs) (sound' : Sound s'.db vs') (log' : Logged vs')
  (current : s.currentRev = s'.currentRev) (fits : s.currentRev < 2 ^ 63)
  (compact : s.compactRev ≤ W) (compact' : s'.compactRev ≤ W) (alike : ShowAlike s s' vs vs' W)

include sound log sound' log' current fits compact compact' alike

/-- Stores whose logs show the same from `W` on read alike, if they do at the head. -/
theorem ShowAlike.readsAlike (get : ∀ k, s.get k = s'.get k)
    (list : ∀ pfx fromKey limit,
      s.listRange pfx { fromKey, limit } = s'.listRange pfx { fromKey, limit }) :
    ReadsAlike s s' W := by
  refine ⟨get, list, ?_, ?_⟩
  · intro k t nonneg above
    rcases eq_or_lt_of_le nonneg with rfl | pos
    · exact get k
    · by_cases upTo : t ≤ s.currentRev
      · rw [sound.getAt log pos (by omega) (compact.trans above) upTo,
          sound'.getAt log' pos (by omega) (compact'.trans above) (current ▸ upTo),
          alike k t pos above upTo]
      · rw [Store.getAt_future pos (compact.trans above) (by omega),
          Store.getAt_future pos (compact'.trans above) (by omega)]
  · intro pfx fromKey limit t nonneg above
    rcases eq_or_lt_of_le nonneg with rfl | pos
    · exact list pfx fromKey limit
    · by_cases upTo : t ≤ s.currentRev
      · rw [sound.listAt log pos (by omega) (compact.trans above) upTo,
          sound'.listAt log' pos (by omega) (compact'.trans above) (current ▸ upTo),
          Timeline.liveAt_congr (fun k => alike k t pos above upTo)]
      · rw [Store.listRange_future pos (compact.trans above) (by omega),
          Store.listRange_future pos (compact'.trans above) (by omega)]

end Alike

end Store

namespace Store.Represents

variable {s : Store} {h : List Entry} {t : Int}

/-- **HEAD point reads are exact.** -/
theorem get (rep : s.Represents h) (wf : WellFormed h) (k : Bytes) :
    s.get k = .ok (headValue h k) := by
  rw [(rep.pebble.indexed wf.logged).get wf.logged,
    headVersion_map_kv (fun _ => rev_le_revisionOf) k]
  rfl

theorem fits_of_upTo (rep : s.Represents h) (wf : WellFormed h) (upTo : t ≤ s.currentRev) :
    t < 2 ^ 63 := by
  have := wf.revisionOf_fits
  rw [rep.currentRev] at upTo
  omega

/-- **Historical point reads are exact** at or above the watermark. -/
theorem getAt (rep : s.Represents h) (wf : WellFormed h) (pos : 1 ≤ t)
    (above : watermarkOf h ≤ t) (compact : s.compactRev ≤ t) (upTo : t ≤ s.currentRev)
    (k : Bytes) : s.getAt k t = .ok (Timeline.valueAt (changes h) k t) := by
  rw [Sound.getAt rep.pebble.sound wf.logged pos (rep.fits_of_upTo wf upTo) compact upTo,
    rep.pebble.valueAt_visible wf.logged above]
  rfl

/-- **HEAD range reads are exact.** -/
theorem listHead (rep : s.Represents h) (wf : WellFormed h) (pfx fromKey : Bytes)
    (limit : Int) :
    s.listRange pfx { fromKey, limit } = .ok (rangeAt h (revisionOf h) pfx fromKey limit) :=
  (rep.pebble.indexed wf.logged).listHead wf.logged (fun _ => rev_le_revisionOf) pfx fromKey limit

theorem countHead (rep : s.Represents h) (wf : WellFormed h) (pfx fromKey : Bytes) (limit : Int) :
    s.countRange pfx { fromKey, limit } =
      .ok ((rangeAt h (revisionOf h) pfx fromKey 0).length : Int) := by
  have scanned := (rep.pebble.indexed wf.logged).range_index (t := revisionOf h)
    (fun _ => rev_le_revisionOf) pfx fromKey
  unfold Store.countRange countCurrent
  simp only [if_true]
  rw [scanned]
  simp [rangeAt, cut, selectAt, changes]

/-- **Historical range reads are exact** at or above the watermark. -/
theorem listAt (rep : s.Represents h) (wf : WellFormed h) (pos : 1 ≤ t)
    (above : watermarkOf h ≤ t) (compact : s.compactRev ≤ t) (upTo : t ≤ s.currentRev)
    (pfx fromKey : Bytes) (limit : Int) :
    s.listRange pfx { revision := t, fromKey, limit } =
      .ok (rangeAt h t pfx fromKey limit) := by
  rw [Sound.listAt rep.pebble.sound wf.logged pos (rep.fits_of_upTo wf upTo) compact upTo,
    Timeline.liveAt_congr (rep.pebble.valueAt_visible wf.logged above)]
  rfl

theorem countAt (rep : s.Represents h) (wf : WellFormed h) (pos : 1 ≤ t)
    (above : watermarkOf h ≤ t) (compact : s.compactRev ≤ t) (upTo : t ≤ s.currentRev)
    (pfx fromKey : Bytes) (limit : Int) :
    s.countRange pfx { revision := t, fromKey, limit } =
      .ok ((rangeAt h t pfx fromKey 0).length : Int) := by
  unfold Store.countRange
  simp only []
  rw [if_neg (by omega), rep.listAt wf pos above compact upTo pfx fromKey 0]
  rfl

end Store.Represents

/-! ## Any batching of a history -/

/-- The two ways to feed a batch to the store. -/
inductive FeedBy
  | apply
  | recover
  deriving DecidableEq

def Store.feed (s : Store) : List (FeedBy × List Entry) → Except StoreError Store
  | [] => .ok s
  | (by_, batch) :: rest =>
    match (match by_ with | .apply => s.apply batch | .recover => s.recover batch) with
    | (_, some err) => .error err
    | (s, none) => s.feed rest

/-- However a well-formed history is cut into batches, the store ends up
representing it. -/
theorem Store.Represents.feed {h : List Entry} (rep : s.Represents h)
    (batches : List (FeedBy × List Entry)) (wf : WellFormed (h ++ batches.flatMap Prod.snd)) :
    ∃ s', s.feed batches = .ok s' ∧ s'.Represents (h ++ batches.flatMap Prod.snd) := by
  induction batches generalizing s h with
  | nil => exact ⟨s, rfl, by simpa using rep⟩
  | cons head rest ih =>
    obtain ⟨by_, batch⟩ := head
    rw [flatMap_cons, ← append_assoc] at wf ⊢
    have wfBatch : WellFormed (h ++ batch) := wf.sublist (sublist_append_left _ _)
    cases by_ with
    | apply =>
      obtain ⟨s', applied, rep'⟩ := rep.apply wfBatch
      obtain ⟨final, fed, repFinal⟩ := ih rep' wf
      exact ⟨final, by simpa [Store.feed, applied] using fed, repFinal⟩
    | recover =>
      obtain ⟨s', recovered, rep'⟩ := rep.recover wfBatch
      obtain ⟨final, fed, repFinal⟩ := ih rep' wf
      exact ⟨final, by simpa [Store.feed, recovered] using fed, repFinal⟩

/-- **MVCC reads are exact.** Feed a history of the write path to an empty store, cut
into batches anyhow. Every batch is accepted, HEAD reads show the last version of
every key, and reads at a revision that is neither compacted nor in the future show
the last version at or below it. -/
theorem mvcc_reads_exact {h : List Entry} (chained : Chained h) (increase : TargetsIncrease h)
    (batches : List (FeedBy × List Entry)) (split : batches.flatMap Prod.snd = h) :
    ∃ s, Store.empty.feed batches = .ok s ∧
      s.currentRev = revisionOf h ∧ s.compactRev = targetOf h ∧
      (∀ k, s.get k = .ok (headValue h k)) ∧
      (∀ pfx fromKey limit,
        s.listRange pfx { fromKey, limit } = .ok (rangeAt h (revisionOf h) pfx fromKey limit) ∧
        s.countRange pfx { fromKey, limit } =
          .ok ((rangeAt h (revisionOf h) pfx fromKey 0).length : Int)) ∧
      ∀ t, 1 ≤ t → s.compactRev ≤ t → t ≤ s.currentRev →
        (∀ k, s.getAt k t = .ok (Timeline.valueAt (changes h) k t)) ∧
        (∀ k, s.get k = s.getAt k s.currentRev) ∧
        ∀ pfx fromKey limit,
          s.listRange pfx { revision := t, fromKey, limit } =
            .ok (rangeAt h t pfx fromKey limit) ∧
          s.countRange pfx { revision := t, fromKey, limit } =
            .ok ((rangeAt h t pfx fromKey 0).length : Int) := by
  have wf := chained.wellFormed
  obtain ⟨s, fed, rep⟩ := Store.represents_empty.feed batches (by simpa [split] using wf)
  rw [nil_append, split] at rep
  refine ⟨s, fed, rep.currentRev, rep.compactRev, rep.get wf,
    fun pfx fromKey limit =>
      ⟨rep.listHead wf pfx fromKey limit, rep.countHead wf pfx fromKey limit⟩,
    ?_⟩
  intro t pos compact upTo
  have above : ∀ u, 1 ≤ u → s.compactRev ≤ u → watermarkOf h ≤ u := by
    intro u positive beyond
    have watermark := increase.watermarkOf_le
    rw [rep.compactRev] at beyond
    omega
  refine ⟨rep.getAt wf pos (above t pos compact) compact upTo, ?_, fun pfx fromKey limit =>
    ⟨rep.listAt wf pos (above t pos compact) compact upTo pfx fromKey limit,
      rep.countAt wf pos (above t pos compact) compact upTo pfx fromKey limit⟩⟩
  intro k
  have atHead := rep.getAt wf (pos.trans upTo) (above _ (pos.trans upTo) (compact.trans upTo))
    (compact.trans upTo) le_rfl k
  rw [atHead, rep.get wf k, rep.currentRev]
  rfl

/-- A key is created, a transaction updates it and creates another one, a compaction
drops the first version, and the first key is deleted. -/
def sampleHistory : List Entry := [
  { id := 1, revision := 1, op := Op.create, key := [1], value := [7], createRevision := 1,
    version := 1 },
  { id := 2, revision := 2, op := Op.txn, value := encodeTxnOps [
    { op := Op.update, key := [1], value := [8], createRevision := 1, prevRevision := 1,
      version := 2 },
    { op := Op.create, key := [255], createRevision := 2, version := 1 }] },
  { id := 3, revision := 2, op := Op.compact, prevRevision := 2 },
  { id := 4, revision := 3, op := Op.delete, key := [1], createRevision := 1, prevRevision := 2,
    version := 2 }]

theorem sampleHistory_chained : Chained sampleHistory := by
  refine .snoc (h := sampleHistory.take 3) (.snoc (h := sampleHistory.take 2)
    (.snoc (h := sampleHistory.take 1) (.snoc (h := []) .nil ?_) ?_) ?_) ?_
  · exact ⟨by decide, by decide, fun _ => ⟨_, .single (by decide), by decide +kernel⟩⟩
  · exact ⟨by decide, by decide, fun _ => ⟨_, .txn (by decide) rfl (by decide) (by decide),
      by decide +kernel⟩⟩
  · exact ⟨by decide, fun data => absurd rfl data, fun data => absurd rfl data⟩
  · exact ⟨by decide, by decide, fun _ => ⟨_, .single (by decide), by decide +kernel⟩⟩

theorem mvcc_reads_exact_sampleHistory :
    ∃ s, Store.empty.feed [(.apply, sampleHistory.take 2), (.recover, sampleHistory.drop 2)] =
        .ok s ∧
      s.get [1] = .ok none ∧ s.getAt [1] 2 = .ok (some
        { key := [1], value := [8], revision := 2, createRevision := 1, prevRevision := 1,
          version := 2 }) := by
  obtain ⟨s, fed, current, compact, head, -, exact_⟩ := mvcc_reads_exact sampleHistory_chained
    (by unfold TargetsIncrease; decide)
    [(.apply, sampleHistory.take 2), (.recover, sampleHistory.drop 2)] rfl
  have two := exact_ 2 (by decide) (by rw [compact]; decide) (by rw [current]; decide)
  refine ⟨s, fed, ?_, ?_⟩
  · rw [head]
    decide +kernel
  · rw [two.1]
    decide +kernel

end T4.Mvcc
