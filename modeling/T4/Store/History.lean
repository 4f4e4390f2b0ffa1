import T4.Lib.Timeline
import T4.Store.Machine

/-!
# Entry histories

What a sequence of log entries means, before any storage layout: each data entry
leaves one version per key it writes, and the versions form a timeline
(`T4.Lib.Timeline`) whose reads are the specification of the store.

`Chained` describes the histories that the leader's write path produces: data
revisions increase, and every operation continues the version it was prepared
against; compaction targets are any numbers. `WellFormed` is what storing a
history needs; every chained history is well formed.
-/

namespace T4.Mvcc

open Lib Bytes Wal List

/-! ## Versions -/

/-- One version of one key: `sub` is its position in a transaction, if any. -/
structure Version where
  rev : Int
  sub : Option Nat
  change : TxnSubOp

namespace Version

def key (v : Version) : Bytes := v.change.key

/-- The Pebble key under which the version is logged. -/
def slot (v : Version) : Bytes := slotKey v.rev v.sub

def record (v : Version) : Record := txnRecord v.change

def kv (v : Version) : KeyValue where
  key := v.change.key
  value := v.change.value
  revision := v.rev
  createRevision := v.change.createRevision
  prevRevision := v.change.prevRevision
  version := v.change.version
  lease := v.change.lease

def toChange (v : Version) : Change Bytes KeyValue where
  rev := v.rev
  key := v.key
  value := if v.change.op = Op.delete then none else some v.kv

end Version

/-- The operation of an entry with a single key. -/
def subOp (e : Entry) : TxnSubOp where
  op := e.op
  key := e.key
  value := e.value
  lease := e.lease
  createRevision := e.createRevision
  prevRevision := e.prevRevision
  version := e.version

/-- The versions of a transaction from position `i` on. -/
def txnVersions (rev : Int) : Nat → List TxnSubOp → List Version
  | _, [] => []
  | i, op :: rest => ⟨rev, some i, op⟩ :: txnVersions rev (i + 1) rest

/-- The versions an entry leaves behind. -/
def entryVersions (e : Entry) : List Version :=
  if e.op = Op.compact then []
  else if e.op = Op.txn then
    match decodeTxnOps e.value with
    | .error _ => []
    | .ok ops => txnVersions e.revision 0 ops
  else [⟨e.revision, none, subOp e⟩]

def versions (h : List Entry) : List Version := h.flatMap entryVersions

def changes (h : List Entry) : List (Change Bytes KeyValue) := (versions h).map Version.toChange

/-! ## Counters -/

def revisionOf (h : List Entry) : Int :=
  h.foldl (fun rev e => if e.op = Op.compact then rev else max rev e.revision) 0

def targetOf (h : List Entry) : Int :=
  h.foldl (fun target e => if e.op = Op.compact then e.prevRevision else target) 0

def watermarkOf (h : List Entry) : Int :=
  h.foldl (fun target e => if e.op = Op.compact then max target e.prevRevision else target) 0

def sequenceOf (h : List Entry) : Int := h.foldl (fun seq e => max seq e.sequence) 0

/-- The value of `k` after the whole history. -/
def headValue (h : List Entry) (k : Bytes) : Option KeyValue :=
  Timeline.valueAt (changes h) k (revisionOf h)

theorem versions_append (h h' : List Entry) : versions (h ++ h') = versions h ++ versions h' :=
  flatMap_append

variable {v : Version} {i : Nat} {first : Int} {l : List Entry}

variable {h h' : List Entry} {e : Entry} {rev : Int} {ops : List TxnSubOp}

theorem mem_versions_append : v ∈ versions (h ++ h') ↔ v ∈ versions h ∨ v ∈ versions h' := by
  rw [versions_append, mem_append]

theorem changes_append (h h' : List Entry) : changes (h ++ h') = changes h ++ changes h' := by
  simp [changes, versions_append]

theorem versions_singleton (e : Entry) : versions [e] = entryVersions e := by
  simp [versions]

section Snoc

variable (h : List Entry) (e : Entry)

theorem revisionOf_snoc :
    revisionOf (h ++ [e]) =
      if e.op = Op.compact then revisionOf h else max (revisionOf h) e.revision := by
  simp [revisionOf]

theorem targetOf_snoc :
    targetOf (h ++ [e]) = if e.op = Op.compact then e.prevRevision else targetOf h := by
  simp [targetOf]

theorem watermarkOf_snoc :
    watermarkOf (h ++ [e]) =
      if e.op = Op.compact then max (watermarkOf h) e.prevRevision else watermarkOf h := by
  simp [watermarkOf]

theorem sequenceOf_snoc : sequenceOf (h ++ [e]) = max (sequenceOf h) e.sequence := by
  simp [sequenceOf]

end Snoc

theorem revisionOf_nonneg (h : List Entry) : 0 ≤ revisionOf h := by
  induction h using reverseRecOn with
  | nil => exact le_rfl
  | append_singleton h e ih =>
    rw [revisionOf_snoc]
    split
    · exact ih
    · exact ih.trans (le_max_left _ _)

theorem revisionOf_append (h h' : List Entry) :
    revisionOf (h ++ h') = max (revisionOf h) (revisionOf h') := by
  induction h' using reverseRecOn with
  | nil => simpa [revisionOf] using revisionOf_nonneg h
  | append_singleton h' e ih =>
    rw [← append_assoc, revisionOf_snoc, revisionOf_snoc, ih]
    split
    · rfl
    · exact max_assoc _ _ _

theorem exists_revisionOf (pos : 0 < revisionOf h) :
    ∃ e ∈ h, e.op ≠ Op.compact ∧ e.revision = revisionOf h := by
  induction h using reverseRecOn with
  | nil => exact absurd pos (lt_irrefl 0)
  | append_singleton h last ih =>
    rw [revisionOf_snoc] at pos ⊢
    split at pos
    · rename_i compact
      obtain ⟨e, mem, data, same⟩ := ih pos
      exact ⟨e, by simp [mem], data, by rw [same, if_pos compact]⟩
    · rename_i data
      rw [if_neg data]
      rcases le_total (revisionOf h) last.revision with newer | older
      · exact ⟨last, by simp, data, (max_eq_right newer).symm⟩
      · rw [max_eq_left older] at pos ⊢
        obtain ⟨e, mem, data', same⟩ := ih pos
        exact ⟨e, by simp [mem], data', same⟩

theorem le_revisionOf (mem : e ∈ h) (data : e.op ≠ Op.compact) : e.revision ≤ revisionOf h := by
  induction h using reverseRecOn with
  | nil => cases mem
  | append_singleton h last ih =>
    rw [revisionOf_snoc]
    rcases mem_append.mp mem with early | late
    · split
      · exact ih early
      · exact (ih early).trans (le_max_left _ _)
    · rw [mem_singleton.mp late] at data ⊢
      rw [if_neg data]
      exact le_max_right _ _

theorem rev_of_mem_txnVersions (mem : v ∈ txnVersions rev i ops) : v.rev = rev := by
  induction ops generalizing i with
  | nil => cases mem
  | cons op rest ih =>
    rcases mem_cons.mp mem with rfl | later
    · rfl
    · exact ih later

theorem rev_of_mem_entryVersions (mem : v ∈ entryVersions e) :
    v.rev = e.revision ∧ e.op ≠ Op.compact := by
  unfold entryVersions at mem
  split at mem
  · cases mem
  · rename_i data
    refine ⟨?_, data⟩
    split at mem
    · split at mem
      · cases mem
      · exact rev_of_mem_txnVersions mem
    · rw [mem_singleton.mp mem]

theorem rev_le_revisionOf (mem : v ∈ versions h) : v.rev ≤ revisionOf h := by
  obtain ⟨e, inHistory, inEntry⟩ := mem_flatMap.mp mem
  obtain ⟨sameRev, data⟩ := rev_of_mem_entryVersions inEntry
  rw [sameRev]
  exact le_revisionOf inHistory data

/-! ## Histories that can be stored -/

/-- A version whose log key and record survive their codecs. -/
structure Version.Storable (v : Version) : Prop where
  pos : 0 < v.rev
  fits : v.rev < 2 ^ 63
  sub : ∀ i ∈ v.sub, i < 2 ^ 16
  version : 0 < v.change.version
  record : v.record.WellFormed

/-- An entry whose effect survives the codecs. -/
structure Storable (e : Entry) : Prop where
  revision : e.op ≠ Op.compact → 0 < e.revision ∧ e.revision < 2 ^ 63
  target : e.op = Op.compact → IsInt64 e.prevRevision
  payload : e.op = Op.txn → ∃ ops, decodeTxnOps e.value = .ok ops ∧ ops.length ≤ 2 ^ 16 ∧
    (ops.map TxnSubOp.key).Nodup
  versions : ∀ v ∈ entryVersions e, v.Storable

/-- A history of storable entries with increasing data revisions. -/
structure WellFormed (h : List Entry) : Prop where
  storable : ∀ e ∈ h, Storable e
  increasing : h.Pairwise
    (fun a b => a.op ≠ Op.compact → b.op ≠ Op.compact → a.revision < b.revision)

/-- Sequence numbers are positive, increase along the history and fit their type. -/
structure Sequenced (h : List Entry) : Prop where
  pos : ∀ e ∈ h, 0 < e.sequence
  fits : ∀ e ∈ h, e.sequence < 2 ^ 63
  increasing : h.Pairwise (fun a b => a.sequence < b.sequence)

/-- `a` precedes `b` in the log: its slot is smaller, if both are versions of one
key its revision is, and only operations of one transaction share a revision. -/
structure Version.Before (a b : Version) : Prop where
  slot : a.slot < b.slot
  rev : a.rev ≤ b.rev
  key : a.key = b.key → a.rev < b.rev
  sub : a.rev = b.rev → a.sub ≠ none ∧ b.sub ≠ none

theorem WellFormed.nil : WellFormed [] := ⟨by simp, List.Pairwise.nil⟩

theorem WellFormed.sublist (wf : WellFormed h') (sub : h.Sublist h') : WellFormed h :=
  ⟨fun e mem => wf.storable e (sub.subset mem), wf.increasing.sublist sub⟩

theorem wellFormed_snoc :
    WellFormed (h ++ [e]) ↔
      WellFormed h ∧ Storable e ∧
        (e.op ≠ Op.compact → ∀ earlier ∈ h, earlier.op ≠ Op.compact →
          earlier.revision < e.revision) := by
  constructor
  · intro wf
    have pairs := (pairwise_append.mp wf.increasing).2.2
    refine ⟨wf.sublist (sublist_append_left h [e]), wf.storable e (by simp), ?_⟩
    intro data earlier mem earlierData
    exact pairs earlier mem e (by simp) earlierData data
  · intro parts
    obtain ⟨wf, storable, fresh⟩ := parts
    refine ⟨?_, pairwise_append.mpr ⟨wf.increasing, by simp, ?_⟩⟩
    · exact forall_mem_append.mpr ⟨wf.storable, forall_mem_singleton.mpr storable⟩
    · intro earlier mem last isLast earlierData
      rw [mem_singleton.mp isLast]
      intro data
      exact fresh data earlier mem earlierData

theorem WellFormed.revisionOf_lt (wf : WellFormed (h ++ h')) (pos : 0 < revisionOf h') :
    revisionOf h < revisionOf h' := by
  obtain ⟨last, lastMem, lastData, lastRev⟩ := exists_revisionOf pos
  rcases (revisionOf_nonneg h).eq_or_lt with zero | old
  · omega
  · obtain ⟨e, mem, data, same⟩ := exists_revisionOf old
    have less := (pairwise_append.mp wf.increasing).2.2 e mem last lastMem data lastData
    omega

theorem sub_of_mem_txnVersions (mem : v ∈ txnVersions rev i ops) :
    ∃ j, i ≤ j ∧ j < i + ops.length ∧ v.sub = some j ∧
      v.change ∈ ops := by
  induction ops generalizing i with
  | nil => cases mem
  | cons op rest ih =>
    rcases mem_cons.mp mem with rfl | later
    · exact ⟨i, le_rfl, by simp, rfl, by simp⟩
    · obtain ⟨j, low, high, sub, change⟩ := ih later
      exact ⟨j, by omega, by simp only [length_cons]; omega, sub,
        mem_cons_of_mem op change⟩

/-- The versions of one transaction follow each other: same revision, increasing
positions, different keys. -/
theorem txnVersions_before (few : i + ops.length ≤ 2 ^ 16)
    (distinct : (ops.map TxnSubOp.key).Nodup) :
    (txnVersions rev i ops).Pairwise Version.Before := by
  induction ops generalizing i with
  | nil => exact List.Pairwise.nil
  | cons op rest ih =>
    rw [length_cons] at few
    rw [map_cons, nodup_cons] at distinct
    refine pairwise_cons.mpr ⟨?_, ih (by omega) distinct.2⟩
    intro v mem
    have sameRev := rev_of_mem_txnVersions mem
    obtain ⟨j, low, high, sub, change⟩ := sub_of_mem_txnVersions mem
    have digits : bigEndian 2 i < bigEndian 2 j := by
      have := (bigEndian_append_lt_iff (w := 2) (x := i) (y := j) (by omega) (by omega) [] []).mpr
        (Or.inl (by omega))
      simpa using this
    refine ⟨?_, sameRev.ge, ?_, ?_⟩
    · rw [Version.slot, Version.slot, slotKey_lt_slotKey, sameRev, sub]
      exact Or.inr ⟨rfl, digits⟩
    · intro sameKey
      have inRest : op.key ∈ rest.map TxnSubOp.key :=
        mem_map.mpr ⟨v.change, change, sameKey.symm⟩
      exact absurd inRest distinct.1
    · intro _
      simp [sub]

theorem Storable.before (storable : Storable e) : (entryVersions e).Pairwise Version.Before := by
  unfold entryVersions
  split
  · exact List.Pairwise.nil
  · split
    · rename_i isTxn
      obtain ⟨ops, decoded, few, distinct⟩ := storable.payload isTxn
      rw [decoded]
      exact txnVersions_before (by omega) distinct
    · exact pairwise_singleton _ _

theorem uint64_of_rev (pos : 0 < rev) (fits : rev ≤ 2 ^ 63) : (uint64 rev : Int) = rev :=
  uint64_of_nonneg (by omega) (by omega)

theorem WellFormed.before (wf : WellFormed h) : (versions h).Pairwise Version.Before := by
  induction h using reverseRecOn with
  | nil => exact List.Pairwise.nil
  | append_singleton h e ih =>
    obtain ⟨front, storable, fresh⟩ := wellFormed_snoc.mp wf
    rw [versions_append, versions_singleton]
    refine pairwise_append.mpr ⟨ih front, storable.before, ?_⟩
    intro a memA b memB
    obtain ⟨source, inHistory, inEntry⟩ := mem_flatMap.mp memA
    obtain ⟨revA, dataA⟩ := rev_of_mem_entryVersions inEntry
    obtain ⟨revB, dataB⟩ := rev_of_mem_entryVersions memB
    have less : a.rev < b.rev := by
      rw [revA, revB]
      exact fresh dataB source inHistory dataA
    have storableA := (front.storable source inHistory).versions a inEntry
    have storableB := storable.versions b memB
    have wordA := uint64_of_rev storableA.pos storableA.fits.le
    have wordB := uint64_of_rev storableB.pos storableB.fits.le
    refine ⟨?_, less.le, fun _ => less, fun same => absurd same less.ne⟩
    rw [Version.slot, Version.slot, slotKey_lt_slotKey]
    exact Or.inl (by omega)

theorem WellFormed.version_storable (wf : WellFormed h) (mem : v ∈ versions h) : v.Storable := by
  obtain ⟨e, inHistory, inEntry⟩ := mem_flatMap.mp mem
  exact (wf.storable e inHistory).versions v inEntry

/-! ## Sequence numbers -/

theorem sequenceOf_nonneg (h : List Entry) : 0 ≤ sequenceOf h := by
  induction h using reverseRecOn with
  | nil => exact le_rfl
  | append_singleton h e ih =>
    rw [sequenceOf_snoc]
    exact ih.trans (le_max_left _ _)

theorem sequenceOf_append (h h' : List Entry) :
    sequenceOf (h ++ h') = max (sequenceOf h) (sequenceOf h') := by
  induction h' using reverseRecOn with
  | nil => simpa [sequenceOf] using sequenceOf_nonneg h
  | append_singleton h' e ih =>
    rw [← append_assoc, sequenceOf_snoc, sequenceOf_snoc, ih]
    exact max_assoc _ _ _

theorem sequenceOf_le_iff {x : Int} : sequenceOf h ≤ x ↔ 0 ≤ x ∧ ∀ e ∈ h, e.sequence ≤ x := by
  induction h using reverseRecOn with
  | nil => simp [sequenceOf]
  | append_singleton h e ih =>
    rw [sequenceOf_snoc, max_le_iff, ih]
    simp only [mem_append, mem_singleton, or_imp, forall_and, forall_eq, and_assoc]

theorem Sequenced.sublist (seq : Sequenced h') (sub : h.Sublist h') : Sequenced h :=
  ⟨fun e mem => seq.pos e (sub.subset mem), fun e mem => seq.fits e (sub.subset mem),
    seq.increasing.sublist sub⟩

theorem Sequenced.sequenceOf_snoc (seq : Sequenced (h ++ [e])) :
    sequenceOf (h ++ [e]) = e.sequence := by
  have below : sequenceOf h ≤ e.sequence := by
    have pos := seq.pos e (by simp)
    have pairs := (pairwise_append.mp seq.increasing).2.2
    clear seq
    induction h using reverseRecOn with
    | nil => exact pos.le
    | append_singleton h last ih =>
      rw [Mvcc.sequenceOf_snoc]
      refine max_le (ih ?_) (pairs last (by simp) e (by simp)).le
      intro a mem b isLast
      exact pairs a (by simp [mem]) b isLast
  rw [Mvcc.sequenceOf_snoc, max_eq_right below]

/-- The sequence numbers count up from `first` without a hole. -/
def Consecutive (first : Int) : List Entry → Prop
  | [] => True
  | e :: rest => e.sequence = first ∧ Consecutive (first + 1) rest

theorem consecutive_append {a b : List Entry} :
    Consecutive first (a ++ b) ↔ Consecutive first a ∧ Consecutive (first + a.length) b := by
  induction a generalizing first with
  | nil => simp [Consecutive]
  | cons e rest ih =>
    simp only [cons_append, Consecutive, ih, length_cons, and_assoc]
    have shift : first + 1 + (rest.length : Int) = first + ((rest.length + 1 : Nat) : Int) := by
      omega
    rw [shift]

theorem Consecutive.get (consecutive : Consecutive first l) (at_ : l[i]? = some e) :
    e.sequence = first + i := by
  induction l generalizing first i with
  | nil => cases at_
  | cons head rest ih =>
    cases i with
    | zero =>
      cases at_
      simpa using consecutive.1
    | succ i =>
      have later := ih consecutive.2 (by simpa using at_)
      omega

theorem Consecutive.pairwise (consecutive : Consecutive first l) :
    l.Pairwise (fun a b => a.sequence < b.sequence) := by
  induction l generalizing first with
  | nil => exact List.Pairwise.nil
  | cons e rest ih =>
    refine pairwise_cons.mpr ⟨?_, ih consecutive.2⟩
    intro later mem
    obtain ⟨i, at_⟩ := mem_iff_getElem?.mp mem
    have here := consecutive.1
    have number := consecutive.2.get at_
    omega

theorem Consecutive.exists_mem (consecutive : Consecutive first l) (mem : e ∈ l) {number : Int}
    (low : first ≤ number) (high : number ≤ e.sequence) : ∃ other ∈ l, other.sequence = number := by
  induction l generalizing first with
  | nil => cases mem
  | cons head rest ih =>
    rcases low.eq_or_lt with same | above
    · exact ⟨head, by simp, consecutive.1.trans same⟩
    · rcases mem_cons.mp mem with rfl | memRest
      · have := consecutive.1
        omega
      · obtain ⟨other, memOther, found⟩ := ih consecutive.2 memRest above
        exact ⟨other, mem_cons_of_mem _ memOther, found⟩

/-- Increasing numbers from `first` on that leave none out are consecutive. -/
theorem consecutive_of_increasing (increasing : l.Pairwise (fun a b => a.sequence < b.sequence))
    (above : ∀ e ∈ l, first ≤ e.sequence)
    (full : ∀ e ∈ l, ∀ number, first ≤ number → number < e.sequence →
      ∃ other ∈ l, other.sequence = number) :
    Consecutive first l := by
  induction l generalizing first with
  | nil => trivial
  | cons head rest ih =>
    obtain ⟨behind, restIncreasing⟩ := pairwise_cons.mp increasing
    have isFirst : head.sequence = first := by
      by_contra differs
      have low := above head (by simp)
      obtain ⟨other, mem, found⟩ := full head (by simp) first le_rfl (by omega)
      rcases mem_cons.mp mem with rfl | mem
      · exact differs found
      · have := behind other mem
        omega
    refine ⟨isFirst, ih restIncreasing ?_ ?_⟩
    · intro e mem
      have := behind e mem
      omega
    · intro e mem number low high
      obtain ⟨other, memOther, found⟩ :=
        full e (mem_cons_of_mem _ mem) number (by omega) high
      rcases mem_cons.mp memOther with rfl | memOther
      · omega
      · exact ⟨other, memOther, found⟩

theorem Consecutive.sequenceOf_append (consecutive : Consecutive (sequenceOf h + 1) l) :
    sequenceOf (h ++ l) = sequenceOf h + l.length := by
  induction l using reverseRecOn with
  | nil => simp
  | append_singleton l e ih =>
    obtain ⟨front, last, -⟩ := consecutive_append.mp consecutive
    rw [← append_assoc, Mvcc.sequenceOf_snoc, ih front, last, length_append,
      length_singleton]
    omega

/-! ## Histories of the write path -/

/-- An operation prepared for revision `rev` continues the version `existing` of its
key: it creates an absent key, and updates or deletes a present one. -/
def Continues (rev : Int) (existing : Option KeyValue) (o : TxnSubOp) : Prop :=
  match existing with
  | none => o.op = Op.create ∧ o.createRevision = rev ∧ o.prevRevision = 0 ∧ o.version = 1
  | some kv =>
    (o.op = Op.update ∧ o.version = kv.version + 1 ∨ o.op = Op.delete ∧ o.version = kv.version) ∧
      o.createRevision = kv.createRevision ∧ o.prevRevision = kv.revision

instance (rev : Int) (existing : Option KeyValue) (o : TxnSubOp) :
    Decidable (Continues rev existing o) :=
  match existing with
  | none => inferInstanceAs (Decidable (_ ∧ _))
  | some _ => inferInstanceAs (Decidable (_ ∧ _))

/-- Key, value and lease are what the codecs can carry: a batch with a longer key or
value is refused by Pebble. -/
structure Sized (o : TxnSubOp) : Prop where
  key : o.key.length < 2 ^ 32
  value : o.value.length < 2 ^ 32
  lease : IsInt64 o.lease

instance (o : TxnSubOp) : Decidable (Sized o) :=
  decidable_of_iff (o.key.length < 2 ^ 32 ∧ o.value.length < 2 ^ 32 ∧ IsInt64 o.lease)
    ⟨fun all => ⟨all.1, all.2.1, all.2.2⟩, fun sized => ⟨sized.key, sized.value, sized.lease⟩⟩

/-- The operations that a data entry carries. -/
inductive Carries (e : Entry) : List TxnSubOp → Prop
  | single (notTxn : e.op ≠ Op.txn) : Carries e [subOp e]
  | txn {ops : List TxnSubOp} (isTxn : e.op = Op.txn) (payload : e.value = encodeTxnOps ops)
      (few : ops.length ≤ 65535) (distinct : (ops.map TxnSubOp.key).Nodup) : Carries e ops

/-- `e` is prepared against the history `h`. -/
structure Follows (h : List Entry) (e : Entry) : Prop where
  target : e.op = Op.compact → IsInt64 e.prevRevision
  revision : e.op ≠ Op.compact → revisionOf h < e.revision ∧ e.revision < 2 ^ 63
  ops : e.op ≠ Op.compact → ∃ ops, Carries e ops ∧
    ∀ o ∈ ops, Sized o ∧ Continues e.revision (headValue h o.key) o

/-- A history in which every entry was prepared against those before it. -/
inductive Chained : List Entry → Prop
  | nil : Chained []
  | snoc {h : List Entry} {e : Entry} (front : Chained h) (follows : Follows h e) :
      Chained (h ++ [e])

theorem chained_snoc : Chained (h ++ [e]) ↔ Chained h ∧ Follows h e := by
  constructor
  · intro chained
    generalize whole : h ++ [e] = all at chained
    cases chained with
    | nil => simp at whole
    | snoc front follows =>
      obtain ⟨rfl, last⟩ := append_inj' whole rfl
      cases last
      exact ⟨front, follows⟩
  · rintro ⟨front, follows⟩
    exact .snoc front follows

theorem Chained.of_append {es : List Entry} (chained : Chained (h ++ es)) : Chained h := by
  induction es using reverseRecOn with
  | nil => simpa using chained
  | append_singleton es e ih =>
    rw [← append_assoc] at chained
    exact ih (chained_snoc.mp chained).1

/-- Compaction targets never decrease. -/
def TargetsIncrease (h : List Entry) : Prop :=
  h.Pairwise (fun a b => a.op = Op.compact → b.op = Op.compact → a.prevRevision ≤ b.prevRevision)

/-- What holds of every live value of a chained history: it was created before, and
each of its versions took a revision of its own. -/
structure LiveBounds (rev : Int) (kv : KeyValue) : Prop where
  created : 0 < kv.createRevision
  modified : kv.createRevision ≤ kv.revision
  current : kv.revision ≤ rev
  positive : 0 < kv.version
  counted : kv.version ≤ kv.revision - kv.createRevision + 1

theorem LiveBounds.mono {rev' : Int} {kv : KeyValue} (bounds : LiveBounds rev kv)
    (later : rev ≤ rev') : LiveBounds rev' kv :=
  ⟨bounds.created, bounds.modified, bounds.current.trans later, bounds.positive, bounds.counted⟩

theorem Continues.op_ne {existing : Option KeyValue} {o : TxnSubOp}
    (continues : Continues rev existing o) : o.op ≠ Op.compact ∧ o.op ≠ Op.txn := by
  unfold Continues at continues
  cases existing with
  | none =>
    rw [continues.1]
    decide
  | some kv =>
    rcases continues.1 with update | delete
    · rw [update.1]
      decide
    · rw [delete.1]
      decide

section Operation

variable {rev last : Int} {existing : Option KeyValue} {o : TxnSubOp}

theorem Continues.wellTyped (continues : Continues rev existing o) (sized : Sized o)
    (newer : last < rev) (nonneg : 0 ≤ last) (fits : rev < 2 ^ 63)
    (live : ∀ kv ∈ existing, LiveBounds last kv) : o.WellTyped := by
  unfold Continues at continues
  cases existing with
  | none =>
    obtain ⟨-, created, prev, version⟩ := continues
    refine ⟨sized.key, sized.value, sized.lease, ?_, ?_, ?_⟩ <;> constructor <;> omega
  | some kv =>
    obtain ⟨op, created, prev⟩ := continues
    obtain ⟨low, modified, current, positive, counted⟩ := live kv rfl
    refine ⟨sized.key, sized.value, sized.lease, ?_, ?_, ?_⟩ <;> constructor <;> omega

theorem Continues.storable (continues : Continues rev existing o) (sized : Sized o)
    (newer : last < rev) (nonneg : 0 ≤ last) (fits : rev < 2 ^ 63)
    (live : ∀ kv ∈ existing, LiveBounds last kv) {sub : Option Nat}
    (few : ∀ i ∈ sub, i < 2 ^ 16) : (⟨rev, sub, o⟩ : Version).Storable := by
  have typed := continues.wellTyped sized newer nonneg fits live
  have positive : 0 < o.version := by
    unfold Continues at continues
    cases existing with
    | none => omega
    | some kv =>
      have := (live kv rfl).positive
      omega
  have version : entryVersion o.version = o.version := by rw [entryVersion, if_pos positive]
  have header : versionRecordHeaderLooksValid o.version o.createRevision o.prevRevision
      (o.op = Op.delete) := by
    unfold Continues at continues
    cases existing with
    | none =>
      obtain ⟨-, created, prev, one⟩ := continues
      unfold versionRecordHeaderLooksValid
      rw [if_neg (by omega), if_pos prev]
      simpa using one
    | some kv =>
      obtain ⟨op, created, prev⟩ := continues
      obtain ⟨low, modified, current, -, counted⟩ := live kv rfl
      rw [looksValid_eq positive (by omega) ⟨by omega, by omega⟩ ⟨by omega, by omega⟩]
      rcases op with update | delete
      · have notDelete : ¬ o.op = Op.delete := by
          rw [update.1]
          decide
        simp only [notDelete, decide_false, Bool.false_eq_true, if_false, decide_eq_true_iff]
        omega
      · simp only [delete.1, decide_true, if_true, decide_eq_true_iff]
        omega
  refine ⟨by simpa using (by omega : 0 < rev), fits, few, positive, ?_⟩
  refine ⟨typed.key, typed.lease, typed.createRevision, typed.prevRevision, ?_, ?_⟩
  · simp only [Version.record, txnRecord, version]
    exact typed.version
  · simp only [Version.record, txnRecord, version]
    exact header

theorem Continues.live (continues : Continues rev existing o) (newer : last < rev)
    (nonneg : 0 ≤ last) (live : ∀ kv ∈ existing, LiveBounds last kv) {sub : Option Nat}
    (kept : o.op ≠ Op.delete) : LiveBounds rev (⟨rev, sub, o⟩ : Version).kv := by
  unfold Continues at continues
  cases existing with
  | none =>
    obtain ⟨-, created, prev, version⟩ := continues
    constructor <;> simp only [Version.kv] <;> omega
  | some kv =>
    obtain ⟨op, created, prev⟩ := continues
    obtain ⟨low, modified, current, positive, counted⟩ := live kv rfl
    rcases op with update | delete
    · obtain ⟨-, version⟩ := update
      constructor <;> simp only [Version.kv] <;> omega
    · exact absurd delete.1 kept

end Operation

theorem txnVersions_map_change (rev : Int) (i : Nat) (ops : List TxnSubOp) :
    (txnVersions rev i ops).map Version.change = ops := by
  induction ops generalizing i with
  | nil => rfl
  | cons op rest ih => rw [txnVersions, map_cons, ih]

theorem Carries.versions (carries : Carries e ops) (data : e.op ≠ Op.compact)
    (typed : ∀ o ∈ ops, o.WellTyped) :
    (entryVersions e).map Version.change = ops ∧
      ∀ v ∈ entryVersions e, v.rev = e.revision ∧ ∀ i ∈ v.sub, i < 2 ^ 16 := by
  unfold entryVersions
  rw [if_neg data]
  cases carries with
  | single notTxn =>
    rw [if_neg notTxn]
    refine ⟨rfl, ?_⟩
    intro v mem
    rw [mem_singleton.mp mem]
    exact ⟨rfl, by simp⟩
  | txn isTxn payload few distinct =>
    rw [if_pos isTxn, payload, decodeTxnOps_encodeTxnOps typed (by omega)]
    refine ⟨txnVersions_map_change _ _ _, ?_⟩
    intro v mem
    refine ⟨rev_of_mem_txnVersions mem, ?_⟩
    obtain ⟨j, -, high, sub, -⟩ := sub_of_mem_txnVersions mem
    intro i isSub
    rw [sub] at isSub
    cases isSub
    omega

theorem Carries.distinct (carries : Carries e ops) : (ops.map TxnSubOp.key).Nodup := by
  cases carries with
  | single _ => simp
  | txn _ _ _ distinct => exact distinct

theorem revisionOf_lt_snoc (data : e.op ≠ Op.compact) (newer : revisionOf h < e.revision) :
    revisionOf (h ++ [e]) = e.revision := by
  rw [revisionOf_snoc, if_neg data, max_eq_right newer.le]

theorem headValue_snoc_compact (h : List Entry) (isCompact : e.op = Op.compact) (k : Bytes) :
    headValue (h ++ [e]) k = headValue h k := by
  unfold headValue
  rw [revisionOf_snoc, if_pos isCompact, changes_append]
  have none : changes [e] = [] := by
    rw [changes, versions_singleton, entryVersions, if_pos isCompact]
    rfl
  rw [none, append_nil]

/-! ## Touched keys -/

def entryKeys (e : Entry) : List Bytes := (entryVersions e).map Version.key

def touched (h : List Entry) : List Bytes := (versions h).map Version.key

theorem mem_touched {k : Bytes} : k ∈ touched h ↔ ∃ e ∈ h, k ∈ entryKeys e := by
  simp only [touched, entryKeys, versions, mem_map, mem_flatMap]
  constructor
  · intro found
    obtain ⟨v, ⟨e, inHistory, inEntry⟩, same⟩ := found
    exact ⟨e, inHistory, v, inEntry, same⟩
  · intro found
    obtain ⟨e, inHistory, v, inEntry, same⟩ := found
    exact ⟨v, ⟨e, inHistory, inEntry⟩, same⟩

theorem entryKeys_of_carries (carries : Carries e ops) (data : e.op ≠ Op.compact)
    (typed : ∀ o ∈ ops, o.WellTyped) : entryKeys e = ops.map TxnSubOp.key := by
  rw [← (carries.versions data typed).1, map_map]
  rfl

theorem entryKeys_compact (isCompact : e.op = Op.compact) : entryKeys e = [] := by
  rw [entryKeys, entryVersions, if_pos isCompact, map_nil]

theorem entryKeys_single (data : e.op ≠ Op.compact) (notTxn : e.op ≠ Op.txn) :
    entryKeys e = [e.key] := by
  rw [entryKeys, entryVersions, if_neg data, if_neg notTxn]
  rfl

theorem headValue_append (h h' : List Entry) (k : Bytes) :
    headValue (h ++ h') k = if k ∈ touched h' then headValue h' k else headValue h k := by
  have upTo : ∀ (l : List Entry), revisionOf l ≤ revisionOf (h ++ h') →
      Timeline.valueAt (changes l) k (revisionOf (h ++ h')) = headValue l k := by
    intro l below
    apply Timeline.valueAt_congr
    intro c mem
    obtain ⟨v, inVersions, rfl⟩ := mem_map.mp mem
    have le := rev_le_revisionOf inVersions
    exact iff_of_true (le.trans below) le
  have lower : revisionOf h ≤ revisionOf (h ++ h') := by
    rw [revisionOf_append]
    exact le_max_left _ _
  have upper : revisionOf h' ≤ revisionOf (h ++ h') := by
    rw [revisionOf_append]
    exact le_max_right _ _
  have same : (∃ c ∈ changes h', c.key = k ∧ c.rev ≤ revisionOf (h ++ h')) ↔ k ∈ touched h' := by
    rw [touched, mem_map]
    constructor
    · intro hit
      obtain ⟨c, mem, here, -⟩ := hit
      obtain ⟨v, inVersions, rfl⟩ := mem_map.mp mem
      exact ⟨v, inVersions, here⟩
    · intro hit
      obtain ⟨v, inVersions, here⟩ := hit
      exact ⟨v.toChange, mem_map.mpr ⟨v, inVersions, rfl⟩, here,
        (rev_le_revisionOf inVersions).trans upper⟩
  rw [← upTo h lower, ← upTo h' upper, headValue, changes_append, Timeline.valueAt_append]
  split
  · rename_i hit
    rw [if_pos (same.mp hit)]
  · rename_i miss
    rw [if_neg (fun hit => miss (same.mpr hit))]

section Snoc

variable {h : List Entry} {e : Entry} {ops : List TxnSubOp}

theorem headValue_snoc_of_mem (data : e.op ≠ Op.compact) (newer : revisionOf h < e.revision)
    (carries : Carries e ops) (typed : ∀ o ∈ ops, o.WellTyped) {o : TxnSubOp} (mem : o ∈ ops) :
    headValue (h ++ [e]) o.key =
      if o.op = Op.delete then none else some (⟨e.revision, none, o⟩ : Version).kv := by
  obtain ⟨exact_, bounds⟩ := carries.versions data typed
  have inVersions : o ∈ (entryVersions e).map Version.change := by
    rw [exact_]
    exact mem
  obtain ⟨v, inEntry, rfl⟩ := mem_map.mp inVersions
  have sameRev := (bounds v inEntry).1
  have new : v.toChange ∈ changes [e] := by
    rw [changes, versions_singleton]
    exact mem_map.mpr ⟨v, inEntry, rfl⟩
  have keys : ((changes [e]).map Change.key).Nodup := by
    have names : (changes [e]).map Change.key = ops.map TxnSubOp.key := by
      rw [changes, versions_singleton, map_map, ← exact_, map_map]
      rfl
    rw [names]
    exact carries.distinct
  unfold headValue
  rw [revisionOf_lt_snoc data newer, changes_append]
  have found := Timeline.valueAt_append_of_mem (changes h) (t := e.revision) new keys sameRev.le
  have value : v.toChange.value = if v.change.op = Op.delete then none
      else some (⟨e.revision, none, v.change⟩ : Version).kv := by
    rw [Version.toChange, Version.kv, Version.kv, sameRev]
  rw [← value]
  exact found

theorem headValue_snoc_of_not_mem (data : e.op ≠ Op.compact) (newer : revisionOf h < e.revision)
    (carries : Carries e ops) (typed : ∀ o ∈ ops, o.WellTyped) {k : Bytes}
    (absent : ∀ o ∈ ops, o.key ≠ k) : headValue (h ++ [e]) k = headValue h k := by
  obtain ⟨exact_, -⟩ := carries.versions data typed
  unfold headValue
  rw [revisionOf_lt_snoc data newer, changes_append, Timeline.valueAt_append_of_not_mem]
  · apply Timeline.valueAt_congr
    intro c mem
    obtain ⟨v, inVersions, rfl⟩ := mem_map.mp mem
    have upTo := rev_le_revisionOf inVersions
    exact iff_of_true (upTo.trans newer.le) upTo
  · intro c mem
    rw [changes, versions_singleton] at mem
    obtain ⟨v, inEntry, rfl⟩ := mem_map.mp mem
    apply absent v.change
    rw [← exact_]
    exact mem_map.mpr ⟨v, inEntry, rfl⟩

theorem Follows.typed (follows : Follows h e) (data : e.op ≠ Op.compact)
    (live : ∀ k, ∀ kv ∈ headValue h k, LiveBounds (revisionOf h) kv) :
    ∃ ops, Carries e ops ∧ (∀ o ∈ ops, o.WellTyped) ∧
      ∀ o ∈ ops, Sized o ∧ Continues e.revision (headValue h o.key) o := by
  obtain ⟨ops, carries, chain⟩ := follows.ops data
  obtain ⟨newer, fits⟩ := follows.revision data
  refine ⟨ops, carries, ?_, chain⟩
  intro o mem
  obtain ⟨sized, continues⟩ := chain o mem
  exact continues.wellTyped sized newer (revisionOf_nonneg h) fits (live o.key)

theorem storable_compact (isCompact : e.op = Op.compact) (target : IsInt64 e.prevRevision) :
    Storable e := by
  refine ⟨fun data => absurd isCompact data, fun _ => target, ?_, ?_⟩
  · intro isTxn
    rw [isCompact] at isTxn
    exact absurd isTxn (by decide)
  · intro v mem
    exact absurd isCompact (rev_of_mem_entryVersions mem).2

theorem Carries.storable (carries : Carries e ops) (data : e.op ≠ Op.compact)
    (pos : 0 < e.revision) (fits : e.revision < 2 ^ 63) (typed : ∀ o ∈ ops, o.WellTyped)
    (each : ∀ o ∈ ops, ∀ sub : Option Nat, (∀ i ∈ sub, i < 2 ^ 16) →
      (⟨e.revision, sub, o⟩ : Version).Storable) : Storable e := by
  refine ⟨fun _ => ⟨pos, fits⟩, fun compact => absurd compact data, ?_, ?_⟩
  · intro isTxn
    cases carries with
    | single notTxn => exact absurd isTxn notTxn
    | txn _ payload few distinct =>
      exact ⟨ops, by rw [payload, decodeTxnOps_encodeTxnOps typed (by omega)], by omega, distinct⟩
  · intro v mem
    obtain ⟨exact_, bounds⟩ := carries.versions data typed
    obtain ⟨sameRev, few⟩ := bounds v mem
    have inOps : v.change ∈ ops := by
      rw [← exact_]
      exact mem_map.mpr ⟨v, mem, rfl⟩
    have storable := each v.change inOps v.sub few
    rw [← sameRev] at storable
    exact storable

theorem Follows.storable (follows : Follows h e)
    (live : ∀ k, ∀ kv ∈ headValue h k, LiveBounds (revisionOf h) kv) : Storable e := by
  by_cases isCompact : e.op = Op.compact
  · exact storable_compact isCompact (follows.target isCompact)
  · obtain ⟨newer, fits⟩ := follows.revision isCompact
    have nonneg := revisionOf_nonneg h
    obtain ⟨ops, carries, typed, chain⟩ := follows.typed isCompact live
    refine carries.storable isCompact (by omega) fits typed ?_
    intro o mem sub few
    obtain ⟨sized, continues⟩ := chain o mem
    exact continues.storable sized newer nonneg fits (live o.key) few

theorem Follows.live (follows : Follows h e)
    (live : ∀ k, ∀ kv ∈ headValue h k, LiveBounds (revisionOf h) kv) (k : Bytes) :
    ∀ kv ∈ headValue (h ++ [e]) k, LiveBounds (revisionOf (h ++ [e])) kv := by
  intro kv held
  by_cases isCompact : e.op = Op.compact
  · rw [headValue_snoc_compact h isCompact] at held
    rw [revisionOf_snoc, if_pos isCompact]
    exact live k kv held
  · obtain ⟨newer, fits⟩ := follows.revision isCompact
    obtain ⟨ops, carries, typed, chain⟩ := follows.typed isCompact live
    rw [revisionOf_lt_snoc isCompact newer]
    by_cases touched : ∃ o ∈ ops, o.key = k
    · obtain ⟨o, mem, rfl⟩ := touched
      rw [headValue_snoc_of_mem isCompact newer carries typed mem] at held
      split at held
      · cases held
      · rename_i kept
        cases held
        exact (chain o mem).2.live newer (revisionOf_nonneg h) (live o.key) kept
    · rw [headValue_snoc_of_not_mem isCompact newer carries typed
        (fun o mem same => touched ⟨o, mem, same⟩)] at held
      exact (live k kv held).mono newer.le

end Snoc

theorem Chained.live (chained : Chained h) (k : Bytes) :
    ∀ kv ∈ headValue h k, LiveBounds (revisionOf h) kv := by
  induction chained generalizing k with
  | nil =>
    intro kv held
    cases held
  | snoc _ follows ih => exact follows.live ih k

/-- **Every history of the write path can be stored.** -/
theorem Chained.wellFormed (chained : Chained h) : WellFormed h := by
  induction chained with
  | nil => exact WellFormed.nil
  | snoc front follows ih =>
    refine wellFormed_snoc.mpr ⟨ih, follows.storable front.live, ?_⟩
    intro data earlier mem earlierData
    exact lt_of_le_of_lt (le_revisionOf mem earlierData) (follows.revision data).1

/-! ## Watermarks -/

theorem targetOf_mem (h : List Entry) :
    targetOf h = 0 ∨ ∃ e ∈ h, e.op = Op.compact ∧ e.prevRevision = targetOf h := by
  induction h using reverseRecOn with
  | nil => exact Or.inl rfl
  | append_singleton h e ih =>
    rw [targetOf_snoc]
    split
    · rename_i isCompact
      exact Or.inr ⟨e, by simp, isCompact, rfl⟩
    · rcases ih with zero | found
      · exact Or.inl zero
      · obtain ⟨c, mem, isCompact, same⟩ := found
        exact Or.inr ⟨c, by simp [mem], isCompact, same⟩

theorem watermarkOf_append_le {es : List Entry} {bound : Int} (old : watermarkOf h ≤ bound)
    (new : ∀ e ∈ es, e.op = Op.compact → e.prevRevision ≤ bound) :
    watermarkOf (h ++ es) ≤ bound := by
  induction es using reverseRecOn with
  | nil => simpa using old
  | append_singleton es e ih =>
    have front := ih (fun c mem => new c (by simp [mem]))
    rw [← append_assoc, watermarkOf_snoc]
    split
    · have := new e (by simp) ‹_›
      omega
    · exact front

theorem watermarkOf_le_append (h es : List Entry) : watermarkOf h ≤ watermarkOf (h ++ es) := by
  induction es using reverseRecOn with
  | nil => rw [append_nil]
  | append_singleton es e ih =>
    rw [← append_assoc, watermarkOf_snoc]
    split
    · exact ih.trans (le_max_left _ _)
    · exact ih

theorem targetOf_le_watermarkOf (h : List Entry) : targetOf h ≤ watermarkOf h := by
  induction h using reverseRecOn with
  | nil => exact le_rfl
  | append_singleton h e ih =>
    rw [targetOf_snoc, watermarkOf_snoc]
    split
    · exact le_max_right _ _
    · exact ih

theorem TargetsIncrease.watermarkOf_le (increase : TargetsIncrease h) :
    watermarkOf h ≤ max 0 (targetOf h) := by
  induction h using reverseRecOn with
  | nil => exact le_max_left 0 _
  | append_singleton h e ih =>
    obtain ⟨front, -, pairs⟩ := pairwise_append.mp increase
    have before := ih front
    rw [watermarkOf_snoc, targetOf_snoc]
    split
    · rename_i isCompact
      have lower : targetOf h ≤ max 0 e.prevRevision := by
        rcases targetOf_mem h with zero | found
        · rw [zero]
          exact le_max_left _ _
        · obtain ⟨c, mem, wasCompact, same⟩ := found
          rw [← same]
          exact (pairs c mem e (by simp) wasCompact isCompact).trans (le_max_right _ _)
      omega
    · exact before

theorem WellFormed.revisionOf_fits (wf : WellFormed h) : revisionOf h < 2 ^ 63 := by
  rcases (revisionOf_nonneg h).eq_or_lt with zero | pos
  · omega
  · obtain ⟨e, mem, data, same⟩ := exists_revisionOf pos
    have := ((wf.storable e mem).revision data).2
    omega

end T4.Mvcc
