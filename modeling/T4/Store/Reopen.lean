import T4.Store.Reads
import T4.Wal.Segment

/-!
# Reopening a store

A store that is opened again reads its counters from Pebble, and replays the entries
that Pebble has lost. On a history numbered as the write path numbers it, the counters
read back are those that were in memory, and replaying a batch (`Recover`) does exactly
what applying it did.
-/

namespace T4.Mvcc

open Lib Bytes SortedMap Wal List

/-! ## Recover and Apply -/

variable {h es : List Entry} {db : Pebble} {s : Store}

theorem runBatch_recoverOne (committed : Represents db (versions h) (watermarkOf h))
    (es rest : List Entry) (b : Batch) (wf : WellFormed (h ++ es ++ rest)) :
    runBatch (recoverOne db) b rest = runBatch (applyOne db) b rest := by
  induction rest generalizing es b with
  | nil => rfl
  | cons e rest ih =>
    have regroup : h ++ es ++ e :: rest = h ++ (es ++ [e]) ++ rest := by simp
    rw [regroup] at wf
    have wfHere : WellFormed (h ++ es ++ [e]) := by
      have front := wf.sublist (sublist_append_left _ _)
      rwa [← append_assoc] at front
    rw [runBatch, runBatch, recoverOne_eq_applyOne committed wfHere]
    cases applyOne db b e with
    | error err => rfl
    | ok b => exact ih (es ++ [e]) b wf

theorem Store.Represents.recover_eq_apply (rep : s.Represents h) (wf : WellFormed (h ++ es)) :
    s.recover es = s.apply es := by
  unfold Store.recover Store.apply
  rw [runBatch_recoverOne rep.pebble [] es _ (by simpa using wf)]

def applyAll (s : Store) (batches : List (List Entry)) : Store :=
  batches.foldl (fun s es => (s.apply es).1) s

theorem applyAll_snoc (s : Store) (batches : List (List Entry)) (es : List Entry) :
    applyAll s (batches ++ [es]) = ((applyAll s batches).apply es).1 := by
  simp [applyAll]

theorem Store.Represents.applyAll (rep : s.Represents h) (batches : List (List Entry))
    (wf : WellFormed (h ++ batches.flatten)) :
    (applyAll s batches).Represents (h ++ batches.flatten) := by
  induction batches using reverseRecOn with
  | nil => simpa [Mvcc.applyAll] using rep
  | append_singleton batches es ih =>
    rw [flatten_append, flatten_singleton, ← append_assoc] at wf ⊢
    have front := ih (wf.sublist (sublist_append_left _ _))
    obtain ⟨next, applies, represents⟩ := front.apply wf
    rw [applyAll_snoc, applies]
    exact represents

def commitsFrom (s : Store) : List (List Entry) → List Pebble
  | [] => []
  | es :: rest => (s.apply es).1.db :: commitsFrom (s.apply es).1 rest

theorem commitsFrom_append (s : Store) (batches later : List (List Entry)) :
    commitsFrom s (batches ++ later) =
      commitsFrom s batches ++ commitsFrom (applyAll s batches) later := by
  induction batches generalizing s with
  | nil => rfl
  | cons es rest ih =>
    rw [cons_append, commitsFrom, commitsFrom, ih]
    rfl

theorem take_commitsFrom (s : Store) (batches : List (List Entry)) (k : Nat) :
    (s.db :: commitsFrom s batches).take (k + 1) = s.db :: commitsFrom s (batches.take k) := by
  induction batches generalizing s k with
  | nil => simp [commitsFrom]
  | cons es rest ih =>
    cases k with
    | zero => rfl
    | succ k =>
      have later := ih (s.apply es).1 k
      rw [commitsFrom, take_succ_cons, later]
      rfl

theorem getElem?_commitsFrom {batches : List (List Entry)} {k : Nat}
    (kept : (s.db :: commitsFrom s batches)[k]? = some db) :
    k ≤ batches.length ∧ db = (applyAll s (batches.take k)).db := by
  induction batches generalizing s k with
  | nil =>
    cases k with
    | zero => exact ⟨le_rfl, (Option.some.inj kept).symm⟩
    | succ k => cases kept
  | cons es rest ih =>
    cases k with
    | zero => exact ⟨Nat.zero_le _, (Option.some.inj kept).symm⟩
    | succ k =>
      obtain ⟨bound, same⟩ := ih (s := (s.apply es).1) kept
      exact ⟨Nat.succ_le_succ bound, same⟩

/-! ## Recorded histories -/

/-- A history as the write path numbers and writes it. -/
structure Recorded (h : List Entry) : Prop where
  chained : Chained h
  consecutive : Consecutive 1 h
  framed : ∀ e ∈ h, Framed e
  bounded : ∀ e ∈ h, e.op ≠ Op.compact → e.revision ≤ e.sequence

namespace Recorded

variable {h es : List Entry}

theorem nil : Recorded [] := ⟨.nil, trivial, by simp, by simp⟩

theorem of_append (recorded : Recorded (h ++ es)) : Recorded h :=
  ⟨recorded.chained.of_append, (consecutive_append.mp recorded.consecutive).1,
    fun e mem => recorded.framed e (mem_append_left _ mem),
    fun e mem => recorded.bounded e (mem_append_left _ mem)⟩

theorem of_prefix (recorded : Recorded h) (front : es <+: h) : Recorded es := by
  obtain ⟨rest, rfl⟩ := front
  exact recorded.of_append

theorem wellFormed (recorded : Recorded h) : WellFormed h := recorded.chained.wellFormed

theorem exists_store (recorded : Recorded h) :
    ∃ db, Store.empty.apply h = (db, none) ∧ db.Represents h :=
  Store.represents_empty.apply recorded.wellFormed

theorem sequenceOf_eq (recorded : Recorded h) : sequenceOf h = h.length := by
  have counted := Consecutive.sequenceOf_append (h := []) recorded.consecutive
  simpa [sequenceOf] using counted

theorem sequence_le (recorded : Recorded h) {e : Entry} (mem : e ∈ h) :
    0 < e.sequence ∧ e.sequence ≤ h.length := by
  obtain ⟨i, at_⟩ := mem_iff_getElem?.mp mem
  have number := recorded.consecutive.get at_
  obtain ⟨bound, -⟩ := List.getElem?_eq_some_iff.mp at_
  omega

theorem sequenced (recorded : Recorded h) : Sequenced h := by
  refine ⟨fun e mem => (recorded.sequence_le mem).1, ?_, ?_⟩
  · intro e mem
    have framed := recorded.framed e mem
    rw [Entry.sequence, if_pos framed.identified]
    exact framed.typed.id.2
  · exact recorded.consecutive.pairwise

theorem revisionOf_le (recorded : Recorded h) : revisionOf h ≤ h.length := by
  induction h using reverseRecOn with
  | nil => simp [revisionOf]
  | append_singleton h e ih =>
    have before := ih recorded.of_append
    have last := recorded.sequence_le (e := e) (by simp)
    rw [length_append, length_singleton] at last ⊢
    rw [revisionOf_snoc]
    split
    · omega
    · rename_i data
      have bounded := recorded.bounded e (by simp) data
      omega

theorem sequence_above (recorded : Recorded (h ++ es)) {e : Entry} (mem : e ∈ es) :
    (h.length : Int) < e.sequence := by
  obtain ⟨i, at_⟩ := mem_iff_getElem?.mp mem
  have number := (consecutive_append.mp recorded.consecutive).2.get at_
  omega

theorem filter_above (recorded : Recorded (h ++ es)) :
    (h ++ es).filter (fun e => e.sequence > (h.length : Int)) = es := by
  have low : h.filter (fun e => e.sequence > (h.length : Int)) = [] := by
    rw [filter_eq_nil_iff]
    intro e mem
    simpa using (recorded.of_append.sequence_le mem).2
  have high : es.filter (fun e => e.sequence > (h.length : Int)) = es := by
    rw [filter_eq_self]
    intro e mem
    simpa using recorded.sequence_above mem
  rw [filter_append, low, high, nil_append]

theorem filter_upTo (recorded : Recorded (h ++ es)) :
    (h ++ es).filter (fun e => e.sequence ≤ (h.length : Int)) = h := by
  have low : h.filter (fun e => e.sequence ≤ (h.length : Int)) = h := by
    rw [filter_eq_self]
    intro e mem
    simpa using (recorded.of_append.sequence_le mem).2
  have high : es.filter (fun e => e.sequence ≤ (h.length : Int)) = [] := by
    rw [filter_eq_nil_iff]
    intro e mem
    simpa using recorded.sequence_above mem
  rw [filter_append, low, high, append_nil]

end Recorded

theorem sampleHistory_recorded : Recorded sampleHistory :=
  ⟨sampleHistory_chained, ⟨rfl, rfl, rfl, rfl, trivial⟩, by decide, by decide⟩

/-! ## The counters in Pebble -/

theorem Store.Represents.range_log_empty (rep : s.Represents h) (wf : WellFormed h)
    (zero : revisionOf h = 0) : s.db.range logLower logUpper = [] := by
  have none : versions h = [] := by
    rw [eq_nil_iff_forall_not_mem]
    intro v mem
    have pos := (wf.version_storable mem).pos
    have le := rev_le_revisionOf mem
    omega
  rw [Sound.range_slots rep.pebble.sound wf.logged, none]
  · rfl
  · intro key
    rw [logLower_eq]
    exact idxKey_lt_logKey key 0
  · decide

theorem Store.Represents.loadMeta_currentRev (rep : s.Represents h) (wf : WellFormed h) :
    (loadMeta s.db).currentRev = s.currentRev := by
  have nonneg := revisionOf_nonneg h
  unfold Mvcc.loadMeta
  by_cases zero : revisionOf h = 0
  · simp only [rep.metaRev, zero, if_true, rep.range_log_empty wf zero, rep.currentRev]
    rfl
  · simp only [rep.metaRev, zero, if_false, rep.currentRev]
    exact decodeRev_encodeRev ⟨by omega, wf.revisionOf_fits⟩

theorem Store.Represents.loadMeta (rep : s.Represents h) (recorded : Recorded h) :
    loadMeta s.db = s := by
  have compactRev : (Mvcc.loadMeta s.db).compactRev = s.compactRev :=
    rep.metaCompact.trans rep.compactRev.symm
  have currentRev := rep.loadMeta_currentRev recorded.wellFormed
  have lastSeq : (Mvcc.loadMeta s.db).lastSeq = s.lastSeq := by
    have read : (Mvcc.loadMeta s.db).lastSeq =
        if ((s.db.get metaLastSeqKey).map decodeRev).getD 0 < (Mvcc.loadMeta s.db).currentRev
        then (Mvcc.loadMeta s.db).currentRev
        else ((s.db.get metaLastSeqKey).map decodeRev).getD 0 := rfl
    have bounded : ¬ sequenceOf h < revisionOf h := by
      rw [recorded.sequenceOf_eq]
      have := recorded.revisionOf_le
      omega
    rw [read, rep.metaSeq recorded.sequenced, currentRev, rep.currentRev, if_neg bounded,
      rep.lastSeq]
  cases s
  exact Store.ext rfl currentRev compactRev lastSeq

namespace Recorded

variable {batches : List (List Entry)}

theorem represents (recorded : Recorded batches.flatten) :
    (applyAll Store.empty batches).Represents batches.flatten := by
  have applied := Store.represents_empty.applyAll batches recorded.wellFormed
  rwa [nil_append] at applied

theorem lastSeq (recorded : Recorded batches.flatten) :
    (applyAll Store.empty batches).lastSeq = batches.flatten.length := by
  rw [recorded.represents.lastSeq, recorded.sequenceOf_eq]

theorem loadMeta (recorded : Recorded batches.flatten) :
    loadMeta (applyAll Store.empty batches).db = applyAll Store.empty batches :=
  recorded.represents.loadMeta recorded

end Recorded

/-! ## Recover does not fail -/

def Store.Readable (s : Store) : Prop :=
  ∀ lo hi, ∀ binding ∈ s.db.range (logKey lo) (logKey hi), ∃ r, unmarshalRecord binding.2 = .ok r

/-- Every transaction among the entries decodes. -/
def Decodable (es : List Entry) : Prop :=
  ∀ e ∈ es, e.op = Op.txn → ∃ ops, decodeTxnOps e.value = .ok ops

theorem anyRecordOf_ok {key : Bytes} {bindings : List (Bytes × Bytes)}
    (readable : ∀ binding ∈ bindings, ∃ r, unmarshalRecord binding.2 = .ok r) :
    ∃ found, anyRecordOf key bindings = .ok found := by
  induction bindings with
  | nil => exact ⟨false, rfl⟩
  | cons binding rest ih =>
    obtain ⟨r, decoded⟩ := readable binding (by simp)
    rw [anyRecordOf, decoded]
    dsimp only
    split
    · exact ⟨true, rfl⟩
    · exact ih (fun other mem => readable other (mem_cons_of_mem _ mem))

theorem compactScan_ok (readable : s.Readable) (compactRev : Int) {bindings : List (Bytes × Bytes)}
    (decodes : ∀ binding ∈ bindings, ∃ r, unmarshalRecord binding.2 = .ok r) :
    ∃ ops, compactScan s.db compactRev bindings = .ok ops := by
  induction bindings with
  | nil => exact ⟨[], rfl⟩
  | cons binding rest ih =>
    obtain ⟨r, decoded⟩ := decodes binding (by simp)
    obtain ⟨ops, scanned⟩ := ih (fun other mem => decodes other (mem_cons_of_mem _ mem))
    obtain ⟨found, later⟩ : ∃ found,
        hasLaterRevisionAtOrBefore s.db r.key (decodeLogKey binding.1) compactRev = .ok found := by
      unfold hasLaterRevisionAtOrBefore
      split
      · exact ⟨false, rfl⟩
      · exact anyRecordOf_ok (readable _ _)
    rw [compactScan, decoded]
    simp only [later, scanned]
    exact ⟨_, rfl⟩

theorem recoverOne_ok (readable : s.Readable) (b : Batch) {e : Entry}
    (decodes : e.op = Op.txn → ∃ ops, decodeTxnOps e.value = .ok ops) :
    ∃ next, recoverOne s.db b e = .ok next := by
  unfold recoverOne applyOne
  by_cases compacts : e.op = Op.compact
  · obtain ⟨deletes, scanned⟩ :=
      compactScan_ok readable e.prevRevision (readable b.compactRev e.prevRevision)
    simp only [if_pos compacts, applyCompact, scanned]
    exact ⟨_, rfl⟩
  · obtain ⟨ops, applied⟩ : ∃ ops, applyEntry e = .ok ops := by
      unfold applyEntry applyTxnEntry
      split
      · rename_i isTxn
        obtain ⟨subOps, decoded⟩ := decodes isTxn
        rw [decoded]
        exact ⟨_, rfl⟩
      · exact ⟨_, rfl⟩
    simp only [if_neg compacts, applied]
    exact ⟨_, rfl⟩

/-- **Recover succeeds** on a store and entries that decode. -/
theorem Store.Readable.recover (readable : s.Readable) (decodes : Decodable es) :
    (s.recover es).2 = none := by
  have ran : ∀ b, (runBatch (recoverOne s.db) b es).2 = none := by
    induction es with
    | nil => exact fun b => rfl
    | cons e rest ih =>
      intro b
      obtain ⟨next, applied⟩ := recoverOne_ok readable b (decodes e (by simp))
      rw [runBatch, applied]
      exact ih (fun other mem => decodes other (mem_cons_of_mem _ mem)) next
  unfold Store.recover
  split
  · rfl
  · unfold finishBatch
    split
    · rename_i failed
      have none := ran { compactRev := s.compactRev }
      rw [failed] at none
      cases none
    · rfl

theorem recoverOne_maxSeq {b next : Batch} {e : Entry} (ran : recoverOne db b e = .ok next) :
    next.maxSeq = max b.maxSeq e.sequence := by
  unfold recoverOne applyOne at ran
  by_cases compacts : e.op = Op.compact
  · simp only [if_pos compacts] at ran
    unfold applyCompact at ran
    cases scanned : compactScan db e.prevRevision
        (db.range (logKey b.compactRev) (logKey e.prevRevision)) with
    | error err => simp [scanned] at ran
    | ok deletes =>
      simp only [scanned, Except.ok.injEq] at ran
      rw [← ran]
  · simp only [if_neg compacts] at ran
    cases applied : applyEntry e with
    | error err => simp [applied] at ran
    | ok ops =>
      simp only [applied, Except.ok.injEq] at ran
      rw [← ran]

theorem Store.recover_lastSeq {next : Store} (nonneg : 0 ≤ s.lastSeq)
    (ran : s.recover es = (next, none)) : next.lastSeq = max s.lastSeq (sequenceOf es) := by
  have counted : ∀ b b', runBatch (recoverOne s.db) b es = (b', none) →
      b'.maxSeq = es.foldl (fun seq e => max seq e.sequence) b.maxSeq := by
    clear ran
    induction es with
    | nil =>
      intro b b' same
      cases same
      rfl
    | cons e rest ih =>
      intro b b' run
      rw [runBatch] at run
      cases here : recoverOne s.db b e with
      | error err => simp [here] at run
      | ok b'' =>
        simp only [here] at run
        rw [ih b'' b' run, recoverOne_maxSeq here, foldl_cons]
  unfold Store.recover at ran
  split at ran
  · rename_i empty
    cases ran
    rw [empty]
    exact (max_eq_left nonneg).symm
  · unfold finishBatch at ran
    split at ran
    · cases ran
    · rename_i b same
      cases ran
      exact congrArg (max s.lastSeq) (counted _ _ same)

/-! ## Observations -/

/-- What a client can read from two stores is the same: the counters, and HEAD and
historical reads at or above the compaction revision. -/
structure ObservablyEqual (s s' : Store) : Prop where
  currentRev : s.currentRev = s'.currentRev
  compactRev : s.compactRev = s'.compactRev
  lastSeq : s.lastSeq = s'.lastSeq
  get : ∀ k, s.get k = s'.get k
  getAt : ∀ k t, 0 ≤ t → s.compactRev ≤ t → s.getAt k t = s'.getAt k t
  list : ∀ pfx fromKey limit,
    s.listRange pfx { fromKey, limit } = s'.listRange pfx { fromKey, limit }
  listAt : ∀ pfx fromKey limit t, 0 ≤ t → s.compactRev ≤ t →
    s.listRange pfx { revision := t, fromKey, limit } =
      s'.listRange pfx { revision := t, fromKey, limit }

/-- Two stores of one history look alike, however each was fed. -/
theorem Store.Represents.observablyEqual {s' : Store} (rep : s.Represents h)
    (rep' : s'.Represents h) (wf : WellFormed h) (increase : TargetsIncrease h) :
    ObservablyEqual s s' := by
  have currentRev := rep.currentRev.trans rep'.currentRev.symm
  have compactRev := rep.compactRev.trans rep'.compactRev.symm
  have above : ∀ t, 1 ≤ t → s.compactRev ≤ t → watermarkOf h ≤ t := by
    intro t pos beyond
    have watermark := increase.watermarkOf_le
    rw [rep.compactRev] at beyond
    omega
  have get : ∀ k, s.get k = s'.get k := fun k => by rw [rep.get wf, rep'.get wf]
  have list : ∀ pfx fromKey limit,
      s.listRange pfx { fromKey, limit } = s'.listRange pfx { fromKey, limit } :=
    fun pfx fromKey limit => by rw [rep.listHead wf, rep'.listHead wf]
  have alike : ShowAlike s s' (versions h) (versions h) s.compactRev := by
    intro k t pos beyond _
    rw [rep.pebble.valueAt_visible wf.logged (above t pos beyond),
      rep'.pebble.valueAt_visible wf.logged (above t pos beyond)]
  have fits : s.currentRev < 2 ^ 63 := rep.currentRev ▸ wf.revisionOf_fits
  have reads := alike.readsAlike rep.pebble.sound wf.logged rep'.pebble.sound wf.logged currentRev
    fits le_rfl compactRev.ge get list
  exact ⟨currentRev, compactRev, rep.lastSeq.trans rep'.lastSeq.symm, get, reads.getAt, list,
    reads.listAt⟩

end T4.Mvcc
