import T4.Store.Inherited
import T4.Store.Legacy
import T4.WritePath.Numbers

/-!
# What the write path stores

A record decodes to what was written only if its version is plausible for its
revisions. That is a property of whole histories of a key: every write counts the
version up by one and takes a revision of its own, and every delete keeps both.

The invariant here (`Kept`) needs neither a store that represents a history nor clean
steps: it survives rejected batches, failed applications and dropped deletes, and the
store may start with records of an earlier release, whose version reads as 1.
-/

namespace T4.WritePath

open Lib Bytes Wal Mvcc List

/-- A node that starts to accept writes over a store of this or of an earlier release. -/
structure Opens (s : WriteState) : Prop where
  stored : Inherits s.node.db.db s.node.db.currentRev []
  nonneg : 0 ≤ s.node.db.currentRev
  fits : s.node.db.currentRev < 2 ^ 63
  nextRev : s.node.nextRev = s.node.db.currentRev
  nextSeq : s.node.nextSeq = s.node.db.lastSeq
  fresh : s = { node := { s.node with pending := SortedMap.empty, writeC := [] } }

variable {s start : WriteState} {past : List WriteAction}

/-- Every start of the write path over a store of this release is one. -/
theorem opens_of_starts {h : List Entry} (starts : Starts h s) : Opens s := by
  have stored := starts.stored.pebble.inherits starts.chained
  rw [← starts.stored.currentRev] at stored
  refine ⟨stored, ?_, ?_, starts.nextRev, starts.nextSeq, starts.fresh⟩
  · rw [starts.stored.currentRev]
    exact revisionOf_nonneg h
  · rw [starts.stored.currentRev]
    exact starts.chained.wellFormed.revisionOf_fits

/-- The invariant of a node whose store inherited the revisions up to `base`. -/
structure Kept (base : Int) (s : WriteState) : Prop where
  nonneg : 0 ≤ base
  above : base ≤ s.node.nextRev
  fits : s.node.nextRev < 2 ^ 63
  wellFormed : WellFormed s.assigned
  range : ∀ e ∈ s.assigned, e.op ≠ Op.compact → base < e.revision ∧ e.revision ≤ s.node.nextRev
  live : ∀ v ∈ versions s.assigned, v.change.op ≠ Op.delete → LiveBounds s.node.nextRev v.kv
  pending : ∀ k p, s.node.pending.get k = some p →
    ∀ kv ∈ p.value, LiveBounds s.node.nextRev (counted kv)
  stored : Inherits s.node.db.db base (versions s.wal)
  appended : ∀ batch, s.phase = .appended batch → entries batch ⊆ s.wal

theorem Opens.kept (opens : Opens s) : Kept s.node.db.currentRev s := by
  have stored := opens.stored
  have nextRev := opens.nextRev
  have noEntries : s.assigned = [] := by
    rw [opens.fresh]
    rfl
  have noPending : ∀ k, s.node.pending.get k = none := by
    intro k
    rw [opens.fresh]
    rfl
  have idle : s.phase = .idle := by rw [opens.fresh]
  have noWal : s.wal = [] := by rw [opens.fresh]
  have fits := opens.fits
  refine ⟨opens.nonneg, nextRev.ge, by omega, ?_, ?_, ?_, ?_, ?_, ?_⟩
  · rw [noEntries]
    exact WellFormed.nil
  · intro e mem
    rw [noEntries] at mem
    cases mem
  · intro v mem
    rw [noEntries] at mem
    cases mem
  · intro k p held
    rw [noPending] at held
    cases held
  · rw [noWal]
    exact stored
  · intro batch isAppended
    rw [idle] at isAppended
    cases isAppended

theorem credible_live {r : Record} {rev : Int} (credible : r.Credible rev) (key : Bytes) :
    LiveBounds rev (counted (recordToKV key rev r)) := by
  obtain ⟨created, modified, bound⟩ := credible
  have version : kvVersion (recordToKV key rev r) = max 1 r.version := by
    by_cases positive : r.version > 0
    · simp only [kvVersion, recordToKV, recordVersion, if_pos positive]
      omega
    · cases r.delete <;> simp [kvVersion, recordToKV, recordVersion, positive] <;> omega
  refine ⟨created, modified, le_rfl, ?_, ?_⟩
  · simp only [counted, version]
    omega
  · change kvVersion (recordToKV key rev r) ≤ rev - r.createRevision + 1
    omega

section Kept

variable {base : Int} {s next : WriteState}

theorem wal_sublist_assigned (s : WriteState) : s.wal.Sublist s.assigned :=
  sublist_append_left _ _

theorem versions_subset {h h' : List Entry} (sub : h ⊆ h') : versions h ⊆ versions h' := by
  intro v mem
  obtain ⟨e, inH, inEntry⟩ := mem_flatMap.mp mem
  exact mem_flatMap.mpr ⟨e, sub inH, inEntry⟩

theorem Kept.logged (kept : Kept base s) : Logged (versions s.wal) :=
  (kept.wellFormed.sublist (wal_sublist_assigned s)).logged

theorem Kept.newer (kept : Kept base s) : ∀ v ∈ versions s.wal, base < v.rev := by
  intro v mem
  obtain ⟨e, inWal, inEntry⟩ := mem_flatMap.mp mem
  obtain ⟨sameRev, data⟩ := rev_of_mem_entryVersions inEntry
  rw [sameRev]
  exact (kept.range e ((wal_sublist_assigned s).subset inWal) data).1

theorem Kept.readKey (kept : Kept base s) {k : Bytes} {kv : KeyValue}
    (read : s.node.readKey k = .ok (some kv)) : LiveBounds s.node.nextRev (counted kv) := by
  rw [readKey_eq] at read
  have above := kept.above
  have fits := kept.fits
  split at read
  · rename_i p held
    exact kept.pending k p held kv (Except.ok.inj read)
  · rcases kept.stored.get kept.logged (by omega) kept.newer read with old | new
    · obtain ⟨rev, r, upTo, credible, rfl⟩ := old
      exact (credible_live credible k).mono (by omega)
    · obtain ⟨v, mem, -, notDelete, rfl⟩ := new
      have inAssigned := versions_subset (wal_sublist_assigned s).subset mem
      have live := kept.live v inAssigned notDelete
      rwa [counted_of_pos live.positive]

/-! ## A call -/

variable {e : Entry} {ops : List TxnSubOp} {basis : Basis} {key : Bytes} {node : Node}

theorem Kept.queues (kept : Kept base s) (queues : s.node.Queues e ops basis key node)
    (room : s.node.nextRev < 2 ^ 63 - 1) :
    Storable e ∧ (∀ v ∈ entryVersions e, v.change.op ≠ Op.delete → LiveBounds e.revision v.kv) ∧
      (e.op ≠ Op.compact → (entryVersions e).map Version.change = ops ∧
        ∀ o ∈ ops, o.op ≠ Op.delete →
          LiveBounds e.revision (⟨e.revision, none, o⟩ : Version).kv) := by
  have nonneg : 0 ≤ s.node.nextRev := kept.nonneg.trans kept.above
  by_cases isCompact : e.op = Op.compact
  · refine ⟨storable_compact isCompact (queues.compact isCompact).2.2.2.2, ?_,
      fun data => absurd isCompact data⟩
    intro v mem
    exact absurd isCompact (rev_of_mem_entryVersions mem).2
  · obtain ⟨revision, carries, continued⟩ := queues.data isCompact
    have read : ∀ o ∈ ops, ∃ existing, Sized o ∧ Continues e.revision existing o ∧
        ∀ kv ∈ existing, LiveBounds s.node.nextRev kv := by
      intro o mem
      obtain ⟨sized, existing, read, continues⟩ := continued o mem
      refine ⟨_, sized, continues, ?_⟩
      intro kv found
      obtain ⟨old, isOld, rfl⟩ := Option.map_eq_some_iff.mp found
      rw [isOld] at read
      exact kept.readKey read
    have typed : ∀ o ∈ ops, o.WellTyped := by
      intro o mem
      obtain ⟨existing, sized, continues, live⟩ := read o mem
      exact continues.wellTyped sized (by omega) nonneg (by omega) live
    have bounds : ∀ o ∈ ops, o.op ≠ Op.delete → ∀ sub,
        LiveBounds e.revision (⟨e.revision, sub, o⟩ : Version).kv := by
      intro o mem notDelete sub
      obtain ⟨existing, -, continues, live⟩ := read o mem
      exact continues.live (by omega) nonneg live notDelete
    obtain ⟨changes, places⟩ := carries.versions isCompact typed
    refine ⟨carries.storable isCompact (by omega) (by omega) typed ?_, ?_,
      fun _ => ⟨changes, fun o mem notDelete => bounds o mem notDelete none⟩⟩
    · intro o mem sub few
      obtain ⟨existing, sized, continues, live⟩ := read o mem
      exact continues.storable sized (by omega) nonneg (by omega) live few
    · intro v mem notDelete
      have inOps : v.change ∈ ops := by
        rw [← changes]
        exact mem_map.mpr ⟨v, mem, rfl⟩
      have found := bounds v.change inOps notDelete v.sub
      rw [← (places v mem).1] at found ⊢
      exact found

theorem Node.Queues.le_revision {n node : Node} (queues : n.Queues e ops basis key node) :
    n.nextRev ≤ e.revision := by
  by_cases isCompact : e.op = Op.compact
  · exact (queues.compact isCompact).1.ge
  · have := (queues.data isCompact).1
    omega

theorem Kept.pending_noted (kept : Kept base s) (queues : s.node.Queues e ops basis key node)
    (room : s.node.nextRev < 2 ^ 63 - 1) {k : Bytes} {p : PendingKV}
    (held : node.pending.get k = some p) : ∀ kv ∈ p.value, LiveBounds e.revision (counted kv) := by
  rw [queues.next] at held
  change (s.node.setPending e.revision ops).pending.get k = some p at held
  intro kv found
  by_cases noted : ∃ o ∈ ops, o.key = k
  · obtain ⟨o, mem, rfl⟩ := noted
    have data : e.op ≠ Op.compact := by
      intro isCompact
      rw [(queues.compact isCompact).2.1] at mem
      cases mem
    obtain ⟨-, -, stored⟩ := kept.queues queues room
    rw [get_setPending_of_mem (queues.data data).2.1.distinct mem] at held
    cases held
    rw [pendingOf_value] at found
    split at found
    · cases found
    · rename_i notDelete
      cases found
      have live := (stored data).2 o mem notDelete
      rwa [counted_of_pos live.positive]
  · rw [get_setPending_of_not_mem (fun o mem same => noted ⟨o, mem, same⟩)] at held
    exact (kept.pending k p held kv found).mono queues.le_revision

theorem Kept.queued (kept : Kept base s) (queues : s.node.Queues e ops basis key node)
    (room : s.node.nextRev < 2 ^ 63 - 1) (id calls : Nat) (waiting : List Waiter) :
    Kept base { s with
      node := { node with writeC := node.writeC ++ [{ id, entry := e, basis }] }
      calls
      waiting } := by
  obtain ⟨storable, live, -⟩ := kept.queues queues room
  have later := queues.le_revision
  have nextRev : node.nextRev = e.revision := by rw [queues.next, Node.noted]
  have above := kept.above
  have fits : e.revision < 2 ^ 63 := by
    by_cases isCompact : e.op = Op.compact
    · have := (queues.compact isCompact).1
      omega
    · have := (queues.data isCompact).1
      omega
  have assigned : WriteState.assigned { s with
      node := { node with writeC := node.writeC ++ [{ id, entry := e, basis }] }
      calls
      waiting } = s.assigned ++ [e] := by
    simp only [WriteState.assigned, queues.next]
    rw [← append_assoc, entries_append, ← append_assoc]
    rfl
  refine ⟨kept.nonneg, ?_, ?_, ?_, ?_, ?_, ?_, ?_, kept.appended⟩
  · simp only
    omega
  · simp only [nextRev]
    exact fits
  · rw [assigned]
    refine wellFormed_snoc.mpr ⟨kept.wellFormed, storable, ?_⟩
    intro data earlier mem earlierData
    have upTo := (kept.range earlier mem earlierData).2
    have := (queues.data data).1
    omega
  · intro other mem data
    simp only [nextRev]
    rw [assigned] at mem
    rcases mem_append.mp mem with before | here
    · obtain ⟨low, high⟩ := kept.range other before data
      omega
    · rw [mem_singleton.mp here] at data ⊢
      have := (queues.data data).1
      omega
  · intro v mem notDelete
    simp only [nextRev]
    rw [assigned, versions_append, versions_singleton] at mem
    rcases mem_append.mp mem with before | here
    · exact (kept.live v before notDelete).mono later
    · exact live v here notDelete
  · intro k p held
    simp only [nextRev]
    exact kept.pending_noted queues room held
  · simp only [queues.next]
    exact kept.stored

theorem Kept.dropped (kept : Kept base s) (queues : s.node.Queues e ops basis key node)
    (isDelete : e.op = Op.delete) (room : s.node.nextRev < 2 ^ 63 - 1) (calls : Nat)
    (results : List (Nat × Result)) : Kept base { s with node, calls, results } := by
  have data : e.op ≠ Op.compact := by
    rw [isDelete]
    decide
  have revision := (queues.data data).1
  have nextRev : node.nextRev = e.revision := by rw [queues.next, Node.noted]
  have above := kept.above
  have assigned : WriteState.assigned { s with node, calls, results } = s.assigned := by
    simp only [WriteState.assigned, queues.next]
    rfl
  refine ⟨kept.nonneg, ?_, ?_, ?_, ?_, ?_, ?_, ?_, kept.appended⟩
  · simp only
    omega
  · simp only
    omega
  · rw [assigned]
    exact kept.wellFormed
  · intro other mem otherData
    rw [assigned] at mem
    simp only [nextRev]
    obtain ⟨low, high⟩ := kept.range other mem otherData
    omega
  · intro v mem notDelete
    rw [assigned] at mem
    simp only [nextRev]
    exact (kept.live v mem notDelete).mono queues.le_revision
  · intro k p held
    simp only [nextRev]
    exact kept.pending_noted queues room held
  · simp only [queues.next]
    exact kept.stored

theorem Kept.call (kept : Kept base s) {c : Call} (typed : c.WellTyped)
    (room : s.node.nextRev < 2 ^ 63 - 1) : Kept base (beginCall s c) := by
  have ended := s.node.begin_ended typed
  unfold beginCall
  generalize s.node.begin c = outcome at ended ⊢
  cases ended with
  | returned result =>
    exact ⟨kept.nonneg, kept.above, kept.fits, kept.wellFormed, kept.range, kept.live, kept.pending,
      kept.stored, kept.appended⟩
  | queued queues result => exact kept.queued queues room _ _ _
  | dropped queues isDelete unspared result => exact kept.dropped queues isDelete room _ _

/-! ## The other steps -/

theorem Kept.advance (kept : Kept base s) (nextRev : next.node.nextRev = s.node.nextRev)
    (assigned : next.assigned.Sublist s.assigned)
    (pending : ∀ k p, next.node.pending.get k = some p → s.node.pending.get k = some p)
    (stored : Inherits next.node.db.db base (versions next.wal))
    (appended : ∀ batch, next.phase = .appended batch → entries batch ⊆ next.wal) :
    Kept base next := by
  refine ⟨kept.nonneg, ?_, ?_, kept.wellFormed.sublist assigned, ?_, ?_, ?_, stored, appended⟩
  · rw [nextRev]
    exact kept.above
  · rw [nextRev]
    exact kept.fits
  · intro e mem
    rw [nextRev]
    exact kept.range e (assigned.subset mem)
  · intro v mem
    rw [nextRev]
    exact kept.live v (versions_subset assigned.subset mem)
  · intro k p held
    rw [nextRev]
    exact kept.pending k p (pending k p held)

theorem Kept.applied (kept : Kept base s) {batch : List WriteReq}
    (isAppended : s.phase = .appended batch) :
    Inherits (s.node.db.apply (entries batch)).1.db base (versions s.wal) := by
  have inWal := kept.appended batch isAppended
  refine kept.stored.apply ?_ ?_
  · intro e mem
    exact kept.wellFormed.storable e ((wal_sublist_assigned s).subset (inWal mem))
  · intro e mem v inEntry
    exact mem_flatMap.mpr ⟨e, inWal mem, inEntry⟩

theorem assigned_sublist {a : WriteAction} (stepped : writePath.step s a = some next)
    (notCall : ∀ c, a ≠ .call c) : next.assigned.Sublist s.assigned := by
  cases WriteEffect.of_step stepped with
  | call => exact absurd rfl (notCall _)
  | take isIdle positive enough =>
    simp only [WriteState.assigned, isIdle, Phase.unwritten, take_append_drop, nil_append]
    exact List.Sublist.refl _
  | append collected =>
    simp only [WriteState.assigned, collected, Phase.unwritten, entries_append, append_assoc,
      nil_append]
    exact List.Sublist.refl _
  | reject collected =>
    simp only [WriteState.assigned, collected, Phase.unwritten, entries_append, nil_append]
    exact List.Sublist.append_left (sublist_append_right _ _) _
  | apply isAppended applies | applyFailed isAppended fails =>
    simp only [WriteState.assigned, isAppended, Phase.unwritten]
    exact List.Sublist.refl _
  | @finish batch isApplied =>
    obtain ⟨pending, eq, -⟩ := clearPendingBatch_eq s.node batch
    simp only [WriteState.assigned, isApplied, Phase.unwritten, eq]
    exact List.Sublist.refl _
  | @finishFailed batch err failed =>
    obtain ⟨pending, eq, -⟩ := clearPendingBatch_eq s.node batch
    simp only [WriteState.assigned, failed, eq]
    split <;> exact List.Sublist.refl _
  | @wake w err found done =>
    obtain ⟨pending, eq, -⟩ := cleanPending_eq s.node w.key w.rev
    simp only [WriteState.assigned, eq]
    exact List.Sublist.refl _
  | _ => exact List.Sublist.refl _

/-- **Every step keeps the invariant.** -/
theorem Kept.step {a : WriteAction} (kept : Kept base s)
    (stepped : writePath.step s a = some next) : Kept base next := by
  have shrinks := assigned_sublist stepped
  cases WriteEffect.of_step stepped with
  | call typed opened roomRev roomSeq => exact kept.call typed roomRev
  | append collected =>
    refine kept.advance rfl (shrinks (by simp)) (fun _ _ held => held) ?_ ?_
    · exact kept.stored.mono (versions_subset (subset_append_left _ _))
    · intro batch isAppended
      cases isAppended
      exact subset_append_right _ _
  | apply isAppended applies =>
    have stored := kept.applied isAppended
    rw [applies] at stored
    exact kept.advance rfl (shrinks (by simp)) (fun _ _ held => held) stored
      (fun _ other => nomatch other)
  | applyFailed isAppended fails =>
    have stored := kept.applied isAppended
    rw [fails] at stored
    exact kept.advance rfl (shrinks (by simp)) (fun _ _ held => held) stored
      (fun _ other => nomatch other)
  | finish isApplied =>
    obtain ⟨pending, eq, cleared⟩ := clearPendingBatch_eq s.node _
    rw [eq] at shrinks ⊢
    exact kept.advance rfl (shrinks (by simp)) (fun k p held => ((cleared k p).mp held).1)
      kept.stored (fun _ other => nomatch other)
  | finishFailed failed =>
    obtain ⟨pending, eq, cleared⟩ := clearPendingBatch_eq s.node _
    rw [eq] at shrinks ⊢
    refine kept.advance rfl (shrinks (by simp)) (fun k p held => ((cleared k p).mp held).1)
      kept.stored ?_
    intro batch isAppended
    simp only at isAppended
    split at isAppended <;> cases isAppended
  | wake found done =>
    obtain ⟨pending, eq, cleared⟩ := cleanPending_eq s.node _ _
    rw [eq] at shrinks ⊢
    exact kept.advance rfl (shrinks (by simp)) (fun k p held => ((cleared k p).mp held).1)
      kept.stored kept.appended
  | cancel begun | abandon found present gone =>
    exact kept.advance rfl (shrinks (by simp)) (fun _ _ held => held) kept.stored kept.appended
  | take isIdle positive enough | reject collected =>
    exact kept.advance rfl (shrinks (by simp)) (fun _ _ held => held) kept.stored
      (fun _ other => nomatch other)

end Kept

/-! ## Versions -/

/-- The version was written by a call of the run, as the first of a key that the call
found absent or with one more than the version that it found. -/
def CountsUp (start : WriteState) (actions : List WriteAction) (v : Version) : Prop :=
  ∃ before c after s e, actions = before ++ .call c :: after ∧
    writePath.run start before = some s ∧
    (∃ next basis key result, s.node.begin c = (next, .queued e basis key result)) ∧
    v ∈ entryVersions e ∧
    match s.node.readKey v.key with
    | .error _ => False
    | .ok none => v.change.op = Op.create ∧ v.change.version = 1
    | .ok (some old) =>
      v.change.op = Op.update ∧ v.change.version = kvVersion old + 1 ∨
        v.change.op = Op.delete ∧ v.change.version = kvVersion old

theorem CountsUp.append {start : WriteState} {actions : List WriteAction} {v : Version}
    (counts : CountsUp start actions v) (a : WriteAction) : CountsUp start (actions ++ [a]) v := by
  obtain ⟨before, c, after, s, e, rfl, rest⟩ := counts
  exact ⟨before, c, after ++ [a], s, e, by simp, rest⟩

theorem Kept.countsUp {base : Int} (kept : Kept base s) (ran : writePath.run start past = some s)
    {c : Call} (room : s.node.nextRev < 2 ^ 63 - 1) {e : Entry} {ops : List TxnSubOp}
    {basis : Basis} {key : Bytes} {next : Node} {result : Result}
    (queues : s.node.Queues e ops basis key next)
    (begun : s.node.begin c = (next, .queued e basis key result)) :
    ∀ v ∈ entryVersions e, CountsUp start (past ++ [.call c]) v := by
  intro v mem
  have data := (rev_of_mem_entryVersions mem).2
  obtain ⟨-, -, stored⟩ := kept.queues queues room
  have inOps : v.change ∈ ops := by
    rw [← (stored data).1]
    exact mem_map.mpr ⟨v, mem, rfl⟩
  obtain ⟨-, existing, read, continues⟩ := (queues.data data).2.2 v.change inOps
  refine ⟨past, c, [], s, e, rfl, ran, ⟨next, basis, key, result, begun⟩, mem, ?_⟩
  rw [Version.key, read]
  cases existing with
  | none => exact ⟨continues.1, continues.2.2.2⟩
  | some old => exact continues.1

structure Counting (start : WriteState) (past : List WriteAction) (s : WriteState) : Prop where
  kept : Kept start.node.db.currentRev s
  ran : writePath.run start past = some s
  counts : ∀ v ∈ versions s.assigned, CountsUp start past v

theorem Counting.call (counting : Counting start past s) {c : Call} (typed : c.WellTyped)
    (room : s.node.nextRev < 2 ^ 63 - 1) :
    ∀ v ∈ versions (beginCall s c).assigned, CountsUp start (past ++ [.call c]) v := by
  have ended := s.node.begin_ended typed
  unfold beginCall
  generalize begun : s.node.begin c = outcome at ended ⊢
  cases ended with
  | returned result => exact fun v mem => (counting.counts v mem).append _
  | queued queues result =>
    intro v mem
    simp only [WriteState.assigned, queues.next, Node.noted, Node.setPending] at mem
    rw [← append_assoc, entries_append, ← append_assoc, versions_append] at mem
    rcases mem_append.mp mem with before | here
    · exact (counting.counts v before).append _
    · rw [entries_singleton, versions_singleton] at here
      exact counting.kept.countsUp counting.ran room queues begun v here
  | dropped queues isDelete unspared result =>
    intro v mem
    simp only [WriteState.assigned, queues.next, Node.noted, Node.setPending] at mem
    exact (counting.counts v mem).append _

theorem Counting.step {next : WriteState} {a : WriteAction} (counting : Counting start past s)
    (stepped : writePath.step s a = some next) : Counting start (past ++ [a]) next := by
  refine ⟨counting.kept.step stepped, ?_, ?_⟩
  · exact System.run_append.mpr ⟨s, counting.ran, System.run_cons.mpr ⟨next, stepped, rfl⟩⟩
  · cases a with
    | call c =>
      cases WriteEffect.of_step stepped with
      | call typed opened roomRev roomSeq => exact counting.call typed roomRev
    | _ =>
      intro v mem
      exact (counting.counts v
        (versions_subset (assigned_sublist stepped (by simp)).subset mem)).append _

theorem Opens.counting {actions : List WriteAction} (opens : Opens start)
    (ran : writePath.run start actions = some s) : Counting start actions s := by
  have begins : Counting start [] start := by
    refine ⟨opens.kept, rfl, ?_⟩
    intro v mem
    rw [opens.fresh] at mem
    cases mem
  exact System.trace_invariant (P := fun _ _ => True) (I := Counting start)
    (fun counting _ stepped => counting.step stepped) [] begins (System.Meets.true _ _) ran

/-- **Stored records decode to what was written.** In every run over a store of this or
of an earlier release, every record that applying an entry of the log marshals is read
back, version included, and a read of a key that the run wrote shows a version that
counts up from the one it replaced. -/
theorem records_decode {start s : WriteState} {actions : List WriteAction} (opens : Opens start)
    (ran : writePath.run start actions = some s) :
    (∀ e ∈ s.wal, e.op ≠ Op.compact →
        applyEntry e = .ok ((entryVersions e).flatMap Version.writes)) ∧
      (∀ v ∈ versions s.wal, unmarshalRecord (marshalRecord v.record) = .ok v.record ∧
        v.record.version = v.change.version ∧ 0 < v.record.version) ∧
      ∀ k kv, s.node.db.get k = .ok (some kv) → start.node.db.currentRev < kv.revision →
        ∃ v ∈ versions s.wal, v.key = k ∧ v.change.op ≠ Op.delete ∧ kv = v.kv ∧
          CountsUp start actions v := by
  obtain ⟨kept, -, counts⟩ := opens.counting ran
  have logged := kept.logged
  refine ⟨?_, ?_, ?_⟩
  · intro e mem data
    exact applyEntry_eq (kept.wellFormed.storable e ((wal_sublist_assigned s).subset mem)) data
  · intro v mem
    have storable := logged.storable v mem
    have version : v.record.version = v.change.version := by
      rw [Version.record, txnRecord, entryVersion, if_pos storable.version]
    refine ⟨storable.unmarshal, version, ?_⟩
    rw [version]
    exact storable.version
  · intro k kv read newer
    have fits := opens.fits
    rcases kept.stored.get logged fits kept.newer read with old | new
    · obtain ⟨rev, r, upTo, -, rfl⟩ := old
      simp only [recordToKV] at newer
      omega
    · obtain ⟨v, mem, sameKey, notDelete, same⟩ := new
      exact ⟨v, mem, sameKey, notDelete, same,
        counts v (versions_subset (wal_sublist_assigned s).subset mem)⟩

def legacyRecord : RecordV1 where
  flags := flagCreate
  key := [0x6b]
  value := [0x61]
  createRevision := 1
  prevRevision := 0
  lease := 0
  keyFits := by decide
  leaseFits := isInt64_zero

def legacyStore : Store where
  db := (SortedMap.empty.insert (logKey 1) legacyRecord.marshal).insert (idxKey [0x6b])
    (encodeRev 1)
  currentRev := 1
  lastSeq := 1

def legacyNode : WriteState where
  node := { nextRev := 1, nextSeq := 1, pending := SortedMap.empty, db := legacyStore }

/-- The key is written again, deleted and created once more. -/
def legacyRun : List WriteAction :=
  [.call (.put [0x6b] [0x62] 0), .take 1, .append, .apply, .finish,
    .call (.delete [0x6b]), .call (.create [0x6b] [0x63] 0), .take 2, .append, .apply, .finish]

theorem opens_legacyNode : Opens legacyNode := by
  have decoded : unmarshalRecord legacyRecord.marshal = .ok legacyRecord.toRecord := by
    decide +kernel
  refine ⟨⟨?_, ?_⟩, by decide, by decide, rfl, rfl, rfl⟩
  · intro k value held
    simp only [legacyNode, legacyStore, SortedMap.get_insert] at held
    split at held
    · rename_i isIndex
      exact Or.inr (Or.inr (Or.inl ⟨_, isIndex⟩))
    · split at held
      · rename_i isLog
        cases held
        refine Or.inl ⟨1, none, isLog, by decide, by decide, by simp, ?_⟩
        intro r isRecord
        rw [decoded] at isRecord
        cases isRecord
        exact ⟨by decide, by decide, by decide⟩
      · cases held
  · intro key value held
    have apart : idxKey key ≠ logKey 1 := (slotKey_ne_idxKey 1 none key).symm
    simp only [legacyNode, legacyStore, SortedMap.get_insert, if_neg apart] at held
    split at held
    · cases held
      exact Or.inl (by decide)
    · cases held

/-- The second write replaced the old record by version 2, the last one started again. -/
theorem records_decode_legacyRun :
    Opens legacyNode ∧ ∃ s, writePath.run legacyNode legacyRun = some s ∧
      (versions s.wal).map (fun v => (v.rev, v.record.version)) = [(2, 2), (3, 2), (4, 1)] ∧
      ∀ v ∈ versions s.wal, unmarshalRecord (marshalRecord v.record) = .ok v.record := by
  refine ⟨opens_legacyNode, System.exists_run_and (by decide +kernel) ?_⟩
  intro s ran _ v mem
  obtain ⟨-, decode, -⟩ := records_decode opens_legacyNode ran
  exact (decode v mem).1

end T4.WritePath
