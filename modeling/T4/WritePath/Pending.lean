import T4.WritePath.Prepare

/-!
# The pending overlay

Between the preparation of a write and its application to the store, reads under the
mutex go through the overlay `n.pending`. Two goroutines remove entries from it,
each with a revision guard: the commit loop for the batch it has finished, and the
caller when it is woken.

`Overlay` relates the overlay to the applied history and the entries behind it;
`Calls` keeps the books of requests and waiting callers. `Inv` joins them, and
`Inv.step` shows that every step keeps it, provided a rejected batch leaves nothing
behind (`Clean`).
-/

namespace T4.WritePath

open Lib Bytes Wal Mvcc List

/-! ## The overlay and the history -/

/-- What a reader of the pending entry sees. -/
def PendingKV.value (p : PendingKV) : Option KeyValue := if p.deleted then none else p.kv

/-- The overlay over a store that holds `h`, while the entries `rest` are not applied:
each pending value is the newest of its key, and every key of `rest` is pending. -/
structure Overlay (pending : SortedMap Bytes PendingKV) (h rest : List Entry) : Prop where
  shown : ∀ k p, pending.get k = some p → headValue (h ++ rest) k = p.value
  source : ∀ k p, pending.get k = some p →
    ∃ e ∈ h ++ rest, k ∈ entryKeys e ∧ e.revision = p.rev
  newest : ∀ k p, pending.get k = some p →
    ∀ e ∈ h ++ rest, k ∈ entryKeys e → e.revision ≤ p.rev
  covers : ∀ k, pending.get k = none → k ∉ touched rest

theorem readKey_eq (n : Node) (k : Bytes) :
    n.readKey k =
      match n.pending.get k with
      | some p => .ok p.value
      | none => n.db.get k := by
  unfold Node.readKey
  cases n.pending.get k with
  | none => rfl
  | some p =>
    simp only [PendingKV.value]
    split <;> rfl

variable {h rest : List Entry} {n : Node} {pending : SortedMap Bytes PendingKV} {k : Bytes}
  {e : Entry}

/-- **Reads through the overlay** see every entry assigned so far. -/
theorem Overlay.readKey (overlay : Overlay n.pending h rest) (stored : n.db.Represents h)
    (chained : Chained h) (k : Bytes) : n.readKey k = .ok (headValue (h ++ rest) k) := by
  rw [readKey_eq]
  cases held : n.pending.get k with
  | some p => rw [overlay.shown k p held]
  | none =>
    rw [headValue_append, if_neg (overlay.covers k held)]
    exact stored.get chained.wellFormed k

theorem Overlay.apply {batch : List Entry} (overlay : Overlay pending h (batch ++ rest)) :
    Overlay pending (h ++ batch) rest := by
  obtain ⟨shown, source, newest, covers⟩ := overlay
  rw [← append_assoc] at shown source newest
  refine ⟨shown, source, newest, ?_⟩
  intro k gone touches
  obtain ⟨e, mem, key⟩ := mem_touched.mp touches
  exact covers k gone (mem_touched.mpr ⟨e, mem_append_right _ mem, key⟩)

theorem Overlay.erase {pending' : SortedMap Bytes PendingKV} (overlay : Overlay pending h rest)
    (kept : ∀ k p, pending'.get k = some p → pending.get k = some p)
    (gone : ∀ k p, pending.get k = some p → pending'.get k = none → k ∉ touched rest) :
    Overlay pending' h rest := by
  refine ⟨fun k p held => overlay.shown k p (kept k p held),
    fun k p held => overlay.source k p (kept k p held),
    fun k p held => overlay.newest k p (kept k p held), ?_⟩
  intro k absent
  cases before : pending.get k with
  | none => exact overlay.covers k before
  | some p => exact gone k p before absent

theorem revision_lt_of_chained {front back : List Entry} (chained : Chained (front ++ back))
    {k' : Bytes} {a b : Entry} (memA : a ∈ front) (memB : b ∈ back) (touchA : k ∈ entryKeys a)
    (touchB : k' ∈ entryKeys b) : a.revision < b.revision := by
  obtain ⟨v, inA, -⟩ := mem_map.mp touchA
  obtain ⟨w, inB, -⟩ := mem_map.mp touchB
  exact (pairwise_append.mp chained.wellFormed.increasing).2.2 a memA b memB
    (rev_of_mem_entryVersions inA).2 (rev_of_mem_entryVersions inB).2

/-- The overlay after the entries `lost` were rejected and their pending values cleared. -/
theorem Overlay.drop {pending' : SortedMap Bytes PendingKV} {lost : List Entry}
    (overlay : Overlay pending h (lost ++ rest)) (chained : Chained (h ++ lost ++ rest))
    (cleared : ∀ k p, pending'.get k = some p ↔
      pending.get k = some p ∧ ∀ e ∈ lost, k ∈ entryKeys e → p.rev ≠ e.revision) :
    Overlay pending' h rest := by
  have inAll : ∀ e, e ∈ h ++ rest → e ∈ h ++ (lost ++ rest) := by
    intro e mem
    rcases mem_append.mp mem with old | later
    · exact mem_append_left _ old
    · exact mem_append_right _ (mem_append_right _ later)
  -- The source of a pending value that stays is not among the lost entries.
  have source : ∀ k p, pending'.get k = some p →
      ∃ e ∈ h ++ rest, k ∈ entryKeys e ∧ e.revision = p.rev := by
    intro k p held
    obtain ⟨before, distinct⟩ := (cleared k p).mp held
    obtain ⟨e, mem, touches, same⟩ := overlay.source k p before
    refine ⟨e, ?_, touches, same⟩
    rcases mem_append.mp mem with old | later
    · exact mem_append_left _ old
    · rcases mem_append.mp later with isLost | behind
      · exact absurd same.symm (distinct e isLost touches)
      · exact mem_append_right _ behind
  refine ⟨?_, source, ?_, ?_⟩
  · intro k p held
    obtain ⟨before, -⟩ := (cleared k p).mp held
    rw [← overlay.shown k p before, ← append_assoc]
    by_cases covered : k ∈ touched rest
    · rw [headValue_append, headValue_append (h ++ lost), if_pos covered, if_pos covered]
    · apply headValue_drop
      intro wasLost
      obtain ⟨e, isLost, touches⟩ := mem_touched.mp wasLost
      obtain ⟨old, mem, oldTouches, same⟩ := source k p held
      have upper := overlay.newest k p before e
        (mem_append_right _ (mem_append_left _ isLost)) touches
      rcases mem_append.mp mem with inHistory | behind
      · rw [append_assoc] at chained
        have less := revision_lt_of_chained chained inHistory (mem_append_left _ isLost)
          oldTouches touches
        omega
      · exact covered (mem_touched.mpr ⟨old, behind, oldTouches⟩)
  · intro k p held e mem
    exact overlay.newest k p ((cleared k p).mp held).1 e (inAll e mem)
  · intro k absent touches
    obtain ⟨later, behind, laterTouches⟩ := mem_touched.mp touches
    have inUnapplied : k ∈ touched (lost ++ rest) :=
      mem_touched.mpr ⟨later, mem_append_right _ behind, laterTouches⟩
    cases before : pending.get k with
    | none => exact overlay.covers k before inUnapplied
    | some p =>
      have wasCleared : ¬ ∀ e ∈ lost, k ∈ entryKeys e → p.rev ≠ e.revision := by
        intro distinct
        rw [(cleared k p).mpr ⟨before, distinct⟩] at absent
        cases absent
      push Not at wasCleared
      obtain ⟨e, isLost, lostTouches, same⟩ := wasCleared
      have upper := overlay.newest k p before later (inAll later (mem_append_right _ behind))
        laterTouches
      have less := revision_lt_of_chained chained (mem_append_right _ isLost) behind
        lostTouches laterTouches
      omega

/-! ## Noting and clearing pending values -/

theorem get_setPending_of_not_mem {rev : Int} {ops : List TxnSubOp}
    (absent : ∀ o ∈ ops, o.key ≠ k) :
    (n.setPending rev ops).pending.get k = n.pending.get k := by
  unfold Node.setPending
  simp only
  generalize n.pending = pending
  induction ops generalizing pending with
  | nil => rfl
  | cons o rest ih =>
    rw [foldl_cons, ih (fun o mem => absent o (mem_cons_of_mem _ mem)),
      SortedMap.get_insert, if_neg (absent o (by simp)).symm]

theorem get_setPending_of_mem {n : Node} {rev : Int} {ops : List TxnSubOp}
    (distinct : (ops.map TxnSubOp.key).Nodup) {o : TxnSubOp} (mem : o ∈ ops) :
    (n.setPending rev ops).pending.get o.key = some (pendingOf rev o) := by
  induction ops generalizing n with
  | nil => cases mem
  | cons first rest ih =>
    rw [map_cons, nodup_cons] at distinct
    have shift : n.setPending rev (first :: rest) =
        (n.setPending rev [first]).setPending rev rest := rfl
    rw [shift]
    rcases mem_cons.mp mem with rfl | later
    · rw [get_setPending_of_not_mem]
      · exact (SortedMap.get_insert ..).trans (if_pos rfl)
      · intro other isLater same
        exact distinct.1 (mem_map.mpr ⟨other, isLater, same⟩)
    · exact ih distinct.2 later

theorem pendingOf_value (rev : Int) (o : TxnSubOp) :
    (pendingOf rev o).value =
      if o.op = Op.delete then none else some (⟨rev, none, o⟩ : Version).kv := by
  unfold pendingOf PendingKV.value
  split <;> rfl

theorem pendingOf_rev (rev : Int) (o : TxnSubOp) : (pendingOf rev o).rev = rev := by
  unfold pendingOf
  split <;> rfl

theorem touched_snoc : k ∈ touched (h ++ [e]) ↔ k ∈ touched h ∨ k ∈ entryKeys e := by
  simp [touched, entryKeys, versions_append, versions_singleton]

section Noted

variable {n next : Node} {h : List Entry} {e : Entry} {ops : List TxnSubOp} {basis : Basis}
  {key : Bytes}

theorem Assigned.headValue_of_mem (assigned : Assigned n h e ops basis key next)
    (reads : n.Reads h) {o : TxnSubOp} (mem : o ∈ ops) :
    next.pending.get o.key = some (pendingOf e.revision o) ∧
      headValue (h ++ [e]) o.key = (pendingOf e.revision o).value ∧ revisionOf h < e.revision := by
  have data : e.op ≠ Op.compact := by
    intro isCompact
    rw [(assigned.compact isCompact).2.1] at mem
    cases mem
  obtain ⟨revision, carries, typed⟩ := assigned.data data
  have newer : revisionOf h < e.revision := by
    have := reads.revision
    omega
  refine ⟨?_, ?_, newer⟩
  · rw [assigned.next]
    exact get_setPending_of_mem carries.distinct mem
  · rw [headValue_snoc_of_mem data newer carries typed mem, pendingOf_value]

theorem Assigned.headValue_of_not_mem (assigned : Assigned n h e ops basis key next) {k : Bytes}
    (untouched : k ∉ entryKeys e) :
    next.pending.get k = n.pending.get k ∧ headValue (h ++ [e]) k = headValue h k := by
  refine ⟨?_, ?_⟩
  · rw [assigned.next]
    apply get_setPending_of_not_mem
    intro o mem same
    rw [assigned.keys] at untouched
    exact untouched (mem_map.mpr ⟨o, mem, same⟩)
  · rw [headValue_append, touched, versions_singleton]
    exact if_neg untouched

end Noted

theorem revision_le_of_touches (mem : e ∈ h) (touches : k ∈ entryKeys e) :
    e.revision ≤ revisionOf h := by
  obtain ⟨v, inEntry, -⟩ := mem_map.mp touches
  exact le_revisionOf mem (rev_of_mem_entryVersions inEntry).2

theorem Overlay.noted {next : Node} {ops : List TxnSubOp} {basis : Basis} {key : Bytes}
    (overlay : Overlay n.pending h rest) (reads : n.Reads (h ++ rest))
    (assigned : Assigned n (h ++ rest) e ops basis key next) :
    Overlay next.pending h (rest ++ [e]) := by
  -- The pending value of `k` is the new one or an old one, as `e` touches `k` or not.
  have origin : ∀ k p, next.pending.get k = some p →
      (∃ o ∈ ops, o.key = k ∧ p = pendingOf e.revision o) ∨
        k ∉ entryKeys e ∧ n.pending.get k = some p := by
    intro k p held
    by_cases touches : k ∈ entryKeys e
    · rw [assigned.keys] at touches
      obtain ⟨o, mem, rfl⟩ := mem_map.mp touches
      rw [(assigned.headValue_of_mem reads mem).1] at held
      exact Or.inl ⟨o, mem, rfl, (Option.some.inj held).symm⟩
    · rw [(assigned.headValue_of_not_mem touches).1] at held
      exact Or.inr ⟨touches, held⟩
  have touching : ∀ o ∈ ops, o.key ∈ entryKeys e := by
    intro o mem
    rw [assigned.keys]
    exact mem_map.mpr ⟨o, mem, rfl⟩
  refine ⟨?_, ?_, ?_, ?_⟩
  · intro k p held
    rw [← append_assoc]
    rcases origin k p held with new | old
    · obtain ⟨o, mem, rfl, rfl⟩ := new
      exact (assigned.headValue_of_mem reads mem).2.1
    · rw [(assigned.headValue_of_not_mem old.1).2]
      exact overlay.shown k p old.2
  · intro k p held
    rcases origin k p held with new | old
    · obtain ⟨o, mem, rfl, rfl⟩ := new
      exact ⟨e, by simp, touching o mem, (pendingOf_rev _ o).symm⟩
    · obtain ⟨source, mem, touches, same⟩ := overlay.source k p old.2
      refine ⟨source, ?_, touches, same⟩
      rw [← append_assoc]
      exact mem_append_left _ mem
  · intro k p held other mem touches
    rw [← append_assoc] at mem
    rcases origin k p held with new | old
    · obtain ⟨o, isOp, rfl, rfl⟩ := new
      have newer := (assigned.headValue_of_mem reads isOp).2.2
      rw [pendingOf_rev]
      rcases mem_append.mp mem with before | last
      · have := revision_le_of_touches before touches
        omega
      · rw [mem_singleton.mp last]
    · rcases mem_append.mp mem with before | last
      · exact overlay.newest k p old.2 other before touches
      · rw [mem_singleton.mp last] at touches
        exact absurd touches old.1
  · intro k absent touches
    rcases touched_snoc.mp touches with before | last
    · by_cases new : k ∈ entryKeys e
      · rw [assigned.keys] at new
        obtain ⟨o, mem, rfl⟩ := mem_map.mp new
        rw [(assigned.headValue_of_mem reads mem).1] at absent
        cases absent
      · rw [(assigned.headValue_of_not_mem new).1] at absent
        exact overlay.covers k absent before
    · rw [assigned.keys] at last
      obtain ⟨o, mem, rfl⟩ := mem_map.mp last
      rw [(assigned.headValue_of_mem reads mem).1] at absent
      cases absent

theorem clearPending_eq (n : Node) (key : Bytes) (rev : Int) :
    ∃ pending, n.clearPending key rev = { n with pending } ∧
      ∀ k p, pending.get k = some p ↔ n.pending.get k = some p ∧ (k = key → p.rev ≠ rev) := by
  unfold Node.clearPending
  split
  · rename_i q held
    split
    · rename_i same
      refine ⟨_, rfl, ?_⟩
      intro k p
      rw [SortedMap.get_erase]
      split
      · rename_i here
        subst here
        rw [held]
        constructor
        · intro none
          cases none
        · intro kept
          cases kept.1
          exact absurd same (kept.2 rfl)
      · rename_i elsewhere
        simp [elsewhere]
    · rename_i differ
      refine ⟨n.pending, rfl, ?_⟩
      intro k p
      refine ⟨fun kept => ⟨kept, ?_⟩, And.left⟩
      rintro rfl
      rw [held] at kept
      cases kept
      exact differ
  · rename_i absent
    refine ⟨n.pending, rfl, ?_⟩
    intro k p
    refine ⟨fun kept => ⟨kept, ?_⟩, And.left⟩
    rintro rfl
    rw [absent] at kept
    cases kept

theorem clearKeys_foldl (n : Node) (keys : List Bytes) (rev : Int) :
    ∃ pending, keys.foldl (fun n key => n.clearPending key rev) n = { n with pending } ∧
      ∀ k p, pending.get k = some p ↔ n.pending.get k = some p ∧ (k ∈ keys → p.rev ≠ rev) := by
  induction keys generalizing n with
  | nil => exact ⟨n.pending, rfl, by simp⟩
  | cons key rest ih =>
    obtain ⟨first, eqFirst, getFirst⟩ := clearPending_eq n key rev
    obtain ⟨pending, eq, get⟩ := ih (n.clearPending key rev)
    refine ⟨pending, ?_, ?_⟩
    · rw [foldl_cons, eq, eqFirst]
    · intro k p
      rw [get, eqFirst, getFirst, and_assoc, mem_cons]
      tauto

theorem clearPendingBatch_eq (n : Node) (batch : List WriteReq) :
    ∃ pending, n.clearPendingBatch batch = { n with pending } ∧
      ∀ k p, pending.get k = some p ↔ n.pending.get k = some p ∧
        ∀ req ∈ batch, k ∈ Node.clearKeys req.entry → p.rev ≠ req.entry.revision := by
  unfold Node.clearPendingBatch
  induction batch generalizing n with
  | nil => exact ⟨n.pending, rfl, by simp⟩
  | cons req rest ih =>
    obtain ⟨first, eqFirst, getFirst⟩ :=
      clearKeys_foldl n (Node.clearKeys req.entry) req.entry.revision
    obtain ⟨pending, eq, get⟩ := ih { n with pending := first }
    refine ⟨pending, ?_, ?_⟩
    · rw [foldl_cons, eqFirst, eq]
    · intro k p
      rw [get, getFirst, and_assoc, forall_mem_cons]

theorem cleanPending_eq (n : Node) (key : Bytes) (rev : Int) :
    ∃ pending, n.cleanPending key rev = { n with pending } ∧
      ∀ k p, pending.get k = some p ↔
        n.pending.get k = some p ∧ (key ≠ [] → k = key → p.rev ≠ rev) := by
  unfold Node.cleanPending
  split
  · rename_i empty
    exact ⟨n.pending, rfl, by simp [empty]⟩
  · rename_i nonempty
    obtain ⟨pending, eq, get⟩ := clearPending_eq n key rev
    refine ⟨pending, eq, ?_⟩
    intro k p
    rw [get]
    simp [nonempty]

/-- What `clearPendingBatch` looks up is what the entry touches, unless it writes the
empty key by itself. -/
theorem mem_clearKeys (bare : e.op = Op.compact → e.key = []) :
    (k ∈ Node.clearKeys e → k ∈ entryKeys e) ∧
      (k ∈ entryKeys e → (e.op ≠ Op.txn → e.key ≠ []) → k ∈ Node.clearKeys e) := by
  by_cases isTxn : e.op = Op.txn
  · have data : e.op ≠ Op.compact := by
      rw [isTxn]
      decide
    have same : Node.clearKeys e = entryKeys e := by
      unfold Node.clearKeys entryKeys entryVersions
      rw [if_pos isTxn, if_neg data, if_pos isTxn]
      cases decodeTxnOps e.value with
      | error err => rfl
      | ok ops =>
        calc ops.map TxnSubOp.key
            = ((txnVersions e.revision 0 ops).map Version.change).map TxnSubOp.key := by
              rw [txnVersions_map_change]
          _ = (txnVersions e.revision 0 ops).map Version.key := map_map
    rw [same]
    exact ⟨id, fun touches _ => touches⟩
  · unfold Node.clearKeys
    rw [if_neg isTxn]
    by_cases isCompact : e.op = Op.compact
    · rw [if_pos (bare isCompact), entryKeys_compact isCompact]
      exact ⟨id, fun none _ => none⟩
    · rw [entryKeys_single isCompact isTxn]
      split
      · rename_i empty
        exact ⟨fun none => absurd none not_mem_nil,
          fun _ nonempty => absurd empty (nonempty isTxn)⟩
      · exact ⟨id, fun touches _ => touches⟩

/-! ## Requests and callers -/

def Phase.batch : Phase → List WriteReq
  | .idle | .stopped => []
  | .collected batch | .appended batch | .applied batch | .failed batch _ => batch

/-- The batch the commit loop holds, unless it is applied. -/
def Phase.inFlight : Phase → List WriteReq
  | .collected batch | .appended batch | .failed batch _ => batch
  | .idle | .stopped | .applied _ => []

def WriteState.unapplied (s : WriteState) : List WriteReq := s.phase.inFlight ++ s.node.writeC

def WriteState.requests (s : WriteState) : List WriteReq := s.phase.batch ++ s.node.writeC

/-- The books of requests and waiting callers: a request and its caller share an
identity and a revision, and a signalled caller is older than every open request. -/
structure Calls (reqs : List WriteReq) (waiting : List Waiter) (calls : Nat) (nextRev : Int) :
    Prop where
  fresh : ∀ req ∈ reqs, req.id < calls
  begun : ∀ w ∈ waiting, w.id < calls
  assigned : ∀ w ∈ waiting, w.rev ≤ nextRev
  numbered : ∀ req ∈ reqs, req.entry.revision ≤ nextRev
  ordered : reqs.Pairwise (fun a b => a.entry.op ≠ Op.compact → b.entry.op ≠ Op.compact →
    a.entry.revision < b.entry.revision)
  bare : ∀ req ∈ reqs, req.entry.op = Op.compact → req.entry.key = []
  matched : ∀ w ∈ waiting, w.key ≠ [] → ∀ req ∈ reqs, req.id = w.id →
    req.entry.revision = w.rev ∧ req.entry.op ≠ Op.compact
  signalled : ∀ w ∈ waiting, w.key ≠ [] → w.done ≠ none → ∀ req ∈ reqs,
    req.entry.op ≠ Op.compact → w.rev < req.entry.revision

namespace Calls

variable {reqs : List WriteReq} {waiting : List Waiter} {calls : Nat} {nextRev : Int}

theorem returned (books : Calls reqs waiting calls nextRev) :
    Calls reqs waiting (calls + 1) nextRev :=
  ⟨fun req mem => Nat.lt_succ_of_lt (books.fresh req mem),
    fun w mem => Nat.lt_succ_of_lt (books.begun w mem), books.assigned, books.numbered,
    books.ordered, books.bare, books.matched, books.signalled⟩

theorem queued (books : Calls reqs waiting calls nextRev) {e : Entry} {basis : Basis}
    {key : Bytes} {result : Result}
    (data : e.op ≠ Op.compact → e.revision = nextRev + 1)
    (compact : e.op = Op.compact → e.revision = nextRev ∧ e.key = [] ∧ key = []) :
    Calls (reqs ++ [⟨calls, e, basis⟩])
    (waiting ++ [{ id := calls, key, rev := e.revision, result }])
      (calls + 1) e.revision := by
  have grows : nextRev ≤ e.revision := by
    by_cases isCompact : e.op = Op.compact
    · exact (compact isCompact).1.ge
    · have := data isCompact
      omega
  refine ⟨?_, ?_, ?_, ?_, ?_, ?_, ?_, ?_⟩
  · intro req mem
    rcases mem_append.mp mem with old | new
    · exact Nat.lt_succ_of_lt (books.fresh req old)
    · rw [mem_singleton.mp new]
      exact Nat.lt_succ_self calls
  · intro w mem
    rcases mem_append.mp mem with old | new
    · exact Nat.lt_succ_of_lt (books.begun w old)
    · rw [mem_singleton.mp new]
      exact Nat.lt_succ_self calls
  · intro w mem
    rcases mem_append.mp mem with old | new
    · exact (books.assigned w old).trans grows
    · rw [mem_singleton.mp new]
  · intro req mem
    rcases mem_append.mp mem with old | new
    · exact (books.numbered req old).trans grows
    · rw [mem_singleton.mp new]
  · refine pairwise_append.mpr ⟨books.ordered, by simp, ?_⟩
    intro a old b new _ isData
    rw [mem_singleton.mp new] at isData ⊢
    have := books.numbered a old
    have := data isData
    simp only
    omega
  · intro req mem isCompact
    rcases mem_append.mp mem with old | new
    · exact books.bare req old isCompact
    · rw [mem_singleton.mp new] at isCompact ⊢
      exact (compact isCompact).2.1
  · intro w memW keyed req memReq same
    rcases mem_append.mp memW with oldW | newW
    · rcases mem_append.mp memReq with oldReq | newReq
      · exact books.matched w oldW keyed req oldReq same
      · rw [mem_singleton.mp newReq] at same
        exact absurd same (books.begun w oldW).ne'
    · rw [mem_singleton.mp newW] at same keyed ⊢
      rcases mem_append.mp memReq with oldReq | newReq
      · exact absurd same (books.fresh req oldReq).ne
      · rw [mem_singleton.mp newReq]
        exact ⟨rfl, fun isCompact => keyed (compact isCompact).2.2⟩
  · intro w memW keyed done req memReq isData
    rcases mem_append.mp memW with oldW | newW
    · rcases mem_append.mp memReq with oldReq | newReq
      · exact books.signalled w oldW keyed done req oldReq isData
      · rw [mem_singleton.mp newReq] at isData ⊢
        have := books.assigned w oldW
        have := data isData
        simp only
        omega
    · rw [mem_singleton.mp newW] at done
      exact absurd rfl done

theorem finish {batch rest : List WriteReq} (books : Calls (batch ++ rest) waiting calls nextRev)
    (err : Option CommitError) :
    Calls rest (waiting.map (signal batch err)) calls nextRev := by
  have behind : ∀ req ∈ rest, req ∈ batch ++ rest := fun req mem => mem_append_right _ mem
  have kept : ∀ w, (signal batch err w).id = w.id ∧ (signal batch err w).key = w.key ∧
      (signal batch err w).rev = w.rev := by
    intro w
    unfold signal
    split <;> exact ⟨rfl, rfl, rfl⟩
  have pairs := pairwise_append.mp books.ordered
  refine ⟨fun req mem => books.fresh req (behind req mem), ?_, ?_,
    fun req mem => books.numbered req (behind req mem), pairs.2.1,
    fun req mem => books.bare req (behind req mem), ?_, ?_⟩
  · intro w mem
    obtain ⟨old, inOld, rfl⟩ := mem_map.mp mem
    rw [(kept old).1]
    exact books.begun old inOld
  · intro w mem
    obtain ⟨old, inOld, rfl⟩ := mem_map.mp mem
    rw [(kept old).2.2]
    exact books.assigned old inOld
  · intro w mem keyed req inRest same
    obtain ⟨old, inOld, rfl⟩ := mem_map.mp mem
    rw [(kept old).1] at same
    rw [(kept old).2.1] at keyed
    rw [(kept old).2.2]
    exact books.matched old inOld keyed req (behind req inRest) same
  · intro w mem keyed done req inRest isData
    obtain ⟨old, inOld, rfl⟩ := mem_map.mp mem
    rw [(kept old).2.1] at keyed
    rw [(kept old).2.2]
    unfold signal at done
    split at done
    · rename_i inBatch
      -- Its own request is in the batch, in front of `req`.
      obtain ⟨own, ownMem, sameId⟩ := mem_map.mp inBatch
      obtain ⟨sameRev, ownData⟩ :=
        books.matched old inOld keyed own (mem_append_left _ ownMem) sameId
      rw [← sameRev]
      exact pairs.2.2 own ownMem req inRest ownData isData
    · exact books.signalled old inOld keyed done req (behind req inRest) isData

theorem waiters {waiting' : List Waiter} (books : Calls reqs waiting calls nextRev)
    (sources : ∀ w ∈ waiting', ∃ old ∈ waiting,
      w.id = old.id ∧ w.key = old.key ∧ w.rev = old.rev ∧ w.done = old.done) :
    Calls reqs waiting' calls nextRev := by
  refine ⟨books.fresh, ?_, ?_, books.numbered, books.ordered, books.bare, ?_, ?_⟩
  · intro w mem
    obtain ⟨old, inOld, id, -⟩ := sources w mem
    rw [id]
    exact books.begun old inOld
  · intro w mem
    obtain ⟨old, inOld, -, -, rev, -⟩ := sources w mem
    rw [rev]
    exact books.assigned old inOld
  · intro w mem keyed req inReqs same
    obtain ⟨old, inOld, id, key, rev, -⟩ := sources w mem
    rw [rev]
    exact books.matched old inOld (by rwa [← key]) req inReqs (by rwa [← id])
  · intro w mem keyed isDone req inReqs isData
    obtain ⟨old, inOld, -, key, rev, done⟩ := sources w mem
    rw [rev]
    exact books.signalled old inOld (by rwa [← key]) (by rwa [← done]) req inReqs isData

end Calls

end T4.WritePath
