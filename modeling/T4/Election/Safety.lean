import T4.Election.Lock

/-!
# Election safety of the conditional operations

The invariant is about observations, not about the current record: an operation
in flight remembers the ETag it read, and as long as the lock still carries that
ETag the lock still holds the record that was read (`InFlight.Sound`). A write
takes an ETag no observation has, so it invalidates every other operation in
flight at once.

`StepEffect` says once what a step can do to the lock: nothing, a winning
acquisition, or a touch. The safety theorem reads its clauses off that case
split.
-/

namespace T4.Election

open Lib List

/-! ## Small facts about the lock store -/

theorem readWithETag_cases (store : LockStore) :
    (store.object = none ∧ readWithETag store = ⟨none, none⟩) ∨
      ∃ object, store.object = some object ∧
        readWithETag store = ⟨some object.body, some object.etag⟩ := by
  unfold readWithETag
  cases held : store.object with
  | none => exact Or.inl ⟨rfl, rfl⟩
  | some object => exact Or.inr ⟨object, rfl, rfl⟩

variable {store : LockStore} {next s : ElectionState} {record : LockRecord} {floorTerm : Nat}
  {lock : Lock} {committedRev : Int}

variable {cur : LockWithETag} {term : Nat} {kind : AcquireKind}

theorem LockStore.putIfMatch_eq_some {next : LockStore} {tag : Nat}
    (done : store.putIfMatch record tag = some next) :
    next = store.put record ∧ ∃ object, store.object = some object ∧ object.etag = tag := by
  unfold LockStore.putIfMatch at done
  cases held : store.object with
  | none => simp [held] at done
  | some object =>
    simp only [held] at done
    split at done
    · rename_i same
      exact ⟨(Option.some.inj done).symm, object, rfl, same⟩
    · cases done

theorem LockStore.putIfAbsent_eq_some {next : LockStore}
    (done : store.putIfAbsent record = some next) :
    next = store.put record ∧ store.object = none := by
  unfold LockStore.putIfAbsent at done
  cases held : store.object with
  | none =>
    simp only [held] at done
    exact ⟨(Option.some.inj done).symm, rfl⟩
  | some object => simp [held] at done

theorem lt_newTerm (observed : cur.record = some record) : record.term < newTerm floorTerm cur := by
  unfold newTerm
  rw [observed]
  dsimp only
  split <;> omega

theorem Lock.tryAcquire_eq_ok (decided : lock.tryAcquire floorTerm cur = .ok term) :
    term = newTerm floorTerm cur ∧
      ∀ record, cur.record = some record → record.nodeID = lock.nodeID := by
  unfold Lock.tryAcquire at decided
  cases observed : cur.record with
  | none =>
    simp only [observed, Except.ok.injEq] at decided
    exact ⟨decided.symm, by simp⟩
  | some record =>
    simp only [observed] at decided
    split at decided
    · cases decided
    · rename_i own
      simp only [Except.ok.injEq] at decided
      refine ⟨decided.symm, ?_⟩
      intro other same
      cases same
      exact not_not.mp own

theorem Lock.takeOver_eq_ok (decided : lock.takeOver floorTerm committedRev cur = .ok term) :
    term = newTerm floorTerm cur ∧
      ∀ record, cur.record = some record → record.nodeID ≠ lock.nodeID →
        record.committedRev ≤ committedRev := by
  unfold Lock.takeOver at decided
  cases observed : cur.record with
  | none =>
    simp only [observed, Except.ok.injEq] at decided
    exact ⟨decided.symm, by simp⟩
  | some record =>
    simp only [observed] at decided
    split at decided
    · cases decided
    · split at decided
      · cases decided
      · rename_i covered
        simp only [Except.ok.injEq] at decided
        refine ⟨decided.symm, ?_⟩
        intro other same foreign
        cases same
        by_contra behind
        exact covered ⟨foreign, by omega⟩

/-! ## Observations in flight -/

/-- What an operation in flight knows: its ETag is older than the next write, and
while the lock carries that ETag it holds the record the operation has checked. -/
def InFlight.Sound (store : LockStore) : InFlight → Prop
  | .write kind lock term committedRev observed =>
    (observed = ⟨none, none⟩) ∨
      ∃ record tag, observed = ⟨some record, some tag⟩ ∧ tag < store.writes ∧
        (∀ object, store.object = some object → object.etag = tag → object.body = record) ∧
        record.term < term ∧
        (kind = .takeOver → record.nodeID ≠ lock.nodeID → record.committedRev ≤ committedRev)
  | .reread _ _ => True
  | .touch lock term etag =>
    ∃ tag, etag = some tag ∧ tag < store.writes ∧
      ∀ object, store.object = some object → object.etag = tag →
        object.body.term = term ∧ object.body.nodeID = lock.nodeID

theorem InFlight.Sound.put {op : InFlight} (sound : op.Sound store) :
    op.Sound (store.put record) := by
  cases op with
  | write kind lock term committedRev observed =>
    rcases sound with absent | ⟨seen, tag, read, old, _, above, covered⟩
    · exact Or.inl absent
    · refine Or.inr ⟨seen, tag, read, Nat.lt_succ_of_lt old, ?_, above, covered⟩
      intro object stored same
      cases Option.some.inj stored
      exact absurd same (Nat.ne_of_gt old)
  | reread kind lock => trivial
  | touch lock term etag =>
    obtain ⟨tag, read, old, _⟩ := sound
    refine ⟨tag, read, Nat.lt_succ_of_lt old, ?_⟩
    intro object stored same
    cases Option.some.inj stored
    exact absurd same (Nat.ne_of_gt old)

/-- The lock object's ETag is one of the ETags already given out. -/
def LockStore.Fresh (store : LockStore) : Prop :=
  ∀ object, store.object = some object → object.etag < store.writes

theorem LockStore.Fresh.put : (store.put record).Fresh := by
  intro object stored
  cases Option.some.inj stored
  exact Nat.lt_succ_self _

theorem InFlight.Sound.ofRead (fresh : store.Fresh)
    (covered : kind = .takeOver → ∀ record, (readWithETag store).record = some record →
      record.nodeID ≠ lock.nodeID → record.committedRev ≤ committedRev) :
    (InFlight.write kind lock (newTerm floorTerm (readWithETag store)) committedRev
      (readWithETag store)).Sound store := by
  rcases readWithETag_cases store with ⟨_, read⟩ | ⟨object, stored, read⟩
  · exact Or.inl read
  · have observed : (readWithETag store).record = some object.body := by rw [read]
    refine Or.inr ⟨object.body, object.etag, read, fresh object stored, ?_,
      lt_newTerm observed, fun takes => covered takes object.body observed⟩
    intro other otherStored _
    cases stored.symm.trans otherStored
    rfl

/-! ## What a step does -/

/-- The results that are winning acquisitions, as the terms they carry. -/
def wonTerm : Returned → Option Nat
  | .acquisition _ _ (some record) true => some record.term
  | _ => none

/-- The terms of the winning acquisitions among `results`, in order. -/
def winTerms (results : List Returned) : List Nat :=
  results.filterMap wonTerm

/-- A result that reports no win and no successful touch. -/
def Returned.quiet : Returned → Bool
  | .acquisition _ _ _ won => !won
  | .touched _ _ succeeded => !succeeded
  | _ => true

def LockStore.owner (store : LockStore) : Option String :=
  store.object.map (fun object => object.body.nodeID)

/-- Everything one step can do. A write happens only while the lock still holds
the record its operation observed. -/
inductive StepEffect (s next : ElectionState) : Prop
  | quiet (results : List Returned) :
      next.store = s.store →
      (∀ op ∈ next.inFlight, op.Sound s.store) →
      next.returned = s.returned ++ results →
      (∀ result ∈ results, result.quiet = true) →
      StepEffect s next
  | won (kind : AcquireKind) (lock : Lock) (record : LockRecord) :
      next.store = s.store.put record →
      (∀ op ∈ next.inFlight, op ∈ s.inFlight) →
      next.returned = s.returned ++ [.acquisition kind lock (some record) true] →
      record.nodeID = lock.nodeID →
      (∀ object, s.store.object = some object → object.body.term < record.term ∧
        (kind = .takeOver → object.body.nodeID ≠ lock.nodeID →
          object.body.committedRev ≤ record.committedRev)) →
      StepEffect s next
  | touched (lock : Lock) (term : Nat) (record : LockRecord) (object : LockObject) :
      next.store = s.store.put record →
      (∀ op ∈ next.inFlight, op ∈ s.inFlight) →
      next.returned = s.returned ++ [.touched lock term true] →
      s.store.object = some object →
      object.body.nodeID = lock.nodeID → object.body.term = term →
      record.nodeID = lock.nodeID → record.term = term →
      StepEffect s next

structure ElectionInv (s : ElectionState) : Prop where
  fresh : s.store.Fresh
  sound : ∀ op ∈ s.inFlight, op.Sound s.store
  /-- No lock has been removed: a past win is still covered by the lock's term. -/
  covered : ∀ term ∈ winTerms s.returned,
    ∃ object, s.store.object = some object ∧ term ≤ object.body.term
  increasing : (winTerms s.returned).Pairwise (· < ·)

theorem ElectionInv.sound_eraseIdx (inv : ElectionInv s) (i : Nat) :
    ∀ op ∈ s.inFlight.eraseIdx i, op.Sound s.store :=
  fun op member => inv.sound op (mem_of_mem_eraseIdx member)

theorem StepEffect.begin (inv : ElectionInv s) (floorTerm : Nat) {decision : Except LockRecord Nat}
    (decided : ∀ term, decision = .ok term → term = newTerm floorTerm (readWithETag s.store) ∧
      (kind = .takeOver → ∀ record, (readWithETag s.store).record = some record →
        record.nodeID ≠ lock.nodeID → record.committedRev ≤ committedRev)) :
    StepEffect s (s.begin kind lock committedRev decision) := by
  cases decision with
  | error record =>
    exact .quiet [.acquisition kind lock (some record) false] rfl inv.sound rfl
      (by simp [Returned.quiet])
  | ok term =>
    obtain ⟨termEq, covered⟩ := decided term rfl
    refine .quiet [] rfl ?_ (by simp [ElectionState.begin]) (by simp)
    intro op member
    simp only [ElectionState.begin, mem_append, mem_singleton] at member
    rcases member with old | rfl
    · exact inv.sound op old
    · rw [termEq]
      exact InFlight.Sound.ofRead inv.fresh covered

theorem StepEffect.writeAtomic (inv : ElectionInv s) {i : Nat} {now : Int} {observed : LockWithETag}
    (selected : s.inFlight[i]? = some (.write kind lock term committedRev observed))
    (written : lock.writeAtomic term committedRev now observed s.store = some store) :
    StepEffect s (s.finish i store
      (.acquisition kind lock (some (lock.acquired term committedRev now)) true)) := by
  rcases inv.sound _ (mem_of_getElem? selected) with
    rfl | ⟨record, tag, rfl, old, unchanged, above, covered⟩
  · obtain ⟨rfl, absent⟩ := LockStore.putIfAbsent_eq_some written
    refine .won kind lock (lock.acquired term committedRev now) rfl
      (fun op member => mem_of_mem_eraseIdx member) rfl rfl ?_
    intro object stored
    cases absent.symm.trans stored
  · obtain ⟨rfl, object, stored, same⟩ := LockStore.putIfMatch_eq_some written
    refine .won kind lock (lock.acquired term committedRev now) rfl
      (fun op member => mem_of_mem_eraseIdx member) rfl rfl ?_
    intro other otherStored
    cases stored.symm.trans otherStored
    rw [unchanged object stored same]
    exact ⟨above, covered⟩

theorem StepEffect.of_step (inv : ElectionInv s) {action : ElectionAction}
    (stepped : electionStep s action = some next) : StepEffect s next := by
  have returns : ∀ i result, result.quiet = true → StepEffect s (s.finish i s.store result) :=
    fun i result quiet => .quiet [result] rfl (inv.sound_eraseIdx i) rfl (by simp [quiet])
  revert stepped
  -- One case for each way through the step, in the order of the actions.
  fun_cases electionStep s action <;> rintro ⟨⟩
  case case1 floorTerm _ =>
    refine StepEffect.begin inv floorTerm ?_
    intro term decided
    exact ⟨(Lock.tryAcquire_eq_ok decided).1, by intro other; cases other⟩
  case case2 floorTerm _ =>
    refine StepEffect.begin inv floorTerm ?_
    intro term decided
    obtain ⟨termEq, covered⟩ := Lock.takeOver_eq_ok decided
    exact ⟨termEq, fun _ => covered⟩
  case case3 selected _ written => exact .writeAtomic inv selected written
  case case4 =>
    -- The race is lost: the operation stays in flight to read the winner.
    refine .quiet [] rfl ?_ (by simp) (by simp)
    intro op member
    rcases mem_or_eq_of_mem_set member with old | rfl
    · exact inv.sound op old
    · trivial
  case case6 => exact returns _ _ rfl
  case case7 => exact returns _ _ rfl
  case case9 => exact returns _ _ rfl
  case case11 cur still =>
    subst cur
    refine .quiet [] rfl ?_ (by simp) (by simp)
    refine forall_mem_append.mpr ⟨inv.sound, forall_mem_singleton.mpr ?_⟩
    rcases readWithETag_cases s.store with ⟨_, read⟩ | ⟨object, stored, read⟩
    · simp [read] at still
    · simp only [read, Option.any_some, decide_eq_true_eq] at still
      refine ⟨object.etag, by rw [read], inv.fresh object stored, ?_⟩
      intro other otherStored _
      cases stored.symm.trans otherStored
      exact still
  case case12 => exact .quiet [.stillLeader _ _] rfl inv.sound rfl (by simp [Returned.quiet])
  case case13 => exact .quiet [.superseded _ _] rfl inv.sound rfl (by simp [Returned.quiet])
  case case14 lock term _ selected _ written =>
    obtain ⟨tag, rfl, old, unchanged⟩ := inv.sound _ (mem_of_getElem? selected)
    obtain ⟨rfl, object, stored, same⟩ := LockStore.putIfMatch_eq_some written
    obtain ⟨sameTerm, sameOwner⟩ := unchanged object stored same
    exact .touched lock term _ object rfl
      (fun op member => mem_of_mem_eraseIdx member) rfl stored sameOwner sameTerm rfl rfl
  case case15 => exact returns _ _ rfl

/-! ## The invariant holds along every run -/

theorem winTerms_append (front back : List Returned) :
    winTerms (front ++ back) = winTerms front ++ winTerms back :=
  filterMap_append

theorem winTerms_eq_nil_of_quiet {results : List Returned}
    (quiet : ∀ result ∈ results, result.quiet = true) : winTerms results = [] := by
  unfold winTerms
  rw [filterMap_eq_nil_iff]
  intro result member
  have silent := quiet result member
  unfold Returned.quiet at silent
  unfold wonTerm
  split
  · simp at silent
  · rfl

theorem ElectionInv.of_init (init : electionSystem.init s) : ElectionInv s := by
  obtain ⟨noOps, noResults, fresh⟩ := init
  refine ⟨fresh, ?_, ?_, ?_⟩
  · rw [noOps]; simp
  · rw [noResults]; simp [winTerms]
  · rw [noResults]; exact List.Pairwise.nil

theorem ElectionInv.step {action : ElectionAction} (inv : ElectionInv s)
    (stepped : electionStep s action = some next) : ElectionInv next := by
  cases StepEffect.of_step inv stepped with
  | quiet results sameStore sound returned silent =>
    have sameWins : winTerms next.returned = winTerms s.returned := by
      rw [returned, winTerms_append, winTerms_eq_nil_of_quiet silent, append_nil]
    refine ⟨?_, ?_, ?_, ?_⟩
    · rw [sameStore]; exact inv.fresh
    · rw [sameStore]; exact sound
    · rw [sameStore, sameWins]; exact inv.covered
    · rw [sameWins]; exact inv.increasing
  | won kind lock record put kept returned owner above =>
    have wins : winTerms next.returned = winTerms s.returned ++ [record.term] := by
      rw [returned, winTerms_append]; rfl
    have earlier : ∀ term ∈ winTerms s.returned, term < record.term := by
      intro term member
      obtain ⟨object, stored, le⟩ := inv.covered term member
      exact Nat.lt_of_le_of_lt le (above object stored).1
    refine ⟨?_, ?_, ?_, ?_⟩
    · rw [put]; exact LockStore.Fresh.put
    · intro op member
      rw [put]
      exact (inv.sound op (kept op member)).put
    · intro term member
      rw [put]
      refine ⟨_, rfl, ?_⟩
      rw [wins, mem_append, mem_singleton] at member
      rcases member with old | rfl
      · exact Nat.le_of_lt (earlier term old)
      · exact Nat.le_refl _
    · rw [wins, pairwise_append]
      refine ⟨inv.increasing, pairwise_singleton _ _, ?_⟩
      intro term member last isLast
      cases mem_singleton.mp isLast
      exact earlier term member
  | touched lock term record object put kept returned stored owner sameTerm newOwner newTermEq =>
    have sameWins : winTerms next.returned = winTerms s.returned := by
      rw [returned, winTerms_append]; simp [winTerms, wonTerm]
    refine ⟨?_, ?_, ?_, ?_⟩
    · rw [put]; exact LockStore.Fresh.put
    · intro op member
      rw [put]
      exact (inv.sound op (kept op member)).put
    · intro won member
      rw [sameWins] at member
      obtain ⟨other, otherStored, le⟩ := inv.covered won member
      cases stored.symm.trans otherStored
      rw [put]
      exact ⟨_, rfl, by dsimp only; omega⟩
    · rw [sameWins]; exact inv.increasing

theorem ElectionInv.of_run {start : ElectionState} {actions : List ElectionAction}
    (inv : ElectionInv start) (ran : electionSystem.run start actions = some s) : ElectionInv s :=
  System.run_invariant (P := fun _ _ => True) (fun held _ stepped => held.step stepped) inv
    (System.Meets.true start actions) ran

theorem term_le_of_run {start t : ElectionState} {actions : List ElectionAction}
    (inv : ElectionInv start) (ran : electionSystem.run start actions = some t)
    {object : LockObject} (stored : start.store.object = some object) :
    ∃ later, t.store.object = some later ∧ object.body.term ≤ later.body.term := by
  induction actions generalizing start object with
  | nil =>
    cases ran
    exact ⟨object, stored, Nat.le_refl _⟩
  | cons action rest ih =>
    obtain ⟨next, stepped, ran⟩ := System.run_cons.mp ran
    have one : ∃ later, next.store.object = some later ∧
        object.body.term ≤ later.body.term := by
      cases StepEffect.of_step inv stepped with
      | quiet results sameStore => exact ⟨object, by rw [sameStore]; exact stored, Nat.le_refl _⟩
      | won kind lock record put _ _ _ above =>
        exact ⟨_, by rw [put]; rfl, Nat.le_of_lt (above object stored).1⟩
      | touched lock term record other put _ _ otherStored _ sameTerm _ newTermEq =>
        cases stored.symm.trans otherStored
        exact ⟨_, by rw [put]; rfl, by dsimp only; omega⟩
    obtain ⟨later, laterStored, le⟩ := one
    obtain ⟨last, lastStored, le'⟩ := ih (inv.step stepped) ran laterStored
    exact ⟨last, lastStored, Nat.le_trans le le'⟩

/-- **Election safety.** In every run of any number of nodes: winning acquisitions
carry strictly increasing terms; the lock's term never decreases from then on;
and in every step from the state reached, the owner changes only by a winning
acquisition of the new owner, a successful touch finds its node the owner with
that term, and a takeover of a foreign record wins only with a committed revision
at least that of the record it replaces. -/
theorem election_safety {start s : ElectionState} {actions : List ElectionAction}
    (init : electionSystem.init start) (ran : electionSystem.run start actions = some s) :
    (winTerms s.returned).Pairwise (· < ·) ∧
    (∀ more t object, electionSystem.run s more = some t → s.store.object = some object →
      ∃ later, t.store.object = some later ∧ object.body.term ≤ later.body.term) ∧
    ∀ action next, electionStep s action = some next →
      (next.store.owner ≠ s.store.owner → ∃ kind lock record,
        next.returned = s.returned ++ [.acquisition kind lock (some record) true] ∧
          next.store.owner = some lock.nodeID) ∧
      (∀ lock term, next.returned = s.returned ++ [.touched lock term true] →
        ∃ object, s.store.object = some object ∧ object.body.nodeID = lock.nodeID ∧
          object.body.term = term) ∧
      (∀ lock record object,
        next.returned = s.returned ++ [.acquisition .takeOver lock (some record) true] →
        s.store.object = some object → object.body.nodeID ≠ lock.nodeID →
          object.body.committedRev ≤ record.committedRev) := by
  have inv : ElectionInv s := (ElectionInv.of_init init).of_run ran
  refine ⟨inv.increasing, fun more t object later stored => term_le_of_run inv later stored, ?_⟩
  intro action next stepped
  cases StepEffect.of_step inv stepped with
  | quiet results sameStore _ returned silent =>
    refine ⟨?_, ?_, ?_⟩
    · intro changed
      rw [sameStore] at changed
      exact absurd rfl changed
    · intro lock term isTouch
      have only := append_cancel_left (returned.symm.trans isTouch)
      have quiet := silent (.touched lock term true) (by rw [only]; simp)
      simp [Returned.quiet] at quiet
    · intro lock record object isWin
      have only := append_cancel_left (returned.symm.trans isWin)
      have quiet := silent (.acquisition .takeOver lock (some record) true) (by rw [only]; simp)
      simp [Returned.quiet] at quiet
  | won kind lock record put _ returned owner above =>
    refine ⟨?_, ?_, ?_⟩
    · intro _
      refine ⟨kind, lock, record, returned, ?_⟩
      rw [put, ← owner]
      rfl
    · intro other term isTouch
      have only := append_cancel_left (returned.symm.trans isTouch)
      simp at only
    · intro other otherRecord object isWin stored foreign
      have only := append_cancel_left (returned.symm.trans isWin)
      simp only [List.cons.injEq, Returned.acquisition.injEq, Option.some.injEq,
        and_true] at only
      obtain ⟨rfl, rfl, rfl⟩ := only
      exact (above object stored).2 rfl foreign
  | touched lock term record object put _ returned stored owner sameTerm newOwner _ =>
    refine ⟨?_, ?_, ?_⟩
    · intro changed
      refine absurd ?_ changed
      rw [put]
      simp [LockStore.owner, LockStore.put, stored, newOwner, owner]
    · intro other otherTerm isTouch
      have only := append_cancel_left (returned.symm.trans isTouch)
      simp only [List.cons.injEq, Returned.touched.injEq, and_true] at only
      obtain ⟨rfl, rfl⟩ := only
      exact ⟨object, stored, owner, sameTerm⟩
    · intro other otherRecord _ isWin
      have only := append_cancel_left (returned.symm.trans isWin)
      simp at only

/-- Two nodes start on an absent lock; the loser takes over at the owner's committed
revision while the owner touches the lock, loses that race too, and wins the next. -/
def takeOverRace : List ElectionAction :=
  [.tryAcquire ⟨"a", "a:3380"⟩ 1 0, .tryAcquire ⟨"b", "b:3380"⟩ 1 0,
    .writeAtomic 0 10, .writeAtomic 0 11, .reread 0,
    .takeOver ⟨"b", "b:3380"⟩ 2 7, .fencedRead ⟨"a", "a:3380"⟩ 2 true,
    .touchIfMatch 1 7 12, .writeAtomic 0 13, .reread 0,
    .takeOver ⟨"b", "b:3380"⟩ 2 7, .writeAtomic 0 14]

theorem election_safety_takeOverRace :
    ∃ s, electionSystem.run ⟨⟨none, 0⟩, [], []⟩ takeOverRace = some s ∧
      winTerms s.returned = [2, 3] ∧ (winTerms s.returned).Pairwise (· < ·) := by
  have replay : (electionSystem.run ⟨⟨none, 0⟩, [], []⟩ takeOverRace).map
      (fun s => winTerms s.returned) = some [2, 3] := by decide
  obtain ⟨s, ran, wins⟩ := Option.map_eq_some_iff.mp replay
  exact ⟨s, ran, wins, (election_safety ⟨rfl, rfl, by simp⟩ ran).1⟩

end T4.Election
