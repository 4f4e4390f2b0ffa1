import T4.WritePath.Numbers
import T4.WritePath.Spec

/-!
# Serialisability under group commit

Whatever the interleaving of calls, batches and wake-ups, as long as no batch fails a
caller cannot tell the node from the sequential specification (`KVMap`) run in the
order in which the calls held the mutex.
-/

namespace T4.WritePath

open Lib Bytes Wal Mvcc List

/-- The condition on a step: keys are non-empty and no batch is rejected. -/
def Unfailing (_ : WriteState) : WriteAction → Prop
  | .call c => c.KeysNonempty
  | .reject => False
  | _ => True

instance (s : WriteState) (a : WriteAction) : Decidable (Unfailing s a) := by
  rcases a with _ | _ <;> unfold Unfailing <;> infer_instance

theorem Unfailing.keepsNumbers {s : WriteState} {a : WriteAction} (unfailing : Unfailing s a) :
    KeepsNumbers s a := by
  cases a with
  | call c =>
    cases c with
    | delete key | deleteIfRevision key revision => exact fun empty => absurd empty unfailing
    | _ => trivial
  | reject => exact unfailing
  | _ => trivial

/-- The calls of a run, in the order in which they held the mutex. -/
def callsOf (actions : List WriteAction) : List Call :=
  actions.filterMap (fun a => match a with
    | .call c => some c
    | _ => none)

/-- What the store of a node holds, as a map. -/
def storedMap (s : WriteState) : KVMap where
  rev := s.node.db.currentRev
  value k :=
    match s.node.db.get k with
    | .ok existing => existing
    | .error _ => none

/-- The answers given and prepared so far are the outcomes on the map, and every call
waits or is answered. -/
structure Answers (outcomes : List Outcome) (calls : Nat) (waiting : List Waiter)
    (results : List (Nat × Result)) : Prop where
  count : outcomes.length = calls
  prepared : ∀ w ∈ waiting, ∃ o, outcomes[w.id]? = some o ∧ w.result.Shows o
  succeeded : ∀ w ∈ waiting, ∀ err ∈ w.done, err = none
  abandoned : ∀ w ∈ waiting, w.abandoned → ∃ result, (w.id, result) ∈ results
  answered : ∀ id result, (id, result) ∈ results → result ≠ .contextError →
    ∃ o, outcomes[id]? = some o ∧ result.Shows o
  complete : ∀ id < calls, (∃ w ∈ waiting, w.id = id) ∨ ∃ result, (id, result) ∈ results

namespace Answers

variable {outcomes : List Outcome} {calls : Nat} {waiting : List Waiter}
  {results : List (Nat × Result)}

theorem earlier {o o' : Outcome} {id : Nat} (found : outcomes[id]? = some o) :
    (outcomes ++ [o'])[id]? = some o := by
  rw [List.getElem?_append_left (List.getElem?_eq_some_iff.mp found).1]
  exact found

theorem latest (answers : Answers outcomes calls waiting results) (o : Outcome) :
    (outcomes ++ [o])[calls]? = some o := by
  rw [← answers.count]
  exact getElem?_concat_length

theorem returned (answers : Answers outcomes calls waiting results) {result : Result} {o : Outcome}
    (shows : result.Shows o) :
    Answers (outcomes ++ [o]) (calls + 1) waiting (results ++ [(calls, result)]) := by
  refine ⟨by rw [length_append, length_singleton, answers.count], ?_, answers.succeeded,
    ?_, ?_, ?_⟩
  · intro w mem
    obtain ⟨o, found, shown⟩ := answers.prepared w mem
    exact ⟨o, earlier found, shown⟩
  · intro w mem gone
    obtain ⟨result, given⟩ := answers.abandoned w mem gone
    exact ⟨result, mem_append_left _ given⟩
  · intro id given mem real
    rcases mem_append.mp mem with old | new
    · obtain ⟨o, found, shown⟩ := answers.answered id given old real
      exact ⟨o, earlier found, shown⟩
    · cases mem_singleton.mp new
      exact ⟨o, answers.latest o, shows⟩
  · intro id below
    rcases Nat.lt_succ_iff_lt_or_eq.mp below with old | rfl
    · rcases answers.complete id old with waits | given
      · exact Or.inl waits
      · obtain ⟨result, mem⟩ := given
        exact Or.inr ⟨result, mem_append_left _ mem⟩
    · exact Or.inr ⟨result, by simp⟩

theorem queued (answers : Answers outcomes calls waiting results) {result : Result} {o : Outcome}
    (shows : result.Shows o) (key : Bytes) (rev : Int) :
    Answers (outcomes ++ [o]) (calls + 1) (waiting ++ [{ id := calls, key, rev, result }])
      results := by
  refine ⟨by rw [length_append, length_singleton, answers.count], ?_, ?_, ?_, ?_, ?_⟩
  · intro w mem
    rcases mem_append.mp mem with old | new
    · obtain ⟨o, found, shown⟩ := answers.prepared w old
      exact ⟨o, earlier found, shown⟩
    · rw [mem_singleton.mp new]
      exact ⟨o, answers.latest o, shows⟩
  · intro w mem err done
    rcases mem_append.mp mem with old | new
    · exact answers.succeeded w old err done
    · rw [mem_singleton.mp new] at done
      cases done
  · intro w mem gone
    rcases mem_append.mp mem with old | new
    · exact answers.abandoned w old gone
    · rw [mem_singleton.mp new] at gone
      cases gone
  · intro id given mem real
    obtain ⟨o, found, shown⟩ := answers.answered id given mem real
    exact ⟨o, earlier found, shown⟩
  · intro id below
    rcases Nat.lt_succ_iff_lt_or_eq.mp below with old | rfl
    · rcases answers.complete id old with waits | given
      · obtain ⟨w, mem, same⟩ := waits
        exact Or.inl ⟨w, mem_append_left _ mem, same⟩
      · exact Or.inr given
    · exact Or.inl ⟨_, mem_append_right _ (mem_singleton.mpr rfl), rfl⟩

theorem finish (answers : Answers outcomes calls waiting results) (batch : List WriteReq) :
    Answers outcomes calls (waiting.map (signal batch none)) results := by
  have kept : ∀ w, (signal batch none w).id = w.id ∧ (signal batch none w).result = w.result ∧
      (signal batch none w).abandoned = w.abandoned ∧
      ∀ err ∈ (signal batch none w).done, err = none ∨ err ∈ w.done := by
    intro w
    unfold signal
    split
    · refine ⟨rfl, rfl, rfl, ?_⟩
      intro err done
      cases done
      exact Or.inl rfl
    · exact ⟨rfl, rfl, rfl, fun err done => Or.inr done⟩
  refine ⟨answers.count, ?_, ?_, ?_, answers.answered, ?_⟩
  · intro w mem
    obtain ⟨old, inOld, rfl⟩ := mem_map.mp mem
    rw [(kept old).1, (kept old).2.1]
    exact answers.prepared old inOld
  · intro w mem err done
    obtain ⟨old, inOld, rfl⟩ := mem_map.mp mem
    rcases (kept old).2.2.2 err done with none | before
    · exact none
    · exact answers.succeeded old inOld err before
  · intro w mem gone
    obtain ⟨old, inOld, rfl⟩ := mem_map.mp mem
    rw [(kept old).2.2.1] at gone
    rw [(kept old).1]
    exact answers.abandoned old inOld gone
  · intro id below
    rcases answers.complete id below with waits | given
    · obtain ⟨w, mem, rfl⟩ := waits
      exact Or.inl ⟨_, mem_map.mpr ⟨w, mem, rfl⟩, (kept w).1⟩
    · exact Or.inr given

theorem wake (answers : Answers outcomes calls waiting results) {w : Waiter}
    {err : Option CommitError} (found : w ∈ waiting) (done : w.done = some err) :
    Answers outcomes calls (waiting.filter (fun other => other.id ≠ w.id))
      (if w.abandoned then results else results ++ [(w.id, w.answer err)]) := by
  have grows : ∀ given, given ∈ results →
      given ∈ if w.abandoned then results else results ++ [(w.id, w.answer err)] := by
    intro given mem
    split
    · exact mem
    · exact mem_append_left _ mem
  refine ⟨answers.count, fun other mem => answers.prepared other (mem_of_mem_filter mem),
    fun other mem => answers.succeeded other (mem_of_mem_filter mem), ?_, ?_, ?_⟩
  · intro other mem gone
    obtain ⟨result, given⟩ := answers.abandoned other (mem_of_mem_filter mem) gone
    exact ⟨result, grows _ given⟩
  · intro id result mem real
    split at mem
    · exact answers.answered id result mem real
    · rcases mem_append.mp mem with old | new
      · exact answers.answered id result old real
      · cases mem_singleton.mp new
        rw [answers.succeeded w found err done]
        exact answers.prepared w found
  · intro id below
    rcases answers.complete id below with waits | given
    · obtain ⟨other, mem, rfl⟩ := waits
      rcases eq_or_ne other.id w.id with same | differ
      · rw [same]
        split
        · rename_i gone
          exact Or.inr (answers.abandoned w found gone)
        · exact Or.inr ⟨_, mem_append_right _ (mem_singleton.mpr rfl)⟩
      · exact Or.inl ⟨other, mem_filter.mpr ⟨mem, decide_eq_true differ⟩, rfl⟩
    · obtain ⟨result, mem⟩ := given
      exact Or.inr ⟨result, grows _ mem⟩

theorem abandon (answers : Answers outcomes calls waiting results) (id : Nat) :
    Answers outcomes calls
      (waiting.map (fun other => if other.id = id then { other with abandoned := true } else other))
      (results ++ [(id, .contextError)]) := by
  have kept : ∀ w : Waiter, ∃ gone,
      (if w.id = id then { w with abandoned := true } else w) = { w with abandoned := gone } ∧
        (gone → w.abandoned ∨ w.id = id) := by
    intro w
    split
    · rename_i here
      exact ⟨true, rfl, fun _ => Or.inr here⟩
    · exact ⟨w.abandoned, rfl, Or.inl⟩
  refine ⟨answers.count, ?_, ?_, ?_, ?_, ?_⟩
  · intro w mem
    obtain ⟨old, inOld, rfl⟩ := mem_map.mp mem
    obtain ⟨gone, eq, -⟩ := kept old
    rw [eq]
    exact answers.prepared old inOld
  · intro w mem
    obtain ⟨old, inOld, rfl⟩ := mem_map.mp mem
    obtain ⟨gone, eq, -⟩ := kept old
    rw [eq]
    exact answers.succeeded old inOld
  · intro w mem isGone
    obtain ⟨old, inOld, rfl⟩ := mem_map.mp mem
    obtain ⟨gone, eq, why⟩ := kept old
    rw [eq] at isGone ⊢
    rcases why isGone with before | here
    · obtain ⟨result, given⟩ := answers.abandoned old inOld before
      exact ⟨result, mem_append_left _ given⟩
    · exact ⟨.contextError, by simp [here]⟩
  · intro other result mem real
    rcases mem_append.mp mem with old | new
    · exact answers.answered other result old real
    · cases mem_singleton.mp new
      exact absurd rfl real
  · intro other below
    rcases answers.complete other below with waits | given
    · obtain ⟨w, mem, rfl⟩ := waits
      obtain ⟨gone, eq, -⟩ := kept w
      exact Or.inl ⟨_, mem_map.mpr ⟨w, mem, rfl⟩, by rw [eq]⟩
    · obtain ⟨result, mem⟩ := given
      exact Or.inr ⟨result, mem_append_left _ mem⟩

end Answers

/-- The state of a run whose calls so far are `calls`. -/
structure Serial (h : List Entry) (start : WriteState) (calls : List Call) (s : WriteState) :
    Prop where
  inv : Inv h s
  numbers : Numbers h s
  agrees : s.node.Agrees ((storedMap start).execAll calls).1
  answers : Answers ((storedMap start).execAll calls).2 s.calls s.waiting s.results

section Serial

variable {h : List Entry} {start s next : WriteState} {calls : List Call}

theorem Starts.serial (starts : Starts h start) : Serial h start [] start := by
  refine ⟨starts.inv, starts.numbers, ⟨?_, starts.nextRev⟩, ?_⟩
  · intro k
    have get := starts.stored.get starts.chained.wellFormed k
    have noPending : start.node.pending.get k = none := by
      rw [starts.fresh]
      rfl
    rw [readKey_eq, noPending]
    simp only [KVMap.execAll, storedMap, get]
  · rw [starts.fresh]
    constructor <;> simp [KVMap.execAll]

theorem Serial.positive (serial : Serial h start calls s) :
    ∀ k kv, ((storedMap start).execAll calls).1.value k = some kv → 0 < kv.version := by
  intro k kv held
  have reads := serial.inv.reads
  have same := (serial.agrees.value k).symm.trans (reads.readKey k)
  rw [held] at same
  exact (reads.chained.live k kv (Except.ok.inj same).symm).positive

theorem Serial.call (serial : Serial h start calls s) {c : Call} (nonempty : c.KeysNonempty)
    (stepped : writePath.step s (.call c) = some next) : Serial h start (calls ++ [c]) next := by
  have keeps : KeepsNumbers s (.call c) := Unfailing.keepsNumbers nonempty
  have inv := serial.inv.step (keeps.clean serial.numbers) stepped
  have numbers := serial.numbers.step serial.inv keeps stepped
  obtain ⟨agrees, shows⟩ := serial.agrees.begin serial.positive nonempty
  cases WriteEffect.of_step stepped with
  | call typed opened roomRev roomSeq =>
    cases ended : s.node.begin c with
    | mk node begun =>
      rw [ended] at agrees shows
      refine ⟨inv, numbers, ?_, ?_⟩
      · rw [KVMap.execAll_snoc, beginCall, ended]
        cases begun with
        | returned result => exact agrees
        | queued e basis key result => exact ⟨agrees.value, agrees.rev⟩
      · rw [KVMap.execAll_snoc, beginCall, ended]
        cases begun with
        | returned result => exact serial.answers.returned shows
        | queued e basis key result => exact serial.answers.queued shows key e.revision

/-- **Reads under the mutex** see every entry assigned so far. -/
theorem Numbers.readKey (numbers : Numbers h s) (inv : Inv h s) (k : Bytes) :
    s.node.readKey k = .ok (headValue (h ++ s.assigned) k) := by
  rw [inv.reads.readKey, numbers.assigned_eq, append_assoc]

theorem Serial.advance (serial : Serial h start calls s) {a : WriteAction}
    (keeps : KeepsNumbers s a) (stepped : writePath.step s a = some next)
    (notCall : callsOf [a] = [])
    (answers : Answers ((storedMap start).execAll calls).2 next.calls next.waiting next.results) :
    Serial h start (calls ++ callsOf [a]) next := by
  have inv := serial.inv.step (keeps.clean serial.numbers) stepped
  have numbers := serial.numbers.step serial.inv keeps stepped
  have advances := serial.numbers.advances serial.inv keeps stepped (by
    rintro c rfl
    cases notCall)
  rw [notCall, append_nil]
  refine ⟨inv, numbers, ⟨?_, advances.nextRev.trans serial.agrees.rev⟩, answers⟩
  intro k
  rw [numbers.readKey inv, advances.assigned, ← serial.numbers.readKey serial.inv,
    serial.agrees.value]

theorem Serial.step (serial : Serial h start calls s) {a : WriteAction} (unfailing : Unfailing s a)
    (stepped : writePath.step s a = some next) : Serial h start (calls ++ callsOf [a]) next := by
  have keeps := unfailing.keepsNumbers
  have answers := serial.answers
  cases WriteEffect.of_step stepped with
  | call => exact serial.call unfailing stepped
  | cancel begun | take isIdle positive enough | append collected | apply appended applies
  | applyFailed appended fails => exact serial.advance keeps stepped rfl answers
  | reject collected => exact unfailing.elim
  | finish applied => exact serial.advance keeps stepped rfl (answers.finish _)
  | finishFailed failed =>
    have sound := serial.numbers.sound
    rw [failed] at sound
    exact sound.elim
  | wake found done => exact serial.advance keeps stepped rfl (answers.wake found done)
  | abandon found present gone => exact serial.advance keeps stepped rfl (answers.abandon _)

theorem callsOf_append (first second : List WriteAction) :
    callsOf (first ++ second) = callsOf first ++ callsOf second :=
  filterMap_append

theorem Serial.of_run {actions : List WriteAction} (starts : Starts h start)
    (unfailing : writePath.Meets Unfailing start actions)
    (ran : writePath.run start actions = some s) : Serial h start (callsOf actions) s := by
  refine System.trace_invariant (P := Unfailing)
    (I := fun past s => Serial h start (callsOf past) s) ?_ [] starts.serial unfailing ran
  intro past s a next serial unfailing stepped
  rw [callsOf_append]
  exact serial.step unfailing stepped

end Serial

/-- **The write path is serialisable.** After every run over non-empty keys in which no
batch fails, the calls and their outcomes are those of the map, executed one at a time
in the order in which they held the mutex:

* every call waits or is answered, and every answer but a caller's own context error
  shows the outcome on the map;
* reads under the mutex find the values of the map, which are also those of the start
  store after every entry assigned so far is applied to it;
* when nothing is queued or in flight, the store holds the map and its revision. -/
theorem write_path_serializable {h : List Entry} {start s : WriteState}
    {actions : List WriteAction} (starts : Starts h start)
    (unfailing : writePath.Meets Unfailing start actions)
    (ran : writePath.run start actions = some s) {m : KVMap} {outcomes : List Outcome}
    (sequential : (storedMap start).execAll (callsOf actions) = (m, outcomes)) :
    (∀ id < s.calls, (∃ w ∈ s.waiting, w.id = id) ∨ ∃ result, (id, result) ∈ s.results) ∧
      (∀ id result, (id, result) ∈ s.results → result ≠ .contextError →
        ∃ o, outcomes[id]? = some o ∧ result.Shows o) ∧
      (∀ k, s.node.readKey k = .ok (m.value k)) ∧
      (∀ k, (start.node.db.apply s.assigned).1.get k = s.node.readKey k) ∧
      (s.Quiet → (∀ k, s.node.db.get k = .ok (m.value k)) ∧ s.node.db.currentRev = m.rev) := by
  have serial := Serial.of_run starts unfailing ran
  obtain ⟨inv, numbers, agrees, answers⟩ := serial
  rw [sequential] at agrees answers
  have reads := numbers.readKey inv
  have chained : Chained (h ++ s.assigned) := by
    rw [numbers.assigned_eq, ← append_assoc]
    exact inv.reads.chained
  refine ⟨answers.complete, answers.answered, agrees.value, ?_, ?_⟩
  · intro k
    obtain ⟨db, applies, represents⟩ := starts.stored.apply chained.wellFormed
    rw [applies, reads]
    exact represents.get chained.wellFormed k
  · intro quiet
    have all : s.assigned = s.applied := by
      rw [numbers.assigned_eq, WriteState.unapplied, quiet.1, quiet.2]
      exact append_nil _
    rw [all] at reads
    refine ⟨?_, ?_⟩
    · intro k
      rw [inv.stored.get inv.chained.wellFormed, ← reads, agrees.value]
    · rw [inv.stored.currentRev, ← all, ← numbers.nextRev, agrees.rev]

/-- Two callers race for one key while batches are in flight; then a transaction moves
the value to another key. -/
def racingCalls : List WriteAction :=
  [.call (.put [97] [1] 0), .call (.create [97] [2] 0), .take 1, .call (.update [97] [3] 1 0),
   .append, .call (.txn
      { conditions := [{ key := [97], target := .mod, result := .equal, modRevision := 2 }]
        success :=
          [{ type := .put, key := [98], value := [3] }, { type := .delete, key := [97] }] }),
   .apply, .finish, .wake 0, .take 2, .call (.delete [97]), .append, .apply, .finish, .wake 3,
   .wake 2]

theorem write_path_serializable_racingCalls :
    ∃ s, writePath.run emptyNode racingCalls = some s ∧ (s.Quiet ∧ s.results.length = 5) ∧
      (∀ id result, (id, result) ∈ s.results → result ≠ .contextError →
        ∃ o, ((storedMap emptyNode).execAll (callsOf racingCalls)).2[id]? = some o ∧
          result.Shows o) ∧
      ∀ k, s.node.db.get k =
        .ok (((storedMap emptyNode).execAll (callsOf racingCalls)).1.value k) := by
  refine System.exists_run_and (by decide +kernel) ?_
  rintro s ran ⟨quiet, -⟩
  obtain ⟨-, answered, -, -, final⟩ :=
    write_path_serializable starts_emptyNode (by decide +kernel) ran rfl
  exact ⟨answered, (final quiet).1⟩

end T4.WritePath
