import T4.Etcd.Kv

/-!
# Comparisons of a transaction and the revision shift

A client compares the numbers that it sees, which are wire revisions; the node compares those
of the store. `convertCompare` shifts the operand of a MOD or CREATE comparison back by one.
The shift keeps the order of the revisions that keys really have, but it takes wire revision 1
and all negative numbers to 0, which is also what the node takes for an absent key.

`Compare.eval` is the comparison on what the client sees, 0 for an absent key; `RevisionSafe`
tells exactly which comparisons of a revision have the same outcome on both sides.
-/

namespace T4.Etcd

open Lib Bytes Mvcc WritePath

/-! ## What the client sees -/

/-- The outcome of an operator on two numbers. -/
def CompareResult.holds (result : CompareResult) (lhs rhs : Int) : Bool :=
  match result with
  | .equal => lhs = rhs
  | .notEqual => lhs ≠ rhs
  | .greater => lhs > rhs
  | .less => lhs < rhs
  | .unrecognized _ => false

def CompareTarget.Numeric (target : CompareTarget) : Prop :=
  target = .mod ∨ target = .create ∨ target = .version ∨ target = .lease

instance : DecidablePred CompareTarget.Numeric := fun target =>
  inferInstanceAs (Decidable (target = _ ∨ target = _ ∨ target = _ ∨ target = _))

def Compare.operand (cmp : Compare) : Int :=
  match cmp.target with
  | .mod => cmp.getModRevision
  | .create => cmp.getCreateRevision
  | .version => cmp.getVersion
  | .lease => cmp.getLease
  | _ => 0

/-- The field of the key that the client sees; 0 for an absent key. -/
def Compare.shown (cmp : Compare) (kv : Option WireKV) : Int :=
  match cmp.target with
  | .mod => (kv.map WireKV.modRevision).getD 0
  | .create => (kv.map WireKV.createRevision).getD 0
  | .version => (kv.map WireKV.version).getD 0
  | .lease => (kv.map WireKV.lease).getD 0
  | _ => 0

def Compare.eval (cmp : Compare) (kv : Option WireKV) : Bool :=
  cmp.result.holds (cmp.shown kv) cmp.operand

/-! ## What the shift keeps -/

def maxInt64 : Int := 2 ^ 63 - 1

/-- The comparisons of a revision of the store (none for an absent key) with an operand of the
wire that the shift keeps. -/
def RevisionSafe (result : CompareResult) (rev : Option Int) (operand : Int) : Prop :=
  match rev, result with
  -- An absent key has revision 0 on both sides, and so have the operands up to 1 in the store.
  | none, .equal | none, .notEqual => operand = 0 ∨ 2 ≤ operand
  | none, .greater => 0 ≤ operand
  | none, .less => operand ≠ 1
  -- The last revision of all wraps around on the wire; before it, only the revisions that no
  -- key is written at meet the operands that are cut off.
  | some x, .equal | some x, .notEqual =>
    if x = maxInt64 then operand ≠ - 2 ^ 63 else 0 < operand ∨ 0 < x ∨ (x ≠ 0 ∧ x + 1 ≠ operand)
  | some x, .greater => x ≠ maxInt64 ∧ (0 < operand ∨ 0 < x ∨ x < operand)
  | some x, .less =>
    if x = maxInt64 then operand = - 2 ^ 63 else 0 < operand ∨ 0 < x ∨ x = 0 ∨ x + 1 < operand
  | _, .unrecognized _ => True

/-- The comparisons that the shift keeps: all of versions and leases, and the safe ones of
revisions. -/
def Compare.ShiftSafe (cmp : Compare) (existing : Option KeyValue) : Prop :=
  match cmp.target with
  | .mod => RevisionSafe cmp.result (existing.map KeyValue.revision) cmp.operand
  | .create => RevisionSafe cmp.result (existing.map KeyValue.createRevision) cmp.operand
  | _ => True

theorem toEtcdRevision_eq {x : Int} (typed : IsInt64 x) :
    toEtcdRevision x = if x = maxInt64 then - 2 ^ 63 else x + 1 := by
  unfold toEtcdRevision maxInt64
  split
  · subst x
    decide
  · refine wrap_of_isInt64 ?_
    unfold IsInt64 at typed ⊢
    omega

theorem CompareResult.holds_shift_iff (result : CompareResult) {rev : Option Int} {operand : Int}
    (typed : ∀ x ∈ rev, IsInt64 x) (fits : IsInt64 operand) :
    result.holds (rev.getD 0) (fromEtcdRevision operand) =
        result.holds ((rev.map toEtcdRevision).getD 0) operand ↔
      RevisionSafe result rev operand := by
  unfold IsInt64 at fits
  cases rev with
  | none =>
    simp only [Option.getD_none, Option.map_none, fromEtcdRevision, RevisionSafe]
    cases result <;> simp only [CompareResult.holds, decide_eq_decide] <;> split <;> omega
  | some x =>
    have bounds := typed x rfl
    have shown := toEtcdRevision_eq bounds
    unfold IsInt64 at bounds
    simp only [Option.getD_some, Option.map_some, shown, fromEtcdRevision, RevisionSafe]
    unfold maxInt64
    -- The last revision apart, both sides move by one unless the operand is cut off.
    by_cases last : x = 2 ^ 63 - 1
    · simp only [last, if_true]
      cases result <;> simp only [CompareResult.holds, decide_eq_decide, if_true] <;> split <;>
        omega
    · simp only [last, if_false]
      cases result <;> simp only [CompareResult.holds, decide_eq_decide] <;> split <;> omega

/-! ## The converted comparison -/

/-- The field of the store that a converted comparison reads; 0 for an absent key. -/
def Compare.stored (cmp : Compare) (existing : Option KeyValue) : Int :=
  match cmp.target with
  | .mod => (existing.map KeyValue.revision).getD 0
  | .create => (existing.map KeyValue.createRevision).getD 0
  | .version => (existing.map kvVersion).getD 0
  | .lease => (existing.map KeyValue.lease).getD 0
  | _ => 0

def Compare.converted (cmp : Compare) : Int :=
  match cmp.target with
  | .mod | .create => fromEtcdRevision cmp.operand
  | _ => cmp.operand

theorem convertResult_eq_ok {result : CompareResult} {converted : TxnCondResult}
    (accepted : convertResult result = .ok converted) :
    result = .equal ∧ converted = .equal ∨ result = .notEqual ∧ converted = .notEqual ∨
      result = .greater ∧ converted = .greater ∨ result = .less ∧ converted = .less := by
  cases result <;> cases accepted <;> simp

/-- An accepted comparison of a number compares the converted operand with the field of the
store. -/
theorem txnCondMatches_convertCompare {cmp : Compare} {cond : TxnCondition}
    (accepted : convertCompare cmp = .ok cond) (numeric : cmp.target.Numeric)
    (existing : Option KeyValue) :
    txnCondMatches cond existing = cmp.result.holds (cmp.stored existing) cmp.converted := by
  unfold convertCompare at accepted
  obtain ⟨_, -, accepted⟩ := bind_eq_ok accepted
  obtain ⟨result, operator, accepted⟩ := bind_eq_ok accepted
  unfold Compare.stored Compare.converted Compare.operand
  rcases numeric with target | target | target | target <;>
    · simp only [target] at accepted ⊢
      cases accepted
      rcases convertResult_eq_ok operator with
        ⟨result, rfl⟩ | ⟨result, rfl⟩ | ⟨result, rfl⟩ | ⟨result, rfl⟩ <;>
        · rw [result]
          rfl

theorem Compare.shown_eq_stored {cmp : Compare}
    (other : cmp.target = .version ∨ cmp.target = .lease)
    (existing : Option KeyValue) :
    cmp.shown (existing.map kvToProto) = cmp.stored existing := by
  unfold Compare.shown Compare.stored
  rcases other with target | target <;> simp only [target] <;> cases existing
  · rfl
  · simp only [Option.map_some, Option.getD_some, kvToProto, kvVersion]
    split <;> split <;> omega
  · rfl
  · rfl

/-- Every accepted comparison of a number has the outcome that the client computes from the
values it sees, exactly if it is one of those that the shift keeps. -/
theorem convertCompare_agrees_iff {cmp : Compare} {cond : TxnCondition}
    {existing : Option KeyValue} (accepted : convertCompare cmp = .ok cond)
    (numeric : cmp.target.Numeric) (fits : IsInt64 cmp.operand)
    (typed : ∀ kv ∈ existing, IsInt64 kv.revision ∧ IsInt64 kv.createRevision) :
    txnCondMatches cond existing = cmp.eval (existing.map kvToProto) ↔ cmp.ShiftSafe existing := by
  rw [txnCondMatches_convertCompare accepted numeric, Compare.eval]
  have field (get : KeyValue → Int) (typed : ∀ kv ∈ existing, IsInt64 (get kv)) :
      ∀ x ∈ existing.map get, IsInt64 x := by
    intro x mem
    obtain ⟨kv, here, rfl⟩ := Option.mem_map.mp mem
    exact typed kv here
  rcases numeric with target | target | target | target
  · have shift := cmp.result.holds_shift_iff (field _ (fun kv here => (typed kv here).1)) fits
    simp only [Option.map_map] at shift
    simp only [Compare.stored, Compare.converted, Compare.shown, Compare.ShiftSafe, target,
      Option.map_map]
    exact shift
  · have shift := cmp.result.holds_shift_iff (field _ (fun kv here => (typed kv here).2)) fits
    simp only [Option.map_map] at shift
    simp only [Compare.stored, Compare.converted, Compare.shown, Compare.ShiftSafe, target,
      Option.map_map]
    exact shift
  · rw [Compare.shown_eq_stored (Or.inl target)]
    simp only [Compare.converted, Compare.ShiftSafe, target]
  · rw [Compare.shown_eq_stored (Or.inr target)]
    simp only [Compare.converted, Compare.ShiftSafe, target]

/-- A client asks whether an absent key was modified at wire revision 1. -/
def modEqualsOne : Compare := { key := [107], result := .equal, target := .mod,
                                targetUnion := .modRevision 1 }

/-- The comparison is converted to one that an absent key meets, though the client sees 0. -/
theorem convertCompare_absent_one :
    (convertCompare modEqualsOne).map (txnCondMatches · none) = .ok true ∧
      modEqualsOne.eval ((none : Option KeyValue).map kvToProto) = false := by
  decide

/-- The comparison by which a client creates a key that is absent. -/
def modEqualsZero : Compare := { key := [107], result := .equal, target := .mod,
                                 targetUnion := .modRevision 0 }

theorem convertCompare_agrees_iff_absent :
    (txnCondMatches { key := [107], result := .equal, target := .mod } none =
        modEqualsZero.eval ((none : Option KeyValue).map kvToProto)) ∧
      modEqualsZero.ShiftSafe none := by
  have safe : modEqualsZero.ShiftSafe none := Or.inl rfl
  have agrees : txnCondMatches { key := [107], result := .equal, target := .mod } none =
      modEqualsZero.eval ((none : Option KeyValue).map kvToProto) ↔ modEqualsZero.ShiftSafe none :=
    convertCompare_agrees_iff (by decide) (by decide) (by decide) (by simp)
  exact ⟨agrees.mpr safe, safe⟩

end T4.Etcd
