import T4.Etcd.Expiry

/-!
# Grants and revocations of leases

What a lease can rely on besides its expiry, over the system of `T4.Etcd.Expiry` and, for the
keys of a lease, over a system of its own.

* `LeaseGrant` and `LeaseKeepAlive` compute an expiry in wrapping 64-bit nanoseconds and
  accept every positive TTL.
* `LeaseKeepAlive` puts back a record that it has read by an operation of its own: if the lease
  is revoked in between, the put brings the record back.
* `revokeLease` deletes the keys that it has listed without a look at the lease that they have
  by then.
-/

namespace T4.Etcd

open Lib Bytes List

variable {s t : LeaseState} {a : LeaseAction} {id ttl : Int}

/-! ## Grants -/

/-- `LeaseGrant` with the ID of the request, or the positive one that the server picked. -/
def leaseGrant (s : LeaseState) (id ttl : Int) : Option LeaseState :=
  if ttl ≤ 0 ∨ id ≤ 0 then none
  else leaseStep s (.grant (LeaseRecord.renewed ⟨id, ttl, 0⟩ s.clock))

def LeaseState.getLease (s : LeaseState) (id : Int) : Option LeaseRecord :=
  if id ≤ 0 then none else (s.records.get id).filter (fun rec => s.clock < rec.expiryUnixNs)

/-- The nanosecond at which the year 2101 begins. -/
def eraEnd : Int := 4133980800 * second

/-- From the beginning of 2000 to the end of 2100. -/
def InEra (now : Int) : Prop := 946684800 * second ≤ now ∧ now < eraEnd

/-- The lease is found, has time left, and a keep-alive does not end it. -/
def LeaseState.Alive (s : LeaseState) (id : Int) : Prop :=
  ∃ rec, s.getLease id = some rec ∧ s.clock < rec.expiryUnixNs ∧ 0 < ttlRemaining rec s.clock ∧
    ∀ later, s.clock ≤ later → InEra later → later < (rec.renewed later).expiryUnixNs

theorem ttlRemaining_pos_iff (rec : LeaseRecord) (now : Int) :
    0 < ttlRemaining rec now ↔ now < rec.expiryUnixNs := by
  unfold ttlRemaining
  dsimp only
  split <;> omega

theorem renewed_later_iff {now : Int} (era : InEra now) (rec : LeaseRecord) :
    now < (rec.renewed now).expiryUnixNs ↔ 0 < rec.grantedTTL * second % 2 ^ 64 ∧
      now + rec.grantedTTL * second % 2 ^ 64 < 2 ^ 63 := by
  obtain ⟨low, high⟩ := era
  unfold eraEnd at high
  simp only [LeaseRecord.renewed]
  generalize rec.grantedTTL * second = d
  unfold second at low high
  unfold wrap int64 uint64
  split <;> split <;> omega

theorem getLease_granted (granted : leaseGrant s id ttl = some t) :
    t.clock = s.clock ∧ t.getLease id = if s.clock < (LeaseRecord.renewed ⟨id, ttl, 0⟩
      s.clock).expiryUnixNs then some (LeaseRecord.renewed ⟨id, ttl, 0⟩ s.clock) else none := by
  simp only [leaseGrant, Option.ite_none_left_eq_some, not_or, not_le] at granted
  obtain ⟨⟨-, positive⟩, created⟩ := granted
  simp only [leaseStep, Option.ite_none_right_eq_some, Option.some.injEq] at created
  obtain ⟨-, rfl⟩ := created
  refine ⟨rfl, ?_⟩
  simp only [LeaseState.getLease, if_neg (not_le.mpr positive)]
  have stored : (s.records.insert id (LeaseRecord.renewed ⟨id, ttl, 0⟩ s.clock)).get id =
      some (LeaseRecord.renewed ⟨id, ttl, 0⟩ s.clock) := by rw [SortedMap.get_insert, if_pos rfl]
  change Option.filter _ ((s.records.insert id _).get id) = _
  rw [stored, Option.filter_some]
  simp only [decide_eq_true_eq]

/-- **A granted lease is alive** exactly if what is left of its TTL in nanoseconds, modulo
`2 ^ 64`, is positive and does not carry the clock past the largest number before 2101. -/
theorem granted_alive_iff (era : InEra s.clock) (granted : leaseGrant s id ttl = some t) :
    t.Alive id ↔ 0 < ttl * second % 2 ^ 64 ∧ ttl * second % 2 ^ 64 + eraEnd ≤ 2 ^ 63 := by
  obtain ⟨clock, found⟩ := getLease_granted granted
  have now := renewed_later_iff era ⟨id, ttl, 0⟩
  dsimp only at now
  unfold LeaseState.Alive
  rw [clock, found]
  constructor
  · rintro ⟨rec, isRec, -, -, renewable⟩
    rw [Option.ite_none_right_eq_some, Option.some.injEq] at isRec
    obtain ⟨-, rfl⟩ := isRec
    have atEnd : InEra (eraEnd - 1) := by
      unfold InEra eraEnd second
      omega
    have last := renewable (eraEnd - 1) (Int.le_sub_one_of_lt era.2) atEnd
    rw [renewed_later_iff atEnd] at last
    simp only [LeaseRecord.renewed] at last
    omega
  · rintro ⟨positive, fits⟩
    have alive := now.mpr ⟨positive, by have := era.2; omega⟩
    refine ⟨_, if_pos alive, alive, ?_, ?_⟩
    · exact (ttlRemaining_pos_iff _ _).mpr alive
    · intro later _ inEra
      rw [renewed_later_iff inEra]
      simp only [LeaseRecord.renewed]
      have := inEra.2
      omega

def in2024 : LeaseState := { clock := 1704067200 * second }

theorem granted_alive_minute : ∃ t, leaseGrant in2024 7 60 = some t ∧ t.Alive 7 := by
  obtain ⟨t, granted⟩ := Option.isSome_iff_exists.mp
    (show (leaseGrant in2024 7 60).isSome by decide +kernel)
  exact ⟨t, granted, (granted_alive_iff (by unfold InEra; decide) granted).mpr (by decide)⟩

/-- A TTL that is accepted, but whose nanoseconds are -1 second in 64 bits. -/
theorem granted_dead : ∃ t, leaseGrant in2024 7 (2 ^ 63 - 1) = some t ∧ t.getLease 7 = none ∧
    t.records.get 7 = some ⟨7, 2 ^ 63 - 1, in2024.clock - second⟩ := by
  obtain ⟨t, granted⟩ := Option.isSome_iff_exists.mp
    (show (leaseGrant in2024 7 (2 ^ 63 - 1)).isSome by decide +kernel)
  have computed : (leaseGrant in2024 7 (2 ^ 63 - 1)).all (fun t => t.getLease 7 = none ∧
      t.records.get 7 = some ⟨7, 2 ^ 63 - 1, in2024.clock - second⟩) = true := by decide +kernel
  rw [granted] at computed
  obtain ⟨missing, stored⟩ := of_decide_eq_true computed
  exact ⟨t, granted, missing, stored⟩

/-! ## Revoked leases -/

/-- The lease whose revocation an action commits. -/
def revokes (s : LeaseState) : LeaseAction → Option Int
  | .leaseRevoke id _ => some id
  | .revokeCommit n =>
    match s.loops[n]? with
    | some (.collected _ id _ _) => some id
    | _ => none
  | _ => none

/-- Leases without a record, and without a keep-alive that could put one back. -/
structure Absent (gone : Int → Prop) (s : LeaseState) : Prop where
  stored : ∀ id rec, s.records.get id = some rec → rec.id = id ∧ ¬ gone id
  renewing : ∀ rec ∈ s.reads ++ s.renewals, ¬ gone rec.id

theorem loopStep_frame {n : Nat} {phase : LoopPhase} (stepped : s.loopStep n phase a = some t) :
    (∀ id rec, t.records.get id = some rec → s.records.get id = some rec) ∧
      t.reads = s.reads ∧ t.renewals = s.renewals := by
  revert stepped
  fun_cases s.loopStep n phase a <;> rintro ⟨⟩
  case case7 =>
    refine ⟨?_, rfl, rfl⟩
    intro id rec found
    simp only [LeaseState.setLoop, LeaseState.revoke, SortedMap.get_erase] at found
    split_ifs at found
    exact found
  all_goals exact ⟨fun _ _ found => found, rfl, rfl⟩

namespace Absent

variable {gone : Int → Prop}

theorem mono (absent : Absent gone s)
    (records : ∀ id rec, t.records.get id = some rec → s.records.get id = some rec)
    (renewing : t.reads ++ t.renewals ⊆ s.reads ++ s.renewals) : Absent gone t :=
  ⟨fun id rec found => absent.stored id rec (records id rec found),
    fun rec mem => absent.renewing rec (renewing mem)⟩

theorem written (absent : Absent gone s) {rec : LeaseRecord} (stays : ¬ gone rec.id)
    (records : t.records = s.records.insert rec.id rec)
    (renewing : t.reads ++ t.renewals ⊆ s.reads ++ s.renewals) : Absent gone t := by
  refine ⟨?_, fun other mem => absent.renewing other (renewing mem)⟩
  intro id cur found
  rw [records, SortedMap.get_insert] at found
  split_ifs at found with same
  · cases found
    exact ⟨same.symm, same ▸ stays⟩
  · exact absent.stored id cur found

theorem step (absent : Absent gone s) (ungranted : ∀ rec, a = .grant rec → ¬ gone rec.id)
    (stepped : leaseStep s a = some t) : Absent gone t := by
  revert stepped
  fun_cases leaseStep s a <;> intro stepped <;> try cases stepped
  case case2 rec _ => exact absent.written (ungranted rec rfl) rfl (List.Subset.refl _)
  case case6 id rec found _ =>
    obtain ⟨isId, stays⟩ := absent.stored id rec found
    exact ⟨absent.stored, forall_mem_cons.mpr ⟨isId ▸ stays, absent.renewing⟩⟩
  case case8 rec isRead =>
    refine ⟨absent.stored, ?_⟩
    intro other mem
    rcases mem_append.mp mem with read | renewal
    · exact absent.renewing other (mem_append_left _ (mem_of_mem_erase read))
    · rcases mem_cons.mp renewal with rfl | old
      · exact absent.renewing rec (mem_append_left _ isRead)
      · exact absent.renewing other (mem_append_right _ old)
  case case10 rec isRenewal =>
    refine absent.written (absent.renewing rec (mem_append_right _ isRenewal)) rfl ?_
    exact append_subset.mpr ⟨subset_append_left _ _,
      List.Subset.trans erase_subset (subset_append_right _ _)⟩
  case case12 id keys =>
    refine absent.mono ?_ (List.Subset.refl _)
    intro j rec found
    simp only [LeaseState.revoke, SortedMap.get_erase] at found
    split_ifs at found
    exact found
  case case1 | case4 => exact absent.mono (fun _ _ found => found) (List.Subset.refl _)
  all_goals
    obtain ⟨records, reads, renewals⟩ := loopStep_frame stepped
    refine absent.mono records ?_
    rw [reads, renewals]
    exact List.Subset.refl _

end Absent

/-- The transaction of a revocation deletes the record and nothing else of the leases. -/
theorem revokes_spec (revoked : revokes s a = some id) (stepped : leaseStep s a = some t) :
    t.records = s.records.erase id ∧ t.reads = s.reads ∧ t.renewals = s.renewals := by
  unfold revokes at revoked
  split at revoked
  · cases revoked
    cases stepped
    exact ⟨rfl, rfl, rfl⟩
  · rename_i n
    split at revoked
    · rename_i now _ keys rest current
      cases revoked
      simp only [leaseStep, current, LeaseState.loopStep, Option.some.injEq] at stepped
      cases stepped
      exact ⟨rfl, rfl, rfl⟩
    · cases revoked
  · cases revoked

/-- **A revoked lease stays revoked** until it is granted again, whatever happens later,
exactly if no keep-alive of it is between its read and its put when the revocation commits. -/
theorem stays_revoked_iff {start next : LeaseState} {past : List LeaseAction}
    (init : leaseSystem.init start) (ran : leaseSystem.run start past = some s)
    (revoked : revokes s a = some id) (stepped : leaseSystem.step s a = some next) :
    (∀ later t, leaseSystem.run next later = some t →
      (∀ rec, .grant rec ∈ later → rec.id ≠ id) → t.records.get id = none) ↔
    ∀ rec ∈ s.reads ++ s.renewals, rec.id ≠ id := by
  obtain ⟨records, reads, renewals⟩ := revokes_spec revoked stepped
  constructor
  · intro stays rec mem isId
    rw [← reads, ← renewals] at mem
    subst isId
    -- the keep-alive goes on and writes its record
    rcases mem_append.mp mem with read | renewal
    · have comesBack := stays [.keepAliveRenew rec, .keepAliveCommit (rec.renewed next.clock)]
      simp only [System.run, leaseSystem, leaseStep, if_pos read, mem_cons, true_or, if_true,
        Option.some.injEq, forall_eq', SortedMap.get_insert, LeaseRecord.renewed] at comesBack
      cases comesBack (by simp)
    · have comesBack := stays [.keepAliveCommit rec]
      simp only [System.run, leaseSystem, leaseStep, if_pos renewal, Option.some.injEq,
        forall_eq', SortedMap.get_insert, if_true] at comesBack
      cases comesBack (by simp)
  · intro apart later t ranLater ungranted
    have keyed : Absent (fun _ => False) s := by
      refine System.run_invariant (P := fun _ _ => True) ?_ ?_ (System.Meets.true start past) ran
      · intro s a next absent _ stepped
        exact absent.step (fun _ _ => not_false) stepped
      · obtain ⟨servers, rfl⟩ := init
        exact ⟨by rintro _ _ ⟨⟩, by rintro _ ⟨⟩⟩
    have gone : Absent (· = id) next := by
      refine ⟨?_, ?_⟩
      · intro j rec found
        rw [records, SortedMap.get_erase] at found
        split_ifs at found with other
        exact ⟨(keyed.stored j rec found).1, other⟩
      · rw [reads, renewals]
        exact apart
    have after : Absent (· = id) t := by
      refine System.run_invariant (P := fun _ a => ∀ rec, a = .grant rec → rec.id ≠ id) ?_ gone
        (System.Meets.of_forall ?_ next) ranLater
      · intro s a next absent ungranted stepped
        exact absent.step ungranted stepped
      · rintro a mem _ rec rfl
        exact ungranted rec mem
    cases found : t.records.get id with
    | none => rfl
    | some rec => exact absurd rfl (after.stored id rec found).2

theorem stays_revoked_sample : ∃ s next,
    leaseSystem.run oneServer [.grant sampleLease] = some s ∧
    leaseSystem.step s (.leaseRevoke 7 []) = some next ∧
    ∀ later t, leaseSystem.run next later = some t →
      (∀ rec, .grant rec ∈ later → rec.id ≠ 7) → t.records.get 7 = none := by
  obtain ⟨s, ran, idle⟩ := leaseSystem.exists_of_run oneServer [.grant sampleLease]
    (fun s => s.reads ++ s.renewals = []) (by decide +kernel)
  refine ⟨s, s.revoke 7 [], ran, rfl, ?_⟩
  refine (stays_revoked_iff (a := .leaseRevoke 7 []) ⟨1, rfl⟩ ran rfl rfl).mpr ?_
  rw [idle]
  exact fun _ mem => nomatch mem

/-- A lease that is revoked while a keep-alive has read it and has not put it back. -/
def revokedMeanwhile : List LeaseAction :=
  [.grant sampleLease, .keepAliveRead 7, .leaseRevoke 7 [], .keepAliveRenew sampleLease,
    .keepAliveCommit (sampleLease.renewed 0)]

theorem revoked_comes_back :
    (leaseSystem.run oneServer (revokedMeanwhile.take 3)).any
      (fun s => s.records.get 7 = none) = true ∧
    (leaseSystem.run oneServer revokedMeanwhile).any
      (fun s => s.records.get 7 = some sampleLease) = true := by
  decide +kernel

/-! ## The keys of a revoked lease -/

/-- The user keys of the store while calls of `revokeLease` are under way. -/
structure UserKeys where
  /-- The live keys with their lease, 0 for none. -/
  leases : SortedMap Bytes Int := SortedMap.empty
  /-- Calls that have listed the keys of a lease: its ID and the keys. -/
  revocations : List (Int × List Bytes) := []
  deriving DecidableEq

inductive UserAction
  /-- A put, a delete or a transaction commits with these effects. -/
  | write (batch : List (SortedMap.Write Bytes Int))
  /-- `collectLeaseKeys` -/
  | collect (id : Int)
  /-- The transaction of `revokeLease` commits or fails. -/
  | revoke (revocation : Int × List Bytes) (ok : Bool)
  deriving DecidableEq

def userStep (s : UserKeys) : UserAction → Option UserKeys
  | .write batch => some { s with leases := s.leases.commit batch }
  | .collect id =>
    some { s with revocations := (id, collectLeaseKeys s.leases id) :: s.revocations }
  | .revoke r ok =>
    if r ∈ s.revocations then some {
      leases := if ok then s.leases.commit (r.2.map .delete) else s.leases
      revocations := s.revocations.erase r }
    else none

def userSystem : System UserKeys UserAction where
  init s := ∃ leases, s = { leases }
  step := userStep

/-- The revocation deletes no key that is attached to another lease, or to none. -/
def DeletesAttached (s : UserKeys) (r : Int × List Bytes) : Prop :=
  ∀ key ∈ r.2, ∀ lease, s.leases.get key = some lease → lease = r.1

/-- No key that a revocation under way has listed is put with another lease. -/
def LeavesListed (s : UserKeys) : UserAction → Prop
  | .write batch => ∀ r ∈ s.revocations, ∀ key ∈ r.2, ∀ lease, .set key lease ∈ batch → lease = r.1
  | _ => True

theorem deletesAttached_step {s t : UserKeys} {a : UserAction}
    (attached : ∀ r ∈ s.revocations, DeletesAttached s r) (leaves : LeavesListed s a)
    (stepped : userStep s a = some t) : ∀ r ∈ t.revocations, DeletesAttached t r := by
  cases a with
  | write batch =>
    cases stepped
    intro r mem key listed lease found
    rcases s.leases.get_commit_source found with before | put
    · exact attached r mem key listed lease before
    · exact leaves r mem key listed lease put
  | collect id =>
    cases stepped
    intro r mem key listed lease found
    rcases mem_cons.mp mem with rfl | old
    · obtain ⟨⟨_, held⟩, isEntry, rfl⟩ := mem_map.mp listed
      obtain ⟨inStore, isLease⟩ := mem_filter.mp isEntry
      cases (SortedMap.mem_entries_iff.mp inStore).symm.trans found
      exact of_decide_eq_true isLease
    · exact attached r old key listed lease found
  | revoke r ok =>
    simp only [userStep, Option.ite_none_right_eq_some, Option.some.injEq] at stepped
    obtain ⟨-, rfl⟩ := stepped
    intro other mem key listed lease found
    refine attached other (mem_of_mem_erase mem) key listed lease ?_
    cases ok with
    | false => exact found
    | true =>
      simp only [if_true, SortedMap.get_commit_deletes] at found
      split_ifs at found
      exact found

/-- **A revocation deletes only attached keys** in every run in which no key that it has listed
is put with another lease before its transaction. -/
theorem revocation_deletes_attached {start s t : UserKeys} {actions : List UserAction}
    {r : Int × List Bytes} (init : userSystem.init start)
    (meets : userSystem.Meets LeavesListed start actions)
    (ran : userSystem.run start actions = some s)
    (stepped : userSystem.step s (.revoke r true) = some t) :
    ∀ key lease, s.leases.get key = some lease → t.leases.get key = none → lease = r.1 := by
  have attached : ∀ r ∈ s.revocations, DeletesAttached s r := by
    refine System.run_invariant (I := fun s => ∀ r ∈ s.revocations, DeletesAttached s r) ?_ ?_
      meets ran
    · intro s a next attached leaves stepped
      exact deletesAttached_step attached leaves stepped
    · obtain ⟨leases, rfl⟩ := init
      exact fun _ mem => nomatch mem
  simp only [userSystem, userStep, Option.ite_none_right_eq_some, Option.some.injEq] at stepped
  obtain ⟨underWay, rfl⟩ := stepped
  intro key lease found deleted
  simp only [if_true, SortedMap.get_commit_deletes] at deleted
  split_ifs at deleted with listed
  · exact attached r underWay key listed lease found
  · exact nomatch found.symm.trans deleted

theorem revocation_deletes_attached_sample : ∃ s t,
    userSystem.run {} [.write [.set [1] 7, .set [2] 8], .collect 7, .write [.delete [2]]] = some s ∧
    userSystem.step s (.revoke (7, [[1]]) true) = some t ∧ t.leases.get [1] = none ∧
    ∀ key lease, s.leases.get key = some lease → t.leases.get key = none → lease = 7 := by
  obtain ⟨s, ran, underWay⟩ := userSystem.exists_of_run {}
    [.write [.set [1] 7, .set [2] 8], .collect 7, .write [.delete [2]]]
    (fun s => (7, [[1]]) ∈ s.revocations) (by decide +kernel)
  refine ⟨s, _, ran, if_pos underWay, ?_, ?_⟩
  · exact (s.leases.get_commit_deletes [[1]] [1]).trans (if_pos mem_cons_self)
  · refine revocation_deletes_attached ⟨_, rfl⟩ ?_ ran (if_pos underWay)
    simp [System.Meets, LeavesListed, userSystem, userStep]

/-- A key that is put without a lease after it was listed is deleted with its new value. -/
theorem revocation_deletes_detached :
    (userSystem.run {} [.write [.set [1] 7], .collect 7, .write [.set [1] 0]]).any
      (fun s => s.leases.get [1] = some 0 ∧
        (userStep s (.revoke (7, [[1]]) true)).any (fun t => t.leases.get [1] = none) = true) =
      true := by
  decide +kernel

end T4.Etcd
