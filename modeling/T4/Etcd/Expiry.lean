import T4.Lib.SortedMap
import T4.Lib.System
import T4.Lib.Bytes

/-!
# Expiry and renewal of leases

`etcd/lease.go` and `etcd/lease_state.go`: lease records are keys of the store, and every
access to them is an operation of the node of its own. `LeaseKeepAlive` reads a record,
computes its new expiry and puts it back. `leaseLoop` lists the records, takes the time, and
revokes one after the other those that had expired at that time: `revokeLease` lists the keys
that are attached to the lease and deletes them and the record in one transaction, without a
look at the record.

`LoopSafe` says what a tick may rely on between its listing and its transactions; it survives
every step except a write of a record that the tick is going to revoke.
-/

namespace T4.Etcd

open Lib Bytes List

structure LeaseRecord where
  id : Int
  grantedTTL : Int
  expiryUnixNs : Int
  deriving DecidableEq

def second : Int := 1000000000

def ttlRemaining (rec : LeaseRecord) (now : Int) : Int :=
  let remaining := rec.expiryUnixNs - now
  if remaining ≤ 0 then 0 else max 1 ((remaining + (second - 1)) / second)

theorem ttlRemaining_eq_zero_iff (rec : LeaseRecord) (now : Int) :
    ttlRemaining rec now = 0 ↔ rec.expiryUnixNs ≤ now := by
  unfold ttlRemaining
  dsimp only
  split <;> omega

/-- The record with the expiry that a grant or a renewal at `now` gives it. -/
def LeaseRecord.renewed (rec : LeaseRecord) (now : Int) : LeaseRecord :=
  { rec with expiryUnixNs := wrap (now + wrap (rec.grantedTTL * second)) }

inductive LoopPhase
  | idle
  | listed (leases : List LeaseRecord)
  /-- The time was taken; these leases are to be revoked. -/
  | evaluated (now : Int) (expired : List Int)
  /-- `revokeLease` has listed the keys of a lease. -/
  | collected (now : Int) (id : Int) (keys : List Bytes) (rest : List Int)
  deriving DecidableEq

/-- The leases that the tick may still revoke. -/
def LoopPhase.ids : LoopPhase → List Int
  | .idle => []
  | .listed leases => leases.map LeaseRecord.id
  | .evaluated _ expired => expired
  | .collected _ id _ rest => id :: rest

structure LeaseState where
  /-- The wall clock. -/
  clock : Int := 0
  records : SortedMap Int LeaseRecord := SortedMap.empty
  /-- User keys with the lease they are attached to. -/
  attached : SortedMap Bytes Int := SortedMap.empty
  /-- Records that a keep-alive has read. -/
  reads : List LeaseRecord := []
  /-- Renewed records that are not committed yet. -/
  renewals : List LeaseRecord := []
  /-- The lease loops of the servers. -/
  loops : List LoopPhase := []
  deriving DecidableEq

inductive LeaseAction
  | tell (now : Int)
  /-- The create of `LeaseGrant` commits. -/
  | grant (rec : LeaseRecord)
  /-- A put with a lease commits. -/
  | attach (key : Bytes) (lease : Int)
  /-- `LeaseKeepAlive`: `getLease`, the new expiry, and the put of `putLease`. -/
  | keepAliveRead (id : Int)
  | keepAliveRenew (rec : LeaseRecord)
  | keepAliveCommit (rec : LeaseRecord)
  /-- The transaction of a `LeaseRevoke` commits. -/
  | leaseRevoke (id : Int) (keys : List Bytes)
  /-- `leaseLoop`: `listLeases`, the time, and for each expired lease the two operations of
  `revokeLease`, which may also fail. -/
  | tickList (n : Nat)
  | tickNow (n : Nat)
  | revokeList (n : Nat)
  | revokeCommit (n : Nat)
  | revokeFail (n : Nat)
  | tickEnd (n : Nat)
  deriving DecidableEq

/-- The keys that are attached to a lease. -/
def collectLeaseKeys (attached : SortedMap Bytes Int) (id : Int) : List Bytes :=
  (attached.entries.filter (fun e => e.2 = id)).map Prod.fst

namespace LeaseState

def setLoop (s : LeaseState) (n : Nat) (phase : LoopPhase) : LeaseState :=
  { s with loops := s.loops.set n phase }

/-- The effect of the transaction of `revokeLease`. -/
def revoke (s : LeaseState) (id : Int) (keys : List Bytes) : LeaseState :=
  { s with records := s.records.erase id, attached := s.attached.eraseMany keys }

/-- The step of the lease loop in `phase`. -/
def loopStep (s : LeaseState) (n : Nat) (phase : LoopPhase) : LeaseAction → Option LeaseState
  | .tickList _ =>
    match phase with
    | .idle => some (s.setLoop n (.listed (s.records.entries.map Prod.snd)))
    | _ => none
  | .tickNow _ =>
    match phase with
    | .listed leases =>
      let expired := leases.filter (fun rec => ttlRemaining rec s.clock = 0)
      some (s.setLoop n (.evaluated s.clock (expired.map LeaseRecord.id)))
    | _ => none
  | .revokeList _ =>
    match phase with
    | .evaluated now (id :: rest) =>
      some (s.setLoop n (.collected now id (collectLeaseKeys s.attached id) rest))
    | _ => none
  | .revokeCommit _ =>
    match phase with
    | .collected now id keys rest => some ((s.revoke id keys).setLoop n (.evaluated now rest))
    | _ => none
  | .revokeFail _ =>
    match phase with
    | .evaluated now (_ :: rest) => some (s.setLoop n (.evaluated now rest))
    | .collected now _ _ rest => some (s.setLoop n (.evaluated now rest))
    | _ => none
  | .tickEnd _ =>
    match phase with
    | .evaluated _ [] => some (s.setLoop n .idle)
    | _ => none
  | _ => none

end LeaseState

def leaseStep (s : LeaseState) (a : LeaseAction) : Option LeaseState :=
  match a with
  | .tell now => some { s with clock := now }
  | .grant rec =>
    if s.records.get rec.id = none then some { s with records := s.records.insert rec.id rec }
    else none
  | .attach key lease => some { s with attached := s.attached.insert key lease }
  | .keepAliveRead id =>
    match s.records.get id with
    | none => none
    | some rec =>
      if s.clock < rec.expiryUnixNs then some { s with reads := rec :: s.reads } else none
  | .keepAliveRenew rec =>
    if rec ∈ s.reads then some { s with
      reads := s.reads.erase rec
      renewals := rec.renewed s.clock :: s.renewals }
    else none
  | .keepAliveCommit rec =>
    if rec ∈ s.renewals then some { s with
      records := s.records.insert rec.id rec
      renewals := s.renewals.erase rec }
    else none
  | .leaseRevoke id keys => some (s.revoke id keys)
  | .tickList n | .tickNow n | .revokeList n | .revokeCommit n | .revokeFail n | .tickEnd n =>
    match s.loops[n]? with
    | none => none
    | some phase => s.loopStep n phase a

def leaseSystem : System LeaseState LeaseAction where
  init s := ∃ servers, s = { loops := List.replicate servers .idle }
  step := leaseStep

/-- A lease loop commits only deletes of leases that had expired when its tick took the
time. -/
def SparesRenewed (s : LeaseState) (a : LeaseAction) : Prop :=
  ∀ n now id keys rest rec, a = .revokeCommit n → s.loops[n]? = some (.collected now id keys rest) →
    s.records.get id = some rec → rec.expiryUnixNs ≤ now

/-- No lease record is written while a tick is under way that may revoke the lease. -/
def WrittenApart (s : LeaseState) : LeaseAction → Prop
  | .grant rec | .keepAliveCommit rec => ∀ phase ∈ s.loops, rec.id ∉ phase.ids
  | _ => True

instance (s : LeaseState) (a : LeaseAction) : Decidable (WrittenApart s a) := by
  unfold WrittenApart
  split <;> infer_instance

/-! ## What a tick relies on -/

/-- Since the listing, a record that is still there is the one that was listed; since the time
was taken, it is one that had expired. -/
def LoopSafe (records : SortedMap Int LeaseRecord) : LoopPhase → Prop
  | .idle => True
  | .listed leases => ∀ rec ∈ leases, ∀ cur, records.get rec.id = some cur → cur = rec
  | .evaluated now expired =>
    ∀ id ∈ expired, ∀ cur, records.get id = some cur → cur.expiryUnixNs ≤ now
  | .collected now id _ rest =>
    ∀ j ∈ id :: rest, ∀ cur, records.get j = some cur → cur.expiryUnixNs ≤ now

structure LeaseInv (s : LeaseState) : Prop where
  /-- A record is stored under its own ID. -/
  keyed : ∀ id rec, s.records.get id = some rec → rec.id = id
  safe : ∀ phase ∈ s.loops, LoopSafe s.records phase

variable {s t : LeaseState} {a : LeaseAction}

variable {phase : LoopPhase}

theorem LoopSafe.mono {records records' : SortedMap Int LeaseRecord} (safe : LoopSafe records phase)
    (fewer : ∀ id ∈ phase.ids, ∀ cur, records'.get id = some cur → records.get id = some cur) :
    LoopSafe records' phase := by
  cases phase with
  | idle => trivial
  | listed leases =>
    intro rec mem cur found
    exact safe rec mem cur (fewer rec.id (mem_map_of_mem mem) cur found)
  | evaluated now expired =>
    intro id mem cur found
    exact safe id mem cur (fewer id mem cur found)
  | collected now id keys rest =>
    intro j mem cur found
    exact safe j mem cur (fewer j mem cur found)

theorem LeaseInv.written (inv : LeaseInv s) {rec : LeaseRecord}
    (apart : ∀ phase ∈ s.loops, rec.id ∉ phase.ids)
    (records : t.records = s.records.insert rec.id rec) (loops : t.loops = s.loops) :
    LeaseInv t := by
  constructor
  · intro id cur found
    rw [records, SortedMap.get_insert] at found
    split_ifs at found with same
    · cases found
      exact same.symm
    · exact inv.keyed id cur found
  · intro phase mem
    rw [loops] at mem
    refine (inv.safe phase mem).mono (fun id isId cur found => ?_)
    have other : id ≠ rec.id := by
      rintro rfl
      exact apart phase mem isId
    rwa [records, SortedMap.get_insert, if_neg other] at found

theorem LeaseInv.revoke (inv : LeaseInv s) (id : Int) (keys : List Bytes) :
    LeaseInv (s.revoke id keys) := by
  have fewer : ∀ j cur, (s.revoke id keys).records.get j = some cur →
      s.records.get j = some cur := by
    intro j cur found
    simp only [LeaseState.revoke] at found
    rw [SortedMap.get_erase] at found
    split_ifs at found
    exact found
  constructor
  · intro j cur found
    exact inv.keyed j cur (fewer j cur found)
  · intro phase mem
    exact (inv.safe phase mem).mono (fun j _ cur => fewer j cur)

theorem LeaseInv.setLoop (inv : LeaseInv s) (n : Nat) (safe : LoopSafe s.records phase) :
    LeaseInv (s.setLoop n phase) := by
  refine ⟨inv.keyed, ?_⟩
  intro other mem
  rcases mem_or_eq_of_mem_set mem with old | rfl
  · exact inv.safe other old
  · exact safe

theorem LeaseInv.loopStep (inv : LeaseInv s) {n : Nat} (current : s.loops[n]? = some phase)
    (stepped : s.loopStep n phase a = some t) : LeaseInv t := by
  have safe := inv.safe phase (mem_of_getElem? current)
  revert stepped
  fun_cases s.loopStep n phase a <;> rintro ⟨⟩
  case case1 =>
    refine inv.setLoop n ?_
    intro rec mem cur found
    obtain ⟨⟨id, stored⟩, isEntry, rfl⟩ := mem_map.mp mem
    have here := SortedMap.mem_entries_iff.mp isEntry
    rw [inv.keyed id stored here, here] at found
    exact (Option.some.inj found).symm
  case case3 =>
    -- The time is taken.
    refine inv.setLoop n ?_
    intro id mem cur found
    obtain ⟨rec, kept, rfl⟩ := mem_map.mp mem
    obtain ⟨listed, expired⟩ := mem_filter.mp kept
    rw [safe rec listed cur found]
    exact (ttlRemaining_eq_zero_iff rec s.clock).mp (of_decide_eq_true expired)
  case case5 => exact inv.setLoop n safe
  case case7 now id keys rest =>
    -- The transaction.
    have after := inv.revoke id keys
    refine after.setLoop n ?_
    have mem := mem_of_getElem? current
    have kept := after.safe _ (show LoopPhase.collected now id keys rest ∈
      (s.revoke id keys).loops from mem)
    intro j isRest
    exact kept j (mem_cons_of_mem id isRest)
  case case9 => exact inv.setLoop n (fun j isRest => safe j (mem_cons_of_mem _ isRest))
  case case10 => exact inv.setLoop n (fun j isRest => safe j (mem_cons_of_mem _ isRest))
  case case12 => exact inv.setLoop n trivial

theorem LeaseInv.step (inv : LeaseInv s) (apart : WrittenApart s a)
    (stepped : leaseStep s a = some t) : LeaseInv t := by
  revert stepped
  fun_cases leaseStep s a <;> intro stepped <;> try cases stepped
  case case1 => exact ⟨inv.keyed, inv.safe⟩
  case case2 => exact inv.written apart rfl rfl
  case case4 => exact ⟨inv.keyed, inv.safe⟩
  case case6 => exact ⟨inv.keyed, inv.safe⟩
  case case8 => exact ⟨inv.keyed, inv.safe⟩
  case case10 => exact inv.written apart rfl rfl
  case case12 => exact inv.revoke _ _
  all_goals exact inv.loopStep ‹_› stepped

/-- **Expiry spares renewed leases** in every run in which no lease record is written while a
tick is under way that may revoke the lease. -/
theorem expiry_spares_renewed {start s : LeaseState} {actions : List LeaseAction}
    (init : leaseSystem.init start) (meets : leaseSystem.Meets WrittenApart start actions)
    (ran : leaseSystem.run start actions = some s) (a : LeaseAction) : SparesRenewed s a := by
  have inv : LeaseInv s := by
    refine System.run_invariant ?_ ?_ meets ran
    · intro s a next inv apart stepped
      exact inv.step apart stepped
    · obtain ⟨servers, rfl⟩ := init
      refine ⟨nofun, ?_⟩
      intro phase mem
      rw [eq_of_mem_replicate mem]
      trivial
  rintro n now id keys rest rec rfl current found
  exact inv.safe _ (mem_of_getElem? current) id mem_cons_self rec found

def oneServer : LeaseState := { loops := [.idle] }

def sampleLease : LeaseRecord := ⟨7, 1, second⟩

theorem expiry_spares_renewed_sample : ∃ s,
    leaseSystem.run oneServer [.grant sampleLease, .attach [1] 7, .tell second, .tickList 0,
      .tickNow 0, .revokeList 0] = some s ∧
    s.loops[0]? = some (.collected second 7 [[1]] []) ∧
    ∀ rec, s.records.get 7 = some rec → rec.expiryUnixNs ≤ second := by
  refine System.exists_run_and (by decide +kernel) ?_
  intro s ran collected rec found
  exact expiry_spares_renewed ⟨1, rfl⟩ (by decide +kernel) ran (.revokeCommit 0) 0 second 7 [[1]] []
    rec rfl collected found

/-- A lease that is renewed between the listing and the time that the tick takes: the renewal
is committed and answered before the first expiry, and the lease is revoked nevertheless. -/
def renewedInTime : List LeaseAction :=
  [.grant sampleLease, .attach [1] 7, .tell 900000000, .tickList 0, .keepAliveRead 7,
    .keepAliveRenew sampleLease, .keepAliveCommit (sampleLease.renewed 900000000), .tell second,
    .tickNow 0, .revokeList 0]

theorem expiry_deletes_renewed : ∃ s t,
    leaseSystem.run oneServer renewedInTime = some s ∧
    s.loops[0]? = some (.collected second 7 [[1]] []) ∧
    s.records.get 7 = some ⟨7, 1, 1900000000⟩ ∧
    leaseSystem.step s (.revokeCommit 0) = some t ∧ t.records.get 7 = none ∧
    t.attached.get [1] = none := by
  obtain ⟨s, ran, collected, stored, revoked⟩ := leaseSystem.exists_of_run oneServer renewedInTime
    (fun s => s.loops[0]? = some (.collected second 7 [[1]] []) ∧
      s.records.get 7 = some ⟨7, 1, 1900000000⟩ ∧
      (leaseStep s (.revokeCommit 0)).any
        (fun t => t.records.get 7 = none ∧ t.attached.get [1] = none) = true) (by decide +kernel)
  obtain ⟨t, stepped, gone⟩ := (Option.any_eq_true _ _).mp revoked
  obtain ⟨record, key⟩ := of_decide_eq_true gone
  exact ⟨s, t, ran, collected, stored, stepped, record, key⟩

end T4.Etcd
