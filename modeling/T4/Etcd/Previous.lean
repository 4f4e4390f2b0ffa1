import T4.Etcd.RangeSpec
import T4.Etcd.Revocation
import T4.WritePath.Spec

/-!
# Previous values

Put and DeleteRange read what they replace in a call to the node of its own, before the call
that writes. Each call is one step of the leader, and requests of other clients come between
them: a run of a handler is told with the map before and after each of its calls, and nothing
relates the map after one call to the map before the next.
-/

namespace T4.Etcd

open Lib Prog Mvcc WritePath List

/-- A call to a leader with the content `m` as one step. Reads at the head are specified; a
write that fails may leave anything. -/
def Atomic (m : KVMap) : (q : NodeCall) → q.Answer → KVMap → Prop
  | .get _ key revision, a, m' =>
    m' = m ∧ (revision = 0 → ∀ kv, a = .ok kv → kv = m.value key)
  | .list _ pfx limit revision, a, m' =>
    m' = m ∧ (limit = 0 → revision = 0 → ∀ kvs, a = .ok kvs →
      (kvs.map KeyValue.key).Nodup ∧
      ∀ k kv, kv ∈ kvs ∧ kv.key = k ↔ m.value k = some kv ∧ pfx <+: k)
  | .put key value lease, a, m' =>
    ∀ rev, a = .ok rev → m.exec (.put key value lease) = (m', .revision rev)
  | .delete key, a, m' => ∀ rev, a = .ok rev →
    m' = (m.exec (.delete key)).1 ∧ (Result.revision rev).Shows (m.exec (.delete key)).2
  | .txn req, a, m' => ∀ resp, a = .ok resp → m' = (m.exec (.txn req)).1 ∧
    (Result.txn resp.succeeded resp.revision resp.deletedKeys).Shows (m.exec (.txn req)).2
  | .compactRevision, _, m' | .currentRevision, _, m' | .exists .., _, m' | .count .., _, m'
  | .lease _, _, m' => m' = m

section Listed

variable {h : List Wal.Entry} {t : Int} {pfx k : Bytes}

end Listed

/-- The lease check of Put, in a world that has the leases of a server. -/
theorem eval_getLease {w : World} {s : LeaseState}
    (leases : ∀ id, w.leases id = (s.getLease id).isSome) (id : Int) :
    (Prog.eval w.serve (getLease id)).1 = .ok () ↔ (s.getLease id).isSome := by
  unfold getLease
  split
  · rename_i low
    simp [LeaseState.getLease, low, Prog.eval]
  · have asked : Prog.eval w.serve (orFail .node (w.serve (.lease id)).1) =
        (.ok (w.leases id), []) := rfl
    rw [Prog.eval_ask_bind, Prog.eval_bind asked, ← leases id]
    cases w.leases id with
    | true => exact ⟨fun _ => rfl, fun _ => rfl⟩
    | false => simp [Prog.eval]

/-- The map before and after a call. -/
def Steps (q : NodeCall) (a : q.Answer) (w : List (KVMap × KVMap)) : Prop :=
  ∃ m m', w = [(m, m')] ∧ Atomic m q a m'

variable {α : Type} {trace : List (KVMap × KVMap)}

end T4.Etcd
