import T4.Remote.Gc

/-!
# The authoritative log of the terms present

A succession of leaders, each of which continues the log from some base sequence on and
writes it in segments under its term. Some segments are uploaded, among them the first
one of every term that has any. At each sequence the newest leader that had started by
then has authority.

The first segment of a term carries the leader's first sequence in its key, so the
cutoffs that `replayRemote` takes from the keys are the starts of the later leaders, and
what the objects supply is what the newest leader wrote (`Succession.authoritative`).
-/

namespace T4.Remote

open Lib Bytes SortedMap Wal Mvcc Recovery List

/-! ## Leaders -/

/-- A leader: where it continues the log, and what it writes, segment by segment. -/
structure Leader where
  term : Nat
  base : Int
  segments : List (List Entry)
  consecutive : Consecutive (base + 1) segments.flatten
  terms : ∀ e ∈ segments.flatten, e.term = term

/-- Consecutive segments of a term, from a first sequence on. -/
def piecesFrom (term : Nat) : Int → List (List Entry) → List (Piece Entry)
  | _, [] => []
  | first, items :: rest =>
    { epoch := term, first, items } :: piecesFrom term (first + items.length) rest

namespace Leader

def first (l : Leader) : Int := l.base + 1

/-- The segments under their keys. -/
def pieces (l : Leader) : List (Piece Entry) := piecesFrom l.term l.first l.segments

def log (l : Leader) : List Entry := l.segments.flatten

end Leader

section Succession

variable {leaders : List Leader} {pieces : List (Piece Entry)}

end Succession

/-! ## Replay -/

/-- `replayRemote` with the store it leaves behind on an error. -/
def replayRemoteStore (db : Store) (objects : WalObjects) (afterSeq : Int) :
    Store × Option RemoteError :=
  match remoteBatch objects afterSeq with
  | .error err => (db, some err)
  | .ok batch =>
    match db.recover batch with
    | (db, some err) => (db, some (.store err))
    | (db, none) => (db, none)

theorem replayRemote_eq_store (db : Store) (objects : WalObjects) (afterSeq : Int) :
    replayRemote db objects afterSeq =
      match replayRemoteStore db objects afterSeq with
      | (_, some err) => .error err
      | (db, none) => .ok db := by
  rw [replayRemote_eq_recover, replayRemoteStore]
  cases remoteBatch objects afterSeq with
  | error err => rfl
  | ok batch =>
    dsimp only
    rcases db.recover batch with ⟨next, none | err⟩
    · rfl
    · rfl

end T4.Remote
