import Mathlib.Algebra.Order.Group.Int
import Mathlib.Tactic.Common

/-!
# Locking out a username

`etcd/auth/ratelimit.go` and `Store.CheckPassword`. The limiter keeps one counter and one
start time for a username and resets both together, so five failures within the failure
window lock the username out exactly when the first of them starts a window. The map is
modelled at one username; an instant is an integer number of nanoseconds.
-/

namespace T4.Etcd

open List

def maxFailures : Nat := 5

def failureWindow : Int := 5 * 60 * 10 ^ 9

def lockoutDuration : Int := 15 * 60 * 10 ^ 9

structure AuthAttempt where
  failures : Nat
  firstFail : Int
  /-- None is the zero time. -/
  lockedUntil : Option Int := none
  deriving DecidableEq

/-- What the limiter keeps for the username. -/
abbrev Record := Option AuthAttempt

/-- `IsLocked`: the answer, and the record without a lockout that has expired. -/
def isLocked (r : Record) (now : Int) : Bool × Record :=
  match r with
  | none => (false, none)
  | some a =>
    match a.lockedUntil with
    | none => (false, some a)
    | some lockedUntil => if now < lockedUntil then (true, some a) else (false, none)

def recordFailure (r : Record) (now : Int) : Record :=
  match r with
  | none => some { failures := 1, firstFail := now }
  | some a =>
    if now - a.firstFail > failureWindow then some { failures := 1, firstFail := now }
    else if a.failures + 1 ≥ maxFailures then
      some { a with failures := a.failures + 1, lockedUntil := some (now + lockoutDuration) }
    else some { a with failures := a.failures + 1 }

/-- A call of `CheckPassword`: when it asks the limiter, when it records what it found, and
whether the password is that of a user. -/
structure Attempt where
  asked : Int
  recorded : Int
  accepted : Bool := false
  deriving DecidableEq

inductive Verdict
  | locked
  | failed
  | passed
  deriving DecidableEq

def checkPassword (r : Record) (a : Attempt) : Verdict × Record :=
  match isLocked r a.asked with
  | (true, r) => (.locked, r)
  | (false, r) => if a.accepted then (.passed, none) else (.failed, recordFailure r a.recorded)

def checkAll (r : Record) (attempts : List Attempt) : Record :=
  attempts.foldl (fun r a => (checkPassword r a).2) r

/-- The instants of the failures that the attempts record, unless they record a success. -/
def failures (r : Record) : List Attempt → Option (List Int)
  | [] => some []
  | a :: rest =>
    match checkPassword r a with
    | (.locked, r) => failures r rest
    | (.failed, r) => (failures r rest).map (a.recorded :: ·)
    | (.passed, _) => none

/-- The attempts are made one after the other. -/
def Ordered (attempts : List Attempt) : Prop :=
  (∀ a ∈ attempts, a.asked ≤ a.recorded) ∧ attempts.Pairwise (fun a b => a.recorded ≤ b.asked)

instance (attempts : List Attempt) : Decidable (Ordered attempts) :=
  inferInstanceAs (Decidable (_ ∧ _))

/-! ## One attempt -/

variable {r r' : Record} {attempts : List Attempt} {times : List Int} {first : Int}

theorem of_locked {a : Attempt} (locked : checkPassword r a = (.locked, r')) : r' = r := by
  unfold checkPassword isLocked at locked
  grind

/-- A failure when no lockout holds; one that has expired is forgotten. -/
def failAt (r : Record) (now : Int) : Record :=
  recordFailure (r.filter (·.lockedUntil = none)) now

theorem failAt_of_unlocked {s : AuthAttempt} (unlocked : s.lockedUntil = none) (now : Int) :
    failAt (some s) now = recordFailure (some s) now := by
  simp [failAt, Option.filter, unlocked]

theorem of_failed {a : Attempt} (failed : checkPassword r a = (.failed, r')) :
    (∀ s ∈ r, ∀ u ∈ s.lockedUntil, u ≤ a.asked) ∧ r' = failAt r a.recorded := by
  unfold checkPassword isLocked at failed
  grind [failAt]

/-- A record that the limiter can hold. -/
def Counted (r : Record) : Prop :=
  ∀ a ∈ r, 1 ≤ a.failures ∧ (a.lockedUntil = none → a.failures < maxFailures)

theorem Counted.checkPassword (counted : Counted r) (a : Attempt) :
    Counted (checkPassword r a).2 := by
  unfold Etcd.checkPassword isLocked recordFailure Counted at *
  grind [maxFailures]

theorem Counted.checkAll (counted : Counted r) (attempts : List Attempt) :
    Counted (checkAll r attempts) := by
  induction attempts generalizing r with
  | nil => exact counted
  | cons a rest ih => exact ih (counted.checkPassword a)

/-! ## Failures in a row -/

/-- The record after failures at these instants. -/
inductive Fails : Record → List Int → Record → Prop
  | nil (r : Record) : Fails r [] r
  | cons {r r' : Record} {t : Int} {later : List Int}
    (free : ∀ s ∈ r, ∀ u ∈ s.lockedUntil, u ≤ t)
    (rest : Fails (failAt r t) later r') : Fails r (t :: later) r'

theorem fails_of_failures (ordered : Ordered attempts)
    (recorded : failures r attempts = some times) :
    Fails r times (checkAll r attempts) ∧ times.Sublist (attempts.map Attempt.recorded) := by
  induction attempts generalizing r times with
  | nil =>
    cases recorded
    exact ⟨.nil r, List.Sublist.refl _⟩
  | cons a rest ih =>
    have ⟨each, sorted⟩ := ordered
    rw [forall_mem_cons] at each
    have later := fun {r times} => @ih r times ⟨each.2, (pairwise_cons.mp sorted).2⟩
    unfold failures at recorded
    rw [checkAll, foldl_cons]
    cases checked : checkPassword r a with
    | mk verdict r' =>
      rw [checked] at recorded
      cases verdict with
      | locked =>
        cases of_locked checked
        obtain ⟨fails, sub⟩ := later recorded
        exact ⟨fails, sub.cons _⟩
      | failed =>
        obtain ⟨times, found, rfl⟩ := Option.map_eq_some_iff.mp recorded
        obtain ⟨free, rfl⟩ := of_failed checked
        obtain ⟨fails, sub⟩ := later found
        exact ⟨.cons (fun s mem u isSet => Int.le_trans (free s mem u isSet) each.1) fails,
          sub.cons_cons _⟩
      | passed => cases recorded

theorem Fails.locks {k : Nat} {last : Int} (fails : Fails (some ⟨k, first, none⟩) times r)
    (count : k + times.length = maxFailures) (within : ∀ t ∈ times, t - first ≤ failureWindow)
    (isLast : times.getLast? = some last) :
    r = some ⟨maxFailures, first, some (last + lockoutDuration)⟩ := by
  induction times generalizing k with
  | nil => cases isLast
  | cons t later ih =>
    rw [forall_mem_cons] at within
    rw [length_cons] at count
    cases fails with
    | cons _ rest =>
      have inside : ¬ t - first > failureWindow := Int.not_lt.mpr within.1
      rw [failAt_of_unlocked rfl] at rest
      simp only [recordFailure, if_neg inside] at rest
      cases later with
      | nil =>
        -- The fifth failure.
        cases isLast
        rw [if_pos (by simp at count; omega)] at rest
        cases rest
        rw [← count]
        rfl
      | cons t' later =>
        rw [if_neg (by simp at count ⊢; omega)] at rest
        exact ih rest (by omega) within.2 isLast

/-- Of the failures from `first` on `k` are recorded, and the counter is not at `k`: it is
ahead or was reset. Or the lockout came early. -/
def Late (first : Int) (k : Nat) (r : Record) : Prop :=
  ∃ a ∈ r, a.lockedUntil = none ∧ a.failures < maxFailures ∧ a.failures ≠ k ∨
    k < maxFailures ∧ ∃ u ∈ a.lockedUntil, first + failureWindow < u

theorem Fails.late {k : Nat} (fails : Fails r times r') (late : Late first k r) (some_ : 1 ≤ k)
    (count : k + times.length = maxFailures)
    (within : ∀ t ∈ times, first ≤ t ∧ t - first ≤ failureWindow) : Late first maxFailures r' := by
  induction fails generalizing k with
  | nil r =>
    rw [← count]
    exact late
  | @cons r r' t later free rest ih =>
    rw [forall_mem_cons] at within
    rw [length_cons] at count
    refine ih (k := k + 1) ?_ (by omega) (by omega) within.2
    obtain ⟨a, mem, counting | ⟨-, u, isSet, beyond⟩⟩ := late
    · obtain ⟨unlocked, below, other⟩ := counting
      cases mem
      simp only [failAt_of_unlocked unlocked, recordFailure]
      split
      · exact ⟨_, rfl, Or.inl ⟨rfl, (by decide : 1 < maxFailures), by simp only; omega⟩⟩
      · split
        · refine ⟨_, rfl, Or.inr ⟨by omega, _, rfl, ?_⟩⟩
          simp only [failureWindow, lockoutDuration] at within ⊢
          omega
        · exact ⟨_, rfl, Or.inl ⟨unlocked, by simp only; omega, by simp only; omega⟩⟩
    · have expired := free a mem u isSet
      omega

/-! ## The lockout -/

/-- A failure at this instant is the first of its window: no failure is counted, or those that
are have left the window or led to a lockout, which is over when a failure is recorded. -/
def Opens (r : Record) (now : Int) : Prop :=
  ∀ a ∈ r, a.lockedUntil = none → failureWindow < now - a.firstFail

theorem checkAll_locked {s : AuthAttempt} {u : Int} (isSet : s.lockedUntil = some u)
    (before : ∀ a ∈ attempts, a.asked < u) : checkAll (some s) attempts = some s := by
  induction attempts with
  | nil => rfl
  | cons a rest ih =>
    rw [forall_mem_cons] at before
    have locked : checkPassword (some s) a = (.locked, some s) := by
      simp [checkPassword, isLocked, isSet, before.1]
    rw [checkAll, foldl_cons, locked]
    exact ih before.2

theorem checkAll_append (r : Record) (first second : List Attempt) :
    checkAll r (first ++ second) = checkAll (checkAll r first) second := foldl_append

theorem Ordered.recorded (ordered : Ordered attempts) :
    (attempts.map Attempt.recorded).Pairwise (· ≤ ·) := by
  rw [pairwise_map]
  refine ordered.2.imp_of_mem ?_
  intro a b _ isIn next
  exact Int.le_trans next (ordered.1 b isIn)

theorem Opens.failAt (opens : Opens r first) : failAt r first = some ⟨1, first, none⟩ := by
  unfold Opens at opens
  cases r with
  | none => rfl
  | some a => grind [Etcd.failAt, recordFailure]

theorem late_of_not_opens (counted : Counted r) (closed : ¬ Opens r first) :
    Late first 1 (failAt r first) := by
  simp only [Opens, not_forall] at closed
  obtain ⟨a, rfl, unlocked, inside⟩ := closed
  obtain ⟨some_, below⟩ := counted a rfl
  simp only [failAt_of_unlocked unlocked, recordFailure, if_neg inside]
  split
  · exact ⟨_, rfl, Or.inr ⟨by decide, _, rfl, by simp only [failureWindow, lockoutDuration]; omega⟩⟩
  · exact ⟨_, rfl, Or.inl ⟨unlocked, by simp only; omega, by simp only; omega⟩⟩

/-- **Five failures within the window lock the username out** for the whole lockout, whatever
is attempted meanwhile, exactly when the first of them opens a window. -/
theorem lockout_iff (past attempts : List Attempt) (ordered : Ordered (past ++ attempts))
    {first last : Int} {between : List Int}
    (recorded : failures (checkAll none past) attempts = some (first :: (between ++ [last])))
    (five : (first :: (between ++ [last])).length = maxFailures)
    (within : last - first ≤ failureWindow) :
    (∀ later now, Ordered (past ++ attempts ++ later) → (∀ a ∈ later, a.recorded ≤ now) →
        last ≤ now → now < last + lockoutDuration →
        (isLocked (checkAll none (past ++ attempts ++ later)) now).1 = true) ↔
      Opens (checkAll none past) first := by
  have inner : Ordered attempts := ⟨fun a mem => ordered.1 a (mem_append_right _ mem),
    (pairwise_append.mp ordered.2).2.1⟩
  have counted : Counted (checkAll none past) := Counted.checkAll (by simp [Counted]) past
  obtain ⟨fails, sub⟩ := fails_of_failures inner recorded
  obtain ⟨after, sorted⟩ := pairwise_cons.mp (inner.recorded.sublist sub)
  have bounds : ∀ t ∈ between ++ [last], first ≤ t ∧ t - first ≤ failureWindow := by
    intro t mem
    have upTo : t ≤ last := by
      rcases mem_append.mp mem with early | isLast
      · exact (pairwise_append.mp sorted).2.2 t early last mem_cons_self
      · exact (mem_singleton.mp isLast).le
    exact ⟨after t mem, by omega⟩
  rw [length_cons, Nat.add_comm] at five
  cases fails with
  | cons free rest =>
    constructor
    · intro locks
      by_contra closed
      have now := locks [] last (by rwa [append_nil]) (by simp) le_rfl
        (Int.lt_add_of_pos_right _ (by decide))
      rw [append_nil, checkAll_append] at now
      obtain ⟨a, isLeft, ⟨unlocked, -⟩ | ⟨full, -⟩⟩ :=
        rest.late (late_of_not_opens counted closed) le_rfl five bounds
      · rw [Option.mem_def.mp isLeft] at now
        simp [isLocked, unlocked] at now
      · exact lt_irrefl _ full
    · intro opens later now ordered upTo _ before
      rw [opens.failAt] at rest
      have left := rest.locks five (fun t mem => (bounds t mem).2) getLast?_concat
      rw [checkAll_append, checkAll_append, left, checkAll_locked rfl]
      · simp [isLocked, before]
      · intro a mem
        have asked := ordered.1 a (mem_append_right _ mem)
        have recorded := upTo a mem
        omega

def failedAt (second : Int) : Attempt where
  asked := second * 10 ^ 9
  recorded := second * 10 ^ 9

theorem lockout_iff_fresh :
    let attempts := [0, 60, 120, 180, 300].map failedAt
    failures none attempts = some (attempts.map Attempt.recorded) ∧
      (isLocked (checkAll none (attempts ++ [failedAt 1199])) (failedAt 1199).asked).1 = true := by
  refine ⟨by decide, ?_⟩
  exact (@lockout_iff [] ([0, 60, 120, 180, 300].map failedAt) (by decide) 0 (300 * 10 ^ 9)
    [60 * 10 ^ 9, 120 * 10 ^ 9, 180 * 10 ^ 9] (by decide) (by decide) (by decide)).mpr nofun
    [failedAt 1199] _ (by decide) (by decide) (by decide) (by decide)

/-- Five failures within 62 seconds, after one that opened the window, and no lockout: the
fourth of them resets the counter. -/
theorem five_failures_unlocked :
    let past := [failedAt 0]
    let attempts := [240, 240, 240, 301, 302].map failedAt
    Ordered (past ++ attempts) ∧
      failures (checkAll none past) attempts = some (attempts.map Attempt.recorded) ∧
      (failedAt 302).recorded - (failedAt 240).recorded ≤ failureWindow ∧
      (isLocked (checkAll none (past ++ attempts)) (failedAt 302).recorded).1 = false := by
  decide

end T4.Etcd
