import Mathlib.Data.List.Basic

/-!
# Guarded step functions and their runs

A `System` is an executable transition system: `step s a` is the state after
action `a`, or `none` when `a` is not enabled in `s`. Whatever a scheduler, a
network or a failing disk may choose is part of the action, so one run is one
list of actions and can be replayed.

* `System.run` replays a list of actions; `System.Meets P` says that every
  action of such a list was taken in a state where the condition `P` held.
* `System.run_invariant` and `System.trace_invariant` are the two induction
  rules: what holds initially and survives each step (that meets the condition)
  holds after every run; the second rule also sees the actions taken so far.
-/

namespace T4.Lib

/-- A guarded, executable transition system. -/
structure System (σ α : Type*) where
  init : σ → Prop
  step : σ → α → Option σ

namespace System

variable {σ α : Type*} (sys : System σ α)

/-- Replay `actions` from `s`; `none` when one of them is not enabled. -/
def run (s : σ) : List α → Option σ
  | [] => some s
  | a :: rest =>
    match sys.step s a with
    | none => none
    | some next => run next rest

/-- Every action of the list is taken in a state that satisfies `P` for it. -/
def Meets (P : σ → α → Prop) (s : σ) : List α → Prop
  | [] => True
  | a :: rest => P s a ∧ ∀ next, sys.step s a = some next → Meets P next rest

/-- `s` is the end of some run from an initial state. -/
def Reachable (s : σ) : Prop :=
  ∃ start actions, sys.init start ∧ sys.run start actions = some s

variable {sys}

variable {s t : σ} {P : σ → α → Prop} {actions : List α}

theorem run_cons {a : α} {rest : List α} :
    sys.run s (a :: rest) = some t ↔
      ∃ next, sys.step s a = some next ∧ sys.run next rest = some t := by
  rw [run]
  cases sys.step s a with
  | none => simp
  | some next => simp

theorem run_append {first second : List α} :
    sys.run s (first ++ second) = some t ↔
      ∃ middle, sys.run s first = some middle ∧ sys.run middle second = some t := by
  induction first generalizing s with
  | nil => simp [run]
  | cons a rest ih =>
    simp only [List.cons_append, run_cons, ih]
    constructor
    · rintro ⟨next, stepped, middle, front, back⟩
      exact ⟨middle, ⟨next, stepped, front⟩, back⟩
    · rintro ⟨middle, ⟨next, stepped, front⟩, back⟩
      exact ⟨next, stepped, middle, front, back⟩

theorem Meets.cons {P : σ → α → Prop} {s next : σ} {a : α} {rest : List α} (here : P s a)
    (stepped : sys.step s a = some next) (later : sys.Meets P next rest) :
    sys.Meets P s (a :: rest) := by
  refine ⟨here, ?_⟩
  intro other otherStep
  cases stepped.symm.trans otherStep
  exact later

/-- A condition that can be decided at each step can be decided along a list. -/
instance decidableMeets {P : σ → α → Prop} [∀ s a, Decidable (P s a)] :
    (s : σ) → (actions : List α) → Decidable (sys.Meets P s actions)
  | _, [] => isTrue trivial
  | s, a :: rest =>
    match stepped : sys.step s a with
    | none => decidable_of_iff (P s a) (by simp [Meets, stepped])
    | some next =>
      have : Decidable (sys.Meets P next rest) := decidableMeets next rest
      decidable_of_iff (P s a ∧ sys.Meets P next rest) (by simp [Meets, stepped])

theorem exists_of_run (sys : System σ α) (s : σ) (actions : List α) (P : σ → Prop)
    [DecidablePred P] (replayed : (sys.run s actions).any (fun t => P t) = true) :
    ∃ t, sys.run s actions = some t ∧ P t := by
  obtain ⟨t, ran, reached⟩ := (Option.any_eq_true _ _).mp replayed
  exact ⟨t, ran, of_decide_eq_true reached⟩

/-- A replayed run, with what follows for the state it ends in. -/
theorem exists_run {P Q : σ → Prop} [DecidablePred P]
    (replayed : (sys.run s actions).any (fun t => P t) = true)
    (follows : ∀ t, sys.run s actions = some t → P t → Q t) :
    ∃ t, sys.run s actions = some t ∧ Q t := by
  obtain ⟨t, ran, reached⟩ := exists_of_run sys s actions P replayed
  exact ⟨t, ran, follows t ran reached⟩

theorem exists_run_and {P Q : σ → Prop} [DecidablePred P]
    (replayed : (sys.run s actions).any (fun t => P t) = true)
    (follows : ∀ t, sys.run s actions = some t → P t → Q t) :
    ∃ t, sys.run s actions = some t ∧ P t ∧ Q t :=
  exists_run replayed (fun t ran reached => ⟨reached, follows t ran reached⟩)

theorem Meets.of_forall (all : ∀ a ∈ actions, ∀ s, P s a) (s : σ) : sys.Meets P s actions := by
  induction actions generalizing s with
  | nil => trivial
  | cons a rest ih =>
    have ⟨here, later⟩ := List.forall_mem_cons.mp all
    exact ⟨here s, fun next _ => ih later next⟩

theorem Meets.true (s : σ) (actions : List α) : sys.Meets (fun _ _ => True) s actions :=
  .of_forall (fun _ _ _ => trivial) s

/-- **Run rule.** What every step that meets `P` preserves holds after every run
whose steps all meet `P`. -/
theorem run_invariant {I : σ → Prop}
    (preserved : ∀ {s a next}, I s → P s a → sys.step s a = some next → I next) (start : I s)
    (meets : sys.Meets P s actions) (ran : sys.run s actions = some t) : I t := by
  induction actions generalizing s with
  | nil =>
    cases ran
    exact start
  | cons a rest ih =>
    obtain ⟨next, stepped, ran⟩ := run_cons.mp ran
    exact ih (preserved start meets.1 stepped) (meets.2 next stepped) ran

/-- **Trace rule.** Like `run_invariant`, for an invariant that also speaks
about the actions taken so far. -/
theorem trace_invariant {I : List α → σ → Prop} (preserved : ∀ {past s a next},
      I past s → P s a → sys.step s a = some next → I (past ++ [a]) next) (past : List α)
    (start : I past s) (meets : sys.Meets P s actions) (ran : sys.run s actions = some t) :
    I (past ++ actions) t := by
  induction actions generalizing s past with
  | nil =>
    cases ran
    simpa using start
  | cons a rest ih =>
    obtain ⟨next, stepped, ran⟩ := run_cons.mp ran
    have extended := ih (past ++ [a]) (preserved start meets.1 stepped) (meets.2 next stepped) ran
    simpa using extended

theorem Reachable.invariant {I : σ → Prop} (reached : sys.Reachable s)
    (initial : ∀ {start}, sys.init start → I start)
    (preserved : ∀ {s a next}, I s → sys.step s a = some next → I next) : I s := by
  obtain ⟨start, actions, isInit, ran⟩ := reached
  exact run_invariant (P := fun _ _ => True) (fun held _ stepped => preserved held stepped)
    (initial isInit) (Meets.true start actions) ran

end System

end T4.Lib
